import ExtensionLowering.Token
/-!
# Diagnostics

Coded errors tied to a place in a source file. The message of a code has one hole; an argument that
does not fit it, a missing argument and surplus arguments are all shown in the message.
-/
namespace ExtensionLowering

inductive ErrorCode where
  | noImportPath
  | noExportName
  | noFluentSignature
  | ledgerBroken
  | configUnreadable
  | configInvalid
  | other (code : String)
  deriving Repr, DecidableEq

namespace ErrorCode

def text : ErrorCode → String
  | .noImportPath => "T001"
  | .noExportName => "T002"
  | .noFluentSignature => "T003"
  | .ledgerBroken => "T004"
  | .configUnreadable => "C001"
  | .configInvalid => "C002"
  | .other code => code

def ofText : String → ErrorCode
  | "T001" => .noImportPath
  | "T002" => .noExportName
  | "T003" => .noFluentSignature
  | "T004" => .ledgerBroken
  | "C001" => .configUnreadable
  | "C002" => .configInvalid
  | code => .other code

end ErrorCode

inductive MessageArg where
  | text (value : String)
  | int (value : Int)
  | bool (value : Bool)
  | nothing
  deriving Repr, DecidableEq

namespace MessageArg

def plain : MessageArg → String
  | .text s => s
  | .int n => toString n
  | .bool b => if b then "true" else "false"
  | .nothing => "<nil>"

def typed : MessageArg → String
  | .text s => "string=" ++ s
  | .int n => "int=" ++ toString n
  | .bool b => "bool=" ++ if b then "true" else "false"
  | .nothing => "<nil>"

end MessageArg

/-- A message text with one hole. A hole for texts marks any other argument. -/
structure MessageForm where
  before : String
  onlyText : Bool
  after : String

namespace MessageForm

def hole (f : MessageForm) : Option MessageArg → String
  | none => if f.onlyText then "%!s(MISSING)" else "%!v(MISSING)"
  | some (.text s) => s
  | some a => if f.onlyText then "%!s(" ++ a.typed ++ ")" else a.plain

def surplus : List MessageArg → String
  | [] => ""
  | args => "%!(EXTRA " ++ ", ".intercalate (args.map MessageArg.typed) ++ ")"

def fill (f : MessageForm) (args : List MessageArg) : String :=
  f.before ++ f.hole args.head? ++ f.after ++ surplus args.tail

end MessageForm

def ErrorCode.form : ErrorCode → MessageForm
  | .noImportPath =>
    ⟨"cannot get import path for file ", true, ", make sure to add it in your tsplus.config.json"⟩
  | .noExportName => ⟨"cannot find export name for operator extension ", true, ""⟩
  | .noFluentSignature => ⟨"cannot find fluent signature for call to ", true, ""⟩
  | .ledgerBroken => ⟨"import ledger invariant violated: ", true, ""⟩
  | .configUnreadable => ⟨"cannot load config: ", true, ""⟩
  | .configInvalid => ⟨"invalid config: ", true, ""⟩
  | .other _ => ⟨"", false, ""⟩

structure Diagnostic where
  code : ErrorCode
  token : Token := {}
  file : String := ""
  message : String
  cause : Option String := none
  deriving Repr, DecidableEq

namespace Diagnostic

def ofArgs (code : ErrorCode) (token : Token) (args : List MessageArg) : Diagnostic :=
  { code, token, message := code.form.fill args }

/-- A disagreement between the facts and the tree: the message itself is kept as the cause. -/
def invariant (code : ErrorCode) (token : Token) (args : List MessageArg) : Diagnostic :=
  let d := ofArgs code token args
  { d with cause := some d.message }

def wrap (code : ErrorCode) (error : String) : Diagnostic :=
  { ofArgs code {} [.text error] with cause := some error }

def withFile (d : Diagnostic) (file : String) : Diagnostic :=
  { d with file }

def orFile (d : Diagnostic) (file : String) : Diagnostic :=
  if d.file = "" then d.withFile file else d

/-- The place a diagnostic points at: the file, and line and column when they are known. -/
def place (d : Diagnostic) : String :=
  if d.token.hasPosition then
    d.file ++ ":" ++ toString d.token.line ++ ":" ++ toString d.token.column
  else d.file

def text (d : Diagnostic) : String :=
  let body := "error [" ++ d.code.text ++ "]: " ++ d.message
  if d.place = "" then body else d.place ++ ": " ++ body

end Diagnostic

end ExtensionLowering

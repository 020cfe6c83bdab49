import ExtensionLowering.Text.Utf8
/-!
# Command line options

Options and files may be mixed. A value follows its flag as the next argument, after an equals sign
or, for a flag of one letter, at once; `--` ends the options. A value in double quotes is unquoted.
-/
namespace ExtensionLowering.CommandLine

/-- The value of a flag. Escapes can spell octets that are no text: they are shown as replacement
characters. -/
structure FlagValue where
  text : String := ""
  isText : Bool := true
  deriving Repr, DecidableEq

structure Options where
  config : FlagValue := {}
  trace : FlagValue := { text := "Error" }
  noColor : Bool := false
  files : List String := []
  deriving Repr, DecidableEq

inductive Flag where
  | config | trace | noColor | help
  deriving Repr, DecidableEq

namespace Flag

def ofLong? : String → Option Flag
  | "config" => some .config
  | "trace" => some .trace
  | "no-color" => some .noColor
  | "help" => some .help
  | _ => none

def ofShort? : Char → Option Flag
  | 'c' => some .config
  | 'h' => some .help
  | _ => none

def label : Flag → String
  | .config => "-c, --config"
  | .trace => "--trace"
  | .noColor => "--no-color"
  | .help => "-h, --help"

def takesValue : Flag → Bool
  | .config => true
  | .trace => true
  | .noColor => false
  | .help => false

end Flag

inductive UsageError where
  | unknownFlag (name : String)
  | noValue (flag : Flag)
  | optionAsValue (flag : Flag) (option : String)
  | dashesAsValue (flag : Flag)
  | surplusValue (flag : Flag)
  | badQuotes (flag : Flag)
  deriving Repr, DecidableEq

/-- Skips a number behind digits of a value. Behind a number above a million nothing is read. -/
def skipNumber (value : Nat) : List Char → Option (List Char)
  | [] => some []
  | c :: cs =>
    if ! c.isDigit then some (c :: cs)
    else if 1000000 < value then none
    else skipNumber (value * 10 + (c.toNat - '0'.toNat)) cs

/-- The beginning of a hole: what is shown for it so far, whether it asks for an argument by number, and
the text behind. -/
structure HoleStart where
  shown : String := ""
  numbered : Bool := false
  behindNumber : Bool := false
  rest : List Char
  deriving Repr, DecidableEq

namespace HoleStart

/-- Reads a number in brackets. A bracket that is not closed is read alone. -/
def argument (h : HoleStart) : HoleStart :=
  match h.rest with
  | '[' :: cs =>
    let inner := cs.takeWhile (· ≠ ']')
    match cs.drop inner.length with
    | [] => { h with numbered := true, behindNumber := false, rest := cs }
    | _ :: rest =>
      let isNumber := ! inner.isEmpty && skipNumber 0 inner = some []
      { h with numbered := true, behindNumber := isNumber, rest }
  | _ => { h with behindNumber := false }

/-- Reads a measure: a star, which would take an argument, or a number. -/
def measure (h : HoleStart) (missing : String) : HoleStart :=
  match h.rest with
  | '*' :: rest => { h with shown := h.shown ++ missing, behindNumber := false, rest }
  | rest => { h with rest := (skipNumber 0 rest).getD [] }

def precision (h : HoleStart) : HoleStart :=
  match h.rest with
  | '.' :: rest => ({ h with rest } : HoleStart).argument.measure "%!(BADPREC)"
  | _ => h

def read (cs : List Char) : HoleStart :=
  let h : HoleStart := { rest := cs.dropWhile ['#', '0', '+', '-', ' '].contains }
  let h := (h.argument.measure "%!(BADWIDTH)").precision
  if h.behindNumber then h else h.argument

end HoleStart

/-- What stands for a percent sign with the characters behind it in a message without arguments: a
hole is shown as missing, and a doubled sign is one. -/
def emptyHole (cs : List Char) : String × List Char :=
  let h := HoleStart.read cs
  match h.rest with
  | [] => (h.shown ++ "%!(NOVERB)", [])
  | '%' :: rest => (h.shown ++ "%", rest)
  | c :: rest =>
    (h.shown ++ "%!" ++ String.singleton c ++ (if h.numbered then "(BADINDEX)" else "(MISSING)"), rest)

/-- A message without arguments, in which percent signs open holes. At most so many characters are
read. -/
def showHoles : Nat → List Char → String
  | 0, _ => ""
  | _ + 1, [] => ""
  | n + 1, '%' :: cs =>
    let (text, rest) := emptyHole cs
    text ++ showHoles n rest
  | n + 1, c :: cs => String.singleton c ++ showHoles n cs

/-- A message without arguments, in which percent signs open holes. -/
def withHoles (message : String) : String :=
  showHoles message.length message.toList

namespace UsageError

def message : UsageError → String
  | .unknownFlag name => "unknown flag `" ++ name ++ "'"
  | .noValue flag => "expected argument for flag `" ++ flag.label ++ "'"
  | .optionAsValue flag option =>
    withHoles
      ("expected argument for flag `" ++ flag.label ++ "', but got option `" ++ option ++ "'")
  | .dashesAsValue flag =>
    "expected argument for flag `" ++ flag.label ++ "', but got double dash `--'"
  | .surplusValue flag => "bool flag `" ++ flag.label ++ "' cannot have an argument"
  | .badQuotes flag =>
    "invalid argument for flag `" ++ flag.label ++ "' (expected string): invalid syntax"

end UsageError

inductive Stop where
  | help
  | wrong (error : UsageError)
  deriving Repr, DecidableEq

/-- Is an argument an option? One or two dashes must be followed by something else. -/
def isOption (arg : String) : Bool :=
  match arg.toList with
  | '-' :: '-' :: c :: _ => c ≠ '-'
  | ['-', '-'] => false
  | '-' :: _ :: _ => true
  | _ => false

def codeBytes (code : Nat) : List Nat :=
  (String.singleton (Char.ofNat code)).toUTF8.toList.map UInt8.toNat

def fixedDigits (base count : Nat) (cs : List Char) : Option (Nat × List Char) := do
  let ds := cs.take count
  if ds.length < count then none
  else
    let values ← ds.mapM fun c =>
      if c.isDigit then some (c.toNat - 0x30)
      else if 'a' ≤ c.toLower ∧ c.toLower ≤ 'f' then some (c.toLower.toNat - 0x61 + 10)
      else none
    if values.all (· < base) then
      some (values.foldl (fun n d => n * base + d) 0, cs.drop count)
    else none

def unescape : List Char → Option (List Nat × List Char)
  | 'a' :: cs => some ([0x07], cs)
  | 'b' :: cs => some ([0x08], cs)
  | 'f' :: cs => some ([0x0c], cs)
  | 'n' :: cs => some ([0x0a], cs)
  | 'r' :: cs => some ([0x0d], cs)
  | 't' :: cs => some ([0x09], cs)
  | 'v' :: cs => some ([0x0b], cs)
  | '\\' :: cs => some ([0x5c], cs)
  | '"' :: cs => some ([0x22], cs)
  | 'x' :: cs => (fixedDigits 16 2 cs).map fun (n, cs) => ([n], cs)
  | 'u' :: cs => escapedCode (fixedDigits 16 4 cs)
  | 'U' :: cs => escapedCode (fixedDigits 16 8 cs)
  | cs => do
    let (n, cs) ← fixedDigits 8 3 cs
    if n ≤ 255 then some ([n], cs) else none
where
  escapedCode (found : Option (Nat × List Char)) : Option (List Nat × List Char) := do
    let (n, cs) ← found
    if n.isValidChar then some (codeBytes n, cs) else none

def unquoteBytes : Nat → List Char → Option (List Nat)
  | 0, _ => none
  | _ + 1, [] => none
  | _ + 1, ['"'] => some []
  | n + 1, c :: cs =>
    if c = '"' || c = '\n' then none
    else if c = '\\' then do
      let (bytes, cs) ← unescape cs
      (unquoteBytes n cs).map (bytes ++ ·)
    else (unquoteBytes n cs).map (codeBytes c.toNat ++ ·)

def FlagValue.ofBytes (bytes : List Nat) : FlagValue :=
  let text := Text.ofBytes bytes
  { text, isText := text.toUTF8.toList.map UInt8.toNat = bytes }

def unquote? (s : String) : Option FlagValue :=
  match s.toList with
  | '"' :: cs => (unquoteBytes (cs.length + 1) cs).map FlagValue.ofBytes
  | _ => some { text := s }

namespace Options

def give (o : Options) (flag : Flag) (value : String) : Except Stop Options :=
  match unquote? value with
  | none => .error (.wrong (.badQuotes flag))
  | some v =>
    match flag with
    | .config => .ok { o with config := v }
    | .trace => .ok { o with trace := v }
    | _ => .ok o

def raise (o : Options) : Flag → Except Stop Options
  | .help => .error .help
  | .noColor => .ok { o with noColor := true }
  | _ => .ok o

end Options

/-- An option taken apart: its name and a value written in the same argument. -/
structure OptionText where
  flag : Flag
  value : Option String

def cutAtEquals (cs : List Char) : List Char × Option String :=
  match cs.dropWhile (· ≠ '=') with
  | [] => (cs, none)
  | _ :: value => (cs.takeWhile (· ≠ '='), some (String.ofList value))

/-- Takes an option with one dash apart. Characters behind a letter that takes no value would be
further flags; no such letter lets them be reached. -/
def shortOption : List Char → Except UsageError OptionText
  | [] => .error (.unknownFlag "")
  | c :: cs =>
    match Flag.ofShort? c with
    | none => .error (.unknownFlag (String.singleton c))
    | some flag =>
      match cs with
      | [] => .ok ⟨flag, none⟩
      | '=' :: value => .ok ⟨flag, some (String.ofList value)⟩
      | cs => .ok ⟨flag, if flag.takesValue then some (String.ofList cs) else none⟩

def optionText (arg : String) : Except UsageError OptionText :=
  match arg.toList with
  | '-' :: '-' :: cs =>
    let (name, value) := cutAtEquals cs
    match Flag.ofLong? (String.ofList name) with
    | none => .error (.unknownFlag (String.ofList name))
    | some flag => .ok ⟨flag, value⟩
  | cs => shortOption (cs.drop 1)

/-- An argument that is to be the value of a flag must not look like an option. -/
def checkValue (flag : Flag) (value : String) : Except Stop Unit :=
  if isOption value then .error (.wrong (.optionAsValue flag value))
  else if value = "--" then .error (.wrong (.dashesAsValue flag))
  else .ok ()

def Options.read (o : Options) : List String → Except Stop Options
  | [] => .ok o
  | arg :: rest =>
    if arg = "--" then .ok { o with files := o.files ++ rest }
    else if ! isOption arg then ({ o with files := o.files ++ [arg] }).read rest
    else
      match optionText arg with
      | .error e => .error (.wrong e)
      | .ok t =>
        if ! t.flag.takesValue then
          if t.value.isSome then .error (.wrong (.surplusValue t.flag))
          else o.raise t.flag >>= (·.read rest)
        else
          match t.value with
          | some v => o.give t.flag v >>= (·.read rest)
          | none =>
            match rest with
            | [] => .error (.wrong (.noValue t.flag))
            | v :: rest => checkValue t.flag v >>= fun _ => o.give t.flag v >>= (·.read rest)

def Options.ofArgs (args : List String) : Except Stop Options :=
  ({} : Options).read args

def helpText : String :=
  "Usage:\n" ++
  "  tsplusc [OPTIONS] [file...]\n" ++
  "\n" ++
  "Application Options:\n" ++
  "  -c, --config=   URL or path of the config file\n" ++
  "      --trace=    trace level [Debug|Info|Error] (default: Error)\n" ++
  "      --no-color  never colour diagnostics\n" ++
  "\n" ++
  "Help Options:\n" ++
  "  -h, --help      Show this help message\n"

end ExtensionLowering.CommandLine

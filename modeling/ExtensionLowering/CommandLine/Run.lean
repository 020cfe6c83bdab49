import ExtensionLowering.CommandLine.Options
import ExtensionLowering.Config.Basic
/-!
# The command

Checks a configuration and shows, for each file given, the import path and the trace name that are
written for it. Without an option the configuration is searched upwards from the working directory.
-/
namespace ExtensionLowering.CommandLine

structure Outcome where
  code : Nat := 0
  stdout : String := ""
  stderr : String := ""
  deriving Repr, DecidableEq

structure Store where
  content? : String → Option (List Nat)

def Store.holds (s : Store) (path : String) : Bool :=
  (s.content? path).isSome

namespace Outcome

def print (o : Outcome) (line : String) : Outcome :=
  { o with stdout := o.stdout ++ line ++ "\n" }

/-- Reports an error; it decides the exit code. -/
def report (o : Outcome) (code : Nat) (line : String) : Outcome :=
  { o with code, stderr := o.stderr ++ line ++ "\n" }

end Outcome

def shown (color : Bool) (d : Diagnostic) : String :=
  if color then "\x1b[31m" ++ d.text ++ "\x1b[0m" else d.text

def showFile (c : Config) (color : Bool) (o : Outcome) (file : String) : Outcome :=
  match c.importPath? file with
  | none =>
    let d := Diagnostic.ofArgs .noImportPath {} [.text (c.relative file)]
    o.report 1 (shown color (d.withFile file))
  | some path => o.print (file ++ "\t" ++ path ++ "\t" ++ c.traceName file)

/-- The files that can have the name that a value gives: none when it is no text. -/
def Store.under (s : Store) (v : FlagValue) : Store :=
  if v.isText then s else { content? := fun _ => none }

def configAddress (here : String) (store : Store) (o : Options) : Except Diagnostic FlagValue :=
  if o.config.text ≠ "" then .ok o.config
  else
    match Config.find? here store.holds here with
    | some path => .ok { text := path }
    | none =>
      .error (Diagnostic.ofArgs .configUnreadable {}
        [.text ("no tsplus.config.json found from " ++ here)])

def addresses (here : String) (args : List String) : List String :=
  match Options.ofArgs args with
  | .error _ => []
  | .ok o =>
    if o.config.text ≠ "" then (if o.config.isText then [o.config.text] else [])
    else
      (Path.absolute here here).ancestors.flatMap fun d =>
        Config.fileNames.map (Path.join d.toString)

/-- Runs the command with its options read. Nothing is returned when reading the configuration breaks
down. -/
def runOptions? (here : String) (store : Store) (o : Options) (color : Bool) : Option Outcome :=
  let color := color && ! o.noColor
  match configAddress here store o with
  | .error d => some (({} : Outcome).report 1 (shown color d))
  | .ok url =>
    match Config.load here (store.under url).content? url.text with
    | .error .broken => none
    | .error (.reported d) => some (({} : Outcome).report 1 (shown color d))
    | .ok c =>
      let start := ({} : Outcome).print
        (url.text ++ ": " ++ toString c.moduleMap.length ++ " module rules, " ++
          toString c.traceMap.length ++ " trace rules")
      some (o.files.foldl (showFile c color) start)

def run? (here : String) (store : Store) (args : List String) (color : Bool) : Option Outcome :=
  match Options.ofArgs args with
  | .error .help => some (({} : Outcome).print helpText)
  | .error (.wrong e) => some (({} : Outcome).report 2 e.message)
  | .ok o => runOptions? here store o color

end ExtensionLowering.CommandLine

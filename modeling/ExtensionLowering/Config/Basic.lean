import ExtensionLowering.Config.Source
import ExtensionLowering.Diagnostic
import ExtensionLowering.Path
/-!
# Configuration

Maps declaring source files to the module paths and trace names that are written for them. Patterns
are matched against paths relative to the directory of the configuration file. Relative paths of
configuration files are taken from a working directory.
-/
namespace ExtensionLowering

structure Config where
  moduleMap : Rules := []
  traceMap : Rules := []
  /-- The directory patterns are relative to; empty for a configuration read from elsewhere. -/
  dir : String := ""

inductive ConfigError where
  | missing (url : String)
  | unparsable (error : SourceError)
  | badRule (field : ConfigField) (index : Nat) (error : RuleError)

namespace ConfigError

def code : ConfigError → ErrorCode
  | .missing _ => .configUnreadable
  | .unparsable _ => .configUnreadable
  | .badRule _ _ _ => .configInvalid

def message : ConfigError → String
  | .missing url => "reading " ++ url ++ ": no such file"
  | .unparsable error => "parsing: " ++ error.message
  | .badRule field index error =>
    field.name ++ "[" ++ toString index ++ "]: " ++ error.message

def diagnostic (e : ConfigError) (path : String) : Diagnostic :=
  (Diagnostic.wrap e.code e.message).withFile path

end ConfigError

/-- Why there is no configuration: an error is reported, or reading breaks down without a report. -/
inductive LoadFailure where
  | reported (d : Diagnostic)
  | broken

namespace Config

def fileNames : List String :=
  ["tsplus.config.json", "tsplus.config.yaml", "tsplus.config.yml"]

def dropBeginning? (beginning s : String) : Option String :=
  if beginning.toList.isPrefixOf s.toList then some (String.ofList (s.toList.drop beginning.length))
  else none

def hasScheme : List Char → Bool
  | [] => false
  | c :: cs => "://".toList.isPrefixOf (c :: cs) || hasScheme cs

/-- The local directory that holds a configuration file, or nothing for a remote one. -/
def baseDirectory (here url : String) : String :=
  match dropBeginning? "file://" url with
  | some path => (Path.absolute here (Path.directory path)).toString
  | none => if hasScheme url.toList then "" else (Path.absolute here (Path.directory url)).toString

def compileField (field : ConfigField) (texts : List RuleText) : Except ConfigError Rules :=
  (Rules.compile texts).mapError fun (i, e) => .badRule field i e

def ofSource (here : String) (s : ConfigSource) (path : String) : Except ConfigError Config := do
  let moduleMap ← compileField .moduleMap s.moduleMap
  let traceMap ← compileField .traceMap s.traceMap
  return { moduleMap, traceMap, dir := baseDirectory here path }

def parse (here : String) (content : List Nat) (path : String) : Except LoadFailure Config :=
  match ConfigSource.read? content with
  | none => .error .broken
  | some source =>
    (source.mapError .unparsable >>= (ofSource here · path)).mapError
      fun e => .reported (e.diagnostic path)

def load (here : String) (store : String → Option (List Nat)) (url : String) :
    Except LoadFailure Config :=
  match store url with
  | none => .error (.reported ((ConfigError.missing url).diagnostic url))
  | some content => parse here content url

/-- The configuration file nearest to a directory: in the directory itself or in one above it. -/
def find? (here : String) (present : String → Bool) (dir : String) : Option String :=
  (Path.absolute here dir).ancestors.findSome? fun d =>
    (fileNames.map (Path.join d.toString)).find? present

def relative (c : Config) (file : String) : String :=
  if c.dir ≠ "" && Path.isRooted file then
    ((Path.ofString file).relativeTo (Path.ofString c.dir)).toString
  else file

def importPath? (c : Config) (file : String) : Option String :=
  c.moduleMap.image? (c.relative file)

/-- The name of a file in traces: its relative path unless a rule says otherwise. -/
def traceName (c : Config) (file : String) : String :=
  (c.traceMap.image? (c.relative file)).getD (c.relative file)

end Config

end ExtensionLowering

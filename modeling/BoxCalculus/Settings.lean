import BoxCalculus.Files.Host
import BoxCalculus.Text.Fold
import BoxCalculus.Text.Quoted
import BoxCalculus.Toml.Document

/-!
# Settings of a project

A project has a file of settings at its root. The settings of a directory are those of the nearest
such file in the directory or above it. The search ends at the root of a repository.
-/

namespace BoxCalculus

/-- The settings of a project. -/
structure Settings where
  /-- Patterns of the files with the project's definitions. -/
  patterns : List String := []
  /-- The bound on the steps of each reduction. There is none if it is zero. -/
  fuel : Int := 0
  /-- The number of definitions that may be checked at a time, or zero. -/
  jobs : Int := 0
  debug : Bool := false
  /-- Are normal forms shown without their irrelevant parts? -/
  erase : Bool := false
  deriving DecidableEq, Inhabited

/-- Why settings cannot be used. -/
inductive SettingsProblem where
  | unreadable (fault : FileFault)
  | malformed
  | unknownKey (key : List String)
  | negative (key : String)
  deriving DecidableEq

/-- A problem with the settings in a file. -/
structure SettingsError where
  path : String
  problem : SettingsProblem

/-- The wording of the error. -/
def SettingsError.message (e : SettingsError) : String :=
  match e.problem with
  | .unreadable fault => "parsing " ++ e.path ++ ": " ++ fault.readMessage e.path
  | .malformed => "parsing " ++ e.path ++ ": malformed settings"
  | .unknownKey key => e.path ++ ": unknown key " ++ Text.quoted (Toml.keyText key)
  | .negative key => e.path ++ ": " ++ key ++ " must not be negative"

namespace Settings

/-- The name of a file of settings. -/
def fileName : String := "formal.toml"

/-- The keys of a file of settings. -/
def keys : List String := ["include", "fuel", "jobs", "debug", "erase"]

/-- The key that a name stands for: itself, or one that differs in case only. -/
def key? (name : String) : Option String :=
  if keys.contains name then some name else keys.find? (Text.alike name)

/-- The text of a node that is a string. -/
def text? : Toml.Literal → Option String
  | .string text => some text
  | _ => none

/-- Change the settings by the value of a key. The value has to have the right type; other keys have
no effect. -/
def set? (settings : Settings) (name : String) (node : Toml.Node) : Option Settings :=
  match key? name, node with
  | some "include", .literal (.array items) =>
      (items.mapM text?).map fun texts => { settings with patterns := texts }
  | some "fuel", .literal (.scalar (.integer value)) => some { settings with fuel := value }
  | some "jobs", .literal (.scalar (.integer value)) => some { settings with jobs := value }
  | some "debug", .literal (.scalar (.boolean value)) => some { settings with debug := value }
  | some "erase", .literal (.scalar (.boolean value)) => some { settings with erase := value }
  | some _, _ => none
  | none, _ => some settings

/-- Is the key of a document one of those that settings have? -/
def isKnown : List String → Bool
  | [name] => (key? name).isSome
  | _ => false

/-- The settings that a text stands for. -/
def parse (text : String) : Except SettingsProblem Settings := do
  let some doc := Toml.Document.parse? text | throw .malformed
  let some settings := doc.root.foldlM (fun settings (name, node) => settings.set? name node)
    ({} : Settings) | throw .malformed
  if let some key := doc.keys.reverse.find? (!isKnown ·) then throw (.unknownKey key)
  if settings.fuel < 0 then throw (.negative "fuel")
  if settings.jobs < 0 then throw (.negative "jobs")
  pure settings

variable {m : Type → Type} [Monad m] [Host m]

/-- The settings in a file. -/
def load (path : String) : m (Except SettingsError Settings) := do
  let problemOrText := (← Host.readFile path).mapError SettingsProblem.unreadable
  pure ((problemOrText.bind parse).mapError (⟨path, ·⟩))

/-- Search directories, the first first. -/
def findIn : List String → m (Except SettingsError (Option (String × Settings)))
  | [] => pure (.ok none)
  | directory :: above => do
      let path := Path.join [directory, fileName]
      if (← Host.isDirectory path).isOk then
        let found ← load path
        return found.map fun settings => some (path, settings)
      if (← Host.isDirectory (Path.join [directory, ".git"])).isOk then return .ok none
      findIn above

/-- Find the settings for a directory, and the file they are in. -/
def find (directory : String) : m (Except SettingsError (Option (String × Settings))) := do
  let current ← Host.workingDirectory
  let absolute := if Path.isAbsolute directory then directory else Path.join [current, directory]
  findIn (Path.ancestors (Path.resolve true [] (Path.components absolute)).reverse)

end Settings

end BoxCalculus

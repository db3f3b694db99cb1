import BoxCalculus.Files.Path
import BoxCalculus.Files.Pattern

/-!
# The host of a program

A host has files, a working directory and an output. What a program does with its files is written
once for every host: the system a command runs on, and a `World` that is a value.
-/

namespace BoxCalculus

/-- Why a file cannot be used. -/
inductive FileFault where
  | missing
  | isDirectory
  | notDirectory
  /-- A name in the path is longer than 255 bytes, or the path is longer than 4095. -/
  | tooLong
  /-- There is a zero byte in the path. -/
  | invalid
  deriving DecidableEq, Inhabited

/-- The wording of a fault. -/
def FileFault.message : FileFault → String
  | missing => "no such file or directory"
  | isDirectory => "is a directory"
  | notDirectory => "not a directory"
  | tooLong => "file name too long"
  | invalid => "invalid argument"

/-- The wording of a failure to read the file with this path. A directory can be opened, but not
read. -/
def FileFault.readMessage (fault : FileFault) (path : String) : String :=
  (if fault = isDirectory then "read " else "open ") ++ path ++ ": " ++ fault.message

/-- What a program needs of the system it runs on. -/
class Host (m : Type → Type) where
  /-- The absolute path of the working directory. -/
  workingDirectory : m String
  /-- The text of a file. -/
  readFile : (path : String) → m (Except FileFault String)
  /-- Is there a directory at the path, or a file? -/
  isDirectory : (path : String) → m (Except FileFault Bool)
  /-- The names in a directory, in no particular order. There are none if it is not a directory. -/
  listDirectory : (path : String) → m (List String)
  /-- Replace the text of a file. -/
  writeFile : (path text : String) → m Unit
  /-- Write to the output. -/
  print : (text : String) → m Unit

variable {m : Type → Type} [Monad m] [Host m]

/-- A program that may fail has the host of the programs it is made of. -/
instance {ε : Type} : Host (ExceptT ε m) where
  workingDirectory := ExceptT.lift Host.workingDirectory
  readFile path := ExceptT.lift (Host.readFile path)
  isDirectory path := ExceptT.lift (Host.isDirectory path)
  listDirectory path := ExceptT.lift (Host.listDirectory path)
  writeFile path text := ExceptT.lift (Host.writeFile path text)
  print text := ExceptT.lift (Host.print text)

/-- The files of a directory whose names match a pattern, in the order of their names. -/
def matchesIn (directory : String) (parts : List PatternPart) : m (List String) := do
  let names ← Host.listDirectory directory
  let names := (names.mergeSort fun a b => !(b < a)).filter fun name =>
    Pattern.accepts parts name
  pure (names.map fun name => Path.join [directory, name])

/-- The files whose paths match a pattern. There are none if the pattern is malformed. The number
counts down the directories in which the pattern is still to be matched. -/
def matchesUpTo? : Nat → (pattern : String) → m (Option (List String))
  | 0, _ => pure none
  | levels + 1, pattern => do
      if (Pattern.parts? pattern).isNone then return none
      if !Pattern.isProper pattern then
        match ← Host.isDirectory pattern with
        | .ok _ => return some [pattern]
        | .error _ => return some []
      let (above, name) := Path.split pattern
      let directory :=
        if above = "" then "." else if above = "/" then "/"
        else String.ofList above.toList.dropLast
      let some parts := Pattern.parts? name | return none
      if !Pattern.isProper directory then return some (← matchesIn directory parts)
      let some directories ← matchesUpTo? levels directory | return none
      return some (← directories.mapM fun directory => matchesIn directory parts).flatten

/-- The files whose paths match a pattern. There are none if the pattern is malformed. -/
def matches? (pattern : String) : m (Option (List String)) :=
  matchesUpTo? (Path.components pattern).length pattern

/-- A host that is a value: files and directories by the components of their paths, where a directory
has no text; the components of the working directory; and what has been written to the output. -/
structure World where
  entries : List (List String × Option String)
  workingDirectory : List String
  output : String
  deriving Inhabited

namespace World

/-- What is at the end of a path that is given by its components. -/
inductive Node where
  | file (text : String)
  | directory

/-- What is at a path, if anything is. Directories that hold something need no entry. -/
def node? (world : World) (path : List String) : Option Node :=
  match world.entries.lookup path with
  | some (some text) => some (.file text)
  | some none => some .directory
  | none =>
      if path = [] ∨ world.entries.any fun entry => path.isPrefixOf entry.1 then some .directory
      else none

/-- Follow components from a place. Each step has to start in a directory. -/
def walk (world : World) : (place : List String) → List String → Except FileFault (List String)
  | place, [] => .ok place
  | place, component :: rest =>
      match world.node? place with
      | none => .error .missing
      | some (.file _) => .error .notDirectory
      | some .directory =>
          if component = "" ∨ component = "." then world.walk place rest
          else if component = ".." then world.walk place.dropLast rest
          else if 255 < component.utf8ByteSize then .error .tooLong
          else world.walk (place ++ [component]) rest

/-- The components of the place that a path leads to, and what is there. -/
def locate (world : World) (path : String) : Except FileFault (List String × Node) := do
  if path.toList.contains '\x00' then throw .invalid
  if path = "" then throw .missing
  if 4095 < path.utf8ByteSize then throw .tooLong
  let start := if Path.isAbsolute path then [] else world.workingDirectory
  let place ← world.walk start (Path.components path)
  match world.node? place with
  | some node => pure (place, node)
  | none => throw .missing

/-- The names directly below a place. -/
def namesBelow (world : World) (place : List String) : List String :=
  let below := world.entries.filterMap fun entry =>
    if place.isPrefixOf entry.1 then entry.1[place.length]? else none
  below.eraseDups

/-- Replace the text of the file at a place. -/
def replaceText (world : World) (place : List String) (text : String) : World :=
  { world with entries := world.entries.map fun entry =>
      if entry.1 = place then (place, some text) else entry }

/-- A program that changes a world has it as its host. -/
instance : Host (StateM World) where
  workingDirectory := do
    let world ← get
    pure ("/" ++ "/".intercalate world.workingDirectory)
  readFile path := do
    match (← get).locate path with
    | .ok (_, .file text) => pure (.ok text)
    | .ok (_, .directory) => pure (.error .isDirectory)
    | .error fault => pure (.error fault)
  isDirectory path := do
    match (← get).locate path with
    | .ok (_, .file _) => pure (.ok false)
    | .ok (_, .directory) => pure (.ok true)
    | .error fault => pure (.error fault)
  listDirectory path := do
    let world ← get
    match world.locate path with
    | .ok (place, .directory) => pure (world.namesBelow place)
    | _ => pure []
  writeFile path text := modify fun world =>
    match world.locate path with
    | .ok (place, _) => world.replaceText place text
    | .error _ => world
  print text := modify fun world => { world with output := world.output ++ text }

end World

end BoxCalculus

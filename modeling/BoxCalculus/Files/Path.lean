import BoxCalculus.Text.Pieces

/-!
# Paths

A path is a text whose components stand between slashes. Cleaning a path resolves `.` and `..`
without looking at the file system.
-/

namespace BoxCalculus.Path

/-- Does the path start at the root? -/
def isAbsolute (path : String) : Bool :=
  path.toList.head? == some '/'

/-- The texts between the slashes of a path. -/
def components (path : String) : List String :=
  (Text.pieces '/' path.toList).map String.ofList

/-- Resolve `.` and `..` in components. The components before are given in reverse; `..` has no
effect at the root and is kept where it leads out of a relative path. -/
def resolve (absolute : Bool) : (before : List String) → List String → List String
  | before, [] => before.reverse
  | before, component :: rest =>
      if component = "" ∨ component = "." then resolve absolute before rest
      else if component = ".." then
        match before with
        | [] => resolve absolute (if absolute then [] else [".."]) rest
        | last :: earlier =>
            if last = ".." then resolve absolute (".." :: before) rest
            else resolve absolute earlier rest
      else resolve absolute (component :: before) rest

/-- The shortest path that means the same as long as no component is a link. -/
def clean (path : String) : String :=
  let absolute := isAbsolute path
  let body := "/".intercalate (resolve absolute [] (components path))
  if absolute then "/" ++ body else if body = "" then "." else body

/-- Join the parts that are not empty and clean the result. -/
def join (parts : List String) : String :=
  match parts.filter (· ≠ "") with
  | [] => ""
  | parts => clean ("/".intercalate parts)

/-- A path up to and including its last slash, and what comes after it. -/
def split (path : String) : String × String :=
  let file := (path.toList.reverse.takeWhile (· ≠ '/')).reverse
  (String.ofList (path.toList.take (path.length - file.length)), String.ofList file)

/-- The directory a path lies in. -/
def directory (path : String) : String :=
  clean (split path).1

/-- A directory with the directories above it, the innermost first, given its components in
reverse. -/
def ancestors : (reversed : List String) → List String
  | [] => ["/"]
  | last :: above => ("/" ++ "/".intercalate (last :: above).reverse) :: ancestors above

end BoxCalculus.Path

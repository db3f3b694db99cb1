import BoxCalculus.Toml.Statement

/-!
# Documents of TOML

The statements of a file build up a document: tables within tables, and the keys that were given,
in order. A table that was only mentioned as part of a key may be defined later, but no table is
defined twice and no key is given two values. Only an array may still be replaced.
-/

namespace BoxCalculus.Toml

/-- The value of a key: as it was written, a table, or an array of tables. -/
inductive Node where
  | literal (value : Literal)
  | table (entries : List (String × Node))
  | tables (elements : List (List (String × Node)))

/-- The entries of a table. -/
abbrev Table := List (String × Node)

/-- Set the value of a key that may have one. -/
def Table.insert (table : Table) (key : String) (node : Node) : Table :=
  if (table.lookup key).isSome then
    table.map fun entry => if entry.1 = key then (key, node) else entry
  else table ++ [(key, node)]

/-- The table that a path leads to. A path goes to the last element of an array of tables. -/
def Table.descend? (table : Table) : List String → Option Table
  | [] => some table
  | key :: rest =>
      match table.lookup key with
      | some (.table entries) => Table.descend? entries rest
      | some (.tables elements) => elements.getLast?.bind fun last => Table.descend? last rest
      | _ => none

/-- Change the table that a path leads to. -/
def Table.update (table : Table) (change : Table → Table) : List String → Table
  | [] => change table
  | key :: rest =>
      match table.lookup key with
      | some (.table entries) => table.insert key (.table (Table.update entries change rest))
      | some (.tables elements) =>
          let last := Table.update (elements.getLast?.getD []) change rest
          table.insert key (.tables (elements.dropLast ++ [last]))
      | _ => table

/-- A document while it is being built. -/
structure Document where
  root : Table
  /-- The keys that were given, the last first. -/
  keys : List (List String)
  /-- The tables that have only been mentioned so far. -/
  mentioned : List (List String)
  /-- The keys whose latest value is an array. -/
  arrays : List (List String)

namespace Document

/-- The document without statements. -/
def empty : Document := ⟨[], [], [], []⟩

/-- Note that a key was given. -/
def note (doc : Document) (path : List String) : Document :=
  { doc with keys := path :: doc.keys }

/-- Note whether the latest value of a key is an array. -/
def markArray (doc : Document) (path : List String) (isArray : Bool) : Document :=
  let others := doc.arrays.filter (· ≠ path)
  { doc with arrays := if isArray then path :: others else others }

/-- Note that a table has only been mentioned. -/
def mention (doc : Document) (path : List String) : Document :=
  { doc with mentioned := path :: doc.mentioned }

/-- Forget that a table has only been mentioned. -/
def define (doc : Document) (path : List String) : Document :=
  { doc with mentioned := doc.mentioned.filter (· ≠ path) }

/-- Put a value into the table at a path. -/
def put (doc : Document) (path : List String) (key : String) (node : Node) : Document :=
  { doc with root := doc.root.update (·.insert key node) path }

/-- Set a key in the table at a path. A key that has a value keeps it if it is a table that has only
been mentioned; otherwise only an array may be replaced. -/
def set? (doc : Document) (path : List String) (key : String) (node : Node) : Option Document := do
  let table ← doc.root.descend? path
  let full := path ++ [key]
  if (table.lookup key).isNone then some (doc.put path key node)
  else if doc.arrays.contains full then some ((doc.define full).put path key node)
  else if doc.mentioned.contains full then some (doc.define full)
  else none

/-- Make sure that there is a table at each part of a path below `path`. -/
def reach? (doc : Document) (path : List String) : List String → Option Document
  | [] => some doc
  | key :: rest => do
      let table ← doc.root.descend? path
      let full := path ++ [key]
      match table.lookup key with
      | none => ((doc.mention full).put path key (.table [])).reach? full rest
      | some (.literal _) => none
      | some _ => doc.reach? full rest

/-- Open a table for the statements that follow. -/
def openTable? (doc : Document) (path : List String) : Option Document := do
  let doc ← doc.reach? [] path.dropLast
  doc.set? path.dropLast (path.getLast?.getD "") (.table [])

/-- Add an element to an array of tables for the statements that follow. -/
def openElement? (doc : Document) (path : List String) : Option Document := do
  let doc ← doc.reach? [] path.dropLast
  let key := path.getLast?.getD ""
  let table ← doc.root.descend? path.dropLast
  match table.lookup key with
  | none => some (doc.put path.dropLast key (.tables [[]]))
  | some (.tables elements) => some (doc.put path.dropLast key (.tables (elements ++ [[]])))
  | some _ => none

/-- Open the tables that the first parts of a key stand for, below a path. They may be there
already. -/
def openParts? (doc : Document) (path : List String) : List String → Option Document
  | [] => some doc
  | key :: rest => do
      let full := path ++ [key]
      let doc ← (doc.mention full).openTable? full
      doc.openParts? full rest

/-- The node of a written value. -/
def nodeOf : Literal → Node
  | .table _ => .table []
  | literal => .literal literal

/-- Is the written value an array? -/
def isArray : Literal → Bool
  | .array _ => true
  | _ => false

mutual

/-- Note what is in the value of the key with a path. The fields of a table become keys of the
document. -/
def enter? (doc : Document) (path : List String) (inArray : Bool) : Literal → Option Document
  | .table fields => do
      let doc := doc.mention path
      let doc ← if inArray then doc.openElement? path else doc.openTable? path
      enterFields? doc path fields
  | .array items => enterItems? (doc.markArray path true) path items
  | _ => some doc

/-- Note what is in the items of an array. -/
def enterItems? (doc : Document) (path : List String) : List Literal → Option Document
  | [] => some doc
  | item :: rest => do
      let doc ← enter? doc path true item
      enterItems? doc path rest

/-- Give values to keys of the table at a path. -/
def enterFields? (doc : Document) (path : List String) :
    List (List String × Literal) → Option Document
  | [] => some doc
  | (key, value) :: rest => do
      let table := path ++ key.dropLast
      let last := key.getLast?.getD ""
      let doc ← doc.openParts? path key.dropLast
      let doc ← enter? (doc.note (table ++ [last])) (table ++ [last]) false value
      let doc ← doc.set? table last (nodeOf value)
      enterFields? (doc.markArray (table ++ [last]) (isArray value)) path rest

end

/-- Carry out statements that stand below a header. -/
def run? (doc : Document) (path : List String) : List Statement → Option Document
  | [] => some doc
  | .assignment key value :: rest => do
      let doc ← doc.enterFields? path [(key, value)]
      doc.run? path rest
  | .header key element :: rest => do
      let doc ← if element then doc.openElement? key else doc.openTable? key
      ((doc.markArray key false).note key).run? key rest

/-- The document of a file, if the file is well formed. -/
def parse? (text : String) : Option Document := do
  empty.run? [] (← statements? text)

end Document

end BoxCalculus.Toml

import VirtualGraph.Document.Toml

/-!
# Tables of a TOML document

The statements of a document define tables. A table can be opened by its own header, on the way of a
longer header, or on the way of a key with several parts; no two of these ways may define the same
table, and a header may not define a table twice. A value is closed: nothing can be added to it.
-/

namespace VirtualGraph

namespace Toml

/-- How a table came to be. -/
inductive Origin where
  /-- By its own header, or as the document. -/
  | header
  /-- On the way of a longer header. -/
  | passing
  /-- On the way of a key with several parts. -/
  | dotted
  deriving DecidableEq

/-- A value, a table or a list of tables, the last one first. -/
inductive Node where
  | value (d : Document)
  | table (origin : Origin) (entries : List (String × Node))
  | listed (tables : List (List (String × Node)))

/-- The entries of a table, in order of appearance. -/
abbrev Entries := List (String × Node)

namespace Entries

/-- Replaces an entry, or adds it at the end. -/
def set (name : String) (node : Node) : Entries → Entries
  | [] => [(name, node)]
  | e :: rest => if e.1 = name then (name, node) :: rest else e :: set name node rest

/-- Changes the table at a path. Tables on the way are opened with a given origin; a key with
several parts may not enter a table that a header defined. -/
def update (origin : Origin) (change : Origin → Entries → Option Entries) (here : Origin) :
    List String → Entries → Option Entries
  | [], entries => change here entries
  | name :: path, entries =>
    match entries.lookup name with
    | none =>
      (update origin change origin path []).map fun inner =>
        set name (.table origin inner) entries
    | some (.value _) => none
    | some (.table o inner) =>
      if origin = .dotted ∧ o = .header then none
      else
        (update origin change o path inner).map fun inner' => set name (.table o inner') entries
    | some (.listed []) => none
    | some (.listed (last :: earlier)) =>
      (update origin change .header path last).map fun last' =>
        set name (.listed (last' :: earlier)) entries

/-- Opens a table by its header. -/
def openTable (name : String) (_ : Origin) (entries : Entries) : Option Entries :=
  match entries.lookup name with
  | none => some (set name (.table .header []) entries)
  | some (.table .passing inner) => some (set name (.table .header inner) entries)
  | some _ => none

/-- Opens a new table in a list. -/
def openListed (name : String) (_ : Origin) (entries : Entries) : Option Entries :=
  match entries.lookup name with
  | none => some (set name (.listed [[]]) entries)
  | some (.listed tables) => some (set name (.listed ([] :: tables)) entries)
  | some _ => none

/-- Adds a pair. A key with several parts may only end in a table that such keys opened. -/
def addValue (name : String) (v : Document) (single : Bool) (here : Origin) (entries : Entries) :
    Option Entries :=
  if (here = .dotted) = single then none
  else
    match entries.lookup name with
    | none => some (set name (.value v) entries)
    | some _ => none

end Entries

/-- The path of a key without its last part, and that part. -/
def splitLast (path : List String) : List String × String :=
  (path.dropLast, path.getLastD "")

/-- Carries out one statement on the document; the state holds the path of the current table. -/
def run (state : List String × Entries) (s : Statement) : Option (List String × Entries) :=
  let (current, root) := state
  match s with
  | .table path =>
    let (base, name) := splitLast path
    (Entries.update .passing (Entries.openTable name) .header base root).map (path, ·)
  | .listed path =>
    let (base, name) := splitLast path
    (Entries.update .passing (Entries.openListed name) .header base root).map (path, ·)
  | .pair path v =>
    let (base, name) := splitLast path
    let add (here : Origin) (entries : Entries) :=
      Entries.update .dotted (Entries.addValue name v base.isEmpty) here base entries
    (Entries.update .passing add .header current root).map (current, ·)

/-- Carries out all statements. -/
def runAll : List String × Entries → List Statement → Option Entries
  | (_, root), [] => some root
  | state, s :: rest =>
    match run state s with
    | some state' => runAll state' rest
    | none => none

mutual

/-- The value of a node. -/
def Node.document : Node → Document
  | .value d => d
  | .table _ entries => .record (documents entries)
  | .listed tables => .list (records tables).reverse

/-- The fields of a table. -/
def documents : List (String × Node) → List (String × Document)
  | [] => []
  | (name, node) :: rest => (name, node.document) :: documents rest

/-- The records of a list of tables. -/
def records : List (List (String × Node)) → List Document
  | [] => []
  | entries :: rest => .record (documents entries) :: records rest

end

/-- Reads a document. A byte order mark at its start is skipped. -/
def parse? (input : String) : Option Document :=
  let cs :=
    match input.toList with
    | '\ufeff' :: rest => rest
    | cs => cs
  match statements? (cs.length + 1) cs with
  | none => none
  | some statements =>
    (runAll ([], []) statements).map fun root => .record (documents root)

end Toml

end VirtualGraph

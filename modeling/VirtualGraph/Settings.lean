import VirtualGraph.Compiler
import VirtualGraph.Document.Table
import VirtualGraph.Path

/-!
# Settings

How queries are compiled, where the mapping is and which database is asked. Settings are read from a
TOML document in which everything may be left out.
-/

namespace VirtualGraph

/-- All settings. -/
structure Settings where
  compiler : CompilerSettings := {}
  /-- The path of the mapping. -/
  mapping : Option String := none
  /-- The address of the database. -/
  database : Option String := none
  deriving DecidableEq

namespace Document

/-- A text that may be left out. -/
def someText? (d : Document) : Option (Option String) := d.text?.map some

def compilerSettings? (d : Document) : Option CompilerSettings := do
  let f ← fields? .lenient
    ["dialect", "max_union_branches", "max_rewrite_passes", "eliminate_null_checks"] false d
  let default : CompilerSettings := {}
  let dialect ← f.withDefault "dialect" default.dialect (choice? .lenient Dialect.ofName?)
  let branches ← f.withDefault "max_union_branches" default.maxUnionBranches count?
  let passes ← f.withDefault "max_rewrite_passes" default.maxPasses count?
  let eliminate ← f.withDefault "eliminate_null_checks" default.eliminateNullChecks bool?
  some ⟨dialect, branches, passes, eliminate⟩

/-- A record with one optional text. -/
def textRecord? (name : String) (d : Document) : Option (Option String) := do
  let f ← fields? .lenient [name] false d
  f.withDefault name none someText?

def settings? (d : Document) : Option Settings := do
  let f ← fields? .lenient ["compiler", "mapping", "database"] false d
  let compiler ← f.withDefault "compiler" {} compilerSettings?
  let mapping ← f.withDefault "mapping" none (textRecord? "path")
  let database ← f.withDefault "database" none (textRecord? "url")
  some ⟨compiler, mapping, database⟩

end Document

namespace Settings

def setDialect (s : Settings) (d : Dialect) : Settings :=
  { s with compiler := { s.compiler with dialect := d } }

def setMaxUnionBranches (s : Settings) (n : Nat) : Settings :=
  { s with compiler := { s.compiler with maxUnionBranches := n } }

def setMaxPasses (s : Settings) (n : Nat) : Settings :=
  { s with compiler := { s.compiler with maxPasses := n } }

def setEliminateNullChecks (s : Settings) (b : Bool) : Settings :=
  { s with compiler := { s.compiler with eliminateNullChecks := b } }

def setMapping (s : Settings) (path : String) : Settings := { s with mapping := some path }

def setDatabase (s : Settings) (url : String) : Settings := { s with database := some url }

/-- Reads settings. -/
def parse (text : String) : Result Settings :=
  match (Toml.parse? text).bind Document.settings? with
  | some s => .ok s
  | none => .error .settings

/-- Reads the settings of a file. A relative path of the mapping starts where the file is. -/
def parseFile (path text : String) : Result Settings := do
  let s ← parse text
  match s.mapping, Path.parent? path with
  | some mapping, some directory =>
    if Path.isAbsolute mapping then .ok s else .ok (s.setMapping (Path.join directory mapping))
  | _, _ => .ok s

end Settings

end VirtualGraph

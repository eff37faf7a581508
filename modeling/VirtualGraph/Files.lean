import VirtualGraph.Mapping.Load
import VirtualGraph.Path
import VirtualGraph.Settings

/-!
# Files

Access to files in any monad, and an access to a fixed set of files.
-/

namespace VirtualGraph

/-- How files are read. -/
structure FileAccess (m : Type → Type) where
  read : String → m (Except FileProblem String)
  isFile : String → m Bool

namespace Mapping

/-- The format of a file, by the extension of its name. -/
def formatOf (path : String) : DocumentFormat :=
  if Path.extension? path = some "json" then .json else .toml

/-- Loads the mapping in a file. -/
def load {m : Type → Type} [Monad m] (files : FileAccess m) (path : String) :
    m (Result Mapping) := do
  match ← files.read path with
  | .ok text => return parse (formatOf path) text
  | .error problem => return .error (.file problem)

end Mapping

namespace Settings

/-- Loads the settings in a file. -/
def load {m : Type → Type} [Monad m] (files : FileAccess m) (path : String) :
    m (Result Settings) := do
  match ← files.read path with
  | .ok text => return parseFile path text
  | .error problem => return .error (.file problem)

/-- Loads the first of several files that is there; without any, everything is left out. -/
def loadFirst {m : Type → Type} [Monad m] (files : FileAccess m) :
    List String → m (Result Settings)
  | [] => return .ok {}
  | path :: rest => do
    if ← files.isFile path then load files path else loadFirst files rest

/-- Where settings are looked for: in the current directory, then in the user's. -/
def candidates (configDirectory : Option String) : List String :=
  "r2sql.toml" :: (configDirectory.map (Path.join · "r2sql/config.toml")).toList

/-- Loads the settings in a given file, or in the first place where there are any. -/
def discover {m : Type → Type} [Monad m] (files : FileAccess m)
    (configDirectory : Option String) : Option String → m (Result Settings)
  | some path => load files path
  | none => loadFirst files (candidates configDirectory)

end Settings

/-- A fixed set of files, by their paths from one directory. -/
structure FileTree where
  files : List (List String × String)

namespace FileTree

/-- The components of a path. -/
def components (path : String) : List String :=
  ((Text.splitAtChar '/' path.toList).map String.ofList).filter fun c => c ≠ "" ∧ c ≠ "."

def ofFiles (files : List (String × String)) : FileTree :=
  ⟨files.map fun (path, text) => (components path, text)⟩

def file? (t : FileTree) (path : List String) : Option String := t.files.lookup path

def isDirectory (t : FileTree) (path : List String) : Bool :=
  path.isEmpty || t.files.any fun f => path.isPrefixOf f.1 && path ≠ f.1

/-- The place that components lead to from a directory. Only directories can be passed. -/
def walk (t : FileTree) (here : List String) : List String → Except FileProblem (List String)
  | [] => .ok here
  | c :: rest =>
    if (t.file? here).isSome then .error .notDirectory
    else if !t.isDirectory here then .error .missing
    else if c = ".." then walk t here.dropLast rest
    else walk t (here ++ [c]) rest

/-- Reads a file. A separator at the end of a path asks for a directory. -/
def read (t : FileTree) (path : String) : Except FileProblem String :=
  if path.isEmpty || Path.isAbsolute path then .error .missing
  else
    match t.walk [] (components path) with
    | .error problem => .error problem
    | .ok place =>
      match t.file? place with
      | some text =>
        let last := (Text.splitAtChar '/' path.toList).getLastD []
        if last = [] ∨ last = ['.'] then .error .notDirectory else .ok text
      | none => if t.isDirectory place then .error .directory else .error .missing

/-- Access to the files of a tree. -/
def access (t : FileTree) : FileAccess Id where
  read path := t.read path
  isFile path := (t.read path).isOk

end FileTree

end VirtualGraph

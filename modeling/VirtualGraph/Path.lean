/-!
# Paths

Paths as text, with `/` between their components. A component `.` that is not the first one says
nothing, and neither does a separator at the end.
-/

namespace VirtualGraph.Path

def isAbsolute (path : String) : Bool := path.toList.head? == some '/'

/-- A path, last character first, without what says nothing at its end. -/
def trimEnd : List Char → List Char
  | '/' :: rest => if rest.isEmpty then ['/'] else trimEnd rest
  | '.' :: '/' :: rest => trimEnd ('/' :: rest)
  | cs => cs

/-- The path without its last component; nothing if it has none. -/
def parent? (path : String) : Option String :=
  match trimEnd path.toList.reverse with
  | [] => none
  | ['/'] => none
  | cs => some (String.ofList (trimEnd (cs.dropWhile (· != '/'))).reverse)

/-- A path that starts where another ends. An absolute path starts at the root. -/
def join (base path : String) : String :=
  if isAbsolute path || base.isEmpty then path
  else if base.toList.getLast? = some '/' then base ++ path
  else base ++ "/" ++ path

/-- The name of the file that a path leads to. -/
def fileName? (path : String) : Option String :=
  match ((trimEnd path.toList.reverse).takeWhile (· != '/')).reverse with
  | [] => none
  | ['.'] => none
  | ['.', '.'] => none
  | name => some (String.ofList name)

/-- What follows the last point of the file name, unless the name starts with that point. -/
def extension? (path : String) : Option String :=
  match fileName? path with
  | none => none
  | some name =>
    let reversed := name.toList.reverse
    match reversed.dropWhile (· != '.') with
    | _ :: _ :: _ => some (String.ofList (reversed.takeWhile (· != '.')).reverse)
    | _ => none

end VirtualGraph.Path

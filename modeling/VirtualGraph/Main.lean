import VirtualGraph.Command

/-!
# The program

Gives the command access to files and prints its outcome.
-/

namespace VirtualGraph

/-- Why a file could not be read. -/
def fileProblem : IO.Error → FileProblem
  | .inappropriateType .. => .directory
  | .invalidArgument .. => .notDirectory
  | _ => .missing

/-- Access to the files of the system. -/
def systemFiles : FileAccess IO where
  read path := do
    try
      return .ok (← IO.FS.readFile path)
    catch e => return .error (fileProblem e)
  isFile path := do
    try
      discard (IO.FS.readFile path)
      return true
    catch _ => return false

/-- The user's directory of settings. -/
def configDirectory : IO (Option String) := do
  match ← IO.getEnv "XDG_CONFIG_HOME" with
  | some d => if Path.isAbsolute d then return some d
  | none => pure ()
  return (← IO.getEnv "HOME").map (Path.join · ".config")

end VirtualGraph

open VirtualGraph in
def main (args : List String) : IO UInt32 := do
  let env : Environment := ⟨← configDirectory, ← IO.getEnv "R2SQL_DATABASE_URL"⟩
  let outcome ← Command.runArguments systemFiles env args
  IO.print outcome.stdout
  IO.eprint outcome.stderr
  return outcome.exit.toUInt32

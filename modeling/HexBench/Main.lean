import HexBench.Design.Top
import HexBench.Program

set_option autoImplicit false

/-!
The command line. What stands on the way to the paths of a run is read into a tree before the run,
and the files that the run changed in it are written back afterwards.
-/

namespace HexBench.CommandLine

/-- The variable that may hold a filter, which is used in place of the level of the settings. With a
value that is not read that level stays in force. -/
def filterVariable : String := "RUST_LOG"

def absolute (here : Location) : String := "/" ++ "/".intercalate here

def follow (here : Location) (name : String) : Location :=
  if name = "." then here else if name = ".." then here.dropLast else here ++ [name]

def survey (t : FileTree) (here : Location) : IO FileTree := do
  let path := (← IO.currentDir) / absolute here
  let .ok found ← path.metadata.toBaseIO | return t
  match found.type with
  | .dir => return { t with directories := here :: t.directories }
  | .file =>
    let .ok content ← (IO.FS.readBinFile path).toBaseIO | return t
    return t.put here content.data
  | _ => return t

def surveyWay (t : FileTree) (path : String) : IO FileTree := do
  let .ok route := t.route path | return t
  let mut t := t
  let mut here := route.start
  for name in route.names do
    here := follow here name
    t ← survey t here
  return t

def writeBack (before after : FileTree) : IO Unit := do
  for (here, content) in after.files do
    if before.content? here != some content then
      IO.FS.writeBinFile (absolute here) ⟨content⟩

def run {σ : Type} [Design σ] (shim : Shim σ) (arguments : List String) : IO Unit := do
  let filter := (← IO.getEnv filterVariable).bind LogFilter.read?
  let here := (← IO.currentDir).components.filter fun name => !name.isEmpty
  let start : Session := { arguments, filter, files := { workingDirectory := here } }
  let files ← (start.paths shim).foldlM surveyWay start.files
  let (s, _) := { start with files }.runProgram shim
  writeBack files s.files
  IO.print s.stdout
  IO.eprint s.stderr

end HexBench.CommandLine

def main (arguments : List String) : IO Unit :=
  HexBench.CommandLine.run HexBench.Top.shim arguments

import HexBench.FileTree
import HexBench.Wave.Dump

set_option autoImplicit false

/-!
Wave text on its way to a file. It gathers in a buffer, and reaches the file when more would not fit
or when the file is flushed. A piece is never cut in two.
-/

namespace HexBench.Wave

structure CreateError where
  path : String
  cause : FileError
  deriving DecidableEq

def CreateError.message (e : CreateError) : String :=
  "creating wave file " ++ e.path ++ ": " ++ e.cause.message

structure File where
  handle : FileHandle
  waiting : Array UInt8 := #[]

namespace File

def capacity : Nat := 8192

def scope : String := "tb_top"

def create (t : FileTree) (path : String) : Except CreateError (File × FileTree) :=
  match t.create path with
  | .error cause => .error ⟨path, cause⟩
  | .ok (location, t) => .ok ({ handle := { location } }, t)

def flush (f : File) (t : FileTree) : File × FileTree :=
  let (handle, t) := f.handle.write f.waiting.toList t
  ({ handle }, t)

/-- Takes in a piece when there is room for it. A piece that fills the buffer by itself goes past
it. -/
def accept (f : File) (piece : Bytes) (t : FileTree) : File × FileTree :=
  if capacity ≤ piece.length then
    let (handle, t) := f.handle.write piece t
    ({ f with handle }, t)
  else ({ f with waiting := f.waiting ++ piece }, t)

def write (f : File) (piece : Bytes) (t : FileTree) : File × FileTree :=
  if capacity < f.waiting.size + piece.length then
    let (f, t) := f.flush t
    f.accept piece t
  else f.accept piece t

def writeAll (f : File) (pieces : List Bytes) (t : FileTree) : File × FileTree :=
  match pieces with
  | [] => (f, t)
  | piece :: rest =>
    let (f, t) := f.write piece t
    f.writeAll rest t

end File
end HexBench.Wave

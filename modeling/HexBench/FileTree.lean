import HexBench.Text.Bytes

set_option autoImplicit false

/-!
A tree of regular files, with paths walked as a file system walks them. All that stands on the way
to a file or to a directory is a directory too. No directory is ever made or removed.
-/

namespace HexBench

inductive FileError where
  | notFound
  | notADirectory
  | isADirectory
  | nameTooLong
  /-- A path with a NUL byte is refused before it is walked. -/
  | nulInName
  deriving DecidableEq

def FileError.message : FileError → String
  | .notFound => "No such file or directory (os error 2)"
  | .notADirectory => "Not a directory (os error 20)"
  | .isADirectory => "Is a directory (os error 21)"
  | .nameTooLong => "File name too long (os error 36)"
  | .nulInName => "file name contained an unexpected NUL byte"

abbrev Location := List String

structure FileTree where
  files : List (Location × Array UInt8) := []
  /-- Where relative paths start. -/
  workingDirectory : Location := []
  directories : List Location := []

inductive Node where
  | directory
  | file (content : Array UInt8)

namespace FileTree

def maxName : Nat := 255
def maxPath : Nat := 4095

def content? (t : FileTree) (here : Location) : Option (Array UInt8) := t.files.lookup here

def isDirectory (t : FileTree) (here : Location) : Bool :=
  here.isEmpty || ((t.workingDirectory :: t.directories).any fun d => here.isPrefixOf d)
    || t.files.any fun f => here.length < f.1.length && here.isPrefixOf f.1

def node? (t : FileTree) (here : Location) : Option Node :=
  if t.isDirectory here then some .directory else (t.content? here).map .file

/-- One step of a walk, which starts in a directory. -/
def descend (t : FileTree) (here : Location) (name : String) : Except FileError Location :=
  if !t.isDirectory here then .error .notADirectory
  else if name = "." then .ok here
  else if name = ".." then .ok here.dropLast
  else if maxName < name.utf8ByteSize then .error .nameTooLong
  else if (t.node? (here ++ [name])).isSome then .ok (here ++ [name])
  else .error .notFound

def walk (t : FileTree) (start : Location) (names : List String) : Except FileError Location :=
  names.foldlM t.descend start

def pieces : List Char → List (List Char)
  | [] => [[]]
  | c :: rest =>
    if c = '/' then [] :: pieces rest
    else
      match pieces rest with
      | [] => [[c]]
      | piece :: more => (c :: piece) :: more

/-- A path cut into names. An empty piece, as between two slashes, is no name. -/
structure Route where
  start : Location
  names : List String
  /-- A slash ends the path, so that only a directory will do. -/
  wantsDirectory : Bool

def route (t : FileTree) (path : String) : Except FileError Route :=
  let text := path.toList
  if text.contains (Char.ofNat 0) then .error .nulInName
  else if text.isEmpty then .error .notFound
  else if maxPath < path.utf8ByteSize then .error .nameTooLong
  else
    .ok {
      start := if text.head? = some '/' then [] else t.workingDirectory
      names := ((pieces text).filter fun piece => !piece.isEmpty).map String.ofList
      wantsDirectory := text.getLast? = some '/' }

def openRead (t : FileTree) (path : String) : Except FileError Node := do
  let r ← t.route path
  let here ← t.walk r.start (if r.wantsDirectory then r.names ++ ["."] else r.names)
  match t.node? here with
  | some node => .ok node
  | none => .error .notFound

def put (t : FileTree) (here : Location) (content : Array UInt8) : FileTree :=
  { t with
    files :=
      if (t.content? here).isSome then
        t.files.map fun f => if f.1 = here then (f.1, content) else f
      else t.files ++ [(here, content)] }

/-- Where a file may be made, or emptied, in a directory. A name that ends in a slash, or that walks
in the tree, is a directory's. -/
def target (t : FileTree) (parent : Location) (name : String) (wantsDirectory : Bool) :
    Except FileError Location :=
  if !t.isDirectory parent then .error .notADirectory
  else if wantsDirectory || name = "." || name = ".." then .error .isADirectory
  else if t.isDirectory (parent ++ [name]) then .error .isADirectory
  else if maxName < name.utf8ByteSize then .error .nameTooLong
  else .ok (parent ++ [name])

def create (t : FileTree) (path : String) : Except FileError (Location × FileTree) := do
  let r ← t.route path
  match r.names.getLast? with
  | none => .error .isADirectory
  | some name =>
    let parent ← t.walk r.start r.names.dropLast
    let here ← t.target parent name r.wantsDirectory
    .ok (here, t.put here #[])

/-- Bytes put over those at an offset. A gap before them is filled with zeros; no bytes leave no
gap. -/
def overwrite (content : Array UInt8) (offset : Nat) (bytes : Bytes) : Array UInt8 :=
  if bytes.isEmpty then content
  else if content.size ≤ offset then content ++ Array.replicate (offset - content.size) 0 ++ bytes
  else
    content.extract 0 offset ++ bytes ++ content.extract (offset + bytes.length) content.size

def write (t : FileTree) (here : Location) (offset : Nat) (bytes : Bytes) : FileTree :=
  { t with
    files := t.files.map fun f => if f.1 = here then (f.1, overwrite f.2 offset bytes) else f }

end FileTree

/-- An open file with a position of its own, past the bytes written through it. -/
structure FileHandle where
  location : Location
  offset : Nat := 0

def FileHandle.write (h : FileHandle) (bytes : Bytes) (t : FileTree) : FileHandle × FileTree :=
  ({ h with offset := h.offset + bytes.length }, t.write h.location h.offset bytes)

end HexBench

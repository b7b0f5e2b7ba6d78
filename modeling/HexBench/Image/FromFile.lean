import HexBench.FileTree
import HexBench.Image.Load

set_option autoImplicit false

namespace HexBench.Image

inductive FileFailure where
  | cannotOpen (path : String) (e : FileError)
  | reading (path : String) (text : String)
  deriving DecidableEq

def FileFailure.message : FileFailure → String
  | .cannotOpen path e => "Cannot open HEX file: " ++ path ++ ": " ++ e.message
  | .reading path text => "reading HEX file " ++ path ++ ": " ++ text

/-- A directory can be opened, and fails when it is read. -/
def Source.ofNode : Node → Source
  | .file content => ⟨content.toList, none⟩
  | .directory => ⟨[], some FileError.isADirectory.message⟩

/-- What each path leads to: nothing that can be opened, or something to read. -/
abbrev Sources := String → Except FileError Source

def Sources.ofFiles (files : FileTree) : Sources := fun path =>
  (files.openRead path).map Source.ofNode

structure FileOutcome where
  memory : Memory
  events : Array Event
  result : Except FileFailure Summary

def loadFile (sources : Sources) (o : Options) (path : String) (memory : Memory) : FileOutcome :=
  match sources path with
  | .error e => ⟨memory, #[], .error (.cannotOpen path e)⟩
  | .ok source =>
    let loaded := load o source memory
    ⟨loaded.memory, loaded.events, loaded.result.mapError (.reading path)⟩

end HexBench.Image

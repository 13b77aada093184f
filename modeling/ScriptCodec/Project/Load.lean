import ScriptCodec.Files.FileError
import ScriptCodec.Project.Configuration

/-!
Finding and loading the configuration file of a project. It is looked for in a directory and then
in each directory above it; the first one found counts, even when it cannot be loaded.
-/
namespace ScriptCodec

inductive LoadError where
  | unreadable (path : Bytes) (cause : FileError)
  | malformed (path : Bytes)
  | invalid (path : Bytes) (cause : UnknownFormat)
deriving DecidableEq, Repr

def LoadError.message : LoadError → Bytes
  | .unreadable path cause => text "cannot read " ++ path ++ text ": " ++ cause.message
  | .malformed path => text "parse error in " ++ path
  | .invalid path cause => path ++ text ": " ++ cause.message

namespace Manifest

def fileName : Bytes := text "gscasm.toml"

def ofContent (cwd dir : Bytes) (content : Except FileError Bytes) : Except LoadError Manifest :=
  let path := Path.join dir fileName
  match content with
  | .error cause => .error (.unreadable path cause)
  | .ok file =>
    match ofFile file with
    | none => .error (.malformed path)
    | some m =>
      let m := { m with dir := Path.absolute cwd dir }.withDefaults
      match m.validate with
      | .ok () => .ok m
      | .error cause => .error (.invalid path cause)

def upwards (p : Path) : List Bytes :=
  (List.range (p.parts.length + 1)).map fun i =>
    Path.toBytes { p with parts := p.parts.take (p.parts.length - i) }

section Search

variable {m : Type → Type} [Monad m] (exists? : Bytes → m Bool)
  (read : Bytes → m (Except FileError Bytes)) (cwd : Bytes)

def load (dir : Bytes) : m (Except LoadError Manifest) := do
  return ofContent cwd dir (← read (Path.join dir fileName))

def loadFirst : List Bytes → m (Except LoadError (Option Manifest))
  | [] => pure (.ok none)
  | dir :: rest => do
    if ← exists? (Path.join dir fileName) then return (← load read cwd dir).map some
    else loadFirst rest

def find (start : Bytes) : m (Except LoadError (Option Manifest)) :=
  loadFirst exists? read cwd (upwards (Path.ofBytes (Path.absolute cwd start)))

end Search
end Manifest
end ScriptCodec

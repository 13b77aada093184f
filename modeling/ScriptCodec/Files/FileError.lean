import ScriptCodec.Text.Basic

/-!
Why a file could not be used.
-/
namespace ScriptCodec

inductive FileFault where
  | missing
  | notDirectory
  | isDirectory
  | nameTooLong
  | badName
  | refused
deriving DecidableEq, Repr

def FileFault.message : FileFault → Bytes
  | .missing => text "no such file or directory"
  | .notDirectory => text "not a directory"
  | .isDirectory => text "is a directory"
  | .nameTooLong => text "file name too long"
  | .badName => text "invalid argument"
  | .refused => text "permission denied"

inductive FileAction where
  | opening
  | reading
  | making
deriving DecidableEq, Repr

def FileAction.name : FileAction → Bytes
  | .opening => text "open"
  | .reading => text "read"
  | .making => text "mkdir"

structure FileError where
  action : FileAction
  path : Bytes
  fault : FileFault
deriving DecidableEq, Repr

def FileError.message (e : FileError) : Bytes :=
  e.action.name ++ [0x20] ++ e.path ++ text ": " ++ e.fault.message

end ScriptCodec

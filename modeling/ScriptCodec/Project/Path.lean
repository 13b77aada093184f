import ScriptCodec.Text.Basic

/-!
Slash-separated paths, handled as text without looking at any directory. A path in its clean form
has no empty part and no `.`, and `..` only at the front of a path that is not rooted.
-/
namespace ScriptCodec

structure Path where
  rooted : Bool
  parts : List Bytes
deriving DecidableEq, Repr

namespace Path

def slash : UInt8 := 0x2F

def here : Bytes := [0x2E]

def parent : Bytes := [0x2E, 0x2E]

/-- Enters one part, where `done` holds the parts entered so far, the last one first. -/
def enter (rooted : Bool) (done : List Bytes) (part : Bytes) : List Bytes :=
  if part = [] ∨ part = here then done
  else if part = parent then
    match done with
    | last :: before => if last = parent then part :: done else before
    | [] => if rooted then [] else [part]
  else part :: done

def isRooted (s : Bytes) : Bool := s.head? == some slash

def ofBytes (s : Bytes) : Path :=
  let rooted := isRooted s
  ⟨rooted, ((Text.splitOn slash s).foldl (enter rooted) []).reverse⟩

def toBytes (p : Path) : Bytes :=
  let names := [slash].intercalate p.parts
  if p.rooted then slash :: names else if p.parts.isEmpty then here else names

def below? (root p : Path) : Option Path :=
  if root.rooted = p.rooted ∧ root.parts.isPrefixOf p.parts then
    some ⟨false, p.parts.drop root.parts.length⟩
  else none

def clean (s : Bytes) : Bytes := (ofBytes s).toBytes

def join (dir s : Bytes) : Bytes :=
  if dir.isEmpty then if s.isEmpty then [] else clean s else clean (dir ++ slash :: s)

def absolute (cwd s : Bytes) : Bytes := if isRooted s then clean s else join cwd s

def directory (s : Bytes) : Bytes := clean (s.reverse.dropWhile (· != slash)).reverse

def extension (s : Bytes) : Bytes :=
  let last := s.reverse.takeWhile (· != slash)
  if last.contains 0x2E then 0x2E :: (last.takeWhile (· != 0x2E)).reverse else []

end Path
end ScriptCodec

import ScriptCodec.Order.Quicksort
import ScriptCodec.Text.Quoted

/-!
Where a symbol index is kept: the path of a file and, after a question mark, settings for its use.
Settings are pieces `name=value` with an ampersand between them. In a piece `+` stands for a space,
and `%` with two hexadecimal digits for any byte. A path ends before its first zero byte.
-/
namespace ScriptCodec

inductive SettingsFault where
  | badEscape (rest : Bytes)
  | semicolon
  | conflictingLayers (names : List Bytes)
  | unknownLayer
  | unknownTimeFormat (name : Bytes)
  | unknownLock (name : Bytes)
deriving DecidableEq, Repr

def SettingsFault.message : SettingsFault → Bytes
  | .badEscape rest => text "invalid URL escape " ++ Text.quote rest
  | .semicolon => text "invalid semicolon separator in query"
  | .conflictingLayers names =>
    text "conflicting vfs query parameters: [" ++ [0x20].intercalate names ++ [0x5D]
  | .unknownLayer => text "SQL logic error: out of memory (1)"
  | .unknownTimeFormat name => text "unknown _time_format " ++ Text.quote name
  | .unknownLock name => text "unknown _txlock " ++ Text.quote name

abbrev Settings := List (Bytes × Bytes)

namespace Settings

def unescape : Bytes → Except SettingsFault Bytes
  | [] => .ok []
  | b :: rest => do
    if b = 0x25 then
      match rest with
      | high :: low :: after =>
        match Text.hexValue high, Text.hexValue low with
        | some h, some l => return UInt8.ofNat (h * 16 + l) :: (← unescape after)
        | _, _ => .error (.badEscape [b, high, low])
      | _ => .error (.badEscape (b :: rest))
    else return (if b = 0x2B then 0x20 else b) :: (← unescape rest)

/-- One setting. Without `=` its value is empty. -/
def ofPiece (piece : Bytes) : Except SettingsFault (Bytes × Bytes) := do
  let (name, value) := (Text.cut [0x3D] piece).getD (piece, [])
  return (← unescape name, ← unescape value)

/-- The settings in a text. A semicolon anywhere is reported before any bad escape. -/
def ofBytes (s : Bytes) : Except SettingsFault Settings :=
  if s.contains 0x3B then .error .semicolon
  else ((Text.splitOn 0x26 s).filter fun piece => !piece.isEmpty).mapM ofPiece

def values (settings : Settings) (name : Bytes) : List Bytes :=
  (settings.filter fun setting => setting.1 == name).map Prod.snd

def value (settings : Settings) (name : Bytes) : Bytes := (settings.values name).headD []

/-- The storage layer that is asked for; once it is named, another name contradicts it. -/
def layer (settings : Settings) : Except SettingsFault Bytes :=
  let names := settings.values (text "vfs")
  names.foldlM (fun chosen name =>
    if chosen = [] ∨ chosen = name then .ok name else .error (.conflictingLayers names)) []

/-- The storage layers that keep an index in a file. The empty name stands for the first of them. -/
def fileLayers : List Bytes :=
  [[], text "unix", text "unix-none", text "unix-dotfile", text "unix-excl"]

def memoryLayer : Bytes := text "memdb"

def locks : List Bytes := [text "deferred", text "immediate", text "exclusive"]

def lowerGlyph : Utf8.Glyph → Bytes
  | .scalar 0x130 => [0x69]
  | .scalar 0x212A => [0x6B]
  | .scalar code => Text.lower (Utf8.encode code)
  | .stray b => [b]

def timeFormat (settings : Settings) : Bytes := settings.value (text "_time_format")

/-- The mode asked for, or nothing. With a time format it is not looked at. -/
def lock (settings : Settings) : Bytes :=
  if settings.timeFormat = [] then settings.value (text "_txlock") else []

def check (settings : Settings) : Except SettingsFault Unit :=
  if settings.timeFormat ≠ [] ∧ settings.timeFormat ≠ text "sqlite" then
    .error (.unknownTimeFormat settings.timeFormat)
  else if settings.lock = [] ∨ locks.contains ((Utf8.glyphs settings.lock).flatMap lowerGlyph) then
    .ok ()
  else .error (.unknownLock settings.lock)

/-- A mode that passes the check and still is none, because not all its letters are ASCII. -/
def strangeLock (settings : Settings) : Option Bytes :=
  if settings.lock = [] ∨ locks.contains (Text.lower settings.lock) then none
  else some settings.lock

def isBlank (b : UInt8) : Bool := (0x09 ≤ b && b ≤ 0x0D) || b == 0x20

def sortKey (s : Bytes) : Bytes :=
  Text.lower ((s.dropWhile isBlank).reverse.dropWhile isBlank).reverse

/-- Statements about waiting come first, the others in the order of their bytes. -/
def statementBefore (a b : Bytes) : Bool :=
  let waits := text "busy_timeout"
  if waits.isPrefixOf (sortKey a) then true
  else if waits.isPrefixOf (sortKey b) then false
  else Text.compareBytes (sortKey a) (sortKey b) == .lt

def statements (settings : Settings) : List Bytes :=
  Order.quicksort statementBefore (settings.values (text "_pragma"))

end Settings

structure IndexPlace where
  path : Bytes
  inMemory : Bool
  settings : Settings
deriving DecidableEq, Repr

namespace IndexPlace

/-- The path and the settings in a text. A question mark in front of everything is part of the
path. -/
def split (s : Bytes) : Bytes × Bytes :=
  match Text.cut [0x3F] s with
  | some (path, settings) => if path = [] then (s, []) else (path, settings)
  | none => (s, [])

def ofBytes (s : Bytes) : Except SettingsFault IndexPlace := do
  let (path, rest) := split s
  let settings ← Settings.ofBytes rest
  let layer := (← settings.layer).takeWhile (· != 0)
  let inMemory := layer == Settings.memoryLayer
  if inMemory || Settings.fileLayers.contains layer then
    return ⟨path.takeWhile (· != 0), inMemory, settings⟩
  else .error .unknownLayer

end IndexPlace
end ScriptCodec

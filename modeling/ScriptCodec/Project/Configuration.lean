import ScriptCodec.Project.Manifest
import ScriptCodec.Text.Utf8
import ScriptCodec.Toml.Document

/-!
A manifest read from the text of a configuration file. The names of sections and settings are
matched whatever their case, unknown ones are skipped, and a value of the wrong kind or out of the
range of its setting makes the whole file invalid.
-/
namespace ScriptCodec.Manifest

/-- The lower case of a character, for letters that have an ASCII lower case. -/
def foldCode (code : Nat) : Nat :=
  if 0x41 ≤ code ∧ code ≤ 0x5A then code + 32
  else if code = 0x17F then 0x73
  else if code = 0x212A then 0x6B
  else code

def foldGlyph : Utf8.Glyph → Bytes
  | .scalar code => Utf8.encode (foldCode code)
  | .stray b => [b]

def foldName (s : Bytes) : Bytes := (Utf8.glyphs s).flatMap foldGlyph

def string? : Toml.Value → Option Bytes
  | .string s => some s
  | _ => none

def integer? : Toml.Value → Option Int
  | .integer n => some n
  | _ => none

def byte? : Toml.Value → Option UInt8
  | .integer n => if 0 ≤ n ∧ n < 256 then some (UInt8.ofNat n.toNat) else none
  | _ => none

def strings? : Toml.Value → Option (List Bytes)
  | .array items => items.mapM string?
  | _ => none

abbrev Setting := Manifest → Toml.Value → Option Manifest

def disassemblerSettings : List (Bytes × Setting) := [
  (text "workers", fun m v => (integer? v).map fun n => { m with workers := n }),
  (text "banner", fun m v => (strings? v).map fun lines => { m with banner := some lines })]

def assemblerSettings : List (Bytes × Setting) := [
  (text "flags", fun m v => (byte? v).map fun b => { m with flags := b }),
  (text "source-root", fun m v => (string? v).map fun s => { m with sourceRoot := s })]

def outputSettings : List (Bytes × Setting) := [
  (text "dir", fun m v => (string? v).map fun s => { m with outputDir := s }),
  (text "format", fun m v => (string? v).map fun s => { m with format := s })]

def logSettings : List (Bytes × Setting) := [
  (text "verbosity", fun m v => (integer? v).map fun n => { m with verbosity := n }),
  (text "file", fun m v => (string? v).map fun s => { m with logFile := s })]

def indexSettings : List (Bytes × Setting) := [
  (text "database", fun m v => (string? v).map fun s => { m with database := s })]

def applyTable (settings : List (Bytes × Setting)) (m : Manifest) (t : Toml.Table) :
    Option Manifest :=
  List.foldlM (fun m e =>
    match settings.lookup (foldName e.1) with
    | some setting => setting m e.2
    | none => some m) m t

def sectionOf (settings : List (Bytes × Setting)) : Setting := fun m v =>
  match v with
  | .table t => applyTable settings m t
  | _ => none

def sections : List (Bytes × Setting) := [
  (text "disassembler", sectionOf disassemblerSettings),
  (text "assembler", sectionOf assemblerSettings),
  (text "output", sectionOf outputSettings),
  (text "log", sectionOf logSettings),
  (text "index", sectionOf indexSettings)]

def ofFile (file : Bytes) : Option Manifest :=
  (Toml.document file).bind (applyTable sections blank)

end ScriptCodec.Manifest

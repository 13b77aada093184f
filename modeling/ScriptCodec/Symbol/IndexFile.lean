import ScriptCodec.Binary.Word
import ScriptCodec.Symbol.StoredIndex

/-!
A symbol index as the content of a file: a header, the number of the form its texts are kept in,
then the rows of the three tables, each with the number of its table in front. Texts carry their
length, and words take four bytes.
-/
namespace ScriptCodec.IndexFile

def header : Bytes := text "SQLite format 3" ++ List.replicate 85 0

def string (s : Bytes) : Bytes := Word.toBytes 4 s.length ++ s

def definitionRow (d : Definition) : Bytes :=
  1 :: (string d.script ++ string d.name ++ [d.params, d.flags] ++ Word.u32 d.offset ++
    Word.u32 d.size ++ Word.u32 d.checksum)

def referenceRow (r : Reference) : Bytes :=
  2 :: (string r.script ++ string r.caller ++ string r.space ++ string r.name ++ [r.kind] ++
    Word.u32 r.offset ++ [if r.devOnly then 1 else 0])

def encodeRows (index : SymbolIndex) : Bytes :=
  (index.scripts.flatMap fun s => 0 :: string s) ++
    index.definitions.flatMap definitionRow ++ index.references.flatMap referenceRow

def encode (index : StoredIndex) : Bytes :=
  header ++ index.form.number :: encodeRows index.rows

abbrev Take := StateT Bytes Option

def bytes (n : Nat) : Take Bytes := fun s =>
  let front := s.take n
  if front.length = n then some (front, s.drop n) else none

def word (width : Nat) : Take Nat := Word.ofBytes <$> bytes width

def byte : Take UInt8 := UInt8.ofNat <$> word 1

def u32 : Take UInt32 := UInt32.ofNat <$> word 4

def takeString : Take Bytes := do bytes (← word 4)

def row (index : SymbolIndex) : Take SymbolIndex := do
  match ← byte with
  | 0 => return { index with scripts := (← takeString) :: index.scripts }
  | 1 =>
    let d : Definition := ⟨← takeString, ← takeString, ← byte, ← byte, ← u32, ← u32, ← u32⟩
    return { index with definitions := d :: index.definitions }
  | 2 =>
    let r : Reference :=
      ⟨← takeString, ← takeString, ← takeString, ← takeString, ← byte, ← u32, (← byte) == 1⟩
    return { index with references := r :: index.references }
  | _ => failure

def rows (index : SymbolIndex) : Nat → Bytes → Option SymbolIndex
  | _, [] =>
    some ⟨index.scripts.reverse, index.definitions.reverse, index.references.reverse⟩
  | 0, _ => none
  | fuel + 1, s =>
    match row index s with
    | some (index, rest) => rows index fuel rest
    | none => none

/-- The index in a file. An empty file is an index without scripts. -/
def decode (file : Bytes) : Option StoredIndex :=
  if file.isEmpty then some (.empty .utf8)
  else
    match Text.afterLead header file with
    | some (number :: s) => do return ⟨← TextForm.ofNumber? number, ← rows .empty s.length s⟩
    | _ => none

end ScriptCodec.IndexFile

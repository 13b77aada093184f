import ScriptCodec.Cbor.Item
import ScriptCodec.Module.Basic
import ScriptCodec.Text.Utf8

/-!
The wire form of a module. Structures are maps from field names to values, the shorter name first
and names of one length in bytewise order; numbers and lengths take their shortest form, and an
absent list, function or instruction is null. So equal modules have equal bytes.

Reading is lenient about the form and strict about the values: fields may come in any order and in
any case, unknown fields are skipped, a field given twice keeps its first value, and null stands
for the zero value of its place. Numbers have to fit their field and texts have to be valid UTF-8.
-/
namespace ScriptCodec.Cbor

/-! Writing -/

def null : Bytes := [0xF6]

def encodeNat (n : Nat) : Bytes := head 0 n

def encodeText (s : Bytes) : Bytes := head 3 s.length ++ s

def encodeList {α : Type} (encode : α → Bytes) (items : List α) : Bytes :=
  head 4 items.length ++ items.flatMap encode

def orNull {α : Type} (encode : α → Bytes) : Option α → Bytes
  | some a => encode a
  | none => null

def encodeFields (fields : List (String × Bytes)) : Bytes :=
  head 5 fields.length ++ fields.flatMap fun f => encodeText (text f.1) ++ f.2

def encodeLabels (labels : Labels) : Bytes :=
  head 5 (List.length labels) ++
    List.flatMap (fun e => encodeNat e.1.toNat ++ encodeText e.2) labels

def encodeInstruction (inst : Instruction) : Bytes :=
  encodeFields [
    ("Size", encodeNat inst.size.toNat),
    ("Offset", encodeNat inst.offset.toNat),
    ("Opcode", encodeNat inst.opcode.toNat),
    ("Operands", orNull (encodeList encodeText) inst.operands)]

def encodeFunction (fn : Function) : Bytes :=
  encodeFields [
    ("Name", encodeText fn.name),
    ("Size", encodeNat fn.size.toNat),
    ("Flags", encodeNat fn.flags.toNat),
    ("Labels", orNull encodeLabels fn.labels),
    ("Offset", encodeNat fn.offset.toNat),
    ("Params", encodeNat fn.params.toNat),
    ("Instructions", orNull (encodeList (orNull encodeInstruction)) fn.instructions)]

def encodeImport (d : ImportDecl) : Bytes :=
  encodeFields [
    ("Kind", encodeNat d.kind.toNat),
    ("Name", encodeText d.name),
    ("Params", encodeNat d.params.toNat),
    ("Namespace", encodeText d.space)]

def encodeModule (m : Module) : Bytes :=
  encodeFields [
    ("Name", encodeText m.name),
    ("Imports", orNull (encodeList encodeImport) m.imports),
    ("Includes", orNull (encodeList encodeText) m.includes),
    ("Functions", orNull (encodeList (orNull encodeFunction)) m.functions)]

/-! Reading -/

namespace Item

/-- The simple values for null and for undefined. -/
def isNull : Item → Bool
  | .simple n => n == 22 || n == 23
  | _ => false

/-- An item without its tags. A tag for a time or a large number asks for its own kind of content;
a large number that fits a word is that number. -/
def untagged : Item → Option Item
  | .tag 0 content =>
    match content with
    | .text _ => some content
    | _ => none
  | .tag 1 content =>
    match content with
    | .uint _ | .negative _ | .float _ => some content
    | _ => none
  | .tag 2 content =>
    match content with
    | .bytes digits =>
      let digits := digits.dropWhile (· == 0)
      if digits.length ≤ 8 then some (.uint (Word.ofBytes digits.reverse)) else none
    | _ => none
  | .tag 3 _ => none
  | .tag _ content => untagged content
  | item => some item

/-- A number below `bound`; null leaves `start` in place. A simple value other than the truth values
counts as its number. -/
def natBelow (bound start : Nat) (item : Item) : Option Nat :=
  match item.untagged with
  | some (.uint n) => if n < bound then some n else none
  | some (.simple n) =>
    if n = 22 ∨ n = 23 then some start
    else if n = 20 ∨ n = 21 then none
    else if n < bound then some n else none
  | _ => none

def pieces? : Item → Option Bytes
  | .text pieces => if pieces.all Utf8.isValid then some pieces.flatten else none
  | _ => none

def textOr (start : Bytes) (item : Item) : Option Bytes :=
  match item.untagged with
  | some content => if content.isNull then some start else content.pieces?
  | none => none

def listOf {α : Type} (decode : Item → Option α) (item : Item) : Option (Option (List α)) :=
  match item.untagged with
  | some (.array items) => (items.mapM decode).map some
  | some content => if content.isNull then some none else none
  | none => none

/-- A value that may be absent: null without a tag before it says so. -/
def orAbsent {α : Type} (decode : Item → Option α) (item : Item) : Option (Option α) :=
  if item.isNull then some none else (decode item).map some

/-- What the key of a field says: a name, or nothing that any field is called. Only texts and
integers of a machine word can be keys. -/
def fieldName : Item → Option (Option Bytes)
  | .uint _ => some none
  | .negative n => if n < 0x8000000000000000 then some none else none
  | item => item.pieces?.map some

end Item

abbrev Fields := List (Bytes × Item)

def namedField (e : Item × Item) : Option (Option (Bytes × Item)) :=
  e.1.fieldName.map fun name => name.map fun n => (Text.lower n, e.2)

def Item.fields (item : Item) : Option Fields :=
  match item.untagged with
  | some (.map entries) =>
    (entries.mapM namedField).map fun named => named.filterMap id
  | some content => if content.isNull then some [] else none
  | none => none

/-- The first value given for a field, whatever the case of its name; null when none is given. -/
def Fields.value (fields : Fields) (name : String) : Item :=
  match List.find? (fun f => f.1 == Text.lower (text name)) fields with
  | some (_, item) => item
  | none => .simple 22

namespace Fields

def u8 (fields : Fields) (name : String) : Option UInt8 :=
  ((fields.value name).natBelow 0x100 0).map UInt8.ofNat

def u32 (fields : Fields) (name : String) : Option UInt32 :=
  ((fields.value name).natBelow 0x100000000 0).map UInt32.ofNat

def string (fields : Fields) (name : String) : Option Bytes := (fields.value name).textOr []

def list {α : Type} (fields : Fields) (decode : Item → Option α) (name : String) :
    Option (Option (List α)) :=
  (fields.value name).listOf decode

end Fields

/-- The entries of a label map. A null key or name repeats the one of the entry before. -/
def labelEntries (done : List (UInt32 × Bytes)) (key : Nat) (name : Bytes) :
    List (Item × Item) → Option (List (UInt32 × Bytes))
  | [] => some done.reverse
  | (k, v) :: rest =>
    match k.natBelow 0x100000000 key, v.textOr name with
    | some key, some name => labelEntries ((UInt32.ofNat key, name) :: done) key name rest
    | _, _ => none

def decodeLabels (item : Item) : Option (Option Labels) :=
  match item.untagged with
  | some (.map entries) => (labelEntries [] 0 [] entries).map fun es => some (Labels.ofEntries es)
  | some content => if content.isNull then some none else none
  | none => none

def decodeInstruction (item : Item) : Option Instruction := do
  let fields ← item.fields
  return {
    offset := ← fields.u32 "Offset"
    size := ← fields.u32 "Size"
    opcode := ← fields.u8 "Opcode"
    operands := ← fields.list (Item.textOr []) "Operands" }

def decodeFunction (item : Item) : Option Function := do
  let fields ← item.fields
  return {
    offset := ← fields.u32 "Offset"
    size := ← fields.u32 "Size"
    params := ← fields.u8 "Params"
    flags := ← fields.u8 "Flags"
    name := ← fields.string "Name"
    instructions := ← fields.list (Item.orAbsent decodeInstruction) "Instructions"
    labels := ← decodeLabels (fields.value "Labels") }

def decodeImport (item : Item) : Option ImportDecl := do
  let fields ← item.fields
  return {
    space := ← fields.string "Namespace"
    name := ← fields.string "Name"
    params := ← fields.u8 "Params"
    kind := ← fields.u8 "Kind" }

def decodeModule (s : Bytes) : Option Module := do
  let fields ← (← decode s).fields
  return {
    name := ← fields.string "Name"
    includes := ← fields.list (Item.textOr []) "Includes"
    functions := ← fields.list (Item.orAbsent decodeFunction) "Functions"
    imports := ← fields.list decodeImport "Imports" }

end ScriptCodec.Cbor

import ScriptCodec.Proofs.Cbor.Items
import ScriptCodec.Proofs.Object.Targets

/-!
A module comes back from its wire form: every field of it, absent functions and instructions, and
whether a list or a label map is absent or empty. A written part is followed through both stages of
reading, first as an item and then as the value the item stands for.
-/
namespace ScriptCodec

/-- A text the wire form carries: valid UTF-8, and of a length that fits the head of an item. -/
structure Cbor.IsText (s : Bytes) : Prop where
  valid : Utf8.isValid s = true
  length_lt : s.length < 2 ^ 64

structure Cbor.IsList {α : Type} (P : α → Prop) (xs : List α) : Prop where
  length_le : xs.length ≤ maxLength
  members : ∀ x ∈ xs, P x

open Cbor (IsText IsList)

structure Instruction.IsWire (inst : Instruction) : Prop where
  operands : ∀ args ∈ inst.operands, IsList IsText args

structure Function.IsWire (fn : Function) : Prop where
  name : IsText fn.name
  instructions : ∀ code ∈ fn.instructions, IsList (fun entry => ∀ inst ∈ entry, inst.IsWire) code
  labels : ∀ labels ∈ fn.labels, Labels.Ascends labels ∧ IsList (fun e => IsText e.2) labels

structure ImportDecl.IsWire (d : ImportDecl) : Prop where
  space : IsText d.space
  name : IsText d.name

/-- A module whose texts are valid UTF-8 and whose lists and label maps are within the limits of a
reader. Label maps are in ascending order, as they are everywhere. -/
structure Module.IsWire (m : Module) : Prop where
  name : IsText m.name
  includes : ∀ names ∈ m.includes, IsList IsText names
  functions : ∀ fns ∈ m.functions, IsList (fun entry => ∀ fn ∈ entry, Function.IsWire fn) fns
  imports : ∀ decls ∈ m.imports, IsList ImportDecl.IsWire decls

instance (s : Bytes) : Decidable (IsText s) :=
  decidable_of_iff (Utf8.isValid s = true ∧ s.length < 2 ^ 64)
    ⟨fun h => ⟨h.1, h.2⟩, fun h => ⟨h.valid, h.length_lt⟩⟩

instance {α : Type} (P : α → Prop) [DecidablePred P] (xs : List α) : Decidable (IsList P xs) :=
  decidable_of_iff (xs.length ≤ Cbor.maxLength ∧ ∀ x ∈ xs, P x)
    ⟨fun h => ⟨h.1, h.2⟩, fun h => ⟨h.length_le, h.members⟩⟩

instance (inst : Instruction) : Decidable inst.IsWire :=
  decidable_of_iff (∀ args ∈ inst.operands, IsList IsText args) ⟨.mk, (·.operands)⟩

instance (labels : Labels) : Decidable labels.Ascends :=
  inferInstanceAs (Decidable (List.Pairwise _ _))

instance (fn : Function) : Decidable fn.IsWire :=
  decidable_of_iff
    (IsText fn.name ∧
      (∀ code ∈ fn.instructions, IsList (fun entry => ∀ inst ∈ entry, inst.IsWire) code) ∧
      ∀ labels ∈ fn.labels, Labels.Ascends labels ∧ IsList (fun e => IsText e.2) labels)
    ⟨fun h => ⟨h.1, h.2.1, h.2.2⟩, fun h => ⟨h.name, h.instructions, h.labels⟩⟩

instance (d : ImportDecl) : Decidable d.IsWire :=
  decidable_of_iff (IsText d.space ∧ IsText d.name)
    ⟨fun h => ⟨h.1, h.2⟩, fun h => ⟨h.space, h.name⟩⟩

instance (m : Module) : Decidable m.IsWire :=
  decidable_of_iff
    (IsText m.name ∧ (∀ names ∈ m.includes, IsList IsText names) ∧
      (∀ fns ∈ m.functions, IsList (fun entry => ∀ fn ∈ entry, Function.IsWire fn) fns) ∧
      ∀ decls ∈ m.imports, IsList ImportDecl.IsWire decls)
    ⟨fun h => ⟨h.1, h.2.1, h.2.2.1, h.2.2.2⟩,
      fun h => ⟨h.name, h.includes, h.functions, h.imports⟩⟩

theorem Utf8.isValid_of_ascii {s : Bytes} (h : ∀ b ∈ s, b < 0x80) : isValid s = true := by
  induction s with
  | nil => rw [isValid]
  | cons b s ih =>
    have hdecode : decode? (b :: s) = some (b.toNat, s) := by
      unfold decode?
      exact if_pos (h b List.mem_cons_self)
    rw [isValid]
    split
    · rename_i hread
      rw [hdecode] at hread
      obtain ⟨-, rfl⟩ := Prod.mk.inj (Option.some_inj.mp hread)
      exact ih fun c hc => h c (List.mem_cons_of_mem b hc)
    · rename_i hread
      rw [hdecode] at hread
      cases hread

namespace Labels

theorem setNew_of_forall_lt {labels : Labels} {offset : UInt32}
    (h : ∀ e ∈ labels, offset < e.1) (name : Bytes) :
    labels.setNew offset name = (offset, name) :: labels := by
  cases labels with
  | nil => rfl
  | cons e rest => rw [setNew, if_pos (h e List.mem_cons_self)]

theorem ofEntries_of_ascends {labels : Labels} (h : labels.Ascends) :
    ofEntries labels = labels := by
  induction labels with
  | nil => rfl
  | cons e rest ih =>
    obtain ⟨hfirst, hrest⟩ := List.pairwise_cons.mp h
    have hstep : ofEntries (e :: rest) = (ofEntries rest).setNew e.1 e.2 := rfl
    rw [hstep, ih hrest, setNew_of_forall_lt hfirst]

end Labels

namespace Cbor

/-! Values -/

def Restores {α : Type} (left : Nat) (s : Bytes) (decode : Item → Option α) (a : α) : Prop :=
  ∃ item, Reads left s item ∧ decode item = some a

theorem natBelow_uint {bound n : Nat} (h : n < bound) (start : Nat) :
    (Item.uint n).natBelow bound start = some n := by
  simp [Item.natBelow, Item.untagged, h]

theorem textOr_text {s : Bytes} (h : Utf8.isValid s = true) (start : Bytes) :
    (Item.text [s]).textOr start = some s := by
  simp [Item.textOr, Item.untagged, Item.isNull, Item.pieces?, h]

theorem restores_text {left : Nat} {s : Bytes} (h : IsText s) :
    Restores left (encodeText s) (Item.textOr []) s :=
  ⟨_, reads_text left h.length_lt, textOr_text h.valid []⟩

theorem exists_items {α : Type} {left : Nat} {encode : α → Bytes} {decode : Item → Option α}
    {xs : List α} (h : ∀ x ∈ xs, Restores left (encode x) decode x) :
    ∃ items, xs.Forall₂ (fun x item => Reads left (encode x) item) items ∧
      items.mapM decode = some xs := by
  induction xs with
  | nil => exact ⟨[], .nil, rfl⟩
  | cons x xs ih =>
    obtain ⟨item, hreads, hdecode⟩ := h x List.mem_cons_self
    obtain ⟨items, hitems, hrest⟩ := ih fun y hy => h y (List.mem_cons_of_mem x hy)
    refine ⟨item :: items, .cons hreads hitems, ?_⟩
    rw [List.mapM_cons, hdecode, hrest]
    rfl

theorem restores_list {α : Type} (left : Nat) {encode : α → Bytes} {decode : Item → Option α}
    {P : α → Prop} (hP : ∀ x, P x → Restores left (encode x) decode x) {list : Option (List α)}
    (h : ∀ xs ∈ list, IsList P xs) :
    Restores (left + 1) (orNull (encodeList encode) list) (Item.listOf decode) list := by
  cases list with
  | none => exact ⟨_, reads_null _, rfl⟩
  | some xs =>
    obtain ⟨hlength, hmembers⟩ := h xs rfl
    obtain ⟨items, hitems, hdecode⟩ := exists_items fun x hx => hP x (hmembers x hx)
    refine ⟨_, reads_array hitems hlength, ?_⟩
    simp only [Item.listOf, Item.untagged, hdecode, Option.map_some]

def RestoresMap {α : Type} (left : Nat) (s : Bytes) (decode : Item → Option α) (a : α) : Prop :=
  ∃ entries, Reads left s (.map entries) ∧ decode (.map entries) = some a

theorem RestoresMap.restores {α : Type} {left : Nat} {s : Bytes} {decode : Item → Option α} {a : α}
    (h : RestoresMap left s decode a) : Restores left s decode a := by
  obtain ⟨entries, hreads, hdecode⟩ := h
  exact ⟨_, hreads, hdecode⟩

theorem restores_orAbsent {α : Type} {left : Nat} {encode : α → Bytes} {decode : Item → Option α}
    {entry : Option α} (h : ∀ a ∈ entry, RestoresMap left (encode a) decode a) :
    Restores left (orNull encode entry) (Item.orAbsent decode) entry := by
  cases entry with
  | none => exact ⟨_, reads_null _, rfl⟩
  | some a =>
    obtain ⟨entries, hreads, hdecode⟩ := h a rfl
    refine ⟨_, hreads, ?_⟩
    simp only [Item.orAbsent, Item.isNull, Bool.false_eq_true, if_false, hdecode, Option.map_some]

/-! Structures -/

structure Part where
  name : String
  bytes : Bytes
  item : Item

def Part.u8 (name : String) (v : UInt8) : Part := ⟨name, encodeNat v.toNat, .uint v.toNat⟩

def Part.u32 (name : String) (v : UInt32) : Part := ⟨name, encodeNat v.toNat, .uint v.toNat⟩

def Part.text (name : String) (s : Bytes) : Part := ⟨name, encodeText s, .text [s]⟩

def Part.list {α : Type} (name : String) (encode : α → Bytes) (list : Option (List α))
    (item : Item) : Part :=
  ⟨name, orNull (encodeList encode) list, item⟩

/-- Names that fields can be told apart by, whatever their case. -/
structure AreFieldNames (names : List String) : Prop where
  length_le : names.length ≤ maxLength
  short : ∀ name ∈ names, (text name).length < 2 ^ 64
  ascii : ∀ name ∈ names, ∀ b ∈ text name, b < 0x80
  nodup : (names.map fun name => Text.lower (text name)).Nodup

variable {parts : List Part}

theorem mapM_namedField (hvalid : ∀ part ∈ parts, Utf8.isValid (text part.name) = true) :
    (parts.map fun part => (Item.text [text part.name], part.item)).mapM namedField =
      some (parts.map fun part => some (Text.lower (text part.name), part.item)) := by
  induction parts with
  | nil => rfl
  | cons part parts ih =>
    have hpart : namedField (.text [text part.name], part.item) =
        some (some (Text.lower (text part.name), part.item)) := by
      simp [namedField, Item.fieldName, Item.pieces?, hvalid part List.mem_cons_self]
    rw [List.map_cons, List.mapM_cons, hpart,
      ih fun p hp => hvalid p (List.mem_cons_of_mem part hp)]
    rfl

theorem value_of_mem (hnodup : (parts.map fun part => Text.lower (text part.name)).Nodup)
    {part : Part} (hmem : part ∈ parts) :
    Fields.value (parts.map fun p => (Text.lower (text p.name), p.item)) part.name = part.item := by
  induction parts with
  | nil => cases hmem
  | cons first parts ih =>
    obtain ⟨hfresh, hnodup⟩ := List.nodup_cons.mp hnodup
    rcases List.mem_cons.mp hmem with rfl | hmem
    · simp [Fields.value]
    · have hne : Text.lower (text first.name) ≠ Text.lower (text part.name) := by
        intro heq
        apply hfresh
        have hfound := List.mem_map_of_mem (f := fun p => Text.lower (text p.name)) hmem
        rwa [← heq] at hfound
      have hrest := ih hnodup hmem
      rw [Fields.value] at hrest ⊢
      rw [List.map_cons, List.find?_cons_of_neg (by simpa using hne)]
      exact hrest

/-- A structure is read as a map in which each field is found under its name. -/
theorem exists_fields (left : Nat) (parts : List Part) {names : List String}
    (hnames : AreFieldNames names) (hparts : parts.map Part.name = names)
    (hreads : ∀ part ∈ parts, Reads left part.bytes part.item) :
    ∃ entries found,
      Reads (left + 1) (encodeFields (parts.map fun part => (part.name, part.bytes)))
        (.map entries) ∧
      (Item.map entries).fields = some found ∧
      ∀ part ∈ parts, found.value part.name = part.item := by
  subst hparts
  have hnamed := mapM_namedField fun part hpart =>
    Utf8.isValid_of_ascii (hnames.ascii part.name (List.mem_map_of_mem hpart))
  have hnodup := hnames.nodup
  have hlength := hnames.length_le
  rw [List.map_map] at hnodup
  rw [List.length_map] at hlength
  refine ⟨parts.map fun part => (.text [text part.name], part.item),
    parts.map fun part => (Text.lower (text part.name), part.item), ?_, ?_,
    fun part => value_of_mem hnodup⟩
  · apply reads_map _ (by rwa [List.length_map])
    rw [List.forall₂_map_left_iff, List.forall₂_map_right_iff, List.forall₂_same]
    intro part hpart
    exact ⟨_, _, rfl, reads_text left (hnames.short part.name (List.mem_map_of_mem hpart)),
      hreads part hpart⟩
  · simp only [Item.fields, Item.untagged, hnamed, Option.map_some, Option.some.injEq,
      List.filterMap_map, Function.id_comp]
    exact congrFun List.filterMap_eq_map parts

section Fields

variable {found : Fields} {name : String}

theorem reads_u8 (left : Nat) (name : String) (v : UInt8) :
    Reads left (Part.u8 name v).bytes (Part.u8 name v).item :=
  reads_uint left (Nat.lt_trans v.toNat_lt (by decide))

theorem reads_u32 (left : Nat) (name : String) (v : UInt32) :
    Reads left (Part.u32 name v).bytes (Part.u32 name v).item :=
  reads_uint left (Nat.lt_trans v.toNat_lt (by decide))

theorem u8_of_value {v : UInt8} (h : found.value (Part.u8 name v).name = (Part.u8 name v).item) :
    found.u8 name = some v := by
  have hvalue : found.value name = .uint v.toNat := h
  rw [Fields.u8, hvalue, natBelow_uint v.toNat_lt, Option.map_some, UInt8.ofNat_toNat]

theorem u32_of_value {v : UInt32}
    (h : found.value (Part.u32 name v).name = (Part.u32 name v).item) :
    found.u32 name = some v := by
  have hvalue : found.value name = .uint v.toNat := h
  rw [Fields.u32, hvalue, natBelow_uint v.toNat_lt, Option.map_some, UInt32.ofNat_toNat]

theorem string_of_value {s : Bytes} (hs : IsText s)
    (h : found.value (Part.text name s).name = (Part.text name s).item) :
    found.string name = some s := by
  have hvalue : found.value name = .text [s] := h
  rw [Fields.string, hvalue, textOr_text hs.valid]

theorem list_of_value {α : Type} {encode : α → Bytes} {decode : Item → Option α}
    {list : Option (List α)} {item : Item} (hitem : item.listOf decode = some list)
    (h : found.value (Part.list name encode list item).name =
      (Part.list name encode list item).item) :
    found.list decode name = some list := by
  have hvalue : found.value name = item := h
  rw [Fields.list, hvalue, hitem]

end Fields

theorem instructionNames : AreFieldNames ["Size", "Offset", "Opcode", "Operands"] :=
  ⟨by decide, by decide, by decide +kernel, by decide⟩

theorem functionNames :
    AreFieldNames ["Name", "Size", "Flags", "Labels", "Offset", "Params", "Instructions"] :=
  ⟨by decide, by decide, by decide +kernel, by decide⟩

theorem importNames : AreFieldNames ["Kind", "Name", "Params", "Namespace"] :=
  ⟨by decide, by decide, by decide +kernel, by decide⟩

theorem moduleNames : AreFieldNames ["Name", "Imports", "Includes", "Functions"] :=
  ⟨by decide, by decide, by decide +kernel, by decide⟩

theorem restores_instruction (left : Nat) {inst : Instruction} (h : inst.IsWire) :
    RestoresMap (left + 2) (encodeInstruction inst) decodeInstruction inst := by
  obtain ⟨operands, hreads, hoperands⟩ :=
    restores_list left (fun _ => restores_text) h.operands
  have hparts := exists_fields (left + 1) [
    .u32 "Size" inst.size, .u32 "Offset" inst.offset, .u8 "Opcode" inst.opcode,
    .list "Operands" encodeText inst.operands operands] instructionNames rfl
  simp only [List.forall_mem_cons] at hparts
  obtain ⟨entries, found, hmap, hfields, hsize, hoffset, hopcode, hargs, -⟩ :=
    hparts ⟨reads_u32 _ _ _, reads_u32 _ _ _, reads_u8 _ _ _, hreads, by simp⟩
  refine ⟨entries, hmap, ?_⟩
  simp [decodeInstruction, hfields, u32_of_value hsize, u32_of_value hoffset, u8_of_value hopcode,
    list_of_value hoperands hargs]

theorem labelEntries_eq {labels : Labels} (h : ∀ e ∈ labels, IsText e.2)
    (done : List (UInt32 × Bytes)) (key : Nat) (name : Bytes) :
    labelEntries done key name
        (List.map (fun e => (Item.uint e.1.toNat, Item.text [e.2])) labels) =
      some (done.reverse ++ labels) := by
  induction labels generalizing done key name with
  | nil => simp [labelEntries]
  | cons e labels ih =>
    rw [List.map_cons, labelEntries, natBelow_uint e.1.toNat_lt,
      textOr_text (h e List.mem_cons_self).valid]
    simp only [ih fun e he => h e (List.mem_cons_of_mem _ he), UInt32.ofNat_toNat,
      List.reverse_cons, List.append_assoc, List.singleton_append]

theorem restores_labels (left : Nat) {labels : Option Labels}
    (h : ∀ ls ∈ labels, Labels.Ascends ls ∧ IsList (fun e => IsText e.2) ls) :
    Restores (left + 1) (orNull encodeLabels labels) decodeLabels labels := by
  cases labels with
  | none => exact ⟨_, reads_null _, rfl⟩
  | some ls =>
    obtain ⟨hascends, hlength, htexts⟩ := h ls rfl
    refine ⟨.map (List.map (fun e => (Item.uint e.1.toNat, Item.text [e.2])) ls), ?_, ?_⟩
    · apply reads_map _ hlength
      rw [List.forall₂_map_right_iff, List.forall₂_same]
      intro e he
      exact ⟨_, _, rfl, reads_uint left (Nat.lt_trans e.1.toNat_lt (by decide)),
        reads_text left (htexts e he).length_lt⟩
    · simp only [decodeLabels, Item.untagged, labelEntries_eq htexts, List.reverse_nil,
        List.nil_append, Option.map_some, Labels.ofEntries_of_ascends hascends]

theorem restores_function (left : Nat) {fn : Function} (h : fn.IsWire) :
    RestoresMap (left + 4) (encodeFunction fn) decodeFunction fn := by
  obtain ⟨code, hcode, hinstructions⟩ := restores_list (left + 2)
    (fun _ hentry => restores_orAbsent fun inst hinst =>
      restores_instruction left (hentry inst hinst))
    h.instructions
  obtain ⟨labels, hmap, hlabels⟩ := restores_labels (left + 2) h.labels
  have hparts := exists_fields (left + 3) [
    .text "Name" fn.name, .u32 "Size" fn.size, .u8 "Flags" fn.flags,
    ⟨"Labels", orNull encodeLabels fn.labels, labels⟩, .u32 "Offset" fn.offset,
    .u8 "Params" fn.params,
    .list "Instructions" (orNull encodeInstruction) fn.instructions code] functionNames rfl
  simp only [List.forall_mem_cons] at hparts
  obtain ⟨entries, found, hreads, hfields, hname, hsize, hflags, hlabel, hoffset, hparams, hinst,
      -⟩ :=
    hparts ⟨reads_text _ h.name.length_lt, reads_u32 _ _ _, reads_u8 _ _ _, hmap, reads_u32 _ _ _,
      reads_u8 _ _ _, hcode, by simp⟩
  refine ⟨entries, hreads, ?_⟩
  simp [decodeFunction, hfields, string_of_value h.name hname, u32_of_value hsize,
    u8_of_value hflags, hlabel, hlabels, u32_of_value hoffset, u8_of_value hparams,
    list_of_value hinstructions hinst]

theorem restores_import (left : Nat) {d : ImportDecl} (h : d.IsWire) :
    RestoresMap (left + 1) (encodeImport d) decodeImport d := by
  have hparts := exists_fields left [
    .u8 "Kind" d.kind, .text "Name" d.name, .u8 "Params" d.params,
    .text "Namespace" d.space] importNames rfl
  simp only [List.forall_mem_cons] at hparts
  obtain ⟨entries, found, hreads, hfields, hkind, hname, hparams, hspace, -⟩ :=
    hparts ⟨reads_u8 _ _ _, reads_text _ h.name.length_lt, reads_u8 _ _ _,
      reads_text _ h.space.length_lt, by simp⟩
  refine ⟨entries, hreads, ?_⟩
  simp [decodeImport, hfields, u8_of_value hkind, string_of_value h.name hname,
    u8_of_value hparams, string_of_value h.space hspace]

/-- Decoding the wire form of a module gives the module back. -/
theorem decodeModule_encodeModule {m : Module} (h : m.IsWire) :
    decodeModule (encodeModule m) = some m := by
  obtain ⟨includes, hincludes, hnames⟩ :=
    restores_list 30 (fun _ => restores_text) h.includes
  obtain ⟨functions, hfunctions, hfns⟩ := restores_list 30
    (fun _ hentry => restores_orAbsent fun fn hfn => restores_function 26 (hentry fn hfn))
    h.functions
  obtain ⟨imports, himports, hdecls⟩ := restores_list 30
    (fun _ hd => (restores_import 29 hd).restores) h.imports
  have hparts := exists_fields 31 [
    .text "Name" m.name, .list "Imports" encodeImport m.imports imports,
    .list "Includes" encodeText m.includes includes,
    .list "Functions" (orNull encodeFunction) m.functions functions] moduleNames rfl
  simp only [List.forall_mem_cons] at hparts
  obtain ⟨entries, found, hreads, hfields, hname, himport, hinclude, hfunction, -⟩ :=
    hparts ⟨reads_text _ h.name.length_lt, himports, hincludes, hfunctions, by simp⟩
  have hitem : decode (encodeModule m) = some (.map entries) := decode_of_reads hreads
  simp [decodeModule, hitem, hfields, string_of_value h.name hname, list_of_value hdecls himport,
    list_of_value hnames hinclude, list_of_value hfns hfunction]

def gappedModule : Module where
  name := [0xC3, 0xA9]
  includes := some []
  functions := some [none,
    some {
      offset := 0x100, size := 0x10005, params := 2, flags := 1, name := text "main"
      instructions := some [none, some ⟨0x100, 4, 10, some [text "\"a\""]⟩,
        some ⟨0x104, 1, 0, none⟩, some ⟨0x105, 1, 0, some []⟩]
      labels := some [(0x17, text "near"), (0x18, text "far"), (0x10000, [])] },
    some ⟨0, 0, 0, 0, [], none, none⟩, some ⟨0, 0, 0, 0, [], some [], some []⟩]
  imports := none

theorem decodeModule_encodeModule_gappedModule :
    gappedModule.IsWire ∧ decodeModule (encodeModule gappedModule) = some gappedModule := by
  have hwire : gappedModule.IsWire := by decide +kernel
  exact ⟨hwire, decodeModule_encodeModule hwire⟩

end Cbor
end ScriptCodec

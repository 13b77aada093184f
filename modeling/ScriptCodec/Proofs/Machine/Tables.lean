import ScriptCodec.Proofs.Machine.Pass
import ScriptCodec.Proofs.Object.Sections
import ScriptCodec.Proofs.Operand.Decoded

/-!
The tables as the machine reads them. Animation trees and imports are also indexed by the
addresses that refer to them. An index gives the number an entry is going to have in its table and
is filled while the entry is read, before the table has it; when all tables have been read, every
number that an index has is that of an entry.
-/
namespace ScriptCodec.Machine

open Pass

/-- The number of an entry by the addresses that refer to it. -/
abbrev Refs := Std.TreeMap UInt32 Nat

section

variable (img : Image) (strings : StringTable)

def rows {σ : Type} (row : Nat → σ → Pass σ) : Nat → Nat → σ → Pass σ
  | _, 0, s => pure s
  | index, count + 1, s => row index s >>= rows row (index + 1) count

def table {σ : Type} (offset : UInt32) (count : Nat) (row : Nat → σ → Pass σ) (s : σ) : Pass σ :=
  fresh do
    ofReading (moveTo img offset.toNat)
    rows row 0 count s

def words (count : Nat) : Reading (List UInt32) :=
  repeated (fun done => do
    let w ← u32 img
    return done ++ [w]) count []

def includeRow (index : Nat) (done : List Bytes) : Pass (List Bytes) := do
  let key ← within (.entry .includes index) (checked (u32 img))
  let name ← within (.entry .includes index) (ofDecoding (strings.lookup key))
  return done ++ [name]

def animations (tree count : Nat) (refs : Refs) : Reading (List Animation × Refs) :=
  repeated (fun s => do
    let key ← u32 img
    let ref ← u32 img
    return (s.1 ++ [⟨strings.lookupAnim key, ref⟩], s.2.insert ref tree)) count ([], refs)

def treeHead : Reading (UInt16 × UInt16 × UInt16) := do
  let nameKey ← u16 img
  let refCount ← u16 img
  let animCount ← u16 img
  skip img 2
  return (nameKey, refCount, animCount)

def treeRow (index : Nat) (s : List AnimTree × Refs) : Pass (List AnimTree × Refs) := do
  let (nameKey, refCount, animCount) ← within (.entry .animTrees index) (checked (treeHead img))
  let name ← within (.entry .animTrees index) (ofDecoding (strings.lookup nameKey.toUInt32))
  let (refs, anims, index) ← within (.named .animTrees name) <| checked do
    let refs ← words img refCount.toNat
    let (anims, index) ← animations img strings s.1.length animCount.toNat s.2
    return (refs, anims, index)
  return (s.1 ++ [⟨name, refs, anims⟩], index)

def fixupHead : Reading (UInt16 × UInt8) := do
  let nameKey ← u16 img
  let refCount ← u8 img
  skip img 1
  return (nameKey, refCount)

def fixupRow (index : Nat) (done : List StringFixup) : Pass (List StringFixup) := do
  let (nameKey, refCount) ← within (.entry .stringFixups index) (checked (fixupHead img))
  let name ← within (.entry .stringFixups index) (ofDecoding (strings.lookup nameKey.toUInt32))
  let refs ← within (.named .stringFixups name) (checked (words img refCount.toNat))
  return done ++ [⟨name, refs⟩]

def importRefs (entry count : Nat) (refs : Refs) : Reading (List UInt32 × Refs) :=
  repeated (fun s => do
    let ref ← u32 img
    return (s.1 ++ [ref], s.2.insert ref entry)) count ([], refs)

def importHead : Reading (UInt16 × UInt16 × UInt16 × UInt8 × UInt8) := do
  let nameKey ← u16 img
  let spaceKey ← u16 img
  let refCount ← u16 img
  let params ← u8 img
  let flags ← u8 img
  return (nameKey, spaceKey, refCount, params, flags)

def importRow (index : Nat) (s : List Import × Refs) : Pass (List Import × Refs) := do
  let (nameKey, spaceKey, refCount, params, flags) ←
    within (.entry .imports index) (checked (importHead img))
  let name ← within (.importName index) (ofDecoding (strings.lookup nameKey.toUInt32))
  let space ← within (.importSpace name) (ofDecoding (strings.lookup spaceKey.toUInt32))
  let (refs, index) ← within (.named .imports name) <|
    checked (importRefs img s.1.length refCount.toNat s.2)
  let entry : Import := {
    name, space, params, refs
    kind := flags &&& ~~~ Import.devFlag
    devOnly := flags &&& Import.devFlag ≠ 0 }
  return (s.1 ++ [entry], index)

def exportHead : Reading (UInt32 × UInt32 × UInt16 × UInt8 × UInt8) := do
  let checksum ← u32 img
  let offset ← u32 img
  let nameKey ← u16 img
  let params ← u8 img
  let flags ← u8 img
  return (checksum, offset, nameKey, params, flags)

def exportRow (index : Nat) (done : List Export) : Pass (List Export) := do
  let (checksum, offset, nameKey, params, flags) ←
    within (.entry .exports index) (checked (exportHead img))
  let name ← within (.entry .exports index) (ofDecoding (strings.lookup nameKey.toUInt32))
  return done ++ [⟨checksum, offset, name, params, flags, 0⟩]

end

section

variable {α σ : Type} {img : Image}

/-- A row that does what the reader of its record does, where `view` is what the program keeps of
the records it has read. -/
structure RowReads (which : DecodeError.Section) (row : Nat → σ → Pass σ) (view : List α → σ)
    (read : Nat → Nat → Decoding (α × Nat)) : Prop where
  decodes : ∀ index done, Decodes (row index (view done)) fun pos =>
    (read index pos).map fun r => (view (done ++ [r.1]), r.2)
  stops : ∀ index s, Stops (row index s) (.within (.entry which index))

variable {which : DecodeError.Section} {row : Nat → σ → Pass σ} {view : List α → σ}
  {read : Nat → Nat → Decoding (α × Nat)} (h : RowReads which row view read)

include h

theorem rows_eq (count index pos : Nat) (done : List α) :
    ∃ r, rows row index count (view done.reverse) ⟨pos, none⟩ =
      .ok ((Tables.recordsFrom read index pos done count).map view, r) := by
  induction count generalizing index pos done with
  | zero => exact ⟨_, rfl⟩
  | succ count ih =>
    rw [rows, Tables.recordsFrom]
    change ∃ r, (row index (view done.reverse) ⟨pos, none⟩).bind _ = _
    cases hread : read index pos with
    | error e =>
      obtain ⟨r, hr⟩ := (h.decodes index done.reverse).error_map hread
      rw [hr]
      exact ⟨r, rfl⟩
    | ok r =>
      rw [(h.decodes index done.reverse).ok_map hread]
      have hrest := ih (index + 1) r.2 (r.1 :: done)
      rw [List.reverse_cons] at hrest
      exact hrest

theorem gives_table (offset : UInt32) (count : Nat) :
    Gives (table img offset count row (view []))
      ((Tables.records img which offset read count).map view) := by
  refine Gives.fresh ?_
  rw [Tables.records]
  cases hseek : img.seek offset.toNat with
  | error fault =>
    change ∃ r, ((moveTo img offset.toNat ⟨0, none⟩).map _).bind _ = _
    rw [moveTo_of_fault img hseek]
    cases count with
    | zero => exact ⟨_, rfl⟩
    | succ count =>
      obtain ⟨r, hr⟩ := (h.stops 0 (view [])).bind (rows row 1 count) 0 fault
      exact ⟨r, hr⟩
  | ok pos =>
    change ∃ r, ((moveTo img offset.toNat ⟨0, none⟩).map _).bind _ = _
    rw [moveTo_of_seek img hseek, (Image.seek_eq_ok hseek).1]
    obtain ⟨r, hr⟩ := rows_eq h count 0 offset.toNat []
    refine ⟨r, hr.trans ?_⟩
    split
    · rename_i hzero
      rw [hzero]
      rfl
    · rfl

end

section

variable (img : Image)

theorem wordsFrom_eq (count pos : Nat) (done : List UInt32) :
    Tables.wordsFrom img pos done count =
      (Tables.words img pos count).map fun ws => done.reverse ++ ws := by
  induction count generalizing pos done with
  | zero => simp [Tables.words, Tables.wordsFrom, Except.map]
  | succ count ih =>
    rw [Tables.words, Tables.wordsFrom, Tables.wordsFrom]
    cases img.u32 pos with
    | error fault => rfl
    | ok w =>
      change Tables.wordsFrom img (pos + 4) (w :: done) count =
        (Tables.wordsFrom img (pos + 4) [w] count).map _
      rw [ih, ih (pos + 4) [w]]
      cases Tables.words img (pos + 4) count with
      | error fault => rfl
      | ok ws => simp [Except.map]

theorem words_succ (count pos : Nat) :
    Tables.words img pos (count + 1) =
      (img.u32 pos).bind fun w => (Tables.words img (pos + 4) count).map fun ws => w :: ws := by
  rw [Tables.words, Tables.wordsFrom]
  cases img.u32 pos with
  | error fault => rfl
  | ok w => exact wordsFrom_eq img count (pos + 4) [w]

theorem reads_words (count : Nat) :
    Reads (words img count) fun pos =>
      (Tables.words img pos count).map fun ws => (ws, pos + 4 * count) := by
  refine reads_repeated
    (fun count done pos => (Tables.words img pos count).map fun ws => (done ++ ws, pos + 4 * count))
    (fun done => (reads_u32 img).map fun w => done ++ [w]) ?_ ?_ count []
  · intro done pos
    exact congrArg (fun ws => Except.ok (ws, pos)) (List.append_nil done)
  · intro count done pos
    rw [words_succ, show pos + 4 * (count + 1) = pos + 4 + 4 * count by omega]
    simp only [Except.map_eq_bind, Except.bind_bind, Except.ok_bind, List.append_assoc,
      List.singleton_append]

end

section

variable (img : Image) (strings : StringTable)

theorem animationsFrom_eq : ∀ (ws : List UInt32) (done : List Animation),
    Tables.animationsFrom strings done ws = done.reverse ++ Tables.animations strings ws
  | [], done => by simp [Tables.animationsFrom, Tables.animations]
  | [_], done => by simp [Tables.animationsFrom, Tables.animations]
  | key :: ref :: rest, done => by
    rw [Tables.animations, Tables.animationsFrom, Tables.animationsFrom,
      animationsFrom_eq rest, animationsFrom_eq rest [_]]
    simp

theorem animations_cons (key ref : UInt32) (ws : List UInt32) :
    Tables.animations strings (key :: ref :: ws) =
      ⟨strings.lookupAnim key, ref⟩ :: Tables.animations strings ws :=
  animationsFrom_eq strings ws [_]

theorem reads_pair {σ : Type} (f : UInt32 → UInt32 → σ) :
    Reads (do
      let a ← u32 img
      let b ← u32 img
      return f a b) fun pos => (img.u32 pos).bind fun a =>
        (img.u32 (pos + 4)).map fun b => (f a b, pos + 8) := by
  refine ((reads_u32 img).bind fun a => (reads_u32 img).bind fun b => Reads.pure _).of_eq
    fun pos => ?_
  simp only [Except.map_eq_bind, Except.bind_bind, Except.ok_bind, Nat.add_assoc, Nat.reduceAdd]

/-- A loop over pairs of words, where `total` is what the rounds make of all words together. -/
theorem reads_pairs {σ : Type} {round : σ → Reading σ} (put : σ → UInt32 → UInt32 → σ)
    (total : σ → List UInt32 → σ)
    (hround : ∀ s, Reads (round s) fun pos => (img.u32 pos).bind fun a =>
      (img.u32 (pos + 4)).map fun b => (put s a b, pos + 8))
    (hnil : ∀ s, total s [] = s)
    (hcons : ∀ s a b ws, total s (a :: b :: ws) = total (put s a b) ws) (count : Nat) (s : σ) :
    Reads (repeated round count s) fun pos =>
      (Tables.words img pos (2 * count)).map fun ws => (total s ws, pos + 8 * count) := by
  refine reads_repeated (fun count s pos =>
    (Tables.words img pos (2 * count)).map fun ws => (total s ws, pos + 8 * count)) hround ?_ ?_
    count s
  · intro s pos
    exact congrArg (fun s => Except.ok (s, pos)) (hnil s)
  · intro count s pos
    rw [show 2 * (count + 1) = 2 * count + 1 + 1 by omega, words_succ, words_succ,
      show pos + 8 * (count + 1) = pos + 4 + 4 + 8 * count by omega]
    simp only [Except.map_eq_bind, Except.bind_bind, Except.ok_bind, hcons, Nat.add_assoc,
      Nat.reduceAdd]

theorem reads_animations (tree count : Nat) (refs : Refs) :
    Reads (animations img strings tree count refs) fun pos =>
      (Tables.words img pos (2 * count)).map fun ws =>
        ((Tables.animations strings ws, (Tables.animations strings ws).foldl
          (fun refs anim => refs.insert anim.ref tree) refs), pos + 8 * count) := by
  refine reads_pairs img (fun s key ref =>
      (s.1 ++ [⟨strings.lookupAnim key, ref⟩], s.2.insert ref tree))
    (fun s ws => (s.1 ++ Tables.animations strings ws, (Tables.animations strings ws).foldl
      (fun refs anim => refs.insert anim.ref tree) s.2))
    (fun s => reads_pair img _) ?_ ?_ count ([], refs)
  · intro s
    exact congrArg (fun anims => (anims, s.2)) (List.append_nil s.1)
  · intro s key ref ws
    rw [animations_cons, List.append_assoc, List.singleton_append, List.foldl_cons]

theorem reads_importRefs (entry count : Nat) (refs : Refs) :
    Reads (importRefs img entry count refs) fun pos =>
      (Tables.words img pos count).map fun ws =>
        ((ws, ws.foldl (fun refs ref => refs.insert ref entry) refs), pos + 4 * count) := by
  refine reads_repeated (fun count s pos => (Tables.words img pos count).map fun ws =>
      ((s.1 ++ ws, ws.foldl (fun refs ref => refs.insert ref entry) s.2), pos + 4 * count))
    (fun s => (reads_u32 img).map fun ref => (s.1 ++ [ref], s.2.insert ref entry)) ?_ ?_
    count ([], refs)
  · intro s pos
    exact congrArg (fun ws => Except.ok ((ws, s.2), pos)) (List.append_nil s.1)
  · intro count s pos
    rw [words_succ, show pos + 4 * (count + 1) = pos + 4 + 4 * count by omega]
    simp only [Except.map_eq_bind, Except.bind_bind, Except.ok_bind, List.append_assoc,
      List.singleton_append, List.foldl_cons]

theorem rowReads_include :
    RowReads .includes (includeRow img strings) id fun index pos =>
      Decoding.within (.entry .includes index) do
        let key ← Decoding.ofRange (img.u32 pos)
        let name ← strings.lookup key
        return (name, pos + 4) where
  decodes := by
    intro index done
    refine (((Decodes.checked (reads_u32 img)).within _).bind fun key =>
      ((Decodes.ofDecoding _).within _).bind fun name => Decodes.pure _).of_eq fun pos => ?_
    cases img.u32 pos with
    | error fault => rfl
    | ok key =>
      change Except.map _ (Decoding.within _ (strings.lookup key >>= _)) =
        (Decoding.within _ ((strings.lookup key).map _)).bind _
      cases strings.lookup key with
      | error e => rfl
      | ok name => rfl
  stops := fun index s => ((Stops.checked (reads_u32 img)).within _).bind _

def indexOf {α : Type} (keys : α → List UInt32) (entries : List α) : Refs :=
  entries.zipIdx.foldl (fun refs x => (keys x.1).foldl (fun refs key => refs.insert key x.2) refs) {}

theorem indexOf_append {α : Type} (keys : α → List UInt32) (entries : List α) (x : α) :
    indexOf keys (entries ++ [x]) =
      (keys x).foldl (fun refs key => refs.insert key entries.length) (indexOf keys entries) := by
  rw [indexOf, List.zipIdx_append, List.foldl_append]
  simp [indexOf]

def AnimTree.keys (tree : AnimTree) : List UInt32 := tree.anims.map Animation.ref

theorem reads_treeHead :
    Reads (treeHead img) fun pos => do
      let nameKey ← img.u16 pos
      let refCount ← img.u16 (pos + 2)
      let animCount ← img.u16 (pos + 4)
      let _ ← img.seek (pos + 8)
      return ((nameKey, refCount, animCount), pos + 8) := by
  refine ((reads_u16 img).bind fun nameKey => (reads_u16 img).bind fun refCount =>
    (reads_u16 img).bind fun animCount => (reads_skip img 2).bind fun _ => Reads.pure _).of_eq
    fun pos => ?_
  simp only [Except.andThen_eq_bind, Except.map_eq_bind, Except.bind_bind, Except.ok_bind,
    Nat.add_assoc, Nat.reduceAdd, pure, Except.pure]

theorem reads_treeLists (refCount animCount tree : Nat) (refs : Refs) :
    Reads (do
      let words ← words img refCount
      let (anims, refs) ← animations img strings tree animCount refs
      return (words, anims, refs)) fun pos => do
        let words ← Tables.words img pos refCount
        let pairs ← Tables.words img (pos + 4 * refCount) (2 * animCount)
        let anims := Tables.animations strings pairs
        return ((words, anims, anims.foldl (fun refs anim => refs.insert anim.ref tree) refs),
          pos + 4 * refCount + 8 * animCount) := by
  refine ((reads_words img _).bind fun words => (reads_animations img strings _ _ _).bind fun y =>
    Reads.pure (words, y.1, y.2)).of_eq fun pos => ?_
  simp only [Except.andThen_eq_bind, Except.map_eq_bind, Except.bind_bind, Except.ok_bind, pure,
    Except.pure]

theorem rowReads_tree :
    RowReads .animTrees (treeRow img strings) (fun done => (done, indexOf AnimTree.keys done))
      (Tables.animTree img strings) where
  decodes := by
    intro index done
    refine (((Decodes.checked (reads_treeHead img)).within _).bind fun x =>
      ((Decodes.ofDecoding _).within _).bind fun name =>
      ((Decodes.checked (reads_treeLists img strings _ _ _ _)).within _).bind fun z =>
      Decodes.pure _).of_eq fun pos => ?_
    simp only [Tables.animTree, Except.andThen_eq_bind, Except.map_eq_bind, Except.bind_bind,
      Except.ok_bind, Decoding.ofRange_bind, Decoding.within_bind, Decoding.ofRange_ok,
      Decoding.within_ok, pure, Except.pure, indexOf_append, AnimTree.keys, List.foldl_map]
  stops := fun index s => ((Stops.checked (reads_treeHead img)).within _).bind _

theorem reads_fixupHead :
    Reads (fixupHead img) fun pos => do
      let nameKey ← img.u16 pos
      let refCount ← img.u8 (pos + 2)
      let _ ← img.seek (pos + 4)
      return ((nameKey, refCount), pos + 4) := by
  refine ((reads_u16 img).bind fun nameKey => (reads_u8 img).bind fun refCount =>
    (reads_skip img 1).bind fun _ => Reads.pure _).of_eq fun pos => ?_
  simp only [Except.andThen_eq_bind, Except.map_eq_bind, Except.bind_bind, Except.ok_bind,
    Nat.add_assoc, Nat.reduceAdd, pure, Except.pure]

theorem rowReads_fixup :
    RowReads .stringFixups (fixupRow img strings) id (Tables.stringFixup img strings) where
  decodes := by
    intro index done
    refine (((Decodes.checked (reads_fixupHead img)).within _).bind fun x =>
      ((Decodes.ofDecoding _).within _).bind fun name =>
      ((Decodes.checked (reads_words img _)).within _).bind fun refs => Decodes.pure _).of_eq
      fun pos => ?_
    simp only [Tables.stringFixup, Except.andThen_eq_bind, Except.map_eq_bind, Except.bind_bind,
      Except.ok_bind, Decoding.ofRange_bind, Decoding.within_bind, Decoding.ofRange_ok,
      Decoding.within_ok, pure, Except.pure, id]
  stops := fun index s => ((Stops.checked (reads_fixupHead img)).within _).bind _

theorem reads_importHead :
    Reads (importHead img) fun pos => do
      let nameKey ← img.u16 pos
      let spaceKey ← img.u16 (pos + 2)
      let refCount ← img.u16 (pos + 4)
      let params ← img.u8 (pos + 6)
      let flags ← img.u8 (pos + 7)
      return ((nameKey, spaceKey, refCount, params, flags), pos + 8) := by
  refine ((reads_u16 img).bind fun nameKey => (reads_u16 img).bind fun spaceKey =>
    (reads_u16 img).bind fun refCount => (reads_u8 img).bind fun params =>
    (reads_u8 img).bind fun flags => Reads.pure _).of_eq fun pos => ?_
  simp only [Except.andThen_eq_bind, Except.map_eq_bind, Except.bind_bind, Except.ok_bind,
    Nat.add_assoc, Nat.reduceAdd, pure, Except.pure]

theorem rowReads_import :
    RowReads .imports (importRow img strings) (fun done => (done, indexOf Import.refs done))
      (Tables.importEntry img strings) where
  decodes := by
    intro index done
    refine (((Decodes.checked (reads_importHead img)).within _).bind fun x =>
      ((Decodes.ofDecoding _).within _).bind fun name =>
      ((Decodes.ofDecoding _).within _).bind fun space =>
      ((Decodes.checked (reads_importRefs img _ _ _)).within _).bind fun y => Decodes.pure _).of_eq
      fun pos => ?_
    simp only [Tables.importEntry, Except.andThen_eq_bind, Except.map_eq_bind, Except.bind_bind,
      Except.ok_bind, Decoding.ofRange_bind, Decoding.within_bind, Decoding.ofRange_ok,
      Decoding.within_ok, pure, Except.pure, indexOf_append]
  stops := fun index s => ((Stops.checked (reads_importHead img)).within _).bind _

theorem reads_exportHead :
    Reads (exportHead img) fun pos => do
      let checksum ← img.u32 pos
      let offset ← img.u32 (pos + 4)
      let nameKey ← img.u16 (pos + 8)
      let params ← img.u8 (pos + 10)
      let flags ← img.u8 (pos + 11)
      return ((checksum, offset, nameKey, params, flags), pos + 12) := by
  refine ((reads_u32 img).bind fun checksum => (reads_u32 img).bind fun offset =>
    (reads_u16 img).bind fun nameKey => (reads_u8 img).bind fun params =>
    (reads_u8 img).bind fun flags => Reads.pure _).of_eq fun pos => ?_
  simp only [Except.andThen_eq_bind, Except.map_eq_bind, Except.bind_bind, Except.ok_bind,
    Nat.add_assoc, Nat.reduceAdd, pure, Except.pure]

theorem rowReads_export :
    RowReads .exports (exportRow img strings) id (Tables.exportEntry img strings) where
  decodes := by
    intro index done
    refine (((Decodes.checked (reads_exportHead img)).within _).bind fun x =>
      ((Decodes.ofDecoding _).within _).bind fun name => Decodes.pure _).of_eq fun pos => ?_
    simp only [Tables.exportEntry, Except.andThen_eq_bind, Except.map_eq_bind, Except.bind_bind,
      Except.ok_bind, Decoding.ofRange_bind, Decoding.within_bind, Decoding.ofRange_ok,
      Decoding.within_ok, pure, Except.pure, id]
  stops := fun index s => ((Stops.checked (reads_exportHead img)).within _).bind _

/-- Every number in an index is that of an entry, and the entry is the one that another index,
which holds the entries themselves, has there. -/
def Indexes {α : Type} (refs : Refs) (entries : List α) (index : Std.TreeMap UInt32 α) : Prop :=
  ∀ ref : UInt32, refs[ref]? = none ∧ index[ref]? = none ∨
    ∃ i x, refs[ref]? = some i ∧ entries[i]? = some x ∧ index[ref]? = some x

theorem indexes_indexOf {α : Type} (keys : α → List UInt32) (entries : List α) :
    Indexes (indexOf keys entries) entries
      (entries.foldl (fun index x => (keys x).foldl (fun index key => index.insert key x) index) {}) := by
  induction entries using List.reverseRecOn with
  | nil =>
    intro ref
    exact Or.inl ⟨Std.TreeMap.getElem?_emptyc, Std.TreeMap.getElem?_emptyc⟩
  | append_singleton entries x ih =>
    intro ref
    rw [indexOf_append, List.foldl_append, List.foldl_cons, List.foldl_nil,
      Disassembly.getElem?_insertAll, Disassembly.getElem?_insertAll]
    by_cases hmem : ref ∈ keys x
    · rw [if_pos hmem, if_pos hmem]
      exact Or.inr ⟨entries.length, x, rfl, List.getElem?_concat_length, rfl⟩
    · rw [if_neg hmem, if_neg hmem]
      rcases ih ref with hnone | ⟨i, y, hi, hy, hindex⟩
      · exact Or.inl hnone
      · refine Or.inr ⟨i, y, hi, ?_, hindex⟩
        rw [List.getElem?_append_left (List.getElem?_eq_some_iff.mp hy).1]
        exact hy

end
end ScriptCodec.Machine

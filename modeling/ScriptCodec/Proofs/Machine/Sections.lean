import ScriptCodec.Proofs.Machine.Tables

/-!
All sections as the machine reads them: the header, the strings of the pool, the tables, and the
sizes of the exports, which the machine takes from the neighbours of an export by their index.
-/
namespace ScriptCodec.Machine

open Pass

section

variable (img : Image)

def headerFields (magic : UInt64) : Reading Header := do
  return {
    magic
    sourceCrc := ← u32 img
    includeOffset := ← u32 img
    animTreeOffset := ← u32 img
    codeOffset := ← u32 img
    stringFixupOffset := ← u32 img
    exportsOffset := ← u32 img
    importsOffset := ← u32 img
    fixupOffset := ← u32 img
    profileOffset := ← u32 img
    codeSize := ← u32 img
    name := ← u16 img
    stringFixupCount := ← u16 img
    exportsCount := ← u16 img
    importsCount := ← u16 img
    fixupCount := ← u16 img
    profileCount := ← u16 img
    includeCount := ← u8 img
    animTreeCount := ← u8 img
    flags := ← u8 img }

def header : Pass Header := fresh do
  if img.size < Header.length then fail (.shortHeader img.size)
  else
    let magic ← ofReading (u64 img)
    if magic ≠ Header.magicNumber then fail (.badMagic magic)
    else checked (headerFields img magic)

def endless {α : Type} : Reading α := fun _ => .error .endless

def pool (stop : UInt32) (fuel : Nat) (strings : StringTable) : Reading StringTable := do
  if ← hasFault then return strings
  let pos ← here
  if stop ≤ pos then return strings
  match fuel with
  | 0 => endless
  | fuel + 1 =>
    let s ← cstring img
    if ← hasFault then pool stop fuel strings else pool stop fuel (strings.insert pos s)

def strings (h : Header) : Pass StringTable := fresh <| within .pool <| checked do
  moveTo img Header.length
  pool img h.includeOffset (img.size + 1) {}

def trim (e : Export) : Nat → UInt32 → Pass UInt32
  | 0, size => pure size
  | limit + 1, size => do
    if size = 0 then return size
    let last := e.offset + size - 1
    if img.size ≤ last.toNat then fail (.endsPastInput e.name last)
    else
      let op ← ofGuarded (element img.toList last.toNat)
      if Opcode.closesFunction op then return size else trim e limit (size - 1)

/-- The sizes of the exports from number `i` on, of which `left` are left. -/
def sizes (codeEnd : UInt32) (i : Nat) : Nat → List Export → Pass (List Export)
  | 0, exports => pure exports
  | left + 1, exports => do
    let e ← ofGuarded (element exports i)
    if i + 1 = exports.length then
      if codeEnd < e.offset then fail (.startsPastCode e.name e.offset codeEnd)
      else return exports.set i { e with size := codeEnd - e.offset }
    else
      let next ← ofGuarded (element exports (i + 1))
      if next.offset < e.offset + ExportSizes.gap then
        fail (.overlap e.name e.offset next.name next.offset)
      else
        let size ← trim img e 3 (next.offset - e.offset - ExportSizes.gap)
        sizes codeEnd (i + 1) left (exports.set i { e with size })

def sections : Pass (Disassembly.Sections × Refs × Refs) := do
  let h ← within (.table .header) (header img)
  let strings ← within (.table .strings) (strings img h)
  let includes ← within (.table .includes)
    (table img h.includeOffset h.includeCount.toNat (includeRow img strings) [])
  let (animTrees, animRefs) ← within (.table .animTrees)
    (table img h.animTreeOffset h.animTreeCount.toNat (treeRow img strings) ([], {}))
  let fixups ← within (.table .stringFixups)
    (table img h.stringFixupOffset h.stringFixupCount.toNat (fixupRow img strings) [])
  let (imports, importRefs) ← within (.table .imports)
    (table img h.importsOffset h.importsCount.toNat (importRow img strings) ([], {}))
  let exports ← within (.table .exports) do
    let entries ← table img h.exportsOffset h.exportsCount.toNat (exportRow img strings) []
    sizes img (h.codeOffset + h.codeSize) 0 entries.length entries
  return ({ header := h, strings, includes, animTrees, fixups, imports, exports }, animRefs,
    importRefs)

end

section

variable {img : Image}

def headerAt (img : Image) (magic : UInt64) (pos : Nat) : Except RangeFault (Header × Nat) := do
  return ({
    magic
    sourceCrc := ← img.u32 pos
    includeOffset := ← img.u32 (pos + 4)
    animTreeOffset := ← img.u32 (pos + 8)
    codeOffset := ← img.u32 (pos + 12)
    stringFixupOffset := ← img.u32 (pos + 16)
    exportsOffset := ← img.u32 (pos + 20)
    importsOffset := ← img.u32 (pos + 24)
    fixupOffset := ← img.u32 (pos + 28)
    profileOffset := ← img.u32 (pos + 32)
    codeSize := ← img.u32 (pos + 36)
    name := ← img.u16 (pos + 40)
    stringFixupCount := ← img.u16 (pos + 42)
    exportsCount := ← img.u16 (pos + 44)
    importsCount := ← img.u16 (pos + 46)
    fixupCount := ← img.u16 (pos + 48)
    profileCount := ← img.u16 (pos + 50)
    includeCount := ← img.u8 (pos + 52)
    animTreeCount := ← img.u8 (pos + 53)
    flags := ← img.u8 (pos + 54) }, pos + 55)

theorem reads_headerFields (magic : UInt64) :
    Reads (headerFields img magic) (headerAt img magic) := by
  refine ((reads_u32 img).bind fun _ => (reads_u32 img).bind fun _ => (reads_u32 img).bind fun _ =>
    (reads_u32 img).bind fun _ => (reads_u32 img).bind fun _ => (reads_u32 img).bind fun _ =>
    (reads_u32 img).bind fun _ => (reads_u32 img).bind fun _ => (reads_u32 img).bind fun _ =>
    (reads_u32 img).bind fun _ => (reads_u16 img).bind fun _ => (reads_u16 img).bind fun _ =>
    (reads_u16 img).bind fun _ => (reads_u16 img).bind fun _ => (reads_u16 img).bind fun _ =>
    (reads_u16 img).bind fun _ => (reads_u8 img).bind fun _ => (reads_u8 img).bind fun _ =>
    (reads_u8 img).bind fun _ => Reads.pure _).of_eq fun pos => ?_
  simp only [headerAt, Except.andThen_eq_bind, Except.map_eq_bind, Except.bind_bind, Except.ok_bind,
    Nat.add_assoc, Nat.reduceAdd, pure, Except.pure]

theorem read_eq_headerAt {magic : UInt64} (h : img.u64 0 = .ok magic) :
    Header.read img = (headerAt img magic 8).map Prod.fst := by
  simp only [Header.read, headerAt, h, Except.andThen_eq_bind, Except.map_eq_bind,
    Except.bind_bind, Except.ok_bind, Nat.reduceAdd, pure, Except.pure]

theorem word_of_le {width pos : Nat} (h : pos + width ≤ img.size) :
    img.word width pos = .ok (Word.ofBytes (img.extract pos (pos + width)).toList) := by
  rw [Image.word, Image.slice, if_pos h]
  rfl

theorem exists_headerAt (hsize : Header.length ≤ img.size) (magic : UInt64) :
    ∃ h, headerAt img magic 8 = .ok (h, 63) ∧ h.magic = magic := by
  rw [Header.length] at hsize
  simp (disch := omega) only [headerAt, Image.u32, Image.u16, Image.u8, word_of_le]
  exact ⟨_, rfl, rfl⟩

theorem gives_header : Gives (header img) (Disassembly.header img) := by
  refine Gives.fresh ?_
  rw [Disassembly.header]
  by_cases hshort : img.size < Header.length
  · rw [if_pos hshort, if_pos hshort]
    exact ⟨_, rfl⟩
  rw [if_neg hshort, if_neg hshort]
  obtain ⟨magic, hmagic⟩ : ∃ magic, img.u64 0 = .ok magic := by
    rw [Header.length] at hshort
    rw [Image.u64, word_of_le (by omega)]
    exact ⟨_, rfl⟩
  obtain ⟨h, hfields, rfl⟩ := exists_headerAt (Nat.le_of_not_lt hshort) magic
  have hfirst : (img.u64 0).map (fun v => (v, 0 + 8)) = .ok (h.magic, 8) := by
    rw [hmagic]
    rfl
  change ∃ r, ((u64 img ⟨0, none⟩).map _).bind _ = _
  rw [(reads_u64 img).ok hfirst, read_eq_headerAt hmagic, hfields]
  change ∃ r, (if h.magic ≠ Header.magicNumber then fail (.badMagic h.magic)
    else checked (headerFields img h.magic)) ⟨8, none⟩ =
      .ok (if h.magic = Header.magicNumber then .ok h else Decoding.fail (.badMagic h.magic), r)
  by_cases heq : h.magic = Header.magicNumber
  · rw [if_neg (not_not.mpr heq), if_pos heq]
    exact ⟨_, (Decodes.checked (reads_headerFields h.magic)).ok
      (Decoding.ofRange_eq_ok_iff.mpr hfields)⟩
  · rw [if_pos heq, if_neg heq]
    exact ⟨_, rfl⟩

theorem pool_kept (stop : UInt32) (fuel : Nat) (strings : StringTable) (pos : Nat)
    (fault : RangeFault) :
    checked (pool img stop fuel strings) ⟨pos, some fault⟩ =
      .ok (.error (.ofRange fault), ⟨pos, some fault⟩) := by
  unfold pool
  rfl

theorem pool_none (stop : UInt32) (fuel : Nat) (strings : StringTable) (pos : Nat) :
    checked (pool img stop fuel strings) ⟨pos, none⟩ =
      checked (if stop ≤ UInt32.ofNat pos then pure strings else match fuel with
        | 0 => endless
        | fuel + 1 => do
          let s ← cstring img
          if ← hasFault then pool img stop fuel strings
          else pool img stop fuel (strings.insert (UInt32.ofNat pos) s)) ⟨pos, none⟩ := by
  rw [pool]
  rfl

/-- A string takes at least its zero byte, so one round more than there are bytes is enough. -/
theorem pool_eq (hsize : img.size < 2 ^ 32) (stop : UInt32) (fuel : Nat) {pos : Nat}
    (hpos : pos ≤ img.size) (hfuel : img.size < pos + fuel) (strings : StringTable) :
    ∃ r, checked (pool img stop fuel strings) ⟨pos, none⟩ =
      .ok (Tables.stringsFrom img stop.toNat pos strings, r) := by
  induction fuel generalizing pos strings with
  | zero => omega
  | succ fuel ih =>
    have hnat : (UInt32.ofNat pos).toNat = pos := toNat_ofNat_of_lt (by omega)
    rw [pool_none, Tables.stringsFrom]
    by_cases hlt : pos < stop.toNat
    · have hgo : ¬ stop ≤ UInt32.ofNat pos := by
        rw [UInt32.le_iff_toNat_le, hnat]
        omega
      rw [if_pos hlt, if_neg hgo]
      simp only
      split
      · rename_i fault hread
        obtain ⟨s, next, hcut⟩ := (reads_cstring img).cut hread
        rw [checked_bind hcut]
        exact ⟨_, pool_kept stop fuel strings next fault⟩
      · rename_i s next hread
        rw [checked_bind ((reads_cstring img).ok hread)]
        have hless := Image.lt_of_cstring hread
        exact ih (Image.next_le_of_cstring hread) (by omega) _
    · have hstop : stop ≤ UInt32.ofNat pos := by
        rw [UInt32.le_iff_toNat_le, hnat]
        omega
      rw [if_neg hlt, if_pos hstop]
      exact ⟨_, rfl⟩

theorem gives_strings (hsize : img.size < 2 ^ 32) (hlow : Header.length ≤ img.size) (h : Header) :
    Gives (strings img h) (Tables.strings img h) := by
  refine Gives.fresh ?_
  have hseek : img.seek Header.length = .ok Header.length := by
    rw [Image.seek, if_pos hlow]
  obtain ⟨r, hr⟩ := pool_eq hsize h.includeOffset (img.size + 1) hlow (by omega) {}
  rw [within, checked_bind (moveTo_of_seek img hseek 0), hr, Tables.strings]
  exact ⟨r, rfl⟩

theorem gives_trim (e : Export) (limit : Nat) (size : UInt32) :
    Gives (trim img e limit size) (ExportSizes.trim img e limit size) := by
  induction limit generalizing size with
  | zero => exact Gives.pure size
  | succ limit ih =>
    rw [trim, ExportSizes.trim]
    by_cases hzero : size = 0
    · rw [if_pos hzero, if_pos hzero]
      exact Gives.pure size
    rw [if_neg hzero, if_neg hzero]
    simp only
    by_cases hle : img.size ≤ (e.offset + size - 1).toNat
    · rw [if_pos hle, Array.getElem?_eq_none hle]
      exact Gives.ofDecoding _
    rw [if_neg hle]
    cases hop : img[(e.offset + size - 1).toNat]? with
    | none => exact absurd (Array.getElem?_eq_none_iff.mp hop) hle
    | some op =>
      refine Gives.element (by rw [Array.getElem?_toList]; exact hop) ?_
      by_cases hcloses : Opcode.closesFunction op = true
      · simp only [hcloses, if_true]
        exact Gives.pure size
      · simp only [hcloses]
        exact ih (size - 1)

theorem gives_sizes (codeEnd : UInt32) (done entries : List Export) :
    Gives (sizes img codeEnd done.length entries.length (done.reverse ++ entries))
      (ExportSizes.deriveLoop img codeEnd done entries) := by
  have hhere (done rest : List Export) (e : Export) :
      (done.reverse ++ e :: rest)[done.length]? = some e := by
    rw [List.getElem?_append_right (by rw [List.length_reverse]), List.length_reverse, Nat.sub_self]
    rfl
  have hset (done rest : List Export) (e e' : Export) :
      (done.reverse ++ e :: rest).set done.length e' = (e' :: done).reverse ++ rest := by
    rw [List.set_append_right _ _ (by rw [List.length_reverse]), List.length_reverse, Nat.sub_self]
    simp
  -- The list of the machine has the exports with a size in front, the last of them first in `done`.
  fun_induction ExportSizes.deriveLoop img codeEnd done entries with
  | case1 done =>
    rw [List.append_nil]
    exact Gives.pure _
  | case2 done e =>
    refine Gives.element (hhere done [] e) ?_
    have hlast : done.length + 1 = (done.reverse ++ [e]).length := by simp
    rw [if_pos hlast, hset, ExportSizes.lastSize]
    by_cases hpast : codeEnd < e.offset
    · rw [if_pos hpast, if_pos hpast]
      exact Gives.ofDecoding _
    · rw [if_neg hpast, if_neg hpast, List.append_nil]
      exact Gives.pure _
  | case3 done e next rest ih =>
    refine Gives.element (hhere done (next :: rest) e) ?_
    have hmore : ¬ done.length + 1 = (done.reverse ++ e :: next :: rest).length := by
      simp
    rw [if_neg hmore]
    have hnext : (done.reverse ++ e :: next :: rest)[done.length + 1]? = some next := by
      have h := hhere (e :: done) rest next
      rwa [List.reverse_cons, List.append_assoc, List.singleton_append, List.length_cons] at h
    refine Gives.element hnext ?_
    rw [ExportSizes.sizeBefore]
    by_cases hoverlap : next.offset < e.offset + ExportSizes.gap
    · rw [if_pos hoverlap, if_pos hoverlap]
      exact Gives.ofDecoding _
    · rw [if_neg hoverlap, if_neg hoverlap]
      refine (gives_trim e 3 _).bind fun size _ => ?_
      rw [hset]
      exact ih size

theorem gives_sections (hsize : img.size < 2 ^ 32) :
    Gives (sections img) ((Disassembly.sections img).map fun s =>
      (s, indexOf AnimTree.keys s.animTrees, indexOf Import.refs s.imports)) := by
  have hheader (h : Header) (hh : Decoding.within (.table .header) (Disassembly.header img) = .ok h) :
      Header.length ≤ img.size := by
    rw [Decoding.within_eq_ok_iff, Disassembly.header] at hh
    split at hh
    · exact absurd hh Decoding.fail_ne_ok
    · omega
  refine (((gives_header).within _).bind fun h hh =>
    ((gives_strings hsize (hheader h hh) h).within _).bind fun strings _ =>
    ((gives_table (rowReads_include img strings) _ _).within _).bind fun includes _ =>
    ((gives_table (rowReads_tree img strings) _ _).within _).bind fun trees _ =>
    ((gives_table (rowReads_fixup img strings) _ _).within _).bind fun fixups _ =>
    ((gives_table (rowReads_import img strings) _ _).within _).bind fun imports _ =>
    (((gives_table (rowReads_export img strings) _ _).bind fun entries _ =>
      gives_sizes (h.codeOffset + h.codeSize) [] entries).within _).bind fun exports _ =>
    Gives.pure _).of_eq ?_
  simp only [Disassembly.sections, Tables.includes, Tables.animTrees, Tables.stringFixups,
    Tables.imports, Tables.exports, ExportSizes.derive, Except.andThen_eq_bind, Except.map_eq_bind,
    Except.bind_bind, Except.ok_bind, Decoding.within_bind, Decoding.within_ok, pure, Except.pure, id]

end
end ScriptCodec.Machine

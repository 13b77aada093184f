import ScriptCodec.Proofs.Object.Targets
import ScriptCodec.Proofs.Operand.Decoded

/-!
What any decoded function is, whatever bytes it was decoded from: its instructions follow each
other, so its boundaries ascend; their operands are canonical texts; and its labels are those of
its branch targets.
-/
namespace ScriptCodec

def Instruction.IsDecoded (t : DecodeTables) (targets : List UInt32) (inst : Instruction) : Prop :=
  ∃ (kind : OperandKind) (v : OperandValue), inst.opcode.kind? = some kind ∧ v.Fits kind ∧
    inst.args = v.spell kind ∧
    (∀ name, v = .label name → ∃ target ∈ targets, name = Labels.nameOf target) ∧
    (t.IsNulFree → ∀ s ∈ (v.mention inst.opcode).strings, 0 ∉ s)

theorem Instruction.IsDecoded.mono {t : DecodeTables} {targets targets' : List UInt32}
    {inst : Instruction} (h : inst.IsDecoded t targets) (hsub : ∀ a ∈ targets, a ∈ targets') :
    inst.IsDecoded t targets' := by
  obtain ⟨kind, v, hkind, hfits, hargs, htarget, hnul⟩ := h
  refine ⟨kind, v, hkind, hfits, hargs, ?_, hnul⟩
  intro name hname
  obtain ⟨target, hmem, heq⟩ := htarget name hname
  exact ⟨target, hsub target hmem, heq⟩

inductive Instruction.Follow (limit : Nat) : Nat → List Instruction → Prop
  | nil (pos : Nat) : Follow limit pos []
  | cons {pos size : Nat} {inst : Instruction} {code : List Instruction}
    (offset : inst.offset = UInt32.ofNat pos) (length : inst.size = UInt32.ofNat size)
    (size_pos : 0 < size) (stop_le : pos + size ≤ limit) (rest : Follow limit (pos + size) code) :
    Follow limit pos (inst :: code)

namespace Disassembly

variable {t : DecodeTables} {img : Image} {pos : Nat}

theorem instruction_eq_ok {step : Step} (h : instruction t img pos = .ok step) :
    step.inst.offset = UInt32.ofNat pos ∧ step.inst.size = UInt32.ofNat step.size ∧
      step.next = pos + step.size ∧ pos + step.size ≤ img.size ∧
      step.inst.IsDecoded t step.target.toList := by
  obtain ⟨op, kind, r, hread⟩ := exists_readAs h
  obtain ⟨v, hv⟩ := exists_decodedAs op (Image.u8_eq_ok hread.opcode_eq) hread.reads
  have hnext := hv.next
  have hle := hv.next_le
  rw [hread.inst_eq, hread.size_eq, hread.next_eq, hread.target_eq]
  refine ⟨rfl, rfl, by omega, by omega, kind, v, hread.kind_eq, hv.fits, hv.operands, ?_,
    hv.nulFree⟩
  intro name hname
  obtain ⟨target, htarget, heq⟩ := hv.target name hname
  exact ⟨target, by simp [htarget], heq⟩

theorem codeFrom_eq_ok {stop : UInt32} {remaining : Nat} {done code : List Instruction}
    {before targets : List UInt32}
    (h : codeFrom t img stop pos remaining done before = .ok (code, targets)) :
    ∃ rest found, code = done.reverse ++ rest ∧ targets = before.reverse ++ found ∧
      Instruction.Follow img.size pos rest ∧ ∀ inst ∈ rest, inst.IsDecoded t found := by
  fun_induction codeFrom t img stop pos remaining done before with
  | case1 =>
    obtain ⟨rfl, rfl⟩ := Prod.mk.inj (Except.ok.inj h)
    exact ⟨[], [], by simp, by simp, .nil _, nofun⟩
  | case2 => cases h
  | case3 => exact absurd h Decoding.fail_ne_ok
  | case4 pos remaining done before _ step hstep _ ih =>
    obtain ⟨rest, found, hcode, htargets, hfollow, hdecoded⟩ := ih h
    obtain ⟨hoffset, hsize, hnext, hle, hinst⟩ := instruction_eq_ok hstep
    rw [hnext] at hfollow
    refine ⟨step.inst :: rest, step.target.toList ++ found, ?_, ?_,
      .cons hoffset hsize step.size_pos hle hfollow, ?_⟩
    · simp [hcode]
    · simp [htargets, reverse_toList]
    · intro inst hmem
      rcases List.mem_cons.mp hmem with rfl | hmem
      · exact hinst.mono fun a ha => List.mem_append_left _ ha
      · exact (hdecoded inst hmem).mono fun a ha => List.mem_append_right _ ha

end Disassembly

theorem Instruction.Follow.ascends {limit : Nat} (hlimit : limit < 2 ^ 32) {pos : Nat}
    {code : List Instruction} (h : Follow limit pos code) (hpos : pos ≤ limit) :
    let stop := match code.getLast? with
      | some last => last.offset + last.size
      | none => UInt32.ofNat pos
    (code.map Instruction.offset ++ [stop]).Pairwise (· < ·) ∧
      ∀ a ∈ code.map Instruction.offset ++ [stop], pos ≤ a.toNat := by
  induction h with
  | nil pos =>
    have hnat : (UInt32.ofNat pos).toNat = pos := toNat_ofNat_of_lt (by omega)
    simp [hnat]
  | @cons pos size inst code hoffset hsize hsizePos hstop hrest ih =>
    have hnat : (UInt32.ofNat pos).toNat = pos := toNat_ofNat_of_lt (by omega)
    have hend : inst.offset + inst.size = UInt32.ofNat (pos + size) := by
      rw [hoffset, hsize]
      apply UInt32.toNat_inj.mp
      rw [Code.toNat_add_ofNat (by omega), hnat, toNat_ofNat_of_lt (by omega)]
    have hlast : (match (inst :: code).getLast? with
        | some last => last.offset + last.size
        | none => UInt32.ofNat pos) = match code.getLast? with
        | some last => last.offset + last.size
        | none => UInt32.ofNat (pos + size) := by
      cases code with
      | nil => exact hend
      | cons j code => rfl
    obtain ⟨hascend, hlow⟩ := ih (by omega)
    simp only [hlast, List.map_cons, List.cons_append]
    refine ⟨List.pairwise_cons.mpr ⟨?_, hascend⟩, ?_⟩
    · intro a ha
      have hle := hlow a ha
      rw [hoffset, UInt32.lt_iff_toNat_lt, hnat]
      omega
    · intro a ha
      rcases List.mem_cons.mp ha with rfl | ha
      · rw [hoffset, hnat]
      · have hle := hlow a ha
        omega

structure Function.IsDecoded (t : DecodeTables) (fn : Function) : Prop where
  whole : fn.IsWhole
  ascends : fn.boundaryOffsets.Pairwise (· < ·)
  code : ∃ targets, fn.labelMap = Labels.ofTargets targets ∧
    ∀ inst ∈ fn.code, inst.IsDecoded t targets

structure Disassembly.DecodedAt (t : DecodeTables) (img : Image) (e : Export)
    (targets : List UInt32) (fn : Function) : Prop where
  name : fn.name = e.name
  offset : fn.offset = e.offset
  size : fn.size = e.size
  labels : fn.labels = some (Labels.ofTargets targets)
  whole : fn.IsWhole
  offset_le : e.offset.toNat ≤ img.size
  code : codeFrom t img (e.offset + e.size) e.offset.toNat e.size.toNat [] [] =
    .ok (fn.code, targets)

theorem Disassembly.exists_decodedAt {t : DecodeTables} {img : Image} {e : Export} {fn : Function}
    (h : function t img e = .ok fn) : ∃ targets, DecodedAt t img e targets fn := by
  simp only [function, Except.andThen_eq_ok_iff, Decoding.ofRange_eq_ok_iff,
    Except.pure_eq_ok_iff] at h
  obtain ⟨pos, hpos, ⟨code, targets⟩, hcode, rfl⟩ := h
  obtain ⟨rfl, hle⟩ := Image.seek_eq_ok hpos
  have hinstructions : (if code.isEmpty then none else some (code.map some)).getD [] =
      code.map some := by
    cases code with
    | nil => rfl
    | cons i code => rfl
  have hlist : (Function.code ⟨e.offset, e.size, e.params, e.flags, e.name,
      if code.isEmpty then none else some (code.map some),
      some (Labels.ofTargets targets)⟩) = code := by
    rw [Function.code, hinstructions, List.filterMap_map]
    exact List.filterMap_some
  refine ⟨targets, rfl, rfl, rfl, rfl, ?_, hle, ?_⟩
  · rw [Function.IsWhole, hlist]
    exact hinstructions
  · rw [hlist]
    exact hcode

/-- A decoded object comes from the sections of its input, and each of its functions from the bytes
of one export, in the order of the exports. -/
theorem exists_sections_of_disassemble {opcodes : OpcodeTable} {img : Image} {obj : ScriptObject}
    (h : disassemble opcodes img = .ok obj) :
    ∃ s fns, Disassembly.sections img = .ok s ∧ s.object fns = obj ∧ s.exports.Forall₂
      (fun e fn => ∃ targets, Disassembly.DecodedAt (s.tables opcodes) img e targets fn) fns := by
  simp only [disassemble, Except.andThen_eq_ok_iff, Except.pure_eq_ok_iff,
    List.mapM_eq_ok_iff] at h
  obtain ⟨s, hs, fns, hfns, hobj⟩ := h
  refine ⟨s, fns, hs, hobj, hfns.imp ?_⟩
  intro e fn hfn
  rw [Disassembly.exportedFunction, Decoding.within_eq_ok_iff] at hfn
  exact Disassembly.exists_decodedAt hfn

theorem Disassembly.DecodedAt.isDecoded {t : DecodeTables} {img : Image}
    (hsize : img.size < 2 ^ 32) {e : Export} {targets : List UInt32} {fn : Function}
    (h : DecodedAt t img e targets fn) : fn.IsDecoded t := by
  obtain ⟨rest, found, hrest, hfound, hfollow, hdecoded⟩ := codeFrom_eq_ok h.code
  rw [List.reverse_nil, List.nil_append] at hrest hfound
  subst hrest hfound
  refine ⟨h.whole, ?_, targets, ?_, hdecoded⟩
  · have hascend := (hfollow.ascends hsize h.offset_le).1
    rw [Function.boundaryOffsets, Function.stop, h.offset]
    rw [UInt32.ofNat_toNat] at hascend
    exact hascend
  · rw [Function.labelMap, h.labels]
    rfl

namespace Tables

variable {α : Type} {img : Image} {read : Nat → Nat → Decoding (α × Nat)} {P : α → Prop}

theorem recordsFrom_forall (hread : ∀ index pos r, read index pos = .ok r → P r.1)
    {count index pos : Nat} {done values : List α} (hdone : ∀ v ∈ done, P v)
    (h : recordsFrom read index pos done count = .ok values) : ∀ v ∈ values, P v := by
  induction count generalizing index pos done with
  | zero =>
    rw [← Except.ok.inj h]
    intro v hv
    exact hdone v (List.mem_reverse.mp hv)
  | succ count ih =>
    simp only [recordsFrom, Except.bind_eq_ok_iff] at h
    obtain ⟨r, hr, h⟩ := h
    refine ih ?_ h
    intro v hv
    rcases List.mem_cons.mp hv with rfl | hv
    · exact hread _ _ r hr
    · exact hdone v hv

theorem records_forall (hread : ∀ index pos r, read index pos = .ok r → P r.1)
    {which : DecodeError.Section} {offset : UInt32} {count : Nat} {values : List α}
    (h : records img which offset read count = .ok values) : ∀ v ∈ values, P v := by
  unfold records at h
  split at h
  · rw [← Except.ok.inj h]
    exact nofun
  · simp only [Except.bind_eq_ok_iff] at h
    obtain ⟨pos, -, h⟩ := h
    exact recordsFrom_forall hread (fun _ h => absurd h List.not_mem_nil) h

end Tables

namespace ExportSizes

theorem deriveLoop_forall {P : Bytes → Prop} {img : Image} {codeEnd : UInt32}
    {done entries sized : List Export} (hdone : ∀ e ∈ done, P e.name)
    (hentries : ∀ e ∈ entries, P e.name) (h : deriveLoop img codeEnd done entries = .ok sized) :
    ∀ e ∈ sized, P e.name := by
  fun_induction deriveLoop img codeEnd done entries with
  | case1 done =>
    rw [← Except.ok.inj h]
    intro e he
    exact hdone e (List.mem_reverse.mp he)
  | case2 done e =>
    simp only [Except.map_eq_ok_iff] at h
    obtain ⟨size, -, rfl⟩ := h
    intro d hd
    rcases List.mem_cons.mp (List.mem_reverse.mp hd) with rfl | hd
    · exact hentries e List.mem_cons_self
    · exact hdone d hd
  | case3 done e next rest ih =>
    simp only [Except.bind_eq_ok_iff] at h
    obtain ⟨size, -, h⟩ := h
    refine ih size ?_ (fun d hd => hentries d (List.mem_cons_of_mem _ hd)) h
    intro d hd
    rcases List.mem_cons.mp hd with rfl | hd
    · exact hentries e List.mem_cons_self
    · exact hdone d hd

end ExportSizes

namespace Disassembly

variable {img : Image} {h : Header} {strings : StringTable}

theorem strings_nulFree (hread : Tables.strings img h = .ok strings) : strings.IsNulFree := by
  rw [Tables.strings, Decoding.within_eq_ok_iff] at hread
  refine Tables.isNulFree_stringsFrom ?_ hread
  intro key s hs
  rw [Std.TreeMap.getElem?_emptyc] at hs
  cases hs

section

variable (hnul : strings.IsNulFree)

include hnul

theorem includes_nulFree {includes : List Bytes}
    (hread : Tables.includes img h strings = .ok includes) : ∀ s ∈ includes, 0 ∉ s := by
  refine Tables.records_forall ?_ hread
  intro index pos r hr
  simp only [Decoding.within_eq_ok_iff, Except.andThen_eq_ok_iff, Except.pure_eq_ok_iff] at hr
  obtain ⟨key, -, name, hname, rfl⟩ := hr
  exact hnul.lookup hname

theorem trees_nulFree {trees : List AnimTree}
    (hread : Tables.animTrees img h strings = .ok trees) : ∀ tree ∈ trees, 0 ∉ tree.name := by
  refine Tables.records_forall ?_ hread
  intro index pos r hr
  simp only [Tables.animTree, Decoding.within_eq_ok_iff, Except.andThen_eq_ok_iff,
    Except.pure_eq_ok_iff] at hr
  obtain ⟨⟨nameKey, refCount, animCount⟩, -, name, hname, _, -, rfl⟩ := hr
  exact hnul.lookup hname

theorem imports_nulFree {imports : List Import}
    (hread : Tables.imports img h strings = .ok imports) : ∀ entry ∈ imports, 0 ∉ entry.space := by
  refine Tables.records_forall ?_ hread
  intro index pos r hr
  simp only [Tables.importEntry, Decoding.within_eq_ok_iff, Except.andThen_eq_ok_iff,
    Except.pure_eq_ok_iff] at hr
  obtain ⟨⟨nameKey, spaceKey, refCount, params, flags⟩, -, name, -, space, hspace, refs, -, rfl⟩ := hr
  exact hnul.lookup hspace

theorem exports_nulFree {exports : List Export}
    (hread : Tables.exports img h strings = .ok exports) : ∀ e ∈ exports, 0 ∉ e.name := by
  simp only [Tables.exports, Except.andThen_eq_ok_iff] at hread
  obtain ⟨entries, hentries, hderive⟩ := hread
  refine ExportSizes.deriveLoop_forall (P := fun s => 0 ∉ s) (fun _ h => absurd h List.not_mem_nil)
    ?_ hderive
  refine Tables.records_forall ?_ hentries
  intro index pos r hr
  simp only [Tables.exportEntry, Decoding.within_eq_ok_iff, Except.andThen_eq_ok_iff,
    Except.pure_eq_ok_iff] at hr
  obtain ⟨⟨checksum, offset, nameKey, params, flags⟩, -, name, hname, rfl⟩ := hr
  exact hnul.lookup hname

end

variable {α : Type}

theorem mem_of_indexed {refs : α → List UInt32} {xs : List α} {index : Std.TreeMap UInt32 α}
    {ref : UInt32} {x : α}
    (h : (xs.foldl (fun index x => (refs x).foldl (fun index r => index.insert r x) index)
      index)[ref]? = some x) : x ∈ xs ∨ index[ref]? = some x := by
  induction xs generalizing index with
  | nil => exact Or.inr h
  | cons y xs ih =>
    rw [List.foldl_cons] at h
    rcases ih h with hmem | hindex
    · exact Or.inl (List.mem_cons_of_mem _ hmem)
    · rw [getElem?_insertAll] at hindex
      split at hindex
      · exact Or.inl (List.mem_cons.mpr (Or.inl (Option.some_inj.mp hindex).symm))
      · exact Or.inr hindex

theorem tables_nulFree {s : Sections} (hstrings : s.strings.IsNulFree)
    (himports : ∀ entry ∈ s.imports, 0 ∉ entry.space)
    (htrees : ∀ tree ∈ s.animTrees, 0 ∉ tree.name) (opcodes : OpcodeTable) :
    (s.tables opcodes).IsNulFree := by
  refine ⟨hstrings, ?_, ?_⟩
  · intro ref entry hentry
    rcases mem_of_indexed hentry with hmem | hempty
    · exact himports entry hmem
    · rw [Std.TreeMap.getElem?_emptyc] at hempty
      cases hempty
  · intro ref tree htree
    have hindex : (s.animTrees.foldl (fun index (tree : AnimTree) =>
        (tree.anims.map Animation.ref).foldl (fun index r => index.insert r tree) index)
        ({} : Std.TreeMap UInt32 AnimTree))[ref]? = some tree := by
      simp only [List.foldl_map]
      exact htree
    rcases mem_of_indexed hindex with hmem | hempty
    · exact htrees tree hmem
    · rw [Std.TreeMap.getElem?_emptyc] at hempty
      cases hempty

end Disassembly

structure Module.IsDecoded (t : DecodeTables) (d : Module) : Prop where
  tables : t.IsNulFree
  name : 0 ∉ d.name
  includes : ∀ s ∈ d.includeList, 0 ∉ s
  whole : d.IsWhole
  functions : ∀ fn ∈ d.functionList, 0 ∉ fn.name ∧ fn.IsDecoded t

theorem isDecoded_of_disassemble {opcodes : OpcodeTable} {img : Image} {obj : ScriptObject}
    (hsize : img.size < 2 ^ 32) (h : disassemble opcodes img = .ok obj) :
    ∃ t, obj.body.IsDecoded t := by
  obtain ⟨s, fns, hs, rfl, hfns⟩ := exists_sections_of_disassemble h
  simp only [Disassembly.sections, Except.andThen_eq_ok_iff, Decoding.within_eq_ok_iff,
    Except.pure_eq_ok_iff] at hs
  obtain ⟨header, -, strings, hstrings, includes, hincludes, trees, htrees, fixups, -, imports,
    himports, exports, hexports, rfl⟩ := hs
  have hnul := Disassembly.strings_nulFree hstrings
  have hlist : (Module.functionList (Disassembly.Sections.object
      ⟨header, strings, includes, trees, fixups, imports, exports⟩ fns).body) = fns :=
    Module.functionList_eq rfl
  refine ⟨Disassembly.Sections.tables
    ⟨header, strings, includes, trees, fixups, imports, exports⟩ opcodes, ?_, ?_, ?_, ?_, ?_⟩
  · exact Disassembly.tables_nulFree hnul (Disassembly.imports_nulFree hnul himports)
      (Disassembly.trees_nulFree hnul htrees) opcodes
  · exact hnul.lookupAnim _
  · intro s hs
    change s ∈ (Disassembly.presentList includes).getD [] at hs
    rw [Disassembly.getD_presentList] at hs
    exact Disassembly.includes_nulFree hnul hincludes s hs
  · rw [Module.IsWhole, hlist]
    rfl
  · rw [hlist]
    intro fn hfn
    obtain ⟨e, he, targets, hdecode⟩ := hfns.exists_left hfn
    rw [hdecode.name]
    exact ⟨Disassembly.exports_nulFree hnul hexports e he, hdecode.isDecoded hsize⟩

end ScriptCodec

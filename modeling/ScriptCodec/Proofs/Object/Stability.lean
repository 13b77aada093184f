import ScriptCodec.Proofs.Object.Reassembly

/-!
Decoding, assembling and decoding again. The operands that any decoding gives are canonical, so
they come back as they are at whatever addresses the assembler chooses; branches come back to the
same instruction.
-/
namespace ScriptCodec

/-- A callee that is written without a namespace has a name that is not cut in two. -/
def Instruction.WritesCalleePlainly (inst : Instruction) : Prop :=
  inst.opcode.kind? = some .call ∨ inst.opcode.kind? = some .function → inst.args.length = 1 →
    ∀ name ∈ inst.args, ¬ text "::" <:+: name

def Module.WritesCalleesPlainly (d : Module) : Prop :=
  ∀ fn ∈ d.functionList, ∀ inst ∈ fn.code, inst.WritesCalleePlainly

instance (inst : Instruction) : Decidable inst.WritesCalleePlainly :=
  inferInstanceAs (Decidable (_ → _ → _))

instance (d : Module) : Decidable d.WritesCalleesPlainly :=
  inferInstanceAs (Decidable (∀ fn ∈ d.functionList, ∀ inst ∈ fn.code, _))

def Instruction.IsBranch (inst : Instruction) : Prop :=
  ∃ kind, inst.opcode.kind? = some kind ∧ kind.isBranch = true

/-- The instruction leads to the `k`-th instruction of the function, or to its end. -/
def Function.BranchesTo (fn : Function) (inst : Instruction) (k : Nat) : Prop :=
  ∃ name offset, inst.args = [name] ∧ (offset, name) ∈ fn.labelMap ∧
    fn.boundaryOffsets[k]? = some offset

theorem OperandValue.mention_settled (v : OperandValue) (op : Opcode) :
    v.settled.mention op = v.mention op := by
  cases v with
  | _ => rfl

theorem Function.boundary?_eq_some_iff {fn : Function}
    (hascend : fn.boundaryOffsets.Pairwise (· < ·)) (hnames : (fn.labelMap.map Prod.snd).Nodup)
    {name : Bytes} {k : Nat} :
    fn.boundary? name = some k ↔
      ∃ offset, (offset, name) ∈ fn.labelMap ∧ fn.boundaryOffsets[k]? = some offset := by
  rw [boundary?, Option.bind_eq_some_iff]
  constructor
  · intro h
    obtain ⟨e, he, hk⟩ := h
    have hname : e.2 = name := by simpa using List.find?_some he
    refine ⟨e.1, ?_, (boundaryAt?_eq_some_iff hascend).mp hk⟩
    rw [← hname]
    exact List.mem_of_find?_eq_some he
  · intro h
    obtain ⟨offset, hmem, hk⟩ := h
    cases hfind : List.find? (fun e => e.2 == name) fn.labelMap with
    | none =>
      rw [List.find?_eq_none] at hfind
      exact absurd (beq_self_eq_true _) (hfind _ hmem)
    | some e =>
      have hname : e.2 = name := by simpa using List.find?_some hfind
      have heq : e = (offset, name) :=
        List.inj_on_of_nodup_map hnames (List.mem_of_find?_eq_some hfind) hmem hname
      refine ⟨e, rfl, (boundaryAt?_eq_some_iff hascend).mpr ?_⟩
      rw [heq]
      exact hk

theorem Instruction.IsDecoded.read {t : DecodeTables} {targets : List UInt32} {inst : Instruction}
    (h : inst.IsDecoded t targets)
    (hplain : inst.WritesCalleePlainly) :
    ∃ kind v, inst.opcode.kind? = some kind ∧ kind.read inst.args = .ok v ∧
      inst.args = v.spell kind ∧ ¬ v.IsAmbiguous ∧
      (t.IsNulFree → ∀ s ∈ (v.mention inst.opcode).strings, 0 ∉ s) := by
  obtain ⟨kind, v, hkind, hfits, hargs, -, hnul⟩ := h
  have hcallee : ¬ v.IsAmbiguous := by
    intro hambiguous
    obtain ⟨name, rfl, hcut⟩ := hambiguous
    have hargs' : inst.args = [name] := hargs
    refine hplain ?_ (by rw [hargs']; rfl) name (by rw [hargs']; exact List.mem_singleton.mpr rfl) hcut
    cases hfits with
    | call => exact Or.inl hkind
    | function => exact Or.inr hkind
  have hread := OperandValue.read_spell hfits hcallee
  refine ⟨kind, v.settled, hkind, by rw [hargs, hread], ?_, ?_, ?_⟩
  · rw [OperandValue.spell_settled, hargs]
  · intro hambiguous
    obtain ⟨name, hsettled, hcut⟩ := hambiguous
    refine hcallee ⟨name, ?_, hcut⟩
    cases v with
    | callee space n => exact hsettled
    | _ => cases hsettled
  · rw [OperandValue.mention_settled]
    exact hnul

namespace Module

variable {d : Module} {t : DecodeTables}

theorem IsDecoded.mentioned (hdecoded : d.IsDecoded t) (hplain : d.WritesCalleesPlainly)
    {ms : Mentions} (hms : Mentions.ofModule .builtIn d = .ok ms) {found : Mention}
    (hfound : found ∈ ms.all) :
    (∀ s ∈ found.strings, 0 ∉ s) ∧
      ∀ c, found.callee = some c → c.space = [] → ¬ text "::" <:+: c.name := by
  obtain ⟨r, hr, hfound⟩ := List.mem_flatMap.mp hfound
  obtain ⟨fn, hfn, hcollects⟩ := (Mentions.ofModule_eq_ok_iff.mp hms).2.exists_left hr
  obtain ⟨inst, hinst, hmention⟩ := hcollects.2.2.exists_left hfound
  obtain ⟨targets, -, hcode⟩ := (hdecoded.functions fn hfn).2.code
  obtain ⟨kind, v, hkind, hread, -, hcallee, hnul⟩ :=
    (hcode inst hinst).read (hplain fn hfn inst hinst)
  rw [Mention.ofInstruction_of_read hkind hread] at hmention
  rw [← Except.ok.inj hmention]
  refine ⟨hnul hdecoded.tables, ?_⟩
  intro c hc hspace hcut
  cases v with
  | callee space name =>
    obtain rfl := Option.some_inj.mp hc
    obtain rfl : space = [] := hspace
    exact hcallee ⟨name, rfl, hcut⟩
  | _ => cases hc

theorem IsDecoded.isNulFree (hdecoded : d.IsDecoded t) (hplain : d.WritesCalleesPlainly) :
    d.IsNulFree := by
  intro ms hms s hs
  rw [Mentions.strings, List.mem_append, List.mem_append, List.mem_flatMap] at hs
  rcases hs with (hs | hs) | ⟨r, hr, hs⟩
  · split at hs
    · cases hs
    · rw [List.mem_singleton.mp hs]
      exact hdecoded.name
  · exact hdecoded.includes s hs
  · rcases List.mem_cons.mp hs with rfl | hs
    · obtain ⟨fn, hfn, hcollects⟩ := (Mentions.ofModule_eq_ok_iff.mp hms).2.exists_left hr
      rw [hcollects.1]
      exact (hdecoded.functions fn hfn).1
    · obtain ⟨found, hfound, hs⟩ := List.mem_flatMap.mp hs
      exact (hdecoded.mentioned hplain hms (List.mem_flatMap.mpr ⟨r, hr, hfound⟩)).1 s hs

theorem IsDecoded.isUnambiguous (hdecoded : d.IsDecoded t) (hplain : d.WritesCalleesPlainly) :
    d.IsUnambiguous := by
  intro ms hms c hc
  obtain ⟨found, hfound, hcallee⟩ := List.mem_filterMap.mp (List.mem_eraseDups.mp hc)
  exact (hdecoded.mentioned hplain hms hfound).2 c hcallee

end Module

/-- The same function at other addresses. -/
structure Function.IsMovedTo (fn g : Function) : Prop where
  name : g.name = fn.name
  params : g.params = fn.params
  flags : g.flags = fn.flags
  code : fn.code.Forall₂ (fun i j => j.opcode = i.opcode ∧ (¬ i.IsBranch → j.args = i.args) ∧
    (i.IsBranch → ∀ k, fn.BranchesTo i k → g.BranchesTo j k)) g.code

theorem OperandValue.args_of_label {kind : OperandKind} {args : List Bytes} {name : Bytes}
    (h : kind.read args = .ok (.label name)) : args = [name] ∧ kind.isBranch = true := by
  cases fits_of_read h with
  | jump | longJump =>
    simp only [OperandKind.read, Except.map_eq_ok_iff, Operand.single_eq_ok_iff, label.injEq,
      exists_eq_right] at h
    exact ⟨h, rfl⟩

theorem OperandValue.Fits.isBranch_eq {kind : OperandKind} {v : OperandValue} (h : v.Fits kind)
    (hplain : ∀ name, v ≠ .label name) : kind.isBranch = false := by
  cases h with
  | jump => exact absurd rfl (hplain _)
  | longJump => exact absurd rfl (hplain _)
  | _ => rfl

theorem Function.ReadsBackAs.isMovedTo {fn g : Function} {t t' : DecodeTables}
    (hback : fn.ReadsBackAs g) (hagrees : fn.Agrees g) (hfn : fn.IsDecoded t)
    (hg : g.IsDecoded t') (hplain : ∀ inst ∈ fn.code, inst.WritesCalleePlainly) :
    fn.IsMovedTo g := by
  obtain ⟨lay, -, hcanonical⟩ := hback.isCanonicalOf.code
  obtain ⟨targets, hlabels, hdecoded⟩ := hfn.code
  have hnames : (fn.labelMap.map Prod.snd).Nodup := by
    rw [hlabels]
    exact Labels.nodup_ofTargets targets
  have hread : ∀ inst ∈ fn.code, ∃ kind v, inst.opcode.kind? = some kind ∧
      kind.read inst.args = .ok v ∧ inst.args = v.spell kind := by
    intro inst hinst
    obtain ⟨kind, v, hkind, hread, hargs, -⟩ := (hdecoded inst hinst).read (hplain inst hinst)
    exact ⟨kind, v, hkind, hread, hargs⟩
  refine ⟨hagrees.name, hagrees.params, hagrees.flags, ?_⟩
  refine List.Forall₂.mp ?_ ((List.forall₂_and_left _ _).mpr ⟨hread, hcanonical⟩) hagrees.code
  intro i j hi hij
  obtain ⟨⟨kind, v, hkind, hread, hargs⟩, hop, hcanonical⟩ := hi
  obtain ⟨-, kind', v', w, hkind', hread', hreadj, hvalue⟩ := hij
  obtain rfl : kind' = kind := Option.some_inj.mp (hkind'.symm.trans hkind)
  obtain rfl : v' = v := Except.ok.inj (hread'.symm.trans hread)
  refine ⟨hop, ?_, ?_⟩
  · intro hbranch
    have hne : ∀ name, v' ≠ .label name := by
      intro name hv
      rw [hv] at hread
      exact hbranch ⟨kind', hkind, (OperandValue.args_of_label hread).2⟩
    rw [Layout.canonical?, hkind, Option.bind_some, Except.toOption_eq_some_iff.mpr hread,
      Option.bind_some, OperandValue.spellAt_of_ne hne] at hcanonical
    rw [← Option.some_inj.mp hcanonical, hargs]
  · intro hbranch k hto
    cases hvalue with
    | same hne =>
      obtain ⟨kind, hkind', hisBranch⟩ := hbranch
      obtain rfl : kind' = kind := Option.some_inj.mp (hkind.symm.trans hkind')
      rw [(OperandValue.fits_of_read hread).isBranch_eq hne] at hisBranch
      cases hisBranch
    | @label a b k' ha hb =>
      obtain ⟨name, offset, hname, hmem, hk⟩ := hto
      obtain rfl : a = name := by
        have hargs' := (OperandValue.args_of_label hread).1
        rw [hname] at hargs'
        exact (List.cons.inj hargs').1.symm
      have hto := (boundary?_eq_some_iff hfn.ascends hnames).mpr ⟨offset, hmem, hk⟩
      obtain rfl : k = k' := Option.some_inj.mp (hto.symm.trans ha)
      obtain ⟨offset', hmem', hk'⟩ :=
        (boundary?_eq_some_iff hg.ascends hagrees.labels.1).mp hb
      exact ⟨b, offset', (OperandValue.args_of_label hreadj).1, hmem', hk'⟩

theorem disassemble_assemble_disassemble {img : Image} {obj : ScriptObject} {flags : UInt8}
    {a : Assembled} (hsize : img.size < 2 ^ 32 - 4) (h : disassemble .builtIn img = .ok obj)
    (hplain : obj.body.WritesCalleesPlainly) (ha : assemble .builtIn flags obj.body = .ok a)
    (hlength : a.file.length < 2 ^ 32) :
    ∃ obj', disassemble .builtIn a.file.toArray = .ok obj' ∧ obj'.body.name = obj.body.name ∧
      obj'.body.includeList = obj.body.includeList ∧
      obj.body.functionList.Forall₂ Function.IsMovedTo obj'.body.functionList := by
  obtain ⟨t, hdecoded⟩ := isDecoded_of_disassemble (by omega) h
  have hcallees := hdecoded.isUnambiguous hplain
  obtain ⟨ms, bs, r, hfile⟩ := exists_fileOf ha hlength
  obtain ⟨obj', hobj', -, hback⟩ :=
    hfile.disassemble (hdecoded.isNulFree hplain ms hfile.mentions)
  obtain ⟨t', hdecoded'⟩ := isDecoded_of_disassemble (by simpa using hlength) hobj'
  have hagrees := hback.agrees hfile.mentions hcallees hdecoded'
  refine ⟨obj', hobj', hagrees.name, hagrees.includes, ?_⟩
  have hpairs := (List.forall₂_and_left _ _).mpr
    ⟨fun fn hfn => And.intro (hdecoded.functions fn hfn).2 (hplain fn hfn), hback.functions⟩
  have hboth := (List.forall₂_and_left _ _).mpr
    ⟨fun g hg => (hdecoded'.functions g hg).2, hpairs.flip⟩
  refine List.Forall₂.mp ?_ hboth.flip hagrees.functions
  intro fn g hpair hfn
  exact hpair.2.2.isMovedTo hfn hpair.2.1.1 hpair.1 hpair.2.1.2

/-- A file with stray bytes around its code, an import that nothing refers to, a NaN with a payload
and a branch to the end of a function that starts at an odd address. -/
def strayImage : Image :=
  #[128, 71, 83, 67, 13, 10, 0, 6, 0, 0, 0, 0, 75, 0, 0, 0, 0, 0, 0, 0, 77, 0, 0, 0, 0, 0, 0, 0,
    118, 0, 0, 0, 98, 0, 0, 0, 0, 0, 0, 0, 0, 0, 0, 0, 20, 0, 0, 0, 64, 0, 0, 0, 1, 0, 2, 0, 0, 0,
    0, 0, 0, 0, 9, 0, 109, 0, 102, 0, 108, 105, 98, 0, 103, 111, 0, 170, 187, 9, 0, 0, 35, 1, 192,
    127, 63, 0, 9, 0, 46, 2, 0, 0, 72, 0, 0, 0, 0, 204, 72, 0, 68, 0, 0, 0, 7, 3, 72, 0, 68, 0, 1,
    0, 2, 2, 88, 0, 0, 0, 239, 190, 173, 222, 77, 0, 0, 0, 66, 0, 1, 4]

theorem disassemble_assemble_disassemble_strayImage :
    ∃ obj a obj', strayImage.size < 2 ^ 32 - 4 ∧ disassemble .builtIn strayImage = .ok obj ∧
      obj.body.WritesCalleesPlainly ∧ assemble .builtIn 0 obj.body = .ok a ∧
      a.file.length < 2 ^ 32 ∧ disassemble .builtIn a.file.toArray = .ok obj' ∧
      obj'.body.name = obj.body.name ∧ obj'.body.includeList = obj.body.includeList ∧
      obj.body.functionList.Forall₂ Function.IsMovedTo obj'.body.functionList := by
  have hsize : strayImage.size < 2 ^ 32 - 4 := by decide +kernel
  obtain ⟨obj, hobj, hrest⟩ : ∃ obj, disassemble .builtIn strayImage = .ok obj ∧
      (decide obj.body.WritesCalleesPlainly && (assemble .builtIn 0 obj.body).toOption.any
        fun a => decide (a.file.length < 2 ^ 32)) = true :=
    Except.exists_of_any (by decide +kernel)
  rw [Bool.and_eq_true, decide_eq_true_eq] at hrest
  obtain ⟨a, ha, hlength⟩ := Except.exists_of_any hrest.2
  obtain ⟨obj', hobj'⟩ := disassemble_assemble_disassemble hsize hobj hrest.1 ha
    (of_decide_eq_true hlength)
  exact ⟨obj, a, obj', hsize, hobj, hrest.1, ha, of_decide_eq_true hlength, hobj'⟩

end ScriptCodec

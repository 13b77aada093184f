import ScriptCodec.Proofs.Listing.Placement

/-!
The listing keeps all that assembly needs. It leaves out offsets, sizes and import declarations;
reading it lays every function out anew from where the one before it stops. Still, a module
decoded from a file can be printed, read and assembled to the very same file, as long as its
names are written so that a line is cut where it was joined.
-/
namespace ScriptCodec

def Instruction.bareOperands (inst : Instruction) : List Bytes :=
  (inst.opcode.kind?.map fun kind => kind.bareOperands inst.args).getD []

/-- The names of a module can be told apart on a line of its listing. -/
structure Module.IsPrintable (d : Module) : Prop where
  names : ∀ fn ∈ d.functionList, ∀ b ∈ fn.name, b ≠ 0x20 ∧ b ≠ 0x09 ∧ b ≠ 0x0D ∧ b ≠ 0x0A
  includes : ∀ path ∈ d.includeList, Listing.IsToken path
  operands : ∀ fn ∈ d.functionList, ∀ inst ∈ fn.code, ∀ s ∈ inst.bareOperands, Listing.IsToken s
  callees : d.WritesCalleesPlainly

instance (d : Module) : Decidable d.IsPrintable :=
  have (fn : Function) : Decidable (∀ b ∈ fn.name, b ≠ 0x20 ∧ b ≠ 0x09 ∧ b ≠ 0x0D ∧ b ≠ 0x0A) :=
    List.decidableBAll _ _
  decidable_of_iff (_ ∧ _ ∧ _ ∧ _)
    ⟨fun h => ⟨h.1, h.2.1, h.2.2.1, h.2.2.2⟩, fun h => ⟨h.names, h.includes, h.operands, h.callees⟩⟩

namespace Function

variable {fn g : Function} {t : DecodeTables}

/-- What has no namespace in the canonical form has none in the function itself. -/
theorem ReadsBackAs.isUnambiguous (h : fn.ReadsBackAs g)
    (hplain : ∀ inst ∈ g.code, inst.WritesCalleePlainly) : fn.IsUnambiguous := by
  intro inst hinst kind v hkind hread hambiguous
  obtain ⟨name, rfl, hcut⟩ := hambiguous
  obtain ⟨lay, -, hcanonical⟩ := h.isCanonicalOf.code
  obtain ⟨j, hj, hop, hargs⟩ := hcanonical.exists_right hinst
  rw [Layout.canonical?, hkind, Option.bind_some, Except.toOption_eq_some_iff.mpr hread] at hargs
  have hargs' : [name] = j.args := Option.some_inj.mp hargs
  have hcallee : j.opcode.kind? = some .call ∨ j.opcode.kind? = some .function := by
    rw [hop, hkind]
    cases OperandValue.fits_of_read hread with
    | call => exact Or.inl rfl
    | function => exact Or.inr rfl
  refine hplain j hj hcallee (by rw [← hargs']; rfl) name ?_ hcut
  rw [← hargs']
  exact List.mem_singleton.mpr rfl

theorem ReadsBackAs.labelMap_eq_nil (h : fn.ReadsBackAs g) (hcode : g.code = []) :
    g.labelMap = [] := by
  obtain ⟨lay, -, -, hg⟩ := h
  rw [hg, Layout.code_canonicalFunction, Layout.canonicalCode, List.map_eq_nil_iff] at hcode
  rw [hg]
  change Labels.ofTargets lay.targets = []
  rw [Layout.targets, hcode]
  rfl

theorem IsDecoded.isListed (h : g.IsDecoded t) (hback : fn.ReadsBackAs g)
    (hname : ∀ b ∈ g.name, b ≠ 0x20 ∧ b ≠ 0x09 ∧ b ≠ 0x0D ∧ b ≠ 0x0A)
    (hoperands : ∀ inst ∈ g.code, ∀ s ∈ inst.bareOperands, Listing.IsToken s) : g.IsListed := by
  obtain ⟨targets, hlabels, hcode⟩ := h.code
  refine ⟨?_, ?_, h.ascends, ?_, ?_, ?_, hback.labelMap_eq_nil⟩
  · intro b hb
    obtain ⟨hspace, htab, hreturn, hline⟩ := hname b hb
    exact ⟨by simp [Listing.isBlank, hspace, htab, hreturn], hline⟩
  · intro inst hinst
    obtain ⟨kind, v, hkind, hfits, hargs, htarget, -⟩ := hcode inst hinst
    refine ⟨⟨kind, hkind⟩, ?_⟩
    rw [hargs]
    refine OperandValue.isToken_spell hfits ?_ ?_
    · rw [← hargs]
      intro s hs
      refine hoperands inst hinst s ?_
      rw [Instruction.bareOperands, hkind]
      exact hs
    · intro name hv
      obtain ⟨target, -, hname⟩ := htarget name hv
      exact ⟨target, hname⟩
  · rw [hlabels]
    exact Labels.ascends_ofTargets targets
  · rw [hlabels]
    exact Labels.nodup_ofTargets targets
  · intro e he
    rw [hlabels] at he
    obtain ⟨target, -, rfl⟩ := Labels.mem_ofTargets.mp he
    exact Listing.isLabelName_nameOf target

end Function

namespace Listing

theorem Relaid.relabels {start stop : UInt32} {fns gs : List Function}
    (h : Relaid start fns gs stop) (hfns : ∀ fn ∈ fns, fn.IsListed ∧ fn.IsWhole) :
    fns.Forall₂ Function.Relabels gs ∧ ∀ g ∈ gs, g.BindsLabels := by
  induction h with
  | nil => exact ⟨.nil, by simp⟩
  | cons places ascends _ ih =>
    obtain ⟨⟨hlisted, hwhole⟩, hfns⟩ := List.forall_mem_cons.mp hfns
    obtain ⟨hrelabels, hbinds⟩ := ih hfns
    refine ⟨.cons (Function.relabels_relaid places hlisted ascends hwhole) hrelabels, ?_⟩
    exact List.forall_mem_cons.mpr ⟨Function.bindsLabels_relaid places hlisted ascends, hbinds⟩

end Listing

namespace Module

variable {m d : Module} {ms : Mentions} {t : DecodeTables}

theorem IsPrintable.isListed (h : d.IsPrintable) (hdecoded : d.IsDecoded t)
    (hback : m.ReadsBackAs ms d) : d.IsListed := by
  refine ⟨h.includes, ?_⟩
  intro g hg
  obtain ⟨fn, -, hfn⟩ := hback.functions.exists_left hg
  exact (hdecoded.functions g hg).2.isListed hfn (h.names g hg) (h.operands g hg)

/-- Without import declarations on either side the decoded ones are not needed. -/
theorem ReadsBackAs.assemble (hback : m.ReadsBackAs ms d) (hdecoded : d.IsDecoded t)
    (hplain : d.WritesCalleesPlainly) (himports : m.importList = []) {flags : UInt8} {a : Assembled}
    (ha : ScriptCodec.assemble .builtIn flags m = .ok a) :
    ScriptCodec.assemble .builtIn flags { d with imports := none } = .ok a := by
  have hcallees : ∀ fn ∈ m.functionList, fn.IsUnambiguous := by
    intro fn hfn
    obtain ⟨g, hg, hfg⟩ := hback.functions.exists_right hfn
    exact hfg.isUnambiguous (hplain g hg)
  have hagrees := hback.agrees_of_unambiguous hcallees hdecoded
  have hbare : m.Agrees { d with imports := none } :=
    ⟨hagrees.name, hagrees.includes, hagrees.whole, hagrees.functions⟩
  have hnone : ({ d with imports := none } : Module).importList = m.importList := himports.symm
  refine hbare.assemble (fun _ _ c _ => calleeParams_eq_of hnone ?_ c) ha
  exact hagrees.functions.imp fun _ _ hfn => ⟨hfn.name, hfn.params⟩

/-- A module that assembles is read from its listing so that it assembles to the same object. -/
theorem IsListed.assemble_parse (h : d.IsListed) (hwhole : d.IsWhole)
    (hcode : ∀ fn ∈ d.functionList, fn.IsWhole) (himports : d.importList = []) {flags : UInt8}
    {a : Assembled} (ha : assemble .builtIn flags d = .ok a) (hlength : a.file.length < 2 ^ 32)
    (hlimit : ∀ line ∈ Listing.lines (Listing.unlines (Listing.moduleLines d)),
      line.length + 1 ≤ Listing.lineLimit) :
    ∃ p, Listing.parse .builtIn (Listing.unlines (Listing.moduleLines d)) = .ok p ∧
      assemble .builtIn flags { p with name := d.name } = .ok a := by
  obtain ⟨ms, bs, r, hfile⟩ := exists_fileOf ha hlength
  have hfit : (Assembly.codeOffset (ms.pool d) d.includeList).toNat + 0 +
      (Code.joined bs).length < 2 ^ 32 := by
    have hstop := (hfile.toNat_offsets rfl).1
    exact hstop ▸ UInt32.toNat_lt _
  obtain ⟨gs, stop, hrelaid⟩ := hfile.lays.exists_relaid hfit
    (show (0 : UInt32).toNat ≤ _ from Nat.zero_le _)
  obtain ⟨hrelabels, hbinds⟩ := hrelaid.relabels fun fn hfn => ⟨h.functions fn hfn, hcode fn hfn⟩
  refine ⟨_, Listing.parse_unlines h hrelaid hlimit, ?_⟩
  generalize hs : (⟨d.includeList.reverse, gs.reverse, stop, none⟩ : Listing.State) = s
  have hincludes : s.module.includeList = d.includeList := by
    rw [Listing.State.includeList_module, ← hs, List.reverse_reverse]
  have hfunctions : s.module.functions.getD [] = gs.map some := by
    rw [Listing.State.functions_module, ← hs, List.reverse_reverse]
  have hsame : d.Relabels { s.module with name := d.name } := by
    refine ⟨rfl, hincludes, himports.symm, ?_⟩
    change List.Forall₂ _ _ (s.module.functions.getD [])
    rw [hwhole, hfunctions, List.forall₂_map_left_iff, List.forall₂_map_right_iff]
    exact hrelabels.imp fun _ _ hfn => .some hfn
  refine hsame.assemble ?_ ha
  have hlist : ({ s.module with name := d.name } : Module).functionList = gs := by
    change (s.module.functions.getD []).filterMap id = gs
    rw [hfunctions, List.filterMap_map]
    exact List.filterMap_some
  rw [hlist]
  exact hbinds

end Module

theorem parse_print_disassemble {flags : UInt8} {m : Module} {a : Assembled}
    (h : assemble .builtIn flags m = .ok a) (himports : m.importList = []) (hnul : m.IsNulFree)
    (hlength : a.file.length < 2 ^ 32) :
    ∃ obj, disassemble .builtIn a.file.toArray = .ok obj ∧
      (obj.body.IsPrintable →
        (∀ text, Listing.print .builtIn none obj.body = .ok text →
          ∀ line ∈ Listing.lines text, line.length + 1 ≤ Listing.lineLimit) →
        ∃ text p b, Listing.print .builtIn none obj.body = .ok text ∧
          Listing.parse .builtIn text = .ok p ∧
          assemble .builtIn obj.header.flags { p with name := obj.body.name } = .ok b ∧
          b.file = a.file) := by
  obtain ⟨ms, bs, r, hfile⟩ := exists_fileOf h hlength
  obtain ⟨obj, hobj, hflags, hback⟩ := hfile.disassemble (hnul ms hfile.mentions)
  obtain ⟨t, hdecoded⟩ := isDecoded_of_disassemble (by simpa using hlength) hobj
  refine ⟨obj, hobj, ?_⟩
  intro hprintable hlimit
  have hlisted := hprintable.isListed hdecoded hback
  have hprint := Listing.print_eq fun fn hfn inst hinst =>
    ((hlisted.functions fn hfn).code inst hinst).1
  have hbare := hback.assemble hdecoded hprintable.callees himports h
  have hcode : ∀ fn ∈ obj.body.functionList, fn.IsWhole :=
    fun fn hfn => (hdecoded.functions fn hfn).2.whole
  -- The listing does not show the import declarations, so it is that of the module without them.
  have hlisted' : Module.IsListed { obj.body with imports := none } :=
    ⟨hlisted.includes, hlisted.functions⟩
  obtain ⟨p, hp, hassemble⟩ :=
    hlisted'.assemble_parse hdecoded.whole hcode rfl hbare hlength (hlimit _ hprint)
  rw [hflags]
  exact ⟨_, p, a, hprint, hp, hassemble, rfl⟩

theorem parse_print_disassemble_callingModule :
    ∃ a obj text p b, assemble .builtIn 1 callingModule = .ok a ∧ callingModule.importList = [] ∧
      callingModule.IsNulFree ∧ a.file.length < 2 ^ 32 ∧
      disassemble .builtIn a.file.toArray = .ok obj ∧ obj.body.IsPrintable ∧
      Listing.print .builtIn none obj.body = .ok text ∧
      (∀ line ∈ Listing.lines text, line.length + 1 ≤ Listing.lineLimit) ∧
      Listing.parse .builtIn text = .ok p ∧
      assemble .builtIn obj.header.flags { p with name := obj.body.name } = .ok b ∧
      b.file = a.file := by
  obtain ⟨a, ha, hrest⟩ : ∃ a, assemble .builtIn 1 callingModule = .ok a ∧
      (decide (a.file.length < 2 ^ 32) &&
        (disassemble .builtIn a.file.toArray).toOption.any fun obj =>
          decide obj.body.IsPrintable &&
            (Listing.print .builtIn none obj.body).toOption.all fun text =>
              (Listing.lines text).all fun line =>
                decide (line.length + 1 ≤ Listing.lineLimit)) = true :=
    Except.exists_of_any (by decide +kernel)
  have hnul : callingModule.IsNulFree := by decide +kernel
  rw [Bool.and_eq_true, decide_eq_true_eq] at hrest
  obtain ⟨hlength, hobj⟩ := hrest
  obtain ⟨obj, hobj, hrest⟩ := Except.exists_of_any hobj
  rw [Bool.and_eq_true, decide_eq_true_eq] at hrest
  obtain ⟨hprintable, hlines⟩ := hrest
  have hlimit : ∀ text, Listing.print .builtIn none obj.body = .ok text →
      ∀ line ∈ Listing.lines text, line.length + 1 ≤ Listing.lineLimit := by
    intro text htext line hline
    rw [Except.toOption_eq_some_iff.mpr htext] at hlines
    exact of_decide_eq_true (List.all_eq_true.mp hlines line hline)
  obtain ⟨obj', hobj', hround⟩ := parse_print_disassemble ha rfl hnul hlength
  obtain rfl : obj = obj' := Except.ok.inj (hobj.symm.trans hobj')
  obtain ⟨text, p, b, htext, hp, hb⟩ := hround hprintable hlimit
  exact ⟨a, obj, text, p, b, ha, rfl, hnul, hlength, hobj, hprintable, htext, hlimit text htext, hp,
    hb⟩

end ScriptCodec

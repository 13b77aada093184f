import ScriptCodec.Proofs.Object.Decoded

/-!
Assembling again what was disassembled. A module agrees with the module decoded from its file, and
the decoded import declarations give every callee the parameter count it was assembled with; so
the decoded module assembles to the very same file.
-/
namespace ScriptCodec

/-- No callee without a namespace has a name that would be cut in two. -/
def Module.IsUnambiguous (m : Module) : Prop :=
  ∀ ms, Mentions.ofModule .builtIn m = .ok ms →
    ∀ c ∈ ms.callees, c.space = [] → ¬ text "::" <:+: c.name

instance (m : Module) : Decidable m.IsUnambiguous :=
  decidable_of_iff
    (∀ ms ∈ (Mentions.ofModule .builtIn m).toOption,
      ∀ c ∈ ms.callees, c.space = [] → ¬ text "::" <:+: c.name) <| by
    simp only [Module.IsUnambiguous, Option.mem_def, Except.toOption_eq_some_iff]

namespace Module

variable {m d : Module} {ms : Mentions}

theorem IsUnambiguous.function (h : m.IsUnambiguous)
    (hms : Mentions.ofModule .builtIn m = .ok ms) {fn : Function} (hfn : fn ∈ m.functionList) :
    fn.IsUnambiguous := by
  intro inst hinst kind v hkind hread hambiguous
  obtain ⟨name, rfl, hcut⟩ := hambiguous
  obtain ⟨r, hr, hcollects⟩ := (Mentions.ofModule_eq_ok_iff.mp hms).2.exists_right hfn
  obtain ⟨found, hfound, hmention⟩ := hcollects.2.2.exists_right hinst
  rw [Mention.ofInstruction_of_read hkind hread] at hmention
  have hcallee : (⟨[], name, inst.opcode.importKind⟩ : Callee) ∈ ms.callees := by
    refine List.mem_eraseDups.mpr (List.mem_filterMap.mpr ⟨found, ?_, ?_⟩)
    · exact List.mem_flatMap.mpr ⟨r, hr, hfound⟩
    · rw [← Except.ok.inj hmention]
      rfl
  exact h ms hms _ hcallee rfl hcut

theorem ReadsBackAs.agrees_of_unambiguous (h : m.ReadsBackAs ms d)
    (hplain : ∀ fn ∈ m.functionList, fn.IsUnambiguous) {t : DecodeTables}
    (hdecoded : d.IsDecoded t) : m.Agrees d := by
  refine ⟨h.name, ?_, hdecoded.whole, ?_⟩
  · rw [includeList, h.includes, Disassembly.getD_presentList]
  · have hback := (List.forall₂_and_left _ _).mpr ⟨hplain, h.functions⟩
    have hascend : ∀ g ∈ d.functionList, g.boundaryOffsets.Pairwise (· < ·) :=
      fun g hg => (hdecoded.functions g hg).2.ascends
    have hboth := (List.forall₂_and_left _ _).mpr ⟨hascend, hback.flip⟩
    exact hboth.flip.imp fun fn g h => h.2.2.agrees h.1 h.2.1

theorem ReadsBackAs.agrees (h : m.ReadsBackAs ms d) (hms : Mentions.ofModule .builtIn m = .ok ms)
    (hcallees : m.IsUnambiguous) {t : DecodeTables} (hdecoded : d.IsDecoded t) : m.Agrees d :=
  h.agrees_of_unambiguous (fun _ hfn => hcallees.function hms hfn) hdecoded

theorem calleeParams_of_imports (himports : d.importList = ms.imports m) {c : Callee}
    (hc : c ∈ ms.callees) : d.calleeParams c = m.calleeParams c := by
  unfold calleeParams
  simp only [himports]
  cases hfind : ((ms.imports m).filter fun d => d.space == c.space && d.name == c.name).find?
      fun d => d.kind == c.kind with
  | none =>
    rw [List.find?_eq_none] at hfind
    have hmem : (⟨c.space, c.name, m.calleeParams c, c.kind⟩ : ImportDecl) ∈
        (ms.imports m).filter fun d => d.space == c.space && d.name == c.name := by
      refine List.mem_filter.mpr ⟨List.mem_map.mpr ⟨c, hc, rfl⟩, ?_⟩
      simp
    exact absurd (beq_self_eq_true _) (hfind _ hmem)
  | some e =>
    have hkind : e.kind = c.kind := by simpa using List.find?_some hfind
    obtain ⟨he, hsame⟩ := List.mem_filter.mp (List.mem_of_find?_eq_some hfind)
    obtain ⟨c', -, rfl⟩ := List.mem_map.mp he
    have hnames : c'.space = c.space ∧ c'.name = c.name := by simpa using hsame
    have heq : c' = c := by
      obtain ⟨space, name, kind⟩ := c
      obtain ⟨space', name', kind'⟩ := c'
      simp only at hkind hnames
      rw [hkind, hnames.1, hnames.2]
    simp only [heq]
    rfl

end Module

theorem assemble_disassemble {flags : UInt8} {m : Module} {a : Assembled}
    (h : assemble .builtIn flags m = .ok a) (hnul : m.IsNulFree) (hcallees : m.IsUnambiguous)
    (hlength : a.file.length < 2 ^ 32) :
    ∃ obj b, disassemble .builtIn a.file.toArray = .ok obj ∧
      assemble .builtIn obj.header.flags obj.body = .ok b ∧ b.file = a.file := by
  obtain ⟨ms, bs, r, hfile⟩ := exists_fileOf h hlength
  obtain ⟨obj, hobj, hflags, hback⟩ := hfile.disassemble (hnul ms hfile.mentions)
  obtain ⟨t, hdecoded⟩ := isDecoded_of_disassemble (by simpa using hlength) hobj
  have hagrees := hback.agrees hfile.mentions hcallees hdecoded
  have himports : obj.body.importList = ms.imports m := by
    rw [Module.importList, hback.imports, Disassembly.getD_presentList]
  refine ⟨obj, a, hobj, ?_, rfl⟩
  rw [hflags]
  refine hagrees.assemble ?_ h
  intro ms' hms' c hc
  rw [hfile.mentions] at hms'
  rw [← Except.ok.inj hms'] at hc
  exact Module.calleeParams_of_imports himports hc

theorem assemble_disassemble_callingModule :
    ∃ a obj b, assemble .builtIn 1 callingModule = .ok a ∧ callingModule.IsNulFree ∧
      callingModule.IsUnambiguous ∧ a.file.length < 2 ^ 32 ∧
      disassemble .builtIn a.file.toArray = .ok obj ∧
      assemble .builtIn obj.header.flags obj.body = .ok b ∧ b.file = a.file := by
  obtain ⟨a, ha, hlength⟩ : ∃ a, assemble .builtIn 1 callingModule = .ok a ∧
      decide (a.file.length < 2 ^ 32) = true := Except.exists_of_any (by decide +kernel)
  have hnul : callingModule.IsNulFree := by decide +kernel
  have hcallees : callingModule.IsUnambiguous := by decide +kernel
  obtain ⟨obj, b, hobj⟩ := assemble_disassemble ha hnul hcallees (of_decide_eq_true hlength)
  exact ⟨a, obj, b, ha, hnul, hcallees, of_decide_eq_true hlength, hobj⟩

end ScriptCodec

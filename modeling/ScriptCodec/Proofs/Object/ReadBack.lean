import ScriptCodec.Proofs.Object.Sections

/-!
Disassembling an assembled file. The sites in the code lead to the import and animation entries
they were written for, because an address belongs to one site only; so the decoded module is the
canonical form of the assembled one.
-/
namespace ScriptCodec

namespace Assembly

variable {sites : List Site} {addr : UInt32}

theorem mem_refsTo {c : Callee} :
    addr ∈ (refsTo sites c).map Prod.fst ↔ ∃ dev, Site.call c addr dev ∈ sites := by
  simp only [refsTo, List.mem_map, List.mem_filterMap]
  constructor
  · intro h
    obtain ⟨r, ⟨s, hs, hr⟩, rfl⟩ := h
    cases s with
    | call d a dev =>
      simp only at hr
      split at hr
      · rename_i hd
        rw [← Option.some_inj.mp hr]
        exact ⟨dev, hd ▸ hs⟩
      · cases hr
    | literal | animation => cases hr
  · intro h
    obtain ⟨dev, hs⟩ := h
    exact ⟨(addr, dev), ⟨_, hs, by simp⟩, rfl⟩

theorem mem_animationsOf {tree : Bytes} :
    addr ∈ (animationsOf sites tree).map Animation.ref ↔
      ∃ anim, Site.animation tree anim addr ∈ sites := by
  simp only [animationsOf, List.mem_map, List.mem_filterMap]
  constructor
  · intro h
    obtain ⟨r, ⟨s, hs, hr⟩, rfl⟩ := h
    cases s with
    | animation t anim a =>
      simp only at hr
      split at hr
      · rename_i ht
        rw [← Option.some_inj.mp hr]
        exact ⟨anim, ht ▸ hs⟩
      · cases hr
    | literal | call => cases hr
  · intro h
    obtain ⟨anim, hs⟩ := h
    exact ⟨⟨anim, addr⟩, ⟨_, hs, by simp⟩, rfl⟩

end Assembly

namespace Disassembly

variable {flags : UInt8} {m : Module} {ms : Mentions} {bs : List Code.Body} {r : Assembly.Rows}
  {file : Bytes} {h : Header} {s : Sections}

theorem importAt_of_sections (hs : ReadsSections m ms bs h s) {low high : Nat}
    (hwithin : Site.Within low high (Assembly.codeOf m ms bs).sites) {c : Callee} {addr : UInt32}
    {dev : Bool} (hsite : Site.call c addr dev ∈ (Assembly.codeOf m ms bs).sites)
    (hc : c ∈ ms.callees) :
    ∃ entry, (importIndex s.imports)[addr]? = some entry ∧ entry.space = c.space := by
  have hlisted : ∃ entry ∈ s.imports, addr ∈ entry.refs := by
    obtain ⟨entry, hentry, himported⟩ := hs.imports.exists_right (List.mem_map_of_mem hc)
    exact ⟨entry, hentry, by rw [himported.refs]; exact Assembly.mem_refsTo.mpr ⟨dev, hsite⟩⟩
  obtain ⟨entry, hentry, hrefs, hindex⟩ := exists_indexed hlisted {}
  obtain ⟨d, -, himported⟩ := hs.imports.exists_left hentry
  rw [himported.refs] at hrefs
  obtain ⟨dev', hsite'⟩ := Assembly.mem_refsTo.mp hrefs
  have hsame := hwithin.unique hsite hsite' rfl
  refine ⟨entry, hindex, ?_⟩
  rw [Site.call.injEq] at hsame
  rw [hsame.1, ← himported.decl]
  rfl

theorem treeAt_of_sections (hs : ReadsSections m ms bs h s) {low high : Nat}
    (hwithin : Site.Within low high (Assembly.codeOf m ms bs).sites) {tree anim : Bytes}
    {addr : UInt32} (hsite : Site.animation tree anim addr ∈ (Assembly.codeOf m ms bs).sites)
    (htree : tree ∈ ms.trees) :
    ∃ entry, (treeIndex s.animTrees)[addr]? = some entry ∧ entry.name = tree := by
  have hlisted : ∃ entry ∈ s.animTrees, addr ∈ entry.anims.map Animation.ref := by
    refine ⟨_, by rw [hs.trees]; exact List.mem_map_of_mem htree, ?_⟩
    rw [Assembly.treeRead, Assembly.refs_animations]
    exact Assembly.mem_animationsOf.mpr ⟨anim, hsite⟩
  obtain ⟨entry, hentry, hrefs, hindex⟩ := exists_indexed hlisted {}
  rw [hs.trees] at hentry
  obtain ⟨tree', -, htree'⟩ := List.mem_map.mp hentry
  rw [← htree', Assembly.treeRead, Assembly.refs_animations] at hrefs
  obtain ⟨anim', hsite'⟩ := Assembly.mem_animationsOf.mp hrefs
  have hsame := hwithin.unique hsite hsite' rfl
  refine ⟨entry, ?_, ?_⟩
  · simp only [List.foldl_map] at hindex
    exact hindex
  · rw [Site.animation.injEq] at hsame
    rw [← htree', hsame.1]
    rfl

theorem linked_of_sections (hfile : FileOf flags m ms bs r file)
    (hs : ReadsSections m ms bs h s) {low high : Nat}
    (hwithin : Site.Within low high (Assembly.codeOf m ms bs).sites) :
    (s.tables .builtIn).Linked (ms.pool m) (Assembly.codeOf m ms bs).sites := by
  have hcollects := (Mentions.ofModule_eq_ok_iff.mp hfile.mentions).2
  refine ⟨rfl, hs.strings, ?_, ?_⟩
  · intro c addr dev hsite
    obtain ⟨found, hfound, hc⟩ := hfile.lays.mentioned hcollects hsite
    refine importAt_of_sections hs hwithin hsite ?_
    exact List.mem_eraseDups.mpr (List.mem_filterMap.mpr ⟨found, hfound, hc⟩)
  · intro tree anim addr hsite
    obtain ⟨found, hfound, htree⟩ := hfile.lays.mentioned hcollects hsite
    refine treeAt_of_sections hs hwithin hsite ?_
    exact List.mem_eraseDups.mpr (List.mem_filterMap.mpr ⟨found, hfound, htree⟩)

end Disassembly

/-- A module in the canonical form that decoding its assembled file gives it. -/
structure Module.ReadsBackAs (m : Module) (ms : Mentions) (d : Module) : Prop where
  name : d.name = m.name
  includes : d.includes = Disassembly.presentList m.includeList
  imports : d.imports = Disassembly.presentList (ms.imports m)
  whole : d.functions = some (d.functionList.map some)
  functions : m.functionList.Forall₂ Function.ReadsBackAs d.functionList

namespace FileOf

variable {flags : UInt8} {m : Module} {ms : Mentions} {bs : List Code.Body} {r : Assembly.Rows}
  {file : Bytes} (hfile : FileOf flags m ms bs r file) (hnul : ∀ s ∈ ms.strings m, 0 ∉ s)

include hfile hnul

theorem exists_object :
    ∃ s gs, ScriptCodec.disassemble .builtIn file.toArray = .ok (Disassembly.Sections.object s gs) ∧
      Disassembly.ReadsSections m ms bs (r.header flags m ms (Assembly.codeOf m ms bs)) s ∧
      m.functionList.Forall₂ Function.ReadsBackAs gs := by
  have hparts := hfile.holdsParts
  obtain ⟨s, hsections, hs⟩ := Disassembly.sections_of_parts hfile hparts hnul
  generalize hh : r.header flags m ms (Assembly.codeOf m ms bs) = h at *
  have hstart : h.codeOffset = Assembly.codeOffset (ms.pool m) m.includeList := by
    rw [← hh]
    rfl
  have hfit := (h.codeOffset + h.codeSize).toNat_lt
  have hcode := hparts.code
  rw [hparts.code_stop, hstart] at hfit
  rw [hstart] at hcode
  have hwithin : Site.Within _ _ (Assembly.codeOf m ms bs).sites :=
    hfile.lays.within_sites (by omega)
  obtain ⟨gs, hgs, hback⟩ := Disassembly.functions_of_lays
    (Disassembly.linked_of_sections hfile hs hwithin) hfile.lays (fun _ h => h) hcode (by omega)
  refine ⟨s, gs, ?_, hs, hback⟩
  simp only [ScriptCodec.disassemble, Except.andThen_eq_ok_iff, Except.pure_eq_ok_iff]
  refine ⟨s, hsections, gs, ?_, rfl⟩
  rw [hs.exports]
  exact hgs

theorem disassemble :
    ∃ obj, ScriptCodec.disassemble .builtIn file.toArray = .ok obj ∧ obj.header.flags = flags ∧
      m.ReadsBackAs ms obj.body := by
  obtain ⟨s, gs, hobj, hs, hback⟩ := hfile.exists_object hnul
  have hlist : (s.object gs).body.functionList = gs := Module.functionList_eq rfl
  refine ⟨s.object gs, hobj, ?_, ?_⟩
  · change s.header.flags = flags
    rw [hs.header]
    rfl
  · refine ⟨?_, ?_, ?_, by rw [hlist]; rfl, by rw [hlist]; exact hback⟩
    · change s.strings.lookupAnim s.header.name.toUInt32 = m.name
      have hname := hfile.writes.name
      have hkey : s.header.name = r.name := by
        rw [hs.header]
        rfl
      rw [hkey]
      unfold Assembly.nameKey at hname
      split at hname
      · rename_i hempty
        rw [← Except.ok.inj hname, List.isEmpty_iff.mp hempty, StringTable.lookupAnim,
          hs.strings.front _ (by decide), Option.getD_none]
      · rw [Assembling.ofPool_eq_ok_iff] at hname
        exact hs.strings.lookupAnim (StringPool.offset?_of_key16 hname)
    · exact congrArg Disassembly.presentList hs.includes
    · change Disassembly.presentList (s.imports.map Disassembly.declOf) = _
      have hdecls : (ms.imports m).Forall₂ Eq (s.imports.map Disassembly.declOf) := by
        rw [List.forall₂_map_right_iff]
        exact hs.imports.imp fun d entry hentry => hentry.decl.symm
      rw [List.forall₂_eq_eq_eq] at hdecls
      rw [hdecls]

end FileOf
end ScriptCodec

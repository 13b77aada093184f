import ScriptCodec.Proofs.Listing.Drafts

/-!
What the labels of a listing mean. However the labels of a body are ordered, repeated or placed
before or after the branches to them, a branch leads to the instruction that follows the line of
its label.
-/
namespace ScriptCodec

namespace Function

variable {fn : Function}

theorem IsReadFrom.offset_mem {es : List Listing.Entry} {kept : Bytes → Bytes}
    (h : fn.IsReadFrom es kept) {e : UInt32 × Bytes} (he : e ∈ fn.labelMap) :
    e.1 ∈ fn.boundaryOffsets := by
  obtain ⟨bound, hlabels, hbound⟩ := h.labels
  obtain ⟨front, back, -, hoffset⟩ := (hbound _ _).mp (hlabels.known he)
  exact List.mem_of_getElem? hoffset

theorem IsReadFrom.bindsLabels {es : List Listing.Entry} {kept : Bytes → Bytes}
    (h : fn.IsReadFrom es kept) : fn.BindsLabels := by
  obtain ⟨bound, hlabels, -⟩ := h.labels
  exact ⟨hlabels.nodup, fun e he => exists_boundaryAt? (h.offset_mem he)⟩

/-- A branch to a label leads to the instruction after the line of the label, or to the end. -/
structure KeepsLabels (fn : Function) (es : List Listing.Entry) : Prop where
  meaning : ∃ kept, (Listing.instructions es).Forall₂ (Instruction.IsReadFrom kept) fn.code ∧
    ∀ front name back, es = front ++ .label name :: back → ∃ offset,
      fn.boundaryOffsets[(Listing.instructions front).length]? = some offset ∧
      fn.labelMap.nameAt? offset = some (kept name)
  names : (fn.labelMap.map Prod.snd).Nodup
  offsets : ∀ e ∈ fn.labelMap, e.1 ∈ fn.boundaryOffsets
  resolves : ∀ addrs stop, addrs.length = fn.code.length →
    ∃ resolved, fn.resolveLabels addrs stop = .ok resolved

theorem IsReadFrom.length_boundaryOffsets {es : List Listing.Entry} {kept : Bytes → Bytes}
    (h : fn.IsReadFrom es kept) :
    fn.boundaryOffsets.length = (Listing.instructions es).length + 1 := by
  rw [boundaryOffsets, List.length_append, List.length_map, List.length_singleton,
    h.code.length_eq]

theorem IsReadFrom.keepsLabels {es : List Listing.Entry} {kept : Bytes → Bytes}
    (h : fn.IsReadFrom es kept) : fn.KeepsLabels es := by
  obtain ⟨bound, hlabels, hbound⟩ := h.labels
  refine ⟨⟨kept, h.code, ?_⟩, hlabels.nodup, fun e he => h.offset_mem he, ?_⟩
  · intro front name back hsplit
    have hlt : (Listing.instructions front).length < fn.boundaryOffsets.length := by
      rw [h.length_boundaryOffsets, hsplit, Listing.instructions_append, List.length_append]
      omega
    have hoffset := List.getElem?_eq_getElem hlt
    have hmem := hlabels.named ((hbound name _).mpr ⟨front, back, hsplit, hoffset⟩)
    exact ⟨_, hoffset, (Labels.nameAt?_eq_some_iff hlabels.ascends).mpr hmem⟩
  · intro addrs stop hlength
    exact h.bindsLabels.exists_resolveLabels hlength stop

end Function

namespace Listing

/-- In every function of a listing the labels mean the instructions they stand before. -/
theorem keepsLabels_of_parse {source : Bytes} {m : Module} (h : parse .builtIn source = .ok m) :
    (outline (lines source)).closed.Forall₂ (fun body fn => fn.KeepsLabels (entries body))
      m.functionList := by
  refine (isReadFrom_of_parse h).imp ?_
  rintro body fn ⟨kept, hfn⟩
  exact hfn.keepsLabels

def aliasListing : Bytes :=
  text "sub_run 0 0\n\tJMP later\nfirst:\nlater:\nloc_0\nfirst:\n\tJMP loc_0\nend_run\n"

theorem keepsLabels_of_parse_aliasListing :
    ∃ m, parse .builtIn aliasListing = .ok m ∧ m.functionList.length = 1 ∧
      (outline (lines aliasListing)).closed.Forall₂ (fun body fn => fn.KeepsLabels (entries body))
        m.functionList := by
  obtain ⟨m, hm, hone⟩ : ∃ m, parse .builtIn aliasListing = .ok m ∧
      decide (m.functionList.length = 1) = true := Except.exists_of_any (by decide +kernel)
  exact ⟨m, hm, of_decide_eq_true hone, keepsLabels_of_parse hm⟩

end Listing
end ScriptCodec

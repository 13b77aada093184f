import Mathlib.Data.List.Chain
import ScriptCodec.Proofs.Object.Sizes

/-!
Where exports lie once their sizes are derived. The check against overlap adds the gap to an
offset as 32-bit words, so what it keeps clear of the next export is the gap's end as a word. Up
to the last offset whose gap still ends below `2^32` this is the gap's end itself, and exports
follow each other in the order of the table; past it the check lets a next export through that
starts near zero.
-/
namespace ScriptCodec.ExportSizes

variable {img : Image} {codeEnd : UInt32} {e next : Export}

theorem trim_le {limit : Nat} {size trimmed : UInt32}
    (h : trim img e limit size = .ok trimmed) : trimmed.toNat ≤ size.toNat := by
  fun_induction trim img e limit size with
  | case1 size => rw [← Except.ok.inj h]
  | case2 limit => rw [← Except.ok.inj h]
  | case3 => exact absurd h Decoding.fail_ne_ok
  | case4 limit size => rw [← Except.ok.inj h]
  | case5 limit size hne _ _ _ _ ih =>
    have hpos : (1 : UInt32) ≤ size := by
      rw [UInt32.le_iff_toNat_le]
      exact Nat.one_le_iff_ne_zero.mpr fun hzero => hne (UInt32.toNat_inj.mp hzero)
    have hpred := UInt32.toNat_sub_of_le size 1 hpos
    have hle := ih h
    omega

/-- One export ends, and the gap after it, before another starts. -/
def Precede (e next : Export) : Prop := e.offset.toNat + e.size.toNat + 4 ≤ next.offset.toNat

theorem Precede.trans {a b c : Export} (h : Precede a b) (h' : Precede b c) : Precede a c := by
  rw [Precede] at *
  omega

instance : Trans Precede Precede Precede := ⟨Precede.trans⟩

def GapFits (e : Export) : Prop := e.offset.toNat + 4 < 2 ^ 32

/-- The size of an export fits between the end of its gap, which may have wrapped, and the next
export. -/
def Clears (e next : Export) : Prop := (e.offset + gap).toNat + e.size.toNat ≤ next.offset.toNat

theorem Clears.precede_iff (h : Clears e next) : Precede e next ↔ GapFits e := by
  have hnext := next.offset.toNat_lt
  constructor
  · intro hprecede
    rw [Precede] at hprecede
    rw [GapFits]
    omega
  · intro hfits
    have hsum : (e.offset + gap).toNat = e.offset.toNat + 4 := Code.toNat_add_ofNat hfits
    rw [Clears, hsum] at h
    rw [Precede]
    omega

theorem clears_of_sizeBefore {size : UInt32} (h : sizeBefore img e next = .ok size) :
    Clears { e with size } next := by
  unfold sizeBefore at h
  split at h
  · exact absurd h Decoding.fail_ne_ok
  · rename_i hle
    have hle := UInt32.not_lt.mp hle
    have hwhole : next.offset - e.offset - gap = next.offset - (e.offset + gap) := by grind
    have htrim := trim_le h
    rw [hwhole, UInt32.toNat_sub_of_le _ _ hle] at htrim
    have hnext := UInt32.le_iff_toNat_le.mp hle
    change (e.offset + gap).toNat + size.toNat ≤ next.offset.toNat
    omega

theorem end_of_lastSize {size : UInt32} (h : lastSize e codeEnd = .ok size) :
    e.offset.toNat + size.toNat = codeEnd.toNat := by
  unfold lastSize at h
  split at h
  · exact absurd h Decoding.fail_ne_ok
  · rename_i hle
    have hle := UInt32.not_lt.mp hle
    rw [← Except.ok.inj h, UInt32.toNat_sub_of_le _ _ hle]
    have hend := UInt32.le_iff_toNat_le.mp hle
    omega

theorem deriveLoop_eq_ok {done entries sized : List Export}
    (h : deriveLoop img codeEnd done entries = .ok sized) :
    ∃ rest, sized = done.reverse ++ rest ∧ rest.map unsized = entries.map unsized ∧
      rest.IsChain Clears ∧
      ∀ last, rest.getLast? = some last → last.offset.toNat + last.size.toNat = codeEnd.toNat := by
  fun_induction deriveLoop img codeEnd done entries with
  | case1 done =>
    rw [← Except.ok.inj h]
    exact ⟨[], (List.append_nil _).symm, rfl, .nil, nofun⟩
  | case2 done e =>
    simp only [Except.map_eq_ok_iff] at h
    obtain ⟨size, hsize, rfl⟩ := h
    refine ⟨[{ e with size }], List.reverse_cons, rfl, .singleton _, ?_⟩
    intro last hlast
    rw [← Option.some_inj.mp hlast]
    exact end_of_lastSize hsize
  | case3 done e next rest ih =>
    simp only [Except.bind_eq_ok_iff] at h
    obtain ⟨size, hsize, h⟩ := h
    obtain ⟨found, hsized, hunsized, hchain, hlast⟩ := ih size h
    rw [List.reverse_cons, List.append_assoc, List.singleton_append] at hsized
    cases found with
    | nil => cases hunsized
    | cons first found =>
      have hfirst : (unsized first).offset = (unsized next).offset :=
        congrArg Export.offset (List.cons.inj hunsized).1
      change first.offset = next.offset at hfirst
      have hclears := clears_of_sizeBefore hsize
      rw [Clears, ← hfirst] at hclears
      refine ⟨{ e with size } :: first :: found, hsized, ?_, .cons_cons hclears hchain, ?_⟩
      · exact congrArg (unsized e :: ·) hunsized
      · intro last h
        rw [List.getLast?_cons_cons] at h
        exact hlast last h

theorem isChain_precede_iff {sized : List Export} (h : sized.IsChain Clears) :
    sized.IsChain Precede ↔ ∀ e ∈ sized.dropLast, GapFits e := by
  induction h with
  | nil => simp
  | singleton e => simp
  | cons_cons hclears _ ih =>
    rw [List.isChain_cons_cons, List.dropLast_cons_cons, List.forall_mem_cons, ih,
      hclears.precede_iff]

theorem deriveLoop_precede {done entries sized : List Export}
    (h : deriveLoop img codeEnd done entries = .ok sized)
    (hoffset : ∀ e ∈ sized, e.offset.toNat + 4 < 2 ^ 32) :
    ∃ rest, sized = done.reverse ++ rest ∧ rest.map Export.offset = entries.map Export.offset ∧
      rest.IsChain Precede := by
  obtain ⟨rest, hsized, hunsized, hchain, -⟩ := deriveLoop_eq_ok h
  refine ⟨rest, hsized, ?_, (isChain_precede_iff hchain).mpr ?_⟩
  · have hoffsets := congrArg (List.map Export.offset) hunsized
    rw [List.map_map, List.map_map] at hoffsets
    exact hoffsets
  · intro e he
    refine hoffset e ?_
    rw [hsized]
    exact List.mem_append_right _ (List.mem_of_mem_dropLast he)

/-- Exports with derived sizes end where the code does and keep clear of each other in table
order, as far as the gaps after them fit below `2^32`, and no further. -/
theorem derive_precede_iff {exports sized : List Export}
    (h : derive img exports codeEnd = .ok sized) :
    sized.map unsized = exports.map unsized ∧
      (∀ last, sized.getLast? = some last →
        last.offset.toNat + last.size.toNat = codeEnd.toNat) ∧
      sized.IsChain (fun e next => Precede e next ↔ GapFits e) ∧
      (sized.Pairwise Precede ↔ ∀ e ∈ sized.dropLast, GapFits e) := by
  obtain ⟨rest, hsized, hunsized, hchain, hlast⟩ := deriveLoop_eq_ok h
  rw [List.reverse_nil, List.nil_append] at hsized
  subst hsized
  refine ⟨hunsized, hlast, hchain.imp fun _ _ hclears => hclears.precede_iff, ?_⟩
  rw [← List.isChain_iff_pairwise, isChain_precede_iff hchain]

/-- The gap after the second export ends at 2, where the third one starts. -/
def wrappingExports : List Export :=
  [⟨0, 0xFFFFFFFA, text "a", 0, 0, 0⟩, ⟨0, 0xFFFFFFFE, text "b", 0, 0, 0⟩,
    ⟨0, 2, text "c", 0, 0, 0⟩]

theorem derive_precede_iff_wrapping :
    ∃ sized, derive #[] wrappingExports 7 = .ok sized ∧ sized.map Export.size = [0, 0, 5] ∧
      sized.IsChain (fun e next => Precede e next ↔ GapFits e) ∧ ¬ sized.Pairwise Precede := by
  have hrun : derive #[] wrappingExports 7 = .ok
      [⟨0, 0xFFFFFFFA, text "a", 0, 0, 0⟩, ⟨0, 0xFFFFFFFE, text "b", 0, 0, 0⟩,
        ⟨0, 2, text "c", 0, 0, 5⟩] := by decide
  obtain ⟨-, -, hchain, hpairwise⟩ := derive_precede_iff hrun
  refine ⟨_, hrun, rfl, hchain, ?_⟩
  rw [hpairwise]
  intro hfits
  have hsecond : GapFits ⟨0, 0xFFFFFFFE, text "b", 0, 0, 0⟩ :=
    hfits _ (List.mem_cons_of_mem _ List.mem_cons_self)
  exact absurd hsecond (by unfold GapFits; decide)

/-- An export at the top of the range is let through before one near zero. -/
theorem not_precede_of_derive :
    ∃ e next, derive #[] [⟨0, 0xFFFFFFFE, text "a", 0, 0, 0⟩, ⟨0, 2, text "b", 0, 0, 0⟩] 2 =
        .ok [e, next] ∧
      ¬ e.offset.toNat + e.size.toNat + 4 ≤ next.offset.toNat :=
  ⟨⟨0, 0xFFFFFFFE, text "a", 0, 0, 0⟩, ⟨0, 2, text "b", 0, 0, 0⟩, by decide, by decide⟩

end ScriptCodec.ExportSizes

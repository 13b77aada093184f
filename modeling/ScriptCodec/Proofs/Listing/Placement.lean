import ScriptCodec.Proofs.Listing.Reading
import ScriptCodec.Proofs.Object.Consistency
import ScriptCodec.Proofs.Object.Relabelling

/-!
The layout a reader gives to functions that assemble. The end of an instruction grows with its
start, so code that is laid out from a lower address stays below the layout of the assembled
file, which fits in 32 bits. Hence the addresses of the new layout ascend, and every label stands
for the boundary it stood for.
-/
namespace ScriptCodec

namespace OperandKind

theorem afterAligned_mono {n width a b : Nat} (hn : n = 2 ∨ n = 4) (h : a ≤ b) :
    afterAligned n width a ≤ afterAligned n width b := by
  unfold afterAligned Word.padding
  rcases hn with rfl | rfl
  · omega
  · omega

theorem localsStop_mono (count : Nat) {a b : Nat} (h : a ≤ b) :
    (List.range count).foldl (fun pos _ => afterAligned 2 2 pos) a ≤
      (List.range count).foldl (fun pos _ => afterAligned 2 2 pos) b := by
  induction count with
  | zero => exact h
  | succ count ih =>
    rw [List.range_succ, List.foldl_append, List.foldl_append]
    exact afterAligned_mono (Or.inl rfl) ih

theorem stop_mono (kind : OperandKind) (count : Nat) {a b : Nat} (h : a ≤ b) :
    kind.stop count a ≤ kind.stop count b := by
  cases kind with
  | none => exact h
  | byte => exact Nat.succ_le_succ h
  | short | string | field | jump => exact afterAligned_mono (Or.inl rfl) h
  | integer | float | animation | hash | function | longJump | vector =>
    exact afterAligned_mono (Or.inr rfl) h
  | call => exact afterAligned_mono (Or.inr rfl) (Nat.succ_le_succ h)
  | locals => exact localsStop_mono count (Nat.succ_le_succ h)
  | cases => exact Nat.add_le_add_right (afterAligned_mono (Or.inr rfl) h) _

theorem le_afterAligned (n width pos : Nat) : pos ≤ afterAligned n width pos := by
  unfold afterAligned
  omega

theorem le_localsStop (count pos : Nat) :
    pos ≤ (List.range count).foldl (fun pos _ => afterAligned 2 2 pos) pos := by
  induction count with
  | zero => exact Nat.le_refl pos
  | succ count ih =>
    rw [List.range_succ, List.foldl_append]
    exact ih.trans (le_afterAligned 2 2 _)

theorem le_stop (kind : OperandKind) (count pos : Nat) : pos ≤ kind.stop count pos := by
  cases kind with
  | none => exact Nat.le_refl pos
  | byte => exact Nat.le_succ pos
  | short | string | field | jump | integer | float | animation | hash | function | longJump
  | vector => exact le_afterAligned _ _ pos
  | call => exact (Nat.le_succ pos).trans (le_afterAligned _ _ _)
  | locals => exact (Nat.le_succ pos).trans (le_localsStop count _)
  | cases => exact (le_afterAligned 4 4 pos).trans (Nat.le_add_right _ _)

end OperandKind

namespace Code

variable {ctx : Context} {lay : Layout}

theorem Encodes.stop_eq {dev : Bool} {x : Placed} {e : Emitted} (h : Encodes ctx lay dev x e)
    (hsize : instructionSize x.inst.opcode x.addr x.inst.args = .ok x.size) :
    ∃ kind, x.inst.opcode.kind? = some kind ∧ ¬ (kind = .cases ∧ x.inst.args.length % 2 ≠ 0) ∧
      x.addr.toNat + e.bytes.length = kind.stop x.inst.args.length (x.addr.toNat + 1) := by
  obtain ⟨kind, v, operand, hkind, hread, hemits, rfl, -⟩ := h
  rw [instructionSize_eq hkind] at hsize
  split at hsize
  · cases hsize
  · rename_i hpairs
    refine ⟨kind, hkind, hpairs, ?_⟩
    have hlength := hemits.length_eq hread fun hcases => by
      by_contra hodd
      exact hpairs ⟨hcases, hodd⟩
    rw [List.length_cons]
    omega

/-- Code that is emitted from one address on can be laid out from any lower one, and ends lower. -/
theorem EncodesAll.exists_lower {start stop low : UInt32} {code : List Instruction}
    {xs : List Placed} (hplaces : Layout.Places start code xs stop) {ends : List UInt32}
    {es : List Emitted} (h : EncodesAll ctx lay ends xs es)
    (hfit : start.toNat + (es.map Emitted.bytes).flatten.length < 2 ^ 32)
    (hlow : low.toNat ≤ start.toNat) :
    ∃ ys last, Layout.Places low code ys last ∧
      last.toNat ≤ start.toNat + (es.map Emitted.bytes).flatten.length ∧
      (ys.map Placed.addr ++ [last]).Pairwise (· < ·) ∧
      ∀ a ∈ ys.map Placed.addr ++ [last], low.toNat ≤ a.toNat := by
  induction hplaces generalizing low ends es with
  | nil start =>
    cases h
    exact ⟨[], low, .nil _, hlow, List.pairwise_singleton _ _, by simp⟩
  | @cons inst code start size stop xs hsize _ ih =>
    obtain _ | @⟨_, _, _, e, es, hhead, htail⟩ := h
    simp only [List.map_cons, List.flatten_cons, List.length_append] at hfit ⊢
    have hnext : (start + size).toNat = start.toNat + e.bytes.length :=
      hhead.toNat_next (show start.toNat + e.bytes.length < 2 ^ 32 by omega)
    obtain ⟨kind, hkind, hpairs, hstop⟩ := hhead.stop_eq hsize
    simp only at hkind hpairs hstop
    have hmono := kind.stop_mono inst.args.length (Nat.add_le_add_right hlow 1)
    have hle := kind.le_stop inst.args.length (low.toNat + 1)
    generalize hend : kind.stop inst.args.length (low.toNat + 1) = last at hmono hle
    have hsize' :
        instructionSize inst.opcode low inst.args = .ok (UInt32.ofNat (last - low.toNat)) := by
      rw [instructionSize_eq hkind, if_neg hpairs, hend]
    have hlast : (low + UInt32.ofNat (last - low.toNat)).toNat = last := by
      rw [toNat_add_ofNat (by omega)]
      omega
    have hlow' : low.toNat ≤ (low + UInt32.ofNat (last - low.toNat)).toNat := by omega
    obtain ⟨ys, stop', hys, hstop', hascend, hfrom⟩ := ih htail (by omega)
      (show (low + UInt32.ofNat (last - low.toNat)).toNat ≤ (start + size).toNat by omega)
    refine ⟨_, stop', .cons hsize' hys, by omega, ?_, ?_⟩
    · refine List.pairwise_cons.mpr ⟨?_, hascend⟩
      intro a ha
      have hle' := hfrom a ha
      rw [hlast] at hle'
      exact UInt32.lt_iff_toNat_lt.mpr (show low.toNat < a.toNat by omega)
    · refine List.forall_mem_cons.mpr ⟨Nat.le_refl _, ?_⟩
      intro a ha
      exact hlow'.trans (hfrom a ha)

theorem Lays.exists_relaid {codeOffset low : UInt32} {before : Nat} {fns : List Function}
    {bs : List Body} (h : Lays ctx codeOffset before fns bs)
    (hfit : codeOffset.toNat + before + (joined bs).length < 2 ^ 32)
    (hlow : low.toNat ≤ codeOffset.toNat + before) :
    ∃ gs stop, Listing.Relaid low fns gs stop := by
  induction h generalizing low with
  | nil => exact ⟨[], low, .nil _⟩
  | @cons before fn fns b bs hhead htail ih =>
    rw [length_joined_cons] at hfit
    obtain ⟨lay, es, hlay, hes, rfl⟩ := hhead
    simp only at hfit ih
    have hstart : (codeOffset + UInt32.ofNat before).toNat = codeOffset.toNat + before :=
      toNat_add_ofNat (by omega)
    obtain ⟨ys, next, hys, hnext, hascend, -⟩ := hes.exists_lower
      (Layout.ofFunction_eq_ok_iff.mp hlay).1 (by omega) (show low.toNat ≤ _ by omega)
    by_cases hempty : bs.isEmpty = true
    · obtain rfl := List.isEmpty_iff.mp hempty
      cases htail
      exact ⟨_, next, .cons hys hascend (.nil _)⟩
    · rw [if_neg hempty] at hfit
      simp only [List.length_append] at ih
      obtain ⟨gs, stop, hrest⟩ := @ih next (by omega) (by omega)
      exact ⟨_, stop, .cons hys hascend hrest⟩

end Code

namespace Labels

theorem nameAt?_eq_some_iff {labels : Labels} (h : labels.Ascends) {offset : UInt32}
    {name : Bytes} :
    labels.nameAt? offset = some name ↔ (offset, name) ∈ labels := by
  have hnodup : (labels.map Prod.fst).Nodup := by
    rw [List.nodup_iff_pairwise_ne, List.pairwise_map]
    exact h.imp UInt32.ne_of_lt
  constructor
  · exact mem_of_nameAt?
  · intro hmem
    have hfind := find?_eq_some_of_nodup hnodup hmem
    rw [nameAt?, hfind, Option.map_some]

theorem mem_moved {labels : Labels} {places : List (UInt32 × UInt32)} {addr : UInt32}
    {name : Bytes} :
    (addr, name) ∈ labels.moved places ↔
      ∃ offset, (offset, addr) ∈ places ∧ labels.nameAt? offset = some name := by
  simp [moved]

end Labels

theorem mem_zip_iff {α β : Type} {xs : List α} {ys : List β} {a : α} {b : β} :
    (a, b) ∈ xs.zip ys ↔ ∃ k : Nat, xs[k]? = some a ∧ ys[k]? = some b := by
  simp [List.mem_iff_getElem?, List.getElem?_zip_eq_some]

namespace Function

variable {fn : Function} {start stop : UInt32} {placed : List Placed}

theorem instructions_relaid :
    (fn.relaid start placed stop).instructions.getD [] = placed.map fun x => some x.relaid := by
  cases placed with
  | nil => rfl
  | cons x placed => rfl

theorem code_relaid : (fn.relaid start placed stop).code = placed.map Placed.relaid := by
  rw [code, instructions_relaid, List.filterMap_map]
  exact congrFun List.filterMap_eq_map placed

section

variable (hplaces : Layout.Places start fn.code placed stop)

include hplaces

theorem boundaryOffsets_relaid :
    (fn.relaid start placed stop).boundaryOffsets = placed.map Placed.addr ++ [stop] := by
  have hstop : (fn.relaid start placed stop).stop = stop := by
    rw [hplaces.stop_eq, Function.stop, code_relaid, List.getLast?_map]
    cases placed.getLast? with
    | none => rfl
    | some x => rfl
  rw [boundaryOffsets, code_relaid, hstop, List.map_map]
  rfl

variable (hfn : fn.IsListed) (hascend : (placed.map Placed.addr ++ [stop]).Pairwise (· < ·))

include hfn hascend

theorem bindsLabels_relaid : (fn.relaid start placed stop).BindsLabels := by
  have hoffsets := boundaryOffsets_relaid hplaces
  constructor
  · have hseparate := separate_relaid hfn hplaces hascend
    rw [List.nodup_iff_pairwise_ne, List.pairwise_map]
    exact hseparate.imp And.right
  · intro e he
    obtain ⟨offset, hzip, -⟩ := Labels.mem_moved.mp he
    obtain ⟨k, -, hk⟩ := mem_zip_iff.mp hzip
    refine ⟨k, (boundaryAt?_eq_some_iff (by rwa [hoffsets])).mpr ?_⟩
    rw [hoffsets, hk]

theorem boundary?_relaid (name : Bytes) :
    (fn.relaid start placed stop).boundary? name = fn.boundary? name := by
  have hoffsets := boundaryOffsets_relaid hplaces
  have hlength := length_boundaryOffsets hplaces
  have hascend' : (fn.relaid start placed stop).boundaryOffsets.Pairwise (· < ·) := by
    rwa [hoffsets]
  ext k
  rw [boundary?_eq_some_iff hascend' (bindsLabels_relaid hplaces hfn hascend).1,
    boundary?_eq_some_iff hfn.ascends hfn.names, hoffsets]
  constructor
  · intro h
    obtain ⟨addr, hmem, hk⟩ := h
    obtain ⟨offset, hzip, hname⟩ := Labels.mem_moved.mp hmem
    obtain ⟨j, hj, haddr⟩ := mem_zip_iff.mp hzip
    -- The addresses ascend, so the boundary the label was printed before is the one it has now.
    have hnodup : (placed.map Placed.addr ++ [stop]).Nodup := hascend.imp UInt32.ne_of_lt
    have hlt := (List.getElem?_eq_some_iff.mp haddr).1
    obtain rfl : j = k := (List.getElem?_inj hlt hnodup).mp (haddr.trans hk.symm)
    exact ⟨offset, Labels.mem_of_nameAt? hname, hj⟩
  · intro h
    obtain ⟨offset, hmem, hk⟩ := h
    have hlt := (List.getElem?_eq_some_iff.mp hk).1
    rw [hlength] at hlt
    refine ⟨_, Labels.mem_moved.mpr ⟨offset, mem_zip_iff.mpr ⟨k, hk, List.getElem?_eq_getElem hlt⟩,
      (Labels.nameAt?_eq_some_iff hfn.labels).mpr hmem⟩, List.getElem?_eq_getElem hlt⟩

theorem relabels_relaid (hwhole : fn.IsWhole) : fn.Relabels (fn.relaid start placed stop) := by
  refine ⟨rfl, rfl, rfl, ?_⟩
  rw [hwhole, instructions_relaid, ← hplaces.map_inst, List.map_map, List.forall₂_map_left_iff,
    List.forall₂_map_right_iff, List.forall₂_same]
  intro x _
  refine .some ⟨rfl, fun _ => rfl, fun _ => ?_⟩
  exact List.map_congr_left fun name _ => boundary?_relaid hplaces hfn hascend name

end
end Function
end ScriptCodec

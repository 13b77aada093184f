import ScriptCodec.Proofs.Outcome

/-!
Bytes at a place of an image. `Holds img pos bs` says that the bytes `bs` stand in the image from
`pos` on. What was written one after the other is held piece by piece, and each read returns what
was written at its place.
-/
namespace ScriptCodec

namespace Word

theorem toBytes_ofBytes (bs : Bytes) : toBytes bs.length (ofBytes bs) = bs := by
  induction bs with
  | nil => rfl
  | cons b rest ih =>
    have hlow : UInt8.ofNat (b.toNat + 256 * ofBytes rest) = b := by
      apply UInt8.toNat_inj.mp
      have := b.toNat_lt
      simp only [UInt8.toNat_ofNat']
      omega
    have hhigh : (b.toNat + 256 * ofBytes rest) / 256 = ofBytes rest := by
      have := b.toNat_lt
      omega
    simp only [List.length_cons, toBytes, ofBytes, hlow, hhigh, ih]

theorem ofBytes_lt (bs : Bytes) : ofBytes bs < modulus bs.length := by
  have h := ofBytes_toBytes bs.length (ofBytes bs)
  rw [toBytes_ofBytes] at h
  rw [h]
  exact Nat.mod_lt _ (Nat.pow_pos (by decide))

@[simp] theorem length_u16 (v : UInt16) : (u16 v).length = 2 := length_toBytes 2 _
@[simp] theorem length_u32 (v : UInt32) : (u32 v).length = 4 := length_toBytes 4 _
@[simp] theorem length_u64 (v : UInt64) : (u64 v).length = 8 := length_toBytes 8 _
@[simp] theorem length_intBytes (width : Nat) (n : Int) : (intBytes width n).length = width :=
  length_toBytes width _

theorem padding_lt {n : Nat} (hn : 0 < n) (pos : Nat) : padding n pos < n := Nat.mod_lt _ hn

theorem add_padding_mod_four (pos : Nat) : (pos + padding 4 pos) % 4 = 0 := by
  rw [padding]
  omega

end Word

namespace Image

/-- The bytes `bs` stand in the image from `pos` on. -/
def Holds (img : Image) (pos : Nat) (bs : Bytes) : Prop :=
  ∃ before after, img.toList = before ++ bs ++ after ∧ before.length = pos

variable {img : Image} {pos : Nat}

theorem holds_toArray (before bs after : Bytes) :
    Holds (before ++ bs ++ after).toArray before.length bs :=
  ⟨before, after, by simp, rfl⟩

theorem Holds.stop_le {bs : Bytes} (h : Holds img pos bs) : pos + bs.length ≤ img.size := by
  obtain ⟨before, after, himg, rfl⟩ := h
  have hlen := congrArg List.length himg
  simp only [Array.length_toList, List.length_append] at hlen
  omega

theorem holds_append {a b : Bytes} :
    Holds img pos (a ++ b) ↔ Holds img pos a ∧ Holds img (pos + a.length) b := by
  constructor
  · rintro ⟨before, after, himg, rfl⟩
    refine ⟨⟨before, b ++ after, ?_, rfl⟩, ⟨before ++ a, after, ?_, by simp⟩⟩
    · simpa using himg
    · simpa using himg
  · rintro ⟨⟨before, after, himg, rfl⟩, ⟨before', after', himg', hlen⟩⟩
    have heq : before ++ a ++ after = before' ++ (b ++ after') := by
      rw [← himg, himg', List.append_assoc]
    have hparts := List.append_inj heq (by simpa using hlen.symm)
    refine ⟨before, after', ?_, rfl⟩
    rw [himg, hparts.2]
    simp

theorem holds_cons {b : UInt8} {bs : Bytes} :
    Holds img pos (b :: bs) ↔ Holds img pos [b] ∧ Holds img (pos + 1) bs :=
  holds_append (a := [b])

theorem Holds.front {a b : Bytes} (h : Holds img pos b) (hab : a <+: b) : Holds img pos a := by
  obtain ⟨rest, rfl⟩ := hab
  exact (holds_append.mp h).1

theorem Holds.slice {bs : Bytes} (h : Holds img pos bs) : img.slice pos bs.length = .ok bs := by
  have hle := h.stop_le
  obtain ⟨before, after, himg, rfl⟩ := h
  have hbytes : (img.extract before.length (before.length + bs.length)).toList = bs := by
    rw [Array.toList_extract, himg]
    simp
  simp only [Image.slice, if_pos hle, hbytes]

theorem Holds.word {bs : Bytes} (h : Holds img pos bs) :
    img.word bs.length pos = .ok (Word.ofBytes bs) := by
  simp only [Image.word, h.slice, Except.map]

theorem Holds.toBytes {width n : Nat} (h : Holds img pos (Word.toBytes width n)) :
    img.word width pos = .ok (n % Word.modulus width) := by
  have hw := h.word
  rwa [Word.length_toBytes, Word.ofBytes_toBytes] at hw

theorem Holds.u8 {v : UInt8} (h : Holds img pos [v]) : img.u8 pos = .ok v := by
  have hw := h.word
  simp only [List.length_singleton, Word.ofBytes] at hw
  simp [Image.u8, hw, Except.map]

theorem Holds.u16 {v : UInt16} (h : Holds img pos (Word.u16 v)) : img.u16 pos = .ok v := by
  have hw : img.word 2 pos = _ := Holds.toBytes h
  have hv : v.toNat % Word.modulus 2 = v.toNat := Nat.mod_eq_of_lt v.toNat_lt
  simp [Image.u16, hw, hv, Except.map]

theorem Holds.u32 {v : UInt32} (h : Holds img pos (Word.u32 v)) : img.u32 pos = .ok v := by
  have hw : img.word 4 pos = _ := Holds.toBytes h
  have hv : v.toNat % Word.modulus 4 = v.toNat := Nat.mod_eq_of_lt v.toNat_lt
  simp [Image.u32, hw, hv, Except.map]

theorem Holds.u64 {v : UInt64} (h : Holds img pos (Word.u64 v)) : img.u64 pos = .ok v := by
  have hw : img.word 8 pos = _ := Holds.toBytes h
  have hv : v.toNat % Word.modulus 8 = v.toNat := Nat.mod_eq_of_lt v.toNat_lt
  simp [Image.u64, hw, hv, Except.map]

theorem Holds.seek {bs : Bytes} (h : Holds img pos bs) : img.seek pos = .ok pos := by
  have hle := h.stop_le
  simp only [Image.seek, if_pos (show pos ≤ img.size by omega)]

theorem Holds.getElem? {b : UInt8} {bs : Bytes} (h : Holds img pos (b :: bs)) :
    img[pos]? = some b := by
  obtain ⟨before, after, himg, rfl⟩ := h
  rw [← Array.getElem?_toList, himg]
  simp

theorem findZero_of_holds {s : Bytes} (h : Holds img pos (s ++ [0])) (hs : 0 ∉ s) :
    findZero img pos = some (pos + s.length) := by
  induction s generalizing pos with
  | nil =>
    have hlt := h.stop_le
    have hzero := h.getElem?
    simp only [List.nil_append, List.length_singleton] at hlt
    rw [Array.getElem?_eq_getElem (by omega), Option.some_inj] at hzero
    rw [findZero, dif_pos (by omega), if_pos hzero]
    rfl
  | cons b s ih =>
    have hlt := h.stop_le
    have hb := h.getElem?
    simp only [List.cons_append, List.length_cons] at hlt
    rw [Array.getElem?_eq_getElem (by omega), Option.some_inj] at hb
    have hrest := (holds_cons.mp h).2
    have hne : b ≠ 0 := by
      rintro rfl
      exact hs List.mem_cons_self
    rw [findZero, dif_pos (by omega), if_neg (hb ▸ hne), ih hrest fun h0 => hs (List.mem_cons_of_mem b h0)]
    simp only [List.length_cons, Option.some.injEq]
    omega

theorem Holds.cstring {s : Bytes} (h : Holds img pos (s ++ [0])) (hs : 0 ∉ s) :
    img.cstring pos = .ok (s, pos + s.length + 1) := by
  have hle := h.stop_le
  have hslice := (holds_append.mp h).1.slice
  have hfit := (holds_append.mp h).1.stop_le
  simp only [Image.slice, if_pos hfit, Except.ok.injEq] at hslice
  simp only [Image.cstring, if_neg (show ¬ img.size < pos by omega), findZero_of_holds h hs, hslice]

theorem ne_zero_of_findZero {stop i : Nat} (h : findZero img pos = some stop) (hlow : pos ≤ i)
    (hhigh : i < stop) : img[i]? ≠ some 0 := by
  fun_induction findZero img pos with
  | case1 pos _ hzero =>
    have := Option.some_inj.mp h
    omega
  | case2 pos hlt hne ih =>
    by_cases hi : pos = i
    · rw [← hi, Array.getElem?_eq_getElem hlt]
      simpa using hne
    · exact ih h (by omega)
  | case3 => cases h

theorem zero_not_mem_of_cstring {s : Bytes} {next : Nat} (h : img.cstring pos = .ok (s, next)) :
    0 ∉ s := by
  unfold Image.cstring at h
  split at h
  · cases h
  · split at h
    · rename_i stop hstop
      obtain ⟨rfl, -⟩ := Prod.mk.inj (Except.ok.inj h)
      intro hmem
      obtain ⟨i, hi, hget⟩ := List.getElem_of_mem hmem
      rw [Array.length_toList, Array.size_extract] at hi
      have hzero := ne_zero_of_findZero hstop (Nat.le_add_right pos i) (by omega)
      apply hzero
      rw [Array.getElem?_eq_getElem (by omega), ← hget]
      simp
    · cases h

theorem lt_size_of_findZero {stop : Nat} (h : findZero img pos = some stop) :
    stop < img.size := by
  fun_induction findZero img pos with
  | case1 pos hlt => rwa [← Option.some_inj.mp h]
  | case2 pos hlt hne ih => exact ih h
  | case3 => cases h

theorem next_le_of_cstring {next : Nat} {s : Bytes}
    (h : img.cstring pos = .ok (s, next)) : next ≤ img.size := by
  unfold Image.cstring at h
  split at h
  · cases h
  · split at h
    · rename_i stop hstop
      obtain ⟨-, rfl⟩ := Prod.mk.inj (Except.ok.inj h)
      exact lt_size_of_findZero hstop
    · cases h

end Image
end ScriptCodec

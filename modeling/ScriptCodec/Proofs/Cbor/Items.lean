import Mathlib.Algebra.Group.Nat.Defs
import Mathlib.Data.List.Forall2
import ScriptCodec.Cbor.Module

/-!
Items read back from their bytes. `Reads left s item` says that the bytes `s` are read as `item`
whatever follows them, with `left` levels of nesting allowed. Heads are read at every size they
take; arrays and maps are read when their parts are, one level further out.
-/
namespace ScriptCodec.Cbor

theorem takeExactly_append (s rest : Bytes) :
    takeExactly s.length (s ++ rest) = some (s, rest) := by
  simp [takeExactly]

/-! Heads -/

theorem toNat_headByte {major info : Nat} (hmajor : major < 8) (hinfo : info < 32) :
    (UInt8.ofNat (major * 32 + info)).toNat = major * 32 + info := by
  rw [UInt8.toNat_ofNat']
  omega

theorem majorOf_headByte {major info : Nat} (hmajor : major < 8) (hinfo : info < 32) :
    majorOf (UInt8.ofNat (major * 32 + info)) = major := by
  rw [majorOf, toNat_headByte hmajor hinfo]
  omega

/-- A head is one byte, or a byte that says how many digits follow. -/
theorem head_cases (major : Nat) {n : Nat} (hn : n < 2 ^ 64) :
    (n < 24 ∧ head major n = [UInt8.ofNat (major * 32 + n)]) ∨
      ∃ info width, 24 ≤ info ∧ info < 28 ∧ argumentWidth info = some width ∧
        n < Word.modulus width ∧
        head major n = UInt8.ofNat (major * 32 + info) :: (Word.toBytes width n).reverse := by
  unfold head
  split
  · exact .inl ⟨by assumption, rfl⟩
  · right
    split
    · exact ⟨24, 1, by decide, by decide, rfl, by assumption, rfl⟩
    split
    · exact ⟨25, 2, by decide, by decide, rfl, by assumption, rfl⟩
    split
    · exact ⟨26, 4, by decide, by decide, rfl, by assumption, rfl⟩
    · exact ⟨27, 8, by decide, by decide, rfl, hn, rfl⟩

theorem head?_head {major n : Nat} (hmajor : major < 8) (hn : n < 2 ^ 64) (rest : Bytes) :
    (head major n ++ rest).head?.map majorOf = some major := by
  rcases head_cases major hn with ⟨hsmall, h⟩ | ⟨info, width, -, hinfo, -, -, h⟩
  · rw [h, List.cons_append, List.head?_cons, Option.map_some,
      majorOf_headByte hmajor (by omega)]
  · rw [h, List.cons_append, List.head?_cons, Option.map_some,
      majorOf_headByte hmajor (by omega)]

theorem readHead_head {major : Nat} (hmajor : major < 8) {n : Nat} (hn : n < 2 ^ 64)
    (rest : Bytes) :
    ∃ info, readHead (head major n ++ rest) = some (⟨major, .value info n⟩, rest) := by
  rcases head_cases major hn with ⟨hsmall, h⟩ | ⟨info, width, hlow, hhigh, hwidth, hfit, h⟩
  · have hinfo : (UInt8.ofNat (major * 32 + n)).toNat % 32 = n := by
      rw [toNat_headByte hmajor (by omega)]
      omega
    refine ⟨n, ?_⟩
    rw [h, List.cons_append, List.nil_append, readHead]
    simp only [hinfo, if_pos hsmall, majorOf_headByte hmajor (show n < 32 by omega)]
  · have hinfo : (UInt8.ofNat (major * 32 + info)).toNat % 32 = info := by
      rw [toNat_headByte hmajor (by omega)]
      omega
    have hdigits := takeExactly_append (Word.toBytes width n).reverse rest
    rw [List.length_reverse, Word.length_toBytes] at hdigits
    have hvalue : Word.ofBytes (Word.toBytes width n) = n := by
      rw [Word.ofBytes_toBytes, Nat.mod_eq_of_lt hfit]
    refine ⟨info, ?_⟩
    rw [h, List.cons_append, readHead]
    simp only [hinfo, if_neg (show ¬ info < 24 by omega), if_neg (show info ≠ 31 by omega),
      hwidth, hdigits, List.reverse_reverse, hvalue,
      majorOf_headByte hmajor (show info < 32 by omega)]

theorem readTags_head {major n : Nat} (hmajor : major < 8) (huntagged : major ≠ 6)
    (hn : n < 2 ^ 64) (left : Nat) (rest : Bytes) :
    readTags left (head major n ++ rest) = some ([], head major n ++ rest) := by
  rw [readTags, head?_head hmajor hn, if_neg (by simpa using huntagged)]

/-! Items -/

/-- The bytes are read as one item, whatever follows them. -/
def Reads (left : Nat) (s : Bytes) (item : Item) : Prop :=
  ∀ rest, readItem left (s ++ rest) = some (item, rest)

theorem reads_uint (left : Nat) {n : Nat} (hn : n < 2 ^ 64) :
    Reads left (encodeNat n) (.uint n) := by
  intro rest
  obtain ⟨info, hhead⟩ := readHead_head (show 0 < 8 by decide) hn rest
  rw [readItem, encodeNat, readTags_head (by decide) (by decide) hn]
  simp only [hhead, Option.map_some, List.foldr_nil]

theorem reads_text (left : Nat) {s : Bytes} (hs : s.length < 2 ^ 64) :
    Reads left (encodeText s) (.text [s]) := by
  intro rest
  obtain ⟨info, hhead⟩ := readHead_head (show 3 < 8 by decide) hs (s ++ rest)
  rw [readItem, encodeText, List.append_assoc, readTags_head (by decide) (by decide) hs]
  simp only [hhead, readString, takeExactly_append, Option.map_some, List.foldr_nil]

theorem reads_null (left : Nat) : Reads left null (.simple 22) := by
  intro rest
  have hhead : readHead (null ++ rest) = some (⟨7, .value 22 22⟩, rest) := rfl
  have htags : readTags left (null ++ rest) = some ([], null ++ rest) := rfl
  rw [readItem, htags]
  simp only [hhead]
  rfl

section Sequences

variable {α β : Type} {encode : α → Bytes}

theorem readTimes_of_forall₂ {read : Bytes → Option (β × Bytes)} {xs : List α} {ys : List β}
    (h : xs.Forall₂ (fun x y => ∀ rest, read (encode x ++ rest) = some (y, rest)) ys)
    (done : List β) (rest : Bytes) :
    readTimes read done xs.length (xs.flatMap encode ++ rest) =
      some (done.reverse ++ ys, rest) := by
  induction h generalizing done with
  | nil => simp [readTimes]
  | @cons x y xs ys hread _ ih =>
    rw [List.length_cons, readTimes, List.flatMap_cons, List.append_assoc, hread]
    simp only [ih, List.reverse_cons, List.append_assoc, List.singleton_append]

theorem readElements_of_forall₂ {read : Bytes → Option (β × Bytes)} {xs : List α} {ys : List β}
    (h : xs.Forall₂ (fun x y => ∀ rest, read (encode x ++ rest) = some (y, rest)) ys)
    (hlength : xs.length ≤ maxLength) (info : Nat) (rest : Bytes) :
    readElements read (.value info xs.length) (xs.flatMap encode ++ rest) = some (ys, rest) := by
  rw [readElements, if_pos hlength, readTimes_of_forall₂ h]
  rfl

theorem lt_of_le_maxLength {n : Nat} (h : n ≤ maxLength) : n < 2 ^ 64 :=
  Nat.lt_of_le_of_lt h (by decide)

theorem reads_array {left : Nat} {xs : List α} {items : List Item}
    (h : xs.Forall₂ (fun x item => Reads left (encode x) item) items)
    (hlength : xs.length ≤ maxLength) :
    Reads (left + 1) (encodeList encode xs) (.array items) := by
  intro rest
  have hn := lt_of_le_maxLength hlength
  obtain ⟨info, hhead⟩ :=
    readHead_head (show 4 < 8 by decide) hn (xs.flatMap encode ++ rest)
  have helements := readElements_of_forall₂ h hlength info rest
  rw [readItem, encodeList, List.append_assoc, readTags_head (by decide) (by decide) hn]
  simp only [hhead, List.length_nil, Nat.zero_sub, Nat.sub_zero, Nat.add_one_ne_zero, if_false,
    Nat.add_one_sub_one, helements, Option.map_some, List.foldr_nil]

theorem readPair_of_reads {left : Nat} {a b : Bytes} {key value : Item} (ha : Reads left a key)
    (hb : Reads left b value) (rest : Bytes) :
    readPair (readItem left) (a ++ b ++ rest) = some ((key, value), rest) := by
  rw [readPair, List.append_assoc, ha]
  simp only [hb rest, Option.map_some]

theorem reads_map {left : Nat} {xs : List α} {entries : List (Item × Item)}
    (h : xs.Forall₂ (fun x e => ∃ a b, encode x = a ++ b ∧ Reads left a e.1 ∧ Reads left b e.2)
      entries)
    (hlength : xs.length ≤ maxLength) :
    Reads (left + 1) (head 5 xs.length ++ xs.flatMap encode) (.map entries) := by
  intro rest
  have hn := lt_of_le_maxLength hlength
  obtain ⟨info, hhead⟩ :=
    readHead_head (show 5 < 8 by decide) hn (xs.flatMap encode ++ rest)
  have hpairs : xs.Forall₂
      (fun x e => ∀ rest, readPair (readItem left) (encode x ++ rest) = some (e, rest))
        entries := by
    refine h.imp ?_
    rintro x e ⟨a, b, hx, ha, hb⟩ rest
    rw [hx, readPair_of_reads ha hb]
  have helements := readElements_of_forall₂ hpairs hlength info rest
  rw [readItem, List.append_assoc, readTags_head (by decide) (by decide) hn]
  simp only [hhead, List.length_nil, Nat.zero_sub, Nat.sub_zero, Nat.add_one_ne_zero, if_false,
    Nat.add_one_sub_one, helements, Option.map_some, List.foldr_nil]

end Sequences

theorem decode_of_reads {s : Bytes} {item : Item} (h : Reads maxNesting s item) :
    decode s = some item := by
  have hread := h []
  rw [List.append_nil] at hread
  rw [decode, hread]

end ScriptCodec.Cbor

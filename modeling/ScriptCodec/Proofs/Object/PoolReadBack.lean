import Mathlib.Data.List.TakeWhile
import ScriptCodec.Proofs.Object.Pool

/-!
The string pool is read back by scanning for terminators. A string comes back up to its first zero
byte, under the offset it was given when it was added, and distinct strings have distinct offsets.
The table has entries of other strings as soon as one of the pooled strings has a zero byte, and
only then.
-/
namespace ScriptCodec

namespace StringPool

theorem readAs_eq_takeWhile (s : Bytes) : readAs s = s.takeWhile (· != 0) := by
  induction s with
  | nil => rfl
  | cons b s ih =>
    rw [readAs, Text.splitOn, List.splitOnP_cons_eq_if_modifyHead]
    by_cases hb : b = 0
    · simp [hb]
    · cases hpieces : List.splitOnP (· == 0) s with
      | nil => exact absurd hpieces (List.splitOnP_ne_nil _ _)
      | cons piece pieces =>
        rw [readAs, Text.splitOn, hpieces, List.headD_cons] at ih
        simp [hb, ih]

theorem readAs_eq_self_iff {s : Bytes} : readAs s = s ↔ 0 ∉ s := by
  constructor
  · intro h hzero
    rw [← h, readAs_eq_takeWhile] at hzero
    exact absurd (List.mem_takeWhile_imp hzero) (by decide)
  · exact readAs_of_not_mem

theorem nodup_foldl_add {ss : List Bytes} {p : StringPool} (h : p.strings.Nodup) :
    (ss.foldl add p).strings.Nodup := by
  induction ss generalizing p with
  | nil => exact h
  | cons s ss ih =>
    apply ih
    unfold add
    split
    · exact h
    · rename_i hfresh
      have hnew : s ∉ p.strings := by simpa using hfresh
      exact (List.nodup_cons.mpr ⟨hnew, h⟩).perm (List.perm_append_singleton _ _).symm

theorem offsetFrom_of_not_mem {s : Bytes} {before : List Bytes} (h : s ∉ before) (rest : List Bytes)
    (offset : UInt32) :
    offsetFrom s offset (before ++ s :: rest) = some (before.foldl after offset) := by
  induction before generalizing offset with
  | nil => exact if_pos rfl
  | cons t before ih =>
    rw [List.mem_cons, not_or] at h
    rw [List.cons_append, offsetFrom, if_neg (Ne.symm h.1), ih h.2]
    rfl

/-- Every string takes up room, so no two of them start at one place. -/
theorem offsetFrom_inj {ss : List Bytes} {s t : Bytes} {offset key : UInt32}
    (hs : offsetFrom s offset ss = some key) (ht : offsetFrom t offset ss = some key)
    (hfit : offset.toNat + (terminated ss).length < 2 ^ 32) : s = t := by
  induction ss generalizing offset with
  | nil => cases hs
  | cons u ss ih =>
    rw [terminated_cons, List.length_append, List.length_append, List.length_singleton] at hfit
    have hafter : (after offset u).toNat = offset.toNat + u.length + 1 := toNat_after (by omega)
    have hlater {v : Bytes} (hv : offsetFrom v (after offset u) ss = some key) : key ≠ offset := by
      intro heq
      obtain ⟨_, _, -, hkey⟩ := offsetFrom_eq_some hv (by omega)
      rw [heq] at hkey
      omega
    rw [offsetFrom] at hs ht
    by_cases hus : u = s
    · by_cases hut : u = t
      · exact hus.symm.trans hut
      · rw [if_pos hus] at hs
        rw [if_neg hut] at ht
        exact absurd (Option.some_inj.mp hs).symm (hlater ht)
    · rw [if_neg hus] at hs
      by_cases hut : u = t
      · rw [if_pos hut] at ht
        exact absurd (Option.some_inj.mp ht).symm (hlater hs)
      · rw [if_neg hut] at ht
        exact ih hs ht (by omega)

end StringPool

namespace Tables

open StringPool

/-- Scanning strings without zero bytes records nothing but these strings. -/
theorem mem_of_stringsFrom {img : Image} {ss : List Bytes} (hnul : ∀ s ∈ ss, 0 ∉ s) {pos : Nat}
    (h : img.Holds pos (terminated ss)) {table table' : StringTable}
    (hrun : stringsFrom img (pos + (terminated ss).length) pos table = .ok table') {key : UInt32}
    {v : Bytes} (hv : table'[key]? = some v) :
    table[key]? = some v ∨ ∃ before after, ss = before ++ v :: after ∧
      key = UInt32.ofNat (pos + (terminated before).length) := by
  induction ss generalizing pos table with
  | nil =>
    rw [stringsFrom, if_neg (by simp [terminated])] at hrun
    rw [Except.ok.inj hrun]
    exact .inl hv
  | cons s ss ih =>
    rw [terminated_cons] at h hrun
    obtain ⟨hhead, htail⟩ := Image.holds_append.mp h
    rw [List.length_append, List.length_singleton] at htail
    have hread := hhead.cstring (hnul s List.mem_cons_self)
    have hstop : pos + (s ++ [0] ++ terminated ss).length =
        pos + (s.length + 1) + (terminated ss).length := by
      simp only [List.length_append, List.length_singleton]
      omega
    rw [hstop, stringsFrom_of_cstring (by omega) hread] at hrun
    rcases ih (fun t ht => hnul t (List.mem_cons_of_mem s ht)) htail hrun with
      hold | ⟨before, after, hss, hkey⟩
    · by_cases hpos : UInt32.ofNat pos = key
      · rw [hpos, getElem?_insert_self] at hold
        rw [Option.some_inj.mp hold]
        exact .inr ⟨[], ss, rfl, hpos.symm⟩
      · rw [getElem?_insert_of_ne _ hpos] at hold
        exact .inl hold
    · refine .inr ⟨s :: before, after, by rw [hss]; rfl, ?_⟩
      rw [hkey, terminated_cons, List.length_append, List.length_append, List.length_singleton]
      congr 1
      omega

end Tables

namespace StringPool

variable {ss : List Bytes}

def ofStrings (ss : List Bytes) : StringPool := ss.foldl add empty

theorem mem_ofStrings {s : Bytes} : s ∈ (ofStrings ss).strings ↔ s ∈ ss := by
  rw [ofStrings, mem_foldl_add]
  simp [empty]

theorem nodup_ofStrings (ss : List Bytes) : (ofStrings ss).strings.Nodup :=
  nodup_foldl_add List.nodup_nil

theorem key32_inj (hfit : Header.length + (ofStrings ss).bytes.length < 2 ^ 32) {s t : Bytes}
    (hs : s ∈ ss) (h : (ofStrings ss).key32 s = (ofStrings ss).key32 t) : s = t := by
  obtain ⟨key, hkey⟩ := exists_offset (mem_ofStrings.mpr hs)
  have ht : (ofStrings ss).key32 t = .ok key := h.symm.trans (key32_eq_ok_iff.mpr hkey)
  exact offsetFrom_inj hkey (key32_eq_ok_iff.mp ht) hfit

/-- In a pool whose strings have no zero byte, what is read anywhere is a pooled string. -/
theorem key32_of_mem_table (hfit : Header.length + (ofStrings ss).bytes.length < 2 ^ 32)
    (hnul : ∀ s ∈ ss, 0 ∉ s) {img : Image} (h : img.Holds Header.length (ofStrings ss).bytes)
    {table : StringTable} (hrun : Tables.stringsFrom img
      (Header.length + (ofStrings ss).bytes.length) Header.length {} = .ok table)
    {key : UInt32} {v : Bytes} (hv : table[key]? = some v) : (ofStrings ss).key32 v = .ok key := by
  have hplain : ∀ s ∈ (ofStrings ss).strings, 0 ∉ s := fun s hs => hnul s (mem_ofStrings.mp hs)
  rcases Tables.mem_of_stringsFrom hplain h hrun hv with hnone | ⟨before, rest, hsplit, hkey⟩
  · rw [Std.TreeMap.getElem?_emptyc] at hnone
    cases hnone
  · have hnodup := nodup_ofStrings ss
    have hlength : (terminated before).length ≤ (ofStrings ss).bytes.length := by
      change _ ≤ (terminated (ofStrings ss).strings).length
      rw [hsplit, terminated_append, List.length_append]
      omega
    rw [hsplit, List.nodup_append] at hnodup
    have hfresh : v ∉ before := fun hmem => hnodup.2.2 v hmem v List.mem_cons_self rfl
    rw [key32_eq_ok_iff, offset?, hsplit, offsetFrom_of_not_mem hfresh, Option.some_inj]
    apply UInt32.toNat_inj.mp
    rw [hkey, toNat_ofNat_of_lt (by omega)]
    exact toNat_foldl_after (show Header.length + _ < _ by omega)

/-- A table scanned from the bytes of a pool has every added string, up to its first zero byte,
under a key of its own. These are all its entries if and only if no added string has a zero byte. -/
theorem strings_ofStrings (ss : List Bytes)
    (hfit : Header.length + (ofStrings ss).bytes.length < 2 ^ 32) (before rest : Bytes)
    (hbefore : before.length = Header.length) (hdr : Header)
    (hhdr : hdr.includeOffset = (ofStrings ss).stop) :
    ∃ table, Tables.strings (before ++ (ofStrings ss).bytes ++ rest).toArray hdr = .ok table ∧
      (∀ s ∈ ss, ∃ key, (ofStrings ss).key32 s = .ok key ∧
        table.lookup key = .ok (s.takeWhile (· != 0))) ∧
      (∀ s ∈ ss, ∀ t ∈ ss, (ofStrings ss).key32 s = (ofStrings ss).key32 t → s = t) ∧
      ((∀ (key : UInt32) v, table[key]? = some v → v ∈ ss ∧ (ofStrings ss).key32 v = .ok key) ↔
        ∀ s ∈ ss, 0 ∉ s) := by
  have hheld := Image.holds_toArray before (ofStrings ss).bytes rest
  rw [hbefore] at hheld
  obtain ⟨table, hrun, hshown, -⟩ := Tables.exists_strings_shown hheld hfit
  refine ⟨table, ?_, ?_, ?_, ?_⟩
  · rw [Tables.strings, hhdr, toNat_stop hfit, hrun]
    rfl
  · intro s hs
    obtain ⟨key, hkey⟩ := exists_offset (mem_ofStrings.mpr hs)
    refine ⟨key, key32_eq_ok_iff.mpr hkey, ?_⟩
    rw [hshown.lookup hkey, readAs_eq_takeWhile]
  · intro s hs t _ h
    exact key32_inj hfit hs h
  · constructor
    · -- What stands under the key of a string is its front part, so this must be the string.
      intro hentries s hs
      obtain ⟨key, hkey⟩ := exists_offset (mem_ofStrings.mpr hs)
      obtain ⟨hmem, hfront⟩ := hentries key (readAs s) (hshown s key hkey)
      rw [← readAs_eq_self_iff]
      exact key32_inj hfit hmem (hfront.trans (key32_eq_ok_iff.mpr hkey).symm)
    · intro hnul key v hv
      have hkey := key32_of_mem_table hfit hnul hheld hrun hv
      obtain ⟨_, _, hsplit, -⟩ := offsetFrom_eq_some (key32_eq_ok_iff.mp hkey) hfit
      refine ⟨mem_ofStrings.mp ?_, hkey⟩
      rw [hsplit]
      exact List.mem_append_right _ List.mem_cons_self

def headerUpTo (stop : UInt32) : Header :=
  ⟨Header.magicNumber, 0, stop, 0, 0, 0, 0, 0, 0, 0, 0, 0, 0, 0, 0, 0, 0, 0, 0, 0⟩

theorem strings_ofStrings_repeated :
    ∃ table, Tables.strings (List.replicate 64 0 ++
        (ofStrings [text "run", [], text "a", text "run"]).bytes ++ [0xFF]).toArray
          (headerUpTo 0x47) = .ok table ∧
      ∀ (key : UInt32) v, table[key]? = some v →
        (ofStrings [text "run", [], text "a", text "run"]).key32 v = .ok key := by
  obtain ⟨table, hrun, -, -, hentries⟩ := strings_ofStrings
    [text "run", [], text "a", text "run"] (by decide +kernel) (List.replicate 64 0) [0xFF]
    List.length_replicate (headerUpTo 0x47) (by decide +kernel)
  exact ⟨table, hrun, fun key v hv => (hentries.mpr (by decide +kernel) key v hv).2⟩

/-- A zero byte cuts the string it stands in, and what is behind it is read as another string. -/
theorem strings_ofStrings_zero_byte :
    (ofStrings [[0x61, 0, 0x62]]).key32 [0x61, 0, 0x62] = .ok 0x40 ∧
      ∃ table, Tables.strings
          (List.replicate 64 0 ++ (ofStrings [[0x61, 0, 0x62]]).bytes).toArray
            (headerUpTo (ofStrings [[0x61, 0, 0x62]]).stop) = .ok table ∧
        table.lookup 0x40 ≠ .ok [0x61, 0, 0x62] ∧ table[(0x42 : UInt32)]? = some [0x62] := by
  refine ⟨rfl, ?_⟩
  obtain ⟨table, hrun, hentries⟩ := Except.exists_of_any
    (x := Tables.strings (List.replicate 64 0 ++ (ofStrings [[0x61, 0, 0x62]]).bytes).toArray
      (headerUpTo (ofStrings [[0x61, 0, 0x62]]).stop))
    (p := fun table => decide (table[(0x40 : UInt32)]? = some [0x61] ∧
      table[(0x42 : UInt32)]? = some [0x62])) (by decide +kernel)
  obtain ⟨hfront, hback⟩ := of_decide_eq_true hentries
  refine ⟨table, hrun, ?_, hback⟩
  rw [StringTable.lookup, hfront]
  intro h
  cases h

end StringPool

end ScriptCodec

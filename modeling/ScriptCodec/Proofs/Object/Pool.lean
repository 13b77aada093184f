import ScriptCodec.Object.Mention
import ScriptCodec.Object.Tables
import ScriptCodec.Proofs.Binary.Holds
import ScriptCodec.Proofs.Outcome

/-!
The string pool and the table read from it. A pool whose strings have no zero byte is read back
as a table that has every pooled string under its key; whatever bytes a table is read from, its
strings have no zero byte.
-/
namespace ScriptCodec

theorem toNat_ofNat_of_lt {n : Nat} (h : n < 2 ^ 32) : (UInt32.ofNat n).toNat = n := by
  rw [UInt32.toNat_ofNat', Nat.mod_eq_of_lt h]

namespace StringPool

def terminated (ss : List Bytes) : Bytes := ss.flatMap fun s => s ++ [0]

theorem terminated_cons (s : Bytes) (ss : List Bytes) :
    terminated (s :: ss) = s ++ [0] ++ terminated ss := List.flatMap_cons

theorem terminated_append (ss ts : List Bytes) :
    terminated (ss ++ ts) = terminated ss ++ terminated ts := List.flatMap_append

theorem terminated_splitOn (s : Bytes) : terminated (Text.splitOn 0 s) = s ++ [0] := by
  induction s with
  | nil => rfl
  | cons b s ih =>
    rw [Text.splitOn, List.splitOnP_cons_eq_if_modifyHead]
    split
    · rename_i hzero
      rw [beq_iff_eq] at hzero
      rw [hzero, terminated_cons]
      exact congrArg (0 :: ·) ih
    · cases hpieces : Text.splitOn 0 s with
      | nil => exact absurd hpieces (List.splitOnP_ne_nil _ _)
      | cons piece pieces =>
        rw [Text.splitOn] at hpieces
        rw [Text.splitOn, hpieces, terminated_cons] at ih
        rw [hpieces, List.modifyHead_cons, terminated_cons]
        exact congrArg (b :: ·) ih

/-- What is read where a string was pooled: its bytes up to the first zero byte. -/
def readAs (s : Bytes) : Bytes := (Text.splitOn 0 s).headD []

theorem readAs_of_not_mem {s : Bytes} (h : 0 ∉ s) : readAs s = s := by
  have hplain : ∀ b ∈ s, (b == 0) = false := by
    intro b hb
    rw [beq_eq_false_iff_ne]
    intro hzero
    exact h (hzero ▸ hb)
  rw [readAs, Text.splitOn, List.splitOnP_eq_singleton hplain]
  rfl

theorem terminated_pieces (ss : List Bytes) :
    terminated (ss.flatMap (Text.splitOn 0)) = terminated ss := by
  induction ss with
  | nil => rfl
  | cons s ss ih =>
    rw [List.flatMap_cons, terminated_append, terminated_splitOn, ih, terminated_cons]

theorem toNat_after {offset : UInt32} {s : Bytes} (h : offset.toNat + s.length + 1 < 2 ^ 32) :
    (after offset s).toNat = offset.toNat + s.length + 1 := by
  have hlength : (UInt32.ofNat s.length).toNat = s.length := toNat_ofNat_of_lt (by omega)
  have hone : (1 : UInt32).toNat = 1 := rfl
  rw [after, UInt32.toNat_add, UInt32.toNat_add, hlength, hone]
  omega

theorem toNat_foldl_after {ss : List Bytes} {offset : UInt32}
    (h : offset.toNat + (terminated ss).length < 2 ^ 32) :
    (ss.foldl after offset).toNat = offset.toNat + (terminated ss).length := by
  induction ss generalizing offset with
  | nil => rfl
  | cons s ss ih =>
    rw [terminated_cons, List.length_append, List.length_append, List.length_singleton] at h ⊢
    have hafter : (after offset s).toNat = offset.toNat + s.length + 1 := toNat_after (by omega)
    rw [List.foldl_cons, ih (by omega), hafter]
    omega

theorem toNat_stop {p : StringPool} (h : Header.length + p.bytes.length < 2 ^ 32) :
    p.stop.toNat = Header.length + p.bytes.length := toNat_foldl_after h

theorem offsetFrom_eq_some {ss : List Bytes} {s : Bytes} {offset key : UInt32}
    (h : offsetFrom s offset ss = some key)
    (hfit : offset.toNat + (terminated ss).length < 2 ^ 32) :
    ∃ front rest, ss = front ++ s :: rest ∧
      key.toNat = offset.toNat + (terminated front).length := by
  induction ss generalizing offset with
  | nil => cases h
  | cons t ss ih =>
    rw [terminated_cons, List.length_append, List.length_append, List.length_singleton] at hfit
    rw [offsetFrom] at h
    split at h
    · rename_i hts
      obtain rfl := hts
      exact ⟨[], ss, rfl, by rw [← Option.some_inj.mp h]; rfl⟩
    · have hafter : (after offset t).toNat = offset.toNat + t.length + 1 := toNat_after (by omega)
      obtain ⟨front, rest, hss, hkey⟩ := ih h (by omega)
      refine ⟨t :: front, rest, by rw [hss]; rfl, ?_⟩
      rw [hkey, hafter, terminated_cons, List.length_append, List.length_append,
        List.length_singleton]
      omega

theorem offsetFrom_isSome {ss : List Bytes} {s : Bytes} (h : s ∈ ss) (offset : UInt32) :
    (offsetFrom s offset ss).isSome = true := by
  induction ss generalizing offset with
  | nil => cases h
  | cons t ss ih =>
    rw [offsetFrom]
    split
    · rfl
    · rename_i hne
      rcases List.mem_cons.mp h with rfl | hmem
      · exact absurd rfl hne
      · exact ih hmem _

theorem exists_offset {p : StringPool} {s : Bytes} (h : s ∈ p.strings) :
    ∃ key, p.offset? s = some key := Option.isSome_iff_exists.mp (offsetFrom_isSome h start)

theorem key32_eq_ok_iff {p : StringPool} {s : Bytes} {key : UInt32} :
    p.key32 s = .ok key ↔ p.offset? s = some key := by
  unfold key32
  cases p.offset? s with
  | none => simp
  | some offset => simp

theorem offset?_of_key16 {p : StringPool} {s : Bytes} {key : UInt16} (h : p.key16 s = .ok key) :
    p.offset? s = some key.toUInt32 := by
  simp only [key16, Except.bind_eq_ok_iff, key32_eq_ok_iff] at h
  obtain ⟨offset, hoffset, h⟩ := h
  split at h
  · cases h
  · rename_i hle
    have hsmall : offset.toNat ≤ 0xFFFF := UInt32.le_iff_toNat_le.mp (UInt32.not_lt.mp hle)
    rw [hoffset, ← Except.ok.inj h, Option.some_inj]
    apply UInt32.toNat_inj.mp
    rw [UInt16.toNat_toUInt32, UInt32.toNat_toUInt16]
    omega

theorem mem_add {p : StringPool} {s t : Bytes} : t ∈ (p.add s).strings ↔ t ∈ p.strings ∨ t = s := by
  unfold add
  split
  · rename_i hmem
    have hs : s ∈ p.strings := by simpa using hmem
    constructor
    · exact Or.inl
    · intro h
      rcases h with h | rfl
      · exact h
      · exact hs
  · simp

theorem mem_foldl_add {ss : List Bytes} {p : StringPool} {t : Bytes} :
    t ∈ (ss.foldl add p).strings ↔ t ∈ p.strings ∨ t ∈ ss := by
  induction ss generalizing p with
  | nil => simp
  | cons s ss ih =>
    rw [List.foldl_cons, ih, mem_add, List.mem_cons, or_assoc]

end StringPool

theorem Mentions.mem_pool {ms : Mentions} {m : Module} {s : Bytes} :
    s ∈ (ms.pool m).strings ↔ s ∈ ms.strings m := by
  rw [Mentions.pool, StringPool.mem_foldl_add]
  simp [StringPool.empty]

namespace Tables

open StringPool

theorem getElem?_insert_self (table : StringTable) (key : UInt32) (s : Bytes) :
    (table.insert key s)[key]? = some s := Std.TreeMap.getElem?_insert_self

theorem getElem?_insert_of_ne (table : StringTable) {key key' : UInt32} (h : key ≠ key') (s : Bytes) :
    (table.insert key s)[key']? = table[key']? := by
  rw [Std.TreeMap.getElem?_insert, if_neg (by simpa using h)]

theorem stringsFrom_of_cstring {img : Image} {stop pos next : Nat} {s : Bytes} (hlt : pos < stop)
    (hread : img.cstring pos = .ok (s, next)) (table : StringTable) :
    stringsFrom img stop pos table =
      stringsFrom img stop next (table.insert (UInt32.ofNat pos) s) := by
  rw [stringsFrom, if_pos hlt]
  split
  · rename_i hfault
    rw [hread] at hfault
    cases hfault
  · rename_i hok
    rw [hread] at hok
    obtain ⟨rfl, rfl⟩ := Prod.mk.inj (Except.ok.inj hok)
    rfl

/-- Reading on from a position leaves the strings before it as they are and adds those held. -/
theorem stringsFrom_of_holds {img : Image} {ss : List Bytes} (hnul : ∀ s ∈ ss, 0 ∉ s) {pos : Nat}
    (h : img.Holds pos (terminated ss)) (hfit : pos + (terminated ss).length < 2 ^ 32)
    (table : StringTable) :
    ∃ table', stringsFrom img (pos + (terminated ss).length) pos table = .ok table' ∧
      (∀ key : UInt32, key.toNat < pos → table'[key]? = table[key]?) ∧
      ∀ front s rest, ss = front ++ s :: rest →
        table'[UInt32.ofNat (pos + (terminated front).length)]? = some s := by
  induction ss generalizing pos table with
  | nil =>
    refine ⟨table, ?_, fun _ _ => rfl, ?_⟩
    · rw [stringsFrom, if_neg (by simp [terminated])]
    · intro front s rest h
      simp at h
  | cons s ss ih =>
    rw [terminated_cons] at h hfit ⊢
    rw [List.length_append, List.length_append, List.length_singleton] at hfit ⊢
    obtain ⟨hhead, htail⟩ := Image.holds_append.mp h
    rw [List.length_append, List.length_singleton] at htail
    have hread := hhead.cstring (hnul s List.mem_cons_self)
    have hkey : (UInt32.ofNat pos).toNat = pos := toNat_ofNat_of_lt (by omega)
    obtain ⟨table', hrun, hbefore, hheld⟩ :=
      ih (fun t ht => hnul t (List.mem_cons_of_mem s ht)) htail (by omega)
        (table.insert (UInt32.ofNat pos) s)
    refine ⟨table', ?_, ?_, ?_⟩
    · rw [stringsFrom_of_cstring (by omega) hread, ← hrun]
      congr 1
      omega
    · intro key hlt
      have hne : UInt32.ofNat pos ≠ key := by
        intro heq
        rw [← heq] at hlt
        omega
      rw [hbefore key (by omega), getElem?_insert_of_ne _ hne]
    · intro front t rest hsplit
      cases front with
      | nil =>
        obtain ⟨rfl, -⟩ := List.cons.inj hsplit
        have hzero : pos + (terminated []).length = pos := rfl
        rw [hzero, hbefore _ (by omega), getElem?_insert_self]
      | cons f front =>
        obtain ⟨rfl, hss⟩ := List.cons.inj hsplit
        have hlookup := hheld front t rest hss
        rw [terminated_cons, List.length_append, List.length_append, List.length_singleton]
        rw [← hlookup]
        congr 2
        omega

end Tables

def StringTable.Shows (table : StringTable) (p : StringPool) (found : Bytes → Bytes) : Prop :=
  ∀ s key, p.offset? s = some key → table[key]? = some (found s)

/-- A table with every string of a pool under its key and nothing before the pool. -/
structure StringTable.Holds (table : StringTable) (p : StringPool) : Prop where
  pooled : ∀ s key, p.offset? s = some key → table[key]? = some s
  front : ∀ key : UInt32, key.toNat < Header.length → table[key]? = none

namespace Tables

open StringPool

-- A string with zero bytes is read as several; the first of them stands under its key.
theorem exists_strings_shown {img : Image} {p : StringPool} (h : img.Holds Header.length p.bytes)
    (hfit : Header.length + p.bytes.length < 2 ^ 32) :
    ∃ table, stringsFrom img (Header.length + p.bytes.length) Header.length {} = .ok table ∧
      table.Shows p StringPool.readAs ∧
      ∀ key : UInt32, key.toNat < Header.length → table[key]? = none := by
  have hpieces : terminated (p.strings.flatMap (Text.splitOn 0)) = p.bytes := terminated_pieces _
  have hplain : ∀ piece ∈ p.strings.flatMap (Text.splitOn 0), 0 ∉ piece := by
    intro piece hpiece
    obtain ⟨s, -, hmem⟩ := List.mem_flatMap.mp hpiece
    exact Text.not_mem_of_mem_splitOn hmem
  have hheldPieces : img.Holds Header.length (terminated (p.strings.flatMap (Text.splitOn 0))) := by
    rwa [hpieces]
  obtain ⟨table, hrun, hbefore, hheld⟩ :=
    stringsFrom_of_holds hplain hheldPieces (by rwa [hpieces]) {}
  rw [hpieces] at hrun
  refine ⟨table, hrun, ?_, ?_⟩
  · intro s key hkey
    obtain ⟨front, rest, hss, hoffset⟩ := StringPool.offsetFrom_eq_some hkey hfit
    have hkey' : UInt32.ofNat (Header.length + (terminated front).length) = key := by
      apply UInt32.toNat_inj.mp
      rw [UInt32.toNat_ofNat', hoffset]
      have hlt := key.toNat_lt
      rw [hoffset] at hlt
      exact Nat.mod_eq_of_lt hlt
    cases hsplit : Text.splitOn 0 s with
    | nil => exact absurd hsplit (List.splitOnP_ne_nil _ _)
    | cons piece pieces =>
      have hlookup := hheld (front.flatMap (Text.splitOn 0)) piece
        (pieces ++ rest.flatMap (Text.splitOn 0)) (by simp [hss, hsplit])
      rw [terminated_pieces, hkey'] at hlookup
      rw [hlookup, readAs, hsplit, List.headD_cons]
  · intro key hlt
    rw [hbefore key hlt]
    exact Std.TreeMap.getElem?_emptyc

theorem exists_strings {img : Image} {p : StringPool} (hnul : ∀ s ∈ p.strings, 0 ∉ s)
    (h : img.Holds Header.length p.bytes) (hfit : Header.length + p.bytes.length < 2 ^ 32) :
    ∃ table, stringsFrom img (Header.length + p.bytes.length) Header.length {} = .ok table ∧
      table.Holds p := by
  obtain ⟨table, hrun, hshown, hfront⟩ := exists_strings_shown h hfit
  refine ⟨table, hrun, ?_, hfront⟩
  intro s key hkey
  obtain ⟨front, rest, hss, -⟩ := StringPool.offsetFrom_eq_some hkey hfit
  have hmem : s ∈ p.strings := by
    rw [hss]
    exact List.mem_append_right _ List.mem_cons_self
  rw [hshown s key hkey, readAs_of_not_mem (hnul s hmem)]

end Tables

namespace StringTable.Shows

variable {table : StringTable} {p : StringPool} {found : Bytes → Bytes} (h : table.Shows p found)

include h

theorem lookup {s : Bytes} {key : UInt32} (hkey : p.offset? s = some key) :
    table.lookup key = .ok (found s) := by
  rw [StringTable.lookup, h s key hkey]

theorem lookup16 {s : Bytes} {key : UInt16} (hkey : p.key16 s = .ok key) :
    table.lookup key.toUInt32 = .ok (found s) := h.lookup (StringPool.offset?_of_key16 hkey)

end StringTable.Shows

namespace StringTable.Holds

variable {table : StringTable} {p : StringPool} (h : table.Holds p)

include h

theorem shows : table.Shows p id := h.pooled

theorem lookup {s : Bytes} {key : UInt32} (hkey : p.offset? s = some key) :
    table.lookup key = .ok s := h.shows.lookup hkey

theorem lookup16 {s : Bytes} {key : UInt16} (hkey : p.key16 s = .ok key) :
    table.lookup key.toUInt32 = .ok s := h.shows.lookup16 hkey

theorem lookupAnim {s : Bytes} {key : UInt32} (hkey : p.offset? s = some key) :
    table.lookupAnim key = s := by
  rw [StringTable.lookupAnim, h.pooled s key hkey, Option.getD_some]

end StringTable.Holds

namespace StringTable

def IsNulFree (table : StringTable) : Prop := ∀ (key : UInt32) s, table[key]? = some s → 0 ∉ s

theorem IsNulFree.lookup {table : StringTable} (h : table.IsNulFree) {key : UInt32} {s : Bytes}
    (hs : table.lookup key = .ok s) : 0 ∉ s := by
  unfold StringTable.lookup at hs
  split at hs
  · rename_i t ht
    rw [← Except.ok.inj hs]
    exact h key t ht
  · exact absurd hs Decoding.fail_ne_ok

theorem IsNulFree.lookupAnim {table : StringTable} (h : table.IsNulFree) (key : UInt32) :
    0 ∉ table.lookupAnim key := by
  rw [StringTable.lookupAnim]
  cases hs : table[key]? with
  | none => simp
  | some s => exact h key s hs

end StringTable

theorem Tables.isNulFree_stringsFrom {img : Image} {stop pos : Nat} {table table' : StringTable}
    (htable : table.IsNulFree) (h : Tables.stringsFrom img stop pos table = .ok table') :
    table'.IsNulFree := by
  fun_induction Tables.stringsFrom img stop pos table with
  | case1 => cases h
  | case2 pos table _ s next hread ih =>
    refine ih ?_ h
    intro key t ht
    by_cases hkey : UInt32.ofNat pos = key
    · rw [hkey, getElem?_insert_self] at ht
      rw [← Option.some_inj.mp ht]
      exact Image.zero_not_mem_of_cstring hread
    · rw [getElem?_insert_of_ne _ hkey] at ht
      exact htable key t ht
  | case3 =>
    rw [← Except.ok.inj h]
    exact htable

end ScriptCodec

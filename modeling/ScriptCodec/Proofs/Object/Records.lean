import ScriptCodec.Object.Assembly
import ScriptCodec.Object.Disassembly
import ScriptCodec.Proofs.Object.Pool

/-!
The header and the records of the tables, read back where they are held. A table is read back
when every row is; the rows of the import, animation and fixup tables also say what the sites of
the code say.
-/
namespace ScriptCodec

theorem Header.read_of_holds {img : Image} {h : Header} (hheld : img.Holds 0 h.bytes) :
    Header.read img = .ok h := by
  simp only [Header.bytes, Image.holds_append, List.length_append, Word.length_u64,
    Word.length_u32, Word.length_u16, Nat.zero_add, Nat.reduceAdd, and_assoc] at hheld
  obtain ⟨h0, h1, h2, h3, h4, h5, h6, h7, h8, h9, h10, h11, h12, h13, h14, h15, h16, hlast⟩ := hheld
  have hbytes : img.Holds 60 ([h.includeCount] ++ [h.animTreeCount] ++ [h.flags] ++ [0]) := hlast
  simp only [Image.holds_append, List.length_append, List.length_singleton, Nat.reduceAdd,
    and_assoc] at hbytes
  obtain ⟨hi, ht, hf, -⟩ := hbytes
  simp only [Header.read, h0.u64, h1.u32, h2.u32, h3.u32, h4.u32, h5.u32, h6.u32, h7.u32, h8.u32,
    h9.u32, h10.u32, h11.u16, h12.u16, h13.u16, h14.u16, h15.u16, h16.u16, hi.u8, ht.u8, hf.u8]
  rfl

namespace Tables

variable {img : Image}

theorem wordsFrom_of_holds {ws : List UInt32} {pos : Nat} (h : img.Holds pos (ws.flatMap Word.u32))
    (done : List UInt32) : wordsFrom img pos done ws.length = .ok (done.reverse ++ ws) := by
  induction ws generalizing pos done with
  | nil => simp [wordsFrom]
  | cons w ws ih =>
    rw [List.flatMap_cons, Image.holds_append, Word.length_u32] at h
    rw [List.length_cons, wordsFrom, h.1.u32, Except.bind, ih h.2]
    simp

theorem words_of_holds {ws : List UInt32} {pos : Nat} (h : img.Holds pos (ws.flatMap Word.u32)) :
    words img pos ws.length = .ok ws := by
  rw [words, wordsFrom_of_holds h, List.reverse_nil, List.nil_append]

def ReadsBack {α : Type} (img : Image) (read : Nat → Nat → Decoding (α × Nat)) (row : Bytes)
    (value : α) : Prop :=
  ∀ index pos, img.Holds pos row → read index pos = .ok (value, pos + row.length)

theorem recordsFrom_of_rows {α : Type} {read : Nat → Nat → Decoding (α × Nat)} {rows : List Bytes}
    {values : List α} (h : rows.Forall₂ (ReadsBack img read) values) {pos : Nat}
    (hheld : img.Holds pos rows.flatten) (index : Nat) (done : List α) :
    recordsFrom read index pos done rows.length = .ok (done.reverse ++ values) := by
  induction h generalizing pos index done with
  | nil => simp [recordsFrom]
  | @cons row value rows values hrow _ ih =>
    rw [List.flatten_cons, Image.holds_append] at hheld
    rw [List.length_cons, recordsFrom, hrow index pos hheld.1, Except.bind]
    simp only [ih hheld.2, List.reverse_cons, List.append_assoc, List.singleton_append]

theorem records_of_rows {α : Type} {read : Nat → Nat → Decoding (α × Nat)} {rows : List Bytes}
    {values : List α} (h : rows.Forall₂ (ReadsBack img read) values)
    (which : DecodeError.Section) {offset : UInt32} (hheld : img.Holds offset.toNat rows.flatten) :
    records img which offset read rows.length = .ok values := by
  rw [records]
  split
  · rename_i hzero
    obtain rfl := List.length_eq_zero_iff.mp hzero
    cases h
    rfl
  · rw [hheld.seek]
    change recordsFrom read 0 offset.toNat [] rows.length = _
    rw [recordsFrom_of_rows h hheld, List.reverse_nil, List.nil_append]

end Tables

namespace Word

@[simp] theorem length_flatMap_u32 (ws : List UInt32) : (ws.flatMap u32).length = 4 * ws.length := by
  induction ws with
  | nil => rfl
  | cons w ws ih =>
    rw [List.flatMap_cons, List.length_append, length_u32, ih, List.length_cons]
    omega

theorem toBytes_two {n : Nat} (h : n ≤ 0xFFFF) : toBytes 2 n = u16 (UInt16.ofNat n) := by
  rw [u16, UInt16.toNat_ofNat', Nat.mod_eq_of_lt (show n < 2 ^ 16 by omega)]

theorem toBytes_four {n : Nat} (h : n < 2 ^ 32) : toBytes 4 n = u32 (UInt32.ofNat n) := by
  rw [u32, UInt32.toNat_ofNat', Nat.mod_eq_of_lt h]

theorem toNat_ofNat16 {n : Nat} (h : n ≤ 0xFFFF) : (UInt16.ofNat n).toNat = n := by
  rw [UInt16.toNat_ofNat', Nat.mod_eq_of_lt (show n < 2 ^ 16 by omega)]

end Word

namespace Assembly

theorem length_of_mem_chunks {α : Type} {n : Nat} {xs chunk : List α} (h : chunk ∈ chunks n xs) :
    chunk.length ≤ n := by
  fun_induction chunks n xs with
  | case1 => cases h
  | case2 xs _ ih =>
    rcases List.mem_cons.mp h with rfl | h
    · rw [List.length_take]
      exact Nat.min_le_left _ _
    · exact ih h

theorem length_includeTable (pool : StringPool) (names : List Bytes) :
    (names.flatMap (includeBytes pool)).length = 4 * names.length := by
  induction names with
  | nil => rfl
  | cons name names ih =>
    rw [List.flatMap_cons, List.length_append, ih, includeBytes, Word.length_u32, List.length_cons]
    omega

def animationWords (pool : StringPool) (anims : List Animation) : List UInt32 :=
  anims.flatMap fun a => [(pool.offset? a.name).getD 0, a.ref]

theorem animationWords_cons (pool : StringPool) (a : Animation) (anims : List Animation) :
    animationWords pool (a :: anims) =
      (pool.offset? a.name).getD 0 :: a.ref :: animationWords pool anims := rfl

theorem flatMap_animationBytes (pool : StringPool) (anims : List Animation) :
    anims.flatMap (animationBytes pool) = (animationWords pool anims).flatMap Word.u32 := by
  induction anims with
  | nil => rfl
  | cons a anims ih =>
    rw [List.flatMap_cons, ih, animationWords_cons, List.flatMap_cons, List.flatMap_cons,
      animationBytes, List.append_assoc]

theorem length_animationWords (pool : StringPool) (anims : List Animation) :
    (animationWords pool anims).length = 2 * anims.length := by
  induction anims with
  | nil => rfl
  | cons a anims ih =>
    rw [animationWords_cons, List.length_cons, List.length_cons, ih, List.length_cons]
    omega

theorem refs_animationsFrom (table : StringTable) (pool : StringPool) (anims done : List Animation) :
    (Tables.animationsFrom table done (animationWords pool anims)).map Animation.ref =
      done.reverse.map Animation.ref ++ anims.map Animation.ref := by
  induction anims generalizing done with
  | nil => simp [animationWords, Tables.animationsFrom]
  | cons a anims ih =>
    rw [animationWords_cons, Tables.animationsFrom, ih]
    simp

theorem refs_animations (table : StringTable) (pool : StringPool) (anims : List Animation) :
    (Tables.animations table (animationWords pool anims)).map Animation.ref =
      anims.map Animation.ref := by
  rw [Tables.animations, refs_animationsFrom]
  rfl

/-- The kinds leave the bit of the development flag clear, so both are read back from their sum. -/
theorem flags_of_kind {kind : UInt8} (hkind : kind ∈ [0, 1, 2, 3, 4, 5]) (dev : Bool) :
    (if dev = true then kind ||| Import.devFlag else kind) &&& ~~~ Import.devFlag = kind ∧
      decide ((if dev = true then kind ||| Import.devFlag else kind) &&& Import.devFlag ≠ 0) =
        dev := by
  have hall : ∀ kind ∈ ([0, 1, 2, 3, 4, 5] : List UInt8), ∀ dev : Bool,
      (if dev = true then kind ||| Import.devFlag else kind) &&& ~~~ Import.devFlag = kind ∧
        decide ((if dev = true then kind ||| Import.devFlag else kind) &&& Import.devFlag ≠ 0) =
          dev := by decide +kernel
  exact hall kind hkind dev

variable {img : Image} {table : StringTable} {pool : StringPool} {found : Bytes → Bytes}
  (htable : table.Shows pool found)

include htable

theorem readsBack_include {name : Bytes} (hname : name ∈ pool.strings) :
    Tables.ReadsBack img (fun index pos => Decoding.within (.entry .includes index) do
      let key ← Decoding.ofRange (img.u32 pos)
      let name ← table.lookup key
      return (name, pos + 4)) (includeBytes pool name) (found name) := by
  intro index pos hheld
  obtain ⟨key, hkey⟩ := StringPool.exists_offset hname
  rw [includeBytes, hkey, Option.getD_some] at hheld ⊢
  simp only [Decoding.within_eq_ok_iff, Except.andThen_eq_ok_iff, Decoding.ofRange_eq_ok_iff,
    Except.pure_eq_ok_iff]
  exact ⟨key, hheld.u32, found name, htable.lookup hkey, by rw [Word.length_u32]⟩

theorem readsBack_export {e : Export} {row : Bytes} (hrow : exportBytes pool e = .ok row) :
    Tables.ReadsBack img (Tables.exportEntry img table) row
      { e with name := found e.name, size := 0 } := by
  simp only [exportBytes, Except.map_eq_ok_iff, Assembling.ofPool_eq_ok_iff] at hrow
  obtain ⟨key, hkey, rfl⟩ := hrow
  intro index pos hheld
  have hheld' : img.Holds pos (Word.u32 e.checksum ++ Word.u32 e.offset ++ Word.u16 key ++
      [e.params] ++ [e.flags]) := by simpa using hheld
  simp only [Image.holds_append, List.length_append, Word.length_u32, Word.length_u16,
    List.length_singleton, Nat.reduceAdd, and_assoc] at hheld'
  obtain ⟨h0, h1, h2, h3, h4⟩ := hheld'
  simp only [Tables.exportEntry, Decoding.within_eq_ok_iff, Except.andThen_eq_ok_iff,
    Decoding.ofRange_eq_ok_iff, Except.pure_eq_ok_iff]
  exact ⟨_, ⟨_, h0.u32, _, h1.u32, _, h2.u16, _, h3.u8, _, h4.u8, rfl⟩, found e.name,
    htable.lookup16 hkey, by simp⟩

theorem readsBack_import {sites : List Site} {d : ImportDecl} {row : Bytes}
    (hkind : d.kind ∈ [0, 1, 2, 3, 4, 5]) (hrow : importBytes pool sites d = .ok row) :
    ∃ entry, Tables.ReadsBack img (Tables.importEntry img table) row entry ∧
      Disassembly.declOf entry = { d with name := found d.name, space := found d.space } ∧
      entry.refs = (refsTo sites d.callee).map Prod.fst ∧
      entry.devOnly = (!(refsTo sites d.callee).isEmpty && (refsTo sites d.callee).all Prod.snd) := by
  simp only [importBytes] at hrow
  split at hrow
  · exact absurd hrow Assembling.fail_ne_ok
  rename_i hcount
  simp only [Except.andThen_eq_ok_iff, Assembling.ofPool_eq_ok_iff, Except.pure_eq_ok_iff] at hrow
  obtain ⟨nameKey, hname, spaceKey, hspace, rfl⟩ := hrow
  generalize (!(refsTo sites d.callee).isEmpty && (refsTo sites d.callee).all Prod.snd) = dev
  obtain ⟨hmask, hdev⟩ := flags_of_kind hkind dev
  generalize (if dev = true then d.kind ||| Import.devFlag else d.kind) = flags at *
  refine ⟨⟨found d.name, found d.space, d.params, flags &&& ~~~ Import.devFlag,
    flags &&& Import.devFlag ≠ 0, (refsTo sites d.callee).map Prod.fst⟩, ?_, ?_, rfl, hdev⟩
  · intro index pos hheld
    have hlength : ((refsTo sites d.callee).map Prod.fst).length ≤ 0xFFFF := by
      rw [List.length_map]
      omega
    have hrefs : (refsTo sites d.callee).flatMap (fun r => Word.u32 r.1) =
        ((refsTo sites d.callee).map Prod.fst).flatMap Word.u32 := by
      rw [List.flatMap_map]
    rw [hrefs, ← List.length_map (f := Prod.fst)] at hheld ⊢
    generalize (refsTo sites d.callee).map Prod.fst = refs at *
    rw [Word.toBytes_two hlength] at hheld ⊢
    have hheld' : img.Holds pos (Word.u16 nameKey ++ Word.u16 spaceKey ++
        Word.u16 (UInt16.ofNat refs.length) ++ [d.params] ++ [flags] ++ refs.flatMap Word.u32) := by
      simpa using hheld
    simp only [Image.holds_append, List.length_append, Word.length_u16, List.length_singleton,
      Nat.reduceAdd, and_assoc] at hheld'
    obtain ⟨h0, h1, h2, h3, h4, h5⟩ := hheld'
    have hwords := Tables.words_of_holds h5
    simp only [Tables.importEntry, Decoding.within_eq_ok_iff, Except.andThen_eq_ok_iff,
      Decoding.ofRange_eq_ok_iff, Except.pure_eq_ok_iff]
    refine ⟨_, ⟨_, h0.u16, _, h1.u16, _, h2.u16, _, h3.u8, _, h4.u8, rfl⟩, found d.name,
      htable.lookup16 hname, found d.space, htable.lookup16 hspace, refs, ?_, ?_⟩
    · rw [Word.toNat_ofNat16 hlength]
      exact hwords
    · rw [Word.toNat_ofNat16 hlength]
      simp only [List.length_append, Word.length_u16, List.length_cons, List.length_nil,
        Word.length_flatMap_u32, Prod.mk.injEq, true_and]
      omega
  · rw [Disassembly.declOf, hmask]

theorem readsBack_tree {sites : List Site} {tree row : Bytes}
    (hrow : treeBytes pool sites tree = .ok row) :
    Tables.ReadsBack img (Tables.animTree img table) row
      ⟨found tree, [], Tables.animations table (animationWords pool (animationsOf sites tree))⟩ := by
  simp only [treeBytes] at hrow
  split at hrow
  · exact absurd hrow Assembling.fail_ne_ok
  rename_i hcount
  simp only [Except.andThen_eq_ok_iff, Assembling.ofPool_eq_ok_iff, Except.pure_eq_ok_iff] at hrow
  obtain ⟨key, hkey, rfl⟩ := hrow
  generalize animationsOf sites tree = anims at *
  intro index pos hheld
  have hzero : Word.toBytes 2 0 = Word.u16 0 := rfl
  rw [flatMap_animationBytes, hzero, Word.toBytes_two (show anims.length ≤ 0xFFFF by omega)]
    at hheld ⊢
  have hlength := length_animationWords pool anims
  simp only [Image.holds_append, List.length_append, Word.length_u16, Nat.reduceAdd,
    and_assoc] at hheld
  obtain ⟨h0, h1, h2, h3, h4⟩ := hheld
  have hwords := Tables.words_of_holds h4
  simp only [Tables.animTree, Decoding.within_eq_ok_iff, Except.andThen_eq_ok_iff,
    Decoding.ofRange_eq_ok_iff, Except.pure_eq_ok_iff]
  have hcount' : (UInt16.ofNat anims.length).toNat = anims.length :=
    Word.toNat_ofNat16 (by omega)
  have hnone : (0 : UInt16).toNat = 0 := rfl
  refine ⟨_, ⟨_, h0.u16, _, h1.u16, _, h2.u16, _, h4.seek, rfl⟩, found tree,
    htable.lookup16 hkey, _,
    ⟨[], rfl, animationWords pool anims, ?_, rfl⟩, ?_⟩
  · rw [hcount', hnone, ← hlength]
    exact hwords
  · simp only [hcount', hnone, List.length_append, Word.length_u16, Word.length_flatMap_u32,
      hlength, Prod.mk.injEq, true_and]
    omega

theorem readsBack_fixup {s : Bytes} {key : UInt16} (hkey : pool.key16 s = .ok key)
    {refs : List UInt32} (hlength : refs.length ≤ 255) :
    Tables.ReadsBack img (Tables.stringFixup img table)
      (Word.u16 key ++ [UInt8.ofNat refs.length, 0] ++ refs.flatMap Word.u32) ⟨found s, refs⟩ := by
  intro index pos hheld
  have hheld' : img.Holds pos (Word.u16 key ++ [UInt8.ofNat refs.length] ++ [0] ++
      refs.flatMap Word.u32) := by simpa using hheld
  simp only [Image.holds_append, List.length_append, Word.length_u16, List.length_singleton,
    Nat.reduceAdd, and_assoc] at hheld'
  obtain ⟨h0, h1, h2, h3⟩ := hheld'
  have hwords := Tables.words_of_holds h3
  have hcount : (UInt8.ofNat refs.length).toNat = refs.length := by
    rw [UInt8.toNat_ofNat', Nat.mod_eq_of_lt (show refs.length < 2 ^ 8 by omega)]
  simp only [Tables.stringFixup, Decoding.within_eq_ok_iff, Except.andThen_eq_ok_iff,
    Decoding.ofRange_eq_ok_iff, Except.pure_eq_ok_iff]
  refine ⟨_, ⟨_, h0.u16, _, h1.u8, _, h3.seek, rfl⟩, found s, htable.lookup16 hkey, refs, ?_, ?_⟩
  · rw [hcount]
    exact hwords
  · rw [hcount]
    simp only [List.length_append, Word.length_u16, List.length_cons, List.length_nil,
      Word.length_flatMap_u32, Prod.mk.injEq, true_and]
    omega

theorem readsBack_fixups {sites : List Site} {s : Bytes} {rows : List Bytes}
    (hrows : fixupEntries pool sites s = .ok rows) :
    rows.Forall₂ (Tables.ReadsBack img (Tables.stringFixup img table))
      ((chunks maxFixupRefs (literalRefs sites s)).map (StringFixup.mk (found s))) := by
  simp only [fixupEntries, Except.map_eq_ok_iff, Assembling.ofPool_eq_ok_iff] at hrows
  obtain ⟨key, hkey, rfl⟩ := hrows
  rw [List.forall₂_map_left_iff, List.forall₂_map_right_iff, List.forall₂_same]
  intro refs hrefs
  exact readsBack_fixup htable hkey (length_of_mem_chunks hrefs)

end Assembly
end ScriptCodec

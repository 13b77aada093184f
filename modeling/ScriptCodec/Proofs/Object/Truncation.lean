import ScriptCodec.Proofs.Object.Tiling
import ScriptCodec.Proofs.Operand.Decoded

/-!
A file that was cut short. What can still be read from the front of a file is what the whole file
has there, and every record that crosses the cut ends the reading with a range fault. The tables
of an assembled file reach to its end, so at least one of them is always found cut off; the strings
they name are found whatever bytes the strings have.
-/
namespace ScriptCodec

namespace Image

def Front (part whole : Image) : Prop := part.toList <+: whole.toList

theorem holds_of_slice {img : Image} {pos count : Nat} {bs : Bytes}
    (h : img.slice pos count = .ok bs) : img.Holds pos bs ∧ bs.length = count := by
  unfold slice at h
  split at h
  · rename_i hle
    rw [← Except.ok.inj h, Array.toList_extract, List.extract_eq_take_drop, Nat.add_sub_cancel_left]
    have hlength : img.toList.length = img.size := Array.length_toList
    refine ⟨⟨img.toList.take pos, img.toList.drop (pos + count), ?_, ?_⟩, ?_⟩
    · rw [← List.take_add, List.take_append_drop]
    · rw [List.length_take]
      omega
    · rw [List.length_take, List.length_drop]
      omega
  · cases h

namespace Front

variable {part whole : Image} (h : Front part whole) {pos : Nat}

include h

theorem size_le : part.size ≤ whole.size := by
  have hle := h.length_le
  rwa [Array.length_toList, Array.length_toList] at hle

theorem holds {bs : Bytes} (hheld : part.Holds pos bs) : whole.Holds pos bs := by
  obtain ⟨rest, hrest⟩ := h
  obtain ⟨before, after, hpart, hpos⟩ := hheld
  refine ⟨before, after ++ rest, ?_, hpos⟩
  rw [← hrest, hpart, List.append_assoc _ after]

theorem holds_of_le {bs : Bytes} (hheld : whole.Holds pos bs) (hle : pos + bs.length ≤ part.size) :
    part.Holds pos bs := by
  obtain ⟨before, after, hwhole, rfl⟩ := hheld
  have hfront : before ++ bs <+: part.toList := by
    refine List.prefix_of_prefix_length_le ⟨after, hwhole.symm⟩ h ?_
    rwa [List.length_append, Array.length_toList]
  obtain ⟨rest, hrest⟩ := hfront
  exact ⟨before, rest, hrest.symm, rfl⟩

theorem slice {count : Nat} {bs : Bytes} (hs : part.slice pos count = .ok bs) :
    whole.slice pos count = .ok bs := by
  obtain ⟨hheld, rfl⟩ := holds_of_slice hs
  exact (h.holds hheld).slice

theorem word {width v : Nat} (hv : part.word width pos = .ok v) : whole.word width pos = .ok v := by
  simp only [Image.word, Except.map_eq_ok_iff] at hv ⊢
  obtain ⟨bs, hbs, rfl⟩ := hv
  exact ⟨bs, h.slice hbs, rfl⟩

theorem u8 {v : UInt8} (hv : part.u8 pos = .ok v) : whole.u8 pos = .ok v := by
  simp only [Image.u8, Except.map_eq_ok_iff] at hv ⊢
  obtain ⟨n, hn, rfl⟩ := hv
  exact ⟨n, h.word hn, rfl⟩

theorem u16 {v : UInt16} (hv : part.u16 pos = .ok v) : whole.u16 pos = .ok v := by
  simp only [Image.u16, Except.map_eq_ok_iff] at hv ⊢
  obtain ⟨n, hn, rfl⟩ := hv
  exact ⟨n, h.word hn, rfl⟩

theorem u32 {v : UInt32} (hv : part.u32 pos = .ok v) : whole.u32 pos = .ok v := by
  simp only [Image.u32, Except.map_eq_ok_iff] at hv ⊢
  obtain ⟨n, hn, rfl⟩ := hv
  exact ⟨n, h.word hn, rfl⟩

theorem seek {next : Nat} (hv : part.seek pos = .ok next) : whole.seek pos = .ok next := by
  have hle := h.size_le
  unfold Image.seek at hv ⊢
  split at hv
  · rw [if_pos (by omega)]
    exact hv
  · cases hv

theorem wordsFrom {count : Nat} {done ws : List UInt32}
    (hws : Tables.wordsFrom part pos done count = .ok ws) :
    Tables.wordsFrom whole pos done count = .ok ws := by
  induction count generalizing pos done with
  | zero => exact hws
  | succ count ih =>
    simp only [Tables.wordsFrom, Except.bind_eq_ok_iff] at hws ⊢
    obtain ⟨w, hw, hws⟩ := hws
    exact ⟨w, h.u32 hw, ih hws⟩

end Front
end Image

namespace Decoding

variable {α β : Type}

/-- The reading ran into the end of the input. -/
def IsCut (r : Decoding α) : Prop := ∃ e fault, r = .error e ∧ e.cause = .range fault

theorem IsCut.within {r : Decoding α} (h : r.IsCut) (p : DecodeError.Place) :
    (r.within p).IsCut := by
  obtain ⟨e, fault, rfl, hcause⟩ := h
  exact ⟨e.within p, fault, rfl, hcause⟩

theorem IsCut.bind {r : Decoding α} (h : r.IsCut) (f : α → Decoding β) : (r >>= f).IsCut := by
  obtain ⟨e, fault, rfl, hcause⟩ := h
  exact ⟨e, fault, rfl, hcause⟩

theorem isCut_of_ok {r : Decoding α} {a : α} (hr : r = .ok a) {f : α → Decoding β}
    (h : (f a).IsCut) : (r >>= f).IsCut := by
  rw [hr]
  exact h

/-- What `x` gives is what `y` gives, with more known about it, unless `x` runs into the end. -/
def Follows (P : α → Prop) (x y : Decoding α) : Prop :=
  ∀ a, y = .ok a → x = .ok a ∧ P a ∨ x.IsCut

namespace Follows

variable {P : α → Prop} {Q : β → Prop} {x y : Decoding α}

theorem same : Follows (fun a => x = .ok a) x x := fun _ ha => Or.inl ⟨ha, ha⟩

theorem pure {a : α} (ha : P a) : Follows P (Pure.pure a) (Pure.pure a) := by
  intro b hb
  rw [Except.pure_eq_ok_iff] at hb
  rw [← hb]
  exact Or.inl ⟨rfl, ha⟩

theorem range {r s : Except RangeFault α} (h : ∀ a, r = .ok a → s = .ok a) :
    Follows (fun a => r = .ok a) (ofRange r) (ofRange s) := by
  intro a ha
  rw [ofRange_eq_ok_iff] at ha
  cases r with
  | error fault => exact Or.inr ⟨.ofRange fault, fault, rfl, rfl⟩
  | ok b =>
    have hb := h b rfl
    rw [ha] at hb
    rw [Except.ok.inj hb]
    exact Or.inl ⟨rfl, rfl⟩

theorem within (h : Follows P x y) (p q : DecodeError.Place) :
    Follows P (x.within p) (y.within q) := by
  intro a ha
  rw [within_eq_ok_iff] at ha
  rcases h a ha with ⟨hx, hP⟩ | hcut
  · exact Or.inl ⟨within_eq_ok_iff.mpr hx, hP⟩
  · exact Or.inr (hcut.within p)

theorem bind (h : Follows P x y) {f g : α → Decoding β}
    (hf : ∀ a, P a → Follows Q (f a) (g a)) : Follows Q (x >>= f) (y >>= g) := by
  intro b hb
  rw [Except.andThen_eq_ok_iff] at hb
  obtain ⟨a, ha, hb⟩ := hb
  rcases h a ha with ⟨rfl, hP⟩ | hcut
  · exact hf a hP b hb
  · exact Or.inr (hcut.bind f)

end Follows
end Decoding

namespace Tables

variable {part whole : Image} (h : part.Front whole)

def FrontReads {α : Type} (part : Image) (readPart readWhole : Nat → Nat → Decoding (α × Nat)) :
    Prop :=
  ∀ index pos, Decoding.Follows (fun r => r.2 ≤ part.size) (readPart index pos) (readWhole index pos)

section

open Decoding (Follows)

include h

theorem frontReads_include (table : StringTable) :
    FrontReads part
      (fun index pos => Decoding.within (.entry .includes index) do
        let key ← Decoding.ofRange (part.u32 pos)
        let name ← table.lookup key
        return (name, pos + 4))
      (fun index pos => Decoding.within (.entry .includes index) do
        let key ← Decoding.ofRange (whole.u32 pos)
        let name ← table.lookup key
        return (name, pos + 4)) := by
  intro index pos
  refine Follows.within ((Follows.range fun _ => h.u32).bind fun key hkey => ?_) _ _
  exact Follows.same.bind fun name _ => Follows.pure (Image.u32_eq_ok hkey)

theorem frontReads_tree (table : StringTable) :
    FrontReads part (animTree part table) (animTree whole table) := by
  intro index pos
  refine ((Follows.range ?_).within _ _).bind fun entry hentry => ?_
  · intro entry hentry
    simp only [Except.andThen_eq_ok_iff, Except.pure_eq_ok_iff] at hentry ⊢
    obtain ⟨nameKey, h0, refs, h1, anims, h2, next, h3, rfl⟩ := hentry
    exact ⟨nameKey, h.u16 h0, refs, h.u16 h1, anims, h.u16 h2, next, h.seek h3, rfl⟩
  simp only [Except.andThen_eq_ok_iff, Except.pure_eq_ok_iff] at hentry
  obtain ⟨nameKey, -, refCount, -, animCount, -, next, hnext, rfl⟩ := hentry
  refine (Follows.same.within _ _).bind fun name _ => ?_
  refine ((Follows.range ?_).within _ _).bind fun lists hlists => ?_
  · intro lists hlists
    simp only [Except.andThen_eq_ok_iff, Except.pure_eq_ok_iff] at hlists ⊢
    obtain ⟨refs, h0, anims, h1, rfl⟩ := hlists
    exact ⟨refs, h.wordsFrom h0, anims, h.wordsFrom h1, rfl⟩
  simp only [Except.andThen_eq_ok_iff, Except.pure_eq_ok_iff] at hlists
  obtain ⟨refs, hrefs, anims, hanims, rfl⟩ := hlists
  refine Follows.pure ?_
  have hrefs' := Tables.words_eq_ok (Image.seek_eq_ok hnext).2 hrefs
  have hanims' := Tables.words_eq_ok hrefs'.2 hanims
  simp only
  omega

theorem frontReads_fixup (table : StringTable) :
    FrontReads part (stringFixup part table) (stringFixup whole table) := by
  intro index pos
  refine ((Follows.range ?_).within _ _).bind fun entry hentry => ?_
  · intro entry hentry
    simp only [Except.andThen_eq_ok_iff, Except.pure_eq_ok_iff] at hentry ⊢
    obtain ⟨nameKey, h0, refs, h1, next, h2, rfl⟩ := hentry
    exact ⟨nameKey, h.u16 h0, refs, h.u8 h1, next, h.seek h2, rfl⟩
  simp only [Except.andThen_eq_ok_iff, Except.pure_eq_ok_iff] at hentry
  obtain ⟨nameKey, -, refCount, -, next, hnext, rfl⟩ := hentry
  refine (Follows.same.within _ _).bind fun name _ => ?_
  refine ((Follows.range fun _ => h.wordsFrom).within _ _).bind fun refs hrefs => ?_
  exact Follows.pure (Tables.words_eq_ok (Image.seek_eq_ok hnext).2 hrefs).2

theorem frontReads_import (table : StringTable) :
    FrontReads part (importEntry part table) (importEntry whole table) := by
  intro index pos
  refine ((Follows.range ?_).within _ _).bind fun entry hentry => ?_
  · intro entry hentry
    simp only [Except.andThen_eq_ok_iff, Except.pure_eq_ok_iff] at hentry ⊢
    obtain ⟨nameKey, h0, spaceKey, h1, refs, h2, params, h3, flags, h4, rfl⟩ := hentry
    exact ⟨nameKey, h.u16 h0, spaceKey, h.u16 h1, refs, h.u16 h2, params, h.u8 h3, flags, h.u8 h4,
      rfl⟩
  simp only [Except.andThen_eq_ok_iff, Except.pure_eq_ok_iff] at hentry
  obtain ⟨nameKey, -, spaceKey, -, refCount, -, params, -, flags, hflags, rfl⟩ := hentry
  refine (Follows.same.within _ _).bind fun name _ => ?_
  refine (Follows.same.within _ _).bind fun space _ => ?_
  refine ((Follows.range fun _ => h.wordsFrom).within _ _).bind fun refs hrefs => ?_
  exact Follows.pure (Tables.words_eq_ok (Image.u8_eq_ok hflags) hrefs).2

theorem frontReads_export (table : StringTable) :
    FrontReads part (exportEntry part table) (exportEntry whole table) := by
  intro index pos
  refine Follows.within ((Follows.range ?_).bind fun entry hentry => ?_) _ _
  · intro entry hentry
    simp only [Except.andThen_eq_ok_iff, Except.pure_eq_ok_iff] at hentry ⊢
    obtain ⟨checksum, h0, offset, h1, nameKey, h2, params, h3, flags, h4, rfl⟩ := hentry
    exact ⟨checksum, h.u32 h0, offset, h.u32 h1, nameKey, h.u16 h2, params, h.u8 h3, flags,
      h.u8 h4, rfl⟩
  simp only [Except.andThen_eq_ok_iff, Except.pure_eq_ok_iff] at hentry
  obtain ⟨checksum, -, offset, -, nameKey, -, params, -, flags, hflags, rfl⟩ := hentry
  exact Follows.same.bind fun name _ => Follows.pure (Image.u8_eq_ok hflags)

end

variable {α : Type} {readPart readWhole : Nat → Nat → Decoding (α × Nat)}

theorem recordsFrom_front (hread : FrontReads part readPart readWhole) {rows : List Bytes}
    (hrows : ∀ row ∈ rows, ∃ value, ReadsBack whole readWhole row value) {pos : Nat}
    (hheld : whole.Holds pos rows.flatten) (hpos : pos ≤ part.size) (index : Nat) (done : List α) :
    (∃ values, recordsFrom readPart index pos done rows.length = .ok values ∧
        pos + rows.flatten.length ≤ part.size) ∨
      (recordsFrom readPart index pos done rows.length).IsCut := by
  induction rows generalizing pos index done with
  | nil => exact Or.inl ⟨done.reverse, rfl, hpos⟩
  | cons row rows ih =>
    rw [List.flatten_cons, Image.holds_append] at hheld
    obtain ⟨value, hvalue⟩ := hrows row List.mem_cons_self
    rcases hread index pos _ (hvalue index pos hheld.1) with ⟨hok, hle⟩ | hcut
    · have hrest := ih (fun row hrow => hrows row (List.mem_cons_of_mem _ hrow)) hheld.2 hle
        (index + 1) (value :: done)
      rw [List.length_cons, recordsFrom, hok, List.flatten_cons, List.length_append, ← Nat.add_assoc]
      exact hrest
    · exact Or.inr (hcut.bind _)

theorem records_front (hread : FrontReads part readPart readWhole) {rows : List Bytes}
    (hrows : ∀ row ∈ rows, ∃ value, ReadsBack whole readWhole row value) {offset : UInt32}
    (hheld : whole.Holds offset.toNat rows.flatten) (which : DecodeError.Section) {count : Nat}
    (hcount : count = rows.length) :
    (∃ values, records part which offset readPart count = .ok values ∧
        (rows ≠ [] → offset.toNat + rows.flatten.length ≤ part.size)) ∨
      (records part which offset readPart count).IsCut := by
  rw [records, hcount]
  split
  · rename_i hzero
    exact Or.inl ⟨[], rfl, fun hne => absurd (List.length_eq_zero_iff.mp hzero) hne⟩
  · cases hseek : part.seek offset.toNat with
    | error fault => exact Or.inr ⟨_, fault, rfl, rfl⟩
    | ok pos =>
      obtain ⟨rfl, hle⟩ := Image.seek_eq_ok hseek
      rcases recordsFrom_front hread hrows hheld hle 0 [] with ⟨values, hvalues, hinside⟩ | hcut
      · exact Or.inl ⟨values, hvalues, fun _ => hinside⟩
      · exact Or.inr hcut

theorem lt_start_of_inside {rows : List Bytes} {start size : Nat}
    (hinside : rows ≠ [] → start + rows.flatten.length ≤ size)
    (hlt : size < start + rows.flatten.length) : size < start := by
  cases rows with
  | nil => exact hlt
  | cons row rows => exact absurd hlt (Nat.not_lt.mpr (hinside (List.cons_ne_nil row rows)))

/-- The strings of a pool that reaches past the input are never all read. -/
theorem stringsFrom_cut {img : Image} {stop pos : Nat} (hstop : img.size < stop)
    (hpos : pos ≤ img.size) (table : StringTable) : (stringsFrom img stop pos table).IsCut := by
  fun_induction stringsFrom img stop pos table with
  | case1 pos table hlt fault => exact ⟨_, fault, rfl, rfl⟩
  | case2 pos table hlt s next hread ih => exact ih (Image.next_le_of_cstring hread)
  | case3 => omega

end Tables

namespace FileOf

variable {flags : UInt8} {m : Module} {ms : Mentions} {bs : List Code.Body} {r : Assembly.Rows}
  {file : Bytes} (hfile : FileOf flags m ms bs r file) {part : Image}
  (hfront : part.Front file.toArray)

include hfile hfront

section

variable {h : Header} (hh : r.header flags m ms (Assembly.codeOf m ms bs) = h)

include hh

theorem strings_front (hlow : Header.length ≤ part.size) :
    (∃ table, Tables.strings part h = .ok table ∧
        table.Shows (ms.pool m) StringPool.readAs) ∨
      (Tables.strings part h).IsCut := by
  have hparts := hfile.holdsParts
  rw [hh] at hparts
  have hstop := hparts.pool_stop
  have hlt := h.includeOffset.toNat_lt
  rw [Tables.strings, hstop]
  by_cases hle : Header.length + (ms.pool m).bytes.length ≤ part.size
  · obtain ⟨table, htable, hshows, -⟩ :=
      Tables.exists_strings_shown (hfront.holds_of_le hparts.pool hle) (by omega)
    exact Or.inl ⟨table, Decoding.within_eq_ok_iff.mpr htable, hshows⟩
  · exact Or.inr ((Tables.stringsFrom_cut (by omega) hlow _).within _)

variable {table : StringTable} {found : Bytes → Bytes} (htable : table.Shows (ms.pool m) found)

include htable

theorem includes_front :
    (∃ names, Tables.includes part h table = .ok names) ∨ (Tables.includes part h table).IsCut := by
  have hparts := hfile.holdsParts
  have hcounts := hfile.writes.countedBy flags
  rw [hh] at hparts hcounts
  have hrows : ∀ row ∈ m.includeList.map (Assembly.includeBytes (ms.pool m)), ∃ value,
      Tables.ReadsBack file.toArray (fun index pos => Decoding.within (.entry .includes index) do
        let key ← Decoding.ofRange (Image.u32 file.toArray pos)
        let name ← table.lookup key
        return (name, pos + 4)) row value := by
    intro row hrow
    obtain ⟨name, hname, rfl⟩ := List.mem_map.mp hrow
    exact ⟨_, Assembly.readsBack_include htable
      (Mentions.mem_pool.mpr (Mentions.include_mem_strings hname))⟩
  have hcount : h.includeCount.toNat =
      (m.includeList.map (Assembly.includeBytes (ms.pool m))).length := by
    rw [hcounts.includes, List.length_map]
  rcases Tables.records_front (Tables.frontReads_include hfront table) hrows hparts.includes
      .includes hcount with ⟨names, hnames, -⟩ | hcut
  · exact Or.inl ⟨names, hnames⟩
  · exact Or.inr hcut

theorem trees_front :
    (∃ trees, Tables.animTrees part h table = .ok trees ∧
        (r.trees ≠ [] → h.animTreeOffset.toNat + r.trees.flatten.length ≤ part.size)) ∨
      (Tables.animTrees part h table).IsCut := by
  have hparts := hfile.holdsParts
  have hcounts := hfile.writes.countedBy flags
  rw [hh] at hparts hcounts
  refine Tables.records_front (Tables.frontReads_tree hfront table) ?_ hparts.trees .animTrees
    hcounts.trees
  intro row hrow
  obtain ⟨tree, -, htree⟩ := hfile.writes.trees.exists_left hrow
  exact ⟨_, Assembly.readsBack_tree htable htree⟩

theorem fixups_front (hfit : r.fixups.length ≤ 0xFFFF) :
    (∃ fixups, Tables.stringFixups part h table = .ok fixups ∧
        (r.fixups ≠ [] → h.stringFixupOffset.toNat + r.fixups.flatten.length ≤ part.size)) ∨
      (Tables.stringFixups part h table).IsCut := by
  have hparts := hfile.holdsParts
  have hcounts := hfile.writes.countedBy flags
  rw [hh] at hparts hcounts
  refine Tables.records_front (Tables.frontReads_fixup hfront table) ?_ hparts.fixups .stringFixups
    (by rw [hcounts.fixups, Nat.mod_eq_of_lt (by omega)])
  intro row hrow
  obtain ⟨written, hwritten, hfixups⟩ := hfile.writes.fixups
  rw [hfixups] at hrow
  obtain ⟨rows, hrows, hrow⟩ := List.mem_flatten.mp hrow
  obtain ⟨s, -, hs⟩ := hwritten.exists_left hrows
  obtain ⟨entry, -, hentry⟩ := (Assembly.readsBack_fixups htable hs).exists_right hrow
  exact ⟨entry, hentry⟩

theorem imports_front :
    (∃ imports, Tables.imports part h table = .ok imports ∧
        (r.imports ≠ [] → h.importsOffset.toNat + r.imports.flatten.length ≤ part.size)) ∨
      (Tables.imports part h table).IsCut := by
  have hparts := hfile.holdsParts
  have hcounts := hfile.writes.countedBy flags
  rw [hh] at hparts hcounts
  refine Tables.records_front (Tables.frontReads_import hfront table) ?_ hparts.imports .imports
    hcounts.imports
  intro row hrow
  obtain ⟨d, hd, himport⟩ := hfile.writes.imports.exists_left hrow
  obtain ⟨entry, hentry, -⟩ :=
    Assembly.readsBack_import htable (Mentions.kind_of_import hfile.mentions hd) himport
  exact ⟨entry, hentry⟩

theorem exports_front :
    (r.exports ≠ [] → h.exportsOffset.toNat + r.exports.flatten.length ≤ part.size) ∨
      (Tables.exports part h table).IsCut := by
  have hparts := hfile.holdsParts
  have hcounts := hfile.writes.countedBy flags
  rw [hh] at hparts hcounts
  have hrows : ∀ row ∈ r.exports, ∃ value,
      Tables.ReadsBack file.toArray (Tables.exportEntry file.toArray table) row value := by
    intro row hrow
    obtain ⟨e, -, hexport⟩ := hfile.writes.exports.exists_left hrow
    exact ⟨_, Assembly.readsBack_export htable hexport⟩
  rcases Tables.records_front (Tables.frontReads_export hfront table) hrows hparts.exports .exports
      hcounts.exports with ⟨entries, -, hinside⟩ | hcut
  · exact Or.inl hinside
  · exact Or.inr (hcut.bind _)

end

/-- The last table that has rows ends with the file, so its reading runs into the cut. -/
theorem sections_cut (hfunctions : m.functionList ≠ []) (hfit : r.fixups.length ≤ 0xFFFF)
    (hlow : Header.length ≤ part.size) (hlt : part.size < file.length) :
    (Disassembly.sections part).IsCut := by
  have hparts := hfile.holdsParts
  have hstop := hfile.toNat_fixupOffset
  obtain ⟨-, himportsAt, htreesAt, hfixupsAt, hstopAt⟩ := hfile.toNat_offsets rfl
  have hexports : r.exports ≠ [] := by
    have hnames := congrArg List.length (Code.map_name_exportsFrom hfile.lays)
    rw [List.length_map, List.length_map] at hnames
    refine List.length_pos_iff.mp ?_
    rw [← hfile.writes.exports.length_eq, Assembly.codeOf, Code.ofBodies, hnames]
    exact List.length_pos_iff.mpr hfunctions
  generalize hh : r.header flags m ms (Assembly.codeOf m ms bs) = h at *
  have hheader : Disassembly.header part = .ok h := by
    refine Disassembly.header_of_holds (hfront.holds_of_le hparts.header ?_) ?_
    · rw [Header.length_bytes]
      omega
    · rw [hparts.header_eq]
      rfl
  rw [Disassembly.sections]
  refine Decoding.isCut_of_ok (Decoding.within_eq_ok_iff.mpr hheader) ?_
  rcases hfile.strings_front hfront hh hlow with ⟨table, hstrings, htable⟩ | hcut
  case inr => exact (hcut.within _).bind _
  refine Decoding.isCut_of_ok (Decoding.within_eq_ok_iff.mpr hstrings) ?_
  rcases hfile.includes_front hfront hh htable with ⟨names, hnames⟩ | hcut
  case inr => exact (hcut.within _).bind _
  refine Decoding.isCut_of_ok (Decoding.within_eq_ok_iff.mpr hnames) ?_
  rcases hfile.trees_front hfront hh htable with ⟨trees, htrees, htreesIn⟩ | hcut
  case inr => exact (hcut.within _).bind _
  refine Decoding.isCut_of_ok (Decoding.within_eq_ok_iff.mpr htrees) ?_
  rcases hfile.fixups_front hfront hh htable hfit with ⟨fixups, hfixups, hfixupsIn⟩ | hcut
  case inr => exact (hcut.within _).bind _
  refine Decoding.isCut_of_ok (Decoding.within_eq_ok_iff.mpr hfixups) ?_
  rcases hfile.imports_front hfront hh htable with ⟨imports, himports, himportsIn⟩ | hcut
  case inr => exact (hcut.within _).bind _
  refine Decoding.isCut_of_ok (Decoding.within_eq_ok_iff.mpr himports) ?_
  rcases hfile.exports_front hfront hh htable with hexportsIn | hcut
  case inr => exact (hcut.within _).bind _
  -- going back from the end of the file, the cut stays before every table up to the exports
  have hfixupsCut := Tables.lt_start_of_inside hfixupsIn (by omega)
  have htreesCut := Tables.lt_start_of_inside htreesIn (by omega)
  have himportsCut := Tables.lt_start_of_inside himportsIn (by omega)
  have hinside := hexportsIn hexports
  omega

end FileOf

/-- The string fixups of the module are no more than the header can count. -/
def Module.FixupsFit (t : OpcodeTable) (m : Module) : Prop :=
  ∀ ms, Mentions.ofModule t m = .ok ms →
    ∀ code, Code.emit ⟨t, ms.pool m, ms.imports m⟩ (Assembly.codeOffset (ms.pool m) m.includeList)
      m.functionList = .ok code → Assembly.fixupCount code.sites ≤ 0xFFFF

instance (t : OpcodeTable) (m : Module) : Decidable (m.FixupsFit t) :=
  decidable_of_iff
    (∀ ms ∈ (Mentions.ofModule t m).toOption,
      ∀ code ∈ (Code.emit ⟨t, ms.pool m, ms.imports m⟩
        (Assembly.codeOffset (ms.pool m) m.includeList) m.functionList).toOption,
        Assembly.fixupCount code.sites ≤ 0xFFFF) <| by
    simp only [Module.FixupsFit, Option.mem_def, Except.toOption_eq_some_iff]

theorem FileOf.length_fixups_le {t : OpcodeTable} {flags : UInt8} {m : Module} {ms : Mentions}
    {bs : List Code.Body} {r : Assembly.Rows} {file : Bytes} (hfile : FileOf flags m ms bs r file)
    (hnamed : m.NamedBy t) (hfit : m.FixupsFit t) : r.fixups.length ≤ 0xFFFF := by
  rw [hfile.writes.length_fixups]
  refine hfit ms (Mentions.ofModule_eq_ok_iff_named.mpr ⟨hnamed, hfile.mentions⟩) _ ?_
  exact Code.emitFrom_eq_ok_iff_named.mpr ⟨hnamed, hfile.emit_eq_ok⟩

theorem Image.front_take (file : Bytes) (n : Nat) : Image.Front (file.take n).toArray file.toArray :=
  List.take_prefix n file

theorem disassemble_short (opcodes : OpcodeTable) {img : Image} (h : img.size < Header.length) :
    ∃ e, disassemble opcodes img = .error e ∧ e.categories = [.truncatedHeader] := by
  refine ⟨⟨[.table .header], .shortHeader img.size⟩, ?_, rfl⟩
  rw [disassemble, Disassembly.sections, Disassembly.header, if_pos h]
  rfl

theorem disassemble_of_cut (opcodes : OpcodeTable) {img : Image}
    (h : (Disassembly.sections img).IsCut) :
    ∃ e, disassemble opcodes img = .error e ∧ e.categories = [.truncated, .outOfRange] := by
  obtain ⟨e, fault, he, hcause⟩ := h.bind fun s => do
    let functions ← s.exports.mapM (Disassembly.exportedFunction (s.tables opcodes) img)
    return s.object functions
  refine ⟨e, he, ?_⟩
  rw [DecodeError.categories, hcause]
  rfl

theorem disassemble_take_assemble {t opcodes : OpcodeTable} {flags : UInt8} {m : Module}
    {a : Assembled} (h : assemble t flags m = .ok a) (hlength : a.file.length < 2 ^ 32)
    (hfunctions : m.functionList ≠ []) (hfixups : m.FixupsFit t) {n : Nat}
    (hn : n < a.file.length) :
    ∃ e, disassemble opcodes (a.file.take n).toArray = .error e ∧
      (n < Header.length → e.categories = [.truncatedHeader]) ∧
      (Header.length ≤ n → e.categories = [.truncated, .outOfRange]) := by
  have hsize : (a.file.take n).toArray.size = n := by
    rw [List.size_toArray, List.length_take_of_le (Nat.le_of_lt hn)]
  by_cases hshort : n < Header.length
  · obtain ⟨e, he, hcategories⟩ := disassemble_short opcodes (hsize.trans_lt hshort)
    exact ⟨e, he, fun _ => hcategories, fun hle => absurd hshort (Nat.not_lt.mpr hle)⟩
  · obtain ⟨hnamed, hbuiltIn⟩ := Assembly.assemble_eq_ok_iff_named.mp h
    obtain ⟨ms, bs, r, hfile⟩ := exists_fileOf hbuiltIn hlength
    have hcut := hfile.sections_cut (Image.front_take a.file n) hfunctions
      (hfile.length_fixups_le hnamed hfixups) (by omega) (by omega)
    obtain ⟨e, he, hcategories⟩ := disassemble_of_cut opcodes hcut
    exact ⟨e, he, fun hlt => absurd hlt hshort, fun _ => hcategories⟩

theorem disassemble_take_callingModule :
    ∃ a, assemble .builtIn 1 callingModule = .ok a ∧ a.file.length < 2 ^ 32 ∧
      callingModule.functionList ≠ [] ∧ callingModule.FixupsFit .builtIn ∧ 100 < a.file.length ∧
      ∃ e, disassemble .builtIn (a.file.take 100).toArray = .error e ∧
        e.categories = [.truncated, .outOfRange] := by
  obtain ⟨a, ha, hlengths⟩ : ∃ a, assemble .builtIn 1 callingModule = .ok a ∧
      decide (a.file.length < 2 ^ 32 ∧ 100 < a.file.length) = true :=
    Except.exists_of_any (by decide +kernel)
  obtain ⟨hlength, hn⟩ := of_decide_eq_true hlengths
  have hfunctions : callingModule.functionList ≠ [] := by decide
  have hfixups : callingModule.FixupsFit .builtIn := by decide +kernel
  obtain ⟨e, he, -, hcut⟩ := disassemble_take_assemble ha hlength hfunctions hfixups hn
  exact ⟨a, ha, hlength, hfunctions, hfixups, hn, e, he, hcut (by decide)⟩

end ScriptCodec

import ScriptCodec.Proofs.Object.Decoding
import ScriptCodec.Proofs.Object.File

/-!
The sections of an assembled file. Every part of the file is held where the header says, so the
section readers give back the tables the file was written from.
-/
namespace ScriptCodec

/-- The counts in the header are the numbers of rows, but that of the fixups, which may wrap. -/
structure Assembly.Rows.CountedBy (r : Rows) (m : Module) (h : Header) : Prop where
  includes : h.includeCount.toNat = m.includeList.length
  exports : h.exportsCount.toNat = r.exports.length
  imports : h.importsCount.toNat = r.imports.length
  trees : h.animTreeCount.toNat = r.trees.length
  fixups : h.stringFixupCount.toNat = r.fixups.length % 2 ^ 16

theorem Assembly.Writes.countedBy {m : Module} {ms : Mentions} {code : Code} {r : Rows}
    (hwrites : Writes m ms code r) (flags : UInt8) : r.CountedBy m (r.header flags m ms code) where
  includes := by
    have hle := hwrites.includes_le
    exact UInt8.toNat_ofNat_of_lt' (show m.includeList.length < 2 ^ 8 by omega)
  exports := by
    rw [← hwrites.exports.length_eq]
    exact Word.toNat_ofNat16 hwrites.exports_le
  imports := by
    rw [← hwrites.imports.length_eq]
    exact Word.toNat_ofNat16 hwrites.imports_le
  trees := by
    have hle := hwrites.trees_le
    rw [← hwrites.trees.length_eq]
    exact UInt8.toNat_ofNat_of_lt' (show ms.trees.length < 2 ^ 8 by omega)
  fixups := UInt16.toNat_ofNat'

structure HoldsParts (img : Image) (flags : UInt8) (m : Module) (ms : Mentions)
    (bs : List Code.Body) (r : Assembly.Rows) (h : Header) : Prop where
  header_eq : h = r.header flags m ms (Assembly.codeOf m ms bs)
  header : img.Holds 0 h.bytes
  pool : img.Holds Header.length (ms.pool m).bytes
  pool_stop : h.includeOffset.toNat = Header.length + (ms.pool m).bytes.length
  includes : img.Holds h.includeOffset.toNat
    (m.includeList.map (Assembly.includeBytes (ms.pool m))).flatten
  code : img.Holds h.codeOffset.toNat (Code.joined bs)
  code_stop : (h.codeOffset + h.codeSize).toNat = h.codeOffset.toNat + (Code.joined bs).length
  exports : img.Holds h.exportsOffset.toNat r.exports.flatten
  imports : img.Holds h.importsOffset.toNat r.imports.flatten
  trees : img.Holds h.animTreeOffset.toNat r.trees.flatten
  fixups : img.Holds h.stringFixupOffset.toNat r.fixups.flatten

namespace FileOf

variable {flags : UInt8} {m : Module} {ms : Mentions} {bs : List Code.Body} {r : Assembly.Rows}
  {file : Bytes} (hfile : FileOf flags m ms bs r file)

include hfile

theorem stopAt_eq : r.stopAt m ms (Assembly.codeOf m ms bs) = file.length := by
  have hcode : (Assembly.codeOf m ms bs).bytes = Code.joined bs := rfl
  rw [hfile.file_eq]
  simp only [Assembly.Rows.stopAt, Assembly.Rows.fixupsAt, Assembly.Rows.treesAt,
    Assembly.Rows.importsAt, Assembly.Rows.exportsAt, Assembly.Rows.tables, hcode,
    List.length_append, Header.length_bytes]
  omega

theorem toNat_includeOffset :
    (r.header flags m ms (Assembly.codeOf m ms bs)).includeOffset.toNat =
      Header.length + (ms.pool m).bytes.length := by
  have hlength := hfile.length_lt
  rw [hfile.file_eq] at hlength
  simp only [Assembly.frontBytes, List.length_append, Header.length_bytes] at hlength
  exact StringPool.toNat_stop (by omega)

theorem toNat_codeOffset :
    (r.header flags m ms (Assembly.codeOf m ms bs)).codeOffset.toNat =
      Header.length + (Assembly.frontBytes (ms.pool m) m.includeList).length := by
  have hlength := hfile.length_lt
  rw [hfile.file_eq] at hlength
  simp only [List.length_append, Header.length_bytes] at hlength
  change (Assembly.codeOffset (ms.pool m) m.includeList).toNat = _
  rw [← hfile.writes.front, toNat_ofNat_of_lt (by omega)]

theorem toNat_offsets {h : Header} (hh : h = r.header flags m ms (Assembly.codeOf m ms bs)) :
    h.exportsOffset.toNat = h.codeOffset.toNat + (Code.joined bs).length ∧
      h.importsOffset.toNat = h.exportsOffset.toNat + r.exports.flatten.length ∧
      h.animTreeOffset.toNat = h.importsOffset.toNat + r.imports.flatten.length ∧
      h.stringFixupOffset.toNat = h.animTreeOffset.toNat + r.trees.flatten.length ∧
      h.fixupOffset.toNat = h.stringFixupOffset.toNat + r.fixups.flatten.length := by
  have hcode : (Assembly.codeOf m ms bs).bytes = Code.joined bs := rfl
  have hstop := hfile.stopAt_eq
  have hlength := hfile.length_lt
  rw [hh, hfile.toNat_codeOffset]
  simp only [Assembly.Rows.header, Assembly.Rows.stopAt, Assembly.Rows.fixupsAt,
    Assembly.Rows.treesAt, Assembly.Rows.importsAt, Assembly.Rows.exportsAt, hcode] at hstop ⊢
  repeat rw [toNat_ofNat_of_lt (by omega)]
  omega

theorem toNat_fixupOffset :
    (r.header flags m ms (Assembly.codeOf m ms bs)).fixupOffset.toNat = file.length := by
  rw [← hfile.stopAt_eq]
  refine toNat_ofNat_of_lt ?_
  rw [hfile.stopAt_eq]
  exact hfile.length_lt

theorem holdsParts :
    HoldsParts file.toArray flags m ms bs r (r.header flags m ms (Assembly.codeOf m ms bs)) := by
  have hheld := Image.holds_toArray [] file []
  have hlength := hfile.length_lt
  have hincludesAt := hfile.toNat_includeOffset
  have hstart := hfile.toNat_codeOffset
  obtain ⟨hexportsAt, himportsAt, htreesAt, hfixupsAt, -⟩ := hfile.toNat_offsets rfl
  have hsize : (r.header flags m ms (Assembly.codeOf m ms bs)).codeSize =
      UInt32.ofNat (Code.joined bs).length := rfl
  have hfile_eq := hfile.file_eq
  generalize hh : r.header flags m ms (Assembly.codeOf m ms bs) = h at *
  have hflat : m.includeList.flatMap (Assembly.includeBytes (ms.pool m)) =
      (m.includeList.map (Assembly.includeBytes (ms.pool m))).flatten := List.flatMap_def
  simp only [List.nil_append, List.append_nil, List.length_nil] at hheld
  nth_rewrite 2 [hfile_eq] at hheld
  rw [hfile_eq] at hlength
  simp only [Assembly.Rows.tables, Image.holds_append, List.length_append, Header.length_bytes,
    Nat.zero_add] at hheld hlength
  rw [← hstart] at hheld hlength
  obtain ⟨⟨⟨hheader, hfront⟩, hjoined⟩, ⟨⟨hexports, himports⟩, htrees⟩, hfixups⟩ := hheld
  simp only [Assembly.frontBytes, hflat, Image.holds_append] at hfront
  obtain ⟨⟨hpool, hincludes⟩, -⟩ := hfront
  exact {
    header_eq := hh.symm
    header := hheader
    pool := hpool
    pool_stop := hincludesAt
    includes := by rwa [hincludesAt]
    code := hjoined
    code_stop := by rw [hsize, Code.toNat_add_ofNat (by omega)]
    exports := by rwa [hexportsAt]
    imports := by rwa [himportsAt, hexportsAt]
    trees := by
      rw [htreesAt, himportsAt, hexportsAt, Nat.add_assoc _ r.exports.flatten.length]
      exact htrees
    fixups := by
      rw [hfixupsAt, htreesAt, himportsAt, hexportsAt, Nat.add_assoc _ r.exports.flatten.length,
        Nat.add_assoc _ (_ + _)]
      exact hfixups }

theorem holds_code :
    Image.Holds file.toArray (Assembly.codeOffset (ms.pool m) m.includeList).toNat
        (Code.joined bs) ∧
      (Assembly.codeOffset (ms.pool m) m.includeList).toNat + (Code.joined bs).length < 2 ^ 32 := by
  have hparts := hfile.holdsParts
  refine ⟨hparts.code, ?_⟩
  have hstop := hparts.code_stop
  have hlt := UInt32.toNat_lt ((r.header flags m ms (Assembly.codeOf m ms bs)).codeOffset +
    (r.header flags m ms (Assembly.codeOf m ms bs)).codeSize)
  rw [hstop] at hlt
  exact hlt

end FileOf

namespace Assembly

def treeRead (table : StringTable) (pool : StringPool) (sites : List Site) (tree : Bytes) :
    AnimTree :=
  ⟨tree, [], Tables.animations table (animationWords pool (animationsOf sites tree))⟩

/-- The string fixups of the sites, of which the file holds all and its header counts some. -/
def fixupsOf (sites : List Site) : List StringFixup :=
  (literals sites).flatMap fun s =>
    (chunks maxFixupRefs (literalRefs sites s)).map (StringFixup.mk s)

/-- How many entries the string fixups take, as no entry has more references than fit its count. -/
def fixupCount (sites : List Site) : Nat :=
  ((literals sites).map fun s => (chunks maxFixupRefs (literalRefs sites s)).length).sum

theorem map_length_fixupEntries {pool : StringPool} {sites : List Site} {strings : List Bytes}
    {entries : List (List Bytes)}
    (h : strings.Forall₂ (fun s rows => fixupEntries pool sites s = .ok rows) entries) :
    entries.map List.length =
      strings.map fun s => (chunks maxFixupRefs (literalRefs sites s)).length := by
  induction h with
  | nil => rfl
  | cons hrows _ ih =>
    simp only [fixupEntries, Except.map_eq_ok_iff] at hrows
    obtain ⟨key, -, rfl⟩ := hrows
    rw [List.map_cons, List.map_cons, ih, List.length_map]

theorem Writes.length_fixups {m : Module} {ms : Mentions} {code : Code} {r : Rows}
    (h : Writes m ms code r) : r.fixups.length = fixupCount code.sites := by
  obtain ⟨entries, hentries, hfixups⟩ := h.fixups
  rw [hfixups, fixupCount, List.length_flatten, map_length_fixupEntries hentries]

theorem length_fixupsOf (sites : List Site) : (fixupsOf sites).length = fixupCount sites := by
  simp only [fixupsOf, fixupCount, List.length_flatMap, List.length_map]

theorem Writes.readsBack_fixups {img : Image} {m : Module} {ms : Mentions} {code : Code} {r : Rows}
    (hwrites : Writes m ms code r) {table : StringTable} (htable : table.Holds (ms.pool m)) :
    r.fixups.Forall₂ (Tables.ReadsBack img (Tables.stringFixup img table)) (fixupsOf code.sites) := by
  obtain ⟨written, hwritten, hfixups⟩ := hwrites.fixups
  rw [hfixups, fixupsOf, List.flatMap_def]
  refine List.rel_flatten ?_
  rw [List.forall₂_map_right_iff]
  refine hwritten.flip.imp ?_
  intro rows s hrows
  exact Assembly.readsBack_fixups htable.shows hrows

end Assembly

namespace Disassembly

structure ImportedFrom (sites : List Site) (d : ImportDecl) (entry : Import) : Prop where
  decl : declOf entry = d
  refs : entry.refs = (Assembly.refsTo sites d.callee).map Prod.fst
  devOnly : entry.devOnly =
    (!(Assembly.refsTo sites d.callee).isEmpty && (Assembly.refsTo sites d.callee).all Prod.snd)

structure ReadsSections (m : Module) (ms : Mentions) (bs : List Code.Body) (h : Header)
    (s : Sections) : Prop where
  header : s.header = h
  strings : s.strings.Holds (ms.pool m)
  includes : s.includes = m.includeList
  exports : s.exports = (Assembly.codeOf m ms bs).exports
  imports : (ms.imports m).Forall₂ (ImportedFrom (Assembly.codeOf m ms bs).sites) s.imports
  trees : s.animTrees =
    ms.trees.map (Assembly.treeRead s.strings (ms.pool m) (Assembly.codeOf m ms bs).sites)
  fixups : s.fixups = (Assembly.fixupsOf (Assembly.codeOf m ms bs).sites).take
    ((Assembly.fixupsOf (Assembly.codeOf m ms bs).sites).length % 2 ^ 16)

theorem header_of_holds {img : Image} {h : Header} (hheld : img.Holds 0 h.bytes)
    (hmagic : h.magic = Header.magicNumber) : header img = .ok h := by
  have hsize := hheld.stop_le
  rw [Header.length_bytes] at hsize
  rw [header, if_neg (by omega), Header.read_of_holds hheld]
  simp only [Decoding.ofRange, Except.mapError, Except.bind, hmagic, if_true]

section

variable {img : Image} {flags : UInt8} {m : Module} {ms : Mentions} {bs : List Code.Body}
  {r : Assembly.Rows} {h : Header} (hparts : HoldsParts img flags m ms bs r h)
  (hwrites : Assembly.Writes m ms (Assembly.codeOf m ms bs) r)

include hparts

theorem header_of_parts : header img = .ok h :=
  header_of_holds hparts.header (by rw [hparts.header_eq]; rfl)

theorem strings_of_parts (hnul : ∀ s ∈ ms.strings m, 0 ∉ s) :
    ∃ table, Tables.strings img h = .ok table ∧ table.Holds (ms.pool m) := by
  have hlt := h.includeOffset.toNat_lt
  rw [hparts.pool_stop] at hlt
  obtain ⟨table, htable, hholds⟩ := Tables.exists_strings
    (fun s hs => hnul s (Mentions.mem_pool.mp hs)) hparts.pool hlt
  refine ⟨table, ?_, hholds⟩
  rw [Tables.strings, Decoding.within_eq_ok_iff, hparts.pool_stop]
  exact htable

include hwrites

variable {table : StringTable} (htable : table.Holds (ms.pool m))

include htable

theorem includes_of_parts : Tables.includes img h table = .ok m.includeList := by
  have hcount : h.includeCount.toNat =
      (m.includeList.map (Assembly.includeBytes (ms.pool m))).length := by
    rw [hparts.header_eq, List.length_map]
    exact (hwrites.countedBy flags).includes
  rw [Tables.includes, hcount]
  refine Tables.records_of_rows ?_ .includes hparts.includes
  rw [List.forall₂_map_left_iff, List.forall₂_same]
  intro name hname
  exact Assembly.readsBack_include htable.shows
    (Mentions.mem_pool.mpr (Mentions.include_mem_strings hname))

theorem exports_of_parts
    (hlays : Code.Lays (Assembly.context m ms) (Assembly.codeOffset (ms.pool m) m.includeList) 0
      m.functionList bs) :
    Tables.exports img h table = .ok (Assembly.codeOf m ms bs).exports := by
  have hcount : h.exportsCount.toNat = r.exports.length := by
    rw [hparts.header_eq]
    exact (hwrites.countedBy flags).exports
  have hrows : r.exports.Forall₂ (Tables.ReadsBack img (Tables.exportEntry img table))
      ((Assembly.codeOf m ms bs).exports.map ExportSizes.unsized) := by
    rw [List.forall₂_map_right_iff]
    refine hwrites.exports.flip.imp ?_
    intro row e hrow
    exact Assembly.readsBack_export htable.shows hrow
  have hread := Tables.records_of_rows hrows .exports hparts.exports
  have hstart : h.codeOffset = Assembly.codeOffset (ms.pool m) m.includeList := by
    rw [hparts.header_eq]
    rfl
  have hcode := hparts.code
  have hend := hparts.code_stop
  simp only [Tables.exports, Except.andThen_eq_ok_iff, hcount]
  refine ⟨_, hread, ?_⟩
  rw [hstart] at hcode hend ⊢
  exact ExportSizes.derive_exports hlays hcode hend

theorem imports_of_parts (hms : Mentions.ofModule .builtIn m = .ok ms) :
    ∃ entries, Tables.imports img h table = .ok entries ∧
      (ms.imports m).Forall₂ (ImportedFrom (Assembly.codeOf m ms bs).sites) entries := by
  have hcount : h.importsCount.toNat = r.imports.length := by
    rw [hparts.header_eq]
    exact (hwrites.countedBy flags).imports
  obtain ⟨entries, hrows, hentries⟩ := hwrites.imports.exists_through
      (S := Tables.ReadsBack img (Tables.importEntry img table))
      (T := ImportedFrom (Assembly.codeOf m ms bs).sites) <| by
    intro d hd row hrow
    obtain ⟨entry, hentry, hdecl, hrefs, hdev⟩ :=
      Assembly.readsBack_import htable.shows (Mentions.kind_of_import hms hd) hrow
    exact ⟨entry, hentry, hdecl, hrefs, hdev⟩
  refine ⟨entries, ?_, hentries⟩
  rw [Tables.imports, hcount]
  exact Tables.records_of_rows hrows .imports hparts.imports

theorem trees_of_parts :
    Tables.animTrees img h table = .ok
      (ms.trees.map (Assembly.treeRead table (ms.pool m) (Assembly.codeOf m ms bs).sites)) := by
  have hcount : h.animTreeCount.toNat = r.trees.length := by
    rw [hparts.header_eq]
    exact (hwrites.countedBy flags).trees
  rw [Tables.animTrees, hcount]
  refine Tables.records_of_rows ?_ .animTrees hparts.trees
  rw [List.forall₂_map_right_iff]
  refine hwrites.trees.flip.imp ?_
  intro row tree hrow
  exact Assembly.readsBack_tree htable.shows hrow

-- The count of fixup rows is kept modulo `2^16`, so only the first rows are read.
theorem fixups_of_parts :
    Tables.stringFixups img h table = .ok ((Assembly.fixupsOf (Assembly.codeOf m ms bs).sites).take
      ((Assembly.fixupsOf (Assembly.codeOf m ms bs).sites).length % 2 ^ 16)) := by
  have hrows : r.fixups.Forall₂ (Tables.ReadsBack img (Tables.stringFixup img table)) _ :=
    hwrites.readsBack_fixups htable
  rw [← hrows.length_eq]
  have hcount : h.stringFixupCount.toNat =
      (r.fixups.take (r.fixups.length % 2 ^ 16)).length := by
    have hle := Nat.mod_le r.fixups.length (2 ^ 16)
    rw [hparts.header_eq, List.length_take, Nat.min_eq_left hle]
    exact (hwrites.countedBy flags).fixups
  rw [Tables.stringFixups, hcount]
  refine Tables.records_of_rows (List.forall₂_take _ hrows) .stringFixups (hparts.fixups.front ?_)
  obtain ⟨rest, hrest⟩ := List.take_prefix (r.fixups.length % 2 ^ 16) r.fixups
  exact ⟨rest.flatten, by rw [← List.flatten_append, hrest]⟩

end

theorem sections_of_parts {img : Image} {flags : UInt8} {m : Module} {ms : Mentions}
    {bs : List Code.Body} {r : Assembly.Rows} {file : Bytes}
    (hfile : FileOf flags m ms bs r file) {h : Header} (hparts : HoldsParts img flags m ms bs r h)
    (hnul : ∀ s ∈ ms.strings m, 0 ∉ s) :
    ∃ s, sections img = .ok s ∧ ReadsSections m ms bs h s := by
  obtain ⟨table, hstrings, htable⟩ := strings_of_parts hparts hnul
  obtain ⟨imports, himports, himportRows⟩ :=
    imports_of_parts hparts hfile.writes htable hfile.mentions
  have htrees := trees_of_parts hparts hfile.writes htable
  have hfixups := fixups_of_parts hparts hfile.writes htable
  let sites := (Assembly.codeOf m ms bs).sites
  refine ⟨⟨h, table, m.includeList, ms.trees.map (Assembly.treeRead table (ms.pool m) sites),
    (Assembly.fixupsOf sites).take ((Assembly.fixupsOf sites).length % 2 ^ 16), imports,
    (Assembly.codeOf m ms bs).exports⟩, ?_, rfl, htable, rfl, rfl, himportRows, rfl, rfl⟩
  simp only [sections, Except.andThen_eq_ok_iff, Decoding.within_eq_ok_iff, Except.pure_eq_ok_iff]
  exact ⟨h, header_of_parts hparts, table, hstrings, _, includes_of_parts hparts hfile.writes htable,
    _, htrees, _, hfixups, imports, himports, _,
    exports_of_parts hparts hfile.writes htable hfile.lays, rfl⟩

variable {α : Type}

theorem getElem?_insertAll (refs : List UInt32) (x : α) (index : Std.TreeMap UInt32 α)
    (ref : UInt32) :
    (refs.foldl (fun index r => index.insert r x) index)[ref]? =
      if ref ∈ refs then some x else index[ref]? := by
  induction refs generalizing index with
  | nil => simp
  | cons r refs ih =>
    rw [List.foldl_cons, ih, Std.TreeMap.getElem?_insert]
    by_cases hmem : ref ∈ refs
    · simp [hmem]
    · by_cases heq : r = ref
      · simp [heq]
      · have hne : ref ≠ r := fun h => heq h.symm
        simp [hmem, heq, hne]

/-- The index by reference gives an entry that has the reference. -/
theorem exists_indexed {refs : α → List UInt32} {xs : List α} {ref : UInt32}
    (h : ∃ x ∈ xs, ref ∈ refs x) (index : Std.TreeMap UInt32 α) :
    ∃ x ∈ xs, ref ∈ refs x ∧
      (xs.foldl (fun index x => (refs x).foldl (fun index r => index.insert r x) index) index)[ref]? =
        some x := by
  induction xs using List.reverseRecOn with
  | nil => simp at h
  | append_singleton xs x ih =>
    rw [List.foldl_append, List.foldl_cons, List.foldl_nil, getElem?_insertAll]
    by_cases hmem : ref ∈ refs x
    · exact ⟨x, by simp, hmem, by rw [if_pos hmem]⟩
    · have hrest : ∃ y ∈ xs, ref ∈ refs y := by
        obtain ⟨y, hy, hyref⟩ := h
        rcases List.mem_append.mp hy with hy | hy
        · exact ⟨y, hy, hyref⟩
        · rw [List.mem_singleton.mp hy] at hyref
          exact absurd hyref hmem
      obtain ⟨y, hy, hyref, hindex⟩ := ih hrest
      exact ⟨y, List.mem_append_left _ hy, hyref, by rw [if_neg hmem, hindex]⟩

end Disassembly
end ScriptCodec

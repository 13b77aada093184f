import ScriptCodec.Proofs.Object.Naming
import ScriptCodec.Proofs.Object.RoundTrip

/-!
The sections of an assembled file leave no gaps. Each one starts where the one before it ends, at
the offset the header gives, and the last one ends with the file. The widths of rows are read from
the file itself, so nothing here needs the strings of the pool to be readable.
-/
namespace ScriptCodec

namespace Tables

/-- Rows one after the other from `pos` to `stop`, each as wide as `width` reads at its place. -/
inductive Spans (width : Nat → Except RangeFault Nat) : Nat → Nat → Nat → Prop
  | nil (pos : Nat) : Spans width 0 pos pos
  | cons {count pos stop n : Nat} (head : width pos = .ok n)
    (tail : Spans width count (pos + n) stop) : Spans width (count + 1) pos stop

variable (img : Image)

def importWidth (pos : Nat) : Except RangeFault Nat :=
  (img.u16 (pos + 4)).map fun refs => 8 + 4 * refs.toNat

def treeWidth (pos : Nat) : Except RangeFault Nat :=
  (img.u16 (pos + 4)).map fun anims => 8 + 8 * anims.toNat

def fixupWidth (pos : Nat) : Except RangeFault Nat :=
  (img.u8 (pos + 2)).map fun refs => 4 + 4 * refs.toNat

variable {img}

/-- Records one after the other from `pos` to `stop`, each as `At` says of its place and as wide as
`width` says. -/
inductive Filled {α : Type} (At : Nat → α → Prop) (width : α → Nat) : List α → Nat → Nat → Prop
  | nil (pos : Nat) : Filled At width [] pos pos
  | cons {x : α} {xs : List α} {pos stop : Nat} (head : At pos x)
    (tail : Filled At width xs (pos + width x) stop) : Filled At width (x :: xs) pos stop

section

variable {α : Type} {At : Nat → α → Prop} {width : α → Nat} {xs : List α}

theorem filled_of_rows {rows : List Bytes}
    (hrows : xs.Forall₂ (fun x row => row.length = width x ∧
      ∀ pos, img.Holds pos row → At pos x) rows) {pos : Nat} (hheld : img.Holds pos rows.flatten) :
    Filled At width xs pos (pos + rows.flatten.length) := by
  induction hrows generalizing pos with
  | nil => exact .nil pos
  | cons hrow _ ih =>
    rw [List.flatten_cons, Image.holds_append] at hheld
    rw [List.flatten_cons, List.length_append, ← Nat.add_assoc]
    refine .cons (hrow.2 pos hheld.1) ?_
    rw [← hrow.1]
    exact ih hheld.2

theorem Filled.spans {pos stop : Nat} (h : Filled At width xs pos stop)
    {read : Nat → Except RangeFault Nat} (hread : ∀ pos x, At pos x → read pos = .ok (width x)) :
    Spans read xs.length pos stop := by
  induction h with
  | nil pos => exact .nil pos
  | cons head _ ih => exact .cons (hread _ _ head) ih

end

structure ExportAt (img : Image) (pos : Nat) (e : Export) : Prop where
  checksum : img.u32 pos = .ok e.checksum
  offset : img.u32 (pos + 4) = .ok e.offset
  params : img.u8 (pos + 10) = .ok e.params
  flags : img.u8 (pos + 11) = .ok e.flags

variable (img) in
structure ImportAt (sites : List Site) (pos : Nat) (d : ImportDecl) : Prop where
  count : ∃ n, img.u16 (pos + 4) = .ok n ∧ n.toNat = (Assembly.refsTo sites d.callee).length
  refs : img.Holds (pos + 8) ((Assembly.refsTo sites d.callee).flatMap fun r => Word.u32 r.1)

variable (img) in
structure TreeAt (pool : StringPool) (sites : List Site) (pos : Nat) (tree : Bytes) : Prop where
  count : ∃ n, img.u16 (pos + 4) = .ok n ∧ n.toNat = (Assembly.animationsOf sites tree).length
  anims : img.Holds (pos + 8)
    ((Assembly.animationsOf sites tree).flatMap (Assembly.animationBytes pool))

variable (img) in
structure FixupAt (pos : Nat) (f : StringFixup) : Prop where
  count : ∃ n, img.u8 (pos + 2) = .ok n ∧ n.toNat = f.refs.length
  refs : img.Holds (pos + 4) (f.refs.flatMap Word.u32)

theorem ImportAt.width_eq {sites : List Site} {pos : Nat} {d : ImportDecl}
    (h : ImportAt img sites pos d) :
    importWidth img pos = .ok (8 + 4 * (Assembly.refsTo sites d.callee).length) := by
  obtain ⟨n, hn, hcount⟩ := h.count
  rw [importWidth, hn, Except.map, hcount]

theorem TreeAt.width_eq {pool : StringPool} {sites : List Site} {pos : Nat} {tree : Bytes}
    (h : TreeAt img pool sites pos tree) :
    treeWidth img pos = .ok (8 + 8 * (Assembly.animationsOf sites tree).length) := by
  obtain ⟨n, hn, hcount⟩ := h.count
  rw [treeWidth, hn, Except.map, hcount]

theorem FixupAt.width_eq {pos : Nat} {f : StringFixup} (h : FixupAt img pos f) :
    fixupWidth img pos = .ok (4 + 4 * f.refs.length) := by
  obtain ⟨n, hn, hcount⟩ := h.count
  rw [fixupWidth, hn, Except.map, hcount]

end Tables

namespace Assembly

variable {img : Image} {pool : StringPool} {sites : List Site} {pos : Nat} {row : Bytes}

theorem importAt_of_row {d : ImportDecl} (hrow : importBytes pool sites d = .ok row) :
    row.length = 8 + 4 * (refsTo sites d.callee).length ∧
      ∀ pos, img.Holds pos row → Tables.ImportAt img sites pos d := by
  simp only [importBytes] at hrow
  split at hrow
  · exact absurd hrow Assembling.fail_ne_ok
  simp only [Except.andThen_eq_ok_iff, Except.pure_eq_ok_iff] at hrow
  obtain ⟨nameKey, -, spaceKey, -, rfl⟩ := hrow
  rename_i hcount
  rw [Word.toBytes_two (show (refsTo sites d.callee).length ≤ 0xFFFF by omega)]
  constructor
  · have hrefs : (refsTo sites d.callee).flatMap (fun r => Word.u32 r.1) =
        ((refsTo sites d.callee).map Prod.fst).flatMap Word.u32 := by rw [List.flatMap_map]
    rw [hrefs]
    simp only [List.length_append, Word.length_u16, List.length_cons, List.length_nil,
      Word.length_flatMap_u32, List.length_map]
  · intro pos hheld
    simp only [Image.holds_append, List.length_append, Word.length_u16, Nat.reduceAdd] at hheld
    exact ⟨⟨_, hheld.1.1.2.u16, Word.toNat_ofNat16 (by omega)⟩, hheld.2⟩

theorem treeAt_of_row {tree : Bytes} (hrow : treeBytes pool sites tree = .ok row) :
    row.length = 8 + 8 * (animationsOf sites tree).length ∧
      ∀ pos, img.Holds pos row → Tables.TreeAt img pool sites pos tree := by
  simp only [treeBytes] at hrow
  split at hrow
  · exact absurd hrow Assembling.fail_ne_ok
  simp only [Except.andThen_eq_ok_iff, Except.pure_eq_ok_iff] at hrow
  obtain ⟨key, -, rfl⟩ := hrow
  rename_i hcount
  rw [Word.toBytes_two (show (animationsOf sites tree).length ≤ 0xFFFF by omega)]
  constructor
  · rw [flatMap_animationBytes]
    simp only [List.length_append, Word.length_u16, Word.length_toBytes, Word.length_flatMap_u32,
      length_animationWords]
    omega
  · intro pos hheld
    simp only [Image.holds_append, List.length_append, Word.length_u16, Word.length_toBytes,
      Nat.reduceAdd] at hheld
    exact ⟨⟨_, hheld.1.1.2.u16, Word.toNat_ofNat16 (by omega)⟩, hheld.2⟩

theorem fixupAt_of_row {s : Bytes} {key : UInt16} {refs : List UInt32} (hlength : refs.length ≤ 255)
    (hrow : row = Word.u16 key ++ [UInt8.ofNat refs.length, 0] ++ refs.flatMap Word.u32) :
    row.length = 4 + 4 * refs.length ∧ ∀ pos, img.Holds pos row → Tables.FixupAt img pos ⟨s, refs⟩ := by
  subst hrow
  constructor
  · simp only [List.length_append, Word.length_u16, List.length_cons, List.length_nil,
      Word.length_flatMap_u32]
  · intro pos hheld
    have hheld' : img.Holds pos (Word.u16 key ++ [UInt8.ofNat refs.length] ++ [0] ++
        refs.flatMap Word.u32) := by simpa using hheld
    simp only [Image.holds_append, List.length_append, Word.length_u16] at hheld'
    refine ⟨⟨_, hheld'.1.1.2.u8, ?_⟩, hheld'.2⟩
    rw [UInt8.toNat_ofNat', Nat.mod_eq_of_lt (show refs.length < 2 ^ 8 by omega)]

theorem fixupsAt_of_rows {s : Bytes} {rows : List Bytes}
    (hrows : fixupEntries pool sites s = .ok rows) :
    ((chunks maxFixupRefs (literalRefs sites s)).map (StringFixup.mk s)).Forall₂
      (fun f row => row.length = 4 + 4 * f.refs.length ∧
        ∀ pos, img.Holds pos row → Tables.FixupAt img pos f) rows := by
  simp only [fixupEntries, Except.map_eq_ok_iff] at hrows
  obtain ⟨key, -, rfl⟩ := hrows
  rw [List.forall₂_map_left_iff, List.forall₂_map_right_iff, List.forall₂_same]
  intro refs hrefs
  exact fixupAt_of_row (length_of_mem_chunks hrefs) rfl

theorem length_exportBytes {e : Export} (hrow : exportBytes pool e = .ok row) : row.length = 12 := by
  simp only [exportBytes, Except.map_eq_ok_iff] at hrow
  obtain ⟨key, -, rfl⟩ := hrow
  simp

theorem exportAt_of_holds {e : Export} (hrow : exportBytes pool e = .ok row)
    (hheld : img.Holds pos row) : Tables.ExportAt img pos e := by
  simp only [exportBytes, Except.map_eq_ok_iff] at hrow
  obtain ⟨key, -, rfl⟩ := hrow
  have hheld' : img.Holds pos (Word.u32 e.checksum ++ Word.u32 e.offset ++ Word.u16 key ++
      [e.params] ++ [e.flags]) := by simpa using hheld
  simp only [Image.holds_append, List.length_append, Word.length_u32, Word.length_u16,
    List.length_singleton, Nat.reduceAdd, and_assoc] at hheld'
  obtain ⟨hchecksum, hoffset, -, hparams, hflags⟩ := hheld'
  exact ⟨hchecksum.u32, hoffset.u32, hparams.u8, hflags.u8⟩

theorem length_exportRows {es : List Export} {rows : List Bytes}
    (hrows : es.Forall₂ (fun e row => exportBytes pool e = .ok row) rows) :
    rows.flatten.length = 12 * es.length := by
  induction hrows with
  | nil => rfl
  | cons hrow _ ih =>
    rw [List.flatten_cons, List.length_append, length_exportBytes hrow, ih, List.length_cons]
    omega

theorem exportAt_of_rows {es : List Export} {rows : List Bytes}
    (hrows : es.Forall₂ (fun e row => exportBytes pool e = .ok row) rows)
    (hheld : img.Holds pos rows.flatten) {i : Nat} {e : Export} (he : es[i]? = some e) :
    Tables.ExportAt img (pos + 12 * i) e := by
  induction hrows generalizing pos i with
  | nil => cases he
  | cons hrow _ ih =>
    rw [List.flatten_cons, Image.holds_append, length_exportBytes hrow] at hheld
    cases i with
    | zero =>
      rw [List.getElem?_cons_zero, Option.some_inj] at he
      rw [← he]
      exact exportAt_of_holds hrow hheld.1
    | succ i =>
      rw [List.getElem?_cons_succ] at he
      have hrest := ih hheld.2 he
      rwa [show pos + 12 * (i + 1) = pos + 12 + 12 * i by omega]

end Assembly

namespace Code

theorem Lays.body_of_export {img : Image} {ctx : Context} {codeOffset : UInt32} {before : Nat}
    {fns : List Function} {bs : List Body} (h : Lays ctx codeOffset before fns bs)
    (hheld : img.Holds (codeOffset.toNat + before) (joined bs))
    (hfit : codeOffset.toNat + before + (joined bs).length < 2 ^ 32) {e : Export}
    (he : e ∈ exportsFrom codeOffset before fns bs) :
    ∃ body, img.slice e.offset.toNat e.size.toNat = .ok body ∧
      e.checksum = Crc32.checksum body := by
  induction h with
  | nil => cases he
  | @cons before fn fns b bs _ htail ih =>
    have hjoined := length_joined_cons b bs
    obtain ⟨hfirst, hrest⟩ := holds_joined_cons hheld
    rcases List.mem_cons.mp he with rfl | he
    · have hslice := hfirst.slice
      rw [← toNat_add_ofNat (show codeOffset.toNat + before < 2 ^ 32 by omega),
        ← toNat_ofNat_of_lt (show b.bytes.length < 2 ^ 32 by omega)] at hslice
      exact ⟨b.bytes, hslice, rfl⟩
    · cases htail with
      | nil => cases he
      | cons =>
        rw [List.isEmpty_cons, if_neg (by decide)] at hjoined
        refine ih ?_ ?_ he
        · rw [← Nat.add_assoc]
          exact hrest (List.cons_ne_nil _ _)
        · rw [List.length_append]
          omega

end Code

/-- How the sections of a file follow each other from its header to its end. -/
structure Tiles (img : Image) (h : Header) (pool : StringPool) (names : List Bytes)
    (script : Bytes) : Prop where
  strings : img.Holds Header.length pool.bytes
  includes_at : h.includeOffset.toNat = Header.length + pool.bytes.length
  includes : img.Holds h.includeOffset.toNat (names.flatMap (Assembly.includeBytes pool))
  includes_count : h.includeCount.toNat = names.length
  padding : ∃ n ≤ 3, h.codeOffset.toNat = h.includeOffset.toNat + 4 * h.includeCount.toNat + n ∧
    img.Holds (h.includeOffset.toNat + 4 * h.includeCount.toNat) (List.replicate n 0)
  aligned : h.codeOffset.toNat % 4 = 0
  code : img.Holds h.codeOffset.toNat script
  code_size : h.codeSize.toNat = script.length
  crc : h.sourceCrc = Crc32.checksum script
  exports_at : h.exportsOffset.toNat = h.codeOffset.toNat + h.codeSize.toNat
  imports_at : h.importsOffset.toNat = h.exportsOffset.toNat + 12 * h.exportsCount.toNat
  imports : Tables.Spans (Tables.importWidth img) h.importsCount.toNat h.importsOffset.toNat
    h.animTreeOffset.toNat
  trees : Tables.Spans (Tables.treeWidth img) h.animTreeCount.toNat h.animTreeOffset.toNat
    h.stringFixupOffset.toNat
  fixups : ∃ count, count % 2 ^ 16 = h.stringFixupCount.toNat ∧
    Tables.Spans (Tables.fixupWidth img) count h.stringFixupOffset.toNat h.fixupOffset.toNat
  stop : h.fixupOffset.toNat = img.size
  profile : h.profileOffset.toNat = img.size

namespace FileOf

variable {flags : UInt8} {m : Module} {ms : Mentions} {bs : List Code.Body} {r : Assembly.Rows}
  {file : Bytes} (hfile : FileOf flags m ms bs r file)

include hfile

theorem holds_padding :
    Image.Holds file.toArray (Header.length + (ms.pool m).bytes.length + 4 * m.includeList.length)
      (Code.pad 4 (Header.length + (ms.pool m).bytes.length + 4 * m.includeList.length)) := by
  have hfront := Image.holds_toArray (r.header flags m ms (Assembly.codeOf m ms bs)).bytes
    (Assembly.frontBytes (ms.pool m) m.includeList) (Code.joined bs ++ r.tables)
  rw [← List.append_assoc, ← hfile.file_eq, Header.length_bytes, Assembly.frontBytes,
    Image.holds_append, List.length_append, Assembly.length_includeTable, ← Nat.add_assoc] at hfront
  exact hfront.2

theorem toNat_codeOffset_eq :
    (r.header flags m ms (Assembly.codeOf m ms bs)).codeOffset.toNat =
      Header.length + (ms.pool m).bytes.length + 4 * m.includeList.length +
        Word.padding 4 (Header.length + (ms.pool m).bytes.length + 4 * m.includeList.length) := by
  rw [hfile.toNat_codeOffset, Assembly.frontBytes]
  simp only [List.length_append, Code.length_pad, Assembly.length_includeTable, ← Nat.add_assoc]

section

variable {h : Header} (hh : h = r.header flags m ms (Assembly.codeOf m ms bs))

include hh

theorem imports_filled :
    Tables.Filled (Tables.ImportAt file.toArray (Assembly.codeOf m ms bs).sites)
      (fun d => 8 + 4 * (Assembly.refsTo (Assembly.codeOf m ms bs).sites d.callee).length)
      (ms.imports m) h.importsOffset.toNat h.animTreeOffset.toNat := by
  have hparts := hfile.holdsParts
  obtain ⟨-, -, htreesAt, -, -⟩ := hfile.toNat_offsets hh
  rw [← hh] at hparts
  rw [htreesAt]
  exact Tables.filled_of_rows (hfile.writes.imports.imp fun _ _ => Assembly.importAt_of_row)
    hparts.imports

theorem trees_filled :
    Tables.Filled (Tables.TreeAt file.toArray (ms.pool m) (Assembly.codeOf m ms bs).sites)
      (fun tree => 8 + 8 * (Assembly.animationsOf (Assembly.codeOf m ms bs).sites tree).length)
      ms.trees h.animTreeOffset.toNat h.stringFixupOffset.toNat := by
  have hparts := hfile.holdsParts
  obtain ⟨-, -, -, hfixupsAt, -⟩ := hfile.toNat_offsets hh
  rw [← hh] at hparts
  rw [hfixupsAt]
  exact Tables.filled_of_rows (hfile.writes.trees.imp fun _ _ => Assembly.treeAt_of_row)
    hparts.trees

theorem fixups_filled :
    Tables.Filled (Tables.FixupAt file.toArray) (fun f => 4 + 4 * f.refs.length)
      (Assembly.fixupsOf (Assembly.codeOf m ms bs).sites) h.stringFixupOffset.toNat
      h.fixupOffset.toNat := by
  have hparts := hfile.holdsParts
  obtain ⟨-, -, -, -, hstopAt⟩ := hfile.toNat_offsets hh
  rw [← hh] at hparts
  rw [hstopAt]
  refine Tables.filled_of_rows ?_ hparts.fixups
  obtain ⟨written, hwritten, hfixups⟩ := hfile.writes.fixups
  rw [hfixups, Assembly.fixupsOf, List.flatMap_def]
  refine List.rel_flatten ?_
  rw [List.forall₂_map_left_iff]
  exact hwritten.imp fun _ _ => Assembly.fixupsAt_of_rows

end

theorem tiles {h : Header} (hh : h = r.header flags m ms (Assembly.codeOf m ms bs)) :
    Tiles file.toArray h (ms.pool m) m.includeList (Code.joined bs) := by
  have hparts := hfile.holdsParts
  have hincludesAt := hfile.toNat_includeOffset
  have hcodeAt := hfile.toNat_codeOffset_eq
  have hpadding := hfile.holds_padding
  have hstop := hfile.toNat_fixupOffset
  obtain ⟨hexportsAt, himportsAt, -⟩ := hfile.toNat_offsets hh
  rw [← hh] at hparts hincludesAt hcodeAt hstop
  have hfits : (Code.joined bs).length < 2 ^ 32 :=
    Nat.lt_of_le_of_lt (Nat.le_add_left ..) hfile.holds_code.2
  have hcounts := hfile.writes.countedBy flags
  rw [← hh] at hcounts
  have hsize : h.codeSize.toNat = (Code.joined bs).length := by
    rw [hh]
    exact toNat_ofNat_of_lt hfits
  exact {
    strings := hparts.pool
    includes_at := hincludesAt
    includes := by
      rw [List.flatMap_def]
      exact hparts.includes
    includes_count := hcounts.includes
    padding := by
      rw [hcounts.includes, hcodeAt, hincludesAt]
      exact ⟨_, Nat.le_of_lt_succ (Word.padding_lt (by decide) _), rfl, hpadding⟩
    aligned := by
      rw [hcodeAt]
      exact Word.add_padding_mod_four _
    code := hparts.code
    code_size := hsize
    crc := by rw [hh]; rfl
    exports_at := by rw [hexportsAt, hsize]
    imports_at := by rw [himportsAt, hcounts.exports, Assembly.length_exportRows hfile.writes.exports,
      hfile.writes.exports.length_eq]
    imports := by
      rw [hcounts.imports, ← hfile.writes.imports.length_eq]
      exact (hfile.imports_filled hh).spans fun _ _ => Tables.ImportAt.width_eq
    trees := by
      rw [hcounts.trees, ← hfile.writes.trees.length_eq]
      exact (hfile.trees_filled hh).spans fun _ _ => Tables.TreeAt.width_eq
    fixups := by
      refine ⟨_, ?_, (hfile.fixups_filled hh).spans fun _ _ => Tables.FixupAt.width_eq⟩
      rw [hcounts.fixups, hfile.writes.length_fixups, Assembly.length_fixupsOf]
    stop := hstop
    profile := by
      have hprofile : h.profileOffset = h.fixupOffset := by rw [hh]; rfl
      rw [hprofile]
      exact hstop }

end FileOf

def Tables.ReadsExports (img : Image) (h : Header) (exports : List Export) : Prop :=
  exports.length = h.exportsCount.toNat ∧
    ∀ i e, exports[i]? = some e → ExportAt img (h.exportsOffset.toNat + 12 * i) e

theorem assemble_tiles {t : OpcodeTable} {flags : UInt8} {m : Module} {a : Assembled}
    (h : assemble t flags m = .ok a) (hlength : a.file.length < 2 ^ 32) :
    ∃ ms header, Mentions.ofModule t m = .ok ms ∧
      Disassembly.header a.file.toArray = .ok header ∧
      Tiles a.file.toArray header (ms.pool m) m.includeList a.script ∧
      ∃ exports, exports.map Export.name = m.functionList.map Function.name ∧
        Tables.ReadsExports a.file.toArray header exports ∧
        ExportSizes.derive a.file.toArray (exports.map ExportSizes.unsized)
          (header.codeOffset + header.codeSize) = .ok exports ∧
        ∀ e ∈ exports, ∃ body, Image.slice a.file.toArray e.offset.toNat e.size.toNat = .ok body ∧
          e.checksum = Crc32.checksum body := by
  obtain ⟨hnamed, hbuiltIn⟩ := Assembly.assemble_eq_ok_iff_named.mp h
  obtain ⟨ms, bs, r, hfile, hscript⟩ := exists_fileOf_script hbuiltIn hlength
  have hparts := hfile.holdsParts
  have htiles := hfile.tiles rfl
  rw [← hscript] at htiles
  generalize hh : r.header flags m ms (Assembly.codeOf m ms bs) = header at *
  have hstart : header.codeOffset = Assembly.codeOffset (ms.pool m) m.includeList := by
    rw [← hh]
    rfl
  obtain ⟨hcode, hfit⟩ := hfile.holds_code
  have hend := hparts.code_stop
  rw [hstart] at hend
  refine ⟨ms, header, Mentions.ofModule_eq_ok_iff_named.mpr ⟨hnamed, hfile.mentions⟩,
    Disassembly.header_of_parts hparts, htiles, (Assembly.codeOf m ms bs).exports, ?_, ⟨?_, ?_⟩, ?_, ?_⟩
  · exact Code.map_name_exportsFrom hfile.lays
  · rw [← hh]
    exact (Word.toNat_ofNat16 hfile.writes.exports_le).symm
  · intro i e he
    exact Assembly.exportAt_of_rows hfile.writes.exports hparts.exports he
  · rw [hstart]
    exact ExportSizes.derive_exports hfile.lays hcode hend
  · intro e he
    exact hfile.lays.body_of_export hcode hfit he

theorem assemble_tiles_callingModule :
    ∃ a ms header, assemble .builtIn 1 callingModule = .ok a ∧ a.file.length < 2 ^ 32 ∧
      Mentions.ofModule .builtIn callingModule = .ok ms ∧
      Disassembly.header a.file.toArray = .ok header ∧
      Tiles a.file.toArray header (ms.pool callingModule) callingModule.includeList a.script := by
  obtain ⟨a, ha, hlength⟩ : ∃ a, assemble .builtIn 1 callingModule = .ok a ∧
      decide (a.file.length < 2 ^ 32) = true := Except.exists_of_any (by decide +kernel)
  obtain ⟨ms, header, hms, hheader, htiles, -⟩ := assemble_tiles ha (of_decide_eq_true hlength)
  exact ⟨a, ms, header, ha, of_decide_eq_true hlength, hms, hheader, htiles⟩

end ScriptCodec

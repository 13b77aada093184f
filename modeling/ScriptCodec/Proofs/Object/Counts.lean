import ScriptCodec.Proofs.Object.Consistency
import ScriptCodec.Proofs.Object.FixupTable

/-!
The counts of an assembled file. Every count stands before or points to exactly as many records as
it says, and what does not fit its field is refused, with one exception: the number of string
fixups in the header is kept modulo `2^16`, so a module with too many of them assembles to a file
whose reader loses some.
-/
namespace ScriptCodec

/-- The counts among the operands of an instruction, which its records follow up to its end. -/
structure Placed.CountsOperands (img : Image) (x : Placed) : Prop where
  locals : x.inst.opcode.kind? = some .locals → ∃ n, ∃ keys : List UInt16,
    img.u8 (x.addr.toNat + 1) = .ok n ∧ n.toNat = keys.length ∧
      keys.length = x.inst.args.length ∧
      img.Holds (x.addr.toNat + 2) (Code.localBytes (x.addr.toNat + 2) keys) ∧
      x.addr.toNat + x.size.toNat =
        x.addr.toNat + 2 + (Code.localBytes (x.addr.toNat + 2) keys).length
  cases : x.inst.opcode.kind? = some .cases → ∃ n, ∃ values : List Int,
    img.u32 (alignUp 4 (x.addr.toNat + 1)) = .ok n ∧ 2 * n.toNat = values.length ∧
      values.length = x.inst.args.length ∧
      img.Holds (alignUp 4 (x.addr.toNat + 1) + 4) (values.flatMap (Word.intBytes 4)) ∧
      x.addr.toNat + x.size.toNat = alignUp 4 (x.addr.toNat + 1) + 4 + 4 * values.length

/-- The records of a file fill their tables, and there are as many as the header says, but that the
number of string fixups may wrap. -/
structure CountsRecords (img : Image) (h : Header) (m : Module) (ms : Mentions) (code : Code) :
    Prop where
  includes_count : h.includeCount.toNat = m.includeList.length
  includes : ∃ stop, Tables.Filled
      (fun pos name => img.Holds pos (Assembly.includeBytes (ms.pool m) name)) (fun _ => 4)
      m.includeList h.includeOffset.toNat stop ∧
    stop ≤ h.codeOffset.toNat ∧ h.codeOffset.toNat < stop + 4
  exports_count : h.exportsCount.toNat = code.exports.length
  exports : Tables.Filled (Tables.ExportAt img) (fun _ => 12) code.exports h.exportsOffset.toNat
    h.importsOffset.toNat
  imports_count : h.importsCount.toNat = (ms.imports m).length
  imports : Tables.Filled (Tables.ImportAt img code.sites)
    (fun d => 8 + 4 * (Assembly.refsTo code.sites d.callee).length) (ms.imports m)
    h.importsOffset.toNat h.animTreeOffset.toNat
  trees_count : h.animTreeCount.toNat = ms.trees.length
  trees : Tables.Filled (Tables.TreeAt img (ms.pool m) code.sites)
    (fun tree => 8 + 8 * (Assembly.animationsOf code.sites tree).length) ms.trees
    h.animTreeOffset.toNat h.stringFixupOffset.toNat
  fixups_count : h.stringFixupCount.toNat = (Assembly.fixupsOf code.sites).length % 2 ^ 16
  fixups : Tables.Filled (Tables.FixupAt img) (fun f => 4 + 4 * f.refs.length)
    (Assembly.fixupsOf code.sites) h.stringFixupOffset.toNat h.fixupOffset.toNat
  stop : h.fixupOffset.toNat = img.size

namespace Code

variable {img : Image} {ctx : Context} {lay : Layout} {dev : Bool} {x : Placed} {e : Emitted}

theorem Encodes.countsOperands (h : Encodes ctx lay dev x e)
    (hsize : instructionSize x.inst.opcode x.addr x.inst.args = .ok x.size)
    (hheld : img.Holds x.addr.toNat e.bytes) (hfit : x.addr.toNat + e.bytes.length < 2 ^ 32) :
    x.CountsOperands img := by
  obtain ⟨kind, v, operand, hkind, hread, hemits, rfl, hxsize⟩ := h
  have heven := Disassembly.even_of_read hkind hread hsize
  have hbytes := ((Image.holds_append (a := [x.inst.opcode])).mp hheld).2
  have hwhole : x.size.toNat = operand.bytes.length + 1 := by
    rw [hxsize, toNat_ofNat_of_lt (show _ < 2 ^ 32 by omega)]
    rfl
  constructor
  · intro hlocals
    obtain rfl := Option.some_inj.mp (hkind.symm.trans hlocals)
    cases hemits with
    | @locals names keys hkeys =>
      simp only [OperandKind.read] at hread
      split at hread
      · cases hread
      · rename_i hcount
        obtain rfl := OperandValue.locals.inj (Except.ok.inj hread)
        have hparts := (Image.holds_append (a := [UInt8.ofNat x.inst.args.length])).mp hbytes
        refine ⟨_, keys, hparts.1.u8, ?_, hkeys.length_eq.symm, hparts.2, ?_⟩
        · rw [UInt8.toNat_ofNat', hkeys.length_eq]
          rw [hkeys.length_eq] at hcount
          omega
        · rw [hwhole, List.length_cons]
          omega
  · intro hcases
    obtain rfl := Option.some_inj.mp (hkind.symm.trans hcases)
    cases hemits with
    | cases values =>
      have hpairs := heven values rfl
      have hcount := (OperandValue.read_cases hread).2
      have hlength := length_caseBytes values
      simp only [List.length_append, List.length_cons, length_pad, Word.length_toBytes, hlength]
        at hwhole hfit
      simp only [Image.holds_append, List.length_append, length_pad, Word.length_toBytes] at hbytes
      obtain ⟨⟨-, hpairCount⟩, hvalues⟩ := hbytes
      rw [Word.toBytes_four (by omega)] at hpairCount
      refine ⟨_, values, hpairCount.u32, ?_, hcount.symm, ?_, ?_⟩
      · rw [toNat_ofNat_of_lt (by omega)]
        omega
      · rwa [← Nat.add_assoc] at hvalues
      · rw [hwhole, alignUp]
        omega

theorem exists_countsOperands (himg : img.size < 2 ^ 32) {fn : Function} {start : UInt32}
    {b : Body} (hbody : EncodesBody ctx fn start b)
    (hheld : img.Holds start.toNat b.bytes) (hfit : start.toNat + b.bytes.length < 2 ^ 32) :
    ∃ lay, Layout.ofFunction fn start = .ok lay ∧ ∀ x ∈ lay.placed, x.CountsOperands img := by
  obtain ⟨lay, es, hlay, hes, rfl⟩ := hbody
  have hplaces := (Layout.ofFunction_eq_ok_iff.mp hlay).1
  refine ⟨lay, hlay, ?_⟩
  intro x hx
  obtain ⟨dev, e, he, hheld⟩ := hes.exists_held hplaces hheld hfit x hx
  exact he.countsOperands (hplaces.size_eq x hx) hheld (Nat.lt_of_le_of_lt hheld.stop_le himg)

end Code

namespace FileOf

variable {flags : UInt8} {m : Module} {ms : Mentions} {bs : List Code.Body} {r : Assembly.Rows}
  {file : Bytes} (hfile : FileOf flags m ms bs r file) {h : Header}
  (hh : h = r.header flags m ms (Assembly.codeOf m ms bs))

include hfile hh

theorem includes_filled :
    Tables.Filled (fun pos name => Image.Holds file.toArray pos
        (Assembly.includeBytes (ms.pool m) name)) (fun _ => 4) m.includeList h.includeOffset.toNat
      (h.includeOffset.toNat + 4 * m.includeList.length) := by
  have hparts := hfile.holdsParts
  rw [← hh] at hparts
  have hrows : m.includeList.Forall₂ (fun name row => row.length = 4 ∧
      ∀ pos, Image.Holds file.toArray pos row →
        Image.Holds file.toArray pos (Assembly.includeBytes (ms.pool m) name))
      (m.includeList.map (Assembly.includeBytes (ms.pool m))) := by
    rw [List.forall₂_map_right_iff, List.forall₂_same]
    intro name _
    exact ⟨Word.length_u32 _, fun _ => id⟩
  have hfilled := Tables.filled_of_rows hrows hparts.includes
  rwa [← List.flatMap_def, Assembly.length_includeTable] at hfilled

theorem exports_filled :
    Tables.Filled (Tables.ExportAt file.toArray) (fun _ => 12) (Assembly.codeOf m ms bs).exports
      h.exportsOffset.toNat h.importsOffset.toNat := by
  have hparts := hfile.holdsParts
  obtain ⟨-, himportsAt, -⟩ := hfile.toNat_offsets hh
  rw [← hh] at hparts
  rw [himportsAt]
  refine Tables.filled_of_rows (hfile.writes.exports.imp ?_) hparts.exports
  intro e row hrow
  exact ⟨Assembly.length_exportBytes hrow, fun _ => Assembly.exportAt_of_holds hrow⟩

theorem countsRecords : CountsRecords file.toArray h m ms (Assembly.codeOf m ms bs) := by
  have hcounts := hfile.writes.countedBy flags
  have hincludesAt := hfile.toNat_includeOffset
  have hcodeAt := hfile.toNat_codeOffset_eq
  have hstop := hfile.toNat_fixupOffset
  rw [← hh] at hcounts hincludesAt hcodeAt hstop
  have hpadding := Word.padding_lt (show 0 < 4 by decide)
    (Header.length + (ms.pool m).bytes.length + 4 * m.includeList.length)
  exact {
    includes_count := hcounts.includes
    includes := ⟨_, hfile.includes_filled hh, by omega, by omega⟩
    exports_count := by rw [hcounts.exports, hfile.writes.exports.length_eq]
    exports := hfile.exports_filled hh
    imports_count := by rw [hcounts.imports, hfile.writes.imports.length_eq]
    imports := hfile.imports_filled hh
    trees_count := by rw [hcounts.trees, hfile.writes.trees.length_eq]
    trees := hfile.trees_filled hh
    fixups_count := by
      rw [hcounts.fixups, hfile.writes.length_fixups, Assembly.length_fixupsOf]
    fixups := hfile.fixups_filled hh
    stop := hstop }

end FileOf

theorem CountsRecords.fixups_exact {img : Image} {h : Header} {m : Module} {ms : Mentions}
    {code : Code} (hcounts : CountsRecords img h m ms code) :
    h.stringFixupCount.toNat = (Assembly.fixupsOf code.sites).length ↔
      (Assembly.fixupsOf code.sites).length ≤ 0xFFFF := by
  rw [hcounts.fixups_count]
  omega

theorem assemble_counts {t : OpcodeTable} {flags : UInt8} {m : Module} {a : Assembled}
    (h : assemble t flags m = .ok a) (hlength : a.file.length < 2 ^ 32) :
    ∃ ms code header lays, Mentions.ofModule t m = .ok ms ∧
      Code.emit ⟨t, ms.pool m, ms.imports m⟩ (Assembly.codeOffset (ms.pool m) m.includeList)
        m.functionList = .ok code ∧
      Disassembly.header a.file.toArray = .ok header ∧
      CountsRecords a.file.toArray header m ms code ∧
      (header.stringFixupCount.toNat = (Assembly.fixupsOf code.sites).length ↔
        (Assembly.fixupsOf code.sites).length ≤ 0xFFFF) ∧
      code.exports.map Export.name = m.functionList.map Function.name ∧
      (m.functionList.zip code.exports).Forall₂
        (fun p lay => Layout.ofFunction p.1 p.2.offset = .ok lay) lays ∧
      ∀ lay ∈ lays, ∀ x ∈ lay.placed, x.CountsOperands a.file.toArray := by
  obtain ⟨hnamed, hbuiltIn⟩ := Assembly.assemble_eq_ok_iff_named.mp h
  obtain ⟨ms, bs, r, hfile⟩ := exists_fileOf hbuiltIn hlength
  have hcounts := hfile.countsRecords rfl
  have hsize : a.file.toArray.size < 2 ^ 32 := hlength
  obtain ⟨lays, hlays, hall⟩ := hfile.exists_layouts
    (P := fun lay _ => ∀ x ∈ lay.placed, x.CountsOperands a.file.toArray)
    fun _ _ _ => Code.exists_countsOperands hsize
  refine ⟨ms, Assembly.codeOf m ms bs, _, lays,
    Mentions.ofModule_eq_ok_iff_named.mpr ⟨hnamed, hfile.mentions⟩,
    Code.emitFrom_eq_ok_iff_named.mpr ⟨hnamed, hfile.emit_eq_ok⟩,
    Disassembly.header_of_parts hfile.holdsParts, hcounts, hcounts.fixups_exact,
    Code.map_name_exportsFrom hfile.lays, hlays, ?_⟩
  intro lay hlay
  obtain ⟨b, -, hb⟩ := hall.exists_right hlay
  exact hb

def switchModule : Module where
  name := text "m"
  includes := some [text "lib"]
  functions := some [some ⟨0, 0, 0, 0, text "f", some [
    some ⟨0, 6, 23, some [text "a", text "b"]⟩,
    some ⟨8, 4, 10, some [text "\"a\""]⟩,
    some ⟨12, 20, 90, some [text "1", text "10", text "2", text "20"]⟩,
    some ⟨32, 1, 0, none⟩], none⟩]
  imports := none

theorem assemble_counts_switchModule :
    ∃ a ms code header, assemble .builtIn 0 switchModule = .ok a ∧ a.file.length < 2 ^ 32 ∧
      Mentions.ofModule .builtIn switchModule = .ok ms ∧
      Disassembly.header a.file.toArray = .ok header ∧
      CountsRecords a.file.toArray header switchModule ms code ∧
      (header.stringFixupCount.toNat = (Assembly.fixupsOf code.sites).length ↔
        (Assembly.fixupsOf code.sites).length ≤ 0xFFFF) ∧
      code.exports.map Export.name = [text "f"] := by
  obtain ⟨a, ha, hlength⟩ : ∃ a, assemble .builtIn 0 switchModule = .ok a ∧
      decide (a.file.length < 2 ^ 32) = true := Except.exists_of_any (by decide +kernel)
  obtain ⟨ms, code, header, lays, hms, -, hheader, hcounts, hfixups, hnames, -⟩ :=
    assemble_counts ha (of_decide_eq_true hlength)
  exact ⟨a, ms, code, header, ha, of_decide_eq_true hlength, hms, hheader, hcounts, hfixups, hnames⟩

end ScriptCodec

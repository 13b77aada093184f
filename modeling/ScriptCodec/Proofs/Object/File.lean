import ScriptCodec.Proofs.Object.Mentions

/-!
The shape of an assembled file. It is the header, the string pool, the include table and padding,
the code, and then the rows of the export, import, animation and fixup tables. In a file shorter
than `2^32` bytes every offset in the header is the position of its table.
-/
namespace ScriptCodec

namespace Assembly

structure Rows where
  name : UInt16
  exports : List Bytes
  imports : List Bytes
  trees : List Bytes
  fixups : List Bytes

/-- Rows that say what a module, its mentions and its code say, within the limits of their
counts. -/
structure Writes (m : Module) (ms : Mentions) (code : Code) (r : Rows) : Prop where
  includes_le : m.includeList.length ≤ 255
  trees_le : ms.trees.length ≤ 255
  exports_le : code.exports.length ≤ 0xFFFF
  imports_le : (ms.imports m).length ≤ 0xFFFF
  front : UInt32.ofNat (Header.length + (frontBytes (ms.pool m) m.includeList).length) =
    codeOffset (ms.pool m) m.includeList
  name : nameKey (ms.pool m) m.name = .ok r.name
  exports : code.exports.Forall₂ (fun e row => exportBytes (ms.pool m) e = .ok row) r.exports
  imports : (ms.imports m).Forall₂
    (fun d row => importBytes (ms.pool m) code.sites d = .ok row) r.imports
  trees : ms.trees.Forall₂ (fun t row => treeBytes (ms.pool m) code.sites t = .ok row) r.trees
  fixups : ∃ entries, (literals code.sites).Forall₂
    (fun s rows => fixupEntries (ms.pool m) code.sites s = .ok rows) entries ∧
    r.fixups = entries.flatten

namespace Rows

variable (r : Rows) (flags : UInt8) (m : Module) (ms : Mentions) (code : Code)

def exportsAt : Nat :=
  Header.length + (frontBytes (ms.pool m) m.includeList).length + code.bytes.length

def importsAt : Nat := exportsAt m ms code + r.exports.flatten.length

def treesAt : Nat := importsAt r m ms code + r.imports.flatten.length

def fixupsAt : Nat := treesAt r m ms code + r.trees.flatten.length

def stopAt : Nat := fixupsAt r m ms code + r.fixups.flatten.length

def header : Header where
  magic := Header.magicNumber
  sourceCrc := Crc32.checksum code.bytes
  includeOffset := includeOffset (ms.pool m)
  animTreeOffset := UInt32.ofNat (treesAt r m ms code)
  codeOffset := codeOffset (ms.pool m) m.includeList
  stringFixupOffset := UInt32.ofNat (fixupsAt r m ms code)
  exportsOffset := UInt32.ofNat (exportsAt m ms code)
  importsOffset := UInt32.ofNat (importsAt r m ms code)
  fixupOffset := UInt32.ofNat (stopAt r m ms code)
  profileOffset := UInt32.ofNat (stopAt r m ms code)
  codeSize := UInt32.ofNat code.bytes.length
  name := r.name
  stringFixupCount := UInt16.ofNat r.fixups.length
  exportsCount := UInt16.ofNat code.exports.length
  importsCount := UInt16.ofNat (ms.imports m).length
  fixupCount := 0
  profileCount := 0
  includeCount := UInt8.ofNat m.includeList.length
  animTreeCount := UInt8.ofNat ms.trees.length
  flags

def tables : Bytes :=
  r.exports.flatten ++ r.imports.flatten ++ r.trees.flatten ++ r.fixups.flatten

end Rows

theorem exists_writes {flags : UInt8} {m : Module} {ms : Mentions} {code : Code} {bytes : Bytes}
    (h : stack flags m ms code = .ok bytes) :
    ∃ r : Rows, Writes m ms code r ∧
      bytes = (r.header flags m ms code).bytes ++ frontBytes (ms.pool m) m.includeList ++
        r.tables := by
  simp only [stack] at h
  split at h
  · simp at h
  rename_i hincludes
  split at h
  · simp at h
  rename_i htrees
  split at h
  · simp at h
  rename_i hcounts
  split at h
  · simp at h
  rename_i hfront
  simp only [Except.andThen_eq_ok_iff, List.mapM_eq_ok_iff, Except.pure_eq_ok_iff, Code.inOrder_eq,
    List.reverse_reverse] at h
  obtain ⟨name, hname, exports, hexports, imports, himports, trees, htreeRows, fixups, hfixups,
    rfl⟩ := h
  refine ⟨⟨name, exports, imports, trees, fixups.flatten⟩, ?_, ?_⟩
  · exact {
      includes_le := by omega
      trees_le := by omega
      exports_le := by omega
      imports_le := by omega
      front := not_not.mp hfront
      name := hname
      exports := hexports
      imports := himports
      trees := htreeRows
      fixups := ⟨fixups, hfixups, rfl⟩ }
  · simp only [Rows.tables, List.append_assoc]
    rfl

def context (m : Module) (ms : Mentions) : Code.Context := ⟨.builtIn, ms.pool m, ms.imports m⟩

theorem opcodes_context (m : Module) (ms : Mentions) : (context m ms).opcodes = .builtIn := by
  simp only [context]

def codeOf (m : Module) (ms : Mentions) (bs : List Code.Body) : Code :=
  Code.ofBodies (codeOffset (ms.pool m) m.includeList) m.functionList bs

theorem emit_eq_ok_iff {m : Module} {ms : Mentions} (hms : Mentions.ofModule .builtIn m = .ok ms)
    {code : Code} :
    Code.emit (context m ms) (codeOffset (ms.pool m) m.includeList) m.functionList = .ok code ↔
      ∃ bs, Code.Lays (context m ms) (codeOffset (ms.pool m) m.includeList) 0 m.functionList bs ∧
        code = codeOf m ms bs :=
  Code.emit_eq_ok_iff (opcodes_context m ms) (Mentions.isCounted hms)

theorem assemble_eq_ok_iff {flags : UInt8} {m : Module} {a : Assembled} :
    assemble .builtIn flags m = .ok a ↔
      ∃ ms bs, Mentions.ofModule .builtIn m = .ok ms ∧
        Code.Lays (context m ms) (codeOffset (ms.pool m) m.includeList) 0 m.functionList bs ∧
        stack flags m ms (codeOf m ms bs) = .ok a.stack ∧
        a.codeOffset = codeOffset (ms.pool m) m.includeList ∧ a.script = Code.joined bs := by
  simp only [assemble, run, Assembling.within_eq_ok_iff, Except.andThen_eq_ok_iff,
    Except.pure_eq_ok_iff]
  constructor
  · intro h
    obtain ⟨ms, hms, _, hcode, stack, hstack, rfl⟩ := h
    obtain ⟨bs, hbs, rfl⟩ := (emit_eq_ok_iff hms).mp hcode
    exact ⟨ms, bs, hms, hbs, hstack, rfl, rfl⟩
  · intro h
    obtain ⟨ms, bs, hms, hbs, hstack, hoffset, hscript⟩ := h
    refine ⟨ms, hms, _, (emit_eq_ok_iff hms).mpr ⟨bs, hbs, rfl⟩, a.stack, hstack, ?_⟩
    rw [← hoffset]
    exact congrArg (fun script => (⟨a.codeOffset, script, a.stack⟩ : Assembled)) hscript.symm

end Assembly

@[simp] theorem Header.length_bytes (h : Header) : h.bytes.length = Header.length := by
  simp [Header.bytes, Header.length]

/-- A module, what it mentions, its emitted functions and its table rows as they stand in a file
that is short enough for its offsets. -/
structure FileOf (flags : UInt8) (m : Module) (ms : Mentions) (bs : List Code.Body)
    (r : Assembly.Rows) (file : Bytes) : Prop where
  mentions : Mentions.ofModule .builtIn m = .ok ms
  lays : Code.Lays (Assembly.context m ms) (Assembly.codeOffset (ms.pool m) m.includeList) 0
    m.functionList bs
  writes : Assembly.Writes m ms (Assembly.codeOf m ms bs) r
  file_eq : file = (r.header flags m ms (Assembly.codeOf m ms bs)).bytes ++
    Assembly.frontBytes (ms.pool m) m.includeList ++ Code.joined bs ++ r.tables
  length_lt : file.length < 2 ^ 32

theorem FileOf.emit_eq_ok {flags : UInt8} {m : Module} {ms : Mentions} {bs : List Code.Body}
    {r : Assembly.Rows} {file : Bytes} (h : FileOf flags m ms bs r file) :
    Code.emit (Assembly.context m ms) (Assembly.codeOffset (ms.pool m) m.includeList)
      m.functionList = .ok (Assembly.codeOf m ms bs) :=
  (Assembly.emit_eq_ok_iff h.mentions).mpr ⟨bs, h.lays, rfl⟩

theorem Assembled.length_file (a : Assembled) :
    a.file.length = a.stack.length + a.script.length := by
  rw [file, List.length_append, List.length_append, List.length_take, List.length_drop]
  omega

theorem fileOf_of_writes {flags : UInt8} {m : Module} {ms : Mentions} {bs : List Code.Body}
    {r : Assembly.Rows} {a : Assembled} (hms : Mentions.ofModule .builtIn m = .ok ms)
    (hlays : Code.Lays (Assembly.context m ms) (Assembly.codeOffset (ms.pool m) m.includeList) 0
      m.functionList bs)
    (hwrites : Assembly.Writes m ms (Assembly.codeOf m ms bs) r)
    (hoffset : a.codeOffset = Assembly.codeOffset (ms.pool m) m.includeList)
    (hscript : a.script = Code.joined bs)
    (hstack : a.stack = (r.header flags m ms (Assembly.codeOf m ms bs)).bytes ++
      Assembly.frontBytes (ms.pool m) m.includeList ++ r.tables)
    (hlength : a.file.length < 2 ^ 32) : FileOf flags m ms bs r a.file := by
  refine ⟨hms, hlays, hwrites, ?_, hlength⟩
  have hfront : a.codeOffset.toNat = ((r.header flags m ms (Assembly.codeOf m ms bs)).bytes ++
      Assembly.frontBytes (ms.pool m) m.includeList).length := by
    rw [Assembled.length_file, hstack, List.length_append, List.length_append,
      Header.length_bytes] at hlength
    rw [hoffset, ← hwrites.front, UInt32.toNat_ofNat', List.length_append, Header.length_bytes]
    exact Nat.mod_eq_of_lt (by omega)
  rw [Assembled.file, hfront, hstack, List.take_left, List.drop_left, hscript]

theorem exists_fileOf_script {flags : UInt8} {m : Module} {a : Assembled}
    (h : assemble .builtIn flags m = .ok a) (hlength : a.file.length < 2 ^ 32) :
    ∃ ms bs r, FileOf flags m ms bs r a.file ∧ a.script = Code.joined bs := by
  obtain ⟨ms, bs, hms, hlays, hstack, hoffset, hscript⟩ := Assembly.assemble_eq_ok_iff.mp h
  obtain ⟨r, hwrites, hbytes⟩ := Assembly.exists_writes hstack
  exact ⟨ms, bs, r, fileOf_of_writes hms hlays hwrites hoffset hscript hbytes hlength, hscript⟩

theorem exists_fileOf {flags : UInt8} {m : Module} {a : Assembled}
    (h : assemble .builtIn flags m = .ok a) (hlength : a.file.length < 2 ^ 32) :
    ∃ ms bs r, FileOf flags m ms bs r a.file := by
  obtain ⟨ms, bs, r, hfile, -⟩ := exists_fileOf_script h hlength
  exact ⟨ms, bs, r, hfile⟩

end ScriptCodec

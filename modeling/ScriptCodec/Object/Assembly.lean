import ScriptCodec.Object.Code

/-!
Assembling a module into a script object. The metadata is written around the code: header, string
pool and include table before it, then exports, imports, animation trees and string fixups, whose
offsets count the code in. A count that does not fit its field is an error, except that the number
of string fixup entries is kept modulo 2^16.
-/
namespace ScriptCodec

/-- The code segment, and the metadata segment it goes into at `codeOffset`. -/
structure Assembled where
  codeOffset : UInt32
  script : Bytes
  stack : Bytes
deriving DecidableEq, Repr

def Assembled.file (a : Assembled) : Bytes :=
  a.stack.take a.codeOffset.toNat ++ a.script ++ a.stack.drop a.codeOffset.toNat

namespace Assembly

/-- The references to a callee, each with whether it stands in a development block. -/
def refsTo (sites : List Site) (c : Callee) : List (UInt32 × Bool) :=
  sites.filterMap fun
    | .call d addr dev => if d = c then some (addr, dev) else none
    | _ => none

def animationsOf (sites : List Site) (tree : Bytes) : List Animation :=
  sites.filterMap fun
    | .animation t anim addr => if t = tree then some ⟨anim, addr⟩ else none
    | _ => none

def literalRefs (sites : List Site) (s : Bytes) : List UInt32 :=
  sites.filterMap fun
    | .literal t addr => if t = s then some addr else none
    | _ => none

/-- The strings that 16-bit keys refer to, in the order of first use. -/
def literals (sites : List Site) : List Bytes :=
  (sites.filterMap fun
    | .literal s _ => some s
    | _ => none).eraseDups

def exportBytes (pool : StringPool) (e : Export) : Assembling Bytes :=
  (Assembling.ofPool (pool.key16 e.name)).map fun key =>
    Word.u32 e.checksum ++ Word.u32 e.offset ++ Word.u16 key ++ [e.params, e.flags]

def importBytes (pool : StringPool) (sites : List Site) (d : ImportDecl) : Assembling Bytes := do
  let refs := refsTo sites d.callee
  if 0xFFFF < refs.length then Assembling.fail (.importRefs d.name refs.length)
  else
    let nameKey ← Assembling.ofPool (pool.key16 d.name)
    let spaceKey ← Assembling.ofPool (pool.key16 d.space)
    let devOnly := !refs.isEmpty && refs.all Prod.snd
    let kind := if devOnly then d.kind ||| Import.devFlag else d.kind
    return Word.u16 nameKey ++ Word.u16 spaceKey ++ Word.toBytes 2 refs.length ++
      [d.params, kind] ++ refs.flatMap fun r => Word.u32 r.1

def animationBytes (pool : StringPool) (a : Animation) : Bytes :=
  Word.u32 ((pool.offset? a.name).getD 0) ++ Word.u32 a.ref

def treeBytes (pool : StringPool) (sites : List Site) (tree : Bytes) : Assembling Bytes := do
  let anims := animationsOf sites tree
  if 0xFFFF < anims.length then Assembling.fail (.treeAnims tree anims.length)
  else
    let key ← Assembling.ofPool (pool.key16 tree)
    return Word.u16 key ++ Word.toBytes 2 0 ++ Word.toBytes 2 anims.length ++ Word.toBytes 2 0 ++
      anims.flatMap (animationBytes pool)

def maxFixupRefs : Nat := 255

def chunks {α : Type} (n : Nat) (xs : List α) : List (List α) :=
  if xs.isEmpty ∨ n = 0 then [] else xs.take n :: chunks n (xs.drop n)
termination_by xs.length
decreasing_by
  rename_i h
  simp only [not_or, List.isEmpty_iff] at h
  have := List.length_pos_iff.mpr h.1
  simp only [List.length_drop]
  omega

/-- The entries of one string, of which there are several when it has many references. -/
def fixupEntries (pool : StringPool) (sites : List Site) (s : Bytes) : Assembling (List Bytes) :=
  (Assembling.ofPool (pool.key16 s)).map fun key =>
    (chunks maxFixupRefs (literalRefs sites s)).map fun refs =>
      Word.u16 key ++ [UInt8.ofNat refs.length, 0] ++ refs.flatMap Word.u32

def includeBytes (pool : StringPool) (name : Bytes) : Bytes :=
  Word.u32 ((pool.offset? name).getD 0)

def frontBytes (pool : StringPool) (includes : List Bytes) : Bytes :=
  let front := pool.bytes ++ includes.flatMap (includeBytes pool)
  front ++ Code.pad 4 (Header.length + front.length)

def includeOffset (pool : StringPool) : UInt32 := pool.stop

def codeOffset (pool : StringPool) (includes : List Bytes) : UInt32 :=
  let after := pool.stop + 4 * UInt32.ofNat includes.length
  after + UInt32.ofNat (Word.padding 4 after.toNat)

def nameKey (pool : StringPool) (name : Bytes) : Assembling UInt16 :=
  if name.isEmpty then .ok 0 else Assembling.ofPool (pool.key16 name)

def stack (flags : UInt8) (m : Module) (ms : Mentions) (code : Code) : Assembling Bytes := do
  let pool := ms.pool m
  let includes := m.includeList
  let decls := ms.imports m
  let trees := ms.trees
  if 255 < includes.length then Assembling.fail (.tooManyIncludes includes.length)
  if 255 < trees.length then Assembling.fail (.tooManyTrees trees.length)
  if 0xFFFF < code.exports.length ∨ 0xFFFF < decls.length then
    Assembling.fail (.tableLimit code.exports.length decls.length)
  let front := frontBytes pool includes
  let frontLength := Header.length + front.length
  let start := codeOffset pool includes
  if UInt32.ofNat frontLength ≠ start then Assembling.fail (.misplacedCode frontLength start)
  let name ← nameKey pool m.name
  let exports ← code.exports.mapM (exportBytes pool)
  let imports ← decls.mapM (importBytes pool code.sites)
  let treeRows ← trees.mapM (treeBytes pool code.sites)
  let fixups ← (literals code.sites).mapM (fixupEntries pool code.sites)
  let exportTable := exports.flatten
  let importTable := imports.flatten
  let treeTable := treeRows.flatten
  let fixupRows := fixups.flatten
  let fixupTable := Code.inOrder fixupRows.reverse
  let exportsAt := frontLength + code.bytes.length
  let importsAt := exportsAt + exportTable.length
  let treesAt := importsAt + importTable.length
  let fixupsAt := treesAt + treeTable.length
  let stop := fixupsAt + fixupTable.length
  let header : Header := {
    magic := Header.magicNumber
    sourceCrc := Crc32.checksum code.bytes
    includeOffset := includeOffset pool
    animTreeOffset := UInt32.ofNat treesAt
    codeOffset := start
    stringFixupOffset := UInt32.ofNat fixupsAt
    exportsOffset := UInt32.ofNat exportsAt
    importsOffset := UInt32.ofNat importsAt
    fixupOffset := UInt32.ofNat stop
    profileOffset := UInt32.ofNat stop
    codeSize := UInt32.ofNat code.bytes.length
    name := name
    stringFixupCount := UInt16.ofNat fixupRows.length
    exportsCount := UInt16.ofNat code.exports.length
    importsCount := UInt16.ofNat decls.length
    fixupCount := 0
    profileCount := 0
    includeCount := UInt8.ofNat includes.length
    animTreeCount := UInt8.ofNat trees.length
    flags }
  return header.bytes ++ front ++ exportTable ++ importTable ++ treeTable ++ fixupTable

def run (opcodes : OpcodeTable) (flags : UInt8) (m : Module) : Assembling Assembled := do
  let ms ← Mentions.ofModule opcodes m
  let pool := ms.pool m
  let start := codeOffset pool m.includeList
  let code ← Code.emit ⟨opcodes, pool, ms.imports m⟩ start m.functionList
  let stack ← stack flags m ms code
  return ⟨start, code.bytes, stack⟩

end Assembly

def assemble (opcodes : OpcodeTable) (flags : UInt8) (m : Module) : Assembling Assembled :=
  (Assembly.run opcodes flags m).within (.script m.name)

end ScriptCodec

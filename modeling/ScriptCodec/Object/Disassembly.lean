import ScriptCodec.Object.Tables
import ScriptCodec.Opcode.Table
import ScriptCodec.Module.Operand

/-!
Decoding a script object. All tables are read first; then every exported function is decoded from
its byte range, instruction after instruction, until the range is used up. An instruction's size
is its base size plus the padding and list entries met on the way. Branch operands become labels
named after their target. Any failure ends the decoding.
-/
namespace ScriptCodec

structure DecodeTables where
  opcodes : OpcodeTable
  strings : StringTable
  /-- the tree an animation operand at an address belongs to -/
  treeAt : Std.TreeMap UInt32 AnimTree
  /-- the import an instruction at an address refers to -/
  importAt : Std.TreeMap UInt32 Import

namespace Disassembly

structure OperandRead where
  operands : Option (List Bytes)
  /-- the bytes beyond the base size -/
  extra : Nat
  /-- the position after the operands -/
  next : Nat
  target : Option UInt32 := none

def aligned (img : Image) (width pos : Nat) : Except RangeFault (Nat × Nat × Nat) :=
  let pad := Word.padding width pos
  (img.word width (pos + pad)).map fun v => (v, pad, pos + pad + width)

def signedWord (width v : Nat) : Int := Int.bmod v (Word.modulus width)

def localsFrom (img : Image) (extra pos : Nat) (keys : List UInt32) :
    Nat → Except RangeFault (List UInt32 × Nat × Nat)
  | 0 => .ok (keys.reverse, extra, pos)
  | count + 1 =>
    (aligned img 2 pos).bind fun (key, pad, next) =>
      localsFrom img (extra + pad + 2) next (UInt32.ofNat key :: keys) count

def listed (operands : List Bytes) : Option (List Bytes) :=
  if operands.isEmpty then none else some operands

def caseValues (words : List UInt32) : List Bytes :=
  words.map fun w => Text.decimalInt (signedWord 4 w.toNat)

def calleeOperands (space name : Bytes) : List Bytes :=
  if space.isEmpty then [name] else [space, name]

def branch (img : Image) (kind : OperandKind) (start : UInt32) (width pos : Nat) :
    Except RangeFault OperandRead :=
  (aligned img width pos).map fun (v, extra, next) =>
    let size := UInt32.ofNat (kind.baseSize + extra)
    let target := Branch.target start size (signedWord width v)
    { operands := some [Labels.nameOf target], extra, next, target := some target }

/-- The import reference of a call or function operand, found by the instruction's address. -/
def calleeRead (t : DecodeTables) (op : Opcode) (start key : UInt32) (extra next : Nat) :
    Decoding OperandRead :=
  let name := t.strings.lookup key
  match t.importAt[start]? with
  | none => Decoding.fail (.noImport op (name.toOption.getD []) start)
  | some entry =>
    (name.within (.instruction op start)).map fun name =>
      { operands := some (calleeOperands entry.space name), extra, next }

def operands (t : DecodeTables) (img : Image) (op : Opcode) (kind : OperandKind) (start : UInt32)
    (pos : Nat) : Decoding OperandRead :=
  let range {α : Type} (r : Except RangeFault α) : Decoding α :=
    (Decoding.ofRange r).within (.instruction op start)
  let lookup (key : UInt32) : Decoding Bytes :=
    (t.strings.lookup key).within (.instruction op start)
  match kind with
  | .none => .ok { operands := none, extra := 0, next := pos }
  | .byte => do
    let v ← range (img.u8 pos)
    return { operands := some [Text.decimal v.toNat], extra := 0, next := pos + 1 }
  | .short => do
    let (v, extra, next) ← range (aligned img 2 pos)
    return { operands := some [Text.decimal v], extra, next }
  | .integer => do
    let (v, extra, next) ← range (aligned img 4 pos)
    return { operands := some [Text.decimalInt (signedWord 4 v)], extra, next }
  | .float => do
    let (v, extra, next) ← range (aligned img 4 pos)
    return { operands := some [FloatText.scalar (UInt32.ofNat v)], extra, next }
  | .vector => do
    let extra := Word.padding 4 pos
    let components ← range (Tables.words img (pos + extra) 3)
    return { operands := some (components.map FloatText.component), extra,
             next := pos + extra + 12 }
  | .string => do
    let (key, extra, next) ← range (aligned img 2 pos)
    let s ← lookup (UInt32.ofNat key)
    return { operands := some [Text.quote s], extra, next }
  | .field => do
    let (key, extra, next) ← range (aligned img 2 pos)
    let s ← lookup (UInt32.ofNat key)
    return { operands := some [s], extra, next }
  | .animation => do
    let (key, extra, next) ← range (aligned img 4 pos)
    let ref := UInt32.ofNat (pos + extra)
    match t.treeAt[ref]? with
    | none => Decoding.fail (.noTree op start ref)
    | some tree =>
      let anim := Text.quote (t.strings.lookupAnim (UInt32.ofNat key))
      return { operands := some [tree.name, anim], extra, next }
  | .hash => do
    let (v, extra, next) ← range (aligned img 4 pos)
    return { operands := some [Text.hex v], extra, next }
  | .locals => do
    let count ← range (img.u8 pos)
    let (keys, extra, next) ← range (localsFrom img 0 (pos + 1) [] count.toNat)
    let names ← keys.mapM lookup
    return { operands := listed names, extra, next }
  | .cases => do
    let (count, pad, next) ← range (aligned img 4 pos)
    if img.size - next < count * 8 then
      Decoding.fail (.tooManyCases op start (UInt32.ofNat count))
    else
      let values ← range (Tables.words img next (2 * count))
      return { operands := listed (caseValues values), extra := pad + 8 * count,
               next := next + 8 * count }
  | .call => do
    let pos ← range (img.seek (pos + 1))
    let (key, extra, next) ← range (aligned img 4 pos)
    calleeRead t op start (UInt32.ofNat key) extra next
  | .function => do
    let (key, extra, next) ← range (aligned img 4 pos)
    calleeRead t op start (UInt32.ofNat key) extra next
  | .jump => range (branch img kind start 2 pos)
  | .longJump => range (branch img kind start 4 pos)

structure Step where
  inst : Instruction
  size : Nat
  size_pos : 0 < size
  next : Nat
  target : Option UInt32

def instruction (t : DecodeTables) (img : Image) (pos : Nat) : Decoding Step :=
  let start := UInt32.ofNat pos
  ((Decoding.ofRange (img.u8 pos)).within (.opcode start)).bind fun (op : Opcode) =>
    if !t.opcodes.knows op then Decoding.fail (.unhandledOpcode op start)
    else match op.kind? with
      | none => Decoding.fail (.unhandledOpcode op start)
      | some kind =>
        (operands t img op kind start (pos + 1)).map fun read =>
          let size := kind.baseSize + read.extra
          { inst := ⟨start, UInt32.ofNat size, op, read.operands⟩
            size
            size_pos := Nat.lt_of_lt_of_le kind.baseSize_pos (Nat.le_add_right ..)
            next := read.next
            target := read.target }

/-- Decodes until `remaining` bytes are used up; `stop` is where they end. -/
def codeFrom (t : DecodeTables) (img : Image) (stop : UInt32) (pos remaining : Nat)
    (done : List Instruction) (targets : List UInt32) :
    Decoding (List Instruction × List UInt32) :=
  if remaining = 0 then .ok (done.reverse, targets.reverse)
  else match instruction t img pos with
    | .error e => .error e
    | .ok step =>
      if remaining < step.size then
        Decoding.fail (.overrun step.inst.opcode step.inst.offset (step.size - remaining) stop)
      else
        codeFrom t img stop step.next (remaining - step.size) (step.inst :: done)
          (step.target.toList ++ targets)
termination_by remaining
decreasing_by
  have := step.size_pos
  omega

def function (t : DecodeTables) (img : Image) (e : Export) : Decoding Function := do
  let pos ← Decoding.ofRange (img.seek e.offset.toNat)
  let (code, targets) ← codeFrom t img (e.offset + e.size) pos e.size.toNat [] []
  return {
    offset := e.offset
    size := e.size
    params := e.params
    flags := e.flags
    name := e.name
    instructions := if code.isEmpty then none else some (code.map some)
    labels := some (Labels.ofTargets targets) }

def header (img : Image) : Decoding Header :=
  if img.size < Header.length then Decoding.fail (.shortHeader img.size)
  else (Decoding.ofRange (Header.read img)).bind fun h =>
    if h.magic = Header.magicNumber then .ok h else Decoding.fail (.badMagic h.magic)

/-- Which tree each animation reference belongs to; a later tree takes it from an earlier one. -/
def treeIndex (trees : List AnimTree) : Std.TreeMap UInt32 AnimTree :=
  trees.foldl (fun m tree => tree.anims.foldl (fun m anim => m.insert anim.ref tree) m) {}

/-- Which import each code reference belongs to; a later import takes it from an earlier one. -/
def importIndex (imports : List Import) : Std.TreeMap UInt32 Import :=
  imports.foldl (fun m entry => entry.refs.foldl (fun m ref => m.insert ref entry) m) {}

def declOf (entry : Import) : ImportDecl := ⟨entry.space, entry.name, entry.params, entry.kind⟩

def presentList {α : Type} (xs : List α) : Option (List α) := if xs.isEmpty then none else some xs

structure Sections where
  header : Header
  strings : StringTable
  includes : List Bytes
  animTrees : List AnimTree
  fixups : List StringFixup
  imports : List Import
  exports : List Export

def sections (img : Image) : Decoding Sections := do
  let h ← (header img).within (.table .header)
  let strings ← (Tables.strings img h).within (.table .strings)
  let includes ← (Tables.includes img h strings).within (.table .includes)
  let animTrees ← (Tables.animTrees img h strings).within (.table .animTrees)
  let fixups ← (Tables.stringFixups img h strings).within (.table .stringFixups)
  let imports ← (Tables.imports img h strings).within (.table .imports)
  let exports ← (Tables.exports img h strings).within (.table .exports)
  return { header := h, strings, includes, animTrees, fixups, imports, exports }

def Sections.tables (s : Sections) (opcodes : OpcodeTable) : DecodeTables where
  opcodes
  strings := s.strings
  treeAt := treeIndex s.animTrees
  importAt := importIndex s.imports

def exportedFunction (t : DecodeTables) (img : Image) (e : Export) : Decoding Function :=
  (function t img e).within (.function e.name)

def Sections.object (s : Sections) (functions : List Function) : ScriptObject where
  header := s.header
  includes := s.includes
  animTrees := s.animTrees
  fixups := s.fixups
  imports := s.imports
  exports := s.exports
  body := {
    name := s.strings.lookupAnim s.header.name.toUInt32
    includes := presentList s.includes
    functions := some (functions.map some)
    imports := presentList (s.imports.map declOf) }

end Disassembly

def disassemble (opcodes : OpcodeTable) (img : Image) : Decoding ScriptObject := do
  let s ← Disassembly.sections img
  let functions ← s.exports.mapM (Disassembly.exportedFunction (s.tables opcodes) img)
  return s.object functions

end ScriptCodec

import ScriptCodec.Object.Mention
import ScriptCodec.Object.ExportSizes
import ScriptCodec.Binary.Crc32

/-!
The code segment. Functions are laid out one at a time: every instruction gets its address, the
labels are resolved against the addresses, and then the bytes are emitted. Emission also lists
the sites in the code that the import, animation and string fixup tables refer to.
-/
namespace ScriptCodec

inductive Site where
  /-- a 16-bit string key -/
  | literal (s : Bytes) (addr : UInt32)
  /-- an instruction with a callee, and whether it stands in a development block -/
  | call (callee : Callee) (addr : UInt32) (dev : Bool)
  /-- an animation operand -/
  | animation (tree anim : Bytes) (addr : UInt32)
deriving DecidableEq, Repr

structure Placed where
  inst : Instruction
  addr : UInt32
  size : UInt32
deriving DecidableEq, Repr

structure Layout where
  placed : List Placed
  stop : UInt32
  labels : List ResolvedLabel

namespace Layout

def placeFrom (done : List Placed) (addr : UInt32) :
    List Instruction → Except SizeFault (List Placed × UInt32)
  | [] => .ok (done.reverse, addr)
  | inst :: rest =>
    (instructionSize inst.opcode addr inst.args).bind fun size =>
      placeFrom (⟨inst, addr, size⟩ :: done) (addr + size) rest

def place (start : UInt32) (code : List Instruction) : Except SizeFault (List Placed × UInt32) :=
  placeFrom [] start code

def ofFunction (fn : Function) (start : UInt32) : Assembling Layout :=
  match place start fn.code with
  | .error fault => Assembling.fail (.size fault)
  | .ok (placed, stop) =>
    match fn.resolveLabels (placed.map Placed.addr) stop with
    | .error fault => Assembling.fail (.label fault)
    | .ok labels => .ok ⟨placed, stop, labels⟩

def addressOf? (lay : Layout) (name : Bytes) : Option UInt32 :=
  (lay.labels.find? fun l => l.name == name).map ResolvedLabel.addr

end Layout

namespace Code

structure Context where
  opcodes : OpcodeTable
  pool : StringPool
  imports : List ImportDecl

def Context.params (ctx : Context) (c : Callee) : UInt8 :=
  ((ctx.imports.find? fun d => d.callee == c).map ImportDecl.params).getD 0

/-- The operand bytes of one instruction, the sites among them and, for a development block, where
it ends. -/
structure Emitted where
  bytes : Bytes
  sites : List Site := []
  region : Option UInt32 := none

def pad (n pos : Nat) : Bytes := List.replicate (Word.padding n pos) 0

def operandAt (n pos : Nat) : UInt32 := UInt32.ofNat (pos + Word.padding n pos)

def key16Bytes (ctx : Context) (s : Bytes) (pos : Nat) : Assembling Emitted :=
  (Assembling.ofPool (ctx.pool.key16 s)).map fun key =>
    { bytes := pad 2 pos ++ Word.u16 key, sites := [.literal s (operandAt 2 pos)] }

def localsFrom (ctx : Context) (pos : Nat) : List Bytes → Assembling Emitted
  | [] => .ok { bytes := [] }
  | name :: rest =>
    (key16Bytes ctx name pos).bind fun e =>
      (localsFrom ctx (pos + e.bytes.length) rest).map fun later =>
        { bytes := e.bytes ++ later.bytes, sites := e.sites ++ later.sites }

def branchBytes (lay : Layout) (op : Opcode) (start : UInt32) (width pos : Nat)
    (args : List Bytes) : Assembling Emitted :=
  (Assembling.ofOperand (Operand.single args)).bind fun name =>
    match lay.addressOf? name with
    | none => Assembling.fail (.noLabel name)
    | some target =>
      let size := UInt32.ofNat (1 + Word.padding width pos + width)
      (Assembling.ofOperand (Branch.distance target start size width)).map fun d =>
        { bytes := pad width pos ++ Word.intBytes width d
          region := if op = Opcode.devBlockBegin then some target else none }

/-- The operand bytes of an instruction at `start`; `dev` says that it stands in a development
block. The operands of an animation are counted where they are collected, not here. -/
def operandBytes (ctx : Context) (lay : Layout) (op : Opcode) (kind : OperandKind) (start : UInt32)
    (dev : Bool) (args : List Bytes) : Assembling Emitted :=
  let pos := start.toNat + 1
  let operand {α : Type} (r : Except OperandFault α) : Assembling α := Assembling.ofOperand r
  let callee (lead : Callee → Bytes) : Assembling Emitted := do
    let (space, name) ← operand (Operand.callee args)
    let c : Callee := ⟨space, name, op.importKind⟩
    let before := lead c
    let key ← Assembling.ofPool (ctx.pool.key32 name)
    return {
      bytes := before ++ pad 4 (pos + before.length) ++ Word.u32 key
      sites := [.call c start dev] }
  match kind with
  | .none => if args.isEmpty then .ok { bytes := [] } else operand (.error (.takesNone args.length))
  | .byte => do
    let v ← operand (Operand.unsigned 10 8 args)
    return { bytes := [UInt8.ofNat v] }
  | .short => do
    let v ← operand (Operand.unsigned 10 16 args)
    return { bytes := pad 2 pos ++ Word.toBytes 2 v }
  | .integer => do
    let a ← operand (Operand.single args)
    let v ← operand (Operand.signed a)
    return { bytes := pad 4 pos ++ Word.intBytes 4 v }
  | .float => do
    let a ← operand (Operand.single args)
    let v ← operand (Operand.float a)
    return { bytes := pad 4 pos ++ Word.u32 v }
  | .vector => do
    if args.length ≠ 3 then operand (.error (.wantCount 3 args.length))
    else
      let vs ← args.mapM fun a => operand (Operand.float a)
      return { bytes := pad 4 pos ++ vs.flatMap Word.u32 }
  | .string => do
    let s ← operand (Operand.quoted args 0)
    key16Bytes ctx s pos
  | .field => do
    let s ← operand (Operand.single args)
    key16Bytes ctx s pos
  | .animation => do
    let anim ← operand (Operand.quoted args 1)
    let key ← Assembling.ofPool (ctx.pool.key32 anim)
    return {
      bytes := pad 4 pos ++ Word.u32 key
      sites := [.animation (args.headD []) anim (operandAt 4 pos)] }
  | .hash => do
    let v ← operand (Operand.unsigned 16 32 args)
    return { bytes := pad 4 pos ++ Word.toBytes 4 v }
  | .locals =>
    if 255 < args.length then operand (.error (.tooManyLocals args.length))
    else (localsFrom ctx (pos + 1) args).map fun e =>
      { bytes := UInt8.ofNat args.length :: e.bytes, sites := e.sites }
  | .cases => do
    let vs ← args.mapM fun a => operand (Operand.signed a)
    return {
      bytes := pad 4 pos ++ Word.toBytes 4 (args.length / 2) ++
        vs.flatMap fun v => Word.intBytes 4 v }
  | .call => callee fun c => [ctx.params c]
  | .function => callee fun _ => []
  | .jump => branchBytes lay op start 2 pos args
  | .longJump => branchBytes lay op start 4 pos args

/-- One instruction; `dev` says that it stands in a development block. -/
def instruction (ctx : Context) (lay : Layout) (dev : Bool) (p : Placed) : Assembling Emitted :=
  (ctx.opcodes.kind p.inst.opcode).bind fun kind =>
    (operandBytes ctx lay p.inst.opcode kind p.addr dev p.inst.args).bind fun e =>
      let bytes := p.inst.opcode :: e.bytes
      let emitted := UInt32.ofNat bytes.length
      if emitted = p.size then .ok { e with bytes }
      else Assembling.fail (.sizeMismatch emitted p.size)

/-- The parts of what was emitted, the latest of which stands first, in the order of emission. The
latest is not copied. -/
def inOrder {α : Type} (parts : List (List α)) : List α :=
  parts.foldl (fun later part => if later.isEmpty then part else part ++ later) []

@[simp] theorem inOrder_eq {α : Type} (parts : List (List α)) :
    inOrder parts = parts.reverse.flatten := by
  have happend (later : List α) :
      parts.foldl (fun later part => if later.isEmpty then part else part ++ later) later =
        parts.reverse.flatten ++ later := by
    induction parts generalizing later with
    | nil => rfl
    | cons part parts ih =>
      rw [List.foldl_cons, ih]
      cases later with
      | nil => simp
      | cons x later => simp
  rw [inOrder, happend, List.append_nil]

structure Progress where
  regions : List UInt32 := []
  chunks : List Bytes := []
  sites : List (List Site) := []

/-- Emits an instruction after leaving the development blocks that end at or before it. -/
def step (ctx : Context) (fn : Function) (lay : Layout) (p : Progress) (x : Placed) :
    Assembling Progress :=
  let regions := p.regions.dropWhile (· ≤ x.addr)
  (((instruction ctx lay (!regions.isEmpty) x).within
      (.instruction x.inst.opcode x.addr)).within (.function fn.name)).map fun e =>
    { regions := e.region.toList ++ regions
      chunks := e.bytes :: p.chunks
      sites := e.sites :: p.sites }

structure Body where
  bytes : Bytes
  sites : List Site
  stop : UInt32

def body (ctx : Context) (fn : Function) (start : UInt32) : Assembling Body :=
  ((Layout.ofFunction fn start).within (.function fn.name)).bind fun lay =>
    (lay.placed.foldlM (step ctx fn lay) {}).map fun p =>
      ⟨inOrder p.chunks, inOrder p.sites, lay.stop⟩

def exportOf (fn : Function) (start : UInt32) (body : Bytes) : Export where
  checksum := Crc32.checksum body
  offset := start
  name := fn.name
  params := fn.params
  flags := fn.flags
  size := UInt32.ofNat body.length

def gapBytes (b : Body) : Bytes :=
  List.replicate (ExportSizes.gapPadding b.bytes b.stop) 0xFF ++
    List.replicate ExportSizes.gap.toNat 0

end Code

structure Code where
  bytes : Bytes
  exports : List Export
  sites : List Site

namespace Code

structure Segments where
  length : Nat := 0
  chunks : List Bytes := []
  exports : List Export := []
  sites : List (List Site) := []

def emitFrom (ctx : Context) (codeOffset : UInt32) (s : Segments) : List Function → Assembling Code
  | [] => .ok ⟨inOrder s.chunks, s.exports.reverse, inOrder s.sites⟩
  | fn :: rest =>
    let start := codeOffset + UInt32.ofNat s.length
    (body ctx fn start).bind fun b =>
      let chunk := if rest.isEmpty then b.bytes else b.bytes ++ gapBytes b
      emitFrom ctx codeOffset
        { length := s.length + chunk.length
          chunks := chunk :: s.chunks
          exports := exportOf fn start b.bytes :: s.exports
          sites := b.sites :: s.sites } rest

def emit (ctx : Context) (codeOffset : UInt32) (functions : List Function) : Assembling Code :=
  emitFrom ctx codeOffset {} functions

end Code
end ScriptCodec

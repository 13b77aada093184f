import ScriptCodec.Module.Basic
import ScriptCodec.Number.FloatText
import ScriptCodec.Binary.Word

/-!
Operands as text. This module reads them, says how long the instruction is that carries them, and
relates a branch target to the distance stored for it.
-/
namespace ScriptCodec

inductive OperandFault where
  | wantCount (want got : Nat)
  | takesNone (got : Nat)
  | number (fault : Number.Fault)
  | missing (index : Nat)
  | notQuoted (operand : Bytes)
  | callee (got : Nat)
  | tooManyLocals (got : Nat)
  | unpairedCases (op : Opcode) (got : Nat)
  | branchTooFar (start target : UInt32) (width : Nat)
deriving DecidableEq, Repr

def OperandFault.message (f : OperandFault) : Bytes :=
  text "bad operand: " ++ match f with
  | .wantCount want got =>
    text "want " ++ Text.decimal want ++ text " operands, got " ++ Text.decimal got
  | .takesNone got => text "takes no operands, got " ++ Text.decimal got
  | .number fault => fault.message
  | .missing index => text "missing operand " ++ Text.decimal (index + 1)
  | .notQuoted operand => operand ++ text " is not a quoted literal"
  | .callee got =>
    text "want callee name with optional namespace, got " ++ Text.decimal got ++ text " operands"
  | .tooManyLocals got => Text.decimal got ++ text " local variables, at most 255"
  | .unpairedCases op got =>
    op.display ++ text " needs value pairs, got " ++ Text.decimal got ++ text " operands"
  | .branchTooFar start target width =>
    text "branch from " ++ Text.address start ++ text " to " ++ Text.address target ++
      text " does not fit in " ++ Text.decimal width ++ text " bytes"

namespace Operand

def single (args : List Bytes) : Except OperandFault Bytes :=
  match args with
  | [a] => .ok a
  | _ => .error (.wantCount 1 args.length)

def unsigned (base : Nat) (bits : Int) (args : List Bytes) : Except OperandFault Nat :=
  (single args).bind fun a => (Number.unsigned base bits a).mapError .number

def signed (a : Bytes) : Except OperandFault Int := (Number.signed 32 a).mapError .number

def float (a : Bytes) : Except OperandFault UInt32 := (FloatText.parse a).mapError .number

def quoted (args : List Bytes) (index : Nat) : Except OperandFault Bytes :=
  match args[index]? with
  | none => .error (.missing index)
  | some a =>
    match Text.unquote a with
    | some s => .ok s
    | none => .error (.notQuoted a)

/-- The namespace and name of a callee, given apart, as a name alone or joined by `::`. -/
def callee (args : List Bytes) : Except OperandFault (Bytes × Bytes) :=
  match args with
  | [a] => .ok ((Text.cut (text "::") a).getD ([], a))
  | [space, name] => .ok (space, name)
  | _ => .error (.callee args.length)

end Operand

inductive SizeFault where
  | unhandled (op : Opcode) (addr : UInt32)
  | operand (fault : OperandFault)
deriving DecidableEq, Repr

namespace SizeFault

def message : SizeFault → Bytes
  | .unhandled op addr => text "unhandled opcode: " ++ op.number ++ text " at " ++ Text.address addr
  | .operand fault => fault.message

def categories : SizeFault → List Category
  | .unhandled _ _ => [.unhandledOpcode]
  | .operand _ => [.badOperand]

end SizeFault

namespace OperandKind

def afterAligned (n width pos : Nat) : Nat := pos + Word.padding n pos + width

def stop (kind : OperandKind) (count pos : Nat) : Nat :=
  match kind with
  | none => pos
  | byte => pos + 1
  | short | string | field | jump => afterAligned 2 2 pos
  | integer | float | animation | hash | function | longJump => afterAligned 4 4 pos
  | vector => afterAligned 4 12 pos
  | call => afterAligned 4 4 (pos + 1)
  | locals => (List.range count).foldl (fun pos _ => afterAligned 2 2 pos) (pos + 1)
  | cases => afterAligned 4 4 pos + 8 * (count / 2)

end OperandKind

/-- The encoded length of an instruction placed at `addr`. Alignment is that of the address. -/
def instructionSize (op : Opcode) (addr : UInt32) (args : List Bytes) : Except SizeFault UInt32 :=
  match op.kind? with
  | none => .error (.unhandled op addr)
  | some kind =>
    if kind = .cases ∧ args.length % 2 ≠ 0 then .error (.operand (.unpairedCases op args.length))
    else .ok (UInt32.ofNat (kind.stop args.length (addr.toNat + 1) - addr.toNat))

namespace Branch

/-- The address a branch of `size` bytes at `start` leads to; addresses wrap. -/
def target (start size : UInt32) (distance : Int) : UInt32 :=
  UInt32.ofInt (start.toNat + size.toNat + distance)

/-- The distance that leads to `target`, if the operand can hold it. -/
def distance (target start size : UInt32) (width : Nat) : Except OperandFault Int :=
  let delta : Int := target.toNat - start.toNat - size.toNat
  let half : Int := if width = 2 then 0x8000 else 0x80000000
  if delta < -half ∨ half ≤ delta then .error (.branchTooFar start target width) else .ok delta

end Branch
end ScriptCodec

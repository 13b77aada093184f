import ScriptCodec.Text.Quoted
import ScriptCodec.Category

/-!
The instruction set. An opcode is one byte; the defined ones have a mnemonic and an operand kind,
which says what bytes follow the opcode.
-/
namespace ScriptCodec

abbrev Opcode := UInt8

inductive OperandKind where
  /-- the opcode alone -/
  | none
  /-- one byte -/
  | byte
  /-- aligned to 2, an unsigned 16-bit integer -/
  | short
  /-- aligned to 4, a signed 32-bit integer -/
  | integer
  /-- aligned to 4, a single-precision number -/
  | float
  /-- aligned to 4, three single-precision numbers -/
  | vector
  /-- aligned to 2, the 16-bit key of a string written as a quoted literal -/
  | string
  /-- aligned to 2, the 16-bit key of a string written as a bare name -/
  | field
  /-- aligned to 4, the 32-bit key of an animation; written as tree name and quoted animation -/
  | animation
  /-- aligned to 4, a 32-bit hash written in hexadecimal -/
  | hash
  /-- a count byte, then per local variable a 16-bit key aligned to 2 -/
  | locals
  /-- aligned to 4, a 32-bit count, then eight bytes per case -/
  | cases
  /-- the argument count in a byte, then aligned to 4 the 32-bit key of the callee -/
  | call
  /-- aligned to 4, the 32-bit key of a function -/
  | function
  /-- aligned to 2, a signed 16-bit distance -/
  | jump
  /-- aligned to 4, a signed 32-bit distance -/
  | longJump
deriving DecidableEq, Repr

namespace OperandKind

/-- The opcode byte and the fixed operand bytes, without padding and list entries. -/
def baseSize : OperandKind → Nat
  | none => 1
  | byte | locals => 2
  | short | string | field | jump => 3
  | integer | float | animation | hash | function | longJump | cases => 5
  | call => 6
  | vector => 13

def isBranch : OperandKind → Bool
  | jump | longJump => true
  | _ => false

theorem baseSize_pos (kind : OperandKind) : 0 < kind.baseSize := by cases kind <;> decide

end OperandKind

def instructionSet : Array (String × OperandKind) := #[
  ("END", .none), ("RETN", .none), ("GET_UNDEFINED", .none), ("GET_ZERO", .none),
  ("GET_BYTE", .byte), ("GET_NBYTE", .byte), ("GET_USHORT", .short), ("GET_NUSHORT", .short),
  ("GET_INT", .integer), ("GET_FLOAT", .float), ("GET_STRING", .string),
  ("GET_ISTRING", .string), ("GET_VECTOR", .vector), ("GET_LEVEL_OBJ", .none),
  ("GET_ANIM_OBJ", .none), ("GET_SELF", .none), ("GET_LEVEL", .none), ("GET_GAME", .none),
  ("GET_ANIM", .none), ("GET_ANIMATION", .animation), ("GET_GAME_REF", .none),
  ("GET_FUNCTION", .function), ("CREATE_LOCAL_VARIABLE", .none),
  ("SAFE_CREATE_LOCAL_VARIABLES", .locals), ("REMOVE_LOCAL_VARIABLES", .none),
  ("EVAL_LOCAL_VARIABLE_CACHED", .byte), ("EVAL_ARRAY", .none),
  ("EVAL_LOCAL_ARRAY_REF_CACHED", .none), ("EVAL_ARRAY_REF", .none), ("CLEAR_ARRAY", .none),
  ("EMPTY_ARRAY", .none), ("GET_SELF_OBJECT", .none), ("EVAL_FIELD_VARIABLE", .field),
  ("EVAL_FIELD_VARIABLE_REF", .field), ("CLEAR_FIELD_VARIABLE", .field),
  ("SAFE_SET_VARIABLE_FIELD_CACHED", .none), ("SAFE_SET_WAITTILL_VARIABLE_FIELD_CACHED", .byte),
  ("CLEAR_PARAMS", .none), ("CHECK_CLEAR_PARAMS", .none),
  ("EVAL_LOCAL_VARIABLE_REF_CACHED", .byte), ("SET_VARIABLE_FIELD", .none),
  ("CALL_BUILTIN_FUNC", .call), ("CALL_BUILTIN_METHOD", .call), ("WAIT", .none),
  ("WAITTILLFRAMEEND", .none), ("PRE_CALL", .none), ("SCRIPT_FUNC_CALL", .call),
  ("SCRIPT_FUNC_CALL_POINTER", .byte), ("SCRIPT_METHOD_CALL", .call),
  ("SCRIPT_METHOD_CALL_POINTER", .byte), ("SCRIPT_THREAD_CALL", .call),
  ("SCRIPT_THREAD_CALL_POINTER", .byte), ("SCRIPT_METHOD_THREAD_CALL", .call),
  ("SCRIPT_METHOD_THREAD_CALL_POINTER", .byte), ("DEC_TOP", .none),
  ("CAST_FIELD_OBJECT", .none), ("CAST_BOOL", .none), ("BOOL_NOT", .none),
  ("BOOL_COMPLEMENT", .none), ("JMP_FALSE", .jump), ("JMP_TRUE", .jump),
  ("JMP_EXPR_FALSE", .jump), ("JMP_EXPR_TRUE", .jump), ("JMP", .jump), ("JMP_BACK", .jump),
  ("INC", .none), ("DEC", .none), ("BIT_OR", .none), ("BIT_XOR", .none), ("BIT_AND", .none),
  ("EQUAL", .none), ("NOT_EQUAL", .none), ("LESS", .none), ("GREATER", .none),
  ("LESS_EQUAL", .none), ("GREATER_EQUAL", .none), ("SHIFT_LEFT", .none),
  ("SHIFT_RIGHT", .none), ("PLUS", .none), ("MINUS", .none), ("MULT", .none), ("DIV", .none),
  ("MOD", .none), ("SIZE", .none), ("WAITTILLMATCH", .byte), ("WAITTILL", .none),
  ("NOTIFY", .none), ("ENDON", .none), ("VOIDCODEPOS", .none), ("SWITCH", .longJump),
  ("ENDSWITCH", .cases), ("VECTOR", .none), ("GET_HASH", .hash), ("REAL_WAIT", .none),
  ("VECTOR_CONSTANT", .byte), ("IS_DEFINED", .none), ("VECTOR_SCALE", .none),
  ("ANGLES_TO_UP", .none), ("ANGLES_TO_RIGHT", .none), ("ANGLES_TO_FORDWARD", .none),
  ("ANGLE_CLAMP_180", .none), ("VECTOR_TO_ANGLES", .none), ("ABS", .none), ("GET_TIME", .none),
  ("GET_DVAR", .none), ("GET_DVAR_INT", .none), ("GET_DVAR_FLOAT", .none),
  ("GET_DVAR_VECTOR", .none), ("GET_DVAR_COLOR_RED", .none), ("GET_DVAR_COLOR_GREEN", .none),
  ("GET_DVAR_COLOR_BLUE", .none), ("GET_DVAR_COLOR_ALPHA", .none), ("FIRST_ARRAY_KEY", .none),
  ("NEXT_ARRAY_KEY", .none), ("PROFILE_START", .none), ("PROFILE_STOP", .none),
  ("SAFE_DEC_TOP", .none), ("NOP", .none), ("ABORT", .none), ("OBJECT", .none),
  ("THREAD_OBJECT", .none), ("EVAL_LOCAL_VARIABLE", .none), ("EVAL_LOCAL_VARIABLE_REF", .none),
  ("DEVBLOCK_BEGIN", .jump), ("DEVBLOCK_END", .jump), ("BREAKPOINT", .none)]

namespace Opcode

def mnemonic? (op : Opcode) : Option Bytes := instructionSet[op.toNat]?.map fun e => text e.1

def kind? (op : Opcode) : Option OperandKind := instructionSet[op.toNat]?.map fun e => e.2

def display (op : Opcode) : Bytes :=
  op.mnemonic?.getD (text "UNKNOWN_" ++ Text.hexPadded 2 op.toNat)

def number (op : Opcode) : Bytes := text "0x" ++ Text.hexPadded 2 op.toNat

def endOfFunction : Opcode := 0x00
def returnValue : Opcode := 0x01
def getFunction : Opcode := 0x15
def callBuiltin : Opcode := 0x29
def callBuiltinMethod : Opcode := 0x2A
def scriptCall : Opcode := 0x2E
def scriptMethodCall : Opcode := 0x30
def scriptThreadCall : Opcode := 0x32
def scriptMethodThreadCall : Opcode := 0x34
def devBlockBegin : Opcode := 0x7B

/-- The opcodes whose last byte closes a function without padding to trim. -/
def closesFunction (op : Opcode) : Bool := op == endOfFunction || op == returnValue

end Opcode
end ScriptCodec

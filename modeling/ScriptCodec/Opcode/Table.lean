import ScriptCodec.Opcode.Basic

/-!
Tables that name opcodes both ways. In a table no opcode has two mnemonics and no mnemonic two
opcodes, so looking up a name and looking up an opcode undo each other.
-/
namespace ScriptCodec

structure OpcodeTable where
  entries : List (Opcode × Bytes)
  opcodes_nodup : (entries.map Prod.fst).Nodup
  names_nodup : (entries.map Prod.snd).Nodup

inductive NameFault where
  | unknownOpcode (op : Opcode)
  | unknownMnemonic (name : Bytes)
deriving DecidableEq, Repr

namespace NameFault

def message : NameFault → Bytes
  | .unknownOpcode op => text "unknown opcode: " ++ op.number
  | .unknownMnemonic name => text "unknown mnemonic: " ++ Text.quote name

def categories : NameFault → List Category
  | .unknownOpcode _ => [.unknownOpcode]
  | .unknownMnemonic _ => [.unknownMnemonic]

end NameFault

namespace OpcodeTable

def name (t : OpcodeTable) (op : Opcode) : Except NameFault Bytes :=
  match t.entries.find? fun e => e.1 == op with
  | some e => .ok e.2
  | none => .error (.unknownOpcode op)

def opcode (t : OpcodeTable) (name : Bytes) : Except NameFault Opcode :=
  match t.entries.find? fun e => e.2 == name with
  | some e => .ok e.1
  | none => .error (.unknownMnemonic name)

def knows (t : OpcodeTable) (op : Opcode) : Bool := t.entries.any fun e => e.1 == op

def size (t : OpcodeTable) : Nat := t.entries.length

def assign (entries : List (Opcode × Bytes)) (e : Opcode × Bytes) : List (Opcode × Bytes) :=
  entries.filter (fun d => d.1 != e.1) ++ [e]

/-- The table of the given names, the last one given to an opcode. `none` when two opcodes are
left with one mnemonic. -/
def ofList? (pairs : List (Opcode × Bytes)) : Option OpcodeTable :=
  let entries := pairs.foldl assign []
  if h : (entries.map Prod.fst).Nodup ∧ (entries.map Prod.snd).Nodup then
    some ⟨entries, h.1, h.2⟩
  else none

def builtInEntries : List (Opcode × Bytes) :=
  (List.range instructionSet.size).filterMap fun i =>
    instructionSet[i]?.map fun e => (UInt8.ofNat i, text e.1)

def builtIn : OpcodeTable where
  entries := builtInEntries
  opcodes_nodup := by decide +kernel
  names_nodup := by decide +kernel

end OpcodeTable
end ScriptCodec

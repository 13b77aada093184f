import ScriptCodec.Listing.Token
import ScriptCodec.Module.Operand
import ScriptCodec.Opcode.Table

/-!
Reading a listing. Includes and functions follow each other line by line; a function runs from its
`sub_` line to its `end_` line and holds instructions and labels. A label stands for the next
instruction, or for the end of the function. Instructions are laid out back to back from offset
zero, so labels key on offsets as they do in a decoded module. One label is kept per offset; the
other names of that offset are replaced by it in branch operands.
-/
namespace ScriptCodec.Listing

inductive LineFault where
  | unclosedQuote (column : Nat)
  | includeCount (got : Nat)
  | outside (head : Bytes)
  | headerFields (got : Nat)
  | params (fault : Number.Fault)
  | flags (fault : Number.Fault)
  | mnemonic (fault : NameFault)
  | size (fault : SizeFault)
  | duplicateLabel (name : Bytes) (offset previous : UInt32)
  | wrongEnd (name opened : Bytes)
  | unclosed (name : Bytes)
deriving DecidableEq, Repr

inductive Error where
  | line (number : Nat) (fault : LineFault)
  | lineTooLong
deriving DecidableEq, Repr

namespace LineFault

def message : LineFault → Bytes
  | .unclosedQuote column =>
    text "unterminated string at column " ++ Text.decimal (column + 1)
  | .includeCount got => text "#include takes one path, got " ++ Text.decimal got
  | .outside head => text "unexpected " ++ Text.quote head ++ text " outside a function"
  | .headerFields got =>
    text "want sub_<name> <params> <flags>, got " ++ Text.decimal got ++ text " fields"
  | .params fault => text "params: " ++ fault.message
  | .flags fault => text "flags: " ++ fault.message
  | .mnemonic fault => fault.message
  | .size fault => fault.message
  | .duplicateLabel name offset previous =>
    text "duplicate label: " ++ name ++ text " at " ++ Text.address offset ++
      text ", already at " ++ Text.address previous
  | .wrongEnd name opened => text "end_" ++ name ++ text " closes sub_" ++ opened
  | .unclosed name => text "sub_" ++ name ++ text " has no end_" ++ name

def categories : LineFault → List Category
  | .mnemonic fault => fault.categories
  | .size fault => fault.categories
  | .duplicateLabel .. => [.duplicateLabel]
  | _ => []

end LineFault

namespace Error

def message : Error → Bytes
  | .line number fault =>
    text "syntax error: line " ++ Text.decimal number ++ text ": " ++ fault.message
  | .lineTooLong => text "bufio.Scanner: token too long"

def categories : Error → List Category
  | .line _ fault => .malformedListing :: fault.categories
  | .lineTooLong => [.lineTooLong]

end Error

/-- A function whose end has not been read yet; its instructions are kept in reverse. -/
structure Draft where
  offset : UInt32
  params : UInt8
  flags : UInt8
  name : Bytes
  code : List Instruction := []
  labels : Labels := []
  /-- labels waiting for the next instruction, the latest first -/
  pending : List Bytes := []
  /-- further names of an offset, each with the name that is kept -/
  aliases : List (Bytes × Bytes) := []
  bound : List (Bytes × UInt32) := []

structure State where
  includes : List Bytes := []
  functions : List Function := []
  addr : UInt32 := 0
  draft : Option Draft := none

namespace Draft

/-- Binds one name to an offset. It may be bound to that offset again, but to no other. -/
def bindName (offset : UInt32) (d : Draft) (name : Bytes) : Except LineFault Draft :=
  match d.bound.find? fun e => e.1 == name with
  | some (_, previous) =>
    if previous = offset then .ok d else .error (.duplicateLabel name offset previous)
  | none =>
    let d := { d with bound := (name, offset) :: d.bound }
    match d.labels.nameAt? offset with
    | some first => .ok { d with aliases := (name, first) :: d.aliases }
    | none => .ok { d with labels := d.labels.set offset name }

def bindPending (d : Draft) (offset : UInt32) : Except LineFault Draft :=
  d.pending.reverse.foldlM (bindName offset) { d with pending := [] }

def addLabel (d : Draft) (name : Bytes) : Draft := { d with pending := name :: d.pending }

/-- The name a branch operand stands for once aliases are replaced. -/
def keptName (d : Draft) (name : Bytes) : Bytes :=
  ((d.aliases.find? fun e => e.1 == name).map Prod.snd).getD name

def replaceAliases (d : Draft) (inst : Instruction) : Instruction :=
  if (inst.opcode.kind?.map OperandKind.isBranch).getD false then
    { inst with operands := inst.operands.map fun args => args.map d.keptName }
  else inst

def close (d : Draft) (stop : UInt32) : Function :=
  let code := if d.aliases.isEmpty then d.code.reverse else d.code.reverse.map d.replaceAliases
  { offset := d.offset
    size := stop - d.offset
    params := d.params
    flags := d.flags
    name := d.name
    instructions := if code.isEmpty then none else some (code.map some)
    labels := some d.labels }

end Draft

def subMark : Bytes := text "sub_"
def endMark : Bytes := text "end_"
def locMark : Bytes := text "loc_"
def includeMark : Bytes := text "#include"

def beginFunction (s : State) (name : Bytes) (tokens : List Bytes) : Except LineFault State :=
  match tokens with
  | [_, params, flags] => do
    let params ← (Number.unsigned 10 8 params).mapError .params
    let flags ← (Number.unsigned 10 8 flags).mapError .flags
    return { s with
      draft := some {
        offset := s.addr, params := UInt8.ofNat params, flags := UInt8.ofNat flags, name } }
  | _ => .error (.headerFields tokens.length)

def outerLine (s : State) (head : Bytes) (tokens : List Bytes) : Except LineFault State :=
  if head = includeMark then
    match tokens with
    | [_, path] => .ok { s with includes := path :: s.includes }
    | _ => .error (.includeCount (tokens.length - 1))
  else match Text.afterLead subMark head with
    | some name => beginFunction s name tokens
    | none => .error (.outside head)

def endFunction (s : State) (d : Draft) (name : Bytes) : Except LineFault State :=
  if name = d.name then
    (d.bindPending s.addr).map fun d =>
      { s with functions := d.close s.addr :: s.functions, draft := none }
  else .error (.wrongEnd name d.name)

def addInstruction (s : State) (d : Draft) (op : Opcode) (args : List Bytes) :
    Except LineFault State := do
  let size ← (instructionSize op s.addr args).mapError .size
  let d ← d.bindPending s.addr
  return { s with
    addr := s.addr + size
    draft := some { d with code := ⟨s.addr, size, op, some args⟩ :: d.code } }

def instructionLine (opcodes : OpcodeTable) (s : State) (d : Draft) (head : Bytes)
    (args : List Bytes) : Except LineFault State :=
  match opcodes.opcode head with
  | .ok op => addInstruction s d op args
  | .error fault =>
    if args.isEmpty && locMark.isPrefixOf head then .ok { s with draft := some (d.addLabel head) }
    else .error (.mnemonic fault)

def innerLine (opcodes : OpcodeTable) (s : State) (d : Draft) (head : Bytes) (args : List Bytes) :
    Except LineFault State :=
  match args, Text.afterLead endMark head with
  | [], some name => endFunction s d name
  | [], none =>
    match Text.beforeTrail [0x3A] head with
    | some label => .ok { s with draft := some (d.addLabel label) }
    | none => instructionLine opcodes s d head args
  | _, _ => instructionLine opcodes s d head args

def parseLine (opcodes : OpcodeTable) (s : State) (line : Bytes) : Except LineFault State :=
  match tokenize line with
  | .error quote => .error (.unclosedQuote quote.column)
  | .ok [] => .ok s
  | .ok (head :: args) =>
    match s.draft with
    | none => outerLine s head (head :: args)
    | some d => innerLine opcodes s d head args

/-- The longest line, counted with its line feed. -/
def lineLimit : Nat := 1048576

/-- The lines of a text. The last one need not have a line feed. -/
def lines (s : Bytes) : List Bytes :=
  let pieces := Text.splitOn 0x0A s
  if pieces.getLast? = some [] then pieces.dropLast else pieces

def dropReturn (line : Bytes) : Bytes := (Text.beforeTrail [0x0D] line).getD line

def parseLines (opcodes : OpcodeTable) (number : Nat) (s : State) : List Bytes → Except Error Module
  | [] =>
    match s.draft with
    | some d => .error (.line number (.unclosed d.name))
    | none =>
      .ok {
        name := []
        includes := if s.includes.isEmpty then none else some s.includes.reverse
        functions := if s.functions.isEmpty then none else some (s.functions.reverse.map some)
        imports := none }
  | line :: rest =>
    if lineLimit < line.length + 1 then .error .lineTooLong
    else match parseLine opcodes s (dropReturn line) with
      | .error fault => .error (.line (number + 1) fault)
      | .ok s => parseLines opcodes (number + 1) s rest

def parse (opcodes : OpcodeTable) (s : Bytes) : Except Error Module :=
  parseLines opcodes 0 {} (lines s)

end ScriptCodec.Listing

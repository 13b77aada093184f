import ScriptCodec.Object.Basic

/-!
Why a file is no script object. An error has a cause and the places it was met in, outermost
first; its message names them all.
-/
namespace ScriptCodec

namespace DecodeError

inductive Section where
  | header
  | strings
  | includes
  | animTrees
  | stringFixups
  | imports
  | exports
deriving DecidableEq, Repr

inductive Place where
  | table (which : Section)
  | pool
  | entry (which : Section) (index : Nat)
  | importName (index : Nat)
  | importSpace (name : Bytes)
  | named (which : Section) (name : Bytes)
  | function (name : Bytes)
  | opcode (start : UInt32)
  | instruction (op : Opcode) (start : UInt32)
deriving DecidableEq, Repr

inductive Cause where
  | shortHeader (length : Nat)
  | badMagic (got : UInt64)
  | range (fault : RangeFault)
  | noString (key : UInt32)
  | startsPastCode (name : Bytes) (offset codeEnd : UInt32)
  | overlap (name : Bytes) (offset : UInt32) (nextName : Bytes) (next : UInt32)
  | endsPastInput (name : Bytes) (last : UInt32)
  | unhandledOpcode (op : Opcode) (start : UInt32)
  | noTree (op : Opcode) (start ref : UInt32)
  | noImport (op : Opcode) (name : Bytes) (start : UInt32)
  | tooManyCases (op : Opcode) (start count : UInt32)
  | overrun (op : Opcode) (start : UInt32) (excess : Nat) (stop : UInt32)
deriving DecidableEq, Repr

end DecodeError

structure DecodeError where
  places : List DecodeError.Place
  cause : DecodeError.Cause
deriving DecidableEq, Repr

namespace DecodeError

def Section.text : Section → Bytes
  | .header => ScriptCodec.text "header"
  | .strings => ScriptCodec.text "strings"
  | .includes => ScriptCodec.text "includes"
  | .animTrees => ScriptCodec.text "animtrees"
  | .stringFixups => ScriptCodec.text "string fixups"
  | .imports => ScriptCodec.text "imports"
  | .exports => ScriptCodec.text "exports"

def Section.entry : Section → Bytes
  | .header => ScriptCodec.text "header"
  | .strings => ScriptCodec.text "string"
  | .includes => ScriptCodec.text "include"
  | .animTrees => ScriptCodec.text "animtree"
  | .stringFixups => ScriptCodec.text "string fixup"
  | .imports => ScriptCodec.text "import"
  | .exports => ScriptCodec.text "export"

def Place.text : Place → Bytes
  | .table which => ScriptCodec.text "disassemble " ++ which.text
  | .pool => ScriptCodec.text "string pool"
  | .entry which index => which.entry ++ ScriptCodec.text " " ++ Text.decimal index
  | .importName index =>
    ScriptCodec.text "import " ++ Text.decimal index ++ ScriptCodec.text " name"
  | .importSpace name => ScriptCodec.text "import " ++ name ++ ScriptCodec.text " namespace"
  | .named which name =>
    which.entry ++ ScriptCodec.text " " ++ (if which = .stringFixups then Text.quote name else name)
  | .function name => ScriptCodec.text "disassemble " ++ name
  | .opcode start => ScriptCodec.text "opcode at " ++ Text.address start
  | .instruction op start => op.display ++ ScriptCodec.text " at " ++ Text.address start

def Cause.text : Cause → Bytes
  | .shortHeader length =>
    ScriptCodec.text "truncated header: " ++ Text.decimal length ++
      ScriptCodec.text " bytes, need 64"
  | .badMagic got =>
    ScriptCodec.text "bad magic: got 0x" ++ Text.hexPadded 16 got.toNat ++
      ScriptCodec.text ", want 0x" ++ Text.hexPadded 16 Header.magicNumber.toNat
  | .range fault => ScriptCodec.text "truncated input: " ++ fault.message
  | .noString key => ScriptCodec.text "corrupt input: no string at offset " ++ Text.address key
  | .startsPastCode name offset codeEnd =>
    ScriptCodec.text "corrupt input: export " ++ name ++ ScriptCodec.text " at " ++
      Text.address offset ++ ScriptCodec.text " starts past the code segment end " ++
      Text.address codeEnd
  | .overlap name offset nextName next =>
    ScriptCodec.text "corrupt input: export " ++ name ++ ScriptCodec.text " at " ++
      Text.address offset ++ ScriptCodec.text " overlaps " ++ nextName ++
      ScriptCodec.text " at " ++ Text.address next
  | .endsPastInput name last =>
    ScriptCodec.text "truncated input: export " ++ name ++ ScriptCodec.text " ends at " ++
      Text.address last ++ ScriptCodec.text " past end of input"
  | .unhandledOpcode op start =>
    ScriptCodec.text "unhandled opcode: " ++ op.number ++ ScriptCodec.text " at " ++
      Text.address start
  | .noTree op start ref =>
    ScriptCodec.text "corrupt input: " ++ op.display ++ ScriptCodec.text " at " ++
      Text.address start ++ ScriptCodec.text ": no animtree references " ++ Text.address ref
  | .noImport op name start =>
    ScriptCodec.text "corrupt input: " ++ op.display ++ ScriptCodec.text " " ++ name ++
      ScriptCodec.text " at " ++ Text.address start ++ ScriptCodec.text " has no import reference"
  | .tooManyCases op start count =>
    ScriptCodec.text "truncated input: " ++ op.display ++ ScriptCodec.text " at " ++
      Text.address start ++ ScriptCodec.text " declares " ++ Text.decimal count.toNat ++
      ScriptCodec.text " cases"
  | .overrun op start excess stop =>
    ScriptCodec.text "instruction overruns function: " ++ op.display ++ ScriptCodec.text " at " ++
      Text.address start ++ ScriptCodec.text " ends 0x" ++ Text.hex excess ++
      ScriptCodec.text " bytes past " ++ Text.address stop

def Cause.categories : Cause → List Category
  | .shortHeader _ => [.truncatedHeader]
  | .badMagic _ => [.badMagic]
  | .range _ => [.truncated, .outOfRange]
  | .noString _ | .startsPastCode .. | .overlap .. | .noTree .. | .noImport .. => [.corrupt]
  | .endsPastInput .. | .tooManyCases .. => [.truncated]
  | .unhandledOpcode .. => [.unhandledOpcode]
  | .overrun .. => [.functionOverrun]

def message (e : DecodeError) : Bytes :=
  (e.places.flatMap fun p => p.text ++ ScriptCodec.text ": ") ++ e.cause.text

def categories (e : DecodeError) : List Category := e.cause.categories

def ofCause (cause : Cause) : DecodeError := ⟨[], cause⟩

def ofRange (fault : RangeFault) : DecodeError := ofCause (.range fault)

def within (p : Place) (e : DecodeError) : DecodeError := { e with places := p :: e.places }

end DecodeError

abbrev Decoding (α : Type) := Except DecodeError α

namespace Decoding

def fail {α : Type} (cause : DecodeError.Cause) : Decoding α := .error (.ofCause cause)

def ofRange {α : Type} (r : Except RangeFault α) : Decoding α := r.mapError .ofRange

def within {α : Type} (p : DecodeError.Place) (r : Decoding α) : Decoding α :=
  r.mapError (.within p)

end Decoding
end ScriptCodec

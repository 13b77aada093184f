import ScriptCodec.Module.Basic
import ScriptCodec.Opcode.Table

/-!
Writing a module as a listing: a banner of comment lines, the includes, an empty line and the
functions. The label of an offset stands on a line of its own before the instruction there.
-/
namespace ScriptCodec.Listing

structure PrintError where
  function : Bytes
  offset : UInt32
  fault : NameFault
deriving DecidableEq, Repr

namespace PrintError

def message (e : PrintError) : Bytes :=
  text "print " ++ e.function ++ text " at " ++ Text.address e.offset ++ text ": " ++
    e.fault.message

def categories (e : PrintError) : List Category := e.fault.categories

end PrintError

def defaultBanner : List Bytes := [text "// T6 GSC ASSEMBLY"]

def bannerLine (line : Bytes) : Bytes :=
  (if [0x2F, 0x2F].isPrefixOf line then line else text "// " ++ line) ++ [0x0A]

def labelLine (labels : Labels) (offset : UInt32) : Bytes :=
  match labels.nameAt? offset with
  | some name => 0x09 :: (name ++ [0x3A, 0x0A])
  | none => []

def instructionText (name : Bytes) (args : List Bytes) : Bytes :=
  [0x09, 0x09] ++ name ++ (args.flatMap fun a => 0x20 :: a) ++ [0x0A]

def printInstruction (opcodes : OpcodeTable) (fn : Function) (inst : Instruction) :
    Except PrintError Bytes :=
  match opcodes.name inst.opcode with
  | .error fault => .error ⟨fn.name, inst.offset, fault⟩
  | .ok name => .ok (labelLine fn.labelMap inst.offset ++ instructionText name inst.args)

def printFunction (opcodes : OpcodeTable) (fn : Function) : Except PrintError Bytes :=
  (fn.code.mapM (printInstruction opcodes fn)).map fun body =>
    let first := text "sub_" ++ fn.name ++ [0x20] ++ Text.decimal fn.params.toNat ++ [0x20] ++
      Text.decimal fn.flags.toNat ++ [0x0A]
    let last := if body.isEmpty then [] else labelLine fn.labelMap fn.stop
    first ++ body.flatten ++ last ++ text "end_" ++ fn.name ++ [0x0A, 0x0A]

/-- Prints a module; `none` stands for the default banner. -/
def print (opcodes : OpcodeTable) (banner : Option (List Bytes)) (m : Module) :
    Except PrintError Bytes :=
  (m.functionList.mapM (printFunction opcodes)).map fun functions =>
    (banner.getD defaultBanner).flatMap bannerLine ++
      (m.includeList.flatMap fun path => text "#include " ++ path ++ [0x0A]) ++ [0x0A] ++
      functions.flatten

end ScriptCodec.Listing

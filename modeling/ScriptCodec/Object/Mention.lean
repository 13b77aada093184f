import ScriptCodec.Object.AssembleError

/-!
What a module mentions: the strings it needs pooled, the callees it imports and the animation
trees it uses, each in the order of first use. All of it is known before any code is laid out, so
the offsets of the pool and of the code are, too.
-/
namespace ScriptCodec

structure Callee where
  space : Bytes
  name : Bytes
  kind : ImportKind
deriving DecidableEq, Repr

def ImportDecl.callee (d : ImportDecl) : Callee := ⟨d.space, d.name, d.kind⟩

structure Mention where
  strings : List Bytes := []
  callee : Option Callee := none
  tree : Option Bytes := none
deriving DecidableEq, Repr

def Opcode.importKind (op : Opcode) : ImportKind :=
  if op = getFunction then ImportKind.pointer
  else if op = callBuiltin ∨ op = scriptCall then ImportKind.call
  else if op = scriptThreadCall then ImportKind.thread
  else if op = callBuiltinMethod ∨ op = scriptMethodCall then ImportKind.method
  else if op = scriptMethodThreadCall then ImportKind.methodThread
  else 0

namespace OpcodeTable

def kind (t : OpcodeTable) (op : Opcode) : Assembling OperandKind :=
  match t.name op with
  | .error fault => Assembling.fail (.naming fault)
  | .ok _ =>
    match op.kind? with
    | none => Assembling.fail (.unhandledOpcode op)
    | some kind => .ok kind

end OpcodeTable

namespace Operand

def animation (args : List Bytes) : Except OperandFault (Bytes × Bytes) :=
  match args with
  | [tree, _] => (quoted args 1).map fun anim => (tree, anim)
  | _ => .error (.wantCount 2 args.length)

end Operand

def Module.hasGap (m : Module) : Bool := (m.functions.getD []).any Option.isNone

/-- Whether looking for the function of a callee that is not declared comes to a gap in the list of
functions before it finds one. -/
def Module.seeksPastGap (m : Module) (c : Callee) : Bool :=
  !(m.importList.any fun d => d.space == c.space && d.name == c.name) &&
    ((m.functions.getD []).find? fun f => f.all fun fn => fn.name == c.name) == some none

namespace Mention

def ofInstruction (t : OpcodeTable) (inst : Instruction) : Assembling Mention :=
  (t.kind inst.opcode).bind fun kind =>
    match kind with
    | .string =>
      (Assembling.ofOperand (Operand.quoted inst.args 0)).map fun s => { strings := [s] }
    | .field => (Assembling.ofOperand (Operand.single inst.args)).map fun s => { strings := [s] }
    | .locals => .ok { strings := inst.args }
    | .animation =>
      (Assembling.ofOperand (Operand.animation inst.args)).map fun (tree, anim) =>
        { strings := [tree, anim], tree := some tree }
    | .call | .function =>
      (Assembling.ofOperand (Operand.callee inst.args)).map fun (space, name) =>
        { strings := [name, space], callee := some ⟨space, name, Opcode.importKind inst.opcode⟩ }
    | _ => .ok {}

/-- What an entry of a function's code mentions. The function that a callee names is looked for at
once, and `lost` says that this cannot be done. -/
def ofEntry (t : OpcodeTable) (lost : Callee → Bool) : Option Instruction → Assembling Mention
  | none => Assembling.fail .gap
  | some inst =>
    ((ofInstruction t inst).within (.instruction inst.opcode inst.offset)).bind fun found =>
      if found.callee.any lost then Assembling.fail .gap else .ok found

def ofFunction (t : OpcodeTable) (lost : Callee → Bool) (fn : Function) :
    Assembling (List Mention) :=
  (fn.instructions.getD []).mapM fun entry => (ofEntry t lost entry).within (.function fn.name)

end Mention

structure Mentions where
  functions : List (Bytes × List Mention)

namespace Mentions

def ofModule (t : OpcodeTable) (m : Module) : Assembling Mentions :=
  let lost : Callee → Bool := if m.hasGap then m.seeksPastGap else fun _ => false
  ((m.functions.getD []).mapM fun
    | none => Assembling.fail .gap
    | some fn => (Mention.ofFunction t lost fn).map fun found => (fn.name, found)).map
      fun functions => ⟨functions⟩

def all (ms : Mentions) : List Mention := ms.functions.flatMap Prod.snd

def strings (ms : Mentions) (m : Module) : List Bytes :=
  (if m.name.isEmpty then [] else [m.name]) ++ m.includeList ++
    ms.functions.flatMap fun (name, found) => name :: found.flatMap Mention.strings

def pool (ms : Mentions) (m : Module) : StringPool := (ms.strings m).foldl .add .empty

def callees (ms : Mentions) : List Callee := (ms.all.filterMap Mention.callee).eraseDups

def trees (ms : Mentions) : List Bytes := (ms.all.filterMap Mention.tree).eraseDups

end Mentions

namespace Module

/-- The parameter count of a callee: from a declaration of its kind, else from the first
declaration of its name, else from a function of its name, else zero. -/
def calleeParams (m : Module) (c : Callee) : UInt8 :=
  let decls := m.importList.filter fun d => d.space == c.space && d.name == c.name
  match decls.find? fun d => d.kind == c.kind with
  | some d => d.params
  | none =>
    match decls.head? with
    | some d => d.params
    | none => ((m.findFunction? c.name).map Function.params).getD 0

end Module

def Mentions.imports (ms : Mentions) (m : Module) : List ImportDecl :=
  ms.callees.map fun c => ⟨c.space, c.name, m.calleeParams c, c.kind⟩

end ScriptCodec

import ScriptCodec.Module.Labels
import ScriptCodec.Opcode.Basic

/-!
A script module: its functions as instruction lists with textual operands, the scripts it
includes and the import declarations known for it. It is what decoding a script object and
reading a listing produce, and what assembling consumes. A list that is absent and a list that is
empty mean the same to every operation but are kept apart, because the wire format tells them
apart; so are functions and instructions that are absent from their list.
-/
namespace ScriptCodec

structure Instruction where
  offset : UInt32
  size : UInt32
  opcode : Opcode
  operands : Option (List Bytes)
deriving DecidableEq, Repr

structure Function where
  offset : UInt32
  size : UInt32
  params : UInt8
  flags : UInt8
  name : Bytes
  instructions : Option (List (Option Instruction))
  labels : Option Labels
deriving DecidableEq, Repr

abbrev ImportKind := UInt8

structure ImportDecl where
  space : Bytes
  name : Bytes
  params : UInt8
  kind : ImportKind
deriving DecidableEq, Repr

structure Module where
  name : Bytes
  includes : Option (List Bytes)
  functions : Option (List (Option Function))
  imports : Option (List ImportDecl)
deriving DecidableEq, Repr

namespace ImportKind

def pointer : ImportKind := 1
def call : ImportKind := 2
def thread : ImportKind := 3
def method : ImportKind := 4
def methodThread : ImportKind := 5

def display (kind : ImportKind) : Bytes :=
  if kind = pointer then text "pointer"
  else if kind = call then text "function"
  else if kind = thread then text "thread"
  else if kind = method then text "method"
  else if kind = methodThread then text "method_thread"
  else text "ImportKind(" ++ Text.decimal kind.toNat ++ text ")"

end ImportKind

def Instruction.args (inst : Instruction) : List Bytes := inst.operands.getD []

namespace Function

def code (fn : Function) : List Instruction := (fn.instructions.getD []).filterMap id

def labelMap (fn : Function) : Labels := fn.labels.getD []

def stop (fn : Function) : UInt32 :=
  match fn.code.getLast? with
  | some last => last.offset + last.size
  | none => fn.offset

end Function

namespace Module

def functionList (m : Module) : List Function := (m.functions.getD []).filterMap id

def includeList (m : Module) : List Bytes := m.includes.getD []

def importList (m : Module) : List ImportDecl := m.imports.getD []

def findFunction? (m : Module) (name : Bytes) : Option Function :=
  m.functionList.find? fun fn => fn.name == name

def findImport? (m : Module) (space name : Bytes) : Option ImportDecl :=
  m.importList.find? fun d => d.space == space && d.name == name

def empty : Module := ⟨[], none, none, none⟩

end Module
end ScriptCodec

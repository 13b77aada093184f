import ScriptCodec.Module.Basic
import ScriptCodec.Binary.Image

/-!
A script object as a file: its fixed header and the tables the header points to.
-/
namespace ScriptCodec

structure Header where
  magic : UInt64
  sourceCrc : UInt32
  includeOffset : UInt32
  animTreeOffset : UInt32
  codeOffset : UInt32
  stringFixupOffset : UInt32
  exportsOffset : UInt32
  importsOffset : UInt32
  fixupOffset : UInt32
  profileOffset : UInt32
  codeSize : UInt32
  name : UInt16
  stringFixupCount : UInt16
  exportsCount : UInt16
  importsCount : UInt16
  fixupCount : UInt16
  profileCount : UInt16
  includeCount : UInt8
  animTreeCount : UInt8
  flags : UInt8
deriving DecidableEq, Repr

structure Import where
  name : Bytes
  space : Bytes
  params : UInt8
  kind : ImportKind
  /-- referred to from development blocks only -/
  devOnly : Bool
  refs : List UInt32
deriving DecidableEq, Repr

structure Export where
  checksum : UInt32
  offset : UInt32
  name : Bytes
  params : UInt8
  flags : UInt8
  size : UInt32
deriving DecidableEq, Repr

structure Animation where
  name : Bytes
  ref : UInt32
deriving DecidableEq, Repr

structure AnimTree where
  name : Bytes
  refs : List UInt32
  anims : List Animation
deriving DecidableEq, Repr

structure StringFixup where
  name : Bytes
  refs : List UInt32
deriving DecidableEq, Repr

structure ScriptObject where
  header : Header
  includes : List Bytes
  animTrees : List AnimTree
  fixups : List StringFixup
  imports : List Import
  exports : List Export
  body : Module
deriving DecidableEq, Repr

def Import.devFlag : UInt8 := 0x10

namespace Header

def magicNumber : UInt64 := 0x06000A0D43534780

def length : Nat := 64

def bytes (h : Header) : Bytes :=
  Word.u64 h.magic ++ Word.u32 h.sourceCrc ++ Word.u32 h.includeOffset ++
    Word.u32 h.animTreeOffset ++ Word.u32 h.codeOffset ++ Word.u32 h.stringFixupOffset ++
    Word.u32 h.exportsOffset ++ Word.u32 h.importsOffset ++ Word.u32 h.fixupOffset ++
    Word.u32 h.profileOffset ++ Word.u32 h.codeSize ++ Word.u16 h.name ++
    Word.u16 h.stringFixupCount ++ Word.u16 h.exportsCount ++ Word.u16 h.importsCount ++
    Word.u16 h.fixupCount ++ Word.u16 h.profileCount ++
    [h.includeCount, h.animTreeCount, h.flags, 0]

def read (img : Image) : Except RangeFault Header := do
  return {
    magic := ← img.u64 0
    sourceCrc := ← img.u32 8
    includeOffset := ← img.u32 12
    animTreeOffset := ← img.u32 16
    codeOffset := ← img.u32 20
    stringFixupOffset := ← img.u32 24
    exportsOffset := ← img.u32 28
    importsOffset := ← img.u32 32
    fixupOffset := ← img.u32 36
    profileOffset := ← img.u32 40
    codeSize := ← img.u32 44
    name := ← img.u16 48
    stringFixupCount := ← img.u16 50
    exportsCount := ← img.u16 52
    importsCount := ← img.u16 54
    fixupCount := ← img.u16 56
    profileCount := ← img.u16 58
    includeCount := ← img.u8 60
    animTreeCount := ← img.u8 61
    flags := ← img.u8 62 }

end Header
end ScriptCodec

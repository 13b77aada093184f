import Std.Data.TreeMap
import ScriptCodec.Object.ExportSizes

/-!
The tables of a script object, read at the offsets its header gives. A table with no records is
not looked at, so its offset may be anything.
-/
namespace ScriptCodec

/-- The pooled strings by their offset. -/
abbrev StringTable := Std.TreeMap UInt32 Bytes

namespace StringTable

def lookup (strings : StringTable) (key : UInt32) : Decoding Bytes :=
  match strings[key]? with
  | some s => .ok s
  | none => Decoding.fail (.noString key)

/-- An animation may have a key that leads nowhere; its name is then empty. -/
def lookupAnim (strings : StringTable) (key : UInt32) : Bytes := strings[key]?.getD []

end StringTable

namespace Image

theorem le_of_findZero {img : Image} {pos stop : Nat} (h : findZero img pos = some stop) :
    pos ≤ stop := by
  fun_induction findZero img pos with
  | case1 => simp_all
  | case2 pos _ _ ih => exact Nat.le_trans (Nat.le_succ pos) (ih h)
  | case3 => simp_all

theorem lt_of_cstring {img : Image} {pos next : Nat} {s : Bytes}
    (h : img.cstring pos = .ok (s, next)) : pos < next := by
  unfold cstring at h
  split at h
  · simp at h
  · split at h
    · rename_i stop hz
      have := le_of_findZero hz
      simp only [Except.ok.injEq, Prod.mk.injEq] at h
      omega
    · simp at h

end Image

namespace Tables

def stringsFrom (img : Image) (stop pos : Nat) (strings : StringTable) : Decoding StringTable :=
  if pos < stop then
    match _h : img.cstring pos with
    | .error fault => .error (.ofRange fault)
    | .ok (s, next) => stringsFrom img stop next (strings.insert (UInt32.ofNat pos) s)
  else .ok strings
termination_by stop - pos
decreasing_by
  have := Image.lt_of_cstring _h
  omega

def strings (img : Image) (h : Header) : Decoding StringTable :=
  (stringsFrom img h.includeOffset.toNat Header.length {}).within .pool

def recordsFrom {α : Type} (read : Nat → Nat → Decoding (α × Nat)) (index pos : Nat)
    (done : List α) : Nat → Decoding (List α)
  | 0 => .ok done.reverse
  | count + 1 =>
    (read index pos).bind fun (r, next) => recordsFrom read (index + 1) next (r :: done) count

/-- Reads a table; a bad offset is an error of its first record. -/
def records {α : Type} (img : Image) (which : DecodeError.Section) (offset : UInt32)
    (read : Nat → Nat → Decoding (α × Nat)) (count : Nat) : Decoding (List α) :=
  if count = 0 then .ok []
  else
    ((Decoding.ofRange (img.seek offset.toNat)).within (.entry which 0)).bind fun pos =>
      recordsFrom read 0 pos [] count

def wordsFrom (img : Image) (pos : Nat) (done : List UInt32) : Nat → Except RangeFault (List UInt32)
  | 0 => .ok done.reverse
  | count + 1 => (img.u32 pos).bind fun w => wordsFrom img (pos + 4) (w :: done) count

def words (img : Image) (pos count : Nat) : Except RangeFault (List UInt32) :=
  wordsFrom img pos [] count

def includes (img : Image) (h : Header) (strings : StringTable) : Decoding (List Bytes) :=
  let entry (index pos : Nat) : Decoding (Bytes × Nat) :=
    Decoding.within (.entry .includes index) do
      let key ← Decoding.ofRange (img.u32 pos)
      let name ← strings.lookup key
      return (name, pos + 4)
  records img .includes h.includeOffset entry h.includeCount.toNat

def animationsFrom (strings : StringTable) (done : List Animation) : List UInt32 → List Animation
  | key :: ref :: rest => animationsFrom strings (⟨strings.lookupAnim key, ref⟩ :: done) rest
  | _ => done.reverse

def animations (strings : StringTable) (pairs : List UInt32) : List Animation :=
  animationsFrom strings [] pairs

def animTree (img : Image) (strings : StringTable) (index pos : Nat) :
    Decoding (AnimTree × Nat) := do
  let (nameKey, refCount, animCount) ← Decoding.within (.entry .animTrees index)
    (Decoding.ofRange do
      let nameKey ← img.u16 pos
      let refCount ← img.u16 (pos + 2)
      let animCount ← img.u16 (pos + 4)
      let _ ← img.seek (pos + 8)
      return (nameKey, refCount, animCount))
  let name ← (strings.lookup nameKey.toUInt32).within (.entry .animTrees index)
  let afterRefs := pos + 8 + 4 * refCount.toNat
  let (refs, anims) ← Decoding.within (.named .animTrees name) (Decoding.ofRange do
    let refs ← words img (pos + 8) refCount.toNat
    let anims ← words img afterRefs (2 * animCount.toNat)
    return (refs, anims))
  return (⟨name, refs, animations strings anims⟩, afterRefs + 8 * animCount.toNat)

def animTrees (img : Image) (h : Header) (strings : StringTable) : Decoding (List AnimTree) :=
  records img .animTrees h.animTreeOffset (animTree img strings) h.animTreeCount.toNat

def stringFixup (img : Image) (strings : StringTable) (index pos : Nat) :
    Decoding (StringFixup × Nat) := do
  let (nameKey, refCount) ← Decoding.within (.entry .stringFixups index) (Decoding.ofRange do
    let nameKey ← img.u16 pos
    let refCount ← img.u8 (pos + 2)
    let _ ← img.seek (pos + 4)
    return (nameKey, refCount))
  let name ← (strings.lookup nameKey.toUInt32).within (.entry .stringFixups index)
  let refs ← Decoding.within (.named .stringFixups name)
    (Decoding.ofRange (words img (pos + 4) refCount.toNat))
  return (⟨name, refs⟩, pos + 4 + 4 * refCount.toNat)

def stringFixups (img : Image) (h : Header) (strings : StringTable) : Decoding (List StringFixup) :=
  records img .stringFixups h.stringFixupOffset (stringFixup img strings) h.stringFixupCount.toNat

def importEntry (img : Image) (strings : StringTable) (index pos : Nat) :
    Decoding (Import × Nat) := do
  let (nameKey, spaceKey, refCount, params, flags) ← Decoding.within (.entry .imports index)
    (Decoding.ofRange do
      let nameKey ← img.u16 pos
      let spaceKey ← img.u16 (pos + 2)
      let refCount ← img.u16 (pos + 4)
      let params ← img.u8 (pos + 6)
      let flags ← img.u8 (pos + 7)
      return (nameKey, spaceKey, refCount, params, flags))
  let name ← (strings.lookup nameKey.toUInt32).within (.importName index)
  let space ← (strings.lookup spaceKey.toUInt32).within (.importSpace name)
  let refs ← Decoding.within (.named .imports name)
    (Decoding.ofRange (words img (pos + 8) refCount.toNat))
  let entry : Import := {
    name, space, params, refs
    kind := flags &&& ~~~ Import.devFlag
    devOnly := flags &&& Import.devFlag ≠ 0 }
  return (entry, pos + 8 + 4 * refCount.toNat)

def imports (img : Image) (h : Header) (strings : StringTable) : Decoding (List Import) :=
  records img .imports h.importsOffset (importEntry img strings) h.importsCount.toNat

def exportEntry (img : Image) (strings : StringTable) (index pos : Nat) : Decoding (Export × Nat) :=
  Decoding.within (.entry .exports index) do
    let (checksum, offset, nameKey, params, flags) ← Decoding.ofRange do
      let checksum ← img.u32 pos
      let offset ← img.u32 (pos + 4)
      let nameKey ← img.u16 (pos + 8)
      let params ← img.u8 (pos + 10)
      let flags ← img.u8 (pos + 11)
      return (checksum, offset, nameKey, params, flags)
    let name ← strings.lookup nameKey.toUInt32
    return (⟨checksum, offset, name, params, flags, 0⟩, pos + 12)

def exports (img : Image) (h : Header) (strings : StringTable) : Decoding (List Export) := do
  let entries ← records img .exports h.exportsOffset (exportEntry img strings) h.exportsCount.toNat
  ExportSizes.derive img entries (h.codeOffset + h.codeSize)

end Tables
end ScriptCodec

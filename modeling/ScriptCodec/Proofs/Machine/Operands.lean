import ScriptCodec.Proofs.Machine.Sections

/-!
Operands as the machine reads them. An instruction grows by what is read of it: its size by the
padding and the entries of a list, its operands one by one. Failed reads and keys that lead to no
string are looked at when all operands have been read; an entry of a table is taken by the number
that an index has for it.
-/
namespace ScriptCodec.Machine

open Pass

structure Lookups where
  opcodes : OpcodeTable
  strings : StringTable
  trees : List AnimTree
  animRefs : Refs
  imports : List Import
  importRefs : Refs

structure Parsed where
  size : UInt32
  operands : List Bytes := []
  /-- the first key that leads to no string -/
  missing : Option DecodeError := none
  target : Option UInt32 := none

def spelled (strings : StringTable) (missing : Option DecodeError) (key : UInt32) :
    Bytes × Option DecodeError :=
  match strings.lookup key with
  | .ok s => (s, missing)
  | .error e => ([], missing.or (some e))

def Parsed.addString (strings : StringTable) (parsed : Parsed) (key : UInt32) : Parsed :=
  let (s, missing) := spelled strings parsed.missing key
  { parsed with operands := parsed.operands ++ [s], missing }

def Parsed.outcome (parsed : Parsed) (op : Opcode) (start : UInt32) :
    Decoding (Instruction × Option UInt32) :=
  match parsed.missing with
  | some e => .error (e.within (.instruction op start))
  | none => .ok (⟨start, parsed.size, op, Disassembly.listed parsed.operands⟩, parsed.target)

section

variable (l : Lookups) (img : Image)

def aligned (width : Nat) (size : UInt32) : Reading (Nat × UInt32) := do
  let pad ← align width
  let v ← word img width
  return (v, size + UInt32.ofNat pad)

def animationKey (size : UInt32) : Reading (Nat × UInt32 × UInt32) := do
  let pad ← align 4
  let ref ← here
  let key ← word img 4
  return (key, ref, size + UInt32.ofNat pad)

def calleeKey (size : UInt32) : Reading (Nat × UInt32) := do
  skip img 1
  aligned img 4 size

def plain (width : Nat) (spell : Nat → Bytes) (size : UInt32) : Reading Parsed := do
  let (v, size) ← aligned img width size
  return { size, operands := [spell v] }

def vector (size : UInt32) : Reading Parsed := do
  let pad ← align 4
  let components ← words img 3
  return { size := size + UInt32.ofNat pad, operands := components.map FloatText.component }

def literal (spell : Bytes → Bytes) (size : UInt32) : Pass Parsed := do
  let (key, size) ← ofReading (aligned img 2 size)
  unlessFaulted { size } <|
    let (s, missing) := spelled l.strings none (UInt32.ofNat key)
    return { size, operands := [spell s], missing }

def entryAt {α : Type} (entries : List α) (index : Refs) (ref : UInt32)
    (missing : DecodeError.Cause) : Pass α :=
  match index[ref]? with
  | none => fail missing
  | some i => ofGuarded (element entries i)

def animation (op : Opcode) (start size : UInt32) : Pass Parsed := do
  let (key, ref, size) ← ofReading (animationKey img size)
  unlessFaulted { size } do
    let tree ← entryAt l.trees l.animRefs ref (.noTree op start ref)
    let anim := Text.quote (l.strings.lookupAnim (UInt32.ofNat key))
    return { size, operands := [tree.name, anim] }

def localRound (parsed : Parsed) : Reading Parsed := do
  if ← hasFault then return parsed
  let pad ← align 2
  let key ← word img 2
  let size := parsed.size + (UInt32.ofNat pad + 2)
  if ← hasFault then return { parsed with size }
  return { parsed with size }.addString l.strings (UInt32.ofNat key)

def locals (size : UInt32) : Reading Parsed := do
  let count ← u8 img
  repeated (localRound l img) count.toNat { size }

def caseRound (parsed : Parsed) : Reading Parsed := do
  if ← hasFault then return parsed
  let value ← u32 img
  let distance ← u32 img
  return { parsed with
    size := parsed.size + 8
    operands := parsed.operands ++ Disassembly.caseValues [value, distance] }

def remaining : Reading Nat := fun r => .ok (img.size - r.pos, r)

def caseCount (size : UInt32) : Reading (Nat × Nat × UInt32) := do
  let (count, size) ← aligned img 4 size
  let left ← remaining img
  return (count, left, size)

def cases (op : Opcode) (start size : UInt32) : Pass Parsed := do
  let (count, left, size) ← ofReading (caseCount img size)
  unlessFaulted { size } <|
    if left < count * 8 then fail (.tooManyCases op start (UInt32.ofNat count))
    else ofReading (repeated (caseRound img) count { size })

def callee (op : Opcode) (start : UInt32) (key : Reading (Nat × UInt32)) : Pass Parsed := do
  let (key, size) ← ofReading key
  unlessFaulted { size } do
    let (name, missing) := spelled l.strings none (UInt32.ofNat key)
    let entry ← entryAt l.imports l.importRefs start (.noImport op name start)
    return { size, operands := Disassembly.calleeOperands entry.space name, missing }

def branch (width : Nat) (start size : UInt32) : Pass Parsed := do
  let (v, size) ← ofReading (aligned img width size)
  unlessFaulted { size } <|
    let target := Branch.target start size (Disassembly.signedWord width v)
    return { size, operands := [Labels.nameOf target], target := some target }

def parse (op : Opcode) (kind : OperandKind) (start : UInt32) : Pass Parsed :=
  let size := UInt32.ofNat kind.baseSize
  match kind with
  | .none => return { size }
  | .byte => ofReading do
    let v ← u8 img
    return { size, operands := [Text.decimal v.toNat] }
  | .short => ofReading (plain img 2 Text.decimal size)
  | .integer =>
    ofReading (plain img 4 (fun v => Text.decimalInt (Disassembly.signedWord 4 v)) size)
  | .float => ofReading (plain img 4 (fun v => FloatText.scalar (UInt32.ofNat v)) size)
  | .vector => ofReading (vector img size)
  | .string => literal l img Text.quote size
  | .field => literal l img id size
  | .animation => animation l img op start size
  | .hash => ofReading (plain img 4 Text.hex size)
  | .locals => ofReading (locals l img size)
  | .cases => cases img op start size
  | .call => callee l op start (calleeKey img size)
  | .function => callee l op start (aligned img 4 size)
  | .jump => branch img 2 start size
  | .longJump => branch img 4 start size

def operands (op : Opcode) (kind : OperandKind) (start : UInt32) :
    Pass (Instruction × Option UInt32) := do
  let parsed ← parse l img op kind start
  within (.instruction op start) check
  ofDecoding (parsed.outcome op start)

end

structure Matches (l : Lookups) (t : DecodeTables) : Prop where
  opcodes : l.opcodes = t.opcodes
  strings : l.strings = t.strings
  trees : Indexes l.animRefs l.trees t.treeAt
  imports : Indexes l.importRefs l.imports t.importAt

section

variable (img : Image)

theorem reads_aligned (width : Nat) (size : UInt32) :
    Reads (aligned img width size) fun pos => (Disassembly.aligned img width pos).map fun r =>
      ((r.1, size + UInt32.ofNat r.2.1), r.2.2) := by
  refine ((reads_align width).bind fun pad => (reads_word img width).bind fun v =>
    Reads.pure _).of_eq fun pos => ?_
  simp only [Disassembly.aligned, Except.map_eq_bind, Except.bind_bind, Except.ok_bind]

theorem reads_animationKey (size : UInt32) :
    Reads (animationKey img size) fun pos => (Disassembly.aligned img 4 pos).map fun r =>
      ((r.1, UInt32.ofNat (pos + r.2.1), size + UInt32.ofNat r.2.1), r.2.2) := by
  refine ((reads_align 4).bind fun pad => reads_here.bind fun ref => (reads_word img 4).bind fun v =>
    Reads.pure _).of_eq fun pos => ?_
  simp only [Disassembly.aligned, Except.map_eq_bind, Except.bind_bind, Except.ok_bind]

theorem reads_calleeKey (size : UInt32) :
    Reads (calleeKey img size) fun pos =>
      ((img.seek (pos + 1)).bind fun next => Disassembly.aligned img 4 next).map fun r =>
        ((r.1, size + UInt32.ofNat r.2.1), r.2.2) := by
  refine ((reads_skip img 1).bind fun _ => reads_aligned img 4 size).of_eq fun pos => ?_
  rw [Image.seek]
  split
  · rfl
  · rfl

theorem reads_plain (width : Nat) (spell : Nat → Bytes) (size : UInt32) :
    Reads (plain img width spell size) fun pos => (Disassembly.aligned img width pos).map fun r =>
      (⟨size + UInt32.ofNat r.2.1, [spell r.1], none, none⟩, r.2.2) := by
  refine ((reads_aligned img width size).bind fun v => Reads.pure _).of_eq fun pos => ?_
  simp only [Except.map_eq_bind, Except.bind_bind, Except.ok_bind]

theorem reads_vector (size : UInt32) :
    Reads (vector img size) fun pos =>
      (Tables.words img (pos + Word.padding 4 pos) 3).map fun ws =>
        (⟨size + UInt32.ofNat (Word.padding 4 pos), ws.map FloatText.component, none, none⟩,
          pos + Word.padding 4 pos + 12) := by
  refine ((reads_align 4).bind fun pad => (reads_words img 3).bind fun ws =>
    Reads.pure _).of_eq fun pos => ?_
  simp only [Except.map_eq_bind, Except.bind_bind, Except.ok_bind, Nat.reduceMul]

theorem localsFrom_eq (count extra pos : Nat) (done : List UInt32) :
    Disassembly.localsFrom img extra pos done count =
      (Disassembly.localsFrom img 0 pos [] count).map fun r =>
        (done.reverse ++ r.1, extra + r.2.1, r.2.2) := by
  induction count generalizing extra pos done with
  | zero => simp [Disassembly.localsFrom, Except.map]
  | succ count ih =>
    rw [Disassembly.localsFrom, Disassembly.localsFrom]
    cases Disassembly.aligned img 2 pos with
    | error fault => rfl
    | ok r =>
      obtain ⟨key, pad, next⟩ := r
      simp only [Except.ok_bind]
      rw [ih, ih (0 + pad + 2)]
      cases Disassembly.localsFrom img 0 next [] count with
      | error fault => rfl
      | ok rest => simp [Except.map, Nat.add_assoc]

theorem reads_localRound (l : Lookups) (parsed : Parsed) :
    Reads (localRound l img parsed) fun pos => (Disassembly.aligned img 2 pos).map fun r =>
      ({ parsed with size := parsed.size + (UInt32.ofNat r.2.1 + 2) }.addString l.strings
        (UInt32.ofNat r.1), r.2.2) := by
  refine (((reads_align 2).bind fun pad => (reads_word img 2).bind fun key =>
    (Reads.pure _).unlessFaulted _).unlessFaulted _).of_eq fun pos => ?_
  simp only [Disassembly.aligned, Except.map_eq_bind, Except.bind_bind, Except.ok_bind]

theorem reads_locals (l : Lookups) (size : UInt32) :
    Reads (locals l img size) fun pos => (img.u8 pos).bind fun count =>
      (Disassembly.localsFrom img 0 (pos + 1) [] count.toNat).map fun r =>
        (r.1.foldl (Parsed.addString l.strings) { size := size + UInt32.ofNat r.2.1 }, r.2.2) := by
  have hrounds (count : Nat) := reads_repeated (fun count parsed pos =>
      (Disassembly.localsFrom img 0 pos [] count).map fun r =>
        (r.1.foldl (Parsed.addString l.strings)
          { parsed with size := parsed.size + UInt32.ofNat r.2.1 }, r.2.2))
    (reads_localRound img l) ?_ ?_ count { size }
  · refine ((reads_u8 img).bind fun count => hrounds count.toNat).of_eq fun pos => ?_
    simp only [Except.map_eq_bind, Except.bind_bind, Except.ok_bind]
  · intro parsed pos
    simp [Disassembly.localsFrom, Except.map]
  · intro count parsed pos
    rw [Disassembly.localsFrom]
    cases Disassembly.aligned img 2 pos with
    | error fault => rfl
    | ok r =>
      obtain ⟨key, pad, next⟩ := r
      have hsize (extra : Nat) : parsed.size + UInt32.ofNat (0 + pad + 2 + extra) =
          parsed.size + (UInt32.ofNat pad + 2) + UInt32.ofNat extra := by
        rw [Nat.zero_add, UInt32.ofNat_add, UInt32.ofNat_add, ← UInt32.add_assoc]
        rfl
      simp only [Except.map_eq_bind, Except.ok_bind]
      rw [localsFrom_eq]
      simp only [Except.map_eq_bind, Except.bind_bind, Except.ok_bind, hsize]
      rfl

theorem reads_caseRound (parsed : Parsed) :
    Reads (caseRound img parsed) fun pos => (img.u32 pos).bind fun value =>
      (img.u32 (pos + 4)).map fun distance => ({ parsed with
        size := parsed.size + 8
        operands := parsed.operands ++ Disassembly.caseValues [value, distance] }, pos + 8) :=
  (reads_pair img _).unlessFaulted _

theorem reads_remaining : Reads (remaining img) fun pos => .ok (img.size - pos, pos) where
  ok := by
    intro pos v next h
    obtain ⟨rfl, rfl⟩ := Prod.mk.inj (Except.ok.inj h)
    rfl
  cut := nofun
  kept := fun pos _ => ⟨img.size - pos, pos, rfl⟩

theorem reads_caseCount (size : UInt32) :
    Reads (caseCount img size) fun pos => (Disassembly.aligned img 4 pos).map fun r =>
      ((r.1, img.size - r.2.2, size + UInt32.ofNat r.2.1), r.2.2) := by
  refine ((reads_aligned img 4 size).bind fun x => (reads_remaining img).bind fun left =>
    Reads.pure _).of_eq fun pos => ?_
  simp only [Except.map_eq_bind, Except.bind_bind, Except.ok_bind]

theorem reads_cases (count : Nat) (size : UInt32) :
    Reads (repeated (caseRound img) count { size }) fun pos =>
      (Tables.words img pos (2 * count)).map fun ws =>
        (⟨size + UInt32.ofNat (4 * ws.length), Disassembly.caseValues ws, none, none⟩,
          pos + 8 * count) := by
  refine reads_pairs img _ (fun parsed ws => { parsed with
      size := parsed.size + UInt32.ofNat (4 * ws.length)
      operands := parsed.operands ++ Disassembly.caseValues ws }) (reads_caseRound img) ?_ ?_
    count { size }
  · intro parsed
    simp [Disassembly.caseValues]
  · intro parsed value distance ws
    have hsize : UInt32.ofNat (4 * (ws.length + 1 + 1)) = 8 + UInt32.ofNat (4 * ws.length) := by
      rw [show 4 * (ws.length + 1 + 1) = 8 + 4 * ws.length by omega, UInt32.ofNat_add]
      rfl
    simp only [List.length_cons, hsize, Disassembly.caseValues, List.map_cons, List.map_nil,
      List.append_assoc, List.cons_append, List.nil_append, UInt32.add_assoc]

end

section

theorem decodes_entryAt {α : Type} {entries : List α} {refs : Refs}
    {index : Std.TreeMap UInt32 α} (h : Indexes refs entries index) (ref : UInt32)
    (missing : DecodeError.Cause) :
    Decodes (entryAt entries refs ref missing) fun pos =>
      match index[ref]? with
      | none => Decoding.fail missing
      | some x => .ok (x, pos) := by
  rw [entryAt]
  rcases h ref with ⟨hnone, hindex⟩ | ⟨i, x, hi, hx, hindex⟩
  · rw [hnone, hindex]
    exact Decodes.ofDecoding _
  · rw [hi, hindex]
    exact Decodes.ofGuarded (by rw [element, hx])

theorem missing_addStrings (strings : StringTable) {e : DecodeError} (keys : List UInt32)
    {parsed : Parsed} (hmissing : parsed.missing = some e) :
    (keys.foldl (Parsed.addString strings) parsed).missing = some e := by
  induction keys generalizing parsed with
  | nil => exact hmissing
  | cons key keys ih =>
    refine ih ?_
    rw [Parsed.addString, spelled, hmissing]
    cases strings.lookup key with
    | error first => rfl
    | ok s => rfl

variable (op : Opcode) (start : UInt32)

theorem outcome_addStrings (strings : StringTable) (keys : List UInt32) (size : UInt32)
    (operands : List Bytes) :
    (keys.foldl (Parsed.addString strings) ⟨size, operands, none, none⟩).outcome op start =
      (keys.mapM fun key => (strings.lookup key).within (.instruction op start)).bind fun names =>
        .ok (⟨start, size, op, Disassembly.listed (operands ++ names)⟩, none) := by
  induction keys generalizing operands with
  | nil => simp [Parsed.outcome, Except.bind, pure, Except.pure]
  | cons key keys ih =>
    rw [List.foldl_cons, List.mapM_cons, Parsed.addString, spelled]
    cases strings.lookup key with
    | error e =>
      -- Later keys are still searched for, but the first failure stays.
      rw [Parsed.outcome, missing_addStrings strings keys rfl]
      rfl
    | ok s =>
      rw [ih]
      simp only [Except.andThen_eq_bind, Except.bind_bind, Except.ok_bind, Decoding.within_ok, pure,
        Except.pure, List.append_assoc, List.singleton_append]

theorem listed_calleeOperands (space name : Bytes) :
    Disassembly.listed (Disassembly.calleeOperands space name) =
      some (Disassembly.calleeOperands space name) := by
  rw [Disassembly.calleeOperands]
  split
  · rfl
  · rfl

def seen (kind : OperandKind) (read : Disassembly.OperandRead) :
    (Instruction × Option UInt32) × Nat :=
  ((⟨start, UInt32.ofNat kind.baseSize + UInt32.ofNat read.extra, op, read.operands⟩, read.target),
    read.next)

/-- For operands of the kind the machine does what the checked decoding does. -/
def Agrees (img : Image) (l : Lookups) (t : DecodeTables) (kind : OperandKind) : Prop :=
  Decodes (operands l img op kind start) fun pos =>
    (Disassembly.operands t img op kind start pos).map (seen op start kind)

end

section

variable {l : Lookups} {t : DecodeTables} {img : Image} {op : Opcode} {start : UInt32}
  {kind : OperandKind}

theorem agrees_of_parse {m : Pass Parsed} {decode : Nat → Decoding (Parsed × Nat)}
    (hparse : parse l img op kind start = m) (hm : Defers m (.instruction op start) decode)
    (heq : ∀ pos, (Disassembly.operands t img op kind start pos).map (seen op start kind) =
      (decode pos).bind fun r => (r.1.outcome op start).map fun out => (out, r.2)) :
    Agrees op start img l t kind := by
  subst hparse
  exact (hm.settle fun _ => Decodes.ofDecoding _).of_eq heq

theorem agrees_byte : Agrees op start img l t .byte := by
  refine agrees_of_parse rfl (.ofReading ((reads_u8 img).bind fun v => Reads.pure _) _)
    fun pos => ?_
  rw [Disassembly.operands]
  cases img.u8 pos with
  | error fault => rfl
  | ok v => rfl

theorem agrees_plain {width : Nat} {spell : Nat → Bytes}
    (hparse : parse l img op kind start =
      ofReading (plain img width spell (UInt32.ofNat kind.baseSize)))
    (hread : ∀ pos, Disassembly.operands t img op kind start pos =
      ((Decoding.ofRange (Disassembly.aligned img width pos)).within (.instruction op start)).bind
        fun r => .ok ⟨some [spell r.1], r.2.1, r.2.2, none⟩) :
    Agrees op start img l t kind := by
  refine agrees_of_parse hparse (.ofReading (reads_plain img width spell _) _) fun pos => ?_
  rw [hread]
  cases Disassembly.aligned img width pos with
  | error fault => rfl
  | ok r => rfl

theorem agrees_vector : Agrees op start img l t .vector := by
  refine agrees_of_parse rfl (.ofReading (reads_vector img _) _) fun pos => ?_
  simp only [Disassembly.operands]
  rw [words_succ]
  cases img.u32 (pos + Word.padding 4 pos) with
  | error fault => rfl
  | ok w =>
    simp only [Except.ok_bind]
    cases Tables.words img (pos + Word.padding 4 pos + 4) 2 with
    | error fault => rfl
    | ok ws => rfl

theorem agrees_branch {width : Nat}
    (hparse : parse l img op kind start = branch img width start (UInt32.ofNat kind.baseSize))
    (hread : ∀ pos, Disassembly.operands t img op kind start pos =
      (Decoding.ofRange (Disassembly.branch img kind start width pos)).within
        (.instruction op start)) :
    Agrees op start img l t kind := by
  refine agrees_of_parse hparse (.unlessFaulted (reads_aligned img width _) _ fun r =>
    .of_decodes (Decodes.pure _) _) fun pos => ?_
  rw [hread, Disassembly.branch]
  simp only [UInt32.ofNat_add]
  cases Disassembly.aligned img width pos with
  | error fault => rfl
  | ok r => rfl

theorem defers_cases (size : UInt32) :
    Defers (cases img op start size) (.instruction op start) fun pos =>
      ((Decoding.ofRange (Disassembly.aligned img 4 pos)).within (.instruction op start)).bind fun r =>
        if img.size - r.2.2 < r.1 * 8 then
          Decoding.fail (.tooManyCases op start (UInt32.ofNat r.1))
        else (Decoding.ofRange ((Tables.words img r.2.2 (2 * r.1)).map fun ws =>
          (⟨size + UInt32.ofNat r.2.1 + UInt32.ofNat (4 * ws.length), Disassembly.caseValues ws,
            none, none⟩, r.2.2 + 8 * r.1))).within (.instruction op start) := by
  have hbody (count left : Nat) (size : UInt32) : Defers
      (if left < count * 8 then fail (.tooManyCases op start (UInt32.ofNat count))
        else ofReading (repeated (caseRound img) count { size })) (.instruction op start) fun pos =>
      if left < count * 8 then Decoding.fail (.tooManyCases op start (UInt32.ofNat count))
      else (Decoding.ofRange ((Tables.words img pos (2 * count)).map fun ws =>
        (⟨size + UInt32.ofNat (4 * ws.length), Disassembly.caseValues ws, none, none⟩,
          pos + 8 * count))).within (.instruction op start) := by
    by_cases hlack : left < count * 8
    · simp only [hlack, if_true]
      exact .of_decodes (Decodes.ofDecoding _) _
    · simp only [hlack, if_false]
      exact .ofReading (reads_cases img count size) _
  refine (Defers.unlessFaulted (reads_caseCount img size) _ fun r => hbody r.1 r.2.1 r.2.2).of_eq
    fun pos => ?_
  simp only [Except.map_eq_bind, Except.bind_bind, Except.ok_bind, Decoding.ofRange_bind,
    Decoding.within_bind, Decoding.ofRange_ok, Decoding.within_ok]

/-- Every case has been read in full, so the size has grown by the bytes that are gone. -/
theorem agrees_cases : Agrees op start img l t .cases := by
  refine agrees_of_parse rfl (defers_cases _) fun pos => ?_
  simp only [Disassembly.operands]
  cases haligned : Disassembly.aligned img 4 pos with
  | error fault => rfl
  | ok r =>
    obtain ⟨count, pad, next⟩ := r
    simp only [Except.andThen_eq_bind, Except.ok_bind, Decoding.ofRange_ok, Decoding.within_ok]
    by_cases hlack : img.size - next < count * 8
    · rw [if_pos hlack, if_pos hlack]
      rfl
    rw [if_neg hlack, if_neg hlack]
    cases hwords : Tables.words img next (2 * count) with
    | error fault => rfl
    | ok ws =>
      have hlength := (Tables.words_eq_ok (Disassembly.aligned_eq_ok haligned).2.2.2 hwords).1
      have hsize : UInt32.ofNat (pad + 8 * count) =
          UInt32.ofNat pad + UInt32.ofNat (4 * ws.length) := by
        rw [← UInt32.ofNat_add, hlength, ← Nat.mul_assoc]
      change Except.ok (((⟨start, _ + UInt32.ofNat (pad + 8 * count), op, _⟩ : Instruction), _), _) =
        _
      rw [hsize, ← UInt32.add_assoc]
      rfl

variable (h : Matches l t)

include h

theorem agrees_literal {spell : Bytes → Bytes}
    (hparse : parse l img op kind start = literal l img spell (UInt32.ofNat kind.baseSize))
    (hread : ∀ pos, Disassembly.operands t img op kind start pos =
      ((Decoding.ofRange (Disassembly.aligned img 2 pos)).within (.instruction op start)).bind
        fun r => ((t.strings.lookup (UInt32.ofNat r.1)).within (.instruction op start)).bind
          fun s => .ok ⟨some [spell s], r.2.1, r.2.2, none⟩) :
    Agrees op start img l t kind := by
  refine agrees_of_parse hparse (.unlessFaulted (reads_aligned img 2 _) _ fun r =>
    .of_decodes (Decodes.pure _) _) fun pos => ?_
  rw [hread]
  cases Disassembly.aligned img 2 pos with
  | error fault => rfl
  | ok r =>
    simp only [Except.map_eq_bind, Except.ok_bind, Decoding.ofRange_ok, Decoding.within_ok, h.strings]
    cases t.strings.lookup (UInt32.ofNat r.1) with
    | error e => rfl
    | ok s => rfl

theorem agrees_animation : Agrees op start img l t .animation := by
  refine agrees_of_parse rfl (.unlessFaulted (reads_animationKey img _) _ fun r => .of_decodes
    ((decodes_entryAt h.trees r.2.1 _).bind fun tree => Decodes.pure _) _) fun pos => ?_
  simp only [Disassembly.operands]
  cases Disassembly.aligned img 4 pos with
  | error fault => rfl
  | ok r =>
    simp only [Except.andThen_eq_bind, Except.map_eq_bind, Except.ok_bind, Decoding.ofRange_ok,
      Decoding.within_ok, h.strings]
    cases t.treeAt[UInt32.ofNat (pos + r.2.1)]? with
    | none => rfl
    | some tree => rfl

theorem agrees_locals : Agrees op start img l t .locals := by
  refine agrees_of_parse rfl (.ofReading (reads_locals img l _) _) fun pos => ?_
  simp only [Disassembly.operands]
  cases img.u8 pos with
  | error fault => rfl
  | ok count =>
    simp only [Except.andThen_eq_bind, Except.map_eq_bind, Except.ok_bind, Decoding.ofRange_ok,
      Decoding.within_ok, h.strings]
    cases Disassembly.localsFrom img 0 (pos + 1) [] count.toNat with
    | error fault => rfl
    | ok r =>
      simp only [Except.bind_bind, Except.ok_bind, Decoding.ofRange_ok, Decoding.within_ok,
        outcome_addStrings]
      rfl

theorem agrees_callee {key : Reading (Nat × UInt32)}
    {read : Nat → Except RangeFault (Nat × Nat × Nat)}
    (hkey : Reads key fun pos => (read pos).map fun r =>
      ((r.1, UInt32.ofNat kind.baseSize + UInt32.ofNat r.2.1), r.2.2))
    (hparse : parse l img op kind start = callee l op start key)
    (hread : ∀ pos, Disassembly.operands t img op kind start pos =
      ((Decoding.ofRange (read pos)).within (.instruction op start)).bind fun r =>
        Disassembly.calleeRead t op start (UInt32.ofNat r.1) r.2.1 r.2.2) :
    Agrees op start img l t kind := by
  refine agrees_of_parse hparse (.unlessFaulted hkey _ fun r => .of_decodes
    ((decodes_entryAt h.imports start _).bind fun entry => Decodes.pure _) _) fun pos => ?_
  rw [hread]
  cases read pos with
  | error fault => rfl
  | ok r =>
    simp only [Except.map_eq_bind, Except.ok_bind, Decoding.ofRange_ok, Decoding.within_ok,
      h.strings, Disassembly.calleeRead]
    cases t.importAt[start]? with
    | none =>
      -- The missing import is told before a missing name, which is empty then.
      cases t.strings.lookup (UInt32.ofNat r.1) with
      | error e => rfl
      | ok s => rfl
    | some entry =>
      cases t.strings.lookup (UInt32.ofNat r.1) with
      | error e => rfl
      | ok s =>
        exact (congrArg (fun shown => Except.ok (((⟨start, UInt32.ofNat kind.baseSize +
          UInt32.ofNat r.2.1, op, shown⟩ : Instruction), none), r.2.2))
          (listed_calleeOperands entry.space s)).symm

theorem agrees_operands (kind : OperandKind) : Agrees op start img l t kind := by
  cases kind with
  | none => exact agrees_of_parse rfl (.of_decodes (Decodes.pure _) _) fun pos => rfl
  | byte => exact agrees_byte
  | short => exact agrees_plain rfl fun pos => rfl
  | integer => exact agrees_plain rfl fun pos => rfl
  | float => exact agrees_plain rfl fun pos => rfl
  | vector => exact agrees_vector
  | string => exact agrees_literal h rfl fun pos => rfl
  | field => exact agrees_literal h rfl fun pos => rfl
  | animation => exact agrees_animation h
  | hash => exact agrees_plain rfl fun pos => rfl
  | locals => exact agrees_locals h
  | cases => exact agrees_cases
  | call =>
    refine agrees_callee h (reads_calleeKey img _) rfl fun pos => ?_
    simp only [Disassembly.operands, Except.andThen_eq_bind, Except.bind_bind,
      Decoding.ofRange_bind, Decoding.within_bind]
  | function => exact agrees_callee h (reads_aligned img 4 _) rfl fun pos => rfl
  | jump => exact agrees_branch rfl fun pos => rfl
  | longJump => exact agrees_branch rfl fun pos => rfl

end
end ScriptCodec.Machine

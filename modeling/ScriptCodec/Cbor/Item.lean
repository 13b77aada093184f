import ScriptCodec.Binary.Word

/-!
The data items of the concise binary object representation, read from bytes. An item is a head
byte of a major type and an argument, then what the major type asks for. Reading accepts every
well-formed item, with lengths given or open, inside fixed limits on nesting and on the length of
arrays and maps.
-/
namespace ScriptCodec.Cbor

/-- A data item. A text keeps its pieces apart, because each piece has to be well-formed text. -/
inductive Item where
  | uint (n : Nat)
  | negative (n : Nat)
  | bytes (content : Bytes)
  | text (pieces : List Bytes)
  | array (items : List Item)
  | map (entries : List (Item × Item))
  | tag (number : Nat) (content : Item)
  | simple (n : Nat)
  | float (bits : Nat)
deriving Repr

def maxNesting : Nat := 32

/-- An array may have this many elements, and a map this many pairs. -/
def maxLength : Nat := 131072

inductive Argument where
  | value (info : Nat) (n : Nat)
  | indefinite
deriving DecidableEq, Repr

structure Head where
  major : Nat
  argument : Argument
deriving DecidableEq, Repr

def majorOf (b : UInt8) : Nat := b.toNat / 32

def takeExactly (n : Nat) (s : Bytes) : Option (Bytes × Bytes) :=
  let front := s.take n
  if front.length = n then some (front, s.drop n) else none

def argumentWidth : Nat → Option Nat
  | 24 => some 1
  | 25 => some 2
  | 26 => some 4
  | 27 => some 8
  | _ => none

def readHead : Bytes → Option (Head × Bytes)
  | [] => none
  | b :: rest =>
    let info := b.toNat % 32
    if info < 24 then some (⟨majorOf b, .value info info⟩, rest)
    else if info = 31 then some (⟨majorOf b, .indefinite⟩, rest)
    else
      match argumentWidth info with
      | none => none
      | some width =>
        match takeExactly width rest with
        | some (digits, rest) =>
          some (⟨majorOf b, .value info (Word.ofBytes digits.reverse)⟩, rest)
        | none => none

def head (major n : Nat) : Bytes :=
  if n < 24 then [UInt8.ofNat (major * 32 + n)]
  else if n < 0x100 then UInt8.ofNat (major * 32 + 24) :: (Word.toBytes 1 n).reverse
  else if n < 0x10000 then UInt8.ofNat (major * 32 + 25) :: (Word.toBytes 2 n).reverse
  else if n < 0x100000000 then UInt8.ofNat (major * 32 + 26) :: (Word.toBytes 4 n).reverse
  else UInt8.ofNat (major * 32 + 27) :: (Word.toBytes 8 n).reverse

def breakByte : UInt8 := 0xFF

theorem takeExactly_length {n : Nat} {s front rest : Bytes}
    (h : takeExactly n s = some (front, rest)) : rest.length ≤ s.length := by
  simp only [takeExactly] at h
  split at h
  · simp only [Option.some.injEq, Prod.mk.injEq] at h
    rw [← h.2]
    simp
  · simp at h

theorem readHead_length {s rest : Bytes} {hd : Head} (h : readHead s = some (hd, rest)) :
    rest.length < s.length := by
  cases s with
  | nil => simp [readHead] at h
  | cons b tail =>
    simp only [readHead] at h
    have step := @takeExactly_length
    grind

def readPiece (major : Nat) (s : Bytes) : Option (Bytes × Bytes) :=
  match readHead s with
  | some (⟨m, .value _ n⟩, rest) => if m = major then takeExactly n rest else none
  | _ => none

theorem readPiece_length {major : Nat} {s piece rest : Bytes}
    (h : readPiece major s = some (piece, rest)) : rest.length < s.length := by
  simp only [readPiece] at h
  split at h
  · rename_i hd
    split at h
    · exact Nat.lt_of_le_of_lt (takeExactly_length h) (readHead_length hd)
    · simp at h
  · simp at h

def readPieces (major : Nat) (done : List Bytes) (s : Bytes) : Option (List Bytes × Bytes) :=
  if s.head? = some breakByte then some (done.reverse, s.tail)
  else
    match _h : readPiece major s with
    | some (piece, rest) => readPieces major (piece :: done) rest
    | none => none
termination_by s.length
decreasing_by exact readPiece_length _h

def readString (major : Nat) (argument : Argument) (s : Bytes) : Option (List Bytes × Bytes) :=
  match argument with
  | .value _ n => (takeExactly n s).map fun (content, rest) => ([content], rest)
  | .indefinite => readPieces major [] s

section Sequences

variable {α : Type} (read : Bytes → Option (α × Bytes))

def readTimes (done : List α) : Nat → Bytes → Option (List α × Bytes)
  | 0, s => some (done.reverse, s)
  | n + 1, s =>
    match read s with
    | some (a, rest) => readTimes (a :: done) n rest
    | none => none

def readUntilBreak (done : List α) : Nat → Bytes → Option (List α × Bytes)
  | n, s =>
    if s.head? = some breakByte then some (done.reverse, s.tail)
    else
      match n with
      | 0 => none
      | n + 1 =>
        match read s with
        | some (a, rest) => readUntilBreak (a :: done) n rest
        | none => none

def readElements (argument : Argument) (s : Bytes) : Option (List α × Bytes) :=
  match argument with
  | .value _ n => if n ≤ maxLength then readTimes read [] n s else none
  | .indefinite => readUntilBreak read [] maxLength s

def readPair (s : Bytes) : Option ((α × α) × Bytes) :=
  match read s with
  | some (a, rest) => (read rest).map fun (b, rest) => ((a, b), rest)
  | none => none

end Sequences

/-- The numbers of tags that follow a tag at once. Each is a level of nesting of its own. -/
def readInnerTags : Nat → Bytes → Option (List Nat × Bytes)
  | left, s =>
    if (s.head?.map majorOf) = some 6 then
      match left with
      | 0 => none
      | left + 1 =>
        match readHead s with
        | some (⟨_, .value _ n⟩, rest) =>
          (readInnerTags left rest).map fun (ns, rest) => (n :: ns, rest)
        | _ => none
    else some ([], s)

def readTags (left : Nat) (s : Bytes) : Option (List Nat × Bytes) :=
  if (s.head?.map majorOf) = some 6 then
    match readHead s with
    | some (⟨_, .value _ n⟩, rest) =>
      (readInnerTags left rest).map fun (ns, rest) => (n :: ns, rest)
    | _ => none
  else some ([], s)

/-- A simple value or a floating-point number. A simple value below 32 has no two-byte form. -/
def readSimple : Argument → Option Item
  | .indefinite => none
  | .value info n =>
    if info < 24 then some (.simple n)
    else if info = 24 then if n < 32 then none else some (.simple n)
    else some (.float n)

def readItem (left : Nat) (s : Bytes) : Option (Item × Bytes) :=
  match readTags left s with
  | none => none
  | some (tags, s) =>
    let left' := left - (tags.length - 1)
    let untagged : Option (Item × Bytes) :=
      match readHead s with
      | none => none
      | some (⟨major, argument⟩, rest) =>
        match major, argument with
        | 0, .value _ n => some (.uint n, rest)
        | 1, .value _ n => some (.negative n, rest)
        | 2, _ => (readString 2 argument rest).map fun (ps, rest) => (.bytes ps.flatten, rest)
        | 3, _ => (readString 3 argument rest).map fun (ps, rest) => (.text ps, rest)
        | 4, _ =>
          if left' = 0 then none
          else
            (readElements (fun s => readItem (left' - 1) s) argument rest).map
              fun (items, rest) => (.array items, rest)
        | 5, _ =>
          if left' = 0 then none
          else
            (readElements (readPair fun s => readItem (left' - 1) s) argument rest).map
              fun (entries, rest) => (.map entries, rest)
        | 7, _ => (readSimple argument).map fun item => (item, rest)
        | _, _ => none
    untagged.map fun (item, rest) => (tags.foldr .tag item, rest)
termination_by left
decreasing_by all_goals omega

def decode (s : Bytes) : Option Item :=
  match readItem maxNesting s with
  | some (item, []) => some item
  | _ => none

end ScriptCodec.Cbor

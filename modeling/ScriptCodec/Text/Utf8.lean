import ScriptCodec.Text.Basic

/-!
UTF-8 read from the front of a byte string. Only the shortest form of a scalar value is accepted,
and no surrogates, so `decode?` and `encode` undo each other. A byte that starts no character
stands for itself as a stray byte.
-/
namespace ScriptCodec.Utf8

/-- One unit of a byte string: a scalar value in its UTF-8 form, or a byte that belongs to none. -/
inductive Glyph where
  | scalar (code : Nat)
  | stray (byte : UInt8)
deriving DecidableEq, Repr

def isScalar (code : Nat) : Bool := code < 0xD800 || (0xE000 ≤ code && code < 0x110000)

def encode (code : Nat) : Bytes :=
  if code < 0x80 then [UInt8.ofNat code]
  else if code < 0x800 then [UInt8.ofNat (0xC0 + code / 64), UInt8.ofNat (0x80 + code % 64)]
  else if code < 0x10000 then
    [UInt8.ofNat (0xE0 + code / 4096), UInt8.ofNat (0x80 + code / 64 % 64),
      UInt8.ofNat (0x80 + code % 64)]
  else
    [UInt8.ofNat (0xF0 + code / 262144), UInt8.ofNat (0x80 + code / 4096 % 64),
      UInt8.ofNat (0x80 + code / 64 % 64), UInt8.ofNat (0x80 + code % 64)]

def replacement : Nat := 0xFFFD

def isTail (b : UInt8) : Bool := 0x80 ≤ b && b < 0xC0

def tailBits (b : UInt8) : Nat := b.toNat % 64

def decode? : Bytes → Option (Nat × Bytes)
  | [] => none
  | b :: rest =>
    if b < 0x80 then some (b.toNat, rest)
    else if b < 0xC2 then none
    else if b < 0xE0 then
      match rest with
      | c :: rest => if isTail c then some (b.toNat % 32 * 64 + tailBits c, rest) else none
      | _ => none
    else if b < 0xF0 then
      match rest with
      | c :: d :: rest =>
        let code := b.toNat % 16 * 4096 + tailBits c * 64 + tailBits d
        if isTail c && isTail d && 0x800 ≤ code && isScalar code then some (code, rest) else none
      | _ => none
    else if b < 0xF5 then
      match rest with
      | c :: d :: e :: rest =>
        let code := b.toNat % 8 * 262144 + tailBits c * 4096 + tailBits d * 64 + tailBits e
        if isTail c && isTail d && isTail e && 0x10000 ≤ code && isScalar code then
          some (code, rest)
        else none
      | _ => none
    else none

theorem decode?_length {s rest : Bytes} {code : Nat} (h : decode? s = some (code, rest)) :
    rest.length < s.length := by
  unfold decode? at h
  grind

def next (b : UInt8) (rest : Bytes) : Glyph × Bytes :=
  match decode? (b :: rest) with
  | some (code, rest) => (.scalar code, rest)
  | none => (.stray b, rest)

theorem next_length (b : UInt8) (rest : Bytes) : (next b rest).2.length < (b :: rest).length := by
  unfold next
  split
  · rename_i h
    exact decode?_length h
  · simp

def glyphsLoop (done : List Glyph) : Bytes → List Glyph
  | [] => done.reverse
  | b :: rest =>
    let step := next b rest
    glyphsLoop (step.1 :: done) step.2
termination_by s => s.length
decreasing_by exact next_length b rest

def glyphs (s : Bytes) : List Glyph := glyphsLoop [] s

def isValid : Bytes → Bool
  | [] => true
  | b :: rest =>
    match _h : decode? (b :: rest) with
    | some (_, rest) => isValid rest
    | none => false
termination_by s => s.length
decreasing_by exact decode?_length _h

def count (s : Bytes) : Nat := (glyphs s).length

def padRight (width : Nat) (s : Bytes) : Bytes := s ++ List.replicate (width - count s) 0x20

end ScriptCodec.Utf8

import ScriptCodec.Text.Utf8
import ScriptCodec.Text.Printable

/-!
Quoted literals. `quote` writes any byte string between double quotes on one line: printable
characters as themselves, everything else as an escape, a stray byte as `\\x` and two digits.
`unquote` reads that form back, and two more: raw text between back quotes, and a single
character between single quotes.
-/
namespace ScriptCodec.Text

def controlLetter : Nat → Option UInt8
  | 0x07 => some 0x61
  | 0x08 => some 0x62
  | 0x0C => some 0x66
  | 0x0A => some 0x6E
  | 0x0D => some 0x72
  | 0x09 => some 0x74
  | 0x0B => some 0x76
  | _ => none

def quoteGlyph : Utf8.Glyph → Bytes
  | .stray b => 0x5C :: 0x78 :: lowerHex 2 b.toNat
  | .scalar code =>
    if code = 0x22 ∨ code = 0x5C then [0x5C, UInt8.ofNat code]
    else if isPrintable code then Utf8.encode code
    else match controlLetter code with
      | some letter => [0x5C, letter]
      | none =>
        if code < 0x20 ∨ code = 0x7F then 0x5C :: 0x78 :: lowerHex 2 code
        else if code < 0x10000 then 0x5C :: 0x75 :: lowerHex 4 code
        else 0x5C :: 0x55 :: lowerHex 8 code

def quote (s : Bytes) : Bytes := 0x22 :: ((Utf8.glyphs s).flatMap quoteGlyph ++ [0x22])

def hexValue (b : UInt8) : Option Nat :=
  if 0x30 ≤ b ∧ b ≤ 0x39 then some (b.toNat - 0x30)
  else if 0x61 ≤ b ∧ b ≤ 0x66 then some (b.toNat - 0x61 + 10)
  else if 0x41 ≤ b ∧ b ≤ 0x46 then some (b.toNat - 0x41 + 10)
  else none

def hexDigits (value : Nat) : Nat → Bytes → Option (Nat × Bytes)
  | 0, s => some (value, s)
  | _ + 1, [] => none
  | count + 1, b :: rest => (hexValue b).bind fun d => hexDigits (value * 16 + d) count rest

def octalValue (b : UInt8) : Option Nat :=
  if 0x30 ≤ b ∧ b ≤ 0x37 then some (b.toNat - 0x30) else none

def controlOfLetter : UInt8 → Option UInt8
  | 0x61 => some 0x07
  | 0x62 => some 0x08
  | 0x66 => some 0x0C
  | 0x6E => some 0x0A
  | 0x72 => some 0x0D
  | 0x74 => some 0x09
  | 0x76 => some 0x0B
  | _ => none

def unescapeScalar (count : Nat) (s : Bytes) : Option (Bytes × Bytes) :=
  (hexDigits 0 count s).bind fun (code, rest) =>
    if Utf8.isScalar code then some (Utf8.encode code, rest) else none

def unescapeByte (s : Bytes) : Option (Bytes × Bytes) :=
  (hexDigits 0 2 s).bind fun (v, rest) => some ([UInt8.ofNat v], rest)

def unescape (mark : UInt8) : Bytes → Option (Bytes × Bytes)
  | [] => none
  | c :: rest =>
    match controlOfLetter c with
    | some b => some ([b], rest)
    | none =>
      if c = 0x78 then unescapeByte rest
      else if c = 0x75 then unescapeScalar 4 rest
      else if c = 0x55 then unescapeScalar 8 rest
      else if c = 0x5C then some ([0x5C], rest)
      else if c = mark then some ([c], rest)
      else match octalValue c, rest with
        | some x, d :: e :: rest =>
          match octalValue d, octalValue e with
          | some y, some z =>
            let v := x * 64 + y * 8 + z
            if v < 256 then some ([UInt8.ofNat v], rest) else none
          | _, _ => none
        | _, _ => none

/-- The bytes the next character of a literal stands for; a raw line feed is refused. -/
def unquoteNext (mark : UInt8) (b : UInt8) (rest : Bytes) : Option (Bytes × Bytes) :=
  if b = 0x0A then none
  else if b = 0x5C then unescape mark rest
  else match Utf8.next b rest with
    | (.scalar code, rest) => some (Utf8.encode code, rest)
    | (.stray _, rest) => some (Utf8.encode Utf8.replacement, rest)

theorem hexDigits_length {value count : Nat} {s rest : Bytes} {v : Nat}
    (h : hexDigits value count s = some (v, rest)) : rest.length ≤ s.length := by
  induction count generalizing value s with
  | zero => simp_all [hexDigits]
  | succ count ih =>
    cases s with
    | nil => simp [hexDigits] at h
    | cons b s =>
      simp only [hexDigits, Option.bind_eq_some_iff] at h
      obtain ⟨d, _, h⟩ := h
      have := ih h
      simp only [List.length_cons]
      omega

theorem unescapeScalar_length {count : Nat} {s out rest : Bytes}
    (h : unescapeScalar count s = some (out, rest)) : rest.length ≤ s.length := by
  simp only [unescapeScalar, Option.bind_eq_some_iff] at h
  obtain ⟨⟨v, tail⟩, hd, h⟩ := h
  have := hexDigits_length hd
  grind

theorem unescapeByte_length {s out rest : Bytes}
    (h : unescapeByte s = some (out, rest)) : rest.length ≤ s.length := by
  simp only [unescapeByte, Option.bind_eq_some_iff] at h
  obtain ⟨⟨v, tail⟩, hd, h⟩ := h
  have := hexDigits_length hd
  grind

theorem unescape_length {mark : UInt8} {s out rest : Bytes}
    (h : unescape mark s = some (out, rest)) : rest.length < s.length := by
  cases s with
  | nil => simp [unescape] at h
  | cons c s =>
    have hx := fun out tail (h : unescapeByte s = some (out, tail)) => unescapeByte_length h
    have hu := fun n out tail (h : unescapeScalar n s = some (out, tail)) => unescapeScalar_length h
    simp only [unescape] at h
    grind

theorem unquoteNext_length {mark b : UInt8} {s out rest : Bytes}
    (h : unquoteNext mark b s = some (out, rest)) : rest.length < (b :: s).length := by
  have hn := Utf8.next_length b s
  simp only [unquoteNext] at h
  split at h
  · simp at h
  split at h
  · have := unescape_length h
    simp only [List.length_cons]
    omega
  · split at h <;> rename_i hs <;> simp_all

def unquoteLoop (mark : UInt8) (done : Bytes) : Bytes → Option (Bytes × Bytes)
  | [] => none
  | b :: rest =>
    if b = mark then some (done.reverse, rest)
    else match _h : unquoteNext mark b rest with
      | some (out, tail) => unquoteLoop mark (out.reverse ++ done) tail
      | none => none
termination_by s => s.length
decreasing_by exact unquoteNext_length _h

def unquoteSingle : Bytes → Option Bytes
  | [] => none
  | b :: rest =>
    if b = 0x27 then (if rest.isEmpty then some [] else none)
    else match unquoteNext 0x27 b rest with
      | some (out, [0x27]) => some out
      | _ => none

/-- Raw text runs to the next back quote and loses its carriage returns. -/
def unquoteRaw (s : Bytes) : Option Bytes :=
  match s.span (· != 0x60) with
  | (body, [_]) => some (body.filter (· != 0x0D))
  | _ => none

/-- The bytes a quoted literal stands for; nothing may follow its closing mark. -/
def unquote : Bytes → Option Bytes
  | 0x22 :: rest =>
    match unquoteLoop 0x22 [] rest with
    | some (out, []) => some out
    | _ => none
  | 0x27 :: rest => unquoteSingle rest
  | 0x60 :: rest => unquoteRaw rest
  | _ => none

end ScriptCodec.Text

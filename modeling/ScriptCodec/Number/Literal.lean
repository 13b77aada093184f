import ScriptCodec.Number.FloatText
import ScriptCodec.Number.Integer

/-!
Integers written with a mark for their base: `0b`, `0o` or `0` before octal, `0x`, and decimal
without a mark. Underscores may stand between digits.
-/
namespace ScriptCodec.Number

def splitBase : Bytes → Nat × Bytes
  | 0x30 :: mark :: d :: rest =>
    if Text.lowerByte mark = 0x62 then (2, d :: rest)
    else if Text.lowerByte mark = 0x6F then (8, d :: rest)
    else if Text.lowerByte mark = 0x78 then (16, d :: rest)
    else (8, mark :: d :: rest)
  | 0x30 :: rest => (8, rest)
  | s => (10, s)

def literal (bits : Nat) (s : Bytes) : Except Reason Int :=
  let (negative, body) := splitSign s
  if body.isEmpty then .error .malformed
  else
    let (base, digits) := splitBase body
    match (digits.filter (· != 0x5F)).foldlM (addDigit base (Nat.pow 2 bits)) 0 with
    | .error reason => .error reason
    | .ok n =>
      if body.contains 0x5F && !FloatText.wellSeparated body then .error .malformed
      else withSign bits negative n

end ScriptCodec.Number

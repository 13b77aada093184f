import ScriptCodec.Text.Basic

/-!
The tokens of a listing line. Blanks separate tokens, and two slashes where a token would start
begin a comment. A token that starts with a double quote runs to the next one that no backslash
precedes, and keeps its quotes and escapes.
-/
namespace ScriptCodec.Listing

def isBlank (b : UInt8) : Bool := b == 0x20 || b == 0x09 || b == 0x0D

def quotedToken (done : Bytes) : Bytes → Option (Bytes × Bytes)
  | [] => none
  | [b] => if b = 0x22 then some ((b :: done).reverse, []) else none
  | b :: c :: rest =>
    if b = 0x22 then some ((b :: done).reverse, c :: rest)
    else if b = 0x5C then quotedToken (c :: b :: done) rest
    else quotedToken (b :: done) (c :: rest)

theorem quotedToken_length {done s token rest : Bytes}
    (h : quotedToken done s = some (token, rest)) : rest.length < s.length := by
  fun_induction quotedToken done s <;> grind

structure UnclosedQuote where
  column : Nat
deriving DecidableEq, Repr

def startsComment (s : Bytes) : Bool := [0x2F, 0x2F].isPrefixOf s

def tokensFrom (column : Nat) (done : List Bytes) : Bytes → Except UnclosedQuote (List Bytes)
  | [] => .ok done.reverse
  | b :: rest =>
    if isBlank b then tokensFrom (column + 1) done rest
    else if startsComment (b :: rest) then .ok done.reverse
    else if b = 0x22 then
      match _h : quotedToken [b] rest with
      | none => .error ⟨column⟩
      | some (token, tail) => tokensFrom (column + token.length) (token :: done) tail
    else
      let token := b :: rest.takeWhile (!isBlank ·)
      tokensFrom (column + token.length) (token :: done) (rest.dropWhile (!isBlank ·))
termination_by s => s.length
decreasing_by
  · simp
  · have := quotedToken_length _h
    simp only [List.length_cons]
    omega
  · have := (List.dropWhile_sublist (l := rest) (!isBlank ·)).length_le
    simp only [List.length_cons]
    omega

def tokenize (line : Bytes) : Except UnclosedQuote (List Bytes) := tokensFrom 0 [] line

end ScriptCodec.Listing

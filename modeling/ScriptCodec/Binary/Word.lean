import ScriptCodec.Text.Basic

/-!
Little-endian words as byte lists, and the padding that aligns a position.
-/
namespace ScriptCodec.Word

def toBytes : Nat → Nat → Bytes
  | 0, _ => []
  | width + 1, n => UInt8.ofNat n :: toBytes width (n / 256)

def modulus (width : Nat) : Nat := Nat.pow 256 width

def ofBytes : Bytes → Nat
  | [] => 0
  | b :: rest => b.toNat + 256 * ofBytes rest

@[simp] theorem length_toBytes (width n : Nat) : (toBytes width n).length = width := by
  induction width generalizing n with
  | zero => rfl
  | succ width ih => simp [toBytes, ih]

theorem ofBytes_toBytes (width n : Nat) : ofBytes (toBytes width n) = n % modulus width := by
  induction width generalizing n with
  | zero => simp [toBytes, ofBytes, modulus, Nat.mod_one]
  | succ width ih =>
    have h : n % modulus (width + 1) = n % 256 + 256 * (n / 256 % modulus width) := by
      rw [show modulus (width + 1) = 256 * modulus width from Nat.mul_comm _ _, Nat.mod_mul]
    simp [toBytes, ofBytes, ih, h]

def intBytes (width : Nat) (n : Int) : Bytes := toBytes width (n % (modulus width : Int)).toNat

def u16 (v : UInt16) : Bytes := toBytes 2 v.toNat
def u32 (v : UInt32) : Bytes := toBytes 4 v.toNat
def u64 (v : UInt64) : Bytes := toBytes 8 v.toNat

def padding (n pos : Nat) : Nat := (n - pos % n) % n

end ScriptCodec.Word

import ScriptCodec.Object.Mention
import ScriptCodec.Proofs.Number.FloatSpelling
import ScriptCodec.Proofs.Text.Quoting

/-!
The operands of an instruction say a value, and every value has one canonical text. A text that is
read says a value that fits its kind, and reading the canonical text of a value that fits gives the
value back, except that every NaN becomes one and that a callee without a namespace must not be
cut in two by its own name.
-/
namespace ScriptCodec

inductive OperandValue where
  | nothing
  | number (n : Nat)
  | integer (n : Int)
  | float (bits : UInt32)
  | vector (bits : List UInt32)
  | word (s : Bytes)
  | animation (tree anim : Bytes)
  | locals (names : List Bytes)
  | cases (values : List Int)
  | callee (space name : Bytes)
  | label (name : Bytes)
deriving DecidableEq

/-- Reads operands of a kind, with all the checks both passes over an instruction make. -/
def OperandKind.read (kind : OperandKind) (args : List Bytes) : Except OperandFault OperandValue :=
  match kind with
  | .none => if args.isEmpty then .ok .nothing else .error (.takesNone args.length)
  | .byte => (Operand.unsigned 10 8 args).map .number
  | .short => (Operand.unsigned 10 16 args).map .number
  | .hash => (Operand.unsigned 16 32 args).map .number
  | .integer => (Operand.single args).bind fun a => (Operand.signed a).map .integer
  | .float => (Operand.single args).bind fun a => (Operand.float a).map .float
  | .vector =>
    if args.length ≠ 3 then .error (.wantCount 3 args.length)
    else (args.mapM Operand.float).map .vector
  | .string => (Operand.quoted args 0).map .word
  | .field => (Operand.single args).map .word
  | .animation => (Operand.animation args).map fun (tree, anim) => .animation tree anim
  | .locals =>
    if 255 < args.length then .error (.tooManyLocals args.length) else .ok (.locals args)
  | .cases => (args.mapM Operand.signed).map .cases
  | .call | .function => (Operand.callee args).map fun (space, name) => .callee space name
  | .jump | .longJump => (Operand.single args).map .label

namespace OperandValue

/-- The canonical text of a value of a kind. A label stands for itself here. -/
def spell (kind : OperandKind) : OperandValue → List Bytes
  | nothing => []
  | number n => [if kind = .hash then Text.hex n else Text.decimal n]
  | integer n => [Text.decimalInt n]
  | float bits => [FloatText.scalar bits]
  | vector bits => bits.map FloatText.component
  | word s => [if kind = .string then Text.quote s else s]
  | animation tree anim => [tree, Text.quote anim]
  | locals names => names
  | cases values => values.map Text.decimalInt
  | callee space name => if space.isEmpty then [name] else [space, name]
  | label name => [name]

/-- The canonical text of a value in a layout, where a label is named after its address. -/
def spellAt (kind : OperandKind) (addressOf? : Bytes → Option UInt32) :
    OperandValue → Option (List Bytes)
  | label name => (addressOf? name).map fun addr => [Labels.nameOf addr]
  | v => some (v.spell kind)

theorem spellAt_of_ne {kind : OperandKind} {addressOf? : Bytes → Option UInt32} {v : OperandValue}
    (hplain : ∀ name, v ≠ .label name) : v.spellAt kind addressOf? = some (v.spell kind) := by
  cases v with
  | label name => exact absurd rfl (hplain name)
  | _ => rfl

def target? (addressOf? : Bytes → Option UInt32) : OperandValue → Option UInt32
  | label name => addressOf? name
  | _ => none

inductive Fits : OperandKind → OperandValue → Prop
  | nothing : Fits .none nothing
  | byte {n : Nat} (h : n < 2 ^ 8) : Fits .byte (number n)
  | short {n : Nat} (h : n < 2 ^ 16) : Fits .short (number n)
  | hash {n : Nat} (h : n < 2 ^ 32) : Fits .hash (number n)
  | integer {n : Int} (h : -2 ^ 31 ≤ n ∧ n < 2 ^ 31) : Fits .integer (integer n)
  | float (bits : UInt32) : Fits .float (float bits)
  | vector {bits : List UInt32} (h : bits.length = 3) : Fits .vector (vector bits)
  | string (s : Bytes) : Fits .string (word s)
  | field (s : Bytes) : Fits .field (word s)
  | animation (tree anim : Bytes) : Fits .animation (animation tree anim)
  | locals {names : List Bytes} (h : names.length ≤ 255) : Fits .locals (locals names)
  | cases {values : List Int} (h : ∀ n ∈ values, -2 ^ 31 ≤ n ∧ n < 2 ^ 31) :
    Fits .cases (cases values)
  | call (space name : Bytes) : Fits .call (callee space name)
  | function (space name : Bytes) : Fits .function (callee space name)
  | jump (name : Bytes) : Fits .jump (label name)
  | longJump (name : Bytes) : Fits .longJump (label name)

/-- A callee without a namespace whose name would be cut in two. -/
def IsAmbiguous (v : OperandValue) : Prop := ∃ name, v = callee [] name ∧ text "::" <:+: name

def settled : OperandValue → OperandValue
  | float bits => float (FloatText.settled bits)
  | vector bits => vector (bits.map FloatText.settled)
  | v => v

end OperandValue

namespace Text

theorem cutLoop_eq_none {sep s : Bytes} (hsep : sep ≠ []) (h : ¬ sep <:+: s) (before : Bytes) :
    cutLoop sep before s = none := by
  induction s generalizing before with
  | nil => simp [cutLoop, hsep]
  | cons b rest ih =>
    have hhead : ¬ sep <+: b :: rest := fun hp => h hp.isInfix
    have hrest : ¬ sep <:+: rest := fun hi => h (hi.trans (List.suffix_cons b rest).isInfix)
    rw [cutLoop, if_neg (by simpa using hhead), ih hrest]

theorem cut_eq_none {sep s : Bytes} (hsep : sep ≠ []) (h : ¬ sep <:+: s) : cut sep s = none :=
  cutLoop_eq_none hsep h []

end Text

namespace Operand

theorem single_eq_ok_iff {args : List Bytes} {a : Bytes} : single args = .ok a ↔ args = [a] := by
  unfold single
  split
  · simp
  · rename_i hne
    simp only [reduceCtorEq, false_iff]
    exact hne a

theorem unsigned_eq_ok_iff {base : Nat} {bits : Int} {args : List Bytes} {n : Nat} :
    unsigned base bits args = .ok n ↔ ∃ a, args = [a] ∧ Number.unsigned base bits a = .ok n := by
  simp [unsigned, single_eq_ok_iff]

theorem signed_eq_ok_iff {a : Bytes} {n : Int} : signed a = .ok n ↔ Number.signed 32 a = .ok n := by
  simp [signed]

theorem float_eq_ok_iff {a : Bytes} {bits : UInt32} :
    float a = .ok bits ↔ FloatText.parse a = .ok bits := by
  simp [float]

theorem quoted_eq_ok_iff {args : List Bytes} {i : Nat} {s : Bytes} :
    quoted args i = .ok s ↔ ∃ a, args[i]? = some a ∧ Text.unquote a = some s := by
  unfold quoted
  split
  · simp_all
  · rename_i a ha
    simp only [ha, Option.some.injEq, exists_eq_left']
    split <;> simp_all

/-- The tree needs no check of its own once the operands are counted. -/
theorem animation_of_quoted {args : List Bytes} {anim : Bytes} (hcount : args.length = 2)
    (hanim : quoted args 1 = .ok anim) : animation args = .ok (args.headD [], anim) := by
  obtain ⟨tree, a, rfl⟩ := List.length_eq_two.mp hcount
  rw [animation, hanim]
  rfl

theorem animation_eq_ok_iff {args : List Bytes} {tree anim : Bytes} :
    animation args = .ok (tree, anim) ↔ ∃ a, args = [tree, a] ∧ Text.unquote a = some anim := by
  unfold animation
  split
  · simp only [Except.map_eq_ok_iff, quoted_eq_ok_iff, Prod.mk.injEq]
    constructor
    · rintro ⟨s, ⟨a, ha, hs⟩, rfl, rfl⟩
      exact ⟨a, by simpa using ha, hs⟩
    · rintro ⟨a, ha, hs⟩
      simp only [List.cons.injEq, and_true] at ha
      exact ⟨anim, ⟨a, by simp [ha.2], hs⟩, ha.1, rfl⟩
  · rename_i hne
    simp only [reduceCtorEq, false_iff]
    rintro ⟨a, ha, -⟩
    exact hne tree a ha

end Operand

namespace OperandValue

variable {kind : OperandKind} {args : List Bytes} {v : OperandValue}

theorem fits_of_read (h : kind.read args = .ok v) : v.Fits kind := by
  cases kind with
  | none =>
    simp only [OperandKind.read] at h
    split at h
    · rw [← Except.ok.inj h]
      exact .nothing
    · cases h
  | byte =>
    simp only [OperandKind.read, Except.map_eq_ok_iff, Operand.unsigned_eq_ok_iff] at h
    obtain ⟨n, ⟨a, -, hn⟩, rfl⟩ := h
    exact .byte (Number.unsigned_lt (by decide) hn)
  | short =>
    simp only [OperandKind.read, Except.map_eq_ok_iff, Operand.unsigned_eq_ok_iff] at h
    obtain ⟨n, ⟨a, -, hn⟩, rfl⟩ := h
    exact .short (Number.unsigned_lt (by decide) hn)
  | hash =>
    simp only [OperandKind.read, Except.map_eq_ok_iff, Operand.unsigned_eq_ok_iff] at h
    obtain ⟨n, ⟨a, -, hn⟩, rfl⟩ := h
    exact .hash (Number.unsigned_lt (by decide) hn)
  | integer =>
    simp only [OperandKind.read, Except.bind_eq_ok_iff, Except.map_eq_ok_iff,
      Operand.signed_eq_ok_iff] at h
    obtain ⟨a, -, n, hn, rfl⟩ := h
    exact .integer (Number.signed_bounds hn)
  | float =>
    simp only [OperandKind.read, Except.bind_eq_ok_iff, Except.map_eq_ok_iff] at h
    obtain ⟨a, -, bits, -, rfl⟩ := h
    exact .float bits
  | vector =>
    simp only [OperandKind.read] at h
    split at h
    · cases h
    · rename_i hlength
      simp only [Except.map_eq_ok_iff, List.mapM_eq_ok_iff] at h
      obtain ⟨bits, hbits, rfl⟩ := h
      exact .vector (hbits.length_eq ▸ not_not.mp hlength)
  | locals =>
    simp only [OperandKind.read] at h
    split at h
    · cases h
    · rename_i hlength
      rw [← Except.ok.inj h]
      exact .locals (Nat.not_lt.mp hlength)
  | cases =>
    simp only [OperandKind.read, Except.map_eq_ok_iff, List.mapM_eq_ok_iff] at h
    obtain ⟨values, hvalues, rfl⟩ := h
    refine .cases fun n hn => ?_
    obtain ⟨a, -, ha⟩ := hvalues.exists_left hn
    exact Number.signed_bounds (Operand.signed_eq_ok_iff.mp ha)
  | string | field | animation | call | function | jump | longJump =>
    simp only [OperandKind.read, Except.map_eq_ok_iff] at h
    obtain ⟨_, -, rfl⟩ := h
    constructor

theorem read_cases {values : List Int}
    (hread : kind.read args = .ok (.cases values)) :
    kind = .cases ∧ args.length = values.length := by
  cases fits_of_read hread
  simp only [OperandKind.read, Except.map_eq_ok_iff, cases.injEq,
    exists_eq_right] at hread
  exact ⟨rfl, (List.mapM_eq_ok_iff.mp hread).length_eq⟩

theorem settled_of_read (h : kind.read args = .ok v) : v.settled = v := by
  cases fits_of_read h with
  | float bits =>
    simp only [OperandKind.read, Except.bind_eq_ok_iff, Except.map_eq_ok_iff,
      Operand.float_eq_ok_iff, float.injEq] at h
    obtain ⟨a, -, _, hbits, rfl⟩ := h
    rw [settled, FloatText.settled_of_parse hbits]
  | @vector bits hlength =>
    simp only [OperandKind.read] at h
    split at h
    · cases h
    · simp only [Except.map_eq_ok_iff, List.mapM_eq_ok_iff, vector.injEq] at h
      obtain ⟨values, hbits, rfl⟩ := h
      have hsettled : ∀ b ∈ values, FloatText.settled b = b := by
        intro b hb
        obtain ⟨a, -, ha⟩ := hbits.exists_left hb
        exact FloatText.settled_of_parse (Operand.float_eq_ok_iff.mp ha)
      rw [settled, List.map_congr_left hsettled, List.map_id']
  | _ => rfl

theorem spell_settled (v : OperandValue) : v.settled.spell kind = v.spell kind := by
  cases v with
  | float bits => exact congrArg (fun s => [s]) (FloatText.scalar_settled bits)
  | vector bits =>
    simp only [settled, spell, List.map_map]
    exact List.map_congr_left fun b _ => FloatText.component_settled b
  | _ => rfl

theorem mapM_map_eq_ok {α β γ ε : Type} {f : β → Except ε γ} {g : α → β} {k : α → γ} {xs : List α}
    (h : ∀ x ∈ xs, f (g x) = .ok (k x)) : (xs.map g).mapM f = .ok (xs.map k) := by
  rw [List.mapM_eq_ok_iff, List.forall₂_map_left_iff, List.forall₂_map_right_iff, List.forall₂_same]
  exact h

theorem read_spell (hfits : v.Fits kind) (hcallee : ¬ v.IsAmbiguous) :
    kind.read (v.spell kind) = .ok v.settled := by
  have hsplit {space name : Bytes} (h : ¬ (callee space name).IsAmbiguous) :
      Operand.callee ((callee space name).spell kind) = .ok (space, name) := by
    rw [spell]
    split
    · rename_i hempty
      obtain rfl := List.isEmpty_iff.mp hempty
      have hname : ¬ text "::" <:+: name := fun hi => h ⟨name, rfl, hi⟩
      rw [Operand.callee, Text.cut_eq_none (by decide) hname]
      rfl
    · rfl
  cases hfits with
  | nothing => rfl
  | byte h =>
    have hread := Operand.unsigned_eq_ok_iff.mpr
      ⟨_, rfl, Number.unsigned_decimal (by decide) (by decide) h⟩
    simp only [OperandKind.read, spell, settled]
    exact congrArg (Except.map number) hread
  | short h =>
    have hread := Operand.unsigned_eq_ok_iff.mpr
      ⟨_, rfl, Number.unsigned_decimal (by decide) (by decide) h⟩
    simp only [OperandKind.read, spell, settled]
    exact congrArg (Except.map number) hread
  | hash h =>
    have hread := Operand.unsigned_eq_ok_iff.mpr
      ⟨_, rfl, Number.unsigned_hex (by decide) (by decide) h⟩
    simp only [OperandKind.read, spell, settled, if_true]
    exact congrArg (Except.map number) hread
  | integer h =>
    have hread := Operand.signed_eq_ok_iff.mpr (Number.signed_decimalInt h.1 h.2)
    simp only [OperandKind.read, spell, settled, Operand.single, Except.bind, hread, Except.map]
  | float bits =>
    have hread := Operand.float_eq_ok_iff.mpr (FloatText.parse_scalar bits)
    simp only [OperandKind.read, spell, settled, Operand.single, Except.bind, hread, Except.map]
  | @vector bits h =>
    have hread : (bits.map FloatText.component).mapM Operand.float =
        .ok (bits.map FloatText.settled) :=
      mapM_map_eq_ok fun b _ => Operand.float_eq_ok_iff.mpr (FloatText.parse_component b)
    simp only [OperandKind.read, spell, settled, List.length_map, h, ne_eq, not_true_eq_false,
      if_false, hread, Except.map]
  | string s =>
    have hread : Operand.quoted [Text.quote s] 0 = .ok s :=
      Operand.quoted_eq_ok_iff.mpr ⟨_, rfl, Text.unquote_quote s⟩
    simp only [OperandKind.read, spell, settled, if_true, hread, Except.map]
  | field s => rfl
  | animation tree anim =>
    have hread : Operand.animation [tree, Text.quote anim] = .ok (tree, anim) :=
      Operand.animation_eq_ok_iff.mpr ⟨_, rfl, Text.unquote_quote anim⟩
    simp only [OperandKind.read, spell, settled]
    exact congrArg (Except.map fun (t, a) => animation t a) hread
  | locals h => exact if_neg (Nat.not_lt.mpr h)
  | @cases values h =>
    have hread : (values.map Text.decimalInt).mapM Operand.signed = .ok (values.map id) :=
      mapM_map_eq_ok fun n hn =>
        Operand.signed_eq_ok_iff.mpr (Number.signed_decimalInt (h n hn).1 (h n hn).2)
    simp only [OperandKind.read, spell, settled, hread, Except.map, List.map_id]
  | call space name => simp only [OperandKind.read, hsplit hcallee, settled, Except.map]
  | function space name => simp only [OperandKind.read, hsplit hcallee, settled, Except.map]
  | jump name => rfl
  | longJump name => rfl

end OperandValue

theorem instructionSize_eq {op : Opcode} {kind : OperandKind} (hkind : op.kind? = some kind)
    (addr : UInt32) (args : List Bytes) :
    instructionSize op addr args =
      if kind = .cases ∧ args.length % 2 ≠ 0 then .error (.operand (.unpairedCases op args.length))
      else .ok (UInt32.ofNat (kind.stop args.length (addr.toNat + 1) - addr.toNat)) := by
  unfold instructionSize
  generalize op.kind? = k at *
  subst hkind
  exact Eq.refl _

end ScriptCodec

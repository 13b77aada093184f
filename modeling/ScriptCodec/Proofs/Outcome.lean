import Mathlib.Algebra.Group.Int.Defs
import Mathlib.Algebra.Group.Nat.Defs
import Mathlib.Data.List.Forall2
import ScriptCodec.Object.AssembleError
import ScriptCodec.Object.DecodeError

/-!
When a computation that may fail succeeds. Success of a sequence is success of its steps, and the
places an error is labelled with do not matter to success. The lemmas are tagged for `simp`, so a
successful run is taken apart by one call and a few `obtain`s.
-/
namespace Except

variable {ε ε' α β : Type}

@[simp] theorem bind_eq_ok_iff {x : Except ε α} {f : α → Except ε β} {b : β} :
    x.bind f = .ok b ↔ ∃ a, x = .ok a ∧ f a = .ok b := by
  cases x with
  | error e => simp [Except.bind]
  | ok a => simp [Except.bind]

@[simp] theorem andThen_eq_ok_iff {x : Except ε α} {f : α → Except ε β} {b : β} :
    (x >>= f) = .ok b ↔ ∃ a, x = .ok a ∧ f a = .ok b :=
  bind_eq_ok_iff

@[simp] theorem map_eq_ok_iff {x : Except ε α} {f : α → β} {b : β} :
    Except.map f x = .ok b ↔ ∃ a, x = .ok a ∧ f a = b := by
  cases x with
  | error e => simp [Except.map]
  | ok a => simp [Except.map]

@[simp] theorem mapError_eq_ok_iff {x : Except ε α} {f : ε → ε'} {a : α} :
    x.mapError f = .ok a ↔ x = .ok a := by
  cases x with
  | error e => simp [Except.mapError]
  | ok a => simp [Except.mapError]

@[simp] theorem pure_eq_ok_iff {a b : α} : (pure a : Except ε α) = .ok b ↔ a = b := by
  simp [pure, Except.pure]

theorem toOption_eq_some_iff {x : Except ε α} {a : α} : x.toOption = some a ↔ x = .ok a := by
  cases x with
  | error e => simp [Except.toOption]
  | ok a => simp [Except.toOption]

theorem exists_of_any {x : Except ε α} {p : α → Bool} (h : x.toOption.any p = true) :
    ∃ a, x = .ok a ∧ p a = true := by
  cases x with
  | error e => cases h
  | ok a => exact ⟨a, rfl, h⟩

end Except

namespace List

variable {ε α β : Type}

theorem mapM_eq_ok_iff {f : α → Except ε β} {xs : List α} {ys : List β} :
    xs.mapM f = .ok ys ↔ Forall₂ (fun x y => f x = .ok y) xs ys := by
  induction xs generalizing ys with
  | nil => simp [pure, Except.pure, eq_comm]
  | cons x xs ih =>
    simp only [mapM_cons, Except.andThen_eq_ok_iff, Except.pure_eq_ok_iff, ih]
    constructor
    · rintro ⟨y, hy, rest, hrest, rfl⟩
      exact .cons hy hrest
    · rintro (_ | ⟨hy, hrest⟩)
      exact ⟨_, hy, _, hrest, rfl⟩

/-- A loop whose steps also check their element succeeds when the checks and the plain loop do. -/
theorem mapM_eq_ok_iff_of {f g : α → Except ε β} {P : α → Prop}
    (h : ∀ x y, f x = .ok y ↔ P x ∧ g x = .ok y) {xs : List α} {ys : List β} :
    xs.mapM f = .ok ys ↔ (∀ x ∈ xs, P x) ∧ xs.mapM g = .ok ys := by
  simp only [mapM_eq_ok_iff, h]
  exact forall₂_and_left _ _

theorem foldlM_eq_ok_iff_of {f g : β → α → Except ε β} {P : α → Prop}
    (h : ∀ b x c, f b x = .ok c ↔ P x ∧ g b x = .ok c) {xs : List α} {b c : β} :
    xs.foldlM f b = .ok c ↔ (∀ x ∈ xs, P x) ∧ xs.foldlM g b = .ok c := by
  induction xs generalizing b with
  | nil => simp
  | cons x xs ih =>
    simp only [foldlM_cons, Except.andThen_eq_ok_iff, h, ih, forall_mem_cons]
    constructor
    · rintro ⟨b', ⟨hx, hb'⟩, hxs, hc⟩
      exact ⟨⟨hx, hxs⟩, b', hb', hc⟩
    · rintro ⟨⟨hx, hxs⟩, b', hb', hc⟩
      exact ⟨b', ⟨hx, hb'⟩, hxs, hc⟩

theorem Forall₂.exists_left {R : α → β → Prop} {xs : List α} {ys : List β} (h : Forall₂ R xs ys)
    {y : β} (hy : y ∈ ys) : ∃ x ∈ xs, R x y := by
  induction h with
  | nil => cases hy
  | cons hxy _ ih =>
    rcases List.mem_cons.mp hy with rfl | hy
    · exact ⟨_, mem_cons_self, hxy⟩
    · obtain ⟨x, hx, hxy⟩ := ih hy
      exact ⟨x, mem_cons_of_mem _ hx, hxy⟩

theorem Forall₂.exists_right {R : α → β → Prop} {xs : List α} {ys : List β} (h : Forall₂ R xs ys)
    {x : α} (hx : x ∈ xs) : ∃ y ∈ ys, R x y := by
  obtain ⟨y, hy, hxy⟩ := h.flip.exists_left hx
  exact ⟨y, hy, hxy⟩

theorem Forall₂.exists_through {γ : Type} {R : α → β → Prop} {S : β → γ → Prop}
    {T : α → γ → Prop} {xs : List α} {ys : List β} (h : xs.Forall₂ R ys)
    (hex : ∀ x ∈ xs, ∀ y, R x y → ∃ z, S y z ∧ T x z) :
    ∃ zs, ys.Forall₂ S zs ∧ xs.Forall₂ T zs := by
  induction h with
  | nil => exact ⟨[], .nil, .nil⟩
  | @cons x y xs ys hxy _ ih =>
    obtain ⟨z, hyz, hxz⟩ := hex x mem_cons_self y hxy
    obtain ⟨zs, hyzs, hxzs⟩ := ih fun x hx => hex x (mem_cons_of_mem _ hx)
    exact ⟨z :: zs, .cons hyz hyzs, .cons hxz hxzs⟩

end List

namespace ScriptCodec

namespace Assembling

variable {α : Type}

@[simp] theorem within_eq_ok_iff {p : AssembleError.Place} {r : Assembling α} {a : α} :
    r.within p = .ok a ↔ r = .ok a :=
  Except.mapError_eq_ok_iff

@[simp] theorem ofOperand_eq_ok_iff {r : Except OperandFault α} {a : α} :
    ofOperand r = .ok a ↔ r = .ok a :=
  Except.mapError_eq_ok_iff

@[simp] theorem ofPool_eq_ok_iff {r : Except PoolFault α} {a : α} :
    ofPool r = .ok a ↔ r = .ok a :=
  Except.mapError_eq_ok_iff

@[simp] theorem fail_ne_ok {cause : AssembleError.Cause} {a : α} :
    (fail cause : Assembling α) ≠ .ok a := by
  intro h
  cases h

end Assembling

namespace Decoding

variable {α : Type}

@[simp] theorem within_eq_ok_iff {p : DecodeError.Place} {r : Decoding α} {a : α} :
    r.within p = .ok a ↔ r = .ok a :=
  Except.mapError_eq_ok_iff

@[simp] theorem ofRange_eq_ok_iff {r : Except RangeFault α} {a : α} :
    ofRange r = .ok a ↔ r = .ok a :=
  Except.mapError_eq_ok_iff

@[simp] theorem fail_ne_ok {cause : DecodeError.Cause} {a : α} :
    (fail cause : Decoding α) ≠ .ok a := by
  intro h
  cases h

end Decoding
end ScriptCodec

import ScriptCodec.Object.Disassembly
import ScriptCodec.Proofs.Machine.Reader

/-!
Programs of the machine that may give up with an error. A reader's fault becomes an error when the
program looks for it. `Decodes` ties such a program to a checked decoding at the position of its
reader; `Gives` is the same for programs that bring their own reader.
-/
namespace Except

variable {ε ε' α β γ : Type}

theorem andThen_eq_bind (x : Except ε α) (f : α → Except ε β) : (x >>= f) = x.bind f := rfl

theorem ok_bind (a : α) (f : α → Except ε β) : (Except.ok a).bind f = f a := rfl

theorem bind_bind (x : Except ε α) (f : α → Except ε β) (g : β → Except ε γ) :
    (x.bind f).bind g = x.bind fun a => (f a).bind g := by
  cases x with
  | error e => rfl
  | ok a => rfl

theorem map_eq_bind (x : Except ε α) (f : α → β) : x.map f = x.bind fun a => .ok (f a) := by
  cases x with
  | error e => rfl
  | ok a => rfl

theorem mapError_bind (x : Except ε α) (f : α → Except ε β) (g : ε → ε') :
    (x.bind f).mapError g = (x.mapError g).bind fun a => (f a).mapError g := by
  cases x with
  | error e => rfl
  | ok a => rfl

end Except

namespace ScriptCodec

namespace Decoding

variable {α β : Type}

theorem ofRange_bind (x : Except RangeFault α) (f : α → Except RangeFault β) :
    ofRange (x.bind f) = (ofRange x).bind fun a => ofRange (f a) := Except.mapError_bind x f _

theorem within_bind (p : DecodeError.Place) (x : Decoding α) (f : α → Decoding β) :
    within p (x.bind f) = (within p x).bind fun a => within p (f a) := Except.mapError_bind x f _

theorem ofRange_ok (a : α) : ofRange (.ok a) = .ok a := rfl

theorem within_ok (p : DecodeError.Place) (a : α) : within p (.ok a) = .ok a := rfl

end Decoding

namespace Machine

def Pass (α : Type) : Type := Reader → Guarded (Decoding α × Reader)

namespace Pass

variable {α β : Type}

instance : Monad Pass where
  pure a := fun r => .ok (.ok a, r)
  bind m k := fun r => (m r).bind fun
    | (.error e, r) => .ok (.error e, r)
    | (.ok a, r) => k a r

def ofReading (m : Reading α) : Pass α := fun r => (m r).map fun out => (.ok out.1, out.2)

def ofGuarded (g : Guarded α) : Pass α := fun r => g.map fun a => (.ok a, r)

def ofDecoding (d : Decoding α) : Pass α := fun r => .ok (d, r)

def fail (cause : DecodeError.Cause) : Pass α := ofDecoding (Decoding.fail cause)

def check : Pass Unit := fun r =>
  match r.fault with
  | some fault => .ok (.error (.ofRange fault), r)
  | none => .ok (.ok (), r)

def checked (m : Reading α) : Pass α := do
  let a ← ofReading m
  check
  return a

def unlessFaulted (a : α) (m : Pass α) : Pass α := do
  if ← ofReading hasFault then return a else m

def within (p : DecodeError.Place) (m : Pass α) : Pass α := fun r =>
  (m r).map fun out => (out.1.within p, out.2)

def fresh (m : Pass α) : Pass α := fun r => (m ⟨0, none⟩).map fun out => (out.1, r)

def attempt (m : Pass α) : Pass (Decoding α) := fun r =>
  (m r).map fun out => (.ok out.1, out.2)

end Pass

open Pass

variable {α β : Type}

theorem checked_bind {m : Reading α} {r r' : Reader} {a : α} (h : m r = .ok (a, r'))
    (k : α → Reading β) : checked (m >>= k) r = checked (k a) r' := by
  change (((m r).bind fun out => k out.1 out.2).map _).bind _ = _
  rw [h]
  rfl

/-- A program that does what the decoding does at every position where its reader has no fault. -/
structure Decodes (m : Pass α) (decode : Nat → Decoding (α × Nat)) : Prop where
  ok : ∀ {pos a next}, decode pos = .ok (a, next) → m ⟨pos, none⟩ = .ok (.ok a, ⟨next, none⟩)
  error : ∀ {pos e}, decode pos = .error e → ∃ r, m ⟨pos, none⟩ = .ok (.error e, r)

namespace Decodes

variable {m : Pass α} {decode : Nat → Decoding (α × Nat)}

theorem of_eq (h : Decodes m decode) {decode' : Nat → Decoding (α × Nat)}
    (heq : ∀ pos, decode' pos = decode pos) : Decodes m decode' := by
  have hdecode : decode' = decode := funext heq
  rw [hdecode]
  exact h

theorem ok_map {γ : Type} {x : Nat → Decoding γ} {f : γ → α × Nat}
    (h : Decodes m fun pos => (x pos).map f) {pos : Nat} {c : γ} (hx : x pos = .ok c) :
    m ⟨pos, none⟩ = .ok (.ok (f c).1, ⟨(f c).2, none⟩) := by
  refine h.ok ?_
  rw [hx]
  rfl

theorem error_map {γ : Type} {x : Nat → Decoding γ} {f : γ → α × Nat}
    (h : Decodes m fun pos => (x pos).map f) {pos : Nat} {e : DecodeError}
    (hx : x pos = .error e) : ∃ r, m ⟨pos, none⟩ = .ok (.error e, r) := by
  refine h.error ?_
  rw [hx]
  rfl

theorem pure (a : α) : Decodes (Pure.pure a) fun pos => .ok (a, pos) where
  ok := by
    intro pos b next h
    obtain ⟨rfl, rfl⟩ := Prod.mk.inj (Except.ok.inj h)
    rfl
  error := nofun

theorem bind (h : Decodes m decode) {k : α → Pass β} {decode' : α → Nat → Decoding (β × Nat)}
    (hk : ∀ a, Decodes (k a) (decode' a)) :
    Decodes (m >>= k) fun pos => (decode pos).bind fun r => decode' r.1 r.2 where
  ok := by
    intro pos b next hb
    rw [Except.bind_eq_ok_iff] at hb
    obtain ⟨⟨a, mid⟩, ha, hb⟩ := hb
    change (m ⟨pos, none⟩).bind _ = _
    rw [h.ok ha]
    exact (hk a).ok hb
  error := by
    intro pos e he
    change ∃ r, (m ⟨pos, none⟩).bind _ = _
    cases hdecode : decode pos with
    | error first =>
      rw [hdecode] at he
      obtain ⟨r, hr⟩ := h.error hdecode
      rw [hr, ← Except.error.inj he]
      exact ⟨r, rfl⟩
    | ok r =>
      rw [hdecode] at he
      rw [h.ok hdecode]
      exact (hk r.1).error he

theorem ofDecoding (d : Decoding α) : Decodes (.ofDecoding d) fun pos => d.map fun a => (a, pos) where
  ok := by
    intro pos a next h
    rw [Except.map_eq_ok_iff] at h
    obtain ⟨b, rfl, hb⟩ := h
    obtain ⟨rfl, rfl⟩ := Prod.mk.inj hb
    rfl
  error := by
    intro pos e h
    cases d with
    | error first =>
      rw [← Except.error.inj h]
      exact ⟨_, rfl⟩
    | ok a => cases h

theorem ofGuarded {g : Guarded α} {a : α} (hg : g = .ok a) :
    Decodes (.ofGuarded g) fun pos => .ok (a, pos) := by
  rw [hg]
  exact pure a

theorem within (h : Decodes m decode) (p : DecodeError.Place) :
    Decodes (m.within p) fun pos => (decode pos).within p where
  ok := by
    intro pos a next ha
    rw [Pass.within, h.ok (Decoding.within_eq_ok_iff.mp ha)]
    rfl
  error := by
    intro pos e he
    cases hdecode : decode pos with
    | error first =>
      rw [hdecode] at he
      obtain ⟨r, hr⟩ := h.error hdecode
      rw [Pass.within, hr, ← Except.error.inj he]
      exact ⟨r, rfl⟩
    | ok a =>
      rw [hdecode] at he
      cases he

theorem checked {m : Reading α} {read : Nat → Except RangeFault (α × Nat)} (h : Reads m read) :
    Decodes (.checked m) fun pos => Decoding.ofRange (read pos) where
  ok := by
    intro pos a next ha
    change ((m ⟨pos, none⟩).map _).bind _ = _
    rw [h.ok (Decoding.ofRange_eq_ok_iff.mp ha)]
    rfl
  error := by
    intro pos e he
    change ∃ r, ((m ⟨pos, none⟩).map _).bind _ = _
    cases hread : read pos with
    | error fault =>
      rw [hread] at he
      obtain ⟨a, next, ha⟩ := h.cut hread
      rw [ha, ← Except.error.inj he]
      exact ⟨_, rfl⟩
    | ok a =>
      rw [hread] at he
      cases he

end Decodes

/-- A program that does what the decoding does, but where the decoding gives up in the place `p`
it may as well go on to its end with a fault on record. -/
structure Defers (m : Pass α) (p : DecodeError.Place) (decode : Nat → Decoding (α × Nat)) :
    Prop where
  ok : ∀ {pos a next}, decode pos = .ok (a, next) → m ⟨pos, none⟩ = .ok (.ok a, ⟨next, none⟩)
  error : ∀ {pos e}, decode pos = .error e → (∃ r, m ⟨pos, none⟩ = .ok (.error e, r)) ∨
    ∃ a next fault, m ⟨pos, none⟩ = .ok (.ok a, ⟨next, some fault⟩) ∧ e = .within p (.ofRange fault)

namespace Defers

variable {m : Pass α} {decode : Nat → Decoding (α × Nat)} {p : DecodeError.Place}
  {b : Reading α} {read : Nat → Except RangeFault (α × Nat)}

theorem of_eq (h : Defers m p decode) {decode' : Nat → Decoding (α × Nat)}
    (heq : ∀ pos, decode' pos = decode pos) : Defers m p decode' := by
  have hdecode : decode' = decode := funext heq
  rw [hdecode]
  exact h

theorem of_decodes (h : Decodes m decode) (p : DecodeError.Place) : Defers m p decode where
  ok := h.ok
  error := fun he => Or.inl (h.error he)

theorem ofReading (h : Reads b read) (p : DecodeError.Place) :
    Defers (.ofReading b) p fun pos => (Decoding.ofRange (read pos)).within p where
  ok := by
    intro pos a next ha
    rw [Pass.ofReading, h.ok (Decoding.ofRange_eq_ok_iff.mp (Decoding.within_eq_ok_iff.mp ha))]
    rfl
  error := by
    intro pos e he
    cases hread : read pos with
    | error fault =>
      rw [hread] at he
      obtain ⟨a, next, ha⟩ := h.cut hread
      rw [Pass.ofReading, ha, ← Except.error.inj he]
      exact Or.inr ⟨a, next, fault, rfl, rfl⟩
    | ok r =>
      rw [hread] at he
      cases he

/-- What stands behind a look at the reader is as good as what stands behind a reading that
succeeded. -/
theorem unlessFaulted (h : Reads b read) {k : α → Pass β} {decode' : α → Nat → Decoding (β × Nat)}
    (default : α → β) (hk : ∀ a, Defers (k a) p (decode' a)) :
    Defers (.ofReading b >>= fun a => .unlessFaulted (default a) (k a)) p fun pos =>
      ((Decoding.ofRange (read pos)).within p).bind fun r => decode' r.1 r.2 where
  ok := by
    intro pos c next hc
    rw [Except.bind_eq_ok_iff] at hc
    obtain ⟨⟨a, mid⟩, ha, hc⟩ := hc
    change ((b ⟨pos, none⟩).map _).bind _ = _
    rw [h.ok (Decoding.ofRange_eq_ok_iff.mp (Decoding.within_eq_ok_iff.mp ha))]
    exact (hk a).ok hc
  error := by
    intro pos e he
    change (∃ r, ((b ⟨pos, none⟩).map _).bind _ = _) ∨
      ∃ a next fault, ((b ⟨pos, none⟩).map _).bind _ = _ ∧ _
    cases hread : read pos with
    | error fault =>
      rw [hread] at he
      obtain ⟨a, next, ha⟩ := h.cut hread
      rw [ha, ← Except.error.inj he]
      exact Or.inr ⟨default a, next, fault, rfl, rfl⟩
    | ok r =>
      rw [hread] at he
      rw [h.ok hread]
      exact (hk r.1).error he

/-- A look at the reader in the place `p` makes up for what was left undone. -/
theorem settle (h : Defers m p decode) {k : α → Pass β} {decode' : α → Nat → Decoding (β × Nat)}
    (hk : ∀ a, Decodes (k a) (decode' a)) :
    Decodes (m >>= fun a => .within p check >>= fun _ => k a) fun pos =>
      (decode pos).bind fun r => decode' r.1 r.2 where
  ok := by
    intro pos b next hb
    rw [Except.bind_eq_ok_iff] at hb
    obtain ⟨⟨a, mid⟩, ha, hb⟩ := hb
    change (m ⟨pos, none⟩).bind _ = _
    rw [h.ok ha]
    exact (hk a).ok hb
  error := by
    intro pos e he
    change ∃ r, (m ⟨pos, none⟩).bind _ = _
    cases hdecode : decode pos with
    | error first =>
      rw [hdecode] at he
      cases he
      rcases h.error hdecode with ⟨r, hr⟩ | ⟨a, next, fault, hm, rfl⟩
      · rw [hr]
        exact ⟨r, rfl⟩
      · rw [hm]
        exact ⟨_, rfl⟩
    | ok r =>
      rw [hdecode] at he
      rw [h.ok hdecode]
      exact (hk r.1).error he

end Defers

def Stops (m : Pass α) (label : DecodeError → DecodeError) : Prop :=
  ∀ pos fault, ∃ r, m ⟨pos, some fault⟩ = .ok (.error (label (.ofRange fault)), r)

namespace Stops

theorem checked {m : Reading α} {read : Nat → Except RangeFault (α × Nat)} (h : Reads m read) :
    Stops (.checked m) id := by
  intro pos fault
  obtain ⟨a, next, ha⟩ := h.kept pos fault
  change ∃ r, ((m ⟨pos, some fault⟩).map _).bind _ = _
  rw [ha]
  exact ⟨_, rfl⟩

theorem within {m : Pass α} (h : Stops m id) (p : DecodeError.Place) :
    Stops (m.within p) (.within p) := by
  intro pos fault
  obtain ⟨r, hr⟩ := h pos fault
  rw [Pass.within, hr]
  exact ⟨r, rfl⟩

theorem bind {m : Pass α} {label : DecodeError → DecodeError} (h : Stops m label) (k : α → Pass β) :
    Stops (m >>= k) label := by
  intro pos fault
  obtain ⟨r, hr⟩ := h pos fault
  change ∃ r, (m ⟨pos, some fault⟩).bind _ = _
  rw [hr]
  exact ⟨r, rfl⟩

end Stops

def Gives (m : Pass α) (d : Decoding α) : Prop := ∀ r, m r = .ok (d, r)

namespace Gives

variable {m : Pass α} {d : Decoding α}

theorem of_eq (h : Gives m d) {d' : Decoding α} (heq : d' = d) : Gives m d' := by
  rw [heq]
  exact h

theorem pure (a : α) : Gives (Pure.pure a) (.ok a) := fun _ => rfl

theorem ofDecoding (d : Decoding α) : Gives (.ofDecoding d) d := fun _ => rfl

theorem bind (h : Gives m d) {k : α → Pass β} {decode : α → Decoding β}
    (hk : ∀ a, d = .ok a → Gives (k a) (decode a)) : Gives (m >>= k) (d.bind decode) := by
  intro r
  change (m r).bind _ = _
  rw [h r]
  cases d with
  | error e => rfl
  | ok a => exact hk a rfl r

theorem within (h : Gives m d) (p : DecodeError.Place) : Gives (m.within p) (d.within p) := by
  intro r
  rw [Pass.within, h r]
  rfl

theorem element {xs : List α} {i : Nat} {x : α} (hx : xs[i]? = some x) {k : α → Pass β}
    {d : Decoding β} (hk : Gives (k x) d) : Gives (.ofGuarded (Machine.element xs i) >>= k) d := by
  intro r
  rw [Machine.element, hx]
  exact hk r

theorem attempt (h : Gives m d) : Gives m.attempt (.ok d) := by
  intro r
  rw [Pass.attempt, h r]
  rfl

theorem fresh (h : ∃ r, m ⟨0, none⟩ = .ok (d, r)) : Gives m.fresh d := by
  obtain ⟨r, hr⟩ := h
  intro r'
  rw [Pass.fresh, hr]
  rfl

end Gives
end Machine
end ScriptCodec

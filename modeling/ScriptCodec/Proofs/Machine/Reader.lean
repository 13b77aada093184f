import ScriptCodec.Proofs.Binary.Holds

/-!
A machine that decodes with a cursor, as a program with arrays does it: it takes elements by index
and bytes by their bounds, and a read that fails is only remembered by its reader, which then
answers zero to every further read until someone looks. Nothing about the machine rules out that
an index is out of range or that a loop never ends, so either is an outcome of a run. `Reads` says
that a program of such reads does what a checked reading does, and that a reader with a fault
keeps it.
-/
namespace ScriptCodec.Machine

/-- Why a run would end without an answer. -/
inductive Mishap where
  /-- an index or the end of a slice outside of what it is taken from -/
  | stray (index length : Nat)
  /-- a loop that is not done after the rounds it was given -/
  | endless
deriving DecidableEq, Repr

abbrev Guarded (α : Type) := Except Mishap α

def element {α : Type} (xs : List α) (i : Nat) : Guarded α :=
  match xs[i]? with
  | some x => .ok x
  | none => .error (.stray i xs.length)

def slice (img : Image) (start stop : Nat) : Guarded Bytes :=
  if start ≤ stop ∧ stop ≤ img.size then .ok (img.extract start stop).toList
  else .error (.stray stop img.size)

def littleEndian (width : Nat) (bytes : Bytes) : Guarded Nat :=
  if width ≤ bytes.length then .ok (Word.ofBytes (bytes.take width))
  else .error (.stray width bytes.length)

structure Reader where
  pos : Nat
  fault : Option RangeFault

abbrev Reading (α : Type) := StateT Reader Guarded α

section

variable (img : Image)

def word (width : Nat) : Reading Nat := fun r =>
  match r.fault with
  | some _ => .ok (0, r)
  | none =>
    if img.size < r.pos + width then
      .ok (0, { r with fault := some (.need width r.pos img.size) })
    else do
      let bytes ← slice img r.pos (r.pos + width)
      let v ← littleEndian width bytes
      return (v, ⟨r.pos + width, none⟩)

def u8 : Reading UInt8 := UInt8.ofNat <$> word img 1
def u16 : Reading UInt16 := UInt16.ofNat <$> word img 2
def u32 : Reading UInt32 := UInt32.ofNat <$> word img 4
def u64 : Reading UInt64 := UInt64.ofNat <$> word img 8

def moveTo (pos : Nat) : Reading Unit := fun r =>
  match r.fault with
  | some _ => .ok ((), r)
  | none =>
    if img.size < pos then .ok ((), { r with fault := some (.position pos img.size) })
    else .ok ((), ⟨pos, none⟩)

def skip (count : Nat) : Reading Unit := fun r => moveTo img (r.pos + count) r

def cstring : Reading Bytes := fun r =>
  match r.fault with
  | some _ => .ok ([], r)
  | none =>
    if img.size < r.pos then .ok ([], { r with fault := some (.stringStart r.pos) })
    else do
      let rest ← slice img r.pos img.size
      match rest.findIdx? (· == 0) with
      | none => return ([], { r with fault := some (.unterminated r.pos) })
      | some length => do
        let s ← slice img r.pos (r.pos + length)
        return (s, ⟨r.pos + length + 1, none⟩)

end

/-- Moves to a multiple of `n`, past the end of the input if need be. -/
def align (n : Nat) : Reading Nat := fun r =>
  .ok (Word.padding n r.pos, { r with pos := r.pos + Word.padding n r.pos })

def here : Reading UInt32 := fun r => .ok (UInt32.ofNat r.pos, r)

def hasFault : Reading Bool := fun r => .ok (r.fault.isSome, r)

/-- A loop of `count` rounds, whether or not a read fails. -/
def repeated {σ : Type} (round : σ → Reading σ) : Nat → σ → Reading σ
  | 0, s => pure s
  | count + 1, s => round s >>= repeated round count

/-- A program that does what the checked reading does at every position. Where the reading fails,
the program goes on to its end with the fault on record. -/
structure Reads {α : Type} (m : Reading α) (read : Nat → Except RangeFault (α × Nat)) : Prop where
  ok : ∀ {pos a next}, read pos = .ok (a, next) → m ⟨pos, none⟩ = .ok (a, ⟨next, none⟩)
  cut : ∀ {pos fault}, read pos = .error fault →
    ∃ a next, m ⟨pos, none⟩ = .ok (a, ⟨next, some fault⟩)
  kept : ∀ pos fault, ∃ a next, m ⟨pos, some fault⟩ = .ok (a, ⟨next, some fault⟩)

namespace Reads

variable {α β : Type} {m : Reading α} {read : Nat → Except RangeFault (α × Nat)}

theorem of_eq (h : Reads m read) {read' : Nat → Except RangeFault (α × Nat)}
    (heq : ∀ pos, read' pos = read pos) : Reads m read' := by
  have hread : read' = read := funext heq
  rw [hread]
  exact h

theorem pure (a : α) : Reads (Pure.pure a) fun pos => .ok (a, pos) where
  ok := by
    intro pos b next h
    obtain ⟨rfl, rfl⟩ := Prod.mk.inj (Except.ok.inj h)
    rfl
  cut := nofun
  kept := fun pos fault => ⟨a, pos, rfl⟩

theorem bind (h : Reads m read) {k : α → Reading β} {read' : α → Nat → Except RangeFault (β × Nat)}
    (hk : ∀ a, Reads (k a) (read' a)) :
    Reads (m >>= k) fun pos => (read pos).bind fun r => read' r.1 r.2 where
  ok := by
    intro pos b next hb
    rw [Except.bind_eq_ok_iff] at hb
    obtain ⟨⟨a, mid⟩, ha, hb⟩ := hb
    change (m ⟨pos, none⟩).bind (fun r => k r.1 r.2) = _
    rw [h.ok ha]
    exact (hk a).ok hb
  cut := by
    intro pos fault hfault
    change ∃ a next, (m ⟨pos, none⟩).bind (fun r => k r.1 r.2) = _
    cases hread : read pos with
    | error first =>
      rw [hread] at hfault
      obtain ⟨a, mid, ha⟩ := h.cut hread
      rw [ha, ← Except.error.inj hfault]
      exact (hk a).kept mid first
    | ok r =>
      rw [hread] at hfault
      rw [h.ok hread]
      exact (hk r.1).cut hfault
  kept := by
    intro pos fault
    change ∃ a next, (m ⟨pos, some fault⟩).bind (fun r => k r.1 r.2) = _
    obtain ⟨a, mid, ha⟩ := h.kept pos fault
    rw [ha]
    exact (hk a).kept mid fault

theorem unlessFaulted (h : Reads m read) (a : α) :
    Reads (hasFault >>= fun faulted => if faulted = true then Pure.pure a else m) read where
  ok := h.ok
  cut := h.cut
  kept := fun pos _ => ⟨a, pos, rfl⟩

theorem map (h : Reads m read) (f : α → β) :
    Reads (f <$> m) fun pos => (read pos).map fun r => (f r.1, r.2) := by
  refine (h.bind fun a => pure (f a)).of_eq fun pos => ?_
  cases read pos with
  | error fault => rfl
  | ok r => rfl

end Reads

section

variable (img : Image)

theorem slice_eq_ok {start stop : Nat} (hle : start ≤ stop) (hstop : stop ≤ img.size) :
    slice img start stop = .ok (img.extract start stop).toList :=
  if_pos ⟨hle, hstop⟩

theorem littleEndian_eq_ok {start width : Nat} (hle : start + width ≤ img.size) :
    littleEndian width (img.extract start (start + width)).toList =
      .ok (Word.ofBytes (img.extract start (start + width)).toList) := by
  have hlength : (img.extract start (start + width)).toList.length = width := by
    rw [Array.length_toList, Array.size_extract]
    omega
  rw [littleEndian, if_pos (by omega), List.take_of_length_le (by omega)]

theorem reads_word (width : Nat) :
    Reads (word img width) fun pos => (img.word width pos).map fun v => (v, pos + width) where
  ok := by
    intro pos v next h
    by_cases hle : pos + width ≤ img.size
    · rw [Image.word, Image.slice, if_pos hle] at h
      obtain ⟨rfl, rfl⟩ := Prod.mk.inj (Except.ok.inj h)
      rw [word]
      simp only
      rw [if_neg (by omega), slice_eq_ok img (by omega) hle]
      change (littleEndian width _).bind _ = _
      rw [littleEndian_eq_ok img hle]
      rfl
    · rw [Image.word, Image.slice, if_neg hle] at h
      cases h
  cut := by
    intro pos fault h
    by_cases hle : pos + width ≤ img.size
    · rw [Image.word, Image.slice, if_pos hle] at h
      cases h
    · rw [Image.word, Image.slice, if_neg hle] at h
      rw [← Except.error.inj h, word]
      simp only
      rw [if_pos (by omega)]
      exact ⟨0, pos, rfl⟩
  kept := fun pos fault => ⟨0, pos, rfl⟩

theorem reads_wordAs {α : Type} (width : Nat) (f : Nat → α) :
    Reads (f <$> word img width) fun pos =>
      ((img.word width pos).map f).map fun v => (v, pos + width) := by
  refine ((reads_word img width).map f).of_eq fun pos => ?_
  cases img.word width pos with
  | error fault => rfl
  | ok v => rfl

theorem reads_u8 : Reads (u8 img) fun pos => (img.u8 pos).map fun v => (v, pos + 1) :=
  reads_wordAs img 1 UInt8.ofNat

theorem reads_u16 : Reads (u16 img) fun pos => (img.u16 pos).map fun v => (v, pos + 2) :=
  reads_wordAs img 2 UInt16.ofNat

theorem reads_u32 : Reads (u32 img) fun pos => (img.u32 pos).map fun v => (v, pos + 4) :=
  reads_wordAs img 4 UInt32.ofNat

theorem reads_u64 : Reads (u64 img) fun pos => (img.u64 pos).map fun v => (v, pos + 8) :=
  reads_wordAs img 8 UInt64.ofNat

theorem moveTo_of_seek {target next : Nat} (h : img.seek target = .ok next) (pos : Nat) :
    moveTo img target ⟨pos, none⟩ = .ok ((), ⟨target, none⟩) := by
  rw [Image.seek] at h
  split at h
  · rw [moveTo]
    simp only
    rw [if_neg (by omega)]
  · cases h

theorem moveTo_of_fault {target : Nat} {fault : RangeFault} (h : img.seek target = .error fault)
    (pos : Nat) : moveTo img target ⟨pos, none⟩ = .ok ((), ⟨pos, some fault⟩) := by
  rw [Image.seek] at h
  split at h
  · cases h
  · cases h
    rw [moveTo]
    simp only
    rw [if_pos (by omega)]

theorem reads_moveTo (target : Nat) :
    Reads (moveTo img target) fun _ => (img.seek target).map fun _ => ((), target) where
  ok := by
    intro pos u next h
    cases hseek : img.seek target with
    | error fault =>
      rw [hseek] at h
      cases h
    | ok found =>
      rw [hseek] at h
      cases h
      exact moveTo_of_seek img hseek pos
  cut := by
    intro pos fault h
    cases hseek : img.seek target with
    | error first =>
      rw [hseek] at h
      cases h
      exact ⟨(), pos, moveTo_of_fault img hseek pos⟩
    | ok found =>
      rw [hseek] at h
      cases h
  kept := fun pos fault => ⟨(), pos, rfl⟩

theorem reads_skip (count : Nat) :
    Reads (skip img count) fun pos => (img.seek (pos + count)).map fun _ => ((), pos + count) where
  ok := (reads_moveTo img _).ok
  cut := (reads_moveTo img _).cut
  kept := fun pos _ => ⟨(), pos, rfl⟩

theorem findZero_eq (pos : Nat) :
    img.findZero pos =
      ((img.toList.drop pos).findIdx? (· == 0)).map fun length => pos + length := by
  fun_induction Image.findZero img pos with
  | case1 pos hlt hzero =>
    have hdrop : img.toList.drop pos = img[pos] :: img.toList.drop (pos + 1) := by
      rw [List.drop_eq_getElem_cons (by rwa [Array.length_toList]), Array.getElem_toList]
    simp [hdrop, List.findIdx?_cons, hzero]
  | case2 pos hlt hzero ih =>
    have hdrop : img.toList.drop pos = img[pos] :: img.toList.drop (pos + 1) := by
      rw [List.drop_eq_getElem_cons (by rwa [Array.length_toList]), Array.getElem_toList]
    rw [ih, hdrop, List.findIdx?_cons, if_neg (by simpa using hzero), Option.map_map]
    refine congrArg (fun f => Option.map f _) (funext fun length => ?_)
    simp only [Function.comp_apply]
    omega
  | case3 pos hlt =>
    rw [List.drop_eq_nil_of_le (by rw [Array.length_toList]; omega)]
    rfl

theorem cstring_of_le {pos : Nat} (hle : pos ≤ img.size) :
    (∀ stop, img.findZero pos = some stop → cstring img ⟨pos, none⟩ =
      .ok ((img.extract pos stop).toList, ⟨stop + 1, none⟩)) ∧
    (img.findZero pos = none → cstring img ⟨pos, none⟩ =
      .ok ([], ⟨pos, some (.unterminated pos)⟩)) := by
  have hrest : (img.extract pos img.size).toList = img.toList.drop pos := by
    rw [Array.toList_extract, List.extract_eq_take_drop, List.take_of_length_le (by simp)]
  have hread : cstring img ⟨pos, none⟩ =
      match (img.toList.drop pos).findIdx? (· == 0) with
      | none => .ok ([], ⟨pos, some (.unterminated pos)⟩)
      | some length => (slice img pos (pos + length)).bind fun s =>
          .ok (s, ⟨pos + length + 1, none⟩) := by
    rw [cstring]
    simp only
    rw [if_neg (by omega), slice_eq_ok img hle (Nat.le_refl _), hrest]
    rfl
  rw [hread, findZero_eq]
  cases hfind : (img.toList.drop pos).findIdx? (· == 0) with
  | none => exact ⟨nofun, fun _ => rfl⟩
  | some length =>
    have hlt := List.findIdx?_eq_some_iff_findIdx_eq.mp hfind
    rw [List.length_drop, Array.length_toList] at hlt
    refine ⟨?_, nofun⟩
    intro stop hstop
    obtain rfl : pos + length = stop := Option.some.inj hstop
    simp only
    rw [slice_eq_ok img (by omega) (by omega)]
    rfl

theorem reads_cstring : Reads (cstring img) img.cstring where
  ok := by
    intro pos s next h
    rw [Image.cstring] at h
    by_cases hlt : img.size < pos
    · rw [if_pos hlt] at h
      cases h
    rw [if_neg hlt] at h
    cases hzero : img.findZero pos with
    | none =>
      rw [hzero] at h
      cases h
    | some stop =>
      rw [hzero] at h
      cases h
      exact (cstring_of_le img (Nat.le_of_not_lt hlt)).1 stop hzero
  cut := by
    intro pos fault h
    rw [Image.cstring] at h
    by_cases hlt : img.size < pos
    · rw [if_pos hlt] at h
      cases h
      rw [cstring]
      simp only
      rw [if_pos hlt]
      exact ⟨[], pos, rfl⟩
    rw [if_neg hlt] at h
    cases hzero : img.findZero pos with
    | none =>
      rw [hzero] at h
      cases h
      exact ⟨[], pos, (cstring_of_le img (Nat.le_of_not_lt hlt)).2 hzero⟩
    | some stop =>
      rw [hzero] at h
      cases h
  kept := fun pos fault => ⟨[], pos, rfl⟩

end

theorem reads_align (n : Nat) :
    Reads (align n) fun pos => .ok (Word.padding n pos, pos + Word.padding n pos) where
  ok := by
    intro pos v next h
    obtain ⟨rfl, rfl⟩ := Prod.mk.inj (Except.ok.inj h)
    rfl
  cut := nofun
  kept := fun pos fault => ⟨Word.padding n pos, pos + Word.padding n pos, rfl⟩

theorem reads_here : Reads here fun pos => .ok (UInt32.ofNat pos, pos) where
  ok := by
    intro pos v next h
    obtain ⟨rfl, rfl⟩ := Prod.mk.inj (Except.ok.inj h)
    rfl
  cut := nofun
  kept := fun pos fault => ⟨UInt32.ofNat pos, pos, rfl⟩

theorem reads_repeated {σ : Type} {round : σ → Reading σ}
    {step : σ → Nat → Except RangeFault (σ × Nat)}
    (read : Nat → σ → Nat → Except RangeFault (σ × Nat)) (hround : ∀ s, Reads (round s) (step s))
    (hzero : ∀ s pos, read 0 s pos = .ok (s, pos))
    (hsucc : ∀ count s pos, read (count + 1) s pos =
      (step s pos).bind fun r => read count r.1 r.2)
    (count : Nat) (s : σ) : Reads (repeated round count s) (read count s) := by
  induction count generalizing s with
  | zero => exact (Reads.pure s).of_eq (hzero s)
  | succ count ih => exact ((hround s).bind ih).of_eq (hsucc count s)

end ScriptCodec.Machine

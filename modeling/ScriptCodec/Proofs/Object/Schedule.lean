import Mathlib.Data.Nat.Find
import Mathlib.Logic.Relation
import ScriptCodec.Proofs.Object.Stability

/-!
Decoding the exported functions with several workers. One task is started for each export, in the
order of the exports and with at most a given number of them in flight; a task that is in flight
decodes one instruction after the other and shares nothing with the others but the tables and the
input, which it only reads. Tasks advance and end in any order. Each one stores its function in
the slot of its export, or reports its error, of which the first one is kept.
-/
namespace ScriptCodec

namespace Workers

open Disassembly

/-- A function while it is decoded: where its reader stands, how many bytes are left, and the
instructions and branch targets met so far, the last one first. -/
structure Progress where
  pos : Nat
  remaining : Nat
  done : List Instruction
  targets : List UInt32

inductive Phase where
  | waiting
  | decoding (p : Progress)
  | returned (r : Decoding Function)
  | finished

structure Task where
  entry : Export
  phase : Phase

structure State where
  tasks : List Task
  slots : List (Option Function)
  /-- the error of the first task that ended with one -/
  failure : Option DecodeError

def functionOf (e : Export) (decoded : List Instruction × List UInt32) : Function where
  offset := e.offset
  size := e.size
  params := e.params
  flags := e.flags
  name := e.name
  instructions := if decoded.1.isEmpty then none else some (decoded.1.map some)
  labels := some (Labels.ofTargets decoded.2)

def Phase.begin (img : Image) (e : Export) : Phase :=
  match img.seek e.offset.toNat with
  | .error fault => .returned (.error ((DecodeError.ofRange fault).within (.function e.name)))
  | .ok pos => .decoding ⟨pos, e.size.toNat, [], []⟩

def Progress.advance (t : DecodeTables) (img : Image) (e : Export) (p : Progress) : Phase :=
  if p.remaining = 0 then .returned (.ok (functionOf e (p.done.reverse, p.targets.reverse)))
  else match instruction t img p.pos with
    | .error err => .returned (.error (err.within (.function e.name)))
    | .ok step =>
      if p.remaining < step.size then
        .returned (Decoding.within (.function e.name) (Decoding.fail
          (.overrun step.inst.opcode step.inst.offset (step.size - p.remaining) (e.offset + e.size))))
      else
        .decoding ⟨step.next, p.remaining - step.size, step.inst :: p.done,
          step.target.toList ++ p.targets⟩

def Phase.isInFlight : Phase → Bool
  | .decoding _ | .returned _ => true
  | .waiting | .finished => false

namespace State

def initial (exports : List Export) : State where
  tasks := exports.map fun e => ⟨e, .waiting⟩
  slots := exports.map fun _ => none
  failure := none

def inFlight (st : State) : Nat := st.tasks.countP fun task => task.phase.isInFlight

def IsDone (st : State) : Prop := ∀ task ∈ st.tasks, task.phase = .finished

def outcome (st : State) : Decoding (List (Option Function)) :=
  match st.failure with
  | some err => .error err
  | none => .ok st.slots

end State

inductive Step (t : DecodeTables) (img : Image) (n : Nat) : State → State → Prop
  | start {st : State} {i : Nat} {e : Export} (task : st.tasks[i]? = some ⟨e, .waiting⟩)
    (order : ∀ j < i, ¬ ∃ d, st.tasks[j]? = some ⟨d, .waiting⟩) (room : st.inFlight < n) :
    Step t img n st { st with tasks := st.tasks.set i ⟨e, .begin img e⟩ }
  | advance {st : State} {i : Nat} {e : Export} {p : Progress}
    (task : st.tasks[i]? = some ⟨e, .decoding p⟩) :
    Step t img n st { st with tasks := st.tasks.set i ⟨e, p.advance t img e⟩ }
  | store {st : State} {i : Nat} {e : Export} {fn : Function}
    (task : st.tasks[i]? = some ⟨e, .returned (.ok fn)⟩) :
    Step t img n st { st with
      tasks := st.tasks.set i ⟨e, .finished⟩, slots := st.slots.set i (some fn) }
  | report {st : State} {i : Nat} {e : Export} {err : DecodeError}
    (task : st.tasks[i]? = some ⟨e, .returned (.error err)⟩) :
    Step t img n st { st with
      tasks := st.tasks.set i ⟨e, .finished⟩, failure := st.failure.or (some err) }

abbrev Run (t : DecodeTables) (img : Image) (n : Nat) : State → State → Prop :=
  Relation.ReflTransGen (Step t img n)

variable {t : DecodeTables} {img : Image} {n : Nat}

def Phase.value (t : DecodeTables) (img : Image) (e : Export) : Phase → Decoding Function
  | .decoding p => Decoding.within (.function e.name)
    ((codeFrom t img (e.offset + e.size) p.pos p.remaining p.done p.targets).map (functionOf e))
  | .returned r => r
  | .waiting | .finished => exportedFunction t img e

theorem Phase.value_begin (e : Export) :
    (Phase.begin img e).value t img e = exportedFunction t img e := by
  rw [Phase.begin, exportedFunction, function]
  cases img.seek e.offset.toNat with
  | error fault => rfl
  | ok pos =>
    refine congrArg (Decoding.within _) ?_
    change Except.map _ (codeFrom t img (e.offset + e.size) pos e.size.toNat [] []) =
      codeFrom t img (e.offset + e.size) pos e.size.toNat [] [] >>= _
    cases codeFrom t img (e.offset + e.size) pos e.size.toNat [] [] with
    | error err => rfl
    | ok decoded => rfl

theorem Progress.value_advance (e : Export) (p : Progress) :
    (p.advance t img e).value t img e = (Phase.decoding p).value t img e := by
  rw [Progress.advance, Phase.value.eq_def _ _ _ (.decoding p)]
  simp only
  rw [codeFrom]
  by_cases hzero : p.remaining = 0
  · rw [if_pos hzero, if_pos hzero]
    rfl
  · rw [if_neg hzero, if_neg hzero]
    cases instruction t img p.pos with
    | error err => rfl
    | ok step =>
      by_cases hover : p.remaining < step.size
      · simp only [if_pos hover]
        rfl
      · simp only [if_neg hover]
        rfl

structure Invariant (t : DecodeTables) (img : Image) (exports : List Export) (n : Nat)
    (st : State) : Prop where
  entries : st.tasks.map Task.entry = exports
  slots : st.slots.length = st.tasks.length
  room : st.inFlight ≤ n
  value : ∀ task ∈ st.tasks, task.phase.value t img task.entry = exportedFunction t img task.entry
  stored : ∀ (i : Nat) (e : Export) (fn : Function), st.tasks[i]? = some ⟨e, .finished⟩ →
    exportedFunction t img e = .ok fn → st.slots[i]? = some (some fn)
  reported : ∀ (i : Nat) (e : Export) (err : DecodeError), st.tasks[i]? = some ⟨e, .finished⟩ →
    exportedFunction t img e = .error err → st.failure ≠ none
  failure : ∀ err, st.failure = some err → ∃ e ∈ exports, exportedFunction t img e = .error err

theorem invariant_initial (t : DecodeTables) (img : Image) (n : Nat) (exports : List Export) :
    Invariant t img exports n (.initial exports) where
  entries := by
    rw [State.initial, List.map_map]
    exact List.map_id exports
  slots := by simp [State.initial]
  room := by
    have hzero : (State.initial exports).inFlight = 0 := by
      refine List.countP_eq_zero.mpr ?_
      intro task htask
      obtain ⟨e, -, rfl⟩ := List.mem_map.mp htask
      exact Bool.false_ne_true
    omega
  value := by
    intro task htask
    obtain ⟨e, -, rfl⟩ := List.mem_map.mp htask
    rfl
  stored := by
    intro i e fn htask
    obtain ⟨d, -, hd⟩ := List.mem_map.mp (List.mem_of_getElem? htask)
    cases hd
  reported := by
    intro i e err htask
    obtain ⟨d, -, hd⟩ := List.mem_map.mp (List.mem_of_getElem? htask)
    cases hd
  failure := nofun

section

variable {tasks : List Task} {i : Nat} {e : Export} {phase next : Phase}

theorem exists_move (htask : tasks[i]? = some ⟨e, phase⟩) (task : Task) :
    ∃ before after, tasks = before ++ ⟨e, phase⟩ :: after ∧
      tasks.set i task = before ++ task :: after := by
  obtain ⟨hlt, hget⟩ := List.getElem?_eq_some_iff.mp htask
  obtain ⟨before, after, hsplit, -, hset⟩ : ∃ before after, tasks = before ++ tasks[i] :: after ∧
      before.length = i ∧ tasks.set i task = before ++ task :: after := List.exists_of_set hlt
  rw [hget] at hsplit
  exact ⟨before, after, hsplit, hset⟩

theorem map_entry_set (htask : tasks[i]? = some ⟨e, phase⟩) :
    (tasks.set i ⟨e, next⟩).map Task.entry = tasks.map Task.entry := by
  obtain ⟨before, after, hsplit, hset⟩ := exists_move htask ⟨e, next⟩
  rw [hset, hsplit, List.map_append, List.map_append]
  rfl

/-- The task in flight that moves on makes no room and takes none. -/
theorem countP_set_le (htask : tasks[i]? = some ⟨e, phase⟩) (hphase : phase.isInFlight = true)
    (next : Phase) :
    (tasks.set i ⟨e, next⟩).countP (fun task => task.phase.isInFlight) ≤
      tasks.countP fun task => task.phase.isInFlight := by
  obtain ⟨before, after, hsplit, hset⟩ := exists_move htask ⟨e, next⟩
  rw [hset, hsplit, List.countP_append, List.countP_append, List.countP_cons, List.countP_cons,
    hphase]
  split
  · exact Nat.le_refl _
  · simp only [if_true]
    omega

theorem countP_set_le_succ (htask : tasks[i]? = some ⟨e, phase⟩) (next : Phase) :
    (tasks.set i ⟨e, next⟩).countP (fun task => task.phase.isInFlight) ≤
      tasks.countP (fun task => task.phase.isInFlight) + 1 := by
  obtain ⟨before, after, hsplit, hset⟩ := exists_move htask ⟨e, next⟩
  rw [hset, hsplit, List.countP_append, List.countP_append, List.countP_cons, List.countP_cons]
  split <;> split <;> omega

theorem finished_of_set {j : Nat} {d : Export}
    (hj : (tasks.set i ⟨e, next⟩)[j]? = some ⟨d, .finished⟩) :
    j ≠ i ∧ tasks[j]? = some ⟨d, .finished⟩ ∨ j = i ∧ d = e ∧ next = .finished := by
  rw [List.getElem?_set] at hj
  split at hj
  · rename_i hij
    split at hj
    · cases hj
      exact Or.inr ⟨hij.symm, rfl, rfl⟩
    · cases hj
  · rename_i hij
    exact Or.inl ⟨Ne.symm hij, hj⟩

/-- One task moves on. When it ends, what it returned has to be in its slot or on record; the
slots of the other tasks and an error that is on record stay. -/
theorem Invariant.move {exports : List Export} {st : State} (hinv : Invariant t img exports n st)
    (htask : st.tasks[i]? = some ⟨e, phase⟩)
    (hvalue : next.value t img e = exportedFunction t img e)
    (hroom : (st.tasks.set i ⟨e, next⟩).countP (fun task => task.phase.isInFlight) ≤ n)
    {slots : List (Option Function)} {failure : Option DecodeError}
    (hlength : slots.length = st.slots.length) (hslots : ∀ j ≠ i, slots[j]? = st.slots[j]?)
    (hkept : st.failure ≠ none → failure ≠ none)
    (hfailure : ∀ err, failure = some err →
      ∃ d ∈ exports, exportedFunction t img d = .error err)
    (hstored : ∀ fn, next = .finished → exportedFunction t img e = .ok fn →
      slots[i]? = some (some fn))
    (hreported : ∀ err, next = .finished → exportedFunction t img e = .error err →
      failure ≠ none) :
    Invariant t img exports n ⟨st.tasks.set i ⟨e, next⟩, slots, failure⟩ where
  entries := (map_entry_set htask).trans hinv.entries
  slots := by rw [hlength, hinv.slots, List.length_set]
  room := hroom
  value := by
    intro task hmem
    rcases List.mem_or_eq_of_mem_set hmem with hmem | rfl
    · exact hinv.value task hmem
    · exact hvalue
  stored := by
    intro j d fn hj hfn
    rcases finished_of_set hj with ⟨hne, hj⟩ | ⟨rfl, rfl, hfinished⟩
    · rw [hslots j hne]
      exact hinv.stored j d fn hj hfn
    · exact hstored fn hfinished hfn
  reported := by
    intro j d err hj herr
    rcases finished_of_set hj with ⟨-, hj⟩ | ⟨-, rfl, hfinished⟩
    · exact hkept (hinv.reported j d err hj herr)
    · exact hreported err hfinished herr
  failure := hfailure

end

theorem Phase.begin_ne_finished (img : Image) (e : Export) : Phase.begin img e ≠ .finished := by
  unfold Phase.begin
  split <;> exact nofun

theorem Progress.advance_ne_finished (t : DecodeTables) (img : Image) (e : Export)
    (p : Progress) : p.advance t img e ≠ .finished := by
  intro h
  unfold Progress.advance at h
  split at h
  · cases h
  · split at h
    · cases h
    · split at h
      · cases h
      · cases h

theorem Invariant.step {exports : List Export} {st st' : State}
    (hinv : Invariant t img exports n st) (h : Step t img n st st') :
    Invariant t img exports n st' := by
  cases h with
  | @start i e htask _ hroom =>
    have hcount := countP_set_le_succ htask (.begin img e)
    have hnext := Phase.begin_ne_finished img e
    exact hinv.move htask (Phase.value_begin e) (Nat.le_trans hcount hroom) rfl (fun _ _ => rfl) id
      hinv.failure (fun _ hend => absurd hend hnext) (fun _ hend => absurd hend hnext)
  | @advance i e p htask =>
    have hvalue := hinv.value _ (List.mem_of_getElem? htask)
    have hcount := countP_set_le htask rfl (p.advance t img e)
    have hnext := p.advance_ne_finished t img e
    exact hinv.move htask ((p.value_advance e).trans hvalue) (Nat.le_trans hcount hinv.room) rfl
      (fun _ _ => rfl) id hinv.failure (fun _ hend => absurd hend hnext)
      (fun _ hend => absurd hend hnext)
  | @store i e fn htask =>
    have hvalue : .ok fn = exportedFunction t img e := hinv.value _ (List.mem_of_getElem? htask)
    have hcount := countP_set_le htask rfl .finished
    refine hinv.move htask rfl (Nat.le_trans hcount hinv.room) List.length_set ?_ id hinv.failure
      ?_ ?_
    · intro j hj
      exact List.getElem?_set_ne (Ne.symm hj)
    · intro fn' _ hfn'
      have hlt : i < st.slots.length := by
        rw [hinv.slots]
        exact (List.getElem?_eq_some_iff.mp htask).1
      rw [hfn'] at hvalue
      rw [List.getElem?_set_self hlt, Except.ok.inj hvalue]
    · intro err _ herr
      rw [herr] at hvalue
      cases hvalue
  | @report i e err htask =>
    have hvalue : .error err = exportedFunction t img e := hinv.value _ (List.mem_of_getElem? htask)
    have hcount := countP_set_le htask rfl .finished
    have hentry : e ∈ exports := by
      rw [← hinv.entries]
      exact List.mem_map_of_mem (List.mem_of_getElem? htask)
    have hkept : st.failure.or (some err) ≠ none := by
      cases st.failure with
      | none => exact nofun
      | some first => exact nofun
    refine hinv.move htask rfl (Nat.le_trans hcount hinv.room) rfl (fun _ _ => rfl) (fun _ => hkept)
      ?_ ?_ (fun _ _ _ => hkept)
    · intro err' herr'
      rcases Option.or_eq_some_iff.mp herr' with hfirst | ⟨-, hthis⟩
      · exact hinv.failure err' hfirst
      · rw [← Option.some_inj.mp hthis]
        exact ⟨e, hentry, hvalue.symm⟩
    · intro fn _ hfn
      rw [hfn] at hvalue
      cases hvalue

theorem Invariant.run {exports : List Export} {st st' : State}
    (hinv : Invariant t img exports n st) (h : Run t img n st st') :
    Invariant t img exports n st' := by
  induction h with
  | refl => exact hinv
  | tail _ hstep ih => exact ih.step hstep

def Task.weight : Task → Nat
  | ⟨e, .waiting⟩ => e.size.toNat + 3
  | ⟨_, .decoding p⟩ => p.remaining + 2
  | ⟨_, .returned _⟩ => 1
  | ⟨_, .finished⟩ => 0

def State.weight (st : State) : Nat := (st.tasks.map Task.weight).sum

theorem weight_begin_lt (img : Image) (e : Export) :
    (Task.mk e (.begin img e)).weight < (Task.mk e .waiting).weight := by
  unfold Phase.begin
  split <;> simp only [Task.weight] <;> omega

theorem weight_advance_lt (t : DecodeTables) (img : Image) (e : Export) (p : Progress) :
    (Task.mk e (p.advance t img e)).weight < (Task.mk e (.decoding p)).weight := by
  unfold Progress.advance
  split
  · simp only [Task.weight]
    omega
  · split
    · simp only [Task.weight]
      omega
    · rename_i step _
      have hsize := step.size_pos
      split <;> simp only [Task.weight] <;> omega

theorem weight_set_lt {tasks : List Task} {i : Nat} {e : Export} {phase next : Phase}
    (htask : tasks[i]? = some ⟨e, phase⟩)
    (hlt : (Task.mk e next).weight < (Task.mk e phase).weight) :
    ((tasks.set i ⟨e, next⟩).map Task.weight).sum < (tasks.map Task.weight).sum := by
  obtain ⟨before, after, hsplit, hset⟩ := exists_move htask ⟨e, next⟩
  rw [hset, hsplit]
  simp only [List.map_append, List.map_cons, List.sum_append, List.sum_cons]
  omega

theorem Step.weight_lt {st st' : State} (h : Step t img n st st') : st'.weight < st.weight := by
  cases h with
  | start htask => exact weight_set_lt htask (weight_begin_lt img _)
  | advance htask => exact weight_set_lt htask (weight_advance_lt t img _ _)
  | store htask => exact weight_set_lt htask Nat.zero_lt_one
  | report htask => exact weight_set_lt htask Nat.zero_lt_one

/-- As long as tasks are left, one of them can move: one that is in flight or, when none is, the
first one that waits. -/
theorem exists_step (t : DecodeTables) (img : Image) (hn : 0 < n) {st : State} (h : ¬ st.IsDone) :
    ∃ st', Step t img n st st' := by
  by_cases hflight : ∃ (i : Nat) (e : Export) (phase : Phase),
      st.tasks[i]? = some ⟨e, phase⟩ ∧ phase.isInFlight = true
  · obtain ⟨i, e, phase, htask, hphase⟩ := hflight
    match phase with
    | .decoding p => exact ⟨_, .advance htask⟩
    | .returned (.ok fn) => exact ⟨_, .store htask⟩
    | .returned (.error err) => exact ⟨_, .report htask⟩
  · have hzero : st.inFlight = 0 := by
      refine List.countP_eq_zero.mpr ?_
      intro task hmem hphase
      obtain ⟨i, hi⟩ := List.mem_iff_getElem?.mp hmem
      exact hflight ⟨i, task.entry, task.phase, hi, hphase⟩
    have hwaiting : ∃ i : Nat, ∃ e, st.tasks[i]? = some ⟨e, .waiting⟩ := by
      simp only [State.IsDone, not_forall] at h
      obtain ⟨task, hmem, hphase⟩ := h
      obtain ⟨i, hi⟩ := List.mem_iff_getElem?.mp hmem
      obtain ⟨e, phase⟩ := task
      match phase with
      | .waiting => exact ⟨i, e, hi⟩
      | .finished => exact absurd rfl hphase
      | .decoding p => exact absurd ⟨i, e, _, hi, rfl⟩ hflight
      | .returned r => exact absurd ⟨i, e, _, hi, rfl⟩ hflight
    classical
    obtain ⟨e, he⟩ := Nat.find_spec hwaiting
    exact ⟨_, .start he (fun j hj => Nat.find_min hwaiting hj) (by omega)⟩

theorem exists_completion (hn : 0 < n) (st : State) :
    ∃ final, Run t img n st final ∧ final.IsDone := by
  induction hw : st.weight using Nat.strong_induction_on generalizing st with
  | _ w ih =>
    by_cases hdone : st.IsDone
    · exact ⟨st, .refl, hdone⟩
    · obtain ⟨st', hstep⟩ := exists_step t img hn hdone
      have hlt := hstep.weight_lt
      obtain ⟨final, hrun, hfinal⟩ := ih st'.weight (by omega) st' rfl
      exact ⟨final, .head hstep hrun, hfinal⟩

namespace Invariant

variable {exports : List Export} {st : State} (hinv : Invariant t img exports n st)
  (hdone : st.IsDone)

include hinv hdone

theorem finished_of_getElem? {i : Nat} {e : Export} (he : exports[i]? = some e) :
    st.tasks[i]? = some ⟨e, .finished⟩ := by
  rw [← hinv.entries, List.getElem?_map, Option.map_eq_some_iff] at he
  obtain ⟨task, htask, rfl⟩ := he
  rw [htask, ← hdone task (List.mem_of_getElem? htask)]

theorem outcome_ok {fns : List Function}
    (hfns : exports.Forall₂ (fun e fn => exportedFunction t img e = .ok fn) fns) :
    st.outcome = .ok (fns.map some) := by
  have hnone : st.failure = none := by
    cases hfailure : st.failure with
    | none => rfl
    | some err =>
      obtain ⟨e, he, herr⟩ := hinv.failure err hfailure
      obtain ⟨fn, -, hfn⟩ := hfns.exists_right he
      rw [hfn] at herr
      cases herr
  have hslots : st.slots = fns.map some := by
    obtain ⟨hlength, hget⟩ := List.forall₂_iff_get.mp hfns
    have hslots := hinv.slots
    rw [← List.length_map Task.entry, hinv.entries, hlength] at hslots
    refine List.ext_getElem? fun i => ?_
    by_cases hi : i < fns.length
    · have hlt : i < exports.length := by omega
      have hfinished := hinv.finished_of_getElem? hdone (List.getElem?_eq_getElem hlt)
      rw [hinv.stored i _ _ hfinished (hget i hlt hi), List.getElem?_map,
        List.getElem?_eq_getElem hi]
      rfl
    · rw [List.getElem?_eq_none (by omega), List.getElem?_eq_none]
      rw [List.length_map]
      omega
  rw [State.outcome, hnone, hslots]

theorem outcome_error {e : Export} (he : e ∈ exports) {err : DecodeError}
    (herr : exportedFunction t img e = .error err) :
    ∃ d ∈ exports, ∃ err', exportedFunction t img d = .error err' ∧ st.outcome = .error err' := by
  obtain ⟨i, hi⟩ := List.mem_iff_getElem?.mp he
  have hsome := hinv.reported i e err (hinv.finished_of_getElem? hdone hi) herr
  obtain ⟨first, hfirst⟩ := Option.ne_none_iff_exists'.mp hsome
  obtain ⟨d, hd, hfailed⟩ := hinv.failure first hfirst
  exact ⟨d, hd, first, hfailed, by rw [State.outcome, hfirst]⟩

end Invariant

end Workers

/-- The labels of the function are the targets of its own branches, under the names that the
branches give them. -/
def Function.LabelsItsBranches (fn : Function) : Prop :=
  ∀ addr name, (addr, name) ∈ fn.labelMap ↔
    name = Labels.nameOf addr ∧ ∃ inst ∈ fn.code, inst.IsBranch ∧ inst.args = [name]

namespace Disassembly

variable {t : DecodeTables} {img : Image} {pos : Nat}

theorem mem_target_iff {step : Step} (h : instruction t img pos = .ok step) {target : UInt32} :
    target ∈ step.target.toList ↔
      step.inst.IsBranch ∧ step.inst.args = [Labels.nameOf target] := by
  obtain ⟨-, -, -, -, hinst⟩ := instruction_eq_ok h
  constructor
  · intro hmem
    obtain ⟨op, kind, r, hread⟩ := exists_readAs h
    rw [hread.target_eq] at hmem
    obtain ⟨hbranch, hargs⟩ := hread.reads.operands_of_target (Option.mem_toList.mp hmem)
    rw [hread.inst_eq]
    refine ⟨⟨kind, hread.kind_eq, hbranch⟩, ?_⟩
    rw [Instruction.args, hargs]
    rfl
  · intro hbranch
    obtain ⟨⟨kind, hkind, hisBranch⟩, hargs⟩ := hbranch
    obtain ⟨kind', v, hkind', hfits, hspell, htarget, -⟩ := hinst
    have hsame : kind' = kind := Option.some_inj.mp (hkind'.symm.trans hkind)
    have hlabel : ∃ name, v = .label name := by
      by_contra hplain
      rw [← hsame, hfits.isBranch_eq (not_exists.mp hplain)] at hisBranch
      cases hisBranch
    obtain ⟨name, rfl⟩ := hlabel
    obtain ⟨target', hmem, hname⟩ := htarget name rfl
    have heq : [Labels.nameOf target] = [name] := hargs.symm.trans hspell
    rw [hname, List.singleton_inj] at heq
    rw [Labels.nameOf_injective heq]
    exact hmem

theorem codeFrom_targets {stop : UInt32} {remaining : Nat} {done code : List Instruction}
    {before targets : List UInt32}
    (h : codeFrom t img stop pos remaining done before = .ok (code, targets)) :
    ∃ rest found, code = done.reverse ++ rest ∧ targets = before.reverse ++ found ∧
      ∀ target, target ∈ found ↔
        ∃ inst ∈ rest, inst.IsBranch ∧ inst.args = [Labels.nameOf target] := by
  fun_induction codeFrom t img stop pos remaining done before with
  | case1 =>
    obtain ⟨rfl, rfl⟩ := Prod.mk.inj (Except.ok.inj h)
    exact ⟨[], [], by simp, by simp, by simp⟩
  | case2 => cases h
  | case3 => exact absurd h Decoding.fail_ne_ok
  | case4 pos remaining done before _ step hstep _ ih =>
    obtain ⟨rest, found, hcode, htargets, hfound⟩ := ih h
    refine ⟨step.inst :: rest, step.target.toList ++ found, ?_, ?_, ?_⟩
    · simp [hcode]
    · simp [htargets, reverse_toList]
    · intro target
      rw [List.mem_append, mem_target_iff hstep, hfound, List.exists_mem_cons_iff]

theorem DecodedAt.labelsItsBranches {e : Export} {targets : List UInt32} {fn : Function}
    (h : DecodedAt t img e targets fn) : fn.LabelsItsBranches := by
  obtain ⟨rest, found, hrest, hfound, hiff⟩ := codeFrom_targets h.code
  rw [List.reverse_nil, List.nil_append] at hrest hfound
  subst hrest hfound
  intro addr name
  rw [Function.labelMap, h.labels, Option.getD_some, Labels.mem_ofTargets]
  constructor
  · intro hmem
    obtain ⟨target, hmem, heq⟩ := hmem
    obtain ⟨rfl, rfl⟩ := Prod.mk.inj heq
    exact ⟨rfl, (hiff addr).mp hmem⟩
  · intro hbranch
    obtain ⟨rfl, hbranch⟩ := hbranch
    exact ⟨addr, (hiff addr).mpr hbranch, rfl⟩

end Disassembly

open Disassembly Workers in
theorem workers_decode_sequentially (opcodes : OpcodeTable) {img : Image} {s : Sections}
    (hs : sections img = .ok s) {n : Nat} (hn : 1 ≤ n) {st : State}
    (hrun : Run (s.tables opcodes) img n (.initial s.exports) st) :
    st.inFlight ≤ n ∧
      (∃ final, Run (s.tables opcodes) img n st final ∧ final.IsDone) ∧
      (st.IsDone → (∀ e ∈ s.exports, ∃ fn, exportedFunction (s.tables opcodes) img e = .ok fn) →
        ∃ fns, s.exports.mapM (exportedFunction (s.tables opcodes) img) = .ok fns ∧
          disassemble opcodes img = .ok (s.object fns) ∧ st.outcome = .ok (fns.map some) ∧
          ∀ fn ∈ fns, fn.LabelsItsBranches) ∧
      (st.IsDone → (∃ e ∈ s.exports, ∀ fn, exportedFunction (s.tables opcodes) img e ≠ .ok fn) →
        ∃ e ∈ s.exports, ∃ err, exportedFunction (s.tables opcodes) img e = .error err ∧
          st.outcome = .error err) := by
  have hinv := (invariant_initial (s.tables opcodes) img n s.exports).run hrun
  refine ⟨hinv.room, exists_completion hn st, ?_, ?_⟩
  · intro hdone hall
    have hsame : s.exports.Forall₂ Eq s.exports := List.forall₂_same.mpr fun _ _ => rfl
    obtain ⟨fns, -, hfns⟩ := hsame.exists_through (S := fun _ _ => True)
        (T := fun e fn => exportedFunction (s.tables opcodes) img e = .ok fn) <| by
      intro e he _ _
      obtain ⟨fn, hfn⟩ := hall e he
      exact ⟨fn, trivial, hfn⟩
    have hseq := List.mapM_eq_ok_iff.mpr hfns
    refine ⟨fns, hseq, ?_, hinv.outcome_ok hdone hfns, ?_⟩
    · simp only [disassemble, Except.andThen_eq_ok_iff, Except.pure_eq_ok_iff]
      exact ⟨s, hs, fns, hseq, rfl⟩
    · intro fn hfn
      obtain ⟨e, -, he⟩ := hfns.exists_left hfn
      obtain ⟨targets, hdecoded⟩ := exists_decodedAt (Decoding.within_eq_ok_iff.mp he)
      exact hdecoded.labelsItsBranches
  · intro hdone hfails
    obtain ⟨e, he, hne⟩ := hfails
    cases hvalue : exportedFunction (s.tables opcodes) img e with
    | ok fn => exact absurd hvalue (hne fn)
    | error err => exact hinv.outcome_error hdone he hvalue

def OpcodeTable.empty : OpcodeTable := ⟨[], List.nodup_nil, List.nodup_nil⟩

open Disassembly Workers in
theorem workers_decode_callingModule :
    ∃ a s, assemble .builtIn 1 callingModule = .ok a ∧ sections a.file.toArray = .ok s ∧
      (∃ st fns, Run (s.tables .builtIn) a.file.toArray 2 (.initial s.exports) st ∧
        disassemble .builtIn a.file.toArray = .ok (s.object fns) ∧
        st.outcome = .ok (fns.map some)) ∧
      ∃ st e err, Run (s.tables .empty) a.file.toArray 2 (.initial s.exports) st ∧
        e ∈ s.exports ∧ exportedFunction (s.tables .empty) a.file.toArray e = .error err ∧
        st.outcome = .error err := by
  obtain ⟨a, ha, hany⟩ : ∃ a, assemble .builtIn 1 callingModule = .ok a ∧
      (sections a.file.toArray).toOption.any (fun s =>
        s.exports.all (fun e =>
          (exportedFunction (s.tables .builtIn) a.file.toArray e).toBool) &&
        s.exports.any (fun e =>
          !(exportedFunction (s.tables .empty) a.file.toArray e).toBool)) = true :=
    Except.exists_of_any (by decide +kernel)
  obtain ⟨s, hs, hdecode⟩ := Except.exists_of_any hany
  rw [Bool.and_eq_true, List.all_eq_true, List.any_eq_true] at hdecode
  obtain ⟨hdecoded, e, he, hfails⟩ := hdecode
  have htwo : 1 ≤ 2 := by decide
  refine ⟨a, s, ha, hs, ?_, ?_⟩
  · obtain ⟨-, ⟨st, hrun, hdone⟩, -⟩ := workers_decode_sequentially .builtIn hs htwo .refl
    obtain ⟨-, -, hok, -⟩ := workers_decode_sequentially .builtIn hs htwo hrun
    obtain ⟨fns, -, hobject, houtcome, -⟩ := hok hdone <| by
      intro e he
      have hone := hdecoded e he
      cases hfn : exportedFunction (s.tables .builtIn) a.file.toArray e with
      | ok fn => exact ⟨fn, rfl⟩
      | error err =>
        rw [hfn] at hone
        cases hone
    exact ⟨st, fns, hrun, hobject, houtcome⟩
  · obtain ⟨-, ⟨st, hrun, hdone⟩, -⟩ := workers_decode_sequentially .empty hs htwo .refl
    obtain ⟨-, -, -, herror⟩ := workers_decode_sequentially .empty hs htwo hrun
    obtain ⟨d, hd, err, herr, houtcome⟩ := herror hdone <| by
      refine ⟨e, he, ?_⟩
      intro fn hfn
      rw [hfn] at hfails
      cases hfails
    exact ⟨st, d, err, hrun, hd, herr, houtcome⟩

end ScriptCodec

import ScriptCodec.Proofs.Listing.Lines

/-!
What the lines of a listing say. A line outside of functions is empty, names an include or opens a
function; inside a function it is empty, declares a label, gives an instruction or closes the
function. This much can be told from the line and from whether a function is open, so a text has
an outline of function bodies before any address or name is looked at.
-/
namespace ScriptCodec.Listing

/-- The tokens of a line as it stands in a text; none where a quote is not closed. -/
def lineTokens? (line : Bytes) : Option (List Bytes) := (tokenize (dropReturn line)).toOption

inductive Entry where
  | label (name : Bytes)
  | instruction (op : Opcode) (args : List Bytes)
deriving DecidableEq, Repr

def opens (line : Bytes) : Bool :=
  match lineTokens? line with
  | some (head :: _) => subMark.isPrefixOf head
  | _ => false

def closing? (line : Bytes) : Option Bytes :=
  match lineTokens? line with
  | some [head] => Text.afterLead endMark head
  | _ => none

/-- The label that a token standing alone declares by its colon. -/
def colonLabel? (head : Bytes) (args : List Bytes) : Option Bytes :=
  if args.isEmpty then Text.beforeTrail [0x3A] head else none

def entryOf? (line : Bytes) : Option Entry :=
  match lineTokens? line, closing? line with
  | some (head :: args), none =>
    match colonLabel? head args, OpcodeTable.builtIn.opcode head with
    | some name, _ => some (.label name)
    | none, .ok op => some (.instruction op args)
    | none, .error _ =>
      if args.isEmpty && locMark.isPrefixOf head then some (.label head) else none
  | _, _ => none

def entries (body : List Bytes) : List Entry := body.filterMap entryOf?

def Entry.instruction? : Entry → Option (Opcode × List Bytes)
  | label _ => none
  | instruction op args => some (op, args)

def instructions (es : List Entry) : List (Opcode × List Bytes) := es.filterMap Entry.instruction?

theorem instructions_append (es es' : List Entry) :
    instructions (es ++ es') = instructions es ++ instructions es' :=
  List.filterMap_append

theorem entries_append (body body' : List Bytes) :
    entries (body ++ body') = entries body ++ entries body' :=
  List.filterMap_append

theorem entries_cons (line : Bytes) (body : List Bytes) :
    entries (line :: body) = (entryOf? line).toList ++ entries body := by
  rw [entries, List.filterMap_cons]
  cases entryOf? line with
  | none => rfl
  | some e => rfl

theorem entries_concat (body : List Bytes) (line : Bytes) :
    entries (body ++ [line]) = entries body ++ (entryOf? line).toList := by
  rw [entries_append, entries_cons]
  exact congrArg _ (List.append_nil _)

theorem mem_instructions {op : Opcode} {args : List Bytes} {es : List Entry} :
    (op, args) ∈ instructions es ↔ .instruction op args ∈ es := by
  rw [instructions, List.mem_filterMap]
  constructor
  · rintro ⟨e, he, hsome⟩
    cases e with
    | label name => cases hsome
    | instruction op' args' =>
      obtain ⟨rfl, rfl⟩ := Prod.mk.inj (Option.some_inj.mp hsome)
      exact he
  · intro he
    exact ⟨_, he, rfl⟩

theorem mem_entries {body : List Bytes} {e : Entry} :
    e ∈ entries body ↔ ∃ line ∈ body, entryOf? line = some e :=
  List.mem_filterMap

/-- The functions found in some lines: the bodies of those that are closed, and the lines so far
of one that is open. -/
structure Outline where
  closed : List (List Bytes) := []
  current : Option (List Bytes) := none
deriving DecidableEq, Repr

def Outline.next (o : Outline) (line : Bytes) : Outline :=
  match o.current with
  | none => if opens line then { o with current := some [] } else o
  | some body =>
    if (closing? line).isSome then ⟨o.closed ++ [body], none⟩
    else { o with current := some (body ++ [line]) }

def outline (ls : List Bytes) : Outline := ls.foldl Outline.next {}

inductive Reads : State → Bytes → State → Prop
  | blank {s : State} {line : Bytes} (tokens : lineTokens? line = some []) : Reads s line s
  | includes {s : State} {line path : Bytes} (outside : s.draft = none)
    (tokens : lineTokens? line = some [includeMark, path]) :
    Reads s line { s with includes := path :: s.includes }
  | opened {s : State} {line name params flags : Bytes} {p f : Nat} (outside : s.draft = none)
    (tokens : lineTokens? line = some [subMark ++ name, params, flags])
    (hparams : Number.unsigned 10 8 params = .ok p) (hflags : Number.unsigned 10 8 flags = .ok f) :
    Reads s line { s with draft := some {
      offset := s.addr, params := UInt8.ofNat p, flags := UInt8.ofNat f, name } }
  | label {s : State} {line name : Bytes} {d : Draft} (inside : s.draft = some d)
    (entry : entryOf? line = some (.label name)) :
    Reads s line { s with draft := some (d.addLabel name) }
  | instruction {s : State} {line : Bytes} {d d' : Draft} {op : Opcode} {args : List Bytes}
    {size : UInt32} (inside : s.draft = some d)
    (entry : entryOf? line = some (.instruction op args))
    (hsize : instructionSize op s.addr args = .ok size) (binds : d.bindPending s.addr = .ok d') :
    Reads s line { s with
      addr := s.addr + size
      draft := some { d' with code := ⟨s.addr, size, op, some args⟩ :: d'.code } }
  | closed {s : State} {line : Bytes} {d d' : Draft} (inside : s.draft = some d)
    (closing : closing? line = some d.name) (binds : d.bindPending s.addr = .ok d') :
    Reads s line { s with functions := d'.close s.addr :: s.functions, draft := none }

section

variable {s t : State} {line : Bytes}

theorem entryOf?_label {name : Bytes} (h : IsLabelName name) :
    entryOf? (name ++ [0x3A]) = some (.label name) := by
  have htokens : lineTokens? (name ++ [0x3A]) = some [name ++ [0x3A]] := by
    have hline := tokenize_tokenLine (List.forall_mem_nil _) (List.forall_mem_singleton.mpr h.1)
    rw [tokenLine, List.flatMap_nil, List.append_nil, List.nil_append] at hline
    rw [lineTokens?, hline]
    rfl
  have hopen : closing? (name ++ [0x3A]) = none := by
    rw [closing?, htokens]
    exact h.2
  simp only [entryOf?, htokens, hopen, colonLabel?, List.isEmpty_nil, if_true, beforeTrail_append]

theorem beginFunction_eq_ok_iff {name head : Bytes} {args : List Bytes} :
    beginFunction s name (head :: args) = .ok t ↔ ∃ params flags, args = [params, flags] ∧
      ∃ p, Number.unsigned 10 8 params = .ok p ∧ ∃ f, Number.unsigned 10 8 flags = .ok f ∧
        { s with draft := some {
          offset := s.addr, params := UInt8.ofNat p, flags := UInt8.ofNat f, name } } = t := by
  unfold beginFunction
  split
  · rename_i params flags hargs
    obtain ⟨-, rfl⟩ := List.cons.inj hargs
    simp [-bind_pure_comp]
  · rename_i hother
    simp only [reduceCtorEq, false_iff]
    rintro ⟨params, flags, rfl, -⟩
    exact hother head params flags rfl

theorem reads_iff_of_outside {head : Bytes} {args : List Bytes} (hs : s.draft = none)
    (htokens : lineTokens? line = some (head :: args)) :
    Reads s line t ↔
      (∃ path, head = includeMark ∧ args = [path] ∧
        { s with includes := path :: s.includes } = t) ∨
      ∃ name, head = subMark ++ name ∧ beginFunction s name (head :: args) = .ok t := by
  constructor
  · intro h
    have hsame {x : List Bytes} (hx : lineTokens? line = some x) : head :: args = x :=
      Option.some_inj.mp (htokens.symm.trans hx)
    cases h with
    | blank tokens => cases hsame tokens
    | includes _ tokens =>
      cases hsame tokens
      exact .inl ⟨_, rfl, rfl, rfl⟩
    | opened _ tokens hp hf =>
      cases hsame tokens
      exact .inr ⟨_, rfl, beginFunction_eq_ok_iff.mpr ⟨_, _, rfl, _, hp, _, hf, rfl⟩⟩
    | label inside | instruction inside | closed inside =>
      rw [hs] at inside
      cases inside
  · rintro (⟨path, rfl, rfl, rfl⟩ | ⟨name, rfl, h⟩)
    · exact .includes hs htokens
    · obtain ⟨params, flags, rfl, p, hp, f, hf, rfl⟩ := beginFunction_eq_ok_iff.mp h
      exact .opened hs htokens hp hf

theorem outerLine_eq_ok_iff {head : Bytes} {args : List Bytes} (hs : s.draft = none)
    (htokens : lineTokens? line = some (head :: args)) :
    outerLine s head (head :: args) = .ok t ↔ Reads s line t := by
  rw [reads_iff_of_outside hs htokens]
  unfold outerLine
  split
  · rename_i hhead
    subst hhead
    have hother (name : Bytes) : includeMark ≠ subMark ++ name := by
      intro hname
      have hnone : Text.afterLead subMark includeMark = none := by decide
      rw [hname, afterLead_append] at hnone
      cases hnone
    split
    · rename_i path hargs
      obtain ⟨-, rfl⟩ := List.cons.inj hargs
      simp [hother]
    · rename_i hargs
      have hcount (path : Bytes) : args ≠ [path] := by
        rintro rfl
        exact hargs includeMark path rfl
      simp [hcount, hother]
  · rename_i hhead
    cases hname : Text.afterLead subMark head with
    | some name =>
      obtain rfl := afterLead_eq_some_iff.mp hname
      simp [hhead]
    | none =>
      have hother (name : Bytes) : head ≠ subMark ++ name := by
        rintro rfl
        rw [afterLead_append] at hname
        cases hname
      simp [hhead, hother]

theorem closing?_eq {head : Bytes} {args : List Bytes}
    (htokens : lineTokens? line = some (head :: args)) :
    closing? line = if args.isEmpty then Text.afterLead endMark head else none := by
  unfold closing?
  rw [htokens]
  cases args with
  | nil => rfl
  | cons a args => rfl

theorem endFunction_eq_ok_iff {d : Draft} {name : Bytes} :
    endFunction s d name = .ok t ↔ name = d.name ∧ ∃ d', d.bindPending s.addr = .ok d' ∧
      { s with functions := d'.close s.addr :: s.functions, draft := none } = t := by
  unfold endFunction
  split
  · rename_i hname
    simp only [Except.map_eq_ok_iff, hname, true_and]
  · rename_i hname
    simp [hname]

theorem addInstruction_eq_ok_iff {d : Draft} {op : Opcode} {args : List Bytes} :
    addInstruction s d op args = .ok t ↔ ∃ size, instructionSize op s.addr args = .ok size ∧
      ∃ d', d.bindPending s.addr = .ok d' ∧ { s with
        addr := s.addr + size
        draft := some { d' with code := ⟨s.addr, size, op, some args⟩ :: d'.code } } = t := by
  simp only [addInstruction, Except.andThen_eq_ok_iff, Except.mapError_eq_ok_iff,
    Except.pure_eq_ok_iff]

theorem reads_iff_of_inside {d : Draft} (hs : s.draft = some d)
    (hline : lineTokens? line ≠ some []) :
    Reads s line t ↔
      (∃ name, closing? line = some name ∧ endFunction s d name = .ok t) ∨
      (∃ name, entryOf? line = some (.label name) ∧
        { s with draft := some (d.addLabel name) } = t) ∨
      ∃ op args, entryOf? line = some (.instruction op args) ∧
        addInstruction s d op args = .ok t := by
  constructor
  · intro h
    have hsame {d' : Draft} (inside : s.draft = some d') : d = d' :=
      Option.some_inj.mp (hs.symm.trans inside)
    cases h with
    | blank tokens => exact absurd tokens hline
    | includes outside | opened outside =>
      rw [hs] at outside
      cases outside
    | label inside entry =>
      obtain rfl := hsame inside
      exact .inr (.inl ⟨_, entry, rfl⟩)
    | instruction inside entry hsize binds =>
      obtain rfl := hsame inside
      refine .inr (.inr ⟨_, _, entry, ?_⟩)
      exact addInstruction_eq_ok_iff.mpr ⟨_, hsize, _, binds, rfl⟩
    | closed inside closing binds =>
      obtain rfl := hsame inside
      exact .inl ⟨_, closing, endFunction_eq_ok_iff.mpr ⟨rfl, _, binds, rfl⟩⟩
  · rintro (⟨name, hclosing, h⟩ | ⟨name, hentry, rfl⟩ | ⟨op, args, hentry, h⟩)
    · obtain ⟨rfl, d', hd', rfl⟩ := endFunction_eq_ok_iff.mp h
      exact .closed hs hclosing hd'
    · exact .label hs hentry
    · obtain ⟨size, hsize, d', hd', rfl⟩ := addInstruction_eq_ok_iff.mp h
      exact .instruction hs hentry hsize hd'

theorem instructionLine_eq_ok_iff {d : Draft} {head : Bytes} {args : List Bytes}
    (hs : s.draft = some d) (htokens : lineTokens? line = some (head :: args))
    (hopen : closing? line = none) (hlabel : colonLabel? head args = none) :
    instructionLine .builtIn s d head args = .ok t ↔ Reads s line t := by
  rw [reads_iff_of_inside hs (by simp [htokens])]
  simp only [entryOf?, htokens, hopen, hlabel, instructionLine]
  cases OpcodeTable.builtIn.opcode head with
  | ok op => simp
  | error fault =>
    dsimp only
    split
    · simp
    · simp

theorem innerLine_eq_ok_iff {d : Draft} {head : Bytes} {args : List Bytes} (hs : s.draft = some d)
    (htokens : lineTokens? line = some (head :: args)) :
    innerLine .builtIn s d head args = .ok t ↔ Reads s line t := by
  have hclosing := closing?_eq htokens
  cases args with
  | cons a args =>
    rw [List.isEmpty_cons, if_neg Bool.false_ne_true] at hclosing
    simp only [innerLine]
    exact instructionLine_eq_ok_iff hs htokens hclosing (if_neg Bool.false_ne_true)
  | nil =>
    rw [List.isEmpty_nil, if_pos rfl] at hclosing
    unfold innerLine
    cases hend : Text.afterLead endMark head with
    | some name =>
      rw [hend] at hclosing
      rw [reads_iff_of_inside hs (by simp [htokens])]
      simp [entryOf?, htokens, hclosing]
    | none =>
      rw [hend] at hclosing
      cases hcolon : Text.beforeTrail [0x3A] head with
      | some name =>
        rw [reads_iff_of_inside hs (by simp [htokens])]
        simp [entryOf?, htokens, hclosing, colonLabel?, hcolon]
      | none => exact instructionLine_eq_ok_iff hs htokens hclosing hcolon

theorem not_reads_of_unclosed (h : lineTokens? line = none) : ¬ Reads s line t := by
  intro hread
  cases hread with
  | blank tokens | includes _ tokens | opened _ tokens =>
    rw [h] at tokens
    cases tokens
  | label _ entry | instruction _ entry => simp [entryOf?, h] at entry
  | closed _ closing => simp [closing?, h] at closing

theorem reads_iff_of_blank (h : lineTokens? line = some []) : Reads s line t ↔ s = t := by
  constructor
  · intro hread
    cases hread with
    | blank => rfl
    | includes _ tokens | opened _ tokens =>
      rw [h] at tokens
      cases tokens
    | label _ entry | instruction _ entry => simp [entryOf?, h] at entry
    | closed _ closing => simp [closing?, h] at closing
  · rintro rfl
    exact .blank h

theorem parseLine_eq_ok_iff : parseLine .builtIn s (dropReturn line) = .ok t ↔ Reads s line t := by
  unfold parseLine
  cases htokenize : tokenize (dropReturn line) with
  | error quote =>
    have hnone : lineTokens? line = none := by rw [lineTokens?, htokenize]; rfl
    simp only [reduceCtorEq, not_reads_of_unclosed hnone]
  | ok tokens =>
    have htokens : lineTokens? line = some tokens := by rw [lineTokens?, htokenize]; rfl
    cases tokens with
    | nil => rw [reads_iff_of_blank htokens, Except.ok.injEq]
    | cons head args =>
      cases hs : s.draft with
      | none => exact outerLine_eq_ok_iff hs htokens
      | some d => exact innerLine_eq_ok_iff hs htokens

theorem readLines_cons_eq_ok_iff {ls : List Bytes} :
    readLines s (line :: ls) = .ok t ↔ ∃ u, Reads s line u ∧ readLines u ls = .ok t := by
  simp only [readLines, List.foldlM_cons, Except.andThen_eq_ok_iff, parseLine_eq_ok_iff]

theorem readLines_append_eq_ok_iff {ls ls' : List Bytes} :
    readLines s (ls ++ ls') = .ok t ↔ ∃ u, readLines s ls = .ok u ∧ readLines u ls' = .ok t := by
  simp only [readLines, List.foldlM_append, Except.andThen_eq_ok_iff]

theorem parseLines_eq_ok_iff {number : Nat} {ls : List Bytes} {m : Module} :
    parseLines .builtIn number s ls = .ok m ↔
      (∀ line ∈ ls, line.length + 1 ≤ lineLimit) ∧
        ∃ t, readLines s ls = .ok t ∧ t.draft = none ∧ t.module = m := by
  constructor
  · intro h
    induction ls generalizing s number with
    | nil =>
      unfold parseLines at h
      split at h
      · cases h
      · rename_i hclosed
        exact ⟨nofun, s, rfl, hclosed, Except.ok.inj h⟩
    | cons line ls ih =>
      unfold parseLines at h
      split at h
      · cases h
      · rename_i hlimit
        split at h
        · cases h
        · rename_i u hu
          obtain ⟨hlimits, t, ht, hclosed, hm⟩ := ih h
          refine ⟨List.forall_mem_cons.mpr ⟨by omega, hlimits⟩, t, ?_, hclosed, hm⟩
          exact readLines_cons_eq_ok_iff.mpr ⟨u, parseLine_eq_ok_iff.mp hu, ht⟩
  · rintro ⟨hlimit, t, ht, hclosed, rfl⟩
    exact parseLines_of_readLines ht hlimit hclosed number

theorem parse_eq_ok_iff {text : Bytes} {m : Module} :
    parse .builtIn text = .ok m ↔
      (∀ line ∈ lines text, line.length + 1 ≤ lineLimit) ∧
        ∃ t, readLines {} (lines text) = .ok t ∧ t.draft = none ∧ t.module = m :=
  parseLines_eq_ok_iff

end

end ScriptCodec.Listing

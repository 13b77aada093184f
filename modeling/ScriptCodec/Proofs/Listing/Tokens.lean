import Mathlib.Data.List.Infix
import Mathlib.Data.List.TakeWhile
import ScriptCodec.Listing.Parser

/-!
Lines of tokens. A token is a text that is scanned as itself. It is either a run of bytes without
blanks or a quoted text, so what is scanned does not change when a blank and more text follow it.
Hence a line of tokens with a blank between any two is scanned as these tokens.
-/
namespace ScriptCodec.Listing

/-- A text without a line feed that is scanned as one token. -/
def IsToken (s : Bytes) : Prop := 0x0A ∉ s ∧ tokenize s = .ok [s]

instance (s : Bytes) : Decidable (IsToken s) := inferInstanceAs (Decidable (_ ∧ _))

section

variable {done s token rest : Bytes}

/-- A byte that neither closes a quoted token nor escapes the next byte. -/
theorem quotedToken_plain {b : UInt8} (hquote : b ≠ 0x22) (hescape : b ≠ 0x5C) (done s : Bytes) :
    quotedToken done (b :: s) = quotedToken (b :: done) s := by
  cases s with
  | nil => simp [quotedToken, hquote]
  | cons c s => rw [quotedToken, if_neg hquote, if_neg hescape]

theorem quotedToken_escape (done : Bytes) (c : UInt8) (s : Bytes) :
    quotedToken done (0x5C :: c :: s) = quotedToken (c :: 0x5C :: done) s := by
  rw [quotedToken, if_neg (by decide), if_pos rfl]

theorem quotedToken_close (done s : Bytes) :
    quotedToken done (0x22 :: s) = some (done.reverse ++ [0x22], s) := by
  cases s with
  | nil => simp [quotedToken]
  | cons c s => simp [quotedToken]

/-- A quoted token ends with its closing quote, and what follows plays no part in scanning it. -/
theorem quotedToken_eq_some (h : quotedToken done s = some (token, rest)) :
    ∃ body, token = done.reverse ++ body ∧ s = body ++ rest ∧ body.getLast? = some 0x22 ∧
      quotedToken done body = some (token, []) := by
  fun_induction quotedToken done s with
  | case1 => cases h
  | case2 done =>
    obtain ⟨rfl, rfl⟩ := Prod.mk.inj (Option.some_inj.mp h)
    exact ⟨[0x22], by simp, rfl, rfl, by simp [quotedToken]⟩
  | case3 => cases h
  | case4 done c rest' =>
    obtain ⟨rfl, rfl⟩ := Prod.mk.inj (Option.some_inj.mp h)
    exact ⟨[0x22], by simp, rfl, rfl, by simp [quotedToken]⟩
  | case5 done c rest' _ ih =>
    obtain ⟨body, hcut, rfl, hlast, hbody⟩ := ih h
    refine ⟨0x5C :: c :: body, by simpa using hcut, rfl, by simp [List.getLast?_cons, hlast], ?_⟩
    rw [quotedToken_escape, hbody]
  | case6 done b c rest' hquote hescape ih =>
    obtain ⟨body, hcut, hsplit, hlast, hbody⟩ := ih h
    refine ⟨b :: body, by simpa using hcut, congrArg (b :: ·) hsplit, ?_, ?_⟩
    · simp [List.getLast?_cons, hlast]
    · rw [quotedToken_plain hquote hescape, hbody]

theorem quotedToken_append (h : quotedToken done s = some (token, rest)) (tail : Bytes) :
    quotedToken done (s ++ tail) = some (token, rest ++ tail) := by
  fun_induction quotedToken done s with
  | case1 => cases h
  | case2 done =>
    obtain ⟨rfl, rfl⟩ := Prod.mk.inj (Option.some_inj.mp h)
    simpa using quotedToken_close done tail
  | case3 => cases h
  | case4 done c rest' =>
    obtain ⟨rfl, rfl⟩ := Prod.mk.inj (Option.some_inj.mp h)
    simpa using quotedToken_close done (c :: (rest' ++ tail))
  | case5 done c rest' _ ih =>
    rw [List.cons_append, List.cons_append, quotedToken_escape]
    exact ih h
  | case6 done b c rest' hquote hescape ih =>
    rw [List.cons_append, quotedToken_plain hquote hescape]
    exact ih h

end

inductive TokenShape : Bytes → Prop
  | bare {b : UInt8} {rest : Bytes} (blanks : ∀ c ∈ b :: rest, isBlank c = false)
    (comment : startsComment (b :: rest) = false) (quote : b ≠ 0x22) : TokenShape (b :: rest)
  | quoted {rest : Bytes} (closed : quotedToken [0x22] rest = some (0x22 :: rest, [])) :
    TokenShape (0x22 :: rest)

theorem startsComment_append {s tail : Bytes} (hs : s ≠ [])
    (htail : ∀ b ∈ tail.head?, isBlank b = true) : startsComment (s ++ tail) = startsComment s := by
  match s, hs with
  | [b], _ =>
    cases tail with
    | nil => rfl
    | cons c tail =>
      have hc : c ≠ 0x2F := by
        rintro rfl
        exact absurd (htail _ rfl) (by decide)
      simp [startsComment, List.isPrefixOf, hc.symm]
  | b :: c :: rest, _ => rfl

/-- Scanning adds tokens to those it has: parts of the text, and no more than it has bytes. -/
theorem tokensFrom_eq_ok {column : Nat} {done ts : List Bytes} {s : Bytes}
    (h : tokensFrom column done s = .ok ts) :
    ∃ more, ts = done.reverse ++ more ∧ more.length ≤ s.length ∧
      ∀ t ∈ more, TokenShape t ∧ t <:+: s := by
  fun_induction tokensFrom column done s with
  | case1 column done => exact ⟨[], by simpa using h.symm, Nat.le_refl _, nofun⟩
  | case2 column done b rest _ ih =>
    obtain ⟨more, hts, hle, hmore⟩ := ih h
    refine ⟨more, hts, Nat.le_succ_of_le hle, ?_⟩
    intro t ht
    exact ⟨(hmore t ht).1, List.infix_cons (hmore t ht).2⟩
  | case3 column done b rest => exact ⟨[], by simpa using h.symm, Nat.zero_le _, nofun⟩
  | case4 => cases h
  | case5 column done rest token tail _ _ hquoted ih =>
    obtain ⟨more, hts, hle, hmore⟩ := ih h
    obtain ⟨body, rfl, rfl, -, hclosed⟩ := quotedToken_eq_some hquoted
    rw [List.reverse_singleton, List.singleton_append] at hclosed hts
    refine ⟨(0x22 :: body) :: more, by simpa using hts, ?_, List.forall_mem_cons.mpr ⟨?_, ?_⟩⟩
    · simp only [List.length_cons, List.length_append]
      omega
    · exact ⟨.quoted hclosed, [], tail, rfl⟩
    · intro t ht
      refine ⟨(hmore t ht).1, (hmore t ht).2.trans ?_⟩
      exact (List.suffix_append (0x22 :: body) tail).isInfix
  | case6 column done b rest hblank hcomment hquote token ih =>
    obtain ⟨more, hts, hle, hmore⟩ := ih h
    have hsplit : token ++ rest.dropWhile (!isBlank ·) = b :: rest :=
      congrArg (b :: ·) List.takeWhile_append_dropWhile
    have htail : ∀ c ∈ (rest.dropWhile (!isBlank ·)).head?, isBlank c = true := by
      intro c hc
      have hstop := List.head?_dropWhile_not (!isBlank ·) rest
      rw [Option.mem_def.mp hc] at hstop
      simpa using hstop
    refine ⟨token :: more, by simpa using hts, ?_, List.forall_mem_cons.mpr ⟨⟨?_, ?_⟩, ?_⟩⟩
    · have := (List.dropWhile_suffix (l := rest) (!isBlank ·)).length_le
      simp only [List.length_cons]
      omega
    · refine .bare ?_ ?_ hquote
      · refine List.forall_mem_cons.mpr ⟨by simpa using hblank, ?_⟩
        intro c hc
        simpa using List.mem_takeWhile_imp hc
      · rw [← startsComment_append (List.cons_ne_nil _ _) htail, hsplit]
        simpa using hcomment
    · rw [← hsplit]
      exact (List.prefix_append _ _).isInfix
    · intro t ht
      refine ⟨(hmore t ht).1, (hmore t ht).2.trans ?_⟩
      rw [← hsplit]
      exact (List.suffix_append _ _).isInfix

theorem TokenShape.of_tokenize {s : Bytes} (h : tokenize s = .ok [s]) : TokenShape s := by
  obtain ⟨more, hmore, -, hshape⟩ := tokensFrom_eq_ok h
  rw [List.reverse_nil, List.nil_append] at hmore
  subst hmore
  exact (hshape s (List.mem_singleton.mpr rfl)).1

theorem IsToken.shape {s : Bytes} (h : IsToken s) : TokenShape s := .of_tokenize h.2

theorem TokenShape.isBlank_eq_false {s : Bytes} (h : TokenShape s) (hquote : ¬ [0x22] <+: s) :
    ∀ b ∈ s, isBlank b = false := by
  cases h with
  | bare blanks => exact blanks
  | @quoted rest => exact absurd (List.prefix_append [0x22] rest) hquote

theorem TokenShape.not_comment {s : Bytes} (h : TokenShape s) : ¬ [0x2F, 0x2F] <+: s := by
  rw [← List.isPrefixOf_iff_prefix, Bool.not_eq_true]
  cases h with
  | bare _ comment => exact comment
  | quoted => rfl

theorem TokenShape.getLast?_of_quote {s : Bytes} (h : TokenShape s) (hquote : [0x22] <+: s) :
    s.getLast? = some 0x22 := by
  cases h with
  | bare _ _ hne => exact absurd (List.cons_prefix_cons.mp hquote).1.symm hne
  | quoted closed =>
    obtain ⟨body, hbody, -, hlast, -⟩ := quotedToken_eq_some closed
    rw [hbody, List.getLast?_append, hlast]
    rfl

/-- A token is scanned as one whatever stands before it, and whatever follows the blank after it. -/
theorem TokenShape.tokensFrom {s : Bytes} (h : TokenShape s) (column : Nat) (done : List Bytes)
    {tail : Bytes} (htail : ∀ b ∈ tail.head?, isBlank b = true) :
    tokensFrom column done (s ++ tail) = tokensFrom (column + s.length) (s :: done) tail := by
  cases h with
  | @bare b rest blanks comment quote =>
    have hcomment : startsComment (b :: (rest ++ tail)) = false := by
      rw [← List.cons_append, startsComment_append (List.cons_ne_nil _ _) htail, comment]
    have hrest : ∀ c ∈ rest, (!isBlank c) = true := by
      intro c hc
      simp [blanks c (List.mem_cons_of_mem _ hc)]
    have hnone : tail.takeWhile (!isBlank ·) = [] ∧ tail.dropWhile (!isBlank ·) = tail := by
      cases tail with
      | nil => exact ⟨rfl, rfl⟩
      | cons c tail => simp [htail c rfl]
    rw [List.cons_append, Listing.tokensFrom, if_neg (by simp [blanks b List.mem_cons_self]),
      if_neg (by simp [hcomment]), if_neg quote]
    simp only [List.takeWhile_append_of_pos hrest, List.dropWhile_append_of_pos hrest, hnone.1,
      hnone.2, List.append_nil]
  | @quoted rest closed =>
    rw [List.cons_append, Listing.tokensFrom, if_neg (by decide),
      if_neg (by simp [startsComment, List.isPrefixOf]), if_pos rfl]
    split
    · rename_i hnone
      rw [quotedToken_append closed] at hnone
      cases hnone
    · rename_i token tail' hsome
      rw [quotedToken_append closed] at hsome
      obtain ⟨rfl, rfl⟩ := Prod.mk.inj (Option.some_inj.mp hsome)
      rfl

theorem TokenShape.getLast?_ne {s : Bytes} (h : TokenShape s) : s.getLast? ≠ some 0x0D := by
  intro hlast
  cases h with
  | bare blanks =>
    have hblank := blanks _ (List.mem_of_getLast? hlast)
    exact absurd hblank (by decide)
  | quoted closed =>
    obtain ⟨body, hbody, -, hquote, -⟩ := quotedToken_eq_some closed
    rw [hbody, List.getLast?_append, hquote] at hlast
    exact absurd hlast (by decide)

theorem TokenShape.isToken {s : Bytes} (h : TokenShape s) (hline : 0x0A ∉ s) : IsToken s := by
  have hend : ∀ b ∈ ([] : Bytes).head?, isBlank b = true := nofun
  have hscan := h.tokensFrom 0 [] hend
  rw [List.append_nil] at hscan
  refine ⟨hline, ?_⟩
  rw [tokenize, hscan, Listing.tokensFrom]
  rfl

theorem isToken_of_bare {s : Bytes} (hne : s ≠ []) (h : ∀ b ∈ s, isBlank b = false ∧ b ≠ 0x0A)
    (hquote : ¬ [0x22] <+: s) (hcomment : ¬ [0x2F, 0x2F] <+: s) : IsToken s := by
  cases s with
  | nil => exact absurd rfl hne
  | cons b s =>
    have hfirst : b ≠ 0x22 := by
      rintro rfl
      exact hquote (List.prefix_append [0x22] s)
    have hplain : startsComment (b :: s) = false := by
      rwa [startsComment, ← Bool.not_eq_true, List.isPrefixOf_iff_prefix]
    have hshape : TokenShape (b :: s) := .bare (fun c hc => (h c hc).1) hplain hfirst
    exact hshape.isToken fun hmem => (h _ hmem).2 rfl

def tokenLine (lead head : Bytes) (args : List Bytes) : Bytes :=
  lead ++ head ++ args.flatMap fun a => 0x20 :: a

section

variable {lead head : Bytes} {args : List Bytes}

theorem tokensFrom_blanks (hlead : ∀ b ∈ lead, isBlank b = true) (column : Nat) (s : Bytes) :
    tokensFrom column [] (lead ++ s) = tokensFrom (column + lead.length) [] s := by
  induction lead generalizing column with
  | nil => rfl
  | cons b lead ih =>
    have hb := hlead b List.mem_cons_self
    rw [List.cons_append, tokensFrom, if_pos hb, ih fun c hc => hlead c (List.mem_cons_of_mem _ hc),
      List.length_cons]
    congr 1
    omega

theorem isBlank_head?_args {b : UInt8} (hb : b ∈ (args.flatMap fun a => 0x20 :: a).head?) :
    isBlank b = true := by
  cases args with
  | nil => cases hb
  | cons a args =>
    obtain rfl := Option.some_inj.mp hb
    rfl

theorem tokensFrom_args (h : ∀ a ∈ args, TokenShape a) (column : Nat) (done : List Bytes) :
    tokensFrom column done (args.flatMap fun a => 0x20 :: a) = .ok (done.reverse ++ args) := by
  induction args generalizing column done with
  | nil => simp [tokensFrom]
  | cons a args ih =>
    rw [List.flatMap_cons, List.cons_append, tokensFrom, if_pos (by decide),
      (h a List.mem_cons_self).tokensFrom _ _ fun _ => isBlank_head?_args,
      ih fun c hc => h c (List.mem_cons_of_mem _ hc)]
    simp

theorem dropReturn_of_getLast? {line : Bytes} (h : line.getLast? ≠ some 0x0D) :
    dropReturn line = line := by
  have htrail : ¬ [0x0D] <:+ line := by
    rintro ⟨front, rfl⟩
    exact h (by simp)
  rw [dropReturn, Text.beforeTrail, if_neg (by simpa using htrail), Option.getD_none]

theorem getLast?_tokenLine (hhead : TokenShape head) (h : ∀ a ∈ args, TokenShape a) :
    (tokenLine lead head args).getLast? ≠ some 0x0D := by
  cases args using List.reverseRecOn with
  | nil =>
    have hne : head ≠ [] := by
      rintro rfl
      cases hhead
    rw [tokenLine, List.flatMap_nil, List.append_nil, List.getLast?_append_of_ne_nil _ hne]
    exact hhead.getLast?_ne
  | append_singleton args a =>
    have ha := h a (by simp)
    have hne : a ≠ [] := by
      rintro rfl
      cases ha
    have hlast : (tokenLine lead head (args ++ [a])).getLast? = a.getLast? := by
      rw [tokenLine, List.flatMap_append, List.flatMap_singleton, ← List.append_assoc,
        List.append_cons, List.getLast?_append_of_ne_nil _ hne]
    rw [hlast]
    exact ha.getLast?_ne

theorem tokenize_of_shapes (hlead : ∀ b ∈ lead, isBlank b = true)
    (h : ∀ t ∈ head :: args, TokenShape t) :
    tokenize (tokenLine lead head args) = .ok (head :: args) := by
  obtain ⟨hhead, hargs⟩ := List.forall_mem_cons.mp h
  rw [tokenize, tokenLine, List.append_assoc, tokensFrom_blanks hlead,
    hhead.tokensFrom _ _ fun _ => isBlank_head?_args, tokensFrom_args hargs]
  rfl

theorem tokenize_tokenLine (hlead : ∀ b ∈ lead, isBlank b = true)
    (h : ∀ t ∈ head :: args, IsToken t) :
    tokenize (dropReturn (tokenLine lead head args)) = .ok (head :: args) := by
  have hshape : ∀ t ∈ head :: args, TokenShape t := fun t ht => (h t ht).shape
  obtain ⟨hhead, hargs⟩ := List.forall_mem_cons.mp hshape
  rw [dropReturn_of_getLast? (getLast?_tokenLine hhead hargs), tokenize_of_shapes hlead hshape]

end
end ScriptCodec.Listing

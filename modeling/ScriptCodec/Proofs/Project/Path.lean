import ScriptCodec.Project.Path
import Mathlib.Data.List.TakeWhile

/-!
Paths in clean form. Entering a part keeps the parts entered so far in clean form, so every text
stands for a clean path, and a clean path is read back from its own text. A path without `..` that
is joined to a directory adds its parts to those of the directory, and is found below it again.
-/
namespace ScriptCodec

namespace Text

theorem intercalate_append (sep : Bytes) {xs ys : List Bytes} (hxs : xs ≠ []) (hys : ys ≠ []) :
    sep.intercalate (xs ++ ys) = sep.intercalate xs ++ sep ++ sep.intercalate ys := by
  induction xs with
  | nil => exact absurd rfl hxs
  | cons a xs ih =>
    by_cases hlast : xs = []
    · subst hlast
      rw [List.singleton_append, List.intercalate_cons_of_ne_nil hys, List.intercalate_singleton]
    · have hrest : xs ++ ys ≠ [] := List.append_ne_nil_of_left_ne_nil hlast ys
      rw [List.cons_append, List.intercalate_cons_of_ne_nil hrest, ih hlast,
        List.intercalate_cons_of_ne_nil hlast]
      simp only [List.append_assoc]

end Text

namespace Path

variable {rooted : Bool} {done parts : List Bytes} {part : Bytes}

def IsName (part : Bytes) : Prop := part ≠ [] ∧ part ≠ here ∧ part ≠ parent ∧ slash ∉ part

/-- Parts in clean form, the last one first. Only `..` stands before `..`. -/
inductive Stacked (rooted : Bool) : List Bytes → Prop
  | nil : Stacked rooted []
  | up {done : List Bytes} (relative : rooted = false) (before : Stacked rooted done)
    (ups : ∀ last ∈ done.head?, last = parent) : Stacked rooted (parent :: done)
  | down {done : List Bytes} {part : Bytes} (before : Stacked rooted done) (name : IsName part) :
    Stacked rooted (part :: done)

theorem enter_name (h : IsName part) : enter rooted done part = part :: done := by
  obtain ⟨hnil, hhere, hparent, -⟩ := h
  simp only [enter, hnil, hhere, hparent, or_self, if_false]

theorem enter_parent_name (h : IsName part) : enter rooted (part :: done) parent = done := by
  have hup : ¬ (parent = [] ∨ parent = here) := by decide
  simp only [enter, if_neg hup, if_true, if_neg h.2.2.1]

theorem enter_parent_up (hrooted : rooted = false) (hups : ∀ last ∈ done.head?, last = parent) :
    enter rooted done parent = parent :: done := by
  cases done with
  | nil => simp [enter, parent, here, hrooted]
  | cons last before =>
    have hlast : last = parent := hups last rfl
    simp [enter, parent, here, hlast]

theorem Stacked.enter (h : Stacked rooted done) (hpart : slash ∉ part) :
    Stacked rooted (Path.enter rooted done part) := by
  by_cases hskip : part = [] ∨ part = here
  · simpa only [Path.enter, if_pos hskip] using h
  by_cases hparent : part = parent
  · subst hparent
    cases h with
    | nil =>
      cases rooted with
      | false => exact .up rfl .nil (by simp)
      | true => exact .nil
    | up hrooted hbefore hups =>
      rw [enter_parent_up hrooted (by simp)]
      exact .up hrooted (.up hrooted hbefore hups) (by simp)
    | down hbefore hname =>
      rw [enter_parent_name hname]
      exact hbefore
  · rw [not_or] at hskip
    have hname : IsName part := ⟨hskip.1, hskip.2, hparent, hpart⟩
    rw [enter_name hname]
    exact .down h hname

theorem Stacked.foldl_enter (h : Stacked rooted done) (hparts : ∀ part ∈ parts, slash ∉ part) :
    Stacked rooted (parts.foldl (Path.enter rooted) done) := by
  induction parts generalizing done with
  | nil => exact h
  | cons part parts ih =>
    obtain ⟨hpart, hparts⟩ := List.forall_mem_cons.mp hparts
    exact ih (h.enter hpart) hparts

theorem Stacked.foldl_reverse (h : Stacked rooted done) :
    done.reverse.foldl (Path.enter rooted) [] = done := by
  induction h with
  | nil => rfl
  | up hrooted _ hups ih =>
    rw [List.reverse_cons, List.foldl_append, ih]
    exact enter_parent_up hrooted hups
  | down _ hname ih =>
    rw [List.reverse_cons, List.foldl_append, ih]
    exact enter_name hname

theorem Stacked.forall_mem (h : Stacked rooted done) : ∀ part ∈ done, part ≠ [] ∧ slash ∉ part := by
  induction h with
  | nil => simp
  | up _ _ _ ih => exact List.forall_mem_cons.mpr ⟨by decide, ih⟩
  | down _ hname ih => exact List.forall_mem_cons.mpr ⟨⟨hname.1, hname.2.2.2⟩, ih⟩

def IsClean (p : Path) : Prop := Stacked p.rooted p.parts.reverse

theorem isClean_ofBytes (s : Bytes) : (ofBytes s).IsClean := by
  rw [IsClean, ofBytes, List.reverse_reverse]
  exact Stacked.nil.foldl_enter fun _ => Text.not_mem_of_mem_splitOn

theorem foldl_enter_intercalate (h : Stacked rooted parts.reverse) :
    (Text.splitOn slash ([slash].intercalate parts)).foldl (enter rooted) [] = parts.reverse := by
  by_cases hparts : parts = []
  · subst hparts
    rfl
  · have hplain : ∀ part ∈ parts, slash ∉ part := by
      intro part hpart
      exact (h.forall_mem part (List.mem_reverse.mpr hpart)).2
    have hsplit : Text.splitOn slash ([slash].intercalate parts) = parts :=
      List.splitOn_intercalate slash hplain hparts
    rw [hsplit, ← h.foldl_reverse, List.reverse_reverse]

theorem ofBytes_toBytes {p : Path} (h : p.IsClean) : ofBytes p.toBytes = p := by
  obtain ⟨rooted, parts⟩ := p
  have hread := foldl_enter_intercalate h
  cases rooted with
  | true =>
    have hsplit : Text.splitOn slash (slash :: [slash].intercalate parts) =
        [] :: Text.splitOn slash ([slash].intercalate parts) :=
      List.splitOn_append_cons_self_of_not_mem List.not_mem_nil _
    have hskip : enter true [] [] = [] := rfl
    simp only [toBytes, ofBytes, isRooted, if_true, List.head?_cons, beq_self_eq_true, hsplit,
      List.foldl_cons, hskip, hread, List.reverse_reverse]
  | false =>
    cases parts with
    | nil => rfl
    | cons part rest =>
      -- the first part is not empty and has no slash, so the text does not begin with one
      obtain ⟨hne, hplain⟩ := h.forall_mem part (by simp)
      obtain ⟨b, bytes, rfl⟩ := List.exists_cons_of_ne_nil hne
      have hb : b ≠ slash := by
        rintro rfl
        exact hplain List.mem_cons_self
      have hrooted : isRooted ([slash].intercalate ((b :: bytes) :: rest)) = false := by
        cases rest <;> simp [isRooted, List.intercalate, hb]
      simp only [toBytes, ofBytes, List.isEmpty_cons, Bool.false_eq_true, if_false, hrooted, hread,
        List.reverse_reverse]

theorem ofBytes_clean (s : Bytes) : ofBytes (clean s) = ofBytes s :=
  ofBytes_toBytes (isClean_ofBytes s)

theorem clean_clean (s : Bytes) : clean (clean s) = clean s := congrArg toBytes (ofBytes_clean s)

theorem clean_of_relative {s : Bytes} (h : isRooted s = false) :
    clean s = toBytes ⟨false, (ofBytes s).parts⟩ := by
  rw [clean, ← h]
  rfl

theorem isRooted_append {s : Bytes} (hs : s ≠ []) (t : Bytes) : isRooted (s ++ t) = isRooted s := by
  obtain ⟨b, bytes, rfl⟩ := List.exists_cons_of_ne_nil hs
  rfl

theorem foldl_enter_of_not_mem (h : parent ∉ parts) (rooted : Bool) (done : List Bytes) :
    parts.foldl (enter rooted) done =
      (parts.filter fun part => part ≠ [] ∧ part ≠ here).reverse ++ done := by
  induction parts generalizing done with
  | nil => rfl
  | cons part parts ih =>
    rw [List.mem_cons, not_or] at h
    obtain ⟨hpart, hparts⟩ := h
    rw [List.foldl_cons, ih hparts, List.filter_cons]
    by_cases hskip : part = [] ∨ part = here
    · have hnone : ¬ (part ≠ [] ∧ part ≠ here) := by rwa [← not_or, not_not]
      simp only [enter, if_pos hskip, decide_eq_true_eq, if_neg hnone]
    · have hkeep : part ≠ [] ∧ part ≠ here := not_or.mp hskip
      simp only [enter, if_neg hskip, if_neg (Ne.symm hpart), decide_eq_true_eq, if_pos hkeep,
        List.reverse_cons, List.append_assoc, List.singleton_append]

theorem toBytes_append {above below : List Bytes} (hbelow : below ≠ [])
    (habove : rooted = true ∨ above ≠ []) :
    ∃ front, toBytes ⟨rooted, above ++ below⟩ = front ++ slash :: toBytes ⟨false, below⟩ := by
  have hnames : toBytes ⟨false, below⟩ = [slash].intercalate below := by
    simp [toBytes, hbelow]
  rw [hnames]
  by_cases hnil : above = []
  · subst hnil
    obtain rfl : rooted = true := habove.resolve_right (not_not_intro rfl)
    exact ⟨[], rfl⟩
  · have hjoin := Text.intercalate_append [slash] hnil hbelow
    cases rooted with
    | true => exact ⟨slash :: [slash].intercalate above, by simp [toBytes, hjoin]⟩
    | false => exact ⟨[slash].intercalate above, by simp [toBytes, hjoin, hbelow]⟩

section Join

variable {root p : Bytes} (hroot : root ≠ []) (hparent : parent ∉ Text.splitOn slash p)

include hroot

theorem join_eq_clean : join root p = clean (root ++ slash :: p) := by
  rw [join, if_neg (by simpa using hroot)]

theorem clean_join : clean (join root p) = join root p := by
  rw [join_eq_clean hroot, clean_clean]

include hparent

theorem ofBytes_join : ofBytes (join root p) =
    ⟨(ofBytes root).rooted, (ofBytes root).parts ++ (ofBytes p).parts⟩ := by
  have hsplit : Text.splitOn slash (root ++ slash :: p) =
      Text.splitOn slash root ++ Text.splitOn slash p := List.splitOn_append_cons_self root p
  rw [join_eq_clean hroot, ofBytes_clean]
  simp only [ofBytes, hsplit, List.foldl_append, isRooted_append hroot,
    foldl_enter_of_not_mem hparent, List.append_nil, List.reverse_append, List.reverse_reverse]

theorem below?_join : below? (ofBytes root) (ofBytes (join root p)) =
    some ⟨false, (ofBytes p).parts⟩ := by
  rw [ofBytes_join hroot hparent]
  simp [below?]

theorem join_eq_clean_of_here (hrelative : isRooted p = false) (hhere : clean root = here) :
    join root p = clean p := by
  have hempty : ofBytes root = ⟨false, []⟩ := by
    rw [← ofBytes_clean, hhere]
    rfl
  rw [← clean_join hroot, clean, ofBytes_join hroot hparent, hempty, clean_of_relative hrelative]
  rfl

theorem exists_join_eq_append (hrelative : isRooted p = false) (hhere : clean root ≠ here)
    (hnames : (ofBytes p).parts ≠ []) : ∃ front, join root p = front ++ slash :: clean p := by
  have habove : (ofBytes root).rooted = true ∨ (ofBytes root).parts ≠ [] := by
    by_contra hnot
    rw [not_or, Bool.not_eq_true, not_not] at hnot
    exact hhere (by simp [clean, toBytes, hnot])
  rw [← clean_join hroot, clean, ofBytes_join hroot hparent, clean_of_relative hrelative]
  exact toBytes_append hnames habove

end Join

theorem extension_append (front s : Bytes) : extension (front ++ slash :: s) = extension s := by
  have hlast : (front ++ slash :: s).reverse.takeWhile (· != slash) =
      s.reverse.takeWhile (· != slash) := by
    have hstop : (slash :: front.reverse).takeWhile (· != slash) = [] := rfl
    rw [List.reverse_append, List.reverse_cons, List.append_assoc, List.singleton_append,
      List.takeWhile_append, hstop, List.append_nil]
    split
    · rename_i hall
      exact ((List.takeWhile_prefix _).eq_of_length hall).symm
    · rfl
  simp only [extension, hlast]

theorem length_extension_le (s : Bytes) : (extension s).length ≤ s.length := by
  simp only [extension]
  split
  · rename_i hdot
    obtain ⟨last, hlast⟩ : ∃ last, s.reverse.takeWhile (· != slash) = last := ⟨_, rfl⟩
    rw [hlast] at hdot ⊢
    have hrest : last.dropWhile (· != 0x2E) ≠ [] := by
      intro hnil
      have hnone := List.dropWhile_eq_nil_iff.mp hnil 0x2E (List.contains_iff_mem.mp hdot)
      simp at hnone
    have hle : last.length ≤ s.reverse.length := by
      rw [← hlast]
      exact (List.takeWhile_prefix _).length_le
    have hsplit := congrArg List.length
      (List.takeWhile_append_dropWhile (p := (· != (0x2E : UInt8))) (l := last))
    rw [List.length_append] at hsplit
    rw [List.length_reverse] at hle
    have hpos := List.length_pos_iff.mpr hrest
    rw [List.length_cons, List.length_reverse]
    omega
  · exact Nat.zero_le _

end Path
end ScriptCodec

import ScriptCodec.Project.ScriptName
import ScriptCodec.Proofs.Project.Path

/-!
Names of scripts below a source root. Joined to a root, a path without `..` is found below it again
and names the script. A path that begins with two dots all the same, such as that of a script in a
directory `..x`, is taken for one that leaves the root, and its script keeps the root in its name.
-/
namespace ScriptCodec

namespace ScriptName

open ScriptCodec.Path

theorem length_dropEnding_lt (front s : Bytes) :
    (dropEnding s).length < (dropEnding (front ++ slash :: s)).length := by
  have hle := length_extension_le s
  simp only [dropEnding, extension_append]
  split
  · simp only [List.length_take, List.length_append, List.length_cons]
    omega
  · simp only [List.length_append, List.length_cons]
    omega

theorem ofPath_nil (path : Bytes) : ofPath [] path = dropEnding (clean path) := rfl

section Root

variable {root p : Bytes} (hroot : root ≠ []) (hrelative : isRooted p = false)
  (hparent : parent ∉ Text.splitOn slash p)

include hroot hrelative hparent

theorem located_join : located root (join root p) =
    if parent.isPrefixOf (clean p) then join root p else clean p := by
  rw [located, if_neg (by simpa using hroot), below?_join hroot hparent,
    clean_of_relative hrelative]

theorem ofPath_join_of_isPrefix (h : parent <+: clean p) :
    ofPath root (join root p) = ofPath [] (join root p) := by
  rw [ofPath, located_join hroot hrelative hparent, if_pos (List.isPrefixOf_iff_prefix.mpr h),
    ofPath_nil]

theorem ofPath_join_of_not_isPrefix (h : ¬ parent <+: clean p) :
    ofPath root (join root p) = ofPath [] p := by
  rw [ofPath, located_join hroot hrelative hparent,
    if_neg (mt List.isPrefixOf_iff_prefix.mp h), clean_clean, ofPath_nil]

/-- A script below the root is named by its path from there, unless that path begins with two dots.
Such a script is named as one outside the root is, which makes a difference for every root but the
current directory. -/
theorem ofPath_join_iff :
    (ofPath root (join root p) = ofPath [] p ↔ ¬ parent <+: clean p ∨ clean root = here) ∧
      (parent <+: clean p → ofPath root (join root p) = ofPath [] (join root p)) := by
  have hdotted := ofPath_join_of_isPrefix hroot hrelative hparent
  refine ⟨⟨?_, ?_⟩, hdotted⟩
  · intro heq
    by_contra hnot
    rw [not_or, not_not] at hnot
    obtain ⟨hdots, hhere⟩ := hnot
    have hnames : (ofBytes p).parts ≠ [] := by
      intro hnil
      rw [clean_of_relative hrelative, hnil] at hdots
      exact absurd hdots (by decide)
    obtain ⟨front, hfront⟩ := exists_join_eq_append hroot hparent hrelative hhere hnames
    -- the ending left out is the same, so the name that keeps the root is longer
    have hlt := length_dropEnding_lt front (clean p)
    rw [hdotted hdots, ofPath_nil, ofPath_nil, clean_join hroot, hfront] at heq
    rw [heq] at hlt
    exact Nat.lt_irrefl _ hlt
  · rintro (hdots | hhere)
    · exact ofPath_join_of_not_isPrefix hroot hrelative hparent hdots
    · by_cases hdots : parent <+: clean p
      · rw [hdotted hdots, join_eq_clean_of_here hroot hparent hrelative hhere, ofPath_nil,
          clean_clean, ofPath_nil]
      · exact ofPath_join_of_not_isPrefix hroot hrelative hparent hdots

end Root

theorem ofPath_join_iff_utility :
    ∃ root p, root = text "raw" ∧ p = text "maps//mp/./_utility.gsc" ∧
      root ≠ [] ∧ isRooted p = false ∧ parent ∉ Text.splitOn slash p ∧
      (ofPath root (join root p) = ofPath [] p ↔ ¬ parent <+: clean p ∨ clean root = here) ∧
      (parent <+: clean p → ofPath root (join root p) = ofPath [] (join root p)) := by
  have hroot : text "raw" ≠ [] := by decide +kernel
  have hrelative : isRooted (text "maps//mp/./_utility.gsc") = false := by decide +kernel
  have hparent : parent ∉ Text.splitOn slash (text "maps//mp/./_utility.gsc") := by decide +kernel
  exact ⟨_, _, rfl, rfl, hroot, hrelative, hparent, ofPath_join_iff hroot hrelative hparent⟩

theorem ofPath_join_dotted :
    isRooted (text "..x/a.gsc") = false ∧ parent ∉ Text.splitOn slash (text "..x/a.gsc") ∧
      ofPath (text "src") (join (text "src") (text "..x/a.gsc")) = text "src/..x/a" ∧
      ofPath [] (text "..x/a.gsc") = text "..x/a" ∧ text "src/..x/a" ≠ text "..x/a" := by
  decide +kernel

end ScriptName
end ScriptCodec

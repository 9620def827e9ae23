import Mathlib.Algebra.Order.Ring.Nat
import Mathlib.Data.List.Basic
import Mathlib.Data.List.Induction
import Mathlib.Algebra.Order.BigOperators.Group.List
import Mathlib.Tactic.Common

/-!
# The lines of a text

* `splitLines`: the lines of a text, every line with its newline;
* `readLines`: a text file read line by line, with universal newlines;
* `IsLine`, `Terminated`: a line, and one that ends in a newline;
* `glue`: what is read where several lines were written;
* `length_glue_eq_iff`: as many lines are read as were written exactly when every line but the last
  ends in a newline, and then the same (`glue_eq_self`).
-/

namespace Lines

/-- The lines of a text, each with its newline; the last may have none. -/
def splitLines : List Char → List (List Char)
  | [] => []
  | c :: text =>
    if c = '\n' then [c] :: splitLines text
    else match splitLines text with
      | [] => [[c]]
      | line :: lines => (c :: line) :: lines

/-- A text as it is read with universal newlines: a carriage return, alone or with the newline after
it, is a newline. -/
def universalNewlines : List Char → List Char
  | [] => []
  | '\r' :: '\n' :: text => '\n' :: universalNewlines text
  | c :: text => (if c = '\r' then '\n' else c) :: universalNewlines text

/-- The lines of a file that is read in text mode. -/
def readLines (text : List Char) : List (List Char) := splitLines (universalNewlines text)

/-- A line ends in a newline. -/
def Terminated (line : List Char) : Prop := line.getLast? = some '\n'

instance (line : List Char) : Decidable (Terminated line) :=
  inferInstanceAs (Decidable (_ = _))

/-- The record on a line. -/
def record (line : List Char) : List Char := if Terminated line then line.dropLast else line

/-- A line: characters other than the newline, with one at the end or without. -/
def IsLine (line : List Char) : Prop := line ≠ [] ∧ '\n' ∉ line.dropLast

/-- Lines one after the other, as they are read: one without a newline goes on in the next. -/
def glue : List (List Char) → List (List Char)
  | [] => []
  | line :: lines =>
    if Terminated line then line :: glue lines
    else match glue lines with
      | [] => [line]
      | next :: rest => (line ++ next) :: rest

variable {line text : List Char} {lines : List (List Char)}

/-- Characters in front of a line read on. -/
theorem splitLines_cons_of_ne {c : Char} (h : c ≠ '\n') : splitLines (c :: text) =
    match splitLines text with
    | [] => [[c]]
    | line :: lines => (c :: line) :: lines := by
  rw [splitLines, if_neg h]

/-- Only the end of a line is a newline. -/
theorem IsLine.cons_cons {c c' : Char} (hline : IsLine (c :: c' :: line)) :
    c ≠ '\n' ∧ IsLine (c' :: line) := by
  refine ⟨fun hc => hline.2 (by simp [hc]), List.cons_ne_nil _ _, fun hmem => hline.2 ?_⟩
  rw [List.dropLast_cons_cons]
  exact List.mem_cons_of_mem c hmem

theorem splitLines_terminated (hline : IsLine line) (h : Terminated line) :
    splitLines (line ++ text) = line :: splitLines text := by
  induction line with
  | nil => exact absurd rfl hline.1
  | cons c line ih =>
    cases line with
    | nil =>
      obtain rfl : c = '\n' := by simpa [Terminated] using h
      rfl
    | cons c' line =>
      obtain ⟨hne, hrest⟩ := hline.cons_cons
      have hterm : Terminated (c' :: line) := by
        rwa [Terminated, List.getLast?_cons_cons] at h
      rw [List.cons_append, splitLines_cons_of_ne hne, ih hrest hterm]

theorem splitLines_unterminated (hline : IsLine line) (h : ¬ Terminated line) :
    splitLines (line ++ text) = match splitLines text with
    | [] => [line]
    | next :: rest => (line ++ next) :: rest := by
  induction line with
  | nil => exact absurd rfl hline.1
  | cons c line ih =>
    cases line with
    | nil =>
      have hne : c ≠ '\n' := fun hc => h (by simp [Terminated, hc])
      exact splitLines_cons_of_ne hne
    | cons c' line =>
      obtain ⟨hne, hrest⟩ := hline.cons_cons
      have hterm : ¬ Terminated (c' :: line) := by
        rwa [Terminated, List.getLast?_cons_cons] at h
      rw [List.cons_append, splitLines_cons_of_ne hne, ih hrest hterm]
      cases splitLines text <;> rfl

/-- What is read where lines were written. -/
theorem splitLines_flatten (h : ∀ line ∈ lines, IsLine line) :
    splitLines lines.flatten = glue lines := by
  induction lines with
  | nil => rfl
  | cons line lines ih =>
    rw [List.forall_mem_cons] at h
    rw [List.flatten_cons, glue, ← ih h.2]
    split_ifs with hterm
    · exact splitLines_terminated h.1 hterm
    · exact splitLines_unterminated h.1 hterm

theorem isLine_of_mem_splitLines (h : line ∈ splitLines text) : IsLine line := by
  induction text generalizing line with
  | nil => cases h
  | cons c text ih =>
    unfold splitLines at h
    split_ifs at h with hc
    · rcases List.mem_cons.1 h with rfl | h
      · exact ⟨List.cons_ne_nil _ _, by simp⟩
      · exact ih h
    · cases hread : splitLines text with
      | nil =>
        rw [hread] at h
        obtain rfl := List.mem_singleton.1 h
        exact ⟨List.cons_ne_nil _ _, by simp⟩
      | cons next rest =>
        rw [hread] at h ih
        rcases List.mem_cons.1 h with rfl | h
        · have hnext := ih List.mem_cons_self
          refine ⟨List.cons_ne_nil _ _, ?_⟩
          rw [List.dropLast_cons_of_ne_nil hnext.1, List.mem_cons, not_or]
          exact ⟨Ne.symm hc, hnext.2⟩
        · exact ih (List.mem_cons_of_mem _ h)

theorem flatten_splitLines (text : List Char) : (splitLines text).flatten = text := by
  induction text with
  | nil => rfl
  | cons c text ih =>
    unfold splitLines
    split_ifs with hc
    · rw [List.flatten_cons, ih]
      rfl
    · cases hread : splitLines text with
      | nil =>
        rw [hread] at ih
        rw [← ih]
        rfl
      | cons next rest =>
        rw [hread, List.flatten_cons] at ih
        rw [← ih]
        rfl

/-! ### Lines that stay apart -/

theorem return_notMem_universalNewlines (text : List Char) : '\r' ∉ universalNewlines text := by
  induction text using universalNewlines.induct with
  | case1 => exact List.not_mem_nil
  | case2 text ih =>
    rw [universalNewlines, List.mem_cons, not_or]
    exact ⟨by decide, ih⟩
  | case3 c text hne ih =>
    rw [universalNewlines, List.mem_cons, not_or]
    · refine ⟨?_, ih⟩
      split_ifs with hc
      · decide
      · exact Ne.symm hc
    · exact hne

/-- A text without carriage returns is read as it is. -/
theorem universalNewlines_of_notMem (h : '\r' ∉ text) : universalNewlines text = text := by
  induction text with
  | nil => rfl
  | cons c text ih =>
    rw [List.mem_cons, not_or] at h
    rw [universalNewlines, if_neg (Ne.symm h.1), ih h.2]
    exact fun text' hc _ => h.1 hc.symm

theorem return_notMem_of_mem_readLines (h : line ∈ readLines text) : '\r' ∉ line := by
  intro hmem
  refine return_notMem_universalNewlines text ?_
  rw [← flatten_splitLines (universalNewlines text)]
  exact List.mem_flatten.2 ⟨line, h, hmem⟩

theorem length_glue_le (lines : List (List Char)) : (glue lines).length ≤ lines.length := by
  induction lines with
  | nil => exact le_refl _
  | cons line lines ih =>
    unfold glue
    split_ifs
    · exact Nat.succ_le_succ ih
    · cases hglue : glue lines with
      | nil => exact Nat.succ_le_succ (Nat.zero_le _)
      | cons next rest =>
        rw [hglue] at ih
        exact Nat.le_succ_of_le ih

theorem glue_eq_nil_iff : glue lines = [] ↔ lines = [] := by
  cases lines with
  | nil => exact iff_of_true rfl rfl
  | cons line lines =>
    refine iff_of_false ?_ (List.cons_ne_nil _ _)
    unfold glue
    split_ifs
    · simp
    · cases glue lines <;> simp

/-- Where every line but the last ends in a newline the lines are read as they were written. -/
theorem glue_eq_self (h : ∀ line ∈ lines.dropLast, Terminated line) : glue lines = lines := by
  induction lines with
  | nil => rfl
  | cons line lines ih =>
    cases lines with
    | nil =>
      unfold glue
      split_ifs <;> rfl
    | cons next rest =>
      rw [List.dropLast_cons_cons, List.forall_mem_cons] at h
      rw [glue, if_pos h.1, ih h.2]

/-- As many lines are read as were written exactly when every line but the last ends in a
newline. -/
theorem length_glue_eq_iff :
    (glue lines).length = lines.length ↔ ∀ line ∈ lines.dropLast, Terminated line := by
  refine ⟨?_, fun h => by rw [glue_eq_self h]⟩
  induction lines with
  | nil => exact fun _ line hline => by cases hline
  | cons line lines ih =>
    intro h
    cases lines with
    | nil => exact fun line hline => by cases hline
    | cons next rest =>
      have hle := length_glue_le (next :: rest)
      by_cases hterm : Terminated line
      · rw [List.dropLast_cons_cons, List.forall_mem_cons]
        rw [glue, if_pos hterm] at h
        exact ⟨hterm, ih (Nat.succ.inj h)⟩
      · -- the line goes on in the next one, and one line less is read
        rw [glue, if_neg hterm] at h
        cases hglue : glue (next :: rest) with
        | nil => exact absurd (glue_eq_nil_iff.1 hglue) (List.cons_ne_nil _ _)
        | cons first others =>
          rw [hglue] at h hle
          simp only [List.length_cons] at h hle
          omega

end Lines

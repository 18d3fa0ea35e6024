import Mathlib.Data.List.Basic

/-!
# Lines

A list is cut behind each separator.  `finished sep l` are the parts that a separator ends,
`unfinished sep l` is what comes behind the last one.

## Main results

* `lines_induction` — a list has no separator, or is a line, a separator and a list.
* `finished_append` — a list that comes in two parts.
-/

namespace OsWork.Verified.Lines

variable {α : Type} [DecidableEq α] {sep : α}

/-- The lines that are ended by a separator, without it. -/
def finished (sep : α) (l : List α) : List (List α) := (l.splitOn sep).dropLast

/-- What comes behind the last separator. -/
def unfinished (sep : α) (l : List α) : List α := (l.splitOn sep).getLastD []

theorem finished_of_notMem {l : List α} (h : sep ∉ l) : finished sep l = [] := by
  rw [finished, List.splitOn_eq_singleton h]
  rfl

theorem unfinished_of_notMem {l : List α} (h : sep ∉ l) : unfinished sep l = l := by
  rw [unfinished, List.splitOn_eq_singleton h]
  rfl

theorem finished_cons {line : List α} (h : sep ∉ line) (l : List α) :
    finished sep (line ++ sep :: l) = line :: finished sep l := by
  rw [finished, List.splitOn_append_cons_self_of_not_mem h,
    List.dropLast_cons_of_ne_nil (List.splitOn_ne_nil sep l)]
  rfl

theorem unfinished_cons {line : List α} (h : sep ∉ line) (l : List α) :
    unfinished sep (line ++ sep :: l) = unfinished sep l := by
  rw [unfinished, List.splitOn_append_cons_self_of_not_mem h]
  have hne := List.splitOn_ne_nil sep l
  unfold unfinished
  cases hs : l.splitOn sep with
  | nil => exact absurd hs hne
  | cons x xs => rfl

/-- A list is one unfinished line, or a finished one and a list. -/
theorem lines_induction (sep : α) {motive : List α → Prop}
    (last : ∀ l, sep ∉ l → motive l)
    (line : ∀ l rest, sep ∉ l → motive rest → motive (l ++ sep :: rest)) (l : List α) :
    motive l := by
  by_cases h : sep ∈ l
  · obtain ⟨first, rest, heq, hfirst⟩ := List.eq_append_cons_of_mem h
    have hlt : rest.length < l.length := by
      rw [heq, List.length_append, List.length_cons]
      omega
    rw [heq]
    exact line first rest hfirst (lines_induction sep last line rest)
  · exact last l h
termination_by l.length

/-! ## A list in two parts -/

theorem finished_append (l l' : List α) :
    finished sep (l ++ l') = finished sep l ++ finished sep (unfinished sep l ++ l') := by
  induction l using lines_induction sep with
  | last l h => rw [finished_of_notMem h, unfinished_of_notMem h, List.nil_append]
  | line l rest h ih =>
      rw [List.append_assoc, List.cons_append, finished_cons h, finished_cons h, unfinished_cons h,
        ih, List.cons_append]

theorem notMem_unfinished (l : List α) : sep ∉ unfinished sep l := by
  induction l using lines_induction sep with
  | last l h => rwa [unfinished_of_notMem h]
  | line l rest h ih => rwa [unfinished_cons h]

/-- The unfinished line is the end of the list. -/
theorem unfinished_suffix (l : List α) : unfinished sep l <:+ l := by
  induction l using lines_induction sep with
  | last l h =>
      refine ⟨[], ?_⟩
      rw [List.nil_append, unfinished_of_notMem h]
  | line l rest h ih =>
      rw [unfinished_cons h]
      exact ih.trans ((List.suffix_cons sep rest).trans (List.suffix_append l _))

theorem length_unfinished_le (sep : α) (l : List α) : (unfinished sep l).length ≤ l.length :=
  (unfinished_suffix l).length_le

theorem length_unfinished_lt {l : List α} (h : sep ∈ l) :
    (unfinished sep l).length < l.length := by
  obtain ⟨first, rest, rfl, hfirst⟩ := List.eq_append_cons_of_mem h
  have hle := length_unfinished_le sep rest
  rw [unfinished_cons hfirst, List.length_append, List.length_cons]
  omega

end OsWork.Verified.Lines

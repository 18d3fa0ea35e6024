import Mathlib.Data.List.TakeWhile

/-!
# Runs between separators

`runs sep l` are the maximal runs of elements of `l` that are not separators, in order.

## Main results

* `runs_dropWhile` — separators in front do not matter.
* `runs_of_ne_nil` — the first run, and the runs behind it.
-/

namespace OsWork.Verified.Runs

variable {α : Type} (sep : α → Bool)

def runs (l : List α) : List (List α) := (l.splitOnP sep).filter fun r => !r.isEmpty

variable {sep} {x : α} {l : List α}

theorem runs_cons_of_pos (h : sep x = true) : runs sep (x :: l) = runs sep l := by
  unfold runs
  rw [List.splitOnP_cons_eq_if_modifyHead, if_pos h]
  rfl

theorem runs_dropWhile (l : List α) : runs sep (l.dropWhile sep) = runs sep l := by
  induction l with
  | nil => rfl
  | cons x l ih =>
      by_cases h : sep x = true
      · rw [List.dropWhile_cons_of_pos h, runs_cons_of_pos h, ih]
      · rw [List.dropWhile_cons_of_neg h]

/-- A run, and what follows it. -/
theorem runs_append {run rest : List α} (hrun : ∀ y ∈ run, sep y = false) (hne : run ≠ [])
    (hrest : ∀ y, rest.head? = some y → sep y = true) :
    runs sep (run ++ rest) = run :: runs sep rest := by
  have hkeep : ∀ l : List (List α), (run :: l).filter (fun r => !r.isEmpty) =
      run :: l.filter fun r => !r.isEmpty := fun l => List.filter_cons_of_pos (by simpa using hne)
  cases rest with
  | nil =>
      unfold runs
      rw [List.append_nil, List.splitOnP_eq_singleton hrun, hkeep]
      rfl
  | cons y rest =>
      have hy := hrest y rfl
      rw [runs_cons_of_pos hy]
      unfold runs
      rw [List.splitOnP_append_cons_of_forall_mem hrun y hy, hkeep]

theorem runs_of_ne_nil (h : l.dropWhile sep ≠ []) :
    runs sep l = (l.dropWhile sep).takeWhile (fun y => !sep y) ::
      runs sep ((l.dropWhile sep).dropWhile fun y => !sep y) := by
  have hrun : ∀ y ∈ (l.dropWhile sep).takeWhile (fun y => !sep y), sep y = false := by
    intro y hy
    have hkeep := List.mem_takeWhile_imp hy
    simpa using hkeep
  have hne : (l.dropWhile sep).takeWhile (fun y => !sep y) ≠ [] := by
    have hhead := List.head?_dropWhile_not sep l
    cases hl : l.dropWhile sep with
    | nil => exact absurd hl h
    | cons x rest =>
        have hx : sep x = false := by simpa [hl] using hhead
        rw [List.takeWhile_cons_of_pos (by rw [hx]; rfl)]
        nofun
  rw [← runs_append hrun hne, List.takeWhile_append_dropWhile, runs_dropWhile]
  intro y hy
  have hhead := List.head?_dropWhile_not (fun y => !sep y) (l.dropWhile sep)
  rw [hy] at hhead
  simpa using hhead

end OsWork.Verified.Runs

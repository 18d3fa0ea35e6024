import Mathlib.Data.List.Count

/-!
# Intervals that tile a set

`coverage l x` is the number of intervals of the list `l` in which `x` lies.  Two lists tile
the same set when their coverage is the same and nowhere above one; cutting an interval and
joining two do not change it.

## Main results

* `coverage_cut` — an interval as two.
* `disjoint_of_coverage` — where nothing is covered twice, two intervals do not meet.
-/

namespace OsWork.Verified.Intervals

/-- The numbers from `lo` up to, not including, `hi`. -/
structure Interval where
  lo : Nat
  hi : Nat
deriving DecidableEq

def Interval.Contains (i : Interval) (x : Nat) : Prop := i.lo ≤ x ∧ x < i.hi

instance (i : Interval) (x : Nat) : Decidable (i.Contains x) :=
  inferInstanceAs (Decidable (_ ∧ _))

def coverage (l : List Interval) (x : Nat) : Nat := l.countP fun i => decide (i.Contains x)

variable {l l' : List Interval} {i j : Interval} {a b c x : Nat}

theorem coverage_nil (x : Nat) : coverage [] x = 0 := rfl

theorem coverage_cons (i : Interval) (l : List Interval) (x : Nat) :
    coverage (i :: l) x = coverage l x + if i.Contains x then 1 else 0 := by
  unfold coverage
  rw [List.countP_cons]
  simp

theorem coverage_append (l l' : List Interval) (x : Nat) :
    coverage (l ++ l') x = coverage l x + coverage l' x := List.countP_append

theorem coverage_perm (h : l.Perm l') (x : Nat) : coverage l x = coverage l' x := h.countP_eq _

theorem coverage_pos (hi : i ∈ l) (hx : i.Contains x) : 0 < coverage l x :=
  List.countP_pos_iff.mpr ⟨i, hi, decide_eq_true hx⟩

theorem coverage_eq_zero (h : ∀ i ∈ l, ¬ i.Contains x) : coverage l x = 0 :=
  List.countP_eq_zero.mpr fun i hi => by simpa using h i hi

theorem exists_of_coverage_pos (h : 0 < coverage l x) : ∃ i ∈ l, i.Contains x := by
  obtain ⟨i, hi, hx⟩ := List.countP_pos_iff.mp h
  exact ⟨i, hi, of_decide_eq_true hx⟩

/-- An empty interval covers nothing. -/
theorem coverage_empty (h : b ≤ a) (l : List Interval) (x : Nat) :
    coverage (⟨a, b⟩ :: l) x = coverage l x := by
  rw [coverage_cons, if_neg]
  · rfl
  · rintro ⟨hlo, hhi⟩
    exact absurd (Nat.lt_of_le_of_lt hlo hhi) (Nat.not_lt.mpr h)

theorem coverage_cut (hab : a ≤ b) (hbc : b ≤ c) (l : List Interval) (x : Nat) :
    coverage (⟨a, c⟩ :: l) x = coverage (⟨a, b⟩ :: ⟨b, c⟩ :: l) x := by
  rw [coverage_cons, coverage_cons, coverage_cons]
  have hcut : (if a ≤ x ∧ x < c then 1 else 0) =
      (if b ≤ x ∧ x < c then 1 else 0) + if a ≤ x ∧ x < b then 1 else 0 := by
    split_ifs <;> omega
  show _ + (if a ≤ x ∧ x < c then 1 else 0) = _
  rw [hcut, ← Nat.add_assoc]
  rfl

/-- Where nothing is covered twice, intervals of the two parts do not meet. -/
theorem disjoint_of_coverage (h : ∀ x, coverage l x + coverage l' x ≤ 1) (hi : i ∈ l)
    (hj : j ∈ l') (hne : i.lo < i.hi) (hne' : j.lo < j.hi) : i.hi ≤ j.lo ∨ j.hi ≤ i.lo := by
  by_contra hmeet
  rw [not_or, Nat.not_le, Nat.not_le] at hmeet
  have hix := coverage_pos (x := max i.lo j.lo) hi ⟨by omega, by omega⟩
  have hjx := coverage_pos (x := max i.lo j.lo) hj ⟨by omega, by omega⟩
  have hone := h (max i.lo j.lo)
  omega

end OsWork.Verified.Intervals

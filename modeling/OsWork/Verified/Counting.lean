import Mathlib.Algebra.BigOperators.Group.Finset.Basic
import Mathlib.Algebra.BigOperators.Group.Finset.Piecewise
import Mathlib.Tactic.Abel

/-!
# Counting over a finite family of threads

The statements of this package count things over all threads of a program:
passengers riding in a cab, portions handed to the containers, pages owned by
the processes.  A step of one thread changes one summand.  The two lemmas below
say what that does to the total, without subtraction, so that `omega` can
finish.
-/

namespace OsWork.Verified.Counting

open Finset

variable {ι : Type*} [DecidableEq ι]

/-- Two families that agree off `a` have totals that differ by the two
summands at `a`. -/
theorem sum_add_of_agree {M : Type*} [AddCommMonoid M] {s : Finset ι}
    {f g : ι → M} {a : ι} (ha : a ∈ s) (h : ∀ b ∈ s, b ≠ a → g b = f b) :
    ∑ b ∈ s, g b + f a = ∑ b ∈ s, f b + g a := by
  have hrest : ∑ b ∈ s.erase a, g b = ∑ b ∈ s.erase a, f b :=
    sum_congr rfl fun b hb => h b (mem_of_mem_erase hb) (ne_of_mem_erase hb)
  rw [← add_sum_erase s f ha, ← add_sum_erase s g ha, hrest]
  abel

/-- The counting form: one element may enter or leave the counted set. -/
theorem card_filter_add_of_agree {s : Finset ι} {p q : ι → Prop}
    [DecidablePred p] [DecidablePred q] {a : ι} (ha : a ∈ s)
    (h : ∀ b ∈ s, b ≠ a → (q b ↔ p b)) :
    (s.filter q).card + (if p a then 1 else 0) =
      (s.filter p).card + (if q a then 1 else 0) := by
  rw [card_filter, card_filter]
  exact sum_add_of_agree (f := fun b => if p b then 1 else 0)
    (g := fun b => if q b then 1 else 0) ha fun b hb hne => by
      simp only [h b hb hne]

end OsWork.Verified.Counting

import Mathlib.Algebra.Order.BigOperators.Group.Finset
import Mathlib.Data.Fintype.BigOperators

/-!
# Counters and shares

A resource has a counter, and the holders of a finite family have shares in it.  `Counted`
says that the counter is the sum of the shares.  What a step does to it is said for the
holders that take part, without the others.

## Main results

* `Counted.some` — a step of some of the holders.
* `Counted.le`, `Counted.two_le` — what a holder knows of the counter.
-/

namespace OsWork.Verified.Shares

variable {H R : Type} [Fintype H] {count count' : R → Nat} {share share' : H → R → Nat}
  {a b : H} {r : R}

/-- The counter of each resource is the sum of the shares in it. -/
def Counted (count : R → Nat) (share : H → R → Nat) : Prop :=
  ∀ r, count r = ∑ a, share a r

theorem Counted.le (h : Counted count share) : share a r ≤ count r := by
  rw [h r]
  exact Finset.single_le_sum (f := fun a => share a r) (fun _ _ => Nat.zero_le _)
    (Finset.mem_univ a)

/-- A counter that is not zero has a holder. -/
theorem Counted.holder (h : Counted count share) (hpos : 0 < count r) : ∃ a, 0 < share a r := by
  rw [h r] at hpos
  obtain ⟨a, -, ha⟩ := Finset.sum_pos_iff.mp hpos
  exact ⟨a, ha⟩

variable [DecidableEq H]

theorem Counted.two_le (h : Counted count share) (hab : a ≠ b) :
    share a r + share b r ≤ count r := by
  rw [h r, ← Finset.sum_pair (f := fun c => share c r) hab]
  exact Finset.sum_le_sum_of_subset (Finset.subset_univ _)

/-- The shares of some holders have changed, and the counters with them. -/
theorem Counted.some (h : Counted count share) (S : Finset H)
    (hother : ∀ b, b ∉ S → share' b = share b)
    (hcount : ∀ r, count' r + ∑ a ∈ S, share a r = count r + ∑ a ∈ S, share' a r) :
    Counted count' share' := by
  intro r
  have hrest : ∑ b ∈ Sᶜ, share' b r = ∑ b ∈ Sᶜ, share b r :=
    Finset.sum_congr rfl fun b hb => by rw [hother b (Finset.mem_compl.mp hb)]
  have hr := hcount r
  have hold := h r
  rw [← Finset.sum_add_sum_compl S] at hold ⊢
  omega

theorem Counted.step (h : Counted count share) (a : H) (hother : ∀ b, b ≠ a → share' b = share b)
    (hcount : ∀ r, count' r + share a r = count r + share' a r) : Counted count' share' := by
  refine h.some {a} (fun b hb => hother b fun heq => hb (Finset.mem_singleton.mpr heq)) fun r => ?_
  rw [Finset.sum_singleton, Finset.sum_singleton]
  exact hcount r

theorem Counted.pair (h : Counted count share) (hab : a ≠ b)
    (hother : ∀ c, c ≠ a → c ≠ b → share' c = share c)
    (hcount : ∀ r, count' r + share a r + share b r = count r + share' a r + share' b r) :
    Counted count' share' := by
  refine h.some {a, b} (fun c hc => ?_) fun r => ?_
  · simp only [Finset.mem_insert, Finset.mem_singleton, not_or] at hc
    exact hother c hc.1 hc.2
  · rw [Finset.sum_pair hab, Finset.sum_pair hab]
    have hr := hcount r
    omega

end OsWork.Verified.Shares

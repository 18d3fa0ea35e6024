import OsWork.Ports.BiryaniKitchen

/-!
# The sizes of the batches in `ass4/Q2/main.c`

`make_biryani` draws the capacity of its vessels from a range whose upper end is read from
`students_left_to_serve`.  Other chefs may have driven the counter far below zero since the
loop of `start_cooking` has looked at it; the divisor of the draw is then negative, and the
remainder goes as far up as the counter is low.

## Main results

* `draw_inRange_iff` — when a draw is in range.
* `careful_batches` — the batches of all runs in which the draws are.
-/

namespace OsWork.Ports.BiryaniService

open OsWork.Verified.Transition

theorem divisor_ne_zero (a b : Int) : divisor a b ≠ some 0 := by
  unfold divisor
  split
  · exact nofun
  · intro hzero
    have hsub : b - a = 0 := Option.some.inj hzero
    omega

/-- The draw of the portions divides by a negative number when too many have been served. -/
theorem divisor_of_lt {left : Int} (h : left < 2) :
    divisor 2 (min 10 left) = some (-((2 - left).toNat : Int)) := by
  unfold divisor
  rw [if_neg (by omega)]
  congr 1
  omega

/-- The vessels and portions of the batch that a chef is about to announce, or has announced. -/
def ChefPc.batch : ChefPc → Option (Int × Int)
  | .setR r p | .setP r p | .readR r p | .readP r p _ | .readLeft r p _ | .writeLeft r p _
  | .finish r p => some (r, p)
  | _ => none

/-- `1 <= r <= 10` and `1 <= p <= 10` -/
def InRange (r p : Int) : Prop := (1 ≤ r ∧ r ≤ 10) ∧ 1 ≤ p ∧ p ≤ 10

/-- A chef that draws finds at most seven students too many served, or the remainder of the
draw, by the divisor of `divisor_of_lt`, is small. -/
def DrawFits (s : State) : Act → Prop
  | .chef i _ rand₂ => s.chefPc i = .draw →
      -7 ≤ s.studentsLeftToServe ∨ rand₂ % (2 - s.studentsLeftToServe).toNat ≤ 8
  | _ => True

instance (s : State) : (a : Act) → Decidable (DrawFits s a)
  | .chef i _ rand₂ => inferInstanceAs (Decidable (s.chefPc i = .draw →
      -7 ≤ s.studentsLeftToServe ∨ rand₂ % (2 - s.studentsLeftToServe).toNat ≤ 8))
  | .container _ _ => inferInstanceAs (Decidable True)
  | .student _ => inferInstanceAs (Decidable True)

/-! ## One draw -/

/-- The remainder of C takes the sign of the dividend. -/
theorem tmod_natAbs (x : Nat) (b : Int) : Int.tmod x b = (x % b.natAbs : Nat) := by
  rcases Int.natAbs_eq b with h | h
  · rw [h, Int.natAbs_natCast]
    exact (Int.ofNat_tmod x b.natAbs).symm
  · rw [h, Int.tmod_neg, Int.natAbs_neg, Int.natAbs_natCast]
    exact (Int.ofNat_tmod x b.natAbs).symm

/-- The number of vessels is always in range. -/
theorem vessels_inRange (rand : Nat) :
    1 ≤ getRandomNumberBetween rand 1 10 ∧ getRandomNumberBetween rand 1 10 ≤ 10 := by
  refine ⟨le_getRandomNumberBetween rand 1 10, ?_⟩
  have hmod := Nat.mod_lt rand (show 0 < 9 by decide)
  show Int.tmod rand 9 + 1 ≤ 10
  rw [tmod_natAbs]
  show ((rand % 9 : Nat) : Int) + 1 ≤ 10
  omega

/-- The number of portions is in range when the counter is not too low, or the number drawn is
small. -/
theorem portions_inRange_iff (rand : Nat) (left : Int) :
    getRandomNumberBetween rand 2 (min 10 left) ≤ 10 ↔
      (-7 ≤ left ∨ rand % (2 - left).toNat ≤ 8) := by
  unfold getRandomNumberBetween
  by_cases hlow : left < 2
  · rw [divisor_of_lt hlow]
    have hmod := Nat.mod_lt rand (show 0 < (2 - left).toNat by omega)
    simp only [Int.tmod_neg, tmod_natAbs, Int.natAbs_natCast]
    omega
  · unfold divisor
    split
    · omega
    · rename_i d hd
      split at hd
      · cases hd
      · cases hd
        have hmod := Nat.mod_lt rand (show 0 < (min 10 left - 2).natAbs by omega)
        rw [tmod_natAbs]
        omega

/-- A draw is in range exactly when it fits. -/
theorem draw_inRange_iff (s : State) (i rand₁ rand₂ : Nat) (hpc : s.chefPc i = .draw) :
    InRange (getRandomNumberBetween rand₁ 1 10)
        (getRandomNumberBetween rand₂ 2 (min 10 s.studentsLeftToServe)) ↔
      DrawFits s (.chef i rand₁ rand₂) := by
  have hp := le_getRandomNumberBetween rand₂ 2 (min 10 s.studentsLeftToServe)
  unfold InRange DrawFits
  rw [portions_inRange_iff]
  constructor
  · exact fun h _ => h.2.2
  · exact fun h => ⟨vessels_inRange rand₁, by omega, h hpc⟩

/-! ## Steps -/

section Steps

variable {P : Params} {s t : State} {i x y : Nat}

theorem batch_of_draw (h : s.chef i x y = some t) (hpc : s.chefPc i = .draw) :
    (t.chefPc i).batch = some (getRandomNumberBetween x 1 10,
      getRandomNumberBetween y 2 (min 10 s.studentsLeftToServe)) := by
  simp only [State.chef, hpc, Option.some.injEq] at h
  subst h
  simp only [State.chefAt, Function.update_self, ChefPc.batch]

/-- Elsewhere a chef goes on with its batch, or has none. -/
theorem batch_of_chef (h : s.chef i x y = some t) (hpc : s.chefPc i ≠ .draw) :
    (t.chefPc i).batch = (s.chefPc i).batch ∨ (t.chefPc i).batch = none := by
  unfold State.chef at h
  split at h <;> rename_i heq <;> (try exact absurd heq hpc) <;> (try split at h) <;>
    cases h <;> simp [State.chefAt, State.setChef, ChefPc.batch, heq]

/-- The batches that are announced are in range. -/
def BatchesInRange (s : State) : Prop :=
  ∀ i r p, (s.chefPc i).batch = some (r, p) → InRange r p

theorem BatchesInRange.step {a : Act} (h : BatchesInRange s) (hfits : DrawFits s a)
    (hs : step P s a = some t) : BatchesInRange t := by
  cases a with
  | chef i x y =>
      simp only [BiryaniService.step] at hs
      split at hs
      · intro i' r p hbatch
        by_cases hi : i' = i
        · subst hi
          by_cases hpc : s.chefPc i' = .draw
          · rw [batch_of_draw hs hpc] at hbatch
            obtain ⟨rfl, rfl⟩ := Prod.mk.inj (Option.some.inj hbatch)
            exact (draw_inRange_iff s i' x y hpc).mpr hfits
          · rcases batch_of_chef hs hpc with hsame | hnone
            · exact h i' r p (hsame ▸ hbatch)
            · rw [hnone] at hbatch
              cases hbatch
        · rw [((chef_frame hs).2.2.2.2.2.2 i' hi).2] at hbatch
          exact h i' r p hbatch
      · cases hs
  | container j x =>
      simp only [BiryaniService.step] at hs
      split at hs
      · unfold BatchesInRange
        rw [(container_frame hs).1]
        exact h
      · cases hs
  | student q =>
      simp only [BiryaniService.step] at hs
      split at hs
      · unfold BatchesInRange
        rw [(student_frame hs).2.1]
        exact h
      · cases hs

end Steps

/-! ## Runs -/

/-- In every run in which the draws fit, for any numbers of chefs, containers and students,
the batches are in range; a draw that does not fit leads to one that is not; and no call of
`get_random_number_between` divides by zero. -/
theorem careful_batches (P : Params) (s : State) :
    ((service P).ReachableWhen DrawFits s → BatchesInRange s) ∧
      (∀ i x y t, s.chefPc i = .draw → (service P).step s (.chef i x y) = some t →
        ∃ r p, (t.chefPc i).batch = some (r, p) ∧
          (InRange r p ↔ DrawFits s (.chef i x y))) ∧
      ∀ a b, divisor a b ≠ some 0 := by
  refine ⟨fun h => ?_, fun i x y t hpc hs => ?_, divisor_ne_zero⟩
  · refine h.invariant (fun s h0 => ?_) fun s a t hs hfits hstep => hs.step hfits hstep
    rw [show s = start P from h0]
    exact fun i r p hbatch => nomatch hbatch
  · simp only [service, BiryaniService.step] at hs
    split at hs
    · exact ⟨_, _, batch_of_draw hs hpc, draw_inRange_iff s i x y hpc⟩
    · cases hs

/-- One chef cooks a batch for one student. -/
theorem careful_batches_oneStudent :
    ∃ s, (service ⟨1, 0, 1⟩).ReachableWhen DrawFits s ∧
      (s.chefPc 0).batch = some (3, 2) ∧ BatchesInRange s := by
  obtain ⟨s, hs, hbatch⟩ := System.exists_reachableWhen_of_run (M := service ⟨1, 0, 1⟩) DrawFits
    (l := List.replicate 8 (.chef 0 2 5)) (p := fun s => (s.chefPc 0).batch == some (3, 2)) rfl
    (by decide)
  exact ⟨s, hs, by simpa using hbatch, (careful_batches ⟨1, 0, 1⟩ s).1 hs⟩

/-- Both chefs see that one student is left to serve; the first cooks nine vessels for two, and
then the second draws. -/
def lateDraw : List Act :=
  List.flatten [List.replicate 5 (.chef 0 0 0), List.replicate 5 (.chef 1 0 0),
    List.replicate 9 (.chef 0 8 0), List.replicate 3 (.chef 1 0 18)]

/-- After `lateDraw` the second chef announces vessels for 20. -/
theorem not_all_batches :
    ¬ ∀ (P : Params) (s : State), (service P).Reachable s → BatchesInRange s := by
  intro hall
  obtain ⟨s, hs, hbatch⟩ := System.exists_reachable_of_run (M := service ⟨2, 0, 1⟩)
    (l := lateDraw) (p := fun s => (s.chefPc 1).batch == some (1, 20)) rfl (by decide)
  have hrange := hall ⟨2, 0, 1⟩ s hs 1 1 20 (by simpa using hbatch)
  exact absurd hrange.2.2 (by decide)

end OsWork.Ports.BiryaniService

import OsWork.Ports.BiryaniService
import OsWork.Verified.Counting
import Mathlib.Data.Finset.Range
import Mathlib.Algebra.Order.BigOperators.Group.Finset
import Mathlib.Tactic.Ring

/-!
# From the chefs to the containers

The ledger of a run of the biryani service, and its first half: what the
containers have been handed never exceeds what the chefs have cooked.

A container claims a chef under a mutex but reads and decrements the vessel
count after it has released the mutex, so the hand-over is sound only while
one container at a time is *taking* from a chef (`takes`) and the chef has a
finished batch.  `CarefulClaim` is that condition on the step that claims.  The
code does not enforce it: a container can test `cooking` before, and `lock`
after, another container has emptied the chef; a late `lock = 0` can undo a
claim; and a chef that has not started yet looks free because its struct is
zeroed.
-/

namespace OsWork.Ports.BiryaniService

open OsWork.Verified.Transition OsWork.Verified.Counting
open Finset (range)

/-! ## The ledger -/

/-- What a run has done so far: slots given to students in each container,
portions that `get_biryani_from_handler` has returned to each container,
portions read off each chef's vessels, and the total `r * p` of the batches
each chef has finished. -/
structure Ledger where
  given : Nat → Int
  handedTo : Nat → Int
  handedBy : Nat → Int
  cooked : Nat → Int

/-- The empty ledger. -/
def Ledger.empty : Ledger where
  given := fun _ => 0
  handedTo := fun _ => 0
  handedBy := fun _ => 0
  cooked := fun _ => 0

/-- A slot is given when the student claims it, a vessel is handed over when
the container returns from `get_biryani_from_handler`, and a batch counts as
cooked when the chef stores `cooking = 0`. -/
def Ledger.record (s : State) (a : Act) (t : Ledger) : Ledger :=
  match a with
  | .student q =>
      match s.studentPc q with
      | .claim i => { t with given := Function.update t.given i (t.given i + 1) }
      | _ => t
  | .container j _ =>
      match s.containerPc j with
      | .readP g =>
          { t with handedBy := Function.update t.handedBy g (t.handedBy g + (s.chefs g).p) }
      | .clearLock _ ret =>
          { t with handedTo := Function.update t.handedTo j (t.handedTo j + ret) }
      | _ => t
  | .chef i _ _ =>
      match s.chefPc i with
      | .finish r p => { t with cooked := Function.update t.cooked i (t.cooked i + r * p) }
      | _ => t

/-! ## Taking a vessel -/

/-- The chef a container has claimed and whose vessel count it still uses. -/
def takes : ContainerPc → Option Nat
  | .unlockMutex g => some g
  | .readP g => some g
  | .readR g _ => some g
  | .writeR g _ _ => some g
  | .testR g _ => some g
  | .setCooking g _ => some g
  | _ => none

/-- The portions a container has read and not returned with yet. -/
def inTransit : ContainerPc → Int
  | .readR _ ret => ret
  | .writeR _ ret _ => ret
  | .testR _ ret => ret
  | .setCooking _ ret => ret
  | .clearLock _ ret => ret
  | _ => 0

/-- Container `j` is about to claim chef `i`, and chef `i` has started, has a
finished batch, and is used by no other container. -/
def CarefulClaim (P : Params) (s : State) (j i : Nat) : Prop :=
  s.chefPc i ≠ .start ∧ (s.chefs i).cooking = false ∧
    ∀ j' < P.n, j' ≠ j → takes (s.containerPc j') ≠ some i

instance (P : Params) (s : State) (j i : Nat) : Decidable (CarefulClaim P s j i) :=
  inferInstanceAs (Decidable (_ ∧ _ ∧ ∀ j' < P.n, j' ≠ j → _))

/-- What a container that takes from a chef knows about its vessels: `budget`
is what the chef has cooked and not handed out yet. -/
def TakerOk (c : Chef) (budget : Int) : ContainerPc → Prop
  | .unlockMutex _ => 1 ≤ c.r ∧ 1 ≤ c.p ∧ c.r * c.p ≤ budget
  | .readP _ => 1 ≤ c.r ∧ 1 ≤ c.p ∧ c.r * c.p ≤ budget
  | .readR _ _ => 1 ≤ c.r ∧ 1 ≤ c.p ∧ (c.r - 1) * c.p ≤ budget
  | .writeR _ _ v => v = c.r ∧ 1 ≤ c.r ∧ 1 ≤ c.p ∧ (c.r - 1) * c.p ≤ budget
  | .testR _ _ => 0 ≤ c.r ∧ 1 ≤ c.p ∧ c.r * c.p ≤ budget
  | .setCooking _ _ => 0 ≤ budget
  | _ => True

/-- The locals of `make_biryani` against the fields they are stored in. -/
def CookOk (c : Chef) : ChefPc → Prop
  | .setR r p => 1 ≤ r ∧ 1 ≤ p
  | .setP r p => c.r = r ∧ 1 ≤ r ∧ 1 ≤ p
  | .readR r p => c.r = r ∧ c.p = p ∧ 1 ≤ r ∧ 1 ≤ p
  | .readP r p _ => c.r = r ∧ c.p = p ∧ 1 ≤ r ∧ 1 ≤ p
  | .readLeft r p _ => c.r = r ∧ c.p = p ∧ 1 ≤ r ∧ 1 ≤ p
  | .writeLeft r p _ => c.r = r ∧ c.p = p ∧ 1 ≤ r ∧ 1 ≤ p
  | .finish r p => c.r = r ∧ c.p = p ∧ 1 ≤ r ∧ 1 ≤ p
  | _ => True

/-- The invariant of one chef: `c` is its struct, `pc` its position, `takers`
the positions of the containers, `budget` what it has cooked and not handed out. -/
structure ChefInv (m i : Nat) (c : Chef) (pc : ChefPc) (takers : Nat → ContainerPc)
    (budget : Int) : Prop where
  bound : pc ≠ .start → i < m
  closed : pc ≠ .start → c.cooking = false → pc = .clearLock ∨ pc = .serve
  taken : ∀ j, takes (takers j) = some i →
    pc ≠ .start ∧ c.cooking = false ∧ TakerOk c budget (takers j)
  alone : ∀ j j', takes (takers j) = some i → takes (takers j') = some i → j = j'
  cook : CookOk c pc
  ready : pc ≠ .start → c.cooking = false → (∀ j, takes (takers j) ≠ some i) →
    1 ≤ c.r ∧ 1 ≤ c.p ∧ c.r * c.p ≤ budget
  solvent : 0 ≤ budget

/-- The first half of the ledger. -/
structure Kitchen (P : Params) (s : State) (t : Ledger) : Prop where
  outside : ∀ j, P.n ≤ j → s.containerPc j = .start
  chef : ∀ i, ChefInv P.m i (s.chefs i) (s.chefPc i) s.containerPc
    (t.cooked i - t.handedBy i)
  transit : ∀ j, 0 ≤ inTransit (s.containerPc j)
  balance : ∑ j ∈ range P.n, (t.handedTo j + inTransit (s.containerPc j)) =
    ∑ i ∈ range P.m, t.handedBy i

theorem kitchen_start (P : Params) : Kitchen P (start P) Ledger.empty where
  outside j _ := rfl
  chef i :=
    { bound := by simp [start]
      closed := by simp [start]
      taken := by simp [start, takes]
      alone := by simp [start, takes]
      cook := by simp [start, CookOk]
      ready := by simp [start]
      solvent := by simp [Ledger.empty] }
  transit j := by simp [start, inTransit]
  balance := by simp [start, inTransit, Ledger.empty]

/-- `get_random_number_between(a, b)` never goes below `a`. -/
theorem le_getRandomNumberBetween (rand : Nat) (a b : Int) :
    a ≤ getRandomNumberBetween rand a b := by
  unfold getRandomNumberBetween
  split
  · exact le_refl a
  · rename_i d _
    have hmod := Int.tmod_nonneg d (Int.natCast_nonneg rand)
    omega

/-! ## Chef steps -/

/-- While a chef cooks nobody takes from it. -/
theorem ChefInv.noTaker {m i : Nat} {c : Chef} {pc : ChefPc}
    {takers : Nat → ContainerPc} {budget : Int} (h : ChefInv m i c pc takers budget)
    (hc : pc = .start ∨ c.cooking = true) (j : Nat) : takes (takers j) ≠ some i := by
  intro hj
  obtain ⟨hpc, hcook, _⟩ := h.taken j hj
  rcases hc with hc | hc
  · exact hpc hc
  · rw [hcook] at hc
    cases hc

/-- A chef that cooks has nothing to hand out. -/
theorem ChefInv.of_cooking {m i : Nat} {c : Chef} {pc : ChefPc}
    {takers : Nat → ContainerPc} {budget : Int} (hi : i < m) (hcook : c.cooking = true)
    (hnone : ∀ j, takes (takers j) ≠ some i) (hpc : CookOk c pc) (hb : 0 ≤ budget) :
    ChefInv m i c pc takers budget where
  bound _ := hi
  closed _ h := by rw [hcook] at h; cases h
  taken j hj := absurd hj (hnone j)
  alone j _ hj := absurd hj (hnone j)
  cook := hpc
  ready _ h := by rw [hcook] at h; cases h
  solvent := hb

/-- What one access of a chef does to its own struct and budget. -/
theorem ChefInv.chefStep {P : Params} {s s' : State} {t : Ledger} {i x y : Nat}
    (hi : i < P.m)
    (h : ChefInv P.m i (s.chefs i) (s.chefPc i) s.containerPc (t.cooked i - t.handedBy i))
    (hs : s.chef i x y = some s') :
    ChefInv P.m i (s'.chefs i) (s'.chefPc i) s'.containerPc
      ((Ledger.record s (.chef i x y) t).cooked i -
        (Ledger.record s (.chef i x y) t).handedBy i) := by
  have hbusy : s.chefPc i ≠ .start → s.chefPc i ≠ .clearLock → s.chefPc i ≠ .serve →
      (s.chefs i).cooking = true := by
    intro h1 h2 h3
    cases hcook : (s.chefs i).cooking with
    | true => rfl
    | false => exact absurd (h.closed h1 hcook) (by simp [h2, h3])
  have hnone := h.noTaker
  have hcook := h.cook
  have hsolvent := h.solvent
  unfold State.chef at hs
  cases hpc : s.chefPc i <;> rw [hpc] at hs hbusy hnone hcook <;>
    simp only [Ledger.record, hpc, reduceCtorEq, ne_eq, not_false_eq_true, not_true_eq_false,
      false_implies, true_implies, true_or, false_or, CookOk] at hs hbusy hnone hcook ⊢
  case serve =>
    split at hs
    · rename_i hc
      cases hs
      exact ChefInv.of_cooking hi (by simpa [State.chefAt] using hc) (hnone hc)
        (by simp [State.chefAt, CookOk]) hsolvent
    · cases hs
  case draw =>
    cases hs
    refine ChefInv.of_cooking hi hbusy (hnone hbusy) ?_ hsolvent
    have hr := le_getRandomNumberBetween x 1 10
    have hp := le_getRandomNumberBetween y 2 (min 10 s.studentsLeftToServe)
    simp only [State.chefAt, Function.update_self, CookOk]
    omega
  case clearLock =>
    cases hs
    refine
      { bound := fun _ => hi
        closed := fun _ _ => by simp [State.chefAt]
        taken := fun j hj => ?_
        alone := h.alone
        cook := by simp [State.chefAt, CookOk]
        ready := ?_
        solvent := hsolvent }
    · obtain ⟨_, hc, hok⟩ := h.taken j hj
      refine ⟨by simp [State.chefAt], by simpa [State.chefAt, State.setChef] using hc, ?_⟩
      change TakerOk _ _ (s.containerPc j)
      cases hp : s.containerPc j <;> simp [hp, TakerOk, State.chefAt, State.setChef] at hok ⊢ <;>
        exact hok
    · intro _ hc hno
      simpa [State.chefAt, State.setChef] using
        h.ready (by simp [hpc]) (by simpa [State.chefAt, State.setChef] using hc) hno
  case finish r p =>
    cases hs
    obtain ⟨hr, hp, hr1, hp1⟩ := hcook
    have hno := hnone hbusy
    have hmul : 0 ≤ r * p := Int.mul_nonneg (by omega) (by omega)
    refine
      { bound := fun _ => hi
        closed := fun _ _ => by simp [State.chefAt]
        taken := fun j hj => absurd hj (hno j)
        alone := fun j _ hj => absurd hj (hno j)
        cook := by simp [State.chefAt, CookOk]
        ready := fun _ _ _ => ?_
        solvent := ?_ }
    · simp only [State.chefAt, State.setChef, Function.update_self, hr, hp]
      omega
    · simp only [Function.update_self]
      omega
  -- every other access leaves the chef cooking
  all_goals
    cases hs
    refine ChefInv.of_cooking hi ?_ ?_ ?_ hsolvent
    · simp [State.chefAt, State.setChef, hbusy]
    · first
        | exact hnone hbusy
        | exact hnone
    · first
        | (simp [State.chefAt, CookOk]; done)
        | simpa [State.chefAt, State.setChef, CookOk] using hcook
        | (simp only [State.chefAt, Function.update_self]; split_ifs <;> trivial)

/-- A chef step writes one entry of the ledger, `cooked i`. -/
theorem record_chef (s : State) (t : Ledger) (i x y : Nat) :
    (t.record s (.chef i x y)).handedTo = t.handedTo ∧
      (t.record s (.chef i x y)).handedBy = t.handedBy ∧
      (t.record s (.chef i x y)).given = t.given ∧
      ∀ i', i' ≠ i → (t.record s (.chef i x y)).cooked i' = t.cooked i' := by
  cases hpc : s.chefPc i <;> simp +contextual [Ledger.record, hpc]

theorem Kitchen.chefStep {P : Params} {s s' : State} {t : Ledger} {i x y : Nat}
    (hi : i < P.m) (h : Kitchen P s t) (hs : s.chef i x y = some s') :
    Kitchen P s' (t.record s (.chef i x y)) := by
  have hown := (h.chef i).chefStep hi hs
  obtain ⟨-, hpcs, -, -, -, -, hother⟩ := chef_frame hs
  obtain ⟨hto, hby, -, hcooked⟩ := record_chef s t i x y
  refine { outside := ?_, chef := ?_, transit := ?_, balance := ?_ }
  · rw [hpcs]
    exact h.outside
  · intro i'
    by_cases hii : i' = i
    · subst hii
      exact hown
    · obtain ⟨hc, hpc⟩ := hother i' hii
      rw [hc, hpc, hpcs, hby, hcooked i' hii]
      exact h.chef i'
  · rw [hpcs]
    exact h.transit
  · rw [hpcs, hto, hby]
    exact h.balance

/-! ## Student steps -/

theorem Kitchen.studentStep {P : Params} {s s' : State} {t : Ledger} {q : Nat}
    (h : Kitchen P s t) (hs : s.student P q = some s') :
    Kitchen P s' (t.record s (.student q)) := by
  obtain ⟨hc, hpc, hpcs, -⟩ := student_frame hs
  have hledger : (t.record s (.student q)).handedTo = t.handedTo ∧
      (t.record s (.student q)).handedBy = t.handedBy ∧
      (t.record s (.student q)).cooked = t.cooked := by
    cases hq : s.studentPc q <;> simp [Ledger.record, hq]
  obtain ⟨hto, hby, hcooked⟩ := hledger
  refine { outside := ?_, chef := fun i => ?_, transit := ?_, balance := ?_ }
  · rw [hpcs]
    exact h.outside
  · rw [hc, hpc, hpcs, hby, hcooked]
    exact h.chef i
  · rw [hpcs]
    exact h.transit
  · rw [hpcs, hto, hby]
    exact h.balance

/-! ## Container steps -/

section Takers

variable {m i j : Nat} {c d : Chef} {pc : ChefPc} {takers : Nat → ContainerPc}
  {q : ContainerPc} {budget budget' : Int}

/-- A container that neither takes from this chef nor begins to. -/
theorem ChefInv.ofOther (h : ChefInv m i c pc takers budget)
    (hold : takes (takers j) ≠ some i) (hnew : takes q ≠ some i) :
    ChefInv m i c pc (Function.update takers j q) budget := by
  have hback : ∀ k, takes (Function.update takers j q k) = some i →
      Function.update takers j q k = takers k := by
    intro k hk
    by_cases hkj : k = j
    · subst hkj
      rw [Function.update_self] at hk
      exact absurd hk hnew
    · exact Function.update_of_ne hkj _ _
  refine
    { h with
      taken := fun k hk => ?_
      alone := fun k k' hk hk' => ?_
      ready := fun hpc hcook hno => h.ready hpc hcook fun k hk => ?_ }
  · have := hback k hk
    rw [this] at hk ⊢
    exact h.taken k hk
  · have h1 := hback k hk
    have h2 := hback k' hk'
    rw [h1] at hk
    rw [h2] at hk'
    exact h.alone k k' hk hk'
  · have hkj : k ≠ j := by
      rintro rfl
      exact hold hk
    exact hno k (by rwa [Function.update_of_ne hkj])

/-- The lock of a chef plays no part in the invariant. -/
theorem ChefInv.setLock (h : ChefInv m i c pc takers budget) (b : Bool) :
    ChefInv m i { c with lock := b } pc takers budget := by
  refine { h with taken := fun k hk => ?_, cook := ?_ }
  · obtain ⟨hpc, hcook, hok⟩ := h.taken k hk
    refine ⟨hpc, hcook, ?_⟩
    cases hp : takers k <;> rw [hp] at hok <;> exact hok
  · have := h.cook
    cases pc <;> exact this

/-- The only container that takes from a chef makes its next access. -/
theorem ChefInv.ofTaker (h : ChefInv m i c pc takers budget)
    (hold : takes (takers j) = some i) (hcook : d.cooking = false)
    (hok : TakerOk d budget' q) (hb : 0 ≤ budget') :
    takes q = some i → ChefInv m i d pc (Function.update takers j q) budget' := by
  intro hnew
  obtain ⟨hpc, hcook₀, _⟩ := h.taken j hold
  have honly : ∀ k, takes (Function.update takers j q k) = some i → k = j := by
    intro k hk
    by_cases hkj : k = j
    · exact hkj
    · rw [Function.update_of_ne hkj] at hk
      exact h.alone k j hk hold
  refine
    { bound := h.bound
      closed := fun _ _ => h.closed hpc hcook₀
      taken := fun k hk => ?_
      alone := fun k k' hk hk' => (honly k hk).trans (honly k' hk').symm
      cook := ?_
      ready := fun _ _ hno => absurd (by rw [Function.update_self, hnew]) (hno j)
      solvent := hb }
  · have := honly k hk
    subst this
    rw [Function.update_self]
    exact ⟨hpc, hcook, hok⟩
  · rcases h.closed hpc hcook₀ with hp | hp <;> rw [hp] <;> trivial

/-- The only container that takes from a chef is done with the vessel count. -/
theorem ChefInv.ofDone (h : ChefInv m i c pc takers budget)
    (hold : takes (takers j) = some i) (hnew : takes q ≠ some i)
    (hok : d.cooking = false → 1 ≤ d.r ∧ 1 ≤ d.p ∧ d.r * d.p ≤ budget) :
    ChefInv m i d pc (Function.update takers j q) budget := by
  obtain ⟨hpc, hcook₀, _⟩ := h.taken j hold
  have hno : ∀ k, takes (Function.update takers j q k) ≠ some i := by
    intro k hk
    by_cases hkj : k = j
    · subst hkj
      rw [Function.update_self] at hk
      exact hnew hk
    · rw [Function.update_of_ne hkj] at hk
      exact hkj (h.alone k j hk hold)
  refine
    { bound := h.bound
      closed := fun _ _ => h.closed hpc hcook₀
      taken := fun k hk => absurd hk (hno k)
      alone := fun k _ hk => absurd hk (hno k)
      cook := ?_
      ready := fun _ hc _ => hok hc
      solvent := h.solvent }
  rcases h.closed hpc hcook₀ with hp | hp <;> rw [hp] <;> trivial

/-- A careful claim: the container becomes the only taker. -/
theorem ChefInv.ofClaim (h : ChefInv m i c pc takers budget)
    (hpc : pc ≠ .start) (hcook : c.cooking = false)
    (hno : ∀ k, takes (takers k) ≠ some i) :
    ChefInv m i c pc (Function.update takers j (.unlockMutex i)) budget := by
  have honly : ∀ k, takes (Function.update takers j (.unlockMutex i) k) = some i →
      k = j := by
    intro k hk
    by_cases hkj : k = j
    · exact hkj
    · rw [Function.update_of_ne hkj] at hk
      exact absurd hk (hno k)
  refine
    { h with
      taken := fun k hk => ?_
      alone := fun k k' hk hk' => (honly k hk).trans (honly k' hk').symm
      ready := fun _ _ hk => absurd (by rw [Function.update_self]; rfl) (hk j) }
  have := honly k hk
  subst this
  rw [Function.update_self]
  exact ⟨hpc, hcook, h.ready hpc hcook hno⟩

end Takers

section ContainerSteps

variable {P : Params} {s s' : State} {t t' : Ledger} {j g : Nat} {q : ContainerPc}

/-- The portions in transit change with the position of one container. -/
theorem transit_balance (hpcs : s'.containerPc = Function.update s.containerPc j q)
    (hto : ∀ k, k ≠ j → t'.handedTo k = t.handedTo k)
    (hsum : t'.handedTo j + inTransit q = t.handedTo j + inTransit (s.containerPc j)) :
    ∑ k ∈ range P.n, (t'.handedTo k + inTransit (s'.containerPc k)) =
      ∑ k ∈ range P.n, (t.handedTo k + inTransit (s.containerPc k)) := by
  refine Finset.sum_congr rfl fun k _ => ?_
  by_cases hk : k = j
  · subst hk
    rw [hpcs, Function.update_self, hsum]
  · rw [hpcs, Function.update_of_ne hk, hto k hk]

/-- An access that concerns chef `g` at most. -/
theorem Kitchen.ofChef (h : Kitchen P s t) (hj : j < P.n)
    (hchefs : ∀ i, i ≠ g → s'.chefs i = s.chefs i) (hchefPc : s'.chefPc = s.chefPc)
    (hpcs : s'.containerPc = Function.update s.containerPc j q)
    (hold : ∀ i, i ≠ g → takes (s.containerPc j) ≠ some i)
    (hnew : ∀ i, i ≠ g → takes q ≠ some i)
    (hbudget : ∀ i, i ≠ g → t'.cooked i - t'.handedBy i = t.cooked i - t.handedBy i)
    (hg : ChefInv P.m g (s'.chefs g) (s'.chefPc g) s'.containerPc
      (t'.cooked g - t'.handedBy g))
    (htransit : 0 ≤ inTransit q)
    (hbalance : ∑ k ∈ range P.n, (t'.handedTo k + inTransit (s'.containerPc k)) =
      ∑ i ∈ range P.m, t'.handedBy i) : Kitchen P s' t' := by
  refine { outside := fun k hk => ?_, chef := fun i => ?_, transit := fun k => ?_,
           balance := hbalance }
  · rw [hpcs, Function.update_of_ne (by omega)]
    exact h.outside k hk
  · by_cases hi : i = g
    · subst hi
      exact hg
    · rw [hchefs i hi, hchefPc, hpcs, hbudget i hi]
      exact (h.chef i).ofOther (hold i hi) (hnew i hi)
  · rw [hpcs]
    by_cases hk : k = j
    · subst hk
      rwa [Function.update_self]
    · rw [Function.update_of_ne hk]
      exact h.transit k

/-- An access outside the hand-over. -/
theorem Kitchen.ofQuiet (h : Kitchen P s t) (hj : j < P.n) (hchefs : s'.chefs = s.chefs)
    (hchefPc : s'.chefPc = s.chefPc)
    (hpcs : s'.containerPc = Function.update s.containerPc j q)
    (hold : takes (s.containerPc j) = none) (hnew : takes q = none)
    (hin : inTransit (s.containerPc j) = 0) (hin' : inTransit q = 0) :
    Kitchen P s' t := by
  have hkeep := (h.chef 0).ofOther (j := j) (q := q) (by simp [hold]) (by simp [hnew])
  refine h.ofChef hj (g := 0) (fun i _ => by rw [hchefs]) hchefPc hpcs (by simp [hold])
    (by simp [hnew]) (fun _ _ => rfl) ?_ (by rw [hin']) ?_
  · rw [hchefs, hchefPc, hpcs]
    exact hkeep
  · rw [transit_balance hpcs (fun _ _ => rfl) (by rw [hin, hin']), h.balance]

/-- A careful claim. -/
theorem Kitchen.claim (h : Kitchen P s t) (hj : j < P.n)
    (hpc : s.containerPc j = .claim g) (hc : CarefulClaim P s j g) :
    Kitchen P ((s.setChef g fun c => { c with lock := true }).containerAt j
      (.unlockMutex g)) t := by
  obtain ⟨hstart, hcook, hother⟩ := hc
  have hno : ∀ k, takes (s.containerPc k) ≠ some g := by
    intro k
    by_cases hk : k = j
    · subst hk
      rw [hpc]
      simp [takes]
    · by_cases hkn : k < P.n
      · exact hother k hkn hk
      · rw [h.outside k (by omega)]
        simp [takes]
  have hg := ((h.chef g).ofClaim (j := j) hstart hcook hno).setLock true
  refine h.ofChef hj (g := g) (fun i hi => ?_) rfl rfl (by simp [hpc, takes]) ?_
    (fun _ _ => rfl) ?_ (by simp [inTransit]) ?_
  · simp [State.containerAt, State.setChef, hi]
  · intro i hi
    simp [takes, Ne.symm hi]
  · simpa [State.containerAt, State.setChef] using hg
  · rw [transit_balance (s := s) rfl (fun _ _ => rfl) (by simp [hpc, inTransit]),
      h.balance]

/-- The accesses of the only taker that leave the ledger alone. -/
theorem Kitchen.ofTaker {d : Chef} (h : Kitchen P s t) (hj : j < P.n)
    (hold : takes (s.containerPc j) = some g) (hnew : takes q = some g)
    (hchefs : s'.chefs = Function.update s.chefs g d) (hchefPc : s'.chefPc = s.chefPc)
    (hpcs : s'.containerPc = Function.update s.containerPc j q)
    (hcook : d.cooking = false)
    (hok : TakerOk d (t.cooked g - t.handedBy g) q)
    (hin : inTransit q = inTransit (s.containerPc j)) : Kitchen P s' t := by
  have hg := (h.chef g).ofTaker hold hcook hok (h.chef g).solvent hnew
  refine h.ofChef hj (g := g) (fun i hi => by rw [hchefs, Function.update_of_ne hi])
    hchefPc hpcs ?_ ?_ (fun _ _ => rfl) ?_ ?_ ?_
  · intro i hi
    simp [hold, Ne.symm hi]
  · intro i hi
    simp [hnew, Ne.symm hi]
  · rw [hchefs, Function.update_self, hchefPc, hpcs]
    exact hg
  · rw [hin]
    exact h.transit j
  · rw [transit_balance hpcs (fun _ _ => rfl) (by rw [hin]), h.balance]

end ContainerSteps

/-- `students_to_be_returned = c[guy_found].p`: the portions of one vessel leave
the chef's budget and are in transit. -/
theorem Kitchen.readP {P : Params} {s : State} {t : Ledger} {j g x : Nat}
    (hj : j < P.n) (h : Kitchen P s t) (hpc : s.containerPc j = .readP g) :
    Kitchen P (s.containerAt j (.readR g (s.chefs g).p)) (t.record s (.container j x)) := by
  have htakes : takes (s.containerPc j) = some g := by simp [hpc, takes]
  obtain ⟨hstart, hcook, hok⟩ := (h.chef g).taken j htakes
  simp only [hpc, TakerOk] at hok
  obtain ⟨hr, hp, hle⟩ := hok
  have hmul : 0 ≤ ((s.chefs g).r - 1) * (s.chefs g).p :=
    Int.mul_nonneg (by omega) (by omega)
  have hsub : ((s.chefs g).r - 1) * (s.chefs g).p =
      (s.chefs g).r * (s.chefs g).p - (s.chefs g).p := by ring
  have hg : ChefInv P.m g (s.chefs g) (s.chefPc g)
      (Function.update s.containerPc j (.readR g (s.chefs g).p))
      (t.cooked g - (t.handedBy g + (s.chefs g).p)) := by
    refine (h.chef g).ofTaker htakes hcook ⟨hr, hp, ?_⟩ ?_ rfl <;> omega
  have hgm : g < P.m := (h.chef g).bound hstart
  refine h.ofChef hj (g := g) (fun _ _ => rfl) rfl rfl ?_ ?_ ?_ ?_ ?_ ?_
  · intro i hi
    simp [htakes, Ne.symm hi]
  · intro i hi
    simp [takes, Ne.symm hi]
  · intro i hi
    simp [Ledger.record, hpc, hi]
  · simpa [Ledger.record, hpc, State.containerAt] using hg
  · simp only [inTransit]
    omega
  · have hleft := sum_add_of_agree (s := range P.n) (a := j)
      (f := fun k => t.handedTo k + inTransit (s.containerPc k))
      (g := fun k => t.handedTo k + inTransit
        (Function.update s.containerPc j (.readR g (s.chefs g).p) k))
      (Finset.mem_range.2 hj) fun k _ hk => by simp [hk]
    have hright := sum_add_of_agree (s := range P.m) (a := g) (f := t.handedBy)
      (g := Function.update t.handedBy g (t.handedBy g + (s.chefs g).p))
      (Finset.mem_range.2 hgm) fun k _ hk => by simp [hk]
    have hbal := h.balance
    have hold : inTransit (s.containerPc j) = 0 := by rw [hpc]; rfl
    have hnew : inTransit (.readR g (s.chefs g).p) = (s.chefs g).p := rfl
    simp only [Function.update_self, hold, hnew] at hleft hright
    simp only [Ledger.record, hpc, State.containerAt]
    omega

/-- `return students_to_be_returned`: the portions arrive. -/
theorem Kitchen.clearLock {P : Params} {s : State} {t : Ledger} {j g x : Nat} {ret : Int}
    (hj : j < P.n) (h : Kitchen P s t) (hpc : s.containerPc j = .clearLock g ret) :
    Kitchen P ((s.setChef g fun c => { c with lock := false }).containerAt j (.serve ret))
      (t.record s (.container j x)) := by
  have hg := ((h.chef g).ofOther (j := j) (q := .serve ret) (by simp [hpc, takes])
    (by simp [takes])).setLock false
  refine h.ofChef hj (g := g) (fun i hi => ?_) rfl rfl (by simp [hpc, takes])
    (by simp [takes]) (fun i _ => ?_) ?_ (by simp [inTransit]) ?_
  · simp [State.containerAt, State.setChef, hi]
  · simp [Ledger.record, hpc]
  · simpa [Ledger.record, hpc, State.containerAt, State.setChef] using hg
  · rw [transit_balance (s := s) (t := t) rfl (fun k hk => by simp [Ledger.record, hpc, hk])
      (by simp [Ledger.record, hpc, inTransit]), h.balance]
    simp [Ledger.record, hpc]

/-- One access of a container that claims chefs carefully. -/
theorem Kitchen.containerStep {P : Params} {s s' : State} {t : Ledger} {j x : Nat}
    (hj : j < P.n) (h : Kitchen P s t)
    (hc : ∀ i, s.containerPc j = .claim i → CarefulClaim P s j i)
    (hs : s.container P j x = some s') :
    Kitchen P s' (t.record s (.container j x)) := by
  have htaken := fun i => (h.chef i).taken j
  unfold State.container at hs
  cases hpc : s.containerPc j <;> rw [hpc] at hs htaken <;>
    simp only [takes, Option.some.injEq, TakerOk, reduceCtorEq, false_implies] at hs htaken
  case readP g =>
    cases hs
    exact h.readP hj hpc
  case clearLock g ret =>
    cases hs
    exact h.clearLock hj hpc
  -- the ledger stays as it is from here on
  all_goals
    have hledger : t.record s (.container j x) = t := by simp [Ledger.record, hpc]
    rw [hledger]
  case claim i =>
    cases hs
    exact h.claim hj hpc (hc i hpc)
  case unlockMutex g =>
    cases hs
    obtain ⟨_, hcook, hok⟩ := htaken g rfl
    exact h.ofTaker hj (d := s.chefs g) (by simp [hpc, takes]) rfl
      (by simp [State.containerAt]) rfl rfl hcook hok (by simp [hpc, inTransit])
  case readR g ret =>
    cases hs
    obtain ⟨_, hcook, hr, hp, hle⟩ := htaken g rfl
    exact h.ofTaker hj (d := s.chefs g) (by simp [hpc, takes]) rfl
      (by simp [State.containerAt]) rfl rfl hcook ⟨rfl, hr, hp, hle⟩
      (by simp [hpc, inTransit])
  case writeR g ret v =>
    cases hs
    obtain ⟨_, hcook, hv, hr, hp, hle⟩ := htaken g rfl
    refine h.ofTaker hj (d := { s.chefs g with r := v - 1 }) (by simp [hpc, takes]) rfl
      rfl rfl rfl hcook ⟨?_, hp, ?_⟩ (by simp [hpc, inTransit])
    · simp only
      omega
    · simpa [hv] using hle
  case testR g ret =>
    cases hs
    obtain ⟨_, hcook, hr, hp, hle⟩ := htaken g rfl
    have hmul : 0 ≤ (s.chefs g).r * (s.chefs g).p := Int.mul_nonneg hr (by omega)
    split
    · exact h.ofTaker hj (d := s.chefs g) (by simp [hpc, takes]) rfl
        (by simp [State.containerAt]) rfl rfl hcook (le_trans hmul hle)
        (by simp [hpc, inTransit])
    · rename_i hpos
      have hg := (h.chef g).ofDone (j := j) (q := .clearLock g ret) (d := s.chefs g)
        (by simp [hpc, takes]) (by simp [takes]) fun _ => ⟨by omega, hp, hle⟩
      refine h.ofChef hj (g := g) (fun _ _ => rfl) rfl rfl ?_ (by simp [takes])
        (fun _ _ => rfl) (by simpa [State.containerAt] using hg) ?_ ?_
      · intro i hi
        simp [hpc, takes, Ne.symm hi]
      · simpa [hpc, inTransit] using h.transit j
      · rw [transit_balance (s := s) rfl (fun _ _ => rfl) (by simp [hpc, inTransit]),
          h.balance]
  case setCooking g ret =>
    cases hs
    have hg := (h.chef g).ofDone (j := j) (q := .clearLock g ret)
      (d := { s.chefs g with cooking := true }) (by simp [hpc, takes]) (by simp [takes])
      (by simp)
    refine h.ofChef hj (g := g) (fun i hi => ?_) rfl rfl ?_ (by simp [takes])
      (fun _ _ => rfl) (by simpa [State.containerAt, State.setChef] using hg) ?_ ?_
    · simp [State.containerAt, State.setChef, hi]
    · intro i hi
      simp [hpc, takes, Ne.symm hi]
    · simpa [hpc, inTransit] using h.transit j
    · rw [transit_balance (s := s) rfl (fun _ _ => rfl) (by simp [hpc, inTransit]),
        h.balance]
  -- the remaining accesses do not concern a chef
  all_goals
    first
      | (cases hs
         exact h.ofQuiet hj rfl rfl rfl (by simp [hpc, takes]) (by split_ifs <;> rfl)
           (by simp [hpc, inTransit]) (by split_ifs <;> rfl))
      | (cases hs
         exact h.ofQuiet hj rfl rfl rfl (by simp [hpc, takes]) rfl
           (by simp [hpc, inTransit]) rfl)
      | (split_ifs at hs <;> cases hs <;>
           exact h.ofQuiet hj rfl rfl rfl (by simp [hpc, takes]) rfl
             (by simp [hpc, inTransit]) rfl)

end OsWork.Ports.BiryaniService

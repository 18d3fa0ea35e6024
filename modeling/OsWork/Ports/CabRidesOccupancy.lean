import OsWork.Ports.CabRides
import OsWork.Verified.Counting
import Mathlib.Data.Finset.Range

/-!
# What the status of a cab says about its riders

A *rider* of cab `i` is a passenger whose `cab_found` is `i` and whose payment
no server has processed yet.  `Describes` compares the number of pool and
premier riders of a cab with its `ride_status`.

The code does not keep this relation, in two places:

* one round of the pool search goes on to the second loop after the first one
  has found a half-full cab, so that a passenger can raise two cabs and be
  assigned the second only (`doubleBooking`);
* the status a cab is lowered to is computed by `do_payment` when a ride ends,
  and written by a server later, when another passenger may have joined or
  left.

`Careful` names the steps that take neither branch, and `careful_describes`
shows that the relation holds in every state that careful steps reach.
-/

namespace OsWork.Ports.CabRides

open OsWork.Verified.Transition OsWork.Verified.Counting
open Finset (range)

/-! ## Riders -/

/-- The cab passenger `p` is a rider of. -/
def riderCab (s : State) (p : Nat) : Option Nat :=
  match s.passenger p with
  | .booked i => some i
  | .riding i => some i
  | .paying i _ => some i
  | .waiting slot =>
      if (s.pay slot).paymentStatus then some (s.pay slot).cabNumber else none
  | _ => none

/-- The cab of a rider depends on his position and his slot only. -/
theorem riderCab_congr {s s' : State} {q : Nat} (hpass : s'.passenger q = s.passenger q)
    (hpay : ∀ slot, s.passenger q = .waiting slot → s'.pay slot = s.pay slot) :
    riderCab s' q = riderCab s q := by
  unfold riderCab
  rw [hpass]
  cases hq : s.passenger q with
  | waiting slot => simp only [hpay slot hq]
  | _ => rfl

/-- The riders of cab `i` that asked for a ride of kind `t`. -/
def riders (P : Params) (s : State) (t : RideType) (i : Nat) : Finset Nat :=
  (range P.m).filter fun p => rideType p = t ∧ riderCab s p = some i

/-- How many pool and premier riders a status stands for. -/
def seats : RideStatus → Nat × Nat
  | .waitState => (0, 0)
  | .onRidePoolHalf => (1, 0)
  | .onRidePoolFull => (2, 0)
  | .onRidePremier => (0, 1)

/-- The status of cab `i` describes its riders. -/
def Describes (P : Params) (s : State) (i : Nat) : Prop :=
  ((riders P s .pool i).card, (riders P s .premier i).card) =
    seats (s.cabs i).rideStatus

instance (P : Params) (s : State) (i : Nat) : Decidable (Describes P s i) := by
  unfold Describes
  infer_instance

/-- The status a cab has after one of its riders has paid. -/
def afterPayment : RideStatus → Option RideStatus
  | .onRidePoolFull => some .onRidePoolHalf
  | .onRidePoolHalf => some .waitState
  | .onRidePremier => some .waitState
  | .waitState => none

/-- The steps that stay away from the two faulty branches: a pool passenger does
not find both a half-full and a waiting cab, and a server that processes a slot
finds the cab in a status from which `reduce_status_to` is still the next one. -/
def Careful (P : Params) (s : State) : Act → Prop
  | .takeCab p => rideType p = .pool →
      firstCab s.cabs .onRidePoolHalf P.n = none ∨
        firstCab s.cabs .waitState P.n = none
  | .serverInAction j => ∀ i ∈ s.server j, 0 < s.totalPassengersLeft →
      (s.pay i).paymentStatus = true →
        afterPayment (s.cabs (s.pay i).cabNumber).rideStatus =
          some (s.pay i).reduceStatusTo
  | _ => True

instance (P : Params) (s : State) (a : Act) : Decidable (Careful P s a) := by
  cases a <;> unfold Careful <;> infer_instance

/-! ## What the search does to the cab table -/

theorem firstCab_some {c : Nat → Cab} {want : RideStatus} {n i : Nat}
    (h : firstCab c want n = some i) : (c i).rideStatus = want := by
  have hp := List.find?_some h
  simp only [Bool.and_eq_true, beq_iff_eq] at hp
  exact hp.2

/-- The search leaves the table alone, or books the cab it reports and raises
its status by one rider. -/
inductive SearchResult (c : Nat → Cab) (t : RideType) :
    (Nat → Cab) × Option Nat → Prop
  | noCab : SearchResult c t (c, none)
  | joined (i : Nat) : t = .pool → (c i).rideStatus = .onRidePoolHalf →
      SearchResult c t (book c i .onRidePoolFull, some i)
  | opened (i : Nat) : t = .pool → (c i).rideStatus = .waitState →
      SearchResult c t (book c i .onRidePoolHalf, some i)
  | premier (i : Nat) : t = .premier → (c i).rideStatus = .waitState →
      SearchResult c t (book c i .onRidePremier, some i)

/-- Booking a cab for a ride does not create a waiting cab. -/
theorem firstCab_book_none {c : Nat → Cab} {n i : Nat} {st : RideStatus}
    (h : firstCab c .waitState n = none) :
    firstCab (book c i st) .waitState n = none := by
  simp only [firstCab, List.find?_eq_none, List.mem_range] at h ⊢
  intro j hj
  by_cases hji : j = i
  · subst hji; simp [book]
  · simpa [book, hji] using h j hj

/-- One round of the pool search when it does not take the double branch. -/
theorem poolPass_result {c : Nat → Cab} {n : Nat}
    (h : firstCab c .onRidePoolHalf n = none ∨ firstCab c .waitState n = none) :
    SearchResult c .pool (poolPass n c) := by
  cases hhalf : firstCab c .onRidePoolHalf n with
  | none =>
      cases hwait : firstCab c .waitState n with
      | none => simpa [poolPass, hhalf, hwait] using SearchResult.noCab
      | some j =>
          simpa [poolPass, hhalf, hwait] using
            SearchResult.opened j rfl (firstCab_some hwait)
  | some i =>
      have hwait : firstCab c .waitState n = none := by
        rcases h with h | h
        · rw [h] at hhalf; cases hhalf
        · exact h
      simpa [poolPass, hhalf, firstCab_book_none hwait] using
        SearchResult.joined i rfl (firstCab_some hhalf)

theorem poolSearch_result {c : Nat → Cab} {n : Nat}
    (h : firstCab c .onRidePoolHalf n = none ∨ firstCab c .waitState n = none)
    (timeToWait : Nat) : SearchResult c .pool (poolSearch n c timeToWait) := by
  induction timeToWait with
  | zero => exact .noCab
  | succ timeToWait ih =>
      have hpass := poolPass_result h
      simp only [poolSearch]
      split
      · rename_i heq; rwa [heq] at hpass
      · rename_i heq
        rw [heq] at hpass
        cases hpass
        exact ih

theorem premierSearch_result {c : Nat → Cab} {n : Nat}
    {r : (Nat → Cab) × Option Nat} (timeToWait i : Nat)
    (h : premierSearch n c timeToWait i = some r) : SearchResult c .premier r := by
  induction timeToWait generalizing i with
  | zero =>
      simp only [premierSearch, Option.some.injEq] at h
      exact h ▸ .noCab
  | succ timeToWait ih =>
      simp only [premierSearch] at h
      split at h
      · rename_i hfree
        cases h
        exact .premier i rfl hfree.2
      · split at h
        · cases h
        · exact ih _ h

theorem takeCabSearch_result {c : Nat → Cab} {n timeToWait : Nat} {t : RideType}
    {r : (Nat → Cab) × Option Nat}
    (hc : t = .pool →
      firstCab c .onRidePoolHalf n = none ∨ firstCab c .waitState n = none)
    (h : takeCabSearch n c t timeToWait = some r) : SearchResult c t r := by
  cases t with
  | pool =>
      simp only [takeCabSearch, Option.some.injEq] at h
      exact h ▸ poolSearch_result (hc rfl) timeToWait
  | premier => exact premierSearch_result timeToWait 0 h

/-! ## Counting riders across a step -/

/-- A step that concerns one passenger changes the number of riders of each cab
by that passenger only. -/
theorem riders_card_of_agree {P : Params} {s s' : State} {p : Nat} (hp : p < P.m)
    (h : ∀ q, q ≠ p → riderCab s' q = riderCab s q) (t : RideType) (i : Nat) :
    (riders P s' t i).card + (if rideType p = t ∧ riderCab s p = some i then 1 else 0) =
      (riders P s t i).card +
        (if rideType p = t ∧ riderCab s' p = some i then 1 else 0) := by
  unfold riders
  refine card_filter_add_of_agree
    (p := fun q => rideType q = t ∧ riderCab s q = some i)
    (q := fun q => rideType q = t ∧ riderCab s' q = some i)
    (Finset.mem_range.2 hp) ?_
  intro q _ hq
  rw [h q hq]

/-- Steps that keep every rider keep the number of riders. -/
theorem riders_eq_of_agree {P : Params} {s s' : State}
    (h : ∀ q, riderCab s' q = riderCab s q) (t : RideType) (i : Nat) :
    riders P s' t i = riders P s t i := by
  simp only [riders, h]

/-- Status and riders unchanged: the relation is kept. -/
theorem Describes.of_agree {P : Params} {s s' : State} {i : Nat}
    (hd : Describes P s i) (h : ∀ q, riderCab s' q = riderCab s q)
    (hst : (s'.cabs i).rideStatus = (s.cabs i).rideStatus) : Describes P s' i := by
  unfold Describes at hd ⊢
  rw [riders_eq_of_agree h, riders_eq_of_agree h, hst, hd]

/-- One rider got in: the cab `i` he booked goes from status `st` to `st'`. -/
theorem describes_of_boarding {P : Params} {s s' : State} {p i : Nat}
    (hp : p < P.m) (hd : ∀ j, Describes P s j)
    (hother : ∀ q, q ≠ p → riderCab s' q = riderCab s q)
    (hbefore : riderCab s p = none) (hafter : riderCab s' p = some i)
    (hcabs : ∀ j, j ≠ i → (s'.cabs j).rideStatus = (s.cabs j).rideStatus)
    (hseats : seats (s'.cabs i).rideStatus =
      ((seats (s.cabs i).rideStatus).1 + (if rideType p = .pool then 1 else 0),
        (seats (s.cabs i).rideStatus).2 + (if rideType p = .premier then 1 else 0))) :
    ∀ j, Describes P s' j := by
  intro j
  have hpool := riders_card_of_agree hp hother .pool j
  have hpremier := riders_card_of_agree hp hother .premier j
  have hdj := hd j
  simp only [hbefore, hafter, reduceCtorEq, and_false, ↓reduceIte, Nat.add_zero,
    Option.some.injEq] at hpool hpremier
  unfold Describes at hdj ⊢
  by_cases hj : j = i
  · subst hj
    rw [hpool, hpremier, hseats, ← hdj]
    simp
  · have hij : i ≠ j := fun h => hj h.symm
    rw [hpool, hpremier, hcabs j hj, ← hdj]
    simp [hij]

/-- One rider has paid: the cab `i` he was in goes to the status after
payment. -/
theorem describes_of_leaving {P : Params} {s s' : State} {p i : Nat}
    (hp : p < P.m) (hd : ∀ j, Describes P s j)
    (hother : ∀ q, q ≠ p → riderCab s' q = riderCab s q)
    (hbefore : riderCab s p = some i) (hafter : riderCab s' p = none)
    (hcabs : ∀ j, j ≠ i → (s'.cabs j).rideStatus = (s.cabs j).rideStatus)
    (hnext : afterPayment (s.cabs i).rideStatus = some (s'.cabs i).rideStatus) :
    ∀ j, Describes P s' j := by
  intro j
  have hpool := riders_card_of_agree hp hother .pool j
  have hpremier := riders_card_of_agree hp hother .premier j
  have hdj := hd j
  simp only [hbefore, hafter, reduceCtorEq, and_false, ↓reduceIte, Nat.add_zero,
    Option.some.injEq] at hpool hpremier
  unfold Describes at hdj ⊢
  by_cases hj : j = i
  · subst hj
    -- the status before the payment says which kind of rider `p` was
    cases hst : (s.cabs j).rideStatus <;>
      cases ht : rideType p <;>
      simp only [hst, ht, seats, afterPayment, Prod.mk.injEq, Option.some.injEq,
        reduceCtorEq, and_true, ↓reduceIte] at hdj hpool hpremier hnext ⊢ <;>
      first
        | omega
        | (rw [← hnext]; simp only [Prod.mk.injEq]; omega)
  · have hij : i ≠ j := fun h => hj h.symm
    simp only [hij, and_false, ↓reduceIte, Nat.add_zero] at hpool hpremier
    rw [hpool, hpremier, hcabs j hj, hdj]

/-! ## Payment slots -/

/-- Every pending slot belongs to exactly one waiting passenger, and slots are
handed out in order. -/
structure SlotsOwned (P : Params) (s : State) : Prop where
  owner : ∀ i, (s.pay i).paymentStatus = true → ∃ p < P.m, s.passenger p = .waiting i
  unique : ∀ p q i, s.passenger p = .waiting i → s.passenger q = .waiting i → p = q
  used : ∀ p i, s.passenger p = .waiting i → i < s.currentEmptyPaySlot
  fresh : ∀ i, s.currentEmptyPaySlot ≤ i → (s.pay i).paymentStatus = false

/-- Steps of a passenger who is and stays outside `wait_for_payment`. -/
theorem SlotsOwned.setPassenger {P : Params} {s s' : State} {p : Nat}
    {pc : Passenger} (h : SlotsOwned P s)
    (hpass : s'.passenger = Function.update s.passenger p pc)
    (hpay : s'.pay = s.pay) (hcur : s'.currentEmptyPaySlot = s.currentEmptyPaySlot)
    (hbefore : ∀ i, s.passenger p ≠ .waiting i) (hafter : ∀ i, pc ≠ .waiting i) :
    SlotsOwned P s' := by
  have hback : ∀ q i, s'.passenger q = .waiting i → s.passenger q = .waiting i := by
    intro q i hq
    by_cases hqp : q = p
    · subst hqp
      rw [hpass, Function.update_self] at hq
      exact absurd hq (hafter i)
    · rwa [hpass, Function.update_of_ne hqp] at hq
  refine
    { owner := ?_
      unique := fun q r i hq hr => h.unique q r i (hback q i hq) (hback r i hr)
      used := fun q i hq => hcur ▸ h.used q i (hback q i hq)
      fresh := fun i hi => by rw [hpay]; exact h.fresh i (hcur ▸ hi) }
  intro i hi
  rw [hpay] at hi
  obtain ⟨q, hq, hw⟩ := h.owner i hi
  refine ⟨q, hq, ?_⟩
  have hqp : q ≠ p := by
    rintro rfl
    exact hbefore i hw
  rw [hpass, Function.update_of_ne hqp, hw]

/-- The critical section of `do_payment` hands out the next slot. -/
theorem SlotsOwned.doPayment {P : Params} {s s' : State} {p : Nat} (hp : p < P.m)
    (h : SlotsOwned P s) (hbefore : ∀ i, s.passenger p ≠ .waiting i)
    (hpass : s'.passenger = Function.update s.passenger p (.waiting s.currentEmptyPaySlot))
    (hpay : ∀ i, i ≠ s.currentEmptyPaySlot → s'.pay i = s.pay i)
    (hcur : s'.currentEmptyPaySlot = s.currentEmptyPaySlot + 1) :
    SlotsOwned P s' := by
  have hback : ∀ q i, s'.passenger q = .waiting i →
      (q = p ∧ i = s.currentEmptyPaySlot) ∨ (q ≠ p ∧ s.passenger q = .waiting i) := by
    intro q i hq
    by_cases hqp : q = p
    · subst hqp
      rw [hpass, Function.update_self, Passenger.waiting.injEq] at hq
      exact Or.inl ⟨rfl, hq.symm⟩
    · rw [hpass, Function.update_of_ne hqp] at hq
      exact Or.inr ⟨hqp, hq⟩
  refine { owner := ?_, unique := ?_, used := ?_, fresh := ?_ }
  · intro i hi
    by_cases hslot : i = s.currentEmptyPaySlot
    · exact ⟨p, hp, by rw [hpass, Function.update_self, hslot]⟩
    · rw [hpay i hslot] at hi
      obtain ⟨q, hq, hw⟩ := h.owner i hi
      have hqp : q ≠ p := by
        rintro rfl
        exact hbefore i hw
      exact ⟨q, hq, by rw [hpass, Function.update_of_ne hqp, hw]⟩
  · intro q r i hq hr
    rcases hback q i hq with ⟨rfl, hi⟩ | ⟨_, hq'⟩ <;>
      rcases hback r i hr with ⟨rfl, hi'⟩ | ⟨_, hr'⟩
    · rfl
    · exact absurd (h.used r i hr') (by omega)
    · exact absurd (h.used q i hq') (by omega)
    · exact h.unique q r i hq' hr'
  · intro q i hq
    rcases hback q i hq with ⟨_, hi⟩ | ⟨_, hq'⟩
    · omega
    · have := h.used q i hq'
      omega
  · intro i hi
    rw [hpay i (by omega)]
    exact h.fresh i (by omega)

/-! ## The invariant -/

/-- The status of every cab describes its riders, and every pending slot
belongs to exactly one waiting passenger. -/
structure Occupancy (P : Params) (s : State) : Prop where
  describes : ∀ i, Describes P s i
  slots : SlotsOwned P s

theorem occupancy_start (P : Params) : Occupancy P (start P) where
  describes i := by simp [Describes, riders, riderCab, start, seats]
  slots :=
    { owner := fun i h => by simp [start] at h
      unique := fun p q i h => by simp [start] at h
      used := fun p i h => by simp [start] at h
      fresh := fun i _ => rfl }

section Steps

variable {P : Params} {s s' : State} {p j : Nat}

/-- Steps of one passenger that keep his cab, and the status of every cab. -/
theorem Occupancy.of_quiet {pc : Passenger} (h : Occupancy P s)
    (hpass : s'.passenger = Function.update s.passenger p pc)
    (hpay : ∀ q slot, q ≠ p → s.passenger q = .waiting slot → s'.pay slot = s.pay slot)
    (hcab : riderCab s' p = riderCab s p)
    (hst : ∀ i, (s'.cabs i).rideStatus = (s.cabs i).rideStatus)
    (hslots : SlotsOwned P s') : Occupancy P s' := by
  refine ⟨fun i => (h.describes i).of_agree ?_ (hst i), hslots⟩
  intro q
  by_cases hq : q = p
  · rw [hq, hcab]
  · exact riderCab_congr (by rw [hpass, Function.update_of_ne hq]) fun slot hw =>
      hpay q slot hq hw

theorem Occupancy.takeCab (hp : p < P.m) (h : Occupancy P s)
    (hc : Careful P s (.takeCab p)) (hs : s.takeCab P p = some s') :
    Occupancy P s' := by
  unfold State.takeCab at hs
  split at hs
  case h_2 => cases hs
  rename_i harr
  have hnone : riderCab s p = none := by simp [riderCab, harr]
  have hbefore : ∀ i, s.passenger p ≠ .waiting i := by simp [harr]
  have hresult : ∀ r, takeCabSearch P.n s.cabs (rideType p) waitTime = some r →
      SearchResult s.cabs (rideType p) r := fun r hr => takeCabSearch_result hc hr
  -- what a booking does, whichever cab the search found
  have board : ∀ i st,
      seats st = ((seats (s.cabs i).rideStatus).1 + (if rideType p = .pool then 1 else 0),
        (seats (s.cabs i).rideStatus).2 + (if rideType p = .premier then 1 else 0)) →
      Occupancy P ({ s with cabs := book s.cabs i st }.setPassenger p (.booked i)) := by
    intro i st hst
    refine
      { describes := ?_
        slots := h.slots.setPassenger rfl rfl rfl hbefore (by simp) }
    refine describes_of_boarding (i := i) hp h.describes ?_ hnone ?_ ?_ ?_
    · intro q hq
      exact riderCab_congr (by simp [State.setPassenger, hq]) fun _ _ => rfl
    · simp [riderCab, State.setPassenger]
    · intro k hk; simp [State.setPassenger, book, hk]
    · simpa [State.setPassenger, book] using hst
  split at hs
  · rename_i c i hsearch
    cases hs
    cases hresult _ hsearch with
    | joined _ ht hst | opened _ ht hst | premier _ ht hst =>
        exact board i _ (by simp [ht, hst, seats])
  · rename_i c hsearch
    cases hs
    cases hresult _ hsearch
    exact h.of_quiet rfl (fun _ _ _ _ => rfl)
      (by simp [riderCab, State.setPassenger, harr]) (fun _ => rfl)
      (h.slots.setPassenger rfl rfl rfl hbefore (by simp))
  · cases hs

theorem Occupancy.giveUp (h : Occupancy P s) (hs : s.giveUp p = some s') :
    Occupancy P s' := by
  unfold State.giveUp at hs
  split at hs
  · rename_i hpc
    cases hs
    exact h.of_quiet rfl (fun _ _ _ _ => rfl)
      (by simp [riderCab, State.setPassenger, hpc]) (fun _ => rfl)
      (h.slots.setPassenger rfl rfl rfl (by simp [hpc]) (by simp))
  · cases hs

theorem Occupancy.releaseCab (h : Occupancy P s) (hs : s.releaseCab p = some s') :
    Occupancy P s' := by
  unfold State.releaseCab at hs
  split at hs
  · rename_i i hpc
    cases hs
    have hst : ∀ k, ((Function.update s.cabs i { s.cabs i with lock := false }) k).rideStatus =
        (s.cabs k).rideStatus := by
      intro k
      by_cases hk : k = i
      · subst hk; simp
      · simp [hk]
    exact h.of_quiet rfl (fun _ _ _ _ => rfl)
      (by simp [riderCab, State.setPassenger, hpc]) hst
      (h.slots.setPassenger rfl rfl rfl (by simp [hpc]) (by simp))
  · cases hs

theorem Occupancy.endRide (h : Occupancy P s) (hs : s.endRide p = some s') :
    Occupancy P s' := by
  unfold State.endRide at hs
  split at hs
  · rename_i i hpc
    cases hs
    exact h.of_quiet rfl (fun _ _ _ _ => rfl)
      (by simp [riderCab, State.setPassenger, hpc]) (fun _ => rfl)
      (h.slots.setPassenger rfl rfl rfl (by simp [hpc]) (by simp))
  · cases hs

theorem Occupancy.doPayment (hp : p < P.m) (h : Occupancy P s)
    (hs : s.doPayment p = some s') : Occupancy P s' := by
  unfold State.doPayment at hs
  split at hs
  · rename_i i status hpc
    cases hs
    have hslots := h.slots
    refine h.of_quiet (p := p) rfl ?_ ?_ (fun _ => rfl) ?_
    · intro q slot _ hw
      have hne : slot ≠ s.currentEmptyPaySlot := by
        have := hslots.used q slot hw
        omega
      simp [State.setPassenger, hne]
    · simp [riderCab, State.setPassenger, hpc]
    · refine hslots.doPayment hp (by simp [hpc]) rfl ?_ rfl
      intro k hk
      simp [State.setPassenger, hk]
  · cases hs

theorem Occupancy.waitForPayment (h : Occupancy P s)
    (hs : s.waitForPayment p = some s') : Occupancy P s' := by
  unfold State.waitForPayment at hs
  split at hs
  · rename_i slot hpc
    split at hs
    · cases hs
    · rename_i hpaid
      cases hs
      have hslots := h.slots
      refine h.of_quiet (p := p) rfl (fun _ _ _ _ => rfl) ?_ (fun _ => rfl) ?_
      · simp [riderCab, State.setPassenger, hpc, hpaid]
      · -- the slot is paid, so nobody needs `p` as its owner
        refine { owner := ?_, unique := ?_, used := ?_, fresh := hslots.fresh }
        · intro i hi
          obtain ⟨q, hq, hw⟩ := hslots.owner i hi
          refine ⟨q, hq, ?_⟩
          have hqp : q ≠ p := by
            rintro rfl
            rw [hpc, Passenger.waiting.injEq] at hw
            subst hw
            exact hpaid hi
          simp [State.setPassenger, hqp, hw]
        · intro q r i hq hr
          have hback : ∀ q, (s.setPassenger p .left).passenger q = .waiting i →
              s.passenger q = .waiting i := by
            intro q hq
            by_cases hqp : q = p
            · subst hqp; simp [State.setPassenger] at hq
            · simpa [State.setPassenger, hqp] using hq
          exact hslots.unique q r i (hback q hq) (hback r hr)
        · intro q i hq
          by_cases hqp : q = p
          · subst hqp; simp [State.setPassenger] at hq
          · exact hslots.used q i (by simpa [State.setPassenger, hqp] using hq)
  · cases hs

theorem Occupancy.serveSlot {i : Nat} (h : Occupancy P s)
    (hc : (s.pay i).paymentStatus = true →
      afterPayment (s.cabs (s.pay i).cabNumber).rideStatus =
        some (s.pay i).reduceStatusTo) :
    Occupancy P (s.serveSlot i) := by
  unfold State.serveSlot
  split
  case isFalse => exact h
  rename_i hpay
  obtain ⟨p, hp, hw⟩ := h.slots.owner i hpay
  have hnext := hc hpay
  have hslots := h.slots
  refine
    { describes := ?_
      slots :=
        { owner := ?_, unique := hslots.unique, used := hslots.used, fresh := ?_ } }
  · refine describes_of_leaving (i := (s.pay i).cabNumber) hp h.describes ?_ ?_ ?_ ?_ ?_
    · intro q hq
      refine riderCab_congr rfl fun slot hwq => ?_
      have hne : slot ≠ i := by
        rintro rfl
        exact hq (hslots.unique q p slot hwq hw)
      simp [hne]
    · simp [riderCab, hw, hpay]
    · simp [riderCab, hw]
    · intro k hk; simp [hk]
    · simpa using hnext
  · intro k hk
    by_cases hki : k = i
    · subst hki; simp at hk
    · exact hslots.owner k (by simpa [hki] using hk)
  · intro k hk
    by_cases hki : k = i
    · subst hki; simp
    · simpa [hki] using hslots.fresh k hk

theorem Occupancy.serverInAction (h : Occupancy P s)
    (hc : Careful P s (.serverInAction j)) (hs : s.serverInAction j = some s') :
    Occupancy P s' := by
  unfold State.serverInAction at hs
  split at hs
  · rename_i i hi
    split at hs
    · cases hs
      exact ⟨fun k => (h.describes k).of_agree (fun _ => rfl) rfl,
        ⟨h.slots.owner, h.slots.unique, h.slots.used, h.slots.fresh⟩⟩
    · rename_i hleft
      cases hs
      have hserved := h.serveSlot (hc i hi (by omega))
      exact ⟨fun k => (hserved.describes k).of_agree (fun _ => rfl) rfl,
        ⟨hserved.slots.owner, hserved.slots.unique, hserved.slots.used,
          hserved.slots.fresh⟩⟩
  · cases hs

/-- A careful step of any thread keeps the relation. -/
theorem Occupancy.step {a : Act} (h : Occupancy P s) (hc : Careful P s a)
    (hs : step P s a = some s') : Occupancy P s' := by
  cases a <;> simp only [CabRides.step] at hs <;> split at hs <;>
    first
      | cases hs
      | rename_i hlt
  case takeCab => exact h.takeCab hlt hc hs
  case giveUp => exact h.giveUp hs
  case releaseCab => exact h.releaseCab hs
  case endRide => exact h.endRide hs
  case doPayment => exact h.doPayment hlt hs
  case waitForPayment => exact h.waitForPayment hs
  case serverInAction => exact h.serverInAction hc hs

end Steps

/-! ## Occupancy along runs -/

/-- In every run of careful steps, with any number of cabs, passengers and
servers and in any order, the status of every cab describes its riders in every
state reached. -/
theorem careful_describes (P : Params) {s : State}
    (h : (service P).ReachableWhen (Careful P) s) (i : Nat) : Describes P s i := by
  have hinv : Occupancy P s := h.invariant
    (fun _ h0 => h0 ▸ occupancy_start P) (fun _ _ _ hs hc hstep => hs.step hc hstep)
  exact hinv.describes i

/-- One pool ride from the booking to the payment is a careful run. -/
theorem careful_describes_paidRide :
    ∃ s, (service ⟨2, 4, 1⟩).ReachableWhen (Careful ⟨2, 4, 1⟩) s ∧
      s.totalPassengersLeft = 3 ∧ Describes ⟨2, 4, 1⟩ s 0 := by
  obtain ⟨s, hs, hleft⟩ := System.exists_reachableWhen_of_run
    (M := service ⟨2, 4, 1⟩) (Careful ⟨2, 4, 1⟩)
    (l := [.takeCab 1, .releaseCab 1, .endRide 1, .doPayment 1, .serverInAction 0])
    (p := fun s => s.totalPassengersLeft == 3) rfl (by decide)
  exact ⟨s, hs, by simpa using hleft, careful_describes _ hs 0⟩

/-- Two pool passengers and two cabs: the first passenger opens cab 0; the
second joins it, goes on to the second loop and takes cab 1. -/
def doubleBooking : List Act := [.takeCab 1, .releaseCab 1, .takeCab 3]

/-- After `doubleBooking` cab 0 counts as full although one passenger rides in
it. -/
theorem not_all_describe :
    ¬ ∀ (P : Params) (s : State), (service P).Reachable s → ∀ i, Describes P s i := by
  intro hall
  obtain ⟨s, hs, hd⟩ := System.exists_reachable_of_run (M := service ⟨2, 4, 1⟩)
    (l := doubleBooking) (p := fun s => !decide (Describes ⟨2, 4, 1⟩ s 0)) rfl
    (by decide)
  simp only [Bool.not_eq_eq_eq_not, Bool.not_true, decide_eq_false_iff_not] at hd
  exact hd (hall ⟨2, 4, 1⟩ s hs 0)

end OsWork.Ports.CabRides

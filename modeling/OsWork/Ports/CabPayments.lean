import OsWork.Ports.CabRides

/-!
# The payments of `ass4/Q3/main.c`, one access at a time

The same program as in `CabRides`, with the critical sections taken apart: a
step is one read or one write of a field of `pay`, of a cab's status or of
`total_passengers_left`.  `total_passengers_left--` is a read and a write with
a gap between them, wherever it stands.

The search of `take_cab` looks at one cab or books one cab in a step, with
`mutex_for_passenger_cab` held; the servers change statuses under it.

`current_empty_pay_slot` is accessed under `mutex_for_payment` only, so the
stores of `do_payment` read it in the same step.  `pay` has 500 slots in the
source and no check of the counter; here a call past them gets a slot that no
server scans.  As in `CabRides`, the results are about the program for at most
100 cabs, passengers and servers.

## Main results

* `Slots` — the invariant of the payment slots: every slot is handed out once,
  and a slot that is pending or in the hands of a server is some passenger's.
* `Slots.start`, `Slots.step` — it holds along every run.
-/

namespace OsWork.Ports.CabPayments

open OsWork.Verified.Transition
open OsWork.Ports.CabRides (Cab Params Pay RideStatus book reduceStatusTo rideType waitTime)

/-! ## Where the threads stand -/

/-- Where the search of `take_cab` stands; `t` is `time_to_wait`. -/
inductive Search
  /-- the premier search comes to cab `i` -/
  | premier (i t : Nat)
  /-- the first loop of the pool search, over the half-full cabs -/
  | half (i t : Nat)
  /-- cab `i` gets its second passenger -/
  | fill (i t : Nat)
  /-- the second loop, over the waiting cabs; `found` is `cab_found` -/
  | wait (i t : Nat) (found : Option Nat)
  /-- cab `i` leaves the stand -/
  | take (i : Nat) (status : RideStatus)
  /-- `pthread_mutex_unlock` -/
  | unlock (found : Option Nat)
  deriving DecidableEq, Repr

/-- The next access of a passenger. -/
inductive Passenger
  /-- `take_cab`: `pthread_mutex_lock` -/
  | arriving
  | searching (pc : Search)
  /-- no cab was found: about to read `total_passengers_left` -/
  | givingUp
  /-- about to write back one less than what was read -/
  | giveUpWrite (v : Int)
  | gone
  /-- `c[cab_found].lock = 0` comes next -/
  | booked (cab : Nat)
  | riding (cab : Nat)
  /-- the argument `c[cab].ride_status` has been read; `do_payment`:
  `pthread_mutex_lock` -/
  | paying (cab : Nat) (status : RideStatus)
  /-- `pay[current_empty_pay_slot].payment_status = 1` -/
  | storeStatus (cab : Nat) (status : RideStatus)
  /-- `pay[current_empty_pay_slot].cab_number = cab_number` -/
  | storeCab (cab : Nat) (status : RideStatus)
  /-- `pay[current_empty_pay_slot].reduce_status_to = …` -/
  | storeReduce (cab : Nat) (status : RideStatus)
  /-- `current_empty_pay_slot++` and `cab_slot` -/
  | takeSlot (cab : Nat)
  | unlock (slot : Nat)
  /-- `wait_for_payment(slot)` -/
  | waiting (slot : Nat)
  | paid (slot : Nat)
  deriving DecidableEq, Repr

/-- The next access of a payment server in `server_in_action`. -/
inductive Server
  /-- `if (total_passengers_left <= 0)` -/
  | test (i : Nat)
  | lockMutex (i : Nat)
  /-- `if (pay[i].payment_status == 1)` -/
  | readStatus (i : Nat)
  /-- the two reads and the write of
  `c[pay[i].cab_number].ride_status = pay[i].reduce_status_to` -/
  | readCab (i : Nat)
  | readReduce (i cab : Nat)
  | writeCab (i cab : Nat) (status : RideStatus)
  /-- `pay[i].payment_status = 0` -/
  | clear (i cab : Nat) (status : RideStatus)
  /-- `total_passengers_left -= 1` -/
  | readLeft (i : Nat)
  | writeLeft (i : Nat) (v : Int)
  | unlockMutex (i : Nat)
  | left
  deriving DecidableEq, Repr

/-- The globals and the position of every thread. -/
structure State where
  cabs : Nat → Cab
  totalPassengersLeft : Int
  pay : Nat → Pay
  currentEmptyPaySlot : Nat
  mutexForPassengerCab : Option Nat
  mutexForPayment : Option Nat
  mutexForPaymentServer : Option Nat
  passenger : Nat → Passenger
  server : Nat → Server

/-- The state in which `main` starts the threads. -/
def start (P : Params) : State where
  cabs := fun _ => { lock := false, rideStatus := .waitState }
  totalPassengersLeft := P.m
  pay := fun _ =>
    { cabNumber := 0, reduceStatusTo := .waitState, paymentStatus := false }
  currentEmptyPaySlot := 0
  mutexForPassengerCab := none
  mutexForPayment := none
  mutexForPaymentServer := none
  passenger := fun _ => .arriving
  server := fun _ => .test 0

/-- The thread that moves. -/
inductive Act
  /-- passenger `p` in the search of `take_cab` -/
  | takeCab (p : Nat)
  /-- passenger `p` after the search -/
  | passenger (p : Nat)
  | server (j : Nat)
  deriving DecidableEq, Repr

namespace State

variable (s : State)

/-- Passenger `p` moves on to `pc`. -/
def passengerAt (p : Nat) (pc : Passenger) : State :=
  { s with passenger := Function.update s.passenger p pc }

/-- Server `j` moves on to `pc`. -/
def serverAt (j : Nat) (pc : Server) : State :=
  { s with server := Function.update s.server j pc }

/-- A write to a field of `pay[i]`. -/
def setPay (i : Nat) (f : Pay → Pay) : State :=
  { s with pay := Function.update s.pay i (f (s.pay i)) }

/-- `c[i].lock == 0` and `c[i].ride_status == status`. -/
def free (i : Nat) (status : RideStatus) : Bool :=
  !(s.cabs i).lock && (s.cabs i).rideStatus == status

/-- The test of the outer loop of the pool search. -/
def poolRound : Nat → Search
  | 0 => .unlock none
  | t + 1 => .half 0 t

/-- The search of `take_cab`; with no cab at all the premier search divides by zero and
the program dies. -/
def takeCab (P : Params) (p : Nat) : Option State :=
  match s.passenger p with
  | .arriving =>
      if s.mutexForPassengerCab = none then
        some ({ s with mutexForPassengerCab := some p }.passengerAt p
          (.searching (match rideType p with
            | .pool => poolRound waitTime
            | .premier => .premier 0 waitTime)))
      else none
  | .searching (.premier _ 0) => some (s.passengerAt p (.searching (.unlock none)))
  | .searching (.premier i (t + 1)) =>
      if s.free i .waitState then some (s.passengerAt p (.searching (.take i .onRidePremier)))
      else if P.n = 0 then none
      else some (s.passengerAt p (.searching (.premier ((i + 1) % P.n) t)))
  | .searching (.half i t) =>
      if i < P.n then
        if s.free i .onRidePoolHalf then some (s.passengerAt p (.searching (.fill i t)))
        else some (s.passengerAt p (.searching (.half (i + 1) t)))
      else some (s.passengerAt p (.searching (.wait 0 t none)))
  | .searching (.fill i t) =>
      some ({ s with cabs := book s.cabs i .onRidePoolFull }.passengerAt p
        (.searching (.wait 0 t (some i))))
  | .searching (.wait i t found) =>
      if i < P.n then
        if s.free i .waitState then
          some (s.passengerAt p (.searching (.take i .onRidePoolHalf)))
        else some (s.passengerAt p (.searching (.wait (i + 1) t found)))
      else
        match found with
        | some j => some (s.passengerAt p (.searching (.unlock (some j))))
        | none => some (s.passengerAt p (.searching (poolRound t)))
  | .searching (.take i status) =>
      some ({ s with cabs := book s.cabs i status }.passengerAt p
        (.searching (.unlock (some i))))
  | .searching (.unlock (some i)) =>
      some ({ s with mutexForPassengerCab := none }.passengerAt p (.booked i))
  | .searching (.unlock none) =>
      some ({ s with mutexForPassengerCab := none }.passengerAt p .givingUp)
  | _ => none

/-- `take_cab` after the search, `do_payment` and `wait_for_payment`. -/
def stepPassenger (p : Nat) : Option State :=
  match s.passenger p with
  | .arriving => none
  | .searching _ => none
  | .givingUp => some (s.passengerAt p (.giveUpWrite s.totalPassengersLeft))
  | .giveUpWrite v =>
      some ({ s with totalPassengersLeft := v - 1 }.passengerAt p .gone)
  | .gone => none
  | .booked i =>
      some ({ s with
        cabs := Function.update s.cabs i { s.cabs i with lock := false } }.passengerAt p
          (.riding i))
  | .riding i => some (s.passengerAt p (.paying i (s.cabs i).rideStatus))
  | .paying i status =>
      if s.mutexForPayment = none then
        some ({ s with mutexForPayment := some p }.passengerAt p (.storeStatus i status))
      else none
  | .storeStatus i status =>
      some ((s.setPay s.currentEmptyPaySlot fun y =>
        { y with paymentStatus := true }).passengerAt p (.storeCab i status))
  | .storeCab i status =>
      some ((s.setPay s.currentEmptyPaySlot fun y =>
        { y with cabNumber := i }).passengerAt p (.storeReduce i status))
  | .storeReduce i status =>
      some ((s.setPay s.currentEmptyPaySlot fun y =>
        { y with reduceStatusTo := reduceStatusTo status y.reduceStatusTo }).passengerAt p
          (.takeSlot i))
  | .takeSlot _ =>
      some ({ s with currentEmptyPaySlot := s.currentEmptyPaySlot + 1 }.passengerAt p
        (.unlock s.currentEmptyPaySlot))
  | .unlock slot =>
      some ({ s with mutexForPayment := none }.passengerAt p (.waiting slot))
  | .waiting slot =>
      if (s.pay slot).paymentStatus then none else some (s.passengerAt p (.paid slot))
  | .paid _ => none

/-- `server_in_action`. -/
def stepServer (j : Nat) : Option State :=
  match s.server j with
  | .test i =>
      some (s.serverAt j (if s.totalPassengersLeft ≤ 0 then .left else .lockMutex i))
  | .lockMutex i =>
      if s.mutexForPaymentServer = none then
        some ({ s with mutexForPaymentServer := some j }.serverAt j (.readStatus i))
      else none
  | .readStatus i =>
      some (s.serverAt j
        (if (s.pay i).paymentStatus then .readCab i else .unlockMutex i))
  | .readCab i => some (s.serverAt j (.readReduce i (s.pay i).cabNumber))
  | .readReduce i cab =>
      some (s.serverAt j (.writeCab i cab (s.pay i).reduceStatusTo))
  | .writeCab i cab status =>
      some ({ s with
        cabs := Function.update s.cabs cab
          { s.cabs cab with rideStatus := status } }.serverAt j (.clear i cab status))
  | .clear i _ _ =>
      some ((s.setPay i fun y => { y with paymentStatus := false }).serverAt j
        (.readLeft i))
  | .readLeft i => some (s.serverAt j (.writeLeft i s.totalPassengersLeft))
  | .writeLeft i v =>
      some ({ s with totalPassengersLeft := v - 1 }.serverAt j (.unlockMutex i))
  | .unlockMutex i =>
      some ({ s with mutexForPaymentServer := none }.serverAt j (.test ((i + 1) % 500)))
  | .left => none

end State

/-- One access of one thread. -/
def step (P : Params) (s : State) : Act → Option State
  | .takeCab p => if p < P.m then s.takeCab P p else none
  | .passenger p => if p < P.m then s.stepPassenger p else none
  | .server j => if j < P.k then s.stepServer j else none

/-- The cab service with `P.n` cabs, `P.m` passengers and `P.k` payment servers. -/
def service (P : Params) : System State Act where
  init s := s = start P
  step := step P

/-! ## Slots

`slotOf` is the slot a call of `do_payment` writes to, from its first store on.
-/

/-- The passenger is past the first store of `do_payment`, before the slot
counter moves on. -/
def Passenger.Storing : Passenger → Prop
  | .storeCab _ _ | .storeReduce _ _ | .takeSlot _ => True
  | _ => False

/-- The passenger holds `mutex_for_payment`. -/
def Passenger.Inside : Passenger → Prop
  | .storeStatus _ _ | .storeCab _ _ | .storeReduce _ _ | .takeSlot _ | .unlock _ => True
  | _ => False

instance (pc : Passenger) : Decidable pc.Storing := by
  cases pc <;> unfold Passenger.Storing <;> infer_instance

/-- The passenger's call has stored `cab_number`. -/
def Passenger.CabStored : Passenger → Prop
  | .storeReduce _ _ | .takeSlot _ | .unlock _ | .waiting _ | .paid _ => True
  | _ => False

/-- The passenger's call has stored both fields. -/
def Passenger.Stored : Passenger → Prop
  | .takeSlot _ | .unlock _ | .waiting _ | .paid _ => True
  | _ => False

instance (pc : Passenger) : Decidable pc.CabStored := by
  cases pc <;> unfold Passenger.CabStored <;> infer_instance

instance (pc : Passenger) : Decidable pc.Stored := by
  cases pc <;> unfold Passenger.Stored <;> infer_instance

/-- A call finds a slot in the array. -/
def Passenger.HasRoom (s : State) : Passenger → Prop
  | .storeStatus _ _ => s.currentEmptyPaySlot < 500
  | _ => True

instance (s : State) (pc : Passenger) : Decidable (pc.HasRoom s) := by
  cases pc <;> unfold Passenger.HasRoom <;> infer_instance

/-- The slot of the passenger's call of `do_payment`. -/
def slotOf (s : State) (p : Nat) : Option Nat :=
  match s.passenger p with
  | .storeCab _ _ | .storeReduce _ _ | .takeSlot _ => some s.currentEmptyPaySlot
  | .unlock slot | .waiting slot | .paid slot => some slot
  | _ => none

/-- The slot a server has found pending and not yet cleared. -/
def Server.serving : Server → Option Nat
  | .readCab i | .readReduce i _ | .writeCab i _ _ | .clear i _ _ => some i
  | _ => none

/-- The slot a server has cleared and not yet counted. -/
def Server.counting : Server → Option Nat
  | .readLeft i | .writeLeft i _ => some i
  | _ => none

/-- The server holds `mutex_for_payment_server`. -/
def Server.Inside : Server → Prop
  | .test _ | .lockMutex _ | .left => False
  | _ => True

/-- The invariant of the slots. -/
structure Slots (P : Params) (s : State) : Prop where
  inside : ∀ p, (s.passenger p).Inside → s.mutexForPayment = some p
  serverInside : ∀ j, (s.server j).Inside → s.mutexForPaymentServer = some j
  absent : ∀ p, P.m ≤ p → s.passenger p = .arriving
  used : ∀ p slot, slotOf s p = some slot →
    slot < s.currentEmptyPaySlot ∨ (s.passenger p).Storing ∧ slot = s.currentEmptyPaySlot
  distinct : ∀ p q slot, slotOf s p = some slot → slotOf s q = some slot → p = q
  pending : ∀ i, (s.pay i).paymentStatus = true → ∃ p, slotOf s p = some i
  serving : ∀ j i, (s.server j).serving = some i → (s.pay i).paymentStatus = true
  counting : ∀ j i, (s.server j).counting = some i →
    (s.pay i).paymentStatus = false ∧ ∃ p, slotOf s p = some i

theorem Slots.start (P : Params) : Slots P (start P) where
  inside p h := h.elim
  serverInside j h := h.elim
  absent p _ := rfl
  used p slot h := by simp [slotOf, CabPayments.start] at h
  distinct p q slot h := by simp [slotOf, CabPayments.start] at h
  pending i h := by simp [CabPayments.start] at h
  serving j i h := by simp [Server.serving, CabPayments.start] at h
  counting j i h := by simp [Server.counting, CabPayments.start] at h

section Steps

variable {P : Params} {s t : State} {p q j : Nat}

/-- The slot of another passenger does not depend on where `p` stands. -/
theorem slotOf_congr (hq : t.passenger q = s.passenger q)
    (hcur : t.currentEmptyPaySlot = s.currentEmptyPaySlot) : slotOf t q = slotOf s q := by
  unfold slotOf
  rw [hq, hcur]

theorem Passenger.Storing.inside {pc : Passenger} (h : pc.Storing) : pc.Inside := by
  cases pc <;> first | exact h.elim | trivial

/-- A passenger moves and keeps his slot. -/
theorem Slots.move (hI : Slots P s) {pc : Passenger} (hp : p < P.m)
    (hpass : t.passenger = Function.update s.passenger p pc)
    (hpay : ∀ i, (t.pay i).paymentStatus = (s.pay i).paymentStatus)
    (hcur : t.currentEmptyPaySlot = s.currentEmptyPaySlot)
    (hmutex : t.mutexForPayment = s.mutexForPayment)
    (hmutex' : t.mutexForPaymentServer = s.mutexForPaymentServer)
    (hserver : t.server = s.server)
    (hinside : pc.Inside → (s.passenger p).Inside)
    (hstoring : (s.passenger p).Storing → pc.Storing)
    (hslot : slotOf t p = slotOf s p) : Slots P t := by
  have hself : t.passenger p = pc := by rw [hpass, Function.update_self]
  have hother : ∀ q, q ≠ p → t.passenger q = s.passenger q := by
    intro q hq
    rw [hpass, Function.update_of_ne hq]
  have hslots : ∀ q, slotOf t q = slotOf s q := by
    intro q
    by_cases hq : q = p
    · rw [hq, hslot]
    · exact slotOf_congr (hother q hq) hcur
  exact
    { inside := by
        intro q h
        rw [hmutex]
        by_cases hq : q = p
        · subst hq
          rw [hself] at h
          exact hI.inside q (hinside h)
        · rw [hother q hq] at h
          exact hI.inside q h
      serverInside := by
        intro j h
        rw [hserver] at h
        exact hmutex'.trans (hI.serverInside j h)
      absent := by
        intro q hq
        have hne : q ≠ p := by omega
        rw [hother q hne]
        exact hI.absent q hq
      used := by
        intro q slot h
        rw [hslots] at h
        rw [hcur]
        rcases hI.used q slot h with hlt | ⟨hst, heq⟩
        · exact .inl hlt
        · refine .inr ⟨?_, heq⟩
          by_cases hq : q = p
          · subst hq
            rw [hself]
            exact hstoring hst
          · rw [hother q hq]
            exact hst
      distinct := by
        intro q q' slot h h'
        rw [hslots] at h h'
        exact hI.distinct q q' slot h h'
      pending := by
        intro i h
        rw [hpay] at h
        obtain ⟨q, hq⟩ := hI.pending i h
        exact ⟨q, (hslots q).trans hq⟩
      serving := by
        intro j i h
        rw [hserver] at h
        rw [hpay]
        exact hI.serving j i h
      counting := by
        intro j i h
        rw [hserver] at h
        rw [hpay]
        obtain ⟨hst, q, hq⟩ := hI.counting j i h
        exact ⟨hst, q, (hslots q).trans hq⟩ }

/-- `pthread_mutex_lock(&mutex_for_payment)`. -/
theorem Slots.lock (hI : Slots P s) {i : Nat} {status : RideStatus} (hp : p < P.m)
    (hpc : s.passenger p = .paying i status) (hfree : s.mutexForPayment = none) :
    Slots P ({ s with mutexForPayment := some p }.passengerAt p (.storeStatus i status)) := by
  have hnone : ∀ q, ¬ (s.passenger q).Inside := by
    intro q h
    have hmutex := hI.inside q h
    rw [hfree] at hmutex
    exact absurd hmutex (by simp)
  have hslots : ∀ q, slotOf ({ s with mutexForPayment := some p }.passengerAt p
      (.storeStatus i status)) q = slotOf s q := by
    intro q
    by_cases hq : q = p
    · subst hq
      simp [slotOf, State.passengerAt, hpc]
    · exact slotOf_congr (by simp [State.passengerAt, hq]) rfl
  exact
    { inside := by
        intro q h
        simp only [State.passengerAt, Function.update_apply] at h ⊢
        split at h
        · rename_i hq
          rw [hq]
        · exact absurd h (hnone q)
      serverInside := hI.serverInside
      absent := by
        intro q hq
        have hne : q ≠ p := by omega
        simpa [State.passengerAt, hne] using hI.absent q hq
      used := by
        intro q slot h
        rw [hslots] at h
        rcases hI.used q slot h with hlt | ⟨hst, -⟩
        · exact .inl hlt
        · exact absurd hst.inside (hnone q)
      distinct := by
        intro q q' slot h h'
        rw [hslots] at h h'
        exact hI.distinct q q' slot h h'
      pending := by
        intro i' h
        obtain ⟨q, hq⟩ := hI.pending i' h
        exact ⟨q, (hslots q).trans hq⟩
      serving := hI.serving
      counting := by
        intro j i' h
        obtain ⟨hst, q, hq⟩ := hI.counting j i' h
        exact ⟨hst, q, (hslots q).trans hq⟩ }

/-- The first store of `do_payment`: the slot is in use from here on. -/
theorem Slots.storeStatus (hI : Slots P s) {i : Nat} {status : RideStatus} (hp : p < P.m)
    (hpc : s.passenger p = .storeStatus i status) :
    Slots P ((s.setPay s.currentEmptyPaySlot fun y =>
      { y with paymentStatus := true }).passengerAt p (.storeCab i status)) := by
  have hmine : s.mutexForPayment = some p := hI.inside p (by rw [hpc]; trivial)
  have honly : ∀ q, (s.passenger q).Inside → q = p := by
    intro q h
    exact Option.some.inj ((hI.inside q h).symm.trans hmine)
  have hbelow : ∀ q slot, q ≠ p → slotOf s q = some slot →
      slot < s.currentEmptyPaySlot := by
    intro q slot hq h
    rcases hI.used q slot h with hlt | ⟨hst, -⟩
    · exact hlt
    · exact absurd (honly q hst.inside) hq
  have hnew : slotOf ((s.setPay s.currentEmptyPaySlot fun y =>
      { y with paymentStatus := true }).passengerAt p (.storeCab i status)) p =
        some s.currentEmptyPaySlot := by
    simp [slotOf, State.passengerAt, State.setPay]
  have hothers : ∀ q, q ≠ p → slotOf ((s.setPay s.currentEmptyPaySlot fun y =>
      { y with paymentStatus := true }).passengerAt p (.storeCab i status)) q =
        slotOf s q := by
    intro q hq
    exact slotOf_congr (by simp [State.passengerAt, State.setPay, hq]) rfl
  have hold : slotOf s p = none := by
    simp [slotOf, hpc]
  have hne : ∀ q slot, slotOf s q = some slot → q ≠ p := by
    rintro q slot h rfl
    exact absurd (hold.symm.trans h) (by simp)
  exact
    { inside := by
        intro q h
        by_cases hq : q = p
        · rw [hq]
          exact hmine
        · rw [show (State.passengerAt _ p _).passenger q = s.passenger q by
            simp [State.passengerAt, State.setPay, hq]] at h
          exact hI.inside q h
      serverInside := hI.serverInside
      absent := by
        intro q hq
        have hqp : q ≠ p := by omega
        simpa [State.passengerAt, State.setPay, hqp] using hI.absent q hq
      used := by
        intro q slot h
        by_cases hq : q = p
        · subst hq
          rw [hnew] at h
          refine .inr ⟨?_, (Option.some.inj h).symm⟩
          simp [State.passengerAt, Passenger.Storing]
        · rw [hothers q hq] at h
          exact .inl (hbelow q slot hq h)
      distinct := by
        intro q q' slot h h'
        by_cases hq : q = p
        · subst hq
          by_cases hq' : q' = q
          · exact hq'.symm
          · rw [hnew] at h
            rw [hothers q' hq'] at h'
            have hlt := hbelow q' slot hq' h'
            have heq := Option.some.inj h
            omega
        · rw [hothers q hq] at h
          by_cases hq' : q' = p
          · subst hq'
            rw [hnew] at h'
            have hlt := hbelow q slot hq h
            have heq := Option.some.inj h'
            omega
          · rw [hothers q' hq'] at h'
            exact hI.distinct q q' slot h h'
      pending := by
        intro i' h
        by_cases hi : i' = s.currentEmptyPaySlot
        · exact ⟨p, hi ▸ hnew⟩
        · have hst : (s.pay i').paymentStatus = true := by
            simpa [State.passengerAt, State.setPay, hi] using h
          obtain ⟨q, hq⟩ := hI.pending i' hst
          exact ⟨q, (hothers q (hne q i' hq)).trans hq⟩
      serving := by
        intro j i' h
        have hst := hI.serving j i' h
        by_cases hi : i' = s.currentEmptyPaySlot
        · subst hi
          simp [State.passengerAt, State.setPay]
        · simpa [State.passengerAt, State.setPay, hi] using hst
      counting := by
        intro j i' h
        obtain ⟨hst, q, hq⟩ := hI.counting j i' h
        have hqp := hne q i' hq
        have hi : i' ≠ s.currentEmptyPaySlot := by
          have hlt := hbelow q i' hqp hq
          omega
        refine ⟨?_, q, (hothers q hqp).trans hq⟩
        simpa [State.passengerAt, State.setPay, hi] using hst }

/-- `current_empty_pay_slot++` is the step of the only caller inside, who keeps the
slot he has written. -/
theorem Slots.slotOf_takeSlot (hI : Slots P s) {i : Nat}
    (hpc : s.passenger p = .takeSlot i) (q : Nat) :
    slotOf ({ s with currentEmptyPaySlot := s.currentEmptyPaySlot + 1 }.passengerAt p
      (.unlock s.currentEmptyPaySlot)) q = slotOf s q := by
  have hmine : s.mutexForPayment = some p := hI.inside p (by rw [hpc]; trivial)
  by_cases hq : q = p
  · subst hq
    simp [slotOf, State.passengerAt, hpc]
  · have hout : ¬ (s.passenger q).Inside := by
      intro h
      exact hq (Option.some.inj ((hI.inside q h).symm.trans hmine))
    unfold slotOf
    rw [show (State.passengerAt _ p _).passenger q = s.passenger q by
      simp [State.passengerAt, hq]]
    split <;> first | rfl | (rename_i hpq; rw [hpq] at hout; exact absurd trivial hout)

/-- `current_empty_pay_slot++`: the caller keeps the slot it has written. -/
theorem Slots.takeSlot (hI : Slots P s) {i : Nat} (hp : p < P.m)
    (hpc : s.passenger p = .takeSlot i) :
    Slots P ({ s with currentEmptyPaySlot := s.currentEmptyPaySlot + 1 }.passengerAt p
      (.unlock s.currentEmptyPaySlot)) := by
  have hmine : s.mutexForPayment = some p := hI.inside p (by rw [hpc]; trivial)
  have hslots := hI.slotOf_takeSlot hpc
  exact
    { inside := by
        intro q h
        by_cases hq : q = p
        · rw [hq]
          exact hmine
        · rw [show (State.passengerAt _ p _).passenger q = s.passenger q by
            simp [State.passengerAt, hq]] at h
          exact hI.inside q h
      serverInside := hI.serverInside
      absent := by
        intro q hq
        have hqp : q ≠ p := by omega
        simpa [State.passengerAt, hqp] using hI.absent q hq
      used := by
        intro q slot h
        rw [hslots] at h
        rcases hI.used q slot h with hlt | ⟨-, heq⟩
        · exact .inl (Nat.lt_succ_of_lt hlt)
        · exact .inl (heq ▸ Nat.lt_succ_self _)
      distinct := by
        intro q q' slot h h'
        rw [hslots] at h h'
        exact hI.distinct q q' slot h h'
      pending := by
        intro i' h
        obtain ⟨q, hq⟩ := hI.pending i' h
        exact ⟨q, (hslots q).trans hq⟩
      serving := hI.serving
      counting := by
        intro j i' h
        obtain ⟨hst, q, hq⟩ := hI.counting j i' h
        exact ⟨hst, q, (hslots q).trans hq⟩ }

/-- `pthread_mutex_unlock(&mutex_for_payment)`. -/
theorem Slots.unlock (hI : Slots P s) {slot : Nat} (hp : p < P.m)
    (hpc : s.passenger p = .unlock slot) :
    Slots P ({ s with mutexForPayment := none }.passengerAt p (.waiting slot)) := by
  have hmine : s.mutexForPayment = some p := hI.inside p (by rw [hpc]; trivial)
  have hmove : Slots P (s.passengerAt p (.waiting slot)) :=
    hI.move hp rfl (fun _ => rfl) rfl rfl rfl rfl (fun h => h.elim)
      (by rw [hpc]; exact fun h => h.elim) (by simp [slotOf, State.passengerAt, hpc])
  exact
    { hmove with
      inside := by
        intro q h
        have hq := hmove.inside q h
        have hqp : q = p := Option.some.inj (hq.symm.trans hmine)
        subst hqp
        simp [State.passengerAt, Passenger.Inside] at h }

/-- A server moves without touching a slot. -/
theorem Slots.moveServer (hI : Slots P s) {pc : Server}
    (hserver : t.server = Function.update s.server j pc)
    (hpass : t.passenger = s.passenger) (hpay : t.pay = s.pay)
    (hcur : t.currentEmptyPaySlot = s.currentEmptyPaySlot)
    (hmutex : t.mutexForPayment = s.mutexForPayment)
    (hinside : ∀ j', (t.server j').Inside → t.mutexForPaymentServer = some j')
    (hserving : ∀ i, pc.serving = some i → (s.pay i).paymentStatus = true)
    (hcounting : ∀ i, pc.counting = some i →
      (s.pay i).paymentStatus = false ∧ ∃ p, slotOf s p = some i) : Slots P t := by
  have hslots : ∀ q, slotOf t q = slotOf s q :=
    fun q => slotOf_congr (congrFun hpass q) hcur
  exact
    { inside := by
        intro q h
        rw [hpass] at h
        exact hmutex.trans (hI.inside q h)
      serverInside := hinside
      absent := by
        intro q hq
        rw [hpass]
        exact hI.absent q hq
      used := by
        intro q slot h
        rw [hslots] at h
        rw [hcur, hpass]
        exact hI.used q slot h
      distinct := by
        intro q q' slot h h'
        rw [hslots] at h h'
        exact hI.distinct q q' slot h h'
      pending := by
        intro i h
        rw [hpay] at h
        obtain ⟨q, hq⟩ := hI.pending i h
        exact ⟨q, (hslots q).trans hq⟩
      serving := by
        intro j' i h
        rw [hserver, Function.update_apply] at h
        rw [hpay]
        split at h
        · exact hserving i h
        · exact hI.serving j' i h
      counting := by
        intro j' i h
        rw [hserver, Function.update_apply] at h
        rw [hpay]
        have hfound : (s.pay i).paymentStatus = false ∧ ∃ p, slotOf s p = some i := by
          split at h
          · exact hcounting i h
          · exact hI.counting j' i h
        obtain ⟨hst, q, hq⟩ := hfound
        exact ⟨hst, q, (hslots q).trans hq⟩ }

/-- A server that stays on its side of the mutex stays within the invariant. -/
theorem Slots.serverInside_update (hI : Slots P s) {pc : Server}
    (h : pc.Inside → (s.server j).Inside) (j' : Nat)
    (hj' : (Function.update s.server j pc j').Inside) :
    s.mutexForPaymentServer = some j' := by
  rw [Function.update_apply] at hj'
  split at hj'
  · rename_i heq
    rw [heq]
    exact hI.serverInside j (h hj')
  · exact hI.serverInside j' hj'

/-- Two servers are not both inside. -/
theorem Slots.server_unique (hI : Slots P s) {j' : Nat} (h : (s.server j).Inside)
    (h' : (s.server j').Inside) : j' = j :=
  Option.some.inj ((hI.serverInside j' h').symm.trans (hI.serverInside j h))

theorem Server.inside_of_serving {pc : Server} {i : Nat} (h : pc.serving = some i) :
    pc.Inside := by
  cases pc <;> trivial

theorem Server.inside_of_counting {pc : Server} {i : Nat} (h : pc.counting = some i) :
    pc.Inside := by
  cases pc <;> trivial

/-- `pay[i].payment_status = 0`. -/
theorem Slots.clear (hI : Slots P s) {i cab : Nat} {status : RideStatus}
    (hpc : s.server j = .clear i cab status) :
    Slots P ((s.setPay i fun y => { y with paymentStatus := false }).serverAt j
      (.readLeft i)) := by
  have hin : (s.server j).Inside := by rw [hpc]; trivial
  have hpend := hI.pending i (hI.serving j i (by rw [hpc]; rfl))
  have hslots : ∀ q, slotOf ((s.setPay i fun y =>
      { y with paymentStatus := false }).serverAt j (.readLeft i)) q = slotOf s q :=
    fun q => slotOf_congr rfl rfl
  exact
    { inside := hI.inside
      serverInside := hI.serverInside_update (fun _ => hin)
      absent := hI.absent
      used := by
        intro q slot h
        rw [hslots] at h
        exact hI.used q slot h
      distinct := by
        intro q q' slot h h'
        rw [hslots] at h h'
        exact hI.distinct q q' slot h h'
      pending := by
        intro i' h
        have hne : i' ≠ i := by
          rintro rfl
          simp [State.serverAt, State.setPay] at h
        have hst : (s.pay i').paymentStatus = true := by
          simpa [State.serverAt, State.setPay, hne] using h
        obtain ⟨q, hq⟩ := hI.pending i' hst
        exact ⟨q, (hslots q).trans hq⟩
      serving := by
        intro j' i' h
        simp only [State.serverAt, State.setPay, Function.update_apply] at h
        split at h
        · simp [Server.serving] at h
        · rename_i hne
          exact absurd (hI.server_unique hin (Server.inside_of_serving h)) hne
      counting := by
        intro j' i' h
        simp only [State.serverAt, State.setPay, Function.update_apply] at h
        split at h
        · obtain rfl : i = i' := by simpa [Server.counting] using h
          obtain ⟨q, hq⟩ := hpend
          exact ⟨by simp [State.serverAt, State.setPay], q, (hslots q).trans hq⟩
        · rename_i hne
          exact absurd (hI.server_unique hin (Server.inside_of_counting h)) hne }

/-! ## The invariant along a run -/

/-- The search of `take_cab` moves one passenger, who has no slot. -/
theorem takeCab_frame (hs : s.takeCab P p = some t) :
    ∃ pc, t.passenger = Function.update s.passenger p pc ∧
      (s.passenger p = .arriving ∨ ∃ q, s.passenger p = .searching q) ∧
      (pc = .givingUp ∨ (∃ i, pc = .booked i) ∨ ∃ q, pc = .searching q) ∧
      t.totalPassengersLeft = s.totalPassengersLeft ∧ t.pay = s.pay ∧
      t.currentEmptyPaySlot = s.currentEmptyPaySlot ∧ t.server = s.server ∧
      t.mutexForPaymentServer = s.mutexForPaymentServer ∧
      t.mutexForPayment = s.mutexForPayment := by
  have here : s.passenger p = .arriving ∨ ∃ q, s.passenger p = .searching q := by
    cases hpc : s.passenger p with
    | arriving => exact .inl rfl
    | searching q => exact .inr ⟨q, rfl⟩
    | _ => simp [State.takeCab, hpc] at hs
  unfold State.takeCab at hs
  split at hs <;> (try split at hs) <;> (try split at hs) <;> cases hs <;>
    exact ⟨_, rfl, here, by simp, rfl, rfl, rfl, rfl, rfl, rfl⟩

theorem Slots.takeCab (hI : Slots P s) (hp : p < P.m) (hs : s.takeCab P p = some t) :
    Slots P t := by
  obtain ⟨pc, hpass, harr, hpc, -, hpay, hcur, hserver, hmutex', hmutex⟩ := takeCab_frame hs
  have hself : t.passenger p = pc := by rw [hpass, Function.update_self]
  have hold : slotOf s p = none ∧ ¬ (s.passenger p).Storing := by
    rcases harr with harr | ⟨q, harr⟩ <;> simp [slotOf, harr, Passenger.Storing]
  have hnew : slotOf t p = none ∧ ¬ pc.Inside := by
    rcases hpc with rfl | ⟨i, rfl⟩ | ⟨q, rfl⟩ <;> simp [slotOf, hself, Passenger.Inside]
  exact hI.move hp hpass (fun i => by rw [hpay]) hcur hmutex hmutex' hserver
    (fun h => absurd h hnew.2) (fun h => absurd h hold.2) (hnew.1.trans hold.1.symm)

theorem Slots.passenger (hI : Slots P s) (hp : p < P.m)
    (hs : s.stepPassenger p = some t) : Slots P t := by
  have quiet : ∀ (s' : State) (pc : Passenger),
      s'.passenger = s.passenger → (∀ i, (s'.pay i).paymentStatus = (s.pay i).paymentStatus) →
      s'.currentEmptyPaySlot = s.currentEmptyPaySlot →
      s'.mutexForPayment = s.mutexForPayment →
      s'.mutexForPaymentServer = s.mutexForPaymentServer → s'.server = s.server →
      (pc.Inside → (s.passenger p).Inside) → ((s.passenger p).Storing → pc.Storing) →
      slotOf (s'.passengerAt p pc) p = slotOf s p → Slots P (s'.passengerAt p pc) := by
    intro s' pc hpass hpay hcur hmutex hmutex' hserver hinside hstoring hslot
    exact hI.move hp (by rw [State.passengerAt, hpass]) hpay hcur hmutex hmutex' hserver
      hinside hstoring hslot
  have status_setPay : ∀ (c : Nat) (f : Pay → Pay),
      (∀ y, (f y).paymentStatus = y.paymentStatus) →
      ∀ i, ((s.setPay c f).pay i).paymentStatus = (s.pay i).paymentStatus := by
    intro c f hf i
    simp only [State.setPay, Function.update_apply]
    split
    · rename_i hi
      rw [hf, hi]
    · rfl
  unfold State.stepPassenger at hs
  cases hpc : s.passenger p with
  | arriving => simp [hpc] at hs
  | searching q => simp [hpc] at hs
  | gone => simp [hpc] at hs
  | paid slot => simp [hpc] at hs
  | paying i status =>
      simp only [hpc] at hs
      split at hs
      · rename_i hfree
        obtain rfl := Option.some.inj hs
        exact hI.lock hp hpc hfree
      · exact absurd hs (by simp)
  | storeStatus i status =>
      simp only [hpc] at hs
      obtain rfl := Option.some.inj hs
      exact hI.storeStatus hp hpc
  | takeSlot i =>
      simp only [hpc] at hs
      obtain rfl := Option.some.inj hs
      exact hI.takeSlot hp hpc
  | unlock slot =>
      simp only [hpc] at hs
      obtain rfl := Option.some.inj hs
      exact hI.unlock hp hpc
  | storeCab i status | storeReduce i status =>
      simp only [hpc] at hs
      obtain rfl := Option.some.inj hs
      exact quiet _ _ rfl (status_setPay _ _ fun _ => rfl) rfl rfl rfl rfl
        (fun _ => by rw [hpc]; trivial) (fun _ => trivial)
        (by simp [slotOf, State.passengerAt, State.setPay, hpc])
  | waiting slot =>
      simp only [hpc] at hs
      split at hs
      · exact absurd hs (by simp)
      · obtain rfl := Option.some.inj hs
        exact quiet _ _ rfl (fun _ => rfl) rfl rfl rfl rfl (fun h => h.elim)
          (by rw [hpc]; exact fun h => h.elim) (by simp [slotOf, State.passengerAt, hpc])
  | givingUp | giveUpWrite v | booked i | riding i =>
      simp only [hpc] at hs
      obtain rfl := Option.some.inj hs
      exact quiet _ _ rfl (fun _ => rfl) rfl rfl rfl rfl (fun h => h.elim)
        (by rw [hpc]; exact fun h => h.elim) (by simp [slotOf, State.passengerAt, hpc])

theorem Slots.server (hI : Slots P s) (hs : s.stepServer j = some t) : Slots P t := by
  unfold State.stepServer at hs
  cases hpc : s.server j with
  | left => simp [hpc] at hs
  | test i =>
      simp only [hpc] at hs
      obtain rfl := Option.some.inj hs
      refine hI.moveServer rfl rfl rfl rfl rfl (hI.serverInside_update ?_) ?_ ?_
      all_goals split <;> simp [Server.Inside, Server.serving, Server.counting]
  | lockMutex i =>
      simp only [hpc] at hs
      split at hs
      · rename_i hfree
        obtain rfl := Option.some.inj hs
        refine hI.moveServer rfl rfl rfl rfl rfl ?_ (by simp [Server.serving])
          (by simp [Server.counting])
        intro j' h
        simp only [State.serverAt, Function.update_apply] at h ⊢
        split at h
        · rename_i heq
          rw [heq]
        · have hmutex := hI.serverInside j' h
          rw [hfree] at hmutex
          exact absurd hmutex (by simp)
      · exact absurd hs (by simp)
  | readStatus i =>
      simp only [hpc] at hs
      obtain rfl := Option.some.inj hs
      have hin : (s.server j).Inside := by rw [hpc]; trivial
      refine hI.moveServer rfl rfl rfl rfl rfl (hI.serverInside_update fun _ => hin) ?_ ?_
      · intro i' h
        split at h
        · rename_i hst
          obtain rfl : i = i' := by simpa [Server.serving] using h
          exact hst
        · simp [Server.serving] at h
      · intro i' h
        split at h <;> simp [Server.counting] at h
  | readCab i | readReduce i cab | writeCab i cab status =>
      simp only [hpc] at hs
      obtain rfl := Option.some.inj hs
      have hin : (s.server j).Inside := by rw [hpc]; trivial
      exact hI.moveServer rfl rfl rfl rfl rfl (hI.serverInside_update fun _ => hin)
        (fun i' h => hI.serving j i' (by rw [hpc]; exact h)) (by simp [Server.counting])
  | clear i cab status =>
      simp only [hpc] at hs
      obtain rfl := Option.some.inj hs
      exact hI.clear hpc
  | readLeft i =>
      simp only [hpc] at hs
      obtain rfl := Option.some.inj hs
      have hin : (s.server j).Inside := by rw [hpc]; trivial
      exact hI.moveServer rfl rfl rfl rfl rfl (hI.serverInside_update fun _ => hin)
        (by simp [Server.serving]) (fun i' h => hI.counting j i' (by rw [hpc]; exact h))
  | writeLeft i v =>
      simp only [hpc] at hs
      obtain rfl := Option.some.inj hs
      have hin : (s.server j).Inside := by rw [hpc]; trivial
      exact hI.moveServer rfl rfl rfl rfl rfl (hI.serverInside_update fun _ => hin)
        (by simp [Server.serving]) (by simp [Server.counting])
  | unlockMutex i =>
      simp only [hpc] at hs
      obtain rfl := Option.some.inj hs
      have hin : (s.server j).Inside := by rw [hpc]; trivial
      refine hI.moveServer rfl rfl rfl rfl rfl ?_ (by simp [Server.serving])
        (by simp [Server.counting])
      intro j' h
      simp only [State.serverAt, Function.update_apply] at h
      split at h
      · exact h.elim
      · rename_i hne
        exact absurd (hI.server_unique hin h) hne

/-- Every access preserves the invariant. -/
theorem Slots.step (hI : Slots P s) {a : Act} (hs : step P s a = some t) : Slots P t := by
  cases a with
  | takeCab p =>
      simp only [CabPayments.step] at hs
      split at hs
      · rename_i hp
        exact hI.takeCab hp hs
      · exact absurd hs (by simp)
  | passenger p =>
      simp only [CabPayments.step] at hs
      split at hs
      · rename_i hp
        exact hI.passenger hp hs
      · exact absurd hs (by simp)
  | server j =>
      simp only [CabPayments.step] at hs
      split at hs
      · exact hI.server hs
      · exact absurd hs (by simp)

end Steps

end OsWork.Ports.CabPayments

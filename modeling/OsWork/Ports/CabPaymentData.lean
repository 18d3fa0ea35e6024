import OsWork.Ports.CabPaymentTotals

/-!
# What a payment server uses

`do_payment` sets `payment_status` before it stores `cab_number` and
`reduce_status_to`, and holds `mutex_for_payment`; a server that scans the slots
holds `mutex_for_payment_server`.  So a server can find the slot pending and
read a field that the ride has not stored yet.

Beside the state we record every call of `do_payment` with the data it stored
and every processing of a slot with the data the server used.  The law
`PaidOnce` compares the two.  `pay` has 500 slots: a call that gets a slot past
them is never served.

## Main results

* `careful_paidOnce` — as long as a server reads a field only after
  `do_payment` has stored it, every call has a slot of its own, which is
  processed at most once, with the data of the call, and before the call
  returns.
* `not_all_paidOnce` — a server that reads too early uses other data.
-/

namespace OsWork.Ports.CabPayments

open OsWork.Verified.Transition
open OsWork.Ports.CabRides (Cab Params Pay RideStatus reduceStatusTo)

/-! ## The record -/

/-- A call of `do_payment` after its last store. -/
structure Call where
  passenger : Nat
  slot : Nat
  cabNumber : Nat
  reduceStatusTo : RideStatus
  deriving DecidableEq, Repr

/-- A slot processed by a server, with the values it used. -/
structure Serving where
  server : Nat
  slot : Nat
  cabNumber : Nat
  reduceStatusTo : RideStatus
  deriving DecidableEq, Repr

structure Receipts where
  calls : List Call
  servings : List Serving
  deriving DecidableEq, Repr

def Receipts.empty : Receipts where
  calls := []
  servings := []

/-- The call is recorded with its last store, the serving when its data is
used. -/
def Receipts.record (g : Receipts) (s : State) : Act → Receipts
  | .takeCab _ => g
  | .passenger p =>
      match s.passenger p with
      | .storeReduce i status =>
          { g with
            calls := g.calls ++
              [{ passenger := p
                 slot := s.currentEmptyPaySlot
                 cabNumber := i
                 reduceStatusTo :=
                   reduceStatusTo status (s.pay s.currentEmptyPaySlot).reduceStatusTo }] }
      | _ => g
  | .server j =>
      match s.server j with
      | .writeCab i cab status =>
          { g with
            servings := g.servings ++
              [{ server := j, slot := i, cabNumber := cab, reduceStatusTo := status }] }
      | _ => g

/-- The service with its receipts. -/
def receipts (P : Params) : System (State × Receipts) Act :=
  (service P).withGhost (fun _ => .empty) fun s a g => g.record s a

/-! ## The law -/

/-- The serving used the data of the call. -/
def Serving.Uses (v : Serving) (c : Call) : Prop :=
  c.slot = v.slot ∧ c.cabNumber = v.cabNumber ∧ c.reduceStatusTo = v.reduceStatusTo

instance (v : Serving) (c : Call) : Decidable (v.Uses c) := by
  unfold Serving.Uses
  infer_instance

/-- The slot has been processed. -/
def Receipts.Served (g : Receipts) (i : Nat) : Prop :=
  ∃ v ∈ g.servings, v.slot = i

instance (g : Receipts) (i : Nat) : Decidable (g.Served i) := by
  unfold Receipts.Served
  infer_instance

/-- Every ride is paid once and with its own data. -/
structure PaidOnce (P : Params) (x : State × Receipts) : Prop where
  /-- the slot of a call is one of the array -/
  inArray : ∀ c ∈ x.2.calls, c.slot < 500
  /-- no two calls have the same slot -/
  own : (x.2.calls.map Call.slot).Nodup
  /-- no slot is processed twice -/
  once : (x.2.servings.map Serving.slot).Nodup
  /-- a server uses the data of the call -/
  data : ∀ v ∈ x.2.servings, ∃ c ∈ x.2.calls, v.Uses c
  /-- a call returns only when its slot has been processed -/
  returned : ∀ p slot, x.1.passenger p = .paid slot → x.2.Served slot
  /-- a server can still process the slot of any call -/
  reachable : 1 ≤ P.k → ∀ c ∈ x.2.calls,
    ∃ l y, (receipts P).run x l = some y ∧ y.2.Served c.slot

/-! ## How far a call has stored its fields -/

/-- The call with slot `i` has stored `cab_number`. -/
def CabReady (P : Params) (s : State) (i : Nat) : Prop :=
  ∀ p, p < P.m → slotOf s p = some i → (s.passenger p).CabStored

/-- The call with slot `i` has stored both fields. -/
def Ready (P : Params) (s : State) (i : Nat) : Prop :=
  ∀ p, p < P.m → slotOf s p = some i → (s.passenger p).Stored

instance (P : Params) (s : State) (i : Nat) : Decidable (CabReady P s i) := by
  unfold CabReady
  infer_instance

instance (P : Params) (s : State) (i : Nat) : Decidable (Ready P s i) := by
  unfold Ready
  infer_instance

/-- The server reads no field that is still to be stored. -/
def Server.ReadsStored (P : Params) (s : State) : Server → Prop
  | .readCab i => CabReady P s i
  | .readReduce i _ => Ready P s i
  | _ => True

instance (P : Params) (s : State) (pc : Server) : Decidable (pc.ReadsStored P s) := by
  cases pc <;> unfold Server.ReadsStored <;> infer_instance

/-- A server reads a field of a slot after `do_payment` has stored it, and a
call finds a slot in the array. -/
def FieldsStored (P : Params) (s : State) : Act → Prop
  | .takeCab _ => True
  | .passenger p => (s.passenger p).HasRoom s
  | .server j => (s.server j).ReadsStored P s

instance (P : Params) (s : State) (a : Act) : Decidable (FieldsStored P s a) := by
  cases a <;> unfold FieldsStored <;> infer_instance

/-! ## The calls -/

/-- The slot holds the data of the call. -/
def Holds (s : State) (c : Call) : Prop :=
  c.cabNumber = (s.pay c.slot).cabNumber ∧ c.reduceStatusTo = (s.pay c.slot).reduceStatusTo

/-- The recorded calls are those whose fields are stored, and their slots hold
their data. -/
structure CallsKept (s : State) (g : Receipts) : Prop where
  stored : ∀ p i, slotOf s p = some i → (s.passenger p).Stored →
    ∃ c ∈ g.calls, c.passenger = p ∧ c.slot = i
  calls : ∀ c ∈ g.calls,
    slotOf s c.passenger = some c.slot ∧ (s.passenger c.passenger).Stored ∧ Holds s c
  own : (g.calls.map Call.slot).Nodup
  cab : ∀ p i cab status, slotOf s p = some i → s.passenger p = .storeReduce cab status →
    (s.pay i).cabNumber = cab
  inArray : ∀ p i, slotOf s p = some i → i < 500

theorem CallsKept.start (P : Params) : CallsKept (start P) .empty where
  stored p i h := by simp [slotOf, CabPayments.start] at h
  calls c hc := by simp [Receipts.empty] at hc
  own := List.nodup_nil
  cab p i cab status h := by simp [slotOf, CabPayments.start] at h
  inArray p i h := by simp [slotOf, CabPayments.start] at h

section Steps

variable {P : Params} {s t : State} {g : Receipts} {p q j i : Nat}

/-- Steps that store nothing in `cab_number` or `reduce_status_to` and leave
every call where it is. -/
theorem CallsKept.frame (h : CallsKept s g) (hslot : ∀ q, slotOf t q = slotOf s q)
    (hstored : ∀ q i, slotOf s q = some i →
      ((t.passenger q).Stored ↔ (s.passenger q).Stored))
    (hreduce : ∀ q cab status, t.passenger q = .storeReduce cab status →
      s.passenger q = .storeReduce cab status)
    (hcab : ∀ i, (t.pay i).cabNumber = (s.pay i).cabNumber)
    (hred : ∀ i, (t.pay i).reduceStatusTo = (s.pay i).reduceStatusTo) :
    CallsKept t g where
  stored q i hq hst := by
    rw [hslot] at hq
    exact h.stored q i hq ((hstored q i hq).mp hst)
  calls c hc := by
    obtain ⟨hq, hst, hcab', hred'⟩ := h.calls c hc
    refine ⟨(hslot _).trans hq, (hstored _ _ hq).mpr hst, ?_, ?_⟩
    · rw [hcab, hcab']
    · rw [hred, hred']
  own := h.own
  cab q i cab status hq hpc := by
    rw [hslot] at hq
    rw [hcab]
    exact h.cab q i cab status hq (hreduce q cab status hpc)
  inArray q i hq := by
    rw [hslot] at hq
    exact h.inArray q i hq

/-- The slot of a recorded call is not the one another call is storing to. -/
theorem CallsKept.ne_slot (hI : Slots P s) (h : CallsKept s g) (hp : slotOf s p = some i)
    (hnot : ¬ (s.passenger p).Stored) {c : Call} (hc : c ∈ g.calls) : c.slot ≠ i := by
  obtain ⟨hq, hst, -⟩ := h.calls c hc
  rintro rfl
  obtain rfl := hI.distinct _ _ _ hq hp
  exact hnot hst

/-- A passenger moves and keeps how far his call has stored. -/
theorem CallsKept.move (h : CallsKept s g) {pc : Passenger}
    (hpass : t.passenger = Function.update s.passenger p pc)
    (hpay : t.pay = s.pay) (hslot : ∀ q, slotOf t q = slotOf s q)
    (hstored : slotOf s p ≠ none → (pc.Stored ↔ (s.passenger p).Stored))
    (hreduce : ¬ (∃ cab status, pc = .storeReduce cab status)) : CallsKept t g := by
  apply h.frame hslot
  · intro q i hq
    by_cases hqp : q = p
    · subst hqp
      rw [hpass, Function.update_self]
      exact hstored (by simp [hq])
    · rw [hpass, Function.update_of_ne hqp]
  · intro q cab status hq
    by_cases hqp : q = p
    · subst hqp
      rw [hpass, Function.update_self] at hq
      exact absurd ⟨cab, status, hq⟩ hreduce
    · rwa [hpass, Function.update_of_ne hqp] at hq
  · intro i
    rw [hpay]
  · intro i
    rw [hpay]

/-- `pay[current_empty_pay_slot].payment_status = 1`: a new call, nothing of it
stored yet. -/
theorem CallsKept.storeStatus (h : CallsKept s g) {cab : Nat}
    {status : RideStatus} (hpc : s.passenger p = .storeStatus cab status)
    (hroom : s.currentEmptyPaySlot < 500) :
    CallsKept ((s.setPay s.currentEmptyPaySlot fun y =>
      { y with paymentStatus := true }).passengerAt p (.storeCab cab status)) g := by
  have hold : slotOf s p = none := by simp [slotOf, hpc]
  have hother : ∀ q, q ≠ p → slotOf ((s.setPay s.currentEmptyPaySlot fun y =>
      { y with paymentStatus := true }).passengerAt p (.storeCab cab status)) q =
        slotOf s q :=
    fun q hq => slotOf_congr (by simp [State.passengerAt, State.setPay, hq]) rfl
  have hcab : ∀ i, (Function.update s.pay s.currentEmptyPaySlot
      { s.pay s.currentEmptyPaySlot with paymentStatus := true } i).cabNumber =
        (s.pay i).cabNumber := by
    intro i
    rw [Function.update_apply]
    split
    · rename_i hi
      rw [hi]
    · rfl
  have hred : ∀ i, (Function.update s.pay s.currentEmptyPaySlot
      { s.pay s.currentEmptyPaySlot with paymentStatus := true } i).reduceStatusTo =
        (s.pay i).reduceStatusTo := by
    intro i
    rw [Function.update_apply]
    split
    · rename_i hi
      rw [hi]
    · rfl
  exact
    { stored := by
        intro q i hq hst
        by_cases hqp : q = p
        · subst hqp
          simp [State.passengerAt, Passenger.Stored] at hst
        · rw [hother q hqp] at hq
          apply h.stored q i hq
          simpa [State.passengerAt, State.setPay, hqp] using hst
      calls := by
        intro c hc
        obtain ⟨hq, hst, hcab', hred'⟩ := h.calls c hc
        have hqp : c.passenger ≠ p := by
          intro heq
          rw [heq, hold] at hq
          exact absurd hq (by simp)
        refine ⟨(hother _ hqp).trans hq, ?_, ?_, ?_⟩
        · simpa [State.passengerAt, State.setPay, hqp] using hst
        · exact hcab'.trans (hcab _).symm
        · exact hred'.trans (hred _).symm
      own := h.own
      cab := by
        intro q i cab' status' hq hq'
        by_cases hqp : q = p
        · subst hqp
          simp [State.passengerAt] at hq'
        · rw [hother q hqp] at hq
          refine (hcab i).trans (h.cab q i cab' status' hq ?_)
          simpa [State.passengerAt, State.setPay, hqp] using hq'
      inArray := by
        intro q i hq
        by_cases hqp : q = p
        · subst hqp
          obtain rfl : s.currentEmptyPaySlot = i := by
            simpa [slotOf, State.passengerAt, State.setPay] using hq
          exact hroom
        · rw [hother q hqp] at hq
          exact h.inArray q i hq }

/-- `pay[current_empty_pay_slot].cab_number = cab_number`. -/
theorem CallsKept.storeCab (hI : Slots P s) (h : CallsKept s g) {cab : Nat}
    {status : RideStatus} (hpc : s.passenger p = .storeCab cab status) :
    CallsKept ((s.setPay s.currentEmptyPaySlot fun y =>
      { y with cabNumber := cab }).passengerAt p (.storeReduce cab status)) g := by
  have hmine : slotOf s p = some s.currentEmptyPaySlot := by simp [slotOf, hpc]
  have hnot : ¬ (s.passenger p).Stored := by rw [hpc]; exact id
  have hslot : ∀ q, slotOf ((s.setPay s.currentEmptyPaySlot fun y =>
      { y with cabNumber := cab }).passengerAt p (.storeReduce cab status)) q =
        slotOf s q := by
    intro q
    by_cases hqp : q = p
    · subst hqp
      rw [hmine]
      simp [slotOf, State.passengerAt, State.setPay]
    · exact slotOf_congr (by simp [State.passengerAt, State.setPay, hqp]) rfl
  exact
    { stored := by
        intro q i hq hst
        by_cases hqp : q = p
        · subst hqp
          simp [State.passengerAt, Passenger.Stored] at hst
        · rw [hslot] at hq
          apply h.stored q i hq
          simpa [State.passengerAt, State.setPay, hqp] using hst
      calls := by
        intro c hc
        obtain ⟨hq, hst, hholds⟩ := h.calls c hc
        have hne := h.ne_slot hI hmine hnot hc
        have hqp : c.passenger ≠ p := by
          intro heq
          exact hnot (heq ▸ hst)
        refine ⟨(hslot _).trans hq, ?_, ?_⟩
        · simpa [State.passengerAt, State.setPay, hqp] using hst
        · simpa [Holds, State.passengerAt, State.setPay, hne] using hholds
      own := h.own
      cab := by
        intro q i cab' status' hq hq'
        rw [hslot] at hq
        by_cases hqp : q = p
        · subst hqp
          obtain rfl := Option.some.inj (hmine.symm.trans hq)
          have hpc' : cab = cab' ∧ status = status' := by
            simpa [State.passengerAt] using hq'
          simp [State.passengerAt, State.setPay, hpc'.1]
        · have hne : i ≠ s.currentEmptyPaySlot := by
            rintro rfl
            exact hqp (hI.distinct q p _ hq hmine)
          have hold := h.cab q i cab' status' hq
            (by simpa [State.passengerAt, State.setPay, hqp] using hq')
          simpa [State.passengerAt, State.setPay, hne] using hold
      inArray := by
        intro q i hq
        rw [hslot] at hq
        exact h.inArray q i hq }

/-- The last store: the call is recorded with what its slot holds now. -/
theorem CallsKept.storeReduce (hI : Slots P s) (h : CallsKept s g) {cab : Nat}
    {status : RideStatus} (hpc : s.passenger p = .storeReduce cab status) :
    CallsKept ((s.setPay s.currentEmptyPaySlot fun y =>
      { y with reduceStatusTo := reduceStatusTo status y.reduceStatusTo }).passengerAt p
        (.takeSlot cab)) (g.record s (.passenger p)) := by
  have hmine : slotOf s p = some s.currentEmptyPaySlot := by simp [slotOf, hpc]
  have hnot : ¬ (s.passenger p).Stored := by rw [hpc]; exact id
  have hcab := h.cab p _ cab status hmine hpc
  have hrecord : g.record s (.passenger p) =
      { g with
        calls := g.calls ++
          [{ passenger := p
             slot := s.currentEmptyPaySlot
             cabNumber := cab
             reduceStatusTo :=
               reduceStatusTo status (s.pay s.currentEmptyPaySlot).reduceStatusTo }] } := by
    simp [Receipts.record, hpc]
  have hslot : ∀ q, slotOf ((s.setPay s.currentEmptyPaySlot fun y =>
      { y with reduceStatusTo := reduceStatusTo status y.reduceStatusTo }).passengerAt p
        (.takeSlot cab)) q = slotOf s q := by
    intro q
    by_cases hqp : q = p
    · subst hqp
      rw [hmine]
      simp [slotOf, State.passengerAt, State.setPay]
    · exact slotOf_congr (by simp [State.passengerAt, State.setPay, hqp]) rfl
  rw [hrecord]
  exact
    { stored := by
        intro q i hq hst
        rw [hslot] at hq
        by_cases hqp : q = p
        · subst hqp
          obtain rfl := Option.some.inj (hmine.symm.trans hq)
          exact ⟨_, List.mem_append_right _ (List.mem_singleton_self _), rfl, rfl⟩
        · obtain ⟨c, hc, hcq⟩ := h.stored q i hq
            (by simpa [State.passengerAt, State.setPay, hqp] using hst)
          exact ⟨c, List.mem_append_left _ hc, hcq⟩
      calls := by
        intro c hc
        rcases List.mem_append.mp hc with hc | hc
        · obtain ⟨hq, hst, hholds⟩ := h.calls c hc
          have hne := h.ne_slot hI hmine hnot hc
          have hqp : c.passenger ≠ p := by
            intro heq
            exact hnot (heq ▸ hst)
          refine ⟨(hslot _).trans hq, ?_, ?_⟩
          · simpa [State.passengerAt, State.setPay, hqp] using hst
          · simpa [Holds, State.passengerAt, State.setPay, hne] using hholds
        · obtain rfl := List.mem_singleton.mp hc
          refine ⟨(hslot _).trans hmine, ?_, ?_⟩
          · simp [State.passengerAt, Passenger.Stored]
          · simp [Holds, State.passengerAt, State.setPay, hcab]
      own := by
        rw [List.map_append, List.nodup_append]
        refine ⟨h.own, List.nodup_singleton _, ?_⟩
        intro x hx y hy
        obtain ⟨c, hc, rfl⟩ := List.mem_map.mp hx
        obtain rfl : y = s.currentEmptyPaySlot := by simpa using hy
        exact h.ne_slot hI hmine hnot hc
      cab := by
        intro q i cab' status' hq hq'
        rw [hslot] at hq
        by_cases hqp : q = p
        · subst hqp
          simp [State.passengerAt] at hq'
        · have hne : i ≠ s.currentEmptyPaySlot := by
            rintro rfl
            exact hqp (hI.distinct q p _ hq hmine)
          have hold := h.cab q i cab' status' hq
            (by simpa [State.passengerAt, State.setPay, hqp] using hq')
          simpa [State.passengerAt, State.setPay, hne] using hold
      inArray := by
        intro q i hq
        rw [hslot] at hq
        exact h.inArray q i hq }

theorem CallsKept.passenger (hI : Slots P s) (h : CallsKept s g)
    (hc : FieldsStored P s (.passenger p)) (hs : s.stepPassenger p = some t) :
    CallsKept t (g.record s (.passenger p)) := by
  have hother : ∀ q, q ≠ p → ∀ pc : Passenger,
      (Function.update s.passenger p pc) q = s.passenger q :=
    fun q hq pc => Function.update_of_ne hq pc s.passenger
  -- the steps that are not stores: every slot stays where it is
  have quiet : ∀ (s' : State) (pc : Passenger), s'.passenger = s.passenger →
      s'.pay = s.pay → s'.currentEmptyPaySlot = s.currentEmptyPaySlot →
      slotOf (s'.passengerAt p pc) p = slotOf s p →
      (slotOf s p ≠ none → (pc.Stored ↔ (s.passenger p).Stored)) →
      ¬ (∃ cab status, pc = .storeReduce cab status) →
      CallsKept (s'.passengerAt p pc) g := by
    intro s' pc hpass hpay hcur hslot hstored hreduce
    have hmoved : (s'.passengerAt p pc).passenger = Function.update s.passenger p pc := by
      simp [State.passengerAt, hpass]
    apply h.move hmoved
    · simpa [State.passengerAt] using hpay
    · intro q
      by_cases hq : q = p
      · rw [hq, hslot]
      · apply slotOf_congr
        · simp [State.passengerAt, hpass, hq]
        · simpa [State.passengerAt] using hcur
    · exact hstored
    · exact hreduce
  have hsame : (∀ cab status, s.passenger p ≠ .storeReduce cab status) →
      g.record s (.passenger p) = g := by
    intro hne
    cases hpc : s.passenger p with
    | storeReduce cab status => exact absurd hpc (hne cab status)
    | _ => simp only [Receipts.record, hpc]
  unfold State.stepPassenger at hs
  simp only [FieldsStored] at hc
  cases hpc : s.passenger p with
  | arriving => simp [hpc] at hs
  | searching q => simp [hpc] at hs
  | gone => simp [hpc] at hs
  | paid slot => simp [hpc] at hs
  | storeReduce cab status =>
      simp only [hpc] at hs
      obtain rfl := Option.some.inj hs
      exact h.storeReduce hI hpc
  | storeStatus cab status =>
      simp only [hpc] at hs
      obtain rfl := Option.some.inj hs
      rw [hsame (by simp [hpc])]
      rw [hpc] at hc
      exact h.storeStatus hpc hc
  | storeCab cab status =>
      simp only [hpc] at hs
      obtain rfl := Option.some.inj hs
      rw [hsame (by simp [hpc])]
      exact h.storeCab hI hpc
  | takeSlot cab =>
      simp only [hpc] at hs
      obtain rfl := Option.some.inj hs
      rw [hsame (by simp [hpc])]
      have hmine : s.mutexForPayment = some p := hI.inside p (by rw [hpc]; trivial)
      have hmoved : Function.update s.passenger p (.unlock s.currentEmptyPaySlot) =
          Function.update s.passenger p (.unlock s.currentEmptyPaySlot) := rfl
      exact h.move hmoved rfl (hI.slotOf_takeSlot hpc)
        (fun _ => by rw [hpc]; exact Iff.rfl) (by simp)
  | paying cab status =>
      simp only [hpc] at hs
      split at hs
      · obtain rfl := Option.some.inj hs
        rw [hsame (by simp [hpc])]
        exact quiet _ _ rfl rfl rfl (by simp [slotOf, State.passengerAt, hpc])
          (by simp [slotOf, hpc]) (by simp)
      · exact absurd hs (by simp)
  | waiting slot =>
      simp only [hpc] at hs
      split at hs
      · exact absurd hs (by simp)
      · obtain rfl := Option.some.inj hs
        rw [hsame (by simp [hpc])]
        exact quiet _ _ rfl rfl rfl (by simp [slotOf, State.passengerAt, hpc])
          (fun _ => by rw [hpc]; exact Iff.rfl) (by simp)
  | unlock slot =>
      simp only [hpc] at hs
      obtain rfl := Option.some.inj hs
      rw [hsame (by simp [hpc])]
      exact quiet _ _ rfl rfl rfl (by simp [slotOf, State.passengerAt, hpc])
        (fun _ => by rw [hpc]; exact Iff.rfl) (by simp)
  | _ =>
      simp only [hpc] at hs
      obtain rfl := Option.some.inj hs
      rw [hsame (by simp [hpc])]
      exact quiet _ _ rfl rfl rfl (by simp [slotOf, State.passengerAt, hpc])
        (by simp [slotOf, hpc]) (by simp)

theorem CallsKept.takeCab (h : CallsKept s g) (hs : s.takeCab P p = some t) :
    CallsKept t g := by
  obtain ⟨pc, hpass, harr, hpc, -, hpay, hcur, -, -⟩ := takeCab_frame hs
  have hold : slotOf s p = none := by
    rcases harr with harr | ⟨pc', harr⟩ <;> simp [slotOf, harr]
  apply h.move hpass hpay
  · intro q
    by_cases hq : q = p
    · subst hq
      have hself : t.passenger q = pc := by rw [hpass, Function.update_self]
      rw [hold]
      rcases hpc with rfl | ⟨i, rfl⟩ | ⟨pc', rfl⟩ <;> simp [slotOf, hself]
    · exact slotOf_congr (by rw [hpass, Function.update_of_ne hq]) hcur
  · exact fun hne => absurd hold hne
  · rcases hpc with rfl | ⟨i, rfl⟩ | ⟨pc', rfl⟩ <;> simp

/-- The invariant does not look at the servings. -/
theorem CallsKept.ofCalls {g' : Receipts} (hcalls : g'.calls = g.calls)
    (h : CallsKept s g) : CallsKept s g' where
  stored := hcalls ▸ h.stored
  calls := hcalls ▸ h.calls
  own := hcalls ▸ h.own
  cab := h.cab
  inArray := h.inArray

/-- A server stores only the status of a slot. -/
theorem server_pay (hs : s.stepServer j = some t) (i : Nat) :
    (t.pay i).cabNumber = (s.pay i).cabNumber ∧
      (t.pay i).reduceStatusTo = (s.pay i).reduceStatusTo := by
  unfold State.stepServer at hs
  split at hs <;> (try split at hs) <;> cases hs <;>
    simp only [State.serverAt, State.setPay, Function.update_apply, and_self]
  split
  · rename_i hi
    rw [hi]
    exact ⟨rfl, rfl⟩
  · exact ⟨rfl, rfl⟩

theorem CallsKept.server (h : CallsKept s g) (hs : s.stepServer j = some t) :
    CallsKept t (g.record s (.server j)) := by
  obtain ⟨hpass, hcur, -⟩ := server_frame hs
  have hcalls : (g.record s (.server j)).calls = g.calls := by
    simp only [Receipts.record]
    split <;> rfl
  apply CallsKept.ofCalls hcalls
  apply h.frame
  · intro q
    exact slotOf_congr (congrFun hpass q) hcur
  · intro q i _
    rw [hpass]
  · intro q cab status hq
    rwa [hpass] at hq
  · intro i
    exact (server_pay hs i).1
  · intro i
    exact (server_pay hs i).2

end Steps

/-! ## The servings -/

/-- The slot a server has used and not yet cleared. -/
def Server.used : Server → Option Nat
  | .clear i _ _ => some i
  | _ => none

/-- Slot `i` is cleared, or its data has been used. -/
def Processed (s : State) (i : Nat) : Prop :=
  (s.pay i).paymentStatus = false ∨ ∃ j, (s.server j).used = some i

/-- A server that has read a field of a slot holds the data of its call, and the
servings are the slots processed. -/
structure ServingsKept (s : State) (g : Receipts) : Prop where
  reading : ∀ j i cab, s.server j = .readReduce i cab →
    cab = (s.pay i).cabNumber ∧ ∃ p, slotOf s p = some i ∧ (s.passenger p).CabStored
  writing : ∀ j i cab status, s.server j = .writeCab i cab status →
    ∃ c ∈ g.calls, c.slot = i ∧ c.cabNumber = cab ∧ c.reduceStatusTo = status
  served : ∀ v ∈ g.servings, Processed s v.slot ∧ ∃ p, slotOf s p = some v.slot
  processed : ∀ p i, slotOf s p = some i → Processed s i → g.Served i
  once : (g.servings.map Serving.slot).Nodup
  data : ∀ v ∈ g.servings, ∃ c ∈ g.calls, v.Uses c

theorem ServingsKept.start (P : Params) : ServingsKept (start P) .empty where
  reading j i cab h := by simp [CabPayments.start] at h
  writing j i cab status h := by simp [CabPayments.start] at h
  served v hv := by simp [Receipts.empty] at hv
  processed p i h := by simp [slotOf, CabPayments.start] at h
  once := List.nodup_nil
  data v hv := by simp [Receipts.empty] at hv

theorem Server.serving_of_used {pc : Server} {i : Nat} (h : pc.used = some i) :
    pc.serving = some i := by
  cases pc <;> first | exact h | simp [Server.used] at h

section Servings

variable {P : Params} {s t : State} {g g' : Receipts} {p q j i : Nat}

/-- A passenger's step: used slots keep their status, and their `cab_number` once
it is stored; a new slot is pending and in no server's hands. -/
theorem ServingsKept.frame (h : ServingsKept s g) (hserver : t.server = s.server)
    (hslot : ∀ q i, slotOf s q = some i → slotOf t q = some i)
    (hnew : ∀ q i, slotOf t q = some i → slotOf s q = some i ∨ ¬ Processed t i)
    (hstatus : ∀ q i, slotOf s q = some i →
      (t.pay i).paymentStatus = (s.pay i).paymentStatus)
    (hcab : ∀ q i, slotOf s q = some i → (s.passenger q).CabStored →
      (t.pay i).cabNumber = (s.pay i).cabNumber ∧ (t.passenger q).CabStored)
    (hcalls : ∀ c ∈ g.calls, c ∈ g'.calls) (hservings : g'.servings = g.servings) :
    ServingsKept t g' where
  reading j i cab hj := by
    rw [hserver] at hj
    obtain ⟨heq, q, hq, hst⟩ := h.reading j i cab hj
    obtain ⟨hkeep, hst'⟩ := hcab q i hq hst
    exact ⟨heq.trans hkeep.symm, q, hslot q i hq, hst'⟩
  writing j i cab status hj := by
    rw [hserver] at hj
    obtain ⟨c, hc, hdata⟩ := h.writing j i cab status hj
    exact ⟨c, hcalls c hc, hdata⟩
  served v hv := by
    rw [hservings] at hv
    obtain ⟨hdone, q, hq⟩ := h.served v hv
    refine ⟨?_, q, hslot q _ hq⟩
    unfold Processed at hdone ⊢
    rwa [hstatus q _ hq, hserver]
  processed q i hq hdone := by
    rcases hnew q i hq with hold | hnot
    · unfold Processed at hdone
      rw [hstatus q i hold, hserver] at hdone
      obtain ⟨v, hv, hvi⟩ := h.processed q i hold hdone
      exact ⟨v, hservings ▸ hv, hvi⟩
    · exact absurd hdone hnot
  once := hservings ▸ h.once
  data v hv := by
    rw [hservings] at hv
    obtain ⟨c, hc, hdata⟩ := h.data v hv
    exact ⟨c, hcalls c hc, hdata⟩

/-- The slot of anyone else is below the one a caller inside is filling. -/
theorem Slots.below (hI : Slots P s) (hin : (s.passenger p).Inside) (hqp : q ≠ p)
    (hq : slotOf s q = some i) : i < s.currentEmptyPaySlot := by
  rcases hI.used q i hq with hlt | ⟨hst, -⟩
  · exact hlt
  · have hmutex := (hI.inside q hst.inside).symm.trans (hI.inside p hin)
    exact absurd (Option.some.inj hmutex) hqp

/-- What a passenger's step does to the slots in use: nothing but the store of
`cab_number` by its own call. -/
theorem pay_of_passenger (hI : Slots P s) (hs : s.stepPassenger p = some t)
    (hq : slotOf s q = some i) :
    slotOf t q = some i ∧ (t.pay i).paymentStatus = (s.pay i).paymentStatus ∧
      ((s.passenger q).CabStored →
        (t.pay i).cabNumber = (s.pay i).cabNumber ∧ (t.passenger q).CabStored) := by
  have quiet : ∀ (s' : State) (pc : Passenger), s'.passenger = s.passenger →
      s'.pay = s.pay → s'.currentEmptyPaySlot = s.currentEmptyPaySlot →
      (slotOf s p = some i → slotOf (s'.passengerAt p pc) p = some i ∧ pc.CabStored) →
      slotOf (s'.passengerAt p pc) q = some i ∧
        ((s'.passengerAt p pc).pay i).paymentStatus = (s.pay i).paymentStatus ∧
        ((s.passenger q).CabStored →
          ((s'.passengerAt p pc).pay i).cabNumber = (s.pay i).cabNumber ∧
            ((s'.passengerAt p pc).passenger q).CabStored) := by
    intro s' pc hpass hpay hcur hself
    have hpay' : (s'.passengerAt p pc).pay = s.pay := hpay
    rw [hpay']
    by_cases hqp : q = p
    · subst hqp
      obtain ⟨hslot, hst⟩ := hself hq
      refine ⟨hslot, rfl, fun _ => ⟨rfl, ?_⟩⟩
      simpa [State.passengerAt] using hst
    · have hsame : (s'.passengerAt p pc).passenger q = s.passenger q := by
        simp [State.passengerAt, hpass, hqp]
      refine ⟨(slotOf_congr hsame hcur).trans hq, rfl, fun h => ⟨rfl, ?_⟩⟩
      rwa [hsame]
  -- a store goes to the slot of the caller inside
  have store : ∀ (pc : Passenger) (f : Pay → Pay), (s.passenger p).Inside →
      (slotOf s p = some i → slotOf ((s.setPay s.currentEmptyPaySlot f).passengerAt p pc) p =
          some i ∧ (f (s.pay i)).paymentStatus = (s.pay i).paymentStatus ∧
            ((s.passenger p).CabStored →
              (f (s.pay i)).cabNumber = (s.pay i).cabNumber ∧ pc.CabStored)) →
      (slotOf s p = some i → i = s.currentEmptyPaySlot) →
      slotOf ((s.setPay s.currentEmptyPaySlot f).passengerAt p pc) q = some i ∧
        (((s.setPay s.currentEmptyPaySlot f).passengerAt p pc).pay i).paymentStatus =
          (s.pay i).paymentStatus ∧
        ((s.passenger q).CabStored →
          (((s.setPay s.currentEmptyPaySlot f).passengerAt p pc).pay i).cabNumber =
              (s.pay i).cabNumber ∧
            (((s.setPay s.currentEmptyPaySlot f).passengerAt p pc).passenger q).CabStored) := by
    intro pc f hin hself hcur
    by_cases hqp : q = p
    · subst hqp
      obtain ⟨hslot, hstatus, hcab⟩ := hself hq
      obtain rfl := hcur hq
      refine ⟨hslot, ?_, fun h => ⟨?_, ?_⟩⟩
      · simpa [State.passengerAt, State.setPay] using hstatus
      · simpa [State.passengerAt, State.setPay] using (hcab h).1
      · simpa [State.passengerAt, State.setPay] using (hcab h).2
    · have hlt := hI.below hin hqp hq
      have hne : i ≠ s.currentEmptyPaySlot := by omega
      have hsame : ((s.setPay s.currentEmptyPaySlot f).passengerAt p pc).passenger q =
          s.passenger q := by
        simp [State.passengerAt, State.setPay, hqp]
      refine ⟨(slotOf_congr hsame rfl).trans hq, ?_, fun h => ⟨?_, ?_⟩⟩
      · simp [State.passengerAt, State.setPay, hne]
      · simp [State.passengerAt, State.setPay, hne]
      · rwa [hsame]
  unfold State.stepPassenger at hs
  cases hpc : s.passenger p with
  | arriving => simp [hpc] at hs
  | searching q => simp [hpc] at hs
  | gone => simp [hpc] at hs
  | paid slot => simp [hpc] at hs
  | storeStatus cab status =>
      simp only [hpc] at hs
      obtain rfl := Option.some.inj hs
      have hnone : slotOf s p ≠ some i := by simp [slotOf, hpc]
      exact store _ _ (by rw [hpc]; trivial) (fun h => absurd h hnone)
        (fun h => absurd h hnone)
  | storeCab cab status =>
      simp only [hpc] at hs
      obtain rfl := Option.some.inj hs
      have hmine : slotOf s p = some s.currentEmptyPaySlot := by simp [slotOf, hpc]
      refine store _ _ (by rw [hpc]; trivial) (fun h => ⟨?_, rfl, ?_⟩)
        (fun h => Option.some.inj (h.symm.trans hmine))
      · rw [← h, hmine]
        simp [slotOf, State.passengerAt, State.setPay]
      · rw [hpc]
        exact fun hst => hst.elim
  | storeReduce cab status =>
      simp only [hpc] at hs
      obtain rfl := Option.some.inj hs
      have hmine : slotOf s p = some s.currentEmptyPaySlot := by simp [slotOf, hpc]
      refine store _ _ (by rw [hpc]; trivial) (fun h => ⟨?_, rfl, fun _ => ⟨rfl, trivial⟩⟩)
        (fun h => Option.some.inj (h.symm.trans hmine))
      rw [← h, hmine]
      simp [slotOf, State.passengerAt, State.setPay]
  | takeSlot cab =>
      simp only [hpc] at hs
      obtain rfl := Option.some.inj hs
      refine ⟨(hI.slotOf_takeSlot hpc q).trans hq, rfl, fun h => ⟨rfl, ?_⟩⟩
      by_cases hqp : q = p
      · subst hqp
        simp [State.passengerAt, Passenger.CabStored]
      · simpa [State.passengerAt, hqp] using h
  | paying cab status =>
      simp only [hpc] at hs
      split at hs
      · obtain rfl := Option.some.inj hs
        exact quiet _ _ rfl rfl rfl (by simp [slotOf, hpc])
      · exact absurd hs (by simp)
  | waiting slot =>
      simp only [hpc] at hs
      split at hs
      · exact absurd hs (by simp)
      · obtain rfl := Option.some.inj hs
        refine quiet _ _ rfl rfl rfl (fun h => ⟨?_, trivial⟩)
        simpa [slotOf, State.passengerAt, hpc] using h
  | unlock slot =>
      simp only [hpc] at hs
      obtain rfl := Option.some.inj hs
      refine quiet _ _ rfl rfl rfl (fun h => ⟨?_, trivial⟩)
      simpa [slotOf, State.passengerAt, hpc] using h
  | _ =>
      simp only [hpc] at hs
      obtain rfl := Option.some.inj hs
      exact quiet _ _ rfl rfl rfl (by simp [slotOf, hpc])

/-- A slot that a passenger's step puts in use is pending. -/
theorem pending_of_new (hI : Slots P s) (hs : s.stepPassenger p = some t)
    (hq : slotOf t q = some i) :
    slotOf s q = some i ∨ ¬ Processed t i := by
  have hserver := (passenger_frame hs).1
  have hold : slotOf s q ≠ none → slotOf s q = some i := by
    intro hne
    obtain ⟨i', hi'⟩ := Option.ne_none_iff_exists'.mp hne
    have hkept := (pay_of_passenger hI hs hi').1
    rw [hi', Option.some.inj (hkept.symm.trans hq)]
  by_cases hnone : slotOf s q = none
  · right
    by_cases hqp : q = p
    · subst hqp
      unfold State.stepPassenger at hs
      cases hpc : s.passenger q with
      | storeStatus cab status =>
          simp only [hpc] at hs
          obtain rfl := Option.some.inj hs
          obtain rfl : s.currentEmptyPaySlot = i := by
            simpa [slotOf, State.passengerAt, State.setPay] using hq
          rintro (hclear | ⟨j, hj⟩)
          · simp [State.passengerAt, State.setPay] at hclear
          · -- a server that has used the slot found it pending, so it was in use
            have hst := hI.serving j _ (Server.serving_of_used hj)
            obtain ⟨r, hr⟩ := hI.pending _ hst
            have hrq : r ≠ q := by
              rintro rfl
              rw [hnone] at hr
              exact absurd hr (by simp)
            have hlt := hI.below (by rw [hpc]; trivial) hrq hr
            omega
      | paying cab status =>
          simp only [hpc] at hs
          split at hs
          · obtain rfl := Option.some.inj hs
            simp [slotOf, State.passengerAt] at hq
          · exact absurd hs (by simp)
      | waiting slot => simp [slotOf, hpc] at hnone
      | _ =>
          simp only [hpc] at hs
          cases hs <;> simp [slotOf, hpc, State.passengerAt] at hq hnone
    · have hsame := (passenger_frame hs).2.2 q hqp
      have hq' : slotOf t q = none := by
        unfold slotOf at hnone ⊢
        rw [hsame]
        split at hnone <;> simp_all
      rw [hq'] at hq
      exact absurd hq (by simp)
  · exact .inl (hold hnone)

theorem ServingsKept.passenger (hI : Slots P s) (h : ServingsKept s g)
    (hs : s.stepPassenger p = some t) : ServingsKept t (g.record s (.passenger p)) := by
  have hrecord : (∀ c ∈ g.calls, c ∈ (g.record s (.passenger p)).calls) ∧
      (g.record s (.passenger p)).servings = g.servings := by
    simp only [Receipts.record]
    split
    · exact ⟨fun c hc => List.mem_append_left _ hc, rfl⟩
    · exact ⟨fun c hc => hc, rfl⟩
  apply h.frame (passenger_frame hs).1
  · intro q i hq
    exact (pay_of_passenger hI hs hq).1
  · intro q i hq
    exact pending_of_new hI hs hq
  · intro q i hq
    exact (pay_of_passenger hI hs hq).2.1
  · intro q i hq
    exact (pay_of_passenger hI hs hq).2.2
  · exact hrecord.1
  · exact hrecord.2

theorem ServingsKept.takeCab (h : ServingsKept s g) (hs : s.takeCab P p = some t) :
    ServingsKept t g := by
  obtain ⟨pc, hpass, harr, hpc, -, hpay, hcur, hserver, -⟩ := takeCab_frame hs
  have hold : slotOf s p = none := by
    rcases harr with harr | ⟨pc', harr⟩ <;> simp [slotOf, harr]
  have hslot : ∀ q, slotOf t q = slotOf s q := by
    intro q
    by_cases hq : q = p
    · subst hq
      have hself : t.passenger q = pc := by rw [hpass, Function.update_self]
      rw [hold]
      rcases hpc with rfl | ⟨i, rfl⟩ | ⟨pc', rfl⟩ <;> simp [slotOf, hself]
    · exact slotOf_congr (by rw [hpass, Function.update_of_ne hq]) hcur
  have hother : ∀ q i, slotOf s q = some i → t.passenger q = s.passenger q := by
    intro q i hq
    have hqp : q ≠ p := by
      rintro rfl
      rw [hold] at hq
      cases hq
    rw [hpass, Function.update_of_ne hqp]
  apply h.frame hserver
  · intro q i hq
    rwa [hslot]
  · intro q i hq
    rw [hslot] at hq
    exact .inl hq
  · intro q i _
    rw [hpay]
  · intro q i hq hst
    rw [hpay, hother q i hq]
    exact ⟨rfl, hst⟩
  · exact fun c hc => hc
  · rfl

/-- A server's step that uses no data: what is processed stays the same, and what
the server has read is the call's. -/
theorem ServingsKept.moveServer (h : ServingsKept s g) {pc : Server}
    (hs : s.stepServer j = some t) (hself : t.server j = pc)
    (hprocessed : ∀ i, Processed t i ↔ Processed s i)
    (hreading : ∀ i cab, pc = .readReduce i cab →
      cab = (s.pay i).cabNumber ∧ ∃ p, slotOf s p = some i ∧ (s.passenger p).CabStored)
    (hwriting : ∀ i cab status, pc = .writeCab i cab status →
      ∃ c ∈ g.calls, c.slot = i ∧ c.cabNumber = cab ∧ c.reduceStatusTo = status) :
    ServingsKept t g := by
  obtain ⟨hpass, hcur, hother⟩ := server_frame hs
  have hslot : ∀ q, slotOf t q = slotOf s q :=
    fun q => slotOf_congr (congrFun hpass q) hcur
  exact
    { reading := by
        intro j' i cab hj'
        rw [(server_pay hs i).1, hpass]
        simp only [hslot]
        by_cases hj : j' = j
        · subst hj
          exact hreading i cab (hself.symm.trans hj')
        · exact h.reading j' i cab ((hother j' hj).symm.trans hj')
      writing := by
        intro j' i cab status hj'
        by_cases hj : j' = j
        · subst hj
          exact hwriting i cab status (hself.symm.trans hj')
        · exact h.writing j' i cab status ((hother j' hj).symm.trans hj')
      served := by
        intro v hv
        obtain ⟨hdone, q, hq⟩ := h.served v hv
        exact ⟨(hprocessed _).mpr hdone, q, (hslot q).trans hq⟩
      processed := by
        intro q i hq hdone
        rw [hslot] at hq
        exact h.processed q i hq ((hprocessed i).mp hdone)
      once := h.once
      data := h.data }

/-- The server writes the status of the cab: the slot is processed here. -/
theorem ServingsKept.use (hI : Slots P s) (h : ServingsKept s g) {cab : Nat}
    {status : RideStatus} (hpc : s.server j = .writeCab i cab status)
    (hs : s.stepServer j = some t) : ServingsKept t (g.record s (.server j)) := by
  obtain ⟨hpass, hcur, hother⟩ := server_frame hs
  have hslot : ∀ q, slotOf t q = slotOf s q :=
    fun q => slotOf_congr (congrFun hpass q) hcur
  have ht : t.server j = .clear i cab status ∧ t.pay = s.pay := by
    simp only [State.stepServer, hpc] at hs
    obtain rfl := Option.some.inj hs
    exact ⟨by simp [State.serverAt], rfl⟩
  have hin : (s.server j).Inside := by rw [hpc]; trivial
  have hst := hI.serving j i (by rw [hpc]; rfl)
  obtain ⟨p, hp⟩ := hI.pending i hst
  have hfresh : ¬ Processed s i := by
    rintro (hclear | ⟨j', hj'⟩)
    · rw [hst] at hclear
      exact absurd hclear (by simp)
    · have heq := hI.server_unique hin
        (Server.inside_of_serving (Server.serving_of_used hj'))
      rw [heq, hpc] at hj'
      simp [Server.used] at hj'
  have hold : ∀ i', Processed s i' → Processed t i' := by
    rintro i' (hclear | ⟨j', hj'⟩)
    · exact .inl (by rw [ht.2]; exact hclear)
    · have hj : j' ≠ j := by
        rintro rfl
        rw [hpc] at hj'
        simp [Server.used] at hj'
      exact .inr ⟨j', by rw [hother j' hj]; exact hj'⟩
  have hnew : ∀ i', Processed t i' → i' = i ∨ Processed s i' := by
    rintro i' (hclear | ⟨j', hj'⟩)
    · exact .inr (.inl (by rw [← ht.2]; exact hclear))
    · by_cases hj : j' = j
      · subst hj
        rw [ht.1] at hj'
        exact .inl (Option.some.inj hj').symm
      · exact .inr (.inr ⟨j', by rw [← hother j' hj]; exact hj'⟩)
  have hrecord : g.record s (.server j) =
      { g with
        servings := g.servings ++
          [{ server := j, slot := i, cabNumber := cab, reduceStatusTo := status }] } := by
    simp [Receipts.record, hpc]
  rw [hrecord]
  exact
    { reading := by
        intro j' i' cab' hj'
        have hj : j' ≠ j := by
          rintro rfl
          rw [ht.1] at hj'
          exact absurd hj' (by simp)
        rw [(server_pay hs i').1, hpass]
        simp only [hslot]
        exact h.reading j' i' cab' ((hother j' hj).symm.trans hj')
      writing := by
        intro j' i' cab' status' hj'
        have hj : j' ≠ j := by
          rintro rfl
          rw [ht.1] at hj'
          exact absurd hj' (by simp)
        exact h.writing j' i' cab' status' ((hother j' hj).symm.trans hj')
      served := by
        intro v hv
        rcases List.mem_append.mp hv with hv | hv
        · obtain ⟨hdone, q, hq⟩ := h.served v hv
          exact ⟨hold _ hdone, q, (hslot q).trans hq⟩
        · obtain rfl := List.mem_singleton.mp hv
          exact ⟨.inr ⟨j, by rw [ht.1]; rfl⟩, p, (hslot p).trans hp⟩
      processed := by
        intro q i' hq hdone
        rw [hslot] at hq
        rcases hnew i' hdone with rfl | hdone
        · exact ⟨_, List.mem_append_right _ (List.mem_singleton_self _), rfl⟩
        · obtain ⟨v, hv, hvi⟩ := h.processed q i' hq hdone
          exact ⟨v, List.mem_append_left _ hv, hvi⟩
      once := by
        rw [List.map_append, List.nodup_append]
        refine ⟨h.once, List.nodup_singleton _, ?_⟩
        intro x hx y hy hxy
        obtain ⟨v, hv, rfl⟩ := List.mem_map.mp hx
        obtain rfl : y = i := by simpa using hy
        have hdone := (h.served v hv).1
        rw [hxy] at hdone
        exact hfresh hdone
      data := by
        intro v hv
        rcases List.mem_append.mp hv with hv | hv
        · exact h.data v hv
        · obtain rfl := List.mem_singleton.mp hv
          exact h.writing j i cab status hpc }

theorem ServingsKept.server (hI : Slots P s) (hk : CallsKept s g) (h : ServingsKept s g)
    (hc : FieldsStored P s (.server j)) (hs : s.stepServer j = some t) :
    ServingsKept t (g.record s (.server j)) := by
  obtain ⟨-, -, hother⟩ := server_frame hs
  -- a step between the lock and the unlock that clears nothing
  have hsame : ∀ pc : Server, t.server j = pc → pc.used = (s.server j).used →
      (∀ i, (t.pay i).paymentStatus = (s.pay i).paymentStatus) →
      ∀ i, Processed t i ↔ Processed s i := by
    intro pc hself hused hstatus i
    have hall : ∀ j', (t.server j').used = (s.server j').used := by
      intro j'
      by_cases hj : j' = j
      · rw [hj, hself, hused]
      · rw [hother j' hj]
    simp only [Processed, hstatus, hall]
  have howner : ∀ i, (s.server j).serving = some i → ∃ p, p < P.m ∧ slotOf s p = some i := by
    intro i hi
    obtain ⟨p, hp⟩ := hI.pending i (hI.serving j i hi)
    refine ⟨p, ?_, hp⟩
    by_contra hge
    have harr := hI.absent p (Nat.le_of_not_lt hge)
    simp [slotOf, harr] at hp
  have hstep := hs
  unfold State.stepServer at hs
  simp only [FieldsStored] at hc
  cases hpc : s.server j with
  | left => simp [hpc] at hs
  | writeCab i cab status => exact h.use hI hpc hstep
  | readCab i =>
      simp only [hpc] at hs
      obtain rfl := Option.some.inj hs
      have hself : (s.serverAt j (.readReduce i (s.pay i).cabNumber)).server j =
          .readReduce i (s.pay i).cabNumber := by
        simp [State.serverAt]
      simp only [Receipts.record, hpc]
      refine h.moveServer hstep hself
        (hsame _ hself (by rw [hpc]; rfl) fun _ => rfl) ?_ (by simp)
      intro i' cab hpc'
      obtain ⟨rfl, rfl⟩ : i = i' ∧ (s.pay i).cabNumber = cab := by simpa using hpc'
      obtain ⟨p, hpm, hp⟩ := howner i (by rw [hpc]; rfl)
      rw [hpc] at hc
      exact ⟨rfl, p, hp, hc p hpm hp⟩
  | readReduce i cab =>
      simp only [hpc] at hs
      obtain rfl := Option.some.inj hs
      have hself : (s.serverAt j (.writeCab i cab (s.pay i).reduceStatusTo)).server j =
          .writeCab i cab (s.pay i).reduceStatusTo := by
        simp [State.serverAt]
      simp only [Receipts.record, hpc]
      refine h.moveServer hstep hself
        (hsame _ hself (by rw [hpc]; rfl) fun _ => rfl) (by simp) ?_
      intro i' cab' status hpc'
      obtain ⟨rfl, rfl, rfl⟩ : i = i' ∧ cab = cab' ∧ (s.pay i).reduceStatusTo = status := by
        simpa using hpc'
      obtain ⟨p, hpm, hp⟩ := howner i (by rw [hpc]; rfl)
      rw [hpc] at hc
      obtain ⟨c, hcg, -, rfl⟩ := hk.stored p i hp (hc p hpm hp)
      obtain ⟨-, -, hcab, hred⟩ := hk.calls c hcg
      exact ⟨c, hcg, rfl, hcab.trans (h.reading j _ cab hpc).1.symm, hred⟩
  | clear i cab status =>
      simp only [hpc] at hs
      obtain rfl := Option.some.inj hs
      have hself : ((s.setPay i fun y => { y with paymentStatus := false }).serverAt j
          (.readLeft i)).server j = .readLeft i := by
        simp [State.serverAt]
      simp only [Receipts.record, hpc]
      refine h.moveServer hstep hself ?_ (by simp) (by simp)
      intro i'
      by_cases hi : i' = i
      · subst hi
        refine iff_of_true (.inl ?_) (.inr ⟨j, by rw [hpc]; rfl⟩)
        simp [State.serverAt, State.setPay]
      · have hne : i ≠ i' := fun h => hi h.symm
        simp only [Processed, State.serverAt, State.setPay, Function.update_of_ne hi]
        apply or_congr Iff.rfl
        apply exists_congr
        intro j'
        by_cases hj : j' = j
        · subst hj
          simp [hpc, Server.used, hne]
        · simp [hj]
  | lockMutex i =>
      simp only [hpc] at hs
      split at hs
      · obtain rfl := Option.some.inj hs
        have hself : (State.serverAt { s with mutexForPaymentServer := some j } j
            (.readStatus i)).server j = .readStatus i := by
          simp [State.serverAt]
        simp only [Receipts.record, hpc]
        exact h.moveServer hstep hself
          (hsame _ hself (by rw [hpc]; rfl) fun _ => rfl) (by simp) (by simp)
      · exact absurd hs (by simp)
  | test i =>
      simp only [hpc] at hs
      obtain rfl := Option.some.inj hs
      have hself := Function.update_self j
        (if s.totalPassengersLeft ≤ 0 then Server.left else .lockMutex i) s.server
      simp only [Receipts.record, hpc]
      refine h.moveServer hstep hself (hsame _ hself ?_ fun _ => rfl) ?_ ?_
      · rw [hpc]
        split <;> rfl
      · intro i' cab
        split <;> simp
      · intro i' cab status
        split <;> simp
  | readStatus i =>
      simp only [hpc] at hs
      obtain rfl := Option.some.inj hs
      have hself := Function.update_self j
        (if (s.pay i).paymentStatus then Server.readCab i else .unlockMutex i) s.server
      simp only [Receipts.record, hpc]
      refine h.moveServer hstep hself (hsame _ hself ?_ fun _ => rfl) ?_ ?_
      · rw [hpc]
        split <;> rfl
      · intro i' cab
        split <;> simp
      · intro i' cab status
        split <;> simp
  | readLeft i =>
      simp only [hpc] at hs
      obtain rfl := Option.some.inj hs
      have hself := Function.update_self j (Server.writeLeft i s.totalPassengersLeft) s.server
      simp only [Receipts.record, hpc]
      exact h.moveServer hstep hself
        (hsame _ hself (by rw [hpc]; rfl) fun _ => rfl) (by simp) (by simp)
  | writeLeft i v =>
      simp only [hpc] at hs
      obtain rfl := Option.some.inj hs
      have hself := Function.update_self j (Server.unlockMutex i) s.server
      simp only [Receipts.record, hpc]
      exact h.moveServer hstep hself
        (hsame _ hself (by rw [hpc]; rfl) fun _ => rfl) (by simp) (by simp)
  | unlockMutex i =>
      simp only [hpc] at hs
      obtain rfl := Option.some.inj hs
      have hself := Function.update_self j (Server.test ((i + 1) % 500)) s.server
      simp only [Receipts.record, hpc]
      exact h.moveServer hstep hself
        (hsame _ hself (by rw [hpc]; rfl) fun _ => rfl) (by simp) (by simp)

end Servings

end OsWork.Ports.CabPayments

import OsWork.Ports.CabPayments
import OsWork.Verified.Counting
import Mathlib.Data.Finset.Range

/-!
# The counter of passengers

`total_passengers_left` starts at the number of passengers and is decremented
once for each of them: by the passenger himself when he finds no cab, else by
the server that processes his payment.  The two decrements run under different
locks, or none, and each is a read followed by a write.

A passenger is *counted* once his decrement has been stored.  The counter and
every copy of it that a thread is about to write back are at least the number
of passengers not counted: a lost update leaves the counter too high, never too
low.  So no server leaves early.

## Main results

* `server_left_finished` — a server leaves only when every passenger has given
  up or has had his payment processed.
* `careful_count_zero` — without overlapping decrements the counter is zero
  when every passenger is counted.
-/

namespace OsWork.Ports.CabPayments

open OsWork.Verified.Transition OsWork.Verified.Counting
open OsWork.Ports.CabRides (Cab Params Pay RideStatus book reduceStatusTo)
open Finset (range)

/-! ## Decrements under way -/

/-- The threads. -/
inductive Thread
  | passenger (p : Nat)
  | server (j : Nat)
  deriving DecidableEq

def Act.thread : Act → Thread
  | .takeCab p => .passenger p
  | .passenger p => .passenger p
  | .server j => .server j

/-- The copy of the counter that a thread has read and not yet written back. -/
def copyOf (s : State) : Thread → Option Int
  | .passenger p =>
      match s.passenger p with
      | .giveUpWrite v => some v
      | _ => none
  | .server j =>
      match s.server j with
      | .writeLeft _ v => some v
      | _ => none

/-- The slot that has been cleared and not yet counted. -/
def countingSlot (s : State) : Option Nat :=
  s.mutexForPaymentServer.bind fun j => (s.server j).counting

/-- The decrement for passenger `p` has been stored. -/
def counted (s : State) (p : Nat) : Bool :=
  match slotOf s p with
  | some i => !(s.pay i).paymentStatus && decide (countingSlot s ≠ some i)
  | none => s.passenger p == .gone

/-- The number of passengers whose decrement is still to come. -/
def outstanding (P : Params) (s : State) : Nat :=
  ((range P.m).filter fun p => counted s p = false).card

section Count

variable {P : Params} {s t : State} {a : Act} {p j : Nat}

/-- Whether a passenger is counted depends on his position and his slot. -/
theorem counted_congr (hpass : t.passenger p = s.passenger p)
    (hslot : slotOf t p = slotOf s p)
    (hpay : ∀ i, slotOf s p = some i → (t.pay i).paymentStatus = (s.pay i).paymentStatus)
    (hcount : ∀ i, slotOf s p = some i →
      (countingSlot t = some i ↔ countingSlot s = some i)) :
    counted t p = counted s p := by
  unfold counted
  rw [hslot]
  cases hi : slotOf s p with
  | none => simp only [hpass]
  | some i =>
      simp only [hpay i hi]
      congr 1
      by_cases hc : countingSlot s = some i
      · simp [hc, (hcount i hi).mpr hc]
      · have hc' : countingSlot t ≠ some i := fun h => hc ((hcount i hi).mp h)
        simp [hc, hc']

theorem outstanding_congr (h : ∀ p, p < P.m → counted t p = counted s p) :
    outstanding P t = outstanding P s := by
  unfold outstanding
  congr 1
  refine Finset.filter_congr ?_
  intro p hp
  rw [h p (Finset.mem_range.mp hp)]

/-- One passenger more is counted. -/
theorem outstanding_drop (hp : p < P.m) (hs : counted s p = false)
    (ht : counted t p = true) (h : ∀ q, q ≠ p → counted t q = counted s q) :
    outstanding P t + 1 = outstanding P s := by
  have hcard := card_filter_add_of_agree (s := range P.m)
    (p := fun q => counted s q = false) (q := fun q => counted t q = false)
    (a := p) (Finset.mem_range.mpr hp) fun q _ hq => by rw [h q hq]
  simpa [hs, ht, outstanding] using hcard

/-- With the slots in order, `countingSlot` is what any server says it is. -/
theorem countingSlot_eq (hI : Slots P s) {i : Nat} (h : (s.server j).counting = some i) :
    countingSlot s = some i := by
  have hin := hI.serverInside j (Server.inside_of_counting h)
  simp [countingSlot, hin, h]

/-! ## What a step does to the count -/

theorem counted_slot {i : Nat} (h : slotOf s p = some i) :
    counted s p = (!(s.pay i).paymentStatus && decide (countingSlot s ≠ some i)) := by
  simp only [counted, h]

theorem counted_none (h : slotOf s p = none) :
    counted s p = (s.passenger p == .gone) := by
  simp only [counted, h]

/-- A passenger's step leaves the servers and the other passengers alone. -/
theorem passenger_frame (hs : s.stepPassenger p = some t) :
    t.server = s.server ∧ t.mutexForPaymentServer = s.mutexForPaymentServer ∧
      ∀ q, q ≠ p → t.passenger q = s.passenger q := by
  unfold State.stepPassenger at hs
  split at hs <;> (try split at hs) <;> cases hs <;>
    refine ⟨rfl, rfl, fun q hq => ?_⟩ <;> simp [State.passengerAt, State.setPay, hq]

/-- A server's step leaves the passengers and the other servers alone. -/
theorem server_frame (hs : s.stepServer j = some t) :
    t.passenger = s.passenger ∧ t.currentEmptyPaySlot = s.currentEmptyPaySlot ∧
      ∀ j', j' ≠ j → t.server j' = s.server j' := by
  unfold State.stepServer at hs
  split at hs <;> (try split at hs) <;> cases hs <;>
    refine ⟨rfl, rfl, fun j' hj => ?_⟩ <;> simp [State.serverAt, State.setPay, hj]

/-- A passenger's step does not count another passenger. -/
theorem counted_passenger_other (hI : Slots P s) (hs : s.stepPassenger p = some t)
    {q : Nat} (hq : q ≠ p) : counted t q = counted s q := by
  obtain ⟨hserver, hmutex, hpass⟩ := passenger_frame hs
  have hcount : countingSlot t = countingSlot s := by
    unfold countingSlot
    rw [hserver, hmutex]
  have honly : (s.passenger p).Inside → ¬ (s.passenger q).Storing := by
    intro hin hst
    exact hq (Option.some.inj ((hI.inside q hst.inside).symm.trans (hI.inside p hin)))
  have hslot : slotOf t q = slotOf s q := by
    by_cases hcur : t.currentEmptyPaySlot = s.currentEmptyPaySlot
    · exact slotOf_congr (hpass q hq) hcur
    · -- only the slot counter's own step, with the lock held, moves it
      have hin : (s.passenger p).Inside := by
        unfold State.stepPassenger at hs
        split at hs <;> (try split at hs) <;> cases hs <;>
          first | exact absurd rfl hcur | (rename_i hpc; rw [hpc]; trivial)
      have hout := honly hin
      unfold slotOf
      rw [hpass q hq]
      split <;> first | rfl | (rename_i hpq; rw [hpq] at hout; exact absurd trivial hout)
  refine counted_congr (hpass q hq) hslot ?_ (fun i _ => by rw [hcount])
  intro i hi
  by_cases hst : (t.pay i).paymentStatus = (s.pay i).paymentStatus
  · exact hst
  · -- only the first store of do_payment changes a status, that of its own slot
    have hstore : (s.passenger p).Inside ∧ i = s.currentEmptyPaySlot := by
      unfold State.stepPassenger at hs
      split at hs <;> (try split at hs) <;> cases hs <;>
        first
        | exact absurd rfl hst
        | (rename_i hpc
           refine ⟨by rw [hpc]; trivial, ?_⟩
           by_contra hne
           refine hst ?_
           simp [State.passengerAt, State.setPay, hne])
    rcases hI.used q i hi with hlt | ⟨hstq, -⟩
    · omega
    · exact absurd hstq (honly hstore.1)

/-- What a step of thread `x` does to the counter: a write stores one less than
the copy and counts one passenger, any other step does neither. -/
def CountStep (P : Params) (s t : State) (x : Thread) : Prop :=
  match copyOf s x with
  | none => t.totalPassengersLeft = s.totalPassengersLeft ∧
      outstanding P t = outstanding P s
  | some v => t.totalPassengersLeft = v - 1 ∧ outstanding P t + 1 = outstanding P s

/-- A step that keeps the counter and every passenger's standing. -/
theorem CountStep.quiet {x : Thread} (hcopy : copyOf s x = none)
    (htotal : t.totalPassengersLeft = s.totalPassengersLeft)
    (h : ∀ q, counted t q = counted s q) : CountStep P s t x := by
  simp only [CountStep, hcopy]
  exact ⟨htotal, outstanding_congr fun q _ => h q⟩

theorem CountStep.passenger (hI : Slots P s) (hp : p < P.m)
    (hs : s.stepPassenger p = some t) : CountStep P s t (.passenger p) := by
  have hother : ∀ q, q ≠ p → counted t q = counted s q :=
    fun q hq => counted_passenger_other hI hs hq
  obtain ⟨hserver, hmutex, -⟩ := passenger_frame hs
  have hcount : countingSlot t = countingSlot s := by
    unfold countingSlot
    rw [hserver, hmutex]
  have all : counted t p = counted s p → ∀ q, counted t q = counted s q := by
    intro h q
    by_cases hq : q = p
    · rw [hq, h]
    · exact hother q hq
  -- the passenger keeps his slot, and the slot its status
  have keep : ∀ i, slotOf s p = some i → slotOf t p = some i →
      (t.pay i).paymentStatus = (s.pay i).paymentStatus → counted t p = counted s p := by
    intro i hi hi' hst
    rw [counted_slot hi, counted_slot hi', hst, hcount]
  unfold State.stepPassenger at hs
  cases hpc : s.passenger p with
  | arriving => simp [hpc] at hs
  | searching q => simp [hpc] at hs
  | gone => simp [hpc] at hs
  | paid slot => simp [hpc] at hs
  | givingUp | booked i | riding i =>
      simp only [hpc] at hs
      obtain rfl := Option.some.inj hs
      exact .quiet (by simp [copyOf, hpc]) rfl
        (all (by simp [counted, slotOf, State.passengerAt, hpc]))
  | giveUpWrite v =>
      simp only [hpc] at hs
      obtain rfl := Option.some.inj hs
      simp only [CountStep, copyOf, hpc]
      exact ⟨rfl, outstanding_drop hp (by simp [counted, slotOf, hpc])
        (by simp [counted, slotOf, State.passengerAt]) hother⟩
  | paying i status =>
      simp only [hpc] at hs
      split at hs
      · obtain rfl := Option.some.inj hs
        exact .quiet (by simp [copyOf, hpc]) rfl
          (all (by simp [counted, slotOf, State.passengerAt, hpc]))
      · exact absurd hs (by simp)
  | storeStatus i status =>
      simp only [hpc] at hs
      obtain rfl := Option.some.inj hs
      exact .quiet (by simp [copyOf, hpc]) rfl
        (all (by simp [counted, slotOf, State.passengerAt, State.setPay, hpc]))
  | storeCab i status | storeReduce i status =>
      simp only [hpc] at hs
      obtain rfl := Option.some.inj hs
      exact .quiet (by simp [copyOf, hpc]) rfl
        (all (keep s.currentEmptyPaySlot (by simp [slotOf, hpc])
          (by simp [slotOf, State.passengerAt, State.setPay])
          (by simp [State.passengerAt, State.setPay])))
  | takeSlot i =>
      simp only [hpc] at hs
      obtain rfl := Option.some.inj hs
      exact .quiet (by simp [copyOf, hpc]) rfl
        (all (keep s.currentEmptyPaySlot (by simp [slotOf, hpc])
          (by simp [slotOf, State.passengerAt]) rfl))
  | unlock slot =>
      simp only [hpc] at hs
      obtain rfl := Option.some.inj hs
      exact .quiet (by simp [copyOf, hpc]) rfl
        (all (keep slot (by simp [slotOf, hpc]) (by simp [slotOf, State.passengerAt]) rfl))
  | waiting slot =>
      simp only [hpc] at hs
      split at hs
      · exact absurd hs (by simp)
      · obtain rfl := Option.some.inj hs
        exact .quiet (by simp [copyOf, hpc]) rfl
          (all (keep slot (by simp [slotOf, hpc]) (by simp [slotOf, State.passengerAt])
            rfl))

theorem CountStep.takeCab (hs : s.takeCab P p = some t) : CountStep P s t (.passenger p) := by
  obtain ⟨pc, hpass, harr, hpc, htotal, hpay, hcur, hserver, hmutex, -⟩ := takeCab_frame hs
  have hcount : countingSlot t = countingSlot s := by
    unfold countingSlot
    rw [hserver, hmutex]
  have hold : copyOf s (.passenger p) = none ∧ slotOf s p = none ∧ s.passenger p ≠ .gone := by
    rcases harr with harr | ⟨pc', harr⟩ <;> simp [copyOf, slotOf, harr]
  refine .quiet hold.1 htotal ?_
  intro q
  by_cases hq : q = p
  · subst hq
    have hself : t.passenger q = pc := by rw [hpass, Function.update_self]
    have hnew : slotOf t q = none ∧ t.passenger q ≠ .gone := by
      rcases hpc with rfl | ⟨i, rfl⟩ | ⟨pc', rfl⟩ <;> simp [slotOf, hself]
    rw [counted_none hold.2.1, counted_none hnew.1, beq_false_of_ne hnew.2,
      beq_false_of_ne hold.2.2]
  · have hsame : t.passenger q = s.passenger q := by
      rw [hpass, Function.update_of_ne hq]
    exact counted_congr hsame (slotOf_congr hsame hcur) (fun i _ => by rw [hpay])
      (fun i _ => by rw [hcount])

/-- A server's step that keeps the slots and what is being counted. -/
theorem counted_server {pc : Server} (hserver : t.server = Function.update s.server j pc)
    (hpass : t.passenger = s.passenger) (hpay : t.pay = s.pay)
    (hcur : t.currentEmptyPaySlot = s.currentEmptyPaySlot)
    (hmutex : t.mutexForPaymentServer = s.mutexForPaymentServer)
    (hcounting : pc.counting = (s.server j).counting) (q : Nat) :
    counted t q = counted s q := by
  have hcount : countingSlot t = countingSlot s := by
    unfold countingSlot
    rw [hserver, hmutex]
    cases s.mutexForPaymentServer with
    | none => rfl
    | some j' =>
        simp only [Option.bind_some, Function.update_apply]
        split
        · rename_i heq
          rw [hcounting, heq]
        · rfl
  exact counted_congr (congrFun hpass q) (slotOf_congr (congrFun hpass q) hcur)
    (fun i _ => by rw [hpay]) (fun i _ => by rw [hcount])

theorem CountStep.server (hI : Slots P s) (hs : s.stepServer j = some t) :
    CountStep P s t (.server j) := by
  unfold State.stepServer at hs
  cases hpc : s.server j with
  | left => simp [hpc] at hs
  | test i | readStatus i =>
      simp only [hpc] at hs
      obtain rfl := Option.some.inj hs
      refine .quiet (by simp [copyOf, hpc]) rfl (counted_server rfl rfl rfl rfl rfl ?_)
      rw [hpc]
      split <;> rfl
  | lockMutex i =>
      simp only [hpc] at hs
      split at hs
      · rename_i hfree
        obtain rfl := Option.some.inj hs
        refine .quiet (by simp [copyOf, hpc]) rfl fun q =>
          counted_congr rfl rfl (fun _ _ => rfl) fun i' _ => ?_
        simp [countingSlot, hfree, State.serverAt, Server.counting]
      · exact absurd hs (by simp)
  | readCab i | readReduce i cab | writeCab i cab status | readLeft i =>
      simp only [hpc] at hs
      obtain rfl := Option.some.inj hs
      exact .quiet (by simp [copyOf, hpc]) rfl
        (counted_server rfl rfl rfl rfl rfl (by rw [hpc]; rfl))
  | clear i cab status =>
      simp only [hpc] at hs
      have ht := Option.some.inj hs
      have hst := hI.serving j i (by rw [hpc]; rfl)
      have hmine : s.mutexForPaymentServer = some j :=
        hI.serverInside j (by rw [hpc]; trivial)
      refine .quiet (by simp [copyOf, hpc]) (by rw [← ht]; rfl) fun q => ?_
      have hslot : slotOf t q = slotOf s q := by
        rw [← ht]
        exact slotOf_congr rfl rfl
      cases hq : slotOf s q with
      | none =>
          rw [counted_none hq, counted_none (hslot.trans hq), ← ht]
          rfl
      | some i' =>
          rw [counted_slot hq, counted_slot (hslot.trans hq), ← ht]
          by_cases hi : i' = i
          · -- pending before, in the server's hands after
            subst hi
            simp [hst, countingSlot, State.serverAt, State.setPay, hmine, Server.counting]
          · have hne : i ≠ i' := fun h => hi h.symm
            simp [countingSlot, State.serverAt, State.setPay, hmine, Server.counting, hpc,
              hi, hne]
  | writeLeft i v =>
      simp only [hpc] at hs
      have ht := Option.some.inj hs
      obtain ⟨hst, p, hp⟩ := hI.counting j i (by rw [hpc]; rfl)
      have hmine : s.mutexForPaymentServer = some j :=
        hI.serverInside j (by rw [hpc]; trivial)
      have hbefore : countingSlot s = some i := countingSlot_eq hI (by rw [hpc]; rfl)
      have hpm : p < P.m := by
        by_contra hge
        have harr := hI.absent p (Nat.le_of_not_lt hge)
        simp [slotOf, harr] at hp
      have hslot : slotOf t p = slotOf s p := by
        rw [← ht]
        exact slotOf_congr rfl rfl
      simp only [CountStep, copyOf, hpc]
      refine ⟨by rw [← ht]; rfl, outstanding_drop hpm ?_ ?_ ?_⟩
      · rw [counted_slot hp]
        simp [hbefore]
      · rw [counted_slot (hslot.trans hp), ← ht]
        simp [hst, countingSlot, State.serverAt, hmine, Server.counting]
      · intro q hq
        subst ht
        refine counted_congr rfl rfl (fun _ _ => rfl) fun i' hi' => ?_
        have hne : i' ≠ i := by
          rintro rfl
          exact hq (hI.distinct q p i' hi' hp)
        have hne' : i ≠ i' := fun h => hne h.symm
        rw [hbefore]
        simp [countingSlot, State.serverAt, hmine, Server.counting, hne']
  | unlockMutex i =>
      simp only [hpc] at hs
      obtain rfl := Option.some.inj hs
      have hmine : s.mutexForPaymentServer = some j :=
        hI.serverInside j (by rw [hpc]; trivial)
      refine .quiet (by simp [copyOf, hpc]) rfl fun q =>
        counted_congr rfl rfl (fun _ _ => rfl) fun i' _ => ?_
      simp [countingSlot, State.serverAt, hmine, Server.counting, hpc]

/-- Every step is a `CountStep` of its thread. -/
theorem CountStep.of_step (hI : Slots P s) (hs : step P s a = some t) :
    CountStep P s t a.thread := by
  cases a with
  | takeCab p =>
      simp only [step] at hs
      split at hs
      · exact .takeCab hs
      · exact absurd hs (by simp)
  | passenger p =>
      simp only [step] at hs
      split at hs
      · rename_i hp
        exact .passenger hI hp hs
      · exact absurd hs (by simp)
  | server j =>
      simp only [step] at hs
      split at hs
      · exact .server hI hs
      · exact absurd hs (by simp)

/-- No step takes a decrement back. -/
theorem CountStep.outstanding_le {x : Thread} (h : CountStep P s t x) :
    outstanding P t ≤ outstanding P s := by
  unfold CountStep at h
  split at h
  · exact le_of_eq h.2
  · omega

/-! ## Copies -/

/-- Only a read of the counter makes a copy, and the next step of the thread
writes it back. -/
theorem copyOf_passenger (hs : s.stepPassenger p = some t) {v : Int}
    (h : copyOf t (.passenger p) = some v) :
    copyOf s (.passenger p) = none ∧ v = s.totalPassengersLeft := by
  unfold State.stepPassenger at hs
  split at hs <;> (try split at hs) <;> cases hs <;>
    simp_all [copyOf, State.passengerAt, State.setPay]

theorem copyOf_server (hs : s.stepServer j = some t) {v : Int}
    (h : copyOf t (.server j) = some v) :
    copyOf s (.server j) = none ∧ v = s.totalPassengersLeft := by
  unfold State.stepServer at hs
  split at hs <;> (try split at hs) <;> cases hs <;>
    simp_all [copyOf, State.serverAt, State.setPay]

/-- A copy after a step was there before, or is what the counter held. -/
theorem copyOf_step (hs : step P s a = some t) {x : Thread} {v : Int}
    (h : copyOf t x = some v) :
    x ≠ a.thread ∧ copyOf s x = some v ∨
      x = a.thread ∧ copyOf s x = none ∧ v = s.totalPassengersLeft := by
  cases a with
  | takeCab p =>
      simp only [step] at hs
      split at hs
      · obtain ⟨pc, hpass, -, hpc, -, -, -, hserver, -⟩ := takeCab_frame hs
        left
        cases x with
        | passenger q =>
            by_cases hq : q = p
            · subst hq
              rcases hpc with rfl | ⟨i, rfl⟩ | ⟨pc', rfl⟩ <;> simp [copyOf, hpass] at h
            · refine ⟨by simpa [Act.thread] using hq, ?_⟩
              simpa [copyOf, hpass, hq] using h
        | server j => exact ⟨by simp [Act.thread], by simpa [copyOf, hserver] using h⟩
      · exact absurd hs (by simp)
  | passenger p =>
      simp only [step] at hs
      split at hs
      · obtain ⟨hserver, -, hpass⟩ := passenger_frame hs
        cases x with
        | passenger q =>
            by_cases hq : q = p
            · subst hq
              exact .inr ⟨rfl, copyOf_passenger hs h⟩
            · refine .inl ⟨by simpa [Act.thread] using hq, ?_⟩
              simpa [copyOf, hpass q hq] using h
        | server j =>
            exact .inl ⟨by simp [Act.thread], by simpa [copyOf, hserver] using h⟩
      · exact absurd hs (by simp)
  | server j =>
      simp only [step] at hs
      split at hs
      · obtain ⟨hpass, -, hserver⟩ := server_frame hs
        cases x with
        | passenger q => exact .inl ⟨by simp [Act.thread], by simpa [copyOf, hpass] using h⟩
        | server j' =>
            by_cases hj : j' = j
            · subst hj
              exact .inr ⟨rfl, copyOf_server hs h⟩
            · refine .inl ⟨by simpa [Act.thread] using hj, ?_⟩
              simpa [copyOf, hserver j' hj] using h
      · exact absurd hs (by simp)

/-! ## No server leaves early -/

/-- The counter and every copy of it are at least the number of decrements
still to come. -/
structure CounterHigh (P : Params) (s : State) : Prop where
  slots : Slots P s
  total : (outstanding P s : Int) ≤ s.totalPassengersLeft
  copies : ∀ x v, copyOf s x = some v → (outstanding P s : Int) ≤ v

theorem CounterHigh.start (P : Params) : CounterHigh P (start P) where
  slots := .start P
  total := by
    have hle : outstanding P (CabPayments.start P) ≤ P.m := by
      have hcard := Finset.card_filter_le (range P.m)
        (fun p => counted (CabPayments.start P) p = false)
      simpa [outstanding] using hcard
    simpa [CabPayments.start] using hle
  copies x v h := by
    cases x <;> simp [copyOf, CabPayments.start] at h

/-- The number of decrements to come goes down only, and by one with each write;
so a stale copy is still high enough when it is written back. -/
theorem CounterHigh.step (hI : CounterHigh P s) (hs : step P s a = some t) :
    CounterHigh P t := by
  have hcount := CountStep.of_step hI.slots hs
  have hdown := hcount.outstanding_le
  exact
    { slots := hI.slots.step hs
      total := by
        have htotal := hI.total
        unfold CountStep at hcount
        split at hcount
        · rw [hcount.1, hcount.2]
          exact htotal
        · rename_i v hv
          have hcopy := hI.copies _ v hv
          omega
      copies := by
        intro x v h
        have hle : (outstanding P t : Int) ≤ outstanding P s := by exact_mod_cast hdown
        rcases copyOf_step hs h with ⟨-, hold⟩ | ⟨-, -, rfl⟩
        · exact hle.trans (hI.copies x v hold)
        · exact hle.trans hI.total }

/-- The passenger has given up in `take_cab`, or his payment has been processed. -/
def Finished (s : State) (p : Nat) : Prop :=
  match slotOf s p with
  | some i => (s.pay i).paymentStatus = false
  | none => match s.passenger p with
    | .givingUp | .giveUpWrite _ | .gone => True
    | _ => False

theorem finished_of_counted (h : counted s p = true) : Finished s p := by
  unfold Finished
  cases hi : slotOf s p with
  | some i =>
      rw [counted_slot hi, Bool.and_eq_true, Bool.not_eq_true'] at h
      exact h.1
  | none =>
      rw [counted_none hi, beq_iff_eq] at h
      simp [h]

/-- With nothing outstanding every passenger is counted. -/
theorem counted_of_outstanding (h : outstanding P s = 0) (hp : p < P.m) :
    counted s p = true := by
  have hempty := Finset.card_eq_zero.mp h
  have hnot := Finset.filter_eq_empty_iff.mp hempty (Finset.mem_range.mpr hp)
  simpa using hnot

/-- A server reaches `pthread_exit` only by its own test of the counter. -/
theorem left_of_step (hs : step P s a = some t) (hleft : t.server j = .left) :
    s.server j = .left ∨ s.totalPassengersLeft ≤ 0 := by
  cases a with
  | takeCab p =>
      simp only [step] at hs
      split at hs
      · obtain ⟨pc, -, -, -, -, -, -, hserver, -⟩ := takeCab_frame hs
        exact .inl (hserver ▸ hleft)
      · exact absurd hs (by simp)
  | passenger p =>
      simp only [step] at hs
      split at hs
      · exact .inl ((passenger_frame hs).1 ▸ hleft)
      · exact absurd hs (by simp)
  | server j' =>
      simp only [step] at hs
      split at hs
      · by_cases hj : j = j'
        · subst hj
          unfold State.stepServer at hs
          split at hs <;> (try split at hs) <;> cases hs <;>
            simp [State.serverAt, State.setPay] at hleft
          rename_i hle
          exact .inr hle
        · exact .inl ((server_frame hs).2.2 j hj ▸ hleft)
      · exact absurd hs (by simp)

/-- The counter is high, and nothing is outstanding once a server has left. -/
structure NoneEarly (P : Params) (s : State) : Prop where
  high : CounterHigh P s
  left : ∀ j, s.server j = .left → outstanding P s = 0

theorem NoneEarly.step (hI : NoneEarly P s) (hs : step P s a = some t) :
    NoneEarly P t where
  high := hI.high.step hs
  left := by
    intro j hleft
    have hdown := CountStep.outstanding_le (CountStep.of_step hI.high.slots hs)
    have hzero : outstanding P s = 0 := by
      rcases left_of_step hs hleft with hold | htest
      · exact hI.left j hold
      · have htotal := hI.high.total
        omega
    omega

theorem NoneEarly.of_reachable (h : (service P).Reachable s) : NoneEarly P s :=
  h.invariant
    (fun _ h0 => h0 ▸ ⟨.start P, fun j hj => by simp [CabPayments.start] at hj⟩)
    (fun _ _ _ hI _ hstep => hI.step hstep)

end Count

/-- `main` is past its joins: it has started every thread, and the joins return
when every server has left. -/
def MainReturns (P : Params) (s : State) : Prop :=
  ∀ j, j < P.k → s.server j = .left

instance (P : Params) (s : State) : Decidable (MainReturns P s) := by
  unfold MainReturns
  infer_instance

instance (s : State) (p : Nat) : Decidable (Finished s p) := by
  unfold Finished
  split
  · infer_instance
  · split <;> infer_instance

/-- A server that has left its loop has left every passenger finished; with at
least one server, `main` outlives every ride. -/
theorem server_left_finished (P : Params) (s : State) (h : (service P).Reachable s) :
    (∀ j, s.server j = .left → ∀ p, p < P.m → Finished s p) ∧
      (1 ≤ P.k → MainReturns P s → ∀ p, p < P.m → Finished s p) := by
  have hI := NoneEarly.of_reachable h
  have hleft : ∀ j, s.server j = .left → ∀ p, p < P.m → Finished s p := by
    intro j hj p hp
    exact finished_of_counted (counted_of_outstanding (hI.left j hj) hp)
  refine ⟨hleft, ?_⟩
  intro hk hmain p hp
  exact hleft 0 (hmain 0 (by omega)) p hp

/-- One premier passenger rides and pays, the server counts him and leaves. -/
def paidRide : List Act :=
  List.flatten [List.replicate 4 (.takeCab 0), List.replicate 8 (.passenger 0),
    List.replicate 11 (.server 0), [.passenger 0]]

theorem server_left_finished_paidRide :
    ∃ s, (service ⟨1, 1, 1⟩).Reachable s ∧ s.server 0 = .left ∧ Finished s 0 := by
  obtain ⟨s, hs, hp⟩ := System.exists_reachable_of_run (M := service ⟨1, 1, 1⟩)
    (l := paidRide) (p := fun s => decide (s.server 0 = .left ∧ MainReturns ⟨1, 1, 1⟩ s))
    rfl (by decide)
  obtain ⟨hleft, hmain⟩ := of_decide_eq_true hp
  exact ⟨s, hs, hleft,
    (server_left_finished ⟨1, 1, 1⟩ s hs).2 (Nat.le_refl 1) hmain 0 (Nat.lt_succ_self 0)⟩

/-- Without a server there is nothing to join: `main` returns while the only
passenger rides. -/
theorem not_all_mainReturns_finished :
    ¬ ∀ (P : Params) (s : State), (service P).Reachable s → MainReturns P s →
      ∀ p, p < P.m → Finished s p := by
  intro hall
  obtain ⟨s, hs, hp⟩ := System.exists_reachable_of_run (M := service ⟨1, 1, 0⟩)
    (l := List.replicate 4 (.takeCab 0) ++ [.passenger 0])
    (p := fun s => decide (MainReturns ⟨1, 1, 0⟩ s ∧ ¬ Finished s 0)) rfl (by decide)
  obtain ⟨hmain, hriding⟩ := of_decide_eq_true hp
  exact hriding (hall ⟨1, 1, 0⟩ s hs hmain 0 (Nat.lt_succ_self 0))

end OsWork.Ports.CabPayments

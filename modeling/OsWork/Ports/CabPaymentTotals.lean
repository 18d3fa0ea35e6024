import OsWork.Ports.CabPaymentCounts
import Mathlib.Algebra.Order.BigOperators.Group.Finset

/-!
# When the counter of passengers comes out at zero

`total_passengers_left--` in `take_cab` runs after the mutex is released, and
`total_passengers_left -= 1` in `server_in_action` under the mutex of the
servers.  Two of them can overlap; then one is lost and no server ever leaves.

As long as no thread reads the counter for a decrement while another thread is
between its read and its write, the counter equals the number of passengers
whose decrement is still to come.

## Main results

* `careful_countsOut` — without overlapping decrements the counter is zero once
  every passenger is counted, and from there every server leaves its loop.
* `not_all_countsOut` — with one overlap it is not.
-/

namespace OsWork.Ports.CabPayments

open OsWork.Verified.Transition
open OsWork.Ports.CabRides (Params RideStatus)

/-! ## Decrements that do not overlap -/

/-- No thread is between the read and the write of a decrement. -/
def NoCopy (P : Params) (s : State) : Prop :=
  (∀ p, p < P.m → copyOf s (.passenger p) = none) ∧
    ∀ j, j < P.k → copyOf s (.server j) = none

instance (P : Params) (s : State) : Decidable (NoCopy P s) := by
  unfold NoCopy
  infer_instance

/-- The thread is about to read the counter for a decrement. -/
def AboutToRead (s : State) : Thread → Bool
  | .passenger p => s.passenger p == .givingUp
  | .server j =>
      match s.server j with
      | .readLeft _ => true
      | _ => false

/-- A decrement starts only when none is under way. -/
def NoOverlap (P : Params) (s : State) (a : Act) : Prop :=
  AboutToRead s a.thread = true → NoCopy P s

instance (P : Params) (s : State) (a : Act) : Decidable (NoOverlap P s a) := by
  unfold NoOverlap
  infer_instance

/-- The counter is the number of decrements to come, and at most one thread
holds a copy of it. -/
structure CounterExact (P : Params) (s : State) : Prop where
  slots : Slots P s
  total : s.totalPassengersLeft = outstanding P s
  copies : ∀ x v, copyOf s x = some v → v = s.totalPassengersLeft
  single : ∀ x y v w, copyOf s x = some v → copyOf s y = some w → x = y
  noServer : ∀ j, P.k ≤ j → s.server j = .test 0

theorem CounterExact.start (P : Params) : CounterExact P (start P) where
  slots := .start P
  total := by
    have hall : ∀ p, counted (CabPayments.start P) p = false := by
      intro p
      simp [counted, slotOf, CabPayments.start]
    simp only [outstanding, hall]
    simp [CabPayments.start]
  copies x v h := by
    cases x <;> simp [copyOf, CabPayments.start] at h
  single x y v w h := by
    cases x <;> simp [copyOf, CabPayments.start] at h
  noServer j _ := rfl

section Steps

variable {P : Params} {s t : State} {a : Act} {p j : Nat}

/-- `NoCopy` covers every thread of the service. -/
theorem CounterExact.noCopy (hI : CounterExact P s) (h : NoCopy P s) (x : Thread) :
    copyOf s x = none := by
  cases x with
  | passenger p =>
      by_cases hp : p < P.m
      · exact h.1 p hp
      · have harr := hI.slots.absent p (Nat.le_of_not_lt hp)
        simp [copyOf, harr]
  | server j =>
      by_cases hj : j < P.k
      · exact h.2 j hj
      · have htest := hI.noServer j (Nat.le_of_not_lt hj)
        simp [copyOf, htest]

/-- Only a thread about to read gets a copy. -/
theorem aboutToRead_of_copy (hs : step P s a = some t) {v : Int}
    (hnone : copyOf s a.thread = none) (h : copyOf t a.thread = some v) :
    AboutToRead s a.thread = true := by
  cases a with
  | takeCab p =>
      simp only [step] at hs
      split at hs
      · obtain ⟨pc, hpass, -, hpc, -⟩ := takeCab_frame hs
        rcases hpc with rfl | ⟨i, rfl⟩ | ⟨pc', rfl⟩ <;>
          simp [copyOf, Act.thread, hpass] at h
      · exact absurd hs (by simp)
  | passenger p =>
      simp only [step] at hs
      split at hs
      · unfold State.stepPassenger at hs
        split at hs <;> (try split at hs) <;> cases hs <;>
          simp_all [copyOf, Act.thread, AboutToRead, State.passengerAt, State.setPay]
      · exact absurd hs (by simp)
  | server j =>
      simp only [step] at hs
      split at hs
      · unfold State.stepServer at hs
        split at hs <;> (try split at hs) <;> cases hs <;>
          simp_all [copyOf, Act.thread, AboutToRead, State.serverAt, State.setPay]
      · exact absurd hs (by simp)

/-- Only the threads of the service move. -/
theorem server_of_step (hs : step P s a = some t) (hj : P.k ≤ j) :
    t.server j = s.server j := by
  cases a with
  | takeCab p =>
      simp only [step] at hs
      split at hs
      · obtain ⟨pc, -, -, -, -, -, -, hserver, -⟩ := takeCab_frame hs
        rw [hserver]
      · exact absurd hs (by simp)
  | passenger p =>
      simp only [step] at hs
      split at hs
      · rw [(passenger_frame hs).1]
      · exact absurd hs (by simp)
  | server j' =>
      simp only [step] at hs
      split at hs
      · exact (server_frame hs).2.2 j (by omega)
      · exact absurd hs (by simp)

/-- The thread that holds the only copy writes it back: the counter stays exact
and no copy is left. -/
theorem CounterExact.write (hI : CounterExact P s) {v : Int}
    (hcopy : copyOf s a.thread = some v) (hs : step P s a = some t) :
    CounterExact P t := by
  have hcount := CountStep.of_step hI.slots hs
  simp only [CountStep, hcopy] at hcount
  have hnone : ∀ x w, copyOf t x ≠ some w := by
    intro x w h
    rcases copyOf_step hs h with ⟨hne, hold⟩ | ⟨rfl, hold, -⟩
    · exact hne (hI.single x a.thread w v hold hcopy)
    · exact absurd (hold.symm.trans hcopy) (by simp)
  have hv := hI.copies _ v hcopy
  have htotal := hI.total
  exact
    { slots := hI.slots.step hs
      total := by
        rw [hcount.1]
        omega
      copies := fun x w h => absurd h (hnone x w)
      single := fun x y w _ h => absurd h (hnone x w)
      noServer := fun j hj => (server_of_step hs hj).trans (hI.noServer j hj) }

/-- Any other step leaves the counter alone; a copy it makes is the only one. -/
theorem CounterExact.read (hI : CounterExact P s) (hc : NoOverlap P s a)
    (hcopy : copyOf s a.thread = none) (hs : step P s a = some t) :
    CounterExact P t := by
  have hcount := CountStep.of_step hI.slots hs
  simp only [CountStep, hcopy] at hcount
  -- a new copy is taken only when there is no old one
  have hfresh : ∀ x v, copyOf t x = some v → x = a.thread →
      ∀ y, copyOf s y = none := by
    rintro x v h rfl y
    exact hI.noCopy (hc (aboutToRead_of_copy hs hcopy h)) y
  exact
    { slots := hI.slots.step hs
      total := by rw [hcount.1, hcount.2, hI.total]
      copies := by
        intro x v h
        rw [hcount.1]
        rcases copyOf_step hs h with ⟨-, hold⟩ | ⟨-, -, hv⟩
        · exact hI.copies x v hold
        · exact hv
      single := by
        intro x y v w hx hy
        rcases copyOf_step hs hx with ⟨hnx, hox⟩ | ⟨hxa, -, -⟩
        · rcases copyOf_step hs hy with ⟨-, hoy⟩ | ⟨hya, -, -⟩
          · exact hI.single x y v w hox hoy
          · exact absurd (hox.symm.trans (hfresh y w hy hya x)) (by simp)
        · rcases copyOf_step hs hy with ⟨-, hoy⟩ | ⟨hya, -, -⟩
          · exact absurd (hoy.symm.trans (hfresh x v hx hxa y)) (by simp)
          · rw [hxa, hya]
      noServer := fun j hj => (server_of_step hs hj).trans (hI.noServer j hj) }

/-- A step that overlaps no decrement keeps the counter exact. -/
theorem CounterExact.step (hI : CounterExact P s) (hc : NoOverlap P s a)
    (hs : step P s a = some t) : CounterExact P t := by
  cases hcopy : copyOf s a.thread with
  | none => exact hI.read hc hcopy hs
  | some v => exact hI.write hcopy hs

/-- With every passenger counted, nothing is outstanding. -/
theorem outstanding_of_counted (h : ∀ p, p < P.m → counted s p = true) :
    outstanding P s = 0 := by
  apply Finset.card_eq_zero.mpr
  apply Finset.filter_eq_empty_iff.mpr
  intro p hp
  simp [h p (Finset.mem_range.mp hp)]

/-! ## The servers leave -/

/-- Whoever holds the mutex of the servers is inside. -/
def Held (s : State) : Prop :=
  ∀ j, s.mutexForPaymentServer = some j → (s.server j).Inside

theorem Held.server (hI : Slots P s) (h : Held s) (hs : s.stepServer j = some t) :
    Held t := by
  have away : ∀ j', s.mutexForPaymentServer = some j' → (s.server j).Inside → j' = j :=
    fun j' hj' hin => Option.some.inj (hj'.symm.trans (hI.serverInside j hin))
  unfold State.stepServer at hs
  intro j' hj'
  cases hpc : s.server j with
  | left => simp [hpc] at hs
  | test i =>
      simp only [hpc] at hs
      obtain rfl := Option.some.inj hs
      have hin := h j' hj'
      have hne : j' ≠ j := by
        rintro rfl
        rw [hpc] at hin
        exact hin
      simpa [State.serverAt, hne] using hin
  | lockMutex i =>
      simp only [hpc] at hs
      split at hs
      · obtain rfl := Option.some.inj hs
        obtain rfl : j = j' := by simpa [State.serverAt] using hj'
        simp [State.serverAt, Server.Inside]
      · exact absurd hs (by simp)
  | unlockMutex i =>
      simp only [hpc] at hs
      obtain rfl := Option.some.inj hs
      simp [State.serverAt] at hj'
  | readStatus i =>
      simp only [hpc] at hs
      obtain rfl := Option.some.inj hs
      obtain rfl := away j' hj' (by rw [hpc]; trivial)
      simp only [State.serverAt, Function.update_self]
      split <;> trivial
  | _ =>
      simp only [hpc] at hs
      obtain rfl := Option.some.inj hs
      obtain rfl := away j' hj' (by rw [hpc]; trivial)
      simp [State.serverAt, State.setPay, Server.Inside]

theorem Held.step (hI : Slots P s) (h : Held s) (hs : step P s a = some t) : Held t := by
  cases a with
  | takeCab p =>
      simp only [CabPayments.step] at hs
      split at hs
      · obtain ⟨pc, -, -, -, -, -, -, hserver, hmutex, -⟩ := takeCab_frame hs
        intro j hj
        rw [hserver]
        exact h j (hmutex ▸ hj)
      · exact absurd hs (by simp)
  | passenger p =>
      simp only [CabPayments.step] at hs
      split at hs
      · obtain ⟨hserver, hmutex, -⟩ := passenger_frame hs
        intro j hj
        rw [hserver]
        exact h j (hmutex ▸ hj)
      · exact absurd hs (by simp)
  | server j =>
      simp only [CabPayments.step] at hs
      split at hs
      · exact h.server hI hs
      · exact absurd hs (by simp)

/-- Every passenger is counted and the counter shows it. -/
structure Settled (P : Params) (s : State) : Prop where
  slots : Slots P s
  none : outstanding P s = 0
  total : s.totalPassengersLeft = 0
  held : Held s
  noServer : ∀ j, P.k ≤ j → s.server j = .test 0

/-- Nothing is pending any more. -/
theorem Settled.cleared (hI : Settled P s) (i : Nat) : (s.pay i).paymentStatus = false := by
  by_contra h
  have hst : (s.pay i).paymentStatus = true := by simpa using h
  obtain ⟨p, hp⟩ := hI.slots.pending i hst
  have hpm : p < P.m := by
    by_contra hge
    have harr := hI.slots.absent p (Nat.le_of_not_lt hge)
    simp [slotOf, harr] at hp
  have hcount := counted_of_outstanding hI.none hpm
  simp [counted_slot hp, hst] at hcount

/-- No server is between clearing a slot and counting it. -/
theorem Settled.notCounting (hI : Settled P s) (i : Nat) :
    (s.server j).counting ≠ some i := by
  intro h
  obtain ⟨-, p, hp⟩ := hI.slots.counting j i h
  have hpm : p < P.m := by
    by_contra hge
    have harr := hI.slots.absent p (Nat.le_of_not_lt hge)
    simp [slotOf, harr] at hp
  have hcount := counted_of_outstanding hI.none hpm
  simp [counted_slot hp, countingSlot_eq hI.slots h] at hcount

theorem Settled.notServing (hI : Settled P s) (i : Nat) :
    (s.server j).serving ≠ some i := by
  intro h
  have hst := hI.slots.serving j i h
  rw [hI.cleared i] at hst
  exact absurd hst (by simp)

/-- The accesses a server has to make before it leaves, once everything is
settled. -/
def Server.distance : Server → Nat
  | .left => 0
  | .test _ => 1
  | .unlockMutex _ => 2
  | .readStatus _ => 3
  | .lockMutex _ => 4
  | _ => 0

theorem Settled.server (hI : Settled P s) (hj : j < P.k)
    (hs : s.stepServer j = some t) : Settled P t := by
  have hstep : CabPayments.step P s (.server j) = some t := by
    simp [CabPayments.step, hj, hs]
  have hcount := CountStep.of_step hI.slots hstep
  have hle := hcount.outstanding_le
  have hcopy : copyOf s (.server j) = Option.none := by
    cases hpc : s.server j with
    | writeLeft i v =>
        exact absurd (by rw [hpc]; rfl) (hI.notCounting (j := j) i)
    | _ => simp [copyOf, hpc]
  exact
    { slots := hI.slots.step hstep
      none := by
        have hzero := hI.none
        omega
      total := by
        simp only [CountStep, Act.thread, hcopy] at hcount
        exact hcount.1.trans hI.total
      held := hI.held.step hI.slots hstep
      noServer := fun j' hj' => (server_of_step hstep hj').trans (hI.noServer j' hj') }

/-- A server that is not kept waiting by the mutex moves, towards its exit. -/
theorem Settled.moves (hI : Settled P s) (hpc : s.server j ≠ .left)
    (hfree : s.mutexForPaymentServer = Option.none ∨ s.mutexForPaymentServer = some j) :
    ∃ t, s.stepServer j = some t ∧ (t.server j).distance < (s.server j).distance := by
  have hserving := hI.notServing (j := j)
  have hcounting := hI.notCounting (j := j)
  cases h : s.server j with
  | left => exact absurd h hpc
  | test i =>
      refine ⟨_, by simp only [State.stepServer, h]; rfl, ?_⟩
      simp [State.serverAt, Server.distance, hI.total]
  | lockMutex i =>
      have hnone : s.mutexForPaymentServer = Option.none := by
        rcases hfree with hnone | hmine
        · exact hnone
        · have hin := hI.held j hmine
          rw [h] at hin
          exact hin.elim
      refine ⟨_, by simp only [State.stepServer, h, hnone, if_true]; rfl, ?_⟩
      simp [State.serverAt, Server.distance]
  | readStatus i =>
      refine ⟨_, by simp only [State.stepServer, h]; rfl, ?_⟩
      simp [State.serverAt, Server.distance, hI.cleared i]
  | unlockMutex i =>
      refine ⟨_, by simp only [State.stepServer, h]; rfl, ?_⟩
      simp [State.serverAt, Server.distance]
  | readCab i | readReduce i cab | writeCab i cab status | clear i cab status =>
      exact absurd (by rw [h]; rfl) (hserving i)
  | readLeft i | writeLeft i v => exact absurd (by rw [h]; rfl) (hcounting i)

/-- As long as a server is in its loop, one of them can move. -/
theorem Settled.enabled (hI : Settled P s) (h : ¬ MainReturns P s) :
    ∃ j, j < P.k ∧ s.server j ≠ .left ∧
      (s.mutexForPaymentServer = Option.none ∨ s.mutexForPaymentServer = some j) := by
  cases hmutex : s.mutexForPaymentServer with
  | none =>
      have hsome : ∃ j, j < P.k ∧ s.server j ≠ .left := by
        by_contra hno
        push Not at hno
        exact h hno
      obtain ⟨j, hj, hpc⟩ := hsome
      exact ⟨j, hj, hpc, .inl rfl⟩
  | some j =>
      have hin := hI.held j hmutex
      refine ⟨j, ?_, ?_, .inr rfl⟩
      · by_contra hge
        rw [hI.noServer j (Nat.le_of_not_lt hge)] at hin
        exact hin
      · intro hleft
        rw [hleft] at hin
        exact hin

/-- The accesses left to all servers together. -/
def distance (P : Params) (s : State) : Nat :=
  ∑ j ∈ Finset.range P.k, (s.server j).distance

theorem distance_lt (hj : j < P.k) (hs : s.stepServer j = some t)
    (hlt : (t.server j).distance < (s.server j).distance) :
    distance P t < distance P s := by
  have hother := (server_frame hs).2.2
  apply Finset.sum_lt_sum
  · intro j' _
    by_cases h : j' = j
    · rw [h]
      omega
    · rw [hother j' h]
  · exact ⟨j, Finset.mem_range.mpr hj, hlt⟩

/-- Some run takes every server out of its loop. -/
def ServersCanLeave (P : Params) (s : State) : Prop :=
  ∃ l t, (service P).run s l = some t ∧ MainReturns P t

/-- By induction on the accesses left. -/
theorem Settled.serversCanLeave (n : Nat) (hI : Settled P s) (hn : distance P s ≤ n) :
    ServersCanLeave P s := by
  induction n generalizing s with
  | zero =>
      by_cases hmain : MainReturns P s
      · exact ⟨[], s, rfl, hmain⟩
      · obtain ⟨j, hj, hpc, hfree⟩ := hI.enabled hmain
        obtain ⟨t, hs, hlt⟩ := hI.moves hpc hfree
        have hdown := distance_lt hj hs hlt
        omega
  | succ n ih =>
      by_cases hmain : MainReturns P s
      · exact ⟨[], s, rfl, hmain⟩
      · obtain ⟨j, hj, hpc, hfree⟩ := hI.enabled hmain
        obtain ⟨t, hs, hlt⟩ := hI.moves hpc hfree
        have hdown := distance_lt hj hs hlt
        obtain ⟨l, u, hrun, hleft⟩ := ih (hI.server hj hs) (by omega)
        refine ⟨.server j :: l, u, ?_, hleft⟩
        have hstep : (service P).step s (.server j) = some t := by
          simp [service, CabPayments.step, hj, hs]
        simpa [System.run, System.runWhen, hstep] using hrun

end Steps

/-! ## The counter along runs -/

/-- Every passenger has given up, or has been counted by a server. -/
def AllCounted (P : Params) (s : State) : Prop :=
  ∀ p, p < P.m → counted s p = true

instance (P : Params) (s : State) : Decidable (AllCounted P s) := by
  unfold AllCounted
  infer_instance

/-- When every passenger is counted the counter is zero and the servers can all
leave, so that the joins of `main` return. -/
def CountsOut (P : Params) (s : State) : Prop :=
  AllCounted P s → s.totalPassengersLeft = 0 ∧ ServersCanLeave P s

/-- In every run without overlapping decrements, for any number of passengers
and servers, no update of the counter is lost. -/
theorem careful_countsOut (P : Params) {s : State}
    (h : (service P).ReachableWhen (NoOverlap P) s) : CountsOut P s := by
  have hI : CounterExact P s ∧ Held s := by
    induction h with
    | init h0 =>
        obtain rfl : _ = start P := h0
        exact ⟨.start P, fun j hj => by simp [CabPayments.start] at hj⟩
    | step _ hc hstep ih => exact ⟨ih.1.step hc hstep, ih.2.step ih.1.slots hstep⟩
  intro hall
  have hnone := outstanding_of_counted hall
  have htotal : s.totalPassengersLeft = 0 := by
    have hexact := hI.1.total
    rw [hnone] at hexact
    exact hexact
  exact ⟨htotal, Settled.serversCanLeave (distance P s)
    ⟨hI.1.slots, hnone, htotal, hI.2, hI.1.noServer⟩ (Nat.le_refl _)⟩

/-- One passenger rides and pays.  The other looks for a cab in vain while the first
waits for his payment, and gives up after the server is done with the first. -/
theorem careful_countsOut_twoPassengers :
    ∃ s, (service ⟨1, 2, 1⟩).ReachableWhen (NoOverlap ⟨1, 2, 1⟩) s ∧
      s.totalPassengersLeft = 0 ∧ ServersCanLeave ⟨1, 2, 1⟩ s := by
  obtain ⟨s, hs, hp⟩ := System.exists_reachableWhen_of_run (M := service ⟨1, 2, 1⟩)
    (NoOverlap ⟨1, 2, 1⟩)
    (l := List.flatten [List.replicate 4 (.takeCab 0), List.replicate 8 (.passenger 0),
      List.replicate 82 (.takeCab 1), List.replicate 9 (.server 0),
      List.replicate 2 (.passenger 1)])
    (p := fun s => decide (AllCounted ⟨1, 2, 1⟩ s)) rfl (by decide +kernel)
  exact ⟨s, hs, careful_countsOut _ hs (of_decide_eq_true hp)⟩

/-- The passenger without a cab reads the counter between the read and the
write of the server. -/
def lostDecrement : List Act :=
  List.flatten [List.replicate 4 (.takeCab 0), List.replicate 8 (.passenger 0),
    List.replicate 82 (.takeCab 1), List.replicate 8 (.server 0),
    [.passenger 1, .server 0, .passenger 1]]

/-- After `lostDecrement` both passengers are counted and the counter is one. -/
theorem not_all_countsOut :
    ¬ ∀ (P : Params) (s : State), (service P).Reachable s → CountsOut P s := by
  intro hall
  obtain ⟨s, hs, hp⟩ := System.exists_reachable_of_run (M := service ⟨1, 2, 1⟩)
    (l := lostDecrement)
    (p := fun s => decide (AllCounted ⟨1, 2, 1⟩ s ∧ s.totalPassengersLeft = 1)) rfl
    (by decide +kernel)
  obtain ⟨hcounted, hone⟩ := of_decide_eq_true hp
  have hzero := (hall ⟨1, 2, 1⟩ s hs hcounted).1
  omega

end OsWork.Ports.CabPayments

import OsWork.Ports.CabPaymentData

/-!
# Every ride is paid once

The two invariants of `CabPaymentData` give the safety half of `PaidOnce`.  The
rest is that a pending slot is not forgotten: while it is pending the counter is
positive, so no server leaves, and a server that runs alone comes to the slot
within one round of the 500 slots.
-/

namespace OsWork.Ports.CabPayments

open OsWork.Verified.Transition
open OsWork.Ports.CabRides (Params RideStatus)

/-! ## One round of a server -/

/-- The slot a server is at. -/
def Server.index : Server → Nat
  | .test i | .lockMutex i | .readStatus i | .readCab i | .readReduce i _ |
    .writeCab i _ _ | .clear i _ _ | .readLeft i | .writeLeft i _ | .unlockMutex i => i
  | .left => 0

/-- The slots a server passes before it comes to slot `i`. -/
def Server.away (i : Nat) (i' : Nat) : Nat :=
  (i + 500 - i') % 500

/-- A bound on the accesses a server makes before it uses slot `i`. -/
def Server.toGo (i : Nat) : Server → Nat
  | .test i' => 11 * away i i' + 10
  | .lockMutex i' => 11 * away i i' + 9
  | .readStatus i' => 11 * away i i' + 8
  | .readCab i' => 11 * away i i' + 7
  | .readReduce i' _ => 11 * away i i' + 6
  | .writeCab i' _ _ => 11 * away i i' + 5
  | .clear i' _ _ => 11 * away i ((i' + 1) % 500) + 14
  | .readLeft i' => 11 * away i ((i' + 1) % 500) + 13
  | .writeLeft i' _ => 11 * away i ((i' + 1) % 500) + 12
  | .unlockMutex i' => 11 * away i ((i' + 1) % 500) + 11
  | .left => 0

theorem Server.away_next {i i' : Nat} (hi : i < 500) (hi' : i' < 500) (hne : i' ≠ i) :
    away i ((i' + 1) % 500) + 1 = away i i' := by
  unfold away
  omega

/-- Every server is at a slot of the array. -/
def Scanning (s : State) : Prop :=
  ∀ j, (s.server j).index < 500

section Rounds

variable {P : Params} {s t : State} {g : Receipts} {a : Act} {i j : Nat}

theorem Scanning.step (h : Scanning s) (hs : step P s a = some t) : Scanning t := by
  cases a with
  | takeCab p =>
      simp only [CabPayments.step] at hs
      split at hs
      · obtain ⟨pc, -, -, -, -, -, -, hserver, -⟩ := takeCab_frame hs
        intro j
        rw [hserver]
        exact h j
      · exact absurd hs (by simp)
  | passenger p =>
      simp only [CabPayments.step] at hs
      split at hs
      · intro j
        rw [(passenger_frame hs).1]
        exact h j
      · exact absurd hs (by simp)
  | server j =>
      simp only [CabPayments.step] at hs
      split at hs
      · intro j'
        by_cases hj : j' = j
        · subst hj
          have hlt := h j'
          have hmod : ∀ i, (i + 1) % 500 < 500 := fun i => Nat.mod_lt _ (by omega)
          unfold State.stepServer at hs
          split at hs <;> (try split at hs) <;> cases hs <;>
            simp_all [State.serverAt, State.setPay, Server.index]
        · rw [(server_frame hs).2.2 j' hj]
          exact h j'
      · exact absurd hs (by simp)

/-- Only `writeCab` of the slot processes it. -/
theorem not_processed_server (hs : s.stepServer j = some t) (h : ¬ Processed s i)
    (hpc : ∀ cab status, s.server j ≠ .writeCab i cab status) : ¬ Processed t i := by
  obtain ⟨-, -, hother⟩ := server_frame hs
  rintro (hclear | ⟨j', hj'⟩)
  · apply h
    by_cases hst : (s.pay i).paymentStatus = false
    · exact .inl hst
    · right
      refine ⟨j, ?_⟩
      unfold State.stepServer at hs
      split at hs <;> (try split at hs) <;> cases hs <;>
        simp_all [State.serverAt, State.setPay, Function.update_apply, Server.used]
      split at hclear <;> simp_all
  · by_cases hj : j' = j
    · subst hj
      unfold State.stepServer at hs
      split at hs <;> (try split at hs) <;> cases hs <;>
        simp_all [State.serverAt, State.setPay, Server.used]
    · rw [hother j' hj] at hj'
      exact h (.inr ⟨j', hj'⟩)

/-- Server `j` scans for slot `i`, which some call is waiting for. -/
structure Seeks (P : Params) (s : State) (j i : Nat) : Prop where
  high : CounterHigh P s
  held : Held s
  scanning : Scanning s
  server : j < P.k
  inLoop : s.server j ≠ .left
  free : s.mutexForPaymentServer = none ∨ s.mutexForPaymentServer = some j
  slot : i < 500
  owner : ∃ p, slotOf s p = some i
  waiting : ¬ Processed s i

/-- While a slot is pending the counter is positive. -/
theorem total_pos (hI : CounterHigh P s) (hp : ∃ p, slotOf s p = some i)
    (hst : (s.pay i).paymentStatus = true) : 0 < s.totalPassengersLeft := by
  obtain ⟨p, hp⟩ := hp
  have hpm : p < P.m := by
    by_contra hge
    have harr := hI.slots.absent p (Nat.le_of_not_lt hge)
    simp [slotOf, harr] at hp
  have hpos : outstanding P s ≠ 0 := by
    intro hzero
    have hcount := counted_of_outstanding hzero hpm
    simp [counted_slot hp, hst] at hcount
  have htotal := hI.total
  omega

theorem Seeks.pending (h : Seeks P s j i) : (s.pay i).paymentStatus = true := by
  by_contra hst
  exact h.waiting (.inl (by simpa using hst))

/-- The server moves, and comes closer to the slot unless it uses it. -/
theorem Seeks.moves (h : Seeks P s j i)
    (hnot : ∀ cab status, s.server j ≠ .writeCab i cab status) :
    ∃ t, s.stepServer j = some t ∧ t.server j ≠ .left ∧
      (t.mutexForPaymentServer = none ∨ t.mutexForPaymentServer = some j) ∧
      (t.server j).toGo i < (s.server j).toGo i := by
  have hidx := h.scanning j
  have hslot := h.slot
  cases hpc : s.server j with
  | left => exact absurd hpc h.inLoop
  | test i' =>
      have hpos := total_pos h.high h.owner h.pending
      have hnle : ¬ s.totalPassengersLeft ≤ 0 := by omega
      refine ⟨s.serverAt j (.lockMutex i'), by simp [State.stepServer, hpc, hnle], ?_, h.free, ?_⟩
      · simp [State.serverAt]
      · simp [State.serverAt, Server.toGo]
  | lockMutex i' =>
      have hnone : s.mutexForPaymentServer = none := by
        rcases h.free with hnone | hmine
        · exact hnone
        · have hin := h.held j hmine
          rw [hpc] at hin
          exact hin.elim
      refine ⟨State.serverAt { s with mutexForPaymentServer := some j } j (.readStatus i'),
        by simp [State.stepServer, hpc, hnone], ?_, .inr rfl, ?_⟩
      · simp [State.serverAt]
      · simp [State.serverAt, Server.toGo]
  | readStatus i' =>
      rw [hpc] at hidx
      by_cases hst : (s.pay i').paymentStatus = true
      · refine ⟨s.serverAt j (.readCab i'), by simp [State.stepServer, hpc, hst], ?_, h.free, ?_⟩
        · simp [State.serverAt]
        · simp [State.serverAt, Server.toGo]
      · have hne : i' ≠ i := by
          rintro rfl
          exact hst h.pending
        have hnext := Server.away_next hslot (show i' < 500 from hidx) hne
        refine ⟨s.serverAt j (.unlockMutex i'), by simp [State.stepServer, hpc, hst], ?_,
          h.free, ?_⟩
        · simp [State.serverAt]
        · simp only [State.serverAt, Function.update_self, Server.toGo]
          omega
  | readCab i' =>
      refine ⟨s.serverAt j (.readReduce i' (s.pay i').cabNumber),
        by simp [State.stepServer, hpc], ?_, h.free, ?_⟩
      · simp [State.serverAt]
      · simp [State.serverAt, Server.toGo]
  | readReduce i' cab =>
      refine ⟨s.serverAt j (.writeCab i' cab (s.pay i').reduceStatusTo),
        by simp [State.stepServer, hpc], ?_, h.free, ?_⟩
      · simp [State.serverAt]
      · simp [State.serverAt, Server.toGo]
  | writeCab i' cab status =>
      rw [hpc] at hidx
      have hne : i' ≠ i := by
        rintro rfl
        exact hnot cab status hpc
      have hnext := Server.away_next hslot (show i' < 500 from hidx) hne
      refine ⟨State.serverAt { s with
        cabs := Function.update s.cabs cab { s.cabs cab with rideStatus := status } } j
          (.clear i' cab status),
        by simp [State.stepServer, hpc], ?_, h.free, ?_⟩
      · simp [State.serverAt]
      · simp only [State.serverAt, Function.update_self, Server.toGo]
        omega
  | clear i' cab status =>
      refine ⟨(s.setPay i' fun y => { y with paymentStatus := false }).serverAt j
        (.readLeft i'),
        by simp [State.stepServer, hpc], ?_, h.free, ?_⟩
      · simp [State.serverAt]
      · simp [State.serverAt, Server.toGo]
  | readLeft i' =>
      refine ⟨s.serverAt j (.writeLeft i' s.totalPassengersLeft),
        by simp [State.stepServer, hpc], ?_, h.free, ?_⟩
      · simp [State.serverAt]
      · simp [State.serverAt, Server.toGo]
  | writeLeft i' v =>
      refine ⟨State.serverAt { s with totalPassengersLeft := v - 1 } j (.unlockMutex i'),
        by simp [State.stepServer, hpc], ?_, h.free, ?_⟩
      · simp [State.serverAt]
      · simp [State.serverAt, Server.toGo]
  | unlockMutex i' =>
      refine ⟨State.serverAt { s with mutexForPaymentServer := none } j
        (.test ((i' + 1) % 500)),
        by simp [State.stepServer, hpc], ?_, .inl rfl, ?_⟩
      · simp [State.serverAt]
      · simp [State.serverAt, Server.toGo]

/-- The receipts after one more step. -/
theorem receipts_step (hj : j < P.k) (hs : s.stepServer j = some t) :
    (receipts P).step (s, g) (.server j) = some (t, g.record s (.server j)) := by
  simp [receipts, System.withGhost, service, CabPayments.step, hj, hs]

/-- By induction on the accesses to go. -/
theorem Seeks.serves (n : Nat) (h : Seeks P s j i) (hn : (s.server j).toGo i ≤ n) :
    ∃ l y, (receipts P).run (s, g) l = some y ∧ y.2.Served i := by
  induction n generalizing s g with
  | zero =>
      obtain ⟨t, -, hleft, -, hlt⟩ := h.moves (by
        intro cab status hpc
        rw [hpc] at hn
        simp [Server.toGo] at hn)
      omega
  | succ n ih =>
      by_cases hpc : ∃ cab status, s.server j = .writeCab i cab status
      · obtain ⟨cab, status, hpc⟩ := hpc
        have hs : ∃ t, s.stepServer j = some t :=
          ⟨_, by simp only [State.stepServer, hpc]; rfl⟩
        obtain ⟨t, hs⟩ := hs
        refine ⟨[.server j], (t, g.record s (.server j)), ?_, ?_⟩
        · simp [System.run, System.runWhen, receipts_step h.server hs]
        · simp [Receipts.record, hpc, Receipts.Served]
      · have hnot : ∀ cab status, s.server j ≠ .writeCab i cab status :=
          fun cab status heq => hpc ⟨cab, status, heq⟩
        obtain ⟨t, hs, hloop, hfree, hlt⟩ := h.moves hnot
        have hstep : CabPayments.step P s (.server j) = some t := by
          simp [CabPayments.step, h.server, hs]
        obtain ⟨hpass, hcur, -⟩ := server_frame hs
        obtain ⟨p, hp⟩ := h.owner
        have hseeks : Seeks P t j i :=
          { high := h.high.step hstep
            held := h.held.step h.high.slots hstep
            scanning := h.scanning.step hstep
            server := h.server
            inLoop := hloop
            free := hfree
            slot := h.slot
            owner := ⟨p, (slotOf_congr (congrFun hpass p) hcur).trans hp⟩
            waiting := not_processed_server hs h.waiting hnot }
        obtain ⟨l, y, hrun, hserved⟩ := ih (g := g.record s (.server j)) hseeks (by omega)
        refine ⟨.server j :: l, y, ?_, hserved⟩
        simpa [System.run, System.runWhen, receipts_step h.server hs] using hrun

end Rounds

/-! ## The law along runs -/

/-- A call has returned only from a slot that is cleared. -/
def Returned (s : State) : Prop :=
  ∀ p slot, s.passenger p = .paid slot → (s.pay slot).paymentStatus = false

theorem Returned.step {P : Params} {s t : State} {a : Act} (hI : Slots P s)
    (h : Returned s) (hs : CabPayments.step P s a = some t) : Returned t := by
  intro q slot hq
  cases a with
  | takeCab p =>
      simp only [CabPayments.step] at hs
      split at hs
      · obtain ⟨pc, hpass, -, hpc, -, hpay, -⟩ := takeCab_frame hs
        rw [hpay]
        apply h q slot
        rw [hpass, Function.update_apply] at hq
        split at hq
        · rcases hpc with rfl | ⟨i, rfl⟩ | ⟨pc', rfl⟩ <;> simp at hq
        · exact hq
      · exact absurd hs (by simp)
  | passenger p =>
      simp only [CabPayments.step] at hs
      split at hs
      · by_cases hqp : q = p
        · subst hqp
          unfold State.stepPassenger at hs
          split at hs <;> (try split at hs) <;> cases hs <;>
            simp_all [State.passengerAt, State.setPay]
        · have hold : s.passenger q = .paid slot := by
            rw [← (passenger_frame hs).2.2 q hqp, hq]
          have hslot : slotOf s q = some slot := by simp [slotOf, hold]
          rw [(pay_of_passenger hI hs hslot).2.1]
          exact h q slot hold
      · exact absurd hs (by simp)
  | server j =>
      simp only [CabPayments.step] at hs
      split at hs
      · rw [(server_frame hs).1] at hq
        have hclear := h q slot hq
        unfold State.stepServer at hs
        split at hs <;> (try split at hs) <;> cases hs <;>
          simp_all [State.serverAt, State.setPay, Function.update_apply]
        split
        · rfl
        · exact hclear
      · exact absurd hs (by simp)

/-- What holds of every state of a careful run. -/
structure Kept (P : Params) (x : State × Receipts) : Prop where
  early : NoneEarly P x.1
  held : Held x.1
  scanning : Scanning x.1
  returned : Returned x.1
  noServer : ∀ j, P.k ≤ j → x.1.server j = .test 0
  calls : CallsKept x.1 x.2
  servings : ServingsKept x.1 x.2

section Runs

variable {P : Params} {x y : State × Receipts} {a : Act}

theorem Kept.step (h : Kept P x) (hc : FieldsStored P x.1 a)
    (hs : (receipts P).step x a = some y) : Kept P y := by
  obtain ⟨hstep, hrecord⟩ := System.withGhost_step hs
  have hI := h.early.high.slots
  refine
    { early := h.early.step hstep
      held := h.held.step hI hstep
      scanning := h.scanning.step hstep
      returned := h.returned.step hI hstep
      noServer := fun j hj => (server_of_step hstep hj).trans (h.noServer j hj)
      calls := ?_
      servings := ?_ }
  all_goals
    rw [hrecord]
    cases a with
    | takeCab p =>
        simp only [service, CabPayments.step] at hstep
        split at hstep
        · first | exact h.calls.takeCab hstep | exact h.servings.takeCab hstep
        · exact absurd hstep (by simp)
    | passenger p =>
        simp only [service, CabPayments.step] at hstep
        split at hstep
        · first | exact h.calls.passenger hI hc hstep | exact h.servings.passenger hI hstep
        · exact absurd hstep (by simp)
    | server j =>
        simp only [service, CabPayments.step] at hstep
        split at hstep
        · first
          | exact h.servings.server hI h.calls hc hstep
          | exact h.calls.server hstep
        · exact absurd hstep (by simp)

/-- Some server can process the slot of a call that is still pending. -/
theorem Kept.canServe (h : Kept P x) (hk : 1 ≤ P.k) {c : Call} (hc : c ∈ x.2.calls) :
    ∃ l y, (receipts P).run x l = some y ∧ y.2.Served c.slot := by
  obtain ⟨hp, -, -⟩ := h.calls.calls c hc
  by_cases hdone : Processed x.1 c.slot
  · exact ⟨[], x, rfl, h.servings.processed _ _ hp hdone⟩
  · have hst : (x.1.pay c.slot).paymentStatus = true := by
      by_contra hst
      exact hdone (.inl (by simpa using hst))
    have hpos := total_pos h.early.high ⟨_, hp⟩ hst
    have hloop : ∀ j, x.1.server j ≠ .left := by
      intro j hleft
      have hzero := h.early.left j hleft
      have hpm : c.passenger < P.m := by
        by_contra hge
        have harr := h.early.high.slots.absent _ (Nat.le_of_not_lt hge)
        simp [slotOf, harr] at hp
      have hcount := counted_of_outstanding hzero hpm
      simp [counted_slot hp, hst] at hcount
    -- the holder of the mutex goes on, or else any server
    have hfree : ∃ j, j < P.k ∧ (x.1.mutexForPaymentServer = none ∨
        x.1.mutexForPaymentServer = some j) := by
      cases hmutex : x.1.mutexForPaymentServer with
      | none => exact ⟨0, by omega, .inl rfl⟩
      | some j =>
          refine ⟨j, ?_, .inr rfl⟩
          by_contra hge
          have hin := h.held j hmutex
          rw [h.noServer j (Nat.le_of_not_lt hge)] at hin
          exact hin
    obtain ⟨j, hj, hfree⟩ := hfree
    exact Seeks.serves _ (s := x.1) (j := j)
      { high := h.early.high
        held := h.held
        scanning := h.scanning
        server := hj
        inLoop := hloop j
        free := hfree
        slot := h.calls.inArray _ _ hp
        owner := ⟨_, hp⟩
        waiting := hdone } (Nat.le_refl _)

end Runs

/-- In every run in which no field of a slot is read before `do_payment` has
stored it, for any number of passengers, cabs and servers, every ride is paid
once and with its own data. -/
theorem careful_paidOnce (P : Params) {x : State × Receipts}
    (h : (receipts P).ReachableWhen (fun x a => FieldsStored P x.1 a) x) :
    PaidOnce P x := by
  have hkept : Kept P x := by
    induction h with
    | init h0 =>
        obtain ⟨hstart, hempty⟩ := h0
        rename_i x
        obtain ⟨s, g⟩ := x
        obtain rfl : s = start P := hstart
        obtain rfl : g = .empty := hempty
        exact
          { early := ⟨.start P, fun j hj => by simp [CabPayments.start] at hj⟩
            held := fun j hj => by simp [CabPayments.start] at hj
            scanning := fun j => by simp [CabPayments.start, Server.index]
            returned := fun p slot hp => by simp [CabPayments.start] at hp
            noServer := fun j _ => rfl
            calls := .start P
            servings := .start P }
    | step _ hc hs ih => exact ih.step hc hs
  exact
    { inArray := fun c hc => hkept.calls.inArray _ _ (hkept.calls.calls c hc).1
      own := hkept.calls.own
      once := hkept.servings.once
      data := hkept.servings.data
      returned := by
        intro p slot hpc
        have hslot : slotOf x.1 p = some slot := by simp [slotOf, hpc]
        exact hkept.servings.processed p slot hslot (.inl (hkept.returned p slot hpc))
      reachable := fun hk c hc => hkept.canServe hk hc }

/-- Passenger 0 takes cab 0, and passenger 1, who looks for a shared ride, cab 1. -/
def twoRides : List Act :=
  List.flatten [List.replicate 4 (.takeCab 0), [.passenger 0], List.replicate 8 (.takeCab 1),
    [.passenger 1]]

/-- Both rides are paid, the second one first. -/
theorem careful_paidOnce_twoRides :
    ∃ x, (receipts ⟨2, 2, 1⟩).ReachableWhen (fun x a => FieldsStored ⟨2, 2, 1⟩ x.1 a) x ∧
      x.2.Served 0 ∧ x.2.Served 1 ∧ PaidOnce ⟨2, 2, 1⟩ x := by
  obtain ⟨x, hx, hp⟩ := System.exists_reachableWhen_of_run (M := receipts ⟨2, 2, 1⟩)
    (fun x a => FieldsStored ⟨2, 2, 1⟩ x.1 a)
    (l := List.flatten [twoRides, List.replicate 7 (.passenger 1), List.replicate 5 (.server 0),
      List.replicate 7 (.passenger 0), List.replicate 13 (.server 0),
      [.passenger 1, .passenger 0]])
    (p := fun x => decide (x.2.Served 0 ∧ x.2.Served 1 ∧ x.1.passenger 0 = .paid 1))
    (s := (start ⟨2, 2, 1⟩, .empty)) ⟨rfl, rfl⟩ (by decide +kernel)
  obtain ⟨hfirst, hsecond, -⟩ := of_decide_eq_true hp
  exact ⟨x, hx, hfirst, hsecond, careful_paidOnce _ hx⟩

/-- The server finds slot 0 pending and reads its `cab_number` before
`do_payment` has stored that passenger 1 rode with cab 1. -/
def readTooEarly : List Act :=
  List.flatten [twoRides, List.replicate 3 (.passenger 1), List.replicate 6 (.server 0),
    List.replicate 2 (.passenger 1)]

/-- After `readTooEarly` the server has freed cab 0, with which passenger 0 still rides. -/
theorem not_all_paidOnce :
    ¬ ∀ (P : Params) (x : State × Receipts), (receipts P).Reachable x → PaidOnce P x := by
  intro hall
  obtain ⟨x, hx, hp⟩ := System.exists_reachable_of_run (M := receipts ⟨2, 2, 1⟩)
    (l := readTooEarly)
    (p := fun x => decide (x.1.passenger 0 = .riding 0 ∧ (x.1.cabs 0).rideStatus = .waitState ∧
      ∃ v ∈ x.2.servings, ∀ c ∈ x.2.calls, ¬ v.Uses c))
    (s := (start ⟨2, 2, 1⟩, .empty)) ⟨rfl, rfl⟩ (by decide +kernel)
  obtain ⟨-, -, v, hv, hnone⟩ := of_decide_eq_true hp
  obtain ⟨c, hc, huses⟩ := (hall ⟨2, 2, 1⟩ x hx).data v hv
  exact hnone c hc huses

end OsWork.Ports.CabPayments

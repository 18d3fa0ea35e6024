import OsWork.Ports.SpinLockInvariant

/-!
# Spin locks exclude each other and interrupts

## Main results

* `spinlocks_exclusive` — mutual exclusion; `holding` is exact; a CPU with a lock takes
  no interrupt; only a caller's mistake ends in `panic`.
* `interrupts_restored` — a system call runs with interrupts on whenever it holds no
  lock, on whatever CPU, and a handler with interrupts off.
-/

namespace OsWork.Ports.SpinLocks

open OsWork.Verified.Transition
open OsWork.Ports.KernelLocks (Lock)
open Function (update)

variable {C : Type} [DecidableEq C]

/-! ## Main results -/

/-- The locks exclude each other, and interrupts; nobody waits for a lock of its own or
gives back another's; a `panic` is the fault of the caller. -/
structure Exclusive (s : State C) : Prop where
  one : ∀ l c d, s.Holds c l → s.Holds d l → c = d
  locked : ∀ l, (s.lock l).locked = true ↔ ∃ c, s.Holds c l
  masked : ∀ c l, s.panicked c = none → s.Holds c l → (s.cpu c).fl_if = false
  waits : ∀ c l, s.panicked c = none → s.next c = some (.xchg l) → ¬ s.Holds c l
  gives : ∀ c l, s.panicked c = none → s.next c = some (.clearcpu l) → s.Holds c l
  panics : ∀ c pick t msg, s.panicked c = none → s.step (.exec c pick) = some t →
    t.panicked c = some msg → ∃ op, s.next c = some op ∧ Blame (s.Holds c) op msg

/-- Between two functions `ncli` is the number of locks held; code entered with
interrupts on runs with interrupts on when it holds none, code entered with interrupts
off never does. -/
structure Restored (s : State C) (c : C) : Prop where
  user : s.proc c = some [] →
    (s.cpu c).fl_if = true ∧ (s.cpu c).ncli = 0 ∧ ∀ l, ¬ s.Holds c l
  kernel : ∀ f rest, s.idle c = some (f, rest) →
    ∃ held : Finset Lock, (∀ l, l ∈ held ↔ s.Holds c l) ∧ (s.cpu c).ncli = held.card ∧
      (held.Nonempty → (s.cpu c).fl_if = false) ∧
      ∀ b ∈ f.kind.flag, (s.cpu c).fl_if = (b && decide (held = ∅))

section Results

variable {s t : State C} {own : Lock → Option C} {c : C}

omit [DecidableEq C] in
/-- What the instruction at the head of a running CPU requires. -/
theorem Inv.head (hI : Inv s own) (hlive : s.panicked c = none) {op : Op}
    (hop : s.next c = some op) :
    ∃ f v g k, (∀ l, l ∈ v.held ↔ s.Holds c l) ∧ f.ops = op :: k ∧
      Knows s.lock own c (s.cpu c) f v ∧ Safe g (op :: k) v := by
  have hruns := hI.runs c hlive
  simp only [State.next] at hop
  cases hst : s.stack c with
  | nil => simp [hst] at hop
  | cons f rest =>
      rw [hst] at hruns hop
      obtain ⟨⟨v, hk, hsafe⟩, -⟩ := hruns
      simp only [List.head?_cons, Option.bind_some] at hop
      obtain ⟨k, hops⟩ := List.head?_eq_some_iff.mp hop
      refine ⟨f, v, f.kind.flag, k, fun l => ?_, hops, hk, hops ▸ hsafe⟩
      rw [hI.holds, hk.held]

/-- An instruction that changes stacks does not panic. -/
theorem exec_panics (hlive : s.panicked c = none) {pick : Nat} {msg : String}
    (hs : s.exec c pick = some t) (hmsg : t.panicked c = some msg) :
    ∃ f op k, s.next c = some op ∧ f.ops = op :: k ∧ (s.stack c).head? = some f ∧
      op.run c s.lock (s.cpu c) f k = .error msg := by
  have hkept : ∀ st, (s.setStack c st).panicked = s.panicked :=
    fun st => (setStack_frame s c st).2.2.2
  unfold State.exec at hs
  split at hs
  · cases hs
  · rename_i f rest hst
    split at hs
    · cases hs
    · split at hs
      · cases hs
      · cases hs
        simp [hlive] at hmsg
    · cases hs
      simp [hkept, hlive] at hmsg
    · split at hs
      · cases hs
        simp [hlive] at hmsg
      · cases hs
    · rename_i op k hswtch hscan hresume hops
      split at hs
      · rename_i lk x f' hrun
        cases hs
        have hsame := (setStack_frame { s with lock := lk, cpu := update s.cpu c x } c
          (f' :: rest)).2.2.2
        simp [hsame, hlive] at hmsg
      · rename_i msg' hrun
        cases hs
        obtain rfl : msg' = msg := by simpa [State.panic] using hmsg
        exact ⟨f, op, k, by simp [State.next, hst, hops], hops, by simp [hst], hrun⟩

theorem Inv.exclusive (hI : Inv s own) : Exclusive s where
  one l c d hc hd := by
    rw [hI.holds] at hc hd
    exact Option.some.inj (hc.symm.trans hd)
  locked l := by
    rw [hI.locks.locked, Option.isSome_iff_exists]
    exact exists_congr fun c => (hI.holds l c).symm
  masked c l hlive hheld := by
    cases hfl : (s.cpu c).fl_if with
    | false => rfl
    | true =>
        have hnone := ((hI.runs c hlive).below hfl).2.1 l
        exact absurd ((hI.holds l c).mp hheld) hnone
  waits c l hlive hnext := by
    obtain ⟨f, v, g, k, hheld, -, -, hsafe⟩ := hI.head hlive hnext
    exact fun hmine => hsafe.2.1 ((hheld l).mpr hmine)
  gives c l hlive hnext := by
    obtain ⟨f, v, g, k, hheld, -, -, hsafe⟩ := hI.head hlive hnext
    exact (hheld l).mp hsafe.2.1
  panics c pick t msg hlive hs hmsg := by
    simp only [State.step, if_pos hlive] at hs
    obtain ⟨f, op, k, hnext, hops, hst, hrun⟩ := exec_panics hlive hs hmsg
    refine ⟨op, hnext, ?_⟩
    obtain ⟨rest, hstack⟩ := List.head?_eq_some_iff.mp hst
    have hruns := hI.runs c hlive
    rw [hstack] at hruns
    obtain ⟨⟨v, hk, hsafe⟩, -⟩ := hruns
    have hblame := Op.run_error hk (hops ▸ hsafe) hrun
    have hsame : (fun l => own l = some c) = s.Holds c :=
      funext fun l => propext (hI.holds l c).symm
    exact hsame ▸ hblame

omit [DecidableEq C] in
theorem Inv.restored (hI : Inv s own) (hlive : s.panicked c = none) : Restored s c where
  user huser := by
    have hruns := hI.runs c hlive
    simp only [State.stack, huser, Option.getD_some] at hruns
    exact ⟨hruns.1, hruns.2.1, fun l hheld => hruns.2.2 l ((hI.holds l c).mp hheld)⟩
  kernel f rest hidle := by
    obtain ⟨hst, hops⟩ := idle_eq hidle
    have hruns := hI.runs c hlive
    rw [hst] at hruns
    obtain ⟨⟨v, hk, hsafe⟩, -⟩ := hruns
    rw [hops] at hsafe
    have hcount := hsafe.counted
    rw [hk.cpu] at hcount
    refine ⟨v.held, fun l => ?_, hcount, fun hsome => ?_, fun b hb => ?_⟩
    · rw [hI.holds, hk.held]
    · have hcard := Finset.card_pos.mpr hsome
      rw [← hk.cpu]
      exact hsafe.cli (by rw [hk.cpu]; omega)
    · rw [← hk.cpu]
      by_cases hheld : v.held = ∅
      · rw [hsafe.outside (by simp [hk.cpu, hcount, hheld]) b hb]
        simp [hheld]
      · have hcard := Finset.card_pos.mpr (Finset.nonempty_iff_ne_empty.mpr hheld)
        rw [hsafe.cli (by rw [hk.cpu]; omega)]
        simp [hheld]

end Results

/-- Spin locks exclude each other and interrupts, in every run. -/
theorem spinlocks_exclusive (s : State C) (h : system.ReachableWhen Clean s) :
    Exclusive s := by
  obtain ⟨own, hI⟩ := exists_inv h
  exact hI.exclusive

/-- The interrupt flag is what it was when the code was entered, once the last lock is
released, although the thread may have come from another CPU. -/
theorem interrupts_restored (s : State C) (c : C) (h : system.ReachableWhen Clean s)
    (hlive : s.panicked c = none) : Restored s c := by
  obtain ⟨own, hI⟩ := exists_inv h
  exact hI.restored hlive

/-! ## Runs of two CPUs -/

/-- `n` instructions of the CPU. -/
def go (c : Bool) (n : Nat) : List (Act Bool) := List.replicate n (.exec c 0)

/-- While one CPU holds `cons.lock` at boot, the other comes to wait for it. -/
def contended : List (Act Bool) :=
  .call false (.acquire .cons) :: go false 13 ++ .call true (.acquire .cons) :: go true 12

theorem spinlocks_exclusive_contended :
    ∃ s : State Bool, system.ReachableWhen Clean s ∧ s.Holds false .cons ∧
      s.next true = some (.xchg .cons) ∧ Exclusive s := by
  obtain ⟨s, hs, htest⟩ := System.exists_reachableWhen_of_run
    (M := system) Clean (l := contended) (s := (start : State Bool))
    (p := fun s => decide ((s.lock .cons).cpu = some false ∧ s.next true = some (.xchg .cons)))
    rfl (by decide +kernel)
  simp only [decide_eq_true_eq] at htest
  exact ⟨s, hs, .inl htest.1, htest.2, spinlocks_exclusive s hs⟩

/-- A scheduler picks the first process there is. -/
def pickUp (c : Bool) : List (Act Bool) := go c 14 ++ .exec c 1 :: go c 6

/-- A process begins on one CPU, gives it up in a system call, and goes on on the other,
up to the release of `ptable.lock`. -/
def migration : List (Act Bool) :=
  List.flatten [[.fork false, .scheduler false, .scheduler true], pickUp false, go false 12,
    [.trapret false, .syscall false, .call false (.acquire .ptable)], go false 13,
    .call false (.sched false) :: go false 18, go false 13, pickUp true, go true 1,
    .call true (.release .ptable) :: go true 12]

theorem interrupts_restored_migration :
    ∃ s : State Bool, system.ReachableWhen Clean s ∧ s.panicked true = none ∧
      (s.cpu true).fl_if = true ∧ (s.idle true).map (fun p => p.1.kind) = some .syscall ∧
      Restored s true := by
  obtain ⟨s, hs, htest⟩ := System.exists_reachableWhen_of_run
    (M := system) Clean (l := migration) (s := (start : State Bool))
    (p := fun s => decide (s.panicked true = none ∧ (s.cpu true).fl_if = true ∧
      (s.idle true).map (fun p => p.1.kind) = some .syscall))
    rfl (by decide +kernel)
  simp only [decide_eq_true_eq] at htest
  obtain ⟨hlive, hfl, hkind⟩ := htest
  exact ⟨s, hs, hlive, hfl, hkind, interrupts_restored s true hs hlive⟩

end OsWork.Ports.SpinLocks

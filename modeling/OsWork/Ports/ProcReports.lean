import OsWork.Ports.ProcExitTimes
import Mathlib.Algebra.Group.Int.Defs
import Mathlib.Algebra.Group.Nat.Defs

/-!
# The waiting time `exit` prints and `waitx` returns

`exit` computes `wait_time` from `ticks`, `ctime` and `rtime`; `waitx` computes
the same number again from `etime`, `ctime` and `rtime` when it reaps the child.
Between the two readings of `rtime` the process is still RUNNING while it prints,
so `increment_times` on another CPU can charge it one more tick; `waitx` takes
the `etime` that equals `-1` for one that was never set; and a process that has been
charged more ticks than have come since its creation gets a negative time.

## Main results

* `reports_same_iff` — `waitx` returns what `exit` stored and printed, whatever
  the time, and the value is not negative, exactly when `exit` did not read
  `ticks = -1`, no tick was charged after `exit` had read `rtime`, and no more ticks
  had been charged until then than had come; and all this is so in every run whose
  steps are careful.
* `not_all_report_same` — a tick during the print makes the two differ.
-/

namespace OsWork.Ports.ProcTable

open OsWork.Verified.Transition

/-- Process `q` on CPU `d` is about to reap the child in slot `p` in `waitx`, and does so. -/
structure Reaps (P : Params) (s : State) (d : Cpu) (p q : Slot) (ok : Bool) (s' : State) :
    Prop where
  cpu : s.cpu d = .run q
  scan : s.kpc q = .scan true
  zombie : s.procs.findZombie q = some p
  step : step P s (.go d ok) = some s'

/-- `waitx` of process `q` has just reaped the child in slot `p`: `*wtime` is
what `exit` stored in `wait_time` and printed, it is not negative, and it would
have been the same at any other time. -/
def ReportsSame (s : State) (g : ExitRecord) (s' : State) (p q : Slot) : Prop :=
  ∃ wtime rtime, s'.waitxOut q = some (wtime, rtime) ∧ wtime = (s.procs p).waitTime ∧
    wtime = g.printed p ∧ 0 ≤ wtime.toInt ∧ ∀ ticks, (s.procs p).waitxTime ticks = wtime

/-- The condition on a step: it is careful in the accounting of ticks, and it stores no
`rtime` in the slot of a process whose `exit` has read `ticks`. -/
def CarefulExit (P : Params) (s : State) (a : Act) : Prop :=
  CarefulTick P s a ∧
    match s.stores a with
    | some (p, _) => stage s p = 0
    | none => True

instance (P : Params) (s : State) (a : Act) : Decidable (CarefulExit P s a) := by
  unfold CarefulExit
  have : Decidable (match s.stores a with
      | some (p, _) => stage s p = 0
      | none => True) := by
    split <;> infer_instance
  infer_instance

/-! ## Careful runs -/

/-- A process that is in `exit`, or has exited, has been charged no more than the ticks
between its `ctime` and its `etime`. -/
def Early (s : State) : Prop :=
  ∀ p, 1 ≤ stage s p → (s.procs p).ctime.toNat + (s.procs p).rtime.toNat ≤
    (s.procs p).etime.toNat ∧ (s.procs p).etime.toNat < 2 ^ 31

section Steps

variable {P : Params} {s s' : State} {g : TickRecord} {a : Act}

theorem adds_of_careful (h : CarefulExit P s a) {p : Slot} (hp : 1 ≤ stage s p) :
    s.adds a p = 0 := by
  have hstore := h.2
  unfold State.adds
  split
  · rename_i q v hq
    rw [hq] at hstore
    rw [if_neg]
    rintro rfl
    have hzero : stage s q = 0 := hstore
    omega
  · rfl

/-- A careful step charges nobody who is in `exit`. -/
theorem Early.step (hl : Locking s) (hf : Forking s) (hticks : Ticks s g) (h : Early s)
    (hcare : CarefulExit P s a) (hs : ProcTable.step P s a = some s') : Early s' := by
  have hm := Move.of_step hs
  have hrtime : ∀ p, 1 ≤ stage s p → (s'.procs p).rtime = (s.procs p).rtime := by
    intro p hp
    have hne : s.creates a ≠ some p := by
      intro hcr
      rw [stage_of_creates hl hf hcr] at hp
      cases hp
    rw [hm.timed.rtime p, if_neg hne, adds_of_careful hcare hp]
    exact BitVec.add_zero _
  cases hx : s.exitStep a with
  | none =>
      intro p hp
      rcases hm.settled hl hf hx p with h0 | ⟨hst, he, hc, -⟩
      · omega
      · rw [he, hc, hrtime p (by omega)]
        exact h p (by omega)
  | some x =>
      obtain ⟨q, k⟩ := x
      intro p hp
      by_cases hpq : p = q
      · subst hpq
        obtain ⟨⟨c, hcpu⟩, hk, hcase⟩ := exit_cases hs hx
        have hnz := hl.not_zombie hcpu
        rcases hcase with ⟨rfl, rfl⟩ | ⟨rfl, rfl⟩ | ⟨rfl, rfl⟩
        · -- `etime` is the time at which the counters are exact
          have htotal := hticks.total p
          have hran := hticks.ran p
          have hbound := hticks.bound
          simp only [State.setPc_procs, State.setProc_procs, Table.set_self]
          constructor
          · omega
          · exact hbound
        · have hold := h p (by simp [stage, hnz, hk])
          simpa only [State.setPc_procs, State.setProc_procs, Table.set_self] using hold
        · exact h p (by simp [stage, hnz, hk])
      · obtain ⟨hst, hprocs⟩ := exit_frame hs hx hpq
        rw [hst] at hp
        rw [hprocs]
        exact h p hp

end Steps

/-- In a careful run nobody is charged too much, or after `exit` has read `ticks`. -/
theorem careful_early {P : Params} {c : State × ExitRecord}
    (h : (exitKernel P).ReachableWhen (fun c a => CarefulExit P c.1 a) c) :
    Early c.1 ∧ ∀ p, 2 ≤ stage c.1 p → c.2.late p = 0 := by
  have hinv : (Locking c.1 ∧ Forking c.1) ∧ (∃ g, Ticks c.1 g) ∧ Early c.1 ∧
      ∀ p, 2 ≤ stage c.1 p → c.2.late p = 0 := by
    refine System.ReachableWhen.invariant
      (P := fun c : State × ExitRecord => (Locking c.1 ∧ Forking c.1) ∧ (∃ g, Ticks c.1 g) ∧
        Early c.1 ∧ ∀ p, 2 ≤ stage c.1 p → c.2.late p = 0) ?_ ?_ h
    · intro c hc
      have hstart : c.1 = start := hc.1
      rw [hstart]
      refine ⟨⟨locking_start, forking_start⟩, ⟨_, ticks_start⟩, ?_, ?_⟩
      · intro p hp
        simp [stage_start] at hp
      · intro p hp
        simp [stage_start] at hp
    · intro c a c' hinv hcare hstep
      obtain ⟨⟨hl, hf⟩, ⟨g, hticks⟩, hearly, hlate⟩ := hinv
      obtain ⟨hstep, hrecord⟩ := System.withGhost_step hstep
      have hm := Move.of_step hstep
      refine ⟨⟨hl.step hf hm, hf.step hl hm⟩, ⟨_, hticks.step hl hf hcare.1 hstep⟩,
        hearly.step hl hf hticks hcare hstep, fun p hp => ?_⟩
      rw [hrecord]
      by_cases hex : ∃ k, c.1.exitStep a = some (p, k)
      · obtain ⟨k, hx⟩ := hex
        obtain ⟨⟨d, hcpu⟩, hk, hcase⟩ := exit_cases hstep hx
        have hnz := hl.not_zombie hcpu
        rcases hcase with ⟨rfl, hs'⟩ | ⟨rfl, -⟩ | ⟨rfl, -⟩
        · rw [hs'] at hp
          simp [stage, hnz] at hp
        · simp [ExitRecord.record, ExitRecord.read, hx]
        · have hold := hlate p (by simp [stage, hnz, hk])
          simp [ExitRecord.record, ExitRecord.read, ExitRecord.count, hx, (exit_quiet hx).2, hold]
      · have hnone : ∀ k, c.1.exitStep a ≠ some (p, k) := fun k hk => hex ⟨k, hk⟩
        have hstage : 2 ≤ stage c.1 p := by
          cases hx : c.1.exitStep a with
          | none =>
              rcases hm.settled hl hf hx p with h0 | ⟨hst, -⟩
              · omega
              · omega
          | some x =>
              obtain ⟨q, k⟩ := x
              have hpq : p ≠ q := by
                rintro rfl
                exact hnone k hx
              rwa [(exit_frame hstep hx hpq).1] at hp
        rw [(record_of_ne hnone).2.2.2.1, hlate p hstage, adds_of_careful hcare (by omega)]
  exact hinv.2.2

/-! ## What the parent is told -/

/-- What `waitx` stores does not depend on the time exactly when `etime` is set. -/
theorem waitxTime_const_iff (p : Proc) (w : Word) :
    (∀ ticks, p.waitxTime ticks = w) ↔ p.etime ≠ -1 ∧ p.etime - p.ctime - p.rtime = w := by
  constructor
  · intro h
    have hne : p.etime ≠ -1 := by
      intro heq
      have h0 := h 0
      have h1 := h 1
      simp only [Proc.waitxTime, heq, if_true] at h0 h1
      bv_omega
    refine ⟨hne, ?_⟩
    have := h 0
    rwa [Proc.waitxTime, if_neg hne] at this
  · rintro ⟨hne, hw⟩ ticks
    rw [Proc.waitxTime, if_neg hne, hw]

/-- `waitx` stores the difference that the fields of the zombie give. -/
theorem Reaps.out {P : Params} {s s' : State} {d : Cpu} {p q : Slot} {ok : Bool}
    (h : Reaps P s d p q ok s') :
    s'.waitxOut q = some ((s.procs p).waitxTime s.ticks, (s.procs p).rtime) := by
  have hstep := h.step
  simp only [ProcTable.step, h.cpu, State.go, h.scan] at hstep
  split at hstep
  · rw [Option.some.injEq] at hstep
    rw [← hstep]
    simp [State.waitRound, h.zombie, State.release, State.setPc]
  · cases hstep

theorem Reaps.stage {P : Params} {s s' : State} {d : Cpu} {p q : Slot} {ok : Bool}
    (h : Reaps P s d p q ok s') : stage s p = 3 := by
  have hfound := Table.find_some h.zombie
  simp only [Bool.and_eq_true, beq_iff_eq] at hfound
  simp [ProcTable.stage, hfound.2]

/-- The two report the same exactly when `etime` is not `-1`, `rtime` is what it was, and
the difference is not negative. -/
theorem reports_same_fields {P : Params} {c : State × ExitRecord}
    (h : (exitKernel P).Reachable c) {d : Cpu} {p q : Slot} {ok : Bool} {s' : State}
    (hr : Reaps P c.1 d p q ok s') :
    ReportsSame c.1 c.2 s' p q ↔ (c.1.procs p).etime ≠ -1 ∧
      (c.1.procs p).etime - (c.1.procs p).ctime - (c.1.procs p).rtime = (c.1.procs p).waitTime ∧
      0 ≤ (c.1.procs p).waitTime.toInt := by
  obtain ⟨_, _, hinv⟩ := exitTimes h
  have hprinted := hinv.printed p (by rw [hr.stage])
  constructor
  · rintro ⟨wtime, rtime, _, rfl, _, hpos, hconst⟩
    obtain ⟨hne, heq⟩ := (waitxTime_const_iff _ _).1 hconst
    exact ⟨hne, heq, hpos⟩
  · rintro ⟨hne, heq, hpos⟩
    have hconst := (waitxTime_const_iff _ _).2 ⟨hne, heq⟩
    exact ⟨_, _, hr.out, hconst _, by rw [hconst, hprinted], by rwa [hconst],
      fun ticks => by rw [hconst, hconst]⟩

/-- A difference of two counts is not negative as an `int`. -/
theorem toInt_sub_nonneg (m n : Nat) :
    0 ≤ (BitVec.ofNat 32 m - BitVec.ofNat 32 n).toInt ↔
      ((m : Int) - n) % 2 ^ 32 < 2 ^ 31 := by
  rw [BitVec.toInt_eq_toNat_cond, BitVec.toNat_sub, BitVec.toNat_ofNat, BitVec.toNat_ofNat]
  split
  · omega
  · omega

/-- A further count leaves a difference alone exactly when it is a multiple of `2^32`. -/
theorem sub_add_eq_iff (x y : Word) (n : Nat) :
    x - (y + BitVec.ofNat 32 n) = x - y ↔ 2 ^ 32 ∣ n := by
  rw [← BitVec.toNat_inj, BitVec.toNat_sub, BitVec.toNat_sub, BitVec.toNat_add,
    BitVec.toNat_ofNat]
  have hx := x.isLt
  have hy := y.isLt
  omega

/-- **`exit` and `waitx` report the same waiting time**, and it is not negative, exactly
when `exit` did not read `ticks = -1`, the ticks charged after `exit` had read `rtime` are
a multiple of `2^32` (as a rule, none), and those charged before are no more than the ticks
that had come since the creation when `exit` read `ticks` (the difference, modulo `2^32`,
is below `2^31`).  In a run whose steps are careful this is so. -/
theorem reports_same_iff (P : Params) (c : State × ExitRecord)
    (h : (exitKernel P).Reachable c) (d : Cpu) (p q : Slot) (ok : Bool) (s' : State)
    (hr : Reaps P c.1 d p q ok s') :
    (ReportsSame c.1 c.2 s' p q ↔
      c.2.exitTicks p ≠ -1 ∧ 2 ^ 32 ∣ c.2.late p ∧
        ((c.2.exitAge p : Int) - c.2.exitCharged p) % 2 ^ 32 < 2 ^ 31) ∧
    ((exitKernel P).ReachableWhen (fun c a => CarefulExit P c.1 a) c →
      ReportsSame c.1 c.2 s' p q) := by
  obtain ⟨_, hcount, hinv⟩ := exitTimes h
  have hstage := hr.stage
  have hetime := hinv.etime p (by omega)
  have hage := hinv.age p (by omega)
  have hwait := hinv.waitTime p (by omega)
  have hlate := hinv.late p (by omega)
  have hrtime := hcount.charged p
  have hfields := reports_same_fields h hr
  constructor
  · rw [hfields, hetime, hage, hwait, hrtime, toInt_sub_nonneg, hlate, BitVec.ofNat_add]
    rw [sub_add_eq_iff]
  · intro hcare
    obtain ⟨hearly, hnone⟩ := careful_early hcare
    obtain ⟨hle, hlt⟩ := hearly p (by omega)
    have hsame : (c.1.procs p).etime - (c.1.procs p).ctime - (c.1.procs p).rtime =
        (c.1.procs p).waitTime := by
      rw [hwait, hrtime, hlate, hnone p (by omega), hetime, hage, Nat.add_zero]
    rw [hfields]
    refine ⟨?_, hsame, ?_⟩
    · intro heq
      rw [heq] at hlt
      exact absurd hlt (by decide)
    · rw [← hsame, BitVec.toInt_eq_toNat_cond, BitVec.toNat_sub, BitVec.toNat_sub]
      have hc := (c.1.procs p).ctime.isLt
      have hr := (c.1.procs p).rtime.isLt
      split
      · omega
      · omega

/-! ## Two runs -/

/-- On CPU 1: init forks a child. -/
def initForks : List Act :=
  List.flatten [List.replicate 6 (.sched 1), [.go 1 true, .call 1 .fork],
    List.replicate 6 (.go 1 true)]

/-- Init sleeps in `waitx`, and the child starts. -/
def waitxThenStart : List Act :=
  List.flatten [[.call 1 .waitx, .go 1 true], List.replicate 5 (.sched 1), [.go 1 true]]

/-- The child calls `exit` and computes its `wait_time`. -/
def exitUpToPrint : List Act :=
  .call 1 (.exit false) :: List.replicate 132 (.go 1 true)

/-- The child prints, becomes a zombie, and CPU 1 is idle. -/
def printThenZombie : List Act :=
  List.replicate 2 (.go 1 true) ++ [.sched 1]

/-- Init is scheduled and is about to scan the table. -/
def scanAgain : List Act :=
  List.replicate 6 (.sched 1) ++ [.go 1 true]

/-- A tick of CPU 0, handled in `n` steps. -/
def tickIn (n : Nat) : List Act :=
  .tick :: List.replicate n .timer

/-- A tick comes while the child is RUNNABLE, one while it is RUNNING, and one between its
exit and the `waitx`. -/
def threeTicks : List Act :=
  initForks ++ tickIn 133 ++ waitxThenStart ++ tickIn 131 ++ exitUpToPrint ++ printThenZombie ++
    tickIn 132 ++ scanAgain

/-- A tick comes during the print, and visits the slots of init and of the child. -/
def tickDuringPrint : List Act :=
  initForks ++ waitxThenStart ++ exitUpToPrint ++ tickIn 7 ++ printThenZombie ++ scanAgain

/-- The parent is about to reap the child in slot 1. -/
def aboutToReap (s : State) : Bool :=
  s.cpu 1 == .run slot0 && s.kpc slot0 == .scan true &&
    s.procs.findZombie slot0 == some ⟨1, one_lt_NPROC⟩ && (step ⟨2⟩ s (.go 1 true)).isSome

theorem reaps_of_aboutToReap {s : State} (h : aboutToReap s = true) :
    ∃ s', Reaps ⟨2⟩ s 1 ⟨1, by decide⟩ slot0 true s' := by
  simp only [aboutToReap, Bool.and_eq_true, beq_iff_eq] at h
  obtain ⟨⟨⟨hcpu, hk⟩, hz⟩, hsome⟩ := h
  obtain ⟨s', hs'⟩ := Option.isSome_iff_exists.1 hsome
  exact ⟨s', hcpu, hk, hz, hs'⟩

/-- The run with three ticks is careful, and the child has waited for one of them. -/
theorem reports_same_threeTicks :
    ∃ c, (exitKernel ⟨2⟩).ReachableWhen (fun c a => CarefulExit ⟨2⟩ c.1 a) c ∧
      (c.1.procs ⟨1, by decide⟩).waitTime = 1 ∧
      ∃ s', Reaps ⟨2⟩ c.1 1 ⟨1, by decide⟩ slot0 true s' ∧
        ReportsSame c.1 c.2 s' ⟨1, by decide⟩ slot0 := by
  obtain ⟨c, hc, htest⟩ := System.exists_reachableWhen_of_run
    (fun c a => CarefulExit ⟨2⟩ c.1 a) (M := exitKernel ⟨2⟩) (l := threeTicks)
    (s := (start, ExitRecord.empty))
    (p := fun c => aboutToReap c.1 && (c.1.procs ⟨1, by decide⟩).waitTime == 1)
    ⟨rfl, rfl⟩ (by decide +kernel)
  simp only [Bool.and_eq_true, beq_iff_eq] at htest
  obtain ⟨s', hs'⟩ := reaps_of_aboutToReap htest.1
  exact ⟨c, hc, htest.2, s', hs',
    (reports_same_iff ⟨2⟩ c hc.reachable 1 ⟨1, by decide⟩ slot0 true s' hs').2 hc⟩

/-- A tick that arrives while `exit` prints is charged to the child after
`wait_time` has been computed. -/
theorem not_all_report_same :
    ¬ ∀ (P : Params) (c : State × ExitRecord), (exitKernel P).Reachable c →
      ∀ (d : Cpu) (p q : Slot) (ok : Bool) (s' : State), Reaps P c.1 d p q ok s' →
        ReportsSame c.1 c.2 s' p q := by
  intro hall
  obtain ⟨c, hc, htest⟩ := System.exists_reachable_of_run (M := exitKernel ⟨2⟩)
    (l := tickDuringPrint) (s := (start, ExitRecord.empty))
    (p := fun c => aboutToReap c.1 &&
      (c.1.procs ⟨1, by decide⟩).waitxTime 0 != (c.1.procs ⟨1, by decide⟩).waitTime)
    ⟨rfl, rfl⟩ (by decide +kernel)
  simp only [Bool.and_eq_true, bne_iff_ne] at htest
  obtain ⟨s', hs'⟩ := reaps_of_aboutToReap htest.1
  obtain ⟨w, _, _, hw, _, _, hconst⟩ := hall ⟨2⟩ c hc 1 ⟨1, by decide⟩ slot0 true s' hs'
  exact htest.2 ((hconst 0).trans hw)

end OsWork.Ports.ProcTable

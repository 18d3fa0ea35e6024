import OsWork.Ports.ProcLocking

/-!
# How long a RUNNABLE process waits

`scheduler` scans the table in a circle, and the position of the scan survives
the `swtch` to a process and back.  On a kernel with one CPU a process that has
become RUNNABLE is therefore passed over by each other slot at most once.

## Main results

* `bounded_bypass` — from the moment a process becomes RUNNABLE until it is
  selected, every other slot is selected at most once.
-/

namespace OsWork.Ports.ProcTable

open OsWork.Verified.Transition

/-- The process that the step selects in the loop of `scheduler`. -/
def State.selects (s : State) : Act → Option Slot
  | .sched c =>
      match s.cpu c with
      | .scan k => s.findRunnable k
      | _ => none
  | _ => none

/-- How often `j` has been selected since `q` became RUNNABLE, or was selected. -/
abbrev Bypasses := Slot → Slot → Nat

def Bypasses.count (s : State) (a : Act) (g : Bypasses) : Bypasses := fun q j =>
  if (s.procs q).state ≠ .runnable then 0
  else
    match s.selects a with
    | none => g q j
    | some p => if p = q then 0 else if p = j then g q j + 1 else g q j

/-- The slot that the scan of the scheduler comes to next. -/
def CpuPc.position : CpuPc → Nat
  | .idle | .wakes _ _ => 0
  | .scan k => k
  | .uvm p _ | .uvmLoad p _ | .uvmStore p _ | .dispatch p | .run p => p.val + 1

/-- The slots between a position of the scan and the slot `q`, ahead of the scan. -/
def Ahead (k : Nat) (q j : Slot) : Prop :=
  if k ≤ q.val then k ≤ j.val ∧ j.val < q.val else k ≤ j.val ∨ j.val < q.val

/-- Who has been selected since `q` became RUNNABLE is no more ahead of the scan. -/
structure Bypassed (s : State) (g : Bypasses) : Prop where
  once : ∀ q j, j ≠ q → g q j ≤ 1
  passed : ∀ q j, j ≠ q → (s.procs q).state = .runnable → 0 < g q j →
    ¬ Ahead (s.cpu 0).position q j

section Steps

variable {s s' : State} {g : Bypasses} {a : Act}

/-- The first RUNNABLE slot from `k` on comes before every other one. -/
theorem State.findRunnable_first {k : Nat} {p q : Slot} (h : s.findRunnable k = some p) :
    k ≤ p.val ∧ ((s.procs q).state = .runnable → k ≤ q.val → p.val ≤ q.val) := by
  unfold State.findRunnable at h
  obtain ⟨hp, pre, post, hsplit, hpre⟩ := List.find?_eq_some_iff_append.mp h
  simp only [Bool.and_eq_true, decide_eq_true_eq] at hp
  refine ⟨hp.1, ?_⟩
  intro hq hk
  have hsorted : (List.finRange NPROC).Pairwise (· < ·) := List.pairwise_lt_finRange NPROC
  rw [hsplit] at hsorted
  have hmem : q ∈ pre ++ p :: post := by
    rw [← hsplit]
    exact List.mem_finRange q
  rcases List.mem_append.mp hmem with hin | hin
  · have hnot := hpre q hin
    simp [hk, hq] at hnot
  · rcases List.mem_cons.mp hin with rfl | hin
    · exact le_rfl
    · have hafter := (List.pairwise_append.mp hsorted).2.1
      exact le_of_lt ((List.pairwise_cons.mp hafter).1 q hin)

/-- No RUNNABLE slot is left from `k` on. -/
theorem State.findRunnable_none {k : Nat} {q : Slot} (h : s.findRunnable k = none)
    (hq : (s.procs q).state = .runnable) : q.val < k := by
  have hnot := List.find?_eq_none.mp h q (List.mem_finRange q)
  simp only [hq, Bool.and_eq_true, decide_eq_true_eq, beq_self_eq_true, and_true] at hnot
  omega

/-- The position moves when a process is selected, and at the end of the table. -/
theorem Move.position (hm : Move s a s') :
    (s'.cpu 0).position = (s.cpu 0).position ∨ a = .sched 0 ∧ ∃ k, s.cpu 0 = .scan k := by
  have hset : ∀ {c : Cpu} {m : CpuPc}, m.position = (s.cpu c).position →
      (Function.update s.cpu c m 0).position = (s.cpu 0).position := by
    intro c m hsame
    by_cases hc : c = 0
    · subst hc
      rw [Function.update_self, hsame]
    · rw [Function.update_of_ne (Ne.symm hc)]
  have hscan : ∀ {c : Cpu} {k : Nat} {m : CpuPc}, s.cpu c = .scan k →
      (Function.update s.cpu c m 0).position = (s.cpu 0).position ∨
        Act.sched c = .sched 0 ∧ ∃ k, s.cpu 0 = .scan k := by
    intro c k m hcpu
    by_cases hc : c = 0
    · subst hc
      exact .inr ⟨rfl, k, hcpu⟩
    · rw [Function.update_of_ne (Ne.symm hc)]
      exact .inl rfl
  cases hm with
  | schedAcquire hcpu hlock | schedUvm hcpu | schedUvmLoad hcpu | schedUvmStore hcpu
      | dispatch hcpu | schedWake hcpu | schedWoken hcpu | intrIdle hcpu hlock
      | sleep hcpu hk hlock | exitZombie hcpu hk | waitSleep hcpu hk hz hkids hkilled
      | yield hcpu hk hlock => exact .inl (hset (by rw [hcpu]; rfl))
  | schedPick hcpu hp => exact hscan hcpu
  | schedRelease hcpu => exact hscan hcpu
  | _ => exact .inl rfl

/-- A step of the scheduler inside the scan. -/
theorem scan_cases {P : Params} {c : Cpu} {k : Nat} (hs : step P s (.sched c) = some s')
    (hcpu : s.cpu c = .scan k) :
    (∃ p, s.findRunnable k = some p ∧ s' = s.setCpu c (.uvm p s.ticks)) ∨
      s.findRunnable k = none ∧ s' = s.release.setCpu c .idle := by
  simp only [step] at hs
  split at hs
  · unfold State.scheduler at hs
    rw [hcpu] at hs
    cases hp : s.findRunnable k with
    | some p =>
        simp only [hp] at hs
        exact .inl ⟨p, rfl, (Option.some.inj hs).symm⟩
    | none =>
        simp only [hp] at hs
        exact .inr ⟨rfl, (Option.some.inj hs).symm⟩
  · cases hs

theorem runnable_of_wakes {a b : ProcState} (h : a.Wakes b) (ha : a = .runnable) :
    b = .runnable := by
  rcases h with rfl | ⟨hsleeping, -⟩
  · exact ha
  · rw [ha] at hsleeping
    cases hsleeping

/-- A write to a slot that is not RUNNABLE, or that leaves its state alone. -/
theorem runnable_set {t : Table} {i q : Slot} {f : Proc → Proc} (hq : (t q).state = .runnable)
    (hf : (t i).state ≠ .runnable ∨ (f (t i)).state = (t i).state ∨
      (f (t i)).state = .runnable) : (t.set i f q).state = .runnable := by
  by_cases hqi : q = i
  · subst hqi
    rw [Table.set_self]
    rcases hf with hne | hsame | hrun
    · exact absurd hq hne
    · rw [hsame]
      exact hq
    · exact hrun
  · rw [Table.set_of_ne t hqi]
    exact hq

/-- A RUNNABLE process stays RUNNABLE until it is dispatched. -/
theorem Move.runnable {q : Slot} (hl : Locking s) (hf : Forking s) (hm : Move s a s')
    (hq : (s.procs q).state = .runnable) :
    (s'.procs q).state = .runnable ∨ ∃ c, a = .sched c ∧ s.cpu c = .dispatch q := by
  have hrunning : ∀ {c p}, s.cpu c = .run p → (s.procs p).state ≠ .runnable := by
    intro c p hcpu hp
    rw [hl.running c p hcpu] at hp
    cases hp
  cases hm with
  | dispatch hcpu =>
      rename_i c p
      by_cases hqp : q = p
      · rw [hqp]
        exact .inr ⟨c, rfl, hcpu⟩
      · refine .inl ?_
        show (s.procs.set p _ q).state = .runnable
        rw [Table.set_of_ne _ hqp]
        exact hq
  | fork hcpu hk hlock hnp =>
      have hunused := Table.find_some hnp
      simp only [beq_iff_eq] at hunused
      exact .inl (runnable_set hq (.inl (by rw [hunused]; exact ProcState.noConfusion)))
  | forkFail hcpu hk =>
      rename_i c p np
      have hembryo : (s.procs np).state = .embryo := by
        rcases hk with hk | hk
        · exact hf.embryo p np (by rw [hk]; rfl)
        · exact hf.embryo p np (by rw [hk]; rfl)
      exact .inl (runnable_set hq (.inl (by rw [hembryo]; exact ProcState.noConfusion)))
  | reap hcpu hk hz =>
      have hzombie := Table.find_some hz
      simp only [Bool.and_eq_true, beq_iff_eq] at hzombie
      exact .inl (runnable_set hq (.inl (by rw [hzombie.2]; exact ProcState.noConfusion)))
  | sleep hcpu hk hlock | waitSleep hcpu hk hz hkids hkilled =>
      exact .inl (runnable_set (runnable_set hq (.inr (.inl rfl)))
        (.inl (by rw [State.setProc_procs, Table.set_self]; exact hrunning hcpu)))
  | exitZombie hcpu hk | yield hcpu hk hlock => exact .inl (runnable_set hq (.inl (hrunning hcpu)))
  | kill hlock => exact .inl (runnable_of_wakes (s.procs.kill_wakes _ q) hq)
  | schedWake hcpu | wakeSlot hcpu hk =>
      exact .inl (runnable_of_wakes (s.procs.wakeSlot_wakes _ _ q) hq)
  | exitChild hcpu hk hi hnext | schedUvmStore hcpu | fault hcpu hk | forkTimes hcpu hk
      | forkWait hcpu hk | forkParent hcpu hk | exitTime hcpu hk | exitWait hcpu hk
      | scanWake hcpu hk | slept hcpu hk | uvmStore hcpu hk | rtimeStore htimer
      | queueStore htimer => exact .inl (runnable_set hq (.inr (.inl rfl)))
  | wakeupTicks htimer hlock => exact .inl (runnable_of_wakes (s.procs.wakeup1_wakes _ q) hq)
  | forkReady hcpu hk hlock => exact .inl (runnable_set hq (.inr (.inr rfl)))
  | _ => exact .inl hq

/-- The scan has gone past the slot it has selected, and past no other one that was
ahead of it. -/
theorem Ahead.after {k p : Nat} {q j : Slot} (hkp : k ≤ p) (hq : k ≤ q.val → p < q.val)
    (h : Ahead (p + 1) q j) : Ahead k q j ∧ j.val ≠ p := by
  unfold Ahead at h ⊢
  split at h
  · split
    · omega
    · omega
  · split
    · omega
    · omega

/-- At the end of the table the scan starts again. -/
theorem Ahead.wrap {k : Nat} {q j : Slot} (hk : q.val < k) (h : Ahead 0 q j) : Ahead k q j := by
  unfold Ahead at h ⊢
  rw [if_pos (Nat.zero_le _)] at h
  rw [if_neg (by omega)]
  exact .inr h.2

/-- One step of the kernel with one CPU. -/
theorem Bypassed.step (h : Bypassed s g)
    (hs : step ⟨1⟩ s a = some s') : Bypassed s' (Bypasses.count s a g) := by
  have hm := Move.of_step hs
  have hrunnable : ∀ q, (s.procs q).state ≠ .runnable → Bypasses.count s a g q = fun _ => 0 := by
    intro q hq
    funext j
    exact if_pos hq
  -- without a selection the counts stay, and the scan goes past nobody
  have hquiet : s.selects a = none →
      (∀ q j, (s.procs q).state = .runnable → Ahead (s'.cpu 0).position q j →
        Ahead (s.cpu 0).position q j) → Bypassed s' (Bypasses.count s a g) := by
    intro hnone hahead
    have hsame : ∀ q, (s.procs q).state = .runnable → Bypasses.count s a g q = g q := by
      intro q hq
      funext j
      unfold Bypasses.count
      rw [if_neg (not_not.mpr hq), hnone]
    constructor
    · intro q j hj
      by_cases hq : (s.procs q).state = .runnable
      · rw [hsame q hq]
        exact h.once q j hj
      · rw [hrunnable q hq]
        exact Nat.zero_le _
    · intro q j hj _ hpos
      by_cases hq : (s.procs q).state = .runnable
      · rw [hsame q hq] at hpos
        exact fun hah => h.passed q j hj hq hpos (hahead q j hq hah)
      · rw [hrunnable q hq] at hpos
        exact absurd hpos (Nat.lt_irrefl 0)
  rcases hm.position with hpos | ⟨rfl, k, hscan⟩
  · have hnone : s.selects a = none := by
      cases a with
      | sched c =>
          have hc : c = 0 := by
            simp only [ProcTable.step] at hs
            split at hs
            · rename_i hcpu
              exact Nat.lt_one_iff.mp hcpu.1
            · cases hs
          subst hc
          simp only [State.selects]
          split
          · rename_i k hscan
            rcases scan_cases hs hscan with ⟨p, hp, rfl⟩ | ⟨hnone, -⟩
            · have hkp := (State.findRunnable_first (q := p) hp).1
              rw [hscan, State.setCpu_cpu, Function.update_self] at hpos
              have hpos : p.val + 1 = k := hpos
              omega
            · exact hnone
          · rfl
      | _ => rfl
    exact hquiet hnone fun q j _ hah => by rwa [hpos] at hah
  · rcases scan_cases hs hscan with ⟨p, hp, rfl⟩ | ⟨hnone, rfl⟩
    · have hselects : s.selects (.sched 0) = some p := by
        simp only [State.selects, hscan]
        exact hp
      have hcount : ∀ q j, (s.procs q).state = .runnable →
          Bypasses.count s (.sched 0) g q j =
            if p = q then 0 else if p = j then g q j + 1 else g q j := by
        intro q j hq
        unfold Bypasses.count
        rw [if_neg (not_not.mpr hq), hselects]
      -- the selected slot was ahead of the scan
      have hbefore : ∀ q, (s.procs q).state = .runnable → p ≠ q → k ≤ q.val → p.val < q.val := by
        intro q hq hpq hk
        have hle := (State.findRunnable_first hp).2 hq hk
        have hne : p.val ≠ q.val := fun heq => hpq (Fin.ext heq)
        omega
      have hkp : k ≤ p.val := (State.findRunnable_first (q := p) hp).1
      have hzero : ∀ q, (s.procs q).state = .runnable → p ≠ q → g q p = 0 := by
        intro q hq hpq
        by_contra hne
        apply h.passed q p hpq hq (Nat.pos_of_ne_zero hne)
        rw [hscan]
        have hlt := hbefore q hq hpq
        show Ahead k q p
        unfold Ahead
        split
        · rename_i hk
          exact ⟨hkp, hlt hk⟩
        · exact .inl hkp
      constructor
      · intro q j hj
        by_cases hq : (s.procs q).state = .runnable
        · rw [hcount q j hq]
          split
          · exact Nat.zero_le _
          · rename_i hpq
            split
            · rename_i hpj
              rw [← hpj, hzero q hq hpq]
            · exact h.once q j hj
        · rw [hrunnable q hq]
          exact Nat.zero_le _
      · intro q j hj _ hpos hah
        have hah : Ahead (p.val + 1) q j := by
          rw [State.setCpu_cpu, Function.update_self] at hah
          exact hah
        by_cases hq : (s.procs q).state = .runnable
        · rw [hcount q j hq] at hpos
          split at hpos
          · exact absurd hpos (Nat.lt_irrefl 0)
          · rename_i hpq
            obtain ⟨hthen, hne⟩ := hah.after hkp (hbefore q hq hpq)
            rw [if_neg (fun hpj : p = j => hne (by rw [hpj]))] at hpos
            apply h.passed q j hj hq hpos
            rw [hscan]
            exact hthen
        · rw [hrunnable q hq] at hpos
          exact absurd hpos (Nat.lt_irrefl 0)
    · have hselects : s.selects (.sched 0) = none := by
        simp only [State.selects, hscan]
        exact hnone
      apply hquiet hselects
      intro q j hq hah
      rw [hscan]
      apply Ahead.wrap (State.findRunnable_none hnone hq)
      rw [State.setCpu_cpu, Function.update_self] at hah
      exact hah

end Steps

/-- The kernel with one CPU, and the number of times each slot has been selected since
another one became RUNNABLE. -/
def bypasses : System (State × Bypasses) Act :=
  (kernel ⟨1⟩).withGhost (fun _ _ _ => 0) Bypasses.count

/-- Until a process that has become RUNNABLE is selected, every other slot is selected
at most once; and it stays RUNNABLE until the scheduler dispatches it. -/
theorem bounded_bypass (x : State × Bypasses) (h : bypasses.Reachable x) :
    (∀ q j, j ≠ q → x.2 q j ≤ 1) ∧
      ∀ a s' q, step ⟨1⟩ x.1 a = some s' → (x.1.procs q).state = .runnable →
        (s'.procs q).state = .runnable ∨ ∃ c, a = .sched c ∧ x.1.cpu c = .dispatch q := by
  have hgood : (Locking x.1 ∧ Forking x.1) ∧ Bypassed x.1 x.2 := by
    apply System.ReachableWhen.invariant
      (P := fun x => (Locking x.1 ∧ Forking x.1) ∧ Bypassed x.1 x.2) _ _ h
    · rintro ⟨s, g⟩ ⟨hs, hg⟩
      have hs : s = start := hs
      subst hs
      refine ⟨⟨locking_start, forking_start⟩, ?_⟩
      constructor
      · intro q j _
        show g q j ≤ 1
        rw [show g = fun _ _ => 0 from hg]
        exact Nat.zero_le _
      · intro q j _ _ hpos
        have hpos : 0 < g q j := hpos
        rw [show g = fun _ _ => 0 from hg] at hpos
        exact absurd hpos (Nat.lt_irrefl 0)
    · rintro ⟨s, g⟩ a ⟨s', g'⟩ ⟨⟨hl, hf⟩, hb⟩ _ hstep
      obtain ⟨hs, hg⟩ := System.withGhost_step hstep
      have hm := Move.of_step hs
      refine ⟨⟨hl.step hf hm, hf.step hl hm⟩, ?_⟩
      rw [hg]
      exact hb.step hs
  obtain ⟨⟨hl, hf⟩, hb⟩ := hgood
  exact ⟨hb.once, fun a s' q hs hq => (Move.of_step hs).runnable hl hf hq⟩

/-- `init` forks a child and sleeps; the child is selected, a device interrupts it and
wakes `init`, it yields, and the scheduler selects `init`. -/
def wakeAndYield : List Act :=
  List.flatten [List.replicate 6 (.sched 0), [.go 0 true, .call 0 .fork],
    List.replicate 6 (.go 0 true), [.call 0 (.sleep 7)], List.replicate 5 (.sched 0),
    [.go 0 true, .intr 0 7], List.replicate 65 (.go 0 true), [.yield 0],
    List.replicate 3 (.sched 0)]

theorem bounded_bypass_wakeAndYield : ∃ x : State × Bypasses,
    x.2 ⟨1, by decide⟩ slot0 = 1 ∧ (∀ q j, j ≠ q → x.2 q j ≤ 1) ∧
      ∀ a s' q, step ⟨1⟩ x.1 a = some s' → (x.1.procs q).state = .runnable →
        (s'.procs q).state = .runnable ∨ ∃ c, a = .sched c ∧ x.1.cpu c = .dispatch q := by
  obtain ⟨x, hx, htest⟩ := System.exists_reachable_of_run (M := bypasses)
    (s := (start, fun _ _ => 0)) (l := wakeAndYield)
    (p := fun x => x.2 ⟨1, by decide⟩ slot0 == 1) ⟨rfl, rfl⟩ (by decide +kernel)
  exact ⟨x, by simpa using htest, bounded_bypass x hx⟩

end OsWork.Ports.ProcTable

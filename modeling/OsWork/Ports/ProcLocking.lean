import OsWork.Ports.ProcMoves

/-!
# Who runs where, and who holds `ptable.lock`

The invariant every other result about the process table rests on: a process
runs on one CPU at most, a position inside a critical section is a position on
the CPU that holds the lock, and a process that is not running stands where
`sched` or `allocproc` has left it.  It holds in every state reached
(`locking`).
-/

namespace OsWork.Ports.ProcTable

open OsWork.Verified.Transition

/-- The process the scheduler of a CPU is about to run. -/
def CpuPc.target : CpuPc → Option Slot
  | .uvm p _ | .uvmLoad p _ | .uvmStore p _ | .dispatch p => some p
  | _ => none

/-- The scheduler of the CPU is inside its critical section. -/
def CpuPc.scheduling : CpuPc → Bool
  | .idle | .run _ => false
  | _ => true

/-- Where a process stands that does not run. -/
def KPc.parked : KPc → Bool
  | .scanWake _ | .slept | .yielded _ | .forkret => true
  | _ => false

/-- The slot `fork` is filling in. -/
def KPc.forks : KPc → Option Slot
  | .forkStack np | .forkTimes np | .forkWait np | .forkCopy np | .forkParent np
  | .forkReady np => some np
  | .yielded k | .wakes _ _ k => k.forks
  | _ => none

theorem KPc.locked_of_back {k k' : KPc} (h : k.back = some k') : k.locked = true := by
  cases k <;> first | rfl | cases h

/-- A process that is away in a critical section keeps the slot it is filling in. -/
theorem KPc.forks_of_back {k k' : KPc} (h : k.back = some k') : k'.forks = k.forks := by
  cases k <;> cases h <;> rfl

section Waking

variable {s : State} {p : Slot} {chan : Option Chan} {i : Nat} {k : KPc}

/-- The rounds of `wakeup1` keep the lock. -/
theorem Waking.locked (h : Waking s p chan i k) : (s.kpc p).locked = true := by
  cases h <;> rename_i hk <;> rw [hk] <;> rfl

theorem Waking.back (h : Waking s p chan i k) : k.back = (s.kpc p).back := by
  cases h <;> rename_i hk <;> rw [hk] <;> rfl

theorem Waking.forks (h : Waking s p chan i k) : k.forks = (s.kpc p).forks := by
  cases h <;> rename_i hk <;> rw [hk] <;> rfl

end Waking

/-- A state in which a slot has no kernel thread of its own. -/
def ProcState.off (st : ProcState) : Prop :=
  st = .unused ∨ st = .embryo ∨ st = .zombie

/-- What happens to the state of a process that does not run at the moment. -/
def ProcState.Drifts (a b : ProcState) : Prop :=
  b = a ∨ a = .sleeping ∧ b = .runnable ∨ a.off ∧ b.off

theorem ProcState.Wakes.drifts {a b : ProcState} (h : a.Wakes b) : a.Drifts b :=
  h.imp id .inl

theorem ProcState.Drifts.refl (a : ProcState) : a.Drifts a := .inl rfl

/-- The positions of the CPUs and processes agree with the states and the lock. -/
structure Locking (s : State) : Prop where
  running : ∀ c p, s.cpu c = .run p → (s.procs p).state = .running
  unique : ∀ c d p, s.cpu c = .run p → s.cpu d = .run p → c = d
  chosen : ∀ c p, (s.cpu c).target = some p → (s.procs p).state = .runnable
  scheduling : ∀ c, (s.cpu c).scheduling → s.lock = some c
  inSection : ∀ c p, s.cpu c = .run p → (s.kpc p).locked → s.lock = some c
  parked : ∀ p, (s.procs p).state = .runnable ∨ (s.procs p).state = .sleeping →
    (s.kpc p).parked
  off : ∀ p, (s.procs p).state.off → s.kpc p = .dead
  located : ∀ p, (s.procs p).state = .running → ∃ c, s.cpu c = .run p
  resumes : ∀ p k, (s.kpc p).back = some k → k.locked = false

/-- An EMBRYO slot belongs to the one process that forks it. -/
structure Forking (s : State) : Prop where
  embryo : ∀ p np, (s.kpc p).forks = some np → (s.procs np).state = .embryo
  owner : ∀ p q np, (s.kpc p).forks = some np → (s.kpc q).forks = some np → p = q

theorem forking_start : Forking start where
  embryo p np h := by
    by_cases hp : p = slot0
    · subst hp
      simp [start, KPc.forks] at h
    · simp [start, hp, KPc.forks] at h
  owner p q np h := by
    by_cases hp : p = slot0
    · subst hp
      simp [start, KPc.forks] at h
    · simp [start, hp, KPc.forks] at h

theorem locking_start : Locking start where
  running c p h := by simp [start] at h
  unique c d p h := by simp [start] at h
  chosen c p h := by simp [start, CpuPc.target] at h
  scheduling c h := by simp [start, CpuPc.scheduling] at h
  inSection c p h := by simp [start] at h
  parked p h := by
    by_cases hp : p = slot0
    · subst hp
      simp [start, KPc.parked]
    · simp [start, hp, Proc.zero] at h
  off p h := by
    by_cases hp : p = slot0
    · subst hp
      simp [start, ProcState.off] at h
    · simp [start, hp]
  located p h := by
    by_cases hp : p = slot0
    · subst hp
      simp [start] at h
    · simp [start, hp, Proc.zero] at h
  resumes p k h := by
    by_cases hp : p = slot0
    · subst hp
      simp only [start, Function.update_self, KPc.back, Option.some.injEq] at h
      rw [← h]
      rfl
    · simp [start, hp, KPc.back] at h

section Steps

variable {s s' : State} {c : Cpu} {p : Slot} {k : KPc} {m : CpuPc}

/-- A process inside a critical section, other than one that has left it through
`sched`, runs on the CPU that holds the lock. -/
theorem Locking.holder (h : Locking s) (hk : (s.kpc p).locked = true)
    (hp : (s.kpc p).parked = false) : ∃ c, s.cpu c = .run p ∧ s.lock = some c := by
  have hstate : (s.procs p).state = .running := by
    cases hst : (s.procs p).state with
    | running => rfl
    | runnable => simp [h.parked p (.inl hst)] at hp
    | sleeping => simp [h.parked p (.inr hst)] at hp
    | unused | embryo | zombie => simp [h.off p (by simp [hst, ProcState.off]), KPc.locked] at hk
  obtain ⟨c, hc⟩ := h.located p hstate
  exact ⟨c, hc, h.inSection c p hc hk⟩

/-- States drift while the kernel positions stay where they are. -/
theorem Locking.ofDrift (h : Locking s) (hcpu : s'.cpu = s.cpu) (hlock : s'.lock = s.lock)
    (hkpc : s'.kpc = s.kpc)
    (hstate : ∀ i, (s.procs i).state.Drifts (s'.procs i).state) : Locking s' where
  running c p hc := by
    rw [hcpu] at hc
    have := h.running c p hc
    have hd := hstate p
    simp only [ProcState.Drifts, ProcState.off, this] at hd
    simpa using hd
  unique := by
    rw [hcpu]
    exact h.unique
  chosen c p hc := by
    rw [hcpu] at hc
    have := h.chosen c p hc
    have hd := hstate p
    simp only [ProcState.Drifts, ProcState.off, this] at hd
    simpa using hd
  scheduling := by
    rw [hcpu, hlock]
    exact h.scheduling
  inSection := by
    rw [hcpu, hlock, hkpc]
    exact h.inSection
  parked p hp := by
    rw [hkpc]
    apply h.parked p
    have hd := hstate p
    simp only [ProcState.Drifts, ProcState.off] at hd
    rcases hp with hp | hp <;> rw [hp] at hd <;> simp at hd <;> tauto
  off p hp := by
    rw [hkpc]
    apply h.off p
    have hd := hstate p
    simp only [ProcState.Drifts, ProcState.off] at hd hp ⊢
    rcases hp with hp | hp | hp <;> rw [hp] at hd <;> simp at hd <;> tauto
  located p hp := by
    rw [hcpu]
    apply h.located p
    have hd := hstate p
    simp only [ProcState.Drifts, ProcState.off, hp] at hd
    simp at hd
    exact hd.symm
  resumes := by
    rw [hkpc]
    exact h.resumes

/-- The process on CPU `c` goes on to `k`, perhaps taking or releasing the lock. -/
theorem Locking.ofRun (h : Locking s) (hc : s.cpu c = .run p) (hcpu : s'.cpu = s.cpu)
    (hkpc : s'.kpc = Function.update s.kpc p k)
    (hlock : ∀ d, d ≠ c → s.lock = some d → s'.lock = some d)
    (hk : k.locked → s'.lock = some c) (hy : ∀ k', k.back = some k' → k'.locked = false)
    (hstate : ∀ i, (s.procs i).state.Drifts (s'.procs i).state) : Locking s' := by
  have hrun := h.running c p hc
  have hdrift : Locking { s with procs := s'.procs } := h.ofDrift rfl rfl rfl hstate
  have hrun' := hdrift.running c p hc
  have hother : ∀ q, q ≠ p → s'.kpc q = s.kpc q := by
    intro q hq
    rw [hkpc, Function.update_of_ne hq]
  refine
    { running := ?_
      unique := ?_
      chosen := ?_
      scheduling := fun d hd => ?_
      inSection := fun d q hd hq => ?_
      parked := fun q hq => ?_
      off := fun q hq => ?_
      located := ?_
      resumes := fun q k' hq => ?_ }
  · rw [hcpu]
    exact hdrift.running
  · rw [hcpu]
    exact h.unique
  · rw [hcpu]
    exact hdrift.chosen
  · rw [hcpu] at hd
    have hdc : d ≠ c := by
      intro heq
      subst heq
      simp [hc, CpuPc.scheduling] at hd
    exact hlock d hdc (h.scheduling d hd)
  · rw [hcpu] at hd
    by_cases hqp : q = p
    · subst hqp
      rw [hkpc, Function.update_self] at hq
      rw [h.unique d c q hd hc]
      exact hk hq
    · rw [hother q hqp] at hq
      have hdc : d ≠ c := by
        intro heq
        subst heq
        rw [hc] at hd
        exact hqp (CpuPc.run.inj hd).symm
      exact hlock d hdc (h.inSection d q hd hq)
  · by_cases hqp : q = p
    · subst hqp
      simp only at hrun'
      rw [hrun'] at hq
      simp at hq
    · rw [hother q hqp]
      exact hdrift.parked q hq
  · by_cases hqp : q = p
    · subst hqp
      simp only at hrun'
      rw [hrun'] at hq
      simp [ProcState.off] at hq
    · rw [hother q hqp]
      exact hdrift.off q hq
  · rw [hcpu]
    exact hdrift.located
  · by_cases hqp : q = p
    · subst hqp
      rw [hkpc, Function.update_self] at hq
      exact hy k' hq
    · rw [hother q hqp] at hq
      exact h.resumes q k' hq

/-- The process on CPU `c` leaves it through `sched`. -/
theorem Locking.ofLeave {a : ProcState} (h : Locking s) (hc : s.cpu c = .run p)
    (hcpu : s'.cpu = Function.update s.cpu c (.scan (p.val + 1)))
    (hkpc : s'.kpc = Function.update s.kpc p k) (hlock : s'.lock = some c)
    (hfree : ∀ d, s.lock = some d → d = c) (hp : (s'.procs p).state = a)
    (hst : a ≠ .running) (hk : (a = .runnable ∨ a = .sleeping → k.parked) ∧
      (a.off → k = .dead))
    (hy : ∀ k', k.back = some k' → k'.locked = false)
    (hstate : ∀ i, i ≠ p → (s'.procs i).state = (s.procs i).state) : Locking s' := by
  have hother : ∀ q, q ≠ p → s'.kpc q = s.kpc q := by
    intro q hq
    rw [hkpc, Function.update_of_ne hq]
  have hrun : ∀ d q, s'.cpu d = .run q → d ≠ c ∧ s.cpu d = .run q ∧ q ≠ p := by
    intro d q hd
    have hdc : d ≠ c := by
      intro heq
      subst heq
      rw [hcpu, Function.update_self] at hd
      cases hd
    rw [hcpu, Function.update_of_ne hdc] at hd
    refine ⟨hdc, hd, ?_⟩
    intro heq
    subst heq
    exact hdc (h.unique d c q hd hc)
  refine
    { running := fun d q hd => ?_
      unique := fun d e q hd he => ?_
      chosen := fun d q hd => ?_
      scheduling := fun d hd => ?_
      inSection := fun d q hd hq => ?_
      parked := fun q hq => ?_
      off := fun q hq => ?_
      located := fun q hq => ?_
      resumes := fun q k' hq => ?_ }
  · obtain ⟨-, hd, hq⟩ := hrun d q hd
    rw [hstate q hq]
    exact h.running d q hd
  · exact h.unique d e q (hrun d q hd).2.1 (hrun e q he).2.1
  · have hdc : d ≠ c := by
      intro heq
      subst heq
      rw [hcpu, Function.update_self] at hd
      cases hd
    rw [hcpu, Function.update_of_ne hdc] at hd
    have hq := h.chosen d q hd
    have hqp : q ≠ p := by
      intro heq
      subst heq
      rw [h.running c q hc] at hq
      cases hq
    rw [hstate q hqp]
    exact hq
  · by_cases hdc : d = c
    · rw [hdc, hlock]
    · rw [hcpu, Function.update_of_ne hdc] at hd
      exact absurd (hfree d (h.scheduling d hd)) hdc
  · obtain ⟨hdc, hd, hqp⟩ := hrun d q hd
    rw [hother q hqp] at hq
    exact absurd (hfree d (h.inSection d q hd hq)) hdc
  · by_cases hqp : q = p
    · subst hqp
      rw [hkpc, Function.update_self]
      rw [hp] at hq
      exact hk.1 hq
    · rw [hstate q hqp] at hq
      rw [hother q hqp]
      exact h.parked q hq
  · by_cases hqp : q = p
    · subst hqp
      rw [hkpc, Function.update_self]
      rw [hp] at hq
      exact hk.2 hq
    · rw [hstate q hqp] at hq
      rw [hother q hqp]
      exact h.off q hq
  · have hqp : q ≠ p := by
      intro heq
      subst heq
      rw [hp] at hq
      exact hst hq
    rw [hstate q hqp] at hq
    obtain ⟨d, hd⟩ := h.located q hq
    have hdc : d ≠ c := by
      intro heq
      subst heq
      rw [hc] at hd
      exact hqp (CpuPc.run.inj hd).symm
    exact ⟨d, by rw [hcpu, Function.update_of_ne hdc, hd]⟩
  · by_cases hqp : q = p
    · subst hqp
      rw [hkpc, Function.update_self] at hq
      exact hy k' hq
    · rw [hother q hqp] at hq
      exact h.resumes q k' hq

/-- The scheduler of CPU `c` goes on to `m` without running a process. -/
theorem Locking.ofSched (h : Locking s) (hc : ∀ q, s.cpu c ≠ .run q)
    (hcpu : s'.cpu = Function.update s.cpu c m) (hm : ∀ q, m ≠ .run q)
    (hkpc : s'.kpc = s.kpc) (hlock : ∀ d, d ≠ c → s.lock = some d → s'.lock = some d)
    (hsched : m.scheduling → s'.lock = some c)
    (htarget : ∀ q, m.target = some q → (s.procs q).state = .runnable)
    (hstate : ∀ i, (s'.procs i).state = (s.procs i).state) : Locking s' := by
  have hrun : ∀ d q, s'.cpu d = .run q → d ≠ c ∧ s.cpu d = .run q := by
    intro d q hd
    have hdc : d ≠ c := by
      intro heq
      subst heq
      rw [hcpu, Function.update_self] at hd
      exact hm q hd
    rw [hcpu, Function.update_of_ne hdc] at hd
    exact ⟨hdc, hd⟩
  refine
    { running := fun d q hd => ?_
      unique := fun d e q hd he => h.unique d e q (hrun d q hd).2 (hrun e q he).2
      chosen := fun d q hd => ?_
      scheduling := fun d hd => ?_
      inSection := fun d q hd hq => ?_
      parked := fun q hq => ?_
      off := fun q hq => ?_
      located := fun q hq => ?_
      resumes := ?_ }
  · rw [hstate q]
    exact h.running d q (hrun d q hd).2
  · rw [hstate q]
    by_cases hdc : d = c
    · subst hdc
      rw [hcpu, Function.update_self] at hd
      exact htarget q hd
    · rw [hcpu, Function.update_of_ne hdc] at hd
      exact h.chosen d q hd
  · by_cases hdc : d = c
    · subst hdc
      rw [hcpu, Function.update_self] at hd
      exact hsched hd
    · rw [hcpu, Function.update_of_ne hdc] at hd
      exact hlock d hdc (h.scheduling d hd)
  · obtain ⟨hdc, hd⟩ := hrun d q hd
    rw [hkpc] at hq
    exact hlock d hdc (h.inSection d q hd hq)
  · rw [hkpc]
    rw [hstate q] at hq
    exact h.parked q hq
  · rw [hkpc]
    rw [hstate q] at hq
    exact h.off q hq
  · rw [hstate q] at hq
    obtain ⟨d, hd⟩ := h.located q hq
    have hdc : d ≠ c := by
      intro heq
      subst heq
      exact hc q hd
    exact ⟨d, by rw [hcpu, Function.update_of_ne hdc, hd]⟩
  · rw [hkpc]
    exact h.resumes

/-- The scheduler of CPU `c` runs the process it has chosen. -/
theorem Locking.dispatch (h : Locking s) (hc : s.cpu c = .dispatch p) :
    Locking ((s.setProc p fun q => { q with state := .running, numRun := q.numRun + 1 }).setCpu
      c (.run p)) := by
  have hp := h.chosen c p (by rw [hc]; rfl)
  have hlock := h.scheduling c (by rw [hc]; rfl)
  have hrun : ∀ d q, d ≠ c → s.cpu d = .run q → q ≠ p := by
    intro d q _ hd heq
    subst heq
    rw [h.running d q hd] at hp
    cases hp
  refine
    { running := fun d q hd => ?_
      unique := fun d e q hd he => ?_
      chosen := fun d q hd => ?_
      scheduling := fun d hd => ?_
      inSection := fun d q hd hq => ?_
      parked := fun q hq => ?_
      off := fun q hq => ?_
      located := fun q hq => ?_
      resumes := h.resumes }
  · by_cases hdc : d = c
    · subst hdc
      simp only [State.setCpu_cpu, Function.update_self, CpuPc.run.injEq] at hd
      simp [hd]
    · simp only [State.setCpu_cpu, State.setProc_cpu, Function.update_of_ne hdc] at hd
      simp [hrun d q hdc hd, h.running d q hd]
  · simp only [State.setCpu_cpu, State.setProc_cpu] at hd he
    by_cases hdc : d = c
    · by_cases hec : e = c
      · rw [hdc, hec]
      · rw [hdc, Function.update_self, CpuPc.run.injEq] at hd
        rw [Function.update_of_ne hec] at he
        exact absurd hd.symm (hrun e q hec he)
    · rw [Function.update_of_ne hdc] at hd
      by_cases hec : e = c
      · rw [hec, Function.update_self, CpuPc.run.injEq] at he
        exact absurd he.symm (hrun d q hdc hd)
      · rw [Function.update_of_ne hec] at he
        exact h.unique d e q hd he
  · by_cases hdc : d = c
    · subst hdc
      simp [CpuPc.target] at hd
    · simp only [State.setCpu_cpu, State.setProc_cpu, Function.update_of_ne hdc] at hd
      have hsched : (s.cpu d).scheduling := by
        cases hm : s.cpu d <;> simp [hm, CpuPc.target, CpuPc.scheduling] at hd ⊢
      have := h.scheduling d hsched
      rw [hlock] at this
      exact absurd (Option.some.inj this).symm hdc
  · by_cases hdc : d = c
    · subst hdc
      exact hlock
    · simp only [State.setCpu_cpu, State.setProc_cpu, Function.update_of_ne hdc] at hd
      exact h.scheduling d hd
  · by_cases hdc : d = c
    · subst hdc
      exact hlock
    · simp only [State.setCpu_cpu, State.setProc_cpu, Function.update_of_ne hdc] at hd
      exact h.inSection d q hd hq
  · by_cases hqp : q = p
    · subst hqp
      simp at hq
    · simp only [State.setCpu_procs, State.setProc_procs, Table.set_of_ne _ hqp] at hq
      exact h.parked q hq
  · by_cases hqp : q = p
    · subst hqp
      simp [ProcState.off] at hq
    · simp only [State.setCpu_procs, State.setProc_procs, Table.set_of_ne _ hqp] at hq
      exact h.off q hq
  · by_cases hqp : q = p
    · subst hqp
      exact ⟨c, by simp⟩
    · simp only [State.setCpu_procs, State.setProc_procs, Table.set_of_ne _ hqp] at hq
      obtain ⟨d, hd⟩ := h.located q hq
      have hdc : d ≠ c := by
        intro heq
        subst heq
        rw [hc] at hd
        cases hd
      exact ⟨d, by simp [hdc, hd]⟩

/-- `fork` makes the child RUNNABLE; it will start in `forkret`. -/
theorem Locking.forkReady {np : Slot} (h : Locking s) (hf : Forking s)
    (hc : s.cpu c = .run p) (hk : s.kpc p = .forkReady np) :
    Locking (((s.setProc np fun q => { q with state := .runnable }).setPc np .forkret).setPc p
      .user) := by
  have hnp : (s.procs np).state = .embryo := hf.embryo p np (by rw [hk]; rfl)
  have hp := h.running c p hc
  have hne : np ≠ p := by
    intro heq
    rw [heq, hp] at hnp
    cases hnp
  have hrun : ∀ d q, s.cpu d = .run q → q ≠ np := by
    intro d q hd heq
    rw [← heq, h.running d q hd] at hnp
    cases hnp
  have hstate : ∀ q, q ≠ np → ((s.procs.set np fun q => { q with state := .runnable }) q).state =
      (s.procs q).state := by
    intro q hq
    simp [hq]
  refine
    { running := fun d q hd => ?_
      unique := h.unique
      chosen := fun d q hd => ?_
      scheduling := h.scheduling
      inSection := fun d q hd hq => ?_
      parked := fun q hq => ?_
      off := fun q hq => ?_
      located := fun q hq => ?_
      resumes := fun q k hq => ?_ }
  · exact (hstate q (hrun d q hd)).trans (h.running d q hd)
  · have hq := h.chosen d q hd
    have hqnp : q ≠ np := by
      intro heq
      rw [← heq, hq] at hnp
      cases hnp
    exact (hstate q hqnp).trans hq
  · simp only [State.setPc_kpc, State.setProc_kpc] at hq
    by_cases hqp : q = p
    · subst hqp
      simp [KPc.locked] at hq
    · rw [Function.update_of_ne hqp, Function.update_of_ne (hrun d q hd)] at hq
      exact h.inSection d q hd hq
  · simp only [State.setPc_kpc, State.setProc_kpc, State.setPc_procs, State.setProc_procs] at hq ⊢
    by_cases hqp : q = p
    · subst hqp
      rw [hstate q (Ne.symm hne), hp] at hq
      simp at hq
    · rw [Function.update_of_ne hqp]
      by_cases hqn : q = np
      · subst hqn
        rw [Function.update_self]
        rfl
      · rw [Function.update_of_ne hqn]
        rw [hstate q hqn] at hq
        exact h.parked q hq
  · simp only [State.setPc_kpc, State.setProc_kpc, State.setPc_procs, State.setProc_procs] at hq ⊢
    by_cases hqp : q = p
    · subst hqp
      rw [hstate q (Ne.symm hne), hp] at hq
      simp [ProcState.off] at hq
    · rw [Function.update_of_ne hqp]
      by_cases hqn : q = np
      · subst hqn
        simp [ProcState.off] at hq
      · rw [Function.update_of_ne hqn]
        rw [hstate q hqn] at hq
        exact h.off q hq
  · simp only [State.setPc_procs, State.setProc_procs] at hq
    by_cases hqn : q = np
    · subst hqn
      simp at hq
    · rw [hstate q hqn] at hq
      exact h.located q hq
  · simp only [State.setPc_kpc, State.setProc_kpc] at hq
    by_cases hqp : q = p
    · subst hqp
      simp at hq
    · rw [Function.update_of_ne hqp] at hq
      by_cases hqn : q = np
      · subst hqn
        rw [Function.update_self] at hq
        cases hq
        rfl
      · rw [Function.update_of_ne hqn] at hq
        exact h.resumes q k hq

/-- A write that leaves the states alone is a drift. -/
theorem set_drifts {t : Table} {i : Slot} {f : Proc → Proc}
    (hf : (t i).state.Drifts (f (t i)).state) (j : Slot) :
    (t j).state.Drifts ((t.set i f) j).state := by
  by_cases hj : j = i
  · subst hj
    rw [Table.set_self]
    exact hf
  · rw [Table.set_of_ne t hj]
    exact .refl _

/-- The process the scan stops at is RUNNABLE. -/
theorem State.findRunnable_some {n : Nat} (h : s.findRunnable n = some p) :
    (s.procs p).state = .runnable := by
  have := List.find?_some h
  simp only [Bool.and_eq_true, beq_iff_eq] at this
  exact this.2

/-- The process on CPU `c` goes on and leaves the lock alone. -/
theorem Locking.ofAdvance (h : Locking s) (hc : s.cpu c = .run p) (hcpu : s'.cpu = s.cpu)
    (hkpc : s'.kpc = Function.update s.kpc p k) (hlock : s'.lock = s.lock)
    (hk : k.locked → (s.kpc p).locked) (hy : ∀ k', k.back = some k' → k'.locked = false)
    (hstate : ∀ i, (s.procs i).state.Drifts (s'.procs i).state) : Locking s' := by
  refine h.ofRun hc hcpu hkpc (fun d _ hd => by rw [hlock, hd]) (fun hkl => ?_)
    hy hstate
  rw [hlock]
  exact h.inSection c p hc (hk hkl)

/-- The process on CPU `c` enters its critical section. -/
theorem Locking.ofAcquire (h : Locking s) (hc : s.cpu c = .run p) (hcpu : s'.cpu = s.cpu)
    (hkpc : s'.kpc = Function.update s.kpc p k) (hfree : s.lock = none)
    (hlock : s'.lock = some c) (hy : ∀ k', k.back = some k' → k'.locked = false)
    (hstate : ∀ i, (s.procs i).state.Drifts (s'.procs i).state) : Locking s' := by
  refine h.ofRun hc hcpu hkpc (fun d _ hd => ?_) (fun _ => hlock)
    hy hstate
  rw [hfree] at hd
  cases hd

/-- The process on CPU `c` leaves its critical section. -/
theorem Locking.ofRelease (h : Locking s) (hc : s.cpu c = .run p) (hcpu : s'.cpu = s.cpu)
    (hkpc : s'.kpc = Function.update s.kpc p k) (hheld : (s.kpc p).locked)
    (hk : k.locked = false) (hstate : ∀ i, (s.procs i).state.Drifts (s'.procs i).state) :
    Locking s' := by
  have hlock := h.inSection c p hc hheld
  refine h.ofRun hc hcpu hkpc (fun d hdc hd => ?_) (fun hkl => ?_) (fun k' hk' => ?_) hstate
  · rw [hlock] at hd
    exact absurd (Option.some.inj hd).symm hdc
  · rw [hk] at hkl
    cases hkl
  · rw [KPc.locked_of_back hk'] at hk
    cases hk

/-- CPU `c` leaves the critical section of its scheduler. -/
theorem Locking.schedDone (h : Locking s) (hc : (s.cpu c).scheduling) :
    Locking (s.release.setCpu c .idle) := by
  have hheld := h.scheduling c hc
  refine h.ofSched (c := c) (m := .idle) (fun q hq => ?_) rfl (by simp) rfl
    (fun d hdc hd => ?_) (by simp [CpuPc.scheduling]) (by simp [CpuPc.target]) (fun _ => rfl)
  · rw [hq] at hc
    cases hc
  · rw [hheld] at hd
    exact absurd (Option.some.inj hd).symm hdc

/-- Every step keeps the positions and the lock in agreement. -/
theorem Locking.step {a : Act} (h : Locking s) (hf : Forking s) (hm : Move s a s') :
    Locking s' := by
  have hrefl := fun i => ProcState.Drifts.refl (s.procs i).state
  cases hm
  -- the scheduler
  case schedAcquire c hcpu hlock =>
    exact h.ofSched (c := c) (m := .scan 0) (by simp [hcpu]) rfl (by simp) rfl
      (by simp [hlock]) (fun _ => rfl) (by simp [CpuPc.target]) (fun _ => rfl)
  case schedPick c n p hcpu hp =>
    refine h.ofSched (c := c) (m := .uvm p s.ticks) (by simp [hcpu]) rfl (by simp) rfl
      (fun _ _ hd => hd) (fun _ => h.scheduling c (by simp [hcpu, CpuPc.scheduling]))
      (fun q hq => ?_) (fun _ => rfl)
    rw [← Option.some.inj hq]
    exact State.findRunnable_some hp
  case schedRelease c n hcpu | schedWoken c a i hcpu =>
    exact h.schedDone (by simp [hcpu, CpuPc.scheduling])
  case schedUvm c p t hcpu =>
    refine h.ofSched (c := c) (m := .uvmLoad p (s.ticks - t)) (by simp [hcpu]) rfl (by simp)
      rfl (fun _ _ hd => hd) (fun _ => h.scheduling c (by simp [hcpu, CpuPc.scheduling]))
      (fun q hq => h.chosen c q ?_) (fun _ => rfl)
    rw [hcpu]
    exact hq
  case schedUvmLoad c p d hcpu =>
    refine h.ofSched (c := c) (m := .uvmStore p ((s.procs p).rtime + d)) (by simp [hcpu]) rfl
      (by simp) rfl (fun _ _ hd => hd)
      (fun _ => h.scheduling c (by simp [hcpu, CpuPc.scheduling]))
      (fun q hq => h.chosen c q ?_) (fun _ => rfl)
    rw [hcpu]
    exact hq
  case schedUvmStore c p v hcpu =>
    refine h.ofSched (c := c) (m := .dispatch p) (by simp [hcpu]) rfl (by simp) rfl
      (fun _ _ hd => hd) (fun _ => h.scheduling c (by simp [hcpu, CpuPc.scheduling]))
      (fun q hq => h.chosen c q ?_) (fun i => ?_)
    · rw [hcpu]
      exact hq
    · by_cases hi : i = p
      · subst hi
        simp
      · simp [hi]
  case dispatch c p hcpu => exact h.dispatch hcpu
  case schedWake c a i hcpu =>
    have hwoken : Locking { s with procs := s.procs.wakeSlot (some (.addr a)) i } :=
      h.ofDrift rfl rfl rfl fun j => (s.procs.wakeSlot_wakes _ i j).drifts
    exact hwoken.ofSched (c := c) (m := .wakes a (i + 1)) (by simp [hcpu]) rfl (by simp) rfl
      (fun _ _ hd => hd) (fun _ => h.scheduling c (by simp [hcpu, CpuPc.scheduling]))
      (by simp [CpuPc.target]) (fun _ => rfl)
  -- calls
  case forkFull => exact h
  case fork c p np hcpu hk hlock hnp =>
    have hunused := Table.find_some hnp
    simp only [beq_iff_eq] at hunused
    refine h.ofAdvance hcpu rfl rfl rfl (by simp [KPc.locked]) (by simp) fun i =>
      set_drifts (.inr (.inr ?_)) i
    simp [ProcState.off, hunused]
  case exit c p forced hcpu hk hlock _ _ | wait c p y x hcpu hk hlock _ =>
    exact h.ofAcquire hcpu rfl rfl hlock rfl (by simp) hrefl
  case kill c pid _ => exact h.ofDrift rfl rfl rfl fun i => (s.procs.kill_wakes pid i).drifts
  case sleep c p n hcpu hk hlock =>
    refine h.ofLeave (a := .sleeping) (k := .slept) hcpu rfl rfl rfl (by simp [hlock])
      (by simp) (by simp) (by simp [KPc.parked, ProcState.off]) (by simp) fun i hi => ?_
    simp [hi]
  case wakeup c p n hcpu hk hlock | intr c p n hcpu hk hlock =>
    exact h.ofAcquire hcpu rfl rfl hlock rfl
      (fun k' hk' => by rw [← Option.some.inj hk', hk]) hrefl
  case switchuvm c p hcpu hk | forkCopy c p np hcpu hk | uvmLoad c p ok d hcpu hk =>
    exact h.ofAdvance hcpu rfl rfl rfl (by simp [KPc.locked]) (by simp) hrefl
  case fault c p hcpu hk => exact h.ofDrift rfl rfl rfl fun i => set_drifts (.refl _) i
  -- `fork` goes on
  case forkStack c p np hcpu hk =>
    exact h.ofAdvance hcpu rfl rfl rfl (by simp [KPc.locked]) (by simp) hrefl
  case forkFail c p np hcpu hk =>
    have hnp : (s.procs np).state = .embryo := by
      rcases hk with hk | hk <;> exact hf.embryo p np (by rw [hk]; rfl)
    refine h.ofAdvance hcpu rfl rfl rfl (by simp [KPc.locked]) (by simp) fun i =>
      set_drifts (.inr (.inr ?_)) i
    simp [ProcState.off, hnp]
  case forkTimes c p np ok hcpu hk | forkWait c p np ok hcpu hk
      | forkParent c p np ok hcpu hk | uvmStore c p ok v hcpu hk =>
    exact h.ofAdvance hcpu rfl rfl rfl (by simp [KPc.locked]) (by simp) fun i =>
      set_drifts (.refl _) i
  case forkReady c p np ok hcpu hk _ => exact h.forkReady hf hcpu hk
  -- `wakeup` and `exit` go on
  case wakeSlot c p i ok chan k hcpu hk =>
    exact h.ofAdvance hcpu rfl rfl rfl (fun _ => hk.locked)
      (fun k' hk' => h.resumes p k' (by rw [← hk.back, hk']))
      fun j => (s.procs.wakeSlot_wakes chan i j).drifts
  case exitWoken c p ok i hcpu hk _ | exitSkip c p i ok hcpu hk _
      | exitPassWoken c p ok n i hcpu hk _ | exitPassed c p ok i hcpu hk _
      | exitPrint c p ok hcpu hk =>
    exact h.ofAdvance hcpu rfl rfl rfl (by simp [hk, KPc.locked]) (by simp) hrefl
  case exitChild c p i ok k hcpu hk _ hnext =>
    refine h.ofAdvance (k := k) hcpu rfl rfl rfl (by simp [hk, KPc.locked]) (fun k' hk' => ?_)
      fun j => set_drifts (.refl _) j
    rw [hnext] at hk'
    split at hk' <;> cases hk'
  case exitTime c p ok hcpu hk | exitWait c p ok hcpu hk | scanWake c p ok x hcpu hk =>
    exact h.ofAdvance hcpu rfl rfl rfl (by simp [hk, KPc.locked]) (by simp) fun i =>
      set_drifts (.refl _) i
  case exitZombie c p ok hcpu hk =>
    have hheld := h.inSection c p hcpu (by simp [hk, KPc.locked])
    refine h.ofLeave (a := .zombie) (k := .dead) hcpu rfl rfl hheld
      (fun d hd => by rw [hheld] at hd; exact (Option.some.inj hd).symm)
      (by simp) (by simp) (by simp) (by simp) fun i hi => ?_
    simp [hi]
  -- `wait` goes on
  case reap c p z ok x hcpu hk hz =>
    have hzombie := Table.find_some hz
    simp only [Bool.and_eq_true, beq_iff_eq] at hzombie
    refine h.ofRelease hcpu rfl rfl (by simp [hk, KPc.locked]) rfl fun i =>
      set_drifts (.inr (.inr ?_)) i
    simp [ProcState.off, hzombie.2]
  case giveUp c p ok x hcpu hk =>
    exact h.ofRelease hcpu rfl rfl (by simp [hk, KPc.locked]) rfl hrefl
  case waitSleep c p ok x hcpu hk _ _ _ =>
    have hheld := h.inSection c p hcpu (by simp [hk, KPc.locked])
    refine h.ofLeave (a := .sleeping) (k := .scanWake x) hcpu rfl rfl hheld
      (fun d hd => by rw [hheld] at hd; exact (Option.some.inj hd).symm)
      (by simp) (by simp) (by simp [KPc.parked, ProcState.off]) (by simp) fun i hi => ?_
    simp [hi]
  -- resumed
  case slept c p ok hcpu hk =>
    exact h.ofRelease hcpu rfl rfl (by simp [hk, KPc.locked]) rfl fun i =>
      set_drifts (.refl _) i
  case resume c p ok k hcpu hk =>
    exact h.ofRelease hcpu rfl rfl (KPc.locked_of_back hk) (h.resumes p k hk) hrefl
  -- `switchuvm`
  case uvm c p ok t hcpu hk =>
    exact h.ofAdvance hcpu rfl rfl rfl (by simp [KPc.locked]) (by simp) hrefl
  -- interrupts
  case intrIdle c a hcpu hlock =>
    exact h.ofSched (c := c) (m := .wakes a 0) (by simp [hcpu]) rfl (by simp) rfl
      (by simp [hlock]) (fun _ => rfl) (by simp [CpuPc.target]) (fun _ => rfl)
  case yield c p hcpu hk hlock =>
    refine h.ofLeave (a := .runnable) (k := .yielded (s.kpc p)) hcpu rfl rfl rfl
      (by simp [hlock]) (by simp) (by simp) (by simp [KPc.parked, ProcState.off])
      (fun k' hk' => by rw [← Option.some.inj hk', hk]) fun i hi => ?_
    simp [hi]
  case rtimeStore i v htimer | queueStore i v htimer =>
    exact h.ofDrift rfl rfl rfl fun j => set_drifts (.refl _) j
  case wakeupTicks _ _ =>
    exact h.ofDrift rfl rfl rfl fun i => (s.procs.wakeup1_wakes _ i).drifts
  all_goals exact h.ofDrift rfl rfl rfl hrefl

/-! ## EMBRYO slots -/

/-- A step that begins no `fork` and ends none. -/
theorem Forking.ofSame (h : Forking s) (hforks : ∀ q, (s'.kpc q).forks = (s.kpc q).forks)
    (hembryo : ∀ i, (s.procs i).state = .embryo → (s'.procs i).state = .embryo) :
    Forking s' where
  embryo q np hq := hembryo np (h.embryo q np (by rwa [hforks q] at hq))
  owner q r np hq hr := h.owner q r np (by rwa [hforks q] at hq) (by rwa [hforks r] at hr)

/-- A process that goes on without ending its `fork`. -/
theorem forks_update (hk : k.forks = (s.kpc p).forks) (q : Slot) :
    (Function.update s.kpc p k q).forks = (s.kpc q).forks := by
  by_cases hq : q = p
  · subst hq
    rw [Function.update_self, hk]
  · rw [Function.update_of_ne hq]

/-- The `fork` of process `p` ends; the slot `np` is an EMBRYO no longer. -/
theorem Forking.ofEnd {np : Slot} (h : Forking s) (hk : (s.kpc p).forks = some np)
    (hnone : ∀ q, (s'.kpc q).forks = if q = p then none else (s.kpc q).forks)
    (hembryo : ∀ i, i ≠ np → (s'.procs i).state = (s.procs i).state) : Forking s' where
  embryo q i hq := by
    rw [hnone q] at hq
    split at hq
    · cases hq
    · rename_i hqp
      have hi : i ≠ np := by
        intro heq
        rw [heq] at hq
        exact hqp (h.owner q p np hq hk)
      rw [hembryo i hi]
      exact h.embryo q i hq
  owner q r i hq hr := by
    rw [hnone q] at hq
    rw [hnone r] at hr
    split at hq
    · cases hq
    · split at hr
      · cases hr
      · exact h.owner q r i hq hr

theorem embryo_of_wakes {a b : ProcState} (h : a.Wakes b) (ha : a = .embryo) : b = .embryo := by
  rcases h with rfl | ⟨hs, _⟩
  · exact ha
  · rw [ha] at hs
    cases hs

/-- A write to a slot that is not an EMBRYO, or that leaves its state alone. -/
theorem embryo_set {t : Table} {i : Slot} {f : Proc → Proc}
    (hf : (t i).state ≠ .embryo ∨ (f (t i)).state = (t i).state) (j : Slot)
    (hj : (t j).state = .embryo) : (t.set i f j).state = .embryo := by
  by_cases hji : j = i
  · subst hji
    rw [Table.set_self]
    rcases hf with hf | hf
    · exact absurd hj hf
    · rw [hf, hj]
  · rw [Table.set_of_ne t hji, hj]

/-- Every EMBRYO slot keeps its one owner. -/
theorem Forking.step {a : Act} (h : Locking s) (hf : Forking s) (hm : Move s a s') :
    Forking s' := by
  have hrunning : ∀ {c p}, s.cpu c = .run p → (s.procs p).state ≠ .embryo := by
    intro c p hc he
    rw [h.running c p hc] at he
    cases he
  cases hm
  case fork c p np hcpu hk hlock hnp =>
    have hunused := Table.find_some hnp
    simp only [beq_iff_eq] at hunused
    have hfresh : ∀ q, (s.kpc q).forks ≠ some np := by
      intro q hq
      rw [hf.embryo q np hq] at hunused
      cases hunused
    refine { embryo := fun q i hq => ?_, owner := fun q r i hq hr => ?_ }
    · simp only [State.setPc_kpc, State.setPc_procs, Table.embryo] at hq ⊢
      by_cases hi : i = np
      · subst hi
        simp
      · rw [Table.set_of_ne _ hi]
        by_cases hqp : q = p
        · rw [hqp, Function.update_self] at hq
          exact absurd (Option.some.inj hq).symm hi
        · rw [Function.update_of_ne hqp] at hq
          exact hf.embryo q i hq
    · simp only [State.setPc_kpc] at hq hr
      by_cases hqp : q = p
      · by_cases hrp : r = p
        · rw [hqp, hrp]
        · rw [hqp, Function.update_self] at hq
          rw [Function.update_of_ne hrp, ← hq] at hr
          exact absurd hr (hfresh r)
      · rw [Function.update_of_ne hqp] at hq
        by_cases hrp : r = p
        · rw [hrp, Function.update_self] at hr
          rw [← hr] at hq
          exact absurd hq (hfresh q)
        · rw [Function.update_of_ne hrp] at hr
          exact hf.owner q r i hq hr
  case forkFail c p np hcpu hk =>
    have hkp : (s.kpc p).forks = some np := by
      rcases hk with hk | hk <;> simp [hk, KPc.forks]
    refine hf.ofEnd hkp (fun q => ?_) fun i hi => by simp [hi]
    by_cases hq : q = p
    · subst hq
      simp [KPc.forks]
    · simp [hq]
  case forkReady c p np ok hcpu hk hlock =>
    have hkp : (s.kpc p).forks = some np := by simp [hk, KPc.forks]
    have hnp := hf.embryo p np hkp
    have hdead := h.off np (by simp [ProcState.off, hnp])
    refine hf.ofEnd hkp (fun q => ?_) fun i hi => by simp [hi]
    by_cases hq : q = p
    · subst hq
      simp [KPc.forks]
    · by_cases hqn : q = np
      · subst hqn
        simp [hq, hdead, KPc.forks]
      · simp [hq, hqn]
  case forkStack c p np hcpu hk | forkCopy c p np hcpu hk | exit c p forced hcpu hk _ _ _
      | wait c p y x hcpu hk _ _ | exitWoken c p ok i hcpu hk _ | exitSkip c p i ok hcpu hk _
      | exitPassWoken c p ok n i hcpu hk _ | exitPassed c p ok i hcpu hk _
      | switchuvm c p hcpu hk | giveUp c p ok x hcpu hk | exitPrint c p ok hcpu hk
      | uvm c p ok t hcpu hk | uvmLoad c p ok d hcpu hk =>
    exact hf.ofSame (forks_update (by simp [hk, KPc.forks])) fun _ => id
  case forkTimes c p np ok hcpu hk | forkWait c p np ok hcpu hk
      | forkParent c p np ok hcpu hk | exitTime c p ok hcpu hk | exitWait c p ok hcpu hk
      | scanWake c p ok x hcpu hk | slept c p ok hcpu hk | uvmStore c p ok v hcpu hk =>
    exact hf.ofSame (forks_update (by simp [hk, KPc.forks])) (embryo_set (.inr rfl))
  case kill c pid _ =>
    exact hf.ofSame (fun _ => rfl) fun i => embryo_of_wakes (s.procs.kill_wakes pid i)
  case sleep c p n hcpu hk _ | waitSleep c p ok x hcpu hk _ _ _ =>
    refine hf.ofSame (forks_update (by simp [hk, KPc.forks])) fun i hi => ?_
    exact embryo_set (.inl (by simpa using hrunning hcpu)) i (embryo_set (.inr rfl) i hi)
  case wakeup c p n hcpu _ _ | intr c p n hcpu _ _ =>
    exact hf.ofSame (forks_update rfl) fun _ => id
  case schedWake c n i hcpu =>
    exact hf.ofSame (fun _ => rfl) fun j => embryo_of_wakes (s.procs.wakeSlot_wakes _ i j)
  case wakeSlot c p i ok chan k hcpu hk =>
    exact hf.ofSame (forks_update hk.forks) fun j =>
      embryo_of_wakes (s.procs.wakeSlot_wakes chan i j)
  case exitChild c p i ok k hcpu hk _ hnext =>
    refine hf.ofSame (forks_update ?_) (embryo_set (.inr rfl))
    rw [hnext, State.setProc_kpc, hk]
    split <;> rfl
  case wakeupTicks _ _ =>
    exact hf.ofSame (fun _ => rfl) fun i => embryo_of_wakes (s.procs.wakeup1_wakes _ i)
  case dispatch c p hcpu =>
    have hp := h.chosen c p (by rw [hcpu]; rfl)
    exact hf.ofSame (fun _ => rfl) (embryo_set (.inl (by simp [hp])))
  case exitZombie c p ok hcpu hk =>
    exact hf.ofSame (forks_update (by simp [hk, KPc.forks]))
      (embryo_set (.inl (hrunning hcpu)))
  case yield c p hcpu hk _ =>
    exact hf.ofSame (forks_update (by simp [KPc.forks])) (embryo_set (.inl (hrunning hcpu)))
  case reap c p z ok x hcpu hk hz =>
    have hzombie := Table.find_some hz
    simp only [Bool.and_eq_true, beq_iff_eq] at hzombie
    exact hf.ofSame (forks_update (by simp [hk, KPc.forks]))
      (embryo_set (.inl (by simp [hzombie.2])))
  case resume c p ok k hcpu hk =>
    exact hf.ofSame (forks_update (KPc.forks_of_back hk)) fun _ => id
  -- the remaining steps move no process and write no state
  all_goals
    first
      | exact hf
      | exact hf.ofSame (fun _ => rfl) fun _ => id
      | exact hf.ofSame (fun _ => rfl) (embryo_set (.inr rfl))

end Steps

/-- Both invariants hold in every state reached. -/
theorem locking {P : Params} {s : State} (h : (kernel P).Reachable s) :
    Locking s ∧ Forking s := by
  refine System.ReachableWhen.invariant (P := fun s => Locking s ∧ Forking s) ?_ ?_ h
  · intro s hs
    have hs' : s = start := hs
    rw [hs']
    exact ⟨locking_start, forking_start⟩
  · intro s a s' hinv _ hstep
    have hm := Move.of_step hstep
    exact ⟨hinv.1.step hinv.2 hm, hinv.2.step hinv.1 hm⟩

end OsWork.Ports.ProcTable

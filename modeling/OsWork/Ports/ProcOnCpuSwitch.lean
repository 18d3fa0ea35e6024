import OsWork.Ports.ProcOnCpuPages

/-!
# From one process to the next

The steps of a context switch: the scheduler's, and those of a process that gives
its CPU up.

## Main results

* `running_on_one_cpu` — while `ptable.lock` is free a process is RUNNING exactly
  when it is the current process of one CPU, and no CPU uses the kernel stack or
  the page directory of a process that has been reaped.
-/

namespace OsWork.Ports.ProcSwitch

open OsWork.Ports.ProcTable (Slot Word Proc ProcState Table Chan NPROC)
open OsWork.Verified.Transition
open Function (update)

section Placed

variable {s s' : Machine} {m : Cpu → Mode} {c d : Cpu} {k j : Page} {p q i : Slot}
  {X : Slot → Prop}

/-- CPU `c` goes on to the position `m'`; the slots of `X` are those it deals with. -/
structure Turn (s s' : Machine) (m : Cpu → Mode) (c : Cpu) (m' : Mode) (X : Slot → Prop) :
    Prop where
  cpu : s'.cpu = update s.cpu c (m'.regs s)
  kstack : s'.kstack = s.kstack
  pgdir : s'.pgdir = s.pgdir
  pages : s'.pages = s.pages
  old : ∀ q, (m c).slot = some q → X q
  new : ∀ q, m'.slot = some q → X q
  apart : ∀ q, X q → ∀ d, d ≠ c → (m d).slot ≠ some q
  before : ∀ q, X q → Live (s.procs q).state
  after : ∀ q, X q → Live (s'.procs q).state
  running : ∀ q, X q → (s'.procs q).state = .running → m'.slot = some q
  state : ∀ q, ¬ X q → (s'.procs q).state = (s.procs q).state
  thread : ∀ q j, ¬ X q → s.kstack q = some j → s'.thread j = s.thread j
  wf : ∀ q j, X q → s.kstack q = some j → (s'.thread j).WF
  parked : ∀ q j, X q → s.kstack q = some j → m' ≠ .on q → Parks (s'.procs q).state →
    (s'.thread j).parked = true
  child : ∀ q j np n, X q → s.kstack q = some j → (s'.thread j).child = some (np, n) →
    (s.thread j).child = some (np, n)
  fits : m'.Fits s'
  holds : m'.Holds s' → s'.lock = some c
  lock : ∀ d, d ≠ c → s.lock = some d → s'.lock = some d

theorem Placed.turn (h : Placed s m) {m' : Mode} (ht : Turn s s' m c m' X) :
    Placed s' (update m c m') := by
  have hself : update m c m' c = m' := Function.update_self c m' m
  have hother : ∀ {d}, d ≠ c → update m c m' d = m d := fun hd =>
    Function.update_of_ne hd m' m
  have hout : ∀ d i, d ≠ c → (m d).slot = some i → ¬ X i := fun d i hd hi hX =>
    ht.apart i hX d hd hi
  have hregs : ∀ n : Mode, n.regs s' = n.regs s := by
    intro n
    cases n with
    | idle => rfl
    | scan i => rfl
    | switchuvm i => rfl
    | clear i => rfl
    | on i => simp only [Mode.regs, ht.kstack, ht.pgdir]
    | run i | swtch i | resumed i => simp only [Mode.regs, ht.pgdir]
  have hchild : ∀ q j np n, s.kstack q = some j → (s'.thread j).child = some (np, n) →
      (s.thread j).child = some (np, n) := by
    intro q j np n hj hnp
    by_cases hX : X q
    · exact ht.child q j np n hX hj hnp
    · rw [ht.thread q j hX hj] at hnp
      exact hnp
  exact
    { regs := by
        intro d
        rw [ht.cpu, hregs]
        by_cases hd : d = c
        · rw [hd, hself, Function.update_self]
        · rw [hother hd, Function.update_of_ne hd]
          exact h.regs d
      fits := by
        intro d
        by_cases hd : d = c
        · rw [hd, hself]
          exact ht.fits
        · rw [hother hd]
          have hfits := h.fits d
          cases hat : m d with
          | idle => trivial
          | scan n => trivial
          | on i =>
              rw [hat] at hfits
              obtain ⟨j, hj, hstate⟩ := hfits
              have hX := hout d i hd (by rw [hat]; rfl)
              refine ⟨j, by rw [ht.kstack, hj], ?_⟩
              rw [ht.state i hX, hstate, ht.thread i j hX hj]
          | switchuvm i | run i | swtch i =>
              rw [hat] at hfits
              exact (ht.state i (hout d i hd (by rw [hat]; rfl))).trans hfits
          | resumed i | clear i =>
              rw [hat] at hfits
              show Left (s'.procs i).state
              rw [ht.state i (hout d i hd (by rw [hat]; rfl))]
              exact hfits
      unique := by
        intro d e i hd he
        by_cases hdc : d = c
        · by_cases hec : e = c
          · rw [hdc, hec]
          · rw [hdc, hself] at hd
            rw [hother hec] at he
            exact absurd (ht.new i hd) (hout e i hec he)
        · by_cases hec : e = c
          · rw [hec, hself] at he
            rw [hother hdc] at hd
            exact absurd (ht.new i he) (hout d i hdc hd)
          · rw [hother hdc] at hd
            rw [hother hec] at he
            exact h.unique d e i hd he
      located := by
        intro i hi
        by_cases hX : X i
        · refine ⟨c, ?_⟩
          rw [hself]
          exact ht.running i hX hi
        · rw [ht.state i hX] at hi
          obtain ⟨d, hd⟩ := h.located i hi
          have hdc : d ≠ c := by
            rintro rfl
            exact hX (ht.old i hd)
          refine ⟨d, ?_⟩
          rw [hother hdc]
          exact hd
      lock := by
        intro d hholds
        by_cases hd : d = c
        · rw [hd, hself] at hholds
          rw [hd]
          exact ht.holds hholds
        · rw [hother hd] at hholds
          apply ht.lock d hd
          apply h.lock d
          cases hat : m d with
          | idle =>
              rw [hat] at hholds
              exact hholds
          | on i =>
              rw [hat] at hholds
              obtain ⟨j, hj, hlocked⟩ := hholds
              rw [ht.kstack] at hj
              rw [ht.thread i j (hout d i hd (by rw [hat]; rfl)) hj] at hlocked
              exact ⟨j, hj, hlocked⟩
          | _ => trivial
      parked := by
        intro i j hj hst hno
        rw [ht.kstack] at hj
        by_cases hX : X i
        · refine ht.parked i j hX hj ?_ hst
          have hc := hno c
          rw [hself] at hc
          exact hc
        · rw [ht.state i hX] at hst
          rw [ht.thread i j hX hj]
          apply h.parked i j hj hst
          intro d
          by_cases hd : d = c
          · rw [hd]
            intro hon
            exact hX (ht.old i (by rw [hon]; rfl))
          · have hnot := hno d
            rw [hother hd] at hnot
            exact hnot
      wf := by
        intro i j hj
        rw [ht.kstack] at hj
        by_cases hX : X i
        · exact ht.wf i j hX hj
        · rw [ht.thread i j hX hj]
          exact h.wf i j hj
      ownStack := by
        intro i j hj
        rw [ht.kstack] at hj
        rw [ht.pages]
        exact h.ownStack i j hj
      live := by
        intro i hi
        rw [ht.kstack, ht.pgdir, ht.pages]
        by_cases hX : X i
        · exact h.live i (ht.before i hX)
        · rw [ht.state i hX] at hi
          exact h.live i hi
      child := by
        intro q j np n hj hnp
        rw [ht.kstack] at hj
        obtain ⟨hembryo, hstack, hdir⟩ := h.child q j np n hj (hchild q j np n hj hnp)
        have hX : ¬ X np := fun hX => (ht.before np hX).ne.2 hembryo
        constructor
        · rw [ht.state np hX, hembryo]
        · rw [ht.kstack]
          exact hstack
        · rw [ht.pgdir, ht.pages]
          exact hdir
      owner := by
        intro q r j e np n n' hj he hq hr
        rw [ht.kstack] at hj he
        exact h.owner q r j e np n n' hj he (hchild q j np n hj hq) (hchild r e np n' he hr)
      fresh := by
        intro i j hst hj
        rw [ht.kstack] at hj
        have hX : ¬ X i := fun hX => (ht.after i hX).ne.2 hst
        rw [ht.state i hX] at hst
        rw [ht.thread i j hX hj]
        exact h.fresh i j hst hj
      vacant := by
        intro i hst
        have hX : ¬ X i := fun hX => (ht.after i hX).ne.1 hst
        rw [ht.state i hX] at hst
        rw [ht.kstack]
        exact h.vacant i hst }

/-- The scheduler goes on, in the same critical section, with the same process or
without one. -/
theorem Placed.schedule (h : Placed s m) (m' : Mode) (lock : Option Cpu)
    (hoff : ∀ q, m c ≠ .on q) (hslot : ∀ q, m'.slot = some q → (∀ d, d ≠ c → (m d).slot ≠ some q) ∧
      Live (s.procs q).state ∧ ((s.procs q).state = .running → (m c).slot = some q))
    (hlost : ∀ q, (m c).slot = some q → (s.procs q).state = .running → m'.slot = some q)
    (hfits : m'.Fits s) (hholds : m'.Holds s → lock = some c)
    (hlock : ∀ d, d ≠ c → s.lock = some d → lock = some d) :
    Placed ({ s with lock := lock }.setCpu c (m'.regs s)) (update m c m') := by
  have hold : ∀ q, (m c).slot = some q → (∀ d, d ≠ c → (m d).slot ≠ some q) ∧
      Live (s.procs q).state := by
    intro q hq
    exact ⟨fun d hd hdq => hd (h.unique d c q hdq hq), h.current_live hq⟩
  have hX : ∀ q, (m c).slot = some q ∨ m'.slot = some q → (∀ d, d ≠ c → (m d).slot ≠ some q) ∧
      Live (s.procs q).state := by
    intro q hq
    rcases hq with hq | hq
    · exact hold q hq
    · exact ⟨(hslot q hq).1, (hslot q hq).2.1⟩
  apply h.turn (X := fun q => (m c).slot = some q ∨ m'.slot = some q)
  exact
    { cpu := rfl
      kstack := rfl
      pgdir := rfl
      pages := rfl
      old := fun q hq => .inl hq
      new := fun q hq => .inr hq
      apart := fun q hq => (hX q hq).1
      before := fun q hq => (hX q hq).2
      after := fun q hq => (hX q hq).2
      running := by
        intro q hq hst
        rcases hq with hq | hq
        · exact hlost q hq hst
        · exact hq
      state := fun _ _ => rfl
      thread := fun _ _ _ _ => rfl
      wf := fun q j _ hj => h.wf q j hj
      parked := by
        intro q j hq hj _ hst
        apply h.parked q j hj hst
        intro d hd
        by_cases hdc : d = c
        · rw [hdc] at hd
          exact hoff q hd
        · exact (hX q hq).1 d hdc (by rw [hd]; rfl)
      child := fun _ _ _ _ _ _ hnp => hnp
      fits := by
        cases m' with
        | idle => trivial
        | scan n => trivial
        | _ => exact hfits
      holds := by
        intro hh
        apply hholds
        cases m' with
        | idle => exact hh
        | on q => exact hh
        | _ => trivial
      lock := hlock }

/-- A CPU on the stack of its scheduler: the position and the registers. -/
theorem Placed.mode_of_scheduler (h : Placed s m) (hstack : (s.cpu c).stack = none) {n : Mode}
    (hn : ∀ q, n ≠ .on q) (hat : (s.cpu c).scheduler = (n.regs s).scheduler) : m c = n := by
  obtain ⟨hsame, hoff⟩ := h.off hstack
  rw [hat] at hsame
  cases hm : m c with
  | on q => exact absurd hm (hoff q)
  | idle =>
      rw [hm] at hsame
      cases n with
      | idle => rfl
      | on q => exact absurd rfl (hn q)
      | _ => cases hsame
  | scan i =>
      rw [hm] at hsame
      cases n with
      | scan j =>
          cases hsame
          rfl
      | on q => exact absurd rfl (hn q)
      | _ => cases hsame
  | switchuvm i =>
      rw [hm] at hsame
      cases n with
      | switchuvm j =>
          cases hsame
          rfl
      | on q => exact absurd rfl (hn q)
      | _ => cases hsame
  | run i =>
      rw [hm] at hsame
      cases n with
      | run j =>
          cases hsame
          rfl
      | on q => exact absurd rfl (hn q)
      | _ => cases hsame
  | swtch i =>
      rw [hm] at hsame
      cases n with
      | swtch j =>
          cases hsame
          rfl
      | on q => exact absurd rfl (hn q)
      | _ => cases hsame
  | resumed i =>
      rw [hm] at hsame
      cases n with
      | resumed j =>
          cases hsame
          rfl
      | on q => exact absurd rfl (hn q)
      | _ => cases hsame
  | clear i =>
      rw [hm] at hsame
      cases n with
      | clear j =>
          cases hsame
          rfl
      | on q => exact absurd rfl (hn q)
      | _ => cases hsame

/-- `p->state = RUNNING` in `scheduler`. -/
theorem Placed.run (h : Placed s m) (hm : m c = .run p) :
    Placed ({ s with procs := s.procs.set p fun q =>
                { q with state := .running, numRun := q.numRun + 1 } }.setCpu c
      ((Mode.swtch p).regs s)) (update m c (.swtch p)) := by
  have hslot : (m c).slot = some p := by
    rw [hm]
    rfl
  have hlive := h.current_live hslot
  have hlock : s.lock = some c := by
    apply h.lock c
    rw [hm]
    trivial
  have hself : ((s.procs.set p fun q => { q with state := .running, numRun := q.numRun + 1 }) p).state
      = .running := by
    rw [Table.set_self]
  apply h.turn (X := fun q => q = p)
  exact
    { cpu := rfl
      kstack := rfl
      pgdir := rfl
      pages := rfl
      old := by
        intro q hq
        rw [hslot] at hq
        exact (Option.some.inj hq).symm
      new := fun q hq => (Option.some.inj hq).symm
      apart := by
        rintro q rfl d hd hdq
        exact hd (h.unique d c q hdq hslot)
      before := by
        rintro q rfl
        exact hlive
      after := by
        rintro q rfl
        exact .inr (.inl hself)
      running := by
        rintro q rfl _
        rfl
      state := by
        intro q hq
        show (s.procs.set p _ q).state = _
        rw [Table.set_of_ne _ hq]
      thread := fun _ _ _ _ => rfl
      wf := fun q j _ hj => h.wf q j hj
      parked := by
        rintro q j rfl hj _ _
        have hfits := h.fits c
        rw [hm] at hfits
        apply h.parked q j hj (.inl hfits)
        intro d hd
        have hdc := h.unique d c q (by rw [hd]; rfl) hslot
        rw [hdc, hm] at hd
        cases hd
      child := fun _ _ _ _ _ _ hnp => hnp
      fits := hself
      holds := fun _ => hlock
      lock := fun _ _ hd => hd }

/-- `p->state = st`. -/
theorem Placed.setState (h : Placed s m) (hr : Runs s c k p) {st : ProcState} {k' : Thread}
    (ht : s.thread k = .setState st k') :
    Placed ((s.setState p st).setThread k (.sched st k')) (update m c (.on p)) := by
  obtain ⟨hm, hk⟩ := h.on hr
  have hslot : (m c).slot = some p := by
    rw [hm]
    rfl
  have hwf := h.wf p k hk
  rw [ht] at hwf
  have hself : ((s.procs.set p fun q => { q with state := st }) p).state = st := by
    rw [Table.set_self]
  have hthread : update s.thread k (.sched st k') k = .sched st k' := Function.update_self _ _ _
  have hstate : Live st := Thread.live_state (t := .sched st k') hwf
  apply h.turn (X := fun q => q = p)
  exact
    { cpu := by
        show s.cpu = update s.cpu c ((Mode.on p).regs s)
        rw [← hm, ← h.regs c, Function.update_eq_self]
      kstack := rfl
      pgdir := rfl
      pages := rfl
      old := by
        intro q hq
        rw [hslot] at hq
        exact (Option.some.inj hq).symm
      new := fun q hq => (Option.some.inj hq).symm
      apart := by
        rintro q rfl d hd hdq
        exact hd (h.unique d c q hdq hslot)
      before := by
        rintro q rfl
        exact h.current_live hslot
      after := by
        rintro q rfl
        show Live ((s.procs.set q _ q).state)
        rw [hself]
        exact hstate
      running := by
        rintro q rfl _
        rfl
      state := by
        intro q hq
        show (s.procs.set p _ q).state = _
        rw [Table.set_of_ne _ hq]
      thread := by
        intro q j hq hj
        have hjk : j ≠ k := by
          rintro rfl
          exact hq (h.stack_inj hj hk)
        exact Function.update_of_ne hjk _ s.thread
      wf := by
        rintro q j rfl hj
        rw [hk] at hj
        cases hj
        show (update s.thread k (.sched st k') k).WF
        rw [hthread]
        exact hwf
      parked := by
        rintro q j rfl _ hne
        exact absurd rfl hne
      child := by
        rintro q j np n rfl hj hnp
        rw [hk] at hj
        cases hj
        have hnp : (update s.thread k (.sched st k') k).child = some (np, n) := hnp
        rw [hthread] at hnp
        rw [ht]
        exact hnp
      fits := by
        refine ⟨k, hk, ?_⟩
        show ((s.procs.set p _ p).state) = (update s.thread k (.sched st k') k).state
        rw [hself, hthread]
        rfl
      holds := fun _ => h.lock_of_locked hm hk (by rw [ht]; rfl)
      lock := fun _ _ hd => hd }

/-- The `swtch` of `sched`. -/
theorem Placed.sched (h : Placed s m) (hr : Runs s c k p) {st : ProcState} {k' : Thread}
    (ht : s.thread k = .sched st k') :
    Placed ((s.setThread k k').setCpu c { s.cpu c with stack := none })
      (update m c (.resumed p)) := by
  obtain ⟨hm, hk⟩ := h.on hr
  have hslot : (m c).slot = some p := by
    rw [hm]
    rfl
  have hwf := h.wf p k hk
  rw [ht] at hwf
  have hfits := h.fits c
  rw [hm] at hfits
  obtain ⟨j, hj, hstate⟩ := hfits
  rw [hk] at hj
  cases hj
  rw [ht] at hstate
  have hstate : (s.procs p).state = st := hstate
  have hthread : update s.thread k k' k = k' := Function.update_self _ _ _
  have hwf' : k'.WF := by
    rcases hwf with ⟨-, -, hwf⟩ | ⟨-, rfl⟩
    · exact hwf
    · trivial
  have hleft : Left (s.procs p).state := by
    rw [hstate]
    rcases hwf with ⟨hst | hst, -⟩ | ⟨hst, -⟩
    · exact .inl hst
    · exact .inr (.inl hst)
    · exact .inr (.inr hst)
  apply h.turn (X := fun q => q = p)
  exact
    { cpu := by
        show update s.cpu c { s.cpu c with stack := none } = _
        rw [h.regs c, hm]
        rfl
      kstack := rfl
      pgdir := rfl
      pages := rfl
      old := by
        intro q hq
        rw [hslot] at hq
        exact (Option.some.inj hq).symm
      new := fun q hq => (Option.some.inj hq).symm
      apart := by
        rintro q rfl d hd hdq
        exact hd (h.unique d c q hdq hslot)
      before := by
        rintro q rfl
        exact h.current_live hslot
      after := by
        rintro q rfl
        exact h.current_live hslot
      running := by
        rintro q rfl _
        rfl
      state := fun _ _ => rfl
      thread := by
        intro q j hq hj
        have hjk : j ≠ k := by
          rintro rfl
          exact hq (h.stack_inj hj hk)
        exact Function.update_of_ne hjk _ s.thread
      wf := by
        rintro q j rfl hj
        rw [hk] at hj
        cases hj
        show (update s.thread k k' k).WF
        rw [hthread]
        exact hwf'
      parked := by
        rintro q j rfl hj _ hst
        rw [hk] at hj
        cases hj
        show (update s.thread k k' k).parked = true
        rw [hthread]
        rcases hwf with ⟨-, hparked, -⟩ | ⟨hzombie, -⟩
        · exact hparked
        · have hst : Parks (s.procs q).state := hst
          rw [hstate, hzombie] at hst
          rcases hst with hst | hst | hst
          · cases hst
          · cases hst
          · cases hst
      child := by
        rintro q j np n rfl hj hnp
        rw [hk] at hj
        cases hj
        have hnp : (update s.thread k k' k).child = some (np, n) := hnp
        rw [hthread] at hnp
        rw [ht]
        exact hnp
      fits := hleft
      holds := fun _ => h.lock_of_locked hm hk (by rw [ht]; rfl)
      lock := fun _ _ hd => hd }

theorem Thread.state_of_parked {t : Thread} (h : t.parked = true) : t.state = .running := by
  cases t with
  | sched st k => cases h
  | _ => rfl

/-- The scheduler's part of a step. -/
theorem Placed.next (h : Placed s m) (m' : Mode) (lock : Option Cpu) {r : CpuRegs} {n : Mode}
    (hm : m c = n) (hn : ∀ q, n ≠ .on q) (hr : r = m'.regs s)
    (hslot : m'.slot = n.slot) (hfits : m'.Fits s) (hholds : m'.Holds s → lock = some c)
    (hlock : ∀ d, d ≠ c → s.lock = some d → lock = some d) :
    Placed ({ s with lock := lock }.setCpu c r) (update m c m') := by
  rw [hr]
  apply h.schedule m' lock
  · intro q hq
    exact hn q (hm.symm.trans hq)
  · intro q hq
    have hq : (m c).slot = some q := by
      rw [hm, ← hslot, hq]
    exact ⟨fun d hd hdq => hd (h.unique d c q hdq hq), h.current_live hq, fun _ => hq⟩
  · intro q hq _
    rw [hslot, ← hm, hq]
  · exact hfits
  · exact hholds
  · exact hlock

/-- Every step keeps the CPUs and the processes in agreement. -/
theorem Placed.step (h : Placed s m) (hs : Move s s') : ∃ m', Placed s' m' := by
  have hheld : ∀ {c n}, m c = n → n.Holds s → s.lock = some c := by
    rintro c n rfl hn
    exact h.lock c hn
  have hnone : ∀ {c : Cpu} {l : Option Cpu}, s.lock = some c → ∀ d, d ≠ c → s.lock = some d →
      l = some d := by
    intro c l hlock d hd hdl
    rw [hlock] at hdl
    exact absurd (Option.some.inj hdl).symm hd
  cases hs with
  | @acquire c hstack hat hlock =>
      have hm : m c = .idle := h.mode_of_scheduler hstack (fun _ => Mode.noConfusion) hat
      refine ⟨_, h.next (.scan 0) (some c) hm (fun _ => Mode.noConfusion) ?_ rfl trivial
        (fun _ => rfl) ?_⟩
      · rw [h.regs c, hm]
        rfl
      · intro d _ hd
        rw [hlock] at hd
        cases hd
  | @found c p hstack hat hp =>
      have hm : m c = .scan p.val := h.mode_of_scheduler hstack (fun _ => Mode.noConfusion) hat
      have hlock := hheld hm trivial
      have hr : { s.cpu c with proc := some p, scheduler := .switchuvm p } =
          (Mode.switchuvm p).regs s := by
        rw [h.regs c, hm]
        rfl
      rw [hr]
      refine ⟨_, h.schedule (.switchuvm p) s.lock ?_ ?_ ?_ hp (fun _ => hlock)
        (fun _ _ hd => hd)⟩
      · intro q hq
        rw [hm] at hq
        cases hq
      · intro q hq
        cases hq
        refine ⟨?_, .inl hp, ?_⟩
        · intro d hdc hd
          by_cases hholds : (m d).Holds s
          · exact hdc (Option.some.inj ((h.lock d hholds).symm.trans hlock))
          · rw [h.running_of_not_holds hd hholds] at hp
            cases hp
        · intro hst
          rw [hp] at hst
          cases hst
      · intro q hq
        rw [hm] at hq
        cases hq
  | @skip c i hstack hat =>
      have hm : m c = .scan i := h.mode_of_scheduler hstack (fun _ => Mode.noConfusion) hat
      refine ⟨_, h.next (.scan (i + 1)) s.lock hm (fun _ => Mode.noConfusion) ?_
        rfl trivial (fun _ => hheld hm trivial) (fun _ _ hd => hd)⟩
      rw [h.regs c, hm]
      rfl
  | @release c i hstack hat =>
      have hm : m c = .scan i := h.mode_of_scheduler hstack (fun _ => Mode.noConfusion) hat
      refine ⟨_, h.next .idle none hm (fun _ => Mode.noConfusion) ?_ rfl trivial
        (fun hh => hh.elim) (hnone (hheld hm trivial))⟩
      rw [h.regs c, hm]
      rfl
  | @switchuvm c p hstack hat =>
      have hm : m c = .switchuvm p := h.mode_of_scheduler hstack (fun _ => Mode.noConfusion) hat
      have hfits := h.fits c
      rw [hm] at hfits
      refine ⟨_, h.next (.run p) s.lock hm (fun _ => Mode.noConfusion) ?_ rfl hfits
        (fun _ => hheld hm trivial) (fun _ _ hd => hd)⟩
      rw [h.regs c, hm]
      rfl
  | @run c p hstack hat =>
      have hm : m c = .run p := h.mode_of_scheduler hstack (fun _ => Mode.noConfusion) hat
      have hr : { s.cpu c with scheduler := .swtch p } = (Mode.swtch p).regs s := by
        rw [h.regs c, hm]
        rfl
      rw [hr]
      exact ⟨_, h.run hm⟩
  | @swtch c p hstack hat =>
      have hm : m c = .swtch p := h.mode_of_scheduler hstack (fun _ => Mode.noConfusion) hat
      have hslot : (m c).slot = some p := by
        rw [hm]
        rfl
      have hfits := h.fits c
      rw [hm] at hfits
      obtain ⟨⟨k, hk⟩, -⟩ := h.live p (h.current_live hslot)
      have hparked : (s.thread k).parked = true := by
        apply h.parked p k hk (.inr (.inr hfits))
        intro d hd
        have hdc := h.unique d c p (by rw [hd]; rfl) hslot
        rw [hdc, hm] at hd
        cases hd
      refine ⟨_, h.next (.on p) s.lock hm (fun _ => Mode.noConfusion) ?_ rfl
        ⟨k, hk, ?_⟩ (fun _ => hheld hm trivial) (fun _ _ hd => hd)⟩
      · rw [h.regs c, hm]
        rfl
      · rw [Thread.state_of_parked hparked]
        exact hfits
  | @switchkvm c p hstack hat =>
      have hm : m c = .resumed p := h.mode_of_scheduler hstack (fun _ => Mode.noConfusion) hat
      have hfits := h.fits c
      rw [hm] at hfits
      refine ⟨_, h.next (.clear p) s.lock hm (fun _ => Mode.noConfusion) ?_ rfl
        hfits (fun _ => hheld hm trivial) (fun _ _ hd => hd)⟩
      rw [h.regs c, hm]
      rfl
  | @clear c p hstack hat =>
      have hm : m c = .clear p := h.mode_of_scheduler hstack (fun _ => Mode.noConfusion) hat
      have hslot : (m c).slot = some p := by
        rw [hm]
        rfl
      have hlock := hheld hm trivial
      have hfits := h.fits c
      rw [hm] at hfits
      have hr : { s.cpu c with proc := none, scheduler := .scan (p.val + 1) } =
          (Mode.scan (p.val + 1)).regs s := by
        rw [h.regs c, hm]
        rfl
      rw [hr]
      refine ⟨_, h.schedule (.scan (p.val + 1)) s.lock ?_ ?_ ?_ trivial
        (fun _ => hlock) (fun _ _ hd => hd)⟩
      · intro q hq
        rw [hm] at hq
        cases hq
      · intro q hq
        cases hq
      · intro q hq hst
        rw [hslot] at hq
        cases hq
        have hleft : Left (s.procs p).state := hfits
        rw [hst] at hleft
        rcases hleft with hleft | hleft | hleft
        · cases hleft
        · cases hleft
        · cases hleft
  | here hr hl => exact ⟨m, h.here hr hl⟩
  | kill hlock => exact ⟨m, h.wake hlock (s.procs.kill_wakes _)⟩
  | wakeup hlock => exact ⟨m, h.wake hlock (s.procs.wakeup1_wakes _)⟩
  | fork hr ht hlock hnp => exact ⟨m, h.fork hr ht hnp⟩
  | forkStack hr ht hj => exact ⟨m, h.forkStack hr ht hj⟩
  | forkNoStack hr ht => exact ⟨m, h.forkNoStack hr ht⟩
  | forkDir hr ht hj => exact ⟨m, h.forkDir hr ht hj⟩
  | forkNoDir hr ht => exact ⟨m, h.forkNoDir hr ht⟩
  | forkReady hr ht hlock => exact ⟨m, h.forkReady hr ht⟩
  | setState hr ht => exact ⟨_, h.setState hr ht⟩
  | sched hr ht => exact ⟨_, h.sched hr ht⟩
  | reap hr ht hz => exact ⟨m, h.reap hr ht hz⟩

theorem start_state (i : Slot) :
    (start.procs i).state = if i = slot0 then .runnable else .unused := by
  by_cases hi : i = slot0
  · rw [if_pos hi, hi]
    rfl
  · rw [if_neg hi]
    show (Table.set _ slot0 _ i).state = _
    rw [Table.set_of_ne _ hi]
    rfl

theorem start_kstack (i : Slot) : start.kstack i = if i = slot0 then some 0 else none :=
  Function.update_apply (fun _ => none) slot0 (some 0) i

theorem placed_start : Placed start fun _ => .idle where
  regs _ := rfl
  fits _ := trivial
  unique _ _ _ hc := by cases hc
  located := by
    intro p hp
    rw [start_state] at hp
    split at hp
    · cases hp
    · cases hp
  lock _ hh := hh.elim
  parked _ _ _ _ _ := rfl
  wf _ _ _ := trivial
  ownStack := by
    intro p k hk
    rw [start_kstack] at hk
    split at hk
    · rename_i hp
      cases hk
      rw [hp]
      rfl
    · cases hk
  live := by
    intro p hp
    rw [start_state] at hp
    split at hp
    · rename_i heq
      rw [heq]
      exact ⟨⟨0, rfl⟩, 1, rfl, rfl⟩
    · exact absurd rfl hp.ne.1
  child _ _ _ _ _ hc := by cases hc
  owner _ _ _ _ _ _ _ _ _ hc := by cases hc
  fresh _ _ _ _ := rfl
  vacant := by
    intro p hp
    rw [start_state] at hp
    rw [start_kstack]
    split at hp
    · cases hp
    · rename_i heq
      exact if_neg heq

/-- In every state reached the CPUs and the processes agree. -/
theorem placed (h : switches.Reachable s) : ∃ m, Placed s m := by
  apply System.ReachableWhen.invariant (P := fun s => ∃ m, Placed s m) _ _ h
  · intro s hs
    have hs : s = start := hs
    rw [hs]
    exact ⟨_, placed_start⟩
  · rintro s a s' ⟨m, hm⟩ _ hstep
    exact hm.step (Move.of_step hstep)

end Placed

/-- The kernel stack or the page directory of the current process, not freed. -/
def OwnPages (s : Machine) (c : Cpu) : Prop :=
  (∀ k, (s.cpu c).stack = some k → ∃ p, (s.cpu c).proc = some p ∧ s.kstack p = some k ∧
    s.pages k = some (.stack p) ∧ (s.procs p).state ≠ .unused) ∧
  ∀ d, (s.cpu c).cr3 = some d → ∃ p, (s.cpu c).proc = some p ∧ s.pgdir p = some d ∧
    s.pages d = some (.dir p) ∧ (s.procs p).state ≠ .unused

theorem Placed.ownPages {s : Machine} {m : Cpu → Mode} (h : Placed s m) (c : Cpu) :
    OwnPages s c := by
  have hdir : ∀ {p d}, (m c).slot = some p → s.pgdir p = some d → s.pages d = some (.dir p) := by
    intro p d hslot hd
    obtain ⟨-, e, he, hrole⟩ := h.live p (h.current_live hslot)
    rw [hd] at he
    cases he
    exact hrole
  unfold OwnPages
  rw [h.regs c]
  cases hm : m c with
  | idle | scan i | switchuvm p | clear p =>
      exact ⟨fun _ hk => (by cases hk), fun _ hd => (by cases hd)⟩
  | run p | swtch p | resumed p =>
      have hslot : (m c).slot = some p := by
        rw [hm]
        rfl
      exact ⟨fun _ hk => (by cases hk),
        fun d hd => ⟨p, rfl, hd, hdir hslot hd, (h.current_live hslot).ne.1⟩⟩
  | on p =>
      have hslot : (m c).slot = some p := by
        rw [hm]
        rfl
      have hlive := (h.current_live hslot).ne.1
      exact ⟨fun k hk => ⟨p, rfl, hk, h.ownStack p k hk, hlive⟩,
        fun d hd => ⟨p, rfl, hd, hdir hslot hd, hlive⟩⟩

/-- While `ptable.lock` is free a process is RUNNING exactly when one CPU runs it, and
CPUs only use the pages of their current process. -/
theorem running_on_one_cpu (s : Machine) (h : switches.Reachable s) :
    (s.lock = none → ∀ p, (s.procs p).state = .running ↔ ∃! c, (s.cpu c).proc = some p) ∧
      ∀ c, OwnPages s c := by
  obtain ⟨m, hm⟩ := placed h
  have hproc : ∀ c, (s.cpu c).proc = (m c).slot := by
    intro c
    rw [hm.regs c]
    cases m c <;> rfl
  refine ⟨?_, hm.ownPages⟩
  intro hlock p
  constructor
  · intro hp
    obtain ⟨c, hc⟩ := hm.located p hp
    refine ⟨c, (hproc c).trans hc, ?_⟩
    intro d hd
    exact hm.unique d c p ((hproc d).symm.trans hd) hc
  · rintro ⟨c, hc, -⟩
    have hslot : (m c).slot = some p := (hproc c).symm.trans hc
    apply hm.running_of_not_holds hslot
    intro hholds
    have hheld := hm.lock c hholds
    rw [hlock] at hheld
    cases hheld

/-- `init` forks on CPU 0, CPU 1 runs the child, and both go to sleep for the disk.
The interrupt of the disk finds CPU 1 idle and wakes them, and CPU 1 runs `init`. -/
def forkAndInterrupt : List Act :=
  List.flatten [List.replicate 5 (.sched 0),
    [.go 0 none, .call 0 .fork, .go 0 (some 2), .go 0 (some 3), .go 0 none],
    List.replicate 6 (.sched 1), [.go 1 none],
    [.call 0 (.sleep 7), .go 0 none, .go 0 none, .sched 0, .sched 0],
    List.replicate 64 (.sched 0),
    [.call 1 (.sleep 7), .go 1 none, .go 1 none, .sched 1, .sched 1],
    List.replicate 63 (.sched 1), [.intr 1 7], List.replicate 5 (.sched 1), [.go 1 none]]

theorem running_on_one_cpu_forkAndInterrupt : ∃ s : Machine, s.lock = none ∧
    (s.cpu 1).proc = some ⟨0, by decide⟩ ∧
    (s.lock = none → ∀ p, (s.procs p).state = .running ↔ ∃! c, (s.cpu c).proc = some p) ∧
      ∀ c, OwnPages s c := by
  obtain ⟨s, hs, htest⟩ := System.exists_reachable_of_run (M := switches) (s := start)
    (l := forkAndInterrupt)
    (p := fun s => s.lock.isNone && (s.cpu 1).proc == some ⟨0, by decide⟩) rfl (by decide +kernel)
  simp only [Bool.and_eq_true, Option.isNone_iff_eq_none, beq_iff_eq] at htest
  exact ⟨s, htest.1, htest.2, running_on_one_cpu s hs⟩

end OsWork.Ports.ProcSwitch

import OsWork.Ports.ProcSwitch

/-!
# One CPU for each running process

The invariant of the context switches of `ProcSwitch`: what the registers of a CPU
hold follows from where the CPU stands between two processes, and the positions
agree with the states of the processes, the lock and the pages.
-/

namespace OsWork.Ports.ProcSwitch

open OsWork.Ports.ProcTable (Slot Word Proc ProcState Table Chan NPROC)
open OsWork.Verified.Transition
open Function (update)

/-! ## Positions -/

/-- Where a process stands that does not run. -/
def Thread.parked : Thread → Bool
  | .scanWake | .slept | .yielded _ | .forkret => true
  | _ => false

/-- The state of a process that has a CPU. -/
def Thread.state : Thread → ProcState
  | .sched st _ => st
  | _ => .running

/-- The child that the process creates, and how far it is: its kernel stack and its
page directory have been allocated. -/
def Thread.child : Thread → Option (Slot × Nat)
  | .forkStack np => some (np, 0)
  | .forkDir np => some (np, 1)
  | .forkReady np => some (np, 2)
  | .setState _ k | .sched _ k | .yielded k => k.child
  | _ => none

/-- A process gives its CPU up to go on where it is put, or to be dead. -/
def Thread.WF : Thread → Prop
  | .setState st k | .sched st k =>
      (st = .runnable ∨ st = .sleeping) ∧ k.parked = true ∧ k.WF ∨ st = .zombie ∧ k = .dead
  | .yielded k => k.locked = false
  | _ => True

theorem Thread.wf_of_unlocked {t : Thread} (h : t.locked = false) : t.WF := by
  cases t with
  | setState st k => cases h
  | sched st k => cases h
  | yielded k => cases h
  | _ => trivial

theorem Thread.state_of_unlocked {t : Thread} (h : t.locked = false) : t.state = .running := by
  cases t with
  | sched st k => cases h
  | _ => rfl

/-- Where a CPU stands between two processes. -/
inductive Mode
  | idle
  | scan (i : Nat)
  | switchuvm (p : Slot)
  | run (p : Slot)
  | swtch (p : Slot)
  /-- the process has the CPU -/
  | on (p : Slot)
  | resumed (p : Slot)
  | clear (p : Slot)

/-- The process in `c->proc`. -/
def Mode.slot : Mode → Option Slot
  | .idle | .scan _ => none
  | .switchuvm p | .run p | .swtch p | .on p | .resumed p | .clear p => some p

/-- The registers. -/
def Mode.regs (s : Machine) : Mode → CpuRegs
  | .idle => ⟨none, none, none, .idle⟩
  | .scan i => ⟨none, none, none, .scan i⟩
  | .switchuvm p => ⟨some p, none, none, .switchuvm p⟩
  | .run p => ⟨some p, s.pgdir p, none, .run p⟩
  | .swtch p => ⟨some p, s.pgdir p, none, .swtch p⟩
  | .on p => ⟨some p, s.pgdir p, s.kstack p, .resumed p⟩
  | .resumed p => ⟨some p, s.pgdir p, none, .resumed p⟩
  | .clear p => ⟨some p, none, none, .clear p⟩

/-- A state in which a process gives its CPU up. -/
def Left (st : ProcState) : Prop := st = .runnable ∨ st = .sleeping ∨ st = .zombie

/-- The state of the current process. -/
def Mode.Fits (s : Machine) : Mode → Prop
  | .idle | .scan _ => True
  | .switchuvm p | .run p => (s.procs p).state = .runnable
  | .swtch p => (s.procs p).state = .running
  | .on p => ∃ k, s.kstack p = some k ∧ (s.procs p).state = (s.thread k).state
  | .resumed p | .clear p => Left (s.procs p).state

/-- The CPU holds `ptable.lock`. -/
def Mode.Holds (s : Machine) : Mode → Prop
  | .idle => False
  | .on p => ∃ k, s.kstack p = some k ∧ (s.thread k).locked = true
  | _ => True

/-- A slot that has a kernel stack and a page directory. -/
def Live (st : ProcState) : Prop :=
  st = .runnable ∨ st = .running ∨ st = .sleeping ∨ st = .zombie

/-- A state in which a process without a CPU is to go on. -/
def Parks (st : ProcState) : Prop := st = .runnable ∨ st = .sleeping ∨ st = .running

/-- What `fork` has made of the child so far. -/
structure ChildOk (s : Machine) (np : Slot) (n : Nat) : Prop where
  state : (s.procs np).state = .embryo
  stack : 1 ≤ n → ∃ k, s.kstack np = some k
  dir : 2 ≤ n → ∃ d, s.pgdir np = some d ∧ s.pages d = some (.dir np)

/-- The CPUs, the processes, the lock and the pages agree. -/
structure Placed (s : Machine) (m : Cpu → Mode) : Prop where
  regs : ∀ c, s.cpu c = (m c).regs s
  fits : ∀ c, (m c).Fits s
  unique : ∀ c d p, (m c).slot = some p → (m d).slot = some p → c = d
  located : ∀ p, (s.procs p).state = .running → ∃ c, (m c).slot = some p
  lock : ∀ c, (m c).Holds s → s.lock = some c
  parked : ∀ p k, s.kstack p = some k → Parks (s.procs p).state →
    (∀ c, m c ≠ .on p) → (s.thread k).parked = true
  wf : ∀ p k, s.kstack p = some k → (s.thread k).WF
  ownStack : ∀ p k, s.kstack p = some k → s.pages k = some (.stack p)
  live : ∀ p, Live (s.procs p).state → (∃ k, s.kstack p = some k) ∧
    ∃ d, s.pgdir p = some d ∧ s.pages d = some (.dir p)
  child : ∀ p k np n, s.kstack p = some k → (s.thread k).child = some (np, n) → ChildOk s np n
  owner : ∀ p q k j np n n', s.kstack p = some k → s.kstack q = some j →
    (s.thread k).child = some (np, n) → (s.thread j).child = some (np, n') → p = q
  fresh : ∀ p k, (s.procs p).state = .embryo → s.kstack p = some k → s.thread k = .forkret
  vacant : ∀ p, (s.procs p).state = .unused → s.kstack p = none

section Placed

variable {s s' : Machine} {m : Cpu → Mode} {c d : Cpu} {k j : Page} {p q i : Slot}

/-- The stack of a process is its own. -/
theorem Placed.stack_inj (h : Placed s m) (hp : s.kstack p = some k) (hq : s.kstack q = some k) :
    p = q := by
  have hboth := (h.ownStack p k hp).symm.trans (h.ownStack q k hq)
  cases hboth
  rfl

/-- A process that runs has the CPU. -/
theorem Placed.on (h : Placed s m) (hr : Runs s c k p) : m c = .on p ∧ s.kstack p = some k := by
  have hregs := h.regs c
  have hstack := hr.stack
  have hproc := hr.proc
  rw [hregs] at hstack hproc
  cases hm : m c with
  | on q =>
      rw [hm] at hstack hproc
      cases hproc
      exact ⟨rfl, hstack⟩
  | _ =>
      rw [hm] at hstack
      cases hstack

/-- The mode of a CPU on the stack of the scheduler. -/
theorem Placed.off (h : Placed s m) (hstack : (s.cpu c).stack = none) :
    ((m c).regs s).scheduler = (s.cpu c).scheduler ∧ ∀ q, m c ≠ .on q := by
  constructor
  · rw [h.regs c]
  · intro q hm
    have hfits := h.fits c
    rw [hm] at hfits
    obtain ⟨k, hk, -⟩ := hfits
    rw [h.regs c, hm] at hstack
    have hnone : s.kstack q = none := hstack
    rw [hk] at hnone
    cases hnone

theorem Thread.live_state {t : Thread} (h : t.WF) : Live t.state := by
  cases t with
  | sched st k =>
      rcases h with ⟨hst | hst, -⟩ | ⟨hst, -⟩
      · exact .inl hst
      · exact .inr (.inr (.inl hst))
      · exact .inr (.inr (.inr hst))
  | _ => exact .inr (.inl rfl)

theorem Left.live {st : ProcState} (h : Left st) : Live st := by
  rcases h with hst | hst | hst
  · exact .inl hst
  · exact .inr (.inr (.inl hst))
  · exact .inr (.inr (.inr hst))

/-- A current process is in use. -/
theorem Placed.current_live (h : Placed s m) (hslot : (m c).slot = some p) :
    Live (s.procs p).state := by
  have hfits := h.fits c
  cases hm : m c with
  | idle | scan n =>
      rw [hm] at hslot
      cases hslot
  | on q =>
      rw [hm] at hslot hfits
      cases hslot
      obtain ⟨k, hk, hstate⟩ := hfits
      rw [hstate]
      exact Thread.live_state (h.wf p k hk)
  | switchuvm q | run q =>
      rw [hm] at hslot hfits
      cases hslot
      exact .inl hfits
  | swtch q =>
      rw [hm] at hslot hfits
      cases hslot
      exact .inr (.inl hfits)
  | resumed q | clear q =>
      rw [hm] at hslot hfits
      cases hslot
      exact Left.live hfits

theorem Live.ne {st : ProcState} (h : Live st) : st ≠ .unused ∧ st ≠ .embryo := by
  rcases h with rfl | rfl | rfl | rfl
  · exact ⟨ProcState.noConfusion, ProcState.noConfusion⟩
  · exact ⟨ProcState.noConfusion, ProcState.noConfusion⟩
  · exact ⟨ProcState.noConfusion, ProcState.noConfusion⟩
  · exact ⟨ProcState.noConfusion, ProcState.noConfusion⟩

/-- A process that does not hold the lock and has a CPU is RUNNING. -/
theorem Placed.running_of_not_holds (h : Placed s m) (hslot : (m c).slot = some p)
    (hnot : ¬ (m c).Holds s) : (s.procs p).state = .running := by
  have hfits := h.fits c
  cases hm : m c with
  | idle =>
      rw [hm] at hslot
      cases hslot
  | on q =>
      rw [hm] at hslot hfits hnot
      cases hslot
      obtain ⟨k, hk, hstate⟩ := hfits
      rw [hstate]
      apply Thread.state_of_unlocked
      by_contra hlocked
      exact hnot ⟨k, hk, by simpa using hlocked⟩
  | _ =>
      rw [hm] at hnot
      exact absurd trivial hnot

/-! ## A process goes on -/

/-- What happens to the state of another process. -/
inductive Drift (s : Machine) (c : Cpu) (p i : Slot) : ProcState → Prop
  | same : Drift s c p i (s.procs i).state
  | wake (hsleeping : (s.procs i).state = .sleeping) (hlock : ∀ d, d ≠ c → s.lock ≠ some d) :
      Drift s c p i .runnable
  | ready (hembryo : (s.procs i).state = .embryo) (hstack : ∃ j, s.kstack i = some j)
      (hdir : ∃ d, s.pgdir i = some d ∧ s.pages d = some (.dir i))
      (hnone : ∀ q j n, q ≠ p → s.kstack q = some j → (s.thread j).child ≠ some (i, n)) :
      Drift s c p i .runnable

/-- A slot that is set up, or given back. -/
structure Renewed (s s' : Machine) (m : Cpu → Mode) (p i : Slot) : Prop where
  current : ∀ d, (m d).slot ≠ some i
  child : ∀ q j n, q ≠ p → s.kstack q = some j → (s.thread j).child ≠ some (i, n)
  state : (s'.procs i).state = .unused ∧ s'.kstack i = none ∨
    (s'.procs i).state = .embryo ∧ ∀ j, s'.kstack i = some j →
      s'.pages j = some (.stack i) ∧ s'.thread j = .forkret

/-- Process `p` on CPU `c` goes on; the slots of `X` are set up or given back. -/
structure Advance (s s' : Machine) (m : Cpu → Mode) (c : Cpu) (k : Page) (p : Slot)
    (X : Slot → Prop) : Prop where
  cpu : s'.cpu = s.cpu
  renewed : ∀ i, X i → Renewed s s' m p i
  kstack : ∀ i, ¬ X i → s'.kstack i = s.kstack i
  pgdir : ∀ i, ¬ X i → s'.pgdir i = s.pgdir i
  stackPages : ∀ i j, ¬ X i → s.pages j = some (.stack i) → s'.pages j = some (.stack i)
  dirPages : ∀ i j, ¬ X i → s.pages j = some (.dir i) → s'.pages j = some (.dir i)
  thread : ∀ i j, ¬ X i → i ≠ p → s.kstack i = some j → s'.thread j = s.thread j
  others : ∀ i, ¬ X i → i ≠ p → Drift s c p i (s'.procs i).state
  self : (s'.procs p).state = (s.procs p).state
  before : (s.thread k).state = .running
  after : (s'.thread k).state = .running
  locked : (s'.thread k).locked = true → s'.lock = some c
  lock : ∀ d, d ≠ c → s.lock = some d → s'.lock = some d
  wf : (s'.thread k).WF
  child : ∀ np n, (s'.thread k).child = some (np, n) → ChildOk s' np n ∧
    ∀ q j n', q ≠ p → s.kstack q = some j → (s.thread j).child ≠ some (np, n')

variable {X : Slot → Prop}

theorem Placed.advance (h : Placed s m) (hm : m c = .on p) (hk : s.kstack p = some k)
    (ha : Advance s s' m c k p X) : Placed s' m := by
  have hslot : (m c).slot = some p := by
    rw [hm]
    rfl
  have hp : ¬ X p := fun hX => (ha.renewed p hX).current c hslot
  have hk' : s'.kstack p = some k := by rw [ha.kstack p hp, hk]
  have hrunning : (s.procs p).state = .running := by
    have hfits := h.fits c
    rw [hm] at hfits
    obtain ⟨j, hj, hstate⟩ := hfits
    rw [hk] at hj
    cases hj
    rw [hstate, ha.before]
  have hrunning' : (s'.procs p).state = .running := by rw [ha.self, hrunning]
  have hin : ∀ d i, (m d).slot = some i → ¬ X i := fun d i hd hX => (ha.renewed i hX).current d hd
  -- the current processes of the other CPUs keep their states
  have hkeep : ∀ d i, d ≠ c → (m d).slot = some i →
      (s'.procs i).state = (s.procs i).state ∧ i ≠ p := by
    intro d i hd hi
    have hip : i ≠ p := by
      rintro rfl
      exact hd (h.unique d c i hi hslot)
    refine ⟨?_, hip⟩
    have hdrift := ha.others i (hin d i hi) hip
    generalize (s'.procs i).state = st at hdrift ⊢
    cases hdrift with
    | same => rfl
    | wake hsleeping hlock =>
        have hnot : ¬ (m d).Holds s := fun hholds => hlock d hd (h.lock d hholds)
        rw [h.running_of_not_holds hi hnot] at hsleeping
        cases hsleeping
    | ready hembryo hstack hdir hnone => exact absurd hembryo (h.current_live hi).ne.2
  have hstill : ∀ i, ¬ X i → i ≠ p → (s'.procs i).state = (s.procs i).state ∨
      (s'.procs i).state = .runnable ∧
        ((s.procs i).state = .sleeping ∨ (s.procs i).state = .embryo ∧
          (∃ j, s.kstack i = some j) ∧ (∃ d, s.pgdir i = some d ∧ s.pages d = some (.dir i)) ∧
          ∀ q j n, q ≠ p → s.kstack q = some j → (s.thread j).child ≠ some (i, n)) := by
    intro i hi hip
    have hdrift := ha.others i hi hip
    generalize (s'.procs i).state = st at hdrift ⊢
    cases hdrift with
    | same => exact .inl rfl
    | wake hsleeping hlock => exact .inr ⟨rfl, .inl hsleeping⟩
    | ready hembryo hstack hdir hnone => exact .inr ⟨rfl, .inr ⟨hembryo, hstack, hdir, hnone⟩⟩
  exact
    { regs := by
        intro d
        rw [ha.cpu, h.regs d]
        cases hd : m d with
        | idle => rfl
        | scan n => rfl
        | switchuvm i => rfl
        | clear i => rfl
        | on i =>
            have hi := hin d i (by rw [hd]; rfl)
            simp only [Mode.regs, ha.kstack i hi, ha.pgdir i hi]
        | run i | swtch i | resumed i =>
            simp only [Mode.regs, ha.pgdir i (hin d i (by rw [hd]; rfl))]
      fits := by
        intro d
        by_cases hdc : d = c
        · rw [hdc, hm]
          exact ⟨k, hk', by rw [hrunning', ha.after]⟩
        · have hfits := h.fits d
          cases hd : m d with
          | idle => trivial
          | scan n => trivial
          | on i =>
              rw [hd] at hfits
              obtain ⟨j, hj, hstate⟩ := hfits
              have hs : (m d).slot = some i := by
                rw [hd]
                rfl
              obtain ⟨hsame, hip⟩ := hkeep d i hdc hs
              have hi := hin d i hs
              refine ⟨j, by rw [ha.kstack i hi, hj], ?_⟩
              rw [hsame, hstate, ha.thread i j hi hip hj]
          | switchuvm i | run i | swtch i =>
              rw [hd] at hfits
              exact (hkeep d i hdc (by rw [hd]; rfl)).1.trans hfits
          | resumed i | clear i =>
              rw [hd] at hfits
              show Left (s'.procs i).state
              rw [(hkeep d i hdc (by rw [hd]; rfl)).1]
              exact hfits
      unique := h.unique
      located := by
        intro i hi
        by_cases hip : i = p
        · rw [hip]
          exact ⟨c, hslot⟩
        · by_cases hX : X i
          · rcases (ha.renewed i hX).state with ⟨hst, -⟩ | ⟨hst, -⟩
            · rw [hst] at hi
              cases hi
            · rw [hst] at hi
              cases hi
          · rcases hstill i hX hip with hsame | ⟨hready, -⟩
            · exact h.located i (hsame ▸ hi)
            · rw [hready] at hi
              cases hi
      lock := by
        intro d hholds
        by_cases hdc : d = c
        · rw [hdc, hm] at hholds
          obtain ⟨j, hj, hlocked⟩ := hholds
          rw [hk'] at hj
          cases hj
          rw [hdc]
          exact ha.locked hlocked
        · apply ha.lock d hdc
          apply h.lock d
          cases hd : m d with
          | idle =>
              rw [hd] at hholds
              exact hholds
          | on i =>
              rw [hd] at hholds
              obtain ⟨j, hj, hlocked⟩ := hholds
              have hs : (m d).slot = some i := by
                rw [hd]
                rfl
              have hip := (hkeep d i hdc hs).2
              have hi := hin d i hs
              rw [ha.kstack i hi] at hj
              rw [ha.thread i j hi hip hj] at hlocked
              exact ⟨j, hj, hlocked⟩
          | _ => trivial
      parked := by
        intro i j hj hst hno
        have hip : i ≠ p := by
          rintro rfl
          exact hno c hm
        by_cases hX : X i
        · rcases (ha.renewed i hX).state with ⟨hst', -⟩ | ⟨hst', -⟩
          · rw [hst'] at hst
            rcases hst with hst | hst | hst
            · cases hst
            · cases hst
            · cases hst
          · rw [hst'] at hst
            rcases hst with hst | hst | hst
            · cases hst
            · cases hst
            · cases hst
        · rw [ha.kstack i hX] at hj
          rw [ha.thread i j hX hip hj]
          rcases hstill i hX hip with hsame | ⟨-, hsleeping | ⟨hembryo, -⟩⟩
          · exact h.parked i j hj (hsame ▸ hst) hno
          · exact h.parked i j hj (.inr (.inl hsleeping)) hno
          · rw [h.fresh i j hembryo hj]
            rfl
      wf := by
        intro i j hj
        by_cases hip : i = p
        · rw [hip, hk'] at hj
          cases hj
          exact ha.wf
        · by_cases hX : X i
          · rcases (ha.renewed i hX).state with ⟨-, hnone⟩ | ⟨-, hfresh⟩
            · rw [hnone] at hj
              cases hj
            · rw [(hfresh j hj).2]
              trivial
          · rw [ha.kstack i hX] at hj
            rw [ha.thread i j hX hip hj]
            exact h.wf i j hj
      ownStack := by
        intro i j hj
        by_cases hX : X i
        · rcases (ha.renewed i hX).state with ⟨-, hnone⟩ | ⟨-, hfresh⟩
          · rw [hnone] at hj
            cases hj
          · exact (hfresh j hj).1
        · rw [ha.kstack i hX] at hj
          exact ha.stackPages i j hX (h.ownStack i j hj)
      live := by
        intro i hlive
        by_cases hX : X i
        · rcases (ha.renewed i hX).state with ⟨hst, -⟩ | ⟨hst, -⟩
          · exact absurd hst hlive.ne.1
          · exact absurd hst hlive.ne.2
        · have hpages : (∃ j, s.kstack i = some j) ∧
              ∃ d, s.pgdir i = some d ∧ s.pages d = some (.dir i) := by
            by_cases hip : i = p
            · rw [hip]
              exact h.live p (.inr (.inl hrunning))
            · rcases hstill i hX hip with hsame | ⟨-, hsleeping | ⟨-, hstack, hdir, -⟩⟩
              · exact h.live i (hsame ▸ hlive)
              · exact h.live i (.inr (.inr (.inl hsleeping)))
              · exact ⟨hstack, hdir⟩
          obtain ⟨hstack, e, he, hdir⟩ := hpages
          rw [ha.kstack i hX, ha.pgdir i hX]
          exact ⟨hstack, e, he, ha.dirPages i e hX hdir⟩
      child := by
        intro q j np n hj hchild
        by_cases hqp : q = p
        · rw [hqp, hk'] at hj
          cases hj
          exact (ha.child np n hchild).1
        · by_cases hX : X q
          · rcases (ha.renewed q hX).state with ⟨-, hnone⟩ | ⟨-, hfresh⟩
            · rw [hnone] at hj
              cases hj
            · rw [(hfresh j hj).2] at hchild
              cases hchild
          · rw [ha.kstack q hX] at hj
            rw [ha.thread q j hX hqp hj] at hchild
            obtain ⟨hst, hstack, hdir⟩ := h.child q j np n hj hchild
            have hXnp : ¬ X np := fun hXnp => (ha.renewed np hXnp).child q j n hqp hj hchild
            have hnp : np ≠ p := by
              rintro rfl
              rw [hrunning] at hst
              cases hst
            constructor
            · rcases hstill np hXnp hnp with hsame | ⟨-, hsleeping | ⟨-, -, -, hnone⟩⟩
              · rw [hsame, hst]
              · rw [hst] at hsleeping
                cases hsleeping
              · exact absurd hchild (hnone q j n hqp hj)
            · intro hn
              rw [ha.kstack np hXnp]
              exact hstack hn
            · intro hn
              obtain ⟨e, he, hrole⟩ := hdir hn
              rw [ha.pgdir np hXnp]
              exact ⟨e, he, ha.dirPages np e hXnp hrole⟩
      owner := by
        have hone : ∀ q j np n n', q ≠ p → s'.kstack q = some j →
            (s'.thread j).child = some (np, n) → (s'.thread k).child ≠ some (np, n') := by
          intro q j np n n' hqp hj hq hpchild
          by_cases hX : X q
          · rcases (ha.renewed q hX).state with ⟨-, hnone⟩ | ⟨-, hfresh⟩
            · rw [hnone] at hj
              cases hj
            · rw [(hfresh j hj).2] at hq
              cases hq
          · rw [ha.kstack q hX] at hj
            rw [ha.thread q j hX hqp hj] at hq
            exact (ha.child np n' hpchild).2 q j n hqp hj hq
        intro q r j e np n n' hj he hq hr
        by_cases hqp : q = p
        · by_cases hrp : r = p
          · rw [hqp, hrp]
          · rw [hqp, hk'] at hj
            cases hj
            exact absurd hq (hone r e np n' n hrp he hr)
        · by_cases hrp : r = p
          · rw [hrp, hk'] at he
            cases he
            exact absurd hr (hone q j np n n' hqp hj hq)
          · have hold : ∀ {u f l}, u ≠ p → s'.kstack u = some f →
                (s'.thread f).child = some (np, l) →
                s.kstack u = some f ∧ (s.thread f).child = some (np, l) := by
              intro u f l hup hf hu
              by_cases hX : X u
              · rcases (ha.renewed u hX).state with ⟨-, hnone⟩ | ⟨-, hfresh⟩
                · rw [hnone] at hf
                  cases hf
                · rw [(hfresh f hf).2] at hu
                  cases hu
              · rw [ha.kstack u hX] at hf
                rw [ha.thread u f hX hup hf] at hu
                exact ⟨hf, hu⟩
            obtain ⟨hj, hq⟩ := hold hqp hj hq
            obtain ⟨he, hr⟩ := hold hrp he hr
            exact h.owner q r j e np n n' hj he hq hr
      fresh := by
        intro i j hst hj
        have hip : i ≠ p := by
          rintro rfl
          rw [hrunning'] at hst
          cases hst
        by_cases hX : X i
        · rcases (ha.renewed i hX).state with ⟨-, hnone⟩ | ⟨-, hfresh⟩
          · rw [hnone] at hj
            cases hj
          · exact (hfresh j hj).2
        · rw [ha.kstack i hX] at hj
          rw [ha.thread i j hX hip hj]
          rcases hstill i hX hip with hsame | ⟨hready, -⟩
          · exact h.fresh i j (hsame ▸ hst) hj
          · rw [hready] at hst
            cases hst
      vacant := by
        intro i hst
        have hip : i ≠ p := by
          rintro rfl
          rw [hrunning'] at hst
          cases hst
        by_cases hX : X i
        · rcases (ha.renewed i hX).state with ⟨-, hnone⟩ | ⟨hembryo, -⟩
          · exact hnone
          · rw [hembryo] at hst
            cases hst
        · rw [ha.kstack i hX]
          rcases hstill i hX hip with hsame | ⟨hready, -⟩
          · exact h.vacant i (hsame ▸ hst)
          · rw [hready] at hst
            cases hst }

/-- The thread of the process that has the CPU holds the lock when its position says so. -/
theorem Placed.lock_of_locked (h : Placed s m) (hm : m c = .on p) (hk : s.kstack p = some k)
    (ht : (s.thread k).locked = true) : s.lock = some c := by
  apply h.lock c
  rw [hm]
  exact ⟨k, hk, ht⟩

/-- A process goes on while no other CPU holds the lock, and may wake others. -/
theorem Placed.stay (h : Placed s m) (hm : m c = .on p) (hk : s.kstack p = some k) {t : Thread}
    {table : Table} {lock : Option Cpu} (hwakes : ∀ i, (s.procs i).state.Wakes (table i).state)
    (hfree : ∀ d, d ≠ c → s.lock ≠ some d) (hbefore : (s.thread k).state = .running)
    (hafter : t.state = .running) (hlocked : t.locked = true → lock = some c) (hwf : t.WF)
    (hchild : ∀ np n, t.child = some (np, n) → (s.thread k).child = some (np, n)) :
    Placed ({ s with procs := table, lock := lock }.setThread k t) m := by
  have hself : update s.thread k t k = t := Function.update_self k t s.thread
  have hrunning : (s.procs p).state = .running := by
    have hfits := h.fits c
    rw [hm] at hfits
    obtain ⟨j, hj, hstate⟩ := hfits
    rw [hk] at hj
    cases hj
    rw [hstate, hbefore]
  have hsame : ∀ i, (s.procs i).state ≠ .sleeping → (table i).state = (s.procs i).state := by
    intro i hi
    rcases hwakes i with heq | ⟨hsleeping, -⟩
    · exact heq
    · exact absurd hsleeping hi
  apply h.advance (X := fun _ => False) hm hk
  exact
    { cpu := rfl
      renewed := fun _ hX => hX.elim
      kstack := fun _ _ => rfl
      pgdir := fun _ _ => rfl
      stackPages := fun _ _ _ hj => hj
      dirPages := fun _ _ _ hj => hj
      thread := by
        intro i j _ hip hj
        have hjk : j ≠ k := by
          rintro rfl
          exact hip (h.stack_inj hj hk)
        exact Function.update_of_ne hjk t s.thread
      others := by
        intro i _ _
        show Drift s c p i (table i).state
        rcases hwakes i with heq | ⟨hsleeping, hrunnable⟩
        · rw [heq]
          exact .same
        · rw [hrunnable]
          exact .wake hsleeping hfree
      self := hsame p (by rw [hrunning]; exact ProcState.noConfusion)
      before := hbefore
      after := by
        show (update s.thread k t k).state = .running
        rw [hself, hafter]
      locked := by
        show (update s.thread k t k).locked = true → lock = some c
        rw [hself]
        exact hlocked
      lock := fun d hd hlock => absurd hlock (hfree d hd)
      wf := by
        show (update s.thread k t k).WF
        rw [hself]
        exact hwf
      child := by
        intro np n hnp
        have hnp : (update s.thread k t k).child = some (np, n) := hnp
        rw [hself] at hnp
        have hold := hchild np n hnp
        obtain ⟨hst, hstack, hdir⟩ := h.child p k np n hk hold
        refine ⟨⟨?_, hstack, hdir⟩, ?_⟩
        · exact (hsame np (by rw [hst]; exact ProcState.noConfusion)).trans hst
        · intro q j n' hqp hj hq
          exact hqp (h.owner p q k j np n n' hk hj hold hq).symm }

/-- Sleeping processes are woken while nobody holds the lock, by a process or by the
handler of an interrupt. -/
theorem Placed.wake (h : Placed s m) (hlock : s.lock = none) {table : Table}
    (hwakes : ∀ i, (s.procs i).state.Wakes (table i).state) :
    Placed { s with procs := table } m := by
  have hsame : ∀ i, (s.procs i).state ≠ .sleeping → (table i).state = (s.procs i).state := by
    intro i hi
    rcases hwakes i with heq | ⟨hsleeping, -⟩
    · exact heq
    · exact absurd hsleeping hi
  have hback : ∀ i st, st ≠ .runnable → (table i).state = st → (s.procs i).state = st := by
    intro i st hst hi
    rcases hwakes i with heq | ⟨-, hrunnable⟩
    · rw [← heq, hi]
    · rw [hrunnable] at hi
      exact absurd hi.symm hst
  have hnot : ∀ d, ¬ (m d).Holds s := by
    intro d hholds
    have hheld := h.lock d hholds
    rw [hlock] at hheld
    cases hheld
  -- whoever has a CPU is RUNNING
  have hkeep : ∀ d i, (m d).slot = some i → (table i).state = (s.procs i).state := by
    intro d i hi
    apply hsame
    rw [h.running_of_not_holds hi (hnot d)]
    exact ProcState.noConfusion
  have hregs : ∀ n : Mode, n.regs { s with procs := table } = n.regs s := by
    intro n
    cases n <;> rfl
  exact
    { regs := fun d => (h.regs d).trans (hregs (m d)).symm
      fits := by
        intro d
        have hfits := h.fits d
        cases hd : m d with
        | idle => trivial
        | scan n => trivial
        | on i =>
            rw [hd] at hfits
            obtain ⟨j, hj, hstate⟩ := hfits
            exact ⟨j, hj, (hkeep d i (by rw [hd]; rfl)).trans hstate⟩
        | _ =>
            have hholds := hnot d
            rw [hd] at hholds
            exact absurd trivial hholds
      unique := h.unique
      located := fun i hi => h.located i (hback i _ ProcState.noConfusion hi)
      lock := by
        intro d hholds
        apply h.lock d
        cases hd : m d with
        | _ =>
            rw [hd] at hholds
            exact hholds
      parked := by
        intro i j hj hst hno
        refine h.parked i j hj ?_ hno
        rcases hwakes i with heq | ⟨hsleeping, -⟩
        · exact heq ▸ hst
        · exact .inr (.inl hsleeping)
      wf := h.wf
      ownStack := h.ownStack
      live := by
        intro i hi
        apply h.live i
        rcases hwakes i with heq | ⟨hsleeping, -⟩
        · exact heq ▸ hi
        · exact .inr (.inr (.inl hsleeping))
      child := by
        intro q j np n hj hnp
        obtain ⟨hst, hstack, hdir⟩ := h.child q j np n hj hnp
        refine ⟨(hsame np ?_).trans hst, hstack, hdir⟩
        rw [hst]
        exact ProcState.noConfusion
      owner := h.owner
      fresh := fun i j hst hj => h.fresh i j (hback i _ ProcState.noConfusion hst) hj
      vacant := fun i hst => h.vacant i (hback i _ ProcState.noConfusion hst) }

theorem wakes_refl {t : Table} (i : Slot) : (t i).state.Wakes (t i).state := .inl rfl

theorem wakes_set {t : Table} {f : Proc → Proc} (hf : (f (t p)).state = (t p).state) (i : Slot) :
    (t i).state.Wakes (t.set p f i).state := by
  by_cases hip : i = p
  · rw [hip, Table.set_self]
    exact .inl hf
  · rw [Table.set_of_ne t hip]
    exact .inl rfl

/-- The steps of a process that keep the pages. -/
theorem Placed.here (h : Placed s m) (hr : Runs s c k p) (hl : Local s c k p s') :
    Placed s' m := by
  obtain ⟨hm, hk⟩ := h.on hr
  have hnone : s.lock = none → ∀ d, d ≠ c → s.lock ≠ some d := by
    intro hlock d _ hd
    rw [hlock] at hd
    cases hd
  have hheld : (s.thread k).locked = true → ∀ d, d ≠ c → s.lock ≠ some d := by
    intro hlocked d hdc hd
    rw [h.lock_of_locked hm hk hlocked] at hd
    exact hdc (Option.some.inj hd).symm
  cases hl with
  | forkFull ht => exact h
  | exit ht hlock =>
      apply h.stay hm hk
      · exact fun i => Table.exitPass_wakes i
      · exact hnone hlock
      · rw [ht]
        rfl
      · rfl
      · exact fun _ => rfl
      · exact .inr ⟨rfl, rfl⟩
      · exact fun np n hnp => by cases hnp
  | wait ht hlock =>
      apply h.stay hm hk
      · exact wakes_refl
      · exact hnone hlock
      · rw [ht]
        rfl
      · rfl
      · exact fun _ => rfl
      · trivial
      · exact fun np n hnp => by cases hnp
  | sleep ht hlock =>
      apply h.stay hm hk
      · exact wakes_set rfl
      · exact hnone hlock
      · rw [ht]
        rfl
      · rfl
      · exact fun _ => rfl
      · exact .inl ⟨.inr rfl, rfl, trivial⟩
      · exact fun np n hnp => by cases hnp
  | giveUp ht =>
      apply h.stay hm hk
      · exact wakes_refl
      · exact hheld (by rw [ht]; rfl)
      · rw [ht]
        rfl
      · rfl
      · exact fun hlocked => by cases hlocked
      · trivial
      · exact fun np n hnp => by cases hnp
  | waitSleep ht =>
      apply h.stay hm hk
      · exact wakes_set rfl
      · exact hheld (by rw [ht]; rfl)
      · rw [ht]
        rfl
      · rfl
      · exact fun _ => h.lock_of_locked hm hk (by rw [ht]; rfl)
      · exact .inl ⟨.inr rfl, rfl, trivial⟩
      · exact fun np n hnp => by cases hnp
  | scanWake ht =>
      apply h.stay hm hk
      · exact wakes_set rfl
      · exact hheld (by rw [ht]; rfl)
      · rw [ht]
        rfl
      · rfl
      · exact fun _ => h.lock_of_locked hm hk (by rw [ht]; rfl)
      · trivial
      · exact fun np n hnp => by cases hnp
  | slept ht =>
      apply h.stay hm hk
      · exact wakes_set rfl
      · exact hheld (by rw [ht]; rfl)
      · rw [ht]
        rfl
      · rfl
      · exact fun hlocked => by cases hlocked
      · trivial
      · exact fun np n hnp => by cases hnp
  | @resume k' ht =>
      have hunlocked : k'.locked = false := by
        rcases ht with ht | ⟨-, rfl⟩
        · have hwf := h.wf p k hk
          rw [ht] at hwf
          exact hwf
        · rfl
      apply h.stay hm hk
      · exact wakes_refl
      · apply hheld
        rcases ht with ht | ⟨ht, -⟩
        · rw [ht]
          rfl
        · rw [ht]
          rfl
      · rcases ht with ht | ⟨ht, -⟩
        · rw [ht]
          rfl
        · rw [ht]
          rfl
      · exact Thread.state_of_unlocked hunlocked
      · rw [hunlocked]
        exact fun hlocked => by cases hlocked
      · exact Thread.wf_of_unlocked hunlocked
      · intro np n hnp
        rcases ht with ht | ⟨-, rfl⟩
        · rw [ht]
          exact hnp
        · cases hnp
  | yield ht hlock =>
      apply h.stay hm hk
      · exact wakes_refl
      · exact hnone hlock
      · exact Thread.state_of_unlocked ht
      · rfl
      · exact fun _ => rfl
      · exact .inl ⟨.inl rfl, rfl, ht⟩
      · exact fun np n hnp => hnp

end Placed

end OsWork.Ports.ProcSwitch

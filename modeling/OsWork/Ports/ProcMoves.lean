import OsWork.Ports.ProcMachine

/-!
# What one step of the kernel can do

`Move s a s'` lists the steps of `ProcMachine` one by one, each with the tests
the source has passed and the state it leaves.  `Move.of_step` is the inversion
of `step`; every invariant of the process table is proved by cases on `Move`
and never unfolds `step`.
-/

namespace OsWork.Ports.ProcTable

/-- Where a process goes on behind a critical section that it has interrupted its
work for. -/
@[simp] def KPc.back : KPc → Option KPc
  | .yielded k | .wakes _ _ k => some k
  | .forkret => some .user
  | _ => none

/-- Process `p` is in the loop of a `wakeup1` on the channel, at slot `i`, and
comes to `k` with the next slot. -/
inductive Waking (s : State) (p : Slot) : Option Chan → Nat → KPc → Prop
  | call {a i : Nat} {k : KPc} (hk : s.kpc p = .wakes a i k) :
      Waking s p (some (.addr a)) i (.wakes a (i + 1) k)
  | parent {i : Nat} (hk : s.kpc p = .exitWake i) :
      Waking s p ((s.procs p).parent.map .proc) i (.exitWake (i + 1))
  | init {n i : Nat} (hk : s.kpc p = .exitPassWake n i) :
      Waking s p (some (.proc s.initproc)) i (.exitPassWake n (i + 1))

/-- The steps of the kernel. -/
inductive Move (s : State) : Act → State → Prop
  -- the scheduler of CPU `c`
  | schedAcquire {c : Cpu} (hcpu : s.cpu c = .idle) (hlock : s.lock = none) :
      Move s (.sched c) ((s.acquire c).setCpu c (.scan 0))
  | schedPick {c : Cpu} {k : Nat} {p : Slot} (hcpu : s.cpu c = .scan k)
      (hp : s.findRunnable k = some p) : Move s (.sched c) (s.setCpu c (.uvm p s.ticks))
  | schedRelease {c : Cpu} {k : Nat} (hcpu : s.cpu c = .scan k) :
      Move s (.sched c) (s.release.setCpu c .idle)
  | schedUvm {c : Cpu} {p : Slot} {t : Word} (hcpu : s.cpu c = .uvm p t) :
      Move s (.sched c) (s.setCpu c (.uvmLoad p (s.ticks - t)))
  | schedUvmLoad {c : Cpu} {p : Slot} {d : Word} (hcpu : s.cpu c = .uvmLoad p d) :
      Move s (.sched c) (s.setCpu c (.uvmStore p ((s.procs p).rtime + d)))
  | schedUvmStore {c : Cpu} {p : Slot} {v : Word} (hcpu : s.cpu c = .uvmStore p v) :
      Move s (.sched c)
        ((s.setProc p fun q => { q with rtime := v }).setCpu c (.dispatch p))
  | dispatch {c : Cpu} {p : Slot} (hcpu : s.cpu c = .dispatch p) :
      Move s (.sched c)
        ((s.setProc p fun q => { q with state := .running, numRun := q.numRun + 1 }).setCpu c
          (.run p))
  | schedWake {c : Cpu} {a : Nat} {i : Slot} (hcpu : s.cpu c = .wakes a i) :
      Move s (.sched c)
        ({ s with procs := s.procs.wakeSlot (some (.addr a)) i }.setCpu c (.wakes a (i + 1)))
  | schedWoken {c : Cpu} {a i : Nat} (hcpu : s.cpu c = .wakes a i) :
      Move s (.sched c) (s.release.setCpu c .idle)
  -- calls of process `p` on CPU `c`
  | forkFull {c : Cpu} : Move s (.call c .fork) s
  | fork {c : Cpu} {p np : Slot} (hcpu : s.cpu c = .run p) (hk : s.kpc p = .user)
      (hlock : s.lock = none) (hnp : s.procs.findUnused = some np) :
      Move s (.call c .fork)
        ({ s with procs := s.procs.embryo np s.nextpid, nextpid := s.nextpid + 1 }.setPc p
          (.forkStack np))
  | exit {c : Cpu} {p : Slot} {forced : Bool} (hcpu : s.cpu c = .run p)
      (hk : s.kpc p = .user) (hlock : s.lock = none) (hinit : p ≠ s.initproc)
      (hforced : forced → (s.procs p).killed) :
      Move s (.call c (.exit forced))
        ((s.acquire c).setPc p (.exitWake 0))
  | wait {c : Cpu} {p : Slot} {y : Call} {x : Bool} (hcpu : s.cpu c = .run p)
      (hk : s.kpc p = .user) (hlock : s.lock = none) (hy : y = if x then .waitx else .wait) :
      Move s (.call c y) ((s.acquire c).setPc p (.scan x))
  | kill {c : Cpu} {pid : Word} (hlock : s.lock = none) :
      Move s (.call c (.kill pid)) { s with procs := (s.procs.kill pid).2 }
  | sleep {c : Cpu} {p : Slot} {a : Nat} (hcpu : s.cpu c = .run p) (hk : s.kpc p = .user)
      (hlock : s.lock = none) :
      Move s (.call c (.sleep a))
        (((s.acquire c).setProc p fun q => { q with chan := some (.addr a) }).leave c p
          .sleeping .slept)
  | wakeup {c : Cpu} {p : Slot} {a : Nat} (hcpu : s.cpu c = .run p)
      (hk : (s.kpc p).locked = false) (hlock : s.lock = none) :
      Move s (.call c (.wakeup a)) ((s.acquire c).setPc p (.wakes a 0 (s.kpc p)))
  | switchuvm {c : Cpu} {p : Slot} (hcpu : s.cpu c = .run p) (hk : s.kpc p = .user) :
      Move s (.call c .switchuvm) (s.setPc p (.uvm s.ticks))
  | fault {c : Cpu} {p : Slot} (hcpu : s.cpu c = .run p) (hk : s.kpc p = .user) :
      Move s (.call c .fault) (s.setProc p fun q => { q with killed := true })
  -- `fork` and `allocproc` go on
  | forkStack {c : Cpu} {p np : Slot} (hcpu : s.cpu c = .run p)
      (hk : s.kpc p = .forkStack np) : Move s (.go c true) (s.setPc p (.forkTimes np))
  | forkFail {c : Cpu} {p np : Slot} (hcpu : s.cpu c = .run p)
      (hk : s.kpc p = .forkStack np ∨ s.kpc p = .forkCopy np) :
      Move s (.go c false) ((s.setProc np fun q => { q with state := .unused }).setPc p .user)
  | forkTimes {c : Cpu} {p np : Slot} {ok : Bool} (hcpu : s.cpu c = .run p)
      (hk : s.kpc p = .forkTimes np) :
      Move s (.go c ok)
        ({ s with procs := s.procs.initTimes np s.ticks }.setPc p (.forkWait np))
  | forkWait {c : Cpu} {p np : Slot} {ok : Bool} (hcpu : s.cpu c = .run p)
      (hk : s.kpc p = .forkWait np) :
      Move s (.go c ok)
        ((s.setProc np fun q => { q with waitTime := s.ticks - q.ctime }).setPc p
          (.forkCopy np))
  | forkCopy {c : Cpu} {p np : Slot} (hcpu : s.cpu c = .run p)
      (hk : s.kpc p = .forkCopy np) : Move s (.go c true) (s.setPc p (.forkParent np))
  | forkParent {c : Cpu} {p np : Slot} {ok : Bool} (hcpu : s.cpu c = .run p)
      (hk : s.kpc p = .forkParent np) :
      Move s (.go c ok)
        ((s.setProc np fun q => { q with parent := some p }).setPc p (.forkReady np))
  | forkReady {c : Cpu} {p np : Slot} {ok : Bool} (hcpu : s.cpu c = .run p)
      (hk : s.kpc p = .forkReady np) (hlock : s.lock = none) :
      Move s (.go c ok)
        (((s.setProc np fun q => { q with state := .runnable }).setPc np .forkret).setPc p
          .user)
  -- `wakeup` and `exit` go on
  | wakeSlot {c : Cpu} {p i : Slot} {ok : Bool} {chan : Option Chan} {k : KPc}
      (hcpu : s.cpu c = .run p) (hk : Waking s p chan i k) :
      Move s (.go c ok) ({ s with procs := s.procs.wakeSlot chan i }.setPc p k)
  | exitWoken {c : Cpu} {p : Slot} {ok : Bool} {i : Nat} (hcpu : s.cpu c = .run p)
      (hk : s.kpc p = .exitWake i) (hi : NPROC ≤ i) :
      Move s (.go c ok) (s.setPc p (.exitPass 0))
  | exitChild {c : Cpu} {p i : Slot} {ok : Bool} {k : KPc} (hcpu : s.cpu c = .run p)
      (hk : s.kpc p = .exitPass i) (hi : (s.procs i).parent = some p)
      (hnext : k = if (s.procs i).state = .zombie then .exitPassWake i 0 else .exitPass (i + 1)) :
      Move s (.go c ok)
        ((s.setProc i fun q => { q with parent := some s.initproc }).setPc p k)
  | exitSkip {c : Cpu} {p i : Slot} {ok : Bool} (hcpu : s.cpu c = .run p)
      (hk : s.kpc p = .exitPass i) (hi : (s.procs i).parent ≠ some p) :
      Move s (.go c ok) (s.setPc p (.exitPass (i + 1)))
  | exitPassWoken {c : Cpu} {p : Slot} {ok : Bool} {n i : Nat} (hcpu : s.cpu c = .run p)
      (hk : s.kpc p = .exitPassWake n i) (hi : NPROC ≤ i) :
      Move s (.go c ok) (s.setPc p (.exitPass (n + 1)))
  | exitPassed {c : Cpu} {p : Slot} {ok : Bool} {i : Nat} (hcpu : s.cpu c = .run p)
      (hk : s.kpc p = .exitPass i) (hi : NPROC ≤ i) :
      Move s (.go c ok) (s.setPc p .exitTime)
  | exitTime {c : Cpu} {p : Slot} {ok : Bool} (hcpu : s.cpu c = .run p)
      (hk : s.kpc p = .exitTime) :
      Move s (.go c ok) ((s.setProc p fun q => { q with etime := s.ticks }).setPc p .exitWait)
  | exitWait {c : Cpu} {p : Slot} {ok : Bool} (hcpu : s.cpu c = .run p)
      (hk : s.kpc p = .exitWait) :
      Move s (.go c ok)
        ((s.setProc p fun q => { q with waitTime := q.etime - q.ctime - q.rtime }).setPc p
          .exitPrint)
  | exitPrint {c : Cpu} {p : Slot} {ok : Bool} (hcpu : s.cpu c = .run p)
      (hk : s.kpc p = .exitPrint) : Move s (.go c ok) (s.setPc p .exitZombie)
  | exitZombie {c : Cpu} {p : Slot} {ok : Bool} (hcpu : s.cpu c = .run p)
      (hk : s.kpc p = .exitZombie) : Move s (.go c ok) (s.leave c p .zombie .dead)
  -- `wait` and `waitx` go on
  | reap {c : Cpu} {p z : Slot} {ok x : Bool} (hcpu : s.cpu c = .run p)
      (hk : s.kpc p = .scan x) (hz : s.procs.findZombie p = some z) :
      Move s (.go c ok)
        ({ s with
            procs := s.procs.reap z
            waitxOut := if x then
                Function.update s.waitxOut p
                  (some ((s.procs z).waitxTime s.ticks, (s.procs z).rtime))
              else s.waitxOut }.release.setPc p .user)
  | giveUp {c : Cpu} {p : Slot} {ok x : Bool} (hcpu : s.cpu c = .run p)
      (hk : s.kpc p = .scan x) : Move s (.go c ok) (s.release.setPc p .user)
  | waitSleep {c : Cpu} {p : Slot} {ok x : Bool} (hcpu : s.cpu c = .run p)
      (hk : s.kpc p = .scan x) (hz : s.procs.findZombie p = none)
      (hkids : s.procs.havekids p = true) (hkilled : (s.procs p).killed = false) :
      Move s (.go c ok)
        ((s.setProc p fun q => { q with chan := some (.proc p) }).leave c p .sleeping
          (.scanWake x))
  | scanWake {c : Cpu} {p : Slot} {ok x : Bool} (hcpu : s.cpu c = .run p)
      (hk : s.kpc p = .scanWake x) :
      Move s (.go c ok) ((s.setProc p fun q => { q with chan := none }).setPc p (.scan x))
  -- resumed in `sleep`, in `yield`, in `forkret` or behind `wakeup`
  | slept {c : Cpu} {p : Slot} {ok : Bool} (hcpu : s.cpu c = .run p)
      (hk : s.kpc p = .slept) :
      Move s (.go c ok) ((s.setProc p fun q => { q with chan := none }).release.setPc p .user)
  | resume {c : Cpu} {p : Slot} {ok : Bool} {k : KPc} (hcpu : s.cpu c = .run p)
      (hk : (s.kpc p).back = some k) : Move s (.go c ok) (s.release.setPc p k)
  -- `switchuvm` of `exec` or `growproc`
  | uvm {c : Cpu} {p : Slot} {ok : Bool} {t : Word} (hcpu : s.cpu c = .run p)
      (hk : s.kpc p = .uvm t) : Move s (.go c ok) (s.setPc p (.uvmLoad (s.ticks - t)))
  | uvmLoad {c : Cpu} {p : Slot} {ok : Bool} {d : Word} (hcpu : s.cpu c = .run p)
      (hk : s.kpc p = .uvmLoad d) :
      Move s (.go c ok) (s.setPc p (.uvmStore ((s.procs p).rtime + d)))
  | uvmStore {c : Cpu} {p : Slot} {ok : Bool} {v : Word} (hcpu : s.cpu c = .run p)
      (hk : s.kpc p = .uvmStore v) :
      Move s (.go c ok) ((s.setProc p fun q => { q with rtime := v }).setPc p .user)
  -- interrupts
  | intr {c : Cpu} {p : Slot} {a : Nat} (hcpu : s.cpu c = .run p)
      (hk : (s.kpc p).locked = false) (hlock : s.lock = none) :
      Move s (.intr c a) ((s.acquire c).setPc p (.wakes a 0 (s.kpc p)))
  | intrIdle {c : Cpu} {a : Nat} (hcpu : s.cpu c = .idle) (hlock : s.lock = none) :
      Move s (.intr c a) ((s.acquire c).setCpu c (.wakes a 0))
  | yield {c : Cpu} {p : Slot} (hcpu : s.cpu c = .run p) (hk : (s.kpc p).locked = false)
      (hlock : s.lock = none) :
      Move s (.yield c) ((s.acquire c).leave c p .runnable (.yielded (s.kpc p)))
  | tick (htimer : s.timer = .idle) :
      Move s .tick { s with ticks := s.ticks + 1, timer := .running 0 }
  | isRunning {i : Slot} (htimer : s.timer = .running i)
      (hstate : (s.procs i).state = .running) :
      Move s .timer { s with timer := .rtimeLoad i }
  | notRunning {i : Slot} (htimer : s.timer = .running i)
      (hstate : (s.procs i).state ≠ .running) :
      Move s .timer { s with timer := .runnable i }
  | endTimes {i : Nat} (htimer : s.timer = .running i) (hi : NPROC ≤ i) :
      Move s .timer { s with timer := .wakeup }
  | isRunnable {i : Slot} (htimer : s.timer = .runnable i)
      (hstate : (s.procs i).state = .runnable) :
      Move s .timer { s with timer := .queueLoad i }
  | notRunnable {i : Slot} (htimer : s.timer = .runnable i)
      (hstate : (s.procs i).state ≠ .runnable) :
      Move s .timer { s with timer := .running (i + 1) }
  | rtimeLoad {i : Slot} (htimer : s.timer = .rtimeLoad i) :
      Move s .timer { s with timer := .rtimeStore i (s.procs i).rtime }
  | rtimeStore {i : Slot} {v : Word} (htimer : s.timer = .rtimeStore i v) :
      Move s .timer { s.setProc i fun p => { p with rtime := v + 1 } with
                      timer := .running (i + 1) }
  | queueLoad {i : Slot} (htimer : s.timer = .queueLoad i) :
      Move s .timer { s with timer := .queueStore i (s.procs i).timeInQueues }
  | queueStore {i : Slot} {v : Word} (htimer : s.timer = .queueStore i v) :
      Move s .timer { s.setProc i fun p => { p with timeInQueues := v + 1 } with
                      timer := .running (i + 1) }
  | wakeupTicks (htimer : s.timer = .wakeup) (hlock : s.lock = none) :
      Move s .timer { s with procs := s.procs.wakeup1 (some ticksChan), timer := .idle }

section Inversion

variable {s s' : State}

theorem Move.of_scheduler {c : Cpu} (h : s.scheduler c = some s') :
    Move s (.sched c) s' := by
  unfold State.scheduler at h
  split at h
  · rename_i hcpu
    split at h <;> cases h
    exact .schedAcquire hcpu ‹_›
  · rename_i hcpu
    split at h <;> cases h
    · exact .schedPick hcpu ‹_›
    · exact .schedRelease hcpu
  · cases h
    exact .schedUvm ‹_›
  · cases h
    exact .schedUvmLoad ‹_›
  · cases h
    exact .schedUvmStore ‹_›
  · cases h
    exact .dispatch ‹_›
  · cases h
  · rename_i a i hcpu
    split at h <;> cases h
    · exact .schedWake (i := ⟨i, ‹_›⟩) hcpu
    · exact .schedWoken hcpu

theorem State.of_beginWakeup {c : Cpu} {p : Slot} {a : Nat}
    (h : s.beginWakeup c p a = some s') :
    s.lock = none ∧ s' = (s.acquire c).setPc p (.wakes a 0 (s.kpc p)) := by
  unfold State.beginWakeup at h
  split at h <;> cases h
  exact ⟨‹_›, rfl⟩

theorem Move.of_call {c : Cpu} {p : Slot} {x : Call} (hcpu : s.cpu c = .run p)
    (hk : s.kpc p = .user) (h : s.call c p x = some s') : Move s (.call c x) s' := by
  cases x with
  | fork =>
      simp only [State.call] at h
      split at h
      · rename_i hlock
        split at h <;> cases h
        · exact .fork hcpu hk hlock ‹_›
        · exact .forkFull
      · cases h
  | exit forced =>
      simp only [State.call] at h
      split at h
      · rename_i hguard
        rw [Option.some.injEq] at h
        subst h
        exact .exit hcpu hk hguard.1 hguard.2.1 hguard.2.2
      · cases h
  | wait =>
      simp only [State.call] at h
      split at h <;> cases h
      exact .wait (x := false) hcpu hk ‹_› rfl
  | waitx =>
      simp only [State.call] at h
      split at h <;> cases h
      exact .wait (x := true) hcpu hk ‹_› rfl
  | kill pid =>
      simp only [State.call] at h
      split at h <;> cases h
      exact .kill ‹_›
  | sleep a =>
      simp only [State.call] at h
      split at h <;> cases h
      exact .sleep hcpu hk ‹_›
  | wakeup a =>
      obtain ⟨hlock, rfl⟩ := State.of_beginWakeup h
      exact .wakeup hcpu (by rw [hk]; rfl) hlock
  | switchuvm =>
      cases h
      exact .switchuvm hcpu hk
  | fault =>
      cases h
      exact .fault hcpu hk

theorem Move.of_waitRound {c : Cpu} {p : Slot} {x ok : Bool} (hcpu : s.cpu c = .run p)
    (hk : s.kpc p = .scan x) : Move s (.go c ok) (s.waitRound c p x) := by
  unfold State.waitRound
  split
  · exact .reap hcpu hk ‹_›
  · split
    · exact .giveUp hcpu hk
    · rename_i hz hno
      simp only [not_or, Bool.not_eq_false, Bool.not_eq_true] at hno
      exact .waitSleep hcpu hk hz hno.1 hno.2

/-- A round of `wakeup1`, or what comes behind the loop. -/
theorem Move.of_wakeRound {c : Cpu} {p : Slot} {ok : Bool} {chan : Option Chan} {i : Nat}
    {k : KPc} {done : State} (hcpu : s.cpu c = .run p) (hk : Waking s p chan i k)
    (hdone : NPROC ≤ i → Move s (.go c ok) done) :
    Move s (.go c ok) (s.wakeRound p chan i k done) := by
  unfold State.wakeRound
  split
  · exact .wakeSlot (i := ⟨i, ‹_›⟩) hcpu hk
  · exact hdone (by omega)

theorem Move.of_passRound {c : Cpu} {p : Slot} {ok : Bool} {i : Nat} (hcpu : s.cpu c = .run p)
    (hk : s.kpc p = .exitPass i) : Move s (.go c ok) (s.passRound p i) := by
  unfold State.passRound
  split
  · rename_i hi
    split
    · exact .exitChild (i := ⟨i, hi⟩) hcpu hk ‹_› rfl
    · exact .exitSkip (i := ⟨i, hi⟩) hcpu hk ‹_›
  · exact .exitPassed hcpu hk (by omega)

theorem Move.of_go {c : Cpu} {p : Slot} {ok : Bool} (hcpu : s.cpu c = .run p)
    (h : s.go c p ok = some s') : Move s (.go c ok) s' := by
  unfold State.go at h
  cases hk : s.kpc p <;> rw [hk] at h <;> simp only [reduceCtorEq] at h
  case forkStack np =>
    cases ok <;> cases h
    · exact .forkFail hcpu (.inl hk)
    · exact .forkStack hcpu hk
  case forkTimes np => cases h; exact .forkTimes hcpu hk
  case forkWait np => cases h; exact .forkWait hcpu hk
  case forkCopy np =>
    cases ok <;> cases h
    · exact .forkFail hcpu (.inr hk)
    · exact .forkCopy hcpu hk
  case forkParent np => cases h; exact .forkParent hcpu hk
  case forkReady np =>
    split at h <;> cases h
    exact .forkReady hcpu hk ‹_›
  case wakes a i k =>
    cases h
    exact .of_wakeRound hcpu (.call hk) fun _ => .resume hcpu (by rw [hk]; rfl)
  case exitWake i =>
    cases h
    exact .of_wakeRound hcpu (.parent hk) fun hi => .exitWoken hcpu hk hi
  case exitPass i => cases h; exact .of_passRound hcpu hk
  case exitPassWake n i =>
    cases h
    exact .of_wakeRound hcpu (.init hk) fun hi => .exitPassWoken hcpu hk hi
  case exitTime => cases h; exact .exitTime hcpu hk
  case exitWait => cases h; exact .exitWait hcpu hk
  case exitPrint => cases h; exact .exitPrint hcpu hk
  case exitZombie => cases h; exact .exitZombie hcpu hk
  case scan x => cases h; exact .of_waitRound hcpu hk
  case scanWake x => cases h; exact .scanWake hcpu hk
  case slept => cases h; exact .slept hcpu hk
  case yielded k | forkret => cases h; exact .resume hcpu (by rw [hk]; rfl)
  case uvm t => cases h; exact .uvm hcpu hk
  case uvmLoad d => cases h; exact .uvmLoad hcpu hk
  case uvmStore v => cases h; exact .uvmStore hcpu hk

theorem Move.of_timerStep (h : s.timerStep = some s') : Move s .timer s' := by
  unfold State.timerStep at h
  split at h
  · cases h
  · rename_i i htimer
    split at h
    · rename_i hi
      split at h <;> cases h
      · exact .isRunning (i := ⟨i, hi⟩) htimer ‹_›
      · exact .notRunning (i := ⟨i, hi⟩) htimer ‹_›
    · cases h
      exact .endTimes htimer (by omega)
  · rename_i i htimer
    split at h
    · rename_i hi
      split at h <;> cases h
      · exact .isRunnable (i := ⟨i, hi⟩) htimer ‹_›
      · exact .notRunnable (i := ⟨i, hi⟩) htimer ‹_›
    · cases h
  · rename_i i htimer
    split at h <;> cases h
    exact .rtimeLoad (i := ⟨i, ‹_›⟩) htimer
  · rename_i i v htimer
    split at h <;> cases h
    exact .rtimeStore (i := ⟨i, ‹_›⟩) htimer
  · rename_i i htimer
    split at h <;> cases h
    exact .queueLoad (i := ⟨i, ‹_›⟩) htimer
  · rename_i i v htimer
    split at h <;> cases h
    exact .queueStore (i := ⟨i, ‹_›⟩) htimer
  · rename_i htimer
    split at h <;> cases h
    exact .wakeupTicks htimer ‹_›

/-- Every step is one of the list. -/
theorem Move.of_step {P : Params} {a : Act} (h : step P s a = some s') : Move s a s' := by
  cases a with
  | sched c =>
      simp only [step] at h
      split at h
      · exact .of_scheduler h
      · cases h
  | call c x =>
      simp only [step] at h
      split at h
      · split at h
        · rename_i hcpu
          split at h
          · exact .of_call hcpu ‹_› h
          · cases h
        · cases h
      · cases h
  | go c ok =>
      simp only [step] at h
      split at h
      · split at h
        · rename_i hcpu
          exact .of_go hcpu h
        · cases h
      · cases h
  | yield c =>
      simp only [step] at h
      split at h
      · split at h
        · rename_i p hcpu
          unfold State.yield at h
          split at h
          · rename_i hguard
            cases h
            exact .yield hcpu hguard.1 hguard.2
          · cases h
        · cases h
      · cases h
  | intr c a =>
      simp only [step] at h
      split at h
      · unfold State.intr at h
        split at h
        · rename_i hcpu
          split at h <;> cases h
          exact .intrIdle hcpu ‹_›
        · rename_i p hcpu
          split at h
          · obtain ⟨hlock, rfl⟩ := State.of_beginWakeup h
            exact .intr hcpu ‹_› hlock
          · cases h
        · cases h
      · cases h
  | tick =>
      simp only [step] at h
      split at h
      · rename_i hguard
        cases h
        exact .tick hguard.2.1
      · cases h
  | timer => exact .of_timerStep h

end Inversion

end OsWork.Ports.ProcTable

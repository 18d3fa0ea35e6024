import OsWork.Ports.ProcTable
import OsWork.Verified.Transition

/-!
# Context switches

The scheduler and the processes of `ass5/final_repo/proc.c` once more, with the
steps of a context switch apart from each other: `c->proc`, the page directory in
`cr3`, the stack a CPU executes on and `p->state` change one after the other, and
a process keeps running on its own kernel stack between `p->state = ...` and
`swtch`.  The position of a process is kept with its kernel stack, which is a page
that `wait` and `waitx` free.

Any number of CPUs run.  The table is changed as in `ProcTable`.  A step is a
critical section of `ptable.lock`, or a part of one.  The interrupt of a device
comes on any CPU that has not taken the lock, also on one whose scheduler idles:
the handlers of `ideintr`, `consoleintr` and `uartintr`, and that of the timer for
`&ticks`, call `wakeup`.  `exec` is not modelled, and a page directory is one page.
-/

namespace OsWork.Ports.ProcSwitch

open OsWork.Ports.ProcTable (Slot Word Proc ProcState Table Chan NPROC)
open OsWork.Verified.Transition

/-- An index into `cpus`. -/
abbrev Cpu := Nat

/-- The address of a page. -/
abbrev Page := Nat

/-- What a page was allocated for. -/
inductive Role
  | stack (p : Slot)
  | dir (p : Slot)
  deriving DecidableEq

/-- Where a process stands in the kernel. -/
inductive Thread
  /-- user code, or kernel code that does not touch the process table -/
  | user
  /-- `allocproc`: `kalloc` of the kernel stack is next -/
  | forkStack (np : Slot)
  /-- `copyuvm` is next -/
  | forkDir (np : Slot)
  /-- the critical section that makes the child RUNNABLE -/
  | forkReady (np : Slot)
  /-- `p->state = st` and `sched` are next, to be resumed at `k` -/
  | setState (st : ProcState) (k : Thread)
  /-- the `swtch` of `sched` is next; the state has been set to `st` -/
  | sched (st : ProcState) (k : Thread)
  /-- head of the loop of `wait` or `waitx` -/
  | scan
  /-- resumed in the `sleep` of `wait` or `waitx` -/
  | scanWake
  /-- resumed in a `sleep` with another lock -/
  | slept
  /-- resumed in `yield`; `k` is what the timer interrupt interrupted -/
  | yielded (k : Thread)
  | forkret
  /-- after the `sched` of `exit` -/
  | dead
  deriving DecidableEq

/-- The process holds `ptable.lock` at this position. -/
def Thread.locked : Thread → Bool
  | .setState _ _ | .sched _ _ | .scan | .scanWake | .slept | .yielded _ | .forkret => true
  | _ => false

/-- Where the scheduler of a CPU stands. -/
inductive Scheduler
  /-- `for(;;)`, before `acquire(&ptable.lock)` -/
  | idle
  /-- the scan has reached slot `i` -/
  | scan (i : Nat)
  /-- `switchuvm(p)` is next -/
  | switchuvm (p : Slot)
  /-- `p->state = RUNNING; p->num_run++` -/
  | run (p : Slot)
  | swtch (p : Slot)
  /-- after the `swtch`: `switchkvm()` -/
  | resumed (p : Slot)
  /-- `c->proc = 0` -/
  | clear (p : Slot)
  deriving DecidableEq

/-- `struct cpu` and the registers. -/
structure CpuRegs where
  proc : Option Slot
  /-- the page directory; `none` is `kpgdir` -/
  cr3 : Option Page
  /-- the kernel stack in use; `none` is the stack of the scheduler -/
  stack : Option Page
  scheduler : Scheduler
  deriving DecidableEq

structure Machine where
  procs : Table
  nextpid : Word
  initproc : Slot
  kstack : Slot → Option Page
  pgdir : Slot → Option Page
  /-- `none`: on the free list of `kalloc` -/
  pages : Page → Option Role
  /-- the position that a kernel stack keeps -/
  thread : Page → Thread
  /-- the CPU that holds `ptable.lock` -/
  lock : Option Cpu
  cpu : Cpu → CpuRegs

/-- `&ptable.proc[0]`, which `userinit` allocates for init. -/
theorem zero_lt_NPROC : 0 < NPROC := by decide

def slot0 : Slot := ⟨0, zero_lt_NPROC⟩

/-- The state `userinit` leaves. -/
def start : Machine where
  procs := Table.set (fun _ => Proc.zero) slot0 fun p =>
    { p with state := .runnable, pid := 1, etime := -1 }
  nextpid := 2
  initproc := slot0
  kstack := Function.update (fun _ => none) slot0 (some 0)
  pgdir := Function.update (fun _ => none) slot0 (some 1)
  pages := fun k => if k = 0 then some (.stack slot0) else if k = 1 then some (.dir slot0) else none
  thread := fun _ => .forkret
  lock := none
  cpu := fun _ => { proc := none, cr3 := none, stack := none, scheduler := .idle }

/-- What a process in `Thread.user` does next. -/
inductive Call
  | fork
  | exit
  /-- `wait` or `waitx` -/
  | wait
  | kill (pid : Word)
  /-- `sleep` with a lock other than `ptable.lock` -/
  | sleep (a : Nat)
  | wakeup (a : Nat)
  deriving DecidableEq

/-- Who takes the next step. -/
inductive Act
  /-- the scheduler of CPU `c` -/
  | sched (c : Cpu)
  /-- the process on CPU `c` makes a call -/
  | call (c : Cpu) (x : Call)
  /-- the process on CPU `c` goes on; `page` is what `kalloc` returns -/
  | go (c : Cpu) (page : Option Page)
  /-- a timer interrupt makes the process on CPU `c` yield -/
  | yield (c : Cpu)
  /-- the handler of an interrupt on CPU `c` calls `wakeup` on the channel `a` -/
  | intr (c : Cpu) (a : Nat)
  deriving DecidableEq

namespace Machine

variable (s : Machine)

def setThread (k : Page) (t : Thread) : Machine :=
  { s with thread := Function.update s.thread k t }

def setCpu (c : Cpu) (r : CpuRegs) : Machine := { s with cpu := Function.update s.cpu c r }

def setState (p : Slot) (st : ProcState) : Machine :=
  { s with procs := s.procs.set p fun q => { q with state := st } }

/-- `kfree` of a page, if the pointer is not null. -/
def kfree (k : Option Page) : Machine :=
  match k with
  | some k => { s with pages := Function.update s.pages k none }
  | none => s

/-- `scheduler`, on the scheduler's own stack. -/
def scheduler (c : Cpu) : Option Machine :=
  let r := s.cpu c
  match r.scheduler with
  | .idle =>
      if s.lock = none then some ({ s with lock := some c }.setCpu c { r with scheduler := .scan 0 })
      else none
  | .scan i =>
      if h : i < NPROC then
        if (s.procs ⟨i, h⟩).state = .runnable then
          some (s.setCpu c { r with proc := some ⟨i, h⟩, scheduler := .switchuvm ⟨i, h⟩ })
        else some (s.setCpu c { r with scheduler := .scan (i + 1) })
      else some ({ s with lock := none }.setCpu c { r with scheduler := .idle })
  | .switchuvm p => some (s.setCpu c { r with cr3 := s.pgdir p, scheduler := .run p })
  | .run p =>
      some ({ s with procs := s.procs.set p fun q =>
                { q with state := .running, numRun := q.numRun + 1 } }.setCpu c
        { r with scheduler := .swtch p })
  | .swtch p => some (s.setCpu c { r with stack := s.kstack p, scheduler := .resumed p })
  | .resumed p => some (s.setCpu c { r with cr3 := none, scheduler := .clear p })
  | .clear p => some (s.setCpu c { r with proc := none, scheduler := .scan (p.val + 1) })

/-- A call of process `p` on CPU `c`, with the kernel stack `k`. -/
def call (c : Cpu) (k : Page) (p : Slot) : Call → Option Machine
  | .fork =>
      if s.lock = none then
        match s.procs.findUnused with
        | some np =>
            some ({ s with procs := s.procs.embryo np s.nextpid
                           nextpid := s.nextpid + 1 }.setThread k (.forkStack np))
        | none => some s
      else none
  | .exit =>
      if s.lock = none ∧ p ≠ s.initproc then
        some ({ s with procs := s.procs.exitPass p s.initproc, lock := some c }.setThread k
          (.setState .zombie .dead))
      else none
  | .wait => if s.lock = none then some ({ s with lock := some c }.setThread k .scan) else none
  | .kill pid =>
      if s.lock = none then some { s with procs := (s.procs.kill pid).2 } else none
  | .sleep a =>
      if s.lock = none then
        some ({ s with procs := s.procs.set p fun q => { q with chan := some (.addr a) }
                       lock := some c }.setThread k (.setState .sleeping .slept))
      else none
  | .wakeup a =>
      if s.lock = none then some { s with procs := s.procs.wakeup1 (some (.addr a)) } else none

/-- One round of `wait` or `waitx`: reap a zombie child, give up, or sleep. -/
def waitRound (k : Page) (p : Slot) : Machine :=
  match s.procs.findZombie p with
  | some z =>
      { (s.kfree (s.kstack z)).kfree (s.pgdir z) with
        procs := s.procs.reap z
        kstack := Function.update s.kstack z none
        lock := none }.setThread k .user
  | none =>
      if s.procs.havekids p = false ∨ (s.procs p).killed then
        { s with lock := none }.setThread k .user
      else
        { s with procs := s.procs.set p fun q => { q with chan := some (.proc p) } }.setThread k
          (.setState .sleeping .scanWake)

/-- Process `p` on CPU `c` goes on. -/
def go (c : Cpu) (k : Page) (p : Slot) (page : Option Page) : Option Machine :=
  match s.thread k with
  | .user => none
  | .forkStack np =>
      match page with
      | some j =>
          if s.pages j = none then
            some (({ s with kstack := Function.update s.kstack np (some j)
                            pages := Function.update s.pages j (some (.stack np)) }.setThread j
              .forkret).setThread k (.forkDir np))
          else none
      | none =>
          some ({ s.setState np .unused with
                  kstack := Function.update s.kstack np none }.setThread k .user)
  | .forkDir np =>
      match page with
      | some j =>
          if s.pages j = none then
            some ({ s with procs := s.procs.set np fun q => { q with parent := some p }
                           pgdir := Function.update s.pgdir np (some j)
                           pages := Function.update s.pages j (some (.dir np)) }.setThread k
              (.forkReady np))
          else none
      | none =>
          some ({ (s.kfree (s.kstack np)).setState np .unused with
                  pgdir := Function.update s.pgdir np none
                  kstack := Function.update s.kstack np none }.setThread k .user)
  | .forkReady np =>
      if s.lock = none then some ((s.setState np .runnable).setThread k .user) else none
  | .setState st k' => some ((s.setState p st).setThread k (.sched st k'))
  | .sched _ k' => some ((s.setThread k k').setCpu c { s.cpu c with stack := none })
  | .scan => some (s.waitRound k p)
  | .scanWake =>
      some ({ s with procs := s.procs.set p fun q => { q with chan := none } }.setThread k .scan)
  | .slept =>
      some ({ s with procs := s.procs.set p fun q => { q with chan := none }
                     lock := none }.setThread k .user)
  | .yielded k' => some ({ s with lock := none }.setThread k k')
  | .forkret => some ({ s with lock := none }.setThread k .user)
  | .dead => none

/-- Interrupts are on: CPU `c` is in the loop of its scheduler, or its process does
not hold `ptable.lock`. -/
def interruptible (c : Cpu) : Bool :=
  match (s.cpu c).stack with
  | none => (s.cpu c).scheduler = .idle
  | some k => !(s.thread k).locked

end Machine

/-- One step of one CPU.  The code of a process runs on the stack in use, for the
process in `c->proc`. -/
def step (s : Machine) : Act → Option Machine
  | .sched c =>
      match (s.cpu c).stack with
      | none => s.scheduler c
      | some _ => none
  | .call c x =>
      match (s.cpu c).stack, (s.cpu c).proc with
      | some k, some p => if s.thread k = .user then s.call c k p x else none
      | _, _ => none
  | .go c page =>
      match (s.cpu c).stack, (s.cpu c).proc with
      | some k, some p => s.go c k p page
      | _, _ => none
  | .yield c =>
      match (s.cpu c).stack, (s.cpu c).proc with
      | some k, some _ =>
          if (s.thread k).locked = false ∧ s.lock = none then
            some ({ s with lock := some c }.setThread k
              (.setState .runnable (.yielded (s.thread k))))
          else none
      | _, _ => none
  | .intr c a =>
      if s.interruptible c ∧ s.lock = none then
        some { s with procs := s.procs.wakeup1 (some (.addr a)) }
      else none

def switches : System Machine Act where
  init s := s = start
  step := step

/-! ## The steps one by one -/

/-- Process `p` runs on CPU `c`, on the kernel stack `k`. -/
structure Runs (s : Machine) (c : Cpu) (k : Page) (p : Slot) : Prop where
  stack : (s.cpu c).stack = some k
  proc : (s.cpu c).proc = some p

/-- The steps of a process that keeps its CPU and the pages as they are. -/
inductive Local (s : Machine) (c : Cpu) (k : Page) (p : Slot) : Machine → Prop
  | forkFull (ht : s.thread k = .user) : Local s c k p s
  | exit (ht : s.thread k = .user) (hlock : s.lock = none) :
      Local s c k p ({ s with procs := s.procs.exitPass p s.initproc, lock := some c }.setThread k
        (.setState .zombie .dead))
  | wait (ht : s.thread k = .user) (hlock : s.lock = none) :
      Local s c k p ({ s with lock := some c }.setThread k .scan)
  | sleep {a : Nat} (ht : s.thread k = .user) (hlock : s.lock = none) :
      Local s c k p ({ s with procs := s.procs.set p fun q => { q with chan := some (.addr a) }
                              lock := some c }.setThread k (.setState .sleeping .slept))
  | giveUp (ht : s.thread k = .scan) :
      Local s c k p ({ s with lock := none }.setThread k .user)
  | waitSleep (ht : s.thread k = .scan) :
      Local s c k p
        ({ s with procs := s.procs.set p fun q => { q with chan := some (.proc p) } }.setThread k
          (.setState .sleeping .scanWake))
  | scanWake (ht : s.thread k = .scanWake) :
      Local s c k p
        ({ s with procs := s.procs.set p fun q => { q with chan := none } }.setThread k .scan)
  | slept (ht : s.thread k = .slept) :
      Local s c k p
        ({ s with procs := s.procs.set p fun q => { q with chan := none }
                  lock := none }.setThread k .user)
  | resume {k' : Thread} (ht : s.thread k = .yielded k' ∨ s.thread k = .forkret ∧ k' = .user) :
      Local s c k p ({ s with lock := none }.setThread k k')
  | yield (ht : (s.thread k).locked = false) (hlock : s.lock = none) :
      Local s c k p
        ({ s with lock := some c }.setThread k (.setState .runnable (.yielded (s.thread k))))

/-- The steps. -/
inductive Move (s : Machine) : Machine → Prop
  | acquire {c : Cpu} (hstack : (s.cpu c).stack = none) (hat : (s.cpu c).scheduler = .idle)
      (hlock : s.lock = none) :
      Move s ({ s with lock := some c }.setCpu c { s.cpu c with scheduler := .scan 0 })
  | found {c : Cpu} {p : Slot} (hstack : (s.cpu c).stack = none)
      (hat : (s.cpu c).scheduler = .scan p.val) (hp : (s.procs p).state = .runnable) :
      Move s (s.setCpu c { s.cpu c with proc := some p, scheduler := .switchuvm p })
  | skip {c : Cpu} {i : Nat} (hstack : (s.cpu c).stack = none)
      (hat : (s.cpu c).scheduler = .scan i) :
      Move s (s.setCpu c { s.cpu c with scheduler := .scan (i + 1) })
  | release {c : Cpu} {i : Nat} (hstack : (s.cpu c).stack = none)
      (hat : (s.cpu c).scheduler = .scan i) :
      Move s ({ s with lock := none }.setCpu c { s.cpu c with scheduler := .idle })
  | switchuvm {c : Cpu} {p : Slot} (hstack : (s.cpu c).stack = none)
      (hat : (s.cpu c).scheduler = .switchuvm p) :
      Move s (s.setCpu c { s.cpu c with cr3 := s.pgdir p, scheduler := .run p })
  | run {c : Cpu} {p : Slot} (hstack : (s.cpu c).stack = none)
      (hat : (s.cpu c).scheduler = .run p) :
      Move s ({ s with procs := s.procs.set p fun q =>
                  { q with state := .running, numRun := q.numRun + 1 } }.setCpu c
        { s.cpu c with scheduler := .swtch p })
  | swtch {c : Cpu} {p : Slot} (hstack : (s.cpu c).stack = none)
      (hat : (s.cpu c).scheduler = .swtch p) :
      Move s (s.setCpu c { s.cpu c with stack := s.kstack p, scheduler := .resumed p })
  | switchkvm {c : Cpu} {p : Slot} (hstack : (s.cpu c).stack = none)
      (hat : (s.cpu c).scheduler = .resumed p) :
      Move s (s.setCpu c { s.cpu c with cr3 := none, scheduler := .clear p })
  | clear {c : Cpu} {p : Slot} (hstack : (s.cpu c).stack = none)
      (hat : (s.cpu c).scheduler = .clear p) :
      Move s (s.setCpu c { s.cpu c with proc := none, scheduler := .scan (p.val + 1) })
  | here {c : Cpu} {k : Page} {p : Slot} {s' : Machine} (hr : Runs s c k p)
      (hl : Local s c k p s') : Move s s'
  | kill {pid : Word} (hlock : s.lock = none) : Move s { s with procs := (s.procs.kill pid).2 }
  | wakeup {a : Nat} (hlock : s.lock = none) :
      Move s { s with procs := s.procs.wakeup1 (some (.addr a)) }
  | fork {c : Cpu} {k : Page} {p np : Slot} (hr : Runs s c k p) (ht : s.thread k = .user)
      (hlock : s.lock = none) (hnp : s.procs.findUnused = some np) :
      Move s ({ s with procs := s.procs.embryo np s.nextpid
                       nextpid := s.nextpid + 1 }.setThread k (.forkStack np))
  | forkStack {c : Cpu} {k j : Page} {p np : Slot} (hr : Runs s c k p)
      (ht : s.thread k = .forkStack np) (hj : s.pages j = none) :
      Move s (({ s with kstack := Function.update s.kstack np (some j)
                        pages := Function.update s.pages j (some (.stack np)) }.setThread j
        .forkret).setThread k (.forkDir np))
  | forkNoStack {c : Cpu} {k : Page} {p np : Slot} (hr : Runs s c k p)
      (ht : s.thread k = .forkStack np) :
      Move s ({ s.setState np .unused with
                kstack := Function.update s.kstack np none }.setThread k .user)
  | forkDir {c : Cpu} {k j : Page} {p np : Slot} (hr : Runs s c k p)
      (ht : s.thread k = .forkDir np) (hj : s.pages j = none) :
      Move s ({ s with procs := s.procs.set np fun q => { q with parent := some p }
                       pgdir := Function.update s.pgdir np (some j)
                       pages := Function.update s.pages j (some (.dir np)) }.setThread k
        (.forkReady np))
  | forkNoDir {c : Cpu} {k : Page} {p np : Slot} (hr : Runs s c k p)
      (ht : s.thread k = .forkDir np) :
      Move s ({ (s.kfree (s.kstack np)).setState np .unused with
                pgdir := Function.update s.pgdir np none
                kstack := Function.update s.kstack np none }.setThread k .user)
  | forkReady {c : Cpu} {k : Page} {p np : Slot} (hr : Runs s c k p)
      (ht : s.thread k = .forkReady np) (hlock : s.lock = none) :
      Move s ((s.setState np .runnable).setThread k .user)
  | setState {c : Cpu} {k : Page} {p : Slot} {st : ProcState} {k' : Thread} (hr : Runs s c k p)
      (ht : s.thread k = .setState st k') :
      Move s ((s.setState p st).setThread k (.sched st k'))
  | sched {c : Cpu} {k : Page} {p : Slot} {st : ProcState} {k' : Thread} (hr : Runs s c k p)
      (ht : s.thread k = .sched st k') :
      Move s ((s.setThread k k').setCpu c { s.cpu c with stack := none })
  | reap {c : Cpu} {k : Page} {p z : Slot} (hr : Runs s c k p) (ht : s.thread k = .scan)
      (hz : s.procs.findZombie p = some z) :
      Move s ({ (s.kfree (s.kstack z)).kfree (s.pgdir z) with
                procs := s.procs.reap z
                kstack := Function.update s.kstack z none
                lock := none }.setThread k .user)

section Inversion

variable {s s' : Machine} {c : Cpu} {k : Page} {p : Slot}

theorem Move.of_scheduler (hstack : (s.cpu c).stack = none) (h : s.scheduler c = some s') :
    Move s s' := by
  simp only [Machine.scheduler] at h
  split at h
  · rename_i hat
    split at h
    · rename_i hlock
      cases h
      exact .acquire hstack hat hlock
    · cases h
  · rename_i i hat
    split at h
    · rename_i hi
      split at h
      · rename_i hp
        cases h
        exact .found hstack hat hp
      · cases h
        exact .skip hstack hat
    · cases h
      exact .release hstack hat
  · rename_i hat
    cases h
    exact .switchuvm hstack hat
  · rename_i hat
    cases h
    exact .run hstack hat
  · rename_i hat
    cases h
    exact .swtch hstack hat
  · rename_i hat
    cases h
    exact .switchkvm hstack hat
  · rename_i hat
    cases h
    exact .clear hstack hat

theorem Move.of_call {x : Call} (hr : Runs s c k p) (ht : s.thread k = .user)
    (h : s.call c k p x = some s') : Move s s' := by
  cases x with
  | fork =>
      simp only [Machine.call] at h
      split at h
      · rename_i hlock
        split at h
        · rename_i np hnp
          cases h
          exact .fork hr ht hlock hnp
        · cases h
          exact .here hr (.forkFull ht)
      · cases h
  | exit =>
      simp only [Machine.call] at h
      split at h
      · rename_i hguard
        rw [Option.some.injEq] at h
        subst h
        exact .here hr (.exit ht hguard.1)
      · cases h
  | wait =>
      simp only [Machine.call] at h
      split at h
      · rename_i hlock
        cases h
        exact .here hr (.wait ht hlock)
      · cases h
  | kill pid =>
      simp only [Machine.call] at h
      split at h
      · rename_i hlock
        cases h
        exact .kill hlock
      · cases h
  | sleep a =>
      simp only [Machine.call] at h
      split at h
      · rename_i hlock
        cases h
        exact .here hr (.sleep ht hlock)
      · cases h
  | wakeup a =>
      simp only [Machine.call] at h
      split at h
      · rename_i hlock
        cases h
        exact .wakeup hlock
      · cases h

theorem Move.of_go {page : Option Page} (hr : Runs s c k p) (h : s.go c k p page = some s') :
    Move s s' := by
  unfold Machine.go at h
  split at h
  · cases h
  · rename_i np ht
    split at h
    · rename_i j
      split at h
      · rename_i hj
        cases h
        exact .forkStack hr ht hj
      · cases h
    · cases h
      exact .forkNoStack hr ht
  · rename_i np ht
    split at h
    · rename_i j
      split at h
      · rename_i hj
        cases h
        exact .forkDir hr ht hj
      · cases h
    · cases h
      exact .forkNoDir hr ht
  · rename_i np ht
    split at h
    · rename_i hlock
      cases h
      exact .forkReady hr ht hlock
    · cases h
  · rename_i st k' ht
    cases h
    exact .setState hr ht
  · rename_i st k' ht
    cases h
    exact .sched hr ht
  · rename_i ht
    unfold Machine.waitRound at h
    cases h
    split
    · rename_i z hz
      exact .reap hr ht hz
    · split
      · exact .here hr (.giveUp ht)
      · exact .here hr (.waitSleep ht)
  · rename_i ht
    cases h
    exact .here hr (.scanWake ht)
  · rename_i ht
    cases h
    exact .here hr (.slept ht)
  · rename_i k' ht
    cases h
    exact .here hr (.resume (.inl ht))
  · rename_i ht
    cases h
    exact .here hr (.resume (.inr ⟨ht, rfl⟩))
  · cases h

theorem Move.of_step {a : Act} (h : step s a = some s') : Move s s' := by
  cases a with
  | sched c =>
      simp only [step] at h
      split at h
      · rename_i hstack
        exact .of_scheduler hstack h
      · cases h
  | call c x =>
      simp only [step] at h
      split at h
      · rename_i k p hstack hproc
        split at h
        · rename_i ht
          exact .of_call ⟨hstack, hproc⟩ ht h
        · cases h
      · cases h
  | go c page =>
      simp only [step] at h
      split at h
      · rename_i k p hstack hproc
        exact .of_go ⟨hstack, hproc⟩ h
      · cases h
  | yield c =>
      simp only [step] at h
      split at h
      · rename_i k p hstack hproc
        split at h
        · rename_i hguard
          cases h
          exact .here ⟨hstack, hproc⟩ (.yield hguard.1 hguard.2)
        · cases h
      · cases h
  | intr c a =>
      simp only [step] at h
      split at h
      · rename_i hguard
        cases h
        exact .wakeup hguard.2
      · cases h

end Inversion

end OsWork.Ports.ProcSwitch

import OsWork.Ports.ProcTable
import OsWork.Verified.Transition

/-!
# The kernel around the process table

Any number of CPUs run the scheduler, the processes, the interrupts of the
devices and, on CPU 0, the timer interrupt of `ass5/final_repo`.  A step is one
critical section of `ptable.lock`, or one access where the source works without
the lock:

* `wakeup` holds the lock over one step for each slot, because the timer
  interrupt of another CPU reads the states of the slots without the lock;
* `exit` does so too (wake the parent slot by slot, pass the children on slot by
  slot, read `ticks`, compute `wait_time`, print, become ZOMBIE);
* the interrupt of a device (disk, keyboard, serial line) calls `wakeup` on any
  CPU whose interrupts are on: idle in `scheduler`, or wherever a process stands
  without `ptable.lock`;
* the scheduler holds it over the steps of `switchuvm`, which reads `ticks`
  twice and adds the difference to `rtime`; `exec` and `growproc` call the same
  function without the lock and can be preempted inside it;
* `increment_times` visits the slots one after the other, with the test of the
  state, the load and the store of the counter as separate steps.

A process that gives up its CPU in `sched` leaves the lock to the scheduler of
that CPU and gets it back from the scheduler that resumes it.

The scans of `kill`, `fork`, `wait` and `scheduler`, and the `wakeup` of the
timer interrupt, are one step: what they write is one slot, or (the `wakeup`) is
read by nobody but the timer interrupt itself without the lock.

Only `ptable.lock` is modelled.  The other spinlocks would rule out some of the
interleavings below and add none.
-/

namespace OsWork.Ports.ProcTable

open OsWork.Verified.Transition

/-- An index into `cpus`. -/
abbrev Cpu := Nat

/-! ## Positions -/

/-- Where a process stands in the kernel. -/
inductive KPc
  /-- user code, or kernel code that does not touch the process table -/
  | user
  /-- `fork` after the locked part of `allocproc`: `kalloc` is next -/
  | forkStack (np : Slot)
  | forkTimes (np : Slot)
  /-- `p->wait_time = ticks - p->ctime` -/
  | forkWait (np : Slot)
  /-- `copyuvm` is next -/
  | forkCopy (np : Slot)
  | forkParent (np : Slot)
  /-- the critical section that makes the child RUNNABLE -/
  | forkReady (np : Slot)
  /-- `wakeup` of the address `a` is at slot `i`; `k` is what the call, or the
  interrupt of a device that made it, goes on with -/
  | wakes (a i : Nat) (k : KPc)
  /-- `exit`: `wakeup1(curproc->parent)` is at slot `i` -/
  | exitWake (i : Nat)
  /-- the loop that passes abandoned children to init is at slot `i` -/
  | exitPass (i : Nat)
  /-- `wakeup1(initproc)` for the zombie in slot `n` is at slot `i` -/
  | exitPassWake (n i : Nat)
  /-- `curproc->etime = ticks` -/
  | exitTime
  | exitWait
  | exitPrint
  | exitZombie
  /-- head of the loop of `wait` (or of `waitx`) -/
  | scan (x : Bool)
  /-- resumed in the `sleep` of `wait` (or of `waitx`) -/
  | scanWake (x : Bool)
  /-- resumed in a `sleep` with another lock -/
  | slept
  /-- resumed in `yield`; `k` is what the timer interrupt interrupted -/
  | yielded (k : KPc)
  | forkret
  /-- `switchuvm` for `exec` or `growproc`: `start_time` has been read -/
  | uvm (startTime : Word)
  | uvmLoad (runTime : Word)
  | uvmStore (v : Word)
  /-- no longer a process -/
  | dead
  deriving DecidableEq, Repr

/-- The process holds `ptable.lock` at this position. -/
def KPc.locked : KPc → Bool
  | .wakes _ _ _ | .exitWake _ | .exitPass _ | .exitPassWake _ _ | .exitTime | .exitWait
  | .exitPrint | .exitZombie | .scan _ | .scanWake _ | .slept | .yielded _ | .forkret => true
  | _ => false

/-- Where the scheduler of a CPU stands. -/
inductive CpuPc
  /-- `for(;;)`: interrupts are on -/
  | idle
  /-- the scan has reached slot `k` -/
  | scan (k : Nat)
  /-- `switchuvm(p)`: `start_time` has been read -/
  | uvm (p : Slot) (startTime : Word)
  | uvmLoad (p : Slot) (runTime : Word)
  | uvmStore (p : Slot) (v : Word)
  /-- `p->state = RUNNING; p->num_run++; swtch` -/
  | dispatch (p : Slot)
  | run (p : Slot)
  /-- the interrupt of a device, at an idle CPU: its `wakeup` is at slot `i` -/
  | wakes (a i : Nat)
  deriving DecidableEq, Repr

/-- Where the timer interrupt of CPU 0 stands; `i` is the slot
`increment_times` looks at. -/
inductive TimerPc
  | idle
  /-- `p->state == RUNNING` -/
  | running (i : Nat)
  /-- `p->state == RUNNABLE` -/
  | runnable (i : Nat)
  /-- `p->rtime++` -/
  | rtimeLoad (i : Nat)
  | rtimeStore (i : Nat) (v : Word)
  /-- `p->time_in_queues++` -/
  | queueLoad (i : Nat)
  | queueStore (i : Nat) (v : Word)
  /-- `wakeup(&ticks)` -/
  | wakeup
  deriving DecidableEq, Repr

/-- The number of CPUs. -/
structure Params where
  ncpu : Nat

structure State where
  procs : Table
  nextpid : Word
  initproc : Slot
  ticks : Word
  /-- the CPU that holds `ptable.lock` -/
  lock : Option Cpu
  kpc : Slot → KPc
  cpu : Cpu → CpuPc
  timer : TimerPc
  /-- what `*wtime` and `*rtime` of the caller's last `waitx` hold -/
  waitxOut : Slot → Option (Word × Word)

/-- `&ptable.proc[0]`, which `userinit` allocates for init. -/
def slot0 : Slot := ⟨0, by decide⟩

/-- The state `userinit` leaves: `initproc` is RUNNABLE, no tick has come. -/
def start : State where
  procs := Table.set (fun _ => Proc.zero) slot0 fun p =>
    { p with state := .runnable, pid := 1, etime := -1 }
  nextpid := 2
  initproc := slot0
  ticks := 0
  lock := none
  kpc := Function.update (fun _ => .dead) slot0 .forkret
  cpu := fun _ => .idle
  timer := .idle
  waitxOut := fun _ => none

/-! ## Labels -/

/-- What a process in `KPc.user` does next. -/
inductive Call
  | fork
  /-- `forced`: from one of the tests of `myproc()->killed` in `trap` -/
  | exit (forced : Bool)
  | wait
  | waitx
  | kill (pid : Word)
  /-- `sleep` with a lock other than `ptable.lock` -/
  | sleep (a : Nat)
  | wakeup (a : Nat)
  /-- `exec` or `growproc` -/
  | switchuvm
  /-- the default case of `trap`: `myproc()->killed = 1` -/
  | fault
  deriving DecidableEq, Repr

/-- Who takes the next step. -/
inductive Act
  /-- the scheduler of CPU `c` -/
  | sched (c : Cpu)
  /-- the process on CPU `c` makes a call -/
  | call (c : Cpu) (x : Call)
  /-- the process on CPU `c` goes on; `ok`: `kalloc` or `copyuvm` succeeds -/
  | go (c : Cpu) (ok : Bool)
  /-- a timer interrupt makes the process on CPU `c` yield -/
  | yield (c : Cpu)
  /-- the interrupt of a device at CPU `c` calls `wakeup` -/
  | intr (c : Cpu) (a : Nat)
  /-- the timer interrupt of CPU 0: `ticks++` -/
  | tick
  /-- the timer interrupt of CPU 0 goes on -/
  | timer
  deriving DecidableEq, Repr

namespace State

variable (s : State)

def setProc (i : Slot) (f : Proc → Proc) : State := { s with procs := s.procs.set i f }

def setPc (p : Slot) (k : KPc) : State := { s with kpc := Function.update s.kpc p k }

def setCpu (c : Cpu) (k : CpuPc) : State := { s with cpu := Function.update s.cpu c k }

/-- `acquire(&ptable.lock)` has succeeded on CPU `c`. -/
def acquire (c : Cpu) : State := { s with lock := some c }

/-- `release(&ptable.lock)`. -/
def release : State := { s with lock := none }

/-- `sched`: process `p` on CPU `c` is in state `st` and will go on at `k`; the
scheduler goes on with the next slot. -/
def leave (c : Cpu) (p : Slot) (st : ProcState) (k : KPc) : State :=
  (((s.setProc p fun q => { q with state := st }).setPc p k).setCpu c
    (.scan (p.val + 1)))

section Fields

variable (i p : Slot) (f : Proc → Proc) (k : KPc) (c : Cpu) (m : CpuPc)

@[simp] theorem setProc_procs : (s.setProc i f).procs = s.procs.set i f := rfl
@[simp] theorem setProc_kpc : (s.setProc i f).kpc = s.kpc := rfl
@[simp] theorem setProc_cpu : (s.setProc i f).cpu = s.cpu := rfl
@[simp] theorem setProc_lock : (s.setProc i f).lock = s.lock := rfl
@[simp] theorem setProc_initproc : (s.setProc i f).initproc = s.initproc := rfl
@[simp] theorem setProc_ticks : (s.setProc i f).ticks = s.ticks := rfl
@[simp] theorem setProc_timer : (s.setProc i f).timer = s.timer := rfl

@[simp] theorem setPc_procs : (s.setPc p k).procs = s.procs := rfl
@[simp] theorem setPc_kpc : (s.setPc p k).kpc = Function.update s.kpc p k := rfl
@[simp] theorem setPc_cpu : (s.setPc p k).cpu = s.cpu := rfl
@[simp] theorem setPc_lock : (s.setPc p k).lock = s.lock := rfl
@[simp] theorem setPc_initproc : (s.setPc p k).initproc = s.initproc := rfl
@[simp] theorem setPc_ticks : (s.setPc p k).ticks = s.ticks := rfl
@[simp] theorem setPc_timer : (s.setPc p k).timer = s.timer := rfl

@[simp] theorem setCpu_procs : (s.setCpu c m).procs = s.procs := rfl
@[simp] theorem setCpu_kpc : (s.setCpu c m).kpc = s.kpc := rfl
@[simp] theorem setCpu_cpu : (s.setCpu c m).cpu = Function.update s.cpu c m := rfl
@[simp] theorem setCpu_lock : (s.setCpu c m).lock = s.lock := rfl
@[simp] theorem setCpu_initproc : (s.setCpu c m).initproc = s.initproc := rfl
@[simp] theorem setCpu_ticks : (s.setCpu c m).ticks = s.ticks := rfl
@[simp] theorem setCpu_timer : (s.setCpu c m).timer = s.timer := rfl

@[simp] theorem acquire_procs : (s.acquire c).procs = s.procs := rfl
@[simp] theorem acquire_kpc : (s.acquire c).kpc = s.kpc := rfl
@[simp] theorem acquire_cpu : (s.acquire c).cpu = s.cpu := rfl
@[simp] theorem acquire_lock : (s.acquire c).lock = some c := rfl
@[simp] theorem acquire_initproc : (s.acquire c).initproc = s.initproc := rfl
@[simp] theorem acquire_ticks : (s.acquire c).ticks = s.ticks := rfl
@[simp] theorem acquire_timer : (s.acquire c).timer = s.timer := rfl

@[simp] theorem release_procs : s.release.procs = s.procs := rfl
@[simp] theorem release_kpc : s.release.kpc = s.kpc := rfl
@[simp] theorem release_cpu : s.release.cpu = s.cpu := rfl
@[simp] theorem release_lock : s.release.lock = none := rfl
@[simp] theorem release_initproc : s.release.initproc = s.initproc := rfl
@[simp] theorem release_ticks : s.release.ticks = s.ticks := rfl
@[simp] theorem release_timer : s.release.timer = s.timer := rfl

variable (st : ProcState)

@[simp] theorem leave_procs :
    (s.leave c p st k).procs = s.procs.set p fun q => { q with state := st } := rfl
@[simp] theorem leave_kpc : (s.leave c p st k).kpc = Function.update s.kpc p k := rfl
@[simp] theorem leave_cpu :
    (s.leave c p st k).cpu = Function.update s.cpu c (.scan (p.val + 1)) := rfl
@[simp] theorem leave_lock : (s.leave c p st k).lock = s.lock := rfl
@[simp] theorem leave_initproc : (s.leave c p st k).initproc = s.initproc := rfl
@[simp] theorem leave_ticks : (s.leave c p st k).ticks = s.ticks := rfl
@[simp] theorem leave_timer : (s.leave c p st k).timer = s.timer := rfl

end Fields

/-! ## The scheduler -/

/-- The first RUNNABLE slot from `k` on. -/
def findRunnable (k : Nat) : Option Slot :=
  (List.finRange NPROC).find? fun i => k ≤ i.val && (s.procs i).state == .runnable

/-- `scheduler` with its call of `switchuvm`. -/
def scheduler (c : Cpu) : Option State :=
  match s.cpu c with
  | .idle => if s.lock = none then some ((s.acquire c).setCpu c (.scan 0)) else none
  | .scan k =>
      match s.findRunnable k with
      | some p => some (s.setCpu c (.uvm p s.ticks))
      | none => some (s.release.setCpu c .idle)
  | .uvm p startTime => some (s.setCpu c (.uvmLoad p (s.ticks - startTime)))
  | .uvmLoad p runTime => some (s.setCpu c (.uvmStore p ((s.procs p).rtime + runTime)))
  | .uvmStore p v =>
      some ((s.setProc p fun q => { q with rtime := v }).setCpu c (.dispatch p))
  | .dispatch p =>
      some ((s.setProc p fun q => { q with state := .running, numRun := q.numRun + 1 }).setCpu c
        (.run p))
  | .run _ => none
  | .wakes a i =>
      if h : i < NPROC then
        some ({ s with procs := s.procs.wakeSlot (some (.addr a)) ⟨i, h⟩ }.setCpu c
          (.wakes a (i + 1)))
      else some (s.release.setCpu c .idle)

/-! ## The processes -/

/-- `wakeup` of process `p` on CPU `c`, or of the interrupt that it is in. -/
def beginWakeup (c : Cpu) (p : Slot) (a : Nat) : Option State :=
  if s.lock = none then some ((s.acquire c).setPc p (.wakes a 0 (s.kpc p))) else none

/-- A call of process `p` on CPU `c`. -/
def call (c : Cpu) (p : Slot) : Call → Option State
  | .fork =>
      if s.lock = none then
        match s.procs.findUnused with
        | some np =>
            some ({ s with procs := s.procs.embryo np s.nextpid
                           nextpid := s.nextpid + 1 }.setPc p (.forkStack np))
        | none => some s
      else none
  | .exit forced =>
      if s.lock = none ∧ p ≠ s.initproc ∧ (forced → (s.procs p).killed) then
        some ((s.acquire c).setPc p (.exitWake 0))
      else none
  | .wait => if s.lock = none then some ((s.acquire c).setPc p (.scan false)) else none
  | .waitx => if s.lock = none then some ((s.acquire c).setPc p (.scan true)) else none
  | .kill pid =>
      if s.lock = none then some { s with procs := (s.procs.kill pid).2 } else none
  | .sleep a =>
      if s.lock = none then
        some (((s.acquire c).setProc p fun q => { q with chan := some (.addr a) }).leave c p
          .sleeping .slept)
      else none
  | .wakeup a => s.beginWakeup c p a
  | .switchuvm => some (s.setPc p (.uvm s.ticks))
  | .fault => some (s.setProc p fun q => { q with killed := true })

/-- One round of `wait` (or of `waitx`): reap a zombie child, give up, or
sleep. -/
def waitRound (c : Cpu) (p : Slot) (x : Bool) : State :=
  match s.procs.findZombie p with
  | some z =>
      let out := if x then
          Function.update s.waitxOut p
            (some ((s.procs z).waitxTime s.ticks, (s.procs z).rtime))
        else s.waitxOut
      ({ s with procs := s.procs.reap z, waitxOut := out }.release.setPc p .user)
  | none =>
      if s.procs.havekids p = false ∨ (s.procs p).killed then s.release.setPc p .user
      else
        (s.setProc p fun q => { q with chan := some (.proc p) }).leave c p .sleeping
          (.scanWake x)

/-- `wakeup1` comes to slot `i`: `k` is the position of the next slot, `done` the
state behind the loop. -/
def wakeRound (p : Slot) (chan : Option Chan) (i : Nat) (k : KPc) (done : State) : State :=
  if h : i < NPROC then { s with procs := s.procs.wakeSlot chan ⟨i, h⟩ }.setPc p k else done

/-- `exit` comes to slot `i` in the loop that passes children to init. -/
def passRound (p : Slot) (i : Nat) : State :=
  if h : i < NPROC then
    if (s.procs ⟨i, h⟩).parent = some p then
      (s.setProc ⟨i, h⟩ fun q => { q with parent := some s.initproc }).setPc p
        (if (s.procs ⟨i, h⟩).state = .zombie then .exitPassWake i 0 else .exitPass (i + 1))
    else s.setPc p (.exitPass (i + 1))
  else s.setPc p .exitTime

/-- Process `p` on CPU `c` goes on. -/
def go (c : Cpu) (p : Slot) (ok : Bool) : Option State :=
  match s.kpc p with
  | .user => none
  | .forkStack np =>
      if ok then some (s.setPc p (.forkTimes np))
      else some ((s.setProc np fun q => { q with state := .unused }).setPc p .user)
  | .forkTimes np =>
      some ({ s with procs := s.procs.initTimes np s.ticks }.setPc p (.forkWait np))
  | .forkWait np =>
      some ((s.setProc np fun q => { q with waitTime := s.ticks - q.ctime }).setPc p
        (.forkCopy np))
  | .forkCopy np =>
      if ok then some (s.setPc p (.forkParent np))
      else some ((s.setProc np fun q => { q with state := .unused }).setPc p .user)
  | .forkParent np =>
      some ((s.setProc np fun q => { q with parent := some p }).setPc p (.forkReady np))
  | .forkReady np =>
      if s.lock = none then
        some (((s.setProc np fun q => { q with state := .runnable }).setPc np .forkret).setPc p
          .user)
      else none
  | .wakes a i k =>
      some (s.wakeRound p (some (.addr a)) i (.wakes a (i + 1) k) (s.release.setPc p k))
  | .exitWake i =>
      some (s.wakeRound p ((s.procs p).parent.map .proc) i (.exitWake (i + 1))
        (s.setPc p (.exitPass 0)))
  | .exitPass i => some (s.passRound p i)
  | .exitPassWake n i =>
      some (s.wakeRound p (some (.proc s.initproc)) i (.exitPassWake n (i + 1))
        (s.setPc p (.exitPass (n + 1))))
  | .exitTime =>
      some ((s.setProc p fun q => { q with etime := s.ticks }).setPc p .exitWait)
  | .exitWait =>
      some ((s.setProc p fun q => { q with waitTime := q.etime - q.ctime - q.rtime }).setPc p
        .exitPrint)
  | .exitPrint => some (s.setPc p .exitZombie)
  | .exitZombie => some (s.leave c p .zombie .dead)
  | .scan x => some (s.waitRound c p x)
  | .scanWake x => some ((s.setProc p fun q => { q with chan := none }).setPc p (.scan x))
  | .slept => some ((s.setProc p fun q => { q with chan := none }).release.setPc p .user)
  | .yielded k => some (s.release.setPc p k)
  | .forkret => some (s.release.setPc p .user)
  | .uvm startTime => some (s.setPc p (.uvmLoad (s.ticks - startTime)))
  | .uvmLoad runTime => some (s.setPc p (.uvmStore ((s.procs p).rtime + runTime)))
  | .uvmStore v => some ((s.setProc p fun q => { q with rtime := v }).setPc p .user)
  | .dead => none

/-- `yield`. -/
def yield (c : Cpu) (p : Slot) : Option State :=
  if (s.kpc p).locked = false ∧ s.lock = none then
    some ((s.acquire c).leave c p .runnable (.yielded (s.kpc p)))
  else none

/-- The interrupt of a device at CPU `c`, whose handler calls `wakeup`. -/
def intr (c : Cpu) (a : Nat) : Option State :=
  match s.cpu c with
  | .idle => if s.lock = none then some ((s.acquire c).setCpu c (.wakes a 0)) else none
  | .run p => if (s.kpc p).locked = false then s.beginWakeup c p a else none
  | _ => none

/-! ## The timer interrupt -/

/-- `increment_times` and the `wakeup` after it, one access at a time. -/
def timerStep : Option State :=
  match s.timer with
  | .idle => none
  | .running i =>
      if h : i < NPROC then
        if (s.procs ⟨i, h⟩).state = .running then some { s with timer := .rtimeLoad i }
        else some { s with timer := .runnable i }
      else some { s with timer := .wakeup }
  | .runnable i =>
      if h : i < NPROC then
        if (s.procs ⟨i, h⟩).state = .runnable then some { s with timer := .queueLoad i }
        else some { s with timer := .running (i + 1) }
      else none
  | .rtimeLoad i =>
      if h : i < NPROC then some { s with timer := .rtimeStore i (s.procs ⟨i, h⟩).rtime }
      else none
  | .rtimeStore i v =>
      if h : i < NPROC then
        some { s.setProc ⟨i, h⟩ fun p => { p with rtime := v + 1 } with
               timer := .running (i + 1) }
      else none
  | .queueLoad i =>
      if h : i < NPROC then
        some { s with timer := .queueStore i (s.procs ⟨i, h⟩).timeInQueues }
      else none
  | .queueStore i v =>
      if h : i < NPROC then
        some { s.setProc ⟨i, h⟩ fun p => { p with timeInQueues := v + 1 } with
               timer := .running (i + 1) }
      else none
  | .wakeup =>
      if s.lock = none then
        some { s with procs := s.procs.wakeup1 (some ticksChan), timer := .idle }
      else none

end State

/-- While the timer interrupt is being handled, CPU 0 does nothing else. -/
def State.cpuFree (s : State) (c : Cpu) : Prop := c ≠ 0 ∨ s.timer = .idle

instance (s : State) (c : Cpu) : Decidable (s.cpuFree c) :=
  inferInstanceAs (Decidable (_ ∨ _))

/-- One step of one CPU.  Interrupts of CPU 0 are off while it holds
`ptable.lock`. -/
def step (P : Params) (s : State) : Act → Option State
  | .sched c => if c < P.ncpu ∧ s.cpuFree c then s.scheduler c else none
  | .call c x =>
      if c < P.ncpu ∧ s.cpuFree c then
        match s.cpu c with
        | .run p => if s.kpc p = .user then s.call c p x else none
        | _ => none
      else none
  | .go c ok =>
      if c < P.ncpu ∧ s.cpuFree c then
        match s.cpu c with
        | .run p => s.go c p ok
        | _ => none
      else none
  | .yield c =>
      if c < P.ncpu ∧ s.cpuFree c then
        match s.cpu c with
        | .run p => s.yield c p
        | _ => none
      else none
  | .intr c a => if c < P.ncpu ∧ s.cpuFree c then s.intr c a else none
  | .tick =>
      if 0 < P.ncpu ∧ s.timer = .idle ∧ s.lock ≠ some 0 then
        some { s with ticks := s.ticks + 1, timer := .running 0 }
      else none
  | .timer => s.timerStep

/-- The kernel with `P.ncpu` CPUs. -/
def kernel (P : Params) : System State Act where
  init s := s = start
  step := step P

end OsWork.Ports.ProcTable

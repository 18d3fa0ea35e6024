import OsWork.Ports.KernelLocks
import OsWork.Verified.Transition
import Mathlib.Logic.Function.Basic

/-!
# Spin locks and the interrupt flag

`spinlock.c` under `ass5/final_repo`, instruction by instruction, with `sched` and
`scheduler` of `proc.c`, on any number of CPUs.  An interrupt comes to a CPU whenever
its interrupt flag is set, in the middle of `acquire` as well; a thread that gives its
CPU up in `sched` may go on on another.

The rest of the kernel is free to call these functions in any order, wrong ones
included.  The one thing asked of it is that a trap handler does not return, and that
`main` does not call `scheduler`, between `pushcli` and `popcli` (`Clean`); the lock
skeletons of `KernelLocks` do not.

Reads and writes take effect at once (`__sync_synchronize`).  Whether the process that
calls `sched` has left its state `RUNNING` is an argument of the call.  Left out are the
debugging fields of a lock and the loop of `mycpu` over the CPUs.
-/

namespace OsWork.Ports.SpinLocks

open OsWork.Verified.Transition
open OsWork.Ports.KernelLocks (Lock)
open Function (update)

/-! ## The source -/

/-- `struct spinlock`. -/
structure Spinlock (C : Type) where
  locked : Bool
  cpu : Option C

/-- The fields of `struct cpu` that are used here, and the interrupt flag. -/
structure Cpu where
  ncli : Int
  intena : Bool
  fl_if : Bool

/-- What a CPU does between two points at which others, or an interrupt, can come in. -/
inductive Op
  /-- `eflags = readeflags()` -/
  | readeflags
  | cli
  /-- `if(ncli == 0) intena = eflags & FL_IF; ncli += 1` -/
  | count
  /-- `if(readeflags()&FL_IF) panic(msg)` -/
  | interruptible (msg : String)
  /-- `if(--ncli < 0) panic("popcli"); if(ncli == 0 && intena) sti()` -/
  | uncount
  /-- `r = lock->locked` -/
  | locked (l : Lock)
  /-- `r = r && lock->cpu == mycpu()` -/
  | cpu (l : Lock)
  /-- `if(r) panic(msg)`, where `r` is what `holding(l)` returned -/
  | panicIf (l : Lock) (msg : String)
  | panicUnless (l : Lock) (msg : String)
  /-- one round of `while(xchg(&lk->locked, 1) != 0)` -/
  | xchg (l : Lock)
  | setcpu (l : Lock)
  | clearcpu (l : Lock)
  /-- `lk->locked = 0` -/
  | unlock (l : Lock)
  /-- `if(mycpu()->ncli != 1) panic("sched locks")` -/
  | ncliOne
  /-- `if(p->state == RUNNING) panic("sched running")` -/
  | running (b : Bool)
  /-- `intena = mycpu()->intena` -/
  | save
  /-- `swtch(&p->context, mycpu()->scheduler)` -/
  | swtch
  /-- `mycpu()->intena = intena` -/
  | load
  | sti
  /-- the scan of the process table: it ends, or comes to a process -/
  | scan
  /-- `swtch(&(c->scheduler), p->context)` -/
  | resume
  deriving DecidableEq

def pushcli : List Op := [.readeflags, .cli, .count]

def popcli : List Op := [.interruptible "popcli - interruptible", .uncount]

def holding (l : Lock) : List Op := pushcli ++ [.locked l, .cpu l] ++ popcli

def acquire (l : Lock) : List Op :=
  pushcli ++ holding l ++ [.panicIf l "acquire", .xchg l, .setcpu l]

def release (l : Lock) : List Op :=
  holding l ++ [.panicUnless l "release", .clearcpu l, .unlock l] ++ popcli

/-- `pushcli`, some use of `mycpu()`, `popcli`. -/
def myproc : List Op := pushcli ++ popcli

def switchuvm : List Op := pushcli ++ popcli

/-- `running` says whether `p->state` is `RUNNING`. -/
def sched (running : Bool) : List Op :=
  myproc ++ holding .ptable ++
    [.panicUnless .ptable "sched ptable.lock", .ncliOne, .running running,
      .interruptible "sched interruptible", .save, .swtch, .load]

/-- One round of the endless loop, up to the scan. -/
def scheduler : List Op := .sti :: acquire .ptable ++ [.scan]

/-- What the kernel calls. -/
inductive Fn
  | acquire (l : Lock)
  | release (l : Lock)
  | holding (l : Lock)
  | myproc
  | switchuvm
  | sched (running : Bool)
  deriving DecidableEq

def Fn.ops : Fn → List Op
  | .acquire l => SpinLocks.acquire l
  | .release l => SpinLocks.release l
  | .holding l => SpinLocks.holding l
  | .myproc => SpinLocks.myproc
  | .switchuvm => SpinLocks.switchuvm
  | .sched running => SpinLocks.sched running

/-- It is a process that calls `sched`. -/
def Fn.byProc : Fn → Bool
  | .sched _ => true
  | _ => false

/-! ## Kernel stacks -/

/-- How the kernel code at the bottom of a frame was entered. -/
inductive Kind
  /-- `main` or `mpmain`, with interrupts off -/
  | boot
  | scheduler
  /-- the first time a process runs; `trapret` follows -/
  | forkret
  /-- through an interrupt gate, which clears the flag -/
  | interrupt
  /-- through the trap gate of `T_SYSCALL`, which leaves it -/
  | syscall
  deriving DecidableEq

/-- The interrupt flag on entry; `none` where it depends on who ran before. -/
def Kind.flag : Kind → Option Bool
  | .boot | .interrupt => some false
  | .syscall => some true
  | .scheduler | .forkret => none

/-- The kernel code above one trap frame: what is left of the function it is in, with
the locals of `pushcli`, `holding` and `sched`. -/
structure Frame where
  kind : Kind
  /-- the interrupt flag in the trap frame -/
  saved : Bool
  ops : List Op
  eflags : Bool
  r : Bool
  intena : Bool

def Frame.enter (kind : Kind) (saved : Bool) (ops : List Op) : Frame :=
  { kind, saved, ops, eflags := false, r := false, intena := false }

structure State (C : Type) where
  lock : Lock → Spinlock C
  cpu : C → Cpu
  /-- the stack `main` or `mpmain` runs on, later the scheduler -/
  sched : C → List Frame
  /-- the kernel stack of `c->proc`, newest frame first; empty in user mode -/
  proc : C → Option (List Frame)
  /-- the kernel stacks of the other processes -/
  parked : List (List Frame)
  /-- the message of `panic` -/
  panicked : C → Option String

variable {C : Type} [DecidableEq C]

namespace State

/-- The stack the CPU runs on. -/
def stack (s : State C) (c : C) : List Frame := (s.proc c).getD (s.sched c)

def setStack (s : State C) (c : C) (st : List Frame) : State C :=
  match s.proc c with
  | some _ => { s with proc := update s.proc c (some st) }
  | none => { s with sched := update s.sched c st }

/-- `panic` turns interrupts off and stops the CPU. -/
def panic (s : State C) (c : C) (msg : String) : State C :=
  { s with
    cpu := update s.cpu c { s.cpu c with fl_if := false }
    panicked := update s.panicked c (some msg) }

/-- What the CPU does next. -/
def next (s : State C) (c : C) : Option Op := (s.stack c).head?.bind (·.ops.head?)

end State

/-! ## One step -/

/-- `mycpu()`, and what is done with it. -/
def mycpu {α : Type} (x : Cpu) (res : α) : Except String α :=
  if x.fl_if then .error "mycpu called with interrupts enabled\n" else .ok res

/-- One instruction of the functions above, but for those that change stacks: the locks,
the CPU and the frame after it. -/
def Op.run (c : C) (lk : Lock → Spinlock C) (x : Cpu) (f : Frame) (k : List Op) :
    Op → Except String ((Lock → Spinlock C) × Cpu × Frame)
  | .readeflags => .ok (lk, x, { f with ops := k, eflags := x.fl_if })
  | .cli => .ok (lk, { x with fl_if := false }, { f with ops := k })
  | .count =>
      mycpu x (lk,
        { x with
          ncli := x.ncli + 1
          intena := if x.ncli = 0 then f.eflags else x.intena },
        { f with ops := k })
  | .interruptible msg =>
      if x.fl_if then .error msg else .ok (lk, x, { f with ops := k })
  | .uncount =>
      if x.fl_if then .error "mycpu called with interrupts enabled\n"
      else if x.ncli - 1 < 0 then .error "popcli"
      else
        .ok (lk,
          { x with
            ncli := x.ncli - 1
            fl_if := decide (x.ncli - 1 = 0) && x.intena },
          { f with ops := k })
  | .locked l => .ok (lk, x, { f with ops := k, r := (lk l).locked })
  | .cpu l => mycpu x (lk, x, { f with ops := k, r := f.r && decide ((lk l).cpu = some c) })
  | .panicIf _ msg => if f.r then .error msg else .ok (lk, x, { f with ops := k })
  | .panicUnless _ msg => if f.r then .ok (lk, x, { f with ops := k }) else .error msg
  | .xchg l =>
      if (lk l).locked then .ok (lk, x, f)
      else .ok (update lk l { lk l with locked := true }, x, { f with ops := k })
  | .setcpu l =>
      mycpu x (update lk l { lk l with cpu := some c }, x, { f with ops := k })
  | .clearcpu l => .ok (update lk l { lk l with cpu := none }, x, { f with ops := k })
  | .unlock l => .ok (update lk l { lk l with locked := false }, x, { f with ops := k })
  | .ncliOne =>
      if x.fl_if then .error "mycpu called with interrupts enabled\n"
      else if x.ncli = 1 then .ok (lk, x, { f with ops := k })
      else .error "sched locks"
  | .running b => if b then .error "sched running" else .ok (lk, x, { f with ops := k })
  | .save => mycpu x (lk, x, { f with ops := k, intena := x.intena })
  | .load => mycpu x (lk, { x with intena := f.intena }, { f with ops := k })
  | .sti => .ok (lk, { x with fl_if := true }, { f with ops := k })
  | .swtch | .scan | .resume => .ok (lk, x, f)

inductive Act (C : Type)
  /-- the next instruction; `pick` says what the scan of the process table finds, and
  which process is resumed -/
  | exec (c : C) (pick : Nat)
  /-- the kernel code on the CPU calls a function -/
  | call (c : C) (fn : Fn)
  /-- an interrupt, or a fault in user mode -/
  | intr (c : C)
  | syscall (c : C)
  /-- `trapret` -/
  | trapret (c : C)
  /-- `fork` or `userinit` -/
  | fork (c : C)
  /-- the end of `main` or `mpmain` -/
  | scheduler (c : C)

/-- A new process goes on in `forkret`, which releases the lock of the scheduler. -/
def newborn : List Frame := [.enter .forkret true (release .ptable)]

namespace State

/-- The next instruction of CPU `c`. -/
def exec (s : State C) (c : C) (pick : Nat) : Option (State C) :=
  match s.stack c with
  | [] => none
  | f :: rest =>
      match f.ops with
      | [] => none
      | .swtch :: k =>
          match s.proc c with
          | none => none
          | some _ =>
              some { s with
                proc := update s.proc c none
                parked := s.parked ++ [{ f with ops := k } :: rest] }
      | .scan :: _ =>
          some (s.setStack c ({ f with
            ops := if pick = 0 then release .ptable ++ SpinLocks.scheduler
              else SpinLocks.switchuvm ++ [.resume, .scan] } :: rest))
      | .resume :: k =>
          match s.proc c, s.parked[pick]? with
          | none, some st =>
              some { s with
                sched := update s.sched c ({ f with ops := k } :: rest)
                proc := update s.proc c (some st)
                parked := s.parked.eraseIdx pick }
          | _, _ => none
      | op :: k =>
          match op.run c s.lock (s.cpu c) f k with
          | .ok (lk, x, f') =>
              some ({ s with lock := lk, cpu := update s.cpu c x }.setStack c (f' :: rest))
          | .error msg => some (s.panic c msg)

/-- The kernel code is between two calls. -/
def idle (s : State C) (c : C) : Option (Frame × List Frame) :=
  match s.stack c with
  | f :: rest => if f.ops = [] then some (f, rest) else none
  | [] => none

/-- A CPU takes a trap through a gate of the given kind. -/
def trap (s : State C) (c : C) (kind : Kind) : State C :=
  { s with
    cpu := update s.cpu c
      { s.cpu c with fl_if := (s.cpu c).fl_if && decide (kind = Kind.syscall) } }.setStack c
    (.enter kind (s.cpu c).fl_if [] :: s.stack c)

def step (s : State C) : Act C → Option (State C)
  | .exec c pick => if s.panicked c = none then s.exec c pick else none
  | .call c fn =>
      match s.panicked c, s.idle c with
      | none, some (f, rest) =>
          if fn.byProc ∧ (s.proc c).isNone then none
          else some (s.setStack c ({ f with ops := fn.ops } :: rest))
      | _, _ => none
  | .intr c =>
      if s.panicked c = none ∧ (s.cpu c).fl_if then some (s.trap c .interrupt) else none
  | .syscall c =>
      match s.panicked c, s.proc c with
      | none, some [] => some (s.trap c .syscall)
      | _, _ => none
  | .trapret c =>
      match s.panicked c, s.idle c with
      | none, some (f, rest) =>
          if f.kind = .boot ∨ f.kind = .scheduler then none
          else
            some ({ s with
              cpu := update s.cpu c { s.cpu c with fl_if := f.saved } }.setStack c rest)
      | _, _ => none
  | .fork c =>
      match s.panicked c, s.idle c with
      | none, some _ => some { s with parked := s.parked ++ [newborn] }
      | _, _ => none
  | .scheduler c =>
      match s.panicked c, s.idle c with
      | none, some (f, rest) =>
          if f.kind = .boot then
            some (s.setStack c
              ({ f with kind := .scheduler, ops := SpinLocks.scheduler } :: rest))
          else none
      | _, _ => none

end State

/-- No lock is taken; every CPU is about to boot, with interrupts off. -/
def start : State C where
  lock _ := { locked := false, cpu := none }
  cpu _ := { ncli := 0, intena := false, fl_if := false }
  sched _ := [.enter .boot false []]
  proc _ := none
  parked := []
  panicked _ := none

def system : System (State C) (Act C) where
  init s := s = start
  step := State.step

/-- A trap handler returns, and a CPU enters `scheduler`, outside of every
`pushcli`. -/
def Clean (s : State C) : Act C → Prop
  | .trapret c | .scheduler c => (s.cpu c).ncli = 0
  | _ => True

instance (s : State C) : ∀ a, Decidable (Clean s a)
  | .trapret _ | .scheduler _ => inferInstanceAs (Decidable (_ = _))
  | .exec _ _ | .call _ _ | .intr _ | .syscall _ | .fork _ => isTrue trivial

/-- CPU `c` has taken the lock and not given it back: the lock names it, or the CPU is
about to put its name there, or has just removed it. -/
def State.Holds (s : State C) (c : C) (l : Lock) : Prop :=
  (s.lock l).cpu = some c ∨ s.next c = some (.setcpu l) ∨ s.next c = some (.unlock l)

end OsWork.Ports.SpinLocks

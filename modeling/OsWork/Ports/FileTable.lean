import Mathlib.Data.List.FinRange
import OsWork.Verified.Transition

/-!
# Open files

The table of open files of `ass5/final_repo`: `filealloc`, `filedup` and `fileclose` of `file.c`,
the calls of `sysfile.c` that make and remove descriptors, `pipealloc` and `pipeclose` of
`pipe.c`, and the loops of `fork` and `exit` over `ofile`.  A step is what a process does under
`ftable.lock` or under the lock of a pipe, or with its own descriptors; between two steps of a
process others act.

What the calls do with inodes is left out: `sys_open` finds an inode or does not.  `kalloc`
returns a page that is no pipe, or fails.  That `init` does not exit is not looked at.

Not in the source are `kallocs` and `kfrees`, which count what has been done with a page as a pipe.
-/

namespace OsWork.Ports.FileTable

open OsWork.Verified.Transition
open Function (update)

/-! ## The source -/

/-- Open files per system. -/
def NFILE : Nat := 100

/-- Open files per process. -/
def NOFILE : Nat := 16

/-- A place in `ftable.file`. -/
abbrev FileId := Fin NFILE

abbrev Fd := Fin NOFILE

/-- `FD_NONE`, `FD_PIPE`, `FD_INODE` -/
inductive FileType
  | none
  | pipe
  | inode
  deriving DecidableEq

/-- `struct file`; `pipe` is the number of the page. -/
structure File where
  type : FileType
  ref : Nat
  readable : Bool
  writable : Bool
  pipe : Nat
  ip : Nat
  off : Nat
  deriving DecidableEq

/-- `struct pipe`, as far as it says who has it open. -/
structure Pipe where
  readopen : Bool
  writeopen : Bool
  deriving DecidableEq

/-- `RUNNABLE`, `RUNNING` and `SLEEPING` are `running`. -/
inductive ProcState
  | unused
  | embryo
  | running
  | zombie
  deriving DecidableEq

inductive Panic
  | filedup
  | fileclose
  /-- no panic of the source: `pipeclose` on a page that is no pipe -/
  | noPipe
  deriving DecidableEq

/-- What comes after `fileclose`. -/
inductive Next
  | done
  /-- another `fileclose`, in `pipealloc` and `sys_pipe` -/
  | close (f : FileId)
  /-- `curproc->ofile[fd] = 0` in `exit` -/
  | exitClear (fd : Fd)
  deriving DecidableEq

/-- What comes next in the call a process is in. -/
inductive Pc (P : Type)
  | user
  | panic (e : Panic)
  /-- `sys_open`: `filealloc`, `fdalloc`, the fields of `f` -/
  | openAlloc (ip omode : Nat)
  | openFd (f : FileId) (ip omode : Nat)
  | openSet (f : FileId) (ip omode : Nat)
  /-- `sys_dup`: `fdalloc`, `filedup` -/
  | dupFd (f : FileId)
  | dupRef (f : FileId) (fd : Fd)
  /-- `myproc()->ofile[fd] = 0` of `sys_close` -/
  | closeFd (fd : Fd) (f : FileId)
  | fileclose (f : FileId) (next : Next)
  /-- the rest of `fileclose` -/
  | pipeclose (page : Nat) (writable : Bool) (next : Next)
  | iput (ip : Nat) (next : Next)
  /-- `pipealloc`: two `filealloc`, `kalloc`, the fields of the two files -/
  | pipeFile0
  | pipeFile1 (f0 : FileId)
  | pipePage (f0 f1 : FileId)
  | pipeSet (f0 f1 : FileId) (page : Nat)
  /-- `sys_pipe`: two `fdalloc`, `myproc()->ofile[fd0] = 0` -/
  | pipeFd0 (rf wf : FileId)
  | pipeFd1 (rf wf : FileId) (fd0 : Fd)
  | pipeClear (rf wf : FileId) (fd0 : Fd)
  /-- the loop of `fork` at the descriptor `i`, and the assignment to `np->ofile[fd]` -/
  | fork (np : P) (i : Nat)
  | forkSet (np : P) (fd : Fd) (f : FileId)
  /-- the loop of `exit` at the descriptor `i` -/
  | exit (i : Nat)
  | exitClear (fd : Fd)
  deriving DecidableEq

structure State (P : Type) where
  file : FileId → File
  /-- the pages that are pipes -/
  pipe : Nat → Option Pipe
  ofile : P → Fd → Option FileId
  proc : P → ProcState
  pc : P → Pc P
  kallocs : Nat → Nat
  kfrees : Nat → Nat

variable {P : Type}

def Next.pc : Next → Pc P
  | .done => .user
  | .close f => .fileclose f .done
  | .exitClear fd => .exitClear fd

/-- `p->writeopen = 0` or `p->readopen = 0` -/
def Pipe.close (π : Pipe) (writable : Bool) : Pipe :=
  if writable then { π with writeopen := false } else { π with readopen := false }

def O_WRONLY : Nat := 0x001
def O_RDWR : Nat := 0x002

section Source

variable [DecidableEq P]

namespace State

variable (s : State P) (p : P)

def goto (pc : Pc P) : State P := { s with pc := update s.pc p pc }

def setFile (f : FileId) (file : File) : State P := { s with file := update s.file f file }

def setFd (fd : Fd) (f : Option FileId) : State P :=
  { s with ofile := update s.ofile p (update (s.ofile p) fd f) }

def filealloc : Option FileId := (List.finRange NFILE).find? fun f => (s.file f).ref == 0

def fdalloc : Option Fd := (List.finRange NOFILE).find? fun fd => (s.ofile p fd).isNone

/-- `filedup` and what comes after it. -/
def filedup (f : FileId) (pc : Pc P) : State P :=
  if (s.file f).ref < 1 then s.goto p (.panic .filedup)
  else (s.setFile f { s.file f with ref := (s.file f).ref + 1 }).goto p pc

/-- `fileclose` under `ftable.lock`. -/
def fileclose (f : FileId) (next : Next) : State P :=
  let ff := s.file f
  if ff.ref < 1 then s.goto p (.panic .fileclose)
  else if 0 < ff.ref - 1 then (s.setFile f { ff with ref := ff.ref - 1 }).goto p next.pc
  else
    (s.setFile f { ff with ref := 0, type := .none }).goto p
      (match ff.type with
        | .pipe => .pipeclose ff.pipe ff.writable next
        | .inode => .iput ff.ip next
        | .none => next.pc)

def pipeclose (page : Nat) (writable : Bool) (next : Next) : State P :=
  match s.pipe page with
  | none => s.goto p (.panic .noPipe)
  | some π =>
      if (π.close writable).readopen = false ∧ (π.close writable).writeopen = false then
        { s with
          pipe := update s.pipe page none
          kfrees := update s.kfrees page (s.kfrees page + 1)
          pc := update s.pc p next.pc }
      else
        { s with
          pipe := update s.pipe page (some (π.close writable))
          pc := update s.pc p next.pc }

/-- `pipealloc` after its `kalloc`, and the fields of the page; they are not seen before the call
is over. -/
def pipealloc (f0 f1 : FileId) (page : Nat) : State P :=
  { s with
    pipe := update s.pipe page (some { readopen := true, writeopen := true })
    kallocs := update s.kallocs page (s.kallocs page + 1)
    pc := update s.pc p (.pipeSet f0 f1 page) }

/-- The fields that `sys_open` sets. -/
def openFile (f : FileId) (ip omode : Nat) : File :=
  { s.file f with
    type := .inode
    ip := ip
    off := 0
    readable := omode &&& O_WRONLY == 0
    writable := omode &&& O_WRONLY != 0 || omode &&& O_RDWR != 0 }

/-- The fields that `pipealloc` sets. -/
def pipeFile (f : FileId) (page : Nat) (writable : Bool) : File :=
  { s.file f with type := .pipe, readable := !writable, writable := writable, pipe := page }

/-- The process goes on; `page` is what `kalloc` returns if it is called. -/
def run (page : Option Nat) : Option (State P) :=
  match s.pc p with
  | .user => none
  | .panic _ => none
  | .openAlloc ip omode =>
      match s.filealloc with
      | none => some (s.goto p .user)
      | some f => some ((s.setFile f { s.file f with ref := 1 }).goto p (.openFd f ip omode))
  | .openFd f ip omode =>
      match s.fdalloc p with
      | none => some (s.goto p (.fileclose f .done))
      | some fd => some ((s.setFd p fd (some f)).goto p (.openSet f ip omode))
  | .openSet f ip omode => some ((s.setFile f (s.openFile f ip omode)).goto p .user)
  | .dupFd f =>
      match s.fdalloc p with
      | none => some (s.goto p .user)
      | some fd => some ((s.setFd p fd (some f)).goto p (.dupRef f fd))
  | .dupRef f _ => some (s.filedup p f .user)
  | .closeFd fd f => some ((s.setFd p fd none).goto p (.fileclose f .done))
  | .fileclose f next => some (s.fileclose p f next)
  | .pipeclose page writable next => some (s.pipeclose p page writable next)
  | .iput _ next => some (s.goto p next.pc)
  | .pipeFile0 =>
      match s.filealloc with
      | none => some (s.goto p .user)
      | some f0 => some ((s.setFile f0 { s.file f0 with ref := 1 }).goto p (.pipeFile1 f0))
  | .pipeFile1 f0 =>
      match s.filealloc with
      | none => some (s.goto p (.fileclose f0 .done))
      | some f1 => some ((s.setFile f1 { s.file f1 with ref := 1 }).goto p (.pipePage f0 f1))
  | .pipePage f0 f1 =>
      match page with
      | none => some (s.goto p (.fileclose f0 (.close f1)))
      | some page => if s.pipe page = none then some (s.pipealloc p f0 f1 page) else none
  | .pipeSet f0 f1 page =>
      let t := s.setFile f0 (s.pipeFile f0 page false)
      some ((t.setFile f1 (t.pipeFile f1 page true)).goto p (.pipeFd0 f0 f1))
  | .pipeFd0 rf wf =>
      match s.fdalloc p with
      | none => some (s.goto p (.fileclose rf (.close wf)))
      | some fd0 => some ((s.setFd p fd0 (some rf)).goto p (.pipeFd1 rf wf fd0))
  | .pipeFd1 rf wf fd0 =>
      match s.fdalloc p with
      | none => some (s.goto p (.pipeClear rf wf fd0))
      | some fd1 => some ((s.setFd p fd1 (some wf)).goto p .user)
  | .pipeClear rf wf fd0 => some ((s.setFd p fd0 none).goto p (.fileclose rf (.close wf)))
  | .fork np i =>
      if h : i < NOFILE then
        match s.ofile p ⟨i, h⟩ with
        | none => some (s.goto p (.fork np (i + 1)))
        | some f => some (s.filedup p f (.forkSet np ⟨i, h⟩ f))
      else some ({ s with proc := update s.proc np .running }.goto p .user)
  | .forkSet np fd f => some ((s.setFd np fd (some f)).goto p (.fork np (fd.val + 1)))
  | .exit i =>
      if h : i < NOFILE then
        match s.ofile p ⟨i, h⟩ with
        | none => some (s.goto p (.exit (i + 1)))
        | some f => some (s.goto p (.fileclose f (.exitClear ⟨i, h⟩)))
      else some ({ s with proc := update s.proc p .zombie }.goto p .user)
  | .exitClear fd => some ((s.setFd p fd none).goto p (.exit (fd.val + 1)))

end State

/-- The calls. -/
inductive Call (P : Type)
  /-- `ip` is what `create` or `namei` returns, `none` also where `sys_open` does not take it -/
  | open (ip : Option Nat) (omode : Nat)
  | dup (fd : Fd)
  | close (fd : Fd)
  | pipe
  /-- `np` is what `allocproc` returns, `none` also when `copyuvm` fails -/
  | fork (np : Option P)
  | exit

/-- A process in user mode makes a call. -/
def State.call (s : State P) (p : P) : Call P → Option (State P)
  | .open none _ => some s
  | .open (some ip) omode => some (s.goto p (.openAlloc ip omode))
  | .dup fd =>
      match s.ofile p fd with
      | none => some s
      | some f => some (s.goto p (.dupFd f))
  | .close fd =>
      match s.ofile p fd with
      | none => some s
      | some f => some (s.goto p (.closeFd fd f))
  | .pipe => some (s.goto p .pipeFile0)
  | .fork none => some s
  | .fork (some np) =>
      if s.proc np = .unused then
        some ({ s with proc := update s.proc np .embryo }.goto p (.fork np 0))
      else none
  | .exit => some (s.goto p (.exit 0))

/-- Who takes the next step. -/
inductive Act (P : Type)
  | call (p : P) (c : Call P)
  | run (p : P) (page : Option Nat)
  /-- `wait` finds the process -/
  | wait (p : P)

def State.step (s : State P) : Act P → Option (State P)
  | .call p c => if s.proc p = .running ∧ s.pc p = .user then s.call p c else none
  | .run p page => s.run p page
  | .wait p =>
      if s.proc p = .zombie then some { s with proc := update s.proc p .unused } else none

/-- The first process runs, and no file is open. -/
def boot (p0 : P) : State P where
  file _ :=
    { type := .none, ref := 0, readable := false, writable := false, pipe := 0, ip := 0, off := 0 }
  pipe _ := none
  ofile _ _ := none
  proc := update (fun _ => .unused) p0 .running
  pc _ := .user
  kallocs _ := 0
  kfrees _ := 0

def kernel (p0 : P) : System (State P) (Act P) where
  init s := s = boot p0
  step := State.step

end Source

end OsWork.Ports.FileTable

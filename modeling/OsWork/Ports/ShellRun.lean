import OsWork.Verified.Refinement
import OsWork.Ports.ShellGrammar
import Mathlib.Logic.Function.Basic
import Mathlib.Tactic.Common

/-!
# Running commands: `runcmd` of `sh.c`

`runcmd` turns a command into processes.  The processes of a command are a tree, by who
has forked whom; each has its own table of descriptors, and they take steps in any order.
Any `fork`, `pipe`, `open` and `exec` may fail, and that it has failed shows, as the
message that the shell then prints does.  A program that `exec` has started is only
known by its arguments and descriptors, until it exits.

What a command means is said apart from this, by *jobs*: which programs may run next to
each other, which only after others, and what their descriptors 0, 1 and 2 are.

## Main results

* `runcmd_refines` — the processes start and end programs as the jobs do, with the same
  descriptors, and no job is given up but for a system call that has failed.
-/

namespace OsWork.Ports.ShellRun

open OsWork.Verified.Refinement
open Shell (Cmd Token Redir Arg Line Pipe Exec)
open Function (update)

variable {W : Type}

/-! ## Descriptors -/

def NOFILE : Nat := 16

/-- What a descriptor refers to.  Open files and pipes are numbered as they are made. -/
inductive Desc (W : Type)
  /-- what was open before -/
  | given (n : Nat)
  | file (id : Nat) (name : W) (mode : Nat)
  /-- the end of a pipe that is read from -/
  | rd (id : Nat)
  /-- the end that is written to -/
  | wr (id : Nat)
  deriving DecidableEq

/-- `curproc->ofile` -/
abbrev Fds (W : Type) := Nat → Option (Desc W)

/-- The lowest descriptor that is free. -/
def fdalloc (fds : Fds W) : Option Nat :=
  (List.range NOFILE).find? fun fd => (fds fd).isNone

def close (fds : Fds W) (fd : Nat) : Fds W := update fds fd none

/-- `dup`, which the shell calls only with a descriptor that is open. -/
def dup (fds : Fds W) (fd : Nat) : Fds W :=
  match fds fd, fdalloc fds with
  | some d, some m => update fds m (some d)
  | _, _ => fds

/-! ## `runcmd` -/

/-- The system calls that a process has still to make.  After a `fork`, `pipe` or `open`
that fails the shell prints a message and exits, and so it does when `exec` returns. -/
inductive Code (W : Type)
  | exit
  | exec (argv : List W)
  | close (fd : Nat) (next : Code W)
  | dup (fd : Nat) (next : Code W)
  | «open» (file : W) (mode : Nat) (next : Code W)
  /-- what follows depends on the descriptors `p[0]` and `p[1]` -/
  | pipe (next : Nat → Nat → Code W)
  | fork (child next : Code W)
  | wait (next : Code W)

/-- The left child of a `|`. -/
def leftCode (p0 p1 : Nat) (left : Code W) : Code W :=
  .close 1 (.dup p1 (.close p0 (.close p1 left)))

/-- The right child. -/
def rightCode (p0 p1 : Nat) (right : Code W) : Code W :=
  .close 0 (.dup p0 (.close p0 (.close p1 right)))

/-- The parent, after `pipe`. -/
def pipeCode (left right : Code W) (p0 p1 : Nat) : Code W :=
  .fork (leftCode p0 p1 left)
    (.fork (rightCode p0 p1 right) (.close p0 (.close p1 (.wait (.wait .exit)))))

def runcmd : Cmd W → Code W
  | .exec [] => .exit
  | .exec (w :: argv) => .exec (w :: argv)
  | .redir cmd file mode fd => .close fd (.open file mode (runcmd cmd))
  | .list left right => .fork (runcmd left) (.wait (runcmd right))
  | .pipe left right => .pipe (pipeCode (runcmd left) (runcmd right))
  | .back cmd => .fork (runcmd cmd) .exit

/-! ## Processes -/

inductive Status (W : Type)
  | shell (code : Code W)
  /-- what `exec` has started -/
  | program (argv : List W)
  | zombie
  /-- a `wait` of the parent has returned for it -/
  | reaped

/-- A process and those it has forked, in order. -/
inductive Tree (W : Type)
  | node (status : Status W) (fds : Fds W) (kids : List (Tree W))

def Tree.isReaped : Tree W → Bool
  | .node .reaped _ _ => true
  | _ => false

/-- What the outside sees: a program begins to run, and ends. -/
inductive Event (W : Type)
  | start (argv : List W) (fds : Fds W)
  | stop (argv : List W) (fds : Fds W)
  /-- a `fork`, `pipe`, `open` or `exec` returns -1 -/
  | failed

/-- How a system call goes. -/
inductive Choice
  | ok
  | fail
  /-- `wait` returns for this child -/
  | child (i : Nat)

/-- The table after `exit`. -/
def noFds : Fds W := fun _ => none

/-- A system call of a shell that is not about other processes.  `n` is the number of the
next open file or pipe. -/
def ownCall (n : Nat) (c : Choice) (fds : Fds W) :
    Code W → Option (Option (Event W) × Nat × Status W × Fds W)
  | .exit => some (none, n, .zombie, noFds)
  | .exec argv =>
      match c with
      | .ok => some (some (.start argv fds), n, .program argv, fds)
      | _ => some (some .failed, n, .shell .exit, fds)
  | .close fd next => some (none, n, .shell next, close fds fd)
  | .dup fd next => some (none, n, .shell next, dup fds fd)
  | .open file mode next =>
      match c, fdalloc fds with
      | .ok, some fd => some (none, n + 1, .shell next, update fds fd (some (.file n file mode)))
      | _, _ => some (some .failed, n, .shell .exit, fds)
  | .pipe next =>
      match c, fdalloc fds with
      | .ok, some p0 =>
          let fds' := update fds p0 (some (.rd n))
          match fdalloc fds' with
          | some p1 => some (none, n + 1, .shell (next p0 p1), update fds' p1 (some (.wr n)))
          | none => some (some .failed, n, .shell .exit, fds)
      | _, _ => some (some .failed, n, .shell .exit, fds)
  | .fork _ _ => none
  | .wait _ => none

/-- A system call of a shell with these children. -/
def callStep (n : Nat) (c : Choice) (fds : Fds W) (kids : List (Tree W)) :
    Code W → Option (Option (Event W) × Nat × Tree W)
  | .fork child next =>
      match c with
      | .ok => some (none, n, .node (.shell next) fds (kids ++ [.node (.shell child) fds []]))
      | _ => some (some .failed, n, .node (.shell .exit) fds kids)
  | .wait next =>
      match c with
      | .child i =>
          match kids[i]? with
          | some (.node .zombie f ks) =>
              some (none, n, .node (.shell next) fds (kids.set i (.node .reaped f ks)))
          | _ => none
      | _ => if kids.all Tree.isReaped then some (none, n, .node (.shell next) fds kids) else none
  | code => (ownCall n c fds code).map fun (e, n', status, fds') => (e, n', .node status fds' kids)

/-- A step of the process at the root. -/
def rootStep (n : Nat) (c : Choice) : Tree W → Option (Option (Event W) × Nat × Tree W)
  | .node (.shell code) fds kids => callStep n c fds kids code
  | .node (.program argv) fds kids => some (some (.stop argv fds), n, .node .zombie noFds kids)
  | .node .zombie _ _ => none
  | .node .reaped _ _ => none

theorem rootStep_shell {n : Nat} {c : Choice} {code : Code W} {fds : Fds W}
    {kids : List (Tree W)} :
    rootStep n c (.node (.shell code) fds kids) = callStep n c fds kids code := rfl

/-- A step of the process that is reached on a path. -/
def Tree.step (n : Nat) (c : Choice) : List Nat → Tree W →
    Option (Option (Event W) × Nat × Tree W)
  | [], t => rootStep n c t
  | i :: path, .node status fds kids =>
      match kids[i]? with
      | some t => (t.step n c path).map fun (e, n', t') =>
          (e, n', .node status fds (kids.set i t'))
      | none => none

/-- The number of the next open file or pipe, and the processes. -/
abbrev State (W : Type) := Nat × Tree W

/-- Who takes the next step, and how its system call goes. -/
abbrev Act := List Nat × Choice

def act (s : State W) (a : Act) : Option (Option (Event W) × State W) := s.2.step s.1 a.2 a.1

abbrev Step : State W → Option (Event W) → State W → Prop := StepOf act

/-! ## Jobs -/

/-- The descriptors 0, 1 and 2. -/
abbrev Wiring (W : Type) := Fin 3 → Desc W

namespace Wiring

def fds (w : Wiring W) : Fds W := fun fd => if h : fd < 3 then some (w ⟨fd, h⟩) else none

def set (w : Wiring W) (fd : Nat) (d : Desc W) : Wiring W :=
  fun i => if i.val = fd then d else w i

end Wiring

/-- What is left of a command. -/
inductive Job (W : Type)
  | todo (cmd : Cmd W) (w : Wiring W)
  | program (argv : List W) (w : Wiring W)
  | done
  /-- the command comes after the job -/
  | seq (job : Job W) (cmd : Cmd W) (w : Wiring W)
  /-- side by side, with the pipe `k` from the left to the right -/
  | pipe (k : Nat) (left right : Job W) (w : Wiring W)
  /-- a job, and one that nobody waits for -/
  | beside (job back : Job W)

namespace Job

/-- Everything has ended that is waited for. -/
inductive Finished : Job W → Prop
  | done : Finished .done
  | pipe {k : Nat} {left right : Job W} {w : Wiring W} :
      Finished left → Finished right → Finished (.pipe k left right w)
  | beside {job back : Job W} : Finished job → Finished (.beside job back)

/-- How jobs go on; `n` is the number of the next open file or pipe. -/
inductive Step : Nat → Job W → Option (Event W) → Nat → Job W → Prop
  | nothing {n : Nat} {w : Wiring W} : Step n (.todo (.exec []) w) none n .done
  | start {n : Nat} {argv : List W} {w : Wiring W} :
      Step n (.todo (.exec argv) w) (some (.start argv w.fds)) n (.program argv w)
  | stop {n : Nat} {argv : List W} {w : Wiring W} :
      Step n (.program argv w) (some (.stop argv w.fds)) n .done
  /-- a system call of the command fails; a command without words makes none -/
  | fail {n : Nat} {cmd : Cmd W} {w : Wiring W} : cmd ≠ .exec [] →
      Step n (.todo cmd w) (some .failed) n .done
  | opened {n : Nat} {cmd : Cmd W} {file : W} {mode fd : Nat} {w : Wiring W} :
      Step n (.todo (.redir cmd file mode fd) w) none (n + 1)
        (.todo cmd (w.set fd (.file n file mode)))
  | list {n : Nat} {left right : Cmd W} {w : Wiring W} :
      Step n (.todo (.list left right) w) none n (.seq (.todo left w) right w)
  | next {n : Nat} {job : Job W} {cmd : Cmd W} {w : Wiring W} : Finished job →
      Step n (.seq job cmd w) none n (.beside (.todo cmd w) job)
  | pipe {n : Nat} {left right : Cmd W} {w : Wiring W} :
      Step n (.todo (.pipe left right) w) none (n + 1)
        (.pipe n (.todo left (w.set 1 (.wr n))) (.todo right (w.set 0 (.rd n))) w)
  /-- neither side of a pipe is forked -/
  | failBoth {n k : Nat} {left right : Cmd W} {w w₀ w₁ : Wiring W} :
      Step n (.pipe k (.todo left w₁) (.todo right w₀) w) (some .failed) n .done
  /-- the right side is not forked, and nobody waits for the left side -/
  | failRight {n k : Nat} {left : Job W} {right : Cmd W} {w w₀ : Wiring W} :
      Step n (.pipe k left (.todo right w₀) w) (some .failed) n (.beside .done left)
  | back {n : Nat} {cmd : Cmd W} {w : Wiring W} :
      Step n (.todo (.back cmd) w) none n (.beside .done (.todo cmd w))
  | seq {n n' : Nat} {job job' : Job W} {e : Option (Event W)} {cmd : Cmd W} {w : Wiring W} :
      Step n job e n' job' → Step n (.seq job cmd w) e n' (.seq job' cmd w)
  | left {n n' k : Nat} {job job' right : Job W} {e : Option (Event W)} {w : Wiring W} :
      Step n job e n' job' → Step n (.pipe k job right w) e n' (.pipe k job' right w)
  | right {n n' k : Nat} {job job' left : Job W} {e : Option (Event W)} {w : Wiring W} :
      Step n job e n' job' → Step n (.pipe k left job w) e n' (.pipe k left job' w)
  | fore {n n' : Nat} {job job' back : Job W} {e : Option (Event W)} :
      Step n job e n' job' → Step n (.beside job back) e n' (.beside job' back)
  | aft {n n' : Nat} {job back back' : Job W} {e : Option (Event W)} :
      Step n back e n' back' → Step n (.beside job back) e n' (.beside job back')

end Job

/-! ## Tables of descriptors -/

theorem fdalloc_eq {fds : Fds W} {m : Nat} (hm : m < NOFILE) (hfree : fds m = none)
    (hused : ∀ i, i < m → fds i ≠ none) : fdalloc fds = some m := by
  unfold fdalloc
  rw [List.find?_range_eq_some]
  refine ⟨by rw [hfree]; rfl, List.mem_range.mpr hm, ?_⟩
  intro i hi
  cases h : fds i with
  | none => exact absurd h (hused i hi)
  | some d => rfl

namespace Wiring

variable {w : Wiring W} {fd : Nat} {d : Desc W}

theorem fds_of_lt (h : fd < 3) : w.fds fd = some (w ⟨fd, h⟩) := dif_pos h

theorem fds_of_le (h : 3 ≤ fd) : w.fds fd = none := dif_neg (Nat.not_lt_of_le h)

theorem fds_ne_none (h : fd < 3) : w.fds fd ≠ none := by
  rw [fds_of_lt h]
  nofun

theorem fds_set (h : fd < 3) : (w.set fd d).fds = update w.fds fd (some d) := by
  funext i
  by_cases hi : i = fd
  · subst hi
    rw [Function.update_self, fds_of_lt h]
    exact congrArg some (if_pos rfl)
  · rw [Function.update_of_ne hi]
    by_cases hlt : i < 3
    · rw [fds_of_lt hlt, fds_of_lt hlt]
      exact congrArg some (if_neg hi)
    · rw [fds_of_le (Nat.le_of_not_lt hlt), fds_of_le (Nat.le_of_not_lt hlt)]

/-- With a descriptor closed, `open` and `dup` return this one. -/
theorem fdalloc_close (h : fd < 3) : fdalloc (close w.fds fd) = some fd := by
  apply fdalloc_eq (Nat.lt_trans h (by decide)) (Function.update_self _ _ _)
  intro i hi
  show update w.fds fd none i ≠ none
  rw [Function.update_of_ne (Nat.ne_of_lt hi)]
  exact fds_ne_none (Nat.lt_trans hi h)

theorem fdalloc_fds : fdalloc w.fds = some 3 :=
  fdalloc_eq (by decide) (fds_of_le (Nat.le_refl 3)) fun _ hi => fds_ne_none hi

/-- The table after `pipe`. -/
def piped (w : Wiring W) (k : Nat) : Fds W :=
  update (update w.fds 3 (some (.rd k))) 4 (some (.wr k))

theorem fdalloc_rd {k : Nat} : fdalloc (update w.fds 3 (some (.rd k))) = some 4 := by
  apply fdalloc_eq (by decide)
  · rw [Function.update_of_ne (by decide)]
    exact fds_of_le (by decide)
  · intro i hi
    by_cases h3 : i = 3
    · rw [h3, Function.update_self]
      nofun
    · rw [Function.update_of_ne h3]
      exact fds_ne_none (by omega)

/-- Closing the ends of the pipe undoes `pipe`. -/
theorem close_piped {k : Nat} : close (close (w.piped k) 3) 4 = w.fds := by
  funext i
  show update (update (update (update w.fds 3 _) 4 _) 3 none) 4 none i = w.fds i
  by_cases h4 : i = 4
  · rw [h4, Function.update_self, fds_of_le (by decide)]
  · rw [Function.update_of_ne h4]
    by_cases h3 : i = 3
    · rw [h3, Function.update_self, fds_of_le (by decide)]
    · rw [Function.update_of_ne h3, Function.update_of_ne h4, Function.update_of_ne h3]

/-- A descriptor is closed, and an end of the pipe is put in its place. -/
theorem dup_piped {k p : Nat} (h : fd < 3) (hp : w.piped k p = some d) (hne : p ≠ fd) :
    dup (close (w.piped k) fd) p = (w.set fd d).piped k := by
  have halloc : fdalloc (close (w.piped k) fd) = some fd := by
    apply fdalloc_eq (Nat.lt_trans h (by decide)) (Function.update_self _ _ _)
    intro i hi
    show update (update (update w.fds 3 _) 4 _) fd none i ≠ none
    rw [Function.update_of_ne (by omega), Function.update_of_ne (by omega),
      Function.update_of_ne (by omega)]
    exact fds_ne_none (by omega)
  have hget : close (w.piped k) fd p = some d := by
    show update (w.piped k) fd none p = some d
    rw [Function.update_of_ne hne]
    exact hp
  unfold dup
  rw [hget, halloc]
  show update (update (update (update w.fds 3 _) 4 _) fd none) fd (some d) =
    update (update (w.set fd d).fds 3 _) 4 _
  rw [Function.update_idem, fds_set h, Function.update_comm (by omega : (4 : Nat) ≠ fd),
    Function.update_comm (by omega : (3 : Nat) ≠ fd)]

end Wiring

/-! ## The simulation -/

/-- The process after the `close` and `dup` calls that come next. -/
def settle : Code W → Fds W → Code W × Fds W
  | .close fd next, fds => settle next (close fds fd)
  | .dup fd next, fds => settle next (dup fds fd)
  | code, fds => (code, fds)

theorem settle_leftCode {w : Wiring W} {k : Nat} {code : Code W} :
    settle (leftCode 3 4 code) (w.piped k) = settle code (w.set 1 (.wr k)).fds := by
  show settle code (close (close (dup (close (w.piped k) 1) 4) 3) 4) = _
  rw [Wiring.dup_piped (d := .wr k) (by decide) (Function.update_self _ _ _) (by decide),
    Wiring.close_piped]

theorem settle_rightCode {w : Wiring W} {k : Nat} {code : Code W} :
    settle (rightCode 3 4 code) (w.piped k) = settle code (w.set 0 (.rd k)).fds := by
  show settle code (close (close (dup (close (w.piped k) 0) 3) 3) 4) = _
  have hp : w.piped k 3 = some (.rd k) := by
    show update (update w.fds 3 _) 4 _ 3 = _
    rw [Function.update_of_ne (by decide), Function.update_self]
  rw [Wiring.dup_piped (by decide) hp (by decide), Wiring.close_piped]

/-- The process has exited, or does nothing else any more. -/
def Status.ended : Status W → Bool
  | .shell .exit => true
  | .shell _ => false
  | .program _ => false
  | .zombie => true
  | .reaped => true

/-- The redirections of the command are of the descriptors 0, 1 and 2. -/
def Standard : Cmd W → Prop
  | .exec _ => True
  | .redir cmd _ _ fd => fd < 3 ∧ Standard cmd
  | .pipe left right => Standard left ∧ Standard right
  | .list left right => Standard left ∧ Standard right
  | .back cmd => Standard cmd

/-- The processes do what is left of a command. -/
inductive Sim : Tree W → Job W → Prop
  | todo {code : Code W} {fds : Fds W} {cmd : Cmd W} {w : Wiring W} : Standard cmd →
      settle code fds = settle (runcmd cmd) w.fds → Sim (.node (.shell code) fds []) (.todo cmd w)
  | program {argv : List W} {w : Wiring W} :
      Sim (.node (.program argv) w.fds []) (.program argv w)
  | done {status : Status W} {fds : Fds W} : status.ended = true →
      Sim (.node status fds []) .done
  | seq {t : Tree W} {job : Job W} {cmd : Cmd W} {w : Wiring W} : Sim t job →
      t.isReaped = false → Standard cmd →
      Sim (.node (.shell (.wait (runcmd cmd))) w.fds [t]) (.seq job cmd w)
  /-- neither side of the pipe is forked yet -/
  | fresh {left right : Cmd W} {w : Wiring W} {k : Nat} : Standard left → Standard right →
      Sim (.node (.shell (pipeCode (runcmd left) (runcmd right) 3 4)) (w.piped k) [])
        (.pipe k (.todo left (w.set 1 (.wr k))) (.todo right (w.set 0 (.rd k))) w)
  /-- the left side is forked -/
  | half {t : Tree W} {left : Job W} {right : Cmd W} {w : Wiring W} {k : Nat} : Sim t left →
      t.isReaped = false → Standard right →
      Sim (.node (.shell (.fork (rightCode 3 4 (runcmd right))
          (.close 3 (.close 4 (.wait (.wait .exit)))))) (w.piped k) [t])
        (.pipe k left (.todo right (w.set 0 (.rd k))) w)
  | both {code : Code W} {fds : Fds W} {tl tr : Tree W} {left right : Job W} {w : Wiring W}
      {k : Nat} : Sim tl left → Sim tr right → tl.isReaped = false → tr.isReaped = false →
      settle code fds = (.wait (.wait .exit), w.fds) →
      Sim (.node (.shell code) fds [tl, tr]) (.pipe k left right w)
  /-- one side has been waited for -/
  | one {tl tr : Tree W} {left right : Job W} {w : Wiring W} {k : Nat} : Sim tl left →
      Sim tr right → tl.isReaped = !tr.isReaped →
      Sim (.node (.shell (.wait .exit)) w.fds [tl, tr]) (.pipe k left right w)
  | waited {status : Status W} {fds : Fds W} {tl tr : Tree W} {left right : Job W} {w : Wiring W}
      {k : Nat} : Sim tl left → Sim tr right → tl.isReaped = true → tr.isReaped = true →
      status.ended = true → Sim (.node status fds [tl, tr]) (.pipe k left right w)
  /-- a child that has been waited for, or that nobody will wait for -/
  | beside {status : Status W} {fds : Fds W} {t : Tree W} {kids : List (Tree W)}
      {job back : Job W} : Sim (.node status fds kids) job → Sim t back →
      t.isReaped = true ∨ status.ended = true →
      Sim (.node status fds (t :: kids)) (.beside job back)

/-- The process has exited. -/
def Status.dead : Status W → Bool
  | .zombie => true
  | .reaped => true
  | _ => false

theorem Sim.finished {t : Tree W} {job : Job W} (h : Sim t job) :
    ∀ {status : Status W} {fds : Fds W} {kids : List (Tree W)},
      t = .node status fds kids → status.dead = true → job.Finished := by
  induction h with
  | todo | program | seq | fresh | half | both | one =>
      rintro status fds kids ⟨⟩ hdead
      cases hdead
  | done => exact fun _ _ => .done
  | @waited _ _ tl tr _ _ _ _ _ _ hl hr _ ihl ihr =>
      rintro status fds kids ⟨⟩ hdead
      obtain ⟨sl, fl, kl⟩ := tl
      obtain ⟨sr, fr, kr⟩ := tr
      apply Job.Finished.pipe
      · apply ihl rfl
        cases sl with
        | reaped => rfl
        | _ => cases hl
      · apply ihr rfl
        cases sr with
        | reaped => rfl
        | _ => cases hr
  | beside _ _ _ ih _ =>
      rintro status fds kids ⟨⟩ hdead
      exact .beside (ih rfl hdead)

/-- `wait` returns for a zombie. -/
theorem Sim.reap {t : Tree W} {job : Job W} (h : Sim t job) :
    ∀ {fds : Fds W} {kids : List (Tree W)}, t = .node .zombie fds kids →
      Sim (.node .reaped fds kids) job := by
  induction h with
  | todo | program | seq | fresh | half | both | one =>
      rintro fds kids ⟨⟩
  | done =>
      rintro fds kids ⟨⟩
      exact .done rfl
  | waited hl hr hl' hr' _ _ _ =>
      rintro fds kids ⟨⟩
      exact .waited hl hr hl' hr' rfl
  | beside _ hback _ ih _ =>
      rintro fds kids ⟨⟩
      exact .beside (ih rfl) hback (.inr rfl)

/-- A step is one of the root, or one below a child. -/
theorem Tree.step_cases {n n' : Nat} {c : Choice} {path : List Nat} {status : Status W}
    {fds : Fds W} {kids : List (Tree W)} {e : Option (Event W)} {t' : Tree W}
    (h : (Tree.node status fds kids).step n c path = some (e, n', t')) :
    rootStep n c (.node status fds kids) = some (e, n', t') ∨
      ∃ i path' t u, kids[i]? = some t ∧ t.step n c path' = some (e, n', u) ∧
        t' = .node status fds (kids.set i u) := by
  cases path with
  | nil => exact .inl h
  | cons i path =>
      right
      unfold Tree.step at h
      split at h
      · rename_i t hget
        obtain ⟨⟨e₁, n₁, u⟩, hstep, heq⟩ := Option.map_eq_some_iff.mp h
        cases heq
        exact ⟨i, path, t, u, hget, hstep, rfl⟩
      · cases h

theorem ownCall_status {n n' : Nat} {c : Choice} {fds fds' : Fds W} {code : Code W}
    {e : Option (Event W)} {status : Status W}
    (h : ownCall n c fds code = some (e, n', status, fds')) : status ≠ .reaped := by
  rintro rfl
  cases code with
  | exit | close | dup | fork | wait => cases h
  | exec argv =>
      simp only [ownCall] at h
      split at h <;> cases h
  | «open» file mode next =>
      simp only [ownCall] at h
      split at h <;> cases h
  | pipe next =>
      simp only [ownCall] at h
      split at h
      · split at h <;> cases h
      · cases h

/-- A system call of a shell makes a child, waits, or is about the process only. -/
theorem callStep_cases {n n' : Nat} {c : Choice} {fds : Fds W} {kids : List (Tree W)}
    {code : Code W} {e : Option (Event W)} {t : Tree W}
    (h : callStep n c fds kids code = some (e, n', t)) :
    (∃ child next, code = .fork child next ∧ n' = n ∧
        (e = none ∧ t = .node (.shell next) fds (kids ++ [.node (.shell child) fds []]) ∨
          e = some .failed ∧ t = .node (.shell .exit) fds kids)) ∨
      (∃ next, code = .wait next ∧ e = none ∧ n' = n ∧
        ((∃ i f ks, kids[i]? = some (.node .zombie f ks) ∧
            t = .node (.shell next) fds (kids.set i (.node .reaped f ks))) ∨
          kids.all Tree.isReaped = true ∧ t = .node (.shell next) fds kids)) ∨
      ∃ status fds', ownCall n c fds code = some (e, n', status, fds') ∧
        t = .node status fds' kids := by
  cases code with
  | fork child next =>
      left
      cases c with
      | ok =>
          cases h
          exact ⟨child, next, rfl, rfl, .inl ⟨rfl, rfl⟩⟩
      | fail | child =>
          cases h
          exact ⟨child, next, rfl, rfl, .inr ⟨rfl, rfl⟩⟩
  | wait next =>
      right
      left
      simp only [callStep] at h
      split at h
      · split at h
        · rename_i i _ f ks hget
          cases h
          exact ⟨next, rfl, rfl, rfl, .inl ⟨i, f, ks, hget, rfl⟩⟩
        · cases h
      · split at h
        · rename_i hall
          cases h
          exact ⟨next, rfl, rfl, rfl, .inr ⟨hall, rfl⟩⟩
        · cases h
  | exit | exec | close | dup | «open» | pipe =>
      right
      right
      simp only [callStep, Option.map_eq_some_iff] at h
      obtain ⟨⟨e₁, n₁, status, fds'⟩, hcall, heq⟩ := h
      cases heq
      exact ⟨status, fds', hcall, rfl⟩

theorem callStep_own {n n' : Nat} {c : Choice} {fds fds' : Fds W} {kids : List (Tree W)}
    {code : Code W} {e : Option (Event W)} {status : Status W}
    (h : ownCall n c fds code = some (e, n', status, fds')) :
    callStep n c fds kids code = some (e, n', .node status fds' kids) := by
  cases code with
  | fork => cases h
  | wait => cases h
  | exit | exec | close | dup | «open» | pipe =>
      simp only [callStep, h, Option.map_some]

/-- Who has been waited for stays so, and nobody else becomes so by a step of its own. -/
theorem Tree.step_isReaped {n n' : Nat} {c : Choice} {path : List Nat} {t t' : Tree W}
    {e : Option (Event W)} (h : t.step n c path = some (e, n', t')) :
    t'.isReaped = t.isReaped := by
  obtain ⟨status, fds, kids⟩ := t
  rcases Tree.step_cases h with h | ⟨i, path', t, u, _, _, rfl⟩
  · cases status with
    | shell code =>
        rcases callStep_cases h with ⟨_, _, _, _, ⟨_, rfl⟩ | ⟨_, rfl⟩⟩ |
          ⟨_, _, _, _, ⟨_, _, _, _, rfl⟩ | ⟨_, rfl⟩⟩ | ⟨status', _, hcall, rfl⟩
        · rfl
        · rfl
        · rfl
        · rfl
        · cases status' with
          | reaped => exact absurd rfl (ownCall_status hcall)
          | _ => rfl
    | program argv =>
        cases h
        rfl
    | zombie => cases h
    | reaped => cases h
  · cases status <;> rfl

/-- A process whose first child has been waited for, or will not be. -/
theorem rootStep_cons {n n' : Nat} {c : Choice} {status : Status W} {fds : Fds W} {t t' : Tree W}
    {kids : List (Tree W)} {e : Option (Event W)}
    (h : rootStep n c (.node status fds (t :: kids)) = some (e, n', t'))
    (hold : t.isReaped = true ∨ status.ended = true) :
    ∃ c' status' fds' kids', t' = .node status' fds' (t :: kids') ∧
      rootStep n c' (.node status fds kids) = some (e, n', .node status' fds' kids') ∧
      (t.isReaped = true ∨ status'.ended = true) := by
  cases status with
  | program argv =>
      cases h
      exact ⟨c, _, _, _, rfl, rfl, .inr rfl⟩
  | zombie => cases h
  | reaped => cases h
  | shell code =>
      by_cases hexit : code = .exit
      · subst hexit
        cases h
        exact ⟨c, _, _, _, rfl, rfl, .inr rfl⟩
      · have hreaped : t.isReaped = true := by
          rcases hold with hold | hold
          · exact hold
          · cases code with
            | exit => exact absurd rfl hexit
            | _ => cases hold
        rcases callStep_cases h with ⟨child, next, rfl, rfl, ⟨rfl, rfl⟩ | ⟨rfl, rfl⟩⟩ |
          ⟨next, rfl, rfl, rfl, ⟨i, f, ks, hget, rfl⟩ | ⟨hall, rfl⟩⟩ | ⟨status', fds', hcall, rfl⟩
        · exact ⟨.ok, _, _, _, rfl, rfl, .inl hreaped⟩
        · exact ⟨.fail, _, _, _, rfl, rfl, .inl hreaped⟩
        · cases i with
          | zero =>
              cases hget
              cases hreaped
          | succ i =>
              refine ⟨.child i, _, _, _, rfl, ?_, .inl hreaped⟩
              rw [List.getElem?_cons_succ] at hget
              simp only [rootStep, callStep, hget]
        · refine ⟨.ok, _, _, _, rfl, ?_, .inl hreaped⟩
          rw [List.all_cons, Bool.and_eq_true] at hall
          simp only [rootStep, callStep, hall.2, if_true]
        · exact ⟨c, status', fds', kids, rfl, callStep_own hcall, .inl hreaped⟩

/-- A call that `settle` goes over changes nothing else; any other call comes after. -/
theorem ownCall_settle {n n' : Nat} {c : Choice} {fds fds' : Fds W} {code : Code W}
    {e : Option (Event W)} {status : Status W}
    (h : ownCall n c fds code = some (e, n', status, fds')) :
    (∃ code', e = none ∧ n' = n ∧ status = .shell code' ∧ settle code' fds' = settle code fds) ∨
      settle code fds = (code, fds) := by
  cases code with
  | close fd next | dup fd next =>
      cases h
      exact .inl ⟨next, rfl, rfl, rfl, rfl⟩
  | exit | exec | «open» | pipe | fork | wait => exact .inr rfl

/-- What a job does when its processes take a step. -/
def Matches (n : Nat) (job : Job W) (e : Option (Event W)) (n' : Nat) (t : Tree W) : Prop :=
  (∃ job', job.Step n e n' job' ∧ Sim t job') ∨ e = none ∧ n' = n ∧ Sim t job

/-- The first step of `runcmd cmd`, from where nothing but `close` and `dup` has been done. -/
theorem matches_todo {n n' : Nat} {c : Choice} {code : Code W} {fds : Fds W} {cmd : Cmd W}
    {w : Wiring W} {e : Option (Event W)} {t : Tree W} (hstd : Standard cmd)
    (hcode : settle code fds = settle (runcmd cmd) w.fds)
    (h : callStep n c fds [] code = some (e, n', t)) : Matches n (.todo cmd w) e n' t := by
  have hexit : Sim (.node (.shell .exit) fds []) Job.done := .done rfl
  rcases callStep_cases h with ⟨child, next, rfl, rfl, ht⟩ |
    ⟨next, rfl, rfl, rfl, ⟨i, f, ks, hget, rfl⟩ | ⟨hall, rfl⟩⟩ | ⟨status, fds', hcall, rfl⟩
  · have hcode : (Code.fork child next, fds) = settle (runcmd cmd) w.fds := hcode
    rcases ht with ⟨rfl, rfl⟩ | ⟨rfl, rfl⟩
    · cases cmd with
      | list left right =>
          cases hcode
          exact .inl ⟨_, .list, .seq (.todo hstd.1 rfl) rfl hstd.2⟩
      | back cmd =>
          cases hcode
          exact .inl ⟨_, .back, .beside (.done rfl) (.todo hstd rfl) (.inr rfl)⟩
      | exec argv => cases argv <;> cases hcode
      | redir | pipe => cases hcode
    · refine .inl ⟨_, .fail ?_, hexit⟩
      rintro rfl
      cases hcode
  · cases hget
  · have hcode : (Code.wait next, fds) = settle (runcmd cmd) w.fds := hcode
    cases cmd with
    | exec argv => cases argv <;> cases hcode
    | redir | pipe | list | back => cases hcode
  · rcases ownCall_settle hcall with ⟨code', rfl, rfl, rfl, hsettle⟩ | hsettle
    · exact .inr ⟨rfl, rfl, .todo hstd (hsettle.trans hcode)⟩
    · rw [hsettle] at hcode
      cases cmd with
      | exec argv =>
          cases argv with
          | nil =>
              have hcode : (code, fds) = (.exit, w.fds) := hcode
              cases hcode
              cases hcall
              exact .inl ⟨_, .nothing, .done rfl⟩
          | cons arg argv =>
              have hcode : (code, fds) = (.exec (arg :: argv), w.fds) := hcode
              cases hcode
              simp only [ownCall] at hcall
              split at hcall
              · cases hcall
                exact .inl ⟨_, .start, .program⟩
              · cases hcall
                exact .inl ⟨_, .fail (List.cons_ne_nil _ _ <| Cmd.exec.inj ·), .done rfl⟩
      | redir cmd file mode fd =>
          have hcode : (code, fds) = (.open file mode (runcmd cmd), close w.fds fd) := hcode
          cases hcode
          simp only [ownCall, Wiring.fdalloc_close hstd.1] at hcall
          split at hcall
          · rename_i fd' heq
            cases heq
            cases hcall
            refine .inl ⟨_, .opened, .todo hstd.2 ?_⟩
            rw [Wiring.fds_set hstd.1]
            show settle _ (update (update w.fds fd none) fd _) = _
            rw [Function.update_idem]
          · cases hcall
            exact .inl ⟨_, .fail (by intro heq; cases heq), .done rfl⟩
      | pipe left right =>
          have hcode : (code, fds) = (.pipe (pipeCode (runcmd left) (runcmd right)), w.fds) := hcode
          cases hcode
          simp only [ownCall, Wiring.fdalloc_fds] at hcall
          split at hcall
          · rename_i p0 heq
            cases heq
            simp only [Wiring.fdalloc_rd] at hcall
            cases hcall
            exact .inl ⟨_, .pipe, .fresh hstd.1 hstd.2⟩
          · cases hcall
            exact .inl ⟨_, .fail (by intro heq; cases heq), .done rfl⟩
      | list left right =>
          have hcode : (code, fds) = (.fork (runcmd left) (.wait (runcmd right)), w.fds) := hcode
          cases hcode
          cases hcall
      | back cmd =>
          have hcode : (code, fds) = (.fork (runcmd cmd) .exit, w.fds) := hcode
          cases hcode
          cases hcall

theorem Tree.step_kid {n n' : Nat} {c : Choice} {i : Nat} {path : List Nat} {status : Status W}
    {fds : Fds W} {kids : List (Tree W)} {e : Option (Event W)} {t u : Tree W}
    (hget : kids[i]? = some t) (h : t.step n c path = some (e, n', u)) :
    (Tree.node status fds kids).step n c (i :: path) =
      some (e, n', .node status fds (kids.set i u)) := by
  simp only [Tree.step, hget, h, Option.map_some]

/-- A part of a job goes on. -/
theorem Matches.lift {n n' : Nat} {job : Job W} {e : Option (Event W)} {t t' : Tree W}
    {f : Job W → Job W} (h : Matches n job e n' t)
    (hstep : ∀ job', job.Step n e n' job' → (f job).Step n e n' (f job'))
    (hsim : ∀ job', Sim t job' → Sim t' (f job')) : Matches n (f job) e n' t' := by
  rcases h with ⟨job', hjob, ht⟩ | ⟨he, hn, ht⟩
  · exact .inl ⟨f job', hstep job' hjob, hsim job' ht⟩
  · exact .inr ⟨he, hn, hsim job ht⟩

/-- A process that has ended does nothing but `exit`. -/
theorem rootStep_ended {n n' : Nat} {c : Choice} {status : Status W} {fds : Fds W}
    {kids : List (Tree W)} {e : Option (Event W)} {t : Tree W} (hended : status.ended = true)
    (h : rootStep n c (.node status fds kids) = some (e, n', t)) :
    e = none ∧ n' = n ∧ t = .node .zombie noFds kids := by
  cases status with
  | shell code =>
      cases code with
      | exit =>
          cases h
          exact ⟨rfl, rfl, rfl⟩
      | _ => cases hended
  | program argv => cases hended
  | zombie => cases h
  | reaped => cases h

/-- A process that waits for a child. -/
theorem rootStep_wait {n n' : Nat} {c : Choice} {next : Code W} {fds : Fds W}
    {kids : List (Tree W)} {e : Option (Event W)} {t : Tree W}
    (hnot : kids.all Tree.isReaped = false)
    (h : rootStep n c (.node (.shell (.wait next)) fds kids) = some (e, n', t)) :
    e = none ∧ n' = n ∧ ∃ i f ks, kids[i]? = some (.node .zombie f ks) ∧
      t = .node (.shell next) fds (kids.set i (.node .reaped f ks)) := by
  rw [rootStep_shell] at h
  rcases callStep_cases h with ⟨_, _, hcode, _⟩ |
    ⟨_, hcode, rfl, rfl, hchild | ⟨hall, _⟩⟩ | ⟨_, _, hcall, _⟩
  · cases hcode
  · cases hcode
    exact ⟨rfl, rfl, hchild⟩
  · rw [hnot] at hall
    cases hall
  · cases hcall

/-- Every step of the processes is a step of the job, or shows nothing. -/
theorem Sim.step {t : Tree W} {job : Job W} (h : Sim t job) :
    ∀ {n n' : Nat} {c : Choice} {path : List Nat} {e : Option (Event W)} {t' : Tree W},
      t.step n c path = some (e, n', t') → Matches n job e n' t' := by
  induction h with
  | todo hstd hcode =>
      intro n n' c path e t' h
      rcases Tree.step_cases h with h | ⟨_, _, _, _, hget, _⟩
      · exact matches_todo hstd hcode h
      · cases hget
  | program =>
      intro n n' c path e t' h
      rcases Tree.step_cases h with h | ⟨_, _, _, _, hget, _⟩
      · cases h
        exact .inl ⟨_, .stop, .done rfl⟩
      · cases hget
  | done hended =>
      intro n n' c path e t' h
      rcases Tree.step_cases h with h | ⟨_, _, _, _, hget, _⟩
      · obtain ⟨rfl, rfl, rfl⟩ := rootStep_ended hended h
        exact .inr ⟨rfl, rfl, .done rfl⟩
      · cases hget
  | @seq t job cmd w hsim hreaped hstd ih =>
      intro n n' c path e t' h
      rcases Tree.step_cases h with h | ⟨i, path', u, u', hget, hstep, rfl⟩
      · obtain ⟨rfl, rfl, i, f, ks, hget, rfl⟩ :=
          rootStep_wait (by rw [List.all_cons, hreaped]; rfl) h
        cases i with
        | succ i => cases hget
        | zero =>
            cases hget
            exact .inl ⟨_, .next (hsim.finished rfl rfl),
              .beside (.todo hstd rfl) (hsim.reap rfl) (.inl rfl)⟩
      · cases i with
        | succ i => cases hget
        | zero =>
            cases hget
            have hreaped' := (Tree.step_isReaped hstep).trans hreaped
            exact (ih hstep).lift (f := fun j => .seq j cmd w) (fun _ => .seq)
              fun _ hsim' => .seq hsim' hreaped' hstd
  | @fresh left right w k hleft hright =>
      intro n n' c path e t' h
      rcases Tree.step_cases h with h | ⟨_, _, _, _, hget, _⟩
      · rw [rootStep_shell] at h
        rcases callStep_cases h with ⟨child, next, hcode, rfl, ⟨rfl, rfl⟩ | ⟨rfl, rfl⟩⟩ |
          ⟨_, hcode, _⟩ | ⟨_, _, hcall, _⟩
        · cases hcode
          exact .inr ⟨rfl, rfl, .half (.todo hleft settle_leftCode) rfl hright⟩
        · exact .inl ⟨_, .failBoth, .done rfl⟩
        · cases hcode
        · cases hcall
      · cases hget
  | @half t left right w k hsim hreaped hright ih =>
      intro n n' c path e t' h
      rcases Tree.step_cases h with h | ⟨i, path', u, u', hget, hstep, rfl⟩
      · rw [rootStep_shell] at h
        rcases callStep_cases h with ⟨child, next, hcode, rfl, ⟨rfl, rfl⟩ | ⟨rfl, rfl⟩⟩ |
          ⟨_, hcode, _⟩ | ⟨_, _, hcall, _⟩
        · cases hcode
          refine .inr ⟨rfl, rfl, .both hsim (.todo hright settle_rightCode) hreaped rfl ?_⟩
          show (_, close (close (w.piped k) 3) 4) = _
          rw [Wiring.close_piped]
        · exact .inl ⟨_, .failRight, .beside (.done rfl) hsim (.inr rfl)⟩
        · cases hcode
        · cases hcall
      · cases i with
        | succ i => cases hget
        | zero =>
            cases hget
            have hreaped' := (Tree.step_isReaped hstep).trans hreaped
            exact (ih hstep).lift (f := fun j => .pipe k j (.todo right (w.set 0 (.rd k))) w)
              (fun _ => .left) fun _ hsim' => .half hsim' hreaped' hright
  | @both code fds tl tr left right w k hleft hright hl hr hcode ihl ihr =>
      intro n n' c path e t' h
      rcases Tree.step_cases h with h | ⟨i, path', u, u', hget, hstep, rfl⟩
      · rw [rootStep_shell] at h
        rcases callStep_cases h with ⟨_, _, rfl, _⟩ |
          ⟨next, rfl, rfl, rfl, ⟨i, f, ks, hget, rfl⟩ | ⟨hall, _⟩⟩ | ⟨status, fds', hcall, rfl⟩
        · cases hcode
        · cases hcode
          cases i with
          | zero =>
              cases hget
              exact .inr ⟨rfl, rfl, .one (hleft.reap rfl) hright (by rw [hr]; rfl)⟩
          | succ i =>
              cases i with
              | zero =>
                  cases hget
                  exact .inr ⟨rfl, rfl, .one hleft (hright.reap rfl) hl⟩
              | succ i => cases hget
        · rw [List.all_cons, hl] at hall
          cases hall
        · rcases ownCall_settle hcall with ⟨code', rfl, rfl, rfl, hsettle⟩ | hsettle
          · exact .inr ⟨rfl, rfl, .both hleft hright hl hr (hsettle.trans hcode)⟩
          · rw [hsettle] at hcode
            cases hcode
            cases hcall
      · cases i with
        | zero =>
            cases hget
            have hl' := (Tree.step_isReaped hstep).trans hl
            exact (ihl hstep).lift (f := fun j => .pipe k j right w) (fun _ => .left)
              fun _ hsim => .both hsim hright hl' hr hcode
        | succ i =>
            cases i with
            | zero =>
                cases hget
                have hr' := (Tree.step_isReaped hstep).trans hr
                exact (ihr hstep).lift (f := fun j => .pipe k left j w) (fun _ => .right)
                  fun _ hsim => .both hleft hsim hl hr' hcode
            | succ i => cases hget
  | @one tl tr left right w k hleft hright hone ihl ihr =>
      intro n n' c path e t' h
      rcases Tree.step_cases h with h | ⟨i, path', u, u', hget, hstep, rfl⟩
      · obtain ⟨rfl, rfl, i, f, ks, hget, rfl⟩ := rootStep_wait (by
          rw [List.all_cons, List.all_cons, List.all_nil, hone]
          cases tr.isReaped <;> rfl) h
        cases i with
        | zero =>
            cases hget
            have hr : tr.isReaped = true := by
              cases htr : tr.isReaped with
              | true => rfl
              | false =>
                  rw [htr] at hone
                  cases hone
            exact .inr ⟨rfl, rfl, .waited (hleft.reap rfl) hright rfl hr rfl⟩
        | succ i =>
            cases i with
            | zero =>
                cases hget
                exact .inr ⟨rfl, rfl, .waited hleft (hright.reap rfl) hone rfl rfl⟩
            | succ i => cases hget
      · cases i with
        | zero =>
            cases hget
            have hone' := (Tree.step_isReaped hstep).trans hone
            exact (ihl hstep).lift (f := fun j => .pipe k j right w) (fun _ => .left)
              fun _ hsim => .one hsim hright hone'
        | succ i =>
            cases i with
            | zero =>
                cases hget
                have hone' : tl.isReaped = !u'.isReaped := by
                  rw [Tree.step_isReaped hstep]
                  exact hone
                exact (ihr hstep).lift (f := fun j => .pipe k left j w) (fun _ => .right)
                  fun _ hsim => .one hleft hsim hone'
            | succ i => cases hget
  | @waited status fds tl tr left right w k hleft hright hl hr hended ihl ihr =>
      intro n n' c path e t' h
      rcases Tree.step_cases h with h | ⟨i, path', u, u', hget, hstep, rfl⟩
      · obtain ⟨rfl, rfl, rfl⟩ := rootStep_ended hended h
        exact .inr ⟨rfl, rfl, .waited hleft hright hl hr rfl⟩
      · cases i with
        | zero =>
            cases hget
            have hl' := (Tree.step_isReaped hstep).trans hl
            exact (ihl hstep).lift (f := fun j => .pipe k j right w) (fun _ => .left)
              fun _ hsim => .waited hsim hright hl' hr hended
        | succ i =>
            cases i with
            | zero =>
                cases hget
                have hr' := (Tree.step_isReaped hstep).trans hr
                exact (ihr hstep).lift (f := fun j => .pipe k left j w) (fun _ => .right)
                  fun _ hsim => .waited hleft hsim hl hr' hended
            | succ i => cases hget
  | @beside status fds t kids job back hsim hback hold ih ihback =>
      intro n n' c path e t' h
      rcases Tree.step_cases h with h | ⟨i, path', u, u', hget, hstep, rfl⟩
      · obtain ⟨c', status', fds', kids', rfl, hroot, hold'⟩ := rootStep_cons h hold
        have hstep : (Tree.node status fds kids).step n c' [] = _ := hroot
        exact (ih hstep).lift (f := fun j => .beside j back) (fun _ => .fore)
          fun _ hsim' => .beside hsim' hback hold'
      · cases i with
        | zero =>
            cases hget
            have hreaped := Tree.step_isReaped hstep
            exact (ihback hstep).lift (f := fun j => .beside job j) (fun _ => .aft)
              fun _ hsim' => .beside hsim hsim' (by rw [hreaped]; exact hold)
        | succ i =>
            exact (ih (Tree.step_kid hget hstep)).lift (f := fun j => .beside j back)
              (fun _ => .fore) fun _ hsim' => .beside hsim' hback hold

/-! ## The result -/

/-- The steps of jobs, with the number of the next open file or pipe. -/
def JobStep (s : Nat × Job W) (e : Option (Event W)) (t : Nat × Job W) : Prop :=
  s.2.Step s.1 e t.1 t.2

/-- `runcmd cmd`, with the descriptors 0, 1 and 2 open. -/
def begin (n : Nat) (cmd : Cmd W) (w : Wiring W) : State W :=
  (n, .node (.shell (runcmd cmd)) w.fds [])

theorem sim_simulation :
    Simulation (Step (W := W)) JobStep fun s j => s.1 = j.1 ∧ Sim s.2 j.2 where
  sim := by
    rintro ⟨n, t⟩ ⟨n, job⟩ e ⟨n', t'⟩ ⟨rfl, hsim⟩ ⟨⟨path, c⟩, hstep⟩
    rcases hsim.step hstep with ⟨job', hjob, hsim'⟩ | ⟨he, hn, hsim'⟩
    · exact .inl ⟨(n', job'), hjob, rfl, hsim'⟩
    · exact .inr ⟨he, hn, hsim'⟩

theorem Standard.refines {n : Nat} {cmd : Cmd W} {w : Wiring W} {es : List (Event W)}
    {s : State W} (hstd : Standard cmd) (h : Trace Step (begin n cmd w) es s) :
    ∃ job, Trace JobStep (n, .todo cmd w) es (s.1, job) ∧ Sim s.2 job := by
  obtain ⟨⟨n', job⟩, htrace, heq, hsim⟩ :=
    sim_simulation.trace (a := (n, .todo cmd w)) ⟨rfl, .todo hstd rfl⟩ h
  have heq : s.1 = n' := heq
  rw [heq]
  exact ⟨job, htrace, hsim⟩

/-! ## Commands that are parsed -/

theorem Standard.back {cmd : Cmd W} (h : Standard cmd) (n : Nat) :
    Standard (Cmd.back^[n] cmd) := by
  induction n generalizing cmd with
  | zero => exact h
  | succ n ih =>
      have hback : Standard (.back cmd) := h
      exact ih hback

theorem Standard.redirNode {cmd : Cmd W} (h : Standard cmd) (c : UInt8) (file : W) :
    Standard (Shell.redirNode c file cmd) := by
  unfold Shell.redirNode
  split
  · exact ⟨by decide, h⟩
  · split
    · exact ⟨by decide, h⟩
    · split
      · exact ⟨by decide, h⟩
      · exact h

theorem Standard.wrap {cmd : Cmd W} (h : Standard cmd) (rs : List (Redir W)) :
    Standard (Shell.wrap cmd rs) := by
  unfold Shell.wrap
  induction rs generalizing cmd with
  | nil => exact h
  | cons r rs ih => exact ih (h.redirNode r.op r.file)

mutual

/-- The parser redirects the descriptors 0 and 1 only. -/
theorem Line.standard {ts : List (Token W)} {cmd : Cmd W} : Line ts cmd → Standard cmd
  | .last n h => (Pipe.standard h).back n
  | .seq n h h' => ⟨(Pipe.standard h).back n, Line.standard h'⟩

theorem Pipe.standard {ts : List (Token W)} {cmd : Cmd W} : Pipe ts cmd → Standard cmd
  | .last h => Exec.standard h
  | .bar h h' => ⟨Exec.standard h, Pipe.standard h'⟩

theorem Exec.standard {ts : List (Token W)} {cmd : Cmd W} : Exec ts cmd → Standard cmd
  | .block rs h => (Line.standard h).wrap rs
  | .words _ gs _ =>
      have hexec : Standard (.exec (gs.map Arg.word)) := trivial
      hexec.wrap _

end

/-- The process has exited. -/
def Tree.exited : Tree W → Bool
  | .node status _ _ => status.dead

/-- What the processes of a command show, the job shows; and when the process that the
shell waits for has exited, the job has come to its end. -/
theorem runcmd_refines {ts : List (Token W)} {n : Nat} {cmd : Cmd W} {w : Wiring W}
    {es : List (Event W)} {s : State W} (hline : Line ts cmd)
    (h : Trace Step (begin n cmd w) es s) :
    ∃ job, Trace JobStep (n, .todo cmd w) es (s.1, job) ∧
      (s.2.exited = true → job.Finished) := by
  obtain ⟨job, htrace, hsim⟩ := (Line.standard hline).refines h
  refine ⟨job, htrace, ?_⟩
  obtain ⟨n', status, fds, kids⟩ := s
  exact hsim.finished rfl

/-- `a | b`, with numbers for the words. -/
theorem line_pipeline : Line [.word 0, .sym Shell.bar, .word 1]
    (.pipe (.exec [0]) (.exec [1])) :=
  .last 0 (.bar (.words [] [⟨0, []⟩] (by decide)) (.last (.words [] [⟨1, []⟩] (by decide))))

/-- What the shell has open. -/
def given : Wiring Nat := fun i => .given i

/-- `a | b` up to the start of the two programs. -/
def pipelineStarted : List Act :=
  List.replicate 5 ([], .ok) ++ List.replicate 5 ([0], .ok) ++ List.replicate 5 ([1], .ok)

/-- Both programs end, and the shell waits for them. -/
def pipelineEnded : List Act :=
  pipelineStarted ++ [([1], .ok), ([], .child 1), ([0], .ok), ([], .child 0), ([], .ok)]

theorem runcmd_refines_pipeline :
    ∃ es job s, Trace Step (begin 0 (.pipe (.exec [0]) (.exec [1])) given) es s ∧
      es.length = 4 ∧
      Trace JobStep (0, .todo (.pipe (.exec [0]) (.exec [1])) given) es (s.1, job) ∧
      job.Finished := by
  obtain ⟨es, s, htrace, htest⟩ := exists_trace_of_replay (f := act) (l := pipelineEnded)
    (s := begin 0 (.pipe (.exec [0]) (.exec [1])) given)
    (p := fun r => decide (r.1.length = 4) && r.2.2.exited) (by decide +kernel)
  rw [Bool.and_eq_true, decide_eq_true_iff] at htest
  obtain ⟨job, hjob, hfinished⟩ := runcmd_refines line_pipeline htrace
  exact ⟨es, job, s, htrace, htest.1, hjob, hfinished htest.2⟩

end OsWork.Ports.ShellRun

import OsWork.Ports.ShellRun
import Mathlib.Data.List.Infix

/-!
# The descriptors of the processes that `runcmd` makes

A reader of a pipe sees the end of the data only when every copy of the end that is
written to is closed.  While it makes a pipeline the shell has more copies than it needs;
this module says who has them when it is done: a process that runs a program or waits for
its children is *settled*, and settled processes have three descriptors.  Those that can
read a pipe are to the right of those that can write to it.

## Main results

* `settled_descriptors` — settled processes have the descriptors 0, 1 and 2 and no others,
  and for every pipe there are two neighbours in the tree of processes: everybody who can read
  it is below the right one, and everybody who can write to it is below the left one.
-/

namespace OsWork.Ports.ShellRun

open OsWork.Verified.Refinement
open Shell (Cmd Token Line)

variable {W : Type}

/-! ## The descriptors of a job -/

def Wiring.Holds (w : Wiring W) (d : Desc W) : Prop := ∃ i, w i = d

def Job.Holds (d : Desc W) : Job W → Prop
  | .todo _ w => w.Holds d
  | .program _ w => w.Holds d
  | .done => False
  | .seq job _ w => job.Holds d ∨ w.Holds d
  | .pipe _ left right w => left.Holds d ∨ right.Holds d ∨ w.Holds d
  | .beside job back => job.Holds d ∨ back.Holds d

/-- What `open` and `pipe` make when the next number is `n`. -/
def Desc.New (n : Nat) : Desc W → Prop
  | .given _ => False
  | .file id _ _ => id = n
  | .rd id => id = n
  | .wr id => id = n

theorem Wiring.holds_set {w : Wiring W} {fd : Nat} {d d' : Desc W}
    (h : (w.set fd d').Holds d) : w.Holds d ∨ d = d' := by
  obtain ⟨i, rfl⟩ := h
  by_cases hi : i.val = fd
  · exact .inr (if_pos hi)
  · exact .inl ⟨i, (if_neg hi).symm⟩

/-- A job comes by a descriptor from what it has, or makes it. -/
theorem Job.Step.holds {n n' : Nat} {job job' : Job W} {e : Option (Event W)} {d : Desc W}
    (h : job.Step n e n' job') (hd : job'.Holds d) :
    job.Holds d ∨ n' = n + 1 ∧ d.New n := by
  induction h with
  | nothing | stop | fail | failBoth => cases hd
  | start => exact .inl hd
  | opened =>
      rcases Wiring.holds_set hd with hd | rfl
      · exact .inl hd
      · exact .inr ⟨rfl, rfl⟩
  | list =>
      rcases hd with hd | hd
      · exact .inl hd
      · exact .inl hd
  | next =>
      rcases hd with hd | hd
      · exact .inl (.inr hd)
      · exact .inl (.inl hd)
  | pipe =>
      rcases hd with hd | hd | hd
      · rcases Wiring.holds_set hd with hd | rfl
        · exact .inl hd
        · exact .inr ⟨rfl, rfl⟩
      · rcases Wiring.holds_set hd with hd | rfl
        · exact .inl hd
        · exact .inr ⟨rfl, rfl⟩
      · exact .inl hd
  | failRight =>
      rcases hd with hd | hd
      · cases hd
      · exact .inl (.inl hd)
  | back =>
      rcases hd with hd | hd
      · cases hd
      · exact .inl hd
  | seq _ ih | left _ ih | fore _ ih =>
      rcases hd with hd | hd
      · exact (ih hd).imp_left .inl
      · exact .inl (.inr hd)
  | right _ ih =>
      rcases hd with hd | hd | hd
      · exact .inl (.inl hd)
      · exact (ih hd).imp_left fun hd => .inr (.inl hd)
      · exact .inl (.inr (.inr hd))
  | aft _ ih =>
      rcases hd with hd | hd
      · exact .inl (.inl hd)
      · exact (ih hd).imp_left .inr

/-! ## Where a pipe is -/

/-- No end of the pipe is in the job. -/
def Job.Free (k : Nat) (job : Job W) : Prop := ¬ job.Holds (.rd k) ∧ ¬ job.Holds (.wr k)

def Wiring.Free (k : Nat) (w : Wiring W) : Prop := ¬ w.Holds (.rd k) ∧ ¬ w.Holds (.wr k)

theorem Job.Free.done {k : Nat} : (Job.done : Job W).Free k := ⟨id, id⟩

theorem Job.Free.beside {k : Nat} {job back : Job W} (hj : job.Free k) (hb : back.Free k) :
    Job.Free k (.beside job back) :=
  ⟨fun hd => hd.elim hj.1 hb.1, fun hd => hd.elim hj.2 hb.2⟩

/-- What reads the pipe and what writes to it are the two sides of one `|`. -/
inductive Job.Apart (k : Nat) : Job W → Prop
  | none {job : Job W} : job.Free k → Apart k job
  /-- the left side alone, after the `fork` of the right side has failed -/
  | writers {job back : Job W} : job.Free k → ¬ back.Holds (.rd k) → Apart k (.beside job back)
  | here {k' : Nat} {left right : Job W} {w : Wiring W} : ¬ left.Holds (.rd k) →
      ¬ right.Holds (.wr k) → w.Free k → Apart k (.pipe k' left right w)
  | seq {job : Job W} {cmd : Cmd W} {w : Wiring W} : Apart k job → w.Free k →
      Apart k (.seq job cmd w)
  | left {k' : Nat} {left right : Job W} {w : Wiring W} : Apart k left → right.Free k →
      w.Free k → Apart k (.pipe k' left right w)
  | right {k' : Nat} {left right : Job W} {w : Wiring W} : left.Free k → Apart k right →
      w.Free k → Apart k (.pipe k' left right w)
  | fore {job back : Job W} : Apart k job → back.Free k → Apart k (.beside job back)
  | aft {job back : Job W} : job.Free k → Apart k back → Apart k (.beside job back)

theorem Job.Step.not_holds {n n' : Nat} {job job' : Job W} {e : Option (Event W)} {d : Desc W}
    (h : job.Step n e n' job') (hnew : ¬ d.New n) (hd : ¬ job.Holds d) : ¬ job'.Holds d := by
  intro hd'
  rcases h.holds hd' with hd' | ⟨_, hd'⟩
  · exact hd hd'
  · exact hnew hd'

theorem Job.Step.free {n n' k : Nat} {job job' : Job W} {e : Option (Event W)}
    (h : job.Step n e n' job') (hk : k ≠ n) (hfree : job.Free k) : job'.Free k :=
  ⟨h.not_holds hk hfree.1, h.not_holds hk hfree.2⟩

/-- A pipe that is there stays where it is. -/
theorem Job.Step.apart {n n' k : Nat} {job job' : Job W} {e : Option (Event W)}
    (h : job.Step n e n' job') (hk : k ≠ n) (hapart : job.Apart k) : job'.Apart k := by
  induction hapart generalizing job' with
  | none hfree => exact .none (h.free hk hfree)
  | writers hj hb =>
      cases h with
      | fore hstep => exact .writers (hstep.free hk hj) hb
      | aft hstep => exact .writers hj (hstep.not_holds hk hb)
  | here hl hr hw =>
      cases h with
      | failBoth => exact .none .done
      | failRight => exact .writers .done hl
      | left hstep => exact .here (hstep.not_holds hk hl) hr hw
      | right hstep => exact .here hl (hstep.not_holds hk hr) hw
  | seq hjob hw ih =>
      cases h with
      | next => exact .aft hw hjob
      | seq hstep => exact .seq (ih hstep) hw
  | left hl hr hw ih =>
      cases h with
      | failBoth => exact .none .done
      | failRight => exact .aft .done hl
      | left hstep => exact .left (ih hstep) hr hw
      | right hstep => exact .left hl (hstep.free hk hr) hw
  | right hl hr hw ih =>
      cases h with
      | failBoth => exact .none .done
      | failRight => exact .none (.beside .done hl)
      | left hstep => exact .right (hstep.free hk hl) hr hw
      | right hstep => exact .right hl (ih hstep) hw
  | fore hj hb ih =>
      cases h with
      | fore hstep => exact .fore (ih hstep) hb
      | aft hstep => exact .fore hj (hstep.free hk hb)
  | aft hj hb ih =>
      cases h with
      | fore hstep => exact .aft (hstep.free hk hj) hb
      | aft hstep => exact .aft hj (ih hstep)

/-- A new pipe is where it is made. -/
theorem Job.Step.apart_new {n n' : Nat} {job job' : Job W} {e : Option (Event W)}
    (h : job.Step n e n' job') (hfree : job.Free n) : job'.Apart n := by
  induction h with
  | nothing | stop | fail | failBoth => exact .none .done
  | start => exact .none hfree
  | list =>
      exact .none ⟨fun hd => hfree.1 (or_self_iff.mp hd), fun hd => hfree.2 (or_self_iff.mp hd)⟩
  | opened =>
      apply Apart.none
      constructor
      · intro hd
        rcases Wiring.holds_set hd with hd | hd
        · exact hfree.1 hd
        · cases hd
      · intro hd
        rcases Wiring.holds_set hd with hd | hd
        · exact hfree.2 hd
        · cases hd
  | next => exact .none ⟨fun hd => hfree.1 (Or.symm hd), fun hd => hfree.2 (Or.symm hd)⟩
  | pipe =>
      apply Apart.here
      · intro hd
        rcases Wiring.holds_set hd with hd | hd
        · exact hfree.1 hd
        · cases hd
      · intro hd
        rcases Wiring.holds_set hd with hd | hd
        · exact hfree.2 hd
        · cases hd
      · exact hfree
  | failRight =>
      exact .none (.beside .done ⟨fun hd => hfree.1 (.inl hd), fun hd => hfree.2 (.inl hd)⟩)
  | back => exact .none (.beside .done hfree)
  | seq _ ih =>
      have hw : Wiring.Free _ _ := ⟨fun hd => hfree.1 (.inr hd), fun hd => hfree.2 (.inr hd)⟩
      exact .seq (ih ⟨fun hd => hfree.1 (.inl hd), fun hd => hfree.2 (.inl hd)⟩) hw
  | left _ ih =>
      exact .left (ih ⟨fun hd => hfree.1 (.inl hd), fun hd => hfree.2 (.inl hd)⟩)
        ⟨fun hd => hfree.1 (.inr (.inl hd)), fun hd => hfree.2 (.inr (.inl hd))⟩
        ⟨fun hd => hfree.1 (.inr (.inr hd)), fun hd => hfree.2 (.inr (.inr hd))⟩
  | right _ ih =>
      exact .right ⟨fun hd => hfree.1 (.inl hd), fun hd => hfree.2 (.inl hd)⟩
        (ih ⟨fun hd => hfree.1 (.inr (.inl hd)), fun hd => hfree.2 (.inr (.inl hd))⟩)
        ⟨fun hd => hfree.1 (.inr (.inr hd)), fun hd => hfree.2 (.inr (.inr hd))⟩
  | fore _ ih =>
      exact .fore (ih ⟨fun hd => hfree.1 (.inl hd), fun hd => hfree.2 (.inl hd)⟩)
        ⟨fun hd => hfree.1 (.inr hd), fun hd => hfree.2 (.inr hd)⟩
  | aft _ ih =>
      exact .aft ⟨fun hd => hfree.1 (.inl hd), fun hd => hfree.2 (.inl hd)⟩
        (ih ⟨fun hd => hfree.1 (.inr hd), fun hd => hfree.2 (.inr hd)⟩)

theorem Job.Step.le {n n' : Nat} {job job' : Job W} {e : Option (Event W)}
    (h : job.Step n e n' job') : n' = n ∨ n' = n + 1 := by
  induction h with
  | opened | pipe => exact .inr rfl
  | seq _ ih | left _ ih | right _ ih | fore _ ih | aft _ ih => exact ih
  | _ => exact .inl rfl

/-- The pipes from the number `n` on are in order. -/
structure InOrder (n : Nat) (s : Nat × Job W) : Prop where
  le : n ≤ s.1
  free : ∀ k, s.1 ≤ k → s.2.Free k
  apart : ∀ k, n ≤ k → k < s.1 → s.2.Apart k

theorem InOrder.step {n : Nat} {s t : Nat × Job W} {e : Option (Event W)} (h : InOrder n s)
    (hstep : JobStep s e t) : InOrder n t := by
  have hle : s.1 ≤ t.1 := by
    rcases Job.Step.le hstep with hle | hle <;> omega
  constructor
  · exact Nat.le_trans h.le hle
  · intro k hk
    have hfree := h.free k (Nat.le_trans hle hk)
    have hkeep : ∀ d : Desc W, (d.New s.1 → k = s.1) → ¬ s.2.Holds d → ¬ t.2.Holds d := by
      intro d hnew hd hd'
      rcases Job.Step.holds hstep hd' with hd' | ⟨hn, hd'⟩
      · exact hd hd'
      · have heq := hnew hd'
        omega
    exact ⟨hkeep (.rd k) id hfree.1, hkeep (.wr k) id hfree.2⟩
  · intro k hnk hk
    rcases Nat.lt_or_ge k s.1 with hlt | hge
    · exact Job.Step.apart hstep (Nat.ne_of_lt hlt) (h.apart k hnk hlt)
    · have heq : k = s.1 := by
        rcases Job.Step.le hstep with hle | hle <;> omega
      rw [heq]
      exact Job.Step.apart_new hstep (h.free s.1 (Nat.le_refl _))

/-! ## Settled processes -/

/-- The process runs a program or waits for its children. -/
def Status.settled : Status W → Bool
  | .program _ => true
  | .shell (.wait _) => true
  | _ => false

/-- The process on a path. -/
def Tree.proc : Tree W → List Nat → Option (Status W × Fds W)
  | .node status fds _, [] => some (status, fds)
  | .node _ _ kids, i :: path => kids[i]?.bind fun t => t.proc path

def Tree.At (t : Tree W) (path : List Nat) (status : Status W) (fds : Fds W) : Prop :=
  t.proc path = some (status, fds)

theorem Tree.At.root {status : Status W} {fds : Fds W} {kids : List (Tree W)} :
    (Tree.node status fds kids).At [] status fds := rfl

theorem Tree.At.kid {i : Nat} {path : List Nat} {status status' : Status W} {fds fds' : Fds W}
    {kids : List (Tree W)} {t : Tree W} (hget : kids[i]? = some t) (h : t.At path status fds) :
    (Tree.node status' fds' kids).At (i :: path) status fds := by
  unfold Tree.At Tree.proc
  rw [hget]
  exact h

theorem Tree.At.cases {status status' : Status W} {fds fds' : Fds W} {kids : List (Tree W)}
    {path : List Nat} (h : (Tree.node status' fds' kids).At path status fds) :
    path = [] ∧ status = status' ∧ fds = fds' ∨
      ∃ i path' t, path = i :: path' ∧ kids[i]? = some t ∧ t.At path' status fds := by
  cases path with
  | nil =>
      cases h
      exact .inl ⟨rfl, rfl, rfl⟩
  | cons i path =>
      obtain ⟨t, hget, h⟩ := Option.bind_eq_some_iff.mp h
      exact .inr ⟨i, path, t, rfl, hget, h⟩

theorem settled_of_settle {code code' : Code W} {fds fds' : Fds W}
    (h : Status.settled (.shell code) = true) (hcode : settle code fds = (code', fds')) :
    code = code' ∧ fds = fds' := by
  cases code with
  | wait next =>
      cases hcode
      exact ⟨rfl, rfl⟩
  | _ => cases h

theorem not_settled_of_todo {code : Code W} {fds : Fds W} {cmd : Cmd W} {w : Wiring W}
    (hcode : settle code fds = settle (runcmd cmd) w.fds) :
    Status.settled (.shell code) = false := by
  cases code with
  | wait next =>
      have hcode : (Code.wait next, fds) = settle (runcmd cmd) w.fds := hcode
      cases cmd with
      | exec argv => cases argv <;> cases hcode
      | redir | pipe | list | back => cases hcode
  | _ => rfl

theorem not_settled_of_ended {status : Status W} (h : status.ended = true) :
    status.settled = false := by
  cases status with
  | shell code =>
      cases code with
      | exit => rfl
      | _ => cases h
  | program argv => cases h
  | zombie => rfl
  | reaped => rfl

/-- A process that makes a pipeline. -/
theorem Sim.pipe_cases {t : Tree W} {k : Nat} {left right : Job W} {w : Wiring W}
    (h : Sim t (.pipe k left right w)) :
    ∃ status fds kids, t = .node status fds kids ∧ (status.settled = true → fds = w.fds) ∧
      ∀ i u, kids[i]? = some u → i = 0 ∧ Sim u left ∨ i = 1 ∧ Sim u right := by
  have hnone : ∀ i u, ([] : List (Tree W))[i]? = some u →
      i = 0 ∧ Sim u left ∨ i = 1 ∧ Sim u right := by
    intro i u hget
    cases hget
  have hpair : ∀ {tl tr : Tree W}, Sim tl left → Sim tr right →
      ∀ i u, [tl, tr][i]? = some u → i = 0 ∧ Sim u left ∨ i = 1 ∧ Sim u right := by
    intro tl tr hl hr i u hget
    match i with
    | 0 =>
        cases hget
        exact .inl ⟨rfl, hl⟩
    | 1 =>
        cases hget
        exact .inr ⟨rfl, hr⟩
    | i + 2 => cases hget
  cases h with
  | fresh => exact ⟨_, _, _, rfl, nofun, hnone⟩
  | half hl _ _ =>
      refine ⟨_, _, _, rfl, nofun, ?_⟩
      intro i u hget
      cases i with
      | zero =>
          cases hget
          exact .inl ⟨rfl, hl⟩
      | succ i => cases hget
  | both hl hr _ _ hcode =>
      exact ⟨_, _, _, rfl, fun hset => (settled_of_settle hset hcode).2, hpair hl hr⟩
  | one hl hr _ => exact ⟨_, _, _, rfl, fun _ => rfl, hpair hl hr⟩
  | waited hl hr _ _ hended =>
      refine ⟨_, _, _, rfl, ?_, hpair hl hr⟩
      intro hset
      rw [not_settled_of_ended hended] at hset
      cases hset

/-- A settled process has the descriptors of its part of the job. -/
theorem Sim.wiring {job : Job W} :
    ∀ {t : Tree W} {path : List Nat} {status : Status W} {fds : Fds W}, Sim t job →
      t.At path status fds → status.settled = true →
      ∃ w : Wiring W, fds = w.fds ∧ ∀ d, w.Holds d → job.Holds d := by
  induction job with
  | todo cmd w =>
      intro t path status fds h hat hset
      cases h with
      | todo _ hcode =>
          rcases hat.cases with ⟨_, rfl, rfl⟩ | ⟨_, _, _, _, hget, _⟩
          · rw [not_settled_of_todo hcode] at hset
            cases hset
          · cases hget
  | program argv w =>
      intro t path status fds h hat hset
      cases h with
      | program =>
          rcases hat.cases with ⟨_, rfl, rfl⟩ | ⟨_, _, _, _, hget, _⟩
          · exact ⟨w, rfl, fun _ => id⟩
          · cases hget
  | done =>
      intro t path status fds h hat hset
      cases h with
      | done hended =>
          rcases hat.cases with ⟨_, rfl, rfl⟩ | ⟨_, _, _, _, hget, _⟩
          · rw [not_settled_of_ended hended] at hset
            cases hset
          · cases hget
  | seq job cmd w ih =>
      intro t path status fds h hat hset
      cases h with
      | seq hsim _ _ =>
          rcases hat.cases with ⟨_, rfl, rfl⟩ | ⟨i, _, _, _, hget, hat⟩
          · exact ⟨w, rfl, fun _ => .inr⟩
          · cases i with
            | zero =>
                cases hget
                obtain ⟨w', hfds, hholds⟩ := ih hsim hat hset
                exact ⟨w', hfds, fun d hd => .inl (hholds d hd)⟩
            | succ i => cases hget
  | pipe k left right w ihl ihr =>
      intro t path status fds h hat hset
      obtain ⟨status', fds', kids, rfl, hroot, hkids⟩ := h.pipe_cases
      rcases hat.cases with ⟨_, rfl, rfl⟩ | ⟨i, _, u, _, hget, hat⟩
      · exact ⟨w, hroot hset, fun _ hd => .inr (.inr hd)⟩
      · rcases hkids i u hget with ⟨_, hsim⟩ | ⟨_, hsim⟩
        · obtain ⟨w', hfds, hholds⟩ := ihl hsim hat hset
          exact ⟨w', hfds, fun d hd => .inl (hholds d hd)⟩
        · obtain ⟨w', hfds, hholds⟩ := ihr hsim hat hset
          exact ⟨w', hfds, fun d hd => .inr (.inl (hholds d hd))⟩
  | beside job back ih ihback =>
      intro t path status fds h hat hset
      cases h with
      | beside hsim hback _ =>
          have hfore : ∀ u path', Sim u job → u.At path' status fds →
              ∃ w : Wiring W, fds = w.fds ∧ ∀ d, w.Holds d → (Job.beside job back).Holds d := by
            intro u path' hu hat'
            obtain ⟨w, hfds, hholds⟩ := ih hu hat' hset
            exact ⟨w, hfds, fun d hd => .inl (hholds d hd)⟩
          rcases hat.cases with ⟨_, rfl, rfl⟩ | ⟨i, _, _, _, hget, hat⟩
          · exact hfore _ [] hsim .root
          · cases i with
            | zero =>
                cases hget
                obtain ⟨w, hfds, hholds⟩ := ihback hback hat hset
                exact ⟨w, hfds, fun d hd => .inr (hholds d hd)⟩
            | succ i => exact hfore _ _ hsim (.kid hget hat)

/-- The settled process on the path has the descriptor. -/
def Tree.Uses (t : Tree W) (d : Desc W) (path : List Nat) : Prop :=
  ∃ status fds fd, t.At path status fds ∧ status.settled = true ∧ fds fd = some d

theorem Sim.holds {t : Tree W} {job : Job W} {d : Desc W} {path : List Nat} (h : Sim t job)
    (huses : t.Uses d path) : job.Holds d := by
  obtain ⟨status, fds, fd, hat, hset, hfd⟩ := huses
  obtain ⟨w, rfl, hholds⟩ := h.wiring hat hset
  apply hholds
  by_cases hlt : fd < 3
  · rw [Wiring.fds_of_lt hlt] at hfd
    exact ⟨_, Option.some.inj hfd⟩
  · rw [Wiring.fds_of_le (Nat.le_of_not_lt hlt)] at hfd
    cases hfd

theorem Tree.Uses.cases {status : Status W} {fds : Fds W} {kids : List (Tree W)} {d : Desc W}
    {path : List Nat} (h : (Tree.node status fds kids).Uses d path) :
    path = [] ∧ (status.settled = true ∧ ∃ fd, fds fd = some d) ∨
      ∃ i path' t, path = i :: path' ∧ kids[i]? = some t ∧ t.Uses d path' := by
  obtain ⟨status', fds', fd, hat, hset, hfd⟩ := h
  rcases hat.cases with ⟨hpath, rfl, rfl⟩ | ⟨i, path', t, hpath, hget, hat⟩
  · exact .inl ⟨hpath, hset, fd, hfd⟩
  · exact .inr ⟨i, path', t, hpath, hget, status', fds', fd, hat, hset, hfd⟩

theorem Wiring.holds_of_fds {w : Wiring W} {fd : Nat} {d : Desc W} (h : w.fds fd = some d) :
    w.Holds d := by
  by_cases hlt : fd < 3
  · rw [fds_of_lt hlt] at h
    exact ⟨_, Option.some.inj h⟩
  · rw [fds_of_le (Nat.le_of_not_lt hlt)] at h
    cases h

/-- Everybody who has the descriptor is the process on the path, or below it. -/
def Tree.Below (t : Tree W) (d : Desc W) (path : List Nat) : Prop :=
  ∀ p, t.Uses d p → path <+: p

theorem Tree.Below.of_not {t : Tree W} {d : Desc W} {path : List Nat} (h : ∀ p, ¬ t.Uses d p) :
    t.Below d path := fun p hp => absurd hp (h p)

/-- The descriptor is below the child `a` only. -/
theorem Tree.Below.kid {status : Status W} {fds : Fds W} {kids : List (Tree W)} {t : Tree W}
    {d : Desc W} {a : Nat} {path : List Nat} (h : t.Below d path) (hget : kids[a]? = some t)
    (honly : ∀ p, (Tree.node status fds kids).Uses d p → ∃ p', p = a :: p') :
    (Tree.node status fds kids).Below d (a :: path) := by
  intro p hp
  obtain ⟨p, rfl⟩ := honly p hp
  rcases hp.cases with ⟨hpath, _⟩ | ⟨_, _, u, hpath, hget', huses⟩
  · cases hpath
  · cases hpath
    rw [hget] at hget'
    cases hget'
    exact List.cons_prefix_cons.mpr ⟨rfl, h p huses⟩

/-- Everybody who reads the pipe is below the child `i + 1` of the process on the path, and
everybody who writes to it is below the child `i`. -/
def Tree.Sides (t : Tree W) (k : Nat) (path : List Nat) (i : Nat) : Prop :=
  t.Below (.rd k) (path ++ [i + 1]) ∧ t.Below (.wr k) (path ++ [i])

theorem Tree.Sides.of_not {t : Tree W} {k : Nat}
    (h : ∀ d, d = .rd k ∨ d = .wr k → ∀ p, ¬ t.Uses d p) : t.Sides k [] 0 :=
  ⟨.of_not (h _ (.inl rfl)), .of_not (h _ (.inr rfl))⟩

/-- The pipe is below the child `a`, and nothing of it is elsewhere. -/
theorem Tree.Sides.kid {status : Status W} {fds : Fds W} {kids : List (Tree W)} {t : Tree W}
    {k a i : Nat} {path : List Nat} (h : t.Sides k path i) (hget : kids[a]? = some t)
    (honly : ∀ d, d = .rd k ∨ d = .wr k → ∀ p, (Tree.node status fds kids).Uses d p →
      ∃ p', p = a :: p') :
    (Tree.node status fds kids).Sides k (a :: path) i :=
  ⟨h.1.kid hget (honly _ (.inl rfl)), h.2.kid hget (honly _ (.inr rfl))⟩

theorem Wiring.Free.not_holds {k : Nat} {w : Wiring W} (h : w.Free k) {d : Desc W}
    (hd : d = .rd k ∨ d = .wr k) : ¬ w.Holds d := by
  rcases hd with rfl | rfl
  · exact h.1
  · exact h.2

/-- Nobody has an end of a pipe that is not in the job. -/
theorem Job.Free.not_uses {k : Nat} {job : Job W} (h : job.Free k) {t : Tree W} (hsim : Sim t job)
    {d : Desc W} (hd : d = .rd k ∨ d = .wr k) {p : List Nat} : ¬ t.Uses d p := by
  intro hp
  rcases hd with rfl | rfl
  · exact h.1 (hsim.holds hp)
  · exact h.2 (hsim.holds hp)

/-- One side of a pipe has all that there is of the pipe `k`. -/
theorem Sim.sides_pipe {t : Tree W} {k k' a : Nat} {left right : Job W} {w : Wiring W}
    (h : Sim t (.pipe k' left right w)) (hw : w.Free k)
    (hside : ∀ u, (a = 0 ∧ Sim u left ∨ a = 1 ∧ Sim u right) → ∃ path i, u.Sides k path i)
    (hother : ∀ b u d, b ≠ a → (b = 0 ∧ Sim u left ∨ b = 1 ∧ Sim u right) →
      d = .rd k ∨ d = .wr k → ∀ p, ¬ u.Uses d p) : ∃ path i, t.Sides k path i := by
  obtain ⟨status, fds, kids, rfl, hroot, hkids⟩ := h.pipe_cases
  have honly : ∀ d, d = .rd k ∨ d = .wr k → ∀ p, (Tree.node status fds kids).Uses d p →
      ∃ p', p = a :: p' ∧ ∃ u, kids[a]? = some u := by
    intro d hd p hp
    rcases hp.cases with ⟨rfl, hset, fd, hfd⟩ | ⟨b, p, u, rfl, hget, hp⟩
    · rw [hroot hset] at hfd
      exact absurd (Wiring.holds_of_fds hfd) (hw.not_holds hd)
    · by_cases hb : b = a
      · subst hb
        exact ⟨p, rfl, u, hget⟩
      · exact absurd hp (hother b u d hb (hkids b u hget) hd p)
  cases hget : kids[a]? with
  | none =>
      refine ⟨[], 0, .of_not ?_⟩
      intro d hd p hp
      obtain ⟨_, _, u, hu⟩ := honly d hd p hp
      rw [hget] at hu
      cases hu
  | some u =>
      obtain ⟨path, i, hsides⟩ := hside u (hkids a u hget)
      refine ⟨a :: path, i, hsides.kid hget ?_⟩
      intro d hd p hp
      obtain ⟨p', hp', _⟩ := honly d hd p hp
      exact ⟨p', hp'⟩

/-- A path when there is a child more, in front of the others. -/
def shift : List Nat → List Nat
  | [] => []
  | i :: path => (i + 1) :: path

theorem shift_mono {p q : List Nat} (h : p <+: q) : shift p <+: shift q := by
  cases p with
  | nil => exact List.nil_prefix
  | cons i p =>
      cases q with
      | nil => cases List.prefix_nil.mp h
      | cons j q =>
          obtain ⟨rfl, htail⟩ := List.cons_prefix_cons.mp h
          exact List.cons_prefix_cons.mpr ⟨rfl, htail⟩

/-- Who has the descriptor is below the first child, or would be there without it. -/
theorem Tree.Uses.beside {status : Status W} {fds : Fds W} {t : Tree W} {kids : List (Tree W)}
    {d : Desc W} {p : List Nat} (h : (Tree.node status fds (t :: kids)).Uses d p) :
    (∃ p', p = 0 :: p' ∧ t.Uses d p') ∨
      ∃ p', p = shift p' ∧ (Tree.node status fds kids).Uses d p' := by
  rcases h.cases with ⟨rfl, hset, fd, hfd⟩ | ⟨i, p, u, rfl, hget, status', fds', fd, hat, hset, hfd⟩
  · exact .inr ⟨[], rfl, status, fds, fd, .root, hset, hfd⟩
  · cases i with
    | zero =>
        cases hget
        exact .inl ⟨p, rfl, status', fds', fd, hat, hset, hfd⟩
    | succ i => exact .inr ⟨i :: p, rfl, status', fds', fd, .kid hget hat, hset, hfd⟩

theorem Tree.Below.cons {status : Status W} {fds : Fds W} {t : Tree W} {kids : List (Tree W)}
    {d : Desc W} {path : List Nat} (h : (Tree.node status fds kids).Below d path)
    (hnot : ∀ p, ¬ t.Uses d p) : (Tree.node status fds (t :: kids)).Below d (shift path) := by
  intro p hp
  rcases hp.beside with ⟨p, _, hp⟩ | ⟨p, rfl, hp'⟩
  · exact absurd hp (hnot p)
  · exact shift_mono (h p hp')

/-- A child in front that has nothing of the pipe. -/
theorem Tree.Sides.cons {status : Status W} {fds : Fds W} {t : Tree W} {kids : List (Tree W)}
    {k i : Nat} {path : List Nat} (h : (Tree.node status fds kids).Sides k path i)
    (hrd : ∀ p, ¬ t.Uses (.rd k) p) (hwr : ∀ p, ¬ t.Uses (.wr k) p) :
    ∃ path' i', (Tree.node status fds (t :: kids)).Sides k path' i' := by
  cases path with
  | nil => exact ⟨[], i + 1, h.1.cons hrd, h.2.cons hwr⟩
  | cons j path => exact ⟨(j + 1) :: path, i, h.1.cons hrd, h.2.cons hwr⟩

theorem Sim.sides {k : Nat} {job : Job W} (hapart : job.Apart k) :
    ∀ {t : Tree W}, Sim t job → ∃ path i, t.Sides k path i := by
  induction hapart with
  | none hfree => exact fun h => ⟨[], 0, .of_not fun d hd p hp => hfree.not_uses h hd hp⟩
  | writers hj hb =>
      intro t h
      cases h with
      | beside hsim hback _ =>
          refine ⟨[], 0, .of_not ?_, ?_⟩
          · intro p hp
            rcases hp.beside with ⟨_, _, hp⟩ | ⟨_, _, hp⟩
            · exact hb (hback.holds hp)
            · exact hj.1 (hsim.holds hp)
          · intro p hp
            rcases hp.beside with ⟨p, rfl, _⟩ | ⟨_, _, hp⟩
            · exact List.cons_prefix_cons.mpr ⟨rfl, List.nil_prefix⟩
            · exact absurd (hsim.holds hp) hj.2
  | here hl hr hw =>
      intro t h
      obtain ⟨status, fds, kids, rfl, hroot, hkids⟩ := h.pipe_cases
      refine ⟨[], 0, ?_, ?_⟩
      · intro p hp
        rcases hp.cases with ⟨rfl, hset, fd, hfd⟩ | ⟨i, p, u, rfl, hget, hp⟩
        · rw [hroot hset] at hfd
          exact absurd (Wiring.holds_of_fds hfd) hw.1
        · rcases hkids i u hget with ⟨_, hsim⟩ | ⟨rfl, _⟩
          · exact absurd (hsim.holds hp) hl
          · exact List.cons_prefix_cons.mpr ⟨rfl, List.nil_prefix⟩
      · intro q hq
        rcases hq.cases with ⟨rfl, hset, fd, hfd⟩ | ⟨i, q, u, rfl, hget, hq⟩
        · rw [hroot hset] at hfd
          exact absurd (Wiring.holds_of_fds hfd) hw.2
        · rcases hkids i u hget with ⟨rfl, _⟩ | ⟨_, hsim⟩
          · exact List.cons_prefix_cons.mpr ⟨rfl, List.nil_prefix⟩
          · exact absurd (hsim.holds hq) hr
  | @seq _ cmd w _ hw ih =>
      intro t h
      cases h with
      | @seq u _ _ _ hsim _ _ =>
          obtain ⟨path, i, hsides⟩ := ih hsim
          refine ⟨0 :: path, i, hsides.kid rfl ?_⟩
          intro d hd p hp
          rcases hp.cases with ⟨rfl, _, fd, hfd⟩ | ⟨b, p, _, rfl, hget, _⟩
          · exact absurd (Wiring.holds_of_fds hfd) (hw.not_holds hd)
          · cases b with
            | zero => exact ⟨p, rfl⟩
            | succ b => cases hget
  | left _ hr hw ih =>
      intro t h
      refine h.sides_pipe (a := 0) hw ?_ ?_
      · rintro u (⟨_, hsim⟩ | ⟨ha, _⟩)
        · exact ih hsim
        · cases ha
      · rintro b u d hb (⟨rfl, _⟩ | ⟨_, hsim⟩) hd p hp
        · exact hb rfl
        · exact hr.not_uses hsim hd hp
  | right hl _ hw ih =>
      intro t h
      refine h.sides_pipe (a := 1) hw ?_ ?_
      · rintro u (⟨ha, _⟩ | ⟨_, hsim⟩)
        · cases ha
        · exact ih hsim
      · rintro b u d hb (⟨_, hsim⟩ | ⟨rfl, _⟩) hd p hp
        · exact hl.not_uses hsim hd hp
        · exact hb rfl
  | fore _ hb ih =>
      intro t h
      cases h with
      | beside hsim hback _ =>
          obtain ⟨path, i, hsides⟩ := ih hsim
          exact hsides.cons (fun p hp => hb.1 (hback.holds hp)) fun p hp => hb.2 (hback.holds hp)
  | aft hj _ ih =>
      intro t h
      cases h with
      | @beside status fds u kids _ _ hsim hback _ =>
          obtain ⟨path, i, hsides⟩ := ih hback
          refine ⟨0 :: path, i, hsides.kid rfl ?_⟩
          intro d hd p hp
          rcases hp.beside with ⟨p, rfl, _⟩ | ⟨_, _, hp⟩
          · exact ⟨p, rfl⟩
          · exact absurd hp (hj.not_uses hsim hd)

/-! ## The results -/

section Results

variable {ts : List (Token W)} {n : Nat} {cmd : Cmd W} {w : Wiring W} {es : List (Event W)}
  {s : State W}

theorem given_free (k : Nat) : given.Free k := by
  constructor
  · rintro ⟨i, hi⟩
    cases hi
  · rintro ⟨i, hi⟩
    cases hi

/-- Who runs a program, or waits, has the descriptors 0, 1 and 2 and no others; and for
every pipe, those of them that read it are in the right one of two neighbours, and those
that write to it are in the left one. -/
theorem settled_descriptors (hline : Line ts cmd) (hold : ∀ k, n ≤ k → w.Free k)
    (h : Trace Step (begin n cmd w) es s) :
    (∀ path status fds, s.2.At path status fds → status.settled = true →
      ∃ w' : Wiring W, fds = w'.fds) ∧
      ∀ k, n ≤ k → ∃ path i, s.2.Sides k path i := by
  obtain ⟨job, htrace, hsim⟩ := (Line.standard hline).refines h
  constructor
  · intro path status fds hat hset
    obtain ⟨w', hfds, _⟩ := hsim.wiring hat hset
    exact ⟨w', hfds⟩
  · intro k hk
    have hinit : InOrder n (n, Job.todo cmd w) :=
      ⟨Nat.le_refl n, hold, fun k hk hlt => absurd hlt (Nat.not_lt_of_le hk)⟩
    have horder := htrace.invariant (fun _ _ _ hs hstep => hs.step hstep) hinit
    rcases Nat.lt_or_ge k s.1 with hlt | hge
    · exact hsim.sides (horder.apart k hk hlt)
    · exact hsim.sides (.none (horder.free k hge))

end Results

/-- The settled process on the path has the descriptor under the number `fd`. -/
def Tree.uses [DecidableEq W] (t : Tree W) (d : Desc W) (path : List Nat) (fd : Nat) : Bool :=
  match t.proc path with
  | some (status, fds) => status.settled && decide (fds fd = some d)
  | none => false

theorem Tree.uses_spec [DecidableEq W] {t : Tree W} {d : Desc W} {path : List Nat} {fd : Nat}
    (h : t.uses d path fd = true) : t.Uses d path := by
  unfold Tree.uses at h
  split at h
  · rename_i status fds hat
    rw [Bool.and_eq_true, decide_eq_true_iff] at h
    exact ⟨status, fds, fd, hat, h.1, h.2⟩
  · cases h

/-- In `a | b`, with both programs started, `b` reads the pipe and `a` writes to it. -/
theorem settled_descriptors_pipeline :
    ∃ es s, Trace Step (begin 0 (.pipe (.exec [0]) (.exec [1])) given) es s ∧
      (s.2.Uses (.rd 0) [1] ∧ s.2.Uses (.wr 0) [0]) ∧ ∃ path i, s.2.Sides 0 path i := by
  obtain ⟨es, s, htrace, htest⟩ := exists_trace_of_replay (f := act) (l := pipelineStarted)
    (s := begin 0 (.pipe (.exec [0]) (.exec [1])) given)
    (p := fun r => r.2.2.uses (.rd 0) [1] 0 && r.2.2.uses (.wr 0) [0] 1) (by decide +kernel)
  rw [Bool.and_eq_true] at htest
  exact ⟨es, s, htrace, ⟨Tree.uses_spec htest.1, Tree.uses_spec htest.2⟩,
    (settled_descriptors line_pipeline (fun k _ => given_free k) htrace).2 0 (Nat.le_refl 0)⟩

end OsWork.Ports.ShellRun

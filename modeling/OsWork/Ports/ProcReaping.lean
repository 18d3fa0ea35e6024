import OsWork.Ports.PageTables

/-!
# `wait` and `waitx`

Both functions are one loop: scan the table for a zombie child, reap it, give
up, or sleep and scan again.  They differ in what they do with the child they
have found (`waitReap`, `waitxReap`): `waitx` stores two numbers before it does
what `wait` does, and resets the fields of the slot in another order.

A scan runs with `ptable.lock` held, so no other process takes part in it.
While the caller sleeps anything may happen to the kernel; `env` says what has
happened each time the caller is resumed.

## Main results

* `waitx_wait` — the two functions sleep in the same states and end in the same
  way, and `waitx` stores its two numbers exactly when it reaps a child.
-/

namespace OsWork.Ports.ProcReaping

open OsWork.Ports.ProcTable
open OsWork.Ports.PageTables

/-- `struct proc` with its kernel stack, its page directory and its name. -/
structure UProc extends Proc where
  kstack : Option Frame
  pgdir : Option Frame
  name : Fin 16 → BitVec 8

/-- What `wait` and `waitx` read and write. -/
structure Kernel where
  procs : Slot → UProc
  mem : Mem
  ticks : Word

/-- What `waitx` stores in `*wtime` and `*rtime`. -/
structure Times where
  wtime : Word
  rtime : Word
  deriving DecidableEq

namespace Kernel

/-- An assignment through a pointer into the table. -/
def setProc (s : Kernel) (p : Slot) (f : UProc → UProc) : Kernel :=
  { s with procs := Function.update s.procs p (f (s.procs p)) }

variable (L : Layout)

/-- `kfree(p->kstack)`; `kfree(0)` panics. -/
def kfreeStack (s : Kernel) (p : Slot) : Option Kernel :=
  match (s.procs p).kstack with
  | some f => (s.mem.kfree L f).map fun m => { s with mem := m }
  | none => none

/-- `freevm(p->pgdir)`; `freevm(0)` panics. -/
def freePgdir (s : Kernel) (p : Slot) : Option Kernel :=
  match (s.procs p).pgdir with
  | some d => (s.mem.freevm L d).map fun m => { s with mem := m }
  | none => none

/-! ## Reaping -/

/-- What `wait` does with the zombie it has found: its pid and the kernel. -/
def waitReap (s : Kernel) (p : Slot) : Option (Word × Option Times × Kernel) := do
  let pid := (s.procs p).pid
  let s ← s.kfreeStack L p
  let s := s.setProc p fun q => { q with kstack := none }
  let s ← s.freePgdir L p
  let s := s.setProc p fun q => { q with pid := 0 }
  let s := s.setProc p fun q => { q with parent := none }
  let s := s.setProc p fun q => { q with name := Function.update q.name 0 0 }
  let s := s.setProc p fun q => { q with killed := false }
  let s := s.setProc p fun q => { q with state := .unused }
  return (pid, none, s)

/-- What `waitx` does with the zombie it has found: its pid, the two numbers and
the kernel. -/
def waitxReap (s : Kernel) (p : Slot) : Option (Word × Option Times × Kernel) := do
  let wtime :=
    if (s.procs p).etime = -1 then s.ticks - (s.procs p).ctime - (s.procs p).rtime
    else (s.procs p).etime - (s.procs p).ctime - (s.procs p).rtime
  let rtime := (s.procs p).rtime
  let pid := (s.procs p).pid
  let s ← s.kfreeStack L p
  let s := s.setProc p fun q => { q with kstack := none }
  let s ← s.freePgdir L p
  let s := s.setProc p fun q => { q with state := .unused }
  let s := s.setProc p fun q => { q with pid := 0 }
  let s := s.setProc p fun q => { q with parent := none }
  let s := s.setProc p fun q => { q with name := Function.update q.name 0 0 }
  let s := s.setProc p fun q => { q with killed := false }
  return (pid, some ⟨wtime, rtime⟩, s)

end Kernel

/-! ## The loop -/

/-- How a call ends, or where it stands when the story ends; `seen` is the
kernel as the last scan found it. -/
inductive Outcome
  /-- the zombie `child` has been reaped -/
  | reaped (seen : Kernel) (child : Slot) (pid : Word) (times : Option Times) (after : Kernel)
  /-- no children, or killed -/
  | gaveUp (seen : Kernel)
  | asleep (seen : Kernel)
  /-- `kfree` or `freevm` has panicked on a page of the zombie `child` -/
  | panicked (seen : Kernel) (child : Slot)

/-- The value the call returns. -/
def Outcome.value : Outcome → Option Word
  | .reaped _ _ pid _ _ => some pid
  | .gaveUp _ => some (-1)
  | .asleep _ | .panicked _ _ => none

/-- What has been stored in `*wtime` and `*rtime`. -/
def Outcome.times : Outcome → Option Times
  | .reaped _ _ _ t _ => t
  | _ => none

/-- The child that has been reaped. -/
def Outcome.child : Outcome → Option Slot
  | .reaped _ c _ _ _ => some c
  | _ => none

/-- The outcome without the two numbers. -/
def Outcome.forget : Outcome → Outcome
  | .reaped s c pid _ t => .reaped s c pid none t
  | o => o

/-- A call: the kernels in which it went to sleep, and how it ended. -/
structure Call where
  sleeps : List Kernel
  outcome : Outcome

section Loop

variable (reap : Kernel → Slot → Option (Word × Option Times × Kernel)) (cur : Slot)

/-- The `for` loop over the table: an outcome, or the final `havekids`. -/
def scan (s : Kernel) : List Slot → Bool → Outcome ⊕ Bool
  | [], havekids => .inr havekids
  | p :: rest, havekids =>
      if (s.procs p).parent ≠ some cur then scan s rest havekids
      else if (s.procs p).state = .zombie then
        match reap s p with
        | some (pid, times, s') => .inl (.reaped s p pid times s')
        | none => .inl (.panicked s p)
      else scan s rest true

/-- `sleep(curproc, &ptable.lock)` up to the call of `sched`. -/
def Kernel.goToSleep (s : Kernel) : Kernel :=
  (s.setProc cur fun q => { q with chan := some (.proc cur) }).setProc cur fun q =>
    { q with state := .sleeping }

/-- `sleep` after the return of `sched`. -/
def Kernel.tidyUp (s : Kernel) : Kernel := s.setProc cur fun q => { q with chan := none }

/-- The `for(;;)` loop.  `env` lists what happens while the caller sleeps; the
story ends with the caller asleep when `env` is used up. -/
def waitLoop (s : Kernel) (env : List (Kernel → Kernel)) : Call :=
  match scan reap cur s (List.finRange NPROC) false with
  | .inl o => ⟨[], o⟩
  | .inr havekids =>
      -- No point waiting if we don't have any children.
      if havekids = false ∨ (s.procs cur).killed then ⟨[], .gaveUp s⟩
      else
        match env with
        | [] => ⟨[s.goToSleep cur], .asleep s⟩
        | e :: rest =>
            let call := waitLoop ((e (s.goToSleep cur)).tidyUp cur) rest
            ⟨s.goToSleep cur :: call.sleeps, call.outcome⟩

end Loop

/-- `wait`. -/
def wait (L : Layout) (cur : Slot) (s : Kernel) (env : List (Kernel → Kernel)) : Call :=
  waitLoop (fun s p => s.waitReap L p) cur s env

/-- `waitx`. -/
def waitx (L : Layout) (cur : Slot) (s : Kernel) (env : List (Kernel → Kernel)) : Call :=
  waitLoop (fun s p => s.waitxReap L p) cur s env

/-! ## One reaping -/

namespace Kernel

variable {L : Layout} {s : Kernel} {p : Slot}

/-- Two assignments to one slot are one. -/
theorem setProc_setProc (f g : UProc → UProc) :
    (s.setProc p f).setProc p g = s.setProc p fun q => g (f q) := by
  simp only [setProc, Function.update_self, Function.update_idem]

/-- The two numbers `waitx` computes. -/
def times (s : Kernel) (p : Slot) : Times where
  wtime := (s.procs p).toProc.waitxTime s.ticks
  rtime := (s.procs p).rtime

/-- `waitx` does with a zombie what `wait` does; the order of the resets does
not matter. -/
theorem waitxReap_eq :
    s.waitxReap L p = (s.waitReap L p).map fun r => (r.1, some (s.times p), r.2.2) := by
  unfold waitxReap waitReap
  simp only [Option.bind_eq_bind, Option.pure_def]
  cases s.kfreeStack L p with
  | none => rfl
  | some s₁ =>
      simp only [Option.bind_some]
      cases (s₁.setProc p fun q => { q with kstack := none }).freePgdir L p with
      | none => rfl
      | some s₂ =>
          simp only [Option.bind_some, Option.map_some, setProc_setProc]
          rfl

/-- A page of the process cannot be given back: its kernel stack, or one that
`freevm` comes to. -/
def Unfreeable (L : Layout) (s : Kernel) (p : Slot) : Prop :=
  s.kfreeStack L p = none ∨ ∃ s₁, s.kfreeStack L p = some s₁ ∧ s₁.freePgdir L p = none

/-- The name and the other fields do not matter to `freevm`. -/
theorem freePgdir_setProc {f : UProc → UProc} (hf : (f (s.procs p)).pgdir = (s.procs p).pgdir) :
    (s.setProc p f).freePgdir L p = none ↔ s.freePgdir L p = none := by
  simp only [freePgdir, setProc, Function.update_self, hf]
  cases (s.procs p).pgdir with
  | none => rfl
  | some d => simp only [Option.map_eq_none_iff]

/-- A reaping fails only on a page that cannot be given back. -/
theorem waitReap_none (h : s.waitReap L p = none) : s.Unfreeable L p := by
  unfold waitReap at h
  simp only [Option.bind_eq_bind, Option.pure_def] at h
  cases hstack : s.kfreeStack L p with
  | none => exact .inl hstack
  | some s₁ =>
      have hrest := freePgdir_setProc (L := L) (s := s₁) (p := p)
        (f := fun q => { q with kstack := none }) rfl
      refine .inr ⟨s₁, hstack, hrest.1 ?_⟩
      rw [hstack, Option.bind_some] at h
      cases hdir : (s₁.setProc p fun q => { q with kstack := none }).freePgdir L p with
      | none => rfl
      | some s₂ =>
          rw [hdir] at h
          cases h

/-- What `wait` returns is the pid of the zombie. -/
theorem waitReap_pid {r : Word × Option Times × Kernel} (h : s.waitReap L p = some r) :
    r.1 = (s.procs p).pid ∧ r.2.1 = none := by
  unfold waitReap at h
  simp only [Option.bind_eq_bind, Option.pure_def, Option.bind_eq_some_iff,
    Option.some.injEq] at h
  obtain ⟨_, _, _, _, rfl⟩ := h
  exact ⟨rfl, rfl⟩

end Kernel

/-! ## One scan -/

section Scan

variable {L : Layout} {cur : Slot} {s : Kernel}

/-- A child of `cur`. -/
def Kernel.child (s : Kernel) (cur p : Slot) : Prop := (s.procs p).parent = some cur

/-- A zombie child of `cur`. -/
def Kernel.zombieChild (s : Kernel) (cur p : Slot) : Prop :=
  s.child cur p ∧ (s.procs p).state = .zombie

/-- The two scans stop at the same slot, or find the same `havekids`. -/
theorem scan_forget (L : Layout) (cur : Slot) (s : Kernel) (l : List Slot) (havekids : Bool) :
    (scan (fun s p => s.waitxReap L p) cur s l havekids).map Outcome.forget id =
      scan (fun s p => s.waitReap L p) cur s l havekids := by
  induction l generalizing havekids with
  | nil => rfl
  | cons p rest ih =>
      simp only [scan]
      by_cases hchild : (s.procs p).parent = some cur
      · simp only [hchild, ne_eq, not_true_eq_false, if_false]
        by_cases hzombie : (s.procs p).state = .zombie
        · simp only [hzombie, if_true, Kernel.waitxReap_eq]
          cases hr : s.waitReap L p with
          | none => rfl
          | some r =>
              obtain ⟨pid, times, s'⟩ := r
              have htimes : times = none := (Kernel.waitReap_pid hr).2
              rw [htimes]
              rfl
        · simp only [hzombie, if_false]
          exact ih true
      · simp only [hchild, ne_eq, not_false_eq_true, if_true]
        exact ih havekids

/-- A scan that finds no zombie child. -/
theorem scan_inr {reap : Kernel → Slot → Option (Word × Option Times × Kernel)}
    {l : List Slot} {havekids b : Bool} (h : scan reap cur s l havekids = .inr b) :
    (∀ p ∈ l, ¬ s.zombieChild cur p) ∧
      (b = true ↔ havekids = true ∨ ∃ p ∈ l, s.child cur p) := by
  induction l generalizing havekids with
  | nil =>
      simp only [scan, Sum.inr.injEq] at h
      simp [h]
  | cons p rest ih =>
      simp only [scan] at h
      by_cases hchild : (s.procs p).parent = some cur
      · simp only [hchild, ne_eq, not_true_eq_false, if_false] at h
        by_cases hzombie : (s.procs p).state = .zombie
        · simp only [hzombie, if_true] at h
          split at h <;> cases h
        · simp only [hzombie, if_false] at h
          obtain ⟨hnone, hb⟩ := ih h
          refine ⟨fun q hq => ?_, ?_⟩
          · rcases List.mem_cons.1 hq with rfl | hq
            · exact fun hz => hzombie hz.2
            · exact hnone q hq
          · simp only [true_or, iff_true] at hb
            simp [hb, Kernel.child, hchild]
      · simp only [hchild, ne_eq, not_false_eq_true, if_true] at h
        obtain ⟨hnone, hb⟩ := ih h
        refine ⟨fun q hq => ?_, ?_⟩
        · rcases List.mem_cons.1 hq with rfl | hq
          · exact fun hz => hchild hz.1
          · exact hnone q hq
        · rw [hb]
          simp [Kernel.child, hchild]

/-- A scan of `waitx` that stops has reaped a zombie child, unless a page of it
cannot be given back. -/
theorem scan_inl {l : List Slot} {havekids : Bool} {o : Outcome}
    (h : scan (fun s p => s.waitxReap L p) cur s l havekids = .inl o) :
    ∃ p, s.zombieChild cur p ∧ (o = .panicked s p ∧ s.Unfreeable L p ∨
      ∃ s', o = .reaped s p (s.procs p).pid (some (s.times p)) s') := by
  induction l generalizing havekids with
  | nil => simp [scan] at h
  | cons p rest ih =>
      simp only [scan] at h
      by_cases hchild : (s.procs p).parent = some cur
      · simp only [hchild, ne_eq, not_true_eq_false, if_false] at h
        by_cases hzombie : (s.procs p).state = .zombie
        · simp only [hzombie, if_true, Kernel.waitxReap_eq] at h
          cases hr : s.waitReap L p with
          | none =>
              rw [hr] at h
              simp only [Option.map_none, Sum.inl.injEq] at h
              exact ⟨p, ⟨hchild, hzombie⟩, .inl ⟨h.symm, Kernel.waitReap_none hr⟩⟩
          | some r =>
              rw [hr] at h
              simp only [Option.map_some, Sum.inl.injEq] at h
              rw [(Kernel.waitReap_pid hr).1] at h
              exact ⟨p, ⟨hchild, hzombie⟩, .inr ⟨r.2.2, h.symm⟩⟩
        · simp only [hzombie, if_false] at h
          exact ih h
      · simp only [hchild, ne_eq, not_false_eq_true, if_true] at h
        exact ih h

end Scan

/-! ## The two functions -/

/-- There is a point in waiting: a child, no zombie, and the caller not killed. -/
def Kernel.waits (s : Kernel) (cur : Slot) : Prop :=
  (∀ p, ¬ s.zombieChild cur p) ∧ (∃ p, s.child cur p) ∧ (s.procs cur).killed = false

/-- How a call of `waitx` may end, and what it has stored then. -/
def Outcome.Ends (L : Layout) (cur : Slot) : Outcome → Prop
  | .reaped seen child pid times _ =>
      seen.zombieChild cur child ∧ pid = (seen.procs child).pid ∧
        times = some (seen.times child)
  | .gaveUp seen =>
      (∀ p, ¬ seen.zombieChild cur p) ∧
        ((¬ ∃ p, seen.child cur p) ∨ (seen.procs cur).killed = true)
  | .asleep seen => seen.waits cur
  | .panicked seen child => seen.zombieChild cur child ∧ seen.Unfreeable L child

section Loop

variable {L : Layout} {cur : Slot} {s : Kernel}

/-- A scan of the whole table that finds no zombie child. -/
theorem scan_none {reap : Kernel → Slot → Option (Word × Option Times × Kernel)} {b : Bool}
    (h : scan reap cur s (List.finRange NPROC) false = .inr b) :
    (∀ p, ¬ s.zombieChild cur p) ∧ (b = true ↔ ∃ p, s.child cur p) := by
  obtain ⟨hnone, hb⟩ := scan_inr h
  refine ⟨fun p => hnone p (List.mem_finRange p), ?_⟩
  rw [hb]
  simp

/-- A caller that finds a point in waiting. -/
theorem waits_of_scan {reap : Kernel → Slot → Option (Word × Option Times × Kernel)} {b : Bool}
    (h : scan reap cur s (List.finRange NPROC) false = .inr b)
    (hno : ¬ (b = false ∨ (s.procs cur).killed = true)) : s.waits cur := by
  obtain ⟨hnone, hb⟩ := scan_none h
  rw [not_or, Bool.not_eq_false, Bool.not_eq_true] at hno
  exact ⟨hnone, hb.1 hno.1, hno.2⟩

/-- The two loops run side by side. -/
theorem waitLoop_forget (L : Layout) (cur : Slot) (s : Kernel) (env : List (Kernel → Kernel)) :
    (waitx L cur s env).sleeps = (wait L cur s env).sleeps ∧
      (waitx L cur s env).outcome.forget = (wait L cur s env).outcome := by
  unfold waitx wait
  fun_induction waitLoop (fun s p => s.waitxReap L p) cur s env with
  | case1 env s o hscan =>
      have hforget := scan_forget L cur s (List.finRange NPROC) false
      rw [hscan, Sum.map_inl] at hforget
      rw [waitLoop.eq_def, ← hforget]
      exact ⟨rfl, rfl⟩
  | case2 env s b hscan hno =>
      have hforget := scan_forget L cur s (List.finRange NPROC) false
      rw [hscan, Sum.map_inr] at hforget
      rw [waitLoop.eq_def, ← hforget]
      simp only [id_eq, hno, if_true]
      exact ⟨trivial, rfl⟩
  | case3 s b hscan hno =>
      have hforget := scan_forget L cur s (List.finRange NPROC) false
      rw [hscan, Sum.map_inr] at hforget
      rw [waitLoop.eq_def, ← hforget]
      simp only [id_eq, hno, if_false]
      exact ⟨trivial, rfl⟩
  | case4 s b hscan hno e rest call ih =>
      have hforget := scan_forget L cur s (List.finRange NPROC) false
      rw [hscan, Sum.map_inr] at hforget
      rw [waitLoop.eq_def, ← hforget]
      simp only [id_eq, hno, if_false]
      exact ⟨congrArg (s.goToSleep cur :: ·) ih.1, ih.2⟩

/-- How the loop of `waitx` ends, and where it sleeps. -/
theorem waitLoop_ends (L : Layout) (cur : Slot) (s : Kernel) (env : List (Kernel → Kernel)) :
    (waitx L cur s env).outcome.Ends L cur ∧
      ∀ k ∈ (waitx L cur s env).sleeps, ∃ seen : Kernel,
        seen.waits cur ∧ k = seen.goToSleep cur := by
  unfold waitx
  fun_induction waitLoop (fun s p => s.waitxReap L p) cur s env with
  | case1 env s o hscan =>
      obtain ⟨p, hz, ⟨rfl, hpages⟩ | ⟨s', rfl⟩⟩ := scan_inl hscan
      · exact ⟨⟨hz, hpages⟩, by simp⟩
      · exact ⟨⟨hz, rfl, rfl⟩, by simp⟩
  | case2 env s b hscan hno =>
      obtain ⟨hnone, hb⟩ := scan_none hscan
      refine ⟨⟨hnone, hno.imp_left fun hfalse hchild => ?_⟩, by simp⟩
      rw [hb.2 hchild] at hfalse
      cases hfalse
  | case3 s b hscan hno =>
      have hwaits := waits_of_scan hscan hno
      refine ⟨hwaits, fun k hk => ⟨s, hwaits, ?_⟩⟩
      simpa using hk
  | case4 s b hscan hno e rest call ih =>
      refine ⟨ih.1, fun k hk => ?_⟩
      rcases List.mem_cons.1 hk with rfl | hk
      · exact ⟨s, waits_of_scan hscan hno, rfl⟩
      · exact ih.2 k hk

end Loop

/-- **`waitx` is `wait` plus two outputs.**  Whatever happens while the caller
sleeps, the two functions sleep in the same states, reap the same child, return
the same value and leave the same table and the same memory.  `waitx` stores
its two numbers exactly when it returns a pid, and they are those of the child
it has reaped.  A call panics only on a zombie child one of whose pages cannot be
given back. -/
theorem waitx_wait (L : Layout) (cur : Slot) (s : Kernel) (env : List (Kernel → Kernel)) :
    (waitx L cur s env).sleeps = (wait L cur s env).sleeps ∧
      (waitx L cur s env).outcome.forget = (wait L cur s env).outcome ∧
      (waitx L cur s env).outcome.value = (wait L cur s env).outcome.value ∧
      ((waitx L cur s env).outcome.times.isSome ↔
        (waitx L cur s env).outcome.child.isSome) ∧
      (waitx L cur s env).outcome.Ends L cur ∧
      ∀ k ∈ (waitx L cur s env).sleeps, ∃ seen : Kernel,
        seen.waits cur ∧ k = seen.goToSleep cur := by
  obtain ⟨hsleeps, hforget⟩ := waitLoop_forget L cur s env
  obtain ⟨hends, hwaits⟩ := waitLoop_ends L cur s env
  refine ⟨hsleeps, hforget, ?_, ?_, hends, hwaits⟩
  · rw [← hforget]
    cases (waitx L cur s env).outcome <;> rfl
  · cases hout : (waitx L cur s env).outcome with
    | reaped seen child pid times after =>
        rw [hout] at hends
        obtain ⟨_, _, htimes⟩ := hends
        simp [Outcome.times, Outcome.child, htimes]
    | gaveUp | asleep | panicked => simp [Outcome.times, Outcome.child]

def parentSlot : Slot := ⟨1, one_lt_NPROC⟩

def childSlot : Slot := ⟨2, by decide⟩

/-- The process in slot 2 is a child of the one in slot 1; its stack is page 2000, its
page directory page 2001, and page 2002 maps its one page 2003. -/
def parentAndChild : Kernel where
  procs i :=
    { Proc.zero with
      state := if i = parentSlot then .running else if i = childSlot then .sleeping else .unused
      pid := if i = childSlot then 7 else 0
      parent := if i = childSlot then some parentSlot else none
      rtime := 3
      kstack := some 2000
      pgdir := some 2001
      name := fun _ => 0 }
  mem :=
    { ram := fun f k =>
        if k = 0 then if f = 2001 then entry 2002 7 else if f = 2002 then entry 2003 7 else 0
        else 0
      freelist := []
      oom := fun _ => false }
  ticks := 20

/-- The child exits while its parent sleeps, and another process calls `kill` for the
parent. -/
def childExits (s : Kernel) : Kernel :=
  let s := s.setProc childSlot fun q => { q with state := .zombie, etime := 10 }
  s.setProc parentSlot fun q => { q with state := .running, killed := true }

theorem waitx_wait_childExits :
    (waitx ⟨1024, 264⟩ parentSlot parentAndChild [childExits]).sleeps.length = 1 ∧
      (waitx ⟨1024, 264⟩ parentSlot parentAndChild [childExits]).outcome.times = some ⟨7, 3⟩ ∧
      (wait ⟨1024, 264⟩ parentSlot parentAndChild [childExits]).outcome.value = some 7 := by
  have hvalue := (waitx_wait ⟨1024, 264⟩ parentSlot parentAndChild [childExits]).2.2.1
  rw [← hvalue]
  decide +kernel

end OsWork.Ports.ProcReaping

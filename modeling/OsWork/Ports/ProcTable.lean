import Mathlib.Logic.Function.Basic
import Mathlib.Data.List.FinRange

/-!
# The process table of `ass5/final_repo/proc.c`

`struct proc` as far as the process-management functions read it, and the
functions that act on the table while `ptable.lock` is held: the scans of
`wakeup1`, `kill`, `allocproc`, `exit`, `wait`/`waitx` and the scheduler.  They
are pure functions on a table; who runs them, and when, is the subject of
`ProcMachine`.

A slot index stands for the address `&ptable.proc[i]`.  All `int` fields are
32-bit words; `ticks` is an unsigned word and meets them in wrapping
arithmetic, as in the source.
-/

namespace OsWork.Ports.ProcTable

/-! ## Data -/

/-- Maximum number of processes (`param.h`). -/
def NPROC : Nat := 64

/-- A pointer into `ptable.proc`. -/
abbrev Slot := Fin NPROC

theorem one_lt_NPROC : 1 < NPROC := by decide

/-- A C `int` or `uint`. -/
abbrev Word := BitVec 32

/-- `enum procstate`. -/
inductive ProcState
  | unused
  | embryo
  | sleeping
  | runnable
  | running
  | zombie
  deriving DecidableEq, Repr

/-- A sleep channel: the address of a process slot or any other address. -/
inductive Chan
  | proc (p : Slot)
  | addr (a : Nat)
  deriving DecidableEq, Repr

/-- `&ticks`. -/
def ticksChan : Chan := .addr 0

/-- `struct proc`, the fields of process management. -/
@[ext] structure Proc where
  state : ProcState
  pid : Word
  parent : Option Slot
  chan : Option Chan
  killed : Bool
  ctime : Word
  rtime : Word
  etime : Word
  numRun : Word
  timeInQueues : Word
  waitTime : Word
  deriving DecidableEq, Repr

/-- A process is left alone or woken. -/
def ProcState.Wakes (a b : ProcState) : Prop :=
  b = a ∨ a = .sleeping ∧ b = .runnable

theorem ProcState.Wakes.trans {a b c : ProcState} (hab : a.Wakes b) (hbc : b.Wakes c) :
    a.Wakes c := by
  rcases hab with rfl | ⟨rfl, rfl⟩
  · exact hbc
  · rcases hbc with rfl | ⟨h, _⟩
    · exact .inr ⟨rfl, rfl⟩
    · cases h

/-- A slot of the zeroed table. -/
def Proc.zero : Proc where
  state := .unused
  pid := 0
  parent := none
  chan := none
  killed := false
  ctime := 0
  rtime := 0
  etime := 0
  numRun := 0
  timeInQueues := 0
  waitTime := 0

/-- `ptable.proc`. -/
abbrev Table := Slot → Proc

namespace Table

variable (t : Table)

/-- An assignment through a pointer into the table. -/
def set (i : Slot) (f : Proc → Proc) : Table :=
  Function.update t i (f (t i))

@[simp] theorem set_self (i : Slot) (f : Proc → Proc) : t.set i f i = f (t i) := by
  simp [set]

@[simp] theorem set_of_ne {i j : Slot} (h : j ≠ i) (f : Proc → Proc) :
    t.set i f j = t j := by
  simp [set, h]

/-- The first slot of the table with a property: the scans of the source stop
there. -/
def find (p : Proc → Bool) : Option Slot :=
  (List.finRange NPROC).find? fun i => p (t i)

variable {t} in
theorem find_some {p : Proc → Bool} {i : Slot} (h : t.find p = some i) : p (t i) = true := by
  have := List.find?_some h
  simpa using this

variable {t} in
theorem find_none {p : Proc → Bool} (h : t.find p = none) (i : Slot) : p (t i) = false := by
  have := List.find?_eq_none.1 h i (List.mem_finRange i)
  simpa using this

/-! ## Sleep and wakeup -/

/-- `wakeup1`: wake all processes sleeping on `chan`. -/
def wakeup1 (chan : Option Chan) : Table := fun i =>
  if (t i).state = .sleeping ∧ (t i).chan = chan then { t i with state := .runnable } else t i

/-- What `wakeup1` does to one slot. -/
theorem wakeup1_apply (chan : Option Chan) (i : Slot) :
    t.wakeup1 chan i = { t i with state :=
      if (t i).state = .sleeping ∧ (t i).chan = chan then .runnable else (t i).state } := by
  unfold wakeup1
  split <;> simp_all

theorem wakeup1_wakes (chan : Option Chan) (i : Slot) :
    (t i).state.Wakes (t.wakeup1 chan i).state := by
  rw [wakeup1_apply]
  by_cases h : (t i).state = .sleeping ∧ (t i).chan = chan
  · exact .inr ⟨h.1, by simp [h]⟩
  · exact .inl (by simp [h])

/-- One round of the loop of `wakeup1`. -/
def wakeSlot (chan : Option Chan) (i : Slot) : Table :=
  t.set i fun p =>
    { p with state := if p.state = .sleeping ∧ p.chan = chan then .runnable else p.state }

theorem wakeSlot_wakes (chan : Option Chan) (i j : Slot) :
    (t j).state.Wakes (t.wakeSlot chan i j).state := by
  unfold wakeSlot
  by_cases hj : j = i
  · subst hj
    rw [set_self]
    by_cases h : (t j).state = .sleeping ∧ (t j).chan = chan
    · exact .inr ⟨h.1, by simp [h]⟩
    · exact .inl (by simp [h])
  · rw [set_of_ne t hj]
    exact .inl rfl

/-- A round writes the state only. -/
theorem wakeSlot_rest (chan : Option Chan) (i j : Slot) :
    t.wakeSlot chan i j = { t j with state := (t.wakeSlot chan i j).state } := by
  unfold wakeSlot
  by_cases hj : j = i
  · subst hj
    rw [set_self]
  · rw [set_of_ne t hj]

theorem wakeSlot_parent (chan : Option Chan) (i j : Slot) :
    (t.wakeSlot chan i j).parent = (t j).parent := by
  rw [wakeSlot_rest]

theorem wakeSlot_chan (chan : Option Chan) (i j : Slot) :
    (t.wakeSlot chan i j).chan = (t j).chan := by
  rw [wakeSlot_rest]

/-- After its round a slot does not sleep on the channel. -/
theorem wakeSlot_self {chan : Option Chan} {i : Slot}
    (h : (t.wakeSlot chan i i).state = .sleeping) : (t i).chan ≠ chan := by
  intro hchan
  unfold wakeSlot at h
  rw [set_self] at h
  simp only [hchan, and_true] at h
  split at h
  · cases h
  · rename_i hno
    exact hno h

/-! ## `kill` -/

/-- `kill`: the return value and the table. -/
def kill (pid : Word) : Int × Table :=
  match t.find fun p => p.pid == pid with
  | some i =>
      (0, t.set i fun p =>
        { p with killed := true
                 state := if p.state = .sleeping then .runnable else p.state })
  | none => (-1, t)

variable {t} in
/-- `kill` of the pid of slot `i`, the first of the table with that pid. -/
theorem kill_hit {pid : Word} {i : Slot} (h : t.find (fun p => p.pid == pid) = some i) :
    t.kill pid = (0, t.set i fun p =>
      { p with killed := true
               state := if p.state = .sleeping then .runnable else p.state }) := by
  unfold kill
  rw [h]

variable {t} in
/-- `kill` of a pid that no slot has. -/
theorem kill_miss {pid : Word} (h : t.find (fun p => p.pid == pid) = none) :
    t.kill pid = (-1, t) := by
  unfold kill
  rw [h]

theorem kill_wakes (pid : Word) (i : Slot) : (t i).state.Wakes ((t.kill pid).2 i).state := by
  unfold kill
  split
  · rename_i j _
    by_cases hi : i = j
    · subst hi
      by_cases hs : (t i).state = .sleeping
      · exact .inr ⟨hs, by simp [hs]⟩
      · exact .inl (by simp [hs])
    · exact .inl (by simp [hi])
  · exact .inl rfl

/-- `kill` writes `killed` and `state` only. -/
theorem kill_rest (pid : Word) (i : Slot) :
    (t.kill pid).2 i =
      { t i with killed := ((t.kill pid).2 i).killed, state := ((t.kill pid).2 i).state } := by
  unfold kill
  split
  · rename_i j _
    by_cases hi : i = j
    · subst hi
      simp
    · simp [hi]
  · rfl

/-! ## `allocproc` -/

/-- The first UNUSED slot, if any. -/
def findUnused : Option Slot :=
  t.find fun p => p.state == .unused

/-- The locked part of `allocproc`: `p->state = EMBRYO; p->pid = nextpid`. -/
def embryo (i : Slot) (pid : Word) : Table :=
  t.set i fun p => { p with state := .embryo, pid := pid }

/-- `allocproc`: the time fields, up to the second reading of `ticks`. -/
def initTimes (i : Slot) (ticks : Word) : Table :=
  t.set i fun p =>
    { p with ctime := ticks, rtime := 0, etime := -1, numRun := 0, timeInQueues := 0 }

/-! ## `exit` -/

/-- One round of the loop of `exit` that passes abandoned children to init. -/
def passChild (cur initproc : Slot) (i : Slot) : Table :=
  if (t i).parent = some cur then
    let t' := t.set i fun p => { p with parent := some initproc }
    if (t' i).state = .zombie then t'.wakeup1 (some (.proc initproc)) else t'
  else t

/-- The loop of `exit` over the table. -/
def passChildren (cur initproc : Slot) : Table :=
  (List.finRange NPROC).foldl (fun t i => passChild t cur initproc i) t

/-- `exit` up to the reading of `ticks`: wake the parent, pass the children on. -/
def exitPass (cur initproc : Slot) : Table :=
  (t.wakeup1 ((t cur).parent.map .proc)).passChildren cur initproc

/-! ## `wait` and `waitx` -/

/-- The zombie child the scan of `wait` or `waitx` stops at. -/
def findZombie (cur : Slot) : Option Slot :=
  t.find fun p => p.parent == some cur && p.state == .zombie

/-- `havekids` after a scan of the whole table. -/
def havekids (cur : Slot) : Bool :=
  (List.finRange NPROC).any fun i => (t i).parent == some cur

/-- What `wait` and `waitx` leave of a reaped child. -/
def reap (i : Slot) : Table :=
  t.set i fun p => { p with pid := 0, parent := none, killed := false, state := .unused }

end Table

/-- What `waitx` stores in `*wtime`. -/
def Proc.waitxTime (p : Proc) (ticks : Word) : Word :=
  if p.etime = -1 then ticks - p.ctime - p.rtime else p.etime - p.ctime - p.rtime

/-! ## What the loop of `exit` does -/

section PassChildren

variable {t : Table} {cur initproc : Slot}

/-- A zombie child of `cur` among the slots of `l`. -/
def Table.zombieIn (t : Table) (cur : Slot) (l : List Slot) : Bool :=
  l.any fun k => (t k).parent == some cur && (t k).state == .zombie

/-- A slot after the loop has visited `l`. -/
def Table.passed (t : Table) (cur initproc : Slot) (l : List Slot) : Table := fun j =>
  { t j with
    parent := if j ∈ l ∧ (t j).parent = some cur then some initproc else (t j).parent
    state := if t.zombieIn cur l ∧ (t j).state = .sleeping ∧ (t j).chan = some (.proc initproc)
      then .runnable else (t j).state }

theorem Table.passed_nil : t.passed cur initproc [] = t := by
  funext j
  simp [Table.passed, Table.zombieIn]

/-- What one round does to one slot. -/
theorem Table.passChild_apply (i j : Slot) :
    t.passChild cur initproc i j =
      { t j with
        parent := if j = i ∧ (t i).parent = some cur then some initproc else (t j).parent
        state := if ((t i).parent = some cur ∧ (t i).state = .zombie) ∧
            (t j).state = .sleeping ∧ (t j).chan = some (.proc initproc)
          then .runnable else (t j).state } := by
  unfold Table.passChild
  by_cases hp : (t i).parent = some cur
  · by_cases hz : (t i).state = .zombie
    · by_cases hj : j = i
      · subst hj
        simp [hp, hz, Table.wakeup1_apply]
      · simp [hp, hz, hj, Table.wakeup1_apply]
    · by_cases hj : j = i
      · subst hj
        simp [hp, hz]
      · simp [hp, hz, hj]
  · simp [hp]

/-- One more round of the loop. -/
theorem Table.passed_snoc {l : List Slot} {i : Slot} (hi : i ∉ l) :
    (Table.passed t cur initproc l).passChild cur initproc i =
      t.passed cur initproc (l ++ [i]) := by
  have hparent : (Table.passed t cur initproc l i).parent = (t i).parent := by
    simp [Table.passed, hi]
  have hzombie : (Table.passed t cur initproc l i).state = .zombie ↔ (t i).state = .zombie := by
    simp only [Table.passed]
    split_ifs with h
    · simp [h.2.1]
    · exact Iff.rfl
  have hmore : t.zombieIn cur (l ++ [i]) = true ↔
      t.zombieIn cur l = true ∨ (t i).parent = some cur ∧ (t i).state = .zombie := by
    simp [Table.zombieIn]
  funext j
  rw [Table.passChild_apply]
  refine Proc.ext ?_ rfl ?_ rfl rfl rfl rfl rfl rfl rfl rfl
  · simp only [hparent, hzombie]
    by_cases hsleep : (t j).state = .sleeping ∧ (t j).chan = some (.proc initproc)
    · by_cases hl : t.zombieIn cur l = true
      · simp [Table.passed, hmore, hl, hsleep]
      · simp [Table.passed, hmore, hl, hsleep]
    · simp only [Table.passed, hsleep, and_false, if_false]
  · simp only [hparent]
    by_cases hj : j = i
    · subst hj
      simp [Table.passed, hi]
    · simp [Table.passed, hj]

/-- The whole loop: every child of `cur` is passed to init, and init is woken
if one of them is a zombie. -/
theorem Table.passChildren_eq :
    t.passChildren cur initproc = t.passed cur initproc (List.finRange NPROC) := by
  have hloop : ∀ l l' : List Slot, (l ++ l').Nodup →
      l'.foldl (fun t i => Table.passChild t cur initproc i) (t.passed cur initproc l) =
        t.passed cur initproc (l ++ l') := by
    intro l l' hnodup
    induction l' generalizing l with
    | nil => simp
    | cons i rest ih =>
        have hi : i ∉ l := by
          rw [List.nodup_append] at hnodup
          intro hmem
          exact hnodup.2.2 i hmem i (by simp) rfl
        have hrest : (l ++ [i] ++ rest).Nodup := by simpa using hnodup
        rw [List.foldl_cons, Table.passed_snoc hi, ih (l ++ [i]) hrest]
        simp
  have h := hloop [] (List.finRange NPROC) (by
    rw [List.nil_append]
    exact List.nodup_finRange NPROC)
  rw [Table.passed_nil, List.nil_append] at h
  exact h

/-- A state changes only from SLEEPING on init's own channel to RUNNABLE, and
does so when `cur` leaves a zombie behind. -/
theorem Table.passChildren_state (j : Slot) :
    (t.passChildren cur initproc j).state =
      if (∃ k, (t k).parent = some cur ∧ (t k).state = .zombie) ∧
          (t j).state = .sleeping ∧ (t j).chan = some (.proc initproc)
        then .runnable else (t j).state := by
  rw [Table.passChildren_eq]
  simp [Table.passed, Table.zombieIn]

theorem Table.exitPass_wakes (j : Slot) :
    (t j).state.Wakes (t.exitPass cur initproc j).state := by
  have hparent := t.wakeup1_wakes ((t cur).parent.map .proc) j
  refine hparent.trans ?_
  unfold Table.exitPass
  rw [Table.passChildren_state]
  split
  · rename_i h
    exact .inr ⟨h.2.1, rfl⟩
  · exact .inl rfl

end PassChildren

end OsWork.Ports.ProcTable

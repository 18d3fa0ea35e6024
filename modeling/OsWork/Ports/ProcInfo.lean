import OsWork.Ports.ProcPids
import Mathlib.Data.List.Induction

/-!
# `getpinfo`

The scan of `getpinfo` in `proc.c` goes over the whole table and does not look at the states:
a later slot with the pid overwrites what an earlier one has given, and a slot that is not
in use is as good as another.  It fills three of the four fields of `struct proc_stat`, and
the value it returns is 22 in any case.  The table is the one that the scan finds when it
takes `ptable.lock`.

## Main results

* `careful_pidTraces` — in every run in which `nextpid` does not wrap, a pid is in one slot
  only, those not in use included.
* `getpinfo_reports_iff` — when a call reports what it should, for every table, and for the
  tables of these runs.
-/

namespace OsWork.Ports.ProcTable

open OsWork.Verified.Transition

/-! ## The source -/

/-- `struct proc_stat` -/
@[ext] structure ProcStat where
  pid : Word
  numRun : Word
  runtime : Word
  timeInQueues : Word
  deriving DecidableEq

/-- A line that `getpinfo` prints. -/
inductive InfoLine
  | found (pid numRun runtime : Word)
  | notFound
  /-- pid and name of the process in a slot -/
  | listed (p : Slot)
  deriving DecidableEq

/-- The variables of `getpinfo`, and what has been printed. -/
structure InfoCall where
  found : Bool
  process : ProcStat
  printed : List InfoLine

namespace Table

variable (t : Table)

/-- One round of the first loop. -/
def infoRound (pid : Word) (c : InfoCall) (p : Slot) : InfoCall :=
  if (t p).pid = pid then
    { found := true
      process :=
        { c.process with runtime := (t p).rtime, numRun := (t p).numRun, pid := (t p).pid }
      printed := c.printed ++ [.found (t p).pid (t p).numRun (t p).rtime] }
  else c

/-- The second loop: the slots whose processes are listed. -/
def infoList : List InfoLine :=
  ((List.finRange NPROC).filter fun p => (t p).state != .unused).map .listed

/-- `getpinfo(process, pid)`: the value it returns, `*process`, and what it prints. -/
def getpinfo (process : ProcStat) (pid : Word) : Word × ProcStat × List InfoLine :=
  let c := (List.finRange NPROC).foldl (t.infoRound pid) ⟨false, process, []⟩
  (22, c.process, if c.found then c.printed else c.printed ++ .notFound :: t.infoList)

end Table

/-! ## The last slot with a pid -/

/-- The data of a process that `getpinfo` is about. -/
def Proc.info (p : Proc) : ProcStat := ⟨p.pid, p.numRun, p.rtime, p.timeInQueues⟩

/-- The slot is in use and has the pid. -/
def Table.Live (t : Table) (pid : Word) (i : Slot) : Prop :=
  (t i).state ≠ .unused ∧ (t i).pid = pid

instance (t : Table) (pid : Word) (i : Slot) : Decidable (t.Live pid i) :=
  inferInstanceAs (Decidable (_ ∧ _))

/-- The last slot with the pid, in use or not. -/
def Table.lastSlot (t : Table) (pid : Word) : Option Slot :=
  (List.finRange NPROC).reverse.find? fun i => (t i).pid == pid

/-- `*process` after a scan in which `last` has been the last match. -/
def Table.filled (t : Table) (process : ProcStat) (last : Option Slot) : ProcStat :=
  match last with
  | some j => { (t j).info with timeInQueues := process.timeInQueues }
  | none => process

variable {t t' : Table} {pid : Word} {process : ProcStat} {i j : Slot}

theorem Table.filled_queues (t : Table) (process : ProcStat) (last : Option Slot) :
    (t.filled process last).timeInQueues = process.timeInQueues := by
  cases last with
  | none => rfl
  | some j => rfl

/-- What the scan leaves is from the last match. -/
theorem Table.infoScan_process (t : Table) (pid : Word) (l : List Slot) (c : InfoCall) :
    (l.foldl (t.infoRound pid) c).process =
      t.filled c.process (l.reverse.find? fun i => (t i).pid == pid) := by
  induction l using List.reverseRecOn with
  | nil => rfl
  | append_singleton l i ih =>
      rw [List.foldl_append, List.foldl_cons, List.foldl_nil, List.reverse_append,
        List.reverse_singleton, List.singleton_append, List.find?_cons]
      unfold Table.infoRound
      by_cases hpid : (t i).pid = pid
      · rw [if_pos hpid, beq_iff_eq.mpr hpid]
        have hqueues : (l.foldl (t.infoRound pid) c).process.timeInQueues =
            c.process.timeInQueues := by
          rw [ih, Table.filled_queues]
        unfold Table.infoRound at hqueues
        simp only [hqueues, Proc.info, Table.filled]
      · rw [if_neg hpid, beq_eq_false_iff_ne.mpr hpid]
        exact ih

theorem Table.getpinfo_of_last (h : t.lastSlot pid = some j) :
    (t.getpinfo process pid).2.1 = { (t j).info with timeInQueues := process.timeInQueues } := by
  unfold Table.lastSlot at h
  unfold Table.getpinfo
  dsimp only
  rw [Table.infoScan_process, h]
  rfl

theorem Table.lastSlot_pid (h : t.lastSlot pid = some j) : (t j).pid = pid :=
  beq_iff_eq.mp (List.find?_some (p := fun i => (t i).pid == pid) h)

/-- A pid that is in the table has a last slot. -/
theorem Table.exists_lastSlot (h : (t i).pid = pid) : ∃ j, t.lastSlot pid = some j := by
  cases hlast : t.lastSlot pid with
  | some j => exact ⟨j, rfl⟩
  | none =>
      have hnone := List.find?_eq_none.mp hlast i (List.mem_reverse.mpr (List.mem_finRange i))
      exact absurd (beq_iff_eq.mpr h) hnone

/-! ## Pids of slots that are not in use -/

/-- A pid below `nextpid` is in one slot only. -/
structure PidTraces (s : State) : Prop where
  lt : ∀ i, (s.procs i).pid ≠ 0 → (s.procs i).pid.toNat < s.nextpid.toNat
  unique : ∀ i j, (s.procs i).pid ≠ 0 → (s.procs i).pid = (s.procs j).pid → i = j

/-- Slots keep their pids or lose them. -/
def Table.Forgets (t t' : Table) : Prop := ∀ i, (t' i).pid = (t i).pid ∨ (t' i).pid = 0

theorem Table.Forgets.refl (t : Table) : t.Forgets t := fun _ => .inl rfl

theorem Table.forgets_set {f : Proc → Proc} (hf : (f (t i)).pid = (t i).pid ∨ (f (t i)).pid = 0) :
    t.Forgets (t.set i f) := by
  intro j
  by_cases hji : j = i
  · rw [hji, Table.set_self]
    exact hf
  · rw [Table.set_of_ne t hji]
    exact .inl rfl

theorem Table.Forgets.trans {t'' : Table} (h : t.Forgets t') (h' : t'.Forgets t'') :
    t.Forgets t'' := by
  intro i
  rcases h' i with hpid | hzero
  · rw [hpid]
    exact h i
  · exact .inr hzero

theorem Table.kill_forgets (t : Table) (pid : Word) : t.Forgets (t.kill pid).2 := by
  cases hfind : t.find fun p => p.pid == pid with
  | none =>
      rw [Table.kill_miss hfind]
      exact .refl t
  | some i =>
      rw [Table.kill_hit hfind]
      exact Table.forgets_set (.inl rfl)

section Steps

variable {s s' : State}

theorem PidTraces.ofForgets (h : PidTraces s) (hnext : s'.nextpid = s.nextpid)
    (hforgets : s.procs.Forgets s'.procs) : PidTraces s' where
  lt i hi := by
    rcases hforgets i with hpid | hzero
    · rw [hpid] at hi ⊢
      rw [hnext]
      exact h.lt i hi
    · exact absurd hzero hi
  unique i j hi heq := by
    have hj : (s'.procs j).pid ≠ 0 := by
      rw [← heq]
      exact hi
    have hipid := (hforgets i).resolve_right hi
    have hjpid := (hforgets j).resolve_right hj
    rw [hipid] at hi
    rw [hipid, hjpid] at heq
    exact h.unique i j hi heq

/-- `allocproc` takes a pid that no slot has. -/
theorem PidTraces.fork {np p : Slot} {k : KPc} (h : PidTraces s) (hcare : 0 < s.nextpid.toInt) :
    PidTraces ({ s with procs := s.procs.embryo np s.nextpid, nextpid := s.nextpid + 1 }.setPc p
      k) := by
  obtain ⟨-, hnext⟩ := careful_next hcare
  have hself : (s.procs.embryo np s.nextpid np).pid = s.nextpid := by
    unfold Table.embryo
    rw [Table.set_self]
  have hother : ∀ i, i ≠ np → s.procs.embryo np s.nextpid i = s.procs i :=
    fun i hi => Table.set_of_ne _ hi _
  have hfresh : ∀ i, (s.procs i).pid ≠ 0 → (s.procs i).pid ≠ s.nextpid := by
    intro i hi heq
    have hlt := h.lt i hi
    rw [heq] at hlt
    exact Nat.lt_irrefl _ hlt
  constructor
  · intro i hi
    change (s.procs.embryo np s.nextpid i).pid.toNat < (s.nextpid + 1).toNat
    change (s.procs.embryo np s.nextpid i).pid ≠ 0 at hi
    rw [hnext]
    by_cases hin : i = np
    · rw [hin, hself]
      exact Nat.lt_succ_self _
    · rw [hother i hin] at hi ⊢
      exact Nat.lt_succ_of_lt (h.lt i hi)
  · intro i j hi heq
    change (s.procs.embryo np s.nextpid i).pid ≠ 0 at hi
    change (s.procs.embryo np s.nextpid i).pid = (s.procs.embryo np s.nextpid j).pid at heq
    by_cases hin : i = np
    · by_cases hjn : j = np
      · rw [hin, hjn]
      · rw [hin, hself] at hi heq
        rw [hother j hjn] at heq
        exact absurd heq.symm (hfresh j (by rw [← heq]; exact hi))
    · rw [hother i hin] at hi heq
      by_cases hjn : j = np
      · rw [hjn, hself] at heq
        exact absurd heq (hfresh i hi)
      · rw [hother j hjn] at heq
        exact h.unique i j hi heq

theorem PidTraces.step {a : Act} (h : PidTraces s) (hcare : CarefulFork s a) (hm : Move s a s') :
    PidTraces s' := by
  cases hm
  case fork c p np hcpu hk hlock hnp => exact h.fork (hcare (by rw [hnp]; nofun))
  case kill c pid _ => exact h.ofForgets rfl (s.procs.kill_forgets pid)
  case schedWake c n i hcpu | wakeSlot c p i ok chan k hcpu hk =>
    exact h.ofForgets rfl (Table.forgets_set (.inl rfl))
  case wakeupTicks _ _ =>
    refine h.ofForgets rfl fun i => .inl ?_
    dsimp only
    rw [Table.wakeup1_apply]
  case sleep c p n hcpu hk _ | waitSleep c p ok x hcpu hk _ _ _ =>
    exact h.ofForgets rfl ((Table.forgets_set (.inl rfl)).trans (Table.forgets_set (.inl rfl)))
  case reap c p z ok x hcpu hk hz => exact h.ofForgets rfl (Table.forgets_set (.inr rfl))
  -- the remaining steps do not write a pid
  all_goals
    first
      | exact h
      | exact h.ofForgets rfl (.refl _)
      | exact h.ofForgets rfl (Table.forgets_set (.inl rfl))

end Steps

theorem careful_pidTraces {P : Params} {s : State}
    (h : (kernel P).ReachableWhen CarefulFork s) : PidTraces s := by
  refine System.ReachableWhen.invariant (P := PidTraces) ?_ ?_ h
  · intro s hs
    have hstart : s = start := hs
    rw [hstart]
    have hslot : ∀ i, (start.procs i).pid ≠ 0 → i = slot0 := by
      intro i hi
      by_contra hne
      apply hi
      simp [start, hne, Proc.zero]
    constructor
    · intro i hi
      rw [hslot i hi]
      decide
    · intro i j hi heq
      rw [hslot i hi, hslot j (by rw [← heq]; exact hi)]
  · intro s a s' hs hcare hstep
    exact hs.step hcare (Move.of_step hstep)

/-! ## What a call reports -/

/-- The call reports the live process with the pid, or that there is none. -/
structure ReportsLive (t : Table) (process : ProcStat) (pid : Word) : Prop where
  live : ∀ i, t.Live pid i → (t.getpinfo process pid).2.1 = (t i).info
  missing : (∀ i, ¬ t.Live pid i) → (t.getpinfo process pid).2.1 = process ∧
    ∀ t' process' pid' i, Table.Live t' pid' i →
      (t.getpinfo process pid).1 ≠ (Table.getpinfo t' process' pid').1

/-- A live process has the pid, and the last slot with the pid and the caller's own
`time_in_queues` happen to agree with it. -/
def Agrees (t : Table) (process : ProcStat) (pid : Word) : Prop :=
  (∃ i, t.Live pid i) ∧ ∀ i j, t.Live pid i → t.lastSlot pid = some j →
    (t j).numRun = (t i).numRun ∧ (t j).rtime = (t i).rtime ∧
      process.timeInQueues = (t i).timeInQueues

theorem reports_iff (t : Table) (process : ProcStat) (pid : Word) :
    ReportsLive t process pid ↔ Agrees t process pid := by
  constructor
  · intro h
    constructor
    · by_contra hnone
      have hmissing := (h.missing fun i hi => hnone ⟨i, hi⟩).2
      exact hmissing (fun _ => { Proc.zero with state := .running }) process 0 slot0
        ⟨nofun, rfl⟩ rfl
    · intro i j hi hj
      have hinfo := h.live i hi
      rw [Table.getpinfo_of_last hj] at hinfo
      injection hinfo with _ hrun htime hqueues
      exact ⟨hrun, htime, hqueues⟩
  · rintro ⟨⟨i, hi⟩, hagree⟩
    constructor
    · intro k hk
      obtain ⟨j, hj⟩ := Table.exists_lastSlot hk.2
      obtain ⟨hrun, htime, hqueues⟩ := hagree k j hk hj
      rw [Table.getpinfo_of_last hj]
      unfold Proc.info
      rw [Table.lastSlot_pid hj, hk.2, hrun, htime, hqueues]
    · intro hnone
      exact absurd hi (hnone i)

/-- A call reports what it should if and only if there is a live process to report, the last
slot with its pid agrees with it, and the caller knows its `time_in_queues`.  Where `nextpid`
has not wrapped, the last slot is that of the process. -/
theorem getpinfo_reports_iff (t : Table) (process : ProcStat) (pid : Word) :
    (ReportsLive t process pid ↔ Agrees t process pid) ∧
      ∀ (P : Params) (s : State), (kernel P).ReachableWhen CarefulFork s → s.procs = t →
        (ReportsLive t process pid ↔
          ∃ i, t.Live pid i ∧ process.timeInQueues = (t i).timeInQueues) := by
  refine ⟨reports_iff t process pid, ?_⟩
  rintro P s hs rfl
  have htraces := careful_pidTraces hs
  obtain ⟨-, horder⟩ := careful_pidOrder hs
  have hlast : ∀ i j, s.procs.Live pid i → s.procs.lastSlot pid = some j → j = i := by
    intro i j hi hj
    have hne : (s.procs i).pid ≠ 0 := by
      intro hzero
      have hpos := horder.pos i hi.1
      rw [hzero] at hpos
      exact absurd hpos (Nat.lt_irrefl _)
    exact (htraces.unique i j hne (hi.2.trans (Table.lastSlot_pid hj).symm)).symm
  rw [reports_iff]
  constructor
  · rintro ⟨⟨i, hi⟩, hagree⟩
    obtain ⟨j, hj⟩ := Table.exists_lastSlot hi.2
    exact ⟨i, hi, (hagree i j hi hj).2.2⟩
  · rintro ⟨i, hi, hqueues⟩
    refine ⟨⟨i, hi⟩, ?_⟩
    intro k j hk hj
    have hki : k = i := horder.unique k i hk.1 hi.1 (hk.2.trans hi.2.symm)
    rw [hlast k j hk hj, hki]
    exact ⟨rfl, rfl, hqueues⟩

/-- Init makes a child, in slot 1, which waits in the queue for one tick. -/
def childWaits : List Act :=
  List.flatten [startThenFork, List.replicate 3 (.go 0 true), .tick :: List.replicate 7 .timer]

def childSlot : Slot := ⟨1, one_lt_NPROC⟩

theorem getpinfo_reports_child : ∃ s, (kernel ⟨1⟩).ReachableWhen CarefulFork s ∧
    s.procs.Live 2 childSlot ∧ (s.procs childSlot).timeInQueues = 1 ∧
    ReportsLive s.procs ⟨0, 0, 0, 1⟩ 2 := by
  obtain ⟨s, hs, htest⟩ := System.exists_reachableWhen_of_run
    (M := kernel ⟨1⟩) CarefulFork (l := childWaits) (s := start)
    (p := fun s => decide (s.procs.Live 2 childSlot ∧ (s.procs childSlot).timeInQueues = 1)) rfl
    (by decide +kernel)
  simp only [decide_eq_true_eq] at htest
  refine ⟨s, hs, htest.1, htest.2, ?_⟩
  exact ((getpinfo_reports_iff s.procs ⟨0, 0, 0, 1⟩ 2).2 ⟨1⟩ s hs rfl).mpr
    ⟨childSlot, htest.1, htest.2.symm⟩

/-- No process has the pid 77 at the start, and the call returns what it returns for init. -/
theorem not_all_reported :
    ¬ ∀ (P : Params) (s : State), (kernel P).Reachable s →
      ∀ (process : ProcStat) (pid : Word), ReportsLive s.procs process pid := by
  intro hall
  have h := hall ⟨1⟩ start (.init rfl) ⟨0, 0, 0, 0⟩ 77
  have hpid : ∀ i, (start.procs i).pid ≠ 77 := by decide
  exact (h.missing fun i hi => hpid i hi.2).2 start.procs ⟨0, 0, 0, 0⟩ 1 slot0 ⟨by decide, rfl⟩ rfl

end OsWork.Ports.ProcTable

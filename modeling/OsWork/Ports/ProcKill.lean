import OsWork.Ports.ProcLocking

/-!
# What `kill` reaches

`kill` looks a slot up by its pid and never at its state, and `allocproc` does
not reset `killed`.  An UNUSED slot has pid 0 when it was never used or was
reaped, and the pid of the child that never was when `fork` failed half-way; a
`kill` of such a pid succeeds, and the next process in that slot is born killed.

## Main results

* `careful_kill` — in every run in which no UNUSED slot carries a pid that is
  passed to `kill`, and no `fork` fails whose slot has been killed in the
  meantime, `kill` reaches one live slot, `fork` starts from a slot that is not
  killed, and a process is killed only by a `kill` of its own pid after its
  creation or by its own fault.
* `not_all_kill` — without the restriction `kill(0)` breaks it.
-/

namespace OsWork.Ports.ProcTable

open OsWork.Verified.Transition

/-! ## What has happened to a slot since its process was created -/

/-- Bookkeeping since `allocproc` took the slot: `called` records a `kill` of
the slot's pid, `faulted` the default case of `trap`. -/
structure KillRecord where
  called : Slot → Bool
  faulted : Slot → Bool

def KillRecord.empty : KillRecord where
  called := fun _ => false
  faulted := fun _ => false

/-- The bookkeeping of one step. -/
def KillRecord.record (s : State) (a : Act) (g : KillRecord) : KillRecord :=
  match a with
  | .call c .fork =>
      match s.cpu c, s.procs.findUnused with
      | .run _, some np =>
          { called := Function.update g.called np false
            faulted := Function.update g.faulted np false }
      | _, _ => g
  | .call _ (.kill pid) =>
      { g with called := fun i =>
          g.called i || (s.procs i).state != .unused && (s.procs i).pid == pid }
  | .call c .fault =>
      match s.cpu c with
      | .run p => { g with faulted := Function.update g.faulted p true }
      | _ => g
  | _ => g

/-- The kernel with the bookkeeping. -/
def killKernel (P : Params) : System (State × KillRecord) Act :=
  (kernel P).withGhost (fun _ => KillRecord.empty) fun s a g => g.record s a

/-! ## The law and its condition -/

/-- `kill(pid)` succeeds only on a slot that is in use and changes only that
slot, `fork` takes a slot that is not killed, and a process that has not
faulted is killed only by a `kill` of its own pid since its creation. -/
structure KillLaw (s : State) (g : KillRecord) (pid : Word) : Prop where
  target : (s.procs.kill pid).1 = 0 → ∃ i, (s.procs i).state ≠ .unused ∧
    (s.procs i).pid = pid ∧ ∀ j, j ≠ i → (s.procs.kill pid).2 j = s.procs j
  missed : (s.procs.kill pid).1 ≠ 0 → (s.procs.kill pid).2 = s.procs
  fresh : ∀ np, s.procs.findUnused = some np → (s.procs np).killed = false
  cause : ∀ i, (s.procs i).killed = true → g.faulted i = false → g.called i = true

/-- No UNUSED slot carries the pid. -/
def PidInUse (s : State) (pid : Word) : Prop :=
  ∀ i, (s.procs i).state = .unused → (s.procs i).pid ≠ pid

instance (s : State) (pid : Word) : Decidable (PidInUse s pid) :=
  inferInstanceAs (Decidable (∀ _, _))

/-- The slot a failing `fork` gives back. -/
def KPc.abandons : KPc → Option Slot
  | .forkStack np | .forkCopy np => some np
  | _ => none

/-- The condition on a step: `kill` is not called with the pid of an UNUSED
slot, and a `fork` that fails gives back a slot that is not killed. -/
def CarefulKill (s : State) : Act → Prop
  | .call _ (.kill pid) => PidInUse s pid
  | .go c false =>
      match s.cpu c with
      | .run p =>
          match (s.kpc p).abandons with
          | some np => (s.procs np).killed = false
          | none => True
      | _ => True
  | _ => True

instance (s : State) (a : Act) : Decidable (CarefulKill s a) := by
  unfold CarefulKill
  split
  · infer_instance
  · split
    · split <;> infer_instance
    · infer_instance
  · infer_instance

/-! ## The invariant -/

/-- A killed slot is in use, and something has killed it. -/
def KilledInUse (s : State) (g : KillRecord) : Prop :=
  ∀ i, (s.procs i).killed = true →
    (s.procs i).state ≠ .unused ∧ (g.called i = true ∨ g.faulted i = true)

theorem killedInUse_start : KilledInUse start KillRecord.empty := by
  intro i hi
  by_cases h : i = slot0
  · subst h
    simp [start, Proc.zero] at hi
  · simp [start, h, Proc.zero] at hi

section Steps

variable {s s' : State} {g : KillRecord}

/-- A step that kills nobody and frees no slot. -/
theorem KilledInUse.ofFrame (h : KilledInUse s g)
    (hframe : ∀ i, (s'.procs i).killed = (s.procs i).killed ∧
      ((s'.procs i).state = .unused → (s.procs i).state = .unused)) : KilledInUse s' g := by
  intro i hi
  rw [(hframe i).1] at hi
  obtain ⟨hstate, hcause⟩ := h i hi
  exact ⟨fun hu => hstate ((hframe i).2 hu), hcause⟩

theorem unused_of_wakes {a b : ProcState} (h : a.Wakes b) (hb : b = .unused) : a = .unused := by
  rcases h with rfl | ⟨_, hrun⟩
  · exact hb
  · rw [hrun] at hb
    cases hb

/-- A write to one slot that neither kills nor frees it. -/
theorem killed_set {t : Table} {i : Slot} {f : Proc → Proc}
    (hf : (f (t i)).killed = (t i).killed ∧ ((f (t i)).state = .unused → (t i).state = .unused))
    (j : Slot) : (t.set i f j).killed = (t j).killed ∧
      ((t.set i f j).state = .unused → (t j).state = .unused) := by
  by_cases hji : j = i
  · subst hji
    rw [Table.set_self]
    exact hf
  · rw [Table.set_of_ne t hji]
    exact ⟨rfl, id⟩

/-- A round of `wakeup1` does neither. -/
theorem killed_wakeSlot {t : Table} (chan : Option Chan) (i j : Slot) :
    (t.wakeSlot chan i j).killed = (t j).killed ∧
      ((t.wakeSlot chan i j).state = .unused → (t j).state = .unused) := by
  refine ⟨?_, unused_of_wakes (t.wakeSlot_wakes chan i j)⟩
  rw [Table.wakeSlot_rest]

/-- `kill` kills a slot that carries its pid. -/
theorem KilledInUse.kill {pid : Word} (h : KilledInUse s g) (hpid : PidInUse s pid) (c : Cpu) :
    KilledInUse { s with procs := (s.procs.kill pid).2 } (g.record s (.call c (.kill pid))) := by
  intro i hi
  simp only [KillRecord.record] at hi ⊢
  cases hfind : s.procs.find fun p => p.pid == pid with
  | none =>
      rw [Table.kill_miss hfind] at hi ⊢
      obtain ⟨hstate, hcause⟩ := h i hi
      exact ⟨hstate, hcause.imp (fun hc => by simp [hc]) id⟩
  | some j =>
      have hj := Table.find_some hfind
      simp only [beq_iff_eq] at hj
      rw [Table.kill_hit hfind] at hi ⊢
      simp only at hi ⊢
      by_cases hij : i = j
      · subst hij
        have huse : (s.procs i).state ≠ .unused := fun hu => hpid i hu hj
        rw [Table.set_self]
        refine ⟨?_, .inl (by simp [huse, hj])⟩
        simp only
        split
        · simp
        · exact huse
      · rw [Table.set_of_ne _ hij] at hi ⊢
        obtain ⟨hstate, hcause⟩ := h i hi
        exact ⟨hstate, hcause.imp (fun hc => by simp [hc]) id⟩

/-- One careful step. -/
theorem KilledInUse.step {a : Act} (hl : Locking s) (h : KilledInUse s g)
    (hc : CarefulKill s a) (hm : Move s a s') : KilledInUse s' (g.record s a) := by
  cases hm
  case fork c p np hcpu hk hlock hnp =>
    have hunused := Table.find_some hnp
    simp only [beq_iff_eq] at hunused
    intro i hi
    by_cases hin : i = np
    · subst hin
      simp only [State.setPc_procs, Table.embryo, Table.set_self] at hi
      exact absurd hunused (h i hi).1
    · simp only [State.setPc_procs, Table.embryo, Table.set_of_ne _ hin] at hi ⊢
      simpa [KillRecord.record, hcpu, hnp, hin] using h i hi
  case forkFull c =>
    intro i hi
    obtain ⟨hstate, hcause⟩ := h i hi
    refine ⟨hstate, ?_⟩
    simp only [KillRecord.record]
    split
    · rename_i np _ hnp
      have hin : i ≠ np := by
        intro heq
        have hunused := Table.find_some hnp
        simp only [beq_iff_eq, ← heq] at hunused
        exact hstate hunused
      simpa [hin] using hcause
    · exact hcause
  case kill c pid _ => exact h.kill hc c
  case fault c p hcpu hk =>
    intro i hi
    by_cases hip : i = p
    · subst hip
      refine ⟨?_, .inr (by simp [KillRecord.record, hcpu])⟩
      simp [hl.running c i hcpu]
    · simp only [State.setProc_procs, Table.set_of_ne _ hip] at hi ⊢
      simpa [KillRecord.record, hcpu, hip] using h i hi
  case forkFail c p np hcpu hk =>
    have hkilled : (s.procs np).killed = false := by
      simp only [CarefulKill, hcpu] at hc
      rcases hk with hk | hk <;> simpa [hk, KPc.abandons] using hc
    intro i hi
    by_cases hin : i = np
    · subst hin
      simp [hkilled] at hi
    · simp only [State.setPc_procs, State.setProc_procs, Table.set_of_ne _ hin] at hi ⊢
      exact h i hi
  case reap c p z ok x hcpu hk hz =>
    intro i hi
    by_cases hiz : i = z
    · subst hiz
      simp [Table.reap] at hi
    · simp only [State.setPc_procs, State.release_procs, Table.reap, Table.set_of_ne _ hiz] at hi ⊢
      exact h i hi
  case wait c p y x hcpu hk _ hy =>
    cases x <;> cases hy <;> exact h
  case schedWake c n i hcpu => exact h.ofFrame (killed_wakeSlot _ i)
  case wakeSlot c p i ok chan k hcpu hk => exact h.ofFrame (killed_wakeSlot chan i)
  case wakeupTicks _ _ =>
    exact h.ofFrame fun i => ⟨by simp [Table.wakeup1_apply],
      unused_of_wakes (s.procs.wakeup1_wakes _ i)⟩
  case sleep c p n hcpu hk _ =>
    have hchan : KilledInUse (s.setProc p fun q => { q with chan := some (.addr n) }) g :=
      h.ofFrame (killed_set ⟨rfl, id⟩)
    exact hchan.ofFrame (killed_set ⟨rfl, by simp⟩)
  case waitSleep c p ok x hcpu hk _ _ _ =>
    have hchan : KilledInUse (s.setProc p fun q => { q with chan := some (.proc p) }) g :=
      h.ofFrame (killed_set ⟨rfl, id⟩)
    exact hchan.ofFrame (killed_set ⟨rfl, by simp⟩)
  -- the remaining steps write other fields of one slot, or none
  all_goals
    first
      | exact h
      | exact h.ofFrame (killed_set ⟨rfl, id⟩)
      | exact h.ofFrame (killed_set ⟨rfl, by simp⟩)

end Steps

/-! ## Whole runs -/

/-- **`kill` reaches live processes only**, in every run whose steps are careful
and for every pid that no UNUSED slot carries. -/
theorem careful_kill (P : Params) (c : State × KillRecord)
    (h : (killKernel P).ReachableWhen (fun c a => CarefulKill c.1 a) c) (pid : Word)
    (hpid : PidInUse c.1 pid) : KillLaw c.1 c.2 pid := by
  have hinv : (Locking c.1 ∧ Forking c.1) ∧ KilledInUse c.1 c.2 := by
    refine System.ReachableWhen.invariant
      (P := fun c : State × KillRecord => (Locking c.1 ∧ Forking c.1) ∧ KilledInUse c.1 c.2)
      ?_ ?_ h
    · intro c hc
      have hstart : c.1 = start := hc.1
      have hempty : c.2 = KillRecord.empty := hc.2
      rw [hstart, hempty]
      exact ⟨⟨locking_start, forking_start⟩, killedInUse_start⟩
    · intro c a c' hinv hcare hstep
      obtain ⟨⟨hl, hf⟩, hk⟩ := hinv
      obtain ⟨hstep, hrecord⟩ := System.withGhost_step hstep
      have hm := Move.of_step hstep
      rw [hrecord]
      exact ⟨⟨hl.step hf hm, hf.step hl hm⟩, hk.step hl hcare hm⟩
  have hkilled := hinv.2
  refine { target := fun hzero => ?_, missed := fun hne => ?_, fresh := fun np hnp => ?_,
           cause := fun i hi hfault => ?_ }
  · cases hfind : c.1.procs.find fun p => p.pid == pid with
    | none =>
        rw [Table.kill_miss hfind] at hzero
        cases hzero
    | some i =>
        have hi := Table.find_some hfind
        simp only [beq_iff_eq] at hi
        refine ⟨i, fun hu => hpid i hu hi, hi, fun j hj => ?_⟩
        rw [Table.kill_hit hfind]
        simp [hj]
  · cases hfind : c.1.procs.find fun p => p.pid == pid with
    | none => rw [Table.kill_miss hfind]
    | some i =>
        rw [Table.kill_hit hfind] at hne
        exact absurd rfl hne
  · have hunused := Table.find_some hnp
    simp only [beq_iff_eq] at hunused
    cases hk : (c.1.procs np).killed with
    | false => rfl
    | true => exact absurd hunused (hkilled np hk).1
  · rcases (hkilled i hi).2 with hcalled | hfaulted
    · exact hcalled
    · rw [hfault] at hfaulted
      cases hfaulted

/-- Init forks a child and kills it. -/
def forkThenKill : List Act :=
  List.flatten [List.replicate 6 (.sched 0), [.go 0 true, .call 0 .fork],
    List.replicate 6 (.go 0 true), [.call 0 (.kill 2)]]

/-- `forkThenKill` is a careful run that ends with a killed process. -/
theorem careful_kill_forkThenKill :
    ∃ c, (killKernel ⟨1⟩).ReachableWhen (fun c a => CarefulKill c.1 a) c ∧
      (∃ i, (c.1.procs i).killed = true) ∧ KillLaw c.1 c.2 2 := by
  obtain ⟨c, hc, htest⟩ := System.exists_reachableWhen_of_run
    (M := killKernel ⟨1⟩) (fun c a => CarefulKill c.1 a) (l := forkThenKill)
    (s := (start, KillRecord.empty))
    (p := fun c => decide (∃ i, (c.1.procs i).killed = true) && decide (PidInUse c.1 2))
    ⟨rfl, rfl⟩ (by decide +kernel)
  simp only [Bool.and_eq_true, decide_eq_true_eq] at htest
  exact ⟨c, hc, htest.1, careful_kill ⟨1⟩ c hc 2 htest.2⟩

/-- Init calls `kill(0)` and then `fork`. -/
def killThenFork : List Act :=
  List.replicate 6 (.sched 0) ++ [.go 0 true, .call 0 (.kill 0), .call 0 .fork]

/-- `kill(0)` reaches an UNUSED slot, and the child that is put there next is
born killed. -/
theorem not_all_kill :
    ¬ ∀ (P : Params) (c : State × KillRecord), (killKernel P).Reachable c →
      ∀ pid, KillLaw c.1 c.2 pid := by
  intro hall
  obtain ⟨c, hc, htest⟩ := System.exists_reachable_of_run
    (M := killKernel ⟨1⟩) (l := killThenFork) (s := (start, KillRecord.empty))
    (p := fun c => decide (∃ i, (c.1.procs i).killed = true ∧ c.2.faulted i = false ∧
      c.2.called i = false)) ⟨rfl, rfl⟩ (by decide +kernel)
  simp only [decide_eq_true_eq] at htest
  obtain ⟨i, hkilled, hfault, hcalled⟩ := htest
  have := (hall ⟨1⟩ c hc 0).cause i hkilled hfault
  rw [hcalled] at this
  cases this

end OsWork.Ports.ProcTable

import OsWork.Ports.ProcLocking
import Mathlib.Algebra.Group.Nat.Defs

/-!
# Process ids

`nextpid` is an `int` that only grows, and a slot keeps its pid until it is reaped.  The
pids of the slots in use are below `nextpid` and all different as long as `nextpid` has not
come to `2 ^ 31`; from there on `fork` hands out negative pids, and after `2 ^ 32` calls
those that processes still have.

## Main results

* `careful_pids` — in every run in which `allocproc` takes positive pids only, the pids are
  unique and `fork` returns positive ones.
* `not_all_pids` — without the restriction two processes get the same pid.
-/

namespace OsWork.Ports.ProcTable

open OsWork.Verified.Transition

/-! ## The law and its condition -/

/-- Two processes do not have one pid, and the pid that a `fork` under way will return is
positive. -/
structure PidLaw (s : State) : Prop where
  unique : ∀ i j, (s.procs i).state ≠ .unused → (s.procs j).state ≠ .unused →
    (s.procs i).pid = (s.procs j).pid → i = j
  returned : ∀ p np, (s.kpc p).forks = some np → 0 < (s.procs np).pid.toInt

/-- The condition on a step: `nextpid` has not wrapped when `allocproc` takes a slot. -/
def CarefulFork (s : State) : Act → Prop
  | .call _ .fork => s.procs.findUnused ≠ none → 0 < s.nextpid.toInt
  | _ => True

instance (s : State) (a : Act) : Decidable (CarefulFork s a) := by
  unfold CarefulFork
  split <;> infer_instance

/-! ## The invariant -/

/-- The pids in use are below `nextpid` and all different. -/
structure PidOrder (s : State) : Prop where
  pos : ∀ i, (s.procs i).state ≠ .unused → 0 < (s.procs i).pid.toNat
  lt : ∀ i, (s.procs i).state ≠ .unused → (s.procs i).pid.toNat < s.nextpid.toNat
  bound : s.nextpid.toNat ≤ 2 ^ 31
  unique : ∀ i j, (s.procs i).state ≠ .unused → (s.procs j).state ≠ .unused →
    (s.procs i).pid = (s.procs j).pid → i = j

theorem start_live {i : Slot} (h : (start.procs i).state ≠ .unused) : i = slot0 := by
  by_contra hne
  apply h
  simp [start, hne, Proc.zero]

theorem pidOrder_start : PidOrder start where
  pos i h := by
    rw [start_live h]
    decide
  lt i h := by
    rw [start_live h]
    decide
  bound := by decide
  unique i j hi hj _ := by rw [start_live hi, start_live hj]

@[simp] theorem State.setPc_nextpid (s : State) (p : Slot) (k : KPc) :
    (s.setPc p k).nextpid = s.nextpid := rfl

@[simp] theorem State.acquire_nextpid (s : State) (c : Cpu) :
    (s.acquire c).nextpid = s.nextpid := rfl

/-- Every slot that is in use was in use before, with the same pid. -/
def Table.Keeps (t t' : Table) : Prop :=
  ∀ i, (t' i).state ≠ .unused → (t i).state ≠ .unused ∧ (t' i).pid = (t i).pid

theorem Table.Keeps.refl (t : Table) : t.Keeps t := fun _ h => ⟨h, rfl⟩

theorem Table.Keeps.trans {t t' t'' : Table} (h : t.Keeps t') (h' : t'.Keeps t'') :
    t.Keeps t'' := by
  intro i hi
  obtain ⟨hi', hpid'⟩ := h' i hi
  obtain ⟨hi'', hpid⟩ := h i hi'
  exact ⟨hi'', hpid'.trans hpid⟩

/-- A write to a slot that is in use, or gets out of use, or keeps its state. -/
theorem Table.keeps_set {t : Table} {i : Slot} {f : Proc → Proc}
    (hstate : (t i).state ≠ .unused ∨ (f (t i)).state = .unused ∨ (f (t i)).state = (t i).state)
    (hpid : (f (t i)).state ≠ .unused → (f (t i)).pid = (t i).pid) : t.Keeps (t.set i f) := by
  intro j hj
  by_cases hji : j = i
  · subst hji
    rw [Table.set_self] at hj ⊢
    refine ⟨?_, hpid hj⟩
    rcases hstate with hlive | hfree | hsame
    · exact hlive
    · exact absurd hfree hj
    · rw [hsame] at hj
      exact hj
  · rw [Table.set_of_ne t hji] at hj ⊢
    exact ⟨hj, rfl⟩

theorem ProcState.Wakes.live {a b : ProcState} (h : a.Wakes b) (hb : b ≠ .unused) :
    a ≠ .unused := by
  rcases h with rfl | ⟨rfl, -⟩
  · exact hb
  · nofun

theorem Table.wakeup1_keeps (t : Table) (chan : Option Chan) : t.Keeps (t.wakeup1 chan) := by
  intro i hi
  refine ⟨(t.wakeup1_wakes chan i).live hi, ?_⟩
  rw [Table.wakeup1_apply]

theorem Table.wakeSlot_keeps (t : Table) (chan : Option Chan) (i : Slot) :
    t.Keeps (t.wakeSlot chan i) := by
  intro j hj
  refine ⟨(t.wakeSlot_wakes chan i j).live hj, ?_⟩
  rw [Table.wakeSlot_rest]

theorem Table.kill_keeps (t : Table) (pid : Word) : t.Keeps (t.kill pid).2 := by
  cases hfind : t.find fun p => p.pid == pid with
  | none =>
      rw [Table.kill_miss hfind]
      exact .refl t
  | some i =>
      rw [Table.kill_hit hfind]
      refine Table.keeps_set ?_ fun _ => rfl
      by_cases hs : (t i).state = .sleeping
      · left
        rw [hs]
        nofun
      · exact .inr (.inr (if_neg hs))

section Steps

variable {s s' : State}

theorem PidOrder.ofKeeps (h : PidOrder s) (hnext : s'.nextpid = s.nextpid)
    (hkeeps : s.procs.Keeps s'.procs) : PidOrder s' where
  pos i hi := by
    obtain ⟨hlive, hpid⟩ := hkeeps i hi
    rw [hpid]
    exact h.pos i hlive
  lt i hi := by
    obtain ⟨hlive, hpid⟩ := hkeeps i hi
    rw [hpid, hnext]
    exact h.lt i hlive
  bound := by
    rw [hnext]
    exact h.bound
  unique i j hi hj heq := by
    obtain ⟨hilive, hipid⟩ := hkeeps i hi
    obtain ⟨hjlive, hjpid⟩ := hkeeps j hj
    rw [hipid, hjpid] at heq
    exact h.unique i j hilive hjlive heq

/-- The next pid is positive, and the one after it does not wrap. -/
theorem careful_next {v : Word} (hcare : 0 < v.toInt) :
    (0 < v.toNat ∧ v.toNat < 2 ^ 31) ∧ (v + 1).toNat = v.toNat + 1 := by
  have hlow : 0 < v.toNat ∧ v.toNat < 2 ^ 31 := by
    have hlt := v.isLt
    rw [BitVec.toInt_eq_toNat_cond] at hcare
    omega
  refine ⟨hlow, ?_⟩
  have hone : (1 : Word).toNat = 1 := rfl
  rw [BitVec.toNat_add, hone]
  omega

/-- `allocproc` takes the next pid. -/
theorem PidOrder.fork {np p : Slot} {k : KPc} (h : PidOrder s) (hcare : 0 < s.nextpid.toInt) :
    PidOrder ({ s with procs := s.procs.embryo np s.nextpid, nextpid := s.nextpid + 1 }.setPc p
      k) := by
  obtain ⟨hlow, hnext⟩ := careful_next hcare
  -- a slot is the new one, or it was in use with the pid it has
  have hcases : ∀ i, (s.procs.embryo np s.nextpid i).state ≠ .unused →
      i = np ∧ (s.procs.embryo np s.nextpid i).pid = s.nextpid ∨
        i ≠ np ∧ (s.procs i).state ≠ .unused ∧
          (s.procs.embryo np s.nextpid i).pid = (s.procs i).pid := by
    intro i hi
    unfold Table.embryo at hi ⊢
    by_cases heq : i = np
    · subst heq
      rw [Table.set_self]
      exact .inl ⟨rfl, rfl⟩
    · rw [Table.set_of_ne _ heq] at hi ⊢
      exact .inr ⟨heq, hi, rfl⟩
  exact
    { pos := by
        intro i hi
        rw [State.setPc_procs] at hi ⊢
        rcases hcases i hi with ⟨-, hpid⟩ | ⟨-, hlive, hpid⟩
        · rw [hpid]
          exact hlow.1
        · rw [hpid]
          exact h.pos i hlive
      lt := by
        intro i hi
        show _ < (s.nextpid + 1).toNat
        rw [State.setPc_procs] at hi ⊢
        rw [hnext]
        rcases hcases i hi with ⟨-, hpid⟩ | ⟨-, hlive, hpid⟩
        · rw [hpid]
          omega
        · rw [hpid]
          exact Nat.lt_succ_of_lt (h.lt i hlive)
      bound := by
        show (s.nextpid + 1).toNat ≤ 2 ^ 31
        rw [hnext]
        omega
      unique := by
        intro i j hi hj heq
        rw [State.setPc_procs] at hi hj heq
        rcases hcases i hi with ⟨hin, hipid⟩ | ⟨-, hilive, hipid⟩ <;>
          rcases hcases j hj with ⟨hjn, hjpid⟩ | ⟨-, hjlive, hjpid⟩ <;>
          rw [hipid, hjpid] at heq
        · rw [hin, hjn]
        · have hlt := h.lt j hjlive
          rw [← heq] at hlt
          omega
        · have hlt := h.lt i hilive
          rw [heq] at hlt
          omega
        · exact h.unique i j hilive hjlive heq }

/-- Every step that meets the condition keeps the pids in order. -/
theorem PidOrder.step {a : Act} (hl : Locking s) (hf : Forking s) (h : PidOrder s)
    (hcare : CarefulFork s a) (hm : Move s a s') : PidOrder s' := by
  have hrunning : ∀ {c p}, s.cpu c = .run p → (s.procs p).state ≠ .unused := by
    intro c p hc he
    rw [hl.running c p hc] at he
    cases he
  have hleave : ∀ {c p ch st}, s.cpu c = .run p →
      s.procs.Keeps ((s.procs.set p fun q => { q with chan := ch }).set p
        fun q => { q with state := st }) := by
    intro c p ch st hc
    refine (Table.keeps_set (.inr (.inr rfl)) fun _ => rfl).trans
      (Table.keeps_set (.inl ?_) fun _ => rfl)
    rw [Table.set_self]
    exact hrunning hc
  cases hm
  case fork c p np hcpu hk hlock hnp =>
    exact h.fork (hcare (by rw [hnp]; nofun))
  case forkFail c p np hcpu hk =>
    exact h.ofKeeps rfl (Table.keeps_set (.inr (.inl rfl)) fun _ => rfl)
  case forkReady c p np ok hcpu hk hlock =>
    have hnp := hf.embryo p np (by rw [hk]; rfl)
    exact h.ofKeeps rfl (Table.keeps_set (.inl (by rw [hnp]; nofun)) fun _ => rfl)
  case kill c pid _ => exact h.ofKeeps rfl (s.procs.kill_keeps pid)
  case schedWake c n i hcpu => exact h.ofKeeps rfl (s.procs.wakeSlot_keeps _ i)
  case wakeSlot c p i ok chan k hcpu hk => exact h.ofKeeps rfl (s.procs.wakeSlot_keeps chan i)
  case wakeupTicks _ _ => exact h.ofKeeps rfl (s.procs.wakeup1_keeps _)
  case sleep c p n hcpu hk _ | waitSleep c p ok x hcpu hk _ _ _ => exact h.ofKeeps rfl (hleave hcpu)
  case dispatch c p hcpu =>
    have hp := hl.chosen c p (by rw [hcpu]; rfl)
    exact h.ofKeeps rfl (Table.keeps_set (.inl (by rw [hp]; nofun)) fun _ => rfl)
  case exitZombie c p ok hcpu hk | yield c p hcpu hk _ =>
    exact h.ofKeeps rfl (Table.keeps_set (.inl (hrunning hcpu)) fun _ => rfl)
  case reap c p z ok x hcpu hk hz =>
    exact h.ofKeeps rfl (Table.keeps_set (.inr (.inl rfl)) fun hlive => absurd rfl hlive)
  -- the remaining steps write neither a state nor a pid
  all_goals
    first
      | exact h
      | exact h.ofKeeps rfl (.refl _)
      | exact h.ofKeeps rfl (Table.keeps_set (.inr (.inr rfl)) fun _ => rfl)

end Steps

theorem PidOrder.law {s : State} (hf : Forking s) (h : PidOrder s) : PidLaw s where
  unique := h.unique
  returned p np hnp := by
    have hlive : (s.procs np).state ≠ .unused := by
      rw [hf.embryo p np hnp]
      nofun
    have hpos := h.pos np hlive
    have hlt := h.lt np hlive
    have hbound := h.bound
    rw [BitVec.toInt_eq_toNat_cond]
    omega

theorem careful_pidOrder {P : Params} {s : State} (h : (kernel P).ReachableWhen CarefulFork s) :
    (Locking s ∧ Forking s) ∧ PidOrder s := by
  refine System.ReachableWhen.invariant
    (P := fun s => (Locking s ∧ Forking s) ∧ PidOrder s) ?_ ?_ h
  · intro s hs
    have hstart : s = start := hs
    rw [hstart]
    exact ⟨⟨locking_start, forking_start⟩, pidOrder_start⟩
  · intro s a s' hinv hcare hstep
    obtain ⟨⟨hl, hf⟩, ho⟩ := hinv
    have hm := Move.of_step hstep
    exact ⟨⟨hl.step hf hm, hf.step hl hm⟩, ho.step hl hf hcare hm⟩

/-- **Process ids are unique** and `fork` returns positive ones, in every run in which
`nextpid` does not wrap. -/
theorem careful_pids (P : Params) (s : State) (h : (kernel P).ReachableWhen CarefulFork s) :
    PidLaw s := by
  obtain ⟨⟨-, hf⟩, ho⟩ := careful_pidOrder h
  exact ho.law hf

/-- Init is dispatched and calls `fork`, which gets as far as `copyuvm`. -/
def startThenFork : List Act :=
  List.replicate 6 (.sched 0) ++ [.go 0 true, .call 0 .fork, .go 0 true, .go 0 true, .go 0 true]

/-- `startThenFork` is a careful run. -/
theorem careful_pids_startThenFork :
    ∃ s, (kernel ⟨1⟩).ReachableWhen CarefulFork s ∧ (s.kpc slot0).forks ≠ none ∧ PidLaw s := by
  obtain ⟨s, hs, htest⟩ := System.exists_reachableWhen_of_run
    (M := kernel ⟨1⟩) CarefulFork (l := startThenFork) (s := start)
    (p := fun s => decide ((s.kpc slot0).forks ≠ none)) rfl (by decide +kernel)
  simp only [decide_eq_true_eq] at htest
  exact ⟨s, hs, htest, careful_pids ⟨1⟩ s hs⟩

/-! ## A run that goes round -/

/-- Init runs on CPU 0, and there is no other process. -/
structure Alone (s : State) : Prop where
  cpu : s.cpu 0 = .run slot0
  kpc : s.kpc slot0 = .user
  lock : s.lock = none
  timer : s.timer = .idle
  live : (s.procs slot0).state = .running
  pid : (s.procs slot0).pid = 1
  others : ∀ i, i ≠ slot0 → (s.procs i).state = .unused

/-- Init has called `fork`, and `allocproc` has taken the slot `np`. -/
def State.forked (s : State) (np : Slot) : State :=
  { s with procs := s.procs.embryo np s.nextpid, nextpid := s.nextpid + 1 }.setPc slot0
    (.forkStack np)

/-- `kalloc` has found no page for the stack. -/
def State.unforked (s : State) (np : Slot) : State :=
  ((s.forked np).setProc np fun q => { q with state := .unused }).setPc slot0 .user

section Alone

variable {s : State}

/-- `allocproc` takes another slot for the child. -/
theorem Alone.fork (h : Alone s) :
    ∃ np, np ≠ slot0 ∧ (kernel ⟨1⟩).step s (.call 0 .fork) = some (s.forked np) := by
  have hfree : s.cpuFree 0 := .inr h.timer
  cases hfind : s.procs.findUnused with
  | none =>
      have hslot := Table.find_none hfind ⟨1, by decide⟩
      rw [h.others _ (by decide)] at hslot
      cases hslot
  | some np =>
      have hunused := Table.find_some hfind
      simp only [beq_iff_eq] at hunused
      refine ⟨np, ?_, ?_⟩
      · rintro rfl
        rw [h.live] at hunused
        cases hunused
      · have hlock : s.lock = none := h.lock
        simp only [kernel, step, State.call, h.cpu, h.kpc, hlock, hfree, hfind, and_self, if_true,
          Nat.zero_lt_one, State.forked]

theorem Alone.unforked (h : Alone s) {np : Slot} (hnp : np ≠ slot0) : Alone (s.unforked np) where
  cpu := h.cpu
  kpc := by simp only [State.unforked, State.setPc_kpc, Function.update_self]
  lock := h.lock
  timer := h.timer
  live := by
    simp only [State.unforked, State.forked, State.setPc_procs, State.setProc_procs, Table.embryo,
      Table.set_of_ne _ (Ne.symm hnp), h.live]
  pid := by
    simp only [State.unforked, State.forked, State.setPc_procs, State.setProc_procs, Table.embryo,
      Table.set_of_ne _ (Ne.symm hnp), h.pid]
  others i hi := by
    simp only [State.unforked, State.forked, State.setPc_procs, State.setProc_procs, Table.embryo]
    by_cases hin : i = np
    · rw [hin, Table.set_self]
    · rw [Table.set_of_ne _ hin, Table.set_of_ne _ hin]
      exact h.others i hi

/-- A `fork` that fails has used up a pid. -/
theorem Alone.failedFork (h : Alone s) (hs : (kernel ⟨1⟩).Reachable s) :
    ∃ s', (kernel ⟨1⟩).Reachable s' ∧ Alone s' ∧ s'.nextpid = s.nextpid + 1 := by
  obtain ⟨np, hnp, hfork⟩ := h.fork
  have hs₁ : (kernel ⟨1⟩).Reachable (s.forked np) := .step hs trivial hfork
  have hfree : (s.forked np).cpuFree 0 := .inr h.timer
  have hcpu : (s.forked np).cpu 0 = .run slot0 := h.cpu
  have hkpc : (s.forked np).kpc slot0 = .forkStack np := by
    simp only [State.forked, State.setPc_kpc, Function.update_self]
  have hfail : (kernel ⟨1⟩).step (s.forked np) (.go 0 false) = some (s.unforked np) := by
    simp only [kernel, step, State.go, hcpu, hkpc, hfree, and_self, if_true, Nat.zero_lt_one,
      Bool.false_eq_true, if_false, State.unforked]
  exact ⟨s.unforked np, .step hs₁ trivial hfail, h.unforked hnp, rfl⟩

/-- Any number of them. -/
theorem Alone.failedForks (n : Nat) :
    ∀ {s : State}, Alone s → (kernel ⟨1⟩).Reachable s →
      ∃ s', (kernel ⟨1⟩).Reachable s' ∧ Alone s' ∧ s'.nextpid = s.nextpid + BitVec.ofNat 32 n := by
  induction n with
  | zero =>
      intro s h hs
      exact ⟨s, hs, h, (BitVec.add_zero _).symm⟩
  | succ n ih =>
      intro s h hs
      obtain ⟨s₁, hs₁, h₁, hnext₁⟩ := h.failedFork hs
      obtain ⟨s', hs', h', hnext⟩ := ih h₁ hs₁
      refine ⟨s', hs', h', ?_⟩
      rw [hnext, hnext₁, BitVec.add_assoc, BitVec.ofNat_add, BitVec.add_comm (BitVec.ofNat 32 n)]
      rfl

end Alone

/-- Init runs, and then calls `fork` in vain until `nextpid` is what we want. -/
theorem exists_alone (v : Word) :
    ∃ s, (kernel ⟨1⟩).Reachable s ∧ Alone s ∧ s.nextpid = v := by
  obtain ⟨s, hs, htest⟩ := System.exists_reachable_of_run
    (M := kernel ⟨1⟩) (l := List.replicate 6 (.sched 0) ++ [.go 0 true]) (s := start)
    (p := fun s => decide (s.cpu 0 = .run slot0 ∧ s.kpc slot0 = .user ∧ s.lock = none ∧
      s.timer = .idle ∧ (s.procs slot0).state = .running ∧ (s.procs slot0).pid = 1 ∧
      (∀ i, i ≠ slot0 → (s.procs i).state = .unused) ∧ s.nextpid = 2)) rfl (by decide +kernel)
  simp only [decide_eq_true_eq] at htest
  obtain ⟨hcpu, hkpc, hlock, htimer, hlive, hpid, hothers, hnext⟩ := htest
  have h : Alone s := ⟨hcpu, hkpc, hlock, htimer, hlive, hpid, hothers⟩
  obtain ⟨s', hs', h', hnext'⟩ := h.failedForks (v - 2).toNat hs
  refine ⟨s', hs', h', ?_⟩
  rw [hnext', hnext, BitVec.ofNat_toNat, BitVec.setWidth_eq, BitVec.add_comm,
    BitVec.sub_add_cancel]

/-- When `nextpid` has wrapped, a child gets the pid of init, and before that `fork` comes to
return a negative pid. -/
theorem not_all_pids :
    (∃ s, (kernel ⟨1⟩).Reachable s ∧ ∃ i j, i ≠ j ∧ (s.procs i).state ≠ .unused ∧
      (s.procs j).state ≠ .unused ∧ (s.procs i).pid = (s.procs j).pid) ∧
    ∃ s, (kernel ⟨1⟩).Reachable s ∧ ∃ p np, (s.kpc p).forks = some np ∧
      (s.procs np).pid.toInt < 0 := by
  have hnext : ∀ v : Word, ∃ s np, (kernel ⟨1⟩).Reachable s ∧ np ≠ slot0 ∧
      (s.procs slot0).state = .running ∧ (s.procs slot0).pid = 1 ∧
      (s.procs np).state = .embryo ∧ (s.procs np).pid = v ∧
      (s.kpc slot0).forks = some np := by
    intro v
    obtain ⟨s, hs, h, hv⟩ := exists_alone v
    obtain ⟨np, hnp, hfork⟩ := h.fork
    refine ⟨s.forked np, np, .step hs trivial hfork, hnp, ?_, ?_, ?_, ?_, ?_⟩
    · simp only [State.forked, State.setPc_procs, Table.embryo,
        Table.set_of_ne _ (Ne.symm hnp), h.live]
    · simp only [State.forked, State.setPc_procs, Table.embryo,
        Table.set_of_ne _ (Ne.symm hnp), h.pid]
    · simp only [State.forked, State.setPc_procs, Table.embryo, Table.set_self]
    · simp only [State.forked, State.setPc_procs, Table.embryo, Table.set_self, hv]
    · simp only [State.forked, State.setPc_kpc, Function.update_self, KPc.forks]
  constructor
  · obtain ⟨s, np, hs, hnp, hlive, hpid, hembryo, hsame, -⟩ := hnext 1
    refine ⟨s, hs, np, slot0, hnp, ?_, ?_, by rw [hsame, hpid]⟩
    · rw [hembryo]
      decide
    · rw [hlive]
      decide
  · obtain ⟨s, np, hs, -, -, -, -, hneg, hforks⟩ := hnext (BitVec.ofNat 32 (2 ^ 31))
    refine ⟨s, hs, slot0, np, hforks, ?_⟩
    rw [hneg]
    decide

end OsWork.Ports.ProcTable

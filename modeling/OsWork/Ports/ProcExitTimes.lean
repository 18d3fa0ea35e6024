import OsWork.Ports.ProcTicks

/-!
# What `exit` reads and stores

`exit` computes `wait_time` from `ticks`, `ctime` and `rtime`, prints it, and only then
becomes a zombie; `increment_times` on another CPU can charge it another tick before that.
The record beside the state counts events: the ticks that have come since `allocproc` set
`ctime`, and the ticks that the stores of `increment_times` and of `switchuvm` have added to
`rtime`, before and after `exit` has read it.

## Main results

* `exitTimes` — the fields of an exiting process against what `exit` has read.
* `counted` — `ticks - ctime` and `rtime` against the events.
-/

namespace OsWork.Ports.ProcTable

open OsWork.Verified.Transition

/-! ## Events -/

/-- The slot whose `rtime` the step stores, and the value. -/
def State.stores (s : State) : Act → Option (Slot × Word)
  | .sched c =>
      match s.cpu c with
      | .uvmStore p v => some (p, v)
      | _ => none
  | .go c _ =>
      match s.cpu c with
      | .run p =>
          match s.kpc p with
          | .uvmStore v => some (p, v)
          | _ => none
      | _ => none
  | .timer =>
      match s.timer with
      | .rtimeStore i v => if h : i < NPROC then some (⟨i, h⟩, v + 1) else none
      | _ => none
  | _ => none

/-- The slot whose time fields `allocproc` sets. -/
def State.creates (s : State) : Act → Option Slot
  | .go c _ =>
      match s.cpu c with
      | .run p =>
          match s.kpc p with
          | .forkTimes np => some np
          | _ => none
      | _ => none
  | _ => none

/-- The position in `exit` of the process that takes the step. -/
def State.exitStep (s : State) : Act → Option (Slot × KPc)
  | .go c _ =>
      match s.cpu c with
      | .run p =>
          match s.kpc p with
          | .exitTime => some (p, .exitTime)
          | .exitWait => some (p, .exitWait)
          | .exitPrint => some (p, .exitPrint)
          | _ => none
      | _ => none
  | _ => none

/-- What has happened to the process of a slot since `allocproc` set its `ctime`: the
ticks that have come and the ticks that have been charged to its `rtime`; and what `exit`
has read and printed. -/
structure ExitRecord where
  age : Slot → Nat
  charged : Slot → Nat
  exitTicks : Slot → Word
  /-- `age` when `exit` read `ticks` -/
  exitAge : Slot → Nat
  /-- `charged` when `exit` read `rtime` -/
  exitCharged : Slot → Nat
  /-- the ticks charged since then -/
  late : Slot → Nat
  printed : Slot → Word

def ExitRecord.empty : ExitRecord where
  age := fun _ => 0
  charged := fun _ => 0
  exitTicks := fun _ => 0
  exitAge := fun _ => 0
  exitCharged := fun _ => 0
  late := fun _ => 0
  printed := fun _ => 0

/-- What the step adds to the `rtime` of the slot: one tick, or the ticks that have passed
in `switchuvm`, unless the field has changed since it was loaded. -/
def State.adds (s : State) (a : Act) (i : Slot) : Nat :=
  match s.stores a with
  | some (p, v) => if p = i then (v - (s.procs i).rtime).toNat else 0
  | none => 0

/-- The events of a step. -/
def ExitRecord.count (s : State) (a : Act) (g : ExitRecord) : ExitRecord :=
  { g with
    age := fun i =>
      if s.creates a = some i then 0 else if a = .tick then g.age i + 1 else g.age i
    charged := fun i => if s.creates a = some i then 0 else g.charged i + s.adds a i
    late := fun i => g.late i + s.adds a i }

/-- What a step of `exit` has read or printed. -/
def ExitRecord.read (s : State) (a : Act) (g : ExitRecord) : ExitRecord :=
  match s.exitStep a with
  | some (p, .exitTime) =>
      { g with exitTicks := Function.update g.exitTicks p s.ticks
               exitAge := Function.update g.exitAge p (g.age p) }
  | some (p, .exitWait) =>
      { g with exitCharged := Function.update g.exitCharged p (g.charged p)
               late := Function.update g.late p 0 }
  | some (p, .exitPrint) =>
      { g with printed := Function.update g.printed p (s.procs p).waitTime }
  | _ => g

/-- The bookkeeping of one step. -/
def ExitRecord.record (s : State) (a : Act) (g : ExitRecord) : ExitRecord :=
  (g.count s a).read s a

/-- The kernel with the bookkeeping. -/
def exitKernel (P : Params) : System (State × ExitRecord) Act :=
  (kernel P).withGhost (fun _ => ExitRecord.empty) fun s a g => g.record s a

section Record

variable {s : State} {a : Act} {g : ExitRecord} {p : Slot}

theorem record_age :
    (g.record s a).age p =
      if s.creates a = some p then 0 else if a = .tick then g.age p + 1 else g.age p := by
  unfold ExitRecord.record ExitRecord.read
  split <;> rfl

theorem record_charged :
    (g.record s a).charged p =
      if s.creates a = some p then 0 else g.charged p + s.adds a p := by
  unfold ExitRecord.record ExitRecord.read
  split <;> rfl

/-- The record of `exit` changes for the process that takes a step of `exit`. -/
theorem record_of_ne (h : ∀ k, s.exitStep a ≠ some (p, k)) :
    (g.record s a).exitTicks p = g.exitTicks p ∧ (g.record s a).exitAge p = g.exitAge p ∧
      (g.record s a).exitCharged p = g.exitCharged p ∧
      (g.record s a).late p = g.late p + s.adds a p ∧ (g.record s a).printed p = g.printed p := by
  unfold ExitRecord.record ExitRecord.read
  split
  · rename_i q hq
    have hne : p ≠ q := fun heq => h _ (by rw [heq]; exact hq)
    simp [hne, ExitRecord.count]
  · rename_i q hq
    have hne : p ≠ q := fun heq => h _ (by rw [heq]; exact hq)
    simp [hne, ExitRecord.count]
  · rename_i q hq
    have hne : p ≠ q := fun heq => h _ (by rw [heq]; exact hq)
    simp [hne, ExitRecord.count]
  · exact ⟨rfl, rfl, rfl, rfl, rfl⟩

end Record

/-- How far `exit` has come with a slot: 1 after the reading of `ticks`, 2 after
the computation of `wait_time`, 3 after the print. -/
def stage (s : State) (p : Slot) : Nat :=
  if (s.procs p).state = .zombie then 3
  else
    match s.kpc p with
    | .exitWait => 1
    | .exitPrint => 2
    | .exitZombie => 3
    | _ => 0

/-- The fields of an exiting process against what `exit` has read. -/
structure ExitTimes (s : State) (g : ExitRecord) : Prop where
  etime : ∀ p, 1 ≤ stage s p → (s.procs p).etime = g.exitTicks p
  age : ∀ p, 1 ≤ stage s p →
    g.exitTicks p - (s.procs p).ctime = BitVec.ofNat 32 (g.exitAge p)
  waitTime : ∀ p, 2 ≤ stage s p → (s.procs p).waitTime =
    BitVec.ofNat 32 (g.exitAge p) - BitVec.ofNat 32 (g.exitCharged p)
  late : ∀ p, 2 ≤ stage s p → g.charged p = g.exitCharged p + g.late p
  printed : ∀ p, 3 ≤ stage s p → g.printed p = (s.procs p).waitTime

/-- The clock and `rtime` against the events. -/
structure Counted (s : State) (g : ExitRecord) : Prop where
  age : ∀ p, s.ticks - (s.procs p).ctime = BitVec.ofNat 32 (g.age p)
  charged : ∀ p, (s.procs p).rtime = BitVec.ofNat 32 (g.charged p)

theorem stage_start (p : Slot) : stage start p = 0 := by
  by_cases h : p = slot0
  · subst h
    simp [stage, start]
  · simp [stage, start, h, Proc.zero]

theorem exitTimes_start : ExitTimes start ExitRecord.empty where
  etime p h := by simp [stage_start] at h
  age p h := by simp [stage_start] at h
  waitTime p h := by simp [stage_start] at h
  late p h := by simp [stage_start] at h
  printed p h := by simp [stage_start] at h

theorem counted_start : Counted start ExitRecord.empty := by
  have hzero : ∀ p, (start.procs p).ctime = 0 ∧ (start.procs p).rtime = 0 := by
    intro p
    by_cases h : p = slot0
    · subst h
      simp [start, Proc.zero]
    · simp [start, h, Proc.zero]
  exact
    { age := fun p => by rw [(hzero p).1]; exact BitVec.sub_self _
      charged := fun p => (hzero p).2 }

section Steps

variable {s s' : State} {g g' : ExitRecord} {a : Act} {c : Cpu} {p : Slot} {k : KPc} {ok : Bool}

/-! ## The clock -/

/-- What a step does to `ticks`, `ctime` and `rtime`. -/
structure Timed (s : State) (a : Act) (s' : State) : Prop where
  ticks : s'.ticks = if a = .tick then s.ticks + 1 else s.ticks
  ctime : ∀ i, (s'.procs i).ctime =
    if s.creates a = some i then s.ticks else (s.procs i).ctime
  rtime : ∀ i, (s'.procs i).rtime =
    if s.creates a = some i then 0
    else (s.procs i).rtime + BitVec.ofNat 32 (s.adds a i)

theorem adds_of_none (h : s.stores a = none) (i : Slot) : s.adds a i = 0 := by
  unfold State.adds
  rw [h]

/-- A step that neither creates a process nor stores `rtime`. -/
theorem Timed.still (hstores : s.stores a = none) (hcreates : s.creates a = none)
    (htick : a ≠ .tick) (hticks : s'.ticks = s.ticks)
    (hsame : ∀ i, (s'.procs i).ctime = (s.procs i).ctime ∧
      (s'.procs i).rtime = (s.procs i).rtime) : Timed s a s' where
  ticks := by rw [hticks, if_neg htick]
  ctime i := by
    rw [hcreates, if_neg (by simp)]
    exact (hsame i).1
  rtime i := by
    rw [hcreates, if_neg (by simp), adds_of_none hstores, (hsame i).2]
    exact (BitVec.add_zero _).symm

theorem Timed.quiet (hstores : s.stores a = none) (hcreates : s.creates a = none)
    (htick : a ≠ .tick) (hticks : s'.ticks = s.ticks)
    (hsame : ∀ i, SameCounters (s.procs i) (s'.procs i)) : Timed s a s' :=
  .still hstores hcreates htick hticks fun i => ⟨(hsame i).2.2, (hsame i).1⟩

/-- A step that stores `rtime` in slot `p`. -/
theorem Timed.store {v : Word} (hstores : s.stores a = some (p, v)) (hcreates : s.creates a = none)
    (htick : a ≠ .tick) (hticks : s'.ticks = s.ticks)
    (hprocs : s'.procs = s.procs.set p fun q => { q with rtime := v }) : Timed s a s' where
  ticks := by rw [hticks, if_neg htick]
  ctime i := by
    rw [hcreates, if_neg (by simp), hprocs]
    by_cases hi : i = p
    · subst hi
      rw [Table.set_self]
    · rw [Table.set_of_ne _ hi]
  rtime i := by
    rw [hcreates, if_neg (by simp), hprocs]
    unfold State.adds
    rw [hstores]
    by_cases hi : i = p
    · subst hi
      rw [Table.set_self]
      simp only [if_true, BitVec.ofNat_toNat, BitVec.setWidth_eq]
      rw [BitVec.add_comm, BitVec.sub_add_cancel]
    · rw [Table.set_of_ne _ hi]
      simp only [Ne.symm hi, if_false]
      exact (BitVec.add_zero _).symm

theorem stores_go (hc : s.cpu c = .run p) (hk : ∀ v, s.kpc p ≠ .uvmStore v) :
    s.stores (.go c ok) = none := by
  simp only [State.stores, hc]

theorem creates_go (hc : s.cpu c = .run p) (hk : ∀ np, s.kpc p ≠ .forkTimes np) :
    s.creates (.go c ok) = none := by
  simp only [State.creates, hc]

/-- A step of a process that does neither. -/
theorem Timed.go (hc : s.cpu c = .run p)
    (hk : (∀ v, s.kpc p ≠ .uvmStore v) ∧ ∀ np, s.kpc p ≠ .forkTimes np)
    (hticks : s'.ticks = s.ticks) (hsame : ∀ i, SameCounters (s.procs i) (s'.procs i)) :
    Timed s (.go c ok) s' :=
  .quiet (stores_go hc hk.1) (creates_go hc hk.2) (by simp) hticks hsame

theorem Move.timed (hm : Move s a s') : Timed s a s' := by
  have hrefl := fun i => SameCounters.refl (s.procs i)
  have hwrite : ∀ {i : Slot} {f : Proc → Proc}, SameCounters (s.procs i) (f (s.procs i)) →
      ∀ j, SameCounters (s.procs j) (s.procs.set i f j) := fun hf => sameCounters_set hf
  have hmove : ∀ {i : Slot} {ch : Option Chan} {st : ProcState} (j : Slot),
      SameCounters (s.procs j) ((s.procs.set i fun q => { q with chan := ch }).set i
        (fun q => { q with state := st }) j) := fun j =>
    (sameCounters_set ⟨rfl, rfl, rfl⟩ j).trans (sameCounters_set ⟨rfl, rfl, rfl⟩ j)
  cases hm
  case tick htimer =>
    refine { ticks := rfl, ctime := fun i => ?_, rtime := fun i => ?_ }
    · simp [State.creates]
    · simp [State.creates, State.adds, State.stores]
  case forkTimes c p np ok hcpu hk =>
    have hcreates : s.creates (.go c ok) = some np := by simp [State.creates, hcpu, hk]
    have hstores : s.stores (.go c ok) = none := stores_go hcpu (by simp [hk])
    refine { ticks := rfl, ctime := fun i => ?_, rtime := fun i => ?_ }
    · rw [hcreates]
      by_cases hi : i = np
      · subst hi
        simp [Table.initTimes]
      · simp [Table.initTimes, hi, Ne.symm hi]
    · rw [hcreates, adds_of_none hstores]
      by_cases hi : i = np
      · subst hi
        simp [Table.initTimes]
      · simp [Table.initTimes, hi, Ne.symm hi]
  case schedUvmStore c p v hcpu =>
    exact .store (p := p) (v := v) (by simp [State.stores, hcpu]) rfl (by simp) rfl rfl
  case uvmStore c p ok v hcpu hk =>
    exact .store (p := p) (v := v) (by simp [State.stores, hcpu, hk])
      (creates_go hcpu (by simp [hk])) (by simp) rfl rfl
  case rtimeStore i v htimer =>
    exact .store (p := i) (v := v + 1) (by simp [State.stores, htimer]) rfl (by simp) rfl rfl
  -- nothing is stored in `rtime`
  case queueStore i v htimer =>
    refine .still (by simp [State.stores, htimer]) rfl (by simp) rfl fun j => ?_
    by_cases hj : j = i
    · subst hj
      simp
    · simp [hj]
  case wakeSlot c p i ok ch k hcpu hk =>
    refine .go hcpu ?_ rfl (sameCounters_wakeSlot _ _ i)
    cases hk <;> rename_i hk <;> simp [hk]
  case schedWake c n i hcpu =>
    exact .quiet (by simp [State.stores, hcpu]) rfl (by simp) rfl (sameCounters_wakeSlot _ _ i)
  case resume c p ok k hcpu hk =>
    refine .go hcpu ⟨fun v hv => ?_, fun np hnp => ?_⟩ rfl hrefl
    · rw [hv] at hk
      cases hk
    · rw [hnp] at hk
      cases hk
  case forkFail c p np hcpu hk =>
    refine .go hcpu ?_ rfl (hwrite ⟨rfl, rfl, rfl⟩)
    rcases hk with hk | hk <;> simp [hk]
  case kill c pid _ => exact .quiet rfl rfl (by simp) rfl (sameCounters_kill _ _)
  case wakeupTicks htimer _ =>
    exact .quiet (by simp [State.stores, htimer]) rfl (by simp) rfl (sameCounters_wakeup1 _ _)
  case sleep c p n hcpu hk _ => exact .quiet rfl rfl (by simp) rfl hmove
  case waitSleep c p ok x hcpu hk _ _ _ => exact .go hcpu (by simp [hk]) rfl hmove
  case wait c p y x hcpu hk _ _ => exact .quiet rfl rfl (by simp) rfl hrefl
  all_goals
    first
      | exact .quiet rfl rfl (by simp) rfl hrefl
      | exact .quiet rfl rfl (by simp) rfl (hwrite ⟨rfl, rfl, rfl⟩)
      | exact .quiet (by simp [State.stores, *]) rfl (by simp) rfl hrefl
      | exact .quiet (by simp [State.stores, *]) rfl (by simp) rfl (hwrite ⟨rfl, rfl, rfl⟩)
      | exact .go (by assumption) (by simp [*]) rfl hrefl
      | exact .go (by assumption) (by simp [*]) rfl (hwrite ⟨rfl, rfl, rfl⟩)

theorem ne_tick_of_creates (h : s.creates a = some p) : a ≠ .tick := by
  rintro rfl
  cases h

/-- Every step keeps the count. -/
theorem Counted.step (h : Counted s g) (hm : Move s a s') : Counted s' (g.record s a) := by
  have ht := hm.timed
  refine { age := fun i => ?_, charged := fun i => ?_ }
  · rw [record_age, ht.ctime i, ht.ticks]
    by_cases hi : s.creates a = some i
    · rw [if_pos hi, if_pos hi, if_neg (ne_tick_of_creates hi)]
      exact BitVec.sub_self _
    · rw [if_neg hi, if_neg hi]
      by_cases htick : a = .tick
      · rw [if_pos htick, if_pos htick, BitVec.ofNat_add, ← h.age i]
        bv_omega
      · rw [if_neg htick, if_neg htick]
        exact h.age i
  · rw [record_charged, ht.rtime i]
    by_cases hi : s.creates a = some i
    · rw [if_pos hi, if_pos hi]
      rfl
    · rw [if_neg hi, if_neg hi, BitVec.ofNat_add, h.charged i]

/-! ## Slots that `exit` is not working on -/

/-- The time fields `exit` writes or `waitx` reads, apart from `rtime`. -/
def SameTimes (a b : Proc) : Prop :=
  b.etime = a.etime ∧ b.ctime = a.ctime ∧ b.waitTime = a.waitTime

theorem SameTimes.refl (a : Proc) : SameTimes a a := ⟨rfl, rfl, rfl⟩

/-- The scans of the table write these fields only. -/
theorem SameTimes.of_rest {a b : Proc} {st : ProcState} {q : Option Slot} {b' : Bool}
    (h : b = { a with parent := q, state := st, killed := b' }) : SameTimes a b := by
  rw [h]
  exact ⟨rfl, rfl, rfl⟩

/-- A slot that `exit` is not working on, or that stays where it is. -/
def Settled (s s' : State) (i : Slot) : Prop :=
  stage s' i = 0 ∨ stage s' i = stage s i ∧ SameTimes (s.procs i) (s'.procs i)

/-- A slot whose state and position the step leaves alone. -/
theorem settled_of_same {i : Slot} (hstate : (s'.procs i).state = .zombie ↔
    (s.procs i).state = .zombie) (hkpc : s'.kpc i = s.kpc i)
    (htimes : SameTimes (s.procs i) (s'.procs i)) : Settled s s' i := by
  refine .inr ⟨?_, htimes⟩
  unfold stage
  simp only [hstate, hkpc]

theorem zombie_of_wakes {a b : ProcState} (h : a.Wakes b) : b = .zombie ↔ a = .zombie := by
  rcases h with rfl | ⟨rfl, rfl⟩ <;> simp

/-- The positions of `exit` between the reading of `ticks` and `sched`. -/
def KPc.timing : KPc → Bool
  | .exitWait | .exitPrint | .exitZombie => true
  | _ => false

/-- The stage of a slot that is no zombie and not in `exit`. -/
theorem stage_eq_zero (hstate : (s.procs p).state ≠ .zombie) (hk : (s.kpc p).timing = false) :
    stage s p = 0 := by
  unfold stage
  rw [if_neg hstate]
  cases hkp : s.kpc p <;> simp [hkp, KPc.timing] at hk ⊢

/-- One access of process `p`, which stands outside the stages of `exit`
afterwards. -/
theorem settled_pc (hkpc : s'.kpc = Function.update s.kpc p k)
    (hstate : ∀ i, (s'.procs i).state = .zombie ↔ (s.procs i).state = .zombie)
    (hrun : (s.procs p).state ≠ .zombie) (hk : k.timing = false)
    (htimes : ∀ i, i ≠ p → stage s' i = 0 ∨ SameTimes (s.procs i) (s'.procs i)) (i : Slot) :
    Settled s s' i := by
  by_cases hip : i = p
  · subst hip
    left
    refine stage_eq_zero (fun hz => hrun ((hstate i).1 hz)) ?_
    rw [hkpc, Function.update_self]
    exact hk
  · rcases htimes i hip with h0 | hsame
    · exact .inl h0
    · refine settled_of_same (hstate i) ?_ hsame
      rw [hkpc, Function.update_of_ne hip]

/-- A step of the scheduler or of the timer, or a wakeup. -/
theorem settled_kpc (hkpc : s'.kpc = s.kpc)
    (hstate : ∀ i, (s'.procs i).state = .zombie ↔ (s.procs i).state = .zombie)
    (htimes : ∀ i, SameTimes (s.procs i) (s'.procs i)) (i : Slot) : Settled s s' i :=
  settled_of_same (hstate i) (by rw [hkpc]) (htimes i)

/-- A running process is no zombie. -/
theorem Locking.not_zombie (hl : Locking s) (hc : s.cpu c = .run p) :
    (s.procs p).state ≠ .zombie := by
  rw [hl.running c p hc]
  simp

theorem stage_update {i : Slot} (hkpc : s'.kpc = Function.update s.kpc p k) (hi : i ≠ p)
    (hstate : (s'.procs i).state = (s.procs i).state) : stage s' i = stage s i := by
  unfold stage
  rw [hkpc, Function.update_of_ne hi, hstate]

/-- A write to other fields of one slot. -/
theorem sameTimes_set {t : Table} {i : Slot} {f : Proc → Proc}
    (hf : SameTimes (t i) (f (t i))) (j : Slot) : SameTimes (t j) (t.set i f j) := by
  by_cases hj : j = i
  · subst hj
    rw [Table.set_self]
    exact hf
  · rw [Table.set_of_ne t hj]
    exact .refl _

/-- A write to one slot that makes no zombie and is not to one. -/
theorem zombie_set {t : Table} {i : Slot} {f : Proc → Proc}
    (hf : (f (t i)).state = .zombie ↔ (t i).state = .zombie) (j : Slot) :
    (t.set i f j).state = .zombie ↔ (t j).state = .zombie := by
  by_cases hj : j = i
  · subst hj
    rw [Table.set_self]
    exact hf
  · rw [Table.set_of_ne t hj]

/-- A slot without a kernel thread that is no zombie either. -/
theorem stage_of_dead {i : Slot} (hstate : (s.procs i).state ≠ .zombie)
    (hk : s.kpc i = .dead) : stage s i = 0 :=
  stage_eq_zero hstate (by rw [hk]; rfl)

theorem exitStep_eq_none (hc : s.cpu c = .run p) (h : s.exitStep (.go c ok) = none) :
    s.kpc p ≠ .exitTime ∧ s.kpc p ≠ .exitWait ∧ s.kpc p ≠ .exitPrint := by
  refine ⟨fun hk => ?_, fun hk => ?_, fun hk => ?_⟩ <;>
    simp [State.exitStep, hc, hk] at h

/-- A step other than those of `exit` neither enters a stage of `exit` nor writes a time
field of a slot in one. -/
theorem Move.settled (hl : Locking s) (hf : Forking s) (hm : Move s a s')
    (hexit : s.exitStep a = none) : ∀ i, Settled s s' i := by
  have hembryo : ∀ p np, (s.kpc p).forks = some np →
      (s.procs np).state = .embryo ∧ s.kpc np = .dead := by
    intro p np hk
    have hnp := hf.embryo p np hk
    exact ⟨hnp, hl.off np (by simp [ProcState.off, hnp])⟩
  have hsame := fun i => SameTimes.refl (s.procs i)
  have hwrite : ∀ {i : Slot} {f : Proc → Proc}, SameTimes (s.procs i) (f (s.procs i)) →
      ∀ j, SameTimes (s.procs j) (s.procs.set i f j) := fun hf => sameTimes_set hf
  cases hm
  case exitTime c p ok hcpu hk => exact absurd hk (exitStep_eq_none hcpu hexit).1
  case exitWait c p ok hcpu hk => exact absurd hk (exitStep_eq_none hcpu hexit).2.1
  case exitPrint c p ok hcpu hk => exact absurd hk (exitStep_eq_none hcpu hexit).2.2
  case exitZombie c p ok hcpu hk =>
    intro i
    by_cases hip : i = p
    · subst hip
      refine .inr ⟨?_, hwrite ⟨rfl, rfl, rfl⟩ i⟩
      simp [stage, hl.not_zombie hcpu, hk]
    · exact settled_of_same (by simp [hip]) (by simp [hip]) (hwrite ⟨rfl, rfl, rfl⟩ i)
  -- the scheduler
  case dispatch c p hcpu =>
    have hp := hl.chosen c p (by rw [hcpu]; rfl)
    exact settled_kpc rfl (zombie_set (by simp [hp])) (hwrite ⟨rfl, rfl, rfl⟩)
  case schedWake c n i hcpu =>
    exact settled_kpc rfl (fun j => zombie_of_wakes (s.procs.wakeSlot_wakes _ i j))
      fun j => .of_rest (s.procs.wakeSlot_rest _ i j)
  -- calls
  case fork c p np hcpu hk hlock hnp =>
    have hunused := Table.find_some hnp
    simp only [beq_iff_eq] at hunused
    exact settled_pc rfl (zombie_set (by simp [hunused])) (hl.not_zombie hcpu) rfl
      fun i _ => .inr (hwrite ⟨rfl, rfl, rfl⟩ i)
  case kill c pid _ =>
    exact settled_kpc rfl (fun i => zombie_of_wakes (s.procs.kill_wakes pid i))
      fun i => .of_rest (s.procs.kill_rest pid i)
  case wakeupTicks htimer _ =>
    exact settled_kpc rfl (fun i => zombie_of_wakes (s.procs.wakeup1_wakes _ i))
      fun i => .of_rest (s.procs.wakeup1_apply _ i)
  case sleep c p n hcpu hk _ =>
    refine settled_pc (k := .slept) (p := p) rfl (fun i => ?_) (hl.not_zombie hcpu) rfl
      fun i hi => .inr ?_
    · by_cases hip : i = p
      · subst hip
        simp [hl.not_zombie hcpu]
      · simp [hip]
    · simp [hi, SameTimes]
  case yield c p hcpu hk _ =>
    refine settled_pc (k := .yielded (s.kpc p)) (p := p) rfl (fun i => ?_)
      (hl.not_zombie hcpu) rfl fun i hi => .inr ?_
    · by_cases hip : i = p
      · subst hip
        simp [hl.not_zombie hcpu]
      · simp [hip]
    · simp [hi, SameTimes]
  -- slots `fork` is filling in
  case forkTimes c p np ok hcpu hk =>
    obtain ⟨hnp, hdead⟩ := hembryo p np (by rw [hk]; rfl)
    refine settled_pc rfl (zombie_set Iff.rfl) (hl.not_zombie hcpu) rfl fun i hi => ?_
    by_cases hin : i = np
    · subst hin
      exact .inl (stage_of_dead (by simp [Table.initTimes, hnp]) (by simp [hi, hdead]))
    · right
      simp only [State.setPc_procs, Table.initTimes, Table.set_of_ne _ hin]
      exact .refl _
  case forkWait c p np ok hcpu hk =>
    obtain ⟨hnp, hdead⟩ := hembryo p np (by rw [hk]; rfl)
    refine settled_pc rfl (zombie_set Iff.rfl) (hl.not_zombie hcpu) rfl fun i hi => ?_
    by_cases hin : i = np
    · subst hin
      exact .inl (stage_of_dead (by simp [hnp]) (by simp [hi, hdead]))
    · right
      simp only [State.setPc_procs, State.setProc_procs, Table.set_of_ne _ hin]
      exact .refl _
  case forkFail c p np hcpu hk =>
    have hkp : (s.kpc p).forks = some np := by rcases hk with hk | hk <;> rw [hk] <;> rfl
    obtain ⟨hnp, hdead⟩ := hembryo p np hkp
    exact settled_pc rfl (zombie_set (by simp [hnp])) (hl.not_zombie hcpu) rfl
      fun i _ => .inr (hwrite ⟨rfl, rfl, rfl⟩ i)
  case forkReady c p np ok hcpu hk hlock =>
    obtain ⟨hnp, hdead⟩ := hembryo p np (by rw [hk]; rfl)
    intro i
    by_cases hip : i = p
    · subst hip
      left
      have hne : i ≠ np := by
        intro heq
        rw [← heq, hl.running c i hcpu] at hnp
        cases hnp
      exact stage_eq_zero (by simp [hne, hl.not_zombie hcpu]) (by simp [KPc.timing])
    · by_cases hin : i = np
      · subst hin
        left
        exact stage_eq_zero (by simp) (by simp [hip, KPc.timing])
      · exact settled_of_same (by simp [hin]) (by simp [hip, hin]) (by simp [hin, SameTimes])
  case reap c p z ok x hcpu hk hz =>
    have hfound := Table.find_some hz
    simp only [Bool.and_eq_true, beq_iff_eq] at hfound
    have hdead := hl.off z (by simp [ProcState.off, hfound.2])
    have hne : z ≠ p := by
      intro heq
      have := hl.not_zombie hcpu
      rw [← heq] at this
      exact this hfound.2
    intro i
    by_cases hip : i = p
    · subst hip
      left
      exact stage_eq_zero (by simp [Table.reap, Ne.symm hne, hl.not_zombie hcpu])
        (by simp [KPc.timing])
    · by_cases hiz : i = z
      · subst hiz
        left
        exact stage_of_dead (by simp [Table.reap]) (by simp [hip, hdead])
      · exact settled_of_same (by simp [Table.reap, hiz]) (by simp [hip])
          (by simp [Table.reap, hiz, SameTimes])
  case waitSleep c p ok x hcpu hk _ _ _ =>
    refine settled_pc (k := .scanWake x) (p := p) rfl (fun i => ?_) (hl.not_zombie hcpu) rfl
      fun i hi => .inr ?_
    · by_cases hip : i = p
      · subst hip
        simp [hl.not_zombie hcpu]
      · simp [hip]
    · simp [hi, SameTimes]
  case resume c p ok k hcpu hk =>
    have hnew : k.timing = false := by
      have hout := hl.resumes p k hk
      cases k <;> simp [KPc.locked, KPc.timing] at hout ⊢
    exact settled_pc rfl (fun _ => Iff.rfl) (hl.not_zombie hcpu) hnew fun i _ => .inr (hsame i)
  case wakeSlot c p i ok ch k hcpu hk =>
    have hnew : k.timing = false := by cases hk <;> rfl
    exact settled_pc rfl (fun j => zombie_of_wakes (s.procs.wakeSlot_wakes _ i j))
      (hl.not_zombie hcpu) hnew fun j _ => .inr (.of_rest (s.procs.wakeSlot_rest _ i j))
  case exitChild c p i ok k hcpu hk _ hnext =>
    have hnew : k.timing = false := by
      rw [hnext]
      split <;> rfl
    exact settled_pc rfl (zombie_set Iff.rfl) (hl.not_zombie hcpu) hnew
      fun j _ => .inr (hwrite ⟨rfl, rfl, rfl⟩ j)
  -- the remaining steps write no state and none of the time fields
  all_goals
    first
      | exact settled_kpc rfl (fun _ => Iff.rfl) hsame
      | exact settled_kpc rfl (zombie_set Iff.rfl) (hwrite ⟨rfl, rfl, rfl⟩)
      | exact settled_pc rfl (fun _ => Iff.rfl) (hl.not_zombie (by assumption)) rfl
          fun i _ => .inr (hsame i)
      | exact settled_pc rfl (zombie_set Iff.rfl) (hl.not_zombie (by assumption)) rfl
          fun i _ => .inr (hwrite ⟨rfl, rfl, rfl⟩ i)

/-! ## The steps of `exit` -/

/-- The three steps of `exit` that read and print. -/
theorem exit_cases {P : Params} (hs : step P s a = some s') (h : s.exitStep a = some (p, k)) :
    (∃ c, s.cpu c = .run p) ∧ s.kpc p = k ∧
      (k = .exitTime ∧
          s' = (s.setProc p fun q => { q with etime := s.ticks }).setPc p .exitWait ∨
        k = .exitWait ∧
          s' = (s.setProc p fun q =>
            { q with waitTime := q.etime - q.ctime - q.rtime }).setPc p .exitPrint ∨
        k = .exitPrint ∧ s' = s.setPc p .exitZombie) := by
  unfold State.exitStep at h
  split at h
  · rename_i c ok
    split at h
    · rename_i q hcpu
      split at h <;> simp only [Option.some.injEq, Prod.mk.injEq, reduceCtorEq] at h
      all_goals
        rename_i hk
        obtain ⟨rfl, rfl⟩ := h
        simp only [step, hcpu, State.go, hk] at hs
        split at hs <;> cases hs
        refine ⟨⟨c, hcpu⟩, hk, ?_⟩
      · exact .inl ⟨rfl, rfl⟩
      · exact .inr (.inl ⟨rfl, rfl⟩)
      · exact .inr (.inr ⟨rfl, rfl⟩)
    · cases h
  · cases h

/-- A step of `exit` by process `p` leaves the other slots alone. -/
theorem exit_frame {P : Params} (hs : step P s a = some s') (h : s.exitStep a = some (p, k))
    {i : Slot} (hi : i ≠ p) : stage s' i = stage s i ∧ s'.procs i = s.procs i := by
  obtain ⟨-, -, hcase⟩ := exit_cases hs h
  have hstage : ∀ {t : State} {k' : KPc}, t.kpc = Function.update s.kpc p k' →
      t.procs i = s.procs i → stage t i = stage s i := fun hkpc hprocs =>
    stage_update hkpc hi (by rw [hprocs])
  rcases hcase with ⟨-, rfl⟩ | ⟨-, rfl⟩ | ⟨-, rfl⟩
  · exact ⟨hstage rfl (by simp [hi]), by simp [hi]⟩
  · exact ⟨hstage rfl (by simp [hi]), by simp [hi]⟩
  · exact ⟨hstage rfl rfl, rfl⟩

/-- Nothing is stored in `rtime`, and no process is created, in a step of `exit`. -/
theorem exit_quiet (h : s.exitStep a = some (p, k)) :
    s.creates a = none ∧ ∀ i, s.adds a i = 0 := by
  unfold State.exitStep at h
  split at h
  · split at h
    · rename_i q hcpu
      split at h <;> simp only [Option.some.injEq, Prod.mk.injEq, reduceCtorEq] at h
      all_goals
        rename_i hk
        exact ⟨creates_go hcpu (by simp [hk]),
          adds_of_none (stores_go hcpu (by simp [hk]))⟩
    · cases h
  · cases h

/-- A slot whose time fields are about to be set is not in `exit`. -/
theorem stage_of_creates (hl : Locking s) (hf : Forking s) (h : s.creates a = some p) :
    stage s p = 0 := by
  unfold State.creates at h
  split at h
  · split at h
    · rename_i q hcpu
      split at h <;> simp only [Option.some.injEq, reduceCtorEq] at h
      rename_i np hk
      subst h
      have hnp := hf.embryo q np (by rw [hk]; rfl)
      exact stage_of_dead (by rw [hnp]; simp) (hl.off np (by simp [ProcState.off, hnp]))
    · cases h
  · cases h

/-- A step other than those of `exit`. -/
theorem ExitTimes.ofSettled (hl : Locking s) (hf : Forking s) (h : ExitTimes s g)
    (hexit : s.exitStep a = none) (hsame : ∀ i, Settled s s' i) :
    ExitTimes s' (g.record s a) := by
  have hrec := fun p => record_of_ne (g := g) (p := p) (fun k hk => by
    rw [hexit] at hk
    cases hk)
  have hstage : ∀ i n, n + 1 ≤ stage s' i → n + 1 ≤ stage s i ∧
      SameTimes (s.procs i) (s'.procs i) := by
    intro i n hi
    rcases hsame i with h0 | ⟨hst, htimes⟩
    · omega
    · exact ⟨by omega, htimes⟩
  refine { etime := fun i hi => ?_, age := fun i hi => ?_, waitTime := fun i hi => ?_,
           late := fun i hi => ?_, printed := fun i hi => ?_ }
  · obtain ⟨hi, he, -⟩ := hstage i 0 hi
    rw [he, (hrec i).1]
    exact h.etime i hi
  · obtain ⟨hi, -, hc, -⟩ := hstage i 0 hi
    rw [hc, (hrec i).1, (hrec i).2.1]
    exact h.age i hi
  · obtain ⟨hi, -, -, hw⟩ := hstage i 1 hi
    rw [hw, (hrec i).2.1, (hrec i).2.2.1]
    exact h.waitTime i hi
  · obtain ⟨hi, -⟩ := hstage i 1 hi
    have hne : s.creates a ≠ some i := by
      intro hcr
      rw [stage_of_creates hl hf hcr] at hi
      cases hi
    rw [record_charged, if_neg hne, (hrec i).2.2.1, (hrec i).2.2.2.1, h.late i hi,
      Nat.add_assoc]
  · obtain ⟨hi, -, -, hw⟩ := hstage i 2 hi
    rw [hw, (hrec i).2.2.2.2]
    exact h.printed i hi

/-- A step of `exit` by process `p` leaves the record of the others alone. -/
theorem record_exit_of_ne (hx : s.exitStep a = some (p, k)) {i : Slot} (hi : i ≠ p) :
    (g.record s a).exitTicks i = g.exitTicks i ∧ (g.record s a).exitAge i = g.exitAge i ∧
      (g.record s a).exitCharged i = g.exitCharged i ∧ (g.record s a).late i = g.late i ∧
      (g.record s a).printed i = g.printed i := by
  have hrec := record_of_ne (g := g) (s := s) (a := a) (p := i) (fun k' hk' => by
    rw [hx] at hk'
    exact hi (Prod.mk.inj (Option.some.inj hk')).1.symm)
  rwa [(exit_quiet hx).2, Nat.add_zero] at hrec

theorem record_exit_charged (hx : s.exitStep a = some (p, k)) (i : Slot) :
    (g.record s a).charged i = g.charged i := by
  obtain ⟨hcreates, hadds⟩ := exit_quiet hx
  rw [record_charged, hcreates, if_neg (by simp), hadds, Nat.add_zero]

/-- The other slots stay as they are while `p` takes a step of `exit`; what is to be shown of
`p` is left. -/
theorem ExitTimes.ofExit (h : ExitTimes s g) (hx : s.exitStep a = some (p, k)) {k' : KPc}
    {f : Proc → Proc}
    (hetime : 1 ≤ stage ((s.setProc p f).setPc p k') p →
      (f (s.procs p)).etime = (g.record s a).exitTicks p)
    (hage : 1 ≤ stage ((s.setProc p f).setPc p k') p →
      (g.record s a).exitTicks p - (f (s.procs p)).ctime =
        BitVec.ofNat 32 ((g.record s a).exitAge p))
    (hwait : 2 ≤ stage ((s.setProc p f).setPc p k') p → (f (s.procs p)).waitTime =
      BitVec.ofNat 32 ((g.record s a).exitAge p) -
        BitVec.ofNat 32 ((g.record s a).exitCharged p))
    (hlate : 2 ≤ stage ((s.setProc p f).setPc p k') p →
      g.charged p = (g.record s a).exitCharged p + (g.record s a).late p)
    (hprinted : 3 ≤ stage ((s.setProc p f).setPc p k') p →
      (g.record s a).printed p = (f (s.procs p)).waitTime) :
    ExitTimes ((s.setProc p f).setPc p k') (g.record s a) := by
  have hstage : ∀ i, i ≠ p → stage ((s.setProc p f).setPc p k') i = stage s i := fun i hi =>
    stage_update rfl hi (by simp [hi])
  have hprocs : ∀ i, i ≠ p → ((s.setProc p f).setPc p k').procs i = s.procs i := fun i hi =>
    Table.set_of_ne _ hi _
  have hself : ((s.setProc p f).setPc p k').procs p = f (s.procs p) := Table.set_self _ _ _
  refine { etime := fun i hi => ?_, age := fun i hi => ?_, waitTime := fun i hi => ?_,
           late := fun i hi => ?_, printed := fun i hi => ?_ }
  · by_cases hip : i = p
    · rw [hip] at hi ⊢
      rw [hself]
      exact hetime hi
    · rw [hstage i hip] at hi
      rw [hprocs i hip, (record_exit_of_ne hx hip).1]
      exact h.etime i hi
  · by_cases hip : i = p
    · rw [hip] at hi ⊢
      rw [hself]
      exact hage hi
    · rw [hstage i hip] at hi
      rw [hprocs i hip, (record_exit_of_ne hx hip).1, (record_exit_of_ne hx hip).2.1]
      exact h.age i hi
  · by_cases hip : i = p
    · rw [hip] at hi ⊢
      rw [hself]
      exact hwait hi
    · rw [hstage i hip] at hi
      rw [hprocs i hip, (record_exit_of_ne hx hip).2.1, (record_exit_of_ne hx hip).2.2.1]
      exact h.waitTime i hi
  · rw [record_exit_charged hx]
    by_cases hip : i = p
    · rw [hip] at hi ⊢
      exact hlate hi
    · rw [hstage i hip] at hi
      rw [(record_exit_of_ne hx hip).2.2.1, (record_exit_of_ne hx hip).2.2.2.1]
      exact h.late i hi
  · by_cases hip : i = p
    · rw [hip] at hi ⊢
      rw [hself]
      exact hprinted hi
    · rw [hstage i hip] at hi
      rw [hprocs i hip, (record_exit_of_ne hx hip).2.2.2.2]
      exact h.printed i hi

/-- Every step keeps the fields of an exiting process in agreement with what
`exit` has read. -/
theorem ExitTimes.step {P : Params} (hl : Locking s) (hf : Forking s) (hcount : Counted s g)
    (h : ExitTimes s g) (hs : step P s a = some s') : ExitTimes s' (g.record s a) := by
  cases hx : s.exitStep a with
  | none => exact h.ofSettled hl hf hx ((Move.of_step hs).settled hl hf hx)
  | some x =>
      obtain ⟨p, k⟩ := x
      obtain ⟨⟨c, hcpu⟩, hk, hcase⟩ := exit_cases hs hx
      have hnz := hl.not_zombie hcpu
      have hquiet := exit_quiet hx
      rcases hcase with ⟨rfl, rfl⟩ | ⟨rfl, rfl⟩ | ⟨rfl, rfl⟩
      · -- `curproc->etime = ticks`
        have hone : stage ((s.setProc p fun q => { q with etime := s.ticks }).setPc p
            .exitWait) p = 1 := by simp [stage, hnz]
        have hticks : (g.record s a).exitTicks p = s.ticks := by
          simp [ExitRecord.record, ExitRecord.read, hx]
        have hage : (g.record s a).exitAge p = g.age p := by
          have htick : a ≠ .tick := by
            rintro rfl
            cases hx
          simp [ExitRecord.record, ExitRecord.read, ExitRecord.count, hx, hquiet.1, htick]
        refine h.ofExit hx (fun _ => hticks.symm) (fun _ => ?_) (fun hi => ?_)
          (fun hi => ?_) fun hi => ?_
        · rw [hticks, hage]
          exact hcount.age p
        all_goals
          rw [hone] at hi
          omega
      · -- `curproc->wait_time = curproc->etime - curproc->ctime - curproc->rtime`
        have hbefore : stage s p = 1 := by simp [stage, hnz, hk]
        have htwo : stage ((s.setProc p fun q =>
            { q with waitTime := q.etime - q.ctime - q.rtime }).setPc p .exitPrint) p = 2 := by
          simp [stage, hnz]
        have hticks : (g.record s a).exitTicks p = g.exitTicks p := by
          simp [ExitRecord.record, ExitRecord.read, ExitRecord.count, hx]
        have hage : (g.record s a).exitAge p = g.exitAge p := by
          simp [ExitRecord.record, ExitRecord.read, ExitRecord.count, hx]
        have hcharged : (g.record s a).exitCharged p = g.charged p := by
          simp [ExitRecord.record, ExitRecord.read, ExitRecord.count, hx, hquiet.1, hquiet.2]
        have hlate : (g.record s a).late p = 0 := by
          simp [ExitRecord.record, ExitRecord.read, hx]
        have hetime := h.etime p (by omega)
        have hold := h.age p (by omega)
        refine h.ofExit hx (fun _ => ?_) (fun _ => ?_) (fun _ => ?_)
          (fun _ => ?_) fun hi => ?_
        · rw [hticks]
          exact hetime
        · rw [hticks, hage]
          exact hold
        · rw [hage, hcharged, ← hold, ← hcount.charged p, ← hetime]
        · rw [hcharged, hlate, Nat.add_zero]
        · rw [htwo] at hi
          omega
      · -- the print
        have hbefore : stage s p = 2 := by simp [stage, hnz, hk]
        have hprint : (g.record s a).printed p = (s.procs p).waitTime := by
          simp [ExitRecord.record, ExitRecord.read, hx]
        have hrest : (g.record s a).exitTicks p = g.exitTicks p ∧
            (g.record s a).exitAge p = g.exitAge p ∧
            (g.record s a).exitCharged p = g.exitCharged p ∧
            (g.record s a).late p = g.late p := by
          simp [ExitRecord.record, ExitRecord.read, ExitRecord.count, hx, hquiet.2]
        have hsame : s.setPc p .exitZombie = (s.setProc p id).setPc p .exitZombie := by
          simp [State.setProc, Table.set]
        rw [hsame]
        refine h.ofExit hx (fun _ => ?_) (fun _ => ?_) (fun _ => ?_)
          (fun _ => ?_) fun _ => hprint
        · rw [hrest.1]
          exact h.etime p (by omega)
        · rw [hrest.1, hrest.2.1]
          exact h.age p (by omega)
        · rw [hrest.2.1, hrest.2.2.1]
          exact h.waitTime p (by omega)
        · rw [hrest.2.2.1, hrest.2.2.2]
          exact h.late p (by omega)

end Steps

/-- The counts and the fields agree in every state reached. -/
theorem exitTimes {P : Params} {c : State × ExitRecord} (h : (exitKernel P).Reachable c) :
    (Locking c.1 ∧ Forking c.1) ∧ Counted c.1 c.2 ∧ ExitTimes c.1 c.2 := by
  refine System.ReachableWhen.invariant
    (P := fun c : State × ExitRecord =>
      (Locking c.1 ∧ Forking c.1) ∧ Counted c.1 c.2 ∧ ExitTimes c.1 c.2) ?_ ?_ h
  · intro c hc
    have hstart : c.1 = start := hc.1
    have hempty : c.2 = ExitRecord.empty := hc.2
    rw [hstart, hempty]
    exact ⟨⟨locking_start, forking_start⟩, counted_start, exitTimes_start⟩
  · intro c a c' hinv _ hstep
    obtain ⟨⟨hl, hf⟩, hcount, ht⟩ := hinv
    obtain ⟨hstep, hrecord⟩ := System.withGhost_step hstep
    have hm := Move.of_step hstep
    rw [hrecord]
    exact ⟨⟨hl.step hf hm, hf.step hl hm⟩, hcount.step hm, ht.step hl hf hcount hstep⟩

end OsWork.Ports.ProcTable

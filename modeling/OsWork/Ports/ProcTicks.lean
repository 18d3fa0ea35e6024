import OsWork.Ports.ProcLocking

/-!
# Tick accounting

A timer tick charges every RUNNING process one unit of `rtime` and every
RUNNABLE process one unit of `time_in_queues` (`increment_times`).  `switchuvm`
charges `rtime` a second time: it adds the ticks that have passed while it was
executing, which `increment_times` has charged already, to `rtime` or to
`time_in_queues`.

`CarefulTick` is the condition under which the counters are exact: no tick
arrives inside a `switchuvm`, no process changes between RUNNING, RUNNABLE and
the other states between the arrival of a tick and the visit of its slot, and
the tick counter has not reached `0x80000000`, which an `int` cannot hold.

## Main results

* `careful_ticks_exact` — in every run whose steps are careful the counters
  equal the ticks that arrived in the two states.
* `not_all_ticks_exact` — a tick inside the scheduler's `switchuvm` is charged
  twice.
-/

namespace OsWork.Ports.ProcTable

open OsWork.Verified.Transition

/-! ## The ticks that have arrived -/

/-- The ticks that arrived since the creation of the process of a slot, while
it was RUNNING and while it was RUNNABLE. -/
structure TickRecord where
  ran : Slot → Nat
  queued : Slot → Nat

def TickRecord.empty : TickRecord where
  ran := fun _ => 0
  queued := fun _ => 0

/-- The bookkeeping of one step; a process is created when `allocproc` sets its
`ctime`. -/
def TickRecord.record (s : State) (a : Act) (g : TickRecord) : TickRecord :=
  match a with
  | .tick =>
      { ran := fun i => g.ran i + (if (s.procs i).state = .running then 1 else 0)
        queued := fun i => g.queued i + (if (s.procs i).state = .runnable then 1 else 0) }
  | .go c _ =>
      match s.cpu c with
      | .run p =>
          match s.kpc p with
          | .forkTimes np =>
              { ran := Function.update g.ran np 0, queued := Function.update g.queued np 0 }
          | _ => g
      | _ => g
  | _ => g

/-- The kernel with the bookkeeping. -/
def tickKernel (P : Params) : System (State × TickRecord) Act :=
  (kernel P).withGhost (fun _ => TickRecord.empty) fun s a g => g.record s a

/-- The counters of a live process are exact. -/
def TicksExact (s : State) (g : TickRecord) (i : Slot) : Prop :=
  (s.procs i).rtime.toInt = g.ran i ∧ (s.procs i).timeInQueues.toInt = g.queued i ∧
    (s.procs i).rtime.toInt + (s.procs i).timeInQueues.toInt ≤
      (s.ticks.toNat : Int) - (s.procs i).ctime.toInt

instance (s : State) (g : TickRecord) (i : Slot) : Decidable (TicksExact s g i) :=
  inferInstanceAs (Decidable (_ ∧ _ ∧ _))

/-! ## The condition on a step -/

/-- The slot whose `switchuvm` the scheduler is executing. -/
def CpuPc.switching : CpuPc → Option Slot
  | .uvm p _ | .uvmLoad p _ | .uvmStore p _ => some p
  | _ => none

/-- The process is executing `switchuvm`, or was preempted or interrupted in it. -/
def KPc.switching : KPc → Bool
  | .uvm _ | .uvmLoad _ | .uvmStore _ => true
  | .yielded k | .wakes _ _ k => k.switching
  | _ => false

/-- Slot `p` is inside a `switchuvm`; the scheduler's runs with the lock held. -/
def InSwitchuvm (s : State) (p : Slot) : Prop :=
  (match s.lock with
    | some c => (s.cpu c).switching
    | none => none) = some p ∨ (s.kpc p).switching

instance (s : State) (p : Slot) : Decidable (InSwitchuvm s p) :=
  inferInstanceAs (Decidable (_ ∨ _))

/-- The slot `increment_times` is looking at. -/
def TimerPc.slot : TimerPc → Option Nat
  | .idle | .wakeup => none
  | .running i | .runnable i | .rtimeLoad i | .rtimeStore i _ | .queueLoad i
  | .queueStore i _ => some i

/-- The tick has not been charged to the slot yet. -/
def TimerPc.pending (t : TimerPc) (i : Slot) : Prop :=
  match t.slot with
  | some k => k ≤ i.val
  | none => False

instance (t : TimerPc) (i : Slot) : Decidable (t.pending i) := by
  unfold TimerPc.pending
  split <;> infer_instance

/-- What a tick charges a process in the state. -/
def ProcState.charge : ProcState → Option Bool
  | .running => some true
  | .runnable => some false
  | _ => none

/-- The condition on a step: ticks and the visits of `increment_times` stay
outside `switchuvm`, and a step taken while `increment_times` is under way does
not change what a slot that it has not passed yet is charged. -/
def CarefulTick (P : Params) (s : State) : Act → Prop
  | .tick => (∀ i, ¬ InSwitchuvm s i) ∧ s.ticks.toNat + 1 < 0x80000000
  | .timer => ∀ i : Slot, s.timer.slot = some i.val → ¬ InSwitchuvm s i
  | a => ∀ i, s.timer.pending i →
      (((step P s a).getD s).procs i).state.charge = (s.procs i).state.charge

instance (P : Params) (s : State) (a : Act) : Decidable (CarefulTick P s a) := by
  unfold CarefulTick
  split <;> infer_instance

/-! ## The invariant -/

/-- What the scheduler has read inside `switchuvm`. -/
def CpuPc.fresh (s : State) : CpuPc → Prop
  | .uvm _ t => t = s.ticks
  | .uvmLoad _ d => d = 0
  | .uvmStore p v => v = (s.procs p).rtime
  | _ => True

/-- What a process has read inside `switchuvm`. -/
def KPc.fresh (s : State) (p : Slot) : KPc → Prop
  | .uvm t => t = s.ticks
  | .uvmLoad d => d = 0
  | .uvmStore v => v = (s.procs p).rtime
  | .yielded k | .wakes _ _ k => k.fresh s p
  | _ => True

/-- What `increment_times` has found out about the slot it is looking at. -/
def TimerPc.found (s : State) : TimerPc → Prop
  | .runnable k => ∀ i : Slot, i.val = k → (s.procs i).state ≠ .running
  | .rtimeLoad k => ∀ i : Slot, i.val = k → (s.procs i).state = .running
  | .rtimeStore k v => ∀ i : Slot, i.val = k → (s.procs i).state = .running ∧
      v = (s.procs i).rtime
  | .queueLoad k => ∀ i : Slot, i.val = k → (s.procs i).state = .runnable
  | .queueStore k v => ∀ i : Slot, i.val = k → (s.procs i).state = .runnable ∧
      v = (s.procs i).timeInQueues
  | _ => True

/-- One for a slot in the state `st` that is still to be charged. -/
def due (s : State) (st : ProcState) (i : Slot) : Nat :=
  if s.timer.pending i ∧ (s.procs i).state = st then 1 else 0

/-- The counters, the ticks still to be charged, and what is being read. -/
structure Ticks (s : State) (g : TickRecord) : Prop where
  ran : ∀ i, g.ran i = (s.procs i).rtime.toNat + due s .running i
  queued : ∀ i, g.queued i = (s.procs i).timeInQueues.toNat + due s .runnable i
  total : ∀ i, g.ran i + g.queued i + (s.procs i).ctime.toNat ≤ s.ticks.toNat
  bound : s.ticks.toNat < 0x80000000
  cpus : ∀ c, (s.cpu c).fresh s
  kpcs : ∀ p, (s.kpc p).fresh s p
  timer : s.timer.found s

theorem ticks_start : Ticks start TickRecord.empty := by
  have hzero : ∀ i, (start.procs i).rtime = 0 ∧ (start.procs i).timeInQueues = 0 ∧
      (start.procs i).ctime = 0 := by
    intro i
    by_cases hi : i = slot0
    · subst hi
      simp [start, Proc.zero]
    · simp [start, hi, Proc.zero]
  have hdue : ∀ st i, due start st i = 0 := by
    intro st i
    simp [due, start, TimerPc.pending, TimerPc.slot]
  refine
    { ran := fun i => ?_
      queued := fun i => ?_
      total := fun i => ?_
      bound := by simp [start]
      cpus := fun c => trivial
      kpcs := fun p => ?_
      timer := trivial }
  · simp [TickRecord.empty, (hzero i).1, hdue]
  · simp [TickRecord.empty, (hzero i).2.1, hdue]
  · simp [TickRecord.empty, (hzero i).2.2]
  · by_cases hp : p = slot0
    · subst hp
      simp [start, KPc.fresh]
    · simp [start, hp, KPc.fresh]

section Steps

variable {s s' : State} {g : TickRecord} {c : Cpu} {p : Slot} {k : KPc} {m : CpuPc}

theorem charge_running {a b : ProcState} (h : b.charge = a.charge) :
    b = .running ↔ a = .running := by
  cases a <;> cases b <;> simp [ProcState.charge] at h ⊢

theorem charge_runnable {a b : ProcState} (h : b.charge = a.charge) :
    b = .runnable ↔ a = .runnable := by
  cases a <;> cases b <;> simp [ProcState.charge] at h ⊢

/-- The fields the accounting reads, apart from the state. -/
def SameCounters (a b : Proc) : Prop :=
  b.rtime = a.rtime ∧ b.timeInQueues = a.timeInQueues ∧ b.ctime = a.ctime

theorem SameCounters.refl (a : Proc) : SameCounters a a := ⟨rfl, rfl, rfl⟩

/-- A position inside `switchuvm` reads `ticks` and the `rtime` of its process. -/
theorem CpuPc.fresh_of_same (hticks : s'.ticks = s.ticks)
    (hsame : ∀ i, SameCounters (s.procs i) (s'.procs i)) (h : m.fresh s) : m.fresh s' := by
  cases m <;> simp only [CpuPc.fresh, hticks] at h ⊢ <;> try exact h
  rw [h, (hsame _).1]

theorem KPc.fresh_of_same (hticks : s'.ticks = s.ticks)
    (hsame : ∀ i, SameCounters (s.procs i) (s'.procs i)) (h : k.fresh s p) : k.fresh s' p := by
  induction k with
  | uvm t => simpa only [KPc.fresh, hticks] using h
  | uvmStore v =>
      simp only [KPc.fresh] at h ⊢
      rw [h, (hsame p).1]
  | yielded k ih => exact ih h
  | wakes a i k ih => exact ih h
  | _ => exact h

/-- A step that writes no counter and charges nothing. -/
theorem Ticks.ofDue (h : Ticks s g) (hticks : s'.ticks = s.ticks)
    (hsame : ∀ i, SameCounters (s.procs i) (s'.procs i))
    (hdue : ∀ st, st = .running ∨ st = .runnable → ∀ i, due s' st i = due s st i)
    (hcpus : ∀ c, (s'.cpu c).fresh s) (hkpcs : ∀ p, (s'.kpc p).fresh s p)
    (hfound : s'.timer.found s') : Ticks s' g := by
  refine
    { ran := fun i => ?_
      queued := fun i => ?_
      total := fun i => ?_
      bound := ?_
      cpus := fun c => CpuPc.fresh_of_same hticks hsame (hcpus c)
      kpcs := fun p => KPc.fresh_of_same hticks hsame (hkpcs p)
      timer := hfound }
  · rw [(hsame i).1, hdue _ (.inl rfl)]
    exact h.ran i
  · rw [(hsame i).2.1, hdue _ (.inr rfl)]
    exact h.queued i
  · rw [(hsame i).2.2, hticks]
    exact h.total i
  · rw [hticks]
    exact h.bound

/-- What `increment_times` has found out stays true of a slot that is charged
the same. -/
theorem TimerPc.found_of_same {t : TimerPc}
    (hsame : ∀ i, SameCounters (s.procs i) (s'.procs i))
    (hcharge : ∀ i, t.pending i → (s'.procs i).state.charge = (s.procs i).state.charge)
    (h : t.found s) : t.found s' := by
  have hslot : ∀ {n} {i : Slot}, t.slot = some n → i.val = n →
      (s'.procs i).state.charge = (s.procs i).state.charge := by
    intro n i hn hi
    apply hcharge
    unfold TimerPc.pending
    rw [hn]
    simp [hi]
  cases t <;> simp only [TimerPc.found] at h ⊢
  case runnable n =>
    intro i hi
    rw [Ne, charge_running (hslot rfl hi)]
    exact h i hi
  case rtimeLoad n =>
    intro i hi
    rw [charge_running (hslot rfl hi)]
    exact h i hi
  case rtimeStore n v =>
    intro i hi
    rw [charge_running (hslot rfl hi), (hsame i).1]
    exact h i hi
  case queueLoad n =>
    intro i hi
    rw [charge_runnable (hslot rfl hi)]
    exact h i hi
  case queueStore n v =>
    intro i hi
    rw [charge_runnable (hslot rfl hi), (hsame i).2.1]
    exact h i hi

/-- A step of a CPU that writes no counter and changes no pending charge. -/
theorem Ticks.ofQuiet (h : Ticks s g) (hticks : s'.ticks = s.ticks)
    (htimer : s'.timer = s.timer) (hsame : ∀ i, SameCounters (s.procs i) (s'.procs i))
    (hcharge : ∀ i, s.timer.pending i →
      (s'.procs i).state.charge = (s.procs i).state.charge)
    (hcpus : ∀ c, (s'.cpu c).fresh s) (hkpcs : ∀ p, (s'.kpc p).fresh s p) : Ticks s' g := by
  refine h.ofDue hticks hsame (fun st hst i => ?_) hcpus hkpcs ?_
  · unfold due
    rw [htimer]
    by_cases hp : s.timer.pending i
    · have hch := hcharge i hp
      rcases hst with rfl | rfl
      · simp only [charge_running hch]
      · simp only [charge_runnable hch]
    · simp [hp]
  · rw [htimer]
    exact TimerPc.found_of_same hsame hcharge h.timer

theorem CpuPc.fresh_update {f : Cpu → CpuPc} (hf : ∀ d, (f d).fresh s) (hm : m.fresh s)
    (d : Cpu) : (Function.update f c m d).fresh s := by
  by_cases hd : d = c
  · rw [hd, Function.update_self]
    exact hm
  · rw [Function.update_of_ne hd]
    exact hf d

theorem KPc.fresh_update {f : Slot → KPc} (hf : ∀ q, (f q).fresh s q) (hk : k.fresh s p)
    (q : Slot) : (Function.update f p k q).fresh s q := by
  by_cases hq : q = p
  · subst hq
    rw [Function.update_self]
    exact hk
  · rw [Function.update_of_ne hq]
    exact hf q

theorem sameCounters_set {t : Table} {i : Slot} {f : Proc → Proc}
    (hf : SameCounters (t i) (f (t i))) (j : Slot) : SameCounters (t j) (t.set i f j) := by
  by_cases hj : j = i
  · subst hj
    rw [Table.set_self]
    exact hf
  · rw [Table.set_of_ne t hj]
    exact .refl _

theorem sameCounters_wakeup1 (t : Table) (ch : Option Chan) (j : Slot) :
    SameCounters (t j) (t.wakeup1 ch j) := by
  rw [Table.wakeup1_apply]
  exact .refl _

/-- Other fields may differ. -/
theorem SameCounters.of_eq {a b : Proc} {st : ProcState} {par : Option Slot} {kl : Bool}
    (h : b = { a with state := st, parent := par, killed := kl }) : SameCounters a b := by
  subst h
  exact ⟨rfl, rfl, rfl⟩

theorem sameCounters_kill (t : Table) (pid : Word) (j : Slot) :
    SameCounters (t j) ((t.kill pid).2 j) :=
  .of_eq (t.kill_rest pid j)

theorem sameCounters_wakeSlot (t : Table) (ch : Option Chan) (i j : Slot) :
    SameCounters (t j) (t.wakeSlot ch i j) :=
  .of_eq (t.wakeSlot_rest ch i j)

theorem SameCounters.trans {a b d : Proc} (hab : SameCounters a b) (hbd : SameCounters b d) :
    SameCounters a d :=
  ⟨hbd.1.trans hab.1, hbd.2.1.trans hab.2.1, hbd.2.2.trans hab.2.2⟩

/-- What a process has read inside `switchuvm` is still there when it comes back to it. -/
theorem KPc.fresh_of_back {k' : KPc} (hk : k.back = some k') (h : k.fresh s p) :
    k'.fresh s p := by
  cases k <;> cases hk <;> exact h

theorem Waking.fresh {ch : Option Chan} {i : Nat} (hk : Waking s p ch i k)
    (h : (s.kpc p).fresh s p) : k.fresh s p := by
  cases hk with
  | call hk =>
      rw [hk] at h
      exact h
  | parent _ => trivial
  | init _ => trivial

/-! ## Steps that charge nothing -/

/-- Calls, the scheduler and the processes neither charge a process nor write
what `switchuvm` has read: the `rtime` it stores is the one it has loaded. -/
theorem Ticks.stepQuiet {a : Act} (h : Ticks s g) (hm : Move s a s')
    (hcharge : ∀ i, s.timer.pending i →
      (s'.procs i).state.charge = (s.procs i).state.charge)
    (htick : a ≠ .tick) (htimer : a ≠ .timer)
    (hnew : ∀ c ok p np, a = .go c ok → s.cpu c = .run p → s.kpc p ≠ .forkTimes np) :
    Ticks s' g := by
  have hrefl := fun i => SameCounters.refl (s.procs i)
  have hwrite : ∀ {i : Slot} {f : Proc → Proc}, SameCounters (s.procs i) (f (s.procs i)) →
      ∀ j, SameCounters (s.procs j) (s.procs.set i f j) := fun hf => sameCounters_set hf
  cases hm
  -- the scheduler
  case schedAcquire c hcpu _ | schedRelease c n hcpu | schedWoken c n i hcpu
      | intrIdle c n hcpu _ =>
    exact h.ofQuiet rfl rfl hrefl hcharge (CpuPc.fresh_update h.cpus trivial) h.kpcs
  case schedPick c n p hcpu hp =>
    exact h.ofQuiet rfl rfl hrefl hcharge (CpuPc.fresh_update h.cpus rfl) h.kpcs
  case schedUvm c p t hcpu =>
    have ht : t = s.ticks := by simpa only [hcpu, CpuPc.fresh] using h.cpus c
    refine h.ofQuiet rfl rfl hrefl hcharge (CpuPc.fresh_update h.cpus ?_) h.kpcs
    simp [CpuPc.fresh, ht]
  case schedUvmLoad c p d hcpu =>
    have hd : d = 0 := by simpa only [hcpu, CpuPc.fresh] using h.cpus c
    refine h.ofQuiet rfl rfl hrefl hcharge (CpuPc.fresh_update h.cpus ?_) h.kpcs
    simp [CpuPc.fresh, hd]
  case schedUvmStore c p v hcpu =>
    have hv : v = (s.procs p).rtime := by simpa only [hcpu, CpuPc.fresh] using h.cpus c
    exact h.ofQuiet rfl rfl (hwrite ⟨hv, rfl, rfl⟩) hcharge
      (CpuPc.fresh_update h.cpus trivial) h.kpcs
  case dispatch c p hcpu =>
    exact h.ofQuiet rfl rfl (hwrite ⟨rfl, rfl, rfl⟩) hcharge
      (CpuPc.fresh_update h.cpus trivial) h.kpcs
  case schedWake c n i hcpu =>
    exact h.ofQuiet rfl rfl (sameCounters_wakeSlot _ _ i) hcharge
      (CpuPc.fresh_update h.cpus trivial) h.kpcs
  -- calls
  case forkFull => exact h
  case fork c p np hcpu hk _ _ | forkFail c p np hcpu hk | reap c p z ok x hcpu hk _ =>
    exact h.ofQuiet rfl rfl (hwrite ⟨rfl, rfl, rfl⟩) hcharge h.cpus
      (KPc.fresh_update h.kpcs trivial)
  case exit c p forced hcpu hk _ _ _ | wait c p y x hcpu hk _ _ | forkCopy c p np hcpu hk
      | exitPrint c p ok hcpu hk | giveUp c p ok x hcpu hk =>
    exact h.ofQuiet rfl rfl hrefl hcharge h.cpus (KPc.fresh_update h.kpcs trivial)
  case kill c pid _ => exact h.ofQuiet rfl rfl (sameCounters_kill _ _) hcharge h.cpus h.kpcs
  case sleep c p n hcpu hk _ | waitSleep c p ok x hcpu hk _ _ _ =>
    refine h.ofQuiet rfl rfl (fun i => ?_) hcharge (CpuPc.fresh_update h.cpus trivial)
      (KPc.fresh_update h.kpcs trivial)
    exact (sameCounters_set ⟨rfl, rfl, rfl⟩ i).trans (sameCounters_set ⟨rfl, rfl, rfl⟩ i)
  case wakeup c p n hcpu _ _ | intr c p n hcpu _ _ =>
    exact h.ofQuiet rfl rfl hrefl hcharge h.cpus (KPc.fresh_update h.kpcs (h.kpcs p))
  case switchuvm c p hcpu hk =>
    exact h.ofQuiet rfl rfl hrefl hcharge h.cpus (KPc.fresh_update h.kpcs rfl)
  case fault c p hcpu hk =>
    exact h.ofQuiet rfl rfl (hwrite ⟨rfl, rfl, rfl⟩) hcharge h.cpus h.kpcs
  -- `fork` goes on
  case forkStack c p np hcpu hk =>
    exact h.ofQuiet rfl rfl hrefl hcharge h.cpus (KPc.fresh_update h.kpcs trivial)
  case forkTimes c p np ok hcpu hk => exact absurd hk (hnew c ok p np rfl hcpu)
  case forkReady c p np ok hcpu hk _ =>
    exact h.ofQuiet rfl rfl (hwrite ⟨rfl, rfl, rfl⟩) hcharge h.cpus
      (KPc.fresh_update (KPc.fresh_update h.kpcs trivial) trivial)
  -- `wakeup`, `exit`, `wait` and `waitx` go on
  case wakeSlot c p i ok ch k hcpu hk =>
    exact h.ofQuiet rfl rfl (sameCounters_wakeSlot _ _ i) hcharge h.cpus
      (KPc.fresh_update h.kpcs (hk.fresh (h.kpcs p)))
  case exitChild c p i ok k hcpu hk _ hnext =>
    refine h.ofQuiet rfl rfl (hwrite ⟨rfl, rfl, rfl⟩) hcharge h.cpus
      (KPc.fresh_update h.kpcs ?_)
    rw [hnext]
    split <;> trivial
  case exitWoken | exitSkip | exitPassWoken | exitPassed =>
    exact h.ofQuiet rfl rfl hrefl hcharge h.cpus (KPc.fresh_update h.kpcs trivial)
  case exitZombie c p ok hcpu hk =>
    exact h.ofQuiet rfl rfl (hwrite ⟨rfl, rfl, rfl⟩) hcharge
      (CpuPc.fresh_update h.cpus trivial) (KPc.fresh_update h.kpcs trivial)
  -- resumed
  case resume c p ok k hcpu hk =>
    exact h.ofQuiet rfl rfl hrefl hcharge h.cpus
      (KPc.fresh_update h.kpcs (KPc.fresh_of_back hk (h.kpcs p)))
  -- `switchuvm` of `exec` or `growproc`
  case uvm c p ok t hcpu hk =>
    have ht : t = s.ticks := by simpa only [hk, KPc.fresh] using h.kpcs p
    refine h.ofQuiet rfl rfl hrefl hcharge h.cpus (KPc.fresh_update h.kpcs ?_)
    simp [KPc.fresh, ht]
  case uvmLoad c p ok d hcpu hk =>
    have hd : d = 0 := by simpa only [hk, KPc.fresh] using h.kpcs p
    refine h.ofQuiet rfl rfl hrefl hcharge h.cpus (KPc.fresh_update h.kpcs ?_)
    simp [KPc.fresh, hd]
  case uvmStore c p ok v hcpu hk =>
    have hv : v = (s.procs p).rtime := by simpa only [hk, KPc.fresh] using h.kpcs p
    exact h.ofQuiet rfl rfl (hwrite ⟨hv, rfl, rfl⟩) hcharge h.cpus
      (KPc.fresh_update h.kpcs trivial)
  case yield c p hcpu hk _ =>
    exact h.ofQuiet rfl rfl (hwrite ⟨rfl, rfl, rfl⟩) hcharge
      (CpuPc.fresh_update h.cpus trivial) (KPc.fresh_update h.kpcs (h.kpcs p))
  -- one field of one slot is written
  case forkWait | forkParent | exitTime | exitWait | scanWake | slept =>
    exact h.ofQuiet rfl rfl (hwrite ⟨rfl, rfl, rfl⟩) hcharge h.cpus
      (KPc.fresh_update h.kpcs trivial)
  case tick => exact absurd rfl htick
  all_goals exact absurd rfl htimer

/-! ## The steps that count -/

/-- `allocproc` starts the counters of the slot it has taken. -/
theorem Ticks.forkTimes {np : Slot} (hl : Locking s) (hf : Forking s) (h : Ticks s g)
    (hk : s.kpc p = .forkTimes np) :
    Ticks ({ s with procs := s.procs.initTimes np s.ticks }.setPc p (.forkWait np))
      { ran := Function.update g.ran np 0, queued := Function.update g.queued np 0 } := by
  have hnp : (s.procs np).state = .embryo := hf.embryo p np (by rw [hk]; rfl)
  have hdead : s.kpc np = .dead := hl.off np (by simp [hnp, ProcState.off])
  have hother : ∀ {i}, i ≠ np → s.procs.initTimes np s.ticks i = s.procs i := fun hi =>
    Table.set_of_ne _ hi _
  have hself : s.procs.initTimes np s.ticks np =
      { s.procs np with
        ctime := s.ticks, rtime := 0, etime := -1, numRun := 0, timeInQueues := 0 } :=
    Table.set_self _ _ _
  have hstate : ∀ i, (s.procs.initTimes np s.ticks i).state = (s.procs i).state := by
    intro i
    by_cases hi : i = np
    · subst hi
      rw [hself]
    · rw [hother hi]
  have hdue : ∀ st i, due ({ s with procs := s.procs.initTimes np s.ticks }.setPc p
      (.forkWait np)) st i = due s st i := by
    intro st i
    simp only [due, State.setPc_procs, State.setPc_timer, hstate]
  refine
    { ran := fun i => ?_
      queued := fun i => ?_
      total := fun i => ?_
      bound := h.bound
      cpus := fun d => ?_
      kpcs := fun q => ?_
      timer := ?_ }
  · rw [hdue]
    simp only [State.setPc_procs]
    by_cases hi : i = np
    · subst hi
      simp [hself, due, hnp]
    · rw [Function.update_of_ne hi, hother hi]
      exact h.ran i
  · rw [hdue]
    simp only [State.setPc_procs]
    by_cases hi : i = np
    · subst hi
      simp [hself, due, hnp]
    · rw [Function.update_of_ne hi, hother hi]
      exact h.queued i
  · simp only [State.setPc_procs, State.setPc_ticks]
    by_cases hi : i = np
    · subst hi
      simp [hself]
    · rw [Function.update_of_ne hi, Function.update_of_ne hi, hother hi]
      exact h.total i
  · have hd := h.cpus d
    simp only [State.setPc_cpu]
    cases hm : s.cpu d <;> simp only [hm, CpuPc.fresh, State.setPc_ticks, State.setPc_procs] at hd ⊢
    case uvm q t => exact hd
    case uvmLoad q t => exact hd
    case uvmStore q v =>
      have hq := hl.chosen d q (by rw [hm]; rfl)
      have hne : q ≠ np := by
        intro heq
        rw [heq, hnp] at hq
        cases hq
      rw [hother hne]
      exact hd
  · simp only [State.setPc_kpc]
    by_cases hq : q = p
    · subst hq
      rw [Function.update_self]
      trivial
    · rw [Function.update_of_ne hq]
      by_cases hqn : q = np
      · subst hqn
        rw [hdead]
        trivial
      · have hd := h.kpcs q
        generalize s.kpc q = k at hd ⊢
        induction k with
        | uvmStore v =>
            simp only [KPc.fresh, State.setPc_procs] at hd ⊢
            rw [hother hqn]
            exact hd
        | yielded k ih => exact ih hd
        | wakes a i k ih => exact ih hd
        | _ => exact hd
  · have hold := h.timer
    simp only [State.setPc_timer]
    cases ht : s.timer <;>
      simp only [ht, TimerPc.found, State.setPc_procs, hstate] at hold ⊢ <;> try exact hold
    · intro i hi
      obtain ⟨hrun, hv⟩ := hold i hi
      have hne : i ≠ np := by
        intro heq
        rw [heq, hnp] at hrun
        cases hrun
      rw [hother hne]
      exact ⟨hrun, hv⟩
    · intro i hi
      obtain ⟨hrun, hv⟩ := hold i hi
      have hne : i ≠ np := by
        intro heq
        rw [heq, hnp] at hrun
        cases hrun
      rw [hother hne]
      exact ⟨hrun, hv⟩

/-- Outside `switchuvm` nothing has been read. -/
theorem fresh_of_outside (hl : Locking s) (h : ¬ InSwitchuvm s p) (t : State) :
    (∀ c, (s.cpu c).target = some p → (s.cpu c).fresh t) ∧ (s.kpc p).fresh t p := by
  simp only [InSwitchuvm, not_or, Bool.not_eq_true] at h
  obtain ⟨hcpu, hk⟩ := h
  refine ⟨fun c hc => ?_, ?_⟩
  · have hsched : (s.cpu c).scheduling := by
      cases hm : s.cpu c <;> simp [hm, CpuPc.target, CpuPc.scheduling] at hc ⊢
    rw [hl.scheduling c hsched] at hcpu
    cases hm : s.cpu c <;> simp [hm, CpuPc.target, CpuPc.switching, CpuPc.fresh] at hc hcpu ⊢ <;>
      exact absurd hc hcpu
  · generalize s.kpc p = k at hk ⊢
    induction k with
    | uvm | uvmLoad | uvmStore => simp [KPc.switching] at hk
    | yielded k ih => exact ih hk
    | wakes a i k ih => exact ih hk
    | _ => trivial

/-- Where no scheduler has chosen a process there is nothing to read. -/
theorem CpuPc.fresh_of_target_none (h : m.target = none) : m.fresh s := by
  cases m <;> trivial

/-- A write to a slot outside `switchuvm`. -/
theorem Ticks.fresh_write {i : Slot} {t : State} (hl : Locking s) (h : Ticks s g)
    (hout : ¬ InSwitchuvm s i) (hticks : t.ticks = s.ticks)
    (hother : ∀ j, j ≠ i → t.procs j = s.procs j) :
    (∀ c, (s.cpu c).fresh t) ∧ ∀ q, (s.kpc q).fresh t q := by
  have houtside := fresh_of_outside hl hout t
  refine ⟨fun c => ?_, fun q => ?_⟩
  · have hc := h.cpus c
    by_cases ht : (s.cpu c).target = some i
    · exact houtside.1 c ht
    · cases hm : s.cpu c <;> simp only [hm, CpuPc.fresh, CpuPc.target, hticks] at hc ht ⊢ <;>
        try exact hc
      rename_i q v
      have hq : q ≠ i := fun heq => ht (by rw [heq])
      rw [hother q hq]
      exact hc
  · have hq := h.kpcs q
    by_cases hqi : q = i
    · subst hqi
      exact houtside.2
    · generalize s.kpc q = k at hq ⊢
      induction k with
      | uvm t => simpa only [KPc.fresh, hticks] using hq
      | uvmStore v =>
          simp only [KPc.fresh] at hq ⊢
          rw [hother q hqi]
          exact hq
      | yielded k ih => exact ih hq
      | wakes a i k ih => exact ih hq
      | _ => exact hq

theorem TimerPc.pending_iff {t : TimerPc} {n : Nat} (h : t.slot = some n) (j : Slot) :
    t.pending j ↔ n ≤ j.val := by
  unfold TimerPc.pending
  rw [h]

/-- `increment_times` has gone on to the next slot. -/
theorem due_next {i : Slot} {t : State} (hslot : s.timer.slot = some i.val)
    (htimer : t.timer = .running (i.val + 1))
    (hstate : ∀ j, (t.procs j).state = (s.procs j).state) (st : ProcState) (j : Slot) :
    due t st j = if j = i then 0 else due s st j := by
  have hnext : t.timer.pending j ↔ i.val + 1 ≤ j.val := by
    rw [htimer]
    exact TimerPc.pending_iff rfl j
  have hnow := TimerPc.pending_iff hslot j
  unfold due
  rw [hstate]
  simp only [hnext, hnow]
  by_cases hj : j = i
  · subst hj
    simp
  · have hval : j.val ≠ i.val := fun heq => hj (Fin.ext heq)
    have hle : i.val + 1 ≤ j.val ↔ i.val ≤ j.val := by omega
    simp only [hle, hj, if_false]

theorem due_here {i : Slot} {st : ProcState} (hslot : s.timer.slot = some i.val)
    (hst : (s.procs i).state = st) : due s st i = 1 := by
  have hnow := (TimerPc.pending_iff hslot i).2 le_rfl
  simp [due, hnow, hst]

theorem due_of_ne {i : Slot} {st : ProcState} (hst : (s.procs i).state ≠ st) :
    due s st i = 0 := by
  simp [due, hst]

theorem due_none (h : s.timer.slot = none) (st : ProcState) (i : Slot) : due s st i = 0 := by
  simp [due, TimerPc.pending, h]

/-- The word after a counter has been incremented. -/
theorem toNat_succ {v : Word} (h : v.toNat + 1 < 0x100000000) : (v + 1).toNat = v.toNat + 1 := by
  rw [BitVec.toNat_add]
  exact Nat.mod_eq_of_lt h

/-- `ticks++`: every RUNNING and every RUNNABLE process has one more to come. -/
theorem Ticks.tick (hl : Locking s) (h : Ticks s g) (htimer : s.timer = .idle)
    (hout : ∀ i, ¬ InSwitchuvm s i) (hbound : s.ticks.toNat + 1 < 0x80000000) :
    Ticks { s with ticks := s.ticks + 1, timer := .running 0 } (g.record s .tick) := by
  have hnone : ∀ st i, due s st i = 0 := due_none (by rw [htimer]; rfl)
  have hall : ∀ st i, due { s with ticks := s.ticks + 1, timer := .running 0 } st i =
      if (s.procs i).state = st then 1 else 0 := by
    intro st i
    simp [due, TimerPc.pending, TimerPc.slot]
  have hsucc : (s.ticks + 1).toNat = s.ticks.toNat + 1 := toNat_succ (by omega)
  refine
    { ran := fun i => ?_
      queued := fun i => ?_
      total := fun i => ?_
      bound := ?_
      cpus := fun c => ?_
      kpcs := fun p => (fresh_of_outside hl (hout p) _).2
      timer := trivial }
  · have hran := h.ran i
    rw [hnone] at hran
    rw [hall]
    simp only [TickRecord.record]
    omega
  · have hqueued := h.queued i
    rw [hnone] at hqueued
    rw [hall]
    simp only [TickRecord.record]
    omega
  · have htotal := h.total i
    simp only [TickRecord.record, hsucc]
    by_cases hr : (s.procs i).state = .running
    · simp only [hr, if_true, reduceCtorEq, if_false]
      omega
    · simp only [hr, if_false]
      split
      · omega
      · omega
  · simp only [hsucc]
    exact hbound
  · cases ht : (s.cpu c).target with
    | none => exact CpuPc.fresh_of_target_none ht
    | some p => exact (fresh_of_outside hl (hout p) _).1 c ht

/-- `increment_times` charges the slot it is looking at and goes on. -/
theorem Ticks.charged {i : Slot} {f : Proc → Proc} (hl : Locking s) (h : Ticks s g)
    (hslot : s.timer.slot = some i.val) (hout : ¬ InSwitchuvm s i)
    (hst : (f (s.procs i)).state = (s.procs i).state)
    (hctime : (f (s.procs i)).ctime = (s.procs i).ctime)
    (hrtime : (f (s.procs i)).rtime.toNat = (s.procs i).rtime.toNat + due s .running i)
    (hqueue : (f (s.procs i)).timeInQueues.toNat =
      (s.procs i).timeInQueues.toNat + due s .runnable i) :
    Ticks { s.setProc i f with timer := .running (i + 1) } g := by
  have hother : ∀ j, j ≠ i → s.procs.set i f j = s.procs j := fun j hj =>
    Table.set_of_ne _ hj _
  have hstate : ∀ j, (s.procs.set i f j).state = (s.procs j).state := by
    intro j
    by_cases hj : j = i
    · subst hj
      rw [Table.set_self, hst]
    · rw [hother j hj]
  have hdue := due_next (t := { s.setProc i f with timer := .running (i + 1) }) hslot rfl
    hstate
  have hfresh := h.fresh_write (t := { s.setProc i f with timer := .running (i + 1) }) hl
    hout rfl hother
  refine
    { ran := fun j => ?_
      queued := fun j => ?_
      total := fun j => ?_
      bound := h.bound
      cpus := hfresh.1
      kpcs := hfresh.2
      timer := trivial }
  · rw [hdue]
    simp only [State.setProc_procs]
    by_cases hj : j = i
    · subst hj
      rw [Table.set_self, hrtime, if_pos rfl, Nat.add_zero]
      exact h.ran j
    · rw [hother j hj, if_neg hj]
      exact h.ran j
  · rw [hdue]
    simp only [State.setProc_procs]
    by_cases hj : j = i
    · subst hj
      rw [Table.set_self, hqueue, if_pos rfl, Nat.add_zero]
      exact h.queued j
    · rw [hother j hj, if_neg hj]
      exact h.queued j
  · simp only [State.setProc_procs, State.setProc_ticks]
    by_cases hj : j = i
    · subst hj
      rw [Table.set_self, hctime]
      exact h.total j
    · rw [hother j hj]
      exact h.total j

/-- `p->rtime++` of a RUNNING process. -/
theorem Ticks.rtimeStore {i : Slot} {v : Word} (hl : Locking s) (h : Ticks s g)
    (htimer : s.timer = .rtimeStore i v) (hout : ¬ InSwitchuvm s i) :
    Ticks { s.setProc i fun p => { p with rtime := v + 1 } with timer := .running (i + 1) }
      g := by
  have hslot : s.timer.slot = some i.val := by
    rw [htimer]
    rfl
  have hfound := h.timer
  rw [htimer] at hfound
  obtain ⟨hrun, hv⟩ := hfound i rfl
  have hran := h.ran i
  have htotal := h.total i
  have hbound := h.bound
  have hone : due s .running i = 1 := due_here hslot hrun
  have hzero : due s .runnable i = 0 := due_of_ne (by simp [hrun])
  refine h.charged (f := fun p => { p with rtime := v + 1 }) hl hslot hout rfl rfl ?_ ?_
  · rw [hone, ← hv]
    exact toNat_succ (by rw [hv]; omega)
  · rw [hzero]
    rfl

/-- `p->time_in_queues++` of a RUNNABLE process. -/
theorem Ticks.queueStore {i : Slot} {v : Word} (hl : Locking s) (h : Ticks s g)
    (htimer : s.timer = .queueStore i v) (hout : ¬ InSwitchuvm s i) :
    Ticks { s.setProc i fun p => { p with timeInQueues := v + 1 } with
            timer := .running (i + 1) } g := by
  have hslot : s.timer.slot = some i.val := by
    rw [htimer]
    rfl
  have hfound := h.timer
  rw [htimer] at hfound
  obtain ⟨hrunnable, hv⟩ := hfound i rfl
  have hqueued := h.queued i
  have htotal := h.total i
  have hbound := h.bound
  have hone : due s .runnable i = 1 := due_here hslot hrunnable
  have hzero : due s .running i = 0 := due_of_ne (by simp [hrunnable])
  refine h.charged (f := fun p => { p with timeInQueues := v + 1 }) hl hslot hout rfl rfl ?_ ?_
  · rw [hzero]
    rfl
  · rw [hone, ← hv]
    exact toNat_succ (by rw [hv]; omega)

/-- `increment_times` looks at a field and writes nothing. -/
theorem Ticks.ofLook {t : TimerPc} (h : Ticks s g)
    (hdue : ∀ st, st = .running ∨ st = .runnable →
      ∀ i, due { s with timer := t } st i = due s st i)
    (hfound : t.found s) : Ticks { s with timer := t } g := by
  exact h.ofDue rfl (fun _ => .refl _) hdue h.cpus h.kpcs
    (TimerPc.found_of_same (fun _ => .refl _) (fun _ _ => rfl) hfound)

theorem due_same {t : TimerPc} {n : Nat} (hslot : s.timer.slot = some n)
    (ht : t.slot = some n) (st : ProcState) (i : Slot) :
    due { s with timer := t } st i = due s st i := by
  simp only [due, TimerPc.pending_iff hslot, TimerPc.pending_iff ht]

/-- The timer interrupt charges a slot what it was in when the tick arrived. -/
theorem Ticks.stepTimer (hl : Locking s) (h : Ticks s g) (hm : Move s .timer s')
    (hout : ∀ i : Slot, s.timer.slot = some i.val → ¬ InSwitchuvm s i) : Ticks s' g := by
  have hfound := h.timer
  cases hm
  case isRunning i htimer hstate | notRunning i htimer hstate | isRunnable i htimer hstate =>
    have hslot : s.timer.slot = some i.val := by
      rw [htimer]
      rfl
    refine h.ofLook (fun st _ => due_same hslot rfl st) fun j hj => ?_
    rw [Fin.ext hj]
    exact hstate
  case endTimes n htimer hn =>
    refine h.ofLook (fun st _ i => ?_) trivial
    have hpassed : ¬ s.timer.pending i := by
      rw [htimer, TimerPc.pending_iff rfl]
      have := i.isLt
      omega
    rw [due_none rfl]
    simp [due, hpassed]
  case notRunnable i htimer hstate =>
    have hslot : s.timer.slot = some i.val := by
      rw [htimer]
      rfl
    rw [htimer] at hfound
    refine h.ofLook (fun st hst j => ?_) trivial
    rw [due_next (t := { s with timer := .running (i + 1) }) hslot rfl fun _ => rfl]
    by_cases hj : j = i
    · subst hj
      rw [if_pos rfl]
      rcases hst with rfl | rfl
      · exact (due_of_ne (hfound j rfl)).symm
      · exact (due_of_ne hstate).symm
    · rw [if_neg hj]
  case rtimeLoad i htimer | queueLoad i htimer =>
    have hslot : s.timer.slot = some i.val := by
      rw [htimer]
      rfl
    rw [htimer] at hfound
    refine h.ofLook (fun st _ => due_same hslot rfl st) fun j hj => ?_
    rw [Fin.ext hj]
    exact ⟨hfound i rfl, rfl⟩
  case rtimeStore i v htimer =>
    exact h.rtimeStore hl htimer (hout i (by rw [htimer]; rfl))
  case queueStore i v htimer =>
    exact h.queueStore hl htimer (hout i (by rw [htimer]; rfl))
  case wakeupTicks htimer _ =>
    refine h.ofDue rfl (sameCounters_wakeup1 _ _) (fun st _ i => ?_) h.cpus h.kpcs trivial
    rw [due_none rfl, due_none (by rw [htimer]; rfl)]

/-! ## Every step -/

theorem CarefulTick.charge {P : Params} {a : Act} (ha : CarefulTick P s a)
    (hs : step P s a = some s') (htick : a ≠ .tick) (htimer : a ≠ .timer) :
    ∀ i, s.timer.pending i → (s'.procs i).state.charge = (s.procs i).state.charge := by
  cases a with
  | tick => exact absurd rfl htick
  | timer => exact absurd rfl htimer
  | _ => simpa only [CarefulTick, hs, Option.getD_some] using ha

theorem TickRecord.record_go {c : Cpu} {ok : Bool} (hcpu : s.cpu c = .run p)
    (hk : ∀ np, s.kpc p ≠ .forkTimes np) : g.record s (.go c ok) = g := by
  simp only [TickRecord.record, hcpu]

/-- A careful step keeps the accounting. -/
theorem Ticks.step {P : Params} {a : Act} (hl : Locking s) (hf : Forking s) (h : Ticks s g)
    (ha : CarefulTick P s a) (hs : step P s a = some s') : Ticks s' (g.record s a) := by
  have hm := Move.of_step hs
  by_cases htick : a = .tick
  · subst htick
    cases hm with
    | tick htimer => exact h.tick hl htimer ha.1 ha.2
  by_cases htimer : a = .timer
  · subst htimer
    exact h.stepTimer hl hm ha
  have hcharge := ha.charge hs htick htimer
  by_cases hnew : ∃ c ok p np, a = .go c ok ∧ s.cpu c = .run p ∧ s.kpc p = .forkTimes np
  · obtain ⟨c, ok, p, np, rfl, hcpu, hk⟩ := hnew
    simp only [ProcTable.step, hcpu, State.go, hk] at hs
    split at hs
    · cases hs
      simp only [TickRecord.record, hcpu, hk]
      exact h.forkTimes hl hf hk
    · cases hs
  · have hquiet := h.stepQuiet hm hcharge htick htimer fun c ok p np ha hc hk =>
      hnew ⟨c, ok, p, np, ha, hc, hk⟩
    have hsame : g.record s a = g := by
      cases a with
      | tick => exact absurd rfl htick
      | go c ok =>
          cases hc : s.cpu c with
          | run p =>
              exact TickRecord.record_go hc fun np hk => hnew ⟨c, ok, p, np, rfl, hc, hk⟩
          | _ => simp only [TickRecord.record, hc]
      | _ => rfl
    rw [hsame]
    exact hquiet

end Steps

/-- In a careful run the accounting holds in every state reached. -/
theorem ticks {P : Params} {c : State × TickRecord}
    (h : (tickKernel P).ReachableWhen (fun c a => CarefulTick P c.1 a) c) : Ticks c.1 c.2 := by
  have hinv := System.ReachableWhen.invariant
    (P := fun c : State × TickRecord => (kernel P).Reachable c.1 ∧ Ticks c.1 c.2) ?_ ?_ h
  · exact hinv.2
  · intro c hc
    have hstart : c.1 = start := hc.1
    refine ⟨.init hc.1, ?_⟩
    rw [hc.2, hstart]
    exact ticks_start
  · intro c a d hinv hok hs
    obtain ⟨hstep, hg⟩ := System.withGhost_step hs
    obtain ⟨hl, hf⟩ := locking hinv.1
    refine ⟨.step hinv.1 trivial hstep, ?_⟩
    rw [hg]
    exact hinv.2.step hl hf hok hstep

/-- In every run whose steps are careful, `rtime` is the number of ticks that
arrived while the process was RUNNING and `time_in_queues` the number that
arrived while it was RUNNABLE; so their sum is at most `ticks - ctime`.  A tick
that `increment_times` is handling counts from the moment its slot is passed. -/
theorem careful_ticks_exact (P : Params) (c : State × TickRecord)
    (h : (tickKernel P).ReachableWhen (fun c a => CarefulTick P c.1 a) c) (i : Slot)
    (hpassed : ¬ c.1.timer.pending i) : TicksExact c.1 c.2 i := by
  have hticks := ticks h
  have hnone : ∀ st, due c.1 st i = 0 := by
    intro st
    simp [due, hpassed]
  have hran := hticks.ran i
  have hqueued := hticks.queued i
  have htotal := hticks.total i
  have hbound := hticks.bound
  rw [hnone] at hran hqueued
  have hr : (c.1.procs i).rtime.toInt = (c.1.procs i).rtime.toNat :=
    BitVec.toInt_eq_toNat_of_lt (by omega)
  have hq : (c.1.procs i).timeInQueues.toInt = (c.1.procs i).timeInQueues.toNat :=
    BitVec.toInt_eq_toNat_of_lt (by omega)
  have hc : (c.1.procs i).ctime.toInt = (c.1.procs i).ctime.toNat :=
    BitVec.toInt_eq_toNat_of_lt (by omega)
  unfold TicksExact
  omega

/-! ## Runs -/

/-- Two CPUs: init forks a child, which sleeps on CPU 1.  A tick arrives while init
is RUNNING on CPU 0; when `increment_times` has passed the child, a device interrupts
the idle CPU 1 and wakes it. -/
def tickAndInterrupt : List Act :=
  List.flatten [List.replicate 6 (.sched 0), [.go 0 true, .call 0 .fork],
    List.replicate 6 (.go 0 true), List.replicate 6 (.sched 1),
    [.go 1 true, .call 1 (.sleep 7), .sched 1, .tick], List.replicate 10 .timer, [.intr 1 7],
    List.replicate 65 (.sched 1), List.replicate 121 .timer]

theorem careful_ticks_exact_tickAndInterrupt :
    ∃ c, (tickKernel ⟨2⟩).ReachableWhen (fun c a => CarefulTick ⟨2⟩ c.1 a) c ∧
      (c.1.procs slot0).rtime = 1 ∧ (c.1.procs ⟨1, by decide⟩).state = .runnable ∧
      TicksExact c.1 c.2 slot0 ∧ TicksExact c.1 c.2 ⟨1, by decide⟩ := by
  obtain ⟨c, hc, hlast⟩ := System.exists_reachableWhen_of_run
    (fun c a => CarefulTick ⟨2⟩ c.1 a) (M := tickKernel ⟨2⟩) (l := tickAndInterrupt)
    (s := (start, TickRecord.empty))
    (p := fun c => (c.1.procs slot0).rtime == 1 &&
      (c.1.procs ⟨1, by decide⟩).state == .runnable && decide (¬ c.1.timer.pending slot0) &&
      decide (¬ c.1.timer.pending ⟨1, by decide⟩))
    ⟨rfl, rfl⟩ (by decide +kernel)
  simp only [Bool.and_eq_true, beq_iff_eq, decide_eq_true_eq] at hlast
  obtain ⟨⟨⟨hone, hwoken⟩, hinit⟩, hchild⟩ := hlast
  exact ⟨c, hc, hone, hwoken, careful_ticks_exact ⟨2⟩ c hc slot0 hinit,
    careful_ticks_exact ⟨2⟩ c hc _ hchild⟩

/-- Two CPUs: a tick arrives at CPU 0 while CPU 1 is in the `switchuvm` that
precedes the first run of init. -/
def tickInSwitchuvm : List Act :=
  List.flatten [List.replicate 2 (.sched 1), [.tick], List.replicate 131 .timer,
    List.replicate 4 (.sched 1), [.go 1 true, .timer]]

/-- The tick is charged to `time_in_queues` and to `rtime`. -/
theorem not_all_ticks_exact :
    ¬ ∀ (P : Params) (c : State × TickRecord) (i : Slot), (tickKernel P).Reachable c →
      (c.1.procs i).state = .running → ¬ c.1.timer.pending i → TicksExact c.1 c.2 i := by
  intro hall
  obtain ⟨c, hc, hlast⟩ := System.exists_reachable_of_run (M := tickKernel ⟨2⟩)
    (l := tickInSwitchuvm) (s := (start, TickRecord.empty))
    (p := fun c => (c.1.procs slot0).state == .running && c.1.timer == .idle &&
      decide (¬ TicksExact c.1 c.2 slot0)) ⟨rfl, rfl⟩ (by decide +kernel)
  simp only [Bool.and_eq_true, beq_iff_eq, decide_eq_true_eq] at hlast
  refine hlast.2 (hall ⟨2⟩ c slot0 hc hlast.1.1 ?_)
  rw [hlast.1.2]
  exact id

end OsWork.Ports.ProcTable

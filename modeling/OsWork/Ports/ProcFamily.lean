import OsWork.Ports.ProcLocking

/-!
# Parents and children

`exit` wakes its parent, passes its children to init, wakes init if one of them
is a zombie, and only then becomes a zombie itself; `wait` and `waitx` sleep on
the address of the caller's own slot.  The relation below is what `parent`,
`state` and `chan` have to do with each other at every point of every
interleaving, inside the critical sections too; with the lock free it gives the
parent/child protocol of the source.

## Main results

* `parent_child` — whenever `ptable.lock` is free, every process but init has a
  live parent, and a process that sleeps in `wait` or `waitx` has a child and no
  zombie among its children.
-/

namespace OsWork.Ports.ProcTable

open OsWork.Verified.Transition

/-- A process that has not exited. -/
def ProcState.alive (st : ProcState) : Prop :=
  st = .sleeping ∨ st = .runnable ∨ st = .running

/-- A slot that `fork` has finished with and no parent has reaped. -/
def ProcState.settled (st : ProcState) : Prop :=
  st.alive ∨ st = .zombie

theorem ProcState.Wakes.alive_iff {a b : ProcState} (h : a.Wakes b) : b.alive ↔ a.alive := by
  rcases h with rfl | ⟨rfl, rfl⟩ <;> simp [ProcState.alive]

theorem ProcState.Wakes.settled_iff {a b : ProcState} (h : a.Wakes b) :
    b.settled ↔ a.settled := by
  rcases h with rfl | ⟨rfl, rfl⟩ <;> simp [ProcState.settled, ProcState.alive]

/-- The child `fork` is about to make RUNNABLE. -/
def KPc.readies : KPc → Option Slot
  | .forkReady np => some np
  | .yielded k | .wakes _ _ k => k.readies
  | _ => none

theorem KPc.forks_of_readies {k : KPc} {np : Slot} (h : k.readies = some np) :
    k.forks = some np := by
  induction k with
  | forkReady i => exact h
  | yielded k ih => exact ih h
  | wakes a i k ih => exact ih h
  | _ => cases h

/-- How far `exit` has come: the slots below `waked` do not sleep on the parent's
channel, the children below `passed` have gone to init, and `again` is the slot at
which the second `wakeup1` is, for the zombie that was passed on last. -/
structure ExitAt where
  waked : Nat
  passed : Nat
  again : Option Nat

def KPc.exitAt : KPc → Option ExitAt
  | .exitWake i => some ⟨i, 0, none⟩
  | .exitPass n => some ⟨NPROC, n, none⟩
  | .exitPassWake n i => some ⟨NPROC, n + 1, some i⟩
  | .exitTime | .exitWait | .exitPrint | .exitZombie => some ⟨NPROC, NPROC, none⟩
  | _ => none

/-- Nobody comes back into `exit`. -/
theorem KPc.same_of_back {k k' : KPc} (h : k.back = some k') (hk : k'.locked = false) :
    k'.exitAt = k.exitAt ∧ k'.readies = k.readies := by
  have hout : k'.exitAt = none := by
    cases k' <;> simp [KPc.locked] at hk <;> rfl
  cases k <;> cases h <;> exact ⟨hout, rfl⟩

/-- Zombie `j` has just been passed on to init, and init in slot `i` is still to be
woken for it. -/
def HandedOver (s : State) (i j : Slot) : Prop :=
  i = s.initproc ∧ ∃ q e m, (s.kpc q).exitAt = some e ∧ e.passed = j.val + 1 ∧
    e.again = some m ∧ m ≤ i.val

/-- The parent/child relation. -/
structure Family (s : State) : Prop where
  initAlive : (s.procs s.initproc).state.alive
  initRoot : (s.procs s.initproc).parent = none
  initStays : (s.kpc s.initproc).exitAt = none
  parentAlive : ∀ i q, (s.procs i).parent = some q →
    (s.procs q).state.alive ∧ ∀ e, (s.kpc q).exitAt = some e → e.passed ≤ i.val
  irrefl : ∀ i, (s.procs i).parent ≠ some i
  hasParent : ∀ i, (s.procs i).state.settled → i ≠ s.initproc → ∃ q, (s.procs i).parent = some q
  orphan : ∀ i q, (s.procs i).parent = some q →
    (s.procs i).state.settled ∨ (s.kpc q).readies = some i
  readied : ∀ q i, (s.kpc q).readies = some i → (s.procs i).parent = some q
  waiting : ∀ i, (s.procs i).state = .sleeping → (s.procs i).chan = some (.proc i) →
    (∃ j, (s.procs j).parent = some i ∧ (s.procs j).state.settled) ∧
    ∀ j, (s.procs j).parent = some i → ((s.procs j).state = .zombie → HandedOver s i j) ∧
      ∀ e, (s.kpc j).exitAt = some e → e.waked ≤ i.val

theorem start_procs (i : Slot) :
    start.procs i = if i = slot0 then { Proc.zero with state := .runnable, pid := 1, etime := -1 }
      else Proc.zero := by
  by_cases h : i = slot0
  · subst h
    simp [start]
  · simp [start, h]

theorem start_parent (i : Slot) : (start.procs i).parent = none := by
  rw [start_procs]
  split <;> rfl

theorem start_kpc (i : Slot) : start.kpc i = if i = slot0 then .forkret else .dead := by
  by_cases h : i = slot0
  · subst h
    simp [start]
  · simp [start, h]

theorem family_start : Family start := by
  have hsettled : ∀ i, (start.procs i).state.settled → i = start.initproc := by
    intro i hi
    by_contra hne
    have hne' : i ≠ slot0 := hne
    rw [start_procs, if_neg hne'] at hi
    simp [ProcState.settled, ProcState.alive, Proc.zero] at hi
  have hready : ∀ q, (start.kpc q).readies = none := by
    intro q
    rw [start_kpc]
    split <;> rfl
  have hsleep : ∀ i, (start.procs i).state ≠ .sleeping := by
    intro i
    rw [start_procs]
    split <;> simp [Proc.zero]
  refine
    { initAlive := ?_
      initRoot := start_parent _
      initStays := ?_
      parentAlive := fun i q h => ?_
      irrefl := fun i h => ?_
      hasParent := fun i hi hne => absurd (hsettled i hi) hne
      orphan := fun i q h => ?_
      readied := fun q i h => ?_
      waiting := fun i hi => absurd hi (hsleep i) }
  · simp [start, ProcState.alive]
  · simp [start, KPc.exitAt]
  · rw [start_parent] at h
    cases h
  · rw [start_parent] at h
    cases h
  · rw [start_parent] at h
    cases h
  · rw [hready] at h
    cases h

section Steps

variable {s s' : State} {c : Cpu} {p : Slot} {k : KPc}

theorem HandedOver.ofSame {i j : Slot} (h : HandedOver s i j) (hinit : s'.initproc = s.initproc)
    (hexit : ∀ q, (s'.kpc q).exitAt = (s.kpc q).exitAt) : HandedOver s' i j := by
  obtain ⟨hi, q, e, m, hq, hrest⟩ := h
  exact ⟨by rw [hinit, hi], q, e, m, by rw [hexit, hq], hrest⟩

/-- A step that makes, reaps and passes on no child, and puts nobody to sleep in
`wait`. -/
theorem Family.ofMild (h : Family s) (hinit : s'.initproc = s.initproc)
    (hparent : ∀ i, (s'.procs i).parent = (s.procs i).parent)
    (halive : ∀ i, (s.procs i).state.alive → (s'.procs i).state.alive)
    (hsettled : ∀ i, (s'.procs i).state.settled ↔ (s.procs i).state.settled)
    (hzombie : ∀ i, (s'.procs i).state = .zombie → (s.procs i).state = .zombie)
    (hsleep : ∀ i, (s'.procs i).state = .sleeping → (s'.procs i).chan = some (.proc i) →
      (s.procs i).state = .sleeping ∧ (s.procs i).chan = some (.proc i))
    (hexit : ∀ i, (s'.kpc i).exitAt = (s.kpc i).exitAt)
    (hready : ∀ i, (s'.kpc i).readies = (s.kpc i).readies) : Family s' where
  initAlive := by
    rw [hinit]
    exact halive _ h.initAlive
  initRoot := by
    rw [hinit, hparent]
    exact h.initRoot
  initStays := by
    rw [hinit, hexit]
    exact h.initStays
  parentAlive i q hq := by
    rw [hparent] at hq
    rw [hexit]
    exact ⟨halive q (h.parentAlive i q hq).1, (h.parentAlive i q hq).2⟩
  irrefl i := by
    rw [hparent]
    exact h.irrefl i
  hasParent i hi hne := by
    rw [hsettled] at hi
    rw [hinit] at hne
    rw [hparent]
    exact h.hasParent i hi hne
  orphan i q hq := by
    rw [hparent] at hq
    rw [hsettled, hready]
    exact h.orphan i q hq
  readied q i hq := by
    rw [hready] at hq
    rw [hparent]
    exact h.readied q i hq
  waiting i hi hchan := by
    obtain ⟨hi, hchan⟩ := hsleep i hi hchan
    obtain ⟨⟨j, hj, hset⟩, hall⟩ := h.waiting i hi hchan
    refine ⟨⟨j, by rw [hparent, hj], (hsettled j).2 hset⟩, fun k hk => ?_⟩
    rw [hparent] at hk
    rw [hexit]
    exact ⟨fun hz => ((hall k hk).1 (hzombie k hz)).ofSame hinit hexit, (hall k hk).2⟩

/-- Mild steps that at most wake processes up. -/
theorem Family.ofWakes (h : Family s) (hinit : s'.initproc = s.initproc)
    (hparent : ∀ i, (s'.procs i).parent = (s.procs i).parent)
    (hwakes : ∀ i, (s.procs i).state.Wakes (s'.procs i).state)
    (hchan : ∀ i, (s'.procs i).state = .sleeping → (s'.procs i).chan = (s.procs i).chan)
    (hexit : ∀ i, (s'.kpc i).exitAt = (s.kpc i).exitAt)
    (hready : ∀ i, (s'.kpc i).readies = (s.kpc i).readies) : Family s' := by
  have hsame : ∀ i st, st ≠ .runnable → (s'.procs i).state = st → (s.procs i).state = st := by
    intro i st hst hi
    rcases hwakes i with heq | ⟨_, hrun⟩
    · rw [← heq, hi]
    · rw [hi] at hrun
      exact absurd hrun hst
  refine h.ofMild hinit hparent (fun i hi => (hwakes i).alive_iff.2 hi)
    (fun i => (hwakes i).settled_iff) (fun i => hsame i .zombie (by simp)) (fun i hi hc => ?_)
    hexit hready
  have hs := hsame i .sleeping (by simp) hi
  rw [hchan i hi] at hc
  exact ⟨hs, hc⟩

/-- Nobody but the moving process changes its position. -/
theorem exitAt_update (hk : k.exitAt = (s.kpc p).exitAt) (q : Slot) :
    (Function.update s.kpc p k q).exitAt = (s.kpc q).exitAt := by
  by_cases hq : q = p
  · subst hq
    rw [Function.update_self, hk]
  · rw [Function.update_of_ne hq]

theorem readies_update (hk : k.readies = (s.kpc p).readies) (q : Slot) :
    (Function.update s.kpc p k q).readies = (s.kpc q).readies := by
  by_cases hq : q = p
  · subst hq
    rw [Function.update_self, hk]
  · rw [Function.update_of_ne hq]

/-! ## The steps that change the family -/

/-- A running process is alive, and no zombie, EMBRYO or UNUSED slot. -/
theorem Locking.alive (hl : Locking s) (hc : s.cpu c = .run p) : (s.procs p).state.alive :=
  .inr (.inr (hl.running c p hc))

theorem KPc.holds_of_exitAt {k : KPc} {e : ExitAt} (h : k.exitAt = some e) :
    k.locked = true ∧ k.parked = false := by
  cases k <;> first | exact ⟨rfl, rfl⟩ | cases h

/-- While a process holds the lock, or nobody does, no other process is in `exit`. -/
theorem Locking.exitAt_none (hl : Locking s) (hc : s.cpu c = .run p)
    (hlock : s.lock = none ∨ s.lock = some c) {q : Slot} (hq : q ≠ p) :
    (s.kpc q).exitAt = none := by
  by_contra hne
  obtain ⟨e, he⟩ := Option.ne_none_iff_exists'.mp hne
  obtain ⟨hlocked, hparked⟩ := KPc.holds_of_exitAt he
  obtain ⟨d, hd, hheld⟩ := hl.holder hlocked hparked
  rcases hlock with hfree | hmine
  · rw [hfree] at hheld
    cases hheld
  · rw [hmine] at hheld
    rw [← Option.some.inj hheld, hc] at hd
    exact hq (CpuPc.run.inj hd).symm

/-- Process `p` goes on in `exit`, perhaps after waking others. -/
theorem Family.ofExit {e : ExitAt} (h : Family s) (hp : p ≠ s.initproc)
    (hone : ∀ q, q ≠ p → (s.kpc q).exitAt = none) (hinit : s'.initproc = s.initproc)
    (hkpc : s'.kpc = Function.update s.kpc p k) (hk : k.exitAt = some e)
    (hparent : ∀ i, (s'.procs i).parent = (s.procs i).parent)
    (hwakes : ∀ i, (s.procs i).state.Wakes (s'.procs i).state)
    (hchan : ∀ i, (s'.procs i).chan = (s.procs i).chan)
    (hready : k.readies = (s.kpc p).readies)
    (hpassed : ∀ i, (s.procs i).parent = some p → e.passed ≤ i.val)
    (hwaked : ∀ i, (s'.procs i).state = .sleeping → (s.procs i).chan = some (.proc i) →
      (s.procs p).parent = some i → e.waked ≤ i.val)
    (hagain : ∀ i j, (s'.procs i).state = .sleeping → (s.procs i).chan = some (.proc i) →
      HandedOver s i j → e.passed = j.val + 1 ∧ ∃ m, e.again = some m ∧ m ≤ i.val) :
    Family s' := by
  have hself : s'.kpc p = k := by rw [hkpc, Function.update_self]
  have hother : ∀ q, q ≠ p → s'.kpc q = s.kpc q := by
    intro q hq
    rw [hkpc, Function.update_of_ne hq]
  have hreadies : ∀ q, (s'.kpc q).readies = (s.kpc q).readies := by
    rw [hkpc]
    exact readies_update hready
  have hsame : ∀ i st, st ≠ .runnable → (s'.procs i).state = st → (s.procs i).state = st := by
    intro i st hst hi
    rcases hwakes i with heq | ⟨_, hrun⟩
    · rw [← heq, hi]
    · rw [hi] at hrun
      exact absurd hrun hst
  refine
    { initAlive := ?_
      initRoot := ?_
      initStays := ?_
      parentAlive := fun i q hq => ?_
      irrefl := fun i => ?_
      hasParent := fun i hi hne => ?_
      orphan := fun i q hq => ?_
      readied := fun q i hq => ?_
      waiting := fun i hi hc => ?_ }
  · rw [hinit]
    exact (hwakes _).alive_iff.2 h.initAlive
  · rw [hinit, hparent]
    exact h.initRoot
  · rw [hinit, hother _ (Ne.symm hp)]
    exact h.initStays
  · rw [hparent] at hq
    refine ⟨(hwakes q).alive_iff.2 (h.parentAlive i q hq).1, fun e' he' => ?_⟩
    by_cases hqp : q = p
    · rw [hqp, hself, hk] at he'
      rw [← Option.some.inj he']
      rw [hqp] at hq
      exact hpassed i hq
    · rw [hother q hqp, hone q hqp] at he'
      cases he'
  · rw [hparent]
    exact h.irrefl i
  · rw [(hwakes i).settled_iff] at hi
    rw [hinit] at hne
    rw [hparent]
    exact h.hasParent i hi hne
  · rw [hparent] at hq
    rw [(hwakes i).settled_iff, hreadies]
    exact h.orphan i q hq
  · rw [hreadies] at hq
    rw [hparent]
    exact h.readied q i hq
  · have hsleep := hsame i .sleeping (by simp) hi
    rw [hchan] at hc
    obtain ⟨⟨j, hj, hset⟩, hall⟩ := h.waiting i hsleep hc
    refine ⟨⟨j, by rw [hparent, hj], (hwakes j).settled_iff.2 hset⟩, fun n hn => ?_⟩
    rw [hparent] at hn
    constructor
    · intro hz
      have hover := (hall n hn).1 (hsame n .zombie (by simp) hz)
      obtain ⟨hpass, m, hm, hle⟩ := hagain i n hi hc hover
      exact ⟨by rw [hinit]; exact hover.1, p, e, m, by rw [hself, hk], hpass, hm, hle⟩
    · intro e' he'
      by_cases hnp : n = p
      · rw [hnp, hself, hk] at he'
        rw [← Option.some.inj he']
        rw [hnp] at hn
        exact hwaked i hi hc hn
      · rw [hother n hnp, hone n hnp] at he'
        cases he'

/-- A zombie is handed over by the one process in `exit`. -/
theorem HandedOver.again {e : ExitAt} {i j : Slot} (h : HandedOver s i j)
    (hone : ∀ q, q ≠ p → (s.kpc q).exitAt = none) (hp : (s.kpc p).exitAt = some e) :
    i = s.initproc ∧ e.passed = j.val + 1 ∧ ∃ m, e.again = some m ∧ m ≤ i.val := by
  obtain ⟨hi, q, e', m, hq, hpass, hm, hle⟩ := h
  have hqp : q = p := by
    by_contra hne
    rw [hone q hne] at hq
    cases hq
  rw [hqp, hp] at hq
  cases hq
  exact ⟨hi, hpass, m, hm, hle⟩

/-- `exit` begins. -/
theorem Family.exit (hl : Locking s) (h : Family s) (hc : s.cpu c = .run p)
    (hk : s.kpc p = .user) (hlock : s.lock = none) (hinit : p ≠ s.initproc) :
    Family ((s.acquire c).setPc p (.exitWake 0)) := by
  have hone : ∀ q, q ≠ p → (s.kpc q).exitAt = none := fun q =>
    hl.exitAt_none hc (.inl hlock)
  refine h.ofExit (k := .exitWake 0) (p := p) hinit hone rfl rfl rfl (fun _ => rfl)
    (fun _ => .inl rfl) (fun _ => rfl) (by rw [hk]; rfl) (fun _ _ => Nat.zero_le _)
    (fun _ _ _ _ => Nat.zero_le _) fun i j _ _ hover => ?_
  obtain ⟨_, q, e, m, hq, _⟩ := hover
  by_cases hqp : q = p
  · rw [hqp, hk] at hq
    cases hq
  · rw [hone q hqp] at hq
    cases hq

section Exit

variable {e f : ExitAt}

/-- What `exit` keeps between two of its steps that neither pass on a child nor become
a zombie: `p` goes from `e` to `f`. -/
theorem Family.exitOn (hl : Locking s) (h : Family s) (hc : s.cpu c = .run p)
    (hold : (s.kpc p).exitAt = some e) (hnew : k.exitAt = some f)
    (hready : k.readies = (s.kpc p).readies)
    (hpassed : ∀ i, (s.procs i).parent = some p → e.passed ≤ i.val → f.passed ≤ i.val)
    (hwaked : ∀ i : Slot, e.waked ≤ i.val → f.waked ≤ i.val)
    (hagain : ∀ i : Slot, ∀ m, e.again = some m → m ≤ i.val →
      f.passed = e.passed ∧ ∃ m', f.again = some m' ∧ m' ≤ i.val) :
    Family (s.setPc p k) := by
  have hlock := hl.inSection c p hc (KPc.holds_of_exitAt hold).1
  have hone : ∀ q, q ≠ p → (s.kpc q).exitAt = none := fun q =>
    hl.exitAt_none hc (.inr hlock)
  have hp : p ≠ s.initproc := by
    intro heq
    rw [heq, h.initStays] at hold
    cases hold
  refine h.ofExit hp hone rfl rfl hnew (fun _ => rfl) (fun _ => .inl rfl) (fun _ => rfl) hready
    (fun i hi => hpassed i hi ((h.parentAlive i p hi).2 e hold)) (fun i hi hchan hpar => ?_)
    fun i j hi hchan hover => ?_
  · exact hwaked i (((h.waiting i hi hchan).2 p hpar).2 e hold)
  · obtain ⟨_, hpass, m, hm, hle⟩ := hover.again hone hold
    obtain ⟨hsame, m', hm', hle'⟩ := hagain i m hm hle
    exact ⟨by rw [hsame, hpass], m', hm', hle'⟩

/-- A round of one of the two loops of `wakeup1` in `exit`. -/
theorem Family.exitWakes {chan : Option Chan} {i : Slot} (hl : Locking s) (h : Family s)
    (hc : s.cpu c = .run p) (hk : Waking s p chan i k) :
    Family ({ s with procs := s.procs.wakeSlot chan i }.setPc p k) := by
  have hparent := s.procs.wakeSlot_parent chan i
  have hchan := s.procs.wakeSlot_chan chan i
  have hwakes := s.procs.wakeSlot_wakes chan i
  have hsleep : ∀ j, (s.procs.wakeSlot chan i j).state = .sleeping →
      (s.procs j).state = .sleeping := by
    intro j hj
    rcases hwakes j with heq | ⟨hold, _⟩
    · rw [← heq, hj]
    · exact hold
  have hlock := hl.inSection c p hc hk.locked
  have hone : ∀ q, q ≠ p → (s.kpc q).exitAt = none := fun q =>
    hl.exitAt_none hc (.inr hlock)
  have hp : ∀ {e}, (s.kpc p).exitAt = some e → p ≠ s.initproc := by
    intro e he heq
    rw [heq, h.initStays] at he
    cases he
  cases hk with
  | call hk =>
      exact h.ofWakes rfl hparent hwakes (fun j _ => hchan j)
        (exitAt_update (by simp [hk, KPc.exitAt])) (readies_update (by simp [hk, KPc.readies]))
  | parent hk =>
      have hold : (s.kpc p).exitAt = some ⟨i, 0, none⟩ := by rw [hk]; rfl
      refine h.ofExit (hp hold) hone rfl rfl rfl hparent hwakes hchan (by rw [hk]; rfl)
        (fun _ _ => Nat.zero_le _) (fun j hj hjc hpar => ?_) fun j n _ _ hover => ?_
      · have hle := ((h.waiting j (hsleep j hj) hjc).2 p hpar).2 _ hold
        have hne : j ≠ i := by
          intro heq
          rw [heq] at hj hjc hpar
          exact Table.wakeSlot_self _ hj (by rw [hjc, hpar]; rfl)
        have hval : j.val ≠ i.val := fun heq => hne (Fin.ext heq)
        simp only at hle ⊢
        omega
      · obtain ⟨_, _, m, hm, _⟩ := hover.again hone hold
        cases hm
  | @init n _ hk =>
      have hold : (s.kpc p).exitAt = some ⟨NPROC, n + 1, some i⟩ := by rw [hk]; rfl
      refine h.ofExit (hp hold) hone rfl rfl rfl hparent hwakes hchan (by rw [hk]; rfl)
        (fun j hj => ?_) (fun j hj hjc hpar => ?_) fun j z hj hjc hover => ?_
      · exact (h.parentAlive j p hj).2 ⟨NPROC, n + 1, some i⟩ hold
      · exact ((h.waiting j (hsleep j hj) hjc).2 p hpar).2 ⟨NPROC, n + 1, some i⟩ hold
      obtain ⟨hinit, hpass, m, hm, hle⟩ := hover.again hone hold
      cases hm
      have hne : j ≠ i := by
        intro heq
        rw [heq] at hj hjc hinit
        exact Table.wakeSlot_self _ hj (by rw [hjc, hinit])
      have hval : j.val ≠ i.val := fun heq => hne (Fin.ext heq)
      exact ⟨hpass, i + 1, rfl, by omega⟩

/-- `p->parent = initproc`. -/
theorem Family.exitChild {n : Slot} (hl : Locking s) (h : Family s) (hc : s.cpu c = .run p)
    (hk : s.kpc p = .exitPass n) (hn : (s.procs n).parent = some p) :
    Family ((s.setProc n fun q => { q with parent := some s.initproc }).setPc p
      (if (s.procs n).state = .zombie then .exitPassWake n 0 else .exitPass (n + 1))) := by
  have hlock := hl.inSection c p hc (by rw [hk]; rfl)
  have hone : ∀ q, q ≠ p → (s.kpc q).exitAt = none := fun q =>
    hl.exitAt_none hc (.inr hlock)
  have hold : (s.kpc p).exitAt = some ⟨NPROC, n, none⟩ := by rw [hk]; rfl
  obtain ⟨a, hnew⟩ : ∃ a, (if (s.procs n).state = .zombie then KPc.exitPassWake n 0
      else .exitPass (n + 1)).exitAt = some ⟨NPROC, n + 1, a⟩ ∧
        ((s.procs n).state = .zombie → a = some 0) := by
    split
    · exact ⟨_, rfl, fun _ => rfl⟩
    · rename_i hz
      exact ⟨_, rfl, fun hz' => absurd hz' hz⟩
  have hnoready : (if (s.procs n).state = .zombie then KPc.exitPassWake n 0
      else .exitPass (n + 1)).readies = (s.kpc p).readies := by
    rw [hk]
    split <;> rfl
  generalize (if (s.procs n).state = .zombie then KPc.exitPassWake n 0
      else .exitPass (n + 1)) = k' at hnew hnoready ⊢
  have hready := readies_update (s := s) (p := p) hnoready
  have hpinit : p ≠ s.initproc := by
    intro heq
    rw [heq, h.initStays] at hold
    cases hold
  have hninit : n ≠ s.initproc := by
    intro heq
    rw [heq, h.initRoot] at hn
    cases hn
  have hnp : n ≠ p := by
    intro heq
    rw [heq] at hn
    exact h.irrefl p hn
  have hself : (s.procs.set n (fun q => { q with parent := some s.initproc }) n).parent =
      some s.initproc := by
    rw [Table.set_self]
  have hother : ∀ i, i ≠ n →
      s.procs.set n (fun q => { q with parent := some s.initproc }) i = s.procs i :=
    fun i hi => Table.set_of_ne _ hi _
  have hstate : ∀ i, (s.procs.set n (fun q => { q with parent := some s.initproc }) i).state =
      (s.procs i).state := by
    intro i
    by_cases hi : i = n
    · subst hi
      rw [Table.set_self]
    · rw [hother i hi]
  have hchan : ∀ i, (s.procs.set n (fun q => { q with parent := some s.initproc }) i).chan =
      (s.procs i).chan := by
    intro i
    by_cases hi : i = n
    · subst hi
      rw [Table.set_self]
    · rw [hother i hi]
  refine
    { initAlive := ?_
      initRoot := ?_
      initStays := ?_
      parentAlive := fun i q hq => ?_
      irrefl := fun i hi => ?_
      hasParent := fun i hi hne => ?_
      orphan := fun i q hq => ?_
      readied := fun q i hq => ?_
      waiting := fun i hi hic => ?_ } <;>
    simp only [State.setPc_procs, State.setPc_kpc, State.setPc_initproc, State.setProc_procs,
      State.setProc_kpc, State.setProc_initproc, hstate, hready, hchan] at *
  · exact h.initAlive
  · rw [hother _ (Ne.symm hninit)]
    exact h.initRoot
  · rw [Function.update_of_ne (Ne.symm hpinit)]
    exact h.initStays
  · by_cases hin : i = n
    · rw [hin, hself] at hq
      cases hq
      refine ⟨h.initAlive, fun e he => ?_⟩
      rw [Function.update_of_ne (Ne.symm hpinit), h.initStays] at he
      cases he
    · rw [hother i hin] at hq
      obtain ⟨halive, hle⟩ := h.parentAlive i q hq
      refine ⟨halive, fun e he => ?_⟩
      by_cases hqp : q = p
      · rw [hqp, Function.update_self, hnew.1] at he
        cases he
        rw [hqp] at hle
        have hni := hle _ hold
        have hval : i.val ≠ n.val := fun heq => hin (Fin.ext heq)
        simp only at hni ⊢
        omega
      · rw [Function.update_of_ne hqp] at he
        exact hle e he
  · by_cases hin : i = n
    · rw [hin, hself] at hi
      exact hninit (Option.some.inj hi).symm
    · rw [hother i hin] at hi
      exact h.irrefl i hi
  · by_cases hin : i = n
    · exact ⟨_, by rw [hin, hself]⟩
    · rw [hother i hin]
      exact h.hasParent i hi hne
  · by_cases hin : i = n
    · left
      rw [hin]
      refine (h.orphan n p hn).elim id fun hr => ?_
      rw [hk] at hr
      cases hr
    · rw [hother i hin] at hq
      exact h.orphan i q hq
  · have hpar := h.readied q i hq
    have hin : i ≠ n := by
      intro heq
      rw [heq, hn] at hpar
      rw [← Option.some.inj hpar, hk] at hq
      cases hq
    rw [hother i hin]
    exact hpar
  · obtain ⟨⟨j, hj, hset⟩, hall⟩ := h.waiting i hi hic
    have hip : i ≠ p := by
      intro heq
      rw [heq, hl.running c p hc] at hi
      cases hi
    refine ⟨⟨j, ?_, hset⟩, fun m hm => ⟨fun hz => ?_, fun e he => ?_⟩⟩
    · have hjn : j ≠ n := by
        intro heq
        rw [heq, hn] at hj
        exact hip (Option.some.inj hj).symm
      rw [hother j hjn]
      exact hj
    · by_cases hmn : m = n
      · rw [hmn, hself] at hm
        rw [hmn] at hz ⊢
        refine ⟨(Option.some.inj hm).symm, p, ⟨NPROC, n + 1, a⟩, 0, ?_, rfl, ?_, Nat.zero_le _⟩
        · show (Function.update s.kpc p k' p).exitAt = _
          rw [Function.update_self]
          exact hnew.1
        · exact hnew.2 hz
      · rw [hother m hmn] at hm
        obtain ⟨_, _, m', hm', _⟩ := ((hall m hm).1 hz).again hone hold
        cases hm'
    · by_cases hmp : m = p
      · rw [hmp, Function.update_self, hnew.1] at he
        cases he
        rw [hmp, hother p (Ne.symm hnp)] at hm
        exact (hall p hm).2 ⟨NPROC, n, none⟩ hold
      · rw [Function.update_of_ne hmp, hone m hmp] at he
        cases he

end Exit

/-- `np->parent = curproc`. -/
theorem Family.forkParent {np : Slot} (hl : Locking s) (hf : Forking s) (h : Family s)
    (hc : s.cpu c = .run p) (hk : s.kpc p = .forkParent np) :
    Family ((s.setProc np fun q => { q with parent := some p }).setPc p (.forkReady np)) := by
  have hkf : (s.kpc p).forks = some np := by rw [hk]; rfl
  have hnp := hf.embryo p np hkf
  have hrun := hl.running c p hc
  have hne : np ≠ p := by
    intro heq
    rw [heq, hrun] at hnp
    cases hnp
  have hunsettled : ¬ (s.procs np).state.settled := by
    rw [hnp]
    simp [ProcState.settled, ProcState.alive]
  have hnoready : ∀ q, (s.kpc q).readies ≠ some np := by
    intro q hq
    have hqp := hf.owner q p np (KPc.forks_of_readies hq) hkf
    rw [hqp, hk] at hq
    cases hq
  have hnoparent : (s.procs np).parent = none := by
    cases hpar : (s.procs np).parent with
    | none => rfl
    | some q => exact (h.orphan np q hpar).elim (absurd · hunsettled) (absurd · (hnoready q))
  have hstate : ∀ i, ((s.procs.set np fun q => { q with parent := some p }) i).state =
      (s.procs i).state := by
    intro i
    by_cases hi : i = np
    · subst hi
      simp
    · simp [hi]
  have hinitnp : s.initproc ≠ np := by
    intro heq
    have := h.initAlive
    rw [heq] at this
    exact hunsettled (.inl this)
  have hkpc := exitAt_update (s := s) (p := p) (k := .forkReady np) (by simp [hk, KPc.exitAt])
  have hover : ∀ i j, HandedOver s i j →
      HandedOver ((s.setProc np fun q => { q with parent := some p }).setPc p (.forkReady np))
        i j := fun i j hij => hij.ofSame rfl hkpc
  refine
    { initAlive := ?_
      initRoot := ?_
      initStays := ?_
      parentAlive := fun i q hq => ?_
      irrefl := fun i hi => ?_
      hasParent := fun i hi hne' => ?_
      orphan := fun i q hq => ?_
      readied := fun q i hq => ?_
      waiting := fun i hi hchan => ?_ } <;>
    simp only [State.setPc_procs, State.setPc_kpc, State.setPc_initproc, State.setProc_procs,
      State.setProc_kpc, State.setProc_initproc, hstate, hkpc] at *
  · exact h.initAlive
  · rw [Table.set_of_ne _ hinitnp]
    exact h.initRoot
  · exact h.initStays
  · by_cases hi : i = np
    · subst hi
      rw [Table.set_self] at hq
      cases hq
      refine ⟨hl.alive hc, fun e he => ?_⟩
      rw [hk] at he
      cases he
    · rw [Table.set_of_ne _ hi] at hq
      exact h.parentAlive i q hq
  · by_cases hi' : i = np
    · subst hi'
      rw [Table.set_self] at hi
      exact hne (Option.some.inj hi).symm
    · rw [Table.set_of_ne _ hi'] at hi
      exact h.irrefl i hi
  · have hi' : i ≠ np := by
      intro heq
      rw [heq] at hi
      exact hunsettled hi
    rw [Table.set_of_ne _ hi']
    exact h.hasParent i hi hne'
  · by_cases hi : i = np
    · subst hi
      rw [Table.set_self] at hq
      cases hq
      right
      rw [Function.update_self]
      rfl
    · rw [Table.set_of_ne _ hi] at hq
      refine (h.orphan i q hq).imp id fun hready => ?_
      have hqp : q ≠ p := by
        intro heq
        rw [heq, hk] at hready
        cases hready
      rw [Function.update_of_ne hqp]
      exact hready
  · by_cases hqp : q = p
    · rw [hqp, Function.update_self] at hq
      have hi : i = np := (Option.some.inj hq).symm
      rw [hi, Table.set_self, hqp]
    · rw [Function.update_of_ne hqp] at hq
      have hi : i ≠ np := by
        intro heq
        rw [heq] at hq
        exact hnoready q hq
      rw [Table.set_of_ne _ hi]
      exact h.readied q i hq
  · have hi' : i ≠ np := by
      intro heq
      rw [heq] at hi
      exact hunsettled (.inl (.inl hi))
    rw [Table.set_of_ne _ hi'] at hchan
    have hip : i ≠ p := by
      intro heq
      rw [heq, hrun] at hi
      cases hi
    obtain ⟨⟨j, hj, hset⟩, hall⟩ := h.waiting i hi hchan
    refine ⟨⟨j, ?_, hset⟩, fun k hk' => (hall k ?_).imp (fun hz hzk => hover i k (hz hzk)) id⟩
    · have hjn : j ≠ np := by
        intro heq
        rw [heq, hnoparent] at hj
        cases hj
      rw [Table.set_of_ne _ hjn, hj]
    · by_cases hkn : k = np
      · subst hkn
        rw [Table.set_self] at hk'
        exact absurd (Option.some.inj hk').symm hip
      · rwa [Table.set_of_ne _ hkn] at hk'

/-- `np->state = RUNNABLE`. -/
theorem Family.forkReady {np : Slot} (hl : Locking s) (hf : Forking s) (h : Family s)
    (hc : s.cpu c = .run p) (hk : s.kpc p = .forkReady np) :
    Family (((s.setProc np fun q => { q with state := .runnable }).setPc np .forkret).setPc p
      .user) := by
  have hkf : (s.kpc p).forks = some np := by rw [hk]; rfl
  have hkr : (s.kpc p).readies = some np := by rw [hk]; rfl
  have hnp := hf.embryo p np hkf
  have hrun := hl.running c p hc
  have hdead := hl.off np (by simp [ProcState.off, hnp])
  have hpar := h.readied p np hkr
  have hstate : ∀ i, i ≠ np →
      ((s.procs.set np fun q => { q with state := .runnable }) i).state = (s.procs i).state := by
    intro i hi
    simp [hi]
  have hself : ((s.procs.set np fun q => { q with state := .runnable }) np).state =
      .runnable := by simp
  have hparent : ∀ i, ((s.procs.set np fun q => { q with state := .runnable }) i).parent =
      (s.procs i).parent := by
    intro i
    by_cases hi : i = np
    · subst hi
      simp
    · simp [hi]
  have hexit : ∀ q, (Function.update (Function.update s.kpc np .forkret) p .user q).exitAt =
      (s.kpc q).exitAt := by
    intro q
    by_cases hqp : q = p
    · subst hqp
      simp [hk, KPc.exitAt]
    · by_cases hqn : q = np
      · subst hqn
        simp [hqp, hdead, KPc.exitAt]
      · simp [hqp, hqn]
  have hready : ∀ q, (Function.update (Function.update s.kpc np .forkret) p .user q).readies =
      if q = p then none else (s.kpc q).readies := by
    intro q
    by_cases hqp : q = p
    · subst hqp
      simp [KPc.readies]
    · by_cases hqn : q = np
      · subst hqn
        simp [hqp, hdead, KPc.readies]
      · simp [hqp, hqn]
  have hover : ∀ i j, HandedOver s i j →
      HandedOver (((s.setProc np fun q => { q with state := .runnable }).setPc np
        .forkret).setPc p .user) i j := fun i j hij => hij.ofSame rfl hexit
  have halive : ∀ i, (s.procs i).state.alive →
      ((s.procs.set np fun q => { q with state := .runnable }) i).state.alive := by
    intro i hi
    by_cases hin : i = np
    · rw [hin, hself]
      exact .inr (.inl rfl)
    · rw [hstate i hin]
      exact hi
  refine
    { initAlive := halive _ h.initAlive
      initRoot := (hparent _).trans h.initRoot
      initStays := (hexit _).trans h.initStays
      parentAlive := fun i q hq => ?_
      irrefl := fun i hi => ?_
      hasParent := fun i hi hne => ?_
      orphan := fun i q hq => ?_
      readied := fun q i hq => ?_
      waiting := fun i hi hchan => ?_ } <;>
    simp only [State.setPc_procs, State.setPc_kpc, State.setPc_initproc, State.setProc_procs,
      State.setProc_kpc, State.setProc_initproc, hparent, hexit, hready] at *
  · exact ⟨halive q (h.parentAlive i q hq).1, (h.parentAlive i q hq).2⟩
  · exact h.irrefl i hi
  · by_cases hin : i = np
    · rw [hin]
      exact ⟨p, hpar⟩
    · rw [hstate i hin] at hi
      exact h.hasParent i hi hne
  · by_cases hin : i = np
    · left
      rw [hin, hself]
      exact .inl (.inr (.inl rfl))
    · rw [hstate i hin]
      refine (h.orphan i q hq).imp id fun hr => ?_
      have hqp : q ≠ p := by
        intro heq
        rw [heq, hkr] at hr
        exact hin (Option.some.inj hr).symm
      rw [if_neg hqp]
      exact hr
  · split at hq
    · cases hq
    · exact h.readied q i hq
  · have hin : i ≠ np := by
      intro heq
      rw [heq, hself] at hi
      cases hi
    rw [hstate i hin] at hi
    rw [Table.set_of_ne _ hin] at hchan
    obtain ⟨⟨j, hj, hset⟩, hall⟩ := h.waiting i hi hchan
    refine ⟨⟨j, hj, ?_⟩, fun k hk' => ⟨fun hz => ?_, (hall k hk').2⟩⟩
    · by_cases hjn : j = np
      · rw [hjn, hself]
        exact .inl (.inr (.inl rfl))
      · rw [hstate j hjn]
        exact hset
    · by_cases hkn : k = np
      · rw [hkn, hself] at hz
        cases hz
      · rw [hstate k hkn] at hz
        exact hover i k ((hall k hk').1 hz)

/-- `curproc->state = ZOMBIE; sched()`. -/
theorem Family.exitZombie (hl : Locking s) (h : Family s) (hc : s.cpu c = .run p)
    (hk : s.kpc p = .exitZombie) : Family (s.leave c p .zombie .dead) := by
  have hexit : (s.kpc p).exitAt = some ⟨NPROC, NPROC, none⟩ := by rw [hk]; rfl
  have hrun := hl.running c p hc
  have hlock := hl.inSection c p hc (by rw [hk]; rfl)
  have hone : ∀ q, q ≠ p → (s.kpc q).exitAt = none := fun q =>
    hl.exitAt_none hc (.inr hlock)
  have hinit : s.initproc ≠ p := by
    intro heq
    have := h.initStays
    rw [heq, hexit] at this
    cases this
  have hnochild : ∀ i q, (s.procs i).parent = some q → q ≠ p := by
    intro i q hq heq
    rw [heq] at hq
    have hpassed := (h.parentAlive i p hq).2 _ hexit
    simp only at hpassed
    have := i.isLt
    omega
  have hstate : ∀ i, i ≠ p →
      ((s.procs.set p fun q => { q with state := .zombie }) i).state = (s.procs i).state := by
    intro i hi
    simp [hi]
  have hself : ((s.procs.set p fun q => { q with state := .zombie }) p).state = .zombie := by
    simp
  have hparent : ∀ i, ((s.procs.set p fun q => { q with state := .zombie }) i).parent =
      (s.procs i).parent := by
    intro i
    by_cases hi : i = p
    · subst hi
      simp
    · simp [hi]
  have hkpc : ∀ q, q ≠ p → Function.update s.kpc p .dead q = s.kpc q :=
    fun q hq => Function.update_of_ne hq _ _
  refine
    { initAlive := ?_
      initRoot := (hparent _).trans h.initRoot
      initStays := ?_
      parentAlive := fun i q hq => ?_
      irrefl := fun i hi => ?_
      hasParent := fun i hi hne => ?_
      orphan := fun i q hq => ?_
      readied := fun q i hq => ?_
      waiting := fun i hi hchan => ?_ } <;>
    simp only [State.leave_procs, State.leave_kpc, State.leave_initproc, hparent] at *
  · rw [hstate _ hinit]
    exact h.initAlive
  · rw [hkpc _ hinit]
    exact h.initStays
  · have hqp := hnochild i q hq
    rw [hstate q hqp, hkpc q hqp]
    exact h.parentAlive i q hq
  · exact h.irrefl i hi
  · by_cases hip : i = p
    · refine h.hasParent i ?_ hne
      rw [hip]
      exact .inl (hl.alive hc)
    · rw [hstate i hip] at hi
      exact h.hasParent i hi hne
  · by_cases hip : i = p
    · left
      rw [hip, hself]
      exact .inr rfl
    · rw [hstate i hip, hkpc q (hnochild i q hq)]
      exact h.orphan i q hq
  · have hqp : q ≠ p := by
      intro heq
      rw [heq, Function.update_self] at hq
      cases hq
    rw [hkpc q hqp] at hq
    exact h.readied q i hq
  · have hip : i ≠ p := by
      intro heq
      rw [heq, hself] at hi
      cases hi
    rw [hstate i hip] at hi
    rw [Table.set_of_ne _ hip] at hchan
    obtain ⟨⟨j, hj, hset⟩, hall⟩ := h.waiting i hi hchan
    have hother : ∀ k, (s.procs k).parent = some i → k ≠ p := by
      intro k hki heq
      rw [heq] at hki
      have hwaked := (hall p hki).2 _ hexit
      simp only at hwaked
      have := i.isLt
      omega
    refine ⟨⟨j, hj, by rw [hstate j (hother j hj)]; exact hset⟩, fun k hki => ?_⟩
    rw [hstate k (hother k hki), hkpc k (hother k hki)]
    refine ⟨fun hz => ?_, (hall k hki).2⟩
    obtain ⟨_, _, m, hm, _⟩ := ((hall k hki).1 hz).again hone hexit
    cases hm

/-- `wait` and `waitx` reap a zombie child. -/
theorem Family.reap {z : Slot} {x : Bool} {out : Slot → Option (Word × Word)}
    (hl : Locking s) (hf : Forking s) (h : Family s) (hc : s.cpu c = .run p)
    (hk : s.kpc p = .scan x) (hz : s.procs.findZombie p = some z) :
    Family ({ s with procs := s.procs.reap z, waitxOut := out }.release.setPc p .user) := by
  have hfound := Table.find_some hz
  simp only [Bool.and_eq_true, beq_iff_eq] at hfound
  obtain ⟨hzp, hzombie⟩ := hfound
  have hrun := hl.running c p hc
  have halive : ∀ i, (s.procs i).state.alive → i ≠ z := by
    intro i hi heq
    rw [heq, hzombie] at hi
    simp [ProcState.alive] at hi
  have hother : ∀ i, i ≠ z → s.procs.reap z i = s.procs i :=
    fun i hi => Table.set_of_ne _ hi _
  have hself : (s.procs.reap z z).state = .unused ∧ (s.procs.reap z z).parent = none := by
    simp [Table.reap]
  have hback : ∀ i q, (s.procs.reap z i).parent = some q → i ≠ z ∧
      (s.procs i).parent = some q := by
    intro i q hq
    have hi : i ≠ z := by
      intro heq
      rw [heq, hself.2] at hq
      cases hq
    rw [hother i hi] at hq
    exact ⟨hi, hq⟩
  have hexit := exitAt_update (s := s) (p := p) (k := .user) (by simp [hk, KPc.exitAt])
  have hready := readies_update (s := s) (p := p) (k := .user) (by simp [hk, KPc.readies])
  have hover : ∀ i j, HandedOver s i j →
      HandedOver ({ s with procs := s.procs.reap z, waitxOut := out }.release.setPc p .user)
        i j := fun i j hij => hij.ofSame rfl hexit
  refine
    { initAlive := ?_
      initRoot := ?_
      initStays := ?_
      parentAlive := fun i q hq => ?_
      irrefl := fun i hi => ?_
      hasParent := fun i hi hne => ?_
      orphan := fun i q hq => ?_
      readied := fun q i hq => ?_
      waiting := fun i hi hchan => ?_ } <;>
    simp only [State.setPc_procs, State.setPc_kpc, State.setPc_initproc, State.release_procs,
      State.release_kpc, State.release_initproc, hexit, hready] at *
  · rw [hother _ (halive _ h.initAlive)]
    exact h.initAlive
  · rw [hother _ (halive _ h.initAlive)]
    exact h.initRoot
  · exact h.initStays
  · obtain ⟨_, hq⟩ := hback i q hq
    obtain ⟨hq', hex⟩ := h.parentAlive i q hq
    rw [hother q (halive q hq')]
    exact ⟨hq', hex⟩
  · exact h.irrefl i (hback i i hi).2
  · have hiz : i ≠ z := by
      intro heq
      rw [heq, hself.1] at hi
      simp [ProcState.settled, ProcState.alive] at hi
    rw [hother i hiz] at hi ⊢
    exact h.hasParent i hi hne
  · obtain ⟨hiz, hq⟩ := hback i q hq
    rw [hother i hiz]
    exact h.orphan i q hq
  · have hembryo := hf.embryo q i (KPc.forks_of_readies hq)
    have hiz : i ≠ z := by
      intro heq
      rw [heq, hzombie] at hembryo
      cases hembryo
    rw [hother i hiz]
    exact h.readied q i hq
  · have hiz : i ≠ z := by
      intro heq
      rw [heq, hself.1] at hi
      cases hi
    rw [hother i hiz] at hi hchan
    have hip : i ≠ p := by
      intro heq
      rw [heq, hrun] at hi
      cases hi
    obtain ⟨⟨j, hj, hset⟩, hall⟩ := h.waiting i hi hchan
    have hjz : j ≠ z := by
      intro heq
      rw [heq, hzp] at hj
      exact hip (Option.some.inj hj).symm
    refine ⟨⟨j, ?_⟩, fun k hk' => ?_⟩
    · rw [hother j hjz]
      exact ⟨hj, hset⟩
    · obtain ⟨hkz, hk'⟩ := hback k i hk'
      rw [hother k hkz]
      exact ⟨fun hzk => hover i k ((hall k hk').1 hzk), (hall k hk').2⟩

/-- `wait` and `waitx` go to sleep on the caller's own slot. -/
theorem Family.waitSleep {x : Bool} (hl : Locking s) (h : Family s) (hc : s.cpu c = .run p)
    (hk : s.kpc p = .scan x) (hz : s.procs.findZombie p = none)
    (hkids : s.procs.havekids p = true) :
    Family ((s.setProc p fun q => { q with chan := some (.proc p) }).leave c p .sleeping
      (.scanWake x)) := by
  have hrun := hl.running c p hc
  have hlock := hl.inSection c p hc (by rw [hk]; rfl)
  obtain ⟨j, -, hj⟩ := List.any_eq_true.1 hkids
  simp only [beq_iff_eq] at hj
  have hstate : ∀ i, i ≠ p → ((s.procs.set p fun q => { q with chan := some (.proc p) }).set p
      fun q => { q with state := .sleeping }) i = s.procs i := by
    intro i hi
    simp [hi]
  have hparent : ∀ i, (((s.procs.set p fun q => { q with chan := some (.proc p) }).set p
      fun q => { q with state := .sleeping }) i).parent = (s.procs i).parent := by
    intro i
    by_cases hi : i = p
    · subst hi
      simp
    · simp [hi]
  have halive : ∀ i, (((s.procs.set p fun q => { q with chan := some (.proc p) }).set p
      fun q => { q with state := .sleeping }) i).state.alive ↔ (s.procs i).state.alive := by
    intro i
    by_cases hi : i = p
    · subst hi
      simp [ProcState.alive, hrun]
    · rw [hstate i hi]
  have hzombie : ∀ i, (((s.procs.set p fun q => { q with chan := some (.proc p) }).set p
      fun q => { q with state := .sleeping }) i).state = .zombie → (s.procs i).state = .zombie := by
    intro i hi
    by_cases hip : i = p
    · subst hip
      simp at hi
    · rwa [hstate i hip] at hi
  have hsettled : ∀ i, (((s.procs.set p fun q => { q with chan := some (.proc p) }).set p
      fun q => { q with state := .sleeping }) i).state.settled ↔ (s.procs i).state.settled := by
    intro i
    by_cases hi : i = p
    · subst hi
      simp [ProcState.settled, ProcState.alive, hrun]
    · rw [hstate i hi]
  have hexit := exitAt_update (s := s) (p := p) (k := .scanWake x) (by simp [hk, KPc.exitAt])
  have hready := readies_update (s := s) (p := p) (k := .scanWake x)
    (by simp [hk, KPc.readies])
  have hover : ∀ i j, HandedOver s i j →
      HandedOver ((s.setProc p fun q => { q with chan := some (.proc p) }).leave c p .sleeping
        (.scanWake x)) i j := fun i j hij => hij.ofSame rfl hexit
  refine
    { initAlive := ?_
      initRoot := ?_
      initStays := ?_
      parentAlive := fun i q hq => ?_
      irrefl := fun i hi => ?_
      hasParent := fun i hi hne => ?_
      orphan := fun i q hq => ?_
      readied := fun q i hq => ?_
      waiting := fun i hi hchan => ?_ } <;>
    simp only [State.leave_procs, State.leave_kpc, State.leave_initproc, State.setProc_procs,
      State.setProc_kpc, State.setProc_initproc, hparent, halive, hsettled, hexit, hready] at *
  · exact h.initAlive
  · exact h.initRoot
  · exact h.initStays
  · exact h.parentAlive i q hq
  · exact h.irrefl i hi
  · exact h.hasParent i hi hne
  · exact h.orphan i q hq
  · exact h.readied q i hq
  · by_cases hip : i = p
    · subst hip
      refine ⟨⟨j, hj, ?_⟩, fun k hk' => ⟨fun hzk => ?_, fun e he => ?_⟩⟩
      · refine (h.orphan j i hj).elim id fun hr => ?_
        rw [hk] at hr
        cases hr
      · have := Table.find_none hz k
        rw [hk', hzombie k hzk] at this
        simp at this
      · have hkp : k ≠ i := by
          intro heq
          rw [heq] at hk'
          exact h.irrefl i hk'
        rw [hl.exitAt_none hc (.inr hlock) hkp] at he
        cases he
    · rw [hstate i hip] at hi hchan
      obtain ⟨hsome, hall⟩ := h.waiting i hi hchan
      exact ⟨hsome, fun k hk' => ⟨fun hzk => hover i k ((hall k hk').1 (hzombie k hzk)),
        (hall k hk').2⟩⟩

/-! ## Every step -/

/-- A step that changes neither parents, states nor channels, and keeps the
position of a process within its part of the protocol. -/
theorem Family.ofQuiet (h : Family s) (hinit : s'.initproc = s.initproc)
    (hsame : ∀ i, (s'.procs i).parent = (s.procs i).parent ∧
      (s'.procs i).state = (s.procs i).state ∧ (s'.procs i).chan = (s.procs i).chan)
    (hexit : ∀ i, (s'.kpc i).exitAt = (s.kpc i).exitAt)
    (hready : ∀ i, (s'.kpc i).readies = (s.kpc i).readies) : Family s' :=
  h.ofWakes hinit (fun i => (hsame i).1) (fun i => .inl (hsame i).2.1)
    (fun i _ => (hsame i).2.2) hexit hready

/-- A write to other fields of one slot. -/
theorem same_set {t : Table} {i : Slot} {f : Proc → Proc}
    (hf : (f (t i)).parent = (t i).parent ∧ (f (t i)).state = (t i).state ∧
      (f (t i)).chan = (t i).chan) (j : Slot) :
    (t.set i f j).parent = (t j).parent ∧ (t.set i f j).state = (t j).state ∧
      (t.set i f j).chan = (t j).chan := by
  by_cases hj : j = i
  · subst hj
    rw [Table.set_self]
    exact hf
  · rw [Table.set_of_ne t hj]
    exact ⟨rfl, rfl, rfl⟩

/-- A running process moves to a live state in which it does not sleep on its
own slot. -/
theorem Family.ofMove (h : Family s) (hp : (s.procs p).state.alive)
    (hinit : s'.initproc = s.initproc)
    (hother : ∀ i, i ≠ p → s'.procs i = s.procs i)
    (hparent : (s'.procs p).parent = (s.procs p).parent)
    (hstate : (s'.procs p).state.alive)
    (hchan : (s'.procs p).state = .sleeping → (s'.procs p).chan ≠ some (.proc p))
    (hexit : ∀ i, (s'.kpc i).exitAt = (s.kpc i).exitAt)
    (hready : ∀ i, (s'.kpc i).readies = (s.kpc i).readies) : Family s' := by
  refine h.ofMild hinit (fun i => ?_) (fun i hi => ?_) (fun i => ?_) (fun i hi => ?_)
    (fun i hi hc => ?_) hexit hready
  · by_cases hip : i = p
    · rw [hip, hparent]
    · rw [hother i hip]
  · by_cases hip : i = p
    · rw [hip]
      exact hstate
    · rw [hother i hip]
      exact hi
  · by_cases hip : i = p
    · rw [hip]
      exact ⟨fun _ => .inl hp, fun _ => .inl hstate⟩
    · rw [hother i hip]
  · by_cases hip : i = p
    · rw [hip] at hi
      rw [hi] at hstate
      simp [ProcState.alive] at hstate
    · rwa [hother i hip] at hi
  · by_cases hip : i = p
    · rw [hip] at hi hc
      exact absurd hc (hchan hi)
    · rw [hother i hip] at hi hc
      exact ⟨hi, hc⟩

/-- Every step keeps the parent/child relation. -/
theorem Family.step {a : Act} (hl : Locking s) (hf : Forking s) (h : Family s)
    (hm : Move s a s') : Family s' := by
  have hpos : ∀ {p k}, k.exitAt = (s.kpc p).exitAt → k.readies = (s.kpc p).readies →
      (∀ q, (Function.update s.kpc p k q).exitAt = (s.kpc q).exitAt) ∧
        ∀ q, (Function.update s.kpc p k q).readies = (s.kpc q).readies :=
    fun he hr => ⟨exitAt_update he, readies_update hr⟩
  have hno : ∀ i, (s.procs i).parent = (s.procs i).parent ∧
      (s.procs i).state = (s.procs i).state ∧ (s.procs i).chan = (s.procs i).chan :=
    fun _ => ⟨rfl, rfl, rfl⟩
  cases hm
  case exit c p forced hcpu hk hlock hinit _ => exact h.exit hl hcpu hk hlock hinit
  case forkParent c p np ok hcpu hk => exact h.forkParent hl hf hcpu hk
  case forkReady c p np ok hcpu hk _ => exact h.forkReady hl hf hcpu hk
  case wakeSlot c p i ok chan k hcpu hk => exact h.exitWakes hl hcpu hk
  case exitWoken c p ok i hcpu hk hi =>
    refine h.exitOn (e := ⟨i, 0, none⟩) (f := ⟨NPROC, 0, none⟩) hl hcpu (by rw [hk]; rfl) rfl
      (by rw [hk]; rfl) (fun _ _ hle => hle) (fun j hle => ?_) fun j m hm _ => ?_
    · have := j.isLt
      simp only at hle ⊢
      omega
    · cases hm
  case exitChild c p i ok k hcpu hk hi hnext =>
    rw [hnext]
    exact h.exitChild hl hcpu hk hi
  case exitSkip c p i ok hcpu hk hi =>
    refine h.exitOn (e := ⟨NPROC, i, none⟩) (f := ⟨NPROC, i + 1, none⟩) hl hcpu (by rw [hk]; rfl)
      rfl (by rw [hk]; rfl) (fun j hj hle => ?_) (fun _ hle => hle) fun j m hm _ => ?_
    · have hne : j.val ≠ i.val := fun heq => hi (by rw [← Fin.ext heq]; exact hj)
      simp only at hle ⊢
      omega
    · cases hm
  case exitPassWoken c p ok n i hcpu hk hi =>
    refine h.exitOn (e := ⟨NPROC, n + 1, some i⟩) (f := ⟨NPROC, n + 1, none⟩) hl hcpu
      (by rw [hk]; rfl) rfl (by rw [hk]; rfl) (fun _ _ hle => hle) (fun _ hle => hle)
      fun j m hm hle => ?_
    cases hm
    have := j.isLt
    omega
  case exitPassed c p ok i hcpu hk hi =>
    refine h.exitOn (e := ⟨NPROC, i, none⟩) (f := ⟨NPROC, NPROC, none⟩) hl hcpu (by rw [hk]; rfl)
      rfl (by rw [hk]; rfl) (fun j _ hle => ?_) (fun _ hle => hle) fun j m hm _ => ?_
    · have := j.isLt
      simp only at hle ⊢
      omega
    · cases hm
  case exitZombie c p ok hcpu hk => exact h.exitZombie hl hcpu hk
  case reap c p z ok x hcpu hk hz => exact h.reap hl hf hcpu hk hz
  case waitSleep c p ok x hcpu hk hz hkids _ => exact h.waitSleep hl hcpu hk hz hkids
  -- slots that are not part of the family yet
  case fork c p np hcpu hk _ hnp =>
    have hunused := Table.find_some hnp
    simp only [beq_iff_eq] at hunused
    obtain ⟨he, hr⟩ := hpos (p := p) (k := .forkStack np) (by simp [hk, KPc.exitAt])
      (by simp [hk, KPc.readies])
    refine h.ofMild rfl (fun i => ?_) (fun i hi => ?_) (fun i => ?_) (fun i hi => ?_)
      (fun i hi hc => ?_) he hr <;>
      by_cases hin : i = np <;>
      simp_all [Table.embryo, ProcState.settled, ProcState.alive]
  case forkFail c p np hcpu hk =>
    have hnp : (s.procs np).state = .embryo := by
      rcases hk with hk | hk <;> exact hf.embryo p np (by rw [hk]; rfl)
    obtain ⟨he, hr⟩ := hpos (p := p) (k := .user)
      (by rcases hk with hk | hk <;> simp [hk, KPc.exitAt])
      (by rcases hk with hk | hk <;> simp [hk, KPc.readies])
    refine h.ofMild rfl (fun i => ?_) (fun i hi => ?_) (fun i => ?_) (fun i hi => ?_)
      (fun i hi hc => ?_) he hr <;>
      by_cases hin : i = np <;>
      simp_all [ProcState.settled, ProcState.alive]
  -- a process moves
  case dispatch c p hcpu =>
    have hp := hl.chosen c p (by rw [hcpu]; rfl)
    exact h.ofMove (p := p) (by simp [hp, ProcState.alive]) rfl (fun i hi => by simp [hi])
      (by simp) (by simp [ProcState.alive]) (by simp) (fun _ => rfl) fun _ => rfl
  case sleep c p n hcpu hk _ =>
    obtain ⟨he, hr⟩ := hpos (p := p) (k := .slept) (by simp [hk, KPc.exitAt])
      (by simp [hk, KPc.readies])
    exact h.ofMove (hl.alive hcpu) rfl (fun i hi => by simp [hi]) (by simp)
      (by simp [ProcState.alive]) (by simp) he hr
  case yield c p hcpu hk _ =>
    obtain ⟨he, hr⟩ := hpos (p := p) (k := .yielded (s.kpc p))
      (by cases hkp : s.kpc p <;> simp [hkp, KPc.exitAt, KPc.locked] at hk ⊢)
      (by simp [KPc.readies])
    exact h.ofMove (hl.alive hcpu) rfl (fun i hi => by simp [hi]) (by simp)
      (by simp [ProcState.alive]) (by simp) he hr
  case scanWake c p ok x hcpu hk =>
    obtain ⟨he, hr⟩ := hpos (p := p) (k := .scan x) (by simp [hk, KPc.exitAt])
      (by simp [hk, KPc.readies])
    exact h.ofMove (hl.alive hcpu) rfl (fun i hi => by simp [hi]) (by simp)
      (by simpa using hl.alive hcpu) (by simp) he hr
  case slept c p ok hcpu hk =>
    obtain ⟨he, hr⟩ := hpos (p := p) (k := .user) (by simp [hk, KPc.exitAt])
      (by simp [hk, KPc.readies])
    exact h.ofMove (hl.alive hcpu) rfl (fun i hi => by simp [hi]) (by simp)
      (by simpa using hl.alive hcpu) (by simp) he hr
  -- processes are woken
  case kill c pid _ =>
    have hparent := fun i => congrArg Proc.parent (s.procs.kill_rest pid i)
    have hchan := fun i => congrArg Proc.chan (s.procs.kill_rest pid i)
    exact h.ofWakes rfl hparent (s.procs.kill_wakes pid) (fun i _ => hchan i) (fun _ => rfl)
      fun _ => rfl
  case schedWake c n i hcpu =>
    exact h.ofWakes rfl (s.procs.wakeSlot_parent _ i) (s.procs.wakeSlot_wakes _ i)
      (fun j _ => s.procs.wakeSlot_chan _ i j) (fun _ => rfl) fun _ => rfl
  case wakeup c p n hcpu hk _ | intr c p n hcpu hk _ =>
    obtain ⟨he, hr⟩ := hpos (p := p) (k := .wakes n 0 (s.kpc p))
      (by cases hkp : s.kpc p <;> simp [hkp, KPc.exitAt, KPc.locked] at hk ⊢)
      (by simp [KPc.readies])
    exact h.ofQuiet rfl hno he hr
  case wakeupTicks _ _ =>
    exact h.ofWakes rfl (fun i => by simp [Table.wakeup1_apply])
      (s.procs.wakeup1_wakes _) (fun i _ => by simp [Table.wakeup1_apply])
      (fun _ => rfl) fun _ => rfl
  case resume c p ok k hcpu hk =>
    obtain ⟨he, hr⟩ := KPc.same_of_back hk (hl.resumes p k hk)
    obtain ⟨he, hr⟩ := hpos he hr
    exact h.ofQuiet rfl hno he hr
  -- the remaining steps write other fields only
  case exitTime c p ok hcpu hk =>
    obtain ⟨he, hr⟩ := hpos (p := p) (k := .exitWait) (by simp [hk, KPc.exitAt])
      (by simp [hk, KPc.readies])
    exact h.ofQuiet rfl (same_set ⟨rfl, rfl, rfl⟩) he hr
  case exitWait c p ok hcpu hk =>
    obtain ⟨he, hr⟩ := hpos (p := p) (k := .exitPrint) (by simp [hk, KPc.exitAt])
      (by simp [hk, KPc.readies])
    exact h.ofQuiet rfl (same_set ⟨rfl, rfl, rfl⟩) he hr
  case exitPrint c p ok hcpu hk =>
    obtain ⟨he, hr⟩ := hpos (p := p) (k := .exitZombie) (by simp [hk, KPc.exitAt])
      (by simp [hk, KPc.readies])
    exact h.ofQuiet rfl hno he hr
  all_goals
    first
      | exact h
      | exact h.ofQuiet rfl hno (fun _ => rfl) fun _ => rfl
      | exact h.ofQuiet rfl (same_set ⟨rfl, rfl, rfl⟩) (fun _ => rfl) fun _ => rfl
      | exact h.ofQuiet rfl hno (exitAt_update (by simp [*, KPc.exitAt]))
          (readies_update (by simp [*, KPc.readies]))
      | exact h.ofQuiet rfl (same_set ⟨rfl, rfl, rfl⟩)
          (exitAt_update (by simp [*, KPc.exitAt]))
          (readies_update (by simp [*, KPc.readies]))

end Steps

/-! ## The protocol -/

/-- The relation holds in every state reached. -/
theorem family {P : Params} {s : State} (h : (kernel P).Reachable s) : Family s := by
  have hinv : (Locking s ∧ Forking s) ∧ Family s := by
    refine System.ReachableWhen.invariant
      (P := fun s => (Locking s ∧ Forking s) ∧ Family s) ?_ ?_ h
    · intro s hs
      have hs' : s = start := hs
      rw [hs']
      exact ⟨⟨locking_start, forking_start⟩, family_start⟩
    · intro s a s' hinv _ hstep
      obtain ⟨⟨hl, hf⟩, hfam⟩ := hinv
      have hm := Move.of_step hstep
      exact ⟨⟨hl.step hf hm, hf.step hl hm⟩, hfam.step hl hf hm⟩
  exact hinv.2

/-- The state of a parent: neither UNUSED nor ZOMBIE. -/
theorem ProcState.alive.ne {st : ProcState} (h : st.alive) : st ≠ .unused ∧ st ≠ .zombie := by
  rcases h with rfl | rfl | rfl <;> simp

/-- **The parent/child protocol**, for any number of CPUs and every
interleaving: whenever `ptable.lock` is free, (a) every process but init has a
parent slot that is neither UNUSED nor ZOMBIE, and (b) a process sleeping on its
own slot, as `wait` and `waitx` do, has a child and none of its children is a
zombie. -/
theorem parent_child (P : Params) (s : State) (h : (kernel P).Reachable s)
    (hfree : s.lock = none) :
    (∀ i, ((s.procs i).state = .sleeping ∨ (s.procs i).state = .runnable ∨
        (s.procs i).state = .running ∨ (s.procs i).state = .zombie) → i ≠ s.initproc →
      ∃ q, (s.procs i).parent = some q ∧ (s.procs q).state ≠ .unused ∧
        (s.procs q).state ≠ .zombie) ∧
    ∀ i, (s.procs i).state = .sleeping → (s.procs i).chan = some (.proc i) →
      (∃ j, (s.procs j).parent = some i ∧ (s.procs j).state ≠ .unused ∧
        (s.procs j).state ≠ .embryo) ∧
      ∀ j, (s.procs j).parent = some i → (s.procs j).state ≠ .zombie := by
  have hfam := family h
  have hdone : ∀ i j, ¬ HandedOver s i j := by
    rintro i j ⟨_, q, e, m, hq, _⟩
    obtain ⟨hlocked, hparked⟩ := KPc.holds_of_exitAt hq
    obtain ⟨c, _, hc⟩ := (locking h).1.holder hlocked hparked
    rw [hfree] at hc
    cases hc
  constructor
  · intro i hi hne
    have hset : (s.procs i).state.settled := by
      rcases hi with hi | hi | hi | hi <;> rw [hi] <;> simp [ProcState.settled, ProcState.alive]
    obtain ⟨q, hq⟩ := hfam.hasParent i hset hne
    exact ⟨q, hq, (hfam.parentAlive i q hq).1.ne⟩
  · intro i hi hchan
    obtain ⟨⟨j, hj, hset⟩, hall⟩ := hfam.waiting i hi hchan
    refine ⟨⟨j, hj, ?_⟩, fun k hk hz => hdone i k ((hall k hk).1 hz)⟩
    rcases hset with hset | hset
    · rcases hset with hset | hset | hset <;> rw [hset] <;> simp
    · rw [hset]
      simp

/-- On one CPU: init forks a child and sleeps in `wait`; the child forks another one
and sleeps; that one exits; then a device interrupts the idle CPU and wakes the child. -/
def zombieGrandchild : List Act :=
  List.flatten [List.replicate 6 (.sched 0), [.go 0 true, .call 0 .fork],
    List.replicate 6 (.go 0 true), [.call 0 .wait, .go 0 true], List.replicate 5 (.sched 0),
    [.go 0 true, .call 0 .fork], List.replicate 6 (.go 0 true), [.call 0 (.sleep 7)],
    List.replicate 5 (.sched 0), [.go 0 true, .call 0 (.exit false)],
    List.replicate 134 (.go 0 true), [.sched 0, .intr 0 7], List.replicate 65 (.sched 0)]

/-- `zombieGrandchild` ends with the lock free, init asleep on its own slot, and a
zombie whose parent the interrupt has woken. -/
theorem parent_child_zombieGrandchild :
    ∃ s, (kernel ⟨1⟩).Reachable s ∧ s.lock = none ∧
      (s.procs ⟨1, by decide⟩).state = .runnable ∧ (s.procs ⟨2, by decide⟩).state = .zombie ∧
      (∃ q, (s.procs ⟨2, by decide⟩).parent = some q ∧ (s.procs q).state ≠ .unused ∧
        (s.procs q).state ≠ .zombie) ∧
      (s.procs slot0).state = .sleeping ∧ (s.procs slot0).chan = some (.proc slot0) ∧
      (∃ j, (s.procs j).parent = some slot0 ∧ (s.procs j).state ≠ .unused ∧
        (s.procs j).state ≠ .embryo) ∧
      ∀ j, (s.procs j).parent = some slot0 → (s.procs j).state ≠ .zombie := by
  obtain ⟨s, hs, htest⟩ := System.exists_reachable_of_run (M := kernel ⟨1⟩)
    (l := zombieGrandchild) (s := start)
    (p := fun s => s.lock == none && (s.procs slot0).state == .sleeping &&
      (s.procs slot0).chan == some (.proc slot0) &&
      (s.procs ⟨1, by decide⟩).state == .runnable &&
      (s.procs ⟨2, by decide⟩).state == .zombie && decide (⟨2, by decide⟩ ≠ s.initproc))
    rfl (by decide +kernel)
  simp only [Bool.and_eq_true, beq_iff_eq, decide_eq_true_eq] at htest
  obtain ⟨⟨⟨⟨⟨hlock, hsleep⟩, hchan⟩, hwoken⟩, hzombie⟩, hne⟩ := htest
  obtain ⟨hparent, hwaiting⟩ := parent_child ⟨1⟩ s hs hlock
  exact ⟨s, hs, hlock, hwoken, hzombie, hparent _ (.inr (.inr (.inr hzombie))) hne, hsleep, hchan,
    hwaiting slot0 hsleep hchan⟩

end OsWork.Ports.ProcTable

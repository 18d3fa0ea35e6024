import OsWork.Verified.Monitor

/-!
# `sys_sleep`

`sys_sleep` of `sysproc.c` and the timer interrupt of `trap.c` as programs of a monitor with
the spin lock `tickslock` and the channel `&ticks`.  Any number of processes call `sleep`;
ticks, wakeups of any channel and kills come in any order.  Beside the 32-bit counter the
data have a number that counts the ticks and does not wrap.

The condition `ticks - ticks0 < n` of the loop compares unsigned numbers.  A negative `n` is
a very large one there, and after `2 ^ 32` ticks the difference begins anew.

## Main results

* `Exact.late_iff` — where the condition is what it looks like.
* `careful_sleep` — in every run in which `n` is not negative and the condition is evaluated
  in time, `sys_sleep` waits the right time.
-/

namespace OsWork.Ports.SysSleep

open OsWork.Verified.Monitor OsWork.Verified.Transition

/-! ## The source -/

abbrev Word := BitVec 32

inductive Lock
  | tickslock
  deriving DecidableEq

/-- A sleep channel. -/
abbrev Addr := Nat

/-- `&ticks` -/
def ticksAddr : Addr := 0

structure Clock where
  ticks : Word
  /-- the ticks that have come -/
  passed : Nat

/-- The variables of `sys_sleep`; `began` are the ticks that had come when `ticks0` was
read. -/
structure Wait where
  n : Word
  ticks0 : Word
  began : Nat
  deriving DecidableEq

/-- What comes next in the call a thread is in. -/
inductive Pc
  | out
  /-- `ticks0 = ticks` -/
  | enter (n : Word)
  /-- `ticks - ticks0 < n` -/
  | test (w : Wait)
  /-- `myproc()->killed` -/
  | check (w : Wait)
  /-- `sleep(&ticks, &tickslock)` -/
  | nap (w : Wait)
  /-- `release(&tickslock)`, and `-1` is returned -/
  | fail (w : Wait)
  /-- `release(&tickslock)`, and `0` is returned -/
  | done (w : Wait)
  /-- timer interrupt: `ticks++` -/
  | tick
  /-- `increment_times()` -/
  | times
  /-- `wakeup(&ticks)` -/
  | wakeup
  | ticked
  /-- `sys_uptime` -/
  | uptime
  deriving DecidableEq

/-- What `sys_sleep` has returned, and the ticks that had come then. -/
structure Result where
  wait : Wait
  value : Int
  ended : Nat
  deriving DecidableEq

/-- Where a thread stands; `result` is that of its last call of `sys_sleep`. -/
structure Loc where
  pc : Pc
  result : Option Result

/-- What a thread does outside of a call; `none` is an argument that `argint` cannot get. -/
inductive Call
  | sleep (n : Option Word)
  | tick
  | wakeup (ch : Addr)
  | uptime

variable {P : Type}

def code (_p : P) (x : Loc) (c : Call) (d : Clock) (killed : Bool) :
    Option (Op Lock Addr Clock Loc) :=
  match x.pc with
  | .out =>
      match c with
      | .sleep (some n) => some (.acquire .tickslock { pc := .enter n, result := none })
      | .sleep none => some (.store d { pc := .out, result := none })
      | .tick => some (.acquire .tickslock { x with pc := .tick })
      | .wakeup ch => some (.wakeup ch x)
      | .uptime => some (.acquire .tickslock { x with pc := .uptime })
  | .enter n => some (.store d { x with pc := .test ⟨n, d.ticks, d.passed⟩ })
  | .test w =>
      if d.ticks - w.ticks0 < w.n then some (.store d { x with pc := .check w })
      else some (.store d { x with pc := .done w })
  | .check w =>
      if killed then some (.store d { x with pc := .fail w })
      else some (.store d { x with pc := .nap w })
  | .nap w => some (.sleep ticksAddr .tickslock { x with pc := .test w })
  | .fail w => some (.release .tickslock { pc := .out, result := some ⟨w, -1, d.passed⟩ })
  | .done w => some (.release .tickslock { pc := .out, result := some ⟨w, 0, d.passed⟩ })
  | .tick =>
      some (.store { ticks := d.ticks + 1, passed := d.passed + 1 } { x with pc := .times })
  | .times => some (.store d { x with pc := .wakeup })
  | .wakeup => some (.wakeup ticksAddr { x with pc := .ticked })
  | .ticked => some (.release .tickslock { x with pc := .out })
  | .uptime => some (.release .tickslock { x with pc := .out })

/-- All threads, from the value `t₀` of `ticks` on. -/
def sleepers [DecidableEq P] (t₀ : Word) : System (State P Lock Addr Clock Loc) (Act P Call) :=
  monitor code (fun _ => { pc := .out, result := none }) { ticks := t₀, passed := 0 }

/-! ## The law and its condition -/

/-- The tick with which the time is over. -/
def Wait.due (w : Wait) : Nat := w.began + (max w.n.toInt 0).toNat

/-- `sys_sleep` waits the right time. -/
structure SleepsRight (s : State P Lock Addr Clock Loc) : Prop where
  zero : ∀ p r, (s.ctl p).loc.result = some r → r.value = 0 → r.wait.due ≤ r.ended
  failed : ∀ p r, (s.ctl p).loc.result = some r → r.value = -1 → s.killed p = true
  asleep : ∀ p ch l y, s.ctl p = .asleep ch l y → s.holder .tickslock = none →
    ∃ w, y.pc = .test w ∧ s.data.passed < w.due

/-- The condition on a step: `n` is not negative, and the condition of the loop is evaluated
before `2 ^ 32` ticks have come. -/
def Pc.Careful (passed : Nat) : Pc → Call → Prop
  | .out, .sleep (some n) => 0 ≤ n.toInt
  | .test w, _ => passed < w.began + 0x100000000
  | _, _ => True

def Careful (s : State P Lock Addr Clock Loc) : Act P Call → Prop
  | .run p c => (s.ctl p).loc.pc.Careful s.data.passed c
  | _ => True

instance (passed : Nat) (pc : Pc) (c : Call) : Decidable (pc.Careful passed c) := by
  unfold Pc.Careful
  split <;> infer_instance

instance (s : State P Lock Addr Clock Loc) (a : Act P Call) : Decidable (Careful s a) := by
  unfold Careful
  split <;> infer_instance

/-! ## The arithmetic -/

/-- The counter shows the ticks that have come. -/
def Exact (t₀ : Word) (ticks : Word) (passed : Nat) : Prop := ticks = t₀ + BitVec.ofNat 32 passed

/-- What holds of the variables from `ticks0 = ticks` on. -/
structure Wait.Ok (t₀ : Word) (w : Wait) : Prop where
  exact : Exact t₀ w.ticks0 w.began
  nonneg : 0 ≤ w.n.toInt

variable {t₀ v : Word} {w : Wait} {n : Nat}

theorem Exact.succ (h : Exact t₀ v n) : Exact t₀ (v + 1) (n + 1) := by
  unfold Exact at h ⊢
  rw [h, BitVec.add_assoc, BitVec.ofNat_add]
  rfl

/-- The difference of two counters is that of the ticks, as long as these are not too many. -/
theorem Exact.elapsed {v' : Word} {n' : Nat} (h : Exact t₀ v n) (h' : Exact t₀ v' n')
    (hle : n' ≤ n) (hlt : n < n' + 0x100000000) : (v - v').toNat = n - n' := by
  unfold Exact at h h'
  have hsplit : BitVec.ofNat 32 n = BitVec.ofNat 32 n' + BitVec.ofNat 32 (n - n') := by
    rw [← BitVec.ofNat_add, Nat.add_sub_cancel' hle]
  have hdiff : v - v' = BitVec.ofNat 32 (n - n') := by
    rw [h, h', hsplit, ← BitVec.add_assoc, BitVec.add_comm, BitVec.add_sub_cancel]
  rw [hdiff, BitVec.toNat_ofNat]
  exact Nat.mod_eq_of_lt (by omega)

/-- The loop goes on as long as the time is not over. -/
theorem Exact.late_iff (h : Exact t₀ v n) (hw : w.Ok t₀) (hle : w.began ≤ n)
    (hlt : n < w.began + 0x100000000) : v - w.ticks0 < w.n ↔ n < w.due := by
  have hdiff := h.elapsed hw.exact hle hlt
  have hn : (max w.n.toInt 0).toNat = w.n.toNat := by
    rw [Int.max_eq_left hw.nonneg]
    have hnonneg := hw.nonneg
    have hbound := w.n.isLt
    rw [BitVec.toInt_eq_toNat_cond] at hnonneg ⊢
    split
    · exact Int.toNat_natCast _
    · omega
  rw [BitVec.lt_def, hdiff]
  unfold Wait.due
  rw [hn]
  omega

/-! ## What is known where -/

/-- The thread holds `tickslock`. -/
def Pc.locked : Pc → Prop
  | .out => False
  | _ => True

/-- A result that is 0 is in time. -/
def InTime (x : Loc) : Prop := ∀ r, x.result = some r → r.value = 0 → r.wait.due ≤ r.ended

/-- What is known of the variables in the middle of a call. -/
def Pc.Says (t₀ : Word) (passed : Nat) : Pc → Prop
  | .enter n => 0 ≤ n.toInt
  | .test w => w.Ok t₀ ∧ w.began ≤ passed
  | .check w | .nap w => w.Ok t₀ ∧ w.began ≤ passed ∧ passed < w.due
  | .done w => w.due ≤ passed
  | _ => True

def outline (t₀ : Word) : Outline P Lock Addr Clock Loc where
  holds x _ := x.pc.locked
  knows _ x d := InTime x ∧ (x.pc.locked → Exact t₀ d.ticks d.passed) ∧ x.pc.Says t₀ d.passed
  waits _ _ y d := InTime y ∧ ∃ w, y.pc = .test w ∧ w.Ok t₀ ∧ w.began ≤ d.passed
  inv _ d := Exact t₀ d.ticks d.passed
  guard _ := .tickslock
  idle _ _ := True
  owes x ch := ch = ticksAddr ∧ (x.pc = .times ∨ x.pc = .wakeup)

/-- The reason to sleep: the time is not over. -/
def why (_p : P) (ch : Addr) (y : Loc) (d : Clock) : Prop :=
  ch = ticksAddr ∧ ∃ w, y.pc = .test w ∧ d.passed < w.due

/-! ## The outline fits -/

/-- The operations of the code, one by one. -/
inductive Next (x : Loc) (d : Clock) (killed : Bool) : Call → Op Lock Addr Clock Loc → Prop
  | sleep {n : Word} (hpc : x.pc = .out) :
      Next x d killed (.sleep (some n)) (.acquire .tickslock { pc := .enter n, result := none })
  | noArg (hpc : x.pc = .out) :
      Next x d killed (.sleep none) (.store d { pc := .out, result := none })
  | interrupt (hpc : x.pc = .out) :
      Next x d killed .tick (.acquire .tickslock { x with pc := .tick })
  | otherWakeup {ch : Addr} (hpc : x.pc = .out) : Next x d killed (.wakeup ch) (.wakeup ch x)
  | sysUptime (hpc : x.pc = .out) :
      Next x d killed .uptime (.acquire .tickslock { x with pc := .uptime })
  | enter {c : Call} {n : Word} (hpc : x.pc = .enter n) :
      Next x d killed c (.store d { x with pc := .test ⟨n, d.ticks, d.passed⟩ })
  | late {c : Call} {w : Wait} (hpc : x.pc = .test w) (hlt : d.ticks - w.ticks0 < w.n) :
      Next x d killed c (.store d { x with pc := .check w })
  | enough {c : Call} {w : Wait} (hpc : x.pc = .test w) (hlt : ¬ d.ticks - w.ticks0 < w.n) :
      Next x d killed c (.store d { x with pc := .done w })
  | killed {c : Call} {w : Wait} (hpc : x.pc = .check w) (hkilled : killed = true) :
      Next x d killed c (.store d { x with pc := .fail w })
  | alive {c : Call} {w : Wait} (hpc : x.pc = .check w) :
      Next x d killed c (.store d { x with pc := .nap w })
  | nap {c : Call} {w : Wait} (hpc : x.pc = .nap w) :
      Next x d killed c (.sleep ticksAddr .tickslock { x with pc := .test w })
  | fail {c : Call} {w : Wait} (hpc : x.pc = .fail w) :
      Next x d killed c
        (.release .tickslock { pc := .out, result := some ⟨w, -1, d.passed⟩ })
  | done {c : Call} {w : Wait} (hpc : x.pc = .done w) :
      Next x d killed c
        (.release .tickslock { pc := .out, result := some ⟨w, 0, d.passed⟩ })
  | tick {c : Call} (hpc : x.pc = .tick) :
      Next x d killed c
        (.store { ticks := d.ticks + 1, passed := d.passed + 1 } { x with pc := .times })
  | times {c : Call} (hpc : x.pc = .times) :
      Next x d killed c (.store d { x with pc := .wakeup })
  | wakeup {c : Call} (hpc : x.pc = .wakeup) :
      Next x d killed c (.wakeup ticksAddr { x with pc := .ticked })
  | ticked {c : Call} (hpc : x.pc = .ticked ∨ x.pc = .uptime) :
      Next x d killed c (.release .tickslock { x with pc := .out })

theorem Next.of_code {p : P} {x : Loc} {c : Call} {d : Clock} {killed : Bool}
    {op : Op Lock Addr Clock Loc} (h : code p x c d killed = some op) : Next x d killed c op := by
  unfold code at h
  split at h
  next hpc =>
    split at h
    · cases h
      exact .sleep hpc
    · cases h
      exact .noArg hpc
    · cases h
      exact .interrupt hpc
    · cases h
      exact .otherWakeup hpc
    · cases h
      exact .sysUptime hpc
  next n hpc =>
    cases h
    exact .enter hpc
  next w hpc =>
    split at h
    next hlt =>
      cases h
      exact .late hpc hlt
    next hlt =>
      cases h
      exact .enough hpc hlt
  next w hpc =>
    split at h
    next hkilled =>
      cases h
      exact .killed hpc hkilled
    next =>
      cases h
      exact .alive hpc
  next w hpc =>
    cases h
    exact .nap hpc
  next w hpc =>
    cases h
    exact .fail hpc
  next w hpc =>
    cases h
    exact .done hpc
  next hpc =>
    cases h
    exact .tick hpc
  next hpc =>
    cases h
    exact .times hpc
  next hpc =>
    cases h
    exact .wakeup hpc
  next hpc =>
    cases h
    exact .ticked (.inl hpc)
  next hpc =>
    cases h
    exact .ticked (.inr hpc)

section Valid

variable {s : State P Lock Addr Clock Loc} {p q : P} {x y z : Loc} {d : Clock}
  {op : Op Lock Addr Clock Loc}

/-- The next operation of a thread in a careful run. -/
theorem next_of_turn (h : Turn (outline t₀) code Careful s p x op) :
    ∃ c, Next x s.data (s.killed p) c op ∧ x.pc.Careful s.data.passed c := by
  obtain ⟨c, hcode, hcare⟩ := h.next
  refine ⟨c, Next.of_code hcode, ?_⟩
  have hcare : (s.ctl p).loc.pc.Careful s.data.passed c := hcare
  rw [h.ctl] at hcare
  exact hcare

/-- A store leaves the counter alone, or is the tick. -/
theorem Next.store {d' : Clock} {killed : Bool} {c : Call}
    (h : Next x d killed c (.store d' y)) :
    d' = d ∨ x.pc = .tick ∧ y.pc = .times ∧ d' = ⟨d.ticks + 1, d.passed + 1⟩ := by
  cases h with
  | tick hpc => exact .inr ⟨hpc, rfl, rfl⟩
  | _ => exact .inl rfl

theorem Pc.eq_out {pc : Pc} (h : ¬ pc.locked) : pc = .out := by
  cases pc with
  | out => rfl
  | _ => exact absurd trivial h

/-- A thread that is neither at `increment_times()` nor at `wakeup(&ticks)` owes nothing. -/
theorem not_owes {pc : Pc} {ch : Addr} (hpc : x.pc = pc) (htimes : pc ≠ .times)
    (hwakeup : pc ≠ .wakeup) : ¬ (outline (P := P) t₀).owes x ch := by
  rintro ⟨-, h | h⟩
  · exact htimes (hpc.symm.trans h)
  · exact hwakeup (hpc.symm.trans h)

/-- There is only one lock. -/
theorem eq_tickslock (l : Lock) : l = .tickslock := by
  cases l
  rfl

/-- A store with `tickslock` held. -/
theorem store_locked {d' : Clock} (hx : x.pc.locked) (hy : y.pc.locked) (htime : InTime y)
    (hexact : Exact t₀ d'.ticks d'.passed) (hfacts : y.pc.Says t₀ d'.passed)
    (howes : ∀ ch, (outline (P := P) t₀).owes x ch → (outline (P := P) t₀).owes y ch) :
    (outline t₀).knows p y d' ∧
      (∀ l, (outline (P := P) t₀).holds y l ↔ (outline (P := P) t₀).holds x l) ∧
      (∀ ch, (outline (P := P) t₀).owes x ch → (outline (P := P) t₀).owes y ch) ∧
      (∀ l, ¬ (outline (P := P) t₀).holds x l → (outline (P := P) t₀).inv l d →
        (outline (P := P) t₀).inv l d') ∧
      ∀ ch, (outline (P := P) t₀).idle ch d → (outline (P := P) t₀).idle ch d' ∨
        (outline (P := P) t₀).holds x ((outline (P := P) t₀).guard ch) ∧
          (outline (P := P) t₀).owes y ch :=
  ⟨⟨htime, fun _ => hexact, hfacts⟩, fun _ => iff_of_true hy hx, howes,
    fun _ hnot => absurd hx hnot, fun _ _ => .inl trivial⟩

theorem valid (t₀ : Word) : (outline (P := P) t₀).Valid code Careful where
  acquire := by
    intro s p x l y hturn hinv
    obtain ⟨htime, -, -⟩ := hturn.knows
    obtain ⟨c, hnext, hcare⟩ := next_of_turn hturn
    cases hnext with
    | sleep hpc =>
        rw [hpc] at hcare
        exact ⟨⟨fun r hr => (by cases hr), fun _ => hinv, hcare⟩,
          fun l' => iff_of_true trivial (.inr (eq_tickslock l')),
          fun ch howes => absurd howes (not_owes hpc nofun nofun)⟩
    | interrupt hpc | sysUptime hpc =>
        exact ⟨⟨htime, fun _ => hinv, trivial⟩,
          fun l' => iff_of_true trivial (.inr (eq_tickslock l')),
          fun ch howes => absurd howes (not_owes hpc nofun nofun)⟩
  release := by
    intro s p x l y hturn
    obtain ⟨htime, hexact, hfacts⟩ := hturn.knows
    obtain ⟨c, hnext, -⟩ := next_of_turn hturn
    cases hnext with
    | fail hpc =>
        rw [hpc] at hexact
        have hnone : ∀ ch, ¬ (outline (P := P) t₀).owes x ch := fun ch => not_owes hpc nofun nofun
        refine ⟨⟨?_, fun h => absurd h id, trivial⟩, hexact trivial,
          fun l' => iff_of_false id fun h => h.2 (eq_tickslock l'),
          fun ch howes => absurd howes (hnone ch), fun ch howes => absurd howes (hnone ch)⟩
        intro r hr hzero
        cases hr
        cases hzero
    | done hpc =>
        rw [hpc] at hexact hfacts
        have hnone : ∀ ch, ¬ (outline (P := P) t₀).owes x ch := fun ch => not_owes hpc nofun nofun
        refine ⟨⟨?_, fun h => absurd h id, trivial⟩, hexact trivial,
          fun l' => iff_of_false id fun h => h.2 (eq_tickslock l'),
          fun ch howes => absurd howes (hnone ch), fun ch howes => absurd howes (hnone ch)⟩
        intro r hr _
        cases hr
        exact hfacts
    | ticked hpc =>
        have hlocked : x.pc.locked := by
          rcases hpc with hpc | hpc
          · rw [hpc]
            trivial
          · rw [hpc]
            trivial
        have hnone : ∀ ch, ¬ (outline (P := P) t₀).owes x ch := by
          intro ch
          rcases hpc with hpc | hpc
          · exact not_owes hpc nofun nofun
          · exact not_owes hpc nofun nofun
        exact ⟨⟨htime, fun h => absurd h id, trivial⟩, hexact hlocked,
          fun l' => iff_of_false id fun h => h.2 (eq_tickslock l'),
          fun ch howes => absurd howes (hnone ch), fun ch howes => absurd howes (hnone ch)⟩
  wakeup := by
    intro s p x ch y hturn
    have hknows := hturn.knows
    obtain ⟨c, hnext, -⟩ := next_of_turn hturn
    cases hnext with
    | otherWakeup hpc =>
        exact ⟨hknows, fun _ => Iff.rfl, fun ch' _ howes => howes⟩
    | wakeup hpc =>
        obtain ⟨htime, hexact, -⟩ := hknows
        rw [hpc] at hexact
        refine ⟨⟨htime, hexact, trivial⟩, ?_, fun ch' hne howes => absurd howes.1 hne⟩
        intro l
        show True ↔ x.pc.locked
        rw [hpc]
        rfl
  sleep := by
    intro s p x ch l y hturn
    obtain ⟨htime, hexact, hfacts⟩ := hturn.knows
    obtain ⟨c, hnext, -⟩ := next_of_turn hturn
    cases hnext with
    | @nap c w hpc =>
        rw [hpc] at hexact hfacts
        refine ⟨rfl, fun l' => iff_of_true ?_ (eq_tickslock l'),
          fun l' => iff_of_true trivial (eq_tickslock l'), hexact trivial, trivial,
          ⟨htime, w, rfl, hfacts.1, hfacts.2.1⟩, fun ch' => not_owes hpc nofun nofun⟩
        show x.pc.locked
        rw [hpc]
        trivial
  regain := by
    rintro p l y d ⟨htime, w, hpc, hw, hle⟩ hinv
    refine ⟨htime, fun _ => hinv, ?_⟩
    rw [hpc]
    exact ⟨hw, hle⟩
  store := by
    intro s p x d y hturn
    obtain ⟨htime, hexact, hfacts⟩ := hturn.knows
    obtain ⟨c, hnext, hcare⟩ := next_of_turn hturn
    -- no operation but `increment_times()` and `wakeup(&ticks)` owes a wakeup
    have hnone : ∀ {pc : Pc}, x.pc = pc → pc ≠ .times → pc ≠ .wakeup → ∀ ch,
        (outline (P := P) t₀).owes x ch → (outline (P := P) t₀).owes y ch :=
      fun hpc htimes hwakeup ch howes => absurd howes (not_owes hpc htimes hwakeup)
    cases hnext with
    | noArg hpc =>
        refine ⟨⟨fun r hr => (by cases hr), fun h => absurd h id, trivial⟩, ?_,
          hnone hpc nofun nofun, fun _ _ hinv => hinv, fun _ _ => .inl trivial⟩
        intro l
        show False ↔ x.pc.locked
        rw [hpc]
        rfl
    | enter hpc =>
        rw [hpc] at hexact hfacts
        exact store_locked (by rw [hpc]; trivial) trivial htime (hexact trivial)
          ⟨⟨hexact trivial, hfacts⟩, Nat.le_refl _⟩ (hnone hpc nofun nofun)
    | late hpc hlt =>
        rw [hpc] at hexact hfacts hcare
        have hdue := ((hexact trivial).late_iff hfacts.1 hfacts.2 hcare).mp hlt
        exact store_locked (by rw [hpc]; trivial) trivial htime (hexact trivial)
          ⟨hfacts.1, hfacts.2, hdue⟩ (hnone hpc nofun nofun)
    | enough hpc hlt =>
        rw [hpc] at hexact hfacts hcare
        have hdue := mt ((hexact trivial).late_iff hfacts.1 hfacts.2 hcare).mpr hlt
        exact store_locked (by rw [hpc]; trivial) trivial htime (hexact trivial)
          (Nat.le_of_not_lt hdue) (hnone hpc nofun nofun)
    | killed hpc _ =>
        rw [hpc] at hexact
        exact store_locked (by rw [hpc]; trivial) trivial htime (hexact trivial) trivial
          (hnone hpc nofun nofun)
    | alive hpc =>
        rw [hpc] at hexact hfacts
        exact store_locked (by rw [hpc]; trivial) trivial htime (hexact trivial) hfacts
          (hnone hpc nofun nofun)
    | tick hpc =>
        rw [hpc] at hexact
        exact store_locked (by rw [hpc]; trivial) trivial htime (hexact trivial).succ trivial
          (hnone hpc nofun nofun)
    | times hpc =>
        rw [hpc] at hexact
        exact store_locked (by rw [hpc]; trivial) trivial htime (hexact trivial) trivial
          fun ch howes => ⟨howes.1, .inr rfl⟩
  others := by
    intro s p q x d y z hturn _ hapart hz
    obtain ⟨c, hnext, -⟩ := next_of_turn hturn
    rcases hnext.store with hsame | ⟨hpc, -, -⟩
    · rw [hsame]
      exact hz
    · have hout : z.pc = .out := by
        apply Pc.eq_out
        apply hapart .tickslock
        show x.pc.locked
        rw [hpc]
        trivial
      refine ⟨hz.1, ?_, ?_⟩
      · rw [hout]
        exact fun h => absurd h id
      · rw [hout]
        trivial
  waiting := by
    intro s p q x d y l z hturn _ hz
    obtain ⟨htime, w, hpc, hw, hle⟩ := hz
    obtain ⟨c, hnext, -⟩ := next_of_turn hturn
    refine ⟨htime, w, hpc, hw, ?_⟩
    rcases hnext.store with hsame | ⟨-, -, hd⟩
    · rw [hsame]
      exact hle
    · rw [hd]
      exact Nat.le_succ_of_le hle

theorem reasons (t₀ : Word) : (outline (P := P) t₀).Reasons code Careful why where
  sleep := by
    intro s p x ch l y hturn
    obtain ⟨-, -, hfacts⟩ := hturn.knows
    obtain ⟨c, hnext, -⟩ := next_of_turn hturn
    cases hnext with
    | @nap c w hpc =>
        rw [hpc] at hfacts
        exact ⟨rfl, w, rfl, hfacts.2.2⟩
  store := by
    intro s p q x d y ch z hturn hwhy
    obtain ⟨c, hnext, -⟩ := next_of_turn hturn
    rcases hnext.store with hsame | ⟨-, hpc, -⟩
    · rw [hsame]
      exact .inl hwhy
    · refine .inr ⟨?_, hwhy.1, .inl hpc⟩
      show y.pc.locked
      rw [hpc]
      trivial

end Valid

/-! ## Every run -/

section Runs

variable {P : Type} [DecidableEq P] {s : State P Lock Addr Clock Loc}

/-- `-1` is on its way, or has been returned. -/
def Failing (x : Loc) : Prop :=
  (∃ w, x.pc = .fail w) ∨ ∃ r, x.result = some r ∧ r.value = -1

omit [DecidableEq P] in
theorem failing_of_code (p : P) (x : Loc) (c : Call) (d : Clock) (k : Bool)
    (op : Op Lock Addr Clock Loc) (h : code p x c d k = some op) (hfail : Failing op.next) :
    Failing x ∨ k = true := by
  have hkeep : ∀ pc, (∀ w, pc ≠ .fail w) → Failing { x with pc := pc } → Failing x := by
    intro pc hpc hf
    rcases hf with ⟨w, hw⟩ | hr
    · exact absurd hw (hpc w)
    · exact .inr hr
  have hreset : ∀ pc, (∀ w, pc ≠ .fail w) → ¬ Failing { pc := pc, result := none } := by
    intro pc hpc hf
    rcases hf with ⟨w, hw⟩ | ⟨r, hr, -⟩
    · exact hpc w hw
    · cases hr
  cases Next.of_code h with
  | sleep | noArg => exact absurd hfail (hreset _ nofun)
  | killed _ hkilled => exact .inr hkilled
  | @fail c w hpc => exact .inl (.inl ⟨w, hpc⟩)
  | @done c w hpc =>
      rcases hfail with ⟨v, hv⟩ | ⟨r, hr, hvalue⟩
      · cases hv
      · cases hr
        cases hvalue
  | otherWakeup => exact .inl hfail
  | _ => exact .inl (hkeep _ (fun w hw => by cases hw) hfail)

theorem good_and_awaited (h : (sleepers (P := P) t₀).ReachableWhen Careful s) :
    (outline t₀).Good s ∧ (outline t₀).Awaited why s := by
  have hknows : ∀ p : P, (outline t₀).knows p { pc := .out, result := none } ⟨t₀, 0⟩ :=
    fun p => ⟨fun r hr => (by cases hr), fun h => absurd h id, trivial⟩
  have hinv : ∀ l, (outline (P := P) t₀).inv l ⟨t₀, 0⟩ := fun _ => (BitVec.add_zero t₀).symm
  exact ⟨(valid t₀).good hknows (fun _ _ h => h) hinv h,
    (reasons t₀).awaited (valid t₀) hknows (fun _ _ h => h) hinv h⟩

/-- **`sys_sleep` waits the right time** in every run in which `n` is not negative and the
condition is evaluated in time. -/
theorem careful_sleep (P : Type) [DecidableEq P] (t₀ : Word) (s : State P Lock Addr Clock Loc)
    (h : (sleepers t₀).ReachableWhen Careful s) : SleepsRight s := by
  obtain ⟨hgood, hawaited⟩ := good_and_awaited h
  constructor
  · intro p r hr hzero
    rcases (s.ctl p).run_or_waiting with hrun | ⟨l, hwait⟩
    · exact (hgood.knows p _ hrun).1 r hr hzero
    · exact (hgood.waits p l _ hwait).1.1 r hr hzero
  · intro p r hr hfail
    have hstart : ∀ p : P, ¬ Failing { pc := .out, result := none } := by
      rintro p (⟨w, hw⟩ | ⟨r, hr, -⟩)
      · cases hw
      · cases hr
    exact killed_of_loc hstart failing_of_code h p (.inr ⟨r, hr, hfail⟩)
  · intro p ch l y hasleep hfree
    have hwhy := hawaited.reason hgood hfree
      (show (s.ctl p).bed = some (ch, y) by rw [hasleep]; rfl)
    exact hwhy.2

/-- `p` sleeps for one tick, and `q` has the timer interrupt. -/
def oneTick (p q : P) : List (Act P Call) :=
  List.flatten [List.replicate 5 (.run p (.sleep (some 1))), [.go p, .go p, .switch p],
    List.replicate 5 (.run q .tick), [.go p, .go p, .go p],
    List.replicate 2 (.run p (.sleep (some 1)))]

/-- The counter wraps meanwhile. -/
theorem careful_sleep_oneTick : ∃ s : State (Fin 2) Lock Addr Clock Loc,
    (s.ctl 0).loc.result = some ⟨⟨1, 0xFFFFFFFF, 0⟩, 0, 1⟩ ∧ SleepsRight s := by
  obtain ⟨s, hs, htest⟩ := System.exists_reachableWhen_of_run
    (M := sleepers (P := Fin 2) 0xFFFFFFFF) Careful (l := oneTick 0 1)
    (p := fun s => decide ((s.ctl 0).loc.result = some ⟨⟨1, 0xFFFFFFFF, 0⟩, 0, 1⟩)) rfl
    (by decide)
  exact ⟨s, of_decide_eq_true htest, careful_sleep (Fin 2) 0xFFFFFFFF s hs⟩

/-- `sleep(-1)` sleeps. -/
theorem not_all_sleep : ¬ ∀ (P : Type) (_ : DecidableEq P) (t₀ : Word)
    (s : State P Lock Addr Clock Loc), (sleepers t₀).Reachable s → SleepsRight s := by
  intro hall
  have hrun : ∃ s, (sleepers (P := Fin 1) 0).runWhen (fun _ _ => True)
      ⟨⟨0, 0⟩, fun _ => none, none, fun _ => .run ⟨.out, none⟩, fun _ => false⟩
      (List.replicate 5 (.run 0 (.sleep (some (-1)))) ++ [.go 0, .go 0, .switch 0]) = some s ∧
        s.ctl 0 = .asleep ticksAddr .tickslock ⟨.test ⟨-1, 0, 0⟩, none⟩ ∧
        s.holder .tickslock = none ∧ s.data.passed = 0 := ⟨_, rfl, rfl, rfl, rfl⟩
  obtain ⟨s, hrun, hasleep, hfree, hpassed⟩ := hrun
  have hs := System.reachableWhen_of_run (M := sleepers (P := Fin 1) 0) rfl hrun
  obtain ⟨w, hw, hlt⟩ := (hall (Fin 1) _ 0 s hs).asleep 0 _ _ _ hasleep hfree
  cases hw
  rw [hpassed] at hlt
  exact absurd hlt (by decide)

end Runs

end OsWork.Ports.SysSleep

import OsWork.Verified.Transition
import Mathlib.Logic.Function.Basic

/-!
# Monitors with `sleep` and `wakeup`

Threads share data under spin locks and wait for each other on *channels*:
`sleep ch l` gives the lock `l` up, sleeps until somebody wakes the channel `ch`,
and takes `l` again; `wakeup ch` wakes all that sleep on `ch`.  A lock of its
own, the *table lock*, covers the states of the threads.  `sleep` takes it before
it gives `l` up, so that no `wakeup` falls between the two, and leaves it to the
scheduler; a thread that is resumed has it back.  A thread may also be killed,
which wakes it from any channel.

A thread is a program over locations: the code knows, from the location and the
data, which operation comes next.  Threads that are ready run in any order.

An `Outline` annotates the locations with what a thread knows of the data there,
and with the channels it has yet to wake.  When the annotations fit the code
(`Outline.Valid`) they hold in every state reached, and no wakeup is lost.

## Main results

* `Outline.Valid.good` — the annotations hold in every state reached.
* `Outline.Good.reason` — while the lock of a channel is free, those who sleep on
  the channel have reason to.
* `Outline.Awaited.reason` — the same for reasons that differ from sleeper to sleeper.
* `killed_of_loc` — where only killed threads get.
-/

namespace OsWork.Verified.Monitor

open OsWork.Verified.Transition
open Function (update)

universe u

/-- What a thread does next, and where it goes on. -/
inductive Op (Λ Ch D Loc : Type u)
  | acquire (l : Λ) (next : Loc)
  | release (l : Λ) (next : Loc)
  | wakeup (ch : Ch) (next : Loc)
  | sleep (ch : Ch) (l : Λ) (next : Loc)
  | store (d : D) (next : Loc)

/-- Where a thread stands. -/
inductive Ctl (Λ Ch Loc : Type u)
  | run (x : Loc)
  /-- in `sleep`, with the table lock and `l` -/
  | swap (ch : Ch) (l : Λ) (next : Loc)
  /-- in `sleep`, with the table lock; `l` is given up -/
  | drowsy (ch : Ch) (l : Λ) (next : Loc)
  | asleep (ch : Ch) (l : Λ) (next : Loc)
  /-- woken, and not resumed yet -/
  | woken (l : Λ) (next : Loc)
  /-- resumed in `sleep`, with the table lock -/
  | resumed (l : Λ) (next : Loc)
  /-- in `sleep`, at the acquire of `l` -/
  | regain (l : Λ) (next : Loc)

structure State (P Λ Ch D Loc : Type u) where
  data : D
  holder : Λ → Option P
  /-- the thread that holds the table lock, or has left it to the scheduler -/
  table : Option P
  ctl : P → Ctl Λ Ch Loc
  killed : P → Bool

/-- Who takes the next step. -/
inductive Act (P In : Type u)
  /-- the next operation of the code -/
  | run (p : P) (i : In)
  /-- a thread goes on in `sleep` -/
  | go (p : P)
  /-- the scheduler that `p` has left the table lock to releases it -/
  | switch (p : P)
  | kill (p : P)

variable {P Λ Ch D Loc In : Type u}

/-- The next operation at a location, for an input, the data and the killed flag;
`none` when the thread cannot go on. -/
abbrev Code (P Λ Ch D Loc In : Type u) := P → Loc → In → D → Bool → Option (Op Λ Ch D Loc)

namespace State

variable (s : State P Λ Ch D Loc)

/-- The thread sleeps on the channel, or is about to. -/
def Sleeps (p : P) (ch : Ch) : Prop :=
  ∃ l x, s.ctl p = .drowsy ch l x ∨ s.ctl p = .asleep ch l x

/-- What `wakeup ch` does to a thread. -/
def wake [DecidableEq Ch] (ch : Ch) (k : Ctl Λ Ch Loc) : Ctl Λ Ch Loc :=
  match k with
  | .asleep ch' l x => if ch' = ch then .woken l x else k
  | _ => k

theorem wake_ne_asleep [DecidableEq Ch] {ch : Ch} {l : Λ} {x : Loc} {k : Ctl Λ Ch Loc} :
    wake ch k ≠ .asleep ch l x := by
  intro h
  cases k with
  | asleep ch' l' x' =>
      by_cases hch : ch' = ch
      · rw [show wake ch (.asleep ch' l' x') = .woken l' x' from if_pos hch] at h
        cases h
      · rw [show wake ch (.asleep ch' l' x') = .asleep ch' l' x' from if_neg hch] at h
        cases h
        exact hch rfl
  | _ => cases h

theorem wake_eq_drowsy [DecidableEq Ch] {ch ch' : Ch} {l : Λ} {x : Loc} {k : Ctl Λ Ch Loc}
    (h : wake ch k = .drowsy ch' l x) : k = .drowsy ch' l x := by
  cases k with
  | asleep ch'' l' x' =>
      simp only [wake] at h
      split at h
      · cases h
      · cases h
  | _ => exact h

/-- What `kill` does to the victim. -/
def rouse (k : Ctl Λ Ch Loc) : Ctl Λ Ch Loc :=
  match k with
  | .asleep _ l x => .woken l x
  | _ => k

end State

section Step

variable [DecidableEq P] [DecidableEq Λ] [DecidableEq Ch]

/-- One operation of the thread `p`. -/
def perform (s : State P Λ Ch D Loc) (p : P) : Op Λ Ch D Loc → Option (State P Λ Ch D Loc)
  | .acquire l y =>
      if s.holder l = none then
        some { s with holder := update s.holder l (some p), ctl := update s.ctl p (.run y) }
      else none
  | .release l y =>
      if s.holder l = some p then
        some { s with holder := update s.holder l none, ctl := update s.ctl p (.run y) }
      else none
  | .wakeup ch y =>
      if s.table = none then
        some { s with ctl := update (fun q => State.wake ch (s.ctl q)) p (.run y) }
      else none
  | .sleep ch l y =>
      if s.table = none then
        some { s with table := some p, ctl := update s.ctl p (.swap ch l y) }
      else none
  | .store d y => some { s with data := d, ctl := update s.ctl p (.run y) }

/-- The thread `p` goes on in `sleep`. -/
def goOn (s : State P Λ Ch D Loc) (p : P) : Option (State P Λ Ch D Loc) :=
  match s.ctl p with
  | .run _ => none
  | .swap ch l y =>
      if s.holder l = some p then
        some { s with holder := update s.holder l none, ctl := update s.ctl p (.drowsy ch l y) }
      else none
  | .drowsy ch l y => some { s with ctl := update s.ctl p (.asleep ch l y) }
  | .asleep _ _ _ => none
  | .woken l y =>
      if s.table = none then
        some { s with table := some p, ctl := update s.ctl p (.resumed l y) }
      else none
  | .resumed l y => some { s with table := none, ctl := update s.ctl p (.regain l y) }
  | .regain l y =>
      if s.holder l = none then
        some { s with holder := update s.holder l (some p), ctl := update s.ctl p (.run y) }
      else none

def step (code : Code P Λ Ch D Loc In) (s : State P Λ Ch D Loc) :
    Act P In → Option (State P Λ Ch D Loc)
  | .run p i =>
      match s.ctl p with
      | .run x =>
          match code p x i s.data (s.killed p) with
          | some op => perform s p op
          | none => none
      | _ => none
  | .go p => goOn s p
  | .switch p =>
      match s.ctl p with
      | .asleep _ _ _ => if s.table = some p then some { s with table := none } else none
      | _ => none
  | .kill p =>
      if s.table = none then
        some
          { s with
            killed := update s.killed p true
            ctl := update s.ctl p (State.rouse (s.ctl p)) }
      else none

/-- The threads from the location `start` on, with the data `d`. -/
def monitor (code : Code P Λ Ch D Loc In) (start : P → Loc) (d : D) :
    System (State P Λ Ch D Loc) (Act P In) where
  init s := s =
    { data := d
      holder := fun _ => none
      table := none
      ctl := fun p => .run (start p)
      killed := fun _ => false }
  step := step code

/-- The steps one by one. -/
inductive Move (code : Code P Λ Ch D Loc In) (s : State P Λ Ch D Loc) :
    Act P In → State P Λ Ch D Loc → Prop
  | acquire {p : P} {i : In} {x y : Loc} {l : Λ} (hctl : s.ctl p = .run x)
      (hcode : code p x i s.data (s.killed p) = some (.acquire l y)) (hfree : s.holder l = none) :
      Move code s (.run p i)
        { s with holder := update s.holder l (some p), ctl := update s.ctl p (.run y) }
  | release {p : P} {i : In} {x y : Loc} {l : Λ} (hctl : s.ctl p = .run x)
      (hcode : code p x i s.data (s.killed p) = some (.release l y))
      (hheld : s.holder l = some p) :
      Move code s (.run p i)
        { s with holder := update s.holder l none, ctl := update s.ctl p (.run y) }
  | wakeup {p : P} {i : In} {x y : Loc} {ch : Ch} (hctl : s.ctl p = .run x)
      (hcode : code p x i s.data (s.killed p) = some (.wakeup ch y)) (htable : s.table = none) :
      Move code s (.run p i)
        { s with ctl := update (fun q => State.wake ch (s.ctl q)) p (.run y) }
  | sleep {p : P} {i : In} {x y : Loc} {ch : Ch} {l : Λ} (hctl : s.ctl p = .run x)
      (hcode : code p x i s.data (s.killed p) = some (.sleep ch l y)) (htable : s.table = none) :
      Move code s (.run p i) { s with table := some p, ctl := update s.ctl p (.swap ch l y) }
  | store {p : P} {i : In} {x y : Loc} {d : D} (hctl : s.ctl p = .run x)
      (hcode : code p x i s.data (s.killed p) = some (.store d y)) :
      Move code s (.run p i) { s with data := d, ctl := update s.ctl p (.run y) }
  | swap {p : P} {ch : Ch} {l : Λ} {y : Loc} (hctl : s.ctl p = .swap ch l y)
      (hheld : s.holder l = some p) :
      Move code s (.go p)
        { s with holder := update s.holder l none, ctl := update s.ctl p (.drowsy ch l y) }
  | drowsy {p : P} {ch : Ch} {l : Λ} {y : Loc} (hctl : s.ctl p = .drowsy ch l y) :
      Move code s (.go p) { s with ctl := update s.ctl p (.asleep ch l y) }
  | woken {p : P} {l : Λ} {y : Loc} (hctl : s.ctl p = .woken l y) (htable : s.table = none) :
      Move code s (.go p) { s with table := some p, ctl := update s.ctl p (.resumed l y) }
  | resumed {p : P} {l : Λ} {y : Loc} (hctl : s.ctl p = .resumed l y) :
      Move code s (.go p) { s with table := none, ctl := update s.ctl p (.regain l y) }
  | regain {p : P} {l : Λ} {y : Loc} (hctl : s.ctl p = .regain l y)
      (hfree : s.holder l = none) :
      Move code s (.go p)
        { s with holder := update s.holder l (some p), ctl := update s.ctl p (.run y) }
  | switch {p : P} {ch : Ch} {l : Λ} {y : Loc} (hctl : s.ctl p = .asleep ch l y)
      (htable : s.table = some p) : Move code s (.switch p) { s with table := none }
  | kill {p : P} (htable : s.table = none) :
      Move code s (.kill p)
        { s with
          killed := update s.killed p true
          ctl := update s.ctl p (State.rouse (s.ctl p)) }

theorem Move.of_step {code : Code P Λ Ch D Loc In} {s t : State P Λ Ch D Loc} {a : Act P In}
    (h : step code s a = some t) : Move code s a t := by
  cases a with
  | run p i =>
      simp only [step] at h
      split at h
      · rename_i x hctl
        split at h
        · rename_i op hcode
          cases op with
          | acquire l y =>
              simp only [perform] at h
              split at h
              · rename_i hfree
                obtain rfl := Option.some.inj h
                exact .acquire hctl hcode hfree
              · cases h
          | release l y =>
              simp only [perform] at h
              split at h
              · rename_i hheld
                obtain rfl := Option.some.inj h
                exact .release hctl hcode hheld
              · cases h
          | wakeup ch y =>
              simp only [perform] at h
              split at h
              · rename_i htable
                obtain rfl := Option.some.inj h
                exact .wakeup hctl hcode htable
              · cases h
          | sleep ch l y =>
              simp only [perform] at h
              split at h
              · rename_i htable
                obtain rfl := Option.some.inj h
                exact .sleep hctl hcode htable
              · cases h
          | store d y =>
              simp only [perform] at h
              obtain rfl := Option.some.inj h
              exact .store hctl hcode
        · cases h
      · cases h
  | go p =>
      simp only [step, goOn] at h
      split at h
      · cases h
      · rename_i ch l y hctl
        split at h
        · rename_i hheld
          obtain rfl := Option.some.inj h
          exact .swap hctl hheld
        · cases h
      · rename_i ch l y hctl
        obtain rfl := Option.some.inj h
        exact .drowsy hctl
      · cases h
      · rename_i l y hctl
        split at h
        · rename_i htable
          obtain rfl := Option.some.inj h
          exact .woken hctl htable
        · cases h
      · rename_i l y hctl
        obtain rfl := Option.some.inj h
        exact .resumed hctl
      · rename_i l y hctl
        split at h
        · rename_i hfree
          obtain rfl := Option.some.inj h
          exact .regain hctl hfree
        · cases h
  | switch p =>
      simp only [step] at h
      split at h
      · rename_i ch l y hctl
        split at h
        · rename_i htable
          obtain rfl := Option.some.inj h
          exact .switch hctl htable
        · cases h
      · cases h
  | kill p =>
      simp only [step] at h
      split at h
      · rename_i htable
        obtain rfl := Option.some.inj h
        exact .kill htable
      · cases h

end Step

/-! ## Outlines -/

namespace Ctl

/-- The thread has the table lock. -/
def tabled : Ctl Λ Ch Loc → Prop
  | .swap _ _ _ | .drowsy _ _ _ | .resumed _ _ => True
  | _ => False

/-- In `sleep`: the lock to come back to, and the location after it. -/
def waiting : Ctl Λ Ch Loc → Option (Λ × Loc)
  | .run _ => none
  | .swap _ l y | .drowsy _ l y | .asleep _ l y | .woken l y | .resumed l y | .regain l y =>
      some (l, y)

/-- The location of the thread, or the one it goes on at after `sleep`. -/
def loc : Ctl Λ Ch Loc → Loc
  | .run x => x
  | .swap _ _ y | .drowsy _ _ y | .asleep _ _ y | .woken _ y | .resumed _ y | .regain _ y => y

/-- A thread runs, or waits in `sleep`. -/
theorem run_or_waiting (k : Ctl Λ Ch Loc) : k = .run k.loc ∨ ∃ l, k.waiting = some (l, k.loc) := by
  cases k with
  | run x => exact .inl rfl
  | _ => exact .inr ⟨_, rfl⟩

/-- The channel of a thread that has not been woken yet, and its lock. -/
def channel : Ctl Λ Ch Loc → Option (Ch × Λ)
  | .swap ch l _ | .drowsy ch l _ | .asleep ch l _ => some (ch, l)
  | _ => none

end Ctl

/-- An annotation of the locations. -/
structure Outline (P Λ Ch D Loc : Type u) where
  /-- the locks the thread holds -/
  holds : Loc → Λ → Prop
  /-- what the thread knows of the data -/
  knows : P → Loc → D → Prop
  /-- what it still knows while it waits for `l`, to go on at a location -/
  waits : P → Λ → Loc → D → Prop
  /-- what the data meets while a lock is free -/
  inv : Λ → D → Prop
  /-- the lock of a channel -/
  guard : Ch → Λ
  /-- there is reason to sleep on the channel -/
  idle : Ch → D → Prop
  /-- the thread will wake the channel before it gives the lock of the channel up -/
  owes : Loc → Ch → Prop

/-- The thread `p` is at `x`, where `op` comes next and is admitted. -/
structure Turn (O : Outline P Λ Ch D Loc) (code : Code P Λ Ch D Loc In)
    (ok : State P Λ Ch D Loc → Act P In → Prop) (s : State P Λ Ch D Loc) (p : P) (x : Loc)
    (op : Op Λ Ch D Loc) : Prop where
  ctl : s.ctl p = .run x
  next : ∃ i, code p x i s.data (s.killed p) = some op ∧ ok s (.run p i)
  knows : O.knows p x s.data

/-- The annotation fits the code, in the runs that `ok` admits. -/
structure Outline.Valid (O : Outline P Λ Ch D Loc) (code : Code P Λ Ch D Loc In)
    (ok : State P Λ Ch D Loc → Act P In → Prop) : Prop where
  acquire : ∀ {s p x l y}, Turn O code ok s p x (.acquire l y) → O.inv l s.data →
    O.knows p y s.data ∧ (∀ l', O.holds y l' ↔ O.holds x l' ∨ l' = l) ∧
      ∀ ch, O.owes x ch → O.owes y ch
  release : ∀ {s p x l y}, Turn O code ok s p x (.release l y) →
    O.knows p y s.data ∧ O.inv l s.data ∧ (∀ l', O.holds y l' ↔ O.holds x l' ∧ l' ≠ l) ∧
      (∀ ch, O.owes x ch → O.guard ch = l → ∀ q, ¬ s.Sleeps q ch) ∧
      ∀ ch, O.owes x ch → O.guard ch ≠ l → O.owes y ch
  wakeup : ∀ {s p x ch y}, Turn O code ok s p x (.wakeup ch y) →
    O.knows p y s.data ∧ (∀ l, O.holds y l ↔ O.holds x l) ∧
      ∀ ch', ch' ≠ ch → O.owes x ch' → O.owes y ch'
  sleep : ∀ {s p x ch l y}, Turn O code ok s p x (.sleep ch l y) →
    l = O.guard ch ∧ (∀ l', O.holds x l' ↔ l' = l) ∧ (∀ l', O.holds y l' ↔ l' = l) ∧
      O.inv l s.data ∧ O.idle ch s.data ∧ O.waits p l y s.data ∧ ∀ ch', ¬ O.owes x ch'
  regain : ∀ {p l y d}, O.waits p l y d → O.inv l d → O.knows p y d
  store : ∀ {s p x d y}, Turn O code ok s p x (.store d y) →
    O.knows p y d ∧ (∀ l, O.holds y l ↔ O.holds x l) ∧ (∀ ch, O.owes x ch → O.owes y ch) ∧
      (∀ l, ¬ O.holds x l → O.inv l s.data → O.inv l d) ∧
      ∀ ch, O.idle ch s.data → O.idle ch d ∨ O.holds x (O.guard ch) ∧ O.owes y ch
  others : ∀ {s p q x d y z}, Turn O code ok s p x (.store d y) → q ≠ p →
    (∀ l, O.holds x l → ¬ O.holds z l) → O.knows q z s.data → O.knows q z d
  waiting : ∀ {s p q x d y l z}, Turn O code ok s p x (.store d y) → q ≠ p →
    O.waits q l z s.data → O.waits q l z d

/-- The locks that a thread holds. -/
def Outline.holdsCtl (O : Outline P Λ Ch D Loc) : Ctl Λ Ch Loc → Λ → Prop
  | .run x => O.holds x
  | .swap _ l _ => fun l' => l' = l
  | _ => fun _ => False

/-- The annotation holds in a state. -/
structure Outline.Good (O : Outline P Λ Ch D Loc) (s : State P Λ Ch D Loc) : Prop where
  table : ∀ p, (s.ctl p).tabled → s.table = some p
  holds : ∀ p l, s.holder l = some p ↔ O.holdsCtl (s.ctl p) l
  knows : ∀ p x, s.ctl p = .run x → O.knows p x s.data
  waits : ∀ p l y, (s.ctl p).waiting = some (l, y) →
    O.waits p l y s.data ∧ ∀ l', O.holds y l' ↔ l' = l
  channel : ∀ p ch l, (s.ctl p).channel = some (ch, l) → l = O.guard ch
  swap : ∀ p ch l y, s.ctl p = .swap ch l y → O.inv l s.data ∧ O.idle ch s.data
  inv : ∀ l, s.holder l = none → O.inv l s.data
  idle : ∀ p ch, s.Sleeps p ch → O.idle ch s.data ∨
    ∃ q x, s.ctl q = .run x ∧ O.holds x (O.guard ch) ∧ O.owes x ch

section Good

variable {O : Outline P Λ Ch D Loc} {s t : State P Λ Ch D Loc} {p : P}

/-- Threads are woken, while nobody holds the table lock. -/
theorem Outline.Good.wake (h : O.Good s) (ht : t = { s with ctl := t.ctl, killed := t.killed })
    (hctl : ∀ q, t.ctl q = s.ctl q ∨
      ∃ ch l y, s.ctl q = .asleep ch l y ∧ t.ctl q = .woken l y) : O.Good t := by
  have hdata : t.data = s.data := by rw [ht]
  have hholder : t.holder = s.holder := by rw [ht]
  have htab : t.table = s.table := by rw [ht]
  have hrun : ∀ q x, t.ctl q = .run x ↔ s.ctl q = .run x := by
    intro q x
    rcases hctl q with heq | ⟨ch, l, y, hs, hw⟩
    · rw [heq]
    · rw [hs, hw]
      exact iff_of_false (fun heq => by cases heq) (fun heq => by cases heq)
  exact
    { table := by
        intro q hq
        rcases hctl q with heq | ⟨ch, l, y, -, hw⟩
        · rw [heq] at hq
          rw [htab]
          exact h.table q hq
        · rw [hw] at hq
          cases hq
      holds := by
        intro q l
        rw [hholder, h.holds]
        rcases hctl q with heq | ⟨ch, l', y, hs, hw⟩
        · rw [heq]
        · rw [hs, hw]
          rfl
      knows := by
        intro q x hq
        rw [hdata]
        exact h.knows q x ((hrun q x).mp hq)
      waits := by
        intro q l y hq
        rw [hdata]
        apply h.waits
        rcases hctl q with heq | ⟨ch, l', y', hs, hw⟩
        · rw [← heq]
          exact hq
        · rw [hs]
          rw [hw] at hq
          exact hq
      channel := by
        intro q ch l hq
        rcases hctl q with heq | ⟨ch', l', y, -, hw⟩
        · rw [heq] at hq
          exact h.channel q ch l hq
        · rw [hw] at hq
          cases hq
      swap := by
        intro q ch l y hq
        rw [hdata]
        rcases hctl q with heq | ⟨ch', l', y', -, hw⟩
        · rw [heq] at hq
          exact h.swap q ch l y hq
        · rw [hw] at hq
          cases hq
      inv := by
        intro l hl
        rw [hholder] at hl
        rw [hdata]
        exact h.inv l hl
      idle := by
        rintro q ch ⟨l, y, hq⟩
        rw [hdata]
        have hsleeps : s.Sleeps q ch := by
          rcases hctl q with heq | ⟨ch', l', y', -, hw⟩
          · rw [heq] at hq
            exact ⟨l, y, hq⟩
          · rw [hw] at hq
            rcases hq with hq | hq
            · cases hq
            · cases hq
        rcases h.idle q ch hsleeps with hidle | ⟨r, x, hr, hx⟩
        · exact .inl hidle
        · exact .inr ⟨r, x, (hrun r x).mpr hr, hx⟩ }

variable [DecidableEq P]

/-- The thread `p` makes a step from `x` to `y`. -/
theorem Outline.Good.local (h : O.Good s) {x y : Loc} (hx : s.ctl p = .run x)
    (htable : t.table = s.table) (hctl : t.ctl = update s.ctl p (.run y))
    (hholder : ∀ q l, q ≠ p → (t.holder l = some q ↔ s.holder l = some q))
    (hholds : ∀ l, t.holder l = some p ↔ O.holds y l) (hknows : O.knows p y t.data)
    (hothers : ∀ q z, q ≠ p → s.ctl q = .run z → O.knows q z t.data)
    (hwaits : ∀ q l z, q ≠ p → O.waits q l z s.data → O.waits q l z t.data)
    (hswap : ∀ q ch l z, q ≠ p → s.ctl q = .swap ch l z → O.inv l t.data ∧ O.idle ch t.data)
    (hinv : ∀ l, t.holder l = none → O.inv l t.data)
    (hidle : ∀ q ch, q ≠ p → s.Sleeps q ch →
      (O.holds y (O.guard ch) ∧ O.owes y ch ∨ O.idle ch t.data) ∨
        ∃ r z, r ≠ p ∧ s.ctl r = .run z ∧ O.holds z (O.guard ch) ∧ O.owes z ch) :
    O.Good t := by
  have hself : t.ctl p = .run y := by rw [hctl, Function.update_self]
  have hother : ∀ q, q ≠ p → t.ctl q = s.ctl q := by
    intro q hq
    rw [hctl, Function.update_of_ne hq]
  exact
    { table := by
        intro q hq
        by_cases heq : q = p
        · rw [heq, hself] at hq
          cases hq
        · rw [hother q heq] at hq
          rw [htable]
          exact h.table q hq
      holds := by
        intro q l
        by_cases heq : q = p
        · rw [heq, hself, hholds]
          rfl
        · rw [hother q heq, hholder q l heq]
          exact h.holds q l
      knows := by
        intro q z hq
        by_cases heq : q = p
        · subst heq
          rw [hself] at hq
          cases hq
          exact hknows
        · rw [hother q heq] at hq
          exact hothers q z heq hq
      waits := by
        intro q l z hq
        by_cases heq : q = p
        · rw [heq, hself] at hq
          cases hq
        · rw [hother q heq] at hq
          obtain ⟨hw, halone⟩ := h.waits q l z hq
          exact ⟨hwaits q l z heq hw, halone⟩
      channel := by
        intro q ch l hq
        by_cases heq : q = p
        · rw [heq, hself] at hq
          cases hq
        · rw [hother q heq] at hq
          exact h.channel q ch l hq
      swap := by
        intro q ch l z hq
        by_cases heq : q = p
        · rw [heq, hself] at hq
          cases hq
        · rw [hother q heq] at hq
          exact hswap q ch l z heq hq
      inv := hinv
      idle := by
        rintro q ch ⟨l, z, hq⟩
        by_cases heq : q = p
        · rw [heq, hself] at hq
          rcases hq with hq | hq
          · cases hq
          · cases hq
        · rw [hother q heq] at hq
          rcases hidle q ch heq ⟨l, z, hq⟩ with (⟨hhold, howes⟩ | hidle) | ⟨r, z, hr, hrun, hz⟩
          · exact .inr ⟨p, y, hself, hhold, howes⟩
          · exact .inl hidle
          · exact .inr ⟨r, z, (hother r hr).trans hrun, hz⟩ }

/-- The thread `p` goes on to `k`, and the data stay as they are. -/
theorem Outline.Good.change (h : O.Good s) {k : Ctl Λ Ch Loc}
    (hctl : t.ctl = update s.ctl p k) (hdata : t.data = s.data)
    (hlost : ∀ x ch, s.ctl p = .run x → ¬ O.owes x ch)
    (htable : ∀ q, q ≠ p → (s.ctl q).tabled → t.table = some q)
    (htabled : k.tabled → t.table = some p)
    (hholder : ∀ q l, q ≠ p → (t.holder l = some q ↔ s.holder l = some q))
    (hholds : ∀ l, t.holder l = some p ↔ O.holdsCtl k l)
    (hknows : ∀ x, k = .run x → O.knows p x s.data)
    (hwaits : ∀ l y, k.waiting = some (l, y) →
      O.waits p l y s.data ∧ ∀ l', O.holds y l' ↔ l' = l)
    (hchannel : ∀ ch l, k.channel = some (ch, l) → l = O.guard ch)
    (hidle : ∀ ch l y, k = .drowsy ch l y ∨ k = .asleep ch l y →
      O.idle ch s.data ∨ s.Sleeps p ch)
    (hswap : ∀ ch l y, k = .swap ch l y → O.inv l s.data ∧ O.idle ch s.data)
    (hinv : ∀ l, t.holder l = none → O.inv l s.data ∨ s.holder l = none) : O.Good t := by
  have hself : t.ctl p = k := by rw [hctl, Function.update_self]
  have hother : ∀ q, q ≠ p → t.ctl q = s.ctl q := by
    intro q hq
    rw [hctl, Function.update_of_ne hq]
  exact
    { table := by
        intro q hq
        by_cases heq : q = p
        · rw [heq, hself] at hq
          rw [heq]
          exact htabled hq
        · rw [hother q heq] at hq
          exact htable q heq hq
      holds := by
        intro q l
        by_cases heq : q = p
        · rw [heq, hself]
          exact hholds l
        · rw [hother q heq, hholder q l heq]
          exact h.holds q l
      knows := by
        intro q z hq
        rw [hdata]
        by_cases heq : q = p
        · subst heq
          rw [hself] at hq
          exact hknows z hq
        · rw [hother q heq] at hq
          exact h.knows q z hq
      waits := by
        intro q l z hq
        rw [hdata]
        by_cases heq : q = p
        · subst heq
          rw [hself] at hq
          exact hwaits l z hq
        · rw [hother q heq] at hq
          exact h.waits q l z hq
      channel := by
        intro q ch l hq
        by_cases heq : q = p
        · rw [heq, hself] at hq
          exact hchannel ch l hq
        · rw [hother q heq] at hq
          exact h.channel q ch l hq
      swap := by
        intro q ch l z hq
        rw [hdata]
        by_cases heq : q = p
        · rw [heq, hself] at hq
          exact hswap ch l z hq
        · rw [hother q heq] at hq
          exact h.swap q ch l z hq
      inv := by
        intro l hl
        rw [hdata]
        rcases hinv l hl with hinv | hfree
        · exact hinv
        · exact h.inv l hfree
      idle := by
        rintro q ch ⟨l, z, hq⟩
        rw [hdata]
        have hold : s.Sleeps q ch → O.idle ch s.data ∨
            ∃ r x, t.ctl r = .run x ∧ O.holds x (O.guard ch) ∧ O.owes x ch := by
          intro hsleeps
          rcases h.idle q ch hsleeps with hidle | ⟨r, x, hr, hhold, howes⟩
          · exact .inl hidle
          · have hne : r ≠ p := by
              rintro rfl
              exact hlost x ch hr howes
            exact .inr ⟨r, x, (hother r hne).trans hr, hhold, howes⟩
        by_cases heq : q = p
        · subst heq
          rw [hself] at hq
          rcases hidle ch l z hq with hidle | hsleeps
          · exact .inl hidle
          · exact hold hsleeps
        · rw [hother q heq] at hq
          exact hold ⟨l, z, hq⟩ }

variable [DecidableEq Λ] [DecidableEq Ch] {code : Code P Λ Ch D Loc In}
  {ok : State P Λ Ch D Loc → Act P In → Prop} {a : Act P In}

/-- One step keeps the annotation. -/
theorem Outline.Valid.step (hv : O.Valid code ok) (h : O.Good s) (hok : ok s a)
    (hs : step code s a = some t) : O.Good t := by
  have turn : ∀ {p x i op}, s.ctl p = .run x → code p x i s.data (s.killed p) = some op →
      ok s (.run p i) → Turn O code ok s p x op := fun hctl hcode hok =>
    ⟨hctl, ⟨_, hcode, hok⟩, h.knows _ _ hctl⟩
  cases Move.of_step hs with
  | @acquire p i x y l hctl hcode hfree =>
      obtain ⟨hknows, hholds, howes⟩ := hv.acquire (turn hctl hcode hok) (h.inv l hfree)
      have hx : ∀ l', s.holder l' = some p ↔ O.holds x l' := by
        intro l'
        rw [h.holds, hctl]
        rfl
      apply h.local (p := p) (x := x) (y := y) hctl
      · rfl
      · rfl
      · intro q l' hq
        show update s.holder l (some p) l' = some q ↔ _
        by_cases hl : l' = l
        · rw [hl, Function.update_self, hfree]
          exact iff_of_false (fun heq => hq (Option.some.inj heq).symm) (fun heq => by cases heq)
        · rw [Function.update_of_ne hl]
      · intro l'
        show update s.holder l (some p) l' = some p ↔ _
        rw [hholds]
        by_cases hl : l' = l
        · rw [hl, Function.update_self]
          exact iff_of_true rfl (.inr rfl)
        · rw [Function.update_of_ne hl, hx, or_iff_left hl]
      · exact hknows
      · exact fun q z _ hq => h.knows q z hq
      · exact fun q l' z _ hw => hw
      · exact fun q ch l' z _ hq => h.swap q ch l' z hq
      · intro l' hl'
        have hne : l' ≠ l := by
          rintro rfl
          have hl' : update s.holder l' (some p) l' = none := hl'
          rw [Function.update_self] at hl'
          cases hl'
        have hl' : update s.holder l (some p) l' = none := hl'
        rw [Function.update_of_ne hne] at hl'
        exact h.inv l' hl'
      · intro q ch _ hq
        rcases h.idle q ch hq with hidle | ⟨r, z, hr, hhold, hz⟩
        · exact .inl (.inr hidle)
        · by_cases hrp : r = p
          · subst hrp
            rw [hctl] at hr
            cases hr
            exact .inl (.inl ⟨(hholds _).mpr (.inl hhold), howes ch hz⟩)
          · exact .inr ⟨r, z, hrp, hr, hhold, hz⟩
  | @release p i x y l hctl hcode hheld =>
      obtain ⟨hknows, hinv, hholds, hnone, howes⟩ := hv.release (turn hctl hcode hok)
      have hx : ∀ l', s.holder l' = some p ↔ O.holds x l' := by
        intro l'
        rw [h.holds, hctl]
        rfl
      apply h.local (p := p) (x := x) (y := y) hctl
      · rfl
      · rfl
      · intro q l' hq
        show update s.holder l none l' = some q ↔ _
        by_cases hl : l' = l
        · rw [hl, Function.update_self, hheld]
          exact iff_of_false (fun heq => by cases heq) (fun heq => hq (Option.some.inj heq).symm)
        · rw [Function.update_of_ne hl]
      · intro l'
        show update s.holder l none l' = some p ↔ _
        rw [hholds]
        by_cases hl : l' = l
        · rw [hl, Function.update_self]
          exact iff_of_false (fun heq => by cases heq) (fun hboth => hboth.2 rfl)
        · rw [Function.update_of_ne hl, hx, and_iff_left hl]
      · exact hknows
      · exact fun q z _ hq => h.knows q z hq
      · exact fun q l' z _ hw => hw
      · exact fun q ch l' z _ hq => h.swap q ch l' z hq
      · intro l' hl'
        by_cases hl : l' = l
        · rw [hl]
          exact hinv
        · have hl' : update s.holder l none l' = none := hl'
          rw [Function.update_of_ne hl] at hl'
          exact h.inv l' hl'
      · intro q ch _ hq
        rcases h.idle q ch hq with hidle | ⟨r, z, hr, hhold, hz⟩
        · exact .inl (.inr hidle)
        · by_cases hrp : r = p
          · subst hrp
            rw [hctl] at hr
            cases hr
            by_cases hguard : O.guard ch = l
            · exact absurd hq (hnone ch hz hguard q)
            · exact .inl (.inl ⟨(hholds _).mpr ⟨hhold, hguard⟩, howes ch hz hguard⟩)
          · exact .inr ⟨r, z, hrp, hr, hhold, hz⟩
  | @wakeup p i x y ch hctl hcode htable =>
      obtain ⟨hknows, hholds, howes⟩ := hv.wakeup (turn hctl hcode hok)
      let s' : State P Λ Ch D Loc := { s with ctl := fun q => State.wake ch (s.ctl q) }
      have hself : s'.ctl p = .run x := by
        show State.wake ch (s.ctl p) = _
        rw [hctl]
        rfl
      have h' : O.Good s' := by
        apply h.wake rfl
        intro q
        show State.wake ch (s.ctl q) = _ ∨ ∃ ch' l y, _ ∧ State.wake ch (s.ctl q) = _
        cases hq : s.ctl q with
        | asleep ch' l z =>
            by_cases hch : ch' = ch
            · exact .inr ⟨ch', l, z, rfl, if_pos hch⟩
            · exact .inl (if_neg hch)
        | _ => exact .inl rfl
      apply h'.local (p := p) (x := x) (y := y) hself
      · rfl
      · rfl
      · exact fun _ _ _ => Iff.rfl
      · intro l
        show s.holder l = some p ↔ _
        rw [hholds, h.holds, hctl]
        rfl
      · exact hknows
      · exact fun q z _ hq => h'.knows q z hq
      · exact fun q l z _ hw => hw
      · exact fun q ch' l z _ hq => h'.swap q ch' l z hq
      · exact fun l hl => h'.inv l hl
      · intro q ch' _ hq
        have hne : ch' ≠ ch := by
          rintro rfl
          obtain ⟨l, z, hq⟩ := hq
          have hq : State.wake ch' (s.ctl q) = .drowsy ch' l z ∨
              State.wake ch' (s.ctl q) = .asleep ch' l z := hq
          rcases hq with hq | hq
          · have htab := h.table q (by rw [State.wake_eq_drowsy hq]; trivial)
            rw [htable] at htab
            cases htab
          · exact State.wake_ne_asleep hq
        rcases h'.idle q ch' hq with hidle | ⟨r, z, hr, hhold, hz⟩
        · exact .inl (.inr hidle)
        · by_cases hrp : r = p
          · subst hrp
            rw [hself] at hr
            cases hr
            exact .inl (.inl ⟨(hholds _).mpr hhold, howes ch' hne hz⟩)
          · exact .inr ⟨r, z, hrp, hr, hhold, hz⟩
  | @sleep p i x y ch l hctl hcode htable =>
      obtain ⟨hguard, hx, hy, hinv, hidle, hwaits, hnone⟩ := hv.sleep (turn hctl hcode hok)
      apply h.change (p := p) (k := .swap ch l y)
      · rfl
      · rfl
      · intro x' ch' hx' howes
        rw [hctl] at hx'
        cases hx'
        exact hnone ch' howes
      · intro q hq htab
        have htab := h.table q htab
        rw [htable] at htab
        cases htab
      · exact fun _ => rfl
      · exact fun _ _ _ => Iff.rfl
      · intro l'
        show s.holder l' = some p ↔ l' = l
        rw [h.holds, hctl]
        exact hx l'
      · intro x' hx'
        cases hx'
      · intro l' y' heq
        cases heq
        exact ⟨hwaits, hy⟩
      · intro ch' l' heq
        cases heq
        exact hguard
      · intro ch' l' y' heq
        rcases heq with heq | heq
        · cases heq
        · cases heq
      · intro ch' l' y' heq
        cases heq
        exact ⟨hinv, hidle⟩
      · exact fun l' hl' => .inr hl'
  | @store p i x y d hctl hcode =>
      have hturn := turn hctl hcode hok
      obtain ⟨hknows, hholds, howes, hinv, hidle⟩ := hv.store hturn
      have hx : ∀ l', s.holder l' = some p ↔ O.holds x l' := by
        intro l'
        rw [h.holds, hctl]
        rfl
      have hapart : ∀ q l', q ≠ p → s.holder l' = some q → ¬ O.holds x l' := by
        intro q l' hq hl' hhold
        rw [(hx l').mpr hhold] at hl'
        exact hq (Option.some.inj hl').symm
      apply h.local (p := p) (x := x) (y := y) hctl
      · rfl
      · rfl
      · exact fun _ _ _ => Iff.rfl
      · intro l'
        rw [hholds]
        exact hx l'
      · exact hknows
      · intro q z hq hrun
        apply hv.others hturn hq _ (h.knows q z hrun)
        intro l' hhold hz
        apply hapart q l' hq _ hhold
        rw [h.holds, hrun]
        exact hz
      · exact fun q l' z hq hw => hv.waiting hturn hq hw
      · intro q ch l' z hq hrun
        obtain ⟨hinv', hidle'⟩ := h.swap q ch l' z hrun
        have hl' : s.holder l' = some q := by
          rw [h.holds, hrun]
          rfl
        have hguard := h.channel q ch l' (by rw [hrun]; rfl)
        have hnot := hapart q l' hq hl'
        refine ⟨hinv l' hnot hinv', ?_⟩
        rcases hidle ch hidle' with hidle' | ⟨hhold, -⟩
        · exact hidle'
        · rw [← hguard] at hhold
          exact absurd hhold hnot
      · intro l' hl'
        apply hinv l' _ (h.inv l' hl')
        intro hhold
        rw [← hx] at hhold
        have hl' : s.holder l' = none := hl'
        rw [hl'] at hhold
        cases hhold
      · intro q ch _ hq
        rcases h.idle q ch hq with hidle' | ⟨r, z, hr, hhold, hz⟩
        · rcases hidle ch hidle' with hidle' | ⟨hhold, hz⟩
          · exact .inl (.inr hidle')
          · exact .inl (.inl ⟨(hholds _).mpr hhold, hz⟩)
        · by_cases hrp : r = p
          · subst hrp
            rw [hctl] at hr
            cases hr
            exact .inl (.inl ⟨(hholds _).mpr hhold, howes ch hz⟩)
          · exact .inr ⟨r, z, hrp, hr, hhold, hz⟩
  | @swap p ch l y hctl hheld =>
      obtain ⟨hinv, hidle⟩ := h.swap p ch l y hctl
      apply h.change (p := p) (k := .drowsy ch l y)
      · rfl
      · rfl
      · intro x ch' hx
        rw [hctl] at hx
        cases hx
      · exact fun q _ htab => h.table q htab
      · intro _
        exact h.table p (by rw [hctl]; trivial)
      · intro q l' hq
        show update s.holder l none l' = some q ↔ _
        by_cases hl : l' = l
        · rw [hl, Function.update_self, hheld]
          exact iff_of_false (fun heq => by cases heq) (fun heq => hq (Option.some.inj heq).symm)
        · rw [Function.update_of_ne hl]
      · intro l'
        show update s.holder l none l' = some p ↔ False
        by_cases hl : l' = l
        · rw [hl, Function.update_self]
          exact iff_of_false (fun heq => by cases heq) id
        · rw [Function.update_of_ne hl, h.holds, hctl]
          exact iff_of_false hl id
      · intro x hx
        cases hx
      · intro l' y' heq
        exact h.waits p l' y' (by rw [hctl]; exact heq)
      · intro ch' l' heq
        exact h.channel p ch' l' (by rw [hctl]; exact heq)
      · intro ch' l' y' heq
        rcases heq with heq | heq
        · cases heq
          exact .inl hidle
        · cases heq
      · intro ch' l' y' heq
        cases heq
      · intro l' hl'
        by_cases hl : l' = l
        · rw [hl]
          exact .inl hinv
        · have hl' : update s.holder l none l' = none := hl'
          rw [Function.update_of_ne hl] at hl'
          exact .inr hl'
  | @drowsy p ch l y hctl =>
      apply h.change (p := p) (k := .asleep ch l y)
      · rfl
      · rfl
      · intro x ch' hx
        rw [hctl] at hx
        cases hx
      · exact fun q _ htab => h.table q htab
      · intro htab
        cases htab
      · exact fun _ _ _ => Iff.rfl
      · intro l'
        rw [h.holds, hctl]
        rfl
      · intro x hx
        cases hx
      · intro l' y' heq
        exact h.waits p l' y' (by rw [hctl]; exact heq)
      · intro ch' l' heq
        exact h.channel p ch' l' (by rw [hctl]; exact heq)
      · intro ch' l' y' heq
        rcases heq with heq | heq
        · cases heq
        · cases heq
          exact .inr ⟨l, y, .inl hctl⟩
      · intro ch' l' y' heq
        cases heq
      · exact fun l' hl' => .inr hl'
  | @woken p l y hctl htable =>
      apply h.change (p := p) (k := .resumed l y)
      · rfl
      · rfl
      · intro x ch' hx
        rw [hctl] at hx
        cases hx
      · intro q _ htab
        have htab := h.table q htab
        rw [htable] at htab
        cases htab
      · exact fun _ => rfl
      · exact fun _ _ _ => Iff.rfl
      · intro l'
        rw [h.holds, hctl]
        rfl
      · intro x hx
        cases hx
      · intro l' y' heq
        exact h.waits p l' y' (by rw [hctl]; exact heq)
      · intro ch' l' heq
        cases heq
      · intro ch' l' y' heq
        rcases heq with heq | heq
        · cases heq
        · cases heq
      · intro ch' l' y' heq
        cases heq
      · exact fun l' hl' => .inr hl'
  | @resumed p l y hctl =>
      have hmine := h.table p (by rw [hctl]; trivial)
      apply h.change (p := p) (k := .regain l y)
      · rfl
      · rfl
      · intro x ch' hx
        rw [hctl] at hx
        cases hx
      · intro q hq htab
        have htab := h.table q htab
        rw [hmine] at htab
        exact absurd (Option.some.inj htab).symm hq
      · intro htab
        cases htab
      · exact fun _ _ _ => Iff.rfl
      · intro l'
        rw [h.holds, hctl]
        rfl
      · intro x hx
        cases hx
      · intro l' y' heq
        exact h.waits p l' y' (by rw [hctl]; exact heq)
      · intro ch' l' heq
        cases heq
      · intro ch' l' y' heq
        rcases heq with heq | heq
        · cases heq
        · cases heq
      · intro ch' l' y' heq
        cases heq
      · exact fun l' hl' => .inr hl'
  | @regain p l y hctl hfree =>
      obtain ⟨hw, halone⟩ := h.waits p l y (by rw [hctl]; rfl)
      apply h.change (p := p) (k := .run y)
      · rfl
      · rfl
      · intro x ch' hx
        rw [hctl] at hx
        cases hx
      · exact fun q _ htab => h.table q htab
      · intro htab
        cases htab
      · intro q l' hq
        show update s.holder l (some p) l' = some q ↔ _
        by_cases hl : l' = l
        · rw [hl, Function.update_self, hfree]
          exact iff_of_false (fun heq => hq (Option.some.inj heq).symm) (fun heq => by cases heq)
        · rw [Function.update_of_ne hl]
      · intro l'
        show update s.holder l (some p) l' = some p ↔ O.holds y l'
        rw [halone]
        by_cases hl : l' = l
        · rw [hl, Function.update_self]
          exact iff_of_true rfl rfl
        · rw [Function.update_of_ne hl, h.holds, hctl]
          exact iff_of_false id hl
      · intro x hx
        cases hx
        exact hv.regain hw (h.inv l hfree)
      · intro l' y' heq
        cases heq
      · intro ch' l' heq
        cases heq
      · intro ch' l' y' heq
        rcases heq with heq | heq
        · cases heq
        · cases heq
      · intro ch' l' y' heq
        cases heq
      · intro l' hl'
        have hne : l' ≠ l := by
          rintro rfl
          have hl' : update s.holder l' (some p) l' = none := hl'
          rw [Function.update_self] at hl'
          cases hl'
        have hl' : update s.holder l (some p) l' = none := hl'
        rw [Function.update_of_ne hne] at hl'
        exact .inr hl'
  | @switch p ch l y hctl htable =>
      exact
        { h with
          table := by
            intro q hq
            have htab := h.table q hq
            rw [htable] at htab
            obtain rfl := Option.some.inj htab
            have hq : (s.ctl p).tabled := hq
            rw [hctl] at hq
            cases hq }
  | @kill p htable =>
      apply h.wake rfl
      intro q
      show update s.ctl p (State.rouse (s.ctl p)) q = _ ∨
        ∃ ch l y, _ ∧ update s.ctl p (State.rouse (s.ctl p)) q = _
      by_cases hq : q = p
      · subst hq
        rw [Function.update_self]
        cases hc : s.ctl q with
        | asleep ch l y => exact .inr ⟨ch, l, y, rfl, rfl⟩
        | _ => exact .inl rfl
      · rw [Function.update_of_ne hq]
        exact .inl rfl

/-- The annotation holds in every state reached, if it does at the start. -/
theorem Outline.Valid.good {start : P → Loc} {d : D} (hv : O.Valid code ok)
    (hknows : ∀ p, O.knows p (start p) d) (hholds : ∀ p l, ¬ O.holds (start p) l)
    (hinv : ∀ l, O.inv l d) (h : (monitor code start d).ReachableWhen ok s) : O.Good s := by
  apply System.ReachableWhen.invariant _ _ h
  · rintro _ rfl
    exact
      { table := fun p hp => by cases hp
        holds := fun p l => iff_of_false (fun heq => by cases heq) (hholds p l)
        knows := by
          intro p x hp
          cases hp
          exact hknows p
        waits := fun p l y hp => by cases hp
        channel := fun p ch l hp => by cases hp
        swap := fun p ch l y hp => by cases hp
        inv := fun l _ => hinv l
        idle := by
          rintro p ch ⟨l, y, hp | hp⟩
          · cases hp
          · cases hp }
  · intro u b v hu hok hs
    exact hv.step hu hok hs

omit [DecidableEq P] [DecidableEq Λ] [DecidableEq Ch] in
/-- No wakeup is lost. -/
theorem Outline.Good.reason (h : O.Good s) (ch : Ch) (hfree : s.holder (O.guard ch) = none)
    (hsleeps : s.Sleeps p ch) : O.idle ch s.data := by
  rcases h.idle p ch hsleeps with hidle | ⟨q, x, hq, hhold, -⟩
  · exact hidle
  · have hheld : s.holder (O.guard ch) = some q := by
      rw [h.holds, hq]
      exact hhold
    rw [hfree] at hheld
    cases hheld

end Good

/-! ## Reasons of one's own -/

namespace Ctl

/-- The channel of a thread on its way to sleep or asleep, and where it goes on. -/
def bed : Ctl Λ Ch Loc → Option (Ch × Loc)
  | .swap ch _ y | .drowsy ch _ y | .asleep ch _ y => some (ch, y)
  | _ => none

theorem of_bed {ch : Ch} {y : Loc} {k : Ctl Λ Ch Loc} (h : k.bed = some (ch, y)) :
    ∃ l, k = .swap ch l y ∨ k = .drowsy ch l y ∨ k = .asleep ch l y := by
  cases k with
  | swap ch' l y' =>
      cases h
      exact ⟨l, .inl rfl⟩
  | drowsy ch' l y' =>
      cases h
      exact ⟨l, .inr (.inl rfl)⟩
  | asleep ch' l y' =>
      cases h
      exact ⟨l, .inr (.inr rfl)⟩
  | _ => cases h

theorem bed_wake [DecidableEq Ch] {ch : Ch} {b : Ch × Loc} {k : Ctl Λ Ch Loc}
    (h : (State.wake ch k).bed = some b) : k.bed = some b ∧ (b.1 = ch → k.tabled) := by
  cases k with
  | run x => cases h
  | swap ch' l y => exact ⟨h, fun _ => trivial⟩
  | drowsy ch' l y => exact ⟨h, fun _ => trivial⟩
  | asleep ch' l y =>
      by_cases hch : ch' = ch
      · rw [show State.wake ch (.asleep ch' l y) = .woken l y from if_pos hch] at h
        cases h
      · rw [show State.wake ch (.asleep ch' l y) = .asleep ch' l y from if_neg hch] at h
        cases h
        exact ⟨rfl, fun heq => absurd heq hch⟩
  | woken l y => cases h
  | resumed l y => cases h
  | regain l y => cases h

end Ctl

/-- A reason to sleep that is the thread's own: it is there when the thread goes to sleep,
and who takes it away holds the lock of the channel and will wake the channel. -/
structure Outline.Reasons (O : Outline P Λ Ch D Loc) (code : Code P Λ Ch D Loc In)
    (ok : State P Λ Ch D Loc → Act P In → Prop) (why : P → Ch → Loc → D → Prop) : Prop where
  sleep : ∀ {s p x ch l y}, Turn O code ok s p x (.sleep ch l y) → why p ch y s.data
  store : ∀ {s p q x d y ch z}, Turn O code ok s p x (.store d y) → why q ch z s.data →
    why q ch z d ∨ O.holds y (O.guard ch) ∧ O.owes y ch

/-- Somebody who has the lock of the channel is going to wake it. -/
def Outline.Waker (O : Outline P Λ Ch D Loc) (s : State P Λ Ch D Loc) (ch : Ch) : Prop :=
  ∃ q x, s.ctl q = .run x ∧ O.holds x (O.guard ch) ∧ O.owes x ch

/-- Who sleeps has a reason of his own, or is going to be woken. -/
def Outline.Awaited (O : Outline P Λ Ch D Loc) (why : P → Ch → Loc → D → Prop)
    (s : State P Λ Ch D Loc) : Prop :=
  ∀ p ch y, (s.ctl p).bed = some (ch, y) → why p ch y s.data ∨ O.Waker s ch

section Awaited

variable {O : Outline P Λ Ch D Loc} {s t : State P Λ Ch D Loc} {p : P}
  {why : P → Ch → Loc → D → Prop}

/-- Only the thread `p` gets on its way to sleep, and only `p` stops being a waker. -/
theorem Outline.Awaited.change (h : O.Awaited why s)
    (hbed : ∀ q b, q ≠ p → (t.ctl q).bed = some b → (s.ctl q).bed = some b)
    (hrun : ∀ q x, q ≠ p → s.ctl q = .run x → t.ctl q = .run x)
    (hself : ∀ ch y, (t.ctl p).bed = some (ch, y) → why p ch y t.data ∨ O.Waker t ch)
    (hwhy : ∀ q ch z, q ≠ p → (t.ctl q).bed = some (ch, z) → why q ch z s.data →
      why q ch z t.data ∨ O.Waker t ch)
    (howes : ∀ q ch z x, q ≠ p → (t.ctl q).bed = some (ch, z) → s.ctl p = .run x →
      O.holds x (O.guard ch) → O.owes x ch → O.Waker t ch) : O.Awaited why t := by
  intro q ch z hq
  by_cases hqp : q = p
  · rw [hqp] at hq ⊢
    exact hself ch z hq
  · rcases h q ch z (hbed q _ hqp hq) with hreason | ⟨r, x, hr, hhold, hx⟩
    · exact hwhy q ch z hqp hq hreason
    · by_cases hrp : r = p
      · rw [hrp] at hr
        exact .inr (howes q ch z x hqp hq hr hhold hx)
      · exact .inr ⟨r, x, hrun r x hrp hr, hhold, hx⟩

variable [DecidableEq P]

/-- A thread that does not run goes on, and the data stay as they are. -/
theorem Outline.Awaited.goOn (h : O.Awaited why s) {k : Ctl Λ Ch Loc}
    (hctl : t.ctl = update s.ctl p k) (hdata : t.data = s.data)
    (hnot : ∀ x, s.ctl p ≠ .run x) (hk : ∀ b, k.bed = some b → (s.ctl p).bed = some b) :
    O.Awaited why t := by
  have hother : ∀ q, q ≠ p → t.ctl q = s.ctl q := by
    intro q hq
    rw [hctl, Function.update_of_ne hq]
  apply h.change (p := p)
  · intro q b hq hb
    rw [hother q hq] at hb
    exact hb
  · intro q x hq hx
    rw [hother q hq]
    exact hx
  · intro ch y hp
    rw [hctl, Function.update_self] at hp
    rw [hdata]
    rcases h p ch y (hk _ hp) with hreason | ⟨r, x, hr, hx⟩
    · exact .inl hreason
    · have hrp : r ≠ p := by
        rintro rfl
        exact hnot x hr
      exact .inr ⟨r, x, (hother r hrp).trans hr, hx⟩
  · intro q ch z _ _ hreason
    rw [hdata]
    exact .inl hreason
  · intro q ch z x _ _ hp _ _
    exact absurd hp (hnot x)

/-- The thread `p` runs and goes on at `y`. -/
theorem Outline.Awaited.local (h : O.Awaited why s) {y : Loc}
    (hctl : t.ctl = update s.ctl p (.run y))
    (hwhy : ∀ q ch z, q ≠ p → (s.ctl q).bed = some (ch, z) → why q ch z s.data →
      why q ch z t.data ∨ O.holds y (O.guard ch) ∧ O.owes y ch)
    (howes : ∀ q ch z x, q ≠ p → (s.ctl q).bed = some (ch, z) → s.ctl p = .run x →
      O.holds x (O.guard ch) → O.owes x ch → O.holds y (O.guard ch) ∧ O.owes y ch) :
    O.Awaited why t := by
  have hself : t.ctl p = .run y := by rw [hctl, Function.update_self]
  have hother : ∀ q, q ≠ p → t.ctl q = s.ctl q := by
    intro q hq
    rw [hctl, Function.update_of_ne hq]
  apply h.change (p := p)
  · intro q b hq hb
    rw [hother q hq] at hb
    exact hb
  · intro q x hq hx
    rw [hother q hq]
    exact hx
  · intro ch z hp
    rw [hself] at hp
    cases hp
  · intro q ch z hq hz hreason
    rw [hother q hq] at hz
    exact (hwhy q ch z hq hz hreason).imp_right fun hy => ⟨p, y, hself, hy⟩
  · intro q ch z x hq hz hx hhold hwill
    rw [hother q hq] at hz
    exact ⟨p, y, hself, howes q ch z x hq hz hx hhold hwill⟩

variable [DecidableEq Λ] [DecidableEq Ch] {code : Code P Λ Ch D Loc In}
  {ok : State P Λ Ch D Loc → Act P In → Prop} {a : Act P In}

/-- One step leaves all sleepers a reason or a waker. -/
theorem Outline.Reasons.step (hr : O.Reasons code ok why) (hv : O.Valid code ok) (h : O.Good s)
    (hw : O.Awaited why s) (hok : ok s a) (hs : step code s a = some t) : O.Awaited why t := by
  have turn : ∀ {p x i op}, s.ctl p = .run x → code p x i s.data (s.killed p) = some op →
      ok s (.run p i) → Turn O code ok s p x op := fun hctl hcode hok =>
    ⟨hctl, ⟨_, hcode, hok⟩, h.knows _ _ hctl⟩
  cases Move.of_step hs with
  | @acquire p i x y l hctl hcode hfree =>
      obtain ⟨-, hholds, howes⟩ := hv.acquire (turn hctl hcode hok) (h.inv l hfree)
      apply hw.local (p := p) (y := y) rfl
      · exact fun q ch z _ _ hreason => .inl hreason
      · intro q ch z x' _ _ hx' hhold hwill
        rw [hctl] at hx'
        cases hx'
        exact ⟨(hholds _).mpr (.inl hhold), howes ch hwill⟩
  | @release p i x y l hctl hcode hheld =>
      obtain ⟨-, -, hholds, hnone, howes⟩ := hv.release (turn hctl hcode hok)
      apply hw.local (p := p) (y := y) rfl
      · exact fun q ch z _ _ hreason => .inl hreason
      · intro q ch z x' hq hz hx' hhold hwill
        rw [hctl] at hx'
        cases hx'
        have hguard : O.guard ch ≠ l := by
          intro hguard
          -- nobody sleeps on the channel, and who is about to has the lock
          have hsleeps := hnone ch hwill hguard q
          obtain ⟨l', hc | hc⟩ := Ctl.of_bed hz
          · have hl' := h.channel q ch l' (by rw [hc]; rfl)
            have hmine : s.holder l' = some q := by
              rw [h.holds, hc]
              rfl
            rw [hl', hguard, hheld] at hmine
            exact hq (Option.some.inj hmine).symm
          · exact hsleeps ⟨l', z, hc⟩
        exact ⟨(hholds _).mpr ⟨hhold, hguard⟩, howes ch hwill hguard⟩
  | @wakeup p i x y ch hctl hcode htable =>
      obtain ⟨-, hholds, howes⟩ := hv.wakeup (turn hctl hcode hok)
      have hself : update (fun q => State.wake ch (s.ctl q)) p (.run y) p = .run y :=
        Function.update_self ..
      have hother : ∀ q, q ≠ p →
          update (fun q => State.wake ch (s.ctl q)) p (.run y) q = State.wake ch (s.ctl q) :=
        fun q hq => Function.update_of_ne hq _ _
      apply hw.change (p := p)
      · intro q b hq hb
        dsimp only at hb
        rw [hother q hq] at hb
        exact (Ctl.bed_wake hb).1
      · intro q z hq hz
        dsimp only
        rw [hother q hq, hz]
        rfl
      · intro ch' z hp
        dsimp only at hp
        rw [hself] at hp
        cases hp
      · exact fun q ch' z _ _ hreason => .inl hreason
      · intro q ch' z x' hq hz hx' hhold hwill
        dsimp only at hz
        rw [hother q hq] at hz
        rw [hctl] at hx'
        cases hx'
        have hne : ch' ≠ ch := by
          intro heq
          have htab := h.table q ((Ctl.bed_wake hz).2 heq)
          rw [htable] at htab
          cases htab
        exact ⟨p, y, hself, (hholds _).mpr hhold, howes ch' hne hwill⟩
  | @sleep p i x y ch l hctl hcode htable =>
      have hturn := turn hctl hcode hok
      obtain ⟨-, -, -, -, -, -, hnone⟩ := hv.sleep hturn
      have hother : ∀ q, q ≠ p → update s.ctl p (.swap ch l y) q = s.ctl q :=
        fun q hq => Function.update_of_ne hq _ _
      apply hw.change (p := p)
      · intro q b hq hb
        dsimp only at hb
        rw [hother q hq] at hb
        exact hb
      · intro q z hq hz
        dsimp only
        rw [hother q hq]
        exact hz
      · intro ch' z hp
        dsimp only at hp
        rw [Function.update_self] at hp
        cases hp
        have hreason := hr.sleep hturn
        exact .inl hreason
      · exact fun q ch' z _ _ hreason => .inl hreason
      · intro q ch' z x' _ _ hx' _ hwill
        rw [hctl] at hx'
        cases hx'
        exact absurd hwill (hnone ch')
  | @store p i x y d hctl hcode =>
      have hturn := turn hctl hcode hok
      obtain ⟨-, hholds, howes, -, -⟩ := hv.store hturn
      apply hw.local (p := p) (y := y) rfl
      · exact fun q ch z _ _ hreason => hr.store hturn hreason
      · intro q ch z x' _ _ hx' hhold hwill
        rw [hctl] at hx'
        cases hx'
        exact ⟨(hholds _).mpr hhold, howes ch hwill⟩
  | @swap p ch l y hctl hheld =>
      refine hw.goOn (p := p) (k := .drowsy ch l y) rfl rfl ?_ ?_
      · exact fun x hx => by rw [hctl] at hx; cases hx
      · intro b hb
        rw [hctl]
        exact hb
  | @drowsy p ch l y hctl =>
      refine hw.goOn (p := p) (k := .asleep ch l y) rfl rfl ?_ ?_
      · exact fun x hx => by rw [hctl] at hx; cases hx
      · intro b hb
        rw [hctl]
        exact hb
  | @woken p l y hctl htable =>
      refine hw.goOn (p := p) (k := .resumed l y) rfl rfl ?_ ?_
      · exact fun x hx => by rw [hctl] at hx; cases hx
      · intro b hb
        cases hb
  | @resumed p l y hctl =>
      refine hw.goOn (p := p) (k := .regain l y) rfl rfl ?_ ?_
      · exact fun x hx => by rw [hctl] at hx; cases hx
      · intro b hb
        cases hb
  | @regain p l y hctl hfree =>
      refine hw.goOn (p := p) (k := .run y) rfl rfl ?_ ?_
      · exact fun x hx => by rw [hctl] at hx; cases hx
      · intro b hb
        cases hb
  | @switch p ch l y hctl htable => exact hw
  | @kill p htable =>
      cases hc : s.ctl p with
      | run x =>
          refine hw.local (p := p) (y := x) rfl ?_ ?_
          · exact fun q ch z _ _ hreason => .inl hreason
          · intro q ch z x' _ _ hx' hhold hwill
            rw [hc] at hx'
            cases hx'
            exact ⟨hhold, hwill⟩
      | asleep ch l y =>
          refine hw.goOn (p := p) (k := .woken l y) rfl rfl ?_ ?_
          · exact fun x hx => by rw [hc] at hx; cases hx
          · intro b hb
            cases hb
      | _ =>
          refine hw.goOn (p := p) rfl rfl ?_ ?_
          · exact fun x hx => by rw [hc] at hx; cases hx
          · exact fun b hb => by rw [hc]; exact hb

/-- All sleepers have a reason or a waker in every state reached. -/
theorem Outline.Reasons.awaited {start : P → Loc} {d : D} (hr : O.Reasons code ok why)
    (hv : O.Valid code ok) (hknows : ∀ p, O.knows p (start p) d)
    (hholds : ∀ p l, ¬ O.holds (start p) l) (hinv : ∀ l, O.inv l d)
    (h : (monitor code start d).ReachableWhen ok s) : O.Awaited why s := by
  induction h with
  | init h0 =>
      intro p ch y hp
      rw [show _ = _ from h0] at hp
      cases hp
  | step hs hok hstep ih => exact hr.step hv (hv.good hknows hholds hinv hs) ih hok hstep

omit [DecidableEq P] [DecidableEq Λ] [DecidableEq Ch] in
/-- While the lock of the channel is free, the reason is there. -/
theorem Outline.Awaited.reason (hw : O.Awaited why s) (h : O.Good s) {ch : Ch} {y : Loc}
    (hfree : s.holder (O.guard ch) = none) (hbed : (s.ctl p).bed = some (ch, y)) :
    why p ch y s.data := by
  rcases hw p ch y hbed with hreason | ⟨q, x, hq, hhold, -⟩
  · exact hreason
  · have hheld : s.holder (O.guard ch) = some q := by
      rw [h.holds, hq]
      exact hhold
    rw [hfree] at hheld
    cases hheld

end Awaited

/-! ## Killed threads -/

/-- Where the thread goes on after the operation. -/
def Op.next : Op Λ Ch D Loc → Loc
  | .acquire _ y | .release _ y | .wakeup _ y | .sleep _ _ y | .store _ y => y

theorem Ctl.loc_wake [DecidableEq Ch] (ch : Ch) (k : Ctl Λ Ch Loc) :
    (State.wake ch k).loc = k.loc := by
  cases k with
  | asleep ch' l y =>
      unfold State.wake
      dsimp only
      split
      · rfl
      · rfl
  | _ => rfl

section Killed

variable [DecidableEq P] [DecidableEq Λ] [DecidableEq Ch] {code : Code P Λ Ch D Loc In}
  {ok : State P Λ Ch D Loc → Act P In → Prop} {s : State P Λ Ch D Loc}

/-- A thread that is where the code brings only killed ones has been killed. -/
theorem killed_of_loc {start : P → Loc} {d : D} {marked : Loc → Prop}
    (hstart : ∀ p, ¬ marked (start p))
    (hcode : ∀ p x i d k op, code p x i d k = some op → marked op.next → marked x ∨ k = true)
    (h : (monitor code start d).ReachableWhen ok s) :
    ∀ p, marked (s.ctl p).loc → s.killed p = true := by
  refine System.ReachableWhen.invariant
    (P := fun s => ∀ p, marked (s.ctl p).loc → s.killed p = true) ?_ ?_ h
  · rintro _ rfl p hp
    exact absurd hp (hstart p)
  · intro s a t hs _ hstep q hq
    -- another thread keeps its location, and the flag is never cleared
    have hkeep : ∀ {p : P} {c : P → Ctl Λ Ch Loc} {k : Ctl Λ Ch Loc},
        (∀ q, (c q).loc = (s.ctl q).loc) → marked (update c p k q).loc →
        (marked k.loc → s.killed p = true) → s.killed q = true := by
      intro p c k hc hmarked hp
      by_cases hqp : q = p
      · rw [hqp] at hmarked ⊢
        rw [Function.update_self] at hmarked
        exact hp hmarked
      · rw [Function.update_of_ne hqp, hc] at hmarked
        exact hs q hmarked
    have hrun : ∀ {p x i op}, s.ctl p = .run x → code p x i s.data (s.killed p) = some op →
        marked op.next → s.killed p = true := by
      intro p x i op hctl hcode' hmarked
      rcases hcode p x i _ _ op hcode' hmarked with hx | hk
      · apply hs p
        rw [hctl]
        exact hx
      · exact hk
    have hsame : ∀ {p : P} {k : Ctl Λ Ch Loc}, (s.ctl p).loc = k.loc → marked k.loc →
        s.killed p = true := fun hloc hmarked => hs _ (by rw [hloc]; exact hmarked)
    cases Move.of_step hstep with
    | acquire hctl hcode' hfree | release hctl hcode' hheld | sleep hctl hcode' htable
        | store hctl hcode' => exact hkeep (fun _ => rfl) hq (hrun hctl hcode')
    | wakeup hctl hcode' htable => exact hkeep (fun q => Ctl.loc_wake _ _) hq (hrun hctl hcode')
    | swap hctl hheld | drowsy hctl | woken hctl htable | resumed hctl | regain hctl hfree =>
        exact hkeep (fun _ => rfl) hq (hsame (by rw [hctl]; rfl))
    | switch hctl htable => exact hs q hq
    | @kill p htable =>
        by_cases hqp : q = p
        · rw [hqp]
          exact Function.update_self ..
        · have hq : marked (update s.ctl p (State.rouse (s.ctl p)) q).loc := hq
          rw [Function.update_of_ne hqp] at hq
          show update s.killed p true q = true
          rw [Function.update_of_ne hqp]
          exact hs q hq

end Killed

end OsWork.Verified.Monitor

import OsWork.Verified.Monitor

/-!
# Sleep locks of `ass5/final_repo`

`acquiresleep`, `releasesleep` and `holdingsleep` of `sleeplock.c` as programs of
a monitor: any number of processes and sleep locks, each with the spin lock
`lk->lk` and the lock itself as sleep channel.  A process calls `releasesleep`
for a lock that it has acquired, as all callers in the kernel do.

## Main results

* `sleepLock_exclusive` — one process at most has a sleep lock, and nobody sleeps
  on a lock that is free.
-/

namespace OsWork.Ports.SleepLocks

open OsWork.Verified.Monitor OsWork.Verified.Transition
open Function (update)

/-- `struct sleeplock`; `pid` is `none` for `0`. -/
structure SleepLock (P : Type) where
  locked : Bool
  pid : Option P
  deriving DecidableEq

/-- The address of a sleep lock. -/
abbrev Lk := Nat

/-- What comes next in the call a process is in. -/
inductive Pc
  /-- not in one of the three functions -/
  | out
  /-- `acquiresleep`: the loop, and `lk->locked = 1` after it -/
  | test (lk : Lk)
  /-- `lk->pid = myproc()->pid` -/
  | setPid (lk : Lk)
  | acquired (lk : Lk)
  /-- `releasesleep`: `lk->locked = 0` -/
  | unlock (lk : Lk)
  | clearPid (lk : Lk)
  | wakeup (lk : Lk)
  | released (lk : Lk)
  /-- `holdingsleep` -/
  | holding (lk : Lk)
  deriving DecidableEq

/-- Where a process stands; `held` are the locks for which `acquiresleep` has
returned and `releasesleep` has not been called. -/
structure Loc where
  pc : Pc
  held : List Lk

inductive Call
  | acquiresleep (lk : Lk)
  | releasesleep (lk : Lk)
  | holdingsleep (lk : Lk)

variable {P : Type}

/-- All sleep locks. -/
abbrev Locks (P : Type) := Lk → SleepLock P

def code (p : P) (x : Loc) (c : Call) (d : Locks P) (_killed : Bool) :
    Option (Op Lk Lk (Locks P) Loc) :=
  match x.pc with
  | .out =>
      match c with
      | .acquiresleep lk => some (.acquire lk { x with pc := .test lk })
      | .releasesleep lk =>
          if lk ∈ x.held then
            some (.acquire lk { pc := .unlock lk, held := x.held.filter (· ≠ lk) })
          else none
      | .holdingsleep lk => some (.acquire lk { x with pc := .holding lk })
  | .test lk =>
      if (d lk).locked then some (.sleep lk lk x)
      else some (.store (update d lk { d lk with locked := true }) { x with pc := .setPid lk })
  | .setPid lk =>
      some (.store (update d lk { d lk with pid := some p }) { x with pc := .acquired lk })
  | .acquired lk => some (.release lk { pc := .out, held := lk :: x.held })
  | .unlock lk =>
      some (.store (update d lk { d lk with locked := false }) { x with pc := .clearPid lk })
  | .clearPid lk =>
      some (.store (update d lk { d lk with pid := none }) { x with pc := .wakeup lk })
  | .wakeup lk => some (.wakeup lk { x with pc := .released lk })
  | .released lk => some (.release lk { x with pc := .out })
  | .holding lk => some (.release lk { x with pc := .out })

/-- `initsleeplock` of all locks. -/
def initial : Locks P := fun _ => { locked := false, pid := none }

def sleepLocks [DecidableEq P] : System (State P Lk Lk (Locks P) Loc) (Act P Call) :=
  monitor code (fun _ => { pc := .out, held := [] }) initial

/-! ## What is known where -/

/-- The spin lock held in a call. -/
def Pc.lock : Pc → Option Lk
  | .out => none
  | .test lk | .setPid lk | .acquired lk | .unlock lk | .clearPid lk | .wakeup lk
  | .released lk | .holding lk => some lk

/-- The locks that a process has are locked in its name. -/
def Mine (p : P) (x : Loc) (d : Locks P) : Prop :=
  ∀ lk ∈ x.held, d lk = { locked := true, pid := some p }

/-- What is known of the lock in the middle of a call. -/
def Pc.Says (p : P) (d : Locks P) : Pc → Prop
  | .out => True
  | .test lk | .holding lk | .wakeup lk | .released lk => (d lk).locked = false → (d lk).pid = none
  | .setPid lk => d lk = { locked := true, pid := none }
  | .acquired lk | .unlock lk => d lk = { locked := true, pid := some p }
  | .clearPid lk => d lk = { locked := false, pid := some p }

/-- The process has not come to `wakeup` yet, with the lock unlocked. -/
def Pc.owes : Pc → Lk → Prop
  | .clearPid lk, ch | .wakeup lk, ch => ch = lk
  | _, _ => False

def outline : Outline P Lk Lk (Locks P) Loc where
  holds x l := x.pc.lock = some l
  knows p x d := Mine p x d ∧ x.pc.Says p d ∧ ∀ lk, x.pc = .unlock lk → lk ∉ x.held
  waits p l y d := Mine p y d ∧ y.pc = .test l
  inv l d := (d l).locked = false → (d l).pid = none
  guard ch := ch
  idle ch d := (d ch).locked = true
  owes x ch := x.pc.owes ch

/-! ## The outline fits -/

/-- The operations of the code, one by one. -/
inductive Next (p : P) (x : Loc) (d : Locks P) : Op Lk Lk (Locks P) Loc → Prop
  | acquiresleep {lk : Lk} (hpc : x.pc = .out) :
      Next p x d (.acquire lk { x with pc := .test lk })
  | releasesleep {lk : Lk} (hpc : x.pc = .out) (hheld : lk ∈ x.held) :
      Next p x d (.acquire lk { pc := .unlock lk, held := x.held.filter (· ≠ lk) })
  | holdingsleep {lk : Lk} (hpc : x.pc = .out) :
      Next p x d (.acquire lk { x with pc := .holding lk })
  | sleep {lk : Lk} (hpc : x.pc = .test lk) (hlocked : (d lk).locked = true) :
      Next p x d (.sleep lk lk x)
  | lock {lk : Lk} (hpc : x.pc = .test lk) (hlocked : (d lk).locked = false) :
      Next p x d
        (.store (update d lk { d lk with locked := true }) { x with pc := .setPid lk })
  | setPid {lk : Lk} (hpc : x.pc = .setPid lk) :
      Next p x d (.store (update d lk { d lk with pid := some p }) { x with pc := .acquired lk })
  | acquired {lk : Lk} (hpc : x.pc = .acquired lk) :
      Next p x d (.release lk { pc := .out, held := lk :: x.held })
  | unlock {lk : Lk} (hpc : x.pc = .unlock lk) :
      Next p x d
        (.store (update d lk { d lk with locked := false }) { x with pc := .clearPid lk })
  | clearPid {lk : Lk} (hpc : x.pc = .clearPid lk) :
      Next p x d (.store (update d lk { d lk with pid := none }) { x with pc := .wakeup lk })
  | wakeup {lk : Lk} (hpc : x.pc = .wakeup lk) :
      Next p x d (.wakeup lk { x with pc := .released lk })
  | released {lk : Lk} (hpc : x.pc = .released lk ∨ x.pc = .holding lk) :
      Next p x d (.release lk { x with pc := .out })

theorem Next.of_code {p : P} {x : Loc} {c : Call} {d : Locks P} {k : Bool}
    {op : Op Lk Lk (Locks P) Loc} (h : code p x c d k = some op) : Next p x d op := by
  unfold code at h
  split at h
  · rename_i hpc
    split at h
    · cases h
      exact .acquiresleep hpc
    · split at h
      · rename_i hheld
        cases h
        exact .releasesleep hpc hheld
      · cases h
    · cases h
      exact .holdingsleep hpc
  · rename_i lk hpc
    split at h
    · rename_i hlocked
      cases h
      exact .sleep hpc hlocked
    · rename_i hlocked
      cases h
      exact .lock hpc (by simpa using hlocked)
  · rename_i lk hpc
    cases h
    exact .setPid hpc
  · rename_i lk hpc
    cases h
    exact .acquired hpc
  · rename_i lk hpc
    cases h
    exact .unlock hpc
  · rename_i lk hpc
    cases h
    exact .clearPid hpc
  · rename_i lk hpc
    cases h
    exact .wakeup hpc
  · rename_i lk hpc
    cases h
    exact .released (.inl hpc)
  · rename_i lk hpc
    cases h
    exact .released (.inr hpc)

section Valid

variable {p q : P} {x y z : Loc} {d : Locks P} {lk : Lk} {v : SleepLock P}

/-- What is said of one lock. -/
theorem Pc.Says.congr {d' : Locks P} {pc : Pc} (h : pc.Says p d)
    (hsame : ∀ l, pc.lock = some l → d' l = d l) : pc.Says p d' := by
  cases pc with
  | out => trivial
  | _ =>
      simp only [Pc.Says] at h ⊢
      rw [hsame _ rfl]
      exact h

/-- A store to a lock that a process does not have. -/
theorem Mine.update (h : Mine p x d) (hnot : lk ∉ x.held) : Mine p x (update d lk v) := by
  intro l hl
  have hne : l ≠ lk := by
    rintro rfl
    exact hnot hl
  rw [Function.update_of_ne hne]
  exact h l hl

/-- The lock of a call, except before `lk->locked = 1`, is no lock the process has. -/
theorem Mine.not_held {w : SleepLock P} (h : Mine q x d) (hd : d lk = w)
    (hw : w ≠ { locked := true, pid := some q }) : lk ∉ x.held := by
  intro hmem
  rw [h lk hmem] at hd
  exact hw hd.symm

/-- The location and the next operation of a process. -/
theorem next_of_turn {ok : State P Lk Lk (Locks P) Loc → Act P Call → Prop}
    {s : State P Lk Lk (Locks P) Loc} {op : Op Lk Lk (Locks P) Loc}
    (h : Turn outline code ok s p x op) : Next p x s.data op := by
  obtain ⟨i, hcode, -⟩ := h.next
  exact Next.of_code hcode

/-- A store to the lock `lk` by a process that holds `lk->lk`. -/
theorem Next.store {d' : Locks P} (h : Next p x d (.store d' y)) (hmine : Mine p x d)
    (hknows : x.pc.Says p d) (hnot : ∀ lk, x.pc = .unlock lk → lk ∉ x.held) :
    ∃ lk v, d' = update d lk v ∧ x.pc.lock = some lk ∧ y.pc.lock = some lk ∧ y.held = x.held ∧
      lk ∉ x.held ∧ (∀ q, q ≠ p → d lk ≠ { locked := true, pid := some q }) ∧
      (y.pc.Says p d') ∧ ∀ lk, y.pc ≠ .unlock lk := by
  cases h with
  | @lock lk hpc hlocked =>
      rw [hpc] at hknows
      have hpid := hknows hlocked
      have hd : d lk = { locked := false, pid := none } := by
        rw [← hlocked, ← hpid]
      refine ⟨lk, _, rfl, by rw [hpc]; rfl, rfl, rfl, hmine.not_held hd (by simp), ?_, ?_, ?_⟩
      · intro q _
        simp [hd]
      · show update d lk _ lk = _
        rw [Function.update_self, hd]
      · intro lk' heq
        cases heq
  | @setPid lk hpc =>
      rw [hpc] at hknows
      have hd : d lk = { locked := true, pid := none } := hknows
      refine ⟨lk, _, rfl, by rw [hpc]; rfl, rfl, rfl, hmine.not_held hd (by simp), ?_, ?_, ?_⟩
      · intro q _
        simp [hd]
      · show update d lk _ lk = _
        rw [Function.update_self, hd]
      · intro lk' heq
        cases heq
  | @unlock lk hpc =>
      rw [hpc] at hknows
      have hd : d lk = { locked := true, pid := some p } := hknows
      refine ⟨lk, _, rfl, by rw [hpc]; rfl, rfl, rfl, hnot lk hpc, ?_, ?_, ?_⟩
      · intro q hq
        simp [hd, Ne.symm hq]
      · show update d lk _ lk = _
        rw [Function.update_self, hd]
      · intro lk' heq
        cases heq
  | @clearPid lk hpc =>
      rw [hpc] at hknows
      have hd : d lk = { locked := false, pid := some p } := hknows
      refine ⟨lk, _, rfl, by rw [hpc]; rfl, rfl, rfl, hmine.not_held hd (by simp), ?_, ?_, ?_⟩
      · intro q _
        simp [hd]
      · show (update d lk _ lk).locked = false → (update d lk _ lk).pid = none
        rw [Function.update_self]
        exact fun _ => rfl
      · intro lk' heq
        cases heq

/-- A wakeup that is owed stays owed over a store, and unlocking owes one. -/
theorem Next.store_owes {d' : Locks P} {ch : Lk} (h : Next p x d (.store d' y)) :
    (x.pc.owes ch → y.pc.owes ch) ∧
      ((d ch).locked = true → (d' ch).locked = true ∨ x.pc.lock = some ch ∧ y.pc.owes ch) := by
  cases h with
  | @lock lk hpc hlocked =>
      refine ⟨fun howes => (by rw [hpc] at howes; cases howes), fun hch => .inl ?_⟩
      by_cases heq : ch = lk
      · rw [heq, Function.update_self]
      · rw [Function.update_of_ne heq]
        exact hch
  | @setPid lk hpc =>
      refine ⟨fun howes => (by rw [hpc] at howes; cases howes), fun hch => .inl ?_⟩
      by_cases heq : ch = lk
      · rw [heq] at hch ⊢
        rw [Function.update_self]
        exact hch
      · rw [Function.update_of_ne heq]
        exact hch
  | @unlock lk hpc =>
      refine ⟨fun howes => (by rw [hpc] at howes; cases howes), fun hch => ?_⟩
      by_cases heq : ch = lk
      · rw [heq, hpc]
        exact .inr ⟨rfl, rfl⟩
      · rw [Function.update_of_ne heq]
        exact .inl hch
  | @clearPid lk hpc =>
      constructor
      · intro howes
        rw [hpc] at howes
        exact howes
      · intro hch
        by_cases heq : ch = lk
        · rw [heq] at hch ⊢
          rw [Function.update_self]
          exact .inl hch
        · rw [Function.update_of_ne heq]
          exact .inl hch

theorem valid (ok : State P Lk Lk (Locks P) Loc → Act P Call → Prop) :
    (outline (P := P)).Valid code ok where
  acquire := by
    intro s p x l y hturn hinv
    obtain ⟨hmine, hknows, -⟩ := hturn.knows
    cases next_of_turn hturn with
    | acquiresleep hpc | holdingsleep hpc =>
        refine ⟨⟨hmine, hinv, fun lk heq => by cases heq⟩, ?_, ?_⟩
        · intro l'
          show some l = some l' ↔ x.pc.lock = some l' ∨ l' = l
          rw [hpc]
          simp [Pc.lock, eq_comm]
        · intro ch howes
          have howes : x.pc.owes ch := howes
          rw [hpc] at howes
          cases howes
    | releasesleep hpc hheld =>
        refine ⟨⟨fun lk hlk => hmine lk (List.mem_filter.mp hlk).1, hmine l hheld, ?_⟩, ?_, ?_⟩
        · intro lk heq hlk
          cases heq
          simp at hlk
        · intro l'
          show some l = some l' ↔ x.pc.lock = some l' ∨ l' = l
          rw [hpc]
          simp [Pc.lock, eq_comm]
        · intro ch howes
          have howes : x.pc.owes ch := howes
          rw [hpc] at howes
          cases howes
  release := by
    intro s p x l y hturn
    obtain ⟨hmine, hknows, -⟩ := hturn.knows
    cases next_of_turn hturn with
    | acquired hpc =>
        rw [hpc] at hknows
        have hd : s.data l = { locked := true, pid := some p } := hknows
        have hnone : ∀ ch, ¬ x.pc.owes ch := by
          intro ch howes
          rw [hpc] at howes
          cases howes
        refine ⟨⟨?_, trivial, fun lk heq => by cases heq⟩, ?_, ?_,
          fun ch howes => absurd howes (hnone ch), fun ch howes => absurd howes (hnone ch)⟩
        · intro lk hlk
          rcases List.mem_cons.mp hlk with rfl | hlk
          · exact hd
          · exact hmine lk hlk
        · show (s.data l).locked = false → (s.data l).pid = none
          simp [hd]
        · intro l'
          show none = some l' ↔ x.pc.lock = some l' ∧ l' ≠ l
          rw [hpc]
          simp only [Pc.lock, Option.some.injEq]
          exact iff_of_false (fun heq => by cases heq) (fun hboth => hboth.2 hboth.1.symm)
    | released hpc =>
        have hinv : (s.data l).locked = false → (s.data l).pid = none := by
          rcases hpc with hpc | hpc
          · rw [hpc] at hknows
            exact hknows
          · rw [hpc] at hknows
            exact hknows
        have hlock : x.pc.lock = some l := by
          rcases hpc with hpc | hpc
          · rw [hpc]
            rfl
          · rw [hpc]
            rfl
        have hnone : ∀ ch, ¬ x.pc.owes ch := by
          intro ch howes
          rcases hpc with hpc | hpc
          · rw [hpc] at howes
            cases howes
          · rw [hpc] at howes
            cases howes
        refine ⟨⟨hmine, trivial, fun lk heq => by cases heq⟩, hinv, ?_,
          fun ch howes => absurd howes (hnone ch), fun ch howes => absurd howes (hnone ch)⟩
        intro l'
        show none = some l' ↔ x.pc.lock = some l' ∧ l' ≠ l
        rw [hlock, Option.some.injEq]
        exact iff_of_false (fun heq => by cases heq) (fun hboth => hboth.2 hboth.1.symm)
  wakeup := by
    intro s p x ch y hturn
    obtain ⟨hmine, hknows, -⟩ := hturn.knows
    cases next_of_turn hturn with
    | wakeup hpc =>
        rw [hpc] at hknows
        refine ⟨⟨hmine, hknows, fun lk heq => by cases heq⟩, ?_, ?_⟩
        · intro l
          show some ch = some l ↔ x.pc.lock = some l
          rw [hpc]
          rfl
        · intro ch' hne howes
          have howes : x.pc.owes ch' := howes
          rw [hpc] at howes
          exact absurd howes hne
  sleep := by
    intro s p x ch l y hturn
    obtain ⟨hmine, hknows, -⟩ := hturn.knows
    cases next_of_turn hturn with
    | sleep hpc hlocked =>
        rw [hpc] at hknows
        have hholds : ∀ l', x.pc.lock = some l' ↔ l' = ch := by
          intro l'
          rw [hpc]
          simp [Pc.lock, eq_comm]
        refine ⟨rfl, hholds, hholds, hknows, hlocked, ⟨hmine, hpc⟩, ?_⟩
        intro ch' howes
        have howes : x.pc.owes ch' := howes
        rw [hpc] at howes
        cases howes
  regain := by
    rintro p l y d ⟨hmine, hpc⟩ hinv
    refine ⟨hmine, ?_, fun lk heq => by rw [hpc] at heq; cases heq⟩
    rw [hpc]
    exact hinv
  store := by
    intro s p x d y hturn
    obtain ⟨hmine, hknows, hnot⟩ := hturn.knows
    have hnext := next_of_turn hturn
    obtain ⟨lk, v, rfl, hx, hy, hheld, hout, -, hthen, hunlock⟩ := hnext.store hmine hknows hnot
    refine ⟨⟨?_, hthen, fun lk' heq => absurd heq (hunlock lk')⟩, ?_, fun ch => hnext.store_owes.1,
      ?_, fun ch => hnext.store_owes.2⟩
    · have hupdate := hmine.update (v := v) hout
      intro lk' hlk'
      rw [hheld] at hlk'
      exact hupdate lk' hlk'
    · intro l
      show y.pc.lock = some l ↔ x.pc.lock = some l
      rw [hx, hy]
    · intro l hl hinv
      have hne : l ≠ lk := by
        rintro rfl
        exact hl hx
      show (update s.data lk v l).locked = false → (update s.data lk v l).pid = none
      rw [Function.update_of_ne hne]
      exact hinv
  others := by
    intro s p q x d y z hturn hq hapart hz
    obtain ⟨hmine, hknows, hnot⟩ := hturn.knows
    obtain ⟨lk, v, rfl, hx, -, -, -, hfree, -⟩ := (next_of_turn hturn).store hmine hknows hnot
    obtain ⟨hzmine, hzknows, hznot⟩ := hz
    refine ⟨hzmine.update (hzmine.not_held rfl (hfree q hq)), ?_, hznot⟩
    apply hzknows.congr
    intro l hl
    have hne : l ≠ lk := by
      rintro rfl
      exact hapart l hx hl
    rw [Function.update_of_ne hne]
  waiting := by
    intro s p q x d y l z hturn hq hz
    obtain ⟨hmine, hknows, hnot⟩ := hturn.knows
    obtain ⟨lk, v, rfl, -, -, -, -, hfree, -⟩ := (next_of_turn hturn).store hmine hknows hnot
    exact ⟨hz.1.update (hz.1.not_held rfl (hfree q hq)), hz.2⟩

end Valid

/-! ## Every run -/

section Runs

variable {P : Type} [DecidableEq P] {s : State P Lk Lk (Locks P) Loc}

/-- The process is between the return of `acquiresleep` and its `releasesleep`. -/
def Has (s : State P Lk Lk (Locks P) Loc) (p : P) (lk : Lk) : Prop :=
  lk ∈ (s.ctl p).loc.held

theorem good (h : (sleepLocks (P := P)).Reachable s) : outline.Good s := by
  apply (valid fun _ _ => True).good _ _ _ h
  · intro p
    exact ⟨fun lk hlk => (by cases hlk), trivial, fun lk heq => (by cases heq)⟩
  · intro p l heq
    cases heq
  · intro l _
    rfl

omit [DecidableEq P] in
/-- A lock that a process has is locked, in its name. -/
theorem locked_of_has (h : outline.Good s) {p : P} {lk : Lk} (hhas : Has s p lk) :
    s.data lk = { locked := true, pid := some p } := by
  rcases (s.ctl p).run_or_waiting with hrun | ⟨l, hwait⟩
  · exact (h.knows p _ hrun).1 lk hhas
  · exact (h.waits p l _ hwait).1.1 lk hhas

/-- One process at most has a sleep lock, and nobody sleeps on one that is free. -/
theorem sleepLock_exclusive (P : Type) [DecidableEq P] (s : State P Lk Lk (Locks P) Loc)
    (h : (sleepLocks (P := P)).Reachable s) :
    (∀ p q lk, Has s p lk → Has s q lk → p = q) ∧
      ∀ lk, s.holder lk = none → s.table = none → (s.data lk).locked = false →
        ∀ p l x, s.ctl p ≠ .asleep lk l x := by
  have hgood := good h
  constructor
  · intro p q lk hp hq
    have hboth := (locked_of_has hgood hp).symm.trans (locked_of_has hgood hq)
    simpa using hboth
  · intro lk hfree _ hunlocked p l x hasleep
    have hidle : (s.data lk).locked = true :=
      hgood.reason lk hfree ⟨l, x, .inr hasleep⟩
    rw [hunlocked] at hidle
    cases hidle

/-- `q` sleeps on the lock of `p` and gets it after the release. -/
def handover (p q : P) : List (Act P Call) :=
  [.run p (.acquiresleep 5), .run p (.acquiresleep 5), .run p (.acquiresleep 5),
    .run p (.acquiresleep 5), .run q (.acquiresleep 5), .run q (.acquiresleep 5), .go q, .go q,
    .switch q, .run p (.releasesleep 5), .run p (.releasesleep 5), .run p (.releasesleep 5),
    .run p (.releasesleep 5), .run p (.releasesleep 5), .go q, .go q, .go q,
    .run q (.acquiresleep 5), .run q (.acquiresleep 5), .run q (.acquiresleep 5)]

theorem sleepLock_exclusive_handover : ∃ s : State (Fin 2) Lk Lk (Locks (Fin 2)) Loc,
    Has s 1 5 ∧ (∀ p q lk, Has s p lk → Has s q lk → p = q) ∧
      ∀ lk, s.holder lk = none → s.table = none → (s.data lk).locked = false →
        ∀ p l x, s.ctl p ≠ .asleep lk l x := by
  obtain ⟨s, hs, htest⟩ := System.exists_reachable_of_run (M := sleepLocks (P := Fin 2))
    (l := handover 0 1) (p := fun s => (s.ctl 1).loc.held.contains 5) rfl (by decide)
  exact ⟨s, by simpa [Has] using htest, sleepLock_exclusive (Fin 2) s hs⟩

end Runs

end OsWork.Ports.SleepLocks

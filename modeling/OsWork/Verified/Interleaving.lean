import OsWork.Verified.Transition
import Mathlib.Logic.Function.Basic

/-!
# Threads that reason from their views

A thread runs a program of atomic *actions* on a shared state.  An action may be
disabled for the time being (a wait), and a thread may stop for good with an error
(a `panic`).  Between two actions of a thread, others act.

What a thread may rely on is its *view*, the part of the state that no other thread
changes: what it holds locks on, and its own bookkeeping.  `Safe E p c Q v` says that
the program `c`, run by the thread `p` with the view `v`, keeps the invariant, changes
no view but its own, and returns in `Q`; the state is only known through the view
and the invariant.  So the other threads do not appear in a proof about one
program: `Views.Good.step` puts the threads together.

The label of an action is there for the restrictions on a run: `ok p l s` is what is
asked of the state before an action with the label `l`.

## Main results

* `Safe.bind`, `Safe.mono` — the rules for sequences and for consequences.
* `Views.good` — the invariant holds in every state reached, and every thread is
  safe for the rest of its program.
-/

namespace OsWork.Verified.Interleaving

open OsWork.Verified.Transition
open Function (update)

/-- A program over the state `σ` with labels `L`, errors `ε` and results `α`. -/
inductive Prog (σ L ε α : Type)
  | ret (a : α)
  | stop (e : ε)
  /-- The state becomes `f s`, if that is defined; the program goes on as `k s`. -/
  | act (l : L) (f : σ → Option σ) (k : σ → Prog σ L ε α)

variable {P C σ L ε V α β : Type}

namespace Prog

def bind : Prog σ L ε α → (α → Prog σ L ε β) → Prog σ L ε β
  | .ret a, g => g a
  | .stop e, _ => .stop e
  | .act l f k, g => .act l f fun s => (k s).bind g

instance : Monad (Prog σ L ε) where
  pure := .ret
  bind := .bind

/-- One action with the result `v s`, of the state before it. -/
def atomic (l : L) (f : σ → Option σ) (v : σ → α) : Prog σ L ε α :=
  .act l f fun s => .ret (v s)

/-- The program has come to its end. -/
def finished : Prog σ L ε α → Bool
  | .ret _ => true
  | _ => false

end Prog

/-! ## The threads together -/

structure Threads (P σ L ε : Type) where
  shared : σ
  /-- what the thread has still to do -/
  prog : P → Prog σ L ε Unit

/-- Who takes the next step. -/
inductive Act (P C : Type)
  /-- the next action of the thread -/
  | run (p : P)
  /-- a thread with nothing to do starts the call -/
  | call (p : P) (c : C)

/-- No thread is in a call. -/
def Threads.Quiet (s : Threads P σ L ε) : Prop :=
  ∀ p, s.prog p = .ret ()

section Steps

variable [DecidableEq P]

def Threads.step (body : P → C → Prog σ L ε Unit) (s : Threads P σ L ε) :
    Act P C → Option (Threads P σ L ε)
  | .run p =>
      match s.prog p with
      | .act _ f k =>
          (f s.shared).map fun t => { shared := t, prog := update s.prog p (k s.shared) }
      | _ => none
  | .call p c =>
      match s.prog p with
      | .ret _ => some { s with prog := update s.prog p (body p c) }
      | _ => none

/-- The threads `P` with the calls `C`. -/
def threads (init : σ → Prop) (body : P → C → Prog σ L ε Unit) :
    System (Threads P σ L ε) (Act P C) where
  init s := init s.shared ∧ s.Quiet
  step := Threads.step body

end Steps

/-- The restriction on the label of the next action, as one on steps. -/
def Allows (ok : P → L → σ → Prop) (s : Threads P σ L ε) : Act P C → Prop
  | .run p => ∀ l f k, s.prog p = .act l f k → ok p l s.shared
  | .call _ _ => True

instance (ok : P → L → σ → Prop) [∀ p l s, Decidable (ok p l s)] (s : Threads P σ L ε) :
    ∀ a : Act P C, Decidable (Allows ok s a)
  | .run p =>
      match hprog : s.prog p with
      | .ret _ => isTrue fun _ _ _ h => by
          rw [hprog] at h
          cases h
      | .stop _ => isTrue fun _ _ _ h => by
          rw [hprog] at h
          cases h
      | .act l f k => decidable_of_iff (ok p l s.shared)
          ⟨fun hok _ _ _ h => by
            rw [hprog] at h
            cases h
            exact hok, fun hall => hall l f k hprog⟩
  | .call _ _ => isTrue trivial

/-! ## Programs with a view -/

/-- What proofs about the threads `P` share. -/
structure Views (P σ L ε V : Type) where
  inv : σ → Prop
  view : P → σ → V
  /-- what runs are restricted to -/
  ok : P → L → σ → Prop
  /-- the errors that may occur -/
  admits : ε → Prop

variable {E : Views P σ L ε V} {p : P}

/-- The program, run by `p` with the view `v`, keeps to its view and returns in `Q`. -/
def Safe (E : Views P σ L ε V) (p : P) : Prog σ L ε α → (α → V → Prop) → V → Prop
  | .ret a, Q, v => Q a v
  | .stop e, _, _ => E.admits e
  | .act l f k, Q, v =>
      ∀ s, E.inv s → E.view p s = v → E.ok p l s → ∀ t, f s = some t →
        E.inv t ∧ (∀ q, q ≠ p → E.view q t = E.view q s) ∧ Safe E p (k s) Q (E.view p t)

section Rules

variable {Q Q' : α → V → Prop} {R : β → V → Prop} {v : V}

theorem Safe.mono {c : Prog σ L ε α} (h : Safe E p c Q v) (hQ : ∀ a v, Q a v → Q' a v) :
    Safe E p c Q' v := by
  induction c generalizing v with
  | ret a => exact hQ a v h
  | stop e => exact h
  | act l f k ih =>
      intro s hs hv hok t ht
      obtain ⟨hinv, hother, hrest⟩ := h s hs hv hok t ht
      exact ⟨hinv, hother, ih s hrest⟩

theorem Safe.bind {c : Prog σ L ε α} {g : α → Prog σ L ε β}
    (h : Safe E p c (fun a v => Safe E p (g a) R v) v) : Safe E p (c >>= g) R v := by
  induction c generalizing v with
  | ret a => exact h
  | stop e => exact h
  | act l f k ih =>
      intro s hs hv hok t ht
      obtain ⟨hinv, hother, hrest⟩ := h s hs hv hok t ht
      exact ⟨hinv, hother, ih s hrest⟩

/-- The rule for one action with a result. -/
theorem Safe.atomic {l : L} {f : σ → Option σ} {a : σ → α}
    (h : ∀ s, E.inv s → E.view p s = v → E.ok p l s → ∀ t, f s = some t →
      E.inv t ∧ (∀ q, q ≠ p → E.view q t = E.view q s) ∧ Q (a s) (E.view p t)) :
    Safe E p (.atomic l f a) Q v := h

end Rules

/-- The invariant holds, and every thread is safe for the rest of its program. -/
structure Views.Good (E : Views P σ L ε V) (idle : P → V → Prop) (s : Threads P σ L ε) :
    Prop where
  inv : E.inv s.shared
  safe : ∀ p, Safe E p (s.prog p) (fun _ v => idle p v) (E.view p s.shared)

section Good

variable {idle : P → V → Prop} {s : Threads P σ L ε}

theorem Views.Good.quiet (h : E.Good idle s) (hquiet : s.Quiet) (p : P) :
    idle p (E.view p s.shared) := by
  have hsafe := h.safe p
  rw [hquiet p] at hsafe
  exact hsafe

/-- A thread stops only with an error that is admitted. -/
theorem Views.Good.admits {e : ε} (h : E.Good idle s) (hstop : s.prog p = .stop e) :
    E.admits e := by
  have hsafe := h.safe p
  rw [hstop] at hsafe
  exact hsafe

end Good

section Run

variable [DecidableEq P] {body : P → C → Prog σ L ε Unit} {idle : P → V → Prop}
  {init : σ → Prop} {s t : Threads P σ L ε}

theorem Views.Good.step {a : Act P C} (h : E.Good idle s)
    (hbody : ∀ p c v, idle p v → Safe E p (body p c) (fun _ v => idle p v) v)
    (hok : Allows E.ok s a) (hstep : s.step body a = some t) : E.Good idle t := by
  cases a with
  | run p =>
      simp only [Threads.step] at hstep
      have hsafe := h.safe p
      split at hstep
      · rename_i l f k hprog
        rw [hprog] at hsafe
        obtain ⟨u, hu, rfl⟩ := Option.map_eq_some_iff.mp hstep
        obtain ⟨hinv, hother, hrest⟩ :=
          hsafe s.shared h.inv rfl (hok l f k hprog) u hu
        constructor
        · exact hinv
        · intro q
          by_cases hq : q = p
          · rw [hq]
            show Safe E p (update s.prog p (k s.shared) p) _ _
            rw [Function.update_self]
            exact hrest
          · show Safe E q (update s.prog p (k s.shared) q) _ (E.view q u)
            rw [Function.update_of_ne hq, hother q hq]
            exact h.safe q
      · cases hstep
  | call p c =>
      simp only [Threads.step] at hstep
      have hsafe := h.safe p
      split at hstep
      · rename_i u hprog
        rw [hprog] at hsafe
        cases hstep
        constructor
        · exact h.inv
        · intro q
          by_cases hq : q = p
          · rw [hq]
            show Safe E p (update s.prog p (body p c) p) _ _
            rw [Function.update_self]
            exact hbody p c _ hsafe
          · show Safe E q (update s.prog p (body p c) q) _ _
            rw [Function.update_of_ne hq]
            exact h.safe q
      · cases hstep

/-- What holds in every state reached. -/
theorem Views.good (hinit : ∀ s, init s → E.inv s ∧ ∀ p, idle p (E.view p s))
    (hbody : ∀ p c v, idle p v → Safe E p (body p c) (fun _ v => idle p v) v)
    (h : (threads init body).ReachableWhen (Allows E.ok) s) : E.Good idle s := by
  apply h.invariant
  · rintro s ⟨hs, hquiet⟩
    constructor
    · exact (hinit _ hs).1
    · intro p
      rw [hquiet p]
      exact (hinit _ hs).2 p
  · intro s a t hgood hok hstep
    exact hgood.step hbody hok hstep

end Run

end OsWork.Verified.Interleaving

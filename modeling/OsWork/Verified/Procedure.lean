/-!
# Procedures that may stop with an error

A procedure reads and changes a state, returns a value, or stops for good with an
error (a `panic`, a wait that never ends).  `wp E c Q s` says that `c`, started
in `s`, either returns in `Q` or stops with an error in `E`.  With `E` everything,
that is partial correctness; with `E` all errors but one, it says in addition
that this one is out of reach.

The rules are equivalences for the single constructs, so that `simp only` can
execute a procedure symbolically up to the next call.
-/

namespace OsWork.Verified.Procedure

variable {σ ε α β : Type}

/-- A procedure over the state `σ` with the errors `ε`. -/
abbrev Proc (σ ε : Type) : Type → Type :=
  StateT σ (Except ε)

/-- `c` returns in `Q` or stops with an error in `E`. -/
def wp (E : ε → Prop) (c : Proc σ ε α) (Q : α → σ → Prop) (s : σ) : Prop :=
  match c s with
  | .ok (a, t) => Q a t
  | .error e => E e

section Rules

variable {E E' : ε → Prop} {Q Q' : α → σ → Prop} {s t : σ}

theorem wp_bind {R : β → σ → Prop} (c : Proc σ ε α) (f : α → Proc σ ε β) :
    wp E (c >>= f) R s ↔ wp E c (fun a t => wp E (f a) R t) s := by
  show (match (c s >>= fun x => f x.1 x.2 : Except ε (β × σ)) with
    | .ok (a, t) => R a t
    | .error e => E e) ↔ _
  unfold wp
  cases c s with
  | error e => exact Iff.rfl
  | ok x => exact Iff.rfl

theorem wp_get {R : σ → σ → Prop} : wp E (get : Proc σ ε σ) R s ↔ R s s :=
  Iff.rfl

theorem wp_set {R : PUnit → σ → Prop} (t : σ) : wp E (set t : Proc σ ε PUnit) R s ↔ R ⟨⟩ t :=
  Iff.rfl

theorem wp_modify {R : PUnit → σ → Prop} (f : σ → σ) :
    wp E (modify f : Proc σ ε PUnit) R s ↔ R ⟨⟩ (f s) :=
  Iff.rfl

theorem wp_mono {c : Proc σ ε α} (h : wp E c Q s) (hE : ∀ e, E e → E' e)
    (hQ : ∀ a t, Q a t → Q' a t) : wp E' c Q' s := by
  unfold wp at *
  cases hc : c s with
  | error e =>
      rw [hc] at h
      exact hE e h
  | ok x =>
      rw [hc] at h
      exact hQ x.1 x.2 h

/-- What holds of a run that returns. -/
theorem wp_ok {c : Proc σ ε α} {a : α} (h : wp E c Q s) (hc : c s = .ok (a, t)) : Q a t := by
  unfold wp at h
  rw [hc] at h
  exact h

/-- What holds of a run that stops. -/
theorem wp_error {c : Proc σ ε α} {e : ε} (h : wp E c Q s) (hc : c s = .error e) : E e := by
  unfold wp at h
  rw [hc] at h
  exact h

theorem wp_any (c : Proc σ ε α) : wp (fun _ => True) c (fun _ _ => True) s := by
  unfold wp
  split <;> trivial

/-- A part of a procedure of which nothing is asked. -/
theorem wp_bind_any {R : β → σ → Prop} {c : Proc σ ε α} {f : α → Proc σ ε β}
    (h : ∀ a t, wp (fun _ => True) (f a) R t) : wp (fun _ => True) (c >>= f) R s := by
  rw [wp_bind]
  exact wp_mono (wp_any c) (fun _ he => he) fun a t _ => h a t

/-- How a run ends. -/
theorem wp_cases {c : Proc σ ε α} (h : wp E c Q s) :
    (∃ e, c s = .error e ∧ E e) ∨ ∃ a t, c s = .ok (a, t) ∧ Q a t := by
  cases hc : c s with
  | error e => exact .inl ⟨e, rfl, wp_error h hc⟩
  | ok x => exact .inr ⟨x.1, x.2, rfl, wp_ok h hc⟩

end Rules

end OsWork.Verified.Procedure

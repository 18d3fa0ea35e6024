/-!
# Refinement of systems with events

The steps of a system may show an *event*.  `Trace step s es t` says that a run from `s`
to `t` shows the events `es`, in this order.  A relation between the states of two
systems is a simulation when every step of the first is matched by a step of the second
with the same event, or shows nothing and keeps the relation; then the second system has
every trace of the first.

## Main results

* `Simulation.trace` — the traces of the first system are traces of the second.
* `Trace.invariant` — what every step keeps holds at the end of a run.
-/

namespace OsWork.Verified.Refinement

variable {σ τ E : Type}

/-- A run and the events that it shows. -/
inductive Trace (step : σ → Option E → σ → Prop) : σ → List E → σ → Prop
  | refl (s : σ) : Trace step s [] s
  | step {s t u : σ} {es : List E} {e : Option E} :
      Trace step s es t → step t e u → Trace step s (es ++ e.toList) u

variable {step : σ → Option E → σ → Prop} {step' : τ → Option E → τ → Prop} {s t : σ}
  {es : List E}

theorem Trace.invariant {I : σ → Prop} (hstep : ∀ s e t, I s → step s e t → I t)
    (h : Trace step s es t) (hs : I s) : I t := by
  induction h with
  | refl => exact hs
  | step _ hlast ih => exact hstep _ _ _ ih hlast

/-- Every step is matched, or shows nothing and keeps the relation. -/
structure Simulation (step : σ → Option E → σ → Prop) (step' : τ → Option E → τ → Prop)
    (R : σ → τ → Prop) : Prop where
  sim : ∀ s a e t, R s a → step s e t → (∃ b, step' a e b ∧ R t b) ∨ e = none ∧ R t a

/-- The second system has every trace of the first. -/
theorem Simulation.trace {R : σ → τ → Prop} (h : Simulation step step' R) {a : τ} (hs : R s a)
    (ht : Trace step s es t) : ∃ b, Trace step' a es b ∧ R t b := by
  induction ht with
  | refl => exact ⟨a, .refl a, hs⟩
  | step _ hlast ih =>
      obtain ⟨b, hb, hR⟩ := ih
      rcases h.sim _ b _ _ hR hlast with ⟨c, hc, hR'⟩ | ⟨rfl, hR'⟩
      · exact ⟨c, hb.step hc, hR'⟩
      · refine ⟨b, ?_, hR'⟩
        rw [Option.toList_none, List.append_nil]
        exact hb

/-! ## Replaying a run -/

section Replay

variable {α : Type} (f : σ → α → Option (Option E × σ))

/-- The steps that a function of actions takes. -/
def StepOf (s : σ) (e : Option E) (t : σ) : Prop := ∃ a, f s a = some (e, t)

/-- The events and the last state of a list of actions. -/
def replay (s : σ) : List α → Option (List E × σ)
  | [] => some ([], s)
  | a :: as => do
      let (e, t) ← f s a
      let (es, u) ← replay t as
      pure (e.toList ++ es, u)

variable {f}

theorem Trace.cons {s t u : σ} {e : Option E} {es : List E} (h : step s e t)
    (htrace : Trace step t es u) : Trace step s (e.toList ++ es) u := by
  induction htrace with
  | refl =>
      rw [List.append_nil]
      exact (Trace.refl s).step h
  | step _ hlast ih =>
      rw [← List.append_assoc]
      exact ih.step hlast

theorem trace_of_replay {as : List α} {s t : σ} {es : List E}
    (h : replay f s as = some (es, t)) : Trace (StepOf f) s es t := by
  induction as generalizing s es with
  | nil =>
      cases h
      exact .refl _
  | cons a as ih =>
      obtain ⟨⟨e, u⟩, hstep, h⟩ := Option.bind_eq_some_iff.mp h
      obtain ⟨⟨es', v⟩, hrest, h⟩ := Option.bind_eq_some_iff.mp h
      cases h
      exact .cons ⟨a, hstep⟩ (ih hrest)

/-- The form used on concrete runs: a Boolean test of the events and the last state. -/
theorem exists_trace_of_replay {l : List α} {s : σ} {p : List E × σ → Bool}
    (h : (replay f s l).map p = some true) :
    ∃ es t, Trace (StepOf f) s es t ∧ p (es, t) = true := by
  cases hreplay : replay f s l with
  | none =>
      rw [hreplay] at h
      cases h
  | some r =>
      rw [hreplay] at h
      exact ⟨r.1, r.2, trace_of_replay hreplay, Option.some.inj h⟩

end Replay

end OsWork.Verified.Refinement

import Mathlib.Logic.Function.Basic
import Mathlib.Data.Set.Basic

/-!
# Programs over a shared array

A piece of sequential code that reads and writes the cells of an array is a
tree of its accesses.  What it will do next is explicit in the tree, so a
thread that runs such code can be interrupted between any two accesses.

`wp D S c Q m n` says that `c`, started with the array `m`, touches cells in `S`
only, makes at most `n` accesses, and ends in `Q`.  Because the cells are in the
predicate, an array that differs outside `S` is as good (`wp_frame`), and
nothing outside `S` changes (`wp_outside`).  Those two are what makes code on
disjoint parts of an array compose, in sequence or in parallel.

## Main results

* `wp_bind`, `wp_loop` — the rules for sequencing and for counted loops.
* `wp_frame`, `wp_outside` — what happens elsewhere does not matter.
* `wp_run` — a run from beginning to end satisfies the postcondition.
-/

namespace OsWork.Verified.ArrayProg

open Function (update)

variable {ι V α β : Type}

/-! ## Programs -/

/-- The accesses of a piece of code; `draw` is a number from outside, such as a
`rand()` result. -/
inductive Prog (ι V α : Type) : Type
  | ret (a : α)
  | read (i : ι) (k : V → Prog ι V α)
  | write (i : ι) (v : V) (k : Prog ι V α)
  | draw (k : Nat → Prog ι V α)

namespace Prog

/-- First `c`, then `f` with its result. -/
def bind : Prog ι V α → (α → Prog ι V β) → Prog ι V β
  | .ret a, f => f a
  | .read i k, f => .read i fun v => (k v).bind f
  | .write i v k, f => .write i v (k.bind f)
  | .draw k, f => .draw fun x => (k x).bind f

/-- `for (j = j₀; n times; j++)`, with a local `s` that the body updates. -/
def loop (body : Int → α → Prog ι V α) : Nat → Int → α → Prog ι V α
  | 0, _, s => .ret s
  | n + 1, j, s => (body j s).bind fun s' => loop body n (j + 1) s'

/-- The program alone on the array; `draws k` is the `k`-th number drawn. -/
def run [DecidableEq ι] (draws : Nat → Nat) :
    Prog ι V α → Nat → (ι → V) → α × Nat × (ι → V)
  | .ret a, x, m => (a, x, m)
  | .read i k, x, m => (k (m i)).run draws x m
  | .write i v k, x, m => k.run draws x (update m i v)
  | .draw k, x, m => (k (draws x)).run draws (x + 1) m

end Prog

/-! ## Weakest preconditions -/

section Wp

variable [DecidableEq ι] {D : Set Nat} {S T : Set ι} {m m' : ι → V} {n n' : Nat}
  {Q Q' : α → (ι → V) → Prop}

/-- With numbers from `D`, `c` stays in `S`, makes at most `n` accesses and ends
in `Q`. -/
def wp (D : Set Nat) (S : Set ι) : Prog ι V α → (α → (ι → V) → Prop) → (ι → V) → Nat → Prop
  | .ret a, Q, m, _ => Q a m
  | .read _ _, _, _, 0 => False
  | .read i k, Q, m, n + 1 => i ∈ S ∧ wp D S (k (m i)) Q m n
  | .write _ _ _, _, _, 0 => False
  | .write i v k, Q, m, n + 1 => i ∈ S ∧ wp D S k Q (update m i v) n
  | .draw _, _, _, 0 => False
  | .draw k, Q, m, n + 1 => ∀ x ∈ D, wp D S (k x) Q m n

@[simp] theorem wp_ret (a : α) : wp D S (.ret a) Q m n ↔ Q a m := by
  cases n <;> exact Iff.rfl

/-- A weaker postcondition, more cells and more accesses. -/
theorem wp_mono {c : Prog ι V α} (h : wp D S c Q m n) (hS : S ⊆ T) (hn : n ≤ n')
    (hQ : ∀ a m', Q a m' → Q' a m') : wp D T c Q' m n' := by
  induction c generalizing m n n' with
  | ret a =>
      rw [wp_ret] at h ⊢
      exact hQ a m h
  | read i k ih =>
      cases n with
      | zero => exact h.elim
      | succ n =>
          obtain ⟨n', rfl⟩ := Nat.exists_eq_add_of_lt (Nat.lt_of_succ_le hn)
          exact ⟨hS h.1, ih _ h.2 (by omega)⟩
  | write i v k ih =>
      cases n with
      | zero => exact h.elim
      | succ n =>
          obtain ⟨n', rfl⟩ := Nat.exists_eq_add_of_lt (Nat.lt_of_succ_le hn)
          exact ⟨hS h.1, ih h.2 (by omega)⟩
  | draw k ih =>
      cases n with
      | zero => exact h.elim
      | succ n =>
          obtain ⟨n', rfl⟩ := Nat.exists_eq_add_of_lt (Nat.lt_of_succ_le hn)
          exact fun x hx => ih x (h x hx) (by omega)

/-- Fewer numbers that may be drawn. -/
theorem wp_draws {E : Set Nat} {c : Prog ι V α} (h : wp D S c Q m n) (hE : E ⊆ D) :
    wp E S c Q m n := by
  induction c generalizing m n with
  | ret a =>
      rw [wp_ret] at h ⊢
      exact h
  | read i k ih =>
      cases n with
      | zero => exact h.elim
      | succ n => exact ⟨h.1, ih _ h.2⟩
  | write i v k ih =>
      cases n with
      | zero => exact h.elim
      | succ n => exact ⟨h.1, ih h.2⟩
  | draw k ih =>
      cases n with
      | zero => exact h.elim
      | succ n => exact fun x hx => ih x (h x (hE hx))

/-- One piece of code after another. -/
theorem wp_bind {R : β → (ι → V) → Prop} {c : Prog ι V α} {f : α → Prog ι V β}
    (h : wp D S c (fun a m' => wp D S (f a) R m' n') m n) : wp D S (c.bind f) R m (n + n') := by
  induction c generalizing m n with
  | ret a =>
      rw [wp_ret] at h
      exact wp_mono h Set.Subset.rfl (by omega) fun _ _ hR => hR
  | read i k ih =>
      cases n with
      | zero => exact h.elim
      | succ n =>
          rw [Nat.succ_add]
          exact ⟨h.1, ih _ h.2⟩
  | write i v k ih =>
      cases n with
      | zero => exact h.elim
      | succ n =>
          rw [Nat.succ_add]
          exact ⟨h.1, ih h.2⟩
  | draw k ih =>
      cases n with
      | zero => exact h.elim
      | succ n =>
          rw [Nat.succ_add]
          exact fun x hx => ih x (h x hx)

/-- A counted loop with the invariant `I`; every round makes at most `b`
accesses. -/
theorem wp_loop (body : Int → α → Prog ι V α) (I : Int → α → (ι → V) → Prop) (b : Nat)
    (k : Nat) (j : Int) {s : α} (hI : I j s m)
    (hbody : ∀ j' s m, j ≤ j' → j' < j + k → I j' s m →
      wp D S (body j' s) (fun s' m' => I (j' + 1) s' m') m b) :
    wp D S (Prog.loop body k j s) (fun s' m' => I (j + k) s' m') m (k * b) := by
  induction k generalizing j s m with
  | zero =>
      show wp D S (.ret s) _ m _
      rw [wp_ret]
      simpa using hI
  | succ k ih =>
      have hround := hbody j s m (Int.le_refl j) (by omega) hI
      have hrest : wp D S (body j s)
          (fun s' m' => wp D S (Prog.loop body k (j + 1) s')
            (fun s'' m'' => I (j + (k + 1 : Nat)) s'' m'') m' (k * b)) m b := by
        apply wp_mono hround Set.Subset.rfl (Nat.le_refl b)
        intro s' m' hI'
        have hloop := ih (j + 1) hI' fun j' s'' m'' hle hlt =>
          hbody j' s'' m'' (by omega) (by omega)
        have heq : j + 1 + (k : Int) = j + (k + 1 : Nat) := by omega
        rwa [heq] at hloop
      have hcost : (k + 1) * b = b + k * b := by
        rw [Nat.succ_mul, Nat.add_comm]
      rw [hcost]
      exact wp_bind hrest

/-- Cells outside `S` are not looked at. -/
theorem wp_frame {c : Prog ι V α} (h : wp D S c Q m n) (hm : ∀ i ∈ S, m i = m' i)
    (hQ : ∀ a m₁ m₂, (∀ i ∈ S, m₁ i = m₂ i) → Q a m₁ → Q a m₂) : wp D S c Q m' n := by
  induction c generalizing m m' n with
  | ret a =>
      rw [wp_ret] at h ⊢
      exact hQ a m m' hm h
  | read i k ih =>
      cases n with
      | zero => exact h.elim
      | succ n =>
          refine ⟨h.1, ?_⟩
          rw [← hm i h.1]
          exact ih _ h.2 hm
  | write i v k ih =>
      cases n with
      | zero => exact h.elim
      | succ n =>
          refine ⟨h.1, ih h.2 ?_⟩
          intro i' hi'
          simp only [Function.update_apply, hm i' hi']
  | draw k ih =>
      cases n with
      | zero => exact h.elim
      | succ n => exact fun x hx => ih x (h x hx) hm

/-- Cells outside `S` are not written. -/
theorem wp_outside {c : Prog ι V α} (h : wp D S c Q m n) :
    wp D S c (fun a m' => Q a m' ∧ ∀ i, i ∉ S → m' i = m i) m n := by
  suffices hgen : ∀ m₀ : ι → V, (∀ i, i ∉ S → m i = m₀ i) →
      wp D S c (fun a m' => Q a m' ∧ ∀ i, i ∉ S → m' i = m₀ i) m n from
    hgen m fun _ _ => rfl
  intro m₀ hm₀
  induction c generalizing m n with
  | ret a =>
      rw [wp_ret] at h ⊢
      exact ⟨h, hm₀⟩
  | read i k ih =>
      cases n with
      | zero => exact h.elim
      | succ n => exact ⟨h.1, ih _ h.2 hm₀⟩
  | write i v k ih =>
      cases n with
      | zero => exact h.elim
      | succ n =>
          refine ⟨h.1, ih h.2 ?_⟩
          intro i' hi'
          have hne : i' ≠ i := by
            rintro rfl
            exact hi' h.1
          rw [Function.update_of_ne hne]
          exact hm₀ i' hi'
  | draw k ih =>
      cases n with
      | zero => exact h.elim
      | succ n => exact fun x hx => ih x (h x hx) hm₀

/-- A run of the program alone ends in the postcondition. -/
theorem wp_run {c : Prog ι V α} (h : wp D S c Q m n) {draws : Nat → Nat}
    (hd : ∀ k, draws k ∈ D) (x : Nat) :
    Q (c.run draws x m).1 (c.run draws x m).2.2 := by
  induction c generalizing m n x with
  | ret a =>
      rw [wp_ret] at h
      exact h
  | read i k ih =>
      cases n with
      | zero => exact h.elim
      | succ n => exact ih _ h.2 x
  | write i v k ih =>
      cases n with
      | zero => exact h.elim
      | succ n => exact ih h.2 x
  | draw k ih =>
      cases n with
      | zero => exact h.elim
      | succ n => exact ih _ (h (draws x) (hd x)) (x + 1)

end Wp

end OsWork.Verified.ArrayProg

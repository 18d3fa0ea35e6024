import Mathlib.Data.List.Basic

/-!
# Lock skeletons

What a piece of kernel code does to spin locks is written as a term of `Code`:
the calls of acquire and release in their order, the branches and loops between
them, and the points where the CPU is handed from one thread to another.  The
data the code computes with is left out, so that a branch is a free choice.

A lock is acquired *at a rank*.  One lock may be acquired at different ranks by
different code; a CPU always acquires at a rank above all the ranks it holds.
The weakest precondition `wp` says that of all acquires a skeleton can come to,
with the locks `H` held before it and `K` required of those held after it.

## Main results

* `wp_mono` — the rule of consequence.
* `wpStack_push` — a call pushed on a continuation.
-/

namespace OsWork.Verified.LockOrder

universe u

/-- A lock together with the rank it was acquired at. -/
abbrev Grip (Λ : Type u) := Λ × Nat

/-- The lock skeleton of a piece of kernel code. -/
inductive Code (Λ : Type u)
  | skip
  /-- spin until the lock is free, and take it -/
  | acquire (l : Λ) (rank : Nat)
  | release (l : Λ)
  | seq (a b : Code Λ)
  | choice (a b : Code Λ)
  /-- any of a family, for instance a lock inside an object found at run time -/
  | anyOf (f : Nat → Code Λ)
  | loop (a : Code Λ)
  | forever (a : Code Λ)
  /-- a test whether this CPU runs a thread or its own scheduler -/
  | ifThread (a b : Code Λ)
  /-- a thread gives the CPU back to the CPU's scheduler -/
  | park
  /-- a scheduler hands its CPU to a parked thread -/
  | resume
  /-- create a thread -/
  | spawn
  /-- stop this CPU, with whatever it holds -/
  | halt

namespace Code

variable {Λ : Type u}

/-- A sequence of statements. -/
def block : List (Code Λ) → Code Λ
  | [] => skip
  | a :: as => seq a (block as)

/-- Put a statement in front of a continuation, taken apart as far as control
flow goes: the head of a continuation is never `skip` or `seq`. -/
def push : Code Λ → List (Code Λ) → List (Code Λ)
  | skip, k => k
  | seq a b, k => push a (push b k)
  | a, k => a :: k

end Code

/-! ## Weakest preconditions -/

section Wp

variable {Λ : Type u} [DecidableEq Λ] (gate : Grip Λ) (legal : Grip Λ → Prop)

/-- All acquires of the skeleton are legal and above the ranks held, and `K`
holds of the locks held at the end.  Threads change hands only while `gate` is
the one lock held.  A CPU that acquires a lock it holds, or releases one it
does not hold, stops. -/
def wp : Code Λ → (List (Grip Λ) → Prop) → List (Grip Λ) → Prop
  | .skip, K, H => K H
  | .acquire l r, K, H =>
      l ∉ H.map Prod.fst →
        legal (l, r) ∧ (∀ h ∈ H, h.2 < r) ∧ K ((l, r) :: H)
  | .release l, K, H => l ∈ H.map Prod.fst → K (H.eraseP fun h => h.1 = l)
  | .seq a b, K, H => wp a (wp b K) H
  | .choice a b, K, H => wp a K H ∧ wp b K H
  | .anyOf f, K, H => ∀ i, wp (f i) K H
  | .loop a, K, H => K H ∧ wp a (· = H) H
  | .forever a, _, H => wp a (· = H) H
  | .ifThread a b, K, H => wp a K H ∧ wp b K H
  | .park, K, H => H.map Prod.fst = [gate.1] → H = [gate] ∧ K [gate]
  | .resume, K, H => H = [gate] ∧ K [gate]
  | .spawn, K, H => K H
  | .halt, _, _ => True

/-- The weakest precondition of a continuation, of which nothing is required
once it has run out. -/
def wpStack : List (Code Λ) → List (Grip Λ) → Prop
  | [] => fun _ => True
  | a :: k => wp gate legal a (wpStack k)

variable {gate} {legal} {K K' : List (Grip Λ) → Prop} {H : List (Grip Λ)}

/-- The rule of consequence. -/
theorem wp_mono {a : Code Λ} (himp : ∀ H, K H → K' H)
    (h : wp gate legal a K H) : wp gate legal a K' H := by
  induction a generalizing K K' H with
  | skip => exact himp H h
  | acquire l r =>
      intro hl
      obtain ⟨hlegal, hrank, hK⟩ := h hl
      exact ⟨hlegal, hrank, himp _ hK⟩
  | release l => exact fun hl => himp _ (h hl)
  | seq a b iha ihb => exact iha (fun _ hb => ihb himp hb) h
  | choice a b iha ihb | ifThread a b iha ihb => exact ⟨iha himp h.1, ihb himp h.2⟩
  | anyOf f ih => exact fun i => ih i himp (h i)
  | loop a => exact ⟨himp H h.1, h.2⟩
  | forever a => exact h
  | park =>
      intro hH
      exact ⟨(h hH).1, himp _ (h hH).2⟩
  | resume => exact ⟨h.1, himp _ h.2⟩
  | spawn => exact himp H h
  | halt => exact h

/-- A statement pushed on a continuation requires what its `wp` requires. -/
theorem wpStack_push {a : Code Λ} {k : List (Code Λ)} :
    wpStack gate legal (a.push k) H ↔ wp gate legal a (wpStack gate legal k) H := by
  induction a generalizing k H with
  | skip => exact Iff.rfl
  | seq a b iha ihb =>
      have hpost : wpStack gate legal (b.push k) = wp gate legal b (wpStack gate legal k) :=
        funext fun _ => propext ihb
      simp only [Code.push, iha, hpost, wp]
  | _ => exact Iff.rfl

/-! ## The rules as rewriting rules -/

@[simp] theorem wp_skip : wp gate legal .skip K = K := rfl

@[simp] theorem wp_seq {a b : Code Λ} :
    wp gate legal (.seq a b) K H ↔ wp gate legal a (wp gate legal b K) H := Iff.rfl

@[simp] theorem wp_block_nil : wp gate legal (.block []) K = K := rfl

@[simp] theorem wp_block_cons {a : Code Λ} {as : List (Code Λ)} :
    wp gate legal (.block (a :: as)) K H ↔
      wp gate legal a (wp gate legal (.block as) K) H := Iff.rfl

@[simp] theorem wp_choice {a b : Code Λ} :
    wp gate legal (.choice a b) K H ↔ wp gate legal a K H ∧ wp gate legal b K H := Iff.rfl

@[simp] theorem wp_anyOf {f : Nat → Code Λ} :
    wp gate legal (.anyOf f) K H ↔ ∀ i, wp gate legal (f i) K H := Iff.rfl

@[simp] theorem wp_loop {a : Code Λ} :
    wp gate legal (.loop a) K H ↔ K H ∧ wp gate legal a (· = H) H := Iff.rfl

@[simp] theorem wp_forever {a : Code Λ} :
    wp gate legal (.forever a) K H ↔ wp gate legal a (· = H) H := Iff.rfl

@[simp] theorem wp_ifThread {a b : Code Λ} :
    wp gate legal (.ifThread a b) K H ↔ wp gate legal a K H ∧ wp gate legal b K H := Iff.rfl

@[simp] theorem wp_spawn : wp gate legal .spawn K H ↔ K H := Iff.rfl

@[simp] theorem wp_halt : wp gate legal .halt K H ↔ True := Iff.rfl

@[simp] theorem wp_resume :
    wp gate legal .resume K H ↔ H = [gate] ∧ K [gate] := Iff.rfl

theorem wp_acquire {l : Λ} {r : Nat} :
    wp gate legal (.acquire l r) K H ↔
      (l ∉ H.map Prod.fst →
        legal (l, r) ∧ (∀ h ∈ H, h.2 < r) ∧ K ((l, r) :: H)) := Iff.rfl

theorem wp_release {l : Λ} :
    wp gate legal (.release l) K H ↔
      (l ∈ H.map Prod.fst → K (H.eraseP fun h => h.1 = l)) := Iff.rfl

theorem wp_park :
    wp gate legal .park K H ↔
      (H.map Prod.fst = [gate.1] → H = [gate] ∧ K [gate]) := Iff.rfl

end Wp

end OsWork.Verified.LockOrder

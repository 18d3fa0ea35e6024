import Mathlib.Data.List.Nodup
import Mathlib.Logic.Function.Basic

/-!
# Linked lists with a sentinel

Nodes are linked by a function `next`, and `none` is the sentinel: the head of the
list, or the variable that points to its first node and the null pointer at its end.
`Path next a l z` says that the links lead from `a` over the nodes of `l` to `z`; a
list in memory is a path from the sentinel back to the sentinel.

## Main results

* `Path.append`, `Path.push`, `Path.unlink` — what the stores to links do to the list.
-/

namespace OsWork.Verified.LinkedRing

open Function (update)

universe u

variable {B : Type u} {next : Option B → Option B} {a z v : Option B} {l m : List B} {b : B}

/-- The links lead from `a` over `l` to `z`. -/
def Path (next : Option B → Option B) (a : Option B) (l : List B) (z : Option B) : Prop :=
  match l with
  | [] => next a = z
  | b :: l => next a = some b ∧ Path next (some b) l z

/-- The last node of a path from `a` over `l`. -/
def last (a : Option B) (l : List B) : Option B :=
  match l with
  | [] => a
  | b :: l => last (some b) l

theorem last_append_cons : last a (l ++ b :: m) = last (some b) m := by
  induction l generalizing a with
  | nil => rfl
  | cons c l ih => exact ih

theorem last_mem : last a l = a ∨ ∃ b ∈ l, last a l = some b := by
  induction l generalizing a with
  | nil => exact .inl rfl
  | cons c l ih =>
      right
      rcases ih (a := some c) with heq | ⟨b, hb, heq⟩
      · exact ⟨c, List.mem_cons_self, heq⟩
      · exact ⟨b, List.mem_cons_of_mem c hb, heq⟩

theorem last_ne (hb : b ∉ l) : last none l ≠ some b := by
  rcases last_mem (a := none) (l := l) with heq | ⟨c, hc, heq⟩
  · rw [heq]
    exact (Option.some_ne_none b).symm
  · rw [heq]
    rintro ⟨rfl⟩
    exact hb hc

theorem path_append_cons :
    Path next a (l ++ b :: m) z ↔ Path next a l (some b) ∧ Path next (some b) m z := by
  induction l generalizing a with
  | nil => rfl
  | cons c l ih =>
      show next a = some c ∧ Path next (some c) (l ++ b :: m) z ↔ _
      rw [ih, ← and_assoc]
      rfl

theorem Path.congr {next' : Option B → Option B} (h : Path next a l z)
    (ha : next' a = next a) (hl : ∀ b ∈ l, next' (some b) = next (some b)) :
    Path next' a l z := by
  induction l generalizing a with
  | nil => exact ha.trans h
  | cons c l ih =>
      exact ⟨ha.trans h.1, ih h.2 (hl c List.mem_cons_self)
        fun b hb => hl b (List.mem_cons_of_mem c hb)⟩

theorem Path.next_last (h : Path next a l z) : next (last a l) = z := by
  induction l generalizing a with
  | nil => exact h
  | cons c l ih => exact ih h.2

/-- Where the links lead is determined by the links. -/
theorem Path.head (h : Path next a l none) : next a = l.head? := by
  cases l with
  | nil => exact h
  | cons c l => exact h.1

variable [DecidableEq B]

/-- A store to a link of no node of the path. -/
theorem Path.update (h : Path next a l z) (ha : some b ≠ a) (hb : b ∉ l) :
    Path (update next (some b) v) a l z := by
  apply h.congr
  · exact Function.update_of_ne (Ne.symm ha) _ _
  · intro c hc
    apply Function.update_of_ne
    rintro ⟨rfl⟩
    exact hb hc

/-- A store to the link of the last node. -/
theorem Path.update_last (h : Path next a l z) (ha : ∀ b ∈ l, some b ≠ a) (hl : l.Nodup) :
    Path (Function.update next (last a l) v) a l v := by
  induction l generalizing a with
  | nil => exact Function.update_self _ _ _
  | cons c l ih =>
      have hc := List.nodup_cons.mp hl
      have hstart : ∀ b ∈ l, some b ≠ some c := by
        rintro b hb ⟨rfl⟩
        exact hc.1 hb
      refine ⟨?_, ih h.2 hstart hc.2⟩
      have hne : a ≠ last (some c) l := by
        rcases last_mem (a := some c) (l := l) with heq | ⟨b, hb, heq⟩
        · rw [heq]
          exact (ha c List.mem_cons_self).symm
        · rw [heq]
          exact (ha b (List.mem_cons_of_mem c hb)).symm
      show Function.update next (last (some c) l) v a = some c
      rw [Function.update_of_ne hne]
      exact h.1

/-- `*pp = b` for the last link, where the link of `b` is the null pointer. -/
theorem Path.append (h : Path next none l z) (hl : l.Nodup) (hb : b ∉ l)
    (hnull : next (some b) = v) :
    Path (Function.update next (last none l) (some b)) none (l ++ [b]) v := by
  rw [path_append_cons]
  refine ⟨h.update_last (fun c _ => Option.some_ne_none c) hl, ?_⟩
  show Function.update next _ _ (some b) = v
  rw [Function.update_of_ne (last_ne hb).symm]
  exact hnull

/-- A node is put behind the sentinel. -/
theorem Path.push (h : Path next none l none) (hb : b ∉ l) :
    Path (Function.update (Function.update next (some b) (next none)) none (some b)) none
      (b :: l) none := by
  refine ⟨Function.update_self _ _ _, ?_⟩
  have hlink : Function.update (Function.update next (some b) (next none)) none (some b) (some b)
      = next none := by
    rw [Function.update_of_ne (Option.some_ne_none b), Function.update_self]
  cases l with
  | nil => exact hlink.trans h
  | cons c l =>
      refine ⟨hlink.trans h.1, ?_⟩
      have hrest : Path next (some c) l none := h.2
      have hne : some b ≠ some c := by
        rintro ⟨rfl⟩
        exact hb List.mem_cons_self
      have hstored := hrest.update (v := next none) hne fun hmem =>
        hb (List.mem_cons_of_mem c hmem)
      exact hstored.congr (Function.update_of_ne (Option.some_ne_none c) _ _)
        fun d _ => Function.update_of_ne (Option.some_ne_none d) _ _

/-- A node is taken out: the node before it gets its link. -/
theorem Path.unlink (h : Path next none (l ++ b :: m) z) (hnodup : (l ++ b :: m).Nodup) :
    Path (Function.update next (last none l) (next (some b))) none (l ++ m) z := by
  obtain ⟨hfirst, hrest⟩ := path_append_cons.mp h
  obtain ⟨hl, hbm, hdisjoint⟩ := List.nodup_append.mp hnodup
  have hb : b ∉ l := fun hmem => hdisjoint b hmem b List.mem_cons_self rfl
  have hstored : Path (Function.update next (last none l) (next (some b))) none l
      (next (some b)) := hfirst.update_last (fun c _ => Option.some_ne_none c) hl
  cases m with
  | nil =>
      rw [List.append_nil]
      have hz : next (some b) = z := hrest
      rw [hz] at hstored ⊢
      exact hstored
  | cons c m =>
      rw [path_append_cons]
      have hc : next (some b) = some c := hrest.1
      refine ⟨hc ▸ hstored, ?_⟩
      have hkeep : ∀ d ∈ c :: m, Function.update next (last none l) (next (some b)) (some d) =
          next (some d) := by
        intro d hd
        apply Function.update_of_ne
        apply Ne.symm
        apply last_ne
        exact fun hmem => hdisjoint d hmem d (List.mem_cons_of_mem b hd) rfl
      exact hrest.2.congr (hkeep c List.mem_cons_self)
        fun d hd => hkeep d (List.mem_cons_of_mem c hd)

end OsWork.Verified.LinkedRing

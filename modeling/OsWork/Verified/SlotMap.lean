import Mathlib.Data.List.GetD
import Mathlib.Logic.Basic

/-!
# Finite maps in arrays of slots

A list of slots, each free or in use with a key and a value, and no key in two slots.  A lookup
scans for the first slot with the key; an insertion takes a free slot or makes the list longer;
a removal frees the slot.

## Main results

* `find_eq_some` — a lookup finds the slot of the key.
* `find_insert`, `find_erase` — a map is changed at one key.
-/

namespace OsWork.Verified.SlotMap

variable {K V : Type}

/-- The first slot with the key `k`, where the slots are counted from `i` on. -/
def find [DecidableEq K] (k : K) : List (Option (K × V)) → Nat → Option (Nat × V)
  | [], _ => none
  | none :: s, i => find k s (i + 1)
  | some e :: s, i => if e.1 = k then some (i, e.2) else find k s (i + 1)

/-- The first free slot, or the one behind the last. -/
def firstFree : List (Option (K × V)) → Nat → Nat
  | [], i => i
  | none :: _, i => i
  | some _ :: s, i => firstFree s (i + 1)

/-- A store to a slot, or to the one behind the last. -/
def put (s : List (Option (K × V))) (i : Nat) (x : Option (K × V)) : List (Option (K × V)) :=
  if i < s.length then s.set i x else s ++ [x]

/-- No key is in two slots. -/
def Distinct (s : List (Option (K × V))) : Prop :=
  ∀ (i j : Nat) (k : K) (v w : V), s[i]? = some (some (k, v)) → s[j]? = some (some (k, w)) → i = j

variable {s : List (Option (K × V))} {i j : Nat} {k k' : K} {v w : V} {x : Option (K × V)}

theorem distinct_of_nodup (h : (s.map (Option.map Prod.fst)).Nodup) : Distinct s := by
  intro i j k v w hi hj
  have hkey : ∀ {i : Nat} {v : V}, s[i]? = some (some (k, v)) →
      (s.map (Option.map Prod.fst))[i]? = some (some k) := by
    intro i v hget
    rw [List.getElem?_map, hget]
    rfl
  have hlt := (List.getElem?_eq_some_iff.mp (hkey hi)).1
  exact (List.getElem?_inj hlt h).mp ((hkey hi).trans (hkey hj).symm)

theorem put_length (hi : i ≤ s.length) : (put s i x).length = max s.length (i + 1) := by
  unfold put
  split
  · rw [List.length_set]
    omega
  · rw [List.length_append, List.length_singleton]
    omega

theorem put_getElem? (hi : i ≤ s.length) : (put s i x)[j]? = if j = i then some x else s[j]? := by
  unfold put
  by_cases hlt : i < s.length
  · rw [if_pos hlt, List.getElem?_set]
    by_cases hji : j = i
    · rw [if_pos hji, if_pos hji.symm, if_pos hlt]
    · rw [if_neg hji, if_neg (Ne.symm hji)]
  · have heq : i = s.length := by omega
    rw [if_neg hlt]
    by_cases hji : j = i
    · rw [if_pos hji, hji, heq, List.getElem?_concat_length]
    · rw [if_neg hji]
      by_cases hj : j < s.length
      · exact List.getElem?_append_left hj
      · rw [List.getElem?_eq_none (by rw [List.length_append, List.length_singleton]; omega),
          List.getElem?_eq_none (by omega)]

theorem firstFree_le (s : List (Option (K × V))) :
    ∀ i, firstFree s i ≤ i + s.length ∧ i ≤ firstFree s i := by
  induction s with
  | nil => exact fun i => ⟨Nat.le_refl i, Nat.le_refl i⟩
  | cons x s ih =>
      intro i
      have hrest := ih (i + 1)
      cases x with
      | none =>
          show i ≤ _ ∧ i ≤ i
          exact ⟨Nat.le_add_right _ _, Nat.le_refl i⟩
      | some e =>
          show firstFree s (i + 1) ≤ _ ∧ i ≤ firstFree s (i + 1)
          rw [List.length_cons]
          omega

/-- It is free. -/
theorem firstFree_free (s : List (Option (K × V))) :
    ∀ i e, s[firstFree s i - i]? ≠ some (some e) := by
  induction s with
  | nil => exact fun i e => nofun
  | cons x s ih =>
      intro i e
      cases x with
      | none =>
          show (none :: s)[i - i]? ≠ _
          rw [Nat.sub_self]
          exact nofun
      | some y =>
          have hle := (firstFree_le s (i + 1)).2
          show (some y :: s)[firstFree s (i + 1) - i]? ≠ _
          have hsub : firstFree s (i + 1) - i = firstFree s (i + 1) - (i + 1) + 1 := by omega
          rw [hsub, List.getElem?_cons_succ]
          exact ih (i + 1) e

section Find

variable [DecidableEq K]

theorem find_some : ∀ (s : List (Option (K × V))) (i : Nat), find k s i = some (j, v) →
    i ≤ j ∧ s[j - i]? = some (some (k, v)) := by
  intro s
  induction s with
  | nil => exact fun i h => nomatch h
  | cons x s ih =>
      intro i h
      have hskip : find k s (i + 1) = some (j, v) → i ≤ j ∧ (x :: s)[j - i]? = some (some (k, v)) := by
        intro hrest
        obtain ⟨hle, hget⟩ := ih (i + 1) hrest
        have hsub : j - i = j - (i + 1) + 1 := by omega
        rw [hsub, List.getElem?_cons_succ]
        exact ⟨by omega, hget⟩
      cases x with
      | none => exact hskip h
      | some e =>
          unfold find at h
          by_cases hkey : e.1 = k
          · rw [if_pos hkey] at h
            simp only [Option.some.injEq, Prod.mk.injEq] at h
            obtain ⟨rfl, rfl⟩ := h
            rw [Nat.sub_self, ← hkey]
            exact ⟨Nat.le_refl _, rfl⟩
          · rw [if_neg hkey] at h
            exact hskip h

/-- A key that is there is found, in the same or an earlier slot. -/
theorem find_isSome : ∀ (s : List (Option (K × V))) (i j : Nat), s[j]? = some (some (k, v)) →
    (find k s i).isSome = true := by
  intro s
  induction s with
  | nil => exact fun i j h => nomatch h
  | cons x s ih =>
      intro i j h
      cases j with
      | zero =>
          rw [List.getElem?_cons_zero, Option.some.injEq] at h
          subst h
          unfold find
          rw [if_pos rfl]
          rfl
      | succ j =>
          rw [List.getElem?_cons_succ] at h
          have hrest := ih (i + 1) j h
          cases x with
          | none => exact hrest
          | some e =>
              unfold find
              split
              · rfl
              · exact hrest

theorem find_eq_some (h : Distinct s) : find k s 0 = some (j, v) ↔ s[j]? = some (some (k, v)) := by
  constructor
  · intro hfind
    exact (find_some s 0 hfind).2
  · intro hget
    obtain ⟨⟨j', v'⟩, hfind⟩ := Option.isSome_iff_exists.mp (find_isSome s 0 j hget)
    have hget' := (find_some s 0 hfind).2
    rw [Nat.sub_zero] at hget'
    obtain rfl := h j j' k v v' hget hget'
    rw [hget] at hget'
    simp only [Option.some.injEq, Prod.mk.injEq, true_and] at hget'
    rw [hfind, hget']

theorem find_eq_none : find k s 0 = none ↔ ∀ (j : Nat) (v : V), s[j]? ≠ some (some (k, v)) := by
  constructor
  · intro hnone j v hget
    have hsome := find_isSome s 0 j hget
    rw [hnone] at hsome
    cases hsome
  · intro hno
    cases hfind : find k s 0 with
    | none => rfl
    | some e =>
        obtain ⟨j, v⟩ := e
        exact absurd (find_some s 0 hfind).2 (hno _ v)

/-- A key is added in a free slot. -/
theorem distinct_insert (h : Distinct s) (hi : i ≤ s.length) (hnone : find k s 0 = none) :
    Distinct (put s i (some (k, v))) := by
  have hno := find_eq_none.mp hnone
  intro a b key u w ha hb
  rw [put_getElem? hi] at ha hb
  by_cases hai : a = i
  · rw [if_pos hai, Option.some.injEq, Option.some.injEq, Prod.mk.injEq] at ha
    by_cases hbi : b = i
    · rw [hai, hbi]
    · rw [if_neg hbi, ← ha.1] at hb
      exact absurd hb (hno b w)
  · rw [if_neg hai] at ha
    by_cases hbi : b = i
    · rw [if_pos hbi, Option.some.injEq, Option.some.injEq, Prod.mk.injEq] at hb
      rw [← hb.1] at ha
      exact absurd ha (hno a u)
    · rw [if_neg hbi] at hb
      exact h a b key u w ha hb

theorem find_insert (h : Distinct s) (hi : i ≤ s.length) (hnone : find k s 0 = none)
    (hfree : ∀ e, s[i]? ≠ some (some e)) :
    find k' (put s i (some (k, v))) 0 = if k' = k then some (i, v) else find k' s 0 := by
  have hdist := distinct_insert (v := v) h hi hnone
  apply Option.ext
  rintro ⟨j, w⟩
  rw [find_eq_some hdist, put_getElem? hi]
  by_cases hkey : k' = k
  · rw [if_pos hkey, hkey]
    by_cases hji : j = i
    · rw [if_pos hji, hji]
      simp
    · rw [if_neg hji]
      refine iff_of_false (find_eq_none.mp hnone j w) ?_
      rw [Option.some.injEq, Prod.mk.injEq]
      exact fun heq => hji heq.1.symm
  · rw [if_neg hkey, find_eq_some h]
    by_cases hji : j = i
    · rw [if_pos hji, hji]
      refine iff_of_false ?_ (hfree _)
      rw [Option.some.injEq, Option.some.injEq, Prod.mk.injEq]
      exact fun heq => hkey heq.1.symm
    · rw [if_neg hji]

omit [DecidableEq K] in
/-- A slot is given up. -/
theorem distinct_erase (h : Distinct s) (hi : i ≤ s.length) : Distinct (put s i none) := by
  intro a b key u w ha hb
  rw [put_getElem? hi] at ha hb
  split at ha
  · cases ha
  · split at hb
    · cases hb
    · exact h a b key u w ha hb

theorem find_erase (h : Distinct s) (hi : i ≤ s.length) (hget : s[i]? = some (some (k, v))) :
    find k' (put s i none) 0 = if k' = k then none else find k' s 0 := by
  have hdist := distinct_erase h hi
  apply Option.ext
  rintro ⟨j, w⟩
  rw [find_eq_some hdist, put_getElem? hi]
  by_cases hji : j = i
  · rw [if_pos hji, hji]
    refine iff_of_false nofun ?_
    split
    · exact nofun
    · rename_i hkey
      rw [find_eq_some h, hget, Option.some.injEq, Option.some.injEq, Prod.mk.injEq]
      exact fun heq => hkey heq.1.symm
  · rw [if_neg hji]
    by_cases hkey : k' = k
    · rw [if_pos hkey]
      refine iff_of_false ?_ nofun
      intro hj
      rw [hkey] at hj
      exact hji (h j i k w v hj hget)
    · rw [if_neg hkey, find_eq_some h]

end Find

end OsWork.Verified.SlotMap

import Mathlib.Data.Int.Interval
import Mathlib.Data.List.Sort
import Mathlib.Data.Finset.Image
import Mathlib.Logic.Equiv.Basic
import Mathlib.Logic.Function.Basic

/-!
# Segments of an array

An array is a function on `Int`.  Its segment from `l` to `r`, both included, is
the multiset of the values there: two arrays are rearrangements of each other on
`[l, r]` when the segments are equal.

## Main results

* `segment_exchange` — swapping two cells of the segment rearranges it.
* `segment_split` — a segment is its part before a cell, the cell and its part
  after it.
* `Ordered.of_split` — two ordered parts around a pivot are ordered together.
* `Ordered.eq_of_segment` — there is one ordered rearrangement.
-/

namespace OsWork.Verified.Segment

variable {V : Type}

/-- The indices from `l` to `r`. -/
def cells (l r : Int) : Set Int :=
  {i | l ≤ i ∧ i ≤ r}

theorem cells_mono {l l' r r' : Int} (hl : l ≤ l') (hr : r' ≤ r) : cells l' r' ⊆ cells l r :=
  fun _ hi => ⟨le_trans hl hi.1, le_trans hi.2 hr⟩

/-- The values of the array from `l` to `r`. -/
def segment (m : Int → V) (l r : Int) : Multiset V :=
  (Multiset.range (r + 1 - l).toNat).map fun k : Nat => m (l + k)

/-- The segment as the image of a set of indices. -/
theorem segment_eq_map (m : Int → V) {l r : Int} {s : Finset Int}
    (hs : ∀ i, i ∈ s ↔ l ≤ i ∧ i ≤ r) : segment m l r = s.val.map m := by
  have hs' : s = Finset.Icc l r := by
    ext i
    rw [hs, Finset.mem_Icc]
  rw [hs']
  show _ = ((Multiset.range (r + 1 - l).toNat).map _).map m
  rw [Multiset.map_map]
  rfl

theorem mem_segment {m : Int → V} {l r : Int} {x : V} :
    x ∈ segment m l r ↔ ∃ i, l ≤ i ∧ i ≤ r ∧ m i = x := by
  rw [segment_eq_map m (s := Finset.Icc l r) (by simp)]
  simp [and_assoc]

theorem segment_congr {m m' : Int → V} {l r : Int}
    (h : ∀ i, l ≤ i → i ≤ r → m i = m' i) : segment m l r = segment m' l r := by
  apply Multiset.map_congr rfl
  intro k hk
  rw [Multiset.mem_range] at hk
  exact h _ (by omega) (by omega)

/-- The array with two cells exchanged. -/
def exchange (m : Int → V) (a b : Int) : Int → V :=
  m ∘ Equiv.swap a b

theorem exchange_left (m : Int → V) (a b : Int) : exchange m a b a = m b := by
  simp [exchange]

theorem exchange_right (m : Int → V) (a b : Int) : exchange m a b b = m a := by
  simp [exchange]

theorem exchange_of_ne (m : Int → V) {a b i : Int} (ha : i ≠ a) (hb : i ≠ b) :
    exchange m a b i = m i := by
  simp [exchange, Equiv.swap_apply_of_ne_of_ne ha hb]

/-- Three assignments exchange two cells. -/
theorem update_update (m : Int → V) (a b : Int) :
    Function.update (Function.update m a (m b)) b (m a) = exchange m a b := by
  funext i
  by_cases hb : i = b
  · rw [hb, Function.update_self, exchange_right]
  · rw [Function.update_of_ne hb]
    by_cases ha : i = a
    · rw [ha, Function.update_self, exchange_left]
    · rw [Function.update_of_ne ha, exchange_of_ne m ha hb]

theorem segment_exchange (m : Int → V) {l r a b : Int} (ha : a ∈ cells l r)
    (hb : b ∈ cells l r) : segment (exchange m a b) l r = segment m l r := by
  have hmem : ∀ i, i ∈ Finset.Icc l r ↔ l ≤ i ∧ i ≤ r := by
    simp
  have hperm : (Finset.Icc l r).map (Equiv.swap a b).toEmbedding = Finset.Icc l r := by
    apply Finset.map_perm
    intro i hi
    by_contra hout
    rw [Finset.mem_coe, hmem] at hout
    apply hi
    apply Equiv.swap_apply_of_ne_of_ne
    · rintro rfl
      exact hout ha
    · rintro rfl
      exact hout hb
  calc segment (exchange m a b) l r
      = (Finset.Icc l r).val.map (m ∘ Equiv.swap a b) := segment_eq_map _ hmem
    _ = ((Finset.Icc l r).val.map (Equiv.swap a b)).map m := by rw [Multiset.map_map]
    _ = ((Finset.Icc l r).map (Equiv.swap a b).toEmbedding).val.map m := rfl
    _ = segment m l r := by rw [hperm, segment_eq_map m hmem]

/-- A cell of the segment, with what is before and after it. -/
theorem segment_split (m : Int → V) {l r p : Int} (hl : l ≤ p) (hr : p ≤ r) :
    segment m l r = segment m l (p - 1) + m p ::ₘ segment m (p + 1) r := by
  have hmem : ∀ l r i : Int, i ∈ Finset.Icc l r ↔ l ≤ i ∧ i ≤ r := by
    simp
  have hnot : p ∉ Finset.Icc (p + 1) r := by
    simp
  have hdisj : Disjoint (Finset.Icc l (p - 1))
      (Finset.cons p (Finset.Icc (p + 1) r) hnot) := by
    rw [Finset.disjoint_left]
    intro i hi hi'
    rw [Finset.mem_cons, hmem] at hi'
    rw [hmem] at hi
    omega
  have hunion : ∀ i, i ∈ (Finset.Icc l (p - 1)).disjUnion
      (Finset.cons p (Finset.Icc (p + 1) r) hnot) hdisj ↔ l ≤ i ∧ i ≤ r := by
    intro i
    rw [Finset.mem_disjUnion, Finset.mem_cons, hmem, hmem]
    omega
  rw [segment_eq_map m hunion, Finset.disjUnion_val, Finset.cons_val, Multiset.map_add,
    Multiset.map_cons, segment_eq_map m (hmem l (p - 1)), segment_eq_map m (hmem (p + 1) r)]

/-- The values from `l` on, in order of the cells. -/
def values (m : Int → V) (l : Int) (n : Nat) : List V :=
  (List.range n).map fun k : Nat => m (l + k)

theorem segment_values (m : Int → V) (l r : Int) :
    segment m l r = values m l (r + 1 - l).toNat :=
  rfl

/-! ## Order -/

/-- The segment is in order. -/
def Ordered [LE V] (m : Int → V) (l r : Int) : Prop :=
  ∀ i j, l ≤ i → i ≤ j → j ≤ r → m i ≤ m j

theorem ordered_iff [LE V] (m : Int → V) (l r : Int) :
    (∀ a < (r + 1 - l).toNat, ∀ b < (r + 1 - l).toNat, a ≤ b → m (l + a) ≤ m (l + b)) ↔
      Ordered m l r := by
  constructor
  · intro h i j hi hij hj
    have hle := h (i - l).toNat (by omega) (j - l).toNat (by omega) (by omega)
    rwa [show l + ((i - l).toNat : Int) = i by omega,
      show l + ((j - l).toNat : Int) = j by omega] at hle
  · exact fun h a ha b hb hab => h _ _ (by omega) (by omega) (by omega)

instance [LE V] [DecidableLE V] (m : Int → V) (l r : Int) : Decidable (Ordered m l r) :=
  decidable_of_iff _ (ordered_iff m l r)

/-- Every cell before `p` is at most the cell `p`, every cell after it at least. -/
def Split [LE V] (m : Int → V) (l p r : Int) : Prop :=
  (∀ x ∈ segment m l (p - 1), x ≤ m p) ∧ ∀ x ∈ segment m (p + 1) r, m p ≤ x

section Order

variable [LinearOrder V]

theorem Ordered.congr {m m' : Int → V} {l r : Int} (h : Ordered m l r)
    (hm : ∀ i, l ≤ i → i ≤ r → m i = m' i) : Ordered m' l r := by
  intro i j hi hij hj
  rw [← hm i hi (by omega), ← hm j (by omega) hj]
  exact h i j hi hij hj

theorem Ordered.of_lt {m : Int → V} {l r : Int} (h : r ≤ l) : Ordered m l r := by
  intro i j hi hij hj
  obtain rfl : i = j := by omega
  exact le_refl _

/-- Two ordered parts around a pivot. -/
theorem Ordered.of_split {m : Int → V} {l r p : Int} (hleft : Ordered m l (p - 1))
    (hright : Ordered m (p + 1) r) (hsplit : Split m l p r) : Ordered m l r := by
  have hbefore : ∀ i, l ≤ i → i ≤ p - 1 → m i ≤ m p :=
    fun i hi hp => hsplit.1 _ (mem_segment.mpr ⟨i, hi, hp, rfl⟩)
  have hafter : ∀ i, p + 1 ≤ i → i ≤ r → m p ≤ m i :=
    fun i hp hi => hsplit.2 _ (mem_segment.mpr ⟨i, hp, hi, rfl⟩)
  intro i j hi hij hj
  rcases Int.lt_trichotomy j p with hjp | rfl | hjp
  · exact hleft i j hi hij (by omega)
  · rcases Int.lt_or_eq_of_le hij with hlt | rfl
    · exact hbefore i hi (by omega)
    · exact le_refl _
  · rcases Int.lt_trichotomy i p with hip | rfl | hip
    · exact (hbefore i hi (by omega)).trans (hafter j (by omega) hj)
    · exact hafter j (by omega) hj
    · exact hright i j (by omega) hij hj

theorem Ordered.pairwise {m : Int → V} {l r : Int} (h : Ordered m l r) :
    (values m l (r + 1 - l).toNat).Pairwise (· ≤ ·) := by
  rw [values, List.pairwise_map]
  refine List.pairwise_lt_range.imp_of_mem ?_
  intro a b _ hb hlt
  rw [List.mem_range] at hb
  exact h _ _ (by omega) (by omega) (by omega)

/-- The ordered rearrangement of a segment is unique. -/
theorem Ordered.eq_of_segment {m m' : Int → V} {l r : Int} (h : Ordered m l r)
    (h' : Ordered m' l r) (hseg : segment m l r = segment m' l r) :
    ∀ i, l ≤ i → i ≤ r → m i = m' i := by
  rw [segment_values, segment_values, Multiset.coe_eq_coe] at hseg
  have heq := hseg.eq_of_pairwise' h.pairwise h'.pairwise
  intro i hi hr
  have hget : ∀ m : Int → V,
      (values m l (r + 1 - l).toNat)[(i - l).toNat]? = some (m i) := by
    intro m
    have hlt : (i - l).toNat < (r + 1 - l).toNat := by omega
    have hcell : l + ((i - l).toNat : Int) = i := by omega
    rw [values, List.getElem?_map, List.getElem?_range hlt, Option.map_some, hcell]
  have hsame := (hget m).symm.trans (heq ▸ hget m')
  exact Option.some.inj hsame

end Order

end OsWork.Verified.Segment

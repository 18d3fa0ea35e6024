import OsWork.Verified.ArrayProg
import OsWork.Verified.Segment

/-!
# The quicksorts of `ass4/Q1/quick_sort.c`

The three functions sort a segment in the same way up to their recursive calls:
nothing to do when it is empty, an exchange sort when it has at most five
elements, else a partition around a random pivot.  They differ in how the two
halves are sorted: by calls (`normal_quick_sort`), by processes (`quick_sort`)
or by threads (`threaded_quick_sort`).

Here is the common part and `normal_quick_sort`.  Code is a tree of its single
accesses to the array, so that the other two can be interrupted between them.  A
remainder by zero in `rand()%high` is an outcome of its own.

## Main results

* `wp_sortBody` — the common part sorts the segment or splits it.
* `normal_quick_sort_sorts` — with any numbers drawn, `normal_quick_sort` sorts the segment,
  touches nothing else, and takes no remainder by zero.
-/

namespace OsWork.Ports.QuickSort

open OsWork.Verified.ArrayProg OsWork.Verified.Segment

/-- Code that accesses an array of `int`s. -/
abbrev Code := Prog Int Int

/-! ## The code -/

/-- `swap(&arr[a], &arr[b])`. -/
def swap (a b : Int) : Code Unit :=
  .read a fun temp => .read b fun v => .write a v (.write b temp (.ret ()))

/-- An `int` sum. -/
def intSum (x y : Int) : Int :=
  Int.bmod (x + y) 4294967296

/-- The index `partition` takes the pivot from; `rand` is the result of
`rand()`. -/
def pivotIndex (rand : Nat) (low high : Int) : Int :=
  let pivot := Int.tmod rand high
  if pivot < low then Int.tdiv (intSum low high) 2 else pivot

/-- The results of `rand()` for which the indices of `partition` fit in an `int`. -/
def midpointFits (low high : Int) : Set Nat :=
  {rand | low < high → low ≤ Int.tmod rand high ∨ low + high < 2147483648}

instance (low high : Int) : DecidablePred (· ∈ midpointFits low high) := fun rand =>
  inferInstanceAs (Decidable (low < high → low ≤ Int.tmod rand high ∨ low + high < 2147483648))

/-- The body of the loop of `partition`: `i` counts the smaller elements. -/
def partitionRound (high j i : Int) : Code Int :=
  .read j fun x => .read high fun pivot =>
    if x < pivot then (swap (i + 1) j).bind fun _ => .ret (i + 1) else .ret i

def partition (low high : Int) : Code Int :=
  .draw fun rand =>
    (swap high (pivotIndex rand low high)).bind fun _ =>
    (Prog.loop (partitionRound high) (high - low).toNat low (low - 1)).bind fun i =>
    (swap (i + 1) high).bind fun _ => .ret (i + 1)

/-- The inner body of the sort of at most five elements. -/
def exchangeRound (i j : Int) : Code Unit :=
  .read j fun x => .read i fun y => if x < y then swap i j else .ret ()

/-- The two loops marked as insertion sort. -/
def exchangeSort (l r : Int) : Code Unit :=
  Prog.loop (fun i _ => Prog.loop (fun j _ => exchangeRound i j) (r - i).toNat (i + 1) ())
    (r - l).toNat l ()

/-- What is left to do for a segment. -/
inductive Outcome
  /-- `l > r` -/
  | empty
  | sorted
  /-- `rand()%high` was a remainder by zero -/
  | fault
  /-- the segment is partitioned at `pi`; the halves are still to be sorted -/
  | split (pi : Int)
  deriving DecidableEq, Repr

/-- What the three functions do before they sort the halves. -/
def sortBody (l r : Int) : Code Outcome :=
  if r < l then .ret .empty
  else if r - l + 1 ≤ 5 then (exchangeSort l r).bind fun _ => .ret .sorted
  else if r = 0 then .ret .fault
  else (partition l r).bind fun pi => .ret (.split pi)

/-- `normal_quick_sort`, with a bound on the depth of the recursion; `false` when
the bound is too small, or for a remainder by zero. -/
def normalQuickSort : Nat → Int → Int → Code Bool
  | 0, _, _ => .ret false
  | depth + 1, l, r =>
      (sortBody l r).bind fun
        | .empty => .ret true
        | .sorted => .ret true
        | .fault => .ret false
        | .split pi =>
            (normalQuickSort depth l (pi - 1)).bind fun done =>
              if done then normalQuickSort depth (pi + 1) r else .ret false

example : ((normalQuickSort 10 0 6).run (fun k => 7 * k) 0
    (fun i => if i < 7 then (3 * i) % 7 else 0)).1 = true := by decide

/-! ## Swap and partition -/

section Specs

variable {D : Set Nat} {S : Set Int} {m : Int → Int} {l r low high a b i j : Int} {n : Nat}

theorem wp_swap {Q : Unit → (Int → Int) → Prop} (ha : a ∈ S) (hb : b ∈ S)
    (hQ : Q () (exchange m a b)) : wp D S (swap a b) Q m 4 := by
  refine ⟨ha, hb, ha, hb, ?_⟩
  rw [update_update]
  exact hQ

/-- The sum never overflows in an array of at most `2 ^ 30` elements. -/
theorem mem_midpointFits (hhigh : high < 1073741824) (rand : Nat) :
    rand ∈ midpointFits low high := by
  intro hlt
  right
  omega

/-- The pivot comes from the segment. -/
theorem pivotIndex_mem {rand : Nat} (hl : 0 ≤ low) (hlt : low < high)
    (hfits : rand ∈ midpointFits low high) :
    low ≤ pivotIndex rand low high ∧ pivotIndex rand low high ≤ high := by
  have hmod := Int.tmod_lt_of_pos (rand : Int) (show 0 < high by omega)
  simp only [pivotIndex]
  split
  · rename_i hbelow
    rcases hfits hlt with habove | hsmall
    · omega
    · have hsum : intSum low high = low + high := by
        unfold intSum
        apply Int.bmod_eq_of_le <;> omega
      rw [hsum, Int.tdiv_eq_ediv_of_nonneg (by omega)]
      omega
  · omega

/-- The loop of `partition` up to `j`: the elements before it are sorted into
smaller ones up to `i` and others. -/
structure Scanned (low high pivot : Int) (xs : Multiset Int) (j i : Int) (m : Int → Int) :
    Prop where
  same : segment m low high = xs
  bounds : low - 1 ≤ i ∧ i < j
  last : m high = pivot
  smaller : ∀ k, low ≤ k → k ≤ i → m k < pivot
  others : ∀ k, i < k → k < j → pivot ≤ m k

theorem wp_partitionRound {pivot : Int} {xs : Multiset Int} (hlow : low ≤ j)
    (hhigh : j < high) (h : Scanned low high pivot xs j i m) :
    wp D (cells low high) (partitionRound high j i)
      (fun i' m' => Scanned low high pivot xs (j + 1) i' m') m 6 := by
  obtain ⟨hsame, ⟨hlo, hij⟩, hpivot, hsmaller, hothers⟩ := h
  refine ⟨⟨hlow, by omega⟩, ⟨by omega, le_refl high⟩, ?_⟩
  show wp _ _ (if m j < m high then _ else _) _ m 4
  rw [hpivot]
  split
  · rename_i hless
    show wp _ _ _ _ m (4 + 0)
    apply wp_bind
    refine wp_swap ⟨by omega, by omega⟩ ⟨hlow, by omega⟩ ?_
    rw [wp_ret]
    exact
      { same := by
          rw [segment_exchange m ⟨by omega, by omega⟩ ⟨by omega, by omega⟩, hsame]
        bounds := by omega
        last := by
          rw [exchange_of_ne m (by omega) (by omega), hpivot]
        smaller := by
          intro k hk hki
          by_cases heq : k = i + 1
          · rw [heq, exchange_left]
            exact hless
          · rw [exchange_of_ne m heq (by omega)]
            exact hsmaller k hk (by omega)
        others := by
          intro k hik hkj
          by_cases heq : k = j
          · rw [heq, exchange_right]
            exact hothers (i + 1) (by omega) (by omega)
          · rw [exchange_of_ne m (by omega) heq]
            exact hothers k (by omega) (by omega) }
  · rename_i hge
    rw [wp_ret]
    exact
      { same := hsame
        bounds := by omega
        last := hpivot
        smaller := hsmaller
        others := by
          intro k hik hkj
          by_cases heq : k = j
          · rw [heq]
            omega
          · exact hothers k hik (by omega) }

/-- `partition` rearranges the segment around the element it returns. -/
theorem wp_partition {xs : Multiset Int} (hl : 0 ≤ low) (hlt : low < high)
    (hxs : segment m low high = xs) :
    wp (midpointFits low high) (cells low high) (partition low high)
      (fun p m' => segment m' low high = xs ∧ low ≤ p ∧ p ≤ high ∧ Split m' low p high)
      m ((high - low).toNat * 6 + 9) := by
  have hcost : (high - low).toNat * 6 + 9 =
      (4 + ((high - low).toNat * 6 + (4 + 0))) + 1 := by omega
  rw [hcost]
  intro rand hrand
  obtain ⟨hpl, hph⟩ := pivotIndex_mem hl hlt hrand
  apply wp_bind
  refine wp_swap ⟨by omega, le_refl high⟩ ⟨hpl, hph⟩ ?_
  apply wp_bind
  have hstart : Scanned low high (exchange m high (pivotIndex rand low high) high) xs
      low (low - 1) (exchange m high (pivotIndex rand low high)) :=
    { same := by
        rw [segment_exchange m ⟨by omega, le_refl high⟩ ⟨hpl, hph⟩, hxs]
      bounds := by omega
      last := rfl
      smaller := fun k hk hki => absurd hk (by omega)
      others := fun k hk hkj => absurd hk (by omega) }
  have hloop := wp_loop (D := midpointFits low high) (S := cells low high) (partitionRound high)
    (fun j i m => Scanned low high _ xs j i m) 6 (high - low).toNat low hstart
    fun j i m hj hjn hI => wp_partitionRound hj (by omega) hI
  apply wp_mono hloop Set.Subset.rfl (Nat.le_refl _)
  intro i m' hI
  have hend : low + ((high - low).toNat : Int) = high := by omega
  rw [hend] at hI
  obtain ⟨hsame, ⟨hlo, hij⟩, hpivot, hsmaller, hothers⟩ := hI
  apply wp_bind
  refine wp_swap ⟨by omega, by omega⟩ ⟨by omega, le_refl high⟩ ?_
  rw [wp_ret]
  refine ⟨?_, by omega, by omega, ?_, ?_⟩
  · rw [segment_exchange m' ⟨by omega, by omega⟩ ⟨by omega, le_refl high⟩, hsame]
  · intro x hx
    obtain ⟨k, hk, hki, rfl⟩ := mem_segment.mp hx
    rw [exchange_left, exchange_of_ne m' (by omega) (by omega), hpivot]
    exact le_of_lt (hsmaller k hk (by omega))
  · intro x hx
    obtain ⟨k, hk, hki, rfl⟩ := mem_segment.mp hx
    rw [exchange_left, hpivot]
    by_cases heq : k = high
    · rw [heq, exchange_right]
      exact hothers (i + 1) (by omega) (by omega)
    · rw [exchange_of_ne m' (by omega) heq]
      exact hothers k (by omega) (by omega)

/-! ## The exchange sort -/

/-- The cells before `i` hold the smallest elements, in order. -/
structure Settled (l r : Int) (xs : Multiset Int) (i : Int) (m : Int → Int) : Prop where
  same : segment m l r = xs
  before : ∀ k k', l ≤ k → k < i → k ≤ k' → k' ≤ r → m k ≤ m k'

/-- In the inner loop up to `j` the cell `i` holds the smallest element seen. -/
structure Selecting (l r : Int) (xs : Multiset Int) (i j : Int) (m : Int → Int) : Prop where
  settled : Settled l r xs i m
  least : ∀ k, i ≤ k → k < j → m i ≤ m k

theorem wp_exchangeRound {xs : Multiset Int} (hl : l ≤ i) (hij : i < j) (hr : j ≤ r)
    (h : Selecting l r xs i j m) :
    wp D (cells l r) (exchangeRound i j) (fun _ m' => Selecting l r xs i (j + 1) m') m 6 := by
  obtain ⟨⟨hsame, hbefore⟩, hleast⟩ := h
  refine ⟨⟨by omega, hr⟩, ⟨hl, by omega⟩, ?_⟩
  show wp _ _ (if m j < m i then _ else _) _ m 4
  split
  · rename_i hless
    refine wp_swap ⟨hl, by omega⟩ ⟨by omega, hr⟩ ?_
    refine ⟨⟨?_, ?_⟩, ?_⟩
    · rw [segment_exchange m ⟨hl, by omega⟩ ⟨by omega, hr⟩, hsame]
    · intro k k' hk hki hkk' hk'r
      rw [exchange_of_ne m (by omega) (by omega)]
      by_cases hi : k' = i
      · rw [hi, exchange_left]
        exact hbefore k j hk hki (by omega) hr
      · by_cases hj : k' = j
        · rw [hj, exchange_right]
          exact hbefore k i hk hki (by omega) (by omega)
        · rw [exchange_of_ne m hi hj]
          exact hbefore k k' hk hki hkk' hk'r
    · intro k hik hkj
      rw [exchange_left]
      by_cases hi : k = i
      · rw [hi, exchange_left]
      · by_cases hj : k = j
        · rw [hj, exchange_right]
          omega
        · rw [exchange_of_ne m hi hj]
          have hmin := hleast k hik (by omega)
          omega
  · rename_i hge
    rw [wp_ret]
    refine ⟨⟨hsame, hbefore⟩, ?_⟩
    intro k hik hkj
    by_cases hj : k = j
    · rw [hj]
      omega
    · exact hleast k hik (by omega)

/-- The exchange sort sorts the segment. -/
theorem wp_exchangeSort {xs : Multiset Int} (hlr : l ≤ r) (hxs : segment m l r = xs) :
    wp D (cells l r) (exchangeSort l r)
      (fun _ m' => segment m' l r = xs ∧ Ordered m' l r) m
      ((r - l).toNat * ((r - l).toNat * 6)) := by
  have hend : l + ((r - l).toNat : Int) = r := by omega
  have hstart : Settled l r xs l m := ⟨hxs, fun k k' hk hki => absurd hk (by omega)⟩
  have houter := wp_loop (D := D) (S := cells l r)
    (fun i _ => Prog.loop (fun j _ => exchangeRound i j) (r - i).toNat (i + 1) ())
    (fun i _ m => Settled l r xs i m) ((r - l).toNat * 6) (r - l).toNat l (s := ()) hstart
  apply wp_mono (houter _) Set.Subset.rfl (Nat.le_refl _)
  · intro _ m' hI
    rw [hend] at hI
    refine ⟨hI.same, ?_⟩
    intro k k' hk hkk' hk'
    by_cases heq : k = k'
    · rw [heq]
    · exact hI.before k k' hk (by omega) hkk' hk'
  · intro i _ m' hi hir hI
    have hbegin : Selecting l r xs i (i + 1) m' := by
      refine ⟨hI, ?_⟩
      intro k hik hki
      obtain rfl : i = k := by omega
      exact le_refl _
    have hinner := wp_loop (D := D) (S := cells l r) (fun j _ => exchangeRound i j)
      (fun j _ m => Selecting l r xs i j m) 6 (r - i).toNat (i + 1) (s := ()) hbegin
      fun j _ m'' hj hjr hI' => wp_exchangeRound hi (by omega) (by omega) hI'
    apply wp_mono hinner Set.Subset.rfl
    · exact Nat.mul_le_mul_right 6 (by omega)
    · intro _ m'' hI'
      refine ⟨hI'.settled.same, ?_⟩
      intro k k' hk hki hkk' hk'
      by_cases heq : k = i
      · subst heq
        exact hI'.least k' hkk' (by omega)
      · exact hI'.settled.before k k' hk (by omega) hkk' hk'

/-! ## The common part -/

/-- What `sortBody` leaves for a segment of the elements `xs`. -/
def Outcome.Holds (l r : Int) (xs : Multiset Int) (m : Int → Int) : Outcome → Prop
  | .empty => r < l ∧ segment m l r = xs
  | .sorted => segment m l r = xs ∧ Ordered m l r
  | .fault => False
  | .split pi => segment m l r = xs ∧ l ≤ pi ∧ pi ≤ r ∧ Split m l pi r

/-- A bound on the accesses of `sortBody`. -/
def bodyCost (l r : Int) : Nat :=
  (r - l).toNat * 6 + 100

theorem wp_sortBody {xs : Multiset Int} (hl : 0 ≤ l) (hxs : segment m l r = xs) :
    wp (midpointFits l r) (cells l r) (sortBody l r) (fun o m' => o.Holds l r xs m') m
      (bodyCost l r) := by
  unfold sortBody bodyCost
  split
  · rename_i hempty
    rw [wp_ret]
    exact ⟨hempty, hxs⟩
  · rename_i hlr
    have hlr : l ≤ r := by omega
    split
    · rename_i hfew
      have hd : (r - l).toNat ≤ 4 := by omega
      have hcost : (r - l).toNat * ((r - l).toNat * 6) ≤ (r - l).toNat * 6 + 100 := by
        have hsquare := Nat.mul_le_mul hd (Nat.mul_le_mul_right 6 hd)
        omega
      have hsort := wp_mono (wp_exchangeSort (D := midpointFits l r) hlr hxs) Set.Subset.rfl hcost
        fun _ _ h => h
      show wp _ _ _ _ m ((r - l).toNat * 6 + 100 + 0)
      apply wp_bind
      apply wp_mono hsort Set.Subset.rfl (Nat.le_refl _)
      intro _ m' hm'
      rw [wp_ret]
      exact hm'
    · rw [if_neg (show r ≠ 0 by omega)]
      have hpart := wp_mono (wp_partition hl (by omega) hxs) Set.Subset.rfl
        (show (r - l).toNat * 6 + 9 ≤ (r - l).toNat * 6 + 100 by omega) fun _ _ h => h
      show wp _ _ _ _ m ((r - l).toNat * 6 + 100 + 0)
      apply wp_bind
      apply wp_mono hpart Set.Subset.rfl (Nat.le_refl _)
      intro p m' hm'
      rw [wp_ret]
      exact hm'

end Specs

/-! ## Sorting -/

/-- `m'` is `m` with the segment from `l` to `r` sorted. -/
structure SortedFrom (m m' : Int → Int) (l r : Int) : Prop where
  same : segment m' l r = segment m l r
  ordered : Ordered m' l r
  outside : ∀ i, i ∉ cells l r → m' i = m i

/-- There is one array that is `m` with the segment sorted. -/
theorem SortedFrom.unique {m m₁ m₂ : Int → Int} {l r : Int} (h₁ : SortedFrom m m₁ l r)
    (h₂ : SortedFrom m m₂ l r) : m₁ = m₂ := by
  funext i
  by_cases hi : i ∈ cells l r
  · exact h₁.ordered.eq_of_segment h₂.ordered (h₁.same.trans h₂.same.symm) i hi.1 hi.2
  · rw [h₁.outside i hi, h₂.outside i hi]

/-- Sorting the two halves of a split segment, one after the other, sorts it. -/
theorem SortedFrom.of_halves {m m₁ m₂ : Int → Int} {l r p : Int} (hl : l ≤ p) (hr : p ≤ r)
    (hsplit : Split m l p r) (hleft : SortedFrom m m₁ l (p - 1))
    (hright : SortedFrom m₁ m₂ (p + 1) r) : SortedFrom m m₂ l r := by
  have hpivot₁ : m₁ p = m p := hleft.outside p (fun h => absurd h.2 (by omega))
  have hpivot : m₂ p = m p :=
    (hright.outside p fun h => absurd h.1 (by omega)).trans hpivot₁
  have hkeepLeft : ∀ i, l ≤ i → i ≤ p - 1 → m₁ i = m₂ i := by
    intro i _ hi
    exact (hright.outside i fun h => absurd h.1 (by omega)).symm
  have hkeepRight : ∀ i, p + 1 ≤ i → i ≤ r → m i = m₁ i := by
    intro i hi _
    exact (hleft.outside i fun h => absurd h.2 (by omega)).symm
  have hsegLeft : segment m₂ l (p - 1) = segment m l (p - 1) := by
    rw [← segment_congr hkeepLeft, hleft.same]
  have hsegRight : segment m₂ (p + 1) r = segment m (p + 1) r := by
    rw [hright.same, segment_congr hkeepRight]
  refine ⟨?_, ?_, ?_⟩
  · rw [segment_split m₂ hl hr, segment_split m hl hr, hsegLeft, hsegRight, hpivot]
  · apply (hleft.ordered.congr hkeepLeft).of_split hright.ordered
    refine ⟨?_, ?_⟩
    · rw [hsegLeft, hpivot]
      exact hsplit.1
    · rw [hsegRight, hpivot]
      exact hsplit.2
  · intro i hi
    rw [hright.outside i fun h => hi ⟨by have := h.1; omega, h.2⟩,
      hleft.outside i fun h => hi ⟨h.1, by have := h.2; omega⟩]

/-- A bound on the accesses. -/
def sortCost : Nat → Nat → Nat
  | 0, _ => 0
  | depth + 1, len => len * 6 + 100 + (sortCost depth len + sortCost depth len)

theorem sortCost_mono (depth : Nat) {len len' : Nat} (h : len ≤ len') :
    sortCost depth len ≤ sortCost depth len' := by
  induction depth with
  | zero => exact Nat.le_refl 0
  | succ depth ih =>
      unfold sortCost
      omega

/-- `normal_quick_sort` sorts the segment, given enough depth, with any numbers for which
the midpoints of the parts of the segment fit in an `int`. -/
theorem wp_normalQuickSort {D : Set Nat} (depth : Nat) {m : Int → Int} {l r : Int} (hl : 0 ≤ l)
    (hfits : ∀ l' r', l ≤ l' → r' ≤ r → D ⊆ midpointFits l' r')
    (hdepth : (r - l + 1).toNat < depth) :
    wp D (cells l r) (normalQuickSort depth l r)
      (fun done m' => done = true ∧ SortedFrom m m' l r) m (sortCost depth (r - l).toNat) := by
  induction depth generalizing m l r with
  | zero => omega
  | succ depth ih =>
      have hbody := wp_outside (wp_draws (wp_sortBody hl (rfl : segment m l r = _))
        (hfits l r (le_refl l) (le_refl r)))
      unfold normalQuickSort
      apply wp_bind
      apply wp_mono hbody Set.Subset.rfl (Nat.le_refl _)
      rintro o m₁ ⟨hpost, hout⟩
      cases o with
      | empty =>
          obtain ⟨hlt, hseg⟩ := hpost
          rw [wp_ret]
          exact ⟨rfl, hseg, Ordered.of_lt (by omega), hout⟩
      | sorted =>
          obtain ⟨hseg, hord⟩ := hpost
          rw [wp_ret]
          exact ⟨rfl, hseg, hord, hout⟩
      | fault => exact hpost.elim
      | split p =>
          obtain ⟨hseg, hlp, hpr, hsplit⟩ := hpost
          have hleft := ih (m := m₁) (l := l) (r := p - 1) hl
            (fun l' r' hl' hr' => hfits l' r' hl' (by omega)) (by omega)
          show wp _ _ ((normalQuickSort depth l (p - 1)).bind _) _ m₁
            (sortCost depth (r - l).toNat + sortCost depth (r - l).toNat)
          apply wp_bind
          apply wp_mono hleft (cells_mono (le_refl l) (by omega))
            (sortCost_mono depth (by omega))
          rintro done m₂ ⟨rfl, hsorted⟩
          have hright := ih (m := m₂) (l := p + 1) (r := r) (by omega)
            (fun l' r' hl' hr' => hfits l' r' (by omega) hr') (by omega)
          apply wp_mono hright (cells_mono (by omega) (le_refl r)) (sortCost_mono depth (by omega))
          rintro done m₃ ⟨rfl, hsorted'⟩
          have hboth := SortedFrom.of_halves hlp hpr hsplit hsorted hsorted'
          refine ⟨rfl, hboth.same.trans hseg, hboth.ordered, ?_⟩
          intro i hi
          exact (hboth.outside i hi).trans (hout i hi)

theorem midpointFits_eq_univ {l r : Int} (hr : r < 1073741824) : midpointFits l r = Set.univ :=
  Set.eq_univ_of_forall (mem_midpointFits hr)

/-- `normal_quick_sort` sorts the segment in place, whatever is drawn: it ends within a number of
accesses that the depth and the length bound, touches no cell outside the segment, and takes no
remainder by zero. -/
theorem normal_quick_sort_sorts (m : Int → Int) (len : Nat) (l r : Int)
    (hlen : len < 1073741824) (hl : 0 ≤ l) (hr : r < len) (depth : Nat)
    (hdepth : (r - l + 1).toNat < depth) :
    wp Set.univ (cells l r) (normalQuickSort depth l r)
        (fun done m' => done = true ∧ SortedFrom m m' l r) m
        (sortCost depth (r - l).toNat) ∧
      ∀ draws : Nat → Nat,
        ((normalQuickSort depth l r).run draws 0 m).1 = true ∧
          SortedFrom m ((normalQuickSort depth l r).run draws 0 m).2.2 l r := by
  have hwp := wp_normalQuickSort (D := Set.univ) depth (m := m) hl
    (fun l' r' _ hr' => (midpointFits_eq_univ (show r' < 1073741824 by omega)).ge) hdepth
  exact ⟨hwp, fun draws => wp_run hwp (fun _ => trivial) 0⟩

/-- Seven elements, in descending order. -/
theorem normal_quick_sort_sorts_seven :
    SortedFrom (fun i => 7 - i) ((normalQuickSort 8 0 6).run (fun k => k) 0 fun i => 7 - i).2.2
      0 6 :=
  ((normal_quick_sort_sorts _ 7 0 6 (by decide) (by decide) (by decide) 8 (by decide)).2
    fun k => k).2

end OsWork.Ports.QuickSort

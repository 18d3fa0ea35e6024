import OsWork.Ports.QuickSortThreads

/-!
# `quick_sort` and `normal_quick_sort`

The call `quick_sort(arr, 0, n-1)` of `runSorts` is the root of a tree of
processes that share the array.  The same function body runs in the root and in
the children; on an empty segment it ends the process.  When a `fork` fails
nobody sorts the half that was meant for the child.

## Main results

* `careful_sortedLikeNormal` — for a non-empty array, and as long as a failing
  `fork` leaves out a half that is in order already, the call returns and leaves
  the array of `normal_quick_sort`.
* `not_all_sortedLikeNormal` — for an empty array the call ends the program.
* `failedFork_unsorted` — a failing `fork` leaves an array that is not sorted.
-/

namespace OsWork.Ports.QuickSort

open OsWork.Verified.ArrayProg OsWork.Verified.Segment OsWork.Verified.Transition

/-! ## The system -/

/-- The process that moves, the result of `rand()` if it calls that, and whether
`fork` succeeds if it calls that. -/
structure ProcessAct where
  path : List Bool
  rand : Nat
  forks : Bool
  deriving DecidableEq, Repr

/-- The `int` that is passed for the `long long` argument `n-1`. -/
def lastIndex (n : Int) : Int :=
  Int.bmod (n - 1) 4294967296

/-- `quick_sort(arr, 0, n-1)` as `runSorts` calls it on the array `m₀`. -/
def processSort (m₀ : Int → Int) (n : Int) : System Machine ProcessAct where
  init s := s = (m₀, newNode 0 (lastIndex n))
  step s a := s.2.step .process a.rand a.forks s.1 true a.path

/-- The call returns to `runSorts` with the array of `normal_quick_sort`: it does
not end the program, it cannot go on forever, something can go on until it has
returned, and then the array is sorted. -/
structure SortedLikeNormal (m₀ : Int → Int) (n : Int) (p : Machine × Nat) : Prop where
  inside : p.1.2.hasExited = false
  bounded : p.2 ≤ cost 0 (n - 1)
  progress : p.1.2.hasReturned = true ∨
    ∀ rand, ∃ path t, (processSort m₀ n).step p.1
      { path := path, rand := rand, forks := true } = some t
  result : p.1.2.hasReturned = true →
    SortedFrom m₀ p.1.1 0 (n - 1) ∧ ∀ draws : Nat → Nat,
      (∀ l r k, 0 ≤ l → r ≤ n - 1 → draws k ∈ midpointFits l r) →
        LikeNormal m₀ p.1.1 0 (n - 1) draws

/-- The midpoint that `partition` takes fits in an `int`, and a `fork` that fails
leaves out a half that is in order already. -/
def CarefulFork (p : Machine × Nat) (a : ProcessAct) : Prop :=
  p.1.2.Careful a.rand a.forks p.1.1 a.path

instance (p : Machine × Nat) (a : ProcessAct) : Decidable (CarefulFork p a) :=
  inferInstanceAs (Decidable (p.1.2.Careful a.rand a.forks p.1.1 a.path))

theorem Bounded.sortedLikeNormal {m₀ : Int → Int} {n : Int} {p : Machine × Nat}
    (h : Bounded .process m₀ 0 (n - 1) p) : SortedLikeNormal m₀ n p := by
  obtain ⟨k, htree, hk⟩ := h.tree
  refine ⟨h.inside, by omega, ?_, ?_⟩
  · rcases h.progress with hreturned | hmove
    · exact .inl hreturned
    · exact .inr hmove
  · intro hreturned
    obtain ⟨hsame, hord⟩ := htree.over (Node.over_of_hasReturned hreturned)
    have hsorted : SortedFrom m₀ p.1.1 0 (n - 1) := ⟨hsame, hord, h.outside⟩
    exact ⟨hsorted, fun draws hfits => hsorted.likeNormal (le_refl 0) hfits⟩

/-- For a non-empty array, and as long as no midpoint overflows and no failing
`fork` leaves out an unsorted half, the call returns with the array of
`normal_quick_sort`. -/
theorem careful_sortedLikeNormal {m₀ : Int → Int} {n : Int} {p : Machine × Nat} (hn : 1 ≤ n)
    (hint : n < 2147483648) (h : (counted (processSort m₀ n)).ReachableWhen CarefulFork p) :
    SortedLikeNormal m₀ n p := by
  have hlast : lastIndex n = n - 1 := by
    unfold lastIndex
    apply Int.bmod_eq_of_le <;> omega
  apply Bounded.sortedLikeNormal
  apply h.invariant (P := fun p => Bounded .process m₀ 0 (n - 1) p)
  · rintro ⟨s, k⟩ ⟨hs, hk⟩
    obtain rfl : s = (m₀, newNode 0 (lastIndex n)) := hs
    obtain rfl : k = 0 := hk
    rw [hlast]
    exact Bounded.start (le_refl 0)
  · rintro ⟨s, k⟩ a ⟨t, k'⟩ hI hok hs
    obtain ⟨hs, hk⟩ := System.withGhost_step hs
    obtain rfl : k' = k + 1 := hk
    exact hI.step (le_refl 0) (.inr (by omega)) hok hs

/-- Seven elements: the root forks two children, and the right one exits on its empty half.
The left one partitions the six others; its first `fork` fails, and the three elements meant
for that child are in order. -/
def sortSeven : List ProcessAct :=
  List.replicate 48 { path := [], rand := 2, forks := true } ++
    [{ path := [true], rand := 0, forks := true }] ++
    List.replicate 33 { path := [false], rand := 1, forks := false } ++
    [{ path := [false], rand := 1, forks := true }] ++
    List.replicate 8 { path := [false, true], rand := 0, forks := true } ++
    List.replicate 3 { path := [false], rand := 0, forks := true } ++
    List.replicate 2 { path := [], rand := 0, forks := true }

theorem careful_sortedLikeNormal_seven :
    ∃ p, (counted (processSort (fun i => 3 * i % 7) 7)).ReachableWhen CarefulFork p ∧
      p.1.2.hasReturned = true ∧ SortedLikeNormal (fun i => 3 * i % 7) 7 p := by
  obtain ⟨p, hp, hreturned⟩ := System.exists_reachableWhen_of_run CarefulFork
    (M := counted (processSort (fun i => 3 * i % 7) 7))
    (s := ((fun i => 3 * i % 7, newNode 0 (lastIndex 7)), 0)) (l := sortSeven)
    (p := fun p => p.1.2.hasReturned) ⟨rfl, rfl⟩ (by decide +kernel)
  exact ⟨p, hp, hreturned, careful_sortedLikeNormal (by decide) (by decide) hp⟩

/-- With no elements the call of `runSorts` calls `_exit(1)`. -/
theorem not_all_sortedLikeNormal :
    ¬ ∀ (m₀ : Int → Int) (n : Int) (p : Machine × Nat), 0 ≤ n → n < 2147483648 →
      (counted (processSort m₀ n)).Reachable p → SortedLikeNormal m₀ n p := by
  intro hall
  have hrun : ((counted (processSort (fun _ => 0) 0)).run
      ((fun _ => 0, newNode 0 (lastIndex 0)), 0)
        [{ path := [], rand := 0, forks := true }]).map (fun p => p.1.2.hasExited) =
          some true := by
    decide
  obtain ⟨p, hp, hexited⟩ := System.exists_reachable_of_run (⟨rfl, rfl⟩ : _ ∧ _) hrun
  have hinside := (hall (fun _ => 0) 0 p (by decide) (by decide) hp).inside
  rw [hexited] at hinside
  cases hinside

/-- With seven elements and two failing calls of `fork` the call returns an array
that is not sorted. -/
theorem failedFork_unsorted :
    ∃ p, (counted (processSort (fun i => 3 * i % 7) 7)).Reachable p ∧
      p.1.2.hasReturned = true ∧ ¬ Ordered p.1.1 0 6 := by
  have hrun : ((counted (processSort (fun i => 3 * i % 7) 7)).run
      ((fun i => 3 * i % 7, newNode 0 (lastIndex 7)), 0)
        (List.replicate 34 { path := [], rand := 3, forks := false })).map
          (fun p => p.1.2.hasReturned && decide (p.1.1 5 < p.1.1 4)) = some true := by
    decide +kernel
  obtain ⟨p, hp, htest⟩ := System.exists_reachable_of_run (⟨rfl, rfl⟩ : _ ∧ _) hrun
  rw [Bool.and_eq_true, decide_eq_true_iff] at htest
  refine ⟨p, hp, htest.1, ?_⟩
  intro hord
  have hle := hord 4 5 (by decide) (by decide) (by decide)
  omega

end OsWork.Ports.QuickSort

import OsWork.Ports.QuickSortTree
import OsWork.Verified.Transition

/-!
# `threaded_quick_sort` is free of interference

A thread is named by its path from the root: `[]` is the call of `runSorts`,
`path ++ [false]` and `path ++ [true]` are the two threads that `path` creates.
Ancestors are prefixes.  Beside the state we keep a log of all accesses to the
array.

## Main results

* `threadedSort_interferenceFree` — in every interleaving two threads of which
  none is an ancestor of the other never access the same index, no thread
  accesses the array after it has created one, and the result is that of
  `normal_quick_sort`.
* `threadedSort_progress` — every run is bounded, and goes on until the root
  returns.
-/

namespace OsWork.Ports.QuickSort

open OsWork.Verified.ArrayProg OsWork.Verified.Segment OsWork.Verified.Transition

/-! ## The system -/

/-- The array and the tree of threads or processes. -/
abbrev Machine := (Int → Int) × Node

/-- `threaded_quick_sort` on the segment from `l` to `r` of the array `m₀`.  The
label is the thread that moves and the result of `rand()`, if it calls that. -/
def threadedSort (m₀ : Int → Int) (l r : Int) : System Machine (List Bool × Nat) where
  init s := s = (m₀, newNode l r)
  step s a := s.2.step .thread a.2 true s.1 true a.1

/-- A system with the number of steps taken. -/
def counted {α : Type} (M : System Machine α) : System (Machine × Nat) α :=
  M.withGhost (fun _ => 0) fun _ _ k => k + 1

/-- An access to the array. -/
structure Access where
  thread : List Bool
  index : Int
  /-- the thread has created one before -/
  hasChild : Bool
  deriving DecidableEq, Repr

/-- The access that the thread at a path makes next. -/
def Node.access : Node → List Bool → Option (Int × Bool)
  | .nil, _ => none
  | .node _ _ (.work (.read i _)) left right, [] => some (i, !(left.isNil && right.isNil))
  | .node _ _ (.work (.write i _ _)) left right, [] =>
      some (i, !(left.isNil && right.isNil))
  | .node _ _ _ _ _, [] => none
  | .node _ _ _ left _, false :: path => left.access path
  | .node _ _ _ _ right, true :: path => right.access path

def recordAccess (s : Machine) (a : List Bool × Nat) (log : List Access) : List Access :=
  match s.2.access a.1 with
  | some (i, c) => log ++ [{ thread := a.1, index := i, hasChild := c }]
  | none => log

/-- `threadedSort` with the log of the accesses. -/
def loggedSort (m₀ : Int → Int) (l r : Int) :
    System (Machine × List Access) (List Bool × Nat) :=
  (threadedSort m₀ l r).withGhost (fun _ => []) recordAccess

/-! ## The law -/

/-- None of the two threads is an ancestor of the other. -/
def Unrelated (p q : List Bool) : Prop :=
  ¬ p <+: q ∧ ¬ q <+: p

/-- The root call has returned. -/
def Node.hasReturned : Node → Bool
  | .node _ _ .returned _ _ => true
  | _ => false

/-- The root call has left `runSorts` behind. -/
def Node.hasExited : Node → Bool
  | .node _ _ .exited _ _ => true
  | _ => false

/-- `normal_quick_sort` with the numbers `draws` ends, given enough depth, and
leaves the array `m`. -/
def LikeNormal (m₀ m : Int → Int) (l r : Int) (draws : Nat → Nat) : Prop :=
  ∀ depth x, (r - l + 1).toNat < depth →
    ((normalQuickSort depth l r).run draws x m₀).1 = true ∧
      m = ((normalQuickSort depth l r).run draws x m₀).2.2

/-- What holds at every point of a run. -/
structure InterferenceFree (m₀ : Int → Int) (l r : Int) (s : Machine) (log : List Access) :
    Prop where
  apart : ∀ a ∈ log, ∀ b ∈ log, Unrelated a.thread b.thread → a.index ≠ b.index
  before : ∀ a ∈ log, a.hasChild = false
  result : s.2.hasReturned = true → SortedFrom m₀ s.1 l r ∧
    ∀ draws, LikeNormal m₀ s.1 l r draws

theorem Node.over_of_hasReturned {t : Node} (h : t.hasReturned = true) : t.Over := by
  cases t with
  | nil => cases h
  | node l r stage left right =>
      cases stage with
      | returned => trivial
      | _ => cases h

theorem SortedFrom.likeNormal {m₀ m : Int → Int} {l r : Int} {draws : Nat → Nat} (hl : 0 ≤ l)
    (hfits : ∀ l' r' k, l ≤ l' → r' ≤ r → draws k ∈ midpointFits l' r')
    (h : SortedFrom m₀ m l r) : LikeNormal m₀ m l r draws := by
  intro depth x hdepth
  have hwp := wp_normalQuickSort (D := Set.range draws) depth (m := m₀) hl
    (fun l' r' hl' hr' => Set.range_subset_iff.mpr fun k => hfits l' r' k hl' hr') hdepth
  obtain ⟨hdone, hsorted⟩ := wp_run hwp (fun k => ⟨k, rfl⟩) x
  exact ⟨hdone, h.unique hsorted⟩

/-! ## The segments of the threads -/

/-- The segment of the thread at a path. -/
def Node.bounds : Node → List Bool → Option (Int × Int)
  | .nil, _ => none
  | .node l r _ _ _, [] => some (l, r)
  | .node _ _ _ left _, false :: path => left.bounds path
  | .node _ _ _ _ right, true :: path => right.bounds path

section Segments

variable {m m' : Int → Int} {l r i : Int} {xs : Multiset Int} {t t' : Node} {n : Nat}
  {kind : Kind} {root ok : Bool} {rand : Nat} {path p q : List Bool} {a b : Int × Int}

theorem Shaped.bounds_sub (h : Shaped l r t) (hp : t.bounds p = some a) :
    l ≤ a.1 ∧ a.2 ≤ r := by
  induction p generalizing t l r with
  | nil =>
      cases t with
      | nil => cases hp
      | node l' r' stage left right =>
          obtain ⟨rfl, rfl, -⟩ := h
          obtain rfl := Option.some.inj hp
          exact ⟨le_refl _, le_refl _⟩
  | cons side p ih =>
      cases t with
      | nil => cases side <;> cases hp
      | node l' r' stage left right =>
          obtain ⟨rfl, rfl, ⟨rfl, rfl⟩ | ⟨pi, hlo, hhi, hleft, hright⟩⟩ := h
          · cases side <;> cases p <;> cases hp
          · cases side with
            | false =>
                have hsub := ih hleft hp
                exact ⟨hsub.1, by omega⟩
            | true =>
                have hsub := ih hright hp
                exact ⟨by omega, hsub.2⟩

/-- Unrelated threads have disjoint segments. -/
theorem Shaped.disjoint (h : Shaped l r t) (hp : t.bounds p = some a)
    (hq : t.bounds q = some b) (hne : Unrelated p q) (hi : i ∈ cells a.1 a.2) :
    i ∉ cells b.1 b.2 := by
  induction p generalizing t l r q with
  | nil => exact absurd List.nil_prefix hne.1
  | cons side p ih =>
      cases q with
      | nil => exact absurd List.nil_prefix hne.2
      | cons side' q =>
          cases t with
          | nil => cases side <;> cases hp
          | node l' r' stage left right =>
              obtain ⟨rfl, rfl, ⟨rfl, rfl⟩ | ⟨pi, hlo, hhi, hleft, hright⟩⟩ := h
              · cases side <;> cases p <;> cases hp
              · have hrest : side = side' → Unrelated p q := by
                  rintro rfl
                  exact ⟨fun hpre => hne.1 ((List.prefix_cons_inj side).mpr hpre),
                    fun hpre => hne.2 ((List.prefix_cons_inj side).mpr hpre)⟩
                rintro hi'
                obtain ⟨hia, hia'⟩ := hi
                obtain ⟨hib, hib'⟩ := hi'
                cases side <;> cases side'
                · exact ih hleft hp hq (hrest rfl) ⟨hib, hib'⟩
                · have hp' := hleft.bounds_sub hp
                  have hq' := hright.bounds_sub hq
                  omega
                · have hp' := hright.bounds_sub hp
                  have hq' := hleft.bounds_sub hq
                  omega
                · exact ih hright hp hq (hrest rfl) ⟨hib, hib'⟩

/-- The first child of a node, unless it has nothing left to do. -/
theorem TreeInv.leftInv {stage : Stage} {left right : Node}
    (h : TreeInv kind m l r xs (.node l r stage left right) n) :
    left.Quiet kind ∨
      ∃ pi xl nl, l ≤ pi ∧ pi ≤ r ∧ TreeInv kind m l (pi - 1) xl left nl := by
  cases stage with
  | work c | create1 pi =>
      obtain ⟨-, -, rfl, -⟩ := h
      exact .inl trivial
  | create2 pi =>
      obtain ⟨-, -, -, xl, nl, hhalf, hleft, -⟩ := h
      exact .inr ⟨pi, xl, nl, hhalf.low, hhalf.high, hleft⟩
  | wait1 pi =>
      obtain ⟨-, -, xl, xr, nl, nr, hhalf, hleft, -⟩ := h
      exact .inr ⟨pi, xl, nl, hhalf.low, hhalf.high, hleft⟩
  | wait2 pi | returned | exited =>
      obtain ⟨-, -, hquiet, -⟩ := h
      exact .inl hquiet

/-- The second child of a node, unless it has nothing left to do. -/
theorem TreeInv.rightInv {stage : Stage} {left right : Node}
    (h : TreeInv kind m l r xs (.node l r stage left right) n) :
    right.Quiet kind ∨
      ∃ pi xr nr, l ≤ pi ∧ pi ≤ r ∧ TreeInv kind m (pi + 1) r xr right nr := by
  cases stage with
  | work c | create1 pi =>
      obtain ⟨-, -, -, rfl, -⟩ := h
      exact .inl trivial
  | create2 pi =>
      obtain ⟨-, -, rfl, -⟩ := h
      exact .inl trivial
  | wait1 pi =>
      obtain ⟨-, -, xl, xr, nl, nr, hhalf, -, -, hright, -⟩ := h
      exact .inr ⟨pi, xr, nr, hhalf.low, hhalf.high, hright⟩
  | wait2 pi =>
      obtain ⟨-, -, -, xl, xr, nl, nr, hhalf, -, -, hright, -⟩ := h
      exact .inr ⟨pi, xr, nr, hhalf.low, hhalf.high, hright⟩
  | returned | exited =>
      obtain ⟨-, -, -, hquiet, -⟩ := h
      exact .inl hquiet

theorem TreeInv.bounds_eq {l' r' : Int} {stage : Stage} {left right : Node}
    (h : TreeInv kind m l r xs (.node l' r' stage left right) n) : l' = l ∧ r' = r := by
  obtain ⟨hl, hr, -⟩ := h.shaped
  exact ⟨hl, hr⟩

/-- A step of a node keeps the segments of the nodes that are there. -/
theorem stageStep_bounds {stage : Stage} {left right : Node}
    (h : TreeInv kind m l r xs (.node l r stage left right) n)
    (hs : QuickSort.stageStep kind root m l r stage left right rand ok = some (m', t'))
    (hq : (Node.node l r stage left right).bounds q = some a) : t'.bounds q = some a := by
  obtain ⟨stage', left', right', rfl, hkeep⟩ := stageStep_children hs
  cases q with
  | nil => exact hq
  | cons side q =>
      rcases hkeep with ⟨rfl, rfl⟩ | ⟨⟨pi, rfl⟩, rfl⟩ | ⟨⟨pi, rfl⟩, rfl⟩
      · cases side <;> exact hq
      · obtain ⟨-, -, rfl, rfl, -⟩ := h
        cases side <;> cases q <;> cases hq
      · obtain ⟨-, -, rfl, -⟩ := h
        cases side with
        | false => exact hq
        | true => cases q <;> cases hq

/-- The segments of the threads never change. -/
theorem TreeInv.bounds_step (h : TreeInv kind m l r xs t n)
    (hs : t.step kind rand ok m root path = some (m', t')) (hq : t.bounds q = some a) :
    t'.bounds q = some a := by
  induction path generalizing t t' l r xs n q root with
  | nil =>
      cases t with
      | nil => exact absurd rfl (Node.step_ne_nil hs)
      | node l' r' stage left right =>
          obtain ⟨rfl, rfl⟩ := h.bounds_eq
          exact stageStep_bounds h hs hq
  | cons side path ih =>
      cases t with
      | nil => exact absurd rfl (Node.step_ne_nil hs)
      | node l' r' stage left right =>
          obtain ⟨rfl, rfl⟩ := h.bounds_eq
          cases side with
          | false =>
              obtain ⟨left', hleft, rfl⟩ := Node.step_left hs
              cases q with
              | nil => exact hq
              | cons side q =>
                  cases side with
                  | true => exact hq
                  | false =>
                      rcases h.leftInv with hquiet | ⟨pi, xl, nl, -, -, hinv⟩
                      · exact absurd hleft (by rw [hquiet.step]; simp)
                      · show left'.bounds q = some a
                        exact ih hinv hleft hq
          | true =>
              obtain ⟨right', hright, rfl⟩ := Node.step_right hs
              cases q with
              | nil => exact hq
              | cons side q =>
                  cases side with
                  | false => exact hq
                  | true =>
                      rcases h.rightInv with hquiet | ⟨pi, xr, nr, -, -, hinv⟩
                      · exact absurd hright (by rw [hquiet.step]; simp)
                      · show right'.bounds q = some a
                        exact ih hinv hright hq

theorem Node.Quiet.access (h : t.Quiet kind) : t.access path = none := by
  induction path generalizing t with
  | nil =>
      cases t with
      | nil => rfl
      | node l' r' stage left right =>
          obtain ⟨hdone, -, -⟩ := h
          cases stage with
          | work c => exact absurd hdone (by simp [Node.done])
          | _ => rfl
  | cons side path ih =>
      cases t with
      | nil => rfl
      | node l' r' stage left right =>
          cases stage with
          | work c => exact absurd h.1 (by simp [Node.done])
          | _ =>
              cases side with
              | false => exact ih h.2.1
              | true => exact ih h.2.2

/-- An access goes to the thread's own segment, and the thread has no child
yet. -/
theorem TreeInv.access {c : Bool} (h : TreeInv kind m l r xs t n)
    (hp : t.access path = some (i, c)) :
    c = false ∧ ∃ a, t.bounds path = some a ∧ i ∈ cells a.1 a.2 := by
  induction path generalizing t l r xs n with
  | nil =>
      cases t with
      | nil => cases hp
      | node l' r' stage left right =>
          cases stage with
          | work code =>
              obtain ⟨rfl, rfl, rfl, rfl, k, n₀, -, hwp⟩ := h
              cases code with
              | read j kont | write j v kont =>
                  obtain ⟨rfl, rfl⟩ := Prod.mk.inj (Option.some.inj hp)
                  cases k with
                  | zero => exact hwp.elim
                  | succ k => exact ⟨rfl, (l', r'), rfl, hwp.1⟩
              | ret o => cases hp
              | draw kont => cases hp
          | _ => cases hp
  | cons side path ih =>
      cases t with
      | nil => cases hp
      | node l' r' stage left right =>
          obtain ⟨rfl, rfl⟩ := h.bounds_eq
          cases side with
          | false =>
              have hp' : left.access path = some (i, c) := by
                cases stage with
                | work code => cases code <;> exact hp
                | _ => exact hp
              rcases h.leftInv with hquiet | ⟨pi, xl, nl, -, -, hinv⟩
              · exact absurd hp' (by rw [hquiet.access]; simp)
              · exact ih hinv hp'
          | true =>
              have hp' : right.access path = some (i, c) := by
                cases stage with
                | work code => cases code <;> exact hp
                | _ => exact hp
              rcases h.rightInv with hquiet | ⟨pi, xr, nr, -, -, hinv⟩
              · exact absurd hp' (by rw [hquiet.access]; simp)
              · exact ih hinv hp'

/-- In an array of at most `2 ^ 30` elements no step goes wrong. -/
theorem Shaped.careful (h : Shaped l r t) (hr : r < 1073741824) :
    t.Careful rand true m path := by
  induction path generalizing t l r with
  | nil =>
      cases t with
      | nil => trivial
      | node l' r' stage left right =>
          obtain ⟨rfl, rfl, -⟩ := h
          cases stage with
          | work c =>
              cases c with
              | draw k => exact mem_midpointFits hr rand
              | _ => trivial
          | create1 pi | create2 pi => exact fun hfail => nomatch hfail
          | _ => trivial
  | cons side path ih =>
      cases t with
      | nil => cases side <;> trivial
      | node l' r' stage left right =>
          obtain ⟨rfl, rfl, hsub⟩ := h
          have hchild : left.Careful rand true m path ∧ right.Careful rand true m path := by
            rcases hsub with ⟨rfl, rfl⟩ | ⟨pi, hlo, hhi, hleft, hright⟩
            · exact ⟨ih (l := l') (r := r') trivial hr, ih (l := l') (r := r') trivial hr⟩
            · exact ⟨ih hleft (by omega), ih hright hr⟩
          cases side with
          | false =>
              cases stage with
              | work c => cases c <;> exact hchild.1
              | _ => exact hchild.1
          | true =>
              cases stage with
              | work c => cases c <;> exact hchild.2
              | _ => exact hchild.2

end Segments

/-! ## Runs -/

/-- The invariant of a run: that of the tree, and that every access was made by a
thread to its own segment before it created one. -/
structure Logged (m₀ : Int → Int) (l r : Int) (s : Machine) (log : List Access) : Prop where
  tree : ∃ n, TreeInv .thread s.1 l r (segment m₀ l r) s.2 n
  outside : ∀ i, i ∉ cells l r → s.1 i = m₀ i
  own : ∀ a ∈ log, a.hasChild = false ∧
    ∃ b, s.2.bounds a.thread = some b ∧ a.index ∈ cells b.1 b.2

section Runs

variable {m₀ : Int → Int} {l r : Int} {s t : Machine} {log : List Access}
  {a : List Bool × Nat}

theorem Logged.start (hl : 0 ≤ l) : Logged m₀ l r (m₀, newNode l r) [] where
  tree := ⟨cost l r, treeInv_new hl rfl⟩
  outside := fun _ _ => rfl
  own := fun _ hx => absurd hx List.not_mem_nil

theorem Logged.step (h : Logged m₀ l r s log) (hl : 0 ≤ l) (hr : r < 1073741824)
    (hs : (threadedSort m₀ l r).step s a = some t) :
    Logged m₀ l r t (recordAccess s a log) := by
  obtain ⟨⟨n, htree⟩, houtside, hown⟩ := h
  obtain ⟨⟨n', -, htree'⟩, hout⟩ := htree.step hl (htree.shaped.careful hr) hs
  have hkeep : ∀ p b, s.2.bounds p = some b → t.2.bounds p = some b :=
    fun p b hb => htree.bounds_step hs hb
  have hown' : ∀ x ∈ log, x.hasChild = false ∧
      ∃ b, t.2.bounds x.thread = some b ∧ x.index ∈ cells b.1 b.2 := by
    intro x hx
    obtain ⟨hchild, b, hb, hi⟩ := hown x hx
    exact ⟨hchild, b, hkeep _ b hb, hi⟩
  refine ⟨⟨n', htree'⟩, fun i hi => (hout i hi).trans (houtside i hi), ?_⟩
  unfold recordAccess
  split
  · rename_i i c haccess
    intro x hx
    rcases List.mem_append.mp hx with hx | hx
    · exact hown' x hx
    · obtain rfl := List.mem_singleton.mp hx
      obtain ⟨hchild, b, hb, hi⟩ := htree.access haccess
      exact ⟨hchild, b, hkeep _ b hb, hi⟩
  · exact hown'

theorem Logged.interferenceFree (h : Logged m₀ l r s log) (hl : 0 ≤ l)
    (hr : r < 1073741824) : InterferenceFree m₀ l r s log := by
  obtain ⟨⟨n, htree⟩, houtside, hown⟩ := h
  refine ⟨?_, fun x hx => (hown x hx).1, ?_⟩
  · intro a ha b hb hne heq
    obtain ⟨-, p, hp, hip⟩ := hown a ha
    obtain ⟨-, q, hq, hiq⟩ := hown b hb
    rw [← heq] at hiq
    exact htree.shaped.disjoint hp hq hne hip hiq
  · intro hreturned
    obtain ⟨hsame, hord⟩ := htree.over (Node.over_of_hasReturned hreturned)
    have hsorted : SortedFrom m₀ s.1 l r := ⟨hsame, hord, houtside⟩
    refine ⟨hsorted, fun draws => hsorted.likeNormal hl ?_⟩
    exact fun l' r' k _ hr' => mem_midpointFits (by omega) (draws k)

/-- In every interleaving `threaded_quick_sort` is free of interference. -/
theorem threadedSort_interferenceFree {p : Machine × List Access} (hl : 0 ≤ l)
    (hr : r < 1073741824) (h : (loggedSort m₀ l r).Reachable p) :
    InterferenceFree m₀ l r p.1 p.2 := by
  have hlogged : Logged m₀ l r p.1 p.2 := by
    apply h.invariant (P := fun p => Logged m₀ l r p.1 p.2)
    · rintro ⟨s, log⟩ ⟨hs, hlog⟩
      obtain rfl : s = (m₀, newNode l r) := hs
      obtain rfl : log = [] := hlog
      exact Logged.start hl
    · rintro ⟨s, log⟩ a ⟨t, log'⟩ hI - hs
      obtain ⟨hs, hlog⟩ := System.withGhost_step hs
      obtain rfl : log' = recordAccess s a log := hlog
      exact hI.step hl hr hs
  exact hlogged.interferenceFree hl hr

/-- A segment of seven elements, sorted by three threads. -/
theorem threadedSort_interferenceFree_seven :
    ∃ p, (loggedSort (fun i => 3 * i % 7) 0 6).Reachable p ∧ p.1.2.hasReturned = true ∧
      InterferenceFree (fun i => 3 * i % 7) 0 6 p.1 p.2 := by
  let schedule : List (List Bool × Nat) :=
    List.replicate 32 ([], 3) ++ (List.replicate 3 [([true], 3), ([false], 3)]).flatten ++
      List.replicate 18 ([true], 3) ++ List.replicate 2 ([], 3)
  have hrun : ((loggedSort (fun i => 3 * i % 7) 0 6).run
      ((fun i => 3 * i % 7, newNode 0 6), []) schedule).map (fun p => p.1.2.hasReturned) =
        some true := by
    decide +kernel
  obtain ⟨p, hp, hreturned⟩ := System.exists_reachable_of_run (⟨rfl, rfl⟩ : _ ∧ _) hrun
  exact ⟨p, hp, hreturned, threadedSort_interferenceFree (by decide) (by decide) hp⟩

/-- The root call is still there, and the steps taken and those to come fit in
the bound. -/
structure Bounded (kind : Kind) (m₀ : Int → Int) (l r : Int) (p : Machine × Nat) : Prop where
  tree : ∃ n, TreeInv kind p.1.1 l r (segment m₀ l r) p.1.2 n ∧ p.2 + n ≤ cost l r
  outside : ∀ i, i ∉ cells l r → p.1.1 i = m₀ i
  present : p.1.2 ≠ .nil
  inside : p.1.2.hasExited = false

theorem Bounded.start {kind : Kind} (hl : 0 ≤ l) :
    Bounded kind m₀ l r ((m₀, newNode l r), 0) where
  tree := ⟨cost l r, treeInv_new hl rfl, by omega⟩
  outside := fun _ _ => rfl
  present := Node.noConfusion
  inside := rfl

/-- The root call exits on an empty segment only. -/
theorem stageStep_exits {kind : Kind} {m m' : Int → Int} {stage : Stage}
    {left right t' : Node} {rand : Nat} {ok : Bool}
    (hs : QuickSort.stageStep kind true m l r stage left right rand ok = some (m', t'))
    (hexit : t'.hasExited = true) : kind = .process ∧ stage = .work (.ret .empty) := by
  revert hs
  fun_cases QuickSort.stageStep kind true m l r stage left right rand ok <;>
    intro hs <;> simp only [reduceCtorEq, Option.some.injEq, Prod.mk.injEq] at hs <;>
    obtain ⟨rfl, rfl⟩ := hs <;> simp_all [Node.hasExited]

theorem TreeInv.stays_inside {kind : Kind} {xs : Multiset Int} {n : Nat} {ok : Bool}
    {rand : Nat} {path : List Bool} (h : TreeInv kind s.1 l r xs s.2 n)
    (hroot : kind = .thread ∨ l ≤ r) (hinside : s.2.hasExited = false)
    (hs : s.2.step kind rand ok s.1 true path = some t) : t.2.hasExited = false := by
  obtain ⟨m, root⟩ := s
  obtain ⟨m', root'⟩ := t
  cases root with
  | nil => exact absurd rfl (Node.step_ne_nil hs)
  | node l' r' stage left right =>
      cases path with
      | nil =>
          by_contra hexit
          obtain ⟨rfl, rfl⟩ := stageStep_exits hs (by simpa using hexit)
          obtain ⟨-, -, -, -, k, n₀, -, hwp⟩ := h
          rw [wp_ret] at hwp
          have hempty : r < l := hwp.1.1
          rcases hroot with hkind | hlr
          · cases hkind
          · omega
      | cons side path =>
          cases side with
          | false =>
              obtain ⟨left', -, rfl⟩ := Node.step_left hs
              cases stage <;> exact hinside
          | true =>
              obtain ⟨right', -, rfl⟩ := Node.step_right hs
              cases stage <;> exact hinside

theorem Bounded.step {kind : Kind} {k : Nat} {ok : Bool} {rand : Nat} {path : List Bool}
    (h : Bounded kind m₀ l r (s, k)) (hl : 0 ≤ l) (hroot : kind = .thread ∨ l ≤ r)
    (hok : s.2.Careful rand ok s.1 path)
    (hs : s.2.step kind rand ok s.1 true path = some t) : Bounded kind m₀ l r (t, k + 1) := by
  obtain ⟨⟨n, htree, hn⟩, houtside, -, hinside⟩ := h
  obtain ⟨⟨n', hlt, htree'⟩, hout⟩ := htree.step hl hok hs
  exact
    { tree := by
        refine ⟨n', htree', ?_⟩
        simp only at hn ⊢
        omega
      outside := fun i hi => (hout i hi).trans (houtside i hi)
      present := Node.step_result_ne_nil hs
      inside := htree.stays_inside hroot hinside hs }

/-- The root call returns, unless some thread or process can go on. -/
theorem Bounded.progress {kind : Kind} {p : Machine × Nat} (h : Bounded kind m₀ l r p) :
    p.1.2.hasReturned = true ∨
      ∀ rand, ∃ path t, p.1.2.step kind rand true p.1.1 true path = some t := by
  obtain ⟨⟨m, root⟩, k⟩ := p
  obtain ⟨⟨n, htree, -⟩, -, hpresent, hinside⟩ := h
  cases root with
  | nil => exact absurd rfl hpresent
  | node l' r' stage left right =>
      by_cases hover : (Node.node l' r' stage left right).Over
      · left
        cases stage with
        | returned => rfl
        | exited => cases hinside
        | _ => exact hover.elim
      · right
        intro rand
        rcases htree.progress true rand with hquiet | ⟨-, hover'⟩ | ⟨path, m', t', hs⟩
        · exact absurd (Node.over_of_done hquiet.1) hover
        · exact absurd hover' hover
        · exact ⟨path, (m', t'), hs⟩

/-- A run is bounded, and goes on until the root call returns. -/
theorem threadedSort_progress {p : Machine × Nat} (hl : 0 ≤ l) (hr : r < 1073741824)
    (h : (counted (threadedSort m₀ l r)).Reachable p) :
    p.2 ≤ cost l r ∧
      (p.1.2.hasReturned = true ∨
        ∀ rand, ∃ path t, (threadedSort m₀ l r).step p.1 (path, rand) = some t) := by
  have hbounded : Bounded .thread m₀ l r p := by
    apply h.invariant (P := fun p => Bounded .thread m₀ l r p)
    · rintro ⟨s, k⟩ ⟨hs, hk⟩
      obtain rfl : s = (m₀, newNode l r) := hs
      obtain rfl : k = 0 := hk
      exact Bounded.start hl
    · rintro ⟨s, k⟩ a ⟨t, k'⟩ hI - hs
      obtain ⟨hs, hk⟩ := System.withGhost_step hs
      obtain rfl : k' = k + 1 := hk
      obtain ⟨⟨n, htree, -⟩, -⟩ := id hI
      exact hI.step hl (.inl rfl) (htree.shaped.careful hr) hs
  obtain ⟨n, -, hn⟩ := hbounded.tree
  exact ⟨by omega, hbounded.progress⟩

end Runs

end OsWork.Ports.QuickSort

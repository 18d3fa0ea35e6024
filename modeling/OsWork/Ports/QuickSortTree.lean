import OsWork.Ports.QuickSort
import Mathlib.Tactic.Ring
import Mathlib.Tactic.Linarith

/-!
# Quicksort by a tree of threads or processes

`threaded_quick_sort` sorts each half in a thread of its own, `quick_sort` each
in a process of its own; both wait for the two before they return.  The threads
or processes form a binary tree that grows downwards, and any of them can take
the next step.

The invariant `TreeInv` of a node speaks about the cells of its segment only.
That is what makes it stable under the steps of the other nodes, whose segments
are disjoint.  It carries a bound on the steps that the node and its descendants
will still take.

## Main results

* `TreeInv.step` — every step of every node keeps the invariant and uses up the
  bound.
* `TreeInv.progress` — as long as the root is not done, some node can move.
-/

namespace OsWork.Ports.QuickSort

open OsWork.Verified.ArrayProg OsWork.Verified.Segment

/-! ## The tree -/

/-- The two ways to sort the halves. -/
inductive Kind
  /-- `threaded_quick_sort` -/
  | thread
  /-- `quick_sort` -/
  | process
  deriving DecidableEq, Repr

/-- Where a thread or a process stands. -/
inductive Stage
  | work (c : Code Outcome)
  /-- `pthread_create(&tid1, …)`, `pid1 = fork()` -/
  | create1 (pi : Int)
  /-- `pthread_create(&tid2, …)`, `pid2 = fork()` -/
  | create2 (pi : Int)
  /-- `pthread_join(tid1, NULL)`, `waitpid(pid1, …)` -/
  | wait1 (pi : Int)
  /-- `pthread_join(tid2, NULL)`, `waitpid(pid2, …)` -/
  | wait2 (pi : Int)
  | returned
  /-- `_exit(1)` -/
  | exited

/-- A thread or process with its segment and its two children; `nil` is a child
that has not been created. -/
inductive Node
  | nil
  | node (l r : Int) (stage : Stage) (left right : Node)

/-- A new thread or process on the segment from `l` to `r`. -/
def newNode (l r : Int) : Node :=
  .node l r (.work (sortBody l r)) .nil .nil

namespace Node

def isNil : Node → Bool
  | .nil => true
  | .node .. => false

/-- What a wait for the node waits for: a thread has returned, a process has
exited. -/
def done (kind : Kind) : Node → Bool
  | .node _ _ .returned _ _ => kind == .thread
  | .node _ _ .exited _ _ => kind == .process
  | _ => false

end Node

/-- The next step of one thread or process: an access to the array, the creation
of a child (`ok` is its outcome), a wait, or the end.  `root` is the call that
`runSorts` makes.

The two functions differ in three places.  On an empty segment a thread returns
and a process calls `_exit(1)`.  A process whose creation fails is not there;
`waitpid(-1, …)` in its place waits for any child, and returns at once when there
is none.  A child process calls `_exit(1)` after `quick_sort` has returned. -/
def stageStep (kind : Kind) (root : Bool) (m : Int → Int) (l r : Int) (stage : Stage)
    (left right : Node) (rand : Nat) (ok : Bool) : Option ((Int → Int) × Node) :=
  match stage with
  | .work (.ret .empty) =>
      match kind with
      | .thread => some (m, .node l r .returned left right)
      | .process => some (m, .node l r .exited left right)
  | .work (.ret .sorted) => some (m, .node l r .returned left right)
  | .work (.ret .fault) => none
  | .work (.ret (.split pi)) => some (m, .node l r (.create1 pi) left right)
  | .work (.read i k) => some (m, .node l r (.work (k (m i))) left right)
  | .work (.write i v k) => some (Function.update m i v, .node l r (.work k) left right)
  | .work (.draw k) => some (m, .node l r (.work (k rand)) left right)
  | .create1 pi =>
      if ok then some (m, .node l r (.create2 pi) (newNode l (pi - 1)) right)
      else match kind with
        | .thread => none
        | .process => some (m, .node l r (.create2 pi) .nil right)
  | .create2 pi =>
      if ok then some (m, .node l r (.wait1 pi) left (newNode (pi + 1) r))
      else match kind with
        | .thread => none
        | .process => some (m, .node l r (.wait1 pi) left .nil)
  | .wait1 pi =>
      if left.done kind || left.isNil && (right.isNil || right.done kind) then
        some (m, .node l r (.wait2 pi) left right)
      else none
  | .wait2 _ =>
      if right.isNil || right.done kind then some (m, .node l r .returned left right)
      else none
  | .returned =>
      match kind with
      | .thread => none
      | .process => if root then none else some (m, .node l r .exited left right)
  | .exited => none

/-- The step of the node at a path: `false` is the first child, `true` the
second. -/
def Node.step (kind : Kind) (rand : Nat) (ok : Bool) (m : Int → Int) :
    Bool → Node → List Bool → Option ((Int → Int) × Node)
  | _, .nil, _ => none
  | root, .node l r stage left right, [] =>
      stageStep kind root m l r stage left right rand ok
  | _, .node l r stage left right, false :: path =>
      (left.step kind rand ok m false path).map fun x => (x.1, .node l r stage x.2 right)
  | _, .node l r stage left right, true :: path =>
      (right.step kind rand ok m false path).map fun x => (x.1, .node l r stage left x.2)

/-- The step of the node at a path does not go wrong: the midpoint it takes fits
in an `int`, and a creation that fails leaves out a half that is in order
already. -/
def Node.Careful (rand : Nat) (ok : Bool) (m : Int → Int) : Node → List Bool → Prop
  | .node l r (.work (.draw _)) _ _, [] => rand ∈ midpointFits l r
  | .node l _ (.create1 pi) _ _, [] => ok = false → Ordered m l (pi - 1)
  | .node _ r (.create2 pi) _ _, [] => ok = false → Ordered m (pi + 1) r
  | .node _ _ _ left _, false :: path => left.Careful rand ok m path
  | .node _ _ _ _ right, true :: path => right.Careful rand ok m path
  | _, _ => True

theorem Node.careful_left {rand : Nat} {ok : Bool} {m : Int → Int} {l r : Int} {stage : Stage}
    {left right : Node} {path : List Bool} :
    (Node.node l r stage left right).Careful rand ok m (false :: path) ↔
      left.Careful rand ok m path := by
  cases stage with
  | work c => cases c <;> exact Iff.rfl
  | _ => exact Iff.rfl

theorem Node.careful_right {rand : Nat} {ok : Bool} {m : Int → Int} {l r : Int} {stage : Stage}
    {left right : Node} {path : List Bool} :
    (Node.node l r stage left right).Careful rand ok m (true :: path) ↔
      right.Careful rand ok m path := by
  cases stage with
  | work c => cases c <;> exact Iff.rfl
  | _ => exact Iff.rfl

instance Node.decidableCareful (rand : Nat) (ok : Bool) (m : Int → Int) :
    (t : Node) → (path : List Bool) → Decidable (t.Careful rand ok m path)
  | .nil, _ => .isTrue trivial
  | .node l r (.work (.draw _)) _ _, [] => inferInstanceAs (Decidable (rand ∈ midpointFits l r))
  | .node _ _ (.work (.ret _)) _ _, [] => .isTrue trivial
  | .node _ _ (.work (.read _ _)) _ _, [] => .isTrue trivial
  | .node _ _ (.work (.write _ _ _)) _ _, [] => .isTrue trivial
  | .node l _ (.create1 pi) _ _, [] =>
      inferInstanceAs (Decidable (ok = false → Ordered m l (pi - 1)))
  | .node _ r (.create2 pi) _ _, [] =>
      inferInstanceAs (Decidable (ok = false → Ordered m (pi + 1) r))
  | .node _ _ (.wait1 _) _ _, [] => .isTrue trivial
  | .node _ _ (.wait2 _) _ _, [] => .isTrue trivial
  | .node _ _ .returned _ _, [] => .isTrue trivial
  | .node _ _ .exited _ _, [] => .isTrue trivial
  | .node _ _ _ left _, false :: path =>
      have := Node.decidableCareful rand ok m left path
      decidable_of_iff _ Node.careful_left.symm
  | .node _ _ _ _ right, true :: path =>
      have := Node.decidableCareful rand ok m right path
      decidable_of_iff _ Node.careful_right.symm

/-! ## Bounds -/

/-- A bound on the steps for a segment, children included. -/
def cost (l r : Int) : Nat :=
  200 * ((r - l + 1).toNat + 1) ^ 2

/-- A bound on the steps that come after `sortBody`. -/
def Outcome.rest (l r : Int) : Outcome → Nat
  | .empty => 2
  | .sorted => 2
  | .fault => 0
  | .split pi => cost l (pi - 1) + cost (pi + 1) r + 6

/-- The steps after `sortBody` and those of `sortBody` fit in the bound. -/
theorem rest_le (l r : Int) :
    ∃ n₀, bodyCost l r + n₀ ≤ cost l r ∧
      ∀ (xs : Multiset Int) (m : Int → Int) (o : Outcome), o.Holds l r xs m →
        o.rest l r ≤ n₀ := by
  by_cases hlr : r < l
  · refine ⟨2, ?_, ?_⟩
    · have hlen : (r - l + 1).toNat = 0 := by omega
      have hlen' : (r - l).toNat = 0 := by omega
      simp [bodyCost, cost, hlen, hlen']
    · intro xs m o ho
      cases o with
      | empty => exact Nat.le_refl 2
      | sorted => exact Nat.le_refl 2
      | fault => exact ho.elim
      | split pi =>
          obtain ⟨-, hl, hr, -⟩ := ho
          omega
  · refine ⟨200 * ((r - l + 1).toNat ^ 2 + 1) + 6, ?_, ?_⟩
    · obtain ⟨d, hd⟩ : ∃ d : Nat, (r - l).toNat = d := ⟨_, rfl⟩
      have hlen : (r - l + 1).toNat = d + 1 := by omega
      simp only [bodyCost, cost, hlen, hd]
      nlinarith
    · intro xs m o ho
      cases o with
      | empty | sorted => simp only [Outcome.rest]; omega
      | fault => exact ho.elim
      | split pi =>
          obtain ⟨-, hl, hr, -⟩ := ho
          obtain ⟨a, ha⟩ : ∃ a : Nat, (pi - 1 - l + 1).toNat = a := ⟨_, rfl⟩
          obtain ⟨b, hb⟩ : ∃ b : Nat, (r - (pi + 1) + 1).toNat = b := ⟨_, rfl⟩
          have hlen : (r - l + 1).toNat = a + b + 1 := by omega
          simp only [Outcome.rest, cost, ha, hb, hlen]
          have hprod : 0 ≤ a * b := Nat.zero_le _
          nlinarith

/-! ## The invariant -/

/-- The segment is split at `pi` into the elements `xl` and `xr`. -/
structure Halved (m : Int → Int) (l pi r : Int) (xs xl xr : Multiset Int) : Prop where
  low : l ≤ pi
  high : pi ≤ r
  same : xs = xl + m pi ::ₘ xr
  left : ∀ x ∈ xl, x ≤ m pi
  right : ∀ x ∈ xr, m pi ≤ x

/-- The node has sorted its segment. -/
def Node.Over : Node → Prop
  | .node _ _ .returned _ _ => True
  | .node _ _ .exited _ _ => True
  | _ => False

/-- Nobody has to wait for the node or for one of its descendants. -/
def Node.Quiet (kind : Kind) : Node → Prop
  | .nil => True
  | .node l r stage left right =>
      (Node.node l r stage left right).done kind = true ∧ left.Quiet kind ∧ right.Quiet kind

/-- The segments of the children are parts of the node's, on both sides of a
cell. -/
def Shaped : Int → Int → Node → Prop
  | _, _, .nil => True
  | l, r, .node l' r' _ left right =>
      l' = l ∧ r' = r ∧
        (left = .nil ∧ right = .nil ∨
          ∃ pi, l ≤ pi ∧ pi ≤ r ∧ Shaped l (pi - 1) left ∧ Shaped (pi + 1) r right)

/-- The node sorts the segment from `l` to `r` with the elements `xs`, and takes
at most `n` more steps, its descendants included. -/
def TreeInv (kind : Kind) (m : Int → Int) : Int → Int → Multiset Int → Node → Nat → Prop
  | l, r, xs, .nil, _ => segment m l r = xs
  | l, r, xs, .node l' r' (.work c) left right, n =>
      l' = l ∧ r' = r ∧ left = .nil ∧ right = .nil ∧
        ∃ k n₀, k + n₀ ≤ n ∧
          wp (midpointFits l r) (cells l r) c
            (fun o m' => o.Holds l r xs m' ∧ o.rest l r ≤ n₀) m k
  | l, r, xs, .node l' r' (.create1 pi) left right, n =>
      l' = l ∧ r' = r ∧ left = .nil ∧ right = .nil ∧
        Halved m l pi r xs (segment m l (pi - 1)) (segment m (pi + 1) r) ∧
        cost l (pi - 1) + cost (pi + 1) r + 5 ≤ n
  | l, r, xs, .node l' r' (.create2 pi) left right, n =>
      l' = l ∧ r' = r ∧ right = .nil ∧ ∃ xl nl,
        Halved m l pi r xs xl (segment m (pi + 1) r) ∧
        TreeInv kind m l (pi - 1) xl left nl ∧ (left = .nil → Ordered m l (pi - 1)) ∧
        nl + cost (pi + 1) r + 4 ≤ n
  | l, r, xs, .node l' r' (.wait1 pi) left right, n =>
      l' = l ∧ r' = r ∧ ∃ xl xr nl nr,
        Halved m l pi r xs xl xr ∧
        TreeInv kind m l (pi - 1) xl left nl ∧ (left = .nil → Ordered m l (pi - 1)) ∧
        TreeInv kind m (pi + 1) r xr right nr ∧ (right = .nil → Ordered m (pi + 1) r) ∧
        nl + nr + 3 ≤ n
  | l, r, xs, .node l' r' (.wait2 pi) left right, n =>
      l' = l ∧ r' = r ∧ left.Quiet kind ∧ ∃ xl xr nl nr,
        Halved m l pi r xs xl xr ∧
        TreeInv kind m l (pi - 1) xl left nl ∧ (left = .nil → Ordered m l (pi - 1)) ∧
        TreeInv kind m (pi + 1) r xr right nr ∧ (right = .nil → Ordered m (pi + 1) r) ∧
        nl + nr + 2 ≤ n
  | l, r, xs, .node l' r' .returned left right, n =>
      l' = l ∧ r' = r ∧ left.Quiet kind ∧ right.Quiet kind ∧
        Shaped l r (.node l' r' .returned left right) ∧
        segment m l r = xs ∧ Ordered m l r ∧ 1 ≤ n
  | l, r, xs, .node l' r' .exited left right, _ =>
      l' = l ∧ r' = r ∧ left.Quiet kind ∧ right.Quiet kind ∧
        Shaped l r (.node l' r' .exited left right) ∧
        segment m l r = xs ∧ Ordered m l r ∧ kind = .process

section Steps

variable {m m' : Int → Int} {l r pi l' r' : Int} {xs xl xr : Multiset Int} {t t' : Node}
  {n : Nat} {kind : Kind} {root ok : Bool} {rand : Nat}

theorem Halved.congr (h : Halved m l pi r xs xl xr) (hpi : m' pi = m pi) :
    Halved m' l pi r xs xl xr where
  low := h.low
  high := h.high
  same := by rw [hpi]; exact h.same
  left := by rw [hpi]; exact h.left
  right := by rw [hpi]; exact h.right

/-- Two sorted halves. -/
theorem Halved.sorted (h : Halved m l pi r xs xl xr) (hl : segment m l (pi - 1) = xl)
    (hr : segment m (pi + 1) r = xr) (hlo : Ordered m l (pi - 1))
    (hro : Ordered m (pi + 1) r) : segment m l r = xs ∧ Ordered m l r := by
  constructor
  · rw [segment_split m h.low h.high, hl, hr, h.same]
  · apply hlo.of_split hro
    constructor
    · rw [hl]
      exact h.left
    · rw [hr]
      exact h.right

/-- Arrays that agree on a segment hold the outcome of it alike. -/
theorem Outcome.Holds.congr {o : Outcome} (h : o.Holds l r xs m)
    (hm : ∀ i ∈ cells l r, m i = m' i) : o.Holds l r xs m' := by
  have hseg : segment m' l r = segment m l r :=
    (segment_congr fun i hi hr => hm i ⟨hi, hr⟩).symm
  cases o with
  | empty => exact ⟨h.1, hseg.trans h.2⟩
  | sorted => exact ⟨hseg.trans h.1, h.2.congr fun i hi hr => hm i ⟨hi, hr⟩⟩
  | fault => exact h.elim
  | split pi =>
      obtain ⟨hxs, hl, hr, hsplit⟩ := h
      have hpi := hm pi ⟨hl, hr⟩
      have hleft : segment m' l (pi - 1) = segment m l (pi - 1) :=
        (segment_congr fun i hi hr' => hm i ⟨hi, by omega⟩).symm
      have hright : segment m' (pi + 1) r = segment m (pi + 1) r :=
        (segment_congr fun i hi hr' => hm i ⟨by omega, hr'⟩).symm
      refine ⟨hseg.trans hxs, hl, hr, ?_, ?_⟩
      · rw [hleft, ← hpi]
        exact hsplit.1
      · rw [hright, ← hpi]
        exact hsplit.2

/-- The invariant looks at the cells of the segment only. -/
theorem TreeInv.frame (h : TreeInv kind m l r xs t n) (hm : ∀ i ∈ cells l r, m i = m' i) :
    TreeInv kind m' l r xs t n := by
  have hseg : ∀ a b, l ≤ a → b ≤ r → segment m' a b = segment m a b :=
    fun a b ha hb => (segment_congr fun i hi hi' => hm i ⟨by omega, by omega⟩).symm
  have hord : ∀ a b, l ≤ a → b ≤ r → Ordered m a b → Ordered m' a b :=
    fun a b ha hb ho => ho.congr fun i hi hi' => hm i ⟨by omega, by omega⟩
  induction t generalizing l r xs n with
  | nil => exact (hseg l r (le_refl l) (le_refl r)).trans h
  | node l' r' stage left right ihl ihr =>
      have left' : ∀ {pi xl nl}, pi ≤ r → TreeInv kind m l (pi - 1) xl left nl →
          TreeInv kind m' l (pi - 1) xl left nl :=
        fun hpi hl => ihl hl (fun i hi => hm i ⟨hi.1, by have := hi.2; omega⟩)
          (fun a b ha hb => hseg a b ha (by omega)) (fun a b ha hb => hord a b ha (by omega))
      have right' : ∀ {pi xr nr}, l ≤ pi → TreeInv kind m (pi + 1) r xr right nr →
          TreeInv kind m' (pi + 1) r xr right nr :=
        fun hpi hr => ihr hr (fun i hi => hm i ⟨by have := hi.1; omega, hi.2⟩)
          (fun a b ha hb => hseg a b (by omega) hb) (fun a b ha hb => hord a b (by omega) hb)
      cases stage with
      | work c =>
          obtain ⟨hl, hr, hnl, hnr, k, n₀, hn, hwp⟩ := h
          refine ⟨hl, hr, hnl, hnr, k, n₀, hn, wp_frame hwp hm ?_⟩
          intro o m₁ m₂ hm₁₂ ho
          exact ⟨ho.1.congr hm₁₂, ho.2⟩
      | create1 pi =>
          obtain ⟨hl, hr, hnl, hnr, hhalf, hn⟩ := h
          refine ⟨hl, hr, hnl, hnr, ?_, hn⟩
          rw [hseg l (pi - 1) (le_refl l) (by have := hhalf.high; omega),
            hseg (pi + 1) r (by have := hhalf.low; omega) (le_refl r)]
          exact hhalf.congr (hm pi ⟨hhalf.low, hhalf.high⟩).symm
      | create2 pi =>
          obtain ⟨hl, hr, hnr, xl, nl, hhalf, hleft, hlo, hn⟩ := h
          refine ⟨hl, hr, hnr, xl, nl, ?_, left' hhalf.high hleft, ?_, hn⟩
          · rw [hseg (pi + 1) r (by have := hhalf.low; omega) (le_refl r)]
            exact hhalf.congr (hm pi ⟨hhalf.low, hhalf.high⟩).symm
          · exact fun hnil => hord _ _ (le_refl l) (by have := hhalf.high; omega) (hlo hnil)
      | wait1 pi =>
          obtain ⟨hl, hr, xl, xr, nl, nr, hhalf, hleft, hlo, hright, hro, hn⟩ := h
          refine ⟨hl, hr, xl, xr, nl, nr, hhalf.congr (hm pi ⟨hhalf.low, hhalf.high⟩).symm,
            left' hhalf.high hleft, ?_, right' hhalf.low hright, ?_, hn⟩
          · exact fun hnil => hord _ _ (le_refl l) (by have := hhalf.high; omega) (hlo hnil)
          · exact fun hnil => hord _ _ (by have := hhalf.low; omega) (le_refl r) (hro hnil)
      | wait2 pi =>
          obtain ⟨hl, hr, hq, xl, xr, nl, nr, hhalf, hleft, hlo, hright, hro, hn⟩ := h
          refine ⟨hl, hr, hq, xl, xr, nl, nr,
            hhalf.congr (hm pi ⟨hhalf.low, hhalf.high⟩).symm, left' hhalf.high hleft, ?_,
            right' hhalf.low hright, ?_, hn⟩
          · exact fun hnil => hord _ _ (le_refl l) (by have := hhalf.high; omega) (hlo hnil)
          · exact fun hnil => hord _ _ (by have := hhalf.low; omega) (le_refl r) (hro hnil)
      | returned =>
          obtain ⟨hl, hr, hql, hqr, hshape, hxs, ho, hn⟩ := h
          exact ⟨hl, hr, hql, hqr, hshape, (hseg l r (le_refl l) (le_refl r)).trans hxs,
            hord l r (le_refl l) (le_refl r) ho, hn⟩
      | exited =>
          obtain ⟨hl, hr, hql, hqr, hshape, hxs, ho, hkind⟩ := h
          exact ⟨hl, hr, hql, hqr, hshape, (hseg l r (le_refl l) (le_refl r)).trans hxs,
            hord l r (le_refl l) (le_refl r) ho, hkind⟩

/-- What the invariant says once the node is over. -/
theorem TreeInv.over (h : TreeInv kind m l r xs t n) (ho : t.Over) :
    segment m l r = xs ∧ Ordered m l r := by
  cases t with
  | nil => exact ho.elim
  | node l' r' stage left right =>
      cases stage with
      | returned | exited =>
          obtain ⟨-, -, -, -, -, hxs, hord, -⟩ := h
          exact ⟨hxs, hord⟩
      | _ => exact ho.elim

theorem Node.over_of_done (h : t.done kind = true) : t.Over := by
  cases t with
  | nil => exact absurd h (by simp [Node.done])
  | node l' r' stage left right =>
      cases stage with
      | returned => trivial
      | exited => trivial
      | _ => exact absurd h (by simp [Node.done])

/-- A child that has not been created, or is done, leaves its half sorted. -/
theorem TreeInv.settled (h : TreeInv kind m l r xs t n) (hnil : t = .nil → Ordered m l r)
    (hq : t.Quiet kind) : segment m l r = xs ∧ Ordered m l r := by
  cases t with
  | nil => exact ⟨h, hnil rfl⟩
  | node l' r' stage left right => exact h.over (Node.over_of_done hq.1)

theorem TreeInv.shaped (h : TreeInv kind m l r xs t n) : Shaped l r t := by
  induction t generalizing l r xs n with
  | nil => trivial
  | node l' r' stage left right ihl ihr =>
      cases stage with
      | work c | create1 pi =>
          obtain ⟨hl, hr, hnl, hnr, -⟩ := h
          exact ⟨hl, hr, .inl ⟨hnl, hnr⟩⟩
      | create2 pi =>
          obtain ⟨hl, hr, rfl, xl, nl, hhalf, hleft, -⟩ := h
          exact ⟨hl, hr, .inr ⟨pi, hhalf.low, hhalf.high, ihl hleft, trivial⟩⟩
      | wait1 pi =>
          obtain ⟨hl, hr, xl, xr, nl, nr, hhalf, hleft, -, hright, -⟩ := h
          exact ⟨hl, hr, .inr ⟨pi, hhalf.low, hhalf.high, ihl hleft, ihr hright⟩⟩
      | wait2 pi =>
          obtain ⟨hl, hr, -, xl, xr, nl, nr, hhalf, hleft, -, hright, -⟩ := h
          exact ⟨hl, hr, .inr ⟨pi, hhalf.low, hhalf.high, ihl hleft, ihr hright⟩⟩
      | returned | exited =>
          obtain ⟨-, -, -, -, hshape, -⟩ := h
          exact hshape

/-- A node that has just been created. -/
theorem treeInv_new (hl : 0 ≤ l) (hxs : segment m l r = xs) :
    TreeInv kind m l r xs (newNode l r) (cost l r) := by
  obtain ⟨n₀, hn, hrest⟩ := rest_le l r
  refine ⟨rfl, rfl, rfl, rfl, bodyCost l r, n₀, hn, ?_⟩
  apply wp_mono (wp_sortBody hl hxs) Set.Subset.rfl (Nat.le_refl _)
  intro o m' ho
  exact ⟨ho, hrest xs m' o ho⟩

/-- A child that is done has no descendants that are not. -/
theorem TreeInv.quiet (h : TreeInv kind m l r xs t n) (hdone : t.done kind = true) :
    t.Quiet kind := by
  cases t with
  | nil => trivial
  | node l' r' stage left right =>
      cases stage with
      | returned | exited =>
          obtain ⟨-, -, hql, hqr, -⟩ := h
          exact ⟨hdone, hql, hqr⟩
      | _ => exact absurd hdone (by simp [Node.done])

/-- What a wait for the node establishes. -/
theorem TreeInv.quiet_of_wait (h : TreeInv kind m l r xs t n)
    (hwait : (t.isNil || t.done kind) = true) : t.Quiet kind := by
  rw [Bool.or_eq_true] at hwait
  rcases hwait with hnil | hdone
  · cases t with
    | nil => trivial
    | node l' r' stage left right => exact absurd hnil (by simp [Node.isNil])
  · exact h.quiet hdone

/-- What one step of a node does: it uses up a part of its bound and writes to
its own segment only. -/
def Advances (kind : Kind) (m m' : Int → Int) (l r : Int) (xs : Multiset Int) (t' : Node)
    (n : Nat) : Prop :=
  (∃ n', n' < n ∧ TreeInv kind m' l r xs t' n') ∧ ∀ i, i ∉ cells l r → m' i = m i

theorem TreeInv.advances (h : TreeInv kind m l r xs t' n) {n₁ : Nat} (hn : n < n₁) :
    Advances kind m m l r xs t' n₁ :=
  ⟨⟨n, hn, h⟩, fun _ _ => rfl⟩

/-- An access of `sortBody`, or its end. -/
theorem TreeInv.workStep {c : Code Outcome}
    (h : TreeInv kind m l r xs (.node l' r' (.work c) .nil .nil) n)
    (hok : (Node.node l' r' (.work c) .nil .nil).Careful rand ok m [])
    (hs : stageStep kind root m l' r' (.work c) .nil .nil rand ok = some (m', t')) :
    Advances kind m m' l r xs t' n := by
  obtain ⟨rfl, rfl, -, -, k, n₀, hn, hwp⟩ := h
  have hshape : ∀ stage, Shaped l' r' (.node l' r' stage .nil .nil) :=
    fun _ => ⟨rfl, rfl, .inl ⟨rfl, rfl⟩⟩
  cases c with
  | ret o =>
      rw [wp_ret] at hwp
      obtain ⟨hpost, hrest⟩ := hwp
      cases o with
      | empty =>
          obtain ⟨hlt, hxs⟩ := hpost
          have hord : Ordered m l' r' := .of_lt (by omega)
          simp only [Outcome.rest] at hrest
          cases kind with
          | thread =>
              obtain ⟨rfl, rfl⟩ := Prod.mk.inj (Option.some.inj hs)
              have hnext : TreeInv .thread m l' r' xs (.node l' r' .returned .nil .nil) 1 :=
                ⟨rfl, rfl, trivial, trivial, hshape _, hxs, hord, le_refl 1⟩
              exact hnext.advances (by omega)
          | process =>
              obtain ⟨rfl, rfl⟩ := Prod.mk.inj (Option.some.inj hs)
              have hnext : TreeInv .process m l' r' xs (.node l' r' .exited .nil .nil) 0 :=
                ⟨rfl, rfl, trivial, trivial, hshape _, hxs, hord, rfl⟩
              exact hnext.advances (by omega)
      | sorted =>
          obtain ⟨hxs, hord⟩ := hpost
          simp only [Outcome.rest] at hrest
          obtain ⟨rfl, rfl⟩ := Prod.mk.inj (Option.some.inj hs)
          have hnext : TreeInv kind m l' r' xs (.node l' r' .returned .nil .nil) 1 :=
            ⟨rfl, rfl, trivial, trivial, hshape _, hxs, hord, le_refl 1⟩
          exact hnext.advances (by omega)
      | fault => exact hpost.elim
      | split pi =>
          obtain ⟨hxs, hlo, hhi, hsplit⟩ := hpost
          simp only [Outcome.rest] at hrest
          obtain ⟨rfl, rfl⟩ := Prod.mk.inj (Option.some.inj hs)
          have hhalf : Halved m l' pi r' xs (segment m l' (pi - 1)) (segment m (pi + 1) r') :=
            { low := hlo
              high := hhi
              same := by rw [← hxs, segment_split m hlo hhi]
              left := hsplit.1
              right := hsplit.2 }
          have hnext : TreeInv kind m l' r' xs (.node l' r' (.create1 pi) .nil .nil) (n₀ - 1) :=
            ⟨rfl, rfl, rfl, rfl, hhalf, by omega⟩
          exact hnext.advances (by omega)
  | read i kont =>
      obtain ⟨rfl, rfl⟩ := Prod.mk.inj (Option.some.inj hs)
      cases k with
      | zero => exact hwp.elim
      | succ k =>
          have hnext : TreeInv kind m l' r' xs (.node l' r' (.work (kont (m i))) .nil .nil)
              (k + n₀) := ⟨rfl, rfl, rfl, rfl, k, n₀, le_refl _, hwp.2⟩
          exact hnext.advances (by omega)
  | write i v kont =>
      obtain ⟨rfl, rfl⟩ := Prod.mk.inj (Option.some.inj hs)
      cases k with
      | zero => exact hwp.elim
      | succ k =>
          refine ⟨⟨k + n₀, by omega, rfl, rfl, rfl, rfl, k, n₀, le_refl _, hwp.2⟩, ?_⟩
          intro i' hi'
          rw [Function.update_of_ne]
          rintro rfl
          exact hi' hwp.1
  | draw kont =>
      obtain ⟨rfl, rfl⟩ := Prod.mk.inj (Option.some.inj hs)
      cases k with
      | zero => exact hwp.elim
      | succ k =>
          have hnext : TreeInv kind m l' r' xs (.node l' r' (.work (kont rand)) .nil .nil)
              (k + n₀) := ⟨rfl, rfl, rfl, rfl, k, n₀, le_refl _, hwp rand hok⟩
          exact hnext.advances (by omega)

/-- The step of a node keeps its invariant. -/
theorem TreeInv.stageStep {stage : Stage} {left right : Node}
    (h : TreeInv kind m l r xs (.node l' r' stage left right) n) (hl : 0 ≤ l)
    (hok : (Node.node l' r' stage left right).Careful rand ok m [])
    (hs : stageStep kind root m l' r' stage left right rand ok = some (m', t')) :
    Advances kind m m' l r xs t' n := by
  cases stage with
  | work c =>
      obtain ⟨-, -, rfl, rfl, -⟩ := id h
      exact h.workStep hok hs
  | create1 pi =>
      obtain ⟨rfl, rfl, rfl, rfl, hhalf, hn⟩ := h
      have hlo := hhalf.low
      cases ok with
      | true =>
          obtain ⟨rfl, rfl⟩ := Prod.mk.inj (Option.some.inj hs)
          have hnext : TreeInv kind m l' r' xs
              (.node l' r' (.create2 pi) (newNode l' (pi - 1)) .nil)
              (cost l' (pi - 1) + cost (pi + 1) r' + 4) :=
            ⟨rfl, rfl, rfl, _, _, hhalf, treeInv_new hl rfl,
              fun hnil => by simp [newNode] at hnil, le_refl _⟩
          exact hnext.advances (by omega)
      | false =>
          cases kind with
          | thread => exact absurd hs (by simp [QuickSort.stageStep])
          | process =>
              obtain ⟨rfl, rfl⟩ := Prod.mk.inj (Option.some.inj hs)
              have hnext : TreeInv .process m l' r' xs (.node l' r' (.create2 pi) .nil .nil)
                  (0 + cost (pi + 1) r' + 4) :=
                ⟨rfl, rfl, rfl, _, 0, hhalf, rfl, fun _ => hok rfl, le_refl _⟩
              exact hnext.advances (by omega)
  | create2 pi =>
      obtain ⟨rfl, rfl, rfl, xl, nl, hhalf, hleft, hlord, hn⟩ := h
      have hlo := hhalf.low
      cases ok with
      | true =>
          obtain ⟨rfl, rfl⟩ := Prod.mk.inj (Option.some.inj hs)
          have hnext : TreeInv kind m l' r' xs
              (.node l' r' (.wait1 pi) left (newNode (pi + 1) r'))
              (nl + cost (pi + 1) r' + 3) :=
            ⟨rfl, rfl, xl, _, nl, _, hhalf, hleft, hlord, treeInv_new (by omega) rfl,
              fun hnil => by simp [newNode] at hnil, le_refl _⟩
          exact hnext.advances (by omega)
      | false =>
          cases kind with
          | thread => exact absurd hs (by simp [QuickSort.stageStep])
          | process =>
              obtain ⟨rfl, rfl⟩ := Prod.mk.inj (Option.some.inj hs)
              have hnext : TreeInv .process m l' r' xs (.node l' r' (.wait1 pi) left .nil)
                  (nl + 0 + 3) :=
                ⟨rfl, rfl, xl, _, nl, 0, hhalf, hleft, hlord, rfl, fun _ => hok rfl,
                  le_refl _⟩
              exact hnext.advances (by omega)
  | wait1 pi =>
      obtain ⟨rfl, rfl, xl, xr, nl, nr, hhalf, hleft, hlord, hright, hrord, hn⟩ := h
      simp only [QuickSort.stageStep] at hs
      split at hs
      · rename_i hwait
        obtain ⟨rfl, rfl⟩ := Prod.mk.inj (Option.some.inj hs)
        have hquiet : left.Quiet kind := by
          apply hleft.quiet_of_wait
          rw [Bool.or_eq_true] at hwait ⊢
          rcases hwait with hdone | hnil
          · exact .inr hdone
          · exact .inl (Bool.and_eq_true _ _ ▸ hnil).1
        have hnext : TreeInv kind m l' r' xs (.node l' r' (.wait2 pi) left right) (nl + nr + 2) :=
          ⟨rfl, rfl, hquiet, xl, xr, nl, nr, hhalf, hleft, hlord, hright, hrord, le_refl _⟩
        exact hnext.advances (by omega)
      · exact absurd hs (by simp)
  | wait2 pi =>
      obtain ⟨rfl, rfl, hql, xl, xr, nl, nr, hhalf, hleft, hlord, hright, hrord, hn⟩ := h
      simp only [QuickSort.stageStep] at hs
      split at hs
      · rename_i hwait
        obtain ⟨rfl, rfl⟩ := Prod.mk.inj (Option.some.inj hs)
        have hqr := hright.quiet_of_wait hwait
        obtain ⟨hxl, hol⟩ := hleft.settled hlord hql
        obtain ⟨hxr, hor⟩ := hright.settled hrord hqr
        obtain ⟨hxs, hord⟩ := hhalf.sorted hxl hxr hol hor
        have hnext : TreeInv kind m l' r' xs (.node l' r' .returned left right) 1 :=
          ⟨rfl, rfl, hql, hqr, ⟨rfl, rfl, .inr ⟨pi, hhalf.low, hhalf.high, hleft.shaped,
            hright.shaped⟩⟩, hxs, hord, le_refl 1⟩
        exact hnext.advances (by omega)
      · exact absurd hs (by simp)
  | returned =>
      obtain ⟨rfl, rfl, hql, hqr, hshape, hxs, hord, hn⟩ := h
      simp only [QuickSort.stageStep] at hs
      split at hs
      · exact absurd hs (by simp)
      · split at hs
        · exact absurd hs (by simp)
        · obtain ⟨rfl, rfl⟩ := Prod.mk.inj (Option.some.inj hs)
          have hnext : TreeInv .process m l' r' xs (.node l' r' .exited left right) 0 :=
            ⟨rfl, rfl, hql, hqr, hshape, hxs, hord, rfl⟩
          exact hnext.advances (by omega)
  | exited => exact absurd hs (by simp [QuickSort.stageStep])

theorem Node.Quiet.step (h : t.Quiet kind) (path : List Bool) :
    t.step kind rand ok m root path = none := by
  induction path generalizing t root with
  | nil =>
      cases t with
      | nil => rfl
      | node l' r' stage left right =>
          obtain ⟨hdone, -, -⟩ := h
          cases stage with
          | returned =>
              cases kind with
              | thread => rfl
              | process => exact absurd hdone (by simp [Node.done])
          | exited => rfl
          | _ => exact absurd hdone (by simp [Node.done])
  | cons side path ih =>
      cases t with
      | nil => cases side <;> rfl
      | node l' r' stage left right =>
          cases side with
          | false => simp only [Node.step, ih h.2.1, Option.map_none]
          | true => simp only [Node.step, ih h.2.2, Option.map_none]

theorem Node.step_ne_nil {path : List Bool}
    (hs : t.step kind rand ok m root path = some (m', t')) : t ≠ .nil := by
  rintro rfl
  cases path with
  | nil => exact absurd hs (by simp [Node.step])
  | cons side path => cases side <;> exact absurd hs (by simp [Node.step])

/-- A step of a node keeps its children, except those that it creates. -/
theorem stageStep_children {stage : Stage} {left right : Node}
    (hs : QuickSort.stageStep kind root m l r stage left right rand ok = some (m', t')) :
    ∃ stage' left' right', t' = .node l r stage' left' right' ∧
      (left' = left ∧ right' = right ∨ (∃ pi, stage = .create1 pi) ∧ right' = right ∨
        (∃ pi, stage = .create2 pi) ∧ left' = left) := by
  revert hs
  fun_cases QuickSort.stageStep kind root m l r stage left right rand ok <;>
    intro hs <;> simp only [reduceCtorEq, Option.some.injEq, Prod.mk.injEq] at hs <;>
    obtain ⟨rfl, rfl⟩ := hs <;> simp

/-- A step below the first child. -/
theorem Node.step_left {stage : Stage} {left right : Node} {path : List Bool}
    (hs : (Node.node l r stage left right).step kind rand ok m root (false :: path) =
      some (m', t')) :
    ∃ left', left.step kind rand ok m false path = some (m', left') ∧
      t' = .node l r stage left' right := by
  simp only [Node.step, Option.map_eq_some_iff] at hs
  obtain ⟨⟨m₁, left'⟩, hleft, heq⟩ := hs
  obtain ⟨rfl, rfl⟩ := Prod.mk.inj heq
  exact ⟨left', hleft, rfl⟩

/-- A step below the second child. -/
theorem Node.step_right {stage : Stage} {left right : Node} {path : List Bool}
    (hs : (Node.node l r stage left right).step kind rand ok m root (true :: path) =
      some (m', t')) :
    ∃ right', right.step kind rand ok m false path = some (m', right') ∧
      t' = .node l r stage left right' := by
  simp only [Node.step, Option.map_eq_some_iff] at hs
  obtain ⟨⟨m₁, right'⟩, hright, heq⟩ := hs
  obtain ⟨rfl, rfl⟩ := Prod.mk.inj heq
  exact ⟨right', hright, rfl⟩

theorem Node.step_result_ne_nil {path : List Bool}
    (hs : t.step kind rand ok m root path = some (m', t')) : t' ≠ .nil := by
  cases t with
  | nil => exact absurd rfl (Node.step_ne_nil hs)
  | node l r stage left right =>
      cases path with
      | nil =>
          obtain ⟨stage', left', right', rfl, -⟩ := stageStep_children hs
          exact Node.noConfusion
      | cons side path =>
          cases side with
          | false =>
              obtain ⟨left', -, rfl⟩ := Node.step_left hs
              exact Node.noConfusion
          | true =>
              obtain ⟨right', -, rfl⟩ := Node.step_right hs
              exact Node.noConfusion

/-- The halves after a step in the first one. -/
theorem Halved.after_left (h : Halved m l pi r xs xl xr)
    (hout : ∀ i, i ∉ cells l (pi - 1) → m' i = m i) : Halved m' l pi r xs xl xr :=
  h.congr (hout pi fun hi => by have := hi.2; omega)

/-- The halves after a step in the second one. -/
theorem Halved.after_right (h : Halved m l pi r xs xl xr)
    (hout : ∀ i, i ∉ cells (pi + 1) r → m' i = m i) : Halved m' l pi r xs xl xr :=
  h.congr (hout pi fun hi => by have := hi.1; omega)

/-- The step of the first child, or below it. -/
theorem TreeInv.stepLeft {stage : Stage} {left right left' : Node} {path : List Bool}
    (h : TreeInv kind m l r xs (.node l' r' stage left right) n)
    (hs : left.step kind rand ok m false path = some (m', left'))
    (ih : ∀ {pi xl nl}, TreeInv kind m l (pi - 1) xl left nl →
      Advances kind m m' l (pi - 1) xl left' nl) :
    Advances kind m m' l r xs (.node l' r' stage left' right) n := by
  have hne := Node.step_ne_nil hs
  have hne' := Node.step_result_ne_nil hs
  cases stage with
  | create2 pi =>
      obtain ⟨rfl, rfl, hnr, xl, nl, hhalf, hleft, -, hn⟩ := h
      have hhi := hhalf.high
      obtain ⟨⟨nl', hlt, hleft'⟩, hout⟩ := ih hleft
      have hright : segment m (pi + 1) r' = segment m' (pi + 1) r' := by
        apply segment_congr
        intro i hi _
        exact (hout i fun hmem => by have := hmem.2; omega).symm
      rw [hright] at hhalf
      refine ⟨⟨nl' + cost (pi + 1) r' + 4, by omega, rfl, rfl, hnr, xl, nl',
        hhalf.after_left hout, hleft', fun hnil => absurd hnil hne', le_refl _⟩, ?_⟩
      exact fun i hi => hout i fun hmem => hi ⟨hmem.1, by have := hmem.2; omega⟩
  | wait1 pi =>
      obtain ⟨rfl, rfl, xl, xr, nl, nr, hhalf, hleft, -, hright, hrord, hn⟩ := h
      have hhi := hhalf.high
      obtain ⟨⟨nl', hlt, hleft'⟩, hout⟩ := ih hleft
      have hsame : ∀ i ∈ cells (pi + 1) r', m i = m' i :=
        fun i hi => (hout i fun hmem => by have := hmem.2; have := hi.1; omega).symm
      refine ⟨⟨nl' + nr + 3, by omega, rfl, rfl, xl, xr, nl', nr, hhalf.after_left hout,
        hleft', fun hnil => absurd hnil hne', hright.frame hsame, fun hnil =>
          (hrord hnil).congr fun i hi hi' => hsame i ⟨hi, hi'⟩, le_refl _⟩, ?_⟩
      exact fun i hi => hout i fun hmem => hi ⟨hmem.1, by have := hmem.2; omega⟩
  | work c | create1 pi =>
      obtain ⟨-, -, hnil, -⟩ := h
      exact absurd hnil hne
  | wait2 pi | returned | exited =>
      obtain ⟨-, -, hquiet, -⟩ := h
      exact absurd hs (by rw [hquiet.step]; simp)

/-- The step of the second child, or below it. -/
theorem TreeInv.stepRight {stage : Stage} {left right right' : Node} {path : List Bool}
    (h : TreeInv kind m l r xs (.node l' r' stage left right) n) (hl : 0 ≤ l)
    (hs : right.step kind rand ok m false path = some (m', right'))
    (ih : ∀ {pi xr nr}, 0 ≤ pi + 1 → TreeInv kind m (pi + 1) r xr right nr →
      Advances kind m m' (pi + 1) r xr right' nr) :
    Advances kind m m' l r xs (.node l' r' stage left right') n := by
  have hne := Node.step_ne_nil hs
  have hne' := Node.step_result_ne_nil hs
  cases stage with
  | wait1 pi =>
      obtain ⟨rfl, rfl, xl, xr, nl, nr, hhalf, hleft, hlord, hright, -, hn⟩ := h
      have hlo := hhalf.low
      obtain ⟨⟨nr', hlt, hright'⟩, hout⟩ := ih (by omega) hright
      have hsame : ∀ i ∈ cells l' (pi - 1), m i = m' i :=
        fun i hi => (hout i fun hmem => by have := hmem.1; have := hi.2; omega).symm
      refine ⟨⟨nl + nr' + 3, by omega, rfl, rfl, xl, xr, nl, nr', hhalf.after_right hout,
        hleft.frame hsame, fun hnil => (hlord hnil).congr fun i hi hi' => hsame i ⟨hi, hi'⟩,
        hright', fun hnil => absurd hnil hne', le_refl _⟩, ?_⟩
      exact fun i hi => hout i fun hmem => hi ⟨by have := hmem.1; omega, hmem.2⟩
  | wait2 pi =>
      obtain ⟨rfl, rfl, hql, xl, xr, nl, nr, hhalf, hleft, hlord, hright, -, hn⟩ := h
      have hlo := hhalf.low
      obtain ⟨⟨nr', hlt, hright'⟩, hout⟩ := ih (by omega) hright
      have hsame : ∀ i ∈ cells l' (pi - 1), m i = m' i :=
        fun i hi => (hout i fun hmem => by have := hmem.1; have := hi.2; omega).symm
      refine ⟨⟨nl + nr' + 2, by omega, rfl, rfl, hql, xl, xr, nl, nr',
        hhalf.after_right hout, hleft.frame hsame, fun hnil =>
          (hlord hnil).congr fun i hi hi' => hsame i ⟨hi, hi'⟩, hright',
        fun hnil => absurd hnil hne', le_refl _⟩, ?_⟩
      exact fun i hi => hout i fun hmem => hi ⟨by have := hmem.1; omega, hmem.2⟩
  | work c | create1 pi =>
      obtain ⟨-, -, -, hnil, -⟩ := h
      exact absurd hnil hne
  | create2 pi =>
      obtain ⟨-, -, hnil, -⟩ := h
      exact absurd hnil hne
  | returned | exited =>
      obtain ⟨-, -, -, hquiet, -⟩ := h
      exact absurd hs (by rw [hquiet.step]; simp)

/-- Every step of every node keeps the invariant and uses up the bound. -/
theorem TreeInv.step {path : List Bool} (h : TreeInv kind m l r xs t n) (hl : 0 ≤ l)
    (hok : t.Careful rand ok m path)
    (hs : t.step kind rand ok m root path = some (m', t')) :
    Advances kind m m' l r xs t' n := by
  induction path generalizing t t' l r xs n root with
  | nil =>
      cases t with
      | nil => exact absurd rfl (Node.step_ne_nil hs)
      | node l' r' stage left right => exact h.stageStep hl hok hs
  | cons side path ih =>
      cases t with
      | nil => exact absurd rfl (Node.step_ne_nil hs)
      | node l' r' stage left right =>
          cases side with
          | false =>
              obtain ⟨left', hleft, rfl⟩ := Node.step_left hs
              have hcareful := Node.careful_left.mp hok
              exact h.stepLeft hleft fun hinv => ih hinv hl hcareful hleft
          | true =>
              obtain ⟨right', hright, rfl⟩ := Node.step_right hs
              have hcareful := Node.careful_right.mp hok
              exact h.stepRight hl hright fun hlo hinv => ih hinv hlo hcareful hright

/-- A node that is not done, or the root that has not returned, can move, or a
descendant of it can. -/
theorem TreeInv.progress (h : TreeInv kind m l r xs t n) (root : Bool) (rand : Nat) :
    t.Quiet kind ∨ (root = true ∧ t.Over) ∨
      ∃ path m' t', t.step kind rand true m root path = some (m', t') := by
  induction t generalizing l r xs n root with
  | nil => exact .inl trivial
  | node l' r' stage left right ihl ihr =>
      have leftMoves : (∃ path m' t', left.step kind rand true m false path = some (m', t')) →
          ∃ path m' t', (Node.node l' r' stage left right).step kind rand true m root path =
            some (m', t') := by
        rintro ⟨path, m', left', hs⟩
        exact ⟨false :: path, m', .node l' r' stage left' right, by simp [Node.step, hs]⟩
      have rightMoves :
          (∃ path m' t', right.step kind rand true m false path = some (m', t')) →
          ∃ path m' t', (Node.node l' r' stage left right).step kind rand true m root path =
            some (m', t') := by
        rintro ⟨path, m', right', hs⟩
        exact ⟨true :: path, m', .node l' r' stage left right', by simp [Node.step, hs]⟩
      have itself : ∀ m' t', QuickSort.stageStep kind root m l' r' stage left right rand true =
          some (m', t') → ∃ path m' t',
            (Node.node l' r' stage left right).step kind rand true m root path =
              some (m', t') := fun m' t' hs => ⟨[], m', t', hs⟩
      have waited : ∀ {t : Node}, t.Quiet kind → t.isNil = true ∨ t.done kind = true := by
        intro t hq
        cases t with
        | nil => exact .inl rfl
        | node _ _ _ _ _ => exact .inr hq.1
      cases stage with
      | work c =>
          right
          right
          cases c with
          | ret o =>
              cases o with
              | empty => cases kind <;> exact itself _ _ rfl
              | sorted => exact itself _ _ rfl
              | fault =>
                  obtain ⟨-, -, -, -, k, n₀, -, hwp⟩ := h
                  rw [wp_ret] at hwp
                  exact hwp.1.elim
              | split pi => exact itself _ _ rfl
          | read i k | write i v k | draw k => exact itself _ _ rfl
      | create1 pi | create2 pi => exact .inr (.inr (itself _ _ rfl))
      | wait1 pi =>
          obtain ⟨-, -, xl, xr, nl, nr, -, hleft, -, hright, -⟩ := h
          right
          right
          rcases ihl hleft false with hql | ⟨hroot, -⟩ | hmove
          · rcases ihr hright false with hqr | ⟨hroot, -⟩ | hmove
            · apply itself m (.node l' r' (.wait2 pi) left right)
              have hl := waited hql
              have hr := waited hqr
              simp only [QuickSort.stageStep]
              rcases hl with hl | hl <;> rcases hr with hr | hr <;> simp [hl, hr]
            · cases hroot
            · exact rightMoves hmove
          · cases hroot
          · exact leftMoves hmove
      | wait2 pi =>
          obtain ⟨-, -, -, xl, xr, nl, nr, -, -, -, hright, -⟩ := h
          right
          right
          rcases ihr hright false with hqr | ⟨hroot, -⟩ | hmove
          · apply itself m (.node l' r' .returned left right)
            simp only [QuickSort.stageStep]
            rcases waited hqr with hr | hr <;> simp [hr]
          · cases hroot
          · exact rightMoves hmove
      | returned =>
          obtain ⟨-, -, hql, hqr, -⟩ := h
          cases kind with
          | thread => exact .inl ⟨rfl, hql, hqr⟩
          | process =>
              right
              cases root with
              | true => exact .inl ⟨rfl, trivial⟩
              | false => exact .inr (itself _ _ rfl)
      | exited =>
          obtain ⟨-, -, hql, hqr, -, -, -, rfl⟩ := h
          exact .inl ⟨rfl, hql, hqr⟩

end Steps

end OsWork.Ports.QuickSort

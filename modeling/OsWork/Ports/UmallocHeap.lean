import OsWork.Ports.Umalloc
import OsWork.Verified.Transition

/-!
# The heap of `umalloc.c` over whole runs

A program asks for blocks, frees them, and writes where it may: into its blocks, and
outside the memory that the allocator has got from `sbrk`.

## Main results

* `FreeList.mallocLoop` — what the loop of `malloc` does to the free list.
* `heap_invariant` — the free list, the tiling of the memory, and the results of `malloc`.
-/

namespace OsWork.Ports.Umalloc

open OsWork.Verified.ByteWords OsWork.Verified.CircularList OsWork.Verified.Intervals
open OsWork.Verified.Transition

/-- With enough rounds for its loops the call ends with `r`. -/
def Ends {R : Type} (call : Nat → Option R) (r : R) : Prop :=
  ∃ rounds, ∀ fuel, rounds ≤ fuel → call fuel = some r

theorem Ends.unique {R : Type} {call : Nat → Option R} {r r' : R} (h : Ends call r)
    (h' : Ends call r') : r = r' := by
  obtain ⟨n, hn⟩ := h
  obtain ⟨n', hn'⟩ := h'
  have heq := (hn (n + n') (Nat.le_add_right _ _)).symm.trans (hn' (n + n') (Nat.le_add_left _ _))
  exact Option.some.inj heq

/-- When more rounds than needed change nothing, the result is that of any number. -/
theorem Ends.eq_of_some {R : Type} {call : Nat → Option R} {r r' : R} {fuel : Nat}
    (h : Ends call r) (hmore : ∀ n r, call n = some r → call (n + 1) = some r)
    (hr : call fuel = some r') : r' = r := by
  obtain ⟨rounds, hrounds⟩ := h
  have hkeep (k : Nat) : call (fuel + k) = some r' := by
    induction k with
    | zero => exact hr
    | succ k ih => exact hmore _ _ ih
  exact Option.some.inj ((hkeep rounds).symm.trans (hrounds _ (Nat.le_add_left _ _)))

/-! ## More rounds -/

theorem freeLoop_more {b : Bytes} {bp q : Nat} : ∀ {fuel p : Nat},
    freeLoop b bp fuel p = some q → freeLoop b bp (fuel + 1) p = some q := by
  intro fuel
  induction fuel with
  | zero =>
      intro p h
      cases h
  | succ fuel ih =>
      intro p h
      rw [freeLoop] at h ⊢
      split at h
      next hfirst => rwa [if_pos hfirst]
      next hfirst =>
        rw [if_neg hfirst]
        split at h
        next hsecond => rwa [if_pos hsecond]
        next hsecond =>
          rw [if_neg hsecond]
          exact ih h

theorem free_more {h h' : Heap} {fuel ap : Nat} (hr : free fuel h ap = some h') :
    free (fuel + 1) h ap = some h' := by
  unfold free at hr ⊢
  simp only at hr ⊢
  cases hloop : freeLoop h.mem (ap - 8) fuel h.freep with
  | none =>
      rw [hloop] at hr
      cases hr
  | some p =>
      rw [hloop] at hr
      rw [freeLoop_more hloop]
      exact hr

theorem morecore_more {h : Heap} {fuel nu : Nat} {answer : Option Nat} {r : Heap × Nat}
    (hr : morecore fuel h nu answer = some r) : morecore (fuel + 1) h nu answer = some r := by
  cases answer with
  | none => exact hr
  | some hp =>
      unfold morecore at hr ⊢
      simp only at hr ⊢
      cases hfree : free fuel { h with mem := setSize h.mem hp (morecoreUnits nu) } (off hp 1) with
      | none =>
          rw [hfree] at hr
          cases hr
      | some h' =>
          rw [hfree] at hr
          rw [free_more hfree]
          exact hr

theorem mallocLoop_more {nu : Nat} {r : Result} : ∀ {fuel : Nat} {h : Heap} {prevp p : Nat}
    {answers : List (Option Nat)} {calls : List SbrkCall},
    mallocLoop nu fuel h prevp p answers calls = some r →
      mallocLoop nu (fuel + 1) h prevp p answers calls = some r := by
  intro fuel
  induction fuel with
  | zero =>
      intro h prevp p answers calls hr
      cases hr
  | succ fuel ih =>
      intro h prevp p answers calls hr
      rw [mallocLoop] at hr ⊢
      split at hr
      next hfit => rwa [if_pos hfit]
      next hfit =>
        rw [if_neg hfit]
        split at hr
        next hfreep =>
          rw [if_pos hfreep]
          cases hcore : morecore fuel h nu (answers.headD none) with
          | none =>
              rw [hcore] at hr
              cases hr
          | some result =>
              rw [hcore] at hr
              rw [morecore_more hcore]
              simp only at hr ⊢
              split at hr
              next hzero => rwa [if_pos hzero]
              next hzero =>
                rw [if_neg hzero]
                exact ih hr
        next hfreep =>
          rw [if_neg hfreep]
          exact ih hr

/-! ## Taking a block from the list -/

section Take

variable {base p q prevp nu : Nat} {b : Bytes} {h : Heap} {nodes A B : List Nat}
variable {grown : List Interval}

/-- A block of `nu` units has been taken from the free list, to which `grown` was added. -/
structure Taken (base : Nat) (h : Heap) (nodes : List Nat) (grown : List Interval) (nu : Nat)
    (h' : Heap) (nodes' : List Nat) (p : Nat) : Prop where
  list : FreeList base h' nodes'
  size : size h'.mem p = nu
  /-- Only the free memory and `base` are written. -/
  outside : ∀ x, (x < base ∨ base + 8 ≤ x) → coverage (grown ++ nodes.map (span h.mem)) x = 0 →
    h'.mem x = h.mem x
  coverage : ∀ x, coverage (span h'.mem p :: nodes'.map (span h'.mem)) x =
    coverage (grown ++ nodes.map (span h.mem)) x

/-- Another header of the list is not in the block `p`. -/
theorem Shape.outside {f : Nat} (hs : Shape base b nodes) (hp : p ∈ nodes) (hf : f ∈ nodes)
    (hne : f ≠ p) : f + 8 ≤ p ∨ p + 8 * Umalloc.size b p ≤ f := by
  have hpairs : nodes.Pairwise fun x y => Before b x y ∨ Before b y x := hs.ascending.imp .inl
  have : Std.Symm fun x y => Before b x y ∨ Before b y x := ⟨fun _ _ h => h.symm⟩
  rcases hpairs.forall hf hp hne with hbefore | hbefore
  · left
    have hap := hs.apart hf hp hne
    unfold Apart at hap
    unfold Before at hbefore
    omega
  · right
    unfold Before at hbefore
    omega

/-- Memory that no block of the list covers is outside their headers. -/
theorem FreeList.header_outside {f x : Nat} (hl : FreeList base h nodes) (hf : f ∈ nodes)
    (hbase : x < base ∨ base + 8 ≤ x) (hx : coverage (nodes.map (span h.mem)) x = 0) :
    x < f ∨ f + 8 ≤ x := by
  rcases hl.behind f hf with rfl | ⟨_, hpos⟩
  · exact hbase
  · by_contra hin
    rw [not_or, Nat.not_lt, Nat.not_le] at hin
    have hend : x < f + 8 * Umalloc.size h.mem f := by omega
    have hcover : (span h.mem f).Contains x := ⟨hin.1, hend⟩
    have hcov := coverage_pos (List.mem_map_of_mem hf) hcover
    omega

/-- The block that `malloc` takes is behind `prevp`. -/
theorem FreeList.split_pred (hl : FreeList base h nodes) (hprev : prevp ∈ nodes)
    (hp : ptr h.mem prevp = p) (hpbase : p ≠ base) :
    ∃ A B, nodes = A ++ prevp :: p :: B := by
  have hpmem : p ∈ nodes := hp ▸ hl.ring.next_mem hprev
  obtain ⟨front, B, rfl⟩ := List.append_of_mem hpmem
  rcases List.eq_nil_or_concat front with rfl | ⟨A, z, rfl⟩
  · exact absurd (Option.some.inj hl.head) hpbase
  · have hz : ptr h.mem z = p := by
      have hring := hl.ring
      rw [List.concat_eq_append, List.append_assoc] at hring
      exact hring.next_eq
    have hzmem : z ∈ A.concat z ++ p :: B := by simp
    have heq : z = prevp := hl.ring.inj hl.nodup hzmem hprev (hz.trans hp.symm)
    subst heq
    exact ⟨A, B, by rw [List.concat_eq_append, List.append_assoc]; rfl⟩

/-- The block fits exactly. -/
theorem FreeList.takeAll (hl : FreeList base h (A ++ prevp :: p :: B))
    (hall : size h.mem p = nu) :
    Taken base h (A ++ prevp :: p :: B) [] nu
      { mem := setPtr h.mem prevp (ptr h.mem p), freep := prevp } (A ++ prevp :: B) p := by
  have hnodup := hl.nodup
  have hprevmem : prevp ∈ A ++ prevp :: p :: B := by simp
  have hpmem : p ∈ A ++ prevp :: p :: B := by simp
  have hne : p ≠ prevp := by
    rintro rfl
    rw [List.nodup_append, List.nodup_cons] at hnodup
    exact hnodup.2.1.1 List.mem_cons_self
  have hother : ∀ f ∈ B ++ A, f ∈ A ++ prevp :: p :: B ∧ f ≠ prevp := by
    intro f hf
    constructor
    · rw [List.mem_append] at hf
      rw [List.mem_append, List.mem_cons, List.mem_cons]
      tauto
    · rintro rfl
      rw [List.nodup_middle, List.nodup_cons, List.mem_append, List.mem_cons] at hnodup
      rw [List.mem_append] at hf
      exact hnodup.1 (hf.symm.imp_right .inr)
  have hptr : ∀ f ∈ B ++ A, ptr (setPtr h.mem prevp (ptr h.mem p)) f = ptr h.mem f :=
    fun f hf => ptr_setPtr_ne (hl.apart (hother f hf).1 hprevmem (hother f hf).2)
  have hsize : ∀ f ∈ A ++ prevp :: p :: B,
      size (setPtr h.mem prevp (ptr h.mem p)) f = size h.mem f := by
    intro f hf
    by_cases hfp : f = prevp
    · rw [hfp, size_setPtr_self]
    · exact size_setPtr_ne (hl.apart hf hprevmem hfp)
  have hsame : SameSizes h.mem (setPtr h.mem prevp (ptr h.mem p)) (A ++ prevp :: B) := by
    intro f hf
    apply hsize
    rw [List.mem_append, List.mem_cons] at hf
    rw [List.mem_append, List.mem_cons, List.mem_cons]
    tauto
  have hring := ring_append_comm.mp hl.ring
  rw [List.cons_append, List.cons_append] at hring
  refine ⟨⟨hl.toShape.remove.congr hsame, by simp, ?_⟩, (hsize p hpmem).trans hall, ?_, ?_⟩
  · rw [ring_append_comm, List.cons_append]
    exact hring.remove (ptr_setPtr_self (ptr_lt _ _)) hptr
  · intro x hbase hx
    exact setPtr_of_outside (hl.header_outside hprevmem hbase hx)
  · intro x
    have hspan : span (setPtr h.mem prevp (ptr h.mem p)) p = span h.mem p := by
      unfold span
      rw [hsize p hpmem]
    show coverage (span (setPtr h.mem prevp (ptr h.mem p)) p ::
      (A ++ prevp :: B).map (span (setPtr h.mem prevp (ptr h.mem p)))) x = _
    rw [hsame.span, hspan, List.nil_append]
    apply coverage_perm
    rw [List.map_append, List.map_append, List.map_cons, List.map_cons, List.map_cons]
    exact List.perm_middle.symm.trans (List.Perm.append_left _ (List.Perm.swap _ _ _))

/-- The tail of the block is taken. -/
theorem FreeList.takeTail (hl : FreeList base h (A ++ p :: B)) (hpbase : p ≠ base)
    (hprev : prevp ∈ A ++ p :: B) (hnu : 0 < nu) (hlt : nu < size h.mem p)
    (hq : q = p + 8 * (size h.mem p - nu)) :
    Taken base h (A ++ p :: B) [] nu
      { mem := setSize (setSize h.mem p (size h.mem p - nu)) q nu, freep := prevp }
      (A ++ p :: B) q := by
  have hpmem : p ∈ A ++ p :: B := by simp
  have hsizelt := size_lt h.mem p
  have hnodup := hl.nodup
  -- the new header is inside the block `p`, behind its header
  have hqout : ∀ f ∈ A ++ p :: B, Apart f q := by
    intro f hf
    unfold Apart
    by_cases hfp : f = p
    · omega
    · rcases hl.toShape.outside hpmem hf hfp with hside | hside
      · omega
      · omega
  have hother : ∀ f ∈ B ++ A, f ∈ A ++ p :: B ∧ f ≠ p := by
    intro f hf
    constructor
    · rw [List.mem_append] at hf
      rw [List.mem_append, List.mem_cons]
      tauto
    · rintro rfl
      rw [List.nodup_middle, List.nodup_cons, List.mem_append] at hnodup
      rw [List.mem_append] at hf
      exact hnodup.1 hf.symm
  have hptr : ∀ f ∈ A ++ p :: B,
      ptr (setSize (setSize h.mem p (size h.mem p - nu)) q nu) f = ptr h.mem f := by
    intro f hf
    rw [ptr_setSize_ne (hqout f hf)]
    by_cases hfp : f = p
    · rw [hfp, ptr_setSize_self]
    · exact ptr_setSize_ne (hl.apart hf hpmem hfp)
  have hsize : ∀ f ∈ B ++ A,
      size (setSize (setSize h.mem p (size h.mem p - nu)) q nu) f = size h.mem f := by
    intro f hf
    rw [size_setSize_ne (hqout f (hother f hf).1)]
    exact size_setSize_ne (hl.apart (hother f hf).1 hpmem (hother f hf).2)
  have hpsize : size (setSize (setSize h.mem p (size h.mem p - nu)) q nu) p =
      size h.mem p - nu := by
    rw [size_setSize_ne (hqout p hpmem), size_setSize_self (by omega)]
  have hqsize : size (setSize (setSize h.mem p (size h.mem p - nu)) q nu) q = nu :=
    size_setSize_self (by omega)
  have hA : SameSizes h.mem (setSize (setSize h.mem p (size h.mem p - nu)) q nu) A :=
    fun f hf => hsize f (List.mem_append_right _ hf)
  have hB : SameSizes h.mem (setSize (setSize h.mem p (size h.mem p - nu)) q nu) B :=
    fun f hf => hsize f (List.mem_append_left _ hf)
  have hbelow := hl.below p hpmem
  refine ⟨⟨?_, hprev, hl.ring.congr hptr⟩, hqsize, ?_, ?_⟩
  · apply hl.toShape.resize hA hB hpbase
    · show 0 < size (setSize (setSize h.mem p (size h.mem p - nu)) q nu) p
      omega
    · show p + 8 * size (setSize (setSize h.mem p (size h.mem p - nu)) q nu) p ≤ KERNBASE
      omega
    · intro y hy
      have hasc := hl.ascending
      rw [List.pairwise_append, List.pairwise_cons] at hasc
      have hbefore := hasc.2.1.1 y hy
      unfold Before at hbefore ⊢
      show p + 8 * size (setSize (setSize h.mem p (size h.mem p - nu)) q nu) p < y
      omega
  · intro x hbase hx
    have hxp := hl.header_outside hpmem hbase hx
    have hxq : x < q ∨ q + 8 ≤ x := by
      by_contra hin
      have hin' : p ≤ x ∧ x < p + 8 * size h.mem p := by omega
      have hcover : (span h.mem p).Contains x := hin'
      have hcov := coverage_pos (List.mem_map_of_mem (f := span h.mem) hpmem) hcover
      rw [List.nil_append] at hx
      omega
    exact (setSize_of_outside hxq).trans (setSize_of_outside hxp)
  · intro x
    have hspanq : span (setSize (setSize h.mem p (size h.mem p - nu)) q nu) q =
        ⟨q, p + 8 * size h.mem p⟩ := by
      unfold span
      rw [hqsize]
      congr 1
      omega
    have hspanp : span (setSize (setSize h.mem p (size h.mem p - nu)) q nu) p = ⟨p, q⟩ := by
      unfold span
      rw [hpsize, hq]
    have hwhole : span h.mem p = ⟨p, p + 8 * size h.mem p⟩ := rfl
    show coverage (span (setSize (setSize h.mem p (size h.mem p - nu)) q nu) q ::
      (A ++ p :: B).map (span (setSize (setSize h.mem p (size h.mem p - nu)) q nu))) x = _
    rw [List.map_append, List.map_cons, List.map_append, List.map_cons, hA.span, hB.span, hspanq,
      hspanp, hwhole, List.nil_append, coverage_perm List.perm_middle x,
      coverage_cut (show p ≤ q by omega) (show q ≤ p + 8 * size h.mem p by omega)]
    apply coverage_perm
    exact (List.perm_middle.cons _).trans (List.Perm.swap _ _ _)

/-- The rounds of the loop of `malloc` in which a block is found. -/
theorem FreeList.take (hl : FreeList base h nodes) (hprev : prevp ∈ nodes) (hnu : 0 < nu)
    (hfit : nu ≤ size h.mem (ptr h.mem prevp)) :
    ∃ h' nodes' q, Taken base h nodes [] nu h' nodes' q ∧ ∀ fuel answers calls,
      mallocLoop nu (fuel + 1) h prevp (ptr h.mem prevp) answers calls =
        some { heap := h', ret := q + 8, calls := calls } := by
  have hpbase : ptr h.mem prevp ≠ base := by
    intro heq
    rw [heq, hl.base_size] at hfit
    omega
  have hbelow := hl.below _ (hl.ring.next_mem hprev)
  unfold KERNBASE at hbelow
  obtain ⟨A, B, rfl⟩ := hl.split_pred hprev rfl hpbase
  by_cases hall : size h.mem (ptr h.mem prevp) = nu
  · refine ⟨_, _, _, hl.takeAll hall, fun fuel answers calls => ?_⟩
    rw [mallocLoop, if_pos hfit, if_pos hall, off_eq (by omega)]
  · rw [List.append_cons] at hl hprev ⊢
    refine ⟨_, _, _, hl.takeTail hpbase hprev hnu (by omega) rfl, fun fuel answers calls => ?_⟩
    have hnew : size (setSize h.mem (ptr h.mem prevp) (size h.mem (ptr h.mem prevp) - nu))
        (ptr h.mem prevp) = size h.mem (ptr h.mem prevp) - nu :=
      size_setSize_self (by omega)
    rw [mallocLoop, if_pos hfit, if_neg hall]
    simp only [hnew]
    rw [off_eq (p := ptr h.mem prevp) (by omega), off_eq (by omega)]

end Take

/-! ## The loop of `malloc` -/

section Loop

variable {base nu prevp : Nat} {h : Heap} {nodes : List Nat}
variable {answers : List (Option Nat)} {calls : List SbrkCall}

/-- The rounds in which nothing is found. -/
theorem mallocLoop_iterate {n fuel : Nat} (hgo : ∀ k, k < n →
      ¬ (nu ≤ size h.mem ((ptr h.mem)^[k] (ptr h.mem prevp)) ∨
        (ptr h.mem)^[k] (ptr h.mem prevp) = h.freep)) :
    mallocLoop nu (fuel + n) h prevp (ptr h.mem prevp) answers calls =
      mallocLoop nu fuel h ((ptr h.mem)^[n] prevp) ((ptr h.mem)^[n] (ptr h.mem prevp))
        answers calls := by
  induction n generalizing prevp with
  | zero => rfl
  | succ n ih =>
      have hfirst := hgo 0 (Nat.succ_pos n)
      rw [Function.iterate_zero_apply, not_or] at hfirst
      rw [← Nat.add_assoc, mallocLoop, if_neg hfirst.1, if_neg hfirst.2, ih,
        Function.iterate_succ_apply, Function.iterate_succ_apply]
      intro k hk
      have hlater := hgo (k + 1) (Nat.succ_lt_succ hk)
      rwa [Function.iterate_succ_apply] at hlater

/-- A whole round without a block, and `sbrk` fails. -/
theorem mallocLoop_fails {fuel : Nat} (hsize : size h.mem h.freep < nu)
    (hanswer : answers.headD none = none) :
    mallocLoop nu (fuel + 1) h prevp h.freep answers calls =
      some { heap := h, ret := 0, calls := calls ++ [sbrkCall nu] } := by
  rw [mallocLoop, if_neg (Nat.not_le.mpr hsize), if_pos rfl, hanswer]
  rfl

/-- A whole round without a block, and there is more memory. -/
theorem mallocLoop_grows {fuel p : Nat} {h' : Heap} (hsize : size h.mem h.freep < nu)
    (hcore : morecore fuel h nu (answers.headD none) = some (h', p)) (hp : p ≠ 0) :
    mallocLoop nu (fuel + 1) h prevp h.freep answers calls =
      mallocLoop nu fuel h' p (ptr h'.mem p) answers.tail (calls ++ [sbrkCall nu]) := by
  rw [mallocLoop, if_neg (Nat.not_le.mpr hsize), if_pos rfl, hcore]
  exact if_neg hp

/-- When all blocks are too small the walk comes around to `freep`. -/
theorem FreeList.turn (hl : FreeList base h nodes) (hsmall : ∀ f ∈ nodes, size h.mem f < nu) :
    ∃ n prevp, ∀ fuel answers calls,
      mallocLoop nu (fuel + n) h h.freep (ptr h.mem h.freep) answers calls =
        mallocLoop nu fuel h prevp h.freep answers calls := by
  have hx := hl.ring.next_mem hl.entered
  obtain ⟨n, _, hfreep, hgo⟩ := hl.ring.exists_first hx hl.entered (fun p => p = h.freep) rfl
  refine ⟨n, (ptr h.mem)^[n] h.freep, fun fuel answers calls => ?_⟩
  rw [mallocLoop_iterate, hfreep]
  intro k hk
  have hsize := hsmall _ (hl.ring.iterate_mem hx k)
  exact not_or.mpr ⟨Nat.not_le.mpr hsize, hgo k hk⟩

/-- When there is a block that is large enough, the walk finds one. -/
theorem FreeList.find (hl : FreeList base h nodes) (hnu : 0 < nu)
    (hlarge : ∃ f ∈ nodes, nu ≤ size h.mem f) :
    ∃ h' nodes' q, Taken base h nodes [] nu h' nodes' q ∧ ∀ answers calls,
      Ends (fun fuel => mallocLoop nu fuel h h.freep (ptr h.mem h.freep) answers calls)
        { heap := h', ret := q + 8, calls := calls } := by
  have hx := hl.ring.next_mem hl.entered
  obtain ⟨n, _, hfound, hgo⟩ := hl.ring.exists_first hx hl.entered
    (fun p => nu ≤ size h.mem p ∨ p = h.freep) (.inr rfl)
  have hcomm : (ptr h.mem)^[n] (ptr h.mem h.freep) =
      ptr h.mem ((ptr h.mem)^[n] h.freep) := by
    rw [← Function.iterate_succ_apply, Function.iterate_succ_apply']
  -- at `freep` the walk has been everywhere
  have hfit : nu ≤ size h.mem ((ptr h.mem)^[n] (ptr h.mem h.freep)) := by
    rcases hfound with hfit | hfreep
    · exact hfit
    · obtain ⟨f, hf, hfsize⟩ := hlarge
      obtain ⟨k, hk, rfl⟩ := hl.ring.exists_le hx hf (congrArg (ptr h.mem) hfreep)
      rcases Nat.lt_or_eq_of_le hk with hlt | rfl
      · exact absurd (.inl hfsize) (hgo k hlt)
      · exact hfsize
  rw [hcomm] at hfit
  obtain ⟨h', nodes', q, htaken, hloop⟩ := hl.take (hl.ring.iterate_mem hl.entered n) hnu hfit
  refine ⟨h', nodes', q, htaken, fun answers calls => ⟨n + 1, fun fuel hfuel => ?_⟩⟩
  obtain ⟨k, rfl⟩ := Nat.exists_eq_add_of_le hfuel
  show mallocLoop nu (n + 1 + k) h h.freep (ptr h.mem h.freep) answers calls = _
  rw [show n + 1 + k = k + 1 + n by omega, mallocLoop_iterate hgo, hcomm, hloop]

/-- The memory that the calls of `sbrk` have brought. -/
def obtained : List SbrkCall → List (Option Nat) → List Interval
  | c :: calls, some a :: answers => ⟨a, a + c.amount.toNat⟩ :: obtained calls answers
  | _ :: calls, none :: answers => obtained calls answers
  | _, _ => []

theorem obtained_none {c : SbrkCall} (hcalls : calls = [] ∨ calls = [c])
    (hnone : answers.headD none = none) : obtained calls answers = [] := by
  rcases hcalls with rfl | rfl
  · rfl
  · cases answers with
    | nil => rfl
    | cons answer answers =>
        obtain rfl : answer = none := hnone
        cases answers <;> rfl

/-- The product in `morecore` does not overflow, and is positive as an `int`. -/
theorem sbrkCall_amount (hsmall : nu < 268435456) :
    (sbrkCall nu).amount = 8 * morecoreUnits nu ∧ nu ≤ morecoreUnits nu ∧
      morecoreUnits nu < 268435456 := by
  have hunits : nu ≤ morecoreUnits nu ∧ morecoreUnits nu < 268435456 := by
    unfold morecoreUnits
    split <;> omega
  refine ⟨?_, hunits⟩
  unfold sbrkCall
  simp only
  rw [Nat.mod_eq_of_lt (by omega), if_pos (by omega)]
  omega

/-- Memory above all blocks of the list. -/
structure Region (base : Nat) (b : Bytes) (nodes : List Nat) (a units : Nat) : Prop where
  behind : base + 8 ≤ a
  below : a + 8 * units ≤ KERNBASE
  above : ∀ f ∈ nodes, f + 8 * size b f ≤ a

theorem FreeList.congr {b' : Bytes} (hl : FreeList base h nodes)
    (hsame : ∀ f ∈ nodes, ptr b' f = ptr h.mem f ∧ size b' f = size h.mem f) :
    FreeList base { h with mem := b' } nodes where
  toShape := hl.toShape.congr fun f hf => (hsame f hf).2
  entered := hl.entered
  ring := hl.ring.congr fun f hf => (hsame f hf).1

/-- `morecore` frees the new memory as one block. -/
theorem FreeList.grow {a units : Nat} (hl : FreeList base h nodes)
    (hr : Region base h.mem nodes a units) (hpos : 0 < units) :
    ∃ h' nodes', FreeList base h' nodes' ∧ (∃ f ∈ nodes', units ≤ size h'.mem f) ∧
      (∀ x, coverage (nodes'.map (span h'.mem)) x =
        coverage (⟨a, a + 8 * units⟩ :: nodes.map (span h.mem)) x) ∧
      (∀ x, (x < base ∨ base + 8 ≤ x) →
        coverage (⟨a, a + 8 * units⟩ :: nodes.map (span h.mem)) x = 0 → h'.mem x = h.mem x) ∧
      ∀ fuel, nodes.length ≤ fuel →
        Umalloc.free fuel { h with mem := setSize h.mem a units } (a + 8) = some h' := by
  have hbelow := hr.below
  unfold KERNBASE at hbelow
  have hapart : ∀ f ∈ nodes, Apart f a := by
    intro f hf
    left
    rcases hl.behind f hf with rfl | hfpos
    · exact hr.behind
    · have habove := hr.above f hf
      omega
  have hsame : SameSizes h.mem (setSize h.mem a units) nodes :=
    fun f hf => size_setSize_ne (hapart f hf)
  have hl' : FreeList base { h with mem := setSize h.mem a units } nodes :=
    hl.congr fun f hf => ⟨ptr_setSize_ne (hapart f hf), hsame f hf⟩
  have hsize : size (setSize h.mem a units) a = units := size_setSize_self (by omega)
  have hloose : Loose base (setSize h.mem a units) nodes a := by
    refine ⟨hr.behind, hsize.symm ▸ hpos, hsize.symm ▸ hr.below, fun f hf => .inl ?_⟩
    rw [hsame f hf]
    exact hr.above f hf
  have hspan : span (setSize h.mem a units) a = ⟨a, a + 8 * units⟩ := by
    unfold span
    rw [hsize]
  obtain ⟨h', nodes', hfreed, hfree⟩ := hl'.free hloose
  refine ⟨h', nodes', hfreed.list, ?_, fun x => ?_, fun x hbase hx => ?_, hfree⟩
  · obtain ⟨f, hf, hlarge⟩ := hfreed.large
    exact ⟨f, hf, hsize ▸ hlarge⟩
  · rw [hfreed.coverage, hspan, hsame.span]
  · rw [coverage_cons, Nat.add_eq_zero_iff] at hx
    have hxa : x < a ∨ a + 8 ≤ x := by
      by_contra hin
      have hcontains : (⟨a, a + 8 * units⟩ : Interval).Contains x :=
        ⟨by show a ≤ x; omega, by show x < a + 8 * units; omega⟩
      have hone := hx.2
      rw [if_pos hcontains] at hone
      omega
    rw [hfreed.outside x fun f hf => ?_]
    · exact setSize_of_outside hxa
    · rcases List.mem_cons.mp hf with rfl | hf
      · exact hxa
      · exact hl.header_outside hf hbase hx.1

/-- What `malloc` makes of the list, when it returns a block and when it does not. -/
theorem FreeList.mallocLoop (hl : FreeList base h nodes) (hbase : 0 < base) (hnu : 0 < nu)
    (hsmall : nu < 268435456) (hpromise : ∀ a, answers.headD none = some a →
      Region base h.mem nodes a (morecoreUnits nu)) :
    (∃ h' nodes' q calls, Taken base h nodes (obtained calls answers) nu h' nodes' q ∧
      (calls = [] ∨ calls = [sbrkCall nu]) ∧
      Ends (fun fuel => mallocLoop nu fuel h h.freep (ptr h.mem h.freep) answers [])
        { heap := h', ret := q + 8, calls := calls }) ∨
    ((∀ f ∈ nodes, size h.mem f < nu) ∧ answers.headD none = none ∧
      Ends (fun fuel => Umalloc.mallocLoop nu fuel h h.freep (ptr h.mem h.freep) answers [])
        { heap := h, ret := 0, calls := [sbrkCall nu] }) := by
  obtain ⟨hamount, hle, hlt⟩ := sbrkCall_amount hsmall
  by_cases hlarge : ∃ f ∈ nodes, nu ≤ size h.mem f
  · obtain ⟨h', nodes', q, htaken, hends⟩ := hl.find hnu hlarge
    exact .inl ⟨h', nodes', q, [], htaken, .inl rfl, hends answers []⟩
  have hnone : ∀ f ∈ nodes, size h.mem f < nu :=
    fun f hf => Nat.not_le.mp fun hfsize => hlarge ⟨f, hf, hfsize⟩
  obtain ⟨n, prevp, hturn⟩ := hl.turn hnone
  have hfreep := hnone h.freep hl.entered
  cases hanswer : answers.headD none with
  | none =>
      right
      refine ⟨hnone, rfl, n + 1, fun fuel hfuel => ?_⟩
      obtain ⟨k, rfl⟩ := Nat.exists_eq_add_of_le hfuel
      show Umalloc.mallocLoop nu (n + 1 + k) h h.freep (ptr h.mem h.freep) answers [] = _
      rw [show n + 1 + k = k + 1 + n by omega, hturn, mallocLoop_fails hfreep hanswer]
      rfl
  | some a =>
      left
      have hr := hpromise a hanswer
      obtain ⟨h₁, nodes₁, hl₁, ⟨f, hf, hlarge₁⟩, hcov₁, hout₁, hfree⟩ := hl.grow hr (by omega)
      obtain ⟨h', nodes', q, htaken, hends⟩ := hl₁.find hnu ⟨f, hf, Nat.le_trans hle hlarge₁⟩
      obtain ⟨rounds, hrounds⟩ := hends answers.tail [sbrkCall nu]
      have hgrown : obtained [sbrkCall nu] answers = [⟨a, a + 8 * morecoreUnits nu⟩] := by
        cases answers with
        | nil => cases hanswer
        | cons answer answers =>
            obtain rfl : answer = some a := hanswer
            unfold obtained
            rw [hamount]
            cases answers <;> rfl
      refine ⟨h', nodes', q, [sbrkCall nu], ⟨htaken.list, htaken.size, ?_, ?_⟩, .inr rfl,
        nodes.length + rounds + 1 + n, fun fuel hfuel => ?_⟩
      · intro x hxbase hx
        rw [hgrown] at hx
        rw [htaken.outside x hxbase ((hcov₁ x).trans hx), hout₁ x hxbase hx]
      · intro x
        rw [htaken.coverage, hgrown]
        exact hcov₁ x
      · obtain ⟨k, rfl⟩ := Nat.exists_eq_add_of_le hfuel
        have hbelow := hr.below
        unfold KERNBASE at hbelow
        have hcall : morecore (nodes.length + rounds + k) h nu (some a) =
            some (h₁, h₁.freep) := by
          unfold morecore
          simp only [off_eq (show a + 8 * 1 < 4294967296 by omega), Nat.mul_one,
            hfree _ (show nodes.length ≤ nodes.length + rounds + k by omega)]
        have hfreep₁ : h₁.freep ≠ 0 := by
          have hge := hl₁.base_le hl₁.entered
          omega
        show Umalloc.mallocLoop nu (nodes.length + rounds + 1 + n + k) h h.freep
          (ptr h.mem h.freep) answers [] = _
        rw [show nodes.length + rounds + 1 + n + k = nodes.length + rounds + k + 1 + n by omega,
          hturn, mallocLoop_grows hfreep (hanswer ▸ hcall) hfreep₁]
        exact hrounds _ (by omega)

end Loop

/-! ## The program and its heap -/

/-- Where the variable `base` is, and where the memory of `sbrk` begins. -/
structure Layout where
  base : Nat
  start : Nat
  base_pos : 0 < base
  base_below : base + 8 ≤ start
  start_le : start ≤ KERNBASE

/-- A block that the program has: its header, and its size in units. -/
structure Block where
  addr : Nat
  units : Nat
deriving DecidableEq

namespace Block

def span (b : Block) : Interval := ⟨b.addr, b.addr + 8 * b.units⟩

/-- What `malloc` has returned. -/
def payload (b : Block) : Nat := b.addr + 8

theorem payload_sub (b : Block) : b.payload - 8 = b.addr := by
  unfold payload
  omega

/-- The bytes behind the header. -/
def room (b : Block) : Nat := 8 * (b.units - 1)

end Block

/-- The heap, the blocks of the program, and the memory that `sbrk` has returned. -/
structure State where
  heap : Heap
  live : List Block
  got : List Interval

inductive Act
  | malloc (nbytes : Nat) (answers : List (Option Nat)) (fuel : Nat)
  | free (ap fuel : Nat)
  | write (x : Nat) (v : UInt8)

namespace State

/-- `sbrk` returns -1, or fresh memory above all that it has returned before. -/
def Fresh (L : Layout) (s : State) (c : SbrkCall) : Option Nat → Prop
  | none => True
  | some a => 0 < c.amount →
      L.start ≤ a ∧ (∀ i ∈ s.got, i.hi ≤ a) ∧ a + c.amount.toNat ≤ KERNBASE

instance (L : Layout) (s : State) (c : SbrkCall) : ∀ answer, Decidable (s.Fresh L c answer)
  | none => isTrue trivial
  | some a => inferInstanceAs (Decidable (0 < c.amount →
      L.start ≤ a ∧ (∀ i ∈ s.got, i.hi ≤ a) ∧ a + c.amount.toNat ≤ KERNBASE))

/-- The program writes into its blocks, and outside the heap. -/
def MayWrite (L : Layout) (s : State) (x : Nat) : Prop :=
  (∃ b ∈ s.live, b.payload ≤ x ∧ x < b.addr + 8 * b.units) ∨
    (x < L.base ∨ L.base + 8 ≤ x) ∧ ∀ i ∈ s.got, ¬ i.Contains x

instance (L : Layout) (s : State) (x : Nat) : Decidable (s.MayWrite L x) :=
  inferInstanceAs (Decidable (_ ∨ _))

/-- When `malloc` has returned. -/
def malloced (s : State) (answers : List (Option Nat)) (r : Result) : State :=
  { heap := r.heap
    live := if r.ret = 0 then s.live
      else { addr := r.ret - 8, units := size r.heap.mem (r.ret - 8) } :: s.live
    got := obtained r.calls answers ++ s.got }

/-- When the block has been freed. -/
def freed (s : State) (b : Block) (h : Heap) : State :=
  { s with heap := h, live := s.live.erase b }

/-- The requests are below `2^31 - 2^15` bytes. -/
def step (L : Layout) (s : State) : Act → Option State
  | .malloc nbytes answers fuel =>
      if nbytes < 2147450880 ∧ s.Fresh L (sbrkCall (nunits nbytes)) (answers.headD none) then
        (malloc L.base fuel s.heap nbytes answers).map (s.malloced answers)
      else none
  | .free ap fuel =>
      match s.live.find? fun b => b.payload = ap with
      | some b => (Umalloc.free fuel s.heap ap).map (s.freed b)
      | none => none
  | .write x v =>
      if s.MayWrite L x then
        some { s with heap := { s.heap with mem := Function.update s.heap.mem x v } }
      else none

end State

/-- A program that starts with the variables `freep` and `base` at zero. -/
def program (L : Layout) : System State Act where
  init s := s.heap.freep = 0 ∧ s.live = [] ∧ s.got = []
  step := State.step L

/-- The free list is in order, and the free and the live blocks tile the memory of `sbrk`. -/
structure Inv (L : Layout) (s : State) (nodes : List Nat) : Prop where
  list : FreeList L.base s.heap nodes
  header : ∀ b ∈ s.live, size s.heap.mem b.addr = b.units
  units_pos : ∀ b ∈ s.live, 0 < b.units
  tiles : ∀ x, coverage (s.live.map Block.span ++ nodes.map (span s.heap.mem)) x =
    coverage s.got x
  once : ∀ x, coverage s.got x ≤ 1
  got : ∀ i ∈ s.got, L.start ≤ i.lo ∧ i.hi ≤ KERNBASE

/-- The list has not been made yet, or is in order. -/
def Tidy (L : Layout) (s : State) : Prop :=
  (s.heap.freep = 0 ∧ s.live = [] ∧ s.got = []) ∨ ∃ nodes, Inv L s nodes

section Inv

variable {L : Layout} {s : State} {nodes nodes' : List Nat} {b b' : Block} {x : Nat}

theorem size_congr {m m' : Bytes} {p : Nat} (h : ∀ x, p ≤ x → x < p + 8 → m' x = m x) :
    size m' p = size m p := u32_congr fun i hi => h _ (by omega) (by omega)

theorem ptr_congr {m m' : Bytes} {p : Nat} (h : ∀ x, p ≤ x → x < p + 8 → m' x = m x) :
    ptr m' p = ptr m p := u32_congr fun i hi => h _ (by omega) (by omega)

theorem Inv.sum (h : Inv L s nodes) (x : Nat) :
    coverage (s.live.map Block.span) x + coverage (nodes.map (span s.heap.mem)) x =
      coverage s.got x := by
  rw [← coverage_append]
  exact h.tiles x

/-- A byte of a live block is in no free block, and was obtained. -/
theorem Inv.of_live (h : Inv L s nodes) (hb : b ∈ s.live) (hx : b.span.Contains x) :
    coverage (nodes.map (span s.heap.mem)) x = 0 ∧ coverage (s.live.map Block.span) x = 1 ∧
      L.start ≤ x ∧ x < KERNBASE := by
  have hlive := coverage_pos (List.mem_map_of_mem (f := Block.span) hb) hx
  have hsum := h.sum x
  have hone := h.once x
  obtain ⟨i, hi, hxi⟩ := exists_of_coverage_pos (show 0 < coverage s.got x by omega)
  have hgot := h.got i hi
  unfold Interval.Contains at hxi
  omega

theorem Inv.live_bounds (h : Inv L s nodes) (hb : b ∈ s.live) :
    L.start ≤ b.addr ∧ b.addr + 8 * b.units ≤ KERNBASE := by
  have hpos := h.units_pos b hb
  have hfirst := h.of_live hb (x := b.addr) ⟨Nat.le_refl _, by unfold Block.span; simp; omega⟩
  have hlast := h.of_live hb (x := b.addr + 8 * b.units - 1)
    ⟨by unfold Block.span; simp; omega, by unfold Block.span; simp; omega⟩
  omega

/-- Live blocks do not meet. -/
theorem Inv.disjoint (h : Inv L s nodes) (hb : b ∈ s.live) (hb' : b' ∈ s.live.erase b) :
    b.addr + 8 * b.units ≤ b'.addr ∨ b'.addr + 8 * b'.units ≤ b.addr := by
  have hsum : ∀ x, coverage [b.span] x + coverage ((s.live.erase b).map Block.span) x ≤ 1 := by
    intro x
    have hperm := coverage_perm ((List.perm_cons_erase hb).map Block.span) x
    have hone := h.once x
    have hall := h.sum x
    rw [List.map_cons, ← List.singleton_append, coverage_append] at hperm
    omega
  have hpos := h.units_pos b hb
  have hpos' := h.units_pos b' (List.mem_of_mem_erase hb')
  exact disjoint_of_coverage hsum List.mem_cons_self (List.mem_map_of_mem hb')
    (show b.addr < b.addr + 8 * b.units by omega)
    (show b'.addr < b'.addr + 8 * b'.units by omega)

/-- The header of a live block is where the allocator does not write. -/
theorem Inv.outside (h : Inv L s nodes) (hb : b ∈ s.live) (hx : b.span.Contains x) :
    (x < L.base ∨ L.base + 8 ≤ x) ∧ coverage (nodes.map (span s.heap.mem)) x = 0 := by
  have hlive := h.of_live hb hx
  have hbase := L.base_below
  exact ⟨.inr (by omega), hlive.1⟩

theorem Inv.header_contains (h : Inv L s nodes) (hb : b ∈ s.live) (hlo : b.addr ≤ x)
    (hhi : x < b.addr + 8) : b.span.Contains x := by
  have hpos := h.units_pos b hb
  exact ⟨hlo, show x < b.addr + 8 * b.units by omega⟩

/-- A block has been taken. -/
theorem Inv.taken {grown : List Interval} {nu q : Nat} {h' : Heap} (h : Inv L s nodes)
    (ht : Taken L.base s.heap nodes grown nu h' nodes' q) (hnu : 0 < nu)
    (honce : ∀ x, coverage (grown ++ s.got) x ≤ 1)
    (hgrown : ∀ i ∈ grown, L.start ≤ i.lo ∧ i.hi ≤ KERNBASE) :
    Inv L { heap := h', live := { addr := q, units := nu } :: s.live, got := grown ++ s.got }
      nodes' where
  list := ht.list
  header b hb := by
    rcases List.mem_cons.mp hb with rfl | hb
    · exact ht.size
    · rw [← h.header b hb]
      apply size_congr
      intro x hlo hhi
      have hcontains := h.header_contains hb hlo hhi
      obtain ⟨hbase, hnone⟩ := h.outside hb hcontains
      have hlive := coverage_pos (List.mem_map_of_mem (f := Block.span) hb) hcontains
      have hsum := h.sum x
      have hone := honce x
      rw [coverage_append] at hone
      apply ht.outside x hbase
      rw [coverage_append]
      omega
  units_pos b hb := by
    rcases List.mem_cons.mp hb with rfl | hb
    · exact hnu
    · exact h.units_pos b hb
  tiles x := by
    have hsum := h.sum x
    have hcov := ht.coverage x
    have hspan : span h'.mem q = Block.span { addr := q, units := nu } := by
      unfold span Block.span
      rw [ht.size]
    show coverage (Block.span _ :: (s.live.map Block.span ++ nodes'.map (span h'.mem))) x = _
    rw [hspan, coverage_cons, coverage_append] at hcov
    rw [coverage_cons, coverage_append, coverage_append]
    omega
  once := honce
  got i hi := by
    rcases List.mem_append.mp hi with hi | hi
    · exact hgrown i hi
    · exact h.got i hi

/-- A block that is to be freed is not in the list. -/
theorem Inv.loose (h : Inv L s nodes) (hb : b ∈ s.live) :
    Loose L.base s.heap.mem nodes b.addr := by
  have hpos := h.units_pos b hb
  have hsize := h.header b hb
  have hbounds := h.live_bounds hb
  have hbase := L.base_below
  refine ⟨by omega, by omega, by rw [hsize]; exact hbounds.2, fun f hf => ?_⟩
  rcases h.list.behind f hf with rfl | ⟨_, hfpos⟩
  · rw [h.list.base_size]
    omega
  · have hsum : ∀ x, coverage (s.live.map Block.span) x +
        coverage (nodes.map (span s.heap.mem)) x ≤ 1 := fun x => by
      rw [h.sum]
      exact h.once x
    rw [hsize]
    exact (disjoint_of_coverage hsum (List.mem_map_of_mem hb) (List.mem_map_of_mem hf)
      (show b.addr < b.addr + 8 * b.units by omega)
      (show f < f + 8 * size s.heap.mem f by omega)).symm

/-- A block has been freed. -/
theorem Inv.freed {h' : Heap} (h : Inv L s nodes) (hb : b ∈ s.live)
    (hf : Freed L.base s.heap nodes b.addr h' nodes') : Inv L (s.freed b h') nodes' where
  list := hf.list
  header c hc := by
    have hcmem : c ∈ s.live := List.mem_of_mem_erase hc
    have hmeet := h.disjoint hb hc
    have hpos := h.units_pos b hb
    rw [← h.header c hcmem]
    apply size_congr
    intro x hlo hhi
    have hcontains := h.header_contains hcmem hlo hhi
    obtain ⟨hbase, hnone⟩ := h.outside hcmem hcontains
    have hin : c.addr ≤ x ∧ x < c.addr + 8 * c.units := hcontains
    apply hf.outside
    intro f hfmem
    rcases List.mem_cons.mp hfmem with rfl | hfmem
    · omega
    · exact h.list.header_outside hfmem hbase hnone
  units_pos c hc := h.units_pos c (List.mem_of_mem_erase hc)
  tiles x := by
    have hsum := h.sum x
    have hcov := hf.coverage x
    have hperm := coverage_perm ((List.perm_cons_erase hb).map Block.span) x
    have hspan : span s.heap.mem b.addr = b.span := by
      unfold span Block.span
      rw [h.header b hb]
    rw [hspan, coverage_cons] at hcov
    rw [List.map_cons, coverage_cons] at hperm
    show coverage ((s.live.erase b).map Block.span ++ nodes'.map (span h'.mem)) x =
      coverage s.got x
    rw [coverage_append]
    omega
  once := h.once
  got := h.got

/-- The program has written. -/
theorem Inv.written {v : UInt8} (h : Inv L s nodes) (hx : s.MayWrite L x) :
    Inv L { s with heap := { s.heap with mem := Function.update s.heap.mem x v } } nodes := by
  have hfree : (x < L.base ∨ L.base + 8 ≤ x) ∧ coverage (nodes.map (span s.heap.mem)) x = 0 := by
    rcases hx with ⟨b, hb, hlo, hhi⟩ | ⟨hbase, hnone⟩
    · unfold Block.payload at hlo
      exact h.outside hb ⟨by unfold Block.span; simp; omega, hhi⟩
    · refine ⟨hbase, ?_⟩
      have hzero := coverage_eq_zero (l := s.got) hnone
      have hsum := h.sum x
      omega
  have hlive : ∀ b ∈ s.live, x < b.addr ∨ b.addr + 8 ≤ x := by
    intro c hc
    by_contra hin
    have hcontains := h.header_contains hc (x := x) (by omega) (by omega)
    rcases hx with ⟨b, hb, hlo, hhi⟩ | ⟨_, hnone⟩
    · unfold Block.payload at hlo
      by_cases hcb : c = b
      · subst hcb
        omega
      · have hmeet := h.disjoint hb ((List.mem_erase_of_ne hcb).mpr hc)
        have hpos := h.units_pos b hb
        have hpos' := h.units_pos c hc
        omega
    · have hcover := h.of_live hc hcontains
      have hzero := coverage_eq_zero (l := s.got) hnone
      have hsum := h.sum x
      omega
  have hheaders : ∀ f ∈ nodes,
      ptr (Function.update s.heap.mem x v) f = ptr s.heap.mem f ∧
        size (Function.update s.heap.mem x v) f = size s.heap.mem f := by
    intro f hf
    have hout := h.list.header_outside hf hfree.1 hfree.2
    have hsame : ∀ y, f ≤ y → y < f + 8 → Function.update s.heap.mem x v y = s.heap.mem y :=
      fun y _ _ => Function.update_of_ne (by omega) _ _
    exact ⟨ptr_congr hsame, size_congr hsame⟩
  refine ⟨h.list.congr hheaders, fun b hb => ?_, h.units_pos, fun y => ?_, h.once, h.got⟩
  · rw [← h.header b hb]
    have hout := hlive b hb
    exact size_congr fun y _ _ => Function.update_of_ne (by omega) _ _
  · have hsame : SameSizes s.heap.mem (Function.update s.heap.mem x v) nodes :=
      fun f hf => (hheaders f hf).2
    show coverage (s.live.map Block.span ++
      nodes.map (span (Function.update s.heap.mem x v))) y = coverage s.got y
    rw [hsame.span]
    exact h.tiles y

/-! ## Whole runs -/

theorem freeList_base {m : Bytes} (hpos : L.base < KERNBASE) :
    FreeList L.base { mem := setSize (setPtr m L.base L.base) L.base 0, freep := L.base }
      [L.base] := by
  unfold KERNBASE at hpos
  have hptr : ptr (setSize (setPtr m L.base L.base) L.base 0) L.base = L.base := by
    rw [ptr_setSize_self, ptr_setPtr_self (by omega)]
  have hsize : size (setSize (setPtr m L.base L.base) L.base 0) L.base = 0 :=
    size_setSize_self (by omega)
  have hbelow : L.base + 8 * size (setSize (setPtr m L.base L.base) L.base 0) L.base ≤
      KERNBASE := by
    unfold KERNBASE
    omega
  exact {
    head := rfl
    entered := List.mem_cons_self
    ring := by rw [ring_cons, hptr]; rfl
    ascending := List.pairwise_singleton _ _
    behind := fun f hf => .inl (List.mem_singleton.mp hf)
    base_size := hsize
    below := fun f hf => List.mem_singleton.mp hf ▸ hbelow }

/-- At the beginning of `malloc` the list is there. -/
theorem Tidy.enter (h : Tidy L s) :
    ∃ nodes, Inv L { s with heap := Umalloc.enter L.base s.heap } nodes := by
  have hpos := L.base_pos
  rcases h with ⟨hfreep, hlive, hgot⟩ | ⟨nodes, h⟩
  · refine ⟨[L.base], ?_, ?_, ?_, ?_, ?_, ?_⟩
    · rw [Umalloc.enter, if_pos hfreep]
      have hstart := L.start_le
      have hbelow := L.base_below
      exact freeList_base (by omega)
    · exact fun b hb => absurd (hlive ▸ hb) List.not_mem_nil
    · exact fun b hb => absurd (hlive ▸ hb) List.not_mem_nil
    · intro x
      simp only [hlive, hgot, List.map_nil, List.nil_append, List.map_cons, Umalloc.enter,
        if_pos hfreep]
      apply coverage_empty
      rw [size_setSize_self (by omega)]
      exact Nat.le_refl _
    · exact fun x => by simp [hgot, coverage_nil]
    · exact fun i hi => absurd (hgot ▸ hi) List.not_mem_nil
  · refine ⟨nodes, ?_⟩
    have hne : s.heap.freep ≠ 0 := by
      have hle := h.list.base_le h.list.entered
      omega
    rw [Umalloc.enter, if_neg hne]
    exact h

theorem nunits_pos (nbytes : Nat) : 0 < nunits nbytes := Nat.succ_pos _

/-- What `malloc` does when it returns: it fails and leaves the heap, or takes a block. -/
structure Answered (L : Layout) (s : State) (nbytes : Nat) (answers : List (Option Nat))
    (r : Result) : Prop where
  tidy : Tidy L (s.malloced answers r)
  calls : r.calls = [] ∨ r.calls = [sbrkCall (nunits nbytes)]
  block : r.ret = 0 ∧ answers.headD none = none ∨ ∃ b : Block,
    (s.malloced answers r).live = b :: s.live ∧ b.payload = r.ret ∧ b.units = nunits nbytes

theorem Inv.region {nu : Nat} {answers : List (Option Nat)} (h : Inv L s nodes)
    (hsmall : nu < 268435456) (hfresh : s.Fresh L (sbrkCall nu) (answers.headD none)) {a : Nat}
    (ha : answers.headD none = some a) :
    Region L.base s.heap.mem nodes a (morecoreUnits nu) ∧ L.start ≤ a ∧
      (∀ i ∈ s.got, i.hi ≤ a) ∧ a + (sbrkCall nu).amount.toNat ≤ KERNBASE := by
  obtain ⟨hamount, _, _⟩ := sbrkCall_amount hsmall
  have hpos : 0 < morecoreUnits nu := by
    unfold morecoreUnits
    split <;> omega
  have hbase := L.base_below
  rw [ha] at hfresh
  obtain ⟨hstart, hgot, hbelow⟩ := hfresh (by omega)
  refine ⟨⟨by omega, by omega, fun f hf => ?_⟩, hstart, hgot, hbelow⟩
  rcases h.list.behind f hf with rfl | ⟨_, hfpos⟩
  · rw [h.list.base_size]
    omega
  · have hlast : (span s.heap.mem f).Contains (f + 8 * size s.heap.mem f - 1) :=
      ⟨show f ≤ f + 8 * size s.heap.mem f - 1 by omega,
        show f + 8 * size s.heap.mem f - 1 < f + 8 * size s.heap.mem f by omega⟩
    have hcov := coverage_pos (List.mem_map_of_mem hf) hlast
    have hsum := h.sum (f + 8 * size s.heap.mem f - 1)
    obtain ⟨i, hi, _, hhi⟩ := exists_of_coverage_pos
      (show 0 < coverage s.got (f + 8 * size s.heap.mem f - 1) by omega)
    have hia := hgot i hi
    omega

/-- What the calls of `sbrk` bring is new. -/
theorem Inv.obtained_fresh {nu : Nat} {answers : List (Option Nat)} {calls : List SbrkCall}
    (h : Inv L s nodes) (hsmall : nu < 268435456)
    (hfresh : s.Fresh L (sbrkCall nu) (answers.headD none))
    (hcalls : calls = [] ∨ calls = [sbrkCall nu]) :
    (∀ x, coverage (obtained calls answers ++ s.got) x ≤ 1) ∧
      ∀ i ∈ obtained calls answers, L.start ≤ i.lo ∧ i.hi ≤ KERNBASE := by
  rcases hcalls with rfl | rfl
  · exact ⟨fun x => h.once x, fun i hi => absurd hi List.not_mem_nil⟩
  · cases answers with
    | nil => exact ⟨fun x => h.once x, fun i hi => absurd hi List.not_mem_nil⟩
    | cons answer answers =>
        have hnil : obtained [] answers = [] := by cases answers <;> rfl
        cases answer with
        | none =>
            rw [obtained, hnil]
            exact ⟨fun x => h.once x, fun i hi => absurd hi List.not_mem_nil⟩
        | some a =>
            obtain ⟨_, hstart, hgot, hbelow⟩ := h.region hsmall hfresh rfl
            rw [obtained, hnil]
            constructor
            · intro x
              have hone := h.once x
              rw [List.singleton_append, coverage_cons]
              by_cases hx : a ≤ x
              · have hzero : coverage s.got x = 0 := by
                  apply coverage_eq_zero
                  rintro i hi ⟨_, hhi⟩
                  have hia := hgot i hi
                  omega
                rw [hzero]
                split <;> omega
              · rw [if_neg fun hin => hx hin.1]
                exact hone
            · intro i hi
              obtain rfl := List.mem_singleton.mp hi
              exact ⟨hstart, hbelow⟩

/-- Each request ends, and leaves the heap in order. -/
theorem Tidy.malloc {nbytes : Nat} {answers : List (Option Nat)} (h : Tidy L s)
    (hsmall : nunits nbytes < 268435456)
    (hfresh : s.Fresh L (sbrkCall (nunits nbytes)) (answers.headD none)) :
    ∃ r, Ends (fun fuel => Umalloc.malloc L.base fuel s.heap nbytes answers) r ∧
      Answered L s nbytes answers r := by
  obtain ⟨nodes, hinv⟩ := h.enter
  have hnu := nunits_pos nbytes
  have hfresh' : State.Fresh L { s with heap := Umalloc.enter L.base s.heap }
      (sbrkCall (nunits nbytes)) (answers.headD none) := by
    cases hanswer : answers.headD none with
    | none => trivial
    | some a => rwa [hanswer] at hfresh
  rcases hinv.list.mallocLoop L.base_pos hnu hsmall
      (fun a ha => (hinv.region hsmall hfresh' ha).1) with
    ⟨h', nodes', q, calls, htaken, hcalls, hends⟩ | ⟨_, hnone, hends⟩
  · obtain ⟨honce, hgrown⟩ := hinv.obtained_fresh hsmall hfresh' hcalls
    have hnext := hinv.taken htaken hnu honce hgrown
    refine ⟨_, hends, ?_, hcalls, .inr ⟨{ addr := q, units := nunits nbytes }, ?_, rfl, rfl⟩⟩
    · right
      refine ⟨nodes', ?_⟩
      unfold State.malloced
      simp only [if_neg (show q + 8 ≠ 0 by omega), Nat.add_sub_cancel, htaken.size]
      exact hnext
    · unfold State.malloced
      simp only [if_neg (show q + 8 ≠ 0 by omega), Nat.add_sub_cancel, htaken.size]
  · refine ⟨_, hends, .inr ⟨nodes, ?_⟩, .inr rfl, .inl ⟨rfl, hnone⟩⟩
    unfold State.malloced
    rw [obtained_none (.inr rfl) hnone]
    exact hinv

/-- Each free of a live block ends, and leaves the heap in order. -/
theorem Tidy.free (h : Tidy L s) (hb : b ∈ s.live) :
    ∃ h', Ends (fun fuel => Umalloc.free fuel s.heap b.payload) h' ∧ Tidy L (s.freed b h') := by
  rcases h with ⟨_, hlive, _⟩ | ⟨nodes, h⟩
  · exact absurd (hlive ▸ hb) List.not_mem_nil
  · obtain ⟨h', nodes', hfreed, hends⟩ := h.list.free (h.loose hb)
    exact ⟨h', ⟨nodes.length, hends⟩, .inr ⟨nodes', h.freed hb hfreed⟩⟩

theorem nunits_lt {nbytes : Nat} (h : nbytes ≤ 2147483632) : nunits nbytes < 268435456 := by
  unfold nunits
  rw [Nat.mod_eq_of_lt (by omega)]
  omega

theorem Tidy.step {a : Act} {t : State} (h : Tidy L s) (hs : s.step L a = some t) :
    Tidy L t := by
  cases a with
  | malloc nbytes answers fuel =>
      simp only [State.step] at hs
      split at hs
      next hok =>
        obtain ⟨r, hends, hanswered⟩ := h.malloc (nunits_lt (by omega)) hok.2
        obtain ⟨r', hr', rfl⟩ := Option.map_eq_some_iff.mp hs
        rw [hends.eq_of_some (fun _ _ => mallocLoop_more) hr']
        exact hanswered.tidy
      next => cases hs
  | free ap fuel =>
      simp only [State.step] at hs
      split at hs
      next b hfind =>
        have hb := List.mem_of_find?_eq_some hfind
        have hap : b.payload = ap := by simpa using List.find?_some hfind
        obtain ⟨h', hends, htidy⟩ := h.free hb
        obtain ⟨h'', hr', rfl⟩ := Option.map_eq_some_iff.mp hs
        rw [← hap] at hr'
        rw [hends.eq_of_some (fun _ _ => free_more) hr']
        exact htidy
      next => cases hs
  | write x v =>
      simp only [State.step] at hs
      split at hs
      next hok =>
        obtain rfl := Option.some.inj hs
        rcases h with ⟨hfreep, hlive, hgot⟩ | ⟨nodes, h⟩
        · exact .inl ⟨hfreep, hlive, hgot⟩
        · exact .inr ⟨nodes, h.written hok⟩
      next => cases hs

theorem tidy_of_reachable (h : (program L).Reachable s) : Tidy L s :=
  System.ReachableWhen.invariant (fun _ hinit => .inl hinit)
    (fun _ _ _ hs _ hstep => hs.step hstep) h

theorem room_of_units {nbytes : Nat} {b : Block} (hunits : b.units = nunits nbytes)
    (hbytes : nbytes ≤ 2147483632) : nbytes ≤ b.room := by
  unfold Block.room
  rw [hunits]
  unfold nunits
  rw [Nat.mod_eq_of_lt (by omega)]
  omega

/-- The block that a request has got is apart from all others. -/
theorem Tidy.apart {t : State} (h : Tidy L t) (hlive : t.live = b :: s.live) (hb' : b' ∈ s.live) :
    b.addr + 8 * b.units ≤ b'.addr ∨ b'.addr + 8 * b'.units ≤ b.addr := by
  rcases h with ⟨_, hnil, _⟩ | ⟨nodes, h⟩
  · rw [hnil] at hlive
    cases hlive
  · refine h.disjoint (hlive ▸ List.mem_cons_self) ?_
    rw [hlive, List.erase_cons_head]
    exact hb'

end Inv

/-- In each state of each run the heap is in order, each request and each free of a live
block ends, and what a request returns is a new block, large enough and apart from the
others. -/
theorem heap_invariant (L : Layout) {s : State} (h : (program L).Reachable s) :
    Tidy L s ∧
      (∀ nbytes answers, nbytes < 2147450880 →
        s.Fresh L (sbrkCall (nunits nbytes)) (answers.headD none) →
        ∃ r, Ends (fun fuel => malloc L.base fuel s.heap nbytes answers) r ∧
          Tidy L (s.malloced answers r) ∧ r.calls.length ≤ 1 ∧
          (r.ret ≠ 0 → ∃ b : Block, (s.malloced answers r).live = b :: s.live ∧
            b.payload = r.ret ∧ nbytes ≤ b.room ∧
            ∀ b' ∈ s.live, b.addr + 8 * b.units ≤ b'.addr ∨ b'.addr + 8 * b'.units ≤ b.addr)) ∧
      ∀ b ∈ s.live, ∃ h', Ends (fun fuel => free fuel s.heap b.payload) h' ∧
        Tidy L (s.freed b h') := by
  have htidy := tidy_of_reachable h
  refine ⟨htidy, fun nbytes answers hbytes hfresh => ?_, fun b hb => htidy.free hb⟩
  obtain ⟨r, hends, hanswered⟩ := htidy.malloc (nunits_lt (by omega)) hfresh
  refine ⟨r, hends, hanswered.tidy, ?_, fun hret => ?_⟩
  · rcases hanswered.calls with hcalls | hcalls
    · simp [hcalls]
    · simp [hcalls]
  · rcases hanswered.block with ⟨hzero, _⟩ | ⟨b, hlive, hpayload, hunits⟩
    · exact absurd hzero hret
    · exact ⟨b, hlive, hpayload, room_of_units hunits (by omega),
        fun b' hb' => hanswered.tidy.apart hlive hb'⟩

/-- Two requests with one call of `sbrk`; then the first block is freed. -/
theorem heap_invariant_threeCalls :
    ∃ s : State, (program ⟨4096, 8192, by decide, by decide, by decide⟩).Reachable s ∧
      s.live = [⟨35840, 626⟩] ∧ Tidy ⟨4096, 8192, by decide, by decide, by decide⟩ s ∧
      (∃ r, Ends (fun fuel => malloc 4096 fuel s.heap 1000 []) r) ∧
      ∃ h', Ends (fun fuel => free fuel s.heap 35848) h' := by
  obtain ⟨s, hs, htest⟩ := System.exists_reachable_of_run
    (M := program ⟨4096, 8192, by decide, by decide, by decide⟩)
    (s := { heap := { mem := fun _ => 0, freep := 0 }, live := [], got := [] })
    (l := [.malloc 100 [some 8192] 5, .malloc 5000 [] 5, .free 40856 5])
    (p := fun s => decide (s.live = [⟨35840, 626⟩])) ⟨rfl, rfl, rfl⟩ (by decide)
  have hlive : s.live = [⟨35840, 626⟩] := of_decide_eq_true htest
  obtain ⟨htidy, hmalloc, hfree⟩ := heap_invariant _ hs
  obtain ⟨r, hr, _⟩ := hmalloc 1000 [] (by decide) trivial
  obtain ⟨h', hh', _⟩ := hfree ⟨35840, 626⟩ (hlive ▸ List.mem_cons_self)
  exact ⟨s, hs, hlive, htidy, ⟨r, hr⟩, ⟨h', hh'⟩⟩

end OsWork.Ports.Umalloc

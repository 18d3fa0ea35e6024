import OsWork.Verified.ByteWords
import OsWork.Verified.CircularList
import OsWork.Verified.Intervals
import Mathlib.Data.List.Pairwise

/-!
# `umalloc.c`

A block is a header of eight bytes, a pointer and the size of the block in units of the
header, and the rest of the block behind it.  The free blocks form a circular list in the
order of their addresses, through the header `base` that has no rest; `freep` points
anywhere into it.  `free` looks for the place of the block in the list and joins it with
its neighbours.

The memory is an array of bytes; pointers and sizes are 32-bit numbers.  The loops are
given a bound on their rounds, and `none` is a loop that is not done by then.

## Main results

* `freeLoop_eq` — the loop of `free` ends at the free block before the one that is freed.
* `FreeList.free` — what `free` does to the list.
-/

namespace OsWork.Ports.Umalloc

open OsWork.Verified.ByteWords OsWork.Verified.CircularList OsWork.Verified.Intervals

/-! ## The source -/

/-- `p->s.ptr` -/
def ptr (b : Bytes) (p : Nat) : Nat := u32 b p

/-- `p->s.size` -/
def size (b : Bytes) (p : Nat) : Nat := u32 b (p + 4)

def setPtr (b : Bytes) (p v : Nat) : Bytes := put32 b p v

def setSize (b : Bytes) (p v : Nat) : Bytes := put32 b (p + 4) v

/-- `p + k` for a pointer to a header. -/
def off (p k : Nat) : Nat := (p + 8 * k) % 4294967296

/-- The memory and the variable `freep`. -/
structure Heap where
  mem : Bytes
  freep : Nat

/-- The loop of `free` from `p` on: where it ends. -/
def freeLoop (b : Bytes) (bp : Nat) : Nat → Nat → Option Nat
  | 0, _ => none
  | n + 1, p =>
      if p < bp ∧ bp < ptr b p then some p
      else if ptr b p ≤ p ∧ (p < bp ∨ bp < ptr b p) then some p
      else freeLoop b bp n (ptr b p)

/-- The block `bp` takes its place before `p->s.ptr`, or is joined with it. -/
def joinNext (b : Bytes) (p bp : Nat) : Bytes :=
  if off bp (size b bp) = ptr b p then
    let b' := setSize b bp (size b bp + size b (ptr b p))
    setPtr b' bp (ptr b' (ptr b' p))
  else setPtr b bp (ptr b p)

/-- The block `bp` takes its place behind `p`, or is joined with it. -/
def joinPrev (b : Bytes) (p bp : Nat) : Bytes :=
  if off p (size b p) = bp then
    let b' := setSize b p (size b p + size b bp)
    setPtr b' p (ptr b' bp)
  else setPtr b p bp

/-- `free(ap)` -/
def free (fuel : Nat) (h : Heap) (ap : Nat) : Option Heap :=
  let bp := ap - 8
  match freeLoop h.mem bp fuel h.freep with
  | none => none
  | some p => some { mem := joinPrev (joinNext h.mem p bp) p bp, freep := p }

/-- `nu` in `morecore`, after the test. -/
def morecoreUnits (nu : Nat) : Nat := if nu < 4096 then 4096 else nu

/-- A call of `sbrk`: its argument, and the size that `morecore` records when it succeeds. -/
structure SbrkCall where
  amount : Int
  units : Nat

/-- `sbrk(nu * sizeof(Header))`: the product is a `uint`, the argument an `int`. -/
def sbrkCall (nu : Nat) : SbrkCall :=
  let product := morecoreUnits nu * 8 % 4294967296
  { amount := if product < 2147483648 then product else (product : Int) - 4294967296
    units := morecoreUnits nu }

/-- `morecore(nu)`, for what `sbrk` returns; `none` is -1. -/
def morecore (fuel : Nat) (h : Heap) (nu : Nat) : Option Nat → Option (Heap × Nat)
  | none => some (h, 0)
  | some hp =>
      match free fuel { h with mem := setSize h.mem hp (morecoreUnits nu) } (off hp 1) with
      | none => none
      | some h' => some (h', h'.freep)

/-- The heap when `malloc` returns, what it returns, and its calls of `sbrk`. -/
structure Result where
  heap : Heap
  ret : Nat
  calls : List SbrkCall

/-- The loop of `malloc`; `answers` is what the calls of `sbrk` return. -/
def mallocLoop (nunits : Nat) :
    Nat → Heap → Nat → Nat → List (Option Nat) → List SbrkCall → Option Result
  | 0, _, _, _, _, _ => none
  | n + 1, h, prevp, p, answers, calls =>
      if nunits ≤ size h.mem p then
        if size h.mem p = nunits then
          some { heap := { mem := setPtr h.mem prevp (ptr h.mem p), freep := prevp }
                 ret := off p 1
                 calls := calls }
        else
          let b := setSize h.mem p (size h.mem p - nunits)
          let q := off p (size b p)
          some { heap := { mem := setSize b q nunits, freep := prevp }
                 ret := off q 1
                 calls := calls }
      else if p = h.freep then
        match morecore n h nunits (answers.headD none) with
        | none => none
        | some (h', p') =>
            if p' = 0 then
              some { heap := h', ret := 0, calls := calls ++ [sbrkCall nunits] }
            else
              mallocLoop nunits n h' p' (ptr h'.mem p') answers.tail (calls ++ [sbrkCall nunits])
      else mallocLoop nunits n h p (ptr h.mem p) answers calls

/-- `(nbytes + sizeof(Header) - 1)/sizeof(Header) + 1` -/
def nunits (nbytes : Nat) : Nat := (nbytes + 7) % 4294967296 / 8 + 1

/-- The first call of `malloc` makes the list. -/
def enter (base : Nat) (h : Heap) : Heap :=
  if h.freep = 0 then { mem := setSize (setPtr h.mem base base) base 0, freep := base } else h

/-- `malloc(nbytes)`, with the variable `base` at the address `base`. -/
def malloc (base fuel : Nat) (h : Heap) (nbytes : Nat) (answers : List (Option Nat)) :
    Option Result :=
  let h := enter base h
  mallocLoop (nunits nbytes) fuel h h.freep (ptr h.mem h.freep) answers []

/-! ## Headers -/

section Headers

variable {b : Bytes} {p q v : Nat}

/-- Two headers do not overlap. -/
def Apart (p q : Nat) : Prop := p + 8 ≤ q ∨ q + 8 ≤ p

theorem Apart.symm (h : Apart p q) : Apart q p := Or.symm h

instance : Std.Symm Apart := ⟨fun _ _ h => h.symm⟩

theorem Apart.ne (h : Apart p q) : p ≠ q := by
  unfold Apart at h
  omega

theorem ptr_lt (b : Bytes) (p : Nat) : ptr b p < 4294967296 := u32_lt b p

theorem size_lt (b : Bytes) (p : Nat) : size b p < 4294967296 := u32_lt b (p + 4)

theorem ptr_setPtr_self (hv : v < 4294967296) : ptr (setPtr b p v) p = v := u32_put32_self hv

theorem ptr_setPtr_ne (h : Apart q p) : ptr (setPtr b p v) q = ptr b q := by
  unfold Apart at h
  exact u32_put32_ne (by omega)

theorem ptr_setSize_self : ptr (setSize b p v) p = ptr b p := u32_put32_ne (by omega)

theorem ptr_setSize_ne (h : Apart q p) : ptr (setSize b p v) q = ptr b q := by
  unfold Apart at h
  exact u32_put32_ne (by omega)

theorem size_setSize_self (hv : v < 4294967296) : size (setSize b p v) p = v := u32_put32_self hv

theorem size_setSize_ne (h : Apart q p) : size (setSize b p v) q = size b q := by
  unfold Apart at h
  exact u32_put32_ne (by omega)

theorem size_setPtr_self : size (setPtr b p v) p = size b p := u32_put32_ne (by omega)

theorem size_setPtr_ne (h : Apart q p) : size (setPtr b p v) q = size b q := by
  unfold Apart at h
  exact u32_put32_ne (by omega)

/-- A pointer that stays in the memory. -/
theorem off_eq {k : Nat} (h : p + 8 * k < 4294967296) : off p k = p + 8 * k := Nat.mod_eq_of_lt h

/-- A store to a header. -/
theorem setPtr_of_outside {x : Nat} (h : x < p ∨ p + 8 ≤ x) : setPtr b p v x = b x :=
  put32_of_ne (by omega)

theorem setSize_of_outside {x : Nat} (h : x < p ∨ p + 8 ≤ x) : setSize b p v x = b x :=
  put32_of_ne (by omega)

end Headers

/-! ## The free list -/

/-- User memory ends here. -/
def KERNBASE : Nat := 2147483648

/-- The block `x` ends before `y` and is not adjacent to it. -/
def Before (b : Bytes) (x y : Nat) : Prop := x + 8 * size b x < y

/-- The bytes of a block with its header. -/
def span (b : Bytes) (p : Nat) : Interval := ⟨p, p + 8 * size b p⟩

/-- The blocks of the list from `base` on ascend, and no two of them are adjacent. -/
structure Shape (base : Nat) (b : Bytes) (nodes : List Nat) : Prop where
  head : nodes.head? = some base
  ascending : nodes.Pairwise (Before b)
  behind : ∀ f ∈ nodes, f = base ∨ base + 8 ≤ f ∧ 0 < size b f
  base_size : size b base = 0
  below : ∀ f ∈ nodes, f + 8 * size b f ≤ KERNBASE

/-- The free list: it is circular, and `freep` is in it. -/
structure FreeList (base : Nat) (h : Heap) (nodes : List Nat) : Prop
    extends Shape base h.mem nodes where
  entered : h.freep ∈ nodes
  ring : Ring (ptr h.mem) nodes

/-- A block that is not in the list. -/
structure Loose (base : Nat) (b : Bytes) (nodes : List Nat) (bp : Nat) : Prop where
  behind : base + 8 ≤ bp
  size_pos : 0 < size b bp
  below : bp + 8 * size b bp ≤ KERNBASE
  disjoint : ∀ f ∈ nodes, f + 8 * size b f ≤ bp ∨ bp + 8 * size b bp ≤ f

section FreeList

variable {base bp q r : Nat} {b b' : Bytes} {h : Heap} {nodes A B : List Nat}

/-! ### Changes of the shape -/

theorem Shape.base_mem (hs : Shape base b nodes) : base ∈ nodes := List.mem_of_head? hs.head

/-- The sizes of the blocks of a list are the same. -/
def SameSizes (b b' : Bytes) (l : List Nat) : Prop := ∀ f ∈ l, size b' f = size b f

theorem SameSizes.span (hsame : SameSizes b b' nodes) : nodes.map (span b') = nodes.map (span b) :=
  List.map_congr_left fun f hf => by unfold Umalloc.span; rw [hsame f hf]

theorem Shape.congr (hs : Shape base b nodes) (hsame : SameSizes b b' nodes) :
    Shape base b' nodes where
  head := hs.head
  ascending := hs.ascending.imp_of_mem fun {x y} hx _ hbefore => by
    unfold Before at hbefore ⊢
    rw [hsame x hx]
    exact hbefore
  behind f hf := by
    rw [hsame f hf]
    exact hs.behind f hf
  base_size := by rw [hsame base hs.base_mem, hs.base_size]
  below f hf := by
    rw [hsame f hf]
    exact hs.below f hf

theorem head_append (A B C : List Nat) (q : Nat) :
    (A ++ q :: B).head? = (A ++ q :: C).head? := by
  cases A with
  | nil => rfl
  | cons a A => rfl

/-- A block is taken out. -/
theorem Shape.remove (hs : Shape base b (A ++ q :: r :: B)) : Shape base b (A ++ q :: B) := by
  have hsub : (A ++ q :: B).Sublist (A ++ q :: r :: B) :=
    (List.Sublist.refl A).append ((List.sublist_cons_self r B).cons_cons q)
  exact {
    head := (head_append A B (r :: B) q).trans hs.head
    ascending := hs.ascending.sublist hsub
    behind := fun f hf => hs.behind f (hsub.subset hf)
    base_size := hs.base_size
    below := fun f hf => hs.below f (hsub.subset hf) }

/-- A block comes behind `q`. -/
theorem Shape.insert (hs : Shape base b (A ++ q :: B)) (hbehind : base + 8 ≤ bp)
    (hpos : 0 < size b bp) (hbelow : bp + 8 * size b bp ≤ KERNBASE) (hq : Before b q bp)
    (hB : ∀ y ∈ B, Before b bp y) : Shape base b (A ++ q :: bp :: B) where
  head := (head_append A (bp :: B) B q).trans hs.head
  ascending := by
    have hasc := hs.ascending
    simp only [List.pairwise_append, List.pairwise_cons, List.mem_cons, forall_eq_or_imp] at hasc ⊢
    obtain ⟨hA, ⟨hqB, hBB⟩, hAB⟩ := hasc
    refine ⟨hA, ⟨⟨hq, hqB⟩, hB, hBB⟩, fun a ha => ⟨(hAB a ha).1, ?_, (hAB a ha).2⟩⟩
    have haq := (hAB a ha).1
    unfold Before at haq hq ⊢
    omega
  behind f hf := by
    rw [List.mem_append, List.mem_cons, List.mem_cons] at hf
    rcases hf with hf | rfl | rfl | hf
    · exact hs.behind f (List.mem_append_left _ hf)
    · exact hs.behind f (List.mem_append_right _ List.mem_cons_self)
    · exact .inr ⟨hbehind, hpos⟩
    · exact hs.behind f (List.mem_append_right _ (List.mem_cons_of_mem _ hf))
  base_size := hs.base_size
  below f hf := by
    rw [List.mem_append, List.mem_cons, List.mem_cons] at hf
    rcases hf with hf | rfl | rfl | hf
    · exact hs.below f (List.mem_append_left _ hf)
    · exact hs.below f (List.mem_append_right _ List.mem_cons_self)
    · exact hbelow
    · exact hs.below f (List.mem_append_right _ (List.mem_cons_of_mem _ hf))

/-- The block `q` changes its size. -/
theorem Shape.resize (hs : Shape base b (A ++ q :: B)) (hA : SameSizes b b' A)
    (hB : SameSizes b b' B) (hq : q ≠ base) (hpos : 0 < size b' q)
    (hbelow : q + 8 * size b' q ≤ KERNBASE) (hafter : ∀ y ∈ B, Before b' q y) :
    Shape base b' (A ++ q :: B) where
  head := hs.head
  ascending := by
    have hasc := hs.ascending
    simp only [List.pairwise_append, List.pairwise_cons] at hasc ⊢
    obtain ⟨hAA, ⟨_, hBB⟩, hAB⟩ := hasc
    have hsame : ∀ {l : List Nat} {x y : Nat}, SameSizes b b' l → x ∈ l → Before b x y →
        Before b' x y := fun hl hx hbefore => by
      unfold Before at hbefore ⊢
      rw [hl _ hx]
      exact hbefore
    refine ⟨hAA.imp_of_mem fun hx _ => hsame hA hx, ⟨hafter, ?_⟩,
      fun a ha y hy => hsame hA ha (hAB a ha y hy)⟩
    exact hBB.imp_of_mem fun hx _ => hsame hB hx
  behind f hf := by
    rw [List.mem_append, List.mem_cons] at hf
    have hold := hs.behind f (by rw [List.mem_append, List.mem_cons]; exact hf)
    rcases hf with hf | rfl | hf
    · rw [hA f hf]
      exact hold
    · exact .inr ⟨(hold.resolve_left hq).1, hpos⟩
    · rw [hB f hf]
      exact hold
  base_size := by
    have hmem := hs.base_mem
    rw [List.mem_append, List.mem_cons] at hmem
    rcases hmem with hf | hf | hf
    · rw [hA base hf, hs.base_size]
    · exact absurd hf.symm hq
    · rw [hB base hf, hs.base_size]
  below f hf := by
    rw [List.mem_append, List.mem_cons] at hf
    have hold := hs.below f (by rw [List.mem_append, List.mem_cons]; exact hf)
    rcases hf with hf | rfl | hf
    · rw [hA f hf]
      exact hold
    · exact hbelow
    · rw [hB f hf]
      exact hold

/-! ### The list -/

theorem FreeList.base_le {f : Nat} (hl : FreeList base h nodes) (hf : f ∈ nodes) : base ≤ f := by
  rcases hl.behind f hf with rfl | hbehind
  · exact Nat.le_refl f
  · omega

theorem Shape.apart {x y : Nat} (hl : Shape base b nodes) (hx : x ∈ nodes)
    (hy : y ∈ nodes) (hne : x ≠ y) : Apart x y := by
  have hpairs : nodes.Pairwise Apart := by
    refine hl.ascending.imp_of_mem fun {x y} hx hy hbefore => ?_
    unfold Before at hbefore
    refine .inl ?_
    rcases hl.behind x hx with rfl | hx
    · rcases hl.behind y hy with rfl | hy
      · omega
      · exact hy.1
    · omega
  exact hpairs.forall hx hy hne

theorem FreeList.nodup (hl : FreeList base h nodes) : nodes.Nodup :=
  hl.ascending.imp fun {x y} (hbefore : x + 8 * size h.mem x < y) => by omega

/-- A loose block overlaps no header of the list. -/
theorem FreeList.apart_loose {f : Nat} (hl : FreeList base h nodes)
    (hb : Loose base h.mem nodes bp) (hf : f ∈ nodes) : Apart f bp := by
  have hbehind := hb.behind
  have hpos := hb.size_pos
  unfold Apart
  rcases hl.behind f hf with rfl | hfpos
  · exact .inl hbehind
  · rcases hb.disjoint f hf with hdis | hdis
    · omega
    · omega

/-! ### The place of a block -/

/-- The block behind a free one, or `base` behind the last. -/
theorem FreeList.next_cases (hl : FreeList base h nodes) {p : Nat} (hp : p ∈ nodes) :
    (ptr h.mem p ∈ nodes ∧ p < ptr h.mem p ∧ ∀ y ∈ nodes, p < y → ptr h.mem p ≤ y) ∨
      (ptr h.mem p = base ∧ ∀ y ∈ nodes, y ≤ p) := by
  have hring := hl.ring
  have hhead := hl.head
  have hasc : nodes.Pairwise (· < ·) :=
    hl.ascending.imp fun {x y} (hbefore : x + 8 * size h.mem x < y) => by omega
  obtain ⟨front, back, rfl⟩ := List.append_of_mem hp
  have hfront : ∀ y ∈ front, y < p := fun y hy =>
    (List.pairwise_append.mp hasc).2.2 y hy p List.mem_cons_self
  have hback := List.pairwise_cons.mp (List.pairwise_append.mp hasc).2.1
  cases back with
  | nil =>
      right
      constructor
      · cases front with
        | nil =>
            obtain rfl := Option.some.inj hhead
            exact (List.cons.inj (ring_cons.mp hring)).1
        | cons c front =>
            obtain rfl := Option.some.inj hhead
            exact hring.next_last
      · intro y hy
        rcases List.mem_append.mp hy with hy | hy
        · exact Nat.le_of_lt (hfront y hy)
        · exact Nat.le_of_eq (List.mem_singleton.mp hy)
  | cons w back =>
      left
      rw [hring.next_eq]
      refine ⟨by simp, hback.1 w List.mem_cons_self, fun y hy hlt => ?_⟩
      rcases List.mem_append.mp hy with hy | hy
      · exact absurd (hfront y hy) (Nat.lt_asymm hlt)
      rcases List.mem_cons.mp hy with rfl | hy
      · exact absurd hlt (Nat.lt_irrefl y)
      rcases List.mem_cons.mp hy with rfl | hy
      · exact Nat.le_refl y
      · exact Nat.le_of_lt ((List.pairwise_cons.mp hback.2).1 y hy)

/-- In an ascending list there is one place for a new number. -/
theorem exists_place {l : List Nat} {x : Nat} (hl : l.Pairwise (· < ·)) (hx : x ∉ l)
    (hhead : ∀ a, l.head? = some a → a < x) (hne : l ≠ []) :
    ∃ A q B, l = A ++ q :: B ∧ q < x ∧ ∀ y ∈ B, x < y := by
  induction l with
  | nil => exact absurd rfl hne
  | cons a l ih =>
      have ha : a < x := hhead a rfl
      rw [List.pairwise_cons] at hl
      rw [List.mem_cons, not_or] at hx
      cases l with
      | nil => exact ⟨[], a, [], rfl, ha, fun y hy => absurd hy List.not_mem_nil⟩
      | cons c l =>
          by_cases hc : c < x
          · obtain ⟨A, q, B, heq, hq, hB⟩ := ih hl.2 hx.2
              (fun a ha' => Option.some.inj ha' ▸ hc) (List.cons_ne_nil _ _)
            exact ⟨a :: A, q, B, by rw [heq, List.cons_append], hq, hB⟩
          · have hcx : x < c := by
              have hne' : x ≠ c := fun heq => hx.2 (heq ▸ List.mem_cons_self)
              omega
            refine ⟨[], a, c :: l, rfl, ha, fun y hy => ?_⟩
            rcases List.mem_cons.mp hy with rfl | hy
            · exact hcx
            · exact Nat.lt_trans hcx ((List.pairwise_cons.mp hl.2).1 y hy)

theorem FreeList.exists_place (hl : FreeList base h nodes) (hb : Loose base h.mem nodes bp) :
    ∃ A q B, nodes = A ++ q :: B ∧ q < bp ∧ ∀ y ∈ B, bp < y := by
  apply Umalloc.exists_place
  · exact hl.ascending.imp fun {x y} (hbefore : x + 8 * size h.mem x < y) => by omega
  · exact fun hmem => (hl.apart_loose hb hmem).ne rfl
  · intro a ha
    have hbehind := hb.behind
    rw [hl.head] at ha
    obtain rfl := Option.some.inj ha
    omega
  · intro hnil
    have hhead := hl.head
    rw [hnil] at hhead
    cases hhead

/-- The loop of `free` ends at `p`. -/
def Stops (b : Bytes) (bp p : Nat) : Prop :=
  p < bp ∧ bp < ptr b p ∨ ptr b p ≤ p ∧ (p < bp ∨ bp < ptr b p)

/-- It ends before the place of the block, and nowhere else. -/
theorem FreeList.stops_iff (hl : FreeList base h nodes) (hb : Loose base h.mem nodes bp)
    (hq : q ∈ nodes) (hlt : q < bp) (hplace : ∀ y ∈ nodes, y ≤ q ∨ bp < y) {p : Nat}
    (hp : p ∈ nodes) : Stops h.mem bp p ↔ p = q := by
  have hbehind := hb.behind
  have hbase := hl.base_le hp
  unfold Stops
  rcases hl.next_cases hp with ⟨hmem, hnext, hleast⟩ | ⟨hnext, hgreatest⟩
  · constructor
    · intro hstop
      have hpbp : p < bp ∧ bp < ptr h.mem p := by omega
      have hpq := hplace p hp
      by_contra hne
      have hqnext := hleast q hq (by omega)
      omega
    · rintro rfl
      have hafter := hplace _ hmem
      omega
  · have hqp := hgreatest q hq
    have hpq := hplace p hp
    constructor
    · intro hstop
      omega
    · rintro rfl
      omega

theorem freeLoop_iterate {b : Bytes} : ∀ {n fuel p : Nat}, n < fuel →
    Stops b bp ((ptr b)^[n] p) → (∀ k, k < n → ¬ Stops b bp ((ptr b)^[k] p)) →
    freeLoop b bp fuel p = some ((ptr b)^[n] p) := by
  intro n
  induction n with
  | zero =>
      intro fuel p hfuel hstop _
      obtain ⟨fuel, rfl⟩ := Nat.exists_eq_succ_of_ne_zero (Nat.ne_of_gt hfuel)
      unfold freeLoop
      split
      · rfl
      · exact if_pos (hstop.resolve_left ‹_›)
  | succ n ih =>
      intro fuel p hfuel hstop hgo
      obtain ⟨fuel, rfl⟩ := Nat.exists_eq_succ_of_ne_zero (Nat.ne_of_gt (Nat.zero_lt_of_lt hfuel))
      have hfirst : ¬ Stops b bp p := hgo 0 (Nat.succ_pos n)
      rw [Function.iterate_succ_apply] at hstop ⊢
      unfold freeLoop
      rw [if_neg fun hin => hfirst (.inl hin), if_neg fun hin => hfirst (.inr hin)]
      refine ih (Nat.lt_of_succ_lt_succ hfuel) hstop fun k hk => ?_
      have hlater := hgo (k + 1) (Nat.succ_lt_succ hk)
      rwa [Function.iterate_succ_apply] at hlater

/-- The loop is done after less than one turn. -/
theorem FreeList.freeLoop_eq (hl : FreeList base h nodes) (hb : Loose base h.mem nodes bp)
    (hq : q ∈ nodes) (hlt : q < bp) (hplace : ∀ y ∈ nodes, y ≤ q ∨ bp < y) {fuel : Nat}
    (hfuel : nodes.length ≤ fuel) : freeLoop h.mem bp fuel h.freep = some q := by
  have hstops (n : Nat) := hl.stops_iff hb hq hlt hplace (hl.ring.iterate_mem hl.entered n)
  obtain ⟨n, hn, hstop, hgo⟩ := hl.ring.exists_first hl.entered hq (Stops h.mem bp)
    ((hl.stops_iff hb hq hlt hplace hq).mpr rfl)
  rw [freeLoop_iterate (Nat.lt_of_lt_of_le hn hfuel) hstop hgo, (hstops n).mp hstop]

/-! ### Joining -/

/-- The two writes to the header of `bp` or `p` leave the other headers. -/
theorem joinNext_ne {x : Nat} (h : Apart x bp) :
    ptr (joinNext b q bp) x = ptr b x ∧ size (joinNext b q bp) x = size b x := by
  unfold joinNext
  split
  · exact ⟨(ptr_setPtr_ne h).trans (ptr_setSize_ne h), (size_setPtr_ne h).trans (size_setSize_ne h)⟩
  · exact ⟨ptr_setPtr_ne h, size_setPtr_ne h⟩

theorem joinPrev_ne {x : Nat} (h : Apart x q) :
    ptr (joinPrev b q bp) x = ptr b x ∧ size (joinPrev b q bp) x = size b x := by
  unfold joinPrev
  split
  · exact ⟨(ptr_setPtr_ne h).trans (ptr_setSize_ne h), (size_setPtr_ne h).trans (size_setSize_ne h)⟩
  · exact ⟨ptr_setPtr_ne h, size_setPtr_ne h⟩

theorem joinNext_outside {x : Nat} (h : x < bp ∨ bp + 8 ≤ x) : joinNext b q bp x = b x := by
  unfold joinNext
  split
  · exact (setPtr_of_outside h).trans (setSize_of_outside h)
  · exact setPtr_of_outside h

theorem joinPrev_outside {x : Nat} (h : x < q ∨ q + 8 ≤ x) : joinPrev b q bp x = b x := by
  unfold joinPrev
  split
  · exact (setPtr_of_outside h).trans (setSize_of_outside h)
  · exact setPtr_of_outside h

theorem joinNext_joined (hadj : off bp (size b bp) = ptr b q) (hq : Apart q bp)
    (hr : Apart (ptr b q) bp) (hsum : size b bp + size b (ptr b q) < 4294967296) :
    ptr (joinNext b q bp) bp = ptr b (ptr b q) ∧
      size (joinNext b q bp) bp = size b bp + size b (ptr b q) := by
  unfold joinNext
  rw [if_pos hadj]
  constructor
  · rw [ptr_setPtr_self (ptr_lt _ _), ptr_setSize_ne hq, ptr_setSize_ne hr]
  · rw [size_setPtr_self, size_setSize_self hsum]

theorem joinNext_placed (hadj : off bp (size b bp) ≠ ptr b q) :
    ptr (joinNext b q bp) bp = ptr b q ∧ size (joinNext b q bp) bp = size b bp := by
  unfold joinNext
  rw [if_neg hadj]
  exact ⟨ptr_setPtr_self (ptr_lt _ _), size_setPtr_self⟩

theorem joinPrev_joined (hadj : off q (size b q) = bp) (hq : Apart bp q)
    (hsum : size b q + size b bp < 4294967296) :
    ptr (joinPrev b q bp) q = ptr b bp ∧
      size (joinPrev b q bp) q = size b q + size b bp := by
  unfold joinPrev
  rw [if_pos hadj]
  constructor
  · rw [ptr_setPtr_self (ptr_lt _ _), ptr_setSize_ne hq]
  · rw [size_setPtr_self, size_setSize_self hsum]

theorem joinPrev_placed (hadj : off q (size b q) ≠ bp) (hbp : bp < 4294967296) :
    ptr (joinPrev b q bp) q = bp ∧ size (joinPrev b q bp) q = size b q := by
  unfold joinPrev
  rw [if_neg hadj]
  exact ⟨ptr_setPtr_self hbp, size_setPtr_self⟩

/-- The list when the block `bp` has been linked to what is behind it, and not yet to `q`. -/
structure Opened (base : Nat) (b : Bytes) (A : List Nat) (q bp : Nat) (B : List Nat) : Prop where
  shape : Shape base b (A ++ q :: B)
  links : ptr b bp :: (B ++ A).map (ptr b) = B ++ A ++ [q]
  behind : base + 8 ≤ bp
  size_pos : 0 < size b bp
  below : bp + 8 * size b bp ≤ KERNBASE
  before : q + 8 * size b q ≤ bp
  after : ∀ y ∈ B, Before b bp y

/-- The links behind `q`, once around. -/
theorem FreeList.links (hl : FreeList base h (A ++ q :: B)) :
    ptr h.mem q :: (B ++ A).map (ptr h.mem) = B ++ A ++ [q] :=
  ring_cons.mp (ring_append_comm.mp hl.ring)

theorem map_ptr_congr {l : List Nat} (hsame : ∀ f ∈ l, ptr b' f = ptr b f) :
    l.map (ptr b') = l.map (ptr b) := List.map_congr_left hsame

theorem Loose.before (hb : Loose base b nodes bp) (hq : q ∈ nodes) (hlt : q < bp) :
    q + 8 * size b q ≤ bp := by
  rcases hb.disjoint q hq with hdis | hdis
  · exact hdis
  · have hpos := hb.size_pos
    omega

theorem Loose.after (hb : Loose base b nodes bp) (hr : r ∈ nodes) (hlt : bp < r) :
    bp + 8 * size b bp ≤ r := by
  rcases hb.disjoint r hr with hdis | hdis
  · omega
  · exact hdis

theorem Loose.off_eq (hb : Loose base b nodes bp) : off bp (size b bp) = bp + 8 * size b bp := by
  have hbelow := hb.below
  unfold KERNBASE at hbelow
  exact Umalloc.off_eq (by omega)

/-- What the first join makes of the list and of the memory that is not in use. -/
structure Joined (base : Nat) (b : Bytes) (A : List Nat) (q bp : Nat) (B : List Nat)
    (b' : Bytes) (B' : List Nat) : Prop where
  opened : Opened base b' A q bp B'
  subset : B' ⊆ B
  size_le : size b bp ≤ size b' bp
  coverage : ∀ x, coverage (span b' bp :: (A ++ q :: B').map (span b')) x =
    coverage (span b bp :: (A ++ q :: B).map (span b)) x

/-- The block is adjacent to the one behind it, and takes it in. -/
theorem FreeList.joined (hl : FreeList base h (A ++ q :: r :: B))
    (hb : Loose base h.mem (A ++ q :: r :: B) bp) (hq : q < bp)
    (hadj : bp + 8 * size h.mem bp = r) :
    Joined base h.mem A q bp (r :: B) (joinNext h.mem q bp) B := by
  have hapart : ∀ f ∈ A ++ q :: r :: B, Apart f bp := fun f hf => hl.apart_loose hb hf
  have hr : ptr h.mem q = r := hl.ring.next_eq
  have hqmem : q ∈ A ++ q :: r :: B := by simp
  have hrmem : r ∈ A ++ q :: r :: B := by simp
  have hsub : A ++ q :: B ⊆ A ++ q :: r :: B := by
    intro f hf
    rw [List.mem_append, List.mem_cons] at hf
    rw [List.mem_append, List.mem_cons, List.mem_cons]
    tauto
  have hrbelow := hl.below r hrmem
  have hpos := hb.size_pos
  have hheader := joinNext_joined (hb.off_eq.trans (hadj.trans hr.symm)) (hapart q hqmem)
    (hr ▸ hapart r hrmem) (by rw [hr]; unfold KERNBASE at hrbelow; omega)
  rw [hr] at hheader
  have hsame : SameSizes h.mem (joinNext h.mem q bp) (A ++ q :: B) :=
    fun f hf => (joinNext_ne (hapart f (hsub hf))).2
  have hrB : ∀ y ∈ B, Before h.mem r y := by
    have hasc := hl.ascending
    rw [List.pairwise_append, List.pairwise_cons, List.pairwise_cons] at hasc
    exact hasc.2.1.2.1
  refine ⟨⟨hl.toShape.remove.congr hsame, ?_, hb.behind, ?_, ?_, ?_, ?_⟩,
    List.subset_cons_self r B, ?_, ?_⟩
  · have hlinks := hl.links
    rw [hr, List.cons_append, List.map_cons] at hlinks
    rw [hheader.1, map_ptr_congr fun f hf => (joinNext_ne (hapart f (hsub (by
      rw [List.mem_append] at hf
      rw [List.mem_append, List.mem_cons]
      tauto)))).1]
    exact (List.cons.inj hlinks).2
  · omega
  · omega
  · rw [hsame q (by simp)]
    exact hb.before hqmem hq
  · intro y hy
    have hry := hrB y hy
    unfold Before at hry ⊢
    omega
  · omega
  · intro x
    have hspan : span (joinNext h.mem q bp) bp = ⟨bp, r + 8 * size h.mem r⟩ := by
      unfold span
      rw [hheader.2, ← hadj]
      congr 1
      omega
    have hfirst : span h.mem bp = ⟨bp, r⟩ := by
      unfold span
      rw [hadj]
    rw [hspan, hfirst, hsame.span,
      coverage_cut (show bp ≤ r by omega) (show r ≤ r + 8 * size h.mem r by omega)]
    apply coverage_perm
    rw [List.map_append, List.map_append, List.map_cons, List.map_cons, List.map_cons]
    exact (List.perm_middle.symm.trans (List.Perm.append_left _ (List.Perm.swap _ _ _))).cons _

/-- The block keeps to itself. -/
theorem FreeList.placed (hl : FreeList base h (A ++ q :: B))
    (hb : Loose base h.mem (A ++ q :: B) bp) (hq : q < bp)
    (hadj : off bp (size h.mem bp) ≠ ptr h.mem q)
    (hafter : ∀ y ∈ B, bp + 8 * size h.mem bp < y) :
    Joined base h.mem A q bp B (joinNext h.mem q bp) B := by
  have hapart : ∀ f ∈ A ++ q :: B, Apart f bp := fun f hf => hl.apart_loose hb hf
  have hsame : SameSizes h.mem (joinNext h.mem q bp) (A ++ q :: B) :=
    fun f hf => (joinNext_ne (hapart f hf)).2
  have hqmem : q ∈ A ++ q :: B := by simp
  have hheader := joinNext_placed hadj
  have hpos := hb.size_pos
  have hbelow := hb.below
  refine ⟨⟨hl.toShape.congr hsame, ?_, hb.behind, ?_, ?_, ?_, ?_⟩, List.Subset.refl B, ?_, ?_⟩
  · rw [hheader.1, map_ptr_congr fun f hf => (joinNext_ne (hapart f (by
      rw [List.mem_append] at hf
      rw [List.mem_append, List.mem_cons]
      tauto))).1]
    exact hl.links
  · omega
  · omega
  · rw [hsame q hqmem]
    exact hb.before hqmem hq
  · intro y hy
    unfold Before
    rw [hheader.2]
    exact hafter y hy
  · omega
  · intro x
    have hspan : span (joinNext h.mem q bp) bp = span h.mem bp := by
      unfold span
      rw [hheader.2]
    rw [hspan, hsame.span]

theorem FreeList.joinNext (hl : FreeList base h (A ++ q :: B))
    (hb : Loose base h.mem (A ++ q :: B) bp) (hq : q < bp) (hB : ∀ y ∈ B, bp < y) :
    ∃ B', Joined base h.mem A q bp B (Umalloc.joinNext h.mem q bp) B' := by
  have hbehind := hb.behind
  cases B with
  | nil =>
      -- the last block of the list links to `base`, which is below all others
      have hwrap : ptr h.mem q = base := by
        have hlinks := hl.links
        cases A with
        | nil | cons a A => exact (List.cons.inj hlinks).1.trans (Option.some.inj hl.head)
      refine ⟨[], hl.placed hb hq ?_ fun y hy => absurd hy List.not_mem_nil⟩
      rw [hb.off_eq, hwrap]
      omega
  | cons r B =>
      have hr : ptr h.mem q = r := hl.ring.next_eq
      by_cases hadj : bp + 8 * size h.mem bp = r
      · exact ⟨B, hl.joined hb hq hadj⟩
      · refine ⟨r :: B, hl.placed hb hq ?_ fun y hy => ?_⟩
        · rw [hb.off_eq, hr]
          exact hadj
        · have hrafter := hb.after (r := r) (by simp) (hB r List.mem_cons_self)
          rcases List.mem_cons.mp hy with rfl | hy
          · omega
          · have hasc := hl.ascending
            rw [List.pairwise_append, List.pairwise_cons, List.pairwise_cons] at hasc
            have hry := hasc.2.1.2.1 y hy
            unfold Before at hry
            omega

theorem Opened.off_eq (ho : Opened base b A q bp B) : off q (size b q) = q + 8 * size b q := by
  have hbelow := ho.shape.below q (by simp)
  unfold KERNBASE at hbelow
  exact Umalloc.off_eq (by omega)

/-- All headers of the list and that of the block are apart from the one of `q`. -/
theorem Opened.apart (ho : Opened base b A q bp B) {f : Nat} (hf : f ∈ bp :: (B ++ A)) :
    Apart f q := by
  have hq : q ∈ A ++ q :: B := by simp
  have hnodup : (A ++ q :: B).Nodup :=
    ho.shape.ascending.imp fun {x y} (hbefore : x + 8 * size b x < y) => by omega
  rcases List.mem_cons.mp hf with rfl | hf
  · right
    rcases ho.shape.behind q hq with rfl | hpos
    · exact ho.behind
    · have hbefore := ho.before
      omega
  · have hmem : f ∈ A ++ q :: B := by
      rw [List.mem_append] at hf
      rw [List.mem_append, List.mem_cons]
      tauto
    apply ho.shape.apart hmem hq
    rintro rfl
    rw [List.nodup_middle, List.nodup_cons, List.mem_append] at hnodup
    exact hnodup.1 (List.mem_append.mp hf).symm

/-- What the second join makes of the list. -/
structure Closed (base : Nat) (b : Bytes) (A : List Nat) (q bp : Nat) (B : List Nat)
    (b' : Bytes) (nodes : List Nat) : Prop where
  list : FreeList base { mem := b', freep := q } nodes
  subset : nodes ⊆ bp :: (A ++ q :: B)
  large : ∃ f ∈ nodes, size b bp ≤ size b' f
  coverage : ∀ x, coverage (nodes.map (span b')) x =
    coverage (span b bp :: (A ++ q :: B).map (span b)) x

/-- The block is adjacent to `q`, which takes it in. -/
theorem Opened.joined (ho : Opened base b A q bp B) (hadj : q + 8 * size b q = bp) :
    Closed base b A q bp B (joinPrev b q bp) (A ++ q :: B) := by
  have hother : ∀ f ∈ B ++ A, ptr (joinPrev b q bp) f = ptr b f ∧
      size (joinPrev b q bp) f = size b f :=
    fun f hf => joinPrev_ne (ho.apart (List.mem_cons_of_mem _ hf))
  have hbelow := ho.below
  have hheader := joinPrev_joined (ho.off_eq.trans hadj) (ho.apart List.mem_cons_self)
    (by unfold KERNBASE at hbelow; omega)
  have hA : SameSizes b (joinPrev b q bp) A := fun f hf => (hother f (by simp [hf])).2
  have hB : SameSizes b (joinPrev b q bp) B := fun f hf => (hother f (by simp [hf])).2
  have hbehind := ho.behind
  have hpos := ho.size_pos
  have hqbase : q ≠ base := by
    rintro rfl
    have hzero := ho.shape.base_size
    omega
  refine ⟨⟨?_, ?_, ?_⟩, List.subset_cons_self _ _, ⟨q, by simp, ?_⟩, ?_⟩
  · apply ho.shape.resize hA hB hqbase
    · omega
    · omega
    · intro y hy
      have hafter := ho.after y hy
      unfold Before at hafter ⊢
      omega
  · simp
  · rw [ring_append_comm, List.cons_append, ring_cons]
    have hlinks := ho.links
    rw [hheader.1, map_ptr_congr fun f hf => (hother f hf).1]
    exact hlinks
  · omega
  · intro x
    have hspan : span (joinPrev b q bp) q = ⟨q, bp + 8 * size b bp⟩ := by
      unfold span
      rw [hheader.2, ← hadj]
      congr 1
      omega
    have hfirst : span b q = ⟨q, bp⟩ := by
      unfold span
      rw [hadj]
    rw [List.map_append, List.map_cons, List.map_append, List.map_cons, hspan, hfirst, hA.span,
      hB.span, coverage_perm List.perm_middle,
      coverage_cut (show q ≤ bp by omega) (show bp ≤ bp + 8 * size b bp by omega)]
    apply coverage_perm
    exact (List.Perm.swap _ _ _).trans (List.perm_middle.symm.cons _)

/-- The block comes behind `q`. -/
theorem Opened.placed (ho : Opened base b A q bp B) (hadj : q + 8 * size b q ≠ bp) :
    Closed base b A q bp B (joinPrev b q bp) (A ++ q :: bp :: B) := by
  have hother : ∀ f ∈ bp :: (B ++ A), ptr (joinPrev b q bp) f = ptr b f ∧
      size (joinPrev b q bp) f = size b f := fun f hf => joinPrev_ne (ho.apart hf)
  have hbelow := ho.below
  have hheader := joinPrev_placed (ho.off_eq ▸ hadj) (by unfold KERNBASE at hbelow; omega)
  have hsame : SameSizes b (joinPrev b q bp) (A ++ q :: bp :: B) := by
    intro f hf
    rw [List.mem_append, List.mem_cons, List.mem_cons] at hf
    rcases hf with hf | rfl | rfl | hf
    · exact (hother f (by simp [hf])).2
    · exact hheader.2
    · exact (hother f List.mem_cons_self).2
    · exact (hother f (by simp [hf])).2
  have hbefore : Before b q bp := by
    have hle := ho.before
    unfold Before
    omega
  refine ⟨⟨?_, ?_, ?_⟩, ?_, ⟨bp, by simp, ?_⟩, ?_⟩
  · exact (ho.shape.insert ho.behind ho.size_pos ho.below hbefore ho.after).congr hsame
  · simp
  · rw [ring_append_comm, List.cons_append, ring_cons]
    have hlinks := ho.links
    rw [List.cons_append, List.map_cons, hheader.1, (hother bp List.mem_cons_self).1,
      map_ptr_congr fun f hf => (hother f (List.mem_cons_of_mem _ hf)).1, hlinks]
    rfl
  · intro f hf
    rw [List.mem_append, List.mem_cons, List.mem_cons] at hf
    rcases hf with hf | rfl | rfl | hf
    · simp [hf]
    · simp
    · simp
    · simp [hf]
  · rw [(hother bp List.mem_cons_self).2]
  · intro x
    rw [hsame.span]
    apply coverage_perm
    rw [List.map_append, List.map_append, List.map_cons, List.map_cons, List.map_cons]
    exact (List.Perm.append_left _ (List.Perm.swap _ _ _)).trans List.perm_middle

theorem Opened.joinPrev (ho : Opened base b A q bp B) :
    ∃ nodes, Closed base b A q bp B (Umalloc.joinPrev b q bp) nodes := by
  by_cases hadj : q + 8 * size b q = bp
  · exact ⟨_, ho.joined hadj⟩
  · exact ⟨_, ho.placed hadj⟩

/-! ### `free` -/

/-- What `free` makes of the list: the block is in it, alone or joined with its neighbours. -/
structure Freed (base : Nat) (h : Heap) (nodes : List Nat) (bp : Nat) (h' : Heap)
    (nodes' : List Nat) : Prop where
  list : FreeList base h' nodes'
  large : ∃ f ∈ nodes', size h.mem bp ≤ size h'.mem f
  coverage : ∀ x, coverage (nodes'.map (span h'.mem)) x =
    coverage (span h.mem bp :: nodes.map (span h.mem)) x
  /-- Only headers of free blocks are written. -/
  outside : ∀ x, (∀ f ∈ bp :: nodes, x < f ∨ f + 8 ≤ x) → h'.mem x = h.mem x

theorem Joined.freed {b₁ b₂ : Bytes} {B' : List Nat} {nodes' : List Nat}
    (hj : Joined base h.mem A q bp B b₁ B') (hc : Closed base b₁ A q bp B' b₂ nodes')
    (houtside : ∀ x, (∀ f ∈ bp :: (A ++ q :: B), x < f ∨ f + 8 ≤ x) → b₂ x = h.mem x) :
    Freed base h (A ++ q :: B) bp { mem := b₂, freep := q } nodes' where
  list := hc.list
  large := by
    obtain ⟨f, hf, hlarge⟩ := hc.large
    exact ⟨f, hf, Nat.le_trans hj.size_le hlarge⟩
  coverage x := (hc.coverage x).trans (hj.coverage x)
  outside := houtside

theorem FreeList.free (hl : FreeList base h nodes) (hb : Loose base h.mem nodes bp) :
    ∃ h' nodes', Freed base h nodes bp h' nodes' ∧
      ∀ fuel, nodes.length ≤ fuel → Umalloc.free fuel h (bp + 8) = some h' := by
  obtain ⟨A, q, B, rfl, hq, hB⟩ := hl.exists_place hb
  have hplace : ∀ y ∈ A ++ q :: B, y ≤ q ∨ bp < y := by
    intro y hy
    have hasc := hl.ascending
    rw [List.pairwise_append] at hasc
    rw [List.mem_append, List.mem_cons] at hy
    rcases hy with hy | rfl | hy
    · have hyq := hasc.2.2 y hy q List.mem_cons_self
      unfold Before at hyq
      omega
    · exact .inl (Nat.le_refl y)
    · exact .inr (hB y hy)
  obtain ⟨B', hjoined⟩ := hl.joinNext hb hq hB
  obtain ⟨nodes', hclosed⟩ := hjoined.opened.joinPrev
  refine ⟨_, nodes', hjoined.freed hclosed fun x hx => ?_, fun fuel hfuel => ?_⟩
  · exact (joinPrev_outside (hx q (by simp))).trans (joinNext_outside (hx bp (by simp)))
  · unfold Umalloc.free
    simp only [Nat.add_sub_cancel, hl.freeLoop_eq hb (by simp) hq hplace hfuel]

end FreeList

end OsWork.Ports.Umalloc

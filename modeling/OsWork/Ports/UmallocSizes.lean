import OsWork.Ports.UmallocHeap

/-!
# Large requests in `umalloc.c`

The number of units, the product in `morecore` and its conversion to the `int` of `sbrk`
each wrap at a size of their own.  From `2^31 - 15` bytes on `sbrk` is asked for nothing or
for less than nothing; in the last seven numbers the sum in `malloc` wraps, and a single
unit is looked for, which is a header and nothing else.

## Main results

* `malloc_right_iff` — the requests that are answered right, in each state of the heap.
-/

namespace OsWork.Ports.Umalloc

open OsWork.Verified.CircularList OsWork.Verified.Intervals

/-- There is no free block. -/
def State.NoFree (L : Layout) (s : State) : Prop :=
  s.heap.freep = 0 ∨ ptr s.heap.mem L.base = L.base

/-- The result is 0 or a block of memory from `sbrk` with enough room, and each call of
`sbrk` asks for a positive amount that is not below the size recorded. -/
structure Right (s : State) (nbytes : Nat) (answers : List (Option Nat)) (r : Result) : Prop where
  calls : ∀ c ∈ r.calls, 0 < c.amount ∧ 8 * (c.units : Int) ≤ c.amount
  room : r.ret = 0 ∨ nbytes ≤ 8 * (size r.heap.mem (r.ret - 8) - 1) ∧
    ∀ x, r.ret ≤ x → x < r.ret + nbytes → 0 < coverage (obtained r.calls answers ++ s.got) x

section Sizes

variable {L : Layout} {s : State} {nbytes nu : Nat} {answers : List (Option Nat)}
variable {nodes : List Nat}

/-! ## The amounts -/

/-- From `2^28` units on the amount is not positive. -/
theorem sbrkCall_nonpos (hlarge : 268435456 ≤ nu) (hle : nu ≤ 536870912) :
    (sbrkCall nu).amount ≤ 0 := by
  have hunits : morecoreUnits nu = nu := if_neg (by omega)
  unfold sbrkCall
  simp only [hunits]
  rcases Nat.lt_or_eq_of_le hle with hlt | rfl
  · rw [Nat.mod_eq_of_lt (by omega), if_neg (by omega)]
    omega
  · decide

theorem nunits_large (hlarge : 2147483633 ≤ nbytes) (hlt : nbytes < 4294967289) :
    268435456 ≤ nunits nbytes ∧ nunits nbytes ≤ 536870912 := by
  unfold nunits
  rw [Nat.mod_eq_of_lt (by omega)]
  omega

theorem nunits_wrap (hlarge : 4294967289 ≤ nbytes) (hlt : nbytes < 4294967296) :
    nunits nbytes = 1 := by
  unfold nunits
  omega

theorem sbrkCall_right (hsmall : nu < 268435456) :
    0 < (sbrkCall nu).amount ∧ 8 * ((sbrkCall nu).units : Int) ≤ (sbrkCall nu).amount := by
  obtain ⟨hamount, _, _⟩ := sbrkCall_amount hsmall
  have hpos : 0 < morecoreUnits nu := by
    unfold morecoreUnits
    split <;> omega
  have hunits : (sbrkCall nu).units = morecoreUnits nu := rfl
  omega

/-! ## The calls -/

/-- A call that has been made is among those of the result. -/
theorem mallocLoop_calls {r : Result} {c : SbrkCall} : ∀ {fuel : Nat} {h : Heap} {prevp p : Nat}
    {answers : List (Option Nat)} {calls : List SbrkCall}, c ∈ calls →
    mallocLoop nu fuel h prevp p answers calls = some r → c ∈ r.calls := by
  intro fuel
  induction fuel with
  | zero =>
      intro h prevp p answers calls _ hr
      cases hr
  | succ fuel ih =>
      intro h prevp p answers calls hc hr
      rw [mallocLoop] at hr
      split at hr
      next hfit =>
        split at hr
        next => exact Option.some.inj hr ▸ hc
        next => exact Option.some.inj hr ▸ hc
      next hfit =>
        split at hr
        next hfreep =>
          cases hcore : morecore fuel h nu (answers.headD none) with
          | none =>
              rw [hcore] at hr
              cases hr
          | some result =>
              rw [hcore] at hr
              simp only at hr
              split at hr
              next => exact Option.some.inj hr ▸ List.mem_append_left _ hc
              next => exact ih (List.mem_append_left _ hc) hr
        next hfreep => exact ih hc hr

/-- At `freep`, with a block that is too small, `sbrk` is called. -/
theorem mem_calls_of_freep {fuel prevp : Nat} {h : Heap} {r : Result}
    {calls : List SbrkCall} (hsmall : size h.mem h.freep < nu)
    (hr : mallocLoop nu (fuel + 1) h prevp h.freep answers calls = some r) :
    sbrkCall nu ∈ r.calls := by
  rw [mallocLoop, if_neg (Nat.not_le.mpr hsmall), if_pos rfl] at hr
  have hmem : sbrkCall nu ∈ calls ++ [sbrkCall nu] :=
    List.mem_append_right _ List.mem_cons_self
  cases hcore : morecore fuel h nu (answers.headD none) with
  | none =>
      rw [hcore] at hr
      cases hr
  | some result =>
      rw [hcore] at hr
      simp only at hr
      split at hr
      next => exact Option.some.inj hr ▸ hmem
      next => exact mallocLoop_calls hmem hr

/-- No free block has `2^28` units: the memory of a process is not that large. -/
theorem Inv.size_lt (h : Inv L s nodes) {f : Nat} (hf : f ∈ nodes) :
    size s.heap.mem f < 268435456 := by
  have hbelow := h.list.below f hf
  have hge := h.list.base_le hf
  have hpos := L.base_pos
  unfold KERNBASE at hbelow
  omega

theorem mem_calls_of_large (h : Tidy L s) (hlarge : 268435456 ≤ nunits nbytes) {r : Result}
    (hr : Ends (fun fuel => malloc L.base fuel s.heap nbytes answers) r) :
    sbrkCall (nunits nbytes) ∈ r.calls := by
  obtain ⟨nodes, hinv⟩ := h.enter
  have hsmall : ∀ f ∈ nodes, size (Umalloc.enter L.base s.heap).mem f < nunits nbytes :=
    fun f hf => Nat.lt_of_lt_of_le (hinv.size_lt hf) hlarge
  obtain ⟨n, prevp, hturn⟩ := hinv.list.turn hsmall
  obtain ⟨rounds, hrounds⟩ := hr
  have hrun := hrounds (rounds + 1 + n) (by omega)
  exact mem_calls_of_freep (hsmall _ hinv.list.entered) ((hturn _ _ _).symm.trans hrun)

/-! ## The room -/

/-- A block that is live lies in the memory of `sbrk`, with its header. -/
theorem Tidy.room {t : State} {b : Block} (h : Tidy L t) (hb : b ∈ t.live) :
    size t.heap.mem b.addr = b.units ∧
      ∀ x, b.addr ≤ x → x < b.addr + 8 * b.units → 0 < coverage t.got x := by
  rcases h with ⟨_, hnil, _⟩ | ⟨nodes, h⟩
  · exact absurd (hnil ▸ hb) List.not_mem_nil
  · refine ⟨h.header b hb, fun x hlo hhi => ?_⟩
    have hcover := h.of_live hb (x := x) ⟨hlo, hhi⟩
    have hsum := h.sum x
    omega

/-- Without a free block the live ones make up the memory. -/
theorem Tidy.coverage_noFree (h : Tidy L s) (hno : s.NoFree L) (x : Nat) :
    coverage (s.live.map Block.span) x = coverage s.got x := by
  rcases h with ⟨_, hlive, hgot⟩ | ⟨nodes, h⟩
  · rw [hlive, hgot]
    rfl
  · have hpos := L.base_pos
    have hge := h.list.base_le h.list.entered
    have hself : ptr s.heap.mem L.base = L.base := hno.resolve_left (by omega)
    have hall : ∀ f ∈ nodes, f = L.base := by
      intro f hf
      have hfge := h.list.base_le hf
      rcases h.list.next_cases h.list.base_mem with ⟨_, hlt, _⟩ | ⟨_, hgreatest⟩
      · omega
      · have hfle := hgreatest f hf
        omega
    have hzero : coverage (nodes.map (span s.heap.mem)) x = 0 := by
      apply coverage_eq_zero
      intro i hi
      obtain ⟨f, hf, rfl⟩ := List.mem_map.mp hi
      have hsize := h.list.base_size
      rw [hall f hf]
      unfold span Interval.Contains
      simp only
      omega
    have hsum := h.sum x
    omega

/-- Without a free block, and without an answer of `sbrk`, there is no block. -/
theorem Answered.ret_eq_zero {r : Result} (ha : Answered L s nbytes answers r) (h : Tidy L s)
    (hno : s.NoFree L) (hnone : answers.headD none = none) : r.ret = 0 := by
  rcases ha.block with ⟨hzero, _⟩ | ⟨b, hlive, _, hunits⟩
  · exact hzero
  · have hgot : (s.malloced answers r).got = s.got := by
      show obtained r.calls answers ++ s.got = s.got
      rw [obtained_none ha.calls hnone, List.nil_append]
    have hpos := nunits_pos nbytes
    rcases ha.tidy with ⟨_, hnil, _⟩ | ⟨nodes, hinv⟩
    · rw [hnil] at hlive
      cases hlive
    · have hsum := hinv.sum b.addr
      have hall := h.coverage_noFree hno b.addr
      rw [hgot, hlive, List.map_cons, coverage_cons, if_pos ⟨Nat.le_refl _, by
        show b.addr < b.addr + 8 * b.units
        omega⟩] at hsum
      omega

/-- With a free block there is one for a single unit. -/
theorem Tidy.ret_ne_zero {r : Result} (h : Tidy L s) (hfree : ¬ s.NoFree L)
    (hnu : nunits nbytes = 1)
    (hr : Ends (fun fuel => Umalloc.malloc L.base fuel s.heap nbytes answers) r) : r.ret ≠ 0 := by
  unfold State.NoFree at hfree
  rw [not_or] at hfree
  rcases h with ⟨hzero, _⟩ | ⟨nodes, h⟩
  · exact absurd hzero hfree.1
  · have hmem := h.list.ring.next_mem h.list.base_mem
    have hsize := ((h.list.behind _ hmem).resolve_left hfree.2).2
    obtain ⟨h', nodes', q, _, hends⟩ := h.list.find Nat.one_pos ⟨_, hmem, hsize⟩
    have henter : Umalloc.enter L.base s.heap = s.heap := if_neg hfree.1
    have hends' : Ends (fun fuel => Umalloc.malloc L.base fuel s.heap nbytes answers)
        { heap := h', ret := q + 8, calls := [] } := by
      unfold Umalloc.malloc
      simp only [henter, hnu]
      exact hends answers []
    rw [hr.unique hends']
    exact Nat.succ_ne_zero _

/-- Requests up to `2^31 - 16` bytes are answered right. -/
theorem Answered.right {r : Result} (ha : Answered L s nbytes answers r)
    (hbytes : nbytes ≤ 2147483632) : Right s nbytes answers r where
  calls c hc := by
    have hright := sbrkCall_right (nunits_lt hbytes)
    rcases ha.calls with hcalls | hcalls
    · rw [hcalls] at hc
      exact absurd hc List.not_mem_nil
    · rw [hcalls] at hc
      exact List.mem_singleton.mp hc ▸ hright
  room := by
    rcases ha.block with ⟨hzero, _⟩ | ⟨b, hlive, hpayload, hunits⟩
    · exact .inl hzero
    · right
      obtain ⟨hsize, hcover⟩ := ha.tidy.room (hlive ▸ List.mem_cons_self)
      have haddr : r.ret - 8 = b.addr := hpayload ▸ b.payload_sub
      have hroom := room_of_units hunits hbytes
      unfold Block.room at hroom
      unfold Block.payload at hpayload
      rw [haddr]
      exact ⟨hsize ▸ hroom, fun x hlo hhi => hcover x (by omega) (by omega)⟩

/-- A block of one unit has no room. -/
theorem Answered.fails_of_right {r : Result} (ha : Answered L s nbytes answers r)
    (hnu : nunits nbytes = 1) (hpos : 0 < nbytes) (hright : Right s nbytes answers r) :
    r.ret = 0 ∧ answers.headD none = none := by
  rcases ha.block with hfails | ⟨b, hlive, hpayload, hunits⟩
  · exact hfails
  · obtain ⟨hsize, _⟩ := ha.tidy.room (hlive ▸ List.mem_cons_self)
    have haddr : r.ret - 8 = b.addr := hpayload ▸ b.payload_sub
    have hsize' : size r.heap.mem b.addr = 1 := hsize.trans (hunits.trans hnu)
    rcases hright.room with hzero | ⟨hroom, _⟩
    · unfold Block.payload at hpayload
      omega
    · rw [haddr] at hroom
      omega

end Sizes

/-- A request is answered right when the numbers do not wrap; of those for which the sum in
`malloc` wraps, the ones that find neither a free block nor memory. -/
theorem malloc_right_iff (L : Layout) {s : State} (h : Tidy L s) (nbytes : Nat)
    (hn : nbytes < 4294967296) (answers : List (Option Nat))
    (hfresh : s.Fresh L (sbrkCall (nunits nbytes)) (answers.headD none)) :
    (∃ r, Ends (fun fuel => malloc L.base fuel s.heap nbytes answers) r ∧
        Right s nbytes answers r) ↔
      nbytes ≤ 2147483632 ∨
        4294967289 ≤ nbytes ∧ s.NoFree L ∧ answers.headD none = none := by
  by_cases hsmall : nbytes ≤ 2147483632
  · obtain ⟨r, hends, ha⟩ := h.malloc (nunits_lt hsmall) hfresh
    exact iff_of_true ⟨r, hends, ha.right hsmall⟩ (.inl hsmall)
  by_cases hwrap : 4294967289 ≤ nbytes
  · have hnu := nunits_wrap hwrap hn
    obtain ⟨r, hends, ha⟩ := h.malloc (hnu ▸ by decide) hfresh
    constructor
    · rintro ⟨r', hends', hright⟩
      obtain rfl := hends.unique hends'
      obtain ⟨hzero, hnone⟩ := ha.fails_of_right hnu (by omega) hright
      refine .inr ⟨hwrap, ?_, hnone⟩
      by_contra hfree
      exact h.ret_ne_zero hfree hnu hends hzero
    · rintro (hle | ⟨_, hno, hnone⟩)
      · exact absurd hle hsmall
      · refine ⟨r, hends, fun c hc => ?_, .inl (ha.ret_eq_zero h hno hnone)⟩
        have hright := sbrkCall_right (hnu ▸ by decide : nunits nbytes < 268435456)
        rcases ha.calls with hcalls | hcalls
        · rw [hcalls] at hc
          exact absurd hc List.not_mem_nil
        · rw [hcalls] at hc
          exact List.mem_singleton.mp hc ▸ hright
  · constructor
    · rintro ⟨r, hends, hright⟩
      obtain ⟨hlarge, hle⟩ := nunits_large (by omega) (Nat.not_le.mp hwrap)
      have hcall := hright.calls _ (mem_calls_of_large h hlarge hends)
      exact absurd hcall.1 (Int.not_lt.mpr (sbrkCall_nonpos hlarge hle))
    · rintro (hle | ⟨hge, _⟩)
      · exact absurd hle hsmall
      · exact absurd hge hwrap

theorem malloc_right_iff_hundred :
    ∃ r, Ends (fun fuel => malloc 4096 fuel ⟨fun _ => 0, 0⟩ 100 [some 8192]) r ∧
      Right ⟨⟨fun _ => 0, 0⟩, [], []⟩ 100 [some 8192] r :=
  (malloc_right_iff ⟨4096, 8192, by decide, by decide, by decide⟩
    (s := ⟨⟨fun _ => 0, 0⟩, [], []⟩) (.inl ⟨rfl, rfl, rfl⟩) 100 (by decide) [some 8192]
    (by decide)).mpr (.inl (by decide))

/-- The largest request gets a block of one unit. -/
theorem not_all_right :
    ¬ ∀ (L : Layout) (s : State) (nbytes : Nat) (answers : List (Option Nat)), Tidy L s →
      nbytes < 4294967296 → s.Fresh L (sbrkCall (nunits nbytes)) (answers.headD none) →
      ∃ r, Ends (fun fuel => malloc L.base fuel s.heap nbytes answers) r ∧
        Right s nbytes answers r := by
  intro hall
  have htidy : Tidy ⟨4096, 8192, by decide, by decide, by decide⟩ ⟨⟨fun _ => 0, 0⟩, [], []⟩ :=
    .inl ⟨rfl, rfl, rfl⟩
  obtain ⟨r, hends, hright⟩ := hall _ _ 4294967295 [some 8192] htidy (by decide) (by decide)
  obtain ⟨r', hends', ha⟩ : ∃ r, Ends (fun fuel => malloc 4096 fuel ⟨fun _ => 0, 0⟩ 4294967295
      [some 8192]) r ∧ Answered _ _ 4294967295 [some 8192] r :=
    htidy.malloc (by decide) (by decide)
  obtain rfl := hends.unique hends'
  have hfails := (ha.fails_of_right (by decide) (by decide) hright).2
  cases hfails

end OsWork.Ports.Umalloc

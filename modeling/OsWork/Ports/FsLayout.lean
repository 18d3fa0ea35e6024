import Mathlib.Data.List.GetD
import OsWork.Verified.ByteWords

/-!
# The layout of `fs.h`

What `mkfs` and the kernel agree on: the sizes, the fields of a `struct dinode`, and the
references of an inode.  The references have numbers: `k < 12` is `addrs[k]`, `12` the indirect
block, and `13 + j` its entry `j`.  Both programs allocate them in this order.

## Main results

* `Refs.alloc` — a new block becomes the next reference of an inode.
* `Refs.allocAddr`, `Refs.allocEntry` — it is an address, or an entry of the indirect block.
-/

namespace OsWork.Ports.FsLayout

open OsWork.Verified.ByteWords
open Function (update)

/-! ## Sizes -/

def BSIZE : Nat := 512
def NDIRECT : Nat := 12
def NINDIRECT : Nat := 128
def MAXFILE : Nat := NDIRECT + NINDIRECT
def DIRSIZ : Nat := 14
def ROOTINO : Nat := 1
def T_DIR : Nat := 1
def T_FILE : Nat := 2

/-- `sizeof(struct dinode)` -/
def dinodeSize : Nat := 64

/-- Inodes per block. -/
def IPB : Nat := 8

/-- The offset of `size` in a `struct dinode`. -/
def sizeField : Nat := 8

/-- The offset of `addrs[k]` in a `struct dinode`. -/
def addrField (k : Nat) : Nat := 12 + 4 * k

def zeroes : Bytes := fun _ => 0

/-- The number of the reference to the block `fbn` of a file. -/
def slotOf (fbn : Nat) : Nat := if fbn < NDIRECT then fbn else fbn + 1

/-- The number of blocks of a file of `size` bytes. -/
def blocksFor (size : Nat) : Nat := (size + (BSIZE - 1)) / BSIZE

/-- The number of references of a file of `size` bytes. -/
def slotsFor (size : Nat) : Nat := slotOf (blocksFor size - 1) + min (blocksFor size) 1

/-- One more than the numbers of references. -/
def maxSlots : Nat := 13 + NINDIRECT

theorem slotOf_ne (fbn : Nat) : slotOf fbn ≠ NDIRECT := by
  unfold slotOf
  split <;> omega

theorem slotOf_inj {a b : Nat} (h : slotOf a = slotOf b) : a = b := by
  unfold slotOf at h
  split at h <;> split at h <;> omega

theorem slotOf_lt {fbn : Nat} (h : fbn < MAXFILE) : slotOf fbn < maxSlots := by
  unfold slotOf maxSlots NDIRECT
  unfold MAXFILE NDIRECT at h
  split <;> omega

/-- The number of references after a piece in the block `off / BSIZE`. -/
theorem slotsFor_piece {off n1 : Nat} (hpos : 0 < n1) (hn : off % BSIZE + n1 ≤ BSIZE) :
    slotsFor (off + n1) = slotOf (off / BSIZE) + 1 := by
  have hblocks : blocksFor (off + n1) = off / BSIZE + 1 := by
    unfold blocksFor BSIZE at *
    omega
  unfold slotsFor
  rw [hblocks, Nat.add_sub_cancel, Nat.min_eq_right (Nat.le_add_left 1 _)]

/-- The number of references before it. -/
theorem slotsFor_before (off : Nat) :
    slotsFor off = slotOf (off / BSIZE) + 1 ∨ slotsFor off = slotOf (off / BSIZE) ∨
      off / BSIZE = NDIRECT ∧ slotsFor off = NDIRECT := by
  by_cases hmod : off % BSIZE = 0
  · have hblocks : blocksFor off = off / BSIZE := by
      unfold blocksFor BSIZE at *
      omega
    right
    unfold slotsFor slotOf
    rw [hblocks]
    unfold NDIRECT
    split <;> split <;> omega
  · have hblocks : blocksFor off = off / BSIZE + 1 := by
      unfold blocksFor BSIZE at *
      omega
    left
    unfold slotsFor
    rw [hblocks, Nat.add_sub_cancel, Nat.min_eq_right (Nat.le_add_left 1 _)]

theorem slotsFor_mono {a b : Nat} (h : a ≤ b) : slotsFor a ≤ slotsFor b := by
  have hblocks : blocksFor a ≤ blocksFor b := Nat.div_le_div_right (by omega)
  unfold slotsFor slotOf
  split <;> split <;> omega

/-! ## References -/

/-- The reference `k` of inode `i`; `addr` are the `addrs` of the inodes. -/
def refAt (addr : Nat → Nat → Nat) (sec : Nat → Bytes) (i k : Nat) : Nat :=
  if k ≤ NDIRECT then addr i k
  else if addr i NDIRECT = 0 then 0
  else u32 (sec (addr i NDIRECT)) (4 * (k - 13))

/-- The inodes below `n` have the first `c i` references, all to different blocks in use. -/
structure Refs (n : Nat) (addr : Nat → Nat → Nat) (sec : Nat → Bytes) (used : Nat → Prop)
    (c : Nat → Nat) : Prop where
  inUse : ∀ i k, i < n → k < maxSlots → refAt addr sec i k ≠ 0 → used (refAt addr sec i k)
  inj : ∀ i j k l, i < n → j < n → k < maxSlots → l < maxSlots → refAt addr sec i k ≠ 0 →
    refAt addr sec i k = refAt addr sec j l → i = j ∧ k = l
  live : ∀ i k, i < n → k < maxSlots → (refAt addr sec i k ≠ 0 ↔ k < c i)

variable {n : Nat} {addr addr' : Nat → Nat → Nat} {sec sec' : Nat → Bytes}
  {used used' : Nat → Prop} {c : Nat → Nat} {i j k l x : Nat}

theorem refAt_addr (h : k ≤ NDIRECT) : refAt addr sec i k = addr i k := if_pos h

theorem refAt_entry (h : NDIRECT < k) (ha : addr i NDIRECT ≠ 0) :
    refAt addr sec i k = u32 (sec (addr i NDIRECT)) (4 * (k - 13)) := by
  unfold refAt
  rw [if_neg (Nat.not_le_of_lt h), if_neg ha]

theorem refAt_none (h : NDIRECT < k) (ha : addr i NDIRECT = 0) : refAt addr sec i k = 0 := by
  unfold refAt
  rw [if_neg (Nat.not_le_of_lt h), if_pos ha]

/-- The references are the same when the addresses are, and the indirect block. -/
theorem refAt_congr (ha : ∀ k, k ≤ NDIRECT → addr' i k = addr i k)
    (hs : addr i NDIRECT ≠ 0 → ∀ j, sec' (addr i NDIRECT) j = sec (addr i NDIRECT) j) (k : Nat) :
    refAt addr' sec' i k = refAt addr sec i k := by
  by_cases hk : k ≤ NDIRECT
  · rw [refAt_addr hk, refAt_addr hk, ha k hk]
  · have hlt : NDIRECT < k := Nat.lt_of_not_le hk
    have hind : addr' i NDIRECT = addr i NDIRECT := ha NDIRECT (Nat.le_refl _)
    by_cases hzero : addr i NDIRECT = 0
    · rw [refAt_none hlt hzero, refAt_none hlt (hind.trans hzero)]
    · rw [refAt_entry hlt hzero, refAt_entry hlt (by rw [hind]; exact hzero), hind]
      exact u32_congr fun r _ => hs hzero _

/-- The indirect block is in use. -/
theorem Refs.indirect (h : Refs n addr sec used c) (hi : i < n) (hne : addr i NDIRECT ≠ 0) :
    used (addr i NDIRECT) := by
  have hused := h.inUse i NDIRECT hi (by decide)
  rw [refAt_addr (Nat.le_refl _)] at hused
  exact hused hne

theorem Refs.indirect_iff (h : Refs n addr sec used c) (hi : i < n) :
    addr i NDIRECT ≠ 0 ↔ NDIRECT < c i := by
  rw [← h.live i NDIRECT hi (by decide), refAt_addr (Nat.le_refl _)]

/-- Only the addresses of the inodes below `n` count. -/
theorem Refs.congr (h : Refs n addr sec used c)
    (ha : ∀ i k, i < n → k ≤ NDIRECT → addr' i k = addr i k)
    (hs : ∀ i, i < n → addr i NDIRECT ≠ 0 → sec' (addr i NDIRECT) = sec (addr i NDIRECT))
    (hu : ∀ b, used b → used' b) : Refs n addr' sec' used' c := by
  have href : ∀ i k, i < n → refAt addr' sec' i k = refAt addr sec i k := by
    intro i k hi
    apply refAt_congr (ha i · hi)
    intro hne r
    rw [hs i hi hne]
  exact
    { inUse := by
        intro i k hi hk
        rw [href i k hi]
        exact fun hne => hu _ (h.inUse i k hi hk hne)
      inj := by
        intro i j k l hi hj hk hl
        rw [href i k hi, href j l hj]
        exact h.inj i j k l hi hj hk hl
      live := by
        intro i k hi hk
        rw [href i k hi]
        exact h.live i k hi hk }

theorem Refs.count_congr {c' : Nat → Nat} (h : Refs n addr sec used c)
    (hc : ∀ i, i < n → c' i = c i) : Refs n addr sec used c' where
  inUse := h.inUse
  inj := h.inj
  live i k hi hk := by
    rw [hc i hi]
    exact h.live i k hi hk

/-- No data block is an indirect block. -/
theorem Refs.data_ne_indirect (h : Refs n addr sec used c) (hi : i < n) (hj : j < n)
    (hmax : slotOf k < maxSlots) (hne : refAt addr sec i (slotOf k) ≠ 0) :
    refAt addr sec i (slotOf k) ≠ addr j NDIRECT := by
  intro heq
  have hdir : addr j NDIRECT = refAt addr sec j NDIRECT := (refAt_addr (Nat.le_refl _)).symm
  rw [hdir] at heq
  exact slotOf_ne k (h.inj i j _ _ hi hj hmax (by decide) hne heq).2

/-- One reference more has been allocated: it is the next of inode `i`, and it is to the block
`x`, which was not in use. -/
theorem Refs.alloc (h : Refs n addr sec used c) (hk : k < maxSlots) (hc : c i = k) (hx : x ≠ 0)
    (hfree : ¬ used x) (hmono : ∀ b, used b → used' b) (hused : used' x)
    (hnew : refAt addr' sec' i k = x)
    (hold : ∀ j l, j < n → l < maxSlots → ¬ (j = i ∧ l = k) →
      refAt addr' sec' j l = refAt addr sec j l) :
    Refs n addr' sec' used' (update c i (k + 1)) := by
  have hnext : ∀ j l, j < n → l < maxSlots → refAt addr sec j l ≠ x := by
    intro j l hj hl heq
    apply hfree
    rw [← heq]
    exact h.inUse j l hj hl (by rw [heq]; exact hx)
  exact
    { inUse := by
        intro j l hj hl hne
        by_cases hjl : j = i ∧ l = k
        · obtain ⟨rfl, rfl⟩ := hjl
          rw [hnew]
          exact hused
        · rw [hold j l hj hl hjl] at hne ⊢
          exact hmono _ (h.inUse j l hj hl hne)
      inj := by
        intro j j' l l' hj hj' hl hl' hne heq
        by_cases hjl : j = i ∧ l = k
        · by_cases hjl' : j' = i ∧ l' = k
          · exact ⟨hjl.1.trans hjl'.1.symm, hjl.2.trans hjl'.2.symm⟩
          · rw [hold j' l' hj' hl' hjl', hjl.1, hjl.2, hnew] at heq
            exact absurd heq.symm (hnext j' l' hj' hl')
        · rw [hold j l hj hl hjl] at hne heq
          by_cases hjl' : j' = i ∧ l' = k
          · rw [hjl'.1, hjl'.2, hnew] at heq
            exact absurd heq (hnext j l hj hl)
          · rw [hold j' l' hj' hl' hjl'] at heq
            exact h.inj j j' l l' hj hj' hl hl' hne heq
      live := by
        intro j l hj hl
        by_cases hjl : j = i ∧ l = k
        · obtain ⟨rfl, rfl⟩ := hjl
          rw [hnew, Function.update_self]
          exact ⟨fun _ => Nat.lt_succ_self l, fun _ => hx⟩
        · rw [hold j l hj hl hjl, h.live j l hj hl]
          by_cases hji : j = i
          · rw [hji, Function.update_self, hc]
            omega
          · rw [Function.update_of_ne hji] }

/-- What is new in the references when `addrs[k]` is; a new indirect block is full of zeroes. -/
theorem Refs.addr_old (h : Refs n addr sec used c) (hk : k ≤ NDIRECT) (hc : c i = k) (hx : x ≠ 0)
    (hnew : addr' i k = x) (hzero : k = NDIRECT → ∀ r, r < BSIZE → sec' x r = 0)
    (hold : ∀ j l, j < n → l ≤ NDIRECT → ¬ (j = i ∧ l = k) → addr' j l = addr j l)
    (hs : ∀ j, j < n → addr j NDIRECT ≠ 0 → sec' (addr j NDIRECT) = sec (addr j NDIRECT)) :
    ∀ j l, j < n → l < maxSlots → ¬ (j = i ∧ l = k) →
      refAt addr' sec' j l = refAt addr sec j l := by
  intro j l hj hl hne
  by_cases hl' : l ≤ NDIRECT
  · rw [refAt_addr hl', refAt_addr hl', hold j l hj hl' hne]
  · have hlt : NDIRECT < l := Nat.lt_of_not_le hl'
    by_cases hjk : j = i ∧ NDIRECT = k
    · obtain ⟨rfl, rfl⟩ := hjk
      have hnone : addr j NDIRECT = 0 := by
        by_contra hsome
        have hlive := (h.indirect_iff hj).mp hsome
        omega
      rw [refAt_none hlt hnone, refAt_entry hlt (by rw [hnew]; exact hx), hnew]
      have hbytes : ∀ r, r < 4 → sec' x (4 * (l - 13) + r) = 0 := by
        intro r hr
        apply hzero rfl
        unfold maxSlots NINDIRECT at hl
        unfold BSIZE
        omega
      have hword : u32 (sec' x) (4 * (l - 13)) = u32 zeroes (4 * (l - 13)) :=
        u32_congr hbytes
      rw [hword]
      rfl
    · have hind := hold j NDIRECT hj (Nat.le_refl _) hjk
      by_cases hnone : addr j NDIRECT = 0
      · rw [refAt_none hlt hnone, refAt_none hlt (hind.trans hnone)]
      · rw [refAt_entry hlt hnone, refAt_entry hlt (by rw [hind]; exact hnone), hind,
          hs j hj hnone]

/-- `addrs[k]` is allocated. -/
theorem Refs.allocAddr (h : Refs n addr sec used c) (hk : k ≤ NDIRECT) (hc : c i = k)
    (hx : x ≠ 0) (hfree : ¬ used x) (hmono : ∀ b, used b → used' b) (hused : used' x)
    (hnew : addr' i k = x) (hzero : k = NDIRECT → ∀ r, r < BSIZE → sec' x r = 0)
    (hold : ∀ j l, j < n → l ≤ NDIRECT → ¬ (j = i ∧ l = k) → addr' j l = addr j l)
    (hs : ∀ j, j < n → addr j NDIRECT ≠ 0 → sec' (addr j NDIRECT) = sec (addr j NDIRECT)) :
    Refs n addr' sec' used' (update c i (k + 1)) :=
  h.alloc (Nat.lt_of_le_of_lt hk (by decide)) hc hx hfree hmono hused
    (by rw [refAt_addr hk, hnew]) (h.addr_old hk hc hx hnew hzero hold hs)

/-- What is new in the references when an entry of the indirect block is. -/
theorem Refs.entry_old (h : Refs n addr sec used c) (hi : i < n) (hk : NDIRECT < k) (hc : c i = k)
    (hind : sec' (addr i NDIRECT) = put32 (sec (addr i NDIRECT)) (4 * (k - 13)) x)
    (hs : ∀ j, j < n → addr j NDIRECT ≠ 0 → addr j NDIRECT ≠ addr i NDIRECT →
      sec' (addr j NDIRECT) = sec (addr j NDIRECT)) :
    ∀ j l, j < n → l < maxSlots → ¬ (j = i ∧ l = k) →
      refAt addr sec' j l = refAt addr sec j l := by
  intro j l hj hl hne
  by_cases hl' : l ≤ NDIRECT
  · rw [refAt_addr hl', refAt_addr hl']
  · have hlt : NDIRECT < l := Nat.lt_of_not_le hl'
    by_cases hzero : addr j NDIRECT = 0
    · rw [refAt_none hlt hzero, refAt_none hlt hzero]
    · rw [refAt_entry hlt hzero, refAt_entry hlt hzero]
      by_cases hji : addr j NDIRECT = addr i NDIRECT
      · rw [hji, hind]
        apply u32_put32_ne
        have hsame := h.inj j i NDIRECT NDIRECT hj hi (by decide) (by decide)
        rw [refAt_addr (Nat.le_refl _), refAt_addr (Nat.le_refl _)] at hsame
        have hij := (hsame hzero hji).1
        have hlk : l ≠ k := fun heq => hne ⟨hij, heq⟩
        unfold NDIRECT at hk hlt
        omega
      · rw [hs j hj hzero hji]

/-- An entry of the indirect block is allocated. -/
theorem Refs.allocEntry (h : Refs n addr sec used c) (hi : i < n) (hk : NDIRECT < k)
    (hmax : k < maxSlots) (hc : c i = k) (hx : x ≠ 0) (hlt : x < 4294967296) (hfree : ¬ used x)
    (hmono : ∀ b, used b → used' b) (hused : used' x)
    (hind : sec' (addr i NDIRECT) = put32 (sec (addr i NDIRECT)) (4 * (k - 13)) x)
    (hs : ∀ j, j < n → addr j NDIRECT ≠ 0 → addr j NDIRECT ≠ addr i NDIRECT →
      sec' (addr j NDIRECT) = sec (addr j NDIRECT)) :
    Refs n addr sec' used' (update c i (k + 1)) := by
  have hne : addr i NDIRECT ≠ 0 := (h.indirect_iff hi).mpr (by omega)
  refine h.alloc hmax hc hx hfree hmono hused ?_ (h.entry_old hi hk hc hind hs)
  rw [refAt_entry hk hne, hind]
  exact u32_put32_self hlt

end OsWork.Ports.FsLayout

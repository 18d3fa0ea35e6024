import OsWork.Ports.FsLayout
import OsWork.Verified.ByteBits
import OsWork.Verified.Counting

/-!
# Blocks and inodes on the disk

The lower half of `fs.c`: the free bit map, and the copies of inodes that `ilock` and `iupdate`
read and write.  A block is what `bread` returns for it; a write is a `log_write`.  `none` is a
panic.

`log_write` panics when a transaction gets too big.  The code here and in `FsContent` has it as
a parameter (`Log`): `FsTransaction` has the log with its limit, and the functions of
`Superblock` are what the code does as long as the log has room (`plain`).

## Main results

* `Alloc.of_balloc`, `balloc_enough` — `balloc` returns a free block, full of zeroes, as long as
  there is one.
* `load_iupdate`, `load_iupdate_ne` — `iupdate` changes one inode.
-/

namespace OsWork.Ports.FsDisk

open OsWork.Verified.ByteWords OsWork.Verified.ByteBits OsWork.Ports.FsLayout
open Function (update)

/-! ## The source -/

/-- The blocks of the disk. -/
abbrev Disk := Nat → Bytes

/-- Bitmap bits per block. -/
def BPB : Nat := BSIZE * 8

/-- The fields of the super block that `fs.c` uses. -/
structure Superblock where
  size : Nat
  ninodes : Nat
  inodestart : Nat
  bmapstart : Nat

/-- The part of `struct inode` that is a copy of the inode on the disk. -/
@[ext] structure Inode where
  type : Nat
  major : Nat
  minor : Nat
  nlink : Nat
  size : Nat
  addrs : Nat → Nat

/-- The first `k` words of `addrs` are copied. -/
def putAddrs (addrs : Nat → Nat) (buf : Bytes) (o : Nat) : Nat → Bytes
  | 0 => buf
  | k + 1 => put32 (putAddrs addrs buf o k) (o + addrField k) (addrs k)

namespace Inode

/-- The `struct dinode` at the offset `o` of a block. -/
def get (buf : Bytes) (o : Nat) : Inode where
  type := u16 buf o
  major := u16 buf (o + 2)
  minor := u16 buf (o + 4)
  nlink := u16 buf (o + 6)
  size := u32 buf (o + sizeField)
  addrs := fun k => if k ≤ NDIRECT then u32 buf (o + addrField k) else 0

def put (ip : Inode) (buf : Bytes) (o : Nat) : Bytes :=
  putAddrs ip.addrs
    (put32 (put16 (put16 (put16 (put16 buf o ip.type) (o + 2) ip.major) (o + 4) ip.minor) (o + 6)
      ip.nlink) (o + sizeField) ip.size) o (NDIRECT + 1)

end Inode

namespace Superblock

variable (sb : Superblock)

/-- `IBLOCK(i, sb)` -/
def IBLOCK (i : Nat) : Nat := i / IPB + sb.inodestart

/-- `BBLOCK(b, sb)` -/
def BBLOCK (b : Nat) : Nat := b / BPB + sb.bmapstart

/-- The inner loop of `balloc`. -/
def ballocIn (d : Disk) (b : Nat) : Option Nat :=
  (List.range BPB).find? fun bi => b + bi < sb.size && !bitAt (d (sb.BBLOCK b)) bi

def bfree (d : Disk) (b : Nat) : Option Disk :=
  if bitAt (d (sb.BBLOCK b)) (b % BPB) then
    some (update d (sb.BBLOCK b) (clearAt (d (sb.BBLOCK b)) (b % BPB)))
  else none

/-- What `ilock` reads. -/
def load (d : Disk) (i : Nat) : Inode := .get (d (sb.IBLOCK i)) (i % IPB * dinodeSize)

def iupdate (d : Disk) (i : Nat) (ip : Inode) : Disk :=
  update d (sb.IBLOCK i) (ip.put (d (sb.IBLOCK i)) (i % IPB * dinodeSize))

end Superblock

/-- The blocks of the disk in a state of the kernel, and `log_write` of a block with new
contents. -/
structure Log (σ : Type) where
  disk : σ → Disk
  log_write : σ → Nat → Bytes → Option σ

/-- There is always room in the log. -/
def plain : Log Disk where
  disk d := d
  log_write d b buf := some (update d b buf)

namespace Log

variable {σ : Type} (W : Log σ) (sb : Superblock)

def bzero (t : σ) (b : Nat) : Option σ := W.log_write t b zeroes

/-- `balloc` with the block that its loops have found. -/
def ballocFound (t : σ) (b bi : Nat) : Option (σ × Nat) :=
  (W.log_write t (sb.BBLOCK b) (setAt (W.disk t (sb.BBLOCK b)) bi)).bind fun t =>
    (W.bzero t (b + bi)).map fun t => (t, b + bi)

/-- `balloc`: the state after it, and the block. -/
def balloc (t : σ) : Option (σ × Nat) :=
  ((List.range ((sb.size + (BPB - 1)) / BPB)).findSome? fun k =>
    (sb.ballocIn (W.disk t) (k * BPB)).map fun bi => (k * BPB, bi)).bind fun r =>
      W.ballocFound sb t r.1 r.2

def iupdate (t : σ) (i : Nat) (ip : Inode) : Option σ :=
  W.log_write t (sb.IBLOCK i)
    (ip.put (W.disk t (sb.IBLOCK i)) (i % IPB * dinodeSize))

end Log

namespace Superblock

variable (sb : Superblock)

/-! ## The bit map -/

/-- The first block behind the bit map. -/
def dataStart : Nat := sb.bmapstart + (sb.size / BPB + 1)

/-- The inode table is before the bit map, and block numbers are words. -/
structure Ok : Prop where
  table : ∀ i, i < sb.ninodes → sb.IBLOCK i < sb.bmapstart
  size : sb.size < 2147483648

/-- The bit of block `b`. -/
def bit (d : Disk) (b : Nat) : Bool := bitAt (d (sb.BBLOCK b)) (b % BPB)

/-- The number of blocks that are not in use. -/
def freeCount (d : Disk) : Nat :=
  ((Finset.range sb.size).filter fun b => sb.bit d b = false).card

end Superblock

variable {sb : Superblock} {d d' d'' : Disk} {b x i j o k : Nat}

theorem BBLOCK_range (h : b < sb.size) : sb.bmapstart ≤ sb.BBLOCK b ∧ sb.BBLOCK b < sb.dataStart := by
  have hdiv : b / BPB ≤ sb.size / BPB := Nat.div_le_div_right (Nat.le_of_lt h)
  unfold Superblock.BBLOCK Superblock.dataStart
  exact ⟨Nat.le_add_left _ _, by rw [Nat.add_comm]; exact Nat.add_lt_add_left (by omega) _⟩

theorem bit_congr (h : b < sb.size)
    (hd : ∀ x, sb.bmapstart ≤ x → x < sb.dataStart → d' x = d x) : sb.bit d' b = sb.bit d b := by
  unfold Superblock.bit
  rw [hd _ (BBLOCK_range h).1 (BBLOCK_range h).2]

theorem freeCount_congr (hd : ∀ x, sb.bmapstart ≤ x → x < sb.dataStart → d' x = d x) :
    sb.freeCount d' = sb.freeCount d := by
  unfold Superblock.freeCount
  congr 1
  apply Finset.filter_congr
  intro b hb
  rw [bit_congr (Finset.mem_range.mp hb) hd]

/-- Bits of different blocks are different bits. -/
theorem bit_update {f : Bytes → Nat → Bytes} {g : Bool → Bool → Bool}
    (hf : ∀ buf m n, bitAt (f buf m) n = g (decide (m = n)) (bitAt buf n))
    (hg : ∀ v, g false v = v) :
    sb.bit (update d (sb.BBLOCK b) (f (d (sb.BBLOCK b)) (b % BPB))) x =
      g (decide (b = x)) (sb.bit d x) := by
  unfold Superblock.bit
  by_cases hblock : sb.BBLOCK x = sb.BBLOCK b
  · rw [hblock, Function.update_self, hf]
    congr 1
    apply decide_eq_decide.mpr
    unfold Superblock.BBLOCK at hblock
    have hx := Nat.div_add_mod x BPB
    have hb := Nat.div_add_mod b BPB
    have hdiv : x / BPB = b / BPB := by omega
    constructor
    · intro hmod
      rw [← hb, ← hx, hmod, hdiv]
    · rintro rfl
      rfl
  · rw [Function.update_of_ne hblock, decide_eq_false (by rintro rfl; exact hblock rfl), hg]

/-- Block `b` has been allocated. -/
structure Alloc (sb : Superblock) (d d' : Disk) (b : Nat) : Prop where
  lt : b < sb.size
  free : sb.bit d b = false
  bits : ∀ x, x < sb.size → sb.bit d' x = (decide (b = x) || sb.bit d x)
  zero : d' b = zeroes
  same : ∀ x, x ≠ b → x < sb.bmapstart ∨ sb.dataStart ≤ x → d' x = d x
  count : sb.freeCount d' + 1 = sb.freeCount d

theorem Alloc.of_balloc (hmeta : ∀ x, x < sb.dataStart → sb.bit d x = true)
    (h : plain.balloc sb d = some (d', b)) : Alloc sb d d' b := by
  unfold Log.balloc at h
  obtain ⟨⟨b₀, bi⟩, hloops, hfound⟩ := Option.bind_eq_some_iff.mp h
  obtain ⟨l, k, -, -, hk, -⟩ := List.findSome?_eq_some_iff.mp hloops
  obtain ⟨bi', hin, heq⟩ := Option.map_eq_some_iff.mp hk
  cases heq
  unfold Superblock.ballocIn at hin
  have hmem := List.mem_of_find?_eq_some hin
  have hbit := List.find?_some hin
  rw [List.mem_range] at hmem
  simp only [Bool.and_eq_true, decide_eq_true_eq, Bool.not_eq_true'] at hbit
  obtain ⟨hlt, hclear⟩ := hbit
  simp only [plain, Log.ballocFound, Log.bzero, Option.bind_some, Option.map_some,
    Option.some.injEq, Prod.mk.injEq] at hfound
  obtain ⟨hd, hb⟩ := hfound
  have hblock : sb.BBLOCK (k * BPB) = sb.BBLOCK b := by
    unfold Superblock.BBLOCK
    rw [← hb, Nat.mul_comm, Nat.mul_add_div (by decide), Nat.div_eq_of_lt hmem,
      Nat.mul_div_cancel_left _ (by decide), Nat.add_zero]
  have hbi : bi = b % BPB := by
    rw [← hb, Nat.mul_comm, Nat.mul_add_mod, Nat.mod_eq_of_lt hmem]
  rw [hb] at hd hlt
  rw [hblock, hbi] at hd hclear
  have hfree : sb.bit d b = false := hclear
  have hdata : sb.dataStart ≤ b := by
    by_contra hnot
    rw [hmeta b (by omega)] at hfree
    cases hfree
  have hmap := BBLOCK_range hlt
  have hne : b ≠ sb.BBLOCK b := by omega
  have hset : ∀ x, x ≠ b → d' x = update d (sb.BBLOCK b)
      (setAt (d (sb.BBLOCK b)) (b % BPB)) x := by
    intro x hx
    rw [← hd]
    exact Function.update_of_ne hx _ _
  have hbits : ∀ x, x < sb.size → sb.bit d' x = (decide (b = x) || sb.bit d x) := by
    intro x hx
    have hold : sb.bit (update d (sb.BBLOCK b) (setAt (d (sb.BBLOCK b)) (b % BPB))) x =
        (decide (b = x) || sb.bit d x) :=
      bit_update (g := or) (fun _ _ _ => bitAt_setAt) fun v => Bool.false_or v
    rw [← hold]
    apply bit_congr hx
    intro y _ hy
    exact hset y (by omega)
  exact
    { lt := hlt
      free := hfree
      bits := hbits
      zero := by
        rw [← hd]
        exact Function.update_self _ _ _
      same := by
        intro x hx hout
        rw [hset x hx]
        exact Function.update_of_ne (by omega) _ _
      count := by
        have hcount := OsWork.Verified.Counting.card_filter_add_of_agree
          (s := Finset.range sb.size) (p := fun x => sb.bit d x = false)
          (q := fun x => sb.bit d' x = false) (a := b) (Finset.mem_range.mpr hlt) fun x hx hne => by
            rw [hbits x (Finset.mem_range.mp hx), decide_eq_false (Ne.symm hne), Bool.false_or]
        rw [if_pos hfree, if_neg (by rw [hbits b hlt, decide_eq_true rfl]; nofun)] at hcount
        exact hcount }

theorem balloc_enough (h : 0 < sb.freeCount d) : ∃ d' b, plain.balloc sb d = some (d', b) := by
  obtain ⟨b, hb⟩ := Finset.card_pos.mp h
  obtain ⟨hlt, hfree⟩ := Finset.mem_filter.mp hb
  rw [Finset.mem_range] at hlt
  have hsome : ((List.range ((sb.size + (BPB - 1)) / BPB)).findSome? fun k =>
      (sb.ballocIn d (k * BPB)).map fun bi => (k * BPB, bi)).isSome = true := by
    rw [List.findSome?_isSome_iff]
    have hin : (sb.ballocIn d (b / BPB * BPB)).isSome = true := by
      unfold Superblock.ballocIn
      rw [List.find?_isSome]
      refine ⟨b % BPB, List.mem_range.mpr (Nat.mod_lt _ (by decide)), ?_⟩
      have hblock : sb.BBLOCK (b / BPB * BPB) = sb.BBLOCK b := by
        unfold Superblock.BBLOCK
        rw [Nat.mul_div_cancel _ (by decide)]
      have hsum : b / BPB * BPB + b % BPB = b := by
        rw [Nat.mul_comm]
        exact Nat.div_add_mod b BPB
      unfold Superblock.bit at hfree
      rw [hsum, hblock, hfree]
      simp [hlt]
    refine ⟨b / BPB, ?_, ?_⟩
    · rw [List.mem_range]
      have hmul := Nat.div_add_mod b BPB
      unfold BPB BSIZE at *
      omega
    · rw [Option.isSome_map]
      exact hin
  obtain ⟨r, hr⟩ := Option.isSome_iff_exists.mp hsome
  have hloops : (plain.balloc sb d) = plain.ballocFound sb d r.1 r.2 := by
    unfold Log.balloc
    rw [show plain.disk d = d from rfl, hr]
    rfl
  exact ⟨_, _, hloops⟩

/-- Without free blocks `balloc` panics. -/
theorem balloc_none (hmeta : ∀ x, x < sb.dataStart → sb.bit d x = true)
    (h : sb.freeCount d = 0) : plain.balloc sb d = none := by
  cases hrun : plain.balloc sb d with
  | none => rfl
  | some r =>
      have halloc : Alloc sb d r.1 r.2 := Alloc.of_balloc hmeta hrun
      have hcount := halloc.count
      omega

/-! ## Inodes on the disk -/

/-- The fields are small enough for a `struct dinode`. -/
structure Inode.Ok (ip : Inode) : Prop where
  type : ip.type < 65536
  major : ip.major < 65536
  minor : ip.minor < 65536
  nlink : ip.nlink < 65536
  size : ip.size < 4294967296
  addrs : ∀ k, ip.addrs k < 4294967296
  none : ∀ k, NDIRECT < k → ip.addrs k = 0

theorem u16_lt (buf : Bytes) (o : Nat) : u16 buf o < 65536 := by
  have h₀ := (buf o).toNat_lt
  have h₁ := (buf (o + 1)).toNat_lt
  unfold u16
  omega

theorem Inode.get_ok (buf : Bytes) (o : Nat) : (Inode.get buf o).Ok where
  type := u16_lt _ _
  major := u16_lt _ _
  minor := u16_lt _ _
  nlink := u16_lt _ _
  size := u32_lt _ _
  addrs k := by
    show (if k ≤ NDIRECT then _ else 0) < _
    split
    · exact u32_lt _ _
    · decide
  none k hk := if_neg (Nat.not_le_of_lt hk)

theorem Inode.get_congr {buf buf' : Bytes} (h : ∀ j, o ≤ j → j < o + dinodeSize → buf' j = buf j) :
    Inode.get buf' o = Inode.get buf o := by
  have h16 : ∀ r, r + 2 ≤ 64 → u16 buf' (o + r) = u16 buf (o + r) := fun r hr =>
    u16_congr fun i hi => h _ (by omega) (by unfold dinodeSize; omega)
  have h32 : ∀ r, r + 4 ≤ 64 → u32 buf' (o + r) = u32 buf (o + r) := fun r hr =>
    u32_congr fun i hi => h _ (by omega) (by unfold dinodeSize; omega)
  apply Inode.ext
  · exact h16 0 (by decide)
  · exact h16 2 (by decide)
  · exact h16 4 (by decide)
  · exact h16 6 (by decide)
  · exact h32 8 (by decide)
  · funext k
    show (if k ≤ NDIRECT then _ else 0) = if k ≤ NDIRECT then _ else 0
    split
    · rename_i hk
      exact h32 (addrField k) (by unfold addrField NDIRECT at *; omega)
    · rfl

theorem putAddrs_of_ne (addrs : Nat → Nat) (buf : Bytes) (o : Nat) :
    ∀ n, (j < o + 12 ∨ o + addrField n ≤ j) → putAddrs addrs buf o n j = buf j := by
  intro n
  induction n with
  | zero => exact fun _ => rfl
  | succ n ih =>
      intro hj
      unfold addrField at hj ih
      unfold putAddrs
      rw [put32_of_ne (by unfold addrField; omega)]
      exact ih (by omega)

theorem u32_putAddrs {addrs : Nat → Nat} (buf : Bytes) (o : Nat)
    (haddrs : ∀ k, addrs k < 4294967296) :
    ∀ n, k < n → u32 (putAddrs addrs buf o n) (o + addrField k) = addrs k := by
  intro n
  induction n with
  | zero => exact fun hk => absurd hk (Nat.not_lt_zero k)
  | succ n ih =>
      intro hk
      unfold putAddrs
      by_cases hlast : k = n
      · rw [hlast]
        exact u32_put32_self (haddrs n)
      · rw [u32_put32_ne (by unfold addrField; omega)]
        exact ih (by omega)

theorem Inode.put_of_ne (ip : Inode) (buf : Bytes) (hj : j < o ∨ o + dinodeSize ≤ j) :
    ip.put buf o j = buf j := by
  unfold dinodeSize at hj
  unfold Inode.put
  rw [putAddrs_of_ne _ _ _ _ (by unfold addrField NDIRECT; omega),
    put32_of_ne (by unfold sizeField; omega), put16_of_ne (by omega), put16_of_ne (by omega),
    put16_of_ne (by omega), put16_of_ne (by omega)]

/-- A word before `addrs` is not touched by the copy of `addrs`. -/
theorem Inode.get_put {ip : Inode} (h : ip.Ok) (buf : Bytes) (o : Nat) :
    Inode.get (ip.put buf o) o = ip := by
  have hlow : ∀ (b : Bytes) r, r < 12 → putAddrs ip.addrs b o (NDIRECT + 1) (o + r) = b (o + r) :=
    fun b r hr => putAddrs_of_ne _ _ _ _ (by omega)
  have h16 : ∀ (b : Bytes) r, r + 2 ≤ 12 →
      u16 (putAddrs ip.addrs b o (NDIRECT + 1)) (o + r) = u16 b (o + r) := fun b r hr =>
    u16_congr fun i hi => by rw [Nat.add_assoc]; exact hlow b _ (by omega)
  have hself : ∀ (b : Bytes) r v, v < 65536 → u16 (put16 b r v) r = v := fun b r v hv => by
    rw [u16_put16_self, Nat.mod_eq_of_lt hv]
  have hother : ∀ (b : Bytes) r r' v, r' + 2 ≤ r ∨ r + 2 ≤ r' → u16 (put16 b r v) r' = u16 b r' :=
    fun b r r' v hr => u16_congr fun i hi => put16_of_ne (by omega)
  apply Inode.ext
  · show u16 (putAddrs _ _ _ _) (o + 0) = _
    rw [h16 _ 0 (by decide), u16_put32_ne (by unfold sizeField; omega), hother _ _ _ _ (by omega),
      hother _ _ _ _ (by omega), hother _ _ _ _ (by omega)]
    exact hself _ _ _ h.type
  · show u16 (putAddrs _ _ _ _) (o + 2) = _
    rw [h16 _ 2 (by decide), u16_put32_ne (by unfold sizeField; omega), hother _ _ _ _ (by omega),
      hother _ _ _ _ (by omega)]
    exact hself _ _ _ h.major
  · show u16 (putAddrs _ _ _ _) (o + 4) = _
    rw [h16 _ 4 (by decide), u16_put32_ne (by unfold sizeField; omega), hother _ _ _ _ (by omega)]
    exact hself _ _ _ h.minor
  · show u16 (putAddrs _ _ _ _) (o + 6) = _
    rw [h16 _ 6 (by decide), u16_put32_ne (by unfold sizeField; omega)]
    exact hself _ _ _ h.nlink
  · show u32 (putAddrs _ _ _ _) (o + sizeField) = _
    have hsize : ∀ b : Bytes, u32 (putAddrs ip.addrs b o (NDIRECT + 1)) (o + sizeField) =
        u32 b (o + sizeField) := fun b =>
      u32_congr fun i hi => by
        rw [Nat.add_assoc]
        exact hlow b _ (by unfold sizeField; omega)
    rw [hsize]
    exact u32_put32_self h.size
  · funext k
    show (if k ≤ NDIRECT then u32 (putAddrs _ _ _ _) (o + addrField k) else 0) = _
    split
    · rename_i hk
      exact u32_putAddrs _ _ h.addrs _ (Nat.lt_succ_of_le hk)
    · rename_i hk
      exact (h.none k (Nat.lt_of_not_le hk)).symm

theorem load_ok (sb : Superblock) (d : Disk) (i : Nat) : (sb.load d i).Ok := Inode.get_ok _ _

theorem load_congr (h : d' (sb.IBLOCK i) = d (sb.IBLOCK i)) : sb.load d' i = sb.load d i := by
  unfold Superblock.load
  rw [h]

variable {ip : Inode}

theorem load_iupdate (h : ip.Ok) : sb.load (sb.iupdate d i ip) i = ip := by
  unfold Superblock.load Superblock.iupdate
  rw [Function.update_self]
  exact Inode.get_put h _ _

theorem load_iupdate_ne (hij : j ≠ i) : sb.load (sb.iupdate d i ip) j = sb.load d j := by
  unfold Superblock.load Superblock.iupdate
  by_cases hblock : sb.IBLOCK j = sb.IBLOCK i
  · rw [hblock, Function.update_self]
    apply Inode.get_congr
    intro r hr hr'
    apply Inode.put_of_ne
    unfold Superblock.IBLOCK IPB dinodeSize at *
    omega
  · rw [Function.update_of_ne hblock]

theorem iupdate_of_ne (h : x ≠ sb.IBLOCK i) : sb.iupdate d i ip x = d x :=
  Function.update_of_ne h _ _

end OsWork.Ports.FsDisk

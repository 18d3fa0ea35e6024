import OsWork.Ports.FsContent
import OsWork.Verified.SlotMap

/-!
# Directories on the disk

`dirlookup` and `dirlink` of `fs.c` and the removal of an entry in `sys_unlink`, over `readi` and
`writei`.  A directory is an array of slots in its contents; a name is the bytes up to a
terminator, and at most `DIRSIZ` of them.

## Main results

* `Directory.dirlookup` — `dirlookup` scans the slots.
* `Directory.dirlink`, `Directory.erase` — one slot changes, or there is no room for another.
* `directory_map` — a directory is a finite map in every run of links and removals.
-/

namespace OsWork.Ports.FsDisk

open OsWork.Verified.ByteWords OsWork.Verified.SlotMap OsWork.Ports.FsLayout
open Function (update)

/-! ## Strings -/

/-- `strncmp(p, q, n)`. -/
def strncmp : Nat → Bytes → Bytes → Int
  | 0, _, _ => 0
  | n + 1, p, q =>
      if p 0 ≠ 0 ∧ p 0 = q 0 then strncmp n (fun j => p (j + 1)) fun j => q (j + 1)
      else ((p 0).toNat : Int) - (q 0).toNat

/-- The second loop of `strncpy`, from index `k` on. -/
def strncpyZero : Nat → Nat → Bytes → Bytes
  | 0, _, s => s
  | n + 1, k, s => strncpyZero n (k + 1) (update s k 0)

/-- The first loop of `strncpy`, from index `k` on. -/
def strncpyLoop (t : Bytes) : Nat → Nat → Bytes → Bytes
  | 0, _, s => s
  | n + 1, k, s =>
      if t k ≠ 0 then strncpyLoop t n (k + 1) (update s k (t k))
      else strncpyZero n (k + 1) (update s k (t k))

/-- `strncpy(s, t, n)`. -/
def strncpy (s t : Bytes) (n : Nat) : Bytes := strncpyLoop t n 0 s

def namecmp (s t : Bytes) : Int := strncmp DIRSIZ s t

/-- The string at `p`, cut to `n` bytes. -/
def cstr : Nat → Bytes → List UInt8
  | 0, _ => []
  | n + 1, p => if p 0 = 0 then [] else p 0 :: cstr n fun j => p (j + 1)

/-- What a name is compared by. -/
def nameOf (p : Bytes) : List UInt8 := cstr DIRSIZ p

/-! ## The source -/

/-- The panics of the functions on directories; `block` is one in `balloc` or `bmap`. -/
inductive Panic
  | block
  | dirlookupNotDir
  | dirlookupRead
  | dirlinkRead
  | dirlink
  | isdiremptyRead
  | unlinkWritei
  deriving DecidableEq, Repr

/-- `sizeof(struct dirent)` -/
def direntSize : Nat := 16

/-- `de.inum` -/
def inumOf (de : Bytes) : Nat := u16 de 0

/-- `de.name` -/
def entryName (de : Bytes) : Bytes := fun j => de (2 + j)

/-- `strncpy(de.name, name, DIRSIZ); de.inum = inum`; all bytes are stored. -/
def dirent (name : Bytes) (inum : Nat) : Bytes :=
  put16 (fun j => strncpy zeroes name DIRSIZ (j - 2)) 0 inum

namespace Superblock

variable (sb : Superblock) (devsw : Devsw)

/-- `if(readi(dp, (char*)&de, off, sizeof(de)) != sizeof(de)) panic(p)`. -/
def readDirent (p : Panic) (d : Disk) (dp : Inode) (off : Nat) :
    Except Panic (Disk × Inode × Bytes) :=
  match sb.readi devsw d dp off direntSize with
  | none => .error .block
  | some (d, dp, r, buf) => if r = direntSize then .ok (d, dp, bytesOf buf) else .error p

/-- `if(writei(dp, (char*)&de, off, sizeof(de)) != sizeof(de)) panic(p)`. -/
def writeDirent (p : Panic) (d : Disk) (i : Nat) (dp : Inode) (de : Bytes) (off : Nat) :
    Except Panic (Disk × Inode) :=
  match sb.writei devsw d i dp de off direntSize with
  | none => .error .block
  | some (d, dp, r) => if r = direntSize then .ok (d, dp) else .error p

/-- The loop of `dirlookup`, with a bound on its rounds: the inode number and the offset. -/
def lookupLoop (name : Bytes) :
    Nat → Disk → Inode → Nat → Except Panic (Disk × Inode × Option (Nat × Nat))
  | 0, d, dp, _ => .ok (d, dp, none)
  | fuel + 1, d, dp, off =>
      if off < dp.size then
        match sb.readDirent devsw .dirlookupRead d dp off with
        | .error p => .error p
        | .ok (d, dp, de) =>
            if inumOf de = 0 then lookupLoop name fuel d dp (off + direntSize)
            else if namecmp name (entryName de) = 0 then .ok (d, dp, some (inumOf de, off))
            else lookupLoop name fuel d dp (off + direntSize)
      else .ok (d, dp, none)

/-- `dirlookup` up to the `iget`. -/
def dirlookup (d : Disk) (dp : Inode) (name : Bytes) :
    Except Panic (Disk × Inode × Option (Nat × Nat)) :=
  if dp.type ≠ T_DIR then .error .dirlookupNotDir
  else sb.lookupLoop devsw name dp.size d dp 0

/-- The loop of `dirlink`, with a bound on its rounds: the offset. -/
def emptyLoop : Nat → Disk → Inode → Nat → Except Panic (Disk × Inode × Nat)
  | 0, d, dp, off => .ok (d, dp, off)
  | fuel + 1, d, dp, off =>
      if off < dp.size then
        match sb.readDirent devsw .dirlinkRead d dp off with
        | .error p => .error p
        | .ok (d, dp, de) =>
            if inumOf de = 0 then .ok (d, dp, off) else emptyLoop fuel d dp (off + direntSize)
      else .ok (d, dp, off)

/-- `dirlink` after its `dirlookup` has found nothing. -/
def linkEntry (d : Disk) (i : Nat) (dp : Inode) (name : Bytes) (inum : Nat) :
    Except Panic (Disk × Inode × Int) :=
  match sb.emptyLoop devsw dp.size d dp 0 with
  | .error p => .error p
  | .ok (d, dp, off) =>
      match sb.writeDirent devsw .dirlink d i dp (dirent name inum) off with
      | .error p => .error p
      | .ok (d, dp) => .ok (d, dp, 0)

/-- `dirlink` in the directory with inode number `i`, but for the `iput`: the result. -/
def dirlink (d : Disk) (i : Nat) (dp : Inode) (name : Bytes) (inum : Nat) :
    Except Panic (Disk × Inode × Int) :=
  match sb.dirlookup devsw d dp name with
  | .error p => .error p
  | .ok (d, dp, some _) => .ok (d, dp, -1)
  | .ok (d, dp, none) => sb.linkEntry devsw d i dp name inum

/-- The loop of `isdirempty`, with a bound on its rounds. -/
def isdiremptyLoop : Nat → Disk → Inode → Nat → Except Panic (Disk × Inode × Bool)
  | 0, d, dp, _ => .ok (d, dp, true)
  | fuel + 1, d, dp, off =>
      if off < dp.size then
        match sb.readDirent devsw .isdiremptyRead d dp off with
        | .error p => .error p
        | .ok (d, dp, de) =>
            if inumOf de ≠ 0 then .ok (d, dp, false) else isdiremptyLoop fuel d dp (off + direntSize)
      else .ok (d, dp, true)

def isdirempty (d : Disk) (dp : Inode) : Except Panic (Disk × Inode × Bool) :=
  sb.isdiremptyLoop devsw dp.size d dp (2 * direntSize)

/-- `memset(&de, 0, sizeof(de))` and the `writei` of `sys_unlink`. -/
def eraseEntry (d : Disk) (i : Nat) (dp : Inode) (off : Nat) : Except Panic (Disk × Inode) :=
  sb.writeDirent devsw .unlinkWritei d i dp zeroes off

/-- What `sys_unlink` does to the directory: the result. -/
def unlinkEntry (d : Disk) (i : Nat) (dp : Inode) (name : Bytes) :
    Except Panic (Disk × Inode × Int) :=
  -- Cannot unlink "." or "..".
  if namecmp name (bytesOf [0x2E]) = 0 ∨ namecmp name (bytesOf [0x2E, 0x2E]) = 0 then
    .ok (d, dp, -1)
  else
    match sb.dirlookup devsw d dp name with
    | .error p => .error p
    | .ok (d, dp, none) => .ok (d, dp, -1)
    | .ok (d, dp, some (_, off)) =>
        match sb.eraseEntry devsw d i dp off with
        | .error p => .error p
        | .ok (d, dp) => .ok (d, dp, 0)

end Superblock

/-! ## Names -/

variable {p q s t : Bytes} {n k : Nat}

theorem strncmp_eq_zero : ∀ n p q, strncmp n p q = 0 ↔ cstr n p = cstr n q := by
  intro n
  induction n with
  | zero => exact fun p q => iff_of_true rfl rfl
  | succ n ih =>
      intro p q
      unfold strncmp cstr
      by_cases hsame : p 0 = q 0
      · by_cases hzero : p 0 = 0
        · rw [if_neg fun hall => hall.1 hzero, if_pos hzero, if_pos (hsame ▸ hzero), hsame]
          exact iff_of_true (Int.sub_self _) rfl
        · rw [if_pos ⟨hzero, hsame⟩, if_neg hzero, if_neg (hsame ▸ hzero), ih, hsame]
          simp
      · rw [if_neg fun hall => hsame hall.2]
        have hne : ((p 0).toNat : Int) - (q 0).toNat ≠ 0 := by
          intro heq
          apply hsame
          apply UInt8.toNat_inj.mp
          omega
        refine iff_of_false hne ?_
        split
        · rename_i hp
          split
          · rename_i hq
            exact absurd (hp.trans hq.symm) hsame
          · exact nofun
        · split
          · exact nofun
          · exact fun heq => hsame (List.cons.inj heq).1

@[simp] theorem namecmp_eq_zero : namecmp p q = 0 ↔ nameOf p = nameOf q := strncmp_eq_zero _ _ _

theorem strncpyZero_of_lt : ∀ n k s j, j < k → strncpyZero n k s j = s j := by
  intro n
  induction n with
  | zero => exact fun _ _ _ _ => rfl
  | succ n ih =>
      intro k s j hj
      unfold strncpyZero
      rw [ih _ _ _ (by omega), Function.update_of_ne (by omega)]

theorem strncpyLoop_of_lt : ∀ n k s j, j < k → strncpyLoop t n k s j = s j := by
  intro n
  induction n with
  | zero => exact fun _ _ _ _ => rfl
  | succ n ih =>
      intro k s j hj
      unfold strncpyLoop
      split
      · rw [ih _ _ _ (by omega), Function.update_of_ne (by omega)]
      · rw [strncpyZero_of_lt _ _ _ _ (by omega), Function.update_of_ne (by omega)]

theorem cstr_strncpyLoop : ∀ n k s,
    (cstr n fun j => strncpyLoop t n k s (k + j)) = cstr n fun j => t (k + j) := by
  intro n
  induction n with
  | zero => exact fun _ _ => rfl
  | succ n ih =>
      intro k s
      have hcstr : ∀ f : Bytes, (cstr (n + 1) fun j => f (k + j)) =
          if f (k + 0) = 0 then [] else f (k + 0) :: cstr n fun j => f (k + (j + 1)) :=
        fun _ => rfl
      rw [hcstr, hcstr]
      have hfirst : strncpyLoop t (n + 1) k s (k + 0) = t (k + 0) := by
        unfold strncpyLoop
        split
        · rw [strncpyLoop_of_lt _ _ _ _ (by omega)]
          exact Function.update_self _ _ _
        · rw [strncpyZero_of_lt _ _ _ _ (by omega)]
          exact Function.update_self _ _ _
      rw [hfirst]
      by_cases hzero : t (k + 0) = 0
      · rw [if_pos hzero, if_pos hzero]
      · rw [if_neg hzero, if_neg hzero]
        congr 1
        have hrest := ih (k + 1) (update s k (t k))
        have hshift : ∀ f : Bytes, (fun j => f (k + (j + 1))) = fun j => f (k + 1 + j) := by
          intro f
          funext j
          congr 1
          omega
        have hstep : strncpyLoop t (n + 1) k s =
            strncpyLoop t n (k + 1) (update s k (t k)) := if_pos hzero
        rw [hshift, hshift, hstep]
        exact hrest

theorem nameOf_strncpy (s t : Bytes) : nameOf (strncpy s t DIRSIZ) = nameOf t := by
  have h := cstr_strncpyLoop (t := t) DIRSIZ 0 s
  simp only [Nat.zero_add] at h
  exact h

theorem cstr_congr : ∀ n (p q : Bytes), (∀ j, j < n → p j = q j) → cstr n p = cstr n q := by
  intro n
  induction n with
  | zero => exact fun _ _ _ => rfl
  | succ n ih =>
      intro p q h
      unfold cstr
      rw [h 0 (Nat.succ_pos n), ih _ _ fun j hj => h (j + 1) (Nat.succ_lt_succ hj)]

theorem inumOf_dirent (name : Bytes) {inum : Nat} (h : inum < 65536) :
    inumOf (dirent name inum) = inum := by
  unfold inumOf dirent
  rw [u16_put16_self, Nat.mod_eq_of_lt h]

theorem nameOf_dirent (name : Bytes) (inum : Nat) :
    nameOf (entryName (dirent name inum)) = nameOf name := by
  have hname : entryName (dirent name inum) = strncpy zeroes name DIRSIZ := by
    funext j
    unfold entryName dirent
    rw [put16_of_ne (by omega)]
    congr 1
    omega
  rw [hname, nameOf_strncpy]

/-! ## Slots -/

/-- The entry at the offset `off` of a directory. -/
def slotAt (data : Bytes) (off : Nat) : Option (List UInt8 × Nat) :=
  if inumOf (fun j => data (off + j)) = 0 then none
  else some (nameOf (entryName fun j => data (off + j)), inumOf fun j => data (off + j))

/-- The slots of a directory with the contents `data`. -/
def slotsOf (data : List UInt8) : List (Option (List UInt8 × Nat)) :=
  (List.range (data.length / direntSize)).map fun k => slotAt (bytesOf data) (direntSize * k)

theorem slotsOf_length (data : List UInt8) : (slotsOf data).length = data.length / direntSize := by
  unfold slotsOf
  rw [List.length_map, List.length_range]

theorem slotsOf_getElem? {data : List UInt8} (hk : k < data.length / direntSize) :
    (slotsOf data)[k]? = some (slotAt (bytesOf data) (direntSize * k)) := by
  unfold slotsOf
  rw [List.getElem?_map, List.getElem?_range hk]
  rfl

theorem slotAt_congr {a b : Bytes} {off off' : Nat}
    (h : ∀ j, j < direntSize → a (off + j) = b (off' + j)) : slotAt a off = slotAt b off' := by
  have hinum : (inumOf fun j => a (off + j)) = inumOf fun j => b (off' + j) :=
    u16_congr fun i hi => h _ (Nat.lt_of_lt_of_le (Nat.add_lt_add_left hi 0) (by decide))
  have hname : nameOf (entryName fun j => a (off + j)) = nameOf (entryName fun j => b (off' + j)) :=
    cstr_congr _ _ _ fun j hj => h (2 + j) (by unfold DIRSIZ at hj; unfold direntSize; omega)
  unfold slotAt
  rw [hinum, hname]

/-- The bytes after a store. -/
theorem bytesOf_splice {data new : List UInt8} {off j : Nat} (hoff : off ≤ data.length) :
    bytesOf (splice data off new) j =
      if off ≤ j ∧ j < off + new.length then bytesOf new (j - off) else bytesOf data j := by
  unfold bytesOf splice
  have htake : (data.take off).length = off := by
    rw [List.length_take]
    omega
  by_cases hlow : j < off
  · rw [if_neg (by omega), List.append_assoc, List.getD_append _ _ _ _ (by omega)]
    simp only [List.getD_eq_getElem?_getD, List.getElem?_take, if_pos hlow]
  · rw [List.append_assoc, List.getD_append_right _ _ _ _ (by omega), htake]
    by_cases hmid : j < off + new.length
    · rw [if_pos (by omega), List.getD_append _ _ _ _ (by omega)]
    · rw [if_neg (by omega), List.getD_append_right _ _ _ _ (by omega)]
      simp only [List.getD_eq_getElem?_getD, List.getElem?_drop]
      congr 2
      omega

/-- A store of an entry is a store to a slot. -/
theorem slotsOf_splice {data new : List UInt8} (hsize : data.length % direntSize = 0)
    (hnew : new.length = direntSize) (hk : k ≤ data.length / direntSize) :
    slotsOf (splice data (direntSize * k) new) = put (slotsOf data) k (slotAt (bytesOf new) 0) := by
  have hpos : 0 < direntSize := by decide
  have hmul := Nat.div_add_mod data.length direntSize
  have hoff : direntSize * k ≤ data.length := by
    have hle := Nat.mul_le_mul_left direntSize hk
    omega
  have hlen : (splice data (direntSize * k) new).length / direntSize =
      max (data.length / direntSize) (k + 1) := by
    rw [splice_length _ _ hoff, hnew]
    unfold direntSize at *
    omega
  have hput : (put (slotsOf data) k (slotAt (bytesOf new) 0)).length =
      max (data.length / direntSize) (k + 1) := by
    rw [put_length (by rw [slotsOf_length]; exact hk), slotsOf_length]
  apply List.ext_getElem?
  intro j
  by_cases hj : j < max (data.length / direntSize) (k + 1)
  · rw [slotsOf_getElem? (by rw [hlen]; exact hj), put_getElem? (by rw [slotsOf_length]; exact hk)]
    by_cases hjk : j = k
    · rw [if_pos hjk]
      congr 1
      apply slotAt_congr
      intro r hr
      rw [bytesOf_splice hoff, if_pos (by rw [hjk, hnew]; omega)]
      congr 1
      rw [hjk]
      omega
    · rw [if_neg hjk, slotsOf_getElem? (by omega)]
      congr 1
      apply slotAt_congr
      intro r hr
      rw [bytesOf_splice hoff, if_neg]
      unfold direntSize at *
      omega
  · rw [List.getElem?_eq_none (by rw [slotsOf_length, hlen]; omega),
      List.getElem?_eq_none (by rw [hput]; omega)]

/-! ## Directories -/

section Directory

variable {sb : Superblock} {devsw : Devsw} {d d' : Disk} {i j inum off : Nat} {name : Bytes}

/-- The slots of inode `i`. -/
def Superblock.slots (sb : Superblock) (d : Disk) (i : Nat) : List (Option (List UInt8 × Nat)) :=
  slotsOf (sb.contents d i)

/-- Inode `i` is a directory of whole entries. -/
structure IsDir (sb : Superblock) (d : Disk) (i : Nat) : Prop where
  type : (sb.load d i).type = T_DIR
  whole : (sb.load d i).size % direntSize = 0

/-- It is one of a consistent disk, and no two entries in use have the same name. -/
structure Directory (sb : Superblock) (d : Disk) (i : Nat) : Prop extends IsDir sb d i where
  consistent : Consistent sb d
  distinct : Distinct (sb.slots d i)

/-- There is room for another entry: a free one, or one behind the last. -/
def HasRoom (sb : Superblock) (d : Disk) (i : Nat) : Prop :=
  firstFree (sb.slots d i) 0 < (sb.slots d i).length ∨
    (sb.load d i).size + direntSize ≤ MAXFILE * BSIZE ∧
      slotsFor ((sb.load d i).size + direntSize) ≤
        sb.freeCount d + slotsFor (sb.load d i).size

/-- The loops run up to the last entry. -/
theorem IsDir.offset_lt (h : IsDir sb d i) :
    direntSize * k < (sb.load d i).size ↔ k < (sb.load d i).size / direntSize := by
  have hwhole := h.whole
  unfold direntSize at *
  omega

theorem slots_length (sb : Superblock) (d : Disk) (i : Nat) :
    (sb.slots d i).length = (sb.load d i).size / direntSize := by
  unfold Superblock.slots
  rw [slotsOf_length, contents_length]

section Scan

variable (h : Consistent sb d) (hi : i < sb.ninodes) (hdir : IsDir sb d i)

include h hi hdir

variable (devsw) in
/-- An entry is read. -/
theorem readDirent_ok (p : Panic) (hk : k < (sb.load d i).size / direntSize) :
    ∃ de, sb.readDirent devsw p d (sb.load d i) (direntSize * k) = .ok (d, sb.load d i, de) ∧
      (sb.slots d i).drop k = slotAt de 0 :: (sb.slots d i).drop (k + 1) := by
  have hfits := h.fits i hi
  have hbig : MAXFILE * BSIZE < 4294967296 := by decide
  have hsize := contents_length sb d i
  have hwhole := hdir.whole
  have hin : direntSize * k + direntSize ≤ (sb.load d i).size := by
    unfold direntSize at *
    omega
  have hread := h.readi devsw hi (by rw [hdir.type]; decide)
    (show direntSize * k < 4294967296 by omega) (show direntSize < 4294967296 by decide)
  have hresult : readResult (sb.contents d i) (direntSize * k) direntSize =
      (((direntSize : Nat) : Int), ((sb.contents d i).drop (direntSize * k)).take direntSize) := by
    unfold readResult
    rw [if_pos (by omega), hsize, Nat.min_eq_left (by omega)]
  rw [hresult] at hread
  refine ⟨bytesOf (((sb.contents d i).drop (direntSize * k)).take direntSize), ?_, ?_⟩
  · unfold Superblock.readDirent
    rw [hread]
    exact if_pos rfl
  · rw [List.drop_eq_getElem_cons (by rw [slots_length]; exact hk)]
    congr 1
    have hget : (sb.slots d i)[k]? = _ := slotsOf_getElem? (by rw [hsize]; exact hk)
    rw [List.getElem?_eq_getElem (by rw [slots_length]; exact hk), Option.some.injEq] at hget
    rw [hget]
    apply slotAt_congr
    intro r hr
    unfold bytesOf
    simp only [List.getD_eq_getElem?_getD, List.getElem?_take, List.getElem?_drop, Nat.zero_add,
      if_pos hr]

/-- The loop of `dirlookup` scans the slots from `k` on. -/
theorem lookupLoop_eq (devsw : Devsw) (name : Bytes) :
    ∀ fuel k, (sb.load d i).size / direntSize ≤ k + fuel → k ≤ (sb.load d i).size / direntSize →
      sb.lookupLoop devsw name fuel d (sb.load d i) (direntSize * k) =
        .ok (d, sb.load d i, (find (nameOf name) ((sb.slots d i).drop k) k).map fun e =>
          (e.2, direntSize * e.1)) := by
  intro fuel
  induction fuel with
  | zero =>
      intro k hfuel hk
      rw [List.drop_eq_nil_of_le (by rw [slots_length]; omega)]
      rfl
  | succ fuel ih =>
      intro k hfuel hk
      have hlen := slots_length sb d i
      unfold Superblock.lookupLoop
      by_cases hmore : k < (sb.load d i).size / direntSize
      · obtain ⟨de, hread, hdrop⟩ := readDirent_ok devsw h hi hdir .dirlookupRead hmore
        have hnext := ih (k + 1) (by omega) hmore
        have hoff : direntSize * k + direntSize = direntSize * (k + 1) := (Nat.mul_succ _ _).symm
        rw [if_pos (hdir.offset_lt.mpr hmore), hread, hdrop]
        simp only [hoff, hnext]
        unfold slotAt
        simp only [Nat.zero_add]
        by_cases hzero : inumOf de = 0
        · rw [if_pos hzero, if_pos hzero]
          rfl
        · rw [if_neg hzero, if_neg hzero]
          by_cases hname : nameOf name = nameOf (entryName de)
          · rw [if_pos (namecmp_eq_zero.mpr hname)]
            unfold find
            rw [if_pos hname.symm]
            rfl
          · rw [if_neg (mt namecmp_eq_zero.mp hname)]
            conv_rhs => unfold find
            rw [if_neg fun heq => hname heq.symm]
      · rw [if_neg (mt hdir.offset_lt.mp hmore), List.drop_eq_nil_of_le (by omega)]
        rfl

/-- The loop of `dirlink` looks for a free slot from `k` on. -/
theorem emptyLoop_eq (devsw : Devsw) : ∀ fuel k, (sb.load d i).size / direntSize ≤ k + fuel →
    k ≤ (sb.load d i).size / direntSize →
    sb.emptyLoop devsw fuel d (sb.load d i) (direntSize * k) =
      .ok (d, sb.load d i, direntSize * firstFree ((sb.slots d i).drop k) k) := by
  intro fuel
  induction fuel with
  | zero =>
      intro k hfuel hk
      rw [List.drop_eq_nil_of_le (by rw [slots_length]; omega)]
      rfl
  | succ fuel ih =>
      intro k hfuel hk
      have hlen := slots_length sb d i
      unfold Superblock.emptyLoop
      by_cases hmore : k < (sb.load d i).size / direntSize
      · obtain ⟨de, hread, hdrop⟩ := readDirent_ok devsw h hi hdir .dirlinkRead hmore
        have hnext := ih (k + 1) (by omega) hmore
        have hoff : direntSize * k + direntSize = direntSize * (k + 1) := (Nat.mul_succ _ _).symm
        rw [if_pos (hdir.offset_lt.mpr hmore), hread, hdrop]
        simp only [hoff, hnext]
        unfold slotAt
        simp only [Nat.zero_add]
        by_cases hzero : inumOf de = 0
        · rw [if_pos hzero, if_pos hzero]
          rfl
        · rw [if_neg hzero, if_neg hzero]
          rfl
      · rw [if_neg (mt hdir.offset_lt.mp hmore), List.drop_eq_nil_of_le (by omega)]
        rfl

/-- The loop of `isdirempty` looks for an entry from `k` on. -/
theorem isdiremptyLoop_eq (devsw : Devsw) : ∀ fuel k,
    (sb.load d i).size / direntSize ≤ k + fuel →
    sb.isdiremptyLoop devsw fuel d (sb.load d i) (direntSize * k) =
      .ok (d, sb.load d i, ((sb.slots d i).drop k).all Option.isNone) := by
  intro fuel
  induction fuel with
  | zero =>
      intro k hfuel
      rw [List.drop_eq_nil_of_le (by rw [slots_length]; omega)]
      rfl
  | succ fuel ih =>
      intro k hfuel
      have hlen := slots_length sb d i
      unfold Superblock.isdiremptyLoop
      by_cases hmore : k < (sb.load d i).size / direntSize
      · obtain ⟨de, hread, hdrop⟩ := readDirent_ok devsw h hi hdir .isdiremptyRead hmore
        have hnext := ih (k + 1) (by omega)
        have hoff : direntSize * k + direntSize = direntSize * (k + 1) := (Nat.mul_succ _ _).symm
        rw [if_pos (hdir.offset_lt.mpr hmore), hread, hdrop]
        simp only [hoff, hnext, List.all_cons]
        unfold slotAt
        simp only [Nat.zero_add]
        by_cases hzero : inumOf de = 0
        · rw [if_neg (not_not_intro hzero), if_pos hzero]
          rfl
        · rw [if_pos hzero, if_neg hzero]
          rfl
      · rw [if_neg (mt hdir.offset_lt.mp hmore), List.drop_eq_nil_of_le (by omega)]
        rfl

/-- `isdirempty` looks behind the first two entries. -/
theorem isdirempty_eq (devsw : Devsw) :
    sb.isdirempty devsw d (sb.load d i) =
      .ok (d, sb.load d i, ((sb.slots d i).drop 2).all Option.isNone) := by
  have hloop := isdiremptyLoop_eq h hi hdir devsw (sb.load d i).size 2
    (Nat.le_trans (Nat.div_le_self _ _) (Nat.le_add_left _ _))
  unfold Superblock.isdirempty
  rw [Nat.mul_comm]
  exact hloop

/-- `dirlookup` finds the slot of the name. -/
theorem dirlookup_eq (devsw : Devsw) (name : Bytes) :
    sb.dirlookup devsw d (sb.load d i) name =
      .ok (d, sb.load d i, (find (nameOf name) (sb.slots d i) 0).map fun e =>
        (e.2, direntSize * e.1)) := by
  have hloop := lookupLoop_eq h hi hdir devsw name (sb.load d i).size 0
    (by rw [Nat.zero_add]; exact Nat.div_le_self _ _) (Nat.zero_le _)
  unfold Superblock.dirlookup
  rw [if_neg (not_not_intro hdir.type)]
  exact hloop

/-- `dirlink` of a name that is there. -/
theorem dirlink_present (devsw : Devsw) {e : Nat × Nat}
    (hfind : find (nameOf name) (sb.slots d i) 0 = some e) :
    sb.dirlink devsw d i (sb.load d i) name inum = .ok (d, sb.load d i, -1) := by
  unfold Superblock.dirlink
  rw [dirlookup_eq h hi hdir, hfind]
  rfl

variable (hsb : sb.Ok)

include hsb

/-- A slot is written, or there is no room for one behind the last. -/
theorem writeDirent_ok (devsw : Devsw) (p : Panic) (de : Bytes)
    (hk : k ≤ (sb.load d i).size / direntSize) :
    (∃ d', sb.writeDirent devsw p d i (sb.load d i) de (direntSize * k) =
        .ok (d', sb.load d' i) ∧
      Wrote sb d i (splice (sb.contents d i) (direntSize * k) ((List.range direntSize).map de)) d' ∧
      IsDir sb d' i ∧ sb.slots d' i = put (sb.slots d i) k (slotAt de 0)) ∨
    k = (sb.load d i).size / direntSize ∧
      (MAXFILE * BSIZE < (sb.load d i).size + direntSize ∧
        sb.writeDirent devsw p d i (sb.load d i) de (direntSize * k) = .error p ∨
      sb.freeCount d + slotsFor (sb.load d i).size <
          slotsFor ((sb.load d i).size + direntSize) ∧
        (sb.load d i).size + direntSize ≤ MAXFILE * BSIZE ∧
        sb.writeDirent devsw p d i (sb.load d i) de (direntSize * k) = .error .block) := by
  have hfits := h.fits i hi
  have hwhole := hdir.whole
  have hlen := contents_length sb d i
  have hdev : (sb.load d i).type ≠ T_DEV := by
    rw [hdir.type]
    decide
  have hbytes : ((List.range direntSize).map de).length = direntSize := by
    rw [List.length_map, List.length_range]
  have hoff : direntSize * k ≤ (sb.load d i).size := by
    unfold direntSize at *
    omega
  have hlast : (sb.load d i).size < direntSize * k + direntSize →
      k = (sb.load d i).size / direntSize ∧
        direntSize * k + direntSize = (sb.load d i).size + direntSize := by
    intro hlt
    unfold direntSize at *
    omega
  unfold Superblock.writeDirent
  by_cases hmax : direntSize * k + direntSize ≤ MAXFILE * BSIZE
  · rcases h.writei hsb devsw hi hdev hoff hmax de with ⟨d', hrun, hw⟩ | ⟨hrun, hfull⟩
    · left
      rw [hrun]
      refine ⟨d', if_pos rfl, hw, ⟨?_, ?_⟩, ?_⟩
      · rw [hw.fields]
        exact hdir.type
      · rw [hw.fields]
        simp only
        rw [splice_length _ _ (by rw [hlen]; exact hoff), hlen, hbytes]
        unfold direntSize at *
        omega
      · unfold Superblock.slots
        rw [hw.contents, slotsOf_splice (by rw [hlen]; exact hwhole) hbytes (by rw [hlen]; exact hk)]
        have hslot : slotAt (bytesOf ((List.range direntSize).map de)) 0 = slotAt de 0 := by
          apply slotAt_congr
          intro j hj
          unfold bytesOf
          rw [Nat.zero_add, List.getD_eq_getElem?_getD, List.getElem?_map, List.getElem?_range hj]
          rfl
        rw [hslot]
    · right
      have hgrow : (sb.load d i).size < direntSize * k + direntSize := by
        by_contra hle
        rw [Nat.max_eq_left (by omega)] at hfull
        omega
      obtain ⟨hkeq, hend⟩ := hlast hgrow
      rw [Nat.max_eq_right (Nat.le_of_lt hgrow), hend] at hfull
      rw [hrun]
      exact ⟨hkeq, .inr ⟨hfull, by rw [← hend]; exact hmax, rfl⟩⟩
  · right
    obtain ⟨hkeq, hend⟩ := hlast (by omega)
    rw [writei_refused devsw hdev (by unfold MAXFILE BSIZE NDIRECT NINDIRECT at *; omega) (by decide)
      fun hall => hmax hall.2.2]
    exact ⟨hkeq, .inl ⟨by rw [← hend]; omega, rfl⟩⟩

/-- An entry is added in the first free slot, or there is no room. -/
theorem linkEntry_ok (devsw : Devsw) (name : Bytes) (hinum : 1 ≤ inum ∧ inum < 65536) :
    (∃ d', sb.linkEntry devsw d i (sb.load d i) name inum = .ok (d', sb.load d' i, 0) ∧
      HasRoom sb d i ∧
      Wrote sb d i (splice (sb.contents d i) (direntSize * firstFree (sb.slots d i) 0)
        ((List.range direntSize).map (dirent name inum))) d' ∧ IsDir sb d' i ∧
      sb.slots d' i =
        put (sb.slots d i) (firstFree (sb.slots d i) 0) (some (nameOf name, inum))) ∨
    ¬ HasRoom sb d i ∧
      (MAXFILE * BSIZE < (sb.load d i).size + direntSize ∧
        sb.linkEntry devsw d i (sb.load d i) name inum = .error .dirlink ∨
      (sb.load d i).size + direntSize ≤ MAXFILE * BSIZE ∧
        sb.linkEntry devsw d i (sb.load d i) name inum = .error .block) := by
  have hloop := emptyLoop_eq h hi hdir devsw (sb.load d i).size 0
    (by rw [Nat.zero_add]; exact Nat.div_le_self _ _) (Nat.zero_le _)
  rw [Nat.mul_zero, List.drop_zero] at hloop
  have hle := (firstFree_le (sb.slots d i) 0).1
  have hlen := slots_length sb d i
  have hslot : slotAt (dirent name inum) 0 = some (nameOf name, inum) := by
    unfold slotAt
    simp only [Nat.zero_add]
    rw [inumOf_dirent name hinum.2, if_neg (by omega), nameOf_dirent]
  unfold Superblock.linkEntry
  simp only [hloop]
  rcases writeDirent_ok h hi hdir hsb devsw .dirlink (dirent name inum)
    (k := firstFree (sb.slots d i) 0) (by omega) with
    ⟨d', hrun, hw, hdir', hslots⟩ | ⟨hk, hfull⟩
  · left
    rw [hrun]
    refine ⟨d', rfl, ?_, hw, hdir', by rw [hslots, hslot]⟩
    by_cases hlt : firstFree (sb.slots d i) 0 < (sb.slots d i).length
    · exact .inl hlt
    · -- the directory has become longer
      have hwhole := hdir.whole
      have hend : direntSize * firstFree (sb.slots d i) 0 = (sb.load d i).size := by
        have hmul := Nat.div_add_mod (sb.load d i).size direntSize
        have heq : firstFree (sb.slots d i) 0 = (sb.load d i).size / direntSize := by omega
        rw [heq]
        omega
      have hlong : (splice (sb.contents d i) (direntSize * firstFree (sb.slots d i) 0)
          ((List.range direntSize).map (dirent name inum))).length =
            (sb.load d i).size + direntSize := by
        rw [splice_length _ _ (by rw [contents_length, hend]), contents_length, List.length_map,
          List.length_range, hend]
        omega
      have hfits := hw.consistent.fits i hi
      have hcount := hw.count
      rw [hw.fields] at hfits
      simp only [hlong] at hfits hcount
      exact .inr ⟨hfits, by omega⟩
  · right
    constructor
    · rintro (hlt | ⟨hfit, henough⟩)
      · omega
      · omega
    · rcases hfull with ⟨hlong, hrun⟩ | ⟨-, hfit, hrun⟩
      · rw [hrun]
        exact .inl ⟨hlong, rfl⟩
      · rw [hrun]
        exact .inr ⟨hfit, rfl⟩

/-- `dirlink` of a name that is not there. -/
theorem dirlink_absent (devsw : Devsw) (hinum : 1 ≤ inum ∧ inum < 65536)
    (hfind : find (nameOf name) (sb.slots d i) 0 = none) :
    (∃ d', sb.dirlink devsw d i (sb.load d i) name inum = .ok (d', sb.load d' i, 0) ∧
      Wrote sb d i (splice (sb.contents d i) (direntSize * firstFree (sb.slots d i) 0)
        ((List.range direntSize).map (dirent name inum))) d' ∧ IsDir sb d' i ∧
      sb.slots d' i =
        put (sb.slots d i) (firstFree (sb.slots d i) 0) (some (nameOf name, inum))) ∨
    ¬ HasRoom sb d i ∧
      (MAXFILE * BSIZE < (sb.load d i).size + direntSize ∧
        sb.dirlink devsw d i (sb.load d i) name inum = .error .dirlink ∨
      (sb.load d i).size + direntSize ≤ MAXFILE * BSIZE ∧
        sb.dirlink devsw d i (sb.load d i) name inum = .error .block) := by
  have hlink : sb.dirlink devsw d i (sb.load d i) name inum =
      sb.linkEntry devsw d i (sb.load d i) name inum := by
    unfold Superblock.dirlink
    rw [dirlookup_eq h hi hdir, hfind]
    rfl
  rw [hlink]
  rcases linkEntry_ok h hi hdir hsb devsw name hinum with ⟨d', hrun, -, hlinked⟩ | hfull
  · exact .inl ⟨d', hrun, hlinked⟩
  · exact .inr hfull

/-- A slot is freed. -/
theorem eraseEntry_ok (devsw : Devsw) (hk : k < (sb.load d i).size / direntSize) :
    ∃ d', sb.eraseEntry devsw d i (sb.load d i) (direntSize * k) = .ok (d', sb.load d' i) ∧
      Wrote sb d i (splice (sb.contents d i) (direntSize * k)
        ((List.range direntSize).map zeroes)) d' ∧ IsDir sb d' i ∧
      sb.slots d' i = put (sb.slots d i) k none := by
  rcases writeDirent_ok h hi hdir hsb devsw .unlinkWritei zeroes (Nat.le_of_lt hk) with
    ⟨d', hrun, hw, hdir', hslots⟩ | ⟨heq, -⟩
  · exact ⟨d', hrun, hw, hdir', hslots⟩
  · omega

end Scan

/-! ## Runs -/

/-- A call of `dirlink`, or a removal as in `sys_unlink`. -/
inductive DirOp
  | link (name : Bytes) (inum : Nat)
  | unlink (name : Bytes)

/-- The name that it is about. -/
def DirOp.key : DirOp → List UInt8
  | link name _ => nameOf name
  | unlink name => nameOf name

def DirOp.Valid : DirOp → Prop
  | link _ inum => 1 ≤ inum ∧ inum < 65536
  | unlink _ => True

variable (sb) (devsw) in
def DirOp.run (d : Disk) (i : Nat) (dp : Inode) : DirOp → Except Panic (Disk × Inode × Int)
  | link name inum => sb.dirlink devsw d i dp name inum
  | unlink name => sb.unlinkEntry devsw d i dp name

variable (sb) (devsw) in
/-- The operations one after the other: their results. -/
def runOps (i : Nat) : List DirOp → Disk → Inode → Except Panic (Disk × Inode × List Int)
  | [], d, dp => .ok (d, dp, [])
  | op :: ops, d, dp =>
      match op.run sb devsw d i dp with
      | .error p => .error p
      | .ok (d, dp, r) =>
          match runOps i ops d dp with
          | .error p => .error p
          | .ok (d, dp, rs) => .ok (d, dp, r :: rs)

/-- What an operation is to do to a finite map, and its result. -/
def DirOp.spec (m : List UInt8 → Option Nat) : DirOp → (List UInt8 → Option Nat) × Int
  | link name inum =>
      if (m (nameOf name)).isSome then (m, -1) else (update m (nameOf name) (some inum), 0)
  | unlink name =>
      if nameOf name = [0x2E] ∨ nameOf name = [0x2E, 0x2E] ∨ m (nameOf name) = none then (m, -1)
      else (update m (nameOf name) none, 0)

def specOps : List DirOp → (List UInt8 → Option Nat) → (List UInt8 → Option Nat) × List Int
  | [], m => (m, [])
  | op :: ops, m => ((specOps ops (op.spec m).1).1, (op.spec m).2 :: (specOps ops (op.spec m).1).2)

/-- Inode number and slot of a name. -/
def Superblock.entryOf (sb : Superblock) (d : Disk) (i : Nat) (key : List UInt8) :
    Option (Nat × Nat) :=
  find key (sb.slots d i) 0

/-- The finite map that the directory is. -/
def Superblock.mapOf (sb : Superblock) (d : Disk) (i : Nat) (key : List UInt8) : Option Nat :=
  (sb.entryOf d i key).map Prod.snd

variable {op : DirOp} {ops : List DirOp}

/-- What an operation does: its result is that of the map, and the entries of other names have
not changed. -/
structure DirStep (sb : Superblock) (i : Nat) (d : Disk) (op : DirOp) (r : Int) (d' : Disk) :
    Prop where
  directory : Directory sb d' i
  map : sb.mapOf d' i = (op.spec (sb.mapOf d i)).1
  result : r = (op.spec (sb.mapOf d i)).2
  other : ∀ key, key ≠ op.key → sb.entryOf d' i key = sb.entryOf d i key

/-- A link fails because there is no room. -/
def Stuck (sb : Superblock) (i : Nat) (d : Disk) (op : DirOp) : Prop :=
  ∃ name inum, op = .link name inum ∧ sb.mapOf d i (nameOf name) = none ∧ ¬ HasRoom sb d i

theorem mapOf_none {key : List UInt8} : sb.mapOf d i key = none ↔ sb.entryOf d i key = none :=
  Option.map_eq_none_iff

section Step

variable (hsb : sb.Ok) (hi : i < sb.ninodes) (h : Directory sb d i)

include hsb hi h

theorem Directory.link (devsw : Devsw) (hinum : 1 ≤ inum ∧ inum < 65536) :
    (∃ d' r, sb.dirlink devsw d i (sb.load d i) name inum = .ok (d', sb.load d' i, r) ∧
      DirStep sb i d (.link name inum) r d') ∨
    Stuck sb i d (.link name inum) ∧
      ∃ p, sb.dirlink devsw d i (sb.load d i) name inum = .error p := by
  cases hfind : sb.entryOf d i (nameOf name) with
  | some e =>
      left
      have hsome : (sb.mapOf d i (nameOf name)).isSome = true := by
        unfold Superblock.mapOf
        rw [hfind]
        rfl
      have hspec : DirOp.spec (sb.mapOf d i) (.link name inum) = (sb.mapOf d i, -1) :=
        if_pos hsome
      exact ⟨d, -1, dirlink_present h.consistent hi h.toIsDir devsw hfind,
        { directory := h
          map := by rw [hspec]
          result := by rw [hspec]
          other := fun _ _ => rfl }⟩
  | none =>
      have hnone := mapOf_none.mpr hfind
      rcases dirlink_absent h.consistent hi h.toIsDir hsb devsw hinum hfind with
        ⟨d', hrun, hw, hdir, hslots⟩ | ⟨hroom, hpanic⟩
      · left
        have hle := (firstFree_le (sb.slots d i) 0).1
        rw [Nat.zero_add] at hle
        have hfree := firstFree_free (sb.slots d i) 0
        rw [Nat.sub_zero] at hfree
        have hentry : ∀ key, sb.entryOf d' i key =
            if key = nameOf name then some (firstFree (sb.slots d i) 0, inum)
            else sb.entryOf d i key := by
          intro key
          unfold Superblock.entryOf
          rw [hslots]
          exact find_insert h.distinct hle hfind hfree
        have hspec : DirOp.spec (sb.mapOf d i) (.link name inum) =
            (update (sb.mapOf d i) (nameOf name) (some inum), 0) :=
          if_neg (by rw [hnone]; nofun)
        refine ⟨d', 0, hrun, ?_⟩
        exact
          { directory :=
              { hdir with
                consistent := hw.consistent
                distinct := by
                  rw [hslots]
                  exact distinct_insert h.distinct hle hfind }
            map := by
              rw [hspec]
              funext key
              unfold Superblock.mapOf
              rw [hentry]
              by_cases hkey : key = nameOf name
              · rw [if_pos hkey, hkey]
                simp
              · rw [if_neg hkey]
                simp [Function.update_of_ne hkey]
            result := by rw [hspec]
            other := fun key hkey => (hentry key).trans (if_neg hkey) }
      · right
        refine ⟨⟨name, inum, rfl, hnone, hroom⟩, ?_⟩
        rcases hpanic with ⟨-, hrun⟩ | ⟨-, hrun⟩
        · exact ⟨_, hrun⟩
        · exact ⟨_, hrun⟩

theorem Directory.unlink (devsw : Devsw) :
    ∃ d' r, sb.unlinkEntry devsw d i (sb.load d i) name = .ok (d', sb.load d' i, r) ∧
      DirStep sb i d (.unlink name) r d' := by
  have hdot : nameOf (bytesOf [0x2E]) = [0x2E] := rfl
  have hdotdot : nameOf (bytesOf [0x2E, 0x2E]) = [0x2E, 0x2E] := rfl
  have hstay : ∀ {r : Int}, sb.unlinkEntry devsw d i (sb.load d i) name =
      .ok (d, sb.load d i, r) → DirOp.spec (sb.mapOf d i) (.unlink name) = (sb.mapOf d i, r) →
      ∃ d' r, sb.unlinkEntry devsw d i (sb.load d i) name = .ok (d', sb.load d' i, r) ∧
        DirStep sb i d (.unlink name) r d' := fun hrun hspec =>
    ⟨d, _, hrun,
      { directory := h
        map := by rw [hspec]
        result := by rw [hspec]
        other := fun _ _ => rfl }⟩
  have hcmp : namecmp name (bytesOf [0x2E]) = 0 ∨ namecmp name (bytesOf [0x2E, 0x2E]) = 0 ↔
      nameOf name = [0x2E] ∨ nameOf name = [0x2E, 0x2E] := by
    rw [namecmp_eq_zero, namecmp_eq_zero, hdot, hdotdot]
  by_cases hdots : nameOf name = [0x2E] ∨ nameOf name = [0x2E, 0x2E]
  · apply hstay (r := -1)
    · exact if_pos (hcmp.mpr hdots)
    · exact if_pos (hdots.elim .inl fun heq => .inr (.inl heq))
  have hrun : sb.unlinkEntry devsw d i (sb.load d i) name = _ := if_neg (mt hcmp.mp hdots)
  rw [dirlookup_eq h.consistent hi h.toIsDir] at hrun
  cases hfind : sb.entryOf d i (nameOf name) with
  | none =>
      unfold Superblock.entryOf at hfind
      rw [hfind] at hrun
      exact hstay hrun (if_pos (.inr (.inr (mapOf_none.mpr hfind))))
  | some e =>
      obtain ⟨k, inum⟩ := e
      have hget := (find_eq_some h.distinct).mp hfind
      have hk : k < (sb.slots d i).length := (List.getElem?_eq_some_iff.mp hget).1
      obtain ⟨d', herase, hw, hdir, hslots⟩ := eraseEntry_ok h.consistent hi h.toIsDir hsb devsw
        (by rw [← slots_length]; exact hk)
      have hentry : ∀ key, sb.entryOf d' i key =
          if key = nameOf name then none else sb.entryOf d i key := by
        intro key
        unfold Superblock.entryOf
        rw [hslots]
        exact find_erase h.distinct (Nat.le_of_lt hk) hget
      have hspec : DirOp.spec (sb.mapOf d i) (.unlink name) =
          (update (sb.mapOf d i) (nameOf name) none, 0) := by
        apply if_neg
        rintro (hname | hname | hnone)
        · exact hdots (.inl hname)
        · exact hdots (.inr hname)
        · rw [mapOf_none, hfind] at hnone
          cases hnone
      unfold Superblock.entryOf at hfind
      rw [hfind] at hrun
      simp only [Option.map_some, herase] at hrun
      refine ⟨d', 0, hrun, ?_⟩
      exact
        { directory :=
            { hdir with
              consistent := hw.consistent
              distinct := by
                rw [hslots]
                exact distinct_erase h.distinct (Nat.le_of_lt hk) }
          map := by
            rw [hspec]
            funext key
            unfold Superblock.mapOf
            rw [hentry]
            by_cases hkey : key = nameOf name
            · rw [if_pos hkey, hkey]
              simp
            · rw [if_neg hkey]
              simp [Function.update_of_ne hkey]
          result := by rw [hspec]
          other := fun key hkey => (hentry key).trans (if_neg hkey) }

/-- One operation. -/
theorem Directory.step (devsw : Devsw) (hop : op.Valid) :
    (∃ d' r, op.run sb devsw d i (sb.load d i) = .ok (d', sb.load d' i, r) ∧
      DirStep sb i d op r d') ∨
    Stuck sb i d op ∧ ∃ p, op.run sb devsw d i (sb.load d i) = .error p := by
  cases op with
  | link name inum => exact h.link hsb hi devsw hop
  | unlink name => exact .inl (h.unlink hsb hi devsw)

end Step

/-- A directory is a finite map: in every run, up to a link for which there is no room. -/
theorem directory_map (sb : Superblock) (devsw : Devsw) (i : Nat) (hsb : sb.Ok)
    (hi : i < sb.ninodes) (ops : List DirOp) (hops : ∀ op ∈ ops, op.Valid) (d : Disk)
    (h : Directory sb d i) :
    (∃ d', runOps sb devsw i ops d (sb.load d i) =
        .ok (d', sb.load d' i, (specOps ops (sb.mapOf d i)).2) ∧
      Directory sb d' i ∧
      (∀ key, (∀ op ∈ ops, op.key ≠ key) → sb.entryOf d' i key = sb.entryOf d i key) ∧
      ∀ name, ∃ r, sb.dirlookup devsw d' (sb.load d' i) name = .ok (d', sb.load d' i, r) ∧
        r.map Prod.fst = (specOps ops (sb.mapOf d i)).1 (nameOf name) ∧
        ∀ inum off, r = some (inum, off) →
          slotAt (bytesOf (sb.contents d' i)) off = some (nameOf name, inum)) ∨
    ∃ pre op post d', ops = pre ++ op :: post ∧
      runOps sb devsw i pre d (sb.load d i) =
        .ok (d', sb.load d' i, (specOps pre (sb.mapOf d i)).2) ∧ Directory sb d' i ∧
      Stuck sb i d' op ∧ sb.mapOf d' i = (specOps pre (sb.mapOf d i)).1 := by
  induction ops generalizing d with
  | nil =>
      left
      refine ⟨d, rfl, h, fun _ _ => rfl, fun name => ?_⟩
      refine ⟨_, dirlookup_eq h.consistent hi h.toIsDir devsw name, ?_, ?_⟩
      · rw [Option.map_map]
        rfl
      · intro inum off heq
        obtain ⟨⟨k, v⟩, hfind, hpair⟩ := Option.map_eq_some_iff.mp heq
        simp only [Prod.mk.injEq] at hpair
        obtain ⟨rfl, rfl⟩ := hpair
        have hget := (find_eq_some h.distinct).mp hfind
        have hk := (List.getElem?_eq_some_iff.mp hget).1
        unfold Superblock.slots at hget hk
        rw [slotsOf_length] at hk
        rw [slotsOf_getElem? hk, Option.some.injEq] at hget
        exact hget
  | cons op ops ih =>
      rcases h.step hsb hi devsw (hops op List.mem_cons_self) with
        ⟨d₁, r, hrun, hstep⟩ | ⟨hstuck, -⟩
      · have hrest := ih (fun op' hop => hops op' (List.mem_cons_of_mem op hop)) d₁ hstep.directory
        rw [hstep.map] at hrest
        have hcons : ∀ {ops' : List DirOp} {d' : Disk} {rs : List Int},
            runOps sb devsw i ops' d₁ (sb.load d₁ i) = .ok (d', sb.load d' i, rs) →
            runOps sb devsw i (op :: ops') d (sb.load d i) = .ok (d', sb.load d' i, r :: rs) := by
          intro ops' d' rs hrun'
          unfold runOps
          rw [hrun]
          simp only [hrun']
        rcases hrest with ⟨d', hrun', hdir, hother, hlookup⟩ |
          ⟨pre, op', post, d', rfl, hrun', hstuck⟩
        · left
          refine ⟨d', ?_, hdir, ?_, hlookup⟩
          · rw [hcons hrun', hstep.result]
            rfl
          · intro key hkey
            rw [hother key fun op' hop => hkey op' (List.mem_cons_of_mem op hop),
              hstep.other key (hkey op List.mem_cons_self).symm]
        · right
          refine ⟨op :: pre, op', post, d', rfl, ?_, hstuck⟩
          rw [hcons hrun', hstep.result]
          rfl
      · exact .inr ⟨[], op, ops, d, rfl, rfl, h, hstuck, rfl⟩

end Directory

/-! ## A small directory -/

theorem smallDisk_slots : smallSuperblock.slots smallDisk 1 = [] := by
  unfold Superblock.slots slotsOf
  rw [contents_length, (smallDisk_load (by decide)).1]
  rfl

theorem smallDisk_directory : Directory smallSuperblock smallDisk 1 where
  type := by decide
  whole := by
    rw [(smallDisk_load (by decide)).1]
    rfl
  consistent := smallDisk_consistent
  distinct := by
    rw [smallDisk_slots]
    nofun

theorem smallDisk_map (name : List UInt8) :
    smallSuperblock.mapOf smallDisk 1 name = none := by
  unfold Superblock.mapOf Superblock.entryOf
  rw [smallDisk_slots]
  rfl

/-- A name is linked, linked once more and looked up. -/
theorem smallDisk_links : ∃ d',
    runOps smallSuperblock noDevices 1 [.link (bytesOf [0x61]) 5, .link (bytesOf [0x61]) 6]
        smallDisk (smallSuperblock.load smallDisk 1) =
      .ok (d', smallSuperblock.load d' 1, [0, -1]) ∧
      ∃ off, smallSuperblock.dirlookup noDevices d' (smallSuperblock.load d' 1) (bytesOf [0x61]) =
        .ok (d', smallSuperblock.load d' 1, some (5, off)) := by
  have hspec : ∀ m : List UInt8 → Option Nat, m [0x61] = none →
      specOps [.link (bytesOf [0x61]) 5, .link (bytesOf [0x61]) 6] m =
        (update m [0x61] (some 5), [0, -1]) := by
    intro m hm
    have hname : nameOf (bytesOf [0x61]) = [0x61] := rfl
    simp [specOps, DirOp.spec, hname, hm]
  rcases directory_map smallSuperblock noDevices 1 smallSuperblock_ok (by decide)
    [.link (bytesOf [0x61]) 5, .link (bytesOf [0x61]) 6] (by simp [DirOp.Valid]) smallDisk
    smallDisk_directory with ⟨d', hrun, -, -, hlookup⟩ |
      ⟨pre, op, post, d', hops, hrun, -, hstuck, hmap⟩
  · rw [hspec _ (smallDisk_map _)] at hrun hlookup
    obtain ⟨r, hlook, hfst, -⟩ := hlookup (bytesOf [0x61])
    have hfive : r.map Prod.fst = some 5 := hfst
    obtain ⟨⟨inum, off⟩, rfl, rfl⟩ := Option.map_eq_some_iff.mp hfive
    exact ⟨d', hrun, off, hlook⟩
  · exfalso
    obtain ⟨name, inum, rfl, hnone, hroom⟩ := hstuck
    cases pre with
    | nil =>
        cases hrun
        apply hroom
        right
        rw [(smallDisk_load (by decide)).1, smallDisk_free]
        decide
    | cons first pre =>
        cases pre with
        | nil =>
            simp only [List.cons_append, List.nil_append, List.cons.injEq, DirOp.link.injEq] at hops
            obtain ⟨rfl, ⟨rfl, -⟩, -⟩ := hops
            rw [hmap] at hnone
            simp [specOps, DirOp.spec, smallDisk_map] at hnone
        | cons second pre =>
            simp at hops

end OsWork.Ports.FsDisk

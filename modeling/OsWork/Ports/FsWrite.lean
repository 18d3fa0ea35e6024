import OsWork.Ports.FsContent

/-!
# `filewrite`

`filewrite` of `file.c` for a file of type `FD_INODE`.  It cuts a write into transactions of at
most 1536 bytes, and each advances the offset; `writei` may refuse one at the maximum file size
after others have been committed.

## Main results

* `Consistent.filewriteLoop` — how the loop ends.
* `filewrite_allOrNothing` — exactly when a write is all or nothing.
-/

namespace OsWork.Ports.FsDisk

open OsWork.Verified.ByteWords OsWork.Ports.FsLayout

/-! ## The source -/

def MAXOPBLOCKS : Nat := 10

/-- `max` in `filewrite`. -/
def writeMax : Nat := (MAXOPBLOCKS - 1 - 1 - 2) / 2 * 512

/-- A `struct file` of type `FD_INODE`; `inum` is `ip->inum`. -/
@[ext] structure File where
  writable : Bool
  inum : Nat
  off : Nat

namespace Superblock

variable (sb : Superblock)

/-- The loop of `filewrite` from `i` on, with a bound on its rounds: the disk, the inode, the
file and the result. -/
def filewriteLoop (devsw : Devsw) (addr : Bytes) (n : Nat) :
    Nat → Nat → Disk → Inode → File → Option (Disk × Inode × File × Int)
  | 0, _, _, _, _ => none
  | fuel + 1, i, d, ip, f =>
      if i < n then
        let n1 := min (n - i) writeMax
        (sb.writei devsw d f.inum ip (fun j => addr (i + j)) f.off n1).bind fun r =>
          let f := if 0 < r.2.2 then { f with off := (f.off + r.2.2.toNat) % 4294967296 } else f
          if r.2.2 < 0 then some (r.1, r.2.1, f, -1)
          else if r.2.2 ≠ n1 then none
          else filewriteLoop devsw addr n fuel (i + n1) r.1 r.2.1 f
      else some (d, ip, f, n)

/-- `filewrite` of `n ≥ 0` bytes, with the inode `ip` of the file. -/
def filewrite (devsw : Devsw) (d : Disk) (ip : Inode) (f : File) (addr : Bytes) (n : Nat) :
    Option (Disk × Inode × File × Int) :=
  if f.writable = false then some (d, ip, f, -1)
  else sb.filewriteLoop devsw addr n (n + 1) 0 d ip f

end Superblock

/-! ## All or nothing -/

/-- All bytes have been stored and the offset has been advanced, or nothing has happened. -/
def AllOrNothing (sb : Superblock) (devsw : Devsw) (d : Disk) (f : File) (addr : Bytes) (n : Nat) :
    Prop :=
  ∃ d' f' r, sb.filewrite devsw d (sb.load d f.inum) f addr n =
      some (d', sb.load d' f.inum, f', r) ∧
    (r = n ∧ f' = { f with off := f.off + n } ∧
        sb.contents d' f.inum = splice (sb.contents d f.inum) f.off ((List.range n).map addr) ∨
      r = -1 ∧ f' = f ∧ sb.contents d' f.inum = sb.contents d f.inum)

variable {sb : Superblock} {d d' d₁ : Disk} {i k n off : Nat} {data data' : List UInt8} {f : File}
  {addr : Bytes}

theorem Wrote.trans (h : Wrote sb d i data d₁) (h' : Wrote sb d₁ i data' d') :
    Wrote sb d i data' d' where
  consistent := h'.consistent
  contents := h'.contents
  fields := by
    rw [h'.fields, h.fields]
  other j hj hji :=
    ⟨(h'.other j hj hji).1.trans (h.other j hj hji).1,
      (h'.other j hj hji).2.trans (h.other j hj hji).2⟩
  count := by
    have hcount := h.count
    have hcount' := h'.count
    rw [h.fields] at hcount'
    simp only at hcount'
    omega

theorem Consistent.wrote (h : Consistent sb d) (i : Nat) : Wrote sb d i (sb.contents d i) d where
  consistent := h
  contents := rfl
  fields := by rw [contents_length]
  other _ _ _ := ⟨rfl, rfl⟩
  count := by rw [contents_length]

/-- Two pieces are one. -/
theorem splice_splice (data a b : List UInt8) (h : off ≤ data.length) :
    splice (splice data off a) (off + a.length) b = splice data off (a ++ b) := by
  unfold splice
  have htake : (data.take off).length = off := by
    rw [List.length_take]
    omega
  have hfront : (data.take off ++ a).length = off + a.length := by
    rw [List.length_append, htake]
  have hfirst : (data.take off ++ a ++ data.drop (off + a.length)).take (off + a.length) =
      data.take off ++ a := List.take_left' hfront
  have hlast : (data.take off ++ a ++ data.drop (off + a.length)).drop
      (off + a.length + b.length) = data.drop (off + (a ++ b).length) := by
    rw [← List.drop_drop, List.drop_left' hfront, List.drop_drop, List.length_append,
      Nat.add_assoc]
  rw [hfirst, hlast, List.append_assoc (data.take off)]

theorem splice_nil (data : List UInt8) (off : Nat) : splice data off [] = data := by
  unfold splice
  rw [List.append_nil, List.length_nil, Nat.add_zero, List.take_append_drop]

/-- The bytes from `i` on are those of the next `m` and the rest. -/
theorem bytes_split {m : Nat} (hm : m ≤ n - i) :
    (List.range (n - i)).map (fun j => addr (i + j)) =
      (List.range m).map (fun j => addr (i + j)) ++
        (List.range (n - (i + m))).map fun j => addr (i + m + j) := by
  have hsum : n - i = m + (n - (i + m)) := by omega
  rw [hsum, List.range_add, List.map_append, List.map_map]
  congr 1
  apply List.map_congr_left
  intro j _
  show addr (i + (m + j)) = _
  rw [Nat.add_assoc]

/-! ## The loop -/

section Loop

variable (sb) (devsw : Devsw) (addr)

/-- The loop has stored the last `m` bytes. -/
def Stored (d : Disk) (f : File) (n m : Nat) (new : List UInt8)
    (r : Option (Disk × Inode × File × Int)) : Prop :=
  ∃ d', r = some (d', sb.load d' f.inum, { f with off := f.off + m }, (n : Int)) ∧
    Wrote sb d f.inum (splice (sb.contents d f.inum) f.off new) d' ∧
    f.off + m ≤ MAXFILE * BSIZE

/-- `writei` has refused bytes, after it has stored `k`. -/
def Refused (d : Disk) (f : File) (m : Nat) (r : Option (Disk × Inode × File × Int)) : Prop :=
  ∃ d' k, r = some (d', sb.load d' f.inum, { f with off := f.off + k }, (-1 : Int)) ∧
    MAXFILE * BSIZE < f.off + m ∧
    (k = 0 ↔ MAXFILE * BSIZE < f.off + min m writeMax) ∧ (k = 0 → d' = d)

/-- There was no block for some of the bytes. -/
def Full (d : Disk) (f : File) (m : Nat) (r : Option (Disk × Inode × File × Int)) : Prop :=
  r = none ∧ f.off + min m writeMax ≤ MAXFILE * BSIZE ∧
    sb.freeCount d + slotsFor (sb.load d f.inum).size <
      slotsFor (max (sb.load d f.inum).size (min (f.off + m) (MAXFILE * BSIZE)))

theorem max_min_step {size off m k cap : Nat} (hfit : off + m ≤ cap) :
    max (max size (off + m)) (min (off + m + k) cap) = max size (min (off + (m + k)) cap) := by
  rw [max_assoc, max_eq_right (le_min (Nat.le_add_right _ _) hfit), Nat.add_assoc]

/-- How the loop of `filewrite` ends. -/
theorem Consistent.filewriteLoop (hsb : sb.Ok) (hi : f.inum < sb.ninodes)
    (hn : n < 2147483648) : ∀ (fuel i off : Nat) {d : Disk}, Consistent sb d →
      (sb.load d f.inum).type ≠ T_DEV → off ≤ (sb.load d f.inum).size → i ≤ n → n - i < fuel →
      Stored sb d { f with off := off } n (n - i)
          ((List.range (n - i)).map fun j => addr (i + j))
          (sb.filewriteLoop devsw addr n fuel i d (sb.load d f.inum) { f with off := off }) ∨
        Refused sb d { f with off := off } (n - i)
          (sb.filewriteLoop devsw addr n fuel i d (sb.load d f.inum) { f with off := off }) ∨
        Full sb d { f with off := off } (n - i)
          (sb.filewriteLoop devsw addr n fuel i d (sb.load d f.inum) { f with off := off }) := by
  intro fuel
  induction fuel with
  | zero =>
      intro i off d _ _ _ _ hfuel
      omega
  | succ fuel ih =>
      intro i off d h hdev hoff hin hfuel
      have hfits := h.fits f.inum hi
      have hmaxpos : 0 < writeMax := by decide
      unfold Superblock.filewriteLoop
      by_cases hmore : i < n
      swap
      · left
        have hzero : n - i = 0 := by omega
        rw [if_neg hmore, hzero]
        refine ⟨d, rfl, ?_, by simp only; omega⟩
        simp only [List.range_zero, List.map_nil, splice_nil]
        exact h.wrote f.inum
      rw [if_pos hmore]
      obtain ⟨m, hm⟩ : ∃ m, m = min (n - i) writeMax := ⟨_, rfl⟩
      have hbig : MAXFILE * BSIZE < 4294967296 := by decide
      simp only [← hm]
      by_cases hfit : off + m ≤ MAXFILE * BSIZE
      swap
      · right
        left
        rw [writei_refused devsw hdev (by omega) (by unfold writeMax MAXOPBLOCKS at hm; omega)
          fun hall => hfit hall.2.2]
        refine ⟨d, 0, rfl, ?_, ?_, fun _ => rfl⟩
        · simp only
          omega
        · simp only [← hm, true_iff]
          omega
      rcases h.writei hsb devsw hi hdev hoff hfit fun j => addr (i + j) with
        ⟨d₁, hrun, hw⟩ | ⟨hrun, hfull⟩
      · have hlen : ((List.range m).map fun j => addr (i + j)).length = m := by
          rw [List.length_map, List.length_range]
        have hsize : (sb.load d₁ f.inum).size = max (sb.load d f.inum).size (off + m) := by
          rw [hw.fields]
          simp only
          rw [splice_length _ _ (by rw [contents_length]; exact hoff), contents_length, hlen]
        have htype : (sb.load d₁ f.inum).type ≠ T_DEV := by
          rw [hw.fields]
          exact hdev
        have hcount := hw.count
        rw [splice_length _ _ (by rw [contents_length]; exact hoff), contents_length, hlen]
          at hcount
        have hrest := ih (i + m) (off + m) hw.consistent htype (by omega) (by omega)
          (by omega)
        have hpos : (0 : Int) < (m : Int) := by omega
        have hmod : (off + ((m : Nat) : Int).toNat) % 4294967296 = off + m := by
          rw [Int.toNat_natCast]
          exact Nat.mod_eq_of_lt (by omega)
        have hsub : n - (i + m) = n - i - m := by omega
        rw [hrun, Option.bind_some]
        simp only [if_pos hpos, hmod, if_neg (not_lt.mpr (Int.le_of_lt hpos)), ne_eq,
          not_true_eq_false, if_false]
        rcases hrest with ⟨d', hrun', hw', hmax⟩ | ⟨d', k, hrun', hmax, -, -⟩ | ⟨hrun', hmax, hfull⟩
        · left
          simp only at hmax hw'
          refine ⟨d', ?_, ?_, ?_⟩
          · rw [hrun']
            simp only
            congr 5
            omega
          · simp only
            rw [bytes_split (show m ≤ n - i by omega),
              ← splice_splice _ _ _ (by rw [contents_length]; exact hoff), hlen]
            rw [hw.contents] at hw'
            exact hw.trans hw'
          · simp only
            omega
        · right
          left
          simp only at hmax
          refine ⟨d', m + k, ?_, ?_, ?_, ?_⟩
          · rw [hrun']
            simp only
            rw [Nat.add_assoc]
          · simp only
            omega
          · simp only [← hm]
            omega
          · omega
        · right
          right
          simp only [hsize] at hmax hfull
          refine ⟨hrun', ?_, ?_⟩
          · simp only [← hm]
            exact hfit
          · simp only
            have hleft : n - i = m + (n - (i + m)) := by
              clear * - hm
              omega
            rw [max_min_step hfit, ← hleft] at hfull
            clear * - hfull hcount
            omega
      · right
        right
        rw [hrun, Option.bind_none]
        refine ⟨rfl, ?_, ?_⟩
        · simp only [← hm]
          exact hfit
        · simp only
          have hmono : slotsFor (max (sb.load d f.inum).size (off + m)) ≤
              slotsFor (max (sb.load d f.inum).size (min (off + (n - i)) (MAXFILE * BSIZE))) :=
            slotsFor_mono (by omega)
          omega

end Loop

/-! ## Every write -/

theorem filewrite_writable {devsw : Devsw} {ip : Inode} (h : f.writable = true) :
    sb.filewrite devsw d ip f addr n = sb.filewriteLoop devsw addr n (n + 1) 0 d ip f :=
  if_neg (by rw [h]; nofun)

theorem Stored.allOrNothing (devsw : Devsw) (hwritable : f.writable = true)
    (h : Stored sb d f n n ((List.range n).map addr)
      (sb.filewriteLoop devsw addr n (n + 1) 0 d (sb.load d f.inum) f)) :
    AllOrNothing sb devsw d f addr n := by
  obtain ⟨d', hrun, hw, -⟩ := h
  refine ⟨d', _, _, ?_, .inl ⟨rfl, rfl, hw.contents⟩⟩
  rw [filewrite_writable hwritable]
  exact hrun

/-- What the loop of `filewrite` does with `n` bytes. -/
theorem Consistent.filewrite (h : Consistent sb d) (hsb : sb.Ok) (devsw : Devsw) (addr : Bytes)
    (hi : f.inum < sb.ninodes) (hdev : (sb.load d f.inum).type ≠ T_DEV)
    (hoff : f.off ≤ (sb.load d f.inum).size) (hn : n < 2147483648) :
    Stored sb d f n n ((List.range n).map addr)
        (sb.filewriteLoop devsw addr n (n + 1) 0 d (sb.load d f.inum) f) ∨
      Refused sb d f n (sb.filewriteLoop devsw addr n (n + 1) 0 d (sb.load d f.inum) f) ∨
      Full sb d f n (sb.filewriteLoop devsw addr n (n + 1) 0 d (sb.load d f.inum) f) := by
  have hend := Consistent.filewriteLoop sb addr devsw hsb hi hn (n + 1) 0 f.off h hdev hoff
    (Nat.zero_le n) (Nat.lt_succ_self n)
  have hbytes : (List.range n).map (fun j => addr (0 + j)) = (List.range n).map addr := by
    apply List.map_congr_left
    intro j _
    rw [Nat.zero_add]
  rw [Nat.sub_zero, hbytes] at hend
  exact hend

/-- When a later transaction is refused, -1 is returned and the offset has changed. -/
theorem Consistent.filewrite_short (h : Consistent sb d) (hsb : sb.Ok) (devsw : Devsw)
    (hi : f.inum < sb.ninodes) (hdev : (sb.load d f.inum).type ≠ T_DEV)
    (hoff : f.off ≤ (sb.load d f.inum).size) (hn : n < 2147483648) (hwritable : f.writable = true)
    (hfirst : f.off + min n writeMax ≤ MAXFILE * BSIZE)
    (hbad : ¬ (f.off + n ≤ MAXFILE * BSIZE ∧
      slotsFor (max (sb.load d f.inum).size (f.off + n)) ≤
        sb.freeCount d + slotsFor (sb.load d f.inum).size)) :
    ¬ AllOrNothing sb devsw d f addr n := by
  rintro ⟨d', f', r, hrun, hres⟩
  rw [filewrite_writable hwritable] at hrun
  rcases h.filewrite hsb devsw addr hi hdev hoff hn with
    ⟨d₁, -, hw, hmax⟩ | ⟨d₁, k, hend, hmax, hk, -⟩ | ⟨hend, -, -⟩
  · apply hbad
    refine ⟨hmax, ?_⟩
    have hcount := hw.count
    rw [splice_length _ _ (by rw [contents_length]; exact hoff), contents_length, List.length_map,
      List.length_range] at hcount
    omega
  · rw [hrun] at hend
    simp only [Option.some.injEq, Prod.mk.injEq] at hend
    obtain ⟨-, -, hf, hr⟩ := hend
    rcases hres with ⟨hr', -⟩ | ⟨-, hf', -⟩
    · omega
    · rw [hf'] at hf
      have hoff' := congrArg File.off hf
      simp only at hoff'
      omega
  · rw [hrun] at hend
    cases hend

/-- A write is all or nothing exactly when there is nothing to write, or the first transaction
is refused, or all bytes fit into the file and on the disk. -/
theorem filewrite_allOrNothing (sb : Superblock) (devsw : Devsw) (d : Disk) (f : File)
    (addr : Bytes) (n : Nat) (hsb : sb.Ok) (h : Consistent sb d) (hi : f.inum < sb.ninodes)
    (hfile : (sb.load d f.inum).type = T_FILE) (hoff : f.off < 4294967296)
    (hn : n < 2147483648) :
    AllOrNothing sb devsw d f addr n ↔
      f.writable = false ∨ n = 0 ∨ (sb.load d f.inum).size < f.off ∨
        MAXFILE * BSIZE < f.off + min n writeMax ∨
        f.off + n ≤ MAXFILE * BSIZE ∧
          slotsFor (max (sb.load d f.inum).size (f.off + n)) ≤
            sb.freeCount d + slotsFor (sb.load d f.inum).size := by
  have hdev : (sb.load d f.inum).type ≠ T_DEV := by
    rw [hfile]
    decide
  have hfits := h.fits f.inum hi
  by_cases hwritable : f.writable = false
  · refine iff_of_true ⟨d, f, -1, ?_, .inr ⟨rfl, rfl, rfl⟩⟩ (.inl hwritable)
    unfold Superblock.filewrite
    rw [if_pos hwritable]
  rw [Bool.not_eq_false] at hwritable
  by_cases hle : f.off ≤ (sb.load d f.inum).size
  · constructor
    · intro hall
      by_contra hnot
      rw [not_or, not_or, not_or, not_or] at hnot
      obtain ⟨-, -, -, hfirst, hbad⟩ := hnot
      exact h.filewrite_short hsb devsw hi hdev hle hn hwritable (by omega) hbad hall
    · intro hcases
      rcases h.filewrite hsb devsw addr hi hdev hle hn with
        hstored | ⟨d', k, hend, hmax, hk, hsame⟩ | ⟨-, hfirst, hfull⟩
      · exact hstored.allOrNothing devsw hwritable
      · -- the first transaction is refused
        have hzero : k = 0 := by
          apply hk.mpr
          rcases hcases with hw | hn | hlt | hfirst | hfit
          · rw [hw] at hwritable
            cases hwritable
          · omega
          · omega
          · exact hfirst
          · omega
        refine ⟨d, f, -1, ?_, .inr ⟨rfl, rfl, rfl⟩⟩
        rw [filewrite_writable hwritable, hend, hsame hzero, hzero]
        rfl
      · exfalso
        rcases hcases with hw | hn | hlt | hfirst' | ⟨hfit, henough⟩
        · rw [hw] at hwritable
          cases hwritable
        · subst hn
          rw [Nat.add_zero, Nat.max_eq_left (by omega)] at hfull
          omega
        · omega
        · omega
        · rw [Nat.min_eq_left hfit] at hfull
          omega
  · refine iff_of_true ?_ (.inr (.inr (.inl (Nat.lt_of_not_le hle))))
    by_cases hzero : n = 0
    · subst hzero
      refine ⟨d, f, 0, ?_, .inl ⟨rfl, rfl, (splice_nil _ _).symm⟩⟩
      rw [filewrite_writable hwritable]
      unfold Superblock.filewriteLoop
      rw [if_neg (Nat.lt_irrefl 0)]
      rfl
    · -- the offset is behind the end of the file
      refine ⟨d, f, -1, ?_, .inr ⟨rfl, rfl, rfl⟩⟩
      have hrefused : sb.writei devsw d f.inum (sb.load d f.inum) (fun j => addr (0 + j)) f.off
          (min (n - 0) writeMax) = some (d, sb.load d f.inum, -1) :=
        writei_refused devsw hdev hoff (by omega) fun hall => hle hall.1
      rw [filewrite_writable hwritable]
      unfold Superblock.filewriteLoop
      rw [if_pos (Nat.pos_of_ne_zero hzero)]
      simp only [hrefused, Option.bind_some]
      rfl

/-! ## A write to the small disk -/

/-- One byte more than fits into a file. -/
theorem smallDisk_notAllOrNothing :
    ¬ AllOrNothing smallSuperblock noDevices smallDisk { writable := true, inum := 2, off := 0 }
      (fun _ => 7) 71681 :=
  smallDisk_consistent.filewrite_short smallSuperblock_ok noDevices (by decide) (by decide)
    (Nat.zero_le _) (by decide) rfl (by decide) fun hall => absurd hall.1 (by decide)

theorem smallDisk_allOrNothing :
    AllOrNothing smallSuperblock noDevices smallDisk { writable := true, inum := 2, off := 0 }
      (fun _ => 7) 5 := by
  refine (filewrite_allOrNothing smallSuperblock noDevices smallDisk
    { writable := true, inum := 2, off := 0 } (fun _ => 7) 5 smallSuperblock_ok
    smallDisk_consistent (by decide) (by decide) (by decide) (by decide)).mpr
    (.inr (.inr (.inr (.inr ⟨by decide, ?_⟩))))
  rw [smallDisk_free]
  decide

end OsWork.Ports.FsDisk

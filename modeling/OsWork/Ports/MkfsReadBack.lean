import OsWork.Ports.FsPaths
import OsWork.Ports.MkfsImage

/-!
# The kernel reads what `mkfs` wrote

The references of `mkfs` are those of `bmap`, so `readi` finds the bytes of the files, and
`dirlookup` the entries of the root directory.  The last block of that directory may have no
reference; an entry is found before.

## Main results

* `Built.readi` — `readi` returns the bytes of the files.
* `Built.dirlookup` — `dirlookup` finds an entry in the contents of the root directory.
* `slotsOf_entries` — the entries are the names with the inodes of the files.
-/

namespace OsWork.Ports.Mkfs

open OsWork.Verified.ByteWords OsWork.Verified.ByteBits OsWork.Verified.SlotMap
open OsWork.Ports.FsLayout
open OsWork.Ports.FsDisk (Disk Superblock Devsw Inode Panic T_DEV NDEV Mapped BPB direntSize inumOf
  entryName nameOf slotAt slotsOf byteAt)
open Function (update)

/-- `readsb` -/
def readsb (d : Disk) : Superblock where
  size := u32 (d 1) 0
  ninodes := u32 (d 1) 8
  inodestart := u32 (d 1) 20
  bmapstart := u32 (d 1) 24

/-- What `mkfs` has stored. -/
def sblock : Superblock where
  size := FSSIZE
  ninodes := NINODES
  inodestart := inodestart
  bmapstart := bmapstart

variable {i k b off n inum : Nat} {s : State} {data : Nat → List UInt8} {files : List InputFile}
  {f : InputFile} {devsw : Devsw} {name : Bytes}

section Built

variable (h : Built s data)

include h

theorem Built.readsb : readsb s.image.sector = sblock := by
  unfold Mkfs.readsb sblock
  rw [h.sb]
  rfl

/-- The copy of an inode in the kernel. -/
theorem Built.load (hi : i < NINODES) :
    (sblock.load s.image.sector i).type = typeIn s.freeinode i ∧
      (sblock.load s.image.sector i).size = finalSize data i :=
  ⟨h.types i hi, h.sizes i hi⟩

omit h in
/-- The addresses are the same in both programs. -/
theorem addrsOn_eq (s : State) (hk : k ≤ NDIRECT) :
    sblock.addrsOn s.image.sector i k = s.image.addrs i k := by
  have hif : sblock.addrsOn s.image.sector i k = if k ≤ NDIRECT then
      u32 (s.image.sector (Image.IBLOCK i)) (i % IPB * dinodeSize + addrField k) else 0 := rfl
  rw [hif, if_pos hk]
  unfold Image.addrs Image.inode
  rfl

omit h in
theorem bit_eq (s : State) (hb : b < BPB) :
    sblock.bit s.image.sector b = bitAt (s.image.sector bmapstart) b := by
  have hblock : sblock.BBLOCK b = bmapstart := by
    unfold Superblock.BBLOCK
    rw [Nat.div_eq_of_lt hb, Nat.zero_add]
    rfl
  unfold Superblock.bit
  rw [hblock, Nat.mod_eq_of_lt hb]

theorem Built.bit (hb : b < s.freeblock) : sblock.bit s.image.sector b = true := by
  have hfits := h.fits
  have hmax : FSSIZE < BPB := by decide
  rw [bit_eq s (by omega), h.bitmap, bitAt_bitmap]
  exact decide_eq_true hb

/-- `mkfs` leaves references as the kernel needs them. -/
theorem Built.mapped (i : Nat) :
    Mapped sblock s.image.sector i (sblock.load s.image.sector i) (slots data) where
  metas b hb := by
    have hlow := h.laid.low
    have hstart : sblock.dataStart = nmeta := by decide
    exact h.bit (by omega)
  refs := by
    refine h.laid.refs.congr (fun j k _ hk => ?_) (fun _ _ _ => rfl) fun b hb => ?_
    · rw [FsDisk.addrsWith_load]
      exact addrsOn_eq s hk
    · exact ⟨hb.1, Nat.lt_of_lt_of_le hb.2 h.fits, h.bit hb.2⟩

/-- A byte of a file. -/
theorem Built.byteAt (hi : i < NINODES) (hoff : off < (data i).length) :
    byteAt (sblock.addrsWith s.image.sector i (sblock.load s.image.sector i)) s.image.sector i off =
      (data i).getD off 0 := by
  have href : ∀ k, refAt (sblock.addrsOn s.image.sector) s.image.sector i k =
      refAt s.image.addrs s.image.sector i k := fun k =>
    refAt_congr (fun k hk => addrsOn_eq s hk) (fun _ _ => rfl) k
  unfold FsDisk.byteAt
  rw [FsDisk.addrsWith_load, href]
  exact h.laid.content i off hi hoff

/-- `readi` returns the bytes of a file, up to its last block. -/
theorem Built.readi (devsw : Devsw) (hi : i < NINODES) (hn : off + n ≤ (data i).length) :
    sblock.readi devsw s.image.sector (sblock.load s.image.sector i) off n =
      some (s.image.sector, sblock.load s.image.sector i, (n : Int),
        (List.range n).map fun j => (data i).getD (off + j) 0) := by
  have hsmall := h.laid.small hi
  have hmax : MAXFILE * BSIZE < 4294967296 := by decide
  obtain ⟨htype, hsize⟩ := h.load hi
  have hdev : (sblock.load s.image.sector i).type ≠ T_DEV := by
    rw [htype]
    unfold typeIn
    split
    · decide
    · split <;> decide
  have hle : (data i).length ≤ (sblock.load s.image.sector i).size := by
    rw [hsize]
    unfold finalSize
    split
    · unfold BSIZE
      omega
    · exact Nat.le_refl _
  have hsum : (off + n) % 4294967296 = off + n := Nat.mod_eq_of_lt (by omega)
  unfold Superblock.readi FsDisk.Log.readi
  rw [if_neg hdev, if_neg (by omega)]
  simp only
  have hloop := Mapped.readLoop (W := FsDisk.plain) (t := s.image.sector) hi (h.mapped i) rfl
    hsmall n off n hn (Nat.le_refl n)
  rw [if_neg (by omega), hloop, Option.map_some]
  congr 4
  apply List.map_congr_left
  intro j hj
  exact h.byteAt hi (by have hlt := List.mem_range.mp hj; omega)

/-- An entry of the root directory is read. -/
theorem Built.readDirent (devsw : Devsw) (p : Panic)
    (hk : k < (data ROOTINO).length / direntSize) :
    ∃ de, sblock.readDirent devsw p s.image.sector (sblock.load s.image.sector ROOTINO)
        (direntSize * k) = .ok (s.image.sector, sblock.load s.image.sector ROOTINO, de) ∧
      (slotsOf (data ROOTINO)).drop k = slotAt de 0 :: (slotsOf (data ROOTINO)).drop (k + 1) := by
  have hin : direntSize * k + direntSize ≤ (data ROOTINO).length := by
    unfold direntSize at *
    omega
  have hlen : k < (slotsOf (data ROOTINO)).length := by
    rw [FsDisk.slotsOf_length]
    exact hk
  refine ⟨bytesOf ((List.range direntSize).map fun j =>
    (data ROOTINO).getD (direntSize * k + j) 0), ?_, ?_⟩
  · unfold Superblock.readDirent
    rw [h.readi devsw (by decide) hin]
    exact if_pos rfl
  · rw [List.drop_eq_getElem_cons hlen]
    congr 1
    have hget := FsDisk.slotsOf_getElem? hk
    rw [List.getElem?_eq_getElem hlen, Option.some.injEq] at hget
    rw [hget]
    apply FsDisk.slotAt_congr
    intro r hr
    have hbyte : bytesOf ((List.range direntSize).map fun j =>
        (data ROOTINO).getD (direntSize * k + j) 0) r =
          (data ROOTINO).getD (direntSize * k + r) 0 := by
      unfold bytesOf
      rw [List.getD_eq_getElem _ _ (by simpa using hr), List.getElem_map, List.getElem_range]
    rw [Nat.zero_add, hbyte]
    rfl

/-- The loop of `dirlookup` from the entry `k` on, where the name is behind. -/
theorem Built.lookupLoop (devsw : Devsw) (name : Bytes) {i : Nat} :
    ∀ fuel k, (data ROOTINO).length / direntSize ≤ k + fuel →
      find (nameOf name) ((slotsOf (data ROOTINO)).drop k) k = some (i, inum) →
      sblock.lookupLoop devsw name fuel s.image.sector (sblock.load s.image.sector ROOTINO)
        (direntSize * k) =
          .ok (s.image.sector, sblock.load s.image.sector ROOTINO,
            some (inum, direntSize * i)) := by
  have hlen := FsDisk.slotsOf_length (data ROOTINO)
  intro fuel
  induction fuel with
  | zero =>
      intro k hfuel hfind
      rw [List.drop_eq_nil_of_le (by omega)] at hfind
      cases hfind
  | succ fuel ih =>
      intro k hfuel hfind
      have hmore : k < (data ROOTINO).length / direntSize := by
        by_contra hend
        rw [List.drop_eq_nil_of_le (by omega)] at hfind
        cases hfind
      obtain ⟨de, hread, hdrop⟩ := h.readDirent devsw .dirlookupRead hmore
      have hsize : direntSize * k < (sblock.load s.image.sector ROOTINO).size := by
        rw [(h.load (by decide)).2]
        unfold finalSize BSIZE
        unfold direntSize at *
        rw [if_pos rfl]
        omega
      have hoff : direntSize * k + direntSize = direntSize * (k + 1) := (Nat.mul_succ _ _).symm
      have hnext := ih (k + 1) (by omega)
      rw [hdrop] at hfind
      unfold Superblock.lookupLoop
      rw [if_pos hsize, hread]
      simp only [hoff]
      unfold slotAt at hfind
      simp only [Nat.zero_add] at hfind
      by_cases hzero : inumOf de = 0
      · rw [if_pos hzero] at hfind
        rw [if_pos hzero]
        exact hnext hfind
      · rw [if_neg hzero] at hfind
        rw [if_neg hzero]
        unfold find at hfind
        by_cases hname : nameOf name = nameOf (entryName de)
        · rw [if_pos hname.symm] at hfind
          simp only [Option.some.injEq, Prod.mk.injEq] at hfind
          rw [if_pos (FsDisk.namecmp_eq_zero.mpr hname), hfind.1, hfind.2]
        · rw [if_neg (Ne.symm hname)] at hfind
          rw [if_neg (mt FsDisk.namecmp_eq_zero.mp hname)]
          exact hnext hfind

/-- `dirlookup` finds the names in the root directory. -/
theorem Built.dirlookup (devsw : Devsw) (name : Bytes) {i : Nat} (hroot : ROOTINO < s.freeinode)
    (hfind : find (nameOf name) (slotsOf (data ROOTINO)) 0 = some (i, inum)) :
    sblock.dirlookup devsw s.image.sector (sblock.load s.image.sector ROOTINO) name =
      .ok (s.image.sector, sblock.load s.image.sector ROOTINO, some (inum, direntSize * i)) := by
  obtain ⟨htype, hsize⟩ := h.load (i := ROOTINO) (by decide)
  have hdir : typeIn s.freeinode ROOTINO = T_DIR := by
    unfold typeIn
    rw [if_neg (by unfold ROOTINO at *; omega), if_pos rfl]
  unfold Superblock.dirlookup
  rw [htype, hdir, if_neg (by decide)]
  apply h.lookupLoop devsw name _ 0 _ hfind
  rw [hsize]
  unfold finalSize BSIZE direntSize
  rw [if_pos rfl]
  omega

end Built

/-! ## The entries -/

theorem entryName_nul (f : InputFile) : (0 : UInt8) ∉ f.entryName := by
  unfold InputFile.entryName
  split
  · exact fun hmem => f.name_nul (List.mem_of_mem_tail hmem)
  · exact f.name_nul

theorem nameOf_list {l : List UInt8} (hzero : (0 : UInt8) ∉ l) (hlen : l.length ≤ DIRSIZ)
    {p : Bytes} (hp : ∀ j, j < DIRSIZ → p j = bytesOf l j) : nameOf p = l := by
  have hname := FsPaths.cstr_of_bytes DIRSIZ l p hzero (fun j hj _ => hp j hj) fun hlt => by
    rw [hp _ hlt]
    unfold bytesOf
    rw [List.getD_eq_default _ _ (Nat.le_refl _)]
  unfold FsDisk.nameOf
  rw [hname, List.take_of_length_le hlen]

/-- What the kernel takes an entry for. -/
theorem slotAt_dirent {l : List UInt8} (hpos : 0 < inum) (hlt : inum < 65536)
    (hzero : (0 : UInt8) ∉ l) (hlen : l.length ≤ DIRSIZ) :
    slotAt (bytesOf (dirent inum l)) 0 = some (l, inum) := by
  have hinum : (inumOf fun j => bytesOf (dirent inum l) (0 + j)) = inum := by
    show (UInt8.ofNat inum).toNat + 256 * (UInt8.ofNat (inum / 256)).toNat = inum
    rw [UInt8.toNat_ofNat', UInt8.toNat_ofNat']
    omega
  have hname : nameOf (entryName fun j => bytesOf (dirent inum l) (0 + j)) = l := by
    apply nameOf_list hzero hlen
    intro j hj
    have hdrop : bytesOf (dirent inum l) (0 + (2 + j)) =
        (l ++ List.replicate (DIRSIZ - l.length) 0).getD j 0 := by
      unfold bytesOf dirent
      rw [List.take_of_length_le hlen, Nat.zero_add, Nat.add_comm 2 j]
      rfl
    show bytesOf (dirent inum l) (0 + (2 + j)) = bytesOf l j
    rw [hdrop]
    unfold bytesOf
    by_cases hin : j < l.length
    · rw [List.getD_append _ _ _ _ hin]
    · rw [List.getD_append_right _ _ _ _ (by omega), List.getD_eq_default l _ (by omega)]
      rw [List.getD_eq_getElem?_getD, List.getElem?_replicate]
      split <;> rfl
  unfold FsDisk.slotAt
  rw [hinum, hname, if_neg (Nat.ne_of_gt hpos)]

/-- The first entry and the others. -/
theorem slotsOf_append {e rest : List UInt8} (he : e.length = direntSize) :
    slotsOf (e ++ rest) = slotAt (bytesOf e) 0 :: slotsOf rest := by
  have hlen : (e ++ rest).length / direntSize = rest.length / direntSize + 1 := by
    rw [List.length_append, he]
    unfold direntSize
    omega
  unfold FsDisk.slotsOf
  rw [hlen, List.range_succ_eq_map, List.map_cons, List.map_map]
  congr 1
  · apply FsDisk.slotAt_congr
    intro j hj
    unfold bytesOf
    rw [List.getD_append _ _ _ _ (by omega)]
    simp
  · apply List.map_congr_left
    intro k _
    apply FsDisk.slotAt_congr
    intro j hj
    unfold bytesOf
    have hoff : direntSize * (k + 1) + j = e.length + (direntSize * k + j) := by
      rw [he, Nat.mul_succ]
      omega
    show (e ++ rest).getD (direntSize * (k + 1) + j) 0 = _
    rw [hoff, List.getD_append_right _ _ _ _ (Nat.le_add_right _ _), Nat.add_sub_cancel_left]

/-- The names of the files with their inodes, where `k` is the first one. -/
def slotList : List InputFile → Nat → List (Option (List UInt8 × Nat))
  | [], _ => []
  | f :: fs, k => some (f.entryName, k) :: slotList fs (k + 1)

theorem slotsOf_entries : ∀ (files : List InputFile) (k : Nat), 0 < k → k + files.length ≤ 65536 →
    (∀ f ∈ files, f.entryName.length ≤ DIRSIZ) → slotsOf (entries files k) = slotList files k := by
  intro files
  induction files with
  | nil =>
      intro k _ _ _
      unfold FsDisk.slotsOf entries slotList
      rw [List.length_nil, Nat.zero_div]
      rfl
  | cons f fs ih =>
      intro k hpos hlt hlen
      rw [List.length_cons] at hlt
      unfold entries slotList
      rw [slotsOf_append (dirent_length k f.entryName),
        slotAt_dirent hpos (by omega) (entryName_nul f) (hlen f List.mem_cons_self),
        ih (k + 1) (by omega) (by omega) fun g hg => hlen g (List.mem_cons_of_mem f hg)]

theorem slotList_getElem? : ∀ (files : List InputFile) (k j : Nat),
    (slotList files k)[j]? = files[j]?.map fun f => some (f.entryName, k + j) := by
  intro files
  induction files with
  | nil => exact fun _ _ => rfl
  | cons f fs ih =>
      intro k j
      unfold slotList
      cases j with
      | zero => rfl
      | succ j =>
          rw [List.getElem?_cons_succ, List.getElem?_cons_succ, ih, Nat.add_assoc, Nat.add_comm 1 j]

theorem slotList_keys : ∀ (files : List InputFile) (k : Nat),
    (slotList files k).map (Option.map Prod.fst) = files.map fun f => some f.entryName := by
  intro files
  induction files with
  | nil => exact fun _ => rfl
  | cons f fs ih =>
      intro k
      unfold slotList
      rw [List.map_cons, List.map_cons, ih]
      rfl

/-- Each file has an entry of its own in the root directory. -/
structure Named (files : List InputFile) : Prop where
  distinct : (files.map InputFile.entryName).Nodup
  nonempty : ∀ f ∈ files, f.entryName ≠ []
  dots : ∀ f ∈ files, f.entryName ≠ [0x2E] ∧ f.entryName ≠ [0x2E, 0x2E]
  short : ∀ f ∈ files, f.entryName.length ≤ DIRSIZ

/-- The entries of the root directory. -/
def rootSlots (files : List InputFile) : List (Option (List UInt8 × Nat)) :=
  some ([0x2E], ROOTINO) :: some ([0x2E, 0x2E], ROOTINO) :: slotList files 2

theorem slotsOf_root (hnamed : Named files) (hn : files.length + 2 ≤ NINODES) :
    slotsOf (contentsOf files ROOTINO) = rootSlots files := by
  have hmax : NINODES < 65536 := by decide
  rw [contentsOf_root]
  unfold dots rootSlots
  rw [List.append_assoc, slotsOf_append (dirent_length _ _), slotsOf_append (dirent_length _ _),
    slotAt_dirent (by decide) (by decide) (by decide) (by decide),
    slotAt_dirent (by decide) (by decide) (by decide) (by decide),
    slotsOf_entries files 2 (by decide) (by omega) hnamed.short]

theorem rootSlots_distinct (hnamed : Named files) : Distinct (rootSlots files) := by
  apply distinct_of_nodup
  unfold rootSlots
  rw [List.map_cons, List.map_cons, slotList_keys, List.nodup_cons, List.nodup_cons]
  refine ⟨?_, ?_, ?_⟩
  · intro hmem
    rcases List.mem_cons.mp hmem with hdot | hfile
    · cases hdot
    · obtain ⟨f, hf, hname⟩ := List.mem_map.mp hfile
      exact (hnamed.dots f hf).1 (Option.some.inj hname)
  · intro hmem
    obtain ⟨f, hf, hname⟩ := List.mem_map.mp hmem
    exact (hnamed.dots f hf).2 (Option.some.inj hname)
  · have hmap : (files.map fun f => some f.entryName) =
        (files.map InputFile.entryName).map some := by
      rw [List.map_map]
      rfl
    rw [hmap]
    exact hnamed.distinct.map (Option.some_injective _)

/-! ## The contents -/

theorem placed_other : ∀ (files : List InputFile) {k : Nat} {data : Nat → List UInt8},
    i ≠ ROOTINO → (i < k ∨ k + files.length ≤ i) → placed files k data i = data i := by
  intro files
  induction files with
  | nil => exact fun _ _ => rfl
  | cons f fs ih =>
      intro k data hi hout
      rw [List.length_cons] at hout
      unfold placed
      simp only
      rw [ih hi (by omega), Function.update_of_ne (by omega), Function.update_of_ne hi]

/-- A file has the next inode. -/
theorem placed_file : ∀ (files : List InputFile) (k : Nat) {j : Nat} (data : Nat → List UInt8),
    ROOTINO < k → (∀ i, k ≤ i → data i = []) → files[j]? = some f →
      placed files k data (k + j) = f.contents := by
  intro files
  induction files with
  | nil => exact fun _ _ _ _ _ hf => nomatch hf
  | cons g fs ih =>
      intro k j data hk hnone hf
      have hrest : ∀ i, k + 1 ≤ i → update (update data ROOTINO (data ROOTINO ++
          dirent k g.entryName)) k (update data ROOTINO (data ROOTINO ++
            dirent k g.entryName) k ++ g.contents) i = [] := by
        intro i hi
        rw [Function.update_of_ne (by omega), Function.update_of_ne (by omega)]
        exact hnone i (by omega)
      unfold placed
      cases j with
      | zero =>
          rw [List.getElem?_cons_zero, Option.some.injEq] at hf
          show placed fs (k + 1) _ k = f.contents
          rw [placed_other fs (k := k + 1) (by omega) (.inl (by omega)),
            Function.update_self, Function.update_of_ne (by omega), hnone k (Nat.le_refl k), hf]
          exact List.nil_append _
      | succ j =>
          rw [List.getElem?_cons_succ] at hf
          have hnext := ih (k + 1) _ (by omega) hrest hf
          rw [Nat.add_assoc, Nat.add_comm 1 j] at hnext
          exact hnext

/-- The number of blocks after the files. -/
theorem used_placed : ∀ (files : List InputFile) (k : Nat) (data : Nat → List UInt8),
    ROOTINO < k → k + files.length ≤ NINODES → (∀ i, k ≤ i → data i = []) →
      used (placed files k data) + slotsFor (data ROOTINO).length =
        used data + slotsFor ((data ROOTINO).length + 16 * files.length) +
          (files.map fun f => slotsFor f.contents.length).sum := by
  intro files
  induction files with
  | nil =>
      intro k data _ _ _
      show _ = used data + slotsFor ((data ROOTINO).length + 16 * 0) + 0
      rw [Nat.mul_zero, Nat.add_zero, Nat.add_zero]
      rfl
  | cons f fs ih =>
      intro k data hk hlt hnone
      rw [List.length_cons] at hlt
      have hroot := used_append (i := ROOTINO) data (dirent k f.entryName) (by decide)
      obtain ⟨data₁, hdata₁⟩ : ∃ data₁, data₁ =
        update data ROOTINO (data ROOTINO ++ dirent k f.entryName) := ⟨_, rfl⟩
      have hfile := used_append (i := k) data₁ f.contents (by omega)
      have hk₁ : data₁ k = [] := by
        rw [hdata₁, Function.update_of_ne (by omega)]
        exact hnone k (Nat.le_refl k)
      have hroot₁ : (data₁ ROOTINO).length = (data ROOTINO).length + 16 := by
        rw [hdata₁, Function.update_self, List.length_append, dirent_length]
      have hrest := ih (k + 1) (update data₁ k (data₁ k ++ f.contents)) (by omega) (by omega) (by
        intro i hi
        rw [Function.update_of_ne (by omega), hdata₁, Function.update_of_ne (by omega)]
        exact hnone i (by omega))
      rw [Function.update_of_ne (by omega), hroot₁] at hrest
      rw [← hdata₁, dirent_length] at hroot
      rw [hk₁, List.length_nil, Nat.zero_add] at hfile
      have hzero : slotsFor 0 = 0 := by decide
      have hlen : (data ROOTINO).length + 16 + 16 * fs.length =
          (data ROOTINO).length + 16 * (f :: fs).length := by
        rw [List.length_cons]
        omega
      rw [hlen, hk₁] at hrest
      unfold placed
      simp only
      rw [← hdata₁, List.map_cons, List.sum_cons, hk₁]
      omega

/-- The contents fit in the files, the image and the table of inodes. -/
structure Fits (files : List InputFile) : Prop where
  small : ∀ f ∈ files, f.contents.length ≤ MAXFILE * BSIZE
  room : nmeta + slotsFor (16 * (files.length + 2)) +
    (files.map fun f => slotsFor f.contents.length).sum ≤ FSSIZE
  inums : files.length + 2 ≤ NINODES

/-- What an inode other than that of the root directory holds. -/
theorem contentsOf_other (files : List InputFile) (hi : i ≠ ROOTINO) :
    contentsOf files i = [] ∨ ∃ f ∈ files, contentsOf files i = f.contents := by
  have hempty : update (fun _ => []) ROOTINO dots i = [] := Function.update_of_ne hi _ _
  by_cases hout : i < 2 ∨ 2 + files.length ≤ i
  · left
    unfold contentsOf
    rw [placed_other files hi hout]
    exact hempty
  · right
    have hj : i - 2 < files.length := by omega
    have hsome : files[i - 2]? = some files[i - 2] := List.getElem?_eq_getElem hj
    have hfile := placed_file files 2 (update (fun _ => []) ROOTINO dots) (by decide)
      (fun i hi => Function.update_of_ne (by unfold ROOTINO; omega) _ _) hsome
    rw [Nat.add_sub_cancel' (by omega)] at hfile
    exact ⟨files[i - 2], List.getElem_mem hj, hfile⟩

theorem used_contentsOf (hn : files.length + 2 ≤ NINODES) :
    used (contentsOf files) =
      slotsFor (16 * (files.length + 2)) + (files.map fun f => slotsFor f.contents.length).sum := by
  have hdots : dots.length = 32 := by decide
  have hnone : used (fun _ => []) = 0 := Finset.sum_eq_zero fun i _ => slots_none i
  have hzero : slotsFor 0 = 0 := by decide
  have hroot := used_append (i := ROOTINO) (fun _ => []) dots (by decide)
  simp only [List.nil_append, List.length_nil] at hroot
  have hfiles := used_placed files 2 (update (fun _ => []) ROOTINO dots) (by decide) (by omega)
    fun i hi => Function.update_of_ne (by unfold ROOTINO; omega) _ _
  rw [Function.update_self, hdots] at hfiles
  rw [hdots, Nat.zero_add] at hroot
  have hlen : 16 * (files.length + 2) = 32 + 16 * files.length := by omega
  rw [hlen]
  unfold contentsOf
  omega

theorem Fits.not_tooLarge (h : Fits files) : ¬ TooLarge (contentsOf files) := by
  have hinums := h.inums
  have hnodes : NINODES = 200 := rfl
  rintro (⟨i, -, hlarge⟩ | hfull)
  · by_cases hi : i = ROOTINO
    · have hmax : 3200 < MAXFILE * BSIZE := by decide
      rw [hi, contentsOf_root_length] at hlarge
      omega
    · rcases contentsOf_other files hi with hnone | ⟨f, hf, hfile⟩
      · rw [hnone] at hlarge
        exact Nat.not_lt_zero _ hlarge
      · have hsmall := h.small f hf
        rw [hfile] at hlarge
        omega
  · have hroom := h.room
    rw [used_contentsOf hinums] at hfull
    omega

/-- The kernel finds a file in the root directory, and reads it. -/
def ReadsBack (devsw : Devsw) (s : State) (f : InputFile) : Prop :=
  let d := s.image.sector
  let sb := readsb d
  ∃ inum off,
    sb.dirlookup devsw d (sb.load d ROOTINO) (bytesOf f.entryName) =
      .ok (d, sb.load d ROOTINO, some (inum, off)) ∧
    (sb.load d inum).type = T_FILE ∧
    (sb.load d inum).size = f.contents.length ∧
    sb.readi devsw d (sb.load d inum) 0 (sb.load d inum).size =
      some (d, sb.load d inum, (f.contents.length : Int), f.contents)

theorem Built.readsBack (h : Built s (contentsOf files)) (hfree : s.freeinode = 2 + files.length)
    (hn : files.length + 2 ≤ NINODES) (hnamed : Named files) (devsw : Devsw) (hf : f ∈ files) :
    ReadsBack devsw s f := by
  obtain ⟨j, hj⟩ := List.mem_iff_getElem?.mp hf
  have hjlt := (List.getElem?_eq_some_iff.mp hj).1
  have hi : 2 + j < NINODES := by omega
  have hname : nameOf (bytesOf f.entryName) = f.entryName :=
    nameOf_list (entryName_nul f) (hnamed.short f hf) fun _ _ => rfl
  have hslot : (rootSlots files)[2 + j]? = some (some (f.entryName, 2 + j)) := by
    unfold rootSlots
    rw [Nat.add_comm 2 j, List.getElem?_cons_succ, List.getElem?_cons_succ, slotList_getElem?, hj,
      Nat.add_comm j 2]
    rfl
  have hfind : find (nameOf (bytesOf f.entryName)) (slotsOf (contentsOf files ROOTINO)) 0 =
      some (2 + j, 2 + j) := by
    rw [hname, slotsOf_root hnamed hn]
    exact (find_eq_some (rootSlots_distinct hnamed)).mpr hslot
  have hcontents : contentsOf files (2 + j) = f.contents :=
    placed_file files 2 _ (by decide)
      (fun i hi => Function.update_of_ne (by unfold ROOTINO; omega) _ _) hj
  obtain ⟨htype, hsize⟩ := h.load hi
  have hfile : typeIn s.freeinode (2 + j) = T_FILE := by
    unfold typeIn ROOTINO
    rw [if_neg (by omega), if_neg (by omega)]
  have hlen : finalSize (contentsOf files) (2 + j) = f.contents.length := by
    unfold finalSize ROOTINO
    rw [if_neg (by omega), hcontents]
  unfold ReadsBack
  simp only
  rw [h.readsb]
  refine ⟨2 + j, direntSize * (2 + j), h.dirlookup devsw _ (by unfold ROOTINO; omega) hfind,
    htype.trans hfile, hsize.trans hlen, ?_⟩
  have hbytes : (List.range f.contents.length).map (fun j => f.contents.getD (0 + j) 0) =
      f.contents := by
    apply List.ext_getElem
    · rw [List.length_map, List.length_range]
    · intro o _ ho
      rw [List.getElem_map, List.getElem_range, Nat.zero_add, List.getD_eq_getElem _ _ ho]
  rw [hsize, hlen, h.readi devsw hi (by rw [Nat.zero_add, hcontents]), hcontents, hbytes]

/-- The kernel reads back what `mkfs` wrote; only a name with a slash is refused. -/
theorem mkfs_reads_back (files : List InputFile) (devsw : Devsw) (hnamed : Named files)
    (hfits : Fits files) :
    (¬ Slashed files → ∃ s, mkfs files = some s) ∧
      ∀ s, mkfs files = some s → ∀ f ∈ files, ReadsBack devsw s f := by
  have hinums := hfits.inums
  rcases mkfs_built files (by omega) with ⟨s, hrun, hbuilt, hfree⟩ | ⟨hrun, hfail⟩
  · refine ⟨fun _ => ⟨s, hrun⟩, fun s' hs' f hf => ?_⟩
    rw [hrun] at hs'
    injection hs' with hs
    rw [← hs]
    exact hbuilt.readsBack hfree hinums hnamed devsw hf
  · refine ⟨fun hslash => absurd hfail (not_or.mpr ⟨hslash, hfits.not_tooLarge⟩), ?_⟩
    intro s hs
    rw [hrun] at hs
    cases hs

/-- The files `_cat` and `README`. -/
def catFile : InputFile where
  name := [0x5F, 0x63, 0x61, 0x74]
  chunks := [[0x7F, 0x45], [0x4C, 0x46]]
  name_nul := by decide

def readmeFile : InputFile where
  name := [0x52, 0x45, 0x41, 0x44, 0x4D, 0x45]
  chunks := [[0x78, 0x76, 0x36]]
  name_nul := by decide

theorem mkfs_reads_back_two :
    ∃ s, mkfs [catFile, readmeFile] = some s ∧ ReadsBack FsDisk.noDevices s catFile := by
  obtain ⟨hrun, hread⟩ := mkfs_reads_back [catFile, readmeFile] FsDisk.noDevices
    { distinct := by decide
      nonempty := by decide
      dots := by decide
      short := by decide }
    { small := by decide
      room := by decide
      inums := by decide }
  obtain ⟨s, hs⟩ := hrun (by unfold Slashed; decide)
  exact ⟨s, hs, hread s hs catFile List.mem_cons_self⟩

end OsWork.Ports.Mkfs

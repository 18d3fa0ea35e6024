import OsWork.Ports.MkfsImage

/-!
# Well-formed images

`mkfs` numbers the inodes without a look at their number, and rounds the size of the root
directory up to the next block even if the entries fill the last one, for which there is then no
block.  But for these two the image is well formed.

## Main results

* `freeinode_mkfs` — the inodes that are allocated.
* `Built.wellFormed_iff` — when the image of files is well formed.
-/

namespace OsWork.Ports.Mkfs

open OsWork.Verified.ByteWords OsWork.Verified.ByteBits OsWork.Ports.FsLayout

variable {i j k b : Nat} {s s' : State} {data : Nat → List UInt8} {p : List UInt8}
  {files : List InputFile} {f : InputFile}

/-! ## Inode numbers -/

section FreeInode

variable {din : Bytes} {off : Nat} {r : State × Bytes × Nat}

theorem freeinode_allocAddr (s : State) (din : Bytes) (k : Nat) :
    (s.allocAddr din k).1.freeinode = s.freeinode := by
  unfold State.allocAddr
  split <;> rfl

theorem freeinode_allocEntry {t : State × Nat} (h : s.allocEntry b j = some t) :
    t.1.freeinode = s.freeinode := by
  obtain ⟨buf, -, rfl⟩ := Option.map_eq_some_iff.mp h
  split <;> rfl

theorem freeinode_blockFor {fbn : Nat} (h : s.blockFor din fbn = some r) :
    r.1.freeinode = s.freeinode := by
  unfold State.blockFor at h
  split at h
  · injection h with h
    rw [← h]
    exact freeinode_allocAddr s din fbn
  · obtain ⟨t, ht, rfl⟩ := Option.map_eq_some_iff.mp h
    exact (freeinode_allocEntry ht).trans (freeinode_allocAddr s din NDIRECT)

theorem freeinode_appendPiece (h : s.appendPiece din off p = some r) :
    r.1.freeinode = s.freeinode := by
  unfold State.appendPiece at h
  simp only at h
  split at h
  · cases h
  · obtain ⟨t, ht, hstore⟩ := Option.bind_eq_some_iff.mp h
    obtain ⟨s₁, hs₁, rfl⟩ := Option.map_eq_some_iff.mp hstore
    obtain ⟨buf, -, rfl⟩ := Option.map_eq_some_iff.mp hs₁
    exact (freeinode_blockFor ht : t.1.freeinode = s.freeinode)

theorem freeinode_appendLoop : ∀ (fuel : Nat) {s : State} {din : Bytes} {off : Nat}
    {p : List UInt8} {r : State × Bytes × Nat},
    State.appendLoop fuel s din off p = some r → r.1.freeinode = s.freeinode := by
  intro fuel
  induction fuel with
  | zero =>
      intro s din off p r h
      injection h with h
      rw [← h]
  | succ fuel ih =>
      intro s din off p r h
      unfold State.appendLoop at h
      split at h
      · injection h with h
        rw [← h]
      · obtain ⟨t, ht, hrest⟩ := Option.bind_eq_some_iff.mp h
        exact (ih hrest).trans (freeinode_appendPiece ht)

theorem freeinode_iappend (h : s.iappend i p = some s') : s'.freeinode = s.freeinode := by
  obtain ⟨din, -, hloop⟩ := Option.bind_eq_some_iff.mp h
  obtain ⟨r, hr, hwrite⟩ := Option.bind_eq_some_iff.mp hloop
  obtain ⟨m, -, rfl⟩ := Option.map_eq_some_iff.mp hwrite
  exact freeinode_appendLoop _ hr

theorem freeinode_ialloc {type : Nat} {t : State × Nat} (h : s.ialloc type = some t) :
    t.1.freeinode = s.freeinode + 1 := by
  obtain ⟨m, -, rfl⟩ := Option.map_eq_some_iff.mp h
  rfl

theorem freeinode_appendChunks : ∀ (ps : List (List UInt8)) {s : State},
    State.appendChunks i ps s = some s' → s'.freeinode = s.freeinode := by
  intro ps
  induction ps with
  | nil =>
      intro s h
      injection h with h
      rw [h]
  | cons p ps ih =>
      intro s h
      obtain ⟨s₁, hs₁, hrest⟩ := Option.bind_eq_some_iff.mp h
      exact (ih hrest).trans (freeinode_iappend hs₁)

theorem freeinode_addFile (h : s.addFile f = some s') : s'.freeinode = s.freeinode + 1 := by
  unfold State.addFile at h
  split at h
  · cases h
  · obtain ⟨t, ht, hentry⟩ := Option.bind_eq_some_iff.mp h
    obtain ⟨s₁, hs₁, hchunks⟩ := Option.bind_eq_some_iff.mp hentry
    rw [freeinode_appendChunks _ hchunks, freeinode_iappend hs₁, freeinode_ialloc ht]

theorem freeinode_addFiles : ∀ (files : List InputFile) {s : State},
    State.addFiles files s = some s' → s'.freeinode = s.freeinode + files.length := by
  intro files
  induction files with
  | nil =>
      intro s h
      injection h with h
      rw [h]
      rfl
  | cons f fs ih =>
      intro s h
      obtain ⟨s₁, hs₁, hrest⟩ := Option.bind_eq_some_iff.mp h
      rw [ih hrest, freeinode_addFile hs₁, List.length_cons]
      omega

theorem freeinode_makeRoot (h : start.makeRoot = some s) : s.freeinode = 2 := by
  unfold State.makeRoot at h
  obtain ⟨t, ht, hroot⟩ := Option.bind_eq_some_iff.mp h
  split at hroot
  · cases hroot
  · obtain ⟨s₁, hs₁, hdots⟩ := Option.bind_eq_some_iff.mp hroot
    rw [freeinode_iappend hdots, freeinode_iappend hs₁, freeinode_ialloc ht]
    rfl

/-- There is an inode for each file, and the two before. -/
theorem freeinode_mkfs (h : mkfs files = some s) : s.freeinode = 2 + files.length := by
  rw [mkfs_eq] at h
  obtain ⟨s₁, hs₁, hfiles⟩ := Option.bind_eq_some_iff.mp h
  obtain ⟨s₂, hs₂, hend⟩ := Option.bind_eq_some_iff.mp hfiles
  obtain ⟨s₃, hs₃, hbitmap⟩ := Option.bind_eq_some_iff.mp hend
  obtain ⟨din, -, hwrite⟩ := Option.bind_eq_some_iff.mp hs₃
  obtain ⟨m, -, rfl⟩ := Option.map_eq_some_iff.mp hwrite
  unfold State.balloc at hbitmap
  split at hbitmap
  · have hs := Option.some.inj hbitmap
    have hroot := freeinode_makeRoot hs₁
    have hplaced := freeinode_addFiles files hs₂
    rw [← hs]
    show s₂.freeinode = 2 + files.length
    omega
  · cases hbitmap

end FreeInode

/-! ## The references -/

/-- The inodes that `mkfs` has allocated. -/
def State.Allocated (s : State) (i : Nat) : Prop := ROOTINO ≤ i ∧ i < s.freeinode

/-- The reference `k` of inode `i` in the image. -/
def State.ref (s : State) (i k : Nat) : Nat := refAt s.image.addrs s.image.sector i k

structure WellFormed (s : State) : Prop where
  inums : ∀ i, s.Allocated i → i < NINODES
  range : ∀ i k, s.Allocated i → k < maxSlots → s.ref i k ≠ 0 →
    nmeta ≤ s.ref i k ∧ s.ref i k < FSSIZE
  once : ∀ i j k l, s.Allocated i → s.Allocated j → k < maxSlots → l < maxSlots →
    s.ref i k ≠ 0 → s.ref i k = s.ref j l → i = j ∧ k = l
  bitmap : ∀ b, b < BSIZE * 8 →
    (bitAt (s.image.sector bmapstart) b = true ↔ b < s.freeblock)
  blocks : ∀ i fbn, s.Allocated i → fbn < blocksFor (u32 (s.image.inode i) sizeField) →
    fbn < MAXFILE ∧ s.ref i (slotOf fbn) ≠ 0

/-- The blocks of a file are those with the first references. -/
theorem slotOf_lt_slotsFor {n fbn : Nat} : slotOf fbn < slotsFor n ↔ fbn < blocksFor n := by
  unfold slotsFor slotOf
  split <;> split <;> omega

theorem lt_maxfile {n fbn : Nat} (h : fbn < blocksFor n) (hn : n ≤ MAXFILE * BSIZE) :
    fbn < MAXFILE := by
  unfold blocksFor BSIZE at *
  omega

/-- A size that does not fill its last block is rounded to the end of the block. -/
theorem blocksFor_round {n : Nat} (h : n % BSIZE ≠ 0) :
    blocksFor ((n / BSIZE + 1) * BSIZE) = blocksFor n := by
  unfold blocksFor BSIZE at *
  omega

theorem Built.ref_iff (h : Built s data) (hi : i < NINODES) (hfbn : b < MAXFILE) :
    s.ref i (slotOf b) ≠ 0 ↔ b < blocksFor (data i).length := by
  unfold State.ref
  rw [h.laid.refs.live i _ hi (slotOf_lt hfbn)]
  exact slotOf_lt_slotsFor

/-- The image is well formed but for the last block of the root directory. -/
theorem Built.wellFormed_iff (h : Built s data) (hfree : s.freeinode ≤ NINODES)
    (hroot : ROOTINO < s.freeinode) : WellFormed s ↔ (data ROOTINO).length % BSIZE ≠ 0 := by
  have hlt : ∀ i, s.Allocated i → i < NINODES := fun i hi => Nat.lt_of_lt_of_le hi.2 hfree
  have hrootlt : ROOTINO < NINODES := by decide
  have hlast : (data ROOTINO).length / BSIZE < blocksFor (finalSize data ROOTINO) := by
    unfold finalSize blocksFor
    rw [if_pos rfl]
    unfold BSIZE
    omega
  constructor
  · intro hwf hmod
    have hblocks := hwf.blocks ROOTINO ((data ROOTINO).length / BSIZE) ⟨Nat.le_refl _, hroot⟩
    rw [h.sizes ROOTINO hrootlt] at hblocks
    obtain ⟨hmax, hne⟩ := hblocks hlast
    have hblock := (h.ref_iff hrootlt hmax).mp hne
    unfold blocksFor BSIZE at *
    omega
  · intro hmod
    exact
      { inums := hlt
        range := by
          intro i k hi hk hne
          have hrange := h.laid.range (hlt i hi) hk hne
          exact ⟨hrange.1, Nat.lt_of_lt_of_le hrange.2 h.fits⟩
        once := fun i j k l hi hj => h.laid.refs.inj i j k l (hlt i hi) (hlt j hj)
        bitmap := by
          intro b _
          rw [h.bitmap, bitAt_bitmap]
          exact decide_eq_true_iff
        blocks := by
          intro i fbn hi hfbn
          rw [h.sizes i (hlt i hi)] at hfbn
          have hsame : fbn < blocksFor (data i).length := by
            unfold finalSize at hfbn
            split at hfbn
            · rename_i hroot
              rw [hroot, blocksFor_round hmod] at hfbn
              rw [hroot]
              exact hfbn
            · exact hfbn
          have hmax : fbn < MAXFILE := lt_maxfile hsame (h.laid.small (hlt i hi))
          exact ⟨hmax, (h.ref_iff (hlt i hi) hmax).mpr hsame⟩ }

/-- The image of `mkfs` is well formed if there are inodes for all files, and the entries do not
fill the last block of the root directory. -/
theorem mkfs_wellFormed_iff (files : List InputFile) (s : State) (h : mkfs files = some s) :
    WellFormed s ↔ files.length ≤ 198 ∧ (files.length + 2) % 32 ≠ 0 := by
  have hfree := freeinode_mkfs h
  have hnodes : NINODES = 200 := rfl
  by_cases hn : 2 + files.length ≤ NINODES
  · rcases mkfs_built files hn with ⟨s', hrun, hbuilt, -⟩ | ⟨hrun, -⟩
    · rw [h] at hrun
      injection hrun with hs
      rw [← hs] at hbuilt
      have hlen := contentsOf_root_length files
      rw [hbuilt.wellFormed_iff (by omega) (by unfold ROOTINO; omega), hlen]
      unfold BSIZE
      omega
    · rw [h] at hrun
      cases hrun
  · refine iff_of_false (fun hwf => ?_) (by omega)
    have hlast := hwf.inums (files.length + 1) ⟨Nat.le_add_left _ _, by omega⟩
    omega

/-! ## Empty files -/

theorem placed_empty : ∀ (files : List InputFile) {k : Nat} {data : Nat → List UInt8},
    (∀ f ∈ files, f.contents = []) → i ≠ ROOTINO → placed files k data i = data i := by
  intro files
  induction files with
  | nil => exact fun _ _ => rfl
  | cons f fs ih =>
      intro k data hempty hi
      unfold placed
      simp only
      rw [hempty f List.mem_cons_self, List.append_nil, Function.update_eq_self,
        ih (fun g hg => hempty g (List.mem_cons_of_mem f hg)) hi, Function.update_of_ne hi]

/-- `mkfs` makes an image of empty files. -/
theorem mkfs_empty (files : List InputFile) (hn : 2 + files.length ≤ NINODES)
    (hslash : ¬ Slashed files) (hempty : ∀ f ∈ files, f.contents = []) :
    ∃ s, mkfs files = some s ∧ Built s (contentsOf files) ∧ s.freeinode = 2 + files.length := by
  have hnodes : NINODES = 200 := rfl
  have hlen := contentsOf_root_length files
  have hother : ∀ i, i ≠ ROOTINO → contentsOf files i = [] := by
    intro i hi
    unfold contentsOf
    rw [placed_empty files hempty hi, Function.update_of_ne hi]
  have hlarge : ¬ TooLarge (contentsOf files) := by
    rintro (⟨i, -, hlarge⟩ | hfull)
    · by_cases hi : i = ROOTINO
      · have hmax : 3200 < MAXFILE * BSIZE := by decide
        rw [hi, hlen] at hlarge
        omega
      · rw [hother i hi] at hlarge
        exact Nat.not_lt_zero _ hlarge
    · have hused : used (contentsOf files) = slotsFor (contentsOf files ROOTINO).length := by
        refine Finset.sum_eq_single ROOTINO (fun i _ hi => ?_) fun hmem => ?_
        · show slotsFor (contentsOf files i).length = 0
          rw [hother i hi]
          decide
        · exact absurd (Finset.mem_range.mpr (by decide)) hmem
      have hmono : slotsFor (contentsOf files ROOTINO).length ≤ slotsFor 3200 :=
        slotsFor_mono (by omega)
      have hroom : nmeta + slotsFor 3200 < FSSIZE := by decide
      omega
  rcases mkfs_built files hn with hrun | ⟨-, hfail⟩
  · exact hrun
  · exact absurd hfail (not_or.mpr ⟨hslash, hlarge⟩)

/-- An empty file with a name of one character. -/
def emptyFile (i : Fin 30) : InputFile where
  name := [UInt8.ofNat (0x41 + i)]
  chunks := []
  name_nul := by
    revert i
    decide

theorem emptyFile_slash (i : Fin 30) : (0x2F : UInt8) ∉ (emptyFile i).name := by
  revert i
  decide

/-- A file of 600 bytes, which `read` returns in two parts, and an empty file. -/
def twoFiles : List InputFile :=
  [{ name := [0x66]
     chunks := [List.replicate 512 0x78, List.replicate 88 0x79]
     name_nul := by decide }, emptyFile 0]

theorem mkfs_wellFormed_twoFiles :
    ∃ s, mkfs twoFiles = some s ∧ s.freeinode = 4 ∧ WellFormed s := by
  rcases mkfs_built twoFiles (by decide) with ⟨s, hrun, -, hfree⟩ | ⟨-, hslash | hlarge⟩
  · exact ⟨s, hrun, hfree, (mkfs_wellFormed_iff _ s hrun).mpr (by decide)⟩
  · exact absurd hslash (by unfold Slashed; decide)
  · exact absurd hlarge (by unfold TooLarge; decide +kernel)

/-- Thirty files and the first two entries fill a block. -/
theorem not_all_wellFormed : ¬ ∀ files s, mkfs files = some s → WellFormed s := by
  intro hall
  have hmem : ∀ f ∈ List.ofFn emptyFile, ∃ i, emptyFile i = f := fun f hf =>
    List.mem_ofFn.mp hf
  obtain ⟨s, hrun, hbuilt, hfree⟩ := mkfs_empty (List.ofFn emptyFile)
    (by rw [List.length_ofFn]; decide)
    (by
      rintro ⟨f, hf, hslash⟩
      obtain ⟨i, rfl⟩ := hmem f hf
      exact emptyFile_slash i hslash)
    (by
      intro f hf
      obtain ⟨i, rfl⟩ := hmem f hf
      rfl)
  rw [List.length_ofFn] at hfree
  have hlen := contentsOf_root_length (List.ofFn emptyFile)
  rw [List.length_ofFn] at hlen
  refine (hbuilt.wellFormed_iff ?_ ?_).mp (hall _ s hrun) ?_
  · rw [hfree]
    decide
  · rw [hfree]
    decide
  · rw [hlen]
    rfl

end OsWork.Ports.Mkfs

import Mathlib.Algebra.BigOperators.Group.Finset.Basic
import Mathlib.Algebra.Order.BigOperators.Group.Finset
import OsWork.Ports.MkfsLayout
import OsWork.Verified.ByteBits

/-!
# The image that `mkfs` writes

Between two calls of `iappend` the image holds the files: the inodes have their types and sizes,
and their references are those to their bytes.  At the end the size of the root directory is
rounded, and the bitmap is written.

## Main results

* `Holds.ialloc`, `Holds.iappend` — what the two calls keep.
* `mkfs_built` — the image at the end, where there is an inode for each file.
-/

namespace OsWork.Ports.Mkfs

open OsWork.Verified.ByteWords OsWork.Verified.ByteBits OsWork.Ports.FsLayout
open Function (update)

/-! ## Inodes in the image -/

variable {m m' : Image} {ip : Bytes} {i j k b o : Nat}

theorem IBLOCK_lt (hi : i < NINODES) : Image.IBLOCK i < bmapstart := by
  have hdiv : i / IPB ≤ 199 / IPB := Nat.div_le_div_right (by unfold NINODES at hi; omega)
  have hblocks : 199 / IPB + inodestart < bmapstart := by decide
  exact Nat.lt_of_le_of_lt (Nat.add_le_add_right hdiv _) hblocks

theorem le_IBLOCK (i : Nat) : inodestart ≤ Image.IBLOCK i := Nat.le_add_left _ _

theorem IBLOCK_lt_len (hlen : m.len = FSSIZE) (hi : i < NINODES) : Image.IBLOCK i < m.len := by
  rw [hlen]
  exact Nat.lt_trans (IBLOCK_lt hi) (by decide)

theorem rinode_some (hlen : m.len = FSSIZE) (hi : i < NINODES) : m.rinode i = some (m.inode i) := by
  unfold Image.rinode Image.rsect
  rw [if_pos (IBLOCK_lt_len hlen hi)]
  rfl

/-- `m'` is `m` where inode `i` is `ip`. -/
structure Written (m : Image) (i : Nat) (ip : Bytes) (m' : Image) : Prop where
  len : m'.len = FSSIZE
  self : ∀ o, o < dinodeSize → m'.inode i o = ip o
  other : ∀ k o, k ≠ i → o < dinodeSize → m'.inode k o = m.inode k o
  sector : ∀ b, b < inodestart ∨ bmapstart ≤ b → m'.sector b = m.sector b

theorem winode_written (hlen : m.len = FSSIZE) (hi : i < NINODES) (ip : Bytes) :
    ∃ m', m.winode i ip = some m' ∧ Written m i ip m' := by
  have hmeta := IBLOCK_lt hi
  have hle := le_IBLOCK i
  have hlt := IBLOCK_lt_len hlen hi
  unfold Image.winode Image.rsect
  rw [if_pos hlt, Option.map_some]
  refine ⟨_, rfl, ?_⟩
  exact
    { len := by
        show max m.len (Image.IBLOCK i + 1) = FSSIZE
        omega
      self := by
        intro o ho
        show update m.sector (Image.IBLOCK i) _ (Image.IBLOCK i) (i % IPB * dinodeSize + o) = ip o
        rw [Function.update_self, copy_inside ho]
      other := by
        intro k o hk ho
        show update m.sector (Image.IBLOCK i) _ (Image.IBLOCK k) (k % IPB * dinodeSize + o) =
          m.sector (Image.IBLOCK k) (k % IPB * dinodeSize + o)
        by_cases hblock : Image.IBLOCK k = Image.IBLOCK i
        · rw [hblock, Function.update_self]
          apply copy_outside
          unfold Image.IBLOCK at hblock
          unfold IPB dinodeSize at *
          omega
        · rw [Function.update_of_ne hblock]
      sector := by
        intro b hb
        exact Function.update_of_ne (by omega) _ _ }

section Written

variable (h : Written m i ip m')

include h

theorem Written.u32_self (ho : o + 4 ≤ dinodeSize) : u32 (m'.inode i) o = u32 ip o :=
  u32_congr fun r hr => h.self (o + r) (by omega)

theorem Written.u32_other (hk : k ≠ i) (ho : o + 4 ≤ dinodeSize) :
    u32 (m'.inode k) o = u32 (m.inode k) o :=
  u32_congr fun r hr => h.other k (o + r) hk (by omega)

theorem Written.u16_self (ho : o + 2 ≤ dinodeSize) : u16 (m'.inode i) o = u16 ip o :=
  u16_congr fun r hr => h.self (o + r) (by omega)

theorem Written.u16_other (hk : k ≠ i) (ho : o + 2 ≤ dinodeSize) :
    u16 (m'.inode k) o = u16 (m.inode k) o :=
  u16_congr fun r hr => h.other k (o + r) hk (by omega)

/-- The addresses in the image are those of `ip`. -/
theorem Written.addrs (hk : k ≤ NDIRECT) : m'.addrs j k = withDin m.addrs i ip j k := by
  have hfield : addrField k + 4 ≤ dinodeSize := by
    unfold addrField dinodeSize
    unfold NDIRECT at hk
    omega
  by_cases hji : j = i
  · rw [hji, withDin_self]
    exact h.u32_self hfield
  · rw [withDin_of_ne hji]
    exact h.u32_other hji hfield

end Written

/-! ## Between two calls -/

/-- The type of an inode, where those below `freeinode` are allocated. -/
def typeIn (freeinode i : Nat) : Nat :=
  if i = 0 ∨ freeinode ≤ i then 0 else if i = ROOTINO then T_DIR else T_FILE

/-- The number of blocks that files with these contents need. -/
def used (data : Nat → List UInt8) : Nat := ∑ i ∈ Finset.range NINODES, slots data i

/-- A file or the image is too small for the contents. -/
def TooLarge (data : Nat → List UInt8) : Prop :=
  (∃ i, i < NINODES ∧ MAXFILE * BSIZE < (data i).length) ∨ FSSIZE < nmeta + used data

/-- The image holds files with the bytes `data`. -/
structure Holds (s : State) (data : Nat → List UInt8) : Prop where
  len : s.image.len = FSSIZE
  sb : s.image.sector 1 = superblock
  laid : Laid NINODES s.image.addrs s.image.sector s.freeblock (slots data) data
  fits : s.freeblock ≤ FSSIZE
  count : s.freeblock = nmeta + used data
  sizes : ∀ i, i < NINODES → u32 (s.image.inode i) sizeField = (data i).length
  types : ∀ i, i < NINODES → u16 (s.image.inode i) 0 = typeIn s.freeinode i
  unused : ∀ i, s.freeinode ≤ i → data i = []

variable {s s' : State} {data data' : Nat → List UInt8} {p : List UInt8} {files : List InputFile}
  {f : InputFile}

/-- The number of blocks after the bytes `p` have been appended to a file. -/
theorem used_append (data : Nat → List UInt8) (p : List UInt8) (hi : i < NINODES) :
    used (update data i (data i ++ p)) + slotsFor (data i).length =
      used data + slotsFor ((data i).length + p.length) := by
  have hmem : i ∈ Finset.range NINODES := Finset.mem_range.mpr hi
  have hrest : ∑ j ∈ (Finset.range NINODES).erase i, slots (update data i (data i ++ p)) j =
      ∑ j ∈ (Finset.range NINODES).erase i, slots data j := by
    apply Finset.sum_congr rfl
    intro j hj
    rw [slots_update, Function.update_of_ne (Finset.ne_of_mem_erase hj)]
  have hself : slots (update data i (data i ++ p)) i = slotsFor ((data i).length + p.length) := by
    rw [slots_update, Function.update_self, List.length_append]
  have hbefore : slots data i = slotsFor (data i).length := rfl
  have hnew := Finset.add_sum_erase _ (slots (update data i (data i ++ p))) hmem
  have hold := Finset.add_sum_erase _ (slots data) hmem
  unfold used
  omega

theorem TooLarge.mono (h : TooLarge data) (hle : ∀ i, (data i).length ≤ (data' i).length) :
    TooLarge data' := by
  rcases h with ⟨i, hi, hlarge⟩ | hfull
  · exact .inl ⟨i, hi, Nat.lt_of_lt_of_le hlarge (hle i)⟩
  · have hsum : used data ≤ used data' := Finset.sum_le_sum fun i _ => slotsFor_mono (hle i)
    exact .inr (by omega)

theorem length_le_append (data : Nat → List UInt8) (i j : Nat) (p : List UInt8) :
    (data j).length ≤ (update data i (data i ++ p) j).length := by
  by_cases hji : j = i
  · rw [hji, Function.update_self, List.length_append]
    exact Nat.le_add_right _ _
  · rw [Function.update_of_ne hji]

/-- No file is larger than its references allow. -/
theorem Laid.small {addr : Nat → Nat → Nat} {sec : Nat → Bytes} {fb : Nat} {c : Nat → Nat}
    (h : Laid NINODES addr sec fb c data) (hi : i < NINODES) :
    (data i).length ≤ MAXFILE * BSIZE := by
  by_contra hlarge
  have hmax := (h.room i (MAXFILE * BSIZE) hi (by omega)).2
  have hslot : slotOf (MAXFILE * BSIZE / BSIZE) = maxSlots := by decide
  omega

theorem typeIn_succ {n : Nat} (h : i ≠ n) : typeIn (n + 1) i = typeIn n i := by
  have hle : n + 1 ≤ i ↔ n ≤ i := by omega
  unfold typeIn
  simp only [hle]

/-- `ialloc` makes an empty file. -/
theorem Holds.ialloc {type : Nat} (h : Holds s data) (hi : s.freeinode < NINODES)
    (htype : type < 65536) (hty : typeIn (s.freeinode + 1) s.freeinode = type) :
    ∃ s', s.ialloc type = some (s', s.freeinode) ∧ Holds s' data ∧
      s'.freeinode = s.freeinode + 1 := by
  obtain ⟨m, hrun, hw⟩ := winode_written h.len hi
    (put32 (put16 (put16 zeroes 0 type) 6 1) sizeField 0)
  have hempty := h.unused s.freeinode (Nat.le_refl _)
  unfold State.ialloc
  simp only
  rw [hrun, Option.map_some]
  refine ⟨_, rfl, ?_, rfl⟩
  exact
    { len := hw.len
      sb := (hw.sector 1 (.inl (by decide))).trans h.sb
      laid := by
        refine h.laid.congr ?_ fun b hb => hw.sector b (.inr (Nat.le_trans (by decide) hb))
        intro j k hj hk
        rw [hw.addrs hk]
        by_cases hji : j = s.freeinode
        · have hzero : s.image.addrs j k = 0 := by
            by_contra hne
            have hlive := h.laid.refs.live j k hj (Nat.lt_of_le_of_lt hk (by decide))
            rw [refAt_addr hk] at hlive
            have hlt := hlive.mp hne
            unfold slots at hlt
            rw [hji, hempty] at hlt
            exact absurd hlt (Nat.not_lt_zero k)
          rw [hzero, hji, withDin_self, u32_put32_ne (by unfold sizeField addrField; omega)]
          have hbytes : ∀ r, r < 4 →
              put16 (put16 zeroes 0 type) 6 1 (addrField k + r) = zeroes (addrField k + r) := by
            intro r hr
            rw [put16_of_ne (by unfold addrField; omega), put16_of_ne (by unfold addrField; omega)]
          rw [u32_congr hbytes]
          rfl
        · rw [withDin_of_ne hji]
      fits := h.fits
      count := h.count
      sizes := by
        intro j hj
        by_cases hji : j = s.freeinode
        · rw [hji, hw.u32_self (by decide), u32_put32_self (by decide), hempty]
          rfl
        · rw [hw.u32_other hji (by decide)]
          exact h.sizes j hj
      types := by
        intro j hj
        by_cases hji : j = s.freeinode
        · have hfirst : u16 (put16 (put16 zeroes 0 type) 6 1) 0 = u16 (put16 zeroes 0 type) 0 :=
            u16_congr fun r hr => put16_of_ne (by omega)
          rw [hji, hw.u16_self (by decide), u16_put32_ne (.inl (by decide)), hfirst,
            u16_put16_self, Nat.mod_eq_of_lt htype]
          exact hty.symm
        · rw [hw.u16_other hji (by decide)]
          exact (h.types j hj).trans (typeIn_succ hji).symm
      unused := fun j hj => h.unused j (Nat.le_of_succ_le hj) }

/-- An `iappend` begins. -/
theorem Holds.mid (h : Holds s data) (i : Nat) :
    Mid s i (slots data) data s (s.image.inode i) where
  len := h.len
  freeinode := rfl
  metas _ _ := rfl
  header _ _ := rfl
  laid := by
    have hsame : withDin s.image.addrs i (s.image.inode i) = s.image.addrs :=
      Function.update_eq_self i s.image.addrs
    rw [hsame]
    exact h.laid
  fits := h.fits

/-- The inodes are as they were. -/
theorem Mid.inode {s₀ : State} {c : Nat → Nat} {din : Bytes} (h : Mid s₀ i c data s din)
    (hj : j < NINODES) : s.image.inode j = s₀.image.inode j := by
  unfold Image.inode
  rw [h.metas _ (Nat.lt_trans (IBLOCK_lt hj) (by decide))]

/-- It ends with the new size in the inode. -/
theorem Holds.of_mid {s₁ : State} {din : Bytes} (h : Holds s data) (hi : i < s.freeinode)
    (hlt : i < NINODES)
    (hmid : Mid s i (slots (update data i (data i ++ p))) (update data i (data i ++ p)) s₁ din)
    (hcount : s₁.freeblock + slotsFor (data i).length =
      s.freeblock + slotsFor ((data i).length + p.length))
    (hw : Written s₁.image i (put32 din sizeField ((data i).length + p.length)) m) :
    Holds { s₁ with image := m } (update data i (data i ++ p)) where
  len := hw.len
  sb := (hw.sector 1 (.inl (by decide))).trans ((hmid.metas 1 (by decide)).trans h.sb)
  laid := by
    refine hmid.laid.congr ?_ fun b hb => hw.sector b (.inr (Nat.le_trans (by decide) hb))
    intro j k hj hk
    rw [hw.addrs hk]
    by_cases hji : j = i
    · rw [hji, withDin_self, withDin_self]
      exact u32_put32_ne (.inr (by unfold sizeField addrField; omega))
    · rw [withDin_of_ne hji, withDin_of_ne hji]
      unfold Image.addrs
      rw [hmid.inode hj]
  fits := hmid.fits
  count := by
    have hused := used_append data p hlt
    have hbefore := h.count
    show s₁.freeblock = _
    omega
  sizes := by
    intro j hj
    by_cases hji : j = i
    · have hsmall := hmid.laid.small hlt
      rw [Function.update_self, List.length_append] at hsmall
      have hmax : MAXFILE * BSIZE < 4294967296 := by decide
      rw [hji, Function.update_self, hw.u32_self (by decide), u32_put32_self (by omega),
        List.length_append]
    · rw [Function.update_of_ne hji, hw.u32_other hji (by decide), hmid.inode hj]
      exact h.sizes j hj
  types := by
    intro j hj
    show u16 (m.inode j) 0 = typeIn s₁.freeinode j
    rw [hmid.freeinode, ← h.types j hj]
    by_cases hji : j = i
    · rw [hji, hw.u16_self (by decide), u16_put32_ne (.inl (by decide))]
      exact u16_congr fun r hr => hmid.header (0 + r) (by omega)
    · rw [hw.u16_other hji (by decide), hmid.inode hj]
  unused := by
    intro j hj
    have hle : s.freeinode ≤ j := by
      rw [← hmid.freeinode]
      exact hj
    rw [Function.update_of_ne (by omega)]
    exact h.unused j hle

/-- `iappend` appends the bytes, or they are too many. -/
theorem Holds.iappend (h : Holds s data) (hi : i < s.freeinode) (hlt : i < NINODES)
    (p : List UInt8) :
    (∃ s', s.iappend i p = some s' ∧ Holds s' (update data i (data i ++ p)) ∧
      s'.freeinode = s.freeinode) ∨
    s.iappend i p = none ∧ TooLarge (update data i (data i ++ p)) := by
  unfold State.iappend
  rw [rinode_some h.len hlt, Option.bind_some, h.sizes i hlt]
  rcases Mid.appendLoop hlt p.length (Nat.le_refl _) (h.mid i) with
    ⟨s₁, din, hrun, hmid, hcount⟩ | ⟨hrun, hfull⟩
  · rw [hrun, Option.bind_some]
    obtain ⟨m, hwrite, hw⟩ := winode_written hmid.len hlt
      (put32 din sizeField ((data i).length + p.length))
    simp only
    rw [hwrite, Option.map_some]
    exact .inl ⟨_, rfl, h.of_mid hi hlt hmid hcount hw, hmid.freeinode⟩
  · rw [hrun]
    refine .inr ⟨rfl, ?_⟩
    rcases hfull with hlarge | hfull
    · refine .inl ⟨i, hlt, ?_⟩
      rw [Function.update_self, List.length_append]
      exact hlarge
    · right
      have hused := used_append data p hlt
      have hbefore := h.count
      omega

/-! ## The files -/

theorem Holds.appendChunks : ∀ (ps : List (List UInt8)) {s : State} {data : Nat → List UInt8},
    Holds s data → i < s.freeinode → i < NINODES →
    (∃ s', State.appendChunks i ps s = some s' ∧ Holds s' (update data i (data i ++ ps.flatten)) ∧
      s'.freeinode = s.freeinode) ∨
    State.appendChunks i ps s = none ∧ TooLarge (update data i (data i ++ ps.flatten)) := by
  intro ps
  induction ps with
  | nil =>
      intro s data h _ _
      rw [List.flatten_nil, List.append_nil, Function.update_eq_self]
      exact .inl ⟨s, rfl, h, rfl⟩
  | cons p ps ih =>
      intro s data h hi hlt
      have hdata : update (update data i (data i ++ p)) i
          (update data i (data i ++ p) i ++ ps.flatten) =
            update data i (data i ++ (p :: ps).flatten) := by
        rw [Function.update_idem, Function.update_self, List.flatten_cons, List.append_assoc]
      unfold State.appendChunks
      rcases h.iappend hi hlt p with ⟨s₁, hrun, h₁, hfree⟩ | ⟨hrun, hlarge⟩
      · rw [hrun, Option.bind_some]
        have hrest := ih h₁ (by rw [hfree]; exact hi) hlt
        rw [hdata, hfree] at hrest
        exact hrest
      · rw [hrun]
        refine .inr ⟨rfl, hlarge.mono ?_⟩
        rw [← hdata]
        exact fun j => length_le_append _ i j _

/-- The contents of the files after `addFiles`, where `k` is the first free inode. -/
def placed : List InputFile → Nat → (Nat → List UInt8) → Nat → List UInt8
  | [], _, data => data
  | f :: fs, k, data =>
      let data := update data ROOTINO (data ROOTINO ++ dirent k f.entryName)
      placed fs (k + 1) (update data k (data k ++ f.contents))

theorem length_le_placed : ∀ (files : List InputFile) (k : Nat) (data : Nat → List UInt8) (i : Nat),
    (data i).length ≤ (placed files k data i).length := by
  intro files
  induction files with
  | nil => exact fun _ _ _ => Nat.le_refl _
  | cons f fs ih =>
      intro k data i
      unfold placed
      exact Nat.le_trans (Nat.le_trans (length_le_append data ROOTINO i _)
        (length_le_append _ k i _)) (ih _ _ _)

theorem Holds.addFile (h : Holds s data) (hk : s.freeinode = k) (hroot : ROOTINO < k)
    (hlt : k < NINODES) (hname : (0x2F : UInt8) ∉ f.name) :
    (∃ s', s.addFile f = some s' ∧ Holds s' (placed [f] k data) ∧ s'.freeinode = k + 1) ∨
    s.addFile f = none ∧ TooLarge (placed [f] k data) := by
  have htype : typeIn (s.freeinode + 1) s.freeinode = T_FILE := by
    unfold typeIn
    rw [if_neg (by unfold ROOTINO at hroot; omega), if_neg (by omega)]
  obtain ⟨s₁, hrun₁, h₁, hfree₁⟩ := h.ialloc (by rw [hk]; exact hlt) (by decide) htype
  unfold State.addFile
  rw [if_neg hname, hrun₁, Option.bind_some, hk]
  simp only
  rcases h₁.iappend (i := ROOTINO) (by omega) (by decide) (dirent k f.entryName) with
    ⟨s₂, hrun₂, h₂, hfree₂⟩ | ⟨hrun₂, hlarge⟩
  · rw [hrun₂, Option.bind_some]
    have hrest := h₂.appendChunks f.chunks (i := k) (by omega) hlt
    rw [hfree₂, hfree₁, hk] at hrest
    exact hrest
  · rw [hrun₂]
    exact .inr ⟨rfl, hlarge.mono fun j => length_le_append _ k j _⟩

/-- `mkfs` does not take a name with a slash. -/
def Slashed (files : List InputFile) : Prop := ∃ f ∈ files, (0x2F : UInt8) ∈ f.name

theorem Holds.addFiles : ∀ (files : List InputFile) {s : State} {data : Nat → List UInt8} {k : Nat},
    Holds s data → s.freeinode = k → ROOTINO < k → k + files.length ≤ NINODES →
    (∃ s', State.addFiles files s = some s' ∧ Holds s' (placed files k data) ∧
      s'.freeinode = k + files.length) ∨
    State.addFiles files s = none ∧ (Slashed files ∨ TooLarge (placed files k data)) := by
  intro files
  induction files with
  | nil => exact fun h hk _ _ => .inl ⟨_, rfl, h, hk⟩
  | cons f fs ih =>
      intro s data k h hk hroot hlt
      rw [List.length_cons] at hlt
      unfold State.addFiles
      by_cases hname : (0x2F : UInt8) ∈ f.name
      · right
        unfold State.addFile
        rw [if_pos hname]
        exact ⟨rfl, .inl ⟨f, List.mem_cons_self, hname⟩⟩
      rcases h.addFile hk hroot (by omega) hname with ⟨s₁, hrun, h₁, hfree⟩ | ⟨hrun, hlarge⟩
      · rw [hrun, Option.bind_some]
        rcases ih h₁ hfree (by omega) (by omega) with ⟨s', hrun', h', hfree'⟩ | ⟨hrun', hfail⟩
        · refine .inl ⟨s', hrun', h', ?_⟩
          rw [hfree', List.length_cons]
          omega
        · refine .inr ⟨hrun', hfail.imp ?_ id⟩
          rintro ⟨g, hg, hslash⟩
          exact ⟨g, List.mem_cons_of_mem _ hg, hslash⟩
      · rw [hrun]
        exact .inr ⟨rfl, .inr (hlarge.mono fun j => length_le_placed fs (k + 1) _ j)⟩

/-! ## The whole program -/

theorem format_len : ∀ n, (format n).len = n := by
  intro n
  induction n with
  | zero => rfl
  | succ n ih =>
      show max (format n).len (n + 1) = n + 1
      omega

theorem format_sector : ∀ n, (format n).sector = fun _ => zeroes := by
  intro n
  induction n with
  | zero => rfl
  | succ n ih =>
      show update (format n).sector n zeroes = _
      rw [ih]
      exact Function.update_eq_self n _

/-- The state in which `main` makes the root directory. -/
def start : State where
  image := (format FSSIZE).wsect 1 superblock
  freeinode := 1
  freeblock := nmeta

theorem start_sector (h : b ≠ 1) : start.image.sector b = zeroes := by
  show update (format FSSIZE).sector 1 superblock b = zeroes
  rw [Function.update_of_ne h, format_sector]

theorem start_inode (i : Nat) : start.image.inode i = zeroes := by
  have hle := le_IBLOCK i
  have hstart : inodestart = 32 := rfl
  unfold Image.inode
  rw [start_sector (by omega)]
  rfl

theorem start_ref (i k : Nat) : refAt start.image.addrs start.image.sector i k = 0 := by
  have hzero : ∀ k, start.image.addrs i k = 0 := by
    intro k
    unfold Image.addrs
    rw [start_inode]
    rfl
  unfold refAt
  rw [if_pos (hzero NDIRECT), hzero]
  exact ite_self 0

theorem slots_none (i : Nat) : slots (fun _ => []) i = 0 := by
  show slotsFor 0 = 0
  decide

theorem start_holds : Holds start fun _ => [] where
  len := by
    show max (format FSSIZE).len (1 + 1) = FSSIZE
    rw [format_len]
    rfl
  sb := by
    show update (format FSSIZE).sector 1 superblock 1 = superblock
    rw [Function.update_self]
  laid :=
    { low := Nat.le_refl _
      refs :=
        { inUse := fun i k _ _ hne => absurd (start_ref i k) hne
          inj := fun i _ k _ _ _ _ _ hne => absurd (start_ref i k) hne
          live := by
            intro i k _ _
            rw [slots_none]
            exact iff_of_false (fun hne => hne (start_ref i k)) (Nat.not_lt_zero k) }
      fresh := by
        intro b hb _ j
        have hmeta : 1 < start.freeblock := by decide
        rw [start_sector (by omega)]
        rfl
      room := fun _ o _ ho => absurd ho (Nat.not_lt_zero o)
      content := fun _ o _ ho => absurd ho (Nat.not_lt_zero o) }
  fits := by decide
  count := by
    have hnone : used (fun _ => []) = 0 := Finset.sum_eq_zero fun i _ => slots_none i
    rw [hnone]
    rfl
  sizes i _ := by
    rw [start_inode]
    rfl
  types i _ := by
    rw [start_inode]
    unfold typeIn
    rw [if_pos (by show i = 0 ∨ 1 ≤ i; omega)]
    rfl
  unused _ _ := rfl

/-- The first two entries of the root directory. -/
def dots : List UInt8 := dirent ROOTINO [0x2E] ++ dirent ROOTINO [0x2E, 0x2E]

/-- The contents of the files of the image. -/
def contentsOf (files : List InputFile) : Nat → List UInt8 :=
  placed files 2 (update (fun _ => []) ROOTINO dots)

theorem start_makeRoot :
    (∃ s, start.makeRoot = some s ∧ Holds s (update (fun _ => []) ROOTINO dots) ∧
      s.freeinode = 2) ∨
    start.makeRoot = none ∧ TooLarge (update (fun _ => []) ROOTINO dots) := by
  have hdata : update (update (fun _ => []) ROOTINO ([] ++ dirent ROOTINO [0x2E])) ROOTINO
      (update (fun _ => []) ROOTINO ([] ++ dirent ROOTINO [0x2E]) ROOTINO ++
        dirent ROOTINO [0x2E, 0x2E]) = update (fun _ => []) ROOTINO dots := by
    rw [Function.update_idem, Function.update_self]
    rfl
  obtain ⟨s₁, hrun₁, h₁, hfree₁⟩ := start_holds.ialloc (by decide)
    (show T_DIR < 65536 by decide) rfl
  have hone : start.freeinode = 1 := rfl
  unfold State.makeRoot
  rw [hrun₁, Option.bind_some, hone]
  simp only
  rw [if_neg (by decide)]
  rcases h₁.iappend (i := 1) (by omega) (by decide) (dirent 1 [0x2E]) with
    ⟨s₂, hrun₂, h₂, hfree₂⟩ | ⟨hrun₂, hlarge⟩
  · rw [hrun₂, Option.bind_some]
    rw [hone] at hfree₁
    rcases h₂.iappend (i := 1) (by omega) (by decide) (dirent 1 [0x2E, 0x2E]) with
      ⟨s₃, hrun₃, h₃, hfree₃⟩ | ⟨hrun₃, hlarge⟩
    · exact .inl ⟨s₃, hrun₃, hdata ▸ h₃, by omega⟩
    · exact .inr ⟨hrun₃, hdata ▸ hlarge⟩
  · rw [hrun₂]
    refine .inr ⟨rfl, hlarge.mono fun j => ?_⟩
    rw [← hdata]
    exact length_le_append _ ROOTINO j _

/-- The size of an inode at the end, where that of the root directory has been rounded. -/
def finalSize (data : Nat → List UInt8) (i : Nat) : Nat :=
  if i = ROOTINO then ((data i).length / BSIZE + 1) * BSIZE else (data i).length

/-- The image is that of files with the bytes `data`. -/
structure Built (s : State) (data : Nat → List UInt8) : Prop where
  len : s.image.len = FSSIZE
  sb : s.image.sector 1 = superblock
  laid : Laid NINODES s.image.addrs s.image.sector s.freeblock (slots data) data
  fits : s.freeblock ≤ FSSIZE
  sizes : ∀ i, i < NINODES → u32 (s.image.inode i) sizeField = finalSize data i
  types : ∀ i, i < NINODES → u16 (s.image.inode i) 0 = typeIn s.freeinode i
  bitmap : s.image.sector bmapstart = State.bitmap s.freeblock

/-- The end of `main`: the size of the root directory is rounded, and the bitmap is written. -/
theorem Holds.finish (h : Holds s data) :
    ∃ s', s.fixRoot.bind State.balloc = some s' ∧ Built s' data ∧ s'.freeinode = s.freeinode := by
  have hlt : ROOTINO < NINODES := by decide
  obtain ⟨m, hrun, hw⟩ := winode_written h.len hlt
    (put32 (s.image.inode ROOTINO) sizeField (((data ROOTINO).length / BSIZE + 1) * BSIZE))
  unfold State.fixRoot
  rw [rinode_some h.len hlt, Option.bind_some, h.sizes ROOTINO hlt]
  simp only
  rw [hrun, Option.map_some, Option.bind_some]
  have hfits := h.fits
  have hbits : FSSIZE < BSIZE * 8 := by decide
  unfold State.balloc
  rw [if_pos (by show s.freeblock < BSIZE * 8; omega)]
  refine ⟨_, rfl, ?_, rfl⟩
  have hinode : ∀ i, i < NINODES →
      (m.wsect bmapstart (State.bitmap s.freeblock)).inode i = m.inode i := by
    intro i hi
    unfold Image.inode
    have hsame : (m.wsect bmapstart (State.bitmap s.freeblock)).sector (Image.IBLOCK i) =
        m.sector (Image.IBLOCK i) := Function.update_of_ne (Nat.ne_of_lt (IBLOCK_lt hi)) _ _
    rw [hsame]
  exact
    { len := by
        show max m.len (bmapstart + 1) = FSSIZE
        rw [hw.len]
        rfl
      sb := by
        show update m.sector bmapstart (State.bitmap s.freeblock) 1 = superblock
        rw [Function.update_of_ne (by decide), hw.sector 1 (.inl (by decide))]
        exact h.sb
      laid := by
        refine h.laid.congr ?_ ?_
        · intro j k hj hk
          show u32 ((m.wsect bmapstart (State.bitmap s.freeblock)).inode j) (addrField k) = _
          rw [hinode j hj]
          refine (hw.addrs (j := j) hk).trans ?_
          by_cases hji : j = ROOTINO
          · rw [hji, withDin_self]
            exact u32_put32_ne (.inr (by unfold sizeField addrField; omega))
          · rw [withDin_of_ne hji]
        · intro b hb
          have hmeta : bmapstart < nmeta := by decide
          show update m.sector bmapstart (State.bitmap s.freeblock) b = _
          rw [Function.update_of_ne (by omega), hw.sector b (.inr (by omega))]
      fits := h.fits
      sizes := by
        intro j hj
        show u32 ((m.wsect bmapstart (State.bitmap s.freeblock)).inode j) sizeField = _
        rw [hinode j hj]
        unfold finalSize
        by_cases hji : j = ROOTINO
        · have hsmall := h.laid.small hlt
          have hmax : MAXFILE * BSIZE + BSIZE < 4294967296 := by decide
          rw [if_pos hji, hji, hw.u32_self (by decide)]
          apply u32_put32_self
          have hdiv := Nat.div_mul_le_self (data ROOTINO).length BSIZE
          rw [Nat.add_mul]
          omega
        · rw [if_neg hji, hw.u32_other hji (by decide)]
          exact h.sizes j hj
      types := by
        intro j hj
        show u16 ((m.wsect bmapstart (State.bitmap s.freeblock)).inode j) 0 = _
        rw [hinode j hj]
        refine Eq.trans ?_ (h.types j hj)
        by_cases hji : j = ROOTINO
        · rw [hji, hw.u16_self (by decide), u16_put32_ne (.inl (by decide))]
        · rw [hw.u16_other hji (by decide)]
      bitmap := by
        show update m.sector bmapstart (State.bitmap s.freeblock) bmapstart = _
        rw [Function.update_self] }

theorem mkfs_eq (files : List InputFile) : mkfs files = start.makeRoot.bind fun s =>
    (State.addFiles files s).bind fun s => s.fixRoot.bind State.balloc := rfl

/-- With an inode for each file `mkfs` makes the image, or a name has a slash, or the contents are
too large. -/
theorem mkfs_built (files : List InputFile) (hn : 2 + files.length ≤ NINODES) :
    (∃ s, mkfs files = some s ∧ Built s (contentsOf files) ∧ s.freeinode = 2 + files.length) ∨
    mkfs files = none ∧ (Slashed files ∨ TooLarge (contentsOf files)) := by
  rw [mkfs_eq]
  rcases start_makeRoot with ⟨s₁, hrun₁, h₁, hfree₁⟩ | ⟨hrun₁, hlarge⟩
  · rw [hrun₁, Option.bind_some]
    rcases h₁.addFiles files hfree₁ (by decide) hn with ⟨s₂, hrun₂, h₂, hfree₂⟩ | ⟨hrun₂, hfail⟩
    · rw [hrun₂, Option.bind_some]
      obtain ⟨s₃, hrun₃, h₃, hfree₃⟩ := h₂.finish
      exact .inl ⟨s₃, hrun₃, h₃, hfree₃.trans hfree₂⟩
    · rw [hrun₂]
      exact .inr ⟨rfl, hfail⟩
  · rw [hrun₁]
    exact .inr ⟨rfl, .inr (hlarge.mono (length_le_placed files 2 _))⟩

/-! ## The bitmap -/

theorem bitAt_bitmap : ∀ n, bitAt (State.bitmap n) b = decide (b < n) := by
  intro n
  induction n with
  | zero =>
      rw [decide_eq_false (Nat.not_lt_zero b), bitAt_eq]
      exact BitVec.getLsbD_zero
  | succ n ih =>
      have hset : State.bitmap (n + 1) = setAt (State.bitmap n) n := rfl
      rw [hset, bitAt_setAt, ih, ← Bool.decide_or]
      apply decide_eq_decide.mpr
      omega

/-! ## The root directory -/

/-- The entries of the files in the root directory. -/
def entries : List InputFile → Nat → List UInt8
  | [], _ => []
  | f :: fs, k => dirent k f.entryName ++ entries fs (k + 1)

theorem placed_root : ∀ (files : List InputFile) {k : Nat} {data : Nat → List UInt8}, ROOTINO < k →
    placed files k data ROOTINO = data ROOTINO ++ entries files k := by
  intro files
  induction files with
  | nil => exact fun _ => (List.append_nil _).symm
  | cons f fs ih =>
      intro k data hk
      unfold placed entries
      rw [ih (Nat.lt_succ_of_lt hk), Function.update_of_ne (Nat.ne_of_lt hk), Function.update_self,
        List.append_assoc]

theorem dirent_length (k : Nat) (name : List UInt8) : (dirent k name).length = 16 := by
  unfold dirent DIRSIZ
  simp only [List.length_append, List.length_cons, List.length_nil, List.length_take,
    List.length_replicate]
  omega

theorem entries_length : ∀ (files : List InputFile) (k : Nat),
    (entries files k).length = 16 * files.length := by
  intro files
  induction files with
  | nil => exact fun _ => rfl
  | cons f fs ih =>
      intro k
      unfold entries
      rw [List.length_append, dirent_length, ih, List.length_cons]
      omega

theorem contentsOf_root (files : List InputFile) :
    contentsOf files ROOTINO = dots ++ entries files 2 := by
  unfold contentsOf
  rw [placed_root files (by decide), Function.update_self]

theorem contentsOf_root_length (files : List InputFile) :
    (contentsOf files ROOTINO).length = 16 * (files.length + 2) := by
  rw [contentsOf_root, List.length_append, entries_length]
  unfold dots
  rw [List.length_append, dirent_length, dirent_length]
  omega

end OsWork.Ports.Mkfs

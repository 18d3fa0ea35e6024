import OsWork.Ports.FsCalls

/-!
# Trees on the disk

A consistent disk on which every directory consists of whole entries, and every entry in use names
an inode of the disk.  What the calls store keeps it so: an inode whose contents stay, a new inode,
an entry.

## Main results

* `Tree.iupdate` — an inode is stored on the disk.
* `Tree.set`, `Tree.link` — the disk remains a tree.
-/

namespace OsWork.Ports.FsCalls

open OsWork.Verified.ByteWords OsWork.Verified.SlotMap OsWork.Ports.FsLayout OsWork.Ports.FsDisk
open Function (update)

/-- The numbers in the super block are those of a small disk. -/
structure Small (sb : Superblock) : Prop where
  ok : sb.Ok
  root : ROOTINO < sb.ninodes
  inum : sb.ninodes ≤ 65536

/-- The number of an inode. -/
def Inum (sb : Superblock) (i : Nat) : Prop := 1 ≤ i ∧ i < sb.ninodes

theorem Small.rootInum {sb : Superblock} (h : Small sb) : Inum sb ROOTINO := ⟨by decide, h.root⟩

structure Tree (sb : Superblock) (d : Disk) : Prop where
  consistent : Consistent sb d
  whole : ∀ i, i < sb.ninodes → (sb.load d i).type = T_DIR → (sb.load d i).size % direntSize = 0
  entries : ∀ (i k : Nat) (name : List UInt8) (inum : Nat), i < sb.ninodes →
    (sb.load d i).type = T_DIR → (sb.slots d i)[k]? = some (some (name, inum)) → Inum sb inum

variable {sb : Superblock} {d d' : Disk} {i j k inum : Nat} {ip : Inode}

theorem Tree.dir (h : Tree sb d) (hi : i < sb.ninodes) (htype : (sb.load d i).type = T_DIR) :
    IsDir sb d i := ⟨htype, h.whole i hi htype⟩

theorem Tree.found (h : Tree sb d) (hi : i < sb.ninodes) (htype : (sb.load d i).type = T_DIR)
    {name : List UInt8} (hfind : find name (sb.slots d i) 0 = some (k, inum)) :
    Inum sb inum := h.entries i _ name inum hi htype (find_some _ 0 hfind).2

/-- The inode is the root, or an entry names it. -/
def Named (sb : Superblock) (d : Disk) (i : Nat) : Prop :=
  i = ROOTINO ∨ ∃ (dp k : Nat) (name : List UInt8), dp < sb.ninodes ∧
    (sb.load d dp).type = T_DIR ∧ (sb.slots d dp)[k]? = some (some (name, i))

theorem named_of_found (hi : i < sb.ninodes) (htype : (sb.load d i).type = T_DIR)
    {name : List UInt8} (hfind : find name (sb.slots d i) 0 = some (k, inum)) :
    Named sb d inum := .inr ⟨i, _, name, hi, htype, (find_some _ 0 hfind).2⟩

theorem Tree.named (h : Tree sb d) (hsb : Small sb) (hnamed : Named sb d i) : Inum sb i := by
  rcases hnamed with rfl | ⟨dp, k, name, hdp, htype, hslot⟩
  · exact hsb.rootInum
  · exact h.entries dp k name i hdp htype hslot

/-! ## An inode is stored -/

/-- The disk after inode `i` has become `ip`; blocks of it may have been freed. -/
structure Replaced (sb : Superblock) (d : Disk) (i : Nat) (ip : Inode) (d' : Disk) : Prop where
  consistent : Consistent sb d'
  load : sb.load d' i = ip
  other : ∀ j, j < sb.ninodes → j ≠ i → sb.load d' j = sb.load d j
  contents : ∀ j, j < sb.ninodes → (sb.load d' j).size = 0 ∨ sb.contents d' j = sb.contents d j

/-- The disk after inode `i` has become `ip`. -/
structure Stored (sb : Superblock) (d : Disk) (i : Nat) (ip : Inode) (d' : Disk) : Prop where
  consistent : Consistent sb d'
  load : sb.load d' i = ip
  other : ∀ j, j ≠ i → sb.load d' j = sb.load d j
  contents : ∀ j, j < sb.ninodes → (sb.load d' j).size = 0 ∨ sb.contents d' j = sb.contents d j
  free : sb.freeCount d' = sb.freeCount d

theorem Stored.replaced (h : Stored sb d i ip d') : Replaced sb d i ip d' :=
  ⟨h.consistent, h.load, fun j _ hji => h.other j hji, h.contents⟩

/-- The contents are the same when the references are, and the blocks behind the bit map. -/
theorem contents_congr (h : Consistent sb d) (hj : j < sb.ninodes)
    (hsize : (sb.load d' j).size = (sb.load d j).size)
    (href : ∀ k, refAt (sb.addrsOn d') d' j k = refAt (sb.addrsOn d) d j k)
    (hd : ∀ x, sb.dataStart ≤ x → d' x = d x) : sb.contents d' j = sb.contents d j := by
  have hfits := h.fits j hj
  unfold Superblock.contents
  rw [hsize]
  apply List.map_congr_left
  intro o ho
  rw [List.mem_range] at ho
  have hpiece : slotsFor (o + 1) = slotOf (o / BSIZE) + 1 := slotsFor_piece (by decide)
    (Nat.succ_le_of_lt (Nat.mod_lt _ (by decide)))
  have hmono := slotsFor_mono (show o + 1 ≤ (sb.load d j).size from ho)
  have hslot := slot_lt (show o < MAXFILE * BSIZE by omega)
  have hne := (h.refs.live j _ hj hslot).mpr (by omega)
  have hused := h.refs.inUse j _ hj hslot hne
  unfold byteAt
  rw [href, hd _ hused.1]

/-- Inode `i` has lost its blocks: only bits of them have changed. -/
structure Freed (sb : Superblock) (d : Disk) (i : Nat) (d' : Disk) : Prop where
  same : ∀ x, x < sb.bmapstart ∨ sb.dataStart ≤ x → d' x = d x
  bits : ∀ b, (∀ k, k < maxSlots → refAt (sb.addrsOn d) d i k ≠ 0 →
    refAt (sb.addrsOn d) d i k ≠ b) → sb.bit d' b = sb.bit d b

theorem Freed.refl (sb : Superblock) (d : Disk) (i : Nat) : Freed sb d i d :=
  ⟨fun _ _ => rfl, fun _ _ => rfl⟩

/-- An inode is stored that has the old contents, or none and no blocks. -/
theorem Freed.iupdate {e : Disk} (hf : Freed sb d i e) (h : Consistent sb d) (hsb : sb.Ok)
    (hi : i < sb.ninodes) (hok : ip.Ok)
    (hkeep : e = d ∧ ip.size = (sb.load d i).size ∧ ip.addrs = (sb.load d i).addrs ∨
      ip.size = 0 ∧ ∀ k, ip.addrs k = 0) : Replaced sb d i ip (sb.iupdate e i ip) := by
  obtain ⟨d', hd'⟩ : ∃ d', d' = sb.iupdate e i ip := ⟨_, rfl⟩
  rw [← hd']
  have hself : sb.load d' i = ip := by
    rw [hd']
    exact load_iupdate hok
  have hother : ∀ j, j < sb.ninodes → j ≠ i → sb.load d' j = sb.load d j := by
    intro j hj hji
    rw [hd', load_iupdate_ne hji]
    exact load_congr (hf.same _ (.inl (hsb.table j hj)))
  have hlow : sb.bmapstart < sb.dataStart := bmapstart_lt
  have htable := hsb.table i hi
  have hblocks : ∀ x, sb.bmapstart ≤ x → d' x = e x := by
    intro x hx
    rw [hd']
    exact iupdate_of_ne (by omega)
  have hdata : ∀ x, sb.dataStart ≤ x → d' x = d x := fun x hx =>
    (hblocks x (by omega)).trans (hf.same x (.inr hx))
  have hbit : ∀ b, sb.bit d' b = sb.bit e b := by
    intro b
    unfold Superblock.bit
    rw [hblocks (sb.BBLOCK b) (Nat.le_add_left _ _)]
  have hsame : ∀ j, j < sb.ninodes → (sb.load d' j).addrs = (sb.load d j).addrs → ∀ k,
      refAt (sb.addrsOn d') d' j k = refAt (sb.addrsOn d) d j k := by
    intro j hj haddrs k
    apply refAt_congr
    · intro k _
      unfold Superblock.addrsOn
      rw [haddrs]
    · intro hne r
      rw [hdata _ (h.refs.indirect hj hne).1]
  -- an inode has kept its references and their blocks, or has none
  have hcase : ∀ j, j < sb.ninodes →
      ((∀ k, refAt (sb.addrsOn d') d' j k = refAt (sb.addrsOn d) d j k) ∧
          (sb.load d' j).size = (sb.load d j).size) ∧ (j = i → e = d) ∨
        (∀ k, refAt (sb.addrsOn d') d' j k = 0) ∧ (sb.load d' j).size = 0 := by
    intro j hj
    by_cases hji : j = i
    · subst hji
      rcases hkeep with ⟨heq, hsize, haddrs⟩ | ⟨hsize, haddrs⟩
      · left
        rw [hself]
        exact ⟨⟨hsame j hj (by rw [hself]; exact haddrs), hsize⟩, fun _ => heq⟩
      · right
        have hzero : ∀ k, sb.addrsOn d' j k = 0 := by
          intro k
          unfold Superblock.addrsOn
          rw [hself]
          exact haddrs k
        refine ⟨fun k => ?_, by rw [hself]; exact hsize⟩
        by_cases hk : k ≤ NDIRECT
        · rw [refAt_addr hk]
          exact hzero k
        · exact refAt_none (Nat.lt_of_not_le hk) (hzero NDIRECT)
    · left
      rw [hother j hj hji]
      exact ⟨⟨hsame j hj (by rw [hother j hj hji]), rfl⟩, fun heq => absurd heq hji⟩
  have hkept : ∀ j k, j < sb.ninodes → refAt (sb.addrsOn d') d' j k ≠ 0 →
      refAt (sb.addrsOn d') d' j k = refAt (sb.addrsOn d) d j k ∧ (j = i → e = d) := by
    intro j k hj hne
    rcases hcase j hj with ⟨⟨href, -⟩, heq⟩ | ⟨hzero, -⟩
    · exact ⟨href k, heq⟩
    · exact absurd (hzero k) hne
  exact
    { consistent :=
        { metas := by
            intro b hb
            rw [hbit, hf.bits]
            · exact h.metas b hb
            · intro k hk hne heq
              have hstart := (h.refs.inUse i k hi hk hne).1
              omega
          refs :=
            { inUse := by
                intro j k hj hk hne
                obtain ⟨href, hown⟩ := hkept j k hj hne
                rw [href] at hne ⊢
                obtain ⟨hstart, hlt, hset⟩ := h.refs.inUse j k hj hk hne
                refine ⟨hstart, hlt, ?_⟩
                rw [hbit]
                by_cases hji : j = i
                · rw [hown hji]
                  exact hset
                · rw [hf.bits]
                  · exact hset
                  · exact fun l hl hne' heq => hji (h.refs.inj i j l k hi hj hl hk hne' heq).1.symm
              inj := by
                intro a b k l ha hb hk hl hne heq
                have hne' := heq ▸ hne
                have href := (hkept a k ha hne).1
                rw [href] at hne
                rw [href, (hkept b l hb hne').1] at heq
                exact h.refs.inj a b k l ha hb hk hl hne heq
              live := by
                intro j k hj hk
                rcases hcase j hj with ⟨⟨href, hsize⟩, -⟩ | ⟨hzero, hsize⟩
                · rw [href, hsize]
                  exact h.refs.live j k hj hk
                · rw [hzero, hsize]
                  exact iff_of_false (fun hne => hne rfl) (Nat.not_lt_zero k) }
          fits := by
            intro j hj
            rcases hcase j hj with ⟨⟨-, hsize⟩, -⟩ | ⟨-, hsize⟩
            · rw [hsize]
              exact h.fits j hj
            · rw [hsize]
              exact Nat.zero_le _ }
      load := hself
      other := hother
      contents := by
        intro j hj
        rcases hcase j hj with ⟨⟨href, hsize⟩, -⟩ | ⟨-, hsize⟩
        · exact .inr (contents_congr h hj hsize href hdata)
        · exact .inl hsize }

theorem Tree.iupdate (ht : Tree sb d) (hsb : sb.Ok) (hi : i < sb.ninodes) (hok : ip.Ok)
    (hkeep : ip.size = (sb.load d i).size ∧ ip.addrs = (sb.load d i).addrs ∨
      ip.size = 0 ∧ ∀ k, ip.addrs k = 0) : Stored sb d i ip (sb.iupdate d i ip) := by
  have htable := hsb.table i hi
  have hrep := (Freed.refl sb d i).iupdate ht.consistent hsb hi hok
    (hkeep.imp_left fun hsame => ⟨rfl, hsame⟩)
  exact
    { consistent := hrep.consistent
      load := hrep.load
      other := fun j hji => load_iupdate_ne hji
      contents := hrep.contents
      free := freeCount_congr fun x hx _ => iupdate_of_ne (by omega) }

theorem contents_of_empty (h : (sb.load d i).size = 0) : sb.contents d i = [] :=
  List.length_eq_zero_iff.mp ((contents_length sb d i).trans h)

theorem slots_of_empty (h : (sb.load d i).size = 0) : sb.slots d i = [] := by
  unfold Superblock.slots
  rw [contents_of_empty h]
  rfl

theorem Replaced.slots (h : Replaced sb d i ip d') (hj : j < sb.ninodes) (hji : j ≠ i) :
    sb.slots d' j = sb.slots d j := by
  rcases h.contents j hj with hzero | hsame
  · rw [slots_of_empty hzero, slots_of_empty (by rw [← h.other j hj hji]; exact hzero)]
  · exact congrArg slotsOf hsame

theorem Stored.slots (h : Stored sb d i ip d') (hj : j < sb.ninodes) (hji : j ≠ i) :
    sb.slots d' j = sb.slots d j := h.replaced.slots hj hji

/-- No entry is new. -/
theorem Replaced.named (h : Replaced sb d i ip d')
    (htype : ip.size = 0 ∨ ip.type = (sb.load d i).type) (hnamed : Named sb d' j) :
    Named sb d j := by
  rcases hnamed with hroot | ⟨dp, k, name, hdp, hdir, hslot⟩
  · exact .inl hroot
  · have hsame : (sb.load d' dp).size ≠ 0 := by
      intro hzero
      rw [slots_of_empty hzero] at hslot
      cases hslot
    have hslots : sb.slots d' dp = sb.slots d dp :=
      congrArg slotsOf ((h.contents dp hdp).resolve_left hsame)
    rw [hslots] at hslot
    refine .inr ⟨dp, k, name, hdp, ?_, hslot⟩
    by_cases heq : dp = i
    · subst heq
      rw [h.load] at hdir hsame
      rw [← htype.resolve_left hsame]
      exact hdir
    · rw [← h.other dp hdp heq]
      exact hdir

/-- An inode is stored that is a directory as before, or has no contents. -/
theorem Tree.replace (h : Tree sb d) (hset : Replaced sb d i ip d')
    (htype : ip.size = 0 ∨ ip.size = (sb.load d i).size ∧ ip.type = (sb.load d i).type) :
    Tree sb d' := by
  have hcase : ∀ j, j < sb.ninodes → (sb.load d' j).size = 0 ∨
      (sb.load d' j).size = (sb.load d j).size ∧ (sb.load d' j).type = (sb.load d j).type ∧
        sb.slots d' j = sb.slots d j := by
    intro j hj
    rcases hset.contents j hj with hzero | hsame
    · exact .inl hzero
    · have hslots : sb.slots d' j = sb.slots d j := congrArg slotsOf hsame
      by_cases hji : j = i
      · subst hji
        rw [hset.load]
        rcases htype with hzero | ⟨hsize, htype⟩
        · exact .inl hzero
        · exact .inr ⟨hsize, htype, hslots⟩
      · rw [hset.other j hj hji]
        exact .inr ⟨rfl, rfl, hslots⟩
  exact
    { consistent := hset.consistent
      whole := by
        intro j hj hdir
        rcases hcase j hj with hzero | ⟨hsize, htype, -⟩
        · rw [hzero]
          exact Nat.zero_mod _
        · rw [hsize]
          exact h.whole j hj (htype ▸ hdir)
      entries := by
        intro j k name inum hj hdir hslot
        rcases hcase j hj with hzero | ⟨-, htype, hslots⟩
        · rw [slots_of_empty hzero] at hslot
          cases hslot
        · rw [hslots] at hslot
          exact h.entries j k name inum hj (htype ▸ hdir) hslot }

theorem Tree.set (h : Tree sb d) (hset : Stored sb d i ip d')
    (htype : ip.size = 0 ∨ ip.size = (sb.load d i).size ∧ ip.type = (sb.load d i).type) :
    Tree sb d' := h.replace hset.replaced htype

/-- An entry is stored in a directory. -/
theorem Tree.link (h : Tree sb d) (hinum : Inum sb inum) {data : List UInt8}
    (hw : Wrote sb d i data d') (hdir : IsDir sb d' i) (hk : k ≤ (sb.slots d i).length)
    (htype : (sb.load d i).type = T_DIR) {name : List UInt8}
    (hslots : sb.slots d' i = put (sb.slots d i) k (some (name, inum))) : Tree sb d' where
  consistent := hw.consistent
  whole j hj hj' := by
    by_cases hji : j = i
    · rw [hji]
      exact hdir.whole
    · rw [(hw.other j hj hji).1] at hj' ⊢
      exact h.whole j hj hj'
  entries j l key inum' hj hj' hslot := by
    by_cases hji : j = i
    · rw [hji, hslots, put_getElem? hk] at hslot
      split at hslot
      · simp only [Option.some.injEq, Prod.mk.injEq] at hslot
        rw [← hslot.2]
        exact hinum
      · exact h.entries i l key inum' (hji ▸ hj) htype hslot
    · have hsame : sb.slots d' j = sb.slots d j := congrArg slotsOf (hw.other j hj hji).2
      rw [(hw.other j hj hji).1] at hj'
      rw [hsame] at hslot
      exact h.entries j l key inum' hj hj' hslot

end OsWork.Ports.FsCalls

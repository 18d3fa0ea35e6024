import OsWork.Ports.FsTree

/-!
# Rules for the parts of a call

`Holds sb s₀ d T L s` says what a call has done that started in `s₀`: the disk is `d`, the call has
the references in `T` and the locks in `L`, and the copies in memory of the inodes that are in use
are those on the disk.

## Main results

* `wp_ilock`, `wp_iput`, `wp_dirlookup`, `wp_linkEntry` — one rule for each function.
* `wp_namex` — `namex` finds what `lookup` finds, and takes one reference.
-/

namespace OsWork.Ports.FsCalls

open OsWork.Verified.ByteWords OsWork.Verified.Procedure OsWork.Verified.SlotMap
  OsWork.Ports.FsLayout OsWork.Ports.FsDisk OsWork.Ports.FsPaths
open Function (update)

variable {P : Type}

/-- The references, with those of the call. -/
def Kernel.refWith (s : Kernel P) (T : List Nat) (i : Nat) : Nat := s.ref i + T.count i

structure Holds (sb : Superblock) (s₀ : Kernel P) (d : Disk) (T L : List Nat) (s : Kernel P) :
    Prop where
  disk : s.disk = d
  file : s.file = s₀.file
  ofile : s.ofile = s₀.ofile
  cwd : s.cwd = s₀.cwd
  ref : s.ref = s₀.refWith T
  locked : ∀ i, s.locked i = true ↔ i ∈ L
  held : ∀ i, i ∈ L → i ∈ T
  ready : ∀ i, i ∈ L → s.valid i = true
  stay : ∀ i, 0 < s₀.ref i → s₀.valid i = true → s.valid i = true
  loaded : ∀ i, i < sb.ninodes → 0 < s.ref i → s.valid i = true →
    s.inode i = sb.load d i ∧ (sb.load d i).type ≠ 0
  range : ∀ i, i ∈ T → Inum sb i

/-- The inode has a link, or a reference. -/
def Kept (sb : Superblock) (s₀ : Kernel P) (d : Disk) (T : List Nat) (i : Nat) : Prop :=
  (sb.load d i).type ≠ 0 → (sb.load d i).nlink = 0 → 0 < s₀.refWith T i

/-- An inode with an entry has a link, or a reference. -/
def Keeps (sb : Superblock) (s₀ : Kernel P) (d : Disk) (T : List Nat) : Prop :=
  ∀ i, Named sb d i → Kept sb s₀ d T i

variable {sb : Superblock} {devsw : Devsw} {s₀ s t : Kernel P} {d d' : Disk} {T T' L L' : List Nat}
  {i dp inum : Nat} {name : Bytes} {E : Stop → Prop} {Q : Unit → Kernel P → Prop}

theorem refWith_cons (s : Kernel P) (i : Nat) (T : List Nat) :
    s.refWith (i :: T) = update (s.refWith T) i (s.refWith T i + 1) := by
  funext j
  unfold Kernel.refWith
  by_cases hj : j = i
  · rw [hj, Function.update_self, List.count_cons_self, Nat.add_assoc]
  · rw [Function.update_of_ne hj, List.count_cons_of_ne (Ne.symm hj)]

theorem refWith_cons_of_ne {j : Nat} (h : j ≠ i) : s.refWith (i :: T) j = s.refWith T j := by
  rw [refWith_cons, Function.update_of_ne h]

theorem refWith_pos (hi : i ∈ T) : 0 < s.refWith T i := by
  have hcount := List.count_pos_iff.mpr hi
  unfold Kernel.refWith
  omega

theorem refWith_le_cons (i j : Nat) : s.refWith T j ≤ s.refWith (i :: T) j :=
  Nat.add_le_add_left (List.Sublist.count_le j (List.sublist_cons_self i T)) _

theorem Kept.cons (h : Kept sb s₀ d T i) (j : Nat) : Kept sb s₀ d (j :: T) i :=
  fun htype hlinks => Nat.lt_of_lt_of_le (h htype hlinks) (refWith_le_cons j i)

theorem Keeps.cons (h : Keeps sb s₀ d T) (i : Nat) : Keeps sb s₀ d (i :: T) :=
  fun j hnamed => (h j hnamed).cons i

theorem kept_of_ref (h : 0 < s₀.ref i) : Kept sb s₀ d T i :=
  fun _ _ => Nat.lt_of_lt_of_le h (Nat.le_add_right _ _)

namespace Holds

theorem ref_pos (h : Holds sb s₀ d T L s) (hi : i ∈ T) : 0 < s.ref i := by
  rw [h.ref]
  exact refWith_pos hi

/-- A locked inode has been read in. -/
theorem node (h : Holds sb s₀ d T L s) (hi : i ∈ L) :
    s.inode i = sb.load d i ∧ (sb.load d i).type ≠ 0 :=
  h.loaded i (h.range i (h.held i hi)).2 (h.ref_pos (h.held i hi)) (h.ready i hi)

theorem perm (h : Holds sb s₀ d T L s) (hT : T.Perm T') : Holds sb s₀ d T' L s :=
  { h with
    ref := by
      rw [h.ref]
      funext j
      unfold Kernel.refWith
      rw [hT.count_eq]
    held := fun i hi => hT.mem_iff.mp (h.held i hi)
    range := fun i hi => h.range i (hT.mem_iff.mpr hi) }

theorem swap {j : Nat} (h : Holds sb s₀ d (i :: j :: T) L s) : Holds sb s₀ d (j :: i :: T) L s :=
  h.perm (List.Perm.swap j i T)

/-- The disk has changed, and with it the copy of an inode. -/
theorem store (h : Holds sb s₀ d T L s) {ip : Inode} (hload : sb.load d' i = ip)
    (htype : ip.type ≠ 0) (hother : ∀ j, j < sb.ninodes → j ≠ i → sb.load d' j = sb.load d j) :
    Holds sb s₀ d' T L { s with disk := d', inode := update s.inode i ip } :=
  { h with
    disk := rfl
    loaded := by
      intro j hj hpos hvalid
      show update s.inode i ip j = _ ∧ _
      by_cases hji : j = i
      · rw [hji, Function.update_self, hload]
        exact ⟨rfl, htype⟩
      · rw [Function.update_of_ne hji, hother j hj hji]
        exact h.loaded j hj hpos hvalid }

end Holds

/-! ## Inodes -/

theorem wp_getInode {R : Inode → Kernel P → Prop} (h : Holds sb s₀ d T L s) (hi : i ∈ L)
    (hQ : R (sb.load d i) s) : wp E (getInode i) R s := by
  show R (s.inode i) s
  rw [(h.node hi).1]
  exact hQ

theorem wp_setInode {ip : Inode} (h : Holds sb s₀ d T L s)
    (hset : Stored sb d i ip (sb.iupdate d i ip)) (htype : ip.type ≠ 0)
    (hQ : ∀ t, Holds sb s₀ (sb.iupdate d i ip) T L t → Q () t) :
    wp E (setInode sb i ip) Q s := by
  show Q () { s with disk := sb.iupdate s.disk i ip, inode := update s.inode i ip }
  rw [h.disk]
  exact hQ _ (h.store hset.load htype fun j _ hji => hset.other j hji)

theorem wp_iget (h : Holds sb s₀ d T L s) (hi : Inum sb i)
    (hfull : ¬ CanGet sb (s₀.refWith T) i → E .igetNoInodes)
    (hQ : CanGet sb (s₀.refWith T) i → ∀ t, Holds sb s₀ d (i :: T) L t → Q () t) :
    wp E (iget sb i) Q s := by
  unfold iget
  rw [wp_bind, wp_get, h.ref]
  split
  · rename_i hcan
    refine hQ hcan _ ?_
    have hvalid : ∀ j, (if s₀.refWith T i = 0 then update s.valid i false else s.valid) j = true →
        s.valid j = true ∧ (j = i → s₀.refWith T i ≠ 0) := by
      intro j hj
      split at hj
      · by_cases hji : j = i
        · rw [hji, Function.update_self] at hj
          cases hj
        · rw [Function.update_of_ne hji] at hj
          exact ⟨hj, fun heq => absurd heq hji⟩
      · rename_i hne
        exact ⟨hj, fun _ => hne⟩
    exact
      { h with
        ref := (refWith_cons s₀ i T).symm
        held := fun j hj => List.mem_cons_of_mem i (h.held j hj)
        ready := by
          intro j hj
          show (if s₀.refWith T i = 0 then update s.valid i false else s.valid) j = true
          split
          · rename_i hzero
            have hpos := refWith_pos (s := s₀) (h.held j hj)
            rw [Function.update_of_ne (by rintro rfl; omega)]
            exact h.ready j hj
          · exact h.ready j hj
        stay := by
          intro j hpos hset
          have hold := h.stay j hpos hset
          show (if s₀.refWith T i = 0 then update s.valid i false else s.valid) j = true
          split
          · rename_i hzero
            have hle := Nat.le_add_right (s₀.ref j) (T.count j)
            unfold Kernel.refWith at hzero
            rw [Function.update_of_ne (by rintro rfl; omega)]
            exact hold
          · exact hold
        loaded := by
          intro j hj hpos hset
          obtain ⟨hold, hne⟩ := hvalid j hset
          apply h.loaded j hj _ hold
          rw [h.ref]
          by_cases hji : j = i
          · have := hne hji
            rw [hji]
            omega
          · have hpos : 0 < update (s₀.refWith T) i (s₀.refWith T i + 1) j := hpos
            rwa [Function.update_of_ne hji] at hpos
        range := by
          intro j hj
          rcases List.mem_cons.mp hj with rfl | hmem
          · exact hi
          · exact h.range j hmem }
  · rename_i hcan
    exact hfull hcan

theorem wp_idup (h : Holds sb s₀ d T L s) (hi : Inum sb i) (href : 0 < s₀.refWith T i)
    (hQ : ∀ t, Holds sb s₀ d (i :: T) L t → Q () t) : wp E (idup i) Q s := by
  refine hQ { s with ref := update s.ref i (s.ref i + 1) } ?_
  exact
    { h with
      ref := by
        show update s.ref i (s.ref i + 1) = _
        rw [h.ref]
        exact (refWith_cons s₀ i T).symm
      held := fun j hj => List.mem_cons_of_mem i (h.held j hj)
      loaded := by
        intro j hj hpos hvalid
        apply h.loaded j hj _ hvalid
        have hpos : 0 < update s.ref i (s.ref i + 1) j := hpos
        by_cases hji : j = i
        · rw [hji, h.ref]
          exact href
        · rwa [Function.update_of_ne hji] at hpos
      range := by
        intro j hj
        rcases List.mem_cons.mp hj with rfl | hmem
        · exact hi
        · exact h.range j hmem }

theorem wp_ilock (h : Holds sb s₀ d T L s) (hi : i ∈ T) (hL : i ∉ L)
    (hfree : (sb.load d i).type = 0 → E .ilockNoType)
    (hQ : (sb.load d i).type ≠ 0 → ∀ t, Holds sb s₀ d T (i :: L) t → Q () t) :
    wp E (ilock sb i) Q s := by
  have hpos := h.ref_pos hi
  have hlocked : ∀ j, update s.locked i true j = true ↔ j ∈ i :: L := by
    intro j
    by_cases hji : j = i
    · rw [hji, Function.update_self]
      exact iff_of_true rfl List.mem_cons_self
    · rw [Function.update_of_ne hji, h.locked, List.mem_cons, or_iff_right hji]
  have hheld : ∀ j, j ∈ i :: L → j ∈ T := by
    intro j hj
    rcases List.mem_cons.mp hj with rfl | hmem
    · exact hi
    · exact h.held j hmem
  unfold ilock
  rw [wp_bind, wp_get, if_neg (by omega), if_neg fun hlock => hL ((h.locked i).mp hlock)]
  split
  · rename_i hvalid
    have htype := (h.loaded i (h.range i hi).2 hpos hvalid).2
    refine hQ htype _ ?_
    exact
      { h with
        locked := hlocked
        held := hheld
        ready := by
          intro j hj
          rcases List.mem_cons.mp hj with rfl | hmem
          · exact hvalid
          · exact h.ready j hmem }
  · rw [h.disk]
    show wp E (if (sb.load d i).type = 0 then _ else _) Q s
    split
    · rename_i htype
      exact hfree htype
    · rename_i htype
      refine hQ htype _ ?_
      exact
        { h with
          disk := rfl
          locked := hlocked
          held := hheld
          ready := by
            intro j hj
            show update s.valid i true j = true
            by_cases hji : j = i
            · rw [hji, Function.update_self]
            · rw [Function.update_of_ne hji]
              exact h.ready j (List.mem_of_ne_of_mem hji hj)
          stay := by
            intro j hpos hset
            show update s.valid i true j = true
            by_cases hji : j = i
            · rw [hji, Function.update_self]
            · rw [Function.update_of_ne hji]
              exact h.stay j hpos hset
          loaded := by
            intro j hj hpos hvalid
            have hvalid : update s.valid i true j = true := hvalid
            show update s.inode i (sb.load d i) j = _ ∧ _
            by_cases hji : j = i
            · rw [hji, Function.update_self]
              exact ⟨rfl, htype⟩
            · rw [Function.update_of_ne hji] at hvalid ⊢
              exact h.loaded j hj hpos hvalid }

theorem wp_iunlock (h : Holds sb s₀ d T L s) (hi : i ∈ L) (hL : ∀ j, j ∈ L' ↔ j ∈ L ∧ j ≠ i)
    (hQ : ∀ t, t.valid = s.valid → Holds sb s₀ d T L' t → Q () t) : wp E (iunlock i) Q s := by
  have hpos := h.ref_pos (h.held i hi)
  unfold iunlock
  rw [wp_bind, wp_get, if_neg (by rw [(h.locked i).mpr hi]; simp; omega)]
  refine hQ _ rfl ?_
  exact
    { h with
      locked := by
        intro j
        show update s.locked i false j = true ↔ _
        rw [hL]
        by_cases hji : j = i
        · rw [hji, Function.update_self]
          simp
        · rw [Function.update_of_ne hji, h.locked]
          simp [hji]
      held := fun j hj => h.held j ((hL j).mp hj).1
      ready := fun j hj => h.ready j ((hL j).mp hj).1 }

/-- Dropping a reference frees nothing when the inode has a link or another reference. -/
theorem wp_iput (h : Holds sb s₀ d (i :: T) L s) (hL : i ∉ L) (hkept : Kept sb s₀ d T i)
    (hQ : ∀ t, Holds sb s₀ d T L t → Q () t) : wp E (iput sb i) Q s := by
  have hi := (h.range i List.mem_cons_self).2
  have href : s.ref i = s₀.refWith T i + 1 := by
    rw [h.ref, refWith_cons, Function.update_self]
  unfold iput
  rw [wp_bind, wp_get, if_neg fun hlock => hL ((h.locked i).mp hlock), if_neg]
  · refine hQ _ ?_
    have hback : update s.ref i (s.ref i - 1) = s₀.refWith T := by
      rw [h.ref, refWith_cons, Function.update_idem, Function.update_self, Nat.add_sub_cancel]
      exact Function.update_eq_self _ _
    exact
      { h with
        ref := hback
        held := by
          intro j hj
          rcases List.mem_cons.mp (h.held j hj) with rfl | hmem
          · exact absurd hj hL
          · exact hmem
        loaded := by
          intro j hj hpos hvalid
          apply h.loaded j hj _ hvalid
          have hpos : 0 < update s.ref i (s.ref i - 1) j := hpos
          by_cases hji : j = i
          · rw [hji]
            omega
          · rwa [Function.update_of_ne hji] at hpos
        range := fun j hj => h.range j (List.mem_cons_of_mem i hj) }
  · rintro ⟨hvalid, hlinks, hone⟩
    obtain ⟨hnode, htype⟩ := h.loaded i hi (by omega) hvalid
    rw [hnode] at hlinks
    have hpos := hkept htype hlinks
    omega

theorem wp_iunlockput (h : Holds sb s₀ d (i :: T) L s) (hi : i ∈ L)
    (hL : ∀ j, j ∈ L' ↔ j ∈ L ∧ j ≠ i) (hkept : Kept sb s₀ d T i)
    (hQ : ∀ t, Holds sb s₀ d T L' t → Q () t) : wp E (iunlockput sb i) Q s := by
  unfold iunlockput
  rw [wp_bind]
  apply wp_iunlock h hi hL
  intro t _ ht
  exact wp_iput ht (fun hmem => ((hL i).mp hmem).2 rfl) hkept hQ

/-- The only lock is given back. -/
theorem off_one (i : Nat) : ∀ j, j ∈ ([] : List Nat) ↔ j ∈ [i] ∧ j ≠ i := by simp

/-- The first of two locks is given back. -/
theorem off_first {j : Nat} (hne : i ≠ j) : ∀ k, k ∈ [j] ↔ k ∈ [i, j] ∧ k ≠ i := by
  intro k
  simp only [List.mem_cons, List.not_mem_nil, or_false]
  constructor
  · intro hk
    exact ⟨.inr hk, fun heq => hne (heq.symm.trans hk)⟩
  · intro hk
    exact hk.1.resolve_left hk.2

/-- The second of two locks is given back. -/
theorem off_second {j : Nat} (hne : i ≠ j) : ∀ k, k ∈ [i] ↔ k ∈ [i, j] ∧ k ≠ j := by
  intro k
  simp only [List.mem_cons, List.not_mem_nil, or_false]
  constructor
  · intro hk
    exact ⟨.inl hk, fun heq => hne (hk.symm.trans heq)⟩
  · intro hk
    exact hk.1.resolve_right hk.2

/-! ## Directories -/

/-- A function on the contents of a locked inode. -/
theorem wp_onInode {α : Type} {f : Disk → Inode → Except Panic (Disk × Inode × α)}
    {R : α → Kernel P → Prop} (h : Holds sb s₀ d T L s) (hi : i ∈ L)
    (herr : ∀ p, f d (sb.load d i) = .error p → E (.disk p))
    (hok : ∀ d' ip a, f d (sb.load d i) = .ok (d', ip, a) →
      R a { s with disk := d', inode := update s.inode i ip }) :
    wp E (onInode i f) R s := by
  unfold onInode
  rw [wp_bind, wp_get, h.disk, (h.node hi).1]
  cases hf : f d (sb.load d i) with
  | error p => exact herr p hf
  | ok r =>
      obtain ⟨d', ip, a⟩ := r
      exact hok d' ip a hf

/-- A function that changes nothing. -/
theorem wp_onInode_read {α : Type} {f : Disk → Inode → Except Panic (Disk × Inode × α)} {a : α}
    {R : α → Kernel P → Prop} (h : Holds sb s₀ d T L s) (hi : i ∈ L)
    (hf : f d (sb.load d i) = .ok (d, sb.load d i, a)) (hQ : R a s) :
    wp E (onInode i f) R s := by
  apply wp_onInode h hi
  · intro p herr
    rw [hf] at herr
    cases herr
  · intro d' ip a' hok
    rw [hf] at hok
    cases hok
    have hsame : ({ s with disk := d, inode := update s.inode i (sb.load d i) } : Kernel P) = s := by
      rw [← (h.node hi).1, Function.update_eq_self, ← h.disk]
    rw [hsame]
    exact hQ

theorem wp_dirlookup {R : Option (Nat × Nat) → Kernel P → Prop} (ht : Tree sb d)
    (h : Holds sb s₀ d T L s) (hi : i ∈ L) (htype : (sb.load d i).type = T_DIR)
    (hnone : find (nameOf name) (sb.slots d i) 0 = none → R none s)
    (hfull : ∀ k inum, find (nameOf name) (sb.slots d i) 0 = some (k, inum) →
      ¬ CanGet sb (s₀.refWith T) inum → E .igetNoInodes)
    (hsome : ∀ k inum, find (nameOf name) (sb.slots d i) 0 = some (k, inum) →
      CanGet sb (s₀.refWith T) inum → ∀ t, Holds sb s₀ d (inum :: T) L t →
        R (some (inum, direntSize * k)) t) :
    wp E (dirlookup sb devsw i name) R s := by
  have hrange := (h.range i (h.held i hi)).2
  have hlook := dirlookup_eq ht.consistent hrange (ht.dir hrange htype) devsw name
  unfold dirlookup
  rw [wp_bind]
  apply wp_onInode_read h hi hlook
  cases hfind : find (nameOf name) (sb.slots d i) 0 with
  | none => exact hnone hfind
  | some e =>
      obtain ⟨k, inum⟩ := e
      show wp E (iget sb inum >>= fun _ => _) R s
      rw [wp_bind]
      exact wp_iget h (ht.found hrange htype hfind) (hfull k inum hfind)
        fun hcan t ht' => hsome k inum hfind hcan t ht'

/-- An entry has been added to the directory. -/
structure Linked (sb : Superblock) (d : Disk) (i : Nat) (name : List UInt8) (inum : Nat)
    (d' : Disk) : Prop where
  wrote : ∃ data, Wrote sb d i data d'
  slots : sb.slots d' i =
    put (sb.slots d i) (firstFree (sb.slots d i) 0) (some (name, inum))
  tree : Tree sb d'

/-- One entry is new. -/
theorem Linked.named {key : List UInt8} {j : Nat} (h : Linked sb d i key inum d')
    (hdir : (sb.load d i).type = T_DIR) (hnamed : Named sb d' j) : Named sb d j ∨ j = inum := by
  obtain ⟨data, hw⟩ := h.wrote
  rcases hnamed with hroot | ⟨dp, k, name', hdp, hdir', hslot⟩
  · exact .inl (.inl hroot)
  by_cases heq : dp = i
  · subst heq
    have hle := (firstFree_le (sb.slots d dp) 0).1
    rw [h.slots, put_getElem? (by omega)] at hslot
    split at hslot
    · cases hslot
      exact .inr rfl
    · exact .inl (.inr ⟨dp, k, name', hdp, hdir, hslot⟩)
  · obtain ⟨hload, hcontents⟩ := hw.other dp hdp heq
    have hslots : sb.slots d' dp = sb.slots d dp := congrArg slotsOf hcontents
    rw [hload] at hdir'
    rw [hslots] at hslot
    exact .inl (.inr ⟨dp, k, name', hdp, hdir', hslot⟩)

/-- Every entry is in use, and a file cannot be longer. -/
def AtLimit (sb : Superblock) (d : Disk) (i : Nat) : Prop :=
  firstFree (sb.slots d i) 0 = (sb.slots d i).length ∧
    MAXFILE * BSIZE < (sb.load d i).size + direntSize

theorem wp_linkEntry {R : Int → Kernel P → Prop} (hsb : Small sb) (ht : Tree sb d)
    (h : Holds sb s₀ d T L s) (hi : i ∈ L) (htype : (sb.load d i).type = T_DIR)
    (hinum : Inum sb inum)
    (hlimit : AtLimit sb d i → E (.disk .dirlink))
    (hblock : ¬ HasRoom sb d i → E (.disk .block))
    (hQ : HasRoom sb d i → ∀ d' t, Linked sb d i (nameOf name) inum d' →
      Holds sb s₀ d' T L t → R 0 t) :
    wp E (onInode i fun d ip => sb.linkEntry devsw d i ip name inum) R s := by
  have hrange := (h.range i (h.held i hi)).2
  have hwide := hsb.inum
  have hlink := linkEntry_ok ht.consistent hrange (ht.dir hrange htype) hsb.ok devsw name
    ⟨hinum.1, Nat.lt_of_lt_of_le hinum.2 hwide⟩
  apply wp_onInode h hi
  · intro p hrun
    rcases hlink with ⟨d', hrun', -⟩ | ⟨hroom, ⟨hlong, hrun'⟩ | ⟨-, hrun'⟩⟩
    · rw [hrun] at hrun'
      cases hrun'
    · rw [hrun] at hrun'
      cases hrun'
      have hle := (firstFree_le (sb.slots d i) 0).1
      have hfull : ¬ firstFree (sb.slots d i) 0 < (sb.slots d i).length :=
        fun hlt => hroom (.inl hlt)
      exact hlimit ⟨by omega, hlong⟩
    · rw [hrun] at hrun'
      cases hrun'
      exact hblock hroom
  · intro d' ip r hrun
    rcases hlink with ⟨d', hrun', hroom, hw, hdir, hslots⟩ | ⟨-, ⟨-, hrun'⟩ | ⟨-, hrun'⟩⟩
    · rw [hrun] at hrun'
      cases hrun'
      have hle := (firstFree_le (sb.slots d i) 0).1
      rw [Nat.zero_add] at hle
      apply hQ hroom d' _ ⟨⟨_, hw⟩, hslots, ht.link hinum hw hdir hle htype hslots⟩
      apply h.store rfl
      · rw [hdir.type]
        decide
      · exact fun j hj hji => (hw.other j hj hji).1
    · rw [hrun] at hrun'
      cases hrun'
    · rw [hrun] at hrun'
      cases hrun'

/-- `dirlink` of a name that is not there. -/
theorem wp_dirlink_absent {R : Int → Kernel P → Prop} (hsb : Small sb) (ht : Tree sb d)
    (h : Holds sb s₀ d T L s) (hi : i ∈ L) (htype : (sb.load d i).type = T_DIR)
    (hinum : Inum sb inum) (hfind : find (nameOf name) (sb.slots d i) 0 = none)
    (hlimit : AtLimit sb d i → E (.disk .dirlink))
    (hblock : ¬ HasRoom sb d i → E (.disk .block))
    (hQ : HasRoom sb d i → ∀ d' t, Linked sb d i (nameOf name) inum d' →
      Holds sb s₀ d' T L t → R 0 t) :
    wp E (dirlink sb devsw i name inum) R s := by
  unfold dirlink
  rw [wp_bind]
  apply wp_dirlookup ht h hi htype
  · exact fun _ => wp_linkEntry hsb ht h hi htype hinum hlimit hblock hQ
  · intro k ip hsome
    rw [hfind] at hsome
    cases hsome
  · intro k ip hsome
    rw [hfind] at hsome
    cases hsome

/-- `dirlink` of a name that is there. -/
theorem wp_dirlink_taken {R : Int → Kernel P → Prop} (ht : Tree sb d) (h : Holds sb s₀ d T L s)
    (hi : i ∈ L) (htype : (sb.load d i).type = T_DIR) {k ip : Nat}
    (hfind : find (nameOf name) (sb.slots d i) 0 = some (k, ip)) (hfull : E .igetNoInodes)
    (hdead : E .deadlock)
    (hput : ip ∉ L → ∀ t, Holds sb s₀ d (ip :: T) L t →
      wp E (iput sb ip) (fun _ => R (-1)) t) :
    wp E (dirlink sb devsw i name inum) R s := by
  unfold dirlink
  rw [wp_bind]
  apply wp_dirlookup ht h hi htype
  · intro hnone
    rw [hfind] at hnone
    cases hnone
  · exact fun _ _ _ _ => hfull
  · intro k' ip' hsome _ t ht'
    rw [hfind] at hsome
    cases hsome
    show wp E (iput sb ip >>= fun _ => pure (-1)) R t
    rw [wp_bind]
    by_cases hmem : ip ∈ L
    · unfold iput
      rw [wp_bind, wp_get, if_pos ((ht'.locked ip).mpr hmem)]
      exact hdead
    · exact hput hmem t ht'

/-! ## Paths -/

section Walk

variable (sb) (d)

/-- The result of the loop of `namex`, where the inodes have the references `ref`. -/
def walk (nameiparent : Bool) (ref : Nat → Nat) :
    Nat → List (List UInt8) → Except Stop (Option Nat)
  | ip, [] => .ok (if nameiparent then none else some ip)
  | ip, elem :: rest =>
      if (sb.load d ip).type = 0 then .error .ilockNoType
      else if (sb.load d ip).type ≠ T_DIR then .ok none
      else if nameiparent && rest.isEmpty then .ok (some ip)
      else
        match find elem (sb.slots d ip) 0 with
        | none => .ok none
        | some (_, next) =>
            if CanGet sb (update ref ip (ref ip + 1)) next then walk nameiparent ref next rest
            else .error .igetNoInodes

variable {sb d} {nameiparent : Bool} {ref : Nat → Nat} {ip : Nat} {elem : List UInt8}
  {rest : List (List UInt8)}

theorem walk_free (h : (sb.load d ip).type = 0) :
    walk sb d nameiparent ref ip (elem :: rest) = .error .ilockNoType := if_pos h

theorem walk_notDir (hfree : (sb.load d ip).type ≠ 0) (h : (sb.load d ip).type ≠ T_DIR) :
    walk sb d nameiparent ref ip (elem :: rest) = .ok none := by
  unfold walk
  rw [if_neg hfree, if_pos h]

theorem walk_stop (h : (sb.load d ip).type = T_DIR) :
    walk sb d true ref ip [elem] = .ok (some ip) := by
  unfold walk
  rw [if_neg (by rw [h]; decide), if_neg (not_not_intro h)]
  rfl

theorem walk_next (h : (sb.load d ip).type = T_DIR)
    (hmore : (nameiparent && rest.isEmpty) = false) :
    walk sb d nameiparent ref ip (elem :: rest) =
      match find elem (sb.slots d ip) 0 with
      | none => .ok none
      | some (_, next) =>
          if CanGet sb (update ref ip (ref ip + 1)) next then walk sb d nameiparent ref next rest
          else .error .igetNoInodes := by
  rw [walk, if_neg (by rw [h]; decide), if_neg (not_not_intro h), if_neg (by rw [hmore]; nofun)]

variable (sb) (d)

/-- The inode that `namex` starts from. -/
def Kernel.start (s : Kernel P) (p : P) (path : Path) : Nat :=
  if path.bytes.head? = some slash then ROOTINO else s.cwd p

/-- The result of `namex`. -/
def Kernel.lookup (s : Kernel P) (nameiparent : Bool) (ref : Nat → Nat) (p : P) (path : Path) :
    Except Stop (Option Nat) :=
  if CanGet sb ref (s.start p path) then
    walk sb d nameiparent ref (s.start p path) path.names
  else .error .igetNoInodes

end Walk

section Namex

variable {nameiparent : Bool} {path rest : Path} {name' : Bytes} {p : P}
  {R : Option (Nat × Bytes) → Kernel P → Prop}

theorem namexLoop_none (h : skipelem path name = none) :
    namexLoop sb devsw nameiparent i path name =
      (if nameiparent then do
        iput sb i
        pure none
      else pure (some (i, name)) : Fs P _) := by
  rw [namexLoop]
  split
  · rfl
  · rename_i hsome
    rw [h] at hsome
    cases hsome

/-- One round of the loop of `namex`, for the element in `name`. -/
def namexRound (sb : Superblock) (devsw : Devsw) (nameiparent : Bool) (ip : Nat) (path : Path)
    (name : Bytes) : Fs P (Option (Nat × Bytes)) := do
  ilock sb ip
  let node ← getInode ip
  if node.type ≠ T_DIR then
    iunlockput sb ip
    pure none
  else if nameiparent && path.bytes.isEmpty then
    iunlock ip
    pure (some (ip, name))
  else
    match ← dirlookup sb devsw ip name with
    | none =>
        iunlockput sb ip
        pure none
    | some (next, _) =>
        iunlockput sb ip
        namexLoop sb devsw nameiparent next path name

theorem namexLoop_some (h : skipelem path name = some (rest, name')) :
    (namexLoop sb devsw nameiparent i path name : Fs P _) =
      namexRound sb devsw nameiparent i rest name' := by
  rw [namexLoop]
  split
  · rename_i hnone
    rw [h] at hnone
    cases hnone
  · rename_i hsome
    rw [h] at hsome
    cases hsome
    rfl

variable (ht : Tree sb d)

include ht

/-- The loop of `namex` does what `walk` does. -/
theorem wp_namexLoop (hkeeps : Keeps sb s₀ d T) (path : Path) (name : Bytes) :
    ∀ {i : Nat} {s : Kernel P}, Holds sb s₀ d (i :: T) [] s → Kept sb s₀ d T i →
      (∀ e, walk sb d nameiparent (s₀.refWith T) i path.names = .error e → E e) →
      (walk sb d nameiparent (s₀.refWith T) i path.names = .ok none →
        ∀ t, Holds sb s₀ d T [] t → R none t) →
      (∀ j name' t, walk sb d nameiparent (s₀.refWith T) i path.names = .ok (some j) →
        (nameiparent = true → path.names.getLast? = some (nameOf name')) →
        Kept sb s₀ d T j → Holds sb s₀ d (j :: T) [] t → R (some (j, name')) t) →
      wp E (namexLoop sb devsw nameiparent i path name) R s := by
  induction path, name using elements.induct with
  | case1 path name hskip =>
      intro i s h hkept _ hnone hsome
      rw [namexLoop_none hskip]
      rw [names_none hskip] at hnone hsome
      cases nameiparent with
      | true =>
          show wp E (iput sb i >>= fun _ => pure none) R s
          rw [wp_bind]
          exact wp_iput h (List.not_mem_nil) hkept (hnone rfl)
      | false => exact hsome i name s rfl (by rintro ⟨⟩) hkept h
  | case2 path name rest name' hskip ih =>
      intro i s h hkept herr hnone hsome
      have hlast := behind_names hskip
      rw [namexLoop_some hskip]
      rw [names_some hskip] at herr hnone hsome
      have hstop : ∀ t, walk sb d nameiparent (s₀.refWith T) i (nameOf name' :: rest.names) =
          .ok none → Holds sb s₀ d (i :: T) [i] t →
          wp E (iunlockput sb i >>= fun _ => pure none) R t := by
        intro t hres ht'
        rw [wp_bind]
        exact wp_iunlockput ht' List.mem_cons_self (off_one i) hkept (hnone hres)
      unfold namexRound
      rw [wp_bind]
      apply wp_ilock h List.mem_cons_self List.not_mem_nil
      · intro hfree
        exact herr _ (walk_free hfree)
      intro htype t ht'
      rw [wp_bind]
      apply wp_getInode ht' List.mem_cons_self
      by_cases hdir : (sb.load d i).type = T_DIR
      swap
      · rw [if_pos hdir]
        exact hstop t (walk_notDir htype hdir) ht'
      rw [if_neg (not_not_intro hdir)]
      by_cases hparent : (nameiparent && rest.bytes.isEmpty) = true
      · rw [if_pos hparent, wp_bind]
        apply wp_iunlock ht' List.mem_cons_self (off_one i)
        intro u _ hu
        rw [hlast, Bool.and_eq_true] at hparent
        apply hsome i name' u _ _ hkept hu
        · rw [hparent.1, List.isEmpty_iff.mp hparent.2]
          exact walk_stop hdir
        · intro _
          rw [List.isEmpty_iff.mp hparent.2]
          rfl
      rw [if_neg hparent]
      have hwalk : walk sb d nameiparent (s₀.refWith T) i (nameOf name' :: rest.names) =
          match find (nameOf name') (sb.slots d i) 0 with
          | none => .ok none
          | some (_, next) =>
              if CanGet sb (s₀.refWith (i :: T)) next then
                walk sb d nameiparent (s₀.refWith T) next rest.names
              else .error .igetNoInodes := by
        rw [refWith_cons]
        exact walk_next hdir (by rw [← hlast]; simpa using hparent)
      rw [wp_bind]
      apply wp_dirlookup ht ht' List.mem_cons_self hdir
      · intro hfind
        exact hstop t (by rw [hwalk, hfind]) ht'
      · intro k inum hfind hfull
        apply herr
        rw [hwalk, hfind]
        exact if_neg hfull
      · intro k inum hfind hcan u hu
        have hres : walk sb d nameiparent (s₀.refWith T) i (nameOf name' :: rest.names) =
            walk sb d nameiparent (s₀.refWith T) inum rest.names := by
          rw [hwalk, hfind]
          exact if_pos hcan
        rw [hres] at herr hnone hsome
        show wp E (iunlockput sb i >>= fun _ => _) R u
        rw [wp_bind]
        apply wp_iunlockput hu.swap List.mem_cons_self (off_one i) (hkept.cons inum)
        intro v hv
        have hrange := (h.range i List.mem_cons_self).2
        apply ih hv (hkeeps inum (named_of_found hrange hdir hfind)) herr hnone
        intro j name'' w hj hname
        apply hsome j name'' w hj
        intro hparent'
        have hend := hname hparent'
        cases hrest : rest.names with
        | nil =>
            rw [hrest] at hend
            cases hend
        | cons elem elems =>
            rw [List.getLast?_cons_cons, ← hrest]
            exact hend

/-- `namex` finds what `lookup` finds, and takes a reference to it. -/
theorem wp_namex (hroot : Inum sb ROOTINO) (h : Holds sb s₀ d T [] s)
    (hkeeps : Keeps sb s₀ d T) (hcwd : Inum sb (s₀.cwd p) ∧ 0 < s₀.ref (s₀.cwd p))
    (herr : ∀ e, s₀.lookup sb d nameiparent (s₀.refWith T) p path = .error e → E e)
    (hnone : s₀.lookup sb d nameiparent (s₀.refWith T) p path = .ok none →
      ∀ t, Holds sb s₀ d T [] t → R none t)
    (hsome : ∀ j name' t, s₀.lookup sb d nameiparent (s₀.refWith T) p path = .ok (some j) →
      (nameiparent = true → path.names.getLast? = some (nameOf name')) →
      Kept sb s₀ d T j → Holds sb s₀ d (j :: T) [] t → R (some (j, name')) t) :
    wp E (namex sb devsw nameiparent p path name) R s := by
  unfold namex
  rw [wp_bind, wp_get]
  by_cases hslash : path.bytes.head? = some slash
  · have hstart : s₀.start p path = ROOTINO := if_pos hslash
    rw [if_pos hslash, wp_bind]
    apply wp_iget h hroot
    · intro hfull
      apply herr
      unfold Kernel.lookup
      rw [hstart, if_neg hfull]
    · intro hcan t ht'
      have hlookup : s₀.lookup sb d nameiparent (s₀.refWith T) p path =
          walk sb d nameiparent (s₀.refWith T) ROOTINO path.names := by
        unfold Kernel.lookup
        rw [hstart, if_pos hcan]
      rw [hlookup] at herr hnone hsome
      exact wp_namexLoop ht hkeeps path name ht' (hkeeps ROOTINO (.inl rfl)) herr hnone hsome
  · have hstart : s₀.start p path = s₀.cwd p := if_neg hslash
    have hpos : 0 < s₀.refWith T (s₀.cwd p) := Nat.lt_of_lt_of_le hcwd.2 (Nat.le_add_right _ _)
    have hlookup : s₀.lookup sb d nameiparent (s₀.refWith T) p path =
        walk sb d nameiparent (s₀.refWith T) (s₀.cwd p) path.names := by
      unfold Kernel.lookup
      rw [hstart, if_pos (.inl hpos)]
    rw [hlookup] at herr hnone hsome
    rw [if_neg hslash, wp_bind, h.cwd]
    apply wp_idup h hcwd.1 hpos
    intro t ht'
    exact wp_namexLoop ht hkeeps path name ht' (kept_of_ref hcwd.2) herr hnone hsome

end Namex

/-! ## Quiescent states -/

/-- No call is in progress. -/
structure Settled (sb : Superblock) (s : Kernel P) : Prop where
  tree : Tree sb s.disk
  unlocked : ∀ i, s.locked i = false
  loaded : ∀ i, i < sb.ninodes → 0 < s.ref i → s.valid i = true →
    s.inode i = sb.load s.disk i ∧ (sb.load s.disk i).type ≠ 0
  cwd : ∀ p, Inum sb (s.cwd p) ∧ 0 < s.ref (s.cwd p)

/-- No call is in progress, and inodes without links and files that are not in use are as the
calls leave them. -/
structure Quiet (sb : Superblock) (s : Kernel P) : Prop extends Settled sb s where
  keeps : Keeps sb s s.disk []
  files : ∀ f, (s.file f).ref = 0 → (s.file f).type = .none

theorem refWith_nil (s : Kernel P) : s.refWith [] = s.ref := rfl

theorem Settled.holds (h : Settled sb s) : Holds sb s s.disk [] [] s where
  disk := rfl
  file := rfl
  ofile := rfl
  cwd := rfl
  ref := rfl
  locked i := by
    rw [h.unlocked]
    exact iff_of_false nofun List.not_mem_nil
  held _ hi := absurd hi List.not_mem_nil
  ready _ hi := absurd hi List.not_mem_nil
  stay _ _ hvalid := hvalid
  loaded := h.loaded
  range _ hi := absurd hi List.not_mem_nil

/-! ## Files -/

/-- An entry of the table of files is set. -/
def Kernel.setFile (s : Kernel P) (f : Nat) (ff : File) : Kernel P :=
  { s with file := update s.file f ff }

theorem Holds.setFile (h : Holds sb s₀ d T L s) (f : Nat) (ff : File) :
    Holds sb (s₀.setFile f ff) d T L (s.setFile f ff) :=
  { h with
    file := by
      show update s.file f ff = update s₀.file f ff
      rw [h.file] }

theorem Kernel.setFile_setFile (s : Kernel P) (f : Nat) (ff ff' : File) :
    (s.setFile f ff).setFile f ff' = s.setFile f ff' := by
  unfold Kernel.setFile
  simp only [Function.update_idem]

theorem Kernel.setFile_self (s : Kernel P) (f : Nat) : s.setFile f (s.file f) = s := by
  unfold Kernel.setFile
  rw [Function.update_eq_self]

/-- A file that is in use has been set. -/
theorem Kernel.setFile_types {f : Nat} {ff : File}
    (h : ∀ f', (s.file f').ref = 0 → (s.file f').type = .none) (hff : ff.ref ≠ 0) (f' : Nat)
    (hfree : ((s.setFile f ff).file f').ref = 0) : ((s.setFile f ff).file f').type = .none := by
  unfold Kernel.setFile at *
  by_cases hf' : f' = f
  · subst hf'
    simp only [Function.update_self] at hfree
    exact absurd hfree hff
  · simp only [Function.update_of_ne hf'] at hfree ⊢
    exact h f' hfree

theorem wp_filealloc {R : Option Nat → Kernel P → Prop} (h : Holds sb s₀ d T L s)
    (hnone : (∀ f, f < NFILE → (s₀.file f).ref ≠ 0) → R none s)
    (hsome : ∀ f t, f < NFILE → (s₀.file f).ref = 0 →
      Holds sb (s₀.setFile f { s₀.file f with ref := 1 }) d T L t → R (some f) t) :
    wp E filealloc R s := by
  unfold filealloc
  rw [wp_bind, wp_get, h.file]
  cases hfind : (List.range NFILE).find? fun f => (s₀.file f).ref == 0 with
  | none =>
      apply hnone
      intro f hf hzero
      have hno := List.find?_eq_none.mp hfind f (List.mem_range.mpr hf)
      rw [hzero] at hno
      exact hno rfl
  | some f =>
      have hf := List.mem_range.mp (List.mem_of_find?_eq_some hfind)
      have hzero : (s₀.file f).ref = 0 := by simpa using List.find?_some hfind
      have hset := h.setFile f { s₀.file f with ref := 1 }
      unfold Kernel.setFile at hset
      rw [h.file] at hset
      exact hsome f _ hf hzero hset

theorem wp_fdalloc [DecidableEq P] {p : P} {f : Nat} {R : Option Nat → Kernel P → Prop}
    (h : Holds sb s₀ d T L s) (hnone : (∀ fd, fd < NOFILE → s₀.ofile p fd ≠ none) → R none s)
    (hsome : ∀ fd t, fd < NOFILE → s₀.ofile p fd = none →
      Holds sb { s₀ with ofile := update s₀.ofile p (update (s₀.ofile p) fd (some f)) } d T L t →
        R (some fd) t) :
    wp E (fdalloc p f) R s := by
  unfold fdalloc
  rw [wp_bind, wp_get, h.ofile]
  cases hfind : (List.range NOFILE).find? fun fd => (s₀.ofile p fd).isNone with
  | none =>
      apply hnone
      intro fd hfd hfree
      have hno := List.find?_eq_none.mp hfind fd (List.mem_range.mpr hfd)
      rw [hfree] at hno
      exact hno rfl
  | some fd =>
      have hfd := List.mem_range.mp (List.mem_of_find?_eq_some hfind)
      have hfree : s₀.ofile p fd = none := by simpa using List.find?_some hfind
      exact hsome fd _ hfd hfree { h with ofile := rfl }

/-- `fileclose` of a file that has been allocated, and not been opened. -/
theorem wp_fileclose {f : Nat} (h : Holds sb s₀ d T L s) (href : (s₀.file f).ref = 1)
    (htype : (s₀.file f).type = .none)
    (hQ : ∀ t, Holds sb (s₀.setFile f { s₀.file f with ref := 0, type := .none }) d T L t →
      Q () t) :
    wp E (fileclose sb f) Q s := by
  have hset := h.setFile f { s₀.file f with ref := 0, type := .none }
  unfold Kernel.setFile at hset
  unfold fileclose
  rw [wp_bind, wp_get]
  simp only [h.file, href, htype]
  rw [if_neg (by decide), if_neg (by decide), wp_bind, wp_set]
  rw [h.file] at hset
  exact hQ _ hset

/-! ## A small kernel -/

theorem smallSuperblock_small : Small smallSuperblock where
  ok := smallSuperblock_ok
  root := by decide
  inum := by decide

theorem smallDisk_tree : Tree smallSuperblock smallDisk where
  consistent := smallDisk_consistent
  whole i hi _ := by
    rw [(smallDisk_load hi).1]
    rfl
  entries i k name inum hi _ hslot := by
    rw [slots_of_empty (smallDisk_load hi).1] at hslot
    cases hslot

theorem smallDisk_linked : ∀ i, i < 8 →
    (smallSuperblock.load smallDisk i).type ≠ 0 → (smallSuperblock.load smallDisk i).nlink ≠ 0 := by
  decide

/-- One process with the current directory 1 and the files `ofile`. -/
def smallKernel (file : Nat → File) (ofile : Nat → Option Nat) : Kernel Unit where
  disk := smallDisk
  inode := smallSuperblock.load smallDisk
  ref := fun i => if i = 1 then 1 else 0
  valid := fun _ => false
  locked := fun _ => false
  file := file
  ofile := fun _ => ofile
  cwd := fun _ => 1

theorem smallKernel_quiet {file : Nat → File} (ofile : Nat → Option Nat)
    (hfile : ∀ f, (file f).ref = 0 → (file f).type = .none) :
    Quiet smallSuperblock (smallKernel file ofile) where
  tree := smallDisk_tree
  unlocked _ := rfl
  loaded _ _ _ hvalid := nomatch hvalid
  keeps i hnamed htype hlinks := by
    have hi := smallDisk_tree.named smallSuperblock_small hnamed
    exact absurd hlinks (smallDisk_linked i hi.2 htype)
  cwd _ := ⟨smallSuperblock_small.rootInum, show 0 < 1 by decide⟩
  files := hfile

def noFile : File where
  type := .none
  ref := 0
  readable := false
  writable := false
  ip := 0
  off := 0

end OsWork.Ports.FsCalls

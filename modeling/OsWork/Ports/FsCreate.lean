import OsWork.Ports.FsCallRules

/-!
# New inodes

`ialloc`, and `create` after it has found that the name is not there.

## Main results

* `wp_createNew` — a new inode, its entry, and for a directory the entries `.` and `..`.
-/

namespace OsWork.Ports.FsCalls

open OsWork.Verified.ByteWords OsWork.Verified.Procedure OsWork.Verified.SlotMap
  OsWork.Ports.FsLayout OsWork.Ports.FsDisk OsWork.Ports.FsPaths
open Function (update)

variable {P : Type} {sb : Superblock} {devsw : Devsw} {s₀ s t : Kernel P} {d d' d'' : Disk}
  {T L : List Nat} {i ip j dp inum type ty major minor omode : Nat} {name : Bytes} {p : P}
  {E : Stop → Prop} {Q : Unit → Kernel P → Prop}

/-! ## `ialloc` -/

theorem freeInode_some (h : freeInode sb d = some i) : Inum sb i ∧ (sb.load d i).type = 0 := by
  have hmem := List.mem_of_find?_eq_some h
  have htest := List.find?_some h
  simp only [Bool.and_eq_true, decide_eq_true_eq, beq_iff_eq] at htest
  exact ⟨⟨htest.1, List.mem_range.mp hmem⟩, htest.2⟩

theorem newInode_ok (htype : type < 65536) : (newInode type).Ok where
  type := htype
  major := show 0 < 65536 by decide
  minor := show 0 < 65536 by decide
  nlink := show 0 < 65536 by decide
  size := show 0 < 4294967296 by decide
  addrs _ := show 0 < 4294967296 by decide
  none _ _ := rfl

/-- No lock is held of a free inode, and no copy of it is in use. -/
theorem Holds.alloc (h : Holds sb s₀ d T L s) (hi : i < sb.ninodes)
    (hfree : (sb.load d i).type = 0)
    (hother : ∀ j, j ≠ i → sb.load d' j = sb.load d j) :
    i ∉ L ∧ Holds sb s₀ d' T L { s with disk := d' } := by
  refine ⟨fun hmem => (h.node hmem).2 hfree, ?_⟩
  exact
    { h with
      disk := rfl
      loaded := by
        intro j hj hpos hvalid
        by_cases hji : j = i
        · rw [hji] at hpos hvalid
          exact absurd hfree (h.loaded i hi hpos hvalid).2
        · rw [hother j hji]
          exact h.loaded j hj hpos hvalid }

theorem wp_ialloc {R : Nat → Kernel P → Prop} (hsb : Small sb) (ht : Tree sb d)
    (h : Holds sb s₀ d T L s) (htype : type < 65536)
    (hnone : freeInode sb d = none → E .iallocNoInodes)
    (hfull : ∀ i, freeInode sb d = some i → ¬ CanGet sb (s₀.refWith T) i → E .igetNoInodes)
    (hQ : ∀ i d' t, freeInode sb d = some i → CanGet sb (s₀.refWith T) i → i ∉ L →
      Stored sb d i (newInode type) d' → Holds sb s₀ d' (i :: T) L t → R i t) :
    wp E (ialloc sb type) R s := by
  unfold ialloc
  rw [wp_bind, wp_get, h.disk]
  cases hfind : freeInode sb d with
  | none => exact hnone hfind
  | some i =>
      obtain ⟨hi, hfree⟩ := freeInode_some hfind
      have hset := ht.iupdate hsb.ok hi.2 (newInode_ok htype) (.inr ⟨rfl, fun _ => rfl⟩)
      obtain ⟨hlock, hholds⟩ := h.alloc hi.2 hfree hset.other
      show wp E (iget sb i >>= fun _ => pure i) R { s with disk := sb.iupdate d i (newInode type) }
      rw [wp_bind]
      exact wp_iget hholds hi (hfull i hfind) fun hcan t ht' => hQ i _ t hfind hcan hlock hset ht'

/-! ## Links -/

theorem wp_addLinks {n : Nat} (hsb : Small sb) (ht : Tree sb d) (h : Holds sb s₀ d T L s)
    (hi : i ∈ L) (hQ : ∀ d' t, Tree sb d' →
      Stored sb d i { sb.load d i with nlink := ((sb.load d i).nlink + n) % 65536 } d' →
      (∀ j, j < sb.ninodes → sb.contents d' j = sb.contents d j) → Holds sb s₀ d' T L t →
        Q () t) :
    wp E (addLinks sb i n) Q s := by
  have hok : ({ sb.load d i with nlink := ((sb.load d i).nlink + n) % 65536 } : Inode).Ok :=
    { load_ok sb d i with nlink := Nat.mod_lt _ (by decide) }
  have hset := ht.iupdate hsb.ok (h.range i (h.held i hi)).2 hok (.inl ⟨rfl, rfl⟩)
  have hsame : ∀ j, j < sb.ninodes → sb.contents (sb.iupdate d i
      { sb.load d i with nlink := ((sb.load d i).nlink + n) % 65536 }) j = sb.contents d j := by
    intro j hj
    have hsize : (sb.load (sb.iupdate d i
        { sb.load d i with nlink := ((sb.load d i).nlink + n) % 65536 }) j).size =
          (sb.load d j).size := by
      by_cases hji : j = i
      · rw [hji, hset.load]
      · rw [hset.other j hji]
    rcases hset.contents j hj with hzero | hsame
    · rw [contents_of_empty hzero, contents_of_empty (hsize.symm.trans hzero)]
    · exact hsame
  unfold addLinks
  rw [wp_bind]
  apply wp_getInode h hi
  apply wp_setInode h hset (h.node hi).2
  exact fun t ht' => hQ _ t (ht.set hset (.inr ⟨rfl, rfl⟩)) hset hsame ht'

/-- The link count of an inode has changed to which there is a reference. -/
theorem Keeps.count {node : Inode} (h : Keeps sb s₀ d []) (hset : Stored sb d ip node d')
    (htype : node.type = (sb.load d ip).type) : Keeps sb s₀ d' [ip] := by
  intro j hnamed
  by_cases hj : j = ip
  · rw [hj]
    exact fun _ _ => refWith_pos List.mem_cons_self
  · have hkept := (h j (hset.replaced.named (.inr htype) hnamed)).cons ip
    unfold Kept at *
    rwa [hset.other j hj]

/-- The entry has been added, or the call is stopped. -/
theorem wp_dirlinkOrPanic {e : Stop} (hsb : Small sb) (ht : Tree sb d)
    (h : Holds sb s₀ d T L s) (hi : i ∈ L) (htype : (sb.load d i).type = T_DIR)
    (hinum : Inum sb inum) (hfind : find (nameOf name) (sb.slots d i) 0 = none)
    (hlimit : AtLimit sb d i → E (.disk .dirlink))
    (hblock : ¬ HasRoom sb d i → E (.disk .block))
    (hQ : HasRoom sb d i → ∀ d' t, Linked sb d i (nameOf name) inum d' →
      Holds sb s₀ d' T L t → Q () t) :
    wp E (dirlinkOrPanic sb devsw e i name inum) Q s := by
  unfold dirlinkOrPanic
  rw [wp_bind]
  exact wp_dirlink_absent hsb ht h hi htype hinum hfind hlimit hblock hQ

/-- The disk has changed in inode `i`, and in the link count of `dp`. -/
structure Grown (sb : Superblock) (d : Disk) (dp i : Nat) (d' : Disk) : Prop where
  tree : Tree sb d'
  type : (sb.load d' i).type = (sb.load d i).type
  nlink : (sb.load d' i).nlink = (sb.load d i).nlink
  other : ∀ j, j < sb.ninodes → j ≠ i → (sb.load d' j).type = (sb.load d j).type ∧
    (sb.load d' j).size = (sb.load d j).size ∧ sb.slots d' j = sb.slots d j ∧
    (j ≠ dp → (sb.load d' j).nlink = (sb.load d j).nlink)

theorem Grown.refl (ht : Tree sb d) (dp i : Nat) : Grown sb d dp i d :=
  ⟨ht, rfl, rfl, fun _ _ _ => ⟨rfl, rfl, rfl, fun _ => rfl⟩⟩

theorem Grown.trans (h : Grown sb d dp i d') (h' : Grown sb d' dp i d'') :
    Grown sb d dp i d'' where
  tree := h'.tree
  type := h'.type.trans h.type
  nlink := h'.nlink.trans h.nlink
  other j hj hji := by
    obtain ⟨htype, hsize, hslots, hlinks⟩ := h.other j hj hji
    obtain ⟨htype', hsize', hslots', hlinks'⟩ := h'.other j hj hji
    exact ⟨htype'.trans htype, hsize'.trans hsize, hslots'.trans hslots,
      fun hne => (hlinks' hne).trans (hlinks hne)⟩

theorem Linked.grown {key : List UInt8} (h : Linked sb d i key inum d') (dp : Nat) :
    Grown sb d dp i d' := by
  obtain ⟨data, hw⟩ := h.wrote
  exact
    { tree := h.tree
      type := by rw [hw.fields]
      nlink := by rw [hw.fields]
      other := by
        intro j hj hji
        obtain ⟨hload, hcontents⟩ := hw.other j hj hji
        rw [hload]
        exact ⟨rfl, rfl, congrArg slotsOf hcontents, fun _ => rfl⟩ }

/-! ## `create` -/

/-- The entries of a new directory. -/
theorem wp_createDots (hsb : Small sb) (ht : Tree sb d) (h : Holds sb s₀ d T L s) (hdp : dp ∈ L)
    (hi : i ∈ L) (hne : i ≠ dp) (hdir : (sb.load d i).type = T_DIR)
    (hsize : (sb.load d i).size = 0) (hblock : E (.disk .block))
    (hQ : ∀ d' t, Grown sb d dp i d' →
      (∀ j, Named sb d' j → Named sb d j ∨ j = i ∨ j = dp) → Holds sb s₀ d' T L t → Q () t) :
    wp E (createDots sb devsw dp i) Q s := by
  have hinum := h.range i (h.held i hi)
  have hinum' := h.range dp (h.held dp hdp)
  unfold createDots
  rw [wp_bind]
  apply wp_addLinks hsb ht h hdp
  intro d₁ t₁ ht₁ hset hsame h₁
  have hslots₁ : ∀ j, j < sb.ninodes → sb.slots d₁ j = sb.slots d j := fun j hj =>
    congrArg slotsOf (hsame j hj)
  have hload : sb.load d₁ i = sb.load d i := hset.other i hne
  have hgrown₁ : Grown sb d dp i d₁ :=
    { tree := ht₁
      type := by rw [hload]
      nlink := by rw [hload]
      other := by
        intro j hj _
        by_cases hjdp : j = dp
        · subst hjdp
          rw [hset.load]
          exact ⟨rfl, rfl, hslots₁ j hj, fun heq => absurd rfl heq⟩
        · rw [hset.other j hjdp]
          exact ⟨rfl, rfl, hslots₁ j hj, fun _ => rfl⟩ }
  have hempty : sb.slots d₁ i = [] := slots_of_empty (by rw [hload, hsize])
  have hshort : ∀ {d'}, (sb.load d' i).size < 32 → ¬ AtLimit sb d' i := by
    intro d' hlt hlimit
    have hbig := hlimit.2
    unfold direntSize MAXFILE NDIRECT NINDIRECT BSIZE at hbig
    omega
  rw [wp_bind]
  apply wp_dirlinkOrPanic hsb ht₁ h₁ hi (by rw [hload]; exact hdir) hinum (by rw [hempty]; rfl)
  · intro hlimit
    exact absurd hlimit (hshort (by rw [hload, hsize]; decide))
  · exact fun _ => hblock
  intro _ d₂ t₂ hlinked h₂
  have hgrown₂ := hlinked.grown dp
  have hslots : sb.slots d₂ i = [some (nameOf dot, i)] := by
    rw [hlinked.slots, hempty]
    rfl
  have hlen := slots_length sb d₂ i
  rw [hslots, List.length_singleton] at hlen
  apply wp_dirlinkOrPanic hsb hgrown₂.tree h₂ hi _ hinum' _
  · intro hlimit
    refine absurd hlimit (hshort ?_)
    unfold direntSize at hlen
    omega
  · exact fun _ => hblock
  · intro _ d₃ t₃ hlinked' h₃
    refine hQ d₃ t₃ ((hgrown₁.trans hgrown₂).trans (hlinked'.grown dp)) ?_ h₃
    intro j hnamed
    have hdir₁ : (sb.load d₁ i).type = T_DIR := by
      rw [hload]
      exact hdir
    have hdir₂ : (sb.load d₂ i).type = T_DIR := hgrown₂.type.trans hdir₁
    rcases hlinked'.named hdir₂ hnamed with hnamed | rfl
    · rcases hlinked.named hdir₁ hnamed with hnamed | rfl
      · exact .inl (hset.replaced.named (.inr rfl) hnamed)
      · exact .inr (.inl rfl)
    · exact .inr (.inr rfl)
  · rw [hgrown₂.type, hload]
    exact hdir
  · rw [hslots]
    rfl

/-- A new inode with one link has an entry in `dp`. -/
structure Created (sb : Superblock) (d : Disk) (dp i ty : Nat) (d' : Disk) : Prop where
  tree : Tree sb d'
  type : (sb.load d' i).type = ty
  nlink : (sb.load d' i).nlink = 1
  other : ∀ j, j < sb.ninodes → j ≠ i → (sb.load d' j).type = (sb.load d j).type ∧
    (ty ≠ T_DIR ∨ j ≠ dp → (sb.load d' j).nlink = (sb.load d j).nlink)
  named : ∀ j, Named sb d' j → Named sb d j ∨ j = i ∨ j = dp

/-- `create` of a name that is not there, up to the `iunlockput`. -/
theorem wp_createNew {R : Nat → Kernel P → Prop} (hsb : Small sb) (ht : Tree sb d)
    (h : Holds sb s₀ d [dp] [dp] s) (hdir : (sb.load d dp).type = T_DIR)
    (hfind : find (nameOf name) (sb.slots d dp) 0 = none) (htype : ty ≠ 0 ∧ ty < 65536)
    (hnone : freeInode sb d = none → E .iallocNoInodes)
    (hfull : ∀ i, freeInode sb d = some i → ¬ CanGet sb (s₀.refWith [dp]) i → E .igetNoInodes)
    (hlimit : AtLimit sb d dp → E (.disk .dirlink))
    (hblock : ty = T_DIR ∨ ¬ HasRoom sb d dp → E (.disk .block))
    (hQ : ∀ i d' t, freeInode sb d = some i → CanGet sb (s₀.refWith [dp]) i →
      ¬ AtLimit sb d dp → ty = T_DIR ∨ HasRoom sb d dp → Created sb d dp i ty d' → i ≠ dp →
      Holds sb s₀ d' [i, dp] [i, dp] t → wp E (iunlockput sb dp) (fun _ => R i) t) :
    wp E (createNew sb devsw dp name ty major minor) R s := by
  have hdp : dp ∈ [dp] := List.mem_cons_self
  unfold createNew
  rw [wp_bind]
  apply wp_ialloc hsb ht h htype.2 hnone hfull
  intro i d₁ t₁ hfree hcan hlock hset₁ h₁
  have hne : i ≠ dp := fun heq => hlock (heq ▸ hdp)
  obtain ⟨hi, hzero⟩ := freeInode_some hfree
  have ht₁ : Tree sb d₁ := ht.set hset₁ (.inl rfl)
  rw [wp_bind]
  apply wp_ilock h₁ List.mem_cons_self hlock
  · intro hfree'
    rw [hset₁.load] at hfree'
    exact absurd hfree' htype.1
  intro _ t₂ h₂
  rw [wp_bind]
  apply wp_getInode h₂ List.mem_cons_self
  rw [hset₁.load, wp_bind]
  have hok : ({ newInode ty with
      major := major % 65536
      minor := minor % 65536
      nlink := 1 } : Inode).Ok :=
    { newInode_ok htype.2 with
      major := Nat.mod_lt _ (by decide)
      minor := Nat.mod_lt _ (by decide)
      nlink := show 1 < 65536 by decide }
  have hset₂ := ht₁.iupdate hsb.ok hi.2 hok (.inr ⟨rfl, fun _ => rfl⟩)
  apply wp_setInode h₂ hset₂ htype.1
  intro t₃ h₃
  obtain ⟨d₂, hd₂⟩ : ∃ d₂, d₂ = sb.iupdate d₁ i
    { newInode ty with major := major % 65536, minor := minor % 65536, nlink := 1 } := ⟨_, rfl⟩
  rw [← hd₂] at hset₂ h₃
  have ht₂ : Tree sb d₂ := ht₁.set hset₂ (.inl rfl)
  have hother : ∀ j, j < sb.ninodes → j ≠ i → sb.load d₂ j = sb.load d j ∧
      sb.slots d₂ j = sb.slots d j := fun j hj hji =>
    ⟨(hset₂.other j hji).trans (hset₁.other j hji),
      (hset₂.slots hj hji).trans (hset₁.slots hj hji)⟩
  have hfree₂ : sb.freeCount d₂ = sb.freeCount d := hset₂.free.trans hset₁.free
  have hdp' := (h.range dp hdp).2
  have hnamed₂ : ∀ j, Named sb d₂ j → Named sb d j := fun j hnamed =>
    hset₁.replaced.named (.inl rfl) (hset₂.replaced.named (.inl rfl) hnamed)
  -- the entry in `dp`, when only the new inode and the link count of `dp` have changed
  have hentry : ∀ d₃ t, Grown sb d₂ dp i d₃ → (ty ≠ T_DIR → d₃ = d₂) →
      (∀ j, Named sb d₃ j → Named sb d₂ j ∨ j = i ∨ j = dp) → Holds sb s₀ d₃ [i, dp] [i, dp] t →
      wp E (dirlinkOrPanic sb devsw .createDirlink dp name i >>= fun _ =>
        iunlockput sb dp >>= fun _ => pure i) R t := by
    intro d₃ t hgrown hsame hnamed₃ h'
    obtain ⟨htype', hsize', hslots', hlinks'⟩ := hgrown.other dp hdp' hne.symm
    obtain ⟨hload, hslots⟩ := hother dp hdp' hne.symm
    rw [hload] at htype' hsize'
    rw [hslots] at hslots'
    rw [wp_bind]
    apply wp_dirlinkOrPanic hsb hgrown.tree h' (List.mem_cons_of_mem i hdp)
      (htype'.trans hdir) hi (by rw [hslots']; exact hfind)
    · intro hfull
      unfold AtLimit at hfull
      rw [hslots', hsize'] at hfull
      exact hlimit hfull
    · intro hroom
      apply hblock
      by_cases hty : ty = T_DIR
      · exact .inl hty
      · right
        unfold HasRoom at hroom ⊢
        rwa [hslots', hsize', hsame hty, hfree₂] at hroom
    intro hroom d₄ t' hlinked h₄
    have hlast := hlinked.grown dp
    rw [wp_bind]
    refine hQ i d₄ t' hfree hcan ?_ ?_ ?_ hne h₄
    · rintro ⟨hend, hlong⟩
      unfold HasRoom at hroom
      rw [hslots', hsize', hend] at hroom
      rcases hroom with hlt | ⟨hfit, -⟩
      · exact Nat.lt_irrefl _ hlt
      · omega
    · by_cases hty : ty = T_DIR
      · exact .inl hty
      · right
        unfold HasRoom at hroom ⊢
        rwa [hslots', hsize', hsame hty, hfree₂] at hroom
    · obtain ⟨htypei, -, -, hlinksi⟩ := hlast.other i hi.2 hne
      exact
        { tree := hlinked.tree
          type := by rw [htypei, hgrown.type, hset₂.load]; rfl
          nlink := by rw [hlinksi hne, hgrown.nlink, hset₂.load]
          other := by
            intro j hj hji
            obtain ⟨htypej, -, -, hlinksj⟩ := hgrown.other j hj hji
            rw [(hother j hj hji).1] at htypej hlinksj
            by_cases hjdp : j = dp
            · subst hjdp
              refine ⟨hlast.type.trans htypej, fun hcase => ?_⟩
              have hty : ty ≠ T_DIR := hcase.resolve_right fun hno => hno rfl
              rw [hlast.nlink, hsame hty, hload]
            · obtain ⟨htypel, -, -, hlinksl⟩ := hlast.other j hj hjdp
              exact ⟨htypel.trans htypej, fun _ => (hlinksl hjdp).trans (hlinksj hjdp)⟩
          named := by
            intro j hnamed
            rcases hlinked.named (htype'.trans hdir) hnamed with hnamed | rfl
            · exact (hnamed₃ j hnamed).imp_left (hnamed₂ j)
            · exact .inr (.inl rfl) }
  rw [wp_bind]
  by_cases hty : ty = T_DIR
  · rw [if_pos hty]
    apply wp_createDots hsb ht₂ h₃ (List.mem_cons_of_mem i hdp) List.mem_cons_self hne
    · rw [hset₂.load]
      exact hty
    · rw [hset₂.load]
      rfl
    · exact hblock (.inl hty)
    · exact fun d₃ t hgrown hnamed h' => hentry d₃ t hgrown (fun hno => absurd hty hno) hnamed h'
  · rw [if_neg hty]
    exact hentry d₂ t₃ (.refl ht₂ dp i) (fun _ => rfl) (fun _ hnamed => .inl hnamed) h₃

/-- `create` when there is an entry for the name. -/
def createFound (sb : Superblock) (type ip : Nat) : Fs P (Option Nat) := do
  ilock sb ip
  let node ← getInode ip
  if type = T_FILE ∧ node.type = T_FILE then pure (some ip)
  else
    iunlockput sb ip
    pure none

/-- `create` after `nameiparent`. -/
def createAt (sb : Superblock) (devsw : Devsw) (dp : Nat) (name : Bytes)
    (type major minor : Nat) : Fs P (Option Nat) := do
  ilock sb dp
  match ← dirlookup sb devsw dp name with
  | some (ip, _) =>
      iunlockput sb dp
      createFound sb type ip
  | none =>
      let ip ← createNew sb devsw dp name type major minor
      pure (some ip)

theorem create_eq (p : P) (path : Path) : (create sb devsw p path ty major minor : Fs P _) =
    nameiparent sb devsw p path zeroes >>= fun r =>
      match r with
      | none => pure none
      | some (dp, name) => createAt sb devsw dp name ty major minor := rfl

theorem wp_createAt {R : Option Nat → Kernel P → Prop} (ht : Tree sb d)
    (h : Holds sb s₀ d [dp] [] s) (hdir : (sb.load d dp).type = T_DIR)
    (hfull : ∀ k ip, find (nameOf name) (sb.slots d dp) 0 = some (k, ip) → E .igetNoInodes)
    (hold : ∀ k ip, find (nameOf name) (sb.slots d dp) 0 = some (k, ip) →
      ∀ t, Holds sb s₀ d [dp, ip] [dp] t →
        wp E (iunlockput sb dp >>= fun _ => createFound sb ty ip) R t)
    (hnew : find (nameOf name) (sb.slots d dp) 0 = none → ∀ t, Holds sb s₀ d [dp] [dp] t →
      wp E (createNew sb devsw dp name ty major minor) (fun i => R (some i)) t) :
    wp E (createAt sb devsw dp name ty major minor) R s := by
  unfold createAt
  rw [wp_bind]
  apply wp_ilock h List.mem_cons_self List.not_mem_nil
  · intro hfree
    rw [hdir] at hfree
    cases hfree
  intro _ t ht'
  rw [wp_bind]
  apply wp_dirlookup ht ht' List.mem_cons_self hdir
  · intro hfind
    rw [wp_bind]
    exact hnew hfind t ht'
  · exact fun k ip hfind _ => hfull k ip hfind
  · exact fun k ip hfind _ u hu => hold k ip hfind u hu.swap

theorem wp_createFound {R : Option Nat → Kernel P → Prop} (h : Holds sb s₀ d [i] [] s)
    (hfree : E .ilockNoType) (hfile : ty = T_FILE → ∀ t, Holds sb s₀ d [i] [i] t → R (some i) t)
    (hbad : ∀ t, Holds sb s₀ d [i] [i] t → wp E (iunlockput sb i) (fun _ => R none) t) :
    wp E (createFound sb ty i) R s := by
  unfold createFound
  rw [wp_bind]
  apply wp_ilock h List.mem_cons_self List.not_mem_nil (fun _ => hfree)
  intro _ t ht
  rw [wp_bind]
  apply wp_getInode ht List.mem_cons_self
  split
  · rename_i hall
    exact hfile hall.1 t ht
  · rw [wp_bind]
    exact hbad t ht

/-! ## `open` -/

/-- There is no entry in the table of files, or no descriptor. -/
def NoDescriptor (s : Kernel P) (p : P) : Prop :=
  (∀ f, f < NFILE → (s.file f).ref ≠ 0) ∨ ∀ fd, fd < NOFILE → s.ofile p fd ≠ none

variable [DecidableEq P]

/-- The end of `sys_open`, up to the `iunlockput` when there is no descriptor. -/
theorem wp_openInode {R : Int → Kernel P → Prop} (h : Holds sb s₀ d [ip] [ip] s)
    (hfiles : ∀ f, (s₀.file f).ref = 0 → (s₀.file f).type = .none)
    (hbad : NoDescriptor s₀ p → ∀ t, Holds sb s₀ d [ip] [ip] t →
      wp E (iunlockput sb ip) (fun _ => R (-1)) t)
    (hok : ¬ NoDescriptor s₀ p → ∀ (fd : Nat) s₁ t, s₁.ref = s₀.ref → s₁.cwd = s₀.cwd →
      (∀ f, (s₁.file f).ref = 0 → (s₁.file f).type = .none) → Holds sb s₁ d [ip] [] t →
        R fd t) :
    wp E (openInode sb p ip omode) R s := by
  unfold openInode
  rw [wp_bind]
  apply wp_filealloc h
  · intro hall
    rw [wp_bind]
    exact hbad (.inl hall) s h
  intro f t hf hzero ht
  have htype := hfiles f hzero
  have hself : (s₀.setFile f { s₀.file f with ref := 1 }).file f =
      { s₀.file f with ref := 1 } := Function.update_self _ _ _
  rw [wp_bind]
  apply wp_fdalloc ht
  · intro hall
    rw [wp_bind]
    apply wp_fileclose ht (by rw [hself]) (by rw [hself]; exact htype)
    intro u hu
    rw [wp_bind]
    apply hbad (.inr hall) u
    have hback : { s₀.file f with ref := 0, type := .none } = s₀.file f := by
      rw [← hzero, ← htype]
    rw [hself, hback, Kernel.setFile_setFile, Kernel.setFile_self] at hu
    exact hu
  · intro fd u hfd hfree hu
    have hsome : ¬ NoDescriptor s₀ p := by
      rintro (hall | hall)
      · exact hall f hf hzero
      · exact hall fd hfd hfree
    rw [wp_bind]
    apply wp_iunlock hu List.mem_cons_self (off_one _)
    intro v _ hv
    have hfile : v.file f = { s₀.file f with ref := 1 } := by
      rw [hv.file]
      exact hself
    have hset := hv.setFile f { v.file f with
      type := .inode
      ip := ip
      off := 0
      readable := omode &&& O_WRONLY == 0
      writable := omode &&& O_WRONLY != 0 || omode &&& O_RDWR != 0 }
    refine hok hsome fd _ _ ?_ ?_ ?_ hset
    · rfl
    · rfl
    · apply Kernel.setFile_types _ (by rw [hfile]; exact Nat.one_ne_zero)
      exact Kernel.setFile_types hfiles Nat.one_ne_zero

end OsWork.Ports.FsCalls

import OsWork.Ports.FsCreate

/-!
# Dropping the last reference

`iput` of an inode without links and without other references frees its blocks and the inode.
The disk remains a tree, and the other inodes are as before.

## Main results

* `itrunc_freed` — `itrunc` clears the bits of the blocks of one inode.
* `wp_iput_any` — what `iput` leaves, whether it frees the inode or not.
-/

namespace OsWork.Ports.FsCalls

open OsWork.Verified.ByteBits OsWork.Verified.ByteWords OsWork.Verified.Procedure
  OsWork.Verified.SlotMap OsWork.Ports.FsLayout OsWork.Ports.FsDisk OsWork.Ports.FsPaths
open Function (update)

variable {P : Type} {sb : Superblock} {devsw : Devsw} {s₀ s t : Kernel P} {d d' e e' : Disk}
  {T L L' : List Nat} {i b : Nat} {ip ip' : Inode} {E : Stop → Prop} {Q : Unit → Kernel P → Prop}

/-! ## Blocks -/

/-- The block is one of inode `i`. -/
def Owns (sb : Superblock) (d : Disk) (i b : Nat) : Prop :=
  ∃ k, k < maxSlots ∧ refAt (sb.addrsOn d) d i k = b

theorem Freed.bfree (hf : Freed sb d i e) (h : Consistent sb d) (hi : i < sb.ninodes)
    (hown : Owns sb d i b) (hne : b ≠ 0) (hrun : sb.bfree e b = some e') : Freed sb d i e' := by
  obtain ⟨k, hk, rfl⟩ := hown
  obtain ⟨-, hlt, -⟩ := h.refs.inUse i k hi hk hne
  have hmap := BBLOCK_range hlt
  unfold Superblock.bfree at hrun
  split at hrun
  · cases hrun
    exact
      { same := by
          intro x hx
          rw [Function.update_of_ne (by omega)]
          exact hf.same x hx
        bits := by
          intro x hx
          have hclear : sb.bit (update e (sb.BBLOCK (refAt (sb.addrsOn d) d i k)) (clearAt
              (e (sb.BBLOCK (refAt (sb.addrsOn d) d i k))) (refAt (sb.addrsOn d) d i k % BPB))) x =
                (!decide (refAt (sb.addrsOn d) d i k = x) && sb.bit e x) :=
            bit_update (g := fun u v => !u && v) (fun _ _ _ => bitAt_clearAt) fun _ => rfl
          rw [hclear, decide_eq_false (hx k hk hne)]
          exact hf.bits x hx }
  · cases hrun

theorem Freed.bfreeAll (h : Consistent sb d) (hi : i < sb.ninodes) : ∀ (l : List Nat) (e : Disk),
    Freed sb d i e → (∀ b, b ∈ l → Owns sb d i b) → bfreeAll sb l e = some e' →
      Freed sb d i e' := by
  intro l
  induction l with
  | nil =>
      intro e hf _ hrun
      cases hrun
      exact hf
  | cons b bs ih =>
      intro e hf hown hrun
      have hrest : ∀ c, c ∈ bs → Owns sb d i c := fun c hc => hown c (List.mem_cons_of_mem b hc)
      unfold FsCalls.bfreeAll at hrun
      split at hrun
      · exact ih e hf hrest hrun
      · rename_i hne
        obtain ⟨e₁, hfree, hrun⟩ := Option.bind_eq_some_iff.mp hrun
        exact ih e₁ (hf.bfree h hi (hown b List.mem_cons_self) hne hfree) hrest hrun

/-- `itrunc` of an inode that is as on the disk. -/
theorem itrunc_freed (h : Consistent sb d) (hi : i < sb.ninodes)
    (hrun : itrunc sb d i (sb.load d i) = some (d', ip')) :
    ∃ e, Freed sb d i e ∧ ip' = { sb.load d i with addrs := fun _ => 0, size := 0 } ∧
      d' = sb.iupdate e i ip' := by
  unfold itrunc at hrun
  obtain ⟨e₁, hdirect, hrun⟩ := Option.bind_eq_some_iff.mp hrun
  have hf₁ : Freed sb d i e₁ := by
    refine Freed.bfreeAll h hi _ d (.refl sb d i) ?_ hdirect
    intro b hb
    obtain ⟨k, hk, rfl⟩ := List.mem_map.mp hb
    have hlt := List.mem_range.mp hk
    exact ⟨k, Nat.lt_trans hlt (by decide), refAt_addr (Nat.le_of_lt hlt)⟩
  dsimp only at hrun
  split at hrun
  · cases hrun
    exact ⟨e₁, hf₁, rfl, rfl⟩
  · rename_i hne
    obtain ⟨e₂, hentries, hrun⟩ := Option.bind_eq_some_iff.mp hrun
    obtain ⟨e₃, hlast, hrun⟩ := Option.bind_eq_some_iff.mp hrun
    have hblock : e₁ ((sb.load d i).addrs NDIRECT) = d ((sb.load d i).addrs NDIRECT) :=
      hf₁.same _ (.inr (h.refs.indirect hi hne).1)
    have hf₂ : Freed sb d i e₂ := by
      refine Freed.bfreeAll h hi _ e₁ hf₁ ?_ hentries
      intro b hb
      obtain ⟨j, hj, rfl⟩ := List.mem_map.mp hb
      have hlt := List.mem_range.mp hj
      refine ⟨13 + j, by unfold maxSlots; omega, ?_⟩
      rw [refAt_entry (by unfold NDIRECT; omega) hne, hblock, Nat.add_sub_cancel_left]
      rfl
    cases hrun
    exact ⟨e₃, hf₂.bfree h hi ⟨NDIRECT, by decide, refAt_addr (Nat.le_refl _)⟩ hne hlast, rfl, rfl⟩

/-! ## Inodes -/

/-- Inode `i` has been freed. -/
structure Gone (sb : Superblock) (d : Disk) (i : Nat) (d' : Disk) : Prop where
  tree : Tree sb d'
  type : (sb.load d' i).type = 0
  other : ∀ j, j < sb.ninodes → j ≠ i →
    sb.load d' j = sb.load d j ∧ sb.slots d' j = sb.slots d j

/-- What `iput` stores. -/
theorem itrunc_gone (hsb : Small sb) (ht : Tree sb d) (hi : i < sb.ninodes)
    (hrun : itrunc sb d i (sb.load d i) = some (d', ip')) :
    Gone sb d i (sb.iupdate d' i { ip' with type := 0 }) := by
  obtain ⟨e, hf, rfl, rfl⟩ := itrunc_freed ht.consistent hi hrun
  have hok : ({ sb.load d i with addrs := fun _ => 0, size := 0 } : Inode).Ok :=
    { load_ok sb d i with
      size := show 0 < 4294967296 by decide
      addrs := fun _ => show 0 < 4294967296 by decide
      none := fun _ _ => rfl }
  have hrep := hf.iupdate ht.consistent hsb.ok hi hok (.inr ⟨rfl, fun _ => rfl⟩)
  have ht' := ht.replace hrep (.inl rfl)
  have hok' : ({ sb.load d i with addrs := fun _ => 0, size := 0, type := 0 } : Inode).Ok :=
    { hok with type := show 0 < 65536 by decide }
  have hset := ht'.iupdate hsb.ok hi hok' (.inr ⟨rfl, fun _ => rfl⟩)
  exact
    { tree := ht'.set hset (.inl rfl)
      type := by rw [hset.load]
      other := fun j hj hji => ⟨(hset.other j hji).trans (hrep.other j hj hji),
        (hset.slots hj hji).trans (hrep.slots hj hji)⟩ }

/-- The other inodes have the same entries, and links or references as before. -/
theorem Gone.keeps (h : Gone sb d i d') (hsb : Small sb) (hkeeps : Keeps sb s₀ d (i :: T)) :
    Keeps sb s₀ d' T := by
  intro j hnamed
  have hj := (h.tree.named hsb hnamed).2
  by_cases hji : j = i
  · rw [hji]
    exact fun htype => absurd h.type htype
  · have hold : Named sb d j := by
      rcases hnamed with hroot | ⟨dp, k, name, hdp, hdir, hslot⟩
      · exact .inl hroot
      · have hne : dp ≠ i := by
          rintro rfl
          rw [h.type] at hdir
          cases hdir
        obtain ⟨hload, hslots⟩ := h.other dp hdp hne
        rw [hload] at hdir
        rw [hslots] at hslot
        exact .inr ⟨dp, k, name, hdp, hdir, hslot⟩
    have hkept := hkeeps j hold
    unfold Kept at *
    rwa [(h.other j hj hji).1, ← refWith_cons_of_ne hji]

/-- A reference that is not the only reason to keep the inode. -/
theorem Keeps.drop (h : Keeps sb s₀ d (i :: T)) (hkept : Kept sb s₀ d T i) :
    Keeps sb s₀ d T := by
  intro j hnamed
  by_cases hji : j = i
  · rw [hji]
    exact hkept
  · have hkept' := h j hnamed
    unfold Kept at *
    rwa [refWith_cons_of_ne hji] at hkept'

/-- A call in progress on a tree. -/
structure Valid (sb : Superblock) (s₀ : Kernel P) (d : Disk) (T L : List Nat) (s : Kernel P) : Prop
    extends Holds sb s₀ d T L s where
  tree : Tree sb d
  keeps : Keeps sb s₀ d T

/-- `iput` of an inode that has been read in. -/
theorem wp_iput_any (hsb : Small sb) (h : Valid sb s₀ d (i :: T) L s) (hL : i ∉ L)
    (hvalid : s.valid i = true) (hbfree : E .bfree)
    (hQ : ∀ d' t, (∀ j, j < sb.ninodes → j ≠ i → sb.load d' j = sb.load d j) →
      Valid sb s₀ d' T L t → Q () t) : wp E (iput sb i) Q s := by
  have hi := h.range i List.mem_cons_self
  have href : s.ref i = s₀.refWith T i + 1 := by
    rw [h.ref, refWith_cons, Function.update_self]
  obtain ⟨hnode, htype⟩ := h.loaded i hi.2 (by omega) hvalid
  by_cases hlast : (s.inode i).nlink = 0 ∧ s.ref i = 1
  · obtain ⟨hlinks, hone⟩ := hlast
    unfold iput
    rw [wp_bind, wp_get, if_neg fun hlock => hL ((h.locked i).mp hlock),
      if_pos ⟨hvalid, hlinks, hone⟩, hnode, h.disk]
    cases hrun : itrunc sb d i (sb.load d i) with
    | none => exact hbfree
    | some r =>
        obtain ⟨d', ip'⟩ := r
        have hgone := itrunc_gone hsb h.tree hi.2 hrun
        refine hQ _ _ (fun j hj hji => (hgone.other j hj hji).1) ?_
        have hback : update s.ref i (s.ref i - 1) = s₀.refWith T := by
          rw [h.ref, refWith_cons, Function.update_idem, Function.update_self, Nat.add_sub_cancel]
          exact Function.update_eq_self _ _
        exact
          { h with
            disk := rfl
            ref := hback
            held := by
              intro j hj
              rcases List.mem_cons.mp (h.held j hj) with rfl | hmem
              · exact absurd hj hL
              · exact hmem
            ready := by
              intro j hj
              show update s.valid i false j = true
              rw [Function.update_of_ne (by rintro rfl; exact hL hj)]
              exact h.ready j hj
            stay := by
              intro j hpos hset
              show update s.valid i false j = true
              have hle := Nat.le_add_right (s₀.ref j) (T.count j)
              unfold Kernel.refWith at href
              rw [Function.update_of_ne (by rintro rfl; omega)]
              exact h.stay j hpos hset
            loaded := by
              intro j hj hpos hset
              have hset : update s.valid i false j = true := hset
              have hpos : 0 < update s.ref i (s.ref i - 1) j := hpos
              by_cases hji : j = i
              · rw [hji, Function.update_self] at hset
                cases hset
              · rw [Function.update_of_ne hji] at hset hpos
                show update s.inode i _ j = _ ∧ _
                rw [Function.update_of_ne hji, (hgone.other j hj hji).1]
                exact h.loaded j hj hpos hset
            range := fun j hj => h.range j (List.mem_cons_of_mem i hj)
            tree := hgone.tree
            keeps := hgone.keeps hsb h.keeps }
  · have hkept : Kept sb s₀ d T i := by
      intro _ hlinks
      rw [← hnode] at hlinks
      by_contra hnone
      exact hlast ⟨hlinks, by omega⟩
    apply wp_iput h.toHolds hL hkept
    exact fun t ht => hQ d t (fun _ _ _ => rfl) ⟨ht, h.tree, h.keeps.drop hkept⟩

theorem wp_iunlockput_any (hsb : Small sb) (h : Valid sb s₀ d (i :: T) L s) (hi : i ∈ L)
    (hL : ∀ j, j ∈ L' ↔ j ∈ L ∧ j ≠ i) (hbfree : E .bfree)
    (hQ : ∀ d' t, (∀ j, j < sb.ninodes → j ≠ i → sb.load d' j = sb.load d j) →
      Valid sb s₀ d' T L' t → Q () t) : wp E (iunlockput sb i) Q s := by
  unfold iunlockput
  rw [wp_bind]
  apply wp_iunlock h.toHolds hi hL
  intro t hsame ht
  apply wp_iput_any hsb ⟨ht, h.tree, h.keeps⟩ (fun hmem => ((hL i).mp hmem).2 rfl) _ hbfree hQ
  rw [hsame]
  exact h.ready i hi

end OsWork.Ports.FsCalls

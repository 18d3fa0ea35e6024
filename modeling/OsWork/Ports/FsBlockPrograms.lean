import OsWork.Ports.FsBlockSteps
import Mathlib.Data.Set.Basic

/-!
# What the functions of `fs.c` do to the blocks

One lemma for every function: what it needs of the view of the process that runs it,
and what the view is when it returns.  The blocks that a transaction logs are counted
along: `Room C K n Z` says that there is room for `n` more, and that those in `K` are
reserved.
-/

namespace OsWork.Ports.FsThreads

open OsWork.Verified.Interleaving
open FsDirectories (FileType Dirent Name NOFILE ROOTINO elements)
open Function (update)

/-! ## Room in a transaction -/

/-- With `Z` logged, the blocks in `K` and `n` more can be logged. -/
def Room (C : Prop) (K : Set Nat) (n : Nat) (Z : Finset Nat) : Prop :=
  C → ∃ Y : Finset Nat, Z ⊆ Y ∧ (∀ b, b ∈ K → b ∈ Y) ∧ Y.card + n ≤ MAXOPBLOCKS

section Room

variable {C : Prop} {K K' : Set Nat} {n m b : Nat} {Z : Finset Nat} {c : Content}

theorem Room.log (h : Room C K n Z) (hb : b ∈ K) : Room C K n (insert b Z) := by
  intro hC
  obtain ⟨Y, hZ, hK, hcard⟩ := h hC
  refine ⟨Y, ?_, hK, hcard⟩
  intro x hx
  rcases Finset.mem_insert.mp hx with rfl | hx
  · exact hK x hb
  · exact hZ hx

theorem Room.card (h : Room C K n Z) (hC : C) : Z.card ≤ MAXOPBLOCKS := by
  obtain ⟨Y, hZ, -, hcard⟩ := h hC
  have hle := Finset.card_le_card hZ
  omega

theorem Room.reserve (b : Nat) (h : Room C K (n + 1) Z) : Room C (insert b K) n Z := by
  intro hC
  obtain ⟨Y, hZ, hK, hcard⟩ := h hC
  refine ⟨insert b Y, fun x hx => Finset.mem_insert_of_mem (hZ hx), ?_, ?_⟩
  · rintro x (rfl | hx)
    · exact Finset.mem_insert_self x Y
    · exact Finset.mem_insert_of_mem (hK x hx)
  · have hle := Finset.card_insert_le b Y
    omega

theorem Room.mono (h : Room C K n Z) (hK : ∀ b, b ∈ K' → b ∈ K) (hn : m ≤ n) :
    Room C K' m Z := by
  intro hC
  obtain ⟨Y, hZ, hY, hcard⟩ := h hC
  exact ⟨Y, hZ, fun b hb => hY b (hK b hb), by omega⟩

theorem Room.less (h : Room C K n Z) (hn : m ≤ n) : Room C K m Z :=
  h.mono (fun _ hb => hb) hn

/-- Room for `n` blocks more, and for the indirect block of the inode. -/
def RoomInd (C : Prop) (c : Content) (K : Set Nat) (n : Nat) (Z : Finset Nat) : Prop :=
  if c.addrs NDIRECT = 0 then Room C K (n + 1) Z else Room C (insert (c.addrs NDIRECT) K) n Z

theorem Room.ind (h : Room C K (n + 1) Z) : RoomInd C c K n Z := by
  unfold RoomInd
  split
  · exact h
  · exact h.reserve _

theorem RoomInd.room (h : RoomInd C c K n Z) : Room C K n Z := by
  unfold RoomInd at h
  split at h
  · exact h.less (Nat.le_succ n)
  · exact h.mono (fun _ hb => .inr hb) (Nat.le_refl n)

theorem RoomInd.mono (h : RoomInd C c K n Z)
    (hK : ∀ b, b ∈ K' → b ∈ K) : RoomInd C c K' n Z := by
  unfold RoomInd at h ⊢
  split at h
  · rename_i hind
    rw [if_pos hind]
    exact h.mono hK (Nat.le_refl _)
  · rename_i hind
    rw [if_neg hind]
    refine h.mono ?_ (Nat.le_refl _)
    rintro b (hb | hb)
    · exact .inl hb
    · exact .inr (hK b hb)

theorem RoomInd.log (h : RoomInd C c K n Z) (hb : b ∈ K) :
    RoomInd C c K n (insert b Z) := by
  unfold RoomInd at h ⊢
  split at h
  · rename_i hind
    rw [if_pos hind]
    exact h.log hb
  · rename_i hind
    rw [if_neg hind]
    exact h.log (.inr hb)

theorem RoomInd.reserve (b : Nat) (h : RoomInd C c K (n + 1) Z) :
    RoomInd C c (insert b K) n Z := by
  unfold RoomInd at h ⊢
  split at h
  · rename_i hind
    rw [if_pos hind]
    exact h.reserve b
  · rename_i hind
    rw [if_neg hind, Set.insert_comm]
    exact h.reserve b

end Room

/-! ## Programs -/

variable {P : Type} [Superblock] [DecidableEq P]

/-- What is asked of the actions: `ilock` reads no inode that the table does not have,
and, under `C`, no path walk frees an inode. -/
def BlockOk (C : Prop) (_p : P) (l : Label) (s : State P) : Prop :=
  match l with
  | .load i => i < Superblock.ninodes
  | .drop .walk i => C → s.lastRef i = false
  | _ => True

def blockViews (C : Prop) : Views P (State P) Label Panic View where
  inv := BlockInv C
  view p s := s.view p
  ok := BlockOk C
  admits e := e ≠ .freeingFreeBlock

/-- The process `p` with the view `v` runs `c`, and ends in `Q`. -/
abbrev Runs {α : Type} (C : Prop) (p : P) (c : Fs P α) (Q : α → View → Prop) (v : View) : Prop :=
  Safe (blockViews C) p c Q v

variable {C : Prop} {p : P} {v : View} {i k b n m : Nat} {c : Content} {K : Set Nat}
  {α : Type}

theorem runs_step {f : State P → State P} {Q : Unit → View → Prop}
    (h : ∀ s, BlockInv C s → s.view p = v → Keeps C p s (f s) ∧ Q () ((f s).view p)) :
    Runs C p (step f) Q v := by
  intro s hs hv _ t ht
  cases ht
  obtain ⟨hkeeps, hQ⟩ := h s hs hv
  exact ⟨hkeeps.inv, hkeeps.other, hQ⟩

theorem runs_same {f : State P → State P} {Q : Unit → View → Prop} (hf : ∀ s, Same s (f s))
    (hQ : Q () v) : Runs C p (step f) Q v := by
  apply runs_step
  intro s hs hv
  refine ⟨(hf s).keeps hs, ?_⟩
  rw [(hf s).view, hv]
  exact hQ

theorem runs_fetch {a : State P → α} {Q : α → View → Prop}
    (h : ∀ s, BlockInv C s → s.view p = v → Q (a s) v) : Runs C p (fetch a) Q v := by
  intro s hs hv _ t ht
  cases ht
  have hv : s.view p = v := hv
  refine ⟨hs, fun q _ => rfl, ?_⟩
  show Q (a s) (s.view p)
  rw [hv]
  exact h s hs hv

theorem runs_panic {e : Panic} {Q : α → View → Prop} (he : e ≠ .freeingFreeBlock) :
    Runs C p (panic e) Q v := he

theorem runs_pure {a : α} {Q : α → View → Prop} (h : Q a v) : Runs C p (pure a) Q v := h

/-! ## `balloc` and `bfree` -/

/-- The blocks of the bit map. -/
def Bitmap (K : Set Nat) : Prop := ∀ b, b < Superblock.size → BBLOCK b ∈ K

omit [Superblock] [DecidableEq P] in
theorem State.firstFree_some {s : State P} {b' : Nat} :
    ∀ {n b : Nat}, s.firstFree b n = some b' → s.used b' = false ∧ b ≤ b' ∧ b' < b + n := by
  intro n
  induction n with
  | zero =>
      intro b h
      cases h
  | succ n ih =>
      intro b h
      unfold State.firstFree at h
      split at h
      · obtain ⟨hused, hle, hlt⟩ := ih h
        exact ⟨hused, by omega, by omega⟩
      · rename_i hused
        cases h
        exact ⟨by simpa using hused, by omega, by omega⟩

theorem runs_bzero {w : Nat → Nat} {Q : Unit → View → Prop} (hhand : v.hand = some (b, w))
    (hb : b ∈ K) (hroom : Room C K n v.logged)
    (hQ : Room C K n (insert b v.logged) →
      Q () { v with hand := some (b, fun _ => 0), logged := insert b v.logged }) :
    Runs C p (bzero p b) Q v := by
  apply runs_step
  intro s hs hv
  have hroom' := hroom.log hb
  rw [← hv] at hhand hroom'
  obtain ⟨hkeeps, hview⟩ := hs.zero hhand fun hC => hroom'.card hC
  refine ⟨hkeeps, ?_⟩
  rw [hview, hv]
  rw [hv] at hroom'
  exact hQ hroom'

theorem runs_ballocFrom {Q : Nat → View → Prop} (hhand : v.hand = none) (hmap : Bitmap K)
    (hroom : Room C K (n + 1) v.logged)
    (hQ : ∀ b Z, b ≠ 0 → Room C (insert b K) n Z →
      Q b { v with hand := some (b, fun _ => 0), logged := Z }) :
    ∀ (r b₀ : Nat), Runs C p (ballocFrom p b₀ r) Q v := by
  intro r
  induction r with
  | zero =>
      intro b₀
      exact runs_panic (by decide)
  | succ r ih =>
      intro b₀ s hs hv _ t ht
      have hv : s.view p = v := hv
      cases hfirst : s.firstFree b₀ (min BPB (Superblock.size - b₀)) with
      | none =>
          simp only [hfirst, Option.some.injEq] at ht ⊢
          subst ht
          refine ⟨hs, fun q _ => rfl, ?_⟩
          show Runs C p (ballocFrom p (b₀ + BPB) r) Q (s.view p)
          rw [hv]
          exact ih _
      | some b =>
          simp only [hfirst, Option.some.injEq] at ht ⊢
          subst ht
          obtain ⟨hfree, hle, hlt⟩ := State.firstFree_some hfirst
          have hmin := Nat.min_le_right BPB (Superblock.size - b₀)
          have hsize : b < Superblock.size := by omega
          have hroom' := hroom.log (hmap b hsize)
          rw [← hv] at hhand hroom'
          obtain ⟨hkeeps, hdata, hview⟩ := hs.mark hhand hsize hfree fun hC => hroom'.card hC
          refine ⟨hkeeps.inv, hkeeps.other, ?_⟩
          show Runs C p (bzero p b >>= fun _ => pure b) Q ((s.mark p b).view p)
          rw [hview, hv]
          rw [hv] at hroom'
          apply Safe.bind
          apply runs_bzero rfl (K := insert b K) (.inl rfl) (hroom'.reserve b)
          intro hroom''
          have hne : b ≠ 0 := Nat.ne_of_gt (Nat.lt_of_lt_of_le hs.start hdata.1)
          exact hQ b _ hne hroom''

theorem runs_balloc {Q : Nat → View → Prop} (hhand : v.hand = none) (hmap : Bitmap K)
    (hroom : Room C K (n + 1) v.logged)
    (hQ : ∀ b Z, b ≠ 0 → Room C (insert b K) n Z →
      Q b { v with hand := some (b, fun _ => 0), logged := Z }) :
    Runs C p (balloc p) Q v :=
  runs_ballocFrom hhand hmap hroom hQ _ _

/-- `bfree` never panics. -/
theorem runs_bfree {Q : Unit → View → Prop} (hi : v.held i = some c) (hhas : c.Has k b)
    (hlast : k = MAXFILE → ∀ l, ¬ l < NDIRECT → l < MAXFILE → c.gone l = true ∨ c.slot l = 0)
    (hsize : b < Superblock.size) (hmap : Bitmap K) (hroom : Room C K n v.logged)
    (hQ : Room C K n (insert (BBLOCK b) v.logged) →
      Q () { v.hold i (c.unmark k) with logged := insert (BBLOCK b) v.logged }) :
    Runs C p (bfree p i k b) Q v := by
  intro s hs hv _ t ht
  cases ht
  have hv : s.view p = v := hv
  have hroom' := hroom.log (hmap b hsize)
  rw [← hv] at hi hroom'
  obtain ⟨hused, hkeeps, hview⟩ := hs.unmark hi hhas hlast fun hC => hroom'.card hC
  rw [if_pos hused]
  refine ⟨hkeeps.inv, hkeeps.other, ?_⟩
  show Runs C p (if s.used b then pure () else panic .freeingFreeBlock) Q
    ((s.unmark p i k b).view p)
  rw [if_pos hused, hview, hv]
  rw [hv] at hroom'
  exact hQ hroom'

/-! ## `bmap` -/

theorem runs_bmapAddr {Q : Nat → View → Prop} (hi : v.held i = some c) (hhand : v.hand = none)
    (hk : k ≤ NDIRECT) (hempty : c.addrs k = 0) (hgone : c.gone (Content.index k) = false)
    (hmap : Bitmap K) (hroom : Room C K (n + 1) v.logged)
    (hQ : ∀ b Z, b ≠ 0 → Room C (insert b K) n Z →
      Q b { v.hold i (c.setAddr k b) with logged := Z }) :
    Runs C p (bmapAddr p i k) Q v := by
  apply Safe.bind
  apply runs_balloc hhand hmap hroom
  intro b Z hb hroom'
  apply Safe.bind
  apply runs_step
  intro s hs hv
  have hi' : (s.view p).held i = some c := by
    rw [hv]
    exact hi
  have hhand' : (s.view p).hand = some (b, fun _ => 0) := by rw [hv]
  obtain ⟨hkeeps, hview⟩ := hs.setAddr hi' hhand' hk hempty hgone
  refine ⟨hkeeps, ?_⟩
  rw [hview, hv]
  show Q b { v.hold i (c.setAddr k b) with hand := none, logged := Z }
  rw [← hhand]
  exact hQ b Z hb hroom'

theorem runs_bmapWord {Q : Nat → View → Prop} (hi : v.held i = some c) (hhand : v.hand = none)
    (hk : k < NINDIRECT) (hind : c.addrs NDIRECT ≠ 0) (hlive : c.gone MAXFILE = false)
    (hempty : c.word k = 0) (hgone : c.gone (NDIRECT + k) = false) (hmap : Bitmap K)
    (hmem : c.addrs NDIRECT ∈ K) (hroom : Room C K (n + 1) v.logged)
    (hQ : ∀ b Z, b ≠ 0 → Room C (insert b K) n Z →
      Q b { v.hold i (c.setWord k b) with logged := Z }) :
    Runs C p (bmapWord p (c.addrs NDIRECT) k) Q v := by
  apply Safe.bind
  apply runs_balloc hhand hmap hroom
  intro b Z hb hroom'
  apply Safe.bind
  apply runs_step
  intro s hs hv
  have hi' : (s.view p).held i = some c := by
    rw [hv]
    exact hi
  have hhand' : (s.view p).hand = some (b, fun _ => 0) := by rw [hv]
  have hroom'' := hroom'.log (.inr hmem)
  have hlogged : s.logged p = Z := congrArg View.logged hv
  obtain ⟨hkeeps, hview⟩ := hs.setWord hi' hhand' hk hind hlive hempty hgone fun hC => by
    rw [hlogged]
    exact hroom''.card hC
  refine ⟨hkeeps, ?_⟩
  rw [hview, hv]
  show Q b { v.hold i (c.setWord k b) with hand := none, logged := insert (c.addrs NDIRECT) Z }
  rw [← hhand]
  exact hQ b _ hb hroom''

omit [Superblock] in
/-- The addresses and words that a process reads are those of its view. -/
theorem addrs_of_held {s : State P} (hv : s.view p = v) (hi : v.held i = some c) :
    (s.inode i).addrs = c.addrs := by
  rw [← hv] at hi
  obtain ⟨-, rfl⟩ := State.held_iff.mp hi
  rfl

omit [Superblock] in
theorem words_of_held {s : State P} (hv : s.view p = v) (hi : v.held i = some c)
    (hind : c.addrs NDIRECT ≠ 0) (hlive : c.gone MAXFILE = false) :
    s.words (c.addrs NDIRECT) = c.word := by
  rw [← hv] at hi
  obtain ⟨-, rfl⟩ := State.held_iff.mp hi
  exact (State.content_word hind hlive).symm

/-- `bmap` of a block that the inode has. -/
theorem runs_bmap_present {Q : Nat → View → Prop} (hi : v.held i = some c)
    (hblocks : c.Blocks m) (hk : k < m) (hQ : Q (c.slot k) v) : Runs C p (bmap p i k) Q v := by
  have hlimits := limits
  have hle := hblocks.le
  have hne : c.slot k ≠ 0 := (hblocks.data k (by omega)).mpr hk
  unfold bmap
  by_cases hdirect : k < NDIRECT
  · rw [if_pos hdirect]
    apply Safe.bind
    apply runs_fetch
    intro s _ hv
    rw [addrs_of_held hv hi, ← Content.slot_direct hdirect, if_neg hne]
    exact hQ
  · have hind : c.addrs NDIRECT ≠ 0 := hblocks.indirect.mpr (by omega)
    rw [if_neg hdirect, if_pos (by omega)]
    apply Safe.bind
    apply runs_fetch
    intro s _ hv
    rw [addrs_of_held hv hi, if_neg hind]
    apply Safe.bind
    apply runs_pure
    apply Safe.bind
    apply runs_fetch
    intro s _ hv
    rw [words_of_held hv hi hind (hblocks.gone _),
      ← Content.slot_word hdirect (by omega), if_neg hne]
    exact hQ

omit [Superblock] [DecidableEq P] in
theorem View.hold_hold {c' : Content} {Z Z' : Finset Nat} :
    { View.hold { v.hold i c with logged := Z } i c' with logged := Z' } =
      { v.hold i c' with logged := Z' } := by
  unfold View.hold
  simp only [Function.update_idem]

/-- `bmap` of the first block that the inode has not, when it has an indirect block. -/
theorem runs_bmapInd {Q : Nat → View → Prop} (hi : v.held i = some c) (hhand : v.hand = none)
    (hgone : ∀ k, c.gone k = false) (hdata : ∀ k, k < MAXFILE → (c.slot k ≠ 0 ↔ k < m))
    (hind : c.addrs NDIRECT ≠ 0) (hle : NDIRECT ≤ m) (hm : m < MAXFILE) (hmap : Bitmap K)
    (hroom : Room C (insert (c.addrs NDIRECT) K) (n + 1) v.logged)
    (hQ : ∀ b c' Z, c'.type = c.type → c'.size = c.size → c'.Blocks (m + 1) → c'.slot m = b →
      RoomInd C c' (insert b K) n Z → Q b { v.hold i c' with logged := Z }) :
    Runs C p
      (do
        let addr ← fetch fun s => s.words (c.addrs NDIRECT) (m - NDIRECT)
        if addr = 0 then bmapWord p (c.addrs NDIRECT) (m - NDIRECT) else pure addr) Q v := by
  have hlimits := limits
  have hempty : c.word (m - NDIRECT) = 0 := by
    rw [← Content.slot_word (by omega) hm]
    by_contra hne
    exact Nat.lt_irrefl m ((hdata m hm).mp hne)
  apply Safe.bind
  apply runs_fetch
  intro s _ hv
  rw [words_of_held hv hi hind (hgone _), if_pos hempty]
  apply runs_bmapWord hi hhand (by omega) hind (hgone _) hempty (hgone _)
    (fun b hb => .inr (hmap b hb)) (.inl rfl) hroom
  intro b Z hb hroom'
  refine hQ b _ Z rfl rfl (Content.blocks_setWord hgone hdata hind hle hm hb) ?_ ?_
  · rw [Content.slot_setWord (by omega) (Nat.le_of_lt hm), if_pos (by omega)]
  · have hind' : (c.setWord (m - NDIRECT) b).addrs NDIRECT ≠ 0 := hind
    unfold RoomInd
    rw [if_neg hind', Set.insert_comm]
    exact hroom'

/-- `bmap` of the first block that the inode has not. -/
theorem runs_bmap_absent {Q : Nat → View → Prop} (hi : v.held i = some c) (hhand : v.hand = none)
    (hblocks : c.Blocks m) (hm : m < MAXFILE) (hmap : Bitmap K)
    (hroom : RoomInd C c K (n + 1) v.logged)
    (hQ : ∀ b c' Z, c'.type = c.type → c'.size = c.size → c'.Blocks (m + 1) → c'.slot m = b →
      RoomInd C c' (insert b K) n Z → Q b { v.hold i c' with logged := Z }) :
    Runs C p (bmap p i m) Q v := by
  have hlimits := limits
  have hzero : c.slot m = 0 := hblocks.slot_zero (Nat.le_refl m) hm
  unfold bmap
  by_cases hdirect : m < NDIRECT
  · have hempty : c.addrs m = 0 := by
      rw [← Content.slot_direct hdirect]
      exact hzero
    have hind : c.addrs NDIRECT = 0 := by
      by_contra hne
      have hlt := hblocks.indirect.mp hne
      omega
    rw [if_pos hdirect]
    apply Safe.bind
    apply runs_fetch
    intro s _ hv
    rw [addrs_of_held hv hi, if_pos hempty]
    unfold RoomInd at hroom
    rw [if_pos hind] at hroom
    apply runs_bmapAddr hi hhand (Nat.le_of_lt hdirect) hempty (hblocks.gone _) hmap hroom
    intro b Z hb hroom'
    refine hQ b _ Z rfl rfl (hblocks.setAddr hdirect hb) ?_ hroom'.ind
    rw [Content.slot_setAddr (Nat.le_of_lt hdirect) (Nat.le_of_lt hm),
      Content.index_direct hdirect, if_pos rfl]
  · rw [if_neg hdirect, if_pos (by omega)]
    apply Safe.bind
    apply runs_fetch
    intro s _ hv
    rw [addrs_of_held hv hi]
    unfold RoomInd at hroom
    by_cases hind : c.addrs NDIRECT = 0
    · have hlast : m = NDIRECT := by
        by_contra hne
        exact hblocks.indirect.mpr (by omega) hind
      subst hlast
      rw [if_pos hind] at hroom ⊢
      apply Safe.bind
      apply runs_bmapAddr hi hhand (Nat.le_refl _) hind (hblocks.gone _) hmap hroom
      intro ind Z hne hroom'
      have haddr : (c.setAddr NDIRECT ind).addrs NDIRECT = ind := by
        show update c.addrs NDIRECT ind NDIRECT = ind
        rw [Function.update_self]
      have hstep := runs_bmapInd (C := C) (p := p) (K := K) (n := n) (Q := Q)
        (v := { v.hold i (c.setAddr NDIRECT ind) with logged := Z })
        (Function.update_self _ _ _) hhand hblocks.gone (fun k hk => hblocks.data_setAddr hk)
        (by rw [haddr]; exact hne) (Nat.le_refl _) hm hmap (by rw [haddr]; exact hroom')
        (by
          intro b c' Z' htype hsize hblocks' hslot hroom''
          rw [View.hold_hold]
          exact hQ b c' Z' htype hsize hblocks' hslot hroom'')
      rw [haddr] at hstep
      exact hstep
    · rw [if_neg hind] at hroom ⊢
      apply Safe.bind
      apply runs_pure
      exact runs_bmapInd hi hhand hblocks.gone hblocks.data hind (by omega) hm hmap hroom hQ

end OsWork.Ports.FsThreads

import OsWork.Ports.FsBlockOwners

/-!
# What the actions of `fs.c` do to the blocks

One lemma for every change of the state in `FsThreads` that the blocks see: the
invariant is kept, no other process notices (`Keeps`), and what the view of the
process itself becomes.
-/

namespace OsWork.Ports.FsThreads

open OsWork.Verified.Interleaving
open OsWork.Verified.Ownership (Exact)
open FsDirectories (FileType Dirent)
open Function (update)

variable {P : Type} [Superblock] [DecidableEq P] {C : Prop} {s t : State P} {p q : P}
  {i k b : Nat} {c : Content} {v : View}

/-! ## Locks -/

namespace View

def lock (v : View) (i : Nat) : View := { v with locks := fun j => j = i ∨ v.locks j }

def unlock (v : View) (i : Nat) : View :=
  { v with locks := fun j => j ≠ i ∧ v.locks j, held := update v.held i none }

/-- The process works on an inode with these contents. -/
def hold (v : View) (i : Nat) (c : Content) : View := { v with held := update v.held i (some c) }

end View

theorem BlockInv.lock (hs : BlockInv C s) (hfree : s.locked i = none) :
    Keeps C p s (s.lock p i) ∧ (s.lock p i).view p = (s.view p).lock i ∧
      (s.view p).held i = none := by
  have hbusy : ∀ q, s.busy i ≠ some q := by
    intro q hq
    have hlocked := (hs.busy i q hq).1
    rw [hfree] at hlocked
    cases hlocked
  refine ⟨⟨?_, ?_⟩, ?_, ?_⟩
  · exact
      { exact := hs.exact.congr (fun _ => Iff.rfl) fun x _ => by cases x <;> exact Iff.rfl
        low := hs.low
        start := hs.start
        busy := by
          intro j q hq
          obtain ⟨hlocked, htype, hj⟩ := hs.busy j q hq
          refine ⟨?_, htype, hj⟩
          have hne : j ≠ i := by
            intro heq
            rw [heq] at hq
            exact hbusy q hq
          exact (Function.update_of_ne hne _ _).trans hlocked
        valid := hs.valid
        tidy := hs.tidy
        logged := hs.logged }
  · intro q hq
    apply State.view_eq
    · intro j
      by_cases hj : j = i
      · rw [hj]
        show update s.locked i (some p) i = some q ↔ _
        rw [Function.update_self, hfree]
        exact ⟨fun h => absurd (Option.some.inj h).symm hq, fun h => (nomatch h)⟩
      · show update s.locked i (some p) j = some q ↔ _
        rw [Function.update_of_ne hj]
    · intro j
      exact Iff.rfl
    · intro j _
      rfl
    · rfl
    · intro b _
      rfl
    · rfl
  · unfold State.view View.lock
    congr 1
    funext j
    show (update s.locked i (some p) j = some p) = _
    by_cases hj : j = i
    · rw [hj, Function.update_self]
      exact propext ⟨fun _ => .inl rfl, fun _ => rfl⟩
    · rw [Function.update_of_ne hj]
      exact propext ⟨.inr, fun h => h.resolve_left hj⟩
  · exact if_neg (hbusy p)

theorem BlockInv.unlock (hs : BlockInv C s) (hlocked : s.locked i = some p)
    (htidy : ∀ c, (s.view p).held i = some c → c.Tidy) :
    Keeps C p s (s.unlock i) ∧ (s.unlock i).view p = (s.view p).unlock i := by
  have hother : ∀ q, q ≠ p → s.busy i ≠ some q := by
    intro q hq hbusy
    have hq' := (hs.busy i q hbusy).1
    rw [hlocked] at hq'
    exact hq (Option.some.inj hq').symm
  refine ⟨⟨?_, ?_⟩, ?_⟩
  · exact
      { exact := hs.exact.congr (fun _ => Iff.rfl) fun x _ => by cases x <;> exact Iff.rfl
        low := hs.low
        start := hs.start
        busy := by
          intro j q hq
          have hj : j ≠ i := by
            intro heq
            have hq : update s.busy i none j = some q := hq
            rw [heq, Function.update_self] at hq
            cases hq
          have hbusy : s.busy j = some q := (Function.update_of_ne hj _ _).symm.trans hq
          obtain ⟨hl, htype, hlt⟩ := hs.busy j q hbusy
          exact ⟨(Function.update_of_ne hj _ _).trans hl, htype, hlt⟩
        valid := hs.valid
        tidy := by
          intro j hj
          show (s.content j).Tidy
          by_cases heq : j = i
          · rw [heq]
            cases hbusy : s.busy i with
            | none => exact hs.tidy i hbusy
            | some q =>
                have hq : q = p := by
                  by_contra hne
                  exact hother q hne hbusy
                rw [hq] at hbusy
                exact htidy _ (State.held_iff.mpr ⟨hbusy, rfl⟩)
          · exact hs.tidy j ((Function.update_of_ne heq _ _).symm.trans hj)
        logged := hs.logged }
  · intro q hq
    apply State.view_eq
    · intro j
      show update s.locked i none j = some q ↔ _
      by_cases hj : j = i
      · rw [hj, Function.update_self, hlocked]
        exact ⟨fun h => (nomatch h), fun h => absurd (Option.some.inj h).symm hq⟩
      · rw [Function.update_of_ne hj]
    · intro j
      show update s.busy i none j = some q ↔ _
      by_cases hj : j = i
      · rw [hj, Function.update_self]
        exact ⟨fun h => (nomatch h), fun h => absurd h (hother q hq)⟩
      · rw [Function.update_of_ne hj]
    · intro j _
      rfl
    · rfl
    · intro b _
      rfl
    · rfl
  · unfold State.view View.unlock
    congr 1
    · funext j
      show (update s.locked i none j = some p) = _
      by_cases hj : j = i
      · rw [hj, Function.update_self]
        exact propext ⟨fun h => (nomatch h), fun h => absurd rfl h.1⟩
      · rw [Function.update_of_ne hj]
        exact propext ⟨fun h => ⟨hj, h⟩, And.right⟩
    · funext j
      show (if update s.busy i none j = some p then some (s.content j) else none) =
        update (s.view p).held i none j
      by_cases hj : j = i
      · rw [hj, Function.update_self, Function.update_self]
        exact if_neg fun h => (nomatch h)
      · rw [Function.update_of_ne hj, Function.update_of_ne hj]
        rfl

/-! ## Reading an inode -/

omit [DecidableEq P] in
theorem State.toLoad_ok {ip : Inode} (hs : BlockInv C s) (hi : i < Superblock.ninodes)
    (h : s.toLoad i = .ok ip) : ip = s.inode i ∧ ip.type ≠ .free := by
  unfold State.toLoad at h
  split at h
  · rename_i hvalid
    cases h
    exact ⟨rfl, (hs.valid i hvalid).1⟩
  · split at h
    · cases h
    · have hdinode : s.dinode i = some (s.inode i) := if_pos hi
      rw [hdinode] at h
      simp only at h
      split at h
      · cases h
      · rename_i htype
        cases h
        exact ⟨rfl, htype⟩

/-- A process that has the lock of an inode begins to work on it. -/
theorem BlockInv.take (hs : BlockInv C s) (hlocked : s.locked i = some p)
    (hheld : (s.view p).held i = none) (htype : (s.inode i).type ≠ .free)
    (hi : i < Superblock.ninodes) (hinode : t.inode = s.inode) (hwords : t.words = s.words)
    (hused : t.used = s.used) (hgone : t.gone = s.gone) (hlocks : t.locked = s.locked)
    (hbusy : t.busy = update s.busy i (some p)) (hhand : t.hand = s.hand)
    (hlogged : t.logged = s.logged)
    (hvalid : ∀ j, t.valid j = true → j = i ∨ s.valid j = true) :
    Keeps C p s t ∧ t.view p = (s.view p).hold i (s.content i) ∧ (s.content i).Tidy := by
  have hnone := hs.busy_of_held hheld hlocked
  have hcontent : ∀ j, t.content j = s.content j := by
    intro j
    unfold State.content
    rw [hinode, hwords, hgone]
  refine ⟨⟨?_, ?_⟩, ?_, hs.tidy i hnone⟩
  · exact
      { exact := by
          apply hs.exact.congr
          · intro b
            unfold State.InUse
            rw [hused]
          · intro x b
            cases x with
            | slot j k =>
                show (t.content j).Has k b ↔ _
                rw [hcontent]
                exact Iff.rfl
            | hand q =>
                show t.hand q = some b ↔ _
                rw [hhand]
                exact Iff.rfl
        low := by
          rw [hused]
          exact hs.low
        start := hs.start
        busy := by
          intro j q hq
          rw [hbusy] at hq
          rw [hlocks, hinode]
          by_cases hj : j = i
          · rw [hj, Function.update_self] at hq
            rw [hj]
            exact ⟨hlocked.trans hq, htype, hi⟩
          · rw [Function.update_of_ne hj] at hq
            exact hs.busy j q hq
        valid := by
          intro j hj
          rw [hinode]
          rcases hvalid j hj with rfl | hj
          · exact ⟨htype, hi⟩
          · exact hs.valid j hj
        tidy := by
          intro j hj
          rw [hbusy] at hj
          rw [hcontent]
          apply hs.tidy j
          by_cases heq : j = i
          · rw [heq]
            exact hnone
          · rw [Function.update_of_ne heq] at hj
            exact hj
        logged := by
          rw [hlogged]
          exact hs.logged }
  · intro q hq
    apply State.view_eq
    · intro j
      rw [hlocks]
    · intro j
      rw [hbusy]
      by_cases hj : j = i
      · rw [hj, Function.update_self, hnone]
        exact ⟨fun h => absurd (Option.some.inj h).symm hq, fun h => (nomatch h)⟩
      · rw [Function.update_of_ne hj]
    · intro j _
      exact hcontent j
    · rw [hhand]
    · intro b _
      rw [hwords]
    · rw [hlogged]
  · unfold State.view View.hold
    rw [hlocks, hhand, hwords, hlogged]
    congr 1
    funext j
    show (if t.busy j = some p then some (t.content j) else none) =
      update (s.view p).held i (some (s.content i)) j
    rw [hbusy, hcontent]
    by_cases hj : j = i
    · rw [hj, Function.update_self, Function.update_self, if_pos rfl]
    · rw [Function.update_of_ne hj, Function.update_of_ne hj]
      rfl

theorem BlockInv.load (hs : BlockInv C s) (hlocked : (s.view p).locks i)
    (hheld : (s.view p).held i = none) (hi : i < Superblock.ninodes) {ip : Inode}
    (hload : s.toLoad i = .ok ip) :
    Keeps C p s (s.load p i ip) ∧
      (s.load p i ip).view p = (s.view p).hold i (s.content i) ∧ (s.content i).Tidy ∧
      (s.content i).type ≠ .free := by
  obtain ⟨rfl, htype⟩ := State.toLoad_ok hs hi hload
  have hinode : (s.load p i (s.inode i)).inode = s.inode := Function.update_eq_self i s.inode
  obtain ⟨hkeeps, hview, htidy⟩ := hs.take hlocked hheld htype hi hinode rfl rfl rfl rfl rfl rfl rfl
    (t := s.load p i (s.inode i)) (by
      intro j hj
      by_cases heq : j = i
      · exact .inl heq
      · right
        have hj : update s.valid i true j = true := hj
        rw [Function.update_of_ne heq] at hj
        exact hj)
  exact ⟨hkeeps, hview, htidy, htype⟩

/-- `iput` finds that it is to free the inode. -/
theorem BlockInv.pick (hs : BlockInv C s) (hlocked : (s.view p).locks i)
    (hheld : (s.view p).held i = none) (hlast : s.lastRef i = true) :
    Keeps C p s { s with busy := update s.busy i (some p) } ∧
      State.view p { s with busy := update s.busy i (some p) } =
        (s.view p).hold i (s.content i) ∧
      (s.content i).Tidy := by
  unfold State.lastRef at hlast
  simp only [Bool.and_eq_true] at hlast
  obtain ⟨htype, hi⟩ := hs.valid i hlast.1.1
  exact hs.take hlocked hheld htype hi rfl rfl rfl rfl rfl rfl rfl rfl fun j hj => .inr hj

/-! ## Blocks in the hand -/

omit [Superblock] in
/-- The view of a process after work on other things than inodes. -/
theorem State.view_stay (hlocked : t.locked = s.locked) (hbusy : t.busy = s.busy)
    (hcontent : ∀ j, t.content j = s.content j) :
    t.view p = { s.view p with hand := (t.view p).hand, logged := t.logged p } := by
  unfold State.view
  rw [hlocked, hbusy]
  congr 1
  funext j
  rw [hcontent]

omit [Superblock] in
/-- The view of a process after work on an inode. -/
theorem State.view_hold (hlocked : t.locked = s.locked) (hbusy : t.busy = s.busy)
    (hi : s.busy i = some p) (hcontent : ∀ j, j ≠ i → t.content j = s.content j) :
    t.view p =
      { (s.view p).hold i (t.content i) with
        hand := (t.view p).hand, logged := t.logged p } := by
  unfold State.view View.hold
  rw [hlocked, hbusy]
  congr 1
  funext j
  show (if s.busy j = some p then some (t.content j) else none) =
    update (s.view p).held i (some (t.content i)) j
  by_cases hj : j = i
  · rw [hj, Function.update_self, if_pos hi]
  · rw [Function.update_of_ne hj, hcontent j hj]
    rfl

theorem BlockInv.mark (hs : BlockInv C s) (hhand : (s.view p).hand = none)
    (hb : b < Superblock.size) (hfree : s.used b = false)
    (hroom : C → (insert (BBLOCK b) (s.logged p)).card ≤ MAXOPBLOCKS) :
    Keeps C p s (s.mark p b) ∧ IsData b ∧
      (s.mark p b).view p =
        { s.view p with
          hand := some (b, s.words b)
          logged := insert (BBLOCK b) (s.view p).logged } := by
  have hnone : s.hand p = none := by
    cases hp : s.hand p with
    | none => rfl
    | some b' =>
        have hhand' := (State.hand_iff (s := s)).mpr ⟨hp, rfl⟩
        rw [hhand] at hhand'
        cases hhand'
  have hdata : IsData b := by
    refine ⟨?_, hb⟩
    by_contra hlow
    have hused := hs.low b (Nat.lt_of_not_le hlow)
    rw [hfree] at hused
    cases hused
  have hcontent : ∀ j, (s.mark p b).content j = s.content j := fun j => rfl
  have hlogged : (s.mark p b).logged p = insert (BBLOCK b) (s.logged p) :=
    Function.update_self _ _ _
  have hwork : Work p s (s.mark p b) :=
    { locked := rfl
      busy := rfl
      valid := rfl
      type := fun _ h => h
      content := fun j _ => hcontent j
      low := by
        intro r hr
        apply Function.update_of_ne
        intro heq
        rw [heq] at hr
        exact Nat.not_le_of_lt hr hdata.1
      hand := fun q hq => Function.update_of_ne hq _ _
      words := fun q r _ _ => rfl
      logged := fun q hq => Function.update_of_ne hq _ _ }
  refine ⟨?_, hdata, ?_⟩
  · apply hwork.keeps hs
    · apply hs.exact.take (.hand p) b
      · intro huse
        rw [huse.2] at hfree
        cases hfree
      · intro r
        show IsData r ∧ update s.used b true r = true ↔ IsData r ∧ s.used r = true ∨ r = b
        by_cases hr : r = b
        · rw [hr, Function.update_self]
          exact ⟨fun _ => .inr rfl, fun _ => ⟨hdata, rfl⟩⟩
        · rw [Function.update_of_ne hr]
          exact ⟨.inl, fun h => h.resolve_right hr⟩
      · intro x r
        cases x with
        | slot j k => exact ⟨.inl, fun h => h.resolve_right fun hx => nomatch hx.1⟩
        | hand q =>
            show update s.hand p (some b) q = some r ↔ s.hand q = some r ∨ Place.hand q = .hand p ∧ r = b
            by_cases hq : q = p
            · rw [hq, Function.update_self, hnone]
              constructor
              · intro h
                exact .inr ⟨rfl, (Option.some.inj h).symm⟩
              · rintro (h | ⟨-, h⟩)
                · cases h
                · rw [h]
            · rw [Function.update_of_ne hq]
              exact ⟨.inl, fun h => h.resolve_right fun hx => hq (Place.hand.inj hx.1)⟩
    · intro hC
      rw [hlogged]
      exact hroom hC
  · have hhand' : ((s.mark p b).view p).hand = some (b, s.words b) := by
      show (update s.hand p (some b) p).map (fun r => (r, s.words r)) = _
      rw [Function.update_self, Option.map_some]
    rw [State.view_stay (s := s) (t := s.mark p b) rfl rfl hcontent, hlogged, hhand']
    rfl

theorem BlockInv.zero {w : Nat → Nat} (hs : BlockInv C s) (hhand : (s.view p).hand = some (b, w))
    (hroom : C → (insert b (s.logged p)).card ≤ MAXOPBLOCKS) :
    Keeps C p s (s.zero p b) ∧
      (s.zero p b).view p =
        { s.view p with
          hand := some (b, fun _ => 0)
          logged := insert b (s.view p).logged } := by
  have hp : s.Holds (.hand p) b := (State.hand_iff.mp hhand).1
  have hcontent : ∀ j, (s.zero p b).content j = s.content j := by
    intro j
    exact hs.content_of_words hp (fun h => nomatch h) (fun r hr => Function.update_of_ne hr _ _)
      ⟨rfl, rfl, rfl⟩ rfl
  have hlogged : (s.zero p b).logged p = insert b (s.logged p) := Function.update_self _ _ _
  have hwork : Work p s (s.zero p b) :=
    { locked := rfl
      busy := rfl
      valid := rfl
      type := fun _ h => h
      content := fun j _ => hcontent j
      low := fun _ _ => rfl
      hand := fun _ _ => rfl
      words := by
        intro q r hq hr
        apply Function.update_of_ne
        exact hs.ne_of_holds (x := .hand q) hr hp fun h => hq (Place.hand.inj h)
      logged := fun q hq => Function.update_of_ne hq _ _ }
  constructor
  · apply hwork.keeps hs
    · apply hs.exact.congr fun _ => Iff.rfl
      intro x r
      cases x with
      | slot j k =>
          show ((s.zero p b).content j).Has k r ↔ _
          rw [hcontent]
          exact Iff.rfl
      | hand q => exact Iff.rfl
    · intro hC
      rw [hlogged]
      exact hroom hC
  · have hhand' : ((s.zero p b).view p).hand = some (b, fun _ => 0) := by
      show (s.hand p).map (fun r => (r, update s.words b (fun _ => 0) r)) = _
      have hp : s.hand p = some b := hp
      rw [hp, Option.map_some, Function.update_self]
    rw [State.view_stay (s := s) (t := s.zero p b) rfl rfl hcontent, hlogged, hhand']
    rfl

/-! ## Blocks in slots -/

/-- The block in the hand of `p` goes to the slot `k` of the inode `i`. -/
theorem BlockInv.attach (hs : BlockInv C s) (hp : s.hand p = some b)
    (hhand : t.hand = update s.hand p none) (hused : t.used = s.used)
    (hcontent : ∀ j, j ≠ i → t.content j = s.content j)
    (hhas : ∀ j r, (t.content i).Has j r ↔ (s.content i).Has j r ∨ j = k ∧ r = b) :
    Exact t.InUse t.Holds := by
  apply hs.exact.move (.hand p) (.slot i k)
  · intro r
    unfold State.InUse
    rw [hused]
  · intro x r
    have hpr : s.hand p = some r ↔ r = b := by
      rw [hp, Option.some.injEq]
      exact eq_comm
    cases x with
    | slot j l =>
        show (t.content j).Has l r ↔
          Place.slot j l ≠ .hand p ∧ (s.content j).Has l r ∨
            Place.slot j l = .slot i k ∧ s.hand p = some r
        rw [hpr]
        by_cases hj : j = i
        · rw [hj, hhas]
          constructor
          · rintro (h | ⟨hl, hr⟩)
            · exact .inl ⟨fun heq => (nomatch heq), h⟩
            · exact .inr ⟨by rw [hl], hr⟩
          · rintro (⟨-, h⟩ | ⟨heq, hr⟩)
            · exact .inl h
            · cases heq
              exact .inr ⟨rfl, hr⟩
        · rw [hcontent j hj]
          constructor
          · intro h
            exact .inl ⟨fun heq => (nomatch heq), h⟩
          · rintro (⟨-, h⟩ | ⟨heq, -⟩)
            · exact h
            · cases heq
              exact absurd rfl hj
    | hand q =>
        show t.hand q = some r ↔
          Place.hand q ≠ .hand p ∧ s.hand q = some r ∨
            Place.hand q = .slot i k ∧ s.hand p = some r
        rw [hhand]
        by_cases hq : q = p
        · rw [hq, Function.update_self]
          constructor
          · intro h
            cases h
          · rintro (⟨hne, -⟩ | ⟨heq, -⟩)
            · exact absurd rfl hne
            · cases heq
        · rw [Function.update_of_ne hq]
          constructor
          · intro h
            exact .inl ⟨fun heq => hq (Place.hand.inj heq), h⟩
          · rintro (⟨-, h⟩ | ⟨heq, -⟩)
            · exact h
            · cases heq

omit [DecidableEq P] in
theorem BlockInv.data_ne_zero (hs : BlockInv C s) (hp : s.hand p = some b) : b ≠ 0 := by
  have hdata := (hs.exact.inUse (.hand p) b hp).1
  have hstart := hs.start
  have hle := hdata.1
  omega

omit [Superblock] in
theorem State.content_setAddr
    (hwords : k = NDIRECT → b ≠ 0 → s.gone i MAXFILE = false → s.words b = fun _ => 0) :
    (s.setAddr p i k b).content i = (s.content i).setAddr k b := by
  have hinode : (s.setAddr p i k b).inode i =
      { s.inode i with addrs := update (s.inode i).addrs k b } := Function.update_self _ _ _
  unfold State.content Content.setAddr
  rw [hinode]
  congr 1
  show (if update (s.inode i).addrs k b NDIRECT ≠ 0 ∧ s.gone i MAXFILE = false then
    s.words (update (s.inode i).addrs k b NDIRECT) else fun _ => 0) = _
  by_cases heq : k = NDIRECT
  · rw [if_pos heq, heq, Function.update_self]
    by_cases hlive : b ≠ 0 ∧ s.gone i MAXFILE = false
    · rw [if_pos hlive]
      exact hwords heq hlive.1 hlive.2
    · rw [if_neg hlive]
  · rw [if_neg heq, Function.update_of_ne (Ne.symm heq)]

omit [Superblock] in
theorem State.setAddr_content_ne {j : Nat} (hj : j ≠ i) :
    (s.setAddr p i k b).content j = s.content j := by
  have hinode : (s.setAddr p i k b).inode j = s.inode j := Function.update_of_ne hj _ _
  unfold State.content
  rw [hinode]
  rfl

theorem State.setAddr_work (hi : s.busy i = some p) : Work p s (s.setAddr p i k b) where
  locked := rfl
  busy := rfl
  valid := rfl
  type j hj := by
    by_cases heq : j = i
    · rw [heq] at hj ⊢
      show (update s.inode i _ i).type ≠ .free
      rw [Function.update_self]
      exact hj
    · show (update s.inode i _ j).type ≠ .free
      rw [Function.update_of_ne heq]
      exact hj
  content j hj := by
    apply State.setAddr_content_ne
    intro heq
    rw [heq] at hj
    exact hj hi
  low _ _ := rfl
  hand q hq := Function.update_of_ne hq _ _
  words _ _ _ _ := rfl
  logged _ _ := rfl

omit [Superblock] in
theorem State.setAddr_view (hi : s.busy i = some p)
    (hcontent : (s.setAddr p i k b).content i = c) :
    (s.setAddr p i k b).view p = { (s.view p).hold i c with hand := none } := by
  have hhand : ((s.setAddr p i k b).view p).hand = none := by
    show (update s.hand p none p).map _ = none
    rw [Function.update_self]
    rfl
  rw [State.view_hold (s := s) (t := s.setAddr p i k b) rfl rfl hi
    (fun j hj => State.setAddr_content_ne hj), hcontent, hhand]
  rfl

/-- `bmap` puts a zeroed block into an empty slot of `addrs`. -/
theorem BlockInv.setAddr (hs : BlockInv C s) (hi : (s.view p).held i = some c)
    (hhand : (s.view p).hand = some (b, fun _ => 0)) (hk : k ≤ NDIRECT) (hempty : c.addrs k = 0)
    (hgone : c.gone (Content.index k) = false) :
    Keeps C p s (s.setAddr p i k b) ∧
      (s.setAddr p i k b).view p = { (s.view p).hold i (c.setAddr k b) with hand := none } := by
  obtain ⟨hbusy, rfl⟩ := State.held_iff.mp hi
  obtain ⟨hp, hzero⟩ := State.hand_iff.mp hhand
  have hcontent : (s.setAddr p i k b).content i = (s.content i).setAddr k b :=
    State.content_setAddr fun _ _ _ => hzero
  constructor
  · apply (State.setAddr_work hbusy).keeps hs
    · apply hs.attach (t := s.setAddr p i k b) (i := i) (k := Content.index k) hp rfl rfl
      · intro j hj
        exact State.setAddr_content_ne hj
      · intro j r
        rw [hcontent]
        exact Content.has_setAddr hk (hs.data_ne_zero hp) hempty hgone State.content_word_zero
    · intro hC
      exact hs.logged hC p
  · exact State.setAddr_view hbusy hcontent

/-- `itrunc` clears an address whose block it has freed. -/
theorem BlockInv.clearAddr (hs : BlockInv C s) (hi : (s.view p).held i = some c)
    (hhand : (s.view p).hand = none) (hk : k ≤ NDIRECT)
    (hgone : c.gone (Content.index k) = true) :
    Keeps C p s (s.setAddr p i k 0) ∧
      (s.setAddr p i k 0).view p = { (s.view p).hold i (c.setAddr k 0) with hand := none } := by
  obtain ⟨hbusy, rfl⟩ := State.held_iff.mp hi
  have hcontent : (s.setAddr p i k 0).content i = (s.content i).setAddr k 0 :=
    State.content_setAddr fun _ h _ => absurd rfl h
  have hnone : s.hand p = none := by
    cases hp : s.hand p with
    | none => rfl
    | some b =>
        have hsome := (State.hand_iff (s := s)).mpr ⟨hp, rfl⟩
        rw [hhand] at hsome
        cases hsome
  constructor
  · apply (State.setAddr_work hbusy).keeps hs
    · apply hs.exact.congr fun _ => Iff.rfl
      intro x r
      cases x with
      | slot j l =>
          show ((s.setAddr p i k 0).content j).Has l r ↔ _
          by_cases hj : j = i
          · rw [hj, hcontent]
            exact Content.has_clearAddr hk hgone State.content_word_gone
          · rw [State.setAddr_content_ne hj]
            exact Iff.rfl
      | hand q =>
          show update s.hand p none q = some r ↔ s.hand q = some r
          by_cases hq : q = p
          · rw [hq, Function.update_self, hnone]
          · rw [Function.update_of_ne hq]
    · intro hC
      exact hs.logged hC p
  · exact State.setAddr_view hbusy hcontent

theorem State.content_setWord_ne {ind j : Nat} (hs : BlockInv C s)
    (hind : s.Holds (.slot i MAXFILE) ind) (hj : j ≠ i) :
    (s.setWord p ind k b).content j = s.content j := by
  apply hs.content_of_words hind
  · intro heq
    cases heq
    exact hj rfl
  · exact fun r hr => Function.update_of_ne hr _ _
  · exact ⟨rfl, rfl, rfl⟩
  · rfl

/-- `bmap` puts a block into an empty slot of the indirect block. -/
theorem BlockInv.setWord {w : Nat → Nat} (hs : BlockInv C s) (hi : (s.view p).held i = some c)
    (hhand : (s.view p).hand = some (b, w)) (hk : k < NINDIRECT)
    (hind : c.addrs NDIRECT ≠ 0) (hlive : c.gone MAXFILE = false) (hempty : c.word k = 0)
    (hgone : c.gone (NDIRECT + k) = false)
    (hroom : C → (insert (c.addrs NDIRECT) (s.logged p)).card ≤ MAXOPBLOCKS) :
    Keeps C p s (s.setWord p (c.addrs NDIRECT) k b) ∧
      (s.setWord p (c.addrs NDIRECT) k b).view p =
        { (s.view p).hold i (c.setWord k b) with
          hand := none
          logged := insert (c.addrs NDIRECT) (s.view p).logged } := by
  obtain ⟨hbusy, rfl⟩ := State.held_iff.mp hi
  obtain ⟨hp, -⟩ := State.hand_iff.mp hhand
  have hholds : s.Holds (.slot i MAXFILE) ((s.content i).addrs NDIRECT) :=
    State.holds_indirect hind hlive
  have hcontent : (s.setWord p ((s.content i).addrs NDIRECT) k b).content i =
      (s.content i).setWord k b := by
    unfold Content.setWord
    rw [State.content_word hind hlive]
    show Content.mk _ _ _ _ _ = Content.mk _ _ _ _ _
    congr 1
    show (if (s.inode i).addrs NDIRECT ≠ 0 ∧ s.gone i MAXFILE = false then
      update s.words ((s.inode i).addrs NDIRECT)
        (update (s.words ((s.inode i).addrs NDIRECT)) k b) ((s.inode i).addrs NDIRECT)
      else fun _ => 0) = _
    rw [if_pos ⟨hind, hlive⟩, Function.update_self]
    rfl
  have hother : ∀ j, j ≠ i →
      (s.setWord p ((s.content i).addrs NDIRECT) k b).content j = s.content j :=
    fun j hj => State.content_setWord_ne hs hholds hj
  have hlogged : (s.setWord p ((s.content i).addrs NDIRECT) k b).logged p =
      insert ((s.content i).addrs NDIRECT) (s.logged p) := Function.update_self _ _ _
  have hwork : Work p s (s.setWord p ((s.content i).addrs NDIRECT) k b) :=
    { locked := rfl
      busy := rfl
      valid := rfl
      type := fun _ h => h
      content := by
        intro j hj
        apply hother
        intro heq
        rw [heq] at hj
        exact hj hbusy
      low := fun _ _ => rfl
      hand := fun q hq => Function.update_of_ne hq _ _
      words := by
        intro q r _ hr
        apply Function.update_of_ne
        exact hs.ne_of_holds (x := .hand q) hr hholds fun h => nomatch h
      logged := fun q hq => Function.update_of_ne hq _ _ }
  constructor
  · apply hwork.keeps hs
    · apply hs.attach (t := s.setWord p ((s.content i).addrs NDIRECT) k b) (i := i)
        (k := NDIRECT + k) hp rfl rfl hother
      intro j r
      rw [hcontent]
      exact Content.has_setWord hk (hs.data_ne_zero hp) hempty hgone
    · intro hC
      rw [hlogged]
      exact hroom hC
  · have hhand' : ((s.setWord p ((s.content i).addrs NDIRECT) k b).view p).hand = none := by
      show (update s.hand p none p).map _ = none
      rw [Function.update_self]
      rfl
    rw [State.view_hold (s := s) (t := s.setWord p ((s.content i).addrs NDIRECT) k b) rfl rfl
      hbusy hother, hcontent, hhand', hlogged]
    rfl

/-- `bfree` of the block in a slot. -/
theorem BlockInv.unmark (hs : BlockInv C s) (hi : (s.view p).held i = some c) (hhas : c.Has k b)
    (hlast : k = MAXFILE → ∀ l, ¬ l < NDIRECT → l < MAXFILE → c.gone l = true ∨ c.slot l = 0)
    (hroom : C → (insert (BBLOCK b) (s.logged p)).card ≤ MAXOPBLOCKS) :
    s.used b = true ∧ Keeps C p s (s.unmark p i k b) ∧
      (s.unmark p i k b).view p =
        { (s.view p).hold i (c.unmark k) with
          logged := insert (BBLOCK b) (s.view p).logged } := by
  obtain ⟨hbusy, rfl⟩ := State.held_iff.mp hi
  have hholds : s.Holds (.slot i k) b := hhas
  have huse := hs.exact.inUse _ _ hholds
  have hcontent : (s.unmark p i k b).content i = (s.content i).unmark k := by
    unfold Content.unmark
    show Content.mk _ _ _ _ _ = Content.mk _ _ _ _ _
    have hgone : (s.unmark p i k b).gone i = update (s.gone i) k true :=
      Function.update_self _ _ _
    rw [hgone]
    congr 1
    by_cases hk : k = MAXFILE
    · rw [if_pos hk, hk, Function.update_self]
      exact if_neg fun h => nomatch h.2
    · rw [if_neg hk, Function.update_of_ne (Ne.symm hk)]
      rfl
  have hother : ∀ j, j ≠ i → (s.unmark p i k b).content j = s.content j := by
    intro j hj
    have hgone : (s.unmark p i k b).gone j = s.gone j := Function.update_of_ne hj _ _
    unfold State.content
    rw [hgone]
    rfl
  have hlogged : (s.unmark p i k b).logged p = insert (BBLOCK b) (s.logged p) :=
    Function.update_self _ _ _
  have hwork : Work p s (s.unmark p i k b) :=
    { locked := rfl
      busy := rfl
      valid := rfl
      type := fun _ h => h
      content := by
        intro j hj
        apply hother
        intro heq
        rw [heq] at hj
        exact hj hbusy
      low := by
        intro r hr
        apply Function.update_of_ne
        intro heq
        rw [heq] at hr
        exact Nat.not_le_of_lt hr huse.1.1
      hand := fun _ _ => rfl
      words := fun _ _ _ _ => rfl
      logged := fun q hq => Function.update_of_ne hq _ _ }
  refine ⟨huse.2, ?_, ?_⟩
  · apply hwork.keeps hs
    · apply hs.exact.drop (.slot i k) b hholds
      · intro r
        show IsData r ∧ update s.used b false r = true ↔ (IsData r ∧ s.used r = true) ∧ r ≠ b
        by_cases hr : r = b
        · rw [hr, Function.update_self]
          exact ⟨fun h => (nomatch h.2), fun h => absurd rfl h.2⟩
        · rw [Function.update_of_ne hr]
          exact ⟨fun h => ⟨h, hr⟩, And.left⟩
      · intro x r
        cases x with
        | slot j l =>
            show ((s.unmark p i k b).content j).Has l r ↔
              Place.slot j l ≠ .slot i k ∧ (s.content j).Has l r
            by_cases hj : j = i
            · rw [hj, hcontent, Content.has_unmark hlast]
              constructor
              · rintro ⟨hl, h⟩
                exact ⟨fun heq => hl (Place.slot.inj heq).2, h⟩
              · rintro ⟨hne, h⟩
                exact ⟨fun heq => hne (by rw [heq]), h⟩
            · rw [hother j hj]
              exact ⟨fun h => ⟨fun heq => hj (Place.slot.inj heq).1, h⟩, And.right⟩
        | hand q => exact ⟨fun h => ⟨fun heq => (nomatch heq), h⟩, And.right⟩
      · intro r hr
        exact hr.2.2.1.symm.trans hhas.2.2.1
    · intro hC
      rw [hlogged]
      exact hroom hC
  · rw [State.view_hold (s := s) (t := s.unmark p i k b) rfl rfl hbusy hother, hcontent, hlogged]
    rfl

/-- `writei` writes to a block of the contents. -/
theorem BlockInv.store (bn : Nat) (data : Data) (hs : BlockInv C s)
    (hi : (s.view p).held i = some c) (hhas : c.Has k b) (hk : k < MAXFILE)
    (hroom : C → (insert b (s.logged p)).card ≤ MAXOPBLOCKS) :
    Keeps C p s (s.store p i bn b data) ∧
      (s.store p i bn b data).view p = { s.view p with logged := insert b (s.view p).logged } := by
  obtain ⟨hbusy, rfl⟩ := State.held_iff.mp hi
  have hholds : s.Holds (.slot i k) b := hhas
  have hinode : ∀ j, ((s.store p i bn b data).inode j).type = (s.inode j).type ∧
      ((s.store p i bn b data).inode j).size = (s.inode j).size ∧
      ((s.store p i bn b data).inode j).addrs = (s.inode j).addrs := by
    intro j
    by_cases hj : j = i
    · have heq : (s.store p i bn b data).inode i =
          { s.inode i with entries := data.entries (s.inode i).entries } :=
        Function.update_self _ _ _
      rw [hj, heq]
      exact ⟨rfl, rfl, rfl⟩
    · have heq : (s.store p i bn b data).inode j = s.inode j := Function.update_of_ne hj _ _
      rw [heq]
      exact ⟨rfl, rfl, rfl⟩
  have hcontent : ∀ j, (s.store p i bn b data).content j = s.content j := by
    intro j
    apply hs.content_of_words hholds
    · intro heq
      exact Nat.ne_of_lt hk (Place.slot.inj heq).2
    · exact fun r hr => Function.update_of_ne hr _ _
    · exact hinode j
    · rfl
  have hlogged : (s.store p i bn b data).logged p = insert b (s.logged p) :=
    Function.update_self _ _ _
  have hwork : Work p s (s.store p i bn b data) :=
    { locked := rfl
      busy := rfl
      valid := rfl
      type := by
        intro j hj
        rw [(hinode j).1]
        exact hj
      content := fun j _ => hcontent j
      low := fun _ _ => rfl
      hand := fun _ _ => rfl
      words := by
        intro q r _ hr
        apply Function.update_of_ne
        exact hs.ne_of_holds (x := .hand q) hr hholds fun h => nomatch h
      logged := fun q hq => Function.update_of_ne hq _ _ }
  constructor
  · apply hwork.keeps hs
    · apply hs.exact.congr fun _ => Iff.rfl
      intro x r
      cases x with
      | slot j l =>
          show ((s.store p i bn b data).content j).Has l r ↔ _
          rw [hcontent]
          exact Iff.rfl
      | hand q => exact Iff.rfl
    · intro hC
      rw [hlogged]
      exact hroom hC
  · have hhand : ((s.store p i bn b data).view p).hand = (s.view p).hand := by
      show (s.hand p).map (fun r => (r, update s.words b _ r)) =
        (s.hand p).map fun r => (r, s.words r)
      cases hp : s.hand p with
      | none => rfl
      | some r =>
          have hne : r ≠ b := hs.ne_of_holds (x := .hand p) hp hholds fun h => nomatch h
          rw [Option.map_some, Option.map_some, Function.update_of_ne hne]
    rw [State.view_stay (s := s) (t := s.store p i bn b data) rfl rfl hcontent, hlogged, hhand]
    rfl

/-! ## Inodes -/

omit [DecidableEq P] in
theorem BlockInv.not_free (hs : BlockInv C s) (hbusy : s.busy i = some p) :
    (s.content i).type ≠ .free :=
  (hs.busy i p hbusy).2.1

/-- `iupdate` after assignments to other fields than `type` and `addrs`. -/
theorem BlockInv.iupdate (f : Inode → Inode) (size : Nat → Nat) (hs : BlockInv C s)
    (hi : (s.view p).held i = some c) (htype : ∀ ip, (f ip).type = ip.type)
    (haddrs : ∀ ip, (f ip).addrs = ip.addrs) (hsize : ∀ ip, (f ip).size = size ip.size)
    (hroom : C → (insert (IBLOCK i) (s.logged p)).card ≤ MAXOPBLOCKS) :
    Keeps C p s (s.iupdate p i f) ∧
      (s.iupdate p i f).view p =
        { (s.view p).hold i { c with size := size c.size } with
          logged := insert (IBLOCK i) (s.view p).logged } := by
  obtain ⟨hbusy, rfl⟩ := State.held_iff.mp hi
  have hlt : i < Superblock.ninodes := (hs.busy i p hbusy).2.2
  have hwords : (s.iupdate p i f).words = s.words := if_pos hlt
  have hself : (s.iupdate p i f).inode i = f (s.inode i) := Function.update_self _ _ _
  have hne : ∀ j, j ≠ i → (s.iupdate p i f).inode j = s.inode j := fun j hj =>
    Function.update_of_ne hj _ _
  have hcontent : (s.iupdate p i f).content i =
      { s.content i with size := size (s.content i).size } := by
    unfold State.content
    rw [hself, hwords, htype, haddrs, hsize]
    rfl
  have hother : ∀ j, j ≠ i → (s.iupdate p i f).content j = s.content j := by
    intro j hj
    unfold State.content
    rw [hne j hj, hwords]
    rfl
  have hlogged : (s.iupdate p i f).logged p = insert (IBLOCK i) (s.logged p) :=
    Function.update_self _ _ _
  have hwork : Work p s (s.iupdate p i f) :=
    { locked := rfl
      busy := rfl
      valid := rfl
      type := by
        intro j hj
        by_cases heq : j = i
        · rw [heq] at hj ⊢
          rw [hself, htype]
          exact hj
        · rw [hne j heq]
          exact hj
      content := by
        intro j hj
        apply hother
        intro heq
        rw [heq] at hj
        exact hj hbusy
      low := fun _ _ => rfl
      hand := fun _ _ => rfl
      words := by
        intro q r _ _
        rw [hwords]
      logged := fun q hq => Function.update_of_ne hq _ _ }
  constructor
  · apply hwork.keeps hs
    · apply hs.exact.congr fun _ => Iff.rfl
      intro x r
      cases x with
      | slot j l =>
          show ((s.iupdate p i f).content j).Has l r ↔ (s.content j).Has l r
          by_cases hj : j = i
          · rw [hj, hcontent]
            exact Iff.rfl
          · rw [hother j hj]
      | hand q => exact Iff.rfl
    · intro hC
      rw [hlogged]
      exact hroom hC
  · have hhand : ((s.iupdate p i f).view p).hand = (s.view p).hand := by
      show (s.hand p).map (fun r => (r, (s.iupdate p i f).words r)) = _
      rw [hwords]
      rfl
    rw [State.view_hold (s := s) (t := s.iupdate p i f) rfl rfl hbusy hother, hcontent, hhand,
      hlogged]
    rfl

/-- The inode `i`, on which `p` may have worked, becomes one without blocks on which nobody
works. -/
theorem BlockInv.renew (hs : BlockInv C s) (hbusy : ∀ q, s.busy i = some q → q = p)
    (hnone : ∀ k r, ¬ (s.content i).Has k r) (hnone' : ∀ k r, ¬ (t.content i).Has k r)
    (htidy : (t.content i).Tidy) (hother : ∀ j, j ≠ i → t.content j = s.content j)
    (htype : ∀ j, j ≠ i → (t.inode j).type = (s.inode j).type) (hused : t.used = s.used)
    (hwords : t.words = s.words) (hlocks : t.locked = s.locked) (hhand : t.hand = s.hand)
    (hnot : t.busy = update s.busy i none)
    (hvalid : ∀ j, t.valid j = true → j ≠ i ∧ s.valid j = true)
    (hlogged : ∀ q, q ≠ p → t.logged q = s.logged q)
    (hroom : C → (t.logged p).card ≤ MAXOPBLOCKS) :
    Keeps C p s t ∧
      t.view p =
        { s.view p with held := update (s.view p).held i none, logged := t.logged p } := by
  refine ⟨⟨?_, ?_⟩, ?_⟩
  · exact
      { exact := by
          apply hs.exact.congr
          · intro r
            unfold State.InUse
            rw [hused]
          · intro x r
            cases x with
            | slot j k =>
                show (t.content j).Has k r ↔ (s.content j).Has k r
                by_cases hj : j = i
                · rw [hj]
                  exact iff_of_false (hnone' k r) (hnone k r)
                · rw [hother j hj]
            | hand q =>
                show t.hand q = some r ↔ _
                rw [hhand]
                exact Iff.rfl
        low := by
          rw [hused]
          exact hs.low
        start := hs.start
        busy := by
          intro j q hq
          rw [hnot] at hq
          by_cases hj : j = i
          · rw [hj, Function.update_self] at hq
            cases hq
          · rw [Function.update_of_ne hj] at hq
            rw [hlocks, htype j hj]
            exact hs.busy j q hq
        valid := by
          intro j hj
          obtain ⟨hne, hj⟩ := hvalid j hj
          rw [htype j hne]
          exact hs.valid j hj
        tidy := by
          intro j hj
          by_cases heq : j = i
          · rw [heq]
            exact htidy
          · rw [hnot, Function.update_of_ne heq] at hj
            rw [hother j heq]
            exact hs.tidy j hj
        logged := by
          intro hC q
          by_cases hq : q = p
          · rw [hq]
            exact hroom hC
          · rw [hlogged q hq]
            exact hs.logged hC q }
  · intro q hq
    apply State.view_eq
    · intro j
      rw [hlocks]
    · intro j
      rw [hnot]
      by_cases hj : j = i
      · rw [hj, Function.update_self]
        exact ⟨fun h => (nomatch h), fun h => absurd (hbusy q h) hq⟩
      · rw [Function.update_of_ne hj]
    · intro j hj
      apply hother
      intro heq
      rw [heq] at hj
      exact hq (hbusy q hj)
    · rw [hhand]
    · intro r _
      rw [hwords]
    · exact hlogged q hq
  · unfold State.view
    rw [hlocks, hhand, hwords]
    congr 1
    funext j
    show (if t.busy j = some p then some (t.content j) else none) =
      update (s.view p).held i none j
    rw [hnot]
    by_cases hj : j = i
    · rw [hj, Function.update_self, Function.update_self]
      exact if_neg fun h => nomatch h
    · rw [Function.update_of_ne hj, Function.update_of_ne hj, hother j hj]
      rfl

/-- `iput` frees an inode whose blocks it has freed. -/
theorem BlockInv.free (hs : BlockInv C s) (hi : (s.view p).held i = some c)
    (haddrs : ∀ k, k ≤ NDIRECT → c.addrs k = 0) (hsize : c.size = 0)
    (hroom : C → (insert (IBLOCK i) (s.logged p)).card ≤ MAXOPBLOCKS) :
    Keeps C p s (s.free p i) ∧
      (s.free p i).view p =
        { s.view p with
          held := update (s.view p).held i none
          logged := insert (IBLOCK i) (s.view p).logged } := by
  obtain ⟨hbusy, rfl⟩ := State.held_iff.mp hi
  have hlt : i < Superblock.ninodes := (hs.busy i p hbusy).2.2
  have hself : (s.free p i).inode i = { s.inode i with type := .free } :=
    Function.update_self _ _ _
  have hne : ∀ j, j ≠ i → (s.free p i).inode j = s.inode j := fun j hj =>
    Function.update_of_ne hj _ _
  have hwords : (s.free p i).words = s.words := if_pos hlt
  have hlogged : (s.free p i).logged p = insert (IBLOCK i) (s.logged p) :=
    Function.update_self _ _ _
  have hind : (s.inode i).addrs NDIRECT = 0 := haddrs NDIRECT (Nat.le_refl _)
  have hword : (s.content i).word = fun _ => 0 := State.content_word_zero hind
  have haddrs' : ∀ k, k ≤ NDIRECT → ((s.free p i).content i).addrs k = 0 := by
    intro k hk
    show ((s.free p i).inode i).addrs k = 0
    rw [hself]
    exact haddrs k hk
  have hword' : ((s.free p i).content i).word = fun _ => 0 := by
    apply State.content_word_zero
    exact haddrs' NDIRECT (Nat.le_refl _)
  have hgone' : ∀ k, ((s.free p i).content i).gone k = false := by
    intro k
    show update s.gone i (fun _ => false) i k = false
    rw [Function.update_self]
  have hsize' : ((s.free p i).content i).size = 0 := by
    show ((s.free p i).inode i).size = 0
    rw [hself]
    exact hsize
  have hview := hs.renew (p := p) (i := i) (t := s.free p i)
    (by
      intro q hq
      rw [hbusy] at hq
      exact (Option.some.inj hq).symm)
    (Content.not_has_of_addrs haddrs hword)
    (Content.not_has_of_addrs haddrs' hword')
    { blocks := by
        rw [hsize']
        exact Content.blocks_zero haddrs' hword' hgone'
      free := fun _ => hsize' }
    (by
      intro j hj
      have hgone : (s.free p i).gone j = s.gone j := Function.update_of_ne hj _ _
      unfold State.content
      rw [hne j hj, hwords, hgone])
    (by
      intro j hj
      rw [hne j hj])
    rfl hwords rfl rfl rfl
    (by
      intro j hj
      have hj : update s.valid i false j = true := hj
      by_cases heq : j = i
      · rw [heq, Function.update_self] at hj
        cases hj
      · rw [Function.update_of_ne heq] at hj
        exact ⟨heq, hj⟩)
    (fun q hq => Function.update_of_ne hq _ _)
    (by
      intro hC
      rw [hlogged]
      exact hroom hC)
  rw [hlogged] at hview
  exact hview

/-- `ialloc` finds a free inode. -/
theorem BlockInv.allot (type : FileType) (hs : BlockInv C s) (hfree : (s.inode i).type = .free)
    (hroom : C → (insert (IBLOCK i) (s.logged p)).card ≤ MAXOPBLOCKS) :
    Keeps C p s (s.allot p i type) ∧
      (s.allot p i type).view p =
        { s.view p with logged := insert (IBLOCK i) (s.view p).logged } := by
  have hbusy : s.busy i = none := by
    cases hbusy : s.busy i with
    | none => rfl
    | some q => exact absurd hfree (hs.busy i q hbusy).2.1
  have hself : (s.allot p i type).inode i = { Inode.zero with type := type } :=
    Function.update_self _ _ _
  have hne : ∀ j, j ≠ i → (s.allot p i type).inode j = s.inode j := fun j hj =>
    Function.update_of_ne hj _ _
  have hlogged : (s.allot p i type).logged p = insert (IBLOCK i) (s.logged p) :=
    Function.update_self _ _ _
  have htidy := hs.tidy i hbusy
  have hblocks : (s.content i).Blocks 0 := by
    have h := htidy.blocks
    rw [htidy.free hfree] at h
    exact h
  have haddrs' : ∀ k, k ≤ NDIRECT → ((s.allot p i type).content i).addrs k = 0 := by
    intro k _
    show ((s.allot p i type).inode i).addrs k = 0
    rw [hself]
    rfl
  have hword' : ((s.allot p i type).content i).word = fun _ => 0 := by
    apply State.content_word_zero
    exact haddrs' NDIRECT (Nat.le_refl _)
  have hsize' : ((s.allot p i type).content i).size = 0 := by
    show ((s.allot p i type).inode i).size = 0
    rw [hself]
    rfl
  have hnot : (s.allot p i type).busy = update s.busy i none := by
    rw [← hbusy]
    exact (Function.update_eq_self i s.busy).symm
  have hview := hs.renew (p := p) (i := i) (t := s.allot p i type)
    (by
      intro q hq
      rw [hbusy] at hq
      cases hq)
    hblocks.not_has
    (Content.not_has_of_addrs haddrs' hword')
    { blocks := by
        rw [hsize']
        exact Content.blocks_zero haddrs' hword' hblocks.gone
      free := fun _ => hsize' }
    (by
      intro j hj
      unfold State.content
      rw [hne j hj]
      rfl)
    (by
      intro j hj
      rw [hne j hj])
    rfl rfl rfl rfl hnot
    (by
      intro j hj
      have hj : s.valid j = true := hj
      refine ⟨?_, hj⟩
      intro heq
      rw [heq] at hj
      exact (hs.valid i hj).1 hfree)
    (fun q hq => Function.update_of_ne hq _ _)
    (by
      intro hC
      rw [hlogged]
      exact hroom hC)
  refine ⟨hview.1, ?_⟩
  rw [hview.2, hlogged]
  have hheld : (s.view p).held i = none := by
    apply if_neg
    rw [hbusy]
    exact fun h => nomatch h
  have hsame : update (s.view p).held i none = (s.view p).held := by
    rw [← hheld]
    exact Function.update_eq_self _ _
  rw [hsame]
  rfl

/-- `begin_op` -/
theorem BlockInv.begin_op (hs : BlockInv C s) :
    Keeps C p s { s with logged := update s.logged p ∅ } ∧
      State.view p { s with logged := update s.logged p ∅ } =
        { s.view p with logged := ∅ } := by
  have hlogged : (update s.logged p ∅) p = ∅ := Function.update_self _ _ _
  have hwork : Work p s { s with logged := update s.logged p ∅ } :=
    { locked := rfl
      busy := rfl
      valid := rfl
      type := fun _ h => h
      content := fun _ _ => rfl
      low := fun _ _ => rfl
      hand := fun _ _ => rfl
      words := fun _ _ _ _ => rfl
      logged := fun q hq => Function.update_of_ne hq _ _ }
  constructor
  · apply hwork.keeps hs
    · exact hs.exact.congr (fun _ => Iff.rfl) fun x r => by cases x <;> exact Iff.rfl
    · intro _
      show ((update s.logged p ∅) p).card ≤ MAXOPBLOCKS
      rw [hlogged]
      exact Nat.zero_le _
  · unfold State.view
    show View.mk _ _ _ _ = View.mk _ _ _ _
    congr 1

end OsWork.Ports.FsThreads

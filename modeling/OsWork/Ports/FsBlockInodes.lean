import OsWork.Ports.FsBlockPrograms

/-!
# Locks, contents and directories, seen from the blocks

What a process knows between two calls of the functions of `fs.c` is put into one
predicate: `Ready C K n held v` says that the process works on the inodes in `held`,
has no block in hand, and can still log the blocks in `K` and `n` more.  Each lemma
takes a function of the source from one such predicate to another.
-/

namespace OsWork.Ports.FsThreads

open OsWork.Verified.Interleaving
open FsDirectories (FileType Dirent Name NOFILE ROOTINO elements)
open Function (update)

variable {P : Type} [Superblock] [DecidableEq P]

/-! ## Changes that the blocks do not see -/

/-- The fields that the blocks are about. -/
def State.core (s : State P) :=
  (s.inode, s.words, s.used, s.valid, s.locked, s.busy, s.hand, s.gone, s.logged)

omit [Superblock] [DecidableEq P] in
theorem Same.of_core {s t : State P} (h : t.core = s.core) : Same s t := by
  unfold State.core at h
  simp only [Prod.mk.injEq] at h
  obtain ⟨hinode, hwords, hused, hvalid, hlocked, hbusy, hhand, hgone, hlogged⟩ := h
  constructor
  · intro i
    rw [hinode]
  · intro i
    unfold State.content
    rw [hinode, hwords, hgone]
  · exact hwords
  · exact hused
  · exact hlocked
  · exact hbusy
  · exact hhand
  · exact hlogged
  · intro i hi
    rwa [hvalid] at hi

omit [Superblock] [DecidableEq P] in
theorem State.iget_same (s : State P) (i : Nat) : Same s (s.iget i) where
  inode _ := rfl
  content _ := rfl
  words := rfl
  used := rfl
  locked := rfl
  busy := rfl
  hand := rfl
  logged := rfl
  valid j hj := by
    unfold State.iget at hj
    simp only at hj
    split at hj
    · by_cases hij : j = i
      · rw [hij, Function.update_self] at hj
        cases hj
      · rwa [Function.update_of_ne hij] at hj
    · exact hj

omit [Superblock] [DecidableEq P] in
/-- `fork` is about files and references. -/
theorem State.foldl_filedup_core (files : List Nat) (s : State P) :
    (files.foldl State.filedup s).core = s.core := by
  induction files generalizing s with
  | nil => rfl
  | cons f files ih =>
      rw [List.foldl_cons, ih]
      rfl

omit [Superblock] in
theorem State.fork_core (s : State P) (p q : P) : (s.fork p q).core = s.core := by
  rw [← State.foldl_filedup_core ((List.finRange NOFILE).filterMap fun fd => s.ofile p fd) s]
  unfold State.fork
  cases s.cwd p <;> rfl

/-! ## What a process has -/

/-- The process works on the inodes in `held`, has no block in hand, and can log the
blocks in `K` and `n` more. -/
structure Ready (C : Prop) (K : Set Nat) (n : Nat) (held : Nat → Option Content) (v : View) :
    Prop where
  held : v.held = held
  hand : v.hand = none
  room : Room C K n v.logged

variable {C : Prop} {p : P} {v : View} {i k b n m : Nat} {c : Content} {K K' : Set Nat}
  {held : Nat → Option Content} {α : Type}

omit [Superblock] [DecidableEq P] in
theorem Ready.mono (h : Ready C K n held v) (hK : ∀ b, b ∈ K' → b ∈ K) (hn : m ≤ n) :
    Ready C K' m held v where
  held := h.held
  hand := h.hand
  room := h.room.mono hK hn

omit [Superblock] [DecidableEq P] in
theorem Ready.reserve (b : Nat) (h : Ready C K (n + 1) held v) : Ready C (insert b K) n held v where
  held := h.held
  hand := h.hand
  room := h.room.reserve b

omit [Superblock] [DecidableEq P] in
/-- A reservation that is not needed any more. -/
theorem Ready.forget (h : Ready C (insert b K) n held v) : Ready C K n held v :=
  h.mono (fun _ hb => .inr hb) (Nat.le_refl n)

omit [Superblock] [DecidableEq P] in
theorem Ready.less (h : Ready C K n held v) (hn : m ≤ n) : Ready C K m held v :=
  h.mono (fun _ hb => hb) hn

omit [DecidableEq P] in
theorem Bitmap.insert (h : Bitmap K) (b : Nat) : Bitmap (insert b K) :=
  fun r hr => .inr (h r hr)

/-- What a process has when it is in no call. -/
def Idle (C : Prop) (v : View) : Prop := Ready C ∅ 0 (fun _ => none) v

/-! ## Locks -/

theorem runs_acquiresleep {Q : Unit → View → Prop}
    (hQ : v.held i = none → Q () (v.lock i)) : Runs C p (acquiresleep p i) Q v := by
  apply Safe.bind
  apply runs_same fun s => Same.of_core (t := s.wait p i) rfl
  apply Safe.atomic
  intro s hs hv _ t ht
  have hv : s.view p = v := hv
  split at ht
  · rename_i hfree
    cases ht
    obtain ⟨hkeeps, hview, hheld⟩ := hs.lock (p := p) hfree
    refine ⟨hkeeps.inv, hkeeps.other, ?_⟩
    show Q () ((s.lock p i).view p)
    rw [hview, hv]
    rw [hv] at hheld
    exact hQ hheld
  · cases ht

/-- `ilock` returns an inode that has the blocks its size asks for. -/
theorem runs_ilock {Q : Unit → View → Prop} (h : Ready C K n held v)
    (hQ : ∀ c v', held i = none → c.Tidy → Ready C K n (update held i (some c)) v' → Q () v') :
    Runs C p (ilock p i) Q v := by
  apply Safe.bind
  apply runs_fetch
  intro s _ _
  split
  · exact runs_panic (by decide)
  · apply Safe.bind
    apply runs_acquiresleep
    intro hnone s hs hv hok t ht
    have hv : s.view p = v.lock i := hv
    have hok : i < Superblock.ninodes := hok
    cases hload : s.toLoad i with
    | error e =>
        simp only [hload, Option.some.injEq] at ht ⊢
        subst ht
        refine ⟨hs, fun q _ => rfl, ?_⟩
        apply runs_panic
        rintro rfl
        unfold State.toLoad at hload
        split at hload
        · cases hload
        · split at hload
          · cases hload
          · split at hload
            · split at hload
              · cases hload
              · cases hload
            · cases hload
    | ok ip =>
        simp only [hload, Option.some.injEq] at ht ⊢
        subst ht
        have hlocked : (s.view p).locks i := by
          rw [hv]
          exact .inl rfl
        have hheld : (s.view p).held i = none := by
          rw [hv]
          exact hnone
        obtain ⟨hkeeps, hview, htidy, -⟩ := hs.load hlocked hheld hok hload
        refine ⟨hkeeps.inv, hkeeps.other, ?_⟩
        show Q () ((s.load p i ip).view p)
        rw [hview, hv]
        apply hQ (s.content i) _ (by rw [← h.held]; exact hnone) htidy
        constructor
        · show update v.held i _ = _
          rw [h.held]
        · exact h.hand
        · exact h.room

/-- An inode that is given up has the blocks that its size asks for. -/
theorem runs_iunlockNote {l : Label} {note : State P → State P} {Q : Unit → View → Prop}
    (h : Ready C K n held v) (hnote : ∀ s, Same s (note s))
    (htidy : ∀ c, held i = some c → c.Tidy)
    (hQ : ∀ v', Ready C K n (update held i none) v' → Q () v') :
    Runs C p (iunlockNote l p i note) Q v := by
  intro s hs hv _ t ht
  cases ht
  have hv : s.view p = v := hv
  by_cases hlocked : s.locked i = some p ∧ 1 ≤ s.ref i
  · rw [if_pos hlocked]
    have htidy' : ∀ c, (s.view p).held i = some c → c.Tidy := by
      rw [hv, h.held]
      exact htidy
    obtain ⟨hkeeps, hview⟩ := hs.unlock hlocked.1 htidy'
    have hsame := hnote (s.unlock i)
    refine ⟨(hkeeps.same hsame).inv, (hkeeps.same hsame).other, ?_⟩
    show Runs C p (if s.locked i = some p ∧ 1 ≤ s.ref i then pure () else panic .iunlock) Q
      ((note (s.unlock i)).view p)
    rw [if_pos hlocked, hsame.view, hview, hv]
    apply hQ
    constructor
    · show update v.held i none = _
      rw [h.held]
    · exact h.hand
    · exact h.room
  · rw [if_neg hlocked]
    refine ⟨hs, fun q _ => rfl, ?_⟩
    show Runs C p (if s.locked i = some p ∧ 1 ≤ s.ref i then pure () else panic .iunlock) Q
      (s.view p)
    rw [if_neg hlocked]
    exact runs_panic (by decide)

theorem runs_iunlock {Q : Unit → View → Prop} (h : Ready C K n held v)
    (htidy : ∀ c, held i = some c → c.Tidy)
    (hQ : ∀ v', Ready C K n (update held i none) v' → Q () v') :
    Runs C p (iunlock p i) Q v :=
  runs_iunlockNote h (fun _ => Same.of_core rfl) htidy hQ

/-! ## `itrunc` and `iput` -/

omit [Superblock] [DecidableEq P] in
theorem View.hold_self (hi : v.held i = some c) :
    { v.hold i c with logged := v.logged } = v := by
  unfold View.hold
  rw [← hi, Function.update_eq_self]

omit [DecidableEq P] in
/-- A block in a slot of an inode is a block of the disk. -/
theorem BlockInv.lt_size {s : State P} (hs : BlockInv C s) (hhas : (s.content i).Has k b) :
    b < Superblock.size :=
  (hs.exact.inUse (.slot i k) b hhas).1.2

/-- The addresses `ks` are cleared; nothing is known of which of their blocks are freed. -/
structure Cleared (ks : List Nat) (c c' : Content) : Prop where
  zero : ∀ k, k ∈ ks → c'.addrs k = 0
  addrs : ∀ k, k ∉ ks → c'.addrs k = c.addrs k
  word : c'.word = c.word
  gone : ∀ k, k ∉ ks → c'.gone k = c.gone k

omit [Superblock] in
theorem Cleared.cons_free {ks : List Nat} {c' : Content} (hk : k < NDIRECT) (hnot : k ∉ ks)
    (h : Cleared ks ((c.unmark k).setAddr k 0) c') : Cleared (k :: ks) c c' where
  zero j hj := by
    rcases List.mem_cons.mp hj with rfl | hj
    · rw [h.addrs j hnot]
      exact Function.update_self _ _ _
    · exact h.zero j hj
  addrs j hj := by
    rw [h.addrs j (fun hmem => hj (List.mem_cons_of_mem k hmem))]
    exact Function.update_of_ne (fun heq => hj (by rw [heq]; exact List.mem_cons_self)) _ _
  word := by
    have hlimits := limits
    rw [h.word]
    show (if k = NDIRECT then fun _ => 0 else if k = MAXFILE then fun _ => 0 else c.word) = c.word
    rw [if_neg (by omega), if_neg (by omega)]
  gone j hj := by
    rw [h.gone j (fun hmem => hj (List.mem_cons_of_mem k hmem))]
    exact Function.update_of_ne (fun heq => hj (by rw [heq]; exact List.mem_cons_self)) _ _

omit [Superblock] in
theorem Cleared.cons_zero {ks : List Nat} {c' : Content} (hzero : c.addrs k = 0)
    (h : Cleared ks c c') : Cleared (k :: ks) c c' where
  zero j hj := by
    rcases List.mem_cons.mp hj with rfl | hj
    · by_cases hmem : j ∈ ks
      · exact h.zero j hmem
      · rw [h.addrs j hmem]
        exact hzero
    · exact h.zero j hj
  addrs j hj := h.addrs j fun hmem => hj (List.mem_cons_of_mem k hmem)
  word := h.word
  gone j hj := h.gone j fun hmem => hj (List.mem_cons_of_mem k hmem)

theorem runs_itruncDirect {Q : Unit → View → Prop} (hmap : Bitmap K) :
    ∀ {ks : List Nat} {v : View} {c : Content}, ks.Nodup → (∀ k, k ∈ ks → k < NDIRECT) →
      v.held i = some c → v.hand = none → (∀ k, k ∈ ks → c.gone k = false) →
      Room C K n v.logged →
      (∀ c' Z, Cleared ks c c' → Room C K n Z → Q () { v.hold i c' with logged := Z }) →
      Runs C p (itruncDirect p i ks) Q v := by
  have hlimits := limits
  intro ks
  induction ks with
  | nil =>
      intro v c _ _ hi _ _ hroom hQ
      have hclear : Cleared [] c c :=
        ⟨fun k hk => absurd hk List.not_mem_nil, fun _ _ => rfl, rfl, fun _ _ => rfl⟩
      have hdone := hQ c v.logged hclear hroom
      rw [View.hold_self hi] at hdone
      exact hdone
  | cons k ks ih =>
      intro v c hnodup hlt hi hhand hgone hroom hQ
      obtain ⟨hnot, hnodup⟩ := List.nodup_cons.mp hnodup
      have hk : k < NDIRECT := hlt k List.mem_cons_self
      have hlt' : ∀ j, j ∈ ks → j < NDIRECT := fun j hj => hlt j (List.mem_cons_of_mem k hj)
      have hgone' : ∀ j, j ∈ ks → c.gone j = false := fun j hj =>
        hgone j (List.mem_cons_of_mem k hj)
      apply Safe.bind
      apply runs_fetch
      intro s hs hv
      rw [addrs_of_held hv hi]
      by_cases hzero : c.addrs k = 0
      · rw [if_neg (not_not_intro hzero)]
        apply Safe.bind
        apply runs_pure
        apply ih hnodup hlt' hi hhand hgone' hroom
        intro c' Z hclear
        exact hQ c' Z (hclear.cons_zero hzero)
      · have hhas : c.Has k (c.addrs k) :=
          ⟨by omega, hgone k List.mem_cons_self, Content.slot_direct hk, hzero⟩
        have hsize : c.addrs k < Superblock.size := by
          rw [← hv] at hi
          obtain ⟨-, rfl⟩ := State.held_iff.mp hi
          exact hs.lt_size hhas
        rw [if_pos hzero]
        apply Safe.bind
        apply Safe.bind
        apply runs_bfree hi hhas (fun hlast => by omega) hsize hmap hroom
        intro hroom'
        apply runs_step
        intro s hs hv
        have hi' : (s.view p).held i = some (c.unmark k) := by
          rw [hv]
          exact Function.update_self _ _ _
        have hhand' : (s.view p).hand = none := by
          rw [hv]
          exact hhand
        have hmarked : (c.unmark k).gone (Content.index k) = true := by
          rw [Content.index_direct hk]
          exact Function.update_self _ _ _
        obtain ⟨hkeeps, hview⟩ := hs.clearAddr hi' hhand' (Nat.le_of_lt hk) hmarked
        refine ⟨hkeeps, ?_⟩
        rw [hview, hv]
        have heq : ({ View.hold { v.hold i (c.unmark k) with
              logged := insert (BBLOCK (c.addrs k)) v.logged } i ((c.unmark k).setAddr k 0) with
            hand := none } : View) =
            { v.hold i ((c.unmark k).setAddr k 0) with
              logged := insert (BBLOCK (c.addrs k)) v.logged } := by
          unfold View.hold
          simp only [Function.update_idem, hhand]
        rw [heq]
        have hstep := ih (v := { v.hold i ((c.unmark k).setAddr k 0) with
            logged := insert (BBLOCK (c.addrs k)) v.logged }) (c := (c.unmark k).setAddr k 0)
          hnodup hlt' (Function.update_self _ _ _) hhand
          (by
            intro j hj
            show update c.gone k true j = false
            rw [Function.update_of_ne (fun heq => hnot (by rw [← heq]; exact hj))]
            exact hgone' j hj)
          hroom'
        apply hstep
        intro c' Z hclear hroom''
        rw [View.hold_hold]
        exact hQ c' Z (hclear.cons_free hk hnot) hroom''

/-- The blocks of the words `ks` are freed. -/
structure Emptied (ks : List Nat) (c c' : Content) : Prop where
  freed : ∀ k, k ∈ ks → c'.gone (NDIRECT + k) = true ∨ c.word k = 0
  addrs : c'.addrs = c.addrs
  word : c'.word = c.word
  gone : ∀ l, (∀ k, k ∈ ks → l ≠ NDIRECT + k) → c'.gone l = c.gone l

theorem runs_itruncIndirect {Q : Unit → View → Prop} (hmap : Bitmap K) :
    ∀ {ks : List Nat} {v : View} {c : Content}, ks.Nodup → (∀ k, k ∈ ks → k < NINDIRECT) →
      v.held i = some c → v.hand = none → c.addrs NDIRECT ≠ 0 → c.gone MAXFILE = false →
      (∀ k, k ∈ ks → c.gone (NDIRECT + k) = false) → Room C K n v.logged →
      (∀ c' Z, Emptied ks c c' → Room C K n Z → Q () { v.hold i c' with logged := Z }) →
      Runs C p (itruncIndirect p i (c.addrs NDIRECT) ks) Q v := by
  have hlimits := limits
  intro ks
  induction ks with
  | nil =>
      intro v c _ _ hi _ _ _ _ hroom hQ
      have hdone := hQ c v.logged ⟨fun k hk => absurd hk List.not_mem_nil, rfl, rfl, fun _ _ => rfl⟩
        hroom
      rw [View.hold_self hi] at hdone
      exact hdone
  | cons k ks ih =>
      intro v c hnodup hlt hi hhand hind hlive hgone hroom hQ
      obtain ⟨hnot, hnodup⟩ := List.nodup_cons.mp hnodup
      have hk : k < NINDIRECT := hlt k List.mem_cons_self
      have hlt' : ∀ j, j ∈ ks → j < NINDIRECT := fun j hj => hlt j (List.mem_cons_of_mem k hj)
      have hgone' : ∀ j, j ∈ ks → c.gone (NDIRECT + j) = false := fun j hj =>
        hgone j (List.mem_cons_of_mem k hj)
      apply Safe.bind
      apply runs_fetch
      intro s hs hv
      rw [words_of_held hv hi hind hlive]
      by_cases hzero : c.word k = 0
      · rw [if_neg (not_not_intro hzero)]
        apply Safe.bind
        apply runs_pure
        apply ih hnodup hlt' hi hhand hind hlive hgone' hroom
        intro c' Z hempty
        refine hQ c' Z ⟨?_, hempty.addrs, hempty.word, ?_⟩
        · intro j hj
          rcases List.mem_cons.mp hj with rfl | hj
          · exact .inr hzero
          · exact hempty.freed j hj
        · exact fun l hl => hempty.gone l fun j hj => hl j (List.mem_cons_of_mem k hj)
      · have hslot : c.slot (NDIRECT + k) = c.word k := by
          rw [Content.slot_word (by omega) (by omega), Nat.add_sub_cancel_left]
        have hhas : c.Has (NDIRECT + k) (c.word k) :=
          ⟨by omega, hgone k List.mem_cons_self, hslot, hzero⟩
        have hsize : c.word k < Superblock.size := by
          rw [← hv] at hi
          obtain ⟨-, rfl⟩ := State.held_iff.mp hi
          exact hs.lt_size hhas
        rw [if_pos hzero]
        apply Safe.bind
        apply runs_bfree hi hhas (fun hlast => by omega) hsize hmap hroom
        intro hroom'
        have hword : (c.unmark (NDIRECT + k)).word = c.word :=
          if_neg (show NDIRECT + k ≠ MAXFILE by omega)
        have hstep := ih (v := { v.hold i (c.unmark (NDIRECT + k)) with
            logged := insert (BBLOCK (c.word k)) v.logged }) (c := c.unmark (NDIRECT + k))
          hnodup hlt' (Function.update_self _ _ _) hhand hind
          (by
            show update c.gone _ true MAXFILE = false
            rw [Function.update_of_ne (by omega)]
            exact hlive)
          (by
            intro j hj
            have hne : j ≠ k := fun heq => hnot (by rw [← heq]; exact hj)
            show update c.gone _ true _ = false
            rw [Function.update_of_ne (by omega)]
            exact hgone' j hj)
          hroom'
        apply hstep
        intro c' Z hempty hroom''
        rw [View.hold_hold]
        refine hQ c' Z ⟨?_, hempty.addrs, hempty.word.trans hword, ?_⟩ hroom''
        · intro j hj
          rcases List.mem_cons.mp hj with rfl | hj
          · left
            rw [hempty.gone]
            · exact Function.update_self _ _ _
            · intro l hl heq
              exact hnot (by rw [Nat.add_left_cancel heq]; exact hl)
          · rw [← hword]
            exact hempty.freed j hj
        · intro l hl
          rw [hempty.gone l fun j hj => hl j (List.mem_cons_of_mem k hj)]
          exact Function.update_of_ne (hl k List.mem_cons_self) _ _

/-- `itrunc` leaves no address, whatever the blocks of the inode were. -/
theorem runs_itrunc {Q : Unit → View → Prop} (hi : v.held i = some c) (hhand : v.hand = none)
    (hgone : ∀ k, c.gone k = false) (hmap : Bitmap K) (hinode : IBLOCK i ∈ K)
    (hroom : Room C K n v.logged)
    (hQ : ∀ c' Z, (∀ k, k ≤ NDIRECT → c'.addrs k = 0) → c'.size = 0 → Room C K n Z →
      Q () { v.hold i c' with logged := Z }) :
    Runs C p (itrunc p i) Q v := by
  have hlimits := limits
  have hfinish : ∀ (c₁ : Content) (Z : Finset Nat), (∀ k, k ≤ NDIRECT → c₁.addrs k = 0) →
      Room C K n Z →
      Runs C p (iupdate p i fun ip => { ip with size := 0, entries := [] }) Q
        { v.hold i c₁ with logged := Z } := by
    intro c₁ Z haddrs hroom'
    apply runs_step
    intro s hs hv
    have hi' : (s.view p).held i = some c₁ := by
      rw [hv]
      exact Function.update_self _ _ _
    have hlogged : s.logged p = Z := congrArg View.logged hv
    have hroom'' := hroom'.log hinode
    obtain ⟨hkeeps, hview⟩ := hs.iupdate (fun ip => { ip with size := 0, entries := [] })
      (fun _ => 0) hi' (fun _ => rfl) (fun _ => rfl) (fun _ => rfl)
      (by rw [hlogged]; exact fun hC => hroom''.card hC)
    refine ⟨hkeeps, ?_⟩
    rw [hview, hv, View.hold_hold]
    exact hQ _ _ haddrs rfl hroom''
  apply Safe.bind
  apply runs_itruncDirect hmap List.nodup_range (fun k hk => List.mem_range.mp hk) hi hhand
    (fun k _ => hgone k) hroom
  intro c₁ Z₁ hclear hroom₁
  have hzero : ∀ k, k < NDIRECT → c₁.addrs k = 0 := fun k hk =>
    hclear.zero k (List.mem_range.mpr hk)
  have hgone₁ : ∀ l, ¬ l < NDIRECT → c₁.gone l = false := by
    intro l hl
    rw [hclear.gone l fun hmem => hl (List.mem_range.mp hmem)]
    exact hgone l
  have hi₁ : ({ v.hold i c₁ with logged := Z₁ } : View).held i = some c₁ :=
    Function.update_self _ _ _
  apply Safe.bind
  apply runs_fetch
  intro s hs hv
  rw [addrs_of_held hv hi₁]
  by_cases hind : c₁.addrs NDIRECT = 0
  · rw [if_neg (not_not_intro hind)]
    apply Safe.bind
    apply runs_pure
    apply hfinish c₁ Z₁ _ hroom₁
    intro k hk
    rcases Nat.lt_or_eq_of_le hk with hk | rfl
    · exact hzero k hk
    · exact hind
  · have hsize : c₁.addrs NDIRECT < Superblock.size := by
      have hhas : c₁.Has MAXFILE (c₁.addrs NDIRECT) :=
        ⟨Nat.le_refl _, hgone₁ _ (by omega), Content.slot_last, hind⟩
      rw [← hv] at hi₁
      obtain ⟨-, rfl⟩ := State.held_iff.mp hi₁
      exact hs.lt_size hhas
    rw [if_pos hind]
    apply Safe.bind
    apply Safe.bind
    apply runs_itruncIndirect hmap List.nodup_range (fun k hk => List.mem_range.mp hk) hi₁ hhand
      hind (hgone₁ _ (by omega)) (fun k _ => hgone₁ _ (by omega)) hroom₁
    intro c₂ Z₂ hempty hroom₂
    rw [View.hold_hold]
    have hi₂ : ({ v.hold i c₂ with logged := Z₂ } : View).held i = some c₂ :=
      Function.update_self _ _ _
    have hlive : c₂.gone MAXFILE = false := by
      rw [hempty.gone]
      · exact hgone₁ _ (by omega)
      · intro k hk
        have hlt := List.mem_range.mp hk
        omega
    have hhas : c₂.Has MAXFILE (c₁.addrs NDIRECT) := by
      refine ⟨Nat.le_refl _, hlive, ?_, hind⟩
      rw [Content.slot_last, hempty.addrs]
    have hlast : ∀ l, ¬ l < NDIRECT → l < MAXFILE → c₂.gone l = true ∨ c₂.slot l = 0 := by
      intro l hl hlt
      have heq : NDIRECT + (l - NDIRECT) = l := by omega
      rcases hempty.freed (l - NDIRECT) (List.mem_range.mpr (by omega)) with hfreed | hfreed
      · rw [heq] at hfreed
        exact .inl hfreed
      · rw [Content.slot_word hl hlt, hempty.word]
        exact .inr hfreed
    apply Safe.bind
    apply runs_bfree hi₂ hhas (fun _ => hlast) hsize hmap hroom₂
    intro hroom₃
    apply runs_step
    intro s hs hv
    have hi₃ : (s.view p).held i = some (c₂.unmark MAXFILE) := by
      rw [hv]
      exact Function.update_self _ _ _
    have hhand₃ : (s.view p).hand = none := by
      rw [hv]
      exact hhand
    have hmarked : (c₂.unmark MAXFILE).gone (Content.index NDIRECT) = true := by
      show update c₂.gone MAXFILE true MAXFILE = true
      rw [Function.update_self]
    obtain ⟨hkeeps, hview⟩ := hs.clearAddr hi₃ hhand₃ (Nat.le_refl NDIRECT) hmarked
    refine ⟨hkeeps, ?_⟩
    have hdone := hfinish ((c₂.unmark MAXFILE).setAddr NDIRECT 0) _ (by
      intro k hk
      rcases Nat.lt_or_eq_of_le hk with hk | rfl
      · show update c₂.addrs NDIRECT 0 k = 0
        rw [Function.update_of_ne (by omega), hempty.addrs]
        exact hzero k hk
      · exact Function.update_self NDIRECT 0 c₂.addrs) hroom₃
    rw [hview, hv]
    unfold View.hold at hdone ⊢
    simp only [Function.update_idem, hhand] at hdone ⊢
    exact hdone

/-- The end of `iput`: the lock is given back and the reference dropped. -/
theorem runs_release {Q : Unit → View → Prop} (hlocks : v.locks i) (hi : v.held i = none)
    (h : Ready C K n held v) (hQ : ∀ v', Ready C K n held v' → Q () v') :
    Runs C p (do
      releasesleep i
      step fun s => s.deref i) Q v := by
  apply Safe.bind
  apply runs_step
  intro s hs hv
  have hlocked : s.locked i = some p := by
    rw [← hv] at hlocks
    exact hlocks
  obtain ⟨hkeeps, hview⟩ := hs.unlock hlocked (by
    intro c hc
    rw [hv, hi] at hc
    cases hc)
  refine ⟨hkeeps, ?_⟩
  rw [hview, hv]
  apply runs_same fun s => Same.of_core (t := s.deref i) rfl
  apply hQ
  constructor
  · show update v.held i none = held
    rw [← hi, Function.update_eq_self]
    exact h.held
  · exact h.hand
  · exact h.room

/-- `iput` may free the inode.  A path walk reserves nothing for that. -/
theorem runs_iput {site : Site} {Q : Unit → View → Prop} (h : Ready C K n held v)
    (hmap : Bitmap K) (hsite : site = .call → IBLOCK i ∈ K)
    (hQ : ∀ v', Ready C K n held v' → Q () v') : Runs C p (iput site p i) Q v := by
  apply Safe.bind
  apply runs_acquiresleep
  intro hnone s hs hv hok t ht
  cases ht
  have hv : s.view p = v.lock i := hv
  have hlocked : (s.view p).locks i := by
    rw [hv]
    exact .inl rfl
  have hheld : (s.view p).held i = none := by
    rw [hv]
    exact hnone
  by_cases hlast : s.lastRef i = true
  · obtain ⟨hkeeps, hview, htidy⟩ := hs.pick hlocked hheld hlast
    rw [if_pos hlast]
    refine ⟨hkeeps.inv, hkeeps.other, ?_⟩
    show Runs C p ((if s.lastRef i then do
        itrunc p i
        step fun s => s.free p i
      else pure ()) >>= fun _ => do
        releasesleep i
        step fun s => s.deref i) Q _
    rw [if_pos hlast]
    show Runs C p _ Q (State.view p { s with busy := update s.busy i (some p) })
    rw [hview, hv]
    -- A walk that frees an inode is outside the condition, so there is always room.
    have hroom : Room C (insert (IBLOCK i) K) n v.logged := by
      cases site with
      | walk => exact fun hC => absurd (hok hC) (by rw [hlast]; decide)
      | call => exact h.room.mono (by rintro b (rfl | hb); exacts [hsite rfl, hb]) (Nat.le_refl n)
    apply Safe.bind
    apply Safe.bind
    apply runs_itrunc (v := (v.lock i).hold i (s.content i)) (Function.update_self _ _ _) h.hand
      htidy.blocks.gone (hmap.insert _) (.inl rfl) hroom
    intro c' Z haddrs hsize hroom'
    apply runs_step
    intro s' hs' hv'
    have hi' : (s'.view p).held i = some c' := by
      rw [hv']
      exact Function.update_self _ _ _
    have hlogged : s'.logged p = Z := congrArg View.logged hv'
    have hroom'' := hroom'.log (.inl rfl)
    obtain ⟨hkeeps', hview'⟩ := hs'.free hi' haddrs hsize fun hC => by
      rw [hlogged]
      exact hroom''.card hC
    refine ⟨hkeeps', ?_⟩
    rw [hview', hv']
    refine runs_release (.inl rfl) (Function.update_self _ _ _) (?_ : Ready C K n held _) hQ
    constructor
    · show update (update (update v.held i _) i _) i none = held
      rw [Function.update_idem, Function.update_idem, ← hnone, Function.update_eq_self]
      exact h.held
    · exact h.hand
    · exact hroom''.mono (fun b hb => .inr hb) (Nat.le_refl n)
  · rw [if_neg hlast]
    refine ⟨hs, fun q _ => rfl, ?_⟩
    show Runs C p ((if s.lastRef i then do
        itrunc p i
        step fun s => s.free p i
      else pure ()) >>= fun _ => do
        releasesleep i
        step fun s => s.deref i) Q (s.view p)
    rw [if_neg hlast, hv]
    apply Safe.bind
    apply runs_pure
    exact runs_release (.inl rfl) hnone ⟨h.held, h.hand, h.room⟩ hQ

theorem runs_iunlockput {site : Site} {Q : Unit → View → Prop} (h : Ready C K n held v)
    (htidy : ∀ c, held i = some c → c.Tidy) (hmap : Bitmap K) (hsite : site = .call → IBLOCK i ∈ K)
    (hQ : ∀ v', Ready C K n (update held i none) v' → Q () v') :
    Runs C p (iunlockput site p i) Q v := by
  apply Safe.bind
  apply runs_iunlock h htidy
  intro v' h'
  exact runs_iput h' hmap hsite hQ

/-! ## Contents -/

omit [Superblock] in
theorem size_of_held {s : State P} (hv : s.view p = v) (hi : v.held i = some c) :
    (s.inode i).size = c.size := by
  rw [← hv] at hi
  obtain ⟨-, rfl⟩ := State.held_iff.mp hi
  rfl

omit [Superblock] [DecidableEq P] in
theorem Ready.held_update (h : Ready C K n (update held i (some c)) v) : v.held i = some c := by
  rw [h.held]
  exact Function.update_self _ _ _

omit [Superblock] in
theorem div_lt_blocksFor {off size : Nat} (h : off < size) :
    off / BSIZE < Content.blocksFor size := by
  show off / 512 < (size + (512 - 1)) / 512
  omega

omit [Superblock] in
theorem div_le_blocksFor {off size : Nat} (h : off ≤ size) :
    off / BSIZE ≤ Content.blocksFor size := by
  show off / 512 ≤ (size + (512 - 1)) / 512
  omega

omit [Superblock] in
theorem blocksFor_mono {a b : Nat} (h : a ≤ b) : Content.blocksFor a ≤ Content.blocksFor b :=
  Nat.div_le_div_right (Nat.add_le_add_right h _)

omit [Superblock] in
/-- The blocks of some bytes, as a range. -/
theorem blocksOf_eq {off n : Nat} (hn : n ≠ 0) :
    blocksOf off n =
      List.range' (off / BSIZE) (Content.blocksFor (off + n) - off / BSIZE) := by
  have heq : (off + n - 1) / BSIZE + 1 = Content.blocksFor (off + n) := by
    show (off + n - 1) / 512 + 1 = (off + n + (512 - 1)) / 512
    omega
  unfold blocksOf
  rw [if_neg hn, heq]

omit [Superblock] in
theorem mem_blocksOf {off n bn : Nat} (h : bn ∈ blocksOf off n) :
    bn < Content.blocksFor (off + n) := by
  by_cases hn : n = 0
  · unfold blocksOf at h
    rw [if_pos hn] at h
    cases h
  · rw [blocksOf_eq hn] at h
    have hle := div_le_blocksFor (Nat.le_add_right off n)
    have hlt := (List.mem_range'_1.mp h).2
    omega

theorem runs_scan {Q : Unit → View → Prop} (hi : v.held i = some c) (hblocks : c.Blocks m)
    (hQ : Q () v) :
    ∀ {bns : List Nat}, (∀ bn, bn ∈ bns → bn < m) → Runs C p (scan p i bns) Q v := by
  intro bns
  induction bns with
  | nil =>
      intro _
      exact hQ
  | cons bn bns ih =>
      intro hlt
      apply Safe.bind
      apply runs_bmap_present hi hblocks (hlt bn List.mem_cons_self)
      exact ih fun bn' hbn' => hlt bn' (List.mem_cons_of_mem bn hbn')

/-- The console gives the inode up, and may find it with other contents. -/
theorem runs_console {Q : Unit → View → Prop} (h : Ready C K n (update held i (some c)) v)
    (htidy : c.Tidy)
    (hQ : ∀ c' v', c'.Tidy → Ready C K n (update held i (some c')) v' → Q () v') :
    Runs C p (console p i) Q v := by
  apply Safe.bind
  apply runs_iunlock h
  · intro c' hc'
    rw [Function.update_self] at hc'
    cases hc'
    exact htidy
  · intro v' h'
    apply runs_ilock h'
    intro c' v'' _ htidy' h''
    rw [Function.update_idem, Function.update_idem] at h''
    exact hQ c' v'' htidy' h''

theorem runs_readi {off size : Nat} {Q : Option Nat → View → Prop}
    (h : Ready C K n (update held i (some c)) v) (htidy : c.Tidy)
    (hQ : ∀ r c' v', c'.Tidy → Ready C K n (update held i (some c')) v' → Q r v') :
    Runs C p (readi p i off size) Q v := by
  apply Safe.bind
  apply runs_fetch
  intro s _ hv
  split
  · split
    · exact hQ none c v htidy h
    · apply Safe.bind
      apply runs_console h htidy
      intro c' v' htidy' h'
      exact hQ _ c' v' htidy' h'
  · split
    · exact hQ none c v htidy h
    · rename_i hoff
      rw [size_of_held hv h.held_update] at hoff ⊢
      apply Safe.bind
      apply runs_scan h.held_update htidy.blocks
      · exact hQ _ c v htidy h
      · intro bn hbn
        have hlt := mem_blocksOf hbn
        have hmin := Nat.min_le_right size (c.size - off)
        exact Nat.lt_of_lt_of_le hlt (blocksFor_mono (by omega))

/-- The loop of `writei`: the file gets the blocks it lacks. -/
theorem runs_writeBlocks {data : Data} {note : State P → State P} {Q : Unit → View → Prop}
    (hnote : ∀ s, Same s (note s)) (hmap : Bitmap K) :
    ∀ {len a m : Nat} {v : View} {c : Content}, v.held i = some c → v.hand = none → c.Blocks m →
      a ≤ m → a + len ≤ MAXFILE → RoomInd C c K (n + len) v.logged →
      (∀ c' Z, c'.type = c.type → c'.size = c.size → c'.Blocks (max m (a + len)) → Room C K n Z →
        Q () { v.hold i c' with logged := Z }) →
      Runs C p (writeBlocks p i data note (List.range' a len)) Q v := by
  intro len
  induction len with
  | zero =>
      intro a m v c hi _ hblocks ha _ hroom hQ
      have hdone := hQ c v.logged rfl rfl
        (by rw [Nat.add_zero, Nat.max_eq_left ha]; exact hblocks) hroom.room
      rw [View.hold_self hi] at hdone
      exact hdone
  | succ len ih =>
      intro a m v c hi hhand hblocks ha hmax hroom hQ
      have hlt : a < MAXFILE := by omega
      -- the block `b` is there, perhaps only since now
      have hstore : ∀ (b : Nat) (c₁ : Content) (m₁ : Nat) (Z : Finset Nat), c₁.type = c.type →
          c₁.size = c.size → c₁.Blocks m₁ → a < m₁ →
          max m₁ (a + 1 + len) = max m (a + (len + 1)) → c₁.slot a = b →
          RoomInd C c₁ (insert b K) (n + len) Z →
          Runs C p (do
            step fun s => note (s.store p i a b data)
            writeBlocks p i data note (List.range' (a + 1) len)) Q
            { v.hold i c₁ with logged := Z } := by
        intro b c₁ m₁ Z htype hsize hblocks₁ ha₁ hm₁ hslot hroom₁
        apply Safe.bind
        apply runs_step
        intro s hs hv
        have hi₁ : (s.view p).held i = some c₁ := by
          rw [hv]
          exact Function.update_self _ _ _
        have hlogged : s.logged p = Z := congrArg View.logged hv
        have hroom₂ := hroom₁.log (.inl rfl)
        have hhas : c₁.Has a b := by
          rw [← hslot]
          exact hblocks₁.has ha₁
        obtain ⟨hkeeps, hview⟩ := hs.store a data hi₁ hhas hlt fun hC => by
          rw [hlogged]
          exact hroom₂.room.card hC
        have hsame := hnote (s.store p i a b data)
        refine ⟨hkeeps.same hsame, ?_⟩
        rw [hsame.view, hview, hv]
        have hrest := ih (a := a + 1) (m := m₁)
          (v := { v.hold i c₁ with logged := insert b Z }) (c := c₁) (Function.update_self _ _ _)
          hhand hblocks₁ ha₁ (by omega) (hroom₂.mono fun _ hb => .inr hb)
        apply hrest
        intro c' Z' htype' hsize' hblocks' hroom'
        rw [View.hold_hold]
        rw [hm₁] at hblocks'
        exact hQ c' Z' (htype'.trans htype) (hsize'.trans hsize) hblocks' hroom'
      rw [List.range'_succ]
      apply Safe.bind
      by_cases hpresent : a < m
      · apply runs_bmap_present hi hblocks hpresent
        have hdone := hstore (c.slot a) c m v.logged rfl rfl hblocks hpresent (by omega) rfl
          (hroom.reserve _)
        rw [View.hold_self hi] at hdone
        exact hdone
      · have heq : a = m := by omega
        subst heq
        apply runs_bmap_absent hi hhand hblocks hlt hmap hroom
        intro b c' Z htype hsize hblocks' hslot hroom'
        exact hstore b c' (a + 1) Z htype hsize hblocks' (Nat.lt_succ_self a) (by omega) hslot
          hroom'

/-- The end of `writei`: the size is set when the file has grown. -/
theorem runs_grow {off size m : Nat} {Q : Unit → View → Prop} (hi : v.held i = some c)
    (hoff : off ≤ c.size)
    (hblocks : c.Blocks m)
    (hm : m = max (Content.blocksFor c.size) (Content.blocksFor (off + size)))
    (htidy : c.type = .free → c.size = 0) (hinode : IBLOCK i ∈ K) (hroom : Room C K n v.logged)
    (hQ : ∀ c' Z, c'.Tidy → Room C K n Z → Q () { v.hold i c' with logged := Z }) :
    Runs C p
      (if 0 < size ∧ c.size < off + size then
        iupdate p i fun ip => { ip with size := off + size }
      else pure ()) Q v := by
  by_cases hgrow : 0 < size ∧ c.size < off + size
  · have hle := blocksFor_mono (Nat.le_of_lt hgrow.2)
    rw [if_pos hgrow]
    apply runs_step
    intro s hs hv
    have hroom' := hroom.log hinode
    have htype : c.type ≠ .free := by
      rw [← hv] at hi
      obtain ⟨hbusy, rfl⟩ := State.held_iff.mp hi
      exact hs.not_free hbusy
    have hlogged : s.logged p = v.logged := congrArg View.logged hv
    obtain ⟨hkeeps, hview⟩ := hs.iupdate (fun ip => { ip with size := off + size })
      (fun _ => off + size) (c := c) (by rw [hv]; exact hi) (fun _ => rfl) (fun _ => rfl)
      (fun _ => rfl) (by rw [hlogged]; exact fun hC => hroom'.card hC)
    refine ⟨hkeeps, ?_⟩
    rw [hview, hv]
    apply hQ _ _ _ hroom'
    constructor
    · show Content.Blocks { c with size := off + size } (Content.blocksFor (off + size))
      rw [← Nat.max_eq_right hle, ← hm]
      exact ⟨hblocks.gone, hblocks.le, hblocks.data, hblocks.indirect⟩
    · exact fun hfree => absurd hfree htype
  · rw [if_neg hgrow]
    apply runs_pure
    have hle : off + size ≤ c.size := by omega
    rw [Nat.max_eq_left (blocksFor_mono hle)] at hm
    rw [hm] at hblocks
    have hdone := hQ c v.logged ⟨hblocks, htidy⟩ hroom
    rw [View.hold_self hi] at hdone
    exact hdone

/-- `writei` to at most `l` blocks. -/
theorem runs_writei {off size l : Nat} {data : Data} {note : State P → State P}
    {Q : Option Nat → View → Prop} (hl : (blocksOf off size).length ≤ l)
    (h : Ready C K (n + l + 1) (update held i (some c)) v) (htidy : c.Tidy) (hmap : Bitmap K)
    (hinode : IBLOCK i ∈ K) (hnote : ∀ s, Same s (note s))
    (hQ : ∀ r c' v', c'.Tidy → Ready C K n (update held i (some c')) v' → Q r v') :
    Runs C p (writei p i off size data note) Q v := by
  apply Safe.bind
  apply runs_fetch
  intro s _ hv
  split
  · split
    · exact hQ none c v htidy (h.less (by omega))
    · apply Safe.bind
      apply runs_console h htidy
      intro c' v' htidy' h'
      exact hQ _ c' v' htidy' (h'.less (by omega))
  · rw [size_of_held hv h.held_update]
    split
    · exact hQ none c v htidy (h.less (by omega))
    · rename_i hoff
      split
      · exact hQ none c v htidy (h.less (by omega))
      · rename_i hmax
        have hfinish : ∀ c' Z, c'.size = c.size → c'.type = c.type →
            c'.Blocks (max (Content.blocksFor c.size) (Content.blocksFor (off + size))) →
            Room C K n Z →
            Runs C p (do
              (if 0 < size ∧ c.size < off + size then
                iupdate p i fun ip => { ip with size := off + size }
              else pure ())
              pure (some size)) Q { v.hold i c' with logged := Z } := by
          intro c' Z hsize htype hblocks hroom
          apply Safe.bind
          rw [← hsize]
          apply runs_grow (v := { v.hold i c' with logged := Z }) (Function.update_self _ _ _)
            (by omega) hblocks (by rw [hsize]) (by rw [htype, hsize]; exact htidy.free) hinode hroom
          intro c'' Z' htidy' hroom'
          rw [View.hold_hold]
          apply hQ _ c'' _ htidy'
          constructor
          · show update v.held i (some c'') = _
            rw [h.held, Function.update_idem]
          · exact h.hand
          · exact hroom'
        apply Safe.bind
        by_cases hsize : size = 0
        · subst hsize
          have hle : Content.blocksFor (off + 0) ≤ Content.blocksFor c.size :=
            blocksFor_mono (by omega)
          have hdone := hfinish c v.logged rfl rfl
            (by rw [Nat.max_eq_left hle]; exact htidy.blocks) (h.room.less (by omega))
          rw [View.hold_self h.held_update] at hdone
          exact hdone
        · rw [blocksOf_eq hsize] at hl ⊢
          rw [List.length_range'] at hl
          have hle : off / BSIZE ≤ Content.blocksFor (off + size) :=
            div_le_blocksFor (Nat.le_add_right off size)
          have hcount : Content.blocksFor (off + size) ≤ MAXFILE := by
            have hmax : ¬ 140 * 512 < off + size := hmax
            show (off + size + (512 - 1)) / 512 ≤ 140
            omega
          have hsum : off / BSIZE + (Content.blocksFor (off + size) - off / BSIZE) =
            Content.blocksFor (off + size) := by omega
          have hroom :
              RoomInd C c K (n + (Content.blocksFor (off + size) - off / BSIZE)) v.logged :=
            Room.ind (h.room.less (by omega))
          apply runs_writeBlocks hnote hmap h.held_update h.hand htidy.blocks
            (div_le_blocksFor (by omega)) (by omega) hroom
          intro c' Z htype hsize' hblocks hroom'
          rw [hsum] at hblocks
          exact hfinish c' Z hsize' htype hblocks hroom'

end OsWork.Ports.FsThreads

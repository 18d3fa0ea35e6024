import OsWork.Ports.FsThreads
import OsWork.Verified.Ownership
import Mathlib.Data.Finset.Card
import Mathlib.Tactic.Common

/-!
# Who owns a block, in `fs.c`

A block that the bit map has in use is in one place: in a slot of an inode (a direct
address, the indirect block, a word of the indirect block), or in the hand of a
process that has just got it from `balloc`.  `BlockInv` says so, and that an inode
nobody works on has the blocks that its size asks for.  It says also, when `C` holds,
that no process logs more than `MAXOPBLOCKS` blocks in one transaction.

What a process knows while others run is its `view`: the contents of the inodes it
has locked and read, the block in its hand, and what it has logged.  This module has
one lemma for every change of the state in `FsThreads`: what it does to the
invariant and to the views (`Keeps`).
-/

namespace OsWork.Ports.FsThreads

open OsWork.Verified.Interleaving
open OsWork.Verified.Ownership (Exact)
open FsDirectories (FileType Dirent)
open Function (update)

/-- The numbers that `omega` is to know. -/
theorem limits : NDIRECT = 12 ∧ NINDIRECT = 128 ∧ MAXFILE = 140 ∧ BSIZE = 512 :=
  ⟨rfl, rfl, rfl, rfl⟩

/-! ## Slots -/

/-- What of an inode says which blocks it has. -/
structure Content where
  type : FileType
  size : Nat
  addrs : Nat → Nat
  /-- the words of the indirect block -/
  word : Nat → Nat
  /-- the slots whose blocks are freed -/
  gone : Nat → Bool

namespace Content

/-- The blocks of the contents are the slots below `MAXFILE`; the indirect block is the
slot `MAXFILE`. -/
def slot (c : Content) (k : Nat) : Nat :=
  if k < NDIRECT then c.addrs k
  else if k < MAXFILE then c.word (k - NDIRECT)
  else c.addrs NDIRECT

def Has (c : Content) (k b : Nat) : Prop :=
  k ≤ MAXFILE ∧ c.gone k = false ∧ c.slot k = b ∧ b ≠ 0

/-- The slot of `addrs[k]`. -/
def index (k : Nat) : Nat := if k < NDIRECT then k else MAXFILE

def setAddr (c : Content) (k b : Nat) : Content :=
  { c with
    addrs := update c.addrs k b
    word := if k = NDIRECT then fun _ => 0 else c.word }

def setWord (c : Content) (k b : Nat) : Content :=
  { c with word := update c.word k b }

def unmark (c : Content) (k : Nat) : Content :=
  { c with
    gone := update c.gone k true
    word := if k = MAXFILE then fun _ => 0 else c.word }

/-- The inode has its first `m` blocks, and no others. -/
structure Blocks (c : Content) (m : Nat) : Prop where
  gone : ∀ k, c.gone k = false
  le : m ≤ MAXFILE
  data : ∀ k, k < MAXFILE → (c.slot k ≠ 0 ↔ k < m)
  indirect : c.addrs NDIRECT ≠ 0 ↔ NDIRECT < m

/-- The number of blocks that `size` bytes take. -/
def blocksFor (size : Nat) : Nat := (size + (BSIZE - 1)) / BSIZE

/-- The inode has the blocks that its size asks for. -/
structure Tidy (c : Content) : Prop where
  blocks : c.Blocks (blocksFor c.size)
  free : c.type = .free → c.size = 0

theorem slot_direct {c : Content} {k : Nat} (hk : k < NDIRECT) : c.slot k = c.addrs k :=
  if_pos hk

theorem slot_word {c : Content} {k : Nat} (hk : ¬ k < NDIRECT) (hlt : k < MAXFILE) :
    c.slot k = c.word (k - NDIRECT) := by
  unfold slot
  rw [if_neg hk, if_pos hlt]

theorem slot_last {c : Content} : c.slot MAXFILE = c.addrs NDIRECT := rfl

/-- A slot is a direct address, a word of the indirect block, or the indirect block. -/
theorem slot_cases {k : Nat} (hk : k ≤ MAXFILE) :
    k < NDIRECT ∨ ¬ k < NDIRECT ∧ k < MAXFILE ∨ k = MAXFILE := by
  by_cases hlt : k < NDIRECT
  · exact .inl hlt
  · rcases Nat.lt_or_eq_of_le hk with hk | hk
    · exact .inr (.inl ⟨hlt, hk⟩)
    · exact .inr (.inr hk)

theorem index_direct {k : Nat} (hk : k < NDIRECT) : index k = k := if_pos hk

theorem index_last : index NDIRECT = MAXFILE := rfl

theorem slot_setAddr {c : Content} {k b j : Nat} (hk : k ≤ NDIRECT) (hj : j ≤ MAXFILE) :
    (c.setAddr k b).slot j =
      if j = index k then b
      else if k = NDIRECT ∧ ¬ j < NDIRECT ∧ j < MAXFILE then 0
      else c.slot j := by
  have hlimits := limits
  rcases Nat.lt_or_eq_of_le hk with hlt | rfl
  · have hnot : ¬ (k = NDIRECT ∧ ¬ j < NDIRECT ∧ j < MAXFILE) := fun h => Nat.ne_of_lt hlt h.1
    rw [index_direct hlt, if_neg hnot]
    have hword : (c.setAddr k b).word = c.word := if_neg (Nat.ne_of_lt hlt)
    have haddrs : ∀ j, j ≠ k → (c.setAddr k b).addrs j = c.addrs j := fun j hj =>
      Function.update_of_ne hj _ _
    rcases slot_cases hj with hj | ⟨hj, hj'⟩ | rfl
    · rw [slot_direct hj]
      by_cases heq : j = k
      · rw [if_pos heq, heq]
        exact Function.update_self _ _ _
      · rw [if_neg heq, slot_direct hj, haddrs j heq]
    · rw [if_neg (by omega), slot_word hj hj', slot_word hj hj', hword]
    · rw [if_neg (by omega), slot_last, slot_last, haddrs _ (by omega)]
  · rw [index_last]
    rcases slot_cases hj with hj | ⟨hj, hj'⟩ | rfl
    · rw [if_neg (by omega), if_neg (fun h => h.2.1 hj), slot_direct hj, slot_direct hj]
      exact Function.update_of_ne (Nat.ne_of_lt hj) _ _
    · rw [if_neg (by omega), if_pos ⟨rfl, hj, hj'⟩, slot_word hj hj']
      rfl
    · rw [if_pos rfl, slot_last]
      exact Function.update_self NDIRECT b c.addrs

theorem slot_setWord {c : Content} {k b j : Nat} (hk : k < NINDIRECT) (hj : j ≤ MAXFILE) :
    (c.setWord k b).slot j = if j = NDIRECT + k then b else c.slot j := by
  have hlimits := limits
  rcases slot_cases hj with hj | ⟨hj, hj'⟩ | rfl
  · rw [if_neg (by omega), slot_direct hj, slot_direct hj]
    rfl
  · rw [slot_word hj hj', slot_word hj hj']
    by_cases heq : j = NDIRECT + k
    · rw [if_pos heq, heq, Nat.add_sub_cancel_left]
      exact Function.update_self _ _ _
    · rw [if_neg heq]
      exact Function.update_of_ne (by omega) _ _
  · rw [if_neg (by omega)]
    rfl

theorem slot_unmark {c : Content} {k j : Nat} (hj : j ≤ MAXFILE) :
    (c.unmark k).slot j =
      if k = MAXFILE ∧ ¬ j < NDIRECT ∧ j < MAXFILE then 0 else c.slot j := by
  have hlimits := limits
  rcases slot_cases hj with hj | ⟨hj, hj'⟩ | rfl
  · rw [if_neg (fun h => h.2.1 hj), slot_direct hj, slot_direct hj]
    rfl
  · rw [slot_word hj hj', slot_word hj hj']
    by_cases hk : k = MAXFILE
    · rw [if_pos ⟨hk, hj, hj'⟩]
      show (if k = MAXFILE then fun _ => 0 else c.word) _ = 0
      rw [if_pos hk]
    · rw [if_neg (fun h => hk h.1)]
      show (if k = MAXFILE then fun _ => 0 else c.word) _ = _
      rw [if_neg hk]
  · rw [if_neg (by omega)]
    rfl

/-- A block comes into an empty slot of `addrs`. -/
theorem has_setAddr {c : Content} {k b j r : Nat} (hk : k ≤ NDIRECT) (hb : b ≠ 0)
    (hempty : c.addrs k = 0) (hgone : c.gone (index k) = false)
    (hword : c.addrs NDIRECT = 0 → c.word = fun _ => 0) :
    (c.setAddr k b).Has j r ↔ c.Has j r ∨ j = index k ∧ r = b := by
  have hlimits := limits
  have hslot : c.slot (index k) = 0 := by
    rcases Nat.lt_or_eq_of_le hk with hlt | rfl
    · rw [index_direct hlt, slot_direct hlt]
      exact hempty
    · exact hempty
  have hle : index k ≤ MAXFILE := by
    unfold index
    split
    · omega
    · exact Nat.le_refl _
  unfold Has
  show j ≤ MAXFILE ∧ c.gone j = false ∧ _ ↔ _
  by_cases hj : j ≤ MAXFILE
  · rw [slot_setAddr hk hj]
    by_cases heq : j = index k
    · rw [if_pos heq, heq, hslot]
      constructor
      · rintro ⟨-, -, hr, -⟩
        exact .inr ⟨rfl, hr.symm⟩
      · rintro (⟨-, -, hr, hne⟩ | ⟨-, hr⟩)
        · exact absurd hr.symm hne
        · exact ⟨hle, hgone, hr.symm, by rw [hr]; exact hb⟩
    · rw [if_neg heq]
      simp only [heq, false_and, or_false]
      by_cases hind : k = NDIRECT ∧ ¬ j < NDIRECT ∧ j < MAXFILE
      · rw [if_pos hind, slot_word hind.2.1 hind.2.2, hword (by rw [← hind.1]; exact hempty)]
      · rw [if_neg hind]
  · constructor
    · intro h
      exact absurd h.1 hj
    · rintro (h | h)
      · exact absurd h.1 hj
      · exact absurd (h.1 ▸ hle) hj

/-- An address is cleared whose block is freed. -/
theorem has_clearAddr {c : Content} {k j r : Nat} (hk : k ≤ NDIRECT)
    (hgone : c.gone (index k) = true) (hword : c.gone MAXFILE = true → c.word = fun _ => 0) :
    (c.setAddr k 0).Has j r ↔ c.Has j r := by
  unfold Has
  show j ≤ MAXFILE ∧ c.gone j = false ∧ _ ↔ _
  by_cases hj : j ≤ MAXFILE
  · rw [slot_setAddr hk hj]
    by_cases heq : j = index k
    · rw [heq, hgone]
      simp only [Bool.true_eq_false, false_and, and_false]
    · rw [if_neg heq]
      by_cases hind : k = NDIRECT ∧ ¬ j < NDIRECT ∧ j < MAXFILE
      · rw [hind.1] at hgone
        rw [if_pos hind, slot_word hind.2.1 hind.2.2, hword hgone]
      · rw [if_neg hind]
  · constructor
    · intro h
      exact absurd h.1 hj
    · intro h
      exact absurd h.1 hj

/-- A block comes into an empty slot of the indirect block. -/
theorem has_setWord {c : Content} {k b j r : Nat} (hk : k < NINDIRECT) (hb : b ≠ 0)
    (hempty : c.word k = 0) (hgone : c.gone (NDIRECT + k) = false) :
    (c.setWord k b).Has j r ↔ c.Has j r ∨ j = NDIRECT + k ∧ r = b := by
  have hlimits := limits
  have hslot : c.slot (NDIRECT + k) = 0 := by
    rw [slot_word (by omega) (by omega), Nat.add_sub_cancel_left]
    exact hempty
  unfold Has
  show j ≤ MAXFILE ∧ c.gone j = false ∧ _ ↔ _
  by_cases hj : j ≤ MAXFILE
  · rw [slot_setWord hk hj]
    by_cases heq : j = NDIRECT + k
    · rw [if_pos heq, heq, hslot]
      constructor
      · rintro ⟨-, -, hr, -⟩
        exact .inr ⟨rfl, hr.symm⟩
      · rintro (⟨-, -, hr, hne⟩ | ⟨-, hr⟩)
        · exact absurd hr.symm hne
        · exact ⟨by omega, hgone, hr.symm, by rw [hr]; exact hb⟩
    · rw [if_neg heq]
      simp only [heq, false_and, or_false]
  · constructor
    · intro h
      exact absurd h.1 hj
    · rintro (h | h)
      · exact absurd h.1 hj
      · exact absurd h.1 (by omega)

/-- The block of a slot is freed.  When it is the indirect block, no block that it refers
to may be left. -/
theorem has_unmark {c : Content} {k j r : Nat}
    (hlast : k = MAXFILE → ∀ l, ¬ l < NDIRECT → l < MAXFILE → c.gone l = true ∨ c.slot l = 0) :
    (c.unmark k).Has j r ↔ j ≠ k ∧ c.Has j r := by
  unfold Has
  show j ≤ MAXFILE ∧ update c.gone k true j = false ∧ _ ↔ _
  by_cases hjk : j = k
  · rw [hjk]
    simp only [Function.update_self, Bool.true_eq_false, false_and, and_false, ne_eq,
      not_true_eq_false]
  · rw [Function.update_of_ne hjk]
    by_cases hj : j ≤ MAXFILE
    · rw [slot_unmark hj]
      by_cases hind : k = MAXFILE ∧ ¬ j < NDIRECT ∧ j < MAXFILE
      · rw [if_pos hind]
        constructor
        · rintro ⟨-, -, hr, hne⟩
          exact absurd hr.symm hne
        · rintro ⟨-, -, hlive, hr, hne⟩
          rcases hlast hind.1 j hind.2.1 hind.2.2 with hdead | hdead
          · rw [hlive] at hdead
            cases hdead
          · exact absurd (hdead.symm.trans hr).symm hne
      · rw [if_neg hind]
        exact ⟨fun h => ⟨hjk, h⟩, And.right⟩
    · constructor
      · intro h
        exact absurd h.1 hj
      · intro h
        exact absurd h.2.1 hj

/-- An inode without addresses has no blocks. -/
theorem blocks_zero {c : Content} (haddrs : ∀ k, k ≤ NDIRECT → c.addrs k = 0)
    (hword : c.word = fun _ => 0) (hgone : ∀ k, c.gone k = false) : c.Blocks 0 where
  gone := hgone
  le := Nat.zero_le _
  data k hk := by
    have hslot : c.slot k = 0 := by
      rcases slot_cases (Nat.le_of_lt hk) with h | ⟨h, h'⟩ | rfl
      · rw [slot_direct h]
        exact haddrs k (Nat.le_of_lt h)
      · rw [slot_word h h', hword]
      · exact absurd hk (Nat.lt_irrefl _)
    rw [hslot]
    exact ⟨fun h => absurd rfl h, fun h => absurd h (Nat.not_lt_zero k)⟩
  indirect := ⟨fun h => absurd (haddrs NDIRECT (Nat.le_refl _)) h, fun h => by omega⟩

/-- A block more in the direct addresses. -/
theorem Blocks.setAddr {c : Content} {m b : Nat} (h : c.Blocks m) (hm : m < NDIRECT)
    (hb : b ≠ 0) : (c.setAddr m b).Blocks (m + 1) where
  gone := h.gone
  le := by
    have hlimits := limits
    omega
  data k hk := by
    rw [slot_setAddr (Nat.le_of_lt hm) (Nat.le_of_lt hk), index_direct hm,
      if_neg (fun hind : m = NDIRECT ∧ _ => Nat.ne_of_lt hm hind.1)]
    by_cases heq : k = m
    · rw [if_pos heq]
      exact ⟨fun _ => by omega, fun _ => hb⟩
    · rw [if_neg heq, h.data k hk]
      omega
  indirect := by
    have haddr : (c.setAddr m b).addrs NDIRECT = c.addrs NDIRECT :=
      Function.update_of_ne (Nat.ne_of_gt hm) _ _
    rw [haddr, h.indirect]
    omega

/-- An inode without an indirect block gets one. -/
theorem Blocks.data_setAddr {c : Content} {b : Nat} (h : c.Blocks NDIRECT) {k : Nat}
    (hk : k < MAXFILE) : (c.setAddr NDIRECT b).slot k ≠ 0 ↔ k < NDIRECT := by
  rw [slot_setAddr (Nat.le_refl _) (Nat.le_of_lt hk), index_last, if_neg (Nat.ne_of_lt hk)]
  by_cases hlt : k < NDIRECT
  · rw [if_neg (fun hind : _ ∧ ¬ _ ∧ _ => hind.2.1 hlt)]
    exact h.data k hk
  · rw [if_pos ⟨rfl, hlt, hk⟩]
    exact ⟨fun hne => absurd rfl hne, fun hlt' => absurd hlt' hlt⟩

/-- A block more in the indirect block. -/
theorem blocks_setWord {c : Content} {m b : Nat} (hgone : ∀ k, c.gone k = false)
    (hdata : ∀ k, k < MAXFILE → (c.slot k ≠ 0 ↔ k < m)) (hind : c.addrs NDIRECT ≠ 0)
    (hle : NDIRECT ≤ m) (hm : m < MAXFILE) (hb : b ≠ 0) :
    (c.setWord (m - NDIRECT) b).Blocks (m + 1) where
  gone := hgone
  le := hm
  data k hk := by
    have hlimits := limits
    rw [slot_setWord (by omega) (Nat.le_of_lt hk)]
    by_cases heq : k = m
    · rw [if_pos (by omega)]
      exact ⟨fun _ => by omega, fun _ => hb⟩
    · rw [if_neg (by omega), hdata k hk]
      omega
  indirect := ⟨fun _ => by omega, fun _ => hind⟩

theorem Blocks.has {c : Content} {m k : Nat} (h : c.Blocks m) (hk : k < m) :
    c.Has k (c.slot k) := by
  have hlt : k < MAXFILE := Nat.lt_of_lt_of_le hk h.le
  exact ⟨Nat.le_of_lt hlt, h.gone k, rfl, (h.data k hlt).mpr hk⟩

theorem Blocks.slot_zero {c : Content} {m k : Nat} (h : c.Blocks m) (hm : m ≤ k)
    (hk : k < MAXFILE) : c.slot k = 0 := by
  by_contra hne
  exact Nat.not_lt_of_le hm ((h.data k hk).mp hne)

theorem Blocks.not_has {c : Content} (h : c.Blocks 0) (k r : Nat) : ¬ c.Has k r := by
  rintro ⟨hk, -, hr, hne⟩
  rcases Nat.lt_or_eq_of_le hk with hlt | rfl
  · have hslot := (h.data k hlt).mp (by rw [hr]; exact hne)
    exact Nat.not_lt_zero k hslot
  · have hind := h.indirect.mp (by rw [← slot_last, hr]; exact hne)
    exact Nat.not_lt_zero _ hind

theorem not_has_of_addrs {c : Content} (haddrs : ∀ k, k ≤ NDIRECT → c.addrs k = 0)
    (hword : c.word = fun _ => 0) (k r : Nat) : ¬ c.Has k r := by
  have hblocks := blocks_zero (c := { c with gone := fun _ => false }) haddrs hword fun _ => rfl
  rintro ⟨hk, -, hr⟩
  exact hblocks.not_has k r ⟨hk, rfl, hr⟩

end Content

/-! ## The invariant -/

section Invariant

variable {P : Type}

/-- What the inode says, and its indirect block as long as it has one. -/
def State.content (s : State P) (i : Nat) : Content where
  type := (s.inode i).type
  size := (s.inode i).size
  addrs := (s.inode i).addrs
  word :=
    if (s.inode i).addrs NDIRECT ≠ 0 ∧ s.gone i MAXFILE = false then
      s.words ((s.inode i).addrs NDIRECT)
    else fun _ => 0
  gone := s.gone i

theorem State.content_word_zero {s : State P} {i : Nat}
    (h : (s.content i).addrs NDIRECT = 0) : (s.content i).word = fun _ => 0 :=
  if_neg fun hboth => hboth.1 h

theorem State.content_word_gone {s : State P} {i : Nat}
    (h : (s.content i).gone MAXFILE = true) : (s.content i).word = fun _ => 0 := by
  apply if_neg
  intro hboth
  have hgone : s.gone i MAXFILE = true := h
  rw [hgone] at hboth
  cases hboth.2

theorem State.content_word {s : State P} {i : Nat} (h : (s.content i).addrs NDIRECT ≠ 0)
    (hgone : (s.content i).gone MAXFILE = false) :
    (s.content i).word = s.words ((s.content i).addrs NDIRECT) :=
  if_pos ⟨h, hgone⟩

/-- Where a block may be. -/
inductive Place (P : Type)
  | slot (i k : Nat)
  | hand (p : P)

def State.Holds (s : State P) : Place P → Nat → Prop
  | .slot i k, b => (s.content i).Has k b
  | .hand p, b => s.hand p = some b

/-- What a process knows of the blocks. -/
structure View where
  locks : Nat → Prop
  held : Nat → Option Content
  hand : Option (Nat × (Nat → Nat))
  logged : Finset Nat

variable [DecidableEq P]

def State.view (p : P) (s : State P) : View where
  locks i := s.locked i = some p
  held i := if s.busy i = some p then some (s.content i) else none
  hand := (s.hand p).map fun b => (b, s.words b)
  logged := s.logged p

variable {s t : State P} {p q : P} {i b : Nat} {c : Content}

theorem State.held_iff : (s.view p).held i = some c ↔ s.busy i = some p ∧ s.content i = c := by
  show (if s.busy i = some p then some (s.content i) else none) = some c ↔ _
  by_cases h : s.busy i = some p
  · rw [if_pos h, Option.some.injEq]
    exact ⟨fun hc => ⟨h, hc⟩, And.right⟩
  · rw [if_neg h]
    exact ⟨fun hc => (nomatch hc), fun hc => absurd hc.1 h⟩

theorem State.hand_iff {w : Nat → Nat} :
    (s.view p).hand = some (b, w) ↔ s.hand p = some b ∧ s.words b = w := by
  show (s.hand p).map (fun b => (b, s.words b)) = _ ↔ _
  cases s.hand p with
  | none => exact ⟨fun h => (nomatch h), fun h => (nomatch h.1)⟩
  | some b' =>
      simp only [Option.map_some, Option.some.injEq, Prod.mk.injEq]
      constructor
      · rintro ⟨rfl, hw⟩
        exact ⟨rfl, hw⟩
      · rintro ⟨rfl, hw⟩
        exact ⟨rfl, hw⟩

/-- What a process sees is the same when the things it sees are. -/
theorem State.view_eq (hlocked : ∀ i, t.locked i = some q ↔ s.locked i = some q)
    (hbusy : ∀ i, t.busy i = some q ↔ s.busy i = some q)
    (hcontent : ∀ i, s.busy i = some q → t.content i = s.content i)
    (hhand : t.hand q = s.hand q) (hwords : ∀ b, s.hand q = some b → t.words b = s.words b)
    (hlogged : t.logged q = s.logged q) : t.view q = s.view q := by
  unfold State.view
  congr 1
  · funext i
    exact propext (hlocked i)
  · funext i
    by_cases h : s.busy i = some q
    · rw [if_pos h, if_pos ((hbusy i).mpr h), hcontent i h]
    · rw [if_neg h, if_neg (fun h' => h ((hbusy i).mp h'))]
  · rw [hhand]
    cases hb : s.hand q with
    | none => rfl
    | some b => rw [Option.map_some, Option.map_some, hwords b hb]

/-! ## Changes that the blocks do not see -/

/-- Nothing has changed that the invariant or a view is about; copies in memory may have
become invalid. -/
structure Same (s t : State P) : Prop where
  inode : ∀ i, (t.inode i).type = (s.inode i).type
  content : ∀ i, t.content i = s.content i
  words : t.words = s.words
  used : t.used = s.used
  locked : t.locked = s.locked
  busy : t.busy = s.busy
  hand : t.hand = s.hand
  logged : t.logged = s.logged
  valid : ∀ i, t.valid i = true → s.valid i = true

omit [DecidableEq P] in
theorem Same.holds (h : Same s t) (x : Place P) (b : Nat) : t.Holds x b ↔ s.Holds x b := by
  cases x with
  | slot i k =>
      show (t.content i).Has k b ↔ _
      rw [h.content]
      exact Iff.rfl
  | hand p =>
      show t.hand p = some b ↔ _
      rw [h.hand]
      exact Iff.rfl

theorem Same.view (h : Same s t) (q : P) : t.view q = s.view q := by
  apply State.view_eq
  · intro i
    rw [h.locked]
  · intro i
    rw [h.busy]
  · intro i _
    exact h.content i
  · rw [h.hand]
  · intro b _
    rw [h.words]
  · rw [h.logged]

variable [Superblock] {C : Prop}

def IsData (b : Nat) : Prop := Superblock.datastart ≤ b ∧ b < Superblock.size

def State.InUse (s : State P) (b : Nat) : Prop := IsData b ∧ s.used b = true

/-- `C` is the condition under which transactions are small. -/
structure BlockInv (C : Prop) (s : State P) : Prop where
  exact : Exact s.InUse s.Holds
  low : ∀ b, b < Superblock.datastart → s.used b = true
  start : 0 < Superblock.datastart
  busy : ∀ i p, s.busy i = some p →
    s.locked i = some p ∧ (s.inode i).type ≠ .free ∧ i < Superblock.ninodes
  valid : ∀ i, s.valid i = true → (s.inode i).type ≠ .free ∧ i < Superblock.ninodes
  tidy : ∀ i, s.busy i = none → (s.content i).Tidy
  logged : C → ∀ p, (s.logged p).card ≤ MAXOPBLOCKS

/-- The change keeps the invariant, and no view but that of `p` changes. -/
structure Keeps (C : Prop) (p : P) (s t : State P) : Prop where
  inv : BlockInv C t
  other : ∀ q, q ≠ p → t.view q = s.view q

omit [DecidableEq P] in
theorem Same.inv (h : Same s t) (hs : BlockInv C s) : BlockInv C t where
  exact := by
    apply hs.exact.congr
    · intro b
      unfold State.InUse
      rw [h.used]
    · exact h.holds
  low b hb := by
    rw [h.used]
    exact hs.low b hb
  start := hs.start
  busy i p hp := by
    rw [h.busy] at hp
    rw [h.locked, h.inode]
    exact hs.busy i p hp
  valid i hi := by
    rw [h.inode]
    exact hs.valid i (h.valid i hi)
  tidy i hi := by
    rw [h.busy] at hi
    rw [h.content]
    exact hs.tidy i hi
  logged hC p := by
    rw [h.logged]
    exact hs.logged hC p

theorem Same.keeps (h : Same s t) (hs : BlockInv C s) : Keeps C p s t where
  inv := h.inv hs
  other q _ := h.view q

theorem Keeps.same {u : State P} (h : Keeps C p s t) (htu : Same t u) : Keeps C p s u where
  inv := htu.inv h.inv
  other q hq := (htu.view q).trans (h.other q hq)

/-! ## What a process does to blocks and inodes that it works on -/

/-- Only inodes that `p` has read, its hand and its count of blocks have changed. -/
structure Work (p : P) (s t : State P) : Prop where
  locked : t.locked = s.locked
  busy : t.busy = s.busy
  valid : t.valid = s.valid
  type : ∀ i, (s.inode i).type ≠ .free → (t.inode i).type ≠ .free
  content : ∀ i, s.busy i ≠ some p → t.content i = s.content i
  low : ∀ b, b < Superblock.datastart → t.used b = s.used b
  hand : ∀ q, q ≠ p → t.hand q = s.hand q
  words : ∀ q b, q ≠ p → s.hand q = some b → t.words b = s.words b
  logged : ∀ q, q ≠ p → t.logged q = s.logged q

theorem Work.keeps (h : Work p s t) (hs : BlockInv C s) (hexact : Exact t.InUse t.Holds)
    (hroom : C → (t.logged p).card ≤ MAXOPBLOCKS) : Keeps C p s t where
  inv :=
    { exact := hexact
      low := by
        intro b hb
        rw [h.low b hb]
        exact hs.low b hb
      start := hs.start
      busy := by
        intro i q hq
        rw [h.busy] at hq
        rw [h.locked]
        obtain ⟨hlocked, htype, hi⟩ := hs.busy i q hq
        exact ⟨hlocked, h.type i htype, hi⟩
      valid := by
        intro i hi
        rw [h.valid] at hi
        obtain ⟨htype, hlt⟩ := hs.valid i hi
        exact ⟨h.type i htype, hlt⟩
      tidy := by
        intro i hi
        rw [h.busy] at hi
        rw [h.content i (by rw [hi]; exact fun heq => nomatch heq)]
        exact hs.tidy i hi
      logged := by
        intro hC q
        by_cases hq : q = p
        · rw [hq]
          exact hroom hC
        · rw [h.logged q hq]
          exact hs.logged hC q }
  other q hq := by
    apply State.view_eq
    · intro i
      rw [h.locked]
    · intro i
      rw [h.busy]
    · intro i hi
      apply h.content i
      rw [hi]
      intro heq
      exact hq (Option.some.inj heq)
    · exact h.hand q hq
    · intro b hb
      exact h.words q b hq hb
    · exact h.logged q hq

theorem BlockInv.busy_of_held (hs : BlockInv C s) (h : (s.view p).held i = none)
    (hlocked : s.locked i = some p) : s.busy i = none := by
  cases hbusy : s.busy i with
  | none => rfl
  | some q =>
      have hq := (hs.busy i q hbusy).1
      rw [hlocked] at hq
      have hheld : (s.view p).held i = some (s.content i) :=
        State.held_iff.mpr ⟨hbusy.trans hq.symm, rfl⟩
      rw [h] at hheld
      cases hheld

omit [DecidableEq P] in
/-- The blocks of different places are different. -/
theorem BlockInv.ne_of_holds {x y : Place P} {b r : Nat} (hs : BlockInv C s)
    (hx : s.Holds x b) (hy : s.Holds y r) (hne : x ≠ y) : b ≠ r := by
  intro heq
  rw [heq] at hx
  exact hne (hs.exact.apart x y r hx hy)

omit [Superblock] [DecidableEq P] in
theorem State.holds_indirect {j : Nat} (h : (s.inode j).addrs NDIRECT ≠ 0)
    (hgone : s.gone j MAXFILE = false) :
    s.Holds (.slot j MAXFILE) ((s.inode j).addrs NDIRECT) :=
  ⟨Nat.le_refl _, hgone, rfl, h⟩

omit [DecidableEq P] in
/-- The contents of an inode depend on no block but its indirect block. -/
theorem BlockInv.content_of_words {x : Place P} {j : Nat} (hs : BlockInv C s)
    (hx : s.Holds x b) (hne : x ≠ .slot j MAXFILE) (hwords : ∀ r, r ≠ b → t.words r = s.words r)
    (hinode : (t.inode j).type = (s.inode j).type ∧ (t.inode j).size = (s.inode j).size ∧
      (t.inode j).addrs = (s.inode j).addrs)
    (hgone : t.gone j = s.gone j) : t.content j = s.content j := by
  unfold State.content
  rw [hinode.1, hinode.2.1, hinode.2.2, hgone]
  congr 1
  by_cases hind : (s.inode j).addrs NDIRECT ≠ 0 ∧ s.gone j MAXFILE = false
  · rw [if_pos hind, if_pos hind]
    apply hwords
    exact hs.ne_of_holds (State.holds_indirect hind.1 hind.2) hx (Ne.symm hne)
  · rw [if_neg hind, if_neg hind]

end Invariant

end OsWork.Ports.FsThreads

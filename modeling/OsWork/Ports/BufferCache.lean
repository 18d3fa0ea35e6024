import OsWork.Verified.Monitor
import OsWork.Verified.LinkedRing
import OsWork.Verified.Counting
import Mathlib.Data.Fintype.Card

/-!
# The buffer cache of `ass5/final_repo`

`bread`, `bwrite` and `brelse` of `bio.c` and the flag of `log_write` of `log.c` as a
monitor with the lock `bcache.lock`, which any number of processes call with buffers
that they have locked.  The sleep lock of a buffer is taken and given up in one step
(`OsWork.Ports.SleepLocks` has the steps in between), and so is a disk request in
`iderw`, which ends with `B_VALID` set and `B_DIRTY` clear.

## Main results

* `cache_consistent` — the list, the blocks and the reference counts, and what
  `bread` returns.
-/

namespace OsWork.Ports.BufferCache

open OsWork.Verified.Monitor OsWork.Verified.Transition OsWork.Verified.LinkedRing
open OsWork.Verified.Counting
open Function (update)

abbrev NBUF : Nat := 30

/-- A buffer, or `bcache.head`. -/
abbrev Node := Option (Fin NBUF)

/-- `struct buf` without the links. -/
structure Buf (P : Type) where
  /-- `B_VALID` -/
  valid : Bool
  /-- `B_DIRTY` -/
  dirty : Bool
  dev : Nat
  blockno : Nat
  /-- the process that has the sleep lock -/
  lock : Option P
  refcnt : Nat

structure Cache (P : Type) where
  buf : Fin NBUF → Buf P
  next : Node → Node
  prev : Node → Node
  /-- the buffer whose reference count counts a process that has not locked it -/
  refers : P → Option (Fin NBUF)

variable {P : Type}

namespace Cache

def setBuf (d : Cache P) (b : Fin NBUF) (v : Buf P) : Cache P :=
  { d with buf := update d.buf b v }

def setNext (d : Cache P) (a z : Node) : Cache P := { d with next := update d.next a z }

def setPrev (d : Cache P) (a z : Node) : Cache P := { d with prev := update d.prev a z }

/-- `b->next = head.next; b->prev = &head; head.next->prev = b; head.next = b` -/
def push (d : Cache P) (b : Fin NBUF) : Cache P :=
  let d := d.setNext (some b) (d.next none)
  let d := d.setPrev (some b) none
  let d := d.setPrev (d.next none) (some b)
  d.setNext none (some b)

/-- `b->next->prev = b->prev; b->prev->next = b->next` -/
def unlink (d : Cache P) (b : Fin NBUF) : Cache P :=
  let d := d.setPrev (d.next (some b)) (d.prev (some b))
  d.setNext (d.prev (some b)) (d.next (some b))

/-- The buffer holds the block. -/
def Holds (d : Cache P) (b : Fin NBUF) (dev blockno : Nat) : Prop :=
  (d.buf b).dev = dev ∧ (d.buf b).blockno = blockno

instance (d : Cache P) (b : Fin NBUF) (dev blockno : Nat) : Decidable (d.Holds b dev blockno) :=
  inferInstanceAs (Decidable (_ ∧ _))

end Cache

/-- `bcache` with `head` linked to itself. -/
def unlinked : Cache P where
  buf _ := { valid := false, dirty := false, dev := 0, blockno := 0, lock := none, refcnt := 0 }
  next _ := none
  prev _ := none
  refers _ := none

/-- `binit` -/
def binit : Cache P := (List.finRange NBUF).foldl Cache.push unlinked

/-- What comes next in the call a process is in. -/
inductive Loc
  | out
  /-- `bget` -/
  | bget (dev blockno : Nat)
  /-- the loop for the cached block, at the node `b` -/
  | find (dev blockno : Nat) (b : Node)
  /-- the loop for a buffer to recycle -/
  | spare (dev blockno : Nat) (b : Node)
  | recycle (dev blockno : Nat) (b : Fin NBUF)
  | found (dev blockno : Nat) (b : Fin NBUF)
  /-- `acquiresleep` -/
  | lock (dev blockno : Nat) (b : Fin NBUF)
  /-- `bread`, after `bget` -/
  | got (dev blockno : Nat) (b : Fin NBUF)
  /-- in `iderw` -/
  | read (dev blockno : Nat) (b : Fin NBUF)
  /-- `bread` returns `b` -/
  | done (dev blockno : Nat) (b : Fin NBUF)
  /-- `bwrite`, in `iderw` -/
  | write (b : Fin NBUF)
  /-- `brelse`, after `releasesleep` -/
  | release (b : Fin NBUF)
  | drop (b : Fin NBUF)
  | relink (b : Fin NBUF)
  | leave
  deriving DecidableEq

inductive Call
  | bread (dev blockno : Nat)
  | bwrite (b : Fin NBUF)
  | logWrite (b : Fin NBUF)
  | brelse (b : Fin NBUF)

/-- The buffer for which a process counts beside the one that has the lock. -/
def Loc.refers : Loc → Option (Fin NBUF)
  | .found _ _ b | .lock _ _ b | .release b | .drop b => some b
  | _ => none

section Code

variable [DecidableEq P]

/-- A store to a buffer, after which `p` refers to `r`. -/
def Cache.put (d : Cache P) (p : P) (b : Fin NBUF) (v : Buf P) (r : Option (Fin NBUF)) : Cache P :=
  { d.setBuf b v with refers := update d.refers p r }

def put (p : P) (d : Cache P) (b : Fin NBUF) (v : Buf P) (y : Loc) :
    Op Unit Empty (Cache P) Loc :=
  .store (d.put p b v y.refers) y

def call (p : P) (c : Call) (d : Cache P) : Option (Op Unit Empty (Cache P) Loc) :=
  match c with
  | .bread dev blockno => some (.acquire () (.bget dev blockno))
  | .bwrite b =>
      if (d.buf b).lock = some p then some (put p d b { d.buf b with dirty := true } (.write b))
      else none
  | .logWrite b =>
      if (d.buf b).lock = some p then some (put p d b { d.buf b with dirty := true } .out)
      else none
  | .brelse b =>
      if (d.buf b).lock = some p then some (put p d b { d.buf b with lock := none } (.release b))
      else none

def code (p : P) (x : Loc) (c : Call) (d : Cache P) (_killed : Bool) :
    Option (Op Unit Empty (Cache P) Loc) :=
  match x with
  | .out => call p c d
  | .bget dev blockno => some (.store d (.find dev blockno (d.next none)))
  | .find dev blockno none => some (.store d (.spare dev blockno (d.prev none)))
  | .find dev blockno (some b) =>
      if d.Holds b dev blockno then
        some (put p d b { d.buf b with refcnt := (d.buf b).refcnt + 1 } (.found dev blockno b))
      else some (.store d (.find dev blockno (d.next (some b))))
  -- `panic("bget: no buffers")`
  | .spare _ _ none => none
  | .spare dev blockno (some b) =>
      if (d.buf b).refcnt = 0 ∧ (d.buf b).dirty = false then
        some (.store d (.recycle dev blockno b))
      else some (.store d (.spare dev blockno (d.prev (some b))))
  | .recycle dev blockno b =>
      some (put p d b
        { d.buf b with dev, blockno, valid := false, dirty := false, refcnt := 1 }
        (.found dev blockno b))
  | .found dev blockno b => some (.release () (.lock dev blockno b))
  | .lock dev blockno b =>
      if (d.buf b).lock = none then
        some (put p d b { d.buf b with lock := some p } (.got dev blockno b))
      else none
  | .got dev blockno b =>
      if (d.buf b).valid then some (.store d (.done dev blockno b))
      else some (.store d (.read dev blockno b))
  | .read dev blockno b =>
      some (put p d b { d.buf b with valid := true, dirty := false } (.done dev blockno b))
  | .done _ _ _ => some (.store d .out)
  | .write b => some (put p d b { d.buf b with valid := true, dirty := false } .out)
  | .release b => some (.acquire () (.drop b))
  | .drop b =>
      some (put p d b { d.buf b with refcnt := (d.buf b).refcnt - 1 } (.relink b))
  | .relink b =>
      if (d.buf b).refcnt = 0 then some (.store ((d.unlink b).push b) .leave)
      else some (.store d .leave)
  | .leave => some (.release () .out)

abbrev CacheState (P : Type) := State P Unit Empty (Cache P) Loc

def cache : System (CacheState P) (Act P Call) := monitor code (fun _ => .out) binit

end Code

/-! ## What is known where -/

/-- `next` and `prev` lead over `l`. -/
structure Listed (d : Cache P) (l : List (Fin NBUF)) : Prop where
  next : Path d.next none l none
  prev : Path d.prev none l.reverse none
  nodup : l.Nodup

section Knows

variable [Fintype P]

/-- The processes that count for the buffer beside the one that has the lock. -/
def referring (d : Cache P) (b : Fin NBUF) : Nat :=
  (Finset.univ.filter fun p => d.refers p = some b).card

/-- Holds at all times. -/
structure Core (d : Cache P) : Prop where
  count : ∀ b, (d.buf b).refcnt = (if (d.buf b).lock.isSome then 1 else 0) + referring d b
  unique : ∀ b c, (d.buf b).dev ≠ 0 → d.Holds c (d.buf b).dev (d.buf b).blockno → b = c

/-- Holds while nobody has `bcache.lock`. -/
structure Ready (d : Cache P) : Prop extends Core d where
  listed : ∃ l, Listed d l ∧ ∀ b, b ∈ l

/-- No buffer holds the block. -/
def Absent (d : Cache P) (dev blockno : Nat) : Prop := ∀ c, ¬ d.Holds c dev blockno

def Loc.Knows (p : P) (d : Cache P) : Loc → Prop
  | .out | .release _ => True
  | .bget _ _ | .drop _ | .relink _ | .leave => Ready d
  | .find dev blockno b => Core d ∧ ∃ l m, Listed d (l ++ m) ∧ (∀ c, c ∈ l ++ m) ∧ b = m.head? ∧
      ∀ c ∈ l, ¬ d.Holds c dev blockno
  | .spare dev blockno _ => Ready d ∧ Absent d dev blockno
  | .recycle dev blockno b => Ready d ∧ Absent d dev blockno ∧ (d.buf b).refcnt = 0 ∧
      (d.buf b).dirty = false
  | .found dev blockno b => Ready d ∧ d.Holds b dev blockno
  | .lock dev blockno b => d.Holds b dev blockno
  | .got dev blockno b | .read dev blockno b => (d.buf b).lock = some p ∧ d.Holds b dev blockno
  | .done dev blockno b => (d.buf b).lock = some p ∧ d.Holds b dev blockno ∧ (d.buf b).valid = true
  | .write b => (d.buf b).lock = some p

/-- The locations with `bcache.lock` held. -/
def Loc.inside : Loc → Prop
  | .bget _ _ | .find _ _ _ | .spare _ _ _ | .recycle _ _ _ | .found _ _ _ | .drop _ | .relink _
  | .leave => True
  | _ => False

def outline : Outline P Unit Empty (Cache P) Loc where
  holds x _ := x.inside
  knows p x d := d.refers p = x.refers ∧ x.Knows p d
  waits _ _ _ _ := False
  inv _ d := Ready d
  guard _ := ()
  idle _ _ := True
  owes _ _ := False

end Knows

/-! ## The list -/

section List

variable {d : Cache P} {b : Fin NBUF} {l m : List (Fin NBUF)}

theorem last_reverse : Verified.LinkedRing.last none l.reverse = l.head? := by
  cases l with
  | nil => rfl
  | cons c l =>
      rw [List.reverse_cons, last_append_cons]
      rfl

theorem Listed.push (h : Listed d l) (hb : b ∉ l) : Listed (d.push b) (b :: l) where
  next := h.next.push hb
  prev := by
    have hhead : update d.next (some b) (d.next none) none = d.next none :=
      Function.update_of_ne (Option.some_ne_none b).symm _ _
    have hstored : Path (update d.prev (some b) none) none l.reverse none :=
      h.prev.update (Option.some_ne_none b) fun hmem => hb (List.mem_reverse.mp hmem)
    rw [List.reverse_cons]
    show Path (update (update d.prev (some b) none)
      (update d.next (some b) (d.next none) none) (some b)) none (l.reverse ++ [b]) none
    rw [hhead, h.next.head, ← last_reverse]
    apply hstored.append (List.nodup_reverse.mpr h.nodup)
      fun hmem => hb (List.mem_reverse.mp hmem)
    exact Function.update_self _ _ _
  nodup := List.nodup_cons.mpr ⟨hb, h.nodup⟩

theorem Listed.unlink (h : Listed d (l ++ b :: m)) : Listed (d.unlink b) (l ++ m) := by
  have hback : (l ++ b :: m).reverse = m.reverse ++ b :: l.reverse := by
    rw [List.reverse_append, List.reverse_cons, List.append_assoc]
    rfl
  have hprev : Path d.prev none (m.reverse ++ b :: l.reverse) none := hback ▸ h.prev
  have hnodup : (m.reverse ++ b :: l.reverse).Nodup := hback ▸ List.nodup_reverse.mpr h.nodup
  have hafter : d.next (some b) = Verified.LinkedRing.last none m.reverse := by
    rw [last_reverse]
    exact (path_append_cons.mp h.next).2.head
  have hbefore : d.prev (some b) = Verified.LinkedRing.last none l := by
    have hhead : d.prev (some b) = l.reverse.head? := (path_append_cons.mp hprev).2.head
    rw [hhead, ← last_reverse, List.reverse_reverse]
  have hne : some b ≠ d.next (some b) := by
    rw [hafter]
    apply Ne.symm
    apply last_ne
    intro hmem
    have hmem : b ∈ m := List.mem_reverse.mp hmem
    exact (List.nodup_cons.mp (List.nodup_append.mp h.nodup).2.1).1 hmem
  have hkeep : update d.prev (d.next (some b)) (d.prev (some b)) (some b) = d.prev (some b) :=
    Function.update_of_ne hne _ _
  exact
    { next := by
        show Path (update d.next (update d.prev (d.next (some b)) (d.prev (some b)) (some b))
          (d.next (some b))) none (l ++ m) none
        rw [hkeep, hbefore]
        exact h.next.unlink h.nodup
      prev := by
        rw [List.reverse_append]
        show Path (update d.prev (d.next (some b)) (d.prev (some b))) none
          (m.reverse ++ l.reverse) none
        rw [hafter]
        exact hprev.unlink hnodup
      nodup := by
        have hsub : (l ++ m).Sublist (l ++ b :: m) :=
          (List.Sublist.refl l).append (List.sublist_cons_self b m)
        exact List.Nodup.sublist hsub h.nodup }

/-- `brelse` moves a buffer to the head of the list. -/
theorem Listed.relink (h : Listed d l) (hall : ∀ c, c ∈ l) :
    ∃ l', Listed ((d.unlink b).push b) l' ∧ ∀ c, c ∈ l' := by
  obtain ⟨u, w, rfl⟩ := List.append_of_mem (hall b)
  have hb : b ∉ u ++ w := by
    intro hmem
    obtain ⟨hu, hw, hdisjoint⟩ := List.nodup_append.mp h.nodup
    rcases List.mem_append.mp hmem with hmem | hmem
    · exact hdisjoint b hmem b List.mem_cons_self rfl
    · exact (List.nodup_cons.mp hw).1 hmem
  refine ⟨b :: (u ++ w), h.unlink.push hb, ?_⟩
  intro c
  have hc := hall c
  simp only [List.mem_append, List.mem_cons] at hc ⊢
  rcases hc with hc | hc | hc
  · exact .inr (.inl hc)
  · exact .inl hc
  · exact .inr (.inr hc)

/-- The loop of `binit`. -/
theorem Listed.foldl (h : Listed d l) (hm : m.Nodup) (hdisjoint : ∀ b ∈ m, b ∉ l) :
    Listed (m.foldl Cache.push d) (m.reverse ++ l) := by
  induction m generalizing d l with
  | nil => exact h
  | cons c m ih =>
      obtain ⟨hc, hm⟩ := List.nodup_cons.mp hm
      have hrest : ∀ b ∈ m, b ∉ c :: l := by
        intro b hb hmem
        rcases List.mem_cons.mp hmem with rfl | hmem
        · exact hc hb
        · exact hdisjoint b (List.mem_cons_of_mem c hb) hmem
      rw [List.reverse_cons, List.append_assoc]
      exact ih (h.push (hdisjoint c List.mem_cons_self)) hm hrest

theorem foldl_push_same : (m.foldl Cache.push d).buf = d.buf ∧
    (m.foldl Cache.push d).refers = d.refers := by
  induction m generalizing d with
  | nil => exact ⟨rfl, rfl⟩
  | cons c m ih => exact ih

end List

/-! ## The operations, one by one -/

section Next

variable [DecidableEq P]

inductive Next (p : P) (x : Loc) (d : Cache P) : Op Unit Empty (Cache P) Loc → Prop
  | bread {dev blockno : Nat} (hx : x = .out) : Next p x d (.acquire () (.bget dev blockno))
  | bget {dev blockno : Nat} (hx : x = .bget dev blockno) :
      Next p x d (.store d (.find dev blockno (d.next none)))
  | missed {dev blockno : Nat} (hx : x = .find dev blockno none) :
      Next p x d (.store d (.spare dev blockno (d.prev none)))
  | hit {dev blockno : Nat} {b : Fin NBUF} (hx : x = .find dev blockno (some b))
      (hb : d.Holds b dev blockno) :
      Next p x d (put p d b { d.buf b with refcnt := (d.buf b).refcnt + 1 } (.found dev blockno b))
  | skip {dev blockno : Nat} {b : Fin NBUF} (hx : x = .find dev blockno (some b))
      (hb : ¬ d.Holds b dev blockno) :
      Next p x d (.store d (.find dev blockno (d.next (some b))))
  | spare {dev blockno : Nat} {b : Fin NBUF} (hx : x = .spare dev blockno (some b))
      (hcount : (d.buf b).refcnt = 0) (hdirty : (d.buf b).dirty = false) :
      Next p x d (.store d (.recycle dev blockno b))
  | busy {dev blockno : Nat} {b : Fin NBUF} (hx : x = .spare dev blockno (some b)) :
      Next p x d (.store d (.spare dev blockno (d.prev (some b))))
  | recycle {dev blockno : Nat} {b : Fin NBUF} (hx : x = .recycle dev blockno b) :
      Next p x d (put p d b
        { d.buf b with dev, blockno, valid := false, dirty := false, refcnt := 1 }
        (.found dev blockno b))
  | found {dev blockno : Nat} {b : Fin NBUF} (hx : x = .found dev blockno b) :
      Next p x d (.release () (.lock dev blockno b))
  | lock {dev blockno : Nat} {b : Fin NBUF} (hx : x = .lock dev blockno b)
      (hfree : (d.buf b).lock = none) :
      Next p x d (put p d b { d.buf b with lock := some p } (.got dev blockno b))
  | valid {dev blockno : Nat} {b : Fin NBUF} (hx : x = .got dev blockno b)
      (hvalid : (d.buf b).valid = true) : Next p x d (.store d (.done dev blockno b))
  | invalid {dev blockno : Nat} {b : Fin NBUF} (hx : x = .got dev blockno b) :
      Next p x d (.store d (.read dev blockno b))
  | read {dev blockno : Nat} {b : Fin NBUF} (hx : x = .read dev blockno b) :
      Next p x d (put p d b { d.buf b with valid := true, dirty := false } (.done dev blockno b))
  | done {dev blockno : Nat} {b : Fin NBUF} (hx : x = .done dev blockno b) :
      Next p x d (.store d .out)
  | bwrite {b : Fin NBUF} (hx : x = .out) (hlock : (d.buf b).lock = some p) :
      Next p x d (put p d b { d.buf b with dirty := true } (.write b))
  | write {b : Fin NBUF} (hx : x = .write b) :
      Next p x d (put p d b { d.buf b with valid := true, dirty := false } .out)
  | logWrite {b : Fin NBUF} (hx : x = .out) (hlock : (d.buf b).lock = some p) :
      Next p x d (put p d b { d.buf b with dirty := true } .out)
  | brelse {b : Fin NBUF} (hx : x = .out) (hlock : (d.buf b).lock = some p) :
      Next p x d (put p d b { d.buf b with lock := none } (.release b))
  | release {b : Fin NBUF} (hx : x = .release b) : Next p x d (.acquire () (.drop b))
  | drop {b : Fin NBUF} (hx : x = .drop b) :
      Next p x d (put p d b { d.buf b with refcnt := (d.buf b).refcnt - 1 } (.relink b))
  | relink {b : Fin NBUF} (hx : x = .relink b) :
      Next p x d (.store ((d.unlink b).push b) .leave)
  | keep {b : Fin NBUF} (hx : x = .relink b) : Next p x d (.store d .leave)
  | leave (hx : x = .leave) : Next p x d (.release () .out)

theorem Next.of_code {p : P} {x : Loc} {c : Call} {d : Cache P} {k : Bool}
    {op : Op Unit Empty (Cache P) Loc} (h : code p x c d k = some op) : Next p x d op := by
  unfold code at h
  split at h
  · unfold call at h
    split at h
    · cases h
      exact .bread rfl
    · split at h
      · rename_i hlock
        cases h
        exact .bwrite rfl hlock
      · cases h
    · split at h
      · rename_i hlock
        cases h
        exact .logWrite rfl hlock
      · cases h
    · split at h
      · rename_i hlock
        cases h
        exact .brelse rfl hlock
      · cases h
  · cases h
    exact .bget rfl
  · cases h
    exact .missed rfl
  · split at h
    · rename_i hb
      cases h
      exact .hit rfl hb
    · rename_i hb
      cases h
      exact .skip rfl hb
  · cases h
  · split at h
    · rename_i hfree
      cases h
      exact .spare rfl hfree.1 hfree.2
    · cases h
      exact .busy rfl
  · cases h
    exact .recycle rfl
  · cases h
    exact .found rfl
  · split at h
    · rename_i hfree
      cases h
      exact .lock rfl hfree
    · cases h
  · split at h
    · rename_i hvalid
      cases h
      exact .valid rfl hvalid
    · cases h
      exact .invalid rfl
  · cases h
    exact .read rfl
  · cases h
    exact .done rfl
  · cases h
    exact .write rfl
  · cases h
    exact .release rfl
  · cases h
    exact .drop rfl
  · split at h
    · cases h
      exact .relink rfl
    · cases h
      exact .keep rfl
  · cases h
    exact .leave rfl

end Next

/-! ## What a store to a buffer does -/

section Stores

variable [DecidableEq P] [Fintype P] {d : Cache P} {p q : P} {b c : Fin NBUF} {v : Buf P}
  {r : Option (Fin NBUF)} {dev blockno : Nat} {l : List (Fin NBUF)}

omit [Fintype P] in
theorem put_self : (d.put p b v r).buf b = v := Function.update_self _ _ _

omit [Fintype P] in
theorem put_of_ne (hc : c ≠ b) : (d.put p b v r).buf c = d.buf c := Function.update_of_ne hc _ _

omit [Fintype P] in
theorem put_refers (hq : q ≠ p) : (d.put p b v r).refers q = d.refers q :=
  Function.update_of_ne hq _ _

omit [Fintype P] in
theorem put_holds (hdev : v.dev = (d.buf b).dev) (hblockno : v.blockno = (d.buf b).blockno) :
    (d.put p b v r).Holds c dev blockno ↔ d.Holds c dev blockno := by
  unfold Cache.Holds
  by_cases hc : c = b
  · rw [hc, put_self, hdev, hblockno]
  · rw [put_of_ne hc]

omit [DecidableEq P] in
theorem referring_pos (h : d.refers p = some b) : 0 < referring d b :=
  Finset.card_pos.mpr ⟨p, Finset.mem_filter.mpr ⟨Finset.mem_univ p, h⟩⟩

omit [DecidableEq P] in
/-- A buffer that somebody has a claim to is in use. -/
theorem Core.refcnt_pos (h : Core d) (hq : d.refers q = some b ∨ (d.buf b).lock = some q) :
    0 < (d.buf b).refcnt := by
  rw [h.count]
  rcases hq with hq | hq
  · have hpos := referring_pos hq
    omega
  · rw [hq, Option.isSome_some, if_pos rfl]
    omega

/-- The reference counts agree when `refcnt`, the lock and `refers` change together. -/
theorem Core.count_put (h : Core d) (hold : d.refers p = none ∨ d.refers p = some b)
    (hnew : r = none ∨ r = some b)
    (hcount : v.refcnt + (if (d.buf b).lock.isSome then 1 else 0) +
        (if d.refers p = some b then 1 else 0) =
      (d.buf b).refcnt + (if v.lock.isSome then 1 else 0) + if r = some b then 1 else 0) :
    ∀ c, ((d.put p b v r).buf c).refcnt =
      (if ((d.put p b v r).buf c).lock.isSome then 1 else 0) + referring (d.put p b v r) c := by
  intro c
  have hself : (d.put p b v r).refers p = r := Function.update_self _ _ _
  have hchange := card_filter_add_of_agree (s := Finset.univ) (p := fun q => d.refers q = some c)
    (q := fun q => (d.put p b v r).refers q = some c) (a := p) (Finset.mem_univ p)
    fun q _ hq => by rw [put_refers hq]
  rw [hself] at hchange
  have hbefore := h.count c
  unfold referring at hbefore ⊢
  by_cases hc : c = b
  · rw [hc] at hchange hbefore ⊢
    rw [put_self]
    omega
  · have hnot : d.refers p ≠ some c := by
      rcases hold with hold | hold
      · rw [hold]
        exact (Option.some_ne_none c).symm
      · rw [hold]
        exact fun heq => hc (Option.some.inj heq).symm
    have hnot' : r ≠ some c := by
      rcases hnew with hnew | hnew
      · rw [hnew]
        exact (Option.some_ne_none c).symm
      · rw [hnew]
        exact fun heq => hc (Option.some.inj heq).symm
    rw [if_neg hnot, if_neg hnot'] at hchange
    rw [put_of_ne hc]
    omega

/-- The same for a store that does not give the buffer another block. -/
theorem Core.put (h : Core d) (hold : d.refers p = none ∨ d.refers p = some b)
    (hnew : r = none ∨ r = some b)
    (hcount : v.refcnt + (if (d.buf b).lock.isSome then 1 else 0) +
        (if d.refers p = some b then 1 else 0) =
      (d.buf b).refcnt + (if v.lock.isSome then 1 else 0) + if r = some b then 1 else 0)
    (hdev : v.dev = (d.buf b).dev) (hblockno : v.blockno = (d.buf b).blockno) :
    Core (d.put p b v r) where
  count := h.count_put hold hnew hcount
  unique := by
    intro c c' hc hsame
    rw [put_holds hdev hblockno] at hsame
    have hblock : ((d.put p b v r).buf c).dev = (d.buf c).dev ∧
        ((d.put p b v r).buf c).blockno = (d.buf c).blockno := by
      by_cases heq : c = b
      · rw [heq, put_self]
        exact ⟨hdev, hblockno⟩
      · rw [put_of_ne heq]
        exact ⟨rfl, rfl⟩
    rw [hblock.1, hblock.2] at hsame
    rw [hblock.1] at hc
    exact h.unique c c' hc hsame

/-- `bget` gives a free buffer a block that no buffer holds. -/
theorem Core.recycle (h : Core d) (habsent : Absent d dev blockno)
    (hcount : (d.buf b).refcnt = 0) (hrefers : d.refers p = none) :
    Core (d.put p b { d.buf b with dev, blockno, valid := false, dirty := false, refcnt := 1 }
      (some b)) where
  count := by
    apply h.count_put (.inl hrefers) (.inr rfl)
    rw [hrefers, hcount, if_pos rfl, if_neg (Option.some_ne_none b).symm]
    show 1 + (if (d.buf b).lock.isSome then 1 else 0) + 0 =
      0 + (if (d.buf b).lock.isSome then 1 else 0) + 1
    omega
  unique := by
    intro c c' hc hsame
    by_cases hcb : c = b
    · by_cases hcb' : c' = b
      · rw [hcb, hcb']
      · unfold Cache.Holds at hsame
        rw [hcb, put_self, put_of_ne hcb'] at hsame
        exact absurd hsame (habsent c')
    · by_cases hcb' : c' = b
      · unfold Cache.Holds at hsame
        rw [hcb', put_self, put_of_ne hcb] at hsame
        exact absurd ⟨hsame.1.symm, hsame.2.symm⟩ (habsent c)
      · unfold Cache.Holds at hsame
        rw [put_of_ne hcb, put_of_ne hcb'] at hsame
        rw [put_of_ne hcb] at hc
        exact h.unique c c' hc hsame

omit [Fintype P] in
theorem Listed.put (h : Listed d l) : Listed (d.put p b v r) l := ⟨h.next, h.prev, h.nodup⟩

end Stores

/-! ## What the others know -/

section Others

variable {d d' : Cache P} {p q : P} {x y z : Loc}

/-- What a store by `p` leaves to the other processes. -/
structure Leaves (p : P) (d d' : Cache P) : Prop where
  refers : ∀ q, q ≠ p → d'.refers q = d.refers q
  lock : ∀ b q, q ≠ p → (d.buf b).lock = some q → (d'.buf b).lock = some q
  valid : ∀ b q, q ≠ p → (d.buf b).lock = some q → (d.buf b).valid = true →
    (d'.buf b).valid = true
  block : ∀ b q, q ≠ p → d.refers q = some b ∨ (d.buf b).lock = some q →
    (d'.buf b).dev = (d.buf b).dev ∧ (d'.buf b).blockno = (d.buf b).blockno

theorem Leaves.refl (p : P) (d : Cache P) : Leaves p d d :=
  ⟨fun _ _ => rfl, fun _ _ _ h => h, fun _ _ _ _ h => h, fun _ _ _ _ => ⟨rfl, rfl⟩⟩

theorem Leaves.holds (h : Leaves p d d') (hq : q ≠ p) {b : Fin NBUF} {dev blockno : Nat}
    (hb : d.refers q = some b ∨ (d.buf b).lock = some q) (hholds : d.Holds b dev blockno) :
    d'.Holds b dev blockno := by
  obtain ⟨hdev, hblockno⟩ := h.block b q hq hb
  exact ⟨hdev.trans hholds.1, hblockno.trans hholds.2⟩

variable [Fintype P]

/-- A store by `p`, without `bcache.lock`. -/
structure Aside (p : P) (d d' : Cache P) : Prop extends Leaves p d d' where
  core : Core d → Core d'
  links : d'.next = d.next ∧ d'.prev = d.prev
  blocks : ∀ b dev blockno, d'.Holds b dev blockno ↔ d.Holds b dev blockno
  spare : Core d → ∀ b, (d.buf b).refcnt = 0 → d'.buf b = d.buf b

theorem Aside.listed (h : Aside p d d') {l : List (Fin NBUF)} (hl : Listed d l) : Listed d' l where
  next := by
    rw [h.links.1]
    exact hl.next
  prev := by
    rw [h.links.2]
    exact hl.prev
  nodup := hl.nodup

theorem Aside.ready (h : Aside p d d') (hready : Ready d) : Ready d' := by
  obtain ⟨l, hl, hall⟩ := hready.listed
  exact { h.core hready.toCore with listed := ⟨l, h.listed hl, hall⟩ }

theorem Aside.absent (h : Aside p d d') {dev blockno : Nat} (habsent : Absent d dev blockno) :
    Absent d' dev blockno := fun c hc => habsent c ((h.blocks c dev blockno).mp hc)

/-- What a process that holds `bcache.lock` knows. -/
theorem Aside.knows (h : Aside p d d') (hz : z.inside) (hknows : z.Knows q d) :
    z.Knows q d' := by
  cases z with
  | out | lock | got | read | done | write | release => exact hz.elim
  | bget | drop | relink | leave => exact h.ready hknows
  | find dev blockno b =>
      obtain ⟨hcore, l, m, hl, hall, hb, hnot⟩ := hknows
      exact ⟨h.core hcore, l, m, h.listed hl, hall, hb,
        fun c hc hholds => hnot c hc ((h.blocks c dev blockno).mp hholds)⟩
  | spare dev blockno b => exact ⟨h.ready hknows.1, h.absent hknows.2⟩
  | recycle dev blockno b =>
      obtain ⟨hready, habsent, hcount, hdirty⟩ := hknows
      have hsame := h.spare hready.toCore b hcount
      refine ⟨h.ready hready, h.absent habsent, ?_, ?_⟩
      · rw [hsame]
        exact hcount
      · rw [hsame]
        exact hdirty
  | found dev blockno b => exact ⟨h.ready hknows.1, (h.blocks b dev blockno).mpr hknows.2⟩

/-- What a process without `bcache.lock` knows. -/
theorem Leaves.knows (h : Leaves p d d') (hq : q ≠ p) (hz : ¬ z.inside)
    (hrefers : d.refers q = z.refers) (hknows : z.Knows q d) : z.Knows q d' := by
  cases z with
  | out | release => trivial
  | lock dev blockno b => exact h.holds hq (.inl hrefers) hknows
  | got dev blockno b | read dev blockno b =>
      exact ⟨h.lock b q hq hknows.1, h.holds hq (.inr hknows.1) hknows.2⟩
  | done dev blockno b =>
      exact ⟨h.lock b q hq hknows.1, h.holds hq (.inr hknows.1) hknows.2.1,
        h.valid b q hq hknows.1 hknows.2.2⟩
  | write b => exact h.lock b q hq hknows
  | bget | find | spare | recycle | found | drop | relink | leave => exact absurd trivial hz

variable [DecidableEq P]

variable {b : Fin NBUF} {v : Buf P} {r : Option (Fin NBUF)}

omit [Fintype P] in
theorem Leaves.put
    (hlock : ∀ q, q ≠ p → (d.buf b).lock = some q →
      v.lock = some q ∧ ((d.buf b).valid = true → v.valid = true))
    (hblock : (v.dev = (d.buf b).dev ∧ v.blockno = (d.buf b).blockno) ∨
      ∀ q, ¬ (d.refers q = some b ∨ (d.buf b).lock = some q)) : Leaves p d (d.put p b v r) where
  refers q hq := put_refers hq
  lock c q hq hc := by
    by_cases heq : c = b
    · rw [heq] at hc ⊢
      rw [put_self]
      exact (hlock q hq hc).1
    · rw [put_of_ne heq]
      exact hc
  valid c q hq hc hvalid := by
    by_cases heq : c = b
    · rw [heq] at hc hvalid ⊢
      rw [put_self]
      exact (hlock q hq hc).2 hvalid
    · rw [put_of_ne heq]
      exact hvalid
  block c q hq hc := by
    by_cases heq : c = b
    · rw [heq] at hc ⊢
      rw [put_self]
      exact hblock.resolve_right fun hnone => hnone q hc
    · rw [put_of_ne heq]
      exact ⟨rfl, rfl⟩

/-- A store to a buffer that `p` has a claim to. -/
theorem Aside.put (hleaves : Leaves p d (d.put p b v r))
    (hclaim : d.refers p = some b ∨ (d.buf b).lock = some p)
    (hold : d.refers p = none ∨ d.refers p = some b) (hnew : r = none ∨ r = some b)
    (hcount : v.refcnt + (if (d.buf b).lock.isSome then 1 else 0) +
        (if d.refers p = some b then 1 else 0) =
      (d.buf b).refcnt + (if v.lock.isSome then 1 else 0) + if r = some b then 1 else 0)
    (hdev : v.dev = (d.buf b).dev) (hblockno : v.blockno = (d.buf b).blockno) :
    Aside p d (d.put p b v r) :=
  { hleaves with
    core := fun hcore => hcore.put hold hnew hcount hdev hblockno
    links := ⟨rfl, rfl⟩
    blocks := fun _ _ _ => put_holds hdev hblockno
    spare := by
      intro hcore c hc
      have hpos := hcore.refcnt_pos hclaim
      apply put_of_ne
      rintro rfl
      omega }

theorem Next.leaves (h : Next p x d (.store d' y)) (hknows : x.Knows p d) : Leaves p d d' := by
  cases h with
  | @hit dev blockno b hx hb | @drop b hx => exact .put (fun q _ hq => ⟨hq, id⟩) (.inl ⟨rfl, rfl⟩)
  | @recycle dev blockno b hx =>
      rw [hx] at hknows
      obtain ⟨hready, -, hcount, -⟩ := hknows
      have hnone : ∀ q, ¬ (d.refers q = some b ∨ (d.buf b).lock = some q) := by
        intro q hq
        have hpos := hready.refcnt_pos hq
        omega
      exact .put (fun q _ hq => absurd (.inr hq) (hnone q)) (.inr hnone)
  | @lock dev blockno b hx hfree =>
      refine .put ?_ (.inl ⟨rfl, rfl⟩)
      intro q _ hq
      rw [hfree] at hq
      cases hq
  | @read dev blockno b hx =>
      rw [hx] at hknows
      refine .put ?_ (.inl ⟨rfl, rfl⟩)
      intro q hne hq
      rw [hknows.1] at hq
      exact absurd (Option.some.inj hq).symm hne
  | @write b hx =>
      rw [hx] at hknows
      have hlock : (d.buf b).lock = some p := hknows
      refine .put ?_ (.inl ⟨rfl, rfl⟩)
      intro q hne hq
      rw [hlock] at hq
      exact absurd (Option.some.inj hq).symm hne
  | @bwrite b hx hlock | @logWrite b hx hlock | @brelse b hx hlock =>
      refine .put ?_ (.inl ⟨rfl, rfl⟩)
      intro q hne hq
      rw [hlock] at hq
      exact absurd (Option.some.inj hq).symm hne
  | @relink b hx =>
      exact ⟨fun _ _ => rfl, fun _ _ _ hq => hq, fun _ _ _ _ hq => hq, fun _ _ _ _ => ⟨rfl, rfl⟩⟩
  | bget | missed | skip | spare | busy | valid | invalid | done | keep => exact .refl p d

theorem Next.aside (h : Next p x d (.store d' y)) (hx : ¬ x.inside)
    (hrefers : d.refers p = x.refers) (hknows : x.Knows p d) : Aside p d d' := by
  have hleaves := h.leaves hknows
  cases h with
  | @lock dev blockno b heq hfree =>
      rw [heq] at hrefers
      have hrefers : d.refers p = some b := hrefers
      apply Aside.put hleaves (.inl hrefers) (.inr hrefers) (.inl rfl)
      · rw [hrefers, hfree, if_pos rfl]
        rfl
      · rfl
      · rfl
  | @read dev blockno b heq =>
      rw [heq] at hrefers hknows
      have hrefers : d.refers p = none := hrefers
      apply Aside.put hleaves (.inr hknows.1) (.inl hrefers) (.inl rfl)
      · rw [hrefers]
        rfl
      · rfl
      · rfl
  | @write b heq =>
      rw [heq] at hrefers hknows
      have hrefers : d.refers p = none := hrefers
      apply Aside.put hleaves (.inr hknows) (.inl hrefers) (.inl rfl)
      · rw [hrefers]
        rfl
      · rfl
      · rfl
  | @bwrite b heq hlock | @logWrite b heq hlock =>
      rw [heq] at hrefers
      have hrefers : d.refers p = none := hrefers
      apply Aside.put hleaves (.inr hlock) (.inl hrefers) (.inl rfl)
      · rw [hrefers]
        rfl
      · rfl
      · rfl
  | @brelse b heq hlock =>
      rw [heq] at hrefers
      have hrefers : d.refers p = none := hrefers
      apply Aside.put hleaves (.inr hlock) (.inl hrefers) (.inr rfl)
      · rw [hrefers, hlock]
        show (d.buf b).refcnt + 1 + 0 = (d.buf b).refcnt + 0 + if some b = some b then 1 else 0
        rw [if_pos rfl]
      · rfl
      · rfl
  | valid heq | invalid heq | done heq =>
      exact
        { hleaves with
          core := id
          links := ⟨rfl, rfl⟩
          blocks := fun _ _ _ => Iff.rfl
          spare := fun _ _ _ => rfl }
  | bget heq | missed heq | hit heq | skip heq | spare heq | busy heq | recycle heq | drop heq
  | relink heq | keep heq =>
      rw [heq] at hx
      exact absurd trivial hx

/-- What a process knows after its own store. -/
theorem Next.knows (h : Next p x d (.store d' y)) (hrefers : d.refers p = x.refers)
    (hknows : x.Knows p d) : d'.refers p = y.refers ∧ y.Knows p d' := by
  cases h with
  | @bget dev blockno hx =>
      rw [hx] at hrefers hknows
      obtain ⟨l, hl, hall⟩ := hknows.listed
      exact ⟨hrefers, hknows.toCore, [], l, hl, hall, hl.next.head, fun c hc => by cases hc⟩
  | @missed dev blockno hx =>
      rw [hx] at hrefers hknows
      obtain ⟨hcore, l, m, hl, hall, hm, hnot⟩ := hknows
      refine ⟨hrefers, { hcore with listed := ⟨l ++ m, hl, hall⟩ }, ?_⟩
      intro c
      have hc := hall c
      rw [List.head?_eq_none_iff.mp hm.symm, List.append_nil] at hc
      exact hnot c hc
  | @hit dev blockno b hx hb =>
      rw [hx] at hrefers hknows
      have hrefers : d.refers p = none := hrefers
      obtain ⟨hcore, l, m, hl, hall, -⟩ := hknows
      refine ⟨Function.update_self _ _ _, ?_, (put_holds (by rfl) (by rfl)).mpr hb⟩
      have hcore' : Core (d.put p b { d.buf b with refcnt := (d.buf b).refcnt + 1 } (some b)) := by
        apply hcore.put (.inl hrefers) (.inr rfl)
        · rw [hrefers, if_pos rfl, if_neg (Option.some_ne_none b).symm]
          show (d.buf b).refcnt + 1 + (if (d.buf b).lock.isSome then 1 else 0) + 0 =
            (d.buf b).refcnt + (if (d.buf b).lock.isSome then 1 else 0) + 1
          omega
        · rfl
        · rfl
      exact { hcore' with listed := ⟨l ++ m, hl.put, hall⟩ }
  | @skip dev blockno b hx hb =>
      rw [hx] at hrefers hknows
      obtain ⟨hcore, l, m, hl, hall, hm, hnot⟩ := hknows
      cases m with
      | nil => cases hm
      | cons c m =>
          cases hm
          have hsplit : l ++ b :: m = (l ++ [b]) ++ m := by
            rw [List.append_assoc]
            rfl
          refine ⟨hrefers, hcore, l ++ [b], m, hsplit ▸ hl, hsplit ▸ hall,
            (path_append_cons.mp hl.next).2.head, ?_⟩
          intro c hc
          rcases List.mem_append.mp hc with hc | hc
          · exact hnot c hc
          · rw [List.mem_singleton.mp hc]
            exact hb
  | @spare dev blockno b hx hcount hdirty =>
      rw [hx] at hrefers hknows
      exact ⟨hrefers, hknows.1, hknows.2, hcount, hdirty⟩
  | @busy dev blockno b hx | @invalid dev blockno b hx | @keep b hx =>
      rw [hx] at hrefers hknows
      exact ⟨hrefers, hknows⟩
  | @recycle dev blockno b hx =>
      rw [hx] at hrefers hknows
      obtain ⟨hready, habsent, hcount, -⟩ := hknows
      obtain ⟨l, hl, hall⟩ := hready.listed
      refine ⟨Function.update_self _ _ _,
        { hready.toCore.recycle habsent hcount hrefers with listed := ⟨l, hl.put, hall⟩ }, ?_⟩
      show _ = dev ∧ _ = blockno
      rw [put_self]
      exact ⟨rfl, rfl⟩
  | @lock dev blockno b hx hfree =>
      rw [hx] at hknows
      refine ⟨Function.update_self _ _ _, ?_, (put_holds (by rfl) (by rfl)).mpr hknows⟩
      rw [put_self]
  | @valid dev blockno b hx hvalid =>
      rw [hx] at hrefers hknows
      exact ⟨hrefers, hknows.1, hknows.2, hvalid⟩
  | @read dev blockno b hx =>
      rw [hx] at hknows
      refine ⟨Function.update_self _ _ _, ?_, (put_holds (by rfl) (by rfl)).mpr hknows.2, ?_⟩
      · rw [put_self]
        exact hknows.1
      · rw [put_self]
  | @done dev blockno b hx =>
      rw [hx] at hrefers
      exact ⟨hrefers, trivial⟩
  | @bwrite b hx hlock =>
      refine ⟨Function.update_self _ _ _, ?_⟩
      show ((d.put p b _ _).buf b).lock = some p
      rw [put_self]
      exact hlock
  | @write b hx | @logWrite b hx hlock | @brelse b hx hlock =>
      exact ⟨Function.update_self _ _ _, trivial⟩
  | @drop b hx =>
      rw [hx] at hrefers hknows
      have hrefers : d.refers p = some b := hrefers
      have hready : Ready d := hknows
      obtain ⟨l, hl, hall⟩ := hready.listed
      have hpos := hready.refcnt_pos (.inl hrefers)
      refine ⟨Function.update_self _ _ _, ?_⟩
      have hcore : Core (d.put p b { d.buf b with refcnt := (d.buf b).refcnt - 1 } none) := by
        apply hready.toCore.put (.inr hrefers) (.inl rfl)
        · rw [hrefers, if_pos rfl, if_neg (Option.some_ne_none b).symm]
          show (d.buf b).refcnt - 1 + (if (d.buf b).lock.isSome then 1 else 0) + 1 =
            (d.buf b).refcnt + (if (d.buf b).lock.isSome then 1 else 0) + 0
          omega
        · rfl
        · rfl
      exact { hcore with listed := ⟨l, hl.put, hall⟩ }
  | @relink b hx =>
      rw [hx] at hrefers hknows
      have hready : Ready d := hknows
      obtain ⟨l, hl, hall⟩ := hready.listed
      exact ⟨hrefers, { hready.toCore with listed := hl.relink hall }⟩

omit [Fintype P] in
/-- A store neither takes `bcache.lock` nor gives it up. -/
theorem Next.inside (h : Next p x d (.store d' y)) : y.inside ↔ x.inside := by
  cases h with
  | bget hx | missed hx | hit hx | skip hx | spare hx | busy hx | recycle hx | lock hx | valid hx
  | invalid hx | read hx | done hx | bwrite hx | write hx | logWrite hx | brelse hx | drop hx
  | relink hx | keep hx =>
      subst hx
      exact Iff.rfl

end Others

/-! ## The outline fits -/

section Valid

variable [DecidableEq P] [Fintype P]

theorem next_of_turn {ok : CacheState P → Act P Call → Prop} {s : CacheState P} {p : P} {x : Loc}
    {op : Op Unit Empty (Cache P) Loc} (h : Turn outline code ok s p x op) :
    Next p x s.data op := by
  obtain ⟨i, hcode, -⟩ := h.next
  exact Next.of_code hcode

theorem valid (ok : CacheState P → Act P Call → Prop) : (outline (P := P)).Valid code ok where
  acquire := by
    intro s p x l y hturn hinv
    obtain ⟨hrefers, hknows⟩ := hturn.knows
    cases next_of_turn hturn with
    | bread hx | release hx =>
        rw [hx] at hrefers
        exact ⟨⟨hrefers, hinv⟩, fun l' => iff_of_true trivial (.inr rfl), fun ch => ch.elim⟩
  release := by
    intro s p x l y hturn
    obtain ⟨hrefers, hknows⟩ := hturn.knows
    cases next_of_turn hturn with
    | found hx =>
        rw [hx] at hrefers hknows
        exact ⟨⟨hrefers, hknows.2⟩, hknows.1, fun l' => iff_of_false id fun hboth => hboth.2 rfl,
          fun ch => ch.elim, fun ch => ch.elim⟩
    | leave hx =>
        rw [hx] at hrefers hknows
        exact ⟨⟨hrefers, trivial⟩, hknows, fun l' => iff_of_false id fun hboth => hboth.2 rfl,
          fun ch => ch.elim, fun ch => ch.elim⟩
  wakeup := by
    intro s p x ch
    exact ch.elim
  sleep := by
    intro s p x ch
    exact ch.elim
  regain := by
    intro p l y d hwaits
    exact hwaits.elim
  store := by
    intro s p x d y hturn
    obtain ⟨hrefers, hknows⟩ := hturn.knows
    have hnext := next_of_turn hturn
    refine ⟨hnext.knows hrefers hknows, ?_, fun ch => ch.elim, ?_, fun ch => ch.elim⟩
    · intro l
      exact hnext.inside
    · intro l hx hinv
      exact (hnext.aside hx hrefers hknows).ready hinv
  others := by
    rintro s p q x d y z hturn hq hapart ⟨hzrefers, hz⟩
    obtain ⟨hrefers, hknows⟩ := hturn.knows
    have hnext := next_of_turn hturn
    have hleaves := hnext.leaves hknows
    refine ⟨(hleaves.refers q hq).trans hzrefers, ?_⟩
    by_cases hin : z.inside
    · have hx : ¬ x.inside := fun hx => hapart () hx hin
      exact (hnext.aside hx hrefers hknows).knows hin hz
    · exact hleaves.knows hq hin hzrefers hz
  waiting := by
    intro s p q x d y l z hturn hq hwaits
    exact hwaits.elim

end Valid

/-! ## Every run -/

section Runs

variable [DecidableEq P] [Fintype P] {s t : CacheState P}

omit [DecidableEq P] in
theorem binit_ready : Ready (binit : Cache P) := by
  have hempty : Listed (unlinked : Cache P) [] := ⟨rfl, rfl, List.nodup_nil⟩
  have hbuf : ∀ b, (binit : Cache P).buf b = unlinked.buf b := fun b => congrFun foldl_push_same.1 b
  have hrefers : ∀ p, (binit : Cache P).refers p = none := fun p => congrFun foldl_push_same.2 p
  exact
    { count := by
        intro b
        rw [hbuf]
        show 0 = 0 + referring binit b
        unfold referring
        simp [hrefers]
      unique := by
        intro b c hb
        rw [hbuf] at hb
        exact absurd rfl hb
      listed := by
        refine ⟨_, hempty.foldl (List.nodup_finRange NBUF) (fun b _ hb => (by cases hb)), ?_⟩
        intro b
        rw [List.append_nil, List.mem_reverse]
        exact List.mem_finRange b }

theorem good (h : (cache (P := P)).Reachable s) : outline.Good s := by
  apply (valid fun _ _ => True).good _ _ _ h
  · intro p
    exact ⟨congrFun foldl_push_same.2 p, trivial⟩
  · intro p l
    exact id
  · intro l
    exact binit_ready

/-- The buffer for whose lock a process waits in `bget`. -/
def Loc.waits : Loc → Option (Fin NBUF)
  | .lock _ _ b => some b
  | _ => none

/-- The buffer of a process that is in `brelse`, after `releasesleep`. -/
def Loc.releases : Loc → Option (Fin NBUF)
  | .release b => some b
  | _ => none

omit [DecidableEq P] in
/-- Nobody ever sleeps in the model of the cache. -/
theorem ctl_run (h : outline.Good s) (p : P) : ∃ x, s.ctl p = .run x := by
  rcases (s.ctl p).run_or_waiting with hrun | ⟨l, hwait⟩
  · exact ⟨_, hrun⟩
  · exact (h.waits p l _ hwait).1.elim

omit [DecidableEq P] in
/-- While `bcache.lock` is free, who counts beside the holder waits or is in `brelse`. -/
theorem refers_iff (h : outline.Good s) (hfree : s.holder () = none) (p : P) (b : Fin NBUF) :
    s.data.refers p = some b ↔
      (s.ctl p).loc.waits = some b ∨ (s.ctl p).loc.releases = some b := by
  obtain ⟨x, hx⟩ := ctl_run h p
  have hrefers := (h.knows p x hx).1
  have hout : ¬ x.inside := by
    intro hin
    have hheld : s.holder () = some p := by
      rw [h.holds, hx]
      exact hin
    rw [hfree] at hheld
    cases hheld
  rw [hrefers, hx]
  show x.refers = some b ↔ x.waits = some b ∨ x.releases = some b
  cases x with
  | found | drop => exact absurd trivial hout
  | lock dev blockno c | release c | _ => simp [Loc.refers, Loc.waits, Loc.releases]

/-- A buffer that is dirty or in use is not given another block. -/
theorem step_block (h : outline.Good s) {a : Act P Call} (hs : step code s a = some t)
    (b : Fin NBUF) (hblock : ¬ t.data.Holds b (s.data.buf b).dev (s.data.buf b).blockno) :
    (s.data.buf b).refcnt = 0 ∧ (s.data.buf b).dirty = false := by
  have hsame : ∀ {p c v r}, v.dev = (s.data.buf c).dev → v.blockno = (s.data.buf c).blockno →
      (s.data.put p c v r).Holds b (s.data.buf b).dev (s.data.buf b).blockno :=
    fun hdev hblockno => (put_holds hdev hblockno).mpr ⟨rfl, rfl⟩
  cases Move.of_step hs with
  | @store p i x y d hctl hcode =>
      have hknows := (h.knows p x hctl).2
      cases Next.of_code hcode with
      | @recycle dev blockno c hx =>
          rw [hx] at hknows
          obtain ⟨-, -, hcount, hdirty⟩ := hknows
          by_cases hc : b = c
          · rw [hc]
            exact ⟨hcount, hdirty⟩
          · apply absurd _ hblock
            show _ = _ ∧ _ = _
            rw [put_of_ne hc]
            exact ⟨rfl, rfl⟩
      | hit | lock | read | bwrite | write | logWrite | brelse | drop =>
          exact absurd (hsame (by rfl) (by rfl)) hblock
      | relink | bget | missed | skip | spare | busy | valid | invalid | done | keep =>
          exact absurd ⟨rfl, rfl⟩ hblock
  | _ => exact absurd ⟨rfl, rfl⟩ hblock

/-- `next` and `prev` lead from the head over all buffers, each once; blocks of a device other
than 0 are in one buffer at most. -/
structure Consistent (d : Cache P) : Prop where
  list : ∃ l, l.Nodup ∧ (∀ b, b ∈ l) ∧ Path d.next none l none ∧ Path d.prev none l.reverse none
  unique : ∀ b c, (d.buf b).dev ≠ 0 → d.Holds c (d.buf b).dev (d.buf b).blockno → b = c

/-- The cache is consistent while `bcache.lock` is free, and `refcnt` counts who has the buffer
locked, who waits for it and who is about to give it back; a buffer in use keeps its block,
and `bread` returns the block in a buffer that the caller has locked. -/
theorem cache_consistent (P : Type) [DecidableEq P] [Fintype P] (s : CacheState P)
    (h : (cache (P := P)).Reachable s) :
    (s.holder () = none → Consistent s.data ∧
      ∀ b, (s.data.buf b).refcnt = (if (s.data.buf b).lock.isSome then 1 else 0) +
        (Finset.univ.filter fun p => (s.ctl p).loc.waits = some b).card +
        (Finset.univ.filter fun p => (s.ctl p).loc.releases = some b).card) ∧
      (∀ a t, cache.step s a = some t → ∀ b,
        (s.data.buf b).refcnt ≠ 0 ∨ (s.data.buf b).dirty = true →
          t.data.Holds b (s.data.buf b).dev (s.data.buf b).blockno) ∧
      ∀ p dev blockno b, s.ctl p = .run (.done dev blockno b) →
        (s.data.buf b).lock = some p ∧ s.data.Holds b dev blockno ∧
          (s.data.buf b).valid = true := by
  have hgood := good h
  refine ⟨?_, ?_, ?_⟩
  · intro hfree
    have hready : Ready s.data := hgood.inv () hfree
    obtain ⟨l, hl, hall⟩ := hready.listed
    refine ⟨⟨⟨l, hl.nodup, hall, hl.next, hl.prev⟩, hready.unique⟩, ?_⟩
    intro b
    have hsplit : referring s.data b =
        (Finset.univ.filter fun p => (s.ctl p).loc.waits = some b).card +
          (Finset.univ.filter fun p => (s.ctl p).loc.releases = some b).card := by
      unfold referring
      rw [← Finset.card_union_of_disjoint, ← Finset.filter_or]
      · congr 1
        exact Finset.filter_congr fun p _ => refers_iff hgood hfree p b
      · rw [Finset.disjoint_filter]
        intro p _ hwaits hreleases
        cases hx : (s.ctl p).loc with
        | release c =>
            rw [hx] at hwaits
            cases hwaits
        | _ =>
            rw [hx] at hreleases
            cases hreleases
    rw [hready.count, hsplit, Nat.add_assoc]
  · intro a t hs b hused
    by_contra hblock
    obtain ⟨hcount, hdirty⟩ := step_block hgood hs b hblock
    rcases hused with hused | hused
    · exact hused hcount
    · rw [hdirty] at hused
      cases hused
  · intro p dev blockno b hctl
    exact (hgood.knows p _ hctl).2

/-- The process stands at the location. -/
def isAt (s : CacheState P) (p : P) (x : Loc) : Bool :=
  match s.ctl p with
  | .run y => y == x
  | _ => false

omit [DecidableEq P] [Fintype P] in
theorem isAt_iff {s : CacheState P} {p : P} {x : Loc} :
    isAt s p x = true ↔ s.ctl p = .run x := by
  unfold isAt
  constructor
  · intro h
    split at h
    · rename_i y hctl
      rw [hctl, beq_iff_eq.mp h]
    · cases h
  · intro h
    rw [h]
    exact beq_self_eq_true x

/-- The process reads block 5 of disk 1, which is in no buffer yet. -/
def readFive (p : P) : List (Act P Call) := List.replicate 39 (.run p (.bread 1 5))

theorem cache_consistent_readFive : ∃ s : CacheState (Fin 2),
    s.ctl 0 = .run (.done 1 5 0) ∧
      (s.holder () = none → Consistent s.data ∧
        ∀ b, (s.data.buf b).refcnt = (if (s.data.buf b).lock.isSome then 1 else 0) +
          (Finset.univ.filter fun p => (s.ctl p).loc.waits = some b).card +
          (Finset.univ.filter fun p => (s.ctl p).loc.releases = some b).card) ∧
      (∀ a t, cache.step s a = some t → ∀ b,
        (s.data.buf b).refcnt ≠ 0 ∨ (s.data.buf b).dirty = true →
          t.data.Holds b (s.data.buf b).dev (s.data.buf b).blockno) ∧
      ∀ p dev blockno b, s.ctl p = .run (.done dev blockno b) →
        (s.data.buf b).lock = some p ∧ s.data.Holds b dev blockno ∧
          (s.data.buf b).valid = true := by
  obtain ⟨s, hs, htest⟩ := System.exists_reachable_of_run (M := cache (P := Fin 2))
    (l := readFive 0)
    (p := fun s => isAt s 0 (.done 1 5 0)) rfl (by decide +kernel)
  exact ⟨s, isAt_iff.mp htest, cache_consistent (Fin 2) s hs⟩

/-- The reference of a process that has given the lock back, and the second reference of a
process that waits for itself, count no process that holds or waits for the buffer. -/
theorem not_all_refcnt :
    (¬ ∀ s : CacheState (Fin 2), (cache (P := Fin 2)).Reachable s → s.holder () = none →
      ∀ b, (s.data.buf b).refcnt = (Finset.univ.filter fun p =>
        (s.data.buf b).lock = some p ∨ (s.ctl p).loc.waits = some b).card) ∧
      ¬ ∀ s : CacheState (Fin 2), (cache (P := Fin 2)).Reachable s → s.holder () = none →
        ∀ b, (s.data.buf b).refcnt = (Finset.univ.filter fun p =>
          (s.data.buf b).lock = some p ∨ (s.ctl p).loc.waits = some b ∨
            (s.ctl p).loc.releases = some b).card := by
  constructor
  · intro hall
    obtain ⟨s, hs, htest⟩ := System.exists_reachable_of_run (M := cache (P := Fin 2))
      (l := readFive 0 ++ [.run 0 (.bread 1 5), .run 0 (.brelse 0)])
      (p := fun s => (s.holder ()).isNone && decide ((s.data.buf 0).refcnt = 1) &&
        decide ((Finset.univ.filter fun p =>
          (s.data.buf 0).lock = some p ∨ (s.ctl p).loc.waits = some 0).card = 0)) rfl
      (by decide +kernel)
    simp only [Bool.and_eq_true, Option.isNone_iff_eq_none, decide_eq_true_eq] at htest
    have hcount := hall s hs htest.1.1 0
    omega
  · intro hall
    obtain ⟨s, hs, htest⟩ := System.exists_reachable_of_run (M := cache (P := Fin 2))
      (l := readFive 0 ++ List.replicate 34 (.run 0 (.bread 1 5)))
      (p := fun s => (s.holder ()).isNone && decide ((s.data.buf 0).refcnt = 2) &&
        decide ((Finset.univ.filter fun p =>
          (s.data.buf 0).lock = some p ∨ (s.ctl p).loc.waits = some 0 ∨
            (s.ctl p).loc.releases = some 0).card = 1)) rfl
      (by decide +kernel)
    simp only [Bool.and_eq_true, Option.isNone_iff_eq_none, decide_eq_true_eq] at htest
    have hcount := hall s hs htest.1.1 0
    omega

end Runs

end OsWork.Ports.BufferCache

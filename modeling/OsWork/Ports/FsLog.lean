import OsWork.Verified.RedoLog
import OsWork.Verified.Transition
import Mathlib.Data.Finset.Card

/-!
# The log of `ass5/final_repo/log.c`

File-system operations, the commit of their common transaction, and the
recovery that `initlog` makes, on one disk.  A step is one critical section of
`log.lock`, one access to a buffer, or one disk write with the reads before it;
a crash may come between any two steps.

The disk consists of the header block `log.start`, kept as the list of the
block numbers in it, and of all other blocks.  `mkfs` gives the log `LOGSIZE`
blocks, the header included.  The blocks outside the log are the home blocks;
operations modify these only.

The buffer cache is the set of the blocks that have one of the `NBUF` buffers.
`bget` panics when it needs a buffer and every one is dirty or in use; a step
that would panic is disabled here, and nothing but a crash can follow it.  The
buffer of the header block is not counted.
-/

namespace OsWork.Ports.FsLog

open OsWork.Verified.Transition
open OsWork.Verified.RedoLog

/-- Blocks of the on-disk log (`param.h`; `nlog` in `mkfs.c`). -/
def LOGSIZE : Nat := 30

/-- Blocks any operation writes at most. -/
def MAXOPBLOCKS : Nat := 10

/-- Buffers of the cache. -/
def NBUF : Nat := 30

/-- A run of the code between `begin_op` and `end_op`. -/
abbrev Op := Nat

/-- Where an operation stands. -/
inductive OpPc
  | unborn
  | running
  /-- in `log_write` of block `b`, after its tests -/
  | logging (b : Nat)
  | ended
  deriving DecidableEq, Repr

/-- Where the committing or recovering process stands. -/
inductive LogPc
  /-- no commit under way -/
  | running
  /-- `write_log`, `install_trans`: `tail` is the next entry -/
  | writeLog (tail : Nat)
  | writeHead
  | installTrans (tail : Nat)
  /-- `log.lh.n = 0; write_head()` -/
  | eraseHead
  /-- `commit` has returned -/
  | committed
  /-- `recover_from_log` -/
  | readHead
  | recoverTrans (tail : Nat)
  | recoverErase
  deriving DecidableEq, Repr

/-- `initlog` has not been completed. -/
def LogPc.recovering : LogPc → Bool
  | .readHead | .recoverTrans _ | .recoverErase => true
  | _ => false

structure State (B : Type) where
  disk : Nat → B
  /-- `block[0..n)` of the header block on disk -/
  head : List Nat
  /-- the blocks that have a buffer -/
  cached : Finset Nat
  data : Nat → B
  /-- `B_DIRTY` -/
  dirty : Nat → Bool
  /-- the operation that holds the lock of the buffer of a block -/
  holder : Nat → Option Op
  /-- the blocks an operation has modified and not passed to `log_write` yet -/
  loose : Op → List Nat
  ops : Op → OpPc
  /-- `log.lh` in memory -/
  lh : List Nat
  outstanding : Nat
  committing : Bool
  pc : LogPc

/-- The block that holds the new contents of the `i`-th block of the header. -/
def slot (start i : Nat) : Nat := start + i + 1

/-- A block outside the log. -/
def isHome (start b : Nat) : Prop := b < start ∨ start + LOGSIZE ≤ b

instance (start b : Nat) : Decidable (isHome start b) :=
  inferInstanceAs (Decidable (_ ∨ _))

/-- The machine that is switched on. -/
def boot {B : Type} (image : Nat → B) : State B where
  disk := image
  head := []
  cached := ∅
  data := image
  dirty := fun _ => false
  holder := fun _ => none
  loose := fun _ => []
  ops := fun _ => .unborn
  lh := []
  outstanding := 0
  committing := false
  pc := .readHead

/-- What happens next. -/
inductive Act (B : Type)
  | beginOp (i : Op)
  | bread (i : Op) (b : Nat)
  /-- the operation stores into `b->data` -/
  | modify (i : Op) (b : Nat) (v : B)
  /-- `log_write` up to the tests -/
  | logWrite (i : Op) (b : Nat)
  /-- the locked part of `log_write` -/
  | append (i : Op)
  | brelse (i : Op) (b : Nat)
  | endOp (i : Op)
  /-- a reader's `bread` fills a buffer -/
  | load (b : Nat)
  /-- `bget` gives the buffer of a block to another one -/
  | recycle (b : Nat)
  /-- `commit` or `recover_from_log` goes on -/
  | log
  | crash

namespace State

variable {B : Type} (s : State B) (start : Nat)

/-- The contents of a block as `bread` returns them. -/
def view (b : Nat) : B := if b ∈ s.cached then s.data b else s.disk b

/-- `bread`: the block gets a buffer. -/
def bread (b : Nat) : Option (State B) :=
  if b ∈ s.cached then some s
  else if s.cached.card < NBUF then
    some { s with cached := insert b s.cached, data := Function.update s.data b (s.disk b) }
  else none

/-- A store into the data of a buffer. -/
def put (b : Nat) (v : B) : State B := { s with data := Function.update s.data b v }

/-- `bwrite`: the buffer is written to disk and is clean. -/
def bwrite (b : Nat) : State B :=
  { s with disk := Function.update s.disk b (s.data b)
           dirty := Function.update s.dirty b false }

/-- Two `bread`s, a `memmove` of block `src` to block `dst` and the `bwrite` of
`dst`; no operation may hold the two buffers. -/
def copyBlock (dst src : Nat) : Option (State B) :=
  if s.holder dst = none ∧ s.holder src = none then
    match s.bread dst with
    | some s' =>
        match s'.bread src with
        | some s'' => some ((s''.put dst (s''.data src)).bwrite dst)
        | none => none
    | none => none
  else none

/-- One round of `write_log`. -/
def writeLogBlock (tail : Nat) : Option (State B) :=
  match s.lh[tail]? with
  | some b =>
      (s.copyBlock (slot start tail) b).map fun s' => { s' with pc := .writeLog (tail + 1) }
  | none => some { s with pc := .writeHead }

/-- One round of `install_trans`; `next` says where to go on. -/
def installBlock (tail : Nat) (next : LogPc) (done : LogPc) : Option (State B) :=
  match s.lh[tail]? with
  | some b => (s.copyBlock b (slot start tail)).map fun s' => { s' with pc := next }
  | none => some { s with pc := done }

/-- `commit` and `recover_from_log`, one disk write at a time. -/
def logStep : Option (State B) :=
  match s.pc with
  | .running => none
  | .writeLog tail => s.writeLogBlock start tail
  | .writeHead => some { s with head := s.lh, pc := .installTrans 0 }
  | .installTrans tail => s.installBlock start tail (.installTrans (tail + 1)) .eraseHead
  | .eraseHead => some { s with lh := [], head := [], pc := .committed }
  | .committed => some { s with committing := false, pc := .running }
  | .readHead => some { s with lh := s.head, pc := .recoverTrans 0 }
  | .recoverTrans tail => s.installBlock start tail (.recoverTrans (tail + 1)) .recoverErase
  | .recoverErase => some { s with lh := [], head := [], pc := .running }

/-- `begin_op`; disabled while it would sleep, and before `initlog` is done. -/
def beginOp (i : Op) : Option (State B) :=
  if s.ops i = .unborn ∧ s.pc.recovering = false then
    if s.committing then none
    else if LOGSIZE < s.lh.length + (s.outstanding + 1) * MAXOPBLOCKS then none
    else some { s with outstanding := s.outstanding + 1
                       ops := Function.update s.ops i .running }
  else none

/-- `log_write` of a buffer the operation holds: the tests, made without
`log.lock`. -/
def logWrite (i : Op) (b : Nat) : Option (State B) :=
  if s.ops i = .running ∧ s.holder b = some i then
    -- too big a transaction
    if LOGSIZE ≤ s.lh.length ∨ LOGSIZE ≤ s.lh.length + 1 then none
    -- log_write outside of trans
    else if s.outstanding < 1 then none
    else some { s with ops := Function.update s.ops i (.logging b) }
  else none

/-- The locked part of `log_write`, with log absorption. -/
def append (i : Op) : Option (State B) :=
  match s.ops i with
  | .logging b =>
      some { s with
        lh := if b ∈ s.lh then s.lh else s.lh ++ [b]
        dirty := Function.update s.dirty b true
        loose := Function.update s.loose i ((s.loose i).filter (· ≠ b))
        ops := Function.update s.ops i .running }
  | _ => none

/-- `end_op`; the last operation starts the commit. -/
def endOp (i : Op) : Option (State B) :=
  if s.ops i = .running ∧ s.loose i = [] then
    -- panic: log.committing
    if s.committing then none
    else
      let s' := { s with outstanding := s.outstanding - 1
                         ops := Function.update s.ops i .ended }
      if s.outstanding - 1 = 0 then
        some { s' with committing := true
                       pc := if s.lh = [] then .committed else .writeLog 0 }
      else some s'
  else none

/-- The machine stops and is switched on again. -/
def crash : State B :=
  { boot s.disk with head := s.head
                     ops := fun i => if s.ops i = .unborn then .unborn else .ended }

end State

/-- One step.  An operation reads home blocks and modifies the buffers it
holds; it gives a buffer back after it has passed it to `log_write`. -/
def step {B : Type} (start : Nat) (s : State B) : Act B → Option (State B)
  | .beginOp i => s.beginOp i
  | .bread i b =>
      if s.ops i = .running ∧ isHome start b ∧ s.holder b = none then
        (s.bread b).map fun s' => { s' with holder := Function.update s'.holder b (some i) }
      else none
  | .modify i b v =>
      if s.ops i = .running ∧ s.holder b = some i then
        some { s.put b v with loose := Function.update s.loose i (b :: s.loose i) }
      else none
  | .logWrite i b => s.logWrite i b
  | .append i => s.append i
  | .brelse i b =>
      if s.holder b = some i ∧ b ∉ s.loose i ∧ s.ops i ≠ .logging b then
        some { s with holder := Function.update s.holder b none }
      else none
  | .endOp i => s.endOp i
  | .load b => s.bread b
  | .recycle b =>
      if b ∈ s.cached ∧ s.dirty b = false ∧ s.holder b = none then
        some { s with cached := s.cached.erase b }
      else none
  | .log => s.logStep start
  | .crash => some s.crash

/-- The file system on a disk whose log is empty. -/
def fileSystem {B : Type} (start : Nat) (image : Nat → B) : System (State B) (Act B) where
  init s := s = boot image
  step := step start

/-! ## Commits -/

/-- A modification of a block by an operation. -/
structure Write (B : Type) where
  op : Op
  block : Nat
  value : B

/-- What has happened since `initlog` was last completed. -/
structure History (B : Type) where
  /-- the home blocks as `initlog` left them -/
  base : Nat → B
  /-- the modifications of each transaction for which `commit` has been called -/
  groups : List (List (Write B))
  /-- the calls of `commit` that have returned -/
  returned : Nat
  /-- the modifications of the present transaction -/
  current : List (Write B)

namespace History

variable {B : Type}

/-- The bookkeeping of one step. -/
def record (s : State B) (a : Act B) (g : History B) : History B :=
  match a with
  | .modify i b v => { g with current := g.current ++ [⟨i, b, v⟩] }
  | .endOp _ =>
      if s.outstanding - 1 = 0 then
        { g with groups := g.groups ++ [g.current], current := [] }
      else g
  | .log =>
      match s.pc with
      | .committed => { g with returned := g.groups.length }
      | .recoverErase => ⟨s.disk, [], 0, []⟩
      | _ => g
  | .crash => { g with current := [] }
  | _ => g

/-- The writes of a group. -/
def writes (ws : List (Write B)) : List (Nat × B) := ws.map fun w => (w.block, w.value)

/-- The home blocks after the first `k` commits. -/
def after (g : History B) (k : Nat) : Nat → B :=
  applyWrites (writes (g.groups.take k).flatten) g.base

end History

/-- The file system with the bookkeeping. -/
def logKernel {B : Type} (start : Nat) (image : Nat → B) :
    System (State B × History B) (Act B) :=
  (fileSystem start image).withGhost (fun s => ⟨s.disk, [], 0, []⟩) fun s a g =>
    g.record s a

end OsWork.Ports.FsLog

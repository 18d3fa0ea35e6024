import OsWork.Verified.Monitor
import OsWork.Verified.LinkedRing
import Mathlib.Data.List.Basic

/-!
# The disk driver of `ass5/final_repo`

`iderw`, `ideintr` and `idestart` of `ide.c` as a monitor with the lock `idelock` and
the buffers as sleep channels: any number of processes, one thread for the interrupt
handler and one for the device.  Outside `iderw` a process locks buffers, does what
it likes with the flags, the block and the bytes of a buffer that it has locked, and
calls `iderw` with one; that is what `bio.c` and `log.c` do with them.  The device
takes the block number from its registers, and a read may end with an error status.

The lists `queued`, `started` and `completed` record the requests in the order in
which they were put in the queue, given to the device, and marked.
-/

namespace OsWork.Ports.IdeDisk

open OsWork.Verified.Monitor OsWork.Verified.Transition OsWork.Verified.LinkedRing
open Function (update)

def FSSIZE : Nat := 1000

/-- `BSIZE / SECTOR_SIZE` -/
def sectorPerBlock : Nat := 512 / 512

inductive Thread (P : Type)
  | proc (p : P)
  | intr
  | device
  deriving DecidableEq

/-- `struct buf`; `lock` is the process that has the sleep lock. -/
structure Buf (P B Data : Type) where
  /-- `B_VALID` -/
  valid : Bool
  /-- `B_DIRTY` -/
  dirty : Bool
  dev : Nat
  blockno : Nat
  lock : Option (Thread P)
  qnext : Option B
  data : Data

/-- The registers `0x1f3` to `0x1f6`. -/
structure Regs where
  r3 : Nat
  r4 : Nat
  r5 : Nat
  r6 : Nat
  deriving DecidableEq

def Regs.dev (r : Regs) : Nat := r.r6 >>> 4 &&& 1

def Regs.sector (r : Regs) : Nat :=
  r.r3 + r.r4 <<< 8 + r.r5 <<< 16 + (r.r6 &&& 0x0f) <<< 24

/-- What the device has been told to do; `write` are the bytes of a write. -/
structure Command (Data : Type) where
  regs : Regs
  write : Option Data

/-- A request that has been marked: whether it was a read that failed, the flag and the
bytes of the buffer, and the content of its block at that time. -/
structure Completion (B Data : Type) where
  buf : B
  read : Bool
  failed : Bool
  valid : Bool
  data : Data
  content : Data

structure Ide (P B Data : Type) where
  buf : B → Buf P B Data
  idequeue : Option B
  havedisk1 : Bool
  /-- the command that the device works on; `IDE_BSY` is set -/
  busy : Option (Command Data)
  /-- `IDE_DF` or `IDE_ERR` of the last command -/
  err : Bool
  /-- what `insl` from `0x1f0` gives -/
  port : Data
  disk : Nat → Nat → Data
  /-- interrupts that the device has raised -/
  raised : Nat
  /-- interrupts for which the handler has been entered -/
  taken : Nat
  queued : List B
  started : List B
  completed : List (Completion B Data)

variable {P B Data : Type}

/-- The flags for which `iderw` returns. -/
def Buf.done (b : Buf P B Data) : Bool := b.valid && !b.dirty

/-- The registers that `idestart` writes. -/
def Buf.regs (b : Buf P B Data) : Regs :=
  let sector := b.blockno * sectorPerBlock
  { r3 := sector &&& 0xff
    r4 := sector >>> 8 &&& 0xff
    r5 := sector >>> 16 &&& 0xff
    r6 := 0xe0 ||| (b.dev &&& 1) <<< 4 ||| (sector >>> 24 &&& 0x0f) }

/-- What the disk has for a buffer. -/
def Ide.content (d : Ide P B Data) (b : B) : Data := d.disk ((d.buf b).dev % 2) (d.buf b).blockno

section Code

variable [DecidableEq B]

def Ide.setBuf (d : Ide P B Data) (b : B) (v : Buf P B Data) : Ide P B Data :=
  { d with buf := update d.buf b v }

/-- `*pp`, where `pp` points to `idequeue` or to the `qnext` of a buffer. -/
def Ide.link (d : Ide P B Data) (pp : Option B) : Option B :=
  match pp with
  | none => d.idequeue
  | some b => (d.buf b).qnext

/-- `*pp = v` -/
def Ide.setLink (d : Ide P B Data) (pp v : Option B) : Ide P B Data :=
  match pp with
  | none => { d with idequeue := v }
  | some b => d.setBuf b { d.buf b with qnext := v }

/-- The command of `idestart(b)`; the kernel panics for a block beyond the disk. -/
def command (b : Buf P B Data) : Option (Command Data) :=
  if b.blockno ≥ FSSIZE then none
  else some { regs := b.regs, write := if b.dirty then some b.data else none }

/-- `idestart(b)`, which waits while the device is busy. -/
def idestart (d : Ide P B Data) (b : B) : Option (Ide P B Data) :=
  match d.busy, command (d.buf b) with
  | none, some c => some { d with busy := some c, started := d.started ++ [b] }
  | _, _ => none

/-- The device ends its command and raises an interrupt. -/
def finish (d : Ide P B Data) (c : Command Data) (ok : Bool) : Ide P B Data :=
  match c.write with
  | some data =>
      { d with
        busy := none
        err := false
        disk := update d.disk c.regs.dev (update (d.disk c.regs.dev) c.regs.sector data)
        raised := d.raised + 1 }
  | none =>
      { d with
        busy := none
        err := !ok
        port := if ok then d.disk c.regs.dev c.regs.sector else d.port
        raised := d.raised + 1 }

/-- `b->flags |= B_VALID; b->flags &= ~B_DIRTY` -/
def mark (d : Ide P B Data) (b : B) : Ide P B Data :=
  { d.setBuf b { d.buf b with valid := true, dirty := false } with
    completed := d.completed ++
      [{ buf := b
         read := !(d.buf b).dirty
         failed := d.err
         valid := true
         data := (d.buf b).data
         content := d.content b }] }

/-- What comes next for a thread; `n` counts the requests queued before its own. -/
inductive Loc (B : Type)
  /-- a process that is not in `iderw` -/
  | out
  /-- `b->qnext = 0` -/
  | clear (b : B)
  /-- the loop that looks for the end of the queue -/
  | walk (b : B) (pp : Option B)
  /-- `if(idequeue == b)` -/
  | first (b : B) (n : Nat)
  | wait (b : B) (n : Nat)
  | leave (b : B) (n : Nat)
  /-- the handler, before the next interrupt -/
  | idle
  | enter
  | head
  /-- `insl`, if data is needed -/
  | read (b : B)
  | mark (b : B)
  | wake (b : B)
  /-- `if(idequeue != 0)` -/
  | next
  | exit
  | device
  deriving DecidableEq

/-- What a process does outside `iderw`, and how a command ends. -/
inductive In (B Data : Type)
  | lock (b : B)
  | unlock (b : B)
  | change (b : B) (valid dirty : Bool) (dev blockno : Nat) (data : Data)
  | iderw (b : B)
  | finish (ok : Bool)

variable [DecidableEq P]

/-- A process outside `iderw`. -/
def call (t : Thread P) (i : In B Data) (d : Ide P B Data) :
    Option (Op Unit B (Ide P B Data) (Loc B)) :=
  match i with
  | .lock b =>
      if (d.buf b).lock = none then
        some (.store (d.setBuf b { d.buf b with lock := some t }) .out)
      else none
  | .unlock b =>
      if (d.buf b).lock = some t then
        some (.store (d.setBuf b { d.buf b with lock := none }) .out)
      else none
  | .change b valid dirty dev blockno data =>
      if (d.buf b).lock = some t then
        some (.store (d.setBuf b { d.buf b with valid, dirty, dev, blockno, data }) .out)
      else none
  | .iderw b =>
      -- the three panics
      if (d.buf b).lock ≠ some t then none
      else if (d.buf b).done then none
      else if (d.buf b).dev ≠ 0 ∧ ¬ d.havedisk1 then none
      else some (.acquire () (.clear b))
  | .finish _ => none

def code (t : Thread P) (x : Loc B) (i : In B Data) (d : Ide P B Data) (_killed : Bool) :
    Option (Op Unit B (Ide P B Data) (Loc B)) :=
  match x with
  | .out => call t i d
  | .clear b => some (.store (d.setLink (some b) none) (.walk b none))
  | .walk b pp =>
      match d.link pp with
      | some c => some (.store d (.walk b (some c)))
      | none =>
          some (.store { d.setLink pp (some b) with queued := d.queued ++ [b] }
            (.first b d.queued.length))
  | .first b n =>
      if d.idequeue = some b then
        match idestart d b with
        | some d' => some (.store d' (.wait b n))
        | none => none
      else some (.store d (.wait b n))
  | .wait b n =>
      if (d.buf b).done then some (.store d (.leave b n)) else some (.sleep b () (.wait b n))
  | .leave _ _ => some (.release () .out)
  | .idle =>
      if d.taken < d.raised then some (.store { d with taken := d.taken + 1 } .enter) else none
  | .enter => some (.acquire () .head)
  | .head =>
      match d.idequeue with
      | none => some (.store d .exit)
      | some b => some (.store (d.setLink none (d.buf b).qnext) (.read b))
  | .read b =>
      if (d.buf b).dirty then some (.store d (.mark b))
      -- `idewait(1)`
      else if d.busy.isSome then none
      else if d.err then some (.store d (.mark b))
      else some (.store (d.setBuf b { d.buf b with data := d.port }) (.mark b))
  | .mark b => some (.store (mark d b) (.wake b))
  | .wake b => some (.wakeup b .next)
  | .next =>
      match d.idequeue with
      | none => some (.store d .exit)
      | some b =>
          match idestart d b with
          | some d' => some (.store d' .exit)
          | none => none
  | .exit => some (.release () .idle)
  | .device =>
      match d.busy, i with
      | some c, .finish ok => some (.store (finish d c ok) .device)
      | _, _ => none

def start : Thread P → Loc B
  | .proc _ => .out
  | .intr => .idle
  | .device => .device

/-- After `ideinit` and `binit`, with a device that is ready. -/
def initial (havedisk1 : Bool) (disk : Nat → Nat → Data) (zero : Data) : Ide P B Data where
  buf _ :=
    { valid := false, dirty := false, dev := 0, blockno := 0, lock := none, qnext := none,
      data := zero }
  idequeue := none
  havedisk1 := havedisk1
  busy := none
  err := false
  port := zero
  disk := disk
  raised := 0
  taken := 0
  queued := []
  started := []
  completed := []

abbrev IdeState (P B Data : Type) := State (Thread P) Unit B (Ide P B Data) (Loc B)

def driver (havedisk1 : Bool) (disk : Nat → Nat → Data) (zero : Data) :
    System (IdeState P B Data) (Act (Thread P) (In B Data)) :=
  monitor code start (initial havedisk1 disk zero)

end Code

/-! ## What is known where -/

/-- The requests in the queue and the one that the handler works on. -/
def Ide.pending (d : Ide P B Data) : List B := d.queued.drop d.completed.length

/-- Holds at all times. -/
structure Core (d : Ide P B Data) : Prop where
  completed : d.completed.map (·.buf) <+: d.started
  started : d.started <+: d.queued
  few : d.started.length ≤ d.completed.length + 1
  handled : d.completed.length ≤ d.taken
  taken : d.taken ≤ d.raised
  raised : d.raised + (if d.busy.isSome then 1 else 0) = d.started.length
  nodup : d.pending.Nodup
  undone : ∀ b ∈ d.pending, (d.buf b).done = false
  locked : ∀ b ∈ d.pending, (d.buf b).lock ≠ none
  /-- the device works on the request after the completed ones -/
  command : ∀ c b, d.busy = some c → d.started[d.completed.length]? = some b →
    command (d.buf b) = some c
  /-- what the device has read for it -/
  port : ∀ b, d.busy = none → d.started[d.completed.length]? = some b →
    (d.buf b).dirty = false → d.err = false → d.port = d.content b
  reads : ∀ c ∈ d.completed, c.read → c.failed = false → c.data = c.content

/-- `idequeue` and the `qnext` lead over `l`. -/
def Ide.Chain (d : Ide P B Data) (l : List B) : Prop := Path d.link none l none

/-- Holds while nobody has `idelock`. -/
structure Ready (d : Ide P B Data) : Prop extends Core d where
  chain : d.Chain d.pending
  working : d.started.length = min (d.completed.length + 1) d.queued.length

/-- Of the buffers that are not locked by another thread, `own` at most is in the queue. -/
def Owns (t : Thread P) (own : Option B) (d : Ide P B Data) : Prop :=
  ∀ b, (d.buf b).lock = some t ∨ (d.buf b).lock = none → own ≠ some b → b ∉ d.pending

/-- The thread has queued the request number `n`, for `b`. -/
structure Waits (t : Thread P) (b : B) (n : Nat) (d : Ide P B Data) : Prop where
  lock : (d.buf b).lock = some t
  owns : Owns t (some b) d
  queued : d.queued[n]? = some b
  done : n < d.completed.length → b ∉ d.pending ∧ (d.buf b).done = true

/-- The thread is about to queue a request for `b`. -/
structure Asks (t : Thread P) (b : B) (d : Ide P B Data) : Prop where
  ready : Ready d
  lock : (d.buf b).lock = some t
  owns : Owns t none d
  undone : (d.buf b).done = false

/-- The handler works on the request for `b`. -/
structure Handles (b : B) (d : Ide P B Data) : Prop where
  core : Core d
  taken : d.taken = d.completed.length + 1
  chain : ∃ l, d.pending = b :: l ∧ d.Chain l

/-- The request that the handler worked on is marked. -/
structure Marked (d : Ide P B Data) : Prop where
  core : Core d
  chain : d.Chain d.pending
  started : d.started.length = d.completed.length

/-- The thread that a location is for. -/
def Loc.For (t : Thread P) : Loc B → Prop
  | .out | .clear _ | .walk _ _ | .first _ _ | .wait _ _ | .leave _ _ => ∃ p, t = .proc p
  | .idle | .enter | .head | .read _ | .mark _ | .wake _ | .next | .exit => t = .intr
  | .device => t = .device

def Loc.Knows (t : Thread P) (d : Ide P B Data) : Loc B → Prop
  | .out => Owns t none d
  | .clear b => Asks t b d
  | .walk b pp => Asks t b d ∧ d.link (some b) = none ∧
      ∃ l m, d.pending = l ++ m ∧ pp = last none l
  | .first b n => Core d ∧ d.Chain d.pending ∧ Waits t b n d ∧ d.queued.length = n + 1 ∧
      d.started.length = min (d.completed.length + 1) n
  | .wait b n => Ready d ∧ Waits t b n d
  | .leave b n => Ready d ∧ Waits t b n d ∧ n < d.completed.length
  | .idle => d.taken = d.completed.length
  | .enter => d.taken = d.completed.length + 1
  | .head => Ready d ∧ d.taken = d.completed.length + 1
  | .read b => Handles b d
  | .mark b => Handles b d ∧ ((d.buf b).dirty = false → d.err = false →
      (d.buf b).data = d.content b)
  | .wake _ | .next => Marked d ∧ d.taken = d.completed.length
  | .exit => Ready d ∧ d.taken = d.completed.length
  | .device => True

/-- The locations with `idelock` held. -/
def Loc.inside : Loc B → Prop
  | .out | .idle | .enter | .device => False
  | _ => True

def outline : Outline (Thread P) Unit B (Ide P B Data) (Loc B) where
  holds x _ := x.inside
  knows t x d := x.For t ∧ x.Knows t d
  waits t _ y d := (∃ p, t = .proc p) ∧ ∃ b n, y = .wait b n ∧ Waits t b n d
  inv _ d := Ready d
  guard _ := ()
  idle b d := b ∈ d.pending
  owes x b := x = .wake b

/-! ## The registers -/

section Registers

variable {b : Buf P B Data}

theorem Buf.regs_sector (h : b.blockno < FSSIZE) : b.regs.sector = b.blockno := by
  have hlow : b.blockno < 1000 := h
  have hmul : b.blockno * sectorPerBlock = b.blockno := Nat.mul_one _
  have hbyte : ∀ n : Nat, n &&& 0xff = n % 256 := fun n => Nat.and_two_pow_sub_one_eq_mod n 8
  have hdrive : b.regs.r6 &&& 0x0f = 0 := by
    have htop : b.blockno >>> 24 = 0 := by
      rw [Nat.shiftRight_eq_div_pow]
      omega
    have hdev : b.dev &&& 1 = 0 ∨ b.dev &&& 1 = 1 := by
      rw [Nat.and_one_is_mod]
      omega
    show (0xe0 ||| (b.dev &&& 1) <<< 4 ||| (b.blockno * sectorPerBlock) >>> 24 &&& 0x0f) &&& 0x0f = 0
    rw [hmul, htop]
    rcases hdev with hdev | hdev
    · rw [hdev]
      decide
    · rw [hdev]
      decide
  unfold Regs.sector
  rw [hdrive]
  show (b.blockno * sectorPerBlock &&& 0xff) +
    ((b.blockno * sectorPerBlock) >>> 8 &&& 0xff) <<< 8 +
    ((b.blockno * sectorPerBlock) >>> 16 &&& 0xff) <<< 16 + 0 <<< 24 = b.blockno
  rw [hmul, hbyte, hbyte, hbyte]
  simp only [Nat.shiftRight_eq_div_pow, Nat.shiftLeft_eq]
  omega

theorem Buf.regs_dev (h : b.blockno < FSSIZE) : b.regs.dev = b.dev % 2 := by
  have hlow : b.blockno < 1000 := h
  have hmul : b.blockno * sectorPerBlock = b.blockno := Nat.mul_one _
  have htop : b.blockno >>> 24 = 0 := by
    rw [Nat.shiftRight_eq_div_pow]
    omega
  have hdev : b.dev % 2 = 0 ∨ b.dev % 2 = 1 := by omega
  show (0xe0 ||| (b.dev &&& 1) <<< 4 ||| (b.blockno * sectorPerBlock) >>> 24 &&& 0x0f) >>> 4 &&& 1
    = b.dev % 2
  rw [hmul, htop, Nat.and_one_is_mod b.dev]
  rcases hdev with hdev | hdev
  · rw [hdev]
    decide
  · rw [hdev]
    decide

/-- The device works on the block of the buffer. -/
theorem command_eq {c : Command Data} (h : command b = some c) :
    c.regs.dev = b.dev % 2 ∧ c.regs.sector = b.blockno ∧
      c.write = if b.dirty then some b.data else none := by
  unfold command at h
  split at h
  · cases h
  · rename_i hlt
    cases h
    have hlt : b.blockno < FSSIZE := Nat.lt_of_not_le hlt
    exact ⟨Buf.regs_dev hlt, Buf.regs_sector hlt, rfl⟩

end Registers

/-! ## The operations, one by one -/

section Next

variable [DecidableEq P] [DecidableEq B]

inductive Next (t : Thread P) (x : Loc B) (d : Ide P B Data) :
    Op Unit B (Ide P B Data) (Loc B) → Prop
  | outside {b : B} {v : Buf P B Data} (hx : x = .out)
      (hlock : (d.buf b).lock = some t ∨ (d.buf b).lock = none)
      (hv : v.lock = some t ∨ v.lock = none) (hlink : v.qnext = (d.buf b).qnext) :
      Next t x d (.store (d.setBuf b v) .out)
  | iderw {b : B} (hx : x = .out) (hlock : (d.buf b).lock = some t)
      (hundone : (d.buf b).done = false) : Next t x d (.acquire () (.clear b))
  | clear {b : B} (hx : x = .clear b) :
      Next t x d (.store (d.setLink (some b) none) (.walk b none))
  | walk {b c : B} {pp : Option B} (hx : x = .walk b pp) (hlink : d.link pp = some c) :
      Next t x d (.store d (.walk b (some c)))
  | append {b : B} {pp : Option B} (hx : x = .walk b pp) (hlink : d.link pp = none) :
      Next t x d (.store { d.setLink pp (some b) with queued := d.queued ++ [b] }
        (.first b d.queued.length))
  | first {b : B} {n : Nat} {d' : Ide P B Data} (hx : x = .first b n)
      (hqueue : d.idequeue = some b) (hd : idestart d b = some d') :
      Next t x d (.store d' (.wait b n))
  | behind {b : B} {n : Nat} (hx : x = .first b n) (hqueue : d.idequeue ≠ some b) :
      Next t x d (.store d (.wait b n))
  | done {b : B} {n : Nat} (hx : x = .wait b n) (hdone : (d.buf b).done = true) :
      Next t x d (.store d (.leave b n))
  | sleep {b : B} {n : Nat} (hx : x = .wait b n) (hundone : (d.buf b).done = false) :
      Next t x d (.sleep b () (.wait b n))
  | leave {b : B} {n : Nat} (hx : x = .leave b n) : Next t x d (.release () .out)
  | take (hx : x = .idle) (htaken : d.taken < d.raised) :
      Next t x d (.store { d with taken := d.taken + 1 } .enter)
  | enter (hx : x = .enter) : Next t x d (.acquire () .head)
  | nothing (hx : x = .head) (hqueue : d.idequeue = none) : Next t x d (.store d .exit)
  | pop {b : B} (hx : x = .head) (hqueue : d.idequeue = some b) :
      Next t x d (.store (d.setLink none (d.buf b).qnext) (.read b))
  | noData {b : B} (hx : x = .read b) (hnone : (d.buf b).dirty = true ∨ d.err = true) :
      Next t x d (.store d (.mark b))
  | read {b : B} (hx : x = .read b) (hdirty : (d.buf b).dirty = false) (hbusy : d.busy = none) :
      Next t x d (.store (d.setBuf b { d.buf b with data := d.port }) (.mark b))
  | mark {b : B} (hx : x = .mark b) : Next t x d (.store (mark d b) (.wake b))
  | wake {b : B} (hx : x = .wake b) : Next t x d (.wakeup b .next)
  | last (hx : x = .next) (hqueue : d.idequeue = none) : Next t x d (.store d .exit)
  | next {b : B} {d' : Ide P B Data} (hx : x = .next) (hqueue : d.idequeue = some b)
      (hd : idestart d b = some d') : Next t x d (.store d' .exit)
  | exit (hx : x = .exit) : Next t x d (.release () .idle)
  | finish {c : Command Data} {ok : Bool} (hx : x = .device) (hbusy : d.busy = some c) :
      Next t x d (.store (finish d c ok) .device)

theorem Next.of_call {t : Thread P} {i : In B Data} {d : Ide P B Data}
    {op : Op Unit B (Ide P B Data) (Loc B)} (h : call t i d = some op) : Next t .out d op := by
  unfold call at h
  split at h
  · split at h
    · rename_i hnone
      cases h
      exact .outside rfl (.inr hnone) (.inl rfl) rfl
    · cases h
  · split at h
    · rename_i hlock
      cases h
      exact .outside rfl (.inl hlock) (.inr rfl) rfl
    · cases h
  · split at h
    · rename_i hlock
      cases h
      exact .outside rfl (.inl hlock) (.inl hlock) rfl
    · cases h
  · split at h
    · cases h
    · rename_i hlock
      split at h
      · cases h
      · rename_i hundone
        split at h
        · cases h
        · cases h
          exact .iderw rfl (not_not.mp hlock) (by simpa using hundone)
  · cases h

theorem Next.of_code {t : Thread P} {x : Loc B} {i : In B Data} {d : Ide P B Data} {k : Bool}
    {op : Op Unit B (Ide P B Data) (Loc B)} (h : code t x i d k = some op) : Next t x d op := by
  unfold code at h
  split at h
  · exact .of_call h
  · cases h
    exact .clear rfl
  · split at h
    · rename_i hlink
      cases h
      exact .walk rfl hlink
    · rename_i hlink
      cases h
      exact .append rfl hlink
  · split at h
    · rename_i hqueue
      split at h
      · rename_i hd
        cases h
        exact .first rfl hqueue hd
      · cases h
    · rename_i hqueue
      cases h
      exact .behind rfl hqueue
  · split at h
    · rename_i hdone
      cases h
      exact .done rfl hdone
    · rename_i hundone
      cases h
      exact .sleep rfl (by simpa using hundone)
  · cases h
    exact .leave rfl
  · split at h
    · rename_i htaken
      cases h
      exact .take rfl htaken
    · cases h
  · cases h
    exact .enter rfl
  · split at h
    · rename_i hqueue
      cases h
      exact .nothing rfl hqueue
    · rename_i hqueue
      cases h
      exact .pop rfl hqueue
  · split at h
    · rename_i hdirty
      cases h
      exact .noData rfl (.inl hdirty)
    · rename_i hdirty
      split at h
      · cases h
      · rename_i hbusy
        split at h
        · rename_i herr
          cases h
          exact .noData rfl (.inr herr)
        · cases h
          exact .read rfl (by simpa using hdirty) (by simpa using hbusy)
  · cases h
    exact .mark rfl
  · cases h
    exact .wake rfl
  · split at h
    · rename_i hqueue
      cases h
      exact .last rfl hqueue
    · rename_i hqueue
      split at h
      · rename_i hd
        cases h
        exact .next rfl hqueue hd
      · cases h
  · cases h
    exact .exit rfl
  · split at h
    · rename_i hbusy
      cases h
      exact .finish rfl hbusy
    · cases h

end Next

end OsWork.Ports.IdeDisk

import OsWork.Verified.Interleaving
import OsWork.Ports.FsDirectories
import Mathlib.Data.Finset.Card

/-!
# The file system of `ass5/final_repo` under concurrent calls

`fs.c` down to the blocks that inodes refer to: the free bit map, direct and indirect
addresses, sizes, directory entries, the references and locks of inodes in memory.
Every process runs a call as a program of atomic actions.  An action is what the
source does under one buffer, or under a spin lock, or on fields that the sleep lock
of an inode keeps for its holder.

The copies of an inode in memory and on disk are one: the source assigns to a copy
under the inode's lock, and `iupdate` follows before anyone else can look.  Two
assignments are drawn into the `iupdate` next to them: `ip->valid = 0` in `iput` and
the new fields in `create`.  The entries of a directory are kept beside the words of
its blocks.  Only what is read back is kept of the words of a block: an indirect
block, and the inode of a number that the inode table does not have, which `ilock`
reads from whatever block comes after the table.  The number of cache slots
(`NINODE`), the buffers and the log are left out; see `BufferCache` and `FsLog`.

Not in the source are the fields from `busy` on.  They record what a process is about,
for the proofs; no action depends on them.
-/

namespace OsWork.Ports.FsThreads

open OsWork.Verified.Interleaving
open FsDirectories (FileType Name Dirent ROOTINO NOFILE insertEntry elements dot dotdot)
open Function (update)

/-! ## The disk -/

abbrev BSIZE : Nat := 512

/-- Bitmap bits per block. -/
abbrev BPB : Nat := 4096

/-- Inodes per block. -/
abbrev IPB : Nat := 8

abbrev NDIRECT : Nat := 12

abbrev NINDIRECT : Nat := 128

abbrev MAXFILE : Nat := NDIRECT + NINDIRECT

abbrev NFILE : Nat := 100

/-- The device number of the console, the only one with entries in `devsw`. -/
abbrev CONSOLE : Nat := 1

/-- `struct superblock`, of the disk that is in use; `datastart` is the first block after
the bit map. -/
class Superblock where
  size : Nat
  ninodes : Nat
  inodestart : Nat
  bmapstart : Nat
  datastart : Nat

/-- `struct dinode` with the fields of `struct inode`; `addrs NDIRECT` is the indirect
block. -/
structure Inode where
  type : FileType
  major : Nat
  nlink : Int
  size : Nat
  addrs : Nat → Nat
  /-- the contents of a directory -/
  entries : List Dirent

/-- A zeroed `struct dinode`. -/
def Inode.zero : Inode :=
  { type := .free, major := 0, nlink := 0, size := 0, addrs := fun _ => 0, entries := [] }

/-- `sizeof(struct dirent)` -/
abbrev direntSize : Nat := 16

/-- The entries that the loops over a directory see. -/
def Inode.dirents (ip : Inode) : List Dirent := ip.entries.take (ip.size / direntSize)

/-- The loop of `dirlookup`: offset and inode number of the first entry in use with the
name. -/
def Inode.find (ip : Inode) (name : Name) : Option (Nat × Nat) :=
  (ip.dirents.findIdx? fun de => de.inum != 0 && de.name == name).bind fun off =>
    ip.dirents[off]?.map fun de => (off, de.inum)

/-- `struct file`; `ip` is `none` while `type` is `FD_NONE`. -/
structure File where
  ref : Nat
  ip : Option Nat
  off : Nat
  readable : Bool
  writable : Bool

variable {P : Type}

structure State (P : Type) where
  inode : Nat → Inode
  /-- the words of the blocks -/
  words : Nat → Nat → Nat
  /-- the free bit map -/
  used : Nat → Bool
  /-- `ip->ref` of the copy in memory -/
  ref : Nat → Nat
  /-- `ip->valid` -/
  valid : Nat → Bool
  /-- who holds `ip->lock` -/
  locked : Nat → Option P
  /-- `curproc->cwd`; `none` when there is no such process -/
  cwd : P → Option Nat
  ofile : P → Fin NOFILE → Option Nat
  /-- `ftable.file` -/
  file : Nat → File
  /-- who has read the inode since it has the lock -/
  busy : Nat → Option P
  /-- the inode whose lock the process waits for in `acquiresleep` -/
  want : P → Option Nat
  /-- the block that `balloc` has marked and that is in no slot yet -/
  hand : P → Option Nat
  /-- the slots of the inode whose blocks `itrunc` has freed -/
  gone : Nat → Nat → Bool
  /-- the blocks passed to `log_write` since `begin_op` -/
  logged : P → Finset Nat
  clock : Nat
  /-- when the inode number was given out -/
  born : Nat → Nat
  /-- when the lock of the inode was taken -/
  since : Nat → Nat
  /-- how many links the inode has, by directory entries and by calls that are about to
  write one -/
  due : Nat → Nat
  /-- the inode that `create` has allocated and not locked yet -/
  fresh : P → Option Nat
  /-- the inode for which `sys_link` has counted a link that is not written yet -/
  pend : P → Option Nat
  /-- the inode `sys_unlink` has taken the name of, and the directory it gives up -/
  up : P → Option (Nat × Nat)

/-- The panics. -/
inductive Panic
  | ballocOutOfBlocks
  /-- `panic("freeing free block")` -/
  | freeingFreeBlock
  | iallocNoInodes
  | ilock
  | ilockNoType
  /-- `panic("incorrect blockno")` in `iderw` -/
  | iderwBlockno
  /-- no panic: what is read as an inode has a type that the model has not -/
  | otherType
  | iunlock
  | bmapOutOfRange
  | dirlookupNotDir
  | dirlookupRead
  | dirlink
  | createDots
  | createDirlink
  | unlinkNlink
  | unlinkWritei
  | fileclose
  | shortFilewrite
  deriving DecidableEq

/-- Where `iput` is called from. -/
inductive Site
  /-- the walk of `namex` -/
  | walk
  | call
  deriving DecidableEq

/-- What an action is, where restrictions on runs speak of it. -/
inductive Label
  | plain
  /-- `ilock` has the lock and looks at `ip->valid` -/
  | load (i : Nat)
  /-- `acquiresleep` finds the lock free -/
  | lock (i : Nat)
  /-- `iput` decides whether to free the inode -/
  | drop (site : Site) (i : Nat)
  /-- `dirlink`, called by `sys_link`, looks for the name -/
  | linkName (name : Name)
  /-- `sys_unlink` unlocks the directory `dp`; it has taken the name of `ip` -/
  | giveUp (dp ip : Nat)
  /-- `filewrite` writes to the inode -/
  | write (i : Nat)
  deriving DecidableEq

/-- Kernel code of a call. -/
abbrev Fs (P : Type) := Prog (State P) Label Panic

variable [Superblock] [DecidableEq P]

/-- An action without a name, which is always possible. -/
def step (f : State P → State P) : Fs P Unit :=
  .atomic .plain (fun s => some (f s)) fun _ => ()

/-- A read of fields that nobody else changes, or of one word. -/
def fetch {α : Type} (v : State P → α) : Fs P α :=
  .atomic .plain some v

def panic {α : Type} (e : Panic) : Fs P α := .stop e

/-! ## Blocks -/

/-- `BBLOCK` -/
def BBLOCK (b : Nat) : Nat := b / BPB + Superblock.bmapstart

/-- `IBLOCK` -/
def IBLOCK (i : Nat) : Nat := i / IPB + Superblock.inodestart

namespace State

/-- `log_write`, called by `p`. -/
def log (s : State P) (p : P) (b : Nat) : State P :=
  { s with logged := update s.logged p (insert b (s.logged p)) }

/-- The first block from `b` to `b + n` that the bit map has free. -/
def firstFree (s : State P) (b : Nat) : Nat → Option Nat
  | 0 => none
  | n + 1 => if s.used b then s.firstFree (b + 1) n else some b

/-- `balloc` finds a bit that is clear and sets it. -/
def mark (s : State P) (p : P) (b : Nat) : State P :=
  { s.log p (BBLOCK b) with used := update s.used b true, hand := update s.hand p (some b) }

/-- `memset` and `log_write` of `bzero` -/
def zero (s : State P) (p : P) (b : Nat) : State P :=
  { s.log p b with words := update s.words b fun _ => 0 }

/-- `bfree` clears the bit of the block in the slot `k` of the inode. -/
def unmark (s : State P) (p : P) (i k b : Nat) : State P :=
  { s.log p (BBLOCK b) with
    used := update s.used b false
    gone := update s.gone i (update (s.gone i) k true) }

/-- The assignment to `ip->addrs[k]`; a block just allocated is then in its slot. -/
def setAddr (s : State P) (p : P) (i k b : Nat) : State P :=
  { s with
    inode := update s.inode i
      { s.inode i with addrs := update (s.inode i).addrs k b }
    hand := update s.hand p none }

/-- The assignment to `a[k]` in the indirect block `ind`, and `log_write`. -/
def setWord (s : State P) (p : P) (ind k b : Nat) : State P :=
  { s.log p ind with
    words := update s.words ind (update (s.words ind) k b)
    hand := update s.hand p none }

end State

def bzero (p : P) (b : Nat) : Fs P Unit := step fun s => s.zero p b

/-- The loop of `balloc` over the blocks of the bit map, from the block `b` on. -/
def ballocFrom (p : P) : Nat → Nat → Fs P Nat
  | _, 0 => panic .ballocOutOfBlocks
  | b, n + 1 =>
      .act .plain
        (fun s => some (match s.firstFree b (min BPB (Superblock.size - b)) with
          | some b' => s.mark p b'
          | none => s))
        fun s => match s.firstFree b (min BPB (Superblock.size - b)) with
          | some b' => do
              bzero p b'
              pure b'
          | none => ballocFrom p (b + BPB) n

def balloc (p : P) : Fs P Nat :=
  ballocFrom p 0 ((Superblock.size + (BPB - 1)) / BPB)

/-- `bfree` of the block in the slot `k` of the inode. -/
def bfree (p : P) (i k b : Nat) : Fs P Unit :=
  .act .plain (fun s => some (if s.used b then s.unmark p i k b else s)) fun s =>
    if s.used b then pure () else panic .freeingFreeBlock

/-! ## Inodes -/

/-- The values of `type` in `struct dinode`. -/
def FileType.code : FileType → Nat
  | .free => 0
  | .dir => 1
  | .file => 2
  | .dev => 3

def typeOfCode : Nat → Option FileType
  | 0 => some .free
  | 1 => some .dir
  | 2 => some .file
  | 3 => some .dev
  | _ => none

/-- A `short`. -/
def signed (n : Nat) : Int := if n < 32768 then n else n - 65536

/-- The words of a block read as its inode `k`; `none` when the type is no type of
inodes. -/
def dinodeAt (w : Nat → Nat) (k : Nat) : Option Inode :=
  (typeOfCode (w (16 * k) % 65536)).map fun type =>
    { type := type
      major := w (16 * k) / 65536
      nlink := signed (w (16 * k + 1) / 65536)
      size := w (16 * k + 2)
      addrs := fun j => w (16 * k + 3 + j)
      entries := [] }

/-- The words of a block after a `struct dinode` has been copied to its inode `k`. -/
def putDinode (w : Nat → Nat) (k : Nat) (ip : Inode) (j : Nat) : Nat :=
  if j = 16 * k then FileType.code ip.type + 65536 * ip.major
  else if j = 16 * k + 1 then w j % 65536 + 65536 * (ip.nlink % 65536).toNat
  else if j = 16 * k + 2 then ip.size
  else if 16 * k + 3 ≤ j ∧ j < 16 * (k + 1) then ip.addrs (j - (16 * k + 3))
  else w j

namespace State

/-- What `bread` of the inode's block finds. -/
def dinode (s : State P) (i : Nat) : Option Inode :=
  if i < Superblock.ninodes then some (s.inode i) else dinodeAt (s.words (IBLOCK i)) (i % IPB)

/-- Assignments to fields of an inode, and `iupdate`. -/
def iupdate (s : State P) (p : P) (i : Nat) (f : Inode → Inode) : State P :=
  { s.log p (IBLOCK i) with
    inode := update s.inode i (f (s.inode i))
    words :=
      if i < Superblock.ninodes then s.words
      else update s.words (IBLOCK i)
        (putDinode (s.words (IBLOCK i)) (i % IPB) (f (s.inode i))) }

def iget (s : State P) (i : Nat) : State P :=
  { s with
    ref := update s.ref i (s.ref i + 1)
    valid := if s.ref i = 0 then update s.valid i false else s.valid }

def idup (s : State P) (i : Nat) : State P :=
  { s with ref := update s.ref i (s.ref i + 1) }

def deref (s : State P) (i : Nat) : State P :=
  { s with ref := update s.ref i (s.ref i - 1) }

/-- `ialloc` has found the inode `i` free. -/
def allot (s : State P) (p : P) (i : Nat) (type : FileType) : State P :=
  { s.log p (IBLOCK i) with
    inode := update s.inode i { Inode.zero with type := type }
    clock := s.clock + 1
    born := update s.born i s.clock
    due := update s.due i 0
    fresh := update s.fresh p (some i) }

def wait (s : State P) (p : P) (i : Nat) : State P :=
  { s with want := update s.want p (some i) }

/-- `acquiresleep` takes the lock. -/
def lock (s : State P) (p : P) (i : Nat) : State P :=
  { s with
    locked := update s.locked i (some p)
    want := update s.want p none
    fresh := update s.fresh p none
    clock := s.clock + 1
    since := update s.since i s.clock }

def unlock (s : State P) (i : Nat) : State P :=
  { s with locked := update s.locked i none, busy := update s.busy i none }

/-- The inode `ip` has been read. -/
def load (s : State P) (p : P) (i : Nat) (ip : Inode) : State P :=
  { s with
    inode := update s.inode i ip
    valid := update s.valid i true
    busy := update s.busy i (some p) }

/-- `iput` finds that the inode has no links and no other references. -/
def lastRef (s : State P) (i : Nat) : Bool :=
  s.valid i && (s.inode i).nlink == 0 && s.ref i == 1

/-- `ip->type = 0`, `iupdate(ip)` and `ip->valid = 0`. -/
def free (s : State P) (p : P) (i : Nat) : State P :=
  { s.iupdate p i fun ip => { ip with type := .free } with
    valid := update s.valid i false
    busy := update s.busy i none
    gone := update s.gone i fun _ => false
    due := update s.due i 0 }

end State

def getInode (i : Nat) : Fs P Inode := fetch fun s => s.inode i

def iupdate (p : P) (i : Nat) (f : Inode → Inode) : Fs P Unit :=
  step fun s => s.iupdate p i f

def iget (i : Nat) : Fs P Unit := step fun s => s.iget i

def idup (i : Nat) : Fs P Unit := step fun s => s.idup i

/-- The loop of `ialloc` over inode numbers from `i` on. -/
def iallocFrom (p : P) (type : FileType) : Nat → Nat → Fs P Nat
  | _, 0 => panic .iallocNoInodes
  | i, n + 1 =>
      .act .plain
        (fun s => some (if (s.inode i).type = .free then s.allot p i type else s))
        fun s =>
          if (s.inode i).type = .free then do
            iget i
            pure i
          else iallocFrom p type (i + 1) n

def ialloc (p : P) (type : FileType) : Fs P Nat :=
  iallocFrom p type 1 (Superblock.ninodes - 1)

def acquiresleep (p : P) (i : Nat) : Fs P Unit := do
  step fun s => s.wait p i
  .atomic (.lock i) (fun s => if s.locked i = none then some (s.lock p i) else none) fun _ => ()

def releasesleep (i : Nat) : Fs P Unit := step fun s => s.unlock i

/-- `ilock` with the lock: what it reads the inode as. -/
def State.toLoad (s : State P) (i : Nat) : Except Panic Inode :=
  if s.valid i then .ok (s.inode i)
  else if Superblock.size ≤ IBLOCK i then .error .iderwBlockno
  else match s.dinode i with
    | some ip => if ip.type = .free then .error .ilockNoType else .ok ip
    | none => .error .otherType

def ilock (p : P) (i : Nat) : Fs P Unit := do
  let r ← fetch fun s => s.ref i
  if r < 1 then panic .ilock
  else do
    acquiresleep p i
    .act (.load i)
      (fun s => some (match s.toLoad i with
        | .ok ip => s.load p i ip
        | .error _ => s))
      fun s => match s.toLoad i with
        | .ok _ => pure ()
        | .error e => panic e

/-- `iunlock`, with the record of what `sys_unlink` is about. -/
def iunlockNote (l : Label) (p : P) (i : Nat) (note : State P → State P) : Fs P Unit :=
  .act l
    (fun s => some (if s.locked i = some p ∧ 1 ≤ s.ref i then note (s.unlock i) else s)) fun s =>
      if s.locked i = some p ∧ 1 ≤ s.ref i then pure () else panic .iunlock

def iunlock (p : P) (i : Nat) : Fs P Unit := iunlockNote .plain p i id

/-- The loop of `itrunc` over `ip->addrs[k]`. -/
def itruncDirect (p : P) (i : Nat) : List Nat → Fs P Unit
  | [] => pure ()
  | k :: ks => do
      let addr ← fetch fun s => (s.inode i).addrs k
      (if addr ≠ 0 then do
        bfree p i k addr
        step fun s => s.setAddr p i k 0
      else pure ())
      itruncDirect p i ks

/-- The loop of `itrunc` over `a[k]`. -/
def itruncIndirect (p : P) (i ind : Nat) : List Nat → Fs P Unit
  | [] => pure ()
  | k :: ks => do
      let addr ← fetch fun s => s.words ind k
      (if addr ≠ 0 then bfree p i (NDIRECT + k) addr else pure ())
      itruncIndirect p i ind ks

def itrunc (p : P) (i : Nat) : Fs P Unit := do
  itruncDirect p i (List.range NDIRECT)
  let ind ← fetch fun s => (s.inode i).addrs NDIRECT
  (if ind ≠ 0 then do
    itruncIndirect p i ind (List.range NINDIRECT)
    bfree p i MAXFILE ind
    step fun s => s.setAddr p i NDIRECT 0
  else pure ())
  iupdate p i fun ip => { ip with size := 0, entries := [] }

def iput (site : Site) (p : P) (i : Nat) : Fs P Unit := do
  acquiresleep p i
  .act (.drop site i)
    (fun s => some (if s.lastRef i then { s with busy := update s.busy i (some p) } else s))
    fun s =>
      if s.lastRef i then do
        itrunc p i
        step fun s => s.free p i
      else pure ()
  releasesleep i
  step fun s => s.deref i

def iunlockput (site : Site) (p : P) (i : Nat) : Fs P Unit := do
  iunlock p i
  iput site p i

/-! ## Contents -/

/-- What a call of `writei` copies from. -/
structure Data where
  /-- the words of the block `bn` of the file after the copy, by those before -/
  words : Nat → (Nat → Nat) → Nat → Nat
  /-- the entries after the copy, when the inode is a directory -/
  entries : List Dirent → List Dirent

/-- The blocks of a file that the bytes from `off` to `off + n` are in. -/
def blocksOf (off n : Nat) : List Nat :=
  if n = 0 then [] else List.range' (off / BSIZE) ((off + n - 1) / BSIZE + 1 - off / BSIZE)

/-- `bmap` allocates a block for the slot `ip->addrs[k]`. -/
def bmapAddr (p : P) (i k : Nat) : Fs P Nat := do
  let addr ← balloc p
  step fun s => s.setAddr p i k addr
  pure addr

/-- `bmap` allocates a block for the slot `a[k]` of the indirect block. -/
def bmapWord (p : P) (ind k : Nat) : Fs P Nat := do
  let addr ← balloc p
  step fun s => s.setWord p ind k addr
  pure addr

def bmap (p : P) (i bn : Nat) : Fs P Nat :=
  if bn < NDIRECT then do
    let addr ← fetch fun s => (s.inode i).addrs bn
    if addr = 0 then bmapAddr p i bn else pure addr
  else if bn - NDIRECT < NINDIRECT then do
    let addr ← fetch fun s => (s.inode i).addrs NDIRECT
    let ind ← if addr = 0 then bmapAddr p i NDIRECT else pure addr
    let addr ← fetch fun s => s.words ind (bn - NDIRECT)
    if addr = 0 then bmapWord p ind (bn - NDIRECT) else pure addr
  else panic .bmapOutOfRange

/-- The `bread`s of a loop of `readi` calls. -/
def scan (p : P) (i : Nat) : List Nat → Fs P Unit
  | [] => pure ()
  | bn :: bns => do
      let _ ← bmap p i bn
      scan p i bns

/-- `consoleread` and `consolewrite` give the inode up while they work. -/
def console (p : P) (i : Nat) : Fs P Unit := do
  iunlock p i
  ilock p i

/-- `none` is the result `-1`. -/
def readi (p : P) (i off n : Nat) : Fs P (Option Nat) := do
  let ip ← getInode i
  if ip.type = .dev then
    if ip.major ≠ CONSOLE then pure none
    else do
      console p i
      pure (some n)
  else if ip.size < off then pure none
  else do
    let n := min n (ip.size - off)
    scan p i (blocksOf off n)
    pure (some n)

namespace State

/-- `memmove` to the block `b`, which is the block `bn` of the inode, and `log_write`. -/
def store (s : State P) (p : P) (i bn b : Nat) (data : Data) : State P :=
  { s.log p b with
    words := update s.words b (data.words bn (s.words b))
    inode := update s.inode i
      { s.inode i with entries := data.entries (s.inode i).entries } }

end State

/-- The loop of `writei`. -/
def writeBlocks (p : P) (i : Nat) (data : Data) (note : State P → State P) :
    List Nat → Fs P Unit
  | [] => pure ()
  | bn :: bns => do
      let b ← bmap p i bn
      step fun s => note (s.store p i bn b data)
      writeBlocks p i data note bns

def writei (p : P) (i off n : Nat) (data : Data) (note : State P → State P) :
    Fs P (Option Nat) := do
  let ip ← getInode i
  if ip.type = .dev then
    if ip.major ≠ CONSOLE then pure none
    else do
      console p i
      pure (some n)
  else if ip.size < off then pure none
  else if MAXFILE * BSIZE < off + n then pure none
  else do
    writeBlocks p i data note (blocksOf off n)
    (if 0 < n ∧ ip.size < off + n then iupdate p i fun ip => { ip with size := off + n }
    else pure ())
    pure (some n)

/-! ## Directories -/

/-- The blocks that a loop over the entries reads, when it stops at the entry `off` or
goes to the end. -/
def Inode.visited (ip : Inode) : Option Nat → List Nat
  | some off => List.range (off * direntSize / BSIZE + 1)
  | none => List.range ((ip.size + (BSIZE - 1)) / BSIZE)

/-- `dirlookup`, with the index of the entry. -/
def dirlookup (l : Label) (p : P) (dp : Nat) (name : Name) : Fs P (Option (Nat × Nat)) := do
  let d : Inode ← .atomic l some fun s => s.inode dp
  if d.type ≠ .dir then panic .dirlookupNotDir
  else do
    scan p dp (d.visited ((d.find name).map (·.1)))
    match d.find name with
    | none => if d.size % direntSize ≠ 0 then panic .dirlookupRead else pure none
    | some (off, inum) => do
        iget inum
        pure (some (off, inum))

/-- The bytes of a `struct dirent`. -/
def direntBytes (de : Dirent) : List Nat :=
  [de.inum % 256, de.inum / 256] ++ de.name.map Char.toNat

/-- The words of a `struct dirent`. -/
def direntWord (de : Dirent) (k : Nat) : Nat :=
  let byte j := (direntBytes de).getD (4 * k + j) 0
  byte 0 + 256 * (byte 1 + 256 * (byte 2 + 256 * byte 3))

/-- The entry `off` of a directory, written over what is there. -/
def entryData (de : Dirent) (off : Nat) : Data where
  words _ w j :=
    if 4 * (off % 32) ≤ j ∧ j < 4 * (off % 32) + 4 then direntWord de (j - 4 * (off % 32)) else w j
  entries es := if off < es.length then es.set off de else es ++ [de]

/-- `dirlink`; `false` is the result `-1`. -/
def dirlink (l : Label) (p : P) (dp : Nat) (name : Name) (inum : Nat)
    (note : State P → State P) : Fs P Bool := do
  match ← dirlookup l p dp name with
  | some (_, ip) => do
      iput .call p ip
      pure false
  | none => do
      let d ← getInode dp
      let hole := d.dirents.findIdx? fun de => de.inum == 0
      scan p dp (d.visited hole)
      let off := hole.getD (d.size / direntSize)
      let r ← writei p dp (off * direntSize) direntSize
        (entryData { inum := inum, name := name } off) note
      if r ≠ some direntSize then panic .dirlink else pure true

/-- `isdirempty` -/
def isdirempty (p : P) (dp : Nat) : Fs P Bool := do
  let d ← getInode dp
  let next := (d.dirents.drop 2).findIdx? fun de => de.inum != 0
  scan p dp (d.visited (next.map (· + 2)))
  pure next.isNone

/-! ## Paths -/

/-- The loop of `namex` from the inode `ip`, over the elements that are left. -/
def namexLoop (nameiparent : Bool) (p : P) (ip : Nat) (name : Name) :
    List Name → Fs P (Option (Nat × Name))
  | [] =>
      if nameiparent then do
        iput .walk p ip
        pure none
      else pure (some (ip, name))
  | elem :: rest => do
      ilock p ip
      let d ← getInode ip
      if d.type ≠ .dir then do
        iunlockput .walk p ip
        pure none
      else if nameiparent && rest.isEmpty then do
        iunlock p ip
        pure (some (ip, elem))
      else
        match ← dirlookup .plain p ip elem with
        | none => do
            iunlockput .walk p ip
            pure none
        | some (_, next) => do
            iunlockput .walk p ip
            namexLoop nameiparent p next elem rest

def namex (nameiparent : Bool) (p : P) (path : List Char) : Fs P (Option (Nat × Name)) :=
  if path.head? = some '/' then do
    iget ROOTINO
    namexLoop nameiparent p ROOTINO [] (elements path)
  else do
    match ← fetch fun s => s.cwd p with
    | none => pure none
    | some ip => do
        idup ip
        namexLoop nameiparent p ip [] (elements path)

/-! ## System calls -/

/-- `begin_op`; the blocks are counted anew. -/
def begin_op (p : P) : Fs P Unit := step fun s => { s with logged := update s.logged p ∅ }

/-- `end_op` changes nothing that is modelled here. -/
def end_op : Fs P Unit := pure ()

namespace State

/-- `ip->nlink++` and `iupdate`; `n` links more are recorded. -/
def addLink (s : State P) (p : P) (i : Nat) : State P :=
  { s.iupdate p i fun ip => { ip with nlink := ip.nlink + 1 } with
    due := update s.due i (s.due i + 1) }

/-- `ip->nlink--` and `iupdate` -/
def dropLink (s : State P) (p : P) (i : Nat) : State P :=
  s.iupdate p i fun ip => { ip with nlink := ip.nlink - 1 }

/-- A link less is recorded. -/
def undue (s : State P) (i : Nat) : State P :=
  { s with due := update s.due i (s.due i - 1) }

/-- `create` fills in the inode it has allocated. -/
def initInode (s : State P) (p : P) (i major : Nat) : State P :=
  { s.iupdate p i fun ip => { ip with major := major, nlink := 1 } with
    due := update s.due i 1 }

end State

/-- A `dirlink` of `create`, which panics when it fails. -/
def dirlinkOrPanic (e : Panic) (p : P) (dp : Nat) (name : Name) (inum : Nat) : Fs P Unit := do
  let linked ← dirlink .plain p dp name inum id
  if linked then pure () else panic e

/-- `create`: the `.` and `..` entries of the directory `ip`. -/
def createDots (p : P) (dp ip : Nat) : Fs P Unit := do
  step fun s => s.addLink p dp
  dirlinkOrPanic .createDots p ip dot ip
  dirlinkOrPanic .createDots p ip dotdot dp

/-- `create` after its `dirlookup` has found nothing. -/
def createNew (p : P) (dp : Nat) (name : Name) (type : FileType) (major : Nat) :
    Fs P (Option Nat) := do
  let ip ← ialloc p type
  ilock p ip
  step fun s => s.initInode p ip major
  (if type = .dir then createDots p dp ip else pure ())
  dirlinkOrPanic .createDirlink p dp name ip
  iunlockput .call p dp
  pure (some ip)

/-- `create`, which returns `ip` locked. -/
def create (p : P) (path : List Char) (type : FileType) (major : Nat) :
    Fs P (Option Nat) := do
  match ← namex true p path with
  | none => pure none
  | some (dp, name) => do
      ilock p dp
      match ← dirlookup .plain p dp name with
      | some (_, ip) => do
          iunlockput .call p dp
          ilock p ip
          let node ← getInode ip
          if type = .file ∧ node.type = .file then pure (some ip)
          else do
            iunlockput .call p ip
            pure none
      | none => createNew p dp name type major

/-- `O_WRONLY`, `O_RDWR`, `O_CREATE` -/
def O_WRONLY : Nat := 0x001

def O_RDWR : Nat := 0x002

def O_CREATE : Nat := 0x200

namespace State

/-- The first entry of `ftable` that `filealloc` finds free. -/
def freeFile (s : State P) : Option Nat :=
  (List.range NFILE).find? fun f => (s.file f).ref == 0

/-- `fdalloc` -/
def freeFd (s : State P) (p : P) : Option (Fin NOFILE) :=
  (List.finRange NOFILE).find? fun fd => (s.ofile p fd).isNone

def setFile (s : State P) (f : Nat) (file : File) : State P :=
  { s with file := update s.file f file }

def setFd (s : State P) (p : P) (fd : Fin NOFILE) (f : Option Nat) : State P :=
  { s with ofile := update s.ofile p (update (s.ofile p) fd f) }

def setCwd (s : State P) (p : P) (i : Option Nat) : State P :=
  { s with cwd := update s.cwd p i }

/-- `filedup` -/
def filedup (s : State P) (f : Nat) : State P :=
  s.setFile f { s.file f with ref := (s.file f).ref + 1 }

/-- `fileclose` under `ftable.lock` -/
def undup (s : State P) (f : Nat) : State P :=
  s.setFile f
    { s.file f with
      ref := (s.file f).ref - 1
      ip := if (s.file f).ref = 1 then none else (s.file f).ip }

/-- What `fork` does to files and the current directory; the child does not run yet. -/
def fork (s : State P) (p q : P) : State P :=
  let files := (List.finRange NOFILE).filterMap fun fd => s.ofile p fd
  let t := files.foldl filedup s
  let t := match s.cwd p with
    | some i => t.idup i
    | none => t
  { t with
    ofile := update t.ofile q (s.ofile p)
    cwd := update t.cwd q (s.cwd p) }

end State

def filealloc : Fs P (Option Nat) :=
  .atomic .plain
    (fun s => some (match s.freeFile with
      | some f => s.setFile f { ref := 1, ip := none, off := 0, readable := false, writable := false }
      | none => s))
    fun s => s.freeFile

def fdalloc (p : P) (f : Nat) : Fs P (Option (Fin NOFILE)) :=
  .atomic .plain
    (fun s => some (match s.freeFd p with
      | some fd => s.setFd p fd (some f)
      | none => s))
    fun s => s.freeFd p

def fileclose (p : P) (f : Nat) : Fs P Unit := do
  let file : File ← .atomic .plain (fun s => some (s.undup f)) fun s => s.file f
  if file.ref < 1 then panic .fileclose
  else if 1 < file.ref then pure ()
  else match file.ip with
    | none => pure ()
    | some ip => do
        begin_op p
        iput .call p ip
        end_op

/-- `sys_open` after the inode has been found and locked. -/
def openInode (p : P) (ip omode : Nat) : Fs P Unit := do
  match ← filealloc with
  | none => do
      iunlockput .call p ip
      end_op
  | some f =>
      match ← fdalloc p f with
      | none => do
          fileclose p f
          iunlockput .call p ip
          end_op
      | some _ => do
          iunlock p ip
          end_op
          step fun s => s.setFile f
            { s.file f with
              ip := some ip
              off := 0
              readable := omode &&& O_WRONLY == 0
              writable := omode &&& O_WRONLY != 0 || omode &&& O_RDWR != 0 }

def sys_open (p : P) (path : List Char) (omode : Nat) : Fs P Unit := do
  begin_op p
  if omode &&& O_CREATE ≠ 0 then
    match ← create p path .file 0 with
    | none => end_op
    | some ip => openInode p ip omode
  else
    match ← namex false p path with
    | none => end_op
    | some (ip, _) => do
        ilock p ip
        let node ← getInode ip
        if node.type = .dir ∧ omode ≠ 0 then do
          iunlockput .call p ip
          end_op
        else openInode p ip omode

/-- `sys_mkdir` and `sys_mknod` -/
def sys_make (p : P) (path : List Char) (type : FileType) (major : Nat) : Fs P Unit := do
  begin_op p
  match ← create p path type major with
  | none => end_op
  | some ip => do
      iunlockput .call p ip
      end_op

def sys_mkdir (p : P) (path : List Char) : Fs P Unit := sys_make p path .dir 0

def sys_mknod (p : P) (path : List Char) (major : Nat) : Fs P Unit :=
  sys_make p path .dev major

/-- The label `bad` of `sys_link`. -/
def linkBad (p : P) (ip : Nat) : Fs P Unit := do
  ilock p ip
  step fun s => { (s.dropLink p ip).undue ip with pend := update s.pend p none }
  iunlockput .call p ip
  end_op

def sys_link (p : P) (old new : List Char) : Fs P Unit := do
  begin_op p
  match ← namex false p old with
  | none => end_op
  | some (ip, _) => do
      ilock p ip
      let node ← getInode ip
      if node.type = .dir then do
        iunlockput .call p ip
        end_op
      else do
        step fun s => { s.addLink p ip with pend := update s.pend p (some ip) }
        iunlock p ip
        match ← namex true p new with
        | none => linkBad p ip
        | some (dp, name) => do
            ilock p dp
            let linked ← dirlink (.linkName name) p dp name ip fun s =>
              { s with pend := update s.pend p none }
            if linked then do
              iunlockput .call p dp
              iput .call p ip
              end_op
            else do
              iunlockput .call p dp
              linkBad p ip

/-- `sys_unlink` after the checks: the entry `off` of `dp`, which names `ip`, is erased. -/
def unlinkEntry (p : P) (dp off ip : Nat) : Fs P Unit := do
  let node ← getInode ip
  let r ← writei p dp (off * direntSize) direntSize (entryData { inum := 0, name := [] } off)
    fun s => if node.type = .dir then (s.undue ip).undue dp else s.undue ip
  if r ≠ some direntSize then panic .unlinkWritei
  else do
    (if node.type = .dir then step fun s => s.dropLink p dp else pure ())
    iunlockNote (.giveUp dp ip) p dp fun s => { s with up := update s.up p (some (ip, dp)) }
    iput .call p dp
    step fun s => { s.dropLink p ip with up := update s.up p none }
    iunlockput .call p ip
    end_op

def sys_unlink (p : P) (path : List Char) : Fs P Unit := do
  begin_op p
  match ← namex true p path with
  | none => end_op
  | some (dp, name) => do
      ilock p dp
      if name = dot ∨ name = dotdot then do
        iunlockput .call p dp
        end_op
      else
        match ← dirlookup .plain p dp name with
        | none => do
            iunlockput .call p dp
            end_op
        | some (off, ip) => do
            ilock p ip
            let node ← getInode ip
            if node.nlink < 1 then panic .unlinkNlink
            else do
              let empty ← if node.type = .dir then isdirempty p ip else pure true
              if empty then unlinkEntry p dp off ip
              else do
                iunlockput .call p ip
                iunlockput .call p dp
                end_op

def sys_chdir (p : P) (path : List Char) : Fs P Unit := do
  begin_op p
  match ← namex false p path with
  | none => end_op
  | some (ip, _) => do
      ilock p ip
      let node ← getInode ip
      if node.type ≠ .dir then do
        iunlockput .call p ip
        end_op
      else do
        iunlock p ip
        match ← fetch fun s => s.cwd p with
        | none => pure ()
        | some old => do
            iput .call p old
            end_op
            step fun s => s.setCwd p (some ip)

/-- The `readi` calls of `exec`, as far as it gets. -/
def execReads (p : P) (ip : Nat) : List (Nat × Nat) → Fs P Unit
  | [] => pure ()
  | (off, n) :: reads => do
      let _ ← readi p ip off n
      execReads p ip reads

/-- `exec`, which makes the `readi` calls `reads`. -/
def exec (p : P) (path : List Char) (reads : List (Nat × Nat)) : Fs P Unit := do
  begin_op p
  match ← namex false p path with
  | none => end_op
  | some (ip, _) => do
      ilock p ip
      execReads p ip reads
      iunlockput .call p ip
      end_op

def fileread (p : P) (f n : Nat) : Fs P Unit := do
  let file ← fetch fun s => s.file f
  match file.readable, file.ip with
  | true, some ip => do
      ilock p ip
      let off ← fetch fun s => (s.file f).off
      let r ← readi p ip off n
      step fun s => s.setFile f { s.file f with off := (s.file f).off + r.getD 0 }
      iunlock p ip
  | _, _ => pure ()

/-- The most that `filewrite` writes in one transaction, `max` in the source. -/
def writeMax (maxopblocks : Nat) : Nat := (maxopblocks - 1 - 1 - 2) / 2 * 512

/-- `MAXOPBLOCKS` -/
def MAXOPBLOCKS : Nat := 10

/-- The loop of `filewrite`; the first argument bounds the rounds. -/
def writeLoop (p : P) (f ip : Nat) (data : Nat → Data) : Nat → Nat → Fs P Unit
  | 0, _ => pure ()
  | rounds + 1, n =>
      if n = 0 then pure ()
      else do
        let n1 := min n (writeMax MAXOPBLOCKS)
        begin_op p
        ilock p ip
        let off ← .atomic (.write ip) some fun s => (s.file f).off
        let r ← writei p ip off n1 (data n) id
        step fun s => s.setFile f { s.file f with off := (s.file f).off + r.getD 0 }
        iunlock p ip
        end_op
        match r with
        | none => pure ()
        | some r => if r ≠ n1 then panic .shortFilewrite else writeLoop p f ip data rounds (n - n1)

/-- `filewrite`; when `n` bytes are left, it copies from `data n`. -/
def filewrite (p : P) (f n : Nat) (data : Nat → Data) : Fs P Unit := do
  let file ← fetch fun s => s.file f
  match file.writable, file.ip with
  | true, some ip => writeLoop p f ip data n n
  | _, _ => pure ()

def filestat (p : P) (f : Nat) : Fs P Unit := do
  let file ← fetch fun s => s.file f
  match file.ip with
  | some ip => do
      ilock p ip
      iunlock p ip
  | none => pure ()

/-- `argfd` -/
def argfd (p : P) (fd : Fin NOFILE) : Fs P (Option Nat) := fetch fun s => s.ofile p fd

def sys_dup (p : P) (fd : Fin NOFILE) : Fs P Unit := do
  match ← argfd p fd with
  | none => pure ()
  | some f =>
      match ← fdalloc p f with
      | none => pure ()
      | some _ => step fun s => s.filedup f

def sys_close (p : P) (fd : Fin NOFILE) : Fs P Unit := do
  match ← argfd p fd with
  | none => pure ()
  | some f => do
      step fun s => s.setFd p fd none
      fileclose p f

/-- The loop of `exit` over `curproc->ofile`. -/
def closeAll (p : P) : List (Fin NOFILE) → Fs P Unit
  | [] => pure ()
  | fd :: fds => do
      match ← argfd p fd with
      | none => pure ()
      | some f => do
          fileclose p f
          step fun s => s.setFd p fd none
      closeAll p fds

/-- `exit`, as far as files are concerned. -/
def exit (p : P) : Fs P Unit := do
  closeAll p (List.finRange NOFILE)
  begin_op p
  match ← fetch fun s => s.cwd p with
  | none => pure ()
  | some i => do
      iput .call p i
      end_op
      step fun s => s.setCwd p none

/-- The kernel calls. -/
inductive Call (P : Type)
  | open (path : List Char) (omode : Nat)
  | mkdir (path : List Char)
  | mknod (path : List Char) (major : Nat)
  | link (old new : List Char)
  | unlink (path : List Char)
  | chdir (path : List Char)
  | exec (path : List Char) (reads : List (Nat × Nat))
  | read (fd : Fin NOFILE) (n : Nat)
  | write (fd : Fin NOFILE) (n : Nat) (data : Nat → Data)
  | fstat (fd : Fin NOFILE)
  | dup (fd : Fin NOFILE)
  | close (fd : Fin NOFILE)
  /-- `q` is the slot that `allocproc` finds -/
  | fork (q : P)
  | exit

/-- A call that has a file descriptor as its argument. -/
def withFile (p : P) (fd : Fin NOFILE) (body : Nat → Fs P Unit) : Fs P Unit := do
  match ← argfd p fd with
  | none => pure ()
  | some f => body f

def syscall (p : P) : Call P → Fs P Unit
  | .open path omode => sys_open p path omode
  | .mkdir path => sys_mkdir p path
  | .mknod path major => sys_mknod p path major
  | .link old new => sys_link p old new
  | .unlink path => sys_unlink p path
  | .chdir path => sys_chdir p path
  | .exec path reads => exec p path reads
  | .read fd n => withFile p fd fun f => fileread p f n
  | .write fd n data => withFile p fd fun f => filewrite p f n data
  | .fstat fd => withFile p fd (filestat p)
  | .dup fd => sys_dup p fd
  | .close fd => sys_close p fd
  | .fork q =>
      .atomic .plain
        (fun s => if s.cwd q = none ∧ ∀ fd, s.ofile q fd = none then some (s.fork p q) else none)
        fun _ => ()
  | .exit => exit p

/-- A call of the process `p`, which has to exist. -/
def body (p : P) (c : Call P) : Fs P Unit := do
  .atomic .plain (fun s => if (s.cwd p).isSome then some s else none) fun _ => ()
  syscall p c

/-! ## The system -/

/-- What `mkfs` has written: the inode table, the words of the blocks, the bit map. -/
structure Image where
  inode : Nat → Inode
  words : Nat → Nat → Nat
  used : Nat → Bool
  /-- the place of the inode in an order in which they can have been made -/
  rank : Nat → Nat
  /-- the number of links by the directory entries -/
  due : Nat → Nat

/-- No call is going on, the process `p0` is there with the root directory as its
current directory. -/
def boot (image : Image) (p0 : P) : State P where
  inode := image.inode
  words := image.words
  used := image.used
  ref := update (fun _ => 0) ROOTINO 1
  valid _ := false
  locked _ := none
  cwd := update (fun _ => none) p0 (some ROOTINO)
  ofile _ _ := none
  file _ := { ref := 0, ip := none, off := 0, readable := false, writable := false }
  busy _ := none
  want _ := none
  hand _ := none
  gone _ _ := false
  logged _ := ∅
  clock := Superblock.ninodes
  born := image.rank
  since _ := 0
  due := image.due
  fresh _ := none
  pend _ := none
  up _ := none

/-- The processes `P` on the file system of an image. -/
def fileSystem (image : Image) (p0 : P) :
    OsWork.Verified.Transition.System (Threads P (State P) Label Panic) (Act P (Call P)) :=
  threads (fun s => s = boot image p0) body

end OsWork.Ports.FsThreads

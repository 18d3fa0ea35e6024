import OsWork.Ports.FsLayout

/-!
# `mkfs`

The host program that makes the file system image, `mkfs.c` of `ass5/final_repo`, over the
layout of `fs.h`.  The image file is an array of blocks with a length; a block and a
`struct dinode` are arrays of bytes, and `xint` and `xshort` are the order of the bytes in
`put32` and `put16`.  An input file is its name and what the calls of `read` return.

The result `none` is an exit with another status than 0, at an `assert` or an `rsect` past
the end of the image.  What fails outside of the program (`open`, `lseek`, `write`) does not
fail here.  Block numbers stay below the length of the image, and are not reduced modulo
`2 ^ 32`.
-/

namespace OsWork.Ports.Mkfs

open OsWork.Verified.ByteWords OsWork.Ports.FsLayout
open Function (update)

/-! ## The layout -/

def FSSIZE : Nat := 1000
def LOGSIZE : Nat := 30
def NINODES : Nat := 200

def nbitmap : Nat := FSSIZE / (BSIZE * 8) + 1
def ninodeblocks : Nat := NINODES / IPB + 1
def nlog : Nat := LOGSIZE

/-- The number of meta blocks. -/
def nmeta : Nat := 2 + nlog + ninodeblocks + nbitmap

def nblocks : Nat := FSSIZE - nmeta
def logstart : Nat := 2
def inodestart : Nat := 2 + nlog
def bmapstart : Nat := 2 + nlog + ninodeblocks

/-! ## Blocks and inodes -/

/-- The image file. -/
structure Image where
  sector : Nat → Bytes
  /-- its length in blocks -/
  len : Nat

namespace Image

variable (m : Image)

def rsect (sec : Nat) : Option Bytes := if sec < m.len then some (m.sector sec) else none

def wsect (sec : Nat) (buf : Bytes) : Image :=
  { sector := update m.sector sec buf, len := max m.len (sec + 1) }

/-- `IBLOCK(inum, sb)` -/
def IBLOCK (inum : Nat) : Nat := inum / IPB + inodestart

def rinode (inum : Nat) : Option Bytes :=
  (m.rsect (IBLOCK inum)).map fun buf j => buf (inum % IPB * dinodeSize + j)

def winode (inum : Nat) (ip : Bytes) : Option Image :=
  (m.rsect (IBLOCK inum)).map fun buf =>
    m.wsect (IBLOCK inum) (copy buf (inum % IPB * dinodeSize) ip dinodeSize)

end Image

/-- The image with the counters `freeinode` and `freeblock`. -/
structure State where
  image : Image
  freeinode : Nat
  freeblock : Nat

namespace State

variable (s : State)

def ialloc (type : Nat) : Option (State × Nat) :=
  let din := put32 (put16 (put16 zeroes 0 type) 6 1) sizeField 0
  (s.image.winode s.freeinode din).map fun m =>
    ({ s with image := m, freeinode := s.freeinode + 1 }, s.freeinode)

/-! ## `iappend` -/

/-- `if(xint(din.addrs[k]) == 0) din.addrs[k] = xint(freeblock++);` -/
def allocAddr (din : Bytes) (k : Nat) : State × Bytes :=
  if u32 din (addrField k) = 0 then
    ({ s with freeblock := s.freeblock + 1 }, put32 din (addrField k) s.freeblock)
  else (s, din)

/-- The entry `j` of the indirect block `b`. -/
def allocEntry (b j : Nat) : Option (State × Nat) :=
  (s.image.rsect b).map fun indirect =>
    if u32 indirect (4 * j) = 0 then
      ({ s with
          image := s.image.wsect b (put32 indirect (4 * j) s.freeblock)
          freeblock := s.freeblock + 1 }, s.freeblock)
    else (s, u32 indirect (4 * j))

/-- The block `x` for the block `fbn` of the file. -/
def blockFor (din : Bytes) (fbn : Nat) : Option (State × Bytes × Nat) :=
  if fbn < NDIRECT then
    let r := s.allocAddr din fbn
    some (r.1, r.2, u32 r.2 (addrField fbn))
  else
    let r := s.allocAddr din NDIRECT
    (r.1.allocEntry (u32 r.2 (addrField NDIRECT)) (fbn - NDIRECT)).map fun t => (t.1, r.2, t.2)

/-- The bytes `p` are copied into the block `x`. -/
def store (x o : Nat) (p : List UInt8) : Option State :=
  (s.image.rsect x).map fun buf =>
    { s with image := s.image.wsect x (copy buf o (bytesOf p) p.length) }

/-- The body of the loop of `iappend`; the number of bytes that are appended. -/
def appendPiece (din : Bytes) (off : Nat) (p : List UInt8) : Option (State × Bytes × Nat) :=
  let fbn := off / BSIZE
  if MAXFILE ≤ fbn then none
  else
    (s.blockFor din fbn).bind fun r =>
      let n1 := min p.length ((fbn + 1) * BSIZE - off)
      (r.1.store r.2.2 (off - fbn * BSIZE) (p.take n1)).map fun s => (s, r.2.1, n1)

/-- The loop of `iappend`, with a bound on its rounds. -/
def appendLoop : Nat → State → Bytes → Nat → List UInt8 → Option (State × Bytes × Nat)
  | 0, s, din, off, _ => some (s, din, off)
  | fuel + 1, s, din, off, p =>
      if p = [] then some (s, din, off)
      else
        (s.appendPiece din off p).bind fun r =>
          appendLoop fuel r.1 r.2.1 (off + r.2.2) (p.drop r.2.2)

def iappend (inum : Nat) (p : List UInt8) : Option State :=
  (s.image.rinode inum).bind fun din =>
    (appendLoop p.length s din (u32 din sizeField) p).bind fun r =>
      (r.1.image.winode inum (put32 r.2.1 sizeField r.2.2)).map fun m => { r.1 with image := m }

end State

/-! ## `main` -/

/-- An input file: its name as a C string, and what `read` returns. -/
structure InputFile where
  name : List UInt8
  chunks : List (List UInt8)
  name_nul : (0 : UInt8) ∉ name

/-- The name less one leading `_`. -/
def InputFile.entryName (f : InputFile) : List UInt8 :=
  if f.name.head? = some 0x5F then f.name.tail else f.name

def InputFile.contents (f : InputFile) : List UInt8 := f.chunks.flatten

/-- A `struct dirent`. -/
def dirent (inum : Nat) (name : List UInt8) : List UInt8 :=
  [UInt8.ofNat inum, UInt8.ofNat (inum / 256)] ++ name.take DIRSIZ ++
    List.replicate (DIRSIZ - name.length) 0

namespace State

def appendChunks (inum : Nat) : List (List UInt8) → State → Option State
  | [], s => some s
  | p :: ps, s => (s.iappend inum p).bind (appendChunks inum ps)

/-- The body of the loop over the arguments. -/
def addFile (s : State) (f : InputFile) : Option State :=
  if (0x2F : UInt8) ∈ f.name then none
  else
    (s.ialloc T_FILE).bind fun r =>
      (r.1.iappend ROOTINO (dirent r.2 f.entryName)).bind (appendChunks r.2 f.chunks)

def addFiles : List InputFile → State → Option State
  | [], s => some s
  | f :: fs, s => (s.addFile f).bind (addFiles fs)

/-- The root directory with its first two entries. -/
def makeRoot (s : State) : Option State :=
  (s.ialloc T_DIR).bind fun r =>
    if r.2 ≠ ROOTINO then none
    else
      (r.1.iappend r.2 (dirent r.2 [0x2E])).bind fun s =>
        s.iappend r.2 (dirent r.2 [0x2E, 0x2E])

/-- The size of the root directory is rounded. -/
def fixRoot (s : State) : Option State :=
  (s.image.rinode ROOTINO).bind fun din =>
    let off := (u32 din sizeField / BSIZE + 1) * BSIZE
    (s.image.winode ROOTINO (put32 din sizeField off)).map fun m => { s with image := m }

/-- The loop of `balloc`. -/
def bitmap : Nat → Bytes
  | 0 => zeroes
  | i + 1 => update (bitmap i) (i / 8) (bitmap i (i / 8) ||| UInt8.ofNat (1 <<< (i % 8)))

def balloc (s : State) : Option State :=
  if s.freeblock < BSIZE * 8 then
    some { s with image := s.image.wsect bmapstart (bitmap s.freeblock) }
  else none

end State

/-- The loop that writes zeroes. -/
def format : Nat → Image
  | 0 => { sector := fun _ => zeroes, len := 0 }
  | i + 1 => (format i).wsect i zeroes

/-- `struct superblock` -/
def superblock : Bytes :=
  put32 (put32 (put32 (put32 (put32 (put32 (put32 zeroes 0 FSSIZE) 4 nblocks) 8 NINODES) 12 nlog)
    16 logstart) 20 inodestart) 24 bmapstart

/-- `main`, with the input files. -/
def mkfs (files : List InputFile) : Option State :=
  (State.makeRoot { image := (format FSSIZE).wsect 1 superblock, freeinode := 1,
                    freeblock := nmeta }).bind fun s =>
    (State.addFiles files s).bind fun s => s.fixRoot.bind State.balloc

end OsWork.Ports.Mkfs

import OsWork.Ports.FsPaths
import OsWork.Verified.Procedure

/-!
# System calls on the disk

The inode cache, the file table and the calls of `sysfile.c` that make and remove names, over the
blocks of the disk.  A call runs as a whole; it may stop in a `panic`, or in a wait for a lock that
it holds itself.

An inode in memory is known by its number: `iget` finds the entry of a number that is in use, and
takes a free one of the `NINODE` entries otherwise.

`FsDirectories` has these calls without the disk, and `FsThreads` has them in steps, with the blocks
of the inodes; each of the three is an embedding of the source of its own.
-/

namespace OsWork.Ports.FsCalls

open OsWork.Verified.ByteWords OsWork.Verified.Procedure OsWork.Ports.FsLayout OsWork.Ports.FsDisk
  OsWork.Ports.FsPaths
open Function (update)

/-! ## States -/

def NINODE : Nat := 50
def NFILE : Nat := 100
def NOFILE : Nat := 16

/-- `FD_NONE`, `FD_PIPE`, `FD_INODE` -/
inductive FileType
  | none
  | pipe
  | inode
  deriving DecidableEq, Repr

structure File where
  type : FileType
  ref : Nat
  readable : Bool
  writable : Bool
  /-- the number of the inode -/
  ip : Nat
  off : Nat

/-- The part of the kernel that the calls work on, with the processes `P`. -/
structure Kernel (P : Type) where
  disk : Disk
  inode : Nat → Inode
  ref : Nat → Nat
  valid : Nat → Bool
  /-- `ip->lock` is held -/
  locked : Nat → Bool
  file : Nat → File
  ofile : P → Nat → Option Nat
  cwd : P → Nat

/-- The ways in which a call does not come back. -/
inductive Stop
  /-- a panic in a function on the contents of a directory -/
  | disk (p : Panic)
  | bfree
  | igetNoInodes
  | ilockRef
  | ilockNoType
  /-- `acquiresleep` of a lock that the caller holds -/
  | deadlock
  | iunlock
  | iallocNoInodes
  | createDots
  | createDirlink
  | unlinkNlink
  | fileclose
  deriving DecidableEq, Repr

/-- Kernel code. -/
abbrev Fs (P : Type) := Proc (Kernel P) Stop

variable {P : Type} (sb : Superblock) (devsw : Devsw)

/-! ## Inodes on the disk -/

/-- Those of the addresses that are not zero are freed. -/
def bfreeAll : List Nat → Disk → Option Disk
  | [], d => some d
  | b :: bs, d => if b = 0 then bfreeAll bs d else (sb.bfree d b).bind (bfreeAll bs)

def itrunc (d : Disk) (i : Nat) (ip : Inode) : Option (Disk × Inode) := do
  let d ← bfreeAll sb ((List.range NDIRECT).map ip.addrs) d
  let d ←
    if ip.addrs NDIRECT = 0 then some d
    else do
      let a := d (ip.addrs NDIRECT)
      let d ← bfreeAll sb ((List.range NINDIRECT).map fun j => u32 a (4 * j)) d
      sb.bfree d (ip.addrs NDIRECT)
  let ip := { ip with addrs := fun _ => 0, size := 0 }
  pure (sb.iupdate d i ip, ip)

/-- The inode that `ialloc` finds. -/
def freeInode (d : Disk) : Option Nat :=
  (List.range sb.ninodes).find? fun i => 1 ≤ i && (sb.load d i).type == 0

/-- `memset(dip, 0, sizeof(*dip)); dip->type = type;` -/
def newInode (type : Nat) : Inode where
  type := type
  major := 0
  minor := 0
  nlink := 0
  size := 0
  addrs := fun _ => 0

/-! ## Inodes in memory -/

def getInode (i : Nat) : Fs P Inode := do
  let s ← get
  pure (s.inode i)

/-- An assignment to the inode in memory, and `iupdate`. -/
def setInode (i : Nat) (ip : Inode) : Fs P Unit :=
  modify fun s => { s with disk := sb.iupdate s.disk i ip, inode := update s.inode i ip }

/-- `ip->nlink += n; iupdate(ip);` for a `short`. -/
def addLinks (i n : Nat) : Fs P Unit := do
  let ip ← getInode i
  setInode sb i { ip with nlink := (ip.nlink + n) % 65536 }

/-- A function on the contents of the inode. -/
def onInode {α : Type} (i : Nat) (f : Disk → Inode → Except Panic (Disk × Inode × α)) :
    Fs P α := do
  let s ← get
  match f s.disk (s.inode i) with
  | .error p => throw (.disk p)
  | .ok (d, ip, a) =>
      set { s with disk := d, inode := update s.inode i ip }
      pure a

/-- There is an entry of the cache for the inode, where the inodes have the references `ref`. -/
def CanGet (ref : Nat → Nat) (i : Nat) : Prop :=
  0 < ref i ∨ ((Finset.range sb.ninodes).filter fun j => 0 < ref j).card < NINODE

instance (ref : Nat → Nat) (i : Nat) : Decidable (CanGet sb ref i) :=
  inferInstanceAs (Decidable (_ ∨ _))

def iget (i : Nat) : Fs P Unit := do
  let s ← get
  if CanGet sb s.ref i then
    set
      { s with
        ref := update s.ref i (s.ref i + 1)
        valid := if s.ref i = 0 then update s.valid i false else s.valid }
  else throw .igetNoInodes

def idup (i : Nat) : Fs P Unit :=
  modify fun s => { s with ref := update s.ref i (s.ref i + 1) }

def ilock (i : Nat) : Fs P Unit := do
  let s ← get
  if s.ref i < 1 then throw .ilockRef
  else if s.locked i then throw .deadlock
  else if s.valid i then set { s with locked := update s.locked i true }
  else
    let ip := sb.load s.disk i
    if ip.type = 0 then throw .ilockNoType
    else
      set
        { s with
          locked := update s.locked i true
          inode := update s.inode i ip
          valid := update s.valid i true }

def iunlock (i : Nat) : Fs P Unit := do
  let s ← get
  if s.locked i = false ∨ s.ref i < 1 then throw .iunlock
  else set { s with locked := update s.locked i false }

def iput (i : Nat) : Fs P Unit := do
  let s ← get
  if s.locked i then throw .deadlock
  else if s.valid i ∧ (s.inode i).nlink = 0 ∧ s.ref i = 1 then
    match itrunc sb s.disk i (s.inode i) with
    | none => throw .bfree
    | some (d, ip) =>
        let ip := { ip with type := 0 }
        set
          { s with
            disk := sb.iupdate d i ip
            inode := update s.inode i ip
            valid := update s.valid i false
            ref := update s.ref i (s.ref i - 1) }
  else set { s with ref := update s.ref i (s.ref i - 1) }

def iunlockput (i : Nat) : Fs P Unit := do
  iunlock i
  iput sb i

def ialloc (type : Nat) : Fs P Nat := do
  let s ← get
  match freeInode sb s.disk with
  | none => throw .iallocNoInodes
  | some i =>
      set { s with disk := sb.iupdate s.disk i (newInode type) }
      iget sb i
      pure i

/-! ## Directories and paths -/

/-- `dirlookup`: the inode number and what it stores through `poff`. -/
def dirlookup (dp : Nat) (name : Bytes) : Fs P (Option (Nat × Nat)) := do
  match ← onInode dp fun d ip => sb.dirlookup devsw d ip name with
  | none => pure none
  | some (inum, off) =>
      iget sb inum
      pure (some (inum, off))

def dirlink (dp : Nat) (name : Bytes) (inum : Nat) : Fs P Int := do
  match ← dirlookup sb devsw dp name with
  | some (ip, _) =>
      iput sb ip
      pure (-1)
  | none => onInode dp fun d ip => sb.linkEntry devsw d dp ip name inum

/-- The loop of `namex` from the inode `ip` on. -/
def namexLoop (nameiparent : Bool) (ip : Nat) (path : Path) (name : Bytes) :
    Fs P (Option (Nat × Bytes)) :=
  match _h : skipelem path name with
  | none =>
      if nameiparent then do
        iput sb ip
        pure none
      else pure (some (ip, name))
  | some (path, name) => do
      ilock sb ip
      let node ← getInode ip
      if node.type ≠ T_DIR then
        iunlockput sb ip
        pure none
      else if nameiparent && path.bytes.isEmpty then
        -- Stop one level early.
        iunlock ip
        pure (some (ip, name))
      else
        match ← dirlookup sb devsw ip name with
        | none =>
            iunlockput sb ip
            pure none
        | some (next, _) =>
            iunlockput sb ip
            namexLoop nameiparent next path name
termination_by path.bytes.length
decreasing_by exact skipelem_length _h

/-- `namex`, called by the process `p`. -/
def namex (nameiparent : Bool) (p : P) (path : Path) (name : Bytes) :
    Fs P (Option (Nat × Bytes)) := do
  let s ← get
  if path.bytes.head? = some slash then
    iget sb ROOTINO
    namexLoop sb devsw nameiparent ROOTINO path name
  else
    idup (s.cwd p)
    namexLoop sb devsw nameiparent (s.cwd p) path name

/-- `namei`, with its array `name`. -/
def namei (p : P) (path : Path) : Fs P (Option Nat) := do
  let r ← namex sb devsw false p path zeroes
  pure (r.map Prod.fst)

def nameiparent (p : P) (path : Path) (name : Bytes) : Fs P (Option (Nat × Bytes)) :=
  namex sb devsw true p path name

/-! ## Files -/

def filealloc : Fs P (Option Nat) := do
  let s ← get
  match (List.range NFILE).find? fun f => (s.file f).ref == 0 with
  | none => pure none
  | some f =>
      set { s with file := update s.file f { s.file f with ref := 1 } }
      pure (some f)

def fileclose (f : Nat) : Fs P Unit := do
  let s ← get
  let ff := s.file f
  if ff.ref < 1 then throw .fileclose
  else if 0 < ff.ref - 1 then set { s with file := update s.file f { ff with ref := ff.ref - 1 } }
  else
    set { s with file := update s.file f { ff with ref := 0, type := .none } }
    match ff.type with
    | .inode => iput sb ff.ip
    | _ => pure ()

variable [DecidableEq P]

def fdalloc (p : P) (f : Nat) : Fs P (Option Nat) := do
  let s ← get
  match (List.range NOFILE).find? fun fd => (s.ofile p fd).isNone with
  | none => pure none
  | some fd =>
      set { s with ofile := update s.ofile p (update (s.ofile p) fd (some f)) }
      pure (some fd)

/-! ## System calls -/

/-- A `dirlink` of `create`, which panics when it fails. -/
def dirlinkOrPanic (e : Stop) (dp : Nat) (name : Bytes) (inum : Nat) : Fs P Unit := do
  let r ← dirlink sb devsw dp name inum
  if r < 0 then throw e else pure ()

def dot : Bytes := bytesOf [0x2E]

def dotdot : Bytes := bytesOf [0x2E, 0x2E]

/-- `create`: the `.` and `..` entries of the directory `ip`. -/
def createDots (dp ip : Nat) : Fs P Unit := do
  addLinks sb dp 1
  dirlinkOrPanic sb devsw .createDots ip dot ip
  dirlinkOrPanic sb devsw .createDots ip dotdot dp

/-- `create` after its `dirlookup` has found nothing. -/
def createNew (dp : Nat) (name : Bytes) (type major minor : Nat) : Fs P Nat := do
  let ip ← ialloc sb type
  ilock sb ip
  let node ← getInode ip
  setInode sb ip { node with major := major % 65536, minor := minor % 65536, nlink := 1 }
  (if type = T_DIR then createDots sb devsw dp ip else pure ())
  dirlinkOrPanic sb devsw .createDirlink dp name ip
  iunlockput sb dp
  pure ip

/-- `create`, which returns `ip` locked. -/
def create (p : P) (path : Path) (type major minor : Nat) : Fs P (Option Nat) := do
  match ← nameiparent sb devsw p path zeroes with
  | none => pure none
  | some (dp, name) =>
      ilock sb dp
      match ← dirlookup sb devsw dp name with
      | some (ip, _) =>
          iunlockput sb dp
          ilock sb ip
          let node ← getInode ip
          if type = T_FILE ∧ node.type = T_FILE then pure (some ip)
          else
            iunlockput sb ip
            pure none
      | none =>
          let ip ← createNew sb devsw dp name type major minor
          pure (some ip)

def O_RDONLY : Nat := 0x000
def O_WRONLY : Nat := 0x001
def O_RDWR : Nat := 0x002
def O_CREATE : Nat := 0x200

/-- `sys_open` after the inode has been found and locked. -/
def openInode (p : P) (ip omode : Nat) : Fs P Int := do
  match ← filealloc with
  | none =>
      iunlockput sb ip
      pure (-1)
  | some f =>
      match ← fdalloc p f with
      | none =>
          fileclose sb f
          iunlockput sb ip
          pure (-1)
      | some fd =>
          iunlock ip
          modify fun s =>
            { s with
              file := update s.file f
                { s.file f with
                  type := .inode
                  ip := ip
                  off := 0
                  readable := omode &&& O_WRONLY == 0
                  writable := omode &&& O_WRONLY != 0 || omode &&& O_RDWR != 0 } }
          pure fd

/-- The arguments are `none` where `argstr` or `argint` fails. -/
def sys_open (p : P) : Option Path → Option Nat → Fs P Int
  | some path, some omode => do
      if omode &&& O_CREATE ≠ 0 then
        match ← create sb devsw p path T_FILE 0 0 with
        | none => pure (-1)
        | some ip => openInode sb p ip omode
      else
        match ← namei sb devsw p path with
        | none => pure (-1)
        | some ip =>
            ilock sb ip
            let node ← getInode ip
            if node.type = T_DIR ∧ omode ≠ O_RDONLY then
              iunlockput sb ip
              pure (-1)
            else openInode sb p ip omode
  | _, _ => pure (-1)

/-- The end of `sys_mkdir` and `sys_mknod`. -/
def sys_make (p : P) (path : Path) (type major minor : Nat) : Fs P Int := do
  match ← create sb devsw p path type major minor with
  | none => pure (-1)
  | some ip =>
      iunlockput sb ip
      pure 0

def sys_mkdir (p : P) : Option Path → Fs P Int
  | some path => sys_make sb devsw p path T_DIR 0 0
  | none => pure (-1)

def sys_mknod (p : P) : Option Path → Option Nat → Option Nat → Fs P Int
  | some path, some major, some minor => sys_make sb devsw p path T_DEV major minor
  | _, _, _ => pure (-1)

/-- The label `bad` of `sys_link`. -/
def linkBad (ip : Nat) : Fs P Int := do
  ilock sb ip
  addLinks sb ip 65535
  iunlockput sb ip
  pure (-1)

def sys_link (p : P) : Option Path → Option Path → Fs P Int
  | some old, some new => do
      match ← namei sb devsw p old with
      | none => pure (-1)
      | some ip =>
          ilock sb ip
          let node ← getInode ip
          if node.type = T_DIR then
            iunlockput sb ip
            pure (-1)
          else
            addLinks sb ip 1
            iunlock ip
            match ← nameiparent sb devsw p new zeroes with
            | none => linkBad sb ip
            | some (dp, name) =>
                ilock sb dp
                let r ← dirlink sb devsw dp name ip
                if r < 0 then
                  iunlockput sb dp
                  linkBad sb ip
                else
                  iunlockput sb dp
                  iput sb ip
                  pure 0
  | _, _ => pure (-1)

/-- The label `bad` of `sys_unlink`. -/
def unlinkBad (dp : Nat) : Fs P Int := do
  iunlockput sb dp
  pure (-1)

/-- `ip->type == T_DIR && !isdirempty(ip)` -/
def dirFull (ip : Nat) : Fs P Bool := do
  let node ← getInode ip
  if node.type = T_DIR then
    let empty ← onInode ip fun d ip => sb.isdirempty devsw d ip
    pure !empty
  else pure false

/-- `sys_unlink` when the entry at `off` is to go. -/
def unlinkFound (dp ip off : Nat) : Fs P Int := do
  onInode dp fun d node => (sb.eraseEntry devsw d dp node off).map fun r => (r.1, r.2, ())
  let node ← getInode ip
  (if node.type = T_DIR then addLinks sb dp 65535 else pure ())
  iunlockput sb dp
  addLinks sb ip 65535
  iunlockput sb ip
  pure 0

def sys_unlink (p : P) : Option Path → Fs P Int
  | some path => do
      match ← nameiparent sb devsw p path zeroes with
      | none => pure (-1)
      | some (dp, name) =>
          ilock sb dp
          -- Cannot unlink "." or "..".
          if namecmp name dot = 0 ∨ namecmp name dotdot = 0 then unlinkBad sb dp
          else
            match ← dirlookup sb devsw dp name with
            | none => unlinkBad sb dp
            | some (ip, off) =>
                ilock sb ip
                let node ← getInode ip
                if node.nlink < 1 ∨ 32768 ≤ node.nlink then throw .unlinkNlink
                else
                  let full ← dirFull sb devsw ip
                  if full then
                    iunlockput sb ip
                    unlinkBad sb dp
                  else unlinkFound sb devsw dp ip off
  | none => pure (-1)

def sys_chdir (p : P) : Option Path → Fs P Int
  | some path => do
      match ← namei sb devsw p path with
      | none => pure (-1)
      | some ip =>
          ilock sb ip
          let node ← getInode ip
          if node.type ≠ T_DIR then
            iunlockput sb ip
            pure (-1)
          else
            iunlock ip
            let s ← get
            iput sb (s.cwd p)
            modify fun s => { s with cwd := update s.cwd p ip }
            pure 0
  | none => pure (-1)

/-- A call with its arguments. -/
inductive Call
  | open (path : Option Path) (omode : Option Nat)
  | mkdir (path : Option Path)
  | mknod (path : Option Path) (major minor : Option Nat)
  | link (old new : Option Path)
  | unlink (path : Option Path)
  | chdir (path : Option Path)

/-- The call by the process `p`. -/
def Call.run (p : P) : Call → Fs P Int
  | .open path omode => sys_open sb devsw p path omode
  | .mkdir path => sys_mkdir sb devsw p path
  | .mknod path major minor => sys_mknod sb devsw p path major minor
  | .link old new => sys_link sb devsw p old new
  | .unlink path => sys_unlink sb devsw p path
  | .chdir path => sys_chdir sb devsw p path

end OsWork.Ports.FsCalls

import OsWork.Verified.Procedure
import OsWork.Verified.Transition
import Mathlib.Logic.Function.Basic
import Mathlib.Data.Fintype.Card

/-!
# Directories and links of `ass5/final_repo`

The inodes with their link counts and directory entries, the references that the
in-memory copies of inodes are counted by, and the system calls of `sysfile.c`
that change names: `open`, `mkdir`, `mknod`, `link`, `unlink`, `chdir`, `close`
and what `exit` does.  A call runs as a whole; it may stop in a `panic` or in a
wait for a lock that it holds itself.

The contents of an inode are kept as the list of its entries, for a directory;
`i-node cache is write-through`, so the copies in memory and on disk are one.
Room is not modelled: there is always a block for another entry and a cache slot
for another inode.  Every open file has one descriptor.

The fields `clock` and `born` are not in the source.  They record when an inode
number was given out, so that one can tell an inode from a later one of the same
number.
-/

namespace OsWork.Ports.FsDirectories

open OsWork.Verified.Procedure OsWork.Verified.Transition
open Function (update)

/-! ## Inodes -/

/-- `type` of an inode: `0`, `T_DIR`, `T_FILE`, `T_DEV`. -/
inductive FileType
  | free
  | dir
  | file
  | dev
  deriving DecidableEq, Repr

/-- A component of a path, at most `DIRSIZ` characters. -/
abbrev Name := List Char

def DIRSIZ : Nat := 14

/-- `ROOTINO` -/
def ROOTINO : Nat := 1

abbrev NOFILE : Nat := 16

def dot : Name := ['.']

def dotdot : Name := ['.', '.']

/-- `struct dirent`; an entry with `inum` zero is not in use. -/
structure Dirent where
  inum : Nat
  name : Name
  deriving DecidableEq, Repr

structure Inode where
  type : FileType
  nlink : Int
  /-- the contents, when `type` is `T_DIR` -/
  entries : List Dirent
  deriving Repr

/-- The loop of `dirlookup`: offset and inode number of the first entry in use
with the name. -/
def Inode.find (ip : Inode) (name : Name) : Option (Nat × Nat) :=
  (ip.entries.findIdx? fun de => de.inum != 0 && de.name == name).bind fun off =>
    ip.entries[off]?.map fun de => (off, de.inum)

/-- The second half of `dirlink`: the first entry not in use is overwritten, else
one is added. -/
def insertEntry (entries : List Dirent) (de : Dirent) : List Dirent :=
  match entries.findIdx? fun d => d.inum == 0 with
  | some off => entries.set off de
  | none => entries ++ [de]

/-- `isdirempty` -/
def Inode.isdirempty (ip : Inode) : Bool :=
  (ip.entries.drop 2).all fun de => de.inum == 0

/-! ## States -/

/-- The file system and the processes `P` that use it. -/
structure State (P : Type) where
  inode : Nat → Inode
  /-- `ip->ref` of the copy in memory -/
  ref : Nat → Nat
  /-- `ip->valid` -/
  valid : Nat → Bool
  /-- `ip->lock` is held -/
  locked : Nat → Bool
  /-- `curproc->cwd`; `none` after `exit` -/
  cwd : P → Option Nat
  /-- the inode of the file in `curproc->ofile` -/
  ofile : P → Fin NOFILE → Option Nat
  clock : Nat
  born : Nat → Nat

/-- The ways in which a call does not come back. -/
inductive Stop
  /-- `panic("ilock: no type")` -/
  | ilockNoType
  /-- `panic("ilock")` -/
  | ilockRef
  /-- `panic("iunlock")` -/
  | iunlock
  /-- `acquiresleep` of a lock that the caller holds -/
  | deadlock
  | dirlookupNotDir
  | createDots
  | createDirlink
  | unlinkNlink
  | iallocNoInodes
  deriving DecidableEq, Repr

/-- Kernel code of a call. -/
abbrev Fs (P : Type) := Proc (State P) Stop

variable {P : Type}

/-! ## Inodes in memory -/

def getInode (i : Nat) : Fs P Inode := do
  let s ← get
  pure (s.inode i)

/-- An assignment to the copy in memory, and `iupdate`. -/
def setInode (i : Nat) (ip : Inode) : Fs P Unit :=
  modify fun s => { s with inode := update s.inode i ip }

def State.iget (s : State P) (i : Nat) : State P :=
  { s with
    ref := update s.ref i (s.ref i + 1)
    valid := if s.ref i = 0 then update s.valid i false else s.valid }

def State.idup (s : State P) (i : Nat) : State P :=
  { s with ref := update s.ref i (s.ref i + 1) }

def iget (i : Nat) : Fs P Unit :=
  modify fun s => s.iget i

def idup (i : Nat) : Fs P Unit :=
  modify fun s => s.idup i

def ilock (i : Nat) : Fs P Unit := do
  let s ← get
  if s.ref i < 1 then throw .ilockRef
  else if s.locked i then throw .deadlock
  else if s.valid i then set { s with locked := update s.locked i true }
  else if (s.inode i).type = .free then throw .ilockNoType
  else set { s with locked := update s.locked i true, valid := update s.valid i true }

def iunlock (i : Nat) : Fs P Unit := do
  let s ← get
  if s.locked i = false ∨ s.ref i < 1 then throw .iunlock
  else set { s with locked := update s.locked i false }

/-- `iput` would free the inode. -/
def State.lastRef (s : State P) (i : Nat) : Bool :=
  s.valid i && (s.inode i).nlink == 0 && s.ref i == 1

/-- The inode after `itrunc` and `ip->type = 0`. -/
def Inode.freed (ip : Inode) : Inode :=
  { ip with type := .free, entries := [] }

def State.iput (s : State P) (i : Nat) : State P :=
  if s.lastRef i then
    { s with
      inode := update s.inode i (s.inode i).freed
      valid := update s.valid i false
      ref := update s.ref i (s.ref i - 1) }
  else { s with ref := update s.ref i (s.ref i - 1) }

def iput (i : Nat) : Fs P Unit := do
  let s ← get
  if s.locked i then throw .deadlock else set (s.iput i)

def iunlockput (i : Nat) : Fs P Unit := do
  iunlock i
  iput i

/-- `ialloc`, with `ninodes` from the superblock. -/
def ialloc (ninodes : Nat) (type : FileType) : Fs P Nat := do
  let s ← get
  match (List.range ninodes).find? fun i => 1 ≤ i && (s.inode i).type == .free with
  | none => throw .iallocNoInodes
  | some i =>
      set
        { s with
          inode := update s.inode i { type := type, nlink := 0, entries := [] }
          clock := s.clock + 1
          born := update s.born i s.clock }
      iget i
      pure i

/-! ## Directories -/

/-- `dirlookup`, with the offset it stores through `poff`. -/
def dirlookup (dp : Nat) (name : Name) : Fs P (Option (Nat × Nat)) := do
  let d ← getInode dp
  if d.type = .dir then
    match d.find name with
    | none => pure none
    | some (off, inum) =>
        iget inum
        pure (some (off, inum))
  else throw .dirlookupNotDir

/-- `dirlink`; `false` is the result `-1`. -/
def dirlink (dp : Nat) (name : Name) (inum : Nat) : Fs P Bool := do
  match ← dirlookup dp name with
  | some (_, ip) =>
      iput ip
      pure false
  | none =>
      let d ← getInode dp
      setInode dp { d with entries := insertEntry d.entries { inum := inum, name := name } }
      pure true

/-! ## Paths -/

/-- `skipelem`: the first element of the path, and what follows it. -/
def skipelem (path : List Char) : Option (Name × List Char) :=
  match path.dropWhile (· == '/') with
  | [] => none
  | c :: rest =>
      some (((c :: rest).takeWhile (· != '/')).take DIRSIZ,
        ((c :: rest).dropWhile (· != '/')).dropWhile (· == '/'))

/-- The elements that repeated calls of `skipelem` give; the number bounds the
calls. -/
def elementsUpTo : Nat → List Char → List Name
  | 0, _ => []
  | n + 1, path =>
      match skipelem path with
      | none => []
      | some (name, rest) => name :: elementsUpTo n rest

def elements (path : List Char) : List Name :=
  elementsUpTo path.length path

example : elements ['/', 'a', '/', '/', '.', '.', '/'] = [['a'], ['.', '.']] := by decide

/-- The loop of `namex` from the inode `ip`, over the elements that are left. -/
def namexLoop (nameiparent : Bool) (ip : Nat) (name : Name) :
    List Name → Fs P (Option (Nat × Name))
  | [] =>
      if nameiparent then do
        iput ip
        pure none
      else pure (some (ip, name))
  | elem :: rest => do
      ilock ip
      let d ← getInode ip
      if d.type ≠ .dir then
        iunlockput ip
        pure none
      else if nameiparent && rest.isEmpty then
        iunlock ip
        pure (some (ip, elem))
      else
        match ← dirlookup ip elem with
        | none =>
            iunlockput ip
            pure none
        | some (_, next) =>
            iunlockput ip
            namexLoop nameiparent next elem rest

/-- `namex`, called by the process `p`. -/
def namex (nameiparent : Bool) (p : P) (path : List Char) : Fs P (Option (Nat × Name)) := do
  let s ← get
  if path.head? = some '/' then
    iget ROOTINO
    namexLoop nameiparent ROOTINO [] (elements path)
  else
    match s.cwd p with
    | none => pure none
    | some ip =>
        idup ip
        namexLoop nameiparent ip [] (elements path)

/-! ## System calls -/

/-- A `dirlink` of `create`, which panics when it fails. -/
def dirlinkOrPanic (e : Stop) (dp : Nat) (name : Name) (inum : Nat) : Fs P Unit := do
  let linked ← dirlink dp name inum
  if linked then pure () else throw e

/-- `create`: the `.` and `..` entries of the directory `ip`. -/
def createDots (dp ip : Nat) : Fs P Unit := do
  let d ← getInode dp
  setInode dp { d with nlink := d.nlink + 1 }
  dirlinkOrPanic .createDots ip dot ip
  dirlinkOrPanic .createDots ip dotdot dp

/-- `create` after its `dirlookup` has found nothing. -/
def createNew (ninodes dp : Nat) (name : Name) (type : FileType) : Fs P (Option Nat) := do
  let ip ← ialloc ninodes type
  ilock ip
  let node ← getInode ip
  setInode ip { node with nlink := 1 }
  (if type = .dir then createDots dp ip else pure ())
  dirlinkOrPanic .createDirlink dp name ip
  iunlockput dp
  pure (some ip)

/-- `create`, which returns `ip` locked. -/
def create (ninodes : Nat) (p : P) (path : List Char) (type : FileType) :
    Fs P (Option Nat) := do
  match ← namex true p path with
  | none => pure none
  | some (dp, name) =>
      ilock dp
      match ← dirlookup dp name with
      | some (_, ip) =>
          iunlockput dp
          ilock ip
          let node ← getInode ip
          if type = .file ∧ node.type = .file then pure (some ip)
          else
            iunlockput ip
            pure none
      | none => createNew ninodes dp name type

/-- `O_RDONLY` -/
def O_RDONLY : Nat := 0x000

/-- `O_CREATE` -/
def O_CREATE : Nat := 0x200

/-- `fdalloc` -/
def State.fdalloc (s : State P) (p : P) : Option (Fin NOFILE) :=
  (List.finRange NOFILE).find? fun fd => (s.ofile p fd).isNone

section Calls

variable [DecidableEq P]

def State.setFd (s : State P) (p : P) (fd : Fin NOFILE) (f : Option Nat) : State P :=
  { s with ofile := update s.ofile p (update (s.ofile p) fd f) }

/-- The part of `sys_open` after the inode has been found and locked; `hasFile`
is the success of `filealloc`. -/
def openInode (p : P) (ip : Nat) (hasFile : Bool) : Fs P Unit := do
  let s ← get
  match hasFile, s.fdalloc p with
  | true, some fd =>
      iunlock ip
      modify fun s => s.setFd p fd (some ip)
  | _, _ => iunlockput ip

def sys_open (ninodes : Nat) (p : P) (path : List Char) (omode : Nat) (hasFile : Bool) :
    Fs P Unit := do
  if omode &&& O_CREATE ≠ 0 then
    match ← create ninodes p path .file with
    | none => pure ()
    | some ip => openInode p ip hasFile
  else
    match ← namex false p path with
    | none => pure ()
    | some (ip, _) =>
        ilock ip
        let node ← getInode ip
        if node.type = .dir ∧ omode ≠ O_RDONLY then iunlockput ip
        else openInode p ip hasFile

/-- `sys_mkdir`, `sys_mknod` -/
def sys_make (ninodes : Nat) (p : P) (path : List Char) (type : FileType) : Fs P Unit := do
  match ← create ninodes p path type with
  | none => pure ()
  | some ip => iunlockput ip

def sys_mkdir (ninodes : Nat) (p : P) (path : List Char) : Fs P Unit :=
  sys_make ninodes p path .dir

def sys_mknod (ninodes : Nat) (p : P) (path : List Char) : Fs P Unit :=
  sys_make ninodes p path .dev

/-- The label `bad` of `sys_link`. -/
def linkBad (ip : Nat) : Fs P Unit := do
  ilock ip
  let node ← getInode ip
  setInode ip { node with nlink := node.nlink - 1 }
  iunlockput ip

def sys_link (p : P) (old new : List Char) : Fs P Unit := do
  match ← namex false p old with
  | none => pure ()
  | some (ip, _) =>
      ilock ip
      let node ← getInode ip
      if node.type = .dir then iunlockput ip
      else
        setInode ip { node with nlink := node.nlink + 1 }
        iunlock ip
        match ← namex true p new with
        | none => linkBad ip
        | some (dp, name) =>
            ilock dp
            if ← dirlink dp name ip then
              iunlockput dp
              iput ip
            else
              iunlockput dp
              linkBad ip

def sys_unlink (p : P) (path : List Char) : Fs P Unit := do
  match ← namex true p path with
  | none => pure ()
  | some (dp, name) =>
      ilock dp
      if name = dot ∨ name = dotdot then iunlockput dp
      else
        match ← dirlookup dp name with
        | none => iunlockput dp
        | some (off, ip) =>
            ilock ip
            let node ← getInode ip
            if node.nlink < 1 then throw .unlinkNlink
            else if node.type = .dir ∧ node.isdirempty = false then
              iunlockput ip
              iunlockput dp
            else
              let d ← getInode dp
              setInode dp
                { d with
                  entries := d.entries.set off { inum := 0, name := [] }
                  nlink := if node.type = .dir then d.nlink - 1 else d.nlink }
              iunlockput dp
              let node ← getInode ip
              setInode ip { node with nlink := node.nlink - 1 }
              iunlockput ip

def sys_chdir (p : P) (path : List Char) : Fs P Unit := do
  match ← namex false p path with
  | none => pure ()
  | some (ip, _) =>
      ilock ip
      let node ← getInode ip
      if node.type ≠ .dir then iunlockput ip
      else
        iunlock ip
        let s ← get
        match s.cwd p with
        | none => pure ()
        | some cwd =>
            iput cwd
            modify fun s => { s with cwd := update s.cwd p (some ip) }

/-- `sys_close`; also one round of the loop of `exit` over the open files. -/
def sys_close (p : P) (fd : Fin NOFILE) : Fs P Unit := do
  let s ← get
  match s.ofile p fd with
  | none => pure ()
  | some ip =>
      set (s.setFd p fd none)
      iput ip

/-- `exit` after its loop over the open files. -/
def exit (p : P) : Fs P Unit := do
  let s ← get
  match s.cwd p with
  | none => pure ()
  | some cwd =>
      iput cwd
      modify fun s => { s with cwd := update s.cwd p none }

/-- A system call with its arguments. -/
inductive Call (P : Type)
  | open (p : P) (path : List Char) (omode : Nat) (hasFile : Bool)
  | mkdir (p : P) (path : List Char)
  | mknod (p : P) (path : List Char)
  | link (p : P) (old new : List Char)
  | unlink (p : P) (path : List Char)
  | chdir (p : P) (path : List Char)
  | close (p : P) (fd : Fin NOFILE)
  | exit (p : P)

/-- The process that makes the call. -/
def Call.caller : Call P → P
  | .open p _ _ _ | .mkdir p _ | .mknod p _ | .link p _ _ | .unlink p _ | .chdir p _
  | .close p _ | .exit p => p

def Call.code (ninodes : Nat) : Call P → Fs P Unit
  | .open p path omode hasFile => sys_open ninodes p path omode hasFile
  | .mkdir p path => sys_mkdir ninodes p path
  | .mknod p path => sys_mknod ninodes p path
  | .link p old new => sys_link p old new
  | .unlink p path => sys_unlink p path
  | .chdir p path => sys_chdir p path
  | .close p fd => sys_close p fd
  | .exit p => OsWork.Ports.FsDirectories.exit p

/-- A process that has not exited makes a call; `exit` goes on when the files are
closed. -/
def Call.enabled (s : State P) : Call P → Bool
  | .exit p => (s.cwd p).isSome && (List.finRange NOFILE).all fun fd => (s.ofile p fd).isNone
  | c => (s.cwd c.caller).isSome

/-- The file system of the inodes `image`, when all processes are in the root
directory and have no open files. -/
def boot [Fintype P] (image : Nat → Inode) : State P where
  inode := image
  ref := fun i => if i = ROOTINO then Fintype.card P else 0
  valid := fun _ => false
  locked := fun _ => false
  cwd := fun _ => some ROOTINO
  ofile := fun _ _ => none
  clock := 1
  born := fun _ => 0

/-- Calls by the processes `P`, one after the other; the calls that come back. -/
def fileSystem [Fintype P] (ninodes : Nat) (image : Nat → Inode) :
    System (State P) (Call P) where
  init s := s = boot image
  step s c :=
    if c.enabled s then
      match c.code ninodes s with
      | .ok (_, t) => some t
      | .error _ => none
    else none

end Calls

end OsWork.Ports.FsDirectories

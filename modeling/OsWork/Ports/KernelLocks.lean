import OsWork.Verified.LockCode

/-!
# The spin locks of the kernel

The lock skeletons of the functions of the kernel under `ass5/final_repo`, file
by file: every call of `acquire` and `release`, direct or through another
function, with the branches and loops it stands under.  Conditions on data are
free choices.  A function that hands its caller a buffer or an inode takes what
the caller does with it as an argument.  A `return` from inside a loop is
written as a last branch after the loop.  `panic` prints with `cons.locking`
cleared, so without a lock, and stops the CPU.

`cons.lock` is taken in two ways.  `cprintf` and `consolewrite` only put
characters out while they hold it: they take it at the top rank.  `consoleintr`
calls `wakeup`, and `consoleread` calls `sleep`, with the lock held: they take
it at a rank below that of `ptable.lock`.  Everything but `cons.lock` has one
rank.

Each function comes with what it requires, as a rewriting rule for `wp`; most
leave the locks as they find them and may be called with none held.

## Main results

* `wp_syscall`, `wp_trap`, `wp_scheduler` — what runs on a CPU is in order.
* `wp_kernelFault` — a fault is in order wherever it strikes.
-/

namespace OsWork.Ports.KernelLocks

open OsWork.Verified.LockOrder
open OsWork.Verified.LockOrder.Code (block choice anyOf loop forever ifThread park
  resume spawn skip halt)

/-! ## The locks and their ranks -/

/-- The sleep locks: one in each buffer, one in each cached inode. -/
inductive SleepLock
  | buf (b : Nat)
  | inode (ip : Nat)
  deriving DecidableEq

/-- The spin locks, under their names in the source. -/
inductive Lock
  | cons | ptable | kmem | tickslock | idelock | bcache | icache | ftable | log
  /-- the spin lock inside a sleep lock -/
  | lk (s : SleepLock)
  | pipe (p : Nat)
  deriving DecidableEq

/-- The rank of `cons.lock` in `consoleintr` and `consoleread`. -/
def nested : Nat := 1

/-- The rank a lock is acquired at, elsewhere. -/
@[simp] def rank : Lock → Nat
  | .cons => 4
  | .kmem => 3
  | .ptable => 2
  | .tickslock | .idelock | .bcache | .icache | .ftable | .log | .lk _ | .pipe _ => 0

/-- The ranks in use. -/
def legal (h : Grip Lock) : Prop :=
  h.2 = rank h.1 ∨ h = (.cons, nested)

/-- `ptable.lock` is held, alone, across `swtch`. -/
abbrev gate : Grip Lock := (.ptable, 2)

theorem legal_rank (l : Lock) : legal (l, rank l) := .inl rfl

/-- A legal rank of a lock is its rank, or that of the nested console sections. -/
theorem legal_eq {l : Lock} {r : Nat} (h : legal (l, r)) :
    r = rank l ∨ l = .cons ∧ r = nested := by
  rcases h with h | h
  · exact .inl h
  · exact .inr (Prod.mk.inj h)

/-! ## spinlock.c -/

def acquire (l : Lock) : Code Lock := .acquire l (rank l)

def release (l : Lock) : Code Lock := .release l

/-- `panic()` clears `cons.locking` before it prints, and loops at its end. -/
def panic : Code Lock := halt

section Wp

variable {K : List (Grip Lock) → Prop} {H : List (Grip Lock)}

@[simp] theorem wp_panic : wp gate legal panic K H ↔ True := Iff.rfl

/-- The locks held are others than `l` and of lower rank. -/
def Under (l : Lock) (H : List (Grip Lock)) : Prop :=
  ∀ h ∈ H, h.1 ≠ l ∧ h.2 < rank l

@[simp] theorem under_nil {l : Lock} : Under l [] := by
  simp [Under]

@[simp] theorem under_cons {l : Lock} {h : Grip Lock} :
    Under l (h :: H) ↔ (h.1 ≠ l ∧ h.2 < rank l) ∧ Under l H := by
  simp [Under]

/-- Above everything held, acquire adds the lock to those held. -/
@[simp] theorem wp_acquire_above {l : Lock} (hH : Under l H) :
    wp gate legal (acquire l) K H ↔ K ((l, rank l) :: H) := by
  have hfree : l ∉ H.map Prod.fst := by
    intro hmem
    obtain ⟨h, hh, heq⟩ := List.mem_map.mp hmem
    exact (hH h hh).1 heq
  constructor
  · exact fun h => (h hfree).2.2
  · exact fun h _ => ⟨legal_rank l, fun g hg => (hH g hg).2, h⟩

/-- The lock taken last is released. -/
@[simp] theorem wp_release_head {l : Lock} {r : Nat} :
    wp gate legal (release l) K ((l, r) :: H) ↔ K H := by
  simp [release, wp_release]

/-! ## console.c -/

/-- Both `consputc`, once another CPU has panicked, and `cgaputc` may stop. -/
def consputc : Code Lock := choice skip panic

def cprintf : Code Lock :=
  -- locking = cons.locking
  choice
    (block [acquire .cons, choice skip panic, loop consputc, release .cons])
    (block [choice skip panic, loop consputc])

@[simp] theorem wp_consputc : wp gate legal consputc K H ↔ K H := by
  simp [consputc]

/-- The locks held are legal and `cons.lock` is not among them. -/
def OffConsole (H : List (Grip Lock)) : Prop := ∀ h ∈ H, legal h ∧ h.1 ≠ .cons

@[simp] theorem offConsole_nil : OffConsole [] := by
  simp [OffConsole]

@[simp] theorem offConsole_gate : OffConsole [gate] := by
  simp [OffConsole, legal, rank]

theorem OffConsole.under (hH : OffConsole H) : Under .cons H := by
  intro h hh
  obtain ⟨hlegal, hne⟩ := hH h hh
  refine ⟨hne, ?_⟩
  rcases hlegal with hr | hr
  · rw [hr]
    rcases h with ⟨l, r⟩
    cases l <;> first | exact absurd rfl hne | simp [rank]
  · exact absurd (congrArg Prod.fst hr) hne

@[simp] theorem wp_cprintf (hH : OffConsole H) :
    wp gate legal cprintf K H ↔ K H := by
  simp [cprintf, wp_acquire_above hH.under]

/-! ## proc.c: sleep and wakeup -/

def wakeup : Code Lock := block [acquire .ptable, release .ptable]

/-- `sched` panics unless `ptable.lock` is the one lock held. -/
def sched : Code Lock := park

/-- `sleep(chan, lk)`, where `lk` was acquired at rank `r`. -/
def sleep (l : Lock) (r : Nat) : Code Lock :=
  block [ifThread skip panic,
    if l = .ptable then sched
    else block [acquire .ptable, release l, sched, release .ptable, .acquire l r]]

@[simp] theorem wp_wakeup (hH : Under .ptable H) :
    wp gate legal wakeup K H ↔ K H := by
  simp [wakeup, wp_acquire_above hH]

@[simp] theorem wp_sched : wp gate legal sched K [gate] ↔ K [gate] := by
  simp [sched, wp_park]

@[simp] theorem wp_sleep_ptable : wp gate legal (sleep .ptable 2) K [gate] ↔ K [gate] := by
  simp [sleep]

/-- Waiting with one other lock, which is given back and taken again. -/
theorem wp_sleep {l : Lock} {r : Nat} (hl : l ≠ .ptable) (hr : r < 2)
    (hlegal : legal (l, r)) :
    wp gate legal (sleep l r) K [(l, r)] ↔ K [(l, r)] := by
  have habove : Under .ptable [(l, r)] :=
    under_cons.mpr ⟨⟨hl, hr⟩, under_nil⟩
  simp [sleep, hl, hl.symm, wp_acquire_above habove, release, wp_release, sched, wp_park,
    wp_acquire, hlegal, rank]

@[simp] theorem wp_sleep_nested :
    wp gate legal (sleep .cons nested) K [(.cons, nested)] ↔ K [(.cons, nested)] :=
  wp_sleep (by simp) (by simp [nested]) (.inr rfl)

/-- The locks other than those of the console, the process table and the allocator. -/
def Low (l : Lock) : Prop := rank l = 0

@[simp] theorem wp_sleep_low {l : Lock} (hl : Low l) :
    wp gate legal (sleep l 0) K [(l, 0)] ↔ K [(l, 0)] := by
  refine wp_sleep ?_ (by simp) (.inl hl.symm)
  rintro rfl
  exact absurd hl (by simp [Low])

@[simp] theorem low_tickslock : Low .tickslock := rfl
@[simp] theorem low_idelock : Low .idelock := rfl
@[simp] theorem low_log : Low .log := rfl
@[simp] theorem low_lk {s : SleepLock} : Low (.lk s) := rfl
@[simp] theorem low_pipe {p : Nat} : Low (.pipe p) := rfl

/-! ## sleeplock.c -/

def acquiresleep (s : SleepLock) : Code Lock :=
  block [acquire (.lk s), loop (sleep (.lk s) 0), release (.lk s)]

def releasesleep (s : SleepLock) : Code Lock :=
  block [acquire (.lk s), wakeup, release (.lk s)]

def holdingsleep (s : SleepLock) : Code Lock :=
  block [acquire (.lk s), release (.lk s)]

@[simp] theorem wp_acquiresleep {s : SleepLock} :
    wp gate legal (acquiresleep s) K [] ↔ K [] := by
  simp [acquiresleep]

@[simp] theorem wp_releasesleep {s : SleepLock} :
    wp gate legal (releasesleep s) K [] ↔ K [] := by
  simp [releasesleep]

@[simp] theorem wp_holdingsleep {s : SleepLock} :
    wp gate legal (holdingsleep s) K [] ↔ K [] := by
  simp [holdingsleep]

/-! ## ide.c -/

def idestart : Code Lock := choice skip panic

def iderw (b : Nat) : Code Lock :=
  block [holdingsleep (.buf b), choice skip panic,
    acquire .idelock, choice skip idestart, loop (sleep .idelock 0), release .idelock]

def ideintr : Code Lock :=
  block [acquire .idelock,
    choice (release .idelock)
      (block [wakeup, choice skip idestart, release .idelock])]

@[simp] theorem wp_iderw {b : Nat} : wp gate legal (iderw b) K [] ↔ K [] := by
  simp [iderw, idestart]

@[simp] theorem wp_ideintr : wp gate legal ideintr K [] ↔ K [] := by
  simp [ideintr, idestart]

/-! ## bio.c -/

/-- Both the cached and the recycled buffer are locked after `bcache.lock` is
given back. -/
def bget (k : Nat → Code Lock) : Code Lock :=
  anyOf fun b => block [acquire .bcache, choice skip panic, release .bcache,
    acquiresleep (.buf b), k b]

def bread (k : Nat → Code Lock) : Code Lock :=
  bget fun b => block [choice skip (iderw b), k b]

def bwrite (b : Nat) : Code Lock :=
  block [holdingsleep (.buf b), choice skip panic, iderw b]

def brelse (b : Nat) : Code Lock :=
  block [holdingsleep (.buf b), choice skip panic, releasesleep (.buf b),
    acquire .bcache, release .bcache]

@[simp] theorem wp_bread {k : Nat → Code Lock} :
    wp gate legal (bread k) K [] ↔ ∀ b, wp gate legal (k b) K [] := by
  simp [bread, bget]

@[simp] theorem wp_bwrite {b : Nat} : wp gate legal (bwrite b) K [] ↔ K [] := by
  simp [bwrite]

@[simp] theorem wp_brelse {b : Nat} : wp gate legal (brelse b) K [] ↔ K [] := by
  simp [brelse]

/-! ## log.c -/

def install_trans : Code Lock :=
  loop (bread fun lbuf => bread fun dbuf => block [bwrite dbuf, brelse lbuf, brelse dbuf])

def write_log : Code Lock :=
  loop (bread fun tobuf => bread fun frombuf => block [bwrite tobuf, brelse frombuf, brelse tobuf])

def read_head : Code Lock := bread brelse

def write_head : Code Lock := bread fun buf => block [bwrite buf, brelse buf]

def recover_from_log : Code Lock := block [read_head, install_trans, write_head]

def begin_op : Code Lock := block [acquire .log, loop (sleep .log 0), release .log]

def commit : Code Lock :=
  choice skip (block [write_log, write_head, install_trans, write_head])

def end_op : Code Lock :=
  block [acquire .log, choice skip panic,
    choice
      (block [release .log, commit, acquire .log, wakeup, release .log])
      (block [wakeup, release .log])]

def log_write : Code Lock := block [choice skip panic, acquire .log, release .log]

@[simp] theorem wp_recover_from_log :
    wp gate legal recover_from_log K [] ↔ K [] := by
  simp [recover_from_log, read_head, install_trans, write_head]

@[simp] theorem wp_begin_op : wp gate legal begin_op K [] ↔ K [] := by
  simp [begin_op]

@[simp] theorem wp_end_op : wp gate legal end_op K [] ↔ K [] := by
  simp [end_op, commit, write_log, write_head, install_trans]

@[simp] theorem wp_log_write : wp gate legal log_write K [] ↔ K [] := by
  simp [log_write]

/-! ## kalloc.c -/

/-- `kmem.use_lock` is clear until `kinit2` is done. -/
def kalloc : Code Lock := choice (block [acquire .kmem, release .kmem]) skip

def kfree : Code Lock :=
  block [choice skip panic, choice (block [acquire .kmem, release .kmem]) skip]

@[simp] theorem wp_kalloc (hH : Under .kmem H) :
    wp gate legal kalloc K H ↔ K H := by
  simp [kalloc, hH]

@[simp] theorem wp_kfree (hH : Under .kmem H) :
    wp gate legal kfree K H ↔ K H := by
  simp [kfree, hH]

/-! ## vm.c, without its calls into the file system -/

def walkpgdir : Code Lock := choice skip kalloc

def mappages : Code Lock := loop (block [walkpgdir, choice skip panic])

def deallocuvm : Code Lock := loop (block [choice skip panic, kfree])

def freevm : Code Lock := block [choice skip panic, deallocuvm, loop kfree, kfree]

def setupkvm : Code Lock :=
  block [kalloc, choice skip panic, loop mappages, choice skip freevm]

def inituvm : Code Lock := block [choice skip panic, kalloc, mappages]

def allocuvm : Code Lock :=
  block [loop (block [kalloc, mappages]),
    choice skip
      (choice
        (block [kalloc, cprintf, deallocuvm])
        (block [kalloc, mappages, cprintf, deallocuvm, kfree]))]

def copyuvm : Code Lock :=
  block [setupkvm, loop (block [choice skip panic, kalloc, mappages]),
    choice skip (block [choice skip kfree, freevm])]

def switchuvm : Code Lock := choice skip panic

@[simp] theorem wp_mappages : wp gate legal mappages K [] ↔ K [] := by
  simp [mappages, walkpgdir]

/-- `wait` frees the memory of a child with `ptable.lock` held. -/
@[simp] theorem wp_freevm (hH : Under .kmem H) :
    wp gate legal freevm K H ↔ K H := by
  simp [freevm, deallocuvm, hH]

@[simp] theorem wp_setupkvm : wp gate legal setupkvm K [] ↔ K [] := by
  simp [setupkvm]

@[simp] theorem wp_inituvm : wp gate legal inituvm K [] ↔ K [] := by
  simp [inituvm]

@[simp] theorem wp_allocuvm : wp gate legal allocuvm K [] ↔ K [] := by
  simp [allocuvm, deallocuvm]

@[simp] theorem wp_copyuvm : wp gate legal copyuvm K [] ↔ K [] := by
  simp [copyuvm]

@[simp] theorem wp_switchuvm : wp gate legal switchuvm K H ↔ K H := by
  simp [switchuvm]

/-! ## fs.c: blocks and inodes -/

def readsb : Code Lock := bread brelse

def bzero : Code Lock := bread fun bp => block [log_write, brelse bp]

def balloc : Code Lock :=
  block [loop (bread brelse),
    choice (bread fun bp => block [log_write, brelse bp, bzero]) panic]

def bfree : Code Lock :=
  bread fun bp => block [choice skip panic, log_write, brelse bp]

def iinit : Code Lock := block [readsb, cprintf]

def iget (k : Nat → Code Lock) : Code Lock :=
  anyOf fun ip => block [acquire .icache, choice skip panic, release .icache, k ip]

def ialloc (k : Nat → Code Lock) : Code Lock :=
  block [loop (bread brelse),
    choice (bread fun bp => block [log_write, brelse bp, iget k]) panic]

def iupdate : Code Lock := bread fun bp => block [log_write, brelse bp]

def idup : Code Lock := block [acquire .icache, release .icache]

def ilock (ip : Nat) : Code Lock :=
  block [choice skip panic, acquiresleep (.inode ip),
    choice skip (bread fun bp => block [brelse bp, choice skip panic])]

def iunlock (ip : Nat) : Code Lock :=
  block [choice skip panic, holdingsleep (.inode ip), choice skip panic,
    releasesleep (.inode ip)]

def itrunc : Code Lock :=
  block [loop bfree, choice skip (bread fun bp => block [loop bfree, brelse bp, bfree]),
    iupdate]

def iput (ip : Nat) : Code Lock :=
  block [acquiresleep (.inode ip),
    choice skip
      (block [acquire .icache, release .icache, choice skip (block [itrunc, iupdate])]),
    releasesleep (.inode ip), acquire .icache, release .icache]

def iunlockput (ip : Nat) : Code Lock := block [iunlock ip, iput ip]

def bmap : Code Lock :=
  choice (choice skip balloc)
    (choice
      (block [choice skip balloc,
        bread fun bp => block [choice skip (block [balloc, log_write]), brelse bp]])
      panic)

@[simp] theorem wp_balloc : wp gate legal balloc K [] ↔ K [] := by
  simp [balloc, bzero]

@[simp] theorem wp_bfree : wp gate legal bfree K [] ↔ K [] := by
  simp [bfree]

@[simp] theorem wp_iinit : wp gate legal iinit K [] ↔ K [] := by
  simp [iinit, readsb]

@[simp] theorem wp_iget {k : Nat → Code Lock} :
    wp gate legal (iget k) K [] ↔ ∀ ip, wp gate legal (k ip) K [] := by
  simp [iget]

@[simp] theorem wp_ialloc {k : Nat → Code Lock} :
    wp gate legal (ialloc k) K [] ↔ ∀ ip, wp gate legal (k ip) K [] := by
  simp [ialloc]

@[simp] theorem wp_iupdate : wp gate legal iupdate K [] ↔ K [] := by
  simp [iupdate]

@[simp] theorem wp_idup : wp gate legal idup K [] ↔ K [] := by
  simp [idup]

@[simp] theorem wp_ilock {ip : Nat} : wp gate legal (ilock ip) K [] ↔ K [] := by
  simp [ilock]

@[simp] theorem wp_iunlock {ip : Nat} : wp gate legal (iunlock ip) K [] ↔ K [] := by
  simp [iunlock]

@[simp] theorem wp_iput {ip : Nat} : wp gate legal (iput ip) K [] ↔ K [] := by
  simp [iput, itrunc]

@[simp] theorem wp_iunlockput {ip : Nat} :
    wp gate legal (iunlockput ip) K [] ↔ K [] := by
  simp [iunlockput]

@[simp] theorem wp_bmap : wp gate legal bmap K [] ↔ K [] := by
  simp [bmap]

/-! ## console.c: the sections that hold `cons.lock` across calls -/

/-- No lock is held while the listing is printed. -/
def procdump : Code Lock := loop (block [cprintf, loop cprintf, cprintf])

/-- The keyboard and the serial line; `procdump` is called after the lock is
given back. -/
def consoleintr : Code Lock :=
  block [.acquire .cons nested,
    loop (choice (loop consputc) (block [consputc, choice skip wakeup])),
    release .cons, choice skip procdump]

def consoleread (ip : Nat) : Code Lock :=
  block [iunlock ip, .acquire .cons nested, loop (sleep .cons nested), release .cons,
    ilock ip]

def consolewrite (ip : Nat) : Code Lock :=
  block [iunlock ip, acquire .cons, loop consputc, release .cons, ilock ip]

@[simp] theorem wp_acquire_nested :
    wp gate legal (.acquire .cons nested) K [] ↔ K [(.cons, nested)] := by
  simp [wp_acquire, legal]

/-- `wakeup` may be called in the nested sections. -/
theorem under_nested : Under .ptable [(.cons, nested)] :=
  under_cons.mpr ⟨⟨by simp, by decide⟩, under_nil⟩

@[simp] theorem wp_consoleintr : wp gate legal consoleintr K [] ↔ K [] := by
  simp [consoleintr, procdump, wp_wakeup under_nested]

@[simp] theorem wp_consoleread {ip : Nat} :
    wp gate legal (consoleread ip) K [] ↔ K [] := by
  simp [consoleread]

@[simp] theorem wp_consolewrite {ip : Nat} :
    wp gate legal (consolewrite ip) K [] ↔ K [] := by
  simp [consolewrite]

/-! ## fs.c: contents, directories, paths -/

/-- A device inode is the console. -/
def readi (ip : Nat) : Code Lock :=
  choice (choice skip (consoleread ip)) (loop (block [bmap, bread brelse]))

def writei (ip : Nat) : Code Lock :=
  choice (choice skip (consolewrite ip))
    (block [loop (block [bmap, bread fun bp => block [log_write, brelse bp]]),
      choice skip iupdate])

def dirlookup (dp : Nat) (found : Nat → Code Lock) (missing : Code Lock) : Code Lock :=
  block [choice skip panic, loop (block [readi dp, choice skip panic]),
    choice (iget found) missing]

def dirlink (dp : Nat) : Code Lock :=
  dirlookup dp iput
    (block [loop (block [readi dp, choice skip panic]), writei dp, choice skip panic])

/-- The walk along a path; `parent` is the parameter `nameiparent`. -/
def namex (parent : Bool) (found : Nat → Code Lock) (missing : Code Lock) : Code Lock :=
  block [choice (iget fun _ => skip) idup,
    loop (anyOf fun ip =>
      block [ilock ip, dirlookup ip (fun _ => skip) skip, iunlockput ip]),
    anyOf fun ip =>
      choice
        (if parent then
          choice (block [ilock ip, iunlock ip, found ip]) (block [iput ip, missing])
        else found ip)
        (block [ilock ip, choice skip (dirlookup ip (fun _ => skip) skip), iunlockput ip,
          missing])]

def namei (found : Nat → Code Lock) (missing : Code Lock) : Code Lock :=
  namex false found missing

def nameiparent (found : Nat → Code Lock) (missing : Code Lock) : Code Lock :=
  namex true found missing

@[simp] theorem wp_readi {ip : Nat} : wp gate legal (readi ip) K [] ↔ K [] := by
  simp [readi]

@[simp] theorem wp_writei {ip : Nat} : wp gate legal (writei ip) K [] ↔ K [] := by
  simp [writei]

@[simp] theorem wp_dirlookup {dp : Nat} {found : Nat → Code Lock} {missing : Code Lock} :
    wp gate legal (dirlookup dp found missing) K [] ↔
      (∀ ip, wp gate legal (found ip) K []) ∧ wp gate legal missing K [] := by
  simp [dirlookup]

@[simp] theorem wp_dirlink {dp : Nat} : wp gate legal (dirlink dp) K [] ↔ K [] := by
  simp [dirlink]

@[simp] theorem wp_namex {parent : Bool} {found : Nat → Code Lock}
    {missing : Code Lock} :
    wp gate legal (namex parent found missing) K [] ↔
      (∀ ip, wp gate legal (found ip) K []) ∧ wp gate legal missing K [] := by
  cases parent <;> simp [namex, forall_and]

@[simp] theorem wp_namei {found : Nat → Code Lock} {missing : Code Lock} :
    wp gate legal (namei found missing) K [] ↔
      (∀ ip, wp gate legal (found ip) K []) ∧ wp gate legal missing K [] :=
  wp_namex

@[simp] theorem wp_nameiparent {found : Nat → Code Lock} {missing : Code Lock} :
    wp gate legal (nameiparent found missing) K [] ↔
      (∀ ip, wp gate legal (found ip) K []) ∧ wp gate legal missing K [] :=
  wp_namex

/-! ## pipe.c and file.c -/

def pipeclose (p : Nat) : Code Lock :=
  block [acquire (.pipe p), wakeup,
    choice (block [release (.pipe p), kfree]) (release (.pipe p))]

def pipewrite (p : Nat) : Code Lock :=
  block [acquire (.pipe p), loop (block [wakeup, sleep (.pipe p) 0]),
    choice (block [wakeup, release (.pipe p)]) (release (.pipe p))]

def piperead (p : Nat) : Code Lock :=
  block [acquire (.pipe p), loop (sleep (.pipe p) 0),
    choice (block [wakeup, release (.pipe p)]) (release (.pipe p))]

def filealloc : Code Lock := block [acquire .ftable, release .ftable]

def filedup : Code Lock := block [acquire .ftable, choice skip panic, release .ftable]

def fileclose : Code Lock :=
  block [acquire .ftable, choice skip panic, release .ftable,
    choice skip
      (choice (anyOf pipeclose) (anyOf fun ip => block [begin_op, iput ip, end_op]))]

def filestat : Code Lock := choice skip (anyOf fun ip => block [ilock ip, iunlock ip])

def fileread : Code Lock :=
  choice skip
    (choice (anyOf piperead)
      (choice (anyOf fun ip => block [ilock ip, readi ip, iunlock ip]) panic))

def filewrite : Code Lock :=
  choice skip
    (choice (anyOf pipewrite)
      (choice
        (anyOf fun ip =>
          loop (block [begin_op, ilock ip, writei ip, iunlock ip, end_op,
            choice skip panic]))
        panic))

def pipealloc : Code Lock :=
  block [filealloc, choice skip filealloc, choice skip kalloc,
    choice skip (block [choice skip kfree, choice skip fileclose, choice skip fileclose])]

@[simp] theorem wp_pipeclose {p : Nat} : wp gate legal (pipeclose p) K [] ↔ K [] := by
  simp [pipeclose]

@[simp] theorem wp_pipewrite {p : Nat} : wp gate legal (pipewrite p) K [] ↔ K [] := by
  simp [pipewrite]

@[simp] theorem wp_piperead {p : Nat} : wp gate legal (piperead p) K [] ↔ K [] := by
  simp [piperead]

@[simp] theorem wp_filealloc : wp gate legal filealloc K [] ↔ K [] := by
  simp [filealloc]

@[simp] theorem wp_filedup : wp gate legal filedup K [] ↔ K [] := by
  simp [filedup]

@[simp] theorem wp_fileclose : wp gate legal fileclose K [] ↔ K [] := by
  simp [fileclose]

@[simp] theorem wp_filestat : wp gate legal filestat K [] ↔ K [] := by
  simp [filestat]

@[simp] theorem wp_fileread : wp gate legal fileread K [] ↔ K [] := by
  simp [fileread]

@[simp] theorem wp_filewrite : wp gate legal filewrite K [] ↔ K [] := by
  simp [filewrite]

@[simp] theorem wp_pipealloc : wp gate legal pipealloc K [] ↔ K [] := by
  simp [pipealloc]

/-! ## proc.c and exec.c -/

/-- With the kernel stack of the new process when there is a slot. -/
def allocproc : Code Lock :=
  block [acquire .ptable, release .ptable, choice skip kalloc]

/-- The new process can be scheduled once its state is RUNNABLE. -/
def userinit : Code Lock :=
  block [allocproc, cprintf, cprintf, setupkvm, choice skip panic, inituvm,
    namei (fun _ => skip) skip, acquire .ptable, spawn, release .ptable]

def growproc : Code Lock :=
  choice skip
    (block [choice skip (choice allocuvm deallocuvm), switchuvm])

def fork : Code Lock :=
  block [allocproc,
    choice skip
      (block [copyuvm,
        choice (block [loop filedup, idup, acquire .ptable, spawn, release .ptable])
          kfree])]

/-- `cprintf` is called with `ptable.lock` held. -/
def exit : Code Lock :=
  block [choice skip panic, loop fileclose, begin_op, anyOf iput, end_op,
    acquire .ptable, cprintf, sched, panic]

def wait : Code Lock :=
  block [acquire .ptable, loop (sleep .ptable 2),
    choice (block [kfree, freevm, release .ptable]) (release .ptable)]

def waitx : Code Lock :=
  block [acquire .ptable, loop (sleep .ptable 2),
    choice (block [kfree, freevm, release .ptable]) (release .ptable)]

def scheduler : Code Lock :=
  forever (block [acquire .ptable, loop (block [switchuvm, resume]), release .ptable])

def yield : Code Lock := block [acquire .ptable, sched, release .ptable]

def initlog : Code Lock := block [readsb, recover_from_log]

/-- A new process starts here, with `ptable.lock` still held. -/
def forkret : Code Lock := block [release .ptable, choice skip (block [iinit, initlog])]

def kill : Code Lock := block [acquire .ptable, release .ptable]

/-- `cprintf` is called with `ptable.lock` held. -/
def getpinfo : Code Lock :=
  block [acquire .ptable, loop cprintf, choice skip (block [cprintf, loop cprintf]),
    release .ptable]

def loaduvm (ip : Nat) : Code Lock :=
  block [choice skip panic, loop (block [choice skip panic, readi ip])]

def exec : Code Lock :=
  block [begin_op,
    namei
      (fun ip =>
        block [ilock ip, readi ip, choice skip setupkvm,
          loop (block [readi ip, choice skip allocuvm, choice skip (loaduvm ip)]),
          choice
            (block [iunlockput ip, end_op, allocuvm, choice skip panic,
              choice (block [switchuvm, freevm]) (choice skip freevm)])
            (block [choice skip freevm, iunlockput ip, end_op])])
      (block [end_op, cprintf])]

@[simp] theorem wp_allocproc : wp gate legal allocproc K [] ↔ K [] := by
  simp [allocproc]

@[simp] theorem wp_userinit : wp gate legal userinit K [] ↔ K [] := by
  simp [userinit]

@[simp] theorem wp_growproc : wp gate legal growproc K [] ↔ K [] := by
  simp [growproc, deallocuvm]

@[simp] theorem wp_fork : wp gate legal fork K [] ↔ K [] := by
  simp [fork]

/-- `exit` does not return. -/
@[simp] theorem wp_exit : wp gate legal exit K [] ↔ True := by
  simp [exit]

@[simp] theorem wp_wait : wp gate legal wait K [] ↔ K [] := by
  simp [wait]

@[simp] theorem wp_waitx : wp gate legal waitx K [] ↔ K [] := by
  simp [waitx]

/-- `scheduler` does not return. -/
@[simp] theorem wp_scheduler : wp gate legal scheduler K [] ↔ True := by
  simp [scheduler]

@[simp] theorem wp_yield : wp gate legal yield K [] ↔ K [] := by
  simp [yield]

@[simp] theorem wp_initlog : wp gate legal initlog K [] ↔ K [] := by
  simp [initlog, readsb]

@[simp] theorem wp_forkret : wp gate legal forkret K [gate] ↔ K [] := by
  simp [forkret]

@[simp] theorem wp_kill : wp gate legal kill K [] ↔ K [] := by
  simp [kill]

@[simp] theorem wp_getpinfo : wp gate legal getpinfo K [] ↔ K [] := by
  simp [getpinfo]

@[simp] theorem wp_exec : wp gate legal exec K [] ↔ K [] := by
  simp [exec, loaduvm]

/-! ## sysfile.c -/

def sys_dup : Code Lock := choice skip filedup

def sys_read : Code Lock := choice skip fileread

def sys_write : Code Lock := choice skip filewrite

def sys_close : Code Lock := choice skip fileclose

def sys_fstat : Code Lock := choice skip filestat

def sys_link : Code Lock :=
  let bad ip := block [ilock ip, iupdate, iunlockput ip, end_op]
  choice skip
    (block [begin_op,
      namei
        (fun ip =>
          block [ilock ip,
            choice (block [iunlockput ip, end_op])
              (block [iupdate, iunlock ip,
                nameiparent
                  (fun dp =>
                    block [ilock dp,
                      choice (block [iunlockput dp, bad ip])
                        (block [dirlink dp,
                          choice (block [iunlockput dp, bad ip])
                            (block [iunlockput dp, iput ip, end_op])])])
                  (bad ip)])])
        end_op])

def isdirempty (dp : Nat) : Code Lock := loop (block [readi dp, choice skip panic])

def sys_unlink : Code Lock :=
  let bad dp := block [iunlockput dp, end_op]
  choice skip
    (block [begin_op,
      nameiparent
        (fun dp =>
          block [ilock dp,
            choice (bad dp)
              (dirlookup dp
                (fun ip =>
                  block [ilock ip, choice skip panic, choice skip (isdirempty ip),
                    choice (block [iunlockput ip, bad dp])
                      (block [writei dp, choice skip panic, choice skip iupdate,
                        iunlockput dp, iupdate, iunlockput ip, end_op])])
                (bad dp))])
        end_op])

def create (made : Nat → Code Lock) (failed : Code Lock) : Code Lock :=
  nameiparent
    (fun dp =>
      block [ilock dp,
        dirlookup dp
          (fun ip =>
            block [iunlockput dp, ilock ip, choice (made ip) (block [iunlockput ip, failed])])
          (ialloc fun ip =>
            block [ilock ip, iupdate,
              choice skip
                (block [iupdate, dirlink ip, choice skip (dirlink ip), choice skip panic]),
              dirlink dp, choice skip panic, iunlockput dp, made ip])])
    failed

def sys_open : Code Lock :=
  let opened ip :=
    choice
      (block [filealloc, iunlock ip, end_op])
      (block [filealloc, choice skip fileclose, iunlockput ip, end_op])
  choice skip
    (block [begin_op,
      choice (create opened end_op)
        (namei
          (fun ip => block [ilock ip, choice (block [iunlockput ip, end_op]) (opened ip)])
          end_op)])

/-- `sys_mkdir` and `sys_mknod`. -/
def makeNode : Code Lock :=
  block [begin_op,
    choice end_op (create (fun ip => block [iunlockput ip, end_op]) end_op)]

def sys_mkdir : Code Lock := makeNode

def sys_mknod : Code Lock := makeNode

def sys_chdir : Code Lock :=
  block [begin_op,
    choice end_op
      (namei
        (fun ip =>
          block [ilock ip,
            choice (block [iunlockput ip, end_op])
              (block [iunlock ip, anyOf iput, end_op])])
        end_op)]

def sys_exec : Code Lock := choice skip exec

def sys_pipe : Code Lock :=
  choice skip (block [pipealloc, choice skip (block [fileclose, fileclose])])

/-! ## sysproc.c and syscall.c -/

def sys_sbrk : Code Lock := choice skip growproc

def sys_kill : Code Lock := choice skip kill

def sys_sleep : Code Lock :=
  choice skip (block [acquire .tickslock, loop (sleep .tickslock 0), release .tickslock])

def sys_uptime : Code Lock := block [acquire .tickslock, release .tickslock]

def sys_getpinfo : Code Lock := choice skip getpinfo

def sys_waitx : Code Lock := choice skip waitx

/-- The table of system calls, by number. -/
def syscalls : Nat → Code Lock
  | 1 => fork
  | 2 => exit
  | 3 => wait
  | 4 => sys_pipe
  | 5 => sys_read
  | 6 => sys_kill
  | 7 => sys_exec
  | 8 => sys_fstat
  | 9 => sys_chdir
  | 10 => sys_dup
  | 11 => skip -- sys_getpid
  | 12 => sys_sbrk
  | 13 => sys_sleep
  | 14 => sys_uptime
  | 15 => sys_open
  | 16 => sys_write
  | 17 => sys_mknod
  | 18 => sys_unlink
  | 19 => sys_link
  | 20 => sys_mkdir
  | 21 => sys_close
  | 22 => sys_getpinfo
  | 23 => sys_waitx
  | _ => cprintf

def syscall : Code Lock := anyOf syscalls

@[simp] theorem wp_sys_link : wp gate legal sys_link K [] ↔ K [] := by
  simp [sys_link]

@[simp] theorem wp_sys_unlink : wp gate legal sys_unlink K [] ↔ K [] := by
  simp [sys_unlink, isdirempty]

@[simp] theorem wp_create {made : Nat → Code Lock} {failed : Code Lock} :
    wp gate legal (create made failed) K [] ↔
      (∀ ip, wp gate legal (made ip) K []) ∧ wp gate legal failed K [] := by
  simp [create, forall_and]
  exact fun h _ => h

@[simp] theorem wp_sys_open : wp gate legal sys_open K [] ↔ K [] := by
  simp [sys_open]

@[simp] theorem wp_makeNode : wp gate legal makeNode K [] ↔ K [] := by
  simp [makeNode]

@[simp] theorem wp_sys_chdir : wp gate legal sys_chdir K [] ↔ K [] := by
  simp [sys_chdir]

@[simp] theorem wp_sys_sleep : wp gate legal sys_sleep K [] ↔ K [] := by
  simp [sys_sleep]

@[simp] theorem wp_sys_uptime : wp gate legal sys_uptime K [] ↔ K [] := by
  simp [sys_uptime]

/-- Every system call leaves the locks as it finds them, or does not return. -/
theorem wp_syscalls (n : Nat) (h : K []) : wp gate legal (syscalls n) K [] := by
  unfold syscalls
  split <;> simp [sys_dup, sys_read, sys_write, sys_close, sys_fstat, sys_exec, sys_pipe,
    sys_mkdir, sys_mknod, sys_sbrk, sys_kill, sys_getpinfo, sys_waitx, h]

theorem wp_syscall (h : K []) : wp gate legal syscall K [] :=
  fun n => wp_syscalls n h

/-! ## trap.c -/

/-- The devices, numbered here from the timer on: timer, IDE, spurious IDE,
keyboard, serial line, other spurious interrupts. -/
def interrupt : Nat → Code Lock
  -- only CPU 0 counts ticks
  | 0 => choice (block [acquire .tickslock, wakeup, release .tickslock]) skip
  | 1 => ideintr
  | 2 => skip
  | 3 => consoleintr
  | 4 => consoleintr
  | _ => cprintf

/-- An interrupt that finds the CPU in the kernel: only the timer's makes the
process give up the CPU. -/
def kernelInterrupt (irq : Nat) : Code Lock :=
  block [interrupt irq, if irq = 0 then ifThread (choice skip yield) skip else skip]

/-- A fault in the kernel prints, and panics. -/
def kernelFault : Code Lock := block [cprintf, panic]

/-- A trap from user space: a system call, an interrupt or a fault of the process. -/
def trap : Code Lock :=
  choice
    (block [choice skip exit, syscall, choice skip exit])
    (block [choice (anyOf interrupt) cprintf, choice skip exit, choice skip yield,
      choice skip exit])

/-- A process between its traps. -/
def user : Code Lock := forever trap

theorem wp_interrupt (irq : Nat) (h : K []) : wp gate legal (interrupt irq) K [] := by
  unfold interrupt
  split <;> simp [h]

theorem wp_kernelInterrupt (irq : Nat) (h : K []) :
    wp gate legal (kernelInterrupt irq) K [] := by
  refine wp_interrupt irq ?_
  split <;> simp [h]

theorem wp_trap (h : K []) : wp gate legal trap K [] := by
  have hreturn : wp gate legal (block [choice skip exit]) K [] := by
    simp [h]
  have hback : wp gate legal (block [choice skip exit, choice skip yield, choice skip exit])
      K [] := by
    simp [h]
  rw [trap, wp_choice, wp_block_cons, wp_choice, wp_skip, wp_block_cons, wp_exit, wp_block_cons,
    wp_choice, wp_anyOf, wp_cprintf offConsole_nil]
  exact ⟨⟨wp_syscall hreturn, trivial⟩, fun irq => wp_interrupt irq hback, hback⟩

/-- A fault is in order wherever it strikes. -/
theorem wp_kernelFault (hH : ∀ h ∈ H, legal h) : wp gate legal kernelFault K H := by
  by_cases hcons : Lock.cons ∈ H.map Prod.fst
  · -- acquire finds that this CPU holds cons.lock, and panics
    refine ⟨fun hfree => absurd hcons hfree, ?_⟩
    simp
  · have hoff : OffConsole H := by
      intro h hh
      refine ⟨hH h hh, ?_⟩
      rintro heq
      exact hcons (List.mem_map.mpr ⟨h, hh, heq⟩)
    simp [kernelFault, hoff]

/-! ## main.c -/

def mpmain : Code Lock := block [cprintf, scheduler]

/-- What the boot CPU does after the locks are initialised.  Until `kinit2` is
done the allocator takes no lock, so only `userinit` is left of it. -/
def main : Code Lock := block [userinit, mpmain]

/-- What a new process runs when it is scheduled first. -/
def newProcess : Code Lock := block [forkret, user]

theorem wp_main : wp gate legal main K [] := by
  simp [main, mpmain]

theorem wp_mpmain : wp gate legal mpmain K [] := by
  simp [mpmain]

theorem wp_newProcess : wp gate legal newProcess K [gate] := by
  simp only [newProcess, wp_block_cons, wp_block_nil, wp_forkret]
  exact wp_trap rfl

end Wp

end OsWork.Ports.KernelLocks

import OsWork.Ports.CopyUvm
import OsWork.Ports.SyscallArgs

/-!
# `fork` and its failures

`fork` of `proc.c` with `allocproc`, over the process table, the open files and the pages.  A
`fork` that fails gives its pages back and makes the slot UNUSED again, but the slot keeps the pid
that `allocproc` gave it; `wait` clears the pid of a slot that it gives up.

## Main results

* `Kernel.fork_failed` — what a failed `fork` leaves behind.
* `fork_clean` — it leaves nothing exactly when there was no UNUSED slot, or it had the pid
  already.
-/

namespace OsWork.Ports.PageTables

open OsWork.Ports.ProcTable (Word Slot Table Proc)
open OsWork.Ports.SyscallArgs (NOFILE)
open Function (update)

/-! ## The source -/

/-- The fields of `struct proc` that `ProcTable.Proc` leaves out; the trap frame and the context
are on the kernel stack.  `none` is a null pointer. -/
structure Process where
  sz : Nat
  pgdir : Option Frame
  kstack : Option Frame
  ofile : Fin NOFILE → Option Nat
  cwd : Option Nat
  /-- up to the terminator -/
  name : List (BitVec 8)

/-- What `fork` reads and writes. -/
structure Kernel where
  procs : Table
  rest : Slot → Process
  nextpid : Word
  ticks : Word
  mem : Mem
  /-- `f->ref` of an open file -/
  fileRef : Nat → Nat
  /-- `ip->ref` of an inode -/
  inodeRef : Nat → Nat

/-- The addresses of `trapret` and `forkret`. -/
structure Entries where
  trapret : Word
  forkret : Word

/-- A kernel stack as `allocproc` sets it up; the 19 words at its top are the trap frame. -/
def stackPage (E : Entries) (p : Page) : Page := fun k =>
  if k.val = 1004 then E.trapret
  else if k.val = 1003 then E.forkret
  else if 999 ≤ k.val ∧ k.val < 1003 then 0
  else p k

/-- `*np->tf = *curproc->tf; np->tf->eax = 0`, with the stacks `p` of the child and `q` of its
parent. -/
def copyTf (p q : Page) : Page := fun k =>
  if k.val < 1005 then p k else if k.val = 1012 then 0 else q k

namespace Kernel

variable (L : Layout) (E : Entries) (s : Kernel)

/-- An assignment to fields of `s.rest i`. -/
def setRest (i : Slot) (f : Process → Process) : Kernel :=
  { s with rest := update s.rest i (f (s.rest i)) }

/-- `p->state = UNUSED`. -/
def giveUp (i : Slot) : Kernel :=
  { s with procs := s.procs.set i fun p => { p with state := .unused } }

/-- `allocproc` from the label `found` on. -/
def found (i : Slot) : Kernel × Option Slot :=
  let s' := { s with procs := s.procs.embryo i s.nextpid, nextpid := s.nextpid + 1 }
  match s'.mem.kalloc with
  | (m, none) =>
      (({ s' with mem := m }.setRest i fun p => { p with kstack := none }).giveUp i, none)
  | (m, some f) =>
      ({ s' with
          mem := m.fill f (stackPage E (m.ram f))
          procs := (s'.procs.initTimes i s.ticks).set i fun p =>
            { p with waitTime := s.ticks - p.ctime } }.setRest i fun p =>
              { p with kstack := some f }, some i)

/-- `allocproc`. -/
def allocproc : Kernel × Option Slot :=
  match s.procs.findUnused with
  | none => (s, none)
  | some i => s.found E i

/-- `filedup`. -/
def filedup (f : Nat) : Option Kernel :=
  if s.fileRef f < 1 then none
  else some { s with fileRef := update s.fileRef f (s.fileRef f + 1) }

/-- The loop of `fork` over the open files. -/
def dupFiles (cur np : Slot) : List (Fin NOFILE) → Kernel → Option Kernel
  | [], s => some s
  | fd :: fds, s =>
      match (s.rest cur).ofile fd with
      | none => dupFiles cur np fds s
      | some f =>
          (s.filedup f).bind fun s' =>
            dupFiles cur np fds
              (s'.setRest np fun p => { p with ofile := update p.ofile fd (some f) })

/-- `np->cwd = idup(curproc->cwd)`. -/
def dupCwd (cur np : Slot) : Kernel :=
  match (s.rest cur).cwd with
  | none => s
  | some ip =>
      { s with inodeRef := update s.inodeRef ip (s.inodeRef ip + 1) }.setRest np fun p =>
        { p with cwd := some ip }

/-- `fork` from the assignment to `np->sz` on; `d` is the new directory. -/
def forkChild (cur np : Slot) (d : Frame) : Option (Kernel × Option Word) :=
  (s.rest cur).kstack.bind fun q =>
    (s.rest np).kstack.bind fun f =>
      let s' := { s with
          mem := s.mem.fill f (copyTf (s.mem.ram f) (s.mem.ram q))
          procs := s.procs.set np fun p => { p with parent := some cur } }.setRest np fun p =>
            { p with pgdir := some d, sz := (s.rest cur).sz }
      (dupFiles cur np (List.finRange NOFILE) s').map fun s'' =>
        let t := (s''.dupCwd cur np).setRest np fun p =>
          { p with name := (s''.rest cur).name.take 15 }
        ({ t with procs := t.procs.set np fun p => { p with state := .runnable } },
          some (t.procs np).pid)

/-- `fork` with the result of `copyuvm`. -/
def forkCopied (cur np : Slot) : Mem × Option Frame → Option (Kernel × Option Word)
  | (m, none) =>
      -- kfree of a null pointer panics
      (s.rest np).kstack.bind fun f =>
        (m.kfree L f).map fun m' =>
          (({ s with mem := m' }.setRest np fun p =>
            { p with pgdir := none, kstack := none }).giveUp np, none)
  | (m, some d) => { s with mem := m }.forkChild cur np d

/-- `fork` of the process `cur`; the result `none` stands for -1. -/
def fork (cur : Slot) : Option (Kernel × Option Word) :=
  match s.allocproc E with
  | (s', none) => some (s', none)
  | (s', some np) =>
      (s'.rest cur).pgdir.bind fun d =>
        (s'.mem.copyuvm L d (s'.rest cur).sz).bind (s'.forkCopied L cur np)

end Kernel

/-! ## A failed `fork` -/

/-- Nobody can tell that there has been a `fork`. -/
structure Clean (s t : Kernel) : Prop where
  procs : ∀ i, (t.procs i).state = (s.procs i).state ∧ (t.procs i).pid = (s.procs i).pid ∧
    (t.procs i).parent = (s.procs i).parent ∧ (t.procs i).killed = (s.procs i).killed
  files : ∀ i, (t.rest i).ofile = (s.rest i).ofile ∧ (t.rest i).cwd = (s.rest i).cwd
  free : ∀ f, f ∈ t.mem.freelist ↔ f ∈ s.mem.freelist

/-- What a failed `fork` leaves behind: at most a pid. -/
structure FailedFork (s t : Kernel) : Prop where
  procs : ∀ i, (t.procs i).state = (s.procs i).state ∧
    (t.procs i).parent = (s.procs i).parent ∧ (t.procs i).killed = (s.procs i).killed
  pid : ∀ i, (t.procs i).pid =
    if s.procs.findUnused = some i then s.nextpid else (s.procs i).pid
  files : ∀ i, (t.rest i).ofile = (s.rest i).ofile ∧ (t.rest i).cwd = (s.rest i).cwd
  refs : t.fileRef = s.fileRef ∧ t.inodeRef = s.inodeRef
  free : ∀ f, f ∈ t.mem.freelist ↔ f ∈ s.mem.freelist

variable {L : Layout} {E : Entries} {own own' own₀ : Frame → Owner} {m m' m₀ : Mem}
  {d f : Frame} {s t : Kernel} {cur i : Slot}

theorem FailedFork.clean_iff (h : FailedFork s t) :
    Clean s t ↔ ∀ i, s.procs.findUnused = some i → (s.procs i).pid = s.nextpid := by
  constructor
  · intro hclean i hi
    rw [← (hclean.procs i).2.1, h.pid, if_pos hi]
  · intro hpid
    refine ⟨fun i => ⟨(h.procs i).1, ?_, (h.procs i).2⟩, h.files, h.free⟩
    rw [h.pid]
    split
    · rename_i hi
      exact (hpid i hi).symm
    · rfl

/-- The slot that `allocproc` takes is UNUSED. -/
theorem unused_of_find (hi : s.procs.findUnused = some i) : (s.procs i).state = .unused := by
  have hfound := Table.find_some hi
  exact eq_of_beq hfound

/-- The slot is UNUSED again, and has a new pid. -/
theorem FailedFork.of_slot (hi : s.procs.findUnused = some i)
    (hother : ∀ j, j ≠ i → t.procs j = s.procs j ∧ t.rest j = s.rest j)
    (hslot : (t.procs i).state = .unused ∧ (t.procs i).parent = (s.procs i).parent ∧
      (t.procs i).killed = (s.procs i).killed ∧ (t.procs i).pid = s.nextpid)
    (hfiles : (t.rest i).ofile = (s.rest i).ofile ∧ (t.rest i).cwd = (s.rest i).cwd)
    (hrefs : t.fileRef = s.fileRef ∧ t.inodeRef = s.inodeRef)
    (hfree : ∀ f, f ∈ t.mem.freelist ↔ f ∈ s.mem.freelist) : FailedFork s t where
  procs j := by
    by_cases hj : j = i
    · subst hj
      exact ⟨by rw [hslot.1, unused_of_find hi], hslot.2.1, hslot.2.2.1⟩
    · rw [(hother j hj).1]
      exact ⟨rfl, rfl, rfl⟩
  pid j := by
    by_cases hj : j = i
    · subst hj
      rw [if_pos hi]
      exact hslot.2.2.2
    · rw [if_neg (fun heq => hj (Option.some.inj (heq.symm.trans hi))), (hother j hj).1]
  files j := by
    by_cases hj : j = i
    · subst hj
      exact hfiles
    · rw [(hother j hj).2]
      exact ⟨rfl, rfl⟩
  refs := hrefs
  free := hfree

/-- There is no page for the kernel stack. -/
theorem FailedFork.of_found (hi : s.procs.findUnused = some i) (hrun : s.found E i = (t, none)) :
    FailedFork s t := by
  unfold Kernel.found at hrun
  simp only at hrun
  split at hrun
  · rename_i m hk
    cases hrun
    apply FailedFork.of_slot hi
    · intro j hj
      simp [Kernel.giveUp, Kernel.setRest, Table.embryo, hj]
    · simp [Kernel.giveUp, Kernel.setRest, Table.embryo]
    · simp [Kernel.giveUp, Kernel.setRest]
    · exact ⟨rfl, rfl⟩
    · intro f
      show f ∈ m.freelist ↔ f ∈ s.mem.freelist
      rw [(Mem.kalloc_none hk).2]
  · cases hrun

/-- The address space of the parent is as it was after the kernel stack has been set up. -/
theorem Pages.kstack {p : Page} (h : Pages L own m) (hk : m.kalloc = (m', some f))
    (hd : own d = .dir) :
    Pages L (update own f .hand) (m'.fill f p) ∧ update own f .hand d = .dir ∧
      ∀ b, (m'.fill f p).pte d b = m.pte d b := by
  obtain ⟨hfree, h'⟩ := h.kalloc hk
  have hhand : update own f .hand f = .hand := Function.update_self f _ own
  have hdf : d ≠ f := by
    rintro rfl
    rw [hfree] at hd
    cases hd
  refine ⟨h'.fill (by rw [hhand]; rfl) p, ?_, ?_⟩
  · rw [Function.update_of_ne hdf]
    exact hd
  · refine h.toTables.pte_of_ram (.inr hfree) (fun x hx => ?_) hd
    rw [m'.fill_ram_ne p hx, (Mem.kalloc_some hk).1]

/-- There are no pages for the address space of the child. -/
theorem FailedFork.of_copied {s' : Kernel} {r : Mem × Option Frame} (hL : L.Ok)
    (h : Pages L own s.mem) (hd : own d = .dir) (hsz : (s.rest cur).sz ≤ KERNBASE)
    (hp : ∀ b, b < pagesOf (s.rest cur).sz → s.mem.Mapped d b)
    (hi : s.procs.findUnused = some i) (hfound : s.found E i = (s', some i))
    (hcopy : s'.mem.copyuvm L d (s.rest cur).sz = some r)
    (hrun : s'.forkCopied L cur i r = some (t, none)) : FailedFork s t := by
  unfold Kernel.found at hfound
  simp only at hfound
  split at hfound
  · cases hfound
  rename_i m f hk
  have hs' := congrArg Prod.fst hfound
  simp only at hs'
  have hmem : s'.mem = m.fill f (stackPage E (m.ram f)) := by
    rw [← hs']
    rfl
  have hstack : (s'.rest i).kstack = some f := by
    rw [← hs']
    simp [Kernel.setRest]
  have hk' : s.mem.kalloc = (m, some f) := hk
  obtain ⟨h₁, hd₁, hpte⟩ := h.kstack (p := stackPage E (m.ram f)) hk' hd
  rw [← hmem] at h₁ hpte
  obtain ⟨hfree, -⟩ := h.kalloc hk'
  obtain ⟨m₂, r₂, own₂, hrun₂, h₂, hres⟩ := h₁.copyuvm hL hd₁ hsz (by
    intro b hb
    unfold Mem.Mapped
    rw [hpte]
    exact hp b hb)
  rw [hcopy] at hrun₂
  cases hrun₂
  rcases hres with ⟨rfl, hrestored⟩ | ⟨d', rfl, -⟩
  · have hhand : own₂ f = .hand := by
      rw [hrestored.owner, Function.update_self]
    obtain ⟨m₃, hkfree, h₃, -⟩ := h₂.kfree hhand
    unfold Kernel.forkCopied at hrun
    simp only [hstack, Option.bind_some, hkfree, Option.map_some, Option.some.injEq,
      Prod.mk.injEq, and_true] at hrun
    subst hrun
    subst hs'
    apply FailedFork.of_slot hi
    · intro j hj
      simp [Kernel.giveUp, Kernel.setRest, Table.embryo, Table.initTimes, hj]
    · simp [Kernel.giveUp, Kernel.setRest, Table.embryo, Table.initTimes]
    · simp [Kernel.giveUp, Kernel.setRest]
    · exact ⟨rfl, rfl⟩
    · -- the stack is free again, and all else is as it was
      intro x
      show x ∈ m₃.freelist ↔ _
      rw [h₃.free, h.free]
      by_cases hx : x = f
      · subst hx
        rw [Function.update_self, hfree]
      · rw [Function.update_of_ne hx, hrestored.owner, Function.update_of_ne hx]
  · -- the child has an address space, and a pid is returned
    unfold Kernel.forkCopied Kernel.forkChild at hrun
    obtain ⟨q, -, hrest⟩ := Option.bind_eq_some_iff.mp hrun
    obtain ⟨k, -, hrest⟩ := Option.bind_eq_some_iff.mp hrest
    obtain ⟨s'', -, hlast⟩ := Option.map_eq_some_iff.mp hrest
    cases hlast

variable (cur) in
theorem Kernel.found_rest {r : Option Slot} {s' : Kernel} (hrun : s.found E i = (s', r)) :
    (s'.rest cur).pgdir = (s.rest cur).pgdir ∧ (s'.rest cur).sz = (s.rest cur).sz ∧
      (∀ np, r = some np → np = i) := by
  unfold Kernel.found at hrun
  simp only at hrun
  by_cases hcur : cur = i
  · subst hcur
    split at hrun <;> cases hrun <;> simp [Kernel.giveUp, Kernel.setRest]
  · split at hrun <;> cases hrun <;> simp [Kernel.giveUp, Kernel.setRest, hcur]

/-- A failed `fork` leaves no more than a pid behind, wherever `kalloc` has failed. -/
theorem Kernel.fork_failed (hL : L.Ok) (h : Pages L own s.mem) (hd : own d = .dir)
    (hdir : (s.rest cur).pgdir = some d) (hsz : (s.rest cur).sz ≤ KERNBASE)
    (hp : ∀ b, b < pagesOf (s.rest cur).sz → s.mem.Mapped d b)
    (hrun : s.fork L E cur = some (t, none)) : FailedFork s t := by
  unfold Kernel.fork Kernel.allocproc at hrun
  cases hi : s.procs.findUnused with
  | none =>
      rw [hi] at hrun
      cases hrun
      exact
        { procs := fun i => ⟨rfl, rfl, rfl⟩
          pid := fun i => by rw [hi, if_neg nofun]
          files := fun i => ⟨rfl, rfl⟩
          refs := ⟨rfl, rfl⟩
          free := fun f => Iff.rfl }
  | some i =>
      rw [hi] at hrun
      simp only at hrun
      cases hfound : s.found E i with
      | mk s' r =>
          rw [hfound] at hrun
          obtain ⟨hpgdir, hsize, hslot⟩ := Kernel.found_rest cur hfound
          cases r with
          | none =>
              cases hrun
              exact .of_found hi hfound
          | some np =>
              obtain rfl := hslot np rfl
              simp only [hpgdir, hdir, hsize, Option.bind_some] at hrun
              obtain ⟨r, hcopy, hrest⟩ := Option.bind_eq_some_iff.mp hrun
              exact .of_copied hL h hd hsz hp hi hfound hcopy hrest

/-- A `fork` that fails cannot be told from none exactly when there was no UNUSED slot or the
first had the pid that `allocproc` gives it. -/
theorem fork_clean (L : Layout) (E : Entries) (own : Frame → Owner) (s t : Kernel) (cur : Slot)
    (d : Frame) (hL : L.Ok) (h : Pages L own s.mem) (hd : own d = .dir)
    (hdir : (s.rest cur).pgdir = some d) (hsz : (s.rest cur).sz ≤ KERNBASE)
    (hp : ∀ b, b < pagesOf (s.rest cur).sz → s.mem.Mapped d b)
    (hrun : s.fork L E cur = some (t, none)) :
    Clean s t ↔ ∀ i, s.procs.findUnused = some i → (s.procs i).pid = s.nextpid :=
  (Kernel.fork_failed hL h hd hdir hsz hp hrun).clean_iff

/-! ## A process with one page -/

theorem firstSlot_lt : 0 < 64 := by decide
theorem nextSlot_lt : 1 < 64 := by decide

def firstSlot : Slot := ⟨0, firstSlot_lt⟩
def nextSlot : Slot := ⟨1, nextSlot_lt⟩

/-- The process of the first slot has one page, and no page is free. -/
def lonelyProcess : Kernel where
  procs := Table.set (fun _ => Proc.zero) firstSlot fun p => { p with state := .running, pid := 1 }
  rest :=
    update
      (fun _ => { sz := 0, pgdir := none, kstack := none, ofile := fun _ => none, cwd := none
                  name := [] })
      firstSlot
      { sz := 4096
        pgdir := some 0x200
        kstack := some 0x203
        ofile := fun _ => none
        cwd := some 0
        name := [] }
  nextpid := 2
  ticks := 0
  mem := onePageProcess.mem
  fileRef := fun _ => 0
  inodeRef := update (fun _ => 0) 0 1

theorem lonelyProcess_unused : lonelyProcess.procs.findUnused = some nextSlot := by
  decide +kernel

theorem lonelyProcess_fork : ∃ t, lonelyProcess.fork onePageLayout ⟨0, 0⟩ firstSlot = some (t, none) ∧
    (t.procs.kill 2).1 = 0 := by
  refine ⟨_, rfl, ?_⟩
  decide +kernel

theorem lonelyProcess_mapped : ∀ b, b < pagesOf 4096 → onePageProcess.mem.Mapped 0x200 b :=
  fun b hb => (onePageProcess_ok.mapped b (Nat.lt_trans hb (by decide))).mpr hb

/-- After a failed `fork`, `kill` of a pid that no process has ever had succeeds. -/
theorem lonelyProcess_notClean : ∃ t,
    lonelyProcess.fork onePageLayout ⟨0, 0⟩ firstSlot = some (t, none) ∧ ¬ Clean lonelyProcess t ∧
      (lonelyProcess.procs.kill 2).1 = -1 ∧ (t.procs.kill 2).1 = 0 := by
  obtain ⟨t, hrun, hkill⟩ := lonelyProcess_fork
  refine ⟨t, hrun, ?_, by decide +kernel, hkill⟩
  intro hclean
  have h := Kernel.fork_failed onePageLayout_ok onePageProcess_pages rfl rfl (by decide)
    lonelyProcess_mapped hrun
  have hpid := h.clean_iff.mp hclean nextSlot lonelyProcess_unused
  exact absurd hpid (by decide)

theorem lonelyProcess_clean : ∃ t,
    lonelyProcess.fork onePageLayout ⟨0, 0⟩ firstSlot = some (t, none) ∧
      (Clean lonelyProcess t ↔
        ∀ i, lonelyProcess.procs.findUnused = some i → (lonelyProcess.procs i).pid = 2) := by
  obtain ⟨t, hrun, -⟩ := lonelyProcess_fork
  exact ⟨t, hrun, fork_clean _ _ _ _ t firstSlot 0x200 onePageLayout_ok onePageProcess_pages rfl rfl
    (by decide) lonelyProcess_mapped hrun⟩

end OsWork.Ports.PageTables

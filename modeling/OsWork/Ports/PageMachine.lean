import OsWork.Ports.PageUses
import OsWork.Verified.Transition

/-!
# Every page has one owner: the kernel

The kernel as far as it allocates and frees pages: `main` from `kinit1` to `userinit`, and then
`fork`, `exec`, `sbrk`, `exit`, `wait` and `waitx`, pipes that are made and given up, all called
by any processes in any order, and every `kalloc` may fail.  Between the calls processes
write to their memory, and the kernel to the kernel stacks and the pipes.

One call is one step here.  What the calls on files do to the open files and to the
references counted in them is free, as long as an open file keeps a reference.  A `main` that
finds no page for the directory of the kernel or for the stack of a CPU goes on with the
address 0; it does not come further here.

The kernel panics when `userinit` finds no page and when the first process calls `exit`; and a
process that takes all its memory away with `sbrk` keeps its size, so that its next `fork`
panics.  `Spares` leaves these three out.

## Main results

* `Owned.freerange` — the pages of `freerange` are free, and no longer the kernel's.
* `Mem.inituvm_space` — `inituvm` maps one page.
-/

namespace OsWork.Ports.PageTables

open OsWork.Ports.ProcTable (Word Slot Table Proc ProcState)
open OsWork.Ports.SyscallArgs (NOFILE)
open OsWork.Verified.Transition
open Function (update)

/-! ## The source -/

/-- The loop of `freerange` over its pages. -/
def Mem.freerange (L : Layout) : List Frame → Mem → Option Mem
  | [], m => some m
  | f :: fs, m => (m.kfree L f).bind (freerange L fs)

/-- The pages from `lo` to `hi`. -/
def pageRange (lo hi : Nat) : List Frame := List.range' lo (hi - lo)

/-- `P2V(4*1024*1024)`, as a page. -/
def fourMegabytes : Frame := 0x400

/-- The trap frame that `userinit` writes at the top of a kernel stack. -/
def userTf (p : Page) : Page := fun k =>
  if k.val < 1005 then p k
  else if k.val = 1020 then 27
  else if k.val = 1015 ∨ k.val = 1016 ∨ k.val = 1023 then 35
  else if k.val = 1021 then 0x200
  else if k.val = 1022 then 4096
  else 0

/-- `tf->eip = eip; tf->esp = esp` -/
def setTf (p : Page) (eip esp : Nat) : Page := fun k =>
  if k.val = 1019 then BitVec.ofNat 32 eip
  else if k.val = 1022 then BitVec.ofNat 32 esp
  else p k

namespace Mem

variable (L : Layout) (m : Mem)

/-- `inituvm`; `none` when there is no page. -/
def inituvm (d : Frame) (init : Page) : Option Mem :=
  match m.kalloc with
  | (m', some f) =>
      match (m'.fill f fun _ => 0).mappages d 0 PGSIZE f (PTE_W ||| PTE_U) with
      | some (m'', true) => some (m''.fill f init)
      | _ => none
  | (_, none) => none

end Mem

namespace Kernel

variable (L : Layout) (E : Entries) (s : Kernel)

/-- `"initcode"` -/
def initcodeName : List (BitVec 8) := [0x69, 0x6E, 0x69, 0x74, 0x63, 0x6F, 0x64, 0x65]

/-- The end of `userinit`, for the slot, its kernel stack and its directory; `namei("/")` takes
the first entry of the inode cache. -/
def initProc (i : Slot) (q d : Frame) : Kernel :=
  { s with
    mem := s.mem.fill q (userTf (s.mem.ram q))
    procs := s.procs.set i fun p => { p with state := .runnable }
    inodeRef := update s.inodeRef 0 (s.inodeRef 0 + 1) }.setRest i fun p =>
      { p with pgdir := some d, sz := PGSIZE, name := initcodeName, cwd := some 0 }

/-- `userinit`, with the code of `initcode.S`; `none` when there is no page. -/
def userinit (initcode : Page) : Option (Kernel × Slot) :=
  match s.allocproc E with
  | (s', some i) =>
      (s'.rest i).kstack.bind fun q =>
        match s'.mem.setupkvm L with
        | some (m, some d) =>
            (m.inituvm d initcode).map fun m' => ({ s' with mem := m' }.initProc i q d, i)
        | _ => none
  | (_, none) => none

/-- What `exec` reads of the process `cur`, with its directory and its kernel stack. -/
def execState (cur : Slot) (d q : Frame) : ExecState where
  mem := s.mem
  pgdir := d
  sz := (s.rest cur).sz
  name := (s.rest cur).name
  eip := (s.mem.ram q (Fin.ofNat 1024 1019)).toNat
  esp := (s.mem.ram q (Fin.ofNat 1024 1022)).toNat
  ofile := (s.rest cur).ofile
  cwd := (s.rest cur).cwd.getD 0
  refs := s.inodeRef
  held := []
  ops := 0

/-- What `exec` has written. -/
def afterExec (cur : Slot) (q : Frame) (t : ExecState) : Kernel :=
  { s with
    mem := t.mem.fill q (setTf (t.mem.ram q) t.eip t.esp)
    inodeRef := t.refs }.setRest cur fun p =>
      { p with pgdir := some t.pgdir, sz := t.sz, name := t.name }

/-- `exec` of the process `cur`. -/
def runExec (R : Reader) (namei : List Byte → Option Nat) (path : List Byte)
    (argv : List (List Byte)) (cur : Slot) : Option Kernel :=
  (s.rest cur).pgdir.bind fun d =>
    (s.rest cur).kstack.bind fun q =>
      (exec L R namei path argv (s.execState cur d q)).map fun r => s.afterExec cur q r.1

/-- `sys_sbrk` of the process `cur`. -/
def sbrk (cur : Slot) (n : Word) : Option Kernel :=
  (s.rest cur).pgdir.bind fun d =>
    (growproc L ⟨s.mem, d, (s.rest cur).sz⟩ n).map fun r =>
      { s with mem := r.1.mem }.setRest cur fun p => { p with sz := r.1.sz }

/-- `exit` of the process `cur`; what it does to open files is left out. -/
def exit (cur initproc : Slot) : Kernel :=
  { s with
    procs := (s.procs.exitPass cur initproc).set cur fun p =>
      { p with etime := s.ticks, waitTime := s.ticks - p.ctime - p.rtime, state := .zombie }
  }.setRest cur fun p => { p with ofile := fun _ => none, cwd := none }

/-- `wait` and `waitx` of the process `cur`, when they find a zombie. -/
def wait (cur : Slot) : Option Kernel :=
  match s.procs.findZombie cur with
  | none => some s
  | some i =>
      (s.rest i).kstack.bind fun q =>
        (s.mem.kfree L q).bind fun m =>
          (s.rest i).pgdir.bind fun d =>
            (m.freevm L d).map fun m' =>
              { s with mem := m', procs := s.procs.reap i }.setRest i fun p =>
                { p with kstack := none, name := [] }

end Kernel

/-! ## Runs -/

/-- How far `main` has come. -/
inductive Stage
  | entry
  | kinit1
  | kvmalloc
  | kinit2
  | userinit
  deriving DecidableEq

/-- The pages that `kalloc` manages end here. -/
def Stage.top : Stage → Frame
  | .entry => 0
  | .kinit1 | .kvmalloc => fourMegabytes
  | .kinit2 | .userinit => physTop

structure PageState where
  kernel : Kernel
  stage : Stage
  kpgdir : Option Frame
  initproc : Slot
  /-- the stacks of the CPUs that `startothers` has started -/
  cpuStacks : List Frame
  pipes : List Frame
  panicked : Bool

/-- The calls, and what happens between them. -/
inductive PageAct
  | kinit1
  | kvmalloc
  /-- one round of the loop of `startothers` -/
  | startothers
  | kinit2
  | userinit
  | fork (cur : Slot)
  | exec (cur : Slot) (R : Reader) (namei : List Byte → Option Nat) (path : List Byte)
      (argv : List (List Byte))
  | sbrk (cur : Slot) (n : Word)
  | exit (cur : Slot)
  | wait (cur : Slot)
  | pipealloc
  /-- `pipeclose` of the last end -/
  | pipeclose (f : Frame)
  /-- calls on files -/
  | files (ofile : Slot → Fin NOFILE → Option Nat) (cwd : Slot → Option Nat)
      (fileRef inodeRef : Nat → Nat)
  /-- the process writes to its page `a` -/
  | store (cur : Slot) (a : Nat) (p : Page)
  /-- the kernel writes to a kernel stack or to a pipe -/
  | poke (f : Frame) (p : Page)

namespace PageState

variable (L : Layout) (E : Entries) (initcode : Page) (s : PageState)

/-- The slot is in use. -/
def Used (i : Slot) : Prop := (s.kernel.procs i).state ≠ .unused

/-- The slot has a process that can call the kernel. -/
def Alive (i : Slot) : Prop :=
  s.Used i ∧ (s.kernel.procs i).state ≠ .embryo ∧ (s.kernel.procs i).state ≠ .zombie

instance (i : Slot) : Decidable (s.Used i) := inferInstanceAs (Decidable (_ ≠ _))

instance (i : Slot) : Decidable (s.Alive i) := inferInstanceAs (Decidable (_ ∧ _))

/-- A function of the kernel has returned, or panicked. -/
def ret : Option Kernel → PageState
  | some k => { s with kernel := k }
  | none => { s with panicked := true }

/-- The memory is `m` now. -/
def setMem (m : Mem) : PageState := { s with kernel := { s.kernel with mem := m } }

/-- A call of the process `cur`. -/
def call (cur : Slot) (t : PageState) : Option PageState :=
  if s.stage = .userinit ∧ s.Alive cur then some t else none

def step (s : PageState) : PageAct → Option PageState
  | a =>
      if s.panicked then none
      else
        match a with
        | .kinit1 =>
            if s.stage = .entry then
              match s.kernel.mem.freerange L (pageRange L.kend fourMegabytes) with
              | some m => some { s.setMem m with stage := .kinit1 }
              | none => some (s.ret none)
            else none
        | .kvmalloc =>
            if s.stage = .kinit1 then
              match s.kernel.mem.setupkvm L with
              | some (m, some d) => some { s.setMem m with stage := .kvmalloc, kpgdir := some d }
              | some (_, none) => none
              | none => some (s.ret none)
            else none
        | .startothers =>
            if s.stage = .kvmalloc then
              match s.kernel.mem.kalloc with
              | (m, some f) => some { s.setMem m with cpuStacks := f :: s.cpuStacks }
              | (_, none) => none
            else none
        | .kinit2 =>
            if s.stage = .kvmalloc then
              match s.kernel.mem.freerange L (pageRange fourMegabytes physTop) with
              | some m => some { s.setMem m with stage := .kinit2 }
              | none => some (s.ret none)
            else none
        | .userinit =>
            if s.stage = .kinit2 then
              match s.kernel.userinit L E initcode with
              | some (k, i) => some { s with kernel := k, stage := .userinit, initproc := i }
              -- "userinit: out of memory?", or a fault of the kernel at the address 0
              | none => some (s.ret none)
            else none
        | .fork cur => s.call cur (s.ret ((s.kernel.fork L E cur).map Prod.fst))
        | .exec cur R namei path argv =>
            s.call cur (s.ret (s.kernel.runExec L R namei path argv cur))
        | .sbrk cur n => s.call cur (s.ret (s.kernel.sbrk L cur n))
        | .exit cur =>
            s.call cur (s.ret
              -- "init exiting"
              (if cur = s.initproc then none else some (s.kernel.exit cur s.initproc)))
        | .wait cur => s.call cur (s.ret (s.kernel.wait L cur))
        | .pipealloc =>
            match s.kernel.mem.kalloc with
            | (m, some f) =>
                if s.stage = .userinit then some { s.setMem m with pipes := f :: s.pipes }
                else none
            | (m, none) => if s.stage = .userinit then some (s.setMem m) else none
        | .pipeclose f =>
            if f ∈ s.pipes then
              match s.kernel.mem.kfree L f with
              | some m => some { s.setMem m with pipes := s.pipes.erase f }
              | none => some (s.ret none)
            else none
        | .files ofile cwd fileRef inodeRef =>
            some { s with kernel :=
              { s.kernel with
                rest := fun i => { s.kernel.rest i with ofile := ofile i, cwd := cwd i }
                fileRef := fileRef
                inodeRef := inodeRef } }
        | .store cur a p =>
            match (s.kernel.rest cur).pgdir with
            | some d =>
                if a < 0x100000 ∧ userAccess (s.kernel.mem.pte d a) = true ∧
                    (s.kernel.mem.pte d a).getLsbD 1 = true then
                  s.call cur (s.setMem (s.kernel.mem.fill (frameOf (s.kernel.mem.pte d a)) p))
                else none
            | none => none
        | .poke f p =>
            if f ∈ s.pipes ∨ ∃ i, s.Used i ∧ (s.kernel.rest i).kstack = some f then
              some (s.setMem (s.kernel.mem.fill f p))
            else none

end PageState

/-- The machine before `main`: no process, no page on the free list. -/
structure PowerOn (s : PageState) : Prop where
  stage : s.stage = .entry
  free : s.kernel.mem.freelist = []
  unused : ∀ i, ¬ s.Used i
  files : ∀ i fd, (s.kernel.rest i).ofile fd = none
  kpgdir : s.kpgdir = none
  cpuStacks : s.cpuStacks = []
  pipes : s.pipes = []
  calm : s.panicked = false

def pageSystem (L : Layout) (E : Entries) (initcode : Page) : System PageState PageAct where
  init := PowerOn
  step := PageState.step L E initcode

/-- `userinit` finds its pages, the first process does not exit, no process takes all its
memory away, and open files keep a reference. -/
def Spares (L : Layout) (E : Entries) (initcode : Page) (s : PageState) : PageAct → Prop
  | .userinit => s.kernel.userinit L E initcode ≠ none
  | .exit cur => cur ≠ s.initproc
  | .sbrk cur n => n.toInt < 0 → (s.kernel.rest cur).sz + n.toInt ≠ 0
  | .files ofile _ fileRef _ => ∀ i fd f, ofile i fd = some f → 1 ≤ fileRef f
  | _ => True

/-! ## The invariant -/

namespace PageState

/-- `kalloc` can give the page out. -/
def Managed (L : Layout) (s : PageState) (f : Frame) : Prop := L.kend ≤ f ∧ f < s.stage.top

/-- The uses of pages, as the state of the kernel says. -/
def uses (L : Layout) (s : PageState) : Uses
  | .kernel, f => ¬ s.Managed L f ∨ f ∈ s.cpuStacks
  | .stack n, f => ∃ i : Slot, i.val = n ∧ s.Used i ∧ (s.kernel.rest i).kstack = some f
  | .dir, f => s.kpgdir = some f ∨ ∃ i, s.Used i ∧ (s.kernel.rest i).pgdir = some f
  | .pipe, f => f ∈ s.pipes
  | _, _ => False

end PageState

/-- Every page has one owner: it is on the free list, or it has one of the uses of `uses`, or
it is a table or a user page of the one directory that says so.  Each process has a kernel
stack and a directory of its own, which maps the pages below its size. -/
structure OneOwner (L : Layout) (s : PageState) (own : Frame → Owner) : Prop where
  owned : Owned L own s.kernel.mem (s.uses L)
  slots : ∀ i, s.Used i → ∃ q d, (s.kernel.rest i).kstack = some q ∧
    (s.kernel.rest i).pgdir = some d ∧ Space own s.kernel.mem d (s.kernel.rest i).sz
  apart : ∀ i j d, s.Used i → s.Used j → (s.kernel.rest i).pgdir = some d →
    (s.kernel.rest j).pgdir = some d → i = j
  kernelDir : ∀ i, s.Used i → (s.kernel.rest i).pgdir ≠ s.kpgdir
  calm : s.panicked = false

/-- Every open file of a process has a reference. -/
def Counted (k : Kernel) : Prop := ∀ i fd f, (k.rest i).ofile fd = some f → 1 ≤ k.fileRef f

/-- What else is true of the machine. -/
structure PageInv (L : Layout) (s : PageState) (own : Frame → Owner) : Prop
    extends OneOwner L s own where
  files : Counted s.kernel
  boot : s.stage ≠ .userinit → (∀ i, ¬ s.Used i) ∧ s.pipes = []
  early : s.stage = .entry ∨ s.stage = .kinit1 → s.kpgdir = none ∧ s.cpuStacks = []
  low : ∀ f ∈ s.cpuStacks, f < fourMegabytes
  pipes : s.pipes.Nodup

variable {L : Layout} {E : Entries} {R : Reader} {own own' : Frame → Owner} {m m' : Mem}
  {d e f q : Frame} {s t : PageState} {k k' : Kernel} {u : Uses} {i cur : Slot}

/-! ### Boot -/

/-- The pages of `freerange` are free, and no longer the kernel's. -/
theorem Owned.freerange : ∀ (fs : List Frame) {own : Frame → Owner} {m : Mem} {u : Uses},
    Owned L own m u → fs.Nodup →
    (∀ f ∈ fs, own f = .kernel ∧ L.kend ≤ f ∧ f < physTop) →
    ∃ m' own', m.freerange L fs = some m' ∧
      Owned L own' m' (fun o x => x ∉ fs ∧ u o x) := by
  intro fs
  induction fs with
  | nil =>
      intro own m u h _ _
      exact ⟨m, own, rfl, h.congr fun o _ x => by simp⟩
  | cons f fs ih =>
      intro own m u h hnodup hkernel
      obtain ⟨hnot, hnodup⟩ := List.nodup_cons.mp hnodup
      obtain ⟨hf, hr⟩ := hkernel f (by simp)
      obtain ⟨m₁, hrun, h₁, -⟩ := h.kfree (f := f) (by rw [hf]; trivial) hr
      have hrest : ∀ x ∈ fs, update own f .free x = .kernel ∧ L.kend ≤ x ∧ x < physTop := by
        intro x hx
        have hne : x ≠ f := by
          rintro rfl
          exact hnot hx
        rw [Function.update_of_ne hne]
        exact hkernel x (List.mem_cons_of_mem _ hx)
      obtain ⟨m', own', hrun', h'⟩ := ih h₁ hnodup hrest
      refine ⟨m', own', ?_, h'.congr fun o ho x => ?_⟩
      · unfold Mem.freerange
        rw [hrun, Option.bind_some, hrun']
      · unfold Uses.put
        by_cases hx : x = f
        · have hfree : Owner.free ≠ o := by
            rintro rfl
            exact ho
          simp [hx, hfree]
        · simp [hx]

theorem mem_pageRange {lo hi f : Nat} : f ∈ pageRange lo hi ↔ lo ≤ f ∧ f < hi := by
  unfold pageRange
  rw [List.mem_range'_1]
  omega

theorem nodup_pageRange (lo hi : Nat) : (pageRange lo hi).Nodup := List.nodup_range'

/-- A change of pages that were free, when the address space has been touched already. -/
theorem Touches.fill (h : Touches d own m own' m') (hf : own f = .free) (p : Page) :
    Touches d own m own' (m'.fill f p) where
  kept x hx hnot := by
    have hne : x ≠ f := by
      rintro rfl
      exact hx hf
    rw [m'.fill_ram_ne p hne]
    exact h.kept x hx hnot
  own := h.own

/-- `inituvm` maps one page, with the code in it. -/
theorem Mem.inituvm_space {init : Page} (h : Pages L own m) (hd : own d = .dir)
    (hnone : ∀ b, b < 0x80000 → ¬ m.Mapped d b) (hsafe : m.KernelSafe d)
    (hrun : m.inituvm d init = some m') :
    ∃ own', Pages L own' m' ∧ Touches d own m own' m' ∧ Space own' m' d PGSIZE ∧
      m'.UserPage d 0 ∧ m'.ram (frameOf (m'.pte d 0)) = init := by
  unfold Mem.inituvm at hrun
  split at hrun
  · rename_i m₁ f hk
    rcases h.allocPage (a := 0) hd (by decide) (hnone 0 (by decide)) hk with
      ⟨m₂, own₂, hmap, h₂, hg⟩ | ⟨m₂, own₂, hmap, -⟩
    · rw [hmap] at hrun
      simp only [Option.some.injEq] at hrun
      obtain ⟨hfree, h₁⟩ := h.kalloc hk
      have hspace : Space own₂ m₂ d PGSIZE := by
        refine ⟨?_, by decide, fun b hb => ?_, hg.safe (by decide) hsafe⟩
        · exact (hg.of_ne_free (by rw [hd]; nofun)).trans hd
        · rw [show pagesOf PGSIZE = 1 from rfl]
          by_cases hzero : b = 0
          · obtain ⟨x, -, hentry, -⟩ := hg.new b (Nat.zero_le b) (by omega)
            unfold Mem.Mapped
            rw [hentry]
            exact ⟨fun _ => by omega, fun _ => present_entry _ _⟩
          · refine ⟨fun hm => ?_, fun hlt => by omega⟩
            rcases hg.pte b (by omega) (by omega) with hsame | ⟨-, hnot⟩
            · unfold Mem.Mapped at hm
              rw [hsame] at hm
              exact absurd hm (hnone b hb)
            · exact absurd hm hnot
      -- the page that is filled is the one that has been mapped
      have hfirst : own₂ f = .page d 0 ∧ m₂.pte d 0 = entry f (PTE_W ||| PTE_U) := by
        have hhand : update own f .hand f = .hand := Function.update_self f _ own
        have hdf : d ≠ f := by
          rintro rfl
          rw [hfree] at hd
          cases hd
        have h₁' := h₁.fill (p := fun _ => 0) (f := f) (by rw [hhand]; rfl)
        have hd₁ : update own f .hand d = .dir := (Function.update_of_ne hdf _ _).trans hd
        have habsent : ¬ (m₁.fill f fun _ => 0).Mapped d 0 := by
          unfold Mem.Mapped
          rw [h.toTables.pte_of_ram (.inr hfree) (fun x hx => ?_) hd]
          · exact hnone 0 (by decide)
          · rw [m₁.fill_ram_ne _ hx, (Mem.kalloc_some hk).1]
        obtain ⟨m₃, ok, own₃, hmap', h₃, -, hpte⟩ :=
          h₁'.mapHand (PTE_W ||| PTE_U) hd₁ (by decide) habsent hhand (by decide)
        rw [hmap] at hmap'
        obtain ⟨rfl, rfl⟩ : m₂ = m₃ ∧ true = ok := by simpa using hmap'
        obtain ⟨x, hx, hentry, -⟩ := hg.new 0 (Nat.le_refl 0) Nat.zero_lt_one
        rw [hpte 0 (by decide), if_pos ⟨rfl, rfl⟩]
        rw [hpte 0 (by decide), if_pos ⟨rfl, rfl⟩] at hentry
        have hframes := congrArg frameOf hentry
        rw [frameOf_entry (h.toTables.lt_top (by rw [hfree]; nofun)) (by decide),
          frameOf_entry (h₂.toTables.lt_top (by rw [hx]; nofun)) (by decide)] at hframes
        exact ⟨hframes ▸ hx, rfl⟩
      obtain ⟨hpage, hpte⟩ := hfirst
      have hloose : (own₂ f).loose = true := by rw [hpage]; rfl
      have hsame : (m₂.fill f init).pte d 0 = entry f (PTE_W ||| PTE_U) := by
        rw [h₂.toTables.pte_of_ram (.inl hloose) (fun x hx => m₂.fill_ram_ne init hx) hspace.dir]
        exact hpte
      subst hrun
      refine ⟨own₂, h₂.fill hloose init, hg.touches.fill hfree init, hspace.fill h₂ hloose init,
        ?_, ?_⟩
      · show userAccess ((m₂.fill f init).pte d 0) = true
        rw [hsame]
        unfold userAccess
        rw [present_entry, user_entry f _ (by decide)]
        rfl
      · rw [hsame, frameOf_entry (h₂.toTables.lt_top (by rw [hpage]; nofun)) (by decide)]
        exact m₂.fill_ram_self f init
    · rw [hmap] at hrun
      cases hrun
  · cases hrun

end OsWork.Ports.PageTables

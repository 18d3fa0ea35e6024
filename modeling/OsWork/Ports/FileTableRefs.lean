import Mathlib.Data.Fintype.Sum
import OsWork.Ports.FileTable
import OsWork.Verified.Counting
import OsWork.Verified.Shares

/-!
# The references to open files

Each reference of a `struct file` belongs to a process: it is that of a descriptor, or the process
has it in its hands in the middle of a call.  In `sys_dup` and `exit` there is a descriptor without
a reference for a while.  In the same way each end of a pipe that is open belongs to a file, or to a
process that is about to make the file or to close the end.

## Main results

* `Inv.move` — a step of a process on its own descriptors keeps the invariant.
* `Inv.setRef`, `Inv.fdalloc`, `Inv.closeLast` — the steps that the calls are made of.
-/

namespace OsWork.Ports.FileTable

open OsWork.Verified.Shares OsWork.Verified.Counting OsWork.Verified.Transition
open Function (update)

variable {P : Type}

/-! ## Who has what -/

def Next.hold : Next → List FileId
  | .close f => [f]
  | _ => []

def Next.skip : Next → Option Fd
  | .exitClear fd => some fd
  | _ => none

namespace Pc

/-- The references besides those of the descriptors. -/
def hold : Pc P → List FileId
  | .openFd f _ _ => [f]
  | .fileclose _ (.exitClear _) => []
  | .fileclose f next => f :: next.hold
  | .pipeclose _ _ next => next.hold
  | .iput _ next => next.hold
  | .pipeFile1 f0 => [f0]
  | .pipePage f0 f1 => [f0, f1]
  | .pipeSet f0 f1 _ => [f0, f1]
  | .pipeFd0 rf wf => [rf, wf]
  | .pipeFd1 _ wf _ => [wf]
  | .pipeClear _ wf _ => [wf]
  | .forkSet _ _ f => [f]
  | _ => []

/-- The descriptor without a reference. -/
def skip : Pc P → Option Fd
  | .dupRef _ fd => some fd
  | .pipeclose _ _ next => next.skip
  | .iput _ next => next.skip
  | .exitClear fd => some fd
  | _ => none

/-- The files that are not used yet. -/
def fresh : Pc P → List FileId
  | .openFd f _ _ => [f]
  | .openSet f _ _ => [f]
  | .pipeFile1 f0 => [f0]
  | .pipePage f0 f1 => [f0, f1]
  | .pipeSet f0 f1 _ => [f0, f1]
  | _ => []

/-- The ends of pipes without a file. -/
def pending : Pc P → List (Nat × Bool)
  | .pipeSet _ _ page => [(page, false), (page, true)]
  | .pipeclose page writable _ => [(page, writable)]
  | _ => []

/-- The child of `fork`, with the number of descriptors it has got. -/
def child : Pc P → Option (P × Nat)
  | .fork np i => some (np, i)
  | .forkSet np fd _ => some (np, fd.val)
  | _ => none

end Pc

/-- The descriptors before `i` are closed. -/
def ClosedBelow (ofile : Fd → Option FileId) (i : Nat) : Prop :=
  ∀ fd : Fd, fd.val < i → ofile fd = none

def Next.Ok (ofile : Fd → Option FileId) : Next → Prop
  | .exitClear fd => ClosedBelow ofile fd.val
  | _ => True

/-- What a process knows of its descriptors. -/
def Pc.Ok (ofile : Fd → Option FileId) : Pc P → Prop
  | .openSet f _ _ => ∃ fd, ofile fd = some f
  | .dupFd f => ∃ fd, ofile fd = some f
  | .dupRef f fd => ofile fd = some f ∧ ∃ fd', fd' ≠ fd ∧ ofile fd' = some f
  | .closeFd fd f => ofile fd = some f
  | .fileclose f (.exitClear fd) => ofile fd = some f ∧ ClosedBelow ofile fd.val
  | .pipeclose _ _ next => next.Ok ofile
  | .iput _ next => next.Ok ofile
  | .pipeFd1 rf _ fd0 => ofile fd0 = some rf
  | .pipeClear rf _ fd0 => ofile fd0 = some rf
  | .exit i => ClosedBelow ofile i
  | .exitClear fd => ClosedBelow ofile fd.val
  | _ => True

theorem Next.pc_ok {next : Next} {ofile : Fd → Option FileId} (h : next.Ok ofile) :
    (next.pc : Pc P).Ok ofile := by
  cases next with
  | done => exact trivial
  | close g => exact trivial
  | exitClear fd => exact h

/-- The descriptor has a reference to the file. -/
def Counts (ofile : Fd → Option FileId) (skip : Option Fd) (f : FileId) (fd : Fd) : Prop :=
  ofile fd = some f ∧ skip ≠ some fd

instance (ofile : Fd → Option FileId) (skip : Option Fd) (f : FileId) (fd : Fd) :
    Decidable (Counts ofile skip f fd) :=
  inferInstanceAs (Decidable (_ ∧ _))

def slotCount (ofile : Fd → Option FileId) (skip : Option Fd) (f : FileId) : Nat :=
  (Finset.univ.filter (Counts ofile skip f)).card

/-- The file is an end of a pipe: the page, and if it is for writing. -/
def File.IsEnd (file : File) (e : Nat × Bool) : Prop :=
  file.type = .pipe ∧ file.pipe = e.1 ∧ file.writable = e.2

instance (file : File) (e : Nat × Bool) : Decidable (file.IsEnd e) :=
  inferInstanceAs (Decidable (_ ∧ _))

theorem File.not_isEnd {file : File} (h : file.type ≠ .pipe) (e : Nat × Bool) : ¬ file.IsEnd e :=
  fun hend => h hend.1

def Pipe.isOpen (π : Pipe) (writable : Bool) : Bool := if writable then π.writeopen else π.readopen

/-- What is left of a pipe. -/
def Pipe.left (π : Pipe) : Option Pipe :=
  if π.readopen = false ∧ π.writeopen = false then none else some π

theorem Pipe.isOpen_close (π : Pipe) (writable w : Bool) :
    (π.close writable).isOpen w = (π.isOpen w && w != writable) := by
  cases writable <;> cases w <;> simp [Pipe.close, Pipe.isOpen]

theorem Pipe.left_some {π π' : Pipe} (h : π.left = some π') :
    π'.readopen = true ∨ π'.writeopen = true := by
  unfold Pipe.left at h
  split at h
  · cases h
  · next hnot =>
      rw [Option.some.injEq] at h
      rw [← h]
      by_contra hclosed
      simp only [not_or, Bool.not_eq_true] at hclosed
      exact hnot hclosed

theorem Pipe.left_open (π : Pipe) (w : Bool) :
    (match π.left with | none => 0 | some π' => (π'.isOpen w).toNat) = (π.isOpen w).toNat := by
  unfold Pipe.left
  by_cases hclosed : π.readopen = false ∧ π.writeopen = false
  · rw [if_pos hclosed]
    cases w <;> simp [Pipe.isOpen, hclosed.1, hclosed.2]
  · rw [if_neg hclosed]

namespace State

variable (s : State P)

/-- The references of a process to a file. -/
def share (p : P) (f : FileId) : Nat :=
  slotCount (s.ofile p) (s.pc p).skip f + (s.pc p).hold.count f

def refs (f : FileId) : Nat := (s.file f).ref

/-- What has an end of a pipe. -/
def ends : P ⊕ FileId → Nat × Bool → Nat
  | .inl p, e => (s.pc p).pending.count e
  | .inr f, e => if (s.file f).IsEnd e then 1 else 0

/-- The end is open. -/
def opened (e : Nat × Bool) : Nat :=
  match s.pipe e.1 with
  | none => 0
  | some π => (π.isOpen e.2).toNat

end State

structure Inv [Fintype P] (s : State P) : Prop where
  refs : Counted s.refs s.share
  ends : Counted s.opened s.ends
  live : ∀ page π, s.pipe page = some π → π.readopen = true ∨ π.writeopen = true
  pages : ∀ page, s.kallocs page = s.kfrees page + if (s.pipe page).isSome then 1 else 0
  unused : ∀ f, (s.file f).ref = 0 → (s.file f).type = .none
  fresh : ∀ p f, f ∈ (s.pc p).fresh → (s.file f).ref = 1 ∧ (s.file f).type = .none
  here : ∀ p, (s.pc p).Ok (s.ofile p)
  running : ∀ p, s.pc p ≠ .user → s.proc p = .running
  gone : ∀ p, s.proc p = .unused ∨ s.proc p = .zombie → ∀ fd, s.ofile p fd = none
  child : ∀ p np i, (s.pc p).child = some (np, i) →
    s.proc np = .embryo ∧ ∀ fd : Fd, i ≤ fd.val → s.ofile np fd = none
  apart : ∀ p p' np i i', (s.pc p).child = some (np, i) → (s.pc p').child = some (np, i') → p = p'
  safe : ∀ p e, s.pc p ≠ .panic e

/-! ## Counting -/

variable {ofile ofile' : Fd → Option FileId} {skip skip' : Option Fd} {f g : FileId} {fd : Fd}

/-- The descriptors other than `fd` are the same. -/
theorem slotCount_agree
    (h : ∀ fd', fd' ≠ fd → (Counts ofile' skip' f fd' ↔ Counts ofile skip f fd')) :
    slotCount ofile' skip' f + (if Counts ofile skip f fd then 1 else 0) =
      slotCount ofile skip f + (if Counts ofile' skip' f fd then 1 else 0) :=
  card_filter_add_of_agree (Finset.mem_univ fd) fun fd' _ hne => h fd' hne

/-- A descriptor is made or removed. -/
theorem slotCount_update (ofile : Fd → Option FileId) (f : FileId) (fd : Fd) (v : Option FileId) :
    slotCount (update ofile fd v) none f + (if ofile fd = some f then 1 else 0) =
      slotCount ofile none f + (if v = some f then 1 else 0) := by
  have hsame : ∀ fd', fd' ≠ fd →
      (Counts (update ofile fd v) none f fd' ↔ Counts ofile none f fd') := by
    intro fd' hne
    unfold Counts
    rw [Function.update_of_ne hne]
  simpa [Counts] using slotCount_agree hsame

/-- A descriptor has no reference. -/
theorem slotCount_skip (ofile : Fd → Option FileId) (f : FileId) (fd : Fd) :
    slotCount ofile (some fd) f + (if ofile fd = some f then 1 else 0) =
      slotCount ofile none f := by
  have hsame : ∀ fd', fd' ≠ fd → (Counts ofile (some fd) f fd' ↔ Counts ofile none f fd') := by
    intro fd' hne
    simp [Counts, Ne.symm hne]
  simpa [Counts] using slotCount_agree hsame

theorem slotCount_pos (h : ofile fd = some f) (hskip : skip ≠ some fd) :
    0 < slotCount ofile skip f :=
  Finset.card_pos.mpr ⟨fd, Finset.mem_filter.mpr ⟨Finset.mem_univ fd, h, hskip⟩⟩

/-! ## Steps of one process -/

/-- Only the process `p` has moved. -/
structure Moved (s : State P) (p : P) (t : State P) : Prop where
  ofile : ∀ q, q ≠ p → t.ofile q = s.ofile q
  pc : ∀ q, q ≠ p → t.pc q = s.pc q
  proc : t.proc = s.proc

variable {s t : State P} {p q np : P} {i : Nat}

theorem Moved.share (hm : Moved s p t) (hq : q ≠ p) : t.share q = s.share q := by
  funext f
  unfold State.share
  rw [hm.ofile q hq, hm.pc q hq]

section Step

variable [Fintype P] (h : Inv s)

include h

theorem Inv.fresh_share (hf : f ∈ (s.pc p).fresh) : 0 < s.share p f := by
  have hhold : ∀ {l : List FileId}, f ∈ l → (s.pc p).hold = l → 0 < s.share p f := by
    intro l hmem hl
    have hcount := List.count_pos_iff.mpr hmem
    unfold State.share
    rw [hl]
    omega
  have hhere := h.here p
  cases hpc : s.pc p with
  | openFd | pipeFile1 | pipePage | pipeSet => exact hhold (by rwa [hpc] at hf) (by rw [hpc]; rfl)
  | openSet f' ip omode =>
      rw [hpc] at hf hhere
      obtain ⟨fd, hfd⟩ := hhere
      rw [← List.mem_singleton.mp hf] at hfd
      have hpos : 0 < slotCount (s.ofile p) (s.pc p).skip f :=
        slotCount_pos hfd (by rw [hpc]; exact nofun)
      unfold State.share
      omega
  | _ => rw [hpc] at hf; exact absurd hf List.not_mem_nil

/-- A file that one process has taken and not used yet is no other's. -/
theorem Inv.fresh_sole [DecidableEq P] (hf : f ∈ (s.pc q).fresh) (hne : p ≠ q) :
    s.share p f = 0 := by
  have hone := (h.fresh q f hf).1
  have hpos := h.fresh_share hf
  have hle := h.refs.two_le (r := f) hne
  unfold State.refs at hle
  omega

variable [DecidableEq P]

/-- A step of a running process on its own descriptors and on files that are free or that it has
references to. -/
theorem Inv.move (hrun : s.proc p = .running) (hm : Moved s p t)
    (hrefs : ∀ f, t.refs f + s.share p f = s.refs f + t.share p f)
    (hends : Counted t.opened t.ends)
    (hlive : ∀ page π, t.pipe page = some π → π.readopen = true ∨ π.writeopen = true)
    (hpages : ∀ page, t.kallocs page = t.kfrees page + if (t.pipe page).isSome then 1 else 0)
    (hfile : ∀ f, t.file f ≠ s.file f → (s.file f).ref = 0 ∨ 0 < s.share p f)
    (hunused : ∀ f, (t.file f).ref = 0 → (t.file f).type = .none)
    (hfresh : ∀ f, f ∈ (t.pc p).fresh → (t.file f).ref = 1 ∧ (t.file f).type = .none)
    (hhere : (t.pc p).Ok (t.ofile p))
    (hchild : ∀ np i, (t.pc p).child = some (np, i) →
      ∃ i₀, i₀ ≤ i ∧ (s.pc p).child = some (np, i₀))
    (hsafe : ∀ e, t.pc p ≠ .panic e) : Inv t where
  refs := h.refs.step p (fun q hq => hm.share hq) hrefs
  ends := hends
  live := hlive
  pages := hpages
  unused := hunused
  fresh q f hf := by
    by_cases hq : q = p
    · rw [hq] at hf
      exact hfresh f hf
    · rw [hm.pc q hq] at hf
      have hold := h.fresh q f hf
      by_cases hsame : t.file f = s.file f
      · rw [hsame]
        exact hold
      · have hnone := h.fresh_sole hf (Ne.symm hq)
        rcases hfile f hsame with hzero | hpos
        · omega
        · omega
  here q := by
    by_cases hq : q = p
    · rw [hq]
      exact hhere
    · rw [hm.pc q hq, hm.ofile q hq]
      exact h.here q
  running q hne := by
    rw [hm.proc]
    by_cases hq : q = p
    · rw [hq]
      exact hrun
    · rw [hm.pc q hq] at hne
      exact h.running q hne
  gone q hgone := by
    rw [hm.proc] at hgone
    have hq : q ≠ p := by
      rintro rfl
      rw [hrun] at hgone
      rcases hgone with hgone | hgone <;> cases hgone
    rw [hm.ofile q hq]
    exact h.gone q hgone
  child q np i hc := by
    have hold : ∃ i₀, i₀ ≤ i ∧ (s.pc q).child = some (np, i₀) := by
      by_cases hq : q = p
      · rw [hq] at hc ⊢
        exact hchild np i hc
      · rw [hm.pc q hq] at hc
        exact ⟨i, Nat.le_refl i, hc⟩
    obtain ⟨i₀, hle, hc₀⟩ := hold
    obtain ⟨hembryo, hnone⟩ := h.child q np i₀ hc₀
    have hnp : np ≠ p := by
      rintro rfl
      rw [hrun] at hembryo
      cases hembryo
    rw [hm.proc, hm.ofile np hnp]
    exact ⟨hembryo, fun fd hfd => hnone fd (Nat.le_trans hle hfd)⟩
  apart q q' np i i' hc hc' := by
    have hold : ∀ {q i}, (t.pc q).child = some (np, i) → ∃ i₀, (s.pc q).child = some (np, i₀) := by
      intro q i hc
      by_cases hq : q = p
      · rw [hq] at hc ⊢
        obtain ⟨i₀, -, hc₀⟩ := hchild np i hc
        exact ⟨i₀, hc₀⟩
      · rw [hm.pc q hq] at hc
        exact ⟨i, hc⟩
    obtain ⟨i₀, hc₀⟩ := hold hc
    obtain ⟨i₀', hc₀'⟩ := hold hc'
    exact h.apart q q' np i₀ i₀' hc₀ hc₀'
  safe q e := by
    by_cases hq : q = p
    · rw [hq]
      exact hsafe e
    · rw [hm.pc q hq]
      exact h.safe q e

/-- A step that has nothing to do with pipes. -/
theorem Inv.plain (hrun : s.proc p = .running) (hm : Moved s p t) (hpipe : t.pipe = s.pipe)
    (hkallocs : t.kallocs = s.kallocs) (hkfrees : t.kfrees = s.kfrees)
    (hrefs : ∀ f, t.refs f + s.share p f = s.refs f + t.share p f)
    (hpending : (t.pc p).pending = (s.pc p).pending)
    (hend : ∀ f e, (t.file f).IsEnd e ↔ (s.file f).IsEnd e)
    (hfile : ∀ f, t.file f ≠ s.file f → (s.file f).ref = 0 ∨ 0 < s.share p f)
    (hunused : ∀ f, (t.file f).ref = 0 → (t.file f).type = .none)
    (hfresh : ∀ f, f ∈ (t.pc p).fresh → (t.file f).ref = 1 ∧ (t.file f).type = .none)
    (hhere : (t.pc p).Ok (t.ofile p))
    (hchild : ∀ np i, (t.pc p).child = some (np, i) →
      ∃ i₀, i₀ ≤ i ∧ (s.pc p).child = some (np, i₀))
    (hsafe : ∀ e, t.pc p ≠ .panic e) : Inv t := by
  have hopened : t.opened = s.opened := by
    unfold State.opened
    rw [hpipe]
  have hends : t.ends = s.ends := by
    funext a e
    cases a with
    | inl q =>
        show (t.pc q).pending.count e = (s.pc q).pending.count e
        by_cases hq : q = p
        · rw [hq, hpending]
        · rw [hm.pc q hq]
    | inr f =>
        show (if (t.file f).IsEnd e then 1 else 0) = if (s.file f).IsEnd e then 1 else 0
        simp only [hend]
  refine h.move hrun hm hrefs ?_ ?_ ?_ hfile hunused hfresh hhere hchild hsafe
  · rw [hopened, hends]
    exact h.ends
  · rw [hpipe]
    exact h.live
  · rw [hpipe, hkallocs, hkfrees]
    exact h.pages

/-- The process goes on with its references, in descriptors or not. -/
theorem Inv.keep (hrun : s.proc p = .running) (hm : Moved s p t) (hfile : t.file = s.file)
    (hpipe : t.pipe = s.pipe) (hkallocs : t.kallocs = s.kallocs) (hkfrees : t.kfrees = s.kfrees)
    (hshare : ∀ f, t.share p f = s.share p f) (hpending : (t.pc p).pending = (s.pc p).pending)
    (hfresh : ∀ f, f ∈ (t.pc p).fresh → f ∈ (s.pc p).fresh) (hhere : (t.pc p).Ok (t.ofile p))
    (hchild : ∀ np i, (t.pc p).child = some (np, i) →
      ∃ i₀, i₀ ≤ i ∧ (s.pc p).child = some (np, i₀))
    (hsafe : ∀ e, t.pc p ≠ .panic e) : Inv t := by
  refine h.plain hrun hm hpipe hkallocs hkfrees ?_ hpending ?_ ?_ ?_ ?_ hhere hchild hsafe
  · intro f
    unfold State.refs
    rw [hfile, hshare]
  · intro f e
    rw [hfile]
  · intro f hne
    rw [hfile] at hne
    exact absurd rfl hne
  · rw [hfile]
    exact h.unused
  · rw [hfile]
    exact fun f hf => h.fresh p f (hfresh f hf)

end Step

/-! ## What the steps change -/

section Moves

variable {pc : Pc P} {v : Option FileId} {x : File}

theorem Moved.refl : Moved s p s := ⟨fun _ _ => rfl, fun _ _ => rfl, rfl⟩

theorem Moved.setFile (hm : Moved s p t) : Moved s p (t.setFile f x) where
  ofile := hm.ofile
  pc := hm.pc
  proc := hm.proc

theorem fdalloc_some (h : s.fdalloc p = some fd) : s.ofile p fd = none := by
  have hfound := List.find?_some h
  exact Option.isNone_iff_eq_none.mp hfound

theorem filealloc_some (h : s.filealloc = some f) : (s.file f).ref = 0 := by
  have hfound := List.find?_some h
  exact beq_iff_eq.mp hfound

variable [DecidableEq P]

theorem Moved.goto (hm : Moved s p t) : Moved s p (t.goto p pc) where
  ofile := hm.ofile
  pc q hq := (Function.update_of_ne hq _ _).trans (hm.pc q hq)
  proc := hm.proc

theorem Moved.setFd (hm : Moved s p t) : Moved s p (t.setFd p fd v) where
  ofile q hq := (Function.update_of_ne hq _ _).trans (hm.ofile q hq)
  pc := hm.pc
  proc := hm.proc

@[simp] theorem goto_pc : (s.goto p pc).pc p = pc := Function.update_self _ _ _

@[simp] theorem setFd_ofile : (s.setFd p fd v).ofile p = update (s.ofile p) fd v :=
  Function.update_self _ _ _

/-- What a process has after it has changed a descriptor. -/
theorem share_setFd (f : FileId) : ((s.setFd p fd v).goto p pc).share p f =
    slotCount (update (s.ofile p) fd v) pc.skip f + pc.hold.count f := by
  unfold State.share
  rw [goto_pc]
  show slotCount ((s.setFd p fd v).ofile p) _ _ + _ = _
  rw [setFd_ofile]

theorem share_goto (f : FileId) :
    (s.goto p pc).share p f = slotCount (s.ofile p) pc.skip f + pc.hold.count f := by
  unfold State.share
  rw [goto_pc]
  rfl

end Moves

/-! ## The steps of the calls -/

section Calls

variable [Fintype P] [DecidableEq P] {pc : Pc P}

/-- The process goes on with the same references. -/
theorem Inv.goto (h : Inv s) (hrun : s.proc p = .running) (hhold : pc.hold = (s.pc p).hold)
    (hskip : pc.skip = (s.pc p).skip) (hpending : pc.pending = (s.pc p).pending)
    (hfresh : ∀ f, f ∈ pc.fresh → f ∈ (s.pc p).fresh) (hhere : pc.Ok (s.ofile p))
    (hchild : ∀ np i, pc.child = some (np, i) → ∃ i₀, i₀ ≤ i ∧ (s.pc p).child = some (np, i₀))
    (hsafe : ∀ e, pc ≠ .panic e) : Inv (s.goto p pc) := by
  apply h.keep hrun Moved.refl.goto rfl rfl rfl rfl
  · intro f
    rw [share_goto, hhold, hskip]
    rfl
  · rw [goto_pc]
    exact hpending
  · rw [goto_pc]
    exact hfresh
  · rw [goto_pc]
    exact hhere
  · rw [goto_pc]
    exact hchild
  · rw [goto_pc]
    exact hsafe

/-- The process changes a descriptor, and its references are the same. -/
theorem Inv.setFd {v : Option FileId} (h : Inv s) (hrun : s.proc p = .running)
    (hshare : ∀ f, slotCount (update (s.ofile p) fd v) pc.skip f + pc.hold.count f = s.share p f)
    (hpending : pc.pending = (s.pc p).pending) (hfresh : ∀ f, f ∈ pc.fresh → f ∈ (s.pc p).fresh)
    (hhere : pc.Ok (update (s.ofile p) fd v)) (hchild : pc.child = none)
    (hsafe : ∀ e, pc ≠ .panic e) : Inv ((s.setFd p fd v).goto p pc) := by
  apply h.keep hrun Moved.refl.setFd.goto rfl rfl rfl rfl
  · intro f
    rw [share_setFd]
    exact hshare f
  · rw [goto_pc]
    exact hpending
  · rw [goto_pc]
    exact hfresh
  · rw [goto_pc]
    show pc.Ok ((s.setFd p fd v).ofile p)
    rw [setFd_ofile]
    exact hhere
  · rw [goto_pc, hchild]
    exact nofun
  · rw [goto_pc]
    exact hsafe

/-- `fdalloc` puts a reference in a descriptor. -/
theorem Inv.fdalloc (h : Inv s) (hrun : s.proc p = .running) (hfd : s.fdalloc p = some fd)
    (hskip : (s.pc p).skip = none) (hskip' : pc.skip = none) (hhold : (s.pc p).hold = f :: pc.hold)
    (hpending : pc.pending = (s.pc p).pending) (hfresh : ∀ f, f ∈ pc.fresh → f ∈ (s.pc p).fresh)
    (hhere : pc.Ok (update (s.ofile p) fd (some f))) (hchild : pc.child = none)
    (hsafe : ∀ e, pc ≠ .panic e) : Inv ((s.setFd p fd (some f)).goto p pc) := by
  apply h.setFd hrun _ hpending hfresh hhere hchild hsafe
  intro g
  have hcount := slotCount_update (s.ofile p) g fd (some f)
  rw [fdalloc_some hfd] at hcount
  unfold State.share
  rw [hskip, hskip', hhold, List.count_cons]
  simp only [Option.some.injEq, beq_iff_eq, reduceCtorEq, if_false] at hcount ⊢
  omega

/-- A descriptor is cleared, and the process has its reference. -/
theorem Inv.clearFd (h : Inv s) (hrun : s.proc p = .running) (hfd : s.ofile p fd = some f)
    (hskip : (s.pc p).skip = none) (hskip' : pc.skip = none) (hhold : pc.hold = f :: (s.pc p).hold)
    (hpending : pc.pending = (s.pc p).pending) (hfresh : ∀ f, f ∈ pc.fresh → f ∈ (s.pc p).fresh)
    (hhere : pc.Ok (update (s.ofile p) fd none)) (hchild : pc.child = none)
    (hsafe : ∀ e, pc ≠ .panic e) : Inv ((s.setFd p fd none).goto p pc) := by
  apply h.setFd hrun _ hpending hfresh hhere hchild hsafe
  intro g
  have hcount := slotCount_update (s.ofile p) g fd none
  rw [hfd] at hcount
  unfold State.share
  rw [hskip, hskip', hhold, List.count_cons]
  simp only [Option.some.injEq, beq_iff_eq, reduceCtorEq, if_false] at hcount ⊢
  omega

/-- The number of references to a file changes with those of the process. -/
theorem Inv.setRef {r : Nat} (h : Inv s) (hrun : s.proc p = .running) (hr : r ≠ 0)
    (hfile : (s.file f).ref = 0 ∨ 0 < s.share p f)
    (hshare : ∀ g, (if g = f then r else s.refs g) + s.share p g =
      s.refs g + (slotCount (s.ofile p) pc.skip g + pc.hold.count g))
    (hpending : pc.pending = (s.pc p).pending)
    (hfresh : ∀ g, g ∈ pc.fresh →
      g = f ∧ r = 1 ∧ (s.file f).type = .none ∨ g ≠ f ∧ g ∈ (s.pc p).fresh)
    (hhere : pc.Ok (s.ofile p))
    (hchild : ∀ np i, pc.child = some (np, i) → ∃ i₀, i₀ ≤ i ∧ (s.pc p).child = some (np, i₀))
    (hsafe : ∀ e, pc ≠ .panic e) :
    Inv ((s.setFile f { s.file f with ref := r }).goto p pc) := by
  have hself : update s.file f { s.file f with ref := r } f = { s.file f with ref := r } :=
    Function.update_self _ _ _
  have hother : ∀ g, g ≠ f → update s.file f { s.file f with ref := r } g = s.file g :=
    fun g hg => Function.update_of_ne hg _ _
  apply h.plain hrun Moved.refl.setFile.goto rfl rfl rfl
  · intro g
    rw [share_goto]
    show (update s.file f { s.file f with ref := r } g).ref + _ = _
    have hg := hshare g
    by_cases hgf : g = f
    · rw [if_pos hgf] at hg
      rw [hgf, hself]
      rw [hgf] at hg
      exact hg
    · rw [if_neg hgf] at hg
      rw [hother g hgf]
      exact hg
  · rw [goto_pc]
    exact hpending
  · intro g e
    show (update s.file f { s.file f with ref := r } g).IsEnd e ↔ _
    by_cases hg : g = f
    · rw [hg, hself]
      rfl
    · rw [hother g hg]
  · intro g hne
    by_cases hg : g = f
    · rw [hg]
      exact hfile
    · exact absurd (hother g hg) hne
  · intro g hzero
    have hzero' : (update s.file f { s.file f with ref := r } g).ref = 0 := hzero
    show (update s.file f { s.file f with ref := r } g).type = .none
    by_cases hg : g = f
    · rw [hg, hself] at hzero'
      exact absurd hzero' hr
    · rw [hother g hg] at hzero' ⊢
      exact h.unused g hzero'
  · rw [goto_pc]
    intro g hg
    show (update s.file f { s.file f with ref := r } g).ref = 1 ∧
      (update s.file f { s.file f with ref := r } g).type = .none
    rcases hfresh g hg with ⟨hgf, hone, hnone⟩ | ⟨hgf, hold⟩
    · rw [hgf, hself]
      exact ⟨hone, hnone⟩
    · rw [hother g hgf]
      exact h.fresh p g hold
  · rw [goto_pc]
    exact hhere
  · rw [goto_pc]
    exact hchild
  · rw [goto_pc]
    exact hsafe

/-- `filealloc` makes a reference. -/
theorem Inv.filealloc (h : Inv s) (hrun : s.proc p = .running) (hf : s.filealloc = some f)
    (hskip : pc.skip = (s.pc p).skip) (hhold : pc.hold.Perm (f :: (s.pc p).hold))
    (hpending : pc.pending = (s.pc p).pending)
    (hfresh : ∀ g, g ∈ pc.fresh → g = f ∨ g ∈ (s.pc p).fresh) (hhere : pc.Ok (s.ofile p))
    (hchild : pc.child = none) (hsafe : ∀ e, pc ≠ .panic e) :
    Inv ((s.setFile f { s.file f with ref := 1 }).goto p pc) := by
  have hzero := filealloc_some hf
  refine h.setRef hrun Nat.one_ne_zero (.inl hzero) ?_ hpending ?_ hhere ?_ hsafe
  · intro g
    rw [hskip, hhold.count_eq, List.count_cons]
    unfold State.share State.refs
    by_cases hg : g = f
    · rw [if_pos hg, hg, hzero]
      simp only [beq_self_eq_true, if_true]
      omega
    · rw [if_neg hg]
      simp only [beq_iff_eq, Ne.symm hg, if_false, Nat.add_zero]
  · intro g hg
    by_cases hgf : g = f
    · exact .inl ⟨hgf, rfl, h.unused f hzero⟩
    · exact .inr ⟨hgf, (hfresh g hg).resolve_left hgf⟩
  · rw [hchild]
    exact nofun

/-- `filedup` of a file that the process has a reference to. -/
theorem Inv.filedup (h : Inv s) (hrun : s.proc p = .running) (hpos : 0 < s.share p f)
    (hshare : ∀ g, slotCount (s.ofile p) pc.skip g + pc.hold.count g =
      s.share p g + if f = g then 1 else 0)
    (hpending : pc.pending = (s.pc p).pending) (hfresh : pc.fresh = [])
    (hhere : pc.Ok (s.ofile p))
    (hchild : ∀ np i, pc.child = some (np, i) → ∃ i₀, i₀ ≤ i ∧ (s.pc p).child = some (np, i₀))
    (hsafe : ∀ e, pc ≠ .panic e) : Inv (s.filedup p f pc) := by
  have hle : s.share p f ≤ (s.file f).ref := h.refs.le
  unfold State.filedup
  rw [if_neg (by omega)]
  refine h.setRef hrun (Nat.succ_ne_zero _) (.inr hpos) ?_ hpending ?_ hhere hchild hsafe
  · intro g
    rw [hshare g]
    by_cases hg : g = f
    · rw [if_pos hg, if_pos hg.symm, hg]
      unfold State.refs
      omega
    · rw [if_neg hg, if_neg (Ne.symm hg)]
      omega
  · rw [hfresh]
    exact fun g hg => absurd hg List.not_mem_nil

/-- The last reference to a file goes, and with it an end of a pipe. -/
theorem Inv.closeLast (h : Inv s) (hrun : s.proc p = .running) (hone : (s.file f).ref = 1)
    (hpos : 0 < s.share p f)
    (hshare : ∀ g, slotCount (s.ofile p) pc.skip g + pc.hold.count g + (if f = g then 1 else 0) =
      s.share p g)
    (hnone : (s.pc p).pending = [])
    (hpending : ∀ e, pc.pending.count e = if (s.file f).IsEnd e then 1 else 0)
    (hfresh : pc.fresh = []) (hhere : pc.Ok (s.ofile p)) (hchild : pc.child = none)
    (hsafe : ∀ e, pc ≠ .panic e) :
    Inv ((s.setFile f { s.file f with ref := 0, type := .none }).goto p pc) := by
  obtain ⟨x, hx⟩ : ∃ x : File, x = { s.file f with ref := 0, type := .none } := ⟨_, rfl⟩
  rw [← hx]
  have hxref : x.ref = 0 := by rw [hx]
  have hself : update s.file f x f = x := Function.update_self _ _ _
  have hother : ∀ g, g ≠ f → update s.file f x g = s.file g :=
    fun g hg => Function.update_of_ne hg _ _
  have hend : ∀ e, ¬ x.IsEnd e := by
    intro e he
    rw [hx] at he
    exact absurd he.1 nofun
  apply h.move hrun Moved.refl.setFile.goto
  · intro g
    rw [share_goto]
    show (update s.file f x g).ref + s.share p g =
      s.refs g + (slotCount (s.ofile p) pc.skip g + pc.hold.count g)
    have hg := hshare g
    by_cases hgf : g = f
    · rw [if_pos hgf.symm] at hg
      rw [hgf] at hg
      rw [hgf, hself, hxref]
      unfold State.refs
      omega
    · rw [if_neg (Ne.symm hgf)] at hg
      rw [hother g hgf]
      unfold State.refs
      omega
  · refine h.ends.pair (a := .inl p) (b := .inr f) nofun ?_ ?_
    · intro c hcp hcf
      funext e
      cases c with
      | inl q =>
          have hq : q ≠ p := fun heq => hcp (by rw [heq])
          show (update s.pc p pc q).pending.count e = (s.pc q).pending.count e
          rw [Function.update_of_ne hq]
      | inr g =>
          have hg : g ≠ f := fun heq => hcf (by rw [heq])
          show (if (update s.file f x g).IsEnd e then 1 else 0) =
            if (s.file g).IsEnd e then 1 else 0
          rw [hother g hg]
    · intro e
      show s.opened e + (s.pc p).pending.count e + (if (s.file f).IsEnd e then 1 else 0) =
        s.opened e + (update s.pc p pc p).pending.count e +
          if (update s.file f x f).IsEnd e then 1 else 0
      rw [Function.update_self, hself, if_neg (hend e), hpending e, hnone, List.count_nil]
      omega
  · exact h.live
  · exact h.pages
  · intro g hne
    by_cases hg : g = f
    · rw [hg]
      exact .inr hpos
    · exact absurd (hother g hg) hne
  · intro g hzero
    have hzero' : (update s.file f x g).ref = 0 := hzero
    show (update s.file f x g).type = .none
    by_cases hg : g = f
    · rw [hg, hself, hx]
    · rw [hother g hg] at hzero' ⊢
      exact h.unused g hzero'
  · rw [goto_pc, hfresh]
    exact fun g hg => absurd hg List.not_mem_nil
  · rw [goto_pc]
    exact hhere
  · rw [goto_pc, hchild]
    exact nofun
  · rw [goto_pc]
    exact hsafe

end Calls

end OsWork.Ports.FileTable

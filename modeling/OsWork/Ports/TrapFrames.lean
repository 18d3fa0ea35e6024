import OsWork.Ports.PageMachine

/-!
# Traps and context switches

`vectors.S`, `trapasm.S` and `swtch.S`, with what the processor does at a trap and at `iret`,
over the kernel stacks of any number of threads on any number of CPUs.  Between these the
C code of the kernel is free: it changes registers, and the part of its stack that is its
own.  So a trap may come in the middle of a trap handler, and a handler may give its CPU to
another thread and go on on another CPU.

A kernel stack is a page, and a stack pointer into it the index of a word.  Each piece of
assembly is one step here, and a stack has room for it.
-/

namespace OsWork.Ports.TrapFrames

open OsWork.Ports.PageTables (Page Entry Entries stackPage copyTf userTf)
open OsWork.Ports.ProcTable (Word)
open OsWork.Verified.Transition
open Function (update)

/-! ## The processor -/

/-- A segment selector. -/
abbrev Seg := BitVec 16

/-- `%esp`: in user space an address, in the kernel the index of a word of the stack. -/
inductive Esp
  | user (w : Word)
  | kernel (i : Nat)
  deriving DecidableEq

@[ext]
structure Regs where
  eax : Word
  ecx : Word
  edx : Word
  ebx : Word
  ebp : Word
  esi : Word
  edi : Word
  ds : Seg
  es : Seg
  fs : Seg
  gs : Seg
  ss : Seg
  cs : Seg
  eip : Word
  eflags : Word
  esp : Esp
  deriving DecidableEq

/-- The callee-saved registers. -/
inductive Reg
  | ebp
  | ebx
  | esi
  | edi

/-- The segment registers that are saved. -/
inductive SegReg
  | ds
  | es
  | fs
  | gs

/-- The instructions of the three files, but for jumps, `ret` and `iret`. -/
inductive Instr
  /-- `pushl $w` -/
  | pushl (w : Word)
  | pushReg (r : Reg)
  | pushSeg (s : SegReg)
  | pushal
  /-- `pushl %esp` -/
  | pushEsp
  /-- `call`, with the address behind it -/
  | call (next : Word)
  | popReg (r : Reg)
  | popSeg (s : SegReg)
  | popal
  /-- `movw $w, %ax` -/
  | movwAx (w : Seg)
  /-- `movw %ax, s` -/
  | movwSeg (s : SegReg)
  /-- `addl $(4 * n), %esp` -/
  | addlEsp (n : Nat)

/-- `$(SEG_KCODE<<3)` -/
def kernelCs : Seg := 8

/-- `$(SEG_KDATA<<3)` -/
def kernelDs : Seg := 16

/-- The selector is for the privilege level of user space. -/
def isUser (cs : Seg) : Bool := cs &&& 3 == 3

/-- `FL_IF` -/
def FL_IF : Word := 0x200

def T_SYSCALL : Nat := 64

namespace Regs

variable (r : Regs)

def get : Reg → Word
  | .ebp => r.ebp
  | .ebx => r.ebx
  | .esi => r.esi
  | .edi => r.edi

def set (w : Word) : Reg → Regs
  | .ebp => { r with ebp := w }
  | .ebx => { r with ebx := w }
  | .esi => { r with esi := w }
  | .edi => { r with edi := w }

def getSeg : SegReg → Seg
  | .ds => r.ds
  | .es => r.es
  | .fs => r.fs
  | .gs => r.gs

def setSeg (w : Seg) : SegReg → Regs
  | .ds => { r with ds := w }
  | .es => { r with es := w }
  | .fs => { r with fs := w }
  | .gs => { r with gs := w }

/-- The index of the word that `%esp` points to. -/
def sp : Nat :=
  match r.esp with
  | .kernel i => i
  | .user _ => 0

end Regs

/-- A CPU and the kernel stack that it is on. -/
structure Ctl where
  regs : Regs
  page : Page

namespace Ctl

variable (x : Ctl)

def push (w : Word) : Ctl where
  regs := { x.regs with esp := .kernel (x.regs.sp - 1) }
  page := update x.page (Fin.ofNat 1024 (x.regs.sp - 1)) w

/-- The word that `%esp` points to. -/
def top : Word := x.page (Fin.ofNat 1024 x.regs.sp)

/-- `%esp` goes up by `n` words. -/
def drop (n : Nat) : Ctl :=
  { x with regs := { x.regs with esp := .kernel (x.regs.sp + n) } }

/-- An assignment to registers. -/
def setRegs (f : Regs → Regs) : Ctl := { x with regs := f x.regs }

def pops : List (Word → Regs → Regs) → Ctl → Ctl
  | [], x => x
  | f :: fs, x => pops fs ((x.drop 1).setRegs (f x.top))

end Ctl

/-- Where the words of a kernel stack are in memory. -/
abbrev Place := Nat → Word

/-- The registers that `popal` sets, in its order; it takes a word for `%esp` and ignores it. -/
def popalRegs : List (Word → Regs → Regs) :=
  [fun w r => { r with edi := w }, fun w r => { r with esi := w },
   fun w r => { r with ebp := w }, fun _ r => r, fun w r => { r with ebx := w },
   fun w r => { r with edx := w }, fun w r => { r with ecx := w },
   fun w r => { r with eax := w }]

/-- The words that `pushal` pushes, the last one first. -/
def pushalWords (a : Place) (r : Regs) : List Word :=
  [r.edi, r.esi, r.ebp, a r.sp, r.ebx, r.edx, r.ecx, r.eax]

/-- A selector as a word. -/
def Seg.word (s : Seg) : Word := s.setWidth 32

/-- Words that are pushed, the last one first. -/
def Ctl.pushAll (x : Ctl) (ws : List Word) : Ctl := ws.foldr (fun w x => x.push w) x

def Instr.exec (a : Place) (x : Ctl) : Instr → Ctl
  | .pushl w => x.push w
  | .pushReg r => x.push (x.regs.get r)
  | .pushSeg s => x.push (x.regs.getSeg s).word
  | .pushal => x.pushAll (pushalWords a x.regs)
  | .pushEsp => x.push (a x.regs.sp)
  | .call next => x.push next
  | .popReg r => Ctl.pops [fun w regs => regs.set w r] x
  | .popSeg s => Ctl.pops [fun w regs => regs.setSeg (w.setWidth 16) s] x
  | .popal => Ctl.pops popalRegs x
  | .movwAx w => x.setRegs fun r => { r with eax := (r.eax &&& 0xFFFF0000) ||| w.word }
  | .movwSeg s => x.setRegs fun r => r.setSeg (r.eax.setWidth 16) s
  | .addlEsp n => x.drop n

def exec (a : Place) (code : List Instr) (x : Ctl) : Ctl := code.foldl (Instr.exec a) x

/-- `ret` -/
def Ctl.ret (x : Ctl) : Ctl := Ctl.pops [fun w r => { r with eip := w }] x

/-- What `iret` pops in any case. -/
def iretPops : List (Word → Regs → Regs) :=
  [fun w r => { r with eip := w }, fun w r => { r with cs := w.setWidth 16 },
   fun w r => { r with eflags := w }]

/-- What `iret` pops when it leaves the kernel; the first word is for `%esp`. -/
def iretUserPops : List (Word → Regs → Regs) :=
  [fun _ r => r, fun w r => { r with ss := w.setWidth 16 }]

/-- `iret`: the stack pointer and its segment are popped when the code goes on in user space. -/
def Ctl.iret (x : Ctl) : Ctl :=
  let y := Ctl.pops iretPops x
  if isUser y.regs.cs then
    (Ctl.pops iretUserPops y).setRegs fun r => { r with esp := .user y.top }
  else y

/-- The traps for which the processor pushes an error code. -/
def hasErrorCode (n : Nat) : Bool := [8, 10, 11, 12, 13, 14, 17].contains n

/-- What the processor pushes at the trap `n` with the error code `err`, the last word first. -/
def hardwareWords (r : Regs) (n : Nat) (err : Word) : List Word :=
  (if hasErrorCode n then [err] else []) ++ [r.eip, r.cs.word, r.eflags] ++
    match r.esp with
    | .user w => [w, r.ss.word]
    | .kernel _ => []

/-- The words that are on the stack when `alltraps` begins. -/
def trapWords (r : Regs) (n : Nat) (err : Word) : List Word :=
  [BitVec.ofNat 32 n, if hasErrorCode n then err else 0, r.eip, r.cs.word, r.eflags] ++
    match r.esp with
    | .user w => [w, r.ss.word]
    | .kernel _ => []

/-- The kernel stack of a CPU in user space is in its task state (`switchuvm`). -/
def Regs.onKernelStack (r : Regs) : Regs :=
  if isUser r.cs then { r with esp := .kernel 1024, ss := kernelDs } else r

/-- The trap `n`: the gate of `tvinit` clears the interrupt flag, but for `T_SYSCALL`. -/
def Ctl.hardwareTrap (x : Ctl) (n : Nat) (err : Word) : Ctl :=
  (({ x with regs := x.regs.onKernelStack }).pushAll (hardwareWords x.regs n err)).setRegs
    fun r => { r with
      cs := kernelCs
      eflags := if n = T_SYSCALL then r.eflags else r.eflags &&& ~~~ FL_IF }

/-! ## The source -/

/-- The addresses of code that are on stacks. -/
structure Symbols extends Entries where
  /-- behind `call trap` -/
  afterTrap : Word
  apart : afterTrap ≠ trapret

variable (S : Symbols)

def alltraps : List Instr :=
  [.pushSeg .ds, .pushSeg .es, .pushSeg .fs, .pushSeg .gs, .pushal,
   -- Set up data segments.
   .movwAx kernelDs, .movwSeg .ds, .movwSeg .es,
   .pushEsp, .call S.afterTrap]

/-- `trapret`, up to `iret`. -/
def trapret : List Instr :=
  [.popal, .popSeg .gs, .popSeg .fs, .popSeg .es, .popSeg .ds, .addlEsp 2]

/-- An entry of `vectors.S`, which goes on in `alltraps`. -/
def vector (n : Nat) : List Instr :=
  (if n = 8 ∨ 10 ≤ n ∧ n ≤ 14 ∨ n = 17 then [] else [.pushl 0]) ++
    [.pushl (BitVec.ofNat 32 n)] ++ alltraps S

/-- The code at an address to which the C code returns, up to `iret`. -/
def returnTo (w : Word) : Option (List Instr) :=
  if w = S.afterTrap then some (.addlEsp 1 :: trapret)
  else if w = S.trapret then some trapret
  else none

/-- `swtch`, before the stacks are switched. -/
def swtchSave : List Instr := [.pushReg .ebp, .pushReg .ebx, .pushReg .esi, .pushReg .edi]

/-- `swtch`, after the stacks have been switched, up to `ret`. -/
def swtchLoad : List Instr := [.popReg .edi, .popReg .esi, .popReg .ebx, .popReg .ebp]

/-! ## Threads -/

/-- The words of a kernel stack from the index `i` on. -/
def above (p : Page) (i : Nat) : List Word :=
  (List.range' i (1024 - i)).map fun k => p (Fin.ofNat 1024 k)

/-- Somebody who has been interrupted: the registers and the stack at that time, and what is on
the stack below them. -/
structure Interrupted where
  regs : Regs
  words : List Word
  trapno : Word
  err : Word
  /-- what `pushal` has pushed for `%esp` -/
  oesp : Word
  /-- the return address of the C code, and its argument -/
  call : List Word

/-- The words of `struct trapframe`, and those that were there before. -/
def Interrupted.frame (a : Interrupted) : List Word :=
  [a.regs.edi, a.regs.esi, a.regs.ebp, a.oesp, a.regs.ebx, a.regs.edx, a.regs.ecx, a.regs.eax,
   a.regs.gs.word, a.regs.fs.word, a.regs.es.word, a.regs.ds.word, a.trapno, a.err,
   a.regs.eip, a.regs.cs.word, a.regs.eflags] ++
    match a.regs.esp with
    | .user w => [w, a.regs.ss.word]
    | .kernel _ => a.words

/-- The stack where the C code begins. -/
def Interrupted.stack (a : Interrupted) : List Word := a.call ++ a.frame

/-- Somebody who has called `swtch`: what it is to find when `swtch` returns. -/
structure Paused where
  ebp : Word
  ebx : Word
  esi : Word
  edi : Word
  eip : Word
  words : List Word

/-- The words of `struct context`, and those that were there before. -/
def Paused.stack (p : Paused) : List Word := [p.edi, p.esi, p.ebx, p.ebp, p.eip] ++ p.words

inductive Status
  | unused
  | running
  /-- not on a CPU; `context` is the index of a word of its stack -/
  | waiting (context : Nat) (p : Paused)

structure State (C T : Type) where
  regs : C → Regs
  thread : C → T
  page : T → Page
  status : T → Status
  /-- whom the thread has interrupted, the last one first -/
  acts : T → List Interrupted

inductive Act (C T : Type)
  /-- user space -/
  | user (c : C) (r : Regs)
  /-- C code of the kernel -/
  | code (c : C) (r : Regs) (p : Page)
  | trap (c : C) (n : Nat) (err : Word)
  /-- the C code that has been called from `alltraps`, or `forkret`, returns -/
  | ret (c : C)
  /-- C code calls `swtch` to get to the thread -/
  | swtch (c : C) (t : T) (eax edx : Word)
  /-- `tf->eax`, `tf->eip` and `tf->esp` are assigned to in a system call -/
  | setTf (c : C) (eax eip esp : Word)
  /-- the thread is made by `fork`, with this page from `kalloc` -/
  | fork (c : C) (t : T) (p : Page)
  /-- the thread is made by `userinit` -/
  | userinit (t : T) (p : Page)
  /-- the thread is given up by `wait` -/
  | reap (t : T)

/-- The stack at the place where the C code of the thread begins. -/
def base : List Interrupted → List Word
  | [] => []
  | a :: _ => a.stack

/-- Assignments to the trap frame at the top of the stack. -/
def setFrame (p : Page) (eax eip esp : Word) : Page := fun k =>
  if k.val = 1012 then eax
  else if k.val = 1019 then eip
  else if k.val = 1022 then esp
  else p k

/-- The registers that `userinit` writes to the trap frame. -/
def firstRegs : Regs where
  eax := 0
  ecx := 0
  edx := 0
  ebx := 0
  ebp := 0
  esi := 0
  edi := 0
  ds := 35
  es := 35
  fs := 0
  gs := 0
  ss := 35
  cs := 27
  eip := 0
  eflags := FL_IF
  esp := .user 4096

namespace State

variable {C T : Type} [DecidableEq C] [DecidableEq T] (place : T → Place) (s : State C T)

/-- The CPU with the stack of its thread. -/
def ctl (c : C) : Ctl := ⟨s.regs c, s.page (s.thread c)⟩

def setCtl (c : C) (x : Ctl) : State C T :=
  { s with regs := update s.regs c x.regs, page := update s.page (s.thread c) x.page }

def setActs (t : T) (l : List Interrupted) : State C T := { s with acts := update s.acts t l }

/-- The stack of the thread, of which `i` is the first word in use, is changed by C code above
the frames only. -/
def Keeps (t : T) (r : Regs) (p : Page) : Prop :=
  r.cs = kernelCs ∧ r.ss = kernelDs ∧ r.esp = .kernel r.sp ∧
    r.sp + (base (s.acts t)).length ≤ 1024 ∧
    ∀ k : Entry, 1024 ≤ k.val + (base (s.acts t)).length → p k = s.page t k

instance (t : T) (r : Regs) (p : Page) : Decidable (s.Keeps t r p) :=
  inferInstanceAs (Decidable (_ ∧ _))

/-- What is to be remembered of a trap. -/
def interrupted (c : C) (n : Nat) (err : Word) : Interrupted :=
  let r := s.regs c
  let words := if isUser r.cs then [] else above (s.page (s.thread c)) r.sp
  -- the words that are pushed before `pushal`
  let i := 1024 - words.length - if isUser r.cs then 11 else 9
  { regs := r
    words := words
    trapno := BitVec.ofNat 32 n
    err := if hasErrorCode n then err else 0
    oesp := place (s.thread c) i
    call := [S.afterTrap, place (s.thread c) (i - 8)] }

/-- What is to be remembered of a call of `swtch`. -/
def paused (c : C) : Paused where
  ebp := (s.regs c).ebp
  ebx := (s.regs c).ebx
  esi := (s.regs c).esi
  edi := (s.regs c).edi
  eip := (s.ctl c).top
  words := above (s.page (s.thread c)) ((s.regs c).sp + 1)

/-- A new thread: the context of `allocproc` is on its stack, and a trap frame. -/
def spawn (t : T) (p : Page) (a : Interrupted) : State C T :=
  { s with
    page := update s.page t p
    status := update s.status t (.waiting 999
      { ebp := 0, ebx := 0, esi := 0, edi := 0, eip := S.forkret, words := a.stack })
    acts := update s.acts t [a] }

/-- The trap frame of the child, for that of its parent. -/
def child (a : Interrupted) : Interrupted :=
  { a with regs := { a.regs with eax := 0 }, call := [S.trapret] }

/-- The trap frame of the first process. -/
def first : Interrupted where
  regs := firstRegs
  words := []
  trapno := 0
  err := 0
  oesp := 0
  call := [S.trapret]

/-- `swtch`, on the CPU `c`, to the thread `u` with the context at `i`. -/
def switch (c : C) (u : T) (i : Nat) (eax edx : Word) : State C T :=
  let x := exec (place (s.thread c)) swtchSave (s.ctl c)
  let y := (exec (place u) swtchLoad
    { regs := { x.regs with eax := eax, edx := edx, esp := .kernel i }, page := s.page u }).ret
  { s with
    regs := update s.regs c y.regs
    thread := update s.thread c u
    page := update (update s.page (s.thread c) x.page) u y.page
    status := update (update s.status (s.thread c) (.waiting x.regs.sp (s.paused c))) u .running }

def step : Act C T → Option (State C T)
  | .user c r =>
      if isUser (s.regs c).cs ∧ r.cs = (s.regs c).cs ∧ r.esp ≠ .kernel r.sp then
        some (s.setCtl c ⟨r, s.page (s.thread c)⟩)
      else none
  | .code c r p =>
      if isUser (s.regs c).cs = false ∧ s.Keeps (s.thread c) r p then some (s.setCtl c ⟨r, p⟩)
      else none
  | .trap c n err =>
      if n < 256 ∧ (isUser (s.regs c).cs ∨ 19 ≤ (s.regs c).sp) then
        some ((s.setCtl c (exec (place (s.thread c)) (vector S n)
          ((s.ctl c).hardwareTrap n err))).setActs (s.thread c)
            (s.interrupted S place c n err :: s.acts (s.thread c)))
      else none
  | .ret c =>
      match s.acts (s.thread c) with
      | [] => none
      | a :: rest =>
          if isUser (s.regs c).cs = false ∧ (s.regs c).sp + a.stack.length = 1024 then
            let x := (s.ctl c).ret
            (returnTo S x.regs.eip).map fun code =>
              (s.setCtl c (exec (place (s.thread c)) code x).iret).setActs (s.thread c) rest
          else none
  | .swtch c u eax edx =>
      match s.status u with
      | .waiting i _ =>
          if isUser (s.regs c).cs = false ∧ 4 ≤ (s.regs c).sp ∧
              (s.regs c).sp + (base (s.acts (s.thread c))).length < 1024 then
            some (s.switch place c u i eax edx)
          else none
      | _ => none
  | .setTf c eax eip esp =>
      match s.acts (s.thread c) with
      | [a] =>
          if isUser (s.regs c).cs = false ∧ isUser a.regs.cs then
            some ((s.setCtl c ⟨s.regs c, setFrame (s.page (s.thread c)) eax eip esp⟩).setActs
              (s.thread c)
              [{ a with regs := { a.regs with eax := eax, eip := eip, esp := .user esp } }])
          else none
      | _ => none
  | .fork c u p =>
      match s.acts (s.thread c), s.status u with
      | [a], .unused =>
          if isUser (s.regs c).cs = false ∧ isUser a.regs.cs then
            some (s.spawn S u (copyTf (stackPage S.toEntries p) (s.page (s.thread c)))
              (child S a))
          else none
      | _, _ => none
  | .userinit u p =>
      match s.status u with
      | .unused => some (s.spawn S u (userTf (stackPage S.toEntries p)) (first S))
      | _ => none
  | .reap u =>
      match s.status u with
      | .waiting _ _ =>
          some { s with status := update s.status u .unused, acts := update s.acts u [] }
      | _ => none

end State

end OsWork.Ports.TrapFrames

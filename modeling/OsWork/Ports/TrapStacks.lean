import OsWork.Ports.TrapFrames

/-!
# Kernel stacks as lists

The words in use of a kernel stack are a list.  What the instructions of `alltraps`,
`trapret` and `swtch` push on it and pop from it is stated for such lists.

## Main results

* `trap_shows` — what a trap leaves on the stack.
* `ret_shows` — what `trapret` and `iret` find there, for what a trap has left.
-/

namespace OsWork.Ports.TrapFrames

open OsWork.Ports.PageTables (Page Entry Entries stackPage copyTf userTf)
open OsWork.Ports.ProcTable (Word)
open OsWork.Verified.Transition
open Function (update)

/-! ## Stacks as lists -/

section Lists

variable {p p' : Page} {i : Nat} {w : Word} {x : Ctl} {l own ws : List Word} {a : Place}

theorem length_above : (above p i).length = 1024 - i := by
  unfold above
  rw [List.length_map, List.length_range']

theorem above_end (h : 1024 ≤ i) : above p i = [] := by
  apply List.eq_nil_of_length_eq_zero
  rw [length_above]
  omega

theorem above_cons (h : i < 1024) : above p i = p (Fin.ofNat 1024 i) :: above p (i + 1) := by
  unfold above
  rw [show 1024 - i = (1024 - (i + 1)) + 1 by omega, List.range'_succ, List.map_cons]

/-- The words below do not matter. -/
theorem above_congr (h : ∀ k : Entry, i ≤ k.val → p' k = p k) : above p' i = above p i := by
  unfold above
  refine List.map_congr_left fun k hk => h _ ?_
  rw [List.mem_range'_1] at hk
  rw [Fin.val_ofNat, Nat.mod_eq_of_lt (by omega)]
  exact hk.1

/-- The `n` words at the top of the stack. -/
theorem drop_above (n : Nat) : (above p i).drop n = above p (i + n) := by
  unfold above
  rw [← List.map_drop, List.drop_range', Nat.sub_sub]
  simp

/-- A CPU is in the kernel, and the words of its stack are these. -/
structure Shows (x : Ctl) (l : List Word) : Prop where
  esp : x.regs.esp = .kernel (1024 - l.length)
  room : l.length ≤ 1024
  words : above x.page (1024 - l.length) = l

/-- The registers, with `%esp` for the stack `l`. -/
def Regs.on (r : Regs) (l : List Word) : Regs := { r with esp := .kernel (1024 - l.length) }

theorem Shows.on (h : Shows x l) : x.regs.on l = x.regs := by
  unfold Regs.on
  rw [← h.esp]

theorem Shows.sp (h : Shows x l) : x.regs.sp = 1024 - l.length := by
  unfold Regs.sp
  rw [h.esp]

/-- What any CPU in the kernel shows. -/
theorem shows_above (hesp : x.regs.esp = .kernel i) (hi : i ≤ 1024) :
    Shows x (above x.page i) := by
  have hlen : 1024 - (above x.page i).length = i := by
    rw [length_above]
    omega
  refine ⟨by rw [hlen, hesp], ?_, by rw [hlen]⟩
  rw [length_above]
  omega

theorem Shows.push (h : Shows x l) (w : Word) (hl : l.length < 1024) :
    Shows (x.push w) (w :: l) ∧ (x.push w).regs = x.regs.on (w :: l) := by
  have hindex : x.regs.sp - 1 = 1024 - (w :: l).length := by
    rw [h.sp, List.length_cons]
    omega
  refine ⟨⟨by rw [← hindex]; rfl, by rw [List.length_cons]; omega, ?_⟩, ?_⟩
  · show above (update x.page _ w) _ = _
    rw [hindex, List.length_cons, above_cons (by omega), Function.update_self]
    congr 1
    rw [show 1024 - (l.length + 1) + 1 = 1024 - l.length by omega]
    refine (above_congr fun k hk => ?_).trans h.words
    refine Function.update_of_ne ?_ _ _
    rintro rfl
    rw [Fin.val_ofNat, Nat.mod_eq_of_lt (by omega)] at hk
    omega
  · unfold Regs.on
    rw [← hindex]
    rfl

theorem Shows.pushAll (ws : List Word) : ∀ {x : Ctl}, Shows x l → l.length + ws.length ≤ 1024 →
    Shows (x.pushAll ws) (ws ++ l) ∧ (x.pushAll ws).regs = x.regs.on (ws ++ l) := by
  induction ws with
  | nil => exact fun {x} h _ => ⟨h, h.on.symm⟩
  | cons w ws ih =>
      intro x h hl
      rw [List.length_cons] at hl
      obtain ⟨hrest, hregs⟩ := ih h (by omega)
      obtain ⟨hpush, hregs'⟩ := hrest.push w (by rw [List.length_append]; omega)
      refine ⟨hpush, hregs'.trans ?_⟩
      rw [hregs]
      rfl

/-- What the word is, and what is left when it is taken. -/
theorem Shows.pop (h : Shows x (w :: l)) : x.top = w ∧ Shows (x.drop 1) l := by
  have hroom := h.room
  rw [List.length_cons] at hroom
  have hwords := h.words
  rw [List.length_cons, above_cons (by omega)] at hwords
  obtain ⟨htop, hrest⟩ := List.cons.inj hwords
  have hindex : 1024 - (l.length + 1) + 1 = 1024 - l.length := by omega
  rw [hindex] at hrest
  refine ⟨?_, ?_, by omega, hrest⟩
  · unfold Ctl.top
    rw [h.sp, List.length_cons]
    exact htop
  · show Esp.kernel (x.regs.sp + 1) = _
    rw [h.sp, List.length_cons, hindex]

/-- The stack pointer goes up. -/
theorem Shows.drop (n : Nat) (h : Shows x l) (hn : n ≤ l.length) :
    Shows (x.drop n) (l.drop n) ∧ (x.drop n).regs = x.regs.on (l.drop n) := by
  have hroom := h.room
  have hindex : 1024 - (l.drop n).length = 1024 - l.length + n := by
    rw [List.length_drop]
    omega
  refine ⟨⟨?_, by rw [List.length_drop]; omega, ?_⟩, ?_⟩
  · show Esp.kernel (x.regs.sp + n) = _
    rw [h.sp, hindex]
  · rw [hindex, ← drop_above]
    exact congrArg (List.drop n) h.words
  · unfold Regs.on
    rw [hindex, ← h.sp]
    rfl

/-- Assignments of the words to registers. -/
def applyAll : List (Word → Regs → Regs) → List Word → Regs → Regs
  | f :: fs, w :: ws, r => applyAll fs ws (f w r)
  | _, _, r => r

/-- No assignment to `%esp`. -/
def Spares (f : Word → Regs → Regs) : Prop :=
  ∀ w r l, f w (r.on l) = (f w r).on l

theorem applyAll_on {fs : List (Word → Regs → Regs)} (hf : ∀ f ∈ fs, Spares f) :
    ∀ {ws : List Word} {r : Regs}, applyAll fs ws (r.on l) = (applyAll fs ws r).on l := by
  induction fs with
  | nil =>
      intro ws r
      rfl
  | cons f fs ih =>
      intro ws r
      cases ws with
      | nil => rfl
      | cons w ws =>
          show applyAll fs ws (f w (r.on l)) = _
          rw [hf f List.mem_cons_self]
          exact ih fun g hg => hf g (List.mem_cons_of_mem f hg)

theorem Shows.pops {fs : List (Word → Regs → Regs)} (hf : ∀ f ∈ fs, Spares f) :
    ∀ {ws : List Word} {x : Ctl}, Shows x (ws ++ l) → ws.length = fs.length →
      Shows (Ctl.pops fs x) l ∧ (Ctl.pops fs x).regs = (applyAll fs ws x.regs).on l := by
  induction fs with
  | nil =>
      intro ws x h hlen
      obtain rfl := List.eq_nil_of_length_eq_zero hlen
      exact ⟨h, h.on.symm⟩
  | cons f fs ih =>
      intro ws x h hlen
      cases ws with
      | nil => cases hlen
      | cons w ws =>
          obtain ⟨htop, hdrop⟩ := Shows.pop (l := ws ++ l) h
          have hspares := hf f List.mem_cons_self
          have hregs : f w (x.drop 1).regs = (f w x.regs).on (ws ++ l) := by
            rw [← hspares, ← hdrop.on]
            rfl
          have hset : Shows ((x.drop 1).setRegs (f x.top)) (ws ++ l) := by
            refine ⟨?_, hdrop.room, hdrop.words⟩
            show (f x.top (x.drop 1).regs).esp = _
            rw [htop, hregs]
            rfl
          obtain ⟨hrest, hregs'⟩ := ih (fun g hg => hf g (List.mem_cons_of_mem f hg)) hset
            (by simpa using hlen)
          refine ⟨hrest, hregs'.trans ?_⟩
          show (applyAll fs ws (f x.top (x.drop 1).regs)).on l = (applyAll fs ws (f w x.regs)).on l
          rw [htop, hregs, applyAll_on fun g hg => hf g (List.mem_cons_of_mem f hg)]
          rfl

/-! ### Code on lists -/

/-- How many words the instruction pushes, -/
def Instr.pushes : Instr → Nat
  | .pushl _ | .pushReg _ | .pushSeg _ | .pushEsp | .call _ => 1
  | .pushal => 8
  | .popReg _ | .popSeg _ | .popal | .movwAx _ | .movwSeg _ | .addlEsp _ => 0

/-- and takes. -/
def Instr.pops : Instr → Nat
  | .popReg _ | .popSeg _ => 1
  | .popal => 8
  | .addlEsp n => n
  | .pushl _ | .pushReg _ | .pushSeg _ | .pushEsp | .call _ | .pushal | .movwAx _ | .movwSeg _ => 0

/-- Words are put on the list. -/
def pushed (ws : List Word) (y : Regs × List Word) : Regs × List Word :=
  (y.1.on (ws ++ y.2), ws ++ y.2)

/-- Words are taken from the list, and assigned to registers. -/
def popped (fs : List (Word → Regs → Regs)) (y : Regs × List Word) : Regs × List Word :=
  ((applyAll fs (y.2.take fs.length) y.1).on (y.2.drop fs.length), y.2.drop fs.length)

/-- The words that a piece of code pushes. -/
def space : List Instr → Nat
  | [] => 0
  | i :: code => i.pushes + space code

/-- What the instruction does to the registers and the words of the stack. -/
def Instr.run (a : Place) (y : Regs × List Word) : Instr → Regs × List Word
  | .pushl w => pushed [w] y
  | .pushReg r => pushed [y.1.get r] y
  | .pushSeg s => pushed [(y.1.getSeg s).word] y
  | .pushal => pushed (pushalWords a y.1) y
  | .pushEsp => pushed [a y.1.sp] y
  | .call next => pushed [next] y
  | .popReg r => popped [fun w regs => regs.set w r] y
  | .popSeg s => popped [fun w regs => regs.setSeg (w.setWidth 16) s] y
  | .popal => popped popalRegs y
  | .movwAx w => ({ y.1 with eax := (y.1.eax &&& 0xFFFF0000) ||| w.word }, y.2)
  | .movwSeg s => (y.1.setSeg (y.1.eax.setWidth 16) s, y.2)
  | .addlEsp n => (y.1.on (y.2.drop n), y.2.drop n)

def run (a : Place) (code : List Instr) (y : Regs × List Word) : Regs × List Word :=
  code.foldl (Instr.run a) y

/-- The code finds the words that it takes on a stack of `n` words. -/
def Finds : List Instr → Nat → Prop
  | [], _ => True
  | i :: code, n => i.pops ≤ n ∧ Finds code (n - i.pops + i.pushes)

theorem spares_setReg (r : Reg) : Spares fun w regs => regs.set w r := by
  intro w regs l
  cases r <;> rfl

theorem spares_setSeg (s : SegReg) : Spares fun w regs => regs.setSeg (w.setWidth 16) s := by
  intro w regs l
  cases s <;> rfl

theorem spares_popal : ∀ f ∈ popalRegs, Spares f := by
  intro f hf w r l
  simp only [popalRegs, List.mem_cons, List.not_mem_nil, or_false] at hf
  rcases hf with rfl | rfl | rfl | rfl | rfl | rfl | rfl | rfl <;> rfl

theorem Shows.popped {fs : List (Word → Regs → Regs)} (h : Shows x l)
    (hf : ∀ f ∈ fs, Spares f) (hlen : fs.length ≤ l.length) :
    Shows (Ctl.pops fs x) (TrapFrames.popped fs (x.regs, l)).2 ∧
      (Ctl.pops fs x).regs = (TrapFrames.popped fs (x.regs, l)).1 := by
  have hsplit : Shows x (l.take fs.length ++ l.drop fs.length) := by
    rw [List.take_append_drop]
    exact h
  exact hsplit.pops hf (by rw [List.length_take, Nat.min_eq_left hlen])

/-- An instruction does to a CPU what it does to the list. -/
theorem Instr.exec_run (h : Shows x l) (i : Instr) (hroom : l.length + i.pushes ≤ 1024)
    (hpops : i.pops ≤ l.length) :
    Shows (i.exec a x) (i.run a (x.regs, l)).2 ∧ (i.exec a x).regs = (i.run a (x.regs, l)).1 := by
  cases i with
  | pushl w => exact h.push w hroom
  | pushReg r => exact h.push _ hroom
  | pushSeg s => exact h.push _ hroom
  | pushal => exact h.pushAll (pushalWords a x.regs) hroom
  | pushEsp => exact h.push _ hroom
  | call next => exact h.push next hroom
  | popReg r => exact h.popped (by simpa using spares_setReg r) hpops
  | popSeg s => exact h.popped (by simpa using spares_setSeg s) hpops
  | popal => exact h.popped spares_popal hpops
  | movwAx w => exact ⟨⟨h.esp, h.room, h.words⟩, rfl⟩
  | movwSeg s =>
      refine ⟨⟨Eq.trans ?_ h.esp, h.room, h.words⟩, rfl⟩
      cases s <;> rfl
  | addlEsp n => exact h.drop n hpops

/-- So does a piece of code. -/
theorem exec_run (code : List Instr) : ∀ {x : Ctl} {l : List Word}, Shows x l →
    l.length + space code ≤ 1024 → Finds code l.length →
    Shows (exec a code x) (run a code (x.regs, l)).2 ∧
      (exec a code x).regs = (run a code (x.regs, l)).1 := by
  induction code with
  | nil => exact fun h _ _ => ⟨h, rfl⟩
  | cons i code ih =>
      intro x l h hroom hfinds
      unfold space at hroom
      obtain ⟨hpops, hrest⟩ := hfinds
      obtain ⟨hone, hregs⟩ := i.exec_run (a := a) h (by omega) hpops
      have hlen : (i.run a (x.regs, l)).2.length = l.length - i.pops + i.pushes := by
        cases i <;>
          simp [Instr.run, Instr.pops, Instr.pushes, TrapFrames.pushed, TrapFrames.popped,
            pushalWords, popalRegs]
      obtain ⟨hall, hregs'⟩ := ih hone (by omega) (by rw [hlen]; exact hrest)
      rw [hregs] at hall hregs'
      exact ⟨hall, hregs'⟩

/-! ### The pieces of assembly -/

theorem hasErrorCode_iff (n : Nat) :
    hasErrorCode n = true ↔ n = 8 ∨ 10 ≤ n ∧ n ≤ 14 ∨ n = 17 := by
  simp only [hasErrorCode, List.contains_iff_mem, List.mem_cons, List.not_mem_nil, or_false]
  omega

/-- `vectors.S` makes up for the error code that the processor has not pushed. -/
theorem run_vector (S : Symbols) (r r' : Regs) (n : Nat) (err : Word) (l : List Word) :
    run a (vector S n) (r'.on (hardwareWords r n err ++ l), hardwareWords r n err ++ l) =
      run a (alltraps S) (r'.on (trapWords r n err ++ l), trapWords r n err ++ l) := by
  by_cases hn : hasErrorCode n = true
  · have hcond := (hasErrorCode_iff n).mp hn
    unfold vector
    rw [if_pos hcond]
    simp [run, Instr.run, pushed, hardwareWords, trapWords, hn, Regs.on]
  · have hcond := mt (hasErrorCode_iff n).mpr hn
    unfold vector
    rw [if_neg hcond]
    simp [run, Instr.run, pushed, hardwareWords, trapWords, hn, Regs.on]

/-- `alltraps` makes a trap frame of the registers, and calls `trap` with its address. -/
theorem run_alltraps (S : Symbols) (r : Regs) (l : List Word) :
    (run a (alltraps S) (r.on l, l)).2 =
        [S.afterTrap, a (1024 - (l.length + 12)), r.edi, r.esi, r.ebp, a (1024 - (l.length + 4)),
          r.ebx, r.edx, r.ecx, r.eax, r.gs.word, r.fs.word, r.es.word, r.ds.word] ++ l ∧
      (run a (alltraps S) (r.on l, l)).1.cs = r.cs ∧
      (run a (alltraps S) (r.on l, l)).1.ss = r.ss := by
  simp [run, alltraps, Instr.run, pushed, pushalWords, Regs.on, Regs.getSeg, Regs.setSeg, Regs.sp]

theorem finds_vector (S : Symbols) (n k : Nat) : Finds (vector S n) k := by
  unfold vector
  split <;> simp [Finds, alltraps, Instr.pops]

theorem room_vector (S : Symbols) (r : Regs) (n : Nat) (err : Word) (l : List Word) :
    (hardwareWords r n err ++ l).length + space (vector S n) =
      (trapWords r n err ++ l).length + 14 := by
  by_cases hn : hasErrorCode n = true
  · have hcond := (hasErrorCode_iff n).mp hn
    unfold vector
    rw [if_pos hcond]
    simp [hardwareWords, trapWords, hn, alltraps, space, Instr.pushes]
  · have hcond := mt (hasErrorCode_iff n).mpr hn
    unfold vector
    rw [if_neg hcond]
    simp [hardwareWords, trapWords, hn, alltraps, space, Instr.pushes]

/-- From the trap to the call of `trap`. -/
theorem trap_shows (S : Symbols) (n : Nat) (err : Word)
    (h : Shows { x with regs := x.regs.onKernelStack } l)
    (hroom : (trapWords x.regs n err ++ l).length + 14 ≤ 1024) :
    Shows (exec a (vector S n) (x.hardwareTrap n err))
        ([S.afterTrap, a (1024 - ((trapWords x.regs n err ++ l).length + 12)), x.regs.edi,
          x.regs.esi, x.regs.ebp, a (1024 - ((trapWords x.regs n err ++ l).length + 4)),
          x.regs.ebx, x.regs.edx, x.regs.ecx, x.regs.eax, x.regs.gs.word, x.regs.fs.word,
          x.regs.es.word, x.regs.ds.word] ++ (trapWords x.regs n err ++ l)) ∧
      (exec a (vector S n) (x.hardwareTrap n err)).regs.cs = kernelCs ∧
      (exec a (vector S n) (x.hardwareTrap n err)).regs.ss = x.regs.onKernelStack.ss := by
  have hspace := room_vector S x.regs n err l
  obtain ⟨hpush, hregs⟩ := h.pushAll (hardwareWords x.regs n err) (by
    rw [List.length_append] at hspace
    omega)
  have hset : Shows (x.hardwareTrap n err) (hardwareWords x.regs n err ++ l) :=
    ⟨hpush.esp, hpush.room, hpush.words⟩
  have hregs' : (x.hardwareTrap n err).regs =
      Regs.on { x.regs.onKernelStack with
        cs := kernelCs
        eflags := if n = T_SYSCALL then x.regs.onKernelStack.eflags
          else x.regs.onKernelStack.eflags &&& ~~~ FL_IF }
        (hardwareWords x.regs n err ++ l) := by
    unfold Ctl.hardwareTrap Ctl.setRegs
    rw [hregs]
    rfl
  obtain ⟨hshows, hfinal⟩ := exec_run (a := a) (vector S n) hset (by omega) (finds_vector S n _)
  rw [hregs', run_vector] at hshows hfinal
  rw [(run_alltraps S _ _).1] at hshows
  refine ⟨?_, ?_, ?_⟩
  · have hsame : ∀ r : Regs, r.onKernelStack.edi = r.edi ∧ r.onKernelStack.esi = r.esi ∧
        r.onKernelStack.ebp = r.ebp ∧ r.onKernelStack.ebx = r.ebx ∧
        r.onKernelStack.edx = r.edx ∧ r.onKernelStack.ecx = r.ecx ∧
        r.onKernelStack.eax = r.eax ∧ r.onKernelStack.gs = r.gs ∧ r.onKernelStack.fs = r.fs ∧
        r.onKernelStack.es = r.es ∧ r.onKernelStack.ds = r.ds := by
      intro r
      unfold Regs.onKernelStack
      split <;> simp
    obtain ⟨h₁, h₂, h₃, h₄, h₅, h₆, h₇, h₈, h₉, h₁₀, h₁₁⟩ := hsame x.regs
    simpa only [h₁, h₂, h₃, h₄, h₅, h₆, h₇, h₈, h₉, h₁₀, h₁₁] using hshows
  · rw [hfinal, (run_alltraps S _ _).2.1]
  · rw [hfinal, (run_alltraps S _ _).2.2]

/-! ### The way back -/

/-- The frame of `a`, popped by `trapret` and `iret`. -/
theorem run_trapret (i : Interrupted) (r : Regs) (w₁ w₂ : Word) :
    run a trapret (r, i.regs.edi :: i.regs.esi :: i.regs.ebp :: i.oesp :: i.regs.ebx ::
        i.regs.edx :: i.regs.ecx :: i.regs.eax :: i.regs.gs.word :: i.regs.fs.word ::
        i.regs.es.word :: i.regs.ds.word :: w₁ :: w₂ :: l) =
      (Regs.on { r with
        eax := i.regs.eax, ecx := i.regs.ecx, edx := i.regs.edx, ebx := i.regs.ebx
        ebp := i.regs.ebp, esi := i.regs.esi, edi := i.regs.edi, ds := i.regs.ds
        es := i.regs.es, fs := i.regs.fs, gs := i.regs.gs } l, l) := by
  simp [run, trapret, Instr.run, popped, popalRegs, applyAll, Regs.on, Regs.setSeg, Seg.word]

/-- The interrupted code is in user space, or on the kernel stack. -/
structure Interrupted.Ok (S : Symbols) (i : Interrupted) : Prop where
  call : i.call = [S.trapret] ∨ ∃ tf, i.call = [S.afterTrap, tf]
  user : isUser i.regs.cs = true → (∃ w, i.regs.esp = .user w) ∧ i.words = []
  kernel : isUser i.regs.cs = false → i.regs.esp = .kernel (1024 - i.words.length) ∧
    i.regs.cs = kernelCs ∧ i.regs.ss = kernelDs

theorem Shows.iretPops {eip cs eflags : Word} (h : Shows x (eip :: cs :: eflags :: l)) :
    Shows (Ctl.pops iretPops x) l ∧ (Ctl.pops TrapFrames.iretPops x).regs =
      Regs.on { x.regs with eip := eip, cs := cs.setWidth 16, eflags := eflags } l := by
  have hwords : Shows x ([eip, cs, eflags] ++ l) := h
  refine Shows.pops ?_ hwords rfl
  intro f hf w r l
  simp only [TrapFrames.iretPops, List.mem_cons, List.not_mem_nil, or_false] at hf
  rcases hf with rfl | rfl | rfl <;> rfl

/-- `iret` in the kernel. -/
theorem Shows.iret_kernel {eip cs eflags : Word} (h : Shows x (eip :: cs :: eflags :: l))
    (hcs : isUser (cs.setWidth 16) = false) :
    Shows x.iret l ∧ x.iret.regs =
      Regs.on { x.regs with eip := eip, cs := cs.setWidth 16, eflags := eflags } l := by
  obtain ⟨hshows, hregs⟩ := h.iretPops
  have hsame : x.iret = Ctl.pops TrapFrames.iretPops x := by
    refine if_neg ?_
    show ¬ isUser (Ctl.pops TrapFrames.iretPops x).regs.cs = true
    rw [hregs]
    exact Bool.eq_false_iff.mp hcs
  rw [hsame]
  exact ⟨hshows, hregs⟩

/-- `iret` to user space. -/
theorem Shows.iret_user {eip cs eflags esp ss : Word}
    (h : Shows x (eip :: cs :: eflags :: esp :: ss :: l))
    (hcs : isUser (cs.setWidth 16) = true) :
    x.iret.regs = { x.regs with
      eip := eip, cs := cs.setWidth 16, eflags := eflags, ss := ss.setWidth 16
      esp := .user esp } := by
  obtain ⟨hshows, hregs⟩ := h.iretPops
  have hsame : x.iret = (Ctl.pops iretUserPops (Ctl.pops TrapFrames.iretPops x)).setRegs
      fun r => { r with esp := .user (Ctl.pops TrapFrames.iretPops x).top } := by
    refine if_pos ?_
    show isUser (Ctl.pops TrapFrames.iretPops x).regs.cs = true
    rw [hregs]
    exact hcs
  have hspares : ∀ f ∈ iretUserPops, Spares f := by
    intro f hf w r l
    simp only [iretUserPops, List.mem_cons, List.not_mem_nil, or_false] at hf
    rcases hf with rfl | rfl <;> rfl
  have hwords : Shows (Ctl.pops TrapFrames.iretPops x) ([esp, ss] ++ l) := hshows
  obtain ⟨-, hlast⟩ := Shows.pops hspares hwords rfl
  rw [hsame]
  unfold Ctl.setRegs
  rw [hlast, hregs, hshows.pop.1]
  rfl

theorem Seg.setWidth_word (s : Seg) : s.word.setWidth 16 = s := by
  simp [Seg.word]

/-- The frame is popped, and the interrupted code goes on with its registers and its words. -/
theorem trapret_shows (S : Symbols) (i : Interrupted) (hi : i.Ok S) (h : Shows x i.frame)
    (hss : x.regs.ss = kernelDs) :
    (exec a trapret x).iret.regs = i.regs ∧
      (isUser i.regs.cs = false → Shows (exec a trapret x).iret i.words) := by
  have hfinds : Finds trapret i.frame.length := by
    simp [Finds, trapret, Instr.pops, Instr.pushes, Interrupted.frame]
  obtain ⟨hshows, hregs⟩ := exec_run (a := a) trapret h h.room hfinds
  unfold Interrupted.frame at hshows hregs
  simp only [List.cons_append, List.nil_append] at hshows hregs
  rw [run_trapret] at hshows hregs
  cases hu : isUser i.regs.cs with
  | false =>
      obtain ⟨hesp, -, hds⟩ := hi.kernel hu
      rw [hesp] at hshows hregs
      have hback := hshows.iret_kernel (by rwa [Seg.setWidth_word])
      refine ⟨?_, fun _ => hback.1⟩
      rw [hback.2, hregs, Seg.setWidth_word]
      ext <;> simp [Regs.on, hss, hesp, hds]
  | true =>
      obtain ⟨⟨w, hesp⟩, -⟩ := hi.user hu
      rw [hesp] at hshows hregs
      have hback := Shows.iret_user (l := []) hshows (by rwa [Seg.setWidth_word])
      refine ⟨?_, fun hfalse => by cases hfalse⟩
      rw [hback, hregs, Seg.setWidth_word, Seg.setWidth_word]
      ext <;> simp [Regs.on, hesp]

theorem Shows.ret (h : Shows x (w :: l)) :
    Shows x.ret l ∧ x.ret.regs = Regs.on { x.regs with eip := w } l := by
  have hwords : Shows x ([w] ++ l) := h
  refine Shows.pops ?_ hwords rfl
  intro f hf w r l
  rw [List.mem_singleton.mp hf]
  rfl

/-- The C code returns. -/
theorem ret_shows (S : Symbols) (i : Interrupted) (hi : i.Ok S) (h : Shows x i.stack)
    (hss : x.regs.ss = kernelDs) :
    ∃ code, returnTo S x.ret.regs.eip = some code ∧ (exec a code x.ret).iret.regs = i.regs ∧
      (isUser i.regs.cs = false → Shows (exec a code x.ret).iret i.words) := by
  unfold Interrupted.stack at h
  rcases hi.call with hcall | ⟨tf, hcall⟩
  · rw [hcall] at h
    obtain ⟨hshows, hregs⟩ := Shows.ret h
    have hcode : returnTo S x.ret.regs.eip = some trapret := by
      rw [hregs]
      exact (if_neg fun heq => S.apart heq.symm).trans (if_pos rfl)
    exact ⟨trapret, hcode, trapret_shows S i hi hshows (by rw [hregs]; exact hss)⟩
  · rw [hcall] at h
    obtain ⟨hshows, hregs⟩ := Shows.ret (l := tf :: i.frame) h
    have hcode : returnTo S x.ret.regs.eip = some (.addlEsp 1 :: trapret) := by
      rw [hregs]
      exact if_pos rfl
    have hss' : (x.ret.drop 1).regs.ss = kernelDs := by
      show x.ret.regs.ss = kernelDs
      rw [hregs]
      exact hss
    refine ⟨.addlEsp 1 :: trapret, hcode, ?_⟩
    unfold exec
    rw [List.foldl_cons]
    exact trapret_shows S i hi hshows.pop.2 hss'

/-- `swtch` until the stacks are switched. -/
theorem save_shows (h : Shows x l) (hroom : l.length + 4 ≤ 1024) :
    Shows (exec a swtchSave x) ([x.regs.edi, x.regs.esi, x.regs.ebx, x.regs.ebp] ++ l) ∧
      (exec a swtchSave x).regs =
        x.regs.on ([x.regs.edi, x.regs.esi, x.regs.ebx, x.regs.ebp] ++ l) := by
  have hfinds : Finds swtchSave l.length := by simp [Finds, swtchSave, Instr.pops]
  exact exec_run swtchSave h hroom hfinds

/-- `swtch` after that. -/
theorem load_shows (p : Paused) (h : Shows x p.stack) :
    Shows (exec a swtchLoad x).ret p.words ∧
      (exec a swtchLoad x).ret.regs = Regs.on { x.regs with
        ebp := p.ebp, ebx := p.ebx, esi := p.esi, edi := p.edi, eip := p.eip } p.words := by
  have hfinds : Finds swtchLoad p.stack.length := by
    simp [Finds, swtchLoad, Instr.pops, Instr.pushes, Paused.stack]
  obtain ⟨hshows, hregs⟩ := exec_run (a := a) swtchLoad h h.room hfinds
  have hrun : run a swtchLoad (x.regs, p.stack) = (Regs.on { x.regs with
      ebp := p.ebp, ebx := p.ebx, esi := p.esi, edi := p.edi } (p.eip :: p.words),
      p.eip :: p.words) := by
    simp [run, swtchLoad, Instr.run, popped, applyAll, Regs.on, Regs.set, Paused.stack]
  rw [hrun] at hshows hregs
  obtain ⟨hback, hregs'⟩ := hshows.ret
  refine ⟨hback, hregs'.trans ?_⟩
  rw [hregs]
  rfl

/-- The words of the frames are where the frames are. -/
theorem Shows.above_right (h : Shows x (own ++ ws)) : above x.page (1024 - ws.length) = ws := by
  have hroom := h.room
  have hdrop := congrArg (List.drop own.length) h.words
  rw [drop_above, List.drop_left, List.length_append] at hdrop
  rw [List.length_append] at hroom
  rwa [show 1024 - (own.length + ws.length) + own.length = 1024 - ws.length by omega] at hdrop

/-- What is above an index up to the words at the end. -/
theorem above_append (hi : i + ws.length ≤ 1024) (h : above p (1024 - ws.length) = ws) :
    ∃ own, above p i = own ++ ws := by
  refine ⟨(above p i).take (1024 - ws.length - i), ?_⟩
  have hdrop : (above p i).drop (1024 - ws.length - i) = ws := by
    rw [drop_above, show i + (1024 - ws.length - i) = 1024 - ws.length by omega, h]
  have hall := List.take_append_drop (1024 - ws.length - i) (above p i)
  rw [hdrop] at hall
  exact hall.symm

theorem take_above_congr {n : Nat} (h : ∀ k : Entry, k.val < i + n → p' k = p k) :
    (above p' i).take n = (above p i).take n := by
  refine List.ext_getElem (by simp [length_above]) fun j hj hj' => ?_
  rw [List.length_take, length_above] at hj
  simp only [above, List.getElem_take, List.getElem_map, List.getElem_range', Nat.one_mul]
  refine h _ ?_
  rw [Fin.val_ofNat, Nat.mod_eq_of_lt (by omega)]
  omega

/-- The words of the frames are written to. -/
theorem Shows.patch {ws' : List Word} (h : Shows x (own ++ ws)) (hlen : ws'.length = ws.length)
    (hlow : ∀ k : Entry, k.val < 1024 - ws.length → p' k = x.page k)
    (hnew : above p' (1024 - ws.length) = ws') : Shows { x with page := p' } (own ++ ws') := by
  have hsame : (own ++ ws').length = (own ++ ws).length := by
    rw [List.length_append, List.length_append, hlen]
  have hroom := h.room
  rw [List.length_append] at hroom
  have hindex : 1024 - (own ++ ws).length + own.length = 1024 - ws.length := by
    rw [List.length_append]
    omega
  have hown : (above p' (1024 - (own ++ ws).length)).take own.length = own := by
    rw [take_above_congr (p := x.page) fun k hk => hlow k (by omega), h.words, List.take_left]
  refine ⟨by rw [hsame]; exact h.esp, by rw [hsame]; exact h.room, ?_⟩
  rw [hsame, ← List.take_append_drop own.length (above p' _), drop_above, hown, hindex, hnew]

/-! ### Trap frames -/

/-- The words of the trap frame at the top of a stack. -/
theorem above_frame (p : Page) : above p 1005 =
    [p 1005, p 1006, p 1007, p 1008, p 1009, p 1010, p 1011, p 1012, p 1013, p 1014, p 1015,
      p 1016, p 1017, p 1018, p 1019, p 1020, p 1021, p 1022, p 1023] := rfl

/-- What `allocproc` leaves room for, and what it writes. -/
theorem above_context (p : Page) : above p 999 =
    [p 999, p 1000, p 1001, p 1002, p 1003, p 1004] ++ above p 1005 := rfl

theorem Interrupted.length_frame {i : Interrupted} (hesp : i.regs.esp = .user w) :
    i.frame.length = 19 := by
  simp [Interrupted.frame, hesp]

/-- `%eax`, `%eip` and `%esp` in the frame are changed, and nothing else. -/
theorem setFrame_frame {i : Interrupted} (hesp : i.regs.esp = .user w) (h : above p 1005 = i.frame)
    (eax eip esp : Word) :
    above (setFrame p eax eip esp) 1005 = Interrupted.frame
      { i with regs := { i.regs with eax := eax, eip := eip, esp := .user esp } } := by
  rw [above_frame] at h ⊢
  simp only [Interrupted.frame, hesp, List.cons_append, List.nil_append, List.cons.injEq] at h ⊢
  simp [setFrame, h]

/-- `*np->tf = *curproc->tf`, and `%eax` is cleared. -/
theorem copyTf_frame (S : Symbols) {i : Interrupted} (hesp : i.regs.esp = .user w)
    (h : above p' 1005 = i.frame) :
    above (copyTf p p') 1005 = (State.child S i).frame := by
  rw [above_frame] at h ⊢
  simp only [State.child, Interrupted.frame, hesp, List.cons_append, List.nil_append,
    List.cons.injEq] at h ⊢
  simp [copyTf, h]

/-- What `userinit` writes to the trap frame. -/
theorem userTf_frame (S : Symbols) : above (userTf p) 1005 = (State.first S).frame := by
  rw [above_frame]
  rfl

end Lists

end OsWork.Ports.TrapFrames

import Mathlib.Data.List.GetD
import OsWork.Ports.ExecFiles
import OsWork.Ports.SyscallArgs

/-!
# The arguments of a new program

What `exec` leaves on the user stack, as a C program reads it: the number of arguments, the
array of pointers, and the strings.  The page below the stack is not accessible, so a
`copyout` of the loop either stays in the stack page or fails.

## Main results

* `Stack.push` — a `copyout` below the stack pointer that succeeds is in the stack page.
* `Stack.pushArgs` — the strings of `argv` are in the stack page, one below the other.
* `exec_arguments` — a new program sees its arguments.
-/

namespace OsWork.Ports.PageTables

open OsWork.Ports.ProcTable (Word)
open Function (update)

/-! ## Reading -/

namespace Mem

variable (m : Mem)

/-- The byte at a user address. -/
def userByte (d : Frame) (va : Nat) : Byte :=
  byteAt (m.ram (frameOf (m.pte d (va / PGSIZE)))) (va % PGSIZE)

/-- The `uint` at a user address. -/
def userWord (d : Frame) (va : Nat) : Nat :=
  (m.userByte d va).toNat + 256 * (m.userByte d (va + 1)).toNat +
    65536 * (m.userByte d (va + 2)).toNat + 16777216 * (m.userByte d (va + 3)).toNat

end Mem

/-- A program with the stack pointer `esp`, whose stack page ends at `top`, finds the arguments
`argv`: the word at `esp + 4` is their number, that at `esp + 8` the address `av` of an array
of pointers to them. -/
structure Arguments (m : Mem) (d : Frame) (esp top : Nat) (argv : List (List Byte)) : Prop where
  page : top % PGSIZE = 0 ∧ m.UserPage d (top / PGSIZE - 1)
  inside : PGSIZE ≤ top ∧ top ≤ esp + PGSIZE
  argc : m.userWord d (esp + 4) = argv.length
  found : ∃ (av : Nat) (ptr : Nat → Nat),
    m.userWord d (esp + 8) = av ∧
    (∀ i, i < argv.length → m.userWord d (av + 4 * i) = ptr i) ∧
    m.userWord d (av + 4 * argv.length) = 0 ∧
    (∀ i, i < argv.length → ∀ j, j ≤ (argv.getD i []).length →
      m.userByte d (ptr i + j) = (argv.getD i [] ++ [0]).getD j 0) ∧
    -- the pieces end below `top`, and no two of them overlap
    esp + 12 ≤ av ∧ av + 4 * (argv.length + 1) ≤ top ∧
    (∀ i, i < argv.length → av + 4 * (argv.length + 1) ≤ ptr i ∧
      ptr i + (argv.getD i []).length + 1 ≤ top) ∧
    (∀ i j, i < j → j < argv.length → ptr j + (argv.getD j []).length + 1 ≤ ptr i)

/-! ## `copyout` to the stack -/

/-- `top` is the end of a stack of one page, below which there is a page that the user
cannot access. -/
structure Stack (m : Mem) (d : Frame) (top : Nat) : Prop where
  whole : top % PGSIZE = 0
  low : 2 * PGSIZE ≤ top
  high : top < KERNBASE
  user : m.UserPage d (top / PGSIZE - 1)
  guard : ¬ m.UserPage d (top / PGSIZE - 2)
  kernel : ∀ a, 0x80000 ≤ a → a < 0x100000 → ¬ m.UserPage d a
  separate : m.Separate d

/-- The frame of the stack. -/
def stackFrame (m : Mem) (d : Frame) (top : Nat) : Frame := frameOf (m.pte d (top / PGSIZE - 1))

variable {L : Layout} {m m' : Mem} {d f : Frame} {top sp sp' va : Nat} {buf : List Byte}

/-- `copyout` succeeds on user pages only. -/
theorem Mem.Separate.copyLoopOk_user : ∀ (fuel va : Nat) (buf : List Byte) {m : Mem},
    m.Separate d → buf.length ≤ fuel → va < 0x100000000 →
    (Mem.copyLoopOk d fuel va buf m).2 = true →
    ∀ i, i < buf.length → m.UserPage d (pageOf va i) := by
  intro fuel
  induction fuel with
  | zero =>
      intro va buf m _ hfuel _ _ i hi
      omega
  | succ fuel ih =>
      intro va buf m hsep hfuel hva hok i hi
      have hne : buf ≠ [] := by
        rintro rfl
        exact absurd hi (Nat.not_lt_zero i)
      unfold Mem.copyLoopOk at hok
      rw [if_neg hne] at hok
      split at hok
      · rename_i f hu
        have huser : m.UserPage d (va / PGSIZE) := by
          by_contra hnot
          by_cases ht : m.HasTable d (va / PGSIZE)
          · rw [Mem.uva2ka_other hnot ht] at hu
            cases hu
          · rw [Mem.uva2ka_absent ht] at hu
            cases hu
        rw [Mem.uva2ka_user huser] at hu
        injection hu with hu
        injection hu with hf
        by_cases hfirst : i < PGSIZE - va % PGSIZE
        · rw [(pageOf_first hva hfirst).1]
          exact huser
        · have hlt : va / PGSIZE < 0x100000 := by
            unfold PGSIZE
            omega
          have hsame := hsep.write hlt huser (va % PGSIZE)
            (buf.take (min (PGSIZE - va % PGSIZE) buf.length))
          rw [← hf] at hok
          have hpos : 0 < PGSIZE - va % PGSIZE := by
            unfold PGSIZE
            omega
          have hmin : min (PGSIZE - va % PGSIZE) buf.length = PGSIZE - va % PGSIZE := by omega
          have hdrop : (buf.drop (min (PGSIZE - va % PGSIZE) buf.length)).length =
              buf.length - (PGSIZE - va % PGSIZE) := by
            rw [List.length_drop, hmin]
          have hrest := ih _ _ (hsame.separate hsep) (by omega) (Nat.mod_lt _ (by decide)) hok
            (i - (PGSIZE - va % PGSIZE)) (by omega)
          rw [hsame.user, (pageOf_rest va _).1, Nat.add_sub_cancel' (by omega)] at hrest
          exact hrest
      · cases hok

/-- A `copyout` in one page. -/
theorem Mem.copyoutOk_page (hbuf : buf ≠ []) (hu : m.UserPage d (va / PGSIZE))
    (hlen : va % PGSIZE + buf.length ≤ PGSIZE) :
    m.copyoutOk d va buf = (m.write (frameOf (m.pte d (va / PGSIZE))) (va % PGSIZE) buf, true) := by
  have hmin : min (PGSIZE - va % PGSIZE) buf.length = buf.length := by omega
  obtain ⟨n, hn⟩ : ∃ n, buf.length = n + 1 :=
    ⟨buf.length - 1, by have := List.length_pos_iff.mpr hbuf; omega⟩
  unfold Mem.copyoutOk
  rw [hn, Mem.copyLoopOk, if_neg hbuf, Mem.uva2ka_user hu]
  simp only [hmin, List.take_length, List.drop_length]
  cases n with
  | zero => rfl
  | succ n => rw [Mem.copyLoopOk, if_pos rfl]

section Push

variable (h : Stack m d top)

include h

theorem Stack.lt : top / PGSIZE - 1 < 0x100000 := by
  have hhigh := h.high
  unfold KERNBASE at hhigh
  unfold PGSIZE
  omega

/-- A store to the stack. -/
theorem Stack.write (o : Nat) (buf : List Byte) :
    Stack (m.write (stackFrame m d top) o buf) d top ∧
      stackFrame (m.write (stackFrame m d top) o buf) d top = stackFrame m d top := by
  have hsame : SameTables m (m.write (stackFrame m d top) o buf) d :=
    h.separate.write h.lt h.user o buf
  constructor
  · exact
      { whole := h.whole
        low := h.low
        high := h.high
        user := hsame.user.mpr h.user
        guard := fun hu => h.guard (hsame.user.mp hu)
        kernel := fun a hlow ha hu => h.kernel a hlow ha (hsame.user.mp hu)
        separate := hsame.separate h.separate }
  · exact congrArg frameOf (hsame.pte _)

/-- The page of an address of the stack. -/
theorem Stack.page (hlow : top ≤ va + PGSIZE) (hlt : va < top) :
    va / PGSIZE = top / PGSIZE - 1 := by
  have hwhole := h.whole
  unfold PGSIZE at *
  omega

/-- A `copyout` to the stack page succeeds. -/
theorem Stack.copyoutOk (hbuf : buf ≠ []) (hlow : top ≤ va + PGSIZE)
    (hend : va + buf.length ≤ top) :
    m.copyoutOk d va buf = (m.write (stackFrame m d top) (va % PGSIZE) buf, true) := by
  have hpos : 0 < buf.length := List.length_pos_iff.mpr hbuf
  have hpage := h.page hlow (by omega)
  have hwhole := h.whole
  have hrun : m.copyoutOk d va buf = _ := Mem.copyoutOk_page hbuf (by rw [hpage]; exact h.user)
    (by unfold PGSIZE at *; omega)
  rw [hpage] at hrun
  exact hrun

/-- A `copyout` just below the stack pointer that succeeds is in the stack page. -/
theorem Stack.push (hlow : top ≤ sp + PGSIZE) (hsp : sp ≤ top) (hbuf : buf ≠ [])
    (hlen : buf.length < KERNBASE) (hsp' : sp' = uintAdd sp (-buf.length) / 4 * 4)
    (hrun : m.copyoutOk d sp' buf = (m', true)) :
    top ≤ sp' + PGSIZE ∧ sp' + buf.length ≤ sp ∧ sp' % 4 = 0 ∧
      m' = m.write (stackFrame m d top) (sp' % PGSIZE) buf := by
  have hpos : 0 < buf.length := List.length_pos_iff.mpr hbuf
  have hwhole := h.whole
  have hbottom := h.low
  have hhigh := h.high
  have hlt : sp' < 0x100000000 := by
    have hadd := uintAdd_lt sp (-buf.length)
    omega
  have huser : ∀ i, i < buf.length → m.UserPage d (pageOf sp' i) := by
    apply h.separate.copyLoopOk_user buf.length sp' buf (Nat.le_refl _) hlt
    have hsnd := congrArg Prod.snd hrun
    exact hsnd
  unfold KERNBASE at hlen hhigh
  unfold PGSIZE at hlow hbottom hwhole
  by_cases hwrap : sp < buf.length
  · -- the address is one of the kernel
    have haddr : sp' = (0x100000000 + sp - buf.length) / 4 * 4 := by
      rw [hsp']
      unfold uintAdd
      omega
    have hkernel := huser 0 hpos
    have hpage : 0x80000 ≤ pageOf sp' 0 := by
      unfold pageOf PGSIZE
      omega
    exact absurd hkernel (h.kernel _ hpage (pageOf_lt sp' 0))
  have haddr : sp' = (sp - buf.length) / 4 * 4 := by
    rw [hsp']
    unfold uintAdd
    omega
  by_cases hguard : sp' + 4096 < top
  · -- the last byte that is not in the stack page is in the page below it
    obtain ⟨x, hx⟩ : ∃ x, x = min (sp' + buf.length - 1) (top - 4097) := ⟨_, rfl⟩
    have hbelow := huser (x - sp') (by omega)
    have hpage : pageOf sp' (x - sp') = top / PGSIZE - 2 := by
      unfold pageOf PGSIZE
      omega
    rw [hpage] at hbelow
    exact absurd hbelow h.guard
  have hrun' : m.copyoutOk d sp' buf = _ :=
    h.copyoutOk hbuf (by unfold PGSIZE; omega) (by omega)
  rw [hrun] at hrun'
  exact ⟨by unfold PGSIZE; omega, by omega, by omega, congrArg Prod.fst hrun'⟩

/-- The bytes of the stack after a store to it. -/
theorem Stack.userByte_write {va : Nat} (hlow : top ≤ sp' + PGSIZE) (hend : sp' + buf.length ≤ top)
    (hva : top ≤ va + PGSIZE) (hlt : va < top) :
    (m.write (stackFrame m d top) (sp' % PGSIZE) buf).userByte d va =
      if sp' ≤ va ∧ va < sp' + buf.length then buf.getD (va - sp') 0 else m.userByte d va := by
  have hframe : frameOf ((m.write (stackFrame m d top) (sp' % PGSIZE) buf).pte d (va / PGSIZE)) =
      stackFrame m d top := by
    rw [h.page hva hlt]
    exact (h.write (sp' % PGSIZE) buf).2
  have hold : m.userByte d va = byteAt (m.ram (stackFrame m d top)) (va % PGSIZE) := by
    unfold Mem.userByte
    rw [h.page hva hlt]
    rfl
  have hwhole := h.whole
  have hoff : va % PGSIZE < 4096 := Nat.mod_lt va (by decide)
  unfold Mem.userByte at hold ⊢
  rw [hframe, Mem.byteAt_write hoff, hold]
  unfold PGSIZE at *
  by_cases hin : sp' ≤ va ∧ va < sp' + buf.length
  · rw [if_pos hin, if_pos (by omega)]
    congr 1
    omega
  · rw [if_neg hin, if_neg (by omega)]

end Push

/-! ## The strings -/

/-- The strings are at the addresses `ptrs`, one below the other from `sp` down to `bot`. -/
def Strings (byte : Nat → Byte) : Nat → List (List Byte) → List Nat → Nat → Prop
  | sp, [], ptrs, bot => ptrs = [] ∧ bot = sp
  | sp, arg :: args, ptrs, bot =>
      ∃ p rest, ptrs = p :: rest ∧ p + arg.length + 1 ≤ sp ∧
        (∀ j, j ≤ arg.length → byte (p + j) = (arg ++ [0]).getD j 0) ∧
        Strings byte p args rest bot

section Strings

variable {byte byte' : Nat → Byte} {args : List (List Byte)} {ptrs : List Nat} {bot : Nat}

theorem Strings.bot_le (h : Strings byte sp args ptrs bot) : bot ≤ sp := by
  induction args generalizing sp ptrs with
  | nil => exact Nat.le_of_eq h.2
  | cons arg args ih =>
      obtain ⟨p, rest, -, hp, -, hrest⟩ := h
      have hle := ih hrest
      omega

theorem Strings.length_eq (h : Strings byte sp args ptrs bot) : ptrs.length = args.length := by
  induction args generalizing sp ptrs with
  | nil =>
      rw [h.1]
      rfl
  | cons arg args ih =>
      obtain ⟨p, rest, rfl, -, -, hrest⟩ := h
      rw [List.length_cons, List.length_cons, ih hrest]

/-- Every string takes a byte. -/
theorem Strings.count_le (h : Strings byte sp args ptrs bot) : bot + args.length ≤ sp := by
  induction args generalizing sp ptrs with
  | nil => exact Nat.le_of_eq h.2
  | cons arg args ih =>
      obtain ⟨p, rest, -, hp, -, hrest⟩ := h
      have hle := ih hrest
      rw [List.length_cons]
      omega

/-- Stores below `bot` do not matter. -/
theorem Strings.congr (h : Strings byte sp args ptrs bot)
    (hbyte : ∀ va, bot ≤ va → va < sp → byte' va = byte va) : Strings byte' sp args ptrs bot := by
  induction args generalizing sp ptrs with
  | nil => exact h
  | cons arg args ih =>
      obtain ⟨p, rest, heq, hp, hstr, hrest⟩ := h
      have hle := hrest.bot_le
      refine ⟨p, rest, heq, hp, ?_, ih hrest fun va hlow hlt => hbyte va hlow (by omega)⟩
      intro j hj
      rw [hbyte _ (by omega) (by omega)]
      exact hstr j hj

/-- The string `i`. -/
theorem Strings.get (h : Strings byte sp args ptrs bot) {i : Nat} (hi : i < args.length) :
    bot ≤ ptrs.getD i 0 ∧ ptrs.getD i 0 + (args.getD i []).length + 1 ≤ sp ∧
      ∀ j, j ≤ (args.getD i []).length →
        byte (ptrs.getD i 0 + j) = (args.getD i [] ++ [0]).getD j 0 := by
  induction args generalizing sp ptrs i with
  | nil => exact absurd hi (Nat.not_lt_zero i)
  | cons arg args ih =>
      obtain ⟨p, rest, rfl, hp, hstr, hrest⟩ := h
      cases i with
      | zero => exact ⟨hrest.bot_le, hp, hstr⟩
      | succ i =>
          obtain ⟨hlow, hhigh, hstr'⟩ := ih hrest (Nat.lt_of_succ_lt_succ hi)
          simp only [List.getD_cons_succ]
          exact ⟨hlow, by omega, hstr'⟩

/-- A later string is below an earlier one. -/
theorem Strings.below (h : Strings byte sp args ptrs bot) {i j : Nat} (hij : i < j)
    (hj : j < args.length) : ptrs.getD j 0 + (args.getD j []).length + 1 ≤ ptrs.getD i 0 := by
  induction args generalizing sp ptrs i j with
  | nil => exact absurd hj (Nat.not_lt_zero j)
  | cons arg args ih =>
      obtain ⟨p, rest, rfl, hp, hstr, hrest⟩ := h
      obtain ⟨j, rfl⟩ : ∃ k, j = k + 1 := ⟨j - 1, by omega⟩
      have hj' := Nat.lt_of_succ_lt_succ hj
      cases i with
      | zero => exact (hrest.get hj').2.1
      | succ i => exact ih hrest (Nat.lt_of_succ_lt_succ hij) hj'

end Strings

/-- The strings of `argv` are in the stack page, one below the other. -/
theorem Stack.pushArgs : ∀ (argv : List (List Byte)) (sp : Nat) (ustack : List Nat) {m m' : Mem}
    {bot : Nat} {us : List Nat}, Stack m d top → top ≤ sp + PGSIZE → sp ≤ top → sp % 4 = 0 →
    (∀ arg ∈ argv, arg.length + 1 < KERNBASE) →
    PageTables.pushArgs d argv sp ustack m = (m', some (bot, us)) →
    Stack m' d top ∧ top ≤ bot + PGSIZE ∧ bot % 4 = 0 ∧
      (∃ ptrs, us = ustack ++ ptrs ∧ Strings (m'.userByte d) sp argv ptrs bot) ∧
      ∀ va, sp ≤ va → va < top → m'.userByte d va = m.userByte d va := by
  intro argv
  induction argv with
  | nil =>
      intro sp ustack m m' bot us h hlow hsp halign _ hrun
      cases hrun
      exact ⟨h, hlow, halign, ⟨[], (List.append_nil _).symm, rfl, rfl⟩, fun _ _ _ => rfl⟩
  | cons arg args ih =>
      intro sp ustack m m' bot us h hlow hsp halign hlen hrun
      unfold PageTables.pushArgs at hrun
      by_cases hmax : MAXARG ≤ ustack.length
      · rw [if_pos hmax] at hrun
        cases hrun
      rw [if_neg hmax] at hrun
      obtain ⟨p, hp⟩ : ∃ p, p = uintAdd sp (-(arg.length + 1)) / 4 * 4 := ⟨_, rfl⟩
      simp only [← hp] at hrun
      cases hcopy : m.copyoutOk d p (arg ++ [0]) with
      | mk m₁ ok =>
          rw [hcopy] at hrun
          cases ok with
          | false => cases hrun
          | true =>
              have hsize : (arg ++ [0]).length = arg.length + 1 := List.length_append
              have hpush := h.push hlow hsp (by simp)
                (by rw [hsize]; exact hlen arg List.mem_cons_self)
                (by rw [hp, hsize]; rfl) hcopy
              obtain ⟨hplow, hpend, hpalign, hmem⟩ := hpush
              rw [hsize] at hpend
              have h₁ : Stack m₁ d top := by
                rw [hmem]
                exact (h.write _ _).1
              have hbyte : ∀ va, top ≤ va + PGSIZE → va < top → m₁.userByte d va =
                  if p ≤ va ∧ va < p + (arg ++ [0]).length then (arg ++ [0]).getD (va - p) 0
                  else m.userByte d va := by
                intro va hva hlt
                rw [hmem]
                exact h.userByte_write hplow (by omega) hva hlt
              obtain ⟨h', hbot, hbotalign, ⟨ptrs, hus, hstr⟩, hkeep⟩ :=
                ih p (ustack ++ [p]) h₁ hplow (by omega) hpalign
                  (fun a ha => hlen a (List.mem_cons_of_mem arg ha)) hrun
              refine ⟨h', hbot, hbotalign, ⟨p :: ptrs, ?_, p, ptrs, rfl, by omega, ?_, hstr⟩, ?_⟩
              · rw [hus, List.append_assoc, List.singleton_append]
              · intro j hj
                rw [hkeep _ (by omega) (by omega), hbyte _ (by omega) (by omega),
                  if_pos (by omega), Nat.add_sub_cancel_left]
              · intro va hva hlt
                rw [hkeep va (by omega) hlt, hbyte va (by omega) hlt, if_neg (by omega)]

/-! ## `ustack` -/

theorem length_wordBytes (w : Nat) : (wordBytes w).length = 4 := rfl

theorem length_words (ws : List Nat) : (ws.flatMap wordBytes).length = 4 * ws.length := by
  induction ws with
  | nil => rfl
  | cons w ws ih =>
      rw [List.flatMap_cons, List.length_append, ih, length_wordBytes, List.length_cons]
      omega

/-- The byte `r` of the word `k`. -/
theorem words_getD {ws : List Nat} {k r : Nat} (hk : k < ws.length) (hr : r < 4) :
    (ws.flatMap wordBytes).getD (4 * k + r) 0 = (wordBytes (ws.getD k 0)).getD r 0 := by
  induction ws generalizing k with
  | nil => exact absurd hk (Nat.not_lt_zero k)
  | cons w ws ih =>
      rw [List.flatMap_cons]
      cases k with
      | zero =>
          rw [Nat.mul_zero, Nat.zero_add]
          exact List.getD_append _ _ _ _ hr
      | succ k =>
          rw [List.getD_append_right _ _ _ _ (by rw [length_wordBytes]; omega), length_wordBytes,
            show 4 * (k + 1) + r - 4 = 4 * k + r by omega, List.getD_cons_succ]
          exact ih (Nat.lt_of_succ_lt_succ hk)

/-- A word is read back from its bytes. -/
theorem userWord_of_bytes {w : Nat} (hw : w < 0x100000000)
    (h : ∀ r, r < 4 → m.userByte d (va + r) = (wordBytes w).getD r 0) : m.userWord d va = w := by
  have h₀ : m.userByte d va = BitVec.ofNat 8 w := h 0 (by omega)
  have h₁ : m.userByte d (va + 1) = BitVec.ofNat 8 (w / 256) := h 1 (by omega)
  have h₂ : m.userByte d (va + 2) = BitVec.ofNat 8 (w / 65536) := h 2 (by omega)
  have h₃ : m.userByte d (va + 3) = BitVec.ofNat 8 (w / 16777216) := h 3 (by omega)
  unfold Mem.userWord
  rw [h₀, h₁, h₂, h₃, BitVec.toNat_ofNat, BitVec.toNat_ofNat, BitVec.toNat_ofNat,
    BitVec.toNat_ofNat]
  omega

theorem length_ustackOf (sp : Nat) (args : List Nat) :
    (ustackOf sp args).length = args.length + 4 := by
  unfold ustackOf
  simp

theorem ustackOf_getD {sp : Nat} {args : List Nat} {i : Nat} (hi : i < args.length) :
    (ustackOf sp args).getD (3 + i) 0 = args.getD i 0 := by
  have hcons : ustackOf sp args =
      [0xffffffff, args.length, uintAdd sp (-((args.length + 1) * 4))] ++ (args ++ [0]) :=
    List.append_assoc _ _ _
  rw [hcons, List.getD_append_right _ _ _ _ (Nat.le_add_right 3 i)]
  show (args ++ [0]).getD (3 + i - 3) 0 = _
  rw [Nat.add_sub_cancel_left, List.getD_append _ _ _ _ hi]

theorem ustackOf_last {sp : Nat} {args : List Nat} :
    (ustackOf sp args).getD (3 + args.length) 0 = 0 := by
  unfold ustackOf
  rw [List.getD_append_right _ _ _ _ (by simp; omega)]
  simp

/-- The strings and `ustack` on the stack are the arguments of the new program. -/
theorem Stack.pushStack (h : Stack m d top) {argv : List (List Byte)} {esp : Nat}
    (hlen : ∀ arg ∈ argv, arg.length + 1 < KERNBASE)
    (hrun : PageTables.pushStack d top argv m = (m', some esp)) :
    Stack m' d top ∧ Arguments m' d esp top argv := by
  have hhigh := h.high
  have hwhole := h.whole
  have hbottom := h.low
  unfold PageTables.pushStack at hrun
  cases hargs : PageTables.pushArgs d argv top [] m with
  | mk m₁ r =>
      rw [hargs] at hrun
      cases r with
      | none => cases hrun
      | some r =>
          obtain ⟨sp, us⟩ := r
          simp only at hrun
          obtain ⟨h₁, hlow, halign, ⟨ptrs, hus, hstr⟩, -⟩ :=
            Stack.pushArgs argv top [] h (Nat.le_add_right _ _) (Nat.le_refl _)
              (by unfold PGSIZE at hwhole; omega) hlen hargs
          rw [List.nil_append] at hus
          subst hus
          have hcount := hstr.length_eq
          have htop := hstr.bot_le
          have hmany := hstr.count_le
          obtain ⟨sp', hsp'⟩ : ∃ x, x = uintAdd sp (-((3 + us.length + 1) * 4)) := ⟨_, rfl⟩
          obtain ⟨ws, hws⟩ : ∃ ws, ws = ustackOf sp us := ⟨_, rfl⟩
          have hsize : (ws.flatMap wordBytes).length = 4 * (us.length + 4) := by
            rw [length_words, hws, length_ustackOf]
          rw [← hsp', ← hws] at hrun
          cases hcopy : m₁.copyoutOk d sp' (ws.flatMap wordBytes) with
          | mk m₂ ok =>
              rw [hcopy] at hrun
              cases ok with
              | false => cases hrun
              | true =>
                  cases hrun
                  have hne : ws.flatMap wordBytes ≠ [] := by
                    intro heq
                    rw [heq] at hsize
                    simp only [List.length_nil] at hsize
                    omega
                  have hdown : esp = uintAdd sp (-((ws.flatMap wordBytes).length : Int)) / 4 * 4 := by
                    rw [hsp', hsize]
                    unfold uintAdd
                    omega
                  unfold KERNBASE at hhigh
                  unfold PGSIZE at hlow hbottom
                  obtain ⟨hlow', hend, -, hmem⟩ := h₁.push hlow htop hne
                    (by rw [hsize]; unfold KERNBASE; omega) hdown hcopy
                  rw [hsize] at hend
                  have h₂ : Stack m' d top := by
                    rw [hmem]
                    exact (h₁.write _ _).1
                  have hesp : esp + 4 * (us.length + 4) = sp := by
                    rw [hsp'] at hend ⊢
                    unfold uintAdd at hend ⊢
                    omega
                  have hav : uintAdd sp (-((us.length + 1) * 4)) = esp + 12 := by
                    unfold uintAdd
                    omega
                  unfold PGSIZE at hlow'
                  have hbyte : ∀ va, esp ≤ va → va < top → m'.userByte d va =
                      if va < sp then (ws.flatMap wordBytes).getD (va - esp) 0
                      else m₁.userByte d va := by
                    intro va hva hlt
                    rw [hmem, h₁.userByte_write hlow' (by omega) (by unfold PGSIZE; omega) hlt, hsize,
                      hesp]
                    by_cases hin : va < sp
                    · rw [if_pos hin, if_pos ⟨hva, hin⟩]
                    · rw [if_neg hin, if_neg (fun hboth => hin hboth.2)]
                  have hword : ∀ k, k < us.length + 4 → ws.getD k 0 < 0x100000000 →
                      m'.userWord d (esp + 4 * k) = ws.getD k 0 := by
                    intro k hk hlt
                    apply userWord_of_bytes hlt
                    intro r hr
                    rw [hbyte _ (by omega) (by omega), if_pos (by omega),
                      show esp + 4 * k + r - esp = 4 * k + r by omega]
                    apply words_getD _ hr
                    rw [hws, length_ustackOf]
                    exact hk
                  have hstr' : Strings (m'.userByte d) top argv us sp := by
                    apply hstr.congr
                    intro va hva hlt
                    rw [hbyte va (by omega) hlt, if_neg (by omega)]
                  refine ⟨h₂, ⟨hwhole, h₂.user⟩, ⟨by unfold PGSIZE; omega, by unfold PGSIZE; omega⟩,
                    ?_, esp + 12, fun i => us.getD i 0, ?_, ?_, ?_, ?_, Nat.le_refl _, by omega, ?_,
                    ?_⟩
                  · have hone : ws.getD 1 0 = us.length := by rw [hws]; rfl
                    rw [← hcount, ← hone]
                    exact hword 1 (by omega) (by omega)
                  · have htwo : ws.getD 2 0 = esp + 12 := by
                      rw [hws, ← hav]
                      rfl
                    rw [← htwo]
                    exact hword 2 (by omega) (by omega)
                  · intro i hi
                    have hget : ws.getD (3 + i) 0 = us.getD i 0 := by
                      rw [hws]
                      exact ustackOf_getD (by omega)
                    have hptr := (hstr.get hi).2.1
                    have hread := hword (3 + i) (by omega) (by omega)
                    rw [hget, Nat.mul_add, ← Nat.add_assoc] at hread
                    exact hread
                  · have hget : ws.getD (3 + us.length) 0 = 0 := by
                      rw [hws]
                      exact ustackOf_last
                    have hread := hword (3 + us.length) (by omega) (by omega)
                    rw [hget, Nat.mul_add, ← Nat.add_assoc, hcount] at hread
                    exact hread
                  · intro i hi j hj
                    exact (hstr'.get hi).2.2 j hj
                  · intro i hi
                    obtain ⟨hptr, hptr', -⟩ := hstr.get hi
                    refine ⟨?_, hptr'⟩
                    show esp + 12 + 4 * (argv.length + 1) ≤ us.getD i 0
                    omega
                  · intro i j hij hj
                    exact hstr.below hij hj

/-! ## `exec` -/

section Exec

variable {R : Reader} {own own' own₀ : Frame → Owner} {m₀ : Mem} {sz : Nat}

theorem user_clear (w : Word) : user (w &&& ~~~PTE_U) = false := by
  unfold user PTE_U
  rw [BitVec.getLsbD_and]
  have hbit : (~~~(4 : Word)).getLsbD 2 = false := by decide
  rw [hbit, Bool.and_false]

/-- The entries of the two pages of the stack. -/
theorem Image.stackEntries (h₀ : Pages L own₀ m₀) (h : Image L d own₀ m₀ sz own m)
    (hrun : m.stackPages L d sz = some (m', some top)) :
    top % PGSIZE = 0 ∧ 2 * PGSIZE ≤ top ∧ m'.UserPage d (top / PGSIZE - 1) ∧
      ¬ m'.UserPage d (top / PGSIZE - 2) := by
  obtain ⟨newsz, hnew⟩ : ∃ x, x = (PGROUNDUP sz + 2 * PGSIZE) % 0x100000000 := ⟨_, rfl⟩
  have hsz := h.lt
  unfold Mem.stackPages at hrun
  rw [← hnew] at hrun
  by_cases hhigh : KERNBASE ≤ newsz
  · have hfail : m.allocuvm L d (PGROUNDUP sz) newsz = some (m, 0) := if_pos hhigh
    rw [hfail] at hrun
    cases hrun
  have hround : PGROUNDUP sz % PGSIZE = 0 ∧ newsz = PGROUNDUP sz + 2 * PGSIZE := by
    unfold PGROUNDUP at *
    unfold KERNBASE at hsz hhigh
    unfold PGSIZE at *
    omega
  have hlt : newsz < KERNBASE := Nat.lt_of_not_le hhigh
  have hup := h.roundup (by omega)
  have hmax := pagesOf_le (Nat.le_of_lt hlt)
  obtain ⟨m₁, r, own₁, hrun₁, hpages, hres⟩ :=
    hup.pages.allocuvm hup.built.dir hlt (show PGROUNDUP sz ≤ newsz by omega)
      fun b hlow hb hp => by
        rw [hup.mapped b (by omega)] at hp
        omega
  rw [hrun₁, Option.bind_some] at hrun
  by_cases hr : r = 0
  · simp only [if_pos hr] at hrun
    cases hrun
  rcases hres with ⟨rfl, hg⟩ | ⟨hzero, -⟩
  swap
  · exact absurd hzero hr
  have h₁ := hup.gains h₀ hpages (by omega) hlt hg
  simp only [if_neg hr] at hrun
  have hnum : pagesOf (PGROUNDUP sz) + 2 = pagesOf r ∧ pagesOf r = r / PGSIZE ∧
      (r + 0x100000000 - 2 * PGSIZE) % 0x100000000 / PGSIZE = r / PGSIZE - 2 ∧
      2 ≤ r / PGSIZE ∧ r % PGSIZE = 0 := by
    unfold pagesOf
    unfold KERNBASE at hlt
    unfold PGSIZE at *
    omega
  obtain ⟨hcount, hpagesOf, hguard, htwo, hmod⟩ := hnum
  rw [hguard] at hrun
  obtain ⟨t, hw, ht, -, -⟩ := h₁.walkpgdir (a := r / PGSIZE - 2) (by omega)
  have hclear : m₁.clearpteu d (r / PGSIZE - 2) =
      some (m₁.store t (PTX (r / PGSIZE - 2)) (m₁.ram t (PTX (r / PGSIZE - 2)) &&& ~~~PTE_U)) := by
    unfold Mem.clearpteu
    rw [hw]
    rfl
  rw [hclear, Option.map_some] at hrun
  cases hrun
  have hpte : ∀ b, b < 0x100000 → (m₁.store t (PTX (top / PGSIZE - 2))
      (m₁.ram t (PTX (top / PGSIZE - 2)) &&& ~~~PTE_U)).pte d b =
        if d = d ∧ b = top / PGSIZE - 2 then m₁.ram t (PTX (top / PGSIZE - 2)) &&& ~~~PTE_U
        else m₁.pte d b := fun b hb =>
    hpages.toTables.pte_store ht h₁.built.dir (by omega) hb
  obtain ⟨f, -, hentry, -⟩ := hg.new (top / PGSIZE - 1) (by omega) (by omega)
  refine ⟨hmod, by unfold PGSIZE at *; omega, ?_, ?_⟩
  · unfold Mem.UserPage userAccess
    rw [hpte _ (by omega), if_neg (by omega), hentry, present_entry,
      user_entry _ _ (by decide)]
    rfl
  · unfold Mem.UserPage userAccess
    rw [hpte _ (by omega), if_pos ⟨rfl, rfl⟩, user_clear, Bool.and_false]
    exact Bool.false_ne_true

/-- A new stack of one page. -/
theorem Image.stack (h₀ : Pages L own₀ m₀) (h : Image L d own₀ m₀ sz own m)
    (hrun : m.stackPages L d sz = some (m', some top)) :
    ∃ own', Image L d own₀ m₀ top own' m' ∧ Stack m' d top := by
  obtain ⟨hwhole, hlow, huser, hguard⟩ := h.stackEntries h₀ hrun
  obtain ⟨m₁, r, own', sz', hrun', h', hsz⟩ := h.stackPages h₀
  rw [hrun] at hrun'
  cases hrun'
  rw [← hsz top rfl] at h'
  exact ⟨own', h',
    { whole := hwhole
      low := hlow
      high := h'.lt
      user := huser
      guard := hguard
      kernel := h'.safe
      separate := h'.pages.separate h'.built.dir h'.safe }⟩

/-- The arguments depend on the user memory below `top` only. -/
theorem Arguments.congr {esp : Nat} {argv : List (List Byte)} (h : Arguments m d esp top argv)
    (huser : m'.UserPage d (top / PGSIZE - 1))
    (hbyte : ∀ va, va < top → m'.userByte d va = m.userByte d va) :
    Arguments m' d esp top argv := by
  have hword : ∀ va, va + 3 < top → m'.userWord d va = m.userWord d va := by
    intro va hva
    unfold Mem.userWord
    rw [hbyte va (by omega), hbyte (va + 1) (by omega), hbyte (va + 2) (by omega), hbyte _ hva]
  obtain ⟨av, ptr, hav, hptr, hnull, hstr, hlow, hend, hin, hbelow⟩ := h.found
  exact
    { page := ⟨h.page.1, huser⟩
      inside := h.inside
      argc := by
        rw [hword _ (by omega)]
        exact h.argc
      found := by
        refine ⟨av, ptr, ?_, ?_, ?_, ?_, hlow, hend, hin, hbelow⟩
        · rw [hword _ (by omega)]
          exact hav
        · intro i hi
          rw [hword _ (by omega)]
          exact hptr i hi
        · rw [hword _ (by omega)]
          exact hnull
        · intro i hi j hj
          have hle := (hin i hi).2
          rw [hbyte _ (by omega)]
          exact hstr i hi j hj }

theorem bad_ne_zero {s t : ExecState} {pgdir : Option Frame} {ip : Option Nat} :
    s.bad L pgdir ip ≠ some (t, 0) := by
  intro h
  unfold ExecState.bad at h
  cases pgdir with
  | none => cases ip <;> cases h
  | some d =>
      obtain ⟨m, -, hr⟩ := Option.map_eq_some_iff.mp h
      cases ip <;> cases hr

/-- The old address space is given back, and the arguments are still there. -/
theorem execCommit_arguments {s t : ExecState} {elf path : List Byte} {argv : List (List Byte)}
    (h₀ : Pages L own s.mem) (hd : own s.pgdir = .dir) (h : Image L d own s.mem top own' m)
    (hstack : Stack m d top) (hlen : ∀ arg ∈ argv, arg.length + 1 < KERNBASE)
    (hrun : execCommit L elf path d top s (pushStack d top argv m) = some (t, 0)) :
    Arguments t.mem t.pgdir t.esp t.sz argv := by
  have h₁ := h.pushStack h₀ top argv
  cases hpush : pushStack d top argv m with
  | mk m₁ r =>
      rw [hpush] at hrun h₁
      cases r with
      | none =>
          unfold execCommit at hrun
          exact absurd hrun bad_ne_zero
      | some esp =>
          obtain ⟨hstack₁, hargs⟩ := hstack.pushStack hlen hpush
          have hdir : own' s.pgdir = .dir := by
            rw [(h.built.kept s.pgdir (by rw [hd]; nofun)).1, hd]
          have hother : s.pgdir ≠ d := by
            intro heq
            rw [heq, h.built.was] at hd
            cases hd
          obtain ⟨m₂, own₂, hfree, -, -, hkept⟩ := h₁.pages.freevm hdir
          unfold execCommit at hrun
          simp only [hfree, Option.map_some] at hrun
          cases hrun
          -- nothing of the new address space belongs to the old one
          have hmine : ∀ f, f = d ∨ (∃ k, own' f = .table d k) ∨ (∃ b, own' f = .page d b) →
              m₂.ram f = m₁.ram f := by
            intro f hf
            apply (hkept f _).2
            rintro (heq | ⟨k, hk⟩ | ⟨b, hb⟩)
            · rcases hf with hfd | ⟨l, hl⟩ | ⟨c, hc⟩
              · exact hother (heq.symm.trans hfd)
              · rw [heq, hdir] at hl
                cases hl
              · rw [heq, hdir] at hc
                cases hc
            · rcases hf with hfd | ⟨l, hl⟩ | ⟨c, hc⟩
              · rw [hfd, h.built.dir] at hk
                cases hk
              · rw [hl] at hk
                injection hk with heq
                exact hother heq.symm
              · rw [hc] at hk
                cases hk
            · rcases hf with hfd | ⟨l, hl⟩ | ⟨c, hc⟩
              · rw [hfd, h.built.dir] at hb
                cases hb
              · rw [hl] at hb
                cases hb
              · rw [hc] at hb
                injection hb with heq
                exact hother heq.symm
          have hpte : ∀ b, m₂.pte d b = m₁.pte d b :=
            h₁.pages.toTables.pte_congr h.built.dir (hmine d (.inl rfl)) fun f k hf =>
              hmine f (.inr (.inl ⟨k, hf⟩))
          apply hargs.congr
          · unfold Mem.UserPage
            rw [hpte]
            exact hargs.page.2
          · intro va hva
            have hlt := h₁.lt
            have hpage : va / PGSIZE < pagesOf top := by
              unfold pagesOf PGSIZE
              omega
            obtain ⟨-, -, -, -, hown⟩ := h₁.walkpgdir hpage
            unfold Mem.userByte
            rw [hpte, hmine _ (.inr (.inr ⟨_, hown⟩))]

theorem execFile_arguments (hL : L.Ok) {s t : ExecState} {path : List Byte}
    {argv : List (List Byte)} {ip : Nat} (h₀ : Pages L own s.mem) (hd : own s.pgdir = .dir)
    (hlen : ∀ arg ∈ argv, arg.length + 1 < KERNBASE)
    (hrun : execFile L R path argv ip (s.beginOp.ilock ip) = some (t, 0)) :
    Arguments t.mem t.pgdir t.esp t.sz argv := by
  unfold execFile at hrun
  split at hrun
  · exact absurd hrun bad_ne_zero
  rename_i elf _
  by_cases hsize : elf.length ≠ 52
  · rw [if_pos hsize] at hrun
    exact absurd hrun bad_ne_zero
  rw [if_neg hsize] at hrun
  by_cases hmagic : word elf 0 ≠ ELF_MAGIC
  · rw [if_pos hmagic] at hrun
    exact absurd hrun bad_ne_zero
  rw [if_neg hmagic] at hrun
  obtain ⟨m₁, r, own₁, hset, h₁, hres⟩ := h₀.setupkvm hL
  have hmem : (s.beginOp.ilock ip).mem = s.mem := rfl
  rw [hmem, hset, Option.bind_some] at hrun
  rcases hres with ⟨rfl, -⟩ | ⟨d, rfl, hbuilt, hsafe, hnone⟩
  · unfold execLoad at hrun
    exact absurd hrun bad_ne_zero
  obtain ⟨m₂, c, r, own₂, sz, hseg, h₂, hsz⟩ :=
    Image.segments (R := R) h₀ (half elf 44) (word elf 28) 1
      (Image.start hbuilt h₁ hsafe hnone)
  unfold execLoad at hrun
  simp only [hseg, Option.bind_some] at hrun
  cases r with
  | none =>
      unfold execLoaded at hrun
      exact absurd hrun bad_ne_zero
  | some k =>
      rw [← hsz k rfl] at h₂
      unfold execLoaded at hrun
      obtain ⟨x, hstack, hrest⟩ := Option.bind_eq_some_iff.mp hrun
      obtain ⟨m₃, r⟩ := x
      cases r with
      | none =>
          unfold execStack at hrest
          exact absurd hrest bad_ne_zero
      | some top =>
          obtain ⟨own₃, h₃, hnew⟩ := h₂.stack h₀ hstack
          exact execCommit_arguments (s := ((s.beginOp.ilock ip).iunlockput ip).endOp) h₀ hd h₃
            hnew hlen hrest

end Exec

/-- The process as the functions of `syscall.c` see it. -/
def ExecState.caller (s : ExecState) : SyscallArgs.Caller Nat where
  sz := BitVec.ofNat 32 s.sz
  esp := BitVec.ofNat 32 s.esp
  mem := fun a => s.mem.userByte s.pgdir a.toNat
  ofile := s.ofile

/-- The new program sees the arguments that `sys_exec` has fetched. -/
theorem exec_arguments (L : Layout) (R : Reader) (namei : List Byte → Option Nat)
    (own : Frame → Owner) (path : List Byte) (argv : List (List Byte)) (s t : ExecState)
    (hL : L.Ok) (h : Pages L own s.mem) (hd : own s.pgdir = .dir) (hsz : s.sz < KERNBASE)
    (hargs : s.caller.sys_exec.result = some (path, argv))
    (hrun : exec L R namei path argv s = some (t, 0)) :
    (∀ arg ∈ argv, (0 : Byte) ∉ arg) ∧ Arguments t.mem t.pgdir t.esp t.sz argv := by
  have hsz' : s.caller.sz.toNat < KERNBASE := by
    show (BitVec.ofNat 32 s.sz).toNat < KERNBASE
    rw [BitVec.toNat_ofNat]
    exact Nat.lt_of_le_of_lt (Nat.mod_le _ _) hsz
  have hstr := SyscallArgs.strings_of_sys_exec hsz' hargs
  refine ⟨fun arg harg => (hstr arg harg).1, ?_⟩
  unfold exec at hrun
  split at hrun
  · cases hrun
  · exact execFile_arguments hL h hd (fun arg harg => (hstr arg harg).2) hrun

/-! ## A program with one argument -/

/-- The user page of a process that calls `exec("a", { "a", 0 })`, with the stack pointer 0. -/
def argumentPage : Page := fun k =>
  if k = 1 then 12 else if k = 2 then 16 else if k = 3 then 0x61 else if k = 4 then 12 else 0

/-- It has one page, and there are 2048 free pages. -/
def argumentCaller : ExecState :=
  { onePageCaller with
    mem := { onePageProcess.mem.fill 0x202 argumentPage with freelist := List.range' 0x300 2048 }
    esp := 0 }

theorem argumentCaller_pages : Pages onePageLayout plentifulOwner argumentCaller.mem :=
  (onePageProcess_pages.fill (f := 0x202) rfl argumentPage).plentiful rfl

theorem argumentCaller_sys_exec :
    argumentCaller.caller.sys_exec.result = some ([0x61], [[0x61]]) := by
  decide +kernel

/-- A program without segments. -/
def emptyProgram : List Byte := [0x7F, 0x45, 0x4C, 0x46] ++ List.replicate 48 0

/-- `exec` of a program without segments succeeds when there are enough pages. -/
theorem exec_emptyProgram {L : Layout} {own : Frame → Owner} {s : ExecState} (path arg : List Byte)
    (hL : L.Ok) (h : Pages L own s.mem) (hd : own s.pgdir = .dir) (hs : s.mem.Steady)
    (hlen : 2000 < s.mem.freelist.length) (harg : arg.length = 1) :
    ∃ t, exec L (fun _ _ _ => some emptyProgram) (fun _ => some 3) path [arg] s = some (t, 0) := by
  obtain ⟨m₁, d, own₁, hset, h₁, hs₁⟩ := h.setupkvm_enough hL hs (by omega)
  obtain ⟨m₂, own₂, halloc, h₂, -⟩ := h₁.allocuvm_enough h hs₁ (by omega)
    (show 8192 < KERNBASE by decide) (by unfold pagesOf; omega)
  obtain ⟨m₃, hclear, h₃⟩ := h₂.clearpteu h (a := 0) (by decide)
  have hstack : m₁.stackPages L d 0 = some (m₃, some 8192) := by
    have hround : PGROUNDUP 0 = 0 := rfl
    unfold Mem.stackPages
    rw [hround]
    show (m₁.allocuvm L d 0 8192).bind _ = _
    have hguard : (8192 + 0x100000000 - 2 * PGSIZE) % 0x100000000 / PGSIZE = 0 := by decide
    rw [halloc, Option.bind_some, if_neg (Nat.succ_ne_zero 8191)]
    simp only [hguard, hclear, Option.map_some]
  obtain ⟨own₃, h₃, hnew⟩ := h₁.stack h hstack
  have hbuf : (arg ++ [0]).length = 2 := by
    rw [List.length_append, harg]
    rfl
  have hfirst : m₃.copyoutOk d 8188 (arg ++ [0]) = _ := hnew.copyoutOk
    (by intro heq; rw [heq] at hbuf; cases hbuf) (by decide) (by omega)
  obtain ⟨m₄, hm₄⟩ : ∃ x, x = m₃.write (stackFrame m₃ d 8192) (8188 % PGSIZE) (arg ++ [0]) :=
    ⟨_, rfl⟩
  have hnew₄ : Stack m₄ d 8192 := by
    rw [hm₄]
    exact (hnew.write _ _).1
  rw [← hm₄] at hfirst
  have hwords : ((ustackOf 8188 [8188]).flatMap wordBytes).length = 20 := rfl
  have hsecond : m₄.copyoutOk d 8168 ((ustackOf 8188 [8188]).flatMap wordBytes) = _ :=
    hnew₄.copyoutOk (by intro heq; rw [heq] at hwords; cases hwords) (by decide) (by omega)
  obtain ⟨m₅, hm₅⟩ : ∃ x, x = m₄.write (stackFrame m₄ d 8192) (8168 % PGSIZE)
    ((ustackOf 8188 [8188]).flatMap wordBytes) := ⟨_, rfl⟩
  rw [← hm₅] at hsecond
  have hpush : pushStack d 8192 [arg] m₃ = (m₅, some 8168) := by
    have hargs : pushArgs d [arg] 8192 [] m₃ = (m₄, some (8188, [8188])) := by
      have hsp : uintAdd 8192 (-((arg.length : Int) + 1)) / 4 * 4 = 8188 := by
        rw [harg]
        rfl
      unfold pushArgs
      rw [if_neg (by decide)]
      simp only [hsp, hfirst]
      rfl
    unfold pushStack
    rw [hargs]
    have hsp : uintAdd 8188 (-((3 + List.length [8188] + 1) * 4)) = 8168 := by decide
    simp only [hsp, hsecond]
  have h₅ := h₃.pushStack h 8192 [arg]
  rw [hpush] at h₅
  have hdir : own₃ s.pgdir = .dir := by
    rw [(h₅.built.kept s.pgdir (by rw [hd]; rintro ⟨⟩)).1, hd]
  obtain ⟨m₆, own₆, hfree, -⟩ := h₅.pages.freevm hdir
  have hmem : (s.beginOp.ilock 3).mem = s.mem := rfl
  unfold exec execFile
  simp only [hmem]
  rw [if_neg (by decide), if_neg (by decide), hset, Option.bind_some]
  have hnum : half emptyProgram 44 = 0 := by decide
  unfold execLoad
  simp only [hnum]
  unfold Mem.segments
  rw [Option.bind_some]
  unfold execLoaded
  simp only [hstack, Option.bind_some]
  unfold execStack
  simp only [hpush]
  unfold execCommit
  have hpgdir : ((s.beginOp.ilock 3).iunlockput 3).endOp.pgdir = s.pgdir := rfl
  simp only [hpgdir, hfree, Option.map_some]
  exact ⟨_, rfl⟩

/-- The program is called `a`, and so is its argument. -/
theorem argumentCaller_arguments : ∃ t, exec onePageLayout (fun _ _ _ => some emptyProgram)
    (fun _ => some 3) [0x61] [[0x61]] argumentCaller = some (t, 0) ∧
      Arguments t.mem t.pgdir t.esp t.sz [[0x61]] := by
  have hlen : 2000 < (List.range' 0x300 2048).length := by
    rw [List.length_range']
    decide
  obtain ⟨t, ht⟩ := exec_emptyProgram [0x61] [0x61] onePageLayout_ok
    argumentCaller_pages plentifulOwner_dir (fun _ => rfl) hlen rfl
  exact ⟨t, ht, (exec_arguments _ _ _ _ _ _ _ t onePageLayout_ok argumentCaller_pages
    plentifulOwner_dir (by decide) argumentCaller_sys_exec ht).2⟩

end OsWork.Ports.PageTables

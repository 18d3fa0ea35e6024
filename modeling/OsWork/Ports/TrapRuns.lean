import OsWork.Ports.TrapStacks

/-!
# Every stack is what its thread has left there

The invariant of the runs: the frames on a kernel stack are those of the traps its thread
is in, and a thread that is not running has left the words that `swtch` needs.

## Main results

* `Inv.of_reachable` — it holds in every state that is reached.
-/

namespace OsWork.Ports.TrapFrames

open OsWork.Ports.PageTables (Page Entry Entries stackPage copyTf userTf)
open OsWork.Ports.ProcTable (Word)
open OsWork.Verified.Transition
open Function (update)

/-! ## Runs -/

section Runs

variable {C T : Type} (S : Symbols)

/-- Every CPU is on a stack of its own in the kernel, as `scheduler` finds it, and there are no
processes. -/
structure State.Init (s : State C T) : Prop where
  alone : Function.Injective s.thread
  running : ∀ c, s.status (s.thread c) = .running
  unused : ∀ t, (∀ c, s.thread c ≠ t) → s.status t = .unused
  acts : ∀ t, s.acts t = []
  kernel : ∀ c, (s.regs c).cs = kernelCs ∧ (s.regs c).ss = kernelDs ∧
    (s.regs c).esp = .kernel (s.regs c).sp ∧ (s.regs c).sp ≤ 1024

/-- Interruptions of each other: the last one of all is of user space, if any is, and C code has
the words above. -/
def Nested : List Interrupted → Prop
  | [] => True
  | a :: rest => a.Ok S ∧ (isUser a.regs.cs = true → rest = []) ∧
      (isUser a.regs.cs = false → ∃ own, a.words = own ++ base rest) ∧ Nested rest

/-- The CPU runs in user space, or in the kernel above the frames of its thread. -/
structure OnCpu (r : Regs) (p : Page) (l : List Interrupted) : Prop where
  user : isUser r.cs = true → (∃ w, r.esp = .user w) ∧ l = []
  kernel : isUser r.cs = false →
    r.cs = kernelCs ∧ r.ss = kernelDs ∧ ∃ own, Shows ⟨r, p⟩ (own ++ base l)

structure Inv (s : State C T) : Prop where
  alone : Function.Injective s.thread
  running : ∀ c, s.status (s.thread c) = .running
  onCpu : ∀ c, OnCpu (s.regs c) (s.page (s.thread c)) (s.acts (s.thread c))
  waiting : ∀ t i p, s.status t = .waiting i p →
    i + p.stack.length = 1024 ∧ above (s.page t) i = p.stack ∧
      ∃ own, p.words = own ++ base (s.acts t)
  acts : ∀ t, Nested S (s.acts t)

variable {S} {s : State C T} {c : C} {u : T} {i : Nat} {p : Page} {r : Regs}
  {x : Ctl} {l : List Interrupted}

theorem State.Init.inv (h : s.Init) : Inv S s where
  alone := h.alone
  running := h.running
  onCpu c := by
    obtain ⟨hcs, hss, hesp, hsp⟩ := h.kernel c
    rw [h.acts]
    refine ⟨fun huser => ?_, fun _ => ⟨hcs, hss, above (s.page (s.thread c)) (s.regs c).sp, ?_⟩⟩
    · rw [hcs] at huser
      cases huser
    · simpa [base] using shows_above (x := ⟨s.regs c, s.page (s.thread c)⟩) hesp hsp
  waiting t i p hstatus := by
    by_cases ht : ∃ c, s.thread c = t
    · obtain ⟨c, rfl⟩ := ht
      rw [h.running] at hstatus
      cases hstatus
    · rw [h.unused t fun c hc => ht ⟨c, hc⟩] at hstatus
      cases hstatus
  acts t := by
    rw [h.acts]
    exact trivial

theorem Inv.ne_thread (h : Inv S s) {p : Paused} (hu : s.status u = .waiting i p) (c : C) :
    s.thread c ≠ u := by
  rintro rfl
  rw [h.running] at hu
  cases hu

/-- The words that whoever is interrupted has on the stack. -/
theorem Inv.shows (h : Inv S s) (hkernel : isUser (s.regs c).cs = false) :
    Shows (s.ctl c) (above (s.page (s.thread c)) (s.regs c).sp) := by
  obtain ⟨-, -, own, hshows⟩ := (h.onCpu c).kernel hkernel
  have hsp : (s.regs c).sp = _ := hshows.sp
  rw [hsp, hshows.words]
  exact hshows

/-! ### Frames -/

variable {m : T → Place} {n : Nat} {err : Word} {a : Interrupted} {rest : List Interrupted}

/-- A trap in user space begins with an empty stack. -/
theorem onKernelStack_shows (huser : isUser x.regs.cs = true) :
    Shows { x with regs := x.regs.onKernelStack } [] ∧ x.regs.onKernelStack.ss = kernelDs := by
  unfold Regs.onKernelStack
  rw [if_pos huser]
  exact ⟨⟨rfl, Nat.zero_le _, above_end (Nat.le_refl _)⟩, rfl⟩

/-- The frame that is made at a trap, and what is remembered, agree. -/
theorem Inv.trap_stack (h : Inv S s) (n : Nat) (err : Word)
    (hroom : isUser (s.regs c).cs = true ∨ 19 ≤ (s.regs c).sp) :
    Shows (exec (m (s.thread c)) (vector S n) ((s.ctl c).hardwareTrap n err))
        (s.interrupted S m c n err).stack ∧
      (exec (m (s.thread c)) (vector S n) ((s.ctl c).hardwareTrap n err)).regs.cs =
        kernelCs ∧
      (exec (m (s.thread c)) (vector S n) ((s.ctl c).hardwareTrap n err)).regs.ss =
        kernelDs := by
  cases huser : isUser (s.regs c).cs with
  | true =>
      obtain ⟨⟨w, hesp⟩, -⟩ := (h.onCpu c).user huser
      have hesp' : (s.ctl c).regs.esp = .user w := hesp
      obtain ⟨hbegin, hds⟩ := onKernelStack_shows (x := s.ctl c) huser
      obtain ⟨hshows, hcs, hss⟩ := trap_shows (a := m (s.thread c)) S n err hbegin (by
        simp [trapWords, hesp'])
      refine ⟨?_, hcs, hss.trans hds⟩
      simpa [State.interrupted, Interrupted.stack, Interrupted.frame, huser, trapWords, hesp,
        State.ctl] using hshows
  | false =>
      obtain ⟨-, hds, -⟩ := (h.onCpu c).kernel huser
      have hwords := h.shows huser
      have hesp : (s.ctl c).regs.esp = _ := hwords.esp
      have hsame : (s.ctl c).regs.onKernelStack = (s.ctl c).regs := by
        refine if_neg ?_
        show ¬ isUser (s.regs c).cs = true
        rw [huser]
        exact Bool.false_ne_true
      have hbegin : Shows { s.ctl c with regs := (s.ctl c).regs.onKernelStack }
          (above (s.page (s.thread c)) (s.regs c).sp) := by
        rw [hsame]
        exact hwords
      have hspace : (trapWords (s.ctl c).regs n err ++
          above (s.page (s.thread c)) (s.regs c).sp).length + 14 ≤ 1024 := by
        have hsp := hroom.resolve_left (by rw [huser]; exact Bool.false_ne_true)
        have hlen := hwords.room
        rw [length_above] at hlen
        simp only [trapWords, hesp, List.append_nil, List.length_append, length_above,
          List.length_cons, List.length_nil]
        omega
      obtain ⟨hshows, hcs, hss⟩ := trap_shows (a := m (s.thread c)) S n err hbegin hspace
      refine ⟨?_, hcs, ?_⟩
      · have hesp' : (s.regs c).esp = _ := hwords.esp
        have hoesp : 1024 - (1024 - (s.regs c).sp) - 9 = 1015 - (1024 - (s.regs c).sp) := by
          omega
        have htf : 1015 - (1024 - (s.regs c).sp) - 8 = 1007 - (1024 - (s.regs c).sp) := by
          omega
        simpa [State.interrupted, Interrupted.stack, Interrupted.frame, huser, trapWords, hesp',
          State.ctl, length_above, hoesp, htf] using hshows
      · rw [hss, hsame]
        exact hds

/-- Who is interrupted is in user space, or in the C code above the frames. -/
theorem Inv.nested_interrupted (h : Inv S s) :
    Nested S (s.interrupted S m c n err :: s.acts (s.thread c)) := by
  refine ⟨⟨.inr ⟨_, rfl⟩, fun huser => ?_, fun hkernel => ?_⟩, fun huser => ?_,
    fun hkernel => ?_, h.acts _⟩
  · exact ⟨((h.onCpu c).user huser).1, if_pos huser⟩
  · obtain ⟨hcs, hss, -⟩ := (h.onCpu c).kernel hkernel
    refine ⟨?_, hcs, hss⟩
    have hesp : (s.regs c).esp = _ := (h.shows hkernel).esp
    simpa [State.interrupted, show isUser (s.regs c).cs = false from hkernel] using hesp
  · exact ((h.onCpu c).user huser).2
  · obtain ⟨-, -, own, hown⟩ := (h.onCpu c).kernel hkernel
    refine ⟨own, ?_⟩
    have hsp : (s.regs c).sp = _ := hown.sp
    simpa [State.interrupted, show isUser (s.regs c).cs = false from hkernel, hsp] using hown.words

/-- The C code is at its return address. -/
theorem Inv.returning (h : Inv S s) (hacts : s.acts (s.thread c) = a :: rest)
    (hkernel : isUser (s.regs c).cs = false)
    (hsp : (s.regs c).sp + a.stack.length = 1024) :
    Shows (s.ctl c) a.stack ∧ (s.ctl c).regs.ss = kernelDs ∧ a.Ok S := by
  obtain ⟨-, hss, own, hown⟩ := (h.onCpu c).kernel hkernel
  have hnested := h.acts (s.thread c)
  rw [hacts] at hown hnested
  have hlen : (s.regs c).sp = 1024 - (own ++ a.stack).length := hown.sp
  have hroom : (own ++ a.stack).length ≤ 1024 := hown.room
  rw [List.length_append] at hlen hroom
  obtain rfl : own = [] := List.eq_nil_of_length_eq_zero (by omega)
  exact ⟨hown, hss, hnested.1⟩

/-- What `swtch` leaves on the stack. -/
theorem Inv.switch_out (h : Inv S s) (hkernel : isUser (s.regs c).cs = false)
    (hroom : 4 ≤ (s.regs c).sp)
    (hframe : (s.regs c).sp + (base (s.acts (s.thread c))).length < 1024) :
    Shows (exec (m (s.thread c)) swtchSave (s.ctl c)) (s.paused c).stack ∧
      (exec (m (s.thread c)) swtchSave (s.ctl c)).regs = (s.regs c).on (s.paused c).stack ∧
      ∃ own, (s.paused c).words = own ++ base (s.acts (s.thread c)) := by
  have hwords := h.shows hkernel
  have hlen : (above (s.page (s.thread c)) (s.regs c).sp).length + 4 ≤ 1024 := by
    rw [length_above]
    omega
  have hstack : (s.paused c).stack = [(s.regs c).edi, (s.regs c).esi, (s.regs c).ebx,
      (s.regs c).ebp] ++ above (s.page (s.thread c)) (s.regs c).sp := by
    rw [above_cons (p := s.page (s.thread c)) (i := (s.regs c).sp) (by omega)]
    rfl
  obtain ⟨hshows, hregs⟩ := save_shows (a := m (s.thread c)) hwords hlen
  refine ⟨by rw [hstack]; exact hshows, by rw [hstack]; exact hregs, ?_⟩
  obtain ⟨-, -, own, hown⟩ := (h.onCpu c).kernel hkernel
  exact above_append (by omega) hown.above_right

/-- What `swtch` finds on the other stack. -/
theorem Inv.switch_in {q : Paused} (h : Inv S s) (hu : s.status u = .waiting i q)
    (hesp : r.esp = .kernel i) :
    Shows (exec (m u) swtchLoad ⟨r, s.page u⟩).ret q.words ∧
      (exec (m u) swtchLoad ⟨r, s.page u⟩).ret.regs = Regs.on { r with
        ebp := q.ebp, ebx := q.ebx, esi := q.esi, edi := q.edi, eip := q.eip } q.words := by
  obtain ⟨hi, hstack, -⟩ := h.waiting u i q hu
  have hindex : i = 1024 - q.stack.length := by omega
  refine load_shows (x := ⟨r, s.page u⟩) q ⟨?_, by omega, ?_⟩
  · rw [← hindex]
    exact hesp
  · rw [← hindex]
    exact hstack

/-- The C code of a thread with one frame. -/
theorem Inv.frame_shows (h : Inv S s) (hacts : s.acts (s.thread c) = [a])
    (hkernel : isUser (s.regs c).cs = false) :
    a.Ok S ∧ ∃ own, Shows (s.ctl c) ((own ++ a.call) ++ a.frame) := by
  obtain ⟨-, -, own, hown⟩ := (h.onCpu c).kernel hkernel
  have hnested := h.acts (s.thread c)
  rw [hacts] at hown hnested
  refine ⟨hnested.1, own, ?_⟩
  rw [List.append_assoc]
  exact hown

/-! ### New threads -/

/-- One interruption, of user space. -/
theorem nested_user (hcall : a.call = [S.trapret] ∨ ∃ tf, a.call = [S.afterTrap, tf])
    (huser : isUser a.regs.cs = true) (hesp : ∃ w, a.regs.esp = .user w) (hwords : a.words = []) :
    Nested S [a] := by
  refine ⟨⟨hcall, fun _ => ⟨hesp, hwords⟩, fun hk => ?_⟩, fun _ => rfl, fun hk => ?_, trivial⟩
  · rw [huser] at hk
    cases hk
  · rw [huser] at hk
    cases hk

variable [DecidableEq T]

theorem State.setActs_self (s : State C T) (t : T) : s.setActs t (s.acts t) = s := by
  unfold State.setActs
  rw [Function.update_eq_self]

/-- A thread that is not on a CPU is made, or given up. -/
theorem Inv.setThread {st : Status} (h : Inv S s) (hne : ∀ c, s.thread c ≠ u)
    (hacts : Nested S l)
    (hwaits : ∀ i q, st = .waiting i q → i + q.stack.length = 1024 ∧ above p i = q.stack ∧
      ∃ own, q.words = own ++ base l) :
    Inv S { s with
      page := update s.page u p, status := update s.status u st, acts := update s.acts u l } := by
  constructor
  case alone => exact h.alone
  case running =>
    intro c
    show update s.status u _ (s.thread c) = _
    rw [Function.update_of_ne (hne c)]
    exact h.running c
  case onCpu =>
    intro c
    show OnCpu (s.regs c) (update s.page u p (s.thread c)) (update s.acts u l (s.thread c))
    rw [Function.update_of_ne (hne c), Function.update_of_ne (hne c)]
    exact h.onCpu c
  case waiting =>
    intro t i q hstatus
    replace hstatus : update s.status u st t = .waiting i q := hstatus
    show i + q.stack.length = 1024 ∧ above (update s.page u p t) i = q.stack ∧
      ∃ own, q.words = own ++ base (update s.acts u l t)
    by_cases ht : t = u
    · subst ht
      rw [Function.update_self] at hstatus ⊢
      rw [Function.update_self]
      exact hwaits i q hstatus
    · rw [Function.update_of_ne ht] at hstatus
      rw [Function.update_of_ne ht, Function.update_of_ne ht]
      exact h.waiting t i q hstatus
  case acts =>
    intro t
    show Nested S (update s.acts u l t)
    by_cases ht : t = u
    · subst ht
      rw [Function.update_self]
      exact hacts
    · rw [Function.update_of_ne ht]
      exact h.acts t

theorem Inv.spawn (h : Inv S s) (hu : s.status u = .unused) (hacts : Nested S [a])
    (hstack : above p 999 = [0, 0, 0, 0, S.forkret] ++ a.stack) (hlen : a.stack.length = 20) :
    Inv S (s.spawn S u p a) := by
  have hne : ∀ c, s.thread c ≠ u := by
    rintro c rfl
    rw [h.running] at hu
    cases hu
  refine h.setThread hne hacts ?_
  rintro i q heq
  cases heq
  refine ⟨?_, hstack, [], rfl⟩
  simp [Paused.stack, hlen]

theorem Inv.fork (h : Inv S s) (hacts : s.acts (s.thread c) = [a])
    (hkernel : isUser (s.regs c).cs = false) (huser : isUser a.regs.cs = true)
    (hu : s.status u = .unused) :
    Inv S (s.spawn S u (copyTf (stackPage S.toEntries p) (s.page (s.thread c)))
      (State.child S a)) := by
  obtain ⟨hok, own, hshows⟩ := h.frame_shows hacts hkernel
  obtain ⟨⟨w, hesp⟩, hwords⟩ := hok.user huser
  have hframe : above (s.page (s.thread c)) (1024 - a.frame.length) = a.frame :=
    hshows.above_right
  rw [Interrupted.length_frame hesp] at hframe
  refine h.spawn hu (nested_user (.inl rfl) huser ⟨w, hesp⟩ hwords) ?_ ?_
  · rw [above_context, copyTf_frame S hesp hframe]
    rfl
  · simp [Interrupted.stack, Interrupted.frame, State.child, hesp]

theorem Inv.userinit (h : Inv S s) (hu : s.status u = .unused) :
    Inv S (s.spawn S u (userTf (stackPage S.toEntries p)) (State.first S)) := by
  have huser : isUser firstRegs.cs = true := by decide
  refine h.spawn hu (nested_user (.inl rfl) huser ⟨4096, rfl⟩ rfl) ?_ rfl
  rw [above_context, userTf_frame S]
  rfl

/-- `wait` gives up the stack of a process that does not run any more. -/
theorem Inv.reap {q : Paused} (h : Inv S s) (hu : s.status u = .waiting i q) :
    Inv S { s with status := update s.status u .unused, acts := update s.acts u [] } := by
  have hset : Inv S { s with
      page := update s.page u (s.page u), status := update s.status u .unused
      acts := update s.acts u [] } :=
    h.setThread (h.ne_thread hu) trivial (by rintro i q ⟨⟩)
  rwa [Function.update_eq_self] at hset

/-! ### Steps of a CPU -/

variable [DecidableEq C]

/-- A step of one CPU that stays on its stack. -/
theorem Inv.setCtl (h : Inv S s) (hacts : Nested S l) (hcpu : OnCpu x.regs x.page l) :
    Inv S ((s.setCtl c x).setActs (s.thread c) l) where
  alone := h.alone
  running := h.running
  onCpu c' := by
    show OnCpu (update s.regs c x.regs c') (update s.page (s.thread c) x.page (s.thread c'))
      (update s.acts (s.thread c) l (s.thread c'))
    by_cases hc : c' = c
    · subst hc
      simpa only [Function.update_self] using hcpu
    · have ht : s.thread c' ≠ s.thread c := fun heq => hc (h.alone heq)
      rw [Function.update_of_ne hc, Function.update_of_ne ht, Function.update_of_ne ht]
      exact h.onCpu c'
  waiting t i p hstatus := by
    have ht : t ≠ s.thread c := (h.ne_thread hstatus c).symm
    show _ ∧ above (update s.page (s.thread c) x.page t) i = _ ∧
      ∃ own, _ = own ++ base (update s.acts (s.thread c) l t)
    rw [Function.update_of_ne ht, Function.update_of_ne ht]
    exact h.waiting t i p hstatus
  acts t := by
    show Nested S (update s.acts (s.thread c) l t)
    by_cases ht : t = s.thread c
    · subst ht
      simpa only [Function.update_self] using hacts
    · rw [Function.update_of_ne ht]
      exact h.acts t

/-- The same for a step that is no trap, and no return from one. -/
theorem Inv.setCtl_same (h : Inv S s) (hcpu : OnCpu x.regs x.page (s.acts (s.thread c))) :
    Inv S (s.setCtl c x) := by
  have hset := h.setCtl (c := c) (h.acts (s.thread c)) hcpu
  rwa [show s.acts = (s.setCtl c x).acts from rfl, State.setActs_self] at hset

theorem kernelCs_not_user : isUser kernelCs = false := by decide

theorem Inv.user (h : Inv S s) (huser : isUser (s.regs c).cs = true) (hcs : r.cs = (s.regs c).cs)
    (hesp : r.esp ≠ .kernel r.sp) : Inv S (s.setCtl c ⟨r, s.page (s.thread c)⟩) := by
  refine h.setCtl_same ⟨fun _ => ⟨?_, ((h.onCpu c).user huser).2⟩, fun hkernel => ?_⟩
  · cases hr : r.esp with
    | user w => exact ⟨w, rfl⟩
    | kernel i =>
        unfold Regs.sp at hesp
        rw [hr] at hesp
        exact absurd rfl hesp
  · rw [hcs, huser] at hkernel
    cases hkernel

theorem Inv.code (h : Inv S s) (hkernel : isUser (s.regs c).cs = false)
    (hkeeps : s.Keeps (s.thread c) r p) : Inv S (s.setCtl c ⟨r, p⟩) := by
  obtain ⟨hcs, hss, hesp, hroom, hsame⟩ := hkeeps
  obtain ⟨-, -, own, hshows⟩ := (h.onCpu c).kernel hkernel
  have hbase : above p (1024 - (base (s.acts (s.thread c))).length) =
      base (s.acts (s.thread c)) := by
    refine (above_congr fun k hk => hsame k ?_).trans hshows.above_right
    omega
  obtain ⟨own', habove⟩ := above_append hroom hbase
  refine h.setCtl_same ⟨fun huser => ?_, fun _ => ⟨hcs, hss, own', ?_⟩⟩
  · rw [hcs, kernelCs_not_user] at huser
    cases huser
  · rw [← habove]
    exact shows_above (x := ⟨r, p⟩) hesp (by omega)

theorem Inv.trap (h : Inv S s) (hroom : isUser (s.regs c).cs = true ∨ 19 ≤ (s.regs c).sp) :
    Inv S ((s.setCtl c (exec (m (s.thread c)) (vector S n)
      ((s.ctl c).hardwareTrap n err))).setActs (s.thread c)
        (s.interrupted S m c n err :: s.acts (s.thread c))) := by
  obtain ⟨hshows, hcs, hss⟩ := h.trap_stack (m := m) n err hroom
  refine h.setCtl h.nested_interrupted ⟨fun huser => ?_, fun _ => ⟨hcs, hss, [], hshows⟩⟩
  rw [hcs, kernelCs_not_user] at huser
  cases huser

theorem Inv.ret (h : Inv S s) (hacts : s.acts (s.thread c) = a :: rest)
    (hregs : x.regs = a.regs) (hwords : isUser a.regs.cs = false → Shows x a.words) :
    Inv S ((s.setCtl c x).setActs (s.thread c) rest) := by
  have hnested := h.acts (s.thread c)
  rw [hacts] at hnested
  obtain ⟨hok, huser, hkernel, hrest⟩ := hnested
  refine h.setCtl hrest ⟨fun hu => ?_, fun hk => ?_⟩
  · rw [hregs] at hu ⊢
    exact ⟨(hok.user hu).1, huser hu⟩
  · rw [hregs] at hk
    obtain ⟨own, hown⟩ := hkernel hk
    obtain ⟨-, hcs, hss⟩ := hok.kernel hk
    refine ⟨by rw [hregs, hcs], by rw [hregs, hss], own, ?_⟩
    rw [← hown]
    exact hwords hk

theorem Inv.setTf (h : Inv S s) (hacts : s.acts (s.thread c) = [a])
    (hkernel : isUser (s.regs c).cs = false) (huser : isUser a.regs.cs = true)
    (eax eip esp : Word) :
    Inv S ((s.setCtl c ⟨s.regs c, setFrame (s.page (s.thread c)) eax eip esp⟩).setActs
      (s.thread c)
      [{ a with regs := { a.regs with eax := eax, eip := eip, esp := .user esp } }]) := by
  obtain ⟨hcs, hss, -⟩ := (h.onCpu c).kernel hkernel
  obtain ⟨hok, own, hshows⟩ := h.frame_shows hacts hkernel
  obtain ⟨⟨w, hesp⟩, hwords⟩ := hok.user huser
  have hlen := Interrupted.length_frame hesp
  have hframe : above (s.page (s.thread c)) (1024 - a.frame.length) = a.frame :=
    hshows.above_right
  rw [hlen] at hframe
  have hlow : ∀ k : Entry, k.val < 1024 - a.frame.length →
      setFrame (s.page (s.thread c)) eax eip esp k = s.page (s.thread c) k := by
    intro k hk
    rw [hlen] at hk
    unfold setFrame
    rw [if_neg (by omega), if_neg (by omega), if_neg (by omega)]
  have hnew : above (setFrame (s.page (s.thread c)) eax eip esp) (1024 - a.frame.length) =
      Interrupted.frame
        { a with regs := { a.regs with eax := eax, eip := eip, esp := .user esp } } := by
    rw [hlen]
    exact setFrame_frame hesp hframe eax eip esp
  have hpatch := hshows.patch (by simp [Interrupted.frame, hesp]) hlow hnew
  rw [List.append_assoc] at hpatch
  refine h.setCtl (nested_user hok.call huser ⟨esp, rfl⟩ hwords)
    ⟨fun hu => ?_, fun _ => ⟨hcs, hss, own, hpatch⟩⟩
  rw [hkernel] at hu
  cases hu

theorem State.switch_thread (eax edx : Word) : (s.switch m c u i eax edx).thread c = u :=
  Function.update_self ..

/-- Who is switched to finds its registers and its words. -/
theorem Inv.switch_shows {q : Paused} (h : Inv S s) (hu : s.status u = .waiting i q)
    (hkernel : isUser (s.regs c).cs = false) (hroom : 4 ≤ (s.regs c).sp)
    (hframe : (s.regs c).sp + (base (s.acts (s.thread c))).length < 1024) (eax edx : Word) :
    Shows ((s.switch m c u i eax edx).ctl c) q.words ∧
      (s.switch m c u i eax edx).regs c = Regs.on { s.regs c with
        eax := eax, edx := edx, ebp := q.ebp, ebx := q.ebx, esi := q.esi, edi := q.edi
        eip := q.eip } q.words := by
  obtain ⟨-, hregs, -⟩ := h.switch_out (m := m) hkernel hroom hframe
  obtain ⟨hin, hregs'⟩ := h.switch_in (m := m)
    (r := { (exec (m (s.thread c)) swtchSave (s.ctl c)).regs with
      eax := eax, edx := edx, esp := .kernel i }) hu rfl
  have hctl : (s.switch m c u i eax edx).ctl c = (exec (m u) swtchLoad
      ⟨{ (exec (m (s.thread c)) swtchSave (s.ctl c)).regs with
        eax := eax, edx := edx, esp := .kernel i }, s.page u⟩).ret := by
    unfold State.ctl State.switch
    simp only [Function.update_self]
    rfl
  refine ⟨by rw [hctl]; exact hin, ?_⟩
  have hback : ((s.switch m c u i eax edx).ctl c).regs = _ :=
    (congrArg Ctl.regs hctl).trans hregs'
  refine hback.trans ?_
  rw [hregs]
  rfl

theorem Inv.switch {q : Paused} (h : Inv S s) (hu : s.status u = .waiting i q)
    (hkernel : isUser (s.regs c).cs = false) (hroom : 4 ≤ (s.regs c).sp)
    (hframe : (s.regs c).sp + (base (s.acts (s.thread c))).length < 1024) (eax edx : Word) :
    Inv S (s.switch m c u i eax edx) := by
  obtain ⟨hcs, hss, -⟩ := (h.onCpu c).kernel hkernel
  obtain ⟨hout, -, hown⟩ := h.switch_out (m := m) hkernel hroom hframe
  obtain ⟨hin, hregs⟩ := h.switch_shows (m := m) hu hkernel hroom hframe eax edx
  have hne := h.ne_thread hu
  constructor
  case alone =>
    intro c₁ c₂ heq
    replace heq : update s.thread c u c₁ = update s.thread c u c₂ := heq
    by_cases h₁ : c₁ = c <;> by_cases h₂ : c₂ = c
    · rw [h₁, h₂]
    · rw [h₁, Function.update_self, Function.update_of_ne h₂] at heq
      exact absurd heq.symm (hne c₂)
    · rw [h₂, Function.update_self, Function.update_of_ne h₁] at heq
      exact absurd heq (hne c₁)
    · rw [Function.update_of_ne h₁, Function.update_of_ne h₂] at heq
      exact h.alone heq
  case running =>
    intro c'
    show update (update s.status _ _) u _ (update s.thread c u c') = _
    by_cases hc : c' = c
    · rw [hc, Function.update_self, Function.update_self]
    · have ht : s.thread c' ≠ s.thread c := fun heq => hc (h.alone heq)
      rw [Function.update_of_ne hc, Function.update_of_ne (hne c'), Function.update_of_ne ht]
      exact h.running c'
  case onCpu =>
    intro c'
    by_cases hc : c' = c
    · rw [hc, State.switch_thread]
      obtain ⟨-, -, own, hwords⟩ := h.waiting u i q hu
      refine ⟨fun huser => ?_, fun _ => ⟨by rw [hregs]; exact hcs, by rw [hregs]; exact hss,
        own, ?_⟩⟩
      · rw [hregs] at huser
        exact absurd (huser.symm.trans hkernel) (by decide)
      · unfold State.ctl at hin
        rw [State.switch_thread, hwords] at hin
        exact hin
    · have ht : s.thread c' ≠ s.thread c := fun heq => hc (h.alone heq)
      show OnCpu (update s.regs c _ c') (update (update s.page _ _) u _ (update s.thread c u c'))
        (s.acts (update s.thread c u c'))
      rw [Function.update_of_ne hc, Function.update_of_ne hc, Function.update_of_ne (hne c'),
        Function.update_of_ne ht]
      exact h.onCpu c'
  case waiting =>
    intro t i' q' hstatus
    replace hstatus : update (update s.status (s.thread c) _) u _ t = .waiting i' q' := hstatus
    show i' + q'.stack.length = 1024 ∧ above (update (update s.page _ _) u _ t) i' = q'.stack ∧
      ∃ own, q'.words = own ++ base (s.acts t)
    by_cases ht : t = u
    · rw [ht, Function.update_self] at hstatus
      cases hstatus
    · rw [Function.update_of_ne ht] at hstatus
      rw [Function.update_of_ne ht]
      by_cases ht' : t = s.thread c
      · rw [ht', Function.update_self] at hstatus
        cases hstatus
        rw [ht', Function.update_self]
        refine ⟨?_, ?_, hown⟩
        · rw [hout.sp]
          exact Nat.sub_add_cancel hout.room
        · rw [hout.sp]
          exact hout.words
      · rw [Function.update_of_ne ht'] at hstatus
        rw [Function.update_of_ne ht']
        exact h.waiting t i' q' hstatus
  case acts => exact h.acts

variable (S) (m)

def system : System (State C T) (Act C T) where
  init := State.Init
  step s act := s.step S m act

variable {S} {m}

section Cases

variable {s' : State C T} {eax edx eip esp : Word}

theorem ret_cases (h : s.step S m (.ret c) = some s') :
    ∃ a rest code, s.acts (s.thread c) = a :: rest ∧ isUser (s.regs c).cs = false ∧
      (s.regs c).sp + a.stack.length = 1024 ∧ returnTo S (s.ctl c).ret.regs.eip = some code ∧
      s' = (s.setCtl c (exec (m (s.thread c)) code (s.ctl c).ret).iret).setActs
        (s.thread c) rest := by
  simp only [State.step] at h
  split at h
  · cases h
  · rename_i a rest hacts
    simp only [Option.ite_none_right_eq_some, Option.map_eq_some_iff] at h
    obtain ⟨⟨hkernel, hsp⟩, code, hcode, rfl⟩ := h
    exact ⟨a, rest, code, hacts, hkernel, hsp, hcode, rfl⟩

theorem swtch_cases (h : s.step S m (.swtch c u eax edx) = some s') :
    ∃ i q, s.status u = .waiting i q ∧ isUser (s.regs c).cs = false ∧ 4 ≤ (s.regs c).sp ∧
      (s.regs c).sp + (base (s.acts (s.thread c))).length < 1024 ∧
      s' = s.switch m c u i eax edx := by
  simp only [State.step] at h
  split at h
  · rename_i i q hu
    simp only [Option.ite_none_right_eq_some, Option.some.injEq] at h
    obtain ⟨⟨hkernel, hroom, hframe⟩, rfl⟩ := h
    exact ⟨i, q, hu, hkernel, hroom, hframe, rfl⟩
  · cases h

theorem setTf_cases (h : s.step S m (.setTf c eax eip esp) = some s') :
    ∃ a, s.acts (s.thread c) = [a] ∧ isUser (s.regs c).cs = false ∧ isUser a.regs.cs = true ∧
      s' = (s.setCtl c ⟨s.regs c, setFrame (s.page (s.thread c)) eax eip esp⟩).setActs
        (s.thread c)
        [{ a with regs := { a.regs with eax := eax, eip := eip, esp := .user esp } }] := by
  simp only [State.step] at h
  split at h
  · rename_i a hacts
    simp only [Option.ite_none_right_eq_some, Option.some.injEq] at h
    obtain ⟨⟨hkernel, huser⟩, rfl⟩ := h
    exact ⟨a, hacts, hkernel, huser, rfl⟩
  · cases h

theorem fork_cases (h : s.step S m (.fork c u p) = some s') :
    ∃ a, s.acts (s.thread c) = [a] ∧ s.status u = .unused ∧ isUser (s.regs c).cs = false ∧
      isUser a.regs.cs = true ∧
      s' = s.spawn S u (copyTf (stackPage S.toEntries p) (s.page (s.thread c)))
        (State.child S a) := by
  simp only [State.step] at h
  split at h
  · rename_i a hacts hu
    simp only [Option.ite_none_right_eq_some, Option.some.injEq] at h
    obtain ⟨⟨hkernel, huser⟩, rfl⟩ := h
    exact ⟨a, hacts, hu, hkernel, huser, rfl⟩
  · cases h

theorem userinit_cases (h : s.step S m (.userinit u p) = some s') :
    s.status u = .unused ∧
      s' = s.spawn S u (userTf (stackPage S.toEntries p)) (State.first S) := by
  simp only [State.step] at h
  split at h
  · rename_i hu
    exact ⟨hu, (Option.some.inj h).symm⟩
  · cases h

theorem reap_cases (h : s.step S m (.reap u) = some s') :
    ∃ i q, s.status u = .waiting i q ∧
      s' = { s with status := update s.status u .unused, acts := update s.acts u [] } := by
  simp only [State.step] at h
  split at h
  · rename_i i q hu
    exact ⟨i, q, hu, (Option.some.inj h).symm⟩
  · cases h

end Cases

theorem Inv.step {act : Act C T} {s' : State C T} (h : Inv S s)
    (hstep : s.step S m act = some s') : Inv S s' := by
  cases act with
  | user c r =>
      simp only [State.step, Option.ite_none_right_eq_some, Option.some.injEq] at hstep
      obtain ⟨⟨huser, hcs, hesp⟩, rfl⟩ := hstep
      exact h.user huser hcs hesp
  | code c r p =>
      simp only [State.step, Option.ite_none_right_eq_some, Option.some.injEq] at hstep
      obtain ⟨⟨hkernel, hkeeps⟩, rfl⟩ := hstep
      exact h.code hkernel hkeeps
  | trap c n err =>
      simp only [State.step, Option.ite_none_right_eq_some, Option.some.injEq] at hstep
      obtain ⟨⟨-, hroom⟩, rfl⟩ := hstep
      exact h.trap hroom
  | ret c =>
      obtain ⟨a, rest, code, hacts, hkernel, hsp, hcode, rfl⟩ := ret_cases hstep
      obtain ⟨hshows, hss, hok⟩ := h.returning hacts hkernel hsp
      obtain ⟨code', hcode', hregs, hwords⟩ :=
        ret_shows (a := m (s.thread c)) S a hok hshows hss
      obtain rfl : code' = code := Option.some.inj (hcode'.symm.trans hcode)
      exact h.ret hacts hregs hwords
  | swtch c u eax edx =>
      obtain ⟨i, q, hu, hkernel, hroom, hframe, rfl⟩ := swtch_cases hstep
      exact h.switch hu hkernel hroom hframe eax edx
  | setTf c eax eip esp =>
      obtain ⟨a, hacts, hkernel, huser, rfl⟩ := setTf_cases hstep
      exact h.setTf hacts hkernel huser eax eip esp
  | fork c u p =>
      obtain ⟨a, hacts, hu, hkernel, huser, rfl⟩ := fork_cases hstep
      exact h.fork hacts hkernel huser hu
  | userinit u p =>
      obtain ⟨hu, rfl⟩ := userinit_cases hstep
      exact h.userinit hu
  | reap u =>
      obtain ⟨i, q, hu, rfl⟩ := reap_cases hstep
      exact h.reap hu

theorem Inv.of_reachable (h : (system S m).Reachable s) : Inv S s := by
  refine h.invariant (P := Inv S) ?_ ?_
  · intro s hinit
    exact State.Init.inv hinit
  · intro s act s' hs _ hstep
    exact hs.step (m := m) hstep

end Runs

end OsWork.Ports.TrapFrames

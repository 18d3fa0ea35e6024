import OsWork.Ports.TrapRuns

/-!
# Who is interrupted goes on as it was

What lies between a trap and its return, and between two calls of `swtch`.

## Main results

* `interrupted_goes_on` — whoever is interrupted goes on with the registers and the stack that
  it had.
* `syscall_goes_on` — a system call changes no registers but `%eax`, `%eip` and `%esp`.
* `child_goes_on` — a child of `fork` goes on with the registers of its parent, but for `%eax`.
* `swtch_returns` — who calls `swtch` finds its registers and its stack again.
-/

namespace OsWork.Ports.TrapFrames

open OsWork.Ports.PageTables (Page Entry Entries stackPage copyTf userTf)
open OsWork.Ports.ProcTable (Word)
open OsWork.Verified.Transition
open Function (update)

section Returns

variable {C T : Type} [DecidableEq C] [DecidableEq T] {S : Symbols} {s : State C T} {c : C} {u : T}
  {i : Nat} {p : Page} {r : Regs} {x : Ctl} {l : List Interrupted} {m : T → Place} {n : Nat}
  {err : Word} {a : Interrupted} {rest : List Interrupted}

/-! ### Between a trap and its return -/

/-- What a step does to the traps that a thread is in. -/
theorem acts_cases {t : T} {act : Act C T} {s' : State C T} (hmade : s.status t ≠ .unused)
    (hreap : act ≠ .reap t) (hstep : s.step S m act = some s') :
    s'.status t ≠ .unused ∧
      (s'.acts t = s.acts t ∨
        (∃ c a, s.thread c = t ∧ s'.acts t = a :: s.acts t) ∨
        (∃ c a, act = .ret c ∧ s.thread c = t ∧ s.acts t = a :: s'.acts t) ∨
        ∃ c eax eip esp a, act = .setTf c eax eip esp ∧ s.thread c = t ∧ s.acts t = [a] ∧
          s'.acts t =
            [{ a with regs := { a.regs with eax := eax, eip := eip, esp := .user esp } }]) := by
  have hother : ∀ {u : T} {l' : List Interrupted}, t ≠ u → update s.acts u l' t = s.acts t :=
    fun ht => Function.update_of_ne ht ..
  cases act with
  | user c r | code c r p =>
      simp only [State.step, Option.ite_none_right_eq_some, Option.some.injEq] at hstep
      obtain ⟨-, rfl⟩ := hstep
      exact ⟨hmade, .inl rfl⟩
  | trap c n err =>
      simp only [State.step, Option.ite_none_right_eq_some, Option.some.injEq] at hstep
      obtain ⟨-, rfl⟩ := hstep
      refine ⟨hmade, ?_⟩
      by_cases ht : s.thread c = t
      · subst ht
        exact .inr (.inl ⟨c, _, rfl, Function.update_self ..⟩)
      · exact .inl (hother (Ne.symm ht))
  | ret c =>
      obtain ⟨a, rest, code, hacts, -, -, -, rfl⟩ := ret_cases hstep
      refine ⟨hmade, ?_⟩
      by_cases ht : s.thread c = t
      · subst ht
        refine .inr (.inr (.inl ⟨c, a, rfl, rfl, ?_⟩))
        show s.acts (s.thread c) = a :: update s.acts (s.thread c) rest (s.thread c)
        rw [Function.update_self, hacts]
      · exact .inl (hother (Ne.symm ht))
  | setTf c eax eip esp =>
      obtain ⟨a, hacts, -, -, rfl⟩ := setTf_cases hstep
      refine ⟨hmade, ?_⟩
      by_cases ht : s.thread c = t
      · subst ht
        exact .inr (.inr (.inr ⟨c, eax, eip, esp, a, rfl, rfl, hacts, Function.update_self ..⟩))
      · exact .inl (hother (Ne.symm ht))
  | swtch c u eax edx =>
      obtain ⟨i, q, -, -, -, -, rfl⟩ := swtch_cases hstep
      refine ⟨?_, .inl rfl⟩
      show update (update s.status (s.thread c) _) u _ t ≠ _
      rw [Function.update_apply, Function.update_apply]
      split
      · rintro ⟨⟩
      · split
        · rintro ⟨⟩
        · exact hmade
  | fork c u p =>
      obtain ⟨a, -, hu, -, -, rfl⟩ := fork_cases hstep
      have ht : t ≠ u := fun heq => hmade (heq ▸ hu)
      exact ⟨(Function.update_of_ne ht ..).trans_ne hmade, .inl (hother ht)⟩
  | userinit u p =>
      obtain ⟨hu, rfl⟩ := userinit_cases hstep
      have ht : t ≠ u := fun heq => hmade (heq ▸ hu)
      exact ⟨(Function.update_of_ne ht ..).trans_ne hmade, .inl (hother ht)⟩
  | reap u =>
      obtain ⟨i, q, -, rfl⟩ := reap_cases hstep
      have ht : t ≠ u := fun heq => hreap (heq ▸ rfl)
      exact ⟨(Function.update_of_ne ht ..).trans_ne hmade, .inl (hother ht)⟩

/-- The step does not return from the last of the traps, nor write to its frame, and the thread
is not given up. -/
def Leaves (t : T) (l : List Interrupted) (s : State C T) : Act C T → Prop
  | .ret c | .setTf c _ _ _ => s.thread c = t → s.acts t ≠ l
  | .reap u => u ≠ t
  | .user .. | .code .. | .trap .. | .swtch .. | .fork .. | .userinit .. => True

/-- In such a run the thread stays in these traps. -/
theorem traps_kept {t : T} {s₂ : State C T} (hmade : s.status t ≠ .unused)
    (hacts : s.acts t = l) (hl : l ≠ [])
    (hrun : ((system S m).startingAt s).ReachableWhen (Leaves t l) s₂)
    (hlen : (s₂.acts t).length = l.length) : s₂.acts t = l := by
  have hend : s₂.status t ≠ .unused ∧ l <:+ s₂.acts t := by
    refine hrun.invariant (P := fun s => s.status t ≠ .unused ∧ l <:+ s.acts t) ?_ ?_
    · rintro s' rfl
      exact ⟨hmade, hacts ▸ List.suffix_rfl⟩
    · rintro s act s' ⟨hmade, hsuffix⟩ hleaves hstep
      have hreap : act ≠ .reap t := by
        rintro rfl
        exact hleaves rfl
      obtain ⟨hmade', hcases⟩ := acts_cases hmade hreap hstep
      refine ⟨hmade', ?_⟩
      obtain hsame | ⟨c, a, -, hcons⟩ | ⟨c, a, rfl, ht, hret⟩ |
        ⟨c, eax, eip, esp, a, rfl, ht, hset, -⟩ := hcases
      · rwa [hsame]
      · rw [hcons]
        exact hsuffix.trans (List.suffix_cons ..)
      · rw [hret] at hsuffix
        refine (List.suffix_cons_iff.mp hsuffix).resolve_left fun heq => ?_
        exact hleaves ht (hret.trans heq.symm)
      · rw [hset] at hsuffix
        rcases List.suffix_cons_iff.mp hsuffix with heq | hnil
        · exact absurd (hset.trans heq.symm) (hleaves ht)
        · exact absurd (List.suffix_nil.mp hnil) hl
  exact (hend.2.eq_of_length hlen.symm).symm

/-- The step does not return to user space, and the thread is not given up. -/
def InSyscall (t : T) (s : State C T) : Act C T → Prop
  | .ret c => s.thread c = t → (s.acts t).length ≠ 1
  | .reap u => u ≠ t
  | .user .. | .code .. | .trap .. | .swtch .. | .setTf .. | .fork .. | .userinit .. => True

/-- The frame of user space stays what it is, but for what system calls assign to. -/
theorem frame_kept {t : T} {s₂ : State C T} (hmade : s.status t ≠ .unused)
    (hacts : s.acts t = [a])
    (hrun : ((system S m).startingAt s).ReachableWhen (InSyscall t) s₂)
    (hlen : (s₂.acts t).length = 1) :
    ∃ eax eip esp, s₂.acts t =
      [{ a with regs := { a.regs with eax := eax, eip := eip, esp := esp } }] := by
  have hend : s₂.status t ≠ .unused ∧ ∃ eax eip esp,
      [{ a with regs := { a.regs with eax := eax, eip := eip, esp := esp } }] <:+
        s₂.acts t := by
    refine hrun.invariant (P := fun s => s.status t ≠ .unused ∧ ∃ eax eip esp,
      [{ a with regs := { a.regs with eax := eax, eip := eip, esp := esp } }] <:+
        s.acts t) ?_ ?_
    · rintro s' rfl
      exact ⟨hmade, a.regs.eax, a.regs.eip, a.regs.esp, hacts ▸ List.suffix_rfl⟩
    · rintro s act s' ⟨hmade, eax₀, eip₀, esp₀, hsuffix⟩ hin hstep
      have hreap : act ≠ .reap t := by
        rintro rfl
        exact hin rfl
      obtain ⟨hmade', hcases⟩ := acts_cases hmade hreap hstep
      refine ⟨hmade', ?_⟩
      obtain hsame | ⟨c, b, -, hcons⟩ | ⟨c, b, rfl, ht, hret⟩ |
        ⟨c, eax, eip, esp, b, rfl, ht, hset, hnew⟩ := hcases
      · exact ⟨eax₀, eip₀, esp₀, by rwa [hsame]⟩
      · refine ⟨eax₀, eip₀, esp₀, ?_⟩
        rw [hcons]
        exact hsuffix.trans (List.suffix_cons ..)
      · refine ⟨eax₀, eip₀, esp₀, ?_⟩
        rw [hret] at hsuffix
        refine (List.suffix_cons_iff.mp hsuffix).resolve_left fun heq => ?_
        exact hin ht (congrArg List.length (hret.trans heq.symm))
      · refine ⟨eax, eip, .user esp, ?_⟩
        rw [hset] at hsuffix
        obtain ⟨rfl, -⟩ := List.cons.inj (hsuffix.eq_of_length rfl)
        exact ⟨[], hnew.symm⟩
  obtain ⟨-, eax, eip, esp, hsuffix⟩ := hend
  exact ⟨eax, eip, esp, (hsuffix.eq_of_length hlen.symm).symm⟩

/-- The C code returns to whoever has been interrupted. -/
theorem Inv.ret_step (h : Inv S s) (hacts : s.acts (s.thread c) = a :: rest)
    (hkernel : isUser (s.regs c).cs = false) (hsp : (s.regs c).sp + a.stack.length = 1024) :
    ∃ s', (system S m).step s (.ret c) = some s' ∧ s'.thread = s.thread ∧
      s'.regs c = a.regs ∧ s'.acts (s.thread c) = rest ∧
      (isUser a.regs.cs = false → above (s'.page (s.thread c)) a.regs.sp = a.words) := by
  obtain ⟨hshows, hss, hok⟩ := h.returning hacts hkernel hsp
  obtain ⟨code, hcode, hregs, hwords⟩ := ret_shows (a := m (s.thread c)) S a hok hshows hss
  refine ⟨(s.setCtl c (exec (m (s.thread c)) code (s.ctl c).ret).iret).setActs
    (s.thread c) rest, ?_, rfl, ?_, Function.update_self .., fun hk => ?_⟩
  · show s.step S m (.ret c) = _
    simp only [State.step, hacts, hkernel, hsp, hcode, and_self, if_true, Option.map_some]
  · show update s.regs c _ c = _
    rw [Function.update_self, hregs]
  · show above (update s.page (s.thread c) _ (s.thread c)) _ = _
    have hback := hwords hk
    rw [Function.update_self, ← hregs, hback.sp]
    exact hback.words

/-- What there is after a trap. -/
theorem trap_acts {s₁ : State C T} (h : Inv S s)
    (htrap : s.step S m (.trap c n err) = some s₁) :
    s₁.acts (s.thread c) = s.interrupted S m c n err :: s.acts (s.thread c) ∧
      s₁.status (s.thread c) ≠ .unused := by
  simp only [State.step, Option.ite_none_right_eq_some, Option.some.injEq] at htrap
  obtain ⟨-, rfl⟩ := htrap
  refine ⟨Function.update_self .., ?_⟩
  show s.status (s.thread c) ≠ _
  rw [h.running c]
  rintro ⟨⟩

/-- Whoever is interrupted goes on with the registers, and the words on the stack, that it had,
whatever happens meanwhile, and whichever CPU it goes on on. -/
theorem interrupted_goes_on {s s₁ s₂ : State C T} {c c' : C}
    (h : (system S m).Reachable s)
    (htrap : (system S m).step s (.trap c n err) = some s₁)
    (hrun : ((system S m).startingAt s₁).ReachableWhen
      (Leaves (s.thread c) (s₁.acts (s.thread c))) s₂)
    (hthread : s₂.thread c' = s.thread c) (hkernel : isUser (s₂.regs c').cs = false)
    (hlen : (s₂.acts (s.thread c)).length = (s.acts (s.thread c)).length + 1)
    (hsp : (s₂.regs c').sp + (base (s₂.acts (s.thread c))).length = 1024) :
    ∃ s₃, (system S m).step s₂ (.ret c') = some s₃ ∧ s₃.thread c' = s.thread c ∧
      s₃.regs c' = s.regs c ∧ s₃.acts (s.thread c) = s.acts (s.thread c) ∧
      (isUser (s.regs c).cs = false → above (s₃.page (s.thread c)) (s.regs c).sp =
        above (s.page (s.thread c)) (s.regs c).sp) := by
  have h₁ : (system S m).Reachable s₁ := .step h trivial htrap
  have h₂ : Inv S s₂ := .of_reachable (h₁.trans hrun fun _ _ _ => trivial)
  obtain ⟨hacts₁, hmade⟩ := trap_acts (Inv.of_reachable h) htrap
  rw [hacts₁] at hrun
  have hacts := traps_kept hmade hacts₁ (List.cons_ne_nil _ _) hrun hlen
  rw [← hthread] at hacts hsp
  rw [hacts] at hsp
  obtain ⟨s₃, hstep, hthread₃, hregs, hrest, hwords⟩ := h₂.ret_step (m := m) hacts hkernel hsp
  rw [hthread] at hrest hwords
  refine ⟨s₃, hstep, by rw [hthread₃, hthread], hregs, hrest, fun hk => (hwords hk).trans ?_⟩
  exact if_neg (by rw [hk]; exact Bool.false_ne_true)

/-- A system call comes back to user space with the registers of the call, but for `%eax`,
`%eip` and `%esp`. -/
theorem syscall_goes_on {s s₁ s₂ : State C T} {c c' : C}
    (h : (system S m).Reachable s) (huser : isUser (s.regs c).cs = true)
    (htrap : (system S m).step s (.trap c n err) = some s₁)
    (hrun : ((system S m).startingAt s₁).ReachableWhen (InSyscall (s.thread c)) s₂)
    (hthread : s₂.thread c' = s.thread c) (hkernel : isUser (s₂.regs c').cs = false)
    (hlen : (s₂.acts (s.thread c)).length = 1)
    (hsp : (s₂.regs c').sp + (base (s₂.acts (s.thread c))).length = 1024) :
    ∃ eax eip esp s₃, (system S m).step s₂ (.ret c') = some s₃ ∧ s₃.thread c' = s.thread c ∧
      s₃.regs c' = { s.regs c with eax := eax, eip := eip, esp := esp } ∧
      s₃.acts (s.thread c) = [] := by
  have h₁ : (system S m).Reachable s₁ := .step h trivial htrap
  have h₂ : Inv S s₂ := .of_reachable (h₁.trans hrun fun _ _ _ => trivial)
  obtain ⟨hacts₁, hmade⟩ := trap_acts (Inv.of_reachable h) htrap
  rw [(((Inv.of_reachable h).onCpu c).user huser).2] at hacts₁
  obtain ⟨eax, eip, esp, hacts⟩ := frame_kept hmade hacts₁ hrun hlen
  rw [← hthread] at hacts hsp
  rw [hacts] at hsp
  obtain ⟨s₃, hstep, hthread₃, hregs, hrest, -⟩ := h₂.ret_step (m := m) hacts hkernel hsp
  rw [hthread] at hrest
  exact ⟨eax, eip, esp, s₃, hstep, by rw [hthread₃, hthread], hregs, hrest⟩

/-- The child of `fork` goes on with the registers of its parent, but for `%eax`. -/
theorem child_goes_on {s s₁ s₂ : State C T} {c c' : C}
    (h : (system S m).Reachable s)
    (hfork : (system S m).step s (.fork c u p) = some s₁)
    (hrun : ((system S m).startingAt s₁).ReachableWhen (Leaves u (s₁.acts u)) s₂)
    (hthread : s₂.thread c' = u) (hkernel : isUser (s₂.regs c').cs = false)
    (hlen : (s₂.acts u).length = 1)
    (hsp : (s₂.regs c').sp + (base (s₂.acts u)).length = 1024) :
    ∃ a s₃, s.acts (s.thread c) = [a] ∧ (system S m).step s₂ (.ret c') = some s₃ ∧
      s₃.thread c' = u ∧ s₃.regs c' = { a.regs with eax := 0 } ∧ s₃.acts u = [] := by
  have h₁ : (system S m).Reachable s₁ := .step h trivial hfork
  have h₂ : Inv S s₂ := .of_reachable (h₁.trans hrun fun _ _ _ => trivial)
  obtain ⟨a, hparent, -, -, -, hs₁⟩ := fork_cases (m := m) hfork
  have hacts₁ : s₁.acts u = [State.child S a] := by
    rw [hs₁]
    exact Function.update_self ..
  have hmade : s₁.status u ≠ .unused := by
    rw [hs₁]
    show update s.status u _ u ≠ _
    rw [Function.update_self]
    rintro ⟨⟩
  rw [hacts₁] at hrun
  have hacts := traps_kept hmade hacts₁ (List.cons_ne_nil _ _) hrun hlen
  rw [← hthread] at hacts hsp
  rw [hacts] at hsp
  obtain ⟨s₃, hstep, hthread₃, hregs, hrest, -⟩ := h₂.ret_step (m := m) hacts hkernel hsp
  rw [hthread] at hrest
  exact ⟨a, s₃, hparent, hstep, by rw [hthread₃, hthread], hregs, hrest⟩

/-! ### Between two calls of `swtch` -/

/-- The step does not go on with the thread, and does not give it up. -/
def Stays (t : T) : Act C T → Prop
  | .swtch _ u _ _ | .reap u => u ≠ t
  | .user .. | .code .. | .trap .. | .ret .. | .setTf .. | .fork .. | .userinit .. => True

theorem Inv.stays {t : T} {q : Paused} {act : Act C T} {s' : State C T} (h : Inv S s)
    (hwaits : s.status t = .waiting i q) (hstays : Stays t act)
    (hstep : s.step S m act = some s') : s'.status t = .waiting i q ∧ s'.acts t = s.acts t := by
  have hne := h.ne_thread hwaits
  have hmade : s.status t ≠ .unused := by
    rw [hwaits]
    rintro ⟨⟩
  have hreap : act ≠ .reap t := by
    rintro rfl
    exact hstays rfl
  obtain ⟨-, hcases⟩ := acts_cases hmade hreap hstep
  have hacts : s'.acts t = s.acts t := by
    obtain hsame | ⟨c, a, ht, -⟩ | ⟨c, a, -, ht, -⟩ | ⟨c, eax, eip, esp, a, -, ht, -⟩ := hcases
    · exact hsame
    · exact absurd ht (hne c)
    · exact absurd ht (hne c)
    · exact absurd ht (hne c)
  refine ⟨?_, hacts⟩
  cases act with
  | user c r | code c r p | trap c n err =>
      simp only [State.step, Option.ite_none_right_eq_some, Option.some.injEq] at hstep
      obtain ⟨-, rfl⟩ := hstep
      exact hwaits
  | ret c =>
      obtain ⟨a, rest, code, -, -, -, -, rfl⟩ := ret_cases hstep
      exact hwaits
  | setTf c eax eip esp =>
      obtain ⟨a, -, -, -, rfl⟩ := setTf_cases hstep
      exact hwaits
  | swtch c u eax edx =>
      obtain ⟨j, q', -, -, -, -, rfl⟩ := swtch_cases hstep
      show update (update s.status (s.thread c) _) u _ t = _
      rw [Function.update_of_ne (Ne.symm hstays), Function.update_of_ne (Ne.symm (hne c))]
      exact hwaits
  | fork c u p =>
      obtain ⟨a, -, hu, -, -, rfl⟩ := fork_cases hstep
      have ht : t ≠ u := fun heq => hmade (heq ▸ hu)
      exact (Function.update_of_ne ht ..).trans hwaits
  | userinit u p =>
      obtain ⟨hu, rfl⟩ := userinit_cases hstep
      have ht : t ≠ u := fun heq => hmade (heq ▸ hu)
      exact (Function.update_of_ne ht ..).trans hwaits
  | reap u =>
      obtain ⟨j, q', -, rfl⟩ := reap_cases hstep
      exact (Function.update_of_ne (Ne.symm hstays) ..).trans hwaits

/-- In such a run the thread keeps waiting. -/
theorem waits_kept {t : T} {q : Paused} {s₂ : State C T} (h : Inv S s)
    (hwaits : s.status t = .waiting i q)
    (hrun : ((system S m).startingAt s).ReachableWhen (fun _ => Stays t) s₂) :
    Inv S s₂ ∧ s₂.status t = .waiting i q ∧ s₂.acts t = s.acts t := by
  refine hrun.invariant
    (P := fun s' => Inv S s' ∧ s'.status t = .waiting i q ∧ s'.acts t = s.acts t) ?_ ?_
  · rintro s' rfl
    exact ⟨h, hwaits, rfl⟩
  · rintro s' act s'' ⟨hi, hw, ha⟩ hstays hstep
    obtain ⟨hw', ha'⟩ := hi.stays hw hstays hstep
    exact ⟨hi.step (m := m) hstep, hw', ha'.trans ha⟩

/-- What there is after a call of `swtch`. -/
theorem switch_waits (h : Inv S s) {q : Paused} (hu : s.status u = .waiting i q)
    (eax edx : Word) :
    ∃ j, (s.switch m c u i eax edx).status (s.thread c) = .waiting j (s.paused c) := by
  refine ⟨(exec (m (s.thread c)) swtchSave (s.ctl c)).regs.sp, ?_⟩
  show update (update s.status (s.thread c) _) u _ (s.thread c) = _
  rw [Function.update_of_ne (h.ne_thread hu c), Function.update_self]

/-- Who calls `swtch` finds its registers and its stack again when somebody switches back,
whatever happens meanwhile, and whichever CPU it is on then. -/
theorem swtch_returns {s s₁ s₂ : State C T} {c c' : C} {eax edx : Word}
    (h : (system S m).Reachable s)
    (hswtch : (system S m).step s (.swtch c u eax edx) = some s₁)
    (hrun : ((system S m).startingAt s₁).ReachableWhen (fun _ => Stays (s.thread c)) s₂)
    (hkernel : isUser (s₂.regs c').cs = false) (hroom : 4 ≤ (s₂.regs c').sp)
    (hframe : (s₂.regs c').sp + (base (s₂.acts (s₂.thread c'))).length < 1024)
    (eax' edx' : Word) :
    ∃ s₃, (system S m).step s₂ (.swtch c' (s.thread c) eax' edx') = some s₃ ∧
      s₃.thread c' = s.thread c ∧
      s₃.regs c' = { s₂.regs c' with
        eax := eax', edx := edx', ebp := (s.regs c).ebp, ebx := (s.regs c).ebx
        esi := (s.regs c).esi, edi := (s.regs c).edi, eip := (s.ctl c).top
        esp := .kernel ((s.regs c).sp + 1) } ∧
      above (s₃.page (s.thread c)) ((s.regs c).sp + 1) =
        above (s.page (s.thread c)) ((s.regs c).sp + 1) ∧
      s₃.acts (s.thread c) = s.acts (s.thread c) := by
  have hinv := Inv.of_reachable h
  obtain ⟨i, q, hu, hk, hr, hf, hs₁⟩ := swtch_cases (S := S) (m := m) hswtch
  have h₁ : Inv S s₁ := .of_reachable (.step h trivial hswtch)
  obtain ⟨j, hwaits⟩ := switch_waits (c := c) (m := m) hinv hu eax edx
  rw [← hs₁] at hwaits
  obtain ⟨h₂, hwaits₂, hacts₂⟩ := waits_kept h₁ hwaits hrun
  have hacts₁ : s₁.acts (s.thread c) = s.acts (s.thread c) := by
    rw [hs₁]
    rfl
  obtain ⟨hin, hregs⟩ := h₂.switch_shows (m := m) hwaits₂ hkernel hroom hframe eax' edx'
  have hindex : 1024 - (s.paused c).words.length = (s.regs c).sp + 1 := by
    show 1024 - (above _ _).length = _
    rw [length_above]
    omega
  have hwords := hin.words
  unfold State.ctl at hwords
  rw [hindex, State.switch_thread] at hwords
  refine ⟨s₂.switch m c' (s.thread c) j eax' edx', ?_, State.switch_thread .., ?_, hwords,
    hacts₂.trans hacts₁⟩
  · show s₂.step S m (.swtch c' (s.thread c) eax' edx') = _
    simp only [State.step, hwaits₂]
    exact if_pos ⟨hkernel, hroom, hframe⟩
  · rw [hregs]
    unfold Regs.on
    rw [hindex]
    rfl

end Returns

/-! ## Two CPUs -/

/-- The symbols of `kernel.sym`, and the address behind `call trap` in `kernel.asm`. -/
def kernelSymbols : Symbols where
  trapret := 0x80105A27
  forkret := 0x80103710
  afterTrap := 0x80105A24
  apart := by decide

/-- Two CPUs in `scheduler`. -/
def booted : State Bool (Nat) where
  regs _ := { firstRegs with cs := kernelCs, ss := kernelDs, esp := .kernel 1000 }
  thread c := if c then 1 else 0
  page _ _ := 0
  status t := if t < 2 then .running else .unused
  acts _ := []

theorem booted_init : booted.Init where
  alone c c' h := by revert h; cases c <;> cases c' <;> decide
  running c := by cases c <;> rfl
  unused t h := by
    refine if_neg fun ht => ?_
    have hlow : t = 0 ∨ t = 1 := by omega
    rcases hlow with rfl | rfl
    · exact h false rfl
    · exact h true rfl
  acts _ := rfl
  kernel _ := ⟨rfl, rfl, rfl, show 1000 ≤ 1024 by decide⟩

/-- Where the stacks are does not matter. -/
def places : Nat → Place := fun _ _ => 0

/-- The machine with these CPUs. -/
abbrev machine : System (State Bool (Nat)) (Act Bool (Nat)) := system kernelSymbols places

/-- The first process, in user space on the first CPU. -/
def firstProcess : List (Act Bool (Nat)) :=
  [.userinit 2 fun _ => 0, .swtch false 2 0 0, .ret false]

/-- A timer interrupt comes in the middle of the system call. -/
theorem interrupted_goes_on_nested :
    ∃ s s₁ s₂ s₃ s₄ : State Bool (Nat), machine.step s (.trap false 64 0) = some s₁ ∧
      machine.step s₁ (.trap false 32 0) = some s₂ ∧ machine.step s₂ (.ret false) = some s₃ ∧
      machine.step s₃ (.ret false) = some s₄ ∧ s₄.regs false = s.regs false := by
  obtain ⟨s, hs, htest⟩ := System.exists_reachable_of_run
    (M := machine) (s := booted) (l := firstProcess)
    (p := fun s => ((machine.step s (.trap false 64 0)).bind fun s₁ =>
      (machine.step s₁ (.trap false 32 0)).bind fun s₂ =>
        (machine.step s₂ (.ret false)).map fun s₃ => decide
          ((s₂.acts (s.thread false)).length ≠ (s₁.acts (s.thread false)).length ∧
            s₃.thread false = s.thread false ∧ isUser (s₃.regs false).cs = false ∧
            (s₃.acts (s.thread false)).length = (s.acts (s.thread false)).length + 1 ∧
            (s₃.regs false).sp + (base (s₃.acts (s.thread false))).length = 1024)) == some true)
    booted_init (by decide +kernel)
  simp only [beq_iff_eq, Option.bind_eq_some_iff, Option.map_eq_some_iff,
    decide_eq_true_eq] at htest
  obtain ⟨s₁, h₁, s₂, h₂, s₃, h₃, hlen, hthread, hkernel, hlen₃, hsp⟩ := htest
  obtain ⟨s₄, h₄, -, hregs, -⟩ := interrupted_goes_on hs h₁
    (((System.startingAt_self _ s₁).goOn h₂ trivial).goOn h₃
      fun _ heq => hlen (congrArg List.length heq))
    hthread hkernel hlen₃ hsp
  exact ⟨s, s₁, s₂, s₃, s₄, h₁, h₂, h₃, h₄, hregs⟩

/-- A system call returns 7, and `exec` begins a program. -/
theorem syscall_goes_on_exec :
    ∃ (s s₁ s₂ s₃ : State Bool (Nat)) (eax eip : Word) (esp : Esp),
      machine.step s (.trap false 64 0) = some s₁ ∧
      machine.step s₁ (.setTf false 7 100 4000) = some s₂ ∧
      machine.step s₂ (.ret false) = some s₃ ∧
      s₃.regs false = { s.regs false with eax := eax, eip := eip, esp := esp } := by
  obtain ⟨s, hs, htest⟩ := System.exists_reachable_of_run
    (M := machine) (s := booted) (l := firstProcess)
    (p := fun s => ((machine.step s (.trap false 64 0)).bind fun s₁ =>
      (machine.step s₁ (.setTf false 7 100 4000)).map fun s₂ => decide
        (isUser (s.regs false).cs = true ∧ s₂.thread false = s.thread false ∧
          isUser (s₂.regs false).cs = false ∧ (s₂.acts (s.thread false)).length = 1 ∧
          (s₂.regs false).sp + (base (s₂.acts (s.thread false))).length = 1024)) == some true)
    booted_init (by decide +kernel)
  simp only [beq_iff_eq, Option.bind_eq_some_iff, Option.map_eq_some_iff,
    decide_eq_true_eq] at htest
  obtain ⟨s₁, h₁, s₂, h₂, huser, hthread, hkernel, hlen, hsp⟩ := htest
  obtain ⟨eax, eip, esp, s₃, h₃, -, hregs, -⟩ := syscall_goes_on hs huser h₁
    ((System.startingAt_self _ s₁).goOn h₂ trivial) hthread hkernel hlen hsp
  exact ⟨s, s₁, s₂, s₃, eax, eip, esp, h₁, h₂, h₃, hregs⟩

/-- The other CPU picks the child up. -/
theorem child_goes_on_other :
    ∃ (s s₁ s₂ s₃ : State Bool (Nat)) (a : Interrupted), s.acts (s.thread false) = [a] ∧
      machine.step s (.fork false 3 fun _ => 0) = some s₁ ∧
      machine.step s₁ (.swtch true 3 0 0) = some s₂ ∧ machine.step s₂ (.ret true) = some s₃ ∧
      s₃.regs true = { a.regs with eax := 0 } := by
  obtain ⟨s, hs, htest⟩ := System.exists_reachable_of_run
    (M := machine) (s := booted) (l := firstProcess ++ [.trap false 64 0])
    (p := fun s => ((machine.step s (.fork false 3 fun _ => 0)).bind fun s₁ =>
      (machine.step s₁ (.swtch true 3 0 0)).map fun s₂ => decide
        (s₂.thread true = 3 ∧ isUser (s₂.regs true).cs = false ∧ (s₂.acts 3).length = 1 ∧
          (s₂.regs true).sp + (base (s₂.acts 3)).length = 1024)) == some true)
    booted_init (by decide +kernel)
  simp only [beq_iff_eq, Option.bind_eq_some_iff, Option.map_eq_some_iff,
    decide_eq_true_eq] at htest
  obtain ⟨s₁, h₁, s₂, h₂, hthread, hkernel, hlen, hsp⟩ := htest
  obtain ⟨a, s₃, ha, h₃, -, hregs, -⟩ := child_goes_on hs h₁
    ((System.startingAt_self _ s₁).goOn h₂ trivial) hthread hkernel hlen hsp
  exact ⟨s, s₁, s₂, s₃, a, ha, h₁, h₂, h₃, hregs⟩

/-- A scheduler goes on on the other CPU. -/
theorem swtch_returns_other :
    ∃ s s₁ s₂ : State Bool (Nat), machine.step s (.swtch false 2 0 0) = some s₁ ∧
      machine.step s₁ (.swtch true 0 0 0) = some s₂ ∧ s₂.thread true = 0 ∧
      (s₂.regs true).ebx = (s.regs false).ebx ∧ (s₂.regs true).eip = (s.ctl false).top := by
  obtain ⟨s, hs, htest⟩ := System.exists_reachable_of_run
    (M := machine) (s := booted) (l := [.userinit 2 fun _ => 0])
    (p := fun s => ((machine.step s (.swtch false 2 0 0)).map fun s₁ => decide
      (s.thread false = 0 ∧ isUser (s₁.regs true).cs = false ∧ 4 ≤ (s₁.regs true).sp ∧
        (s₁.regs true).sp + (base (s₁.acts (s₁.thread true))).length < 1024)) == some true)
    booted_init (by decide +kernel)
  simp only [beq_iff_eq, Option.map_eq_some_iff, decide_eq_true_eq] at htest
  obtain ⟨s₁, h₁, hthread, hkernel, hroom, hframe⟩ := htest
  obtain ⟨s₂, h₂, hthread₂, hregs, -⟩ :=
    swtch_returns hs h₁ (.init rfl) hkernel hroom hframe 0 0
  rw [hthread] at h₂ hthread₂
  exact ⟨s, s₁, s₂, h₁, h₂, hthread₂, by rw [hregs], by rw [hregs]⟩

end OsWork.Ports.TrapFrames

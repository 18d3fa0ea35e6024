import OsWork.Ports.FileTableCalls

/-!
# What the counts are worth

When no call is in progress, the references of a `struct file` are its descriptors.  The page of a
pipe is kept as long as a descriptor refers to one of its ends, or a call has an end in its hands,
and no longer.

## Main results

* `Inv.quiet_ref` — the references of a file are its descriptors.
* `Inv.live_iff` — the page of a pipe is there as long as someone has an end.
* `Inv.free` — who frees a page frees it after the last descriptor.
-/

namespace OsWork.Ports.FileTable

open OsWork.Verified.Shares OsWork.Verified.Transition

variable {P : Type} {s t : State P} {p : P} {page : Nat}

namespace State

variable (s : State P)

/-- No call is in progress. -/
def Quiet : Prop := ∀ p, s.pc p = .user

/-- The descriptors of all processes that point to the file. -/
def slots [Fintype P] (f : FileId) : Nat :=
  ∑ p, (Finset.univ.filter fun fd => s.ofile p fd = some f).card

/-- The file is an end of the pipe on the page. -/
def OnPage (f : FileId) (page : Nat) : Prop :=
  (s.file f).type = .pipe ∧ (s.file f).pipe = page

/-- The descriptor refers to an end of the pipe on the page. -/
def RefersTo (p : P) (fd : Fd) (page : Nat) : Prop := ∃ f, s.ofile p fd = some f ∧ s.OnPage f page

/-- A call of the process has an end of the pipe on the page in its hands. -/
def Holds (p : P) (page : Nat) : Prop :=
  (∃ w, (page, w) ∈ (s.pc p).pending) ∨ ∃ f ∈ (s.pc p).hold, s.OnPage f page

end State

theorem State.Quiet.not_holds (h : s.Quiet) : ¬ s.Holds p page := by
  rintro (⟨w, hw⟩ | ⟨f, hf, -⟩)
  · rw [h p] at hw
    exact List.not_mem_nil hw
  · rw [h p] at hf
    exact List.not_mem_nil hf

section Invariant

variable [Fintype P]

theorem Inv.quiet_ref (h : Inv s) (hquiet : s.Quiet) (f : FileId) :
    (s.file f).ref = s.slots f := by
  refine (h.refs f).trans (Finset.sum_congr rfl fun p _ => ?_)
  unfold State.share slotCount
  rw [hquiet p]
  show (Finset.univ.filter (Counts (s.ofile p) none f)).card + 0 = _
  rw [Nat.add_zero]
  refine congrArg Finset.card (Finset.ext fun fd => ?_)
  simp only [Finset.mem_filter, Counts, ne_eq, reduceCtorEq, not_false_eq_true, and_true]

/-- A file in use has a descriptor or is in the hands of a call. -/
theorem Inv.ref_holder {f : FileId} (h : Inv s) (hpos : 0 < (s.file f).ref) :
    (∃ p fd, s.ofile p fd = some f) ∨ ∃ p, f ∈ (s.pc p).hold := by
  obtain ⟨p, hp⟩ := h.refs.holder hpos
  by_cases hslot : 0 < slotCount (s.ofile p) (s.pc p).skip f
  · obtain ⟨fd, hfd⟩ := Finset.card_pos.mp hslot
    exact .inl ⟨p, fd, (Finset.mem_filter.mp hfd).2.1⟩
  · right
    refine ⟨p, List.count_pos_iff.mp ?_⟩
    unfold State.share at hp
    omega

/-- Some end of a pipe is open, and it belongs to someone. -/
theorem Inv.live_holder {π : Pipe} (h : Inv s) (hpage : s.pipe page = some π) :
    (∃ p fd, s.RefersTo p fd page) ∨ ∃ p, s.Holds p page := by
  obtain ⟨w, hw⟩ : ∃ w, π.isOpen w = true := by
    rcases h.live page π hpage with hread | hwrite
    · exact ⟨false, hread⟩
    · exact ⟨true, hwrite⟩
  have hpos : 0 < s.opened (page, w) := by
    unfold State.opened
    simp only [hpage, hw]
    exact Nat.one_pos
  obtain ⟨c, hc⟩ := h.ends.holder hpos
  cases c with
  | inl p => exact .inr ⟨p, .inl ⟨w, List.count_pos_iff.mp hc⟩⟩
  | inr f =>
      have hend : (s.file f).IsEnd (page, w) := by
        by_contra hnot
        exact absurd ((if_neg hnot).symm.trans_gt hc) (Nat.lt_irrefl 0)
      have href : 0 < (s.file f).ref := by
        by_contra hzero
        have hnone := h.unused f (by omega)
        rw [hend.1] at hnone
        cases hnone
      rcases h.ref_holder href with ⟨p, fd, hfd⟩ | ⟨p, hp⟩
      · exact .inl ⟨p, fd, f, hfd, hend.1, hend.2.1⟩
      · exact .inr ⟨p, .inr ⟨f, hp, hend.1, hend.2.1⟩⟩

/-- An end that someone has is open. -/
theorem Inv.end_live {w : Bool} {c : P ⊕ FileId} (h : Inv s) (hpos : 0 < s.ends c (page, w)) :
    (s.pipe page).isSome := by
  have hle : s.ends c (page, w) ≤ s.opened (page, w) := h.ends.le
  unfold State.opened at hle
  cases hpage : s.pipe page with
  | none =>
      rw [hpage] at hle
      exact absurd (Nat.lt_of_lt_of_le hpos hle) (Nat.lt_irrefl 0)
  | some π => rfl

theorem Inv.onPage_live {f : FileId} (h : Inv s) (hf : s.OnPage f page) :
    (s.pipe page).isSome := by
  have hend : (s.file f).IsEnd (page, (s.file f).writable) := ⟨hf.1, hf.2, rfl⟩
  refine h.end_live (w := (s.file f).writable) (c := .inr f) ?_
  show 0 < if (s.file f).IsEnd (page, (s.file f).writable) then 1 else 0
  rw [if_pos hend]
  exact Nat.one_pos

theorem Inv.live_iff (h : Inv s) (page : Nat) :
    (s.pipe page).isSome ↔ (∃ p fd, s.RefersTo p fd page) ∨ ∃ p, s.Holds p page := by
  constructor
  · intro hlive
    obtain ⟨π, hπ⟩ := Option.isSome_iff_exists.mp hlive
    exact h.live_holder hπ
  · rintro (⟨p, fd, f, -, hf⟩ | ⟨p, ⟨w, hw⟩ | ⟨f, -, hf⟩⟩)
    · exact h.onPage_live hf
    · exact h.end_live (w := w) (c := .inl p) (List.count_pos_iff.mpr hw)
    · exact h.onPage_live hf

variable [DecidableEq P]

/-! ## The step that frees a page -/

omit [Fintype P] in
theorem filedup_kfrees {f : FileId} {pc : Pc P} : (s.filedup p f pc).kfrees = s.kfrees := by
  unfold State.filedup
  split <;> rfl

omit [Fintype P] in
theorem fileclose_kfrees {f : FileId} {next : Next} :
    (s.fileclose p f next).kfrees = s.kfrees := by
  unfold State.fileclose
  simp only
  split
  · rfl
  · split <;> rfl

omit [Fintype P] in
/-- Only `pipeclose` frees pages. -/
theorem kfrees_step {a : Act P} (hstep : s.step a = some t) :
    t.kfrees = s.kfrees ∨ ∃ p k page w next, a = .run p k ∧ s.pc p = .pipeclose page w next ∧
      t = s.pipeclose p page w next := by
  cases a with
  | call p c =>
      left
      simp only [State.step, State.call] at hstep
      repeat' split at hstep
      all_goals cases hstep <;> rfl
  | run p k =>
      simp only [State.step] at hstep
      unfold State.run at hstep
      cases hpc : s.pc p with
      | pipeclose page w next =>
          simp only [hpc] at hstep
          cases hstep
          exact .inr ⟨p, k, page, w, next, rfl, hpc, rfl⟩
      | fileclose f next =>
          simp only [hpc] at hstep
          cases hstep
          exact .inl fileclose_kfrees
      | dupRef f fd =>
          simp only [hpc] at hstep
          cases hstep
          exact .inl filedup_kfrees
      | fork np i =>
          left
          simp only [hpc] at hstep
          split at hstep
          · split at hstep
            · cases hstep
              rfl
            · cases hstep
              exact filedup_kfrees
          · cases hstep
            rfl
      | _ =>
          left
          simp only [hpc] at hstep
          repeat' split at hstep
          all_goals cases hstep <;> rfl
  | wait p =>
      left
      simp only [State.step] at hstep
      split at hstep
      · cases hstep
        rfl
      · cases hstep

/-- Who frees a page has the last of it. -/
theorem Inv.free {a : Act P} (h : Inv s) (hstep : s.step a = some t)
    (hfree : t.kfrees page ≠ s.kfrees page) :
    (∃ p k w next, a = .run p k ∧ s.pc p = .pipeclose page w next) ∧
      t.kfrees page = s.kfrees page + 1 ∧ ∀ f, ¬ s.OnPage f page := by
  rcases kfrees_step hstep with hsame | ⟨p, k, page', w, next, rfl, hpc, rfl⟩
  · exact absurd (congrFun hsame page) hfree
  · obtain ⟨π, hpage, hopen⟩ := h.pending_open hpc
    rw [pipeclose_some hpage] at hfree ⊢
    simp only at hfree ⊢
    have hpp : page = page' := by
      by_contra hne
      exact hfree (Function.update_of_ne hne _ _)
    rw [← hpp] at hpc hpage hfree ⊢
    rw [Function.update_self] at hfree ⊢
    have hleft : (π.close w).left = none := by
      cases hleft : (π.close w).left with
      | none => rfl
      | some π' =>
          rw [hleft] at hfree
          exact absurd rfl hfree
    refine ⟨⟨p, k, w, next, rfl, hpc⟩, by rw [hleft]; rfl, ?_⟩
    rintro f ⟨hpipe, hon⟩
    -- the end that the process closes is its own, and the other end is closed
    obtain ⟨v, hv⟩ : ∃ v, v = (s.file f).writable := ⟨_, rfl⟩
    have hend : s.ends (.inr f) (page, v) = 1 := if_pos ⟨hpipe, hon, hv.symm⟩
    have hclosed : 0 = (π.isOpen v && v != w).toNat := by
      have hopen := Pipe.left_open (π.close w) v
      rwa [hleft, Pipe.isOpen_close] at hopen
    have hopened : s.opened (page, v) = (π.isOpen v).toNat := by
      unfold State.opened
      simp only [hpage]
    by_cases hvw : v = w
    · have hmine : s.ends (.inl p) (page, v) = 1 := by
        show (s.pc p).pending.count (page, v) = 1
        rw [hpc, hvw]
        exact List.count_singleton_self
      have hle := h.ends.two_le (a := .inl p) (b := .inr f) (r := (page, v)) nofun
      have htoNat := Bool.toNat_le (π.isOpen v)
      omega
    · have hle : s.ends (.inr f) (page, v) ≤ s.opened (page, v) := h.ends.le
      rw [bne_iff_ne.mpr hvw, Bool.and_true] at hclosed
      omega

end Invariant

/-! ## All runs -/

variable [Fintype P] [DecidableEq P]

/-- The references to the open files, and the pages of the pipes. -/
theorem files_balance {p0 : P} (h : (kernel p0).Reachable s) :
    (∀ p e, s.pc p ≠ .panic e) ∧
      (s.Quiet → ∀ f, (s.file f).ref = s.slots f) ∧
      (∀ page, (s.pipe page).isSome ↔
        (∃ p fd, s.RefersTo p fd page) ∨ ∃ p, s.Holds p page) ∧
      (s.Quiet → ∀ page, (s.pipe page).isSome ↔ ∃ p fd, s.RefersTo p fd page) ∧
      (∀ page, s.kallocs page = s.kfrees page + if (s.pipe page).isSome then 1 else 0) ∧
      ∀ a t page, (kernel p0).step s a = some t → t.kfrees page ≠ s.kfrees page →
        (∃ p k w next, a = .run p k ∧ s.pc p = .pipeclose page w next) ∧
          t.kfrees page = s.kfrees page + 1 ∧ ∀ p fd, ¬ s.RefersTo p fd page := by
  have hinv := inv_of_reachable h
  refine ⟨hinv.safe, hinv.quiet_ref, hinv.live_iff, ?_, hinv.pages, ?_⟩
  · intro hquiet page
    refine (hinv.live_iff page).trans (or_iff_left ?_)
    rintro ⟨p, hp⟩
    exact hquiet.not_holds hp
  · intro a t page hstep hfree
    obtain ⟨hclose, hone, hnone⟩ := hinv.free hstep hfree
    exact ⟨hclose, hone, fun p fd ⟨f, _, hf⟩ => hnone f hf⟩

instance : NeZero NFILE := ⟨by decide⟩

instance : NeZero NOFILE := ⟨by decide⟩

/-- A pipe of which one end has been closed, and the other end is open twice. -/
theorem files_balance_pipe : ∃ s, (kernel (0 : Fin 1)).Reachable s ∧
    ((s.file 0).ref = 2 ∧ (s.file 1).ref = 0 ∧ s.kallocs 7 = 1) ∧
      (s.Quiet → ∀ f, (s.file f).ref = s.slots f) := by
  obtain ⟨s, hs, htest⟩ := System.exists_reachable_of_run (M := kernel (0 : Fin 1))
    (s := boot 0) (l := [.call 0 .pipe, .run 0 none, .run 0 none, .run 0 (some 7), .run 0 none,
      .run 0 none, .run 0 none, .call 0 (.dup 0), .run 0 none, .run 0 none, .call 0 (.close 1),
      .run 0 none, .run 0 none, .run 0 none])
    (p := fun s => decide ((s.file 0).ref = 2 ∧ (s.file 1).ref = 0 ∧ s.kallocs 7 = 1)) rfl
    (by decide +kernel)
  exact ⟨s, hs, of_decide_eq_true htest, (files_balance hs).2.1⟩

end OsWork.Ports.FileTable

import OsWork.Ports.FileTableRefs

/-!
# The calls and the references

Each step of `open`, `dup`, `pipe`, `close`, `fork` and `exit` keeps the references to the open
files, and the ends of the pipes.

## Main results

* `Inv.fileclose`, `Inv.pipeclose` — what a close takes away.
* `Inv.forkSet` — a reference goes from a process to its child.
* `Inv.step` — every step keeps the invariant.
-/

namespace OsWork.Ports.FileTable

open OsWork.Verified.Shares OsWork.Verified.Transition
open Function (update)

variable {P : Type} {s t : State P} {p q np : P} {i : Nat} {f : FileId} {fd : Fd}

section Calls

variable [Fintype P] [DecidableEq P] {pc : Pc P}

/-! ### `fileclose` -/

variable {next : Next}

omit [DecidableEq P] in
/-- The references of the process after the `fileclose`. -/
theorem Inv.close_share (h : Inv s) (hpc : s.pc p = .fileclose f next) (hskip : pc.skip = next.skip)
    (hhold : pc.hold = next.hold) (g : FileId) :
    slotCount (s.ofile p) pc.skip g + pc.hold.count g + (if f = g then 1 else 0) = s.share p g := by
  have hhere := h.here p
  rw [hpc] at hhere
  unfold State.share
  rw [hpc, hskip, hhold]
  cases next with
  | done =>
      show slotCount (s.ofile p) none g + List.count g [] + _ =
        slotCount (s.ofile p) none g + [f].count g
      rw [List.count_cons]
      simp only [beq_iff_eq]
      omega
  | close f' =>
      show slotCount (s.ofile p) none g + [f'].count g + _ =
        slotCount (s.ofile p) none g + [f, f'].count g
      rw [List.count_cons (l := [f'])]
      simp only [beq_iff_eq]
      omega
  | exitClear fd =>
      have hcount := slotCount_skip (s.ofile p) g fd
      rw [hhere.1] at hcount
      simp only [Option.some.injEq] at hcount
      show slotCount (s.ofile p) (some fd) g + 0 + _ = slotCount (s.ofile p) none g + 0
      omega

theorem Inv.fileclose (h : Inv s) (hpc : s.pc p = .fileclose f next) :
    Inv (s.fileclose p f next) := by
  have hrun := h.running p (by rw [hpc]; exact nofun)
  have hhere := h.here p
  rw [hpc] at hhere
  have hnext : next.Ok (s.ofile p) := by
    cases next with
    | done => exact trivial
    | close g => exact trivial
    | exitClear fd => exact hhere.2
  have hshare : ∀ g, slotCount (s.ofile p) (next.pc : Pc P).skip g + (next.pc : Pc P).hold.count g +
      (if f = g then 1 else 0) = s.share p g :=
    h.close_share hpc (by cases next <;> rfl) (by cases next <;> rfl)
  have hpos : 0 < s.share p f := by
    have hself := hshare f
    rw [if_pos rfl] at hself
    omega
  have hle : s.share p f ≤ (s.file f).ref := h.refs.le
  have hnone : (s.pc p).pending = [] := by rw [hpc]; rfl
  unfold State.fileclose
  simp only
  rw [if_neg (by omega)]
  split
  · refine h.setRef hrun (by omega) (.inr hpos) ?_ ?_ ?_ (Next.pc_ok hnext) ?_ ?_
    · intro g
      have hg := hshare g
      by_cases hgf : g = f
      · rw [if_pos hgf.symm] at hg
        rw [if_pos hgf, hgf]
        rw [hgf] at hg
        unfold State.refs
        omega
      · rw [if_neg (Ne.symm hgf)] at hg
        rw [if_neg hgf]
        omega
    · rw [hnone]
      cases next <;> rfl
    · cases next <;> exact fun g hg => absurd hg List.not_mem_nil
    · cases next <;> exact nofun
    · cases next <;> exact nofun
  · have hone : (s.file f).ref = 1 := by omega
    cases htype : (s.file f).type with
    | none =>
        refine h.closeLast hrun hone hpos hshare hnone ?_ ?_ (Next.pc_ok hnext) ?_ ?_
        · intro e
          rw [if_neg (File.not_isEnd (by rw [htype]; exact nofun) e)]
          cases next <;> rfl
        · cases next <;> rfl
        · cases next <;> rfl
        · cases next <;> exact nofun
    | pipe =>
        refine h.closeLast hrun hone hpos (h.close_share hpc rfl rfl) hnone ?_ rfl hnext rfl nofun
        intro e
        show [((s.file f).pipe, (s.file f).writable)].count e = _
        rw [List.count_singleton]
        unfold File.IsEnd
        simp only [htype, true_and, beq_iff_eq, Prod.ext_iff]
    | inode =>
        refine h.closeLast hrun hone hpos (h.close_share hpc rfl rfl) hnone ?_ rfl hnext rfl nofun
        intro e
        rw [if_neg (File.not_isEnd (by rw [htype]; exact nofun) e)]
        rfl

/-- The fields that `sys_open` sets. -/
theorem Inv.openSet {ip omode : Nat} (h : Inv s) (hpc : s.pc p = .openSet f ip omode) :
    Inv ((s.setFile f (s.openFile f ip omode)).goto p .user) := by
  have hrun := h.running p (by rw [hpc]; exact nofun)
  have hmem : f ∈ (s.pc p).fresh := by
    rw [hpc]
    exact List.mem_singleton.mpr rfl
  obtain ⟨hone, hnone⟩ := h.fresh p f hmem
  have hself : update s.file f (s.openFile f ip omode) f = s.openFile f ip omode :=
    Function.update_self _ _ _
  have hother : ∀ g, g ≠ f → update s.file f (s.openFile f ip omode) g = s.file g :=
    fun g hg => Function.update_of_ne hg _ _
  have hpending : (s.pc p).pending = [] := by rw [hpc]; rfl
  apply h.plain hrun Moved.refl.setFile.goto rfl rfl rfl
  · intro g
    rw [share_goto]
    show (update s.file f (s.openFile f ip omode) g).ref + s.share p g =
      (s.file g).ref + (slotCount (s.ofile p) none g + 0)
    have hshare : s.share p g = slotCount (s.ofile p) none g + 0 := by
      unfold State.share
      rw [hpc]
      rfl
    rw [hshare]
    by_cases hg : g = f
    · rw [hg, hself]
      rfl
    · rw [hother g hg]
  · rw [goto_pc, hpending]
    rfl
  · intro g e
    show (update s.file f (s.openFile f ip omode) g).IsEnd e ↔ _
    by_cases hg : g = f
    · rw [hg, hself]
      exact iff_of_false (File.not_isEnd (show FileType.inode ≠ .pipe from nofun) e)
        (File.not_isEnd (by rw [hnone]; exact nofun) e)
    · rw [hother g hg]
  · intro g hne
    by_cases hg : g = f
    · rw [hg]
      exact .inr (h.fresh_share hmem)
    · exact absurd (hother g hg) hne
  · intro g hzero
    have hzero' : (update s.file f (s.openFile f ip omode) g).ref = 0 := hzero
    show (update s.file f (s.openFile f ip omode) g).type = .none
    by_cases hg : g = f
    · rw [hg, hself] at hzero'
      exact absurd (hone.symm.trans hzero') nofun
    · rw [hother g hg] at hzero' ⊢
      exact h.unused g hzero'
  · rw [goto_pc]
    exact fun g hg => absurd hg List.not_mem_nil
  · rw [goto_pc]
    exact trivial
  · rw [goto_pc]
    exact nofun
  · rw [goto_pc]
    exact nofun

/-! ### Pipes -/

/-- `kalloc` has returned a page for a pipe. -/
theorem Inv.pipealloc {f0 f1 : FileId} {page : Nat} (h : Inv s) (hpc : s.pc p = .pipePage f0 f1)
    (hpage : s.pipe page = none) : Inv (s.pipealloc p f0 f1 page) := by
  have hrun := h.running p (by rw [hpc]; exact nofun)
  have hgoto : (s.pipealloc p f0 f1 page).pc p = .pipeSet f0 f1 page := Function.update_self _ _ _
  have hm : Moved s p (s.pipealloc p f0 f1 page) :=
    ⟨fun _ _ => rfl, fun q hq => Function.update_of_ne hq _ _, rfl⟩
  have hother : ∀ x, x ≠ page → (s.pipealloc p f0 f1 page).pipe x = s.pipe x :=
    fun x hx => Function.update_of_ne hx _ _
  have hself : (s.pipealloc p f0 f1 page).pipe page =
      some { readopen := true, writeopen := true } := Function.update_self _ _ _
  apply h.move hrun hm
  · intro f
    have hshare : (s.pipealloc p f0 f1 page).share p f = s.share p f := by
      unfold State.share
      rw [hgoto, hpc]
      rfl
    rw [hshare]
    rfl
  · refine h.ends.step (.inl p) ?_ ?_
    · intro c hc
      funext e
      cases c with
      | inl q =>
          have hq : q ≠ p := fun heq => hc (by rw [heq])
          show ((s.pipealloc p f0 f1 page).pc q).pending.count e = (s.pc q).pending.count e
          rw [hm.pc q hq]
      | inr f => rfl
    · rintro ⟨x, w⟩
      show (s.pipealloc p f0 f1 page).opened (x, w) + (s.pc p).pending.count (x, w) =
        s.opened (x, w) + ((s.pipealloc p f0 f1 page).pc p).pending.count (x, w)
      rw [hgoto, hpc]
      unfold State.opened
      by_cases hx : x = page
      · simp only [hx, hself, hpage]
        cases w <;> simp [Pc.pending, Pipe.isOpen]
      · simp only [hother x hx]
        simp [Pc.pending, Ne.symm hx]
  · intro x π hπ
    by_cases hx : x = page
    · rw [hx, hself, Option.some.injEq] at hπ
      rw [← hπ]
      exact .inl rfl
    · rw [hother x hx] at hπ
      exact h.live x π hπ
  · intro x
    have hold := h.pages x
    show update s.kallocs page (s.kallocs page + 1) x = s.kfrees x + _
    by_cases hx : x = page
    · rw [hx, hpage] at hold
      rw [hx, hself, Function.update_self]
      simp only [Option.isSome_none, Option.isSome_some, Bool.false_eq_true, if_false, if_true] at *
      omega
    · rw [Function.update_of_ne hx, hother x hx]
      exact hold
  · exact fun f hne => absurd rfl hne
  · exact h.unused
  · rw [hgoto]
    intro f hf
    exact h.fresh p f (by rw [hpc]; exact hf)
  · rw [hgoto]
    exact trivial
  · rw [hgoto]
    intro np i hc
    cases hc
  · rw [hgoto]
    intro e he
    cases he

/-- The fields that `pipealloc` sets in the files. -/
theorem Inv.pipeSet {f0 f1 : FileId} {page : Nat} (h : Inv s) (hpc : s.pc p = .pipeSet f0 f1 page) :
    Inv (((s.setFile f0 (s.pipeFile f0 page false)).setFile f1
      ((s.setFile f0 (s.pipeFile f0 page false)).pipeFile f1 page true)).goto p
        (.pipeFd0 f0 f1)) := by
  have hrun := h.running p (by rw [hpc]; exact nofun)
  have hfresh : (s.pc p).fresh = [f0, f1] := by rw [hpc]; rfl
  have hmem0 : f0 ∈ (s.pc p).fresh := by rw [hfresh]; exact List.mem_cons_self
  have hmem1 : f1 ∈ (s.pc p).fresh := by rw [hfresh]; simp
  obtain ⟨hone0, hnone0⟩ := h.fresh p f0 hmem0
  obtain ⟨hone1, hnone1⟩ := h.fresh p f1 hmem1
  have hne : f1 ≠ f0 := by
    intro heq
    have hle : s.share p f0 ≤ (s.file f0).ref := h.refs.le
    unfold State.share at hle
    rw [hpc] at hle
    have htwo : (Pc.pipeSet f0 f1 page : Pc P).hold.count f0 = 2 := by
      rw [heq]
      simp [Pc.hold]
    omega
  obtain ⟨t, ht⟩ : ∃ t, t = ((s.setFile f0 (s.pipeFile f0 page false)).setFile f1
      ((s.setFile f0 (s.pipeFile f0 page false)).pipeFile f1 page true)).goto p
        (.pipeFd0 f0 f1) := ⟨_, rfl⟩
  rw [← ht]
  have hfile : t.file = update (update s.file f0 (s.pipeFile f0 page false)) f1
      ((s.setFile f0 (s.pipeFile f0 page false)).pipeFile f1 page true) := by rw [ht]; rfl
  have ht0 : t.file f0 = s.pipeFile f0 page false := by
    rw [hfile, Function.update_of_ne (Ne.symm hne), Function.update_self]
  have ht1 : t.file f1 = s.pipeFile f1 page true := by
    have hcongr : ∀ u : State P, u.file f1 = s.file f1 →
        u.pipeFile f1 page true = s.pipeFile f1 page true := by
      intro u hu
      unfold State.pipeFile
      rw [hu]
    rw [hfile, Function.update_self]
    exact hcongr _ (Function.update_of_ne hne _ _)
  have hother : ∀ g, g ≠ f0 → g ≠ f1 → t.file g = s.file g := by
    intro g hg0 hg1
    rw [hfile, Function.update_of_ne hg1, Function.update_of_ne hg0]
  have hm : Moved s p t := by
    rw [ht]
    exact Moved.refl.setFile.setFile.goto
  have hgoto : t.pc p = .pipeFd0 f0 f1 := by
    rw [ht]
    exact goto_pc
  have hshare : t.share p = s.share p := by
    funext g
    unfold State.share
    rw [hgoto, hpc, ht]
    rfl
  have href : ∀ g, (t.file g).ref = (s.file g).ref := by
    intro g
    by_cases hg0 : g = f0
    · rw [hg0, ht0]
      rfl
    · by_cases hg1 : g = f1
      · rw [hg1, ht1]
        rfl
      · rw [hother g hg0 hg1]
  apply h.move hrun hm
  · intro g
    unfold State.refs
    rw [href g, hshare]
  · refine h.ends.some {.inl p, .inr f0, .inr f1} ?_ ?_
    · intro c hc
      simp only [Finset.mem_insert, Finset.mem_singleton, not_or] at hc
      funext e
      cases c with
      | inl q =>
          show (t.pc q).pending.count e = (s.pc q).pending.count e
          rw [hm.pc q fun heq => hc.1 (by rw [heq])]
      | inr g =>
          show (if (t.file g).IsEnd e then 1 else 0) = if (s.file g).IsEnd e then 1 else 0
          rw [hother g (fun heq => hc.2.1 (by rw [heq])) fun heq => hc.2.2 (by rw [heq])]
    · intro e
      have hdistinct : (Sum.inr f0 : P ⊕ FileId) ≠ .inr f1 := fun heq => hne (Sum.inr.inj heq).symm
      have hopened : t.opened e = s.opened e := by
        rw [ht]
        rfl
      rw [Finset.sum_insert (by simp), Finset.sum_pair hdistinct, Finset.sum_insert (by simp),
        Finset.sum_pair hdistinct, hopened]
      show _ + ((s.pc p).pending.count e + ((if (s.file f0).IsEnd e then 1 else 0) +
        if (s.file f1).IsEnd e then 1 else 0)) = _ + ((t.pc p).pending.count e +
          ((if (t.file f0).IsEnd e then 1 else 0) + if (t.file f1).IsEnd e then 1 else 0))
      rw [if_neg (File.not_isEnd (by rw [hnone0]; exact nofun) e),
        if_neg (File.not_isEnd (by rw [hnone1]; exact nofun) e), hgoto, hpc, ht0, ht1]
      have hend : ∀ f w, (if (s.pipeFile f page w).IsEnd e then 1 else 0) =
          if (page, w) = e then 1 else 0 := by
        intro f w
        unfold File.IsEnd State.pipeFile
        simp only [true_and, Prod.ext_iff]
      rw [hend, hend]
      simp only [Pc.pending, List.count_cons, List.count_nil, beq_iff_eq]
      omega
  · rw [ht]
    exact h.live
  · rw [ht]
    exact h.pages
  · intro g hg
    right
    apply h.fresh_share
    by_contra hnot
    rw [hfresh] at hnot
    simp only [List.mem_cons, List.not_mem_nil, or_false, not_or] at hnot
    exact hg (hother g hnot.1 hnot.2)
  · intro g hzero
    rw [href g] at hzero
    by_cases hg0 : g = f0
    · rw [hg0, hone0] at hzero
      cases hzero
    · by_cases hg1 : g = f1
      · rw [hg1, hone1] at hzero
        cases hzero
      · rw [hother g hg0 hg1]
        exact h.unused g hzero
  · rw [hgoto]
    exact fun g hg => absurd hg List.not_mem_nil
  · rw [hgoto]
    exact trivial
  · rw [hgoto]
    exact nofun
  · rw [hgoto]
    exact nofun

omit [DecidableEq P] in
/-- An end that a process is about to close is open. -/
theorem Inv.pending_open {page : Nat} {writable : Bool} (h : Inv s)
    (hpc : s.pc p = .pipeclose page writable next) :
    ∃ π, s.pipe page = some π ∧ π.isOpen writable = true := by
  have hle : s.ends (.inl p) (page, writable) ≤ s.opened (page, writable) := h.ends.le
  have hone : s.ends (.inl p) (page, writable) = 1 := by
    show (s.pc p).pending.count (page, writable) = 1
    rw [hpc]
    exact List.count_singleton_self
  rw [hone] at hle
  unfold State.opened at hle
  cases hpage : s.pipe page with
  | none =>
      rw [hpage] at hle
      exact absurd hle nofun
  | some π =>
      rw [hpage] at hle
      refine ⟨π, rfl, ?_⟩
      cases hopen : π.isOpen writable with
      | false =>
          simp only [hopen] at hle
          exact absurd hle nofun
      | true => rfl

omit [Fintype P] in
/-- `pipeclose` frees the page when nothing is left of the pipe. -/
theorem pipeclose_some {page : Nat} {writable : Bool} {π : Pipe} (hpage : s.pipe page = some π) :
    s.pipeclose p page writable next =
      { s with
        pipe := update s.pipe page (π.close writable).left
        kfrees := update s.kfrees page
          (s.kfrees page + if (π.close writable).left.isSome then 0 else 1)
        pc := update s.pc p next.pc } := by
  unfold State.pipeclose Pipe.left
  simp only [hpage]
  split
  · rfl
  · simp

/-- `pipeclose` closes an end that the process has. -/
theorem Inv.pipeclose {page : Nat} {writable : Bool} (h : Inv s)
    (hpc : s.pc p = .pipeclose page writable next) : Inv (s.pipeclose p page writable next) := by
  obtain ⟨π, hpage, hopen⟩ := h.pending_open hpc
  have hrun := h.running p (by rw [hpc]; exact nofun)
  have hhere := h.here p
  rw [hpc] at hhere
  rw [pipeclose_some hpage]
  obtain ⟨t, ht⟩ : ∃ t, t = ({ s with
      pipe := update s.pipe page (π.close writable).left
      kfrees := update s.kfrees page
        (s.kfrees page + if (π.close writable).left.isSome then 0 else 1)
      pc := update s.pc p next.pc } : State P) := ⟨_, rfl⟩
  rw [← ht]
  have hself : t.pipe page = (π.close writable).left := by
    rw [ht]
    exact Function.update_self _ _ _
  have hother : ∀ x, x ≠ page → t.pipe x = s.pipe x := by
    intro x hx
    rw [ht]
    exact Function.update_of_ne hx _ _
  have hgoto : t.pc p = next.pc := by
    rw [ht]
    exact Function.update_self _ _ _
  have hfile : t.file = s.file := by rw [ht]
  have hofile : t.ofile = s.ofile := by rw [ht]
  have hm : Moved s p t := by
    rw [ht]
    exact ⟨fun _ _ => rfl, fun q hq => Function.update_of_ne hq _ _, rfl⟩
  apply h.move hrun hm
  · intro g
    have hshare : t.share p g = s.share p g := by
      unfold State.share
      rw [hgoto, hpc, hofile]
      cases next <;> rfl
    unfold State.refs
    rw [hfile, hshare]
  · refine h.ends.step (.inl p) ?_ ?_
    · intro c hc
      funext e
      cases c with
      | inl q =>
          have hq : q ≠ p := fun heq => hc (by rw [heq])
          show (t.pc q).pending.count e = (s.pc q).pending.count e
          rw [hm.pc q hq]
      | inr f =>
          show (if (t.file f).IsEnd e then 1 else 0) = if (s.file f).IsEnd e then 1 else 0
          rw [hfile]
    · rintro ⟨x, w⟩
      show t.opened (x, w) + (s.pc p).pending.count (x, w) =
        s.opened (x, w) + (t.pc p).pending.count (x, w)
      have hnone : (t.pc p).pending = [] := by
        rw [hgoto]
        cases next <;> rfl
      have hone : (s.pc p).pending = [(page, writable)] := by rw [hpc]; rfl
      rw [hnone, hone, List.count_singleton, List.count_nil]
      unfold State.opened
      by_cases hx : x = page
      · simp only [hx, hself, hpage, Pipe.left_open, Pipe.isOpen_close]
        by_cases hw : w = writable
        · simp [hw, hopen]
        · simp [bne_iff_ne.mpr hw, Ne.symm hw]
      · simp [hother x hx, Ne.symm hx]
  · intro x σ hσ
    by_cases hx : x = page
    · rw [hx, hself] at hσ
      exact Pipe.left_some hσ
    · rw [hother x hx] at hσ
      exact h.live x σ hσ
  · intro x
    have hold := h.pages x
    rw [ht]
    show s.kallocs x = update s.kfrees page _ x + if (update s.pipe page _ x).isSome then 1 else 0
    by_cases hx : x = page
    · rw [hx, hpage] at hold
      rw [hx, Function.update_self, Function.update_self, hold]
      cases (π.close writable).left <;> simp
    · rw [Function.update_of_ne hx, Function.update_of_ne hx]
      exact hold
  · intro f hne
    rw [hfile] at hne
    exact absurd rfl hne
  · rw [hfile]
    exact h.unused
  · rw [hgoto]
    cases next <;> exact fun f hf => absurd hf List.not_mem_nil
  · rw [hgoto, hofile]
    exact Next.pc_ok hhere
  · rw [hgoto]
    cases next <;> exact nofun
  · rw [hgoto]
    cases next <;> exact nofun

/-! ### `fork`, `exit` and `wait` -/

/-- A process that is not running is not in a call. -/
theorem Inv.idle (h : Inv s) (hproc : s.proc q ≠ .running) : s.pc q = .user := by
  by_contra hne
  exact hproc (h.running q hne)

omit [DecidableEq P] in
/-- The process `p` has a new child, or the same child with more descriptors. -/
theorem Inv.apart_child {pc' : P → Pc P} {n : Nat} (h : Inv s)
    (hold : ∀ q np' i, (pc' q).child = some (np', i) →
      q = p ∧ np' = np ∧ i = n ∨ q ≠ p ∧ np' ≠ np ∧ (s.pc q).child = some (np', i)) :
    ∀ q q' np' i i', (pc' q).child = some (np', i) → (pc' q').child = some (np', i') → q = q' := by
  intro q q' np' i i' hc hc'
  rcases hold q np' i hc with ⟨hq, hnp', -⟩ | ⟨-, hnp', hq⟩
  · rcases hold q' np' i' hc' with ⟨hq', -, -⟩ | ⟨-, hno, -⟩
    · rw [hq, hq']
    · exact absurd hnp' hno
  · rcases hold q' np' i' hc' with ⟨-, hno, -⟩ | ⟨-, -, hq'⟩
    · exact absurd hno hnp'
    · exact h.apart q q' np' i i' hq hq'

/-- The states of the processes change, and the process goes on. -/
theorem Inv.setProc {proc' : P → ProcState} (h : Inv s) (hhold : pc.hold = (s.pc p).hold)
    (hskip : pc.skip = (s.pc p).skip) (hpending : pc.pending = (s.pc p).pending)
    (hfresh : pc.fresh = []) (hhere : pc.Ok (s.ofile p)) (hsafe : ∀ e, pc ≠ .panic e)
    (hrunning : ∀ q, update s.pc p pc q ≠ .user → proc' q = .running)
    (hgone : ∀ q, proc' q = .unused ∨ proc' q = .zombie → ∀ fd, s.ofile q fd = none)
    (hchild : ∀ q np i, (update s.pc p pc q).child = some (np, i) →
      proc' np = .embryo ∧ ∀ fd : Fd, i ≤ fd.val → s.ofile np fd = none)
    (hapart : ∀ q q' np i i', (update s.pc p pc q).child = some (np, i) →
      (update s.pc p pc q').child = some (np, i') → q = q') :
    Inv (({ s with proc := proc' } : State P).goto p pc) := by
  have hother : ∀ q, q ≠ p → update s.pc p pc q = s.pc q :=
    fun q hq => Function.update_of_ne hq _ _
  have hself : update s.pc p pc p = pc := Function.update_self _ _ _
  refine ⟨?_, ?_, h.live, h.pages, h.unused, ?_, ?_, hrunning, hgone, hchild, hapart, ?_⟩
  · refine h.refs.step p ?_ ?_
    · intro q hq
      funext f
      show slotCount (s.ofile q) (update s.pc p pc q).skip f + (update s.pc p pc q).hold.count f =
        s.share q f
      rw [hother q hq]
      rfl
    · intro f
      show s.refs f + s.share p f = s.refs f +
        (slotCount (s.ofile p) (update s.pc p pc p).skip f + (update s.pc p pc p).hold.count f)
      rw [hself, hskip, hhold]
      rfl
  · refine h.ends.step (.inl p) ?_ ?_
    · intro c hc
      funext e
      cases c with
      | inl q =>
          show (update s.pc p pc q).pending.count e = (s.pc q).pending.count e
          rw [hother q fun heq => hc (by rw [heq])]
      | inr f => rfl
    · intro e
      show s.opened e + _ = s.opened e + (update s.pc p pc p).pending.count e
      rw [hself, hpending]
      rfl
  · intro q f hf
    by_cases hq : q = p
    · rw [hq, goto_pc, hfresh] at hf
      exact absurd hf List.not_mem_nil
    · refine h.fresh q f ?_
      rw [← hother q hq]
      exact hf
  · intro q
    show (update s.pc p pc q).Ok (s.ofile q)
    by_cases hq : q = p
    · rw [hq, hself]
      exact hhere
    · rw [hother q hq]
      exact h.here q
  · intro q e
    show update s.pc p pc q ≠ .panic e
    by_cases hq : q = p
    · rw [hq, hself]
      exact hsafe e
    · rw [hother q hq]
      exact h.safe q e

/-- `allocproc` has found a process for the child. -/
theorem Inv.forkStart (h : Inv s) (hrun : s.proc p = .running) (hpc : s.pc p = .user)
    (hnp : s.proc np = .unused) :
    Inv (({ s with proc := update s.proc np .embryo } : State P).goto p (.fork np 0)) := by
  have hne : np ≠ p := by
    rintro rfl
    rw [hrun] at hnp
    cases hnp
  have hnot : ∀ q i, (s.pc q).child ≠ some (np, i) := by
    intro q i hc
    have hembryo := (h.child q np i hc).1
    rw [hnp] at hembryo
    cases hembryo
  have hold : ∀ q np' i, (update s.pc p (.fork np 0) q).child = some (np', i) →
      q = p ∧ np' = np ∧ i = 0 ∨ q ≠ p ∧ np' ≠ np ∧ (s.pc q).child = some (np', i) := by
    intro q np' i hc
    by_cases hq : q = p
    · rw [hq, Function.update_self] at hc
      cases hc
      exact .inl ⟨hq, rfl, rfl⟩
    · rw [Function.update_of_ne hq] at hc
      refine .inr ⟨hq, ?_, hc⟩
      rintro rfl
      exact hnot q i hc
  refine h.setProc (by rw [hpc]; rfl) (by rw [hpc]; rfl) (by rw [hpc]; rfl) rfl trivial nofun
    ?_ ?_ ?_ ?_
  · intro q hq
    have hqnp : q ≠ np := by
      rintro rfl
      rw [Function.update_of_ne hne] at hq
      exact hq (h.idle (by rw [hnp]; exact nofun))
    rw [Function.update_of_ne hqnp]
    by_cases hqp : q = p
    · rw [hqp]
      exact hrun
    · rw [Function.update_of_ne hqp] at hq
      exact h.running q hq
  · intro q hq
    have hqnp : q ≠ np := by
      rintro rfl
      rw [Function.update_self] at hq
      rcases hq with hq | hq <;> cases hq
    rw [Function.update_of_ne hqnp] at hq
    exact h.gone q hq
  · intro q np' i hc
    rcases hold q np' i hc with ⟨-, rfl, -⟩ | ⟨-, hnp', hc'⟩
    · rw [Function.update_self]
      exact ⟨rfl, fun fd _ => h.gone np' (.inl hnp) fd⟩
    · rw [Function.update_of_ne hnp']
      exact h.child q np' i hc'
  · exact h.apart_child hold

/-- The child gets a descriptor, and with it the reference that `filedup` has made. -/
theorem Inv.forkSet (h : Inv s) (hpc : s.pc p = .forkSet np fd f) :
    Inv ((s.setFd np fd (some f)).goto p (.fork np (fd.val + 1))) := by
  have hrun := h.running p (by rw [hpc]; exact nofun)
  have hchild : (s.pc p).child = some (np, fd.val) := by rw [hpc]; rfl
  obtain ⟨hembryo, hnone⟩ := h.child p np fd.val hchild
  have hne : p ≠ np := by
    rintro rfl
    rw [hrun] at hembryo
    cases hembryo
  have hidle : s.pc np = .user := h.idle (by rw [hembryo]; exact nofun)
  obtain ⟨t, ht⟩ : ∃ t, t = (s.setFd np fd (some f)).goto p (.fork np (fd.val + 1)) := ⟨_, rfl⟩
  rw [← ht]
  have hpcs : ∀ q, q ≠ p → t.pc q = s.pc q := by
    intro q hq
    rw [ht]
    exact Function.update_of_ne hq _ _
  have hgoto : t.pc p = .fork np (fd.val + 1) := by
    rw [ht]
    exact goto_pc
  have hofile : ∀ q, q ≠ np → t.ofile q = s.ofile q := by
    intro q hq
    rw [ht]
    exact Function.update_of_ne hq _ _
  have hnew : t.ofile np = update (s.ofile np) fd (some f) := by
    rw [ht]
    exact setFd_ofile
  have hproc : t.proc = s.proc := by
    rw [ht]
    rfl
  have hfile : t.file = s.file := by
    rw [ht]
    rfl
  have hold : ∀ q np' i, (t.pc q).child = some (np', i) →
      q = p ∧ np' = np ∧ i = fd.val + 1 ∨ q ≠ p ∧ np' ≠ np ∧ (s.pc q).child = some (np', i) := by
    intro q np' i hc
    by_cases hq : q = p
    · rw [hq, hgoto] at hc
      cases hc
      exact .inl ⟨hq, rfl, rfl⟩
    · rw [hpcs q hq] at hc
      refine .inr ⟨hq, ?_, hc⟩
      rintro rfl
      exact hq (h.apart q p np' i fd.val hc hchild)
  refine ⟨?_, ?_, ?_, ?_, ?_, ?_, ?_, ?_, ?_, ?_, ?_, ?_⟩
  · refine h.refs.pair hne ?_ ?_
    · intro q hq hqnp
      funext g
      unfold State.share
      rw [hpcs q hq, hofile q hqnp]
    · intro g
      have hcount := slotCount_update (s.ofile np) g fd (some f)
      rw [hnone fd (Nat.le_refl _)] at hcount
      unfold State.share State.refs
      rw [hpcs np (Ne.symm hne), hidle, hgoto, hpc, hofile p hne, hnew, hfile]
      simp only [Pc.skip, Pc.hold, List.count_nil, List.count_cons, beq_iff_eq,
        Option.some.injEq, reduceCtorEq, if_false] at hcount ⊢
      omega
  · refine h.ends.step (.inl p) ?_ ?_
    · intro c hc
      funext e
      cases c with
      | inl q =>
          show (t.pc q).pending.count e = (s.pc q).pending.count e
          rw [hpcs q fun heq => hc (by rw [heq])]
      | inr f =>
          show (if (t.file f).IsEnd e then 1 else 0) = if (s.file f).IsEnd e then 1 else 0
          rw [hfile]
    · intro e
      have hopened : t.opened e = s.opened e := by
        rw [ht]
        rfl
      show t.opened e + (s.pc p).pending.count e = s.opened e + (t.pc p).pending.count e
      rw [hopened, hgoto, hpc]
      rfl
  · rw [ht]
    exact h.live
  · rw [ht]
    exact h.pages
  · rw [hfile]
    exact h.unused
  · intro q g hg
    rw [hfile]
    by_cases hq : q = p
    · rw [hq, hgoto] at hg
      exact absurd hg List.not_mem_nil
    · rw [hpcs q hq] at hg
      exact h.fresh q g hg
  · intro q
    by_cases hq : q = p
    · rw [hq, hgoto]
      exact trivial
    · rw [hpcs q hq]
      by_cases hqnp : q = np
      · rw [hqnp, hidle]
        exact trivial
      · rw [hofile q hqnp]
        exact h.here q
  · intro q hq
    rw [hproc]
    by_cases hqp : q = p
    · rw [hqp]
      exact hrun
    · rw [hpcs q hqp] at hq
      exact h.running q hq
  · intro q hq
    rw [hproc] at hq
    have hqnp : q ≠ np := by
      rintro rfl
      rw [hembryo] at hq
      rcases hq with hq | hq <;> cases hq
    rw [hofile q hqnp]
    exact h.gone q hq
  · intro q np' i hc
    rw [hproc]
    rcases hold q np' i hc with ⟨-, rfl, rfl⟩ | ⟨-, hnp', hc'⟩
    · refine ⟨hembryo, fun fd' hle => ?_⟩
      have hfd : fd' ≠ fd := fun heq => by rw [heq] at hle; omega
      rw [hnew, Function.update_of_ne hfd]
      exact hnone fd' (by omega)
    · rw [hofile np' hnp']
      exact h.child q np' i hc'
  · exact h.apart_child hold
  · intro q e
    by_cases hq : q = p
    · rw [hq, hgoto]
      exact nofun
    · rw [hpcs q hq]
      exact h.safe q e

/-- The child can run. -/
theorem Inv.forkEnd (h : Inv s) (hpc : s.pc p = .fork np i) :
    Inv (({ s with proc := update s.proc np .running } : State P).goto p .user) := by
  have hrun := h.running p (by rw [hpc]; exact nofun)
  have hchild : (s.pc p).child = some (np, i) := by rw [hpc]; rfl
  have hold : ∀ q np' i', (update s.pc p .user q).child = some (np', i') →
      np' ≠ np ∧ (s.pc q).child = some (np', i') := by
    intro q np' i' hc
    by_cases hq : q = p
    · rw [hq, Function.update_self] at hc
      cases hc
    · rw [Function.update_of_ne hq] at hc
      refine ⟨?_, hc⟩
      rintro rfl
      exact hq (h.apart q p np' i' i hc hchild)
  refine h.setProc (by rw [hpc]; rfl) (by rw [hpc]; rfl) (by rw [hpc]; rfl) rfl trivial nofun
    ?_ ?_ ?_ ?_
  · intro q hq
    by_cases hqnp : q = np
    · rw [hqnp]
      exact Function.update_self _ _ _
    · rw [Function.update_of_ne hqnp]
      by_cases hqp : q = p
      · rw [hqp]
        exact hrun
      · rw [Function.update_of_ne hqp] at hq
        exact h.running q hq
  · intro q hq
    have hqnp : q ≠ np := by
      rintro rfl
      rw [Function.update_self] at hq
      rcases hq with hq | hq <;> cases hq
    rw [Function.update_of_ne hqnp] at hq
    exact h.gone q hq
  · intro q np' i' hc
    obtain ⟨hnp', hc'⟩ := hold q np' i' hc
    rw [Function.update_of_ne hnp']
    exact h.child q np' i' hc'
  · intro q q' np' i' i'' hc hc'
    exact h.apart q q' np' i' i'' (hold q np' i' hc).2 (hold q' np' i'' hc').2

/-- A process that has no open files changes its state, in `exit` and in `wait`. -/
theorem Inv.leave {v : ProcState} (h : Inv s) (hskip : (s.pc p).skip = none)
    (hhold : (s.pc p).hold = []) (hpending : (s.pc p).pending = []) (hproc : s.proc p ≠ .embryo)
    (hnone : ∀ fd, s.ofile p fd = none) :
    Inv (({ s with proc := update s.proc p v } : State P).goto p .user) := by
  have hold : ∀ q np i, (update s.pc p .user q).child = some (np, i) →
      (s.pc q).child = some (np, i) := by
    intro q np i hc
    by_cases hq : q = p
    · rw [hq, Function.update_self] at hc
      cases hc
    · rwa [Function.update_of_ne hq] at hc
  refine h.setProc hhold.symm hskip.symm hpending.symm rfl trivial nofun ?_ ?_ ?_ ?_
  · intro q hq
    have hqp : q ≠ p := by
      rintro rfl
      rw [Function.update_self] at hq
      exact hq rfl
    rw [Function.update_of_ne hqp] at hq ⊢
    exact h.running q hq
  · intro q hq
    by_cases hqp : q = p
    · rw [hqp]
      exact hnone
    · rw [Function.update_of_ne hqp] at hq
      exact h.gone q hq
  · intro q np i hc
    have hchild := h.child q np i (hold q np i hc)
    have hnp : np ≠ p := by
      rintro rfl
      exact hproc hchild.1
    rw [Function.update_of_ne hnp]
    exact hchild
  · intro q q' np i i' hc hc'
    exact h.apart q q' np i i' (hold q np i hc) (hold q' np i' hc')

/-- The loop of `exit` clears a descriptor that it has closed. -/
theorem Inv.exitClear (h : Inv s) (hpc : s.pc p = .exitClear fd) :
    Inv ((s.setFd p fd none).goto p (.exit (fd.val + 1))) := by
  have hhere := h.here p
  rw [hpc] at hhere
  apply h.setFd (h.running p (by rw [hpc]; exact nofun))
  · intro g
    have hupdate := slotCount_update (s.ofile p) g fd none
    have hskip := slotCount_skip (s.ofile p) g fd
    unfold State.share
    rw [hpc]
    show slotCount (update (s.ofile p) fd none) none g + 0 = slotCount (s.ofile p) (some fd) g + 0
    simp only [reduceCtorEq, if_false] at hupdate
    omega
  · rw [hpc]
    rfl
  · exact fun g hg => absurd hg List.not_mem_nil
  · intro fd' hlt
    by_cases hfd : fd' = fd
    · rw [hfd]
      exact Function.update_self _ _ _
    · rw [Function.update_of_ne hfd]
      have hval : fd'.val ≠ fd.val := fun heq => hfd (Fin.ext heq)
      exact hhere fd' (by omega)
  · rfl
  · exact nofun

/-! ### `dup` -/

/-- `fdalloc` has made a descriptor, which has no reference before `filedup`. -/
theorem Inv.dupFd (h : Inv s) (hpc : s.pc p = .dupFd f) (hfd : s.fdalloc p = some fd) :
    Inv ((s.setFd p fd (some f)).goto p (.dupRef f fd)) := by
  have hnone := fdalloc_some hfd
  have hhere := h.here p
  rw [hpc] at hhere
  obtain ⟨fd', hfd'⟩ := hhere
  have hne : fd' ≠ fd := by
    rintro rfl
    rw [hnone] at hfd'
    cases hfd'
  apply h.setFd (h.running p (by rw [hpc]; exact nofun))
  · intro g
    have hupdate := slotCount_update (s.ofile p) g fd (some f)
    have hskip := slotCount_skip (update (s.ofile p) fd (some f)) g fd
    rw [hnone] at hupdate
    rw [Function.update_self] at hskip
    unfold State.share
    rw [hpc]
    show slotCount (update (s.ofile p) fd (some f)) (some fd) g + 0 =
      slotCount (s.ofile p) none g + 0
    simp only [reduceCtorEq, if_false] at hupdate
    omega
  · rw [hpc]
    rfl
  · exact fun g hg => absurd hg List.not_mem_nil
  · refine ⟨Function.update_self _ _ _, fd', hne, ?_⟩
    rw [Function.update_of_ne hne]
    exact hfd'
  · rfl
  · exact nofun

theorem Inv.dupRef (h : Inv s) (hpc : s.pc p = .dupRef f fd) : Inv (s.filedup p f .user) := by
  have hhere := h.here p
  rw [hpc] at hhere
  obtain ⟨hfd, fd', hne, hfd'⟩ := hhere
  apply h.filedup (h.running p (by rw [hpc]; exact nofun))
  · have hpos : 0 < slotCount (s.ofile p) (s.pc p).skip f := by
      refine slotCount_pos hfd' ?_
      rw [hpc]
      exact fun heq => hne (Option.some.inj heq).symm
    unfold State.share
    omega
  · intro g
    have hcount := slotCount_skip (s.ofile p) g fd
    rw [hfd] at hcount
    simp only [Option.some.injEq] at hcount
    unfold State.share
    rw [hpc]
    show slotCount (s.ofile p) none g + 0 = slotCount (s.ofile p) (some fd) g + 0 + _
    omega
  · rw [hpc]
    rfl
  · rfl
  · exact trivial
  · exact nofun
  · exact nofun

/-- The loop of `fork` copies a reference. -/
theorem Inv.forkDup (h : Inv s) (hpc : s.pc p = .fork np i) (hi : i < NOFILE)
    (hfd : s.ofile p ⟨i, hi⟩ = some f) : Inv (s.filedup p f (.forkSet np ⟨i, hi⟩ f)) := by
  have hshare : ∀ g, s.share p g = slotCount (s.ofile p) none g + 0 := by
    intro g
    unfold State.share
    rw [hpc]
    rfl
  apply h.filedup (h.running p (by rw [hpc]; exact nofun))
  · have hpos : 0 < slotCount (s.ofile p) none f := slotCount_pos hfd nofun
    rw [hshare]
    omega
  · intro g
    rw [hshare]
    show slotCount (s.ofile p) none g + [f].count g = _
    rw [List.count_singleton]
    simp only [beq_iff_eq, Nat.add_zero]
  · rw [hpc]
    rfl
  · rfl
  · exact trivial
  · intro np' i hc
    cases hc
    exact ⟨i, Nat.le_refl _, by rw [hpc]; rfl⟩
  · exact nofun

/-! ## All steps -/

/-- A process goes on with a call. -/
theorem Inv.run {page : Option Nat} (h : Inv s) (hrun : s.run p page = some t) : Inv t := by
  have hproc := h.running p
  have hhere := h.here p
  cases hpc : s.pc p <;> unfold State.run at hrun <;> rw [hpc] at hproc hhere hrun <;>
    simp only at hrun
  case user => cases hrun
  case panic => cases hrun
  case openAlloc ip omode =>
    have hproc := hproc nofun
    cases hf : s.filealloc with
    | none =>
        rw [hf] at hrun
        cases hrun
        exact h.goto hproc (by rw [hpc]; rfl) (by rw [hpc]; rfl) (by rw [hpc]; rfl) nofun trivial
          nofun nofun
    | some f =>
        rw [hf] at hrun
        cases hrun
        exact h.filealloc hproc hf (by rw [hpc]; rfl) (by rw [hpc]; exact .refl _)
          (by rw [hpc]; rfl) (fun g hg => .inl (List.mem_singleton.mp hg)) trivial rfl nofun
  case openFd f ip omode =>
    have hproc := hproc nofun
    cases hfd : s.fdalloc p with
    | none =>
        rw [hfd] at hrun
        cases hrun
        exact h.goto hproc (by rw [hpc]; rfl) (by rw [hpc]; rfl) (by rw [hpc]; rfl) nofun trivial
          nofun nofun
    | some fd =>
        rw [hfd] at hrun
        cases hrun
        exact h.fdalloc hproc hfd (by rw [hpc]; rfl) rfl (by rw [hpc]; rfl) (by rw [hpc]; rfl)
          (by rw [hpc]; exact fun g hg => hg) ⟨fd, Function.update_self _ _ _⟩ rfl nofun
  case openSet f ip omode =>
    cases hrun
    exact h.openSet hpc
  case dupFd f =>
    cases hfd : s.fdalloc p with
    | none =>
        rw [hfd] at hrun
        cases hrun
        exact h.goto (hproc nofun) (by rw [hpc]; rfl) (by rw [hpc]; rfl) (by rw [hpc]; rfl) nofun
          trivial nofun nofun
    | some fd =>
        rw [hfd] at hrun
        cases hrun
        exact h.dupFd hpc hfd
  case dupRef f fd =>
    cases hrun
    exact h.dupRef hpc
  case closeFd fd f | pipeClear rf wf fd0 =>
    cases hrun
    exact h.clearFd (hproc nofun) hhere (by rw [hpc]; rfl) rfl (by rw [hpc]; rfl) (by rw [hpc]; rfl)
      nofun trivial rfl nofun
  case fileclose f next =>
    cases hrun
    exact h.fileclose hpc
  case pipeclose page writable next =>
    cases hrun
    exact h.pipeclose hpc
  case iput ip next =>
    cases hrun
    cases next <;> exact h.goto (hproc nofun) (by rw [hpc]; rfl) (by rw [hpc]; rfl)
      (by rw [hpc]; rfl) nofun hhere nofun nofun
  case pipeFile0 =>
    have hproc := hproc nofun
    cases hf : s.filealloc with
    | none =>
        rw [hf] at hrun
        cases hrun
        exact h.goto hproc (by rw [hpc]; rfl) (by rw [hpc]; rfl) (by rw [hpc]; rfl) nofun trivial
          nofun nofun
    | some f0 =>
        rw [hf] at hrun
        cases hrun
        exact h.filealloc hproc hf (by rw [hpc]; rfl) (by rw [hpc]; exact .refl _)
          (by rw [hpc]; rfl) (fun g hg => .inl (List.mem_singleton.mp hg)) trivial rfl nofun
  case pipeFile1 f0 =>
    have hproc := hproc nofun
    cases hf : s.filealloc with
    | none =>
        rw [hf] at hrun
        cases hrun
        exact h.goto hproc (by rw [hpc]; rfl) (by rw [hpc]; rfl) (by rw [hpc]; rfl) nofun trivial
          nofun nofun
    | some f1 =>
        rw [hf] at hrun
        cases hrun
        refine h.filealloc hproc hf (by rw [hpc]; rfl) (by rw [hpc]; exact .swap f1 f0 [])
          (by rw [hpc]; rfl) (fun g hg => ?_) trivial rfl nofun
        rw [hpc]
        rcases List.mem_cons.mp hg with hg | hg
        · exact .inr (List.mem_singleton.mpr hg)
        · exact .inl (List.mem_singleton.mp hg)
  case pipePage f0 f1 =>
    cases page with
    | none =>
        cases hrun
        exact h.goto (hproc nofun) (by rw [hpc]; rfl) (by rw [hpc]; rfl) (by rw [hpc]; rfl) nofun
          trivial nofun nofun
    | some page =>
        simp only at hrun
        split at hrun
        · next hpage =>
            cases hrun
            exact h.pipealloc hpc hpage
        · cases hrun
  case pipeSet f0 f1 page =>
    cases hrun
    exact h.pipeSet hpc
  case pipeFd0 rf wf =>
    have hproc := hproc nofun
    cases hfd : s.fdalloc p with
    | none =>
        rw [hfd] at hrun
        cases hrun
        exact h.goto hproc (by rw [hpc]; rfl) (by rw [hpc]; rfl) (by rw [hpc]; rfl) nofun trivial
          nofun nofun
    | some fd0 =>
        rw [hfd] at hrun
        cases hrun
        exact h.fdalloc hproc hfd (by rw [hpc]; rfl) rfl (by rw [hpc]; rfl) (by rw [hpc]; rfl) nofun
          (Function.update_self _ _ _) rfl nofun
  case pipeFd1 rf wf fd0 =>
    have hproc := hproc nofun
    cases hfd : s.fdalloc p with
    | none =>
        rw [hfd] at hrun
        cases hrun
        exact h.goto hproc (by rw [hpc]; rfl) (by rw [hpc]; rfl) (by rw [hpc]; rfl) nofun hhere
          nofun nofun
    | some fd1 =>
        rw [hfd] at hrun
        cases hrun
        exact h.fdalloc hproc hfd (by rw [hpc]; rfl) rfl (by rw [hpc]; rfl) (by rw [hpc]; rfl) nofun
          trivial rfl nofun
  case fork np i =>
    split at hrun
    · next hi =>
        cases hfd : s.ofile p ⟨i, hi⟩ with
        | none =>
            rw [hfd] at hrun
            cases hrun
            refine h.goto (hproc nofun) (by rw [hpc]; rfl) (by rw [hpc]; rfl) (by rw [hpc]; rfl)
              nofun trivial (fun np' i' hc => ?_) nofun
            cases hc
            exact ⟨i, Nat.le_succ i, by rw [hpc]; rfl⟩
        | some f =>
            rw [hfd] at hrun
            cases hrun
            exact h.forkDup hpc hi hfd
    · cases hrun
      exact h.forkEnd hpc
  case forkSet np fd f =>
    cases hrun
    exact h.forkSet hpc
  case exit i =>
    split at hrun
    · next hi =>
        cases hfd : s.ofile p ⟨i, hi⟩ with
        | none =>
            rw [hfd] at hrun
            cases hrun
            refine h.goto (hproc nofun) (by rw [hpc]; rfl) (by rw [hpc]; rfl) (by rw [hpc]; rfl)
              nofun (fun fd hlt => ?_) nofun nofun
            by_cases heq : fd.val = i
            · rw [← hfd]
              exact congrArg _ (Fin.ext heq)
            · exact hhere fd (by omega)
        | some f =>
            rw [hfd] at hrun
            cases hrun
            exact h.goto (hproc nofun) (by rw [hpc]; rfl) (by rw [hpc]; rfl) (by rw [hpc]; rfl)
              nofun ⟨hfd, hhere⟩ nofun nofun
    · next hi =>
        cases hrun
        have hproc := hproc nofun
        exact h.leave (by rw [hpc]; rfl) (by rw [hpc]; rfl) (by rw [hpc]; rfl)
          (by rw [hproc]; exact nofun) fun fd => hhere fd (by omega)
  case exitClear fd =>
    cases hrun
    exact h.exitClear hpc

theorem Inv.call {c : Call P} (h : Inv s) (hrun : s.proc p = .running) (hpc : s.pc p = .user)
    (hcall : s.call p c = some t) : Inv t := by
  have hgo : ∀ pc : Pc P, pc.hold = [] → pc.skip = none → pc.pending = [] → pc.fresh = [] →
      pc.Ok (s.ofile p) → pc.child = none → (∀ e, pc ≠ .panic e) → Inv (s.goto p pc) := by
    intro pc hhold hskip hpending hfresh hhere hchild hsafe
    refine h.goto hrun ?_ ?_ ?_ ?_ hhere ?_ hsafe
    · rw [hhold, hpc]
      rfl
    · rw [hskip, hpc]
      rfl
    · rw [hpending, hpc]
      rfl
    · rw [hfresh]
      exact fun g hg => absurd hg List.not_mem_nil
    · rw [hchild]
      exact nofun
  unfold State.call at hcall
  cases c with
  | «open» ip omode =>
      cases ip with
      | none =>
          cases hcall
          exact h
      | some ip =>
          cases hcall
          exact hgo _ rfl rfl rfl rfl trivial rfl nofun
  | dup fd =>
      cases hfd : s.ofile p fd with
      | none =>
          simp only [hfd] at hcall
          cases hcall
          exact h
      | some f =>
          simp only [hfd] at hcall
          cases hcall
          exact hgo _ rfl rfl rfl rfl ⟨fd, hfd⟩ rfl nofun
  | close fd =>
      cases hfd : s.ofile p fd with
      | none =>
          simp only [hfd] at hcall
          cases hcall
          exact h
      | some f =>
          simp only [hfd] at hcall
          cases hcall
          exact hgo _ rfl rfl rfl rfl hfd rfl nofun
  | pipe =>
      cases hcall
      exact hgo _ rfl rfl rfl rfl trivial rfl nofun
  | fork np =>
      cases np with
      | none =>
          cases hcall
          exact h
      | some np =>
          simp only at hcall
          split at hcall
          · next hnp =>
              cases hcall
              exact h.forkStart hrun hpc hnp
          · cases hcall
  | exit =>
      cases hcall
      exact hgo _ rfl rfl rfl rfl (fun fd hlt => absurd hlt (Nat.not_lt_zero _)) rfl nofun

/-- Every step keeps the invariant. -/
theorem Inv.step {a : Act P} (h : Inv s) (hstep : s.step a = some t) : Inv t := by
  cases a with
  | call p c =>
      simp only [State.step] at hstep
      split at hstep
      · next hcall => exact h.call hcall.1 hcall.2 hstep
      · cases hstep
  | run p page => exact h.run hstep
  | wait p =>
      simp only [State.step] at hstep
      split at hstep
      · next hzombie =>
          cases hstep
          have hidle : s.pc p = .user := h.idle (by rw [hzombie]; exact nofun)
          have hleave := h.leave (v := .unused) (by rw [hidle]; rfl) (by rw [hidle]; rfl)
            (by rw [hidle]; rfl) (by rw [hzombie]; exact nofun) (h.gone p (.inr hzombie))
          have hsame : update s.pc p .user = s.pc := by
            rw [← hidle]
            exact Function.update_eq_self _ _
          unfold State.goto at hleave
          rwa [hsame] at hleave
      · cases hstep

theorem inv_boot (p0 : P) : Inv (boot p0) where
  refs f := by
    refine (Finset.sum_eq_zero fun p _ => ?_).symm
    show slotCount (fun _ => none) none f + 0 = 0
    simp [slotCount, Counts]
  ends e := by
    refine (Finset.sum_eq_zero fun c _ => ?_).symm
    cases c with
    | inl p => rfl
    | inr f =>
        show (if ((boot p0).file f).IsEnd e then 1 else 0) = 0
        exact if_neg (File.not_isEnd (show FileType.none ≠ .pipe by decide) e)
  live page π hπ := by cases hπ
  pages page := rfl
  unused f _ := rfl
  fresh p f hf := absurd hf List.not_mem_nil
  here p := trivial
  running p hne := absurd rfl hne
  gone p _ fd := rfl
  child p np i hc := by cases hc
  apart p p' np i i' hc := by cases hc
  safe p e := nofun

theorem inv_of_reachable {p0 : P} (h : (kernel p0).Reachable s) : Inv s :=
  h.invariant (fun s hs => by rw [hs]; exact inv_boot p0) fun _ _ _ hs _ hstep => hs.step hstep

end Calls

end OsWork.Ports.FileTable

import OsWork.Ports.FsLogAtomic

/-!
# The space of the log

`begin_op` reserves `MAXOPBLOCKS` blocks of the log for every operation,
`log_write` refuses a block when the log is full, and `mkfs` makes the log
`LOGSIZE` blocks long.  The header takes one of them, so that a transaction of
`LOGSIZE` blocks, which `begin_op` admits, does not fit.

## Main results

* `tooBig_iff` — `log_write` panics from `LOGSIZE - 1` blocks on.
* `fitting_logFits` — the log is large enough for transactions of `LOGSIZE - 1`
  blocks.
* `not_all_logFits` — three operations of `MAXOPBLOCKS` blocks each make
  `log_write` panic.
-/

namespace OsWork.Ports.FsLog

open OsWork.Verified.Transition

variable {B : Type}

/-- What the operations of the present transaction have passed to `log_write`. -/
structure Group where
  /-- by each operation -/
  done : Op → Finset Nat
  /-- by all together -/
  logged : Finset Nat
  /-- with the calls of `log_write` that have not returned -/
  entered : Finset Nat

namespace Group

def empty : Group := ⟨fun _ => ∅, ∅, ∅⟩

/-- The bookkeeping of one step. -/
def record (s : State B) (a : Act B) (g : Group) : Group :=
  match a with
  | .logWrite _ b => { g with entered := insert b g.entered }
  | .append i =>
      match s.ops i with
      | .logging b =>
          { g with
            done := Function.update g.done i (insert b (g.done i))
            logged := insert b g.logged }
      | _ => g
  | .log => if s.pc = .eraseHead then { g with logged := ∅, entered := ∅ } else g
  | .crash => { g with logged := ∅, entered := ∅ }
  | _ => g

end Group

/-- The file system with the blocks of the present transaction. -/
def logSpace (start : Nat) (image : Nat → B) : System (State B × Group) (Act B) :=
  (fileSystem start image).withGhost (fun _ => Group.empty) fun s a g => g.record s a

/-- No operation passes more than `MAXOPBLOCKS` different blocks to `log_write`. -/
def Small (x : State B × Group) : Act B → Prop
  | .logWrite i b => (insert b (x.2.done i)).card ≤ MAXOPBLOCKS
  | _ => True

instance (x : State B × Group) (a : Act B) : Decidable (Small x a) :=
  match a with
  | .logWrite i b => inferInstanceAs (Decidable ((insert b (x.2.done i)).card ≤ MAXOPBLOCKS))
  | .beginOp _ | .bread _ _ | .modify _ _ _ | .append _ | .brelse _ _ | .endOp _ | .load _
  | .recycle _ | .log | .crash => .isTrue trivial

/-- `log_write` is called while the transaction has fewer than `LOGSIZE - 1` blocks,
and it has `LOGSIZE - 1` at most with the block of the call. -/
def Fits (x : State B × Group) : Act B → Prop
  | .logWrite _ b => x.2.logged.card + 1 < LOGSIZE ∧ (insert b x.2.entered).card + 1 ≤ LOGSIZE
  | _ => True

instance (x : State B × Group) (a : Act B) : Decidable (Fits x a) :=
  match a with
  | .logWrite _ b => inferInstanceAs (Decidable (x.2.logged.card + 1 < LOGSIZE ∧
      (insert b x.2.entered).card + 1 ≤ LOGSIZE))
  | .beginOp _ | .bread _ _ | .modify _ _ _ | .append _ | .brelse _ _ | .endOp _ | .load _
  | .recycle _ | .log | .crash => .isTrue trivial

/-- `log_write` panics: "too big a transaction". -/
def State.tooBig (s : State B) : Prop := LOGSIZE ≤ s.lh.length ∨ LOGSIZE ≤ s.lh.length + 1

/-! ## What a step changes -/

/-- What one step does to `log.lh` and the operations. -/
inductive Change (s : State B) : Act B → State B → Prop
  | same {a : Act B} {s' : State B} (hlh : s'.lh = s.lh) (hops : s'.ops = s.ops)
      (hpc : s'.pc.recovering = s.pc.recovering) (hrecord : ∀ g : Group, g.record s a = g) :
      Change s a s'
  | beginOp {i : Op} {s' : State B} (hunborn : s.ops i = .unborn)
      (hready : s.pc.recovering = false)
      (hroom : s.lh.length + (s.outstanding + 1) * MAXOPBLOCKS ≤ LOGSIZE)
      (hlh : s'.lh = s.lh) (hops : s'.ops = Function.update s.ops i .running)
      (hpc : s'.pc = s.pc) : Change s (.beginOp i) s'
  | logWrite {i : Op} {b : Nat} {s' : State B} (hrunning : s.ops i = .running)
      (hlh : s'.lh = s.lh) (hops : s'.ops = Function.update s.ops i (.logging b))
      (hpc : s'.pc = s.pc) : Change s (.logWrite i b) s'
  | append {i : Op} {b : Nat} {s' : State B} (hlogging : s.ops i = .logging b)
      (hlh : s'.lh = if b ∈ s.lh then s.lh else s.lh ++ [b])
      (hops : s'.ops = Function.update s.ops i .running) (hpc : s'.pc = s.pc) :
      Change s (.append i) s'
  | endOp {i : Op} {s' : State B} (hrunning : s.ops i = .running) (hlh : s'.lh = s.lh)
      (hops : s'.ops = Function.update s.ops i .ended)
      (hpc : s'.pc.recovering = false ∨ s'.pc = s.pc) : Change s (.endOp i) s'
  | erase {s' : State B} (hat : s.pc = .eraseHead) (hlh : s'.lh = []) (hops : s'.ops = s.ops)
      (hpc : s'.pc.recovering = false) : Change s .log s'
  | recover {s' : State B} (hat : s.pc.recovering = true) (hops : s'.ops = s.ops)
      (hpc : s'.pc.recovering = true ∧ (s'.lh = s.lh ∨ s'.lh = s.head) ∨
        s'.pc.recovering = false ∧ s'.lh = []) : Change s .log s'
  | crash {s' : State B} (hlh : s'.lh = []) (hops : ∀ i, ¬ (s'.ops i).active)
      (hunborn : ∀ i, s'.ops i = .unborn → s.ops i = .unborn)
      (hpc : s'.pc.recovering = true) : Change s .crash s'

section Steps

variable {start : Nat} {s s' : State B} {g : Group} {a : Act B} {b c : Nat} {i : Op}

theorem bread_same (h : s.bread b = some s') : s'.lh = s.lh ∧ s'.ops = s.ops ∧ s'.pc = s.pc := by
  unfold State.bread at h
  split at h
  · cases h
    exact ⟨rfl, rfl, rfl⟩
  · split at h
    · cases h
      exact ⟨rfl, rfl, rfl⟩
    · cases h

theorem copyBlock_same (h : s.copyBlock b c = some s') :
    s'.lh = s.lh ∧ s'.ops = s.ops ∧ s'.pc = s.pc := by
  unfold State.copyBlock at h
  split at h
  · split at h
    · rename_i s₁ h₁
      split at h
      · rename_i s₂ h₂
        cases h
        obtain ⟨hlh₁, hops₁, hpc₁⟩ := bread_same h₁
        obtain ⟨hlh₂, hops₂, hpc₂⟩ := bread_same h₂
        exact ⟨hlh₂.trans hlh₁, hops₂.trans hops₁, hpc₂.trans hpc₁⟩
      · cases h
    · cases h
  · cases h

theorem installBlock_same {tail : Nat} {next done : LogPc}
    (h : s.installBlock start tail next done = some s') :
    s'.lh = s.lh ∧ s'.ops = s.ops ∧ (s'.pc = next ∨ s'.pc = done) := by
  unfold State.installBlock at h
  split at h
  · obtain ⟨s₁, h₁, rfl⟩ := Option.map_eq_some_iff.mp h
    obtain ⟨hlh, hops, -⟩ := copyBlock_same h₁
    exact ⟨hlh, hops, .inl rfl⟩
  · cases h
    exact ⟨rfl, rfl, .inr rfl⟩

theorem Change.of_log (h : s.logStep start = some s') : Change s .log s' := by
  have hquiet : s.pc ≠ .eraseHead → ∀ g : Group, g.record s (.log : Act B) = g := by
    intro hne g
    exact if_neg hne
  unfold State.logStep at h
  split at h
  · cases h
  · rename_i tail hpc
    unfold State.writeLogBlock at h
    split at h
    · obtain ⟨s₁, h₁, rfl⟩ := Option.map_eq_some_iff.mp h
      obtain ⟨hlh, hops, -⟩ := copyBlock_same h₁
      exact .same hlh hops (by rw [hpc]; rfl) (hquiet (by rw [hpc]; exact LogPc.noConfusion))
    · cases h
      exact .same rfl rfl (by rw [hpc]; rfl) (hquiet (by rw [hpc]; exact LogPc.noConfusion))
  · rename_i hpc
    cases h
    exact .same rfl rfl (by rw [hpc]; rfl) (hquiet (by rw [hpc]; exact LogPc.noConfusion))
  · rename_i tail hpc
    obtain ⟨hlh, hops, hnext⟩ := installBlock_same h
    refine .same hlh hops ?_ (hquiet (by rw [hpc]; exact LogPc.noConfusion))
    rcases hnext with hnext | hnext
    · rw [hpc, hnext]
      rfl
    · rw [hpc, hnext]
      rfl
  · rename_i hpc
    cases h
    exact .erase hpc rfl rfl rfl
  · rename_i hpc
    cases h
    exact .same rfl rfl (by rw [hpc]; rfl) (hquiet (by rw [hpc]; exact LogPc.noConfusion))
  · rename_i hpc
    cases h
    exact .recover (by rw [hpc]; rfl) rfl (.inl ⟨rfl, .inr rfl⟩)
  · rename_i tail hpc
    obtain ⟨hlh, hops, hnext⟩ := installBlock_same h
    refine .recover (by rw [hpc]; rfl) hops (.inl ⟨?_, .inl hlh⟩)
    rcases hnext with hnext | hnext
    · rw [hnext]
      rfl
    · rw [hnext]
      rfl
  · rename_i hpc
    cases h
    exact .recover (by rw [hpc]; rfl) rfl (.inr ⟨rfl, rfl⟩)

theorem Change.of_step (h : step start s a = some s') : Change s a s' := by
  cases a with
  | beginOp i =>
      simp only [step, State.beginOp] at h
      split at h
      · rename_i hguard
        split at h
        · cases h
        · split at h
          · cases h
          · rename_i hroom
            cases h
            exact .beginOp hguard.1 hguard.2 (not_lt.mp hroom) rfl rfl rfl
      · cases h
  | bread i b =>
      simp only [step] at h
      split at h
      · obtain ⟨s₁, h₁, rfl⟩ := Option.map_eq_some_iff.mp h
        obtain ⟨hlh, hops, hpc⟩ := bread_same h₁
        exact .same hlh hops (congrArg LogPc.recovering hpc) fun _ => rfl
      · cases h
  | modify i b v | brelse i b | recycle b =>
      simp only [step] at h
      split at h
      · cases h
        exact .same rfl rfl rfl fun _ => rfl
      · cases h
  | logWrite i b =>
      simp only [step, State.logWrite] at h
      split at h
      · rename_i hguard
        split at h
        · cases h
        · split at h
          · cases h
          · cases h
            exact .logWrite hguard.1 rfl rfl rfl
      · cases h
  | append i =>
      simp only [step, State.append] at h
      split at h
      · rename_i b hlogging
        cases h
        exact .append hlogging rfl rfl rfl
      · cases h
  | endOp i =>
      simp only [step, State.endOp] at h
      split at h
      · rename_i hguard
        split at h
        · cases h
        · split at h
          · cases h
            refine .endOp hguard.1 rfl rfl (.inl ?_)
            show LogPc.recovering (if s.lh = [] then .committed else .writeLog 0) = false
            split
            · rfl
            · rfl
          · cases h
            exact .endOp hguard.1 rfl rfl (.inr rfl)
      · cases h
  | load b =>
      obtain ⟨hlh, hops, hpc⟩ := bread_same h
      exact .same hlh hops (congrArg LogPc.recovering hpc) fun _ => rfl
  | log => exact .of_log h
  | crash =>
      cases h
      apply Change.crash
      · rfl
      · intro i
        show ¬ OpPc.active (if s.ops i = .unborn then .unborn else .ended)
        split
        · exact id
        · exact id
      · intro i hi
        have hi : (if s.ops i = .unborn then OpPc.unborn else .ended) = .unborn := hi
        by_contra hne
        rw [if_neg hne] at hi
        cases hi
      · rfl

/-! ## The blocks of a transaction -/

/-- `log.lh` lists the blocks that the operations have logged. -/
structure Space (s : State B) (g : Group) : Prop where
  lh : s.pc.recovering = false → s.lh.toFinset = g.logged
  recovering : s.pc.recovering = true → g.logged = ∅ ∧ s.lh.length < LOGSIZE
  entered : g.logged ⊆ g.entered
  entering : ∀ i b, s.ops i = .logging b → b ∈ g.entered

/-- The operations between `begin_op` and `end_op` are on, and none is during a commit. -/
structure Open (s : State B) : Prop where
  running : ∀ i, (s.ops i).active → s.pc = .running
  count : ∃ A : Finset Op, A.card = s.outstanding ∧ ∀ i, i ∈ A ↔ (s.ops i).active
  nodup : s.lh.Nodup
  head : s.head.length < LOGSIZE

theorem Logged.open {h : History B} (hl : Logged start s h) : Open s where
  running _ hi := (hl.working hi).1
  count := hl.outstanding.count
  nodup := hl.buffers.lhNodup
  head := hl.buffers.headFits

theorem Open.not_recovering (h : Open s) (hi : (s.ops i).active) : s.pc.recovering = false := by
  rw [h.running i hi]
  rfl

/-- One step keeps the blocks of the transaction. -/
theorem Space.step (ho : Open s) (h : Space s g) (hc : Change s a s') : Space s' (g.record s a) := by
  cases hc with
  | same hlh hops hpc hrecord =>
      rw [hrecord]
      exact
        { lh := by rw [hpc, hlh]; exact h.lh
          recovering := by rw [hpc, hlh]; exact h.recovering
          entered := h.entered
          entering := by rw [hops]; exact h.entering }
  | @beginOp i _ hunborn hready hroom hlh hops hpc =>
      show Space s' g
      exact
        { lh := by rw [hpc, hlh]; exact h.lh
          recovering := by rw [hpc, hlh]; exact h.recovering
          entered := h.entered
          entering := by
            intro j c hj
            by_cases hji : j = i
            · rw [hops, hji, Function.update_self] at hj
              cases hj
            · rw [hops, Function.update_of_ne hji] at hj
              exact h.entering j c hj }
  | @logWrite i b _ hrunning hlh hops hpc =>
      show Space s' { g with entered := insert b g.entered }
      exact
        { lh := by rw [hpc, hlh]; exact h.lh
          recovering := by rw [hpc, hlh]; exact h.recovering
          entered := h.entered.trans (Finset.subset_insert b _)
          entering := by
            intro j c hj
            by_cases hji : j = i
            · rw [hops, hji, Function.update_self] at hj
              cases hj
              exact Finset.mem_insert_self b _
            · rw [hops, Function.update_of_ne hji] at hj
              exact Finset.mem_insert_of_mem (h.entering j c hj) }
  | @append i b _ hlogging hlh hops hpc =>
      have hactive : (s.ops i).active := by
        rw [hlogging]
        trivial
      have hready := ho.not_recovering hactive
      have hrecord : g.record s (.append i) =
          { g with
            done := Function.update g.done i (insert b (g.done i))
            logged := insert b g.logged } := by
        simp only [Group.record, hlogging]
      rw [hrecord]
      exact
        { lh := by
            intro _
            show s'.lh.toFinset = insert b g.logged
            rw [hlh, ← h.lh hready]
            split
            · rename_i hmem
              exact (Finset.insert_eq_of_mem (List.mem_toFinset.mpr hmem)).symm
            · rw [List.toFinset_append, Finset.union_comm]
              rfl
          recovering := by
            intro hrec
            rw [hpc, hready] at hrec
            cases hrec
          entered := Finset.insert_subset (h.entering i b hlogging) h.entered
          entering := by
            intro j c hj
            by_cases hji : j = i
            · rw [hops, hji, Function.update_self] at hj
              cases hj
            · rw [hops, Function.update_of_ne hji] at hj
              exact h.entering j c hj }
  | @endOp i _ hrunning hlh hops hpc =>
      have hactive : (s.ops i).active := by
        rw [hrunning]
        trivial
      have hready := ho.not_recovering hactive
      show Space s' g
      exact
        { lh := by
            intro _
            rw [hlh]
            exact h.lh hready
          recovering := by
            intro hrec
            rcases hpc with hpc | hpc
            · rw [hpc] at hrec
              cases hrec
            · rw [hpc, hready] at hrec
              cases hrec
          entered := h.entered
          entering := by
            intro j c hj
            by_cases hji : j = i
            · rw [hops, hji, Function.update_self] at hj
              cases hj
            · rw [hops, Function.update_of_ne hji] at hj
              exact h.entering j c hj }
  | erase hat hlh hops hpc =>
      have hidle : ∀ i, ¬ (s.ops i).active := by
        intro i hi
        have hrun := ho.running i hi
        rw [hat] at hrun
        cases hrun
      have hrecord : g.record s (.log : Act B) = { g with logged := ∅, entered := ∅ } :=
        if_pos hat
      rw [hrecord]
      exact
        { lh := by
            intro _
            rw [hlh]
            rfl
          recovering := by
            intro hrec
            rw [hpc] at hrec
            cases hrec
          entered := Finset.Subset.refl _
          entering := by
            intro i b hi
            rw [hops] at hi
            exact absurd (by rw [hi]; trivial) (hidle i) }
  | recover hat hops hpc =>
      have hne : s.pc ≠ .eraseHead := by
        intro heq
        rw [heq] at hat
        cases hat
      have hrecord : g.record s (.log : Act B) = g := if_neg hne
      rw [hrecord]
      exact
        { lh := by
            intro hready
            rcases hpc with ⟨hpc, -⟩ | ⟨-, hlh⟩
            · rw [hpc] at hready
              cases hready
            · rw [hlh, (h.recovering hat).1]
              rfl
          recovering := by
            intro hrec
            obtain ⟨hnone, hshort⟩ := h.recovering hat
            refine ⟨hnone, ?_⟩
            rcases hpc with ⟨-, hlh | hlh⟩ | ⟨hpc, -⟩
            · rw [hlh]
              exact hshort
            · rw [hlh]
              exact ho.head
            · rw [hpc] at hrec
              cases hrec
          entered := h.entered
          entering := by rw [hops]; exact h.entering }
  | crash hlh hops hunborn hpc =>
      show Space s' { g with logged := ∅, entered := ∅ }
      exact
        { lh := by
            intro hready
            rw [hpc] at hready
            cases hready
          recovering := by
            intro _
            rw [hlh]
            exact ⟨rfl, by decide⟩
          entered := Finset.Subset.refl _
          entering := fun i b hi => absurd (by rw [hi]; trivial) (hops i) }

theorem Space.lh_length (h : Space s g) (ho : Open s) (hready : s.pc.recovering = false) :
    s.lh.length = g.logged.card := by
  rw [← h.lh hready, List.toFinset_card_of_nodup ho.nodup]

/-- What one step does to the blocks of the transaction, while the calls of `log_write`
fit. -/
theorem entered_step (h : g.entered.card + 1 ≤ LOGSIZE) (hfits : Fits (s, g) a) :
    (g.record s a).entered.card + 1 ≤ LOGSIZE := by
  cases a with
  | logWrite i b => exact hfits.2
  | append i =>
      simp only [Group.record]
      split
      · exact h
      · exact h
  | log =>
      simp only [Group.record]
      split
      · show (∅ : Finset Nat).card + 1 ≤ LOGSIZE
        decide
      · exact h
  | crash =>
      show (∅ : Finset Nat).card + 1 ≤ LOGSIZE
      decide
  | _ => exact h

end Steps

/-! ## Every run -/

section Runs

variable {start : Nat} {image : Nat → B} {x : State B × Group}

/-- The blocks of the transaction, in every state reached. -/
theorem space (ok : State B × Group → Act B → Prop)
    (h : (logSpace start image).ReachableWhen ok x) :
    (∃ g, Logged start x.1 g) ∧ Space x.1 x.2 := by
  apply System.ReachableWhen.invariant
    (P := fun x => (∃ g, Logged start x.1 g) ∧ Space x.1 x.2) _ _ h
  · rintro ⟨s, g⟩ hinit
    have hs : s = boot image := hinit.1
    have hg : g = Group.empty := hinit.2
    clear hinit
    subst hs hg
    refine ⟨⟨_, logged_boot start image⟩, ?_⟩
    exact
      { lh := fun hready => by cases hready
        recovering := fun _ => ⟨rfl, by show 0 < LOGSIZE; decide⟩
        entered := Finset.Subset.refl _
        entering := fun _ _ hi => by cases hi }
  · rintro ⟨s, g⟩ a ⟨s', g'⟩ ⟨⟨k, hk⟩, hspace⟩ _ hstep
    obtain ⟨hs, hg⟩ := System.withGhost_step hstep
    refine ⟨⟨_, hk.step hs⟩, ?_⟩
    rw [hg]
    exact hspace.step hk.open (Change.of_step hs)

/-- `log_write` panics when the transaction has `LOGSIZE - 1` blocks, and only then. -/
theorem tooBig_iff (h : (logSpace start image).Reachable x) (hready : x.1.pc.recovering = false) :
    x.1.tooBig ↔ LOGSIZE ≤ x.2.logged.card + 1 := by
  obtain ⟨⟨k, hk⟩, hspace⟩ := space _ h
  unfold State.tooBig
  rw [hspace.lh_length hk.open hready]
  omega

/-- The log is large enough: it has a block for every one of the transaction, and a
small operation can pass its block to `log_write`. -/
def LogFits (ok : State B × Group → Act B → Prop) (x : State B × Group) : Prop :=
  x.1.lh.length ≤ LOGSIZE - 1 ∧
    ∀ i b, x.1.ops i = .running → x.1.holder b = some i → ok x (.logWrite i b) → ¬ x.1.tooBig

/-- While the transactions have `LOGSIZE - 1` blocks at most, the log is large enough. -/
theorem fitting_logFits (B : Type) (start : Nat) (image : Nat → B) (x : State B × Group)
    (h : (logSpace start image).ReachableWhen (fun x a => Small x a ∧ Fits x a) x) :
    LogFits (fun x a => Small x a ∧ Fits x a) x := by
  have hentered : x.2.entered.card + 1 ≤ LOGSIZE := by
    apply System.ReachableWhen.invariant (P := fun x => x.2.entered.card + 1 ≤ LOGSIZE) _ _ h
    · rintro ⟨s, g⟩ ⟨-, hg⟩
      have hg : g = Group.empty := hg
      subst hg
      show (∅ : Finset Nat).card + 1 ≤ LOGSIZE
      decide
    · rintro ⟨s, g⟩ a ⟨s', g'⟩ hcard hok hstep
      obtain ⟨-, hg⟩ := System.withGhost_step hstep
      rw [hg]
      exact entered_step hcard hok.2
  obtain ⟨⟨k, hk⟩, hspace⟩ := space _ h
  constructor
  · cases hready : x.1.pc.recovering with
    | true =>
        have hshort := (hspace.recovering hready).2
        omega
    | false =>
        have hle := Finset.card_le_card hspace.entered
        rw [hspace.lh_length hk.open hready]
        omega
  · intro i b hrunning _ hok hbig
    have hready := hk.open.not_recovering (i := i) (by rw [hrunning]; trivial)
    have hroom := hok.2.1
    rw [tooBig_iff h.reachable hready] at hbig
    omega

/-- Operation `i` logs `k` blocks from `b` on. -/
def logBlocks (i b k : Nat) : List (Act Nat) :=
  (List.range k).flatMap fun j =>
    [.bread i (b + j), .logWrite i (b + j), .append i, .brelse i (b + j)]

/-- One operation logs three blocks, and the system crashes in its commit; after the
recovery three operations fill the log. -/
def fullLog : List (Act Nat) :=
  List.flatten [[.log, .log, .log, .beginOp 0], logBlocks 0 100 3, [.endOp 0, .log, .log, .crash],
    [.log, .log, .log, .beginOp 1, .beginOp 2, .beginOp 3], logBlocks 1 100 10,
    logBlocks 2 110 10, logBlocks 3 120 9]

theorem fitting_logFits_full : ∃ x : State Nat × Group, x.1.lh = List.range' 100 29 ∧
    LogFits (fun x a => Small x a ∧ Fits x a) x := by
  obtain ⟨x, hx, htest⟩ := System.exists_reachableWhen_of_run
    (M := logSpace 2 fun _ => 0) (fun x a => Small x a ∧ Fits x a)
    (s := (boot fun _ => 0, Group.empty)) (l := fullLog)
    (p := fun x => x.1.lh == List.range' 100 29) ⟨rfl, rfl⟩ (by decide +kernel)
  exact ⟨x, by simpa using htest, fitting_logFits Nat 2 _ x hx⟩

/-- Three operations begin, and log ten blocks each but for the last. -/
def threeMaximal : List (Act Nat) :=
  List.flatten [[.log, .log, .log, .beginOp 0, .beginOp 1, .beginOp 2], logBlocks 0 100 10,
    logBlocks 1 110 10, logBlocks 2 120 9, [.bread 2 129]]

theorem not_all_logFits :
    ¬ ∀ x : State Nat × Group, (logSpace 2 fun _ => 0).ReachableWhen Small x →
      LogFits Small x := by
  intro hall
  obtain ⟨x, hx, htest⟩ := System.exists_reachableWhen_of_run
    (M := logSpace 2 fun _ => 0) Small (s := (boot fun _ => 0, Group.empty))
    (l := threeMaximal)
    (p := fun x => x.1.ops 2 == .running && x.1.holder 129 == some 2 &&
      decide (Small x (.logWrite 2 129)) && x.1.lh.length == 29) ⟨rfl, rfl⟩ (by decide +kernel)
  simp only [Bool.and_eq_true, beq_iff_eq, decide_eq_true_eq] at htest
  obtain ⟨⟨⟨hrunning, hheld⟩, hsmall⟩, hlength⟩ := htest
  apply (hall x hx).2 2 129 hrunning hheld hsmall
  refine .inr ?_
  rw [hlength]
  decide

end Runs

end OsWork.Ports.FsLog

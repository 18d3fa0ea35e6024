import OsWork.Ports.FsLog

/-!
# Crash atomicity of the log

What the disk would be recovered to is, at every moment, the state after a
prefix of the commits: up to the moment the header is written that of the
commits before, from then on that of the present one as well (`Durable`).

The proof follows the process through `commit` and `recover_from_log`; for each
position `Phase` says what the cache, the log area, the header and the home
blocks hold.  That the log area is large enough is not due to the tests of
`log_write`, which two operations can pass together: a block that is logged has
a dirty buffer, `write_log` needs one buffer more, and there are `NBUF` of them.

## Main results

* `crash_atomic` — when `initlog` completes, the home blocks are those after a
  prefix of the commits, which contains every commit that has returned.
-/

namespace OsWork.Ports.FsLog

open OsWork.Verified.Transition
open OsWork.Verified.RedoLog

variable {B : Type}

/-! ## Buffers -/

/-- The operation is between `begin_op` and `end_op`. -/
def OpPc.active : OpPc → Prop
  | .running | .logging _ => True
  | _ => False

/-- `end_op` has set `log.committing`. -/
def LogPc.commits : LogPc → Bool
  | .writeLog _ | .writeHead | .installTrans _ | .eraseHead | .committed => true
  | _ => false

/-- The cache, the locks and the two headers agree with each other. -/
structure Buffers (start : Nat) (s : State B) : Prop where
  card : s.cached.card ≤ NBUF
  dirtyCached : ∀ b, s.dirty b = true → b ∈ s.cached
  dirtyLogged : ∀ b, s.dirty b = true → b ∈ s.lh
  held : ∀ b i, s.holder b = some i → b ∈ s.cached ∧ isHome start b
  loose : ∀ i b, b ∈ s.loose i → s.holder b = some i
  logging : ∀ i b, s.ops i = .logging b → s.holder b = some i
  clean : ∀ b, s.dirty b = false → (∀ i, b ∉ s.loose i) → s.view b = s.disk b
  lhHome : ∀ b ∈ s.lh, isHome start b
  lhNodup : s.lh.Nodup
  headHome : ∀ b ∈ s.head, isHome start b
  headNodup : s.head.Nodup
  headFits : s.head.length < LOGSIZE

/-- `log.outstanding` counts the active operations. -/
structure Outstanding (s : State B) : Prop where
  count : ∃ A : Finset Op, A.card = s.outstanding ∧ ∀ i, i ∈ A ↔ (s.ops i).active
  loose : ∀ i, s.loose i ≠ [] → (s.ops i).active
  committing : s.committing = s.pc.commits

/-- Every operation belongs to one transaction, as a whole. -/
structure Whole (s : State B) (g : History B) : Prop where
  ended : ∀ ws ∈ g.groups, ∀ w ∈ ws, s.ops w.op = .ended
  born : ∀ w ∈ g.current, s.ops w.op ≠ .unborn
  fresh : ∀ w ∈ g.current, ∀ ws ∈ g.groups, ∀ v ∈ ws, v.op ≠ w.op
  once : g.groups.Pairwise fun x y => ∀ w ∈ x, ∀ v ∈ y, w.op ≠ v.op

/-! ## Phases -/

/-- The part of a state the phases speak of: which blocks have a buffer does not
matter, only what `bread` returns. -/
structure Contents (B : Type) where
  disk : Nat → B
  view : Nat → B
  head : List Nat
  lh : List Nat
  dirty : Nat → Bool
  loose : Op → List Nat
  outstanding : Nat

def State.contents (s : State B) : Contents B where
  disk := s.disk
  view := s.view
  head := s.head
  lh := s.lh
  dirty := s.dirty
  loose := s.loose
  outstanding := s.outstanding

/-- No operation is active and no transaction is open. -/
structure Quiet (s : Contents B) (g : History B) : Prop where
  outstanding : s.outstanding = 0
  current : g.current = []
  loose : ∀ i, s.loose i = []

/-- Operations may run. -/
structure Working (start : Nat) (s : Contents B) (g : History B) : Prop where
  head : s.head = []
  returned : g.returned = g.groups.length
  logged : ∀ b ∈ s.lh, s.dirty b = true
  disk : ∀ b, isHome start b → s.disk b = g.after g.groups.length b
  view : ∀ b, isHome start b →
    s.view b = applyWrites (History.writes g.current) (g.after g.groups.length) b

/-- `commit` is under way, and the buffers hold the new state. -/
structure Committing (start : Nat) (s : Contents B) (g : History B) : Prop extends
    Quiet s g where
  returned : g.returned + 1 = g.groups.length
  view : ∀ b, isHome start b → s.view b = g.after g.groups.length b

/-- `write_log` has copied the first `t` blocks. -/
structure WritingLog (start : Nat) (s : Contents B) (g : History B) (t : Nat) : Prop extends
    Committing start s g where
  head : s.head = []
  logged : ∀ b ∈ s.lh, s.dirty b = true
  le : t ≤ s.lh.length
  nonempty : s.lh ≠ []
  fits : 0 < t → s.lh.length < LOGSIZE
  disk : ∀ b, isHome start b → s.disk b = g.after g.returned b
  slots : ∀ (i : Nat) (hi : i < s.lh.length), i < t →
    s.disk (slot start i) = g.after g.groups.length s.lh[i]

/-- `install_trans` of a commit has copied the first `t` blocks. -/
structure Installing (start : Nat) (s : Contents B) (g : History B) (t : Nat) : Prop extends
    Committing start s g where
  head : s.head = s.lh
  le : t ≤ s.lh.length
  slots : ∀ (i : Nat) (hi : i < s.lh.length),
    s.disk (slot start i) = g.after g.groups.length s.lh[i]
  clean : ∀ (i : Nat) (hi : i < s.lh.length), i < t → s.dirty s.lh[i] = false

/-- The transaction has been erased from the log. -/
structure Finished (start : Nat) (s : Contents B) (g : History B) : Prop extends
    Committing start s g where
  head : s.head = []
  lh : s.lh = []

/-- The disk would be recovered to the state after a prefix of the commits. -/
def Durable (start : Nat) (s : Contents B) (g : History B) : Prop :=
  ∃ k, g.returned ≤ k ∧ k ≤ g.groups.length ∧
    ∀ b, isHome start b → recovered (slot start) s.head s.disk b = g.after k b

/-- `install_trans` of a recovery has copied the first `t` blocks. -/
structure Recovering (start : Nat) (s : Contents B) (g : History B) (t : Nat) : Prop extends
    Quiet s g where
  durable : Durable start s g
  clean : ∀ b, s.dirty b = false
  lh : s.lh = s.head
  le : t ≤ s.head.length
  copied : ∀ (i : Nat) (hi : i < s.head.length), i < t →
    s.disk s.head[i] = s.disk (slot start i)

/-- The machine has just been switched on. -/
structure Booting (start : Nat) (s : Contents B) (g : History B) : Prop extends
    Quiet s g where
  durable : Durable start s g
  clean : ∀ b, s.dirty b = false

/-- What holds where the process stands. -/
def Phase (start : Nat) (pc : LogPc) (s : Contents B) (g : History B) : Prop :=
  match pc with
  | .running => Working start s g
  | .writeLog t => WritingLog start s g t
  | .writeHead => WritingLog start s g s.lh.length
  | .installTrans t => Installing start s g t
  | .eraseHead => Installing start s g s.lh.length
  | .committed => Finished start s g
  | .readHead => Booting start s g
  | .recoverTrans t => Recovering start s g t
  | .recoverErase => Recovering start s g s.head.length

/-- The invariant. -/
structure Logged (start : Nat) (s : State B) (g : History B) : Prop where
  buffers : Buffers start s
  outstanding : Outstanding s
  whole : Whole s g
  phase : Phase start s.pc s.contents g

/-! ## Commits -/

namespace History

variable (g : History B)

/-- `commit` is called. -/
def close : History B := { g with groups := g.groups ++ [g.current], current := [] }

theorem close_length : g.close.groups.length = g.groups.length + 1 := by
  simp [close]

/-- Earlier commits are not affected. -/
theorem close_after {k : Nat} (hk : k ≤ g.groups.length) : g.close.after k = g.after k := by
  simp only [after, close, List.take_append_of_le_length hk]

/-- The commit adds the modifications of the present transaction. -/
theorem close_after_last :
    g.close.after (g.groups.length + 1) =
      applyWrites (writes g.current) (g.after g.groups.length) := by
  have htake : (g.groups ++ [g.current]).take (g.groups.length + 1) =
      g.groups ++ [g.current] := by
    rw [List.take_of_length_le (by simp)]
  simp only [after, close, htake, List.take_length, List.flatten_append, List.flatten_singleton]
  rw [← applyWrites_append]
  simp [writes]

end History

section Buffers

variable {start : Nat} {s s' : State B} {g : History B} {b c : Nat} {i : Op}

/-- `bread` changes no contents. -/
theorem bread_spec (h : s.bread b = some s') :
    ∃ D, s' = { s with cached := insert b s.cached, data := D } ∧
      (∀ x, s'.view x = s.view x) ∧ (s.cached.card ≤ NBUF → s'.cached.card ≤ NBUF) := by
  unfold State.bread at h
  split at h
  · rename_i hb
    cases h
    refine ⟨s.data, ?_, fun _ => rfl, id⟩
    rw [Finset.insert_eq_of_mem hb]
  · rename_i hb
    split at h
    · rename_i hfree
      cases h
      refine ⟨_, rfl, fun x => ?_, fun _ => ?_⟩
      · by_cases hx : x = b
        · subst hx
          simp [State.view, hb]
        · simp [State.view, hx]
      · rw [Finset.card_insert_of_notMem hb]
        exact hfree
    · cases h

/-- `copyBlock` writes one block, and its buffer is clean then. -/
theorem copyBlock_spec (h : s.copyBlock b c = some s') :
    ∃ C D, s' = { s with cached := C, data := D
                         disk := Function.update s.disk b (s.view c)
                         dirty := Function.update s.dirty b false } ∧
      s.cached ⊆ C ∧ b ∈ C ∧ (s.cached.card ≤ NBUF → C.card ≤ NBUF) ∧
      s.holder b = none ∧ s'.view = Function.update s.view b (s.view c) := by
  unfold State.copyBlock at h
  split at h
  · rename_i hheld
    split at h
    · rename_i s₁ h₁
      split at h
      · rename_i s₂ h₂
        cases h
        obtain ⟨D₁, rfl, hview₁, hcard₁⟩ := bread_spec h₁
        obtain ⟨D₂, rfl, hview₂, hcard₂⟩ := bread_spec h₂
        have hdata : D₂ c = s.view c := by
          have hc := (hview₂ c).trans (hview₁ c)
          simpa [State.view] using hc
        refine ⟨insert c (insert b s.cached), Function.update D₂ b (D₂ c), ?_, ?_, ?_, ?_,
          hheld.1, ?_⟩
        · simp [State.put, State.bwrite, hdata]
        · intro x hx
          simp [hx]
        · simp
        · exact fun hcard => hcard₂ (hcard₁ hcard)
        · funext x
          by_cases hx : x = b
          · subst hx
            simp [State.view, State.put, State.bwrite, hdata]
          · have hview := (hview₂ x).trans (hview₁ x)
            simp only [State.view, State.put, State.bwrite, Function.update_of_ne hx] at hview ⊢
            exact hview
      · cases h
    · cases h
  · cases h

/-! ### Steps that change no contents -/

/-- A buffer is filled. -/
theorem Buffers.bread (h : Buffers start s) (hb : s.bread b = some s') : Buffers start s' := by
  obtain ⟨D, rfl, hview, hcard⟩ := bread_spec hb
  exact
    { card := hcard h.card
      dirtyCached := fun x hx => Finset.mem_insert_of_mem (h.dirtyCached x hx)
      dirtyLogged := h.dirtyLogged
      held := fun x i hx => ⟨Finset.mem_insert_of_mem (h.held x i hx).1, (h.held x i hx).2⟩
      loose := h.loose
      logging := h.logging
      clean := fun x hx hl => (hview x).trans (h.clean x hx hl)
      lhHome := h.lhHome
      lhNodup := h.lhNodup
      headHome := h.headHome
      headNodup := h.headNodup
      headFits := h.headFits }

theorem contents_bread (hb : s.bread b = some s') :
    s'.contents = s.contents ∧ s'.pc = s.pc := by
  obtain ⟨D, rfl, hview, _⟩ := bread_spec hb
  refine ⟨?_, rfl⟩
  simp only [State.contents, Contents.mk.injEq, and_true, true_and]
  exact funext hview

theorem Outstanding.bread (h : Outstanding s) (hb : s.bread b = some s') : Outstanding s' := by
  obtain ⟨D, rfl, _, _⟩ := bread_spec hb
  exact ⟨h.count, h.loose, h.committing⟩

theorem Whole.bread (h : Whole s g) (hb : s.bread b = some s') : Whole s' g := by
  obtain ⟨D, rfl, _, _⟩ := bread_spec hb
  exact ⟨h.ended, h.born, h.fresh, h.once⟩

/-- A reader fills a buffer. -/
theorem Logged.load (h : Logged start s g) (hb : s.bread b = some s') : Logged start s' g where
  buffers := h.buffers.bread hb
  outstanding := h.outstanding.bread hb
  whole := h.whole.bread hb
  phase := by
    obtain ⟨hsame, hpc⟩ := contents_bread hb
    rw [hsame, hpc]
    exact h.phase

/-- A clean buffer that nobody holds is given to another block. -/
theorem Logged.recycle (h : Logged start s g) (hdirty : s.dirty b = false)
    (hholder : s.holder b = none) :
    Logged start { s with cached := s.cached.erase b } g := by
  have hloose : ∀ i, b ∉ s.loose i := by
    intro i hi
    rw [h.buffers.loose i b hi] at hholder
    cases hholder
  have hview : ∀ x, State.view { s with cached := s.cached.erase b } x = s.view x := by
    intro x
    by_cases hx : x = b
    · subst hx
      rw [h.buffers.clean x hdirty hloose]
      simp [State.view]
    · simp [State.view, hx]
  refine
    { buffers :=
        { h.buffers with
          card := (Finset.card_le_card (Finset.erase_subset _ _)).trans h.buffers.card
          dirtyCached := fun x hx => ?_
          held := fun x i hx => ⟨?_, (h.buffers.held x i hx).2⟩
          clean := fun x hx hl => (hview x).trans (h.buffers.clean x hx hl) }
      outstanding := ⟨h.outstanding.count, h.outstanding.loose, h.outstanding.committing⟩
      whole := ⟨h.whole.ended, h.whole.born, h.whole.fresh, h.whole.once⟩
      phase := ?_ }
  · have hne : x ≠ b := by
      intro heq
      rw [heq, hdirty] at hx
      cases hx
    exact Finset.mem_erase.2 ⟨hne, h.buffers.dirtyCached x hx⟩
  · have hne : x ≠ b := by
      intro heq
      rw [heq, hholder] at hx
      cases hx
    exact Finset.mem_erase.2 ⟨hne, (h.buffers.held x i hx).1⟩
  · have hsame : State.contents { s with cached := s.cached.erase b } = s.contents := by
      simp only [State.contents, Contents.mk.injEq, and_true, true_and]
      exact funext hview
    rw [hsame]
    exact h.phase

/-- An operation gives back a buffer that it has not modified since it passed it
to `log_write`. -/
theorem Logged.brelse (h : Logged start s g) (hheld : s.holder b = some i)
    (hloose : b ∉ s.loose i) (hpc : s.ops i ≠ .logging b) :
    Logged start { s with holder := Function.update s.holder b none } g := by
  have hother : ∀ {x j}, s.holder x = some j → x ≠ b →
      Function.update s.holder b none x = some j := by
    intro x j hx hne
    rw [Function.update_of_ne hne, hx]
  refine
    { buffers :=
        { h.buffers with
          held := fun x j hx => ?_
          loose := fun j x hx => ?_
          logging := fun j x hx => ?_ }
      outstanding := ⟨h.outstanding.count, h.outstanding.loose, h.outstanding.committing⟩
      whole := ⟨h.whole.ended, h.whole.born, h.whole.fresh, h.whole.once⟩
      phase := h.phase }
  · by_cases hxb : x = b
    · subst hxb
      simp at hx
    · simp only [Function.update_of_ne hxb] at hx
      exact h.buffers.held x j hx
  · have hxj := h.buffers.loose j x hx
    refine hother hxj fun heq => ?_
    rw [heq, hheld] at hxj
    rw [heq, ← Option.some.inj hxj] at hx
    exact hloose hx
  · have hxj := h.buffers.logging j x hx
    refine hother hxj fun heq => ?_
    rw [heq, hheld] at hxj
    rw [heq, ← Option.some.inj hxj] at hx
    exact hpc hx

/-! ### Operations -/

/-- While an operation is active no commit is under way. -/
theorem Logged.working (h : Logged start s g) (ha : (s.ops i).active) :
    s.pc = .running ∧ Working start s.contents g := by
  have hpos : s.outstanding ≠ 0 := by
    intro hzero
    obtain ⟨A, hcard, hmem⟩ := h.outstanding.count
    rw [hzero, Finset.card_eq_zero] at hcard
    have hi := (hmem i).2 ha
    rw [hcard] at hi
    cases hi
  have hphase := h.phase
  cases hpc : s.pc <;> rw [hpc] at hphase
  case running => exact ⟨rfl, hphase⟩
  all_goals exact absurd hphase.outstanding hpos

/-- An operation goes on. -/
theorem Outstanding.ofSame (h : Outstanding s) (ha : (s.ops i).active) {k : OpPc}
    (hk : k.active) (hops : s'.ops = Function.update s.ops i k)
    (hout : s'.outstanding = s.outstanding) (hloose : ∀ j, j ≠ i → s'.loose j = s.loose j)
    (hcommitting : s'.committing = s.committing) (hpc : s'.pc = s.pc) : Outstanding s' := by
  have hactive : ∀ j, (s'.ops j).active ↔ (s.ops j).active := by
    intro j
    rw [hops]
    by_cases hj : j = i
    · subst hj
      simp [ha, hk]
    · rw [Function.update_of_ne hj]
  obtain ⟨A, hcard, hmem⟩ := h.count
  refine ⟨⟨A, by rw [hout, hcard], fun j => by rw [hactive, hmem]⟩, fun j hj => ?_, ?_⟩
  · rw [hactive]
    by_cases hji : j = i
    · rw [hji]
      exact ha
    · rw [hloose j hji] at hj
      exact h.loose j hj
  · rw [hcommitting, hpc]
    exact h.committing

/-- What an active operation does is no part of an earlier transaction. -/
theorem Whole.ofSame (h : Whole s g) (ha : (s.ops i).active) {k : OpPc} (hk : k.active)
    (hops : s'.ops = Function.update s.ops i k) : Whole s' g := by
  refine ⟨fun ws hws w hw => ?_, fun w hw => ?_, h.fresh, h.once⟩
  · have hended := h.ended ws hws w hw
    have hne : w.op ≠ i := by
      intro heq
      rw [heq] at hended
      rw [hended] at ha
      exact ha
    rw [hops, Function.update_of_ne hne]
    exact hended
  · rw [hops]
    by_cases hwi : w.op = i
    · rw [hwi, Function.update_self]
      intro heq
      rw [heq] at hk
      exact hk
    · rw [Function.update_of_ne hwi]
      exact h.born w hw

/-- `begin_op`. -/
theorem Logged.beginOp (h : Logged start s g) (hs : s.beginOp i = some s') :
    Logged start s' g := by
  unfold State.beginOp at hs
  split at hs
  · rename_i hguard
    split at hs
    · cases hs
    · rename_i hcommitting
      split at hs
      · cases hs
      · cases hs
        have hunborn := hguard.1
        have hnotActive : ¬ (s.ops i).active := by
          rw [hunborn]
          exact id
        have hpc : s.pc = .running := by
          have hcommits := h.outstanding.committing
          rw [Bool.not_eq_true] at hcommitting
          rw [hcommitting] at hcommits
          have hrec := hguard.2
          cases hpc : s.pc <;> simp [hpc, LogPc.recovering, LogPc.commits] at hrec hcommits ⊢
        have hphase := h.phase
        rw [hpc] at hphase
        refine
          { buffers :=
              { h.buffers with
                logging := fun j b hj => ?_ }
            outstanding := ⟨?_, fun j hj => ?_, h.outstanding.committing⟩
            whole := ⟨fun ws hws w hw => ?_, fun w hw => ?_, h.whole.fresh, h.whole.once⟩
            phase := ?_ }
        · by_cases hji : j = i
          · subst hji
            simp at hj
          · simp only [Function.update_of_ne hji] at hj
            exact h.buffers.logging j b hj
        · obtain ⟨A, hcard, hmem⟩ := h.outstanding.count
          have hi : i ∉ A := fun hi => hnotActive ((hmem i).1 hi)
          refine ⟨insert i A, ?_, fun j => ?_⟩
          · rw [Finset.card_insert_of_notMem hi, hcard]
          · by_cases hji : j = i
            · subst hji
              simp [OpPc.active]
            · simp [hji, hmem]
        · by_cases hji : j = i
          · subst hji
            exact absurd (h.outstanding.loose j hj) hnotActive
          · simp only [Function.update_of_ne hji]
            exact h.outstanding.loose j hj
        · have hended := h.whole.ended ws hws w hw
          have hne : w.op ≠ i := by
            intro heq
            rw [heq, hunborn] at hended
            cases hended
          simp only [Function.update_of_ne hne]
          exact hended
        · have hne : w.op ≠ i := by
            intro heq
            exact h.whole.born w hw (by rw [heq, hunborn])
          simp only [Function.update_of_ne hne]
          exact h.whole.born w hw
        · simp only [hpc]
          exact ⟨hphase.head, hphase.returned, hphase.logged, hphase.disk, hphase.view⟩
  · cases hs

/-- An operation locks the buffer of a block. -/
theorem Logged.breadOp (h : Logged start s g) (hhome : isHome start b)
    (hfree : s.holder b = none) (hb : s.bread b = some s') :
    Logged start { s' with holder := Function.update s'.holder b (some i) } g := by
  have hload := h.load hb
  obtain ⟨D, rfl, _, _⟩ := bread_spec hb
  have hkeep : ∀ {x j}, s.holder x = some j →
      Function.update s.holder b (some i) x = some j := by
    intro x j hx
    have hne : x ≠ b := by
      intro heq
      rw [heq, hfree] at hx
      cases hx
    rw [Function.update_of_ne hne, hx]
  exact
    { buffers :=
        { hload.buffers with
          held := by
            intro x j hx
            by_cases hxb : x = b
            · rw [hxb]
              exact ⟨Finset.mem_insert_self _ _, hhome⟩
            · simp only [Function.update_of_ne hxb] at hx
              exact hload.buffers.held x j hx
          loose := fun j x hx => hkeep (h.buffers.loose j x hx)
          logging := fun j x hx => hkeep (h.buffers.logging j x hx) }
      outstanding :=
        ⟨hload.outstanding.count, hload.outstanding.loose, hload.outstanding.committing⟩
      whole := ⟨hload.whole.ended, hload.whole.born, hload.whole.fresh, hload.whole.once⟩
      phase := hload.phase }

/-- An operation stores into a buffer it holds. -/
theorem Logged.modify {v : B} (h : Logged start s g) (hops : s.ops i = .running)
    (hheld : s.holder b = some i) :
    Logged start { s.put b v with loose := Function.update s.loose i (b :: s.loose i) }
      { g with current := g.current ++ [⟨i, b, v⟩] } := by
  have ha : (s.ops i).active := by
    rw [hops]
    trivial
  obtain ⟨hpc, hwork⟩ := h.working ha
  obtain ⟨hcached, hhome⟩ := h.buffers.held b i hheld
  have hview : ∀ x, State.view
      { s.put b v with loose := Function.update s.loose i (b :: s.loose i) } x =
        Function.update s.view b v x := by
    intro x
    by_cases hx : x = b
    · subst hx
      simp [State.view, State.put, hcached]
    · simp [State.view, State.put, hx]
  refine
    { buffers :=
        { h.buffers with
          loose := fun j x hx => ?_
          clean := fun x hx hl => ?_ }
      outstanding :=
        h.outstanding.ofSame ha (k := .running) trivial ?_ rfl (fun j hj => ?_) rfl rfl
      whole := ⟨h.whole.ended, fun w hw => ?_, fun w hw ws hws u hu => ?_, h.whole.once⟩
      phase := ?_ }
  · by_cases hj : j = i
    · subst hj
      simp only [Function.update_self, List.mem_cons] at hx
      rcases hx with rfl | hx
      · exact hheld
      · exact h.buffers.loose j x hx
    · simp only [Function.update_of_ne hj] at hx
      exact h.buffers.loose j x hx
  · have hne : x ≠ b := by
      intro heq
      exact hl i (by simp [heq])
    rw [hview, Function.update_of_ne hne]
    refine h.buffers.clean x hx fun j hj => hl j ?_
    by_cases hji : j = i
    · subst hji
      simp [hj]
    · simpa [hji] using hj
  · rw [← hops, Function.update_eq_self]
    rfl
  · simp [hj]
  · rcases List.mem_append.1 hw with hw | hw
    · exact h.whole.born w hw
    · rw [List.mem_singleton.1 hw]
      simp [State.put, hops]
  · rcases List.mem_append.1 hw with hw | hw
    · exact h.whole.fresh w hw ws hws u hu
    · rw [List.mem_singleton.1 hw]
      intro heq
      have hended := h.whole.ended ws hws u hu
      rw [heq, hops] at hended
      cases hended
  · simp only [State.put, hpc]
    refine ⟨hwork.head, hwork.returned, hwork.logged, hwork.disk, fun x hx => ?_⟩
    have hwrites : History.writes (g.current ++ [⟨i, b, v⟩]) =
        History.writes g.current ++ [(b, v)] := by
      simp [History.writes]
    rw [hwrites, applyWrites_snoc]
    refine (hview x).trans ?_
    by_cases hxb : x = b
    · subst hxb
      simp
    · rw [Function.update_of_ne hxb, Function.update_of_ne hxb]
      exact hwork.view x hx

/-- An operation passes the tests of `log_write`. -/
theorem Logged.logWrite (h : Logged start s g) (hs : s.logWrite i b = some s') :
    Logged start s' g := by
  unfold State.logWrite at hs
  split at hs
  · rename_i hguard
    split at hs
    · cases hs
    · split at hs
      · cases hs
      · cases hs
        have ha : (s.ops i).active := by
          rw [hguard.1]
          trivial
        obtain ⟨hpc, hwork⟩ := h.working ha
        refine
          { buffers :=
              { h.buffers with
                logging := fun j x hj => ?_ }
            outstanding := h.outstanding.ofSame ha (k := .logging b) trivial rfl rfl
              (fun _ _ => rfl) rfl rfl
            whole := h.whole.ofSame ha (k := .logging b) trivial rfl
            phase := h.phase }
        by_cases hji : j = i
        · subst hji
          simp only [Function.update_self, OpPc.logging.injEq] at hj
          rw [← hj]
          exact hguard.2
        · simp only [Function.update_of_ne hji] at hj
          exact h.buffers.logging j x hj
  · cases hs

/-- The locked part of `log_write`. -/
theorem Logged.append (h : Logged start s g) (hs : s.append i = some s') :
    Logged start s' g := by
  unfold State.append at hs
  split at hs
  · rename_i b hops
    cases hs
    have ha : (s.ops i).active := by
      rw [hops]
      trivial
    obtain ⟨hpc, hwork⟩ := h.working ha
    have hheld := h.buffers.logging i b hops
    obtain ⟨hcached, hhome⟩ := h.buffers.held b i hheld
    have hsub : ∀ x, x ∈ s.lh → x ∈ (if b ∈ s.lh then s.lh else s.lh ++ [b]) := by
      intro x hx
      split
      · exact hx
      · simp [hx]
    have hmem : b ∈ (if b ∈ s.lh then s.lh else s.lh ++ [b]) := by
      split
      · assumption
      · simp
    have hcases : ∀ x, x ∈ (if b ∈ s.lh then s.lh else s.lh ++ [b]) → x ∈ s.lh ∨ x = b := by
      intro x hx
      split at hx
      · exact .inl hx
      · simpa using hx
    refine
      { buffers :=
          { h.buffers with
            dirtyCached := fun x hx => ?_
            dirtyLogged := fun x hx => ?_
            loose := fun j x hx => ?_
            logging := fun j x hj => ?_
            clean := fun x hx hl => ?_
            lhHome := fun x hx => ?_
            lhNodup := ?_ }
        outstanding := h.outstanding.ofSame ha (k := .running) trivial rfl rfl
          (fun j hj => Function.update_of_ne hj _ _) rfl rfl
        whole := h.whole.ofSame ha (k := .running) trivial rfl
        phase := ?_ }
    · by_cases hxb : x = b
      · rw [hxb]
        exact hcached
      · simp only [Function.update_of_ne hxb] at hx
        exact h.buffers.dirtyCached x hx
    · by_cases hxb : x = b
      · rw [hxb]
        exact hmem
      · simp only [Function.update_of_ne hxb] at hx
        exact hsub x (h.buffers.dirtyLogged x hx)
    · by_cases hj : j = i
      · subst hj
        simp only [Function.update_self, List.mem_filter] at hx
        exact h.buffers.loose j x hx.1
      · simp only [Function.update_of_ne hj] at hx
        exact h.buffers.loose j x hx
    · by_cases hji : j = i
      · subst hji
        simp at hj
      · simp only [Function.update_of_ne hji] at hj
        exact h.buffers.logging j x hj
    · have hxb : x ≠ b := by
        intro heq
        simp [heq] at hx
      simp only [Function.update_of_ne hxb] at hx
      refine h.buffers.clean x hx fun j hj => hl j ?_
      by_cases hji : j = i
      · subst hji
        simp [hj, hxb]
      · simpa [hji] using hj
    · rcases hcases x hx with hx | rfl
      · exact h.buffers.lhHome x hx
      · exact hhome
    · by_cases hb : b ∈ s.lh
      · simp only [hb, if_true]
        exact h.buffers.lhNodup
      · simp only [hb, if_false]
        refine List.nodup_append.2 ⟨h.buffers.lhNodup, List.nodup_singleton b, ?_⟩
        intro x hx y hy heq
        rw [List.mem_singleton.1 hy] at heq
        rw [heq] at hx
        exact hb hx
    · simp only [hpc]
      refine ⟨hwork.head, hwork.returned, fun x hx => ?_, hwork.disk, hwork.view⟩
      by_cases hxb : x = b
      · simp [State.contents, hxb]
      · simp only [State.contents, Function.update_of_ne hxb]
        rcases hcases x hx with hx | hx
        · exact hwork.logged x hx
        · exact absurd hx hxb
  · cases hs

/-- The set of active operations loses `i`. -/
theorem active_end (k : Op) :
    (Function.update s.ops i OpPc.ended k).active ↔ k ≠ i ∧ (s.ops k).active := by
  by_cases hk : k = i
  · subst hk
    simp [OpPc.active]
  · simp [hk]

/-- An operation ends and others are active. -/
theorem Logged.endOp (h : Logged start s g) (hops : s.ops i = .running)
    (hloose : s.loose i = []) :
    Logged start { s with outstanding := s.outstanding - 1
                          ops := Function.update s.ops i .ended } g := by
  have ha : (s.ops i).active := by
    rw [hops]
    trivial
  obtain ⟨hpc, hwork⟩ := h.working ha
  refine
    { buffers :=
        { h.buffers with
          logging := fun j x hj => ?_ }
      outstanding := ⟨?_, fun j hj => ?_, h.outstanding.committing⟩
      whole := ⟨fun ws hws w hw => ?_, fun w hw => ?_, h.whole.fresh, h.whole.once⟩
      phase := ?_ }
  · by_cases hji : j = i
    · subst hji
      simp at hj
    · simp only [Function.update_of_ne hji] at hj
      exact h.buffers.logging j x hj
  · obtain ⟨A, hcard, hmem⟩ := h.outstanding.count
    have hi : i ∈ A := (hmem i).2 ha
    refine ⟨A.erase i, ?_, fun k => ?_⟩
    · rw [Finset.card_erase_of_mem hi, hcard]
    · rw [Finset.mem_erase, hmem, active_end]
  · rw [active_end]
    refine ⟨fun heq => ?_, h.outstanding.loose j hj⟩
    rw [heq] at hj
    exact hj hloose
  · by_cases hwi : w.op = i
    · simp [hwi]
    · simp only [Function.update_of_ne hwi]
      exact h.whole.ended ws hws w hw
  · by_cases hwi : w.op = i
    · simp [hwi]
    · simp only [Function.update_of_ne hwi]
      exact h.whole.born w hw
  · simp only [hpc]
    exact ⟨hwork.head, hwork.returned, hwork.logged, hwork.disk, hwork.view⟩

/-- `end_op`: the last operation starts the commit. -/
theorem Logged.startCommit (h : Logged start s g) (hpc : s.pc = .running)
    (hzero : s.outstanding = 0) :
    Logged start { s with committing := true
                          pc := if s.lh = [] then .committed else .writeLog 0 } g.close := by
  have hphase := h.phase
  rw [hpc] at hphase
  obtain ⟨A, hcard, hmem⟩ := h.outstanding.count
  rw [hzero, Finset.card_eq_zero] at hcard
  have hnone : ∀ j, ¬ (s.ops j).active := by
    intro j hj
    have hjA := (hmem j).2 hj
    rw [hcard] at hjA
    cases hjA
  have hloose : ∀ j, s.loose j = [] := by
    intro j
    by_contra hj
    exact hnone j (h.outstanding.loose j hj)
  have hended : ∀ w ∈ g.current, s.ops w.op = .ended := by
    intro w hw
    have hborn := h.whole.born w hw
    have hidle := hnone w.op
    cases hops : s.ops w.op <;> simp [hops, OpPc.active] at hborn hidle ⊢
  have hreturned : g.close.returned + 1 = g.close.groups.length := by
    rw [History.close_length]
    exact congrArg (· + 1) hphase.returned
  have hcommitting : Committing start
      (State.contents { s with
        committing := true
        pc := if s.lh = [] then .committed else .writeLog 0 }) g.close :=
    { outstanding := hzero
      current := rfl
      loose := hloose
      returned := hreturned
      view := fun b hb => by
        rw [History.close_length, History.close_after_last]
        exact hphase.view b hb }
  refine
    { buffers :=
        ⟨h.buffers.card, h.buffers.dirtyCached, h.buffers.dirtyLogged, h.buffers.held,
          h.buffers.loose, h.buffers.logging, h.buffers.clean, h.buffers.lhHome,
          h.buffers.lhNodup, h.buffers.headHome, h.buffers.headNodup, h.buffers.headFits⟩
      outstanding := ⟨h.outstanding.count, h.outstanding.loose, ?_⟩
      whole := ⟨fun ws hws w hw => ?_, ?_, ?_, ?_⟩
      phase := ?_ }
  · by_cases hlh : s.lh = []
    · simp [hlh, LogPc.commits]
    · simp [hlh, LogPc.commits]
  · rcases List.mem_append.1 hws with hws | hws
    · exact h.whole.ended ws hws w hw
    · rw [List.mem_singleton.1 hws] at hw
      exact hended w hw
  · simp [History.close]
  · simp [History.close]
  · refine List.pairwise_append.2 ⟨h.whole.once, List.pairwise_singleton _ _, ?_⟩
    intro ws hws vs hvs w hw v hv
    rw [List.mem_singleton.1 hvs] at hv
    exact h.whole.fresh v hv ws hws w hw
  · by_cases hlh : s.lh = []
    · simp only [hlh, if_true] at hcommitting ⊢
      exact { hcommitting with head := hphase.head, lh := rfl }
    · simp only [hlh, if_false] at hcommitting ⊢
      exact
        { hcommitting with
          head := hphase.head
          logged := hphase.logged
          le := Nat.zero_le _
          nonempty := hlh
          fits := fun hpos => absurd hpos (Nat.lt_irrefl 0)
          disk := fun b hb => by
            have hold : g.close.returned = g.groups.length := hphase.returned
            rw [hold, History.close_after g le_rfl]
            exact hphase.disk b hb
          slots := fun i hi hpos => absurd hpos (Nat.not_lt_zero i) }

/-! ### The committing process -/

/-- The slots lie inside the log. -/
theorem not_isHome_slot {t : Nat} (ht : t + 1 < LOGSIZE) : ¬ isHome start (slot start t) := by
  unfold isHome slot
  omega

theorem ne_slot {x t : Nat} (hx : isHome start x) (ht : t + 1 < LOGSIZE) : x ≠ slot start t := by
  intro heq
  rw [heq] at hx
  exact not_isHome_slot ht hx

/-- A clean buffer holds what is on the disk. -/
theorem Buffers.view_eq (h : Buffers start s) (hloose : ∀ i, s.loose i = [])
    (hb : s.dirty b = false) : s.view b = s.disk b := by
  refine h.clean b hb fun i hi => ?_
  rw [hloose i] at hi
  cases hi

theorem Buffers.not_dirty (h : Buffers start s) (hb : b ∉ s.lh) : s.dirty b = false := by
  cases hd : s.dirty b with
  | false => rfl
  | true => exact absurd (h.dirtyLogged b hd) hb

/-- A slot is never dirty. -/
theorem Buffers.slot_clean (h : Buffers start s) {t : Nat} (ht : t + 1 < LOGSIZE) :
    s.dirty (slot start t) = false :=
  h.not_dirty fun hmem => not_isHome_slot ht (h.lhHome _ hmem)

/-- A block is copied to another. -/
theorem Buffers.copy {C : Finset Nat} {D : Nat → B} {pc : LogPc} (h : Buffers start s)
    (hC : s.cached ⊆ C) (hcard : C.card ≤ NBUF)
    (hview : State.view { s with cached := C, data := D
                                 disk := Function.update s.disk b (s.view c)
                                 dirty := Function.update s.dirty b false } =
      Function.update s.view b (s.view c)) :
    Buffers start { s with cached := C, data := D, pc := pc
                           disk := Function.update s.disk b (s.view c)
                           dirty := Function.update s.dirty b false } := by
  have hdirty : ∀ {x}, Function.update s.dirty b false x = true → s.dirty x = true := by
    intro x hx
    by_cases hxb : x = b
    · subst hxb
      simp at hx
    · rwa [Function.update_of_ne hxb] at hx
  refine
    { card := hcard
      dirtyCached := fun x hx => hC (h.dirtyCached x (hdirty hx))
      dirtyLogged := fun x hx => h.dirtyLogged x (hdirty hx)
      held := fun x i hx => ⟨hC (h.held x i hx).1, (h.held x i hx).2⟩
      loose := h.loose
      logging := h.logging
      clean := fun x hx hl => ?_
      lhHome := h.lhHome
      lhNodup := h.lhNodup
      headHome := h.headHome
      headNodup := h.headNodup
      headFits := h.headFits }
  refine (congrFun hview x).trans ?_
  by_cases hxb : x = b
  · subst hxb
    simp
  · simp only [Function.update_of_ne hxb] at hx ⊢
    exact h.clean x hx hl

theorem Buffers.withPc (h : Buffers start s) (pc : LogPc) : Buffers start { s with pc := pc } :=
  ⟨h.card, h.dirtyCached, h.dirtyLogged, h.held, h.loose, h.logging, h.clean, h.lhHome,
    h.lhNodup, h.headHome, h.headNodup, h.headFits⟩

/-- A commit that has a buffer for a slot beside the dirty ones fits in the log. -/
theorem Buffers.fits {C : Finset Nat} (h : Buffers start s)
    (hlogged : ∀ b ∈ s.lh, s.dirty b = true) (hC : s.cached ⊆ C) (hcard : C.card ≤ NBUF)
    (hslot : slot start 0 ∈ C) : s.lh.length < LOGSIZE := by
  have hnot : slot start 0 ∉ s.lh := by
    intro hmem
    refine not_isHome_slot (t := 0) ?_ (h.lhHome _ hmem)
    decide
  have hsub : (slot start 0 :: s.lh).toFinset ⊆ C := by
    intro x hx
    rcases List.mem_cons.1 (List.mem_toFinset.1 hx) with rfl | hx
    · exact hslot
    · exact hC (h.dirtyCached x (hlogged x hx))
  have hnodup : (slot start 0 :: s.lh).Nodup := List.nodup_cons.2 ⟨hnot, h.lhNodup⟩
  have hle := (Finset.card_le_card hsub).trans hcard
  rw [List.toFinset_card_of_nodup hnodup, List.length_cons] at hle
  exact hle

/-- One round of `write_log`. -/
theorem Logged.writeLog {t : Nat} (h : Logged start s g) (hpc : s.pc = .writeLog t)
    (hs : s.writeLogBlock start t = some s') : Logged start s' g := by
  have hphase := h.phase
  rw [hpc] at hphase
  have hcommits := h.outstanding.committing
  rw [hpc] at hcommits
  unfold State.writeLogBlock at hs
  split at hs
  · rename_i b hb
    obtain ⟨s₁, h₁, rfl⟩ := Option.map_eq_some_iff.1 hs
    obtain ⟨C, D, rfl, hC, hmem, hcard, _, hview⟩ := copyBlock_spec h₁
    obtain ⟨ht, hbt⟩ := List.getElem?_eq_some_iff.1 hb
    have hfits : s.lh.length < LOGSIZE := by
      by_cases hpos : 0 < t
      · exact hphase.fits hpos
      · have hzero : t = 0 := by omega
        subst hzero
        exact h.buffers.fits hphase.logged hC (hcard h.buffers.card) hmem
    have hne : ∀ {x}, isHome start x → x ≠ slot start t := fun hx => ne_slot hx (by omega)
    have hbhome : isHome start b := h.buffers.lhHome b (hbt ▸ List.getElem_mem ht)
    exact
      { buffers := h.buffers.copy hC (hcard h.buffers.card) hview
        outstanding := ⟨h.outstanding.count, h.outstanding.loose, hcommits⟩
        whole := ⟨h.whole.ended, h.whole.born, h.whole.fresh, h.whole.once⟩
        phase :=
          { outstanding := hphase.outstanding
            current := hphase.current
            loose := hphase.loose
            returned := hphase.returned
            view := fun x hx => by
              refine (congrFun hview x).trans ?_
              rw [Function.update_of_ne (hne hx)]
              exact hphase.view x hx
            head := hphase.head
            logged := fun x hx => by
              simp only [State.contents, Function.update_of_ne (hne (h.buffers.lhHome x hx))]
              exact hphase.logged x hx
            le := ht
            nonempty := hphase.nonempty
            fits := fun _ => hfits
            disk := fun x hx => by
              simp only [State.contents, Function.update_of_ne (hne hx)]
              exact hphase.disk x hx
            slots := fun i hi hit => by
              simp only [State.contents]
              by_cases heq : i = t
              · subst heq
                rw [Function.update_self]
                have hvb := hphase.view b hbhome
                rw [← hbt] at hvb ⊢
                exact hvb
              · have hslots : slot start i ≠ slot start t := by
                  unfold slot
                  omega
                rw [Function.update_of_ne hslots]
                exact hphase.slots i hi (by omega) } }
  · rename_i hnone
    cases hs
    have hlen : s.lh.length ≤ t := List.getElem?_eq_none_iff.1 hnone
    have ht : t = s.lh.length := Nat.le_antisymm hphase.le hlen
    subst ht
    exact
      { buffers := h.buffers.withPc _
        outstanding := ⟨h.outstanding.count, h.outstanding.loose, hcommits⟩
        whole := ⟨h.whole.ended, h.whole.born, h.whole.fresh, h.whole.once⟩
        phase := hphase }

/-- `write_head` of a commit. -/
theorem Logged.writeHead (h : Logged start s g) (hpc : s.pc = .writeHead) :
    Logged start { s with head := s.lh, pc := .installTrans 0 } g := by
  have hphase := h.phase
  rw [hpc] at hphase
  have hcommits := h.outstanding.committing
  rw [hpc] at hcommits
  have hpos : 0 < s.lh.length := List.length_pos_iff.2 hphase.nonempty
  exact
    { buffers :=
        { h.buffers with
          clean := h.buffers.clean
          headHome := h.buffers.lhHome
          headNodup := h.buffers.lhNodup
          headFits := hphase.fits hpos }
      outstanding := ⟨h.outstanding.count, h.outstanding.loose, hcommits⟩
      whole := ⟨h.whole.ended, h.whole.born, h.whole.fresh, h.whole.once⟩
      phase :=
        { outstanding := hphase.outstanding
          current := hphase.current
          loose := hphase.loose
          returned := hphase.returned
          view := hphase.view
          head := rfl
          le := Nat.zero_le _
          slots := fun i hi => hphase.slots i hi hi
          clean := fun i hi hlt => absurd hlt (Nat.not_lt_zero i) } }

/-- One round of `install_trans` in a commit. -/
theorem Logged.install {t : Nat} (h : Logged start s g) (hpc : s.pc = .installTrans t)
    (hs : s.installBlock start t (.installTrans (t + 1)) .eraseHead = some s') :
    Logged start s' g := by
  have hphase := h.phase
  rw [hpc] at hphase
  have hcommits := h.outstanding.committing
  rw [hpc] at hcommits
  have hfits : s.lh.length < LOGSIZE := by
    have := h.buffers.headFits
    rwa [show s.head = s.lh from hphase.head] at this
  unfold State.installBlock at hs
  split at hs
  · rename_i b hb
    obtain ⟨s₁, h₁, rfl⟩ := Option.map_eq_some_iff.1 hs
    obtain ⟨C, D, rfl, hC, hmem, hcard, _, hview⟩ := copyBlock_spec h₁
    obtain ⟨ht, hbt⟩ := List.getElem?_eq_some_iff.1 hb
    have hbhome : isHome start b := h.buffers.lhHome b (hbt ▸ List.getElem_mem ht)
    -- the slot holds the new contents of the block
    have hslot : s.view (slot start t) = g.after g.groups.length b := by
      rw [h.buffers.view_eq hphase.loose (h.buffers.slot_clean (by omega)), ← hbt]
      exact hphase.slots t ht
    exact
      { buffers := h.buffers.copy hC (hcard h.buffers.card) hview
        outstanding := ⟨h.outstanding.count, h.outstanding.loose, hcommits⟩
        whole := ⟨h.whole.ended, h.whole.born, h.whole.fresh, h.whole.once⟩
        phase :=
          { outstanding := hphase.outstanding
            current := hphase.current
            loose := hphase.loose
            returned := hphase.returned
            view := fun x hx => by
              refine (congrFun hview x).trans ?_
              by_cases hxb : x = b
              · rw [hxb, Function.update_self, hslot]
              · rw [Function.update_of_ne hxb]
                exact hphase.view x hx
            head := hphase.head
            le := ht
            slots := fun i hi => by
              have hi' : i < s.lh.length := hi
              have hne : slot start i ≠ b := Ne.symm (ne_slot hbhome (by omega))
              simp only [State.contents, Function.update_of_ne hne]
              exact hphase.slots i hi
            clean := fun i hi hit => by
              simp only [State.contents, Function.update_apply]
              split
              · rfl
              · rename_i hib
                refine hphase.clean i hi ?_
                have hne : i ≠ t := by
                  intro heq
                  subst heq
                  exact hib hbt
                omega } }
  · rename_i hnone
    cases hs
    have hlen : s.lh.length ≤ t := List.getElem?_eq_none_iff.1 hnone
    have ht : t = s.lh.length := Nat.le_antisymm hphase.le hlen
    subst ht
    exact
      { buffers := h.buffers.withPc _
        outstanding := ⟨h.outstanding.count, h.outstanding.loose, hcommits⟩
        whole := ⟨h.whole.ended, h.whole.born, h.whole.fresh, h.whole.once⟩
        phase := hphase }

/-- After the last round every buffer is clean. -/
theorem Installing.all_clean (h : Buffers start s)
    (hphase : Installing start s.contents g s.lh.length) (b : Nat) : s.dirty b = false := by
  by_cases hb : b ∈ s.lh
  · obtain ⟨i, hi, rfl⟩ := List.getElem_of_mem hb
    exact hphase.clean i hi hi
  · exact h.not_dirty hb

/-- The header is erased. -/
theorem Buffers.erase (h : Buffers start s) (hclean : ∀ b, s.dirty b = false) (pc : LogPc) :
    Buffers start { s with lh := [], head := [], pc := pc } :=
  { h with
    dirtyLogged := fun b hb => by
      simp only [hclean b] at hb
      cases hb
    clean := h.clean
    lhHome := by simp
    lhNodup := List.nodup_nil
    headHome := by simp
    headNodup := List.nodup_nil
    headFits := Nat.zero_lt_succ 29 }

/-- The transaction is erased from the log. -/
theorem Logged.eraseHead (h : Logged start s g) (hpc : s.pc = .eraseHead) :
    Logged start { s with lh := [], head := [], pc := .committed } g := by
  have hphase := h.phase
  rw [hpc] at hphase
  have hcommits := h.outstanding.committing
  rw [hpc] at hcommits
  exact
    { buffers := h.buffers.erase (Installing.all_clean h.buffers hphase) _
      outstanding := ⟨h.outstanding.count, h.outstanding.loose, hcommits⟩
      whole := ⟨h.whole.ended, h.whole.born, h.whole.fresh, h.whole.once⟩
      phase :=
        { outstanding := hphase.outstanding
          current := hphase.current
          loose := hphase.loose
          returned := hphase.returned
          view := hphase.view
          head := rfl
          lh := rfl } }

/-- With an empty log every buffer is clean. -/
theorem Finished.disk_eq (h : Buffers start s) (hphase : Finished start s.contents g)
    {b : Nat} (hb : isHome start b) : s.disk b = g.after g.groups.length b := by
  have hlh : s.lh = [] := hphase.lh
  have hclean : s.dirty b = false := h.not_dirty (by simp [hlh])
  rw [← h.view_eq hphase.loose hclean]
  exact hphase.view b hb

/-- `commit` has returned. -/
theorem Logged.committed (h : Logged start s g) (hpc : s.pc = .committed) :
    Logged start { s with committing := false, pc := .running }
      { g with returned := g.groups.length } := by
  have hphase := h.phase
  rw [hpc] at hphase
  exact
    { buffers := { h.buffers with clean := h.buffers.clean }
      outstanding := ⟨h.outstanding.count, h.outstanding.loose, rfl⟩
      whole := ⟨h.whole.ended, h.whole.born, h.whole.fresh, h.whole.once⟩
      phase :=
        { head := hphase.head
          returned := rfl
          logged := fun b hb => by
            have hlh : s.lh = [] := hphase.lh
            simp [State.contents, hlh] at hb
          disk := fun b hb => Finished.disk_eq h.buffers hphase hb
          view := fun b hb => by
            rw [show g.current = [] from hphase.current]
            exact hphase.view b hb } }

/-! ### Recovery -/

/-- `read_head`. -/
theorem Logged.readHead (h : Logged start s g) (hpc : s.pc = .readHead) :
    Logged start { s with lh := s.head, pc := .recoverTrans 0 } g := by
  have hphase := h.phase
  rw [hpc] at hphase
  have hcommits := h.outstanding.committing
  rw [hpc] at hcommits
  exact
    { buffers :=
        { h.buffers with
          dirtyLogged := fun b hb => by
            have hclean : s.dirty b = false := hphase.clean b
            simp only [hclean] at hb
            cases hb
          clean := h.buffers.clean
          lhHome := h.buffers.headHome
          lhNodup := h.buffers.headNodup }
      outstanding := ⟨h.outstanding.count, h.outstanding.loose, hcommits⟩
      whole := ⟨h.whole.ended, h.whole.born, h.whole.fresh, h.whole.once⟩
      phase :=
        { outstanding := hphase.outstanding
          current := hphase.current
          loose := hphase.loose
          durable := hphase.durable
          clean := hphase.clean
          lh := rfl
          le := Nat.zero_le _
          copied := fun i hi hlt => absurd hlt (Nat.not_lt_zero i) } }

/-- One round of `install_trans` in a recovery. -/
theorem Logged.recoverTrans {t : Nat} (h : Logged start s g) (hpc : s.pc = .recoverTrans t)
    (hs : s.installBlock start t (.recoverTrans (t + 1)) .recoverErase = some s') :
    Logged start s' g := by
  have hphase := h.phase
  rw [hpc] at hphase
  have hcommits := h.outstanding.committing
  rw [hpc] at hcommits
  have hlh : s.lh = s.head := hphase.lh
  have hfits := h.buffers.headFits
  unfold State.installBlock at hs
  split at hs
  · rename_i b hb
    rw [hlh] at hb
    obtain ⟨s₁, h₁, rfl⟩ := Option.map_eq_some_iff.1 hs
    obtain ⟨C, D, rfl, hC, hmem, hcard, _, hview⟩ := copyBlock_spec h₁
    obtain ⟨ht, hbt⟩ := List.getElem?_eq_some_iff.1 hb
    have hbmem : b ∈ s.head := hbt ▸ List.getElem_mem ht
    have hbhome : isHome start b := h.buffers.headHome b hbmem
    have hne : ∀ i, i < s.head.length → slot start i ≠ b := fun i hi =>
      Ne.symm (ne_slot hbhome (by omega))
    have hslot : s.view (slot start t) = s.disk (slot start t) :=
      h.buffers.view_eq hphase.loose (hphase.clean _)
    exact
      { buffers := h.buffers.copy hC (hcard h.buffers.card) hview
        outstanding := ⟨h.outstanding.count, h.outstanding.loose, hcommits⟩
        whole := ⟨h.whole.ended, h.whole.born, h.whole.fresh, h.whole.once⟩
        phase :=
          { outstanding := hphase.outstanding
            current := hphase.current
            loose := hphase.loose
            durable := by
              obtain ⟨k, hlow, hhigh, hdisk⟩ := hphase.durable
              refine ⟨k, hlow, hhigh, fun x hx => ?_⟩
              simp only [State.contents]
              rw [recovered_home hbmem hne]
              exact hdisk x hx
            clean := fun x => by
              simp only [State.contents, Function.update_apply]
              split
              · rfl
              · exact hphase.clean x
            lh := hlh
            le := ht
            copied := fun i hi hit => by
              have hi' : i < s.head.length := hi
              simp only [State.contents, Function.update_of_ne (hne i hi')]
              by_cases heq : i = t
              · subst heq
                rw [hbt, Function.update_self, hslot]
              · have hib : s.head[i] ≠ b := by
                  intro hib
                  rw [← hbt] at hib
                  exact heq ((h.buffers.headNodup.getElem_inj_iff).1 hib)
                rw [Function.update_of_ne hib]
                exact hphase.copied i hi' (by omega) } }
  · rename_i hnone
    rw [hlh] at hnone
    cases hs
    have hlen : s.head.length ≤ t := List.getElem?_eq_none_iff.1 hnone
    have ht : t = s.head.length := Nat.le_antisymm hphase.le hlen
    subst ht
    exact
      { buffers := h.buffers.withPc _
        outstanding := ⟨h.outstanding.count, h.outstanding.loose, hcommits⟩
        whole := ⟨h.whole.ended, h.whole.born, h.whole.fresh, h.whole.once⟩
        phase := hphase }

/-- `recover_from_log` erases the log: `initlog` is completed. -/
theorem Logged.recoverErase (h : Logged start s g) (hpc : s.pc = .recoverErase) :
    Logged start { s with lh := [], head := [], pc := .running } ⟨s.disk, [], 0, []⟩ := by
  have hphase := h.phase
  rw [hpc] at hphase
  have hcommits := h.outstanding.committing
  rw [hpc] at hcommits
  exact
    { buffers := h.buffers.erase hphase.clean _
      outstanding := ⟨h.outstanding.count, h.outstanding.loose, hcommits⟩
      whole := ⟨by simp, by simp, by simp, List.Pairwise.nil⟩
      phase :=
        { head := rfl
          returned := rfl
          logged := by simp [State.contents]
          disk := fun b _ => rfl
          view := fun b _ => h.buffers.view_eq hphase.loose (hphase.clean b) } }

/-! ### Crashes -/

theorem Logged.durable_of_installing {t : Nat} (h : Logged start s g)
    (hphase : Installing start s.contents g t) : Durable start s.contents g := by
  refine ⟨g.groups.length, by have := hphase.returned; omega, le_rfl, fun b hb => ?_⟩
  have hhead : s.contents.head = s.lh := hphase.head
  rw [hhead]
  refine recovered_commit h.buffers.lhNodup hphase.slots fun hmem => ?_
  have hview := h.buffers.view_eq hphase.loose (h.buffers.not_dirty hmem)
  exact hview.symm.trans (hphase.view b hb)

/-- At every moment the disk would be recovered to the state after a prefix of
the commits that have been called, all that have returned among them. -/
theorem Logged.durable (h : Logged start s g) : Durable start s.contents g := by
  have hphase := h.phase
  cases hpc : s.pc <;> rw [hpc] at hphase
  case running =>
    refine ⟨g.groups.length, le_of_eq hphase.returned, le_rfl, fun b hb => ?_⟩
    rw [hphase.head, recovered_nil]
    exact hphase.disk b hb
  case writeLog t | writeHead =>
    refine ⟨g.returned, le_rfl, by have := hphase.returned; omega, fun b hb => ?_⟩
    rw [hphase.head, recovered_nil]
    exact hphase.disk b hb
  case installTrans t | eraseHead => exact h.durable_of_installing hphase
  case committed =>
    refine ⟨g.groups.length, by have := hphase.returned; omega, le_rfl, fun b hb => ?_⟩
    rw [hphase.head, recovered_nil]
    exact Finished.disk_eq h.buffers hphase hb
  case readHead => exact hphase.durable
  case recoverTrans t => exact hphase.durable
  case recoverErase => exact hphase.durable

/-- The machine is switched off and on. -/
theorem Logged.crash (h : Logged start s g) :
    Logged start s.crash { g with current := [] } := by
  have hidle : ∀ i, ¬ (s.crash.ops i).active := by
    intro i
    simp only [State.crash]
    split <;> exact id
  have hended : ∀ {i}, s.ops i = .ended → s.crash.ops i = .ended := by
    intro i hi
    simp [State.crash, hi]
  exact
    { buffers :=
        { card := Nat.zero_le _
          dirtyCached := by simp [State.crash, boot]
          dirtyLogged := by simp [State.crash, boot]
          held := by simp [State.crash, boot]
          loose := by simp [State.crash, boot]
          logging := fun i b hi => by
            have hno := hidle i
            rw [hi] at hno
            exact absurd trivial hno
          clean := fun b _ _ => by simp [State.view, State.crash, boot]
          lhHome := by simp [State.crash, boot]
          lhNodup := List.nodup_nil
          headHome := h.buffers.headHome
          headNodup := h.buffers.headNodup
          headFits := h.buffers.headFits }
      outstanding :=
        { count := ⟨∅, rfl, fun i => iff_of_false (Finset.notMem_empty i) (hidle i)⟩
          loose := by simp [State.crash, boot]
          committing := rfl }
      whole :=
        { ended := fun ws hws w hw => hended (h.whole.ended ws hws w hw)
          born := by simp
          fresh := by simp
          once := h.whole.once }
      phase :=
        { outstanding := rfl
          current := rfl
          loose := fun _ => rfl
          durable := h.durable
          clean := fun _ => rfl } }

/-! ### Every step -/

/-- `commit` or `recover_from_log` goes on. -/
theorem Logged.logStep (h : Logged start s g) (hs : s.logStep start = some s') :
    Logged start s' (g.record s (.log : Act B)) := by
  unfold State.logStep at hs
  simp only [History.record]
  cases hpc : s.pc <;> rw [hpc] at hs <;> simp only [reduceCtorEq, Option.some.injEq] at hs ⊢
  case writeLog t => exact h.writeLog hpc hs
  case writeHead => exact hs ▸ h.writeHead hpc
  case installTrans t => exact h.install hpc hs
  case eraseHead => exact hs ▸ h.eraseHead hpc
  case committed => exact hs ▸ h.committed hpc
  case readHead => exact hs ▸ h.readHead hpc
  case recoverTrans t => exact h.recoverTrans hpc hs
  case recoverErase => exact hs ▸ h.recoverErase hpc

theorem Logged.step {a : Act B} (h : Logged start s g) (hs : step start s a = some s') :
    Logged start s' (g.record s a) := by
  cases a with
  | beginOp i => exact h.beginOp hs
  | bread i b =>
      simp only [FsLog.step] at hs
      split at hs
      · rename_i hguard
        obtain ⟨s₁, h₁, rfl⟩ := Option.map_eq_some_iff.1 hs
        exact h.breadOp hguard.2.1 hguard.2.2 h₁
      · cases hs
  | modify i b v =>
      simp only [FsLog.step] at hs
      split at hs
      · rename_i hguard
        cases hs
        exact h.modify hguard.1 hguard.2
      · cases hs
  | logWrite i b => exact h.logWrite hs
  | append i => exact h.append hs
  | brelse i b =>
      simp only [FsLog.step] at hs
      split at hs
      · rename_i hguard
        cases hs
        exact h.brelse hguard.1 hguard.2.1 hguard.2.2
      · cases hs
  | endOp i =>
      simp only [FsLog.step, State.endOp] at hs
      split at hs
      · rename_i hguard
        have ha : (s.ops i).active := by
          rw [hguard.1]
          trivial
        have hpc := (h.working ha).1
        split at hs
        · cases hs
        · have hend := h.endOp hguard.1 hguard.2
          simp only [History.record]
          split at hs
          · rename_i hzero
            cases hs
            rw [if_pos hzero]
            exact hend.startCommit hpc hzero
          · rename_i hmore
            cases hs
            rw [if_neg hmore]
            exact hend
      · cases hs
  | load b => exact h.load hs
  | recycle b =>
      simp only [FsLog.step] at hs
      split at hs
      · rename_i hguard
        cases hs
        exact h.recycle hguard.2.1 hguard.2.2
      · cases hs
  | log => exact h.logStep hs
  | crash =>
      cases hs
      exact h.crash

end Buffers

/-! ## Runs -/

theorem logged_boot (start : Nat) (image : Nat → B) :
    Logged start (boot image) ⟨image, [], 0, []⟩ where
  buffers :=
    { card := Nat.zero_le _
      dirtyCached := by simp [boot]
      dirtyLogged := by simp [boot]
      held := by simp [boot]
      loose := by simp [boot]
      logging := by simp [boot]
      clean := fun b _ _ => by simp [State.view, boot]
      lhHome := by simp [boot]
      lhNodup := List.nodup_nil
      headHome := by simp [boot]
      headNodup := List.nodup_nil
      headFits := Nat.zero_lt_succ 29 }
  outstanding :=
    { count := ⟨∅, rfl, fun i => iff_of_false (Finset.notMem_empty i) id⟩
      loose := by simp [boot]
      committing := rfl }
  whole := ⟨by simp, by simp, by simp, List.Pairwise.nil⟩
  phase :=
    { outstanding := rfl
      current := rfl
      loose := fun _ => rfl
      durable := ⟨0, le_rfl, le_rfl, fun b _ => rfl⟩
      clean := fun _ => rfl }

/-- The invariant holds in every state reached. -/
theorem logged {start : Nat} {image : Nat → B} {c : State B × History B}
    (h : (logKernel start image).Reachable c) : Logged start c.1 c.2 := by
  refine System.ReachableWhen.invariant (P := fun c => Logged start c.1 c.2) ?_ ?_ h
  · intro c hc
    have hboot : c.1 = boot image := hc.1
    rw [hc.2, hboot]
    exact logged_boot start image
  · intro c a d hinv _ hs
    obtain ⟨hstep, hg⟩ := System.withGhost_step hs
    rw [hg]
    exact hinv.step hstep

/-- What a crash has left of the commits called since `initlog` was last
completed: the first `k` of them, with every one that has returned.  The
modifications of an operation are in one commit only, and it has ended by then. -/
def AtomicRecovery (start : Nat) (s' : State B) (c : State B × History B) : Prop :=
  (∃ k, c.2.returned ≤ k ∧ k ≤ c.2.groups.length ∧
    ∀ b, isHome start b → s'.disk b = c.2.after k b) ∧
  (∀ ws ∈ c.2.groups, ∀ w ∈ ws, c.1.ops w.op = .ended) ∧
  c.2.groups.Pairwise fun x y => ∀ w ∈ x, ∀ v ∈ y, w.op ≠ v.op

/-- **Crash atomicity.**  When `initlog` completes, the home blocks are those
after a prefix of the commits, whatever operations have run and wherever the
machine has crashed. -/
theorem crash_atomic (start : Nat) (image : Nat → B) (c : State B × History B)
    (h : (logKernel start image).Reachable c) (s' : State B) (hpc : c.1.pc = .recoverErase)
    (hs : step start c.1 .log = some s') : AtomicRecovery start s' c := by
  have hinv := logged h
  have hphase := hinv.phase
  rw [hpc] at hphase
  refine ⟨?_, hinv.whole.ended, hinv.whole.once⟩
  obtain ⟨k, hlow, hhigh, hdisk⟩ := hphase.durable
  refine ⟨k, hlow, hhigh, fun b hb => ?_⟩
  simp only [step, State.logStep, hpc, Option.some.injEq] at hs
  rw [← hs, ← hdisk b hb]
  exact recovered_erase hinv.buffers.headNodup fun i hi => hphase.copied i hi hi

/-- An operation stores 7 in block 100; the machine crashes after the header has
been written, and the new contents are installed by the recovery. -/
def crashAfterHeader : List (Act Nat) :=
  [.log, .log, .log, .beginOp 0, .bread 0 100, .modify 0 100 7, .logWrite 0 100, .append 0,
    .brelse 0 100, .endOp 0, .log, .log, .log, .crash, .log, .log, .log]

theorem crash_atomic_crashAfterHeader :
    ∃ c, (logKernel 2 fun _ => 0).Reachable c ∧ ∃ s', step 2 c.1 .log = some s' ∧
      s'.disk 100 = 7 ∧ AtomicRecovery 2 s' c := by
  obtain ⟨c, hc, hlast⟩ := System.exists_reachable_of_run (M := logKernel 2 fun _ => 0)
    (l := crashAfterHeader) (s := (boot fun _ => 0, ⟨fun _ => 0, [], 0, []⟩))
    (p := fun c => c.1.pc == .recoverErase && (step 2 c.1 .log).map (·.disk 100) == some 7)
    ⟨rfl, rfl⟩ (by decide +kernel)
  simp only [Bool.and_eq_true, beq_iff_eq] at hlast
  obtain ⟨s', hs', hdisk⟩ := Option.map_eq_some_iff.1 hlast.2
  exact ⟨c, hc, s', hs', hdisk, crash_atomic 2 _ c hc s' hlast.1 hs'⟩

end OsWork.Ports.FsLog

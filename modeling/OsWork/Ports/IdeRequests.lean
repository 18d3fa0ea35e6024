import OsWork.Ports.IdeDisk

/-!
# The requests of the disk driver

What the stores of `iderw`, `ideintr`, `idestart` and the device do to the queue and
to the lists of the requests that have been queued, started and completed.
-/

namespace OsWork.Ports.IdeDisk

open OsWork.Verified.Monitor OsWork.Verified.Transition OsWork.Verified.LinkedRing
open Function (update)

variable {P B Data : Type}

/-! ## What a store does to the requests -/

section Stores

variable {d d' : Ide P B Data} {t q : Thread P} {b : B} {n : Nat} {l : List B}

theorem Core.mem_pending (h : Core d) (hb : d.started[d.completed.length]? = some b) :
    b ∈ d.pending ∧ d.pending.head? = some b := by
  obtain ⟨rest, hrest⟩ := h.started
  have hqueued : d.queued[d.completed.length]? = some b := by
    rw [← hrest, List.getElem?_append_left (List.getElem?_eq_some_iff.mp hb).1]
    exact hb
  have hhead : d.pending.head? = some b := by
    unfold Ide.pending
    rw [List.head?_drop]
    exact hqueued
  exact ⟨List.mem_of_mem_head? hhead, hhead⟩

theorem Core.completed_le (h : Core d) : d.completed.length ≤ d.started.length := by
  have hle := h.completed.length_le
  rw [List.length_map] at hle
  exact hle

/-- A request from `n` on that has not been completed is in the queue. -/
theorem mem_pending_of_queued (hb : d.queued[n]? = some b) (hn : d.completed.length ≤ n) :
    b ∈ d.pending := by
  apply List.mem_iff_getElem?.mpr
  refine ⟨n - d.completed.length, ?_⟩
  unfold Ide.pending
  rw [List.getElem?_drop, Nat.add_sub_cancel' hn]
  exact hb

theorem Ide.Chain.idequeue (h : d.Chain l) : d.idequeue = l.head? := Path.head h

/-- The handler finds the device ready. -/
theorem Core.ready_of_taken (h : Core d) (htaken : d.taken = d.completed.length + 1) :
    d.busy = none ∧ d.started.length = d.completed.length + 1 := by
  have hfew := h.few
  have hle := h.taken
  have hraised := h.raised
  cases hbusy : d.busy with
  | none =>
      rw [hbusy] at hraised
      simp only [Option.isSome_none, Bool.false_eq_true, if_false] at hraised
      exact ⟨rfl, by omega⟩
  | some c =>
      rw [hbusy] at hraised
      simp only [Option.isSome_some, if_true] at hraised
      omega

/-- The device raises interrupts for started requests. -/
theorem Core.busy (h : Core d) {c : Command Data} (hbusy : d.busy = some c) :
    d.raised + 1 = d.started.length ∧ d.started.length = d.completed.length + 1 ∧
      d.taken = d.completed.length := by
  have hfew := h.few
  have hle := h.taken
  have hle' := h.handled
  have hraised := h.raised
  rw [hbusy] at hraised
  simp only [Option.isSome_some, if_true] at hraised
  omega

/-- A request is put in the queue. -/
theorem Core.queue (h : Core d) (hb : b ∉ d.pending) (hundone : (d.buf b).done = false)
    (hlock : (d.buf b).lock ≠ none) : Core { d with queued := d.queued ++ [b] } := by
  have hle : d.completed.length ≤ d.queued.length := Nat.le_trans h.completed_le h.started.length_le
  have hpending : Ide.pending { d with queued := d.queued ++ [b] } = d.pending ++ [b] :=
    List.drop_append_of_le_length hle
  have hmem : ∀ c ∈ Ide.pending { d with queued := d.queued ++ [b] }, c ∈ d.pending ∨ c = b := by
    intro c hc
    rw [hpending, List.mem_append, List.mem_singleton] at hc
    exact hc
  exact
    { h with
      started := h.started.trans (List.prefix_append _ _)
      nodup := by
        rw [hpending, List.nodup_append]
        refine ⟨h.nodup, List.nodup_singleton b, ?_⟩
        rintro c hc _ hb' rfl
        rw [List.mem_singleton.mp hb'] at hc
        exact hb hc
      undone := by
        intro c hc
        rcases hmem c hc with hc | rfl
        · exact h.undone c hc
        · exact hundone
      locked := by
        intro c hc
        rcases hmem c hc with hc | rfl
        · exact h.locked c hc
        · exact hlock }

/-- `idestart` for the next request. -/
theorem Core.start (h : Core d) (hstarted : d.started.length = d.completed.length)
    (hhead : d.pending.head? = some b) (hd : idestart d b = some d') :
    Core d' ∧ d'.pending = d.pending ∧ d'.link = d.link ∧ d'.buf = d.buf ∧ d'.queued = d.queued ∧
      d'.completed = d.completed ∧ d'.taken = d.taken ∧
      d'.started.length = d.completed.length + 1 := by
  unfold idestart at hd
  split at hd
  · rename_i c hbusy hcommand
    cases hd
    refine ⟨?_, rfl, rfl, rfl, rfl, rfl, rfl, ?_⟩
    · have hqueued : d.queued[d.completed.length]? = some b := by
        rw [← List.head?_drop]
        exact hhead
      have hraised := h.raised
      rw [hbusy] at hraised
      simp only [Option.isSome_none, Bool.false_eq_true, if_false] at hraised
      exact
        { h with
          completed := h.completed.trans (List.prefix_append _ _)
          started := by
            obtain ⟨hlt, hget⟩ := List.getElem?_eq_some_iff.mp hqueued
            have htake : d.started = d.queued.take d.completed.length := by
              rw [← hstarted]
              exact List.prefix_iff_eq_take.mp h.started
            show d.started ++ [b] <+: d.queued
            rw [htake, ← hget, List.take_append_getElem]
            exact List.take_prefix _ _
          few := by
            show (d.started ++ [b]).length ≤ _
            rw [List.length_append, hstarted]
            exact Nat.le_refl _
          raised := by
            show d.raised + 1 = (d.started ++ [b]).length
            rw [List.length_append, ← hraised]
            rfl
          command := by
            intro c' b' hc' hb'
            cases hc'
            have hb' : (d.started ++ [b])[d.completed.length]? = some b' := hb'
            rw [← hstarted, List.getElem?_concat_length] at hb'
            cases hb'
            exact hcommand
          port := by
            intro b' hc'
            cases hc' }
    · show (d.started ++ [b]).length = _
      rw [List.length_append, hstarted]
      rfl
  · cases hd

/-- With the next request started everything is in order again. -/
theorem Core.start_ready (h : Core d) (hchain : d.Chain d.pending)
    (hstarted : d.started.length = d.completed.length) (hhead : d.pending.head? = some b)
    (hd : idestart d b = some d') :
    Ready d' ∧ d'.buf = d.buf ∧ d'.queued = d.queued ∧ d'.completed = d.completed ∧
      d'.taken = d.taken := by
  obtain ⟨hcore, hpending, hlink, hbuf, hqueued, hcompleted, htaken, hlength⟩ :=
    h.start hstarted hhead hd
  refine ⟨{ hcore with chain := ?_, working := ?_ }, hbuf, hqueued, hcompleted, htaken⟩
  · show Path d'.link none d'.pending none
    rw [hlink, hpending]
    exact hchain
  · unfold Ide.pending at hhead
    rw [List.head?_drop] at hhead
    have hlt := (List.getElem?_eq_some_iff.mp hhead).1
    rw [hlength, hcompleted, hqueued]
    omega

/-- The device ends its command. -/
theorem Core.finish (h : Core d) {c : Command Data} {ok : Bool} (hbusy : d.busy = some c) :
    Core (finish d c ok) := by
  obtain ⟨hraised, -, -⟩ := h.busy hbusy
  unfold IdeDisk.finish
  split
  · rename_i data hwrite
    exact
      { h with
        taken := Nat.le_trans h.taken (Nat.le_succ _)
        raised := hraised
        command := fun c' b' hc' => (by cases hc')
        port := by
          intro b' _ hb' hdirty
          have hwrote := (command_eq (h.command c b' hbusy hb')).2.2
          rw [hwrite, if_neg (by simpa using hdirty)] at hwrote
          cases hwrote }
  · exact
      { h with
        taken := Nat.le_trans h.taken (Nat.le_succ _)
        raised := hraised
        command := fun c' b' hc' => (by cases hc')
        port := by
          intro b' _ hb' _ herr
          obtain ⟨hdev, hsector, -⟩ := command_eq (h.command c b' hbusy hb')
          have hok : ok = true := by simpa using herr
          show (if ok then d.disk c.regs.dev c.regs.sector else d.port) = d.disk _ _
          rw [hok, if_pos rfl, hdev, hsector] }

theorem finish_same (c : Command Data) (ok : Bool) :
    (finish d c ok).buf = d.buf ∧ (finish d c ok).link = d.link ∧
      (finish d c ok).queued = d.queued ∧ (finish d c ok).started = d.started ∧
      (finish d c ok).completed = d.completed := by
  unfold finish
  split
  · exact ⟨rfl, rfl, rfl, rfl, rfl⟩
  · exact ⟨rfl, rfl, rfl, rfl, rfl⟩

theorem Core.take (h : Core d) (hlt : d.taken < d.raised) :
    Core { d with taken := d.taken + 1 } :=
  { h with
    handled := Nat.le_trans h.handled (Nat.le_succ _)
    taken := hlt }

variable [DecidableEq B]

theorem link_setLink {pp v : Option B} : (d.setLink pp v).link = update d.link pp v := by
  funext a
  cases pp with
  | none =>
      cases a with
      | none => rw [Function.update_self]; rfl
      | some c => rw [Function.update_of_ne (Option.some_ne_none c)]; rfl
  | some b =>
      cases a with
      | none => rw [Function.update_of_ne (Option.some_ne_none b).symm]; rfl
      | some c =>
          by_cases hc : c = b
          · rw [hc, Function.update_self]
            show (update d.buf b { d.buf b with qnext := v } b).qnext = v
            rw [Function.update_self]
          · rw [Function.update_of_ne (mt Option.some.inj hc)]
            show (update d.buf b { d.buf b with qnext := v } c).qnext = (d.buf c).qnext
            rw [Function.update_of_ne hc]

theorem link_setBuf {v : Buf P B Data} (hlink : v.qnext = (d.buf b).qnext) :
    (d.setBuf b v).link = d.link := by
  funext a
  cases a with
  | none => rfl
  | some c =>
      show (update d.buf b v c).qnext = (d.buf c).qnext
      by_cases hc : c = b
      · rw [hc, Function.update_self, hlink]
      · rw [Function.update_of_ne hc]

theorem setLink_buf (pp v : Option B) (c : B) :
    ∃ a, (d.setLink pp v).buf c = { d.buf c with qnext := a } := by
  cases pp with
  | none => exact ⟨_, rfl⟩
  | some b =>
      show ∃ a, update d.buf b { d.buf b with qnext := v } c = _
      by_cases hc : c = b
      · rw [hc, Function.update_self]
        exact ⟨_, rfl⟩
      · rw [Function.update_of_ne hc]
        exact ⟨_, rfl⟩

theorem setLink_same (pp v : Option B) :
    (d.setLink pp v).queued = d.queued ∧ (d.setLink pp v).started = d.started ∧
      (d.setLink pp v).completed = d.completed ∧ (d.setLink pp v).busy = d.busy ∧
      (d.setLink pp v).err = d.err ∧ (d.setLink pp v).port = d.port ∧
      (d.setLink pp v).disk = d.disk ∧ (d.setLink pp v).raised = d.raised ∧
      (d.setLink pp v).taken = d.taken := by
  cases pp with
  | none | some b => exact ⟨rfl, rfl, rfl, rfl, rfl, rfl, rfl, rfl, rfl⟩

theorem pending_setLink (pp v : Option B) : (d.setLink pp v).pending = d.pending := by
  unfold Ide.pending
  rw [(setLink_same pp v).1, (setLink_same pp v).2.2.1]

/-- The links are no concern of `Core`. -/
theorem Core.setLink (h : Core d) (pp v : Option B) : Core (d.setLink pp v) := by
  obtain ⟨hqueued, hstarted, hcompleted, hbusy, herr, hport, hdisk, hraised, htaken⟩ :=
    setLink_same (d := d) pp v
  have hpending := pending_setLink (d := d) pp v
  exact
    { completed := by rw [hcompleted, hstarted]; exact h.completed
      started := by rw [hstarted, hqueued]; exact h.started
      few := by rw [hcompleted, hstarted]; exact h.few
      handled := by rw [hcompleted, htaken]; exact h.handled
      taken := by rw [htaken, hraised]; exact h.taken
      raised := by rw [hraised, hbusy, hstarted]; exact h.raised
      nodup := by rw [hpending]; exact h.nodup
      undone := by
        intro c hc
        obtain ⟨a, ha⟩ := setLink_buf (d := d) pp v c
        rw [hpending] at hc
        rw [ha]
        exact h.undone c hc
      locked := by
        intro c hc
        obtain ⟨a, ha⟩ := setLink_buf (d := d) pp v c
        rw [hpending] at hc
        rw [ha]
        exact h.locked c hc
      command := by
        intro c b hc hb
        obtain ⟨a, ha⟩ := setLink_buf (d := d) pp v b
        rw [hbusy] at hc
        rw [hstarted, hcompleted] at hb
        rw [ha]
        exact h.command c b hc hb
      port := by
        intro b hc hb
        obtain ⟨a, ha⟩ := setLink_buf (d := d) pp v b
        rw [hbusy] at hc
        rw [hstarted, hcompleted] at hb
        unfold Ide.content
        rw [ha, herr, hport, hdisk]
        exact h.port b hc hb
      reads := by rw [hcompleted]; exact h.reads }

/-- A store to a buffer that is not in the queue. -/
theorem Core.setBuf (h : Core d) (hb : b ∉ d.pending) (v : Buf P B Data) :
    Core (d.setBuf b v) := by
  have hkeep : ∀ c ∈ d.pending, (d.setBuf b v).buf c = d.buf c := by
    intro c hc
    apply Function.update_of_ne
    rintro rfl
    exact hb hc
  exact
    { h with
      undone := by
        intro c hc
        rw [hkeep c hc]
        exact h.undone c hc
      locked := by
        intro c hc
        rw [hkeep c hc]
        exact h.locked c hc
      command := by
        intro c b' hc hb'
        rw [hkeep b' (h.mem_pending hb').1]
        exact h.command c b' hc hb'
      port := by
        intro b' hc hb'
        unfold Ide.content
        rw [hkeep b' (h.mem_pending hb').1]
        exact h.port b' hc hb' }

/-- `insl` while the device is ready. -/
theorem Core.setData (h : Core d) (hbusy : d.busy = none) (data : Data) :
    Core (d.setBuf b { d.buf b with data := data }) := by
  have hkeep : ∀ c, ∃ a, (d.setBuf b { d.buf b with data := data }).buf c =
      { d.buf c with data := a } := by
    intro c
    show ∃ a, update d.buf b _ c = _
    by_cases hc : c = b
    · rw [hc, Function.update_self]
      exact ⟨_, rfl⟩
    · rw [Function.update_of_ne hc]
      exact ⟨_, rfl⟩
  exact
    { h with
      undone := by
        intro c hc
        obtain ⟨a, ha⟩ := hkeep c
        rw [ha]
        exact h.undone c hc
      locked := by
        intro c hc
        obtain ⟨a, ha⟩ := hkeep c
        rw [ha]
        exact h.locked c hc
      command := by
        intro c b' hc
        have hc : d.busy = some c := hc
        rw [hbusy] at hc
        cases hc
      port := by
        intro b' hc hb'
        obtain ⟨a, ha⟩ := hkeep b'
        unfold Ide.content
        rw [ha]
        exact h.port b' hc hb' }

/-- The request that the handler works on is marked. -/
theorem Handles.mark (h : Handles b d)
    (hcontent : (d.buf b).dirty = false → d.err = false → (d.buf b).data = d.content b) :
    Marked (mark d b) ∧ d.pending = b :: (mark d b).pending ∧
      (mark d b).taken = (mark d b).completed.length := by
  obtain ⟨hbusy, hstarted⟩ := h.core.ready_of_taken h.taken
  obtain ⟨l, hpending, hchain⟩ := h.chain
  have hlength : (IdeDisk.mark d b).completed.length = d.completed.length + 1 :=
    List.length_append
  have hrest : (IdeDisk.mark d b).pending = l := by
    show d.queued.drop (IdeDisk.mark d b).completed.length = l
    rw [hlength, ← List.tail_drop]
    show d.pending.tail = l
    rw [hpending]
    rfl
  have hnodup := h.core.nodup
  rw [hpending] at hnodup
  have hb : b ∉ l := (List.nodup_cons.mp hnodup).1
  have hkeep : ∀ c ∈ l, (IdeDisk.mark d b).buf c = d.buf c := by
    intro c hc
    apply Function.update_of_ne
    rintro rfl
    exact hb hc
  have hmem : ∀ c ∈ l, c ∈ d.pending := by
    intro c hc
    rw [hpending]
    exact List.mem_cons_of_mem b hc
  have hnext : d.started[d.completed.length]? = some b := by
    have hlt : d.completed.length < d.started.length := by omega
    have hget := List.getElem?_eq_getElem hlt
    have hhead := (h.core.mem_pending hget).2
    rw [hpending, List.head?_cons, Option.some.injEq] at hhead
    rw [hget, hhead]
  refine ⟨⟨?_, ?_, ?_⟩, ?_, ?_⟩
  · exact
      { completed := by
          have htake := List.prefix_iff_eq_take.mp h.core.completed
          rw [List.length_map] at htake
          have hmap : (IdeDisk.mark d b).completed.map (·.buf) =
              d.started.take (d.completed.length + 1) := by
            rw [List.take_add_one, hnext, ← htake]
            show (d.completed ++ [_]).map _ = _
            rw [List.map_append]
            rfl
          rw [hmap]
          exact List.take_prefix _ _
        started := h.core.started
        few := by
          rw [hlength]
          exact Nat.le_trans h.core.few (Nat.le_succ _)
        handled := by
          rw [hlength, ← h.taken]
          exact Nat.le_refl _
        taken := h.core.taken
        raised := h.core.raised
        nodup := by
          rw [hrest]
          exact (List.nodup_cons.mp hnodup).2
        undone := by
          intro c hc
          rw [hrest] at hc
          rw [hkeep c hc]
          exact h.core.undone c (hmem c hc)
        locked := by
          intro c hc
          rw [hrest] at hc
          rw [hkeep c hc]
          exact h.core.locked c (hmem c hc)
        command := by
          intro c b' hc
          have hc : d.busy = some c := hc
          rw [hbusy] at hc
          cases hc
        port := by
          intro b' _ hb'
          rw [hlength] at hb'
          have hlt := (List.getElem?_eq_some_iff.mp hb').1
          have hlt : d.completed.length + 1 < d.started.length := hlt
          omega
        reads := by
          intro c hc hread hfailed
          rcases List.mem_append.mp hc with hc | hc
          · exact h.core.reads c hc hread hfailed
          · rw [List.mem_singleton.mp hc] at hread hfailed ⊢
            exact hcontent (by simpa using hread) hfailed }
  · rw [hrest]
    have hlink : (IdeDisk.mark d b).link = d.link :=
      link_setBuf (v := { d.buf b with valid := true, dirty := false }) rfl
    show Path (IdeDisk.mark d b).link none l none
    rw [hlink]
    exact hchain
  · rw [hlength]
    exact hstarted
  · rw [hrest, hpending]
  · rw [hlength]
    exact h.taken

end Stores

end OsWork.Ports.IdeDisk

import OsWork.Ports.IdeRequests

/-!
# What the threads of the disk driver know of each other

A store of one thread leaves what the others know, and the thread knows what it has to
know after it.
-/

namespace OsWork.Ports.IdeDisk

open OsWork.Verified.Monitor OsWork.Verified.Transition OsWork.Verified.LinkedRing
open Function (update)

variable {P B Data : Type}

/-! ## What the others know -/

/-- What a store by `t` leaves to the other threads. -/
structure Leaves (t : Thread P) (d d' : Ide P B Data) : Prop where
  lock : ∀ b q, q ≠ t → ((d'.buf b).lock = some q ↔ (d.buf b).lock = some q)
  free : ∀ b, (d'.buf b).lock = none → (d.buf b).lock = none ∨ b ∉ d'.pending
  done : ∀ b q, q ≠ t → (d.buf b).lock = some q → (d.buf b).done = true → (d'.buf b).done = true
  pending : ∀ b ∈ d'.pending, b ∈ d.pending ∨ (d.buf b).lock = some t
  queued : d.queued <+: d'.queued
  completed : ∀ b n, d.queued[n]? = some b → n < d'.completed.length →
    n < d.completed.length ∨ b ∉ d'.pending ∧ (d'.buf b).done = true
  handler : t ≠ .intr → d'.taken = d.taken ∧ d'.completed.length = d.completed.length

section Leaves

variable {d d' : Ide P B Data} {t q : Thread P} {b : B} {n : Nat}

theorem Leaves.of_same (hbuf : ∀ b, (d'.buf b).lock = (d.buf b).lock ∧
      (d'.buf b).valid = (d.buf b).valid ∧ (d'.buf b).dirty = (d.buf b).dirty)
    (hqueued : d'.queued = d.queued) (hcompleted : d'.completed = d.completed)
    (htaken : t ≠ .intr → d'.taken = d.taken) : Leaves t d d' where
  lock b q _ := by rw [(hbuf b).1]
  free b hb := .inl ((hbuf b).1.symm.trans hb)
  done b q _ _ hdone := by
    unfold Buf.done
    rw [(hbuf b).2.1, (hbuf b).2.2]
    exact hdone
  pending b hb := by
    unfold Ide.pending at hb
    rw [hqueued, hcompleted] at hb
    exact .inl hb
  queued := by simp only [hqueued, List.prefix_refl]
  completed b n _ hn := by
    rw [hcompleted] at hn
    exact .inl hn
  handler ht := ⟨htaken ht, by rw [hcompleted]⟩

theorem Owns.leaves {own : Option B} (h : Owns q own d) (hl : Leaves t d d') (hq : q ≠ t) :
    Owns q own d' := by
  intro b hlock hown hmem
  have hlock : (d.buf b).lock = some q ∨ (d.buf b).lock = none := by
    rcases hlock with hlock | hlock
    · exact .inl ((hl.lock b q hq).mp hlock)
    · exact .inr ((hl.free b hlock).resolve_right fun hnot => hnot hmem)
  rcases hl.pending b hmem with hmem | hother
  · exact h b hlock hown hmem
  · rw [hother] at hlock
    rcases hlock with hlock | hlock
    · exact hq (Option.some.inj hlock).symm
    · cases hlock

theorem Waits.leaves (h : Waits q b n d) (hl : Leaves t d d') (hq : q ≠ t) : Waits q b n d' where
  lock := (hl.lock b q hq).mpr h.lock
  owns := h.owns.leaves hl hq
  queued := by
    obtain ⟨rest, hrest⟩ := hl.queued
    rw [← hrest, List.getElem?_append_left (List.getElem?_eq_some_iff.mp h.queued).1]
    exact h.queued
  done := by
    intro hn
    rcases hl.completed b n h.queued hn with hn | hdone
    · obtain ⟨hmem, hdone⟩ := h.done hn
      refine ⟨fun hmem' => ?_, hl.done b q hq h.lock hdone⟩
      rcases hl.pending b hmem' with hmem' | hother
      · exact hmem hmem'
      · rw [h.lock] at hother
        exact hq (Option.some.inj hother)
    · exact hdone

/-- A store by `t`, without `idelock`. -/
structure Aside (t : Thread P) (d d' : Ide P B Data) : Prop extends Leaves t d d' where
  core : Core d → Core d'
  links : d'.link = d.link
  queue : d'.queued = d.queued ∧ d'.started = d.started ∧ d'.completed = d.completed
  buf : ∀ b, (b ∈ d.pending ∨ ∃ q, q ≠ t ∧ (d.buf b).lock = some q) →
    d'.buf b = d.buf b
  content : d.busy = none → d'.err = d.err ∧ d'.disk = d.disk

theorem Aside.pending_eq (h : Aside t d d') : d'.pending = d.pending := by
  unfold Ide.pending
  rw [h.queue.1, h.queue.2.2]

theorem Aside.ready (h : Aside t d d') (hready : Ready d) : Ready d' :=
  { h.core hready.toCore with
    chain := by
      show Path d'.link none d'.pending none
      rw [h.links, h.pending_eq]
      exact hready.chain
    working := by
      rw [h.queue.1, h.queue.2.1, h.queue.2.2]
      exact hready.working }

theorem Aside.handles (h : Aside t d d') (ht : t ≠ .intr) (hhandles : Handles b d) :
    Handles b d' where
  core := h.core hhandles.core
  taken := by
    rw [(h.handler ht).1, (h.handler ht).2]
    exact hhandles.taken
  chain := by
    obtain ⟨l, hpending, hchain⟩ := hhandles.chain
    refine ⟨l, h.pending_eq.trans hpending, ?_⟩
    show Path d'.link none l none
    rw [h.links]
    exact hchain

theorem Aside.marked (h : Aside t d d') (hmarked : Marked d) : Marked d' where
  core := h.core hmarked.core
  chain := by
    show Path d'.link none d'.pending none
    rw [h.links, h.pending_eq]
    exact hmarked.chain
  started := by
    rw [h.queue.2.1, h.queue.2.2]
    exact hmarked.started

theorem Aside.asks (h : Aside t d d') (hq : q ≠ t) (hasks : Asks q b d) : Asks q b d' where
  ready := h.ready hasks.ready
  lock := (h.lock b q hq).mpr hasks.lock
  owns := hasks.owns.leaves h.toLeaves hq
  undone := by
    rw [h.buf b (.inr ⟨q, hq, hasks.lock⟩)]
    exact hasks.undone

/-- What a thread that holds `idelock` knows. -/
theorem Aside.knows (h : Aside t d d') (hq : q ≠ t) {z : Loc B} (hz : z.inside)
    (hfor : z.For q) (hknows : z.Knows q d) : z.Knows q d' := by
  have ht : q = .intr → t ≠ .intr := fun heq ht => hq (heq.trans ht.symm)
  have hlink : ∀ c, d'.link c = d.link c := fun c => by rw [h.links]
  cases z with
  | out => exact hz.elim
  | idle => exact hz.elim
  | enter => exact hz.elim
  | device => exact hz.elim
  | clear b => exact h.asks hq hknows
  | walk b pp =>
      obtain ⟨hasks, hnull, l, m, hpending, hpp⟩ := hknows
      exact ⟨h.asks hq hasks, (hlink _).trans hnull, l, m, h.pending_eq.trans hpending, hpp⟩
  | first b n =>
      obtain ⟨hcore, hchain, hwaits, hlength, hstarted⟩ := hknows
      refine ⟨h.core hcore, ?_, hwaits.leaves h.toLeaves hq, ?_, ?_⟩
      · show Path d'.link none d'.pending none
        rw [h.links, h.pending_eq]
        exact hchain
      · rw [h.queue.1]
        exact hlength
      · rw [h.queue.2.1, h.queue.2.2]
        exact hstarted
  | wait b n => exact ⟨h.ready hknows.1, hknows.2.leaves h.toLeaves hq⟩
  | leave b n =>
      refine ⟨h.ready hknows.1, hknows.2.1.leaves h.toLeaves hq, ?_⟩
      rw [h.queue.2.2]
      exact hknows.2.2
  | head | exit =>
      refine ⟨h.ready hknows.1, ?_⟩
      rw [(h.handler (ht hfor)).1, (h.handler (ht hfor)).2]
      exact hknows.2
  | read b => exact h.handles (ht hfor) hknows
  | mark b =>
      obtain ⟨hhandles, hcontent⟩ := hknows
      refine ⟨h.handles (ht hfor) hhandles, ?_⟩
      obtain ⟨hbusy, -⟩ := hhandles.core.ready_of_taken hhandles.taken
      obtain ⟨l, hpending, -⟩ := hhandles.chain
      have hmem : b ∈ d.pending := by
        rw [hpending]
        exact List.mem_cons_self
      unfold Ide.content
      rw [h.buf b (.inl hmem), (h.content hbusy).1, (h.content hbusy).2]
      exact hcontent
  | wake b | next =>
      refine ⟨h.marked hknows.1, ?_⟩
      rw [(h.handler (ht hfor)).1, (h.handler (ht hfor)).2]
      exact hknows.2

variable [DecidableEq B] {x y : Loc B}

theorem Next.leaves (h : Next t x d (.store d' y)) (hfor : x.For t) (hknows : x.Knows t d) :
    Leaves t d d' := by
  cases h with
  | @outside b v hx hlock hv hlink =>
      have hkeep : ∀ c q, q ≠ t → (d.buf c).lock = some q → (d.setBuf b v).buf c = d.buf c := by
        intro c q hq hc
        apply Function.update_of_ne
        rintro rfl
        rcases hlock with hlock | hlock
        · rw [hlock] at hc
          exact hq (Option.some.inj hc).symm
        · rw [hlock] at hc
          cases hc
      exact
        { lock := by
            intro c q hq
            by_cases hc : c = b
            · subst hc
              show (update d.buf c v c).lock = some q ↔ _
              rw [Function.update_self]
              constructor
              · intro heq
                rcases hv with hv | hv
                · rw [hv] at heq
                  exact absurd (Option.some.inj heq).symm hq
                · rw [hv] at heq
                  cases heq
              · intro heq
                rcases hlock with hlock | hlock
                · rw [hlock] at heq
                  exact absurd (Option.some.inj heq).symm hq
                · rw [hlock] at heq
                  cases heq
            · show (update d.buf b v c).lock = some q ↔ _
              rw [Function.update_of_ne hc]
          free := by
            intro c hfree
            by_cases hc : c = b
            · rw [hx] at hknows
              exact .inr (hc ▸ hknows b hlock (Option.some_ne_none b).symm)
            · have hfree : (update d.buf b v c).lock = none := hfree
              rw [Function.update_of_ne hc] at hfree
              exact .inl hfree
          done := by
            intro c q hq hc hdone
            rw [hkeep c q hq hc]
            exact hdone
          pending := fun c hc => .inl hc
          queued := List.prefix_refl _
          completed := fun c n _ hn => .inl hn
          handler := fun _ => ⟨rfl, rfl⟩ }
  | @clear b hx =>
      refine .of_same ?_ rfl rfl fun _ => rfl
      intro c
      obtain ⟨a, ha⟩ := setLink_buf (d := d) (some b) none c
      rw [ha]
      exact ⟨rfl, rfl, rfl⟩
  | @append b pp hx hlink =>
      rw [hx] at hknows
      obtain ⟨hasks, -, -⟩ := hknows
      obtain ⟨hqueued, -, hcompleted, -, -, -, -, -, htaken⟩ :=
        setLink_same (d := d) pp (some b)
      have hbuf := setLink_buf (d := d) pp (some b)
      exact
        { lock := by
            intro c q hq
            obtain ⟨a, ha⟩ := hbuf c
            show ((d.setLink pp (some b)).buf c).lock = _ ↔ _
            rw [ha]
          free := by
            intro c hfree
            obtain ⟨a, ha⟩ := hbuf c
            have hfree : ((d.setLink pp (some b)).buf c).lock = none := hfree
            rw [ha] at hfree
            exact .inl hfree
          done := by
            intro c q _ _ hdone
            obtain ⟨a, ha⟩ := hbuf c
            show ((d.setLink pp (some b)).buf c).done = true
            rw [ha]
            exact hdone
          pending := by
            intro c hc
            have hc : c ∈ (d.queued ++ [b]).drop (d.setLink pp (some b)).completed.length := hc
            rw [hcompleted, List.drop_append_of_le_length
              (Nat.le_trans hasks.ready.completed_le hasks.ready.started.length_le),
              List.mem_append, List.mem_singleton] at hc
            rcases hc with hc | rfl
            · exact .inl hc
            · exact .inr hasks.lock
          queued := List.prefix_append _ _
          completed := by
            intro c n _ hn
            have hn : n < (d.setLink pp (some b)).completed.length := hn
            rw [hcompleted] at hn
            exact .inl hn
          handler := by
            intro _
            constructor
            · exact htaken
            · show (d.setLink pp (some b)).completed.length = _
              rw [hcompleted] }
  | @pop b hx hqueue => exact .of_same (fun c => ⟨rfl, rfl, rfl⟩) rfl rfl fun _ => rfl
  | @read b hx hdirty hbusy =>
      refine .of_same ?_ rfl rfl fun _ => rfl
      intro c
      show (update d.buf b _ c).lock = _ ∧ (update d.buf b _ c).valid = _ ∧
        (update d.buf b _ c).dirty = _
      by_cases hc : c = b
      · rw [hc, Function.update_self]
        exact ⟨rfl, rfl, rfl⟩
      · rw [Function.update_of_ne hc]
        exact ⟨rfl, rfl, rfl⟩
  | @mark b hx =>
      rw [hx] at hfor hknows
      obtain ⟨hhandles, hcontent⟩ := hknows
      obtain ⟨-, hpending, -⟩ := hhandles.mark hcontent
      have hnodup := hhandles.core.nodup
      rw [hpending] at hnodup
      have hmarked : ((IdeDisk.mark d b).buf b).done = true := by
        show (update d.buf b { d.buf b with valid := true, dirty := false } b).done = true
        rw [Function.update_self]
        rfl
      exact
        { lock := by
            intro c q _
            show (update d.buf b _ c).lock = _ ↔ _
            by_cases hc : c = b
            · rw [hc, Function.update_self]
            · rw [Function.update_of_ne hc]
          free := by
            intro c hfree
            have hfree : (update d.buf b _ c).lock = none := hfree
            by_cases hc : c = b
            · rw [hc, Function.update_self] at hfree
              exact .inl (hc ▸ hfree)
            · rw [Function.update_of_ne hc] at hfree
              exact .inl hfree
          done := by
            intro c q _ _ hdone
            by_cases hc : c = b
            · rw [hc]
              exact hmarked
            · show (update d.buf b _ c).done = true
              rw [Function.update_of_ne hc]
              exact hdone
          pending := by
            intro c hc
            rw [hpending]
            exact .inl (List.mem_cons_of_mem b hc)
          queued := List.prefix_refl _
          completed := by
            intro c n hqueued hn
            have hlength : (IdeDisk.mark d b).completed.length = d.completed.length + 1 :=
              List.length_append
            by_cases hlt : n < d.completed.length
            · exact .inl hlt
            · have hcn : n = d.completed.length := by omega
              have hhead : d.pending.head? = some c := by
                unfold Ide.pending
                rw [List.head?_drop, ← hcn]
                exact hqueued
              rw [hpending, List.head?_cons] at hhead
              cases hhead
              exact .inr ⟨(List.nodup_cons.mp hnodup).1, hmarked⟩
          handler := fun hne => absurd hfor hne }
  | first hx hqueue hd | next hx hqueue hd =>
      unfold idestart at hd
      split at hd
      · cases hd
        exact .of_same (fun c => ⟨rfl, rfl, rfl⟩) rfl rfl fun _ => rfl
      · cases hd
  | take hx htaken =>
      rw [hx] at hfor
      exact .of_same (fun c => ⟨rfl, rfl, rfl⟩) rfl rfl fun hne => absurd hfor hne
  | @finish c ok hx hbusy =>
      unfold IdeDisk.finish
      split
      · exact .of_same (fun c => ⟨rfl, rfl, rfl⟩) rfl rfl fun _ => rfl
      · exact .of_same (fun c => ⟨rfl, rfl, rfl⟩) rfl rfl fun _ => rfl
  | walk | behind | done | nothing | noData | last =>
      exact .of_same (fun c => ⟨rfl, rfl, rfl⟩) rfl rfl fun _ => rfl

theorem Next.aside (h : Next t x d (.store d' y)) (hx : ¬ x.inside) (hfor : x.For t)
    (hknows : x.Knows t d) : Aside t d d' := by
  have hleaves := h.leaves hfor hknows
  cases h with
  | @outside b v heq hlock hv hlink =>
      rw [heq] at hknows
      have hb : b ∉ d.pending := hknows b hlock (Option.some_ne_none b).symm
      exact
        { hleaves with
          core := fun hcore => hcore.setBuf hb v
          links := link_setBuf hlink
          queue := ⟨rfl, rfl, rfl⟩
          buf := by
            rintro c hc
            apply Function.update_of_ne
            rintro rfl
            rcases hc with hc | ⟨q, hq, hc⟩
            · exact hb hc
            · rcases hlock with hlock | hlock
              · rw [hlock] at hc
                exact hq (Option.some.inj hc).symm
              · rw [hlock] at hc
                cases hc
          content := fun _ => ⟨rfl, rfl⟩ }
  | take heq htaken =>
      exact
        { hleaves with
          core := fun hcore => hcore.take htaken
          links := rfl
          queue := ⟨rfl, rfl, rfl⟩
          buf := fun _ _ => rfl
          content := fun _ => ⟨rfl, rfl⟩ }
  | @finish c ok heq hbusy =>
      have hcore : Core d → Core (IdeDisk.finish d c ok) := fun hcore => hcore.finish hbusy
      have hnot : d.busy ≠ none := by
        rw [hbusy]
        exact Option.some_ne_none c
      obtain ⟨hbuf, hlink, hqueue⟩ := finish_same (d := d) c ok
      exact
        { hleaves with
          core := hcore
          links := hlink
          queue := hqueue
          buf := fun b _ => by rw [hbuf]
          content := fun hnone => absurd hnone hnot }
  | clear heq | walk heq | append heq | first heq | behind heq | done heq | nothing heq | pop heq
  | noData heq | read heq | mark heq | last heq | next heq =>
      rw [heq] at hx
      exact absurd trivial hx

/-- What a thread knows after its own store. -/
theorem Next.knows (h : Next t x d (.store d' y)) (hfor : x.For t) (hknows : x.Knows t d) :
    y.For t ∧ y.Knows t d' := by
  cases h with
  | @outside b v hx hlock hv hlink =>
      rw [hx] at hfor hknows
      refine ⟨hfor, ?_⟩
      intro c hc hne
      by_cases heq : c = b
      · rw [heq]
        exact hknows b hlock (Option.some_ne_none b).symm
      · have hc : (update d.buf b v c).lock = some t ∨ (update d.buf b v c).lock = none := hc
        rw [Function.update_of_ne heq] at hc
        exact hknows c hc hne
  | @clear b hx =>
      rw [hx] at hfor hknows
      have hb : b ∉ d.pending := hknows.owns b (.inl hknows.lock) (Option.some_ne_none b).symm
      have hself : (d.setLink (some b) none).buf b = { d.buf b with qnext := none } :=
        Function.update_self _ _ _
      have hready : Ready (d.setLink (some b) none) :=
        { hknows.ready.toCore.setLink (some b) none with
          chain := by
            show Path (d.setLink (some b) none).link none d.pending none
            rw [link_setLink]
            exact Path.update hknows.ready.chain (Option.some_ne_none b) hb
          working := hknows.ready.working }
      refine ⟨hfor, ⟨hready, ?_, ?_, ?_⟩, ?_, [], d.pending, rfl, rfl⟩
      · rw [hself]
        exact hknows.lock
      · intro c hc hne
        obtain ⟨a, ha⟩ := setLink_buf (d := d) (some b) none c
        rw [ha] at hc
        exact hknows.owns c hc hne
      · rw [hself]
        exact hknows.undone
      · rw [link_setLink, Function.update_self]
  | @walk b c pp hx hlink =>
      rw [hx] at hfor hknows
      obtain ⟨hasks, hnull, l, m, hpending, hpp⟩ := hknows
      refine ⟨hfor, hasks, hnull, ?_⟩
      have hchain : Path d.link none (l ++ m) none := hpending ▸ hasks.ready.chain
      cases m with
      | nil =>
          rw [List.append_nil] at hchain
          rw [hpp, hchain.next_last] at hlink
          cases hlink
      | cons c' m =>
          have hlast := (path_append_cons.mp hchain).1.next_last
          rw [hpp, hlast] at hlink
          cases hlink
          refine ⟨l ++ [c], m, ?_, ?_⟩
          · rw [hpending, List.append_assoc]
            rfl
          · rw [last_append_cons]
            rfl
  | @append b pp hx hlink =>
      rw [hx] at hfor hknows
      obtain ⟨hasks, hnull, l, m, hpending, hpp⟩ := hknows
      have hready := hasks.ready
      have hb : b ∉ d.pending := hasks.owns b (.inl hasks.lock) (Option.some_ne_none b).symm
      have hend : pp = Verified.LinkedRing.last none d.pending := by
        cases m with
        | nil => rw [hpp, hpending, List.append_nil]
        | cons c m =>
            have hchain : Path d.link none (l ++ c :: m) none := hpending ▸ hready.chain
            rw [hpp, (path_append_cons.mp hchain).1.next_last] at hlink
            cases hlink
      obtain ⟨hqueued, hstarted, hcompleted, -⟩ := setLink_same (d := d) pp (some b)
      have hbuf := setLink_buf (d := d) pp (some b)
      have hsame : (d.setLink pp (some b)).pending = d.pending := pending_setLink pp (some b)
      have hcore : Core { d.setLink pp (some b) with queued := d.queued ++ [b] } := by
        rw [← hqueued]
        obtain ⟨a, ha⟩ := hbuf b
        apply (hready.toCore.setLink pp (some b)).queue
        · rw [hsame]
          exact hb
        · rw [ha]
          exact hasks.undone
        · rw [ha]
          show (d.buf b).lock ≠ none
          rw [hasks.lock]
          exact Option.some_ne_none t
      have hle := Nat.le_trans hready.completed_le hready.started.length_le
      have hmore : Ide.pending { d.setLink pp (some b) with queued := d.queued ++ [b] } =
          d.pending ++ [b] := by
        show (d.queued ++ [b]).drop (d.setLink pp (some b)).completed.length = _
        rw [hcompleted]
        exact List.drop_append_of_le_length hle
      refine ⟨hfor, hcore, ?_, ⟨?_, ?_, ?_, ?_⟩, ?_, ?_⟩
      · show Path (d.setLink pp (some b)).link none (Ide.pending { d.setLink pp (some b) with
          queued := d.queued ++ [b] }) none
        rw [hmore, link_setLink, hend]
        exact Path.append hready.chain hready.nodup hb hnull
      · obtain ⟨a, ha⟩ := hbuf b
        show ((d.setLink pp (some b)).buf b).lock = some t
        rw [ha]
        exact hasks.lock
      · intro c hc hne
        obtain ⟨a, ha⟩ := hbuf c
        have hc : ((d.setLink pp (some b)).buf c).lock = some t ∨
          ((d.setLink pp (some b)).buf c).lock = none := hc
        rw [ha] at hc
        rw [hmore, List.mem_append, List.mem_singleton]
        rintro (hmem | rfl)
        · exact hasks.owns c hc (Option.some_ne_none c).symm hmem
        · exact hne rfl
      · exact List.getElem?_concat_length
      · intro hlt
        have hlt : d.queued.length < (d.setLink pp (some b)).completed.length := hlt
        rw [hcompleted] at hlt
        omega
      · exact List.length_append
      · show (d.setLink pp (some b)).started.length = _
        rw [hstarted, hready.working]
        show _ = min ((d.setLink pp (some b)).completed.length + 1) d.queued.length
        rw [hcompleted]
  | @first b n d'' hx hqueue hd =>
      rw [hx] at hfor hknows
      obtain ⟨hcore, hchain, hwaits, hlength, hstarted⟩ := hknows
      have hhead : d.pending.head? = some b := hchain.idequeue.symm.trans hqueue
      have hn : n = d.completed.length := by
        have hle := Nat.le_trans hcore.completed_le hcore.started.length_le
        have hge : d.completed.length ≤ n := by
          by_contra hlt
          exact (hwaits.done (by omega)).1 (List.mem_of_mem_head? hhead)
        have hlast : d.pending[n - d.completed.length]? = some b := by
          unfold Ide.pending
          rw [List.getElem?_drop, Nat.add_sub_cancel' hge]
          exact hwaits.queued
        rw [List.head?_eq_getElem?] at hhead
        have hlt := (List.getElem?_eq_some_iff.mp hhead).1
        have heq := (List.getElem?_inj hlt hcore.nodup).mp (hhead.trans hlast.symm)
        omega
      obtain ⟨hready, hbuf, hqueued, hcompleted, -⟩ :=
        hcore.start_ready hchain (by omega) hhead hd
      have hpending : d'.pending = d.pending := by
        unfold Ide.pending
        rw [hqueued, hcompleted]
      refine ⟨hfor, hready, ⟨?_, ?_, ?_, ?_⟩⟩
      · rw [hbuf]
        exact hwaits.lock
      · unfold Owns
        rw [hbuf, hpending]
        exact hwaits.owns
      · rw [hqueued]
        exact hwaits.queued
      · rw [hbuf, hpending, hcompleted]
        exact hwaits.done
  | @behind b n hx hqueue =>
      rw [hx] at hfor hknows
      obtain ⟨hcore, hchain, hwaits, hlength, hstarted⟩ := hknows
      have hle := Nat.le_trans hcore.completed_le hcore.started.length_le
      have hn : n ≠ d.completed.length := by
        rintro rfl
        apply hqueue
        rw [hchain.idequeue]
        unfold Ide.pending
        rw [List.head?_drop]
        exact hwaits.queued
      refine ⟨hfor, ⟨hcore, hchain, ?_⟩, hwaits⟩
      by_cases hlt : n < d.completed.length
      · have hcompleted : d.completed.length = n + 1 := by omega
        have hfew := hcore.completed_le
        omega
      · omega
  | @done b n hx hdone =>
      rw [hx] at hfor hknows
      obtain ⟨hready, hwaits⟩ := hknows
      refine ⟨hfor, hready, hwaits, ?_⟩
      by_contra hge
      have hundone := hready.undone b (mem_pending_of_queued hwaits.queued (by omega))
      rw [hdone] at hundone
      cases hundone
  | @take hx htaken =>
      rw [hx] at hfor hknows
      have hknows : d.taken = d.completed.length := hknows
      refine ⟨hfor, ?_⟩
      show d.taken + 1 = d.completed.length + 1
      rw [hknows]
  | @nothing hx hqueue =>
      rw [hx] at hknows
      obtain ⟨hready, htaken⟩ := hknows
      obtain ⟨-, hstarted⟩ := hready.ready_of_taken htaken
      have hhead := hready.chain.idequeue.symm.trans hqueue
      unfold Ide.pending at hhead
      rw [List.head?_drop, List.getElem?_eq_none_iff] at hhead
      have hle := hready.started.length_le
      omega
  | @pop b hx hqueue =>
      rw [hx] at hfor hknows
      obtain ⟨hready, htaken⟩ := hknows
      have hhead := hready.chain.idequeue.symm.trans hqueue
      obtain ⟨l, hpending⟩ : ∃ l, d.pending = b :: l := by
        cases hp : d.pending with
        | nil =>
            rw [hp] at hhead
            cases hhead
        | cons c l =>
            rw [hp] at hhead
            cases hhead
            exact ⟨l, rfl⟩
      refine ⟨hfor, hready.toCore.setLink none _, htaken, l, hpending, ?_⟩
      have hchain : Path d.link none ([] ++ b :: l) none := hpending ▸ hready.chain
      have hnodup : ([] ++ b :: l).Nodup := hpending ▸ hready.nodup
      show Path (d.setLink none (d.buf b).qnext).link none l none
      rw [link_setLink]
      exact hchain.unlink hnodup
  | @noData b hx hnone =>
      rw [hx] at hfor hknows
      refine ⟨hfor, hknows, ?_⟩
      intro hdirty herr
      rcases hnone with hnone | hnone
      · rw [hdirty] at hnone
        cases hnone
      · rw [herr] at hnone
        cases hnone
  | @read b hx hdirty hbusy =>
      rw [hx] at hfor hknows
      obtain ⟨hcore, htaken, l, hpending, hchain⟩ := hknows
      have hself : (d.setBuf b { d.buf b with data := d.port }).buf b =
          { d.buf b with data := d.port } := Function.update_self _ _ _
      refine ⟨hfor, ⟨hcore.setData hbusy d.port, htaken, l, hpending, ?_⟩, ?_⟩
      · show Path (d.setBuf b { d.buf b with data := d.port }).link none l none
        rw [link_setBuf (v := { d.buf b with data := d.port }) rfl]
        exact hchain
      · intro _ herr
        unfold Ide.content
        rw [hself]
        apply hcore.port b hbusy _ hdirty herr
        have hlt : d.completed.length < d.started.length := by
          have hstarted := (hcore.ready_of_taken htaken).2
          omega
        have hget := List.getElem?_eq_getElem hlt
        have hhead := (hcore.mem_pending hget).2
        rw [hpending, List.head?_cons, Option.some.injEq] at hhead
        rw [hget, hhead]
  | @mark b hx =>
      rw [hx] at hfor hknows
      obtain ⟨hmarked, -, htaken⟩ := hknows.1.mark hknows.2
      exact ⟨hfor, hmarked, htaken⟩
  | @last hx hqueue =>
      rw [hx] at hfor hknows
      obtain ⟨⟨hcore, hchain, hstarted⟩, htaken⟩ := hknows
      have hhead := hchain.idequeue.symm.trans hqueue
      unfold Ide.pending at hhead
      rw [List.head?_drop, List.getElem?_eq_none_iff] at hhead
      have hle := hcore.started.length_le
      exact ⟨hfor, ⟨hcore, hchain, by omega⟩, htaken⟩
  | @next b d'' hx hqueue hd =>
      rw [hx] at hfor hknows
      obtain ⟨⟨hcore, hchain, hstarted⟩, htaken⟩ := hknows
      obtain ⟨hready, -, -, hcompleted, htaken'⟩ :=
        hcore.start_ready hchain hstarted (hchain.idequeue.symm.trans hqueue) hd
      refine ⟨hfor, hready, ?_⟩
      rw [hcompleted, htaken', htaken]
  | @finish c ok hx hbusy =>
      rw [hx] at hfor
      exact ⟨hfor, trivial⟩

/-- A store neither takes `idelock` nor gives it up. -/
theorem Next.inside (h : Next t x d (.store d' y)) : y.inside ↔ x.inside := by
  cases h with
  | outside hx | clear hx | walk hx | append hx | first hx | behind hx | done hx | take hx
  | nothing hx | pop hx | noData hx | read hx | mark hx | last hx | next hx | finish hx =>
      subst hx
      exact Iff.rfl

/-- A request leaves the queue for good when it is marked. -/
theorem Next.idle (h : Next t x d (.store d' y)) (hknows : x.Knows t d)
    (hb : b ∈ d.pending) : b ∈ d'.pending ∨ x.inside ∧ y = .wake b := by
  cases h with
  | @append b' pp hx hlink =>
      rw [hx] at hknows
      have hready := hknows.1.ready
      left
      show b ∈ (d.queued ++ [b']).drop (d.setLink pp (some b')).completed.length
      rw [(setLink_same pp (some b')).2.2.1, List.drop_append_of_le_length
        (Nat.le_trans hready.completed_le hready.started.length_le)]
      exact List.mem_append_left _ hb
  | @mark b' hx =>
      rw [hx] at hknows ⊢
      rw [(hknows.1.mark hknows.2).2.1] at hb
      rcases List.mem_cons.mp hb with rfl | hb
      · exact .inr ⟨trivial, rfl⟩
      · exact .inl hb
  | first hx hqueue hd | next hx hqueue hd =>
      unfold idestart at hd
      split at hd
      · cases hd
        exact .inl hb
      · cases hd
  | finish hx hbusy =>
      left
      unfold Ide.pending
      rw [(finish_same _ _).2.2.1, (finish_same _ _).2.2.2.2]
      exact hb
  | outside | clear | walk | behind | done | take | nothing | pop | noData | read | last =>
      exact .inl hb

end Leaves

end OsWork.Ports.IdeDisk

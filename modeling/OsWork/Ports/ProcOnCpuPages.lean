import OsWork.Ports.ProcOnCpu

/-!
# Creating and reaping a process

`fork` sets up a slot with a kernel stack and a page directory, `wait` and `waitx`
give both back; neither touches the pages of a process that has a CPU.
-/

namespace OsWork.Ports.ProcSwitch

open OsWork.Ports.ProcTable (Slot Word Proc ProcState Table Chan NPROC)
open OsWork.Verified.Transition
open Function (update)

section Placed

variable {s s' : Machine} {m : Cpu → Mode} {c d : Cpu} {k j : Page} {p q i : Slot}
  {X : Slot → Prop}

/-- A slot that is neither live nor being forked by another process has no CPU. -/
theorem Placed.not_current (h : Placed s m) (hi : ¬ Live (s.procs i).state) (d : Cpu) :
    (m d).slot ≠ some i := fun hslot => hi (h.current_live hslot)

/-- A process that runs is RUNNING. -/
theorem Placed.running_on (h : Placed s m) (hm : m c = .on p) (hk : s.kstack p = some k)
    (hbefore : (s.thread k).state = .running) : (s.procs p).state = .running := by
  have hfits := h.fits c
  rw [hm] at hfits
  obtain ⟨j, hj, hstate⟩ := hfits
  rw [hk] at hj
  cases hj
  rw [hstate, hbefore]

/-- The child of the process that runs: no other process forks it, and it has no CPU. -/
theorem Placed.own_child (h : Placed s m) (hk : s.kstack p = some k) {np : Slot} {n : Nat}
    (hchild : (s.thread k).child = some (np, n)) :
    (∀ d, (m d).slot ≠ some np) ∧ ∀ q j n', q ≠ p → s.kstack q = some j →
      (s.thread j).child ≠ some (np, n') := by
  constructor
  · apply h.not_current
    intro hlive
    exact hlive.ne.2 (h.child p k np n hk hchild).state
  · intro q j n' hqp hj hq
    exact hqp (h.owner p q k j np n n' hk hj hchild hq).symm

theorem Placed.fork (h : Placed s m) (hr : Runs s c k p) {np : Slot} (ht : s.thread k = .user)
    (hnp : s.procs.findUnused = some np) :
    Placed ({ s with procs := s.procs.embryo np s.nextpid
                     nextpid := s.nextpid + 1 }.setThread k (.forkStack np)) m := by
  obtain ⟨hm, hk⟩ := h.on hr
  have hunused := Table.find_some hnp
  simp only [beq_iff_eq] at hunused
  have hbefore : (s.thread k).state = .running := by
    rw [ht]
    rfl
  have hrunning := h.running_on hm hk hbefore
  have hne : p ≠ np := by
    rintro rfl
    rw [hrunning] at hunused
    cases hunused
  have hforked : ∀ q j n, s.kstack q = some j → (s.thread j).child ≠ some (np, n) := by
    intro q j n hj hq
    rw [(h.child q j np n hj hq).state] at hunused
    cases hunused
  have hself : update s.thread k (.forkStack np) k = .forkStack np := Function.update_self _ _ _
  apply h.advance (X := fun i => i = np) hm hk
  exact
    { cpu := rfl
      renewed := by
        rintro i rfl
        refine ⟨h.not_current (by rw [hunused]; exact fun hlive => hlive.ne.1 rfl),
          fun q j n _ hj => hforked q j n hj, .inr ⟨?_, ?_⟩⟩
        · show (s.procs.set i _ i).state = .embryo
          rw [Table.set_self]
        · intro j hj
          have hj : s.kstack i = some j := hj
          rw [h.vacant i hunused] at hj
          cases hj
      kstack := fun _ _ => rfl
      pgdir := fun _ _ => rfl
      stackPages := fun _ _ _ hj => hj
      dirPages := fun _ _ _ hj => hj
      thread := by
        intro i j _ hip hj
        have hjk : j ≠ k := by
          rintro rfl
          exact hip (h.stack_inj hj hk)
        exact Function.update_of_ne hjk _ s.thread
      others := by
        intro i hi _
        show Drift s c p i (s.procs.set np _ i).state
        rw [Table.set_of_ne _ hi]
        exact .same
      self := by
        show (s.procs.set np _ p).state = _
        rw [Table.set_of_ne _ hne]
      before := hbefore
      after := by
        show (update s.thread k (.forkStack np) k).state = .running
        rw [hself]
        rfl
      locked := by
        show (update s.thread k (.forkStack np) k).locked = true → _
        rw [hself]
        exact fun hlocked => by cases hlocked
      lock := fun _ _ hlock => hlock
      wf := by
        show (update s.thread k (.forkStack np) k).WF
        rw [hself]
        trivial
      child := by
        intro np' n hchild
        have hchild : (update s.thread k (.forkStack np) k).child = some (np', n) := hchild
        rw [hself] at hchild
        cases hchild
        refine ⟨⟨?_, fun hn => by omega, fun hn => by omega⟩, fun q j n' _ hj => hforked q j n' hj⟩
        show (s.procs.set np _ np).state = .embryo
        rw [Table.set_self] }

theorem Placed.forkStack (h : Placed s m) (hr : Runs s c k p) {np : Slot}
    (ht : s.thread k = .forkStack np) (hj : s.pages j = none) :
    Placed (({ s with kstack := update s.kstack np (some j)
                      pages := update s.pages j (some (.stack np)) }.setThread j
      .forkret).setThread k (.forkDir np)) m := by
  obtain ⟨hm, hk⟩ := h.on hr
  have hbefore : (s.thread k).state = .running := by
    rw [ht]
    rfl
  have hold : (s.thread k).child = some (np, 0) := by
    rw [ht]
    rfl
  obtain ⟨hcurrent, hforked⟩ := h.own_child hk hold
  have hembryo := (h.child p k np 0 hk hold).state
  have hused : ∀ {e r}, s.pages e = some r → e ≠ j := by
    rintro e r he rfl
    rw [hj] at he
    cases he
  have hkj : k ≠ j := hused (h.ownStack p k hk)
  have hself : update (update s.thread j .forkret) k (.forkDir np) k = .forkDir np :=
    Function.update_self _ _ _
  apply h.advance (X := fun i => i = np) hm hk
  exact
    { cpu := rfl
      renewed := by
        rintro i rfl
        refine ⟨hcurrent, hforked, .inr ⟨hembryo, ?_⟩⟩
        intro e he
        have he : update s.kstack i (some j) i = some e := he
        rw [Function.update_self] at he
        cases he
        constructor
        · exact Function.update_self j _ s.pages
        · show update (update s.thread j .forkret) k (.forkDir i) j = .forkret
          rw [Function.update_of_ne hkj.symm, Function.update_self]
      kstack := fun i hi => Function.update_of_ne hi _ s.kstack
      pgdir := fun _ _ => rfl
      stackPages := fun i e _ he => (Function.update_of_ne (hused he) _ s.pages).trans he
      dirPages := fun i e _ he => (Function.update_of_ne (hused he) _ s.pages).trans he
      thread := by
        intro i e _ hip he
        have hek : e ≠ k := by
          rintro rfl
          exact hip (h.stack_inj he hk)
        show update (update s.thread j .forkret) k (.forkDir np) e = s.thread e
        rw [Function.update_of_ne hek, Function.update_of_ne (hused (h.ownStack i e he))]
      others := fun _ _ _ => .same
      self := rfl
      before := hbefore
      after := by
        show (update (update s.thread j .forkret) k (.forkDir np) k).state = .running
        rw [hself]
        rfl
      locked := by
        show (update (update s.thread j .forkret) k (.forkDir np) k).locked = true → _
        rw [hself]
        exact fun hlocked => by cases hlocked
      lock := fun _ _ hlock => hlock
      wf := by
        show (update (update s.thread j .forkret) k (.forkDir np) k).WF
        rw [hself]
        trivial
      child := by
        intro np' n hchild
        have hchild : (update (update s.thread j .forkret) k (.forkDir np) k).child =
          some (np', n) := hchild
        rw [hself] at hchild
        cases hchild
        exact ⟨⟨hembryo, fun _ => ⟨j, Function.update_self np _ s.kstack⟩, fun hn => by omega⟩,
          hforked⟩ }

/-- A slot is given back: its process is being forked, or it is a zombie, and its pages
are freed. -/
theorem Placed.giveBack (h : Placed s m) (hm : m c = .on p) (hk : s.kstack p = some k)
    {table : Table} {pages : Page → Option Role} {pgdir : Slot → Option Page} {lock : Option Cpu}
    (hbefore : (s.thread k).state = .running) (hip : p ≠ i)
    (hcurrent : ∀ d, (m d).slot ≠ some i)
    (hforked : ∀ q j n, q ≠ p → s.kstack q = some j → (s.thread j).child ≠ some (i, n))
    (hunused : (table i).state = .unused) (htable : ∀ q, q ≠ i → table q = s.procs q)
    (hpgdir : ∀ q, q ≠ i → pgdir q = s.pgdir q)
    (hpages : ∀ j r, r ≠ .stack i → r ≠ .dir i → s.pages j = some r → pages j = some r)
    (hlock : ∀ d, d ≠ c → s.lock = some d → lock = some d) :
    Placed ({ s with procs := table, kstack := update s.kstack i none, pgdir := pgdir
                     pages := pages, lock := lock }.setThread k .user) m := by
  have hself : update s.thread k .user k = .user := Function.update_self _ _ _
  apply h.advance (X := fun q => q = i) hm hk
  exact
    { cpu := rfl
      renewed := by
        rintro q rfl
        exact ⟨hcurrent, hforked, .inl ⟨hunused, Function.update_self q _ s.kstack⟩⟩
      kstack := fun q hq => Function.update_of_ne hq _ s.kstack
      pgdir := hpgdir
      stackPages := by
        intro q j hq hj
        refine hpages j _ ?_ Role.noConfusion hj
        intro heq
        cases heq
        exact hq rfl
      dirPages := by
        intro q j hq hj
        refine hpages j _ Role.noConfusion ?_ hj
        intro heq
        cases heq
        exact hq rfl
      thread := by
        intro q j _ hqp hj
        have hjk : j ≠ k := by
          rintro rfl
          exact hqp (h.stack_inj hj hk)
        exact Function.update_of_ne hjk _ s.thread
      others := by
        intro q hq _
        show Drift s c p q (table q).state
        rw [htable q hq]
        exact .same
      self := by
        show (table p).state = _
        rw [htable p hip]
      before := hbefore
      after := by
        show (update s.thread k .user k).state = .running
        rw [hself]
        rfl
      locked := by
        show (update s.thread k .user k).locked = true → _
        rw [hself]
        exact fun hlocked => by cases hlocked
      lock := hlock
      wf := by
        show (update s.thread k .user k).WF
        rw [hself]
        trivial
      child := by
        intro np n hchild
        have hchild : (update s.thread k .user k).child = some (np, n) := hchild
        rw [hself] at hchild
        cases hchild }

/-- A page that is freed has the role of the slot that is given back. -/
theorem kfree_pages {r : Role} {e : Option Page} (he : ∀ j, e = some j → s.pages j ≠ some r)
    (hj : s.pages j = some r) : (s.kfree e).pages j = some r := by
  cases e with
  | none => exact hj
  | some f =>
      have hne : j ≠ f := by
        rintro rfl
        exact he j rfl hj
      exact (Function.update_of_ne hne _ s.pages).trans hj

theorem Placed.forkNoStack (h : Placed s m) (hr : Runs s c k p) {np : Slot}
    (ht : s.thread k = .forkStack np) :
    Placed ({ s.setState np .unused with
              kstack := update s.kstack np none }.setThread k .user) m := by
  obtain ⟨hm, hk⟩ := h.on hr
  have hbefore : (s.thread k).state = .running := by
    rw [ht]
    rfl
  have hold : (s.thread k).child = some (np, 0) := by
    rw [ht]
    rfl
  obtain ⟨hcurrent, hforked⟩ := h.own_child hk hold
  have hne : p ≠ np := by
    rintro rfl
    exact hcurrent c (by rw [hm]; rfl)
  apply h.giveBack (i := np) hm hk hbefore hne hcurrent hforked
  · show (s.procs.set np _ np).state = .unused
    rw [Table.set_self]
  · intro q hq
    show s.procs.set np (fun u => { u with state := .unused }) q = s.procs q
    exact Table.set_of_ne s.procs hq _
  · exact fun _ _ => rfl
  · exact fun _ _ _ _ hj => hj
  · exact fun _ _ hlock => hlock

theorem Placed.forkNoDir (h : Placed s m) (hr : Runs s c k p) {np : Slot}
    (ht : s.thread k = .forkDir np) :
    Placed ({ (s.kfree (s.kstack np)).setState np .unused with
              pgdir := update s.pgdir np none
              kstack := update s.kstack np none }.setThread k .user) m := by
  obtain ⟨hm, hk⟩ := h.on hr
  have hbefore : (s.thread k).state = .running := by
    rw [ht]
    rfl
  have hold : (s.thread k).child = some (np, 1) := by
    rw [ht]
    rfl
  obtain ⟨hcurrent, hforked⟩ := h.own_child hk hold
  have hne : p ≠ np := by
    rintro rfl
    exact hcurrent c (by rw [hm]; rfl)
  have hform : { (s.kfree (s.kstack np)).setState np .unused with
        pgdir := update s.pgdir np none, kstack := update s.kstack np none } =
      { s with
        procs := s.procs.set np fun q => { q with state := .unused }
        kstack := update s.kstack np none
        pgdir := update s.pgdir np none
        pages := (s.kfree (s.kstack np)).pages
        lock := s.lock } := by
    cases s.kstack np with
    | none => rfl
    | some j => rfl
  rw [hform]
  apply h.giveBack (i := np) hm hk hbefore hne hcurrent hforked
  · rw [Table.set_self]
  · exact fun q hq => Table.set_of_ne _ hq _
  · exact fun q hq => Function.update_of_ne hq _ s.pgdir
  · intro j r hstack _ hj
    apply kfree_pages _ hj
    intro e he hrole
    rw [h.ownStack np e he] at hrole
    exact hstack (Option.some.inj hrole).symm
  · exact fun _ _ hlock => hlock

theorem Placed.forkDir (h : Placed s m) (hr : Runs s c k p) {np : Slot}
    (ht : s.thread k = .forkDir np) (hj : s.pages j = none) :
    Placed ({ s with procs := s.procs.set np fun q => { q with parent := some p }
                     pgdir := update s.pgdir np (some j)
                     pages := update s.pages j (some (.dir np)) }.setThread k (.forkReady np)) m := by
  obtain ⟨hm, hk⟩ := h.on hr
  have hbefore : (s.thread k).state = .running := by
    rw [ht]
    rfl
  have hold : (s.thread k).child = some (np, 1) := by
    rw [ht]
    rfl
  obtain ⟨hcurrent, hforked⟩ := h.own_child hk hold
  obtain ⟨hembryo, hstack, -⟩ := h.child p k np 1 hk hold
  have hne : p ≠ np := by
    rintro rfl
    exact hcurrent c (by rw [hm]; rfl)
  have hused : ∀ {e r}, s.pages e = some r → e ≠ j := by
    rintro e r he rfl
    rw [hj] at he
    cases he
  have hself : update s.thread k (.forkReady np) k = .forkReady np := Function.update_self _ _ _
  have hstate : ∀ i, (s.procs.set np (fun q => { q with parent := some p }) i).state =
      (s.procs i).state := by
    intro i
    by_cases hi : i = np
    · rw [hi, Table.set_self]
    · rw [Table.set_of_ne _ hi]
  apply h.advance (X := fun i => i = np) hm hk
  exact
    { cpu := rfl
      renewed := by
        rintro i rfl
        refine ⟨hcurrent, hforked, .inr ⟨(hstate i).trans hembryo, ?_⟩⟩
        intro e he
        have he : s.kstack i = some e := he
        have hek : e ≠ k := by
          rintro rfl
          exact hne (h.stack_inj hk he)
        constructor
        · exact (Function.update_of_ne (hused (h.ownStack i e he)) _ s.pages).trans
            (h.ownStack i e he)
        · exact (Function.update_of_ne hek _ s.thread).trans (h.fresh i e hembryo he)
      kstack := fun _ _ => rfl
      pgdir := fun i hi => Function.update_of_ne hi _ s.pgdir
      stackPages := fun i e _ he => (Function.update_of_ne (hused he) _ s.pages).trans he
      dirPages := fun i e _ he => (Function.update_of_ne (hused he) _ s.pages).trans he
      thread := by
        intro i e _ hip he
        have hek : e ≠ k := by
          rintro rfl
          exact hip (h.stack_inj he hk)
        exact Function.update_of_ne hek _ s.thread
      others := by
        intro i _ _
        show Drift s c p i (s.procs.set np _ i).state
        rw [hstate]
        exact .same
      self := hstate p
      before := hbefore
      after := by
        show (update s.thread k (.forkReady np) k).state = .running
        rw [hself]
        rfl
      locked := by
        show (update s.thread k (.forkReady np) k).locked = true → _
        rw [hself]
        exact fun hlocked => by cases hlocked
      lock := fun _ _ hlock => hlock
      wf := by
        show (update s.thread k (.forkReady np) k).WF
        rw [hself]
        trivial
      child := by
        intro np' n hchild
        have hchild : (update s.thread k (.forkReady np) k).child = some (np', n) := hchild
        rw [hself] at hchild
        cases hchild
        exact ⟨⟨(hstate np).trans hembryo, fun _ => hstack (le_refl 1),
          fun _ => ⟨j, Function.update_self np _ s.pgdir, Function.update_self j _ s.pages⟩⟩,
          hforked⟩ }

theorem Placed.forkReady (h : Placed s m) (hr : Runs s c k p) {np : Slot}
    (ht : s.thread k = .forkReady np) :
    Placed ((s.setState np .runnable).setThread k .user) m := by
  obtain ⟨hm, hk⟩ := h.on hr
  have hbefore : (s.thread k).state = .running := by
    rw [ht]
    rfl
  have hold : (s.thread k).child = some (np, 2) := by
    rw [ht]
    rfl
  obtain ⟨hcurrent, hforked⟩ := h.own_child hk hold
  obtain ⟨hembryo, hstack, hdir⟩ := h.child p k np 2 hk hold
  have hne : p ≠ np := by
    rintro rfl
    exact hcurrent c (by rw [hm]; rfl)
  have hself : update s.thread k .user k = .user := Function.update_self _ _ _
  apply h.advance (X := fun _ => False) hm hk
  exact
    { cpu := rfl
      renewed := fun _ hX => hX.elim
      kstack := fun _ _ => rfl
      pgdir := fun _ _ => rfl
      stackPages := fun _ _ _ he => he
      dirPages := fun _ _ _ he => he
      thread := by
        intro i e _ hip he
        have hek : e ≠ k := by
          rintro rfl
          exact hip (h.stack_inj he hk)
        exact Function.update_of_ne hek _ s.thread
      others := by
        intro i _ _
        show Drift s c p i (s.procs.set np _ i).state
        by_cases hi : i = np
        · rw [hi, Table.set_self]
          exact .ready hembryo (hstack (by omega)) (hdir (le_refl 2)) hforked
        · rw [Table.set_of_ne _ hi]
          exact .same
      self := by
        show (s.procs.set np _ p).state = _
        rw [Table.set_of_ne _ hne]
      before := hbefore
      after := by
        show (update s.thread k .user k).state = .running
        rw [hself]
        rfl
      locked := by
        show (update s.thread k .user k).locked = true → _
        rw [hself]
        exact fun hlocked => by cases hlocked
      lock := fun _ _ hlock => hlock
      wf := by
        show (update s.thread k .user k).WF
        rw [hself]
        trivial
      child := by
        intro np' n hchild
        have hchild : (update s.thread k .user k).child = some (np', n) := hchild
        rw [hself] at hchild
        cases hchild }

/-- A zombie is not the current process of a CPU while another CPU holds the lock. -/
theorem Placed.reap (h : Placed s m) (hr : Runs s c k p) {z : Slot} (ht : s.thread k = .scan)
    (hz : s.procs.findZombie p = some z) :
    Placed ({ (s.kfree (s.kstack z)).kfree (s.pgdir z) with
              procs := s.procs.reap z
              kstack := update s.kstack z none
              lock := none }.setThread k .user) m := by
  obtain ⟨hm, hk⟩ := h.on hr
  have hbefore : (s.thread k).state = .running := by
    rw [ht]
    rfl
  have hrunning := h.running_on hm hk hbefore
  have hlock := h.lock_of_locked hm hk (by rw [ht]; rfl)
  have hzombie := Table.find_some hz
  simp only [Bool.and_eq_true, beq_iff_eq] at hzombie
  have hstate := hzombie.2
  have hne : p ≠ z := by
    rintro rfl
    rw [hrunning] at hstate
    cases hstate
  have hcurrent : ∀ d, (m d).slot ≠ some z := by
    intro d hd
    have hholds : (m d).Holds s := by
      by_contra hnot
      rw [h.running_of_not_holds hd hnot] at hstate
      cases hstate
    have hdc : c = d := Option.some.inj (hlock.symm.trans (h.lock d hholds))
    subst hdc
    rw [hm] at hd
    exact hne (Option.some.inj hd)
  have hforked : ∀ q j n, q ≠ p → s.kstack q = some j → (s.thread j).child ≠ some (z, n) := by
    intro q j n _ hj hq
    rw [(h.child q j z n hj hq).state] at hstate
    cases hstate
  obtain ⟨-, e, he, hdir⟩ := h.live z (.inr (.inr (.inr hstate)))
  have hform : { (s.kfree (s.kstack z)).kfree (s.pgdir z) with
        procs := s.procs.reap z, kstack := update s.kstack z none, lock := none } =
      { s with
        procs := s.procs.reap z
        kstack := update s.kstack z none
        pgdir := s.pgdir
        pages := ((s.kfree (s.kstack z)).kfree (s.pgdir z)).pages
        lock := none } := by
    rw [he]
    cases s.kstack z with
    | none => rfl
    | some j => rfl
  rw [hform]
  apply h.giveBack (i := z) hm hk hbefore hne hcurrent hforked
  · show (s.procs.set z _ z).state = .unused
    rw [Table.set_self]
  · exact fun q hq => Table.set_of_ne _ hq _
  · exact fun _ _ => rfl
  · intro j r hstack hnotdir hj
    apply kfree_pages
    · intro f hf hrole
      rw [he] at hf
      cases hf
      have hold : s.pages e = some r := by
        cases hst : s.kstack z with
        | none =>
            rw [hst] at hrole
            exact hrole
        | some g =>
            rw [hst] at hrole
            by_cases heg : e = g
            · have hnone : update s.pages g none e = none := by
                rw [heg, Function.update_self]
              have hrole : update s.pages g none e = some r := hrole
              rw [hnone] at hrole
              cases hrole
            · have hrole : update s.pages g none e = some r := hrole
              rw [Function.update_of_ne heg] at hrole
              exact hrole
      rw [hdir] at hold
      exact hnotdir (Option.some.inj hold).symm
    · apply kfree_pages _ hj
      intro f hf hrole
      rw [h.ownStack z f hf] at hrole
      exact hstack (Option.some.inj hrole).symm
  · intro d hd hdlock
    rw [hlock] at hdlock
    exact absurd (Option.some.inj hdlock).symm hd

end Placed

end OsWork.Ports.ProcSwitch

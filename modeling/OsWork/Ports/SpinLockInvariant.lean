import OsWork.Ports.SpinLockInstructions

/-!
# The invariant of the spin locks

Every CPU runs on a stack of frames that are safe for it, and the stacks that no CPU
runs on are safe for the one that will.

## Main results

* `Inv.step` — every step keeps the invariant.
* `exists_inv` — it holds in every state that is reached.
-/

namespace OsWork.Ports.SpinLocks

open OsWork.Verified.Transition
open OsWork.Ports.KernelLocks (Lock)
open Function (update)

variable {C : Type} [DecidableEq C]

variable {g : Option Bool} {v : View} {k : List Op} {l : Lock}

/-! ## The invariant -/

/-- The trap frame of a kernel stack has the flag set, or the frame never returns. -/
def Frame.Returns (f : Frame) : Prop :=
  f.kind = .boot ∨ f.kind = .scheduler ∨ f.saved = true

/-- A frame another one has interrupted, with interrupts on. -/
structure Below (f : Frame) : Prop where
  returns : f.Returns
  safe : ∀ b, Safe f.kind.flag f.ops
    ⟨⟨0, b, true⟩, ∅, ∅, f.eflags, f.r, f.intena⟩

/-- A stack no CPU runs on, left in `sched` or by the scheduler. -/
structure Away (st : List Frame) : Prop where
  top : ∃ f rest, st = f :: rest ∧ f.Returns ∧
    ∀ b, Safe f.kind.flag f.ops
      ⟨⟨1, b, false⟩, {.ptable}, {.ptable}, f.eflags, f.r, f.intena⟩
  below : ∀ f ∈ st.tail, Below f

/-- CPU `c` runs on the stack, or in user mode. -/
def Runs (lk : Lock → Spinlock C) (own : Lock → Option C) (c : C) (x : Cpu) :
    List Frame → Prop
  | [] => x.fl_if = true ∧ x.ncli = 0 ∧ ∀ l, own l ≠ some c
  | f :: rest =>
      (∃ v, Knows lk own c x f v ∧ Safe f.kind.flag f.ops v) ∧ f.Returns ∧
        ∀ f' ∈ rest, Below f'

structure Inv (s : State C) (own : Lock → Option C) : Prop where
  locks : Locks s.lock own
  holds : ∀ l c, s.Holds c l ↔ own l = some c
  runs : ∀ c, s.panicked c = none → Runs s.lock own c (s.cpu c) (s.stack c)
  parked : ∀ st ∈ s.parked, Away st
  sched : ∀ c, s.proc c ≠ none → Away (s.sched c)

section Stacks

variable {lk lk' : Lock → Spinlock C} {own own' : Lock → Option C} {c d : C} {x : Cpu}
  {st : List Frame} {s t : State C}

omit [DecidableEq C] in
theorem Runs.congr (h : Runs lk own c x st) (hsame : Elsewhere lk lk' own own' c) :
    Runs lk' own' c x st := by
  cases st with
  | nil => exact ⟨h.1, h.2.1, fun l => (hsame l).1.not.mpr (h.2.2 l)⟩
  | cons f rest =>
      obtain ⟨⟨v, hk, hs⟩, hrest⟩ := h
      refine ⟨⟨v, ⟨hk.cpu, fun l => ?_, fun l => ?_, hk.eflags, hk.r, hk.intena⟩, hs⟩, hrest⟩
      · exact (hk.held l).trans (hsame l).1.symm
      · exact (hk.named l).trans (hsame l).2.symm

/-- With interrupts on, no lock is held. -/
theorem Safe.none_held {ops : List Op} (h : Safe g ops v) (hfl : v.cpu.fl_if = true) :
    v.cpu.ncli = 0 ∧ v.held = ∅ ∧ v.named = ∅ := by
  cases ops with
  | nil =>
      have h0 := h.masked hfl
      have hheld : v.held = ∅ := by
        have hcount := h.counted
        exact Finset.card_eq_zero.mp (by omega)
      exact ⟨h0, hheld, h.named.trans hheld⟩
  | cons op k =>
      have h0 := h.1.masked hfl
      have hheld : v.held = ∅ := by
        have hcount := h.1.counted
        exact Finset.card_eq_zero.mp (by omega)
      exact ⟨h0, hheld, Finset.subset_empty.mp (hheld ▸ h.1.sub)⟩

omit [DecidableEq C] in
/-- A stack that is interrupted. -/
theorem Runs.below (h : Runs lk own c x st) (hfl : x.fl_if = true) :
    x.ncli = 0 ∧ (∀ l, own l ≠ some c) ∧ ∀ f ∈ st, Below f := by
  cases st with
  | nil => exact ⟨h.2.1, h.2.2, by simp⟩
  | cons f rest =>
      obtain ⟨⟨v, hk, hs⟩, hreturns, hrest⟩ := h
      have hon : v.cpu.fl_if = true := by rw [hk.cpu, hfl]
      obtain ⟨h0, hheld, hnamed⟩ := hs.none_held hon
      refine ⟨by rw [← hk.cpu, h0], fun l hl => ?_, ?_⟩
      · have hmem := (hk.held l).mpr hl
        simp [hheld] at hmem
      · intro f' hf'
        rcases List.mem_cons.mp hf' with rfl | hmem
        · refine ⟨hreturns, fun b => ?_⟩
          have hb := hs.intena h0 b
          have heq : ({ v with cpu := { v.cpu with intena := b } } : View) =
              ⟨⟨0, b, true⟩, ∅, ∅, f'.eflags, f'.r, f'.intena⟩ := by
            rw [← hk.eflags, ← hk.r, ← hk.intena, ← hheld]
            simp only [h0, hon, hnamed, hheld]
          exact heq ▸ hb
        · exact hrest f' hmem

omit [DecidableEq C] in
/-- The interrupted stack goes on. -/
theorem runs_of_below (hfl : x.fl_if = true) (h0 : x.ncli = 0) (hown : ∀ l, own l ≠ some c)
    (hl : Locks lk own) (h : ∀ f ∈ st, Below f) : Runs lk own c x st := by
  cases st with
  | nil => exact ⟨hfl, h0, hown⟩
  | cons f rest =>
      have hf := h f (by simp)
      refine ⟨⟨⟨⟨0, x.intena, true⟩, ∅, ∅, f.eflags, f.r, f.intena⟩, ?_, hf.safe x.intena⟩,
        hf.returns, fun f' hf' => h f' (List.mem_cons_of_mem _ hf')⟩
      refine ⟨?_, fun l => ?_, fun l => ?_, rfl, rfl, rfl⟩
      · rw [← hfl, ← h0]
      · simp [hown l]
      · simp only [Finset.notMem_empty, false_iff]
        exact fun hcpu => hown l (hl.named l c hcpu)

/-! ### The stacks of a state -/

theorem stack_setStack (s : State C) (c : C) (st : List Frame) :
    (s.setStack c st).stack c = st := by
  simp only [State.stack, State.setStack]
  cases hp : s.proc c with
  | none => simp [hp]
  | some old => simp

theorem stack_setStack_of_ne (h : d ≠ c) (s : State C) (st : List Frame) :
    (s.setStack c st).stack d = s.stack d := by
  simp only [State.stack, State.setStack]
  cases hp : s.proc c <;> simp [h]

/-- The fields that `setStack` leaves alone. -/
theorem setStack_frame (s : State C) (c : C) (st : List Frame) :
    (s.setStack c st).lock = s.lock ∧ (s.setStack c st).cpu = s.cpu ∧
      (s.setStack c st).parked = s.parked ∧ (s.setStack c st).panicked = s.panicked := by
  simp only [State.setStack]
  cases s.proc c <;> exact ⟨rfl, rfl, rfl, rfl⟩

/-- Schedulers that wait for their process still wait. -/
theorem sched_setStack (hs : ∀ d, s.proc d ≠ none → Away (s.sched d)) (st : List Frame)
    (hp : ((s.setStack c st).proc d) ≠ none) : Away ((s.setStack c st).sched d) := by
  simp only [State.setStack] at hp ⊢
  cases hc : s.proc c with
  | some old =>
      simp only [hc] at hp ⊢
      refine hs d ?_
      by_cases hd : d = c
      · simp [hd, hc]
      · simpa [hd] using hp
  | none =>
      simp only [hc] at hp ⊢
      have hd : d ≠ c := by
        rintro rfl
        exact hp hc
      simpa [hd] using hs d hp

/-- The lock a CPU writes its name into, or has just removed it from, is its own. -/
theorem Safe.next_held {ops : List Op} (h : Safe g ops v)
    (hop : ops.head? = some (.setcpu l) ∨ ops.head? = some (.unlock l)) : l ∈ v.held := by
  cases ops with
  | nil => simp at hop
  | cons op k =>
      simp only [List.head?_cons, Option.some.injEq] at hop
      rcases hop with rfl | rfl
      · exact h.2.2.1
      · exact h.2.1

/-- And a lock that does not name its owner is one of these. -/
theorem Safe.named_or_next {ops : List Op} (h : Safe g ops v) (hl : l ∈ v.held) :
    l ∈ v.named ∨ ops.head? = some (.setcpu l) ∨ ops.head? = some (.unlock l) := by
  cases ops with
  | nil => exact .inl (h.named ▸ hl)
  | cons op k => simpa using h.1.named l hl

omit [DecidableEq C] in
/-- What a running CPU holds it owns. -/
theorem Runs.holds (h : Runs s.lock own c (s.cpu c) (s.stack c)) (hl : Locks s.lock own)
    (l : Lock) : s.Holds c l ↔ own l = some c := by
  simp only [State.Holds, State.next]
  cases hst : s.stack c with
  | nil =>
      rw [hst] at h
      simp only [List.head?_nil, Option.bind_none, reduceCtorEq, or_false]
      exact ⟨hl.named l c, fun hown => absurd hown (h.2.2 l)⟩
  | cons f rest =>
      rw [hst] at h
      obtain ⟨⟨v, hk, hs⟩, -⟩ := h
      simp only [List.head?_cons, Option.bind_some]
      constructor
      · rintro (hcpu | hnext)
        · exact hl.named l c hcpu
        · exact (hk.held l).mp (hs.next_held hnext)
      · intro hown
        rcases hs.named_or_next ((hk.held l).mpr hown) with hnamed | hnext
        · exact .inl ((hk.named l).mp hnamed)
        · exact .inr hnext

end Stacks

section Step

variable {s t : State C} {own own' : Lock → Option C} {c d : C} {x : Cpu}
  {lk : Lock → Spinlock C} {f : Frame} {rest st : List Frame}

/-- Nothing has changed for CPU `d`. -/
structure Same (s t : State C) (own own' : Lock → Option C) (d : C) : Prop where
  cpu : t.cpu d = s.cpu d
  stack : t.stack d = s.stack d
  panicked : t.panicked d = s.panicked d
  locks : Elsewhere s.lock t.lock own own' d

omit [DecidableEq C] in
theorem Same.holds (hI : Inv s own) (h : Same s t own own' d) (l : Lock) :
    t.Holds d l ↔ own' l = some d := by
  have hnext : t.next d = s.next d := by simp only [State.next, h.stack]
  rw [(h.locks l).1, ← hI.holds l d, State.Holds, State.Holds, (h.locks l).2, hnext]

omit [DecidableEq C] in
/-- A step of CPU `c`, which is still running. -/
theorem Inv.change (hI : Inv s own) (hl : Locks t.lock own')
    (hothers : ∀ d, d ≠ c → Same s t own own' d)
    (hruns : Runs t.lock own' c (t.cpu c) (t.stack c)) (hparked : ∀ st ∈ t.parked, Away st)
    (hsched : ∀ d, t.proc d ≠ none → Away (t.sched d)) : Inv t own' where
  locks := hl
  holds l d := by
    by_cases hd : d = c
    · subst hd
      exact hruns.holds hl l
    · exact (hothers d hd).holds hI l
  runs d hlive := by
    by_cases hd : d = c
    · subst hd
      exact hruns
    · have hsame := hothers d hd
      rw [hsame.cpu, hsame.stack]
      exact (hI.runs d (hsame.panicked ▸ hlive)).congr hsame.locks
  parked := hparked
  sched := hsched

/-- A step of CPU `c` on the stack it runs on. -/
theorem Inv.goto (hI : Inv s own) (hl : Locks lk own')
    (hothers : ∀ d, d ≠ c → Elsewhere s.lock lk own own' d) (hruns : Runs lk own' c x st) :
    Inv ({ s with lock := lk, cpu := update s.cpu c x }.setStack c st) own' := by
  obtain ⟨hlock, hcpu, hparked, hpanicked⟩ :=
    setStack_frame { s with lock := lk, cpu := update s.cpu c x } c st
  have hstack := stack_setStack { s with lock := lk, cpu := update s.cpu c x } c st
  refine hI.change (c := c) (hlock ▸ hl) (fun d hd => ?_) ?_ ?_ fun d hp => ?_
  · refine ⟨by simp [hcpu, hd], ?_, by simp [hpanicked], by simpa [hlock] using hothers d hd⟩
    rw [stack_setStack_of_ne hd]
    rfl
  · simpa [hlock, hcpu, hstack] using hruns
  · simpa [hparked] using hI.parked
  · exact sched_setStack (s := { s with lock := lk, cpu := update s.cpu c x }) hI.sched st hp

/-- A step that changes the frame the CPU is in, and nothing else. -/
theorem Inv.reframe (hI : Inv s own) (hruns : Runs s.lock own c (s.cpu c) st) :
    Inv (s.setStack c st) own := by
  have h := hI.goto (c := c) (x := s.cpu c) hI.locks (fun d _ l => ⟨Iff.rfl, Iff.rfl⟩) hruns
  rwa [Function.update_eq_self] at h

theorem Inv.panic (hI : Inv s own) (msg : String) : Inv (s.panic c msg) own where
  locks := hI.locks
  holds := hI.holds
  runs d hlive := by
    have hd : d ≠ c := by
      rintro rfl
      simp [State.panic] at hlive
    simpa [State.panic, hd, State.stack] using hI.runs d (by simpa [State.panic, hd] using hlive)
  parked := hI.parked
  sched := hI.sched

omit [DecidableEq C] in
theorem idle_eq (h : s.idle c = some (f, rest)) : s.stack c = f :: rest ∧ f.ops = [] := by
  simp only [State.idle] at h
  split at h
  · rename_i f' rest' hst
    split at h
    · rename_i hops
      cases h
      exact ⟨hst, hops⟩
    · cases h
  · cases h

omit [DecidableEq C] in
/-- A CPU in the view of the gate. -/
theorem Gate.away {v : View} (hgate : Gate v) (hreturns : f.Returns)
    (heflags : v.eflags = f.eflags) (hr : v.r = f.r) (hintena : v.intena = f.intena)
    (hsafe : ∀ b, Safe f.kind.flag f.ops { v with cpu := { v.cpu with intena := b } })
    (hbelow : ∀ f' ∈ rest, Below f') : Away (f :: rest) := by
  refine ⟨⟨f, rest, rfl, hreturns, fun b => ?_⟩, hbelow⟩
  have heq : ({ v with cpu := { v.cpu with intena := b } } : View) =
      ⟨⟨1, b, false⟩, {.ptable}, {.ptable}, f.eflags, f.r, f.intena⟩ := by
    simp only [hgate.off, hgate.one, hgate.held, hgate.named, heflags, hr, hintena]
  exact heq ▸ hsafe b

omit [DecidableEq C] in
/-- A CPU that holds `ptable.lock` and nothing else goes on with another stack. -/
theorem Away.runs {v : View} (h : Away st) (hgate : Gate v) (hcpu : v.cpu = x)
    (hheld : ∀ l, l ∈ v.held ↔ own l = some c)
    (hnamed : ∀ l, l ∈ v.named ↔ (lk l).cpu = some c) : Runs lk own c x st := by
  obtain ⟨⟨f, rest, rfl, hreturns, hsafe⟩, hbelow⟩ := h
  refine ⟨⟨_, ⟨?_, ?_, ?_, rfl, rfl, rfl⟩, hsafe x.intena⟩, hreturns, hbelow⟩
  · rw [← hcpu, ← hgate.one, ← hgate.off]
  · exact fun l => hgate.held ▸ hheld l
  · exact fun l => hgate.named ▸ hnamed l

theorem Inv.exec (hI : Inv s own) (hlive : s.panicked c = none) {pick : Nat}
    (hs : s.exec c pick = some t) : ∃ own', Inv t own' := by
  have hruns := hI.runs c hlive
  unfold State.exec at hs
  split at hs
  · cases hs
  · rename_i f rest hst
    rw [hst] at hruns
    obtain ⟨⟨v, hk, hsafe⟩, hreturns, hbelow⟩ := hruns
    split at hs
    · cases hs
    · -- a process leaves its CPU
      rename_i k hops
      split at hs
      · cases hs
      · rename_i old hp
        cases hs
        rw [hops] at hsafe
        obtain ⟨-, hgate, hnext⟩ := hsafe
        have hsched : Away (s.sched c) := hI.sched c (by simp [hp])
        have hleft : Away ({ f with ops := k } :: rest) :=
          Gate.away hgate hreturns hk.eflags hk.r hk.intena hnext hbelow
        refine ⟨own, hI.change (c := c) hI.locks (fun d hd => ?_) ?_ ?_ ?_⟩
        · exact ⟨rfl, by simp [State.stack, hd], rfl, fun l => ⟨Iff.rfl, Iff.rfl⟩⟩
        · simpa [State.stack] using hsched.runs hgate hk.cpu hk.held hk.named
        · intro st hmem
          rcases List.mem_append.mp hmem with hold | hnew
          · exact hI.parked st hold
          · rw [List.mem_singleton.mp hnew]
            exact hleft
        · intro d hd
          by_cases hdc : d = c
          · simp [hdc] at hd
          · exact hI.sched d (by simpa [hdc] using hd)
    · rename_i k hops
      cases hs
      rw [hops] at hsafe
      obtain ⟨-, hgate, hkind⟩ := hsafe
      obtain ⟨hend, hfound⟩ := safe_scan hgate
      refine ⟨own, hI.reframe ⟨⟨v, ⟨hk.cpu, hk.held, hk.named, hk.eflags, hk.r, hk.intena⟩, ?_⟩,
        hreturns, hbelow⟩⟩
      simp only [hkind]
      split
      · exact hend
      · exact hfound
    · -- the scheduler gives its CPU to a process
      rename_i k hops
      split at hs
      · rename_i st hp hst'
        cases hs
        rw [hops] at hsafe
        obtain ⟨-, hgate, hnext⟩ := hsafe
        have hthere : Away st := hI.parked st (List.mem_of_getElem? hst')
        have hleft : Away ({ f with ops := k } :: rest) :=
          Gate.away hgate hreturns hk.eflags hk.r hk.intena hnext hbelow
        refine ⟨own, hI.change (c := c) hI.locks (fun d hd => ?_) ?_ ?_ ?_⟩
        · exact ⟨rfl, by simp [State.stack, hd], rfl, fun l => ⟨Iff.rfl, Iff.rfl⟩⟩
        · simpa [State.stack] using hthere.runs hgate hk.cpu hk.held hk.named
        · exact fun st' hmem => hI.parked st' (List.mem_of_mem_eraseIdx hmem)
        · intro d hd
          by_cases hdc : d = c
          · simpa [hdc] using hleft
          · simpa [hdc] using hI.sched d (by simpa [hdc] using hd)
      · cases hs
    · rename_i op k hswtch hscan hresume hops
      have hstays : op.Stays := by
        cases op with
        | swtch => exact absurd rfl hswtch
        | scan => exact absurd rfl hscan
        | resume => exact absurd rfl hresume
        | _ => trivial
      rw [hops] at hsafe
      split at hs
      · rename_i lk x f' hrun
        cases hs
        obtain ⟨own', hgoes⟩ := Op.run_ok hI.locks hk hsafe hops hstays hrun
        refine ⟨own', hI.goto hgoes.locks hgoes.others ⟨?_, ?_, hbelow⟩⟩
        · rw [hgoes.kind]
          exact hgoes.safe
        · simpa only [Frame.Returns, hgoes.kind, hgoes.saved] using hreturns
      · cases hs
        exact ⟨own, hI.panic _⟩

/-- A trap taken with interrupts on. -/
theorem Inv.trap (hI : Inv s own) (hlive : s.panicked c = none)
    (hfl : (s.cpu c).fl_if = true) {kind : Kind} (hkind : kind = .interrupt ∨ kind = .syscall) :
    Inv (s.trap c kind) own := by
  obtain ⟨h0, hown, hbelow⟩ := (hI.runs c hlive).below hfl
  refine hI.goto hI.locks (fun d _ l => ⟨Iff.rfl, Iff.rfl⟩) ⟨?_, .inr (.inr hfl), hbelow⟩
  refine ⟨⟨_, ∅, ∅, false, false, false⟩, ⟨rfl, ?_, ?_, rfl, rfl, rfl⟩, ?_⟩
  · simp [hown]
  · intro l
    simp only [Finset.notMem_empty, false_iff]
    exact fun hcpu => hown l (hI.locks.named l c hcpu)
  · refine ⟨rfl, by simp [h0], fun _ => h0, fun _ b hb => ?_, fun hpos => ?_⟩
    · rcases hkind with rfl | rfl <;> simpa [Frame.enter, Kind.flag, hfl] using hb
    · simp [h0] at hpos

theorem newborn_away : Away newborn := by
  refine ⟨⟨_, [], rfl, .inr (.inr rfl), fun b => ?_⟩, by simp [newborn]⟩
  have hgate : Gate ⟨⟨1, b, false⟩, {.ptable}, {.ptable}, false, false, false⟩ :=
    ⟨rfl, rfl, rfl, rfl⟩
  simpa [Frame.enter, Kind.flag] using safe_release (k := []) hgate.body fun w hw _ => hw

theorem Inv.step (hI : Inv s own) {a : Act C} (hclean : Clean s a)
    (hs : s.step a = some t) : ∃ own', Inv t own' := by
  cases a with
  | exec c pick =>
      simp only [State.step] at hs
      split at hs
      · rename_i hlive
        exact hI.exec hlive hs
      · cases hs
  | call c fn =>
      simp only [State.step] at hs
      split at hs
      · rename_i f rest hlive hidle
        obtain ⟨hst, hops⟩ := idle_eq hidle
        split at hs
        · cases hs
        · cases hs
          have hruns := hI.runs c hlive
          rw [hst] at hruns
          obtain ⟨⟨v, hk, hsafe⟩, hreturns, hbelow⟩ := hruns
          rw [hops] at hsafe
          exact ⟨own, hI.reframe ⟨⟨v,
            ⟨hk.cpu, hk.held, hk.named, hk.eflags, hk.r, hk.intena⟩, safe_call hsafe fn⟩,
            hreturns, hbelow⟩⟩
      · cases hs
  | intr c =>
      simp only [State.step] at hs
      split at hs
      · rename_i hon
        cases hs
        exact ⟨own, hI.trap hon.1 hon.2 (.inl rfl)⟩
      · cases hs
  | syscall c =>
      simp only [State.step] at hs
      split at hs
      · rename_i hlive huser
        cases hs
        have hruns := hI.runs c hlive
        simp only [State.stack, huser, Option.getD_some] at hruns
        exact ⟨own, hI.trap hlive hruns.1 (.inr rfl)⟩
      · cases hs
  | trapret c =>
      simp only [State.step] at hs
      split at hs
      · rename_i f rest hlive hidle
        obtain ⟨hst, hops⟩ := idle_eq hidle
        split at hs
        · cases hs
        · rename_i hkind
          cases hs
          have hruns := hI.runs c hlive
          rw [hst] at hruns
          obtain ⟨⟨v, hk, hsafe⟩, hreturns, hbelow⟩ := hruns
          rw [hops] at hsafe
          have h0 : v.cpu.ncli = 0 := by rw [hk.cpu]; exact hclean
          have hheld : v.held = ∅ := by
            have hcount := hsafe.counted
            exact Finset.card_eq_zero.mp (by omega)
          have hsaved : f.saved = true := by
            rcases hreturns with hboot | hsched | hsaved
            · exact absurd (.inl hboot) hkind
            · exact absurd (.inr hsched) hkind
            · exact hsaved
          refine ⟨own, hI.goto hI.locks (fun d _ l => ⟨Iff.rfl, Iff.rfl⟩) ?_⟩
          refine runs_of_below hsaved hclean (fun l hl => ?_) hI.locks hbelow
          have hmem := (hk.held l).mpr hl
          simp [hheld] at hmem
      · cases hs
  | fork c =>
      simp only [State.step] at hs
      split at hs
      · rename_i fr hlive hidle
        cases hs
        refine ⟨own, hI.locks, hI.holds, hI.runs, fun st hmem => ?_, hI.sched⟩
        rcases List.mem_append.mp hmem with hold | hnew
        · exact hI.parked st hold
        · rw [List.mem_singleton.mp hnew]
          exact newborn_away
      · cases hs
  | scheduler c =>
      simp only [State.step] at hs
      split at hs
      · rename_i f rest hlive hidle
        obtain ⟨hst, hops⟩ := idle_eq hidle
        split at hs
        · cases hs
          have hruns := hI.runs c hlive
          rw [hst] at hruns
          obtain ⟨⟨v, hk, hsafe⟩, hreturns, hbelow⟩ := hruns
          rw [hops] at hsafe
          have h0 : v.cpu.ncli = 0 := by rw [hk.cpu]; exact hclean
          have hheld : v.held = ∅ := by
            have hcount := hsafe.counted
            exact Finset.card_eq_zero.mp (by omega)
          refine ⟨own, hI.reframe ⟨⟨v,
            ⟨hk.cpu, hk.held, hk.named, hk.eflags, hk.r, hk.intena⟩, ?_⟩, .inr (.inl rfl),
            hbelow⟩⟩
          refine safe_scheduler ⟨hsafe.named, hsafe.counted, hsafe.masked, ?_, ?_⟩ hheld
          · exact fun _ b hb => by simp at hb
          · exact fun _ b hb => by simp at hb
        · cases hs
      · cases hs

omit [DecidableEq C] in
theorem Inv.start : Inv (SpinLocks.start : State C) fun _ => none where
  locks := ⟨fun _ => rfl, fun l c h => by simp [SpinLocks.start] at h⟩
  holds l c := by simp [State.Holds, State.next, State.stack, SpinLocks.start, Frame.enter]
  runs c _ := by
    refine ⟨⟨⟨_, ∅, ∅, false, false, false⟩, ⟨rfl, ?_, ?_, rfl, rfl, rfl⟩, ?_⟩, .inl rfl, by simp⟩
    · simp
    · simp [SpinLocks.start]
    · refine ⟨rfl, rfl, fun _ => rfl, fun _ b hb => ?_, fun hpos => ?_⟩
      · simpa [Frame.enter, Kind.flag, SpinLocks.start] using hb
      · simp [SpinLocks.start] at hpos
  parked st h := by simp [SpinLocks.start] at h
  sched c h := by simp [SpinLocks.start] at h

theorem exists_inv (h : system.ReachableWhen Clean s) : ∃ own, Inv s own := by
  refine h.invariant (P := fun s => ∃ own, Inv s own) ?_ ?_
  · rintro s rfl
    exact ⟨_, Inv.start⟩
  · rintro s a t ⟨own, hI⟩ hclean hs
    exact hI.step hclean hs

end Step

end OsWork.Ports.SpinLocks

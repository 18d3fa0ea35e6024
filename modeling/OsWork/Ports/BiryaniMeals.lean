import OsWork.Ports.BiryaniKitchen

/-!
# Every meal is backed by cooked food

The second half of the ledger: the slots given to students never exceed the
portions handed to the containers.  Together with the first half this bounds
the slots by what the chefs have cooked.

All students serialise their search on one mutex, so at most one of them is
between its claim and its `unlock`, and a container is written by that student
or by its own thread.  The two take turns: the container offers the portions by
storing `load = 0` and waits in `ready_to_serve` until the last student of the
round stores `load = 1`.  Two things in the source break the turn-taking.  A
student can find a container whose thread has not started (its struct is zeroed,
so it looks loaded and unlocked), and `ready_to_serve` is called with
`container_number`, which is the index of the *next* container.

## Main results

* `careful_meals_backed` — in every run whose steps are `Careful`, the slots
  given, the portions handed over and the portions cooked are in order.
* `not_all_meals_backed` — without the restriction they are not.
-/

namespace OsWork.Ports.BiryaniService

open OsWork.Verified.Transition OsWork.Verified.Counting
open Finset (range)

/-! ## Where a student is -/

/-- The container in which the student has been given a slot. -/
def StudentPc.slot : StudentPc → Option Nat
  | .start | .readLoad _ | .readLock _ | .claim _ => none
  | .readLeft i | .writeLeft i _ | .readFeed i | .writeFeed i _ | .testFeed i
  | .setLoad i | .clearLock i | .unlockMutex i | .left i => some i

/-- The student has been subtracted from `students_left_to_feed`. -/
def StudentPc.counted : StudentPc → Bool
  | .start | .readLoad _ | .readLock _ | .claim _ | .readLeft _ | .writeLeft _ _ => false
  | _ => true

/-- The student holds the student mutex. -/
def StudentPc.searching : StudentPc → Bool
  | .start | .left _ => false
  | _ => true

/-- The container a student is working on, from its claim to its store of
`load`. -/
def StudentPc.uses : StudentPc → Option Nat
  | .readLeft i | .writeLeft i _ | .readFeed i | .writeFeed i _ | .testFeed i
  | .setLoad i => some i
  | _ => none

/-- A student that works on no container. -/
theorem StudentPc.uses_ne {p : StudentPc} (h : p.uses = none) (j : Nat) : p.uses ≠ some j := by
  rw [h]
  simp

/-- Where the student that holds the mutex stands. -/
def State.current (s : State) : StudentPc :=
  match s.mutexForStudentContainer with
  | some q => s.studentPc q
  | none => .start

/-- The number of students that have been given a slot by `go_fetch_slot`. -/
def slotsGiven (P : Params) (s : State) : Nat :=
  ((range P.k).filter fun q => (s.studentPc q).slot.isSome).card

/-! ## The condition on a step -/

/-- The steps that keep the hand-overs in order: a container claims a finished
chef that nobody else takes from, a student claims a container that has started
and still offers food, and a container does not leave `ready_to_serve` on
account of its neighbour. -/
def Careful (P : Params) (s : State) : Act → Prop
  | .chef _ _ _ => True
  | .container j _ =>
      match s.containerPc j with
      | .claim i => CarefulClaim P s j i
      | .ready _ => (s.containers (containerNumber j)).load → (s.containers j).load
      | _ => True
  | .student q =>
      match s.studentPc q with
      | .claim j => s.containerPc j ≠ .start ∧ (s.containers j).load = false
      | _ => True

instance (P : Params) (s : State) (a : Act) : Decidable (Careful P s a) := by
  unfold Careful
  split <;> (try split) <;> infer_instance

/-! ## The turn-taking -/

/-- The portions a container keeps for later rounds while it offers some. -/
def serving : ContainerPc → Option Int
  | .freeLock avail => some avail
  | .ready avail => some avail
  | _ => none

/-- What a container that is not offering food has in hand: `slack` is what it
has been handed and not given out yet. -/
def InHand (c : Container) (slack : Int) : ContainerPc → Prop
  | .serve avail => avail ≤ slack
  | .choose avail => 1 ≤ avail ∧ avail ≤ slack
  | .setFeed avail num => 0 ≤ avail ∧ 1 ≤ num ∧ avail + num ≤ slack
  | .setLoad avail =>
      0 ≤ avail ∧ 1 ≤ c.studentsToFeed ∧ avail + c.studentsToFeed ≤ slack
  | _ => True

/-- What a student that works on a container leaves of the offer. -/
def Offered (c : Container) (avail slack : Int) : StudentPc → Prop
  | .readLeft _ => 1 ≤ c.studentsToFeed ∧ avail + c.studentsToFeed - 1 ≤ slack
  | .writeLeft _ _ => 1 ≤ c.studentsToFeed ∧ avail + c.studentsToFeed - 1 ≤ slack
  | .readFeed _ => 1 ≤ c.studentsToFeed ∧ avail + c.studentsToFeed - 1 ≤ slack
  | .writeFeed _ v => v = c.studentsToFeed ∧ 1 ≤ v ∧ avail + v - 1 ≤ slack
  | .testFeed _ => 0 ≤ c.studentsToFeed ∧ avail + c.studentsToFeed ≤ slack
  | .setLoad _ => avail ≤ slack
  | _ => True

/-- The invariant of container `j` as long as somebody is still to be fed. -/
structure Turn (j : Nat) (c : Container) (pc : ContainerPc) (cur : StudentPc)
    (slack : Int) : Prop where
  /-- A container that is not offering food looks empty, and nobody uses it. -/
  closed : serving pc = none → pc ≠ .start → c.load = true
  unused : serving pc = none → cur.uses ≠ some j
  inHand : InHand c slack pc
  kept : ∀ a, serving pc = some a → 0 ≤ a
  /-- While nobody uses it, the offer is open or taken up. -/
  idle : ∀ avail, serving pc = some avail → cur.uses ≠ some j →
    if c.load then avail ≤ slack
    else 1 ≤ c.studentsToFeed ∧ avail + c.studentsToFeed ≤ slack
  busy : ∀ avail, serving pc = some avail → cur.uses = some j →
    c.load = false ∧ Offered c avail slack cur

/-- The second half of the ledger. -/
structure Dining (P : Params) (s : State) (t : Ledger) : Prop where
  alone : ∀ q, (s.studentPc q).searching → s.mutexForStudentContainer = some q
  count : s.studentsLeftToFeed =
    P.k - ((range P.k).filter fun q => (s.studentPc q).counted).card
  fresh : ∀ q i v, s.studentPc q = .writeLeft i v → v = s.studentsLeftToFeed
  slots : (slotsGiven P s : Int) = ∑ j ∈ range P.n, t.given j
  backed : ∀ j, t.given j ≤ t.handedTo j
  turn : (∃ q < P.k, (s.studentPc q).counted = false) → ∀ j,
    Turn j (s.containers j) (s.containerPc j) s.current (t.handedTo j - t.given j)

theorem dining_start (P : Params) : Dining P (start P) Ledger.empty where
  alone q h := by simp [start, StudentPc.searching] at h
  count := by simp [start, StudentPc.counted]
  fresh q i v h := by simp [start] at h
  slots := by simp [slotsGiven, start, StudentPc.slot, Ledger.empty]
  backed j := le_refl _
  turn _ j :=
    { closed := by simp [start]
      unused := by simp [start, State.current, StudentPc.uses]
      inHand := by simp [start, InHand]
      kept := by simp [start, serving]
      idle := by simp [start, serving]
      busy := by simp [start, serving] }

section Turns

variable {j : Nat} {c d : Container} {pc : ContainerPc} {cur p : StudentPc}
  {slack : Int}

/-- A student that works elsewhere does not disturb the turn. -/
theorem Turn.ofElsewhere (h : Turn j c pc cur slack) (hold : cur.uses ≠ some j)
    (hnew : p.uses ≠ some j) : Turn j c pc p slack where
  closed := h.closed
  unused _ := hnew
  inHand := h.inHand
  kept := h.kept
  idle a ha _ := h.idle a ha hold
  busy _ _ hu := absurd hu hnew

/-- The student that works on an offering container makes its next access. -/
theorem Turn.ofUser {r : Int} (h : Turn j c pc cur slack)
    (hserving : ∃ avail, serving pc = some avail) (hnew : p.uses = some j)
    (hload : d.load = false)
    (hok : ∀ avail, serving pc = some avail → Offered d avail r p) :
    Turn j d pc p r where
  closed hn := by
    obtain ⟨avail, ha⟩ := hserving
    rw [ha] at hn
    cases hn
  unused hn := by
    obtain ⟨avail, ha⟩ := hserving
    rw [ha] at hn
    cases hn
  inHand := by
    obtain ⟨_, ha⟩ := hserving
    cases pc <;> first | exact True.intro | cases ha
  kept := h.kept
  idle avail _ hu := absurd hnew hu
  busy avail ha _ := ⟨hload, hok avail ha⟩

/-- The student is done with the container. -/
theorem Turn.ofDone (h : Turn j c pc cur slack)
    (hserving : ∃ avail, serving pc = some avail) (hnew : p.uses ≠ some j)
    (hok : ∀ avail, serving pc = some avail →
      if d.load then avail ≤ slack
      else 1 ≤ d.studentsToFeed ∧ avail + d.studentsToFeed ≤ slack) :
    Turn j d pc p slack where
  closed hn := by
    obtain ⟨avail, ha⟩ := hserving
    rw [ha] at hn
    cases hn
  unused _ := hnew
  inHand := by
    obtain ⟨_, ha⟩ := hserving
    cases pc <;> first | exact True.intro | cases ha
  kept := h.kept
  idle avail ha _ := hok avail ha
  busy avail _ hu := absurd hu hnew

/-- A container that is used is offering. -/
theorem Turn.inUse (h : Turn j c pc cur slack) (hu : cur.uses = some j) :
    (∃ avail, serving pc = some avail) ∧ c.load = false ∧
      ∀ avail, serving pc = some avail → 0 ≤ avail ∧ Offered c avail slack cur := by
  have hserving : ∃ avail, serving pc = some avail := by
    cases hs : serving pc with
    | none => exact absurd hu (h.unused hs)
    | some avail => exact ⟨avail, rfl⟩
  obtain ⟨avail, ha⟩ := hserving
  exact ⟨⟨avail, ha⟩, (h.busy avail ha hu).1, fun a ha => ⟨h.kept a ha, (h.busy a ha hu).2⟩⟩

/-- The locks play no part in the turn-taking. -/
theorem Turn.setLock (h : Turn j c pc cur slack) (b : Bool) :
    Turn j { c with lock := b } pc cur slack where
  closed := h.closed
  unused := h.unused
  inHand := by
    have := h.inHand
    cases pc <;> exact this
  kept := h.kept
  idle := h.idle
  busy avail ha hu := by
    obtain ⟨hl, ho⟩ := h.busy avail ha hu
    refine ⟨hl, ?_⟩
    cases cur <;> exact ho

/-- A container that is not offering makes its next access. -/
theorem Turn.ofClosed {q : ContainerPc} {r : Int} (h : Turn j c pc cur slack)
    (hpc : serving pc = none) (hq : serving q = none) (hload : q ≠ .start → d.load = true)
    (hok : InHand d r q) : Turn j d q cur r where
  closed _ := hload
  unused _ := h.unused hpc
  inHand := hok
  kept avail ha := by rw [hq] at ha; cases ha
  idle avail ha := by rw [hq] at ha; cases ha
  busy avail ha := by rw [hq] at ha; cases ha

end Turns

/-! ## Container steps -/

section ContainerSteps

variable {P : Params} {s s' : State} {t : Ledger} {j x : Nat}

/-- A container step gives no slot. -/
theorem record_container_given (s : State) (t : Ledger) (j x : Nat) :
    (t.record s (.container j x)).given = t.given := by
  cases hpc : s.containerPc j <;> simp [Ledger.record, hpc]

/-- A container step hands over what it returns with. -/
theorem record_container_handedTo (s : State) (t : Ledger) (j x : Nat) :
    (∀ k, k ≠ j → (t.record s (.container j x)).handedTo k = t.handedTo k) ∧
      (t.record s (.container j x)).handedTo j = t.handedTo j +
        (match s.containerPc j with
          | .clearLock _ ret => ret
          | _ => 0) := by
  cases hpc : s.containerPc j <;> simp +contextual [Ledger.record, hpc]

/-- As long as a student is not counted, somebody is still to be fed. -/
theorem Dining.left_pos (h : Dining P s t)
    (hsome : ∃ q < P.k, (s.studentPc q).counted = false) : 0 < s.studentsLeftToFeed := by
  obtain ⟨q, hq, hc⟩ := hsome
  have hlt : ((range P.k).filter fun q => (s.studentPc q).counted).card < P.k := by
    have hsub : ((range P.k).filter fun q => (s.studentPc q).counted) ⊂ range P.k :=
      Finset.filter_ssubset.2 ⟨q, Finset.mem_range.2 hq, by simp [hc]⟩
    have := Finset.card_lt_card hsub
    rwa [Finset.card_range] at this
  have := h.count
  omega

/-- One access of a container moves its own turn on. -/
theorem Turn.containerStep
    (h : Turn j (s.containers j) (s.containerPc j) s.current (t.handedTo j - t.given j))
    (hback : t.given j ≤ t.handedTo j) (hleft : 0 < s.studentsLeftToFeed)
    (hc : Careful P s (.container j x))
    (hs : s.container P j x = some s') :
    Turn j (s'.containers j) (s'.containerPc j) s.current
      ((t.record s (.container j x)).handedTo j - t.given j) := by
  have hto := (record_container_handedTo s t j x).2
  rw [hto]
  have hclosed := h.closed
  have hunused := h.unused
  have hin := h.inHand
  have hkept := h.kept
  have hidle := h.idle
  have hbusy := h.busy
  unfold State.container at hs
  unfold Careful at hc
  cases hpc : s.containerPc j <;> rw [hpc] at hs h hclosed hunused hin hkept hidle hbusy <;>
    simp only [hpc, InHand] at hs hin hc ⊢
  case start =>
    cases hs
    exact h.ofClosed rfl (by simp [State.containerAt, serving])
      (by simp [State.containerAt, State.setContainer])
      (by simp [State.containerAt, InHand])
  case clearLock g ret =>
    cases hs
    refine h.ofClosed rfl ?_ (fun _ => hclosed rfl (by simp)) ?_ <;>
      simp only [State.containerAt, Function.update_self, serving, InHand]
    omega
  case serve avail =>
    cases hs
    have hload := hclosed rfl (by simp)
    by_cases havail : 0 < avail
    · have hpos : 0 < avail ∧ 0 < s.studentsLeftToFeed := ⟨havail, hleft⟩
      simp only [hpos, and_self, if_true]
      refine h.ofClosed rfl ?_ (fun _ => hload) ?_ <;>
        simp only [State.containerAt, Function.update_self, serving, InHand]
      omega
    · have hneg : ¬(0 < avail ∧ 0 < s.studentsLeftToFeed) := fun hp => havail hp.1
      simp only [hneg, if_false]
      refine h.ofClosed rfl ?_ (fun _ => hload) ?_ <;>
        simp [State.containerAt, serving, InHand]
  case choose avail =>
    cases hs
    have htemp := le_getRandomNumberBetween x 1 10
    refine h.ofClosed rfl ?_ (fun _ => hclosed rfl (by simp)) ?_ <;>
      simp only [State.containerAt, Function.update_self, serving, InHand]
    omega
  case setFeed avail num =>
    cases hs
    refine h.ofClosed rfl ?_ (fun _ => ?_) ?_ <;>
      simp only [State.containerAt, State.setContainer, Function.update_self, serving, InHand]
    · exact hclosed rfl (by simp)
    · omega
  case setLoad avail =>
    cases hs
    have hno := hunused rfl
    refine
      { closed := ?_
        unused := ?_
        inHand := ?_
        kept := ?_
        idle := ?_
        busy := fun _ _ hu => absurd hu hno } <;>
      simp only [State.containerAt, State.setContainer, Function.update_self, serving, InHand,
        Option.some.injEq, reduceCtorEq, false_implies, forall_eq']
    · exact hin.1
    · intro _
      simp only [if_false]
      omega
  case freeLock avail =>
    cases hs
    have := h.setLock false
    simp only [State.containerAt, State.setContainer, Function.update_self]
    exact
      { closed := by simp [serving]
        unused := by simp [serving]
        inHand := True.intro
        kept := this.kept
        idle := fun a ha => by simpa using this.idle a ha
        busy := fun a ha => by simpa using this.busy a ha }
  case ready avail =>
    split at hs
    · rename_i hnext
      cases hs
      have hload := hc hnext
      have hno : s.current.uses ≠ some j := by
        intro hu
        obtain ⟨hfalse, _⟩ := hbusy avail rfl hu
        rw [hload] at hfalse
        cases hfalse
      have hslack := hidle avail rfl hno
      simp only [hload, if_true] at hslack
      refine
        { closed := fun _ _ => hload
          unused := fun _ => hno
          inHand := ?_
          kept := ?_
          idle := ?_
          busy := ?_ } <;>
        simp [State.containerAt, serving, InHand]
      omega
    · cases hs
  -- the other accesses keep `load` set and offer nothing
  all_goals
    have hload := hclosed rfl (by simp)
    (try split_ifs at hs) <;> cases hs <;>
      refine h.ofClosed rfl ?_ (fun _ => ?_) ?_ <;>
      simp only [State.containerAt, State.setContainer, State.setChef,
        Function.update_self, hload] <;>
      simp only [serving, InHand]

theorem Dining.containerStep (hk : Kitchen P s t) (h : Dining P s t)
    (hc : Careful P s (.container j x)) (hs : s.container P j x = some s') :
    Dining P s' (t.record s (.container j x)) := by
  obtain ⟨-, hstudents, hleft, -, hmutex, hother⟩ := container_frame hs
  have hgiven := record_container_given s t j x
  obtain ⟨hto, htoj⟩ := record_container_handedTo s t j x
  have hcur : s'.current = s.current := by
    unfold State.current
    rw [hmutex, hstudents]
  refine
    { alone := ?_
      count := ?_
      fresh := ?_
      slots := ?_
      backed := ?_
      turn := ?_ }
  · rw [hstudents, hmutex]
    exact h.alone
  · rw [hstudents, hleft]
    exact h.count
  · rw [hstudents, hleft]
    exact h.fresh
  · unfold slotsGiven
    rw [hstudents, hgiven]
    exact h.slots
  · intro k
    rw [hgiven]
    by_cases hkj : k = j
    · subst hkj
      rw [htoj]
      have hret := hk.transit k
      have hback := h.backed k
      cases hpc : s.containerPc k <;> rw [hpc] at hret <;> simp only [inTransit] at hret ⊢ <;>
        omega
    · rw [hto k hkj]
      exact h.backed k
  · intro hsome k
    rw [hstudents] at hsome
    rw [hcur, hgiven]
    by_cases hkj : k = j
    · subst hkj
      exact (h.turn hsome k).containerStep (h.backed k) (h.left_pos hsome) hc hs
    · obtain ⟨hcont, hpc⟩ := hother k hkj
      rw [hcont, hpc, hto k hkj]
      exact h.turn hsome k

end ContainerSteps

/-! ## Chef steps -/

theorem Dining.chefStep {P : Params} {s s' : State} {t : Ledger} {i x y : Nat}
    (h : Dining P s t) (hs : s.chef i x y = some s') :
    Dining P s' (t.record s (.chef i x y)) := by
  obtain ⟨hcont, hpcs, hstudents, hleft, -, hmutex, -⟩ := chef_frame hs
  obtain ⟨hto, -, hgiven, -⟩ := record_chef s t i x y
  have hcur : s'.current = s.current := by
    unfold State.current
    rw [hmutex, hstudents]
  refine
    { alone := ?_
      count := ?_
      fresh := ?_
      slots := ?_
      backed := ?_
      turn := ?_ }
  · rw [hstudents, hmutex]
    exact h.alone
  · rw [hstudents, hleft]
    exact h.count
  · rw [hstudents, hleft]
    exact h.fresh
  · unfold slotsGiven
    rw [hstudents, hgiven]
    exact h.slots
  · rw [hto, hgiven]
    exact h.backed
  · rw [hstudents, hcont, hpcs, hcur, hto, hgiven]
    exact h.turn

/-! ## Student steps -/

section StudentSteps

variable {P : Params} {s s' : State} {t t' : Ledger} {q i : Nat} {p : StudentPc}

/-- While a student makes an access in its search, no other student searches. -/
def Turning (s : State) (q : Nat) : Prop :=
  s.current = s.studentPc q ∧ ∀ r, r ≠ q → s.mutexForStudentContainer ≠ some r

theorem Dining.turning (h : Dining P s t) (hq : (s.studentPc q).searching) :
    Turning s q := by
  have hm := h.alone q hq
  refine ⟨?_, fun r hr hmr => ?_⟩
  · unfold State.current
    rw [hm]
  · rw [hm] at hmr
    exact hr (Option.some.inj hmr).symm

/-- A student that does not search works on no container. -/
theorem uses_of_not_searching (hp : p.searching = false) : p.uses = none := by
  cases p <;> first | rfl | cases hp

/-- One access of student `q`, which concerns container `i` at most and leads
to `p`. -/
theorem Dining.ofStudent (h : Dining P s t) (hq : q < P.k) (hcur : Turning s q)
    (hpcs : s'.studentPc = Function.update s.studentPc q p)
    (hmutex : s'.mutexForStudentContainer = if p.searching then some q else none)
    (hcont : ∀ j, j ≠ i → s'.containers j = s.containers j)
    (hcontPc : s'.containerPc = s.containerPc)
    (huses : ∀ j, j ≠ i → (s.studentPc q).uses ≠ some j ∧ p.uses ≠ some j)
    (hcount : s'.studentsLeftToFeed + (if p.counted then 1 else 0) =
      s.studentsLeftToFeed + (if (s.studentPc q).counted then 1 else 0))
    (hmono : (s.studentPc q).counted → p.counted)
    (hfresh : ∀ k v, p = .writeLeft k v → v = s'.studentsLeftToFeed)
    (hto : t'.handedTo = t.handedTo) (hgiven : ∀ j, j ≠ i → t'.given j = t.given j)
    (hslots : (slotsGiven P s' : Int) = ∑ j ∈ range P.n, t'.given j)
    (hbacked : t'.given i ≤ t.handedTo i)
    (hturn : Turn i (s.containers i) (s.containerPc i) (s.studentPc q)
        (t.handedTo i - t.given i) →
      Turn i (s'.containers i) (s.containerPc i) p (t.handedTo i - t'.given i)) :
    Dining P s' t' := by
  obtain ⟨hold, halone⟩ := hcur
  have hother : ∀ r, r ≠ q → s'.studentPc r = s.studentPc r ∧
      (s.studentPc r).searching = false := by
    intro r hr
    refine ⟨by rw [hpcs, Function.update_of_ne hr], ?_⟩
    by_contra hs
    exact halone r hr (h.alone r (by simpa using hs))
  have hself : s'.studentPc q = p := by rw [hpcs, Function.update_self]
  refine
    { alone := fun r hr => ?_
      count := ?_
      fresh := fun r k v hr => ?_
      slots := hslots
      backed := fun j => ?_
      turn := fun hsome j => ?_ }
  · by_cases hrq : r = q
    · subst hrq
      rw [hself] at hr
      rw [hmutex, if_pos hr]
    · obtain ⟨heq, hno⟩ := hother r hrq
      rw [heq, hno] at hr
      cases hr
  · have hcard := card_filter_add_of_agree (s := range P.k) (a := q)
      (p := fun r => (s.studentPc r).counted = true)
      (q := fun r => (s'.studentPc r).counted = true) (Finset.mem_range.2 hq)
      fun r _ hr => by rw [(hother r hr).1]
    have hbefore := h.count
    rw [hself] at hcard
    split_ifs at hcard hcount <;> omega
  · by_cases hrq : r = q
    · subst hrq
      exact hfresh k v (hself.symm.trans hr)
    · obtain ⟨heq, hno⟩ := hother r hrq
      rw [← heq, hr] at hno
      cases hno
  · by_cases hji : j = i
    · subst hji
      rw [hto]
      exact hbacked
    · rw [hto, hgiven j hji]
      exact h.backed j
  · have hbefore : ∃ r < P.k, (s.studentPc r).counted = false := by
      obtain ⟨r, hr, hc⟩ := hsome
      refine ⟨r, hr, ?_⟩
      by_cases hrq : r = q
      · subst hrq
        rw [hself] at hc
        by_contra hold
        rw [hmono (by simpa using hold)] at hc
        cases hc
      · rwa [(hother r hrq).1] at hc
    have hj := h.turn hbefore j
    rw [hold] at hj
    have hnew : Turn j (s'.containers j) (s.containerPc j) p (t.handedTo j - t'.given j) := by
      by_cases hji : j = i
      · subst hji
        exact hturn hj
      · rw [hcont j hji, hgiven j hji]
        exact hj.ofElsewhere (huses j hji).1 (huses j hji).2
    rw [hcontPc, hto]
    unfold State.current
    rw [hmutex]
    by_cases hp : p.searching
    · simp only [hp, if_true, hself]
      exact hnew
    · have hnone := uses_of_not_searching (by simpa using hp)
      simp only [hp]
      exact hnew.ofElsewhere (StudentPc.uses_ne hnone j) (StudentPc.uses_ne rfl j)

/-- The slots given, when one student moves. -/
theorem slotsGiven_add_of_move (hq : q < P.k)
    (hpcs : s'.studentPc = Function.update s.studentPc q p) :
    slotsGiven P s' + (if (s.studentPc q).slot.isSome then 1 else 0) =
      slotsGiven P s + (if p.slot.isSome then 1 else 0) := by
  have hcard := card_filter_add_of_agree (s := range P.k) (a := q)
    (p := fun r => (s.studentPc r).slot.isSome = true)
    (q := fun r => (s'.studentPc r).slot.isSome = true) (Finset.mem_range.2 hq)
    fun r _ hr => by rw [hpcs, Function.update_of_ne hr]
  rw [hpcs, Function.update_self] at hcard
  unfold slotsGiven
  rw [hpcs]
  exact hcard

/-- `container[i].lock = 1`: the student has its slot. -/
theorem Dining.claim (hk : Kitchen P s t) (h : Dining P s t) (hq : q < P.k)
    (hpc : s.studentPc q = .claim i) (hc : Careful P s (.student q)) :
    Dining P ((s.setContainer i fun c => { c with lock := true }).studentAt q (.readLeft i))
      (t.record s (.student q)) := by
  simp only [Careful, hpc] at hc
  obtain ⟨hstart, hload⟩ := hc
  have hin : i < P.n := by
    by_contra hn
    exact hstart (hk.outside i (by omega))
  have hmutex := h.alone q (by rw [hpc]; rfl)
  have hcur := h.turning (q := q) (by rw [hpc]; rfl)
  have hturn := h.turn ⟨q, hq, by rw [hpc]; rfl⟩ i
  rw [hcur.1, hpc] at hturn
  -- an open offer is for at least one student
  have hopen : ∃ avail, serving (s.containerPc i) = some avail := by
    cases hs : serving (s.containerPc i) with
    | none => rw [hturn.closed hs hstart] at hload; cases hload
    | some avail => exact ⟨avail, rfl⟩
  have hoffer : ∀ avail, serving (s.containerPc i) = some avail →
      1 ≤ (s.containers i).studentsToFeed ∧
        avail + (s.containers i).studentsToFeed ≤ t.handedTo i - t.given i := by
    intro avail ha
    have := hturn.idle avail ha (StudentPc.uses_ne rfl i)
    simpa [hload] using this
  have hrecord : t.record s (.student q) =
      { t with given := Function.update t.given i (t.given i + 1) } := by
    simp [Ledger.record, hpc]
  rw [hrecord]
  have hmove := slotsGiven_add_of_move (s := s) (p := .readLeft i) hq
    (rfl : ((s.setContainer i fun c => { c with lock := true }).studentAt q
      (.readLeft i)).studentPc = _)
  refine h.ofStudent (i := i) (p := .readLeft i) hq hcur rfl hmutex ?_ rfl ?_ ?_ ?_ (by simp) rfl
    ?_ ?_ ?_ ?_
  · intro j hj
    simp [State.studentAt, State.setContainer, hj]
  · intro j hj
    simp [hpc, StudentPc.uses, Ne.symm hj]
  · simp [hpc, StudentPc.counted, State.studentAt, State.setContainer]
  · simp [hpc, StudentPc.counted]
  · intro j hj
    simp [hj]
  · have hsum := sum_add_of_agree (s := range P.n) (a := i) (f := t.given)
      (g := Function.update t.given i (t.given i + 1)) (Finset.mem_range.2 hin)
      fun j _ hj => by rw [Function.update_of_ne hj]
    have hbefore := h.slots
    have hnone : (StudentPc.claim i).slot.isSome = false := rfl
    have hsome : (StudentPc.readLeft i).slot.isSome = true := rfl
    simp only [Function.update_self, hpc, hnone, hsome, Bool.false_eq_true, if_false,
      if_true] at hmove hsum ⊢
    omega
  · obtain ⟨avail, ha⟩ := hopen
    have hkept := hturn.kept avail ha
    have := hoffer avail ha
    simp only [Function.update_self]
    omega
  · intro _
    have huser : Turn i (s.containers i) (s.containerPc i) (.readLeft i)
        (t.handedTo i - (t.given i + 1)) := by
      refine hturn.ofUser hopen rfl hload fun avail ha => ?_
      have := hoffer avail ha
      simp only [Offered]
      omega
    simpa [State.studentAt, State.setContainer] using huser.setLock true

/-- An access inside the search that gives no slot. -/
theorem Dining.ofQuietStudent (h : Dining P s t) (hq : q < P.k)
    (hcur : Turning s q)
    (hpcs : s'.studentPc = Function.update s.studentPc q p)
    (hmutex : s'.mutexForStudentContainer = if p.searching then some q else none)
    (hcont : ∀ j, j ≠ i → s'.containers j = s.containers j)
    (hcontPc : s'.containerPc = s.containerPc)
    (hold : (s.studentPc q).uses = none ∨ (s.studentPc q).uses = some i)
    (hnew : p.uses = none ∨ p.uses = some i)
    (hcount : s'.studentsLeftToFeed = s.studentsLeftToFeed)
    (hcounted : p.counted = (s.studentPc q).counted)
    (hfresh : ∀ k v, p = .writeLeft k v → v = s'.studentsLeftToFeed)
    (hslot : p.slot = (s.studentPc q).slot)
    (hturn : Turn i (s.containers i) (s.containerPc i) (s.studentPc q)
        (t.handedTo i - t.given i) →
      Turn i (s'.containers i) (s.containerPc i) p (t.handedTo i - t.given i)) :
    Dining P s' t := by
  refine h.ofStudent (i := i) hq hcur hpcs hmutex hcont hcontPc ?_ ?_ ?_ hfresh
    rfl (fun _ _ => rfl) ?_ (h.backed i) hturn
  · intro j hj
    constructor
    · rcases hold with ho | ho <;> simp [ho, Ne.symm hj]
    · rcases hnew with hn | hn <;> simp [hn, Ne.symm hj]
  · rw [hcount, hcounted]
  · rw [hcounted]
    exact id
  · have hmove := slotsGiven_add_of_move hq hpcs
    have hbefore := h.slots
    rw [hslot] at hmove
    omega

/-- A read inside the search, after which student `q` goes on to `p`. -/
theorem Dining.read (h : Dining P s t) (hq : q < P.k) (hsearch : (s.studentPc q).searching)
    (hp : p.searching)
    (hold : (s.studentPc q).uses = none ∨ (s.studentPc q).uses = some i)
    (hnew : p.uses = none ∨ p.uses = some i)
    (hcounted : p.counted = (s.studentPc q).counted)
    (hfresh : ∀ k v, p = .writeLeft k v → v = s.studentsLeftToFeed)
    (hslot : p.slot = (s.studentPc q).slot)
    (hturn : Turn i (s.containers i) (s.containerPc i) (s.studentPc q)
        (t.handedTo i - t.given i) →
      Turn i (s.containers i) (s.containerPc i) p (t.handedTo i - t.given i)) :
    Dining P (s.studentAt q p) t := by
  refine h.ofQuietStudent hq (h.turning hsearch) rfl ?_ (fun _ _ => rfl) rfl hold hnew rfl
    hcounted hfresh hslot hturn
  rw [if_pos hp]
  exact h.alone q hsearch

/-- A write to `container[i]` inside the search. -/
theorem Dining.write (f : Container → Container) (h : Dining P s t) (hq : q < P.k)
    (hsearch : (s.studentPc q).searching) (hp : p.searching)
    (hold : (s.studentPc q).uses = none ∨ (s.studentPc q).uses = some i)
    (hnew : p.uses = none ∨ p.uses = some i)
    (hcounted : p.counted = (s.studentPc q).counted)
    (hfresh : ∀ k v, p ≠ .writeLeft k v)
    (hslot : p.slot = (s.studentPc q).slot)
    (hturn : Turn i (s.containers i) (s.containerPc i) (s.studentPc q)
        (t.handedTo i - t.given i) →
      Turn i (f (s.containers i)) (s.containerPc i) p (t.handedTo i - t.given i)) :
    Dining P ((s.setContainer i f).studentAt q p) t := by
  refine h.ofQuietStudent hq (h.turning hsearch) rfl ?_ ?_ rfl hold hnew rfl hcounted
    (fun k v hw => absurd hw (hfresh k v)) hslot ?_
  · rw [if_pos hp]
    exact h.alone q hsearch
  · intro j hj
    simp [State.studentAt, State.setContainer, hj]
  · simpa [State.studentAt, State.setContainer] using hturn

/-- `pthread_mutex_lock`. -/
theorem Dining.enterSearch (h : Dining P s t) (hq : q < P.k) (hpc : s.studentPc q = .start)
    (hfree : s.mutexForStudentContainer = none) :
    Dining P ({ s with mutexForStudentContainer := some q }.studentAt q (.readLoad 0)) t := by
  have hcur : Turning s q := by
    refine ⟨?_, fun r _ => by simp [hfree]⟩
    unfold State.current
    rw [hfree, hpc]
  refine h.ofQuietStudent (i := 0) hq hcur rfl rfl (fun _ _ => rfl) rfl ?_ (.inl rfl) rfl ?_
    (by simp) ?_ ?_
  · left
    rw [hpc]
    rfl
  · rw [hpc]
    rfl
  · rw [hpc]
    rfl
  · intro hturn
    rw [hpc] at hturn
    exact hturn.ofElsewhere (StudentPc.uses_ne rfl 0) (StudentPc.uses_ne rfl 0)

/-- `students_left_to_feed--`, the store. -/
theorem Dining.writeLeft {v : Int} (h : Dining P s t) (hq : q < P.k)
    (hpc : s.studentPc q = .writeLeft i v) :
    Dining P ({ s with studentsLeftToFeed := v - 1 }.studentAt q (.readFeed i)) t := by
  have hsearch : (s.studentPc q).searching := by rw [hpc]; rfl
  have hv := h.fresh q i v hpc
  have hmove := slotsGiven_add_of_move (s := s) (p := .readFeed i) hq
    (rfl : ({ s with studentsLeftToFeed := v - 1 }.studentAt q (.readFeed i)).studentPc = _)
  refine h.ofStudent (i := i) hq (h.turning hsearch) rfl (h.alone q hsearch) (fun _ _ => rfl)
    rfl ?_ ?_ (fun _ => rfl) (by simp) rfl (fun _ _ => rfl) ?_ (h.backed i) ?_
  · intro j hj
    rw [hpc]
    simp [StudentPc.uses, Ne.symm hj]
  · rw [hpc]
    simp only [State.studentAt, StudentPc.counted, if_true, Bool.false_eq_true, if_false]
    omega
  · have hbefore := h.slots
    have hold : (s.studentPc q).slot.isSome = true := by rw [hpc]; rfl
    have hnew : (StudentPc.readFeed i).slot.isSome = true := rfl
    simp only [hold, hnew, if_true] at hmove
    omega
  · intro hturn
    rw [hpc] at hturn
    obtain ⟨hserving, hload, hoffer⟩ := hturn.inUse rfl
    exact hturn.ofUser hserving rfl hload fun a ha => (hoffer a ha).2

/-- One access of a student that claims containers carefully. -/
theorem Dining.studentStep (hk : Kitchen P s t) (h : Dining P s t) (hq : q < P.k)
    (hc : Careful P s (.student q)) (hs : s.student P q = some s') :
    Dining P s' (t.record s (.student q)) := by
  cases hpc : s.studentPc q <;> simp only [State.student, hpc] at hs
  case claim i =>
    cases hs
    exact h.claim hk hq hpc hc
  case left i => cases hs
  -- the ledger stays as it is from here on
  all_goals
    have hrecord : t.record s (.student q) = t := by simp [Ledger.record, hpc]
    rw [hrecord]
  case start =>
    split at hs
    · rename_i hfree
      cases hs
      exact h.enterSearch hq hpc hfree
    · cases hs
  case readLoad i | readLock i =>
    split_ifs at hs <;> cases hs <;>
      refine h.read (i := i) hq ?_ rfl ?_ (.inl rfl) ?_ (by simp) ?_ fun hturn => ?_ <;>
      rw [hpc] at * <;>
      first | rfl | exact .inl rfl
            | exact hturn.ofElsewhere (StudentPc.uses_ne rfl i) (StudentPc.uses_ne rfl i)
  case writeLeft i v =>
    cases hs
    exact h.writeLeft hq hpc
  all_goals
    have hsearch : (s.studentPc q).searching := by rw [hpc]; rfl
  case readLeft i =>
    cases hs
    refine h.read (i := i) hq hsearch rfl (by rw [hpc]; exact .inr rfl) (.inr rfl)
      (by rw [hpc]; rfl) ?_ (by rw [hpc]; rfl) fun hturn => ?_
    · simp
    · rw [hpc] at hturn
      obtain ⟨hserving, hload, hoffer⟩ := hturn.inUse rfl
      exact hturn.ofUser hserving rfl hload fun a ha => (hoffer a ha).2
  case readFeed i =>
    cases hs
    refine h.read (i := i) hq hsearch rfl (by rw [hpc]; exact .inr rfl) (.inr rfl)
      (by rw [hpc]; rfl) (by simp) (by rw [hpc]; rfl) fun hturn => ?_
    rw [hpc] at hturn
    obtain ⟨hserving, hload, hoffer⟩ := hturn.inUse rfl
    exact hturn.ofUser hserving rfl hload fun a ha => ⟨rfl, (hoffer a ha).2⟩
  case writeFeed i v =>
    cases hs
    refine h.write (i := i) (fun c => { c with studentsToFeed := v - 1 }) hq hsearch rfl
      (by rw [hpc]; exact .inr rfl) (.inr rfl) (by rw [hpc]; rfl) (by simp) (by rw [hpc]; rfl)
      fun hturn => ?_
    rw [hpc] at hturn
    obtain ⟨hserving, hload, hoffer⟩ := hturn.inUse rfl
    refine hturn.ofUser hserving rfl hload fun a ha => ?_
    obtain ⟨_, hv, hpos, hle⟩ := hoffer a ha
    simp only [Offered]
    omega
  case testFeed i =>
    by_cases hempty : (s.containers i).studentsToFeed ≤ 0
    · rw [if_pos hempty] at hs
      cases hs
      refine h.read (i := i) hq hsearch rfl (by rw [hpc]; exact .inr rfl) (.inr rfl)
        (by rw [hpc]; rfl) (by simp) (by rw [hpc]; rfl) fun hturn => ?_
      rw [hpc] at hturn
      obtain ⟨hserving, hload, hoffer⟩ := hturn.inUse rfl
      refine hturn.ofUser hserving rfl hload fun a ha => ?_
      obtain ⟨_, hfeed, hle⟩ := hoffer a ha
      simp only [Offered]
      omega
    · rw [if_neg hempty] at hs
      cases hs
      refine h.read (i := i) hq hsearch rfl (by rw [hpc]; exact .inr rfl) (.inl rfl)
        (by rw [hpc]; rfl) (by simp) (by rw [hpc]; rfl) fun hturn => ?_
      rw [hpc] at hturn
      obtain ⟨hserving, hload, hoffer⟩ := hturn.inUse rfl
      refine hturn.ofDone hserving (StudentPc.uses_ne rfl i) fun a ha => ?_
      obtain ⟨_, hfeed, hle⟩ := hoffer a ha
      simp only [hload, Bool.false_eq_true, if_false]
      omega
  case setLoad i =>
    cases hs
    refine h.write (i := i) (fun c => { c with load := true }) hq hsearch rfl
      (by rw [hpc]; exact .inr rfl) (.inl rfl) (by rw [hpc]; rfl) (by simp) (by rw [hpc]; rfl)
      fun hturn => ?_
    rw [hpc] at hturn
    obtain ⟨hserving, hload, hoffer⟩ := hturn.inUse rfl
    exact hturn.ofDone hserving (StudentPc.uses_ne rfl i) fun a ha => (hoffer a ha).2
  case clearLock i =>
    cases hs
    refine h.write (i := i) (fun c => { c with lock := false }) hq hsearch rfl
      (by rw [hpc]; exact .inl rfl) (.inl rfl) (by rw [hpc]; rfl) (by simp) (by rw [hpc]; rfl)
      fun hturn => ?_
    rw [hpc] at hturn
    exact (hturn.setLock false).ofElsewhere (StudentPc.uses_ne rfl i) (StudentPc.uses_ne rfl i)
  case unlockMutex i =>
    cases hs
    refine h.ofQuietStudent (i := i) hq (h.turning hsearch) rfl rfl (fun _ _ => rfl) rfl
      (by rw [hpc]; exact .inl rfl) (.inl rfl) rfl (by rw [hpc]; rfl) (by simp) (by rw [hpc]; rfl)
      fun hturn => ?_
    rw [hpc] at hturn
    exact hturn.ofElsewhere (StudentPc.uses_ne rfl i) (StudentPc.uses_ne rfl i)

end StudentSteps

/-! ## Whole runs -/

/-- The service with its ledger. -/
def ledgeredService (P : Params) : System (State × Ledger) Act :=
  (service P).withGhost (fun _ => Ledger.empty) fun s a t => t.record s a

theorem ledger_step {P : Params} {s s' : State} {t : Ledger} {a : Act}
    (hk : Kitchen P s t) (hd : Dining P s t) (hc : Careful P s a)
    (hs : step P s a = some s') :
    Kitchen P s' (t.record s a) ∧ Dining P s' (t.record s a) := by
  cases a with
  | chef i x y =>
      simp only [step] at hs
      split at hs
      · rename_i hi
        exact ⟨hk.chefStep hi hs, hd.chefStep hs⟩
      · cases hs
  | container j x =>
      simp only [step] at hs
      split at hs
      · rename_i hj
        refine ⟨hk.containerStep hj (fun i hi => ?_) hs, hd.containerStep hk hc hs⟩
        simpa [Careful, hi] using hc
      · cases hs
  | student q =>
      simp only [step] at hs
      split at hs
      · rename_i hq
        exact ⟨hk.studentStep hs, hd.studentStep hk hq hc hs⟩
      · cases hs

/-- **Every meal is backed by cooked food**: in every run whose steps are
careful, the students that have been given a slot are at most the portions
handed to the containers, and these are at most the portions cooked. -/
theorem careful_meals_backed (P : Params) (c : State × Ledger)
    (h : (ledgeredService P).ReachableWhen (fun c a => Careful P c.1 a) c) :
    (slotsGiven P c.1 : Int) ≤ ∑ j ∈ range P.n, c.2.handedTo j ∧
      ∑ j ∈ range P.n, c.2.handedTo j ≤ ∑ i ∈ range P.m, c.2.cooked i := by
  have hinv : Kitchen P c.1 c.2 ∧ Dining P c.1 c.2 := by
    refine System.ReachableWhen.invariant
      (P := fun c : State × Ledger => Kitchen P c.1 c.2 ∧ Dining P c.1 c.2) ?_ ?_ h
    · rintro ⟨s, t⟩ ⟨hs, ht⟩
      cases hs
      cases ht
      exact ⟨kitchen_start P, dining_start P⟩
    · rintro ⟨s, t⟩ a ⟨s', t'⟩ ⟨hk, hd⟩ hc hs
      obtain ⟨hstep, hrecord⟩ := System.withGhost_step hs
      simp only at hstep hrecord hk hd hc ⊢
      rw [hrecord]
      exact ledger_step hk hd hc hstep
  obtain ⟨hk, hd⟩ := hinv
  constructor
  · rw [hd.slots]
    exact Finset.sum_le_sum fun j _ => hd.backed j
  · calc ∑ j ∈ range P.n, c.2.handedTo j
        ≤ ∑ j ∈ range P.n, (c.2.handedTo j + inTransit (c.1.containerPc j)) :=
          Finset.sum_le_sum fun j _ => by have := hk.transit j; omega
      _ = ∑ i ∈ range P.m, c.2.handedBy i := hk.balance
      _ ≤ ∑ i ∈ range P.m, c.2.cooked i :=
          Finset.sum_le_sum fun i _ => by have := (hk.chef i).solvent; omega

/-- One chef cooks a batch, the container fetches a vessel and offers a portion,
the student takes the slot. -/
def oneMeal : List Act :=
  List.flatten [List.replicate 16 (.chef 0 0 0), List.replicate 22 (.container 0 0),
    List.replicate 4 (.student 0)]

/-- `oneMeal` is a careful run that gives a slot. -/
theorem careful_meals_backed_oneMeal :
    ∃ c, (ledgeredService ⟨1, 1, 1⟩).ReachableWhen (fun c a => Careful ⟨1, 1, 1⟩ c.1 a) c ∧
      slotsGiven ⟨1, 1, 1⟩ c.1 = 1 ∧
      (slotsGiven ⟨1, 1, 1⟩ c.1 : Int) ≤ ∑ j ∈ range 1, c.2.handedTo j ∧
      ∑ j ∈ range 1, c.2.handedTo j ≤ ∑ i ∈ range 1, c.2.cooked i := by
  obtain ⟨c, hc, hone⟩ := System.exists_reachableWhen_of_run
    (M := ledgeredService ⟨1, 1, 1⟩) (fun c a => Careful ⟨1, 1, 1⟩ c.1 a) (l := oneMeal)
    (s := (start ⟨1, 1, 1⟩, Ledger.empty)) (p := fun c => slotsGiven ⟨1, 1, 1⟩ c.1 == 1)
    ⟨rfl, rfl⟩ (by decide +kernel)
  exact ⟨c, hc, by simpa using hone, careful_meals_backed ⟨1, 1, 1⟩ c hc⟩

/-- A student is served before the thread of the container has started: the
zeroed struct looks loaded and unlocked, although nothing was cooked. -/
theorem not_all_meals_backed :
    ¬ ∀ (P : Params) (c : State × Ledger), (ledgeredService P).Reachable c →
      (slotsGiven P c.1 : Int) ≤ ∑ j ∈ range P.n, c.2.handedTo j ∧
        ∑ j ∈ range P.n, c.2.handedTo j ≤ ∑ i ∈ range P.m, c.2.cooked i := by
  intro hall
  obtain ⟨c, hc, hbad⟩ := System.exists_reachable_of_run
    (M := ledgeredService ⟨1, 1, 1⟩) (l := List.replicate 4 (.student 0))
    (s := (start ⟨1, 1, 1⟩, Ledger.empty))
    (p := fun c => slotsGiven ⟨1, 1, 1⟩ c.1 == 1 && c.2.handedTo 0 == 0)
    ⟨rfl, rfl⟩ (by decide +kernel)
  simp only [Bool.and_eq_true, beq_iff_eq] at hbad
  have := (hall ⟨1, 1, 1⟩ c hc).1
  rw [hbad.1, Finset.sum_range_one, hbad.2] at this
  omega

end OsWork.Ports.BiryaniService

import OsWork.Verified.LockCode
import OsWork.Verified.Transition
import Mathlib.Logic.Function.Basic
import Mathlib.Logic.Relation

/-!
# Spinning CPUs

CPUs run lock skeletons in any interleaving.  A CPU that calls acquire enters
the loop of the exchange instruction and stays there until it finds the lock
free.  Interrupts come to a CPU that holds no lock and is not in that loop;
faults come to any CPU that is not in that loop.

CPU `c` *waits for* CPU `d` when `c` is in the loop for a lock that `d` owns.
When each lock is acquired at one rank only, ranks increase along the edges of
this relation and it has no cycle.  When a lock is acquired at several ranks, a
CPU may wait for a lock whose owner took it at a rank below what the first CPU
holds; runs without such a step, `NoInversion`, have no cycle either.

## Main results

* `Machine.Inv.step` — one step that brings no inversion preserves the
  invariant.
* `Inv.acyclic` — no cycle of waiting CPUs.
-/

namespace OsWork.Verified.LockOrder

open OsWork.Verified.Transition

universe u v

/-- What the CPUs of a kernel run. -/
structure Machine (C : Type u) (Λ : Type v) where
  /-- the lock held, alone, while the CPU changes hands; and its rank -/
  gate : Grip Λ
  boot : C → Code Λ
  /-- what a new thread runs -/
  child : Code Λ
  handler : Nat → Code Λ
  fault : Code Λ

/-- The state of the locks, the CPUs and the parked threads. -/
structure State (C : Type u) (Λ : Type v) where
  owner : Λ → Option C
  /-- the locks a CPU has acquired and not released, newest first -/
  held : C → List (Grip Λ)
  cont : C → List (Code Λ)
  /-- the lock whose acquire loop the CPU is in -/
  spin : C → Option Λ
  /-- the context of the CPU's scheduler while the CPU runs a thread -/
  sched : C → Option (List (Code Λ))
  parked : List (List (Code Λ))

/-- The steps. -/
inductive Act (C : Type u)
  /-- CPU `c` goes on; `pick` resolves a choice -/
  | exec (c : C) (pick : Nat)
  | intr (c : C) (irq : Nat)
  | fault (c : C)

section

variable {C : Type u} {Λ : Type v} [DecidableEq C] [DecidableEq Λ]

namespace State

/-- CPU `c` goes on with the continuation `k`. -/
def goto (s : State C Λ) (c : C) (k : List (Code Λ)) : State C Λ :=
  { s with cont := Function.update s.cont c k }

/-- CPU `c` calls acquire and finds that it does not hold the lock. -/
def enterLoop (s : State C Λ) (c : C) (l : Λ) : State C Λ :=
  { s with spin := Function.update s.spin c (some l) }

/-- The exchange instruction of CPU `c` finds the lock free. -/
def take (s : State C Λ) (c : C) (l : Λ) (r : Nat) (k : List (Code Λ)) : State C Λ :=
  { s with
    owner := Function.update s.owner l (some c)
    held := Function.update s.held c ((l, r) :: s.held c)
    cont := Function.update s.cont c k
    spin := Function.update s.spin c none }

def drop (s : State C Λ) (c : C) (l : Λ) (k : List (Code Λ)) : State C Λ :=
  { s with
    owner := Function.update s.owner l none
    held := Function.update s.held c ((s.held c).eraseP fun h => h.1 = l)
    cont := Function.update s.cont c k }

/-- The thread on CPU `c` is parked and the CPU's scheduler goes on. -/
def leave (s : State C Λ) (c : C) (k m : List (Code Λ)) : State C Λ :=
  { s with
    cont := Function.update s.cont c m
    sched := Function.update s.sched c none
    parked := s.parked ++ [k] }

/-- The scheduler of CPU `c` hands the CPU to the parked thread number `i`. -/
def enter (s : State C Λ) (c : C) (k m : List (Code Λ)) (i : Nat) : State C Λ :=
  { s with
    cont := Function.update s.cont c m
    sched := Function.update s.sched c (some k)
    parked := s.parked.eraseIdx i }

/-- CPU `c` waits for CPU `d`: it is in the loop for a lock that `d` owns. -/
def Waits (s : State C Λ) (c d : C) : Prop :=
  ∃ l, s.spin c = some l ∧ s.owner l = some d

end State

namespace Machine

variable (M : Machine C Λ)

/-- CPU `c` goes on with the statement at the head of its continuation. -/
def exec (s : State C Λ) (c : C) (pick : Nat) : Option (State C Λ) :=
  match s.cont c with
  | [] => none
  | .skip :: k => some (s.goto c k)
  | .seq a b :: k => some (s.goto c (a.push (b.push k)))
  | .acquire l r :: k =>
      if s.spin c = some l then
        if s.owner l = none then some (s.take c l r k) else some s
      else if s.owner l = some c then some (s.goto c [])
      else some (s.enterLoop c l)
  | .release l :: k =>
      if s.owner l = some c then some (s.drop c l k) else some (s.goto c [])
  | .choice a b :: k => some (s.goto c ((if pick = 0 then a else b).push k))
  | .anyOf f :: k => some (s.goto c ((f pick).push k))
  | .loop a :: k =>
      some (s.goto c (if pick = 0 then k else a.push (.loop a :: k)))
  | .forever a :: k => some (s.goto c (a.push (.forever a :: k)))
  | .ifThread a b :: k =>
      some (s.goto c ((if (s.sched c).isSome then a else b).push k))
  | .park :: k =>
      if (s.held c).map Prod.fst = [M.gate.1] then
        match s.sched c with
        | some m => some (s.leave c k m)
        | none => some (s.goto c [])
      else some (s.goto c [])
  | .resume :: k =>
      match s.parked[pick]? with
      | some m => some (s.enter c k m pick)
      | none => none
  | .spawn :: k =>
      some ({ s with parked := s.parked ++ [M.child.push []] }.goto c k)
  | .halt :: _ => some (s.goto c [])

def step (s : State C Λ) : Act C → Option (State C Λ)
  | .exec c pick => M.exec s c pick
  | .intr c irq =>
      if s.held c = [] ∧ s.spin c = none ∧ s.cont c ≠ [] then
        some (s.goto c ((M.handler irq).push (s.cont c)))
      else none
  | .fault c =>
      if s.spin c = none ∧ s.cont c ≠ [] then
        some (s.goto c (M.fault.push (s.cont c)))
      else none

/-- No lock is held, every CPU is about to boot. -/
def start : State C Λ :=
  { owner := fun _ => none
    held := fun _ => []
    cont := fun c => (M.boot c).push []
    spin := fun _ => none
    sched := fun _ => none
    parked := [] }

/-- The runs of the machine, from power-on. -/
def system : System (State C Λ) (Act C) where
  init s := s = M.start
  step := M.step

end Machine

/-! ## The invariant -/

/-- What the assumptions of a kernel say: its programs are safe from what they
start with, handlers and faults leave the locks as they find them. -/
structure Machine.Safe (M : Machine C Λ) (legal : Grip Λ → Prop) : Prop where
  boot : ∀ c, wp M.gate legal (M.boot c) (fun _ => True) []
  child : wp M.gate legal M.child (fun _ => True) [M.gate]
  handler : ∀ i K, K [] → wp M.gate legal (M.handler i) K []
  fault : ∀ H K, (∀ h ∈ H, legal h) → K H → wp M.gate legal M.fault K H

/-- The locks held, what is left to run, and the ranks across a wait. -/
structure Inv (M : Machine C Λ) (legal : Grip Λ → Prop) (s : State C Λ) : Prop where
  owned : ∀ l c, s.owner l = some c ↔ l ∈ (s.held c).map Prod.fst
  nodup : ∀ c, ((s.held c).map Prod.fst).Nodup
  lawful : ∀ c, ∀ h ∈ s.held c, legal h
  safe : ∀ c, wpStack M.gate legal (s.cont c) (s.held c)
  spins : ∀ c l, s.spin c = some l →
    ∃ r k, s.cont c = .acquire l r :: k ∧ l ∉ (s.held c).map Prod.fst
  sched : ∀ c k, s.sched c = some k → wpStack M.gate legal k [M.gate]
  parked : ∀ k ∈ s.parked, wpStack M.gate legal k [M.gate]
  waits : ∀ c l d r, s.spin c = some l → (l, r) ∈ s.held d → ∀ h ∈ s.held c, h.2 < r

/-- The step does not make a CPU wait for a lock that its owner took, or takes
in this step, at a rank no higher than one the waiting CPU holds. -/
def NoInversion (s : State C Λ) : Act C → Prop
  | .exec c _ =>
      match s.cont c with
      | .acquire l r :: _ =>
          if s.spin c = some l then
            s.owner l = none → ∀ c', c' ≠ c → s.spin c' = some l →
              ∀ h ∈ s.held c', h.2 < r
          else
            s.owner l ≠ some c → ∀ d r', (l, r') ∈ s.held d →
              ∀ h ∈ s.held c, h.2 < r'
      | _ => True
  | _ => True

variable {M : Machine C Λ} {legal : Grip Λ → Prop} {s t : State C Λ} {c : C}

omit [DecidableEq C] in
theorem Inv.start (hM : M.Safe legal) : Inv M legal M.start where
  owned l c := by simp [Machine.start]
  nodup c := by simp [Machine.start]
  lawful c h hh := by simp [Machine.start] at hh
  safe c := wpStack_push.mpr (hM.boot c)
  spins c l h := by simp [Machine.start] at h
  sched c k h := by simp [Machine.start] at h
  parked k h := by simp [Machine.start] at h
  waits c l d r h := by simp [Machine.start] at h

namespace Inv

omit [DecidableEq C] in
/-- A CPU whose continuation starts otherwise than with an acquire is not in a loop. -/
theorem spin_none (hI : Inv M legal s) {k : List (Code Λ)} (hc : s.cont c = k)
    (hk : ∀ l r k', k ≠ .acquire l r :: k') : s.spin c = none := by
  cases hspin : s.spin c with
  | none => rfl
  | some l =>
      obtain ⟨r, k', hcont, -⟩ := hI.spins c l hspin
      exact absurd (hc.symm.trans hcont) (hk l r k')

omit [DecidableEq C] in
/-- What the statement at the head of a continuation requires. -/
theorem head (hI : Inv M legal s) {a : Code Λ} {k : List (Code Λ)}
    (hc : s.cont c = a :: k) :
    wp M.gate legal a (wpStack M.gate legal k) (s.held c) := by
  have hsafe := hI.safe c
  rw [hc] at hsafe
  exact hsafe

/-! ### One step of a CPU -/

theorem goto (hI : Inv M legal s) (hspin : s.spin c = none) {k : List (Code Λ)}
    (hk : wpStack M.gate legal k (s.held c)) : Inv M legal (s.goto c k) where
  owned := hI.owned
  nodup := hI.nodup
  lawful := hI.lawful
  safe d := by
    simp only [State.goto, Function.update_apply]
    split
    · rename_i hd
      exact hd ▸ hk
    · exact hI.safe d
  spins d l h := by
    have hne : d ≠ c := by
      intro heq
      rw [heq] at h
      exact absurd (hspin.symm.trans h) (by simp)
    simpa [State.goto, Function.update_of_ne hne] using hI.spins d l h
  sched := hI.sched
  parked := hI.parked
  waits := hI.waits

omit [DecidableEq C] in
theorem park_more (hI : Inv M legal s) {k : List (Code Λ)}
    (hk : wpStack M.gate legal k [M.gate]) :
    Inv M legal { s with parked := s.parked ++ [k] } where
  owned := hI.owned
  nodup := hI.nodup
  lawful := hI.lawful
  safe := hI.safe
  spins := hI.spins
  sched := hI.sched
  parked m hm := by
    rcases List.mem_append.mp hm with hold | hnew
    · exact hI.parked m hold
    · rw [List.mem_singleton.mp hnew]
      exact hk
  waits := hI.waits

theorem enterLoop (hI : Inv M legal s) {l : Λ} {r : Nat} {k : List (Code Λ)}
    (hc : s.cont c = .acquire l r :: k) (hown : s.owner l ≠ some c)
    (hok : ∀ d r', (l, r') ∈ s.held d → ∀ h ∈ s.held c, h.2 < r') :
    Inv M legal (s.enterLoop c l) where
  owned := hI.owned
  nodup := hI.nodup
  lawful := hI.lawful
  safe := hI.safe
  spins d l' h := by
    simp only [State.enterLoop, Function.update_apply] at h
    split at h
    · rename_i hd
      obtain rfl : l = l' := Option.some.inj h
      rw [hd]
      exact ⟨r, k, hc, fun hmem => hown ((hI.owned l c).mpr hmem)⟩
    · exact hI.spins d l' h
  sched := hI.sched
  parked := hI.parked
  waits d l' e r' h := by
    simp only [State.enterLoop, Function.update_apply] at h
    split at h
    · rename_i hd
      obtain rfl : l = l' := Option.some.inj h
      rw [hd]
      exact hok e r'
    · exact hI.waits d l' e r' h

theorem take (hI : Inv M legal s) {l : Λ} {r : Nat} {k : List (Code Λ)}
    (hc : s.cont c = .acquire l r :: k) (hfree : s.owner l = none)
    (hok : ∀ c', c' ≠ c → s.spin c' = some l → ∀ h ∈ s.held c', h.2 < r) :
    Inv M legal (s.take c l r k) := by
  have hnot : ∀ d, l ∉ (s.held d).map Prod.fst := by
    intro d hmem
    have hown := (hI.owned l d).mpr hmem
    rw [hfree] at hown
    exact absurd hown (by simp)
  obtain ⟨hlegal, -, hpost⟩ := hI.head hc (hnot c)
  exact
    { owned := by
        intro l' d
        simp only [State.take, Function.update_apply]
        by_cases hl : l' = l
        · subst hl
          by_cases hd : d = c
          · simp [hd]
          · simp only [if_true, if_neg hd, hnot d, iff_false]
            exact fun h => hd (Option.some.inj h).symm
        · rw [if_neg hl]
          by_cases hd : d = c
          · simp [hd, hl, hI.owned]
          · rw [if_neg hd]
            exact hI.owned l' d
      nodup := by
        intro d
        simp only [State.take, Function.update_apply]
        split
        · exact List.nodup_cons.mpr ⟨hnot c, hI.nodup c⟩
        · exact hI.nodup d
      lawful := by
        intro d h hh
        simp only [State.take, Function.update_apply] at hh
        split at hh
        · rcases List.mem_cons.mp hh with rfl | hold
          · exact hlegal
          · exact hI.lawful c h hold
        · exact hI.lawful d h hh
      safe := by
        intro d
        simp only [State.take, Function.update_apply]
        split
        · exact hpost
        · exact hI.safe d
      spins := by
        intro d l' h
        simp only [State.take, Function.update_apply] at h ⊢
        split at h
        · exact absurd h (by simp)
        · rename_i hd
          simp only [if_neg hd]
          exact hI.spins d l' h
      sched := hI.sched
      parked := hI.parked
      waits := by
        intro d l' e r' h hmem
        simp only [State.take, Function.update_apply] at h hmem ⊢
        split at h
        · exact absurd h (by simp)
        · rename_i hd
          rw [if_neg hd]
          split at hmem
          · rcases List.mem_cons.mp hmem with heq | hold
            · obtain ⟨rfl, rfl⟩ := Prod.mk.inj heq
              exact hok d hd h
            · exact hI.waits d l' c r' h hold
          · exact hI.waits d l' e r' h hmem }

/-- Releasing one lock removes that lock from those held. -/
theorem mem_map_eraseP {H : List (Grip Λ)} (hnodup : (H.map Prod.fst).Nodup) {l l' : Λ} :
    l' ∈ (H.eraseP fun h => h.1 = l).map Prod.fst ↔ l' ≠ l ∧ l' ∈ H.map Prod.fst := by
  induction H with
  | nil => simp
  | cons h H ih =>
      obtain ⟨hnot, hrest⟩ := List.nodup_cons.mp hnodup
      by_cases hl : h.1 = l
      · rw [List.eraseP_cons_of_pos (by simpa using hl)]
        subst hl
        simp only [List.map_cons, List.mem_cons]
        constructor
        · intro hmem
          exact ⟨fun heq => hnot (heq ▸ hmem), .inr hmem⟩
        · rintro ⟨hne, heq | hmem⟩
          · exact absurd heq hne
          · exact hmem
      · rw [List.eraseP_cons_of_neg (by simpa using hl)]
        simp only [List.map_cons, List.mem_cons, ih hrest]
        constructor
        · rintro (rfl | ⟨hne, hmem⟩)
          · exact ⟨hl, .inl rfl⟩
          · exact ⟨hne, .inr hmem⟩
        · rintro ⟨hne, heq | hmem⟩
          · exact .inl heq
          · exact .inr ⟨hne, hmem⟩

theorem drop (hI : Inv M legal s) {l : Λ} {k : List (Code Λ)}
    (hc : s.cont c = .release l :: k) (hown : s.owner l = some c) :
    Inv M legal (s.drop c l k) := by
  have hspin : s.spin c = none := hI.spin_none hc (by simp)
  have hpost := hI.head hc ((hI.owned l c).mp hown)
  exact
    { owned := by
        intro l' d
        simp only [State.drop, Function.update_apply]
        by_cases hd : d = c
        · subst hd
          rw [if_pos rfl, mem_map_eraseP (hI.nodup d), ← hI.owned]
          by_cases hl : l' = l
          · simp [hl]
          · simp [hl]
        · rw [if_neg hd, ← hI.owned]
          by_cases hl : l' = l
          · subst hl
            rw [if_pos rfl, hown]
            constructor
            · intro h
              exact absurd h (by simp)
            · intro h
              exact absurd (Option.some.inj h).symm hd
          · rw [if_neg hl]
      nodup := by
        intro d
        simp only [State.drop, Function.update_apply]
        split
        · exact (hI.nodup c).sublist (List.Sublist.map _ List.eraseP_sublist)
        · exact hI.nodup d
      lawful := by
        intro d h hh
        simp only [State.drop, Function.update_apply] at hh
        split at hh
        · exact hI.lawful c h (List.mem_of_mem_eraseP hh)
        · exact hI.lawful d h hh
      safe := by
        intro d
        simp only [State.drop, Function.update_apply]
        split
        · exact hpost
        · exact hI.safe d
      spins := by
        intro d l' h
        have hd : d ≠ c := by
          intro heq
          rw [heq] at h
          exact absurd (hspin.symm.trans h) (by simp)
        simpa [State.drop, Function.update_of_ne hd] using hI.spins d l' h
      sched := hI.sched
      parked := hI.parked
      waits := by
        intro d l' e r' h hmem
        have hd : d ≠ c := by
          intro heq
          rw [heq] at h
          exact absurd (hspin.symm.trans h) (by simp)
        simp only [State.drop, Function.update_apply, if_neg hd] at hmem ⊢
        split at hmem
        · exact hI.waits d l' c r' h (List.mem_of_mem_eraseP hmem)
        · exact hI.waits d l' e r' h hmem }

theorem leave (hI : Inv M legal s) {k m : List (Code Λ)}
    (hc : s.cont c = .park :: k) (hgate : (s.held c).map Prod.fst = [M.gate.1])
    (hm : s.sched c = some m) : Inv M legal (s.leave c k m) := by
  obtain ⟨hheld, hpost⟩ := hI.head hc hgate
  have hsched : wpStack M.gate legal m (s.held c) := hheld ▸ hI.sched c m hm
  have hnext := (hI.goto (hI.spin_none hc (by simp)) hsched).park_more hpost
  exact
    { hnext with
      sched := by
        intro d k' h
        simp only [State.leave, Function.update_apply] at h
        split at h
        · exact absurd h (by simp)
        · exact hI.sched d k' h }

theorem enter (hI : Inv M legal s) {k m : List (Code Λ)} {i : Nat}
    (hc : s.cont c = .resume :: k) (hm : s.parked[i]? = some m) :
    Inv M legal (s.enter c k m i) := by
  obtain ⟨hheld, hpost⟩ := hI.head hc
  have hthread : wpStack M.gate legal m (s.held c) :=
    hheld ▸ hI.parked m (List.mem_of_getElem? hm)
  have hnext := hI.goto (hI.spin_none hc (by simp)) hthread
  exact
    { hnext with
      sched := by
        intro d k' h
        simp only [State.enter, Function.update_apply] at h
        split at h
        · exact Option.some.inj h ▸ hpost
        · exact hI.sched d k' h
      parked := fun k' hk' => hI.parked k' (List.mem_of_mem_eraseIdx hk') }

/-- One step of a CPU that goes on with its continuation. -/
theorem exec (hI : Inv M legal s) (hM : M.Safe legal) {pick : Nat}
    (hok : NoInversion s (.exec c pick)) (hs : M.exec s c pick = some t) :
    Inv M legal t := by
  unfold Machine.exec at hs
  split at hs
  · exact absurd hs (by simp)
  · rename_i k hc
    obtain rfl := Option.some.inj hs
    exact hI.goto (hI.spin_none hc (by simp)) (hI.head hc)
  · rename_i a b k hc
    obtain rfl := Option.some.inj hs
    refine hI.goto (hI.spin_none hc (by simp)) (wpStack_push.mpr ?_)
    exact wp_mono (fun H hb => wpStack_push.mpr hb) (hI.head hc)
  · rename_i l r k hc
    simp only [NoInversion, hc] at hok
    split at hs
    · rename_i hspin
      rw [if_pos hspin] at hok
      split at hs
      · rename_i hfree
        obtain rfl := Option.some.inj hs
        exact hI.take hc hfree (hok hfree)
      · obtain rfl := Option.some.inj hs
        exact hI
    · rename_i hspin
      rw [if_neg hspin] at hok
      split at hs
      · rename_i hown
        obtain rfl := Option.some.inj hs
        refine hI.goto ?_ trivial
        cases hl : s.spin c with
        | none => rfl
        | some l' =>
            obtain ⟨r', k', hcont, hnot⟩ := hI.spins c l' hl
            obtain ⟨⟨rfl, rfl⟩, rfl⟩ := by simpa using hc.symm.trans hcont
            exact absurd hl hspin
      · rename_i hown
        obtain rfl := Option.some.inj hs
        exact hI.enterLoop hc hown (hok hown)
  · rename_i l k hc
    split at hs
    · rename_i hown
      obtain rfl := Option.some.inj hs
      exact hI.drop hc hown
    · obtain rfl := Option.some.inj hs
      exact hI.goto (hI.spin_none hc (by simp)) trivial
  · rename_i a b k hc
    obtain rfl := Option.some.inj hs
    obtain ⟨ha, hb⟩ := hI.head hc
    refine hI.goto (hI.spin_none hc (by simp)) (wpStack_push.mpr ?_)
    split
    · exact ha
    · exact hb
  · rename_i f k hc
    obtain rfl := Option.some.inj hs
    exact hI.goto (hI.spin_none hc (by simp)) (wpStack_push.mpr (hI.head hc pick))
  · rename_i a k hc
    obtain rfl := Option.some.inj hs
    obtain ⟨hexit, hbody⟩ := hI.head hc
    refine hI.goto (hI.spin_none hc (by simp)) ?_
    split
    · exact hexit
    · refine wpStack_push.mpr (wp_mono ?_ hbody)
      rintro H rfl
      exact ⟨hexit, hbody⟩
  · rename_i a k hc
    obtain rfl := Option.some.inj hs
    have hbody := hI.head hc
    refine hI.goto (hI.spin_none hc (by simp)) (wpStack_push.mpr (wp_mono ?_ hbody))
    rintro H rfl
    exact hbody
  · rename_i a b k hc
    obtain rfl := Option.some.inj hs
    obtain ⟨ha, hb⟩ := hI.head hc
    refine hI.goto (hI.spin_none hc (by simp)) (wpStack_push.mpr ?_)
    split
    · exact ha
    · exact hb
  · rename_i k hc
    split at hs
    · rename_i hgate
      split at hs
      · rename_i m hm
        obtain rfl := Option.some.inj hs
        exact hI.leave hc hgate hm
      · obtain rfl := Option.some.inj hs
        exact hI.goto (hI.spin_none hc (by simp)) trivial
    · obtain rfl := Option.some.inj hs
      exact hI.goto (hI.spin_none hc (by simp)) trivial
  · rename_i k hc
    split at hs
    · rename_i m hm
      obtain rfl := Option.some.inj hs
      exact hI.enter hc hm
    · exact absurd hs (by simp)
  · rename_i k hc
    obtain rfl := Option.some.inj hs
    refine (hI.park_more (wpStack_push.mpr hM.child)).goto ?_ (hI.head hc)
    exact hI.spin_none hc (by simp)
  · rename_i k hc
    obtain rfl := Option.some.inj hs
    exact hI.goto (hI.spin_none hc (by simp)) trivial

/-- A step that brings no inversion preserves the invariant. -/
theorem step (hI : Inv M legal s) (hM : M.Safe legal) {a : Act C}
    (hok : NoInversion s a) (hs : M.step s a = some t) : Inv M legal t := by
  cases a with
  | exec c pick => exact hI.exec hM hok hs
  | intr c irq =>
      simp only [Machine.step] at hs
      split at hs
      · rename_i hidle
        obtain ⟨hheld, hspin, -⟩ := hidle
        obtain rfl := Option.some.inj hs
        refine hI.goto hspin (wpStack_push.mpr ?_)
        rw [hheld]
        exact hM.handler irq _ (hheld ▸ hI.safe c)
      · exact absurd hs (by simp)
  | fault c =>
      simp only [Machine.step] at hs
      split at hs
      · rename_i hlive
        obtain rfl := Option.some.inj hs
        refine hI.goto hlive.1 (wpStack_push.mpr ?_)
        exact hM.fault _ _ (hI.lawful c) (hI.safe c)
      · exact absurd hs (by simp)

/-! ### No cycle -/

omit [DecidableEq C] in
/-- Along a wait, the waited-for CPU holds a rank above all the waiting CPU holds. -/
theorem above (hI : Inv M legal s) {d : C} (h : s.Waits c d) :
    ∃ g ∈ s.held d, ∀ h ∈ s.held c, h.2 < g.2 := by
  obtain ⟨l, hspin, hown⟩ := h
  obtain ⟨⟨l', r⟩, hmem, rfl⟩ := List.mem_map.mp ((hI.owned l d).mp hown)
  exact ⟨(l', r), hmem, hI.waits c l' d r hspin hmem⟩

omit [DecidableEq C] in
/-- No CPU waits for itself, directly or through others. -/
theorem acyclic (hI : Inv M legal s) : ¬ Relation.TransGen s.Waits c c := by
  intro hcycle
  have htop : ∀ d, Relation.TransGen s.Waits c d →
      ∃ g ∈ s.held d, ∀ h ∈ s.held c, h.2 < g.2 := by
    intro d hpath
    induction hpath with
    | single hedge => exact hI.above hedge
    | tail _ hedge ih =>
        obtain ⟨g, hg, hbelow⟩ := ih
        obtain ⟨g', hg', habove⟩ := hI.above hedge
        exact ⟨g', hg', fun h hh => Nat.lt_trans (hbelow h hh) (habove g hg)⟩
  obtain ⟨g, hg, hbelow⟩ := htop c hcycle
  exact absurd (hbelow g hg) (Nat.lt_irrefl _)

end Inv

end

end OsWork.Verified.LockOrder

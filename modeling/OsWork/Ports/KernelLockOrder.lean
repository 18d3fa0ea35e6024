import OsWork.Ports.KernelLocks
import OsWork.Verified.LockOrder
import Mathlib.Data.Fintype.Basic

/-!
# Deadlock between the console and the process table

The kernel as a machine of CPUs that run the lock skeletons of `KernelLocks`:
CPU 0 boots through `main`, the others start in `mpmain`; processes run system
calls and take traps; interrupts and kernel faults come at any time the CPU can
take them.

`exit` and `getpinfo` call `cprintf` while they hold `ptable.lock`;
`consoleintr` calls `wakeup`, and `consoleread` calls `sleep`, while they hold
`cons.lock`.  Two CPUs can therefore each spin for the lock the other holds.
This is the only inversion: in the runs in which a CPU that holds `ptable.lock`
(or `kmem.lock`) never comes to spin for a `cons.lock` that is, or is then
taken, by `consoleintr` or `consoleread`, there is no cycle of spinning CPUs of
any length.

## Main results

* `careful_acyclic` — no cycle in the runs whose steps are all careful.
* `not_all_acyclic` — `getpinfo` on one CPU and a key stroke on another.
-/

namespace OsWork.Ports.KernelLocks

open OsWork.Verified.LockOrder
open OsWork.Verified.Transition
open OsWork.Verified.LockOrder.Code (block)

/-- The kernel on `n` CPUs. -/
def kernel (n : Nat) : Machine (Fin n) Lock where
  gate := gate
  boot c := if c.val = 0 then main else mpmain
  child := newProcess
  handler := kernelInterrupt
  fault := kernelFault

theorem kernel_safe (n : Nat) : (kernel n).Safe legal where
  boot c := by
    simp only [kernel]
    split
    · exact wp_main
    · exact wp_mpmain
  child := wp_newProcess
  handler irq _ h := wp_kernelInterrupt irq h
  fault _ _ hlegal _ := wp_kernelFault hlegal

/-! ## What the claim forbids -/

/-- No cycle of CPUs that each spin for a lock the next one holds; in
particular none of the process table and the console. -/
structure LocksOrdered {n : Nat} (s : State (Fin n) Lock) : Prop where
  acyclic : ∀ c, ¬ Relation.TransGen s.Waits c c
  consolePtable : ∀ c d, ¬ (s.owner .ptable = some c ∧ s.spin c = some .cons ∧
    s.owner .cons = some d ∧ s.spin d = some .ptable)

/-- The second part is the case of two CPUs. -/
theorem LocksOrdered.of_acyclic {n : Nat} {s : State (Fin n) Lock}
    (h : ∀ c, ¬ Relation.TransGen s.Waits c c) : LocksOrdered s where
  acyclic := h
  consolePtable c d := by
    rintro ⟨hc, hcspin, hd, hdspin⟩
    have hcd : s.Waits c d := ⟨.cons, hcspin, hd⟩
    have hdc : s.Waits d c := ⟨.ptable, hdspin, hc⟩
    exact h c (.tail (.single hcd) hdc)

/-! ## Careful runs -/

/-- The rank at which code about to acquire `cons.lock` acquires it. -/
def atConsole : List (Code Lock) → Option Nat
  | .acquire .cons r :: _ => some r
  | _ => none

/-- The CPU holds `ptable.lock` or `kmem.lock`. -/
def HoldsHigh {n : Nat} (s : State (Fin n) Lock) (c : Fin n) : Prop :=
  s.owner .ptable = some c ∨ s.owner .kmem = some c

/-- No other CPU that spins for `cons.lock` holds `ptable.lock` or `kmem.lock`. -/
def SpinnersLow {n : Nat} (s : State (Fin n) Lock) (c : Fin n) : Prop :=
  ∀ d, d ≠ c → s.spin d = some .cons → ¬ HoldsHigh s d

/-- No other CPU is in `consoleintr` or `consoleread` with `cons.lock` held. -/
def ConsoleShallow {n : Nat} (s : State (Fin n) Lock) (c : Fin n) : Prop :=
  ∀ d, d ≠ c → (.cons, nested) ∉ s.held d

/-- CPU `c`, about to acquire `cons.lock` at rank `r`: with `ptable.lock` or
`kmem.lock` it does not start to spin while `consoleintr` or `consoleread` holds
the lock elsewhere; as `consoleintr` or `consoleread` it does not take the lock
while a CPU with one of these locks spins for it. -/
def CarefulConsole {n : Nat} (s : State (Fin n) Lock) (c : Fin n) (r : Nat) : Prop :=
  if s.spin c = some .cons then s.owner .cons = none ∧ r = nested → SpinnersLow s c
  else HoldsHigh s c → ConsoleShallow s c

/-- The steps that come nowhere near the deadlock. -/
def CarefulLock {n : Nat} (s : State (Fin n) Lock) : Act (Fin n) → Prop
  | .exec c _ =>
      match atConsole (s.cont c) with
      | some r => CarefulConsole s c r
      | none => True
  | _ => True

instance {n : Nat} (s : State (Fin n) Lock) (c : Fin n) : Decidable (HoldsHigh s c) :=
  inferInstanceAs (Decidable (_ ∨ _))

instance {n : Nat} (s : State (Fin n) Lock) (c : Fin n) : Decidable (SpinnersLow s c) :=
  inferInstanceAs (Decidable (∀ _, _))

instance {n : Nat} (s : State (Fin n) Lock) (c : Fin n) :
    Decidable (ConsoleShallow s c) :=
  inferInstanceAs (Decidable (∀ _, _))

instance {n : Nat} (s : State (Fin n) Lock) (c : Fin n) (r : Nat) :
    Decidable (CarefulConsole s c r) :=
  inferInstanceAs (Decidable (ite _ _ _))

instance {n : Nat} (s : State (Fin n) Lock) (a : Act (Fin n)) :
    Decidable (CarefulLock s a) :=
  match a with
  | .exec c _ =>
      match h : atConsole (s.cont c) with
      | some r => decidable_of_iff (CarefulConsole s c r) (by simp [CarefulLock, h])
      | none => isTrue (by simp [CarefulLock, h])
  | .intr _ _ => isTrue trivial
  | .fault _ => isTrue trivial

section Careful

variable {n : Nat} {s : State (Fin n) Lock} {c : Fin n}

/-- What a CPU holds is below the console's rank unless it is the console. -/
theorem lt_cons {h : Grip Lock} (hlegal : legal h) (hne : h.1 ≠ .cons) :
    h.2 < rank .cons :=
  (OffConsole.under (H := [h]) (by simpa [OffConsole] using ⟨hlegal, hne⟩) h (by simp)).2

/-- A CPU with neither `cons.lock` nor a higher lock holds locks of rank 0 only. -/
theorem lt_nested (hI : Inv (kernel n) legal s) (hoff : .cons ∉ (s.held c).map Prod.fst)
    (hlow : ¬ HoldsHigh s c) : ∀ h ∈ s.held c, h.2 < nested := by
  rintro ⟨l, r⟩ hh
  have hmem : l ∈ (s.held c).map Prod.fst := List.mem_map.mpr ⟨(l, r), hh, rfl⟩
  have hown := (hI.owned l c).mpr hmem
  rcases legal_eq (hI.lawful c _ hh) with hr | ⟨hl, -⟩
  · subst hr
    cases l with
    | cons => exact absurd hmem hoff
    | ptable => exact absurd (.inl hown) hlow
    | kmem => exact absurd (.inr hown) hlow
    | _ => simp [nested]
  · exact absurd (hl ▸ hmem) hoff

/-- A lock other than the console's has one legal rank. -/
theorem legal_unique {l : Lock} {r r' : Nat} (hl : l ≠ .cons) (h : legal (l, r))
    (h' : legal (l, r')) : r = r' := by
  rcases legal_eq h with hr | hr
  · rcases legal_eq h' with hr' | hr'
    · exact hr.trans hr'.symm
    · exact absurd hr'.1 hl
  · exact absurd hr.1 hl

/-- What a CPU that spins for `l` holds is below the rank at which `l` is
acquired by anyone, but for the nested sections of the console. -/
theorem lt_of_spin (hI : Inv (kernel n) legal s) {l : Lock} {r : Nat}
    (hspin : s.spin c = some l) (hlegal : legal (l, r))
    (hnested : l = .cons → r = nested → ¬ HoldsHigh s c) :
    ∀ h ∈ s.held c, h.2 < r := by
  obtain ⟨r', k, hcont, hfree⟩ := hI.spins c l hspin
  obtain ⟨hlegal', hbelow, -⟩ := hI.head hcont hfree
  by_cases hl : l = .cons
  · subst hl
    rcases legal_eq hlegal with hr | ⟨-, hr⟩
    · intro h hh
      rw [hr]
      refine lt_cons (hI.lawful c h hh) ?_
      intro heq
      exact hfree (List.mem_map.mpr ⟨h, hh, heq⟩)
    · rw [hr]
      exact lt_nested hI hfree (hnested rfl hr)
  · rw [legal_unique hl hlegal hlegal']
    exact hbelow

/-- The condition speaks of the console only; for the other locks one rank is
enough. -/
theorem CarefulLock.noInversion (hI : Inv (kernel n) legal s) {a : Act (Fin n)}
    (hok : CarefulLock s a) : NoInversion s a := by
  cases a with
  | exec c pick =>
      simp only [NoInversion]
      split
      · rename_i l r k hc
        split
        · rename_i hspin
          intro hfree d hd hdspin
          have hmine : l ∉ (s.held c).map Prod.fst := by
            intro hmem
            have hown := (hI.owned l c).mpr hmem
            rw [hfree] at hown
            exact absurd hown (by simp)
          obtain ⟨hlegal, -, -⟩ := hI.head hc hmine
          refine lt_of_spin hI hdspin hlegal ?_
          rintro rfl hr
          have hcare : CarefulConsole s c r := by
            simpa [CarefulLock, hc, atConsole] using hok
          rw [CarefulConsole, if_pos hspin] at hcare
          exact hcare ⟨hfree, hr⟩ d hd hdspin
        · rename_i hspin
          intro hown d r' hmem
          have hmine : l ∉ (s.held c).map Prod.fst :=
            fun hm => hown ((hI.owned l c).mpr hm)
          have hdc : d ≠ c := by
            rintro rfl
            exact hmine (List.mem_map.mpr ⟨(l, r'), hmem, rfl⟩)
          obtain ⟨hlegal, hbelow, -⟩ := hI.head hc hmine
          have hlegal' := hI.lawful d _ hmem
          by_cases hl : l = .cons
          · subst hl
            have hcare : CarefulConsole s c r := by
              simpa [CarefulLock, hc, atConsole] using hok
            rw [CarefulConsole, if_neg hspin] at hcare
            rcases legal_eq hlegal' with hr | ⟨-, hr⟩
            · intro h hh
              rw [hr]
              refine lt_cons (hI.lawful c h hh) ?_
              intro heq
              exact hmine (List.mem_map.mpr ⟨h, hh, heq⟩)
            · rw [hr]
              exact lt_nested hI hmine fun hhigh => hcare hhigh d hdc (hr ▸ hmem)
          · rw [legal_unique hl hlegal' hlegal]
            exact hbelow
      · trivial
  | intr c irq => trivial
  | fault c => trivial

end Careful

/-- In a run whose steps are all careful no state has a cycle of spinning CPUs. -/
theorem careful_acyclic (n : Nat) (s : State (Fin n) Lock)
    (h : (kernel n).system.ReachableWhen CarefulLock s) : LocksOrdered s := by
  have hI : Inv (kernel n) legal s := by
    refine h.invariant ?_ ?_
    · rintro s rfl
      exact Inv.start (kernel_safe n)
    · intro s a t hI hok hs
      exact hI.step (kernel_safe n) (hok.noInversion hI) hs
  exact .of_acyclic fun c => hI.acyclic

/-! ## Runs of two CPUs -/

/-- `k` steps of CPU `c` that take the first branch. -/
def go (c : Fin 2) (k : Nat) : List (Act (Fin 2)) := List.replicate k (.exec c 0)

def pick (c : Fin 2) (k : Nat) : List (Act (Fin 2)) := [.exec c k]

/-- CPU 0 is in `cprintf` when CPU 1, in `mpmain`, calls it too. -/
def twoPrints : List (Act (Fin 2)) := go 0 3 ++ pick 0 1 ++ go 0 7 ++ go 1 2

/-- `twoPrints` is a careful run that ends with CPU 1 waiting for CPU 0. -/
theorem careful_acyclic_twoPrints :
    ∃ s, (kernel 2).system.ReachableWhen CarefulLock s ∧ s.Waits 1 0 ∧
      LocksOrdered s := by
  obtain ⟨s, hs, htest⟩ := System.exists_reachableWhen_of_run
    (M := (kernel 2).system) CarefulLock (l := twoPrints) (s := (kernel 2).start)
    (p := fun s => decide (s.spin 1 = some .cons ∧ s.owner .cons = some 0))
    rfl (by decide +kernel)
  simp only [decide_eq_true_eq] at htest
  exact ⟨s, hs, ⟨.cons, htest⟩, careful_acyclic 2 s hs⟩

/-- A disk request of the process on CPU 1, from `iderw` on: it sleeps, the
interrupt wakes it, the scheduler of CPU 1 picks it again. -/
def diskRequest : List (Act (Fin 2)) :=
  go 1 7 ++ pick 1 1 ++ go 1 8 ++
    .intr 1 1 :: (go 1 2 ++ pick 1 1 ++ go 1 5) ++
    go 1 2 ++ pick 1 1 ++ go 1 7

def readBlock : List (Act (Fin 2)) := go 1 9 ++ pick 1 1 ++ diskRequest

def cachedBlock : List (Act (Fin 2)) := go 1 10

def releaseBlock : List (Act (Fin 2)) := go 1 13

/-- CPU 0 goes through `userinit` into its scheduler; CPU 1 starts, and runs the
first process through `iinit` and `initlog`. -/
def boot : List (Act (Fin 2)) :=
  go 0 3 ++ pick 0 1 ++ go 0 50 ++
    go 1 9 ++ pick 1 1 ++ go 1 3 ++ pick 1 1 ++
    readBlock ++ releaseBlock ++ go 1 6 ++
    cachedBlock ++ releaseBlock ++ readBlock ++ releaseBlock ++
    go 1 1 ++ cachedBlock ++ go 1 4 ++ diskRequest ++ releaseBlock

/-- The process on CPU 1 calls `getpinfo` and comes to its first `cprintf`; a
key stroke interrupts CPU 0, which comes to `wakeup` in `consoleintr`. -/
def lineWhilePrinting : List (Act (Fin 2)) :=
  boot ++ go 1 3 ++ pick 1 22 ++ pick 1 1 ++ go 1 2 ++ pick 1 1 ++ go 1 1 ++
    .intr 0 3 :: (go 0 2 ++ pick 0 1 ++ pick 0 1 ++ go 0 1 ++ pick 0 1 ++ go 0 1) ++
    go 1 1

/-- CPU 1 holds `ptable.lock` and spins for `cons.lock`, CPU 0 the other way. -/
theorem not_all_acyclic :
    ¬ ∀ (n : Nat) (s : State (Fin n) Lock), (kernel n).system.Reachable s →
      LocksOrdered s := by
  intro hall
  obtain ⟨s, hs, htest⟩ := System.exists_reachable_of_run
    (M := (kernel 2).system) (l := lineWhilePrinting) (s := (kernel 2).start)
    (p := fun s => decide (s.owner .ptable = some 1 ∧ s.spin 1 = some .cons ∧
      s.owner .cons = some 0 ∧ s.spin 0 = some .ptable))
    rfl (by decide +kernel)
  simp only [decide_eq_true_eq] at htest
  exact (hall 2 s hs).consolePtable 1 0 htest

end OsWork.Ports.KernelLocks

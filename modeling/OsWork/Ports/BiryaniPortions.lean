import OsWork.Ports.BiryaniKitchen

/-!
# The chefs never stop short

`students_left_to_serve -= c[i].r * c[i].p` is three reads and a write, made by
every chef without a lock.  A lost update leaves the counter too high, so the
chefs cook more than they have to, never less: the counter is at least the
number of students less the portions of the batches that have been subtracted.

The subtraction reads `c[i].r` back from the struct.  A container that took a
vessel of an earlier batch may store its own decremented copy there in between,
and if that is larger than the new batch more is subtracted than was cooked.

## Main results

* `careful_cookedEnough` — unless that happens, a chef leaves only when the
  chefs together have cooked at least `k` portions.
* `not_all_cookedEnough` — with such a late store the counter is too low.
-/

namespace OsWork.Ports.BiryaniService

open OsWork.Verified.Transition

/-! ## The portions subtracted -/

/-- The total `r * p` of the batches whose subtraction has been stored. -/
def recordPortions (s : State) (total : Int) : Act → Int
  | .chef i _ _ =>
      match s.chefPc i with
      | .writeLeft r p _ => total + r * p
      | _ => total
  | _ => total

/-- The service with the portions subtracted so far. -/
def portionedService (P : Params) : System (State × Int) Act :=
  (service P).withGhost (fun _ => 0) fun s a total => recordPortions s total a

/-- The counter does not fall below what is left to cook, and a chef leaves only
when nothing is. -/
def CookedEnough (P : Params) (x : State × Int) : Prop :=
  P.k - x.2 ≤ x.1.studentsLeftToServe ∧
    ∀ i, x.1.chefPc i = .left → (P.k : Int) ≤ x.2

/-! ## Late stores -/

/-- The vessels of a batch whose product is still to be read from the struct. -/
def ChefPc.announcing : ChefPc → Option Int
  | .setP r _ => some r
  | .readR r _ => some r
  | _ => none

/-- A store of `v` to `c[i].r` does not make the batch of a chef at `pc` look
larger. -/
def ChefPc.Admits (v : Int) (pc : ChefPc) : Prop :=
  match pc.announcing with
  | some r => v ≤ r
  | none => True

instance (v : Int) (pc : ChefPc) : Decidable (pc.Admits v) := by
  unfold ChefPc.Admits ChefPc.announcing
  split <;> infer_instance

/-- The store a container is about to make to a vessel count. -/
def ContainerPc.Timely (s : State) : ContainerPc → Prop
  | .writeR g _ v => (s.chefPc g).Admits (v - 1)
  | _ => True

instance (s : State) (pc : ContainerPc) : Decidable (pc.Timely s) := by
  unfold ContainerPc.Timely
  split <;> infer_instance

/-- No container stores a larger vessel count between a chef's store of its own
and the chef's read of it. -/
def TimelyStore (s : State) : Act → Prop
  | .container j _ => (s.containerPc j).Timely s
  | _ => True

instance (s : State) : (a : Act) → Decidable (TimelyStore s a)
  | .chef _ _ _ => inferInstanceAs (Decidable True)
  | .container j _ => inferInstanceAs (Decidable ((s.containerPc j).Timely s))
  | .student _ => inferInstanceAs (Decidable True)

/-! ## The invariant -/

/-- What a chef has read of its batch is at most the batch, and the value it is
about to store is at most `r * p` below what is left to cook. -/
def Announced (c : Chef) (need : Int) : ChefPc → Prop
  | .setR r p => 0 ≤ r ∧ 0 ≤ p
  | .setP r p => c.r ≤ r ∧ 0 ≤ r ∧ 0 ≤ p
  | .readR r p => c.r ≤ r ∧ c.p = p ∧ 0 ≤ r ∧ 0 ≤ p
  | .readP r p x => x ≤ r ∧ c.p = p ∧ 0 ≤ r ∧ 0 ≤ p
  | .readLeft r p d => d ≤ r * p ∧ 0 ≤ r * p
  | .writeLeft r p v => need ≤ v + r * p ∧ 0 ≤ r * p
  | .left => need ≤ 0
  | _ => True

/-- `total` portions have been subtracted. -/
structure Supplied (P : Params) (s : State) (total : Int) : Prop where
  left : P.k - total ≤ s.studentsLeftToServe
  chef : ∀ i, Announced (s.chefs i) (P.k - total) (s.chefPc i)

theorem Supplied.start (P : Params) : Supplied P (start P) 0 where
  left := by simp [BiryaniService.start]
  chef i := by simp [BiryaniService.start, Announced]

section Steps

variable {P : Params} {s t : State} {total : Int} {i j x y : Nat}

/-- With less left to cook the copies are good enough all the more. -/
theorem Announced.mono {c : Chef} {need need' : Int} {pc : ChefPc}
    (h : Announced c need pc) (hle : need' ≤ need) : Announced c need' pc := by
  cases pc <;> simp only [Announced] at h ⊢ <;> omega

/-- A chef's step never takes back what was subtracted. -/
theorem le_recordPortions (h : Supplied P s total) (a : Act) :
    total ≤ recordPortions s total a := by
  cases a with
  | chef i x y =>
      have hc := h.chef i
      simp only [recordPortions]
      split
      · rename_i r p v hpc
        rw [hpc] at hc
        have hpos : 0 ≤ r * p := hc.2
        omega
      · exact le_refl total
  | container j x => exact le_refl total
  | student q => exact le_refl total

/-- What one access of a chef does to its own batch and to the counter. -/
theorem Supplied.ofChef (h : Supplied P s total) (hs : s.chef i x y = some t) :
    P.k - recordPortions s total (.chef i x y) ≤ t.studentsLeftToServe ∧
      Announced (t.chefs i) (P.k - recordPortions s total (.chef i x y)) (t.chefPc i) := by
  have hleft := h.left
  have hc := h.chef i
  unfold State.chef at hs
  cases hpc : s.chefPc i with
  | draw =>
      simp only [hpc] at hs
      obtain rfl := Option.some.inj hs
      have hr := le_getRandomNumberBetween x 1 10
      have hp := le_getRandomNumberBetween y 2 (min 10 s.studentsLeftToServe)
      simp only [recordPortions, hpc]
      refine ⟨hleft, ?_⟩
      simp only [State.chefAt, Function.update_self, Announced]
      omega
  | setR r p =>
      simp only [hpc, Announced] at hs hc
      obtain rfl := Option.some.inj hs
      simp only [recordPortions, hpc]
      refine ⟨hleft, ?_⟩
      simp only [State.chefAt, State.setChef, Function.update_self, Announced]
      omega
  | setP r p =>
      simp only [hpc, Announced] at hs hc
      obtain rfl := Option.some.inj hs
      simp only [recordPortions, hpc]
      refine ⟨hleft, ?_⟩
      simp only [State.chefAt, State.setChef, Function.update_self, Announced]
      exact ⟨hc.1, trivial, hc.2⟩
  | readR r p | readLeft r p d =>
      simp only [hpc, Announced] at hs hc
      obtain rfl := Option.some.inj hs
      simp only [recordPortions, hpc]
      refine ⟨hleft, ?_⟩
      simp only [State.chefAt, Function.update_self, Announced]
      omega
  | readP r p v =>
      simp only [hpc, Announced] at hs hc
      obtain rfl := Option.some.inj hs
      simp only [recordPortions, hpc]
      refine ⟨hleft, ?_⟩
      obtain ⟨hv, hp, hr0, hp0⟩ := hc
      have hprod : v * p ≤ r * p := Int.mul_le_mul_of_nonneg_right hv hp0
      have hpos : 0 ≤ r * p := Int.mul_nonneg hr0 hp0
      simp only [State.chefAt, Function.update_self, Announced, hp]
      exact ⟨hprod, hpos⟩
  | writeLeft r p v =>
      simp only [hpc, Announced] at hs hc
      obtain rfl := Option.some.inj hs
      simp only [recordPortions, hpc]
      constructor
      · show P.k - (total + r * p) ≤ v
        omega
      · simp [State.chefAt, Announced]
  | loop =>
      simp only [hpc] at hs
      obtain rfl := Option.some.inj hs
      simp only [recordPortions, hpc]
      refine ⟨hleft, ?_⟩
      simp only [State.chefAt, Function.update_self]
      split
      · trivial
      · simp only [Announced]
        omega
  | check =>
      simp only [hpc] at hs
      obtain rfl := Option.some.inj hs
      simp only [recordPortions, hpc]
      refine ⟨hleft, ?_⟩
      simp only [State.chefAt, Function.update_self]
      split
      · simp only [Announced]
        omega
      · trivial
  | serve =>
      simp only [hpc] at hs
      split at hs
      · obtain rfl := Option.some.inj hs
        simp only [recordPortions, hpc]
        exact ⟨hleft, by simp [State.chefAt, Announced]⟩
      · exact absurd hs (by simp)
  | left => simp [hpc] at hs
  | _ =>
      simp only [hpc] at hs
      obtain rfl := Option.some.inj hs
      simp only [recordPortions, hpc]
      exact ⟨hleft, by simp [State.chefAt, Announced]⟩

theorem Supplied.chefStep (h : Supplied P s total) (hs : s.chef i x y = some t) :
    Supplied P t (recordPortions s total (.chef i x y)) := by
  obtain ⟨hleft, hown⟩ := h.ofChef hs
  obtain ⟨-, -, -, -, -, -, hother⟩ := chef_frame hs
  refine ⟨hleft, ?_⟩
  intro i'
  by_cases hi : i' = i
  · rw [hi]
    exact hown
  · obtain ⟨hc, hpc⟩ := hother i' hi
    rw [hc, hpc]
    have hle := le_recordPortions h (.chef i x y)
    exact (h.chef i').mono (by omega)

/-- A container changes no `p`, and a vessel count only by a timely store. -/
theorem chefs_of_container (hc : TimelyStore s (.container j x))
    (hs : s.container P j x = some t) (i : Nat) :
    (t.chefs i).p = (s.chefs i).p ∧
      ((t.chefs i).r = (s.chefs i).r ∨ (s.chefPc i).Admits (t.chefs i).r) := by
  unfold State.container at hs
  simp only [TimelyStore] at hc
  cases hpc : s.containerPc j with
  | writeR g ret v =>
      simp only [hpc, ContainerPc.Timely] at hs hc
      obtain rfl := Option.some.inj hs
      by_cases hi : i = g
      · subst hi
        simpa [State.containerAt, State.setChef] using Or.inr hc
      · simp [State.containerAt, State.setChef, hi]
  | claim g | setCooking g ret | clearLock g ret =>
      simp only [hpc] at hs
      obtain rfl := Option.some.inj hs
      by_cases hi : i = g
      · subst hi
        simp [State.containerAt, State.setChef]
      · simp [State.containerAt, State.setChef, hi]
  | _ =>
      simp only [hpc] at hs
      repeat' split at hs
      all_goals
        cases hs
        try exact ⟨rfl, .inl rfl⟩

theorem Supplied.containerStep (h : Supplied P s total)
    (hc : TimelyStore s (.container j x)) (hs : s.container P j x = some t) :
    Supplied P t total := by
  obtain ⟨hpc, -, -, hleft, -⟩ := container_frame hs
  constructor
  · rw [hleft]
    exact h.left
  · intro i
    obtain ⟨hp, hr⟩ := chefs_of_container hc hs i
    have hold := h.chef i
    rw [hpc]
    cases hi : s.chefPc i <;> rw [hi] at hold hr <;>
      simp only [Announced, ChefPc.Admits, ChefPc.announcing, hp] at hold hr ⊢ <;>
      first
      | exact hold
      | omega

theorem Supplied.step {a : Act} (h : Supplied P s total) (hc : TimelyStore s a)
    (hs : step P s a = some t) : Supplied P t (recordPortions s total a) := by
  cases a with
  | chef i x y =>
      simp only [BiryaniService.step] at hs
      split at hs
      · exact h.chefStep hs
      · exact absurd hs (by simp)
  | container j x =>
      simp only [BiryaniService.step] at hs
      split at hs
      · exact h.containerStep hc hs
      · exact absurd hs (by simp)
  | student q =>
      simp only [BiryaniService.step] at hs
      split at hs
      · obtain ⟨hchefs, hpc, -, hleft, -⟩ := student_frame hs
        constructor
        · rw [hleft]
          exact h.left
        · intro i
          rw [hchefs, hpc]
          exact h.chef i
      · exact absurd hs (by simp)

end Steps

/-! ## The counter along runs -/

/-- In every run without a late store of a vessel count, for any numbers of
chefs, containers and students and with updates of the counter lost at will, the
chefs never stop short. -/
theorem careful_cookedEnough (P : Params) {x : State × Int}
    (h : (portionedService P).ReachableWhen (fun x a => TimelyStore x.1 a) x) :
    CookedEnough P x := by
  have hI : Supplied P x.1 x.2 := by
    induction h with
    | init h0 =>
        obtain ⟨hstart, hzero⟩ := h0
        rw [hzero, show _ = start P from hstart]
        exact .start P
    | step _ hc hs ih =>
        obtain ⟨hstep, hrecord⟩ := System.withGhost_step hs
        rw [hrecord]
        exact ih.step hc hstep
  refine ⟨hI.left, ?_⟩
  intro i hleft
  have hc := hI.chef i
  rw [hleft] at hc
  simp only [Announced] at hc
  omega

/-- The chef cooks one batch of one vessel for two students, hands it out and
leaves. -/
theorem careful_cookedEnough_oneBatch :
    ∃ x, (portionedService ⟨1, 1, 2⟩).ReachableWhen (fun x a => TimelyStore x.1 a) x ∧
      x.1.chefPc 0 = .left ∧ CookedEnough ⟨1, 1, 2⟩ x := by
  obtain ⟨x, hx, hleft⟩ := System.exists_reachableWhen_of_run
    (M := portionedService ⟨1, 1, 2⟩) (fun x a => TimelyStore x.1 a)
    (l := List.flatten [List.replicate 16 (.chef 0 0 0), List.replicate 17 (.container 0 0),
      List.replicate 2 (.chef 0 0 0)])
    (s := (start ⟨1, 1, 2⟩, 0)) (p := fun x => x.1.chefPc 0 == .left)
    ⟨rfl, rfl⟩ (by decide +kernel)
  exact ⟨x, hx, by simpa using hleft, careful_cookedEnough ⟨1, 1, 2⟩ hx⟩

/-- Two containers claim the chef before it has started.  The first of them reads
the three vessels of the first batch; the second empties the chef; the chef
cooks a batch of one vessel, and the first container stores two. -/
def lateStore : List Act :=
  List.flatten [List.replicate 12 (.container 0 0), List.replicate 8 (.container 1 0),
    List.replicate 2 (.chef 0 0 0), List.replicate 5 (.container 1 0),
    List.replicate 14 (.chef 0 2 0), [.container 0 0], List.replicate 3 (.container 1 0),
    List.replicate 7 (.chef 0 0 0), [.container 0 0], List.replicate 5 (.chef 0 0 0)]

/-- After `lateStore` ten portions of eight have been subtracted. -/
theorem not_all_cookedEnough :
    ¬ ∀ (P : Params) (x : State × Int), (portionedService P).Reachable x →
      CookedEnough P x := by
  intro hall
  obtain ⟨x, hx, hp⟩ := System.exists_reachable_of_run
    (M := portionedService ⟨1, 2, 30⟩) (l := lateStore) (s := (start ⟨1, 2, 30⟩, 0))
    (p := fun x => x.1.studentsLeftToServe == 20 && x.2 == 8) ⟨rfl, rfl⟩
    (by decide +kernel)
  simp only [Bool.and_eq_true, beq_iff_eq] at hp
  have hlow := (hall ⟨1, 2, 30⟩ x hx).1
  rw [hp.1, hp.2] at hlow
  change ((30 : Nat) : Int) - 8 ≤ 20 at hlow
  omega

end OsWork.Ports.BiryaniService

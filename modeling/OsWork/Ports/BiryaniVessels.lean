import OsWork.Ports.BiryaniKitchen

/-!
# Each vessel is handed out once

A container claims a chef by `c[i].lock = 1` under the mutex of the search, and
holds the claim until its `c[i].lock = 0`, long after it has released the
mutex.  The chef stores to the same `lock`: `0` when its thread starts and when a
batch is finished, `1` when it starts to cook.

Beside the state we record the last batch of every chef and the portions that
containers have read off it.  The law `HandedOnce` holds as long as

* a container that finds `lock` clear looks at a chef that has started and whose
  `cooking` is still clear;
* a chef does not set `lock` for its next batch while the container that has
  emptied it still has `c[i].lock = 0` to do.

## Main results

* `careful_handedOnce` — under these conditions no two containers claim a chef
  at once, and before the chef cooks again its `r` vessels have been handed out
  with `p` portions each.
* `not_all_handedOnce` — a chef that starts late frees the claim of a container.
-/

namespace OsWork.Ports.BiryaniService

open OsWork.Verified.Transition

/-! ## Batches -/

/-- A batch of `r` vessels with `p` portions each, and the portions read off it
by containers. -/
structure Batch where
  r : Int
  p : Int
  visits : List Int
  deriving DecidableEq, Repr

/-- No batch yet. -/
def Batch.none : Batch where
  r := 0
  p := 0
  visits := []

/-- A batch is put down when the chef stores `cooking = 0`, a visit when the
container reads the portions. -/
def recordVisit (s : State) (b : Nat → Batch) : Act → Nat → Batch
  | .chef i _ _ =>
      match s.chefPc i with
      | .finish r p => Function.update b i { r := r, p := p, visits := [] }
      | _ => b
  | .container j _ =>
      match s.containerPc j with
      | .readP g =>
          Function.update b g { b g with visits := (b g).visits ++ [(s.chefs g).p] }
      | _ => b
  | .student _ => b

/-- The service with the batches of its chefs. -/
def batchedService (P : Params) : System (State × (Nat → Batch)) Act :=
  (service P).withGhost (fun _ _ => .none) fun s a b => recordVisit s b a

/-- The chef that a container has claimed, from its `c[i].lock = 1` until its
`c[i].lock = 0`. -/
def claims : ContainerPc → Option Nat
  | .unlockMutex g => some g
  | .readP g => some g
  | .readR g _ => some g
  | .writeR g _ _ => some g
  | .testR g _ => some g
  | .setCooking g _ => some g
  | .clearLock g _ => some g
  | _ => none

/-- The batch is finished and the chef waits for it to be taken. -/
def ChefPc.Open : ChefPc → Prop
  | .clearLock | .serve => True
  | _ => False

instance (pc : ChefPc) : Decidable pc.Open := by
  unfold ChefPc.Open
  split <;> infer_instance

/-- The law of one chef: its position, the containers and its last batch. -/
structure HandedOnce (s : State) (b : Nat → Batch) (i : Nat) : Prop where
  /-- no other container claims the chef -/
  alone : ∀ j j', claims (s.containerPc j) = some i → claims (s.containerPc j') = some i →
    j = j'
  /-- every visit reads the portions of one vessel -/
  portions : ∀ v ∈ (b i).visits, v = (b i).p
  /-- no vessel is served twice -/
  atMost : (b i).visits.length ≤ (b i).r
  /-- no vessel is lost before the chef goes on -/
  all : ¬ (s.chefPc i).Open → ((b i).visits.length : Int) = (b i).r
  /-- a visit returns what it has read -/
  returned : ∀ j ret, s.containerPc j = .clearLock i ret → ret = (b i).p

/-! ## The condition -/

/-- Chef `i` has started and its finished batch is still there. -/
def BatchThere (s : State) (i : Nat) : Prop :=
  s.chefPc i ≠ .start ∧ (s.chefs i).cooking = false

instance (s : State) (i : Nat) : Decidable (BatchThere s i) :=
  inferInstanceAs (Decidable (_ ∧ _))

/-- A container that finds the lock clear finds a batch. -/
def ContainerPc.FindsBatch (s : State) : ContainerPc → Prop
  | .readLock i => (s.chefs i).lock = false → BatchThere s i
  | _ => True

instance (s : State) (pc : ContainerPc) : Decidable (pc.FindsBatch s) := by
  unfold ContainerPc.FindsBatch
  split <;> infer_instance

/-- No container has chef `i` claimed. -/
def Unclaimed (P : Params) (s : State) (i : Nat) : Prop :=
  ∀ j, j < P.n → claims (s.containerPc j) ≠ some i

instance (P : Params) (s : State) (i : Nat) : Decidable (Unclaimed P s i) :=
  inferInstanceAs (Decidable (∀ j, j < P.n → _))

/-- Chef `i` does not start to cook before the last claim is cleared. -/
def ChefPc.AfterClaims (P : Params) (s : State) (i : Nat) : ChefPc → Prop
  | .setLock => Unclaimed P s i
  | _ => True

instance (P : Params) (s : State) (i : Nat) (pc : ChefPc) :
    Decidable (pc.AfterClaims P s i) := by
  unfold ChefPc.AfterClaims
  split <;> infer_instance

/-- The steps that keep the claims and the stores of the chefs apart. -/
def OrderlyClaim (P : Params) (s : State) : Act → Prop
  | .chef i _ _ => (s.chefPc i).AfterClaims P s i
  | .container j _ => (s.containerPc j).FindsBatch s
  | .student _ => True

instance (P : Params) (s : State) : (a : Act) → Decidable (OrderlyClaim P s a)
  | .chef i _ _ => inferInstanceAs (Decidable ((s.chefPc i).AfterClaims P s i))
  | .container j _ => inferInstanceAs (Decidable ((s.containerPc j).FindsBatch s))
  | .student _ => inferInstanceAs (Decidable True)

/-! ## The invariant -/

/-- The container is in its search and has the mutex. -/
def searches : ContainerPc → Bool
  | .enter | .scan _ | .readCooking _ | .readLock _ | .claim _ | .unlockMutex _ => true
  | _ => false

/-- The chef cooks: nobody may take from it and its lock is set. -/
def ChefPc.Cooks : ChefPc → Prop
  | .draw | .setR _ _ | .setP _ _ | .readR _ _ | .readP _ _ _ | .readLeft _ _ _ |
    .writeLeft _ _ _ | .finish _ _ | .clearLock => True
  | _ => False

/-- The chef has left `serve_biryani`; the last visit may not have returned. -/
def ChefPc.Between : ChefPc → Prop
  | .check | .loop | .setCooking | .setLock | .left => True
  | _ => False

/-- What a container that has claimed the chef knows: `c` is the struct of the
chef and `b` its batch. -/
def ClaimOk (c : Chef) (b : Batch) : ContainerPc → Prop
  | .unlockMutex _ => c.cooking = false ∧ 1 ≤ c.r ∧ b.visits.length + c.r = b.r
  | .readP _ => c.cooking = false ∧ 1 ≤ c.r ∧ b.visits.length + c.r = b.r
  | .readR _ ret =>
      c.cooking = false ∧ 1 ≤ c.r ∧ b.visits.length + c.r = b.r + 1 ∧ ret = b.p
  | .writeR _ ret v =>
      c.cooking = false ∧ 1 ≤ c.r ∧ b.visits.length + c.r = b.r + 1 ∧ ret = b.p ∧ v = c.r
  | .testR _ ret => c.cooking = false ∧ 0 ≤ c.r ∧ b.visits.length + c.r = b.r ∧ ret = b.p
  | .setCooking _ ret => c.cooking = false ∧ b.visits.length = b.r ∧ ret = b.p
  | .clearLock _ ret =>
      (c.cooking = false → 1 ≤ c.r ∧ b.visits.length + c.r = b.r) ∧ ret = b.p
  | _ => True

/-- The invariant of one chef: `c` is its struct, `pc` its position, `pcs` the
positions of the containers and `b` its last batch. -/
structure Shelf (i : Nat) (c : Chef) (pc : ChefPc) (pcs : Nat → ContainerPc)
    (b : Batch) : Prop where
  claim : ∀ j, claims (pcs j) = some i → c.lock = true ∧ ClaimOk c b (pcs j) ∧
    (pc = .serve ∨ pc.Between ∧ c.cooking = true)
  alone : ∀ j j', claims (pcs j) = some i → claims (pcs j') = some i → j = j'
  claiming : ∀ j, pcs j = .claim i → pc = .serve ∧ c.cooking = false ∧ c.lock = false
  locked : pc.Cooks → c.lock = true
  closed : c.cooking = false → pc = .start ∨ pc = .clearLock ∨ pc = .serve
  cook : CookOk c pc
  full : ¬ pc.Open → (b.visits.length : Int) = b.r
  served : pc.Open → c.cooking = true → (b.visits.length : Int) = b.r
  stocked : pc.Open → c.cooking = false → (∀ j, claims (pcs j) ≠ some i) →
    1 ≤ c.r ∧ b.visits.length + c.r = b.r
  same : pc.Open → c.p = b.p
  portions : ∀ v ∈ b.visits, v = b.p

/-- The invariant of the service. -/
structure Shelves (P : Params) (s : State) (b : Nat → Batch) : Prop where
  outside : ∀ j, P.n ≤ j → s.containerPc j = .start
  mutex : ∀ j, searches (s.containerPc j) = true → s.mutexForChefContainer = some j
  shelf : ∀ i, Shelf i (s.chefs i) (s.chefPc i) s.containerPc (b i)

theorem Shelves.start (P : Params) : Shelves P (start P) (fun _ => .none) where
  outside j _ := rfl
  mutex j h := by simp [BiryaniService.start, searches] at h
  shelf i :=
    { claim := by simp [BiryaniService.start, claims]
      alone := by simp [BiryaniService.start, claims]
      claiming := by simp [BiryaniService.start]
      locked := by simp [BiryaniService.start, ChefPc.Cooks]
      closed := by simp [BiryaniService.start]
      cook := by simp [BiryaniService.start, CookOk]
      full := by simp [Batch.none]
      served := by simp [BiryaniService.start, ChefPc.Open]
      stocked := by simp [BiryaniService.start, ChefPc.Open]
      same := by simp [BiryaniService.start, ChefPc.Open]
      portions := by simp [Batch.none] }

/-- The law follows from the invariant. -/
theorem Shelf.handedOnce {s : State} {b : Nat → Batch} {i : Nat}
    (h : Shelf i (s.chefs i) (s.chefPc i) s.containerPc (b i)) : HandedOnce s b i where
  alone := h.alone
  portions := h.portions
  atMost := by
    by_cases hopen : (s.chefPc i).Open
    · by_cases hcook : (s.chefs i).cooking = false
      · by_cases hclaim : ∃ j, claims (s.containerPc j) = some i
        · obtain ⟨j, hj⟩ := hclaim
          obtain ⟨-, hok, -⟩ := h.claim j hj
          cases hpc : s.containerPc j <;> rw [hpc] at hok hj <;>
            simp only [ClaimOk, hcook, true_implies] at hok <;>
            first
            | omega
            | simp [claims] at hj
        · have hstock := h.stocked hopen hcook fun j hj => hclaim ⟨j, hj⟩
          omega
      · have hfull := h.served hopen (by simpa using hcook)
        omega
    · have hfull := h.full hopen
      omega
  all := h.full
  returned := by
    intro j ret hpc
    obtain ⟨-, hok, -⟩ := h.claim j (by rw [hpc]; rfl)
    rw [hpc] at hok
    exact hok.2

/-! ## Chef steps -/

section Chefs

variable {P : Params} {s t : State} {b : Nat → Batch} {i j x y : Nat} {c c' : Chef}
  {pc pc' : ChefPc} {pcs : Nat → ContainerPc} {d : Batch}

/-- Only a chef that serves, or has just been emptied, is claimed. -/
theorem Shelf.noClaim (h : Shelf i c pc pcs d) (hserve : pc ≠ .serve)
    (hbetween : ¬ pc.Between) (j : Nat) : claims (pcs j) ≠ some i := by
  intro hj
  obtain ⟨-, -, hpc⟩ := h.claim j hj
  rcases hpc with hpc | ⟨hpc, -⟩
  · exact hserve hpc
  · exact hbetween hpc

theorem Shelf.noClaiming (h : Shelf i c pc pcs d) (hserve : pc ≠ .serve) (j : Nat) :
    pcs j ≠ .claim i := by
  intro hj
  exact hserve (h.claiming j hj).1

/-- A chef that cooks, or has not begun to, and that nobody has claimed. -/
theorem Shelf.ofCooking (h : Shelf i c pc pcs d) (hno : ∀ j, claims (pcs j) ≠ some i)
    (hserve : pc ≠ .serve) (hopen : ¬ pc.Open) (hopen' : ¬ pc'.Open)
    (hcook : c'.cooking = true) (hlock : pc'.Cooks → c'.lock = true)
    (hok : CookOk c' pc') : Shelf i c' pc' pcs d where
  claim j hj := absurd hj (hno j)
  alone j _ hj := absurd hj (hno j)
  claiming j hj := absurd hj (h.noClaiming hserve j)
  locked := hlock
  closed hc := by
    rw [hcook] at hc
    exact absurd hc (by simp)
  cook := hok
  full _ := h.full hopen
  served ho := absurd ho hopen'
  stocked ho := absurd ho hopen'
  same ho := absurd ho hopen'
  portions := h.portions

/-- A chef that has been emptied goes on; the last claim may still be there. -/
theorem Shelf.goOn (h : Shelf i c pc pcs d) (hcook : c.cooking = true)
    (hpc : pc'.Between) (hfull : (d.visits.length : Int) = d.r) :
    Shelf i c pc' pcs d := by
  have hopen : ¬ pc'.Open := by cases pc' <;> first | exact hpc.elim | exact id
  have hcooks : ¬ pc'.Cooks := by cases pc' <;> first | exact hpc.elim | exact id
  exact
    { claim := by
        intro j hj
        obtain ⟨hlock, hok, -⟩ := h.claim j hj
        exact ⟨hlock, hok, .inr ⟨hpc, hcook⟩⟩
      alone := h.alone
      claiming := by
        intro j hj
        have hclear := (h.claiming j hj).2.1
        rw [hcook] at hclear
        exact absurd hclear (by simp)
      locked := fun hc => absurd hc hcooks
      closed := by
        intro hc
        rw [hcook] at hc
        exact absurd hc (by simp)
      cook := by cases pc' <;> first | exact hpc.elim | trivial
      full := fun _ => hfull
      served := fun ho => absurd ho hopen
      stocked := fun ho => absurd ho hopen
      same := fun ho => absurd ho hopen
      portions := h.portions }

/-- Away from `serve_biryani` and `start` a chef that is not finishing has
`cooking` set. -/
theorem Shelf.busy (h : Shelf i c pc pcs d) (hstart : pc ≠ .start) (hopen : ¬ pc.Open) :
    c.cooking = true := by
  by_contra hc
  rcases h.closed (by simpa using hc) with rfl | rfl | rfl
  · exact hstart rfl
  · exact hopen trivial
  · exact hopen trivial

/-- The batch is finished: `cooking = 0`. -/
theorem Shelf.finish {r p : Int} (h : Shelf i c (.finish r p) pcs d) :
    Shelf i { c with cooking := false } .clearLock pcs { r := r, p := p, visits := [] } := by
  have hno := h.noClaim (by simp) id
  obtain ⟨hr, hp, hr1, -⟩ := h.cook
  exact
    { claim := fun j hj => absurd hj (hno j)
      alone := fun j _ hj => absurd hj (hno j)
      claiming := fun j hj => absurd hj (h.noClaiming (by simp) j)
      locked := fun _ => h.locked trivial
      closed := fun _ => .inr (.inl rfl)
      cook := trivial
      full := fun ho => absurd trivial ho
      served := fun _ hc => absurd hc (by simp)
      stocked := fun _ _ _ => by simpa [hr] using hr1
      same := fun _ => hp
      portions := by simp }

/-- The chef unlocks its batch: `lock = 0`. -/
theorem Shelf.unlock (h : Shelf i c .clearLock pcs d) :
    Shelf i { c with lock := false } .serve pcs d := by
  have hno := h.noClaim (by simp) id
  exact
    { claim := fun j hj => absurd hj (hno j)
      alone := fun j _ hj => absurd hj (hno j)
      claiming := fun j hj => absurd hj (h.noClaiming (by simp) j)
      locked := fun hc => hc.elim
      closed := fun _ => .inr (.inr rfl)
      cook := trivial
      full := fun ho => absurd trivial ho
      served := fun _ => h.served trivial
      stocked := fun _ => h.stocked trivial
      same := fun _ => h.same trivial
      portions := h.portions }

/-- What one access of a chef does to its shelf. -/
theorem Shelf.chefStep (h : Shelf i (s.chefs i) (s.chefPc i) s.containerPc (b i))
    (hc : s.chefPc i = .setLock → ∀ j, claims (s.containerPc j) ≠ some i)
    (hs : s.chef i x y = some t) :
    Shelf i (t.chefs i) (t.chefPc i) t.containerPc (recordVisit s b (.chef i x y) i) := by
  unfold State.chef at hs
  cases hpc : s.chefPc i with
  | left => simp [hpc] at hs
  | serve =>
      simp only [hpc] at hs
      rw [hpc] at h
      split at hs
      · rename_i hcook
        obtain rfl := Option.some.inj hs
        simp only [recordVisit, hpc, State.chefAt, Function.update_self]
        exact h.goOn hcook trivial (h.served trivial hcook)
      · exact absurd hs (by simp)
  | check | loop =>
      simp only [hpc] at hs
      rw [hpc] at h
      obtain rfl := Option.some.inj hs
      simp only [recordVisit, hpc, State.chefAt, Function.update_self]
      apply h.goOn (h.busy (by simp) id) ?_ (h.full id)
      split <;> trivial
  | setCooking =>
      simp only [hpc] at hs
      rw [hpc] at h
      obtain rfl := Option.some.inj hs
      have hcook := h.busy (by simp) id
      have hsame : { s.chefs i with cooking := true } = s.chefs i := by
        rw [← hcook]
      simp only [recordVisit, hpc, State.chefAt, State.setChef, Function.update_self, hsame]
      exact h.goOn hcook trivial (h.full id)
  | finish r p =>
      simp only [hpc] at hs
      rw [hpc] at h
      obtain rfl := Option.some.inj hs
      simp only [recordVisit, hpc, State.chefAt, State.setChef, Function.update_self]
      exact h.finish
  | clearLock =>
      simp only [hpc] at hs
      rw [hpc] at h
      obtain rfl := Option.some.inj hs
      simp only [recordVisit, hpc, State.chefAt, State.setChef, Function.update_self]
      exact h.unlock
  | setLock =>
      simp only [hpc] at hs
      rw [hpc] at h
      obtain rfl := Option.some.inj hs
      simp only [recordVisit, hpc, State.chefAt, State.setChef, Function.update_self]
      exact h.ofCooking (hc hpc) (by simp) id id (h.busy (by simp) id) (fun _ => rfl) trivial
  | draw =>
      simp only [hpc] at hs
      rw [hpc] at h
      obtain rfl := Option.some.inj hs
      simp only [recordVisit, hpc, State.chefAt, Function.update_self]
      apply h.ofCooking (h.noClaim (by simp) id) (by simp) id id (h.busy (by simp) id)
        (fun _ => h.locked trivial)
      have hr := le_getRandomNumberBetween x 1 10
      have hp := le_getRandomNumberBetween y 2 (min 10 s.studentsLeftToServe)
      simp only [CookOk]
      omega
  | start =>
      simp only [hpc] at hs
      rw [hpc] at h
      obtain rfl := Option.some.inj hs
      simp only [recordVisit, hpc, State.chefAt, State.setChef, Function.update_self]
      exact h.ofCooking (h.noClaim (by simp) id) (by simp) id id rfl (fun hc => hc.elim) trivial
  | initLock | initR | initP =>
      simp only [hpc] at hs
      rw [hpc] at h
      obtain rfl := Option.some.inj hs
      simp only [recordVisit, hpc, State.chefAt, State.setChef, Function.update_self]
      exact h.ofCooking (h.noClaim (by simp) id) (by simp) id id (h.busy (by simp) id)
        (fun hc => hc.elim) trivial
  | _ =>
      simp only [hpc] at hs
      rw [hpc] at h
      obtain rfl := Option.some.inj hs
      have hok := h.cook
      simp only [recordVisit, hpc, State.chefAt, State.setChef, Function.update_self]
      refine h.ofCooking (h.noClaim (by simp) id) (by simp) id id (h.busy (by simp) id)
        (fun _ => h.locked trivial) ?_
      simpa [CookOk] using hok

theorem Shelves.chefStep (h : Shelves P s b) (hc : OrderlyClaim P s (.chef i x y))
    (hs : s.chef i x y = some t) : Shelves P t (recordVisit s b (.chef i x y)) := by
  obtain ⟨-, hpcs, -, -, hmutex, -, hother⟩ := chef_frame hs
  have hno : s.chefPc i = .setLock → ∀ j, claims (s.containerPc j) ≠ some i := by
    intro hpc j
    by_cases hj : j < P.n
    · simp only [OrderlyClaim, hpc] at hc
      exact hc j hj
    · rw [h.outside j (Nat.le_of_not_lt hj)]
      simp [claims]
  constructor
  · intro j hj
    rw [hpcs]
    exact h.outside j hj
  · intro j hj
    rw [hpcs] at hj
    rw [hmutex]
    exact h.mutex j hj
  · intro i'
    by_cases hi : i' = i
    · subst hi
      exact (h.shelf i').chefStep hno hs
    · obtain ⟨hchef, hpc⟩ := hother i' hi
      have hb : recordVisit s b (.chef i x y) i' = b i' := by
        cases hat : s.chefPc i <;> simp [recordVisit, hat, hi]
      rw [hchef, hpc, hpcs, hb]
      exact h.shelf i'

end Chefs

/-! ## Container steps -/

section Containers

variable {P : Params} {s t : State} {b : Nat → Batch} {i j g x : Nat} {c c' : Chef}
  {pc : ChefPc} {pcs : Nat → ContainerPc} {d d' : Batch} {q : ContainerPc}

/-- A container moves and has nothing to do with the chef before and after. -/
theorem Shelf.ofOther (h : Shelf i c pc pcs d) (hold : claims (pcs j) ≠ some i)
    (hnew : claims q ≠ some i) (hclaim : q ≠ .claim i) :
    Shelf i c pc (Function.update pcs j q) d := by
  have hkept : ∀ j', claims (Function.update pcs j q j') = some i →
      Function.update pcs j q j' = pcs j' ∧ claims (pcs j') = some i := by
    intro j' hj'
    by_cases hj : j' = j
    · subst hj
      rw [Function.update_self] at hj'
      exact absurd hj' hnew
    · rw [Function.update_of_ne hj] at hj' ⊢
      exact ⟨rfl, hj'⟩
  exact
    { claim := by
        intro j' hj'
        obtain ⟨hsame, hj'⟩ := hkept j' hj'
        rw [hsame]
        exact h.claim j' hj'
      alone := by
        intro j' j'' hj' hj''
        exact h.alone j' j'' (hkept j' hj').2 (hkept j'' hj'').2
      claiming := by
        intro j' hj'
        by_cases hj : j' = j
        · subst hj
          rw [Function.update_self] at hj'
          exact absurd hj' hclaim
        · rw [Function.update_of_ne hj] at hj'
          exact h.claiming j' hj'
      locked := h.locked
      closed := h.closed
      cook := h.cook
      full := h.full
      served := h.served
      stocked := by
        intro ho hc hno
        apply h.stocked ho hc
        intro j' hj'
        have hne : j' ≠ j := by
          rintro rfl
          exact hold hj'
        have hno' := hno j'
        rw [Function.update_of_ne hne] at hno'
        exact hno' hj'
      same := h.same
      portions := h.portions }

/-- The container with the claim goes on with it. -/
theorem Shelf.hold (h : Shelf i c pc pcs d) (hj : claims (pcs j) = some i)
    (hq : claims q = some i) (hlock : c'.lock = c.lock) (hok : ClaimOk c' d' q)
    (hcook : c'.cooking = c.cooking ∨
      c'.cooking = true ∧ pc = .serve ∧ (d'.visits.length : Int) = d'.r)
    (hp : c'.p = c.p) (hd : d'.p = d.p) (hportions : ∀ v ∈ d'.visits, v = d'.p)
    (hvisits : d'.visits = d.visits ∧ d'.r = d.r ∨ c'.cooking = false ∧ pc = .serve) :
    Shelf i c' pc (Function.update pcs j q) d' := by
  obtain ⟨hlocked, -, hpc⟩ := h.claim j hj
  have honly : ∀ j', claims (Function.update pcs j q j') = some i → j' = j := by
    intro j' hj'
    by_cases hne : j' = j
    · exact hne
    · rw [Function.update_of_ne hne] at hj'
      exact h.alone j' j hj' hj
  have hopen : ¬ pc.Open → pc.Between ∧ c.cooking = true := by
    intro hno
    rcases hpc with rfl | hpc
    · exact absurd trivial hno
    · exact hpc
  exact
    { claim := by
        intro j' hj'
        obtain rfl := honly j' hj'
        rw [Function.update_self]
        refine ⟨hlock.trans hlocked, hok, ?_⟩
        rcases hpc with hpc | ⟨hpc, hc⟩
        · exact .inl hpc
        · refine .inr ⟨hpc, ?_⟩
          rcases hcook with hcook | ⟨hcook, -, -⟩
          · exact hcook.trans hc
          · exact hcook
      alone := by
        intro j' j'' hj' hj''
        rw [honly j' hj', honly j'' hj'']
      claiming := by
        intro j' hj'
        by_cases hne : j' = j
        · subst hne
          rw [Function.update_self] at hj'
          rw [hj'] at hq
          simp [claims] at hq
        · rw [Function.update_of_ne hne] at hj'
          have hfree := (h.claiming j' hj').2.2
          rw [hlocked] at hfree
          exact absurd hfree (by simp)
      locked := fun hc => hlock.trans (h.locked hc)
      closed := by
        intro hc
        rcases hcook with hcook | ⟨hcook, -, -⟩
        · exact h.closed (hcook ▸ hc)
        · rw [hcook] at hc
          exact absurd hc (by simp)
      cook := by
        rcases hpc with rfl | ⟨hpc, -⟩
        · trivial
        · cases pc <;> first | exact hpc.elim | trivial
      full := by
        intro hno
        rcases hvisits with ⟨hv, hr⟩ | ⟨-, rfl⟩
        · rw [hv, hr]
          exact h.full hno
        · exact absurd trivial hno
      served := by
        intro ho hc
        rcases hcook with hcook | ⟨-, -, hfull⟩
        · rcases hvisits with ⟨hv, hr⟩ | ⟨hc', -⟩
          · rw [hv, hr]
            exact h.served ho (hcook ▸ hc)
          · rw [hc'] at hc
            exact absurd hc (by simp)
        · exact hfull
      stocked := by
        intro _ _ hno
        have hself := hno j
        rw [Function.update_self] at hself
        exact absurd hq hself
      same := fun ho => hp.trans ((h.same ho).trans hd.symm)
      portions := hportions }

/-- `c[i].lock = 1`: the container has the chef for itself. -/
theorem Shelf.take (h : Shelf i c pc pcs d) (hj : pcs j = .claim i)
    (hmutex : ∀ j', pcs j' = .claim i → j' = j) :
    Shelf i { c with lock := true } pc (Function.update pcs j (.unlockMutex i)) d := by
  obtain ⟨hserve, hcook, hlock⟩ := h.claiming j hj
  subst hserve
  have hno : ∀ j', claims (pcs j') ≠ some i := by
    intro j' hj'
    have hlocked := (h.claim j' hj').1
    rw [hlock] at hlocked
    exact absurd hlocked (by simp)
  have honly : ∀ j', claims (Function.update pcs j (.unlockMutex i) j') = some i →
      j' = j := by
    intro j' hj'
    by_cases hne : j' = j
    · exact hne
    · rw [Function.update_of_ne hne] at hj'
      exact absurd hj' (hno j')
  exact
    { claim := by
        intro j' hj'
        obtain rfl := honly j' hj'
        rw [Function.update_self]
        obtain ⟨hr, hsum⟩ := h.stocked trivial hcook hno
        exact ⟨rfl, ⟨hcook, hr, hsum⟩, .inl rfl⟩
      alone := by
        intro j' j'' hj' hj''
        rw [honly j' hj', honly j'' hj'']
      claiming := by
        intro j' hj'
        by_cases hne : j' = j
        · subst hne
          rw [Function.update_self] at hj'
          exact absurd hj' (by simp)
        · rw [Function.update_of_ne hne] at hj'
          exact absurd (hmutex j' hj') hne
      locked := fun _ => rfl
      closed := h.closed
      cook := trivial
      full := h.full
      served := h.served
      stocked := by
        intro _ _ hnone
        have hself := hnone j
        rw [Function.update_self] at hself
        exact absurd rfl hself
      same := h.same
      portions := h.portions }

/-- `c[i].lock = 0`: the claim is over. -/
theorem Shelf.release {ret : Int} (h : Shelf i c pc pcs d) (hj : pcs j = .clearLock i ret)
    (hnew : claims q = none) (hclaim : q ≠ .claim i) :
    Shelf i { c with lock := false } pc (Function.update pcs j q) d := by
  have hclaims : claims (pcs j) = some i := by rw [hj]; rfl
  obtain ⟨-, hok, hpc⟩ := h.claim j hclaims
  rw [hj] at hok
  have hno : ∀ j', claims (Function.update pcs j q j') ≠ some i := by
    intro j' hj'
    by_cases hne : j' = j
    · subst hne
      rw [Function.update_self, hnew] at hj'
      exact absurd hj' (by simp)
    · rw [Function.update_of_ne hne] at hj'
      exact hne (h.alone j' j hj' hclaims)
  exact
    { claim := fun j' hj' => absurd hj' (hno j')
      alone := fun j' _ hj' => absurd hj' (hno j')
      claiming := by
        intro j' hj'
        by_cases hne : j' = j
        · subst hne
          rw [Function.update_self] at hj'
          exact absurd hj' hclaim
        · rw [Function.update_of_ne hne] at hj'
          obtain ⟨hserve, hcook, -⟩ := h.claiming j' hj'
          exact ⟨hserve, hcook, rfl⟩
      locked := by
        intro hc
        rcases hpc with rfl | ⟨hpc, -⟩
        · exact hc.elim
        · cases pc <;> first | exact hpc.elim | exact hc.elim
      closed := h.closed
      cook := by
        rcases hpc with rfl | ⟨hpc, -⟩
        · trivial
        · cases pc <;> first | exact hpc.elim | trivial
      full := h.full
      served := h.served
      stocked := fun _ hc _ => hok.1 hc
      same := h.same
      portions := h.portions }

/-- The container finds the lock clear and the batch still there. -/
theorem Shelf.find (h : Shelf i c pc pcs d) (hold : claims (pcs j) ≠ some i)
    (hstart : pc ≠ .start) (hcook : c.cooking = false) (hlock : c.lock = false) :
    Shelf i c pc (Function.update pcs j (.claim i)) d := by
  have hserve : pc = .serve := by
    rcases h.closed hcook with hpc | hpc | hpc
    · exact absurd hpc hstart
    · have hlocked := h.locked (by rw [hpc]; trivial)
      rw [hlock] at hlocked
      exact absurd hlocked (by simp)
    · exact hpc
  have hno : ∀ j', claims (pcs j') ≠ some i := by
    intro j' hj'
    have hlocked := (h.claim j' hj').1
    rw [hlock] at hlocked
    exact absurd hlocked (by simp)
  have hno' : ∀ j', claims (Function.update pcs j (.claim i) j') ≠ some i := by
    intro j' hj'
    by_cases hne : j' = j
    · subst hne
      rw [Function.update_self] at hj'
      exact absurd hj' (by simp [claims])
    · rw [Function.update_of_ne hne] at hj'
      exact hno j' hj'
  exact
    { claim := fun j' hj' => absurd hj' (hno' j')
      alone := fun j' _ hj' => absurd hj' (hno' j')
      claiming := fun _ _ => ⟨hserve, hcook, hlock⟩
      locked := h.locked
      closed := h.closed
      cook := h.cook
      full := h.full
      served := h.served
      stocked := fun ho hc _ => h.stocked ho hc hno
      same := h.same
      portions := h.portions }

/-- What one access of a container does to shelf `i`. -/
theorem Shelves.containerShelf (h : Shelves P s b)
    (hc : OrderlyClaim P s (.container j x)) (hs : s.container P j x = some t) (i : Nat) :
    Shelf i (t.chefs i) (t.chefPc i) t.containerPc (recordVisit s b (.container j x) i) := by
  have hshelf := h.shelf i
  have away : ∀ q, claims (s.containerPc j) ≠ some i → claims q ≠ some i → q ≠ .claim i →
      Shelf i (s.chefs i) (s.chefPc i) (Function.update s.containerPc j q) (b i) :=
    fun q => hshelf.ofOther
  unfold State.container at hs
  simp only [OrderlyClaim] at hc
  cases hpc : s.containerPc j with
  | readLock g =>
      simp only [hpc, ContainerPc.FindsBatch] at hs hc
      have hold : claims (s.containerPc j) ≠ some i := by simp [hpc, claims]
      split at hs
      · rename_i hlock
        obtain rfl := Option.some.inj hs
        simp only [recordVisit, hpc, State.containerAt]
        by_cases hi : i = g
        · subst hi
          obtain ⟨hstart, hcook⟩ := hc hlock
          exact hshelf.find hold hstart hcook hlock
        · exact away _ hold (by simp [claims]) (by simpa using fun heq => hi heq.symm)
      · split at hs
        · exact absurd hs (by simp)
        · obtain rfl := Option.some.inj hs
          simp only [recordVisit, hpc, State.containerAt]
          exact away _ hold (by simp [claims]) (by simp)
  | claim g =>
      simp only [hpc] at hs
      obtain rfl := Option.some.inj hs
      simp only [recordVisit, hpc, State.containerAt, State.setChef]
      by_cases hi : i = g
      · subst hi
        rw [Function.update_self]
        apply hshelf.take hpc
        intro j' hj'
        have hmine := h.mutex j (by rw [hpc]; rfl)
        have hother := h.mutex j' (by rw [hj']; rfl)
        exact Option.some.inj (hother.symm.trans hmine)
      · rw [Function.update_of_ne hi]
        exact away _ (by simp [hpc, claims]) (by simpa [claims] using fun heq => hi heq.symm)
          (by simp)
  | unlockMutex g =>
      simp only [hpc] at hs
      obtain rfl := Option.some.inj hs
      simp only [recordVisit, hpc, State.containerAt]
      by_cases hi : i = g
      · subst hi
        have hj : claims (s.containerPc j) = some i := by rw [hpc]; rfl
        have hok := (hshelf.claim j hj).2.1
        rw [hpc] at hok
        exact hshelf.hold hj rfl rfl hok (.inl rfl) rfl rfl hshelf.portions (.inl ⟨rfl, rfl⟩)
      · have hne : g ≠ i := fun heq => hi heq.symm
        exact away _ (by simpa [hpc, claims] using hne) (by simpa [claims] using hne) (by simp)
  | readP g =>
      simp only [hpc] at hs
      obtain rfl := Option.some.inj hs
      simp only [recordVisit, hpc, State.containerAt]
      by_cases hi : i = g
      · subst hi
        have hj : claims (s.containerPc j) = some i := by rw [hpc]; rfl
        obtain ⟨-, hok, hat⟩ := hshelf.claim j hj
        rw [hpc] at hok
        obtain ⟨hcook, hr, hsum⟩ := hok
        have hserve : s.chefPc i = .serve := by
          rcases hat with hat | ⟨-, hcook'⟩
          · exact hat
          · rw [hcook] at hcook'
            exact absurd hcook' (by simp)
        have hp := hshelf.same (by rw [hserve]; trivial)
        rw [Function.update_self]
        refine hshelf.hold hj rfl rfl ⟨hcook, hr, ?_, hp⟩ (.inl rfl) rfl rfl ?_
          (.inr ⟨hcook, hserve⟩)
        · simp only [List.length_append, List.length_singleton]
          omega
        · intro v hv
          rcases List.mem_append.mp hv with hv | hv
          · exact hshelf.portions v hv
          · rw [List.mem_singleton.mp hv]
            exact hp
      · have hne : g ≠ i := fun heq => hi heq.symm
        rw [Function.update_of_ne hi]
        exact away _ (by simpa [hpc, claims] using hne) (by simpa [claims] using hne) (by simp)
  | readR g ret =>
      simp only [hpc] at hs
      obtain rfl := Option.some.inj hs
      simp only [recordVisit, hpc, State.containerAt]
      by_cases hi : i = g
      · subst hi
        have hj : claims (s.containerPc j) = some i := by rw [hpc]; rfl
        have hok := (hshelf.claim j hj).2.1
        rw [hpc] at hok
        obtain ⟨hcook, hr, hsum, hret⟩ := hok
        exact hshelf.hold hj rfl rfl ⟨hcook, hr, hsum, hret, rfl⟩ (.inl rfl) rfl rfl
          hshelf.portions (.inl ⟨rfl, rfl⟩)
      · have hne : g ≠ i := fun heq => hi heq.symm
        exact away _ (by simpa [hpc, claims] using hne) (by simpa [claims] using hne) (by simp)
  | writeR g ret v =>
      simp only [hpc] at hs
      obtain rfl := Option.some.inj hs
      simp only [recordVisit, hpc, State.containerAt, State.setChef]
      by_cases hi : i = g
      · subst hi
        have hj : claims (s.containerPc j) = some i := by rw [hpc]; rfl
        have hok := (hshelf.claim j hj).2.1
        rw [hpc] at hok
        obtain ⟨hcook, hr, hsum, hret, hv⟩ := hok
        rw [Function.update_self]
        have hnext : ClaimOk { s.chefs i with r := v - 1 } (b i) (.testR i ret) := by
          refine ⟨hcook, ?_, ?_, hret⟩
          · show 0 ≤ v - 1
            omega
          · show ((b i).visits.length : Int) + (v - 1) = (b i).r
            omega
        exact hshelf.hold hj rfl rfl hnext (.inl rfl) rfl rfl hshelf.portions
          (.inl ⟨rfl, rfl⟩)
      · have hne : g ≠ i := fun heq => hi heq.symm
        rw [Function.update_of_ne hi]
        exact away _ (by simpa [hpc, claims] using hne) (by simpa [claims] using hne) (by simp)
  | testR g ret =>
      simp only [hpc] at hs
      obtain rfl := Option.some.inj hs
      simp only [recordVisit, hpc, State.containerAt]
      by_cases hi : i = g
      · subst hi
        have hj : claims (s.containerPc j) = some i := by rw [hpc]; rfl
        have hok := (hshelf.claim j hj).2.1
        rw [hpc] at hok
        obtain ⟨hcook, hr, hsum, hret⟩ := hok
        apply hshelf.hold hj ?_ rfl ?_ (.inl rfl) rfl rfl hshelf.portions (.inl ⟨rfl, rfl⟩)
        · split <;> rfl
        · split
          · exact ⟨hcook, by omega, hret⟩
          · exact ⟨fun _ => ⟨by omega, hsum⟩, hret⟩
      · have hne : g ≠ i := fun heq => hi heq.symm
        apply away _ (by simpa [hpc, claims] using hne)
        · split <;> simpa [claims] using hne
        · split <;> simp
  | setCooking g ret =>
      simp only [hpc] at hs
      obtain rfl := Option.some.inj hs
      simp only [recordVisit, hpc, State.containerAt, State.setChef]
      by_cases hi : i = g
      · subst hi
        have hj : claims (s.containerPc j) = some i := by rw [hpc]; rfl
        obtain ⟨-, hok, hat⟩ := hshelf.claim j hj
        rw [hpc] at hok
        obtain ⟨hcook, hfull, hret⟩ := hok
        have hserve : s.chefPc i = .serve := by
          rcases hat with hat | ⟨-, hcook'⟩
          · exact hat
          · rw [hcook] at hcook'
            exact absurd hcook' (by simp)
        rw [Function.update_self]
        exact hshelf.hold hj rfl rfl ⟨fun hc => absurd hc (by simp), hret⟩
          (.inr ⟨rfl, hserve, hfull⟩) rfl rfl hshelf.portions (.inl ⟨rfl, rfl⟩)
      · have hne : g ≠ i := fun heq => hi heq.symm
        rw [Function.update_of_ne hi]
        exact away _ (by simpa [hpc, claims] using hne) (by simpa [claims] using hne) (by simp)
  | clearLock g ret =>
      simp only [hpc] at hs
      obtain rfl := Option.some.inj hs
      simp only [recordVisit, hpc, State.containerAt, State.setChef]
      by_cases hi : i = g
      · subst hi
        rw [Function.update_self]
        exact hshelf.release hpc rfl (by simp)
      · have hne : g ≠ i := fun heq => hi heq.symm
        rw [Function.update_of_ne hi]
        exact away _ (by simpa [hpc, claims] using hne) (by simp [claims]) (by simp)
  | _ =>
      simp only [hpc] at hs
      have hold : claims (s.containerPc j) ≠ some i := by simp [hpc, claims]
      repeat' split at hs
      all_goals
        cases hs
        try
          simp only [recordVisit, hpc, State.containerAt, State.setContainer]
          apply away _ hold
          · simp [claims]
          · simp

/-- The mutex of the search along a container's step. -/
theorem Shelves.containerMutex (h : Shelves P s b) (hs : s.container P j x = some t)
    (j' : Nat) (hj' : searches (t.containerPc j') = true) :
    t.mutexForChefContainer = some j' := by
  have hold := h.mutex j'
  have hmine := h.mutex j
  by_cases hne : j' = j
  · subst hne
    unfold State.container at hs
    cases hpc : s.containerPc j' <;> simp only [hpc] at hs hmine <;>
      repeat' split at hs
    all_goals cases hs
    all_goals
      first
      | exact hmine rfl
      | rfl
      | simp [State.containerAt, searches] at hj'
  · obtain ⟨-, -, -, -, -, hother⟩ := container_frame hs
    rw [(hother j' hne).2] at hj'
    have hheld := hold hj'
    unfold State.container at hs
    cases hpc : s.containerPc j <;> simp only [hpc] at hs hmine <;>
      repeat' split at hs
    all_goals cases hs
    all_goals
      first
      | exact hheld
      | (rename_i hfree
         have hfree' : s.mutexForChefContainer = none := hfree
         rw [hfree'] at hheld
         exact absurd hheld (by simp))
      | exact absurd (Option.some.inj (hheld.symm.trans (hmine rfl))) hne

theorem Shelves.containerStep (hj : j < P.n) (h : Shelves P s b)
    (hc : OrderlyClaim P s (.container j x)) (hs : s.container P j x = some t) :
    Shelves P t (recordVisit s b (.container j x)) where
  outside := by
    intro j' hj'
    obtain ⟨-, -, -, -, -, hother⟩ := container_frame hs
    rw [(hother j' (by omega)).2]
    exact h.outside j' hj'
  mutex := h.containerMutex hs
  shelf := h.containerShelf hc hs

theorem Shelves.step {a : Act} (h : Shelves P s b) (hc : OrderlyClaim P s a)
    (hs : step P s a = some t) : Shelves P t (recordVisit s b a) := by
  cases a with
  | chef i x y =>
      simp only [BiryaniService.step] at hs
      split at hs
      · exact h.chefStep hc hs
      · exact absurd hs (by simp)
  | container j x =>
      simp only [BiryaniService.step] at hs
      split at hs
      · rename_i hj
        exact h.containerStep hj hc hs
      · exact absurd hs (by simp)
  | student q =>
      simp only [BiryaniService.step] at hs
      split at hs
      · obtain ⟨hchefs, hpc, hpcs, -, hmutex, -⟩ := student_frame hs
        constructor
        · rw [hpcs]
          exact h.outside
        · rw [hpcs, hmutex]
          exact h.mutex
        · intro i
          rw [hchefs, hpc, hpcs]
          exact h.shelf i
      · exact absurd hs (by simp)

end Containers

/-! ## The law along runs -/

/-- In every run that keeps the claims of the containers and the stores of the
chefs apart, for any numbers of chefs, containers and students, each vessel is
handed out once. -/
theorem careful_handedOnce (P : Params) {x : State × (Nat → Batch)}
    (h : (batchedService P).ReachableWhen (fun x a => OrderlyClaim P x.1 a) x) (i : Nat) :
    HandedOnce x.1 x.2 i := by
  have hI : Shelves P x.1 x.2 := by
    induction h with
    | init h0 =>
        obtain ⟨hstart, hnone⟩ := h0
        rw [hnone, show _ = start P from hstart]
        exact .start P
    | step _ hc hs ih =>
        obtain ⟨hstep, hrecord⟩ := System.withGhost_step hs
        rw [hrecord]
        exact ih.step hc hstep
  exact (hI.shelf i).handedOnce

/-- A batch of two vessels is fetched by two containers, and the chef goes on. -/
def twoVessels : List Act :=
  List.flatten [List.replicate 16 (.chef 0 1 0), List.replicate 17 (.container 0 0),
    List.replicate 18 (.container 1 0), [.chef 0 0 0]]

theorem careful_handedOnce_twoVessels :
    ∃ x, (batchedService ⟨1, 2, 9⟩).ReachableWhen
        (fun x a => OrderlyClaim ⟨1, 2, 9⟩ x.1 a) x ∧
      x.1.chefPc 0 = .check ∧ (x.2 0).visits = [2, 2] ∧ HandedOnce x.1 x.2 0 := by
  obtain ⟨x, hx, hp⟩ := System.exists_reachableWhen_of_run
    (M := batchedService ⟨1, 2, 9⟩) (fun x a => OrderlyClaim ⟨1, 2, 9⟩ x.1 a)
    (l := twoVessels) (s := (start ⟨1, 2, 9⟩, fun _ => .none))
    (p := fun x => decide (x.1.chefPc 0 = .check ∧ (x.2 0).visits = [2, 2]))
    ⟨rfl, rfl⟩ (by decide +kernel)
  obtain ⟨hcheck, hvisits⟩ := of_decide_eq_true hp
  exact ⟨x, hx, hcheck, hvisits, careful_handedOnce _ hx 0⟩

/-- A container claims the chef whose struct is still zeroed; the thread of the
chef starts and stores `lock = 0`; another container, which has read `cooking`
before, claims the chef as well. -/
def freedClaim : List Act :=
  List.flatten [List.replicate 11 (.container 0 0), List.replicate 8 (.container 1 0),
    List.replicate 2 (.chef 0 0 0), List.replicate 2 (.container 1 0)]

/-- After `freedClaim` two containers have the chef claimed. -/
theorem not_all_handedOnce :
    ¬ ∀ (P : Params) (x : State × (Nat → Batch)), (batchedService P).Reachable x →
      ∀ i, HandedOnce x.1 x.2 i := by
  intro hall
  obtain ⟨x, hx, hp⟩ := System.exists_reachable_of_run
    (M := batchedService ⟨1, 2, 1⟩) (l := freedClaim)
    (s := (start ⟨1, 2, 1⟩, fun _ => .none))
    (p := fun x => decide (claims (x.1.containerPc 0) = some 0 ∧
      claims (x.1.containerPc 1) = some 0)) ⟨rfl, rfl⟩ (by decide +kernel)
  obtain ⟨hfirst, hsecond⟩ := of_decide_eq_true hp
  have heq := (hall ⟨1, 2, 1⟩ x hx 0).alone 0 1 hfirst hsecond
  omega

end OsWork.Ports.BiryaniService

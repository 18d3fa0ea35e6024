import OsWork.Verified.Transition
import Mathlib.Logic.Function.Basic

/-!
# The biryani service of `ass4/Q2/main.c`

Robot chefs cook batches of `r` vessels with `p` portions each, serving
containers fetch one vessel at a time, and students take a slot in a loaded
container.  The three kinds of threads hand portions on through plain fields
(`cooking`, `load`, `lock`, the counters); only the search of a container and
the search of a student run under a mutex.

A step of this model is **one** read or one write of a shared variable, so a
`--` or a `-=` of the source is a read and a write with a gap between them, and
a test of two fields is two reads.  The label of a step names the thread and
carries the `rand()` results the thread consumes.

All arrays are total functions on `Nat` that start zeroed, as the globals of
the source do: a thread that has not started yet has not initialised its
struct, but the other threads can already look at it.  The arrays of the source
have 100 elements, and `main` does not check the numbers it reads: the results
are about the program for at most 100 chefs, containers and students.  A thread
that spins on a field is disabled until the field changes.
-/

namespace OsWork.Ports.BiryaniService

open OsWork.Verified.Transition

/-! ## Helper functions of the source -/

/-- What `get_random_number_between` divides by, if it does. -/
def divisor (a b : Int) : Option Int :=
  if b = a then none else some (b - a)

/-- `get_random_number_between`; `rand` is the result of `rand()`.  The
remainder of C truncates, so it takes the sign of the dividend. -/
def getRandomNumberBetween (rand : Nat) (a b : Int) : Int :=
  match divisor a b with
  | none => a
  | some d => Int.tmod rand d + a

/-- `struct chefs`. -/
structure Chef where
  r : Int
  p : Int
  cooking : Bool
  lock : Bool
  deriving DecidableEq, Repr

/-- `struct containers` less the number, which is fixed before the thread
starts. -/
structure Container where
  lock : Bool
  load : Bool
  studentsToFeed : Int
  deriving DecidableEq, Repr

/-- `container[i].container_number = i + 1`, set by `init_all_containers`. -/
def containerNumber (i : Nat) : Nat := i + 1

/-! ## Where the threads stand -/

/-- The next access of a chef; `r` and `p` are the locals of `make_biryani`. -/
inductive ChefPc
  /-- `start_cooking`: `chef->cooking = 1` -/
  | start
  | initLock
  | initR
  | initP
  /-- `while (students_left_to_serve > 0)` -/
  | loop
  /-- `make_biryani`: `c[chef_number].cooking = 1` -/
  | setCooking
  | setLock
  /-- `min(10, students_left_to_serve)` and the two draws -/
  | draw
  | setR (r p : Int)
  | setP (r p : Int)
  /-- `students_left_to_serve -= c[chef_number].r * c[chef_number].p` -/
  | readR (r p : Int)
  | readP (r p x : Int)
  | readLeft (r p d : Int)
  | writeLeft (r p v : Int)
  /-- `c[chef_number].cooking = 0`: the batch is finished -/
  | finish (r p : Int)
  | clearLock
  /-- `serve_biryani`: `while (c[chef_number].cooking == 0)` -/
  | serve
  /-- `if (students_left_to_serve <= 0)` -/
  | check
  | left
  deriving DecidableEq, Repr

/-- The next access of a container.  `g` is `guy_found`, `ret` is
`students_to_be_returned`, `avail` is `students_that_can_be_served`. -/
inductive ContainerPc
  /-- `start_fetching`: `container->load = 1` -/
  | start
  | initLock
  | initFeed
  /-- `while (students_left_to_feed > 0)` -/
  | loop
  /-- `get_biryani_from_handler`: `pthread_mutex_lock` -/
  | lockMutex
  | enter
  /-- head of the search loop: `students_left_to_feed <= 0` -/
  | scan (i : Nat)
  | readCooking (i : Nat)
  | readLock (i : Nat)
  /-- `c[i].lock = 1` -/
  | claim (i : Nat)
  | unlockMutex (g : Nat)
  | readP (g : Nat)
  | readR (g : Nat) (ret : Int)
  | writeR (g : Nat) (ret v : Int)
  | testR (g : Nat) (ret : Int)
  | setCooking (g : Nat) (ret : Int)
  /-- `c[guy_found].lock = 0; return students_to_be_returned` -/
  | clearLock (g : Nat) (ret : Int)
  /-- `while (students_that_can_be_served > 0 && students_left_to_feed > 0)` -/
  | serve (avail : Int)
  /-- the draw and `min(temp, students_left_to_feed)` -/
  | choose (avail : Int)
  | setFeed (avail num : Int)
  | setLoad (avail : Int)
  | freeLock (avail : Int)
  /-- `ready_to_serve`: `while (container[container_number].load == 0)` -/
  | ready (avail : Int)
  | left
  deriving DecidableEq, Repr

/-- The next access of a student in `go_fetch_slot`; `i` is the container. -/
inductive StudentPc
  /-- `pthread_mutex_lock` -/
  | start
  | readLoad (i : Nat)
  | readLock (i : Nat)
  /-- `container[i].lock = 1; container_found = i` -/
  | claim (i : Nat)
  /-- `students_left_to_feed--` -/
  | readLeft (i : Nat)
  | writeLeft (i : Nat) (v : Int)
  /-- `container[container_found].students_to_feed--` -/
  | readFeed (i : Nat)
  | writeFeed (i : Nat) (v : Int)
  | testFeed (i : Nat)
  | setLoad (i : Nat)
  | clearLock (i : Nat)
  | unlockMutex (i : Nat)
  | left (i : Nat)
  deriving DecidableEq, Repr

/-- `m` chefs, `n` containers, `k` students. -/
structure Params where
  m : Nat
  n : Nat
  k : Nat

/-- The globals and the position of every thread. -/
structure State where
  studentsLeftToServe : Int
  studentsLeftToFeed : Int
  chefs : Nat → Chef
  containers : Nat → Container
  mutexForChefContainer : Option Nat
  mutexForStudentContainer : Option Nat
  chefPc : Nat → ChefPc
  containerPc : Nat → ContainerPc
  studentPc : Nat → StudentPc

/-- The state in which `main` begins to start threads. -/
def start (P : Params) : State where
  studentsLeftToServe := P.k
  studentsLeftToFeed := P.k
  chefs := fun _ => { r := 0, p := 0, cooking := false, lock := false }
  containers := fun _ => { lock := false, load := false, studentsToFeed := 0 }
  mutexForChefContainer := none
  mutexForStudentContainer := none
  chefPc := fun _ => .start
  containerPc := fun _ => .start
  studentPc := fun _ => .start

/-- The thread that takes the next step. -/
inductive Act
  | chef (i : Nat) (rand₁ rand₂ : Nat)
  | container (j : Nat) (rand : Nat)
  | student (q : Nat)
  deriving DecidableEq, Repr

namespace State

variable (s : State)

/-- Chef `i` goes on to `pc`. -/
def chefAt (i : Nat) (pc : ChefPc) : State :=
  { s with chefPc := Function.update s.chefPc i pc }

/-- Container `j` goes on to `pc`. -/
def containerAt (j : Nat) (pc : ContainerPc) : State :=
  { s with containerPc := Function.update s.containerPc j pc }

/-- Student `q` goes on to `pc`. -/
def studentAt (q : Nat) (pc : StudentPc) : State :=
  { s with studentPc := Function.update s.studentPc q pc }

/-- A write to a field of `c[i]`. -/
def setChef (i : Nat) (f : Chef → Chef) : State :=
  { s with chefs := Function.update s.chefs i (f (s.chefs i)) }

/-- A write to a field of `container[j]`. -/
def setContainer (j : Nat) (f : Container → Container) : State :=
  { s with containers := Function.update s.containers j (f (s.containers j)) }

/-- `start_cooking` with `make_biryani` and `serve_biryani`. -/
def chef (i rand₁ rand₂ : Nat) : Option State :=
  match s.chefPc i with
  | .start => some ((s.setChef i fun c => { c with cooking := true }).chefAt i .initLock)
  | .initLock => some ((s.setChef i fun c => { c with lock := false }).chefAt i .initR)
  | .initR => some ((s.setChef i fun c => { c with r := 0 }).chefAt i .initP)
  | .initP => some ((s.setChef i fun c => { c with p := 0 }).chefAt i .loop)
  | .loop => some (s.chefAt i (if 0 < s.studentsLeftToServe then .setCooking else .left))
  | .setCooking =>
      some ((s.setChef i fun c => { c with cooking := true }).chefAt i .setLock)
  | .setLock => some ((s.setChef i fun c => { c with lock := true }).chefAt i .draw)
  | .draw =>
      let r := getRandomNumberBetween rand₁ 1 10
      let temp := min 10 s.studentsLeftToServe
      let p := getRandomNumberBetween rand₂ 2 temp
      some (s.chefAt i (.setR r p))
  | .setR r p => some ((s.setChef i fun c => { c with r := r }).chefAt i (.setP r p))
  | .setP r p => some ((s.setChef i fun c => { c with p := p }).chefAt i (.readR r p))
  | .readR r p => some (s.chefAt i (.readP r p (s.chefs i).r))
  | .readP r p x => some (s.chefAt i (.readLeft r p (x * (s.chefs i).p)))
  | .readLeft r p d => some (s.chefAt i (.writeLeft r p (s.studentsLeftToServe - d)))
  | .writeLeft r p v =>
      some ({ s with studentsLeftToServe := v }.chefAt i (.finish r p))
  | .finish _ _ =>
      some ((s.setChef i fun c => { c with cooking := false }).chefAt i .clearLock)
  | .clearLock => some ((s.setChef i fun c => { c with lock := false }).chefAt i .serve)
  | .serve => if (s.chefs i).cooking then some (s.chefAt i .check) else none
  | .check => some (s.chefAt i (if s.studentsLeftToServe ≤ 0 then .left else .loop))
  | .left => none

/-- `start_fetching` with `get_biryani_from_handler` and `ready_to_serve`.
With no chef at all the index of the search is a remainder by zero. -/
def container (P : Params) (j rand : Nat) : Option State :=
  match s.containerPc j with
  | .start =>
      some ((s.setContainer j fun c => { c with load := true }).containerAt j .initLock)
  | .initLock =>
      some ((s.setContainer j fun c => { c with lock := false }).containerAt j .initFeed)
  | .initFeed =>
      some ((s.setContainer j fun c => { c with studentsToFeed := 0 }).containerAt j .loop)
  | .loop =>
      some (s.containerAt j (if 0 < s.studentsLeftToFeed then .lockMutex else .left))
  | .lockMutex =>
      if s.mutexForChefContainer = none then
        some ({ s with mutexForChefContainer := some j }.containerAt j .enter)
      else none
  | .enter =>
      some (s.containerAt j (if s.studentsLeftToFeed ≤ 0 then .left else .scan 0))
  | .scan i =>
      some (s.containerAt j (if s.studentsLeftToFeed ≤ 0 then .left else .readCooking i))
  | .readCooking i =>
      if (s.chefs i).cooking = false then some (s.containerAt j (.readLock i))
      else if P.m = 0 then none
      else some (s.containerAt j (.scan ((i + 1) % P.m)))
  | .readLock i =>
      if (s.chefs i).lock = false then some (s.containerAt j (.claim i))
      else if P.m = 0 then none
      else some (s.containerAt j (.scan ((i + 1) % P.m)))
  | .claim i =>
      some ((s.setChef i fun c => { c with lock := true }).containerAt j (.unlockMutex i))
  | .unlockMutex g =>
      some ({ s with mutexForChefContainer := none }.containerAt j (.readP g))
  | .readP g => some (s.containerAt j (.readR g (s.chefs g).p))
  | .readR g ret => some (s.containerAt j (.writeR g ret (s.chefs g).r))
  | .writeR g ret v =>
      some ((s.setChef g fun c => { c with r := v - 1 }).containerAt j (.testR g ret))
  | .testR g ret =>
      some (s.containerAt j
        (if (s.chefs g).r ≤ 0 then .setCooking g ret else .clearLock g ret))
  | .setCooking g ret =>
      some ((s.setChef g fun c => { c with cooking := true }).containerAt j
        (.clearLock g ret))
  | .clearLock g ret =>
      some ((s.setChef g fun c => { c with lock := false }).containerAt j (.serve ret))
  | .serve avail =>
      some (s.containerAt j
        (if 0 < avail ∧ 0 < s.studentsLeftToFeed then .choose avail else .loop))
  | .choose avail =>
      let temp := getRandomNumberBetween rand 1 10
      let num := min (min temp s.studentsLeftToFeed) avail
      some (s.containerAt j (.setFeed (avail - num) num))
  | .setFeed avail num =>
      some ((s.setContainer j fun c => { c with studentsToFeed := num }).containerAt j
        (.setLoad avail))
  | .setLoad avail =>
      some ((s.setContainer j fun c => { c with load := false }).containerAt j
        (.freeLock avail))
  | .freeLock avail =>
      some ((s.setContainer j fun c => { c with lock := false }).containerAt j
        (.ready avail))
  | .ready avail =>
      if (s.containers (containerNumber j)).load then
        some (s.containerAt j (.serve avail))
      else none
  | .left => none

/-- `go_fetch_slot`. -/
def student (P : Params) (q : Nat) : Option State :=
  match s.studentPc q with
  | .start =>
      if s.mutexForStudentContainer = none then
        some ({ s with mutexForStudentContainer := some q }.studentAt q (.readLoad 0))
      else none
  | .readLoad i =>
      if (s.containers i).load = false then some (s.studentAt q (.readLock i))
      else if P.n = 0 then none
      else some (s.studentAt q (.readLoad ((i + 1) % P.n)))
  | .readLock i =>
      if (s.containers i).lock = false then some (s.studentAt q (.claim i))
      else if P.n = 0 then none
      else some (s.studentAt q (.readLoad ((i + 1) % P.n)))
  | .claim i =>
      some ((s.setContainer i fun c => { c with lock := true }).studentAt q (.readLeft i))
  | .readLeft i => some (s.studentAt q (.writeLeft i s.studentsLeftToFeed))
  | .writeLeft i v =>
      some ({ s with studentsLeftToFeed := v - 1 }.studentAt q (.readFeed i))
  | .readFeed i => some (s.studentAt q (.writeFeed i (s.containers i).studentsToFeed))
  | .writeFeed i v =>
      some ((s.setContainer i fun c => { c with studentsToFeed := v - 1 }).studentAt q
        (.testFeed i))
  | .testFeed i =>
      some (s.studentAt q
        (if (s.containers i).studentsToFeed ≤ 0 then .setLoad i else .clearLock i))
  | .setLoad i =>
      some ((s.setContainer i fun c => { c with load := true }).studentAt q (.clearLock i))
  | .clearLock i =>
      some ((s.setContainer i fun c => { c with lock := false }).studentAt q
        (.unlockMutex i))
  | .unlockMutex i =>
      some ({ s with mutexForStudentContainer := none }.studentAt q (.left i))
  | .left _ => none

end State

/-- One access of one thread. -/
def step (P : Params) (s : State) : Act → Option State
  | .chef i rand₁ rand₂ => if i < P.m then s.chef i rand₁ rand₂ else none
  | .container j rand => if j < P.n then s.container P j rand else none
  | .student q => if q < P.k then s.student P q else none

/-- The service with `P.m` chefs, `P.n` containers and `P.k` students. -/
def service (P : Params) : System State Act where
  init s := s = start P
  step := step P

/-! ## Frame of one access

Every access moves one thread and writes at most one struct. -/

section Frame

variable {s s' : State} {P : Params} {i j q x y : Nat}

/-- A chef writes `c[i]` and `students_left_to_serve` only. -/
theorem chef_frame (h : s.chef i x y = some s') :
    s'.containers = s.containers ∧ s'.containerPc = s.containerPc ∧
      s'.studentPc = s.studentPc ∧ s'.studentsLeftToFeed = s.studentsLeftToFeed ∧
      s'.mutexForChefContainer = s.mutexForChefContainer ∧
      s'.mutexForStudentContainer = s.mutexForStudentContainer ∧
      ∀ i', i' ≠ i → s'.chefs i' = s.chefs i' ∧ s'.chefPc i' = s.chefPc i' := by
  unfold State.chef at h
  split at h <;> (try split at h) <;> cases h <;>
    refine ⟨rfl, rfl, rfl, rfl, rfl, rfl, fun i' hi => ?_⟩ <;>
    simp [State.chefAt, State.setChef, hi]

/-- A student writes one container and `students_left_to_feed` only. -/
theorem student_frame (h : s.student P q = some s') :
    s'.chefs = s.chefs ∧ s'.chefPc = s.chefPc ∧ s'.containerPc = s.containerPc ∧
      s'.studentsLeftToServe = s.studentsLeftToServe ∧
      s'.mutexForChefContainer = s.mutexForChefContainer ∧
      ∀ q', q' ≠ q → s'.studentPc q' = s.studentPc q' := by
  unfold State.student at h
  split at h <;> (try split at h) <;> (try split at h) <;> cases h <;>
    refine ⟨rfl, rfl, rfl, rfl, rfl, fun q' hq => ?_⟩ <;>
    simp [State.studentAt, State.setContainer, hq]

/-- A container writes its own struct and at most one chef. -/
theorem container_frame (h : s.container P j x = some s') :
    s'.chefPc = s.chefPc ∧ s'.studentPc = s.studentPc ∧
      s'.studentsLeftToFeed = s.studentsLeftToFeed ∧
      s'.studentsLeftToServe = s.studentsLeftToServe ∧
      s'.mutexForStudentContainer = s.mutexForStudentContainer ∧
      ∀ j', j' ≠ j → s'.containers j' = s.containers j' ∧
        s'.containerPc j' = s.containerPc j' := by
  unfold State.container at h
  split at h <;> (try split at h) <;> (try split at h) <;> cases h <;>
    refine ⟨rfl, rfl, rfl, rfl, rfl, fun j' hj => ?_⟩ <;>
    simp [State.containerAt, State.setContainer, State.setChef, hj]

end Frame

end OsWork.Ports.BiryaniService

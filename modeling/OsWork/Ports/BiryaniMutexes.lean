import OsWork.Ports.BiryaniMeals
import OsWork.Ports.BiryaniVessels

/-!
# Who holds the mutexes of `ass4/Q2/main.c`

A container searches for a chef with `mutex_for_chef_container`, and a student searches for a
container with `mutex_for_student_container`.  The container that finds in its search that
everybody has been fed calls `pthread_exit` there and then.

## Main results

* `careful_alive` — while no container does so, a mutex is held by a thread that goes on.
-/

namespace OsWork.Ports.BiryaniService

open OsWork.Verified.Transition

/-- The thread that has locked a mutex has not terminated. -/
structure HolderAlive (s : State) : Prop where
  container : ∀ j, s.mutexForChefContainer = some j → s.containerPc j ≠ .left
  student : ∀ q, s.mutexForStudentContainer = some q → ∀ i, s.studentPc q ≠ .left i

/-- The place where the search looks at `students_left_to_feed`. -/
def ContainerPc.asks : ContainerPc → Bool
  | .enter | .scan _ => true
  | _ => false

/-- No container finds in its search that everybody has been fed. -/
def SomeoneHungry (s : State) : Act → Prop
  | .container j _ => (s.containerPc j).asks = true → 0 < s.studentsLeftToFeed
  | _ => True

instance (s : State) : (a : Act) → Decidable (SomeoneHungry s a)
  | .chef _ _ _ => inferInstanceAs (Decidable True)
  | .container j _ =>
      inferInstanceAs (Decidable ((s.containerPc j).asks = true → 0 < s.studentsLeftToFeed))
  | .student _ => inferInstanceAs (Decidable True)

/-- Who searches has the mutex. -/
structure SearchersHold (s : State) : Prop where
  container : ∀ j, searches (s.containerPc j) = true → s.mutexForChefContainer = some j
  student : ∀ q, (s.studentPc q).searching = true → s.mutexForStudentContainer = some q

/-- Who has the mutex searches. -/
structure HoldersSearch (s : State) : Prop where
  container : ∀ j, s.mutexForChefContainer = some j → searches (s.containerPc j) = true
  student : ∀ q, s.mutexForStudentContainer = some q → (s.studentPc q).searching = true

theorem HoldersSearch.alive {s : State} (h : HoldersSearch s) : HolderAlive s where
  container j hj heq := by
    have hsearch := h.container j hj
    rw [heq] at hsearch
    cases hsearch
  student q hq i heq := by
    have hsearch := h.student q hq
    rw [heq] at hsearch
    cases hsearch

/-! ## Steps -/

section Steps

variable {P : Params} {s t : State} {j q x : Nat}

/-- What a step of a container does to the mutex of its search. -/
inductive ContainerMutex (s t : State) (j : Nat) : Prop
  | lock (hfree : s.mutexForChefContainer = none) (hheld : t.mutexForChefContainer = some j)
      (hpc : searches (t.containerPc j) = true)
  | unlock (hsearch : searches (s.containerPc j) = true)
      (hfree : t.mutexForChefContainer = none) (hpc : searches (t.containerPc j) = false)
  | stay (hsame : t.mutexForChefContainer = s.mutexForChefContainer)
      (hpc : searches (t.containerPc j) = searches (s.containerPc j))
  | exit (hsame : t.mutexForChefContainer = s.mutexForChefContainer)
      (hasks : (s.containerPc j).asks = true) (hfed : s.studentsLeftToFeed ≤ 0)
      (hpc : t.containerPc j = .left)

theorem container_mutex (hs : s.container P j x = some t) : ContainerMutex s t j := by
  unfold State.container at hs
  split at hs
  case h_5 hpc =>
    split at hs
    · rename_i hfree
      cases hs
      exact .lock hfree rfl (by simp [State.containerAt, searches])
    · cases hs
  case h_6 hpc | h_7 i hpc =>
    cases hs
    by_cases hfed : s.studentsLeftToFeed ≤ 0
    · exact .exit rfl (by rw [hpc]; rfl) hfed (by simp [State.containerAt, hfed])
    · exact .stay rfl (by simp [State.containerAt, hfed, hpc, searches])
  case h_11 g hpc =>
    cases hs
    exact .unlock (by rw [hpc]; rfl) rfl (by simp [State.containerAt, searches])
  all_goals
    rename_i hpc
    (try split at hs) <;> (try split at hs) <;> cases hs <;>
      refine .stay rfl ?_ <;> simp [State.containerAt, hpc, searches]

/-- What a step of a student does to the mutex of its search. -/
inductive StudentMutex (s t : State) (q : Nat) : Prop
  | lock (hfree : s.mutexForStudentContainer = none) (hheld : t.mutexForStudentContainer = some q)
      (hpc : (t.studentPc q).searching = true)
  | unlock (hsearch : (s.studentPc q).searching = true)
      (hfree : t.mutexForStudentContainer = none) (hpc : (t.studentPc q).searching = false)
  | stay (hsame : t.mutexForStudentContainer = s.mutexForStudentContainer)
      (hpc : (t.studentPc q).searching = (s.studentPc q).searching)

theorem student_mutex (hs : s.student P q = some t) : StudentMutex s t q := by
  unfold State.student at hs
  split at hs
  case h_1 hpc =>
    split at hs
    · rename_i hfree
      cases hs
      exact .lock hfree rfl (by simp [State.studentAt, StudentPc.searching])
    · cases hs
  case h_12 i hpc =>
    cases hs
    exact .unlock (by rw [hpc]; rfl) rfl (by simp [State.studentAt, StudentPc.searching])
  case h_9 i hpc =>
    cases hs
    refine .stay rfl ?_
    simp only [State.studentAt, Function.update_self, hpc]
    split <;> rfl
  all_goals
    rename_i hpc
    (try split at hs) <;> (try split at hs) <;> cases hs <;>
      refine .stay rfl ?_ <;> simp [State.studentAt, hpc, StudentPc.searching]

/-- A thread `k` locks a mutex, unlocks it after its search, or leaves it alone: who searches
still has it. -/
theorem hold_step {held held' : Option Nat} {search search' : Nat → Bool} {k : Nat}
    (hothers : ∀ j, j ≠ k → search' j = search j)
    (hmove : held = none ∧ held' = some k ∨
      search k = true ∧ held' = none ∧ search' k = false ∨
      held' = held ∧ (search' k = true → search k = true))
    (h : ∀ j, search j = true → held = some j) : ∀ j, search' j = true → held' = some j := by
  intro j hj
  by_cases hjk : j = k
  · subst hjk
    rcases hmove with ⟨-, hheld⟩ | ⟨-, -, hout⟩ | ⟨hsame, hback⟩
    · exact hheld
    · rw [hout] at hj
      cases hj
    · exact hsame.trans (h j (hback hj))
  · rw [hothers j hjk] at hj
    have hmine := h j hj
    rcases hmove with ⟨hfree, -⟩ | ⟨hsearch, -, -⟩ | ⟨hsame, -⟩
    · rw [hfree] at hmine
      cases hmine
    · exact absurd (Option.some.inj (hmine.symm.trans (h k hsearch))) hjk
    · exact hsame.trans hmine

/-- Who has the mutex still searches, unless `k` ends its search and keeps it. -/
theorem search_step {held held' : Option Nat} {search search' : Nat → Bool} {k : Nat}
    (hothers : ∀ j, j ≠ k → search' j = search j)
    (hmove : held' = some k ∧ search' k = true ∨ held' = none ∨
      held' = held ∧ search' k = search k)
    (h : ∀ j, held = some j → search j = true) : ∀ j, held' = some j → search' j = true := by
  intro j hj
  rcases hmove with ⟨hmine, hsearch⟩ | hfree | ⟨hsame, hsearch⟩
  · rw [hmine] at hj
    obtain rfl := Option.some.inj hj
    exact hsearch
  · rw [hfree] at hj
    cases hj
  · have hold := h j (hsame ▸ hj)
    by_cases hjk : j = k
    · subst hjk
      exact hsearch.trans hold
    · exact (hothers j hjk).trans hold

theorem SearchersHold.step {a : Act} (h : SearchersHold s) (hs : step P s a = some t) :
    SearchersHold t := by
  cases a with
  | chef i x y =>
      simp only [BiryaniService.step] at hs
      split at hs
      · obtain ⟨-, hcpc, hspc, -, hcm, hsm, -⟩ := chef_frame hs
        constructor
        · rw [hcpc, hcm]
          exact h.container
        · rw [hspc, hsm]
          exact h.student
      · cases hs
  | container j x =>
      simp only [BiryaniService.step] at hs
      split at hs
      · obtain ⟨-, hspc, -, -, hsm, hothers⟩ := container_frame hs
        constructor
        · refine hold_step (fun j' hj => by rw [(hothers j' hj).2]) ?_ h.container
          rcases container_mutex hs with ⟨hfree, hheld, -⟩ | ⟨hsearch, hfree, hout⟩ |
            ⟨hsame, hpc⟩ | ⟨hsame, -, -, hpc⟩
          · exact .inl ⟨hfree, hheld⟩
          · exact .inr (.inl ⟨hsearch, hfree, hout⟩)
          · exact .inr (.inr ⟨hsame, fun hsearch => hpc ▸ hsearch⟩)
          · refine .inr (.inr ⟨hsame, fun hsearch => ?_⟩)
            rw [hpc] at hsearch
            cases hsearch
        · rw [hspc, hsm]
          exact h.student
      · cases hs
  | student q =>
      simp only [BiryaniService.step] at hs
      split at hs
      · obtain ⟨-, -, hcpc, -, hcm, hothers⟩ := student_frame hs
        constructor
        · rw [hcpc, hcm]
          exact h.container
        · refine hold_step (fun q' hq => by rw [hothers q' hq]) ?_ h.student
          rcases student_mutex hs with ⟨hfree, hheld, -⟩ | ⟨hsearch, hfree, hout⟩ | ⟨hsame, hpc⟩
          · exact .inl ⟨hfree, hheld⟩
          · exact .inr (.inl ⟨hsearch, hfree, hout⟩)
          · exact .inr (.inr ⟨hsame, fun hsearch => hpc ▸ hsearch⟩)
      · cases hs

theorem HoldersSearch.step {a : Act} (h : HoldersSearch s) (hok : SomeoneHungry s a)
    (hs : step P s a = some t) : HoldersSearch t := by
  cases a with
  | chef i x y =>
      simp only [BiryaniService.step] at hs
      split at hs
      · obtain ⟨-, hcpc, hspc, -, hcm, hsm, -⟩ := chef_frame hs
        constructor
        · rw [hcpc, hcm]
          exact h.container
        · rw [hspc, hsm]
          exact h.student
      · cases hs
  | container j x =>
      simp only [BiryaniService.step] at hs
      split at hs
      · obtain ⟨-, hspc, -, -, hsm, hothers⟩ := container_frame hs
        constructor
        · refine search_step (fun j' hj => by rw [(hothers j' hj).2]) ?_ h.container
          rcases container_mutex hs with ⟨-, hmine, hpc⟩ | ⟨-, hfree, -⟩ | ⟨hsame, hpc⟩ |
            ⟨-, hasks, hfed, -⟩
          · exact .inl ⟨hmine, hpc⟩
          · exact .inr (.inl hfree)
          · exact .inr (.inr ⟨hsame, hpc⟩)
          · exact absurd (hok hasks) (Int.not_lt.mpr hfed)
        · rw [hspc, hsm]
          exact h.student
      · cases hs
  | student q =>
      simp only [BiryaniService.step] at hs
      split at hs
      · obtain ⟨-, -, hcpc, -, hcm, hothers⟩ := student_frame hs
        constructor
        · rw [hcpc, hcm]
          exact h.container
        · refine search_step (fun q' hq => by rw [hothers q' hq]) ?_ h.student
          rcases student_mutex hs with ⟨-, hmine, hpc⟩ | ⟨-, hfree, -⟩ | ⟨hsame, hpc⟩
          · exact .inl ⟨hmine, hpc⟩
          · exact .inr (.inl hfree)
          · exact .inr (.inr ⟨hsame, hpc⟩)
      · cases hs

end Steps

/-! ## Runs -/

theorem searchersHold {P : Params} {s : State} (h : (service P).Reachable s) :
    SearchersHold s := by
  refine h.invariant (fun s h0 => ?_) fun s a t hs _ hstep => hs.step hstep
  rw [show s = start P from h0]
  exact ⟨fun _ hsearch => (nomatch hsearch), fun _ hsearch => (nomatch hsearch)⟩

/-- A container that finds that everybody has been fed takes the mutex with it. -/
theorem exit_not_alive {P : Params} {s t : State} {a : Act} (h : SearchersHold s)
    (hs : step P s a = some t) (hfed : ¬ SomeoneHungry s a) : ¬ HolderAlive t := by
  cases a with
  | chef i x y => exact absurd trivial hfed
  | student q => exact absurd trivial hfed
  | container j x =>
      obtain ⟨hasks, hleft⟩ := Classical.not_imp.mp hfed
      simp only [step] at hs
      split at hs
      · have hsearch : searches (s.containerPc j) = true := by
          cases hpc : s.containerPc j <;> rw [hpc] at hasks <;> first | rfl | cases hasks
        have hheld := h.container j hsearch
        have hgone : t.containerPc j = .left ∧
            t.mutexForChefContainer = s.mutexForChefContainer := by
          unfold State.container at hs
          cases hpc : s.containerPc j <;> rw [hpc] at hasks hs <;> cases hasks <;> cases hs <;>
            exact ⟨by simp [State.containerAt, Int.not_lt.mp hleft], rfl⟩
        intro halive
        exact halive.container j (hgone.2.trans hheld) hgone.1
      · cases hs

/-- In every run in which no container finds in its search that everybody has been fed, for any
numbers of chefs, containers and students, the thread that has locked a mutex has not
terminated; and a container that does find it terminates with the mutex. -/
theorem careful_alive (P : Params) (s : State) :
    ((service P).ReachableWhen SomeoneHungry s → HolderAlive s) ∧
      ((service P).Reachable s → ∀ a t, (service P).step s a = some t → ¬ SomeoneHungry s a →
        ¬ HolderAlive t) := by
  constructor
  · intro h
    have hsearch : HoldersSearch s := by
      refine h.invariant (fun s h0 => ?_) fun s a t hs hok hstep => hs.step hok hstep
      rw [show s = start P from h0]
      exact ⟨fun _ hheld => (nomatch hheld), fun _ hheld => (nomatch hheld)⟩
    exact hsearch.alive
  · exact fun h a t hs hfed => exit_not_alive (searchersHold h) hs hfed

/-- A container searches, with the mutex. -/
theorem careful_alive_search :
    ∃ s, (service ⟨1, 1, 1⟩).ReachableWhen SomeoneHungry s ∧
      s.mutexForChefContainer = some 0 ∧ HolderAlive s := by
  obtain ⟨s, hs, hheld⟩ := System.exists_reachableWhen_of_run (M := service ⟨1, 1, 1⟩)
    SomeoneHungry (l := List.replicate 6 (.container 0 0))
    (p := fun s => s.mutexForChefContainer == some 0) rfl (by decide)
  exact ⟨s, hs, by simpa using hheld, (careful_alive ⟨1, 1, 1⟩ s).1 hs⟩

/-- The container has the mutex when the student that finds it before it has started is
subtracted. -/
def fedWhileSearching : List Act :=
  List.flatten [List.replicate 3 (.student 0), List.replicate 5 (.container 0 0),
    List.replicate 3 (.student 0), [.container 0 0]]

/-- After `fedWhileSearching` the container is gone and the mutex is locked. -/
theorem not_all_alive :
    ¬ ∀ (P : Params) (s : State), (service P).Reachable s → HolderAlive s := by
  intro hall
  obtain ⟨s, hs, htest⟩ := System.exists_reachable_of_run (M := service ⟨1, 1, 1⟩)
    (l := fedWhileSearching)
    (p := fun s => s.mutexForChefContainer == some 0 && s.containerPc 0 == .left) rfl (by decide)
  simp only [Bool.and_eq_true, beq_iff_eq] at htest
  exact (hall ⟨1, 1, 1⟩ s hs).container 0 htest.1 htest.2

end OsWork.Ports.BiryaniService

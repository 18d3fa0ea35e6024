import OsWork.Ports.CabRidesOccupancy

/-!
# The search of `take_cab` in `ass4/Q3/main.c`

What one search does to the table of the cabs, and whether it finds a cab.  The
search holds `mutex_for_passenger_cab`, so no other search runs; but the cabs
are released and given their next status without that mutex, between any two
accesses of the search.  `Others` is what happens there.

## Main results

* `pool_books_one_iff` — when the pool search books one cab and no other.
* `passenger_assigned_iff` — when the search finds a cab that is there.
* `poolSearchAmong_alone`, `premierSearchAmong_alone` — alone, the search is that of
  `CabRides`.
-/

namespace OsWork.Ports.CabRides

open OsWork.Verified.Transition

/-! ## One search, alone -/

/-- `c[cab_found].lock = 0`, when a cab has been found. -/
def release (r : (Nat → Cab) × Option Nat) : Nat → Cab :=
  match r.2 with
  | some i => Function.update r.1 i { r.1 i with lock := false }
  | none => r.1

/-- The search changes no status but that of `cab_found`; the locks that it has changed are `0`
after the release; and when the passenger gives up no cab has changed. -/
structure BooksOne (c : Nat → Cab) (r : (Nat → Cab) × Option Nat) : Prop where
  status : ∀ i, (r.1 i).rideStatus ≠ (c i).rideStatus → r.2 = some i
  released : ∀ i, (r.1 i).lock ≠ (c i).lock → (release r i).lock = false
  gaveUp : r.2 = none → r.1 = c

theorem BooksOne.of_book {c : Nat → Cab} {i : Nat} {st : RideStatus} :
    BooksOne c (book c i st, some i) where
  status j hne := by
    by_contra hji
    have hji : j ≠ i := fun heq => hji (congrArg some heq.symm)
    simp only [book, Function.update_of_ne hji, ne_eq, not_true_eq_false] at hne
  released j hne := by
    by_cases hji : j = i
    · rw [hji]
      simp only [release, Function.update_self]
    · simp only [book, Function.update_of_ne hji, ne_eq, not_true_eq_false] at hne
  gaveUp h := by cases h

theorem BooksOne.of_result {c : Nat → Cab} {t : RideType} {r : (Nat → Cab) × Option Nat}
    (h : SearchResult c t r) : BooksOne c r := by
  cases h with
  | noCab => exact ⟨fun _ hne => absurd rfl hne, fun _ hne => absurd rfl hne, fun _ => rfl⟩
  | joined i => exact .of_book
  | opened i => exact .of_book
  | premier i => exact .of_book

/-- What the second loop does to a table in which the first has booked the cab `i`. -/
theorem poolPass_both {c : Nat → Cab} {n i j : Nat}
    (hhalf : firstCab c .onRidePoolHalf n = some i)
    (hwait : firstCab c .waitState n = some j) :
    ∃ j', j' ≠ i ∧ poolPass n c =
      (book (book c i .onRidePoolFull) j' .onRidePoolHalf, some j') := by
  have hfirst : firstCab (book c i .onRidePoolFull) .waitState n ≠ none := by
    intro hnone
    have hji : j ≠ i := by
      rintro rfl
      have hst := firstCab_some hhalf
      rw [firstCab_some hwait] at hst
      cases hst
    have hj := List.find?_eq_none.mp hnone j (List.mem_of_find?_eq_some hwait)
    have hfree := List.find?_some hwait
    rw [book, Function.update_of_ne hji] at hj
    exact hj hfree
  obtain ⟨j', hj'⟩ := Option.ne_none_iff_exists'.mp hfirst
  refine ⟨j', ?_, ?_⟩
  · rintro rfl
    have hst := firstCab_some hj'
    simp only [book, Function.update_self] at hst
    cases hst
  · simp only [poolPass, hhalf, hj']

/-- The pool search books one cab and no other exactly when there is no half-full cab or no
waiting cab for it. -/
theorem pool_books_one_iff (n : Nat) (c : Nat → Cab) (passenger : Nat)
    (hpool : rideType passenger = .pool) :
    (∀ r, takeCabSearch n c (rideType passenger) waitTime = some r → BooksOne c r) ↔
      (firstCab c .onRidePoolHalf n = none ∨ firstCab c .waitState n = none) := by
  rw [hpool]
  constructor
  · intro hall
    by_contra hboth
    rw [not_or] at hboth
    obtain ⟨i, hhalf⟩ := Option.ne_none_iff_exists'.mp hboth.1
    obtain ⟨j, hwait⟩ := Option.ne_none_iff_exists'.mp hboth.2
    obtain ⟨j', hji, hpass⟩ := poolPass_both hhalf hwait
    have hone := hall _ (show takeCabSearch n c .pool waitTime =
      some (book (book c i .onRidePoolFull) j' .onRidePoolHalf, some j') by
        simp only [takeCabSearch, waitTime, poolSearch, hpass])
    have hfound := hone.status i (by
      simp only [book, Function.update_of_ne (Ne.symm hji), Function.update_self,
        firstCab_some hhalf, ne_eq, reduceCtorEq, not_false_eq_true])
    exact hji (Option.some.inj hfound)
  · intro hone r hr
    simp only [takeCabSearch, Option.some.injEq] at hr
    exact .of_result (hr ▸ poolSearch_result hone waitTime)

/-- Passenger 1 finds two waiting cabs. -/
theorem pool_books_one_iff_waiting :
    ∃ r, takeCabSearch 2 (fun _ => ⟨false, .waitState⟩) (rideType 1) waitTime = some r ∧
      BooksOne (fun _ => ⟨false, .waitState⟩) r :=
  ⟨_, rfl, (pool_books_one_iff 2 _ 1 (by decide)).mpr (.inl (by decide)) _ rfl⟩

/-- A half-full cab, and waiting ones after it. -/
def halfAndWaiting : Nat → Cab := fun i =>
  if i = 0 then ⟨false, .onRidePoolHalf⟩ else ⟨false, .waitState⟩

/-- Of a half-full and a waiting cab the search books both, and the lock of the first stays. -/
theorem not_all_booksOne : ¬ ∀ (n : Nat) (c : Nat → Cab) (passenger : Nat),
    rideType passenger = .pool →
      ∀ r, takeCabSearch n c (rideType passenger) waitTime = some r → BooksOne c r := by
  intro hall
  have hone := hall 2 halfAndWaiting 1 (by decide) _ rfl
  have hlock := hone.released 0 (by decide)
  revert hlock
  decide

/-! ## One search among others -/

/-- What the other threads do to the cabs before the `t`-th access of the search. -/
abbrev Others := Nat → (Nat → Cab) → Nat → Cab

/-- How many accesses there have been, and the cabs. -/
structure Seen where
  time : Nat
  cabs : Nat → Cab

variable (others : Others)

/-- The cabs as the next access sees them. -/
def Seen.look (s : Seen) : Seen where
  time := s.time + 1
  cabs := others s.time s.cabs

/-- `if (c[i].lock == 0)` and `if (c[i].ride_status == want)`, with the lock and the status that
a cab gets. -/
def tryCab (want st : RideStatus) (i : Nat) (s : Seen) : Seen × Bool :=
  let s₁ := s.look others
  if (s₁.cabs i).lock then (s₁, false)
  else
    let s₂ := s₁.look others
    if (s₂.cabs i).rideStatus = want then ({ s₂ with cabs := book s₂.cabs i st }, true)
    else (s₂, false)

/-- One `for` loop of the pool search over `k` cabs from the cab `i` on. -/
def scanAmong (want st : RideStatus) : Nat → Nat → Seen → Seen × Option Nat
  | 0, _, s => (s, none)
  | k + 1, i, s =>
      let r := tryCab others want st i s
      if r.2 then (r.1, some i) else scanAmong want st k (i + 1) r.1

/-- Both loops of the pool search; the second overwrites `cab_found`. -/
def poolPassAmong (n : Nat) (s : Seen) : Seen × Option Nat :=
  let half := scanAmong others .onRidePoolHalf .onRidePoolFull n 0 s
  let waiting := scanAmong others .waitState .onRidePoolHalf n 0 half.1
  (waiting.1, waiting.2.or half.2)

/-- `while (cab_found < 0 && time_to_wait > 0)` -/
def poolSearchAmong (n : Nat) : Nat → Seen → Seen × Option Nat
  | 0, s => (s, none)
  | timeToWait + 1, s =>
      let r := poolPassAmong others n s
      if r.2.isSome then r else poolSearchAmong n timeToWait r.1

/-- The premier search; `none` for the remainder by zero. -/
def premierSearchAmong (n : Nat) : Nat → Nat → Seen → Option (Seen × Option Nat)
  | 0, _, s => some (s, none)
  | timeToWait + 1, i, s =>
      let r := tryCab others .waitState .onRidePremier i s
      if r.2 then some (r.1, some i)
      else if n = 0 then none
      else premierSearchAmong n timeToWait ((i + 1) % n) r.1

def takeCabAmong (n : Nat) (ride : RideType) (s : Seen) : Option (Seen × Option Nat) :=
  match ride with
  | .pool => some (poolSearchAmong others n waitTime s)
  | .premier => premierSearchAmong others n waitTime 0 s

/-! ## Alone -/

/-- No other thread does anything. -/
def alone : Others := fun _ c => c

/-- The cab is unlocked and has the status `want`. -/
def isFree (c : Nat → Cab) (want : RideStatus) (i : Nat) : Bool :=
  !(c i).lock && (c i).rideStatus == want

theorem tryCab_alone (want st : RideStatus) (i : Nat) (s : Seen) :
    (tryCab alone want st i s).2 = isFree s.cabs want i ∧
      (tryCab alone want st i s).1.cabs =
        if isFree s.cabs want i then book s.cabs i st else s.cabs := by
  unfold tryCab isFree
  simp only [Seen.look, alone]
  by_cases hlock : (s.cabs i).lock = true
  · simp [hlock]
  · rw [Bool.not_eq_true] at hlock
    by_cases hst : (s.cabs i).rideStatus = want
    · simp [hlock, hst]
    · simp [hlock, hst]

/-- What a loop does to the table when it finds `found`. -/
def booked (c : Nat → Cab) (st : RideStatus) (found : Option Nat) : Nat → Cab :=
  match found with
  | some i => book c i st
  | none => c

theorem scanAmong_alone (want st : RideStatus) : ∀ (k i : Nat) (s : Seen),
    (scanAmong alone want st k i s).2 = (List.range' i k).find? (isFree s.cabs want) ∧
      (scanAmong alone want st k i s).1.cabs =
        booked s.cabs st ((List.range' i k).find? (isFree s.cabs want)) := by
  intro k
  induction k with
  | zero =>
      intro i s
      exact ⟨rfl, rfl⟩
  | succ k ih =>
      intro i s
      obtain ⟨hfound, hcabs⟩ := tryCab_alone want st i s
      rw [List.range'_succ, List.find?_cons, scanAmong]
      cases hfree : isFree s.cabs want i with
      | true =>
          rw [hfree] at hfound hcabs
          simp only [hfound, if_true, hcabs, booked, and_self]
      | false =>
          rw [hfree] at hfound hcabs
          simp only [Bool.false_eq_true, if_false] at hcabs
          simp only [hfound, Bool.false_eq_true, if_false]
          rw [← hcabs]
          exact ih (i + 1) _

theorem scanAmong_firstCab (want st : RideStatus) (n : Nat) (s : Seen) :
    (scanAmong alone want st n 0 s).2 = firstCab s.cabs want n ∧
      (scanAmong alone want st n 0 s).1.cabs = booked s.cabs st (firstCab s.cabs want n) := by
  have hscan := scanAmong_alone want st n 0 s
  rw [← List.range_eq_range'] at hscan
  exact hscan

theorem poolPassAmong_alone (n : Nat) (s : Seen) :
    ((poolPassAmong alone n s).1.cabs, (poolPassAmong alone n s).2) = poolPass n s.cabs := by
  obtain ⟨hfound, hcabs⟩ := scanAmong_firstCab .onRidePoolHalf .onRidePoolFull n s
  obtain ⟨hfound', hcabs'⟩ := scanAmong_firstCab .waitState .onRidePoolHalf n
    (scanAmong alone .onRidePoolHalf .onRidePoolFull n 0 s).1
  rw [hcabs] at hfound' hcabs'
  simp only [poolPassAmong, hfound, hfound', hcabs', poolPass]
  cases firstCab s.cabs .onRidePoolHalf n with
  | none =>
      cases hwait : firstCab s.cabs .waitState n with
      | none => simp [booked, hwait]
      | some j => simp [booked, hwait]
  | some i =>
      cases hwait : firstCab (book s.cabs i .onRidePoolFull) .waitState n with
      | none => simp [booked, hwait]
      | some j => simp [booked, hwait]

theorem poolSearchAmong_alone (n : Nat) : ∀ (timeToWait : Nat) (s : Seen),
    ((poolSearchAmong alone n timeToWait s).1.cabs, (poolSearchAmong alone n timeToWait s).2) =
      poolSearch n s.cabs timeToWait := by
  intro timeToWait
  induction timeToWait with
  | zero =>
      intro s
      rfl
  | succ timeToWait ih =>
      intro s
      have hpass := poolPassAmong_alone n s
      simp only [poolSearchAmong, poolSearch]
      rw [← hpass]
      cases hfound : (poolPassAmong alone n s).2 with
      | none =>
          simp only [Option.isSome_none, Bool.false_eq_true, if_false]
          exact ih _
      | some i => simp only [Option.isSome_some, if_true, hfound]

theorem premierSearchAmong_alone (n : Nat) : ∀ (timeToWait i : Nat) (s : Seen),
    (premierSearchAmong alone n timeToWait i s).map (fun r => (r.1.cabs, r.2)) =
      premierSearch n s.cabs timeToWait i := by
  intro timeToWait
  induction timeToWait with
  | zero =>
      intro i s
      rfl
  | succ timeToWait ih =>
      intro i s
      obtain ⟨hfound, hcabs⟩ := tryCab_alone .waitState .onRidePremier i s
      have hiff : isFree s.cabs .waitState i = true ↔
          (s.cabs i).lock = false ∧ (s.cabs i).rideStatus = .waitState := by
        simp [isFree]
      simp only [premierSearchAmong, premierSearch, hfound]
      by_cases hfree : isFree s.cabs .waitState i = true
      · rw [if_pos hfree, if_pos (hiff.mp hfree), Option.map_some, hcabs, if_pos hfree]
      · rw [if_neg hfree, if_neg (fun h => hfree (hiff.mpr h))]
        rw [if_neg hfree] at hcabs
        split
        · rfl
        · rw [← hcabs]
          exact ih _ _

/-- Alone, the search is that of the service. -/
theorem takeCabAmong_alone (n : Nat) (ride : RideType) (s : Seen) :
    (takeCabAmong alone n ride s).map (fun r => (r.1.cabs, r.2)) =
      takeCabSearch n s.cabs ride waitTime := by
  cases ride with
  | pool => exact congrArg some (poolSearchAmong_alone n waitTime s)
  | premier => exact premierSearchAmong_alone n waitTime 0 s

/-! ## A cab that is there -/

/-- The passenger may take a cab with the status. -/
def Takes (ride : RideType) (st : RideStatus) : Prop :=
  st = .waitState ∨ ride = .pool ∧ st = .onRidePoolHalf

/-- The cab is unlocked and in a state that the passenger may take. -/
structure Available (ride : RideType) (j : Nat) (c : Nat → Cab) : Prop where
  unlocked : (c j).lock = false
  takes : Takes ride (c j).rideStatus

/-- The cab stays available throughout; if it was half-full and has become a waiting cab, it
remains one. -/
structure Throughout (ride : RideType) (j : Nat) (others : Others) : Prop where
  keeps : ∀ t c, Available ride j c → Available ride j (others t c)
  waits : ∀ t c, (c j).rideStatus = .waitState → (others t c j).rideStatus = .waitState

section Search

variable {others} {ride : RideType} {want st : RideStatus} {i j n : Nat} {s : Seen}

/-- A cab is tried in vain: the available cab is still so, and is not what was wanted. -/
theorem tryCab_miss (hthrough : Throughout ride j others) (h : Available ride j s.cabs)
    (hmiss : (tryCab others want st i s).2 = false) :
    Available ride j (tryCab others want st i s).1.cabs ∧
      (i = j → ((tryCab others want st i s).1.cabs j).rideStatus ≠ want) ∧
      ((s.cabs j).rideStatus = .waitState →
        ((tryCab others want st i s).1.cabs j).rideStatus = .waitState) := by
  have h₁ : Available ride j (s.look others).cabs := hthrough.keeps s.time s.cabs h
  have hwaits : (s.cabs j).rideStatus = .waitState →
      ((s.look others).cabs j).rideStatus = .waitState := hthrough.waits s.time s.cabs
  unfold tryCab at hmiss ⊢
  by_cases hlock : ((s.look others).cabs i).lock = true
  · simp only [if_pos hlock]
    refine ⟨h₁, ?_, hwaits⟩
    rintro rfl
    rw [h₁.unlocked] at hlock
    cases hlock
  · simp only [if_neg hlock] at hmiss ⊢
    by_cases hst : (((s.look others).look others).cabs i).rideStatus = want
    · rw [if_pos hst] at hmiss
      cases hmiss
    · rw [if_neg hst]
      refine ⟨hthrough.keeps _ _ h₁, ?_, fun hwait => hthrough.waits _ _ (hwaits hwait)⟩
      rintro rfl
      exact hst

/-- A loop finds nothing: it has come by the available cab. -/
theorem scanAmong_miss (hthrough : Throughout ride j others) : ∀ (k i : Nat) {s : Seen},
    Available ride j s.cabs → (scanAmong others want st k i s).2 = none →
    Available ride j (scanAmong others want st k i s).1.cabs ∧
      ((s.cabs j).rideStatus = .waitState →
        ((scanAmong others want st k i s).1.cabs j).rideStatus = .waitState) ∧
      (i ≤ j → j < i + k → ((s.cabs j).rideStatus = .waitState → want ≠ .waitState) ∧
        (want = .onRidePoolHalf →
          ((scanAmong others want st k i s).1.cabs j).rideStatus = .waitState)) := by
  intro k
  induction k with
  | zero =>
      intro i s h _
      exact ⟨h, id, fun hle hlt => absurd hle (by omega)⟩
  | succ k ih =>
      intro i s h hnone
      rw [scanAmong] at hnone ⊢
      cases htry : (tryCab others want st i s).2 with
      | true =>
          simp only [htry, if_true] at hnone
          cases hnone
      | false =>
          simp only [htry, Bool.false_eq_true, if_false] at hnone ⊢
          obtain ⟨h', hmissed, hwait⟩ := tryCab_miss hthrough h htry
          obtain ⟨hlast, hwaits, hlater⟩ := ih (i + 1) h' hnone
          refine ⟨hlast, fun hw => hwaits (hwait hw), fun hle hlt => ?_⟩
          by_cases hij : i = j
          · have hne := hmissed hij
            constructor
            · intro hw heq
              exact hne (heq ▸ hwait hw)
            · intro heq
              apply hwaits
              rcases h'.takes with hw | ⟨-, hhalf⟩
              · exact hw
              · exact absurd (heq ▸ hhalf) hne
          · obtain ⟨hnot, hhalf⟩ := hlater (by omega) (by omega)
            exact ⟨fun hw => hnot (hwait hw), hhalf⟩

theorem scanAmong_lt : ∀ (k i : Nat) {s : Seen} {found : Nat},
    (scanAmong others want st k i s).2 = some found → found < i + k := by
  intro k
  induction k with
  | zero =>
      intro i s found h
      cases h
  | succ k ih =>
      intro i s found h
      rw [scanAmong] at h
      split at h
      · have hfound : i = found := Option.some.inj h
        omega
      · have hlt := ih (i + 1) h
        omega

/-- The first round of the pool search finds a cab. -/
theorem poolPassAmong_finds (hthrough : Throughout .pool j others) (hj : j < n)
    (h : Available .pool j s.cabs) : ∃ i, i < n ∧ (poolPassAmong others n s).2 = some i := by
  cases hhalf : (scanAmong others .onRidePoolHalf .onRidePoolFull n 0 s).2 with
  | some i =>
      cases hwait : (scanAmong others .waitState .onRidePoolHalf n 0
          (scanAmong others .onRidePoolHalf .onRidePoolFull n 0 s).1).2 with
      | some i' =>
          have hlt := scanAmong_lt n 0 hwait
          refine ⟨i', by omega, ?_⟩
          simp only [poolPassAmong, hwait, Option.some_or]
      | none =>
          have hlt := scanAmong_lt n 0 hhalf
          refine ⟨i, by omega, ?_⟩
          simp only [poolPassAmong, hwait, hhalf, Option.none_or]
  | none =>
      obtain ⟨h', -, hseen⟩ := scanAmong_miss hthrough n 0 h hhalf
      have hwaits := (hseen (Nat.zero_le j) (by omega)).2 rfl
      cases hwait : (scanAmong others .waitState .onRidePoolHalf n 0
          (scanAmong others .onRidePoolHalf .onRidePoolFull n 0 s).1).2 with
      | some i =>
          have hlt := scanAmong_lt n 0 hwait
          refine ⟨i, by omega, ?_⟩
          simp only [poolPassAmong, hwait, Option.some_or]
      | none =>
          obtain ⟨-, -, hseen'⟩ := scanAmong_miss hthrough n 0 h' hwait
          exact absurd rfl ((hseen' (Nat.zero_le j) (by omega)).1 hwaits)

/-- The premier search that has come to the cab `i` goes on to the cab `j`. -/
theorem premierSearchAmong_finds (hthrough : Throughout .premier j others) (hj : j < n) :
    ∀ (timeToWait i : Nat) {s : Seen}, i ≤ j → j < i + timeToWait →
      Available .premier j s.cabs →
      ∃ s' i', i' < n ∧ premierSearchAmong others n timeToWait i s = some (s', some i') := by
  intro timeToWait
  induction timeToWait with
  | zero =>
      intro i s hle hlt _
      omega
  | succ timeToWait ih =>
      intro i s hle hlt h
      simp only [premierSearchAmong]
      cases htry : (tryCab others .waitState .onRidePremier i s).2 with
      | true => exact ⟨_, i, by omega, rfl⟩
      | false =>
          obtain ⟨h', hmissed, -⟩ := tryCab_miss hthrough h htry
          have hij : i ≠ j := by
            intro heq
            rcases h'.takes with hw | ⟨hpool, -⟩
            · exact hmissed heq hw
            · cases hpool
          have hnext : (i + 1) % n = i + 1 := Nat.mod_eq_of_lt (by omega)
          simp only [Bool.false_eq_true, if_false, if_neg (show n ≠ 0 by omega), hnext]
          exact ih (i + 1) (by omega) (by omega) h'

end Search

/-- One cab is free, and premier passengers ride in the others. -/
def oneFree (j : Nat) : Nat → Cab := fun i =>
  if i = j then ⟨false, .waitState⟩ else ⟨false, .onRidePremier⟩

/-- The premier search does not come to a cab beyond its wait time. -/
theorem premierSearch_oneFree {n j : Nat} (hj : j < n) : ∀ (timeToWait i : Nat),
    i + timeToWait ≤ j → premierSearch n (oneFree j) timeToWait i = some (oneFree j, none) := by
  intro timeToWait
  induction timeToWait with
  | zero =>
      intro i _
      rfl
  | succ timeToWait ih =>
      intro i hle
      have hbusy : oneFree j i = ⟨false, .onRidePremier⟩ := if_neg (by omega)
      have hnext : (i + 1) % n = i + 1 := Nat.mod_eq_of_lt (by omega)
      have hpremier : ¬ (false = false ∧ RideStatus.onRidePremier = .waitState) := by decide
      rw [premierSearch, hbusy, if_neg hpremier, if_neg (by omega), hnext]
      exact ih (i + 1) (by omega)

theorem alone_throughout (ride : RideType) (j : Nat) : Throughout ride j alone :=
  ⟨fun _ _ h => h, fun _ _ h => h⟩

/-- A passenger for whom there is a cab throughout the search always gets one exactly when it is
a pool passenger or the cab is among the first `wait_time`. -/
theorem passenger_assigned_iff (n : Nat) (ride : RideType) (j : Nat) (hj : j < n) :
    (∀ (others : Others) (c : Nat → Cab), Throughout ride j others → Available ride j c →
      ∃ s i, i < n ∧ takeCabAmong others n ride ⟨0, c⟩ = some (s, some i)) ↔
      (ride = .pool ∨ j < waitTime) := by
  constructor
  · intro hall
    cases ride with
    | pool => exact .inl rfl
    | premier =>
        right
        by_contra hfar
        obtain ⟨s, i, -, hfound⟩ := hall alone (oneFree j) (alone_throughout _ j)
          ⟨by simp [oneFree], .inl (by simp [oneFree])⟩
        have halone := takeCabAmong_alone n .premier ⟨0, oneFree j⟩
        rw [hfound, takeCabSearch, premierSearch_oneFree hj waitTime 0 (by omega)] at halone
        cases congrArg Prod.snd (Option.some.inj halone)
  · intro hnear others c hthrough h
    cases ride with
    | pool =>
        obtain ⟨i, hi, hfound⟩ := poolPassAmong_finds (s := ⟨0, c⟩) hthrough hj h
        refine ⟨(poolPassAmong others n ⟨0, c⟩).1, i, hi, ?_⟩
        simp only [takeCabAmong, waitTime, poolSearchAmong, hfound, Option.isSome_some, if_true]
        rw [← hfound]
    | premier =>
        have hlt : j < waitTime := hnear.resolve_left (by decide)
        exact premierSearchAmong_finds hthrough hj waitTime 0 (Nat.zero_le j) (by omega) h

/-- The last of twenty cabs is free. -/
theorem passenger_assigned_iff_last : ∃ s i, i < 20 ∧
    takeCabAmong alone 20 .premier ⟨0, oneFree 19⟩ = some (s, some i) :=
  (passenger_assigned_iff 20 .premier 19 (by decide)).mpr (.inr (by decide)) alone (oneFree 19)
    (alone_throughout _ _) ⟨by decide, .inl (by decide)⟩

/-- Twenty premier passengers take the first cabs of 21. -/
def twentyRides : List Act := (List.range 20).map fun k => .takeCab (2 * k)

/-- Then passenger 40 finds none, although the last cab is free. -/
theorem not_all_assigned : ∃ s, (service ⟨21, 41, 1⟩).Reachable s ∧
    Available (rideType 40) 20 s.cabs ∧
    ¬ ∃ u i, i < 21 ∧ takeCabAmong alone 21 (rideType 40) ⟨0, s.cabs⟩ = some (u, some i) := by
  obtain ⟨s, hs, htest⟩ := System.exists_reachable_of_run (M := service ⟨21, 41, 1⟩)
    (l := twentyRides)
    (p := fun s => s.cabs 20 == ⟨false, .waitState⟩ &&
      ((takeCabSearch 21 s.cabs (rideType 40) waitTime).map Prod.snd == some none)) rfl
    (by decide +kernel)
  simp only [Bool.and_eq_true, beq_iff_eq] at htest
  obtain ⟨hfree, hnone⟩ := htest
  refine ⟨s, hs, ⟨by rw [hfree], .inl (by rw [hfree])⟩, ?_⟩
  rintro ⟨u, i, -, hfound⟩
  have halone := takeCabAmong_alone 21 (rideType 40) ⟨0, s.cabs⟩
  rw [hfound] at halone
  rw [← halone] at hnone
  cases Option.some.inj hnone

end OsWork.Ports.CabRides

import OsWork.Verified.Transition
import Mathlib.Logic.Function.Basic

/-!
# The cab service of `ass4/Q3/main.c`

Passenger threads book a cab in `take_cab`, ride, and ask for payment in
`do_payment`; payment servers walk over the payment slots in
`server_in_action` and give the cab its next status.

The three critical sections (the search of `take_cab` under
`mutex_for_passenger_cab`, `do_payment` under `mutex_for_payment`, one loop
iteration of `server_in_action` under `mutex_for_payment_server`) are single
steps here; everything a passenger does between them is a step of its own.
In particular the argument `c[cab_found].ride_status` of the call of
`do_payment` is read *before* `mutex_for_payment` is taken, so the read and the
critical section are two steps (`endRide`, `doPayment`).

The arrays `c`, `p` and `pay` are total functions on `Nat`, and an index the
program never reaches keeps its zero initialisation.  The source has room for
100 cabs, passengers and servers and does not check the numbers it reads: the
results are about the program for numbers up to 100.
-/

namespace OsWork.Ports.CabRides

open OsWork.Verified.Transition

/-! ## Cabs and passengers -/

/-- `ride_status` of a cab. -/
inductive RideStatus
  | waitState
  | onRidePremier
  | onRidePoolFull
  | onRidePoolHalf
  deriving DecidableEq, Repr

/-- `ride_type` of a passenger. -/
inductive RideType
  | premier
  | pool
  deriving DecidableEq, Repr

/-- `struct cabs`; `cab_number` is the index. -/
structure Cab where
  lock : Bool
  rideStatus : RideStatus
  deriving DecidableEq, Repr

/-- `passenger_init`: even passengers ask for a premier cab. -/
def rideType (passenger : Nat) : RideType :=
  if passenger % 2 = 0 then .premier else .pool

/-- `passenger->wait_time` as `passenger_init` sets it. -/
def waitTime : Nat := 20

/-- `c[i].lock = 1; c[i].ride_status = st`. -/
def book (c : Nat → Cab) (i : Nat) (st : RideStatus) : Nat → Cab :=
  Function.update c i { lock := true, rideStatus := st }

/-! ## The search of `take_cab` -/

/-- One `for` loop of the pool search: the first unlocked cab among the first
`n` whose status is `want`. -/
def firstCab (c : Nat → Cab) (want : RideStatus) (n : Nat) : Option Nat :=
  (List.range n).find? fun i => !(c i).lock && (c i).rideStatus == want

/-- One round of the pool search: the loop over half-full cabs and, *whatever it
found*, the loop over waiting cabs, which overwrites `cab_found`. -/
def poolPass (n : Nat) (c : Nat → Cab) : (Nat → Cab) × Option Nat :=
  let half := firstCab c .onRidePoolHalf n
  let c₁ := match half with
    | some i => book c i .onRidePoolFull
    | none => c
  match firstCab c₁ .waitState n with
  | some j => (book c₁ j .onRidePoolHalf, some j)
  | none => (c₁, half)

/-- `while (cab_found < 0 && time_to_wait > 0)`. -/
def poolSearch (n : Nat) (c : Nat → Cab) : Nat → (Nat → Cab) × Option Nat
  | 0 => (c, none)
  | timeToWait + 1 =>
      match poolPass n c with
      | (c', some i) => (c', some i)
      | (c', none) => poolSearch n c' timeToWait

/-- The premier search: one cab per wait tick, `i = (++i) % n`.  With no cab
at all the remainder divides by zero and the program dies (`none`). -/
def premierSearch (n : Nat) (c : Nat → Cab) :
    Nat → Nat → Option ((Nat → Cab) × Option Nat)
  | 0, _ => some (c, none)
  | timeToWait + 1, i =>
      if (c i).lock = false ∧ (c i).rideStatus = .waitState then
        some (book c i .onRidePremier, some i)
      else if n = 0 then none
      else premierSearch n c timeToWait ((i + 1) % n)

/-- The locked search of `take_cab`: the new cab table and `cab_found`. -/
def takeCabSearch (n : Nat) (c : Nat → Cab) (ride : RideType)
    (timeToWait : Nat) : Option ((Nat → Cab) × Option Nat) :=
  match ride with
  | .pool => some (poolSearch n c timeToWait)
  | .premier => premierSearch n c timeToWait 0

/-! ## Payments -/

/-- `struct payment_servers`. -/
structure Pay where
  cabNumber : Nat
  reduceStatusTo : RideStatus
  paymentStatus : Bool
  deriving DecidableEq, Repr

/-- The value `do_payment` stores in `reduce_status_to`; for any other status
the field is left as it was. -/
def reduceStatusTo (status old : RideStatus) : RideStatus :=
  match status with
  | .onRidePoolFull => .onRidePoolHalf
  | .onRidePoolHalf => .waitState
  | .onRidePremier => .waitState
  | .waitState => old

/-! ## The running program -/

/-- Where a passenger thread stands in `take_cab`. -/
inductive Passenger
  /-- before the locked search -/
  | arriving
  /-- `cab_found = cab`, its lock still set -/
  | booked (cab : Nat)
  /-- the lock is released, the ride goes on -/
  | riding (cab : Nat)
  /-- the argument `c[cab].ride_status` has been read -/
  | paying (cab : Nat) (status : RideStatus)
  /-- in `wait_for_payment(slot)` -/
  | waiting (slot : Nat)
  /-- no cab was found, `total_passengers_left--` is still to come -/
  | givingUp
  | left
  deriving DecidableEq, Repr

/-- `n` cabs, `m` passengers, `k` payment servers. -/
structure Params where
  n : Nat
  m : Nat
  k : Nat

/-- The globals and the position of every thread.  A server is `some i` while
it is about to look at slot `i` and `none` once it has left. -/
structure State where
  cabs : Nat → Cab
  totalPassengersLeft : Int
  pay : Nat → Pay
  currentEmptyPaySlot : Nat
  passenger : Nat → Passenger
  server : Nat → Option Nat

/-- The state in which `main` starts the threads. -/
def start (P : Params) : State where
  cabs := fun _ => { lock := false, rideStatus := .waitState }
  totalPassengersLeft := P.m
  pay := fun _ =>
    { cabNumber := 0, reduceStatusTo := .waitState, paymentStatus := false }
  currentEmptyPaySlot := 0
  passenger := fun _ => .arriving
  server := fun _ => some 0

/-- The thread that moves, and in which of its steps. -/
inductive Act
  | takeCab (p : Nat)
  | giveUp (p : Nat)
  | releaseCab (p : Nat)
  | endRide (p : Nat)
  | doPayment (p : Nat)
  | waitForPayment (p : Nat)
  | serverInAction (j : Nat)
  deriving DecidableEq, Repr

namespace State

variable (s : State)

/-- Passenger `p` moves on to `pc`. -/
def setPassenger (p : Nat) (pc : Passenger) : State :=
  { s with passenger := Function.update s.passenger p pc }

/-- The locked search of `take_cab`. -/
def takeCab (P : Params) (p : Nat) : Option State :=
  match s.passenger p with
  | .arriving =>
      match takeCabSearch P.n s.cabs (rideType p) waitTime with
      | some (c, some i) => some ({ s with cabs := c }.setPassenger p (.booked i))
      | some (c, none) => some ({ s with cabs := c }.setPassenger p .givingUp)
      | none => none
  | _ => none

/-- `total_passengers_left--` of a passenger who found no cab. -/
def giveUp (p : Nat) : Option State :=
  match s.passenger p with
  | .givingUp =>
      some ({ s with totalPassengersLeft := s.totalPassengersLeft - 1 }.setPassenger
        p .left)
  | _ => none

/-- `c[cab_found].lock = 0`. -/
def releaseCab (p : Nat) : Option State :=
  match s.passenger p with
  | .booked i =>
      some ({ s with
        cabs := Function.update s.cabs i { s.cabs i with lock := false } }.setPassenger
        p (.riding i))
  | _ => none

/-- The ride is over: the argument `c[cab_found].ride_status` is read. -/
def endRide (p : Nat) : Option State :=
  match s.passenger p with
  | .riding i => some (s.setPassenger p (.paying i (s.cabs i).rideStatus))
  | _ => none

/-- The critical section of `do_payment`. -/
def doPayment (p : Nat) : Option State :=
  match s.passenger p with
  | .paying i status =>
      let slot := s.currentEmptyPaySlot
      some ({ s with
        pay := Function.update s.pay slot
          { cabNumber := i
            reduceStatusTo := reduceStatusTo status (s.pay slot).reduceStatusTo
            paymentStatus := true }
        currentEmptyPaySlot := slot + 1 }.setPassenger p (.waiting slot))
  | _ => none

/-- `wait_for_payment` returns once the status is no longer `1`. -/
def waitForPayment (p : Nat) : Option State :=
  match s.passenger p with
  | .waiting slot =>
      if (s.pay slot).paymentStatus then none else some (s.setPassenger p .left)
  | _ => none

/-- What a server does with slot `i` once it holds `mutex_for_payment_server`. -/
def serveSlot (i : Nat) : State :=
  if (s.pay i).paymentStatus then
    { s with
      cabs := Function.update s.cabs (s.pay i).cabNumber
        { s.cabs (s.pay i).cabNumber with rideStatus := (s.pay i).reduceStatusTo }
      pay := Function.update s.pay i { s.pay i with paymentStatus := false }
      totalPassengersLeft := s.totalPassengersLeft - 1 }
  else s

/-- One iteration of the loop of `server_in_action`. -/
def serverInAction (j : Nat) : Option State :=
  match s.server j with
  | some i =>
      if s.totalPassengersLeft ≤ 0 then
        some { s with server := Function.update s.server j none }
      else
        some { s.serveSlot i with
          server := Function.update s.server j (some ((i + 1) % 500)) }
  | none => none

end State

/-- One step of the program. -/
def step (P : Params) (s : State) : Act → Option State
  | .takeCab p => if p < P.m then s.takeCab P p else none
  | .giveUp p => if p < P.m then s.giveUp p else none
  | .releaseCab p => if p < P.m then s.releaseCab p else none
  | .endRide p => if p < P.m then s.endRide p else none
  | .doPayment p => if p < P.m then s.doPayment p else none
  | .waitForPayment p => if p < P.m then s.waitForPayment p else none
  | .serverInAction j => if j < P.k then s.serverInAction j else none

/-- The cab service with `P.n` cabs, `P.m` passengers and `P.k` servers. -/
def service (P : Params) : System State Act where
  init s := s = start P
  step := step P

end OsWork.Ports.CabRides

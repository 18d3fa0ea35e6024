import OsWork.Verified.Transition
import OsWork.Verified.Ring

/-!
# The line buffer of the console

`consoleintr` and `consoleread` of `console.c`.  Both hold `cons.lock` but for the `sleep`
of a reader, so a step is what happens from one release of the lock to the next: an
interrupt with the characters that `getc` returns, or a reader from its call, or its last
`sleep`, to the next `sleep` or the return.  The three indices are 32-bit words, and any
number of readers may be asleep.  `consputc` and the listing of the processes do not
touch the buffer.

A call of `consoleread` has a name of type `K`, under which what it has stored at `dst` and
its result are kept.

## Main results

* `Input.Ok.intr` — an interrupt appends to what is committed, and takes nothing from it.
* `line_queue` — the characters that have been committed are those that readers have taken
  and those that still wait, in this order.
* `not_all_returned` — a reader that is killed in mid-read keeps what it has taken.
-/

namespace OsWork.Ports.Console

open OsWork.Verified.Transition OsWork.Verified.Ring
open Function (update)

def INPUT_BUF : Nat := 128

/-- A C `uint`. -/
abbrev Word := BitVec 32

abbrev Byte := UInt8

/-- `struct input` -/
structure Input where
  buf : Nat → Byte
  /-- read index -/
  r : Word
  /-- write index -/
  w : Word
  /-- edit index -/
  e : Word

/-- Control-x -/
def C (x : Char) : Byte := UInt8.ofNat (x.toNat - '@'.toNat)

def newline : Byte := 10

def carriageReturn : Byte := 13

/-! ## `consoleintr` -/

namespace Input

variable (i : Input)

/-- `input.e--` -/
def erase : Input := { i with e := i.e - 1 }

/-- `input.buf[input.e++ % INPUT_BUF] = c` -/
def put (c : Byte) : Input :=
  { i with buf := update i.buf (i.e.toNat % INPUT_BUF) c, e := i.e + 1 }

/-- The loop of control-U. -/
def killLine : Nat → Input → Input
  | 0, i => i
  | fuel + 1, i =>
      if i.e ≠ i.w ∧ i.buf ((i.e - 1).toNat % INPUT_BUF) ≠ newline then killLine fuel i.erase
      else i

/-- What follows the store of `c`. -/
def commit (c : Byte) : Input :=
  if c = newline ∨ c = C 'D' ∨ i.e = i.r + BitVec.ofNat 32 INPUT_BUF then { i with w := i.e }
  else i

/-- The body of the loop of `consoleintr`. -/
def intr (c : Byte) : Input :=
  if c = C 'P' then i
  else if c = C 'U' then killLine (i.e - i.w).toNat i
  else if c = C 'H' ∨ c = 0x7F then if i.e ≠ i.w then i.erase else i
  else if c ≠ 0 ∧ (i.e - i.r).toNat < INPUT_BUF then
    let c := if c = carriageReturn then newline else c
    (i.put c).commit c
  else i

/-- `consoleintr`, when `getc` returns `cs`. -/
def consoleintr (cs : List Byte) : Input := cs.foldl intr i

/-! ## `consoleread` -/

/-- `input.buf[input.r % INPUT_BUF]` -/
def next : Byte := i.buf (i.r.toNat % INPUT_BUF)

/-- `input.r++` -/
def get : Input := { i with r := i.r + 1 }

end Input

/-- How far a reader has come: what is stored at `dst`, the `n` that is left, and if the loop
has ended; it has not if there is nothing to read. -/
structure Read where
  input : Input
  dst : List Byte
  n : Nat
  ended : Bool

/-- The loop of `consoleread` as far as there is something to read. -/
def readLoop (target : Nat) : Nat → Input → List Byte → Read
  | 0, i, dst => ⟨i, dst, 0, true⟩
  | n + 1, i, dst =>
      if i.r = i.w then ⟨i, dst, n + 1, false⟩
      else if i.next = C 'D' then
        -- for the next reader, if this one has something to return
        ⟨if n + 1 < target then i else i.get, dst, n + 1, true⟩
      else if i.next = newline then ⟨i.get, dst ++ [i.next], n, true⟩
      else readLoop target n i.get (dst ++ [i.next])

/-- A call of `consoleread`. -/
inductive Call
  | fresh
  | asleep (target n : Nat) (dst : List Byte)
  | returned (dst : List Byte) (value : Int)

variable {K : Type}

structure State (K : Type) where
  input : Input
  call : K → Call

inductive Act (K : Type)
  | intr (cs : List Byte)
  /-- a call with the argument `n`; `killed` is `myproc()->killed` -/
  | read (k : K) (n : Int) (killed : Bool)
  /-- `sleep` returns -/
  | wake (k : K) (killed : Bool)

/-- Where the call is after the loop has gone as far as it can. -/
def Read.call (x : Read) (target : Nat) (killed : Bool) : Call :=
  if x.ended then .returned x.dst (target - x.n)
  else if killed then .returned x.dst (-1)
  else .asleep target x.n x.dst

/-- The loop that a call is in, for the labels of its steps. -/
def Call.loop : Call → Act K → Option (Nat × Nat × List Byte)
  | .fresh, .read _ n _ => some (n.toNat, n.toNat, [])
  | .asleep target n dst, .wake _ _ => some (target, n, dst)
  | _, _ => none

section Steps

variable [DecidableEq K]

namespace State

/-- A step of the call `k`. -/
def advance (s : State K) (k : K) (killed : Bool) (x : Nat × Nat × List Byte) : State K :=
  let y := readLoop x.1 x.2.1 s.input x.2.2
  { input := y.input, call := update s.call k (y.call x.1 killed) }

def step (s : State K) : Act K → Option (State K)
  | .intr cs => some { s with input := s.input.consoleintr cs }
  | .read k n killed => ((s.call k).loop (Act.read k n killed)).map (s.advance k killed)
  | .wake k killed => ((s.call k).loop (Act.wake k killed)).map (s.advance k killed)

end State

/-- The console, with the indices anywhere. -/
def console (K : Type) [DecidableEq K] : System (State K) (Act K) where
  init s := s.input.r = s.input.w ∧ s.input.w = s.input.e ∧ ∀ k, s.call k = .fresh
  step := State.step

/-! ## What has happened -/

/-- The characters that have been committed, and those that calls have taken. -/
structure History (K : Type) where
  committed : List Byte
  taken : List (K × Byte)

/-- The characters from `input.r` to `input.w`. -/
def Input.pending (i : Input) : List Byte :=
  window INPUT_BUF i.buf i.r.toNat (i.w - i.r).toNat

/-- What an interrupt commits: at each character the part of the buffer that `input.w` is moved
over. -/
def Input.commits : Input → List Byte → List Byte
  | _, [] => []
  | i, c :: cs =>
      window INPUT_BUF (i.intr c).buf i.w.toNat ((i.intr c).w - i.w).toNat ++ (i.intr c).commits cs

/-- What a reader takes: the part of the buffer that `input.r` is moved over. -/
def Input.takes (i j : Input) : List Byte := window INPUT_BUF i.buf i.r.toNat (j.r - i.r).toNat

def History.read (h : History K) (s : State K) (k : K) (x : Nat × Nat × List Byte) : History K :=
  { h with
    taken := h.taken ++ (s.input.takes (readLoop x.1 x.2.1 s.input x.2.2).input).map (k, ·) }

def History.record (s : State K) (a : Act K) (h : History K) : History K :=
  match a with
  | .intr cs => { h with committed := h.committed ++ s.input.commits cs }
  | .read k n killed => (((s.call k).loop (Act.read k n killed)).map (h.read s k)).getD h
  | .wake k killed => (((s.call k).loop (Act.wake k killed)).map (h.read s k)).getD h

/-- The console with its history. -/
def recorded (K : Type) [DecidableEq K] : System (State K × History K) (Act K) :=
  (console K).withGhost (fun _ => ⟨[], []⟩) History.record

/-- The characters that the call `k` has taken. -/
def History.by (h : History K) (k : K) : List Byte :=
  (h.taken.filter fun x => x.1 = k).map Prod.snd

end Steps

/-! ## The law -/

/-- All that the call has taken it has stored, and returned if it has returned; or it has
taken one control-D and returned nothing. -/
def Call.Gave (taken : List Byte) : Call → Prop
  | .fresh => taken = []
  | .asleep target n dst =>
      taken = dst ∧ dst.length + n = target ∧ 0 < n ∧ C 'D' ∉ dst ∧ newline ∉ dst
  | .returned dst value =>
      value = dst.length ∧ newline ∉ dst.dropLast ∧
        (taken = dst ∧ C 'D' ∉ dst ∨ dst = [] ∧ taken = [C 'D'])

/-- The process has been killed in the call. -/
def Call.GaveUp (taken : List Byte) : Call → Prop
  | .returned dst value => value = -1 ∧ taken = dst
  | _ => False

/-- The indices of the buffer are in their order. -/
structure Input.Ok (i : Input) : Prop where
  low : (i.w - i.r).toNat ≤ (i.e - i.r).toNat
  high : (i.e - i.r).toNat ≤ INPUT_BUF

/-- The console is a queue of lines. -/
structure LineQueue [DecidableEq K] (s : State K) (h : History K) : Prop where
  indices : s.input.Ok
  order : h.committed = h.taken.map Prod.snd ++ s.input.pending
  calls : ∀ k, (s.call k).Gave (h.by k) ∨ (s.call k).GaveUp (h.by k)

/-! ## Interrupts -/

variable {i j : Input} {c : Byte}

/-- Nothing but the part between `input.w` and `input.e` changes. -/
structure Input.Edits (i j : Input) : Prop where
  ok : j.Ok
  r : j.r = i.r
  w : j.w = i.w
  pending : j.pending = i.pending

theorem Input.Ok.refl (h : i.Ok) : i.Edits i := ⟨h, rfl, rfl, rfl⟩

theorem Input.Ok.erase (h : i.Ok) (hne : i.e ≠ i.w) : i.Edits i.erase where
  ok := by
    have hlow := h.low
    have hhigh := h.high
    unfold INPUT_BUF at hhigh
    constructor
    · show (i.w - i.r).toNat ≤ (i.e - 1 - i.r).toNat
      bv_omega
    · show (i.e - 1 - i.r).toNat ≤ 128
      bv_omega
  r := rfl
  w := rfl
  pending := rfl

theorem Input.Edits.trans {l : Input} (h : i.Edits j) (h' : j.Edits l) : i.Edits l where
  ok := h'.ok
  r := h'.r.trans h.r
  w := h'.w.trans h.w
  pending := h'.pending.trans h.pending

theorem Input.Ok.killLine (fuel : Nat) : ∀ {i : Input}, i.Ok → i.Edits (Input.killLine fuel i) := by
  induction fuel with
  | zero => exact fun h => h.refl
  | succ fuel ih =>
      intro i h
      unfold Input.killLine
      by_cases hmore : i.e ≠ i.w ∧ i.buf ((i.e - 1).toNat % INPUT_BUF) ≠ newline
      · rw [if_pos hmore]
        have herase := h.erase hmore.1
        exact herase.trans (ih herase.ok)
      · rw [if_neg hmore]
        exact h.refl

/-- There is room for a character. -/
theorem Input.Ok.put (h : i.Ok) (hroom : (i.e - i.r).toNat < INPUT_BUF) (c : Byte) :
    i.Edits (i.put c) where
  ok := by
    have hlow := h.low
    unfold INPUT_BUF at hroom
    constructor
    · show (i.w - i.r).toNat ≤ (i.e + 1 - i.r).toNat
      bv_omega
    · show (i.e + 1 - i.r).toNat ≤ 128
      bv_omega
  r := rfl
  w := rfl
  pending := by
    have hcell : i.e.toNat % INPUT_BUF = (i.r.toNat + (i.e - i.r).toNat) % INPUT_BUF := by
      unfold INPUT_BUF
      bv_omega
    unfold Input.pending Input.put
    simp only
    rw [hcell]
    exact window_update h.low hroom c

/-- What `input.w` is moved over is committed. -/
theorem Input.Ok.commit (h : i.Ok) :
    ({ i with w := i.e } : Input).Ok ∧ ({ i with w := i.e } : Input).pending =
      i.pending ++ window INPUT_BUF i.buf i.w.toNat (i.e - i.w).toNat := by
  have hlow := h.low
  have hlen : (i.e - i.r).toNat = (i.w - i.r).toNat + (i.e - i.w).toNat := by bv_omega
  have hstart : (i.r.toNat + (i.w - i.r).toNat) % INPUT_BUF = i.w.toNat % INPUT_BUF := by
    unfold INPUT_BUF
    bv_omega
  refine ⟨⟨Nat.le_refl _, h.high⟩, ?_⟩
  unfold Input.pending
  simp only
  rw [hlen, window_add, window_congr hstart]

/-- An interrupt with one character. -/
structure Input.Interrupts (i j : Input) : Prop where
  ok : j.Ok
  r : j.r = i.r
  pending : j.pending = i.pending ++ window INPUT_BUF j.buf i.w.toNat (j.w - i.w).toNat

theorem Input.Edits.interrupts (h : i.Edits j) : i.Interrupts j where
  ok := h.ok
  r := h.r
  pending := by
    have hzero : (j.w - i.w).toNat = 0 := by
      rw [h.w, BitVec.sub_self]
      rfl
    rw [hzero, window_zero, List.append_nil, h.pending]

theorem Input.Edits.commit (h : i.Edits j) (c : Byte) : i.Interrupts (j.commit c) := by
  unfold Input.commit
  split
  · obtain ⟨hok, hpending⟩ := h.ok.commit
    refine ⟨hok, h.r, ?_⟩
    rw [hpending, h.pending, h.w]
  · exact h.interrupts

/-- An interrupt appends to what is committed, and takes nothing from it. -/
theorem Input.Ok.intr (h : i.Ok) (c : Byte) : i.Interrupts (i.intr c) := by
  unfold Input.intr
  by_cases hlist : c = C 'P'
  · rw [if_pos hlist]
    exact h.refl.interrupts
  rw [if_neg hlist]
  by_cases hkill : c = C 'U'
  · rw [if_pos hkill]
    exact (h.killLine _).interrupts
  rw [if_neg hkill]
  by_cases hback : c = C 'H' ∨ c = 0x7F
  · rw [if_pos hback]
    by_cases hne : i.e ≠ i.w
    · rw [if_pos hne]
      exact (h.erase hne).interrupts
    · rw [if_neg hne]
      exact h.refl.interrupts
  rw [if_neg hback]
  by_cases hroom : c ≠ 0 ∧ (i.e - i.r).toNat < INPUT_BUF
  · rw [if_pos hroom]
    exact (h.put hroom.2 _).commit _
  · rw [if_neg hroom]
    exact h.refl.interrupts

/-- Backspace and control-U leave alone what has been committed. -/
theorem Input.Ok.edit (h : i.Ok) (hc : c = C 'U' ∨ c = C 'H' ∨ c = 0x7F) : i.Edits (i.intr c) := by
  have hlist : c ≠ C 'P' := by
    rcases hc with rfl | rfl | rfl <;> decide
  unfold Input.intr
  rw [if_neg hlist]
  by_cases hkill : c = C 'U'
  · rw [if_pos hkill]
    exact h.killLine _
  rw [if_neg hkill, if_pos (hc.resolve_left hkill)]
  by_cases hne : i.e ≠ i.w
  · rw [if_pos hne]
    exact h.erase hne
  · rw [if_neg hne]
    exact h.refl

theorem Input.Ok.consoleintr (cs : List Byte) : ∀ {i : Input}, i.Ok →
    (i.consoleintr cs).Ok ∧ (i.consoleintr cs).pending = i.pending ++ i.commits cs := by
  induction cs with
  | nil =>
      intro i h
      exact ⟨h, (List.append_nil _).symm⟩
  | cons c cs ih =>
      intro i h
      have hintr := h.intr c
      obtain ⟨hok, hpending⟩ := ih hintr.ok
      refine ⟨hok, ?_⟩
      show ((i.intr c).consoleintr cs).pending = i.pending ++ (_ ++ (i.intr c).commits cs)
      rw [hpending, hintr.pending, List.append_assoc]

/-! ## Readers -/

/-- One character is taken. -/
theorem Input.Ok.get (h : i.Ok) (hne : i.r ≠ i.w) :
    i.get.Ok ∧ i.pending = i.next :: i.get.pending := by
  have hlow := h.low
  have hhigh := h.high
  unfold INPUT_BUF at hhigh
  obtain ⟨n, hn⟩ : ∃ n, (i.w - i.r).toNat = n + 1 := by
    refine ⟨(i.w - i.r).toNat - 1, ?_⟩
    bv_omega
  have hrest : (i.w - (i.r + 1)).toNat = n := by bv_omega
  have hstart : (i.r.toNat + 1) % INPUT_BUF = (i.r + 1).toNat % INPUT_BUF := by
    unfold INPUT_BUF
    bv_omega
  constructor
  · constructor
    · show (i.w - (i.r + 1)).toNat ≤ (i.e - (i.r + 1)).toNat
      bv_omega
    · show (i.e - (i.r + 1)).toNat ≤ 128
      bv_omega
  · unfold Input.pending
    show _ = i.next :: window INPUT_BUF i.buf (i.r + 1).toNat (i.w - (i.r + 1)).toNat
    rw [hn, hrest, window_succ, window_congr hstart]
    rfl

/-- The buffer `j` is left when `got` is taken from the buffer `i`. -/
structure Input.Takes (i j : Input) (got : List Byte) : Prop where
  ok : j.Ok
  pending : i.pending = got ++ j.pending
  r : j.r = i.r + BitVec.ofNat 32 got.length
  rest : j.buf = i.buf ∧ j.w = i.w

theorem Input.Takes.nothing (h : i.Ok) : i.Takes i [] where
  ok := h
  pending := rfl
  r := (BitVec.add_zero _).symm
  rest := ⟨rfl, rfl⟩

theorem Input.Takes.cons {got : List Byte} (h : i.Ok) (hne : i.r ≠ i.w)
    (ht : i.get.Takes j got) : i.Takes j (i.next :: got) where
  ok := ht.ok
  pending := by
    rw [(h.get hne).2, ht.pending]
    rfl
  r := by
    rw [ht.r, List.length_cons, Nat.add_comm got.length 1, BitVec.ofNat_add, ← BitVec.add_assoc]
    rfl
  rest := ht.rest

theorem Input.Takes.takes {got : List Byte} (ht : i.Takes j got) : i.takes j = got := by
  have hlen := congrArg List.length ht.pending
  unfold Input.pending at hlen
  rw [length_window, List.length_append, length_window] at hlen
  have hlt := (i.w - i.r).isLt
  have hmoved : (j.r - i.r).toNat = got.length := by
    rw [ht.r, BitVec.add_comm, BitVec.add_sub_cancel, BitVec.toNat_ofNat]
    exact Nat.mod_eq_of_lt (by omega)
  have hsplit : i.pending = window INPUT_BUF i.buf i.r.toNat got.length ++
      window INPUT_BUF i.buf (i.r.toNat + got.length) (j.w - j.r).toNat := by
    unfold Input.pending
    rw [hlen, window_add]
  rw [ht.pending] at hsplit
  unfold Input.takes
  rw [hmoved]
  exact (List.append_inj_left hsplit (length_window _ _ _ _).symm).symm

/-- What the loop of `consoleread` has done, after it took the characters `got`. -/
structure Reads (target : Nat) (i : Input) (dst got : List Byte) (x : Read) : Prop where
  takes : i.Takes x.input got
  left : x.dst.length + x.n = target
  asleep : x.ended = false → 0 < x.n ∧ x.dst = dst ++ got ∧ C 'D' ∉ x.dst ∧ newline ∉ x.dst
  ended : x.ended = true → newline ∉ x.dst.dropLast ∧
    (x.dst = dst ++ got ∧ C 'D' ∉ x.dst ∨ dst = [] ∧ x.dst = [] ∧ got = [C 'D'])

theorem readLoop_reads (target : Nat) : ∀ (n : Nat) {i : Input} {dst : List Byte}, i.Ok →
    dst.length + n = target → C 'D' ∉ dst → newline ∉ dst →
    ∃ got, Reads target i dst got (readLoop target n i dst) := by
  intro n
  induction n with
  | zero =>
      intro i dst h hleft heof hline
      exact ⟨[], .nothing h, hleft, nofun, fun _ =>
        ⟨fun hmem => hline (List.dropLast_subset _ hmem), .inl ⟨(List.append_nil _).symm, heof⟩⟩⟩
  | succ n ih =>
      intro i dst h hleft heof hline
      have hdrop : newline ∉ dst.dropLast := fun hmem => hline (List.dropLast_subset _ hmem)
      unfold readLoop
      by_cases hempty : i.r = i.w
      · rw [if_pos hempty]
        exact ⟨[], .nothing h, hleft,
          fun _ => ⟨Nat.succ_pos n, (List.append_nil _).symm, heof, hline⟩, nofun⟩
      rw [if_neg hempty]
      have hget := h.get hempty
      by_cases hD : i.next = C 'D'
      · rw [if_pos hD]
        by_cases hmore : n + 1 < target
        · rw [if_pos hmore]
          exact ⟨[], .nothing h, hleft, nofun,
            fun _ => ⟨hdrop, .inl ⟨(List.append_nil _).symm, heof⟩⟩⟩
        · rw [if_neg hmore]
          have hnil : dst = [] := List.length_eq_zero_iff.mp (by omega)
          refine ⟨[i.next], .cons h hempty (.nothing hget.1), hleft, nofun, fun _ => ?_⟩
          exact ⟨hdrop, .inr ⟨hnil, hnil, by rw [hD]⟩⟩
      rw [if_neg hD]
      have hlen : (dst ++ [i.next]).length + n = target := by
        rw [List.length_append, List.length_singleton]
        omega
      have heof' : C 'D' ∉ dst ++ [i.next] := by
        rw [List.mem_append, List.mem_singleton]
        rintro (hmem | heq)
        · exact heof hmem
        · exact hD heq.symm
      by_cases hend : i.next = newline
      · rw [if_pos hend]
        refine ⟨[i.next], .cons h hempty (.nothing hget.1), hlen, nofun, fun _ => ?_⟩
        refine ⟨?_, .inl ⟨rfl, heof'⟩⟩
        rw [List.dropLast_concat]
        exact hline
      rw [if_neg hend]
      have hline' : newline ∉ dst ++ [i.next] := by
        rw [List.mem_append, List.mem_singleton]
        rintro (hmem | heq)
        · exact hline hmem
        · exact hend heq.symm
      obtain ⟨got, hgot⟩ := ih hget.1 hlen heof' hline'
      refine ⟨i.next :: got, .cons h hempty hgot.takes, hgot.left, ?_, ?_⟩
      · intro hasleep
        obtain ⟨hpos, hdst, hrest⟩ := hgot.asleep hasleep
        rw [List.append_assoc, List.singleton_append] at hdst
        exact ⟨hpos, hdst, hrest⟩
      · intro hended
        obtain ⟨hlast, hcases⟩ := hgot.ended hended
        refine ⟨hlast, ?_⟩
        rcases hcases with ⟨hdst, hno⟩ | ⟨hnil, -⟩
        · rw [List.append_assoc, List.singleton_append] at hdst
          exact .inl ⟨hdst, hno⟩
        · exact absurd hnil (by simp)

/-! ## Whole runs -/

section Runs

variable [DecidableEq K] {s : State K} {h : History K} {k : K}

theorem by_append (h : History K) (k l : K) (bs : List Byte) :
    ({ h with taken := h.taken ++ bs.map (k, ·) } : History K).by l =
      if l = k then h.by l ++ bs else h.by l := by
  unfold History.by
  simp only [List.filter_append, List.map_append, List.filter_map, Function.comp_def]
  by_cases hl : l = k
  · rw [if_pos hl, hl]
    simp [Function.comp_def]
  · rw [if_neg hl]
    simp [Ne.symm hl]

/-- The call `k` goes on: it has taken what it had stored at `dst`. -/
theorem LineQueue.advance (hq : LineQueue s h) (killed : Bool) (target n : Nat)
    (dst : List Byte) (htaken : h.by k = dst) (hleft : dst.length + n = target)
    (heof : C 'D' ∉ dst) (hline : newline ∉ dst) :
    LineQueue (s.advance k killed (target, n, dst)) (h.read s k (target, n, dst)) := by
  obtain ⟨got, hreads⟩ := readLoop_reads target n hq.indices hleft heof hline
  have htakes := hreads.takes.takes
  unfold State.advance History.read
  simp only [htakes]
  exact
    { indices := hreads.takes.ok
      order := by
        simp only [List.map_append, List.map_map, Function.comp_def, List.map_id']
        rw [hq.order, hreads.takes.pending, List.append_assoc]
      calls := by
        intro l
        show Call.Gave _ (update s.call k _ l) ∨ Call.GaveUp _ (update s.call k _ l)
        rw [by_append]
        by_cases hl : l = k
        · rw [if_pos hl, hl, Function.update_self, htaken]
          unfold Read.call
          by_cases hended : (readLoop target n s.input dst).ended = true
          · rw [if_pos hended]
            obtain ⟨hlast, hcases⟩ := hreads.ended hended
            left
            refine ⟨?_, hlast, ?_⟩
            · have := hreads.left
              omega
            · rcases hcases with ⟨hdst, hno⟩ | ⟨hnil, hnone, hgot⟩
              · exact .inl ⟨hdst.symm, hno⟩
              · refine .inr ⟨hnone, ?_⟩
                rw [hnil, hgot]
                rfl
          · rw [if_neg hended]
            obtain ⟨hpos, hdst, hno, hno'⟩ := hreads.asleep (by simpa using hended)
            cases killed with
            | true => exact .inr ⟨rfl, hdst.symm⟩
            | false => exact .inl ⟨hdst.symm, hreads.left, hpos, hno, hno'⟩
        · rw [if_neg hl, Function.update_of_ne hl]
          exact hq.calls l }

theorem LineQueue.step {t : State K} {a : Act K} (hq : LineQueue s h)
    (hstep : s.step a = some t) : LineQueue t (h.record s a) := by
  cases a with
  | intr cs =>
      cases hstep
      obtain ⟨hok, hpending⟩ := hq.indices.consoleintr cs
      refine ⟨hok, ?_, hq.calls⟩
      show h.committed ++ s.input.commits cs = h.taken.map Prod.snd ++ _
      rw [hpending, hq.order, List.append_assoc]
  | read k n killed =>
      unfold State.step at hstep
      unfold History.record
      simp only at hstep ⊢
      cases hk : s.call k with
      | fresh =>
          rw [hk] at hstep
          cases hstep
          have htaken : h.by k = [] := by
            have hcall := hq.calls k
            rw [hk] at hcall
            exact hcall.resolve_right id
          exact hq.advance killed n.toNat n.toNat [] htaken (Nat.zero_add _) (by simp) (by simp)
      | asleep target n dst | returned dst value =>
          rw [hk] at hstep
          cases hstep
  | wake k killed =>
      unfold State.step at hstep
      unfold History.record
      simp only at hstep ⊢
      cases hk : s.call k with
      | fresh | returned dst value =>
          rw [hk] at hstep
          cases hstep
      | asleep target n dst =>
          rw [hk] at hstep
          cases hstep
          have hcall := hq.calls k
          rw [hk] at hcall
          obtain ⟨htaken, hleft, -, heof, hline⟩ := hcall.resolve_right id
          exact hq.advance killed target n dst htaken hleft heof hline

/-- The console is a queue of lines in every state with `cons.lock` free, and backspace and
control-U leave alone what has been committed. -/
theorem line_queue (K : Type) [DecidableEq K] (s : State K) (h : History K)
    (hs : (recorded K).Reachable (s, h)) :
    LineQueue s h ∧
      ∀ c, c = C 'U' ∨ c = C 'H' ∨ c = 0x7F → s.input.Edits (s.input.intr c) := by
  have hq : LineQueue s h := by
    refine System.ReachableWhen.invariant
      (P := fun x : State K × History K => LineQueue x.1 x.2) ?_ ?_ hs
    · intro x hx
      obtain ⟨⟨hr, hw, hfresh⟩, hempty⟩ := hx
      have hzero : (x.1.input.w - x.1.input.r).toNat = 0 := by
        rw [hr, BitVec.sub_self]
        rfl
      rw [hempty]
      refine ⟨⟨?_, ?_⟩, ?_, ?_⟩
      · rw [hzero]
        exact Nat.zero_le _
      · rw [hr, hw, BitVec.sub_self]
        decide
      · unfold Input.pending
        rw [hzero]
        rfl
      · intro k
        rw [hfresh]
        exact .inl rfl
    · intro x a y hx _ hstep
      obtain ⟨hstep, hrecord⟩ := System.withGhost_step hstep
      rw [hrecord]
      exact hx.step hstep
  exact ⟨hq, fun c hc => hq.indices.edit hc⟩

end Runs

/-- The value that the call has returned. -/
def Call.value : Call → Option Int
  | .returned _ value => some value
  | _ => none

/-- The buffer is empty, and the indices are about to wrap. -/
def aboutToWrap (K : Type) : State K where
  input := { buf := fun _ => 0, r := 0xFFFFFFFC, w := 0xFFFFFFFC, e := 0xFFFFFFFC }
  call := fun _ => .fresh

/-- A line with a character that is taken back, and two readers for it. -/
def twoReaders : List (Act Bool) :=
  [.read false 10 false, .intr [0x68, 0x78, 0x7F, 0x69, carriageReturn, 0x79],
    .wake false false, .read true 10 false, .intr [C 'D'], .wake true false]

/-- `twoReaders` is a run in which both return. -/
theorem line_queue_twoReaders :
    ∃ x : State Bool × History Bool,
      ((x.1.call false).value = some 3 ∧ (x.1.call true).value = some 1) ∧
        LineQueue x.1 x.2 := by
  obtain ⟨x, hx, htest⟩ := System.exists_reachable_of_run (M := recorded Bool)
    (l := twoReaders) (s := (aboutToWrap Bool, ⟨[], []⟩))
    (p := fun x => decide ((x.1.call false).value = some 3 ∧ (x.1.call true).value = some 1))
    ⟨⟨rfl, rfl, fun _ => rfl⟩, rfl⟩ (by decide +kernel)
  exact ⟨x, of_decide_eq_true htest, (line_queue Bool x.1 x.2 hx).1⟩

/-- A reader takes a full buffer and waits for more; then it is killed. -/
def killedReader : List (Act Unit) :=
  [.read () 200 false, .intr (List.replicate 128 0x61), .wake () false, .wake () true]

/-- What a reader has taken before it is killed is not returned, but the result is `-1`. -/
theorem not_all_returned :
    ¬ ∀ (x : State Unit × History Unit), (recorded Unit).Reachable x →
      ∀ k, x.2.by k ≠ [] → (x.1.call k).value ≠ some (-1) := by
  intro hall
  obtain ⟨x, hx, htest⟩ := System.exists_reachable_of_run (M := recorded Unit)
    (l := killedReader) (s := (aboutToWrap Unit, ⟨[], []⟩))
    (p := fun x => decide ((x.1.call ()).value = some (-1) ∧ x.2.by () ≠ []))
    ⟨⟨rfl, rfl, fun _ => rfl⟩, rfl⟩ (by decide +kernel)
  obtain ⟨hvalue, htaken⟩ := of_decide_eq_true htest
  exact hall x hx () htaken hvalue

end OsWork.Ports.Console

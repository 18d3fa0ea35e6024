import OsWork.Verified.Monitor

/-!
# Pipes of `ass5/final_repo/pipe.c`

`pipewrite`, `piperead` and `pipeclose` of one pipe as programs of a monitor with
the spin lock `p->lock` and the channels `&p->nread` and `&p->nwrite`.  The
counters are 32-bit words that run freely.  The page that `pipeclose` frees is
not used for anything else afterwards.

`stored` and `delivered` are not in the source: they list the bytes stored so
far, each with its writer, and the bytes read so far.
-/

namespace OsWork.Ports.Pipes

open OsWork.Verified.Monitor OsWork.Verified.Transition
open Function (update)

def PIPESIZE : Nat := 512

/-- A C `uint`. -/
abbrev Word := BitVec 32

abbrev Byte := UInt8

/-- `struct pipe`, without the lock. -/
structure Pipe (P : Type) where
  data : Nat → Byte
  nread : Word
  nwrite : Word
  readopen : Bool
  writeopen : Bool
  stored : List (P × Byte)
  delivered : List Byte

/-- `&p->nread`, `&p->nwrite` -/
inductive Chan
  | nread
  | nwrite
  deriving DecidableEq

inductive Call
  | pipewrite (addr : List Byte)
  | piperead (n : Int)
  | pipeclose (writable : Bool)

/-- What comes next in the call a process is in. -/
inductive Pc
  | out
  /-- `pipewrite`: the loops -/
  | writing (addr : List Byte) (i : Nat)
  | sleepFull (addr : List Byte) (i : Nat)
  | written (addr : List Byte)
  /-- `piperead`: the first loop -/
  | waiting (n : Int)
  /-- the second loop, with the bytes stored in `addr` -/
  | copying (n : Int) (addr : List Byte)
  | copied (n : Int) (addr : List Byte)
  | closing (writable : Bool)
  | closeWakeup (writable : Bool)
  | closed
  deriving DecidableEq

/-- Where a process stands; `sent` are the bytes that its earlier calls have stored. -/
structure Loc where
  pc : Pc
  sent : List Byte

variable {P : Type}

namespace Pipe

/-- `p->nwrite == p->nread + PIPESIZE` -/
def full (d : Pipe P) : Prop := d.nwrite = d.nread + BitVec.ofNat 32 PIPESIZE

instance (d : Pipe P) : Decidable d.full :=
  inferInstanceAs (Decidable (_ = _))

/-- `p->nread == p->nwrite` -/
def empty (d : Pipe P) : Prop := d.nread = d.nwrite

instance (d : Pipe P) : Decidable d.empty :=
  inferInstanceAs (Decidable (_ = _))

/-- `p->data[p->nwrite++ % PIPESIZE] = b` -/
def put (d : Pipe P) (p : P) (b : Byte) : Pipe P :=
  { d with
    data := update d.data (d.nwrite.toNat % PIPESIZE) b
    nwrite := d.nwrite + 1
    stored := d.stored ++ [(p, b)] }

/-- `p->data[p->nread % PIPESIZE]` -/
def next (d : Pipe P) : Byte := d.data (d.nread.toNat % PIPESIZE)

/-- `p->nread++` after the read. -/
def get (d : Pipe P) : Pipe P :=
  { d with nread := d.nread + 1, delivered := d.delivered ++ [d.next] }

/-- `p->writeopen = 0` or `p->readopen = 0` -/
def close (d : Pipe P) (writable : Bool) : Pipe P :=
  if writable then { d with writeopen := false } else { d with readopen := false }

end Pipe

/-- The second loop of `piperead`. -/
def copy (x : Loc) (d : Pipe P) (n : Int) (addr : List Byte) : Op Unit Chan (Pipe P) Loc :=
  if addr.length < n ∧ ¬ d.empty then
    .store d.get { x with pc := .copying n (addr ++ [d.next]) }
  else .wakeup .nwrite { x with pc := .copied n addr }

def code (p : P) (x : Loc) (c : Call) (d : Pipe P) (killed : Bool) :
    Option (Op Unit Chan (Pipe P) Loc) :=
  match x.pc with
  | .out =>
      match c with
      | .pipewrite addr => some (.acquire () { x with pc := .writing addr 0 })
      | .piperead n => some (.acquire () { x with pc := .waiting n })
      | .pipeclose writable => some (.acquire () { x with pc := .closing writable })
  | .writing addr i =>
      match addr[i]? with
      | none => some (.wakeup .nread { x with pc := .written addr })
      | some b =>
          if d.full then
            if d.readopen = false ∨ killed then
              some (.release () { pc := .out, sent := x.sent ++ addr.take i })
            else some (.wakeup .nread { x with pc := .sleepFull addr i })
          else some (.store (d.put p b) { x with pc := .writing addr (i + 1) })
  | .sleepFull addr i => some (.sleep .nwrite () { x with pc := .writing addr i })
  | .written addr => some (.release () { pc := .out, sent := x.sent ++ addr })
  | .waiting n =>
      if d.empty ∧ d.writeopen then
        if killed then some (.release () { x with pc := .out })
        else some (.sleep .nread () x)
      else some (copy x d n [])
  | .copying n addr => some (copy x d n addr)
  | .copied _ _ => some (.release () { x with pc := .out })
  | .closing writable => some (.store (d.close writable) { x with pc := .closeWakeup writable })
  | .closeWakeup writable =>
      some (.wakeup (if writable then .nread else .nwrite) { x with pc := .closed })
  | .closed => some (.release () { x with pc := .out })

/-- `pipealloc` -/
def pipealloc : Pipe P where
  data := fun _ => 0
  nread := 0
  nwrite := 0
  readopen := true
  writeopen := true
  stored := []
  delivered := []

def pipe [DecidableEq P] : System (State P Unit Chan (Pipe P) Loc) (Act P Call) :=
  monitor code (fun _ => { pc := .out, sent := [] }) pipealloc

/-! ## The ring -/

/-- The bytes in the ring. -/
def Pipe.ring (d : Pipe P) : List Byte :=
  (List.range (d.nwrite - d.nread).toNat).map fun k => d.data ((d.nread.toNat + k) % PIPESIZE)

/-- The ring is a queue: what has been read and what is in it is what has been
stored. -/
structure Pipe.Queue (d : Pipe P) : Prop where
  size : (d.nwrite - d.nread).toNat ≤ PIPESIZE
  bytes : d.delivered ++ d.ring = d.stored.map Prod.snd

section Ring

variable {d : Pipe P}

theorem Pipe.empty_iff : d.empty ↔ (d.nwrite - d.nread).toNat = 0 := by
  unfold Pipe.empty
  bv_omega

theorem Pipe.full_iff : d.full ↔ (d.nwrite - d.nread).toNat = PIPESIZE := by
  unfold Pipe.full PIPESIZE
  bv_omega

theorem Pipe.nwrite_mod : d.nwrite.toNat % PIPESIZE =
    (d.nread.toNat + (d.nwrite - d.nread).toNat) % PIPESIZE := by
  unfold PIPESIZE
  bv_omega

theorem Pipe.Queue.put (h : d.Queue) (hfull : ¬ d.full) (p : P) (b : Byte) :
    (d.put p b).Queue := by
  have hlt : (d.nwrite - d.nread).toNat < PIPESIZE := by
    have hne := mt Pipe.full_iff.mpr hfull
    have hsize := h.size
    omega
  have hlen : (d.nwrite + 1 - d.nread).toNat = (d.nwrite - d.nread).toNat + 1 := by
    unfold PIPESIZE at hlt
    bv_omega
  constructor
  · show (d.nwrite + 1 - d.nread).toNat ≤ PIPESIZE
    omega
  · have hring : (d.put p b).ring = d.ring ++ [b] := by
      unfold Pipe.ring
      show (List.range (d.nwrite + 1 - d.nread).toNat).map _ = _
      rw [hlen, List.range_succ, List.map_append, List.map_singleton]
      congr 1
      · apply List.map_congr_left
        intro k hk
        have hk := List.mem_range.mp hk
        show update d.data (d.nwrite.toNat % PIPESIZE) b ((d.nread.toNat + k) % PIPESIZE) = _
        rw [Function.update_of_ne]
        rw [Pipe.nwrite_mod]
        unfold PIPESIZE at hlt ⊢
        omega
      · show [update d.data (d.nwrite.toNat % PIPESIZE) b
          ((d.nread.toNat + (d.nwrite - d.nread).toNat) % PIPESIZE)] = [b]
        rw [Pipe.nwrite_mod, Function.update_self]
    rw [hring, ← List.append_assoc]
    show d.delivered ++ d.ring ++ [b] = (d.stored ++ [(p, b)]).map Prod.snd
    rw [h.bytes, List.map_append]
    rfl

theorem Pipe.Queue.get (h : d.Queue) (hempty : ¬ d.empty) : d.get.Queue := by
  have hpos : 0 < (d.nwrite - d.nread).toNat := by
    have hne := mt Pipe.empty_iff.mpr hempty
    omega
  obtain ⟨len, hlen⟩ : ∃ len, (d.nwrite - d.nread).toNat = len + 1 :=
    ⟨_, (Nat.succ_pred_eq_of_pos hpos).symm⟩
  have hlen' : (d.nwrite - (d.nread + 1)).toNat = len := by
    bv_omega
  constructor
  · have hsize := h.size
    show (d.nwrite - (d.nread + 1)).toNat ≤ PIPESIZE
    omega
  · have hring : d.ring = d.next :: d.get.ring := by
      unfold Pipe.ring
      show _ = d.next :: (List.range (d.nwrite - (d.nread + 1)).toNat).map _
      rw [hlen, hlen', List.range_succ_eq_map, List.map_cons, List.map_map]
      congr 1
      apply List.map_congr_left
      intro k _
      show d.data _ = d.data _
      congr 1
      show (d.nread.toNat + (k + 1)) % PIPESIZE = ((d.nread + 1).toNat + k) % PIPESIZE
      unfold PIPESIZE
      bv_omega
    have hbytes := h.bytes
    rw [hring] at hbytes
    show (d.delivered ++ [d.next]) ++ d.get.ring = d.stored.map Prod.snd
    rw [List.append_assoc]
    exact hbytes

end Ring

/-! ## What is known where -/

/-- The bytes that a process has stored. -/
def Pipe.storedBy [DecidableEq P] (d : Pipe P) (p : P) : List Byte :=
  (d.stored.filter fun e => e.1 = p).map Prod.snd

/-- The bytes that the call has stored. -/
def Pc.put : Pc → List Byte
  | .writing addr i | .sleepFull addr i => addr.take i
  | .written addr => addr
  | _ => []

/-- What is known of the pipe in the middle of a call, besides the queue. -/
def Pc.Says (d : Pipe P) : Pc → Prop
  | .sleepFull _ _ => d.full ∧ d.readopen = true
  | .copying _ addr => addr ≠ [] ∧ addr <:+ d.delivered
  | .copied n addr =>
      addr <:+ d.delivered ∧ (0 < n → addr = [] → d.empty ∧ d.writeopen = false)
  | _ => True

/-- The channels to wake before the return. -/
def Pc.owes : Pc → Chan → Prop
  | .writing _ _, ch => ch = .nread
  | .copying _ _, ch => ch = .nwrite
  | .closeWakeup writable, ch => ch = if writable then .nread else .nwrite
  | _, _ => False

/-- The reason to sleep on a channel. -/
def Chan.idle (d : Pipe P) : Chan → Prop
  | .nread => d.empty ∧ d.writeopen = true
  | .nwrite => d.full ∧ d.readopen = true

/-- What a process has stored, in its own order. -/
def Sent [DecidableEq P] (p : P) (x : Loc) (d : Pipe P) : Prop :=
  d.storedBy p = x.sent ++ x.pc.put

/-- The annotation; `wake` when sleepers are considered too. -/
def outline [DecidableEq P] (wake : Prop) : Outline P Unit Chan (Pipe P) Loc where
  holds x _ := x.pc ≠ .out
  knows p x d := Sent p x d ∧ (x.pc ≠ .out → d.Queue) ∧ x.pc.Says d
  waits p _ y d := Sent p y d ∧
    ((∃ addr i, y.pc = .writing addr i) ∨ ∃ n, y.pc = .waiting n)
  inv _ d := d.Queue
  guard _ := ()
  idle ch d := wake → ch.idle d
  owes x ch := wake ∧ x.pc.owes ch

/-- The operations of the code, one by one. -/
inductive Next (p : P) (x : Loc) (d : Pipe P) (killed : Bool) :
    Op Unit Chan (Pipe P) Loc → Prop
  | enter {pc : Pc} (hpc : x.pc = .out)
      (hin : (∃ addr, pc = .writing addr 0) ∨ (∃ n, pc = .waiting n) ∨ ∃ w, pc = .closing w) :
      Next p x d killed (.acquire () { x with pc := pc })
  | stored {addr : List Byte} {i : Nat} (hpc : x.pc = .writing addr i)
      (hend : addr[i]? = none) :
      Next p x d killed (.wakeup .nread { x with pc := .written addr })
  | giveUp {addr : List Byte} {i : Nat} {b : Byte} (hpc : x.pc = .writing addr i)
      (hb : addr[i]? = some b) (hfull : d.full) (hgone : d.readopen = false ∨ killed = true) :
      Next p x d killed (.release () { pc := .out, sent := x.sent ++ addr.take i })
  | full {addr : List Byte} {i : Nat} (hpc : x.pc = .writing addr i) (hfull : d.full)
      (hopen : d.readopen = true) :
      Next p x d killed (.wakeup .nread { x with pc := .sleepFull addr i })
  | put {addr : List Byte} {i : Nat} {b : Byte} (hpc : x.pc = .writing addr i)
      (hb : addr[i]? = some b) (hroom : ¬ d.full) :
      Next p x d killed (.store (d.put p b) { x with pc := .writing addr (i + 1) })
  | sleepFull {addr : List Byte} {i : Nat} (hpc : x.pc = .sleepFull addr i) :
      Next p x d killed (.sleep .nwrite () { x with pc := .writing addr i })
  | written {addr : List Byte} (hpc : x.pc = .written addr) :
      Next p x d killed (.release () { pc := .out, sent := x.sent ++ addr })
  | killed {n : Int} (hpc : x.pc = .waiting n) :
      Next p x d killed (.release () { x with pc := .out })
  | sleepEmpty {n : Int} (hpc : x.pc = .waiting n) (hempty : d.empty)
      (hopen : d.writeopen = true) : Next p x d killed (.sleep .nread () x)
  | get {n : Int} {addr : List Byte}
      (hpc : x.pc = .waiting n ∧ addr = [] ∨ x.pc = .copying n addr) (hne : ¬ d.empty) :
      Next p x d killed (.store d.get { x with pc := .copying n (addr ++ [d.next]) })
  | nothing {n : Int} (hpc : x.pc = .waiting n)
      (hdone : 0 < n → d.empty ∧ d.writeopen = false) :
      Next p x d killed (.wakeup .nwrite { x with pc := .copied n [] })
  | read {n : Int} {addr : List Byte} (hpc : x.pc = .copying n addr) :
      Next p x d killed (.wakeup .nwrite { x with pc := .copied n addr })
  | copied {n : Int} {addr : List Byte} (hpc : x.pc = .copied n addr) :
      Next p x d killed (.release () { x with pc := .out })
  | close {w : Bool} (hpc : x.pc = .closing w) :
      Next p x d killed (.store (d.close w) { x with pc := .closeWakeup w })
  | closeWakeup {w : Bool} (hpc : x.pc = .closeWakeup w) :
      Next p x d killed (.wakeup (if w then .nread else .nwrite) { x with pc := .closed })
  | closed (hpc : x.pc = .closed) : Next p x d killed (.release () { x with pc := .out })

theorem Next.of_code {p : P} {x : Loc} {c : Call} {d : Pipe P} {k : Bool}
    {op : Op Unit Chan (Pipe P) Loc} (h : code p x c d k = some op) : Next p x d k op := by
  unfold code at h
  split at h
  · rename_i hpc
    split at h
    · rename_i addr
      cases h
      exact .enter hpc (.inl ⟨addr, rfl⟩)
    · rename_i n
      cases h
      exact .enter hpc (.inr (.inl ⟨n, rfl⟩))
    · rename_i w
      cases h
      exact .enter hpc (.inr (.inr ⟨w, rfl⟩))
  · rename_i addr i hpc
    split at h
    · rename_i hend
      cases h
      exact .stored hpc hend
    · rename_i b hb
      split at h
      · rename_i hfull
        split at h
        · rename_i hgone
          cases h
          exact .giveUp hpc hb hfull hgone
        · rename_i hgone
          cases h
          exact .full hpc hfull (by simpa using fun hread => hgone (.inl hread))
      · rename_i hroom
        cases h
        exact .put hpc hb hroom
  · rename_i addr i hpc
    cases h
    exact .sleepFull hpc
  · rename_i addr hpc
    cases h
    exact .written hpc
  · rename_i n hpc
    split at h
    · rename_i hempty
      split at h
      · cases h
        exact .killed hpc
      · cases h
        exact .sleepEmpty hpc hempty.1 hempty.2
    · rename_i hready
      unfold copy at h
      split at h
      · rename_i hnext
        cases h
        exact Next.get (n := n) (.inl ⟨hpc, rfl⟩) hnext.2
      · rename_i hnone
        cases h
        apply Next.nothing hpc
        intro hn
        have hempty : d.empty := by
          by_contra hne
          exact hnone ⟨hn, hne⟩
        exact ⟨hempty, by simpa using fun hopen => hready ⟨hempty, hopen⟩⟩
  · rename_i n addr hpc
    unfold copy at h
    split at h
    · rename_i hnext
      cases h
      exact .get (.inr hpc) hnext.2
    · cases h
      exact .read hpc
  · rename_i n addr hpc
    cases h
    exact .copied hpc
  · rename_i w hpc
    cases h
    exact .close hpc
  · rename_i w hpc
    cases h
    exact .closeWakeup hpc
  · rename_i hpc
    cases h
    exact .closed hpc

section Valid

variable [DecidableEq P] {p q : P} {x y z : Loc} {d d' : Pipe P} {b : Byte}

theorem Pipe.storedBy_put_self : (d.put p b).storedBy p = d.storedBy p ++ [b] := by
  show ((d.stored ++ [(p, b)]).filter _).map _ = _
  rw [List.filter_append, List.map_append]
  simp [Pipe.storedBy]

theorem Pipe.storedBy_put_of_ne (h : q ≠ p) : (d.put p b).storedBy q = d.storedBy q := by
  show ((d.stored ++ [(p, b)]).filter _).map _ = _
  rw [List.filter_append, List.map_append]
  simp [Pipe.storedBy, Ne.symm h]

/-- A call goes on, or returns, with nothing more stored. -/
theorem Sent.goOn (h : Sent p x d) (hsame : y.sent ++ y.pc.put = x.sent ++ x.pc.put) :
    Sent p y d := by
  unfold Sent at h ⊢
  rw [h, hsame]

/-- A step of the others, or one that stores nothing. -/
theorem Sent.congr (h : Sent p x d) (hsame : d'.storedBy p = d.storedBy p) : Sent p x d' := by
  unfold Sent at h ⊢
  rw [hsame, h]

theorem Sent.put {addr : List Byte} {i : Nat} (h : Sent p x d) (hpc : x.pc = .writing addr i)
    (hb : addr[i]? = some b) :
    Sent p { x with pc := .writing addr (i + 1) } (d.put p b) := by
  unfold Sent at h ⊢
  rw [Pipe.storedBy_put_self, h, hpc]
  show x.sent ++ addr.take i ++ [b] = x.sent ++ addr.take (i + 1)
  rw [List.append_assoc, List.take_add_one, hb]
  rfl

omit [DecidableEq P] in
theorem Pipe.Queue.close (h : d.Queue) (w : Bool) : (d.close w).Queue := by
  cases w with
  | true => exact ⟨h.size, h.bytes⟩
  | false => exact ⟨h.size, h.bytes⟩

theorem Pipe.storedBy_close {w : Bool} : (d.close w).storedBy p = d.storedBy p := by
  cases w with
  | true => rfl
  | false => rfl

/-- A store of a process leaves what the others have stored. -/
theorem Next.store_storedBy {killed : Bool} (h : Next p x d killed (.store d' y)) (hq : q ≠ p) :
    d'.storedBy q = d.storedBy q := by
  cases h with
  | put hpc hb hroom => exact Pipe.storedBy_put_of_ne hq
  | get hpc hne => rfl
  | close hpc => exact Pipe.storedBy_close

omit [DecidableEq P] in
theorem Next.store_pc {killed : Bool} (h : Next p x d killed (.store d' y)) :
    x.pc ≠ .out ∧ y.pc ≠ .out := by
  cases h with
  | put hpc hb hroom | close hpc =>
      rw [hpc]
      exact ⟨Pc.noConfusion, Pc.noConfusion⟩
  | get hpc hne =>
      rcases hpc with ⟨hpc, -⟩ | hpc
      · rw [hpc]
        exact ⟨Pc.noConfusion, Pc.noConfusion⟩
      · rw [hpc]
        exact ⟨Pc.noConfusion, Pc.noConfusion⟩

omit [DecidableEq P] in
theorem Next.store_queue {killed : Bool} (h : Next p x d killed (.store d' y)) (hd : d.Queue) :
    d'.Queue := by
  cases h with
  | put hpc hb hroom => exact hd.put hroom p _
  | get hpc hne => exact hd.get hne
  | close hpc => exact hd.close _

omit [DecidableEq P] in
/-- A store that takes the reason to sleep away owes a wakeup. -/
theorem Next.store_idle {killed : Bool} (h : Next p x d killed (.store d' y)) :
    (∀ ch, x.pc.owes ch → y.pc.owes ch) ∧
      ∀ ch : Chan, ch.idle d → ch.idle d' ∨ y.pc.owes ch := by
  cases h with
  | @put addr i b hpc hb hroom =>
      constructor
      · intro ch howes
        rw [hpc] at howes
        exact howes
      · intro ch hidle
        cases ch with
        | nread => exact .inr rfl
        | nwrite => exact absurd hidle.1 hroom
  | @get n addr hpc hne =>
      constructor
      · intro ch howes
        rcases hpc with ⟨hpc, -⟩ | hpc
        · rw [hpc] at howes
          cases howes
        · rw [hpc] at howes
          exact howes
      · intro ch hidle
        cases ch with
        | nread => exact absurd hidle.1 hne
        | nwrite => exact .inr rfl
  | @close w hpc =>
      constructor
      · intro ch howes
        rw [hpc] at howes
        cases howes
      · intro ch hidle
        cases w with
        | true =>
            cases ch with
            | nread => exact .inr rfl
            | nwrite => exact .inl hidle
        | false =>
            cases ch with
            | nread => exact .inl hidle
            | nwrite => exact .inr rfl

omit [DecidableEq P] in
/-- With a wakeup owed, a call only gives the lock up when it stores no more. -/
theorem Next.release {killed : Bool} {l : Unit} (h : Next p x d killed (.release l y)) :
    x.pc ≠ .out ∧ y.pc = .out ∧ y.sent ++ y.pc.put = x.sent ++ x.pc.put ∧
      ∀ ch, x.pc.owes ch → ch = .nread ∧ ∃ addr i b, x.pc = .writing addr i ∧
        addr[i]? = some b ∧ d.full ∧ (d.readopen = false ∨ killed = true) := by
  cases h with
  | @giveUp addr i b hpc hb hfull hgone =>
      rw [hpc]
      refine ⟨Pc.noConfusion, rfl, List.append_nil _, ?_⟩
      rintro ch rfl
      exact ⟨rfl, addr, i, b, rfl, hb, hfull, hgone⟩
  | written hpc =>
      rw [hpc]
      exact ⟨Pc.noConfusion, rfl, List.append_nil _, fun _ howes => howes.elim⟩
  | killed hpc | copied hpc | closed hpc =>
      rw [hpc]
      exact ⟨Pc.noConfusion, rfl, rfl, fun _ howes => howes.elim⟩

omit [DecidableEq P] in
theorem Next.wakeup {killed : Bool} {ch : Chan} (h : Next p x d killed (.wakeup ch y)) :
    x.pc ≠ .out ∧ y.pc ≠ .out ∧ y.sent ++ y.pc.put = x.sent ++ x.pc.put ∧
      (x.pc.Says d → y.pc.Says d) ∧ ∀ ch', x.pc.owes ch' → ch' = ch := by
  cases h with
  | @stored addr i hpc hend =>
      rw [hpc]
      refine ⟨Pc.noConfusion, Pc.noConfusion, ?_, fun _ => trivial, fun _ howes => howes⟩
      show x.sent ++ addr = x.sent ++ addr.take i
      rw [List.take_of_length_le (List.getElem?_eq_none_iff.mp hend)]
  | full hpc hfull hopen =>
      rw [hpc]
      exact ⟨Pc.noConfusion, Pc.noConfusion, rfl, fun _ => ⟨hfull, hopen⟩, fun _ howes => howes⟩
  | nothing hpc hdone =>
      rw [hpc]
      exact ⟨Pc.noConfusion, Pc.noConfusion, rfl,
        fun _ => ⟨List.nil_suffix, fun hn _ => hdone hn⟩, fun _ howes => howes.elim⟩
  | read hpc =>
      rw [hpc]
      exact ⟨Pc.noConfusion, Pc.noConfusion, rfl,
        fun hres => ⟨hres.2, fun _ hnil => absurd hnil hres.1⟩, fun _ howes => howes⟩
  | closeWakeup hpc =>
      rw [hpc]
      exact ⟨Pc.noConfusion, Pc.noConfusion, rfl, fun _ => trivial, fun _ howes => howes⟩

omit [DecidableEq P] in
/-- A process that goes to sleep has reason to. -/
theorem Next.sleep {killed : Bool} {ch : Chan} {l : Unit}
    (h : Next p x d killed (.sleep ch l y)) (hknows : x.pc.Says d) :
    x.pc ≠ .out ∧ y.pc ≠ .out ∧ y.sent ++ y.pc.put = x.sent ++ x.pc.put ∧
      ((∃ addr i, y.pc = .writing addr i) ∨ ∃ n, y.pc = .waiting n) ∧ ch.idle d ∧
      ∀ ch', ¬ x.pc.owes ch' := by
  cases h with
  | @sleepFull addr i hpc =>
      rw [hpc] at hknows ⊢
      exact ⟨Pc.noConfusion, Pc.noConfusion, rfl, .inl ⟨addr, i, rfl⟩, hknows, fun _ => id⟩
  | @sleepEmpty n hpc hempty hopen =>
      rw [hpc]
      exact ⟨Pc.noConfusion, Pc.noConfusion, rfl, .inr ⟨n, rfl⟩, ⟨hempty, hopen⟩, fun _ => id⟩

/-- What a store leaves the process with. -/
theorem Next.store_knows {killed : Bool} (h : Next p x d killed (.store d' y))
    (hsent : Sent p x d) (hknows : x.pc.Says d) : Sent p y d' ∧ y.pc.Says d' := by
  cases h with
  | put hpc hb hroom => exact ⟨hsent.put hpc hb, trivial⟩
  | @get n addr hpc hne =>
      constructor
      · have hsent' : Sent p x d.get := hsent.congr rfl
        refine hsent'.goOn ?_
        rcases hpc with ⟨hpc, -⟩ | hpc
        · rw [hpc]
          rfl
        · rw [hpc]
          rfl
      · have hbefore : addr <:+ d.delivered := by
          rcases hpc with ⟨-, rfl⟩ | hpc
          · exact List.nil_suffix
          · rw [hpc] at hknows
            exact hknows.2
        obtain ⟨taken, htaken⟩ := hbefore
        refine ⟨by simp, taken, ?_⟩
        show taken ++ (addr ++ [d.next]) = d.delivered ++ [d.next]
        rw [← List.append_assoc, htaken]
  | close hpc =>
      refine ⟨(hsent.congr Pipe.storedBy_close).goOn ?_, trivial⟩
      rw [hpc]
      rfl

end Valid

/-! ## Every run -/

variable [DecidableEq P] {s : State P Unit Chan (Pipe P) Loc}

/-- `pipewrite` returns `-1` next. -/
def GivesUp (s : State P Unit Chan (Pipe P) Loc) (p : P) : Prop :=
  ∃ x addr i b, s.ctl p = .run x ∧ x.pc = .writing addr i ∧ addr[i]? = some b ∧ s.data.full ∧
    (s.data.readopen = false ∨ s.killed p = true)

/-- Nobody sleeps on `&p->nread` when a writer gives up. -/
def Careful (s : State P Unit Chan (Pipe P) Loc) (a : Act P Call) : Prop :=
  ∀ p c, a = .run p c → GivesUp s p → ∀ q, ¬ s.Sleeps q .nread

theorem next_of_turn {wake : Prop} {ok : State P Unit Chan (Pipe P) Loc → Act P Call → Prop}
    {p : P} {x : Loc} {op : Op Unit Chan (Pipe P) Loc}
    (h : Turn (outline wake) code ok s p x op) : Next p x s.data (s.killed p) op := by
  obtain ⟨c, hcode, -⟩ := h.next
  exact Next.of_code hcode

theorem valid {wake : Prop} {ok : State P Unit Chan (Pipe P) Loc → Act P Call → Prop}
    (hok : wake → ∀ s a, ok s a → Careful s a) : (outline (P := P) wake).Valid code ok where
  acquire := by
    intro s p x l y hturn hinv
    obtain ⟨hsent, -, -⟩ := hturn.knows
    cases next_of_turn hturn with
    | @enter pc hpc hin =>
        have hput : pc.put = [] := by
          rcases hin with ⟨addr, rfl⟩ | ⟨n, rfl⟩ | ⟨w, rfl⟩ <;> rfl
        have hout : pc ≠ .out := by
          rcases hin with ⟨addr, rfl⟩ | ⟨n, rfl⟩ | ⟨w, rfl⟩ <;> exact fun heq => by cases heq
        have hknows : pc.Says s.data := by
          rcases hin with ⟨addr, rfl⟩ | ⟨n, rfl⟩ | ⟨w, rfl⟩ <;> trivial
        refine ⟨⟨hsent.goOn ?_, fun _ => hinv, hknows⟩, ?_, ?_⟩
        · show x.sent ++ pc.put = _
          rw [hput, hpc]
          rfl
        · intro l'
          exact iff_of_true hout (.inr rfl)
        · rintro ch ⟨-, howes⟩
          rw [hpc] at howes
          cases howes
  release := by
    intro s p x l y hturn
    obtain ⟨hsent, hqueue, -⟩ := hturn.knows
    obtain ⟨hx, hy, hsame, hgives⟩ := (next_of_turn hturn).release
    refine ⟨⟨hsent.goOn hsame, fun hne => absurd hy hne, by rw [hy]; trivial⟩, hqueue hx, ?_, ?_,
      fun ch _ hne => absurd rfl hne⟩
    · intro l'
      exact iff_of_false (fun hne => hne hy) (fun hne => hne.2 rfl)
    · rintro ch ⟨hwake, howes⟩ -
      obtain ⟨rfl, addr, i, b, hpc, hb, hfull, hgone⟩ := hgives ch howes
      obtain ⟨c, -, hadmitted⟩ := hturn.next
      exact hok hwake s _ hadmitted p c rfl ⟨x, addr, i, b, hturn.ctl, hpc, hb, hfull, hgone⟩
  wakeup := by
    intro s p x ch y hturn
    obtain ⟨hsent, hqueue, hknows⟩ := hturn.knows
    obtain ⟨hx, hy, hsame, hthen, howes⟩ := (next_of_turn hturn).wakeup
    exact ⟨⟨hsent.goOn hsame, fun _ => hqueue hx, hthen hknows⟩, fun l => iff_of_true hy hx,
      fun ch' hne hch' => absurd (howes ch' hch'.2) hne⟩
  sleep := by
    intro s p x ch l y hturn
    obtain ⟨hsent, hqueue, hknows⟩ := hturn.knows
    obtain ⟨hx, hy, hsame, hkind, hidle, hnone⟩ := (next_of_turn hturn).sleep hknows
    exact ⟨rfl, fun l' => iff_of_true hx rfl, fun l' => iff_of_true hy rfl, hqueue hx,
      fun _ => hidle, ⟨hsent.goOn hsame, hkind⟩, fun ch' hch' => hnone ch' hch'.2⟩
  regain := by
    rintro p l y d ⟨hsent, hkind⟩ hinv
    refine ⟨hsent, fun _ => hinv, ?_⟩
    rcases hkind with ⟨addr, i, hpc⟩ | ⟨n, hpc⟩
    · rw [hpc]
      trivial
    · rw [hpc]
      trivial
  store := by
    intro s p x d y hturn
    obtain ⟨hsent, hqueue, hknows⟩ := hturn.knows
    have hnext := next_of_turn hturn
    obtain ⟨hx, hy⟩ := hnext.store_pc
    obtain ⟨hsent', hknows'⟩ := hnext.store_knows hsent hknows
    obtain ⟨howes, hidle⟩ := hnext.store_idle
    refine ⟨⟨hsent', fun _ => hnext.store_queue (hqueue hx), hknows'⟩, fun l => iff_of_true hy hx,
      fun ch hch => ⟨hch.1, howes ch hch.2⟩, fun l hl => absurd hx hl, ?_⟩
    intro ch hch
    by_cases hwake : wake
    · rcases hidle ch (hch hwake) with hstill | hthen
      · exact .inl fun _ => hstill
      · exact .inr ⟨hx, hwake, hthen⟩
    · exact .inl fun hw => absurd hw hwake
  others := by
    rintro s p q x d y z hturn hq hapart ⟨hsent, -, -⟩
    have hnext := next_of_turn hturn
    have hz : z.pc = .out := not_not.mp (hapart () hnext.store_pc.1)
    refine ⟨hsent.congr (hnext.store_storedBy hq), fun hne => absurd hz hne, ?_⟩
    rw [hz]
    trivial
  waiting := by
    rintro s p q x d y l z hturn hq ⟨hsent, hkind⟩
    exact ⟨hsent.congr ((next_of_turn hturn).store_storedBy hq), hkind⟩

/-- The bytes that `p` has stored so far, in its own order. -/
def writtenBy (s : State P Unit Chan (Pipe P) Loc) (p : P) : List Byte :=
  (s.ctl p).loc.sent ++ (s.ctl p).loc.pc.put

omit [DecidableEq P] in
theorem pipealloc_queue : (pipealloc : Pipe P).Queue where
  size := by
    show ((0 : Word) - 0).toNat ≤ PIPESIZE
    decide
  bytes := by
    show [] ++ (List.range ((0 : Word) - 0).toNat).map _ = []
    rfl

theorem good {wake : Prop} {ok : State P Unit Chan (Pipe P) Loc → Act P Call → Prop}
    (hok : wake → ∀ s a, ok s a → Careful s a) (h : (pipe (P := P)).ReachableWhen ok s) :
    (outline wake).Good s := by
  apply (valid hok).good _ _ _ h
  · intro p
    exact ⟨rfl, fun hne => absurd rfl hne, trivial⟩
  · intro p l hne
    exact hne rfl
  · intro l
    exact pipealloc_queue

/-- Bytes come out as they went in, with all writers in their order.  What a
`piperead` returns with is the last part of what has been delivered, and it is
nothing only at the end. -/
theorem pipe_fifo (P : Type) [DecidableEq P] (s : State P Unit Chan (Pipe P) Loc)
    (h : (pipe (P := P)).Reachable s) :
    (s.holder () = none →
      (s.data.nwrite - s.data.nread).toNat ≤ PIPESIZE ∧
        s.data.delivered ++ s.data.ring = s.data.stored.map Prod.snd) ∧
      (∀ p, s.data.storedBy p = writtenBy s p) ∧
      (∀ p x n addr, s.ctl p = .run x → x.pc = .copied n addr → addr <:+ s.data.delivered) ∧
      ∀ p x n, s.ctl p = .run x → x.pc = .copied n [] → 0 < n →
        s.data.empty ∧ s.data.writeopen = false := by
  have hgood : (outline False).Good s := good (fun hfalse => hfalse.elim) h
  refine ⟨?_, ?_, ?_, ?_⟩
  · intro hfree
    have hqueue : s.data.Queue := hgood.inv () hfree
    exact ⟨hqueue.size, hqueue.bytes⟩
  · intro p
    rcases (s.ctl p).run_or_waiting with hrun | ⟨l, hwait⟩
    · exact (hgood.knows p _ hrun).1
    · exact (hgood.waits p l _ hwait).1.1
  · intro p x n addr hctl hpc
    obtain ⟨-, -, hknows⟩ := hgood.knows p x hctl
    rw [hpc] at hknows
    exact hknows.1
  · intro p x n hctl hpc hn
    obtain ⟨-, -, hknows⟩ := hgood.knows p x hctl
    rw [hpc] at hknows
    exact hknows.2 hn rfl

/-- `p` waits for bytes, `q` stores two, and `p` reads them and is about to return. -/
def transfer (p q : P) : List (Act P Call) :=
  [.run p (.piperead 2), .run p (.piperead 2), .go p, .go p, .switch p,
    .run q (.pipewrite [7, 8]), .run q (.pipewrite [7, 8]), .run q (.pipewrite [7, 8]),
    .run q (.pipewrite [7, 8]), .run q (.pipewrite [7, 8]), .go p, .go p, .go p,
    .run p (.piperead 2), .run p (.piperead 2), .run p (.piperead 2)]

/-- `p` is about to return from `piperead` with the bytes `addr`. -/
def received (s : State P Unit Chan (Pipe P) Loc) (p : P) (n : Int) (addr : List Byte) : Bool :=
  match s.ctl p with
  | .run x => x.pc == .copied n addr
  | _ => false

theorem pipe_fifo_transfer : ∃ s : State (Fin 2) Unit Chan (Pipe (Fin 2)) Loc,
    (∃ x, s.ctl 0 = .run x ∧ x.pc = .copied 2 [7, 8]) ∧ [7, 8] <:+ s.data.delivered ∧
      (s.holder () = none →
        (s.data.nwrite - s.data.nread).toNat ≤ PIPESIZE ∧
          s.data.delivered ++ s.data.ring = s.data.stored.map Prod.snd) ∧
      ∀ p, s.data.storedBy p = writtenBy s p := by
  obtain ⟨s, hs, htest⟩ := System.exists_reachable_of_run (M := pipe (P := Fin 2))
    (l := transfer 0 1)
    (p := fun s => received s 0 2 [7, 8]) rfl (by decide +kernel)
  obtain ⟨hring, hsent, hread, -⟩ := pipe_fifo (Fin 2) s hs
  unfold received at htest
  split at htest
  · rename_i x hctl
    have hpc := beq_iff_eq.1 htest
    exact ⟨s, ⟨x, hctl, hpc⟩, hread 0 x 2 _ hctl hpc, hring, hsent⟩
  · cases htest

/-- When no writer gives up beside a sleeping reader, whoever sleeps has reason to. -/
theorem careful_noLostWakeup (P : Type) [DecidableEq P] (s : State P Unit Chan (Pipe P) Loc)
    (h : (pipe (P := P)).ReachableWhen Careful s) (hfree : s.holder () = none) (p : P)
    (l : Unit) (x : Loc) :
    (s.ctl p = .asleep .nread l x → s.data.empty ∧ s.data.writeopen = true) ∧
      (s.ctl p = .asleep .nwrite l x → s.data.full ∧ s.data.readopen = true) := by
  have hgood : (outline True).Good s := good (fun _ _ _ hcareful => hcareful) h
  constructor
  · intro hasleep
    have hidle := hgood.reason .nread hfree ⟨l, x, .inr hasleep⟩
    exact hidle trivial
  · intro hasleep
    have hidle := hgood.reason .nwrite hfree ⟨l, x, .inr hasleep⟩
    exact hidle trivial

/-- The process sleeps on the channel. -/
def asleepOn (s : State P Unit Chan (Pipe P) Loc) (p : P) (ch : Chan) : Bool :=
  match s.ctl p with
  | .asleep ch' _ _ => ch' == ch
  | _ => false

omit [DecidableEq P] in
theorem exists_of_asleepOn {p : P} {ch : Chan} (h : asleepOn s p ch = true) :
    ∃ l x, s.ctl p = .asleep ch l x := by
  unfold asleepOn at h
  split at h
  · rename_i ch' l x hctl
    rw [beq_iff_eq.mp h] at hctl
    exact ⟨l, x, hctl⟩
  · cases h

/-- `p` reads from the empty pipe. -/
def waitForBytes (p : P) : List (Act P Call) :=
  [.run p (.piperead 2), .run p (.piperead 2), .go p, .go p, .switch p]

theorem careful_noLostWakeup_wait :
    ∃ (s : State (Fin 2) Unit Chan (Pipe (Fin 2)) Loc) (l : Unit) (x : Loc),
      s.ctl 0 = .asleep .nread l x ∧ s.data.empty ∧ s.data.writeopen = true := by
  obtain ⟨s, hs, htest⟩ := System.exists_reachableWhen_of_run (M := pipe (P := Fin 2))
    (fun s _ => ¬ s.data.full) (l := waitForBytes 0)
    (p := fun s => (s.holder ()).isNone && asleepOn s 0 .nread) rfl (by decide +kernel)
  have hcareful : (pipe (P := Fin 2)).ReachableWhen Careful s :=
    hs.mono fun s a hroom p c _ hgives => by
      obtain ⟨x, addr, i, b, -, -, -, hfull, -⟩ := hgives
      exact absurd hfull hroom
  simp only [Bool.and_eq_true, Option.isNone_iff_eq_none] at htest
  obtain ⟨hfree, hasleep⟩ := htest
  obtain ⟨l, x, hctl⟩ := exists_of_asleepOn hasleep
  exact ⟨s, l, x, hctl, (careful_noLostWakeup (Fin 2) s hcareful hfree 0 l x).1 hctl⟩

/-- `p` waits for bytes; `q` begins to write and is killed. -/
def killedWriter (p q : P) : List (Act P Call) :=
  waitForBytes p ++ [.run q (.pipewrite (List.replicate 513 0)), .kill q]

/-- `q` has been killed and has stored `i` bytes, and `p` sleeps. -/
structure Filling (p q : P) (i : Nat) (s : State P Unit Chan (Pipe P) Loc) : Prop where
  asleep : asleepOn s p .nread = true
  ctl : s.ctl q = .run { pc := .writing (List.replicate 513 0) i, sent := [] }
  killed : s.killed q = true
  holder : s.holder () = some q
  nread : s.data.nread = 0
  nwrite : s.data.nwrite = BitVec.ofNat 32 i

section Filling

variable {p q : P} {i : Nat} {s : State P Unit Chan (Pipe P) Loc}

omit [DecidableEq P] in
theorem asleepOn_congr {t : State P Unit Chan (Pipe P) Loc} {ch : Chan} (h : t.ctl p = s.ctl p) :
    asleepOn t p ch = asleepOn s p ch := by
  unfold asleepOn
  rw [h]

theorem Filling.put (hpq : p ≠ q) (hi : i < PIPESIZE) (h : Filling p q i s)
    (hs : (pipe (P := P)).Reachable s) :
    ∃ t, (pipe (P := P)).Reachable t ∧ Filling p q (i + 1) t := by
  have hroom : ¬ s.data.full := by
    unfold Pipe.full PIPESIZE at *
    rw [h.nread, h.nwrite]
    bv_omega
  have hbyte : (List.replicate 513 (0 : Byte))[i]? = some 0 :=
    List.getElem?_replicate_of_lt (Nat.lt_succ_of_lt hi)
  have hrun : (pipe (P := P)).step s (.run q (.piperead 0)) = some
      { s with
        data := s.data.put q 0
        ctl := update s.ctl q
          (.run { pc := .writing (List.replicate 513 0) (i + 1), sent := [] }) } := by
    simp only [pipe, monitor, step, h.ctl, code, hbyte, if_neg hroom, perform]
  refine ⟨_, .step hs trivial hrun, ?_⟩
  exact
    { asleep := (asleepOn_congr (Function.update_of_ne hpq _ _)).trans h.asleep
      ctl := Function.update_self _ _ _
      killed := h.killed
      holder := h.holder
      nread := h.nread
      nwrite := by
        show s.data.nwrite + 1 = _
        rw [h.nwrite, BitVec.ofNat_add]
        rfl }

/-- `q` fills the ring. -/
theorem Filling.fill (hpq : p ≠ q) : ∀ n, i + n ≤ PIPESIZE → Filling p q i s →
    (pipe (P := P)).Reachable s → ∃ t, (pipe (P := P)).Reachable t ∧ Filling p q (i + n) t := by
  intro n
  induction n with
  | zero =>
      intro _ h hs
      exact ⟨s, hs, h⟩
  | succ n ih =>
      intro hle h hs
      obtain ⟨t, ht, hfilling⟩ := ih (by omega) h hs
      exact hfilling.put hpq (Nat.lt_of_succ_le hle) ht

/-- It finds no room for one byte more and gives up. -/
theorem Filling.giveUp (hpq : p ≠ q) (h : Filling p q PIPESIZE s)
    (hs : (pipe (P := P)).Reachable s) :
    ∃ t, (pipe (P := P)).Reachable t ∧ t.holder () = none ∧ ¬ t.data.empty ∧
      asleepOn t p .nread = true := by
  have hfull : s.data.full := by
    unfold Pipe.full
    rw [h.nread, h.nwrite]
    rfl
  have hbyte : (List.replicate 513 (0 : Byte))[PIPESIZE]? = some 0 :=
    List.getElem?_replicate_of_lt (by decide)
  have hrun : (pipe (P := P)).step s (.run q (.piperead 0)) = some
      { s with
        holder := update s.holder () none
        ctl := update s.ctl q
          (.run { pc := .out, sent := [] ++ (List.replicate 513 0).take PIPESIZE }) } := by
    simp only [pipe, monitor, step, h.ctl, code, hbyte, if_pos hfull, h.killed, or_true, if_true,
      perform, h.holder]
  refine ⟨_, .step hs trivial hrun, Function.update_self () none s.holder, ?_,
    (asleepOn_congr (Function.update_of_ne hpq _ _)).trans h.asleep⟩
  show s.data.nread ≠ s.data.nwrite
  rw [h.nread, h.nwrite]
  decide

end Filling

/-- `Filling`, for the replay of `killedWriter`. -/
def startsFilling (p q : P) (s : State P Unit Chan (Pipe P) Loc) : Bool :=
  match s.ctl q with
  | .run x => decide (x.pc = .writing (List.replicate 513 0) 0 ∧ x.sent = []) &&
      asleepOn s p .nread && s.killed q && decide (s.holder () = some q) &&
      decide (s.data.nread = 0) && decide (s.data.nwrite = 0)
  | _ => false

theorem filling_of_starts {p q : P} {s : State P Unit Chan (Pipe P) Loc}
    (h : startsFilling p q s = true) : Filling p q 0 s := by
  unfold startsFilling at h
  split at h
  · rename_i x hctl
    simp only [Bool.and_eq_true, decide_eq_true_eq] at h
    obtain ⟨⟨⟨⟨⟨⟨hpc, hsent⟩, hasleep⟩, hkilled⟩, hholder⟩, hnread⟩, hnwrite⟩ := h
    refine ⟨hasleep, ?_, hkilled, hholder, hnread, hnwrite⟩
    rw [hctl, ← hpc, ← hsent]
  · cases h

theorem not_all_noLostWakeup :
    ¬ ∀ s : State (Fin 2) Unit Chan (Pipe (Fin 2)) Loc, (pipe (P := Fin 2)).Reachable s →
      s.holder () = none → ∀ p l x,
        (s.ctl p = .asleep .nread l x → s.data.empty ∧ s.data.writeopen = true) ∧
          (s.ctl p = .asleep .nwrite l x → s.data.full ∧ s.data.readopen = true) := by
  intro hall
  obtain ⟨s, hs, htest⟩ := System.exists_reachable_of_run (M := pipe (P := Fin 2))
    (l := killedWriter 0 1) (p := startsFilling 0 1) rfl (by decide +kernel)
  obtain ⟨t, ht, hfilling⟩ := (filling_of_starts htest).fill (by decide) PIPESIZE (by decide) hs
  rw [Nat.zero_add] at hfilling
  obtain ⟨u, hu, hfree, hne, hasleep⟩ := hfilling.giveUp (by decide) ht
  obtain ⟨l, x, hctl⟩ := exists_of_asleepOn hasleep
  exact hne ((hall u hu hfree 0 l x).1 hctl).1

end OsWork.Ports.Pipes

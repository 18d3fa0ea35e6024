import OsWork.Verified.CStrings

/-!
# The configuration table of `mp.c`

`mpinit` looks for the table that the firmware has left in memory, checks it, and goes
through its entries.  The memory of the kernel is an array of bytes; addresses are virtual,
and no object reaches the end of the address space, so that pointers into the table do not
wrap.  In the `switch` of the loop, `default` leaves the `switch` and not the loop, and the
pointer stays where it is.

## Main results

* `scan_ends` — with known types only, the loop ends within the table.
* `EntryAt.diverges` — at an entry of an unknown type, the loop goes round for ever.
* `mpinit_scans_iff` — when the scan does what it should.
-/

namespace OsWork.Ports.MpTable

open OsWork.Verified.ByteWords
open OsWork.Verified.CStrings

/-! ## The source -/

def NCPU : Nat := 8

/-- `P2V(a)` -/
def P2V (a : Nat) : Nat := (a + 0x80000000) % 0x100000000

/-- Types of table entries. -/
def MPPROC : UInt8 := 0
def MPBUS : UInt8 := 1
def MPIOAPIC : UInt8 := 2
def MPIOINTR : UInt8 := 3
def MPLINTR : UInt8 := 4

/-- Why a call does not return. -/
inductive Stop
  | rounds
  | panic (message : String)
deriving DecidableEq

section Source

variable (b : Bytes)

/-- The `int` of `sum`. -/
def total (addr : Nat) : Nat → Nat
  | 0 => 0
  | len + 1 => total addr len + (b (addr + len)).toNat

def sum (addr len : Nat) : UInt8 := UInt8.ofNat (total b addr len)

/-- `struct mp` at `p` -/
def isMp (p : Nat) : Bool :=
  slice b p (p + 4) == [0x5F, 0x4D, 0x50, 0x5F] && sum b p 16 == 0

/-- The loop of `mpsearch1`, with a bound on its rounds. -/
def searchLoop (e : Nat) : Nat → Nat → Option Nat
  | 0, _ => none
  | n + 1, p => if p < e then if isMp b p then some p else searchLoop e n (p + 16) else none

def mpsearch1 (a len : Nat) : Option Nat := searchLoop b (P2V a + len) len (P2V a)

def mpsearch : Option Nat :=
  let bda := P2V 0x400
  let p := ((b (bda + 0x0F)).toNat <<< 8 ||| (b (bda + 0x0E)).toNat) <<< 4
  if p ≠ 0 then (mpsearch1 b p 1024).or (mpsearch1 b 0xF0000 0x10000)
  else
    let p := ((b (bda + 0x14)).toNat <<< 8 ||| (b (bda + 0x13)).toNat) * 1024
    (mpsearch1 b ((p + 0x100000000 - 1024) % 0x100000000) 1024).or
      (mpsearch1 b 0xF0000 0x10000)

/-- `conf->length` -/
def length (conf : Nat) : Nat := u16 b (conf + 4)

/-- `mpconfig`: the floating pointer and the table. -/
def mpconfig : Option (Nat × Nat) :=
  match mpsearch b with
  | none => none
  | some mp =>
      let physaddr := u32 b (mp + 4)
      let conf := P2V physaddr
      let version := b (conf + 6)
      if physaddr = 0 then none
      else if slice b conf (conf + 4) ≠ [0x50, 0x43, 0x4D, 0x50] then none
      else if version ≠ 1 ∧ version ≠ 4 then none
      else if sum b conf (length b conf) ≠ 0 then none
      else some (mp, conf)

/-- What `mpinit` sets. -/
structure Machine where
  ismp : Bool
  ncpu : Nat
  /-- `cpus[i].apicid` -/
  apicid : Nat → UInt8
  ioapicid : UInt8
  lapic : Nat
  /-- where a type has been read -/
  reads : List Nat
  /-- the ports that have been written -/
  out : List (Nat × UInt8)

/-- An entry for a processor, with the identifier of its APIC. -/
def Machine.addProc (m : Machine) (apicid : UInt8) : Machine :=
  if m.ncpu < NCPU then
    { m with apicid := Function.update m.apicid m.ncpu apicid, ncpu := m.ncpu + 1 }
  else m

/-- The loop of `mpinit` from `p` on, with a bound on its rounds. -/
def scan (e : Nat) : Nat → Nat → Machine → Except Stop Machine
  | 0, _, _ => .error .rounds
  | n + 1, p, m =>
      if p < e then
        let m := { m with reads := p :: m.reads }
        if b p = MPPROC then scan e n (p + 20) (m.addProc (b (p + 1)))
        else if b p = MPIOAPIC then scan e n (p + 8) { m with ioapicid := b (p + 1) }
        else if b p = MPBUS ∨ b p = MPIOINTR ∨ b p = MPLINTR then scan e n (p + 8) m
        -- default: the break is that of the switch
        else scan e n p { m with ismp := false }
      else .ok m

/-- The variables at the start of the kernel. -/
def booting : Machine where
  ismp := true
  ncpu := 0
  apicid := fun _ => 0
  ioapicid := 0
  lapic := 0
  reads := []
  out := []

def tableEnd (conf : Nat) : Nat := conf + length b conf

/-- The loop over the whole table. -/
def scanTable (conf n : Nat) : Except Stop Machine :=
  scan b (tableEnd b conf) n (conf + 44) { booting with lapic := u32 b (conf + 36) }

/-- `mpinit`; `imcr` is what `inb(0x23)` returns. -/
def mpinit (imcr : UInt8) (n : Nat) : Except Stop Machine :=
  match mpconfig b with
  | none => .error (.panic "Expect to run on an SMP")
  | some (mp, conf) =>
      match scanTable b conf n with
      | .error e => .error e
      | .ok m =>
          if m.ismp = false then .error (.panic "Didn't find a suitable machine")
          else if b (mp + 12) ≠ 0 then .ok { m with out := [(0x22, 0x70), (0x23, imcr ||| 1)] }
          else .ok m

end Source

/-! ## Entries -/

/-- The size of an entry; entries of other types have none. -/
def sizeOf (type : UInt8) : Option Nat :=
  if type = MPPROC then some 20
  else if type = MPBUS ∨ type = MPIOAPIC ∨ type = MPIOINTR ∨ type = MPLINTR then some 8
  else none

/-- The type is one of those that are described. -/
def Known (type : UInt8) : Prop := (sizeOf type).isSome

instance (type : UInt8) : Decidable (Known type) := inferInstanceAs (Decidable (_ = true))

/-- Where an entry of the table begins, or the table is over: the entries stand one behind
the other. -/
inductive EntryAt (b : Bytes) (conf : Nat) : Nat → Prop
  | first : EntryAt b conf (conf + 44)
  | next {p k : Nat} (h : EntryAt b conf p) (hp : p < tableEnd b conf)
      (hk : sizeOf (b p) = some k) : EntryAt b conf (p + k)

variable {b : Bytes} {e p n mp conf k : Nat} {m : Machine}

theorem sizeOf_cases (h : sizeOf (b p) = some k) :
    b p = MPPROC ∧ k = 20 ∨ b p ≠ MPPROC ∧ b p = MPIOAPIC ∧ k = 8 ∨
      b p ≠ MPPROC ∧ b p ≠ MPIOAPIC ∧ (b p = MPBUS ∨ b p = MPIOINTR ∨ b p = MPLINTR) ∧ k = 8 := by
  unfold sizeOf at h
  split at h
  next hproc =>
    cases h
    exact .inl ⟨hproc, rfl⟩
  next hproc =>
    split at h
    next hother =>
      cases h
      by_cases hapic : b p = MPIOAPIC
      · exact .inr (.inl ⟨hproc, hapic, rfl⟩)
      · exact .inr (.inr ⟨hproc, hapic, hother.imp_right fun h => h.resolve_left hapic, rfl⟩)
    next => cases h

theorem sizeOf_pos (h : sizeOf (b p) = some k) : 0 < k := by
  rcases sizeOf_cases h with ⟨-, rfl⟩ | ⟨-, -, rfl⟩ | ⟨-, -, -, rfl⟩ <;> decide

/-- An entry changes neither `ismp` nor the addresses that have been read. -/
structure Machine.Entered (m m' : Machine) : Prop where
  ismp : m'.ismp = m.ismp
  reads : m'.reads = m.reads
  ncpu : m.ncpu ≤ NCPU → m'.ncpu ≤ NCPU

theorem Machine.addProc_entered (m : Machine) (apicid : UInt8) :
    m.Entered (m.addProc apicid) := by
  unfold Machine.addProc
  split
  next hroom => exact ⟨rfl, rfl, fun _ => hroom⟩
  next => exact ⟨rfl, rfl, fun h => h⟩

/-- An entry of a known type advances the pointer by its size. -/
theorem scan_known (hp : p < e) (hk : sizeOf (b p) = some k) (m : Machine) :
    ∃ m', Machine.Entered { m with reads := p :: m.reads } m' ∧
      ∀ n, scan b e (n + 1) p m = scan b e n (p + k) m' := by
  rcases sizeOf_cases hk with ⟨hproc, rfl⟩ | ⟨hproc, hapic, rfl⟩ | ⟨hproc, hapic, hother, rfl⟩
  · refine ⟨_, Machine.addProc_entered _ (b (p + 1)), fun n => ?_⟩
    rw [scan, if_pos hp, if_pos hproc]
  · refine ⟨{ m with reads := p :: m.reads, ioapicid := b (p + 1) }, ⟨rfl, rfl, fun h => h⟩,
      fun n => ?_⟩
    rw [scan, if_pos hp, if_neg hproc, if_pos hapic]
  · refine ⟨{ m with reads := p :: m.reads }, ⟨rfl, rfl, fun h => h⟩, fun n => ?_⟩
    rw [scan, if_pos hp, if_neg hproc, if_neg hapic, if_pos hother]

/-- An entry of an unknown type leaves the pointer at its place. -/
theorem scan_unknown (hp : p < e) (hk : sizeOf (b p) = none) (n : Nat) (m : Machine) :
    scan b e (n + 1) p m = scan b e n p { m with reads := p :: m.reads, ismp := false } := by
  unfold sizeOf at hk
  split at hk
  next => cases hk
  next hproc =>
    split at hk
    next => cases hk
    next hother =>
      have hapic : b p ≠ MPIOAPIC := fun h => hother (.inr (.inl h))
      have hrest : ¬ (b p = MPBUS ∨ b p = MPIOINTR ∨ b p = MPLINTR) :=
        fun h => hother (h.imp_right .inr)
      rw [scan, if_pos hp, if_neg hproc, if_neg hapic, if_neg hrest]

/-! ## The end of the scan -/

/-- What holds of the variables during the scan of a table. -/
structure Machine.Sound (b : Bytes) (conf : Nat) (m : Machine) : Prop where
  ncpu : m.ncpu ≤ NCPU
  reads : ∀ a, a ∈ m.reads → conf ≤ a ∧ a < tableEnd b conf

theorem EntryAt.le (h : EntryAt b conf p) : conf ≤ p := by
  induction h with
  | first => exact Nat.le_add_right _ _
  | next _ _ _ ih => exact Nat.le_trans ih (Nat.le_add_right _ _)

/-- With `k` bytes to go and known types only, the scan ends. -/
theorem scan_ends (hknown : ∀ p, EntryAt b conf p → p < tableEnd b conf → Known (b p)) (k : Nat) :
    ∀ (p : Nat) (m : Machine), tableEnd b conf ≤ p + k → EntryAt b conf p → m.Sound b conf →
      ∃ m', scan b (tableEnd b conf) (k + 1) p m = .ok m' ∧ m'.Sound b conf := by
  induction k with
  | zero =>
      intro p m hk _ hm
      refine ⟨m, ?_, hm⟩
      rw [scan, if_neg (show ¬ p < tableEnd b conf by omega)]
  | succ k ih =>
      intro p m hk hp hm
      by_cases hend : p < tableEnd b conf
      · obtain ⟨size, hsize⟩ := Option.isSome_iff_exists.mp (hknown p hp hend)
        have hpos := sizeOf_pos hsize
        obtain ⟨m₁, hentered, hscan⟩ := scan_known hend hsize m
        have hm₁ : m₁.Sound b conf := by
          constructor
          · exact hentered.ncpu hm.ncpu
          · intro a ha
            rw [hentered.reads] at ha
            rcases List.mem_cons.mp ha with rfl | ha
            · exact ⟨hp.le, hend⟩
            · exact hm.reads a ha
        obtain ⟨m', hrun, hm'⟩ := ih (p + size) m₁ (by omega) (hp.next hend hsize) hm₁
        exact ⟨m', (hscan (k + 1)).trans hrun, hm'⟩
      · refine ⟨m, ?_, hm⟩
        rw [scan, if_neg hend]

theorem scan_diverges (hp : p < e) (hk : sizeOf (b p) = none) (n : Nat) :
    ∀ m, scan b e n p m = .error .rounds := by
  induction n with
  | zero => exact fun _ => rfl
  | succ n ih =>
      intro m
      rw [scan_unknown hp hk]
      exact ih _

/-- A scan that reaches an entry from which it does not end does not end. -/
theorem EntryAt.diverges (h : EntryAt b conf p)
    (hend : ∀ n m, scan b (tableEnd b conf) n p m = .error .rounds) (n : Nat) (m : Machine) :
    scan b (tableEnd b conf) n (conf + 44) m = .error .rounds := by
  induction h generalizing n m with
  | first => exact hend n m
  | next _ hp hk ih =>
      apply ih
      intro n m
      cases n with
      | zero => rfl
      | succ n =>
          obtain ⟨m', -, hscan⟩ := scan_known hp hk m
          rw [hscan]
          exact hend n m'

/-- What the scan of a table should do. -/
structure ScansWell (b : Bytes) (conf : Nat) : Prop where
  ends : ∃ n m, scanTable b conf n = .ok m ∧ m.ncpu ≤ NCPU ∧
    ∀ a, a ∈ m.reads → conf ≤ a ∧ a < conf + length b conf
  through : ∀ imcr, ∃ n, mpinit b imcr n ≠ .error .rounds
  unknown : (∃ p, EntryAt b conf p ∧ p < tableEnd b conf ∧ ¬ Known (b p)) →
    ∀ imcr, ∃ n, mpinit b imcr n = .error (.panic "Didn't find a suitable machine")

theorem mpinit_through {r : Machine} (h : mpconfig b = some (mp, conf))
    (hrun : scanTable b conf n = .ok r) (imcr : UInt8) : mpinit b imcr n ≠ .error .rounds := by
  unfold mpinit
  rw [h]
  dsimp only
  rw [hrun]
  dsimp only
  split
  · exact fun heq => by cases heq
  · split
    · exact fun heq => by cases heq
    · exact fun heq => by cases heq

/-- The scan of a table that `mpconfig` accepts is right if and only if it meets no entry of
an unknown type. -/
theorem mpinit_scans_iff (b : Bytes) (mp conf : Nat) (h : mpconfig b = some (mp, conf)) :
    ScansWell b conf ↔ ∀ p, EntryAt b conf p → p < tableEnd b conf → Known (b p) := by
  constructor
  · intro hwell p hp hend
    obtain ⟨n, m, hrun, -⟩ := hwell.ends
    by_contra hunknown
    have hnone : sizeOf (b p) = none := Option.not_isSome_iff_eq_none.mp hunknown
    have hdiverges := hp.diverges (scan_diverges hend hnone) n
    unfold scanTable at hrun
    rw [hdiverges] at hrun
    cases hrun
  · intro hknown
    obtain ⟨m, hrun, hm⟩ := scan_ends hknown (length b conf) (conf + 44)
      { booting with lapic := u32 b (conf + 36) }
      (by unfold tableEnd; omega) .first ⟨Nat.zero_le _, nofun⟩
    constructor
    · exact ⟨_, m, hrun, hm.ncpu, hm.reads⟩
    · exact fun imcr => ⟨_, mpinit_through h hrun imcr⟩
    · rintro ⟨p, hp, hend, hunknown⟩
      exact absurd (hknown p hp hend) hunknown

/-- A memory with a table in the last KB below 640 KB, where the BIOS data area says. -/
def firmware (checksum : UInt8) (entries : List UInt8) : Bytes := fun a =>
  if a = 0x8000040F then 0x9F
  else if a < 0x8009F000 then 0
  else
    bytesOf
      ([0x5F, 0x4D, 0x50, 0x5F, 0x10, 0xF0, 0x09, 0, 1, 4, 0x97, 0, 0, 0, 0, 0] ++
        [0x50, 0x43, 0x4D, 0x50, UInt8.ofNat (44 + entries.length), 0, 4, checksum] ++
        List.replicate 28 0 ++ [0, 0, 0xE0, 0xFE, 0, 0, 0, 0] ++ entries)
      (a - 0x8009F000)

/-- A processor, an I/O APIC and a bus. -/
def threeEntries : Bytes :=
  firmware 0x73
    ([0, 3, 0x14, 1] ++ List.replicate 16 0 ++ [2, 4, 0x11, 1, 0, 0, 0xC0, 0xFE] ++
      [1, 0, 0x50, 0x43, 0x49, 0x20, 0x20, 0x20])

/-- One entry of a type that is not described. -/
def unknownEntry : Bytes := firmware 0xB5 [5, 0, 0, 0, 0, 0, 0, 0]

theorem unknownEntry_config : mpconfig unknownEntry = some (0x8009F000, 0x8009F010) := by
  decide +kernel

theorem threeEntries_config : mpconfig threeEntries = some (0x8009F000, 0x8009F010) := by
  decide +kernel

theorem mpinit_scans_three :
    ScansWell threeEntries 0x8009F010 ↔
      ∀ p, EntryAt threeEntries 0x8009F010 p → p < tableEnd threeEntries 0x8009F010 →
        Known (threeEntries p) :=
  mpinit_scans_iff threeEntries 0x8009F000 0x8009F010 threeEntries_config

/-- An entry of an unknown type. -/
theorem not_all_scanned :
    ¬ ∀ (b : Bytes) (mp conf : Nat), mpconfig b = some (mp, conf) → ScansWell b conf := by
  intro hall
  obtain ⟨n, m, hrun, -⟩ := (hall unknownEntry _ _ unknownEntry_config).ends
  have hend : 0x8009F03C < tableEnd unknownEntry 0x8009F010 := by decide +kernel
  have hnone : sizeOf (unknownEntry 0x8009F03C) = none := by decide +kernel
  have hdiverges := scan_diverges hend hnone n
  unfold scanTable at hrun
  rw [hdiverges] at hrun
  cases hrun

end OsWork.Ports.MpTable

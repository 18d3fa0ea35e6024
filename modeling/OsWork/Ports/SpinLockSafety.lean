import OsWork.Ports.SpinLocks
import Mathlib.Data.Finset.Card
import Mathlib.Data.Finset.Insert

/-!
# What the code of a kernel stack needs of its CPU

`ncli` is a property of the CPU and `intena` one of the thread: `sched` carries it from
CPU to CPU.  Therefore what a thread needs of the CPU is written down for the functions
it is in the middle of, as a weakest precondition (`Safe`) of what it knows (`View`),
and a thread that is not running keeps it for the CPU that will run it.

## Main results

* `safe_call` — every function that the kernel calls is safe between two others.
* `safe_scheduler`, `safe_scan` — and so is a round of the scheduler.
-/

namespace OsWork.Ports.SpinLocks

open OsWork.Ports.KernelLocks (Lock)

/-! ## What a frame needs -/

/-- What the code of a frame knows of the CPU it runs on: the flag and the counts, the
locks held, those of them that name the CPU, and its locals. -/
structure View where
  cpu : Cpu
  held : Finset Lock
  named : Finset Lock
  eflags : Bool
  r : Bool
  intena : Bool

/-- Between two functions, for a frame entered with the flag `g`. -/
structure Body (g : Option Bool) (v : View) : Prop where
  named : v.named = v.held
  counted : v.cpu.ncli = v.held.card
  masked : v.cpu.fl_if = true → v.cpu.ncli = 0
  outside : v.cpu.ncli = 0 → ∀ b ∈ g, v.cpu.fl_if = b
  inside : 0 < v.cpu.ncli → ∀ b ∈ g, v.cpu.intena = b

/-- In the middle of a function. -/
structure Off (op : Op) (v : View) : Prop where
  sub : v.named ⊆ v.held
  named : ∀ l ∈ v.held, l ∈ v.named ∨ op = .setcpu l ∨ op = .unlock l
  counted : (v.held.card : Int) ≤ v.cpu.ncli
  masked : v.cpu.fl_if = true → v.cpu.ncli = 0

/-- Where one stack is left for another: `ptable.lock` is held, and nothing else. -/
structure Gate (v : View) : Prop where
  off : v.cpu.fl_if = false
  one : v.cpu.ncli = 1
  held : v.held = {.ptable}
  named : v.named = {.ptable}

/-- The weakest precondition of the rest of a function: no `panic` but for a mistake of
the caller, interrupts off where it counts, and `Body` at the end.  After `swtch` the
CPU may be another one, with an `intena` of its own. -/
def Safe (g : Option Bool) : List Op → View → Prop
  | [], v => Body g v
  | op :: k, v => Off op v ∧
      match op with
      | .readeflags => Safe g k { v with eflags := v.cpu.fl_if }
      | .cli => Safe g k { v with cpu := { v.cpu with fl_if := false } }
      | .count =>
          v.cpu.fl_if = false ∧
            Safe g k { v with
              cpu := { v.cpu with
                ncli := v.cpu.ncli + 1
                intena := if v.cpu.ncli = 0 then v.eflags else v.cpu.intena } }
      | .interruptible _ => v.cpu.fl_if = false ∧ Safe g k v
      | .uncount =>
          v.cpu.fl_if = false ∧ 0 < v.cpu.ncli ∧
            Safe g k { v with
              cpu := { v.cpu with
                ncli := v.cpu.ncli - 1
                fl_if := decide (v.cpu.ncli - 1 = 0) && v.cpu.intena } }
      | .locked l => ∀ b, (l ∈ v.held → b = true) → Safe g k { v with r := b }
      | .cpu l => v.cpu.fl_if = false ∧ Safe g k { v with r := v.r && decide (l ∈ v.named) }
      | .panicIf l _ => v.r = decide (l ∈ v.held) ∧ (l ∉ v.held → Safe g k v)
      | .panicUnless l _ => v.r = decide (l ∈ v.held) ∧ (l ∈ v.held → Safe g k v)
      | .xchg l => l ∉ v.held ∧ Safe g k { v with held := insert l v.held }
      | .setcpu l =>
          v.cpu.fl_if = false ∧ l ∈ v.held ∧ Safe g k { v with named := insert l v.named }
      | .clearcpu l => l ∈ v.held ∧ Safe g k { v with named := v.named.erase l }
      | .unlock l =>
          l ∈ v.held ∧ l ∉ v.named ∧ Safe g k { v with held := v.held.erase l }
      | .ncliOne =>
          v.cpu.fl_if = false ∧ v.cpu.ncli = v.held.card ∧ .ptable ∈ v.held ∧
            (v.cpu.ncli = 1 → Safe g k v)
      | .running b => b = false → Safe g k v
      | .save =>
          v.cpu.fl_if = false ∧ 0 < v.cpu.ncli ∧ Safe g k { v with intena := v.cpu.intena }
      | .swtch | .resume =>
          Gate v ∧ ∀ b, Safe g k { v with cpu := { v.cpu with intena := b } }
      | .load =>
          v.cpu.fl_if = false ∧
            Safe g k { v with cpu := { v.cpu with intena := v.intena } }
      | .sti =>
          v.held = ∅ ∧ v.cpu.ncli = 0 ∧
            Safe g k { v with cpu := { v.cpu with fl_if := true } }
      | .scan => Gate v ∧ g = none

variable {g : Option Bool} {v : View} {k : List Op} {l : Lock}

/-- Outside of `pushcli` and `popcli`, `intena` is of no account. -/
theorem Safe.intena {ops : List Op} (h : Safe g ops v) (h0 : v.cpu.ncli = 0) (b : Bool) :
    Safe g ops { v with cpu := { v.cpu with intena := b } } := by
  induction ops generalizing v with
  | nil =>
      exact ⟨h.named, h.counted, h.masked, h.outside, fun hpos => by simp [h0] at hpos⟩
  | cons op k ih =>
      obtain ⟨hoff, hop⟩ := h
      refine ⟨⟨hoff.sub, hoff.named, hoff.counted, hoff.masked⟩, ?_⟩
      cases op with
      | readeflags | cli => exact ih hop h0
      | interruptible | cpu | clearcpu => exact ⟨hop.1, ih hop.2 h0⟩
      | locked => exact fun c hc => ih (hop c hc) h0
      | panicIf | panicUnless => exact ⟨hop.1, fun hl => ih (hop.2 hl) h0⟩
      | xchg => exact ⟨hop.1, ih hop.2 h0⟩
      | setcpu | unlock => exact ⟨hop.1, hop.2.1, ih hop.2.2 h0⟩
      | sti => exact ⟨hop.1, hop.2.1, ih hop.2.2 h0⟩
      | load => exact hop
      | count =>
          simp only [h0, if_true] at hop ⊢
          exact hop
      | running => exact fun hb => ih (hop hb) h0
      | ncliOne =>
          refine ⟨hop.1, hop.2.1, hop.2.2.1, fun h1 => ?_⟩
          rw [h0] at h1
          exact absurd h1 (by decide)
      | uncount | save =>
          have hpos := hop.2.1
          rw [h0] at hpos
          exact absurd hpos (by decide)
      | swtch | resume | scan =>
          have h1 := hop.1.one
          rw [h0] at h1
          exact absurd h1 (by decide)

/-! ### The functions -/

/-- In the middle of a function, where the locks held are those that name the CPU. -/
structure Level (v : View) : Prop where
  named : v.named = v.held
  counted : (v.held.card : Int) ≤ v.cpu.ncli
  masked : v.cpu.fl_if = true → v.cpu.ncli = 0

theorem Off.level {op : Op} (hnamed : v.named = v.held)
    (hcounted : (v.held.card : Int) ≤ v.cpu.ncli)
    (hmasked : v.cpu.fl_if = true → v.cpu.ncli = 0) : Off op v where
  sub := hnamed.subset
  named _ hl := .inl (hnamed ▸ hl)
  counted := hcounted
  masked := hmasked

theorem Level.off (h : Level v) (op : Op) : Off op v :=
  .level h.named h.counted h.masked

theorem Body.level (h : Body g v) : Level v :=
  ⟨h.named, h.counted.ge, h.masked⟩

/-- The CPU after `pushcli`. -/
def Cpu.push (x : Cpu) : Cpu :=
  { ncli := x.ncli + 1
    intena := if x.ncli = 0 then x.fl_if else x.intena
    fl_if := false }

/-- The CPU after `popcli`. -/
def Cpu.pop (x : Cpu) : Cpu :=
  { ncli := x.ncli - 1
    intena := x.intena
    fl_if := decide (x.ncli - 1 = 0) && x.intena }

theorem Level.push (h : Level v) : Level { v with cpu := v.cpu.push } where
  named := h.named
  counted := Int.le_add_one h.counted
  masked hfl := by simp [Cpu.push] at hfl

theorem safe_pushcli (h : Level v)
    (hk : Safe g k { v with cpu := v.cpu.push, eflags := v.cpu.fl_if }) :
    Safe g (pushcli ++ k) v := by
  refine ⟨h.off _, .level h.named h.counted h.masked, ?_⟩
  exact ⟨.level h.named h.counted (fun hfl => by simp at hfl), rfl, hk⟩

theorem safe_popcli (h : Level v) (hfl : v.cpu.fl_if = false) (hpos : 0 < v.cpu.ncli)
    (hk : Safe g k { v with cpu := v.cpu.pop }) : Safe g (popcli ++ k) v :=
  ⟨h.off _, hfl, h.off _, hfl, hpos, hk⟩

theorem Level.nonneg (h : Level v) : 0 ≤ v.cpu.ncli :=
  (Int.natCast_nonneg _).trans h.counted

/-- `popcli` undoes `pushcli`. -/
theorem Level.push_pop (h : Level v) :
    v.cpu.push.pop =
      { v.cpu with intena := if v.cpu.ncli = 0 then v.cpu.fl_if else v.cpu.intena } := by
  simp only [Cpu.push, Cpu.pop, Int.add_sub_cancel, Cpu.mk.injEq, true_and]
  by_cases h0 : v.cpu.ncli = 0
  · simp [h0]
  · have hfl : v.cpu.fl_if = false := by
      cases hfl : v.cpu.fl_if with
      | false => rfl
      | true => exact absurd (h.masked hfl) h0
    simp [h0, hfl]

/-- `holding` returns whether the lock is held, and changes nothing that counts. -/
theorem safe_holding (h : Level v)
    (hk : ∀ e, Safe g k
      { v with
        cpu := { v.cpu with
          intena := if v.cpu.ncli = 0 then v.cpu.fl_if else v.cpu.intena }
        eflags := e
        r := decide (l ∈ v.held) }) :
    Safe g (holding l ++ k) v := by
  have hin := h.push
  have hpos : 0 < v.cpu.push.ncli := Int.lt_add_one_of_le h.nonneg
  simp only [holding, List.append_assoc]
  refine safe_pushcli h ⟨.level hin.named hin.counted hin.masked, fun b hb => ?_⟩
  refine ⟨.level hin.named hin.counted hin.masked, rfl, ?_⟩
  refine safe_popcli ⟨hin.named, hin.counted, hin.masked⟩ rfl hpos ?_
  have hr : (b && decide (l ∈ v.named)) = decide (l ∈ v.held) := by
    rw [h.named]
    by_cases hl : l ∈ v.held
    · simp [hl, hb hl]
    · simp [hl]
  simp only [h.push_pop, hr]
  exact hk _

theorem Body.cli (h : Body g v) (hpos : 0 < v.cpu.ncli) : v.cpu.fl_if = false := by
  cases hfl : v.cpu.fl_if with
  | false => rfl
  | true =>
      have h0 := h.masked hfl
      omega

/-- `holding` between two functions, for instance at the start of `release`. -/
theorem Body.holding (h : Body g v) (e r : Bool) :
    Body g
      { v with
        cpu := { v.cpu with
          intena := if v.cpu.ncli = 0 then v.cpu.fl_if else v.cpu.intena }
        eflags := e
        r := r } where
  named := h.named
  counted := h.counted
  masked := h.masked
  outside := h.outside
  inside hpos b hb := by
    have hne : v.cpu.ncli ≠ 0 := hpos.ne'
    simpa only [if_neg hne] using h.inside hpos b hb

/-- One more lock, and one more `pushcli`. -/
theorem Body.take (h : Body g v) (hl : l ∉ v.held) (e r : Bool) :
    Body g
      { v with
        cpu := v.cpu.push
        held := insert l v.held
        named := insert l v.named
        eflags := e
        r := r } where
  named := by rw [h.named]
  counted := by
    simp only [Cpu.push, Finset.card_insert_of_notMem hl, h.counted]
    rfl
  masked hfl := by simp [Cpu.push] at hfl
  outside h0 := by
    have h1 := h.level.nonneg
    simp only [Cpu.push] at h0
    omega
  inside _ b hb := by
    simp only [Cpu.push]
    split
    · rename_i h0
      exact h.outside h0 b hb
    · rename_i h0
      have h1 := h.level.nonneg
      exact h.inside (by omega) b hb

theorem safe_acquire (h : Body g v)
    (hk : ∀ w, Body g w → w.held = insert l v.held → w.cpu.fl_if = false → Safe g k w) :
    Safe g (acquire l ++ k) v := by
  have hlevel := h.level
  have hin := hlevel.push
  have hne : v.cpu.push.ncli ≠ 0 := by
    have h0 := hlevel.nonneg
    simp only [Cpu.push]
    omega
  simp only [acquire, List.append_assoc]
  refine safe_pushcli hlevel (safe_holding ⟨hin.named, hin.counted, hin.masked⟩ fun e => ?_)
  simp only [if_neg hne]
  refine ⟨.level hin.named hin.counted hin.masked, rfl, fun hl => ?_⟩
  have hbody := h.take hl e (decide (l ∈ v.held))
  refine ⟨.level hin.named hin.counted hin.masked, hl, ?_, rfl, ?_, ?_⟩
  · exact
      { sub := h.named ▸ Finset.subset_insert l v.held
        named := by
          intro l' hl'
          rcases Finset.mem_insert.mp hl' with rfl | hold
          · exact .inr (.inl rfl)
          · exact .inl (h.named ▸ hold)
        counted := hbody.counted.ge
        masked := hbody.masked }
  · exact Finset.mem_insert_self l v.held
  · exact hk _ hbody rfl rfl

/-- One lock less, and one `popcli`. -/
theorem Body.drop (h : Body g v) (hl : l ∈ v.held) (e r : Bool) :
    Body g
      { v with
        cpu := v.cpu.pop
        held := v.held.erase l
        named := v.named.erase l
        eflags := e
        r := r } where
  named := by rw [h.named]
  counted := by
    have hcard := Finset.card_erase_add_one hl
    have hcount := h.counted
    simp only [Cpu.pop]
    omega
  masked hfl := by
    simp only [Cpu.pop, Bool.and_eq_true, decide_eq_true_eq] at hfl ⊢
    exact hfl.1
  outside h0 b hb := by
    have hcard := Finset.card_erase_add_one hl
    have hcount := h.counted
    simp only [Cpu.pop] at h0 ⊢
    rw [h.inside (by omega) b hb]
    simp [h0]
  inside hpos b hb := by
    simp only [Cpu.pop] at hpos ⊢
    exact h.inside (by omega) b hb

theorem safe_release (h : Body g v)
    (hk : ∀ w, Body g w → w.held = v.held.erase l → Safe g k w) :
    Safe g (release l ++ k) v := by
  simp only [release, List.append_assoc]
  refine safe_holding h.level fun e => ?_
  have hbody := h.holding e (decide (l ∈ v.held))
  refine ⟨hbody.level.off _, rfl, fun hl => ?_⟩
  have hcard : (v.held.erase l).card + 1 = v.held.card := Finset.card_erase_add_one hl
  have hcount := h.counted
  have hpos : 0 < v.cpu.ncli := by omega
  have hne : v.cpu.ncli ≠ 0 := by omega
  have hend := hbody.drop hl e (decide (l ∈ v.held))
  simp only [if_neg hne] at hbody hend ⊢
  refine ⟨hbody.level.off _, hl, ?_, hl, ?_, ?_⟩
  · exact
      { sub := h.named ▸ Finset.erase_subset l v.held
        named := by
          intro l' hl'
          by_cases heq : l' = l
          · exact .inr (.inr (heq ▸ rfl))
          · exact .inl (Finset.mem_erase.mpr ⟨heq, h.named ▸ hl'⟩)
        counted := hcount.ge
        masked := h.masked }
  · simp
  · exact safe_popcli ⟨hend.named, by simp only; omega, h.masked⟩ (h.cli hpos) hpos
      (hk _ hend rfl)

theorem safe_myproc (h : Body g v)
    (hk : ∀ w, Body g w → w.held = v.held → Safe g k w) : Safe g (myproc ++ k) v := by
  have hin := h.level.push
  have hpos : 0 < v.cpu.push.ncli := Int.lt_add_one_of_le h.level.nonneg
  simp only [myproc, List.append_assoc]
  refine safe_pushcli h.level (safe_popcli ⟨hin.named, hin.counted, hin.masked⟩ rfl hpos ?_)
  simp only [h.level.push_pop]
  exact hk _ (h.holding v.cpu.fl_if v.r) rfl

/-- `Body` with `ptable.lock` and nothing else, where stacks change. -/
theorem Body.gate (h : Body g v) (hheld : v.held = {.ptable}) : Gate v where
  off := h.cli (by simp [h.counted, hheld])
  one := by simp [h.counted, hheld]
  held := hheld
  named := h.named.trans hheld

theorem safe_sched {running : Bool} (h : Body g v) (hk : ∀ w, Body g w → Safe g k w) :
    Safe g (SpinLocks.sched running ++ k) v := by
  simp only [SpinLocks.sched, List.append_assoc]
  refine safe_myproc h fun u hu _ => safe_holding hu.level fun e => ?_
  have hbody := hu.holding e (decide (.ptable ∈ u.held))
  refine ⟨hbody.level.off _, rfl, fun hl => ?_⟩
  have hpos : 0 < u.cpu.ncli := by
    have hcard : 0 < u.held.card := Finset.card_pos.mpr ⟨_, hl⟩
    have hcount := hu.counted
    omega
  have hoff := hu.cli hpos
  refine ⟨hbody.level.off _, hoff, hu.counted, hl, fun hone => ?_⟩
  have hheld : u.held = {.ptable} := by
    have hcount := hu.counted
    obtain ⟨l', hl'⟩ := Finset.card_eq_one.mp (show u.held.card = 1 by simp only at hone; omega)
    rw [hl'] at hl ⊢
    rw [Finset.mem_singleton.mp hl]
  have hgate := hbody.gate hheld
  refine ⟨hbody.level.off _, fun _ => ?_⟩
  refine ⟨hbody.level.off _, hoff, hbody.level.off _, hoff, hpos, ?_⟩
  refine ⟨.level hu.named hu.counted.ge hu.masked,
    ⟨hgate.off, hgate.one, hgate.held, hgate.named⟩, fun b => ?_⟩
  refine ⟨.level hu.named hu.counted.ge hu.masked, hoff, hk _ ?_⟩
  exact ⟨hu.named, hu.counted, hu.masked, hu.outside, hbody.inside⟩

/-- What the kernel calls is safe between two functions. -/
theorem safe_call (h : Body g v) (fn : Fn) : Safe g fn.ops v := by
  rw [← List.append_nil fn.ops]
  cases fn with
  | acquire l => exact safe_acquire h fun w hw _ _ => hw
  | release l => exact safe_release h fun w hw _ => hw
  | holding l => exact safe_holding h.level fun e => h.holding e _
  | myproc | switchuvm => exact safe_myproc h fun w hw _ => hw
  | sched running => exact safe_sched h fun w hw => hw

theorem Gate.body (h : Gate v) : Body none v where
  named := h.named.trans h.held.symm
  counted := by simp [h.one, h.held]
  masked hfl := by simp [h.off] at hfl
  outside _ b hb := by simp at hb
  inside _ b hb := by simp at hb

/-- A round of the scheduler, from `sti` to the scan. -/
theorem safe_scheduler (h : Body none v) (hheld : v.held = ∅) :
    Safe none SpinLocks.scheduler v := by
  have h0 : v.cpu.ncli = 0 := by simp [h.counted, hheld]
  refine ⟨h.level.off _, hheld, h0, ?_⟩
  refine safe_acquire ⟨h.named, h.counted, fun _ => h0, ?_, ?_⟩ fun w hw hset _ => ?_
  · exact fun _ b hb => by simp at hb
  · exact fun _ b hb => by simp at hb
  · have hgate := hw.gate (by simpa [hheld] using hset)
    exact ⟨hw.level.off _, hgate, rfl⟩

/-- The scan ends, or comes to a process. -/
theorem safe_scan (h : Gate v) :
    Safe none (release .ptable ++ SpinLocks.scheduler) v ∧
      Safe none (SpinLocks.switchuvm ++ [.resume, .scan]) v := by
  constructor
  · refine safe_release h.body fun w hw hheld => safe_scheduler hw ?_
    simp [hheld, h.held]
  · refine safe_myproc h.body fun w hw hheld => ?_
    have hgate := hw.gate (hheld.trans h.held)
    refine ⟨hw.level.off _, hgate, fun b => ?_⟩
    have hthere : Gate { w with cpu := { w.cpu with intena := b } } :=
      ⟨hgate.off, hgate.one, hgate.held, hgate.named⟩
    exact ⟨hthere.body.level.off _, hthere, rfl⟩

end OsWork.Ports.SpinLocks

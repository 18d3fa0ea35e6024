import OsWork.Ports.SpinLockSafety

/-!
# One instruction of the spin locks

What an instruction does to the locks, for the CPU that executes it and for the others.

## Main results

* `Op.run_ok` — a safe instruction leaves a safe rest.
* `Op.run_error` — it panics by a mistake of the caller only.
-/

namespace OsWork.Ports.SpinLocks

open OsWork.Ports.KernelLocks (Lock)
open Function (update)

variable {C : Type} [DecidableEq C]

variable {g : Option Bool} {v : View} {k : List Op} {l : Lock}

/-! ## One instruction -/

/-- The owners of the locks: a lock that names a CPU is that CPU's. -/
structure Locks (lk : Lock → Spinlock C) (own : Lock → Option C) : Prop where
  locked : ∀ l, (lk l).locked = (own l).isSome
  named : ∀ l c, (lk l).cpu = some c → own l = some c

/-- The view is that of the frame on CPU `c`. -/
structure Knows (lk : Lock → Spinlock C) (own : Lock → Option C) (c : C) (x : Cpu)
    (f : Frame) (v : View) : Prop where
  cpu : v.cpu = x
  held : ∀ l, l ∈ v.held ↔ own l = some c
  named : ∀ l, l ∈ v.named ↔ (lk l).cpu = some c
  eflags : v.eflags = f.eflags
  r : v.r = f.r
  intena : v.intena = f.intena

/-- For CPU `d` nothing about the locks has changed. -/
def Elsewhere (lk lk' : Lock → Spinlock C) (own own' : Lock → Option C) (d : C) : Prop :=
  ∀ l, (own' l = some d ↔ own l = some d) ∧ ((lk' l).cpu = some d ↔ (lk l).cpu = some d)

/-- An instruction that does not change stacks. -/
def Op.Stays : Op → Prop
  | .swtch | .scan | .resume => False
  | _ => True

/-- What is left of a frame after one of its instructions is safe. -/
structure Goes (g : Option Bool) (lk lk' : Lock → Spinlock C) (own own' : Lock → Option C)
    (c : C) (x' : Cpu) (f f' : Frame) : Prop where
  locks : Locks lk' own'
  safe : ∃ v, Knows lk' own' c x' f' v ∧ Safe g f'.ops v
  kind : f'.kind = f.kind
  saved : f'.saved = f.saved
  others : ∀ d, d ≠ c → Elsewhere lk lk' own own' d

section Instruction

variable {lk : Lock → Spinlock C} {own : Lock → Option C} {c : C} {x x' : Cpu}
  {f f' : Frame}

omit [DecidableEq C] in
/-- An instruction that leaves the locks alone. -/
theorem Goes.quiet (hl : Locks lk own) {w : View} (hs : Safe g f'.ops w)
    (hk : Knows lk own c x' f' w) (hkind : f'.kind = f.kind) (hsaved : f'.saved = f.saved) :
    Goes g lk lk own own c x' f f' :=
  ⟨hl, ⟨w, hk, hs⟩, hkind, hsaved, fun _ _ _ => ⟨Iff.rfl, Iff.rfl⟩⟩

omit [DecidableEq C] in
/-- Which CPU a lock names does not depend on whether it is locked. -/
theorem cpu_update (lk : Lock → Spinlock C) (l l' : Lock) (b : Bool) :
    (update lk l { lk l with locked := b } l').cpu = (lk l').cpu := by
  by_cases heq : l' = l
  · subst heq
    simp
  · rw [Function.update_of_ne heq]

omit [DecidableEq C] in
theorem locked_update (hl : Locks lk own) (o : Option C) (l' : Lock) :
    (update lk l { lk l with locked := o.isSome } l').locked =
      (update own l o l').isSome := by
  by_cases heq : l' = l
  · subst heq
    simp
  · simp only [Function.update_of_ne heq]
    exact hl.locked l'

omit [DecidableEq C] in
/-- The exchange finds the lock free. -/
theorem Goes.take (hl : Locks lk own) (hk : Knows lk own c x f v)
    (hfree : (lk l).locked = false) (hs : Safe g k { v with held := insert l v.held }) :
    Goes g lk (update lk l { lk l with locked := true }) own (update own l (some c)) c x f
      { f with ops := k } := by
  have hnone : own l = none := by
    simpa [hfree] using hl.locked l
  have hown : ∀ l' d, update own l (some c) l' = some d ↔
      own l' = some d ∨ l' = l ∧ c = d := by
    intro l' d
    by_cases heq : l' = l
    · subst heq
      simp [hnone]
    · simp [heq]
  refine ⟨⟨locked_update hl (some c), fun l' d h => ?_⟩, ⟨_, ?_, hs⟩, rfl, rfl, ?_⟩
  · rw [cpu_update] at h
    exact (hown l' d).mpr (.inl (hl.named l' d h))
  · refine ⟨hk.cpu, fun l' => ?_, fun l' => ?_, hk.eflags, hk.r, hk.intena⟩
    · rw [hown]
      simp only [Finset.mem_insert, hk.held, and_true]
      exact or_comm
    · rw [cpu_update]
      exact hk.named l'
  · intro d hd l'
    refine ⟨?_, by rw [cpu_update]⟩
    rw [hown]
    constructor
    · rintro (h | ⟨-, h⟩)
      · exact h
      · exact absurd h.symm hd
    · exact .inl

omit [DecidableEq C] in
/-- The lock is unlocked. -/
theorem Goes.drop (hl : Locks lk own) (hk : Knows lk own c x f v) (hmem : l ∈ v.held)
    (hnot : l ∉ v.named) (hs : Safe g k { v with held := v.held.erase l }) :
    Goes g lk (update lk l { lk l with locked := false }) own (update own l none) c x f
      { f with ops := k } := by
  have hmine : own l = some c := (hk.held l).mp hmem
  have hown : ∀ l' d, update own l none l' = some d ↔ l' ≠ l ∧ own l' = some d := by
    intro l' d
    by_cases heq : l' = l
    · subst heq
      simp
    · simp [heq]
  refine ⟨⟨locked_update hl none, fun l' d h => ?_⟩, ⟨_, ?_, hs⟩, rfl, rfl, ?_⟩
  · rw [cpu_update] at h
    have hd := hl.named l' d h
    refine (hown l' d).mpr ⟨?_, hd⟩
    rintro rfl
    have hdc : c = d := Option.some.inj (hmine.symm.trans hd)
    exact hnot ((hk.named _).mpr (hdc ▸ h))
  · refine ⟨hk.cpu, fun l' => ?_, fun l' => ?_, hk.eflags, hk.r, hk.intena⟩
    · rw [hown]
      simp only [Finset.mem_erase, hk.held]
    · rw [cpu_update]
      exact hk.named l'
  · intro d hd l'
    refine ⟨?_, by rw [cpu_update]⟩
    rw [hown]
    constructor
    · exact And.right
    · intro h
      refine ⟨?_, h⟩
      rintro rfl
      exact hd (Option.some.inj (h.symm.trans hmine))

omit [DecidableEq C] in
/-- A lock of the CPU's own comes to name the CPU, or no longer does. -/
theorem Goes.name (hl : Locks lk own) (hk : Knows lk own c x f v) (hmem : l ∈ v.held)
    {o : Option C} (ho : ∀ d, o = some d → d = c) {N : Finset Lock}
    (hN : ∀ l', l' ∈ N ↔ if l' = l then o = some c else l' ∈ v.named)
    (hs : Safe g k { v with named := N }) :
    Goes g lk (update lk l { lk l with cpu := o }) own own c x f { f with ops := k } := by
  have hmine : own l = some c := (hk.held l).mp hmem
  have hcpu : ∀ l' d, (update lk l { lk l with cpu := o } l').cpu = some d ↔
      if l' = l then o = some d else (lk l').cpu = some d := by
    intro l' d
    by_cases heq : l' = l
    · subst heq
      simp
    · simp [heq]
  refine ⟨⟨fun l' => ?_, fun l' d h => ?_⟩, ⟨_, ?_, hs⟩, rfl, rfl, ?_⟩
  · by_cases heq : l' = l
    · subst heq
      simpa using hl.locked l'
    · simp only [Function.update_of_ne heq]
      exact hl.locked l'
  · rw [hcpu] at h
    split at h
    · rename_i heq
      rw [heq, ho d h]
      exact hmine
    · exact hl.named l' d h
  · refine ⟨hk.cpu, hk.held, fun l' => ?_, hk.eflags, hk.r, hk.intena⟩
    rw [hcpu, hN]
    by_cases heq : l' = l
    · simp [heq]
    · simp only [if_neg heq]
      exact hk.named l'
  · intro d hd l'
    refine ⟨Iff.rfl, ?_⟩
    rw [hcpu]
    by_cases heq : l' = l
    · rw [if_pos heq, heq]
      constructor
      · intro h
        exact absurd (ho d h) hd
      · intro h
        exact absurd (Option.some.inj ((hl.named l d h).symm.trans hmine)) hd
    · rw [if_neg heq]

end Instruction

section Run

variable {lk lk' : Lock → Spinlock C} {own : Lock → Option C} {c : C} {x x' : Cpu}
  {f f' : Frame} {op : Op}

theorem mycpu_ok {α : Type} {a b : α} (hoff : x.fl_if = false) (h : mycpu x a = .ok b) :
    a = b := by
  simpa [mycpu, hoff] using h

/-- A safe instruction leaves a safe rest. -/
theorem Op.run_ok (hl : Locks lk own) (hk : Knows lk own c x f v)
    (hs : Safe g (op :: k) v) (hops : f.ops = op :: k) (hstays : op.Stays)
    (hrun : op.run c lk x f k = .ok (lk', x', f')) :
    ∃ own', Goes g lk lk' own own' c x' f f' := by
  obtain ⟨hcpu, hheld, hnamed, heflags, hr, hintena⟩ := hk
  have hk : Knows lk own c x f v := ⟨hcpu, hheld, hnamed, heflags, hr, hintena⟩
  obtain ⟨-, hop⟩ := id hs
  subst hcpu
  cases op with
  | readeflags =>
      cases hrun
      exact ⟨own, .quiet hl hop ⟨rfl, hheld, hnamed, rfl, hr, hintena⟩ rfl rfl⟩
  | cli =>
      cases hrun
      exact ⟨own, .quiet hl hop ⟨rfl, hheld, hnamed, heflags, hr, hintena⟩ rfl rfl⟩
  | count =>
      cases mycpu_ok hop.1 hrun
      rw [heflags] at hop
      exact ⟨own, .quiet hl hop.2 ⟨rfl, hheld, hnamed, rfl, hr, hintena⟩ rfl rfl⟩
  | interruptible msg =>
      simp only [run, hop.1] at hrun
      cases hrun
      exact ⟨own, .quiet hl hop.2 ⟨rfl, hheld, hnamed, heflags, hr, hintena⟩ rfl rfl⟩
  | uncount =>
      have hnot : ¬ v.cpu.ncli - 1 < 0 := by
        have hpos := hop.2.1
        omega
      simp only [run, hop.1, if_neg hnot] at hrun
      cases hrun
      exact ⟨own, .quiet hl hop.2.2 ⟨rfl, hheld, hnamed, heflags, hr, hintena⟩ rfl rfl⟩
  | locked l =>
      cases hrun
      have hlocked : l ∈ v.held → (lk l).locked = true := by
        intro hmem
        rw [hl.locked, (hheld l).mp hmem]
        rfl
      exact ⟨own, .quiet hl (hop _ hlocked) ⟨rfl, hheld, hnamed, heflags, rfl, hintena⟩ rfl rfl⟩
  | cpu l =>
      obtain ⟨hoff, hrest⟩ := hop
      cases mycpu_ok hoff hrun
      rw [hr, decide_eq_decide.mpr (hnamed l)] at hrest
      exact ⟨own, .quiet hl hrest ⟨rfl, hheld, hnamed, heflags, rfl, hintena⟩ rfl rfl⟩
  | panicIf l msg =>
      simp only [run] at hrun
      split at hrun
      · cases hrun
      · rename_i hfalse
        cases hrun
        rw [← hr, hop.1, decide_eq_true_eq] at hfalse
        exact ⟨own, .quiet hl (hop.2 hfalse) ⟨rfl, hheld, hnamed, heflags, hr, hintena⟩ rfl rfl⟩
  | panicUnless l msg =>
      simp only [run] at hrun
      split at hrun
      · rename_i htrue
        cases hrun
        rw [← hr, hop.1, decide_eq_true_eq] at htrue
        exact ⟨own, .quiet hl (hop.2 htrue) ⟨rfl, hheld, hnamed, heflags, hr, hintena⟩ rfl rfl⟩
      · cases hrun
  | xchg l =>
      simp only [run] at hrun
      split at hrun
      · cases hrun
        exact ⟨own, .quiet hl (hops ▸ hs) hk rfl rfl⟩
      · rename_i hfree
        cases hrun
        exact ⟨_, .take hl hk (by simpa using hfree) hop.2⟩
  | setcpu l =>
      cases mycpu_ok hop.1 hrun
      refine ⟨_, .name hl hk hop.2.1 (fun d hd => (Option.some.inj hd).symm) (fun l' => ?_)
        hop.2.2⟩
      by_cases heq : l' = l <;> simp [heq]
  | clearcpu l =>
      cases hrun
      refine ⟨_, .name hl hk hop.1 (fun d hd => by simp at hd) (fun l' => ?_) hop.2⟩
      by_cases heq : l' = l <;> simp [heq]
  | unlock l =>
      cases hrun
      exact ⟨_, .drop hl hk hop.1 hop.2.1 hop.2.2⟩
  | ncliOne =>
      simp only [run, hop.1] at hrun
      split at hrun
      · cases hrun
      · split at hrun
        · rename_i hone
          cases hrun
          exact ⟨own, .quiet hl (hop.2.2.2 hone)
            ⟨rfl, hheld, hnamed, heflags, hr, hintena⟩ rfl rfl⟩
        · cases hrun
  | running b =>
      cases b with
      | true => cases hrun
      | false =>
          cases hrun
          exact ⟨own, .quiet hl (hop rfl) ⟨rfl, hheld, hnamed, heflags, hr, hintena⟩ rfl rfl⟩
  | save =>
      cases mycpu_ok hop.1 hrun
      exact ⟨own, .quiet hl hop.2.2 ⟨rfl, hheld, hnamed, heflags, hr, rfl⟩ rfl rfl⟩
  | load =>
      cases mycpu_ok hop.1 hrun
      rw [hintena] at hop
      exact ⟨own, .quiet hl hop.2 ⟨rfl, hheld, hnamed, heflags, hr, rfl⟩ rfl rfl⟩
  | sti =>
      cases hrun
      exact ⟨own, .quiet hl hop.2.2 ⟨rfl, hheld, hnamed, heflags, hr, hintena⟩ rfl rfl⟩
  | swtch | scan | resume => exact absurd hstays (by simp [Stays])

/-- What a `panic` says of the caller: it acquires a lock it holds, releases (or calls
`sched` without) one that it does not hold, calls `sched` with another lock, or calls it
in the state `RUNNING`. -/
inductive Blame (Holds : Lock → Prop) : Op → String → Prop
  | held {l : Lock} (msg : String) : Holds l → Blame Holds (.panicIf l msg) msg
  | free {l : Lock} (msg : String) : ¬ Holds l → Blame Holds (.panicUnless l msg) msg
  | another {l : Lock} : l ≠ .ptable → Holds l → Blame Holds .ncliOne "sched locks"
  | running : Blame Holds (.running true) "sched running"

/-- A safe instruction panics by a mistake of the caller only. -/
theorem Op.run_error (hk : Knows lk own c x f v) (hs : Safe g (op :: k) v) {msg : String}
    (hrun : op.run c lk x f k = .error msg) : Blame (fun l => own l = some c) op msg := by
  obtain ⟨hcpu, hheld, hnamed, heflags, hr, hintena⟩ := hk
  obtain ⟨-, hop⟩ := hs
  subst hcpu
  cases op with
  | readeflags | cli | locked | clearcpu | unlock | sti | swtch | scan | resume => cases hrun
  | count | cpu | setcpu | save | load =>
      have hoff := hop.1
      simp [run, mycpu, hoff] at hrun
  | interruptible =>
      have hoff := hop.1
      simp [run, hoff] at hrun
  | uncount =>
      have hnot : ¬ v.cpu.ncli - 1 < 0 := by
        have hpos := hop.2.1
        omega
      simp only [run, hop.1, Bool.false_eq_true, if_false, if_neg hnot] at hrun
      cases hrun
  | xchg =>
      simp only [run] at hrun
      split at hrun <;> cases hrun
  | panicIf l =>
      simp only [run] at hrun
      split at hrun
      · rename_i htrue
        cases hrun
        rw [← hr, hop.1, decide_eq_true_eq] at htrue
        exact .held _ ((hheld l).mp htrue)
      · cases hrun
  | panicUnless l =>
      simp only [run] at hrun
      split at hrun
      · cases hrun
      · rename_i hfalse
        cases hrun
        rw [← hr, hop.1, decide_eq_true_eq] at hfalse
        exact .free _ fun hown => hfalse ((hheld l).mpr hown)
  | ncliOne =>
      obtain ⟨hoff, hcount, hmem, -⟩ := hop
      by_cases hone : v.cpu.ncli = 1
      · simp [run, hoff, hone] at hrun
      · simp only [run, hoff, if_neg hone] at hrun
        cases hrun
        -- `ptable.lock` is held, and it is not the only one
        obtain ⟨l, hl, hne⟩ : ∃ l ∈ v.held, l ≠ .ptable := by
          by_contra hall
          push Not at hall
          have hset : v.held = {.ptable} := Finset.eq_singleton_iff_unique_mem.mpr ⟨hmem, hall⟩
          exact hone (by simp [hcount, hset])
        exact .another hne ((hheld l).mp hl)
  | running b =>
      cases b with
      | true =>
          cases hrun
          exact .running
      | false => cases hrun

end Run

end OsWork.Ports.SpinLocks

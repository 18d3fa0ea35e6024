import OsWork.Ports.PageMachine

/-!
# Every page has one owner: the calls

Each call changes one address space and the pages of one process, and leaves the other
processes as they are (`Beside`).

## Main results

* `OneOwner.spawn`, `OneOwner.resize`, `OneOwner.exchange`, `OneOwner.reap` — a process is made,
  changes its memory, gives it up for another, and is no more.
* `PageInv.step` — every step of the kernel keeps the invariant.
-/

namespace OsWork.Ports.PageTables

open OsWork.Ports.ProcTable (Word Slot Table Proc ProcState)
open OsWork.Ports.SyscallArgs (NOFILE)
open OsWork.Verified.Transition
open Function (update)

variable {L : Layout} {E : Entries} {R : Reader} {own own' own'' : Frame → Owner}
  {m m' : Mem} {d e f q : Frame} {s t : PageState} {k k' k'' : Kernel} {u : Uses} {o : Owner}
  {i j cur : Slot}

/-! ## One process and the others -/

/-- The processes but that of the slot `i` keep their pages. -/
structure Beside (i : Slot) (k k' : Kernel) : Prop where
  state : ∀ j, j ≠ i → ((k'.procs j).state = .unused ↔ (k.procs j).state = .unused)
  kstack : ∀ j, j ≠ i → (k'.rest j).kstack = (k.rest j).kstack
  pgdir : ∀ j, j ≠ i → (k'.rest j).pgdir = (k.rest j).pgdir
  sz : ∀ j, j ≠ i → (k'.rest j).sz = (k.rest j).sz

theorem Beside.refl (i : Slot) (k : Kernel) : Beside i k k where
  state _ _ := Iff.rfl
  kstack _ _ := rfl
  pgdir _ _ := rfl
  sz _ _ := rfl

theorem Beside.trans (h : Beside i k k') (h' : Beside i k' k'') : Beside i k k'' where
  state j hj := (h'.state j hj).trans (h.state j hj)
  kstack j hj := (h'.kstack j hj).trans (h.kstack j hj)
  pgdir j hj := (h'.pgdir j hj).trans (h.pgdir j hj)
  sz j hj := (h'.sz j hj).trans (h.sz j hj)

theorem Beside.setRest (i : Slot) (k : Kernel) (g : Process → Process) :
    Beside i k (k.setRest i g) where
  state _ _ := Iff.rfl
  kstack j hj := by simp [Kernel.setRest, hj]
  pgdir j hj := by simp [Kernel.setRest, hj]
  sz j hj := by simp [Kernel.setRest, hj]

theorem Beside.setProc (i : Slot) (k : Kernel) (g : Proc → Proc) :
    Beside i k { k with procs := k.procs.set i g } where
  state j hj := by simp [hj]
  kstack _ _ := rfl
  pgdir _ _ := rfl
  sz _ _ := rfl

/-- What the kernel has beside the processes is the same, and so are the other processes. -/
structure Others (i : Slot) (s t : PageState) : Prop where
  top : t.stage.top = s.stage.top
  kpgdir : t.kpgdir = s.kpgdir
  cpuStacks : t.cpuStacks = s.cpuStacks
  pipes : t.pipes = s.pipes
  panicked : t.panicked = s.panicked
  kernel : Beside i s.kernel t.kernel

theorem Others.used (h : Others i s t) (hj : j ≠ i) : t.Used j ↔ s.Used j :=
  not_congr (h.kernel.state j hj)

/-- The function has returned. -/
theorem Others.ret (h : Beside i s.kernel k) : Others i s (s.ret (some k)) :=
  ⟨rfl, rfl, rfl, rfl, rfl, h⟩

theorem Others.kernel_use (h : Others i s t) (f : Frame) :
    t.uses L .kernel f ↔ s.uses L .kernel f := by
  unfold PageState.uses PageState.Managed
  simp only [h.top, h.cpuStacks]

theorem Others.pipe_use (h : Others i s t) (f : Frame) : t.uses L .pipe f ↔ s.uses L .pipe f := by
  unfold PageState.uses
  simp only [h.pipes]

/-- The kernel stacks: that of the slot `i`, and the others. -/
theorem Others.stack_use (h : Others i s t) (n : Nat) (f : Frame) :
    t.uses L (.stack n) f ↔
      if n = i.val then t.Used i ∧ (t.kernel.rest i).kstack = some f
      else s.uses L (.stack n) f := by
  show (∃ j : Slot, j.val = n ∧ t.Used j ∧ (t.kernel.rest j).kstack = some f) ↔ _
  by_cases hn : n = i.val
  · rw [if_pos hn]
    constructor
    · rintro ⟨j, hj, hrest⟩
      obtain rfl : j = i := Fin.ext (hj.trans hn)
      exact hrest
    · exact fun hrest => ⟨i, hn.symm, hrest⟩
  · rw [if_neg hn]
    refine exists_congr fun j => ?_
    by_cases hj : j = i
    · have hval : j.val ≠ n := by
        rintro rfl
        exact hn (congrArg Fin.val hj)
      exact ⟨fun hrest => absurd hrest.1 hval, fun hrest => absurd hrest.1 hval⟩
    · rw [h.used hj, h.kernel.kstack j hj]

/-- The directories of the kernel and of the other processes. -/
def OtherDirs (i : Slot) (s : PageState) (f : Frame) : Prop :=
  s.kpgdir = some f ∨ ∃ j, j ≠ i ∧ s.Used j ∧ (s.kernel.rest j).pgdir = some f

theorem dir_use (i : Slot) (s : PageState) (f : Frame) :
    s.uses L .dir f ↔ OtherDirs i s f ∨ s.Used i ∧ (s.kernel.rest i).pgdir = some f := by
  show s.kpgdir = some f ∨ (∃ j, s.Used j ∧ (s.kernel.rest j).pgdir = some f) ↔ _
  constructor
  · rintro (hk | ⟨j, hj⟩)
    · exact .inl (.inl hk)
    · by_cases heq : j = i
      · exact .inr (heq ▸ hj)
      · exact .inl (.inr ⟨j, heq, hj⟩)
  · rintro ((hk | ⟨j, -, hj⟩) | hi)
    · exact .inl hk
    · exact .inr ⟨j, hj⟩
    · exact .inr ⟨i, hi⟩

theorem Others.dirs (h : Others i s t) (f : Frame) : OtherDirs i t f ↔ OtherDirs i s f := by
  unfold OtherDirs
  rw [h.kpgdir]
  refine or_congr Iff.rfl (exists_congr fun j => ?_)
  by_cases hj : j = i
  · exact ⟨fun hrest => absurd hj hrest.1, fun hrest => absurd hj hrest.1⟩
  · rw [h.used hj, h.kernel.pgdir j hj]

/-- No use is left out. -/
theorem Others.congr (h : Others i s t)
    (hkernel : ∀ f, u .kernel f ↔ s.uses L .kernel f) (hpipe : ∀ f, u .pipe f ↔ s.uses L .pipe f)
    (hstack : ∀ n f, u (.stack n) f ↔
      if n = i.val then t.Used i ∧ (t.kernel.rest i).kstack = some f else s.uses L (.stack n) f)
    (hdir : ∀ f, u .dir f ↔ OtherDirs i s f ∨ t.Used i ∧ (t.kernel.rest i).pgdir = some f)
    (hown : Owned L own m u) : Owned L own m (t.uses L) := by
  refine hown.congr fun o ho f => ?_
  cases o with
  | kernel => rw [h.kernel_use, hkernel]
  | pipe => rw [h.pipe_use, hpipe]
  | stack n => rw [h.stack_use, hstack]
  | dir => rw [dir_use i, hdir, h.dirs]
  | free => exact ho.elim
  | hand => exact ho.elim
  | table e x => exact ho.elim
  | page e a => exact ho.elim

/-- The directory of a process is neither the kernel's nor another process's. -/
theorem OneOwner.alone (h : OneOwner L s own) (hi : s.Used i)
    (hd : (s.kernel.rest i).pgdir = some d) : ¬ OtherDirs i s d := by
  rintro (hk | ⟨j, hne, hj, hdj⟩)
  · exact h.kernelDir i hi (hd.trans hk.symm)
  · exact hne (h.apart j i d hj hi hdj hd)

theorem OneOwner.own_otherDirs (h : OneOwner L s own) (hd : OtherDirs i s d) : own d = .dir := by
  refine (h.owned.uses .dir trivial d).mpr ((dir_use i s d).mpr (.inl hd))

/-- The process of the slot `i` has changed, or is new or gone. -/
theorem OneOwner.replace (h : OneOwner L s own) (hn : Others i s t)
    (hown : Owned L own' t.kernel.mem (t.uses L))
    (hspaces : ∀ e n, OtherDirs i s e → Space own s.kernel.mem e n →
      Space own' t.kernel.mem e n)
    (hi : t.Used i → ∃ q d, (t.kernel.rest i).kstack = some q ∧
      (t.kernel.rest i).pgdir = some d ∧ Space own' t.kernel.mem d (t.kernel.rest i).sz ∧
      ¬ OtherDirs i s d) : OneOwner L t own' where
  owned := hown
  slots j hj := by
    by_cases heq : j = i
    · subst heq
      obtain ⟨q, d, hq, hd, hspace, -⟩ := hi hj
      exact ⟨q, d, hq, hd, hspace⟩
    · rw [hn.used heq] at hj
      obtain ⟨q, d, hq, hd, hspace⟩ := h.slots j hj
      rw [hn.kernel.kstack j heq, hn.kernel.pgdir j heq, hn.kernel.sz j heq]
      exact ⟨q, d, hq, hd, hspaces d _ (.inr ⟨j, heq, hj, hd⟩) hspace⟩
  apart := by
    -- the other process of the two has its directory among those that `d` is not
    have hone : ∀ j d, j ≠ i → t.Used j → t.Used i → (t.kernel.rest j).pgdir = some d →
        (t.kernel.rest i).pgdir ≠ some d := by
      intro j d heq hj hused hdj hdi
      obtain ⟨-, d', -, hd', -, hnot⟩ := hi hused
      obtain rfl : d = d' := Option.some.inj (hdi.symm.trans hd')
      exact hnot ((hn.dirs d).mp (.inr ⟨j, heq, hj, hdj⟩))
    intro j j' d hj hj' hdj hdj'
    by_cases heq : j = i
    · subst heq
      by_contra hne
      exact hone j' d (Ne.symm hne) hj' hj hdj' hdj
    · by_cases heq' : j' = i
      · subst heq'
        exact absurd hdj' (hone j d heq hj hj' hdj)
      · rw [hn.used heq] at hj
        rw [hn.used heq'] at hj'
        rw [hn.kernel.pgdir j heq] at hdj
        rw [hn.kernel.pgdir j' heq'] at hdj'
        exact h.apart j j' d hj hj' hdj hdj'
  kernelDir j hj := by
    rw [hn.kpgdir]
    intro hk
    by_cases heq : j = i
    · subst heq
      obtain ⟨-, d, -, hd, -, hnot⟩ := hi hj
      exact hnot (.inl (hk.symm.trans hd))
    · rw [hn.used heq] at hj
      rw [hn.kernel.pgdir j heq] at hk
      exact h.kernelDir j hj hk
  calm := hn.panicked.trans h.calm

/-! ## What a call does to the pages -/

/-- A free page has no use. -/
theorem Owned.unused (h : Owned L own m u) (hf : own f = .free) (ho : o.Use) : ¬ u o f := by
  rw [← h.uses o ho f, hf]
  rintro rfl
  exact ho

theorem Uses.put_self : u.put f o o e ↔ e = f ∨ u o e := by
  unfold Uses.put
  by_cases he : e = f
  · simp [he]
  · simp [he]

theorem Uses.put_of_ne {o' : Owner} (ho : o' ≠ o) (hf : ¬ u o f) :
    u.put f o' o e ↔ u o e := by
  unfold Uses.put
  by_cases he : e = f
  · simp [he, ho, hf]
  · simp [he]

theorem Mem.kalloc_fill_ram (hk : m.kalloc = (m', some f)) (p : Page) :
    ∀ x, x ≠ f → (m'.fill f p).ram x = m.ram x := by
  intro x hx
  rw [m'.fill_ram_ne p hx, (Mem.kalloc_some hk).1]

/-- An address space, when a free page is put to use. -/
theorem Space.alloc {n : Nat} (h : Space own m e n) (hp : Pages L own m)
    (hk : m.kalloc = (m', some f)) (hf : own f = .free) (o : Owner) (p : Page) :
    Space (update own f o) (m'.fill f p) e n := by
  refine h.put hp ⟨?_, fun k => ?_⟩ o (Mem.kalloc_fill_ram hk p)
  · rw [hf]
    nofun
  · rw [hf]
    nofun

/-- A process is made: its kernel stack is a free page, and so was its directory; the kernel
stack is written to at the end. -/
theorem OneOwner.spawn (h : OneOwner L s own) (hn : Others i s t) (hi : ¬ s.Used i)
    {m₁ m₂ : Mem} {own₂ : Frame → Owner} (hk : s.kernel.mem.kalloc = (m₁, some q)) (p : Page)
    (hpages : Pages L own₂ m₂)
    (ht : Touches d (update own q (.stack i.val)) (m₁.fill q p) own₂ m₂)
    (hd : update own q (.stack i.val) d = .free) (hspace : Space own₂ m₂ d (t.kernel.rest i).sz)
    {p' : Page} (hmem : t.kernel.mem = m₂.fill q p') (hused : t.Used i)
    (hstack : (t.kernel.rest i).kstack = some q) (hdir : (t.kernel.rest i).pgdir = some d) :
    OneOwner L t own₂ := by
  obtain ⟨hqfree, h₁⟩ := h.owned.alloc (o := .stack i.val) hk p trivial nofun
  have hdq : q ≠ d := by
    rintro rfl
    rw [Function.update_self] at hd
    cases hd
  have hdfree : own d = .free := by
    rw [Function.update_of_ne hdq.symm] at hd
    exact hd
  have hne : own₂ d ≠ .hand := by
    rw [hspace.dir]
    nofun
  have hqstack : own₂ q = .stack i.val :=
    (ht.use (o := .stack i.val) (.inl trivial) hdq).mpr (Function.update_self q _ own)
  have hloose : (own₂ q).loose = true := by
    rw [hqstack]
    rfl
  have h₂ := (h₁.touches hpages ht hne).fill hloose p'
  rw [← hmem, hspace.dir] at h₂
  have hq_unused : ∀ o, o.Use → ¬ s.uses L o q := fun o => h.owned.unused hqfree
  -- the other uses of pages are what they were
  have hsame : ∀ o f, o.Use → o ≠ .stack i.val → o ≠ .dir →
      (((s.uses L).put q (.stack i.val)).put d .dir o f ↔ s.uses L o f) := by
    intro o f ho hos hod
    rw [Uses.put_of_ne (Ne.symm hod), Uses.put_of_ne (Ne.symm hos) (hq_unused o ho)]
    rw [Uses.put_of_ne (Ne.symm hos) (hq_unused o ho)]
    exact h.owned.unused hdfree ho
  refine h.replace hn (hn.congr (fun f => hsame _ f trivial nofun nofun)
    (fun f => hsame _ f trivial nofun nofun) (fun n f => ?_) (fun f => ?_) h₂)
    (fun e n he hs => ?_) fun _ => ⟨q, d, hstack, hdir, ?_, fun hother => ?_⟩
  · by_cases hni : n = i.val
    · have hold : ∀ x, ¬ s.uses L (.stack i.val) x := by
        rintro x ⟨j, hj, hju, -⟩
        exact hi (Fin.ext hj ▸ hju)
      have hnot : ¬ (s.uses L).put q (.stack i.val) (.stack i.val) d := by
        rw [Uses.put_self]
        rintro (heq | hd')
        · exact hdq heq.symm
        · exact hold d hd'
      have hne : Owner.dir ≠ .stack i.val := nofun
      rw [hni, if_pos rfl, Uses.put_of_ne hne hnot, Uses.put_self, or_iff_left (hold f), hstack]
      simp [hused, eq_comm]
    · rw [if_neg hni]
      exact hsame _ f trivial (fun heq => hni (by injection heq)) nofun
  · have hne : Owner.stack i.val ≠ .dir := nofun
    rw [Uses.put_self, Uses.put_of_ne hne (hq_unused .dir trivial), dir_use i, hdir]
    have hold : ¬ (s.Used i ∧ (s.kernel.rest i).pgdir = some f) := fun hboth => hi hboth.1
    rw [or_iff_left hold]
    simp [hused, eq_comm, or_comm]
  · have hold : own e = .dir := h.own_otherDirs he
    have hs₁ := hs.alloc h.owned.pages hk hqfree (.stack i.val) p
    have hed : e ≠ d := by
      rintro rfl
      rw [hdfree] at hold
      cases hold
    rw [hmem]
    exact (hs₁.touches h₁.pages ht hed (.inr hd)).fill hpages hloose p'
  · rw [hmem]
    exact hspace.fill hpages hloose p'
  · have hold := h.own_otherDirs hother
    rw [hdfree] at hold
    cases hold

theorem Others.refl (i : Slot) (s : PageState) : Others i s s :=
  ⟨rfl, rfl, rfl, rfl, rfl, .refl i s.kernel⟩

/-- All processes keep their pages, and no directory and no table changes. -/
theorem OneOwner.keeps (h : OneOwner L s own) (hn : Others i s t) (hused : t.Used i ↔ s.Used i)
    (hstack : (t.kernel.rest i).kstack = (s.kernel.rest i).kstack)
    (hdir : (t.kernel.rest i).pgdir = (s.kernel.rest i).pgdir)
    (hsz : (t.kernel.rest i).sz = (s.kernel.rest i).sz) (hpages : Pages L own t.kernel.mem)
    (hram : ∀ f, own f = .dir ∨ (∃ e k, own f = .table e k) →
      t.kernel.mem.ram f = s.kernel.mem.ram f) : OneOwner L t own := by
  have hspaces : ∀ e n, Space own s.kernel.mem e n → Space own t.kernel.mem e n := by
    intro e n hs
    refine hs.frame h.owned.pages rfl (hram e (.inl hs.dir)) fun f k hf => ?_
    exact hram f (.inr ⟨e, k, hf⟩)
  have hown : Owned L own t.kernel.mem (s.uses L) := ⟨hpages, h.owned.uses, h.owned.hand⟩
  refine h.replace hn (hn.congr (fun _ => Iff.rfl) (fun _ => Iff.rfl) (fun n f => ?_)
    (fun f => ?_) hown) (fun e n _ hs => hspaces e n hs) fun hi => ?_
  · exact ((Others.refl i s).stack_use n f).trans (by rw [hused, hstack])
  · rw [dir_use i, hused, hdir]
  · rw [hused] at hi
    obtain ⟨q, d, hq, hd, hspace⟩ := h.slots i hi
    rw [hstack, hdir, hsz]
    exact ⟨q, d, hq, hd, hspaces d _ hspace, h.alone hi hd⟩

/-- The slot `i` has no process, and no page in use changes. -/
theorem OneOwner.absent (h : OneOwner L s own) (hn : Others i s t) (hi : ¬ s.Used i)
    (hused : ¬ t.Used i) (hpages : Pages L own t.kernel.mem)
    (hram : ∀ f, own f ≠ .free → t.kernel.mem.ram f = s.kernel.mem.ram f) :
    OneOwner L t own := by
  have hown : Owned L own t.kernel.mem (s.uses L) := ⟨hpages, h.owned.uses, h.owned.hand⟩
  refine h.replace hn (hn.congr (fun _ => Iff.rfl) (fun _ => Iff.rfl) (fun n f => ?_)
    (fun f => ?_) hown) (fun e n _ hs => ?_) fun hu => absurd hu hused
  · exact ((Others.refl i s).stack_use n f).trans (by simp [hi, hused])
  · rw [dir_use i]
    simp [hi, hused]
  · refine hs.frame h.owned.pages rfl (hram e (by rw [hs.dir]; nofun)) fun f k hf => ?_
    exact hram f (by rw [hf]; nofun)

/-- The address space of a process changes, and its directory does not. -/
theorem OneOwner.resize (h : OneOwner L s own) (hn : Others i s t) (hi : s.Used i)
    (hused : t.Used i) (hstack : (t.kernel.rest i).kstack = (s.kernel.rest i).kstack)
    (hd : (s.kernel.rest i).pgdir = some d) (hdir : (t.kernel.rest i).pgdir = some d)
    (hpages : Pages L own' t.kernel.mem) (ht : Touches d own s.kernel.mem own' t.kernel.mem)
    (hspace : Space own' t.kernel.mem d (t.kernel.rest i).sz) : OneOwner L t own' := by
  have hown : own d = .dir := (h.owned.uses .dir trivial d).mpr (.inr ⟨i, hi, hd⟩)
  have hne : own' d ≠ .hand := by
    rw [hspace.dir]
    nofun
  have h' := h.owned.touches hpages ht hne
  rw [hspace.dir] at h'
  have hsame : ∀ o f, o.Use → o ≠ .dir → ((s.uses L).put d .dir o f ↔ s.uses L o f) := by
    intro o f ho hod
    refine Uses.put_of_ne (Ne.symm hod) ?_
    rw [← h.owned.uses o ho d, hown]
    exact Ne.symm hod
  refine h.replace hn (hn.congr (fun f => hsame _ f trivial nofun)
    (fun f => hsame _ f trivial nofun) (fun n f => ?_) (fun f => ?_) h')
    (fun e n he hs => ?_) fun _ => ?_
  · rw [hsame (.stack n) f trivial nofun]
    exact ((Others.refl i s).stack_use n f).trans (by simp [hi, hused, hstack])
  · rw [Uses.put_self, dir_use i, hd, hdir]
    simp only [hi, hused, true_and, Option.some.injEq, eq_comm (a := f)]
    tauto
  · have hed : e ≠ d := by
      rintro rfl
      exact h.alone hi hd he
    exact hs.touches h.owned.pages ht hed (.inl hown)
  · obtain ⟨q, -, hq, -, -⟩ := h.slots i hi
    exact ⟨q, d, hstack.trans hq, hdir, hspace, h.alone hi hd⟩

/-- A process gives its address space up for a new one. -/
theorem OneOwner.exchange {d' : Frame} {m₁ : Mem} {own₁ : Frame → Owner} (h : OneOwner L s own)
    (hn : Others i s t) (hi : s.Used i) (hused : t.Used i)
    (hstack : (t.kernel.rest i).kstack = (s.kernel.rest i).kstack)
    (hd : (s.kernel.rest i).pgdir = some d) (hdir : (t.kernel.rest i).pgdir = some d')
    (h₁ : Pages L own₁ m₁) (hnew : own d' = .free) (hdir₁ : own₁ d' = .dir)
    (ht₁ : Touches d' own s.kernel.mem own₁ m₁) (hpages : Pages L own' t.kernel.mem)
    (ht : Touches d own₁ m₁ own' t.kernel.mem) (hgone : own' d = .free)
    (hspace : Space own' t.kernel.mem d' (t.kernel.rest i).sz) : OneOwner L t own' := by
  have hown : own d = .dir := (h.owned.uses .dir trivial d).mpr (.inr ⟨i, hi, hd⟩)
  have hne : d ≠ d' := by
    rintro rfl
    rw [hown] at hnew
    cases hnew
  have hown₁ : own₁ d = .dir := (ht₁.use (o := .dir) (.inl trivial) hne).mpr hown
  have h' := (h.owned.touches h₁ ht₁ (by rw [hdir₁]; nofun)).touches hpages ht
    (by rw [hgone]; nofun)
  rw [hdir₁, hgone] at h'
  have hsame : ∀ o f, o.Use → o ≠ .dir →
      (((s.uses L).put d' .dir).put d .free o f ↔ s.uses L o f) := by
    intro o f ho hod
    have hfree : Owner.free ≠ o := by
      rintro rfl
      exact ho
    have hnot := h.owned.unused hnew ho
    rw [Uses.put_of_ne hfree, Uses.put_of_ne (Ne.symm hod) hnot]
    rw [Uses.put_of_ne (Ne.symm hod) hnot, ← h.owned.uses o ho d, hown]
    exact Ne.symm hod
  refine h.replace hn (hn.congr (fun f => hsame _ f trivial nofun)
    (fun f => hsame _ f trivial nofun) (fun n f => ?_) (fun f => ?_) h')
    (fun e n he hs => ?_) fun _ => ?_
  · rw [hsame (.stack n) f trivial nofun]
    exact ((Others.refl i s).stack_use n f).trans (by simp [hi, hused, hstack])
  · have hnot := h.alone hi hd
    rw [hdir]
    show (if f = d then Owner.free = .dir else (s.uses L).put d' .dir .dir f) ↔ _
    by_cases hfd : f = d
    · subst hfd
      simp [hnot, Ne.symm hne]
    · rw [if_neg hfd, Uses.put_self, dir_use i, hd]
      simp only [hi, hused, true_and, Option.some.injEq, eq_comm (a := f)]
      have hdf : d ≠ f := Ne.symm hfd
      tauto
  · have hed : e ≠ d := by
      rintro rfl
      exact h.alone hi hd he
    have hed' : e ≠ d' := by
      rintro rfl
      rw [hs.dir] at hnew
      cases hnew
    exact (hs.touches h.owned.pages ht₁ hed' (.inr hnew)).touches h₁ ht hed (.inl hown₁)
  · obtain ⟨q, -, hq, -, -⟩ := h.slots i hi
    refine ⟨q, d', hstack.trans hq, hdir, hspace, fun hother => ?_⟩
    rw [h.own_otherDirs hother] at hnew
    cases hnew

/-- A process is no more: its kernel stack and its address space have been given up. -/
theorem OneOwner.reap {m₁ : Mem} (h : OneOwner L s own) (hn : Others i s t) (hi : s.Used i)
    (hused : ¬ t.Used i) (hstack : (s.kernel.rest i).kstack = some q)
    (hd : (s.kernel.rest i).pgdir = some d) (h₁ : Owned L (update own q .free) m₁
      ((s.uses L).put q .free)) (hram : ∀ x, x ≠ q → m₁.ram x = s.kernel.mem.ram x)
    (hpages : Pages L own' t.kernel.mem)
    (ht : Touches d (update own q .free) m₁ own' t.kernel.mem) (hgone : own' d = .free) :
    OneOwner L t own' := by
  have hown : own d = .dir := (h.owned.uses .dir trivial d).mpr (.inr ⟨i, hi, hd⟩)
  have hq : own q = .stack i.val :=
    (h.owned.uses (.stack i.val) trivial q).mpr ⟨i, rfl, hi, hstack⟩
  have hdq : d ≠ q := by
    rintro rfl
    rw [hown] at hq
    cases hq
  have h' := h₁.touches hpages ht (by rw [hgone]; nofun)
  rw [hgone] at h'
  have hsame : ∀ o f, o.Use → o ≠ .stack i.val → o ≠ .dir →
      (((s.uses L).put q .free).put d .free o f ↔ s.uses L o f) := by
    intro o f ho hos hod
    have hfree : Owner.free ≠ o := by
      rintro rfl
      exact ho
    have hnot : ¬ s.uses L o q := by
      rw [← h.owned.uses o ho q, hq]
      exact Ne.symm hos
    rw [Uses.put_of_ne hfree, Uses.put_of_ne hfree hnot]
    rw [Uses.put_of_ne hfree hnot, ← h.owned.uses o ho d, hown]
    exact Ne.symm hod
  refine h.replace hn (hn.congr (fun f => hsame _ f trivial nofun nofun)
    (fun f => hsame _ f trivial nofun nofun) (fun n f => ?_) (fun f => ?_) h')
    (fun e n he hs => ?_) fun hi' => absurd hi' hused
  · by_cases hni : n = i.val
    · rw [hni, if_pos rfl]
      refine iff_of_false (fun hf => ?_) fun hboth => hused hboth.1
      unfold Uses.put at hf
      split at hf
      · cases hf
      · split at hf
        · cases hf
        · rename_i hfq
          obtain ⟨j, hj, -, hjf⟩ := hf
          rw [Fin.ext hj, hstack] at hjf
          exact hfq (Option.some.inj hjf).symm
    · rw [if_neg hni]
      exact hsame (.stack n) f trivial (fun heq => hni (by injection heq)) nofun
  · have hnot := h.alone hi hd
    rw [or_iff_left fun hboth => hused hboth.1]
    unfold Uses.put
    by_cases hfd : f = d
    · subst hfd
      simp [hnot]
    · rw [if_neg hfd]
      by_cases hfq : f = q
      · subst hfq
        have hother : ¬ OtherDirs i s f := by
          intro hf
          rw [h.own_otherDirs hf] at hq
          cases hq
        simp [hother]
      · rw [if_neg hfq, dir_use i, hd]
        simp [hi, Ne.symm hfd]
  · have hold := h.own_otherDirs he
    have hed : e ≠ d := by
      rintro rfl
      exact h.alone hi hd he
    have hs₁ : Space (update own q .free) m₁ e n := by
      refine hs.put h.owned.pages ⟨?_, fun k => ?_⟩ .free hram
      · rw [hq]
        nofun
      · rw [hq]
        nofun
    have hd₁ : update own q .free d = .dir := (Function.update_of_ne hdq _ _).trans hown
    exact hs₁.touches h₁.pages ht hed (.inl hd₁)

/-! ## `fork` -/

/-- No process and no page changes, only files and names. -/
structure FilesOnly (k k' : Kernel) : Prop where
  mem : k'.mem = k.mem
  procs : k'.procs = k.procs
  kstack : ∀ j, (k'.rest j).kstack = (k.rest j).kstack
  pgdir : ∀ j, (k'.rest j).pgdir = (k.rest j).pgdir
  sz : ∀ j, (k'.rest j).sz = (k.rest j).sz

theorem FilesOnly.trans (h : FilesOnly k k') (h' : FilesOnly k' k'') : FilesOnly k k'' where
  mem := h'.mem.trans h.mem
  procs := h'.procs.trans h.procs
  kstack j := (h'.kstack j).trans (h.kstack j)
  pgdir j := (h'.pgdir j).trans (h.pgdir j)
  sz j := (h'.sz j).trans (h.sz j)

theorem FilesOnly.beside (h : FilesOnly k k') (i : Slot) : Beside i k k' where
  state j _ := by rw [h.procs]
  kstack j _ := h.kstack j
  pgdir j _ := h.pgdir j
  sz j _ := h.sz j

/-- An assignment to the files, the directory or the name of a process. -/
theorem FilesOnly.setRest (k : Kernel) {g : Process → Process}
    (hg : (g (k.rest i)).kstack = (k.rest i).kstack ∧ (g (k.rest i)).pgdir = (k.rest i).pgdir ∧
      (g (k.rest i)).sz = (k.rest i).sz) : FilesOnly k (k.setRest i g) where
  mem := rfl
  procs := rfl
  kstack j := by
    by_cases hj : j = i
    · subst hj
      simpa [Kernel.setRest] using hg.1
    · simp [Kernel.setRest, hj]
  pgdir j := by
    by_cases hj : j = i
    · subst hj
      simpa [Kernel.setRest] using hg.2.1
    · simp [Kernel.setRest, hj]
  sz j := by
    by_cases hj : j = i
    · subst hj
      simpa [Kernel.setRest] using hg.2.2
    · simp [Kernel.setRest, hj]

/-- The loop of `fork` over the open files does not panic. -/
theorem Kernel.dupFiles_spec (cur np : Slot) (fds : List (Fin NOFILE)) :
    ∀ {k : Kernel}, Counted k → ∃ k', Kernel.dupFiles cur np fds k = some k' ∧
      FilesOnly k k' ∧ Counted k' := by
  induction fds with
  | nil => exact fun {k} hk => ⟨k, rfl, ⟨rfl, rfl, fun _ => rfl, fun _ => rfl, fun _ => rfl⟩, hk⟩
  | cons fd fds ih =>
      intro k hk
      unfold Kernel.dupFiles
      cases hf : (k.rest cur).ofile fd with
      | none => exact ih hk
      | some f =>
          have href := hk cur fd f hf
          have hdup : k.filedup f =
              some { k with fileRef := update k.fileRef f (k.fileRef f + 1) } :=
            if_neg (by omega)
          have hmore : ∀ x, k.fileRef x ≤ update k.fileRef f (k.fileRef f + 1) x := by
            intro x
            by_cases hx : x = f
            · subst hx
              simp
            · simp [hx]
          simp only [hdup, Option.bind_some]
          obtain ⟨k', hrun, hsame, hk'⟩ := ih (k := Kernel.setRest
            { k with fileRef := update k.fileRef f (k.fileRef f + 1) } np fun p =>
              { p with ofile := update p.ofile fd (some f) }) (by
            intro i fd' f' hf'
            refine Nat.le_trans ?_ (hmore f')
            by_cases hi : i = np
            · subst hi
              by_cases hfd : fd' = fd
              · subst hfd
                obtain rfl : f = f' := by simpa [Kernel.setRest] using hf'
                exact href
              · exact hk i fd' f' (by simpa [Kernel.setRest, hfd] using hf')
            · exact hk i fd' f' (by simpa [Kernel.setRest, hi] using hf'))
          refine ⟨k', hrun, .trans ?_ hsame, hk'⟩
          have hcount : FilesOnly k
              { k with fileRef := update k.fileRef f (k.fileRef f + 1) } :=
            ⟨rfl, rfl, fun _ => rfl, fun _ => rfl, fun _ => rfl⟩
          exact hcount.trans (.setRest _ ⟨rfl, rfl, rfl⟩)

theorem Kernel.dupCwd_spec (k : Kernel) (cur np : Slot) :
    FilesOnly k (k.dupCwd cur np) ∧ (k.dupCwd cur np).fileRef = k.fileRef ∧
      ∀ i, ((k.dupCwd cur np).rest i).ofile = (k.rest i).ofile := by
  unfold Kernel.dupCwd
  split
  · exact ⟨⟨rfl, rfl, fun _ => rfl, fun _ => rfl, fun _ => rfl⟩, rfl, fun _ => rfl⟩
  · rename_i ip _
    have hcount : FilesOnly k { k with inodeRef := update k.inodeRef ip (k.inodeRef ip + 1) } :=
      ⟨rfl, rfl, fun _ => rfl, fun _ => rfl, fun _ => rfl⟩
    refine ⟨hcount.trans (.setRest _ ⟨rfl, rfl, rfl⟩), rfl, fun i => ?_⟩
    by_cases hi : i = np
    · subst hi
      simp [Kernel.setRest]
    · simp [Kernel.setRest, hi]

/-- The child that `fork` makes: it has its own stack, the new directory and the size of its
parent. -/
theorem Kernel.forkChild_spec (cur np : Slot) (d : Frame) (hk : Counted k)
    (hq : (k.rest cur).kstack = some q) (hf : (k.rest np).kstack = some f) :
    ∃ k' r p, k.forkChild cur np d = some (k', r) ∧ k'.mem = k.mem.fill f p ∧
      Beside np k k' ∧ (k'.procs np).state = .runnable ∧ (k'.rest np).kstack = some f ∧
      (k'.rest np).pgdir = some d ∧ (k'.rest np).sz = (k.rest cur).sz ∧ Counted k' := by
  unfold Kernel.forkChild
  simp only [hq, hf, Option.bind_some]
  obtain ⟨k₂, hrun, hsame, hk₂⟩ := Kernel.dupFiles_spec cur np (List.finRange NOFILE)
    (k := Kernel.setRest { k with
        mem := k.mem.fill f (copyTf (k.mem.ram f) (k.mem.ram q))
        procs := k.procs.set np fun p => { p with parent := some cur } } np fun p =>
          { p with pgdir := some d, sz := (k.rest cur).sz }) (by
    intro i fd x hx
    by_cases hi : i = np
    · subst hi
      exact hk i fd x (by simpa [Kernel.setRest] using hx)
    · exact hk i fd x (by simpa [Kernel.setRest, hi] using hx))
  rw [hrun]
  obtain ⟨hcwd, hrefs, hofile⟩ := k₂.dupCwd_spec cur np
  have hname : FilesOnly (k₂.dupCwd cur np) ((k₂.dupCwd cur np).setRest np fun p =>
      { p with name := (k₂.rest cur).name.take 15 }) := .setRest _ ⟨rfl, rfl, rfl⟩
  have hall := (hsame.trans hcwd).trans hname
  refine ⟨_, _, _, rfl, hall.mem, ?_, by simp, ?_, ?_, ?_, ?_⟩
  · have hfirst : Beside np k (Kernel.setRest { k with
        mem := k.mem.fill f (copyTf (k.mem.ram f) (k.mem.ram q))
        procs := k.procs.set np fun p => { p with parent := some cur } } np fun p =>
          { p with pgdir := some d, sz := (k.rest cur).sz }) := by
      refine .trans (?_ : Beside np k { k with
        mem := k.mem.fill f (copyTf (k.mem.ram f) (k.mem.ram q))
        procs := k.procs.set np fun p => { p with parent := some cur } }) (.setRest np _ _)
      exact ⟨fun j hj => by simp [hj], fun _ _ => rfl, fun _ _ => rfl, fun _ _ => rfl⟩
    exact (hfirst.trans (hall.beside np)).trans (.setProc np _ _)
  · exact (hall.kstack np).trans (by simp [Kernel.setRest, hf])
  · exact (hall.pgdir np).trans (by simp [Kernel.setRest])
  · exact (hall.sz np).trans (by simp [Kernel.setRest])
  · intro i fd x hx
    show 1 ≤ (k₂.dupCwd cur np).fileRef x
    rw [hrefs]
    refine hk₂ i fd x ?_
    rw [← hofile]
    by_cases hi : i = np
    · subst hi
      simpa [Kernel.setRest] using hx
    · simpa [Kernel.setRest, hi] using hx

/-- What `allocproc` does to the slot that it has found. -/
theorem Kernel.found_spec (k : Kernel) (E : Entries) (i : Slot) (hk : Counted k) :
    (∃ m k', k.mem.kalloc = (m, none) ∧ k.found E i = (k', none) ∧ k'.mem = m ∧
      Beside i k k' ∧ (k'.procs i).state = .unused ∧ Counted k') ∨
    ∃ m f k', k.mem.kalloc = (m, some f) ∧ k.found E i = (k', some i) ∧
      k'.mem = m.fill f (stackPage E (m.ram f)) ∧ Beside i k k' ∧
      (k'.rest i).kstack = some f ∧ Counted k' := by
  have hcount : ∀ (p : Option Frame) {k' : Kernel}, k'.fileRef = k.fileRef →
      k'.rest = (k.setRest i fun p' => { p' with kstack := p }).rest → Counted k' := by
    intro p k' hrefs hrest j fd x hx
    rw [hrest] at hx
    rw [hrefs]
    by_cases hj : j = i
    · subst hj
      exact hk j fd x (by simpa [Kernel.setRest] using hx)
    · exact hk j fd x (by simpa [Kernel.setRest, hj] using hx)
  unfold Kernel.found
  simp only
  cases hkalloc : k.mem.kalloc with
  | mk m r =>
      cases r with
      | none =>
          refine .inl ⟨m, _, rfl, rfl, rfl, ⟨fun j hj => ?_, fun j hj => ?_, fun j hj => ?_,
            fun j hj => ?_⟩, ?_, hcount none rfl rfl⟩
          · simp [Kernel.giveUp, Kernel.setRest, Table.embryo, hj]
          · simp [Kernel.giveUp, Kernel.setRest, hj]
          · simp [Kernel.giveUp, Kernel.setRest, hj]
          · simp [Kernel.giveUp, Kernel.setRest, hj]
          · simp [Kernel.giveUp, Kernel.setRest]
      | some f =>
          refine .inr ⟨m, f, _, rfl, rfl, rfl, ⟨fun j hj => ?_, fun j hj => ?_, fun j hj => ?_,
            fun j hj => ?_⟩, ?_, hcount (some f) rfl rfl⟩
          · simp [Kernel.setRest, Table.embryo, Table.initTimes, hj]
          · simp [Kernel.setRest, hj]
          · simp [Kernel.setRest, hj]
          · simp [Kernel.setRest, hj]
          · simp [Kernel.setRest]

theorem unused_of_state (hi : (s.kernel.procs i).state = .unused) : ¬ s.Used i :=
  fun hu => hu hi

/-- `fork` returns, with a child or without. -/
theorem PageInv.fork (hL : L.Ok) (h : PageInv L s own) (hcur : s.Used cur) :
    ∃ k r own', s.kernel.fork L E cur = some (k, r) ∧ OneOwner L (s.ret (some k)) own' ∧
      Counted k := by
  unfold Kernel.fork Kernel.allocproc
  cases hfind : s.kernel.procs.findUnused with
  | none => exact ⟨s.kernel, none, own, rfl, h.toOneOwner, h.files⟩
  | some i =>
      have hi : ¬ s.Used i := unused_of_state (unused_of_find hfind)
      have hne : cur ≠ i := by
        rintro rfl
        exact hi hcur
      obtain ⟨q, d, hq, hd, hspace⟩ := h.slots cur hcur
      rcases s.kernel.found_spec E i h.files with
        ⟨m, k, hk, hrun, rfl, hbeside, hstate, hfiles⟩ |
        ⟨m, f, k, hk, hrun, hmem, hbeside, hstack, hfiles⟩
      · -- no page for the kernel stack
        simp only [hrun]
        refine ⟨k, none, own, rfl, h.absent (.ret hbeside) hi (unused_of_state hstate)
          (h.owned.kalloc_none hk).pages fun x _ => ?_, hfiles⟩
        exact congrFun (Mem.kalloc_none hk).1 x
      · simp only [hrun]
        rw [hbeside.pgdir cur hne, hd, Option.bind_some, hbeside.sz cur hne]
        obtain ⟨hfree, h₁⟩ := h.owned.alloc (o := .stack i.val) hk (stackPage E (m.ram f))
          trivial (by rintro ⟨⟩)
        have hspace₁ := hspace.alloc h.owned.pages hk hfree (.stack i.val)
          (stackPage E (m.ram f))
        rw [← hmem] at h₁ hspace₁
        obtain ⟨m₂, r, own₂, hcopy, h₂, hres⟩ := h₁.pages.copyuvm hL hspace₁.dir
          (Nat.le_of_lt hspace₁.lt)
          (fun b hb => (hspace₁.mapped b (by
            have := pagesOf_le (Nat.le_of_lt hspace₁.lt)
            omega)).mpr hb)
        rw [hcopy, Option.bind_some]
        rcases hres with ⟨rfl, hrestored⟩ | ⟨d', rfl, hcopied⟩
        · -- the kernel stack is given back
          obtain rfl : own₂ = update own f (.stack i.val) := funext hrestored.owner
          have h₂' : Owned L (update own f (.stack i.val)) m₂
              ((s.uses L).put f (.stack i.val)) := ⟨h₂, h₁.uses, h₁.hand⟩
          have hrange := h.owned.pages.range f (by rw [hfree]; rintro ⟨⟩)
          obtain ⟨m₃, hkfree, h₃, hram⟩ :=
            h₂'.kfree (f := f) (by rw [Function.update_self]; trivial) hrange
          have hback : update (update own f (.stack i.val)) f .free = own := by
            rw [Function.update_idem, ← hfree, Function.update_eq_self]
          rw [hback] at h₃
          unfold Kernel.forkCopied
          simp only [hstack, hkfree, Option.bind_some, Option.map_some]
          have hmem' : Beside i s.kernel { k with mem := m₃ } :=
            ⟨hbeside.state, hbeside.kstack, hbeside.pgdir, hbeside.sz⟩
          have hall : Beside i s.kernel ((Kernel.setRest { k with mem := m₃ } i fun p =>
              { p with pgdir := none, kstack := none }).giveUp i) :=
            hmem'.trans ((Beside.setRest i _ _).trans (Beside.setProc i _ _))
          refine ⟨_, none, own, rfl, h.absent (.ret hall) hi
            (unused_of_state (by simp [PageState.ret, Kernel.giveUp])) h₃.pages fun x hx => ?_,
            fun j fd x hx => ?_⟩
          · have hxf : x ≠ f := by
              rintro rfl
              exact hx hfree
            have hold : update own f (.stack i.val) x ≠ .free := by
              rw [Function.update_of_ne hxf]
              exact hx
            refine (hram x hxf).trans ((hrestored.ram x hold).trans ?_)
            rw [hmem]
            exact Mem.kalloc_fill_ram hk _ x hxf
          · refine hfiles j fd x ?_
            by_cases hj : j = i
            · subst hj
              simpa [Kernel.giveUp, Kernel.setRest] using hx
            · simpa [Kernel.giveUp, Kernel.setRest, hj] using hx
        · unfold Kernel.forkCopied
          obtain ⟨k₂, r, p, hchild, hmem₂, hbeside₂, hstate₂, hstack₂, hdir₂, hsz₂, hfiles₂⟩ :=
            Kernel.forkChild_spec (k := { k with mem := m₂ }) cur i d' hfiles
              ((hbeside.kstack cur hne).trans hq) hstack
          have hmem' : Beside i s.kernel { k with mem := m₂ } :=
            ⟨hbeside.state, hbeside.kstack, hbeside.pgdir, hbeside.sz⟩
          have hall : Beside i s.kernel k₂ := hmem'.trans hbeside₂
          have hused : (s.ret (some k₂)).Used i := by
            show (k₂.procs i).state ≠ .unused
            rw [hstate₂]
            rintro ⟨⟩
          have htouch := hcopied.built.touches h₁.pages
          rw [hmem] at htouch
          have hsz : (k₂.rest i).sz = (s.kernel.rest cur).sz :=
            hsz₂.trans (hbeside.sz cur hne)
          have hspace₂ : Space own₂ m₂ d' (k₂.rest i).sz := by
            rw [hsz]
            exact ⟨hcopied.built.dir, hspace.lt, hcopied.mapped, hcopied.safe⟩
          exact ⟨k₂, r, own₂, hchild, h.spawn (.ret hall) hi hk _ h₂ htouch hcopied.built.was
            hspace₂ hmem₂ hused hstack₂ hdir₂, hfiles₂⟩

/-! ## The other calls -/

/-- The contents of a page that is no directory and no table change. -/
theorem OneOwner.fill (h : OneOwner L s own) (hf : (own f).loose = true) (p : Page) :
    OneOwner L (s.setMem (s.kernel.mem.fill f p)) own := by
  refine h.keeps (i := firstSlot) ⟨rfl, rfl, rfl, rfl, rfl, fun _ _ => Iff.rfl, fun _ _ => rfl,
    fun _ _ => rfl, fun _ _ => rfl⟩ Iff.rfl rfl rfl rfl (h.owned.fill hf p).pages fun x hx => ?_
  refine Mem.fill_ram_ne _ p ?_
  rintro rfl
  rcases hx with hx | ⟨e, k, hx⟩ <;> rw [hx] at hf <;> cases hf

theorem OneOwner.own_stack (h : OneOwner L s own) (hi : s.Used i)
    (hq : (s.kernel.rest i).kstack = some q) : own q = .stack i.val :=
  (h.owned.uses (.stack i.val) trivial q).mpr ⟨i, rfl, hi, hq⟩

/-- `exec` returns, and the process has an address space. -/
theorem PageInv.exec (hL : L.Ok) (h : PageInv L s own) (hcur : s.Used cur)
    (namei : List Byte → Option Nat) (path : List Byte) (argv : List (List Byte)) :
    ∃ k own', s.kernel.runExec L R namei path argv cur = some k ∧
      OneOwner L (s.ret (some k)) own' ∧ Counted k := by
  obtain ⟨q, d, hq, hd, hspace⟩ := h.slots cur hcur
  have hstack := h.own_stack hcur hq
  have hdq : q ≠ d := by
    rintro rfl
    rw [hspace.dir] at hstack
    cases hstack
  obtain ⟨t, r, own', hrun, hpages, hres⟩ := exec_touches (R := R) hL
    (s := s.kernel.execState cur d q) h.owned.pages hspace.dir namei path argv
  unfold Kernel.runExec
  simp only [hq, hd, Option.bind_some, hrun, Option.map_some]
  let k : Kernel := { s.kernel with mem := t.mem, inodeRef := t.refs }.setRest cur fun p =>
    { p with pgdir := some t.pgdir, sz := t.sz, name := t.name }
  have hmem' : Beside cur s.kernel { s.kernel with mem := t.mem, inodeRef := t.refs } :=
    ⟨fun _ _ => Iff.rfl, fun _ _ => rfl, fun _ _ => rfl, fun _ _ => rfl⟩
  have hall : Beside cur s.kernel k := hmem'.trans (Beside.setRest cur _ _)
  have hkstack : (k.rest cur).kstack = (s.kernel.rest cur).kstack := by
    simp [k, Kernel.setRest]
  have hkdir : (k.rest cur).pgdir = some t.pgdir := by simp [k, Kernel.setRest]
  have hksz : (k.rest cur).sz = t.sz := by simp [k, Kernel.setRest]
  have hone : OneOwner L (s.ret (some k)) own' := by
    rcases hres with hnew | ⟨heq, hrestored⟩
    · obtain ⟨own₁, m₁, h₁, hdir₁, ht₁, ht⟩ := hnew.touches
      exact h.exchange (.ret hall) hcur hcur hkstack hd hkdir h₁ hnew.new hdir₁ ht₁ hpages ht
        hnew.gone (hksz ▸ hnew.space)
    · have hpgdir : t.pgdir = d := by rw [heq]; rfl
      have hsz : t.sz = (s.kernel.rest cur).sz := by rw [heq]; rfl
      have hspace' : Space own' t.mem d (s.kernel.rest cur).sz := by
        refine hspace.frame h.owned.pages (hrestored.owner d)
          (hrestored.ram d (by rw [hspace.dir]; rintro ⟨⟩)) fun x k hx => ?_
        exact hrestored.ram x (by rw [hx]; rintro ⟨⟩)
      exact h.resize (.ret hall) hcur hcur hkstack hd (hpgdir ▸ hkdir) hpages
        (hrestored.touches d) (show Space own' t.mem d (k.rest cur).sz by
          rw [hksz, hsz]
          exact hspace')
  have hstack' := hone.own_stack hcur (hkstack.trans hq)
  refine ⟨_, own', rfl, hone.fill (by rw [hstack']; rfl) (setTf (t.mem.ram q) t.eip t.esp), ?_⟩
  intro i fd x hx
  refine h.files i fd x ?_
  by_cases hi : i = cur
  · subst hi
    simpa [Kernel.afterExec, Kernel.setRest] using hx
  · simpa [Kernel.afterExec, Kernel.setRest, hi] using hx

/-- `sbrk` returns, unless it takes all memory away. -/
theorem PageInv.sbrk (h : PageInv L s own) (hcur : s.Used cur) {n : Word}
    (hn : n.toInt < 0 → (s.kernel.rest cur).sz + n.toInt ≠ 0) :
    ∃ k own', s.kernel.sbrk L cur n = some k ∧ OneOwner L (s.ret (some k)) own' ∧
      Counted k := by
  obtain ⟨q, d, hq, hd, hspace⟩ := h.slots cur hcur
  obtain ⟨t, r, own', hrun, hpages, hdir, hspace', ht⟩ :=
    growproc_touches (s := ⟨s.kernel.mem, d, (s.kernel.rest cur).sz⟩) h.owned.pages hspace hn
  unfold Kernel.sbrk
  simp only [hd, Option.bind_some, hrun, Option.map_some]
  have hmem' : Beside cur s.kernel { s.kernel with mem := t.mem } :=
    ⟨fun _ _ => Iff.rfl, fun _ _ => rfl, fun _ _ => rfl, fun _ _ => rfl⟩
  refine ⟨_, own', rfl, h.resize (.ret (hmem'.trans (Beside.setRest cur _ _))) hcur hcur
    (by simp [PageState.ret, Kernel.setRest]) hd (by simp [PageState.ret, Kernel.setRest, hd])
    hpages ht ?_, ?_⟩
  · simpa [PageState.ret, Kernel.setRest] using hspace'
  · intro i fd x hx
    refine h.files i fd x ?_
    by_cases hi : i = cur
    · subst hi
      simpa [Kernel.setRest] using hx
    · simpa [Kernel.setRest, hi] using hx

theorem ProcState.Wakes.unused_iff {a b : ProcState} (h : a.Wakes b) :
    b = .unused ↔ a = .unused := by
  rcases h with rfl | ⟨rfl, rfl⟩
  · exact Iff.rfl
  · exact ⟨nofun, nofun⟩

/-- A process that exits keeps its pages. -/
theorem PageInv.exit (h : PageInv L s own) (hcur : s.Used cur) :
    OneOwner L (s.ret (some (s.kernel.exit cur s.initproc))) own ∧
      Counted (s.kernel.exit cur s.initproc) := by
  have hall : Beside cur s.kernel (s.kernel.exit cur s.initproc) := by
    refine ⟨fun j hj => ?_, fun j hj => ?_, fun j hj => ?_, fun j hj => ?_⟩
    · simpa [Kernel.exit, Kernel.setRest, hj] using
        ProcState.Wakes.unused_iff (Table.exitPass_wakes j)
    · simp [Kernel.exit, Kernel.setRest, hj]
    · simp [Kernel.exit, Kernel.setRest, hj]
    · simp [Kernel.exit, Kernel.setRest, hj]
  have hused : (s.ret (some (s.kernel.exit cur s.initproc))).Used cur := by
    simp [PageState.Used, PageState.ret, Kernel.exit, Kernel.setRest]
  refine ⟨h.keeps (.ret hall) (iff_of_true hused hcur) ?_ ?_ ?_ h.owned.pages fun _ _ => rfl,
    fun i fd x hx => h.files i fd x ?_⟩
  · simp [PageState.ret, Kernel.exit, Kernel.setRest]
  · simp [PageState.ret, Kernel.exit, Kernel.setRest]
  · simp [PageState.ret, Kernel.exit, Kernel.setRest]
  · by_cases hi : i = cur
    · subst hi
      simp [Kernel.exit, Kernel.setRest] at hx
    · simpa [Kernel.exit, Kernel.setRest, hi] using hx

/-- The slot that `wait` stops at has a process. -/
theorem used_of_findZombie (hi : s.kernel.procs.findZombie cur = some i) : s.Used i := by
  have hfound := Table.find_some hi
  simp only [Bool.and_eq_true, beq_iff_eq] at hfound
  intro hunused
  rw [hunused] at hfound
  cases hfound.2

/-- `wait` gives up all pages of the child. -/
theorem PageInv.wait (h : PageInv L s own) (cur : Slot) :
    ∃ k own', s.kernel.wait L cur = some k ∧ OneOwner L (s.ret (some k)) own' ∧ Counted k := by
  unfold Kernel.wait
  cases hfind : s.kernel.procs.findZombie cur with
  | none => exact ⟨s.kernel, own, rfl, h.toOneOwner, h.files⟩
  | some i =>
      have hi := used_of_findZombie hfind
      obtain ⟨q, d, hq, hd, hspace⟩ := h.slots i hi
      have hstack := h.own_stack hi hq
      have hdq : d ≠ q := by
        rintro rfl
        rw [hspace.dir] at hstack
        cases hstack
      obtain ⟨m₁, hkfree, h₁, hram⟩ := h.owned.kfree (f := q) (by rw [hstack]; trivial)
        (h.owned.pages.range q (by rw [hstack]; nofun))
      have hd₁ : update own q .free d = .dir :=
        (Function.update_of_ne hdq _ _).trans hspace.dir
      obtain ⟨m₂, own₂, hfreevm, h₂, hfree, hkept⟩ := h₁.pages.freevm hd₁
      simp only [hq, hd, hkfree, hfreevm, Option.bind_some, Option.map_some]
      have hmem' : Beside i s.kernel { s.kernel with mem := m₂, procs := s.kernel.procs.reap i } :=
        ⟨fun j hj => by simp [Table.reap, hj], fun _ _ => rfl, fun _ _ => rfl, fun _ _ => rfl⟩
      refine ⟨_, own₂, rfl, h.reap (.ret (hmem'.trans (Beside.setRest i _ _))) hi
        (unused_of_state (by simp [PageState.ret, Kernel.setRest, Table.reap])) hq hd h₁ hram h₂
        (touches_of_freevm hfree hkept) (hfree d (.inl rfl)), fun j fd x hx => ?_⟩
      refine h.files j fd x ?_
      by_cases hj : j = i
      · subst hj
        simpa [Kernel.setRest] using hx
      · simpa [Kernel.setRest, hj] using hx

/-! ## Boot -/

theorem Touches.trans (h : Touches d own m own' m') {m'' : Mem}
    (h' : Touches d own' m' own'' m'') : Touches d own m own'' m'' where
  kept f hf hnot := by
    obtain ⟨howner, hram⟩ := h.kept f hf hnot
    have hnot' : ¬ Belongs own' d f := by
      unfold Belongs
      rw [howner]
      exact hnot
    obtain ⟨howner', hram'⟩ := h'.kept f (by rw [howner]; exact hf) hnot'
    exact ⟨howner'.trans howner, hram'.trans hram⟩
  own f hf := h'.own f (h.own f hf)

theorem Mem.fill_same (m : Mem) (f : Frame) : m.fill f (m.ram f) = m := by
  unfold Mem.fill
  rw [Function.update_eq_self]

/-- The first process. -/
theorem PageInv.userinit (hL : L.Ok) (h : PageInv L s own) (hstage : s.stage = .kinit2)
    {initcode : Page} (hrun : s.kernel.userinit L E initcode = some (k, i)) :
    ∃ own', OneOwner L { s with kernel := k, stage := .userinit, initproc := i } own' ∧
      Counted k := by
  have hnone := (h.boot (by rw [hstage]; nofun)).1
  unfold Kernel.userinit Kernel.allocproc at hrun
  cases hfind : s.kernel.procs.findUnused with
  | none =>
      rw [hfind] at hrun
      cases hrun
  | some i' =>
      rw [hfind] at hrun
      rcases s.kernel.found_spec E i' h.files with
        ⟨m, k', -, hfound, -⟩ | ⟨m, f, k', hk, hfound, hmem, hbeside, hstack, hfiles⟩
      · simp only [hfound] at hrun
        cases hrun
      · simp only [hfound, hstack, Option.bind_some] at hrun
        obtain ⟨hfree, h₁⟩ := h.owned.alloc (o := .stack i'.val) hk (stackPage E (m.ram f))
          trivial nofun
        rw [← hmem] at h₁
        obtain ⟨m₂, r, own₂, hset, h₂, hres⟩ := h₁.pages.setupkvm hL
        rw [hset] at hrun
        rcases hres with ⟨rfl, -⟩ | ⟨d, rfl, hbuilt, hsafe, habsent⟩
        · cases hrun
        · obtain ⟨m₃, hinit, heq⟩ := Option.map_eq_some_iff.mp hrun
          cases heq
          obtain ⟨own₃, h₃, ht, hspace, -⟩ := Mem.inituvm_space h₂ hbuilt.dir habsent hsafe hinit
          have htouch := (hbuilt.touches h₁.pages).trans ht
          rw [hmem] at htouch
          refine ⟨own₃, h.spawn (i := i) (t := { s with
              kernel := Kernel.initProc { k' with mem := m₃ } i f d
              stage := .userinit
              initproc := i }) ⟨?_, rfl, rfl, rfl, rfl, ?_⟩ (hnone i) hk _ h₃ htouch
            hbuilt.was ?_ rfl ?_ ?_ ?_, fun j fd x hx => ?_⟩
          · rw [hstage]
            rfl
          · refine hbeside.trans ⟨fun j hj => ?_, fun j hj => ?_, fun j hj => ?_, fun j hj => ?_⟩
            · simp [Kernel.initProc, Kernel.setRest, hj]
            · simp [Kernel.initProc, Kernel.setRest, hj]
            · simp [Kernel.initProc, Kernel.setRest, hj]
            · simp [Kernel.initProc, Kernel.setRest, hj]
          · simpa [Kernel.initProc, Kernel.setRest] using hspace
          · simp [PageState.Used, Kernel.initProc, Kernel.setRest]
          · simpa [Kernel.initProc, Kernel.setRest] using hstack
          · simp [Kernel.initProc, Kernel.setRest]
          · refine hfiles j fd x ?_
            by_cases hj : j = i
            · subst hj
              simpa [Kernel.initProc, Kernel.setRest] using hx
            · simpa [Kernel.initProc, Kernel.setRest, hj] using hx

/-- The processes and the directory of the kernel are the same. -/
theorem OneOwner.sameSlots (h : OneOwner L s own) (hprocs : t.kernel.procs = s.kernel.procs)
    (hrest : t.kernel.rest = s.kernel.rest) (hdir : t.kpgdir = s.kpgdir)
    (hcalm : t.panicked = s.panicked) (hown : Owned L own' t.kernel.mem (t.uses L))
    (hspaces : ∀ i, s.Used i → ∀ e n, Space own s.kernel.mem e n →
      Space own' t.kernel.mem e n) : OneOwner L t own' := by
  have hused : ∀ i, t.Used i ↔ s.Used i := by
    intro i
    unfold PageState.Used
    rw [hprocs]
  refine ⟨hown, fun i hi => ?_, fun i j d hi hj hdi hdj => ?_, fun i hi => ?_, ?_⟩
  · rw [hused] at hi
    obtain ⟨q, d, hq, hd, hspace⟩ := h.slots i hi
    rw [hrest]
    exact ⟨q, d, hq, hd, hspaces i hi d _ hspace⟩
  · rw [hused] at hi hj
    rw [hrest] at hdi hdj
    exact h.apart i j d hi hj hdi hdj
  · rw [hused] at hi
    rw [hrest, hdir]
    exact h.kernelDir i hi
  · exact hcalm.trans h.calm

/-- There is no process yet. -/
theorem OneOwner.boot (hnone : ∀ i, ¬ s.Used i) (hcalm : s.panicked = false)
    (hown : Owned L own s.kernel.mem (s.uses L)) : OneOwner L s own :=
  ⟨hown, fun i hi => absurd hi (hnone i), fun i _ _ hi => absurd hi (hnone i),
    fun i hi => absurd hi (hnone i), hcalm⟩

/-- Before there are processes, these are the uses of pages. -/
theorem boot_uses (hnone : ∀ i, ¬ s.Used i) (hpipes : s.pipes = []) (ho : o.Use) (f : Frame) :
    s.uses L o f ↔ o = .kernel ∧ (¬ s.Managed L f ∨ f ∈ s.cpuStacks) ∨
      o = .dir ∧ s.kpgdir = some f := by
  cases o with
  | kernel => simp [PageState.uses]
  | dir => simp [PageState.uses, hnone]
  | stack n => simp [PageState.uses, hnone]
  | pipe => simp [PageState.uses, hpipes]
  | free => exact ho.elim
  | hand => exact ho.elim
  | table e x => exact ho.elim
  | page e a => exact ho.elim

/-- `freerange` in `kinit1` and `kinit2`: the pages from `lo` on are managed, too. -/
theorem PageInv.freerange (lo hi : Frame) (h : PageInv L s own) (hstage : s.stage ≠ .userinit)
    (hlo : ∀ f, lo ≤ f ↔ L.kend ≤ f ∧ s.stage.top ≤ f) (hhi : hi ≤ physTop)
    (hle : s.stage.top ≤ hi) (hstacks : ∀ f ∈ s.cpuStacks, f < lo) {g : Stage}
    (hg : g.top = hi) :
    ∃ m own', s.kernel.mem.freerange L (pageRange lo hi) = some m ∧
      OneOwner L { s.setMem m with stage := g } own' := by
  obtain ⟨hnone, hpipes⟩ := h.boot hstage
  have hfs : ∀ f ∈ pageRange lo hi, own f = .kernel ∧ L.kend ≤ f ∧ f < physTop := by
    intro f hf
    obtain ⟨hlow, hlt⟩ := mem_pageRange.mp hf
    obtain ⟨hkend, htop⟩ := (hlo f).mp hlow
    refine ⟨(h.owned.uses .kernel trivial f).mpr (.inl ?_), hkend, Nat.lt_of_lt_of_le hlt hhi⟩
    exact fun hmanaged => Nat.not_lt_of_le htop hmanaged.2
  obtain ⟨m, own', hrun, h'⟩ := h.owned.freerange _ (nodup_pageRange lo hi) hfs
  have hmanaged : ∀ f, PageState.Managed L { s.setMem m with stage := g } f ↔
      s.Managed L f ∨ f ∈ pageRange lo hi := by
    intro f
    rw [mem_pageRange, hlo]
    show L.kend ≤ f ∧ f < g.top ↔ L.kend ≤ f ∧ f < s.stage.top ∨ _
    rw [hg]
    constructor
    · rintro ⟨hkend, hlt⟩
      by_cases htop : f < s.stage.top
      · exact .inl ⟨hkend, htop⟩
      · exact .inr ⟨⟨hkend, Nat.le_of_not_lt htop⟩, hlt⟩
    · rintro (⟨hkend, hlt⟩ | ⟨⟨hkend, -⟩, hlt⟩)
      · exact ⟨hkend, Nat.lt_of_lt_of_le hlt hle⟩
      · exact ⟨hkend, hlt⟩
  refine ⟨m, own', hrun, .boot hnone h.calm (h'.congr fun o ho f => ?_)⟩
  -- no other page is among those that are freed
  have hkernel : f ∈ pageRange lo hi → s.uses L o f → o = .kernel := by
    intro hf hu
    exact ((h.owned.uses o ho f).mpr hu).symm.trans (hfs f hf).1
  have hstack : f ∈ pageRange lo hi → f ∉ s.cpuStacks := by
    intro hf hmem
    exact Nat.not_le_of_lt (hstacks f hmem) (mem_pageRange.mp hf).1
  rw [boot_uses (s := { s.setMem m with stage := g }) hnone hpipes ho, hmanaged]
  rw [boot_uses hnone hpipes ho] at hkernel ⊢
  show o = .kernel ∧ (¬ (s.Managed L f ∨ f ∈ pageRange lo hi) ∨ f ∈ s.cpuStacks) ∨
    o = .dir ∧ s.kpgdir = some f ↔ _
  have hne : Owner.dir ≠ .kernel := nofun
  by_cases hf : f ∈ pageRange lo hi
  · have hnot := hstack hf
    have hdir : ¬ (o = .dir ∧ s.kpgdir = some f) := fun hboth =>
      hne (hboth.1.symm.trans (hkernel hf (.inr hboth)))
    simp [hf, hnot, hdir]
  · simp [hf]

theorem PageInv.kvmalloc (h : PageInv L s own) (hL : L.Ok) (hstage : s.stage = .kinit1) :
    ∃ m r own', s.kernel.mem.setupkvm L = some (m, r) ∧ ∀ d, r = some d →
      OneOwner L { s.setMem m with stage := .kvmalloc, kpgdir := some d } own' := by
  obtain ⟨hnone, hpipes⟩ := h.boot (by rw [hstage]; nofun)
  obtain ⟨hkpgdir, -⟩ := h.early (.inr hstage)
  obtain ⟨m, r, own', hrun, hpages, ⟨rfl, -⟩ | ⟨d, rfl, hbuilt, -⟩⟩ := h.owned.pages.setupkvm hL
  · exact ⟨m, none, own', hrun, nofun⟩
  · refine ⟨m, some d, own', hrun, fun e he => ?_⟩
    cases he
    have h' := h.owned.touches hpages (hbuilt.touches h.owned.pages) (by rw [hbuilt.dir]; nofun)
    rw [hbuilt.dir] at h'
    refine .boot hnone h.calm (h'.congr fun o ho f => ?_)
    have hunused := h.owned.unused hbuilt.was ho
    rw [boot_uses (s := { s.setMem m with stage := .kvmalloc, kpgdir := some d }) hnone hpipes ho]
    show o = .kernel ∧ (¬ (L.kend ≤ f ∧ f < fourMegabytes) ∨ f ∈ s.cpuStacks) ∨
      o = .dir ∧ some d = some f ↔ _
    by_cases hod : o = .dir
    · subst hod
      rw [Uses.put_self, boot_uses hnone hpipes ho, hkpgdir]
      simp [eq_comm]
    · rw [Uses.put_of_ne (Ne.symm hod) hunused, boot_uses hnone hpipes ho]
      unfold PageState.Managed
      simp [hod, hstage, Stage.top]

/-- A round of `startothers`. -/
theorem PageInv.startothers (h : PageInv L s own) (hstage : s.stage = .kvmalloc)
    (hk : s.kernel.mem.kalloc = (m, some f)) :
    OneOwner L { s.setMem m with cpuStacks := f :: s.cpuStacks } (update own f .kernel) ∧
      f < fourMegabytes := by
  obtain ⟨hnone, hpipes⟩ := h.boot (by rw [hstage]; nofun)
  obtain ⟨hfree, h'⟩ := h.owned.alloc (o := .kernel) hk (m.ram f) trivial nofun
  rw [Mem.fill_same] at h'
  have hunused : ∀ o, o.Use → ¬ s.uses L o f := fun o => h.owned.unused hfree
  refine ⟨.boot hnone h.calm (h'.congr fun o ho x => ?_), ?_⟩
  · rw [boot_uses (s := { s.setMem m with cpuStacks := f :: s.cpuStacks }) hnone hpipes ho]
    show o = .kernel ∧ (¬ s.Managed L x ∨ x ∈ f :: s.cpuStacks) ∨ o = .dir ∧ s.kpgdir = some x ↔ _
    by_cases hok : o = .kernel
    · subst hok
      rw [Uses.put_self, boot_uses hnone hpipes ho, List.mem_cons]
      have hne : Owner.kernel ≠ .dir := nofun
      simp only [hne, true_and, false_and, or_false]
      tauto
    · rw [Uses.put_of_ne (Ne.symm hok) (hunused o ho), boot_uses hnone hpipes ho]
      simp [hok]
  · -- a page that is free is managed
    by_contra hge
    refine hunused .kernel trivial (.inl fun hmanaged => hge ?_)
    have hlt := hmanaged.2
    rw [hstage] at hlt
    exact hlt

/-! ## Pipes -/

theorem PageInv.pipealloc (h : PageInv L s own) (hk : s.kernel.mem.kalloc = (m, some f)) :
    OneOwner L { s.setMem m with pipes := f :: s.pipes } (update own f .pipe) ∧
      f ∉ s.pipes := by
  obtain ⟨hfree, h'⟩ := h.owned.alloc (o := .pipe) hk (m.ram f) trivial nofun
  have hunused : ∀ o, o.Use → ¬ s.uses L o f := fun o => h.owned.unused hfree
  refine ⟨h.sameSlots rfl rfl rfl rfl ?_ fun i _ e n hs => ?_, hunused .pipe trivial⟩
  · rw [Mem.fill_same] at h'
    refine h'.congr fun o ho x => ?_
    by_cases hop : o = .pipe
    · subst hop
      rw [Uses.put_self]
      exact List.mem_cons
    · rw [Uses.put_of_ne (Ne.symm hop) (hunused o ho)]
      cases o with
      | pipe => exact absurd rfl hop
      | _ => exact Iff.rfl
  · have hs' := hs.alloc h.owned.pages hk hfree .pipe (m.ram f)
    rw [Mem.fill_same] at hs'
    exact hs'

theorem PageInv.pipeclose (h : PageInv L s own) (hf : f ∈ s.pipes) :
    ∃ m own', s.kernel.mem.kfree L f = some m ∧
      OneOwner L { s.setMem m with pipes := s.pipes.erase f } own' := by
  have hpipe : own f = .pipe := (h.owned.uses .pipe trivial f).mpr hf
  obtain ⟨m, hrun, h', hram⟩ := h.owned.kfree (f := f) (by rw [hpipe]; trivial)
    (h.owned.pages.range f (by rw [hpipe]; nofun))
  refine ⟨m, _, hrun, h.sameSlots rfl rfl rfl rfl (h'.congr fun o ho x => ?_)
    fun i _ e n hs => ?_⟩
  · have hfree : Owner.free ≠ o := by
      rintro rfl
      exact ho
    by_cases hop : o = .pipe
    · subst hop
      show x ∈ s.pipes.erase f ↔ _
      rw [h.pipes.mem_erase_iff]
      unfold Uses.put
      by_cases hx : x = f
      · simp [hx]
      · rw [if_neg hx]
        exact and_iff_right hx
    · have hnot : ¬ s.uses L o f := by
        rw [← h.owned.uses o ho f, hpipe]
        exact Ne.symm hop
      rw [Uses.put_of_ne hfree hnot]
      cases o with
      | pipe => exact absurd rfl hop
      | _ => exact Iff.rfl
  · refine hs.put h.owned.pages ⟨?_, fun k => ?_⟩ .free hram
    · rw [hpipe]
      nofun
    · rw [hpipe]
      nofun

/-! ## Runs -/

theorem PageInv.of_call (h : PageInv L s own) (hstage : s.stage = .userinit)
    (hone : OneOwner L (s.ret (some k)) own') (hk : Counted k) :
    PageInv L (s.ret (some k)) own' where
  toOneOwner := hone
  files := hk
  boot hne := absurd hstage hne
  early hearly := by
    have hnot : s.stage = .entry ∨ s.stage = .kinit1 := hearly
    rw [hstage] at hnot
    rcases hnot with heq | heq <;> cases heq
  low := h.low
  pipes := h.pipes

/-- The page is written to. -/
theorem PageInv.fill (h : PageInv L s own) (hf : (own f).loose = true) (p : Page) :
    PageInv L (s.setMem (s.kernel.mem.fill f p)) own :=
  ⟨h.toOneOwner.fill hf p, h.files, h.boot, h.early, h.low, h.pipes⟩

/-- A page to which a process can write is its own. -/
theorem PageInv.loose_of_access {a : Nat} (h : PageInv L s own) (hcur : s.Used cur)
    (hd : (s.kernel.rest cur).pgdir = some d) (ha : a < 0x100000)
    (haccess : userAccess (s.kernel.mem.pte d a) = true) :
    (own (frameOf (s.kernel.mem.pte d a))).loose = true := by
  obtain ⟨-, d', -, hd', hspace⟩ := h.slots cur hcur
  obtain rfl : d = d' := Option.some.inj (hd.symm.trans hd')
  have huser : s.kernel.mem.UserPage d a := haccess
  have hlow : a < 0x80000 := by
    by_contra hge
    exact hspace.safe a (by omega) ha huser
  rw [(h.owned.pages.page d a _).mpr ⟨hspace.dir, hlow, huser.mapped, rfl⟩]
  rfl

/-- The pages that `poke` writes to are no directories and no tables. -/
theorem PageInv.loose_of_poke (h : PageInv L s own)
    (hf : f ∈ s.pipes ∨ ∃ i, s.Used i ∧ (s.kernel.rest i).kstack = some f) :
    (own f).loose = true := by
  rcases hf with hpipe | ⟨i, hi, hq⟩
  · rw [(h.owned.uses .pipe trivial f).mpr hpipe]
    rfl
  · rw [h.own_stack hi hq]
    rfl

/-- The steps of `main`. -/
theorem PageInv.boot_step (hL : L.Ok) (hkend : L.kend ≤ fourMegabytes) {initcode : Page}
    (h : PageInv L s own) {a : PageAct} (hok : Spares L E initcode s a)
    (ha : a = .kinit1 ∨ a = .kvmalloc ∨ a = .startothers ∨ a = .kinit2 ∨ a = .userinit)
    (hs : s.step L E initcode a = some t) : ∃ own', PageInv L t own' := by
  unfold PageState.step at hs
  rw [if_neg (Bool.eq_false_iff.mp h.calm)] at hs
  rcases ha with rfl | rfl | rfl | rfl | rfl
  · simp only at hs
    split at hs
    · rename_i hstage
      obtain ⟨m, own', hrun, hone⟩ := h.freerange L.kend fourMegabytes
        (g := .kinit1) (by rw [hstage]; nofun) (fun f => by simp [hstage, Stage.top])
        (by decide) (by rw [hstage]; exact Nat.zero_le _)
        (by simp [(h.early (.inl hstage)).2]) rfl
      rw [hrun] at hs
      cases hs
      exact ⟨own', hone, h.files, fun _ => h.boot (by rw [hstage]; nofun),
        fun _ => h.early (.inl hstage), h.low, h.pipes⟩
    · cases hs
  · simp only at hs
    split at hs
    · rename_i hstage
      obtain ⟨m, r, own', hrun, hone⟩ := h.kvmalloc hL hstage
      rw [hrun] at hs
      cases r with
      | none => cases hs
      | some d =>
          cases hs
          refine ⟨own', hone d rfl, h.files, fun _ => h.boot (by rw [hstage]; nofun),
            fun hearly => ?_, h.low, h.pipes⟩
          rcases hearly with heq | heq <;> cases heq
    · cases hs
  · simp only at hs
    split at hs
    · rename_i hstage
      split at hs
      · rename_i m f hk
        cases hs
        obtain ⟨hone, hlow⟩ := h.startothers hstage hk
        refine ⟨_, hone, h.files, h.boot, fun hearly => ?_, fun x hx => ?_, h.pipes⟩
        · have hnot : s.stage = .entry ∨ s.stage = .kinit1 := hearly
          rw [hstage] at hnot
          rcases hnot with heq | heq <;> cases heq
        · rcases List.mem_cons.mp hx with rfl | hx
          · exact hlow
          · exact h.low x hx
      · cases hs
    · cases hs
  · simp only at hs
    split at hs
    · rename_i hstage
      obtain ⟨m, own', hrun, hone⟩ := h.freerange fourMegabytes physTop
        (g := .kinit2) (by rw [hstage]; nofun)
        (fun f => by
          rw [hstage]
          exact ⟨fun hf => ⟨Nat.le_trans hkend hf, hf⟩, fun hf => hf.2⟩)
        (Nat.le_refl _) (by rw [hstage]; decide) h.low rfl
      rw [hrun] at hs
      cases hs
      refine ⟨own', hone, h.files, fun _ => h.boot (by rw [hstage]; nofun),
        fun hearly => ?_, h.low, h.pipes⟩
      rcases hearly with heq | heq <;> cases heq
    · cases hs
  · simp only at hs
    split at hs
    · rename_i hstage
      split at hs
      · rename_i k i hrun
        cases hs
        obtain ⟨own', hone, hfiles⟩ := h.userinit hL hstage hrun
        refine ⟨own', hone, hfiles, fun hne => absurd rfl hne, fun hearly => ?_, h.low, h.pipes⟩
        rcases hearly with heq | heq <;> cases heq
      · rename_i hnone
        exact absurd hnone hok
    · cases hs

/-- Every step keeps the invariant. -/
theorem PageInv.step (hL : L.Ok) (hkend : L.kend ≤ fourMegabytes) {initcode : Page}
    (h : PageInv L s own) {a : PageAct} (hok : Spares L E initcode s a)
    (hs : s.step L E initcode a = some t) : ∃ own', PageInv L t own' := by
  have hcall : ∀ {cur : Slot} {x : PageState}, s.call cur x = some t →
      s.stage = .userinit ∧ s.Used cur ∧ t = x := by
    intro cur x hx
    unfold PageState.call at hx
    split at hx
    · rename_i hcond
      cases hx
      exact ⟨hcond.1, hcond.2.1, rfl⟩
    · cases hx
  have hstep := hs
  unfold PageState.step at hs
  rw [if_neg (Bool.eq_false_iff.mp h.calm)] at hs
  cases a with
  | kinit1 => exact h.boot_step hL hkend hok (.inl rfl) hstep
  | kvmalloc => exact h.boot_step hL hkend hok (.inr (.inl rfl)) hstep
  | startothers => exact h.boot_step hL hkend hok (.inr (.inr (.inl rfl))) hstep
  | kinit2 => exact h.boot_step hL hkend hok (.inr (.inr (.inr (.inl rfl)))) hstep
  | userinit => exact h.boot_step hL hkend hok (.inr (.inr (.inr (.inr rfl)))) hstep
  | fork cur =>
      obtain ⟨hstage, hcur, rfl⟩ := hcall hs
      obtain ⟨k, r, own', hrun, hone, hk⟩ := h.fork (E := E) hL hcur
      rw [hrun]
      exact ⟨own', h.of_call hstage hone hk⟩
  | exec cur R namei path argv =>
      obtain ⟨hstage, hcur, rfl⟩ := hcall hs
      obtain ⟨k, own', hrun, hone, hk⟩ := h.exec (R := R) hL hcur namei path argv
      rw [hrun]
      exact ⟨own', h.of_call hstage hone hk⟩
  | sbrk cur n =>
      obtain ⟨hstage, hcur, rfl⟩ := hcall hs
      obtain ⟨k, own', hrun, hone, hk⟩ := h.sbrk hcur hok
      rw [hrun]
      exact ⟨own', h.of_call hstage hone hk⟩
  | exit cur =>
      have hne : cur ≠ s.initproc := hok
      simp only [if_neg hne] at hs
      obtain ⟨hstage, hcur, rfl⟩ := hcall hs
      obtain ⟨hone, hk⟩ := h.exit hcur
      exact ⟨own, h.of_call hstage hone hk⟩
  | wait cur =>
      obtain ⟨hstage, hcur, rfl⟩ := hcall hs
      obtain ⟨k, own', hrun, hone, hk⟩ := h.wait cur
      rw [hrun]
      exact ⟨own', h.of_call hstage hone hk⟩
  | pipealloc =>
      simp only at hs
      split at hs
      · rename_i m f hk
        split at hs
        · rename_i hstage
          cases hs
          obtain ⟨hone, hnew⟩ := h.pipealloc hk
          refine ⟨_, hone, h.files, fun hne => absurd hstage hne, h.early, h.low, ?_⟩
          exact List.nodup_cons.mpr ⟨hnew, h.pipes⟩
        · cases hs
      · rename_i m hk
        split at hs
        · cases hs
          refine ⟨own, h.keeps (i := firstSlot) ⟨rfl, rfl, rfl, rfl, rfl, fun _ _ => Iff.rfl,
            fun _ _ => rfl, fun _ _ => rfl, fun _ _ => rfl⟩ Iff.rfl rfl rfl rfl
            (h.owned.kalloc_none hk).pages fun f _ => congrFun (Mem.kalloc_none hk).1 f,
            h.files, h.boot, h.early, h.low, h.pipes⟩
        · cases hs
  | pipeclose f =>
      simp only at hs
      split at hs
      · rename_i hf
        obtain ⟨m, own', hrun, hone⟩ := h.pipeclose hf
        rw [hrun] at hs
        cases hs
        refine ⟨own', hone, h.files, fun hne => ?_, h.early, h.low, h.pipes.erase f⟩
        obtain ⟨hnone, hpipes⟩ := h.boot hne
        exact ⟨hnone, by simp [hpipes]⟩
      · cases hs
  | files ofile cwd fileRef inodeRef =>
      cases hs
      exact ⟨own, h.keeps (i := firstSlot) ⟨rfl, rfl, rfl, rfl, rfl, fun _ _ => Iff.rfl,
        fun _ _ => rfl, fun _ _ => rfl, fun _ _ => rfl⟩ Iff.rfl rfl rfl rfl h.owned.pages
        fun _ _ => rfl, hok, h.boot, h.early, h.low, h.pipes⟩
  | store cur a p =>
      simp only at hs
      split at hs
      · rename_i d hd
        split at hs
        · rename_i haccess
          obtain ⟨-, hcur, rfl⟩ := hcall hs
          exact ⟨own, h.fill (h.loose_of_access hcur hd haccess.1 haccess.2.1) p⟩
        · cases hs
      · cases hs
  | poke f p =>
      simp only at hs
      split at hs
      · rename_i hf
        cases hs
        exact ⟨own, h.fill (h.loose_of_poke hf) p⟩
      · cases hs

/-- The machine before `main`. -/
theorem PowerOn.pageInv (hpos : 0 < L.kend) (h : PowerOn s) :
    PageInv L s fun _ => .kernel where
  owned :=
    { pages :=
        { nodup := by
            rw [h.free]
            exact List.nodup_nil
          free := by simp [h.free]
          table := by simp
          range := fun f hf => absurd rfl hf
          pos := hpos
          page := by simp }
      uses := fun o ho f => by
        rw [boot_uses h.unused h.pipes ho, h.kpgdir]
        simp [PageState.Managed, h.stage, Stage.top, eq_comm]
      hand := nofun }
  slots i hi := absurd hi (h.unused i)
  apart i _ _ hi := absurd hi (h.unused i)
  kernelDir i hi := absurd hi (h.unused i)
  calm := h.calm
  files i fd f hf := by
    rw [h.files] at hf
    cases hf
  boot _ := ⟨h.unused, h.pipes⟩
  early _ := ⟨h.kpgdir, h.cpuStacks⟩
  low := by simp [h.cpuStacks]
  pipes := by simp [h.pipes]

end OsWork.Ports.PageTables

import OsWork.Ports.ExecArgs
import OsWork.Ports.Fork

/-!
# What the pages are used for

Of the pages of physical memory, some are kernel stacks, page directories or pipes, and some
are never given out by `kalloc`.  `Owned` says that the owners of the pages are these, so that
every other page is on the free list, or a table or a user page of one of the directories.

A function of `vm.c` changes one address space and nothing else (`Touches`).  That keeps the
uses of all pages and the address spaces of all other directories.

## Main results

* `Owned.touches`, `Space.touches` — the uses, and the other address spaces, stay as they are.
* `growproc_touches`, `exec_touches` — `growproc` and `exec` change address spaces in this way.
-/

namespace OsWork.Ports.PageTables

open OsWork.Ports.ProcTable (Word)
open Function (update)

variable {L : Layout} {R : Reader} {own own' own'' : Frame → Owner} {m m' m'' : Mem}
  {d e f : Frame} {a sz sz' : Nat}

/-! ## One address space -/

/-- The directory maps the pages below `sz`, and the user can access none of the kernel. -/
structure Space (own : Frame → Owner) (m : Mem) (d : Frame) (sz : Nat) : Prop where
  dir : own d = .dir
  lt : sz < KERNBASE
  mapped : ∀ a, a < 0x80000 → (m.Mapped d a ↔ a < pagesOf sz)
  safe : m.KernelSafe d

/-- Nothing has changed but the address space of `d`, which may be new or gone. -/
structure Touches (d : Frame) (own : Frame → Owner) (m : Mem) (own' : Frame → Owner)
    (m' : Mem) : Prop where
  kept : ∀ f, own f ≠ .free → ¬ Belongs own d f → own' f = own f ∧ m'.ram f = m.ram f
  own : ∀ f, own f = .free ∨ Belongs own d f → own' f = .free ∨ Belongs own' d f

/-- An address space lasts as long as its directory and its tables. -/
theorem Space.frame (h : Space own m e sz) (hp : Pages L own m) (hdir : own' e = own e)
    (hram : m'.ram e = m.ram e) (htable : ∀ f k, own f = .table e k → m'.ram f = m.ram f) :
    Space own' m' e sz := by
  have hpte := hp.toTables.pte_congr h.dir hram htable
  refine ⟨hdir.trans h.dir, h.lt, fun a ha => ?_, fun a hlow ha => ?_⟩
  · unfold Mem.Mapped
    rw [hpte]
    exact h.mapped a ha
  · unfold Mem.UserPage
    rw [hpte]
    exact h.safe a hlow ha

/-- What belongs to one directory does not belong to another one. -/
theorem not_belongs_of_dir (he : own e = .dir) (hne : e ≠ d) : ¬ Belongs own d e := by
  rintro (heq | ⟨k, hk⟩ | ⟨b, hb⟩)
  · exact hne heq
  · rw [he] at hk
    cases hk
  · rw [he] at hb
    cases hb

theorem not_belongs_of_table {k : Entry} (hf : own f = .table e k) (hne : e ≠ d)
    (hd : own d = .dir ∨ own d = .free) : ¬ Belongs own d f := by
  rintro (heq | ⟨k', hk⟩ | ⟨b, hb⟩)
  · rw [heq] at hf
    rcases hd with hd | hd <;> rw [hd] at hf <;> cases hf
  · rw [hf] at hk
    injection hk with heq
    exact hne heq
  · rw [hf] at hb
    cases hb

theorem Space.touches (h : Space own m e sz) (hp : Pages L own m) (ht : Touches d own m own' m')
    (hne : e ≠ d) (hd : own d = .dir ∨ own d = .free) : Space own' m' e sz := by
  have hkept := ht.kept e (by rw [h.dir]; nofun) (not_belongs_of_dir h.dir hne)
  refine h.frame hp hkept.1 hkept.2 fun f k hf => ?_
  exact (ht.kept f (by rw [hf]; nofun) (not_belongs_of_table hf hne hd)).2

/-! ### How functions touch an address space -/

theorem Restored.touches (h : Restored own m own' m') (d : Frame) : Touches d own m own' m' where
  kept f hf _ := ⟨h.owner f, h.ram f hf⟩
  own f hf := by
    rcases hf with hfree | hbelongs
    · exact .inl ((h.owner f).trans hfree)
    · refine .inr ?_
      unfold Belongs
      rw [h.owner]
      exact hbelongs

/-- An address space that has been made. -/
theorem Built.touches (h : Built d own m own' m') (hp : Pages L own m) :
    Touches d own m own' m' where
  kept f hf _ := h.kept f hf
  own f hf := by
    by_cases hfree : own f = .free
    · exact h.new f hfree
    · exact absurd (hf.resolve_left hfree) fun hbelongs =>
        h.not_belongs hp hfree (by
          unfold Belongs
          rw [(h.kept f hfree).1]
          exact hbelongs)

theorem Gains.touches {lo hi : Nat} (h : Gains d lo hi own m own' m') :
    Touches d own m own' m' where
  kept f hf hnot := by
    refine ⟨h.of_ne_free hf, h.ram f hf (fun heq => hnot (.inl heq)) fun k hk => ?_⟩
    exact hnot (.inr (.inl ⟨k, hk⟩))
  own f hf := by
    rcases h.owner f with hsame | ⟨-, ⟨k, hk⟩ | ⟨b, -, -, hb⟩⟩
    · unfold Belongs
      rw [hsame]
      exact hf
    · exact .inr (.inr (.inl ⟨k, hk⟩))
    · exact .inr (.inr (.inr ⟨b, hb⟩))

theorem Frees.touches {lo hi : Nat} (h : Frees d lo hi own m own' m') :
    Touches d own m own' m' where
  kept f _ hnot := by
    have hpage : ∀ b, own f = .page d b → ¬ (lo ≤ b ∧ b < hi) :=
      fun b hb => absurd (.inr (.inr ⟨b, hb⟩)) hnot
    exact ⟨h.kept f hpage, h.ram f hpage fun k hk => hnot (.inr (.inl ⟨k, hk⟩))⟩
  own f hf := by
    by_cases hpage : ∀ b, own f = .page d b → ¬ (lo ≤ b ∧ b < hi)
    · unfold Belongs
      rw [h.kept f hpage]
      exact hf
    · push Not at hpage
      obtain ⟨b, hb, hlow, hhigh⟩ := hpage
      exact .inl (h.freed f b hb hlow hhigh)

theorem Gains.safe {lo hi : Nat} (h : Gains d lo hi own m own' m') (hhi : hi ≤ 0x80000)
    (hs : m.KernelSafe d) : m'.KernelSafe d := by
  intro b hlow hb hu
  rcases h.pte b hb (by omega) with hsame | ⟨-, hnot⟩
  · unfold Mem.UserPage at hu
    rw [hsame] at hu
    exact hs b hlow hb hu
  · exact hnot hu.mapped

theorem Frees.safe {lo hi : Nat} (h : Frees d lo hi own m own' m') (hhi : hi ≤ 0x80000)
    (hs : m.KernelSafe d) : m'.KernelSafe d := by
  intro b hlow hb hu
  unfold Mem.UserPage at hu
  rw [h.pte b hb (by omega)] at hu
  exact hs b hlow hb hu

/-! ## `growproc` -/

/-- `growproc` does not panic and changes the address space of its process only, unless it
is asked to take all of it. -/
theorem growproc_touches {s : Grown} {n : Word} (h : Pages L own s.mem)
    (hs : Space own s.mem s.pgdir s.sz) (hn : n.toInt < 0 → s.sz + n.toInt ≠ 0) :
    ∃ t r own', growproc L s n = some (t, r) ∧ Pages L own' t.mem ∧ t.pgdir = s.pgdir ∧
      Space own' t.mem s.pgdir t.sz ∧ Touches s.pgdir own s.mem own' t.mem := by
  have hok : s.Ok L own := ⟨h, hs.dir, hs.lt, hs.mapped⟩
  have hlt := hs.lt
  have hmax := pagesOf_le (Nat.le_of_lt hs.lt)
  have hstay : Touches s.pgdir own s.mem own s.mem := ⟨fun _ _ _ => ⟨rfl, rfl⟩, fun _ hf => hf⟩
  -- the size and the mappings that `AllOrNothing` speaks of
  have hspace : ∀ {t r own'}, AllOrNothing s n.toInt (some (t, r)) → Pages L own' t.mem →
      own' s.pgdir = .dir → t.mem.KernelSafe s.pgdir →
      t.pgdir = s.pgdir ∧ Space own' t.mem s.pgdir t.sz := by
    rintro t r own' ⟨t', ⟨heq, hres⟩ | ⟨heq, hsame⟩⟩ - hdir hsafe
    · cases heq
      exact ⟨hres.pgdir, hdir, hres.lt, hres.mapped, hsafe⟩
    · cases heq
      refine ⟨hsame.pgdir, hdir, hsame.sz ▸ hs.lt, fun a ha => ?_, hsafe⟩
      rw [hsame.mapped a ha, hsame.sz]
      exact hs.mapped a ha
  unfold KERNBASE at hlt
  by_cases hpos : 0 < n.toInt
  · have hall := hok.grow hpos
    have hnlt := n.toInt_lt
    have hsum := uintAdd_of_bounds s.sz n.toInt (by omega) (by omega)
    by_cases hbig : KERNBASE ≤ uintAdd s.sz n.toInt
    · have hrun : growproc L s n = some (s.resized (s.mem, 0)) := by
        unfold growproc
        rw [if_pos hpos]
        unfold Mem.allocuvm
        rw [if_pos hbig]
        rfl
      rw [hrun] at hall
      have hend := hspace hall h hs.dir hs.safe
      exact ⟨_, _, own, hrun, h, hend.1, hend.2, hstay⟩
    · have hnew : uintAdd s.sz n.toInt < KERNBASE := Nat.lt_of_not_le hbig
      have hnmax := pagesOf_le (Nat.le_of_lt hnew)
      have habsent : ∀ b, pagesOf s.sz ≤ b → b < pagesOf (uintAdd s.sz n.toInt) →
          ¬ s.mem.Mapped s.pgdir b := by
        intro b hlow hb hm
        have hin := (hs.mapped b (by omega)).mp hm
        omega
      obtain ⟨m', sz', own', hrun, h', hres⟩ := h.allocuvm hs.dir hnew (by omega) habsent
      have hgrow : growproc L s n = some (s.resized (m', sz')) := by
        unfold growproc
        rw [if_pos hpos, hrun]
        rfl
      have hmem : (s.resized (m', sz')).1.mem = m' := by
        unfold Grown.resized
        split <;> rfl
      have htouch : Touches s.pgdir own s.mem own' m' ∧ own' s.pgdir = .dir ∧
          m'.KernelSafe s.pgdir := by
        have hne : own s.pgdir ≠ .free := by rw [hs.dir]; nofun
        rcases hres with ⟨-, hg⟩ | ⟨-, hg⟩
        · exact ⟨hg.touches, (hg.of_ne_free hne).trans hs.dir, hg.safe hnmax hs.safe⟩
        · exact ⟨hg.touches, (hg.of_ne_free hne).trans hs.dir, hg.safe hmax hs.safe⟩
      rw [hgrow] at hall
      have hend := hspace hall (hmem.symm ▸ h') htouch.2.1 (hmem.symm ▸ htouch.2.2)
      exact ⟨_, _, own', hgrow, hmem.symm ▸ h', hend.1, hend.2, hmem.symm ▸ htouch.1⟩
  · by_cases hneg : n.toInt < 0
    · by_cases hover : s.sz + n.toInt < 0
      · -- the new size wraps, and is not less than the old one
        have hnlow := n.le_toInt
        have hbig : s.sz ≤ uintAdd s.sz n.toInt := by
          unfold uintAdd
          omega
        have hrun : growproc L s n = some (s.resized (s.mem, s.sz)) := by
          rw [growproc_of_neg hneg]
          unfold Mem.deallocuvm
          rw [if_pos hbig]
          rfl
        have hres : (s.resized (s.mem, s.sz)).1 = s := by
          unfold Grown.resized
          split <;> rfl
        have hrun' : growproc L s n = some (s, (s.resized (s.mem, s.sz)).2) := by
          rw [hrun]
          exact congrArg (fun t => some (t, (s.resized (s.mem, s.sz)).2)) hres
        exact ⟨s, _, own, hrun', h, rfl, hs, hstay⟩
      · have hrest : 0 < s.sz + n.toInt := by
          have hne := hn hneg
          omega
        have hall := hok.shrink hneg hrest
        have hsum := uintAdd_of_bounds s.sz n.toInt (by omega) (by omega)
        obtain ⟨m', own', hrun, h', hfrees⟩ :=
          h.deallocuvm hs.dir (Nat.le_of_lt hs.lt) (show uintAdd s.sz n.toInt < s.sz by omega)
        have hshrink : growproc L s n = some (s.resized (m', uintAdd s.sz n.toInt)) := by
          rw [growproc_of_neg hneg, hrun]
          rfl
        have hmem : (s.resized (m', uintAdd s.sz n.toInt)).1.mem = m' := by
          unfold Grown.resized
          split <;> rfl
        have hdir : own' s.pgdir = .dir := by
          rw [hfrees.kept s.pgdir (by rw [hs.dir]; nofun), hs.dir]
        rw [hshrink] at hall
        have hend := hspace hall (hmem.symm ▸ h') hdir (hmem.symm ▸ hfrees.safe hmax hs.safe)
        exact ⟨_, _, own', hshrink, hmem.symm ▸ h', hend.1, hend.2, hmem.symm ▸ hfrees.touches⟩
    · have hrun : growproc L s n = some (s, 0) := by
        unfold growproc
        rw [if_neg hpos, if_neg hneg]
      exact ⟨s, 0, own, hrun, h, rfl, hs, hstay⟩

/-! ## `exec` -/

/-- `exec` has made the address space of `d`, and given up that of its process. -/
structure Replaced (L : Layout) (own : Frame → Owner) (s : ExecState) (own' : Frame → Owner)
    (t : ExecState) : Prop where
  new : own t.pgdir = .free
  space : Space own' t.mem t.pgdir t.sz
  gone : own' s.pgdir = .free
  /-- the address space is made, and then the old one is given up -/
  touches : ∃ own₁ m₁, Pages L own₁ m₁ ∧ own₁ t.pgdir = .dir ∧
    Touches t.pgdir own s.mem own₁ m₁ ∧ Touches s.pgdir own₁ m₁ own' t.mem

/-- `exec` returns, with a new address space or with the old one. -/
def Commits (L : Layout) (own : Frame → Owner) (s : ExecState) (x : Option (ExecState × Int)) :
    Prop :=
  ∃ t r own', x = some (t, r) ∧ Pages L own' t.mem ∧
    (Replaced L own s own' t ∨ t = { s with mem := t.mem } ∧ Restored own s.mem own' t.mem)

/-- `exec` returns -1. -/
theorem Returns.commits {s : ExecState} {x : Option (ExecState × Int)} (h : Returns L own s x)
    (hne : ∀ t, x ≠ some (t, 0)) : Commits L own s x := by
  obtain ⟨⟨t, r⟩, rfl, hzero | ⟨-, m', own', heq, hpages, hrestored⟩⟩ := h
  · exact absurd (by rw [show r = 0 from hzero]) (hne t)
  · have ht : t = { s with mem := m' } := heq
    subst ht
    exact ⟨_, r, own', rfl, hpages, .inr ⟨rfl, hrestored⟩⟩

/-- What `freevm` leaves of the other pages. -/
theorem touches_of_freevm (hfree : ∀ f, Belongs own d f → own' f = .free)
    (hkept : ∀ f, ¬ Belongs own d f → own' f = own f ∧ m'.ram f = m.ram f) :
    Touches d own m own' m' where
  kept f _ hnot := hkept f hnot
  own f hf := by
    by_cases hbelongs : Belongs own d f
    · exact .inl (hfree f hbelongs)
    · exact .inl ((hkept f hbelongs).1.trans (hf.resolve_right hbelongs))

section Exec

variable {s : ExecState} {elf path : List Byte} {argv : List (List Byte)} {ip : Nat}

theorem execCommit_commits (h₀ : Pages L own s.mem) (hd : own s.pgdir = .dir)
    {x : Mem × Option Nat} (h : Image L d own s.mem sz own' x.1) :
    Commits L own s (execCommit L elf path d sz s x) := by
  obtain ⟨m₁, r⟩ := x
  cases r with
  | none => exact (bad_loaded h₀ h).commits fun t => bad_ne_zero
  | some sp =>
      have hold := h.built.kept s.pgdir (by rw [hd]; nofun)
      have hne : d ≠ s.pgdir := by
        rintro rfl
        rw [h.built.was] at hd
        cases hd
      have hdir : own' s.pgdir = .dir := hold.1.trans hd
      obtain ⟨m₂, own₂, hrun, hpages, hfree, hkept⟩ := h.pages.freevm hdir
      have hgone := touches_of_freevm hfree hkept
      have hspace : Space own' m₁ d sz := ⟨h.built.dir, h.lt, h.mapped, h.safe⟩
      unfold execCommit
      simp only [hrun, Option.map_some]
      exact ⟨_, _, own₂, rfl, hpages, .inl
        ⟨h.built.was, hspace.touches h.pages hgone hne (.inl hdir), hfree _ (.inl rfl),
          own', m₁, h.pages, h.built.dir, h.built.touches h₀, hgone⟩⟩

theorem execLoaded_commits (h₀ : Pages L own s.mem) (hd : own s.pgdir = .dir)
    {x : Mem × Nat × Option Nat} (h : Image L d own s.mem sz own' x.1)
    (hsz : ∀ k, x.2.2 = some k → k = sz) :
    Commits L own s (execLoaded L elf path argv d ip (s.beginOp.ilock ip) x) := by
  obtain ⟨m₁, c, r⟩ := x
  cases r with
  | none => exact (bad_loading h₀ h).commits fun t => bad_ne_zero
  | some k =>
      rw [← hsz k rfl] at h
      obtain ⟨m₂, r, own₂, sz₂, hrun, h₂, hsz₂⟩ := h.stackPages h₀
      unfold execLoaded
      simp only [hrun, Option.bind_some]
      have hs : ((s.beginOp.ilock ip).iunlockput ip).endOp = s := s.release ip s.mem
      rw [hs]
      cases r with
      | none => exact (bad_loaded h₀ h₂).commits fun t => bad_ne_zero
      | some sz' =>
          rw [← hsz₂ sz' rfl] at h₂
          exact execCommit_commits h₀ hd (h₂.pushStack h₀ sz' argv)

theorem execFile_commits (hL : L.Ok) (h₀ : Pages L own s.mem) (hd : own s.pgdir = .dir) :
    Commits L own s (execFile L R path argv ip (s.beginOp.ilock ip)) := by
  have hsame : Restored own s.mem own s.mem := ⟨fun _ => rfl, fun _ _ => rfl⟩
  unfold execFile
  split
  · exact (bad_early h₀ hsame).commits fun t => bad_ne_zero
  · rename_i elf _
    by_cases hlen : elf.length ≠ 52
    · rw [if_pos hlen]
      exact (bad_early h₀ hsame).commits fun t => bad_ne_zero
    rw [if_neg hlen]
    by_cases hmagic : word elf 0 ≠ ELF_MAGIC
    · rw [if_pos hmagic]
      exact (bad_early h₀ hsame).commits fun t => bad_ne_zero
    rw [if_neg hmagic]
    obtain ⟨m₁, r, own₁, hrun, h₁, hres⟩ := h₀.setupkvm hL
    have hmem : (s.beginOp.ilock ip).mem = s.mem := rfl
    rw [hmem, hrun, Option.bind_some]
    rcases hres with ⟨rfl, hrestored⟩ | ⟨d, rfl, hbuilt, hsafe, hnone⟩
    · exact (bad_early h₁ hrestored).commits fun t => bad_ne_zero
    · have h := Image.start hbuilt h₁ hsafe hnone
      obtain ⟨m₂, c, r, own₂, sz, hseg, h₂, hsz⟩ :=
        Image.segments (R := R) h₀ (half elf 44) (word elf 28) 1 h
      unfold execLoad
      simp only [hseg, Option.bind_some]
      exact execLoaded_commits h₀ hd h₂ hsz

end Exec

/-- `exec` does not panic; it replaces the address space of its process, or leaves all as it
was. -/
theorem exec_touches (hL : L.Ok) {s : ExecState} (h : Pages L own s.mem)
    (hd : own s.pgdir = .dir) (namei : List Byte → Option Nat) (path : List Byte)
    (argv : List (List Byte)) : Commits L own s (exec L R namei path argv s) := by
  unfold exec
  split
  · exact ⟨_, _, own, rfl, h, .inr ⟨rfl, fun _ => rfl, fun _ _ => rfl⟩⟩
  · exact execFile_commits hL h hd

/-! ## The uses of pages -/

/-- The owners that say what a page is used for; a free page is not in use, and tables and
user pages are parts of the address space of a directory. -/
def Owner.Use : Owner → Prop
  | .stack _ | .pipe | .kernel | .dir => True
  | .hand | .free | .table _ _ | .page _ _ => False

/-- Which pages have these uses. -/
abbrev Uses := Owner → Frame → Prop

/-- The page gets another use, or none. -/
def Uses.put (u : Uses) (f : Frame) (o : Owner) : Uses := fun o' x =>
  if x = f then o = o' else u o' x

/-- The pages have the owners that their uses say, and no page is on the way. -/
structure Owned (L : Layout) (own : Frame → Owner) (m : Mem) (u : Uses) : Prop where
  pages : Pages L own m
  uses : ∀ o, o.Use → ∀ f, own f = o ↔ u o f
  hand : ∀ f, own f ≠ .hand

variable {u u' : Uses} {o : Owner}

/-- The same uses, written in another way. -/
theorem Owned.congr (h : Owned L own m u) (hu : ∀ o, o.Use → ∀ f, u' o f ↔ u o f) :
    Owned L own m u' where
  pages := h.pages
  uses o ho f := (h.uses o ho f).trans (hu o ho f).symm
  hand := h.hand

/-! ### A change of one address space -/

/-- No part of the address space of `d` has the use, the directory itself apart. -/
theorem not_belongs_of_use (ho : o.Use ∨ o = .hand) (hf : own f = o) (hne : f ≠ d) :
    ¬ Belongs own d f := by
  rintro (heq | ⟨k, hk⟩ | ⟨b, hb⟩)
  · exact hne heq
  · rw [← hf, hk] at ho
    rcases ho with ho | ho
    · exact ho
    · cases ho
  · rw [← hf, hb] at ho
    rcases ho with ho | ho
    · exact ho
    · cases ho

/-- The other pages keep their use. -/
theorem Touches.use (h : Touches d own m own' m') (ho : o.Use ∨ o = .hand) (hne : f ≠ d) :
    own' f = o ↔ own f = o := by
  have hfree : o ≠ .free := by
    rintro rfl
    rcases ho with ho | ho
    · exact ho
    · cases ho
  constructor
  · intro hf
    by_contra hnot
    by_cases hout : own f = .free ∨ Belongs own d f
    · rcases h.own f hout with hfree' | hbelongs
      · exact hfree (hf.symm.trans hfree')
      · exact not_belongs_of_use ho hf hne hbelongs
    · push Not at hout
      exact hnot ((h.kept f hout.1 hout.2).1.symm.trans hf)
  · intro hf
    exact (h.kept f (by rw [hf]; exact hfree) (not_belongs_of_use ho hf hne)).1.trans hf

/-- After a change of the address space of `d`, all other uses are as they were. -/
theorem Owned.touches (h : Owned L own m u) (hp : Pages L own' m')
    (ht : Touches d own m own' m') (hd : own' d ≠ .hand) :
    Owned L own' m' (u.put d (own' d)) where
  pages := hp
  uses o ho f := by
    unfold Uses.put
    by_cases hf : f = d
    · rw [if_pos hf, hf]
    · rw [if_neg hf, ht.use (.inl ho) hf]
      exact h.uses o ho f
  hand f hf := by
    by_cases heq : f = d
    · exact hd (heq ▸ hf)
    · exact h.hand f ((ht.use (.inr rfl) heq).mp hf)

/-! ### A change of one page -/

/-- The page has nothing to do with address spaces. -/
def Owner.Plain : Owner → Prop
  | .hand | .stack _ | .pipe | .kernel => True
  | .free | .dir | .table _ _ | .page _ _ => False

theorem Owner.Plain.ne (ho : o.Plain) :
    o ≠ .free ∧ o ≠ .dir ∧ (∀ e k, o ≠ .table e k) ∧ ∀ e a, o ≠ .page e a := by
  refine ⟨?_, ?_, ?_, ?_⟩
  · rintro rfl
    exact ho
  · rintro rfl
    exact ho
  · rintro e k rfl
    exact ho
  · rintro e a rfl
    exact ho

/-- A page is put to another use that has nothing to do with address spaces. -/
theorem Pages.relabel (h : Pages L own m) (hf : (own f).Plain) (ho : o.Plain)
    (hr : L.kend ≤ f ∧ f < physTop) : Pages L (update own f o) m := by
  obtain ⟨hfree, hdir, htable, hpage⟩ := hf.ne
  obtain ⟨hfree', hdir', htable', hpage'⟩ := ho.ne
  have ht : Tables L (update own f o) m :=
    { nodup := h.nodup
      free := by
        intro x
        rw [update_owner own f o .free hfree hfree']
        exact h.free x
      table := by
        intro e k x
        rw [update_owner own f o (.table e k) (htable e k) (htable' e k),
          update_owner own f o .dir hdir hdir']
        exact h.table e k x
      range := by
        intro x hx
        by_cases heq : x = f
        · exact heq ▸ hr
        · rw [Function.update_of_ne heq] at hx
          exact h.range x hx
      pos := h.pos }
  exact h.congr ht (update_owner own f o .dir hdir hdir') (fun _ _ _ _ => rfl)
    fun x e b => update_owner own f o (.page e b) (hpage e b) (hpage' e b) x

/-- The uses after a change of one owner. -/
theorem Owned.put_uses (h : Owned L own m u) (o' : Owner) (ho' : o'.Use) (x : Frame) :
    update own f o x = o' ↔ u.put f o o' x := by
  unfold Uses.put
  by_cases hx : x = f
  · rw [if_pos hx, hx, Function.update_self]
  · rw [if_neg hx, Function.update_of_ne hx]
    exact h.uses o' ho' x

theorem Owned.put_hand (h : Owned L own m u) (ho : o ≠ .hand) (x : Frame) :
    update own f o x ≠ .hand := by
  by_cases hx : x = f
  · rw [hx, Function.update_self]
    exact ho
  · rw [Function.update_of_ne hx]
    exact h.hand x

/-- A page that `kalloc` has given is put to use, and filled. -/
theorem Owned.alloc (h : Owned L own m u) (hk : m.kalloc = (m', some f)) (p : Page)
    (ho : o.Plain) (hne : o ≠ .hand) :
    own f = .free ∧ Owned L (update own f o) (m'.fill f p) (u.put f o) := by
  obtain ⟨hfree, h₁⟩ := h.pages.kalloc hk
  have hhand : update own f .hand f = .hand := Function.update_self f _ own
  have hrange := h.pages.range f (by rw [hfree]; nofun)
  have h₂ := (h₁.fill (by rw [hhand]; rfl) p).relabel (by rw [hhand]; trivial) ho hrange
  rw [Function.update_idem] at h₂
  exact ⟨hfree, h₂, h.put_uses, h.put_hand hne⟩

/-- A page goes to the free list. -/
theorem Owned.kfree (h : Owned L own m u) (hf : (own f).Plain)
    (hr : L.kend ≤ f ∧ f < physTop) :
    ∃ m', m.kfree L f = some m' ∧ Owned L (update own f .free) m' (u.put f .free) ∧
      ∀ x, x ≠ f → m'.ram x = m.ram x := by
  have h₁ := h.pages.relabel (o := .hand) hf trivial hr
  obtain ⟨m', hrun, h₂, hram⟩ := h₁.kfree (Function.update_self f _ own)
  rw [Function.update_idem] at h₂
  exact ⟨m', hrun, ⟨h₂, h.put_uses, h.put_hand nofun⟩, hram⟩

/-- The contents of a page that is no directory and no table change. -/
theorem Owned.fill (h : Owned L own m u) (hf : (own f).loose = true) (p : Page) :
    Owned L own (m.fill f p) u :=
  ⟨h.pages.fill hf p, h.uses, h.hand⟩

/-- `kalloc` has found nothing. -/
theorem Owned.kalloc_none (h : Owned L own m u) (hk : m.kalloc = (m', none)) :
    Owned L own m' u :=
  ⟨h.pages.kalloc_none hk, h.uses, h.hand⟩

/-- An address space, when another page changes its contents and its use. -/
theorem Space.put (h : Space own m e sz) (hp : Pages L own m)
    (hf : own f ≠ .dir ∧ ∀ k, own f ≠ .table e k) (o : Owner)
    (hram : ∀ x, x ≠ f → m'.ram x = m.ram x) : Space (update own f o) m' e sz := by
  have hne : e ≠ f := by
    rintro rfl
    exact hf.1 h.dir
  refine h.frame hp (Function.update_of_ne hne _ _) (hram e hne) fun x k hx => hram x ?_
  rintro rfl
  exact hf.2 k hx

theorem Space.fill (h : Space own m e sz) (hp : Pages L own m) (hf : (own f).loose = true)
    (p : Page) : Space own (m.fill f p) e sz := by
  have hne : ∀ x, (own x).loose = false → x ≠ f := by
    rintro x hx rfl
    rw [hf] at hx
    cases hx
  refine h.frame hp rfl (m.fill_ram_ne p (hne e (by rw [h.dir]; rfl))) fun x k hx => ?_
  exact m.fill_ram_ne p (hne x (by rw [hx]; rfl))

end OsWork.Ports.PageTables

import OsWork.Ports.EnoughPages
import OsWork.Ports.PageRuns

/-!
# From power-on to the first process

The kernel part of an address space takes 65 pages: a directory and 64 tables.  With these, and
a stack for each other CPU, between the end of the kernel and the fourth megabyte, `main` gets
to the first process.

## Main results

* `main_boots` — `main` makes the first process.
* `pages_have_one_owner` — in every state of a run of the kernel every page has one owner, and
  no call has panicked.
* `user_pages_private` — a page that a process can access is in use for nothing else.
-/

namespace OsWork.Ports.PageTables

open OsWork.Ports.ProcTable (Word Slot Table Proc ProcState)
open OsWork.Verified.Transition
open Function (update)

variable {L : Layout} {E : Entries} {own own' own₀ : Frame → Owner} {m m' m₀ m₁ : Mem}
  {d f q : Frame} {k : Entry} {a : Nat} {s t : PageState} {i : Slot}

/-! ## The tables of the kernel -/

/-- `walkpgdir` stores at most the entry of the page in the directory. -/
theorem Tables.walkpgdirAlloc_dir {r : Option (Frame × Entry)} (h : Tables L own m)
    (hd : own d = .dir) (hw : m.walkpgdirAlloc d a = (m', r)) :
    ∃ own', Tables L own' m' ∧ own' d = .dir ∧
      (∀ k, k ≠ PDX a → m'.ram d k = m.ram d k) ∧
      ∀ t k, r = some (t, k) → own' t = .table d (PDX a) ∧ d ≠ t := by
  obtain ⟨own', h', hg, -, ht⟩ := h.walkpgdirAlloc hd hw
  have hd' : own' d = .dir := (hg.of_ne_free (by rw [hd]; nofun)).trans hd
  refine ⟨own', h', hd', fun k hk => ?_, fun t k hr => ?_⟩
  · unfold Mem.walkpgdirAlloc at hw
    split at hw
    · cases hw
      rfl
    · split at hw
      · rename_i hkalloc
        cases hw
        rw [(Mem.kalloc_none hkalloc).1]
      · rename_i m₁ t hkalloc
        cases hw
        obtain ⟨hfree, -⟩ := h.kalloc hkalloc
        have hdt : d ≠ t := by
          rintro rfl
          rw [hfree] at hd
          cases hd
        rw [Mem.store_ram_self, Function.update_of_ne hk, m₁.fill_ram_ne _ hdt,
          (Mem.kalloc_some hkalloc).1]
  · obtain ⟨htable, -⟩ := ht t k hr
    refine ⟨htable, ?_⟩
    rintro rfl
    rw [hd'] at htable
    cases htable

/-- `mappages` stores only those entries of the directory that the range asks for. -/
theorem Tables.mapLoop_dir (perm : Word) : ∀ (n pa : Nat) {own : Frame → Owner} {m m' : Mem}
    {a : Nat} {ok : Bool}, Tables L own m → own d = .dir →
    m.mapLoop d perm n a pa = some (m', ok) →
    ∃ own', Tables L own' m' ∧ own' d = .dir ∧
      ∀ k, (∀ b, a ≤ b → b ≤ a + n → k ≠ PDX b) → m'.ram d k = m.ram d k := by
  intro n
  induction n with
  | zero =>
      intro pa own m m' a ok h hd hrun
      unfold Mem.mapLoop at hrun
      split at hrun
      · rename_i m₁ hw
        cases hrun
        obtain ⟨own₁, h₁, hd₁, hsame, -⟩ := h.walkpgdirAlloc_dir hd hw
        exact ⟨own₁, h₁, hd₁, fun k hk => hsame k (hk a (by omega) (by omega))⟩
      · rename_i m₁ t k hw
        obtain ⟨own₁, h₁, hd₁, hsame, ht⟩ := h.walkpgdirAlloc_dir hd hw
        obtain ⟨htable, hdt⟩ := ht t k rfl
        split at hrun
        · cases hrun
        · cases hrun
          refine ⟨own₁, h₁.store htable _ _, hd₁, fun x hx => ?_⟩
          rw [m₁.store_ram_ne _ _ hdt, hsame x (hx a (by omega) (by omega))]
  | succ n ih =>
      intro pa own m m' a ok h hd hrun
      unfold Mem.mapLoop at hrun
      split at hrun
      · rename_i m₁ hw
        cases hrun
        obtain ⟨own₁, h₁, hd₁, hsame, -⟩ := h.walkpgdirAlloc_dir hd hw
        exact ⟨own₁, h₁, hd₁, fun k hk => hsame k (hk a (by omega) (by omega))⟩
      · rename_i m₁ t k hw
        obtain ⟨own₁, h₁, hd₁, hsame, ht⟩ := h.walkpgdirAlloc_dir hd hw
        obtain ⟨htable, hdt⟩ := ht t k rfl
        split at hrun
        · cases hrun
        · obtain ⟨own', h', hd', hrest⟩ := ih (pa + 1) (h₁.store htable _ _) hd₁ hrun
          refine ⟨own', h', hd', fun x hx => ?_⟩
          rw [hrest x (fun b hlow hhigh => hx b (by omega) (by omega)),
            m₁.store_ram_ne _ _ hdt, hsame x (hx a (by omega) (by omega))]

/-- The entry is one of the 64 of the kernel part of a directory. -/
def KernelEntry (k : Entry) : Prop := 512 ≤ k.val ∧ k.val < 568 ∨ 1016 ≤ k.val

theorem PDX_val (b : Nat) : (PDX b).val = b / 1024 % 1024 := rfl

/-- The range of the entry of `kmap` is in the kernel part. -/
def InKernelPart (x : KernelMap) : Prop :=
  ∃ n, x.size = (n + 1) * 4096 ∧ x.virt + n < 0x100000 ∧
    ∀ b, x.virt ≤ b → b ≤ x.virt + n → KernelEntry (PDX b)

theorem kmap_inKernelPart (hL : L.Ok) : ∀ x ∈ kmap L, InKernelPart x := by
  have htext : @LT.lt Nat _ 0x100 L.kdata := hL.text
  have hdata : @LT.lt Nat _ L.kdata 0xE000 := hL.data
  have hpart : ∀ b, 0x80000 ≤ b → b < 0x8E000 → KernelEntry (PDX b) := by
    intro b hlow hhigh
    unfold KernelEntry
    rw [PDX_val]
    omega
  intro x hx
  simp only [kmap, List.mem_cons, List.not_mem_nil, or_false] at hx
  rcases hx with rfl | rfl | rfl | rfl
  · exact ⟨0xFF, rfl, by decide, fun b hlow hhigh => hpart b hlow (by simp only at hhigh; omega)⟩
  · refine ⟨L.kdata - 0x101, ?_, ?_, fun b hlow hhigh => hpart b ?_ ?_⟩
    · simp only [KernelMap.size, PGSIZE]
      omega
    · simp only
      omega
    · simp only at hlow
      omega
    · simp only at hhigh
      omega
  · refine ⟨0xDFFF - L.kdata, ?_, ?_, fun b hlow hhigh => hpart b ?_ ?_⟩
    · simp only [KernelMap.size, PGSIZE, physTop]
      omega
    · simp only
      omega
    · simp only at hlow
      omega
    · simp only at hhigh
      omega
  · refine ⟨0x1FFF, rfl, by decide, fun b hlow hhigh => .inr ?_⟩
    simp only at hlow hhigh
    rw [PDX_val]
    omega

/-- The loop of `setupkvm` stores entries of the kernel part only. -/
theorem Tables.setupLoop_dir : ∀ (ks : List KernelMap) {own : Frame → Owner} {m m' : Mem}
    {ok : Bool}, Tables L own m → own d = .dir → (∀ x ∈ ks, InKernelPart x) →
    Mem.setupLoop d ks m = some (m', ok) →
    ∀ k, ¬ KernelEntry k → m'.ram d k = m.ram d k := by
  intro ks
  induction ks with
  | nil =>
      intro own m m' ok _ _ _ hrun k _
      cases hrun
      rfl
  | cons x ks ih =>
      intro own m m' ok h hd hin hrun k hk
      unfold Mem.setupLoop at hrun
      obtain ⟨⟨m₁, ok₁⟩, hmap, hrest⟩ := Option.bind_eq_some_iff.mp hrun
      obtain ⟨n, hsize, htop, hpart⟩ := hin x (by simp)
      rw [Mem.mappages_pages hsize htop] at hmap
      obtain ⟨own₁, h₁, hd₁, hsame⟩ := h.mapLoop_dir x.perm n x.physStart hd hmap
      have hfirst : m₁.ram d k = m.ram d k := by
        refine hsame k fun b hlow hhigh => ?_
        rintro rfl
        exact hk (hpart b hlow hhigh)
      cases ok₁ with
      | false =>
          cases hrest
          exact hfirst
      | true =>
          rw [ih h₁ hd₁ (fun y hy => hin y (List.mem_cons_of_mem _ hy)) hrest k hk, hfirst]

/-- The places of the kernel part: the directory, and its tables. -/
def kernelPlaces : List Nat := 0 :: (List.range' 513 56 ++ List.range' 1017 8)

theorem mem_kernelPlaces (hk : KernelEntry k) : k.val + 1 ∈ kernelPlaces := by
  have hlt := k.isLt
  unfold KernelEntry at hk
  simp only [kernelPlaces, List.mem_cons, List.mem_append, List.mem_range'_1]
  omega

/-- The kernel part of an address space takes 65 pages at most. -/
theorem Tables.length_le (h : Tables L own m) (hd : own d = .dir) {l : List Frame}
    (hl : l.Nodup) (hin : ∀ f ∈ l, f = d ∨ ∃ k, own f = .table d k ∧ KernelEntry k) :
    l.length ≤ 65 := by
  have hmap : (l.map fun f => placeOf (own f)).Nodup := by
    apply hl.map_on
    intro f hf g hg heq
    rcases hin f hf with rfl | ⟨k, hk, -⟩ <;> rcases hin g hg with rfl | ⟨k', hk', -⟩
    · rfl
    · rw [hd, hk'] at heq
      simp [placeOf] at heq
    · rw [hd, hk] at heq
      simp [placeOf] at heq
    · rw [hk, hk'] at heq
      have hkk : k = k' := by
        apply Fin.ext
        simpa [placeOf] using heq
      rw [hkk] at hk
      rw [← ((h.table d k' f).mp hk).2.2, ← ((h.table d k' g).mp hk').2.2]
  have hsub : (l.map fun f => placeOf (own f)) ⊆ kernelPlaces := by
    intro x hx
    obtain ⟨f, hf, rfl⟩ := List.mem_map.mp hx
    rcases hin f hf with rfl | ⟨k, hk, hentry⟩
    · rw [hd]
      exact List.mem_cons_self
    · rw [hk]
      exact mem_kernelPlaces hentry
  have hle := (List.subperm_of_subset hmap hsub).length_le
  rwa [List.length_map] at hle

/-- Each page of the list is on the other one, or in the part of at most `n` pages. -/
theorem length_le_add {l l' : List Frame} {n : Nat} (hl : l.Nodup)
    (hrest : (l.filter (· ∉ l')).length ≤ n) : l.length ≤ l'.length + n := by
  have hsplit := List.length_eq_length_filter_add (l := l) (· ∈ l')
  have hsub : l.filter (· ∈ l') ⊆ l' := by
    intro x hx
    simpa using (List.mem_filter.mp hx).2
  have hle := (List.subperm_of_subset (hl.filter _) hsub).length_le
  have hnot : (l.filter fun x => !decide (x ∈ l')) = l.filter (· ∉ l') := by
    refine List.filter_congr fun x _ => ?_
    simp
  rw [hnot] at hsplit
  omega

/-- `setupkvm` takes 65 pages at most, and succeeds when there are more. -/
theorem Pages.setupkvm_small (hL : L.Ok) (h : Pages L own m) (hs : m.Steady)
    (hlen : 65 < m.freelist.length) :
    ∃ m' d own', m.setupkvm L = some (m', some d) ∧ Pages L own' m' ∧ m'.Steady ∧
      m.freelist.length ≤ m'.freelist.length + 65 := by
  cases hk : m.kalloc with
  | mk m₁ r =>
      cases r with
      | none =>
          have hempty := hs.kalloc_none hk
          rw [(Mem.kalloc_none hk).2] at hempty
          rw [hempty] at hlen
          exact absurd hlen (Nat.not_lt_zero _)
      | some d =>
          obtain ⟨m₂, ok, own₂, hrun, h₂, hbuilt, -, hnone⟩ := h.setupTables hL hk
          have hs₁ := hs.kalloc hk
          have hsteady : (m₁.fill d fun _ => 0).Steady := hs₁
          obtain ⟨hs₂, hempty⟩ := hsteady.called (Mem.called_setupLoop _ hrun)
          -- the directory was a page of zeros
          have hentries : ∀ k, own₂ d = .dir → present (m₂.ram d k) = true → KernelEntry k := by
            intro k hd hp
            by_contra hnot
            obtain ⟨hfree, h₁⟩ := h.kalloc hk
            have hhand : update own d .hand d = .hand := Function.update_self d _ own
            have h₁' := (h₁.fill (p := fun _ => 0) (f := d) (by rw [hhand]; rfl)).putDir hhand
              (m₁.fill_ram_self d _)
            rw [h₁'.toTables.setupLoop_dir _ (Function.update_self d _ _) (kmap_inKernelPart hL)
              hrun k hnot, m₁.fill_ram_self] at hp
            cases hp
          have hcount : m.freelist.length ≤ m₂.freelist.length + 65 := by
            refine length_le_add h.nodup (h₂.toTables.length_le hbuilt.dir (h.nodup.filter _) ?_)
            intro f hf
            obtain ⟨hmem, hnot⟩ := List.mem_filter.mp hf
            have hfree := (h.free f).mp hmem
            rcases hbuilt.new f hfree with hfree₂ | heq | ⟨k, hk⟩ | ⟨b, hb⟩
            · have hin := (h₂.free f).mpr hfree₂
              simp [hin] at hnot
            · exact .inl heq
            · obtain ⟨hd, hp, -⟩ := (h₂.table d k f).mp hk
              exact .inr ⟨k, hk, hentries k hd hp⟩
            · obtain ⟨-, hlow, hmapped, -⟩ := (h₂.page d b f).mp hb
              exact absurd hmapped (hnone b hlow)
          cases ok with
          | false =>
              rw [hempty rfl] at hcount
              exact absurd hlen (Nat.not_lt_of_le hcount)
          | true =>
              refine ⟨m₂, d, own₂, ?_, h₂, hs₂, hcount⟩
              unfold Mem.setupkvm
              rw [hk]
              simp only [hrun, Option.bind_some, if_true]

/-! ## The first process -/

theorem Mem.Steady.kalloc_cons (hs : m.Steady) (hlen : 0 < m.freelist.length) :
    ∃ m' f, m.kalloc = (m', some f) ∧ m'.Steady ∧
      m.freelist.length = m'.freelist.length + 1 := by
  cases hk : m.kalloc with
  | mk m' r =>
      cases r with
      | none =>
          have hempty := hs.kalloc_none hk
          rw [(Mem.kalloc_none hk).2] at hempty
          simp [hempty] at hlen
      | some f =>
          refine ⟨m', f, rfl, hs.kalloc hk, ?_⟩
          rw [(Mem.kalloc_some hk).2, List.length_cons]

/-- `inituvm` succeeds with two pages. -/
theorem Mem.Steady.inituvm (init : Page) (h : Pages L own m) (hd : own d = .dir)
    (hnone : ∀ b, b < 0x80000 → ¬ m.Mapped d b) (hs : m.Steady)
    (hlen : 1 < m.freelist.length) : ∃ m', m.inituvm d init = some m' := by
  obtain ⟨m₁, f, hk, hs₁, hlen₁⟩ := hs.kalloc_cons (by omega)
  unfold Mem.inituvm
  rw [hk]
  rcases h.allocPage (a := 0) hd (by decide) (hnone 0 (by decide)) hk with
    ⟨m₂, own₂, hmap, -⟩ | ⟨m₂, own₂, hmap, -⟩
  · simp only [hmap]
    exact ⟨_, rfl⟩
  · -- the table would be on the free list
    exfalso
    rw [Mem.mappages_page (by decide)] at hmap
    have hs₁' : (m₁.fill f fun _ => 0).Steady := hs₁
    obtain ⟨m₃, t, k, hw⟩ : ∃ m₃ t k,
        (m₁.fill f fun _ => 0).walkpgdirAlloc d 0 = (m₃, some (t, k)) := by
      unfold Mem.walkpgdirAlloc
      split
      · exact ⟨_, _, _, rfl⟩
      · obtain ⟨m₄, t, hk', -⟩ := hs₁'.kalloc_cons (show 0 < m₁.freelist.length by omega)
        rw [hk']
        exact ⟨_, _, _, rfl⟩
    unfold Mem.mapLoop at hmap
    rw [hw] at hmap
    simp only at hmap
    split at hmap
    · cases hmap
    · cases hmap

/-- `main` has made the first process, and no other: it is runnable, its memory is the page of
`initcode.S`, and its kernel stack begins with the trap frame that takes it there. -/
structure FirstProcess (E : Entries) (initcode : Page) (s : PageState) : Prop where
  stage : s.stage = .userinit
  alone : ∀ i, s.Used i ↔ i = s.initproc
  state : (s.kernel.procs s.initproc).state = .runnable
  sz : (s.kernel.rest s.initproc).sz = PGSIZE
  code : ∃ d, (s.kernel.rest s.initproc).pgdir = some d ∧ s.kernel.mem.UserPage d 0 ∧
    s.kernel.mem.ram (frameOf (s.kernel.mem.pte d 0)) = initcode
  stack : ∃ q p, (s.kernel.rest s.initproc).kstack = some q ∧
    s.kernel.mem.ram q = userTf (stackPage E p)

/-- `userinit` succeeds when there are pages for the stack, the address space and the code. -/
theorem PageInv.userinit_boots (hL : L.Ok) (h : PageInv L s own) (hstage : s.stage = .kinit2)
    (hs : s.kernel.mem.Steady) (hlen : 70 < s.kernel.mem.freelist.length) (initcode : Page) :
    ∃ k i, s.kernel.userinit L E initcode = some (k, i) ∧
      FirstProcess E initcode { s with kernel := k, stage := .userinit, initproc := i } := by
  have hunused := (h.boot (by rw [hstage]; nofun)).1
  unfold Kernel.userinit Kernel.allocproc
  cases hfind : s.kernel.procs.findUnused with
  | none =>
      have hused := Table.find_none hfind firstSlot
      exact absurd (fun heq => by rw [heq] at hused; cases hused) (hunused firstSlot)
  | some i =>
      obtain ⟨m₀, q, hk₀, hs₀, hlen₀⟩ := hs.kalloc_cons (by omega)
      rcases s.kernel.found_spec E i h.files with
        ⟨m, k', hk, -⟩ | ⟨m, f, k', hk, hfound, hmem, hbeside, hstack, -⟩
      · rw [hk] at hk₀
        cases hk₀
      obtain ⟨rfl, rfl⟩ : m = m₀ ∧ f = q := by
        rw [hk] at hk₀
        cases hk₀
        exact ⟨rfl, rfl⟩
      simp only [hfound, hstack, Option.bind_some]
      obtain ⟨hfree, h₁⟩ := h.owned.alloc (o := .stack i.val) hk (stackPage E (m.ram f))
        trivial nofun
      rw [← hmem] at h₁
      have hs₁ : k'.mem.Steady := by
        rw [hmem]
        exact hs₀
      have hlen₁ : k'.mem.freelist.length + 1 = s.kernel.mem.freelist.length := by
        rw [hmem]
        exact hlen₀.symm
      obtain ⟨m₂, d, -, hset, -, hs₂, hlen₂⟩ := h₁.pages.setupkvm_small hL hs₁ (by omega)
      obtain ⟨m₂', r, own₂, hset', h₂, hres⟩ := h₁.pages.setupkvm hL
      rw [hset] at hset'
      cases hset'
      rcases hres with ⟨hnone, -⟩ | ⟨e, heq, hbuilt, hsafe, habsent⟩
      · cases hnone
      cases heq
      obtain ⟨m₃, hinit⟩ := hs₂.inituvm initcode h₂ hbuilt.dir habsent (by omega)
      obtain ⟨own₃, h₃, ht, hspace, huser, hcode⟩ :=
        Mem.inituvm_space h₂ hbuilt.dir habsent hsafe hinit
      simp only [hset, hinit, Option.map_some]
      refine ⟨_, i, rfl, ?_⟩
      -- the stack is not touched by what follows
      have htouch := (hbuilt.touches h₁.pages).trans ht
      have hstack₁ : update own f (.stack i.val) f = .stack i.val := Function.update_self f _ own
      have hfd : f ≠ d := by
        rintro rfl
        have hwas := hbuilt.was
        rw [hstack₁] at hwas
        cases hwas
      obtain ⟨hown₃, hram₃⟩ := htouch.kept f (by rw [hstack₁]; nofun)
        (not_belongs_of_use (o := .stack i.val) (.inl trivial) hstack₁ hfd)
      rw [hstack₁] at hown₃
      have hloose : (own₃ f).loose = true := by
        rw [hown₃]
        rfl
      have hpte : ∀ p, (m₃.fill f p).pte d 0 = m₃.pte d 0 := fun p =>
        h₃.toTables.pte_of_ram (.inl hloose) (fun x hx => m₃.fill_ram_ne p hx) hspace.dir 0
      have hcodef : frameOf (m₃.pte d 0) ≠ f := by
        intro heq
        have hpage := (h₃.page d 0 _).mpr ⟨hspace.dir, by decide, huser.mapped, rfl⟩
        rw [heq, hown₃] at hpage
        cases hpage
      exact
        { stage := rfl
          alone := by
            intro j
            by_cases hj : j = i
            · subst hj
              simp [PageState.Used, Kernel.initProc, Kernel.setRest]
            · have hstate := (hbeside.state j hj).mpr (by
                by_contra hne
                exact hunused j hne)
              simp [PageState.Used, Kernel.initProc, Kernel.setRest, hj, hstate]
          state := by simp [Kernel.initProc, Kernel.setRest]
          sz := by simp [Kernel.initProc, Kernel.setRest]
          code := by
            refine ⟨d, by simp [Kernel.initProc, Kernel.setRest], ?_, ?_⟩
            · show userAccess ((m₃.fill f _).pte d 0) = true
              rw [hpte]
              exact huser
            · show (m₃.fill f _).ram (frameOf ((m₃.fill f _).pte d 0)) = initcode
              rw [hpte, m₃.fill_ram_ne _ hcodef]
              exact hcode
          stack := by
            refine ⟨f, m.ram f, by simp [Kernel.initProc, Kernel.setRest, hstack], ?_⟩
            show (m₃.fill f (userTf (m₃.ram f))).ram f = _
            rw [m₃.fill_ram_self, hram₃, hmem, m.fill_ram_self] }

/-! ## `main` -/

/-- What `freerange` does to the free list. -/
theorem Mem.freerange_length : ∀ (fs : List Frame) {m m' : Mem}, m.freerange L fs = some m' →
    m'.oom = m.oom ∧ m'.freelist.length = m.freelist.length + fs.length := by
  intro fs
  induction fs with
  | nil =>
      intro m m' hrun
      cases hrun
      exact ⟨rfl, rfl⟩
  | cons f fs ih =>
      intro m m' hrun
      unfold Mem.freerange at hrun
      obtain ⟨m₁, hfree, hrest⟩ := Option.bind_eq_some_iff.mp hrun
      unfold Mem.kfree at hfree
      split at hfree
      · cases hfree
      · cases hfree
        obtain ⟨hoom, hlen⟩ := ih hrest
        refine ⟨hoom, hlen.trans ?_⟩
        simp only [List.length_cons]
        omega

/-- `main`, on a machine with `n` other CPUs. -/
def mainActs (n : Nat) : List PageAct :=
  .kinit1 :: .kvmalloc :: (List.replicate n .startothers ++ [.kinit2, .userinit])

section Boot

variable (L E) (initcode : Page)

theorem PageInv.step_kinit1 (hL : L.Ok) (hkend : L.kend ≤ fourMegabytes) (h : PageInv L s own)
    (hstage : s.stage = .entry) :
    ∃ m own', (pageSystem L E initcode).step s .kinit1 =
        some { s.setMem m with stage := .kinit1 } ∧
      PageInv L { s.setMem m with stage := .kinit1 } own' ∧ m.oom = s.kernel.mem.oom ∧
      m.freelist.length = s.kernel.mem.freelist.length + (fourMegabytes - L.kend) := by
  obtain ⟨m, own', hrun, -⟩ := h.freerange L.kend fourMegabytes
    (g := .kinit1) (by rw [hstage]; nofun) (fun f => by simp [hstage, Stage.top])
    (by decide) (by rw [hstage]; exact Nat.zero_le _)
    (by simp [(h.early (.inl hstage)).2]) rfl
  obtain ⟨hoom, hlen⟩ := Mem.freerange_length _ hrun
  have hstep : s.step L E initcode .kinit1 = some { s.setMem m with stage := .kinit1 } := by
    unfold PageState.step
    rw [if_neg (Bool.eq_false_iff.mp h.calm)]
    simp only [hstage, if_true, hrun]
  obtain ⟨own₁, h₁⟩ := h.step hL hkend (a := .kinit1) trivial hstep
  refine ⟨m, own₁, hstep, h₁, hoom, hlen.trans ?_⟩
  rw [pageRange, List.length_range']

theorem PageInv.step_kvmalloc (hL : L.Ok) (hkend : L.kend ≤ fourMegabytes)
    (h : PageInv L s own) (hstage : s.stage = .kinit1) (hs : s.kernel.mem.Steady)
    (hlen : 65 < s.kernel.mem.freelist.length) :
    ∃ m d own', (pageSystem L E initcode).step s .kvmalloc =
        some { s.setMem m with stage := .kvmalloc, kpgdir := some d } ∧
      PageInv L { s.setMem m with stage := .kvmalloc, kpgdir := some d } own' ∧ m.Steady ∧
      s.kernel.mem.freelist.length ≤ m.freelist.length + 65 := by
  obtain ⟨m, d, -, hrun, -, hs', hlen'⟩ := h.owned.pages.setupkvm_small hL hs hlen
  have hstep : s.step L E initcode .kvmalloc =
      some { s.setMem m with stage := .kvmalloc, kpgdir := some d } := by
    unfold PageState.step
    rw [if_neg (Bool.eq_false_iff.mp h.calm)]
    simp only [hstage, if_true, hrun]
  obtain ⟨own', h'⟩ := h.step hL hkend (a := .kvmalloc) trivial hstep
  exact ⟨m, d, own', hstep, h', hs', hlen'⟩

/-- The loop of `startothers`. -/
theorem PageInv.run_startothers (hL : L.Ok) (hkend : L.kend ≤ fourMegabytes) (as : List PageAct) :
    ∀ (n : Nat) {s : PageState} {own : Frame → Owner}, PageInv L s own →
      s.stage = .kvmalloc → s.kernel.mem.Steady → n ≤ s.kernel.mem.freelist.length →
      ∃ t own', (pageSystem L E initcode).run s (List.replicate n .startothers ++ as) =
          (pageSystem L E initcode).run t as ∧
        PageInv L t own' ∧ t.stage = .kvmalloc ∧ t.kernel.mem.Steady ∧
        t.cpuStacks.length = s.cpuStacks.length + n := by
  intro n
  induction n with
  | zero => exact fun {s own} h hstage hs _ => ⟨s, own, rfl, h, hstage, hs, rfl⟩
  | succ n ih =>
      intro s own h hstage hs hlen
      obtain ⟨m, f, hk, hs', hlen'⟩ := hs.kalloc_cons (by omega)
      have hstep : s.step L E initcode .startothers =
          some { s.setMem m with cpuStacks := f :: s.cpuStacks } := by
        unfold PageState.step
        rw [if_neg (Bool.eq_false_iff.mp h.calm)]
        simp only [hstage, if_true, hk]
      obtain ⟨own₁, h₁⟩ := h.step hL hkend (a := .startothers) trivial hstep
      obtain ⟨t, own', hrun, h', hstage', hs'', hcount⟩ :=
        ih h₁ hstage hs' (show n ≤ m.freelist.length by omega)
      refine ⟨t, own', ?_, h', hstage', hs'', ?_⟩
      · rw [List.replicate_succ, List.cons_append, System.run_cons hstep]
        exact hrun
      · rw [hcount]
        simp only [List.length_cons]
        omega

theorem PageInv.step_kinit2 (hL : L.Ok) (hkend : L.kend ≤ fourMegabytes) (h : PageInv L s own)
    (hstage : s.stage = .kvmalloc) :
    ∃ m own', (pageSystem L E initcode).step s .kinit2 =
        some { s.setMem m with stage := .kinit2 } ∧
      PageInv L { s.setMem m with stage := .kinit2 } own' ∧ m.oom = s.kernel.mem.oom ∧
      m.freelist.length = s.kernel.mem.freelist.length + (physTop - fourMegabytes) := by
  obtain ⟨m, own', hrun, -⟩ := h.freerange fourMegabytes physTop
    (g := .kinit2) (by rw [hstage]; nofun)
    (fun f => by
      rw [hstage]
      exact ⟨fun hf => ⟨Nat.le_trans hkend hf, hf⟩, fun hf => hf.2⟩)
    (Nat.le_refl _) (by rw [hstage]; decide) h.low rfl
  obtain ⟨hoom, hlen⟩ := Mem.freerange_length _ hrun
  have hstep : s.step L E initcode .kinit2 = some { s.setMem m with stage := .kinit2 } := by
    unfold PageState.step
    rw [if_neg (Bool.eq_false_iff.mp h.calm)]
    simp only [hstage, if_true, hrun]
  obtain ⟨own₁, h₁⟩ := h.step hL hkend (a := .kinit2) trivial hstep
  refine ⟨m, own₁, hstep, h₁, hoom, hlen.trans ?_⟩
  rw [pageRange, List.length_range']

end Boot

/-- `main`, from any state before it. -/
theorem PageInv.main (L : Layout) (E : Entries) (initcode : Page) (n : Nat) (hL : L.Ok)
    (hkend : L.kend + 66 + n ≤ fourMegabytes) (h : PageInv L s own) (hstage : s.stage = .entry)
    (hs : s.kernel.mem.Steady) :
    ∃ t, (pageSystem L E initcode).run s (mainActs n) = some t ∧ FirstProcess E initcode t ∧
      t.cpuStacks.length = s.cpuStacks.length + n := by
  have hend : L.kend ≤ fourMegabytes := by
    have hkend : @LE.le Nat _ (L.kend + 66 + n) fourMegabytes := hkend
    show @LE.le Nat _ L.kend fourMegabytes
    omega
  have hend' : @LE.le Nat _ (L.kend + 66 + n) 0x400 := hkend
  have hcount : @Eq Nat (fourMegabytes - L.kend) (0x400 - L.kend) := rfl
  obtain ⟨m₁, own₁, hstep₁, h₁, hoom₁, hlen₁⟩ := h.step_kinit1 L E initcode hL hend hstage
  have hs₁ : m₁.Steady := fun k => by
    rw [hoom₁]
    exact hs k
  rw [hcount] at hlen₁
  obtain ⟨m₂, d, own₂, hstep₂, h₂, hs₂, hlen₂⟩ :=
    h₁.step_kvmalloc L E initcode hL hend rfl hs₁ (show 65 < m₁.freelist.length by omega)
  have hlen₂ : m₁.freelist.length ≤ m₂.freelist.length + 65 := hlen₂
  obtain ⟨s₃, own₃, hrun₃, h₃, hstage₃, hs₃, hcount₃⟩ :=
    PageInv.run_startothers L E initcode hL hend [.kinit2, .userinit] n h₂ rfl hs₂
      (show n ≤ m₂.freelist.length by omega)
  obtain ⟨m₄, own₄, hstep₄, h₄, hoom₄, hlen₄⟩ := h₃.step_kinit2 L E initcode hL hend hstage₃
  have hs₄ : m₄.Steady := fun k => by
    rw [hoom₄]
    exact hs₃ k
  have hmany : @Eq Nat (physTop - fourMegabytes) 0xDC00 := rfl
  rw [hmany] at hlen₄
  obtain ⟨k, i, hrun, hfirst⟩ := h₄.userinit_boots (E := E) hL rfl hs₄
    (show 70 < m₄.freelist.length by omega) initcode
  have hstep₅ : PageState.step L E initcode { s₃.setMem m₄ with stage := .kinit2 } .userinit =
      some { s₃.setMem m₄ with kernel := k, stage := .userinit, initproc := i } := by
    unfold PageState.step
    rw [if_neg (Bool.eq_false_iff.mp h₄.calm)]
    simp only [if_true, hrun]
  refine ⟨_, ?_, hfirst, hcount₃⟩
  unfold mainActs
  rw [System.run_cons hstep₁, System.run_cons hstep₂, hrun₃, System.run_cons hstep₄,
    System.run_cons hstep₅]
  rfl

/-- With 66 pages, and one for each other CPU, between the end of the kernel and the fourth
megabyte, `main` makes the first process. -/
theorem main_boots (L : Layout) (E : Entries) (initcode : Page) (s : PageState) (n : Nat)
    (hL : L.Ok) (hpos : 0 < L.kend) (hkend : L.kend + 66 + n ≤ fourMegabytes) (h0 : PowerOn s)
    (hs : s.kernel.mem.Steady) :
    ∃ t, (pageSystem L E initcode).run s (mainActs n) = some t ∧ FirstProcess E initcode t ∧
      t.cpuStacks.length = n := by
  obtain ⟨t, hrun, hfirst, hcount⟩ :=
    (PowerOn.pageInv hpos h0).main L E initcode n hL hkend h0.stage hs
  rw [h0.cpuStacks, List.length_nil, Nat.zero_add] at hcount
  exact ⟨t, hrun, hfirst, hcount⟩

/-- The pages of `end` and `data` in `kernel.sym`. -/
def kernelLayout : Layout where
  kend := 0x116
  kdata := 0x108

theorem kernelLayout_ok : kernelLayout.Ok := ⟨by decide, by decide⟩

/-- `trapret` and `forkret` in `kernel.sym`. -/
def kernelEntries : Entries where
  trapret := 0x80105A27
  forkret := 0x80103710

/-- A machine that has just been turned on. -/
def poweredOn : PageState where
  kernel :=
    { procs := fun _ => Proc.zero
      rest := fun _ =>
        { sz := 0, pgdir := none, kstack := none, ofile := fun _ => none, cwd := none, name := [] }
      nextpid := 1
      ticks := 0
      mem := { ram := fun _ _ => 0, freelist := [], oom := fun _ => false }
      fileRef := fun _ => 0
      inodeRef := fun _ => 0 }
  stage := .entry
  kpgdir := none
  initproc := firstSlot
  cpuStacks := []
  pipes := []
  panicked := false

theorem poweredOn_powerOn : PowerOn poweredOn where
  stage := rfl
  free := rfl
  unused _ hi := hi rfl
  files _ _ := rfl
  kpgdir := rfl
  cpuStacks := rfl
  pipes := rfl
  calm := rfl

/-- The kernel of the repository, with all eight CPUs that it allows. -/
theorem main_boots_kernel :
    ∃ t, (pageSystem kernelLayout kernelEntries fun _ => 0).run poweredOn (mainActs 7) = some t ∧
      FirstProcess kernelEntries (fun _ => 0) t ∧ t.cpuStacks.length = 7 :=
  main_boots kernelLayout kernelEntries (fun _ => 0) poweredOn 7 kernelLayout_ok (by decide)
    (by decide) poweredOn_powerOn fun _ => rfl

/-! ## One owner -/

theorem OneOwner.access (h : OneOwner L s own) (hi : s.Used i)
    (hd : (s.kernel.rest i).pgdir = some d) (ha : a < 0x100000)
    (huser : s.kernel.mem.UserPage d a) :
    a < 0x80000 ∧ own (frameOf (s.kernel.mem.pte d a)) = .page d a ∧
      Space own s.kernel.mem d (s.kernel.rest i).sz := by
  obtain ⟨-, e, -, he, hspace⟩ := h.slots i hi
  obtain rfl : d = e := Option.some.inj (hd.symm.trans he)
  have hlow : a < 0x80000 := by
    by_contra hge
    exact hspace.safe a (by omega) ha huser
  exact ⟨hlow, (h.owned.pages.page d a _).mpr ⟨hspace.dir, hlow, huser.mapped, rfl⟩, hspace⟩

end OsWork.Ports.PageTables

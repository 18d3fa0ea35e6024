import OsWork.Ports.CopyOut

/-!
# Making and destroying address spaces

`setupkvm` and `freevm` of `vm.c`.  The four parts of the kernel's address space that
`setupkvm` maps are those of `kmap`; `data` is the page that the linker has put it on.

## Main results

* `Pages.freevm` — `freevm` gives back exactly the pages of one address space, and does
  not panic.
* `Pages.setupkvm` — a new address space maps no user memory; when `setupkvm` fails, it
  has given back what it took.
-/

namespace OsWork.Ports.PageTables

open OsWork.Ports.ProcTable (Word)
open Function (update)

/-! ## The source -/

/-- `struct kmap`, in pages. -/
structure KernelMap where
  virt : Nat
  physStart : Frame
  physEnd : Frame
  perm : Word

/-- `k->phys_end - k->phys_start` -/
def KernelMap.size (k : KernelMap) : Nat :=
  (k.physEnd * PGSIZE + 0x100000000 - k.physStart * PGSIZE) % 0x100000000

def kmap (L : Layout) : List KernelMap :=
  [{ virt := 0x80000, physStart := 0, physEnd := 0x100, perm := PTE_W },
   { virt := 0x80100, physStart := 0x100, physEnd := L.kdata, perm := 0 },
   { virt := 0x80000 + L.kdata, physStart := L.kdata, physEnd := physTop, perm := PTE_W },
   { virt := 0xFE000, physStart := 0xFE000, physEnd := 0, perm := PTE_W }]

namespace Mem

variable (L : Layout) (m : Mem)

/-- The loop of `setupkvm`; `false` when `mappages` fails. -/
def setupLoop (d : Frame) : List KernelMap → Mem → Option (Mem × Bool)
  | [], m => some (m, true)
  | k :: ks, m =>
      (m.mappages d k.virt k.size k.physStart k.perm).bind fun r =>
        if r.2 then setupLoop d ks r.1 else some (r.1, false)

/-- `setupkvm`: the memory and the new directory. -/
def setupkvm : Option (Mem × Option Frame) :=
  match m.kalloc with
  | (m', none) => some (m', none)
  | (m', some d) =>
      (setupLoop d (kmap L) (m'.fill d fun _ => 0)).bind fun r =>
        if r.2 then some (r.1, some d) else (r.1.freevm L d).map fun m'' => (m'', none)

end Mem

/-- The kernel's data begins after its text, and below the end of memory. -/
structure Layout.Ok (L : Layout) : Prop where
  text : 0x100 < L.kdata
  data : L.kdata < physTop

/-! ## `freevm` -/

/-- The page belongs to the address space of the directory `d`. -/
def Belongs (own : Frame → Owner) (d f : Frame) : Prop :=
  f = d ∨ (∃ k, own f = .table d k) ∨ ∃ a, own f = .page d a

/-- The owners once the directory `d` is given up: it and its tables are in the hand. -/
def release (own : Frame → Owner) (d f : Frame) : Owner :=
  if f = d then .hand
  else
    match own f with
    | .table e k => if e = d then .hand else .table e k
    | o => o

variable {L : Layout} {own own' : Frame → Owner} {m m' : Mem} {d t f g : Frame} {k : Entry}
  {a b oldsz newsz : Nat} {w : Word}

theorem release_self : release own d d = .hand := if_pos rfl

theorem release_table (h : own f = .table d k) : release own d f = .hand := by
  unfold release
  split
  · rfl
  · rw [h]
    exact if_pos rfl

theorem release_other (hne : f ≠ d) (h : ∀ k, own f ≠ .table d k) : release own d f = own f := by
  unfold release
  rw [if_neg hne]
  split
  · rename_i e l ho
    rw [if_neg]
    · exact ho.symm
    · rintro rfl
      exact h l ho
  · rfl

/-- Who does not ask for the directory or its tables sees the same owners. -/
theorem release_iff (own : Frame → Owner) (d : Frame) (o : Owner) (hd : own d ≠ o)
    (ht : ∀ k, o ≠ .table d k) (hh : o ≠ .hand) (f : Frame) :
    release own d f = o ↔ own f = o := by
  by_cases hfd : f = d
  · rw [hfd, release_self]
    exact ⟨fun heq => absurd heq.symm hh, fun heq => absurd heq hd⟩
  · by_cases htab : ∃ k, own f = .table d k
    · obtain ⟨k, hk⟩ := htab
      rw [release_table hk, hk]
      exact ⟨fun heq => absurd heq.symm hh, fun heq => absurd heq.symm (ht k)⟩
    · rw [release_other hfd fun k hk => htab ⟨k, hk⟩]

/-- A directory that maps no user memory can be given up. -/
theorem Pages.release (h : Pages L own m) (hd : own d = .dir)
    (hnone : ∀ f b, own f ≠ .page d b) : Pages L (release own d) m := by
  have hdir : ∀ e, PageTables.release own d e = .dir ↔ own e = .dir ∧ e ≠ d := by
    intro e
    by_cases hed : e = d
    · rw [hed, release_self]
      exact ⟨nofun, fun hboth => absurd rfl hboth.2⟩
    · by_cases htab : ∃ k, own e = .table d k
      · obtain ⟨k, hk⟩ := htab
        rw [release_table hk, hk]
        exact ⟨nofun, nofun⟩
      · rw [release_other hed fun k hk => htab ⟨k, hk⟩]
        exact ⟨fun heq => ⟨heq, hed⟩, And.left⟩
  exact
    { nodup := h.nodup
      free := by
        intro x
        rw [release_iff own d .free (by rw [hd]; nofun) nofun nofun]
        exact h.free x
      table := by
        intro e k x
        rw [hdir]
        by_cases hed : e = d
        · rw [hed]
          constructor
          · intro hx
            exfalso
            by_cases hxd : x = d
            · rw [hxd, release_self] at hx
              cases hx
            · by_cases htab : ∃ l, own x = .table d l
              · obtain ⟨l, hl⟩ := htab
                rw [release_table hl] at hx
                cases hx
              · rw [release_other hxd fun l hl => htab ⟨l, hl⟩] at hx
                exact htab ⟨k, hx⟩
          · rintro ⟨⟨-, hne⟩, -⟩
            exact absurd rfl hne
        · rw [release_iff own d (.table e k) (by rw [hd]; nofun) ?_ nofun, h.table]
          · constructor
            · rintro ⟨he, hrest⟩
              exact ⟨⟨he, hed⟩, hrest⟩
            · rintro ⟨⟨he, -⟩, hrest⟩
              exact ⟨he, hrest⟩
          · intro l heq
            injection heq with hde _
            exact hed hde
      range := by
        intro x hx
        apply h.range
        intro hk
        apply hx
        rw [release_iff own d .kernel (by rw [hd]; nofun) nofun nofun]
        exact hk
      pos := h.pos
      page := by
        intro e b x
        rw [hdir, release_iff own d (.page e b) (by rw [hd]; nofun) nofun nofun]
        by_cases hed : e = d
        · rw [hed]
          exact ⟨fun hx => absurd hx (hnone x b), fun hboth => absurd rfl hboth.1.2⟩
        · rw [h.page]
          constructor
          · rintro ⟨he, hrest⟩
            exact ⟨⟨he, hed⟩, hrest⟩
          · rintro ⟨⟨he, -⟩, hrest⟩
            exact ⟨he, hrest⟩ }

/-- The loop of `freevm` over the directory, whose page is not in use as one any more. -/
theorem Pages.freeTables :
    ∀ (ks : List Entry) {own : Frame → Owner} {m : Mem}, Pages L own m → own d = .hand →
      ks.Nodup →
      (∀ k, k ∈ ks → present (m.ram d k) = true →
        own (frameOf (m.ram d k)) = .hand ∧ frameOf (m.ram d k) ≠ d) →
      (∀ k l, present (m.ram d k) = true → present (m.ram d l) = true →
        frameOf (m.ram d k) = frameOf (m.ram d l) → k = l) →
      ∃ m' own', Mem.freeTables L d ks m = some m' ∧ Pages L own' m' ∧
        ∀ f, (∃ k, k ∈ ks ∧ present (m.ram d k) = true ∧ frameOf (m.ram d k) = f) ∧
            own' f = .free ∨
          (¬ ∃ k, k ∈ ks ∧ present (m.ram d k) = true ∧ frameOf (m.ram d k) = f) ∧
            own' f = own f ∧ m'.ram f = m.ram f := by
  intro ks
  induction ks with
  | nil =>
      intro own m h _ _ _ _
      refine ⟨m, own, rfl, h, fun f => .inr ⟨?_, rfl, rfl⟩⟩
      rintro ⟨k, hk, -⟩
      cases hk
  | cons k ks ih =>
      intro own m h hd hnodup hhand hinj
      rw [List.nodup_cons] at hnodup
      unfold Mem.freeTables
      by_cases hp : present (m.ram d k) = true
      · obtain ⟨hk, hkd⟩ := hhand k List.mem_cons_self hp
        obtain ⟨m₁, hrun₁, h₁, hram₁⟩ := h.kfree hk
        have hdir : m₁.ram d = m.ram d := hram₁ d (Ne.symm hkd)
        have hd₁ : update own (frameOf (m.ram d k)) .free d = .hand := by
          rw [Function.update_of_ne (Ne.symm hkd)]
          exact hd
        obtain ⟨m', own', hrun, h', hres⟩ := ih h₁ hd₁ hnodup.2
          (by
            intro l hl hpl
            rw [hdir] at hpl ⊢
            have hne : frameOf (m.ram d l) ≠ frameOf (m.ram d k) := by
              intro heq
              rw [hinj l k hpl hp heq] at hl
              exact hnodup.1 hl
            rw [Function.update_of_ne hne]
            exact hhand l (List.mem_cons_of_mem k hl) hpl)
          (by
            rw [hdir]
            exact hinj)
        rw [hdir] at hres
        rw [if_pos hp, hrun₁]
        refine ⟨m', own', hrun, h', fun f => ?_⟩
        rcases hres f with ⟨⟨l, hl, hpl, hf⟩, hfree⟩ | ⟨hnot, hown, hram⟩
        · exact .inl ⟨⟨l, List.mem_cons_of_mem k hl, hpl, hf⟩, hfree⟩
        · by_cases hf : f = frameOf (m.ram d k)
          · rw [hf, Function.update_self, ← hf] at hown
            exact .inl ⟨⟨k, List.mem_cons_self, hp, hf.symm⟩, hown⟩
          · rw [Function.update_of_ne hf] at hown
            rw [hram₁ f hf] at hram
            refine .inr ⟨?_, hown, hram⟩
            rintro ⟨l, hl, hpl, hfl⟩
            rcases List.mem_cons.mp hl with rfl | hl
            · exact hf hfl.symm
            · exact hnot ⟨l, hl, hpl, hfl⟩
      · rw [if_neg hp]
        obtain ⟨m', own', hrun, h', hres⟩ := ih h hd hnodup.2
          (fun l hl => hhand l (List.mem_cons_of_mem k hl)) hinj
        refine ⟨m', own', hrun, h', fun f => ?_⟩
        rcases hres f with ⟨⟨l, hl, hrest⟩, hfree⟩ | ⟨hnot, hrest⟩
        · exact .inl ⟨⟨l, List.mem_cons_of_mem k hl, hrest⟩, hfree⟩
        · refine .inr ⟨?_, hrest⟩
          rintro ⟨l, hl, hpl, hfl⟩
          rcases List.mem_cons.mp hl with rfl | hl
          · exact hp hpl
          · exact hnot ⟨l, hl, hpl, hfl⟩

/-- `freevm` gives back the pages of one address space. -/
theorem Pages.freevm (h : Pages L own m) (hd : own d = .dir) :
    ∃ m' own', m.freevm L d = some m' ∧ Pages L own' m' ∧
      (∀ f, Belongs own d f → own' f = .free) ∧
      ∀ f, ¬ Belongs own d f → own' f = own f ∧ m'.ram f = m.ram f := by
  obtain ⟨m₁, own₁, hrun₁, h₁, hfrees⟩ :=
    h.deallocuvm hd (Nat.le_refl KERNBASE) (Nat.zero_lt_succ 0x7FFFFFFF)
  have hnone : ∀ f b, own₁ f ≠ .page d b := by
    intro f b hf
    have hpage := (h₁.page d b f).mp hf
    exact hfrees.unmapped b (Nat.zero_le b) hpage.2.1 hpage.2.2.1
  have hd₁ : own₁ d = .dir := by
    rw [hfrees.kept d (by rw [hd]; nofun), hd]
  have hkept : ∀ f, (∀ b, own f ≠ .page d b) → own₁ f = own f := by
    intro f hf
    apply hfrees.kept
    intro b hb
    exact absurd hb (hf b)
  have h₂ := h₁.release hd₁ hnone
  obtain ⟨ks, hks⟩ : ∃ ks : List Entry, ks = List.finRange 1024 := ⟨_, rfl⟩
  have hnodup : ks.Nodup := by
    rw [hks]
    exact List.nodup_finRange 1024
  have hall : ∀ k, k ∈ ks := by
    intro k
    rw [hks]
    exact List.mem_finRange k
  obtain ⟨m₃, own₃, hrun₃, h₃, hres⟩ :=
    Pages.freeTables ks h₂ release_self hnodup
      (by
        intro k _ hp
        have htable := h₁.toTables.own_table hd₁ hp
        refine ⟨release_table htable, ?_⟩
        intro heq
        rw [heq, hd₁] at htable
        cases htable)
      (by
        intro k l hpk hpl heq
        have htable := h₁.toTables.own_table hd₁ hpk
        rw [heq, h₁.toTables.own_table hd₁ hpl] at htable
        injection htable with _ hkl
        exact hkl.symm)
  have hlisted : ∀ f, (∃ k, k ∈ ks ∧ present (m₁.ram d k) = true ∧
      frameOf (m₁.ram d k) = f) ↔ ∃ k, own₁ f = .table d k := by
    intro f
    constructor
    · rintro ⟨k, -, hp, hf⟩
      exact ⟨k, (h₁.table d k f).mpr ⟨hd₁, hp, hf⟩⟩
    · rintro ⟨k, hk⟩
      obtain ⟨-, hp, hf⟩ := (h₁.table d k f).mp hk
      exact ⟨k, hall k, hp, hf⟩
  have hd₃ : own₃ d = .hand := by
    rcases hres d with ⟨htab, -⟩ | ⟨-, hown, -⟩
    · obtain ⟨k, hk⟩ := (hlisted d).mp htab
      rw [hd₁] at hk
      cases hk
    · rw [hown, release_self]
  obtain ⟨m', hrun', h', hram'⟩ := h₃.kfree hd₃
  refine ⟨m', update own₃ d .free, ?_, h', ?_, ?_⟩
  · unfold Mem.freevm
    rw [hrun₁, ← hks]
    simp only [hrun₃]
    exact hrun'
  · intro f hf
    by_cases hfd : f = d
    · rw [hfd, Function.update_self]
    · rw [Function.update_of_ne hfd]
      rcases hf with heq | ⟨k, hk⟩ | ⟨b, hb⟩
      · exact absurd heq hfd
      · have hk₁ : own₁ f = .table d k := by
          rw [hkept f (by rw [hk]; nofun), hk]
        rcases hres f with ⟨-, hfree⟩ | ⟨hnot, -⟩
        · exact hfree
        · exact absurd ((hlisted f).mpr ⟨k, hk₁⟩) hnot
      · have hpage := (h.page d b f).mp hb
        have hfree₁ := hfrees.freed f b hb (Nat.zero_le b) hpage.2.1
        rcases hres f with ⟨-, hfree⟩ | ⟨-, hown, -⟩
        · exact hfree
        · rw [hown, release_other hfd (by rw [hfree₁]; nofun), hfree₁]
  · intro f hf
    have hfd : f ≠ d := fun heq => hf (.inl heq)
    have hnottable : ∀ k, own f ≠ .table d k := fun k hk => hf (.inr (.inl ⟨k, hk⟩))
    have hnotpage : ∀ b, own f ≠ .page d b := fun b hb => hf (.inr (.inr ⟨b, hb⟩))
    have hsame := hkept f hnotpage
    have hram₁ : m₁.ram f = m.ram f :=
      hfrees.ram f (fun b hb => absurd hb (hnotpage b)) hnottable
    rw [Function.update_of_ne hfd, hram' f hfd]
    rcases hres f with ⟨htab, -⟩ | ⟨-, hown, hram⟩
    · obtain ⟨k, hk⟩ := (hlisted f).mp htab
      rw [hsame] at hk
      exact absurd hk (hnottable k)
    · rw [hown, hram, release_other hfd (by rw [hsame]; exact hnottable), hsame, hram₁]
      exact ⟨rfl, rfl⟩

/-! ## `setupkvm` -/

theorem present_zero : present 0 = false := by decide

theorem user_entry_false {f : Nat} {perm : Word} (h : user perm = false) :
    user (entry f perm) = false := by
  have hbit : (f * 4096).testBit 2 = false := by
    rw [show (4096 : Nat) = 2 ^ 12 from rfl, Nat.testBit_mul_two_pow]
    simp
  unfold user at h
  unfold user entry PTE_P PGSIZE
  rw [BitVec.getLsbD_or, BitVec.getLsbD_or, h, BitVec.getLsbD_ofNat, hbit]
  simp

/-- The user can access no page of the kernel. -/
def Mem.KernelSafe (m : Mem) (d : Frame) : Prop :=
  ∀ b, 0x80000 ≤ b → b < 0x100000 → ¬ m.UserPage d b

theorem Mem.mappages_pages {n pa : Nat} {size : Nat} {perm : Word} (hsize : size = (n + 1) * 4096)
    (ha : a + n < 0x100000) : m.mappages d a size pa perm = m.mapLoop d perm n a pa := by
  unfold Mem.mappages
  have hlast : (a * PGSIZE + size + 0xFFFFFFFF) % 0x100000000 / PGSIZE = a + n := by
    unfold PGSIZE
    omega
  have hcount : (a + n + 0x100000 - a) % 0x100000 = n := by omega
  simp only [hlast, hcount]

/-- The entries are of the kernel's part, in ascending order from the page `lo` on, and not
for the user. -/
def Rising : Nat → List KernelMap → Prop
  | _, [] => True
  | lo, k :: ks =>
      lo ≤ k.virt ∧ user k.perm = false ∧
        ∃ n, k.size = (n + 1) * 4096 ∧ k.virt + n < 0x100000 ∧ Rising (k.virt + n + 1) ks

theorem kmap_rising (hL : L.Ok) : Rising 0x80000 (kmap L) := by
  have htext : @LT.lt Nat _ 0x100 L.kdata := hL.text
  have hdata : @LT.lt Nat _ L.kdata 0xE000 := hL.data
  have hwrite : user PTE_W = false := by decide
  have hread : user 0 = false := by decide
  refine ⟨Nat.le_refl _, hwrite, 0xFF, rfl, by decide, Nat.le_refl _, hread, L.kdata - 0x101, ?_,
    ?_, ?_, hwrite, 0xDFFF - L.kdata, ?_, ?_, ?_, hwrite, 0x1FFF, rfl, by decide, trivial⟩
  · simp only [KernelMap.size, PGSIZE]
    omega
  · simp only
    omega
  · simp only
    omega
  · simp only [KernelMap.size, PGSIZE, physTop]
    omega
  · simp only
    omega
  · simp only
    omega

/-- The loop of `setupkvm` maps pages of the kernel only. -/
theorem Pages.setupLoop :
    ∀ (ks : List KernelMap) (lo : Nat) {own : Frame → Owner} {m : Mem}, Pages L own m →
      own d = .dir → 0x80000 ≤ lo → Rising lo ks → (∀ b, lo ≤ b → b < 0x100000 → ¬ m.Mapped d b) →
      m.KernelSafe d →
      ∃ m' ok own', Mem.setupLoop d ks m = some (m', ok) ∧ Pages L own' m' ∧
        Grows d own m own' m' ∧ m'.KernelSafe d ∧
        ∀ b, b < 0x80000 → m'.pte d b = m.pte d b := by
  intro ks
  induction ks with
  | nil =>
      intro lo own m h _ _ _ _ hsafe
      exact ⟨m, true, own, rfl, h, .refl, hsafe, fun _ _ => rfl⟩
  | cons k ks ih =>
      intro lo own m h hd hlo hrising habsent hsafe
      obtain ⟨hvirt, hperm, n, hsize, htop, hrest⟩ := hrising
      obtain ⟨m₁, ok₁, own₁, j, hrun₁, hj, hok, hmaps⟩ :=
        h.toTables.mapLoop k.perm (v := fun b => entry (k.physStart + (b - k.virt)) k.perm) n
          k.physStart hd htop
          (fun b hlow hb => habsent b (by omega) (by omega)) (fun _ _ _ => rfl)
      have h₁ := h.maps hd (.inl (by omega)) hmaps
      have hd₁ : own₁ d = .dir := by
        rw [hmaps.grows.of_ne_free (by rw [hd]; nofun)]
        exact hd
      have hsafe₁ : m₁.KernelSafe d := by
        intro b hlow hb
        unfold Mem.UserPage
        rw [hmaps.pte b hb]
        split
        · unfold userAccess
          rw [user_entry_false hperm, Bool.and_false]
          nofun
        · exact hsafe b hlow hb
      have hpte₁ : ∀ b, b < 0x80000 → m₁.pte d b = m.pte d b := by
        intro b hb
        rw [hmaps.pte b (by omega), if_neg (by omega)]
      unfold Mem.setupLoop
      rw [Mem.mappages_pages hsize htop, hrun₁, Option.bind_some]
      cases ok₁ with
      | false => exact ⟨m₁, false, own₁, rfl, h₁, hmaps.grows, hsafe₁, hpte₁⟩
      | true =>
          obtain ⟨m', ok, own', hrun, h', hg, hsafe', hpte⟩ :=
            ih (k.virt + n + 1) h₁ hd₁ (by omega) hrest
              (by
                intro b hlow hb
                unfold Mem.Mapped
                rw [hmaps.pte b hb, if_neg (by omega)]
                exact habsent b (by omega) hb) hsafe₁
          refine ⟨m', ok, own', hrun, h', hmaps.grows.trans hg, hsafe', ?_⟩
          intro b hb
          rw [hpte b hb, hpte₁ b hb]

/-- A page of zeros in the hand becomes a directory. -/
theorem Pages.putDir (h : Pages L own m) (hd : own d = .hand) (hzero : m.ram d = fun _ => 0) :
    Pages L (update own d .dir) m := by
  have hdir : ∀ e, update own d .dir e = .dir ↔ own e = .dir ∨ e = d := by
    intro e
    by_cases he : e = d
    · rw [he, Function.update_self]
      exact ⟨fun _ => .inr rfl, fun _ => rfl⟩
    · rw [Function.update_of_ne he]
      exact ⟨.inl, fun hor => hor.resolve_right he⟩
  have habsent : ∀ k, present (m.ram d k) = false := by
    intro k
    rw [hzero]
    exact present_zero
  exact
    { nodup := h.nodup
      free := by
        intro x
        rw [update_owner own d .dir .free (by rw [hd]; nofun) nofun]
        exact h.free x
      table := by
        intro e k x
        rw [update_owner own d .dir (.table e k) (by rw [hd]; nofun) nofun, h.table, hdir]
        constructor
        · rintro ⟨he, hrest⟩
          exact ⟨.inl he, hrest⟩
        · rintro ⟨he | rfl, hp, hrest⟩
          · exact ⟨he, hp, hrest⟩
          · rw [habsent] at hp
            cases hp
      range := by
        intro x hx
        by_cases hxd : x = d
        · rw [hxd]
          apply h.range
          rw [hd]
          nofun
        · rw [Function.update_of_ne hxd] at hx
          exact h.range x hx
      pos := h.pos
      page := by
        intro e b x
        rw [update_owner own d .dir (.page e b) (by rw [hd]; nofun) nofun, h.page, hdir]
        constructor
        · rintro ⟨he, hrest⟩
          exact ⟨.inl he, hrest⟩
        · rintro ⟨he | rfl, hb, hp, hrest⟩
          · exact ⟨he, hb, hp, hrest⟩
          · unfold Mem.Mapped at hp
            rw [Mem.pte_of_absent (habsent _)] at hp
            cases hp }

/-- The address space of `d` is made of pages that were free, and nothing else has changed. -/
structure Built (d : Frame) (own₀ : Frame → Owner) (m₀ : Mem) (own : Frame → Owner) (m : Mem) :
    Prop where
  was : own₀ d = .free
  dir : own d = .dir
  kept : ∀ f, own₀ f ≠ .free → own f = own₀ f ∧ m.ram f = m₀.ram f
  new : ∀ f, own₀ f = .free → own f = .free ∨ Belongs own d f

/-- All pages have the owners that they had, and those in use have the contents. -/
structure Restored (own₀ : Frame → Owner) (m₀ : Mem) (own : Frame → Owner) (m : Mem) : Prop where
  owner : ∀ f, own f = own₀ f
  ram : ∀ f, own₀ f ≠ .free → m.ram f = m₀.ram f

/-- `freevm` of an address space that has been made leaves no trace of it. -/
theorem Built.freevm {own₀ : Frame → Owner} {m₀ : Mem} (h₀ : Pages L own₀ m₀)
    (h : Pages L own m) (hb : Built d own₀ m₀ own m) :
    ∃ m' own', m.freevm L d = some m' ∧ Pages L own' m' ∧ Restored own₀ m₀ own' m' := by
  obtain ⟨m', own', hrun, h', hfree, hkept⟩ := h.freevm hb.dir
  have hnot : ∀ f, own₀ f ≠ .free → ¬ Belongs own d f := by
    rintro f hf (heq | ⟨k, hk⟩ | ⟨b, hpage⟩)
    · rw [heq] at hf
      exact hf hb.was
    · rw [(hb.kept f hf).1, h₀.table, hb.was] at hk
      exact nomatch hk.1
    · rw [(hb.kept f hf).1, h₀.page, hb.was] at hpage
      exact nomatch hpage.1
  refine ⟨m', own', hrun, h', ⟨?_, ?_⟩⟩
  · intro f
    by_cases hf : own₀ f = .free
    · rw [hf]
      by_cases hbelongs : Belongs own d f
      · exact hfree f hbelongs
      · rw [(hkept f hbelongs).1]
        exact (hb.new f hf).resolve_right hbelongs
    · rw [(hkept f (hnot f hf)).1, (hb.kept f hf).1]
  · intro f hf
    rw [(hkept f (hnot f hf)).2, (hb.kept f hf).2]

/-- The new directory of `setupkvm`, whether or not its tables are complete. -/
theorem Pages.setupTables {m₁ : Mem} (hL : L.Ok) (h : Pages L own m)
    (hk : m.kalloc = (m₁, some d)) :
    ∃ m' ok own', Mem.setupLoop d (kmap L) (m₁.fill d fun _ => 0) = some (m', ok) ∧
      Pages L own' m' ∧ Built d own m own' m' ∧ m'.KernelSafe d ∧
        ∀ b, b < 0x80000 → ¬ m'.Mapped d b := by
  obtain ⟨hfree, h₁⟩ := h.kalloc hk
  have hhand : update own d .hand d = .hand := Function.update_self d _ own
  have h₂ := h₁.fill (p := fun _ => 0) (f := d) (by rw [hhand]; rfl)
  have h₃ := h₂.putDir hhand (m₁.fill_ram_self d _)
  rw [Function.update_idem] at h₃
  have hd : update own d .dir d = .dir := Function.update_self d _ own
  have hzero : ∀ b, (m₁.fill d fun _ => 0).pte d b = 0 := by
    intro b
    apply Mem.pte_of_absent
    rw [m₁.fill_ram_self]
    exact present_zero
  have hnone : ∀ b, ¬ (m₁.fill d fun _ => 0).Mapped d b := by
    intro b
    unfold Mem.Mapped
    rw [hzero]
    nofun
  have hsafe : (m₁.fill d fun _ => 0).KernelSafe d := by
    intro b _ _ hu
    exact hnone b hu.mapped
  obtain ⟨m₄, ok, own₄, hrun, h₄, hg, hsafe₄, hpte⟩ :=
    Pages.setupLoop (kmap L) 0x80000 h₃ hd (Nat.le_refl _) (kmap_rising hL)
      (fun b _ _ => hnone b) hsafe
  have hbuilt : Built d own m own₄ m₄ :=
    { was := hfree
      dir := by
        rw [hg.of_ne_free (by rw [hd]; nofun), hd]
      kept := by
        intro f hf
        have hfd : f ≠ d := by
          rintro rfl
          exact hf hfree
        have hown : update own d .dir f = own f := Function.update_of_ne hfd _ _
        have hnottable : ∀ k, own f ≠ .table d k := by
          intro k hk
          rw [h.table, hfree] at hk
          exact nomatch hk.1
        constructor
        · rw [hg.of_ne_free (by rw [hown]; exact hf), hown]
        · rw [hg.ram f (by rw [hown]; exact hf) hfd (by rw [hown]; exact hnottable),
            m₁.fill_ram_ne _ hfd, (Mem.kalloc_some hk).1]
      new := by
        intro f hf
        by_cases hfd : f = d
        · exact .inr (.inl hfd)
        · rcases hg.owner f with hsame | ⟨-, k, hk⟩
          · left
            rw [hsame, Function.update_of_ne hfd, hf]
          · exact .inr (.inr (.inl ⟨k, hk⟩)) }
  refine ⟨m₄, ok, own₄, hrun, h₄, hbuilt, hsafe₄, ?_⟩
  intro b hb
  unfold Mem.Mapped
  rw [hpte b hb]
  exact hnone b

/-- `setupkvm` makes an address space without user memory, or fails and leaves no trace. -/
theorem Pages.setupkvm (hL : L.Ok) (h : Pages L own m) :
    ∃ m' r own', m.setupkvm L = some (m', r) ∧ Pages L own' m' ∧
      (r = none ∧ Restored own m own' m' ∨
        ∃ d, r = some d ∧ Built d own m own' m' ∧ m'.KernelSafe d ∧
          ∀ b, b < 0x80000 → ¬ m'.Mapped d b) := by
  unfold Mem.setupkvm
  cases hk : m.kalloc with
  | mk m₁ r =>
      cases r with
      | none =>
          refine ⟨m₁, none, own, rfl, h.kalloc_none hk, .inl ⟨rfl, fun _ => rfl, fun f _ => ?_⟩⟩
          rw [(Mem.kalloc_none hk).1]
      | some d =>
          obtain ⟨m₄, ok, own₄, hrun, h₄, hbuilt, hsafe₄, hnone₄⟩ := h.setupTables hL hk
          simp only [hrun, Option.bind_some]
          cases ok with
          | true =>
              exact ⟨m₄, some d, own₄, rfl, h₄, .inr ⟨d, rfl, hbuilt, hsafe₄, hnone₄⟩⟩
          | false =>
              obtain ⟨m', own', hrun', h', hrestored⟩ := hbuilt.freevm h h₄
              refine ⟨m', none, own', ?_, h', .inl ⟨rfl, hrestored⟩⟩
              simp only [hrun', Bool.false_eq_true, if_false, Option.map_some]

end OsWork.Ports.PageTables

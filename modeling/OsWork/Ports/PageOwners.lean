import OsWork.Ports.PageTables

/-!
# Who owns a physical page

Every page of the range that `kalloc` manages has one owner: it is free, a page
directory, a table of a directory, a page of user memory, in the hand of a function
that has just got it, or something that is not memory of a process.  `Tables` says
that a memory agrees with such an assignment of owners as far as directories and
tables go, `Pages` that it does for user memory too.  That the owner of a page is
*a function of the page* is all there is to say about sharing: a store to one table
is seen through one entry of one directory.

## Main results

* `Tables.pte_store` — a store to a table changes one page of one address space.
* `Tables.walkpgdirAlloc` — `walkpgdir` with `alloc` maps no page and takes at most
  one page from the free list.
* `Tables.mapLoop` — `mappages` maps its range, or a first part of it.
-/

namespace OsWork.Ports.PageTables

open OsWork.Ports.ProcTable (Word)
open Function (update)

/-- What a page of physical memory is used for. -/
inductive Owner
  /-- on the free list -/
  | free
  /-- a page directory -/
  | dir
  /-- the table of the entry `k` of the directory `d` -/
  | table (d : Frame) (k : Entry)
  /-- the virtual page `a` in the user part of the directory `d` -/
  | page (d : Frame) (a : Nat)
  /-- got from `kalloc` and not in its place yet -/
  | hand
  /-- the kernel stack of a slot -/
  | stack (p : Nat)
  /-- the buffer of a pipe -/
  | pipe
  /-- outside of the range that `kalloc` manages -/
  | kernel

/-! ## Words

There are `0x100000` virtual pages; those below `0x80000` are user memory. -/

theorem present_entry (f : Frame) (perm : Word) : present (entry f perm) = true := by
  unfold present entry PTE_P
  rw [BitVec.getLsbD_or]
  simp

theorem user_entry (f : Frame) (perm : Word) (h : user perm = true) :
    user (entry f perm) = true := by
  unfold user at h
  unfold user entry
  rw [BitVec.getLsbD_or, BitVec.getLsbD_or, h]
  simp

theorem frameOf_entry {f : Nat} {perm : Word} (hf : f < 0x100000) (hperm : perm.toNat < 4096) :
    frameOf (entry f perm) = f := by
  unfold frameOf entry PTE_P PGSIZE
  have hlt : f * 4096 < 2 ^ 32 := by omega
  rw [BitVec.toNat_or, BitVec.toNat_or, BitVec.toNat_ofNat, Nat.mod_eq_of_lt hlt]
  rw [show (4096 : Nat) = 2 ^ 12 from rfl, Nat.or_div_two_pow, Nat.or_div_two_pow]
  rw [show (2 : Nat) ^ 12 = 4096 from rfl, Nat.mul_div_cancel _ (by decide),
    Nat.div_eq_of_lt hperm]
  simp

theorem frameOf_lt (w : Word) : frameOf w < 0x100000 := by
  have hlt := w.isLt
  show w.toNat / 4096 < 0x100000
  omega

/-- A virtual page is known by its two indices. -/
theorem index_inj {a b : Nat} (ha : a < 0x100000) (hb : b < 0x100000) (hd : PDX a = PDX b)
    (ht : PTX a = PTX b) : a = b := by
  have hd := congrArg Fin.val hd
  have ht := congrArg Fin.val ht
  simp only [PDX, PTX, Fin.ofNat] at hd ht
  omega

namespace Mem

variable (m : Mem)

/-- The entry of the virtual page `a`; a page whose table is absent has none. -/
def pte (d : Frame) (a : Nat) : Word :=
  if present (m.ram d (PDX a)) then m.ram (frameOf (m.ram d (PDX a))) (PTX a) else 0

/-- The page is mapped. -/
def Mapped (d : Frame) (a : Nat) : Prop := present (m.pte d a) = true

@[simp] theorem store_freelist (f : Frame) (k : Entry) (w : Word) :
    (m.store f k w).freelist = m.freelist := rfl

@[simp] theorem fill_freelist (f : Frame) (p : Page) : (m.fill f p).freelist = m.freelist := rfl

theorem fill_ram_self (f : Frame) (p : Page) : (m.fill f p).ram f = p := by
  show update m.ram f p f = p
  rw [Function.update_self]

theorem fill_ram_ne {f g : Frame} (p : Page) (h : g ≠ f) : (m.fill f p).ram g = m.ram g := by
  show update m.ram f p g = m.ram g
  rw [Function.update_of_ne h]

theorem store_ram_ne {f g : Frame} (k : Entry) (w : Word) (h : g ≠ f) :
    (m.store f k w).ram g = m.ram g :=
  m.fill_ram_ne _ h

theorem store_ram_self (f : Frame) (k : Entry) (w : Word) :
    (m.store f k w).ram f = update (m.ram f) k w :=
  m.fill_ram_self f _

end Mem

/-! ## Owners -/

/-- The directories and their tables are where the owners say. -/
structure Tables (L : Layout) (own : Frame → Owner) (m : Mem) : Prop where
  nodup : m.freelist.Nodup
  free : ∀ f, f ∈ m.freelist ↔ own f = .free
  table : ∀ d k f, own f = .table d k ↔
    own d = .dir ∧ present (m.ram d k) = true ∧ frameOf (m.ram d k) = f
  range : ∀ f, own f ≠ .kernel → L.kend ≤ f ∧ f < physTop
  pos : 0 < L.kend

/-- The pages of user memory are where the owners say, too. -/
structure Pages (L : Layout) (own : Frame → Owner) (m : Mem) : Prop extends Tables L own m where
  page : ∀ d a f, own f = .page d a ↔
    own d = .dir ∧ a < 0x80000 ∧ m.Mapped d a ∧ frameOf (m.pte d a) = f

variable {L : Layout} {own own' : Frame → Owner} {m m' : Mem} {d t f g : Frame} {k : Entry}
  {a b : Nat} {w : Word}

theorem Tables.lt_top (h : Tables L own m) (hf : own f ≠ .kernel) : f < 0x100000 :=
  Nat.lt_trans (h.range f hf).2 (by decide)

theorem Tables.own_table (h : Tables L own m) (hd : own d = .dir)
    (hp : present (m.ram d k) = true) : own (frameOf (m.ram d k)) = .table d k :=
  (h.table d k _).mpr ⟨hd, hp, rfl⟩

theorem Mem.pte_of_table (hp : present (m.ram d (PDX a)) = true) :
    m.pte d a = m.ram (frameOf (m.ram d (PDX a))) (PTX a) :=
  if_pos hp

theorem Mem.pte_of_absent (hp : present (m.ram d (PDX a)) = false) : m.pte d a = 0 := by
  unfold Mem.pte
  rw [hp]
  exact if_neg Bool.false_ne_true

theorem Mem.pte_congr (hd : m'.ram d = m.ram d)
    (ht : present (m.ram d (PDX a)) = true →
      m'.ram (frameOf (m.ram d (PDX a))) = m.ram (frameOf (m.ram d (PDX a)))) :
    m'.pte d a = m.pte d a := by
  unfold Mem.pte
  rw [hd]
  by_cases hp : present (m.ram d (PDX a)) = true
  · rw [if_pos hp, if_pos hp, ht hp]
  · rw [if_neg hp, if_neg hp]

/-- What an address space maps depends on its directory and its tables only. -/
theorem Tables.pte_congr (h : Tables L own m) (hd : own d = .dir) (hram : m'.ram d = m.ram d)
    (htable : ∀ f k, own f = .table d k → m'.ram f = m.ram f) (a : Nat) :
    m'.pte d a = m.pte d a :=
  Mem.pte_congr hram fun hp => htable _ _ (h.own_table hd hp)

/-- A store to a table changes one page of one address space. -/
theorem Tables.pte_store (h : Tables L own m) (ht : own t = .table d (PDX a)) {e : Frame}
    (he : own e = .dir) (ha : a < 0x100000) (hb : b < 0x100000) :
    (m.store t (PTX a) w).pte e b = if e = d ∧ b = a then w else m.pte e b := by
  obtain ⟨hd, hp, hframe⟩ := (h.table d (PDX a) t).mp ht
  have hne : e ≠ t := by
    intro heq
    rw [heq, ht] at he
    cases he
  have hdir : (m.store t (PTX a) w).ram e = m.ram e := m.store_ram_ne _ _ hne
  unfold Mem.pte
  rw [hdir]
  by_cases hpe : present (m.ram e (PDX b)) = true
  · rw [if_pos hpe, if_pos hpe]
    have howner := h.own_table he hpe
    by_cases heq : frameOf (m.ram e (PDX b)) = t
    · rw [heq, ht] at howner
      injection howner with hde hk
      rw [heq, m.store_ram_self, hde]
      by_cases hx : PTX b = PTX a
      · rw [hx, Function.update_self, if_pos ⟨rfl, index_inj hb ha hk.symm hx⟩]
      · rw [Function.update_of_ne hx, if_neg]
        intro hboth
        exact hx (congrArg PTX hboth.2)
    · rw [m.store_ram_ne _ _ heq, if_neg]
      rintro ⟨rfl, rfl⟩
      exact heq hframe
  · rw [if_neg hpe, if_neg hpe, if_neg]
    rintro ⟨rfl, rfl⟩
    exact hpe hp

/-- Directories and tables are the same after a change to other pages. -/
theorem Tables.congr (h : Tables L own m) (hfree : m'.freelist = m.freelist)
    (hdir : ∀ f, own f = .dir → m'.ram f = m.ram f) : Tables L own m' where
  nodup := by
    rw [hfree]
    exact h.nodup
  free f := by
    rw [hfree]
    exact h.free f
  table d k f := by
    rw [h.table]
    constructor
    · rintro ⟨hd, hp⟩
      rw [hdir d hd]
      exact ⟨hd, hp⟩
    · rintro ⟨hd, hp⟩
      rw [hdir d hd] at hp
      exact ⟨hd, hp⟩
  range := h.range
  pos := h.pos

theorem Tables.store (h : Tables L own m) (ht : own t = .table d k) (k' : Entry) (w : Word) :
    Tables L own (m.store t k' w) := by
  refine h.congr (m.store_freelist t k' w) ?_
  intro f hf
  apply m.store_ram_ne
  intro heq
  rw [heq, ht] at hf
  cases hf

/-- A change of one owner is not seen by who asks for other owners. -/
theorem update_owner (own : Frame → Owner) (f : Frame) (o' o : Owner) (hf : own f ≠ o)
    (ho : o' ≠ o) (x : Frame) : update own f o' x = o ↔ own x = o := by
  by_cases hx : x = f
  · rw [hx, Function.update_self]
    exact ⟨fun heq => absurd heq ho, fun heq => absurd heq hf⟩
  · rw [Function.update_of_ne hx]

/-! ## `kalloc` and `kfree` -/

theorem Mem.kalloc_none (h : m.kalloc = (m', none)) :
    m'.ram = m.ram ∧ m'.freelist = m.freelist := by
  unfold Mem.kalloc at h
  split at h
  · cases h
    exact ⟨rfl, rfl⟩
  · split at h
    · cases h
      exact ⟨rfl, rfl⟩
    · cases h

theorem Mem.kalloc_some (h : m.kalloc = (m', some f)) :
    m'.ram = m.ram ∧ m.freelist = f :: m'.freelist := by
  unfold Mem.kalloc at h
  split at h
  · cases h
  · split at h
    · cases h
    · rename_i hlist
      cases h
      exact ⟨rfl, hlist⟩

/-- A page of the free list is in the hand of the caller. -/
theorem Tables.kalloc (h : Tables L own m) (hk : m.kalloc = (m', some f)) :
    own f = .free ∧ Tables L (update own f .hand) m' := by
  obtain ⟨hram, hlist⟩ := Mem.kalloc_some hk
  have hnodup := h.nodup
  rw [hlist, List.nodup_cons] at hnodup
  have hfree : own f = .free := by
    rw [← h.free, hlist]
    exact List.mem_cons_self
  refine ⟨hfree, ?_⟩
  exact
    { nodup := hnodup.2
      free := by
        intro x
        by_cases hx : x = f
        · rw [hx, Function.update_self]
          exact ⟨fun hmem => absurd hmem hnodup.1, nofun⟩
        · rw [Function.update_of_ne hx, ← h.free, hlist, List.mem_cons]
          exact ⟨.inr, fun hmem => hmem.resolve_left hx⟩
      table := by
        intro e k x
        rw [update_owner own f .hand (.table e k) (by rw [hfree]; nofun) nofun,
          update_owner own f .hand .dir (by rw [hfree]; nofun) nofun, hram]
        exact h.table e k x
      range := by
        intro x hx
        by_cases heq : x = f
        · rw [heq]
          apply h.range
          rw [hfree]
          exact nofun
        · rw [Function.update_of_ne heq] at hx
          exact h.range x hx
      pos := h.pos }

/-- A page in the hand goes back to the free list. -/
theorem Tables.kfree (h : Tables L own m) (hf : own f = .hand) :
    ∃ m', m.kfree L f = some m' ∧ Tables L (update own f .free) m' ∧
      ∀ x, x ≠ f → m'.ram x = m.ram x := by
  have hrange := h.range f (by rw [hf]; exact nofun)
  have hnot : ¬ (f < L.kend ∨ physTop ≤ f) := by
    rintro (hlt | hle)
    · exact Nat.not_le_of_lt hlt hrange.1
    · exact Nat.not_le_of_lt hrange.2 hle
  refine ⟨_, if_neg hnot, ?_, fun x hx => m.fill_ram_ne _ hx⟩
  exact
    { nodup := by
        rw [List.nodup_cons]
        refine ⟨?_, h.nodup⟩
        rw [h.free, hf]
        exact nofun
      free := by
        intro x
        rw [List.mem_cons]
        by_cases hx : x = f
        · rw [hx, Function.update_self]
          exact ⟨fun _ => rfl, fun _ => .inl rfl⟩
        · rw [Function.update_of_ne hx, ← h.free]
          exact ⟨fun hmem => hmem.resolve_left hx, .inr⟩
      table := by
        intro e k x
        rw [update_owner own f .free (.table e k) (by rw [hf]; nofun) nofun,
          update_owner own f .free .dir (by rw [hf]; nofun) nofun, h.table]
        by_cases he : e = f
        · rw [he, hf]
          exact ⟨fun hall => (nomatch hall.1), fun hall => (nomatch hall.1)⟩
        · show _ ↔ own e = .dir ∧ present ((m.fill f _).ram e k) = true ∧
            frameOf ((m.fill f _).ram e k) = x
          rw [m.fill_ram_ne _ he]
      range := by
        intro x hx
        by_cases heq : x = f
        · rw [heq]
          exact hrange
        · rw [Function.update_of_ne heq] at hx
          exact h.range x hx
      pos := h.pos }

/-! ## `walkpgdir` -/

/-- `m'` has grown from `m`: tables of `d` have been taken from the free list, and
nothing has been stored but in `d` and its tables. -/
structure Grows (d : Frame) (own : Frame → Owner) (m : Mem) (own' : Frame → Owner) (m' : Mem) :
    Prop where
  owner : ∀ f, own' f = own f ∨ own f = .free ∧ ∃ k, own' f = .table d k
  ram : ∀ f, own f ≠ .free → f ≠ d → (∀ k, own f ≠ .table d k) → m'.ram f = m.ram f

theorem Grows.refl : Grows d own m own m where
  owner _ := .inl rfl
  ram _ _ _ _ := rfl

theorem Grows.of_ne_free (h : Grows d own m own' m') (hf : own f ≠ .free) : own' f = own f :=
  (h.owner f).resolve_right fun hfree => hf hfree.1

theorem Grows.trans {own'' : Frame → Owner} {m'' : Mem} (h : Grows d own m own' m')
    (h' : Grows d own' m' own'' m'') : Grows d own m own'' m'' where
  owner f := by
    rcases h.owner f with heq | ⟨hfree, k, hk⟩
    · rw [← heq]
      exact h'.owner f
    · right
      refine ⟨hfree, k, ?_⟩
      rw [h'.of_ne_free (by rw [hk]; nofun), hk]
  ram f hfree hd ht := by
    have hf := h.of_ne_free hfree
    rw [h'.ram f (by rw [hf]; exact hfree) hd (by rw [hf]; exact ht), h.ram f hfree hd ht]

/-- A page in the hand becomes a table. -/
theorem Tables.putTable (h : Tables L own m) (hd : own d = .dir) (ht : own t = .hand)
    (hp : present (m.ram d k) = false) :
    Tables L (update own t (.table d k)) (m.store d k (entry t (PTE_W ||| PTE_U))) := by
  have hframe : frameOf (entry t (PTE_W ||| PTE_U)) = t :=
    frameOf_entry (h.lt_top (by rw [ht]; nofun)) (by decide)
  have hdt : d ≠ t := by
    intro heq
    rw [heq, ht] at hd
    cases hd
  exact
    { nodup := h.nodup
      free := by
        intro x
        rw [update_owner own t (.table d k) .free (by rw [ht]; nofun) nofun]
        exact h.free x
      table := by
        intro e l x
        rw [update_owner own t (.table d k) .dir (by rw [ht]; nofun) nofun]
        by_cases he : e = d
        · rw [he, m.store_ram_self]
          by_cases hl : l = k
          · rw [hl, Function.update_self, hframe]
            constructor
            · intro hx
              refine ⟨hd, present_entry _ _, ?_⟩
              by_contra hne
              rw [Function.update_of_ne (Ne.symm hne)] at hx
              have hpres := ((h.table d k x).mp hx).2.1
              rw [hp] at hpres
              cases hpres
            · rintro ⟨-, -, rfl⟩
              rw [Function.update_self]
          · rw [Function.update_of_ne hl, ← h.table]
            apply update_owner own t (.table d k) (.table d l)
            · rw [ht]
              nofun
            · intro heq
              injection heq with _ hkl
              exact hl hkl.symm
        · rw [m.store_ram_ne _ _ he, ← h.table]
          apply update_owner own t (.table d k) (.table e l)
          · rw [ht]
            nofun
          · intro heq
            injection heq with hde _
            exact he hde.symm
      range := by
        intro x hx
        by_cases heq : x = t
        · rw [heq]
          apply h.range
          rw [ht]
          nofun
        · rw [Function.update_of_ne heq] at hx
          exact h.range x hx
      pos := h.pos }

/-- A new table maps nothing. -/
theorem Tables.pte_putTable (h : Tables L own m) (hd : own d = .dir) (ht : own t = .hand)
    (hp : present (m.ram d k) = false) (hzero : m.ram t = fun _ => 0) (b : Nat) :
    (m.store d k (entry t (PTE_W ||| PTE_U))).pte d b = m.pte d b := by
  have hframe : frameOf (entry t (PTE_W ||| PTE_U)) = t :=
    frameOf_entry (h.lt_top (by rw [ht]; nofun)) (by decide)
  by_cases hk : PDX b = k
  · have hnew : (m.store d k (entry t (PTE_W ||| PTE_U))).ram d (PDX b) =
        entry t (PTE_W ||| PTE_U) := by
      rw [m.store_ram_self, hk, Function.update_self]
    have htd : t ≠ d := by
      intro heq
      rw [heq, hd] at ht
      cases ht
    rw [← hk] at hp
    rw [Mem.pte_of_absent hp, Mem.pte_of_table (by rw [hnew]; exact present_entry _ _), hnew,
      hframe, m.store_ram_ne _ _ htd, hzero]
  · have hsame : (m.store d k (entry t (PTE_W ||| PTE_U))).ram d (PDX b) = m.ram d (PDX b) := by
      rw [m.store_ram_self, Function.update_of_ne hk]
    unfold Mem.pte
    rw [hsame]
    by_cases hpb : present (m.ram d (PDX b)) = true
    · have hfd : frameOf (m.ram d (PDX b)) ≠ d := by
        intro heq
        have howner := h.own_table hd hpb
        rw [heq, hd] at howner
        cases howner
      rw [if_pos hpb, if_pos hpb, m.store_ram_ne _ _ hfd]
    · rw [if_neg hpb, if_neg hpb]

/-- A directory other than `d` and its tables do not change. -/
theorem Grows.pte_other (h : Grows d own m own' m') (ht : Tables L own m) (hd : own d = .dir)
    {e : Frame} (he : own e = .dir) (hne : e ≠ d) (b : Nat) : m'.pte e b = m.pte e b := by
  apply ht.pte_congr he
  · apply h.ram e (by rw [he]; nofun) hne
    intro k
    rw [he]
    nofun
  · intro f k hf
    apply h.ram f (by rw [hf]; nofun)
    · intro heq
      rw [heq, hd] at hf
      cases hf
    · intro l
      rw [hf]
      intro heq
      injection heq with hed _
      exact hne hed

/-- `walkpgdir` with `alloc`, which may find no page for the table. -/
theorem Tables.walkpgdirAlloc {r : Option (Frame × Entry)} (h : Tables L own m)
    (hd : own d = .dir) (hw : m.walkpgdirAlloc d a = (m', r)) :
    ∃ own', Tables L own' m' ∧ Grows d own m own' m' ∧
      (∀ e b, own e = .dir → m'.pte e b = m.pte e b) ∧
      ∀ t k, r = some (t, k) → own' t = .table d (PDX a) ∧ k = PTX a := by
  unfold Mem.walkpgdirAlloc at hw
  by_cases hp : present (m.ram d (PDX a)) = true
  · rw [if_pos hp] at hw
    cases hw
    refine ⟨own, h, .refl, fun _ _ _ => rfl, ?_⟩
    rintro t k heq
    cases heq
    exact ⟨h.own_table hd hp, rfl⟩
  · rw [if_neg hp] at hw
    split at hw
    · rename_i m₁ hk
      cases hw
      obtain ⟨hram, hlist⟩ := Mem.kalloc_none hk
      have hdirs : ∀ f, own f = .dir → m'.ram f = m.ram f := fun f _ => by rw [hram]
      refine ⟨own, h.congr hlist hdirs, ⟨fun f => .inl rfl, fun f _ _ _ => by rw [hram]⟩, ?_, nofun⟩
      intro e b he
      exact h.pte_congr he (hdirs e he) (fun f k _ => by rw [hram]) b
    · rename_i m₁ t hk
      cases hw
      obtain ⟨hfree, h₁⟩ := h.kalloc hk
      have hram := (Mem.kalloc_some hk).1
      have hdt : d ≠ t := by
        intro heq
        rw [heq, hfree] at hd
        cases hd
      have hd₁ : update own t .hand d = .dir := by
        rw [Function.update_of_ne hdt]
        exact hd
      have ht₁ : update own t .hand t = .hand := Function.update_self t _ own
      have h₂ : Tables L (update own t .hand) (m₁.fill t fun _ => 0) := by
        refine h₁.congr (m₁.fill_freelist t _) ?_
        intro f hf
        apply m₁.fill_ram_ne
        intro heq
        rw [heq, ht₁] at hf
        cases hf
      have hramd : (m₁.fill t fun _ => 0).ram d = m.ram d := by
        rw [m₁.fill_ram_ne _ hdt, hram]
      have habsent : present ((m₁.fill t fun _ => 0).ram d (PDX a)) = false := by
        rw [hramd]
        simpa using hp
      have h₃ := h₂.putTable hd₁ ht₁ habsent
      rw [Function.update_idem] at h₃
      have hgrow : Grows d own m (update own t (.table d (PDX a)))
          ((m₁.fill t fun _ => 0).store d (PDX a) (entry t (PTE_W ||| PTE_U))) := by
        constructor
        · intro f
          by_cases hf : f = t
          · right
            rw [hf, Function.update_self]
            exact ⟨hfree, PDX a, rfl⟩
          · left
            rw [Function.update_of_ne hf]
        · intro f hff hfd _
          have hft : f ≠ t := by
            intro heq
            rw [heq] at hff
            exact hff hfree
          rw [Mem.store_ram_ne _ _ _ hfd, m₁.fill_ram_ne _ hft, hram]
      refine ⟨_, h₃, hgrow, ?_, ?_⟩
      · intro e b he
        by_cases hed : e = d
        · rw [hed, h₂.pte_putTable hd₁ ht₁ habsent (m₁.fill_ram_self t _)]
          apply h.pte_congr hd hramd
          intro f k hf
          have hft : f ≠ t := by
            intro heq
            rw [heq, hfree] at hf
            cases hf
          rw [m₁.fill_ram_ne _ hft, hram]
        · exact hgrow.pte_other h hd he hed b
      · rintro t' k heq
        cases heq
        exact ⟨Function.update_self t _ own, rfl⟩

/-! ## `mappages` -/

/-- What the loop of `mappages` has done: the pages from `a` on are mapped, `j` of them. -/
structure Maps (L : Layout) (d : Frame) (own : Frame → Owner) (m : Mem) (a j : Nat)
    (v : Nat → Word) (own' : Frame → Owner) (m' : Mem) : Prop where
  tables : Tables L own' m'
  grows : Grows d own m own' m'
  pte : ∀ b, b < 0x100000 → m'.pte d b = if a ≤ b ∧ b < a + j then v b else m.pte d b

theorem Maps.nothing (h : Tables L own' m') (hg : Grows d own m own' m')
    (hpte : ∀ b, m'.pte d b = m.pte d b) (v : Nat → Word) :
    Maps L d own m a 0 v own' m' where
  tables := h
  grows := hg
  pte b _ := by
    rw [hpte, if_neg (by omega)]

/-- The entry of the page `a` has been found, and is assigned to. -/
theorem Maps.first (h : Tables L own' m') (hg : Grows d own m own' m')
    (hpte : ∀ b, m'.pte d b = m.pte d b) (hd : own' d = .dir) (ha : a < 0x100000)
    (ht : own' t = .table d (PDX a)) (v : Nat → Word) :
    Maps L d own m a 1 v own' (m'.store t (PTX a) (v a)) where
  tables := h.store ht _ _
  grows := by
    refine ⟨hg.owner, ?_⟩
    intro f hfree hfd htab
    have hft : f ≠ t := by
      intro heq
      rw [← heq, hg.of_ne_free hfree] at ht
      exact htab _ ht
    rw [m'.store_ram_ne _ _ hft]
    exact hg.ram f hfree hfd htab
  pte b hb := by
    rw [h.pte_store ht hd ha hb, hpte]
    by_cases heq : b = a
    · rw [if_pos ⟨rfl, heq⟩, if_pos (by omega), heq]
    · rw [if_neg (fun hboth => heq hboth.2), if_neg (by omega)]

theorem Maps.append {j l : Nat} {v : Nat → Word} {own'' : Frame → Owner} {m'' : Mem}
    (h : Maps L d own m a j v own' m') (h' : Maps L d own' m' (a + j) l v own'' m'') :
    Maps L d own m a (j + l) v own'' m'' where
  tables := h'.tables
  grows := h.grows.trans h'.grows
  pte b hb := by
    rw [h'.pte b hb, h.pte b hb]
    by_cases hlow : a ≤ b ∧ b < a + j
    · rw [if_neg (by omega), if_pos hlow, if_pos (by omega)]
    · rw [if_neg hlow]
      by_cases hhigh : a + j ≤ b ∧ b < a + j + l
      · rw [if_pos hhigh, if_pos (by omega)]
      · rw [if_neg hhigh, if_neg (by omega)]

/-- One round of the loop: the table may be missing, and the page is not mapped. -/
theorem Tables.mapStep {perm : Word} {v : Nat → Word} {pa : Nat} (h : Tables L own m)
    (hd : own d = .dir) (ha : a < 0x100000) (habsent : ¬ m.Mapped d a)
    (hv : v a = entry pa perm) :
    (∃ m₁ own₁, m.walkpgdirAlloc d a = (m₁, none) ∧ Maps L d own m a 0 v own₁ m₁) ∨
    ∃ m₁ t k own₁, m.walkpgdirAlloc d a = (m₁, some (t, k)) ∧
      present (m₁.ram t k) = false ∧
      Maps L d own m a 1 v own₁ (m₁.store t k (entry pa perm)) := by
  cases hw : m.walkpgdirAlloc d a with
  | mk m₁ r =>
      obtain ⟨own₁, h₁, hg₁, hpte₁, hr⟩ := h.walkpgdirAlloc hd hw
      have hpte : ∀ b, m₁.pte d b = m.pte d b := fun b => hpte₁ d b hd
      have hd₁ : own₁ d = .dir := by
        rw [hg₁.of_ne_free (by rw [hd]; nofun)]
        exact hd
      cases r with
      | none => exact .inl ⟨m₁, own₁, rfl, .nothing h₁ hg₁ hpte v⟩
      | some tk =>
          obtain ⟨t, k⟩ := tk
          obtain ⟨ht, rfl⟩ := hr t k rfl
          obtain ⟨-, hp, hframe⟩ := (h₁.table d (PDX a) t).mp ht
          have hentry : m₁.ram t (PTX a) = m.pte d a := by
            rw [← hpte, Mem.pte_of_table hp, hframe]
          have hnot : present (m₁.ram t (PTX a)) = false := by
            rw [hentry]
            exact Bool.eq_false_iff.mpr habsent
          have hmaps := Maps.first h₁ hg₁ hpte hd₁ ha ht v
          rw [hv] at hmaps
          exact .inr ⟨m₁, t, PTX a, own₁, rfl, hnot, hmaps⟩

/-- `mappages` maps its range, or a first part of it. -/
theorem Tables.mapLoop (perm : Word) {v : Nat → Word} :
    ∀ (n pa : Nat) {own : Frame → Owner} {m : Mem} {a : Nat}, Tables L own m → own d = .dir →
      a + n < 0x100000 → (∀ b, a ≤ b → b ≤ a + n → ¬ m.Mapped d b) →
      (∀ b, a ≤ b → b ≤ a + n → v b = entry (pa + (b - a)) perm) →
      ∃ m' ok own' j, m.mapLoop d perm n a pa = some (m', ok) ∧ j ≤ n + 1 ∧
        (ok = true ↔ j = n + 1) ∧ Maps L d own m a j v own' m' := by
  intro n
  induction n with
  | zero =>
      intro pa own m a h hd ha habsent hv
      have hva := hv a (Nat.le_refl a) (Nat.le_refl a)
      rw [Nat.sub_self, Nat.add_zero] at hva
      rcases h.mapStep hd (Nat.lt_of_le_of_lt (Nat.le_add_right a 0) ha)
        (habsent a (Nat.le_refl a) (Nat.le_refl a)) hva with
        ⟨m₁, own₁, hw, hmaps⟩ | ⟨m₁, t, k, own₁, hw, hnot, hmaps⟩
      · refine ⟨m₁, false, own₁, 0, ?_, by omega, by simp, hmaps⟩
        unfold Mem.mapLoop
        rw [hw]
      · refine ⟨_, true, own₁, 1, ?_, by omega, by simp, hmaps⟩
        unfold Mem.mapLoop
        rw [hw]
        simp only [hnot, Bool.false_eq_true, if_false]
  | succ n ih =>
      intro pa own m a h hd ha habsent hv
      have hva := hv a (Nat.le_refl a) (by omega)
      rw [Nat.sub_self, Nat.add_zero] at hva
      rcases h.mapStep (a := a) hd (by omega) (habsent a (Nat.le_refl a) (by omega)) hva with
        ⟨m₁, own₁, hw, hmaps⟩ | ⟨m₁, t, k, own₁, hw, hnot, hmaps⟩
      · refine ⟨m₁, false, own₁, 0, ?_, by omega, by simp, hmaps⟩
        unfold Mem.mapLoop
        rw [hw]
      · have hd₁ : own₁ d = .dir := by
          rw [hmaps.grows.of_ne_free (by rw [hd]; nofun)]
          exact hd
        have habsent₁ : ∀ b, a + 1 ≤ b → b ≤ a + 1 + n →
            ¬ (m₁.store t k (entry pa perm)).Mapped d b := by
          intro b hlow hhigh
          unfold Mem.Mapped
          rw [hmaps.pte b (by omega), if_neg (by omega)]
          exact habsent b (by omega) (by omega)
        have hv₁ : ∀ b, a + 1 ≤ b → b ≤ a + 1 + n → v b = entry (pa + 1 + (b - (a + 1))) perm := by
          intro b hlow hhigh
          have heq : pa + (b - a) = pa + 1 + (b - (a + 1)) := by omega
          rw [hv b (by omega) (by omega), heq]
        obtain ⟨m', ok, own', j, hrun, hj, hok, hmaps'⟩ :=
          ih (pa + 1) hmaps.tables hd₁ (by omega) habsent₁ hv₁
        refine ⟨m', ok, own', 1 + j, ?_, by omega, ?_, hmaps.append hmaps'⟩
        · unfold Mem.mapLoop
          rw [hw]
          simp only [hnot, Bool.false_eq_true, if_false]
          exact hrun
        · rw [hok]
          omega

/-! ## User memory -/

/-- The page is neither free nor a directory nor a table. -/
def Owner.loose : Owner → Bool
  | .page _ _ | .hand | .stack _ | .pipe => true
  | .free | .dir | .table _ _ | .kernel => false

/-- A page that is no directory and no table is put to another use. -/
theorem Tables.relabel {o : Owner} (h : Tables L own m) (hf : (own f).loose = true)
    (ho : o.loose = true) : Tables L (update own f o) m where
  nodup := h.nodup
  free x := by
    rw [update_owner own f o .free (by intro heq; rw [heq] at hf; cases hf)
      (by rintro rfl; cases ho)]
    exact h.free x
  table e k x := by
    rw [update_owner own f o (.table e k) (by intro heq; rw [heq] at hf; cases hf)
      (by rintro rfl; cases ho)]
    rw [update_owner own f o .dir (by intro heq; rw [heq] at hf; cases hf)
      (by rintro rfl; cases ho)]
    exact h.table e k x
  range x hx := by
    by_cases heq : x = f
    · rw [heq]
      apply h.range
      intro hk
      rw [hk] at hf
      cases hf
    · rw [Function.update_of_ne heq] at hx
      exact h.range x hx
  pos := h.pos

/-- No address space changes. -/
theorem Pages.congr (h : Pages L own m) (ht : Tables L own' m')
    (hdir : ∀ e, own' e = .dir ↔ own e = .dir)
    (hpte : ∀ e b, own e = .dir → b < 0x80000 → m'.pte e b = m.pte e b)
    (hpage : ∀ f e b, own' f = .page e b ↔ own f = .page e b) : Pages L own' m' where
  toTables := ht
  page e b f := by
    rw [hpage, h.page, hdir]
    constructor
    · rintro ⟨he, hb, hmapped⟩
      unfold Mem.Mapped
      rw [hpte e b he hb]
      exact ⟨he, hb, hmapped⟩
    · rintro ⟨he, hb, hmapped⟩
      unfold Mem.Mapped at hmapped
      rw [hpte e b he hb] at hmapped
      exact ⟨he, hb, hmapped⟩

theorem Tables.pte_of_ram (h : Tables L own m) (hf : (own f).loose = true ∨ own f = .free)
    (hram : ∀ x, x ≠ f → m'.ram x = m.ram x) (hd : own d = .dir) (b : Nat) :
    m'.pte d b = m.pte d b := by
  have hne : ∀ x, (own x).loose = false → own x ≠ .free → x ≠ f := by
    rintro x hx hfree rfl
    rcases hf with hf | hf
    · rw [hf] at hx
      cases hx
    · exact hfree hf
  apply h.pte_congr hd
  · apply hram
    apply hne
    · rw [hd]
      rfl
    · rw [hd]
      nofun
  · intro x k hx
    apply hram
    apply hne
    · rw [hx]
      rfl
    · rw [hx]
      nofun

theorem Pages.kalloc (h : Pages L own m) (hk : m.kalloc = (m', some f)) :
    own f = .free ∧ Pages L (update own f .hand) m' := by
  obtain ⟨hfree, ht⟩ := h.toTables.kalloc hk
  refine ⟨hfree, h.congr ht ?_ ?_ ?_⟩
  · exact update_owner own f .hand .dir (by rw [hfree]; nofun) nofun
  · intro e b he _
    exact h.toTables.pte_of_ram (.inr hfree) (fun x _ => by rw [(Mem.kalloc_some hk).1]) he b
  · intro x e b
    exact update_owner own f .hand (.page e b) (by rw [hfree]; nofun) nofun x

/-- `kalloc` has found nothing. -/
theorem Pages.kalloc_none (h : Pages L own m) (hk : m.kalloc = (m', none)) :
    Pages L own m' := by
  obtain ⟨hram, hlist⟩ := Mem.kalloc_none hk
  refine h.congr (h.toTables.congr hlist fun x _ => by rw [hram]) (fun _ => Iff.rfl) ?_
    (fun _ _ _ => Iff.rfl)
  intro e b he _
  exact h.toTables.pte_congr he (by rw [hram]) (fun x k _ => by rw [hram]) b

theorem Pages.kfree (h : Pages L own m) (hf : own f = .hand) :
    ∃ m', m.kfree L f = some m' ∧ Pages L (update own f .free) m' ∧
      ∀ x, x ≠ f → m'.ram x = m.ram x := by
  obtain ⟨m', hrun, ht, hram⟩ := h.toTables.kfree hf
  refine ⟨m', hrun, h.congr ht ?_ ?_ ?_, hram⟩
  · exact update_owner own f .free .dir (by rw [hf]; nofun) nofun
  · intro e b he _
    exact h.toTables.pte_of_ram (.inl (by rw [hf]; rfl)) hram he b
  · intro x e b
    exact update_owner own f .free (.page e b) (by rw [hf]; nofun) nofun x

/-- A store to a page that is no directory and no table. -/
theorem Pages.fill (h : Pages L own m) (hf : (own f).loose = true) (p : Page) :
    Pages L own (m.fill f p) := by
  have hram : ∀ x, x ≠ f → (m.fill f p).ram x = m.ram x := fun x hx => m.fill_ram_ne p hx
  refine h.congr (h.toTables.congr (m.fill_freelist f p) ?_) (fun _ => Iff.rfl) ?_
    (fun _ _ _ => Iff.rfl)
  · intro x hx
    apply hram
    rintro rfl
    rw [hx] at hf
    cases hf
  · intro e b he _
    exact h.toTables.pte_of_ram (.inl hf) hram he b

/-- The kernel part of an address space grows, or nothing but tables is new. -/
theorem Pages.maps {j : Nat} {v : Nat → Word} (h : Pages L own m) (hd : own d = .dir)
    (ha : 0x80000 ≤ a ∨ j = 0) (hmaps : Maps L d own m a j v own' m') : Pages L own' m' := by
  refine h.congr hmaps.tables ?_ ?_ ?_
  · intro e
    rcases hmaps.grows.owner e with heq | ⟨hfree, k, hk⟩
    · rw [heq]
    · rw [hfree, hk]
      exact ⟨nofun, nofun⟩
  · intro e b he hb
    by_cases hed : e = d
    · rw [hed, hmaps.pte b (by omega), if_neg (by omega)]
    · exact hmaps.grows.pte_other h.toTables hd he hed b
  · intro x e b
    rcases hmaps.grows.owner x with heq | ⟨hfree, k, hk⟩
    · rw [heq]
    · rw [hfree, hk]
      exact ⟨nofun, nofun⟩

/-- The page in the hand is mapped as the user page `a`. -/
theorem Pages.maps_user {v : Nat → Word} {perm : Word} (h : Pages L own m) (hd : own d = .dir)
    (ha : a < 0x80000) (habsent : ¬ m.Mapped d a) (hf : own f = .hand) (hv : v a = entry f perm)
    (hperm : perm.toNat < 4096) (hmaps : Maps L d own m a 1 v own' m') :
    Pages L (update own' f (.page d a)) m' := by
  have hf' : own' f = .hand := by
    rw [hmaps.grows.of_ne_free (by rw [hf]; nofun), hf]
  have hframe : frameOf (entry f perm) = f :=
    frameOf_entry (h.lt_top (by rw [hf]; nofun)) hperm
  have hdir : ∀ e, update own' f (.page d a) e = .dir ↔ own e = .dir := by
    intro e
    rw [update_owner own' f (.page d a) .dir (by rw [hf']; nofun) nofun]
    rcases hmaps.grows.owner e with heq | ⟨hfree, k, hk⟩
    · rw [heq]
    · rw [hfree, hk]
      exact ⟨nofun, nofun⟩
  have hpage : ∀ x e b, own' x = .page e b ↔ own x = .page e b := by
    intro x e b
    rcases hmaps.grows.owner x with heq | ⟨hfree, k, hk⟩
    · rw [heq]
    · rw [hfree, hk]
      exact ⟨nofun, nofun⟩
  have hnew : m'.pte d a = entry f perm := by
    rw [hmaps.pte a (by omega), if_pos (by omega), hv]
  have hother : ∀ e b, own e = .dir → b < 0x80000 → ¬ (e = d ∧ b = a) →
      m'.pte e b = m.pte e b := by
    intro e b he hb hne
    by_cases hed : e = d
    · have hba : b ≠ a := fun heq => hne ⟨hed, heq⟩
      rw [hed, hmaps.pte b (by omega), if_neg (by omega)]
    · exact hmaps.grows.pte_other h.toTables hd he hed b
  refine ⟨hmaps.tables.relabel (by rw [hf']; rfl) rfl, ?_⟩
  intro e b x
  rw [hdir]
  by_cases hboth : e = d ∧ b = a
  · obtain ⟨rfl, rfl⟩ := hboth
    unfold Mem.Mapped
    rw [hnew, hframe]
    by_cases hx : x = f
    · rw [hx, Function.update_self]
      exact ⟨fun _ => ⟨hd, ha, present_entry _ _, rfl⟩, fun _ => rfl⟩
    · rw [Function.update_of_ne hx, hpage]
      constructor
      · intro hxp
        exact absurd ((h.page e b x).mp hxp).2.2.1 habsent
      · rintro ⟨-, -, -, rfl⟩
        exact absurd rfl hx
  · have hrhs : (own e = .dir ∧ b < 0x80000 ∧ m'.Mapped e b ∧ frameOf (m'.pte e b) = x) ↔
        own x = .page e b := by
      rw [h.page]
      constructor
      · rintro ⟨he, hb, hrest⟩
        unfold Mem.Mapped at hrest
        rw [hother e b he hb hboth] at hrest
        exact ⟨he, hb, hrest⟩
      · rintro ⟨he, hb, hrest⟩
        unfold Mem.Mapped
        rw [hother e b he hb hboth]
        exact ⟨he, hb, hrest⟩
    rw [hrhs]
    by_cases hx : x = f
    · rw [hx, Function.update_self, hf]
      constructor
      · intro heq
        injection heq with hde hab
        exact absurd ⟨hde.symm, hab.symm⟩ hboth
      · nofun
    · rw [Function.update_of_ne hx, hpage]

/-- The user page `a` is unmapped; the frame is in the hand. -/
theorem Pages.clear (h : Pages L own m) (hf : own f = .page d a) (ht : own t = .table d (PDX a)) :
    Pages L (update own f .hand) (m.store t (PTX a) 0) := by
  obtain ⟨hd, ha, hmapped, hframe⟩ := (h.page d a f).mp hf
  have hpte : ∀ e b, own e = .dir → b < 0x80000 →
      (m.store t (PTX a) 0).pte e b = if e = d ∧ b = a then 0 else m.pte e b := by
    intro e b he hb
    exact h.toTables.pte_store ht he (by omega) (by omega)
  refine ⟨(h.toTables.store ht _ _).relabel (by rw [hf]; rfl) rfl, ?_⟩
  intro e b x
  rw [update_owner own f .hand .dir (by rw [hf]; nofun) nofun]
  by_cases hboth : e = d ∧ b = a
  · obtain ⟨rfl, rfl⟩ := hboth
    unfold Mem.Mapped
    rw [hpte e b hd ha, if_pos ⟨rfl, rfl⟩]
    constructor
    · intro hx
      by_cases hxf : x = f
      · rw [hxf, Function.update_self] at hx
        cases hx
      · rw [Function.update_of_ne hxf, h.page] at hx
        exact absurd (hx.2.2.2.symm.trans hframe) hxf
    · rintro ⟨-, -, hp, -⟩
      cases hp
  · rw [update_owner own f .hand (.page e b) ?_ nofun, h.page]
    · constructor
      · rintro ⟨he, hb, hrest⟩
        unfold Mem.Mapped
        rw [hpte e b he hb, if_neg hboth]
        exact ⟨he, hb, hrest⟩
      · rintro ⟨he, hb, hrest⟩
        unfold Mem.Mapped at hrest
        rw [hpte e b he hb, if_neg hboth] at hrest
        exact ⟨he, hb, hrest⟩
    · rw [hf]
      intro heq
      injection heq with hde hab
      exact hboth ⟨hde.symm, hab.symm⟩

/-- `kfree` before the entry is cleared is `kfree` after it. -/
theorem Mem.kfree_store (hne : t ≠ f) (h : (m.store t k w).kfree L f = some m') :
    ∃ m₁, m.kfree L f = some m₁ ∧ m₁.store t k w = m' := by
  unfold Mem.kfree at h ⊢
  split at h
  · cases h
  · rename_i hrange
    cases h
    rw [if_neg hrange]
    refine ⟨_, rfl, ?_⟩
    unfold Mem.store Mem.fill
    simp only [Function.update_of_ne hne]
    rw [Function.update_comm hne]

end OsWork.Ports.PageTables

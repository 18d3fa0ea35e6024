import OsWork.Ports.PageOwners

/-!
# `growproc`

`allocuvm` and `deallocuvm` of `vm.c` with `growproc` of `proc.c`, over the memory of
`PageTables`.  Sizes are 32-bit words of the source, so numbers below `2 ^ 32`, and
`sz + n` is taken modulo `2 ^ 32`.

`switchuvm`, which `growproc` calls at the end, loads the page directory that the
process has and counts ticks; it is left out.

## Main results

* `Pages.deallocLoop`, `Pages.allocLoop` — what the two loops do to the pages and to
  their owners, for every pattern of `kalloc` failures.
* `growproc_allOrNothing` — `growproc` is all or nothing exactly if it is not asked to
  shrink a process to nothing or beyond.
-/

namespace OsWork.Ports.PageTables

open OsWork.Ports.ProcTable (Word)
open Function (update)

/-! ## The source -/

namespace Mem

variable (L : Layout) (m : Mem)

/-- What the loop of `allocuvm` does with the result of `mappages`; `false` when it gives
up. -/
def allocMapped (d mem : Frame) (oldsz newsz : Nat) : Option (Mem × Bool) → Option (Mem × Bool)
  | none => none
  | some (m, true) => some (m, true)
  | some (m, false) =>
      match m.deallocuvm L d newsz oldsz with
      | none => none
      | some (m', _) => (m'.kfree L mem).map fun m'' => (m'', false)

/-- The body of the loop of `allocuvm`, for virtual page `a`. -/
def allocRound (d : Frame) (oldsz newsz a : Nat) : Option (Mem × Bool) :=
  match m.kalloc with
  | (m', none) => (m'.deallocuvm L d newsz oldsz).map fun r => (r.1, false)
  | (m', some mem) =>
      allocMapped L d mem oldsz newsz
        ((m'.fill mem fun _ => 0).mappages d a PGSIZE mem (PTE_W ||| PTE_U))

/-- The loop of `allocuvm` from virtual page `a` on. -/
def allocLoop (d : Frame) (oldsz newsz : Nat) : Nat → Nat → Mem → Option (Mem × Nat)
  | 0, _, m => some (m, newsz)
  | fuel + 1, a, m =>
      if a * PGSIZE < newsz then
        match m.allocRound L d oldsz newsz a with
        | none => none
        | some (m', true) => allocLoop d oldsz newsz fuel (a + 1) m'
        | some (m', false) => some (m', 0)
      else some (m, newsz)

/-- `allocuvm`: the memory and the new size, or `0`. -/
def allocuvm (d : Frame) (oldsz newsz : Nat) : Option (Mem × Nat) :=
  if KERNBASE ≤ newsz then some (m, 0)
  else if newsz < oldsz then some (m, oldsz)
  else allocLoop L d oldsz newsz 0x100000 (PGROUNDUP oldsz / PGSIZE) m

end Mem

/-- The process that calls `growproc`, with the memory. -/
structure Grown where
  mem : Mem
  /-- `curproc->pgdir` -/
  pgdir : Frame
  /-- `curproc->sz` -/
  sz : Nat

/-- `sz + n` of an `uint` and an `int` -/
def uintAdd (sz : Nat) (n : Int) : Nat := ((sz + n) % 0x100000000).toNat

/-- The end of `growproc`, when `allocuvm` or `deallocuvm` has returned; the value that is
returned. -/
def Grown.resized (s : Grown) (r : Mem × Nat) : Grown × Int :=
  if r.2 = 0 then ({ s with mem := r.1 }, -1)
  else ({ s with mem := r.1, sz := r.2 }, 0)

def growproc (L : Layout) (s : Grown) (n : Word) : Option (Grown × Int) :=
  if 0 < n.toInt then
    (s.mem.allocuvm L s.pgdir s.sz (uintAdd s.sz n.toInt)).map s.resized
  else if n.toInt < 0 then
    (s.mem.deallocuvm L s.pgdir s.sz (uintAdd s.sz n.toInt)).map s.resized
  else some (s, 0)

/-! ## `deallocuvm` -/

variable {L : Layout} {own own' : Frame → Owner} {m m' : Mem} {d t f g : Frame} {k : Entry}
  {a b oldsz newsz : Nat} {w : Word}

/-- The user pages of `d` from `a` to `hi` are unmapped, and their frames are free. -/
structure Frees (d : Frame) (a hi : Nat) (own : Frame → Owner) (m : Mem)
    (own' : Frame → Owner) (m' : Mem) : Prop where
  freed : ∀ f b, own f = .page d b → a ≤ b → b < hi → own' f = .free
  kept : ∀ f, (∀ b, own f = .page d b → ¬ (a ≤ b ∧ b < hi)) → own' f = own f
  ram : ∀ f, (∀ b, own f = .page d b → ¬ (a ≤ b ∧ b < hi)) → (∀ k, own f ≠ .table d k) →
    m'.ram f = m.ram f
  unmapped : ∀ b, a ≤ b → b < hi → ¬ m'.Mapped d b
  pte : ∀ b, b < 0x100000 → ¬ (a ≤ b ∧ b < hi) → m'.pte d b = m.pte d b

theorem Frees.empty {hi : Nat} (h : hi ≤ a) : Frees d a hi own m own m where
  freed f b _ _ _ := by omega
  kept f _ := rfl
  ram f _ _ := rfl
  unmapped b _ _ := by omega
  pte b _ _ := rfl

/-- Pages that are not mapped need not be looked at. -/
theorem Frees.skip {hi a' : Nat} (hp : Pages L own m) (hle : a ≤ a')
    (hnone : ∀ b, a ≤ b → b < a' → b < hi → ¬ m.Mapped d b) (hhi : hi ≤ 0x80000)
    (h : Frees d a' hi own m own' m') : Frees d a hi own m own' m' := by
  have hout : ∀ f b, own f = .page d b → a ≤ b → b < hi → a' ≤ b := by
    intro f b hf hlow hb
    by_contra hlt
    exact hnone b hlow (by omega) hb ((hp.page d b f).mp hf).2.2.1
  exact
    { freed := fun f b hf hlow hb => h.freed f b hf (hout f b hf hlow hb) hb
      kept := by
        intro f hf
        apply h.kept
        intro b hb hboth
        exact hf b hb ⟨by omega, hboth.2⟩
      ram := by
        intro f hf ht
        refine h.ram f ?_ ht
        intro b hb hboth
        exact hf b hb ⟨by omega, hboth.2⟩
      unmapped := by
        intro b hlow hb
        by_cases hcase : a' ≤ b
        · exact h.unmapped b hcase hb
        · have hsame := h.pte b (by omega) (by omega)
          unfold Mem.Mapped
          rw [hsame]
          exact hnone b hlow (by omega) hb
      pte := by
        intro b hb hnot
        apply h.pte b hb
        omega }

theorem Frees.trans {c hi : Nat} {own'' : Frame → Owner} {m'' : Mem} (hac : a ≤ c) (hc : c ≤ hi)
    (hhi : hi ≤ 0x80000) (h : Frees d a c own m own' m') (h' : Frees d c hi own' m' own'' m'') :
    Frees d a hi own m own'' m'' := by
  have hkept : ∀ f, (∀ b, own f = .page d b → ¬ (a ≤ b ∧ b < hi)) → own' f = own f := by
    intro f hf
    apply h.kept
    intro b hb hboth
    exact hf b hb ⟨hboth.1, by omega⟩
  exact
    { freed := by
        intro f b hf hlow hb
        by_cases hbc : b < c
        · have hfree := h.freed f b hf hlow hbc
          rw [h'.kept f (by rw [hfree]; nofun), hfree]
        · have hsame : own' f = own f := by
            apply h.kept
            intro b' hb' hboth
            rw [hf] at hb'
            injection hb' with _ heq
            omega
          exact h'.freed f b (hsame.trans hf) (by omega) hb
      kept := by
        intro f hf
        have hsame := hkept f hf
        rw [h'.kept f, hsame]
        intro b hb hboth
        rw [hsame] at hb
        exact hf b hb ⟨by omega, hboth.2⟩
      ram := by
        intro f hf ht
        have hsame := hkept f hf
        rw [h'.ram f, h.ram f _ ht]
        · intro b hb hboth
          exact hf b hb ⟨hboth.1, by omega⟩
        · intro b hb hboth
          rw [hsame] at hb
          exact hf b hb ⟨by omega, hboth.2⟩
        · rw [hsame]
          exact ht
      unmapped := by
        intro b hlow hb
        by_cases hbc : b < c
        · unfold Mem.Mapped
          rw [h'.pte b (by omega) (by omega)]
          exact h.unmapped b hlow hbc
        · exact h'.unmapped b (by omega) hb
      pte := by
        intro b hb hnot
        rw [h'.pte b hb (by omega), h.pte b hb (by omega)] }

/-- The page `a` is mapped: its frame is freed and its entry cleared. -/
theorem Pages.unmap (h : Pages L own m) (hd : own d = .dir) (ha : a < 0x80000)
    (hw : m.walkpgdir d a = some (t, k)) (hp : present (m.ram t k) = true) :
    frameOf (m.ram t k) ≠ 0 ∧ ∃ m₁ own₁, m.kfree L (frameOf (m.ram t k)) = some m₁ ∧
      Pages L own₁ (m₁.store t k 0) ∧ Frees d a (a + 1) own m own₁ (m₁.store t k 0) := by
  unfold Mem.walkpgdir at hw
  split at hw
  · rename_i hpd
    cases hw
    have ht := h.toTables.own_table hd hpd
    have hpte := Mem.pte_of_table hpd
    rw [← hpte] at hp ⊢
    have hf : own (frameOf (m.pte d a)) = .page d a := (h.page d a _).mpr ⟨hd, ha, hp, rfl⟩
    have hne : frameOf (m.ram d (PDX a)) ≠ frameOf (m.pte d a) := by
      intro heq
      rw [heq, hf] at ht
      cases ht
    have hrange := h.range (frameOf (m.pte d a)) (by rw [hf]; nofun)
    have hclear := h.clear hf ht
    obtain ⟨m₂, hrun, h₂, hram⟩ := hclear.kfree (Function.update_self (frameOf (m.pte d a)) _ own)
    obtain ⟨m₁, hrun₁, rfl⟩ := Mem.kfree_store hne hrun
    rw [Function.update_idem] at h₂
    have hother : ∀ x, (∀ b, own x = .page d b → ¬ (a ≤ b ∧ b < a + 1)) →
        x ≠ frameOf (m.pte d a) := by
      rintro x hx rfl
      exact hx a hf ⟨Nat.le_refl a, Nat.lt_succ_self a⟩
    have hram' : ∀ x, x ≠ frameOf (m.pte d a) → (∀ k, own x ≠ .table d k) →
        (m₁.store (frameOf (m.ram d (PDX a))) (PTX a) 0).ram x = m.ram x := by
      intro x hx hxt
      rw [hram x hx, m.store_ram_ne]
      rintro rfl
      exact hxt _ ht
    have hpte' : ∀ b, b < 0x100000 →
        (m₁.store (frameOf (m.ram d (PDX a))) (PTX a) 0).pte d b =
          if d = d ∧ b = a then 0 else m.pte d b := by
      intro b hb
      rw [← h.toTables.pte_store ht hd (by omega) hb]
      apply hclear.toTables.pte_of_ram (f := frameOf (m.pte d a))
      · rw [Function.update_self]
        exact .inl rfl
      · exact hram
      · rw [Function.update_of_ne]
        · exact hd
        · intro heq
          rw [← heq, hd] at hf
          cases hf
    refine ⟨?_, m₁, _, hrun₁, h₂, ?_⟩
    · exact Nat.ne_of_gt (Nat.lt_of_lt_of_le h.pos hrange.1)
    · exact
        { freed := by
            intro x b hx hlow hb
            have heq : b = a := by omega
            rw [heq, h.page] at hx
            rw [← hx.2.2.2, Function.update_self]
          kept := by
            intro x hx
            exact Function.update_of_ne (hother x hx) _ _
          ram := fun x hx hxt => hram' x (hother x hx) hxt
          unmapped := by
            intro b hlow hb
            have heq : b = a := by omega
            unfold Mem.Mapped
            rw [hpte' b (by omega), if_pos ⟨rfl, heq⟩]
            nofun
          pte := by
            intro b hb hnot
            rw [hpte' b hb, if_neg]
            rintro ⟨-, rfl⟩
            exact hnot ⟨Nat.le_refl b, Nat.lt_succ_self b⟩ }
  · cases hw

/-- The number of pages that `sz` bytes take. -/
def pagesOf (sz : Nat) : Nat := (sz + 4095) / 4096

theorem lt_pagesOf {sz : Nat} : b < pagesOf sz ↔ b * PGSIZE < sz := by
  unfold pagesOf PGSIZE
  omega

theorem pagesOf_le {sz : Nat} (h : sz ≤ KERNBASE) : pagesOf sz ≤ 0x80000 := by
  unfold KERNBASE at h
  unfold pagesOf
  omega

theorem pagesOf_mono {sz sz' : Nat} (h : sz ≤ sz') : pagesOf sz ≤ pagesOf sz' := by
  unfold pagesOf
  omega

theorem roundup_pages {sz : Nat} (h : sz ≤ KERNBASE) : PGROUNDUP sz / PGSIZE = pagesOf sz := by
  unfold KERNBASE at h
  unfold PGROUNDUP pagesOf PGSIZE
  omega

/-- A page without a table is not mapped. -/
theorem Mem.walkpgdir_none (hw : m.walkpgdir d a = none) (hab : b / 1024 = a / 1024) :
    ¬ m.Mapped d b := by
  have hpdx : PDX b = PDX a := by
    unfold PDX
    rw [hab]
  unfold Mem.walkpgdir at hw
  split at hw
  · cases hw
  · rename_i hp
    rw [← hpdx] at hp
    unfold Mem.Mapped
    rw [Mem.pte_of_absent (Bool.eq_false_iff.mpr hp)]
    nofun

theorem Mem.walkpgdir_some (hw : m.walkpgdir d a = some (t, k)) : m.pte d a = m.ram t k := by
  unfold Mem.walkpgdir at hw
  split at hw
  · rename_i hp
    cases hw
    exact Mem.pte_of_table hp
  · cases hw

/-- The loop of `deallocuvm`. -/
theorem Pages.deallocLoop (hsize : oldsz ≤ KERNBASE) :
    ∀ (fuel : Nat) {own : Frame → Owner} {m : Mem} {a : Nat}, Pages L own m → own d = .dir →
      0x80000 ≤ a + fuel →
      ∃ m' own', Mem.deallocLoop L d oldsz fuel a m = some m' ∧ Pages L own' m' ∧
        Frees d a (pagesOf oldsz) own m own' m' := by
  have hhi := pagesOf_le hsize
  intro fuel
  induction fuel with
  | zero =>
      intro own m a h hd ha
      exact ⟨m, own, rfl, h, .empty (by omega)⟩
  | succ fuel ih =>
      intro own m a h hd ha
      unfold Mem.deallocLoop
      by_cases hlt : a * PGSIZE < oldsz
      · rw [if_pos hlt]
        have hpage : a < pagesOf oldsz := lt_pagesOf.mpr hlt
        cases hw : m.walkpgdir d a with
        | none =>
            obtain ⟨m', own', hrun, h', hfrees⟩ :=
              ih (a := (a / 1024 + 1) * 1024) h hd (by omega)
            refine ⟨m', own', hrun, h', hfrees.skip h (by omega) ?_ hhi⟩
            intro b hlow hb _
            exact Mem.walkpgdir_none hw (by omega)
        | some tk =>
            obtain ⟨t, k⟩ := tk
            show ∃ m' own', (if present (m.ram t k) = true then _ else _) = _ ∧ _
            by_cases hp : present (m.ram t k) = true
            · rw [if_pos hp]
              obtain ⟨hne, m₁, own₁, hrun₁, h₁, hfrees₁⟩ := h.unmap hd (by omega) hw hp
              rw [if_neg hne, hrun₁]
              have hd₁ : own₁ d = .dir := by
                rw [hfrees₁.kept d (by rw [hd]; nofun)]
                exact hd
              obtain ⟨m', own', hrun, h', hfrees⟩ := ih (a := a + 1) h₁ hd₁ (by omega)
              exact ⟨m', own', hrun, h', hfrees₁.trans (by omega) (by omega) hhi hfrees⟩
            · rw [if_neg hp]
              obtain ⟨m', own', hrun, h', hfrees⟩ := ih (a := a + 1) h hd (by omega)
              refine ⟨m', own', hrun, h', hfrees.skip h (by omega) ?_ hhi⟩
              intro b hlow hb _
              have heq : b = a := by omega
              unfold Mem.Mapped
              rw [heq, Mem.walkpgdir_some hw]
              exact hp
      · rw [if_neg hlt]
        refine ⟨m, own, rfl, h, .empty ?_⟩
        by_contra hnot
        exact hlt (lt_pagesOf.mp (by omega))

/-- `deallocuvm` to a smaller size. -/
theorem Pages.deallocuvm (h : Pages L own m) (hd : own d = .dir) (hsize : oldsz ≤ KERNBASE)
    (hlt : newsz < oldsz) :
    ∃ m' own', m.deallocuvm L d oldsz newsz = some (m', newsz) ∧ Pages L own' m' ∧
      Frees d (pagesOf newsz) (pagesOf oldsz) own m own' m' := by
  obtain ⟨m', own', hrun, h', hfrees⟩ :=
    Pages.deallocLoop (a := pagesOf newsz) hsize 0x100000 h hd (by omega)
  refine ⟨m', own', ?_, h', hfrees⟩
  unfold Mem.deallocuvm
  rw [if_neg (Nat.not_le_of_lt hlt), roundup_pages (by omega), hrun]
  rfl

/-! ## `allocuvm` -/

/-- The page is mapped as it was, or not as it was not. -/
def Mem.SamePage (m m' : Mem) (d : Frame) (b : Nat) : Prop :=
  m'.pte d b = m.pte d b ∨ ¬ m.Mapped d b ∧ ¬ m'.Mapped d b

/-- The user pages of `d` from `lo` to `hi` are new and full of zeros; tables may be new. -/
structure Gains (d : Frame) (lo hi : Nat) (own : Frame → Owner) (m : Mem)
    (own' : Frame → Owner) (m' : Mem) : Prop where
  owner : ∀ f, own' f = own f ∨
    own f = .free ∧ ((∃ k, own' f = .table d k) ∨ ∃ b, lo ≤ b ∧ b < hi ∧ own' f = .page d b)
  ram : ∀ f, own f ≠ .free → f ≠ d → (∀ k, own f ≠ .table d k) → m'.ram f = m.ram f
  pte : ∀ b, b < 0x100000 → ¬ (lo ≤ b ∧ b < hi) → m.SamePage m' d b
  new : ∀ b, lo ≤ b → b < hi → ∃ f, own' f = .page d b ∧
    m'.pte d b = entry f (PTE_W ||| PTE_U) ∧ m'.ram f = fun _ => 0

theorem Gains.refl (lo : Nat) : Gains d lo lo own m own m where
  owner _ := .inl rfl
  ram _ _ _ _ := rfl
  pte _ _ _ := .inl rfl
  new b _ _ := by omega

theorem Gains.of_ne_free {lo hi : Nat} (h : Gains d lo hi own m own' m') (hf : own f ≠ .free) :
    own' f = own f :=
  (h.owner f).resolve_right fun hfree => hf hfree.1

/-- `deallocuvm` takes back what is new. -/
theorem Gains.undo {lo hi : Nat} {own'' : Frame → Owner} {m'' : Mem}
    (h : Gains d lo a own m own' m') (hle : a ≤ hi)
    (hold : ∀ f b, own f = .page d b → ¬ (lo ≤ b ∧ b < hi))
    (habsent : ∀ b, lo ≤ b → b < hi → ¬ m.Mapped d b)
    (hfrees : Frees d lo hi own' m' own'' m'') : Gains d lo lo own m own'' m'' := by
  have hkept : ∀ f, own f ≠ .free → own' f = own f ∧ own'' f = own f := by
    intro f hf
    have hsame := h.of_ne_free hf
    refine ⟨hsame, ?_⟩
    rw [hfrees.kept f, hsame]
    intro b hb
    rw [hsame] at hb
    exact hold f b hb
  exact
    { owner := by
        intro f
        rcases h.owner f with hsame | ⟨hfree, ⟨k, hk⟩ | ⟨b, hlow, hb, hpage⟩⟩
        · left
          rw [hfrees.kept f, hsame]
          intro b hb
          rw [hsame] at hb
          exact hold f b hb
        · right
          refine ⟨hfree, .inl ⟨k, ?_⟩⟩
          rw [hfrees.kept f (by rw [hk]; nofun), hk]
        · left
          rw [hfrees.freed f b hpage hlow (by omega), hfree]
      ram := by
        intro f hf hfd ht
        have hsame := (hkept f hf).1
        rw [hfrees.ram f, h.ram f hf hfd ht]
        · intro b hb
          rw [hsame] at hb
          exact hold f b hb
        · rw [hsame]
          exact ht
      pte := by
        intro b hb _
        by_cases hrange : lo ≤ b ∧ b < hi
        · exact .inr ⟨habsent b hrange.1 hrange.2, hfrees.unmapped b hrange.1 hrange.2⟩
        · have hpte := hfrees.pte b hb hrange
          rcases h.pte b hb (by omega) with heq | ⟨hnot, hnot'⟩
          · exact .inl (hpte.trans heq)
          · right
            unfold Mem.Mapped
            rw [hpte]
            exact ⟨hnot, hnot'⟩
      new := fun b _ _ => by omega }

/-- A page that was free at the start does not count. -/
theorem Gains.of_ram {lo hi : Nat} {m'' : Mem} (h : Gains d lo hi own m own' m')
    (hf : own' f = .free) (hram : ∀ x, x ≠ f → m''.ram x = m'.ram x)
    (hpte : ∀ b, m''.pte d b = m'.pte d b) : Gains d lo hi own m own' m'' where
  owner := h.owner
  ram x hx hxd ht := by
    by_cases hxf : x = f
    · have hsame := h.of_ne_free hx
      rw [hxf, hf] at hsame
      rw [hxf, ← hsame] at hx
      exact absurd rfl hx
    · rw [hram x hxf, h.ram x hx hxd ht]
  pte b hb hrange := by
    unfold Mem.SamePage Mem.Mapped
    rw [hpte]
    exact h.pte b hb hrange
  new b hlow hb := by
    obtain ⟨x, hx, hentry, hzero⟩ := h.new b hlow hb
    refine ⟨x, hx, ?_, ?_⟩
    · rw [hpte]
      exact hentry
    · rw [hram x, hzero]
      rintro rfl
      rw [hf] at hx
      cases hx

theorem Gains.of_same {lo hi : Nat} {m'' : Mem} (h : Gains d lo hi own m own' m')
    (hram : m''.ram = m'.ram) : Gains d lo hi own m own' m'' where
  owner := h.owner
  ram := by
    rw [hram]
    exact h.ram
  pte b hb hrange := by
    unfold Mem.SamePage Mem.Mapped Mem.pte
    rw [hram]
    exact h.pte b hb hrange
  new b hlow hb := by
    unfold Mem.pte
    rw [hram]
    exact h.new b hlow hb

theorem Mem.mappages_page {pa : Nat} {perm : Word} (ha : a < 0x100000) :
    m.mappages d a PGSIZE pa perm = m.mapLoop d perm 0 a pa := by
  unfold Mem.mappages
  have hlast : (a * PGSIZE + PGSIZE + 0xFFFFFFFF) % 0x100000000 / PGSIZE = a := by
    unfold PGSIZE
    omega
  have hcount : (a + 0x100000 - a) % 0x100000 = 0 := by omega
  simp only [hlast, hcount]

theorem Mem.SamePage.trans {m'' : Mem} (h : m.SamePage m' d b) (h' : m'.SamePage m'' d b) :
    m.SamePage m'' d b := by
  unfold Mem.SamePage Mem.Mapped at *
  rcases h' with heq | ⟨hnot, hnot'⟩
  · rw [heq]
    exact h
  · rcases h with heq | ⟨hnot₁, -⟩
    · rw [heq] at hnot
      exact .inr ⟨hnot, hnot'⟩
    · exact .inr ⟨hnot₁, hnot'⟩

theorem Gains.trans {lo c hi : Nat} {own'' : Frame → Owner} {m'' : Mem} (hlo : lo ≤ c)
    (hhi : c ≤ hi) (hmax : hi ≤ 0x80000) (h : Gains d lo c own m own' m') (hd : own d = .dir)
    (h' : Gains d c hi own' m' own'' m'') : Gains d lo hi own m own'' m'' where
  owner f := by
    rcases h.owner f with hsame | ⟨hfree, hnew⟩
    · rcases h'.owner f with hsame' | ⟨hfree', ⟨k, hk⟩ | ⟨b, hlow, hb, hpage⟩⟩
      · exact .inl (hsame'.trans hsame)
      · exact .inr ⟨hsame.symm.trans hfree', .inl ⟨k, hk⟩⟩
      · exact .inr ⟨hsame.symm.trans hfree', .inr ⟨b, by omega, hb, hpage⟩⟩
    · have hne : own' f ≠ .free := by
        rcases hnew with ⟨k, hk⟩ | ⟨b, -, -, hpage⟩
        · rw [hk]
          nofun
        · rw [hpage]
          nofun
      right
      refine ⟨hfree, ?_⟩
      rw [h'.of_ne_free hne]
      rcases hnew with ⟨k, hk⟩ | ⟨b, hlow, hb, hpage⟩
      · exact .inl ⟨k, hk⟩
      · exact .inr ⟨b, hlow, by omega, hpage⟩
  ram f hf hfd ht := by
    have hsame := h.of_ne_free hf
    rw [h'.ram f (by rw [hsame]; exact hf) hfd (by rw [hsame]; exact ht), h.ram f hf hfd ht]
  pte b hb hrange := (h.pte b hb (by omega)).trans (h'.pte b hb (by omega))
  new b hlow hb := by
    by_cases hbc : b < c
    · obtain ⟨f, hpage, hentry, hzero⟩ := h.new b hlow hbc
      have hfd : f ≠ d := by
        intro heq
        have hdir := h.of_ne_free (f := d) (by rw [hd]; nofun)
        rw [← heq, hpage, heq, hd] at hdir
        cases hdir
      refine ⟨f, ?_, ?_, ?_⟩
      · rw [h'.of_ne_free (by rw [hpage]; nofun), hpage]
      · rcases h'.pte b (by omega) (by omega) with heq | ⟨hnot, -⟩
        · rw [heq, hentry]
        · unfold Mem.Mapped at hnot
          rw [hentry] at hnot
          exact absurd (present_entry _ _) hnot
      · rw [h'.ram f (by rw [hpage]; nofun) hfd (by rw [hpage]; nofun), hzero]
    · exact h'.new b (by omega) hb

/-- The page in the hand is mapped as the user page `a`, or a table for it is missing. -/
theorem Pages.mapHand (perm : Word) (h : Pages L own m) (hd : own d = .dir) (ha : a < 0x80000)
    (habsent : ¬ m.Mapped d a) (hf : own f = .hand) (hperm : perm.toNat < 4096) :
    ∃ m' ok own', m.mappages d a PGSIZE f perm = some (m', ok) ∧
      Pages L (if ok = true then update own' f (.page d a) else own') m' ∧
      Grows d own m own' m' ∧
      ∀ b, b < 0x100000 → m'.pte d b = if ok = true ∧ b = a then entry f perm else m.pte d b := by
  rw [Mem.mappages_page (by omega)]
  obtain ⟨m', ok, own', j, hrun, hj, hok, hmaps⟩ := h.toTables.mapLoop perm
    (v := fun b => entry (f + (b - a)) perm) 0 f hd (by omega)
    (fun b hlow hb => by
      have heq : b = a := by omega
      rw [heq]
      exact habsent) (fun b _ _ => rfl)
  have hentry : entry (f + (a - a)) perm = entry f perm := by
    rw [Nat.sub_self, Nat.add_zero]
  cases ok with
  | true =>
      have hone : j = 1 := hok.mp rfl
      rw [hone] at hmaps
      refine ⟨m', true, own', hrun, h.maps_user hd ha habsent hf hentry hperm hmaps,
        hmaps.grows, ?_⟩
      intro b hb
      rw [hmaps.pte b hb]
      by_cases heq : b = a
      · rw [if_pos (by omega), if_pos ⟨rfl, heq⟩, heq, hentry]
      · rw [if_neg (by omega), if_neg (fun hboth => heq hboth.2)]
  | false =>
      have hzero : j = 0 := by
        have hne : j ≠ 1 := fun heq => nomatch hok.mpr heq
        omega
      rw [hzero] at hmaps
      refine ⟨m', false, own', hrun, h.maps hd (.inr rfl) hmaps, hmaps.grows, ?_⟩
      intro b hb
      rw [hmaps.pte b hb, if_neg (by omega), if_neg (fun hboth => nomatch hboth.1)]

/-- One round of the loop: `kalloc` has given a page, and `mappages` may fail. -/
theorem Pages.allocPage {m₁ : Mem} (h : Pages L own m) (hd : own d = .dir) (ha : a < 0x80000)
    (habsent : ¬ m.Mapped d a) (hk : m.kalloc = (m₁, some f)) :
    (∃ m₂ own₂, (m₁.fill f fun _ => 0).mappages d a PGSIZE f (PTE_W ||| PTE_U) = some (m₂, true) ∧
      Pages L own₂ m₂ ∧ Gains d a (a + 1) own m own₂ m₂) ∨
    ∃ m₂ own₂, (m₁.fill f fun _ => 0).mappages d a PGSIZE f (PTE_W ||| PTE_U) = some (m₂, false) ∧
      own₂ f = .hand ∧ Pages L own₂ m₂ ∧ Gains d a a own m (update own₂ f .free) m₂ := by
  obtain ⟨hfree, h₁⟩ := h.kalloc hk
  have hhand : update own f .hand f = .hand := Function.update_self f _ own
  have h₂ := h₁.fill (p := fun _ => 0) (f := f) (by rw [hhand]; rfl)
  have hdf : d ≠ f := by
    intro heq
    rw [heq, hfree] at hd
    cases hd
  have hd₁ : update own f .hand d = .dir := by
    rw [Function.update_of_ne hdf]
    exact hd
  have hram₁ : ∀ x, x ≠ f → (m₁.fill f fun _ => 0).ram x = m.ram x := by
    intro x hx
    rw [m₁.fill_ram_ne _ hx, (Mem.kalloc_some hk).1]
  have hpte₁ : ∀ b, (m₁.fill f fun _ => 0).pte d b = m.pte d b :=
    h.toTables.pte_of_ram (.inr hfree) hram₁ hd
  have habsent₁ : ¬ (m₁.fill f fun _ => 0).Mapped d a := by
    unfold Mem.Mapped
    rw [hpte₁]
    exact habsent
  obtain ⟨m₂, ok, own₂, hrun, hpages, hgrows, hpte⟩ :=
    h₂.mapHand (PTE_W ||| PTE_U) hd₁ ha habsent₁ hhand (by decide)
  have hhand₂ : own₂ f = .hand := by
    rw [hgrows.of_ne_free (by rw [hhand]; nofun), hhand]
  have howner : ∀ x, x ≠ f → own₂ x = own x ∨ own x = .free ∧ ∃ k, own₂ x = .table d k := by
    intro x hx
    have hcase := hgrows.owner x
    rw [Function.update_of_ne hx] at hcase
    exact hcase
  have hram : ∀ x, own x ≠ .free → x ≠ d → (∀ k, own x ≠ .table d k) →
      m₂.ram x = m.ram x := by
    intro x hx hxd ht
    have hxf : x ≠ f := by
      rintro rfl
      exact hx hfree
    rw [hgrows.ram x, hram₁ x hxf]
    · rw [Function.update_of_ne hxf]
      exact hx
    · exact hxd
    · rw [Function.update_of_ne hxf]
      exact ht
  rw [hrun]
  cases ok with
  | true =>
      left
      refine ⟨m₂, _, rfl, hpages, ?_⟩
      exact
        { owner := by
            intro x
            by_cases hx : x = f
            · right
              rw [if_pos rfl, hx, Function.update_self]
              exact ⟨hfree, .inr ⟨a, Nat.le_refl a, Nat.lt_succ_self a, rfl⟩⟩
            · rw [if_pos rfl, Function.update_of_ne hx]
              rcases howner x hx with hsame | ⟨hxfree, hk⟩
              · exact .inl hsame
              · exact .inr ⟨hxfree, .inl hk⟩
          ram := hram
          pte := by
            intro b hb hrange
            left
            rw [hpte b hb, if_neg (by omega), hpte₁]
          new := by
            intro b hlow hb
            have heq : b = a := by omega
            refine ⟨f, ?_, ?_, ?_⟩
            · rw [heq, if_pos rfl, Function.update_self]
            · rw [heq, hpte a (by omega), if_pos ⟨rfl, rfl⟩]
            · rw [hgrows.ram f (by rw [hhand]; nofun) (Ne.symm hdf) (by rw [hhand]; nofun)]
              exact m₁.fill_ram_self f _ }
  | false =>
      right
      refine ⟨m₂, own₂, rfl, hhand₂, hpages, ?_⟩
      exact
        { owner := by
            intro x
            by_cases hx : x = f
            · left
              rw [hx, Function.update_self, hfree]
            · rw [Function.update_of_ne hx]
              rcases howner x hx with hsame | ⟨hxfree, hk⟩
              · exact .inl hsame
              · exact .inr ⟨hxfree, .inl hk⟩
          ram := hram
          pte := by
            intro b hb _
            left
            rw [hpte b hb, if_neg (fun hboth => nomatch hboth.1), hpte₁]
          new := fun b _ _ => by omega }

/-- A frame in the hand does not take part in `deallocuvm`. -/
theorem Frees.hand {lo hi : Nat} (h : Frees d lo hi own m own' m') (hf : own f = .hand) :
    own' f = .hand ∧ Frees d lo hi (update own f .free) m (update own' f .free) m' := by
  have hf' : own' f = .hand := by
    rw [h.kept f (by rw [hf]; nofun), hf]
  have hpage : ∀ x b, update own f .free x = .page d b ↔ own x = .page d b := fun x b =>
    update_owner own f .free (.page d b) (by rw [hf]; nofun) nofun x
  have htable : ∀ x k, update own f .free x = .table d k ↔ own x = .table d k := fun x k =>
    update_owner own f .free (.table d k) (by rw [hf]; nofun) nofun x
  refine ⟨hf', ?_⟩
  exact
    { freed := by
        intro x b hx hlow hb
        by_cases hxf : x = f
        · rw [hxf, Function.update_self]
        · rw [Function.update_of_ne hxf]
          exact h.freed x b ((hpage x b).mp hx) hlow hb
      kept := by
        intro x hx
        by_cases hxf : x = f
        · rw [hxf, Function.update_self, Function.update_self]
        · rw [Function.update_of_ne hxf, Function.update_of_ne hxf]
          apply h.kept
          intro b hb
          exact hx b ((hpage x b).mpr hb)
      ram := by
        intro x hx ht
        apply h.ram x
        · intro b hb
          exact hx b ((hpage x b).mpr hb)
        · intro k hk
          exact ht k ((htable x k).mpr hk)
      unmapped := h.unmapped
      pte := h.pte }

theorem Mem.allocRound_none (hk : m.kalloc = (m', none)) :
    m.allocRound L d oldsz newsz a =
      (m'.deallocuvm L d newsz oldsz).map fun r => (r.1, false) := by
  unfold Mem.allocRound
  rw [hk]

theorem Mem.allocRound_some (hk : m.kalloc = (m', some f)) :
    m.allocRound L d oldsz newsz a =
      Mem.allocMapped L d f oldsz newsz
        ((m'.fill f fun _ => 0).mappages d a PGSIZE f (PTE_W ||| PTE_U)) := by
  unfold Mem.allocRound
  rw [hk]

/-- The body of the loop of `allocuvm`, entered with the pages up to `a` done. -/
theorem Pages.allocRound {lo : Nat} {own₀ : Frame → Owner} {m₀ : Mem} (hsize : newsz < KERNBASE)
    (hless : oldsz < newsz) (hlo : pagesOf oldsz = lo) (hd₀ : own₀ d = .dir)
    (hold : ∀ f b, own₀ f = .page d b → ¬ (lo ≤ b ∧ b < pagesOf newsz))
    (habsent : ∀ b, lo ≤ b → b < pagesOf newsz → ¬ m₀.Mapped d b) (h : Pages L own m)
    (hg : Gains d lo a own₀ m₀ own m) (hlow : lo ≤ a) (ha : a < pagesOf newsz) :
    ∃ m' ok own', m.allocRound L d oldsz newsz a = some (m', ok) ∧ Pages L own' m' ∧
      (ok = true ∧ Gains d lo (a + 1) own₀ m₀ own' m' ∨
        ok = false ∧ Gains d lo lo own₀ m₀ own' m') := by
  have hmax := pagesOf_le (Nat.le_of_lt hsize)
  have hd : own d = .dir := by
    rw [hg.of_ne_free (by rw [hd₀]; nofun)]
    exact hd₀
  have hunmapped : ¬ m.Mapped d a := by
    rcases hg.pte a (by omega) (by omega) with heq | ⟨-, hnot⟩
    · unfold Mem.Mapped
      rw [heq]
      exact habsent a hlow ha
    · exact hnot
  cases hk : m.kalloc with
  | mk m₁ r =>
      cases r with
      | none =>
          rw [Mem.allocRound_none hk]
          obtain ⟨m', own', hrun, h', hfrees⟩ :=
            (h.kalloc_none hk).deallocuvm hd (Nat.le_of_lt hsize) hless
          rw [hlo] at hfrees
          have hg₁ := hg.of_same (Mem.kalloc_none hk).1
          refine ⟨m', false, own', ?_, h', .inr ⟨rfl, hg₁.undo (by omega) hold habsent hfrees⟩⟩
          rw [hrun]
          rfl
      | some f =>
          rw [Mem.allocRound_some hk]
          rcases h.allocPage hd (by omega) hunmapped hk with
            ⟨m₂, own₂, hrun₂, h₂, hg₂⟩ | ⟨m₂, own₂, hrun₂, hf, h₂, hg₂⟩
          · refine ⟨m₂, true, own₂, ?_, h₂, .inl ⟨rfl, ?_⟩⟩
            · rw [hrun₂]
              rfl
            · exact hg.trans hlow (by omega) (by omega) hd₀ hg₂
          · have hd₂ : own₂ d = .dir := by
              have hsame := hg₂.of_ne_free (f := d) (by rw [hd]; nofun)
              rw [Function.update_of_ne] at hsame
              · rw [hsame, hd]
              · rintro rfl
                rw [Function.update_self, hd] at hsame
                cases hsame
            obtain ⟨m₃, own₃, hrun₃, h₃, hfrees⟩ :=
              h₂.deallocuvm hd₂ (Nat.le_of_lt hsize) hless
            rw [hlo] at hfrees
            obtain ⟨hf₃, hfrees'⟩ := hfrees.hand hf
            obtain ⟨m₄, hrun₄, h₄, hram₄⟩ := h₃.kfree hf₃
            have hd₃ : own₃ d = .dir := by
              rw [hfrees.kept d (by rw [hd₂]; nofun), hd₂]
            have hg₃ := hg.trans hlow (Nat.le_refl a) (by omega) hd₀ hg₂
            have hg₄ := hg₃.undo (by omega) hold habsent hfrees'
            refine ⟨m₄, false, _, ?_, h₄, .inr ⟨rfl, hg₄.of_ram ?_ hram₄ ?_⟩⟩
            · rw [hrun₂]
              simp only [Mem.allocMapped, hrun₃, hrun₄, Option.map_some]
            · exact Function.update_self f _ own₃
            · exact h₃.toTables.pte_of_ram (.inl (by rw [hf₃]; rfl)) hram₄ hd₃

/-- The loop of `allocuvm`. -/
theorem Pages.allocLoop {lo : Nat} {own₀ : Frame → Owner} {m₀ : Mem} (hsize : newsz < KERNBASE)
    (hle : oldsz ≤ newsz) (hlo : pagesOf oldsz = lo) (h₀ : Pages L own₀ m₀) (hd₀ : own₀ d = .dir)
    (habsent : ∀ b, lo ≤ b → b < pagesOf newsz → ¬ m₀.Mapped d b) :
    ∀ (fuel : Nat) {own : Frame → Owner} {m : Mem} {a : Nat}, Pages L own m →
      Gains d lo a own₀ m₀ own m → lo ≤ a → a ≤ pagesOf newsz → pagesOf newsz ≤ a + fuel →
      ∃ m' sz' own', Mem.allocLoop L d oldsz newsz fuel a m = some (m', sz') ∧ Pages L own' m' ∧
        (sz' = newsz ∧ Gains d lo (pagesOf newsz) own₀ m₀ own' m' ∨
          sz' = 0 ∧ Gains d lo lo own₀ m₀ own' m') := by
  have hold : ∀ f b, own₀ f = .page d b → ¬ (lo ≤ b ∧ b < pagesOf newsz) := by
    intro f b hf hrange
    exact habsent b hrange.1 hrange.2 ((h₀.page d b f).mp hf).2.2.1
  intro fuel
  induction fuel with
  | zero =>
      intro own m a h hg hlow ha hfuel
      have heq : a = pagesOf newsz := by omega
      rw [heq] at hg
      exact ⟨m, newsz, own, rfl, h, .inl ⟨rfl, hg⟩⟩
  | succ fuel ih =>
      intro own m a h hg hlow ha hfuel
      unfold Mem.allocLoop
      by_cases hmore : a * PGSIZE < newsz
      · have hpage : a < pagesOf newsz := lt_pagesOf.mpr hmore
        have hless : oldsz < newsz := by
          by_contra hnot
          have heq : oldsz = newsz := by omega
          rw [heq] at hlo
          omega
        obtain ⟨m₁, ok, own₁, hrun₁, h₁, hres⟩ :=
          h.allocRound hsize hless hlo hd₀ hold habsent hg hlow hpage
        rw [if_pos hmore, hrun₁]
        rcases hres with ⟨rfl, hg₁⟩ | ⟨rfl, hg₁⟩
        · exact ih h₁ hg₁ (by omega) (by omega) (by omega)
        · exact ⟨m₁, 0, own₁, rfl, h₁, .inr ⟨rfl, hg₁⟩⟩
      · rw [if_neg hmore]
        have heq : a = pagesOf newsz := by
          have hnot := mt lt_pagesOf.mp hmore
          omega
        rw [heq] at hg
        exact ⟨m, newsz, own, rfl, h, .inl ⟨rfl, hg⟩⟩

theorem Pages.allocuvm (h : Pages L own m) (hd : own d = .dir) (hsize : newsz < KERNBASE)
    (hle : oldsz ≤ newsz)
    (habsent : ∀ b, pagesOf oldsz ≤ b → b < pagesOf newsz → ¬ m.Mapped d b) :
    ∃ m' sz' own', m.allocuvm L d oldsz newsz = some (m', sz') ∧ Pages L own' m' ∧
      (sz' = newsz ∧ Gains d (pagesOf oldsz) (pagesOf newsz) own m own' m' ∨
        sz' = 0 ∧ Gains d (pagesOf oldsz) (pagesOf oldsz) own m own' m') := by
  have hmax := pagesOf_le (Nat.le_of_lt hsize)
  unfold Mem.allocuvm
  rw [if_neg (Nat.not_le_of_lt hsize), if_neg (Nat.not_lt_of_le hle), roundup_pages (by omega)]
  exact Pages.allocLoop hsize hle rfl h hd habsent 0x100000 h (.refl _) (Nat.le_refl _)
    (pagesOf_mono hle) (by omega)

/-! ## `growproc` -/

/-- The page is mapped as it was, and has the same contents. -/
def Mem.Kept (m m' : Mem) (d : Frame) (a : Nat) : Prop :=
  m'.pte d a = m.pte d a ∧ m'.ram (frameOf (m.pte d a)) = m.ram (frameOf (m.pte d a))

/-- The pages below `sz` are mapped, and no others. -/
structure Grown.Ok (L : Layout) (own : Frame → Owner) (s : Grown) : Prop where
  pages : Pages L own s.mem
  dir : own s.pgdir = .dir
  lt : s.sz < KERNBASE
  mapped : ∀ a, a < 0x80000 → (s.mem.Mapped s.pgdir a ↔ a < pagesOf s.sz)

/-- `growproc(n)` has done what it was asked for. -/
structure Resized (s : Grown) (n : Int) (t : Grown) : Prop where
  pgdir : t.pgdir = s.pgdir
  sz : (t.sz : Int) = s.sz + n
  lt : t.sz < KERNBASE
  mapped : ∀ a, a < 0x80000 → (t.mem.Mapped s.pgdir a ↔ a < pagesOf t.sz)
  user : ∀ a, pagesOf s.sz ≤ a → a < pagesOf t.sz → user (t.mem.pte s.pgdir a) = true
  kept : ∀ a, a < pagesOf s.sz → a < pagesOf t.sz → s.mem.Kept t.mem s.pgdir a

/-- The process has the size, the mappings and the contents that it had. -/
structure Unchanged (s t : Grown) : Prop where
  pgdir : t.pgdir = s.pgdir
  sz : t.sz = s.sz
  mapped : ∀ a, a < 0x80000 → (t.mem.Mapped s.pgdir a ↔ s.mem.Mapped s.pgdir a)
  kept : ∀ a, a < pagesOf s.sz → s.mem.Kept t.mem s.pgdir a

/-- `growproc` is all or nothing. -/
def AllOrNothing (s : Grown) (n : Int) (r : Option (Grown × Int)) : Prop :=
  ∃ t, r = some (t, 0) ∧ Resized s n t ∨ r = some (t, -1) ∧ Unchanged s t

theorem Gains.keeps {lo hi : Nat} (h : Pages L own m) (hd : own d = .dir)
    (hg : Gains d lo hi own m own' m') (ha : a < 0x80000) (hout : ¬ (lo ≤ a ∧ a < hi))
    (hm : m.Mapped d a) : m.Kept m' d a := by
  have hf : own (frameOf (m.pte d a)) = .page d a := (h.page d a _).mpr ⟨hd, ha, hm, rfl⟩
  constructor
  · exact (hg.pte a (by omega) hout).resolve_right fun hnot => hnot.1 hm
  · apply hg.ram
    · rw [hf]
      nofun
    · intro heq
      rw [heq, hd] at hf
      cases hf
    · rw [hf]
      nofun

theorem Frees.keeps {lo hi : Nat} (h : Pages L own m) (hd : own d = .dir)
    (hfrees : Frees d lo hi own m own' m') (ha : a < lo) (hmax : a < 0x80000)
    (hm : m.Mapped d a) : m.Kept m' d a := by
  have hf : own (frameOf (m.pte d a)) = .page d a := (h.page d a _).mpr ⟨hd, hmax, hm, rfl⟩
  constructor
  · exact hfrees.pte a (by omega) (by omega)
  · apply hfrees.ram
    · intro b hb hboth
      rw [hf] at hb
      injection hb with _ heq
      omega
    · rw [hf]
      nofun

section Growproc

variable {s : Grown} {n : Word}

theorem uintAdd_of_bounds (sz : Nat) (n : Int) (hlow : 0 ≤ sz + n) (hhigh : sz + n < 0x100000000) :
    (uintAdd sz n : Int) = sz + n := by
  unfold uintAdd
  omega

/-- `growproc` of a positive number. -/
theorem Grown.Ok.grow (hs : s.Ok L own) (hn : 0 < n.toInt) :
    AllOrNothing s n.toInt (growproc L s n) := by
  have hlt := hs.lt
  have hnlt := n.toInt_lt
  unfold KERNBASE at hlt
  have hsum := uintAdd_of_bounds s.sz n.toInt (by omega) (by omega)
  unfold growproc
  rw [if_pos hn]
  by_cases hbig : KERNBASE ≤ uintAdd s.sz n.toInt
  · have hrun : s.mem.allocuvm L s.pgdir s.sz (uintAdd s.sz n.toInt) = some (s.mem, 0) :=
      if_pos hbig
    rw [hrun]
    exact ⟨s, .inr ⟨rfl, rfl, rfl, fun _ _ => Iff.rfl, fun _ _ => ⟨rfl, rfl⟩⟩⟩
  · have hnew : uintAdd s.sz n.toInt < KERNBASE := Nat.lt_of_not_le hbig
    have hmax := pagesOf_le (Nat.le_of_lt hnew)
    have hold := pagesOf_le (Nat.le_of_lt hs.lt)
    have hle : s.sz ≤ uintAdd s.sz n.toInt := by omega
    have hmono := pagesOf_mono hle
    have habsent : ∀ b, pagesOf s.sz ≤ b → b < pagesOf (uintAdd s.sz n.toInt) →
        ¬ s.mem.Mapped s.pgdir b := by
      intro b hlow hb hm
      have hin := (hs.mapped b (by omega)).mp hm
      omega
    obtain ⟨m', sz', own', hrun, h', hres⟩ := hs.pages.allocuvm hs.dir hnew hle habsent
    rw [hrun]
    rcases hres with ⟨rfl, hg⟩ | ⟨rfl, hg⟩
    · have hne : uintAdd s.sz n.toInt ≠ 0 := by omega
      refine ⟨{ s with mem := m', sz := uintAdd s.sz n.toInt }, .inl ⟨?_, ?_⟩⟩
      · show some (s.resized (m', uintAdd s.sz n.toInt)) = _
        unfold Grown.resized
        rw [if_neg hne]
      · exact
          { pgdir := rfl
            sz := hsum
            lt := hnew
            mapped := by
              intro a ha
              by_cases hrange : pagesOf s.sz ≤ a ∧ a < pagesOf (uintAdd s.sz n.toInt)
              · obtain ⟨f, -, hentry, -⟩ := hg.new a hrange.1 hrange.2
                have hmapped : m'.Mapped s.pgdir a := by
                  unfold Mem.Mapped
                  rw [hentry]
                  exact present_entry _ _
                exact ⟨fun _ => hrange.2, fun _ => hmapped⟩
              · have hiff : m'.Mapped s.pgdir a ↔ s.mem.Mapped s.pgdir a := by
                  rcases hg.pte a (by omega) hrange with heq | ⟨hnot, hnot'⟩
                  · unfold Mem.Mapped
                    rw [heq]
                  · exact ⟨fun hm => absurd hm hnot', fun hm => absurd hm hnot⟩
                show m'.Mapped s.pgdir a ↔ a < pagesOf (uintAdd s.sz n.toInt)
                rw [hiff, hs.mapped a ha]
                omega
            user := by
              intro a hlow ha
              obtain ⟨f, -, hentry, -⟩ := hg.new a hlow ha
              show user (m'.pte s.pgdir a) = true
              rw [hentry]
              exact user_entry _ _ rfl
            kept := by
              intro a ha _
              exact hg.keeps hs.pages hs.dir (by omega) (by omega) ((hs.mapped a (by omega)).mpr ha) }
    · refine ⟨{ s with mem := m' }, .inr ⟨rfl, ?_⟩⟩
      exact
        { pgdir := rfl
          sz := rfl
          mapped := by
            intro a ha
            rcases hg.pte a (by omega) (by omega) with heq | ⟨hnot, hnot'⟩
            · show m'.Mapped s.pgdir a ↔ _
              unfold Mem.Mapped
              rw [heq]
            · exact ⟨fun hm => absurd hm hnot', fun hm => absurd hm hnot⟩
          kept := by
            intro a ha
            exact hg.keeps hs.pages hs.dir (by omega) (by omega) ((hs.mapped a (by omega)).mpr ha) }

theorem growproc_of_neg (hn : n.toInt < 0) : growproc L s n =
    (s.mem.deallocuvm L s.pgdir s.sz (uintAdd s.sz n.toInt)).map s.resized := by
  unfold growproc
  rw [if_neg (by omega), if_pos hn]

/-- `growproc` of a negative number, when the process stays with something. -/
theorem Grown.Ok.shrink (hs : s.Ok L own) (hn : n.toInt < 0) (hrest : 0 < s.sz + n.toInt) :
    AllOrNothing s n.toInt (growproc L s n) := by
  have hlt := hs.lt
  unfold KERNBASE at hlt
  have hsum := uintAdd_of_bounds s.sz n.toInt (by omega) (by omega)
  have hnew : uintAdd s.sz n.toInt < s.sz := by omega
  have hne : uintAdd s.sz n.toInt ≠ 0 := by omega
  have hmax := pagesOf_le (Nat.le_of_lt hs.lt)
  have hmono := pagesOf_mono (Nat.le_of_lt hnew)
  obtain ⟨m', own', hrun, h', hfrees⟩ :=
    hs.pages.deallocuvm hs.dir (Nat.le_of_lt hs.lt) hnew
  rw [growproc_of_neg hn, hrun]
  refine ⟨{ s with mem := m', sz := uintAdd s.sz n.toInt }, .inl ⟨?_, ?_⟩⟩
  · show some (s.resized (m', uintAdd s.sz n.toInt)) = _
    unfold Grown.resized
    rw [if_neg hne]
  · exact
      { pgdir := rfl
        sz := hsum
        lt := Nat.lt_trans hnew hs.lt
        mapped := by
          intro a ha
          show m'.Mapped s.pgdir a ↔ a < pagesOf (uintAdd s.sz n.toInt)
          by_cases hrange : pagesOf (uintAdd s.sz n.toInt) ≤ a ∧ a < pagesOf s.sz
          · have hnot := hfrees.unmapped a hrange.1 hrange.2
            exact ⟨fun hm => absurd hm hnot, fun hlow => by omega⟩
          · unfold Mem.Mapped
            rw [hfrees.pte a (by omega) hrange]
            have hiff := hs.mapped a ha
            unfold Mem.Mapped at hiff
            rw [hiff]
            omega
        user := by
          intro a hlow ha
          have hlt : a < pagesOf (uintAdd s.sz n.toInt) := ha
          omega
        kept := by
          intro a ha hlow
          exact hfrees.keeps hs.pages hs.dir hlow (by omega) ((hs.mapped a (by omega)).mpr ha) }

/-- A process cannot be shrunk to nothing, or beyond. -/
theorem Grown.Ok.overshrink (hs : s.Ok L own) (hn : n.toInt < 0) (hsz : 0 < s.sz)
    (hover : s.sz + n.toInt ≤ 0) : ¬ AllOrNothing s n.toInt (growproc L s n) := by
  have hlt := hs.lt
  have hnlow := n.le_toInt
  unfold KERNBASE at hlt
  rw [growproc_of_neg hn]
  by_cases hzero : s.sz + n.toInt = 0
  · have hnew : uintAdd s.sz n.toInt = 0 := by
      unfold uintAdd
      rw [hzero]
      rfl
    obtain ⟨m', own', hrun, h', hfrees⟩ :=
      hs.pages.deallocuvm hs.dir (Nat.le_of_lt hs.lt) hsz
    have hpage : 0 < pagesOf s.sz := lt_pagesOf.mpr (by omega)
    have hnot : ¬ m'.Mapped s.pgdir 0 := hfrees.unmapped 0 (Nat.zero_le _) hpage
    rw [hnew, hrun]
    rintro ⟨t, ⟨hrun', -⟩ | ⟨hrun', hun⟩⟩
    · cases hrun'
    · cases hrun'
      exact hnot ((hun.mapped 0 (by decide)).mpr ((hs.mapped 0 (by decide)).mpr hpage))
  · have hbig : s.sz ≤ uintAdd s.sz n.toInt := by
      unfold uintAdd
      omega
    have hrun : s.mem.deallocuvm L s.pgdir s.sz (uintAdd s.sz n.toInt) = some (s.mem, s.sz) :=
      if_pos hbig
    have hres : s.resized (s.mem, s.sz) = (s, 0) := if_neg (Nat.ne_of_gt hsz)
    rw [hrun]
    rintro ⟨t, ⟨hrun', hok⟩ | ⟨hrun', -⟩⟩
    · rw [Option.map_some, hres] at hrun'
      cases hrun'
      have hsum := hok.sz
      omega
    · rw [Option.map_some, hres] at hrun'
      cases hrun'

/-- `growproc` is all or nothing if and only if it is not to shrink a process to nothing or
beyond. -/
theorem growproc_allOrNothing (L : Layout) (own : Frame → Owner) (s : Grown) (n : Word)
    (hs : s.Ok L own) :
    AllOrNothing s n.toInt (growproc L s n) ↔ (n.toInt < 0 → 0 < s.sz → 0 < s.sz + n.toInt) := by
  constructor
  · intro hall hn hsz
    by_contra hover
    exact hs.overshrink hn hsz (by omega) hall
  · intro hfits
    by_cases hpos : 0 < n.toInt
    · exact hs.grow hpos
    · by_cases hneg : n.toInt < 0
      · by_cases hsz : 0 < s.sz
        · exact hs.shrink hneg (hfits hneg hsz)
        · have hzero : s.sz = 0 := by omega
          have hrun : s.mem.deallocuvm L s.pgdir s.sz (uintAdd s.sz n.toInt) = some (s.mem, 0) := by
            unfold Mem.deallocuvm
            rw [hzero, if_pos (Nat.zero_le _)]
          rw [growproc_of_neg hneg, hrun]
          exact ⟨s, .inr ⟨rfl, rfl, rfl, fun _ _ => Iff.rfl, fun _ _ => ⟨rfl, rfl⟩⟩⟩
      · have hzero : n.toInt = 0 := by omega
        have hrun : growproc L s n = some (s, 0) := by
          unfold growproc
          rw [if_neg hpos, if_neg hneg]
        refine ⟨s, .inl ⟨hrun, rfl, ?_, hs.lt, hs.mapped, ?_, fun _ _ _ => ⟨rfl, rfl⟩⟩⟩
        · rw [hzero, Int.add_zero]
        · intro a hlow ha
          omega

end Growproc

/-! ## A process of one page -/

def onePageLayout : Layout where
  kend := 0x200
  kdata := 0x180

/-- The directory is page `0x200`, its table `0x201`, and the process has page `0x202`. -/
def onePageOwner (f : Frame) : Owner :=
  if f = 0x200 then .dir
  else if f = 0x201 then .table 0x200 0
  else if f = 0x202 then .page 0x200 0
  else .kernel

def onePageProcess : Grown where
  mem :=
    { ram := fun f k =>
        if k = 0 then
          if f = 0x200 then entry 0x201 (PTE_W ||| PTE_U)
          else if f = 0x201 then entry 0x202 (PTE_W ||| PTE_U)
          else 0
        else 0
      freelist := []
      oom := fun _ => false }
  pgdir := 0x200
  sz := 4096

theorem onePageOwner_cases (f : Frame) :
    f = 0x200 ∧ onePageOwner f = .dir ∨ f = 0x201 ∧ onePageOwner f = .table 0x200 0 ∨
      f = 0x202 ∧ onePageOwner f = .page 0x200 0 ∨
      (f ≠ 0x200 ∧ f ≠ 0x201 ∧ f ≠ 0x202) ∧ onePageOwner f = .kernel := by
  unfold onePageOwner
  by_cases h₀ : f = 0x200
  · exact .inl ⟨h₀, if_pos h₀⟩
  · by_cases h₁ : f = 0x201
    · exact .inr (.inl ⟨h₁, by rw [if_neg h₀, if_pos h₁]⟩)
    · by_cases h₂ : f = 0x202
      · exact .inr (.inr (.inl ⟨h₂, by rw [if_neg h₀, if_neg h₁, if_pos h₂]⟩))
      · exact .inr (.inr (.inr ⟨⟨h₀, h₁, h₂⟩, by rw [if_neg h₀, if_neg h₁, if_neg h₂]⟩))

theorem onePageOwner_dir {f : Frame} (h : onePageOwner f = .dir) : f = 0x200 := by
  rcases onePageOwner_cases f with ⟨hf, -⟩ | ⟨-, ho⟩ | ⟨-, ho⟩ | ⟨-, ho⟩
  · exact hf
  all_goals
    rw [ho] at h
    cases h

theorem onePage_entry (k : Entry) :
    onePageProcess.mem.ram 0x200 k = if k = 0 then entry 0x201 (PTE_W ||| PTE_U) else 0 := rfl

theorem onePage_pte {a : Nat} (ha : a < 0x100000) :
    onePageProcess.mem.pte 0x200 a = if a = 0 then entry 0x202 (PTE_W ||| PTE_U) else 0 := by
  have hzero : a = 0 ↔ PDX a = 0 ∧ PTX a = 0 := by
    constructor
    · rintro rfl
      exact ⟨rfl, rfl⟩
    · rintro ⟨hd, ht⟩
      exact index_inj ha (by decide) hd ht
  unfold Mem.pte
  rw [onePage_entry]
  by_cases hd : PDX a = 0
  · have htable : frameOf (entry 0x201 (PTE_W ||| PTE_U)) = 0x201 :=
      frameOf_entry (by decide) (by decide)
    rw [if_pos hd, if_pos (present_entry _ _), htable]
    by_cases ht : PTX a = 0
    · rw [if_pos (hzero.mpr ⟨hd, ht⟩), ht]
      rfl
    · rw [if_neg (fun h => ht (hzero.mp h).2)]
      exact if_neg ht
  · rw [if_neg hd, if_neg (fun h => hd (hzero.mp h).1)]
    rfl

theorem onePageProcess_pages : Pages onePageLayout onePageOwner onePageProcess.mem where
  nodup := List.nodup_nil
  free f := by
    constructor
    · nofun
    · intro h
      rcases onePageOwner_cases f with ⟨-, ho⟩ | ⟨-, ho⟩ | ⟨-, ho⟩ | ⟨-, ho⟩ <;>
        rw [ho] at h <;> cases h
  table d k f := by
    have htable : frameOf (entry 0x201 (PTE_W ||| PTE_U)) = 0x201 :=
      frameOf_entry (by decide) (by decide)
    constructor
    · intro h
      rcases onePageOwner_cases f with ⟨-, ho⟩ | ⟨hf, ho⟩ | ⟨-, ho⟩ | ⟨-, ho⟩ <;>
        rw [ho] at h <;> cases h
      rw [onePage_entry, if_pos rfl, htable]
      exact ⟨rfl, present_entry _ _, hf.symm⟩
    · rintro ⟨hd, hp, rfl⟩
      have hd := onePageOwner_dir hd
      subst hd
      rw [onePage_entry] at hp ⊢
      by_cases hk : k = 0
      · rw [if_pos hk, htable, hk]
        rfl
      · rw [if_neg hk] at hp
        cases hp
  page d a f := by
    have hpage : frameOf (entry 0x202 (PTE_W ||| PTE_U)) = 0x202 :=
      frameOf_entry (by decide) (by decide)
    constructor
    · intro h
      rcases onePageOwner_cases f with ⟨-, ho⟩ | ⟨-, ho⟩ | ⟨hf, ho⟩ | ⟨-, ho⟩ <;>
        rw [ho] at h <;> cases h
      unfold Mem.Mapped
      rw [onePage_pte (by decide), if_pos rfl, hpage]
      exact ⟨rfl, by decide, present_entry _ _, hf.symm⟩
    · rintro ⟨hd, ha, hp, rfl⟩
      have hd := onePageOwner_dir hd
      subst hd
      unfold Mem.Mapped at hp
      rw [onePage_pte (by omega)] at hp ⊢
      by_cases hzero : a = 0
      · rw [if_pos hzero, hpage, hzero]
        rfl
      · rw [if_neg hzero] at hp
        cases hp
  range f hf := by
    rcases onePageOwner_cases f with ⟨rfl, -⟩ | ⟨rfl, -⟩ | ⟨rfl, -⟩ | ⟨-, ho⟩
    · decide
    · decide
    · decide
    · exact absurd ho hf
  pos := by decide

theorem onePageProcess_ok : onePageProcess.Ok onePageLayout onePageOwner where
  pages := onePageProcess_pages
  dir := rfl
  lt := by decide
  mapped a ha := by
    unfold Mem.Mapped
    show present (onePageProcess.mem.pte 0x200 a) = true ↔ a < 1
    rw [onePage_pte (by omega)]
    by_cases hzero : a = 0
    · rw [if_pos hzero]
      exact ⟨fun _ => by omega, fun _ => present_entry _ _⟩
    · rw [if_neg hzero]
      exact ⟨nofun, fun h => by omega⟩

/-- `growproc(-4096)` of a process of 4096 bytes fails and has freed the page. -/
theorem onePage_notAllOrNothing :
    ¬ AllOrNothing onePageProcess (-4096) (growproc onePageLayout onePageProcess (-4096)) :=
  onePageProcess_ok.overshrink (n := -4096) (by decide) (by decide) (by decide)

theorem onePage_allOrNothing :
    AllOrNothing onePageProcess (4096 : Word).toInt
      (growproc onePageLayout onePageProcess 4096) :=
  (growproc_allOrNothing onePageLayout onePageOwner onePageProcess 4096 onePageProcess_ok).mpr
    (by decide)

end OsWork.Ports.PageTables

import OsWork.Ports.EnoughPages

/-!
# `copyuvm`

The copy of an address space for a child, `copyuvm` of `vm.c`.  `mappages` adds one page at a
time to a new directory, which nobody else knows; what is copied, and from where, is never
touched.  `none` is a panic.

## Main results

* `Copying.round` — a page more has been copied, or a page is missing.
* `copyuvm_faithful` — `copyuvm` does not panic, and makes a private copy or leaves no trace.
-/

namespace OsWork.Ports.PageTables

open OsWork.Ports.ProcTable (Word)
open Function (update)

/-! ## The source -/

namespace Mem

variable (L : Layout) (m : Mem)

/-- What the loop of `copyuvm` does with the result of `mappages`; `false` is a jump to
`bad`. -/
def copyMapped (mem : Frame) : Mem × Bool → Option (Mem × Bool)
  | (m, true) => some (m, true)
  | (m, false) => (m.kfree L mem).map fun m' => (m', false)

/-- The copy of the page with the entry `pte` for virtual page `a`. -/
def copyPage (d : Frame) (a : Nat) (pte : Word) : Option (Mem × Bool) :=
  match m.kalloc with
  | (m', none) => some (m', false)
  | (m', some mem) =>
      ((m'.fill mem (m'.ram (frameOf pte))).mappages d a PGSIZE mem (flagsOf pte)).bind
        (copyMapped L mem)

/-- The body of the loop of `copyuvm`, for virtual page `a`. -/
def copyRound (d pgdir : Frame) (a : Nat) : Option (Mem × Bool) :=
  -- pte should exist
  (m.walkpgdir pgdir a).bind fun e =>
    -- page not present
    if present (m.ram e.1 e.2) then m.copyPage L d a (m.ram e.1 e.2) else none

/-- The loop of `copyuvm` from virtual page `a` on, with a bound on its rounds. -/
def copyRounds (d pgdir : Frame) (sz : Nat) : Nat → Nat → Mem → Option (Mem × Bool)
  | 0, _, _ => none
  | fuel + 1, a, m =>
      if a * PGSIZE < sz then
        (m.copyRound L d pgdir a).bind fun r =>
          if r.2 then copyRounds d pgdir sz fuel ((a + 1) % 0x100000) r.1 else some r
      else some (m, true)

/-- `copyuvm` from the result of `setupkvm` on. -/
def copyInto (pgdir : Frame) (sz : Nat) : Mem × Option Frame → Option (Mem × Option Frame)
  | (m, none) => some (m, none)
  | (m, some d) =>
      (m.copyRounds L d pgdir sz 0x100001 0).bind fun r =>
        if r.2 then some (r.1, some d) else (r.1.freevm L d).map fun m' => (m', none)

/-- `copyuvm`: the memory and the new directory. -/
def copyuvm (pgdir : Frame) (sz : Nat) : Option (Mem × Option Frame) :=
  (m.setupkvm L).bind (copyInto L pgdir sz)

end Mem

variable {L : Layout} {own own' own₀ : Frame → Owner} {m m' m₀ : Mem} {d f pgdir : Frame}
  {a sz : Nat} {w : Word}

/-! ## Flags -/

theorem flagsOf_lt (w : Word) : (flagsOf w).toNat < 4096 := by
  unfold flagsOf
  rw [BitVec.toNat_and]
  exact Nat.and_lt_two_pow (n := 12) _ (by decide)

/-- The entry for another page has the same flags. -/
theorem flagsOf_entry (hp : present w = true) : flagsOf (entry f (flagsOf w)) = flagsOf w := by
  apply BitVec.eq_of_getLsbD_eq
  intro i hi
  unfold present at hp
  unfold flagsOf entry PTE_P PGSIZE
  have hhigh : i < 12 → (f * 4096).testBit i = false := by
    intro hlt
    rw [show (4096 : Nat) = 2 ^ 12 from rfl, Nat.testBit_mul_two_pow]
    simp
    omega
  have hmask : (0xFFF : Word).getLsbD i = decide (i < 12) := by
    have hbit : (0xFFF : Nat).testBit i = decide (i < 12) := by
      rw [show (0xFFF : Nat) = 2 ^ 12 - 1 from rfl, Nat.testBit_two_pow_sub_one]
    show (BitVec.ofNat 32 0xFFF).getLsbD i = _
    rw [BitVec.getLsbD_ofNat, hbit]
    simp [hi]
  have hone : (1 : Word).getLsbD i = decide (0 = i) := by
    have hbit : (1 : Nat).testBit i = decide (0 = i) := by
      rw [show (1 : Nat) = 2 ^ 0 from rfl, Nat.testBit_two_pow]
    show (BitVec.ofNat 32 1).getLsbD i = _
    rw [BitVec.getLsbD_ofNat, hbit]
    simp [hi]
  rw [BitVec.getLsbD_and, BitVec.getLsbD_and, BitVec.getLsbD_or, BitVec.getLsbD_or,
    BitVec.getLsbD_and, BitVec.getLsbD_ofNat, hmask, hone]
  by_cases hlow : i < 12
  · rw [hhigh hlow]
    by_cases hzero : 0 = i
    · subst hzero
      simp [hp]
    · simp [hlow, hzero]
  · simp [hlow]

/-! ## The loop -/

/-- Free pages have become tables and user pages of the new address space. -/
theorem Built.takes (h₀ : Pages L own₀ m₀) (hb : Built d own₀ m₀ own m)
    (howner : ∀ x, own' x = own x ∨
      own x = .free ∧ ((∃ k, own' x = .table d k) ∨ ∃ b, own' x = .page d b))
    (hram : ∀ x, own x ≠ .free → x ≠ d → (∀ k, own x ≠ .table d k) → m'.ram x = m.ram x) :
    Built d own₀ m₀ own' m' := by
  have hsame : ∀ x, own x ≠ .free → own' x = own x := fun x hx =>
    (howner x).resolve_right fun hfree => hx hfree.1
  exact
    { was := hb.was
      dir := by
        rw [hsame d (by rw [hb.dir]; nofun)]
        exact hb.dir
      kept := by
        intro x hx
        obtain ⟨hown, hold⟩ := hb.kept x hx
        have hne : own x ≠ .free := by
          rw [hown]
          exact hx
        have hnot := hb.not_belongs h₀ hx
        rw [hsame x hne, hram x hne (fun heq => hnot (.inl heq)) fun k hk =>
          hnot (.inr (.inl ⟨k, hk⟩))]
        exact ⟨hown, hold⟩
      new := by
        intro x hx
        rcases howner x with heq | ⟨-, hk | hpage⟩
        · unfold Belongs
          rw [heq]
          exact hb.new x hx
        · exact .inr (.inr (.inl hk))
        · exact .inr (.inr (.inr hpage)) }

/-- The pages below `a` of the address space of `pgdir` have been copied to that of `d`; all the
rest is as it was in `m₀`. -/
structure Copying (L : Layout) (d pgdir : Frame) (own₀ : Frame → Owner) (m₀ : Mem) (a : Nat)
    (own : Frame → Owner) (m : Mem) : Prop where
  pages : Pages L own m
  built : Built d own₀ m₀ own m
  safe : m.KernelSafe d
  mapped : ∀ b, b < 0x80000 → (m.Mapped d b ↔ b < a)
  copied : ∀ b, b < a → flagsOf (m.pte d b) = flagsOf (m₀.pte pgdir b) ∧
    m.ram (frameOf (m.pte d b)) = m₀.ram (frameOf (m₀.pte pgdir b))

section Copying

variable (h₀ : Pages L own₀ m₀) (hd₀ : own₀ pgdir = .dir)

include h₀ hd₀

/-- The address space that is copied does not change. -/
theorem Built.source (hb : Built d own₀ m₀ own m) :
    (∀ b, m.pte pgdir b = m₀.pte pgdir b) ∧ ∀ b, b < 0x80000 → m₀.Mapped pgdir b →
      m.ram (frameOf (m₀.pte pgdir b)) = m₀.ram (frameOf (m₀.pte pgdir b)) := by
  constructor
  · exact h₀.toTables.pte_congr hd₀ (hb.kept pgdir (by rw [hd₀]; nofun)).2 fun x k hx =>
      (hb.kept x (by rw [hx]; nofun)).2
  · intro b hlt hp
    have hown := (h₀.page pgdir b _).mpr ⟨hd₀, hlt, hp, rfl⟩
    exact (hb.kept _ (by rw [hown]; nofun)).2

omit h₀ hd₀ in
/-- The copies are in user pages of the new address space. -/
theorem Copying.frame {b : Nat} (h : Copying L d pgdir own₀ m₀ a own m) (ha : a ≤ 0x80000)
    (hb : b < a) : own (frameOf (m.pte d b)) = .page d b :=
  (h.pages.page d b _).mpr
    ⟨h.built.dir, Nat.lt_of_lt_of_le hb ha, (h.mapped b (by omega)).mpr hb, rfl⟩

omit hd₀ in
/-- Tables have been added, and no page. -/
theorem Copying.keeps (h : Copying L d pgdir own₀ m₀ a own m) (ha : a ≤ 0x80000)
    (hpages : Pages L own' m')
    (howner : ∀ x, own' x = own x ∨ own x = .free ∧ ∃ k, own' x = .table d k)
    (hram : ∀ x, own x ≠ .free → x ≠ d → (∀ k, own x ≠ .table d k) → m'.ram x = m.ram x)
    (hpte : ∀ b, b < 0x100000 → m'.pte d b = m.pte d b) :
    Copying L d pgdir own₀ m₀ a own' m' where
  pages := hpages
  built := h.built.takes h₀ (fun x => (howner x).imp_right fun hx => ⟨hx.1, .inl hx.2⟩) hram
  safe := by
    intro b hlow hb
    unfold Mem.UserPage
    rw [hpte b hb]
    exact h.safe b hlow hb
  mapped := by
    intro b hb
    unfold Mem.Mapped
    rw [hpte b (by omega)]
    exact h.mapped b hb
  copied := by
    intro b hb
    have hown := h.frame ha hb
    have hne : frameOf (m.pte d b) ≠ d := by
      intro heq
      rw [heq, h.built.dir] at hown
      cases hown
    rw [hpte b (by omega), hram _ (by rw [hown]; nofun) hne (by rw [hown]; nofun)]
    exact h.copied b hb

/-- One page is copied, or there is no room for it. -/
theorem Copying.page {pte : Word} (h : Copying L d pgdir own₀ m₀ a own m) (ha : a < 0x80000)
    (hp : m₀.Mapped pgdir a) (hpte : pte = m₀.pte pgdir a) :
    ∃ m' ok own', m.copyPage L d a pte = some (m', ok) ∧
      (ok = true ∧ Copying L d pgdir own₀ m₀ (a + 1) own' m' ∨
        ok = false ∧ Copying L d pgdir own₀ m₀ a own' m') := by
  have hd := h.built.dir
  have hpresent : present pte = true := by
    rw [hpte]
    exact hp
  have habsent : ¬ m.Mapped d a := by
    rw [h.mapped a ha]
    exact Nat.lt_irrefl a
  unfold Mem.copyPage
  cases hk : m.kalloc with
  | mk m₁ r =>
      cases r with
      | none =>
          have hram₁ := (Mem.kalloc_none hk).1
          refine ⟨m₁, false, own, rfl, .inr ⟨rfl, h.keeps h₀ (Nat.le_of_lt ha) (h.pages.kalloc_none hk)
            (fun _ => .inl rfl) (fun x _ _ _ => by rw [hram₁]) ?_⟩⟩
          intro b _
          exact h.pages.toTables.pte_congr hd (by rw [hram₁]) (fun x k _ => by rw [hram₁]) b
      | some f =>
          obtain ⟨hfree, h₁⟩ := h.pages.kalloc hk
          have hram₁ := (Mem.kalloc_some hk).1
          have hhand : update own f .hand f = .hand := Function.update_self f _ own
          obtain ⟨p, hpage⟩ : ∃ p, p = m₁.ram (frameOf pte) := ⟨_, rfl⟩
          have h₂ := h₁.fill (p := p) (f := f) (by rw [hhand]; rfl)
          have hdf : d ≠ f := by
            intro heq
            rw [heq, hfree] at hd
            cases hd
          have hd₁ : update own f .hand d = .dir := by
            rw [Function.update_of_ne hdf]
            exact hd
          have hram₂ : ∀ x, x ≠ f → (m₁.fill f p).ram x = m.ram x := by
            intro x hx
            rw [m₁.fill_ram_ne _ hx, hram₁]
          have hpte₂ : ∀ b, (m₁.fill f p).pte d b = m.pte d b :=
            h.pages.toTables.pte_of_ram (.inr hfree) hram₂ hd
          have habsent₂ : ¬ (m₁.fill f p).Mapped d a := by
            unfold Mem.Mapped
            rw [hpte₂]
            exact habsent
          obtain ⟨m₃, ok, own₃, hrun, hpages, hgrows, hpte₃⟩ :=
            h₂.mapHand (flagsOf pte) hd₁ ha habsent₂ hhand (flagsOf_lt pte)
          have hhand₃ : own₃ f = .hand := by
            rw [hgrows.of_ne_free (by rw [hhand]; nofun), hhand]
          have howner : ∀ x, x ≠ f → own₃ x = own x ∨ own x = .free ∧ ∃ k, own₃ x = .table d k := by
            intro x hx
            have hcase := hgrows.owner x
            rw [Function.update_of_ne hx] at hcase
            exact hcase
          have hram : ∀ x, own x ≠ .free → x ≠ d → (∀ k, own x ≠ .table d k) →
              m₃.ram x = m.ram x := by
            intro x hx hxd ht
            have hxf : x ≠ f := by
              rintro rfl
              exact hx hfree
            rw [hgrows.ram x (by rw [Function.update_of_ne hxf]; exact hx) hxd
              (by rw [Function.update_of_ne hxf]; exact ht), hram₂ x hxf]
          simp only [← hpage, hrun, Option.bind_some]
          cases ok with
          | false =>
              obtain ⟨m₄, hfreed, h₄, hram₄⟩ := hpages.kfree (f := f) hhand₃
              refine ⟨m₄, false, update own₃ f .free, ?_, .inr ⟨rfl, ?_⟩⟩
              · unfold Mem.copyMapped
                simp only [hfreed, Option.map_some]
              · apply h.keeps h₀ (Nat.le_of_lt ha) h₄
                · intro x
                  by_cases hx : x = f
                  · left
                    rw [hx, Function.update_self, hfree]
                  · rw [Function.update_of_ne hx]
                    exact howner x hx
                · intro x hx hxd ht
                  have hxf : x ≠ f := by
                    rintro rfl
                    exact hx hfree
                  rw [hram₄ x hxf, hram x hx hxd ht]
                · intro b hb
                  have hd₃ : own₃ d = .dir := by
                    rw [hgrows.of_ne_free (by rw [hd₁]; nofun), hd₁]
                  have hsame := hpages.toTables.pte_of_ram (.inl (by simp [hhand₃, Owner.loose]))
                    hram₄ (d := d) (by simp [hd₃]) b
                  rw [hsame, hpte₃ b hb, if_neg (fun hboth => nomatch hboth.1), hpte₂]
          | true =>
              refine ⟨m₃, true, update own₃ f (.page d a), rfl, .inl ⟨rfl, ?_⟩⟩
              have hnew : m₃.pte d a = entry f (flagsOf pte) := by
                rw [hpte₃ a (by omega), if_pos ⟨rfl, rfl⟩]
              have hold : ∀ b, b < 0x100000 → b ≠ a → m₃.pte d b = m.pte d b := by
                intro b hb hne
                rw [hpte₃ b hb, if_neg (fun hboth => hne hboth.2), hpte₂]
              exact
                { pages := hpages
                  built := by
                    refine h.built.takes h₀ ?_ hram
                    intro x
                    by_cases hx : x = f
                    · right
                      rw [hx, Function.update_self]
                      exact ⟨hfree, .inr ⟨a, rfl⟩⟩
                    · rw [Function.update_of_ne hx]
                      exact (howner x hx).imp_right fun hboth => ⟨hboth.1, .inl hboth.2⟩
                  safe := by
                    intro b hlow hb
                    unfold Mem.UserPage
                    rw [hold b hb (by omega)]
                    exact h.safe b hlow hb
                  mapped := by
                    intro b hb
                    by_cases hba : b = a
                    · unfold Mem.Mapped
                      rw [hba, hnew]
                      exact ⟨fun _ => Nat.lt_succ_self a, fun _ => present_entry _ _⟩
                    · unfold Mem.Mapped
                      rw [hold b (by omega) hba]
                      have hiff := h.mapped b hb
                      unfold Mem.Mapped at hiff
                      rw [hiff]
                      omega
                  copied := by
                    intro b hb
                    by_cases hba : b = a
                    · have hframe : frameOf (entry f (flagsOf pte)) = f :=
                        frameOf_entry (h₂.toTables.lt_top (by rw [hhand]; nofun)) (flagsOf_lt pte)
                      have hcopy : m₃.ram f = p := by
                        rw [hgrows.ram f (by rw [hhand]; nofun) (Ne.symm hdf) (by rw [hhand]; nofun)]
                        exact m₁.fill_ram_self f p
                      rw [hba, hnew, hframe, flagsOf_entry hpresent, hcopy, hpage, hram₁, hpte,
                        (h.built.source h₀ hd₀).2 a ha hp]
                      exact ⟨rfl, rfl⟩
                    · have hlt : b < a := by omega
                      have hown := h.frame (Nat.le_of_lt ha) hlt
                      have hne : frameOf (m.pte d b) ≠ d := by
                        intro heq
                        rw [heq, hd] at hown
                        cases hown
                      rw [hold b (by omega) hba,
                        hram _ (by rw [hown]; nofun) hne (by rw [hown]; nofun)]
                      exact h.copied b hlt }

/-- The loop of `copyuvm`. -/
theorem Copying.rounds (hsz : sz ≤ KERNBASE) (hp : ∀ b, b < pagesOf sz → m₀.Mapped pgdir b) :
    ∀ (fuel : Nat) {a : Nat} {own : Frame → Owner} {m : Mem},
      Copying L d pgdir own₀ m₀ a own m → a ≤ pagesOf sz → pagesOf sz < a + fuel →
      ∃ m' ok own' b, Mem.copyRounds L d pgdir sz fuel a m = some (m', ok) ∧
        Copying L d pgdir own₀ m₀ b own' m' ∧ b ≤ pagesOf sz ∧ (ok = true → b = pagesOf sz) := by
  have hmax := pagesOf_le hsz
  intro fuel
  induction fuel with
  | zero =>
      intro a own m _ ha hfuel
      omega
  | succ fuel ih =>
      intro a own m h ha hfuel
      unfold Mem.copyRounds
      by_cases hmore : a * PGSIZE < sz
      · have hpage : a < pagesOf sz := lt_pagesOf.mpr hmore
        have hsource := (h.built.source h₀ hd₀).1 a
        have hmapped : m.Mapped pgdir a := by
          unfold Mem.Mapped
          rw [hsource]
          exact hp a hpage
        have ht : m.HasTable pgdir a := by
          by_contra hnot
          unfold Mem.Mapped at hmapped
          rw [Mem.pte_of_absent (Bool.eq_false_iff.mpr hnot)] at hmapped
          cases hmapped
        have hentry : m.ram (frameOf (m.ram pgdir (PDX a))) (PTX a) = m₀.pte pgdir a := by
          rw [← Mem.pte_of_table ht, hsource]
        have hround : m.copyRound L d pgdir a = m.copyPage L d a (m₀.pte pgdir a) := by
          unfold Mem.copyRound
          rw [Mem.walkpgdir_table ht]
          simp only [Option.bind_some, hentry]
          exact if_pos (hp a hpage)
        obtain ⟨m₁, ok, own₁, hrun, hres⟩ := h.page h₀ hd₀ (by omega) (hp a hpage) rfl
        rw [if_pos hmore, hround, hrun, Option.bind_some]
        rcases hres with ⟨rfl, h₁⟩ | ⟨rfl, h₁⟩
        · have hnext : (a + 1) % 0x100000 = a + 1 := by omega
          rw [if_pos rfl, hnext]
          exact ih h₁ hpage (by omega)
        · exact ⟨m₁, false, own₁, a, rfl, h₁, ha, nofun⟩
      · have heq : a = pagesOf sz := by
          have hnot := mt lt_pagesOf.mp hmore
          omega
        rw [if_neg hmore]
        exact ⟨m, true, own, a, rfl, h, ha, fun _ => heq⟩

end Copying

/-- A new address space without user memory. -/
theorem Copying.start (h : Image L d own₀ m₀ 0 own m) : Copying L d pgdir own₀ m₀ 0 own m where
  pages := h.pages
  built := h.built
  safe := h.safe
  mapped := h.mapped
  copied b hb := absurd hb (Nat.not_lt_zero b)

/-- `copyuvm` does not panic: it copies the whole address space, or leaves no trace. -/
theorem Pages.copyuvm (hL : L.Ok) (h : Pages L own m) (hd : own pgdir = .dir) (hsz : sz ≤ KERNBASE)
    (hp : ∀ b, b < pagesOf sz → m.Mapped pgdir b) :
    ∃ m' r own', m.copyuvm L pgdir sz = some (m', r) ∧ Pages L own' m' ∧
      (r = none ∧ Restored own m own' m' ∨
        ∃ d, r = some d ∧ Copying L d pgdir own m (pagesOf sz) own' m') := by
  have hmax := pagesOf_le hsz
  obtain ⟨m₁, r, own₁, hset, h₁, hres⟩ := h.setupkvm hL
  unfold Mem.copyuvm
  rw [hset, Option.bind_some]
  rcases hres with ⟨rfl, hrestored⟩ | ⟨d, rfl, hbuilt, hsafe, hnone⟩
  · exact ⟨m₁, none, own₁, rfl, h₁, .inl ⟨rfl, hrestored⟩⟩
  · obtain ⟨m₂, ok, own₂, b, hrun, h₂, -, hend⟩ :=
      (Copying.start (Image.start hbuilt h₁ hsafe hnone)).rounds h hd hsz hp 0x100001
        (Nat.zero_le _) (by omega)
    unfold Mem.copyInto
    simp only [hrun, Option.bind_some]
    cases ok with
    | true =>
        rw [hend rfl] at h₂
        exact ⟨m₂, some d, own₂, rfl, h₂.pages, .inr ⟨d, rfl, h₂⟩⟩
    | false =>
        obtain ⟨m₃, own₃, hfree, h₃, hrestored⟩ := h₂.built.freevm h h₂.pages
        refine ⟨m₃, none, own₃, ?_, h₃, .inl ⟨rfl, hrestored⟩⟩
        simp only [hfree, Option.map_some, Bool.false_eq_true, if_false]

/-- The address space of `d` is a private copy of that of `pgdir`, which has not changed. -/
structure PrivateCopy (m : Mem) (pgdir : Frame) (sz : Nat) (m' : Mem) (d : Frame) : Prop where
  /-- the same pages, with the same permissions and the same bytes -/
  same : ∀ a, a < pagesOf sz → m'.Mapped d a ∧ flagsOf (m'.pte d a) = flagsOf (m.pte pgdir a) ∧
    m'.ram (frameOf (m'.pte d a)) = m.ram (frameOf (m.pte pgdir a))
  distinct : ∀ a b, a < pagesOf sz → b < pagesOf sz →
    frameOf (m'.pte d a) = frameOf (m'.pte d b) → a = b
  /-- no page of the copy is the directory, a table or a page of the parent -/
  separate : ∀ a, a < pagesOf sz → frameOf (m'.pte d a) ≠ pgdir ∧
    (∀ k, present (m.ram pgdir k) = true → frameOf (m'.pte d a) ≠ frameOf (m.ram pgdir k)) ∧
    ∀ b, b < 0x80000 → m.Mapped pgdir b → frameOf (m'.pte d a) ≠ frameOf (m.pte pgdir b)
  only : ∀ a, a < 0x80000 → m'.Mapped d a → a < pagesOf sz
  dir : m'.ram pgdir = m.ram pgdir
  tables : ∀ k, present (m.ram pgdir k) = true →
    m'.ram (frameOf (m.ram pgdir k)) = m.ram (frameOf (m.ram pgdir k))
  contents : ∀ b, b < 0x80000 → m.Mapped pgdir b →
    m'.ram (frameOf (m.pte pgdir b)) = m.ram (frameOf (m.pte pgdir b))

theorem Copying.privateCopy (h₀ : Pages L own₀ m₀) (hd₀ : own₀ pgdir = .dir) (hsz : sz ≤ KERNBASE)
    (h : Copying L d pgdir own₀ m₀ (pagesOf sz) own m) : PrivateCopy m₀ pgdir sz m d := by
  have hmax := pagesOf_le hsz
  -- what the parent has is not free, and what the copy has was
  have hkept : ∀ x, own₀ x ≠ .free → own x = own₀ x ∧ m.ram x = m₀.ram x := h.built.kept
  have hnot : ∀ a x, a < pagesOf sz → own₀ x ≠ .free → frameOf (m.pte d a) ≠ x := by
    intro a x ha hx heq
    apply h.built.not_belongs h₀ hx
    rw [← heq]
    exact .inr (.inr ⟨a, h.frame hmax ha⟩)
  have htable : ∀ k, present (m₀.ram pgdir k) = true → own₀ (frameOf (m₀.ram pgdir k)) ≠ .free := by
    intro k hk
    rw [h₀.toTables.own_table hd₀ hk]
    nofun
  have hpage : ∀ b, b < 0x80000 → m₀.Mapped pgdir b → own₀ (frameOf (m₀.pte pgdir b)) ≠ .free := by
    intro b hb hp
    rw [(h₀.page pgdir b _).mpr ⟨hd₀, hb, hp, rfl⟩]
    nofun
  have hdir : own₀ pgdir ≠ .free := by
    rw [hd₀]
    nofun
  exact
    { same := fun a ha => ⟨(h.mapped a (by omega)).mpr ha, h.copied a ha⟩
      distinct := by
        intro a b ha hb heq
        have hown := h.frame hmax ha
        rw [heq, h.frame hmax hb] at hown
        injection hown with _ hab
        exact hab.symm
      separate := fun a ha => ⟨hnot a _ ha hdir, fun k hk => hnot a _ ha (htable k hk),
        fun b hb hp => hnot a _ ha (hpage b hb hp)⟩
      only := fun a ha hp => (h.mapped a ha).mp hp
      dir := (hkept pgdir hdir).2
      tables := fun k hk => (hkept _ (htable k hk)).2
      contents := fun b hb hp => (hkept _ (hpage b hb hp)).2 }

/-- `copyuvm` does not panic, and the directory that it returns is that of a private copy. -/
theorem copyuvm_faithful (L : Layout) (own : Frame → Owner) (m : Mem) (pgdir : Frame) (sz : Nat)
    (hL : L.Ok) (h : Pages L own m) (hd : own pgdir = .dir) (hsz : sz ≤ KERNBASE)
    (hp : ∀ a, a < pagesOf sz → m.Mapped pgdir a) :
    ∃ m' r, m.copyuvm L pgdir sz = some (m', r) ∧ ∀ d, r = some d → PrivateCopy m pgdir sz m' d := by
  obtain ⟨m', r, own', hrun, -, hres⟩ := h.copyuvm hL hd hsz hp
  refine ⟨m', r, hrun, ?_⟩
  rintro d rfl
  rcases hres with ⟨hnone, -⟩ | ⟨d', hsome, hcopy⟩
  · cases hnone
  · cases hsome
    exact hcopy.privateCopy h hd hsz

/-! ## Enough pages -/

/-- A page is not copied only when no page was free but the one for the copy. -/
theorem Mem.Steady.copyPage {pte : Word} {ok : Bool} (h : m.Steady)
    (hrun : m.copyPage L d a pte = some (m', ok)) :
    m'.Steady ∧ (ok = false → ∃ f, ∀ x, x ∈ m'.freelist → x = f) := by
  unfold Mem.copyPage at hrun
  cases hk : m.kalloc with
  | mk m₁ r =>
      rw [hk] at hrun
      cases r with
      | none =>
          cases hrun
          exact ⟨h.kalloc hk, fun _ => ⟨0, of_mem_empty (h.kalloc_none hk) 0⟩⟩
      | some f =>
          obtain ⟨⟨m₂, ok₂⟩, hmap, hrest⟩ := Option.bind_eq_some_iff.mp hrun
          have hsteady := h.kalloc hk
          have hs₁ : (m₁.fill f (m₁.ram (frameOf pte))).Steady := hsteady
          have hs₂ := hs₁.mapLoop hmap
          cases ok₂ with
          | true =>
              cases hrest
              exact ⟨hs₂.1, nofun⟩
          | false =>
              unfold Mem.copyMapped at hrest
              obtain ⟨m₃, hfree, hlast⟩ := Option.map_eq_some_iff.mp hrest
              cases hlast
              unfold Mem.kfree at hfree
              split at hfree
              · cases hfree
              · cases hfree
                have hs₃ := hs₂.1
                refine ⟨hs₃, fun _ => ⟨f, ?_⟩⟩
                intro x hx
                rw [hs₂.2 rfl] at hx
                exact List.mem_singleton.mp hx

theorem Mem.Steady.copyRounds : ∀ (fuel : Nat) {m m' : Mem} {a : Nat} {ok : Bool},
    m.Steady → m.copyRounds L d pgdir sz fuel a = some (m', ok) →
    ok = false → ∃ f, ∀ x, x ∈ m'.freelist → x = f := by
  intro fuel
  induction fuel with
  | zero =>
      intro m m' a ok _ hrun
      cases hrun
  | succ fuel ih =>
      intro m m' a ok h hrun hok
      unfold Mem.copyRounds at hrun
      by_cases hmore : a * PGSIZE < sz
      · rw [if_pos hmore] at hrun
        obtain ⟨⟨m₁, ok₁⟩, hround, hrest⟩ := Option.bind_eq_some_iff.mp hrun
        unfold Mem.copyRound at hround
        obtain ⟨e, -, hpage⟩ := Option.bind_eq_some_iff.mp hround
        split at hpage
        swap
        · cases hpage
        have h₁ := h.copyPage hpage
        cases ok₁ with
        | true => exact ih h₁.1 hrest hok
        | false =>
            cases hrest
            exact h₁.2 rfl
      · rw [if_neg hmore] at hrun
        cases hrun
        cases hok

/-- `copyuvm` succeeds when there are enough pages. -/
theorem Pages.copyuvm_enough (hL : L.Ok) (h : Pages L own m) (hd : own pgdir = .dir)
    (hsz : sz ≤ KERNBASE) (hp : ∀ b, b < pagesOf sz → m.Mapped pgdir b) (hs : m.Steady)
    (hlen : pagesOf sz + 1026 < m.freelist.length) :
    ∃ m' d, m.copyuvm L pgdir sz = some (m', some d) := by
  have hmax := pagesOf_le hsz
  obtain ⟨m₁, d, own₁, hset, h₁, hs₁⟩ := h.setupkvm_enough hL hs (by omega)
  obtain ⟨m₂, ok, own₂, b, hrun, h₂, hb, -⟩ :=
    (Copying.start h₁).rounds h hd hsz hp 0x100001 (Nat.zero_le _) (by omega)
  cases ok with
  | true =>
      refine ⟨m₂, d, ?_⟩
      unfold Mem.copyuvm Mem.copyInto
      rw [hset, Option.bind_some]
      simp only [hrun, Option.bind_some, if_true]
  | false =>
      obtain ⟨f, hlast⟩ := hs₁.copyRounds _ hrun rfl
      have hle := h₂.built.exhausted h h₂.pages hlast (pagesOf sz) (by
        intro x b' hx
        obtain ⟨-, hlt, hmapped, -⟩ := (h₂.pages.page d b' x).mp hx
        have hcopied := (h₂.mapped b' hlt).mp hmapped
        omega)
      omega

/-- The process with one page is copied. -/
theorem copyuvm_faithful_page :
    ∃ m' d, ({ onePageProcess.mem with freelist := List.range' 0x300 2048 } : Mem).copyuvm
      onePageLayout 0x200 4096 = some (m', some d) ∧
      PrivateCopy { onePageProcess.mem with freelist := List.range' 0x300 2048 } 0x200 4096 m' d := by
  have h := onePageProcess_pages.plentiful rfl
  have hp : ∀ b, b < pagesOf 4096 →
      ({ onePageProcess.mem with freelist := List.range' 0x300 2048 } : Mem).Mapped 0x200 b :=
    fun b hb => (onePageProcess_ok.mapped b (Nat.lt_trans hb (by decide))).mpr hb
  have hlen : pagesOf 4096 + 1026 < (List.range' 0x300 2048).length := by
    rw [List.length_range']
    decide
  obtain ⟨m₁, d, henough⟩ := h.copyuvm_enough onePageLayout_ok plentifulOwner_dir (by decide) hp
    (fun _ => rfl) hlen
  obtain ⟨m', r, hrun, hcopy⟩ := copyuvm_faithful onePageLayout plentifulOwner _ 0x200 4096
    onePageLayout_ok h plentifulOwner_dir (by decide) hp
  rw [henough] at hrun
  cases hrun
  exact ⟨m₁, d, henough, hcopy d rfl⟩

end OsWork.Ports.PageTables

import OsWork.Ports.EnoughPages

/-!
# The addresses of `mappages`

`mappages` and `setupkvm` on addresses in bytes.  The loop of `mappages` ends when its
address is that of the last page; both are rounded down, and the address wraps at `2 ^ 32`,
so the last page may be the last one of the address space.  `PageTables` counts the pages of
the loop beforehand; here the loop is the one of the source, with a bound on its rounds, and
the two come to the same.

## Main results

* `mapAddresses_eq` — the loop by addresses is the loop by pages.
* `Tables.mappagesAt` — what is translated after `mappages`.
* `mappages_translates` — this, and the same for all entries of `kmap` in `setupkvm`.
-/

namespace OsWork.Ports.PageTables

open OsWork.Ports.ProcTable (Word)
open Function (update)

/-! ## The source -/

/-- Why a call does not return. -/
inductive Stop
  | rounds
  | panic
deriving DecidableEq

/-- A call that may panic. -/
def orPanic {A : Type} : Option A → Except Stop A
  | some a => .ok a
  | none => .error .panic

/-- An address after a sum. -/
def wrap (x : Nat) : Nat := x % 0x100000000

/-- `PGROUNDDOWN` -/
def PGROUNDDOWN (x : Nat) : Nat := x / PGSIZE * PGSIZE

namespace Mem

variable (L : Layout) (m : Mem)

/-- The loop of `mappages` with the address `a` and the physical address `pa`; `false` when
`walkpgdir` fails. -/
def mapAddresses (d : Frame) (perm : Word) (last : Nat) :
    Nat → Nat → Nat → Mem → Except Stop (Mem × Bool)
  | 0, _, _, _ => .error .rounds
  | n + 1, a, pa, m =>
      match m.walkpgdirAlloc d (a / PGSIZE) with
      | (m, none) => .ok (m, false)
      | (m, some (t, k)) =>
          -- panic: remap
          if present (m.ram t k) then .error .panic
          else if a = last then .ok (m.store t k (BitVec.ofNat 32 pa ||| perm ||| PTE_P), true)
          else
            mapAddresses d perm last n (wrap (a + PGSIZE)) (wrap (pa + PGSIZE))
              (m.store t k (BitVec.ofNat 32 pa ||| perm ||| PTE_P))

/-- `mappages(d, va, size, pa, perm)` -/
def mappagesAt (n : Nat) (d : Frame) (va size pa : Nat) (perm : Word) :
    Except Stop (Mem × Bool) :=
  mapAddresses d perm (PGROUNDDOWN (wrap (va + size + 0xFFFFFFFF))) n (PGROUNDDOWN va) pa m

/-- The loop of `setupkvm`. -/
def setupLoopAt (n : Nat) (d : Frame) : List KernelMap → Mem → Except Stop (Mem × Bool)
  | [], m => .ok (m, true)
  | k :: ks, m => do
      let (m, ok) ← m.mappagesAt n d (k.virt * PGSIZE) k.size (k.physStart * PGSIZE) k.perm
      if ok then setupLoopAt n d ks m else .ok (m, false)

/-- `setupkvm` -/
def setupkvmAt (n : Nat) : Except Stop (Mem × Option Frame) :=
  match m.kalloc with
  | (m, none) => .ok (m, none)
  | (m, some d) => do
      let (m, ok) ← setupLoopAt n d (kmap L) (m.fill d fun _ => 0)
      if ok then .ok (m, some d)
      else do
        let m ← orPanic (m.freevm L d)
        .ok (m, none)

/-- The two-level walk: the physical page of a virtual page, and its flags. -/
def translate (d : Frame) (a : Nat) : Option (Frame × Word) :=
  match m.walkpgdir d a with
  | some (t, k) =>
      if present (m.ram t k) then some (frameOf (m.ram t k), flagsOf (m.ram t k)) else none
  | none => none

end Mem

variable {L : Layout} {own : Frame → Owner} {m m' : Mem} {d : Frame} {perm : Word}

/-! ## The loop -/

/-- A page of the address space is known by its address. -/
theorem address_inj {a b : Nat} : a * PGSIZE = b * PGSIZE ↔ a = b :=
  Nat.mul_left_inj (by decide)

theorem page_of_address (a : Nat) : a * PGSIZE / PGSIZE = a := Nat.mul_div_cancel a (by decide)

theorem entry_of_address {p pa : Nat} (hpa : wrap pa = wrap (p * PGSIZE)) (perm : Word) :
    BitVec.ofNat 32 pa ||| perm ||| PTE_P = entry p perm := by
  have hword : BitVec.ofNat 32 pa = BitVec.ofNat 32 (p * PGSIZE) := by
    apply BitVec.eq_of_toNat_eq
    rw [BitVec.toNat_ofNat, BitVec.toNat_ofNat]
    exact hpa
  rw [hword]
  rfl

/-- As long as the pages fit, the loop ends where the count does. -/
theorem Mem.mapAddresses_eq (d : Frame) (perm : Word) (k : Nat) :
    ∀ (n a p pa : Nat) (m : Mem), k < n → a + k < 0x100000 → wrap pa = wrap (p * PGSIZE) →
      mapAddresses d perm ((a + k) * PGSIZE) n (a * PGSIZE) pa m =
        orPanic (m.mapLoop d perm k a p) := by
  induction k with
  | zero =>
      intro n a p pa m hn ha hpa
      obtain ⟨n, rfl⟩ := Nat.exists_eq_succ_of_ne_zero (Nat.ne_of_gt hn)
      unfold mapAddresses Mem.mapLoop
      rw [page_of_address, entry_of_address hpa]
      cases hw : m.walkpgdirAlloc d a with
      | mk m₁ r =>
          cases r with
          | none => rfl
          | some tk =>
              dsimp only
              by_cases hp : present (m₁.ram tk.1 tk.2) = true
              · rw [if_pos hp, if_pos hp]
                rfl
              · rw [if_neg hp, if_neg hp, if_pos (show a * PGSIZE = (a + 0) * PGSIZE from rfl)]
                rfl
  | succ k ih =>
      intro n a p pa m hn ha hpa
      obtain ⟨n, rfl⟩ := Nat.exists_eq_succ_of_ne_zero (Nat.ne_of_gt (Nat.zero_lt_of_lt hn))
      have hne : a * PGSIZE ≠ (a + (k + 1)) * PGSIZE := by
        rw [Ne, address_inj]
        omega
      have hnext : wrap (a * PGSIZE + PGSIZE) = (a + 1) * PGSIZE := by
        unfold wrap PGSIZE
        omega
      have hpa' : wrap (wrap (pa + PGSIZE)) = wrap ((p + 1) * PGSIZE) := by
        unfold wrap PGSIZE at *
        omega
      unfold mapAddresses Mem.mapLoop
      rw [page_of_address, entry_of_address hpa]
      cases hw : m.walkpgdirAlloc d a with
      | mk m₁ r =>
          cases r with
          | none => rfl
          | some tk =>
              dsimp only
              by_cases hp : present (m₁.ram tk.1 tk.2) = true
              · rw [if_pos hp, if_pos hp]
                rfl
              · rw [if_neg hp, if_neg hp, if_neg hne, hnext]
                have hrest := ih n (a + 1) (p + 1) (wrap (pa + PGSIZE))
                  (m₁.store tk.1 tk.2 (entry p perm)) (Nat.lt_of_succ_lt_succ hn) (by omega) hpa'
                rw [show a + 1 + k = a + (k + 1) by omega] at hrest
                exact hrest

/-- The pages that a range of bytes needs. -/
def pagesFor (size : Nat) : Nat := (size + (PGSIZE - 1)) / PGSIZE

/-- The last byte of a range lies in its last page, also at the end of the address space. -/
theorem last_page {va size : Nat} (hva : va % PGSIZE = 0) (hsize : 0 < size)
    (hend : va + size ≤ 0x100000000) :
    PGROUNDDOWN (wrap (va + size + 0xFFFFFFFF)) =
      (va / PGSIZE + (pagesFor size - 1)) * PGSIZE := by
  have hbyte : wrap (va + size + 0xFFFFFFFF) = va + (size - 1) := by
    unfold wrap
    omega
  have hpage : (va + (size - 1)) / PGSIZE = va / PGSIZE + (size - 1) / PGSIZE := by
    rw [← Nat.div_add_mod va PGSIZE, hva, Nat.add_zero, Nat.mul_add_div (by decide),
      Nat.mul_div_cancel_left _ (by decide)]
  have hpages : (size - 1) / PGSIZE = pagesFor size - 1 := by
    unfold pagesFor PGSIZE
    omega
  unfold PGROUNDDOWN
  rw [hbyte, hpage, hpages]

theorem pagesFor_pos {size : Nat} (hsize : 0 < size) : 0 < pagesFor size := by
  unfold pagesFor PGSIZE
  omega

/-- A range that does not wrap has its pages in the address space. -/
theorem pages_fit {va size : Nat} (hva : va % PGSIZE = 0) (hsize : 0 < size)
    (hend : va + size ≤ 0x100000000) : va / PGSIZE + (pagesFor size - 1) < 0x100000 := by
  change va % 4096 = 0 at hva
  change va / 4096 + ((size + 4095) / 4096 - 1) < 0x100000
  omega

theorem Mem.mappagesAt_eq {n va size pa : Nat} (hva : va % PGSIZE = 0) (hpa : pa % PGSIZE = 0)
    (hsize : 0 < size) (hend : va + size ≤ 0x100000000) (hn : pagesFor size ≤ n) :
    m.mappagesAt n d va size pa perm =
      orPanic (m.mapLoop d perm (pagesFor size - 1) (va / PGSIZE) (pa / PGSIZE)) := by
  have hphys : wrap pa = wrap (pa / PGSIZE * PGSIZE) := by
    rw [Nat.div_mul_cancel (Nat.dvd_of_mod_eq_zero hpa)]
  have hpos := pagesFor_pos hsize
  unfold Mem.mappagesAt
  rw [show PGROUNDDOWN va = va / PGSIZE * PGSIZE from rfl, last_page hva hsize hend]
  exact mapAddresses_eq d perm _ n _ _ pa m (by omega) (pages_fit hva hsize hend) hphys

/-! ## Translations -/

theorem Mem.translate_eq (m : Mem) (d : Frame) (a : Nat) :
    m.translate d a =
      if present (m.pte d a) then some (frameOf (m.pte d a), flagsOf (m.pte d a)) else none := by
  unfold Mem.translate Mem.walkpgdir Mem.pte
  by_cases hp : present (m.ram d (PDX a)) = true
  · rw [if_pos hp, if_pos hp]
  · rw [if_neg hp, if_neg hp]
    rfl

theorem Mem.translate_congr {e : Frame} {a : Nat} (h : m'.pte e a = m.pte e a) :
    m'.translate e a = m.translate e a := by
  rw [m'.translate_eq, m.translate_eq, h]

/-- Physical addresses wrap, too. -/
theorem frameOf_entry_wrap (f : Nat) {perm : Word} (hperm : perm.toNat < 4096) :
    frameOf (entry f perm) = f % 0x100000 := by
  have hsame : entry f perm = entry (f % 0x100000) perm := by
    apply entry_of_address
    unfold wrap PGSIZE
    omega
  rw [hsame]
  exact frameOf_entry (Nat.mod_lt _ (by decide)) hperm

theorem flagsOf_entry_perm (f : Nat) {perm : Word} (hperm : perm.toNat < 4096) :
    flagsOf (entry f perm) = perm ||| PTE_P := by
  apply BitVec.eq_of_toNat_eq
  unfold flagsOf entry PTE_P PGSIZE
  rw [BitVec.toNat_and, BitVec.toNat_or, BitVec.toNat_or, BitVec.toNat_or, BitVec.toNat_ofNat,
    show (0xFFF : Word).toNat = 2 ^ 12 - 1 from rfl, Nat.and_two_pow_sub_one_eq_mod,
    Nat.or_mod_two_pow, Nat.or_mod_two_pow]
  have hframe : f * 4096 % 2 ^ 32 % 2 ^ 12 = 0 := by omega
  rw [hframe, Nat.zero_or, Nat.mod_eq_of_lt (show perm.toNat < 2 ^ 12 from hperm)]
  rfl

/-- The first `j` pages from `va` on are translated to those from `pa` on, and all other
translations are as they were. -/
structure Translated (own : Frame → Owner) (m : Mem) (d : Frame) (va pa : Nat) (perm : Word)
    (j : Nat) (m' : Mem) : Prop where
  mapped : ∀ k, k < j → m'.translate d (va / PGSIZE + k) =
    some ((pa / PGSIZE + k) % 0x100000, perm ||| PTE_P)
  kept : ∀ e b, own e = .dir → b < 0x100000 →
    (e = d → b < va / PGSIZE ∨ va / PGSIZE + j ≤ b) → m'.translate e b = m.translate e b

/-- The call has returned, with the whole range translated, or with a first part of it when a
`kalloc` has failed. -/
def MapsRange (L : Layout) (own : Frame → Owner) (m : Mem) (d : Frame) (va size pa : Nat)
    (perm : Word) (r : Except Stop (Mem × Bool)) : Prop :=
  ∃ m' ok own' j, r = .ok (m', ok) ∧ Tables L own' m' ∧ (∀ e, own e = .dir → own' e = .dir) ∧
    j ≤ pagesFor size ∧ (ok = true ↔ j = pagesFor size) ∧ m.Called m' ok ∧
      Translated own m d va pa perm j m'

/-- `mappages` translates its range, or a first part of it when there is no memory. -/
theorem Tables.mappagesAt (h : Tables L own m) (hd : own d = .dir) {n va size pa : Nat}
    (hva : va % PGSIZE = 0) (hpa : pa % PGSIZE = 0) (hsize : 0 < size)
    (hend : va + size ≤ 0x100000000) (hperm : perm.toNat < 4096)
    (habsent : ∀ k, k < pagesFor size → m.translate d (va / PGSIZE + k) = none)
    (hn : pagesFor size ≤ n) :
    MapsRange L own m d va size pa perm (m.mappagesAt n d va size pa perm) := by
  have hpos := pagesFor_pos hsize
  have hfit := pages_fit hva hsize hend
  have hnot : ∀ b, va / PGSIZE ≤ b → b ≤ va / PGSIZE + (pagesFor size - 1) → ¬ m.Mapped d b := by
    intro b hlow hhigh hmapped
    have hnone := habsent (b - va / PGSIZE) (by omega)
    rw [show va / PGSIZE + (b - va / PGSIZE) = b by omega, m.translate_eq,
      if_pos (show present (m.pte d b) = true from hmapped)] at hnone
    cases hnone
  obtain ⟨m', ok, own', j, hrun, hj, hok, hmaps⟩ :=
    h.mapLoop perm (v := fun b => entry (pa / PGSIZE + (b - va / PGSIZE)) perm)
      (pagesFor size - 1) (pa / PGSIZE) hd hfit hnot (fun _ _ _ => rfl)
  refine ⟨m', ok, own', j, ?_, hmaps.tables, ?_, by omega, ?_, Mem.called_mapLoop _ _ _ hrun, ?_⟩
  · rw [Mem.mappagesAt_eq hva hpa hsize hend hn, hrun]
    rfl
  · intro e he
    rw [hmaps.grows.of_ne_free (by rw [he]; exact nofun), he]
  · rw [hok]
    omega
  · constructor
    · intro k hk
      have hb : va / PGSIZE + k < 0x100000 := by omega
      have hin : va / PGSIZE ≤ va / PGSIZE + k ∧ va / PGSIZE + k < va / PGSIZE + j := by omega
      rw [m'.translate_eq, hmaps.pte _ hb, if_pos hin, if_pos (present_entry _ _),
        frameOf_entry_wrap _ hperm, flagsOf_entry_perm _ hperm, Nat.add_sub_cancel_left]
    · intro e b he hb hout
      apply Mem.translate_congr
      by_cases hed : e = d
      · have hrange := hout hed
        rw [hed, hmaps.pte b hb, if_neg (by omega)]
      · exact hmaps.grows.pte_other h hd he hed b

/-! ## `setupkvm` -/

theorem pagesFor_pages (n : Nat) : pagesFor ((n + 1) * 4096) = n + 1 := by
  unfold pagesFor PGSIZE
  omega

theorem kmap_perm : ∀ k ∈ kmap L, k.perm.toNat < 4096 := by
  intro k hk
  have hwrite : PTE_W.toNat < 4096 := by decide
  have hread : (0 : Word).toNat < 4096 := by decide
  unfold kmap at hk
  simp only [List.mem_cons, List.not_mem_nil, or_false] at hk
  rcases hk with rfl | rfl | rfl | rfl
  · exact hwrite
  · exact hread
  · exact hwrite
  · exact hwrite

/-- An entry of `kmap` by addresses is the entry by pages. -/
theorem Mem.mappagesAt_kernel {k : KernelMap} {j n : Nat} (hsize : k.size = (j + 1) * 4096)
    (htop : k.virt + j < 0x100000) (hn : 0x100000 ≤ n) :
    m.mappagesAt n d (k.virt * PGSIZE) k.size (k.physStart * PGSIZE) k.perm =
      orPanic (m.mappages d k.virt k.size k.physStart k.perm) := by
  have hpages : pagesFor k.size = j + 1 := by
    rw [hsize]
    exact pagesFor_pages j
  have hend : k.virt * PGSIZE + k.size ≤ 0x100000000 := by
    rw [hsize]
    unfold PGSIZE
    omega
  rw [Mem.mappagesAt_eq (Nat.mul_mod_left _ _) (Nat.mul_mod_left _ _) (by omega) hend
    (by omega), page_of_address, page_of_address, hpages, Nat.add_sub_cancel,
    Mem.mappages_pages hsize htop]

theorem Mem.setupLoopAt_eq {n : Nat} (hn : 0x100000 ≤ n) :
    ∀ (ks : List KernelMap) (lo : Nat) (m : Mem), Rising lo ks →
      setupLoopAt n d ks m = orPanic (setupLoop d ks m) := by
  intro ks
  induction ks with
  | nil =>
      intro lo m _
      rfl
  | cons k ks ih =>
      intro lo m hrising
      obtain ⟨-, -, j, hsize, htop, hrest⟩ := hrising
      unfold setupLoopAt setupLoop
      rw [mappagesAt_kernel hsize htop hn]
      cases m.mappages d k.virt k.size k.physStart k.perm with
      | none => rfl
      | some r =>
          rcases r with ⟨m₁, _ | _⟩
          · rfl
          · exact ih _ m₁ hrest

theorem Mem.setupkvmAt_eq (hL : L.Ok) {n : Nat} (hn : 0x100000 ≤ n) :
    m.setupkvmAt L n = orPanic (m.setupkvm L) := by
  unfold setupkvmAt setupkvm
  cases m.kalloc with
  | mk m₁ r =>
      cases r with
      | none => rfl
      | some d =>
          simp only [setupLoopAt_eq hn (kmap L) 0x80000 _ (kmap_rising hL)]
          cases setupLoop d (kmap L) (m₁.fill d fun _ => 0) with
          | none => rfl
          | some r =>
              rcases r with ⟨m₂, _ | _⟩
              · change (orPanic (m₂.freevm L d) >>= fun m => .ok (m, none)) =
                  orPanic ((m₂.freevm L d).map fun m => (m, none))
                cases m₂.freevm L d with
                | none => rfl
                | some m₃ => rfl
              · rfl

/-- The directory has the entries of the list and is otherwise as it was. -/
structure Entered (ks : List KernelMap) (d : Frame) (m m' : Mem) : Prop where
  inside : ∀ k, k ∈ ks → ∀ i, i < pagesFor k.size →
    m'.pte d (k.virt + i) = entry (k.physStart + i) k.perm
  outside : ∀ b, b < 0x100000 → (∀ k, k ∈ ks → b < k.virt ∨ k.virt + pagesFor k.size ≤ b) →
    m'.pte d b = m.pte d b

/-- When the loop of `setupkvm` is through, all entries are in the directory. -/
theorem Tables.setupLoop_entered :
    ∀ (ks : List KernelMap) (lo : Nat) {own : Frame → Owner} {m m' : Mem}, Tables L own m →
      own d = .dir → Rising lo ks → (∀ b, lo ≤ b → b < 0x100000 → ¬ m.Mapped d b) →
      Mem.setupLoop d ks m = some (m', true) →
      Entered ks d m m' ∧ ∀ b, b < lo → b < 0x100000 → m'.pte d b = m.pte d b := by
  intro ks
  induction ks with
  | nil =>
      intro lo own m m' _ _ _ _ hrun
      cases hrun
      exact ⟨⟨fun k hk => absurd hk List.not_mem_nil, fun _ _ _ => rfl⟩, fun _ _ _ => rfl⟩
  | cons k ks ih =>
      intro lo own m m' h hd hrising habsent hrun
      obtain ⟨hvirt, -, n, hsize, htop, hrest⟩ := hrising
      obtain ⟨m₁, ok₁, own₁, j, hrun₁, hj, hok, hmaps⟩ :=
        h.mapLoop k.perm (v := fun b => entry (k.physStart + (b - k.virt)) k.perm) n
          k.physStart hd htop
          (fun b hlow hb => habsent b (by omega) (by omega)) (fun _ _ _ => rfl)
      have hpages : pagesFor k.size = n + 1 := by
        rw [hsize]
        exact pagesFor_pages n
      unfold Mem.setupLoop at hrun
      rw [Mem.mappages_pages hsize htop, hrun₁, Option.bind_some] at hrun
      cases ok₁ with
      | false => cases hrun
      | true =>
          have hall : j = n + 1 := hok.mp rfl
          have hpte₁ := hmaps.pte
          rw [hall] at hpte₁
          have hd₁ : own₁ d = .dir := by
            have hused : own d ≠ .free := by
              rw [hd]
              exact Owner.noConfusion
            rw [hmaps.grows.of_ne_free hused]
            exact hd
          obtain ⟨hentered, hbelow⟩ := ih (k.virt + n + 1) hmaps.tables hd₁ hrest
            (by
              intro b hlow hb
              unfold Mem.Mapped
              rw [hpte₁ b hb, if_neg (by omega)]
              exact habsent b (by omega) hb) hrun
          refine ⟨⟨?_, ?_⟩, ?_⟩
          · intro k' hk' i hi
            rcases List.mem_cons.mp hk' with rfl | htail
            · rw [hpages] at hi
              rw [hbelow _ (by omega) (by omega), hpte₁ _ (by omega), if_pos (by omega),
                Nat.add_sub_cancel_left]
            · exact hentered.inside k' htail i hi
          · intro b hb hout
            have hhead := hout k (List.mem_cons_self ..)
            rw [hpages] at hhead
            rw [hentered.outside b hb fun k' hk' => hout k' (List.mem_cons_of_mem _ hk'),
              hpte₁ b hb, if_neg (by omega)]
          · intro b hlow hb
            rw [hbelow b (by omega) hb, hpte₁ b hb, if_neg (by omega)]

/-- A new directory translates the pages of `kmap` and no others. -/
structure KernelMapped (L : Layout) (d : Frame) (m : Mem) : Prop where
  inside : ∀ k, k ∈ kmap L → ∀ i, i < pagesFor k.size →
    m.translate d (k.virt + i) = some ((k.physStart + i) % 0x100000, k.perm ||| PTE_P)
  outside : ∀ b, b < 0x100000 →
    (∀ k, k ∈ kmap L → b < k.virt ∨ k.virt + pagesFor k.size ≤ b) → m.translate d b = none

theorem Pages.setupkvm_mapped (hL : L.Ok) (h : Pages L own m)
    (hrun : m.setupkvm L = some (m', some d)) : KernelMapped L d m' := by
  unfold Mem.setupkvm at hrun
  cases hk : m.kalloc with
  | mk m₁ r =>
      cases r with
      | none =>
          rw [hk] at hrun
          cases hrun
      | some e =>
          obtain ⟨-, h₁⟩ := h.kalloc hk
          have hhand : update own e .hand e = .hand := Function.update_self e _ own
          have h₂ := (h₁.fill (p := fun _ => 0) (f := e) (by rw [hhand]; rfl)).putDir hhand
            (m₁.fill_ram_self e _)
          have hzero : ∀ b, (m₁.fill e fun _ => 0).pte e b = 0 := by
            intro b
            apply Mem.pte_of_absent
            rw [m₁.fill_ram_self]
            exact present_zero
          have hnone : ∀ b, ¬ (m₁.fill e fun _ => 0).Mapped e b := by
            intro b
            unfold Mem.Mapped
            rw [hzero]
            nofun
          rw [hk] at hrun
          obtain ⟨⟨m₂, ok⟩, hloop, hret⟩ := Option.bind_eq_some_iff.mp hrun
          cases ok with
          | false =>
              dsimp only at hret
              rw [if_neg (by decide)] at hret
              obtain ⟨_, -, heq⟩ := Option.map_eq_some_iff.mp hret
              cases heq
          | true =>
              cases hret
              have hentered := (h₂.toTables.setupLoop_entered (kmap L) 0x80000
                (Function.update_self ..) (kmap_rising hL) (fun b _ _ => hnone b) hloop).1
              constructor
              · intro k hk i hi
                rw [Mem.translate_eq, hentered.inside k hk i hi, if_pos (present_entry _ _),
                  frameOf_entry_wrap _ (kmap_perm k hk), flagsOf_entry_perm _ (kmap_perm k hk)]
              · intro b hb hout
                rw [Mem.translate_eq, hentered.outside b hb hout, hzero,
                  if_neg (by rw [present_zero]; decide)]

/-- The translations of all directories in use are as they were. -/
theorem Pages.translate_kept (h : Pages L own m)
    (hram : ∀ f, own f ≠ .free → m'.ram f = m.ram f) {e : Frame} (he : own e = .dir) (b : Nat) :
    m'.translate e b = m.translate e b := by
  apply Mem.translate_congr
  apply h.toTables.pte_congr he (hram e (by rw [he]; nofun))
  intro f k hf
  exact hram f (by rw [hf]; nofun)

/-- `mappages` maps its range and nothing else, or a first part of it when a `kalloc` has
failed; neither it nor `setupkvm` panics, and a new directory, which there is when there are
enough pages, has exactly the pages of `kmap`. -/
theorem mappages_translates (L : Layout) (n : Nat) (hn : 0x100000 ≤ n) :
    (∀ own m d va size pa perm, Tables L own m → own d = .dir →
      va % PGSIZE = 0 → pa % PGSIZE = 0 → 0 < size → va + size ≤ 0x100000000 →
      perm.toNat < 4096 →
      (∀ k, k < pagesFor size → m.translate d (va / PGSIZE + k) = none) →
      MapsRange L own m d va size pa perm (m.mappagesAt n d va size pa perm)) ∧
    (L.Ok → ∀ own m, Pages L own m →
      ∃ m' r own', m.setupkvmAt L n = .ok (m', r) ∧ Pages L own' m' ∧
        (∀ e b, own e = .dir → m'.translate e b = m.translate e b) ∧
        (m.Steady → 1026 < m.freelist.length → r ≠ none) ∧
        ∀ d, r = some d → KernelMapped L d m') := by
  constructor
  · intro own m d va size pa perm h hd hva hpa hsize hend hperm habsent
    have hcount : pagesFor size - 1 < 0x100000 :=
      Nat.lt_of_le_of_lt (Nat.le_add_left _ _) (pages_fit hva hsize hend)
    exact h.mappagesAt hd hva hpa hsize hend hperm habsent (by omega)
  · intro hL own m h
    obtain ⟨m', r, own', hrun, h', hres⟩ := h.setupkvm hL
    refine ⟨m', r, own', ?_, h', ?_, ?_, ?_⟩
    · rw [Mem.setupkvmAt_eq hL hn, hrun]
      rfl
    · intro e b he
      apply h.translate_kept _ he
      rcases hres with ⟨-, hrestored⟩ | ⟨f, -, hbuilt, -⟩
      · exact hrestored.ram
      · exact fun f hf => (hbuilt.kept f hf).2
    · intro hs hlen hnone
      obtain ⟨m₁, d, own₁, hset, -⟩ := h.setupkvm_enough hL hs hlen
      rw [hset, hnone] at hrun
      cases hrun
    · intro d hd
      rw [hd] at hrun
      exact h.setupkvm_mapped hL hrun

/-- The process with one page, and 2048 free pages. -/
def plentifulMem : Mem := { onePageProcess.mem with freelist := List.range' 0x300 2048 }

/-- Two pages after the only one of the process, and a new directory. -/
theorem mappages_translates_two_pages :
    (∃ m', plentifulMem.mappagesAt 0x100000 0x200 0x1000 8192 0x5000 PTE_U = .ok (m', true) ∧
      Translated plentifulOwner plentifulMem 0x200 0x1000 0x5000 PTE_U 2 m') ∧
    ∃ m' d, plentifulMem.setupkvmAt onePageLayout 0x100000 = .ok (m', some d) ∧
      KernelMapped onePageLayout d m' := by
  have hpages : Pages onePageLayout plentifulOwner plentifulMem :=
    onePageProcess_pages.plentiful rfl
  obtain ⟨hmap, hkernel⟩ := mappages_translates onePageLayout 0x100000 (Nat.le_refl _)
  constructor
  · obtain ⟨m', ok, own', j, hrun, -, -, -, hok, -, htrans⟩ :=
      hmap plentifulOwner plentifulMem 0x200 0x1000 8192 0x5000 PTE_U hpages.toTables
        plentifulOwner_dir (by decide) (by decide) (by decide) (by decide) (by decide) (by
          intro k hk
          have hk2 : k < 2 := hk
          have hpte : plentifulMem.pte 0x200 (0x1000 / PGSIZE + k) = 0 := by
            rcases (show k = 0 ∨ k = 1 by omega) with rfl | rfl <;> decide
          rw [Mem.translate_eq, hpte, if_neg (by decide)])
    have hall : (plentifulMem.mappagesAt 0x100000 0x200 0x1000 8192 0x5000 PTE_U).map Prod.snd =
        .ok true := by
      rfl
    rw [hrun] at hall
    obtain rfl : ok = true := by
      injection hall
    obtain rfl : j = 2 := hok.mp rfl
    exact ⟨m', hrun, htrans⟩
  · obtain ⟨m', r, own', hrun, -, -, hsome, hnew⟩ :=
      hkernel onePageLayout_ok plentifulOwner plentifulMem hpages
    have hlen : plentifulMem.freelist.length = 2048 := List.length_range'
    cases r with
    | none => exact absurd rfl (hsome (fun _ => rfl) (by rw [hlen]; decide))
    | some d => exact ⟨m', d, hrun, hnew d rfl⟩

end OsWork.Ports.PageTables

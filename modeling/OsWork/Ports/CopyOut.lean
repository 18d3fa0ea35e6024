import OsWork.Ports.ProcSizes

/-!
# `copyout`

`uva2ka` and `copyout` of `vm.c`.  An address is a number below `2 ^ 32`, and the
address that `copyout` goes on with is computed modulo `2 ^ 32`; the buffer that is
copied from is a list of bytes.  `none` is the result of a read through the null
pointer that `walkpgdir` returns for a page whose table is absent.

## Main results

* `copyout_user`, `copyout_stuck` — what `copyout` does when all the bytes of its range
  are in user pages, and when one is not.
* `copyout_checked` — `copyout` is checked exactly if the first page of the range that is
  no user page has a table.
-/

namespace OsWork.Ports.PageTables

open OsWork.Ports.ProcTable (Word)
open Function (update)

/-! ## Bytes of pages -/

abbrev Byte := BitVec 8

/-- The byte `j` of a page. -/
def byteAt (p : Page) (j : Nat) : Byte := (p (Fin.ofNat 1024 (j / 4))).extractLsb' (8 * (j % 4)) 8

/-- The page with given bytes. -/
def ofBytes (g : Nat → Byte) : Page := fun k =>
  g (4 * k + 3) ++ g (4 * k + 2) ++ g (4 * k + 1) ++ g (4 * k)

/-- The byte `r` of a word that is put together from four. -/
theorem extract_append (a b c d : Byte) {r : Nat} (hr : r < 4) :
    (a ++ b ++ c ++ d).extractLsb' (8 * r) 8 =
      if r = 0 then d else if r = 1 then c else if r = 2 then b else a := by
  apply BitVec.eq_of_getLsbD_eq
  intro i hi
  simp only [BitVec.getLsbD_extractLsb', BitVec.getLsbD_append, hi, decide_true, Bool.true_and]
  have hcases : r = 0 ∨ r = 1 ∨ r = 2 ∨ r = 3 := by omega
  rcases hcases with rfl | rfl | rfl | rfl
  · rw [if_pos (by omega), if_pos rfl, Nat.mul_zero, Nat.zero_add]
  · rw [if_neg (by omega), if_pos (by omega), if_neg (by decide), if_pos rfl]
    congr 1
    omega
  · rw [if_neg (by omega), if_neg (by omega), if_pos (by omega), if_neg (by decide),
      if_neg (by decide), if_pos rfl]
    congr 1
    omega
  · rw [if_neg (by omega), if_neg (by omega), if_neg (by omega), if_neg (by decide),
      if_neg (by decide), if_neg (by decide)]
    congr 1
    omega

theorem byteAt_ofBytes (g : Nat → Byte) {j : Nat} (hj : j < 4096) :
    byteAt (ofBytes g) j = g j := by
  have hk : ((Fin.ofNat 1024 (j / 4) : Fin 1024) : Nat) = j / 4 := by
    show j / 4 % 1024 = j / 4
    omega
  unfold byteAt ofBytes
  rw [hk, extract_append _ _ _ _ (Nat.mod_lt j (by decide))]
  have hcases : j % 4 = 0 ∨ j % 4 = 1 ∨ j % 4 = 2 ∨ j % 4 = 3 := by omega
  rcases hcases with hr | hr | hr | hr <;> rw [hr]
  · rw [if_pos rfl]
    congr 1
    omega
  · rw [if_neg (by decide), if_pos rfl]
    congr 1
    omega
  · rw [if_neg (by decide), if_neg (by decide), if_pos rfl]
    congr 1
    omega
  · rw [if_neg (by decide), if_neg (by decide), if_neg (by decide)]
    congr 1
    omega

/-! ## The source -/

/-- `PTE_P` and `PTE_U`: what `uva2ka` asks of an entry. -/
def userAccess (w : Word) : Bool := present w && user w

namespace Mem

variable (m : Mem)

/-- `memmove` of the bytes `buf` to the address `o` of the frame `f`. -/
def write (f : Frame) (o : Nat) (buf : List Byte) : Mem :=
  m.fill f (ofBytes fun j =>
    if o ≤ j ∧ j < o + buf.length then buf.getD (j - o) 0 else byteAt (m.ram f) j)

/-- `uva2ka` of the virtual page `a`: the frame, or `some none` for the result `0`. -/
def uva2ka (d : Frame) (a : Nat) : Option (Option Frame) :=
  match m.walkpgdir d a with
  | none => none
  | some (t, k) => if userAccess (m.ram t k) then some (some (frameOf (m.ram t k))) else some none

/-- The loop of `copyout`, with a bound on its rounds. -/
def copyLoop (d : Frame) : Nat → Nat → List Byte → Mem → Option (Mem × Int)
  | 0, _, _, m => some (m, 0)
  | fuel + 1, va, buf, m =>
      if buf = [] then some (m, 0)
      else
        match m.uva2ka d (va / PGSIZE) with
        | none => none
        | some none => some (m, -1)
        | some (some f) =>
            let n := min (PGSIZE - va % PGSIZE) buf.length
            copyLoop d fuel ((va / PGSIZE * PGSIZE + PGSIZE) % 0x100000000) (buf.drop n)
              (m.write f (va % PGSIZE) (buf.take n))

/-- `copyout`: the memory and the value that is returned. -/
def copyout (d : Frame) (va : Nat) (buf : List Byte) : Option (Mem × Int) :=
  copyLoop d buf.length va buf m

end Mem

/-! ## Pages that can be written to -/

namespace Mem

variable (m : Mem)

/-- The page is present and accessible to the user. -/
def UserPage (d : Frame) (a : Nat) : Prop := userAccess (m.pte d a) = true

/-- `walkpgdir` does not return a null pointer for the page. -/
def HasTable (d : Frame) (a : Nat) : Prop := present (m.ram d (PDX a)) = true

/-- The frames of user pages are neither the directory nor its tables, and no two pages
have the same. -/
structure Separate (d : Frame) : Prop where
  dir : ∀ a, a < 0x100000 → m.UserPage d a → frameOf (m.pte d a) ≠ d
  table : ∀ a k, a < 0x100000 → m.UserPage d a → present (m.ram d k) = true →
    frameOf (m.pte d a) ≠ frameOf (m.ram d k)
  inj : ∀ a b, a < 0x100000 → b < 0x100000 → m.UserPage d a → m.UserPage d b →
    frameOf (m.pte d a) = frameOf (m.pte d b) → a = b

end Mem

variable {L : Layout} {own : Frame → Owner} {m m' : Mem} {d f : Frame} {a b o : Nat}
  {buf : List Byte}

theorem Mem.UserPage.hasTable (h : m.UserPage d a) : m.HasTable d a := by
  by_contra hnot
  unfold Mem.UserPage at h
  rw [Mem.pte_of_absent (Bool.eq_false_iff.mpr hnot)] at h
  cases h

theorem Mem.UserPage.mapped (h : m.UserPage d a) : m.Mapped d a := by
  unfold Mem.UserPage userAccess at h
  rw [Bool.and_eq_true] at h
  exact h.1

/-- The address spaces of processes are separate. -/
theorem Pages.separate (h : Pages L own m) (hd : own d = .dir)
    (hkernel : ∀ a, 0x80000 ≤ a → a < 0x100000 → ¬ m.UserPage d a) : m.Separate d := by
  have hpage : ∀ a, a < 0x100000 → m.UserPage d a → own (frameOf (m.pte d a)) = .page d a := by
    intro a ha hu
    have hlt : a < 0x80000 := by
      by_contra hnot
      exact hkernel a (by omega) ha hu
    exact (h.page d a _).mpr ⟨hd, hlt, hu.mapped, rfl⟩
  constructor
  · intro a ha hu heq
    have howner := hpage a ha hu
    rw [heq, hd] at howner
    cases howner
  · intro a k ha hu hp heq
    have howner := hpage a ha hu
    rw [heq, h.toTables.own_table hd hp] at howner
    cases howner
  · intro a b ha hb hua hub heq
    have howner := hpage a ha hua
    rw [heq, hpage b hb hub] at howner
    injection howner with _ hab
    exact hab.symm

theorem Mem.uva2ka_absent (h : ¬ m.HasTable d a) : m.uva2ka d a = none := by
  have hw : m.walkpgdir d a = none := if_neg h
  unfold Mem.uva2ka
  rw [hw]

theorem Mem.walkpgdir_table (h : m.HasTable d a) :
    m.walkpgdir d a = some (frameOf (m.ram d (PDX a)), PTX a) :=
  if_pos h

theorem Mem.uva2ka_user (h : m.UserPage d a) :
    m.uva2ka d a = some (some (frameOf (m.pte d a))) := by
  have ht := h.hasTable
  unfold Mem.UserPage at h
  rw [Mem.pte_of_table ht] at h ⊢
  unfold Mem.uva2ka
  rw [Mem.walkpgdir_table ht]
  exact if_pos h

theorem Mem.uva2ka_other (h : ¬ m.UserPage d a) (ht : m.HasTable d a) :
    m.uva2ka d a = some none := by
  unfold Mem.UserPage at h
  rw [Mem.pte_of_table ht] at h
  unfold Mem.uva2ka
  rw [Mem.walkpgdir_table ht]
  exact if_neg h

/-! ## One piece -/

theorem Mem.write_ram_ne (hne : b ≠ f) : (m.write f o buf).ram b = m.ram b :=
  m.fill_ram_ne _ hne

/-- The bytes of the frame after a write. -/
theorem Mem.byteAt_write {j : Nat} (hj : j < 4096) : byteAt ((m.write f o buf).ram f) j =
    if o ≤ j ∧ j < o + buf.length then buf.getD (j - o) 0 else byteAt (m.ram f) j := by
  unfold Mem.write
  rw [m.fill_ram_self, byteAt_ofBytes _ hj]

/-- Directory and tables are the same. -/
structure SameTables (m m' : Mem) (d : Frame) : Prop where
  dir : m'.ram d = m.ram d
  pte : ∀ a, m'.pte d a = m.pte d a

theorem Mem.Separate.write (h : m.Separate d) (ha : a < 0x100000) (hu : m.UserPage d a) (o : Nat)
    (buf : List Byte) : SameTables m (m.write (frameOf (m.pte d a)) o buf) d := by
  have hdir : (m.write (frameOf (m.pte d a)) o buf).ram d = m.ram d :=
    Mem.write_ram_ne (Ne.symm (h.dir a ha hu))
  refine ⟨hdir, fun b => Mem.pte_congr hdir fun hp => ?_⟩
  exact Mem.write_ram_ne (Ne.symm (h.table a _ ha hu hp))

section Same

variable (h : SameTables m m' d)

include h

theorem SameTables.user : m'.UserPage d a ↔ m.UserPage d a := by
  unfold Mem.UserPage
  rw [h.pte]

theorem SameTables.table : m'.HasTable d a ↔ m.HasTable d a := by
  unfold Mem.HasTable
  rw [h.dir]

theorem SameTables.separate (hsep : m.Separate d) : m'.Separate d where
  dir a ha hu := by
    rw [h.pte]
    exact hsep.dir a ha (h.user.mp hu)
  table a k ha hu hp := by
    rw [h.dir] at hp
    rw [h.pte, h.dir]
    exact hsep.table a k ha (h.user.mp hu) hp
  inj a b ha hb hua hub heq := by
    rw [h.pte, h.pte] at heq
    exact hsep.inj a b ha hb (h.user.mp hua) (h.user.mp hub) heq

end Same

/-! ## The loop -/

/-- The virtual page of the byte `i` of a range that starts at `va`. -/
def pageOf (va i : Nat) : Nat := (va + i) % 0x100000000 / PGSIZE

/-- The bytes of `buf` are in the frames of the range from `va` on, and nothing else has
changed. -/
structure Copied (m : Mem) (d : Frame) (va : Nat) (buf : List Byte) (m' : Mem) : Prop where
  written : ∀ i, i < buf.length →
    byteAt (m'.ram (frameOf (m.pte d (pageOf va i)))) ((va + i) % PGSIZE) = buf.getD i 0
  rest : ∀ f j, j < PGSIZE →
    (∀ i, i < buf.length → ¬ (frameOf (m.pte d (pageOf va i)) = f ∧ (va + i) % PGSIZE = j)) →
    byteAt (m'.ram f) j = byteAt (m.ram f) j

/-- The rounds of `copyLoop`: the piece in the page of `va`, and what is left. -/
theorem Mem.copyLoop_user {fuel va : Nat} (hbuf : buf ≠ []) (hu : m.UserPage d (va / PGSIZE)) :
    Mem.copyLoop d (fuel + 1) va buf m =
      Mem.copyLoop d fuel ((va / PGSIZE * PGSIZE + PGSIZE) % 0x100000000)
        (buf.drop (PGSIZE - va % PGSIZE))
        (m.write (frameOf (m.pte d (va / PGSIZE))) (va % PGSIZE)
          (buf.take (PGSIZE - va % PGSIZE))) := by
  rw [Mem.copyLoop, if_neg hbuf, Mem.uva2ka_user hu]
  rcases Nat.le_total (PGSIZE - va % PGSIZE) buf.length with hle | hle
  · simp only [Nat.min_eq_left hle]
  · simp only [Nat.min_eq_right hle, List.take_length, List.drop_length,
      List.take_of_length_le hle, List.drop_of_length_le hle]

section Rounds

variable {va : Nat}

theorem pageOf_first (hva : va < 0x100000000) {i : Nat} (hi : i < PGSIZE - va % PGSIZE) :
    pageOf va i = va / PGSIZE ∧ (va + i) % PGSIZE = va % PGSIZE + i := by
  unfold pageOf
  unfold PGSIZE at *
  omega

/-- The range that is left starts at the next page. -/
theorem pageOf_rest (va i : Nat) :
    pageOf ((va / PGSIZE * PGSIZE + PGSIZE) % 0x100000000) i =
        pageOf va (PGSIZE - va % PGSIZE + i) ∧
      ((va / PGSIZE * PGSIZE + PGSIZE) % 0x100000000 + i) % PGSIZE =
        (va + (PGSIZE - va % PGSIZE + i)) % PGSIZE := by
  unfold pageOf
  unfold PGSIZE at *
  omega

theorem pageOf_lt (va i : Nat) : pageOf va i < 0x100000 := by
  unfold pageOf PGSIZE
  omega

/-- The range does not come back to its first page. -/
theorem pageOf_ne {i : Nat} (hlow : PGSIZE - va % PGSIZE ≤ i)
    (hi : va % PGSIZE + i < 0x100000000) : pageOf va i ≠ va / PGSIZE := by
  unfold pageOf
  unfold PGSIZE at *
  omega

end Rounds

/-- The piece in the first page, and then the rest. -/
theorem Copied.cons {va : Nat} {m₁ : Mem} (hva : va < 0x100000000)
    (hlen : va % PGSIZE + buf.length ≤ 0x100000000) (hsep : m.Separate d)
    (huser : ∀ i, i < buf.length → m.UserPage d (pageOf va i)) (hpos : 0 < buf.length)
    (hm₁ : m₁ = m.write (frameOf (m.pte d (va / PGSIZE))) (va % PGSIZE)
      (buf.take (PGSIZE - va % PGSIZE)))
    (hsame : SameTables m m₁ d)
    (h : Copied m₁ d ((va / PGSIZE * PGSIZE + PGSIZE) % 0x100000000)
      (buf.drop (PGSIZE - va % PGSIZE)) m') : Copied m d va buf m' := by
  have hoff : va % PGSIZE < PGSIZE := Nat.mod_lt va (by decide)
  have hua := huser 0 hpos
  have ha := pageOf_lt va 0
  rw [(pageOf_first hva (by omega)).1] at hua ha
  have hlater : ∀ i, PGSIZE - va % PGSIZE ≤ i → i < buf.length →
      frameOf (m.pte d (pageOf va i)) ≠ frameOf (m.pte d (va / PGSIZE)) := by
    intro i hlow hi heq
    exact pageOf_ne hlow (by omega)
      (hsep.inj _ _ (pageOf_lt va i) ha (huser i hi) hua heq)
  constructor
  · intro i hi
    by_cases hfirst : i < PGSIZE - va % PGSIZE
    · obtain ⟨hpage, hmod⟩ := pageOf_first hva hfirst
      rw [hpage, hmod, h.rest _ _ (by omega), hm₁, Mem.byteAt_write (by unfold PGSIZE at *; omega)]
      · rw [if_pos (by rw [List.length_take]; omega), Nat.add_sub_cancel_left]
        simp only [List.getD_eq_getElem?_getD, List.getElem?_take, hfirst, if_true]
      · intro j hj
        rw [List.length_drop] at hj
        rw [(pageOf_rest va j).1, hsame.pte]
        exact fun hboth => hlater _ (by omega) (by omega) hboth.1
    · have hi' : i - (PGSIZE - va % PGSIZE) < (buf.drop (PGSIZE - va % PGSIZE)).length := by
        rw [List.length_drop]
        omega
      have hsum : PGSIZE - va % PGSIZE + (i - (PGSIZE - va % PGSIZE)) = i := by omega
      have hwritten := h.written _ hi'
      rw [(pageOf_rest va _).1, (pageOf_rest va _).2, hsum, hsame.pte] at hwritten
      rw [hwritten]
      simp only [List.getD_eq_getElem?_getD, List.getElem?_drop, hsum]
  · intro x j hj hout
    rw [h.rest x j hj, hm₁]
    · by_cases hx : x = frameOf (m.pte d (va / PGSIZE))
      · rw [hx, Mem.byteAt_write hj, if_neg]
        rintro ⟨hlow, hhigh⟩
        rw [List.length_take] at hhigh
        have hfirst : j - va % PGSIZE < PGSIZE - va % PGSIZE := by omega
        obtain ⟨hpage, hmod⟩ := pageOf_first hva hfirst
        apply hout (j - va % PGSIZE) (by omega)
        rw [hpage, hmod, hx]
        exact ⟨rfl, by omega⟩
      · rw [Mem.write_ram_ne hx]
    · intro i hi
      rw [List.length_drop] at hi
      rw [(pageOf_rest va i).1, (pageOf_rest va i).2, hsame.pte]
      exact hout _ (by omega)

/-- All the bytes of the range are in user pages. -/
theorem copyout_user : ∀ (fuel va : Nat) (buf : List Byte) {m : Mem},
    buf.length ≤ fuel → va < 0x100000000 → va % PGSIZE + buf.length ≤ 0x100000000 →
    m.Separate d → (∀ i, i < buf.length → m.UserPage d (pageOf va i)) →
    ∃ m', Mem.copyLoop d fuel va buf m = some (m', 0) ∧ Copied m d va buf m' := by
  intro fuel
  induction fuel with
  | zero =>
      intro va buf m hfuel _ _ _ _
      have hbuf : buf = [] := List.length_eq_zero_iff.mp (by omega)
      subst hbuf
      exact ⟨m, rfl, ⟨fun i hi => absurd hi (Nat.not_lt_zero i), fun f j _ _ => rfl⟩⟩
  | succ fuel ih =>
      intro va buf m hfuel hva hlen hsep huser
      by_cases hbuf : buf = []
      · subst hbuf
        exact ⟨m, rfl, ⟨fun i hi => absurd hi (Nat.not_lt_zero i), fun f j _ _ => rfl⟩⟩
      · have hpos : 0 < buf.length := List.length_pos_iff.mpr hbuf
        have hoff : va % PGSIZE < PGSIZE := Nat.mod_lt va (by decide)
        have ha := pageOf_lt va 0
        have hu := huser 0 hpos
        rw [(pageOf_first hva (by omega)).1] at ha hu
        rw [Mem.copyLoop_user hbuf hu]
        have hsame := hsep.write ha hu (va % PGSIZE) (buf.take (PGSIZE - va % PGSIZE))
        obtain ⟨m', hrun, hcopied⟩ := ih
          ((va / PGSIZE * PGSIZE + PGSIZE) % 0x100000000) (buf.drop (PGSIZE - va % PGSIZE))
          (m := m.write (frameOf (m.pte d (va / PGSIZE))) (va % PGSIZE)
            (buf.take (PGSIZE - va % PGSIZE)))
          (by rw [List.length_drop]; omega) (Nat.mod_lt _ (by decide))
          (by
            rw [List.length_drop]
            unfold PGSIZE at *
            omega) (hsame.separate hsep) (by
            intro i hi
            rw [List.length_drop] at hi
            rw [hsame.user, (pageOf_rest va i).1]
            exact huser _ (by omega))
        exact ⟨m', hrun, hcopied.cons hva hlen hsep huser hpos rfl hsame⟩

/-- The byte `i` is the first that is in no user page. -/
theorem copyout_stuck : ∀ (fuel va : Nat) (buf : List Byte) {m : Mem} (i : Nat),
    buf.length ≤ fuel → va < 0x100000000 → va % PGSIZE + buf.length ≤ 0x100000000 →
    m.Separate d → i < buf.length → (∀ j, j < i → m.UserPage d (pageOf va j)) →
    ¬ m.UserPage d (pageOf va i) →
    (m.HasTable d (pageOf va i) → ∃ m', Mem.copyLoop d fuel va buf m = some (m', -1)) ∧
      (¬ m.HasTable d (pageOf va i) → Mem.copyLoop d fuel va buf m = none) := by
  intro fuel
  induction fuel with
  | zero =>
      intro va buf m i hfuel _ _ _ hi _ _
      omega
  | succ fuel ih =>
      intro va buf m i hfuel hva hlen hsep hi huser hnot
      have hoff : va % PGSIZE < PGSIZE := Nat.mod_lt va (by decide)
      have hbuf : buf ≠ [] := by
        rintro rfl
        exact Nat.not_lt_zero i hi
      by_cases hfirst : i < PGSIZE - va % PGSIZE
      · rw [(pageOf_first hva hfirst).1] at hnot ⊢
        rw [Mem.copyLoop, if_neg hbuf]
        constructor
        · intro ht
          rw [Mem.uva2ka_other hnot ht]
          exact ⟨m, rfl⟩
        · intro ht
          rw [Mem.uva2ka_absent ht]
      · have hu := huser 0 (by omega)
        have ha := pageOf_lt va 0
        rw [(pageOf_first hva (by omega)).1] at ha hu
        have hsame := hsep.write ha hu (va % PGSIZE) (buf.take (PGSIZE - va % PGSIZE))
        have hsum : PGSIZE - va % PGSIZE + (i - (PGSIZE - va % PGSIZE)) = i := by omega
        rw [Mem.copyLoop_user hbuf hu]
        have hrest := ih
          ((va / PGSIZE * PGSIZE + PGSIZE) % 0x100000000) (buf.drop (PGSIZE - va % PGSIZE))
          (m := m.write (frameOf (m.pte d (va / PGSIZE))) (va % PGSIZE)
            (buf.take (PGSIZE - va % PGSIZE))) (i - (PGSIZE - va % PGSIZE))
          (by rw [List.length_drop]; omega) (Nat.mod_lt _ (by decide))
          (by
            rw [List.length_drop]
            unfold PGSIZE at *
            omega) (hsame.separate hsep)
          (by rw [List.length_drop]; omega)
          (by
            intro j hj
            rw [hsame.user, (pageOf_rest va j).1]
            exact huser _ (by omega))
          (by
            rw [hsame.user, (pageOf_rest va _).1, hsum]
            exact hnot)
        rw [(pageOf_rest va _).1, hsum, hsame.table] at hrest
        exact hrest

/-! ## `copyout` is checked -/

/-- `copyout` reads no absent table, and returns `0` exactly when all the bytes of the range
are in user pages; then it has copied them. -/
structure Checked (m : Mem) (d : Frame) (va : Nat) (buf : List Byte) (r : Option (Mem × Int)) :
    Prop where
  noNull : r ≠ none
  zero : (∃ m', r = some (m', 0)) ↔ ∀ i, i < buf.length → m.UserPage d (pageOf va i)
  copied : ∀ m', r = some (m', 0) → Copied m d va buf m'
  failed : ¬ (∀ i, i < buf.length → m.UserPage d (pageOf va i)) → ∃ m', r = some (m', -1)

/-- The first byte of the range that is in no user page, if there is one, is in a page that
has a table. -/
def NoHole (m : Mem) (d : Frame) (va len : Nat) : Prop :=
  ∀ i, i < len → (∀ j, j < i → m.UserPage d (pageOf va j)) → m.HasTable d (pageOf va i)

/-- `copyout` is checked if and only if it comes to no page without a table. -/
theorem copyout_checked (m : Mem) (d : Frame) (va : Nat) (buf : List Byte)
    (hsep : m.Separate d) (hva : va < 0x100000000)
    (hlen : va % PGSIZE + buf.length ≤ 0x100000000) :
    Checked m d va buf (m.copyout d va buf) ↔ NoHole m d va buf.length := by
  unfold Mem.copyout
  by_cases huser : ∀ i, i < buf.length → m.UserPage d (pageOf va i)
  · obtain ⟨m', hrun, hcopied⟩ := copyout_user buf.length va buf (Nat.le_refl _) hva hlen hsep huser
    rw [hrun]
    constructor
    · intro _ i hi _
      exact (huser i hi).hasTable
    · intro _
      exact
        { noNull := nofun
          zero := ⟨fun _ => huser, fun _ => ⟨m', rfl⟩⟩
          copied := by
            rintro m'' ⟨⟩
            exact hcopied
          failed := fun hnot => absurd huser hnot }
  · have hex : ∃ i, i < buf.length ∧ ¬ m.UserPage d (pageOf va i) := by
      by_contra hnone
      exact huser fun i hi => Classical.byContradiction fun hnot => hnone ⟨i, hi, hnot⟩
    classical
    obtain ⟨hi, hnot⟩ := Nat.find_spec hex
    have hmin : ∀ j, j < Nat.find hex → m.UserPage d (pageOf va j) := by
      intro j hj
      by_contra hno
      exact Nat.find_min hex hj ⟨Nat.lt_trans hj hi, hno⟩
    obtain ⟨htable, hnull⟩ :=
      copyout_stuck buf.length va buf (Nat.find hex) (Nat.le_refl _) hva hlen hsep hi hmin hnot
    by_cases ht : m.HasTable d (pageOf va (Nat.find hex))
    · obtain ⟨m', hrun⟩ := htable ht
      rw [hrun]
      constructor
      · intro _ i hi' hbefore
        by_cases hui : m.UserPage d (pageOf va i)
        · exact hui.hasTable
        · have heq : i = Nat.find hex := by
            apply Nat.le_antisymm
            · by_contra hlt
              exact hnot (hbefore _ (Nat.lt_of_not_le hlt))
            · exact Nat.find_min' hex ⟨hi', hui⟩
          rw [heq]
          exact ht
      · intro _
        exact
          { noNull := nofun
            zero := by
              constructor
              · rintro ⟨m'', heq⟩
                cases heq
              · exact fun hall => absurd hall huser
            copied := nofun
            failed := fun _ => ⟨m', rfl⟩ }
    · rw [hnull ht]
      constructor
      · intro hchecked
        exact absurd rfl hchecked.noNull
      · intro hnohole
        exact absurd (hnohole _ hi hmin) ht

theorem onePage_separate : onePageProcess.mem.Separate 0x200 := by
  apply onePageProcess_pages.separate rfl
  intro a hlow ha hu
  unfold Mem.UserPage at hu
  rw [onePage_pte ha, if_neg (by omega)] at hu
  cases hu

theorem onePage_checked :
    Checked onePageProcess.mem 0x200 0xFFE [1, 2]
      (onePageProcess.mem.copyout 0x200 0xFFE [1, 2]) := by
  refine (copyout_checked onePageProcess.mem 0x200 0xFFE [1, 2] onePage_separate (by decide)
    (by decide)).mpr ?_
  intro i hi _
  have hpage : pageOf 0xFFE i = 0 := by
    have hi : i < 2 := hi
    unfold pageOf PGSIZE
    omega
  rw [hpage]
  rfl

/-- What `exec` has set up for a program of one page: page 0 is the program's, page 1 is
the one that `clearpteu` has made inaccessible, and page 2 is the stack. -/
def execImage : Mem where
  ram f k :=
    if f = 0x200 then if k = 0 then entry 0x201 (PTE_W ||| PTE_U) else 0
    else if f = 0x201 then
      if k.val = 0 then entry 0x202 (PTE_W ||| PTE_U)
      else if k.val = 1 then entry 0x203 PTE_W
      else if k.val = 2 then entry 0x204 (PTE_W ||| PTE_U)
      else 0
    else 0
  freelist := []
  oom := fun _ => false

theorem execImage_entry (k : Entry) :
    execImage.ram 0x200 k = if k = 0 then entry 0x201 (PTE_W ||| PTE_U) else 0 := rfl

theorem execImage_table (k : Entry) :
    execImage.ram 0x201 k =
      if k.val = 0 then entry 0x202 (PTE_W ||| PTE_U)
      else if k.val = 1 then entry 0x203 PTE_W
      else if k.val = 2 then entry 0x204 (PTE_W ||| PTE_U)
      else 0 := rfl

theorem execImage_pte (a : Nat) (hd : PDX a = 0) :
    execImage.pte 0x200 a = execImage.ram 0x201 (PTX a) := by
  have htable : frameOf (entry 0x201 (PTE_W ||| PTE_U)) = 0x201 :=
    frameOf_entry (by decide) (by decide)
  unfold Mem.pte
  rw [execImage_entry, if_pos hd, if_pos (present_entry _ _), htable]

/-- The user pages are the program's and the stack. -/
theorem execImage_user {a : Nat} (ha : a < 0x100000) (h : execImage.UserPage 0x200 a) :
    a = 0 ∧ frameOf (execImage.pte 0x200 a) = 0x202 ∨
      a = 2 ∧ frameOf (execImage.pte 0x200 a) = 0x204 := by
  have hd : PDX a = 0 := by
    by_contra hd
    have htable := h.hasTable
    unfold Mem.HasTable at htable
    rw [execImage_entry, if_neg hd] at htable
    cases htable
  unfold Mem.UserPage at h
  rw [execImage_pte a hd, execImage_table] at h ⊢
  by_cases h0 : (PTX a).val = 0
  · left
    rw [if_pos h0]
    exact ⟨index_inj ha (by decide) hd (Fin.ext h0), frameOf_entry (by decide) (by decide)⟩
  · by_cases h1 : (PTX a).val = 1
    · rw [if_neg h0, if_pos h1] at h
      exact absurd h (by decide)
    · by_cases h2 : (PTX a).val = 2
      · right
        rw [if_neg h0, if_neg h1, if_pos h2]
        exact ⟨index_inj ha (by decide) hd (Fin.ext h2), frameOf_entry (by decide) (by decide)⟩
      · rw [if_neg h0, if_neg h1, if_neg h2] at h
        cases h

theorem execImage_separate : execImage.Separate 0x200 := by
  have hframe : ∀ a, a < 0x100000 → execImage.UserPage 0x200 a →
      frameOf (execImage.pte 0x200 a) = 0x202 ∨ frameOf (execImage.pte 0x200 a) = 0x204 := by
    intro a ha hu
    rcases execImage_user ha hu with ⟨-, hf⟩ | ⟨-, hf⟩
    · exact .inl hf
    · exact .inr hf
  constructor
  · intro a ha hu heq
    rcases hframe a ha hu with hf | hf <;> rw [hf] at heq <;> exact absurd heq (by decide)
  · intro a k ha hu hp heq
    have hdir : frameOf (execImage.ram 0x200 k) = 0x201 := by
      rw [execImage_entry] at hp ⊢
      split
      · exact frameOf_entry (by decide) (by decide)
      · rename_i hk
        rw [if_neg hk] at hp
        cases hp
    rw [hdir] at heq
    rcases hframe a ha hu with hf | hf <;> rw [hf] at heq <;> exact absurd heq (by decide)
  · intro a b ha hb hua hub heq
    rcases execImage_user ha hua with ⟨rfl, hfa⟩ | ⟨rfl, hfa⟩
    · rcases execImage_user hb hub with ⟨rfl, -⟩ | ⟨rfl, hfb⟩
      · rfl
      · rw [hfa, hfb] at heq
        exact absurd heq (by decide)
    · rcases execImage_user hb hub with ⟨rfl, hfb⟩ | ⟨rfl, -⟩
      · rw [hfa, hfb] at heq
        exact absurd heq (by decide)
      · rfl

/-- The stack pointer of `exec` for a program of one page, whose stack ends at `0x3000`, and
an argument of `0x2004000` bytes is in no page that has a table. -/
theorem longArgument_notChecked :
    ¬ Checked execImage 0x200 0xFDFFEFFC (List.replicate 0x2004001 0x61)
      (execImage.copyout 0x200 0xFDFFEFFC (List.replicate 0x2004001 0x61)) := by
  have hentry : execImage.ram 0x200 (PDX (pageOf 0xFDFFEFFC 0)) = 0 := by decide
  have htable : ¬ execImage.HasTable 0x200 (pageOf 0xFDFFEFFC 0) := by
    unfold Mem.HasTable
    rw [hentry]
    decide
  intro hchecked
  apply hchecked.noNull
  unfold Mem.copyout
  refine (copyout_stuck _ _ _ 0 (Nat.le_refl _) (by decide) ?_ execImage_separate ?_ ?_ ?_).2 htable
  · rw [List.length_replicate]
    decide
  · rw [List.length_replicate]
    decide
  · intro j hj
    omega
  · exact fun hu => htable hu.hasTable

end OsWork.Ports.PageTables

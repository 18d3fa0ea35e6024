import OsWork.Ports.Exec

/-!
# Enough pages

A function that makes an address space fails only when the free list is empty, and then all
pages that were free belong to the new address space: its directory, a table for each of
1024 entries, and the user pages.  So with more free pages than that it does not fail.

## Main results

* `Pages.setupkvm_enough`, `Image.allocuvm_enough` — `setupkvm` and `allocuvm` succeed when
  there are enough free pages.
-/

namespace OsWork.Ports.PageTables

open OsWork.Ports.ProcTable (Word)
open Function (update)

variable {L : Layout} {own own' own₀ : Frame → Owner} {m m' m₀ m₁ : Mem} {d f : Frame}
  {a sz newsz : Nat}

/-! ## Failures of `kalloc` -/

/-- `kalloc` has been called some times between the two memories.  If `ok` is false, the last
of these calls has failed: it was to find no page, or the free list was empty. -/
def Mem.Called (m m' : Mem) (ok : Bool) : Prop :=
  ∃ q, (∀ n, m'.oom n = m.oom (n + q)) ∧
    (ok = false → ∃ k, q = k + 1 ∧ (m.oom k = true ∨ m'.freelist = []))

theorem Mem.Called.refl (m : Mem) : m.Called m true :=
  ⟨0, fun _ => rfl, fun h => by cases h⟩

theorem Mem.Called.trans {ok : Bool} (h : m.Called m₁ true) (h' : m₁.Called m' ok) :
    m.Called m' ok := by
  obtain ⟨q, hq, -⟩ := h
  obtain ⟨q', hq', hfail⟩ := h'
  refine ⟨q' + q, fun n => ?_, fun hok => ?_⟩
  · rw [hq', hq, Nat.add_assoc]
  · obtain ⟨k, rfl, hk⟩ := hfail hok
    refine ⟨k + q, by omega, ?_⟩
    rw [hq] at hk
    exact hk

theorem Mem.called_kalloc {r : Option Frame} (hk : m.kalloc = (m', r)) :
    m.Called m' r.isSome := by
  unfold Mem.kalloc at hk
  split at hk
  · rename_i hfail
    cases hk
    exact ⟨1, fun _ => rfl, fun _ => ⟨0, rfl, .inl hfail⟩⟩
  · split at hk
    · rename_i hlist
      cases hk
      exact ⟨1, fun _ => rfl, fun _ => ⟨0, rfl, .inr hlist⟩⟩
    · cases hk
      exact ⟨1, fun _ => rfl, fun h => by cases h⟩

theorem Mem.called_walkpgdirAlloc {r : Option (Frame × Entry)}
    (hw : m.walkpgdirAlloc d a = (m', r)) : m.Called m' r.isSome := by
  unfold Mem.walkpgdirAlloc at hw
  split at hw
  · cases hw
    exact .refl m
  · split at hw
    · rename_i hk
      cases hw
      exact Mem.called_kalloc hk
    · rename_i hk
      cases hw
      exact Mem.called_kalloc hk

/-- `mappages` fails only when a call of `kalloc` has failed. -/
theorem Mem.called_mapLoop (perm : Word) : ∀ (n pa : Nat) {m m' : Mem} {a : Nat} {ok : Bool},
    m.mapLoop d perm n a pa = some (m', ok) → m.Called m' ok := by
  intro n
  induction n with
  | zero =>
      intro pa m m' a ok hrun
      unfold Mem.mapLoop at hrun
      split at hrun
      · rename_i hw
        cases hrun
        exact Mem.called_walkpgdirAlloc hw
      · rename_i hw
        split at hrun
        · cases hrun
        · cases hrun
          exact Mem.called_walkpgdirAlloc hw
  | succ n ih =>
      intro pa m m' a ok hrun
      unfold Mem.mapLoop at hrun
      split at hrun
      · rename_i hw
        cases hrun
        exact Mem.called_walkpgdirAlloc hw
      · rename_i m₁ t k hw
        split at hrun
        · cases hrun
        · exact (Mem.called_walkpgdirAlloc hw).trans
            (ih (pa + 1) (m := m₁.store t k (entry pa perm)) hrun)

theorem Mem.called_setupLoop : ∀ (ks : List KernelMap) {m m' : Mem} {ok : Bool},
    Mem.setupLoop d ks m = some (m', ok) → m.Called m' ok := by
  intro ks
  induction ks with
  | nil =>
      intro m m' ok hrun
      cases hrun
      exact .refl m
  | cons k ks ih =>
      intro m m' ok hrun
      unfold Mem.setupLoop at hrun
      obtain ⟨r, hmap, hrest⟩ := Option.bind_eq_some_iff.mp hrun
      obtain ⟨m₁, ok₁⟩ := r
      have h₁ := Mem.called_mapLoop k.perm _ _ hmap
      cases ok₁ with
      | true => exact h₁.trans (ih hrest)
      | false =>
          cases hrest
          exact h₁

/-- `kalloc` fails only when the free list is empty. -/
def Mem.Steady (m : Mem) : Prop := ∀ n, m.oom n = false

theorem Mem.Steady.called {ok : Bool} (h : m.Steady) (hc : m.Called m' ok) :
    m'.Steady ∧ (ok = false → m'.freelist = []) := by
  obtain ⟨q, hq, hfail⟩ := hc
  refine ⟨fun n => (hq n).trans (h _), fun hok => ?_⟩
  obtain ⟨k, -, hk | hk⟩ := hfail hok
  · rw [h k] at hk
    cases hk
  · exact hk

theorem Mem.Steady.kalloc {r : Option Frame} (h : m.Steady) (hk : m.kalloc = (m', r)) :
    m'.Steady :=
  (h.called (Mem.called_kalloc hk)).1

theorem Mem.Steady.kalloc_none (h : m.Steady) (hk : m.kalloc = (m', none)) : m'.freelist = [] :=
  (h.called (Mem.called_kalloc hk)).2 rfl

theorem Mem.Steady.mapLoop {perm : Word} {n pa : Nat} {ok : Bool} (h : m.Steady)
    (hrun : m.mapLoop d perm n a pa = some (m', ok)) :
    m'.Steady ∧ (ok = false → m'.freelist = []) :=
  h.called (Mem.called_mapLoop perm n pa hrun)

/-! ## The pages of an address space -/

/-- The place of a page in an address space of pages below `hi`. -/
def placeOf (o : Owner) : Nat :=
  match o with
  | .dir => 0
  | .table _ k => k + 1
  | .page _ b => b + 1025
  | _ => 0

/-- An address space has a directory, tables and user pages only. -/
theorem Pages.length_le (h : Pages L own m) (hd : own d = .dir) (hi : Nat) {l : List Frame}
    (hl : l.Nodup) (hin : ∀ f, f ∈ l → f = d ∨ (∃ k, own f = .table d k) ∨
      ∃ b, b < hi ∧ own f = .page d b) : l.length ≤ hi + 1025 := by
  have hmap : (l.map fun f => placeOf (own f)).Nodup := by
    apply hl.map_on
    intro f hf g hg heq
    rcases hin f hf with rfl | ⟨k, hk⟩ | ⟨b, -, hb⟩ <;>
      rcases hin g hg with rfl | ⟨k', hk'⟩ | ⟨b', -, hb'⟩
    · rfl
    · rw [hd, hk'] at heq
      simp [placeOf] at heq
    · rw [hd, hb'] at heq
      simp [placeOf] at heq
    · rw [hd, hk] at heq
      simp [placeOf] at heq
    · rw [hk, hk'] at heq
      have hkk : k = k' := by
        apply Fin.ext
        simpa [placeOf] using heq
      rw [hkk] at hk
      rw [← ((h.table d k' f).mp hk).2.2, ← ((h.table d k' g).mp hk').2.2]
    · rw [hk, hb'] at heq
      have hlt := k.isLt
      simp only [placeOf] at heq
      omega
    · rw [hd, hb] at heq
      simp [placeOf] at heq
    · rw [hb, hk'] at heq
      have hlt := k'.isLt
      simp only [placeOf] at heq
      omega
    · rw [hb, hb'] at heq
      have hbb : b = b' := by
        simpa [placeOf] using heq
      rw [hbb] at hb
      rw [← ((h.page d b' f).mp hb).2.2.2, ← ((h.page d b' g).mp hb').2.2.2]
  have hsub : (l.map fun f => placeOf (own f)) ⊆ List.range (hi + 1025) := by
    intro x hx
    obtain ⟨f, hf, rfl⟩ := List.mem_map.mp hx
    rw [List.mem_range]
    rcases hin f hf with rfl | ⟨k, hk⟩ | ⟨b, hb, hown⟩
    · rw [hd]
      simp [placeOf]
    · rw [hk]
      have hlt := k.isLt
      simp only [placeOf]
      omega
    · rw [hown]
      simp only [placeOf]
      omega
  have hle := (List.subperm_of_subset hmap hsub).length_le
  rwa [List.length_map, List.length_range] at hle

/-- All pages that were free, but for the page `f`, belong to the address space. -/
theorem Pages.exhausted (h₀ : Pages L own₀ m₀) (h : Pages L own m) (hd : own d = .dir) (hi : Nat)
    (hin : ∀ x, own₀ x = .free → x ≠ f → x = d ∨ (∃ k, own x = .table d k) ∨
      ∃ b, b < hi ∧ own x = .page d b) : m₀.freelist.length ≤ hi + 1026 := by
  have hle := h.length_le hd hi (h₀.nodup.erase f) (by
    intro x hx
    rw [h₀.nodup.mem_erase_iff, h₀.free] at hx
    exact hin x hx.2 hx.1)
  by_cases hmem : f ∈ m₀.freelist
  · have hsum := List.length_erase_add_one hmem
    omega
  · rw [List.erase_of_not_mem hmem] at hle
    omega

/-- When there is at most one page on the free list, all others that were free belong to the
new address space. -/
theorem Built.exhausted (h₀ : Pages L own₀ m₀) (h : Pages L own m) (hb : Built d own₀ m₀ own m)
    (hlast : ∀ x, x ∈ m.freelist → x = f) (hi : Nat) (hlow : ∀ x b, own x = .page d b → b < hi) :
    m₀.freelist.length ≤ hi + 1026 := by
  apply h₀.exhausted (f := f) h hb.dir hi
  intro x hx hxf
  rcases hb.new x hx with hfree | heq | hk | ⟨b, hpage⟩
  · rw [← h.free] at hfree
    exact absurd (hlast x hfree) hxf
  · exact .inl heq
  · exact .inr (.inl hk)
  · exact .inr (.inr ⟨b, hlow x b hpage, hpage⟩)

theorem of_mem_empty {l : List Frame} (h : l = []) (f : Frame) : ∀ x, x ∈ l → x = f := by
  rw [h]
  nofun

/-- `setupkvm` succeeds when there are enough pages. -/
theorem Pages.setupkvm_enough (hL : L.Ok) (h : Pages L own m) (hs : m.Steady)
    (hlen : 1026 < m.freelist.length) :
    ∃ m' d own', m.setupkvm L = some (m', some d) ∧ Image L d own m 0 own' m' ∧ m'.Steady := by
  cases hk : m.kalloc with
  | mk m₁ r =>
      cases r with
      | none =>
          have hempty := hs.kalloc_none hk
          rw [(Mem.kalloc_none hk).2] at hempty
          rw [hempty] at hlen
          exact absurd hlen (Nat.not_lt_zero _)
      | some d =>
          obtain ⟨m₂, ok, own₂, hrun, h₂, hbuilt, hsafe, hnone⟩ := h.setupTables hL hk
          have hs₁ := hs.kalloc hk
          have hsteady : (m₁.fill d fun _ => 0).Steady := hs₁
          obtain ⟨hs₂, hempty⟩ := hsteady.called (Mem.called_setupLoop _ hrun)
          cases ok with
          | false =>
              have hle := hbuilt.exhausted h h₂ (of_mem_empty (hempty rfl) d) 0 (by
                intro x b hx
                have hpage := (h₂.page d b x).mp hx
                exact absurd hpage.2.2.1 (hnone b hpage.2.1))
              omega
          | true =>
              refine ⟨m₂, d, own₂, ?_, Image.start hbuilt h₂ hsafe hnone, hs₂⟩
              unfold Mem.setupkvm
              rw [hk]
              simp only [hrun, Option.bind_some, if_true]

/-- The user pages of a new address space. -/
theorem Image.page_lt (h : Image L d own₀ m₀ sz own m) {b : Nat} (hf : own f = .page d b) :
    b < pagesOf sz := by
  obtain ⟨-, hb, hmapped, -⟩ := (h.pages.page d b f).mp hf
  exact (h.mapped b hb).mp hmapped

/-- The loop of `allocuvm` goes on to the end. -/
theorem Image.allocLoop_enough (h₀ : Pages L own₀ m₀) {oldsz : Nat} (hlt : newsz < KERNBASE)
    (hlen : pagesOf newsz + 1026 < m₀.freelist.length) :
    ∀ (fuel : Nat) {own : Frame → Owner} {m : Mem} {a : Nat},
      Image L d own₀ m₀ (min (a * PGSIZE) newsz) own m → a ≤ pagesOf newsz →
      pagesOf newsz ≤ a + fuel → m.Steady →
      ∃ m' own', Mem.allocLoop L d oldsz newsz fuel a m = some (m', newsz) ∧
        Image L d own₀ m₀ newsz own' m' ∧ m'.Steady := by
  have hsize : ∀ a, a ≤ pagesOf newsz → pagesOf (min (a * PGSIZE) newsz) = a := by
    intro a ha
    unfold pagesOf at *
    unfold PGSIZE
    omega
  have hmax := pagesOf_le (Nat.le_of_lt hlt)
  intro fuel
  induction fuel with
  | zero =>
      intro own m a h ha hfuel hs
      have heq : a = pagesOf newsz := by omega
      have hmin : min (a * PGSIZE) newsz = newsz := by
        unfold pagesOf at heq
        unfold PGSIZE
        omega
      rw [hmin] at h
      exact ⟨m, own, rfl, h, hs⟩
  | succ fuel ih =>
      intro own m a h ha hfuel hs
      unfold Mem.allocLoop
      by_cases hmore : a * PGSIZE < newsz
      swap
      · have hmin : min (a * PGSIZE) newsz = newsz := by omega
        rw [hmin] at h
        rw [if_neg hmore]
        exact ⟨m, own, rfl, h, hs⟩
      rw [if_pos hmore]
      have hpage : a < pagesOf newsz := lt_pagesOf.mpr hmore
      have hlow : ∀ x b, own x = .page d b → b < a := by
        intro x b hx
        have hb := h.page_lt hx
        rwa [hsize a ha] at hb
      have habsent : ¬ m.Mapped d a := by
        rw [h.mapped a (by omega), hsize a ha]
        omega
      cases hk : m.kalloc with
      | mk m₁ r =>
          cases r with
          | none =>
              have hempty := hs.kalloc_none hk
              rw [(Mem.kalloc_none hk).2] at hempty
              have hle := h.built.exhausted h₀ h.pages (of_mem_empty hempty d) _ hlow
              omega
          | some f =>
              rw [Mem.allocRound_some hk]
              have hsteady := hs.kalloc hk
              have hs₁ : (m₁.fill f fun _ => 0).Steady := hsteady
              rcases h.pages.allocPage h.built.dir (by omega) habsent hk with
                ⟨m₂, own₂, hrun, h₂, hg⟩ | ⟨m₂, own₂, hrun, hf, h₂, hg⟩
              · rw [hrun]
                have hle : min (a * PGSIZE) newsz ≤ min ((a + 1) * PGSIZE) newsz := by
                  unfold PGSIZE
                  omega
                have h' : Image L d own₀ m₀ (min ((a + 1) * PGSIZE) newsz) own₂ m₂ := by
                  apply h.gains h₀ h₂ hle (by omega)
                  rw [hsize a ha, hsize (a + 1) hpage]
                  exact hg
                rw [Mem.mappages_page (by omega)] at hrun
                exact ih h' hpage (by omega) (hs₁.mapLoop hrun).1
              · rw [Mem.mappages_page (by omega)] at hrun
                have hempty := (hs₁.mapLoop hrun).2 rfl
                -- one page is in the hand
                have hd₂ : own₂ d = .dir := by
                  have hsame := hg.of_ne_free (f := d) (by rw [h.built.dir]; rintro ⟨⟩)
                  rw [Function.update_of_ne] at hsame
                  · rw [hsame, h.built.dir]
                  · rintro rfl
                    rw [Function.update_self, h.built.dir] at hsame
                    cases hsame
                have hle := h₀.exhausted (f := f) h₂ hd₂ a (by
                  intro x hx hxf
                  have hsame := hg.owner x
                  rw [Function.update_of_ne hxf] at hsame
                  rcases hsame with hsame | ⟨-, hk | ⟨b, hlow, hb, -⟩⟩
                  · rw [hsame]
                    rcases h.built.new x hx with hfree | heq | hk | ⟨b, hpage⟩
                    · rw [← hsame, ← h₂.free, hempty] at hfree
                      cases hfree
                    · exact .inl heq
                    · exact .inr (.inl hk)
                    · exact .inr (.inr ⟨b, hlow x b hpage, hpage⟩)
                  · exact .inr (.inl hk)
                  · omega)
                omega

/-- `allocuvm` succeeds when there are enough pages. -/
theorem Image.allocuvm_enough (h₀ : Pages L own₀ m₀) (h : Image L d own₀ m₀ sz own m)
    (hs : m.Steady) (hle : sz ≤ newsz) (hlt : newsz < KERNBASE)
    (hlen : pagesOf newsz + 1026 < m₀.freelist.length) :
    ∃ m' own', m.allocuvm L d sz newsz = some (m', newsz) ∧
      Image L d own₀ m₀ newsz own' m' ∧ m'.Steady := by
  have hmono := pagesOf_mono hle
  have hmax := pagesOf_le (Nat.le_of_lt hlt)
  have hsize : pagesOf (min (pagesOf sz * PGSIZE) newsz) = pagesOf sz := by
    unfold pagesOf at *
    unfold PGSIZE
    omega
  have hstart : Image L d own₀ m₀ (min (pagesOf sz * PGSIZE) newsz) own m :=
    { pages := h.pages
      built := h.built
      lt := Nat.lt_of_le_of_lt (Nat.min_le_right _ _) hlt
      mapped := by
        rw [hsize]
        exact h.mapped
      safe := h.safe }
  have hlt' := h.lt
  unfold Mem.allocuvm
  rw [if_neg (Nat.not_le_of_lt hlt), if_neg (Nat.not_lt_of_le hle), roundup_pages (by omega)]
  exact hstart.allocLoop_enough h₀ hlt hlen 0x100000 hmono (by omega) hs

/-! ## More free pages -/

/-- Pages that were not managed are put on the free list. -/
def donate (own : Frame → Owner) (l : List Frame) (f : Frame) : Owner :=
  if f ∈ l then .free else own f

theorem donate_iff {l : List Frame} (hk : ∀ f, f ∈ l → own f = .kernel) (o : Owner)
    (ho : o ≠ .free) (ho' : o ≠ .kernel) (f : Frame) : donate own l f = o ↔ own f = o := by
  unfold donate
  split
  · rename_i hf
    rw [hk f hf]
    exact ⟨fun heq => absurd heq.symm ho, fun heq => absurd heq.symm ho'⟩
  · exact Iff.rfl

theorem Pages.donate (h : Pages L own m) {l : List Frame} (hl : l.Nodup)
    (hk : ∀ f, f ∈ l → own f = .kernel) (hr : ∀ f, f ∈ l → L.kend ≤ f ∧ f < physTop) :
    Pages L (donate own l) { m with freelist := l ++ m.freelist } where
  nodup := by
    apply List.Nodup.append hl h.nodup
    intro f hf hfree
    rw [h.free, hk f hf] at hfree
    cases hfree
  free f := by
    show f ∈ l ++ m.freelist ↔ _
    rw [List.mem_append, h.free]
    unfold PageTables.donate
    by_cases hf : f ∈ l
    · rw [if_pos hf]
      exact ⟨fun _ => rfl, fun _ => .inl hf⟩
    · rw [if_neg hf]
      exact ⟨fun hor => hor.resolve_left hf, .inr⟩
  table d k f := by
    rw [donate_iff hk (.table d k) nofun nofun, donate_iff hk .dir nofun nofun]
    exact h.table d k f
  range f hf := by
    unfold PageTables.donate at hf
    by_cases hmem : f ∈ l
    · exact hr f hmem
    · rw [if_neg hmem] at hf
      exact h.range f hf
  pos := h.pos
  page d a f := by
    rw [donate_iff hk (.page d a) nofun nofun, donate_iff hk .dir nofun nofun]
    exact h.page d a f

theorem range_kernel : ∀ f, f ∈ List.range' 0x300 2048 → onePageOwner f = .kernel := by
  intro f hf
  obtain ⟨i, -, rfl⟩ := List.mem_range'.mp hf
  have hne : ∀ c : Nat, c < 0x300 → 0x300 + 1 * i ≠ c := by
    intro c hc
    omega
  unfold onePageOwner
  rw [if_neg (hne _ (by decide)), if_neg (hne _ (by decide)), if_neg (hne _ (by decide))]

theorem onePageLayout_ok : onePageLayout.Ok := ⟨by decide, by decide⟩

/-- The process with one page, and 2048 free pages. -/
def plentifulOwner : Frame → Owner := PageTables.donate onePageOwner (List.range' 0x300 2048)

theorem plentifulOwner_dir : plentifulOwner 0x200 = .dir :=
  (donate_iff range_kernel .dir nofun nofun _).mpr rfl

theorem Pages.plentiful (h : Pages onePageLayout onePageOwner m) (hempty : m.freelist = []) :
    Pages onePageLayout plentifulOwner { m with freelist := List.range' 0x300 2048 } := by
  have hrange : ∀ f, f ∈ List.range' 0x300 2048 → onePageLayout.kend ≤ f ∧ f < physTop := by
    intro f hf
    obtain ⟨i, hi, rfl⟩ := List.mem_range'.mp hf
    show 0x200 ≤ 0x300 + 1 * i ∧ 0x300 + 1 * i < 0xE000
    omega
  have hdonate := h.donate (List.nodup_range') range_kernel hrange
  rw [hempty, List.append_nil] at hdonate
  exact hdonate

end OsWork.Ports.PageTables

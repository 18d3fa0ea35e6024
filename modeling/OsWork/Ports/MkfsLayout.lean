import OsWork.Ports.Mkfs

/-!
# What `mkfs` has laid out

`iappend` allocates the references of an inode in the order of their numbers, each with the next
free block, so the blocks of all inodes are different and the contents of a file are where its
references say.

## Main results

* `Laid.allocAddr`, `Laid.allocEntry`, `Laid.store` — what the three kinds of stores of
  `iappend` keep.
* `Mid.appendLoop` — the loop of `iappend` appends, or the file or the image is full.
-/

namespace OsWork.Ports.Mkfs

open OsWork.Verified.ByteWords OsWork.Ports.FsLayout
open Function (update)

/-- The inodes below `n` have the first `c i` references, all to different blocks below the
free block `fb`, and the bytes `data i` in the blocks. -/
structure Laid (n : Nat) (addr : Nat → Nat → Nat) (sec : Nat → Bytes) (fb : Nat) (c : Nat → Nat)
    (data : Nat → List UInt8) : Prop where
  low : nmeta ≤ fb
  refs : Refs n addr sec (fun b => nmeta ≤ b ∧ b < fb) c
  fresh : ∀ b, fb ≤ b → b < FSSIZE → ∀ j, sec b j = 0
  room : ∀ i o, i < n → o < (data i).length → slotOf (o / BSIZE) < c i ∧ slotOf (o / BSIZE) < maxSlots
  content : ∀ i o, i < n → o < (data i).length →
    sec (refAt addr sec i (slotOf (o / BSIZE))) (o % BSIZE) = (data i).getD o 0

variable {n : Nat} {addr addr' : Nat → Nat → Nat} {sec sec' : Nat → Bytes} {fb : Nat}
  {c : Nat → Nat} {data : Nat → List UInt8} {i j k l x : Nat}

theorem Laid.range (h : Laid n addr sec fb c data) (hi : i < n) (hk : k < maxSlots)
    (hne : refAt addr sec i k ≠ 0) :
    nmeta ≤ refAt addr sec i k ∧ refAt addr sec i k < fb :=
  h.refs.inUse i k hi hk hne

theorem Laid.pos (h : Laid n addr sec fb c data) : fb ≠ 0 := by
  have hlow := h.low
  have hmeta : nmeta = 59 := rfl
  omega

/-- Only the addresses of the inodes below `n` count. -/
theorem Laid.congr (h : Laid n addr sec fb c data)
    (ha : ∀ i k, i < n → k ≤ NDIRECT → addr' i k = addr i k)
    (hs : ∀ b, nmeta ≤ b → sec' b = sec b) : Laid n addr' sec' fb c data := by
  have hind : ∀ i, i < n → addr i NDIRECT ≠ 0 → sec' (addr i NDIRECT) = sec (addr i NDIRECT) :=
    fun i hi hne => hs _ (h.refs.indirect hi hne).1
  exact
    { low := h.low
      refs := h.refs.congr ha hind fun _ hb => hb
      fresh := by
        intro b hb hlt j
        rw [hs b (Nat.le_trans h.low hb)]
        exact h.fresh b hb hlt j
      room := h.room
      content := by
        intro i o hi ho
        obtain ⟨hlive, hmax⟩ := h.room i o hi ho
        have hne := (h.refs.live i _ hi hmax).mpr hlive
        rw [refAt_congr (ha i · hi) (fun hne r => by rw [hind i hi hne]),
          hs _ (h.range hi hmax hne).1]
        exact h.content i o hi ho }

/-- What is known of a state in which one reference more has been allocated: it is the next
of inode `i`, and it is to the block `fb`. -/
theorem Laid.alloc (h : Laid n addr sec fb c data) (hc : c i = k)
    (hrefs : Refs n addr' sec' (fun b => nmeta ≤ b ∧ b < fb + 1) (update c i (k + 1)))
    (hold : ∀ j l, j < n → l < maxSlots → ¬ (j = i ∧ l = k) →
      refAt addr' sec' j l = refAt addr sec j l)
    (hfresh : ∀ b, fb + 1 ≤ b → b < FSSIZE → ∀ r, sec' b r = 0)
    (hsec : ∀ j o, j < n → o < (data j).length →
      sec' (refAt addr sec j (slotOf (o / BSIZE))) = sec (refAt addr sec j (slotOf (o / BSIZE)))) :
    Laid n addr' sec' (fb + 1) (update c i (k + 1)) data where
  low := Nat.le_succ_of_le h.low
  refs := hrefs
  fresh := hfresh
  room := by
    intro j o hj ho
    obtain ⟨hlive, hmax⟩ := h.room j o hj ho
    refine ⟨?_, hmax⟩
    by_cases hji : j = i
    · rw [hji] at hlive ⊢
      rw [Function.update_self]
      omega
    · rw [Function.update_of_ne hji]
      exact hlive
  content := by
    intro j o hj ho
    obtain ⟨hlive, hmax⟩ := h.room j o hj ho
    rw [hold j _ hj hmax, hsec j o hj ho]
    · exact h.content j o hj ho
    · rintro ⟨rfl, heq⟩
      omega

theorem Laid.not_used : ¬ (nmeta ≤ fb ∧ fb < fb) := fun h => Nat.lt_irrefl fb h.2

theorem Laid.used_succ (b : Nat) (h : nmeta ≤ b ∧ b < fb) : nmeta ≤ b ∧ b < fb + 1 :=
  ⟨h.1, Nat.lt_succ_of_lt h.2⟩

/-- `addrs[k]` is allocated. -/
theorem Laid.allocAddr (h : Laid n addr sec fb c data) (hk : k ≤ NDIRECT)
    (hc : c i = k) (hfb : fb < FSSIZE) (hnew : addr' i k = fb)
    (hold : ∀ j l, j < n → l ≤ NDIRECT → ¬ (j = i ∧ l = k) → addr' j l = addr j l) :
    Laid n addr' sec (fb + 1) (update c i (k + 1)) data := by
  have hzero : k = NDIRECT → ∀ r, r < BSIZE → sec fb r = 0 := fun _ r _ =>
    h.fresh fb (Nat.le_refl fb) hfb r
  apply h.alloc hc
  · exact h.refs.allocAddr hk hc h.pos not_used used_succ ⟨h.low, Nat.lt_succ_self fb⟩ hnew hzero
      hold fun _ _ _ => rfl
  · exact h.refs.addr_old hk hc h.pos hnew hzero hold fun _ _ _ => rfl
  · intro b hb hlt
    exact h.fresh b (by omega) hlt
  · exact fun _ _ _ _ => rfl

/-- An entry of the indirect block is allocated. -/
theorem Laid.allocEntry (h : Laid n addr sec fb c data) (hi : i < n) (hk : NDIRECT < k)
    (hmax : k < maxSlots) (hc : c i = k) (hfb : fb < 4294967296) :
    Laid n addr
      (update sec (addr i NDIRECT) (put32 (sec (addr i NDIRECT)) (4 * (k - 13)) fb)) (fb + 1)
      (update c i (k + 1)) data := by
  have hind : addr i NDIRECT ≠ 0 := (h.refs.indirect_iff hi).mpr (by omega)
  have hself : update sec (addr i NDIRECT) (put32 (sec (addr i NDIRECT)) (4 * (k - 13)) fb)
      (addr i NDIRECT) = put32 (sec (addr i NDIRECT)) (4 * (k - 13)) fb :=
    Function.update_self _ _ _
  have hother : ∀ j, j < n → addr j NDIRECT ≠ 0 → addr j NDIRECT ≠ addr i NDIRECT →
      update sec (addr i NDIRECT) (put32 (sec (addr i NDIRECT)) (4 * (k - 13)) fb)
        (addr j NDIRECT) = sec (addr j NDIRECT) :=
    fun j _ _ hne => Function.update_of_ne hne _ _
  apply h.alloc hc
  · exact h.refs.allocEntry hi hk hmax hc h.pos hfb not_used used_succ
      ⟨h.low, Nat.lt_succ_self fb⟩ hself hother
  · exact h.refs.entry_old hi hk hc hself hother
  · intro b hb hlt r
    have hne : b ≠ addr i NDIRECT := by
      have hlt' := (h.refs.indirect hi hind).2
      omega
    rw [Function.update_of_ne hne]
    exact h.fresh b (by omega) hlt r
  · intro j o hj ho
    obtain ⟨hlive, hslot⟩ := h.room j o hj ho
    apply Function.update_of_ne
    exact h.refs.data_ne_indirect hj hi hslot ((h.refs.live j _ hj hslot).mpr hlive)

/-- Bytes are stored in a data block of inode `i`, behind those of the file. -/
theorem Laid.store (h : Laid n addr sec fb c data) (hi : i < n) {p : List UInt8}
    (hx : x = refAt addr sec i (slotOf ((data i).length / BSIZE)))
    (hlive : slotOf ((data i).length / BSIZE) < c i)
    (hmax : slotOf ((data i).length / BSIZE) < maxSlots)
    (hp : (data i).length % BSIZE + p.length ≤ BSIZE) :
    Laid n addr (update sec x (copy (sec x) ((data i).length % BSIZE) (bytesOf p) p.length)) fb c
      (update data i (data i ++ p)) := by
  have hne : x ≠ 0 := by
    rw [hx]
    exact (h.refs.live i _ hi hmax).mpr hlive
  have hrange := h.range hi hmax (by rw [← hx]; exact hne)
  rw [← hx] at hrange
  have hind : ∀ j, j < n → x ≠ addr j NDIRECT := by
    intro j hj
    rw [hx]
    exact h.refs.data_ne_indirect hi hj hmax (by rw [← hx]; exact hne)
  have href : ∀ j k, j < n → refAt addr
      (update sec x (copy (sec x) ((data i).length % BSIZE) (bytesOf p) p.length)) j k =
        refAt addr sec j k := by
    intro j k hj
    apply refAt_congr (fun _ _ => rfl)
    intro _ r
    rw [Function.update_of_ne (Ne.symm (hind j hj))]
  -- the block of a byte of the longer file
  have hblock : ∀ o, o < (data i ++ p).length → o < (data i).length ∨
      o / BSIZE = (data i).length / BSIZE ∧
        o % BSIZE = (data i).length % BSIZE + (o - (data i).length) ∧
        o - (data i).length < p.length ∧ (data i).length ≤ o := by
    intro o ho
    rw [List.length_append] at ho
    unfold BSIZE at *
    omega
  exact
    { low := h.low
      refs := by
        refine h.refs.congr (fun _ _ _ _ => rfl) (fun j hj _ => ?_) fun _ hb => hb
        exact Function.update_of_ne (Ne.symm (hind j hj)) _ _
      fresh := by
        intro b hb hlt r
        rw [Function.update_of_ne (by omega)]
        exact h.fresh b hb hlt r
      room := by
        intro j o hj ho
        by_cases hji : j = i
        · rw [hji, Function.update_self] at ho
          rcases hblock o ho with hold | ⟨hsame, -⟩
          · rw [hji]
            exact h.room i o hi hold
          · rw [hji, hsame]
            exact ⟨hlive, hmax⟩
        · rw [Function.update_of_ne hji] at ho
          exact h.room j o hj ho
      content := by
        intro j o hj ho
        by_cases hji : j = i
        · rw [hji, Function.update_self] at ho ⊢
          rw [href i _ hi]
          rcases hblock o ho with hold | ⟨hsame, hmod, hlt, hle⟩
          · have hcontent := h.content i o hi hold
            rw [List.getD_append _ _ _ _ hold, ← hcontent]
            by_cases hbx : refAt addr sec i (slotOf (o / BSIZE)) = x
            · -- a byte before those that are stored
              rw [hbx, Function.update_self]
              apply copy_outside
              obtain ⟨-, hslot⟩ := h.room i o hi hold
              have heq := slotOf_inj (h.refs.inj i i _ _ hi hi hslot hmax (by rw [hbx]; exact hne)
                (by rw [hbx, hx])).2
              unfold BSIZE at *
              omega
            · rw [Function.update_of_ne hbx]
          · rw [hsame, ← hx, Function.update_self, hmod, copy_inside hlt,
              List.getD_append_right _ _ _ _ hle]
            rfl
        · rw [Function.update_of_ne hji] at ho ⊢
          rw [href j _ hj]
          obtain ⟨hlivej, hslot⟩ := h.room j o hj ho
          have hbx : refAt addr sec j (slotOf (o / BSIZE)) ≠ x := by
            intro heq
            have hnej := (h.refs.live j _ hj hslot).mpr hlivej
            rw [hx] at heq
            exact hji (h.refs.inj j i _ _ hj hi hslot hmax hnej heq).1
          rw [Function.update_of_ne hbx]
          exact h.content j o hj ho }

/-! ## The loop of `iappend` -/

/-- The bytes of an inode in the image. -/
def Image.inode (m : Image) (i : Nat) : Bytes := fun j =>
  m.sector (Image.IBLOCK i) (i % IPB * dinodeSize + j)

def Image.addrs (m : Image) (i k : Nat) : Nat := u32 (m.inode i) (addrField k)

/-- The addresses, where inode `i` is the `din` of `iappend`. -/
def withDin (addr : Nat → Nat → Nat) (i : Nat) (din : Bytes) : Nat → Nat → Nat :=
  update addr i fun k => u32 din (addrField k)

/-- In an `iappend` to inode `i` that has begun in the state `s₀`: the inodes in the image are
as they were, and inode `i` is `din`. -/
structure Mid (s₀ : State) (i : Nat) (c : Nat → Nat) (data : Nat → List UInt8) (s : State)
    (din : Bytes) : Prop where
  len : s.image.len = FSSIZE
  freeinode : s.freeinode = s₀.freeinode
  metas : ∀ b, b < nmeta → s.image.sector b = s₀.image.sector b
  header : ∀ o, o < 12 → din o = s₀.image.inode i o
  laid : Laid NINODES (withDin s₀.image.addrs i din) s.image.sector s.freeblock c data
  fits : s.freeblock ≤ FSSIZE

variable {s₀ s s' : State} {din : Bytes} {off fbn : Nat} {p : List UInt8}

theorem withDin_self (addr : Nat → Nat → Nat) (i : Nat) (din : Bytes) (k : Nat) :
    withDin addr i din i k = u32 din (addrField k) := by
  unfold withDin
  rw [Function.update_self]

theorem withDin_of_ne (h : j ≠ i) (addr : Nat → Nat → Nat) (din : Bytes) :
    withDin addr i din j = addr j :=
  Function.update_of_ne h _ _

section Mid

variable (h : Mid s₀ i c data s din) (hi : i < NINODES)

include h hi

theorem Mid.addr_iff (hk : k ≤ NDIRECT) : u32 din (addrField k) ≠ 0 ↔ k < c i := by
  rw [← h.laid.refs.live i k hi (Nat.lt_of_le_of_lt hk (by decide)), refAt_addr hk, withDin_self]

theorem Mid.allocAddr_old (hk : k ≤ NDIRECT) (hc : k < c i) : s.allocAddr din k = (s, din) :=
  if_neg ((h.addr_iff hi hk).mpr hc)

theorem Mid.allocAddr_new (hk : k ≤ NDIRECT) (hc : c i = k) :
    s.allocAddr din k =
      ({ s with freeblock := s.freeblock + 1 }, put32 din (addrField k) s.freeblock) := by
  have hzero : u32 din (addrField k) = 0 := by
    by_contra hne
    have hlt := (h.addr_iff hi hk).mp hne
    omega
  exact if_pos hzero

omit hi in
/-- The next of the addresses is allocated. -/
theorem Mid.addAddr (hk : k ≤ NDIRECT) (hc : c i = k) (hroom : s.freeblock < FSSIZE) :
    Mid s₀ i (update c i (k + 1)) data { s with freeblock := s.freeblock + 1 }
      (put32 din (addrField k) s.freeblock) where
  len := h.len
  freeinode := h.freeinode
  metas := h.metas
  header o ho := by
    rw [put32_of_ne (by unfold addrField; omega)]
    exact h.header o ho
  laid := by
    have hlt : s.freeblock < 4294967296 := Nat.lt_trans hroom (by decide)
    refine h.laid.allocAddr hk hc hroom ?_ ?_
    · rw [withDin_self, u32_put32_self hlt]
    · intro j l hj hl hne
      by_cases hji : j = i
      · rw [hji, withDin_self, withDin_self]
        have hlk : l ≠ k := fun heq => hne ⟨hji, heq⟩
        apply u32_put32_ne
        unfold addrField
        omega
      · rw [withDin_of_ne hji, withDin_of_ne hji]
  fits := hroom

/-- The indirect block is in the image. -/
theorem Mid.indirect (hc : NDIRECT < c i) :
    nmeta ≤ u32 din (addrField NDIRECT) ∧ u32 din (addrField NDIRECT) < s.freeblock ∧
      s.image.rsect (u32 din (addrField NDIRECT)) =
        some (s.image.sector (u32 din (addrField NDIRECT))) := by
  have hne := (h.addr_iff hi (Nat.le_refl NDIRECT)).mpr hc
  have hrange := h.laid.refs.inUse i NDIRECT hi (by decide)
  rw [refAt_addr (Nat.le_refl _), withDin_self] at hrange
  obtain ⟨hlow, hlt⟩ := hrange hne
  refine ⟨hlow, hlt, if_pos ?_⟩
  rw [h.len]
  exact Nat.lt_of_lt_of_le hlt h.fits

theorem Mid.entry_iff (hc : NDIRECT < c i) (hj : j < NINDIRECT) :
    u32 (s.image.sector (u32 din (addrField NDIRECT))) (4 * j) ≠ 0 ↔ 13 + j < c i := by
  have hne := (h.addr_iff hi (Nat.le_refl NDIRECT)).mpr hc
  rw [← h.laid.refs.live i (13 + j) hi (by unfold maxSlots; omega),
    refAt_entry (by unfold NDIRECT; omega) (by rw [withDin_self]; exact hne), withDin_self,
    Nat.add_sub_cancel_left]

theorem Mid.allocEntry_old (hj : j < NINDIRECT) (hc : 13 + j < c i) :
    s.allocEntry (u32 din (addrField NDIRECT)) j =
      some (s, u32 (s.image.sector (u32 din (addrField NDIRECT))) (4 * j)) := by
  have hind : NDIRECT < c i := by
    unfold NDIRECT
    omega
  unfold State.allocEntry
  rw [(h.indirect hi hind).2.2, Option.map_some, if_neg ((h.entry_iff hi hind hj).mpr hc)]

theorem Mid.allocEntry_new (hj : j < NINDIRECT) (hc : c i = 13 + j) :
    s.allocEntry (u32 din (addrField NDIRECT)) j =
      some ({ s with
        image := s.image.wsect (u32 din (addrField NDIRECT))
          (put32 (s.image.sector (u32 din (addrField NDIRECT))) (4 * j) s.freeblock)
        freeblock := s.freeblock + 1 }, s.freeblock) := by
  have hind : NDIRECT < c i := by
    unfold NDIRECT
    omega
  have hzero : u32 (s.image.sector (u32 din (addrField NDIRECT))) (4 * j) = 0 := by
    by_contra hne
    have hlt := (h.entry_iff hi hind hj).mp hne
    omega
  unfold State.allocEntry
  rw [(h.indirect hi hind).2.2, Option.map_some, if_pos hzero]

/-- The next entry of the indirect block is allocated. -/
theorem Mid.addEntry (hj : j < NINDIRECT) (hc : c i = 13 + j) (hroom : s.freeblock < FSSIZE) :
    Mid s₀ i (update c i (13 + j + 1)) data
      { s with
        image := s.image.wsect (u32 din (addrField NDIRECT))
          (put32 (s.image.sector (u32 din (addrField NDIRECT))) (4 * j) s.freeblock)
        freeblock := s.freeblock + 1 } din := by
  have hind : NDIRECT < c i := by
    unfold NDIRECT
    omega
  obtain ⟨hlow, hlt, -⟩ := h.indirect hi hind
  have hfits := h.fits
  have hlaid := h.laid.allocEntry hi (by unfold NDIRECT; omega) (by unfold maxSlots; omega) hc
    (Nat.lt_trans hroom (by decide))
  rw [withDin_self, Nat.add_sub_cancel_left] at hlaid
  exact
    { len := by
        show max s.image.len (_ + 1) = FSSIZE
        rw [h.len]
        omega
      freeinode := h.freeinode
      metas := by
        intro b hb
        show update s.image.sector _ _ b = _
        rw [Function.update_of_ne (by omega)]
        exact h.metas b hb
      header := h.header
      laid := hlaid
      fits := hroom }

theorem Mid.len_addEntry (hc : NDIRECT < c i) (buf : Bytes) :
    (s.image.wsect (u32 din (addrField NDIRECT)) buf).len = FSSIZE := by
  obtain ⟨-, hlt, -⟩ := h.indirect hi hc
  have hfits := h.fits
  show max s.image.len (_ + 1) = FSSIZE
  rw [h.len]
  omega

/-- The entry `j` of the indirect block is there, or it is the next. -/
theorem Mid.entryFor (hj : j < NINDIRECT) (hc : c i = 13 + j + 1 ∨ c i = 13 + j) :
    (∃ s' x, s.allocEntry (u32 din (addrField NDIRECT)) j = some (s', x) ∧
      Mid s₀ i (update c i (13 + j + 1)) data s' din ∧
      x = refAt (withDin s₀.image.addrs i din) s'.image.sector i (13 + j) ∧
      s'.freeblock + c i = s.freeblock + (13 + j + 1)) ∨
    FSSIZE + c i < s.freeblock + (13 + j + 1) ∧
      ∀ r, s.allocEntry (u32 din (addrField NDIRECT)) j = some r →
        r.1.image.len = FSSIZE ∧ FSSIZE ≤ r.2 := by
  have hfits := h.fits
  have hind : NDIRECT < c i := by
    unfold NDIRECT
    omega
  have hne := (h.addr_iff hi (Nat.le_refl NDIRECT)).mpr hind
  have hk : NDIRECT < 13 + j := by
    unfold NDIRECT
    omega
  rcases hc with hc | hc
  · rw [h.allocEntry_old hi hj (by omega)]
    left
    refine ⟨s, _, rfl, ?_, ?_, by omega⟩
    · rw [← hc, Function.update_eq_self]
      exact h
    · rw [refAt_entry hk (by rw [withDin_self]; exact hne), withDin_self, Nat.add_sub_cancel_left]
  · rw [h.allocEntry_new hi hj hc]
    by_cases hroom : s.freeblock < FSSIZE
    · left
      refine ⟨_, _, rfl, h.addEntry hi hj hc hroom, ?_, ?_⟩
      · show _ = refAt _ (update s.image.sector _ _) i (13 + j)
        rw [refAt_entry hk (by rw [withDin_self]; exact hne), withDin_self, Function.update_self,
          Nat.add_sub_cancel_left, u32_put32_self (Nat.lt_trans hroom (by decide))]
      · show s.freeblock + 1 + c i = _
        omega
    · right
      refine ⟨by omega, ?_⟩
      intro r hr
      injection hr with hr
      rw [← hr]
      refine ⟨h.len_addEntry hi hind _, ?_⟩
      show FSSIZE ≤ s.freeblock
      omega

/-- The block `fbn` of the file is there, or it is the next: it is allocated with at most one
other block, or the image is full. -/
theorem Mid.blockFor (hfbn : fbn < MAXFILE)
    (hc : c i = slotOf fbn + 1 ∨ c i = slotOf fbn ∨ fbn = NDIRECT ∧ c i = NDIRECT) :
    (∃ s' din' x, s.blockFor din fbn = some (s', din', x) ∧
      Mid s₀ i (update c i (slotOf fbn + 1)) data s' din' ∧
      x = refAt (withDin s₀.image.addrs i din') s'.image.sector i (slotOf fbn) ∧
      s'.freeblock + c i = s.freeblock + (slotOf fbn + 1)) ∨
    FSSIZE + c i < s.freeblock + (slotOf fbn + 1) ∧
      ∀ r, s.blockFor din fbn = some r → r.1.image.len = FSSIZE ∧ FSSIZE ≤ r.2.2 := by
  have hfits := h.fits
  unfold State.blockFor
  by_cases hdirect : fbn < NDIRECT
  · have hslot : slotOf fbn = fbn := if_pos hdirect
    have hk : fbn ≤ NDIRECT := Nat.le_of_lt hdirect
    rw [if_pos hdirect]
    simp only [hslot] at hc ⊢
    have hc' : c i = fbn + 1 ∨ c i = fbn := by omega
    rcases hc' with hc | hc
    · rw [h.allocAddr_old hi hk (by omega)]
      left
      refine ⟨s, din, _, rfl, ?_, ?_, by omega⟩
      · rw [← hc, Function.update_eq_self]
        exact h
      · rw [refAt_addr hk, withDin_self]
    · rw [h.allocAddr_new hi hk hc]
      by_cases hroom : s.freeblock < FSSIZE
      · left
        refine ⟨_, _, _, rfl, h.addAddr hk hc hroom, ?_, ?_⟩
        · rw [refAt_addr hk, withDin_self]
        · show s.freeblock + 1 + c i = _
          omega
      · right
        refine ⟨by omega, ?_⟩
        intro r hr
        injection hr with hr
        rw [← hr]
        refine ⟨h.len, ?_⟩
        show FSSIZE ≤ u32 (put32 din (addrField fbn) s.freeblock) (addrField fbn)
        rw [u32_put32_self (Nat.lt_of_le_of_lt hfits (by decide))]
        omega
  · have hslot : slotOf fbn = 13 + (fbn - NDIRECT) := by
      have hsucc : slotOf fbn = fbn + 1 := if_neg hdirect
      unfold NDIRECT at *
      omega
    obtain ⟨j, hjdef⟩ : ∃ j, j = fbn - NDIRECT := ⟨_, rfl⟩
    have hj : j < NINDIRECT := by
      unfold MAXFILE at hfbn
      omega
    rw [if_neg hdirect, hslot, ← hjdef]
    rw [hslot, ← hjdef] at hc
    by_cases hold : NDIRECT < c i
    · rw [h.allocAddr_old hi (Nat.le_refl _) hold]
      rcases h.entryFor hi hj (by omega) with ⟨s', x, hrun, hmid, hx, hcount⟩ | ⟨hfull, hend⟩
      · left
        refine ⟨s', din, x, ?_, hmid, hx, hcount⟩
        simp only [hrun, Option.map_some]
      · right
        refine ⟨hfull, ?_⟩
        intro r hr
        simp only [Option.map_eq_some_iff] at hr
        obtain ⟨t, ht, rfl⟩ := hr
        exact hend t ht
    · -- the indirect block is allocated, too
      have hci : c i = NDIRECT ∧ j = 0 := by
        unfold NDIRECT at *
        omega
      rw [h.allocAddr_new hi (Nat.le_refl _) hci.1]
      by_cases hroom : s.freeblock < FSSIZE
      · have h₁ := h.addAddr (Nat.le_refl _) hci.1 hroom
        have hc₁ : update c i (NDIRECT + 1) i = 13 + j := by
          rw [Function.update_self, hci.2]
          rfl
        rcases h₁.entryFor hi hj (.inr hc₁) with ⟨s', x, hrun, hmid, hx, hcount⟩ | ⟨hfull, hend⟩
        · left
          rw [Function.update_idem] at hmid
          refine ⟨s', _, x, ?_, hmid, hx, ?_⟩
          · simp only [hrun, Option.map_some]
          · rw [hc₁] at hcount
            simp only at hcount
            unfold NDIRECT at hci
            omega
        · right
          rw [hc₁] at hfull
          simp only at hfull
          refine ⟨by unfold NDIRECT at hci; omega, ?_⟩
          intro r hr
          simp only [Option.map_eq_some_iff] at hr
          obtain ⟨t, ht, rfl⟩ := hr
          exact hend t ht
      · right
        refine ⟨by unfold NDIRECT at hci; omega, ?_⟩
        intro r hr
        have hnone : s.image.rsect s.freeblock = none := by
          apply if_neg
          rw [h.len]
          exact hroom
        have hself : u32 (put32 din (addrField NDIRECT) s.freeblock) (addrField NDIRECT) =
            s.freeblock := u32_put32_self (Nat.lt_of_le_of_lt hfits (by decide))
        unfold State.allocEntry at hr
        simp only [hself, hnone, Option.map_none] at hr
        cases hr

/-- Bytes are copied into a block of the file. -/
theorem Mid.store {x : Nat}
    (hx : x = refAt (withDin s₀.image.addrs i din) s.image.sector i
      (slotOf ((data i).length / BSIZE)))
    (hlive : slotOf ((data i).length / BSIZE) < c i)
    (hmax : slotOf ((data i).length / BSIZE) < maxSlots)
    (hp : (data i).length % BSIZE + p.length ≤ BSIZE) :
    ∃ s', s.store x ((data i).length % BSIZE) p = some s' ∧
      Mid s₀ i c (update data i (data i ++ p)) s' din ∧ s'.freeblock = s.freeblock := by
  have hne := (h.laid.refs.live i _ hi hmax).mpr hlive
  have hrange := h.laid.range hi hmax hne
  rw [← hx] at hrange
  have hfits := h.fits
  have hread : s.image.rsect x = some (s.image.sector x) := by
    apply if_pos
    rw [h.len]
    omega
  unfold State.store
  rw [hread, Option.map_some]
  refine ⟨_, rfl, ?_, rfl⟩
  exact
    { len := by
        show max s.image.len (x + 1) = FSSIZE
        rw [h.len]
        omega
      freeinode := h.freeinode
      metas := by
        intro b hb
        show update s.image.sector _ _ b = _
        rw [Function.update_of_ne (by omega)]
        exact h.metas b hb
      header := h.header
      laid := h.laid.store hi hx hlive hmax hp
      fits := h.fits }

end Mid

/-! ## Sizes -/

/-- The references of files with these contents. -/
def slots (data : Nat → List UInt8) (i : Nat) : Nat := slotsFor (data i).length

theorem slots_update (data : Nat → List UInt8) (i : Nat) (p : List UInt8) :
    slots (update data i p) = update (slots data) i (slotsFor p.length) := by
  funext j
  unfold slots
  by_cases hj : j = i
  · rw [hj, Function.update_self, Function.update_self]
  · rw [Function.update_of_ne hj, Function.update_of_ne hj]

/-! ## Rounds -/

/-- One round of `iappend`; it fails if the file or the image is full. -/
theorem Mid.appendPiece {n1 : Nat} (h : Mid s₀ i (slots data) data s din) (hi : i < NINODES)
    (hp : p ≠ []) (hoff : off = (data i).length)
    (hn : n1 = min p.length ((off / BSIZE + 1) * BSIZE - off)) :
    (∃ s' din', s.appendPiece din off p = some (s', din', n1) ∧
      Mid s₀ i (slots (update data i (data i ++ p.take n1))) (update data i (data i ++ p.take n1))
        s' din' ∧ s'.freeblock + slotsFor off = s.freeblock + slotsFor (off + n1)) ∨
    s.appendPiece din off p = none ∧
      (MAXFILE * BSIZE < off + p.length ∨
        FSSIZE + slotsFor off < s.freeblock + slotsFor (off + n1)) := by
  have hlen : 0 < p.length := List.length_pos_iff.mpr hp
  unfold State.appendPiece
  simp only
  by_cases hmax : MAXFILE ≤ off / BSIZE
  · rw [if_pos hmax]
    refine .inr ⟨rfl, .inl ?_⟩
    have hle := (Nat.le_div_iff_mul_le (by decide)).mp hmax
    omega
  rw [if_neg hmax]
  have hpos : 0 < n1 ∧ off % BSIZE + n1 ≤ BSIZE ∧ off - off / BSIZE * BSIZE = off % BSIZE := by
    unfold BSIZE at *
    omega
  have hafter := slotsFor_piece hpos.1 hpos.2.1
  have htake : (p.take n1).length = n1 := by
    rw [List.length_take]
    omega
  have hc : slots data i = slotOf (off / BSIZE) + 1 ∨ slots data i = slotOf (off / BSIZE) ∨
      off / BSIZE = NDIRECT ∧ slots data i = NDIRECT := by
    unfold slots
    rw [← hoff]
    exact slotsFor_before off
  have hslots : slots data i = slotsFor off := by
    unfold slots
    rw [hoff]
  rcases h.blockFor hi (Nat.lt_of_not_le hmax) hc with
    ⟨s₁, din₁, x, hrun, hmid, hx, hcount⟩ | ⟨hfull, hend⟩
  · rw [hrun, Option.bind_some, ← hn, hpos.2.2]
    simp only
    rw [hoff] at hx hmid hpos ⊢
    obtain ⟨s', hstore, hmid', hfb⟩ := hmid.store (p := p.take n1) hi hx
      (by rw [Function.update_self]; omega)
      (slotOf_lt (by rw [← hoff]; exact Nat.lt_of_not_le hmax)) (by rw [htake]; exact hpos.2.1)
    left
    refine ⟨s', din₁, by rw [hstore]; rfl, ?_, ?_⟩
    · rw [slots_update, List.length_append, htake, ← hoff, hafter, hoff]
      exact hmid'
    · rw [hfb, ← hoff, hafter, ← hslots]
      exact hcount
  · right
    refine ⟨?_, .inr (by rw [hafter, ← hslots]; exact hfull)⟩
    cases hrun : s.blockFor din (off / BSIZE) with
    | none => rfl
    | some r =>
        obtain ⟨hend₁, hend₂⟩ := hend r hrun
        have hread : r.1.image.rsect r.2.2 = none := by
          apply if_neg
          rw [hend₁]
          exact Nat.not_lt_of_le hend₂
        rw [Option.bind_some]
        unfold State.store
        rw [hread]
        rfl

/-- The loop of `iappend` appends all the bytes, or the file or the image is full. -/
theorem Mid.appendLoop (hi : i < NINODES) : ∀ (fuel : Nat) {data : Nat → List UInt8}
    {s : State} {din : Bytes} {p : List UInt8}, p.length ≤ fuel →
    Mid s₀ i (slots data) data s din →
    (∃ s' din', State.appendLoop fuel s din (data i).length p =
        some (s', din', (data i).length + p.length) ∧
      Mid s₀ i (slots (update data i (data i ++ p))) (update data i (data i ++ p)) s' din' ∧
      s'.freeblock + slotsFor (data i).length =
        s.freeblock + slotsFor ((data i).length + p.length)) ∨
    State.appendLoop fuel s din (data i).length p = none ∧
      (MAXFILE * BSIZE < (data i).length + p.length ∨
        FSSIZE + slotsFor (data i).length <
          s.freeblock + slotsFor ((data i).length + p.length)) := by
  intro fuel
  induction fuel with
  | zero =>
      intro data s din p hfuel h
      have hp : p = [] := List.length_eq_zero_iff.mp (by omega)
      subst hp
      rw [List.append_nil, Function.update_eq_self]
      exact .inl ⟨s, din, rfl, h, rfl⟩
  | succ fuel ih =>
      intro data s din p hfuel h
      unfold State.appendLoop
      by_cases hp : p = []
      · subst hp
        rw [if_pos rfl, List.append_nil, Function.update_eq_self]
        exact .inl ⟨s, din, rfl, h, rfl⟩
      rw [if_neg hp]
      obtain ⟨n1, hn⟩ : ∃ n1, n1 = min p.length (((data i).length / BSIZE + 1) * BSIZE -
        (data i).length) := ⟨_, rfl⟩
      have hlen : 0 < p.length := List.length_pos_iff.mpr hp
      have hn1 : 0 < n1 ∧ n1 ≤ p.length := by
        unfold BSIZE at hn
        omega
      have hdrop : (p.drop n1).length = p.length - n1 := List.length_drop
      have htake : (p.take n1).length = n1 := by
        rw [List.length_take]
        omega
      have hmono : slotsFor ((data i).length + n1) ≤ slotsFor ((data i).length + p.length) :=
        slotsFor_mono (by omega)
      rcases h.appendPiece hi hp rfl hn with ⟨s₁, din₁, hrun, h₁, hcount⟩ | ⟨hrun, hfull⟩
      · rw [hrun, Option.bind_some]
        have hdata : update data i (data i ++ p.take n1) i = data i ++ p.take n1 :=
          Function.update_self _ _ _
        have hsize : (data i ++ p.take n1).length = (data i).length + n1 := by
          rw [List.length_append, htake]
        have hrest := ih (p := p.drop n1) (by omega) h₁
        rw [hdata, hsize, Function.update_idem, List.append_assoc, List.take_append_drop, hdrop,
          Nat.add_assoc, Nat.add_sub_cancel' hn1.2] at hrest
        rcases hrest with ⟨s', din', hrun', h', hcount'⟩ | ⟨hrun', hfull⟩
        · exact .inl ⟨s', din', hrun', h', by omega⟩
        · exact .inr ⟨hrun', by omega⟩
      · right
        rw [hrun]
        exact ⟨rfl, by omega⟩

end OsWork.Ports.Mkfs

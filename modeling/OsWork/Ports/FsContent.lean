import Mathlib.Data.List.GetD
import OsWork.Ports.FsDisk

/-!
# The contents of inodes

`bmap`, `readi` and `writei` of `fs.c` on a consistent disk.  The contents of an inode are the
bytes in the blocks that its references name; `writei` allocates the references in the order of
their numbers, so those of a file are the first `slotsFor size`.

## Main results

* `Mapped.bmap` — `bmap` finds the block, or allocates what is missing, or the disk is full.
* `Mapped.writeLoop` — the loop of `writei`.
* `Consistent.readi`, `Consistent.writei` — files are arrays of bytes.
-/

namespace OsWork.Ports.FsDisk

open OsWork.Verified.ByteWords OsWork.Verified.ByteBits OsWork.Ports.FsLayout
open Function (update)

/-! ## The source -/

def T_DEV : Nat := 3
def NDEV : Nat := 10

/-- `devsw`, by major device number; `none` is a null pointer. -/
structure Devsw where
  /-- the result, and what is stored at `dst` -/
  read : Nat → Option (Nat → Int × List UInt8)
  write : Nat → Option (Bytes → Nat → Int)

namespace Log

variable {σ : Type} (W : Log σ) (sb : Superblock)

/-- `if((addr = ip->addrs[k]) == 0) ip->addrs[k] = addr = balloc(ip->dev);` -/
def bmapAddr (t : σ) (ip : Inode) (k : Nat) : Option (σ × Inode × Nat) :=
  if ip.addrs k = 0 then
    (W.balloc sb t).map fun r => (r.1, { ip with addrs := update ip.addrs k r.2 }, r.2)
  else some (t, ip, ip.addrs k)

/-- The entry `j` of the indirect block `x`. -/
def bmapEntry (t : σ) (x j : Nat) : Option (σ × Nat) :=
  if u32 (W.disk t x) (4 * j) = 0 then
    (W.balloc sb t).bind fun r =>
      (W.log_write r.1 x (put32 (W.disk r.1 x) (4 * j) r.2)).map fun t => (t, r.2)
  else some (t, u32 (W.disk t x) (4 * j))

/-- `bmap`: the state after it, the inode and the block. -/
def bmap (t : σ) (ip : Inode) (bn : Nat) : Option (σ × Inode × Nat) :=
  if bn < NDIRECT then W.bmapAddr sb t ip bn
  else if bn - NDIRECT < NINDIRECT then
    (W.bmapAddr sb t ip NDIRECT).bind fun r =>
      (W.bmapEntry sb r.1 r.2.2 (bn - NDIRECT)).map fun e => (e.1, r.2.1, e.2)
  else none

/-- The loop of `readi` for the last `n` bytes, with a bound on its rounds. -/
def readLoop : Nat → σ → Inode → Nat → Nat → Option (σ × Inode × List UInt8)
  | 0, t, ip, _, _ => some (t, ip, [])
  | fuel + 1, t, ip, off, n =>
      if n = 0 then some (t, ip, [])
      else
        (W.bmap sb t ip (off / BSIZE)).bind fun r =>
          let m := min n (BSIZE - off % BSIZE)
          (readLoop fuel r.1 r.2.1 (off + m) (n - m)).map fun e =>
            (e.1, e.2.1, (List.range m).map (fun j => W.disk r.1 r.2.2 (off % BSIZE + j)) ++ e.2.2)

/-- `readi`: the state and the inode after it, the result, and what is stored at `dst`. -/
def readi (devsw : Devsw) (t : σ) (ip : Inode) (off n : Nat) :
    Option (σ × Inode × Int × List UInt8) :=
  if ip.type = T_DEV then
    match if NDEV ≤ ip.major then none else devsw.read ip.major with
    | none => some (t, ip, -1, [])
    | some read => some (t, ip, read n)
  else if ip.size < off ∨ (off + n) % 4294967296 < off then some (t, ip, -1, [])
  else
    let n := if ip.size < (off + n) % 4294967296 then ip.size - off else n
    (W.readLoop sb n t ip off n).map fun r => (r.1, r.2.1, n, r.2.2)

/-- The loop of `writei` for the last `n` bytes, with a bound on its rounds. -/
def writeLoop : Nat → σ → Inode → Bytes → Nat → Nat → Option (σ × Inode)
  | 0, t, ip, _, _, _ => some (t, ip)
  | fuel + 1, t, ip, src, off, n =>
      if n = 0 then some (t, ip)
      else
        (W.bmap sb t ip (off / BSIZE)).bind fun r =>
          let m := min n (BSIZE - off % BSIZE)
          (W.log_write r.1 r.2.2 (copy (W.disk r.1 r.2.2) (off % BSIZE) src m)).bind fun t =>
            writeLoop fuel t r.2.1 (fun j => src (j + m)) (off + m) (n - m)

/-- `writei` on inode number `i`: the state and the inode after it, and the result. -/
def writei (devsw : Devsw) (t : σ) (i : Nat) (ip : Inode) (src : Bytes) (off n : Nat) :
    Option (σ × Inode × Int) :=
  if ip.type = T_DEV then
    match if NDEV ≤ ip.major then none else devsw.write ip.major with
    | none => some (t, ip, -1)
    | some write => some (t, ip, write src n)
  else if ip.size < off ∨ (off + n) % 4294967296 < off then some (t, ip, -1)
  else if MAXFILE * BSIZE < (off + n) % 4294967296 then some (t, ip, -1)
  else
    (W.writeLoop sb n t ip src off n).bind fun r =>
      if 0 < n ∧ r.2.size < off + n then
        let ip := { r.2 with size := off + n }
        (W.iupdate sb r.1 i ip).map fun t => (t, ip, n)
      else some (r.1, r.2, n)

end Log

namespace Superblock

variable (sb : Superblock)

def readi (devsw : Devsw) (d : Disk) (ip : Inode) (off n : Nat) :
    Option (Disk × Inode × Int × List UInt8) :=
  plain.readi sb devsw d ip off n

def writei (devsw : Devsw) (d : Disk) (i : Nat) (ip : Inode) (src : Bytes) (off n : Nat) :
    Option (Disk × Inode × Int) :=
  plain.writei sb devsw d i ip src off n

/-! ## Consistent disks -/

/-- A block behind the bit map that is in use. -/
def Used (d : Disk) (b : Nat) : Prop :=
  sb.dataStart ≤ b ∧ b < sb.size ∧ sb.bit d b = true

/-- The addresses on the disk. -/
def addrsOn (d : Disk) (j : Nat) : Nat → Nat := (sb.load d j).addrs

/-- The addresses, where inode `i` is `ip` in memory. -/
def addrsWith (d : Disk) (i : Nat) (ip : Inode) : Nat → Nat → Nat :=
  update (sb.addrsOn d) i ip.addrs

end Superblock

/-- The blocks before the data are in use, and the inodes, with `ip` for inode `i`, have the
first `c` references. -/
structure Mapped (sb : Superblock) (d : Disk) (i : Nat) (ip : Inode) (c : Nat → Nat) : Prop where
  metas : ∀ b, b < sb.dataStart → sb.bit d b = true
  refs : Refs sb.ninodes (sb.addrsWith d i ip) d (sb.Used d) c

/-- The references of an inode are those that its size asks for. -/
structure Consistent (sb : Superblock) (d : Disk) : Prop where
  metas : ∀ b, b < sb.dataStart → sb.bit d b = true
  refs : Refs sb.ninodes (sb.addrsOn d) d (sb.Used d) fun i => slotsFor (sb.load d i).size
  fits : ∀ i, i < sb.ninodes → (sb.load d i).size ≤ MAXFILE * BSIZE

/-- The byte at the offset `o` of inode `i`. -/
def byteAt (addr : Nat → Nat → Nat) (d : Disk) (i o : Nat) : UInt8 :=
  d (refAt addr d i (slotOf (o / BSIZE))) (o % BSIZE)

def Superblock.contents (sb : Superblock) (d : Disk) (i : Nat) : List UInt8 :=
  (List.range (sb.load d i).size).map (byteAt (sb.addrsOn d) d i)

/-! ## Steps -/

/-- Inode `i` has got references, and bytes of it have been written: those from `off` to
`off + n`, from `src`. -/
structure Written (sb : Superblock) (i : Nat) (d : Disk) (ip : Inode) (c : Nat → Nat)
    (src : Bytes) (off n : Nat) (d' : Disk) (ip' : Inode) (c' : Nat) : Prop where
  mapped : Mapped sb d' i ip' (update c i c')
  table : ∀ x, x < sb.bmapstart → d' x = d x
  kept : ip' = { ip with addrs := ip'.addrs }
  fields : ip.Ok → ip'.Ok
  le : c i ≤ c'
  count : sb.freeCount d' + c' = sb.freeCount d + c i
  bytes : ∀ j o, j < sb.ninodes → o < MAXFILE * BSIZE → slotOf (o / BSIZE) < c j →
    byteAt (sb.addrsWith d' i ip') d' j o =
      if j = i ∧ off ≤ o ∧ o < off + n then src (o - off)
      else byteAt (sb.addrsWith d i ip) d j o
  new : ∀ o, off ≤ o → o < off + n →
    slotOf (o / BSIZE) < c' ∧ byteAt (sb.addrsWith d' i ip') d' i o = src (o - off)
  same : c' = c i → ip' = ip

variable {sb : Superblock} {d d' d₁ d₂ : Disk} {i j k b x bn off n : Nat} {ip ip' ip₁ ip₂ : Inode}
  {c : Nat → Nat} {c₁ c₂ : Nat} {src : Bytes}

theorem addrsWith_self : sb.addrsWith d i ip i = ip.addrs := Function.update_self _ _ _

theorem addrsWith_of_ne (h : j ≠ i) : sb.addrsWith d i ip j = sb.addrsOn d j :=
  Function.update_of_ne h _ _

theorem addrsWith_load : sb.addrsWith d i (sb.load d i) = sb.addrsOn d :=
  Function.update_eq_self _ _

/-- Nothing has happened. -/
theorem Mapped.refl (h : Mapped sb d i ip c) (src : Bytes) (off : Nat) :
    Written sb i d ip c src off 0 d ip (c i) where
  mapped := by
    rw [Function.update_eq_self]
    exact h
  table _ _ := rfl
  kept := rfl
  fields h := h
  le := Nat.le_refl _
  count := rfl
  bytes j o _ _ _ := (if_neg (by omega)).symm
  new o hle hlt := by omega
  same _ := rfl

theorem Written.trans {m : Nat} (hi : i < sb.ninodes) (hmax : off + n + m ≤ MAXFILE * BSIZE)
    (h : Written sb i d ip c src off n d₁ ip₁ c₁)
    (h' : Written sb i d₁ ip₁ (update c i c₁) (fun j => src (j + n)) (off + n) m d₂ ip₂ c₂) :
    Written sb i d ip c src off (n + m) d₂ ip₂ c₂ := by
  have hle := h.le
  have hle' := h'.le
  rw [Function.update_self] at hle'
  have hcount := h.count
  have hcount' := h'.count
  rw [Function.update_self] at hcount'
  have hmapped := h'.mapped
  rw [Function.update_idem] at hmapped
  exact
    { mapped := hmapped
      table := fun x hx => (h'.table x hx).trans (h.table x hx)
      kept := by
        rw [h'.kept, h.kept]
      fields := fun hok => h'.fields (h.fields hok)
      le := by omega
      count := by omega
      bytes := by
        intro j o hj ho hlive
        have hlive' : slotOf (o / BSIZE) < update c i c₁ j := by
          by_cases hji : j = i
          · rw [hji, Function.update_self]
            rw [hji] at hlive
            omega
          · rw [Function.update_of_ne hji]
            exact hlive
        rw [h'.bytes j o hj ho hlive', h.bytes j o hj ho hlive]
        by_cases hji : j = i
        · by_cases hlow : o < off
          · rw [if_neg (by omega), if_neg (by omega), if_neg (by omega)]
          · by_cases hmid : o < off + n
            · rw [if_neg (by omega), if_pos (by omega), if_pos (by omega)]
            · by_cases hhigh : o < off + n + m
              · rw [if_pos (by omega), if_pos (by omega)]
                congr 1
                omega
              · rw [if_neg (by omega), if_neg (by omega), if_neg (by omega)]
        · rw [if_neg (fun hall => hji hall.1), if_neg (fun hall => hji hall.1),
            if_neg (fun hall => hji hall.1)]
      new := by
        intro o ho hlt
        by_cases hmid : o < off + n
        · obtain ⟨hlive, hbyte⟩ := h.new o ho hmid
          have hlive' : slotOf (o / BSIZE) < update c i c₁ i := by
            rw [Function.update_self]
            exact hlive
          refine ⟨by omega, ?_⟩
          rw [h'.bytes i o hi (by omega) hlive', if_neg (by omega), hbyte]
        · obtain ⟨hlive, hbyte⟩ := h'.new o (by omega) (by omega)
          refine ⟨hlive, hbyte.trans ?_⟩
          congr 1
          omega
      same := by
        intro heq
        rw [h'.same (by rw [Function.update_self]; omega), h.same (by omega)] }

/-! ## Allocation -/

theorem dataStart_pos : 0 < sb.dataStart :=
  Nat.lt_of_lt_of_le (Nat.succ_pos _) (Nat.le_add_left _ _)

theorem bmapstart_lt : sb.bmapstart < sb.dataStart :=
  Nat.lt_add_of_pos_right (Nat.succ_pos _)

/-- A free block is behind the bit map. -/
theorem Alloc.data (h : Alloc sb d d' b) (hmeta : ∀ x, x < sb.dataStart → sb.bit d x = true) :
    sb.dataStart ≤ b := by
  by_contra hnot
  have hfree := h.free
  rw [hmeta b (by omega)] at hfree
  cases hfree

theorem Alloc.not_used (h : Alloc sb d d' b) : ¬ sb.Used d b := by
  intro hused
  have hfree := h.free
  rw [hused.2.2] at hfree
  cases hfree

theorem Alloc.used (h : Alloc sb d d' b) (hx : sb.Used d x) : sb.Used d' x :=
  ⟨hx.1, hx.2.1, by rw [h.bits x hx.2.1, hx.2.2, Bool.or_true]⟩

theorem Alloc.used_self (h : Alloc sb d d' b) (hdata : sb.dataStart ≤ b) : sb.Used d' b :=
  ⟨hdata, h.lt, by rw [h.bits b h.lt, decide_eq_true rfl, Bool.true_or]⟩

theorem Alloc.metas (h : Alloc sb d d' b) (hmeta : ∀ x, x < sb.dataStart → sb.bit d x = true)
    (hx : x < sb.dataStart) : sb.bit d' x = true := by
  have hlt : x < sb.size := Nat.lt_of_lt_of_le hx (Nat.le_trans (h.data hmeta) (Nat.le_of_lt h.lt))
  rw [h.bits x hlt, hmeta x hx, Bool.or_true]

/-- The inodes on the disk are those in the blocks before the bit map. -/
theorem addrsOn_congr (hsb : sb.Ok) (hd : ∀ x, x < sb.bmapstart → d' x = d x)
    (hj : j < sb.ninodes) : sb.load d' j = sb.load d j := load_congr (hd _ (hsb.table j hj))

/-- A block has become the next reference of inode `i`. -/
theorem Mapped.grow (h : Mapped sb d i ip c) (hlive : c i = k)
    (hmeta : ∀ x, x < sb.dataStart → sb.bit d' x = true)
    (hrefs : Refs sb.ninodes (sb.addrsWith d' i ip') d' (sb.Used d') (update c i (k + 1)))
    (hold : ∀ j l, j < sb.ninodes → l < maxSlots → ¬ (j = i ∧ l = k) →
      refAt (sb.addrsWith d' i ip') d' j l = refAt (sb.addrsWith d i ip) d j l)
    (hdata : ∀ j l, j < sb.ninodes → slotOf l < maxSlots →
      refAt (sb.addrsWith d i ip) d j (slotOf l) ≠ 0 →
      d' (refAt (sb.addrsWith d i ip) d j (slotOf l)) =
        d (refAt (sb.addrsWith d i ip) d j (slotOf l)))
    (htable : ∀ x, x < sb.bmapstart → d' x = d x)
    (hcount : sb.freeCount d' + 1 = sb.freeCount d)
    (hkept : ip' = { ip with addrs := ip'.addrs }) (hok : ip.Ok → ip'.Ok) (src : Bytes)
    (off : Nat) : Written sb i d ip c src off 0 d' ip' (k + 1) where
  mapped := ⟨hmeta, hrefs⟩
  table := htable
  kept := hkept
  fields := hok
  le := by omega
  count := by omega
  bytes := by
    intro j o hj ho hlt
    have hmax : slotOf (o / BSIZE) < maxSlots :=
      slotOf_lt ((Nat.div_lt_iff_lt_mul (by decide)).mpr ho)
    rw [if_neg (by omega)]
    unfold byteAt
    rw [hold j _ hj hmax (by rintro ⟨rfl, heq⟩; omega),
      hdata j _ hj hmax ((h.refs.live j _ hj hmax).mpr hlt)]
  new o hle hlt := by omega
  same := by omega

/-- `addrs[k]` is allocated. -/
theorem Mapped.addAddr (hsb : sb.Ok) (h : Mapped sb d i ip c) (hk : k ≤ NDIRECT) (hc : c i = k)
    (ha : Alloc sb d d' b) (src : Bytes) (off : Nat) :
    Written sb i d ip c src off 0 d' { ip with addrs := update ip.addrs k b } (k + 1) := by
  have hdata := ha.data h.metas
  have hpos : 0 < sb.dataStart := dataStart_pos
  have hlow : sb.bmapstart < sb.dataStart := bmapstart_lt
  have htable : ∀ x, x < sb.bmapstart → d' x = d x := fun x hx => ha.same x (by omega) (.inl hx)
  have hused : ∀ x, sb.Used d x → d' x = d x := by
    intro x hx
    refine ha.same x ?_ (.inr hx.1)
    rintro rfl
    exact ha.not_used hx
  have hnew : sb.addrsWith d' i { ip with addrs := update ip.addrs k b } i k = b := by
    rw [addrsWith_self]
    exact Function.update_self _ _ _
  have hzero : k = NDIRECT → ∀ r, r < BSIZE → d' b r = 0 := by
    intro _ r _
    rw [ha.zero]
    rfl
  have haddr : ∀ j l, j < sb.ninodes → l ≤ NDIRECT → ¬ (j = i ∧ l = k) →
      sb.addrsWith d' i { ip with addrs := update ip.addrs k b } j l =
        sb.addrsWith d i ip j l := by
    intro j l hj _ hne
    by_cases hji : j = i
    · rw [hji, addrsWith_self, addrsWith_self]
      exact Function.update_of_ne (fun heq => hne ⟨hji, heq⟩) _ _
    · rw [addrsWith_of_ne hji, addrsWith_of_ne hji]
      unfold Superblock.addrsOn
      rw [addrsOn_congr hsb htable hj]
  have hind : ∀ j, j < sb.ninodes → sb.addrsWith d i ip j NDIRECT ≠ 0 →
      d' (sb.addrsWith d i ip j NDIRECT) = d (sb.addrsWith d i ip j NDIRECT) := fun j hj hne =>
    hused _ (h.refs.indirect hj hne)
  apply h.grow hc
  · exact fun x hx => ha.metas h.metas hx
  · exact h.refs.allocAddr hk hc (by omega) ha.not_used (fun _ => ha.used) (ha.used_self hdata) hnew
      hzero haddr hind
  · exact h.refs.addr_old hk hc (by omega) hnew hzero haddr hind
  · exact fun j l hj hl hne => hused _ (h.refs.inUse j _ hj hl hne)
  · exact htable
  · exact ha.count
  · rfl
  · intro hok
    have hlt := ha.lt
    have hsize := hsb.size
    exact
      { hok with
        addrs := by
          intro l
          show update ip.addrs k b l < _
          by_cases hl : l = k
          · rw [hl, Function.update_self]
            omega
          · rw [Function.update_of_ne hl]
            exact hok.addrs l
        none := by
          intro l hl
          show update ip.addrs k b l = 0
          rw [Function.update_of_ne (by omega)]
          exact hok.none l hl }

/-- An entry of the indirect block is allocated. -/
theorem Mapped.addEntry (hsb : sb.Ok) (h : Mapped sb d i ip c) (hi : i < sb.ninodes)
    (hk : NDIRECT < k) (hmax : k < maxSlots) (hc : c i = k) (ha : Alloc sb d d₁ b)
    (hd' : d' = update d₁ (ip.addrs NDIRECT) (put32 (d₁ (ip.addrs NDIRECT)) (4 * (k - 13)) b))
    (src : Bytes) (off : Nat) : Written sb i d ip c src off 0 d' ip (k + 1) := by
  have hdata := ha.data h.metas
  have hpos : 0 < sb.dataStart := dataStart_pos
  have hlow : sb.bmapstart < sb.dataStart := bmapstart_lt
  have haddr : sb.addrsWith d i ip i = ip.addrs := addrsWith_self
  have hne : ip.addrs NDIRECT ≠ 0 := by
    rw [← haddr]
    exact (h.refs.indirect_iff hi).mpr (by omega)
  have hind : sb.Used d (ip.addrs NDIRECT) := by
    rw [← haddr] at hne ⊢
    exact h.refs.indirect hi hne
  have hother : ∀ x, x ≠ ip.addrs NDIRECT → d' x = d₁ x := fun x hx => by
    rw [hd', Function.update_of_ne hx]
  have hused : ∀ x, sb.Used d x → d₁ x = d x := by
    intro x hx
    refine ha.same x ?_ (.inr hx.1)
    rintro rfl
    exact ha.not_used hx
  have hbelow : ∀ x, x < sb.dataStart → d' x = d₁ x := fun x hx =>
    hother x (Nat.ne_of_lt (Nat.lt_of_lt_of_le hx hind.1))
  have htable : ∀ x, x < sb.bmapstart → d' x = d x := fun x hx =>
    (hbelow x (by omega)).trans (ha.same x (by omega) (.inl hx))
  have hbit : ∀ x, x < sb.size → sb.bit d' x = sb.bit d₁ x := fun x hx =>
    bit_congr hx fun y _ hy => hbelow y hy
  have haddrs : ∀ j l, j < sb.ninodes → l ≤ NDIRECT →
      sb.addrsWith d' i ip j l = sb.addrsWith d i ip j l := by
    intro j l hj _
    by_cases hji : j = i
    · rw [hji, addrsWith_self, addrsWith_self]
    · rw [addrsWith_of_ne hji, addrsWith_of_ne hji]
      unfold Superblock.addrsOn
      rw [addrsOn_congr hsb htable hj]
  have hself : d' (sb.addrsWith d i ip i NDIRECT) =
      put32 (d (sb.addrsWith d i ip i NDIRECT)) (4 * (k - 13)) b := by
    rw [haddr, hd', Function.update_self, hused _ hind]
  have hrest : ∀ j, j < sb.ninodes → sb.addrsWith d i ip j NDIRECT ≠ 0 →
      sb.addrsWith d i ip j NDIRECT ≠ sb.addrsWith d i ip i NDIRECT →
      d' (sb.addrsWith d i ip j NDIRECT) = d (sb.addrsWith d i ip j NDIRECT) := by
    intro j hj hzero hnot
    rw [haddr] at hnot
    rw [hother _ hnot, hused _ (h.refs.indirect hj hzero)]
  have hmono : ∀ x, sb.Used d x → sb.Used d' x := by
    intro x hx
    have hx' := ha.used hx
    exact ⟨hx'.1, hx'.2.1, by rw [hbit x hx'.2.1]; exact hx'.2.2⟩
  have hself' := ha.used_self hdata
  have hb : sb.Used d' b := ⟨hself'.1, hself'.2.1, by rw [hbit b hself'.2.1]; exact hself'.2.2⟩
  have hlt := ha.lt
  have hsize := hsb.size
  -- the addresses are read from a disk with the same inode table
  have hrefs := h.refs.allocEntry hi hk hmax hc (by omega) (by omega) ha.not_used hmono hb hself
    hrest
  have href : ∀ j l, j < sb.ninodes →
      refAt (sb.addrsWith d' i ip) d' j l = refAt (sb.addrsWith d i ip) d' j l := fun j l hj =>
    refAt_congr (fun l hl => haddrs j l hj hl) (fun _ _ => rfl) l
  apply h.grow hc
  · intro x hx
    rw [hbit x (Nat.lt_of_lt_of_le hx (Nat.le_trans hdata (Nat.le_of_lt hlt)))]
    exact ha.metas h.metas hx
  · exact hrefs.congr (fun j l hj hl => haddrs j l hj hl) (fun _ _ _ => rfl) fun _ hx => hx
  · intro j l hj hl hnot
    rw [href j l hj]
    exact h.refs.entry_old hi hk hc hself hrest j l hj hl hnot
  · intro j l hj hl hzero
    have hnot := h.refs.data_ne_indirect hj hi hl hzero
    rw [haddr] at hnot
    rw [hother _ hnot, hused _ (h.refs.inUse j _ hj hl hzero)]
  · exact htable
  · rw [freeCount_congr fun x _ hx => hbelow x hx]
    exact ha.count
  · rfl
  · exact fun hok => hok

/-! ## `bmap` -/

section Bmap

variable (hsb : sb.Ok) (hi : i < sb.ninodes) (src : Bytes) (off : Nat)

include hsb hi

/-- `addrs[k]` is there, or it is the next reference. -/
theorem Mapped.bmapAddr (h : Mapped sb d i ip c) (hk : k ≤ NDIRECT) (hc : k < c i ∨ c i = k) :
    (∃ d' ip', plain.bmapAddr sb d ip k = some (d', ip', ip'.addrs k) ∧
      Written sb i d ip c src off 0 d' ip' (max (c i) (k + 1))) ∨
    plain.bmapAddr sb d ip k = none ∧ sb.freeCount d + c i < k + 1 := by
  have hiff : ip.addrs k ≠ 0 ↔ k < c i := by
    have hlive := h.refs.live i k hi (Nat.lt_of_le_of_lt hk (by decide))
    rwa [refAt_addr hk, addrsWith_self] at hlive
  unfold Log.bmapAddr
  by_cases hzero : ip.addrs k = 0
  · have heq : c i = k := by
      have hnot := mt hiff.mpr (not_not_intro hzero)
      omega
    rw [if_pos hzero]
    by_cases hfree : 0 < sb.freeCount d
    · obtain ⟨d', b, hrun⟩ := balloc_enough hfree
      have hwritten := h.addAddr hsb hk heq (Alloc.of_balloc h.metas hrun) src off
      rw [hrun, Option.map_some, Nat.max_eq_right (by omega)]
      refine .inl ⟨d', _, ?_, hwritten⟩
      show some _ = some (_, _, update ip.addrs k b k)
      rw [Function.update_self]
    · rw [balloc_none h.metas (by omega)]
      exact .inr ⟨rfl, by omega⟩
  · have hlt := hiff.mp hzero
    rw [if_neg hzero, Nat.max_eq_left (by omega)]
    exact .inl ⟨d, ip, rfl, h.refl src off⟩

/-- The entry `j` of the indirect block is there, or it is the next reference. -/
theorem Mapped.bmapEntry (h : Mapped sb d i ip c) (hj : j < NINDIRECT) (hind : NDIRECT < c i)
    (hc : 13 + j < c i ∨ c i = 13 + j) :
    (∃ d' x, plain.bmapEntry sb d (ip.addrs NDIRECT) j = some (d', x) ∧
      Written sb i d ip c src off 0 d' ip (max (c i) (13 + j + 1)) ∧
      x = refAt (sb.addrsWith d' i ip) d' i (13 + j)) ∨
    plain.bmapEntry sb d (ip.addrs NDIRECT) j = none ∧ sb.freeCount d + c i < 13 + j + 1 := by
  have hk : NDIRECT < 13 + j := by
    unfold NDIRECT
    omega
  have hmax : 13 + j < maxSlots := Nat.add_lt_add_left hj 13
  have hne : ∀ d, sb.addrsWith d i ip i NDIRECT ≠ 0 := by
    have hself : sb.addrsWith d i ip i = ip.addrs := addrsWith_self
    intro d'
    rw [addrsWith_self, ← hself]
    exact (h.refs.indirect_iff hi).mpr hind
  have hentry : ∀ d, refAt (sb.addrsWith d i ip) d i (13 + j) =
      u32 (d (ip.addrs NDIRECT)) (4 * j) := by
    intro d
    rw [refAt_entry hk (hne d), addrsWith_self, Nat.add_sub_cancel_left]
  have hiff : u32 (d (ip.addrs NDIRECT)) (4 * j) ≠ 0 ↔ 13 + j < c i := by
    rw [← hentry]
    exact h.refs.live i _ hi hmax
  unfold Log.bmapEntry
  simp only [show plain.disk d = d from rfl]
  by_cases hzero : u32 (d (ip.addrs NDIRECT)) (4 * j) = 0
  · have heq : c i = 13 + j := by
      have hnot := mt hiff.mpr (not_not_intro hzero)
      omega
    rw [if_pos hzero]
    by_cases hfree : 0 < sb.freeCount d
    · obtain ⟨d₁, b, hrun⟩ := balloc_enough hfree
      have halloc := Alloc.of_balloc h.metas hrun
      have hlt := halloc.lt
      have hsize := hsb.size
      have hput : put32 (d₁ (ip.addrs NDIRECT)) (4 * j) b =
          put32 (d₁ (ip.addrs NDIRECT)) (4 * (13 + j - 13)) b := by
        rw [Nat.add_sub_cancel_left]
      have hwritten := h.addEntry hsb hi hk hmax heq halloc (by rw [← hput]) src off
      rw [hrun, Option.bind_some, Nat.max_eq_right (by omega)]
      refine .inl ⟨_, b, rfl, hwritten, ?_⟩
      rw [hentry, Function.update_self, u32_put32_self (by omega)]
    · rw [balloc_none h.metas (by omega)]
      exact .inr ⟨rfl, by omega⟩
  · have hlt := hiff.mp hzero
    rw [if_neg hzero, Nat.max_eq_left (by omega)]
    exact .inl ⟨d, _, rfl, h.refl src off, (hentry d).symm⟩

omit hsb in
/-- A block that is there. -/
theorem Mapped.bmap_old {σ : Type} {W : Log σ} {t : σ} (h : Mapped sb (W.disk t) i ip c)
    (hbn : bn < MAXFILE) (hc : slotOf bn < c i) :
    W.bmap sb t ip bn =
      some (t, ip, refAt (sb.addrsWith (W.disk t) i ip) (W.disk t) i (slotOf bn)) := by
  have haddr : ∀ k, k ≤ NDIRECT → k < c i →
      W.bmapAddr sb t ip k = some (t, ip, ip.addrs k) := by
    intro k hk hlt
    have hne := (h.refs.live i k hi (Nat.lt_of_le_of_lt hk (by decide))).mpr hlt
    rw [refAt_addr hk, addrsWith_self] at hne
    exact if_neg hne
  unfold Log.bmap
  by_cases hdirect : bn < NDIRECT
  · have hslot : slotOf bn = bn := if_pos hdirect
    have hk : bn ≤ NDIRECT := Nat.le_of_lt hdirect
    rw [hslot] at hc ⊢
    rw [if_pos hdirect, haddr bn hk hc, refAt_addr hk, addrsWith_self]
  · have hslot : slotOf bn = bn + 1 := if_neg hdirect
    have hj : bn - NDIRECT < NINDIRECT := by
      unfold MAXFILE at hbn
      omega
    have hk : NDIRECT < slotOf bn := by omega
    have hne := (h.refs.indirect_iff hi).mpr (Nat.lt_trans hk hc)
    have hentry := (h.refs.live i _ hi (slotOf_lt hbn)).mpr hc
    rw [refAt_entry hk hne, addrsWith_self] at hentry ⊢
    have hindex : slotOf bn - 13 = bn - NDIRECT := by
      unfold NDIRECT
      omega
    rw [hindex] at hentry ⊢
    rw [if_neg hdirect, if_pos hj, haddr NDIRECT (Nat.le_refl _) (Nat.lt_trans hk hc)]
    rw [Option.bind_some]
    unfold Log.bmapEntry
    rw [if_neg hentry]
    rfl

/-- The block `bn` of the file is there, or it is the next: it is allocated, with the indirect
block if that is missing, or the disk is full. -/
theorem Mapped.bmap (h : Mapped sb d i ip c) (hbn : bn < MAXFILE) (hoff : off ≤ MAXFILE * BSIZE)
    (hc : slotOf bn < c i ∨ c i = slotOf bn ∨ bn = NDIRECT ∧ c i = NDIRECT) :
    (∃ d' ip' x, plain.bmap sb d ip bn = some (d', ip', x) ∧
      Written sb i d ip c src off 0 d' ip' (max (c i) (slotOf bn + 1)) ∧
      x = refAt (sb.addrsWith d' i ip') d' i (slotOf bn)) ∨
    plain.bmap sb d ip bn = none ∧ sb.freeCount d + c i < slotOf bn + 1 := by
  unfold Log.bmap
  by_cases hdirect : bn < NDIRECT
  · have hslot : slotOf bn = bn := if_pos hdirect
    have hk : bn ≤ NDIRECT := Nat.le_of_lt hdirect
    rw [if_pos hdirect, hslot]
    rw [hslot] at hc
    rcases h.bmapAddr hsb hi src off hk (by omega) with ⟨d', ip', hrun, hwritten⟩ | hfull
    · refine .inl ⟨d', ip', _, hrun, hwritten, ?_⟩
      rw [refAt_addr hk, addrsWith_self]
    · exact .inr hfull
  · have hslot : slotOf bn = 13 + (bn - NDIRECT) := by
      have hsucc : slotOf bn = bn + 1 := if_neg hdirect
      unfold NDIRECT at *
      omega
    have hj : bn - NDIRECT < NINDIRECT := by
      unfold MAXFILE at hbn
      omega
    obtain ⟨j, hjdef⟩ : ∃ j, j = bn - NDIRECT := ⟨_, rfl⟩
    rw [if_neg hdirect, if_pos hj, hslot, ← hjdef]
    rw [hslot, ← hjdef] at hc
    rw [← hjdef] at hj
    have hbn' : bn = NDIRECT → j = 0 := by
      unfold NDIRECT at *
      omega
    have hnum : NDIRECT = 12 := rfl
    rcases h.bmapAddr hsb hi src off (Nat.le_refl NDIRECT) (by omega) with
      ⟨d₁, ip₁, hrun, h₁⟩ | ⟨hrun, hfull⟩
    · have hc₁ : update c i (max (c i) (NDIRECT + 1)) i = max (c i) (NDIRECT + 1) :=
        Function.update_self _ _ _
      have hcount := h₁.count
      rcases h₁.mapped.bmapEntry hsb hi src (off + 0) hj (by rw [hc₁]; omega)
        (by rw [hc₁]; omega) with ⟨d₂, x, hrun', h₂, hx⟩ | ⟨hrun', hfull⟩
      · left
        refine ⟨d₂, ip₁, x, ?_, ?_, hx⟩
        · simp only [hrun, Option.bind_some, hrun', Option.map_some]
        · rw [hc₁] at h₂
          have hmax : max (max (c i) (NDIRECT + 1)) (13 + j + 1) = max (c i) (13 + j + 1) := by
            omega
          rw [hmax] at h₂
          exact h₁.trans hi hoff h₂
      · right
        rw [hc₁] at hfull
        simp only [hrun, Option.bind_some, hrun', Option.map_none, true_and]
        omega
    · right
      rw [hrun, Option.bind_none]
      exact ⟨rfl, by omega⟩

end Bmap

/-! ## The loops -/

theorem slot_lt {o : Nat} (h : o < MAXFILE * BSIZE) : slotOf (o / BSIZE) < maxSlots :=
  slotOf_lt ((Nat.div_lt_iff_lt_mul (by decide)).mpr h)

/-- Bytes are stored in a data block of inode `i`. -/
theorem Mapped.store {m : Nat} (hsb : sb.Ok) (hi : i < sb.ninodes) (h : Mapped sb d i ip c)
    (hoff : off < MAXFILE * BSIZE) (hlive : slotOf (off / BSIZE) < c i)
    (hx : x = refAt (sb.addrsWith d i ip) d i (slotOf (off / BSIZE)))
    (hm : off % BSIZE + m ≤ BSIZE) (src : Bytes) :
    Written sb i d ip c src off m (update d x (copy (d x) (off % BSIZE) src m)) ip (c i) := by
  have hslot := slot_lt hoff
  have hne : refAt (sb.addrsWith d i ip) d i (slotOf (off / BSIZE)) ≠ 0 :=
    (h.refs.live i _ hi hslot).mpr hlive
  have hused := h.refs.inUse i _ hi hslot hne
  rw [← hx] at hused
  have hlow : sb.bmapstart < sb.dataStart := bmapstart_lt
  obtain ⟨d', hd'⟩ : ∃ d', d' = update d x (copy (d x) (off % BSIZE) src m) := ⟨_, rfl⟩
  rw [← hd']
  have hother : ∀ y, y ≠ x → d' y = d y := fun y hy => by
    rw [hd', Function.update_of_ne hy]
  have hbelow : ∀ y, y < sb.dataStart → d' y = d y := fun y hy =>
    hother y (Nat.ne_of_lt (Nat.lt_of_lt_of_le hy hused.1))
  have htable : ∀ y, y < sb.bmapstart → d' y = d y := fun y hy => hbelow y (by omega)
  have hbit : ∀ y, y < sb.size → sb.bit d' y = sb.bit d y := fun y hy =>
    bit_congr hy fun z _ hz => hbelow z hz
  have haddrs : ∀ j l, j < sb.ninodes → l ≤ NDIRECT →
      sb.addrsWith d' i ip j l = sb.addrsWith d i ip j l := by
    intro j l hj _
    by_cases hji : j = i
    · rw [hji, addrsWith_self, addrsWith_self]
    · rw [addrsWith_of_ne hji, addrsWith_of_ne hji]
      unfold Superblock.addrsOn
      rw [addrsOn_congr hsb htable hj]
  have hind : ∀ j, j < sb.ninodes → sb.addrsWith d i ip j NDIRECT ≠ 0 →
      d' (sb.addrsWith d i ip j NDIRECT) = d (sb.addrsWith d i ip j NDIRECT) := by
    intro j hj _
    apply hother
    rw [hx]
    exact Ne.symm (h.refs.data_ne_indirect hi hj hslot hne)
  have href : ∀ j l, j < sb.ninodes →
      refAt (sb.addrsWith d' i ip) d' j l = refAt (sb.addrsWith d i ip) d j l := fun j l hj =>
    refAt_congr (fun l hl => haddrs j l hj hl) (fun hzero r => by rw [hind j hj hzero]) l
  -- what a byte of an inode has become
  have hbyte : ∀ j o, j < sb.ninodes → o < MAXFILE * BSIZE → slotOf (o / BSIZE) < c j →
      byteAt (sb.addrsWith d' i ip) d' j o =
        if j = i ∧ off ≤ o ∧ o < off + m then src (o - off)
        else byteAt (sb.addrsWith d i ip) d j o := by
    intro j o hj ho hlt
    unfold byteAt
    rw [href j _ hj]
    by_cases hblock : refAt (sb.addrsWith d i ip) d j (slotOf (o / BSIZE)) = x
    · have hsame := h.refs.inj i j _ _ hi hj hslot (slot_lt ho) hne (by rw [hblock, hx])
      have hdiv := slotOf_inj hsame.2
      rw [hblock, hd', Function.update_self]
      unfold copy
      by_cases hin : off ≤ o ∧ o < off + m
      · rw [if_pos (by unfold BSIZE at *; omega), if_pos ⟨hsame.1.symm, hin⟩]
        congr 1
        unfold BSIZE at *
        omega
      · rw [if_neg (by unfold BSIZE at *; omega), if_neg fun hall => hin hall.2]
    · rw [hother _ hblock, if_neg]
      rintro ⟨rfl, hle, hlt⟩
      apply hblock
      have hdiv : o / BSIZE = off / BSIZE := by
        unfold BSIZE at *
        omega
      rw [hdiv, hx]
  exact
    { mapped := by
        rw [Function.update_eq_self]
        exact
          { metas := by
              intro y hy
              rw [hbit y (Nat.lt_of_lt_of_le hy (Nat.le_trans hused.1 (Nat.le_of_lt hused.2.1)))]
              exact h.metas y hy
            refs := h.refs.congr haddrs hind fun y hy =>
              ⟨hy.1, hy.2.1, by rw [hbit y hy.2.1]; exact hy.2.2⟩ }
      table := htable
      kept := rfl
      fields := fun hok => hok
      le := Nat.le_refl _
      count := by rw [freeCount_congr fun y _ hy => hbelow y hy]
      bytes := hbyte
      new := by
        intro o hle hlt
        have hdiv : o / BSIZE = off / BSIZE := by
          unfold BSIZE at *
          omega
        have ho : o < MAXFILE * BSIZE := by
          unfold BSIZE at *
          omega
        refine ⟨by rw [hdiv]; exact hlive, ?_⟩
        rw [hbyte i o hi ho (by rw [hdiv]; exact hlive), if_pos ⟨rfl, hle, hlt⟩]
      same := fun _ => rfl }

/-- The blocks of a file of `S` bytes are there, or the next one is missing. -/
theorem slots_at {S : Nat} (h : off ≤ S) :
    slotOf (off / BSIZE) < slotsFor S ∨ slotsFor S = slotOf (off / BSIZE) ∨
      off / BSIZE = NDIRECT ∧ slotsFor S = NDIRECT := by
  rcases Nat.eq_or_lt_of_le h with rfl | hlt
  · have hbefore := slotsFor_before off
    omega
  · left
    have hpiece : slotsFor (off + 1) = slotOf (off / BSIZE) + 1 := slotsFor_piece (by decide)
      (Nat.succ_le_of_lt (Nat.mod_lt _ (by decide)))
    have hmono := slotsFor_mono (show off + 1 ≤ S from hlt)
    omega

/-- The references after `m` bytes have been written in the block `off / BSIZE`. -/
theorem slotsFor_max {S m : Nat} (hpos : 0 < m) (hm : off % BSIZE + m ≤ BSIZE) :
    slotsFor (max S (off + m)) = max (slotsFor S) (slotOf (off / BSIZE) + 1) := by
  have hpiece := slotsFor_piece hpos hm
  by_cases hle : off + m ≤ S
  · have hmono := slotsFor_mono hle
    rw [Nat.max_eq_left hle, Nat.max_eq_left (by omega)]
  · have hmono := slotsFor_mono (Nat.le_of_lt (Nat.lt_of_not_le hle))
    rw [Nat.max_eq_right (Nat.le_of_lt (Nat.lt_of_not_le hle)), hpiece,
      Nat.max_eq_right (by omega)]

/-- One round of `writei` writes up to the end of a block, or the disk is full. -/
theorem Mapped.writeRound {S m : Nat} (hsb : sb.Ok) (hi : i < sb.ninodes) (h : Mapped sb d i ip c)
    (hc : c i = slotsFor S) (hoff : off ≤ S) (hpos : 0 < m) (hm : off % BSIZE + m ≤ BSIZE)
    (hmax : off + m ≤ MAXFILE * BSIZE) (src : Bytes) :
    (∃ d' ip' x, plain.bmap sb d ip (off / BSIZE) = some (d', ip', x) ∧
      Written sb i d ip c src off m (update d' x (copy (d' x) (off % BSIZE) src m)) ip'
        (slotsFor (max S (off + m)))) ∨
    plain.bmap sb d ip (off / BSIZE) = none ∧
      sb.freeCount d + slotsFor S < slotsFor (max S (off + m)) := by
  have hlt : off / BSIZE < MAXFILE := (Nat.div_lt_iff_lt_mul (by decide)).mpr (by omega)
  have hslots := slotsFor_max (S := S) hpos hm
  rw [hslots, ← hc]
  rcases h.bmap hsb hi src off hlt (by omega) (by rw [hc]; exact slots_at hoff) with
    ⟨d₁, ip₁, x, hrun, h₁, hx⟩ | ⟨hrun, hfull⟩
  · refine .inl ⟨d₁, ip₁, x, hrun, ?_⟩
    have hcount : update c i (max (c i) (slotOf (off / BSIZE) + 1)) i =
        max (c i) (slotOf (off / BSIZE) + 1) := Function.update_self _ _ _
    have hstore := h₁.mapped.store (m := m) hsb hi (by omega) (by rw [hcount]; omega) hx hm src
    rw [hcount] at hstore
    have hboth := h₁.trans hi (by omega) hstore
    rwa [Nat.zero_add] at hboth
  · exact .inr ⟨hrun, by omega⟩

/-- The loop of `writei` writes all bytes, or the disk is full. -/
theorem Mapped.writeLoop (hsb : sb.Ok) (hi : i < sb.ninodes) :
    ∀ (fuel : Nat) (src : Bytes) {d : Disk} {ip : Inode} {c : Nat → Nat} {off n S : Nat},
      Mapped sb d i ip c → c i = slotsFor S → off ≤ S → off + n ≤ MAXFILE * BSIZE → n ≤ fuel →
      (∃ d' ip', plain.writeLoop sb fuel d ip src off n = some (d', ip') ∧
        Written sb i d ip c src off n d' ip' (slotsFor (max S (off + n)))) ∨
      plain.writeLoop sb fuel d ip src off n = none ∧
        sb.freeCount d + slotsFor S < slotsFor (max S (off + n)) := by
  intro fuel
  induction fuel with
  | zero =>
      intro src d ip c off n S h hc hoff hmax hfuel
      obtain rfl : n = 0 := by omega
      have hrefl := h.refl src off
      rw [hc] at hrefl
      rw [Nat.add_zero, Nat.max_eq_left hoff]
      exact .inl ⟨d, ip, rfl, hrefl⟩
  | succ fuel ih =>
      intro src d ip c off n S h hc hoff hmax hfuel
      unfold Log.writeLoop
      by_cases hzero : n = 0
      · subst hzero
        have hrefl := h.refl src off
        rw [hc] at hrefl
        rw [if_pos rfl, Nat.add_zero, Nat.max_eq_left hoff]
        exact .inl ⟨d, ip, rfl, hrefl⟩
      rw [if_neg hzero]
      obtain ⟨m, hmdef⟩ : ∃ m, m = min n (BSIZE - off % BSIZE) := ⟨_, rfl⟩
      have hm : 0 < m ∧ m ≤ n ∧ off % BSIZE + m ≤ BSIZE := by
        have hmod := Nat.mod_lt off (show 0 < BSIZE by decide)
        omega
      rcases h.writeRound hsb hi hc hoff hm.1 hm.2.2 (by omega) src with
        ⟨d₁, ip₁, x, hrun, h₁⟩ | ⟨hrun, hfull⟩
      · have hcount := h₁.count
        have hc₁ : update c i (slotsFor (max S (off + m))) i = slotsFor (max S (off + m)) :=
          Function.update_self _ _ _
        have hS : max (max S (off + m)) (off + m + (n - m)) = max S (off + n) := by omega
        have hend : off + m + (n - m) = off + n := by omega
        rw [hrun, Option.bind_some]
        simp only [← hmdef]
        rcases ih (fun j => src (j + m)) h₁.mapped hc₁ (Nat.le_max_right _ _)
          (by rw [hend]; exact hmax) (by omega) with ⟨d', ip', hrun', h'⟩ | ⟨hrun', hfull⟩
        · rw [hS] at h'
          have hboth := h₁.trans hi (by omega) h'
          rw [Nat.add_sub_cancel' hm.2.1] at hboth
          exact .inl ⟨d', ip', hrun', hboth⟩
        · rw [hS] at hfull
          exact .inr ⟨hrun', by omega⟩
      · right
        rw [hrun, Option.bind_none]
        have hmono : slotsFor (max S (off + m)) ≤ slotsFor (max S (off + n)) :=
          slotsFor_mono (by omega)
        exact ⟨rfl, by omega⟩

/-- The loop of `readi` changes nothing. -/
theorem Mapped.readLoop {σ : Type} {W : Log σ} {t : σ} (hi : i < sb.ninodes)
    (h : Mapped sb (W.disk t) i ip c) {S : Nat} (hc : c i = slotsFor S)
    (hS : S ≤ MAXFILE * BSIZE) :
    ∀ (fuel off n : Nat), off + n ≤ S → n ≤ fuel →
      W.readLoop sb fuel t ip off n = some (t, ip, (List.range n).map fun j =>
        byteAt (sb.addrsWith (W.disk t) i ip) (W.disk t) i (off + j)) := by
  obtain ⟨d, hd⟩ : ∃ d, W.disk t = d := ⟨_, rfl⟩
  rw [hd]
  intro fuel
  induction fuel with
  | zero =>
      intro off n _ hfuel
      obtain rfl : n = 0 := by omega
      rfl
  | succ fuel ih =>
      intro off n hn hfuel
      unfold Log.readLoop
      by_cases hzero : n = 0
      · subst hzero
        rfl
      rw [if_neg hzero]
      obtain ⟨m, hmdef⟩ : ∃ m, m = min n (BSIZE - off % BSIZE) := ⟨_, rfl⟩
      have hm : 0 < m ∧ m ≤ n ∧ off % BSIZE + m ≤ BSIZE := by
        have hmod := Nat.mod_lt off (show 0 < BSIZE by decide)
        omega
      have hslots := slotsFor_max (S := S) hm.1 hm.2.2
      rw [Nat.max_eq_left (by omega)] at hslots
      have hbn : off / BSIZE < MAXFILE := (Nat.div_lt_iff_lt_mul (by decide)).mpr (by omega)
      rw [h.bmap_old hi hbn (by omega), Option.bind_some, hd]
      simp only [← hmdef]
      rw [ih (off + m) (n - m) (by omega) (by omega), Option.map_some]
      have hbytes : (List.range m).map (fun j =>
          d (refAt (sb.addrsWith d i ip) d i (slotOf (off / BSIZE))) (off % BSIZE + j)) =
            (List.range m).map fun j => byteAt (sb.addrsWith d i ip) d i (off + j) := by
        apply List.map_congr_left
        intro j hj
        have hlt := List.mem_range.mp hj
        have hblock : (off + j) / BSIZE = off / BSIZE ∧ (off + j) % BSIZE = off % BSIZE + j := by
          unfold BSIZE at *
          omega
        unfold byteAt
        rw [hblock.1, hblock.2]
      have hrest : (List.range (n - m)).map (fun j =>
          byteAt (sb.addrsWith d i ip) d i (off + m + j)) =
            ((List.range (n - m)).map (m + ·)).map fun j =>
              byteAt (sb.addrsWith d i ip) d i (off + j) := by
        rw [List.map_map]
        apply List.map_congr_left
        intro j _
        show _ = byteAt _ _ _ (off + (m + j))
        rw [Nat.add_assoc]
      rw [hbytes, hrest, ← List.map_append, ← List.range_add, Nat.add_sub_cancel' hm.2.1]

/-! ## Arrays of bytes -/

/-- The bytes `new` replace those of `data` from `off` on. -/
def splice (data : List UInt8) (off : Nat) (new : List UInt8) : List UInt8 :=
  data.take off ++ new ++ data.drop (off + new.length)

theorem splice_map {size : Nat} (f : Nat → UInt8) (src : Bytes) (hoff : off ≤ size) :
    splice ((List.range size).map f) off ((List.range n).map src) =
      (List.range (max size (off + n))).map fun o =>
        if off ≤ o ∧ o < off + n then src (o - off) else f o := by
  unfold splice
  apply List.ext_getElem
  · simp only [List.length_append, List.length_take, List.length_drop, List.length_map,
      List.length_range]
    omega
  · intro o ho ho'
    simp only [List.length_map, List.length_range] at ho'
    simp only [List.getElem_append, List.getElem_take, List.getElem_drop, List.getElem_map,
      List.getElem_range, List.length_append, List.length_take, List.length_map, List.length_range]
    by_cases hlow : o < off
    · rw [dif_pos (by omega), dif_pos (by omega), if_neg (by omega)]
    · by_cases hmid : o < off + n
      · rw [dif_pos (by omega), dif_neg (by omega), if_pos (by omega)]
        congr 1
        omega
      · rw [dif_neg (by omega), if_neg (by omega)]
        congr 1
        omega

theorem splice_length (data new : List UInt8) (hoff : off ≤ data.length) :
    (splice data off new).length = max data.length (off + new.length) := by
  unfold splice
  simp only [List.length_append, List.length_take, List.length_drop]
  omega

/-- What `readi` returns of the contents `data`. -/
def readResult (data : List UInt8) (off n : Nat) : Int × List UInt8 :=
  if off ≤ data.length ∧ off + n < 4294967296 then
    ((min n (data.length - off) : Nat), (data.drop off).take n)
  else (-1, [])

theorem contents_length (sb : Superblock) (d : Disk) (i : Nat) :
    (sb.contents d i).length = (sb.load d i).size := by
  unfold Superblock.contents
  rw [List.length_map, List.length_range]

theorem Consistent.mapped (h : Consistent sb d) (i : Nat) :
    Mapped sb d i (sb.load d i) fun i => slotsFor (sb.load d i).size where
  metas := h.metas
  refs := by
    rw [addrsWith_load]
    exact h.refs

theorem Consistent.size_lt (h : Consistent sb d) (hi : i < sb.ninodes) :
    (sb.load d i).size < 4294967296 := Nat.lt_of_le_of_lt (h.fits i hi) (by decide)

/-- `readi` returns the bytes of the file, and changes nothing. -/
theorem Consistent.log_readi {σ : Type} {W : Log σ} {t : σ} (h : Consistent sb (W.disk t))
    (devsw : Devsw) (hi : i < sb.ninodes) (hdev : (sb.load (W.disk t) i).type ≠ T_DEV)
    (hoff : off < 4294967296) (hn : n < 4294967296) :
    W.readi sb devsw t (sb.load (W.disk t) i) off n =
      some (t, sb.load (W.disk t) i, readResult (sb.contents (W.disk t) i) off n) := by
  obtain ⟨d, hd⟩ : ∃ d, W.disk t = d := ⟨_, rfl⟩
  have hmapped := h.mapped i
  rw [hd] at h hdev ⊢
  have hsize := h.size_lt hi
  unfold Log.readi readResult
  rw [if_neg hdev, contents_length]
  by_cases hok : off ≤ (sb.load d i).size ∧ off + n < 4294967296
  · have hsum : (off + n) % 4294967296 = off + n := Nat.mod_eq_of_lt hok.2
    obtain ⟨m, hm⟩ : ∃ m, m = min n ((sb.load d i).size - off) := ⟨_, rfl⟩
    have hcut : (if (sb.load d i).size < (off + n) % 4294967296 then (sb.load d i).size - off
        else n) = m := by
      rw [hsum]
      split <;> omega
    rw [if_neg (by omega), if_pos hok, ← hm]
    simp only [hcut]
    rw [← hd, hmapped.readLoop hi rfl (by rw [hd]; exact h.fits i hi) m off m (by rw [hd]; omega)
      (Nat.le_refl m), hd, Option.map_some, addrsWith_load]
    congr 4
    unfold Superblock.contents
    apply List.ext_getElem
    · simp only [List.length_take, List.length_drop, List.length_map, List.length_range]
      omega
    · intro o ho ho'
      simp only [List.getElem_take, List.getElem_drop, List.getElem_map, List.getElem_range]
  · rw [if_pos (by omega), if_neg hok]

theorem Consistent.readi (h : Consistent sb d) (devsw : Devsw) (hi : i < sb.ninodes)
    (hdev : (sb.load d i).type ≠ T_DEV) (hoff : off < 4294967296) (hn : n < 4294967296) :
    sb.readi devsw d (sb.load d i) off n =
      some (d, sb.load d i, readResult (sb.contents d i) off n) :=
  h.log_readi (W := plain) devsw hi hdev hoff hn

/-- Inode `i` has the contents `data`, and the other inodes have not changed. -/
structure Wrote (sb : Superblock) (d : Disk) (i : Nat) (data : List UInt8) (d' : Disk) : Prop where
  consistent : Consistent sb d'
  contents : sb.contents d' i = data
  fields : sb.load d' i = { sb.load d i with size := data.length, addrs := (sb.load d' i).addrs }
  other : ∀ j, j < sb.ninodes → j ≠ i →
    sb.load d' j = sb.load d j ∧ sb.contents d' j = sb.contents d j
  count : sb.freeCount d' + slotsFor data.length = sb.freeCount d + slotsFor (sb.load d i).size

/-- The inode in memory has been copied to the disk. -/
theorem Written.sync {e : Disk} {size : Nat} (hi : i < sb.ninodes) (h : Consistent sb d)
    (hsize : size = (sb.load d i).size) (hoff : off ≤ size) (hmax : off + n ≤ MAXFILE * BSIZE)
    (hw : Written sb i d (sb.load d i) (fun i => slotsFor (sb.load d i).size) src off n d' ip'
      (slotsFor (max size (off + n))))
    (hself : sb.load e i = { ip' with size := max size (off + n) })
    (hload : ∀ j, j < sb.ninodes → j ≠ i → sb.load e j = sb.load d' j)
    (hsame : ∀ j, j < sb.ninodes → sb.load d' j = sb.load d j)
    (hblocks : ∀ x, sb.bmapstart ≤ x → e x = d' x) :
    Wrote sb d i (splice (sb.contents d i) off ((List.range n).map src)) e := by
  have hlow : sb.bmapstart < sb.dataStart := bmapstart_lt
  have hfits := h.fits i hi
  have hlen : (splice (sb.contents d i) off ((List.range n).map src)).length =
      max size (off + n) := by
    rw [splice_length _ _ (by rw [contents_length]; omega), contents_length, List.length_map,
      List.length_range, hsize]
  have haddrs : ∀ j, j < sb.ninodes → sb.addrsOn e j = sb.addrsWith d' i ip' j := by
    intro j hj
    by_cases hji : j = i
    · rw [hji, addrsWith_self]
      unfold Superblock.addrsOn
      rw [hself]
    · rw [addrsWith_of_ne hji]
      unfold Superblock.addrsOn
      rw [hload j hj hji]
  have hbit : ∀ x, x < sb.size → sb.bit e x = sb.bit d' x := fun x hx =>
    bit_congr hx fun y hy _ => hblocks y hy
  have hused : ∀ x, sb.Used d' x → sb.Used e x := fun x hx =>
    ⟨hx.1, hx.2.1, by rw [hbit x hx.2.1]; exact hx.2.2⟩
  have hblock : ∀ x, sb.Used d' x → e x = d' x := fun x hx => by
    have hdata := hx.1
    exact hblocks x (by omega)
  have hrefs := hw.mapped.refs
  have hind : ∀ j, j < sb.ninodes → sb.addrsWith d' i ip' j NDIRECT ≠ 0 →
      e (sb.addrsWith d' i ip' j NDIRECT) = d' (sb.addrsWith d' i ip' j NDIRECT) := fun j hj hne =>
    hblock _ (hrefs.indirect hj hne)
  have hcount : ∀ j, j < sb.ninodes → slotsFor (sb.load e j).size =
      update (fun i => slotsFor (sb.load d i).size) i (slotsFor (max size (off + n))) j := by
    intro j hj
    by_cases hji : j = i
    · rw [hji, Function.update_self, hself]
    · rw [Function.update_of_ne hji, hload j hj hji, hsame j hj]
  have hrefs' : Refs sb.ninodes (sb.addrsOn e) e (sb.Used e) fun j => slotsFor (sb.load e j).size :=
    (hrefs.congr (fun j k hj _ => by rw [haddrs j hj]) hind hused).count_congr hcount
  -- the bytes that were there before
  have hbyte : ∀ j o, j < sb.ninodes → o < (sb.load e j).size →
      byteAt (sb.addrsOn e) e j o =
        if j = i ∧ off ≤ o ∧ o < off + n then src (o - off)
        else byteAt (sb.addrsOn d) d j o := by
    intro j o hj ho
    have hmove : o < MAXFILE * BSIZE → slotOf (o / BSIZE) < slotsFor (sb.load e j).size →
        byteAt (sb.addrsOn e) e j o = byteAt (sb.addrsWith d' i ip') d' j o := by
      intro hfit hlive
      have hslot := slot_lt hfit
      have hne := (hrefs'.live j _ hj hslot).mpr hlive
      unfold byteAt
      have href : refAt (sb.addrsOn e) e j (slotOf (o / BSIZE)) =
          refAt (sb.addrsWith d' i ip') d' j (slotOf (o / BSIZE)) :=
        refAt_congr (fun k _ => by rw [haddrs j hj]) (fun hzero r => by rw [hind j hj hzero]) _
      rw [href] at hne ⊢
      rw [hblock _ (hrefs.inUse j _ hj hslot hne)]
    have hslots : ∀ s, o < s → slotOf (o / BSIZE) < slotsFor s := by
      intro s hs
      have hpiece : slotsFor (o + 1) = slotOf (o / BSIZE) + 1 := slotsFor_piece (by decide)
        (Nat.succ_le_of_lt (Nat.mod_lt _ (by decide)))
      have hmono := slotsFor_mono (show o + 1 ≤ s from hs)
      omega
    by_cases hji : j = i
    · subst hji
      rw [hself] at ho
      simp only at ho
      rw [hmove (by omega) (by rw [hself]; exact hslots _ ho)]
      by_cases hnew : off ≤ o ∧ o < off + n
      · rw [if_pos ⟨rfl, hnew⟩]
        exact (hw.new o hnew.1 hnew.2).2
      · rw [hw.bytes j o hj (by omega) (hslots _ (by omega)), addrsWith_load]
    · rw [hload j hj hji, hsame j hj] at ho
      have hfit := h.fits j hj
      rw [hmove (by omega) (by rw [hload j hj hji, hsame j hj]; exact hslots _ ho),
        hw.bytes j o hj (by omega) (hslots _ ho), addrsWith_load]
  exact
    { consistent :=
        { metas := by
            intro b hb
            by_cases hlt : b < sb.size
            · rw [hbit b hlt]
              exact hw.mapped.metas b hb
            · have hmeta := hw.mapped.metas b hb
              unfold Superblock.bit at hmeta ⊢
              rw [hblocks (sb.BBLOCK b) (Nat.le_add_left _ _)]
              exact hmeta
          refs := hrefs'
          fits := by
            intro j hj
            by_cases hji : j = i
            · rw [hji, hself]
              simp only
              omega
            · rw [hload j hj hji, hsame j hj]
              exact h.fits j hj }
      contents := by
        unfold Superblock.contents
        rw [← hsize, splice_map _ _ hoff, hself]
        apply List.map_congr_left
        intro o ho
        rw [hbyte i o hi (by rw [hself]; exact List.mem_range.mp ho)]
        simp only [true_and]
      fields := by
        rw [hlen, hself, hw.kept]
      other := by
        intro j hj hji
        have heq : sb.load e j = sb.load d j := (hload j hj hji).trans (hsame j hj)
        refine ⟨heq, ?_⟩
        unfold Superblock.contents
        rw [heq]
        apply List.map_congr_left
        intro o ho
        rw [hbyte j o hj (by rw [heq]; exact List.mem_range.mp ho),
          if_neg fun hall => hji hall.1]
      count := by
        rw [hlen, freeCount_congr fun x hx _ => hblocks x hx]
        exact hw.count }

/-- `writei` writes all bytes, or the disk is full. -/
theorem Consistent.writei (h : Consistent sb d) (hsb : sb.Ok) (devsw : Devsw)
    (hi : i < sb.ninodes) (hdev : (sb.load d i).type ≠ T_DEV) (hoff : off ≤ (sb.load d i).size)
    (hmax : off + n ≤ MAXFILE * BSIZE) (src : Bytes) :
    (∃ d', sb.writei devsw d i (sb.load d i) src off n = some (d', sb.load d' i, (n : Int)) ∧
      Wrote sb d i (splice (sb.contents d i) off ((List.range n).map src)) d') ∨
    sb.writei devsw d i (sb.load d i) src off n = none ∧
      sb.freeCount d + slotsFor (sb.load d i).size <
        slotsFor (max (sb.load d i).size (off + n)) := by
  have hbig : MAXFILE * BSIZE < 4294967296 := by decide
  have hsum : (off + n) % 4294967296 = off + n := Nat.mod_eq_of_lt (by omega)
  have hlow : sb.bmapstart < sb.dataStart := bmapstart_lt
  unfold Superblock.writei Log.writei
  rw [if_neg hdev, hsum, if_neg (by omega), if_neg (by omega)]
  rcases (h.mapped i).writeLoop hsb hi n src rfl hoff hmax (Nat.le_refl n) with
    ⟨d', ip', hrun, hw⟩ | ⟨hrun, hfull⟩
  · have hsame : ∀ j, j < sb.ninodes → sb.load d' j = sb.load d j := fun j hj =>
      addrsOn_congr hsb hw.table hj
    have hsize : ip'.size = (sb.load d i).size := by rw [hw.kept]
    left
    rw [hrun, Option.bind_some]
    by_cases hgrow : 0 < n ∧ ip'.size < off + n
    · have hok : ({ ip' with size := off + n } : Inode).Ok :=
        { hw.fields (load_ok sb d i) with
          size := Nat.lt_of_le_of_lt hmax hbig }
      have hself : sb.load (sb.iupdate d' i { ip' with size := off + n }) i =
          { ip' with size := off + n } := load_iupdate hok
      refine ⟨sb.iupdate d' i { ip' with size := off + n }, ?_, ?_⟩
      · rw [if_pos hgrow, hself]
        rfl
      · refine hw.sync hi h rfl hoff hmax ?_ ?_ hsame ?_
        · rw [hself, Nat.max_eq_right (by omega)]
        · exact fun j _ hji => load_iupdate_ne hji
        · intro x hx
          have htable := hsb.table i hi
          exact iupdate_of_ne (by omega)
    · -- the file has all its references, and has kept its size
      have hle : off + n ≤ (sb.load d i).size := by omega
      have hip : ip' = sb.load d i := by
        apply hw.same
        rw [Nat.max_eq_left hle]
      refine ⟨d', ?_, ?_⟩
      · rw [if_neg hgrow, hip, hsame i hi]
      · refine hw.sync hi h rfl hoff hmax ?_ (fun j _ _ => rfl) hsame fun _ _ => rfl
        rw [Nat.max_eq_left hle, hsame i hi, hip]
  · right
    rw [hrun]
    exact ⟨rfl, hfull⟩

/-- `writei` refuses what does not fit, and changes nothing. -/
theorem Log.writei_refused {σ : Type} (W : Log σ) (t : σ) (devsw : Devsw) (hdev : ip.type ≠ T_DEV)
    (hoff : off < 4294967296) (hn : n < 4294967296)
    (hno : ¬ (off ≤ ip.size ∧ off + n < 4294967296 ∧ off + n ≤ MAXFILE * BSIZE)) :
    W.writei sb devsw t i ip src off n = some (t, ip, -1) := by
  unfold Log.writei
  rw [if_neg hdev]
  by_cases hfirst : ip.size < off ∨ (off + n) % 4294967296 < off
  · rw [if_pos hfirst]
  · rw [if_neg hfirst, if_pos (by omega)]

theorem writei_refused (devsw : Devsw) (hdev : ip.type ≠ T_DEV) (hoff : off < 4294967296)
    (hn : n < 4294967296)
    (hno : ¬ (off ≤ ip.size ∧ off + n < 4294967296 ∧ off + n ≤ MAXFILE * BSIZE)) :
    sb.writei devsw d i ip src off n = some (d, ip, -1) :=
  plain.writei_refused d devsw hdev hoff hn hno

/-! ## A small disk -/

def smallSuperblock : Superblock where
  size := 256
  ninodes := 8
  inodestart := 0
  bmapstart := 1

/-- Inode 1 is a directory and inode 2 a file, both are empty; all data blocks are free. -/
def smallDisk : Disk := fun x j =>
  if x = 0 then if j = 64 ∨ j = 70 ∨ j = 134 then 1 else if j = 128 then 2 else 0
  else if x = 1 then if j = 0 then 3 else 0
  else 0

theorem smallSuperblock_ok : smallSuperblock.Ok where
  table i hi := by
    have hi' : i < 8 := hi
    unfold Superblock.IBLOCK IPB
    show i / 8 + 0 < 1
    omega
  size := by decide

theorem smallDisk_empty : ∀ i, i < 8 → u32 (smallDisk 0) (i * 64 + 8) = 0 ∧
    ∀ k, k < 13 → u32 (smallDisk 0) (i * 64 + (12 + 4 * k)) = 0 := by
  decide +kernel

theorem smallDisk_load (hi : i < smallSuperblock.ninodes) :
    (smallSuperblock.load smallDisk i).size = 0 ∧
      ∀ k, (smallSuperblock.load smallDisk i).addrs k = 0 := by
  have hi' : i < 8 := hi
  have hblock : smallSuperblock.IBLOCK i = 0 := by
    show i / 8 + 0 = 0
    omega
  have hmod : i % IPB = i := Nat.mod_eq_of_lt hi'
  obtain ⟨hsize, haddrs⟩ := smallDisk_empty i hi'
  unfold Superblock.load
  rw [hblock, hmod]
  refine ⟨hsize, fun k => ?_⟩
  show (if k ≤ NDIRECT then _ else 0) = 0
  split
  · rename_i hk
    exact haddrs k (Nat.lt_succ_of_le hk)
  · rfl

theorem smallDisk_consistent : Consistent smallSuperblock smallDisk where
  metas := by
    have hstart : smallSuperblock.dataStart = 2 := by decide
    rw [hstart]
    decide
  refs := by
    have haddr : ∀ i k, i < smallSuperblock.ninodes →
        smallSuperblock.addrsOn smallDisk i k = 0 := fun i k hi => (smallDisk_load hi).2 k
    have href : ∀ i k, i < smallSuperblock.ninodes →
        refAt (smallSuperblock.addrsOn smallDisk) smallDisk i k = 0 := by
      intro i k hi
      by_cases hk : k ≤ NDIRECT
      · rw [refAt_addr hk, haddr i k hi]
      · rw [refAt_none (Nat.lt_of_not_le hk) (haddr i NDIRECT hi)]
    exact
      { inUse := fun i k hi _ hne => absurd (href i k hi) hne
        inj := fun i _ k _ hi _ _ _ hne => absurd (href i k hi) hne
        live := by
          intro i k hi _
          rw [href i k hi, (smallDisk_load hi).1]
          exact ⟨fun hne => absurd rfl hne, fun hlt => absurd hlt (Nat.not_lt_zero k)⟩ }
  fits i hi := by
    rw [(smallDisk_load hi).1]
    exact Nat.zero_le _

def noDevices : Devsw where
  read := fun _ => none
  write := fun _ => none

theorem smallDisk_free : smallSuperblock.freeCount smallDisk = 254 := by
  decide +kernel

end OsWork.Ports.FsDisk

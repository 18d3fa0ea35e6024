import OsWork.Verified.CStrings

/-!
# The two `memmove` functions of `ass5/final_repo`

The one of the kernel, in `string.c`, goes down from the end of the ranges when the source
is below the destination and they overlap.  The one of the user library, in `ulib.c`, always
goes up, and it takes the count as an `int`.  Addresses and counts are numbers below
`2 ^ 32`, and what is added to them is reduced where the code does it.

## Main results

* `kernel_moves` — the kernel's function moves every range.
* `memmove_agree_iff` — the ranges that the function of the user library moves.
-/

namespace OsWork.Ports.Memmove

open OsWork.Verified
open OsWork.Verified.ByteWords OsWork.Verified.CStrings
open Function (update)

/-! ## The source -/

/-- The value of an address or a count after a sum. -/
def wrap (x : Nat) : Nat := x % 0x100000000

/-- The value of an address that is counted down. -/
def pred (x : Nat) : Nat := if x = 0 then 0xFFFFFFFF else x - 1

/-- A count as an `int`. -/
def toInt (n : Nat) : Int := if n < 0x80000000 then n else n - 0x100000000

/-- `while(n-- > 0) *d++ = *s++` -/
def copyUp : Nat → Bytes → Nat → Nat → Bytes
  | 0, m, _, _ => m
  | n + 1, m, d, s => copyUp n (update m d (m s)) (wrap (d + 1)) (wrap (s + 1))

/-- `while(n-- > 0) *--d = *--s` -/
def copyDown : Nat → Bytes → Nat → Nat → Bytes
  | 0, m, _, _ => m
  | n + 1, m, d, s => copyDown n (update m (pred d) (m (pred s))) (pred d) (pred s)

/-- `memmove` of `string.c`: the memory, and what is returned. -/
def Kernel.memmove (m : Bytes) (dst src n : Nat) : Bytes × Nat :=
  if src < dst ∧ dst < wrap (src + n) then
    (copyDown n m (wrap (dst + n)) (wrap (src + n)), dst)
  else (copyUp n m dst src, dst)

/-- `memmove` of `ulib.c`: the memory, and what is returned. -/
def User.memmove (m : Bytes) (vdst vsrc : Nat) (n : Int) : Bytes × Nat :=
  (copyUp n.toNat m vdst vsrc, vdst)

/-! ## The loops inside the address space -/

variable {m : Bytes} {dst src n : Nat}

/-- An address wraps only behind the last byte. -/
theorem copyUp_eq (n : Nat) (m : Bytes) (d s : Nat) (hd : d + n ≤ 0x100000000)
    (hs : s + n ≤ 0x100000000) : copyUp n m d s = CStrings.memmove n m d s := by
  induction n generalizing m d s with
  | zero => rfl
  | succ n ih =>
      cases n with
      | zero => rfl
      | succ n =>
          have hd' : wrap (d + 1) = d + 1 := Nat.mod_eq_of_lt (by omega)
          have hs' : wrap (s + 1) = s + 1 := Nat.mod_eq_of_lt (by omega)
          rw [copyUp, hd', hs', CStrings.memmove]
          exact ih _ _ _ (by omega) (by omega)

theorem pred_wrap (x : Nat) : pred (wrap (x + 1)) = wrap x := by
  unfold pred wrap
  split
  · omega
  · omega

theorem copyDown_eq (n : Nat) (m : Bytes) (d s : Nat) (hd : d + n ≤ 0x100000000)
    (hs : s + n ≤ 0x100000000) :
    copyDown n m (wrap (d + n)) (wrap (s + n)) = memmoveDown n m d s := by
  induction n generalizing m with
  | zero => rfl
  | succ n ih =>
      have hdn : wrap (d + n) = d + n := Nat.mod_eq_of_lt (by omega)
      have hsn : wrap (s + n) = s + n := Nat.mod_eq_of_lt (by omega)
      rw [copyDown, memmoveDown, ← Nat.add_assoc, ← Nat.add_assoc, pred_wrap, pred_wrap,
        ih _ (by omega) (by omega), hdn, hsn]

/-! ## What is moved -/

/-- The function of the kernel moves every range. -/
theorem kernel_moves (hdst : dst + n ≤ 0x100000000) (hsrc : src + n ≤ 0x100000000) :
    (Kernel.memmove m dst src n).1 = moved n m dst src := by
  unfold Kernel.memmove
  split
  · next hoverlap =>
      rw [copyDown_eq n m dst src hdst hsrc]
      exact memmoveDown_eq_moved n m dst src (Nat.le_of_lt hoverlap.1)
  · next hapart =>
      rw [copyUp_eq n m dst src hdst hsrc, memmove_eq_moved]
      intro hlt i hi
      -- the end of the source is below the end of the destination, so it does not wrap
      have hend : wrap (src + n) = src + n := Nat.mod_eq_of_lt (by omega)
      rw [hend] at hapart
      omega

/-- Both functions leave the memory in which the range has been moved. -/
structure Agree (m : Bytes) (dst src n : Nat) : Prop where
  kernel : (Kernel.memmove m dst src n).1 = moved n m dst src
  user : (User.memmove m dst src (toInt n)).1 = moved n m dst src

theorem moved_eq_self : moved n m dst src = m ↔ ∀ i, i < n → m (dst + i) = m (src + i) := by
  constructor
  · intro heq i hi
    have hmoved := moved_inside m dst src hi
    rw [heq] at hmoved
    exact hmoved
  · intro hsame
    funext j
    unfold moved
    split
    · next hj =>
        have hbyte := hsame (j - dst) (by omega)
        rw [show dst + (j - dst) = j by omega] at hbyte
        exact hbyte.symm
    · rfl

/-- The two agree exactly when the count is not negative as an `int` and what the user's
function reads again has not changed, or when there is nothing to change. -/
theorem memmove_agree_iff (m : Bytes) (dst src n : Nat) (hn : n < 0x100000000)
    (hdst : dst + n ≤ 0x100000000) (hsrc : src + n ≤ 0x100000000) :
    Agree m dst src n ↔
      (n < 0x80000000 ∧ (src < dst → ∀ i, dst + i < src + n → m (dst + i) = m (src + i))) ∨
      (0x80000000 ≤ n ∧ ∀ i, i < n → m (dst + i) = m (src + i)) := by
  have hkernel := kernel_moves (m := m) hdst hsrc
  have huser : Agree m dst src n ↔ copyUp (toInt n).toNat m dst src = moved n m dst src :=
    ⟨fun h => h.user, fun h => ⟨hkernel, h⟩⟩
  rw [huser]
  rcases Nat.lt_or_ge n 0x80000000 with hsmall | hlarge
  · have hcount : (toInt n).toNat = n := by
      unfold toInt
      rw [if_pos hsmall, Int.toNat_natCast]
    rw [hcount, copyUp_eq n m dst src hdst hsrc, memmove_eq_moved]
    constructor
    · intro h
      exact .inl ⟨hsmall, h⟩
    · rintro (h | h)
      · exact h.2
      · exact absurd h.1 (Nat.not_le_of_lt hsmall)
  · have hcount : (toInt n).toNat = 0 := by
      unfold toInt
      rw [if_neg (Nat.not_lt_of_le hlarge)]
      omega
    rw [hcount]
    show m = moved n m dst src ↔ _
    rw [eq_comm, moved_eq_self]
    constructor
    · intro h
      exact .inr ⟨hlarge, h⟩
    · rintro (h | h)
      · exact absurd h.1 (Nat.not_lt_of_le hlarge)
      · exact h.2

/-- Two bytes are moved down. -/
theorem memmove_agree_iff_down : Agree (fun j => UInt8.ofNat j) 0 1 2 :=
  (memmove_agree_iff _ 0 1 2 (by decide) (by decide) (by decide)).mpr
    (.inl ⟨by decide, fun h => absurd h (by decide)⟩)

/-- Two different bytes are moved up by one. -/
theorem not_all_agree : ¬ ∀ (m : Bytes) (dst src n : Nat), n < 0x100000000 →
    dst + n ≤ 0x100000000 → src + n ≤ 0x100000000 → Agree m dst src n := by
  intro hall
  have huser := (hall (fun j => UInt8.ofNat j) 1 0 2 (by decide) (by decide) (by decide)).user
  exact absurd (congrFun huser 2) (by decide)

end OsWork.Ports.Memmove

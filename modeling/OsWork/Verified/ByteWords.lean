import Mathlib.Logic.Function.Basic

/-!
# Words in arrays of bytes

An array of bytes is a function of the offset.  Its 16-bit and 32-bit words are stored with
the low byte first, at any offset.

## Main results

* `u32_put32_self`, `u32_put32_ne` — a store of a word is read back, and words that do not
  overlap it keep their values.
* `copy_inside`, `copy_outside` — what a copied range holds.
-/

namespace OsWork.Verified.ByteWords

/-- The contents of a file, a disk sector or a structure. -/
abbrev Bytes := Nat → UInt8

/-- The bytes of a buffer. -/
def bytesOf (p : List UInt8) : Bytes := fun j => p.getD j 0

variable (b : Bytes) (o v : Nat)

def u16 : Nat := (b o).toNat + 256 * (b (o + 1)).toNat

def u32 : Nat := u16 b o + 65536 * u16 b (o + 2)

def put16 : Bytes :=
  Function.update (Function.update b o (UInt8.ofNat v)) (o + 1) (UInt8.ofNat (v / 256))

def put32 : Bytes := put16 (put16 b o v) (o + 2) (v / 65536)

/-- The first `n` bytes of `p` are copied to the offset `o`. -/
def copy (p : Bytes) (n : Nat) : Bytes := fun j => if o ≤ j ∧ j < o + n then p (j - o) else b j

variable {b o v} {b' p : Bytes} {n j k : Nat}

theorem put16_of_ne (h : j < o ∨ o + 2 ≤ j) : put16 b o v j = b j := by
  unfold put16
  rw [Function.update_of_ne (by omega), Function.update_of_ne (by omega)]

/-- A word that is stored is cut off. -/
theorem u16_put16_self : u16 (put16 b o v) o = v % 65536 := by
  have hlow : put16 b o v o = UInt8.ofNat v := by
    unfold put16
    rw [Function.update_of_ne (by omega), Function.update_self]
  have hhigh : put16 b o v (o + 1) = UInt8.ofNat (v / 256) := by
    unfold put16
    rw [Function.update_self]
  unfold u16
  rw [hlow, hhigh, UInt8.toNat_ofNat', UInt8.toNat_ofNat']
  omega

theorem u16_congr (h : ∀ i, i < 2 → b' (o + i) = b (o + i)) : u16 b' o = u16 b o := by
  have h₀ : b' o = b o := h 0 (by omega)
  unfold u16
  rw [h₀, h 1 (by omega)]

theorem u32_congr (h : ∀ i, i < 4 → b' (o + i) = b (o + i)) : u32 b' o = u32 b o := by
  have hlow : u16 b' o = u16 b o := u16_congr fun i hi => h i (by omega)
  have hhigh : u16 b' (o + 2) = u16 b (o + 2) := by
    apply u16_congr
    intro i hi
    rw [Nat.add_assoc]
    exact h (2 + i) (by omega)
  unfold u32
  rw [hlow, hhigh]

theorem put32_of_ne (h : j < o ∨ o + 4 ≤ j) : put32 b o v j = b j := by
  unfold put32
  rw [put16_of_ne (by omega), put16_of_ne (by omega)]

theorem u32_put32_self (h : v < 4294967296) : u32 (put32 b o v) o = v := by
  have hhigh : u16 (put32 b o v) (o + 2) = v / 65536 % 65536 := u16_put16_self
  have hlow : u16 (put32 b o v) o = v % 65536 := by
    have hsame : u16 (put32 b o v) o = u16 (put16 b o v) o :=
      u16_congr fun i hi => put16_of_ne (by omega)
    rw [hsame, u16_put16_self]
  unfold u32
  rw [hlow, hhigh]
  omega

theorem u32_put32_ne (h : k + 4 ≤ o ∨ o + 4 ≤ k) : u32 (put32 b o v) k = u32 b k :=
  u32_congr fun i hi => put32_of_ne (by omega)

theorem u16_put32_ne (h : k + 2 ≤ o ∨ o + 4 ≤ k) : u16 (put32 b o v) k = u16 b k :=
  u16_congr fun i hi => put32_of_ne (by omega)

theorem copy_inside (h : j < n) : copy b o p n (o + j) = p j := by
  unfold copy
  rw [if_pos (by omega), Nat.add_sub_cancel_left]

theorem copy_outside (h : j < o ∨ o + n ≤ j) : copy b o p n j = b j := by
  unfold copy
  rw [if_neg (by omega)]

theorem u32_lt (b : Bytes) (o : Nat) : u32 b o < 4294967296 := by
  have h₀ := (b o).toNat_lt
  have h₁ := (b (o + 1)).toNat_lt
  have h₂ := (b (o + 2)).toNat_lt
  have h₃ := (b (o + 2 + 1)).toNat_lt
  unfold u32 u16
  omega

end OsWork.Verified.ByteWords

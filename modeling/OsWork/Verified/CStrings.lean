import OsWork.Verified.ByteWords

/-!
# Strings in a buffer

A string is read from a position of a buffer up to the byte 0.  The functions that scan it
are given the number of bytes that the buffer has from there on.

## Main results

* `Holds.append` — what is stored one behind the other.
* `cstr_of_holds`, `strchr_of_holds`, `strchr_none` — the scans of a string that is in the
  buffer.
* `memmove_holds` — a range moved down keeps its bytes.
* `memmove_eq_moved`, `memmoveDown_eq_moved` — which order moves a range.
-/

namespace OsWork.Verified.CStrings

open ByteWords

/-- The bytes from `p` on are `l`. -/
def Holds (b : Bytes) (p : Nat) (l : List UInt8) : Prop :=
  ∀ i (hi : i < l.length), b (p + i) = l[i]

/-- The string at `p`. -/
def cstr (b : Bytes) : Nat → Nat → List UInt8
  | 0, _ => []
  | n + 1, p => if b p = 0 then [] else b p :: cstr b n (p + 1)

/-- `strchr(p, c)` -/
def strchr (b : Bytes) (c : UInt8) : Nat → Nat → Option Nat
  | 0, _ => none
  | n + 1, p => if b p = 0 then none else if b p = c then some p else strchr b c n (p + 1)

/-- The bytes from `p` up to `q`. -/
def slice (b : Bytes) (p q : Nat) : List UInt8 := (List.range (q - p)).map fun i => b (p + i)

/-- `memmove(d, s, n)`, from the first byte on. -/
def memmove : Nat → Bytes → Nat → Nat → Bytes
  | 0, b, _, _ => b
  | n + 1, b, d, s => memmove n (Function.update b d (b s)) (d + 1) (s + 1)

/-- `memmove(d, s, n)`, from the last byte on. -/
def memmoveDown : Nat → Bytes → Nat → Nat → Bytes
  | 0, b, _, _ => b
  | n + 1, b, d, s => memmoveDown n (Function.update b (d + n) (b (s + n))) d s

/-- The bytes from `d` on are those that were in the range from `s` on. -/
def moved (n : Nat) (b : Bytes) (d s : Nat) : Bytes :=
  fun j => if d ≤ j ∧ j < d + n then b (s + (j - d)) else b j

variable {b b' : Bytes} {p q n : Nat} {c x : UInt8} {l l' : List UInt8}

/-! ## What a buffer holds -/

theorem Holds.nil : Holds b p [] := fun _ hi => absurd hi (Nat.not_lt_zero _)

theorem holds_cons : Holds b p (x :: l) ↔ b p = x ∧ Holds b (p + 1) l := by
  constructor
  · intro h
    refine ⟨h 0 (Nat.succ_pos _), fun i hi => ?_⟩
    have hsucc := h (i + 1) (Nat.succ_lt_succ hi)
    rwa [show p + 1 + i = p + (i + 1) by omega]
  · intro h i hi
    cases i with
    | zero => exact h.1
    | succ i =>
        have hrest := h.2 i (Nat.lt_of_succ_lt_succ hi)
        rwa [show p + 1 + i = p + (i + 1) by omega] at hrest

theorem holds_append : Holds b p (l ++ l') ↔ Holds b p l ∧ Holds b (p + l.length) l' := by
  induction l generalizing p with
  | nil => simp [Holds.nil]
  | cons x l ih =>
      rw [List.cons_append, holds_cons, holds_cons, ih, List.length_cons, and_assoc,
        show p + 1 + l.length = p + (l.length + 1) by omega]

theorem Holds.append (h : Holds b p l) (h' : Holds b (p + l.length) l') :
    Holds b p (l ++ l') := holds_append.mpr ⟨h, h'⟩

theorem Holds.left (h : Holds b p (l ++ l')) : Holds b p l := (holds_append.mp h).1

theorem Holds.right (h : Holds b p (l ++ l')) : Holds b (p + l.length) l' := (holds_append.mp h).2

theorem Holds.congr (h : Holds b p l) (heq : ∀ j, p ≤ j → j < p + l.length → b' j = b j) :
    Holds b' p l := fun i hi => (heq (p + i) (by omega) (by omega)).trans (h i hi)

/-- A write elsewhere. -/
theorem Holds.update (h : Holds b p l) (hq : q < p ∨ p + l.length ≤ q) :
    Holds (Function.update b q x) p l :=
  h.congr fun _ hp hl => Function.update_of_ne (by omega) _ _

theorem holds_copy (b : Bytes) (p : Nat) (l : List UInt8) :
    Holds (copy b p (bytesOf l) l.length) p l := by
  intro i hi
  rw [copy_inside hi]
  rw [bytesOf, List.getD_eq_getElem?_getD, List.getElem?_eq_getElem hi]
  rfl

theorem Holds.copy_below (h : Holds b p l) (hq : p + l.length ≤ q) :
    Holds (copy b q (bytesOf l') n) p l :=
  h.congr fun _ _ hl => copy_outside (.inl (by omega))

theorem slice_length (b : Bytes) (p q : Nat) : (slice b p q).length = q - p := by
  rw [slice, List.length_map, List.length_range]

theorem holds_slice (b : Bytes) (p q : Nat) : Holds b p (slice b p q) := by
  intro i hi
  simp only [slice, List.getElem_map, List.getElem_range]

theorem slice_of_holds (h : Holds b p l) : slice b p (p + l.length) = l := by
  apply List.ext_getElem
  · simp [slice]
  · intro i hi hi'
    simp only [slice, List.getElem_map, List.getElem_range]
    exact h i hi'

/-! ## Scans -/

theorem cstr_of_holds (h : Holds b p l) (hend : b (p + l.length) = 0) (hzero : 0 ∉ l)
    (hn : l.length < n) : cstr b n p = l := by
  induction l generalizing p n with
  | nil =>
      obtain ⟨n, rfl⟩ := Nat.exists_eq_succ_of_ne_zero (Nat.ne_of_gt hn)
      exact if_pos hend
  | cons x l ih =>
      obtain ⟨n, rfl⟩ := Nat.exists_eq_succ_of_ne_zero (Nat.ne_of_gt (Nat.zero_lt_of_lt hn))
      obtain ⟨hx, hrest⟩ := holds_cons.mp h
      have hne : x ≠ 0 := fun h0 => hzero (h0 ▸ List.mem_cons_self)
      rw [cstr, if_neg (hx ▸ hne), hx, ih hrest]
      · rw [← hend, List.length_cons, show p + 1 + l.length = p + (l.length + 1) by omega]
      · exact fun hmem => hzero (List.mem_cons_of_mem _ hmem)
      · exact Nat.lt_of_succ_lt_succ hn

/-- The first `c` of the string is behind `l`. -/
theorem strchr_of_holds (h : Holds b p (l ++ [c])) (hc : c ∉ l) (hzero : 0 ∉ l) (hc0 : c ≠ 0)
    (hn : l.length < n) : strchr b c n p = some (p + l.length) := by
  induction l generalizing p n with
  | nil =>
      obtain ⟨n, rfl⟩ := Nat.exists_eq_succ_of_ne_zero (Nat.ne_of_gt hn)
      have hp := (holds_cons.mp h).1
      rw [strchr, if_neg (hp ▸ hc0), if_pos hp]
      rfl
  | cons x l ih =>
      obtain ⟨n, rfl⟩ := Nat.exists_eq_succ_of_ne_zero (Nat.ne_of_gt (Nat.zero_lt_of_lt hn))
      obtain ⟨hx, hrest⟩ := holds_cons.mp h
      have hne : x ≠ 0 := fun h0 => hzero (h0 ▸ List.mem_cons_self)
      have hxc : x ≠ c := fun h0 => hc (h0 ▸ List.mem_cons_self)
      rw [strchr, if_neg (hx ▸ hne), if_neg (hx ▸ hxc), ih hrest]
      · rw [List.length_cons, show p + 1 + l.length = p + (l.length + 1) by omega]
      · exact fun hmem => hc (List.mem_cons_of_mem _ hmem)
      · exact fun hmem => hzero (List.mem_cons_of_mem _ hmem)
      · exact Nat.lt_of_succ_lt_succ hn

theorem strchr_none (h : Holds b p l) (hend : b (p + l.length) = 0) (hc : c ∉ l) :
    strchr b c n p = none := by
  induction n generalizing p l with
  | zero => rfl
  | succ n ih =>
      cases l with
      | nil => exact if_pos hend
      | cons x l =>
          obtain ⟨hx, hrest⟩ := holds_cons.mp h
          have hxc : x ≠ c := fun h0 => hc (h0 ▸ List.mem_cons_self)
          have hend' : b (p + 1 + l.length) = 0 := by
            rw [← hend, List.length_cons, show p + 1 + l.length = p + (l.length + 1) by omega]
          unfold strchr
          split
          · rfl
          · rw [if_neg (hx ▸ hxc)]
            exact ih hrest hend' fun hmem => hc (List.mem_cons_of_mem _ hmem)

/-! ## Moves -/

/-- What is below the place a range is moved to stays. -/
theorem memmove_below (n : Nat) (b : Bytes) (d s j : Nat) (hj : j < d) :
    memmove n b d s j = b j := by
  induction n generalizing b d s with
  | zero => rfl
  | succ n ih =>
      rw [memmove, ih _ _ _ (by omega)]
      exact Function.update_of_ne (by omega) _ _

theorem memmove_holds (d s : Nat) (hd : d ≤ s) (h : Holds b s l) :
    Holds (memmove l.length b d s) d l := by
  induction l generalizing b d s with
  | nil => exact .nil
  | cons x l ih =>
      obtain ⟨hx, hrest⟩ := holds_cons.mp h
      rw [List.length_cons, memmove, holds_cons]
      constructor
      · rw [memmove_below _ _ _ _ _ (by omega), Function.update_self, hx]
      · exact ih (d + 1) (s + 1) (by omega) (hrest.update (.inl (by omega)))

theorem memmove_above (n : Nat) (b : Bytes) (d s j : Nat) (hj : d + n ≤ j) :
    memmove n b d s j = b j := by
  induction n generalizing b d s with
  | zero => rfl
  | succ n ih =>
      rw [memmove, ih _ _ _ (by omega)]
      exact Function.update_of_ne (by omega) _ _

theorem moved_inside (b : Bytes) (d s : Nat) {n i : Nat} (hi : i < n) :
    moved n b d s (d + i) = b (s + i) := by
  unfold moved
  rw [if_pos ⟨Nat.le_add_right d i, by omega⟩, Nat.add_sub_cancel_left]

/-- From the first byte on, a byte that has been moved already is read again. -/
theorem memmove_again {i : Nat} (n : Nat) (b : Bytes) (d s : Nat) (hlt : s < d) (hi : i < n) :
    memmove n b d s (d + i) = if d ≤ s + i then memmove n b d s (s + i) else b (s + i) := by
  induction n generalizing b d s i with
  | zero => exact absurd hi (Nat.not_lt_zero _)
  | succ n ih =>
      rw [memmove]
      cases i with
      | zero =>
          rw [if_neg (by omega)]
          show memmove n (Function.update b d (b s)) (d + 1) (s + 1) d = b s
          rw [memmove_below _ _ _ _ _ (by omega), Function.update_self]
      | succ i =>
          have hrest := ih (Function.update b d (b s)) (d + 1) (s + 1) (by omega)
            (Nat.lt_of_succ_lt_succ hi)
          rw [show d + 1 + i = d + (i + 1) by omega, show s + 1 + i = s + (i + 1) by omega]
            at hrest
          rw [hrest]
          rcases Nat.lt_trichotomy d (s + (i + 1)) with hd | hd | hd
          · rw [if_pos (by omega), if_pos (by omega)]
          · rw [if_neg (by omega), if_pos (by omega), ← hd, Function.update_self,
              memmove_below _ _ (d + 1) _ d (by omega), Function.update_self]
          · rw [if_neg (by omega), if_neg (by omega), Function.update_of_ne (by omega)]

/-- From the first byte on, a range moves down, and it moves up when what is read again has
not changed. -/
theorem memmove_eq_moved (n : Nat) (b : Bytes) (d s : Nat) :
    memmove n b d s = moved n b d s ↔
      (s < d → ∀ i, d + i < s + n → b (d + i) = b (s + i)) := by
  constructor
  · intro heq hlt i hi
    have hagain := memmove_again n b d s hlt (i := i + (d - s)) (by omega)
    rw [if_pos (by omega), show s + (i + (d - s)) = d + i by omega, heq,
      moved_inside b d s (by omega), moved_inside b d s (by omega),
      show s + (i + (d - s)) = d + i by omega] at hagain
    exact hagain
  · intro hsame
    have hbytes : ∀ i, i < n → memmove n b d s (d + i) = b (s + i) := by
      intro i hi
      rcases Nat.lt_or_ge s d with hlt | hle
      · induction i using Nat.strongRecOn with
        | ind i ih =>
            rw [memmove_again n b d s hlt hi]
            by_cases hread : d ≤ s + i
            · have hearlier := ih (s + i - d) (by omega) (by omega)
              have hunchanged := hsame hlt (s + i - d) (by omega)
              rw [show d + (s + i - d) = s + i by omega] at hearlier hunchanged
              rw [if_pos hread, hearlier, hunchanged]
            · rw [if_neg hread]
      · have hholds := memmove_holds d s hle (holds_slice b s (s + n))
        rw [slice_length, Nat.add_sub_cancel_left] at hholds
        have hi' : i < (slice b s (s + n)).length := by
          rw [slice_length]
          omega
        rw [hholds i hi', ← holds_slice b s (s + n) i hi']
    funext j
    by_cases hj : d ≤ j ∧ j < d + n
    · have hinside := hbytes (j - d) (by omega)
      rw [show d + (j - d) = j by omega] at hinside
      rw [hinside, moved, if_pos hj]
    · rw [moved, if_neg hj]
      rcases Nat.lt_or_ge j d with hlow | hhigh
      · exact memmove_below n b d s j hlow
      · exact memmove_above n b d s j (by omega)

/-- From the last byte on, a range moves up. -/
theorem memmoveDown_eq_moved (n : Nat) (b : Bytes) (d s : Nat) (hle : s ≤ d) :
    memmoveDown n b d s = moved n b d s := by
  induction n generalizing b with
  | zero =>
      funext j
      exact (if_neg (by omega)).symm
  | succ n ih =>
      rw [memmoveDown, ih]
      funext j
      unfold moved
      by_cases hj : d ≤ j ∧ j < d + n
      · rw [if_pos hj, if_pos (by omega), Function.update_of_ne (by omega)]
      · rw [if_neg hj]
        by_cases hlast : j = d + n
        · rw [hlast, if_pos (by omega), Function.update_self, Nat.add_sub_cancel_left]
        · rw [if_neg (by omega), Function.update_of_ne hlast]

end OsWork.Verified.CStrings

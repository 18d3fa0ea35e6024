import Mathlib.Data.List.Range
import Mathlib.Logic.Function.Basic

/-!
# Windows of a ring

A ring keeps the element with the number `k` in the cell `k % size` of an array.  What lies
between two numbers is a list, whatever the counters of a program do: they may run freely
or wrap, as long as they say the number modulo the size.

## Main results

* `window_add`, `window_succ` — a window is cut in two.
* `window_congr` — only the start modulo the size counts.
* `window_update` — an element that is put behind a window leaves it alone.
-/

namespace OsWork.Verified.Ring

universe u

variable {α : Type u} (size : Nat) (data : Nat → α)

/-- The `n` elements from the number `a` on. -/
def window (a n : Nat) : List α :=
  (List.range n).map fun k => data ((a + k) % size)

@[simp] theorem window_zero (a : Nat) : window size data a 0 = [] := rfl

@[simp] theorem length_window (a n : Nat) : (window size data a n).length = n := by
  unfold window
  rw [List.length_map, List.length_range]

theorem window_add (a n m : Nat) :
    window size data a (n + m) = window size data a n ++ window size data (a + n) m := by
  unfold window
  rw [List.range_add, List.map_append, List.map_map]
  congr 1
  apply List.map_congr_left
  intro k _
  show data ((a + (n + k)) % size) = _
  rw [Nat.add_assoc]

theorem window_one (a : Nat) : window size data a 1 = [data (a % size)] := rfl

theorem window_succ (a n : Nat) :
    window size data a (n + 1) = data (a % size) :: window size data (a + 1) n := by
  rw [Nat.add_comm n 1, window_add, window_one, List.singleton_append]

variable {size data}

theorem window_congr {a b : Nat} (h : a % size = b % size) (n : Nat) :
    window size data a n = window size data b n := by
  unfold window
  apply List.map_congr_left
  intro k _
  rw [Nat.add_mod, h, ← Nat.add_mod]

/-- Two numbers less than the size apart have different cells. -/
theorem cell_ne {a k m : Nat} (hk : k < m) (hm : m < k + size) :
    (a + k) % size ≠ (a + m) % size := by
  intro heq
  have hdvd : size ∣ a + m - (a + k) :=
    Nat.dvd_of_mod_eq_zero (Nat.sub_mod_eq_zero_of_mod_eq heq.symm)
  have hle := Nat.le_of_dvd (by omega) hdvd
  omega

theorem window_update {a n m : Nat} (hn : n ≤ m) (hm : m < size) (x : α) :
    window size (Function.update data ((a + m) % size) x) a n = window size data a n := by
  unfold window
  apply List.map_congr_left
  intro k hk
  have hk := List.mem_range.mp hk
  rw [Function.update_of_ne (cell_ne (by omega) (by omega))]

end OsWork.Verified.Ring

import Mathlib.Data.List.DropRight
import OsWork.Ports.FsDirent
import OsWork.Verified.Runs

/-!
# Path elements

`skipelem` of `fs.c` on the bytes of a path, and the elements that its calls copy to `name`.

## Main results

* `elements_names` — they are the runs between slashes, cut to `DIRSIZ` bytes.
-/

namespace OsWork.Ports.FsPaths

open OsWork.Verified.ByteWords OsWork.Verified.Runs OsWork.Ports.FsLayout OsWork.Ports.FsDisk
open Function (update)

/-! ## The source -/

/-- The bytes of a string before its terminator. -/
structure Path where
  bytes : List UInt8
  noZero : 0 ∉ bytes

def slash : UInt8 := 0x2F

/-- `while(p(*path)) path++;` for a `p` that stops at the terminator. -/
def Path.skip (path : Path) (p : UInt8 → Bool) : Path where
  bytes := path.bytes.dropWhile p
  noZero h := path.noZero ((List.dropWhile_sublist p).subset h)

/-- The rest of the path, and what is in `name` then. -/
def skipelem (path : Path) (name : Bytes) : Option (Path × Bytes) :=
  let s := path.skip (· == slash)
  if s.bytes = [] then none
  else
    let rest := s.skip (· != slash)
    let len := s.bytes.length - rest.bytes.length
    let name :=
      if DIRSIZ ≤ len then copy name 0 (bytesOf s.bytes) DIRSIZ
      else update (copy name 0 (bytesOf s.bytes) len) len 0
    some (rest.skip (· == slash), name)

/-! ## One element -/

/-- The first element of a path. -/
def Path.element (path : Path) : List UInt8 :=
  (path.skip (· == slash)).bytes.takeWhile (· != slash)

/-- What is behind it. -/
def Path.behind (path : Path) : Path :=
  ((path.skip (· == slash)).skip (· != slash)).skip (· == slash)

variable {path rest : Path} {name name' : Bytes}

/-- A string of `l`, with a terminator if there is room for it. -/
theorem cstr_of_bytes : ∀ (n : Nat) (l : List UInt8) (p : Bytes), 0 ∉ l →
    (∀ j, j < n → j < l.length → p j = bytesOf l j) → (l.length < n → p l.length = 0) →
    cstr n p = l.take n := by
  intro n
  induction n with
  | zero => exact fun _ _ _ _ _ => rfl
  | succ n ih =>
      intro l p hzero hbytes hend
      unfold cstr
      cases l with
      | nil => exact if_pos (hend (Nat.succ_pos n))
      | cons c l =>
          have hc : p 0 = c := hbytes 0 (Nat.succ_pos n) (Nat.succ_pos _)
          have hne : p 0 ≠ 0 := by
            rw [hc]
            exact fun heq => hzero (heq ▸ List.mem_cons_self)
          rw [if_neg hne, List.take_succ_cons, hc]
          congr 1
          apply ih
          · exact fun hmem => hzero (List.mem_cons_of_mem c hmem)
          · exact fun j hj hlen => hbytes (j + 1) (by omega) (by rw [List.length_cons]; omega)
          · exact fun hlen => hend (by rw [List.length_cons]; omega)

/-- What `memmove` and the terminator leave in `name`. -/
theorem nameOf_element {l : List UInt8} (hzero : 0 ∉ l) {src : Bytes}
    (hsrc : ∀ j, j < l.length → src j = bytesOf l j) :
    nameOf (if DIRSIZ ≤ l.length then copy name 0 src DIRSIZ
      else update (copy name 0 src l.length) l.length 0) = l.take DIRSIZ := by
  have hcopy : ∀ n j, j < n → copy name 0 src n j = src j := by
    intro n j hj
    have hin := copy_inside (b := name) (o := 0) (p := src) hj
    rwa [Nat.zero_add] at hin
  apply cstr_of_bytes _ _ _ hzero
  · intro j hj hlen
    split
    · rw [hcopy _ _ hj, hsrc j hlen]
    · rw [Function.update_of_ne (Nat.ne_of_lt hlen), hcopy _ _ hlen, hsrc j hlen]
  · intro hlen
    rw [if_neg (Nat.not_le_of_lt hlen), Function.update_self]

theorem skip_length (path : Path) (p : UInt8 → Bool) :
    (path.skip p).bytes.length ≤ path.bytes.length := (List.dropWhile_sublist p).length_le

/-- The element and what follows it. -/
theorem element_append (path : Path) :
    (path.skip (· == slash)).bytes =
      path.element ++ ((path.skip (· == slash)).skip (· != slash)).bytes :=
  List.takeWhile_append_dropWhile.symm

theorem skipelem_eq_none : skipelem path name = none ↔ (path.skip (· == slash)).bytes = [] := by
  unfold skipelem
  simp only
  split
  · rename_i hnil
    exact iff_of_true rfl hnil
  · rename_i hne
    exact iff_of_false nofun hne

/-- `skipelem` stores the first element, cut to `DIRSIZ` bytes. -/
theorem skipelem_some (h : skipelem path name = some (rest, name')) :
    rest = path.behind ∧ nameOf name' = path.element.take DIRSIZ := by
  unfold skipelem at h
  simp only at h
  split at h
  · cases h
  simp only [Option.some.injEq, Prod.mk.injEq] at h
  obtain ⟨rfl, rfl⟩ := h
  refine ⟨rfl, ?_⟩
  have hsplit := element_append path
  have hlen : (path.skip (· == slash)).bytes.length -
      ((path.skip (· == slash)).skip (· != slash)).bytes.length = path.element.length := by
    rw [hsplit, List.length_append, Nat.add_sub_cancel]
  rw [hlen]
  apply nameOf_element
  · exact fun hmem => (path.skip _).noZero (hsplit ▸ List.mem_append_left _ hmem)
  · intro j hj
    rw [hsplit]
    exact List.getD_append _ _ _ _ hj

/-- The first element is the first run between slashes. -/
theorem runs_element (h : (path.skip (· == slash)).bytes ≠ []) :
    runs (· == slash) path.bytes = path.element :: runs (· == slash) path.behind.bytes := by
  rw [runs_of_ne_nil h]
  congr 1
  exact (runs_dropWhile _).symm

theorem behind_length (h : (path.skip (· == slash)).bytes ≠ []) :
    path.behind.bytes.length < path.bytes.length := by
  have hhead := List.head?_dropWhile_not (· == slash) path.bytes
  have hfirst := skip_length path (· == slash)
  have hlast := skip_length ((path.skip (· == slash)).skip (· != slash)) (· == slash)
  have hmid : ((path.skip (· == slash)).skip (· != slash)).bytes.length <
      (path.skip (· == slash)).bytes.length := by
    show ((path.bytes.dropWhile (· == slash)).dropWhile (· != slash)).length <
      (path.bytes.dropWhile (· == slash)).length
    cases hs : path.bytes.dropWhile (· == slash) with
    | nil => exact absurd hs h
    | cons c l =>
        have hc : (c == slash) = false := by simpa [hs] using hhead
        rw [List.dropWhile_cons_of_pos (by unfold bne; rw [hc]; rfl)]
        exact Nat.lt_succ_of_le (List.dropWhile_sublist _).length_le
  unfold Path.behind
  omega

theorem skipelem_length (h : skipelem path name = some (rest, name')) :
    rest.bytes.length < path.bytes.length := by
  rw [(skipelem_some h).1]
  apply behind_length
  intro hnil
  rw [skipelem_eq_none.mpr hnil] at h
  cases h

/-! ## All elements -/

/-- What is in `name` after each of the calls that copy an element. -/
def elements (path : Path) (name : Bytes) : List Bytes :=
  match _h : skipelem path name with
  | none => []
  | some (path', name') => name' :: elements path' name'
termination_by path.bytes.length
decreasing_by exact skipelem_length _h

theorem elements_none (h : skipelem path name = none) : elements path name = [] := by
  rw [elements]
  split
  · rfl
  · rename_i hsome
    rw [h] at hsome
    cases hsome

theorem elements_some (h : skipelem path name = some (rest, name')) :
    elements path name = name' :: elements rest name' := by
  rw [elements]
  split
  · rename_i hnone
    rw [h] at hnone
    cases hnone
  · rename_i hsome
    rw [h] at hsome
    cases hsome
    rfl

/-- The components of a path. -/
def Path.names (path : Path) : List (List UInt8) :=
  (runs (· == slash) path.bytes).map (List.take DIRSIZ)

theorem names_none (h : skipelem path name = none) : path.names = [] := by
  unfold Path.names
  rw [← runs_dropWhile]
  have hnil : path.bytes.dropWhile (· == slash) = [] := skipelem_eq_none.mp h
  rw [hnil]
  rfl

theorem names_some (h : skipelem path name = some (rest, name')) :
    path.names = nameOf name' :: rest.names := by
  obtain ⟨rfl, hname⟩ := skipelem_some h
  unfold Path.names
  rw [runs_element, List.map_cons, hname]
  intro hnil
  rw [skipelem_eq_none.mpr hnil] at h
  cases h

/-- What is behind an element has no slash in front. -/
theorem behind_names (h : skipelem path name = some (rest, name')) :
    rest.bytes.isEmpty = rest.names.isEmpty := by
  have hbehind := (skipelem_some h).1
  cases hskip : skipelem rest name' with
  | none =>
      rw [names_none hskip]
      have hnil := skipelem_eq_none.mp hskip
      have hsame : (rest.skip (· == slash)).bytes = rest.bytes := by
        rw [hbehind]
        exact List.dropWhile_idempotent _ _
      rw [hsame] at hnil
      rw [hnil]
      rfl
  | some r =>
      obtain ⟨rest', name''⟩ := r
      rw [names_some hskip]
      have hpos := skipelem_length hskip
      cases hbytes : rest.bytes with
      | nil =>
          rw [hbytes] at hpos
          exact absurd hpos (Nat.not_lt_zero _)
      | cons c l => rfl

/-- The elements are the components. -/
theorem elements_names (path : Path) (name : Bytes) :
    (elements path name).map nameOf = path.names := by
  induction path, name using elements.induct with
  | case1 path name h => rw [elements_none h, names_none h, List.map_nil]
  | case2 path name rest name' h ih => rw [elements_some h, names_some h, List.map_cons, ih]

end OsWork.Ports.FsPaths

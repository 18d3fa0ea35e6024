import OsWork.Ports.FsCallEffects
import Mathlib.Algebra.Order.BigOperators.Group.Finset

/-!
# Entries of directories

How the number of entries that a test holds of changes when an entry is added or
erased, in one directory and summed over the inodes.
-/

namespace OsWork.Ports.FsDirectories

open OsWork.Verified.Counting
open Function (update)

/-- An entry in use other than `.` and `..`. -/
def Dirent.isName (de : Dirent) : Bool :=
  de.inum != 0 && de.name != dot && de.name != dotdot

theorem Dirent.isName_iff {de : Dirent} :
    de.isName = true ↔ de.inum ≠ 0 ∧ de.name ≠ dot ∧ de.name ≠ dotdot := by
  simp only [Dirent.isName, Bool.and_eq_true, bne_iff_ne, ne_eq, and_assoc]

theorem Dirent.isName_mk {i : Nat} {name : Name} (hi : i ≠ 0)
    (hname : name ≠ dot ∧ name ≠ dotdot) : ({ inum := i, name := name } : Dirent).isName = true :=
  Dirent.isName_iff.mpr ⟨hi, hname⟩

theorem Dirent.inum_ne_zero {de : Dirent} {q : Bool} (h : (de.isName && q) = true) :
    de.inum ≠ 0 := by
  rw [Bool.and_eq_true] at h
  exact (Dirent.isName_iff.mp h.1).1

/-- The entries of an inode, if it is a directory, that `q` holds of. -/
def Inode.count (node : Inode) (q : Dirent → Bool) : Nat :=
  if node.type = .dir then node.entries.countP q else 0

section Entries

variable {entries : List Dirent} {de de' : Dirent} {q : Dirent → Bool} {name : Name}
  {off : Nat}

theorem countP_insertEntry (hq : ∀ de, q de = true → de.inum ≠ 0) :
    (insertEntry entries de).countP q = entries.countP q + if q de then 1 else 0 := by
  unfold insertEntry
  split
  · rename_i k hk
    obtain ⟨hlt, hzero, -⟩ := List.findIdx?_eq_some_iff_getElem.mp hk
    have hno : q entries[k] = false := by
      by_contra hyes
      exact hq _ (by simpa using hyes) (by simpa using hzero)
    rw [List.countP_set hlt, hno]
    simp
  · rw [List.countP_append, List.countP_singleton]

theorem mem_insertEntry (h : de' ∈ insertEntry entries de) : de' = de ∨ de' ∈ entries := by
  unfold insertEntry at h
  split at h
  · exact (List.mem_or_eq_of_mem_set h).symm
  · rcases List.mem_append.mp h with h | h
    · exact .inr h
    · exact .inl (List.mem_singleton.mp h)

theorem mem_set_of_mem {k : Nat} (h : de' ∈ entries) (hne : entries[k]? ≠ some de') :
    de' ∈ entries.set k de := by
  obtain ⟨j, hj, rfl⟩ := List.mem_iff_getElem.mp h
  have hjk : k ≠ j := by
    rintro rfl
    exact hne (List.getElem?_eq_getElem hj)
  rw [List.mem_iff_getElem]
  refine ⟨j, by simpa using hj, ?_⟩
  rw [List.getElem_set_ne hjk]

theorem mem_insertEntry_of_mem (h : de' ∈ entries) (hinum : de'.inum ≠ 0) :
    de' ∈ insertEntry entries de := by
  unfold insertEntry
  split
  · rename_i k hk
    obtain ⟨hlt, hzero, -⟩ := List.findIdx?_eq_some_iff_getElem.mp hk
    apply mem_set_of_mem h
    intro hget
    rw [List.getElem?_eq_getElem hlt, Option.some.injEq] at hget
    rw [hget] at hzero
    exact hinum (by simpa using hzero)
  · exact List.mem_append_left _ h

theorem Inode.find_ne_none {node : Inode} :
    node.find name ≠ none ↔ ∃ de ∈ node.entries, de.inum ≠ 0 ∧ de.name = name := by
  constructor
  · intro h
    cases hfind : node.find name with
    | none => exact absurd hfind h
    | some x =>
        exact ⟨_, Inode.mem_of_find hfind, (Inode.find_some hfind).1, rfl⟩
  · rintro ⟨de, hmem, hinum, hname⟩ hnone
    exact Inode.find_none hnone de hmem hinum hname

end Entries

/-- One inode changes. -/
theorem sum_update {w : Inode → Nat} {ninodes d : Nat} {f : Nat → Inode} {e : Inode}
    (hd : d < ninodes) :
    ∑ k ∈ Finset.range ninodes, w (update f d e k) + w (f d) =
      ∑ k ∈ Finset.range ninodes, w (f k) + w e := by
  have hsum := sum_add_of_agree (f := fun k => w (f k)) (g := fun k => w (update f d e k))
    (Finset.mem_range.mpr hd) fun k _ hne => by rw [Function.update_of_ne hne]
  simpa using hsum

/-- The entry at the offset that `find` gives is erased. -/
theorem count_eraseEntry {node node' : Inode} {name : Name} {off i : Nat} {q : Dirent → Bool}
    (hdir : node.type = .dir) (hfind : node.find name = some (off, i)) (hdir' : node'.type = .dir)
    (hentries : node'.entries = node.entries.set off { inum := 0, name := [] })
    (hq : q { inum := 0, name := [] } = false) :
    node'.count q + (if q { inum := i, name := name } then 1 else 0) = node.count q := by
  obtain ⟨-, hget⟩ := Inode.find_some hfind
  obtain ⟨hlt, hget⟩ := List.getElem?_eq_some_iff.mp hget
  unfold Inode.count
  rw [if_pos hdir, if_pos hdir', hentries, List.countP_set hlt, hget, hq]
  have hpos : q { inum := i, name := name } = true → 0 < node.entries.countP q := fun htest =>
    List.countP_pos_iff.mpr ⟨_, hget ▸ List.getElem_mem hlt, htest⟩
  split
  · rename_i htest
    have := hpos htest
    simp
    omega
  · simp

/-! ## Types and entries after a change -/

section Changes

variable {f : Nat → Inode} {dp off ip d : Nat} {type : FileType}

/-- The first contents of the inode `ip` in the directory `dp`. -/
def newInode (dp ip : Nat) (type : FileType) : Inode where
  type := type
  nlink := 1
  entries :=
    if type = .dir then [{ inum := ip, name := dot }, { inum := dp, name := dotdot }] else []

theorem count_newInode (q : Dirent → Bool) :
    (newInode dp ip type).count (fun de => de.isName && q de) = 0 := by
  unfold Inode.count
  split
  · rename_i hdir
    have hentries : (newInode dp ip type).entries =
        [{ inum := ip, name := dot }, { inum := dp, name := dotdot }] := if_pos hdir
    rw [hentries]
    simp [Dirent.isName]
  · rfl

/-- A changed inode keeps the types when it keeps its own. -/
theorem type_update {i : Nat} {node : Inode} (h : node.type = (f i).type) (k : Nat) :
    (update f i node k).type = (f k).type := by
  by_cases heq : k = i
  · rw [heq, Function.update_self, h]
  · rw [Function.update_of_ne heq]

/-- `unlink` adds no entry in use. -/
theorem mem_unlinked {f : Nat → Inode} {dp off ip d : Nat} {de : Dirent} (hne : ip ≠ dp)
    (h : de ∈ (unlinked f dp off ip d).entries) :
    de = { inum := 0, name := [] } ∨ de ∈ (f d).entries := by
  by_cases hip : d = ip
  · rw [hip] at h ⊢
    simp only [unlinked, Function.update_self] at h
    exact .inr h
  · by_cases hdp : d = dp
    · rw [hdp] at h ⊢
      simp only [unlinked, Function.update_of_ne (Ne.symm hne), Function.update_self] at h
      exact (List.mem_or_eq_of_mem_set h).symm
    · simp only [unlinked, Function.update_of_ne hip, Function.update_of_ne hdp] at h
      exact .inr h

theorem type_unlinked (f : Nat → Inode) (dp off ip k : Nat) :
    (unlinked f dp off ip k).type = (f k).type := by
  unfold unlinked
  by_cases hip : k = ip
  · rw [hip, Function.update_self]
  · rw [Function.update_of_ne hip]
    apply type_update
    rfl

end Changes

/-! ## The smallest image -/

/-- An image that holds the root directory only. -/
def rootImage : Nat → Inode := fun i =>
  if i = ROOTINO then
    { type := .dir
      nlink := 1
      entries := [{ inum := ROOTINO, name := dot }, { inum := ROOTINO, name := dotdot }] }
  else { type := .free, nlink := 0, entries := [] }

theorem rootImage_used {i : Nat} (h : (rootImage i).type ≠ .free) : i = ROOTINO := by
  by_contra hne
  unfold rootImage at h
  rw [if_neg hne] at h
  exact h rfl

end OsWork.Ports.FsDirectories

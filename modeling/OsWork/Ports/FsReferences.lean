import OsWork.Ports.FsDirectories
import OsWork.Verified.Counting
import Mathlib.Data.Fintype.Prod

/-!
# References to inodes

An inode in memory is referred to by open files, by current directories and, in
the middle of a call, by the call itself.  `Cache s T` says that `ip->ref` counts
these, where `T` are the references of the call, and that an allocated inode
without links is held by a file or a directory.  It is what makes the lookups of
a path harmless: the references that `namex` drops are never the last ones.

## Main results

* `Cache.iput` — dropping a reference of the call frees nothing.
* `wp_namex` — `namex` changes references only, and finds what `resolve` finds.
-/

namespace OsWork.Ports.FsDirectories

open OsWork.Verified.Procedure
open Function (update)

variable {P : Type}

/-! ## What a path leads to -/

/-- The result of `namexLoop` on the inodes `f`. -/
def resolve (f : Nat → Inode) (nameiparent : Bool) (ip : Nat) (name : Name) :
    List Name → Option (Nat × Name)
  | [] => if nameiparent then none else some (ip, name)
  | elem :: rest =>
      if (f ip).type ≠ .dir then none
      else if nameiparent && rest.isEmpty then some (ip, elem)
      else
        match (f ip).find elem with
        | none => none
        | some (_, next) => resolve f nameiparent next elem rest

/-- Every entry in use of a directory refers to an allocated inode. -/
def Pointed (f : Nat → Inode) : Prop :=
  ∀ d, (f d).type = .dir → ∀ de ∈ (f d).entries, de.inum ≠ 0 → (f de.inum).type ≠ .free

/-- The inode that `namex` starts from. -/
def State.startOf (s : State P) (p : P) (path : List Char) : Option Nat :=
  if path.head? = some '/' then some ROOTINO else s.cwd p

/-- The result of `namex`. -/
def State.lookup (s : State P) (nameiparent : Bool) (p : P) (path : List Char) :
    Option (Nat × Name) :=
  (s.startOf p path).bind fun ip => resolve s.inode nameiparent ip [] (elements path)

theorem Inode.find_some {ip : Inode} {name : Name} {off i : Nat}
    (h : ip.find name = some (off, i)) :
    i ≠ 0 ∧ ip.entries[off]? = some { inum := i, name := name } := by
  unfold Inode.find at h
  obtain ⟨k, hk, hde⟩ := Option.bind_eq_some_iff.mp h
  obtain ⟨de, hget, heq⟩ := Option.map_eq_some_iff.mp hde
  obtain ⟨rfl, rfl⟩ := Prod.mk.inj heq
  obtain ⟨hlt, htest, -⟩ := List.findIdx?_eq_some_iff_getElem.mp hk
  rw [List.getElem?_eq_getElem hlt, Option.some.injEq] at hget
  rw [hget] at htest
  simp only [Bool.and_eq_true, bne_iff_ne, ne_eq, beq_iff_eq] at htest
  obtain ⟨hinum, rfl⟩ := htest
  refine ⟨hinum, ?_⟩
  rw [List.getElem?_eq_getElem hlt, hget]

theorem Inode.mem_of_find {ip : Inode} {name : Name} {off i : Nat}
    (h : ip.find name = some (off, i)) : { inum := i, name := name } ∈ ip.entries :=
  List.mem_of_getElem? (Inode.find_some h).2

theorem Inode.find_none {ip : Inode} {name : Name} (h : ip.find name = none) :
    ∀ de ∈ ip.entries, de.inum ≠ 0 → de.name ≠ name := by
  intro de hde hinum hname
  unfold Inode.find at h
  cases hk : ip.entries.findIdx? fun de => de.inum != 0 && de.name == name with
  | none =>
      rw [List.findIdx?_eq_none_iff] at hk
      have htest := hk de hde
      simp [hinum, hname] at htest
  | some k =>
      obtain ⟨hlt, -⟩ := List.findIdx?_eq_some_iff_getElem.mp hk
      rw [hk] at h
      simp [List.getElem?_eq_getElem hlt] at h

/-- `resolve` looks at types and entries only. -/
theorem resolve_congr {f g : Nat → Inode} {nameiparent : Bool} {ip : Nat} {name : Name}
    {elems : List Name}
    (h : ∀ i, (g i).type = (f i).type ∧ (g i).entries = (f i).entries) :
    resolve g nameiparent ip name elems = resolve f nameiparent ip name elems := by
  have hfind : ∀ i name, (g i).find name = (f i).find name := by
    intro i name
    unfold Inode.find
    rw [(h i).2]
  induction elems generalizing ip name with
  | nil => rfl
  | cons elem rest ih =>
      simp only [resolve, (h ip).1, hfind]
      split
      · rfl
      · split
        · rfl
        · split
          · rfl
          · exact ih

/-- What `nameiparent` finds is a directory. -/
theorem resolve_parent {f : Nat → Inode} {ip dp : Nat} {name name' : Name}
    {elems : List Name} (h : resolve f true ip name elems = some (dp, name')) :
    (f dp).type = .dir := by
  induction elems generalizing ip name with
  | nil => cases h
  | cons elem rest ih =>
      simp only [resolve] at h
      split at h
      · cases h
      · rename_i hdir
        split at h
        · obtain ⟨rfl, rfl⟩ := Prod.mk.inj (Option.some.inj h)
          simpa using hdir
        · split at h
          · cases h
          · exact ih h

/-! ## Holders -/

section Holders

variable [Fintype P]

/-- The number of open files and current directories that refer to the inode. -/
def State.holders (s : State P) (i : Nat) : Nat :=
  (Finset.univ.filter fun p => s.cwd p = some i).card +
    (Finset.univ.filter fun x : P × Fin NOFILE => s.ofile x.1 x.2 = some i).card

theorem State.holders_congr {s t : State P} (hcwd : t.cwd = s.cwd) (hofile : t.ofile = s.ofile)
    (i : Nat) : t.holders i = s.holders i := by
  unfold State.holders
  rw [hcwd, hofile]

theorem State.holders_cwd {s : State P} {p : P} {i : Nat} (h : s.cwd p = some i) :
    0 < s.holders i := by
  apply Nat.add_pos_left
  exact Finset.card_pos.mpr ⟨p, Finset.mem_filter.mpr ⟨Finset.mem_univ p, h⟩⟩

theorem State.holders_ofile {s : State P} {p : P} {fd : Fin NOFILE} {i : Nat}
    (h : s.ofile p fd = some i) : 0 < s.holders i := by
  apply Nat.add_pos_right
  exact Finset.card_pos.mpr ⟨(p, fd), Finset.mem_filter.mpr ⟨Finset.mem_univ _, h⟩⟩

variable [DecidableEq P]

/-- One current directory changes. -/
theorem State.holders_setCwd (s : State P) (p : P) (c : Option Nat) (i : Nat) :
    State.holders { s with cwd := update s.cwd p c } i + (if s.cwd p = some i then 1 else 0) =
      s.holders i + (if c = some i then 1 else 0) := by
  have hcount := OsWork.Verified.Counting.card_filter_add_of_agree (s := Finset.univ)
    (p := fun q => s.cwd q = some i) (q := fun q => update s.cwd p c q = some i)
    (a := p) (Finset.mem_univ p) fun q _ hne => by rw [Function.update_of_ne hne]
  simp only [Function.update_self] at hcount
  simp only [State.holders]
  omega

/-- One descriptor changes. -/
theorem State.holders_setFd (s : State P) (p : P) (fd : Fin NOFILE) (f : Option Nat) (i : Nat) :
    (s.setFd p fd f).holders i + (if s.ofile p fd = some i then 1 else 0) =
      s.holders i + (if f = some i then 1 else 0) := by
  have hcount := OsWork.Verified.Counting.card_filter_add_of_agree (s := Finset.univ)
    (p := fun x : P × Fin NOFILE => s.ofile x.1 x.2 = some i)
    (q := fun x : P × Fin NOFILE => (s.setFd p fd f).ofile x.1 x.2 = some i)
    (a := (p, fd)) (Finset.mem_univ _) fun x _ hne => by
      simp only [State.setFd]
      by_cases hp : x.1 = p
      · have hfd : x.2 ≠ fd := fun heq => hne (Prod.ext hp heq)
        rw [hp, Function.update_self, Function.update_of_ne hfd]
      · rw [Function.update_of_ne hp]
  have hnew : (s.setFd p fd f).ofile p fd = f := by
    simp [State.setFd]
  simp only [hnew] at hcount
  simp only [State.holders]
  have hcwd : (s.setFd p fd f).cwd = s.cwd := rfl
  rw [hcwd]
  omega

end Holders

/-! ## The references of a call -/

section References

variable {s t u : State P} {T : List Nat} {i j dp : Nat} {name : Name}
  {E : Stop → Prop} {Q : Unit → State P → Prop}

/-- The call has changed references only. -/
structure Calm (s t : State P) : Prop where
  inode : t.inode = s.inode
  cwd : t.cwd = s.cwd
  ofile : t.ofile = s.ofile
  clock : t.clock = s.clock
  born : t.born = s.born

theorem Calm.refl (s : State P) : Calm s s :=
  ⟨rfl, rfl, rfl, rfl, rfl⟩

theorem Calm.trans (h : Calm s t) (h' : Calm t u) : Calm s u :=
  ⟨h'.inode.trans h.inode, h'.cwd.trans h.cwd, h'.ofile.trans h.ofile,
    h'.clock.trans h.clock, h'.born.trans h.born⟩

theorem calm_iget (s : State P) (i : Nat) : Calm s (s.iget i) :=
  ⟨rfl, rfl, rfl, rfl, rfl⟩

theorem State.idup_eq_iget (h : s.ref i ≠ 0) : s.idup i = s.iget i := by
  unfold State.idup State.iget
  rw [if_neg h]

theorem State.iget_valid (s : State P) {i k : Nat} (h : k ≠ i) :
    (s.iget i).valid k = s.valid k := by
  show (if s.ref i = 0 then update s.valid i false else s.valid) k = s.valid k
  split
  · rw [Function.update_of_ne h]
  · rfl

/-- The second half of `dirlink`. -/
def State.addEntry (s : State P) (dp : Nat) (name : Name) (inum : Nat) : State P :=
  let de : Dirent := { inum := inum, name := name }
  let d := s.inode dp
  { s with inode := update s.inode dp { d with entries := insertEntry d.entries de } }

theorem wp_getInode {R : Inode → State P → Prop} :
    wp E (getInode i : Fs P Inode) R s ↔ R (s.inode i) s :=
  Iff.rfl

theorem wp_setInode {ip : Inode} :
    wp E (setInode i ip : Fs P Unit) Q s ↔ Q () { s with inode := update s.inode i ip } :=
  Iff.rfl

variable [Fintype P]

/-- The counts of references, when the call holds those in `T`. -/
structure Counts (s : State P) (T : List Nat) : Prop where
  refs : ∀ i, s.ref i = s.holders i + T.count i
  loaded : ∀ i, 0 < s.ref i → s.valid i = true → (s.inode i).type ≠ .free
  held : ∀ i, 0 < s.holders i → (s.inode i).type ≠ .free

/-- The inode, if it is in use and has no links, is held and has been read in. -/
def State.Kept (s : State P) (i : Nat) : Prop :=
  (s.inode i).type ≠ .free → (s.inode i).nlink = 0 → 0 < s.holders i ∧ s.valid i = true

/-- The counts, and no inode without links is left over. -/
structure Cache (s : State P) (T : List Nat) : Prop extends Counts s T where
  kept : ∀ i, s.Kept i

theorem Calm.holders (h : Calm s t) (i : Nat) : t.holders i = s.holders i :=
  State.holders_congr h.cwd h.ofile i

/-- A reference of the call counts. -/
theorem Counts.ref_pos (h : Counts s T) (hi : i ∈ T) : 0 < s.ref i := by
  have hcount := List.count_pos_iff.mpr hi
  rw [h.refs]
  omega

theorem Counts.ref_of_holders (h : Counts s T) (hi : 0 < s.holders i) : 0 < s.ref i := by
  rw [h.refs]
  omega

theorem Counts.swap (h : Counts s (i :: j :: T)) : Counts s (j :: i :: T) where
  refs k := by
    rw [h.refs, List.count_cons, List.count_cons, List.count_cons, List.count_cons]
    omega
  loaded := h.loaded
  held := h.held

theorem Cache.swap (h : Cache s (i :: j :: T)) : Cache s (j :: i :: T) :=
  ⟨h.toCounts.swap, h.kept⟩

theorem Counts.iget (h : Counts s T) (i : Nat) : Counts (s.iget i) (i :: T) where
  refs k := by
    have hk := h.refs k
    show update s.ref i (s.ref i + 1) k = s.holders k + _
    by_cases heq : k = i
    · rw [heq, Function.update_self, List.count_cons_self]
      rw [heq] at hk
      omega
    · rw [Function.update_of_ne heq, List.count_cons_of_ne (Ne.symm heq), hk]
  loaded k hpos hvalid := by
    have hpos : 0 < update s.ref i (s.ref i + 1) k := hpos
    have hvalid : (if s.ref i = 0 then update s.valid i false else s.valid) k = true := hvalid
    by_cases heq : k = i
    · subst heq
      split at hvalid
      · rw [Function.update_self] at hvalid
        cases hvalid
      · exact h.loaded k (by omega) hvalid
    · rw [Function.update_of_ne heq] at hpos
      apply h.loaded k hpos
      split at hvalid
      · rwa [Function.update_of_ne heq] at hvalid
      · exact hvalid
  held := h.held

theorem Cache.iget (h : Cache s T) (i : Nat) : Cache (s.iget i) (i :: T) := by
  refine ⟨h.toCounts.iget i, ?_⟩
  intro k htype hlinks
  obtain ⟨hpos, hvalid⟩ := h.kept k htype hlinks
  refine ⟨hpos, ?_⟩
  by_cases heq : k = i
  · have href := h.ref_of_holders hpos
    show (if s.ref i = 0 then update s.valid i false else s.valid) k = true
    rw [if_neg (by rw [← heq]; omega)]
    exact hvalid
  · rw [s.iget_valid heq]
    exact hvalid

theorem Cache.lock (h : Cache s T) (l : Nat → Bool) : Cache { s with locked := l } T :=
  ⟨⟨h.refs, h.loaded, h.held⟩, h.kept⟩

/-- An assignment to an inode that does not free it. -/
theorem Counts.setInode (h : Counts s T) {ip : Inode}
    (htype : (s.inode i).type ≠ .free → ip.type ≠ .free) :
    Counts { s with inode := update s.inode i ip } T := by
  have hkeep : ∀ k, (s.inode k).type ≠ .free → (update s.inode i ip k).type ≠ .free := by
    intro k hk
    by_cases heq : k = i
    · rw [heq] at hk ⊢
      rw [Function.update_self]
      exact htype hk
    · rwa [Function.update_of_ne heq]
  exact
    { refs := h.refs
      loaded := fun k hpos hvalid => hkeep k (h.loaded k hpos hvalid)
      held := fun k hpos => hkeep k (h.held k hpos) }

theorem Cache.setInode (h : Cache s T) {ip : Inode}
    (htype : (s.inode i).type ≠ .free → ip.type ≠ .free)
    (hkept : ip.type ≠ .free → ip.nlink = 0 →
      0 < s.holders i ∧ s.valid i = true) :
    Cache { s with inode := update s.inode i ip } T := by
  refine ⟨h.toCounts.setInode htype, ?_⟩
  intro k htype' hlinks
  have htype' : (update s.inode i ip k).type ≠ .free := htype'
  have hlinks : (update s.inode i ip k).nlink = 0 := hlinks
  by_cases heq : k = i
  · rw [heq, Function.update_self] at htype' hlinks
    rw [heq]
    exact hkept htype' hlinks
  · rw [Function.update_of_ne heq] at htype' hlinks
    exact h.kept k htype' hlinks

theorem Cache.addEntry (h : Cache s T) (name : Name) (inum : Nat) :
    Cache (s.addEntry dp name inum) T :=
  h.setInode (fun htype => htype) (h.kept dp)

/-- A reference of the call is never the last one to an inode without links. -/
theorem Cache.not_lastRef (h : Cache s (i :: T)) : s.lastRef i = false := by
  by_contra hlast
  simp only [State.lastRef, Bool.not_eq_false, Bool.and_eq_true, beq_iff_eq] at hlast
  obtain ⟨⟨hvalid, hlinks⟩, href⟩ := hlast
  have htype := h.loaded i (by omega) hvalid
  have hpos := (h.kept i htype hlinks).1
  have hrefs := h.refs i
  rw [List.count_cons_self] at hrefs
  omega

/-- Dropping a reference of the call frees nothing. -/
theorem Cache.iput (h : Cache s (i :: T)) : Cache (s.iput i) T ∧ Calm s (s.iput i) ∧
    (s.iput i).valid = s.valid ∧ (s.iput i).locked = s.locked := by
  have hput : s.iput i = { s with ref := update s.ref i (s.ref i - 1) } := by
    simp [State.iput, h.not_lastRef]
  rw [hput]
  refine ⟨?_, ⟨rfl, rfl, rfl, rfl, rfl⟩, rfl, rfl⟩
  exact
    { refs := by
        intro k
        have hk := h.refs k
        show update s.ref i (s.ref i - 1) k = s.holders k + _
        by_cases heq : k = i
        · rw [heq] at hk ⊢
          rw [List.count_cons_self] at hk
          rw [Function.update_self]
          omega
        · rw [List.count_cons_of_ne (Ne.symm heq)] at hk
          rw [Function.update_of_ne heq, hk]
      loaded := by
        intro k hpos hvalid
        have hpos : 0 < update s.ref i (s.ref i - 1) k := hpos
        apply h.loaded k _ hvalid
        by_cases heq : k = i
        · rw [heq, Function.update_self] at hpos
          rw [heq]
          omega
        · rwa [Function.update_of_ne heq] at hpos
      kept := h.kept
      held := h.held }

/-! ## Handing references over -/

section Hand

variable [DecidableEq P] {p : P} {fd : Fin NOFILE}

/-- The call stores its reference in a descriptor. -/
theorem Cache.toFile (h : Cache s (i :: T)) (hfd : s.ofile p fd = none)
    (hused : (s.inode i).type ≠ .free) : Cache (s.setFd p fd (some i)) T := by
  have hholders : ∀ k, (s.setFd p fd (some i)).holders k =
      s.holders k + (if i = k then 1 else 0) := by
    intro k
    have hset := s.holders_setFd p fd (some i) k
    simpa [hfd] using hset
  refine ⟨⟨?_, h.loaded, ?_⟩, ?_⟩
  · intro k
    have hk := h.refs k
    rw [List.count_cons] at hk
    rw [hholders]
    show s.ref k = _
    simp only [beq_iff_eq] at hk
    omega
  · intro k hpos
    rw [hholders] at hpos
    show (s.inode k).type ≠ .free
    by_cases heq : i = k
    · exact heq ▸ hused
    · exact h.held k (by simpa [heq] using hpos)
  · intro k htype hlinks
    obtain ⟨hpos, hvalid⟩ := h.kept k htype hlinks
    exact ⟨by rw [hholders]; omega, hvalid⟩

/-- The call takes the reference of a descriptor over. -/
theorem Counts.ofFile (h : Counts s T) (hfd : s.ofile p fd = some i) :
    Counts (s.setFd p fd none) (i :: T) ∧
      ∀ k, (s.setFd p fd none).holders k + (if i = k then 1 else 0) = s.holders k := by
  have hholders : ∀ k, (s.setFd p fd none).holders k + (if i = k then 1 else 0) =
      s.holders k := by
    intro k
    have hset := s.holders_setFd p fd none k
    simpa [hfd] using hset
  refine ⟨⟨?_, h.loaded, ?_⟩, hholders⟩
  · intro k
    have hk := h.refs k
    have hholders := hholders k
    rw [List.count_cons]
    show s.ref k = _
    simp only [beq_iff_eq]
    omega
  · intro k hpos
    have hholders := hholders k
    exact h.held k (by omega)

/-- The call takes the reference of a current directory over, and may put one of
its own in its place. -/
theorem Counts.ofCwd {old : Nat} (h : Counts s T) (hcwd : s.cwd p = some old) :
    Counts { s with cwd := update s.cwd p none } (old :: T) ∧
      ∀ k, State.holders { s with cwd := update s.cwd p none } k +
        (if old = k then 1 else 0) = s.holders k := by
  have hholders : ∀ k, State.holders { s with cwd := update s.cwd p none } k +
      (if old = k then 1 else 0) = s.holders k := by
    intro k
    have hset := s.holders_setCwd p none k
    simpa [hcwd] using hset
  refine ⟨⟨?_, h.loaded, ?_⟩, hholders⟩
  · intro k
    have hk := h.refs k
    have hholders := hholders k
    rw [List.count_cons]
    show s.ref k = _
    simp only [beq_iff_eq]
    omega
  · intro k hpos
    have hholders := hholders k
    exact h.held k (by omega)

theorem Counts.moveCwd {old : Nat} (h : Counts s (i :: T)) (hcwd : s.cwd p = some old)
    (hused : (s.inode i).type ≠ .free) :
    Counts { s with cwd := update s.cwd p (some i) } (old :: T) ∧
      ∀ k, State.holders { s with cwd := update s.cwd p (some i) } k +
        (if old = k then 1 else 0) = s.holders k + (if i = k then 1 else 0) := by
  have hholders : ∀ k, State.holders { s with cwd := update s.cwd p (some i) } k +
      (if old = k then 1 else 0) = s.holders k + (if i = k then 1 else 0) := by
    intro k
    have hset := s.holders_setCwd p (some i) k
    simpa [hcwd] using hset
  refine ⟨⟨?_, h.loaded, ?_⟩, hholders⟩
  · intro k
    have hk := h.refs k
    have hholders := hholders k
    rw [List.count_cons] at hk ⊢
    show s.ref k = _
    simp only [beq_iff_eq] at hk ⊢
    omega
  · intro k hpos
    have hholders := hholders k
    show (s.inode k).type ≠ .free
    by_cases heq : i = k
    · exact heq ▸ hused
    · rw [if_neg heq] at hholders
      exact h.held k (by omega)

end Hand

/-! ## The last reference -/

/-- `iput`, when it may be the last reference of the call to the inode. -/
theorem Counts.iput (h : Counts s (i :: T)) (hT : i ∉ T)
    (hload : (s.inode i).nlink = 0 → s.valid i = true) (hkept : ∀ j, j ≠ i → s.Kept j) :
    Cache (s.iput i) T ∧
      (s.iput i).inode =
        if (s.inode i).nlink = 0 ∧ s.holders i = 0 then update s.inode i (s.inode i).freed
        else s.inode := by
  have hrefs : s.ref i = s.holders i + 1 := by
    rw [h.refs, List.count_cons_self, List.count_eq_zero_of_not_mem hT]
  have hother : ∀ k, k ≠ i → s.ref k = s.holders k + T.count k := by
    intro k hk
    rw [h.refs, List.count_cons_of_ne (Ne.symm hk)]
  have hlast : s.lastRef i = true ↔ (s.inode i).nlink = 0 ∧ s.holders i = 0 := by
    simp only [State.lastRef, Bool.and_eq_true, beq_iff_eq]
    constructor
    · rintro ⟨⟨-, hlinks⟩, hone⟩
      exact ⟨hlinks, by omega⟩
    · rintro ⟨hlinks, hzero⟩
      exact ⟨⟨hload hlinks, hlinks⟩, by omega⟩
  unfold State.iput
  split
  · rename_i hfree
    have hzero := (hlast.mp hfree).2
    rw [if_pos (hlast.mp hfree)]
    refine ⟨?_, rfl⟩
    exact
      { refs := by
          intro k
          show update s.ref i (s.ref i - 1) k = s.holders k + _
          by_cases heq : k = i
          · rw [heq, Function.update_self, List.count_eq_zero_of_not_mem hT]
            omega
          · rw [Function.update_of_ne heq, hother k heq]
        loaded := by
          intro k hpos hvalid
          have hpos : 0 < update s.ref i (s.ref i - 1) k := hpos
          have hvalid : update s.valid i false k = true := hvalid
          have hne : k ≠ i := by
            rintro rfl
            simp at hvalid
          rw [Function.update_of_ne hne] at hpos hvalid
          show (update s.inode i _ k).type ≠ .free
          rw [Function.update_of_ne hne]
          exact h.loaded k hpos hvalid
        held := by
          intro k hpos
          have hpos : 0 < s.holders k := hpos
          have hne : k ≠ i := by
            rintro rfl
            omega
          show (update s.inode i _ k).type ≠ .free
          rw [Function.update_of_ne hne]
          exact h.held k hpos
        kept := by
          intro k htype hlinks
          have htype : (update s.inode i (s.inode i).freed k).type ≠ .free := htype
          have hlinks : (update s.inode i (s.inode i).freed k).nlink = 0 := hlinks
          have hne : k ≠ i := by
            rintro rfl
            simp [Inode.freed] at htype
          rw [Function.update_of_ne hne] at htype hlinks
          obtain ⟨hpos, hvalid⟩ := hkept k hne htype hlinks
          refine ⟨hpos, ?_⟩
          show update s.valid i false k = true
          rwa [Function.update_of_ne hne] }
  · rename_i hfree
    rw [if_neg fun hboth => hfree (hlast.mpr hboth)]
    refine ⟨?_, rfl⟩
    exact
      { refs := by
          intro k
          show update s.ref i (s.ref i - 1) k = s.holders k + _
          by_cases heq : k = i
          · rw [heq, Function.update_self, List.count_eq_zero_of_not_mem hT]
            omega
          · rw [Function.update_of_ne heq, hother k heq]
        loaded := by
          intro k hpos hvalid
          have hpos : 0 < update s.ref i (s.ref i - 1) k := hpos
          apply h.loaded k _ hvalid
          by_cases heq : k = i
          · rw [heq, Function.update_self] at hpos
            rw [heq]
            omega
          · rwa [Function.update_of_ne heq] at hpos
        held := h.held
        kept := by
          intro k htype hlinks
          have htype : (s.inode k).type ≠ .free := htype
          have hlinks : (s.inode k).nlink = 0 := hlinks
          by_cases heq : k = i
          · rw [heq] at hlinks ⊢
            refine ⟨?_, hload hlinks⟩
            have hheld : ¬ s.holders i = 0 := fun hzero => hfree (hlast.mpr ⟨hlinks, hzero⟩)
            show 0 < s.holders i
            omega
          · exact hkept k heq htype hlinks }

/-! ## Rules for the parts of a call -/

variable (hE : ∀ e, e ≠ .ilockNoType → E e)
include hE

/-- `ilock` of an inode that the call refers to; it does not return when the
inode is free. -/
theorem Counts.wp_ilock (h : Counts s T) (hi : i ∈ T)
    (hfree : (s.inode i).type = .free → E .ilockNoType)
    (hQ : ∀ t, Calm s t → Counts t T → t.locked = update s.locked i true →
      (∀ k, s.valid k = true → t.valid k = true) → t.valid i = true →
      (s.inode i).type ≠ .free → Q () t) :
    wp E (ilock i) Q s := by
  have hpos := h.ref_pos hi
  unfold ilock
  rw [wp_bind, wp_get]
  split
  · exact hE _ (by decide)
  · split
    · exact hE _ (by decide)
    · split
      · rename_i hvalid
        exact hQ _ ⟨rfl, rfl, rfl, rfl, rfl⟩ ⟨h.refs, h.loaded, h.held⟩ rfl (fun _ hk => hk)
          hvalid (h.loaded i hpos hvalid)
      · split
        · rename_i htype
          exact hfree htype
        · rename_i htype
          refine hQ _ ⟨rfl, rfl, rfl, rfl, rfl⟩ ?_ rfl ?_ ?_ htype
          · refine ⟨h.refs, ?_, h.held⟩
            intro k hk hvalid
            by_cases heq : k = i
            · rw [heq]
              exact htype
            · exact h.loaded k hk (by rwa [← Function.update_of_ne heq true s.valid])
          · intro k hk
            by_cases heq : k = i
            · simp [heq]
            · simpa [Function.update_of_ne heq] using hk
          · simp

theorem wp_ilock (h : Cache s T) (hi : i ∈ T)
    (hfree : (s.inode i).type = .free → E .ilockNoType)
    (hQ : ∀ t, Calm s t → Cache t T → t.locked = update s.locked i true →
      (∀ k, s.valid k = true → t.valid k = true) → t.valid i = true →
      (s.inode i).type ≠ .free → Q () t) :
    wp E (ilock i) Q s := by
  apply h.toCounts.wp_ilock hE hi hfree
  intro t hcalm hcounts hlocked hmono hvalid htype
  refine hQ t hcalm ⟨hcounts, ?_⟩ hlocked hmono hvalid htype
  intro k htype' hlinks
  rw [hcalm.inode] at htype' hlinks
  obtain ⟨hpos, hload⟩ := h.kept k htype' hlinks
  exact ⟨by rw [hcalm.holders]; exact hpos, hmono k hload⟩

omit [Fintype P] in
theorem wp_ilock_locked (h : s.locked i = true) : wp E (ilock i) Q s := by
  unfold ilock
  rw [wp_bind, wp_get]
  split
  · exact hE _ (by decide)
  · exact hE _ (by decide)

theorem wp_iunlock (h : Cache s T)
    (hQ : ∀ t, Calm s t → Cache t T → t.locked = update s.locked i false →
      t.valid = s.valid → Q () t) : wp E (iunlock i) Q s := by
  unfold iunlock
  rw [wp_bind, wp_get]
  split
  · exact hE _ (by decide)
  · exact hQ _ ⟨rfl, rfl, rfl, rfl, rfl⟩ (h.lock _) rfl rfl

theorem wp_iput (h : Cache s (i :: T))
    (hQ : ∀ t, Calm s t → Cache t T → t.locked = s.locked → t.valid = s.valid → Q () t) :
    wp E (iput i) Q s := by
  unfold FsDirectories.iput
  rw [wp_bind, wp_get]
  split
  · exact hE _ (by decide)
  · obtain ⟨hcache, hcalm, hvalid, hlocked⟩ := h.iput
    exact hQ _ hcalm hcache hlocked hvalid

/-- `iput` of what may be the last reference. -/
theorem Counts.wp_iput (h : Counts s (i :: T)) (hT : i ∉ T)
    (hload : (s.inode i).nlink = 0 → s.valid i = true) (hkept : ∀ j, j ≠ i → s.Kept j)
    (hQ : ∀ t, Cache t T →
      (t.inode = if (s.inode i).nlink = 0 ∧ s.holders i = 0 then
        update s.inode i (s.inode i).freed else s.inode) →
      t.clock = s.clock → t.born = s.born → t.cwd = s.cwd → t.ofile = s.ofile →
      (∀ k, k ≠ i → t.valid k = s.valid k) → Q () t) :
    wp E (FsDirectories.iput i) Q s := by
  unfold FsDirectories.iput
  rw [wp_bind, wp_get]
  split
  · exact hE _ (by decide)
  · obtain ⟨hcache, hinode⟩ := h.iput hT hload hkept
    apply hQ (s.iput i) hcache hinode
    all_goals unfold State.iput
    · split <;> rfl
    · split <;> rfl
    · split <;> rfl
    · split <;> rfl
    · intro k hk
      split
      · exact Function.update_of_ne hk _ _
      · rfl

theorem Counts.wp_iunlockput (h : Counts s (i :: T)) (hT : i ∉ T)
    (hload : (s.inode i).nlink = 0 → s.valid i = true) (hkept : ∀ j, j ≠ i → s.Kept j)
    (hQ : ∀ t, Cache t T →
      (t.inode = if (s.inode i).nlink = 0 ∧ s.holders i = 0 then
        update s.inode i (s.inode i).freed else s.inode) →
      t.clock = s.clock → t.born = s.born → t.cwd = s.cwd → t.ofile = s.ofile →
      (∀ k, k ≠ i → t.valid k = s.valid k) → Q () t) :
    wp E (iunlockput i) Q s := by
  unfold iunlockput iunlock
  rw [wp_bind, wp_bind, wp_get]
  split
  · exact hE _ (by decide)
  · rw [wp_set]
    exact Counts.wp_iput hE ⟨h.refs, h.loaded, h.held⟩ hT hload hkept hQ

theorem wp_iunlockput (h : Cache s (i :: T))
    (hQ : ∀ t, Calm s t → Cache t T → t.locked = update s.locked i false →
      t.valid = s.valid → Q () t) : wp E (iunlockput i) Q s := by
  unfold iunlockput
  rw [wp_bind]
  apply wp_iunlock hE h
  intro t hcalm hcache hlocked hvalid
  apply wp_iput hE hcache
  intro u hcalm' hcache' hlocked' hvalid'
  exact hQ u (hcalm.trans hcalm') hcache' (hlocked'.trans hlocked) (hvalid'.trans hvalid)

theorem wp_dirlookup {R : Option (Nat × Nat) → State P → Prop} (h : Cache s T)
    (hnone : (s.inode dp).type = .dir → (s.inode dp).find name = none → R none s)
    (hsome : ∀ off i, (s.inode dp).type = .dir → (s.inode dp).find name = some (off, i) →
      Cache (s.iget i) (i :: T) → R (some (off, i)) (s.iget i)) :
    wp E (dirlookup dp name) R s := by
  unfold dirlookup
  rw [wp_bind, wp_getInode]
  split
  · rename_i hdir
    split
    · rename_i hfind
      exact hnone hdir hfind
    · rename_i off i hfind
      exact hsome off i hdir hfind (h.iget i)
  · exact hE _ (by decide)

/-- `dirlink` adds an entry or finds the name taken. -/
theorem wp_dirlink {R : Bool → State P → Prop} {inum : Nat} (h : Cache s T)
    (hnew : (s.inode dp).type = .dir → (s.inode dp).find name = none →
      R true (s.addEntry dp name inum))
    (htaken : ∀ t, (s.inode dp).find name ≠ none → Calm s t → Cache t T → R false t) :
    wp E (dirlink dp name inum) R s := by
  unfold dirlink
  rw [wp_bind]
  apply wp_dirlookup hE h
  · intro hdir hfind
    exact hnew hdir hfind
  · intro off i hdir hfind hcache
    show wp E (iput i >>= fun _ => pure false) R (s.iget i)
    rw [wp_bind]
    apply wp_iput hE hcache
    intro t hcalm hcache' _ _
    exact htaken t (by simp [hfind]) ((calm_iget s i).trans hcalm) hcache'

theorem wp_dirlinkOrPanic {e : Stop} {inum : Nat} (h : Cache s T) (he : e ≠ .ilockNoType)
    (hnew : (s.inode dp).type = .dir → (s.inode dp).find name = none →
      Q () (s.addEntry dp name inum)) :
    wp E (dirlinkOrPanic e dp name inum) Q s := by
  unfold dirlinkOrPanic
  rw [wp_bind]
  apply wp_dirlink hE h
  · exact hnew
  · intro t _ _ _
    exact hE e he

/-- The loop of `namex` does what `resolve` does. -/
theorem wp_namexLoop {R : Option (Nat × Name) → State P → Prop} {nameiparent : Bool}
    {ip : Nat} {elems : List Name} (h : Cache s (ip :: T))
    (hip : E .ilockNoType ∨ (s.inode ip).type ≠ .free)
    (hsafe : E .ilockNoType ∨ Pointed s.inode)
    (hnone : ∀ t, Calm s t → Cache t T →
      resolve s.inode nameiparent ip name elems = none → R none t)
    (hsome : ∀ i n t, Calm s t → Cache t (i :: T) →
      resolve s.inode nameiparent ip name elems = some (i, n) →
        (E .ilockNoType ∨ (s.inode i).type ≠ .free) → R (some (i, n)) t) :
    wp E (namexLoop nameiparent ip name elems) R s := by
  induction elems generalizing s ip name with
  | nil =>
      unfold namexLoop
      split
      · rename_i hparent
        rw [wp_bind]
        apply wp_iput hE h
        intro t hcalm hcache _ _
        exact hnone t hcalm hcache (by simp [resolve, hparent])
      · rename_i hparent
        exact hsome ip name s (Calm.refl s) h (by simp [resolve, hparent]) hip
  | cons elem rest ih =>
      have hstop : ∀ t, Calm s t → Cache t (ip :: T) →
          resolve s.inode nameiparent ip name (elem :: rest) = none →
            wp E (iunlockput ip >>= fun _ => pure none) R t := by
        intro t hcalm hcache hres
        rw [wp_bind]
        apply wp_iunlockput hE hcache
        intro u hcalm' hcache' _ _
        exact hnone u (hcalm.trans hcalm') hcache' hres
      unfold namexLoop
      rw [wp_bind]
      apply wp_ilock hE h List.mem_cons_self
      · intro hfree
        rcases hip with hE' | hip
        · exact hE'
        · exact absurd hfree hip
      · intro t hcalm hcache _ _ _ htype
        rw [wp_bind, wp_getInode, hcalm.inode]
        split
        · rename_i hdir
          exact hstop t hcalm hcache (by simp [resolve, hdir])
        · rename_i hdir
          rw [ne_eq, not_not] at hdir
          split
          · rename_i hlast
            rw [wp_bind]
            apply wp_iunlock hE hcache
            intro u hcalm' hcache' _ _
            apply hsome ip elem u (hcalm.trans hcalm') hcache' _ (.inr htype)
            simp [resolve, hdir, hlast]
          · rename_i hlast
            rw [wp_bind]
            apply wp_dirlookup hE hcache
            · intro _ hfind
              rw [hcalm.inode] at hfind
              exact hstop t hcalm hcache (by simp [resolve, hdir, hlast, hfind])
            · intro off next _ hfind hcache'
              rw [hcalm.inode] at hfind
              show wp E (iunlockput ip >>= fun _ => _) R (t.iget next)
              rw [wp_bind]
              apply wp_iunlockput hE hcache'.swap
              intro u hcalm' hcache'' _ _
              have hcalm'' := (hcalm.trans (calm_iget t next)).trans hcalm'
              have hres : resolve s.inode nameiparent ip name (elem :: rest) =
                  resolve s.inode nameiparent next elem rest := by
                simp [resolve, hdir, hlast, hfind]
              have hnext : E .ilockNoType ∨ (s.inode next).type ≠ .free := by
                rcases hsafe with hE' | hsafe
                · exact .inl hE'
                · right
                  exact hsafe ip hdir _ (Inode.mem_of_find hfind) (Inode.find_some hfind).1
              rw [hres] at hnone hsome
              rw [← hcalm''.inode] at hnone hsome hnext hsafe
              apply ih hcache'' hnext hsafe
              · exact fun v hv => hnone v (hcalm''.trans hv)
              · exact fun i n v hv => hsome i n v (hcalm''.trans hv)

/-- `namex` changes references only, and finds what `lookup` finds. -/
theorem wp_namex {R : Option (Nat × Name) → State P → Prop} {nameiparent : Bool} {p : P}
    {path : List Char} (h : Cache s T) (hroot : (s.inode ROOTINO).type ≠ .free)
    (hsafe : E .ilockNoType ∨ Pointed s.inode)
    (hnone : ∀ t, Calm s t → Cache t T → s.lookup nameiparent p path = none → R none t)
    (hsome : ∀ i n t, Calm s t → Cache t (i :: T) →
      s.lookup nameiparent p path = some (i, n) →
        (E .ilockNoType ∨ (s.inode i).type ≠ .free) → R (some (i, n)) t) :
    wp E (namex nameiparent p path) R s := by
  have hstart : ∀ ip, s.startOf p path = some ip → (s.inode ip).type ≠ .free →
      wp E (namexLoop nameiparent ip [] (elements path)) R (s.iget ip) := by
    intro ip hip htype
    have hlookup : s.lookup nameiparent p path =
        resolve s.inode nameiparent ip [] (elements path) := by
      simp [State.lookup, hip]
    rw [hlookup] at hnone hsome
    apply wp_namexLoop hE (h.iget ip) (.inr htype) hsafe
    · exact fun t ht => hnone t ((calm_iget s ip).trans ht)
    · exact fun i n t ht => hsome i n t ((calm_iget s ip).trans ht)
  unfold namex
  rw [wp_bind, wp_get]
  split
  · rename_i hhead
    exact hstart ROOTINO (by simp [State.startOf, hhead]) hroot
  · rename_i hhead
    split
    · rename_i hcwd
      apply hnone s (Calm.refl s) h
      simp [State.lookup, State.startOf, hhead, hcwd]
    · rename_i ip hcwd
      have hholders := State.holders_cwd hcwd
      have href := h.ref_of_holders hholders
      show wp E (namexLoop nameiparent ip [] (elements path)) R (s.idup ip)
      rw [State.idup_eq_iget (by omega)]
      exact hstart ip (by simp [State.startOf, hhead, hcwd]) (h.held ip hholders)

end References

end OsWork.Ports.FsDirectories

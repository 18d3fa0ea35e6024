import OsWork.Ports.FsEntries

/-!
# Entries of removed directories

`..` of a directory is counted in `nlink` of the parent until the directory is
removed.  A directory that is removed but still in use keeps the entry, though,
and the parent can be removed and freed meanwhile.  What must not happen is that
a call drops the last reference to a directory that `..` of another one still
refers to.

## Main results

* `careful_noDangling` — in every run without such a call, every entry of every
  directory refers to an allocated inode, and `ilock` does not panic.
* `not_all_noDangling` — the run `mkdir a`, `mkdir a/b`, `chdir a/b`,
  `unlink ../b`, `unlink ../../a`.
-/

namespace OsWork.Ports.FsDirectories

open OsWork.Verified.Transition OsWork.Verified.Counting
open Function (update)

/-! ## Needed links -/

/-- The names of the inode `i` in all directories. -/
def names (ninodes : Nat) (f : Nat → Inode) (i : Nat) : Nat :=
  ∑ d ∈ Finset.range ninodes, (f d).count fun de => de.isName && de.inum == i

/-- The names of directories in the directory `d`. -/
def subdirs (f : Nat → Inode) (d : Nat) : Nat :=
  (f d).count fun de => de.isName && (f de.inum).type == .dir

/-- The links that a link count must not be below. -/
def needed (ninodes : Nat) (f : Nat → Inode) (i : Nat) : Nat :=
  names ninodes f i + subdirs f i + if i = ROOTINO then 1 else 0

/-! ## The invariant -/

/-- The directories of the inodes `f`, which were given out at the times `born`. -/
structure Sound (ninodes : Nat) (f : Nat → Inode) (born : Nat → Nat) (clock : Nat) :
    Prop where
  root : (f ROOTINO).type = .dir
  bounded : ∀ i, (f i).type ≠ .free → 1 ≤ i ∧ i < ninodes
  pointed : Pointed f
  dots : ∀ d, (f d).type = .dir → (f d).find dot ≠ none ∧ (f d).find dotdot ≠ none
  links : ∀ i, (f i).type ≠ .free → (needed ninodes f i : Int) ≤ (f i).nlink
  older : ∀ d, (f d).type = .dir → ∀ de ∈ (f d).entries, de.inum ≠ 0 → de.name = dotdot →
    born de.inum ≤ born d
  past : ∀ i, born i < clock

section Changes

variable {ninodes : Nat} {f : Nat → Inode} {born : Nat → Nat} {clock : Nat} {dp ip : Nat}
  {name : Name} {type : FileType}

/-- No name refers to a free inode. -/
theorem Sound.names_free (h : Sound ninodes f born clock) (hi : (f ip).type = .free) :
    names ninodes f ip = 0 := by
  apply Finset.sum_eq_zero
  intro d _
  unfold Inode.count
  split
  · rename_i hdir
    rw [List.countP_eq_zero]
    intro de hde htest
    have hinum := Dirent.inum_ne_zero htest
    rw [Bool.and_eq_true, beq_iff_eq] at htest
    exact h.pointed d hdir de hde hinum (htest.2 ▸ hi)
  · rfl

/-- A name that is not taken is none of the two that every directory has. -/
theorem Sound.not_dots (h : Sound ninodes f born clock) (hdir : (f dp).type = .dir)
    (habsent : (f dp).find name = none) : name ≠ dot ∧ name ≠ dotdot := by
  constructor
  · rintro rfl
    exact (h.dots dp hdir).1 habsent
  · rintro rfl
    exact (h.dots dp hdir).2 habsent

/-- An added name counts for the inode that it refers to. -/
theorem names_addEntry {d : Inode} {i : Nat} (hdp : dp < ninodes) (hdir : (f dp).type = .dir)
    (hname : name ≠ dot ∧ name ≠ dotdot) (hip : ip ≠ 0)
    (hd : d.type = .dir)
    (hentries : d.entries = insertEntry (f dp).entries { inum := ip, name := name }) :
    names ninodes (update f dp d) i = names ninodes f i + if ip = i then 1 else 0 := by
  have hsum := sum_update (w := fun node => node.count fun de => de.isName && de.inum == i)
    (f := f) (e := d) hdp
  have hnew : d.count (fun de => de.isName && de.inum == i) =
      (f dp).count (fun de => de.isName && de.inum == i) + if ip = i then 1 else 0 := by
    unfold Inode.count
    rw [if_pos hdir, if_pos hd, hentries, countP_insertEntry fun de => Dirent.inum_ne_zero]
    simp [Dirent.isName_mk hip hname]
  simp only [names] at hsum ⊢
  omega

/-- A name is added to the directory `dp`, for which link counts have room. -/
theorem Sound.addName (h : Sound ninodes f born clock) (name : Name) (ip : Nat) {d : Inode}
    (hdir : (f dp).type = .dir)
    (habsent : (f dp).find name = none) (hused : (f ip).type ≠ .free) (hne : ip ≠ dp)
    (hroom : (needed ninodes f ip : Int) + 1 ≤ (f ip).nlink) (hd : d.type = .dir)
    (hentries : d.entries = insertEntry (f dp).entries { inum := ip, name := name })
    (hlinks : (f dp).nlink + (if (f ip).type = .dir then 1 else 0) ≤ d.nlink) :
    Sound ninodes (update f dp d) born clock := by
  obtain ⟨hipos, -⟩ := h.bounded ip hused
  have hdp := (h.bounded dp (by rw [hdir]; decide)).2
  have hname := h.not_dots hdir habsent
  have htype : ∀ k, (update f dp d k).type = (f k).type := type_update (hd.trans hdir.symm)
  have hmem : ∀ k, ∀ de ∈ (update f dp d k).entries,
      de ∈ (f k).entries ∨ k = dp ∧ de = { inum := ip, name := name } := by
    intro k de hde
    by_cases heq : k = dp
    · rw [heq, Function.update_self, hentries] at hde
      rw [heq]
      exact (mem_insertEntry hde).elim (fun hnew => .inr ⟨rfl, hnew⟩) .inl
    · rw [Function.update_of_ne heq] at hde
      exact .inl hde
  have hsub : ∀ k, subdirs (update f dp d) k =
      subdirs f k + if k = dp ∧ (f ip).type = .dir then 1 else 0 := by
    intro k
    simp only [subdirs, htype]
    by_cases heq : k = dp
    · rw [heq, Function.update_self]
      unfold Inode.count
      rw [if_pos hd, if_pos hdir, hentries, countP_insertEntry fun de => Dirent.inum_ne_zero]
      simp [Dirent.isName_mk (Nat.pos_iff_ne_zero.mp hipos) hname]
    · rw [Function.update_of_ne heq, if_neg fun hboth => heq hboth.1]
      rfl
  exact
    { root := by rw [htype]; exact h.root
      bounded := fun k hk => h.bounded k (by rwa [htype] at hk)
      pointed := by
        intro k hk de hde hinum
        rw [htype] at hk ⊢
        rcases hmem k de hde with hde | ⟨-, rfl⟩
        · exact h.pointed k hk de hde hinum
        · exact hused
      dots := by
        intro k hk
        rw [htype] at hk
        have hkeep : ∀ n, (f k).find n ≠ none → (update f dp d k).find n ≠ none := by
          intro n hn
          obtain ⟨de, hde, hinum, hn⟩ := Inode.find_ne_none.mp hn
          refine Inode.find_ne_none.mpr ⟨de, ?_, hinum, hn⟩
          by_cases heq : k = dp
          · rw [heq, Function.update_self, hentries]
            exact mem_insertEntry_of_mem (heq ▸ hde) hinum
          · rw [Function.update_of_ne heq]
            exact hde
        exact ⟨hkeep _ (h.dots k hk).1, hkeep _ (h.dots k hk).2⟩
      links := by
        intro k hk
        rw [htype] at hk
        have hk' := h.links k hk
        have hnames := names_addEntry (i := k) hdp hdir hname (Nat.pos_iff_ne_zero.mp hipos) hd
          hentries
        have hsub := hsub k
        simp only [needed] at hk' hroom ⊢
        by_cases heq : k = dp
        · subst heq
          rw [Function.update_self]
          rw [if_neg hne] at hnames
          by_cases hisdir : (f ip).type = .dir
          · rw [if_pos ⟨rfl, hisdir⟩] at hsub
            rw [if_pos hisdir] at hlinks
            omega
          · rw [if_neg fun hboth => hisdir hboth.2] at hsub
            rw [if_neg hisdir] at hlinks
            omega
        · rw [Function.update_of_ne heq]
          rw [if_neg fun hboth => heq hboth.1] at hsub
          by_cases hkip : ip = k
          · subst hkip
            rw [if_pos rfl] at hnames
            omega
          · rw [if_neg hkip] at hnames
            omega
      older := by
        intro k hk de hde hinum hde'
        rw [htype] at hk
        rcases hmem k de hde with hde | ⟨-, rfl⟩
        · exact h.older k hk de hde hinum hde'
        · exact absurd hde' hname.2
      past := h.past }

/-- The type and the entries stay when the link count changes. -/
theorem setLinks_same {n : Int} (k : Nat) :
    (update f ip { f ip with nlink := n } k).type = (f k).type ∧
      (update f ip { f ip with nlink := n } k).entries = (f k).entries := by
  by_cases heq : k = ip
  · rw [heq]
    simp only [Function.update_self, and_self]
  · simp only [Function.update_of_ne heq, and_self]

theorem needed_setLinks {n : Int} (k : Nat) :
    needed ninodes (update f ip { f ip with nlink := n }) k = needed ninodes f k := by
  simp only [needed, names, subdirs, Inode.count, (setLinks_same _).1, (setLinks_same _).2]

/-- An inode gets another link count, which is not below what is needed. -/
theorem Sound.setLinks (h : Sound ninodes f born clock) (ip : Nat) {n : Int}
    (hn : (needed ninodes f ip : Int) ≤ n) :
    Sound ninodes (update f ip { f ip with nlink := n }) born clock := by
  let g := update f ip { f ip with nlink := n }
  have hkeep : ∀ k, (g k).type = (f k).type ∧ (g k).entries = (f k).entries := setLinks_same
  have hfind : ∀ k n, (g k).find n = (f k).find n := by
    intro k n
    unfold Inode.find
    rw [(hkeep k).2]
  exact
    { root := (hkeep ROOTINO).1.trans h.root
      bounded := fun k hk => h.bounded k (by rwa [(hkeep k).1] at hk)
      pointed := by
        intro k hk de hde hinum
        rw [(hkeep k).1] at hk
        rw [(hkeep k).2] at hde
        rw [(hkeep _).1]
        exact h.pointed k hk de hde hinum
      dots := by
        intro k hk
        rw [(hkeep k).1] at hk
        rw [hfind, hfind]
        exact h.dots k hk
      links := by
        intro k hk
        rw [(hkeep k).1] at hk
        rw [needed_setLinks]
        by_cases heq : k = ip
        · rw [heq, Function.update_self]
          exact hn
        · rw [Function.update_of_ne heq]
          exact h.links k hk
      older := by
        intro k hk de hde
        rw [(hkeep k).1] at hk
        rw [(hkeep k).2] at hde
        exact h.older k hk de hde
      past := h.past }

/-- An erased name no longer counts. -/
theorem names_eraseEntry {d : Inode} {i off : Nat} (hdp : dp < ninodes)
    (hdir : (f dp).type = .dir) (hname : name ≠ dot ∧ name ≠ dotdot)
    (hfind : (f dp).find name = some (off, ip)) (hd : d.type = .dir)
    (hentries : d.entries = (f dp).entries.set off { inum := 0, name := [] }) :
    names ninodes (update f dp d) i + (if ip = i then 1 else 0) = names ninodes f i := by
  have hsum := sum_update (w := fun node => node.count fun de => de.isName && de.inum == i)
    (f := f) (e := d) hdp
  have hold := count_eraseEntry (q := fun de => de.isName && de.inum == i) hdir hfind hd hentries
    (by simp [Dirent.isName])
  simp only [Dirent.isName_mk (Inode.find_some hfind).1 hname, Bool.true_and,
    beq_iff_eq] at hold
  simp only [names] at hsum ⊢
  omega

/-- A name is erased from the directory `dp`. -/
theorem Sound.eraseName (h : Sound ninodes f born clock) {d : Inode} {off : Nat}
    (hdir : (f dp).type = .dir) (hname : name ≠ dot ∧ name ≠ dotdot)
    (hfind : (f dp).find name = some (off, ip)) (hd : d.type = .dir)
    (hentries : d.entries = (f dp).entries.set off { inum := 0, name := [] })
    (hlinks : (f dp).nlink - (if (f ip).type = .dir then 1 else 0) ≤ d.nlink) :
    Sound ninodes (update f dp d) born clock ∧
      needed ninodes (update f dp d) ip + 1 ≤ needed ninodes f ip := by
  have hdp := (h.bounded dp (by rw [hdir]; decide)).2
  have hinum := (Inode.find_some hfind).1
  have htype : ∀ k, (update f dp d k).type = (f k).type := type_update (hd.trans hdir.symm)
  have hmem : ∀ k, ∀ de ∈ (update f dp d k).entries, de.inum ≠ 0 → de ∈ (f k).entries := by
    intro k de hde hne
    by_cases heq : k = dp
    · rw [heq, Function.update_self, hentries] at hde
      rw [heq]
      rcases List.mem_or_eq_of_mem_set hde with hde | rfl
      · exact hde
      · exact absurd rfl hne
    · rw [Function.update_of_ne heq] at hde
      exact hde
  have hsub : ∀ k, subdirs (update f dp d) k +
      (if k = dp ∧ (f ip).type = .dir then 1 else 0) = subdirs f k := by
    intro k
    simp only [subdirs, htype]
    by_cases heq : k = dp
    · rw [heq, Function.update_self]
      have hold := count_eraseEntry (q := fun de => de.isName && (f de.inum).type == .dir) hdir
        hfind hd hentries (by simp [Dirent.isName])
      simp only [Dirent.isName_mk hinum hname, Bool.true_and, beq_iff_eq] at hold
      simpa using hold
    · rw [Function.update_of_ne heq, if_neg fun hboth => heq hboth.1]
      rfl
  have hneeded : ∀ k, needed ninodes (update f dp d) k + (if ip = k then 1 else 0) +
      (if k = dp ∧ (f ip).type = .dir then 1 else 0) = needed ninodes f k := by
    intro k
    have hnames := names_eraseEntry (i := k) hdp hdir hname hfind hd hentries
    have hsub := hsub k
    simp only [needed]
    omega
  constructor
  · exact
      { root := by rw [htype]; exact h.root
        bounded := fun k hk => h.bounded k (by rwa [htype] at hk)
        pointed := by
          intro k hk de hde hne
          rw [htype] at hk ⊢
          exact h.pointed k hk de (hmem k de hde hne) hne
        dots := by
          intro k hk
          rw [htype] at hk
          have hkeep : ∀ n, n ≠ name → (f k).find n ≠ none →
              (update f dp d k).find n ≠ none := by
            intro n hn hsome
            obtain ⟨de, hde, hne, rfl⟩ := Inode.find_ne_none.mp hsome
            refine Inode.find_ne_none.mpr ⟨de, ?_, hne, rfl⟩
            by_cases heq : k = dp
            · rw [heq, Function.update_self, hentries]
              apply mem_set_of_mem (heq ▸ hde)
              rw [(Inode.find_some hfind).2, ne_eq, Option.some.injEq]
              rintro rfl
              exact hn rfl
            · rw [Function.update_of_ne heq]
              exact hde
          exact ⟨hkeep _ hname.1.symm (h.dots k hk).1, hkeep _ hname.2.symm (h.dots k hk).2⟩
        links := by
          intro k hk
          rw [htype] at hk
          have hk' := h.links k hk
          have hneeded := hneeded k
          by_cases heq : k = dp
          · subst heq
            rw [Function.update_self]
            by_cases hisdir : (f ip).type = .dir
            · simp only [hisdir, and_self, if_true] at hneeded hlinks
              omega
            · simp only [hisdir, and_false, if_false] at hneeded hlinks
              omega
          · rw [Function.update_of_ne heq]
            omega
        older := by
          intro k hk de hde hne hde'
          rw [htype] at hk
          exact h.older k hk de (hmem k de hde hne) hne hde'
        past := h.past }
  · have hip := hneeded ip
    rw [if_pos rfl] at hip
    omega

/-- An inode is given out. -/
theorem Sound.give (h : Sound ninodes f born clock) (hfree : (f ip).type = .free)
    (hin : 1 ≤ ip ∧ ip < ninodes) (hdir : (f dp).type = .dir) (htype : type ≠ .free) :
    Sound ninodes (update f ip (newInode dp ip type)) (update born ip clock) (clock + 1) ∧
      needed ninodes (update f ip (newInode dp ip type)) ip = 0 := by
  let g := update f ip (newInode dp ip type)
  have hself : g ip = newInode dp ip type := Function.update_self _ _ _
  have hother : ∀ k, k ≠ ip → g k = f k := fun k hk => Function.update_of_ne hk _ _
  have hne : dp ≠ ip := by
    rintro rfl
    exact absurd (hfree.symm.trans hdir) (by decide)
  have hroot : ROOTINO ≠ ip := by
    rintro rfl
    exact absurd (hfree.symm.trans h.root) (by decide)
  have hused : ∀ k, (f k).type = .dir → ∀ de ∈ (f k).entries, de.inum ≠ 0 → de.inum ≠ ip := by
    intro k hk de hde hinum heq
    exact h.pointed k hk de hde hinum (heq ▸ hfree)
  have hentries : type = .dir → (g ip).entries =
      [{ inum := ip, name := dot }, { inum := dp, name := dotdot }] := by
    intro hdir'
    rw [hself]
    exact if_pos hdir'
  have hnames : ∀ k, names ninodes g k = names ninodes f k := by
    intro k
    have hsum := sum_update (w := fun node => node.count fun de => de.isName && de.inum == k)
      (f := f) (e := newInode dp ip type) hin.2
    have hold : (f ip).count (fun de => de.isName && de.inum == k) = 0 := by
      unfold Inode.count
      rw [if_neg (by rw [hfree]; decide)]
    rw [hold, count_newInode] at hsum
    exact hsum
  have hsub : ∀ k, k ≠ ip → subdirs g k = subdirs f k := by
    intro k hk
    unfold subdirs Inode.count
    rw [hother k hk]
    split
    · rename_i hdir'
      apply List.countP_congr
      intro de hde
      by_cases hname : de.isName = true
      · rw [hother _ (hused k hdir' de hde (Dirent.isName_iff.mp hname).1)]
      · simp [hname]
    · rfl
  have hneeded : needed ninodes g ip = 0 := by
    have hsub' : subdirs g ip = 0 := by
      unfold subdirs
      rw [hself]
      exact count_newInode _
    unfold needed
    rw [hnames, h.names_free hfree, hsub', if_neg (Ne.symm hroot)]
  constructor
  · exact
      { root := by
          show (g ROOTINO).type = .dir
          rw [hother _ hroot]
          exact h.root
        bounded := by
          intro k hk
          by_cases heq : k = ip
          · rw [heq]
            exact hin
          · rw [Function.update_of_ne heq] at hk
            exact h.bounded k hk
        pointed := by
          show Pointed g
          intro k hk de hde hinum
          by_cases heq : k = ip
          · subst heq
            rw [hself] at hk
            rw [hentries hk] at hde
            rcases List.mem_pair.mp hde with rfl | rfl
            · rw [hself]
              exact htype
            · rw [hother dp hne, hdir]
              decide
          · rw [hother k heq] at hk hde
            rw [hother _ (hused k hk de hde hinum)]
            exact h.pointed k hk de hde hinum
        dots := by
          intro k hk
          by_cases heq : k = ip
          · subst heq
            rw [Function.update_self] at hk
            have hpos : k ≠ 0 := by omega
            have hpos' : dp ≠ 0 := by
              have := (h.bounded dp (by rw [hdir]; decide)).1
              omega
            constructor
            · exact Inode.find_ne_none.mpr
                ⟨_, by rw [hentries hk]; exact List.mem_cons_self, hpos, rfl⟩
            · exact Inode.find_ne_none.mpr
                ⟨_, by rw [hentries hk]; exact List.mem_cons_of_mem _ List.mem_cons_self,
                  hpos', rfl⟩
          · rw [Function.update_of_ne heq] at hk ⊢
            exact h.dots k hk
        links := by
          intro k hk
          by_cases heq : k = ip
          · rw [heq, hneeded, Function.update_self]
            exact Int.one_nonneg
          · rw [Function.update_of_ne heq] at hk ⊢
            have hsame : needed ninodes g k = needed ninodes f k := by
              unfold needed
              rw [hnames, hsub k heq]
            rw [hsame]
            exact h.links k hk
        older := by
          intro k hk de hde hinum hname
          by_cases heq : k = ip
          · subst heq
            rw [Function.update_self] at hk
            rw [hentries hk] at hde
            rcases List.mem_pair.mp hde with rfl | rfl
            · have hne' : dot ≠ dotdot := by decide
              exact absurd hname hne'
            · rw [Function.update_of_ne hne, Function.update_self]
              exact (h.past dp).le
          · rw [Function.update_of_ne heq] at hk hde ⊢
            rw [Function.update_of_ne (hused k hk de hde hinum)]
            exact h.older k hk de hde hinum hname
        past := by
          intro k
          by_cases heq : k = ip
          · rw [heq, Function.update_self]
            omega
          · rw [Function.update_of_ne heq]
            exact (h.past k).trans (Nat.lt_succ_self clock) }
  · exact hneeded

theorem Sound.created (h : Sound ninodes f born clock) (hfree : (f ip).type = .free)
    (hin : 1 ≤ ip ∧ ip < ninodes) (hdir : (f dp).type = .dir) (htype : type ≠ .free)
    (habsent : (f dp).find name = none) :
    Sound ninodes (created f dp name ip type) (update born ip clock) (clock + 1) := by
  obtain ⟨hgive, hneeded⟩ := h.give hfree hin hdir htype
  have hne : dp ≠ ip := by
    rintro rfl
    exact absurd (hfree.symm.trans hdir) (by decide)
  have hdp : update f ip (newInode dp ip type) dp = f dp := Function.update_of_ne hne _ _
  have hip : update f ip (newInode dp ip type) ip = newInode dp ip type :=
    Function.update_self _ _ _
  apply hgive.addName name ip
  · rw [hdp]
    exact hdir
  · rw [hdp]
    exact habsent
  · rw [hip]
    exact htype
  · exact Ne.symm hne
  · rw [hneeded, hip]
    exact Int.le_refl 1
  · exact hdir
  · rw [hdp]
  · rw [hdp, hip]
    show (f dp).nlink + (if type = .dir then 1 else 0) ≤
      if type = .dir then (f dp).nlink + 1 else (f dp).nlink
    split <;> omega

theorem Sound.linked (h : Sound ninodes f born clock) (hused : (f ip).type ≠ .free)
    (hfile : (f ip).type ≠ .dir) (hdir : (f dp).type = .dir)
    (habsent : (f dp).find name = none) : Sound ninodes (linked f dp name ip) born clock := by
  have hne : dp ≠ ip := by
    rintro rfl
    exact hfile hdir
  have hlinks := h.links ip hused
  have hset : Sound ninodes (update f ip { f ip with nlink := (f ip).nlink + 1 }) born clock :=
    h.setLinks ip (by omega)
  have hdp : update f ip { f ip with nlink := (f ip).nlink + 1 } dp = f dp :=
    Function.update_of_ne hne _ _
  have hip : update f ip { f ip with nlink := (f ip).nlink + 1 } ip =
      { f ip with nlink := (f ip).nlink + 1 } := Function.update_self _ _ _
  apply hset.addName name ip
  · rw [hdp]
    exact hdir
  · rw [hdp]
    exact habsent
  · rw [hip]
    exact hused
  · exact Ne.symm hne
  · rw [needed_setLinks, hip]
    show (needed ninodes f ip : Int) + 1 ≤ (f ip).nlink + 1
    omega
  · exact hdir
  · rw [hdp]
  · rw [hdp, hip]
    show (f dp).nlink + (if (f ip).type = .dir then 1 else 0) ≤ (f dp).nlink
    rw [if_neg hfile]
    omega

theorem Sound.unlinked (h : Sound ninodes f born clock) {off : Nat}
    (hdir : (f dp).type = .dir) (hname : name ≠ dot ∧ name ≠ dotdot)
    (hfind : (f dp).find name = some (off, ip)) (hne : ip ≠ dp) :
    Sound ninodes (unlinked f dp off ip) born clock := by
  let d : Inode :=
    { f dp with
      entries := (f dp).entries.set off { inum := 0, name := [] }
      nlink := if (f ip).type = .dir then (f dp).nlink - 1 else (f dp).nlink }
  have hused : (f ip).type ≠ .free :=
    h.pointed dp hdir _ (Inode.mem_of_find hfind) (Inode.find_some hfind).1
  have hlinks := h.links ip hused
  obtain ⟨herase, hneeded⟩ := h.eraseName (d := d) hdir hname hfind hdir rfl (by
    show (f dp).nlink - (if (f ip).type = .dir then 1 else 0) ≤
      if (f ip).type = .dir then (f dp).nlink - 1 else (f dp).nlink
    split <;> omega)
  have hip : update f dp d ip = f ip := Function.update_of_ne hne _ _
  have hset := herase.setLinks ip (n := (f ip).nlink - 1) (by omega)
  rw [hip] at hset
  exact hset

/-- Inodes are freed, which have no links and which no `.` or `..` of the other
directories refers to. -/
theorem Sound.freeAll (h : Sound ninodes f born clock) {F : Nat → Prop} [DecidablePred F]
    (hlinks : ∀ i, F i → (f i).type ≠ .free → (f i).nlink = 0)
    (hdots : ∀ i, F i → ∀ d, ¬ F d → (f d).type = .dir → ∀ de ∈ (f d).entries,
      de.name = dot ∨ de.name = dotdot → de.inum ≠ i) :
    Sound ninodes (freeAll f F) born clock := by
  let g := FsDirectories.freeAll f F
  have hkeep : ∀ k, (g k).type ≠ .free → ¬ F k ∧ g k = f k := by
    intro k hk
    by_cases hF : F k
    · exact absurd (congrArg Inode.type (freeAll_pos hF)) hk
    · exact ⟨hF, freeAll_neg hF⟩
  have hneeded : ∀ i, F i → (f i).type ≠ .free → needed ninodes f i = 0 := by
    intro i hF hi
    have hle := h.links i hi
    rw [hlinks i hF hi] at hle
    omega
  have hcount : ∀ k q, (g k).count q ≤ (f k).count q := by
    intro k q
    by_cases hF : F k
    · rw [show g k = (f k).freed from freeAll_pos hF]
      exact Nat.zero_le _
    · rw [show g k = f k from freeAll_neg hF]
  have hle : ∀ k, needed ninodes g k ≤ needed ninodes f k := by
    intro k
    have hnames : names ninodes g k ≤ names ninodes f k :=
      Finset.sum_le_sum fun d _ => hcount d _
    have hsub : subdirs g k ≤ subdirs f k := by
      apply (hcount k _).trans
      unfold subdirs Inode.count
      split
      · apply List.countP_mono_left
        intro de _ htest
        rw [Bool.and_eq_true, beq_iff_eq] at htest ⊢
        have hused : (g de.inum).type ≠ .free := by
          rw [htest.2]
          decide
        rw [← (hkeep _ hused).2]
        exact htest
      · exact Nat.le_refl 0
    unfold needed
    omega
  have hroot : ¬ F ROOTINO := by
    intro hF
    have hzero := hneeded ROOTINO hF (by rw [h.root]; decide)
    unfold needed at hzero
    rw [if_pos rfl] at hzero
    omega
  show Sound ninodes g born clock
  exact
    { root := by
        rw [show g ROOTINO = f ROOTINO from freeAll_neg hroot]
        exact h.root
      bounded := by
        intro k hk
        rw [(hkeep k hk).2] at hk
        exact h.bounded k hk
      pointed := by
        intro d hd de hde hinum
        obtain ⟨hF, hsame⟩ := hkeep d (by rw [hd]; decide)
        rw [hsame] at hd hde
        have hused := h.pointed d hd de hde hinum
        by_cases hfreed : F de.inum
        · -- no name refers to it, as it has no links
          have hzero := hneeded de.inum hfreed hused
          have hno : de.isName = false := by
            by_contra hname
            have hin := (h.bounded d (by rw [hd]; decide)).2
            have hle := Finset.single_le_sum (f := fun k =>
                (f k).count fun de' => de'.isName && de'.inum == de.inum)
              (fun _ _ => Nat.zero_le _) (Finset.mem_range.mpr hin)
            have hpos : 0 < (f d).count fun de' => de'.isName && de'.inum == de.inum := by
              unfold Inode.count
              rw [if_pos hd, List.countP_pos_iff]
              exact ⟨de, hde, by simpa using hname⟩
            unfold needed names at hzero
            omega
          rw [Bool.eq_false_iff, ne_eq, Dirent.isName_iff] at hno
          have hdot : de.name = dot ∨ de.name = dotdot := by
            by_contra hboth
            rw [not_or] at hboth
            exact hno ⟨hinum, hboth⟩
          exact absurd rfl (hdots de.inum hfreed d hF hd de hde hdot)
        · rw [show g de.inum = f de.inum from freeAll_neg hfreed]
          exact hused
      dots := by
        intro d hd
        obtain ⟨-, hsame⟩ := hkeep d (by rw [hd]; decide)
        rw [hsame] at hd ⊢
        exact h.dots d hd
      links := by
        intro k hk
        have hle := hle k
        obtain ⟨-, hsame⟩ := hkeep k hk
        rw [hsame] at hk ⊢
        have hlinks := h.links k hk
        omega
      older := by
        intro d hd
        obtain ⟨-, hsame⟩ := hkeep d (by rw [hd]; decide)
        rw [hsame] at hd ⊢
        exact h.older d hd
      past := h.past }

end Changes

/-! ## Careful runs -/

section Runs

variable {P : Type} [Fintype P] {ninodes : Nat} {image : Nat → Inode} {s t : State P}
  {c : Call P}

/-- The call drops the last reference to an inode and leaves it without links. -/
inductive State.LastDrop (s : State P) : Call P → Nat → Prop
  | held {c : Call P} {i : Nat} (hi : s.drops c = some i) (hlinks : (s.inode i).nlink = 0)
      (hlast : s.holders i = 1) : State.LastDrop s c i
  | removed {p : P} {path : List Char} {dp off ip : Nat} (hfound : Unlinks s p path dp off ip)
      (hlink : (s.inode ip).nlink = 1) (hlast : s.holders ip = 0) :
      State.LastDrop s (.unlink p path) ip
  | parent {p : P} {path : List Char} {dp off ip : Nat} (hfound : Unlinks s p path dp off ip)
      (hdir : (s.inode ip).type = .dir) (hlink : (s.inode dp).nlink = 1)
      (hlast : s.holders dp = 0) : State.LastDrop s (.unlink p path) dp

/-- No call drops the last reference to an inode that `.` or `..` of another
directory, which stays, refers to. -/
def CarefulDrop (s : State P) (c : Call P) : Prop :=
  ∀ i d, s.LastDrop c i → ¬ s.LastDrop c d → (s.inode d).type = .dir →
    ∀ de ∈ (s.inode d).entries, de.name = dot ∨ de.name = dotdot → de.inum ≠ i

/-- The inodes that `unlink` works on. -/
def State.unlinks (s : State P) (p : P) (path : List Char) : Option (Nat × Nat × Nat) :=
  (s.lookup true p path).bind fun x =>
    ((s.inode x.1).find x.2).bind fun y =>
      if x.2 ≠ dot ∧ x.2 ≠ dotdot ∧ y.2 ≠ x.1 ∧ 1 ≤ (s.inode y.2).nlink ∧
          ((s.inode y.2).type = .dir → (s.inode y.2).isdirempty = true) then
        some (x.1, y.1, y.2)
      else none

/-- The inodes that the call drops the last reference to. -/
def State.lastDrops (s : State P) : Call P → List Nat
  | .unlink p path =>
      match s.unlinks p path with
      | some (dp, _, ip) =>
          (if (s.inode ip).nlink = 1 ∧ s.holders ip = 0 then [ip] else []) ++
            if (s.inode ip).type = .dir ∧ (s.inode dp).nlink = 1 ∧ s.holders dp = 0 then [dp]
            else []
      | none => []
  | c => (s.drops c).toList.filter fun i => (s.inode i).nlink = 0 ∧ s.holders i = 1

/-- `CarefulDrop` for the directories below `ninodes`. -/
def CarefulBelow (ninodes : Nat) (s : State P) (c : Call P) : Prop :=
  ∀ i ∈ s.lastDrops c, ∀ d, d < ninodes → d ∉ s.lastDrops c → (s.inode d).type = .dir →
    ∀ de ∈ (s.inode d).entries, de.name = dot ∨ de.name = dotdot → de.inum ≠ i

instance (s : State P) (c : Call P) : Decidable (CarefulBelow ninodes s c) :=
  inferInstanceAs (Decidable (∀ i ∈ s.lastDrops c, ∀ d, d < ninodes → _))

/-- An image with the link counts that its directories ask for. -/
structure SoundImage (ninodes : Nat) (image : Nat → Inode) : Prop where
  root : (image ROOTINO).type = .dir
  bounded : ∀ i, (image i).type ≠ .free → 1 ≤ i ∧ i < ninodes
  pointed : Pointed image
  dots : ∀ d, (image d).type = .dir → (image d).find dot ≠ none ∧ (image d).find dotdot ≠ none
  links : ∀ i, (image i).type ≠ .free → (needed ninodes image i : Int) ≤ (image i).nlink
  linked : ∀ i, (image i).type ≠ .free → 1 ≤ (image i).nlink

/-- No dangling entries, no `panic("ilock: no type")` in the next call, and no `..`
that refers to an inode given out after the directory. -/
structure NoDangling [DecidableEq P] (ninodes : Nat) (s : State P) : Prop where
  pointed : Pointed s.inode
  related : ∀ d, (s.inode d).type = .dir → ∀ de ∈ (s.inode d).entries, de.inum ≠ 0 →
    de.name = dotdot → s.born de.inum ≤ s.born d
  noPanic : ∀ c : Call P, c.enabled s = true → c.code ninodes s ≠ .error .ilockNoType

omit [Fintype P] in
theorem Unlinks.unique {p : P} {path : List Char} {dp off ip dp' off' ip' : Nat}
    (h : Unlinks s p path dp off ip) (h' : Unlinks s p path dp' off' ip') :
    dp = dp' ∧ off = off' ∧ ip = ip' := by
  obtain ⟨name, hlookup, -, -, hfind⟩ := h.found
  obtain ⟨name', hlookup', -, -, hfind'⟩ := h'.found
  rw [hlookup, Option.some.injEq, Prod.mk.injEq] at hlookup'
  obtain ⟨rfl, rfl⟩ := hlookup'
  rw [hfind, Option.some.injEq, Prod.mk.injEq] at hfind'
  exact ⟨rfl, hfind'⟩

omit [Fintype P] in
theorem unlinks_iff {p : P} {path : List Char} {dp off ip : Nat} :
    s.unlinks p path = some (dp, off, ip) ↔ Unlinks s p path dp off ip := by
  constructor
  · intro h
    obtain ⟨⟨dp', name⟩, hlookup, h⟩ := Option.bind_eq_some_iff.mp h
    obtain ⟨⟨off', ip'⟩, hfind, h⟩ := Option.bind_eq_some_iff.mp h
    split at h
    · rename_i hall
      cases h
      obtain ⟨hdot, hdotdot, hother, hlinked, hempty⟩ := hall
      exact ⟨⟨name, hlookup, hdot, hdotdot, hfind⟩, hother, hlinked, hempty⟩
    · cases h
  · rintro ⟨⟨name, hlookup, hdot, hdotdot, hfind⟩, hother, hlinked, hempty⟩
    unfold State.unlinks
    rw [hlookup, Option.bind_some, hfind, Option.bind_some,
      if_pos ⟨hdot, hdotdot, hother, hlinked, hempty⟩]

theorem lastDrop_iff {i : Nat} : s.LastDrop c i ↔ i ∈ s.lastDrops c := by
  constructor
  · intro hdrop
    cases hdrop with
    | held hi hlinks hlast =>
        have hmem : i ∈ (s.drops c).toList.filter fun i =>
            (s.inode i).nlink = 0 ∧ s.holders i = 1 := by
          simp [hi, hlinks, hlast]
        cases c <;> first | exact hmem | cases hi
    | removed hfound hlink hlast =>
        simp [State.lastDrops, unlinks_iff.mpr hfound, hlink, hlast]
    | parent hfound hdir hlink hlast =>
        simp [State.lastDrops, unlinks_iff.mpr hfound, hdir, hlink, hlast]
  · intro hmem
    by_cases hunlink : ∃ p path, c = .unlink p path
    · obtain ⟨p, path, rfl⟩ := hunlink
      simp only [State.lastDrops] at hmem
      split at hmem
      · rename_i dp off ip hfound
        rw [List.mem_append] at hmem
        rcases hmem with hmem | hmem
        · split at hmem
          · rename_i hlast
            obtain rfl := List.mem_singleton.mp hmem
            exact .removed (unlinks_iff.mp hfound) hlast.1 hlast.2
          · cases hmem
        · split at hmem
          · rename_i hlast
            obtain rfl := List.mem_singleton.mp hmem
            exact .parent (unlinks_iff.mp hfound) hlast.1 hlast.2.1 hlast.2.2
          · cases hmem
      · cases hmem
    · have hmem' : i ∈ (s.drops c).toList.filter fun i =>
          (s.inode i).nlink = 0 ∧ s.holders i = 1 := by
        cases c <;> first | exact hmem | exact absurd ⟨_, _, rfl⟩ hunlink
      simp only [List.mem_filter, Option.mem_toList, decide_eq_true_eq] at hmem'
      exact .held hmem'.1 hmem'.2.1 hmem'.2.2

/-- What `unlink` frees. -/
theorem lastDrop_unlink {p : P} {path : List Char} {dp off ip i : Nat} (h : Cache s [])
    (hfound : Unlinks s p path dp off ip) :
    s.LastDrop (.unlink p path) i ↔
      (i = dp ∨ i = ip) ∧ (unlinked s.inode dp off ip i).nlink = 0 ∧ s.holders i = 0 := by
  have hdp : (unlinked s.inode dp off ip dp).nlink =
      if (s.inode ip).type = .dir then (s.inode dp).nlink - 1 else (s.inode dp).nlink := by
    simp only [unlinked, Function.update_of_ne (Ne.symm hfound.other), Function.update_self]
  have hip : (unlinked s.inode dp off ip ip).nlink = (s.inode ip).nlink - 1 := by
    simp only [unlinked, Function.update_self]
  constructor
  · intro hdrop
    cases hdrop with
    | held hi => cases hi
    | removed hfound' hlink hlast =>
        obtain ⟨-, -, rfl⟩ := hfound.unique hfound'
        refine ⟨.inr rfl, ?_, hlast⟩
        rw [hip, hlink]
        rfl
    | parent hfound' hdir hlink hlast =>
        obtain ⟨rfl, -, rfl⟩ := hfound.unique hfound'
        refine ⟨.inl rfl, ?_, hlast⟩
        rw [hdp, if_pos hdir, hlink]
        rfl
  · rintro ⟨rfl | rfl, hlinks, hlast⟩
    · rw [hdp] at hlinks
      split at hlinks
      · rename_i hdir
        exact .parent hfound hdir (by omega) hlast
      · -- a directory without links would be held
        obtain ⟨name, hlookup, -, -, -⟩ := hfound.found
        have hused : (s.inode i).type ≠ .free := by
          obtain ⟨start, -, hresolve⟩ := Option.bind_eq_some_iff.mp hlookup
          rw [resolve_parent hresolve]
          decide
        have hpos := (h.kept i hused hlinks).1
        omega
    · rw [hip] at hlinks
      exact .removed hfound (by omega) hlast

/-- The invariant of the runs. -/
def SoundState (ninodes : Nat) (s : State P) : Prop :=
  Cache s [] ∧ Sound ninodes s.inode s.born s.clock

theorem SoundState.ready (h : SoundState ninodes s) (E : Stop → Prop) : Ready E s where
  cache := h.1
  root := by
    rw [h.2.root]
    decide
  links := by
    intro i hi
    have hle := h.2.links i hi
    omega
  safe := .inr h.2.pointed

theorem SoundImage.boot (h : SoundImage ninodes image) :
    SoundState ninodes (boot image : State P) where
  left := by
    apply boot_cache
    · rw [h.root]
      decide
    · intro i hused hlinks
      have hlinked := h.linked i hused
      omega
  right :=
    { root := h.root
      bounded := h.bounded
      pointed := h.pointed
      dots := h.dots
      links := h.links
      older := fun _ _ _ _ _ _ => Nat.le_refl 0
      past := fun _ => Nat.zero_lt_one }

variable [DecidableEq P]

/-- One call keeps the invariant, if it is careful. -/
theorem SoundState.step (h : SoundState ninodes s) (hok : CarefulDrop s c)
    (hs : (fileSystem ninodes image).step s c = some t) : SoundState ninodes t := by
  obtain ⟨hcache, heffect⟩ := step_done (h.ready _) hs
  refine ⟨hcache, ?_⟩
  have hsound := h.2
  cases heffect with
  | same hsame =>
      rw [hsame.inode, hsame.clock, hsame.born]
      exact hsound
  | create hc hlookup hmade =>
      rw [hmade.inode, hmade.clock, hmade.born]
      exact hsound.created hmade.fresh hmade.inside hmade.dir (creates_ne_free hc) hmade.absent
  | link hold hfile hused hnew hdir habsent hinode hclock hborn =>
      rw [hinode, hclock, hborn]
      exact hsound.linked hused hfile hdir habsent
  | @unlink u p path dp off ip hfound hinode hclock hborn =>
      rw [hinode, hclock, hborn]
      obtain ⟨name, hlookup, hdot, hdotdot, hfind⟩ := hfound.found
      obtain ⟨start, -, hresolve⟩ := Option.bind_eq_some_iff.mp hlookup
      have hunlinked := hsound.unlinked (resolve_parent hresolve) ⟨hdot, hdotdot⟩ hfind
        hfound.other
      apply hunlinked.freeAll
      · exact fun i hF _ => hF.2.1
      · intro i hF d hd hdir de hde hdots
        rw [type_unlinked] at hdir
        have hdrop := (lastDrop_unlink h.1 hfound).mpr hF
        have hstays := mt (lastDrop_unlink h.1 hfound).mp hd
        rcases mem_unlinked hfound.other hde with rfl | hde
        · rcases hdots with hdots | hdots
          · cases hdots
          · cases hdots
        · exact hok i d hdrop hstays hdir de hde hdots
  | @free c _ i hi hlast hinode hclock hborn =>
      rw [hinode, update_freed, hclock, hborn]
      have hone : ∀ d, s.LastDrop c d → d = i := by
        intro d hdrop
        cases hdrop with
        | held hi' =>
            rw [hi, Option.some.injEq] at hi'
            exact hi'.symm
        | removed => cases hi
        | parent => cases hi
      apply hsound.freeAll
      · rintro k rfl -
        exact hlast.1
      · rintro k rfl d hd hdir de hde hdots
        exact hok k d (.held hi hlast.1 hlast.2) (mt (hone d) hd) hdir de hde hdots

theorem soundState (himage : SoundImage ninodes image)
    (h : (fileSystem ninodes image).ReachableWhen CarefulDrop s) : SoundState ninodes s := by
  apply System.ReachableWhen.invariant _ _ h
  · rintro _ rfl
    exact himage.boot
  · intro u c v hu hok hs
    exact hu.step hok hs

/-- The directories in use are below `ninodes`. -/
theorem careful_of_below (himage : SoundImage ninodes image)
    (h : (fileSystem ninodes image).ReachableWhen (CarefulBelow ninodes) s) :
    (fileSystem ninodes image).ReachableWhen CarefulDrop s := by
  induction h with
  | init hinit => exact .init hinit
  | @step u c v _ hok hs ih =>
      refine .step ih ?_ hs
      intro i d hdrop hstays hdir
      have hbound := (soundState himage ih).2.bounded d (by rw [hdir]; decide)
      exact hok i (lastDrop_iff.mp hdrop) d hbound.2 (mt lastDrop_iff.mpr hstays) hdir

/-- In every run without a careless drop, no directory entry dangles. -/
theorem careful_noDangling (himage : SoundImage ninodes image)
    (h : (fileSystem ninodes image).ReachableWhen CarefulDrop s) : NoDangling ninodes s := by
  have hsound := soundState himage h
  exact
    { pointed := hsound.2.pointed
      related := hsound.2.older
      noPanic := fun c henabled => not_ilockNoType (hsound.ready _) henabled }

end Runs

/-! ## A careless run -/

theorem soundImage_rootImage : SoundImage 5 rootImage := by
  have hroot : ∀ i, (rootImage i).type ≠ .free → i = ROOTINO := fun i => rootImage_used
  exact
    { root := rfl
      bounded := by
        intro i hi
        rw [hroot i hi]
        decide
      pointed := by
        intro d hd
        obtain rfl := hroot d (by rw [hd]; decide)
        decide
      dots := by
        intro d hd
        obtain rfl := hroot d (by rw [hd]; decide)
        decide
      links := by
        intro i hi
        rw [hroot i hi]
        decide
      linked := by
        intro i hi
        rw [hroot i hi]
        decide }

/-- The directory `b` is removed while it is the current directory of process 0; the
`chdir` that drops the last reference to it comes before its parent is removed. -/
def carefulRun {P : Type} (p q : P) : List (Call P) :=
  [.mkdir p ['a'], .mkdir p ['a', '/', 'b'], .chdir p ['a', '/', 'b'],
    .unlink q ['a', '/', 'b'], .chdir p ['/'], .unlink q ['a']]

theorem careful_noDangling_carefulRun : ∃ s : State (Fin 2),
    (s.inode 2).type = .free ∧ (s.inode 3).type = .free ∧ 2 < s.clock ∧ NoDangling 5 s := by
  obtain ⟨s, hs, htest⟩ := System.exists_reachableWhen_of_run (M := fileSystem 5 rootImage)
    (CarefulBelow 5) (l := carefulRun (0 : Fin 2) 1)
    (p := fun s => (s.inode 2).type == .free && (s.inode 3).type == .free && decide (2 < s.clock))
    rfl (by decide +kernel)
  simp only [Bool.and_eq_true, beq_iff_eq, decide_eq_true_eq] at htest
  exact ⟨s, htest.1.1, htest.1.2, htest.2,
    careful_noDangling soundImage_rootImage (careful_of_below soundImage_rootImage hs)⟩

/-- The directory `b` is removed while it is the current directory, then its
parent, whose inode is freed; `..` of the former still refers to it, and `chdir`
panics. -/
def carelessRun : List (Call (Fin 1)) :=
  [.mkdir 0 ['a'], .mkdir 0 ['a', '/', 'b'], .chdir 0 ['a', '/', 'b'],
    .unlink 0 ['.', '.', '/', 'b'], .unlink 0 ['.', '.', '/', '.', '.', '/', 'a']]

theorem not_all_noDangling :
    ¬ ∀ (ninodes : Nat) (image : Nat → Inode), SoundImage ninodes image →
      ∀ s : State (Fin 1), (fileSystem ninodes image).Reachable s → NoDangling ninodes s := by
  intro hall
  obtain ⟨s, hs, htest⟩ := System.exists_reachable_of_run (M := fileSystem 5 rootImage)
    (l := carelessRun) (p := fun s => (s.inode 3).type == .dir &&
      (s.inode 3).find dotdot == some (1, 2) && (s.inode 2).type == .free) rfl
    (by decide +kernel)
  simp only [Bool.and_eq_true, beq_iff_eq] at htest
  obtain ⟨⟨hdir, hfind⟩, hfree⟩ := htest
  have hpointed := (hall 5 rootImage soundImage_rootImage s hs).pointed
  exact hpointed 3 hdir _ (Inode.mem_of_find hfind) (by decide) hfree

end OsWork.Ports.FsDirectories

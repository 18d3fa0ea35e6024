import OsWork.Ports.FsEntries

/-!
# Link counts of `ass5/final_repo`

`nlink` counts the entries that refer to an inode, `.` apart, in the directories
that are themselves linked.  The calls keep the count exact as long as they add
no entry to a directory that has been removed: such an entry is counted, and is
lost when the directory is freed.

## Main results

* `liveEntries_linkCounts` — in every run that adds no entry to a removed
  directory, the link counts are exact and nothing is orphaned.
* `not_all_linkCounts` — a file created in a removed directory stays allocated.
-/

namespace OsWork.Ports.FsDirectories

open OsWork.Verified.Transition OsWork.Verified.Counting
open Function (update)

/-! ## Linked directories -/

/-- A directory that has links. -/
def Inode.Live (node : Inode) : Prop :=
  node.type = .dir ∧ 0 < node.nlink

instance (node : Inode) : Decidable node.Live :=
  inferInstanceAs (Decidable (_ ∧ _))

/-- The entries named other than `.` that refer to the inode `i`. -/
def Inode.linksTo (node : Inode) (i : Nat) : Nat :=
  if node.Live then
    node.entries.countP fun de => de.inum != 0 && de.name != dot && de.inum == i
  else 0

/-- The links to the inode `i`. -/
def links (ninodes : Nat) (f : Nat → Inode) (i : Nat) : Nat :=
  ∑ d ∈ Finset.range ninodes, (f d).linksTo i

/-- The inode that the second entry refers to. -/
def Inode.parent (node : Inode) : Nat :=
  match node.entries with
  | _ :: de :: _ => de.inum
  | _ => 0

/-- The entries after the first two that refer to the inode `i`. -/
def Inode.listed (node : Inode) (i : Nat) : Nat :=
  if node.Live then
    (node.entries.drop 2).countP fun de => de.inum != 0 && de.inum == i
  else 0

/-- `.` and `..` come first, and only once. -/
structure Inode.Tidy (d : Nat) (node : Inode) : Prop where
  self : d ≠ 0
  parent : node.parent ≠ 0
  entries : node.entries = { inum := d, name := dot } ::
    { inum := node.parent, name := dotdot } :: node.entries.drop 2
  names : ∀ de ∈ node.entries.drop 2, de.inum ≠ 0 → de.isName = true

/-- Link counts are exact, and the linked directories are a tree. -/
structure Consistent (ninodes : Nat) (f : Nat → Inode) : Prop where
  root : (f ROOTINO).Live ∧ (f ROOTINO).parent = ROOTINO
  bounded : ∀ i, (f i).type ≠ .free → 1 ≤ i ∧ i < ninodes
  tidy : ∀ d, (f d).type = .dir → (f d).Tidy d
  parents : ∀ d, (f d).Live → (f (f d).parent).Live
  once : ∀ d, (f d).Live → ∀ k,
    (f k).listed d = if d ≠ ROOTINO ∧ k = (f d).parent then 1 else 0
  exact : ∀ i, (f i).type ≠ .free → (f i).nlink = links ninodes f i
  unused : ∀ i, (f i).type = .free → links ninodes f i = 0
  removed : ∀ d, (f d).type = .dir → (f d).nlink = 0 →
    ∀ de ∈ (f d).entries.drop 2, de.inum = 0

section Nodes

variable {node m : Inode} {d i ip off : Nat} {name : Name}

theorem Inode.linksTo_eq (h : node.Live) (htidy : node.Tidy d) :
    node.linksTo i = node.listed i + if node.parent = i then 1 else 0 := by
  have hrest : (node.entries.drop 2).countP
        (fun de => de.inum != 0 && de.name != dot && de.inum == i) =
      (node.entries.drop 2).countP fun de => de.inum != 0 && de.inum == i := by
    apply List.countP_congr
    intro de hde
    by_cases hinum : de.inum = 0
    · simp [hinum]
    · have hname := (Dirent.isName_iff.mp (htidy.names de hde hinum)).2.1
      simp [hname]
  unfold Inode.linksTo Inode.listed
  rw [if_pos h, if_pos h, htidy.entries, List.countP_cons, List.countP_cons, hrest]
  have hdots : dotdot ≠ dot := by decide
  simp [htidy.parent, hdots]

theorem Inode.linksTo_not_live (h : ¬ node.Live) : node.linksTo i = 0 :=
  if_neg h

theorem Inode.listed_not_live (h : ¬ node.Live) : node.listed i = 0 :=
  if_neg h

/-- The first entry not in use comes after the first two. -/
theorem insertEntry_cons {a b de : Dirent} {rest : List Dirent} (ha : a.inum ≠ 0)
    (hb : b.inum ≠ 0) :
    insertEntry (a :: b :: rest) de = a :: b :: insertEntry rest de := by
  unfold insertEntry
  cases hfind : rest.findIdx? fun d => d.inum == 0 with
  | none | some k => simp [List.findIdx?_cons, ha, hb, hfind]

/-- A name is added. -/
theorem Inode.Tidy.insert (h : node.Tidy d) (hip : ip ≠ 0) (hname : name ≠ dot ∧ name ≠ dotdot)
    (hentries : m.entries = insertEntry node.entries { inum := ip, name := name }) :
    m.Tidy d ∧ m.parent = node.parent ∧
      m.entries.drop 2 = insertEntry (node.entries.drop 2) { inum := ip, name := name } := by
  have hall : m.entries = { inum := d, name := dot } ::
      { inum := node.parent, name := dotdot } ::
        insertEntry (node.entries.drop 2) { inum := ip, name := name } := by
    rw [hentries, ← insertEntry_cons h.self h.parent, ← h.entries]
  have hparent : m.parent = node.parent := by
    unfold Inode.parent
    rw [hall]
    rfl
  have hdrop : m.entries.drop 2 =
      insertEntry (node.entries.drop 2) { inum := ip, name := name } := by
    rw [hall]
    rfl
  refine ⟨⟨h.self, hparent ▸ h.parent, ?_, ?_⟩, hparent, hdrop⟩
  · rw [hdrop, hparent]
    exact hall
  · intro de hde hinum
    rw [hdrop] at hde
    rcases mem_insertEntry hde with rfl | hde
    · exact Dirent.isName_mk hip hname
    · exact h.names de hde hinum

theorem Inode.Tidy.listed_insert (h : node.Tidy d) (hlive : node.Live) (hlive' : m.Live)
    (hip : ip ≠ 0) (hname : name ≠ dot ∧ name ≠ dotdot)
    (hentries : m.entries = insertEntry node.entries { inum := ip, name := name }) :
    m.listed i = node.listed i + if ip = i then 1 else 0 := by
  obtain ⟨-, -, hdrop⟩ := h.insert hip hname hentries
  unfold Inode.listed
  rw [if_pos hlive, if_pos hlive', hdrop, countP_insertEntry]
  · simp [hip]
  · intro de hde
    simp only [Bool.and_eq_true, bne_iff_ne] at hde
    exact hde.1

/-- A name is erased. -/
theorem Inode.Tidy.erase (h : node.Tidy d) (hname : name ≠ dot ∧ name ≠ dotdot)
    (hfind : node.find name = some (off, ip))
    (hentries : m.entries = node.entries.set off { inum := 0, name := [] }) :
    ∃ k, (node.entries.drop 2)[k]? = some { inum := ip, name := name } ∧ m.Tidy d ∧
      m.parent = node.parent ∧
      m.entries.drop 2 = (node.entries.drop 2).set k { inum := 0, name := [] } := by
  obtain ⟨hip, hget⟩ := Inode.find_some hfind
  rw [h.entries] at hget
  match off, hget, hentries with
  | 0, hget, _ =>
      cases hget
      exact absurd rfl hname.1
  | 1, hget, _ =>
      cases hget
      exact absurd rfl hname.2
  | k + 2, hget, hentries =>
      have hall : m.entries = { inum := d, name := dot } ::
          { inum := node.parent, name := dotdot } ::
            (node.entries.drop 2).set k { inum := 0, name := [] } := by
        rw [hentries, h.entries]
        rfl
      have hparent : m.parent = node.parent := by
        unfold Inode.parent
        rw [hall]
        rfl
      have hdrop : m.entries.drop 2 =
          (node.entries.drop 2).set k { inum := 0, name := [] } := by
        rw [hall]
        rfl
      refine ⟨k, hget, ⟨h.self, hparent ▸ h.parent, ?_, ?_⟩, hparent, hdrop⟩
      · rw [hdrop, hparent]
        exact hall
      · intro de hde hinum
        rw [hdrop] at hde
        rcases List.mem_or_eq_of_mem_set hde with hde | rfl
        · exact h.names de hde hinum
        · exact absurd rfl hinum

theorem Inode.Tidy.listed_erase (h : node.Tidy d) (hlive : node.Live) (hlive' : m.Live)
    (hname : name ≠ dot ∧ name ≠ dotdot) (hfind : node.find name = some (off, ip))
    (hentries : m.entries = node.entries.set off { inum := 0, name := [] }) :
    m.listed i + (if ip = i then 1 else 0) = node.listed i := by
  obtain ⟨hip, -⟩ := Inode.find_some hfind
  obtain ⟨k, hget, -, -, hdrop⟩ := h.erase hname hfind hentries
  obtain ⟨hlt, hget⟩ := List.getElem?_eq_some_iff.mp hget
  unfold Inode.listed
  rw [if_pos hlive, if_pos hlive', hdrop, List.countP_set hlt, hget]
  by_cases heq : ip = i
  · subst heq
    have hpos : 0 < (node.entries.drop 2).countP fun de => de.inum != 0 && de.inum == ip :=
      List.countP_pos_iff.mpr ⟨_, hget ▸ List.getElem_mem hlt, by simpa using hip⟩
    simp [hip]
    omega
  · simp [heq]

theorem Inode.Tidy.listed_pos (h : node.Tidy d) (hlive : node.Live)
    (hname : name ≠ dot ∧ name ≠ dotdot) (hfind : node.find name = some (off, ip)) :
    0 < node.listed ip := by
  obtain ⟨hip, -⟩ := Inode.find_some hfind
  obtain ⟨k, hget, -⟩ := h.erase
    (m := { node with entries := node.entries.set off { inum := 0, name := [] } }) hname
    hfind rfl
  unfold Inode.listed
  rw [if_pos hlive, List.countP_pos_iff]
  exact ⟨_, List.mem_of_getElem? hget, by simpa using hip⟩

theorem Inode.listed_empty (h : ∀ de ∈ node.entries.drop 2, de.inum = 0) :
    node.listed i = 0 := by
  unfold Inode.listed
  split
  · rw [List.countP_eq_zero]
    intro de hde
    simp [h de hde]
  · rfl

/-- A name that is not taken in a directory is none of the two that come first. -/
theorem Inode.Tidy.not_dots (h : node.Tidy d) (habsent : node.find name = none) :
    name ≠ dot ∧ name ≠ dotdot := by
  have hfirst : { inum := d, name := dot } ∈ node.entries := by
    rw [h.entries]
    exact List.mem_cons_self
  have hsecond : { inum := node.parent, name := dotdot } ∈ node.entries := by
    rw [h.entries]
    exact List.mem_cons_of_mem _ List.mem_cons_self
  constructor
  · rintro rfl
    exact Inode.find_none habsent _ hfirst h.self rfl
  · rintro rfl
    exact Inode.find_none habsent _ hsecond h.parent rfl

end Nodes

/-! ## The changes -/

section Changes

variable {ninodes : Nat} {f : Nat → Inode} {dp ip off i : Nat} {name : Name} {type : FileType}

/-- An inode with no names: a file, or a new directory in `dp`. -/
structure Inode.Leaf (dp ip : Nat) (node : Inode) : Prop where
  used : node.type ≠ .free
  tidy : node.type = .dir → node.Tidy ip
  parent : node.type = .dir → node.parent = dp
  bare : node.type = .dir → node.entries.drop 2 = []

theorem newInode_leaf (hdp : dp ≠ 0) (hip : ip ≠ 0) (htype : type ≠ .free) :
    (newInode dp ip type).Leaf dp ip := by
  have hentries : type = .dir → (newInode dp ip type).entries =
      [{ inum := ip, name := dot }, { inum := dp, name := dotdot }] := fun hdir => if_pos hdir
  have hparent : type = .dir → (newInode dp ip type).parent = dp := by
    intro hdir
    unfold Inode.parent
    rw [hentries hdir]
  refine ⟨htype, ?_, hparent, ?_⟩
  · intro hdir
    refine ⟨hip, by rwa [hparent hdir], ?_, ?_⟩
    · rw [hparent hdir, hentries hdir]
      rfl
    · rw [hentries hdir]
      intro de hde
      cases hde
  · intro hdir
    rw [hentries hdir]
    rfl

theorem Inode.Leaf.listed {node : Inode} (h : node.Leaf dp ip) : node.listed i = 0 := by
  unfold Inode.listed
  split
  · rename_i hlive
    rw [h.bare hlive.1]
    rfl
  · rfl

theorem Inode.Leaf.linksTo {node : Inode} (h : node.Leaf dp ip) (hpos : 0 < node.nlink) :
    node.linksTo i = if node.type = .dir ∧ dp = i then 1 else 0 := by
  by_cases hdir : node.type = .dir
  · rw [Inode.linksTo_eq ⟨hdir, hpos⟩ (h.tidy hdir), h.listed, h.parent hdir]
    simp [hdir]
  · rw [Inode.linksTo_not_live fun hlive => hdir hlive.1, if_neg fun hboth => hdir hboth.1]

theorem Inode.Live.used {node : Inode} (h : node.Live) : node.type ≠ .free := by
  rw [h.1]
  decide

namespace Consistent

theorem live_tidy (h : Consistent ninodes f) {d : Nat} (hlive : (f d).Live) : (f d).Tidy d :=
  h.tidy d hlive.1

theorem linksTo_le (h : Consistent ninodes f) (d i : Nat) :
    (f d).linksTo i ≤ links ninodes f i := by
  by_cases hlive : (f d).Live
  · exact Finset.single_le_sum (f := fun d => (f d).linksTo i) (fun _ _ => Nat.zero_le _)
      (Finset.mem_range.mpr (h.bounded d hlive.used).2)
  · rw [Inode.linksTo_not_live hlive]
    exact Nat.zero_le _

theorem listed_le (h : Consistent ninodes f) (d i : Nat) :
    (f d).listed i ≤ links ninodes f i := by
  by_cases hlive : (f d).Live
  · have hle := h.linksTo_le d i
    rw [Inode.linksTo_eq hlive (h.live_tidy hlive)] at hle
    omega
  · rw [Inode.listed_not_live hlive]
    exact Nat.zero_le _

/-- A name is added to the linked directory `dp`, for an inode that gets a link. -/
theorem addName (h : Consistent ninodes f) (node : Inode) (name : Name) {d : Inode}
    (hin : 1 ≤ ip ∧ ip < ninodes)
    (hdp : (f dp).Live) (hold : (f ip).type ≠ .dir) (hleaf : node.Leaf dp ip)
    (hnlink : node.nlink = links ninodes f ip + 1)
    (hnew : node.type = .dir → links ninodes f ip = 0)
    (hname : name ≠ dot ∧ name ≠ dotdot) (hd : d.type = .dir)
    (hdlinks : d.nlink = if node.type = .dir then (f dp).nlink + 1 else (f dp).nlink)
    (hentries : d.entries = insertEntry (f dp).entries { inum := ip, name := name }) :
    Consistent ninodes (update (update f ip node) dp d) := by
  let g := update (update f ip node) dp d
  have hip : ip ≠ 0 := by omega
  have hdpin := h.bounded dp hdp.used
  have hpos : 0 < node.nlink := by omega
  have hne : ip ≠ dp := by
    rintro rfl
    exact hold hdp.1
  have hlive : d.Live := by
    refine ⟨hd, ?_⟩
    have hpos := hdp.2
    rw [hdlinks]
    split <;> omega
  obtain ⟨htidy, hparent, -⟩ := (h.live_tidy hdp).insert (m := d) hip hname hentries
  have hgdp : g dp = d := Function.update_self _ _ _
  have hgip : g ip = node := by
    show update _ _ _ ip = _
    rw [Function.update_of_ne hne, Function.update_self]
  have hother : ∀ k, k ≠ dp → k ≠ ip → g k = f k := by
    intro k hkdp hkip
    show update _ _ _ k = _
    rw [Function.update_of_ne hkdp, Function.update_of_ne hkip]
  have hnot : ¬ (f ip).Live := fun hlive => hold hlive.1
  have hlisted : ∀ k i, (g k).listed i =
      (f k).listed i + if k = dp ∧ ip = i then 1 else 0 := by
    intro k i
    by_cases hkdp : k = dp
    · rw [hkdp, hgdp, (h.live_tidy hdp).listed_insert hdp hlive hip hname hentries]
      simp
    · rw [if_neg fun hboth => hkdp hboth.1]
      by_cases hkip : k = ip
      · rw [hkip, hgip, hleaf.listed, Inode.listed_not_live hnot]
      · rw [hother k hkdp hkip]
        rfl
  have hlinks : ∀ i, links ninodes g i = links ninodes f i + (if ip = i then 1 else 0) +
      if node.type = .dir ∧ dp = i then 1 else 0 := by
    intro i
    have hfirst := sum_update (w := fun node => node.linksTo i) (f := f) (e := node) hin.2
    have hsecond := sum_update (w := fun node => node.linksTo i) (f := update f ip node)
      (e := d) hdpin.2
    have hmore : d.linksTo i = (f dp).linksTo i + if ip = i then 1 else 0 := by
      rw [Inode.linksTo_eq hlive htidy, Inode.linksTo_eq hdp (h.live_tidy hdp), hparent,
        (h.live_tidy hdp).listed_insert hdp hlive hip hname hentries]
      omega
    rw [Inode.linksTo_not_live hnot, hleaf.linksTo hpos] at hfirst
    rw [Function.update_of_ne (Ne.symm hne), hmore] at hsecond
    show ∑ k ∈ Finset.range ninodes, (update (update f ip node) dp d k).linksTo i
      = (∑ k ∈ Finset.range ninodes, (f k).linksTo i) + _ + _
    omega
  have hroot : ROOTINO ≠ ip := by
    rintro rfl
    exact hold h.root.1.1
  have hparents : ∀ k, k ≠ ip → (g k).parent = (f k).parent := by
    intro k hkip
    by_cases hkdp : k = dp
    · rw [hkdp, hgdp, hparent]
    · rw [hother k hkdp hkip]
  have hlives : ∀ k, k ≠ ip → ((g k).Live ↔ (f k).Live) := by
    intro k hkip
    by_cases hkdp : k = dp
    · rw [hkdp, hgdp]
      exact iff_of_true hlive hdp
    · rw [hother k hkdp hkip]
  have htypes : ∀ k, k ≠ ip → (g k).type = (f k).type := by
    intro k hkip
    by_cases hkdp : k = dp
    · rw [hkdp, hgdp, hd, hdp.1]
    · rw [hother k hkdp hkip]
  show Consistent ninodes g
  exact
    { root := by
        rw [hlives _ hroot, hparents _ hroot]
        exact h.root
      bounded := by
        intro k hk
        by_cases hkip : k = ip
        · rw [hkip]
          exact hin
        · rw [htypes k hkip] at hk
          exact h.bounded k hk
      tidy := by
        intro k hk
        by_cases hkip : k = ip
        · rw [hkip, hgip] at hk ⊢
          exact hleaf.tidy hk
        · by_cases hkdp : k = dp
          · rw [hkdp, hgdp]
            exact htidy
          · rw [hother k hkdp hkip] at hk ⊢
            exact h.tidy k hk
      parents := by
        intro k hk
        by_cases hkip : k = ip
        · rw [hkip, hgip] at hk ⊢
          rw [hleaf.parent hk.1, hgdp]
          exact hlive
        · rw [hlives k hkip] at hk
          have hup := h.parents k hk
          have hupne : (f k).parent ≠ ip := by
            intro heq
            rw [heq] at hup
            exact hnot hup
          rw [hparents k hkip, hlives _ hupne]
          exact hup
      once := by
        intro k hk j
        rw [hlisted]
        by_cases hkip : k = ip
        · subst hkip
          have hzero := h.listed_le j k
          rw [hgip] at hk ⊢
          have hnone := hnew hk.1
          rw [hleaf.parent hk.1]
          have hj : (f j).listed k = 0 := by omega
          rw [hj]
          simp [Ne.symm hroot]
        · rw [hlives k hkip] at hk
          have hnew : ¬ (j = dp ∧ ip = k) := fun hboth => hkip hboth.2.symm
          rw [hparents k hkip, h.once k hk, if_neg hnew, Nat.add_zero]
      exact := by
        intro k hk
        rw [hlinks]
        by_cases hkip : k = ip
        · rw [hkip, hgip, if_pos rfl, if_neg fun hboth => hne hboth.2.symm]
          exact hnlink
        · have hk' := hk
          rw [htypes k hkip] at hk'
          have hexact := h.exact k hk'
          rw [if_neg (Ne.symm hkip)]
          by_cases hkdp : k = dp
          · subst hkdp
            rw [hgdp, hdlinks]
            by_cases hdir : node.type = .dir
            · simp only [hdir, if_true, and_self]
              omega
            · simp only [hdir, if_false, false_and]
              omega
          · rw [if_neg fun hboth => hkdp hboth.2.symm, hother k hkdp hkip]
            omega
      unused := by
        intro k hk
        have hkip : k ≠ ip := by
          rintro rfl
          rw [hgip] at hk
          exact hleaf.used hk
        have hkdp : k ≠ dp := by
          rintro rfl
          rw [hgdp] at hk
          exact hlive.used hk
        rw [htypes k hkip] at hk
        rw [hlinks, h.unused k hk, if_neg (Ne.symm hkip), if_neg fun hboth => hkdp hboth.2.symm]
      removed := by
        intro k hk hzero
        have hkip : k ≠ ip := by
          rintro rfl
          rw [hgip] at hzero
          omega
        have hkdp : k ≠ dp := by
          rintro rfl
          rw [hgdp] at hzero
          have hpos := hlive.2
          omega
        rw [hother k hkdp hkip] at hk hzero ⊢
        exact h.removed k hk hzero }

/-- `create` in a linked directory. -/
theorem created (h : Consistent ninodes f) (hfree : (f ip).type = .free)
    (hin : 1 ≤ ip ∧ ip < ninodes) (hdp : (f dp).Live) (htype : type ≠ .free)
    (habsent : (f dp).find name = none) : Consistent ninodes (created f dp name ip type) := by
  have hzero := h.unused ip hfree
  have hdpin := h.bounded dp hdp.used
  apply h.addName (newInode dp ip type) name hin hdp
  · rw [hfree]
    decide
  · exact newInode_leaf (by omega) (by omega) htype
  · rw [hzero]
    rfl
  · exact fun _ => hzero
  · exact (h.live_tidy hdp).not_dots habsent
  · exact hdp.1
  · rfl
  · rfl

/-- `link` in a linked directory. -/
theorem linked (h : Consistent ninodes f) (hused : (f ip).type ≠ .free)
    (hfile : (f ip).type ≠ .dir) (hdp : (f dp).Live) (habsent : (f dp).find name = none) :
    Consistent ninodes (linked f dp name ip) := by
  apply h.addName { f ip with nlink := (f ip).nlink + 1 } name (h.bounded ip hused) hdp hfile
  · exact ⟨hused, fun hdir => absurd hdir hfile, fun hdir => absurd hdir hfile,
      fun hdir => absurd hdir hfile⟩
  · rw [h.exact ip hused]
  · exact fun hdir => absurd hdir hfile
  · exact (h.live_tidy hdp).not_dots habsent
  · exact hdp.1
  · exact (if_neg hfile).symm
  · rfl

/-- What `unlink` may remove has no parent but the directory of its entry. -/
theorem not_parent (h : Consistent ninodes f) {k : Nat} (hroot : ip ≠ ROOTINO)
    (hempty : ∀ de ∈ (f ip).entries.drop 2, de.inum = 0) (hk : (f k).Live) :
    (f k).parent ≠ ip := by
  intro heq
  have honce := h.once k hk ip
  rw [Inode.listed_empty hempty] at honce
  by_cases hkroot : k = ROOTINO
  · rw [hkroot, h.root.2] at heq
    exact hroot heq.symm
  · rw [if_pos ⟨hkroot, heq.symm⟩] at honce
    cases honce

/-- The one link of an empty directory is its name. -/
theorem links_empty (h : Consistent ninodes f) (hlive : (f ip).Live) (hroot : ip ≠ ROOTINO)
    (hempty : ∀ de ∈ (f ip).entries.drop 2, de.inum = 0) : links ninodes f ip = 1 := by
  have hparent := h.parents ip hlive
  have heach : ∀ k, (f k).linksTo ip = if (f ip).parent = k then 1 else 0 := by
    intro k
    by_cases hk : (f k).Live
    · rw [Inode.linksTo_eq hk (h.live_tidy hk), h.once ip hlive,
        if_neg (h.not_parent hroot hempty hk)]
      simp [hroot, eq_comm]
    · have hne : (f ip).parent ≠ k := by
        rintro rfl
        exact hk hparent
      rw [Inode.linksTo_not_live hk, if_neg hne]
  have hin := (h.bounded _ hparent.used).2
  unfold links
  rw [Finset.sum_congr rfl fun k _ => heach k, Finset.sum_ite_eq,
    if_pos (Finset.mem_range.mpr hin)]

/-- The directory of another one has a link for its `..`, and a link of its own. -/
theorem links_parent (h : Consistent ninodes f) (hlive : (f ip).Live) (hroot : ip ≠ ROOTINO)
    (hempty : ∀ de ∈ (f ip).entries.drop 2, de.inum = 0) (hne : ip ≠ dp)
    (hparent : (f ip).parent = dp) : 2 ≤ links ninodes f dp := by
  have hdp : (f dp).Live := hparent ▸ h.parents ip hlive
  have hown : ∃ q, q ≠ ip ∧ (f q).Live ∧ 1 ≤ (f q).linksTo dp := by
    by_cases hdproot : dp = ROOTINO
    · refine ⟨dp, Ne.symm hne, hdp, ?_⟩
      rw [Inode.linksTo_eq hdp (h.live_tidy hdp), if_pos (by rw [hdproot]; exact h.root.2)]
      omega
    · have hup := h.parents dp hdp
      have honce := h.once dp hdp (f dp).parent
      rw [if_pos ⟨hdproot, rfl⟩] at honce
      refine ⟨(f dp).parent, ?_, hup, ?_⟩
      · intro heq
        rw [heq, Inode.listed_empty hempty] at honce
        cases honce
      · rw [Inode.linksTo_eq hup (h.live_tidy hup), honce]
        omega
  obtain ⟨q, hq, hqlive, hqlinks⟩ := hown
  have hip : 1 ≤ (f ip).linksTo dp := by
    rw [Inode.linksTo_eq hlive (h.live_tidy hlive), if_pos hparent]
    omega
  have hsubset : ({ip, q} : Finset Nat) ⊆ Finset.range ninodes := by
    intro k hk
    rcases Finset.mem_insert.mp hk with rfl | hk
    · exact Finset.mem_range.mpr (h.bounded k hlive.used).2
    · rw [Finset.mem_singleton.mp hk]
      exact Finset.mem_range.mpr (h.bounded q hqlive.used).2
  have hle := Finset.sum_le_sum_of_subset (f := fun k => (f k).linksTo dp) hsubset
  rw [Finset.sum_pair (Ne.symm hq)] at hle
  unfold links
  omega

/-- A directory in which a name is found is linked. -/
theorem live_of_find (h : Consistent ninodes f) (hdir : (f dp).type = .dir)
    (hname : name ≠ dot ∧ name ≠ dotdot) (hfind : (f dp).find name = some (off, ip)) :
    (f dp).Live := by
  refine ⟨hdir, ?_⟩
  have hexact := h.exact dp (by rw [hdir]; decide)
  by_contra hle
  have hzero : (f dp).nlink = 0 := by omega
  obtain ⟨k, hget, -⟩ := (h.tidy dp hdir).erase
    (m := { f dp with entries := (f dp).entries.set off { inum := 0, name := [] } }) hname
    hfind rfl
  exact (Inode.find_some hfind).1 (h.removed dp hdir hzero _ (List.mem_of_getElem? hget))

/-- `unlink` of a name in a linked directory. -/
theorem unlinked (h : Consistent ninodes f) (hdir : (f dp).type = .dir)
    (hname : name ≠ dot ∧ name ≠ dotdot) (hfind : (f dp).find name = some (off, ip))
    (hne : ip ≠ dp) (hlinked : 1 ≤ (f ip).nlink)
    (hempty : (f ip).type = .dir → ∀ de ∈ (f ip).entries.drop 2, de.inum = 0) :
    Consistent ninodes (unlinked f dp off ip) := by
  let d : Inode :=
    { f dp with
      entries := (f dp).entries.set off { inum := 0, name := [] }
      nlink := if (f ip).type = .dir then (f dp).nlink - 1 else (f dp).nlink }
  let node : Inode := { f ip with nlink := (f ip).nlink - 1 }
  let g := update (update f dp d) ip node
  have hdp := h.live_of_find hdir hname hfind
  have hdpin := h.bounded dp hdp.used
  have hpos := (h.live_tidy hdp).listed_pos hdp hname hfind
  have hused : (f ip).type ≠ .free := by
    intro hfree
    have hle := h.listed_le dp ip
    rw [h.unused ip hfree] at hle
    omega
  have hipin := h.bounded ip hused
  -- what is known of a directory that is removed
  have hremoved : (f ip).type = .dir → ip ≠ ROOTINO ∧ (f ip).parent = dp ∧
      links ninodes f ip = 1 ∧ 2 ≤ links ninodes f dp := by
    intro hipdir
    have hlive : (f ip).Live := ⟨hipdir, by omega⟩
    have honce := h.once ip hlive dp
    by_cases hboth : ip ≠ ROOTINO ∧ dp = (f ip).parent
    · obtain ⟨hroot, hparent⟩ := hboth
      exact ⟨hroot, hparent.symm, h.links_empty hlive hroot (hempty hipdir),
        h.links_parent hlive hroot (hempty hipdir) hne hparent.symm⟩
    · rw [if_neg hboth] at honce
      omega
  have hexactDp := h.exact dp hdp.used
  have hexactIp := h.exact ip hused
  have hlive : d.Live := by
    refine ⟨hdir, ?_⟩
    have hdpos := hdp.2
    show 0 < if (f ip).type = .dir then (f dp).nlink - 1 else (f dp).nlink
    split
    · rename_i hipdir
      obtain ⟨-, -, -, htwo⟩ := hremoved hipdir
      omega
    · exact hdpos
  have hdead : ¬ node.Live := by
    rintro ⟨hipdir, hnlink⟩
    obtain ⟨-, -, hone, -⟩ := hremoved hipdir
    have hnlink : 0 < (f ip).nlink - 1 := hnlink
    omega
  have hroot : ip ≠ ROOTINO := by
    intro heq
    have hipdir : (f ip).type = .dir := heq ▸ h.root.1.1
    exact (hremoved hipdir).1 heq
  obtain ⟨-, -, htidy, hparent, -⟩ := (h.live_tidy hdp).erase (m := d) hname hfind rfl
  have hgip : g ip = node := Function.update_self _ _ _
  have hgdp : g dp = d := by
    show update _ _ _ dp = _
    rw [Function.update_of_ne (Ne.symm hne), Function.update_self]
  have hother : ∀ k, k ≠ dp → k ≠ ip → g k = f k := by
    intro k hkdp hkip
    show update _ _ _ k = _
    rw [Function.update_of_ne hkip, Function.update_of_ne hkdp]
  have hbare : ∀ i, (f ip).listed i = 0 := by
    intro i
    by_cases hipdir : (f ip).type = .dir
    · exact Inode.listed_empty (hempty hipdir)
    · exact Inode.listed_not_live fun hlive => hipdir hlive.1
  have hlisted : ∀ k i, (g k).listed i + (if k = dp ∧ ip = i then 1 else 0) =
      (f k).listed i := by
    intro k i
    by_cases hkdp : k = dp
    · rw [hkdp, hgdp, ← (h.live_tidy hdp).listed_erase (m := d) hdp hlive hname hfind rfl]
      simp
    · rw [if_neg fun hboth => hkdp hboth.1]
      by_cases hkip : k = ip
      · rw [hkip, hgip, Inode.listed_not_live hdead, hbare]
      · rw [hother k hkdp hkip]
        rfl
  have hlinks : ∀ i, links ninodes g i + (if ip = i then 1 else 0) +
      (if (f ip).type = .dir ∧ dp = i then 1 else 0) = links ninodes f i := by
    intro i
    have hfirst := sum_update (w := fun node => node.linksTo i) (f := f) (e := d) hdpin.2
    have hsecond := sum_update (w := fun node => node.linksTo i) (f := update f dp d)
      (e := node) hipin.2
    have hless : d.linksTo i + (if ip = i then 1 else 0) = (f dp).linksTo i := by
      rw [Inode.linksTo_eq hlive htidy, Inode.linksTo_eq hdp (h.live_tidy hdp), hparent,
        ← (h.live_tidy hdp).listed_erase (m := d) hdp hlive hname hfind rfl]
      omega
    have hold : (f ip).linksTo i = if (f ip).type = .dir ∧ dp = i then 1 else 0 := by
      by_cases hipdir : (f ip).type = .dir
      · have hiplive : (f ip).Live := ⟨hipdir, by omega⟩
        rw [Inode.linksTo_eq hiplive (h.live_tidy hiplive), hbare, (hremoved hipdir).2.1]
        simp [hipdir]
      · rw [Inode.linksTo_not_live fun hlive => hipdir hlive.1,
          if_neg fun hboth => hipdir hboth.1]
    rw [Inode.linksTo_not_live hdead, Function.update_of_ne hne, hold] at hsecond
    show (∑ k ∈ Finset.range ninodes, (update (update f dp d) ip node k).linksTo i) + _ + _ =
      ∑ k ∈ Finset.range ninodes, (f k).linksTo i
    omega
  have hlives : ∀ k, k ≠ ip → ((g k).Live ↔ (f k).Live) := by
    intro k hkip
    by_cases hkdp : k = dp
    · rw [hkdp, hgdp]
      exact iff_of_true hlive hdp
    · rw [hother k hkdp hkip]
  have hparents : ∀ k, k ≠ ip → (g k).parent = (f k).parent := by
    intro k hkip
    by_cases hkdp : k = dp
    · rw [hkdp, hgdp, hparent]
    · rw [hother k hkdp hkip]
  have htypes : ∀ k, (g k).type = (f k).type := by
    intro k
    by_cases hkip : k = ip
    · rw [hkip, hgip]
    · by_cases hkdp : k = dp
      · rw [hkdp, hgdp]
      · rw [hother k hkdp hkip]
  have hstay : ∀ k, (g k).Live → k ≠ ip := by
    rintro k hk rfl
    rw [hgip] at hk
    exact hdead hk
  show Consistent ninodes g
  exact
    { root := by
        rw [hlives _ (Ne.symm hroot), hparents _ (Ne.symm hroot)]
        exact h.root
      bounded := by
        intro k hk
        rw [htypes] at hk
        exact h.bounded k hk
      tidy := by
        intro k hk
        by_cases hkip : k = ip
        · rw [htypes] at hk
          rw [hkip, hgip]
          rw [hkip] at hk
          have hold := h.tidy ip hk
          exact ⟨hold.self, hold.parent, hold.entries, hold.names⟩
        · by_cases hkdp : k = dp
          · rw [hkdp, hgdp]
            exact htidy
          · rw [hother k hkdp hkip] at hk ⊢
            exact h.tidy k hk
      parents := by
        intro k hk
        have hkip := hstay k hk
        rw [hlives k hkip] at hk
        have hup := h.parents k hk
        have hupne : (f k).parent ≠ ip := by
          intro heq
          have hipdir : (f ip).type = .dir := by
            rw [← heq]
            exact hup.1
          exact h.not_parent hroot (hempty hipdir) hk heq
        rw [hparents k hkip, hlives _ hupne]
        exact hup
      once := by
        intro k hk j
        have hkip := hstay k hk
        have hj := hlisted j k
        rw [if_neg fun hboth => hkip hboth.2.symm, Nat.add_zero] at hj
        rw [hlives k hkip] at hk
        rw [hj, hparents k hkip, h.once k hk]
      exact := by
        intro k hk
        rw [htypes] at hk
        have hexact := h.exact k hk
        have hk' := hlinks k
        by_cases hkip : k = ip
        · subst hkip
          rw [if_pos rfl, if_neg fun hboth => hne hboth.2.symm] at hk'
          rw [hgip]
          show (f k).nlink - 1 = _
          omega
        · rw [if_neg (Ne.symm hkip)] at hk'
          by_cases hkdp : k = dp
          · subst hkdp
            rw [hgdp]
            show (if (f ip).type = .dir then (f k).nlink - 1 else (f k).nlink) = _
            by_cases hipdir : (f ip).type = .dir
            · simp only [hipdir, if_true, and_self] at hk' ⊢
              omega
            · simp only [hipdir, if_false, false_and] at hk' ⊢
              omega
          · rw [if_neg fun hboth => hkdp hboth.2.symm] at hk'
            rw [hother k hkdp hkip]
            omega
      unused := by
        intro k hk
        rw [htypes] at hk
        have hzero := h.unused k hk
        have hk' := hlinks k
        omega
      removed := by
        intro k hk hzero
        rw [htypes] at hk
        by_cases hkip : k = ip
        · rw [hkip, hgip]
          rw [hkip] at hk
          exact hempty hk
        · have hkdp : k ≠ dp := by
            rintro rfl
            rw [hgdp] at hzero
            have hdpos := hlive.2
            omega
          rw [hother k hkdp hkip] at hzero ⊢
          exact h.removed k hk hzero }

/-- Inodes without links are freed. -/
theorem freeAll (h : Consistent ninodes f) {F : Nat → Prop} [DecidablePred F]
    (hF : ∀ i, F i → (f i).nlink = 0) : Consistent ninodes (freeAll f F) := by
  let g := FsDirectories.freeAll f F
  have hpos : ∀ i, F i → g i = (f i).freed := fun i hi => freeAll_pos hi
  have hneg : ∀ i, ¬ F i → g i = f i := fun i hi => freeAll_neg hi
  have hdead : ∀ i, F i → ¬ (f i).Live := by
    intro i hi hlive
    have hlt := hlive.2
    rw [hF i hi] at hlt
    exact lt_irrefl 0 hlt
  have hgone : ∀ i, F i → ¬ (g i).Live := by
    intro i hi hlive
    rw [hpos i hi] at hlive
    cases hlive.1
  have hlives : ∀ i, (g i).Live → ¬ F i ∧ g i = f i := by
    intro i hi
    have hnot : ¬ F i := fun hF => hgone i hF hi
    exact ⟨hnot, hneg i hnot⟩
  have hused : ∀ i, (g i).type ≠ .free → ¬ F i ∧ g i = f i := by
    intro i hi
    have hnot : ¬ F i := fun hF => hi (congrArg Inode.type (hpos i hF))
    exact ⟨hnot, hneg i hnot⟩
  have hkeep : ∀ i, (f i).Live → g i = f i := fun i hi => hneg i fun hF => hdead i hF hi
  have hlisted : ∀ k i, (g k).listed i = (f k).listed i := by
    intro k i
    by_cases hk : F k
    · rw [Inode.listed_not_live (hgone k hk), Inode.listed_not_live (hdead k hk)]
    · rw [hneg k hk]
  have hlinks : ∀ i, links ninodes g i = links ninodes f i := by
    intro i
    apply Finset.sum_congr rfl
    intro k _
    by_cases hk : F k
    · rw [Inode.linksTo_not_live (hgone k hk), Inode.linksTo_not_live (hdead k hk)]
    · rw [hneg k hk]
  show Consistent ninodes g
  exact
    { root := by
        rw [hkeep _ h.root.1]
        exact h.root
      bounded := by
        intro i hi
        rw [(hused i hi).2] at hi
        exact h.bounded i hi
      tidy := by
        intro i hi
        have hsame := (hused i (by rw [hi]; decide)).2
        rw [hsame] at hi ⊢
        exact h.tidy i hi
      parents := by
        intro i hi
        have hsame := (hlives i hi).2
        rw [hsame] at hi ⊢
        have hup := h.parents i hi
        rw [hkeep _ hup]
        exact hup
      once := by
        intro i hi k
        have hsame := (hlives i hi).2
        rw [hsame] at hi ⊢
        rw [hlisted]
        exact h.once i hi k
      exact := by
        intro i hi
        have hsame := (hused i hi).2
        rw [hsame] at hi ⊢
        rw [hlinks]
        exact h.exact i hi
      unused := by
        intro i hi
        rw [hlinks]
        by_cases hi' : (f i).type = .free
        · exact h.unused i hi'
        · by_cases hFi : F i
          · have hexact := h.exact i hi'
            rw [hF i hFi] at hexact
            omega
          · rw [hneg i hFi] at hi
            exact absurd hi hi'
      removed := by
        intro i hi
        have hsame := (hused i (by rw [hi]; decide)).2
        rw [hsame] at hi ⊢
        exact h.removed i hi }

end Consistent

end Changes

/-! ## Runs -/

section Runs

variable {P : Type} {ninodes : Nat} {image : Nat → Inode} {s t : State P} {c : Call P}

/-- The call adds an entry to the directory `dp`. -/
inductive State.AddsEntry (s : State P) : Call P → Nat → Prop
  | create {c : Call P} {p : P} {path : List Char} {type : FileType} {dp : Nat} {name : Name}
      (hc : c.creates = some (p, path, type)) (hlookup : s.lookup true p path = some (dp, name))
      (habsent : (s.inode dp).find name = none) : State.AddsEntry s c dp
  | link {p : P} {old new : List Char} {dp ip : Nat} {name name' : Name}
      (hold : s.lookup false p old = some (ip, name')) (hfile : (s.inode ip).type ≠ .dir)
      (hnew : s.lookup true p new = some (dp, name))
      (habsent : (s.inode dp).find name = none) : State.AddsEntry s (.link p old new) dp

/-- No call adds an entry to a directory that has been removed. -/
def LiveEntries (s : State P) (c : Call P) : Prop :=
  ∀ dp, s.AddsEntry c dp → (s.inode dp).nlink ≠ 0

/-- The directory of the last element of the path, when it has no such entry. -/
def State.absentIn (s : State P) (p : P) (path : List Char) : Option Nat :=
  (s.lookup true p path).bind fun x => if (s.inode x.1).find x.2 = none then some x.1 else none

/-- The directory that the call adds an entry to. -/
def State.addsTo (s : State P) : Call P → Option Nat
  | .link p old new =>
      (s.lookup false p old).bind fun x =>
        if (s.inode x.1).type ≠ .dir then s.absentIn p new else none
  | c => c.creates.bind fun x => s.absentIn x.1 x.2.1

theorem State.absentIn_iff {p : P} {path : List Char} {dp : Nat} : s.absentIn p path = some dp ↔
    ∃ name, s.lookup true p path = some (dp, name) ∧ (s.inode dp).find name = none := by
  simp [State.absentIn, Option.bind_eq_some_iff]

theorem State.addsEntry_iff {dp : Nat} : s.AddsEntry c dp ↔ s.addsTo c = some dp := by
  constructor
  · intro hadds
    cases hadds with
    | create hc hlookup habsent =>
        have hto : s.addsTo c = c.creates.bind fun x => s.absentIn x.1 x.2.1 := by
          cases c <;> first | rfl | cases hc
        rw [hto, hc]
        exact State.absentIn_iff.mpr ⟨_, hlookup, habsent⟩
    | link hold hfile hnew habsent =>
        have hin := State.absentIn_iff.mpr ⟨_, hnew, habsent⟩
        simp [State.addsTo, hold, hfile, hin]
  · intro hto
    by_cases hlink : ∃ p old new, c = .link p old new
    · obtain ⟨p, old, new, rfl⟩ := hlink
      obtain ⟨⟨ip, name⟩, hold, hin⟩ := Option.bind_eq_some_iff.mp hto
      split at hin
      · rename_i hfile
        obtain ⟨name', hnew, habsent⟩ := State.absentIn_iff.mp hin
        exact .link hold hfile hnew habsent
      · cases hin
    · have hto' : (c.creates.bind fun x => s.absentIn x.1 x.2.1) = some dp := by
        cases c <;> first | exact hto | exact absurd ⟨_, _, _, rfl⟩ hlink
      obtain ⟨⟨p, path, type⟩, hc, hin⟩ := Option.bind_eq_some_iff.mp hto'
      obtain ⟨name, hlookup, habsent⟩ := State.absentIn_iff.mp hin
      exact .create hc hlookup habsent

instance (s : State P) (c : Call P) : Decidable (LiveEntries s c) :=
  decidable_of_iff (∀ dp ∈ s.addsTo c, (s.inode dp).nlink ≠ 0) <|
    forall_congr' fun _ => imp_congr State.addsEntry_iff.symm Iff.rfl

/-- An image in which the link counts are exact, the directories are a tree, and
every inode in use has a link. -/
structure ConsistentImage (ninodes : Nat) (image : Nat → Inode) : Prop where
  consistent : Consistent ninodes image
  linked : ∀ i, (image i).type ≠ .free → (image i).nlink ≠ 0

variable [Fintype P]

/-- Link counts are exact, and an inode without links is still referenced. -/
structure LinkCounts (ninodes : Nat) (s : State P) : Prop where
  exact : ∀ i, (s.inode i).type ≠ .free → (s.inode i).nlink = links ninodes s.inode i
  referenced : ∀ i, (s.inode i).type ≠ .free → links ninodes s.inode i = 0 → 0 < s.holders i

/-- The invariant of the runs. -/
def ConsistentState (ninodes : Nat) (s : State P) : Prop :=
  Cache s [] ∧ Consistent ninodes s.inode

theorem ConsistentState.ready (h : ConsistentState ninodes s) :
    Ready (fun _ => True) s where
  cache := h.1
  root := h.2.root.1.used
  links := by
    intro i hi
    have hexact := h.2.exact i hi
    omega
  safe := .inl trivial

theorem ConsistentState.linkCounts (h : ConsistentState ninodes s) : LinkCounts ninodes s where
  exact := h.2.exact
  referenced := by
    intro i hi hzero
    have hexact := h.2.exact i hi
    rw [hzero] at hexact
    exact (h.1.kept i hi hexact).1

theorem ConsistentImage.boot (h : ConsistentImage ninodes image) :
    ConsistentState ninodes (boot image : State P) :=
  ⟨boot_cache h.consistent.root.1.used h.linked, h.consistent⟩

variable [DecidableEq P]

/-- One call keeps the invariant, if it adds no entry to a removed directory. -/
theorem ConsistentState.step (h : ConsistentState ninodes s) (hok : LiveEntries s c)
    (hs : (fileSystem ninodes image).step s c = some t) : ConsistentState ninodes t := by
  obtain ⟨hcache, heffect⟩ := step_done h.ready hs
  refine ⟨hcache, ?_⟩
  have hcons := h.2
  have hlive : ∀ dp, (s.inode dp).type = .dir → s.AddsEntry c dp → (s.inode dp).Live := by
    intro dp hdir hadds
    have hexact := hcons.exact dp (by rw [hdir]; decide)
    have hne := hok dp hadds
    exact ⟨hdir, by omega⟩
  cases heffect with
  | same hsame =>
      rw [hsame.inode]
      exact hcons
  | create hc hlookup hmade =>
      rw [hmade.inode]
      have hdp := hlive _ hmade.dir (.create hc hlookup hmade.absent)
      exact hcons.created hmade.fresh hmade.inside hdp (creates_ne_free hc) hmade.absent
  | link hold hfile hused hnew hdir habsent hinode hclock hborn =>
      rw [hinode]
      have hdp := hlive _ hdir (.link hold hfile hnew habsent)
      exact hcons.linked hused hfile hdp habsent
  | unlink hfound hinode hclock hborn =>
      rw [hinode]
      obtain ⟨name, hlookup, hdot, hdotdot, hfind⟩ := hfound.found
      obtain ⟨start, -, hresolve⟩ := Option.bind_eq_some_iff.mp hlookup
      have hunlinked := hcons.unlinked (resolve_parent hresolve) ⟨hdot, hdotdot⟩ hfind
        hfound.other hfound.linked fun hipdir => by
          have hempty := hfound.empty hipdir
          simpa [Inode.isdirempty] using hempty
      exact hunlinked.freeAll fun i hF => hF.2.1
  | free hi hlast hinode hclock hborn =>
      rw [hinode, update_freed]
      apply hcons.freeAll
      rintro i rfl
      exact hlast.1

/-- In every run that adds no entry to a removed directory, the link counts are
exact and nothing is orphaned. -/
theorem liveEntries_linkCounts (himage : ConsistentImage ninodes image)
    (h : (fileSystem ninodes image).ReachableWhen LiveEntries s) : LinkCounts ninodes s := by
  have hcons : ConsistentState ninodes s := by
    apply System.ReachableWhen.invariant _ _ h
    · rintro _ rfl
      exact himage.boot
    · intro u c v hu hok hs
      exact hu.step hok hs
  exact hcons.linkCounts

end Runs

/-! ## A run that loses a file -/

theorem consistentImage_rootImage : ConsistentImage 5 rootImage := by
  have hroot : ∀ i, (rootImage i).type ≠ .free → i = ROOTINO := fun i => rootImage_used
  have hlive : ∀ i, (rootImage i).Live → i = ROOTINO := fun i hi => hroot i hi.used
  have hdir : ∀ i, (rootImage i).type = .dir → i = ROOTINO := by
    intro i hi
    apply hroot
    rw [hi]
    decide
  have hlisted : ∀ k i, (rootImage k).listed i = 0 := by
    intro k i
    unfold Inode.listed
    split
    · rename_i hk
      rw [hlive k hk]
      rfl
    · rfl
  exact
    { consistent :=
        { root := by decide
          bounded := by
            intro i hi
            rw [hroot i hi]
            decide
          tidy := by
            intro i hi
            rw [hdir i hi]
            exact ⟨by decide, by decide, by decide, by decide⟩
          parents := by
            intro i hi
            rw [hlive i hi]
            decide
          once := by
            intro i hi k
            rw [hlisted, hlive i hi]
            rfl
          exact := by
            intro i hi
            rw [hroot i hi]
            decide
          unused := by
            intro i hi
            apply Finset.sum_eq_zero
            intro k _
            by_cases hk : (rootImage k).Live
            · rw [hlive k hk]
              have hne : ROOTINO ≠ i := by
                rintro rfl
                cases hi
              simp [Inode.linksTo, rootImage, hne]
            · exact Inode.linksTo_not_live hk
          removed := by
            intro i hi
            rw [hdir i hi]
            decide }
      linked := by
        intro i hi
        rw [hroot i hi]
        decide }

/-- A file gets a second name in the root directory; its first name is removed while it
is open, and then the directory that it was made in. -/
def secondName {P : Type} (p q : P) (fd : Fin NOFILE) : List (Call P) :=
  [.mkdir p ['a'], .chdir p ['a'], .open p ['f'] O_CREATE true,
    .link q ['a', '/', 'f'] ['g'], .unlink p ['f'], .close p fd, .unlink q ['a'], .chdir p ['/']]

theorem liveEntries_linkCounts_secondName : ∃ s : State (Fin 2),
    (s.inode 2).type = .free ∧ (s.inode 3).nlink = 1 ∧ LinkCounts 5 s := by
  obtain ⟨s, hs, htest⟩ := System.exists_reachableWhen_of_run (M := fileSystem 5 rootImage)
    LiveEntries (l := secondName (0 : Fin 2) 1 0)
    (p := fun s => (s.inode 2).type == .free && (s.inode 3).nlink == 1) rfl (by decide +kernel)
  simp only [Bool.and_eq_true, beq_iff_eq] at htest
  exact ⟨s, htest.1, htest.2, liveEntries_linkCounts consistentImage_rootImage hs⟩

/-- A file is created in a removed directory, which is freed later. -/
def orphanRun {P : Type} (p : P) (fd : Fin NOFILE) : List (Call P) :=
  [.mkdir p ['a'], .chdir p ['a'], .unlink p ['.', '.', '/', 'a'], .open p ['f'] O_CREATE true,
    .close p fd, .chdir p ['/']]

theorem not_all_linkCounts :
    ¬ ∀ (ninodes : Nat) (image : Nat → Inode), ConsistentImage ninodes image →
      ∀ s : State (Fin 1), (fileSystem ninodes image).Reachable s → LinkCounts ninodes s := by
  intro hall
  obtain ⟨s, hs, htest⟩ := System.exists_reachable_of_run (M := fileSystem 5 rootImage)
    (l := orphanRun (0 : Fin 1) 0)
    (p := fun s => (s.inode 3).type == .file && (s.inode 3).nlink == 1 &&
      links 5 s.inode 3 == 0 && s.holders 3 == 0) rfl (by decide +kernel)
  simp only [Bool.and_eq_true, beq_iff_eq] at htest
  obtain ⟨⟨⟨htype, -⟩, hlinks⟩, hholders⟩ := htest
  have hcounts := hall 5 rootImage consistentImage_rootImage s hs
  have hpos := hcounts.referenced 3 (by rw [htype]; decide) hlinks
  omega

end OsWork.Ports.FsDirectories

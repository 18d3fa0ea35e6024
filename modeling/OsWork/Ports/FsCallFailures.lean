import OsWork.Ports.FsCreate

/-!
# Failed calls

What a call leaves behind that returns -1.  Each error exit drops what the call holds and takes
back what it has stored; only `sys_open` keeps a file that it has created when there is no
descriptor for it.

## Main results

* `wp_linkBad` — the label `bad` of `sys_link` takes the link back.
* `failed_calls` — failed calls have no effect, but for a file that `open` has created.
-/

namespace OsWork.Ports.FsCalls

open OsWork.Verified.ByteWords OsWork.Verified.Procedure OsWork.Verified.SlotMap
  OsWork.Ports.FsLayout OsWork.Ports.FsDisk OsWork.Ports.FsPaths
open Function (update)

variable {P : Type} {sb : Superblock} {devsw : Devsw} {s t : Kernel P} {d d' e : Disk}
  {ref : Nat → Nat} {i ip dp ty major minor omode : Nat} {name : Bytes} {p : P} {path : Path}
  {E : Stop → Prop}

/-- Directory entries, inodes and contents, descriptors, current directories and references are
as before. -/
structure Untouched (sb : Superblock) (s t : Kernel P) : Prop where
  load : ∀ i, i < sb.ninodes → sb.load t.disk i = sb.load s.disk i
  contents : ∀ i, i < sb.ninodes → sb.contents t.disk i = sb.contents s.disk i
  ofile : t.ofile = s.ofile
  cwd : t.cwd = s.cwd
  ref : t.ref = s.ref
  file : ∀ f, (t.file f).ref = (s.file f).ref

/-- A failed call has no effect. -/
def FailsCleanly [DecidableEq P] (sb : Superblock) (devsw : Devsw) (s : Kernel P) (p : P)
    (c : Call) : Prop :=
  ∀ t, c.run sb devsw p s = .ok (-1, t) → Untouched sb s t

/-- `create` makes the file `path`. -/
def Creates (sb : Superblock) (s : Kernel P) (p : P) (path : Path) : Prop :=
  ∃ dp name i, s.lookup sb s.disk true s.ref p path = .ok (some dp) ∧
    path.names.getLast? = some name ∧ find name (sb.slots s.disk dp) 0 = none ∧
    HasRoom sb s.disk dp ∧ freeInode sb s.disk = some i ∧ CanGet sb (s.refWith [dp]) i

/-- `open` makes a file for which there is no descriptor. -/
def Leaves (sb : Superblock) (s : Kernel P) (p : P) : Call → Prop
  | .open (some path) (some omode) =>
      omode &&& O_CREATE ≠ 0 ∧ Creates sb s p path ∧ NoDescriptor s p
  | _ => False

/-! ## Error exits -/

/-- What a call returns and leaves. -/
abbrev Clean (sb : Superblock) (s : Kernel P) (r : Int) (t : Kernel P) : Prop :=
  r = -1 → Untouched sb s t

theorem clean_any (c : Fs P Unit) : wp (fun _ => True)
    (c >>= fun _ => pure 0 : Fs P Int) (Clean sb s) t :=
  wp_bind_any fun _ _ => nofun

theorem Holds.untouched (h : Holds sb s d [] [] t)
    (hload : ∀ i, i < sb.ninodes → sb.load d i = sb.load s.disk i)
    (hcontents : ∀ i, i < sb.ninodes → sb.contents d i = sb.contents s.disk i) :
    Untouched sb s t where
  load i hi := by rw [h.disk, hload i hi]
  contents i hi := by rw [h.disk, hcontents i hi]
  ofile := h.ofile
  cwd := h.cwd
  ref := h.ref
  file f := by rw [h.file]

theorem Holds.clean (h : Holds sb s s.disk [] [] t) : Untouched sb s t :=
  h.untouched (fun _ _ => rfl) fun _ _ => rfl

/-- The last inode is dropped. -/
theorem wp_drop {R : Kernel P → Prop} (h : Holds sb s d [i] [i] t) (hkept : Kept sb s d [] i)
    (hR : ∀ u, Holds sb s d [] [] u → R u) : wp E (iunlockput sb i) (fun _ => R) t :=
  wp_iunlockput h List.mem_cons_self (by simp) hkept hR

theorem wp_fail (h : Holds sb s s.disk [i] [i] t) (hkept : Kept sb s s.disk [] i) :
    wp E (iunlockput sb i >>= fun _ => pure (-1)) (Clean sb s) t := by
  rw [wp_bind]
  exact wp_drop h hkept fun u hu _ => hu.clean

/-- The parent that `walk` finds is a directory. -/
theorem walk_parent : ∀ (names : List (List UInt8)) (ip : Nat),
    walk sb d true ref ip names = .ok (some dp) → (sb.load d dp).type = T_DIR := by
  intro names
  induction names with
  | nil => exact fun _ heq => nomatch heq
  | cons elem rest ih =>
      intro ip heq
      by_cases hfree : (sb.load d ip).type = 0
      · rw [walk_free hfree] at heq
        cases heq
      by_cases hdir : (sb.load d ip).type = T_DIR
      swap
      · rw [walk_notDir hfree hdir] at heq
        cases heq
      cases rest with
      | nil =>
          rw [walk_stop hdir] at heq
          cases heq
          exact hdir
      | cons elem' rest =>
          rw [walk_next hdir rfl] at heq
          split at heq
          · cases heq
          · split at heq
            · exact ih _ heq
            · cases heq

theorem lookup_parent (h : s.lookup sb d true ref p path = .ok (some dp)) :
    (sb.load d dp).type = T_DIR := by
  unfold Kernel.lookup at h
  split at h
  · exact walk_parent _ _ h
  · cases h

/-! ## The calls -/

/-- `dirFull` changes nothing. -/
theorem wp_dirFull {R : Bool → Kernel P → Prop} {T L : List Nat} {s₀ : Kernel P}
    (htree : Tree sb d) (ht : Holds sb s₀ d T L t) (hi : i ∈ L) (hR : ∀ full, R full t) :
    wp E (dirFull sb devsw i) R t := by
  have hrange := (ht.range i (ht.held i hi)).2
  unfold dirFull
  rw [wp_bind]
  apply wp_getInode ht hi
  split
  · rename_i hdir
    rw [wp_bind]
    exact wp_onInode_read ht hi
      (isdirempty_eq htree.consistent hrange (htree.dir hrange hdir) devsw) (hR _)
  · exact hR false

/-- The label `bad` of `sys_link` takes the link back that has been counted on the disk `e`. -/
theorem wp_linkBad {R : Int → Kernel P → Prop} (hsb : Small sb) (htree : Tree sb d)
    (hset : Stored sb e ip
      { sb.load e ip with nlink := ((sb.load e ip).nlink + 1) % 65536 } d)
    (hsame : ∀ j, j < sb.ninodes → sb.contents d j = sb.contents e j)
    (hkept : Kept sb s e [] ip) (ht : Holds sb s d [ip] [] t) (hfree : E .ilockNoType)
    (hR : ∀ d' u, Tree sb d' → (∀ j, j < sb.ninodes → sb.load d' j = sb.load e j) →
      (∀ j, j < sb.ninodes → sb.contents d' j = sb.contents e j) → Holds sb s d' [] [] u →
        R (-1) u) :
    wp E (linkBad sb ip) R t := by
  unfold linkBad
  rw [wp_bind]
  apply wp_ilock ht List.mem_cons_self List.not_mem_nil fun _ => hfree
  intro _ u hu
  rw [wp_bind]
  apply wp_addLinks hsb htree hu List.mem_cons_self
  intro d' v htree' hset' hsame' hv
  have hback : sb.load d' ip = sb.load e ip := by
    have hlinks : (sb.load e ip).nlink < 65536 := (load_ok sb e ip).nlink
    have hone : (((sb.load e ip).nlink + 1) % 65536 + 65535) % 65536 =
        (sb.load e ip).nlink := by omega
    rw [hset'.load, hset.load]
    simp only [hone]
  have hload : ∀ j, j < sb.ninodes → sb.load d' j = sb.load e j := by
    intro j _
    by_cases hj : j = ip
    · rw [hj, hback]
    · rw [hset'.other j hj, hset.other j hj]
  rw [wp_bind]
  apply wp_drop hv
  · unfold Kept
    rw [hback]
    exact hkept
  · exact fun w hw => hR d' w htree' hload (fun j hj => (hsame' j hj).trans (hsame j hj)) hw

section Calls

variable (hsb : Small sb) (h : Quiet sb s)

include hsb h

/-- `sys_mkdir` and `sys_mknod`. -/
theorem make_clean (path : Path) (hty : ty ≠ T_FILE) :
    wp (fun _ => True) (sys_make sb devsw p path ty major minor) (Clean sb s) s := by
  unfold sys_make
  rw [wp_bind, create_eq, wp_bind]
  apply wp_namex h.tree hsb.rootInum h.holds h.keeps (h.cwd p)
  · exact fun _ _ => trivial
  · exact fun _ t ht _ => ht.clean
  intro dp name t hlook _ hkept ht
  have hdir := lookup_parent hlook
  have hrange := (ht.range dp List.mem_cons_self).2
  apply wp_createAt h.tree ht hdir
  · exact fun _ _ _ => trivial
  · intro k ip hfind u hu
    have hkept' := h.keeps ip (named_of_found hrange hdir hfind)
    rw [wp_bind]
    apply wp_iunlockput hu List.mem_cons_self (off_one _) (hkept.cons ip)
    intro v hv
    apply wp_createFound hv trivial
    · exact fun hfile => absurd hfile hty
    · exact fun w hw => wp_drop hw hkept' fun x hx _ => hx.clean
  · exact fun _ u _ => wp_mono (wp_any _) (fun _ he => he) fun i v _ => clean_any _

theorem link_clean (old new : Path) :
    wp (fun _ => True) (sys_link sb devsw p (some old) (some new)) (Clean sb s) s := by
  unfold sys_link namei
  rw [wp_bind, wp_bind]
  apply wp_namex h.tree hsb.rootInum h.holds h.keeps (h.cwd p)
  · exact fun _ _ => trivial
  · exact fun _ t ht _ => ht.clean
  intro ip _ t _ _ hkept ht
  show wp _ (ilock sb ip >>= _) _ t
  rw [wp_bind]
  apply wp_ilock ht List.mem_cons_self List.not_mem_nil fun _ => trivial
  intro _ u hu
  rw [wp_bind]
  apply wp_getInode hu List.mem_cons_self
  split
  · exact wp_fail hu hkept
  rw [wp_bind]
  apply wp_addLinks hsb h.tree hu List.mem_cons_self
  intro d v htree hset hsame hv
  rw [wp_bind]
  apply wp_iunlock hv List.mem_cons_self (off_one _)
  intro w _ hw
  have hbad : ∀ x, Holds sb s d [ip] [] x →
      wp (fun _ => True) (linkBad sb ip) (Clean sb s) x := by
    intro x hx
    apply wp_linkBad hsb htree hset hsame hkept hx trivial
    exact fun d' y _ hload hcontents hy _ => hy.untouched hload hcontents
  have hkeeps : Keeps sb s d [ip] := h.keeps.count hset rfl
  rw [wp_bind]
  apply wp_namex htree hsb.rootInum hw hkeeps (h.cwd p)
  · exact fun _ _ => trivial
  · exact fun _ x hx => hbad x hx
  intro dp name x hlook _ hkept' hx
  have hdir := lookup_parent hlook
  have hrange := (hx.range dp List.mem_cons_self).2
  show wp _ (ilock sb dp >>= _) _ x
  rw [wp_bind]
  apply wp_ilock hx List.mem_cons_self List.not_mem_nil fun _ => trivial
  intro _ y hy
  rw [wp_bind]
  cases hfind : find (nameOf name) (sb.slots d dp) 0 with
  | none =>
      apply wp_dirlink_absent hsb htree hy List.mem_cons_self hdir
        (hw.range ip List.mem_cons_self) hfind (fun _ => trivial) fun _ => trivial
      exact fun _ _ _ _ _ => wp_bind_any fun _ _ => clean_any _
  | some e =>
      apply wp_dirlink_taken htree hy List.mem_cons_self hdir hfind trivial trivial
      intro hmem z hz
      have hkept'' := hkeeps e.2 (named_of_found hrange hdir hfind)
      apply wp_iput hz hmem (hkept''.cons dp)
      intro a ha
      show wp _ (iunlockput sb dp >>= fun _ => linkBad sb ip) _ a
      rw [wp_bind]
      apply wp_iunlockput ha List.mem_cons_self (off_one _) hkept'
      exact hbad

theorem unlink_clean (path : Path) :
    wp (fun _ => True) (sys_unlink sb devsw p (some path)) (Clean sb s) s := by
  unfold sys_unlink nameiparent
  rw [wp_bind]
  apply wp_namex h.tree hsb.rootInum h.holds h.keeps (h.cwd p)
  · exact fun _ _ => trivial
  · exact fun _ t ht _ => ht.clean
  intro dp name t hlook _ hkept ht
  have hdir := lookup_parent hlook
  have hrange := (ht.range dp List.mem_cons_self).2
  show wp _ (ilock sb dp >>= _) _ t
  rw [wp_bind]
  apply wp_ilock ht List.mem_cons_self List.not_mem_nil fun _ => trivial
  intro _ u hu
  split
  · exact wp_fail hu hkept
  rw [wp_bind]
  apply wp_dirlookup h.tree hu List.mem_cons_self hdir
  · exact fun _ => wp_fail hu hkept
  · exact fun _ _ _ _ => trivial
  intro k ip hfind _ v hv
  have hkept' := h.keeps ip (named_of_found hrange hdir hfind)
  show wp _ (ilock sb ip >>= _) _ v
  rw [wp_bind]
  by_cases hself : ip = dp
  · -- the entry names the directory itself
    unfold ilock
    rw [wp_bind, wp_get, if_neg (Nat.not_lt.mpr (hv.ref_pos List.mem_cons_self)),
      if_pos ((hv.locked ip).mpr (by rw [hself]; exact List.mem_cons_self))]
    exact trivial
  apply wp_ilock hv List.mem_cons_self (by simpa using hself) fun _ => trivial
  intro _ w hw
  rw [wp_bind]
  apply wp_getInode hw List.mem_cons_self
  split
  · exact trivial
  rw [wp_bind]
  apply wp_dirFull h.tree hw List.mem_cons_self
  intro full
  cases full with
  | true =>
      show wp _ (iunlockput sb ip >>= _) _ w
      rw [wp_bind]
      apply wp_iunlockput hw List.mem_cons_self (off_first hself) (hkept'.cons dp)
      exact fun x hx => wp_fail hx hkept
  | false =>
      show wp _ (unlinkFound sb devsw dp ip _) _ w
      unfold unlinkFound
      exact wp_bind_any fun _ _ => wp_bind_any fun _ _ => wp_bind_any fun _ _ =>
        wp_bind_any fun _ _ => wp_bind_any fun _ _ => clean_any _

variable [DecidableEq P]

theorem chdir_clean (path : Path) :
    wp (fun _ => True) (sys_chdir sb devsw p (some path)) (Clean sb s) s := by
  unfold sys_chdir namei
  rw [wp_bind, wp_bind]
  apply wp_namex h.tree hsb.rootInum h.holds h.keeps (h.cwd p)
  · exact fun _ _ => trivial
  · exact fun _ t ht _ => ht.clean
  intro i _ t _ _ hkept ht
  show wp _ (ilock sb i >>= _) _ t
  rw [wp_bind]
  apply wp_ilock ht List.mem_cons_self List.not_mem_nil fun _ => trivial
  intro _ u hu
  rw [wp_bind]
  apply wp_getInode hu List.mem_cons_self
  split
  · exact wp_fail hu hkept
  · exact wp_bind_any fun _ _ => wp_bind_any fun _ _ => wp_bind_any fun _ _ =>
      clean_any _

/-- `sys_open` of a file that is there. -/
theorem open_clean (path : Path) (hcreate : ¬ omode &&& O_CREATE ≠ 0) :
    wp (fun _ => True) (sys_open sb devsw p (some path) (some omode)) (Clean sb s) s := by
  show wp _ (if omode &&& O_CREATE ≠ 0 then _ else _) _ s
  rw [if_neg hcreate, wp_bind]
  unfold namei
  rw [wp_bind]
  apply wp_namex h.tree hsb.rootInum h.holds h.keeps (h.cwd p)
  · exact fun _ _ => trivial
  · exact fun _ t ht _ => ht.clean
  intro i _ t _ _ hkept ht
  show wp _ (ilock sb i >>= _) _ t
  rw [wp_bind]
  apply wp_ilock ht List.mem_cons_self List.not_mem_nil fun _ => trivial
  intro _ u hu
  rw [wp_bind]
  apply wp_getInode hu List.mem_cons_self
  split
  · exact wp_fail hu hkept
  · apply wp_openInode hu h.files
    · exact fun _ v hv => wp_drop hv hkept fun w hw _ => hw.clean
    · exact fun _ fd _ _ _ _ _ _ heq => nomatch heq

/-- What `sys_open` leaves that makes a file. -/
theorem open_create (devsw : Devsw) (path : Path) (hcreate : omode &&& O_CREATE ≠ 0) :
    wp (fun _ => ¬ (Creates sb s p path ∧ NoDescriptor s p))
      (sys_open sb devsw p (some path) (some omode))
      (fun r t => (Creates sb s p path ∧ NoDescriptor s p → r = -1 ∧ ¬ Untouched sb s t) ∧
        (¬ (Creates sb s p path ∧ NoDescriptor s p) → r = -1 → Untouched sb s t)) s := by
  obtain ⟨R, hR⟩ : ∃ R : Int → Kernel P → Prop, R = fun r t =>
    (Creates sb s p path ∧ NoDescriptor s p → r = -1 ∧ ¬ Untouched sb s t) ∧
      (¬ (Creates sb s p path ∧ NoDescriptor s p) → r = -1 → Untouched sb s t) := ⟨_, rfl⟩
  rw [← hR]
  -- nothing is made
  have hclean : ∀ {r t}, ¬ Creates sb s p path → (r = -1 → Untouched sb s t) → R r t := by
    intro r t hno hres
    rw [hR]
    exact ⟨fun hall => absurd hall.1 hno, fun _ => hres⟩
  show wp _ (if omode &&& O_CREATE ≠ 0 then _ else _) _ s
  rw [if_pos hcreate, wp_bind, create_eq, wp_bind]
  apply wp_namex h.tree hsb.rootInum h.holds h.keeps (h.cwd p)
  · rintro e herr ⟨⟨dp, name, i, hlook, -⟩, -⟩
    rw [refWith_nil] at herr
    rw [herr] at hlook
    cases hlook
  · intro hnone t ht
    refine hclean ?_ fun _ => ht.clean
    rintro ⟨dp, name, i, hlook, -⟩
    rw [refWith_nil] at hnone
    rw [hnone] at hlook
    cases hlook
  intro dp name t hlook hname hkept ht
  rw [refWith_nil] at hlook
  have hlast := hname rfl
  have hdir := lookup_parent hlook
  have hrange := (ht.range dp List.mem_cons_self).2
  have hcreates : Creates sb s p path ↔ find (nameOf name) (sb.slots s.disk dp) 0 = none ∧
      HasRoom sb s.disk dp ∧
        ∃ i, freeInode sb s.disk = some i ∧ CanGet sb (s.refWith [dp]) i := by
    unfold Creates
    rw [hlook, hlast]
    constructor
    · rintro ⟨_, _, i, ⟨⟩, ⟨⟩, hfind, hroom, hfree, hcan⟩
      exact ⟨hfind, hroom, i, hfree, hcan⟩
    · rintro ⟨hfind, hroom, i, hfree, hcan⟩
      exact ⟨dp, _, i, rfl, rfl, hfind, hroom, hfree, hcan⟩
  apply wp_createAt h.tree ht hdir
  · rintro k ip hfind ⟨hmade, -⟩
    rw [(hcreates.mp hmade).1] at hfind
    cases hfind
  · intro k ip hfind u hu
    have hold : ¬ Creates sb s p path := by
      intro hmade
      rw [(hcreates.mp hmade).1] at hfind
      cases hfind
    have hkept' := h.keeps ip (named_of_found hrange hdir hfind)
    rw [wp_bind]
    apply wp_iunlockput hu List.mem_cons_self (off_one _) (hkept.cons ip)
    intro v hv
    apply wp_createFound hv fun hall => hold hall.1
    · intro _ w hw
      apply wp_openInode hw h.files
      · exact fun _ x hx => wp_drop hx hkept' fun y hy => hclean hold fun _ => hy.clean
      · exact fun _ fd _ _ _ _ _ _ => hclean hold fun heq => nomatch heq
    · exact fun w hw => wp_drop hw hkept' fun x hx => hclean hold fun _ => hx.clean
  intro hfind u hu
  apply wp_createNew hsb h.tree hu hdir hfind (show T_FILE ≠ 0 ∧ T_FILE < 65536 by decide)
  · rintro hnone ⟨hmade, -⟩
    obtain ⟨-, -, i, hfree, -⟩ := hcreates.mp hmade
    rw [hnone] at hfree
    cases hfree
  · rintro i hfree hfull ⟨hmade, -⟩
    obtain ⟨-, -, j, hfree', hcan⟩ := hcreates.mp hmade
    rw [hfree] at hfree'
    cases hfree'
    exact hfull hcan
  · rintro ⟨hfull, hlong⟩ ⟨hmade, -⟩
    rcases (hcreates.mp hmade).2.1 with hlt | ⟨hfit, -⟩
    · omega
    · omega
  · rintro (hty | hroom) ⟨hmade, -⟩
    · cases hty
    · exact hroom (hcreates.mp hmade).2.1
  intro i d v hfree hcan _ hroom hcreated hne hv
  have hroom' : HasRoom sb s.disk dp := hroom.resolve_left (by decide)
  have hmade := hcreates.mpr ⟨hfind, hroom', i, hfree, hcan⟩
  obtain ⟨hi, hzero⟩ := freeInode_some hfree
  -- the new inode is in use, and was free
  have hdirty : ∀ {t}, t.disk = d → ¬ Untouched sb s t := by
    intro t hdisk huntouched
    have hload := huntouched.load i hi.2
    rw [hdisk] at hload
    rw [← hload, hcreated.type] at hzero
    cases hzero
  have hkept' : Kept sb s d [] dp := by
    obtain ⟨htype, hlinks⟩ := hcreated.other dp hrange hne.symm
    unfold Kept
    rw [htype, hlinks (.inl (by decide))]
    exact hkept
  apply wp_iunlockput hv.swap (List.mem_cons_of_mem i List.mem_cons_self) (off_second hne)
    (hkept'.cons i)
  intro w hw
  apply wp_openInode hw h.files
  · intro hno x hx
    apply wp_drop hx
    · intro _ hlinks
      rw [hcreated.nlink] at hlinks
      cases hlinks
    · intro y hy
      rw [hR]
      exact ⟨fun _ => ⟨rfl, hdirty hy.disk⟩, fun hnot => absurd ⟨hmade, hno⟩ hnot⟩
  · intro hsome fd _ x _ _ _ _
    rw [hR]
    exact ⟨fun hall => absurd hall.2 hsome, fun _ heq => nomatch heq⟩

end Calls

theorem FailsCleanly.of_wp [DecidableEq P] {c : Call}
    (h : wp (fun _ => True) (c.run sb devsw p) (Clean sb s) s) : FailsCleanly sb devsw s p c :=
  fun _ hrun => wp_ok h hrun rfl

/-- A call that has not got its arguments. -/
theorem FailsCleanly.of_fail [DecidableEq P] {c : Call} (h : Quiet sb s)
    (hfail : c.run sb devsw p = pure (-1)) : FailsCleanly sb devsw s p c := by
  apply FailsCleanly.of_wp
  rw [hfail]
  exact fun _ => h.holds.clean

/-- The call returns -1 and has made a file. -/
theorem Leaves.not_clean [DecidableEq P] {c : Call} (hleaves : Leaves sb s p c)
    (hsb : Small sb) (h : Quiet sb s) (devsw : Devsw) : ¬ FailsCleanly sb devsw s p c := by
  unfold Leaves at hleaves
  split at hleaves
  · obtain ⟨hcreate, hmade⟩ := hleaves
    intro hclean
    rcases wp_cases (open_create hsb h devsw _ hcreate) with
      ⟨e, -, hno⟩ | ⟨r, t, hok, hres, -⟩
    · exact hno hmade
    · obtain ⟨rfl, hdirty⟩ := hres hmade
      exact hdirty (hclean t hok)
  · exact hleaves.elim

/-- Failed calls have no effect, but for a file that `open` has created. -/
theorem failed_calls [DecidableEq P] (sb : Superblock) (devsw : Devsw) (s : Kernel P) (p : P)
    (c : Call) (hsb : Small sb) (h : Quiet sb s) :
    FailsCleanly sb devsw s p c ↔ ¬ Leaves sb s p c := by
  rcases c with ⟨_ | path, _ | omode⟩ | ⟨_ | path⟩ | ⟨_ | path, _ | major, _ | minor⟩ |
    ⟨_ | old, _ | new⟩ | ⟨_ | path⟩ | ⟨_ | path⟩
  case open.some.some =>
    by_cases hcreate : omode &&& O_CREATE ≠ 0
    · constructor
      · exact fun hclean hleaves => hleaves.not_clean hsb h devsw hclean
      · intro hno t hok
        exact (wp_ok (open_create hsb h devsw path hcreate) hok).2
          (fun hall => hno ⟨hcreate, hall⟩) rfl
    · exact iff_of_true (.of_wp (open_clean hsb h path hcreate)) fun hleaves => hcreate hleaves.1
  case mkdir.some | mknod.some.some.some =>
    exact iff_of_true (.of_wp (make_clean hsb h path (by decide))) id
  case link.some.some => exact iff_of_true (.of_wp (link_clean hsb h old new)) id
  case unlink.some => exact iff_of_true (.of_wp (unlink_clean hsb h path)) id
  case chdir.some => exact iff_of_true (.of_wp (chdir_clean hsb h path)) id
  all_goals exact iff_of_true (.of_fail h rfl) id

/-- `a` -/
def smallFile : Path where
  bytes := [0x61]
  noZero := by decide

theorem smallFile_names : smallFile.names = [[0x61]] := by decide

theorem smallDisk_directory : (smallSuperblock.load smallDisk 1).type = T_DIR := by decide

theorem smallKernel_lookup {ref : Nat → Nat} (h : 0 < ref 1) :
    (smallKernel (fun _ => noFile) fun _ => none).lookup smallSuperblock smallDisk true ref ()
      smallFile = .ok (some 1) := by
  unfold Kernel.lookup
  rw [if_pos (.inl h), smallFile_names]
  exact walk_stop smallDisk_directory

theorem smallKernel_creates (file : Nat → File) (ofile : Nat → Option Nat) :
    Creates smallSuperblock (smallKernel file ofile) () smallFile := by
  have hlook : (smallKernel (fun _ => noFile) fun _ => none).lookup smallSuperblock smallDisk true
      (fun i => if i = 1 then 1 else 0) () smallFile = .ok (some 1) :=
    smallKernel_lookup (by decide)
  have hfree : freeInode smallSuperblock smallDisk = some 3 := by decide
  have hcan : CanGet smallSuperblock
      ((smallKernel (fun _ => noFile) fun _ => none).refWith [1]) 3 := by decide
  refine ⟨1, [0x61], 3, hlook, by rw [smallFile_names]; rfl, ?_, ?_, hfree, hcan⟩
  · show find _ (smallSuperblock.slots smallDisk 1) 0 = none
    rw [smallDisk_slots]
    rfl
  · right
    show _ ∧ _ ≤ smallSuperblock.freeCount smallDisk + _
    rw [smallDisk_free]
    show (smallSuperblock.load smallDisk 1).size + direntSize ≤ MAXFILE * BSIZE ∧
      slotsFor ((smallSuperblock.load smallDisk 1).size + direntSize) ≤
        254 + slotsFor (smallSuperblock.load smallDisk 1).size
    decide

/-- `open("a", O_CREATE)` fails for want of a file, and `a` is there afterwards. -/
theorem smallFile_remains : ¬ FailsCleanly smallSuperblock noDevices
    (smallKernel (fun _ => { noFile with ref := 1 }) fun _ => none) ()
    (.open (some smallFile) (some O_CREATE)) := by
  have hleaves : Leaves smallSuperblock
      (smallKernel (fun _ => { noFile with ref := 1 }) fun _ => none) ()
      (.open (some smallFile) (some O_CREATE)) :=
    ⟨by decide, smallKernel_creates _ _, .inl fun f _ => Nat.one_ne_zero⟩
  exact hleaves.not_clean smallSuperblock_small
    (smallKernel_quiet _ fun f hzero => nomatch hzero) noDevices

/-- `unlink("a")` does not find the file: it has locked the directory, and let it go. -/
theorem missingFile_clean :
    ∃ t, (Call.unlink (some smallFile)).run smallSuperblock noDevices ()
        (smallKernel (fun _ => noFile) fun _ => none) = .ok (-1, t) ∧
      Untouched smallSuperblock (smallKernel (fun _ => noFile) fun _ => none) t := by
  have hclean := (failed_calls smallSuperblock noDevices
    (smallKernel (fun _ => noFile) fun _ => none) () (.unlink (some smallFile))
    smallSuperblock_small (smallKernel_quiet _ fun _ _ => rfl)).mpr id
  have hreturns : ((Call.unlink (some smallFile)).run smallSuperblock noDevices ()
      (smallKernel (fun _ => noFile) fun _ => none)).toOption.map Prod.fst = some (-1) := by
    decide +kernel
  cases hrun : (Call.unlink (some smallFile)).run smallSuperblock noDevices ()
      (smallKernel (fun _ => noFile) fun _ => none) with
  | error e =>
      rw [hrun] at hreturns
      cases hreturns
  | ok x =>
      obtain ⟨r, t⟩ := x
      rw [hrun] at hreturns
      obtain rfl : r = -1 := Option.some.inj hreturns
      exact ⟨t, rfl, hclean t hrun⟩

end OsWork.Ports.FsCalls

import OsWork.Ports.FsReferences

/-!
# What a system call does to the inodes

Every call that comes back has one of a few effects on the inodes: it creates a
node, adds a link, removes one, gives up the last reference to an inode without
links, or leaves them alone.  The effects are stated on the map of the inodes,
with what the call has found out before (`Effect`).  The invariants of the file
system are then a matter of five cases.

## Main results

* `wp_call` — every call keeps the counts of references, and has such an effect.
-/

namespace OsWork.Ports.FsDirectories

open OsWork.Verified.Procedure
open Function (update)

/-! ## Changes of the inodes -/

/-- `create` of the inode `ip` with the name `name` in `dp`. -/
def created (f : Nat → Inode) (dp : Nat) (name : Name) (ip : Nat) (type : FileType) :
    Nat → Inode :=
  let dots : List Dirent := [{ inum := ip, name := dot }, { inum := dp, name := dotdot }]
  let d := f dp
  update
    (update f ip { type := type, nlink := 1, entries := if type = .dir then dots else [] }) dp
    { type := d.type
      nlink := if type = .dir then d.nlink + 1 else d.nlink
      entries := insertEntry d.entries { inum := ip, name := name } }

/-- `link` of the inode `ip` with the name `name` in `dp`. -/
def linked (f : Nat → Inode) (dp : Nat) (name : Name) (ip : Nat) : Nat → Inode :=
  let node := f ip
  let d := f dp
  update (update f ip { node with nlink := node.nlink + 1 }) dp
    { d with entries := insertEntry d.entries { inum := ip, name := name } }

/-- `unlink` of the entry at `off` in `dp`, which refers to `ip`, before `iput`. -/
def unlinked (f : Nat → Inode) (dp off ip : Nat) : Nat → Inode :=
  let node := f ip
  let d := f dp
  update
    (update f dp
      { d with
        entries := d.entries.set off { inum := 0, name := [] }
        nlink := if node.type = .dir then d.nlink - 1 else d.nlink })
    ip { node with nlink := node.nlink - 1 }

/-- The inodes after those in `F` have been freed. -/
def freeAll (f : Nat → Inode) (F : Nat → Prop) [DecidablePred F] : Nat → Inode :=
  fun i => if F i then (f i).freed else f i

theorem freeAll_pos {f : Nat → Inode} {F : Nat → Prop} [DecidablePred F] {i : Nat}
    (h : F i) : freeAll f F i = (f i).freed :=
  if_pos h

theorem freeAll_neg {f : Nat → Inode} {F : Nat → Prop} [DecidablePred F] {i : Nat}
    (h : ¬ F i) : freeAll f F i = f i :=
  if_neg h

/-- One inode is freed. -/
theorem update_freed (f : Nat → Inode) (i : Nat) :
    update f i (f i).freed = freeAll f fun k => k = i := by
  funext k
  by_cases heq : k = i
  · rw [heq, Function.update_self]
    exact (freeAll_pos (F := fun k => k = i) rfl).symm
  · rw [Function.update_of_ne heq]
    exact (freeAll_neg (F := fun k => k = i) heq).symm

variable {P : Type}

/-- The path of a call that creates a node, and the type of the node. -/
def Call.creates : Call P → Option (P × List Char × FileType)
  | .open p path omode _ => if omode &&& O_CREATE ≠ 0 then some (p, path, .file) else none
  | .mkdir p path => some (p, path, .dir)
  | .mknod p path => some (p, path, .dev)
  | _ => none

theorem creates_ne_free {c : Call P} {p : P} {path : List Char} {type : FileType}
    (h : c.creates = some (p, path, type)) : type ≠ .free := by
  cases c with
  | «open» p' path' omode hasFile =>
      simp only [Call.creates] at h
      split at h
      · cases h
        decide
      · cases h
  | mkdir p' path' =>
      cases h
      decide
  | mknod p' path' =>
      cases h
      decide
  | _ => cases h

/-- The reference that a call gives up. -/
def State.drops (s : State P) : Call P → Option Nat
  | .chdir p path =>
      match s.lookup false p path with
      | some (ip, _) => if (s.inode ip).type = .dir ∧ s.cwd p ≠ some ip then s.cwd p else none
      | none => none
  | .close p fd => s.ofile p fd
  | .exit p => s.cwd p
  | _ => none

/-- `s` and `t` have the same inodes. -/
structure SameInodes (s t : State P) : Prop where
  inode : t.inode = s.inode
  clock : t.clock = s.clock
  born : t.born = s.born

theorem Calm.sameInodes {s t : State P} (h : Calm s t) : SameInodes s t :=
  ⟨h.inode, h.clock, h.born⟩

/-- `create` has made the inode `ip`. -/
structure Made (ninodes : Nat) (s t : State P) (dp : Nat) (name : Name) (ip : Nat)
    (type : FileType) : Prop where
  inside : 1 ≤ ip ∧ ip < ninodes
  fresh : (s.inode ip).type = .free
  dir : (s.inode dp).type = .dir
  absent : (s.inode dp).find name = none
  inode : t.inode = created s.inode dp name ip type
  clock : t.clock = s.clock + 1
  born : t.born = update s.born ip s.clock

/-- What `unlink` has found: the entry at `off` in `dp`, which refers to `ip`. -/
structure Unlinks (s : State P) (p : P) (path : List Char) (dp off ip : Nat) : Prop where
  found : ∃ name, s.lookup true p path = some (dp, name) ∧ name ≠ dot ∧ name ≠ dotdot ∧
    (s.inode dp).find name = some (off, ip)
  other : ip ≠ dp
  linked : 1 ≤ (s.inode ip).nlink
  empty : (s.inode ip).type = .dir → (s.inode ip).isdirempty = true

variable [Fintype P]

/-- The effect of a call on the inodes. -/
inductive Effect (ninodes : Nat) (s : State P) : Call P → State P → Prop
  | same {c : Call P} {t : State P} (h : SameInodes s t) : Effect ninodes s c t
  | create {c : Call P} {t : State P} {p : P} {path : List Char} {type : FileType} {dp : Nat}
      {name : Name} {ip : Nat} (hc : c.creates = some (p, path, type))
      (hlookup : s.lookup true p path = some (dp, name))
      (h : Made ninodes s t dp name ip type) : Effect ninodes s c t
  | link {t : State P} {p : P} {old new : List Char} {name name' : Name} {dp ip : Nat}
      (hold : s.lookup false p old = some (ip, name')) (hfile : (s.inode ip).type ≠ .dir)
      (hused : (s.inode ip).type ≠ .free) (hnew : s.lookup true p new = some (dp, name))
      (hdir : (s.inode dp).type = .dir) (habsent : (s.inode dp).find name = none)
      (h : t.inode = linked s.inode dp name ip) (hclock : t.clock = s.clock)
      (hborn : t.born = s.born) : Effect ninodes s (.link p old new) t
  | unlink {t : State P} {p : P} {path : List Char} {dp off ip : Nat}
      (hfound : Unlinks s p path dp off ip)
      (h : t.inode = freeAll (unlinked s.inode dp off ip) fun i =>
        (i = dp ∨ i = ip) ∧ (unlinked s.inode dp off ip i).nlink = 0 ∧ s.holders i = 0)
      (hclock : t.clock = s.clock) (hborn : t.born = s.born) :
      Effect ninodes s (.unlink p path) t
  | free {c : Call P} {t : State P} {i : Nat} (hi : s.drops c = some i)
      (hlast : (s.inode i).nlink = 0 ∧ s.holders i = 1)
      (h : t.inode = update s.inode i (s.inode i).freed) (hclock : t.clock = s.clock)
      (hborn : t.born = s.born) : Effect ninodes s c t

/-! ## Creation -/

section Create

variable {E : Stop → Prop} (hE : ∀ e, e ≠ .ilockNoType → E e) {s t : State P} {T : List Nat}
  {ninodes dp ip : Nat} {type : FileType} {name : Name} {p : P} {path : List Char}
include hE

theorem wp_ialloc {R : Nat → State P → Prop} (h : Counts s T) (htype : type ≠ .free)
    (hQ : ∀ i t, 1 ≤ i ∧ i < ninodes → (s.inode i).type = .free →
      t.inode = update s.inode i { type := type, nlink := 0, entries := [] } →
      t.clock = s.clock + 1 → t.born = update s.born i s.clock → t.cwd = s.cwd →
      t.ofile = s.ofile → (∀ k, k ≠ i → t.valid k = s.valid k) → Counts t (i :: T) →
      R i t) :
    wp E (ialloc ninodes type) R s := by
  unfold ialloc
  rw [wp_bind, wp_get]
  split
  · exact hE _ (by decide)
  · rename_i i hfind
    have htest := List.find?_some hfind
    simp only [Bool.and_eq_true, decide_eq_true_eq, beq_iff_eq] at htest
    obtain ⟨hpos, hfree⟩ := htest
    have hlt : i < ninodes := List.mem_range.mp (List.mem_of_find?_eq_some hfind)
    let node : Inode := { type := type, nlink := 0, entries := [] }
    let s' : State P :=
      { s with
        inode := update s.inode i node
        clock := s.clock + 1
        born := update s.born i s.clock }
    have hset : Counts { s with inode := update s.inode i node } T :=
      h.setInode fun _ => htype
    have hcounts : Counts s' T := ⟨hset.refs, hset.loaded, hset.held⟩
    exact hQ i (s'.iget i) ⟨hpos, hlt⟩ hfree rfl rfl rfl rfl rfl (fun k hk => s'.iget_valid hk)
      (hcounts.iget i)

/-- What `createDots` leaves. -/
theorem wp_createDots {Q : Unit → State P → Prop} (h : Cache t T)
    (hip : (t.inode ip).entries = []) (hne : ip ≠ dp) (hipos : ip ≠ 0)
    (hdp : 0 ≤ (t.inode dp).nlink)
    (hQ : ∀ u, u.inode =
        update (update t.inode dp { t.inode dp with nlink := (t.inode dp).nlink + 1 }) ip
          { t.inode ip with entries :=
            [{ inum := ip, name := dot }, { inum := dp, name := dotdot }] } →
      u.clock = t.clock → u.born = t.born → u.cwd = t.cwd → u.ofile = t.ofile → Cache u T →
      Q () u) :
    wp E (createDots dp ip) Q t := by
  unfold createDots
  rw [wp_bind, wp_getInode, wp_bind, wp_setInode, wp_bind]
  let d := t.inode dp
  let t₁ : State P := { t with inode := update t.inode dp { d with nlink := d.nlink + 1 } }
  have hcache : Cache t₁ T := h.setInode (fun htype => htype) fun _ hzero => by
    have hzero : (t.inode dp).nlink + 1 = 0 := hzero
    omega
  have hcache₂ : Cache (t₁.addEntry ip dot ip) T := hcache.addEntry dot ip
  apply wp_dirlinkOrPanic hE hcache (by decide)
  intro _ _
  apply wp_dirlinkOrPanic hE hcache₂ (by decide)
  intro _ _
  apply hQ ((t₁.addEntry ip dot ip).addEntry ip dotdot dp) _ rfl rfl rfl rfl
    (hcache₂.addEntry dotdot dp)
  have hnode : t₁.inode ip = t.inode ip := Function.update_of_ne hne _ _
  have hfirst : insertEntry [] { inum := ip, name := dot } = [{ inum := ip, name := dot }] := rfl
  have hsecond : insertEntry [{ inum := ip, name := dot }] { inum := dp, name := dotdot } =
      [{ inum := ip, name := dot }, { inum := dp, name := dotdot }] := by
    simp [insertEntry, List.findIdx?_cons, hipos]
  simp only [State.addEntry, Function.update_self, Function.update_idem, hnode, hip, hfirst,
    hsecond]
  rfl

/-- What `createNew` leaves. -/
theorem wp_createNew {R : Option Nat → State P → Prop} (hcalm : Calm s t) (h : Cache t [dp])
    (hdir : (s.inode dp).type = .dir) (hfind : (s.inode dp).find name = none)
    (htype : type ≠ .free) (hlinks : 0 ≤ (s.inode dp).nlink)
    (hnew : ∀ ip u, Made ninodes s u dp name ip type → u.cwd = s.cwd → u.ofile = s.ofile →
      Cache u [ip] → R (some ip) u) :
    wp E (createNew ninodes dp name type) R t := by
  unfold createNew
  rw [wp_bind]
  apply wp_ialloc hE h.toCounts htype
  intro ip t₁ hin hfree hinode hclock hborn hcwd hofile hvalid hcounts
  rw [hcalm.inode] at hfree hinode
  have hne : ip ≠ dp := by
    rintro rfl
    rw [hfree] at hdir
    cases hdir
  rw [wp_bind]
  apply hcounts.wp_ilock hE List.mem_cons_self
  · intro hfree'
    rw [hinode, Function.update_self] at hfree'
    exact absurd hfree' htype
  · intro t₂ hcalm₂ hcounts₂ _ hmono hload _
    rw [wp_bind, wp_getInode, wp_bind, wp_setInode, wp_bind]
    let node : Inode := { type := type, nlink := 1, entries := [] }
    have hnode : (t₂.inode ip) = { type := type, nlink := 0, entries := [] } := by
      rw [hcalm₂.inode, hinode, Function.update_self]
    let t₃ : State P := { t₂ with inode := update t₂.inode ip node }
    have hinode₃ : t₃.inode = update s.inode ip node := by
      show update t₂.inode ip node = _
      rw [hcalm₂.inode, hinode, Function.update_idem]
    have hcache₃ : Cache t₃ [ip, dp] := by
      refine ⟨hcounts₂.setInode fun _ => htype, ?_⟩
      intro k hused hzero
      rw [hinode₃] at hused hzero
      by_cases heq : k = ip
      · rw [heq, Function.update_self] at hzero
        cases hzero
      · rw [Function.update_of_ne heq] at hused hzero
        rw [← hcalm.inode] at hused hzero
        obtain ⟨hpos, hvalid'⟩ := h.kept k hused hzero
        refine ⟨?_, hmono k ?_⟩
        · rw [State.holders_congr (t := t₃) (s := t) (hcalm₂.cwd.trans hcwd)
            (hcalm₂.ofile.trans hofile)]
          exact hpos
        · rw [hvalid k heq]
          exact hvalid'
    have hdp₃ : t₃.inode dp = s.inode dp := by
      rw [hinode₃, Function.update_of_ne (Ne.symm hne)]
    have finish : ∀ u, u.inode =
          update (update s.inode dp
            { s.inode dp with nlink := if type = .dir then (s.inode dp).nlink + 1
              else (s.inode dp).nlink }) ip
            { node with entries := if type = .dir then
              [{ inum := ip, name := dot }, { inum := dp, name := dotdot }] else [] } →
        u.clock = t₃.clock → u.born = t₃.born → u.cwd = t₃.cwd → u.ofile = t₃.ofile →
        Cache u [ip, dp] →
        wp E (dirlinkOrPanic .createDirlink dp name ip >>= fun _ => iunlockput dp >>= fun _ =>
          pure (some ip)) R u := by
      intro u hu hclock' hborn' hcwd' hofile' hcache
      rw [wp_bind]
      apply wp_dirlinkOrPanic hE hcache (by decide)
      intro _ _
      rw [wp_bind]
      apply wp_iunlockput hE (hcache.addEntry name ip).swap
      intro v hv hcache' _ _
      apply hnew ip v _ ((hv.cwd.trans hcwd').trans ((hcalm₂.cwd.trans hcwd).trans hcalm.cwd))
        ((hv.ofile.trans hofile').trans ((hcalm₂.ofile.trans hofile).trans hcalm.ofile)) hcache'
      exact
        { inside := hin
          fresh := hfree
          dir := hdir
          absent := hfind
          inode := by
            rw [hv.inode]
            show update u.inode dp _ = _
            rw [hu, Function.update_of_ne (Ne.symm hne), Function.update_self,
              Function.update_comm hne.symm, Function.update_idem]
            rfl
          clock := by
            rw [hv.clock]
            exact hclock'.trans (hcalm₂.clock.trans (hclock.trans (by rw [hcalm.clock])))
          born := by
            rw [hv.born]
            exact hborn'.trans (hcalm₂.born.trans (hborn.trans (by
              rw [hcalm.born, hcalm.clock]))) }
    rw [hnode]
    show wp E _ _ t₃
    split
    · rename_i hisdir
      apply wp_createDots hE hcache₃ _ hne (by omega) (by rw [hdp₃]; exact hlinks)
      · intro u hu hclock' hborn' hcwd' hofile' hcache
        apply finish u _ hclock' hborn' hcwd' hofile' hcache
        rw [hu, hinode₃, if_pos hisdir, if_pos hisdir]
        rw [Function.update_of_ne (Ne.symm hne), Function.update_self,
          Function.update_comm hne, Function.update_idem]
      · rw [hinode₃, Function.update_self]
    · rename_i hisdir
      apply finish t₃ _ rfl rfl rfl rfl hcache₃
      rw [hinode₃, if_neg hisdir, if_neg hisdir]
      rw [show ({ s.inode dp with nlink := (s.inode dp).nlink } : Inode) = s.inode dp from rfl,
        Function.update_eq_self]

/-- What `create` leaves. -/
theorem wp_create {R : Option Nat → State P → Prop} (h : Cache s [])
    (hroot : (s.inode ROOTINO).type ≠ .free)
    (hsafe : E .ilockNoType ∨ Pointed s.inode) (htype : type ≠ .free)
    (hlinks : ∀ i, (s.inode i).type ≠ .free → 0 ≤ (s.inode i).nlink)
    (hnone : ∀ t, Calm s t → Cache t [] → R none t)
    (hfound : ∀ ip t, Calm s t → Cache t [ip] → (s.inode ip).type ≠ .free → R (some ip) t)
    (hnew : ∀ ip dp name t, s.lookup true p path = some (dp, name) →
      Made ninodes s t dp name ip type → t.cwd = s.cwd → t.ofile = s.ofile → Cache t [ip] →
      R (some ip) t) :
    wp E (create ninodes p path type) R s := by
  unfold create
  rw [wp_bind]
  apply wp_namex hE h hroot hsafe
  · intro t hcalm hcache _
    exact hnone t hcalm hcache
  · intro dp name t hcalm hcache hlookup hused
    show wp E (ilock dp >>= fun _ => _) R t
    rw [wp_bind]
    apply wp_ilock hE hcache List.mem_cons_self
    · intro hfree
      rw [hcalm.inode] at hfree
      exact hused.resolve_right fun hne => hne hfree
    · intro t₁ hcalm₁ hcache₁ _ _ _ _
      have hcalm₁ := hcalm.trans hcalm₁
      rw [wp_bind]
      apply wp_dirlookup hE hcache₁
      · intro hdir hfind
        rw [hcalm₁.inode] at hdir hfind
        exact wp_createNew hE hcalm₁ hcache₁ hdir hfind htype (hlinks dp (by rw [hdir]; decide))
          fun ip t hmade hcwd hofile hcache => hnew ip dp name t hlookup hmade hcwd hofile hcache
      · intro off ip hdir hfind hcache₂
        rw [hcalm₁.inode] at hdir hfind
        show wp E (iunlockput dp >>= fun _ => _) R _
        rw [wp_bind]
        apply wp_iunlockput hE hcache₂.swap
        intro t₃ hcalm₃ hcache₃ _ _
        have hcalm₃ := (hcalm₁.trans (calm_iget t₁ ip)).trans hcalm₃
        rw [wp_bind]
        apply wp_ilock hE hcache₃ List.mem_cons_self
        · intro hfree
          rw [hcalm₃.inode] at hfree
          rcases hsafe with hE' | hsafe
          · exact hE'
          · exact absurd hfree
              (hsafe dp hdir _ (Inode.mem_of_find hfind) (Inode.find_some hfind).1)
        · intro t₄ hcalm₄ hcache₄ _ _ _ hused'
          rw [hcalm₃.inode] at hused'
          have hcalm₄ := hcalm₃.trans hcalm₄
          rw [wp_bind, wp_getInode]
          split
          · exact hfound ip t₄ hcalm₄ hcache₄ hused'
          · rw [wp_bind]
            apply wp_iunlockput hE hcache₄
            intro t₅ hcalm₅ hcache₅ _ _
            exact hnone t₅ (hcalm₄.trans hcalm₅) hcache₅

end Create

/-! ## The calls -/

/-- What a call starts from. -/
structure Ready (E : Stop → Prop) (s : State P) : Prop where
  cache : Cache s []
  root : (s.inode ROOTINO).type ≠ .free
  links : ∀ i, (s.inode i).type ≠ .free → 0 ≤ (s.inode i).nlink
  safe : E .ilockNoType ∨ Pointed s.inode

theorem holders_boot (image : Nat → Inode) (i : Nat) :
    (boot image : State P).holders i = if i = ROOTINO then Fintype.card P else 0 := by
  unfold State.holders
  have hofile : (Finset.univ.filter fun x : P × Fin NOFILE =>
      (boot image : State P).ofile x.1 x.2 = some i) = ∅ := by
    rw [Finset.filter_eq_empty_iff]
    intro _ _ heq
    cases heq
  rw [hofile, Finset.card_empty, Nat.add_zero]
  split
  · rename_i hi
    have hcwd : ∀ p : P, (boot image : State P).cwd p = some i := fun _ => by rw [hi]; rfl
    rw [Finset.filter_true_of_mem fun p _ => hcwd p, Finset.card_univ]
  · rename_i hi
    rw [Finset.card_eq_zero, Finset.filter_eq_empty_iff]
    intro _ _ heq
    exact hi (Option.some.inj heq).symm

theorem boot_cache {image : Nat → Inode} (hroot : (image ROOTINO).type ≠ .free)
    (hlinks : ∀ i, (image i).type ≠ .free → (image i).nlink ≠ 0) :
    Cache (boot image : State P) [] where
  refs := by
    intro i
    rw [holders_boot]
    rfl
  loaded := by
    intro i _ hvalid
    cases hvalid
  held := by
    intro i hi
    rw [holders_boot] at hi
    split at hi
    · rename_i heq
      rw [heq]
      exact hroot
    · omega
  kept := fun i hused hzero => absurd hzero (hlinks i hused)

/-- What a call leaves: the counts, and an effect. -/
def Done (ninodes : Nat) (s : State P) (c : Call P) (t : State P) : Prop :=
  Cache t [] ∧ Effect ninodes s c t

section Calls

variable {E : Stop → Prop} (hE : ∀ e, e ≠ .ilockNoType → E e) {s t : State P}
  {ninodes : Nat} {p : P}

theorem Done.same {c : Call P} (hcache : Cache t []) (h : Calm s t) : Done ninodes s c t :=
  ⟨hcache, .same h.sameInodes⟩

omit [Fintype P] in
/-- The current directory may be replaced before or after the old one is dropped. -/
theorem wp_iput_setCwd {i : Nat} {f : (P → Option Nat) → P → Option Nat}
    {Q : Unit → State P → Prop} (h : wp E (iput i) Q { t with cwd := f t.cwd }) :
    wp E (iput i) (fun _ u => Q () { u with cwd := f u.cwd }) t := by
  unfold FsDirectories.iput at h ⊢
  rw [wp_bind, wp_get] at h ⊢
  split
  · rename_i hlocked
    rw [if_pos hlocked] at h
    exact h
  · rename_i hlocked
    rw [if_neg hlocked] at h
    rw [wp_set] at h ⊢
    unfold State.iput at h ⊢
    by_cases hlast : t.lastRef i = true
    · rw [if_pos (show State.lastRef { t with cwd := f t.cwd } i = true from hlast)] at h
      rw [if_pos hlast]
      exact h
    · rw [if_neg (show ¬ State.lastRef { t with cwd := f t.cwd } i = true from hlast)] at h
      rw [if_neg hlast]
      exact h

include hE

/-- The last step of `close`, `exit` and `chdir`: the call has taken the reference
`i` over and drops it. -/
theorem wp_drop (c : Call P) (t : State P) {i : Nat} (h : Ready E s)
    (hsame : SameInodes s t) (hcounts : Counts t [i])
    (hvalid : ∀ k, (s.inode k).type ≠ .free → (s.inode k).nlink = 0 → t.valid k = true)
    (hold : 0 < s.holders i) (hholders : ∀ k, k ≠ i → s.holders k ≤ t.holders k)
    (hi : t.holders i = 0 → s.holders i = 1 ∧ s.drops c = some i) :
    wp E (iput i) (fun _ u => Done ninodes s c u) t := by
  apply hcounts.wp_iput hE List.not_mem_nil
  · intro hlinks
    rw [hsame.inode] at hlinks
    exact hvalid i (h.cache.held i hold) hlinks
  · intro k hk htype hlinks
    rw [hsame.inode] at htype hlinks
    have hpos := (h.cache.kept k htype hlinks).1
    have hle := hholders k hk
    exact ⟨by omega, hvalid k htype hlinks⟩
  · intro u hcache hinode hclock hborn _ _ _
    refine ⟨hcache, ?_⟩
    rw [hsame.inode] at hinode
    split at hinode
    · rename_i hlast
      obtain ⟨hone, hdrops⟩ := hi hlast.2
      exact .free hdrops ⟨hlast.1, hone⟩ hinode (hclock.trans hsame.clock)
        (hborn.trans hsame.born)
    · exact .same ⟨hinode, hclock.trans hsame.clock, hborn.trans hsame.born⟩

variable [DecidableEq P]

theorem wp_openInode {ip : Nat} {hasFile : Bool} {Q : Unit → State P → Prop}
    (h : Cache t [ip]) (hused : (t.inode ip).type ≠ .free)
    (hQ : ∀ u, SameInodes t u → Cache u [] → Q () u) :
    wp E (openInode p ip hasFile) Q t := by
  unfold openInode
  rw [wp_bind, wp_get]
  split
  · rename_i fd hfd
    have hnone : t.ofile p fd = none := by
      have htest := List.find?_some hfd
      simpa using htest
    rw [wp_bind]
    apply wp_iunlock hE h
    intro u hcalm hcache _ _
    rw [wp_modify]
    apply hQ
    · exact ⟨hcalm.inode, hcalm.clock, hcalm.born⟩
    · apply hcache.toFile
      · rw [hcalm.ofile]
        exact hnone
      · rw [hcalm.inode]
        exact hused
  · apply wp_iunlockput hE h
    intro u hcalm hcache _ _
    exact hQ u hcalm.sameInodes hcache

theorem wp_sys_open {path : List Char} {omode : Nat} {hasFile : Bool} (h : Ready E s) :
    wp E (sys_open ninodes p path omode hasFile)
      (fun _ t => Done ninodes s (.open p path omode hasFile) t) s := by
  unfold sys_open
  split
  · rename_i hcreate
    have hcall : (Call.open p path omode hasFile).creates = some (p, path, .file) := by
      simp only [Call.creates, if_pos hcreate]
    rw [wp_bind]
    apply wp_create hE h.cache h.root h.safe (by decide) h.links
    · exact fun t hcalm hcache => .same hcache hcalm
    · intro ip t hcalm hcache hused
      apply wp_openInode hE hcache (by rw [hcalm.inode]; exact hused)
      intro u hu hcache'
      exact ⟨hcache', .same ⟨hu.inode.trans hcalm.inode, hu.clock.trans hcalm.clock,
        hu.born.trans hcalm.born⟩⟩
    · intro ip dp name t hlookup hmade _ _ hcache
      apply wp_openInode hE hcache
      · rw [hmade.inode]
        have hne : ip ≠ dp := by
          rintro rfl
          exact absurd (hmade.fresh.symm.trans hmade.dir) (by decide)
        simp [created, Function.update_of_ne hne]
      · intro u hu hcache'
        refine ⟨hcache', .create hcall hlookup { hmade with
          inode := hu.inode.trans hmade.inode
          clock := hu.clock.trans hmade.clock
          born := hu.born.trans hmade.born }⟩
  · rw [wp_bind]
    apply wp_namex hE h.cache h.root h.safe
    · exact fun t hcalm hcache _ => .same hcache hcalm
    · intro ip name t hcalm hcache _ hused
      show wp E (ilock ip >>= fun _ => _) _ t
      rw [wp_bind]
      apply wp_ilock hE hcache List.mem_cons_self
      · intro hfree
        rw [hcalm.inode] at hfree
        exact hused.resolve_right fun hne => hne hfree
      · intro t₁ hcalm₁ hcache₁ _ _ _ hused₁
        have hcalm₁' := hcalm.trans hcalm₁
        rw [wp_bind, wp_getInode]
        split
        · apply wp_iunlockput hE hcache₁
          intro u hcalm₂ hcache₂ _ _
          exact .same hcache₂ (hcalm₁'.trans hcalm₂)
        · apply wp_openInode hE hcache₁ (by rw [hcalm₁.inode]; exact hused₁)
          intro u hu hcache'
          exact ⟨hcache', .same ⟨hu.inode.trans hcalm₁'.inode, hu.clock.trans hcalm₁'.clock,
            hu.born.trans hcalm₁'.born⟩⟩

omit [DecidableEq P] in
theorem wp_sys_make {path : List Char} {type : FileType} {c : Call P} (h : Ready E s)
    (htype : type ≠ .free) (hcall : c.creates = some (p, path, type)) :
    wp E (sys_make ninodes p path type) (fun _ t => Done ninodes s c t) s := by
  unfold sys_make
  rw [wp_bind]
  apply wp_create hE h.cache h.root h.safe htype h.links
  · exact fun t hcalm hcache => .same hcache hcalm
  · intro ip t hcalm hcache _
    apply wp_iunlockput hE hcache
    intro u hcalm' hcache' _ _
    exact .same hcache' (hcalm.trans hcalm')
  · intro ip dp name t hlookup hmade _ _ hcache
    apply wp_iunlockput hE hcache
    intro u hcalm hcache' _ _
    exact ⟨hcache', .create hcall hlookup { hmade with
      inode := hcalm.inode.trans hmade.inode
      clock := hcalm.clock.trans hmade.clock
      born := hcalm.born.trans hmade.born }⟩

theorem wp_sys_close {fd : Fin NOFILE} (h : Ready E s) :
    wp E (sys_close p fd) (fun _ t => Done ninodes s (.close p fd) t) s := by
  unfold sys_close
  rw [wp_bind, wp_get]
  split
  · exact .same h.cache (Calm.refl s)
  · rename_i i hfd
    rw [wp_bind, wp_set]
    obtain ⟨hcounts, hholders⟩ := h.cache.toCounts.ofFile hfd
    apply wp_drop hE (.close p fd) (s.setFd p fd none) h ⟨rfl, rfl, rfl⟩ hcounts
      (fun k htype hlinks => (h.cache.kept k htype hlinks).2) (State.holders_ofile hfd)
    · intro k hk
      have hk' := hholders k
      rw [if_neg (Ne.symm hk)] at hk'
      omega
    · intro hzero
      have hi := hholders i
      rw [if_pos rfl] at hi
      exact ⟨by omega, hfd⟩

theorem wp_exit (h : Ready E s) :
    wp E (FsDirectories.exit p) (fun _ t => Done ninodes s (.exit p) t) s := by
  unfold FsDirectories.exit
  rw [wp_bind, wp_get]
  split
  · exact .same h.cache (Calm.refl s)
  · rename_i i hcwd
    rw [wp_bind]
    obtain ⟨hcounts, hholders⟩ := h.cache.toCounts.ofCwd hcwd
    apply wp_iput_setCwd (f := fun cwd => update cwd p none)
      (Q := fun _ u => Done ninodes s (.exit p) u)
    apply wp_drop hE (.exit p) { s with cwd := update s.cwd p none } h ⟨rfl, rfl, rfl⟩ hcounts
      (fun k htype hlinks => (h.cache.kept k htype hlinks).2) (State.holders_cwd hcwd)
    · intro k hk
      have hk' := hholders k
      rw [if_neg (Ne.symm hk)] at hk'
      omega
    · intro hzero
      have hi := hholders i
      rw [if_pos rfl] at hi
      exact ⟨by omega, hcwd⟩

theorem wp_sys_chdir {path : List Char} (h : Ready E s) (hp : s.cwd p ≠ none) :
    wp E (sys_chdir p path) (fun _ t => Done ninodes s (.chdir p path) t) s := by
  unfold sys_chdir
  rw [wp_bind]
  apply wp_namex hE h.cache h.root h.safe
  · exact fun t hcalm hcache _ => .same hcache hcalm
  · intro ip name t hcalm hcache hlookup hused
    show wp E (ilock ip >>= fun _ => _) _ t
    rw [wp_bind]
    apply wp_ilock hE hcache List.mem_cons_self
    · intro hfree
      rw [hcalm.inode] at hfree
      exact hused.resolve_right fun hne => hne hfree
    · intro t₁ hcalm₁ hcache₁ _ hmono _ hused₁
      rw [hcalm.inode] at hused₁
      have hcalm₁' := hcalm.trans hcalm₁
      rw [wp_bind, wp_getInode]
      split
      · apply wp_iunlockput hE hcache₁
        intro u hcalm₂ hcache₂ _ _
        exact .same hcache₂ (hcalm₁'.trans hcalm₂)
      · rename_i hdir
        rw [hcalm₁'.inode, ne_eq, not_not] at hdir
        rw [wp_bind]
        apply wp_iunlock hE hcache₁
        intro t₂ hcalm₂ hcache₂ _ _
        have hcalm₂' := hcalm₁'.trans hcalm₂
        rw [wp_bind, wp_get]
        split
        · rename_i hcwd
          rw [hcalm₂'.cwd] at hcwd
          exact absurd hcwd hp
        · rename_i old hcwd
          obtain ⟨hcounts, hholders⟩ := hcache₂.toCounts.moveCwd hcwd
            (by rw [hcalm₂'.inode]; exact hused₁)
          rw [hcalm₂'.cwd] at hcwd
          rw [wp_bind]
          apply wp_iput_setCwd (f := fun cwd => update cwd p (some ip))
            (Q := fun _ u => Done ninodes s (.chdir p path) u)
          apply wp_drop hE (.chdir p path) { t₂ with cwd := update t₂.cwd p (some ip) } h
            ⟨hcalm₂'.inode, hcalm₂'.clock, hcalm₂'.born⟩ hcounts _ (State.holders_cwd hcwd)
          · intro k hk
            have hk' := hholders k
            rw [if_neg (Ne.symm hk), hcalm₂'.holders] at hk'
            omega
          · intro hzero
            have hi := hholders old
            rw [if_pos rfl, hcalm₂'.holders] at hi
            have hpos := State.holders_cwd hcwd
            have hne : ip ≠ old := by
              rintro rfl
              simp only [if_pos] at hi
              omega
            rw [if_neg hne] at hi
            refine ⟨by omega, ?_⟩
            have hother : s.cwd p ≠ some ip := by
              rw [hcwd]
              exact fun heq => hne (Option.some.inj heq).symm
            simp only [State.drops, hlookup]
            rw [if_pos ⟨hdir, hother⟩]
            exact hcwd
          · intro k htype hlinks
            rw [← hcalm₂'.inode] at htype hlinks
            exact (hcache₂.kept k htype hlinks).2

omit [DecidableEq P] in
/-- The error path of `sys_link` takes the new link back. -/
theorem wp_linkBad {c : Call P} {ip : Nat} (h : Ready E s)
    (hinode : t.inode =
      update s.inode ip { s.inode ip with nlink := (s.inode ip).nlink + 1 })
    (hcwd : t.cwd = s.cwd) (hofile : t.ofile = s.ofile) (hclock : t.clock = s.clock)
    (hborn : t.born = s.born) (hcache : Cache t [ip]) (hused : (s.inode ip).type ≠ .free) :
    wp E (linkBad ip) (fun _ u => Done ninodes s c u) t := by
  have hnode : t.inode ip = { s.inode ip with nlink := (s.inode ip).nlink + 1 } := by
    rw [hinode, Function.update_self]
  unfold linkBad
  rw [wp_bind]
  apply wp_ilock hE hcache List.mem_cons_self
  · intro hfree
    rw [hnode] at hfree
    exact absurd hfree hused
  · intro t₁ hcalm₁ hcache₁ _ _ hvalid _
    rw [wp_bind, wp_getInode, wp_bind, wp_setInode]
    let node : Inode := { t₁.inode ip with nlink := (t₁.inode ip).nlink - 1 }
    have hback : node = s.inode ip := by
      show ({ t₁.inode ip with nlink := (t₁.inode ip).nlink - 1 } : Inode) = _
      rw [hcalm₁.inode, hnode]
      simp
    have hholders : ∀ k, t₁.holders k = s.holders k :=
      State.holders_congr (hcalm₁.cwd.trans hcwd) (hcalm₁.ofile.trans hofile)
    have hcache₂ : Cache { t₁ with inode := update t₁.inode ip node } [ip] := by
      apply hcache₁.setInode
      · intro _
        rw [hback]
        exact hused
      · intro _ hzero
        rw [hback] at hzero
        rw [hholders]
        exact ⟨(h.cache.kept ip hused hzero).1, hvalid⟩
    apply wp_iunlockput hE hcache₂
    intro u hcalm hcache' _ _
    refine ⟨hcache', .same ⟨?_, ?_, ?_⟩⟩
    · rw [hcalm.inode]
      show update t₁.inode ip node = s.inode
      rw [hback, hcalm₁.inode, hinode, Function.update_idem, Function.update_eq_self]
    · exact hcalm.clock.trans (hcalm₁.clock.trans hclock)
    · exact hcalm.born.trans (hcalm₁.born.trans hborn)

omit [DecidableEq P] in
theorem wp_sys_link {old new : List Char} (h : Ready E s) :
    wp E (sys_link p old new) (fun _ t => Done ninodes s (.link p old new) t) s := by
  unfold sys_link
  rw [wp_bind]
  apply wp_namex hE h.cache h.root h.safe
  · exact fun t hcalm hcache _ => .same hcache hcalm
  · intro ip name' t hcalm hcache hold hused
    show wp E (ilock ip >>= fun _ => _) _ t
    rw [wp_bind]
    apply wp_ilock hE hcache List.mem_cons_self
    · intro hfree
      rw [hcalm.inode] at hfree
      exact hused.resolve_right fun hne => hne hfree
    · intro t₁ hcalm₁ hcache₁ _ _ _ hused₁
      rw [hcalm.inode] at hused₁
      have hcalm₁' := hcalm.trans hcalm₁
      rw [wp_bind, wp_getInode]
      split
      · apply wp_iunlockput hE hcache₁
        intro u hcalm₂ hcache₂ _ _
        exact .same hcache₂ (hcalm₁'.trans hcalm₂)
      · rename_i hfile
        rw [hcalm₁'.inode] at hfile
        rw [wp_bind, wp_setInode, wp_bind]
        let node : Inode := { s.inode ip with nlink := (s.inode ip).nlink + 1 }
        let t₂ : State P := { t₁ with inode := update s.inode ip node }
        have hlinks := h.links ip hused₁
        have hcache₂ : Cache t₂ [ip] := by
          have hset : Cache { t₁ with inode := update t₁.inode ip node } [ip] :=
            hcache₁.setInode (fun _ => hused₁) fun _ hzero => by
              have hzero : (s.inode ip).nlink + 1 = 0 := hzero
              omega
          rw [hcalm₁'.inode] at hset
          exact hset
        have hinode₂ : t₂.inode = update s.inode ip node := rfl
        have hsame : ∀ i, (t₂.inode i).type = (s.inode i).type ∧
            (t₂.inode i).entries = (s.inode i).entries := by
          intro i
          rw [hinode₂]
          by_cases heq : i = ip
          · rw [heq, Function.update_self]
            exact ⟨rfl, rfl⟩
          · rw [Function.update_of_ne heq]
            exact ⟨rfl, rfl⟩
        rw [hcalm₁'.inode]
        show wp E (iunlock ip) _ t₂
        apply wp_iunlock hE hcache₂
        intro t₃ hcalm₃ hcache₃ _ _
        have hlookup : t₃.lookup true p new = s.lookup true p new := by
          unfold State.lookup State.startOf
          rw [hcalm₃.cwd, hcalm₃.inode]
          show (if _ then _ else t₁.cwd p).bind _ = _
          rw [hcalm₁'.cwd]
          congr 1
          funext i
          exact resolve_congr hsame
        rw [wp_bind]
        apply wp_namex hE hcache₃
        · rw [hcalm₃.inode, (hsame ROOTINO).1]
          exact h.root
        · refine h.safe.imp_right ?_
          intro hpointed d hdir de hde hinum
          rw [hcalm₃.inode, (hsame _).1]
          rw [hcalm₃.inode, (hsame d).1] at hdir
          rw [hcalm₃.inode, (hsame d).2] at hde
          exact hpointed d hdir de hde hinum
        · intro t₄ hcalm₄ hcache₄ _
          have hcalm₄' := hcalm₃.trans hcalm₄
          exact wp_linkBad hE h (hcalm₄'.inode.trans hinode₂) (hcalm₄'.cwd.trans hcalm₁'.cwd)
            (hcalm₄'.ofile.trans hcalm₁'.ofile) (hcalm₄'.clock.trans hcalm₁'.clock)
            (hcalm₄'.born.trans hcalm₁'.born) hcache₄ hused₁
        · intro dp name t₄ hcalm₄ hcache₄ hnew hused₄
          rw [hlookup] at hnew
          have hcalm₄' := hcalm₃.trans hcalm₄
          show wp E (ilock dp >>= fun _ => _) _ t₄
          rw [wp_bind]
          apply wp_ilock hE hcache₄ List.mem_cons_self
          · intro hfree
            rw [hcalm₄.inode] at hfree
            exact hused₄.resolve_right fun hne => hne hfree
          · intro t₅ hcalm₅ hcache₅ _ _ _ _
            have hcalm₅' := hcalm₄'.trans hcalm₅
            have hinode₅ := hcalm₅'.inode.trans hinode₂
            rw [wp_bind]
            apply wp_dirlink hE hcache₅
            · intro hdir habsent
              rw [hcalm₅'.inode, (hsame dp).1] at hdir
              have hne : dp ≠ ip := by
                rintro rfl
                exact hfile hdir
              have hdp : t₅.inode dp = s.inode dp := by
                rw [hinode₅, Function.update_of_ne hne]
              rw [hdp] at habsent
              show wp E (iunlockput dp >>= fun _ => iput ip) _ _
              rw [wp_bind]
              apply wp_iunlockput hE (hcache₅.addEntry name ip)
              intro t₆ hcalm₆ hcache₆ _ _
              apply wp_iput hE hcache₆
              intro u hcalm₇ hcache₇ _ _
              have hcalm₇' := hcalm₆.trans hcalm₇
              refine ⟨hcache₇, .link hold hfile hused₁ hnew hdir habsent ?_ ?_ ?_⟩
              · rw [hcalm₇'.inode]
                show update t₅.inode dp { t₅.inode dp with entries := _ } = _
                rw [hdp, hinode₅]
                rfl
              · exact hcalm₇'.clock.trans (hcalm₅'.clock.trans hcalm₁'.clock)
              · exact hcalm₇'.born.trans (hcalm₅'.born.trans hcalm₁'.born)
            · intro t₆ _ hcalm₆ hcache₆
              show wp E (iunlockput dp >>= fun _ => linkBad ip) _ _
              rw [wp_bind]
              apply wp_iunlockput hE hcache₆
              intro t₇ hcalm₇ hcache₇ _ _
              have hcalm₇' := hcalm₅'.trans (hcalm₆.trans hcalm₇)
              exact wp_linkBad hE h (hcalm₇'.inode.trans hinode₂)
                (hcalm₇'.cwd.trans hcalm₁'.cwd) (hcalm₇'.ofile.trans hcalm₁'.ofile)
                (hcalm₇'.clock.trans hcalm₁'.clock) (hcalm₇'.born.trans hcalm₁'.born)
                hcache₇ hused₁

omit [DecidableEq P] in
/-- The end of `sys_unlink`: the entry is erased, the link counts are lowered and
the two references dropped, either of which may be the last one. -/
theorem wp_unlinkEntry {path : List Char} {dp off ip : Nat} (hcalm : Calm s t)
    (hcache : Cache t [ip, dp]) (hfound : Unlinks s p path dp off ip) (hvalid : t.valid dp = true)
    (hvalid' : t.valid ip = true) :
    wp E (do
        let d ← getInode dp
        setInode dp
          { d with
            entries := d.entries.set off { inum := 0, name := [] }
            nlink := if (s.inode ip).type = .dir then d.nlink - 1 else d.nlink }
        iunlockput dp
        let node ← getInode ip
        setInode ip { node with nlink := node.nlink - 1 }
        iunlockput ip)
      (fun _ u => Done ninodes s (.unlink p path) u) t := by
  let d : Inode :=
    { s.inode dp with
      entries := (s.inode dp).entries.set off { inum := 0, name := [] }
      nlink := if (s.inode ip).type = .dir then (s.inode dp).nlink - 1 else (s.inode dp).nlink }
  let node : Inode := { s.inode ip with nlink := (s.inode ip).nlink - 1 }
  let t₁ : State P := { t with inode := update s.inode dp d }
  have hother := hfound.other
  have hholders : ∀ u : State P, u.cwd = t.cwd → u.ofile = t.ofile →
      ∀ i, u.holders i = s.holders i := fun u hcwd hofile =>
    State.holders_congr (hcwd.trans hcalm.cwd) (hofile.trans hcalm.ofile)
  have hcounts : Counts t₁ [dp, ip] := by
    have hset : Counts { t with inode := update t.inode dp d } [ip, dp] :=
      hcache.toCounts.setInode fun htype => by
        rw [hcalm.inode] at htype
        exact htype
    rw [hcalm.inode] at hset
    exact hset.swap
  rw [wp_bind, wp_getInode, wp_bind, wp_setInode, wp_bind, hcalm.inode]
  show wp E (iunlockput dp) _ t₁
  apply hcounts.wp_iunlockput hE (by simpa using Ne.symm hother) fun _ => hvalid
  · intro k hk htype hlinks
    have hinode : t₁.inode k = t.inode k := by
      show update s.inode dp d k = _
      rw [Function.update_of_ne hk, hcalm.inode]
    rw [hinode] at htype hlinks
    exact hcache.kept k htype hlinks
  · intro v hcache₁ hinode₁ hclock₁ hborn₁ hcwd₁ hofile₁ hvalid₁
    have hdp : t₁.inode dp = d := Function.update_self _ _ _
    rw [hdp, hholders t₁ rfl rfl] at hinode₁
    have hinode₁ : v.inode =
        if d.nlink = 0 ∧ s.holders dp = 0 then update (update s.inode dp d) dp d.freed
        else update s.inode dp d := hinode₁
    have hnode : v.inode ip = s.inode ip := by
      rw [hinode₁]
      split
      · rw [Function.update_of_ne hother, Function.update_of_ne hother]
      · rw [Function.update_of_ne hother]
    rw [wp_bind, wp_getInode, wp_bind, wp_setInode, hnode]
    let w : State P := { v with inode := update v.inode ip node }
    have hcounts₂ : Counts w [ip] :=
      hcache₁.toCounts.setInode fun htype => by
        rw [hnode] at htype
        exact htype
    show wp E (iunlockput ip) _ w
    apply hcounts₂.wp_iunlockput hE List.not_mem_nil
    · intro _
      show v.valid ip = true
      rw [hvalid₁ ip hother]
      exact hvalid'
    · intro k hk htype hlinks
      have hinode : w.inode k = v.inode k := Function.update_of_ne hk _ _
      rw [hinode] at htype hlinks
      exact hcache₁.kept k htype hlinks
    · intro u hcache₂ hinode₂ hclock₂ hborn₂ _ _ _
      have hip : w.inode ip = node := Function.update_self _ _ _
      rw [hip, hholders w hcwd₁ hofile₁] at hinode₂
      have hinode₂ : u.inode = if node.nlink = 0 ∧ s.holders ip = 0 then
          update (update v.inode ip node) ip node.freed
        else update v.inode ip node := hinode₂
      refine ⟨hcache₂, .unlink hfound ?_ (hclock₂.trans (hclock₁.trans hcalm.clock))
        (hborn₂.trans (hborn₁.trans hcalm.born))⟩
      have hleftDp : unlinked s.inode dp off ip dp = d := by
        simp only [unlinked, Function.update_of_ne (Ne.symm hother), Function.update_self]
        rfl
      have hleftIp : unlinked s.inode dp off ip ip = node := by
        simp only [unlinked, Function.update_self]
        rfl
      funext k
      by_cases hkip : k = ip
      · rw [hkip, hinode₂]
        by_cases hlast : node.nlink = 0 ∧ s.holders ip = 0
        · rw [if_pos hlast, freeAll_pos ⟨.inr rfl, by rw [hleftIp]; exact hlast⟩, hleftIp,
            Function.update_self]
        · rw [if_neg hlast, freeAll_neg fun hF => hlast (hleftIp ▸ hF.2), hleftIp,
            Function.update_self]
      · have hv : u.inode k = v.inode k := by
          rw [hinode₂]
          split
          · rw [Function.update_of_ne hkip, Function.update_of_ne hkip]
          · rw [Function.update_of_ne hkip]
        rw [hv, hinode₁]
        by_cases hkdp : k = dp
        · rw [hkdp]
          by_cases hlast : d.nlink = 0 ∧ s.holders dp = 0
          · rw [if_pos hlast, freeAll_pos ⟨.inl rfl, by rw [hleftDp]; exact hlast⟩, hleftDp,
              Function.update_self]
          · rw [if_neg hlast, freeAll_neg fun hF => hlast (hleftDp ▸ hF.2), hleftDp,
              Function.update_self]
        · have hleft : unlinked s.inode dp off ip k = s.inode k := by
            simp only [unlinked, Function.update_of_ne hkip, Function.update_of_ne hkdp]
          rw [freeAll_neg fun hF => hF.1.elim hkdp hkip, hleft]
          split
          · rw [Function.update_of_ne hkdp, Function.update_of_ne hkdp]
          · rw [Function.update_of_ne hkdp]

omit [DecidableEq P] in
theorem wp_sys_unlink {path : List Char} (h : Ready E s) :
    wp E (sys_unlink p path) (fun _ t => Done ninodes s (.unlink p path) t) s := by
  unfold sys_unlink
  rw [wp_bind]
  apply wp_namex hE h.cache h.root h.safe
  · exact fun t hcalm hcache _ => .same hcache hcalm
  · intro dp name t hcalm hcache hlookup hused
    show wp E (ilock dp >>= fun _ => _) _ t
    rw [wp_bind]
    apply wp_ilock hE hcache List.mem_cons_self
    · intro hfree
      rw [hcalm.inode] at hfree
      exact hused.resolve_right fun hne => hne hfree
    · intro t₁ hcalm₁ hcache₁ hlocked₁ _ hvalid₁ _
      have hcalm₁' := hcalm.trans hcalm₁
      have hput : ∀ u, Calm s u → Cache u [dp] →
          wp E (iunlockput dp) (fun _ v => Done ninodes s (.unlink p path) v) u := by
        intro u hcalm₂ hcache₂
        apply wp_iunlockput hE hcache₂
        intro v hcalm₃ hcache₃ _ _
        exact .same hcache₃ (hcalm₂.trans hcalm₃)
      split
      · exact hput t₁ hcalm₁' hcache₁
      · rename_i hname
        rw [not_or] at hname
        rw [wp_bind]
        apply wp_dirlookup hE hcache₁
        · intro _ _
          exact hput t₁ hcalm₁' hcache₁
        · intro off ip hdir hfind hcache₂
          rw [hcalm₁'.inode] at hdir hfind
          have hcalm₂ := hcalm₁'.trans (calm_iget t₁ ip)
          show wp E (ilock ip >>= fun _ => _) _ (t₁.iget ip)
          rw [wp_bind]
          by_cases hother : ip = dp
          · apply wp_ilock_locked hE
            show t₁.locked ip = true
            rw [hlocked₁, hother, Function.update_self]
          apply wp_ilock hE hcache₂ List.mem_cons_self
          · intro hfree
            rw [hcalm₂.inode] at hfree
            rcases h.safe with hE' | hsafe
            · exact hE'
            · exact absurd hfree
                (hsafe dp hdir _ (Inode.mem_of_find hfind) (Inode.find_some hfind).1)
          · intro t₃ hcalm₃ hcache₃ _ hmono hvalid₃ _
            have hcalm₃' := hcalm₂.trans hcalm₃
            rw [wp_bind, wp_getInode, hcalm₃'.inode]
            split
            · exact hE _ (by decide)
            · rename_i hlinked
              split
              · rw [wp_bind]
                apply wp_iunlockput hE hcache₃
                intro u hcalm₄ hcache₄ _ _
                exact hput u (hcalm₃'.trans hcalm₄) hcache₄
              · rename_i hempty
                apply wp_unlinkEntry hE hcalm₃' hcache₃ _ _ hvalid₃
                · exact
                    { found := ⟨name, hlookup, hname.1, hname.2, hfind⟩
                      other := hother
                      linked := by omega
                      empty := by
                        intro hisdir
                        by_contra hne
                        exact hempty ⟨hisdir, by simpa using hne⟩ }
                · apply hmono
                  rw [t₁.iget_valid (Ne.symm hother)]
                  exact hvalid₁

/-- Every call keeps the counts of references, and has one of the effects. -/
theorem wp_call {c : Call P} (h : Ready E s) (henabled : c.enabled s = true) :
    wp E (c.code ninodes) (fun _ t => Done ninodes s c t) s := by
  cases c with
  | «open» p path omode hasFile => exact wp_sys_open hE h
  | mkdir p path | mknod p path => exact wp_sys_make hE h (by decide) rfl
  | link p old new => exact wp_sys_link hE h
  | unlink p path => exact wp_sys_unlink hE h
  | chdir p path =>
      apply wp_sys_chdir hE h
      intro hnone
      simp [Call.enabled, Call.caller, hnone] at henabled
  | close p fd => exact wp_sys_close hE h
  | exit p => exact wp_exit hE h

end Calls

variable [DecidableEq P] {s t : State P} {ninodes : Nat} {image : Nat → Inode} {c : Call P}

theorem step_done (h : Ready (fun _ => True) s)
    (hs : (fileSystem ninodes image).step s c = some t) : Done ninodes s c t := by
  simp only [fileSystem] at hs
  split at hs
  · rename_i henabled
    have hwp : wp _ (c.code ninodes) (fun _ u => Done ninodes s c u) s :=
      wp_call (fun _ _ => trivial) h henabled
    split at hs
    · rename_i u heq
      obtain rfl := Option.some.inj hs
      have hdone := wp_ok hwp heq
      exact hdone
    · cases hs
  · cases hs

theorem not_ilockNoType (h : Ready (· ≠ .ilockNoType) s) (henabled : c.enabled s = true) :
    c.code ninodes s ≠ .error .ilockNoType := by
  intro herror
  have hwp : wp _ (c.code ninodes) (fun _ u => Done ninodes s c u) s :=
    wp_call (fun _ hne => hne) h henabled
  exact wp_error hwp herror rfl

end OsWork.Ports.FsDirectories

import OsWork.Ports.FsCallRules

/-!
# Path resolution

`namei` and `nameiparent` in a quiescent state.  One loop serves both; they differ in where it
stops.

## Main results

* `namex_run` — what `namex` returns and holds.
* `path_resolution` — `namei` finds what `nameiparent` and one `dirlookup` more find.
-/

namespace OsWork.Ports.FsCalls

open OsWork.Verified.ByteWords OsWork.Verified.Procedure OsWork.Verified.Runs
  OsWork.Verified.SlotMap OsWork.Ports.FsLayout OsWork.Ports.FsDisk OsWork.Ports.FsPaths
open Function (update)

variable {P : Type} {sb : Superblock} {devsw : Devsw} {s t : Kernel P} {d : Disk}
  {ref : Nat → Nat} {i dp : Nat} {p : P} {path : Path} {name : Bytes} {parent : Bool}

/-- The inode that was looked for is the only one with a reference of the call. -/
abbrev Result (r : Option (Nat × Bytes)) : List Nat := (r.map Prod.fst).toList

/-- `namex` returns what `lookup` says, with the last component in `name`. -/
theorem namex_run (hsb : Small sb) (h : Quiet sb s) (devsw : Devsw) (parent : Bool) (p : P)
    (path : Path) (name : Bytes) :
    (∃ e, namex sb devsw parent p path name s = .error e ∧
      s.lookup sb s.disk parent s.ref p path = .error e) ∨
    ∃ r t, namex sb devsw parent p path name s = .ok (r, t) ∧
      s.lookup sb s.disk parent s.ref p path = .ok (r.map Prod.fst) ∧
      Holds sb s s.disk (Result r) [] t ∧
      ∀ j name', r = some (j, name') → parent = true →
        path.names.getLast? = some (nameOf name') := by
  apply wp_cases
  apply wp_namex h.tree hsb.rootInum h.holds h.keeps (h.cwd p)
  · exact fun e he => he
  · intro hnone t ht
    exact ⟨hnone, ht, nofun⟩
  · intro j name' t hsome hname _ ht
    refine ⟨hsome, ht, ?_⟩
    intro j' name'' heq
    simp only [Option.some.injEq, Prod.mk.injEq] at heq
    rw [← heq.2]
    exact hname

/-- One component more. -/
theorem walk_last : ∀ (names : List (List UInt8)) (ip : Nat), names ≠ [] →
    (walk sb d false ref ip names = .ok (some i) ↔
      ∃ dp name k, walk sb d true ref ip names = .ok (some dp) ∧ names.getLast? = some name ∧
        (sb.load d dp).type = T_DIR ∧ find name (sb.slots d dp) 0 = some (k, i) ∧
        CanGet sb (update ref dp (ref dp + 1)) i) := by
  intro names
  induction names with
  | nil => exact fun _ hne => absurd rfl hne
  | cons elem rest ih =>
      intro ip _
      by_cases hfree : (sb.load d ip).type = 0
      · rw [walk_free hfree, walk_free hfree]
        exact iff_of_false (by rintro ⟨⟩) (by rintro ⟨_, _, _, ⟨⟩, _⟩)
      by_cases hdir : (sb.load d ip).type = T_DIR
      swap
      · rw [walk_notDir hfree hdir, walk_notDir hfree hdir]
        exact iff_of_false (by rintro ⟨⟩) (by rintro ⟨_, _, _, ⟨⟩, _⟩)
      rw [walk_next hdir rfl]
      cases rest with
      | nil =>
          have hend : [elem].getLast? = some elem := rfl
          rw [walk_stop hdir, hend]
          constructor
          · intro heq
            cases hfind : find elem (sb.slots d ip) 0 with
            | none =>
                rw [hfind] at heq
                cases heq
            | some e =>
                rw [hfind] at heq
                simp only at heq
                split at heq
                · rename_i hcan
                  cases heq
                  exact ⟨ip, elem, e.1, rfl, rfl, hdir, hfind, hcan⟩
                · cases heq
          · rintro ⟨dp, name, k, heq, hname, -, hfind, hcan⟩
            cases heq
            obtain rfl := Option.some.inj hname
            rw [hfind]
            exact if_pos hcan
      | cons elem' rest =>
          rw [walk_next hdir rfl, List.getLast?_cons_cons]
          cases find elem (sb.slots d ip) 0 with
          | none => exact iff_of_false (by rintro ⟨⟩) (by rintro ⟨_, _, _, ⟨⟩, _⟩)
          | some e =>
              simp only
              split
              · exact ih e.2 (List.cons_ne_nil _ _)
              · exact iff_of_false (by rintro ⟨⟩) (by rintro ⟨_, _, _, ⟨⟩, _⟩)

/-- `ilock(dp)` and `dirlookup(dp, name)`. -/
def lockAndLookup (sb : Superblock) (devsw : Devsw) (dp : Nat) (name : Bytes) :
    Fs P (Option (Nat × Nat)) := do
  ilock sb dp
  dirlookup sb devsw dp name

/-- What they find in a directory. -/
theorem lockAndLookup_run (ht : Tree sb d) {s₀ : Kernel P} (h : Holds sb s₀ d [dp] [] s)
    (htype : (sb.load d dp).type = T_DIR) (devsw : Devsw) (name : Bytes) (i : Nat) :
    (∃ off u, lockAndLookup sb devsw dp name s = .ok (some (i, off), u)) ↔
      ∃ k, find (nameOf name) (sb.slots d dp) 0 = some (k, i) ∧
        CanGet sb (update s₀.ref dp (s₀.ref dp + 1)) i := by
  have href : s₀.refWith [dp] = update s₀.ref dp (s₀.ref dp + 1) := refWith_cons s₀ dp []
  have hrun : wp (fun e => e = .igetNoInodes ∧ ∃ k inum,
        find (nameOf name) (sb.slots d dp) 0 = some (k, inum) ∧
          ¬ CanGet sb (s₀.refWith [dp]) inum)
      (lockAndLookup sb devsw dp name : Fs P _)
      (fun r _ => r.map Prod.fst = (find (nameOf name) (sb.slots d dp) 0).map Prod.snd ∧
        ∀ x, r = some x → CanGet sb (s₀.refWith [dp]) x.1) s := by
    unfold lockAndLookup
    rw [wp_bind]
    apply wp_ilock h List.mem_cons_self List.not_mem_nil
    · intro hfree
      rw [htype] at hfree
      cases hfree
    · intro _ t ht'
      apply wp_dirlookup ht ht' List.mem_cons_self htype
      · intro hnone
        rw [hnone]
        exact ⟨rfl, nofun⟩
      · exact fun k inum hfind hfull => ⟨rfl, k, inum, hfind, hfull⟩
      · intro k inum hfind hcan u _
        rw [hfind]
        refine ⟨rfl, ?_⟩
        rintro x ⟨⟩
        exact hcan
  rw [← href]
  rcases wp_cases hrun with ⟨e, hstop, -, k, inum, hfind, hfull⟩ | ⟨r, u, hok, hres, hcan⟩
  · rw [hstop, hfind]
    refine iff_of_false (fun ⟨_, _, heq⟩ => nomatch heq) ?_
    rintro ⟨k', heq, hcan⟩
    cases heq
    exact hfull hcan
  · rw [hok]
    constructor
    · rintro ⟨off, u', heq⟩
      cases heq
      obtain ⟨⟨k, inum⟩, hfind, hinum⟩ := Option.map_eq_some_iff.mp hres.symm
      cases hinum
      exact ⟨k, hfind, hcan _ rfl⟩
    · rintro ⟨k, hfind, -⟩
      rw [hfind] at hres
      obtain ⟨⟨j, off⟩, rfl, hj⟩ := Option.map_eq_some_iff.mp hres
      cases hj
      exact ⟨off, u, rfl⟩

theorem namei_iff (hsb : Small sb) (h : Quiet sb s) (devsw : Devsw) (p : P) (path : Path)
    (i : Nat) : (∃ t, namei sb devsw p path s = .ok (some i, t)) ↔
      s.lookup sb s.disk false s.ref p path = .ok (some i) := by
  have hbind : ∀ x, namex sb devsw false p path zeroes s = x → namei sb devsw p path s =
      x.map fun rt => (rt.1.map Prod.fst, rt.2) := by
    rintro x rfl
    show (namex sb devsw false p path zeroes s >>= _) = _
    cases namex sb devsw false p path zeroes s <;> rfl
  rcases namex_run hsb h devsw false p path zeroes with ⟨e, hstop, he⟩ | ⟨r, t, hok, hr, -⟩
  · rw [hbind _ hstop, he]
    exact iff_of_false (by rintro ⟨_, ⟨⟩⟩) (by rintro ⟨⟩)
  · rw [hbind _ hok, hr]
    constructor
    · rintro ⟨t', heq⟩
      exact congrArg Except.ok (congrArg Prod.fst (Except.ok.inj heq))
    · intro heq
      refine ⟨t, ?_⟩
      show Except.ok (r.map Prod.fst, t) = _
      rw [Except.ok.inj heq]

/-- One component more, for `lookup`. -/
theorem lookup_last (hnames : path.names ≠ []) :
    s.lookup sb d false ref p path = .ok (some i) ↔
      ∃ dp name k, s.lookup sb d true ref p path = .ok (some dp) ∧
        path.names.getLast? = some name ∧ (sb.load d dp).type = T_DIR ∧
        find name (sb.slots d dp) 0 = some (k, i) ∧ CanGet sb (update ref dp (ref dp + 1)) i := by
  unfold Kernel.lookup
  split
  · exact walk_last path.names _ hnames
  · exact iff_of_false (by rintro ⟨⟩) (by rintro ⟨_, _, _, ⟨⟩, _⟩)

/-- Paths are resolved element by element. -/
theorem path_resolution (sb : Superblock) (devsw : Devsw) (s : Kernel P) (p : P) (path : Path)
    (hsb : Small sb) (h : Quiet sb s) :
    (∀ name, (elements path name).map nameOf =
      (runs (· == slash) path.bytes).map (List.take DIRSIZ)) ∧
    (path.names = [] → ∀ name,
      (∃ t, nameiparent sb devsw p path name s = .ok (none, t)) ∨
        nameiparent sb devsw p path name s = .error .igetNoInodes) ∧
    (path.names ≠ [] → ∀ name i,
      (∃ t, namei sb devsw p path s = .ok (some i, t)) ↔
        ∃ dp name' t off u, nameiparent sb devsw p path name s = .ok (some (dp, name'), t) ∧
          (sb.load s.disk dp).type = T_DIR ∧
          lockAndLookup sb devsw dp name' t = .ok (some (i, off), u)) ∧
    ∀ parent name r t, namex sb devsw parent p path name s = .ok (r, t) →
      (∀ i, t.ref i = s.ref i + if r.map Prod.fst = some i then 1 else 0) ∧
        ∀ i, t.locked i = false := by
  refine ⟨elements_names path, ?_, ?_, ?_⟩
  · intro hnames name
    have hlookup : s.lookup sb s.disk true s.ref p path = .ok none ∨
        s.lookup sb s.disk true s.ref p path = .error .igetNoInodes := by
      unfold Kernel.lookup
      split
      · rw [hnames]
        exact .inl rfl
      · exact .inr rfl
    rcases namex_run hsb h devsw true p path name with ⟨e, hstop, he⟩ | ⟨r, t, hok, hr, -⟩
    · right
      rcases hlookup with hnone | herr
      · rw [hnone] at he
        cases he
      · rw [herr] at he
        cases he
        exact hstop
    · left
      refine ⟨t, ?_⟩
      rcases hlookup with hnone | herr
      · rw [hnone] at hr
        cases r with
        | none => exact hok
        | some x => cases hr
      · rw [herr] at hr
        cases hr
  · intro hnames name i
    rw [namei_iff hsb h, lookup_last hnames]
    constructor
    · rintro ⟨dp, last, k, hparent, hlast, hdir, hfind, hcan⟩
      rcases namex_run hsb h devsw true p path name with ⟨e, -, he⟩ | ⟨r, t, hok, hr, ht, hname⟩
      · rw [hparent] at he
        cases he
      · rw [hparent] at hr
        obtain ⟨⟨dp', name'⟩, rfl, hdp⟩ := Option.map_eq_some_iff.mp (Except.ok.inj hr).symm
        obtain rfl : dp' = dp := hdp
        have hsame := hname dp' name' rfl rfl
        rw [hlast, Option.some.injEq] at hsame
        rw [hsame] at hfind
        obtain ⟨off, u, hrun⟩ :=
          (lockAndLookup_run h.tree ht hdir devsw name' i).mpr ⟨k, hfind, hcan⟩
        exact ⟨dp', name', t, off, u, hok, hdir, hrun⟩
    · rintro ⟨dp, name', t, off, u, hok, hdir, hrun⟩
      rcases namex_run hsb h devsw true p path name with
        ⟨e, hstop, -⟩ | ⟨r, t', hok', hr, ht, hname⟩
      · cases hok.symm.trans hstop
      · cases Except.ok.inj (hok.symm.trans hok')
        obtain ⟨k, hfind, hcan⟩ :=
          (lockAndLookup_run h.tree ht hdir devsw name' i).mp ⟨off, u, hrun⟩
        exact ⟨dp, nameOf name', k, hr, hname dp name' rfl rfl, hdir, hfind, hcan⟩
  · intro parent name r t hok
    rcases namex_run hsb h devsw parent p path name with ⟨e, hstop, -⟩ | ⟨r', t', hok', -, ht, -⟩
    · rw [hok] at hstop
      cases hstop
    · rw [hok] at hok'
      cases hok'
      constructor
      · intro i
        rw [ht.ref]
        unfold Kernel.refWith
        cases r with
        | none => rfl
        | some x =>
            show s.ref i + List.count i [x.1] = _
            rw [List.count_singleton]
            simp
      · intro i
        rw [Bool.eq_false_iff]
        intro hlocked
        exact absurd ((ht.locked i).mp hlocked) List.not_mem_nil

end OsWork.Ports.FsCalls

import OsWork.Ports.FsCallFailures
import OsWork.Ports.FsNamei
import OsWork.Ports.FsTruncate

/-!
# Full directories

The calls that add an entry to a directory.  `dirlink` panics when the `writei` of the entry fails,
and `writei` fails at the maximal size of a file: a full directory stops the kernel.  As long as no
call is to add an entry to a full directory, no call stops in `dirlink` or `create`.

## Main results

* `create_adds`, `link_adds` — the calls that add an entry come back just if there is room for it.
* `full_directories` — a full directory is an error in those runs that meet none.
-/

namespace OsWork.Ports.FsCalls

open OsWork.Verified.ByteWords OsWork.Verified.Procedure OsWork.Verified.SlotMap
  OsWork.Ports.FsLayout OsWork.Ports.FsDisk OsWork.Ports.FsPaths
open Function (update)

variable {P : Type} {sb : Superblock} {devsw : Devsw} {s₀ s t : Kernel P} {d d' : Disk}
  {T L : List Nat} {ref : Nat → Nat} {i ip dp ty major minor omode : Nat} {name : Bytes} {p : P}
  {path : Path} {c : Call} {e : Stop} {E : Stop → Prop}

/-- The panics of `dirlink`, and those of `create` on its result. -/
def Crash (e : Stop) : Prop :=
  e = .disk .dirlink ∨ e = .disk .dirlinkRead ∨ e = .createDirlink ∨ e = .createDots

instance (e : Stop) : Decidable (Crash e) := inferInstanceAs (Decidable (_ ∨ _))

/-- `link`, `mkdir`, `mknod`, and `open` with `O_CREATE`. -/
def Call.Adds : Call → Prop
  | .open _ (some omode) => omode &&& O_CREATE ≠ 0
  | .open _ none | .mkdir _ | .mknod _ _ _ | .link _ _ => True
  | .unlink _ | .chdir _ => False

/-- The name is not in its directory, which is full. -/
def NoSpace (sb : Superblock) (s : Kernel P) (ref : Nat → Nat) (p : P) (path : Path) : Prop :=
  ∃ dp name, s.lookup sb s.disk true ref p path = .ok (some dp) ∧
    path.names.getLast? = some name ∧ find name (sb.slots s.disk dp) 0 = none ∧
    AtLimit sb s.disk dp

/-- The entry that the call is to add does not fit. -/
def Full (sb : Superblock) (s : Kernel P) (p : P) : Call → Prop
  | .open (some path) (some omode) => omode &&& O_CREATE ≠ 0 ∧ NoSpace sb s s.ref p path
  | .mkdir (some path) | .mknod (some path) (some _) (some _) => NoSpace sb s s.ref p path
  | .link (some old) (some new) =>
      ∃ ip, s.lookup sb s.disk false s.ref p old = .ok (some ip) ∧
        (sb.load s.disk ip).type ≠ T_DIR ∧ (sb.load s.disk ip).type ≠ 0 ∧
        NoSpace sb s (s.refWith [ip]) p new
  | _ => False

/-- No panic, and a full directory is an error. -/
def FullIsError [DecidableEq P] (sb : Superblock) (devsw : Devsw) (s : Kernel P) (p : P)
    (c : Call) : Prop :=
  (∀ e, c.run sb devsw p s = .error e → ¬ Crash e) ∧
    (Full sb s p c → ∃ t, c.run sb devsw p s = .ok (-1, t) ∧ Untouched sb s t)

/-- `A` holds of each of the calls that are made one after the other, in its state, up to one that
does not come back. -/
def Along [DecidableEq P] (sb : Superblock) (devsw : Devsw) (A : Kernel P → P → Call → Prop) :
    Kernel P → List (P × Call) → Prop
  | _, [] => True
  | s, (p, c) :: calls =>
      A s p c ∧ ∀ r t, c.run sb devsw p s = .ok (r, t) → Along sb devsw A t calls

/-! ## Runs of calls -/

/-- Two properties that agree in the states of a run. -/
theorem Along.congr [DecidableEq P] {A B : Kernel P → P → Call → Prop} (I : Kernel P → Prop)
    (C : Call → Prop)
    (hstep : ∀ s p c r t, I s → C c → c.run sb devsw p s = .ok (r, t) → I t)
    (hiff : ∀ s p c, I s → C c → (A s p c ↔ B s p c)) :
    ∀ (calls : List (P × Call)) (s : Kernel P), I s → (∀ x, x ∈ calls → C x.2) →
      (Along sb devsw A s calls ↔ Along sb devsw B s calls) := by
  intro calls
  induction calls with
  | nil => exact fun _ _ _ => Iff.rfl
  | cons x calls ih =>
      obtain ⟨p, c⟩ := x
      intro s hs hcalls
      have hc := hcalls (p, c) List.mem_cons_self
      have hrest : ∀ x, x ∈ calls → C x.2 := fun x hx => hcalls x (List.mem_cons_of_mem _ hx)
      have hnext : ∀ r t, c.run sb devsw p s = .ok (r, t) →
          (Along sb devsw A t calls ↔ Along sb devsw B t calls) :=
        fun r t hrun => ih t (hstep s p c r t hs hc hrun) hrest
      exact and_congr (hiff s p c hs hc)
        ⟨fun h r t hrun => (hnext r t hrun).mp (h r t hrun),
          fun h r t hrun => (hnext r t hrun).mpr (h r t hrun)⟩

/-! ## Parts of the calls -/

theorem walk_error : ∀ (names : List (List UInt8)) (parent : Bool) (ip : Nat),
    walk sb d parent ref ip names = .error e → ¬ Crash e := by
  intro names parent
  induction names with
  | nil => exact fun _ heq => nomatch heq
  | cons elem rest ih =>
      intro ip heq
      unfold walk at heq
      split at heq
      · cases heq
        decide
      · split at heq
        · cases heq
        · split at heq
          · cases heq
          · split at heq
            · cases heq
            · split at heq
              · exact ih _ heq
              · cases heq
                decide

theorem lookup_error {parent : Bool} (h : s.lookup sb d parent ref p path = .error e) :
    ¬ Crash e := by
  unfold Kernel.lookup at h
  split at h
  · exact walk_error _ _ _ h
  · cases h
    decide

/-- The call is over. -/
theorem Valid.quiet (h : Valid sb s₀ d T [] t)
    (hcwd : ∀ p, Inum sb (s₀.cwd p) ∧ 0 < s₀.ref (s₀.cwd p))
    (hfiles : ∀ f, (s₀.file f).ref = 0 → (s₀.file f).type = .none) : Quiet sb t where
  tree := by
    rw [h.disk]
    exact h.tree
  unlocked i := by
    rw [Bool.eq_false_iff]
    exact fun hlocked => absurd ((h.locked i).mp hlocked) List.not_mem_nil
  loaded := by
    rw [h.disk]
    exact h.loaded
  cwd q := by
    rw [h.cwd, h.ref]
    exact ⟨(hcwd q).1, Nat.lt_of_lt_of_le (hcwd q).2 (Nat.le_add_right _ _)⟩
  keeps := by
    intro i hnamed
    have hkept := h.keeps i (h.disk ▸ hnamed)
    unfold Kept at *
    rw [refWith_nil, h.disk, h.ref]
    exact hkept
  files f := by
    rw [h.file]
    exact hfiles f

/-- The new inode has a link, and the directory a reference. -/
theorem Created.keeps (h : Created sb d dp i ty d') (hsb : Small sb) (ht : Tree sb d)
    (hkeeps : Keeps sb s₀ d []) : Keeps sb s₀ d' [dp, i] := by
  intro j hnamed
  by_cases hj : j ∈ [dp, i]
  · exact fun _ _ => refWith_pos hj
  · simp only [List.mem_cons, List.not_mem_nil, or_false, not_or] at hj
    have hold : Named sb d j := by
      rcases h.named j hnamed with hold | rfl | rfl
      · exact hold
      · exact absurd rfl hj.2
      · exact absurd rfl hj.1
    obtain ⟨htype, hlinks⟩ := h.other j (ht.named hsb hold).2 hj.2
    have hkept := ((hkeeps j hold).cons i).cons dp
    unfold Kept at *
    rwa [htype, hlinks (.inr hj.1)]

theorem walk_congr (ht : Tree sb d) {parent : Bool} (hsame : ∀ j, j < sb.ninodes →
    (sb.load d' j).type = (sb.load d j).type ∧ sb.slots d' j = sb.slots d j) :
    ∀ (names : List (List UInt8)) (ip : Nat), Inum sb ip →
      walk sb d' parent ref ip names = walk sb d parent ref ip names := by
  intro names
  induction names with
  | nil => exact fun _ _ => rfl
  | cons elem rest ih =>
      intro ip hip
      obtain ⟨htype, hslots⟩ := hsame ip hip.2
      unfold walk
      rw [htype, hslots]
      split
      · rfl
      · split
        · rfl
        · rename_i hdir
          split
          · rfl
          · cases hfind : find elem (sb.slots d ip) 0 with
            | none => rfl
            | some x =>
                have hnext := ht.found hip.2 (not_not.mp hdir) hfind
                simp only [ih x.2 hnext]

theorem lookup_congr (hsb : Small sb) (ht : Tree sb d) {parent : Bool}
    (hcwd : Inum sb (s.cwd p)) (hsame : ∀ j, j < sb.ninodes →
      (sb.load d' j).type = (sb.load d j).type ∧ sb.slots d' j = sb.slots d j) :
    s.lookup sb d' parent ref p path = s.lookup sb d parent ref p path := by
  have hstart : Inum sb (s.start p path) := by
    unfold Kernel.start
    split
    · exact hsb.rootInum
    · exact hcwd
  unfold Kernel.lookup
  rw [walk_congr ht hsame _ _ hstart]

theorem Keeps.same (h : Keeps sb s₀ d T) (hsb : Small sb) (ht : Tree sb d')
    (hload : ∀ j, j < sb.ninodes → sb.load d' j = sb.load d j)
    (hcontents : ∀ j, j < sb.ninodes → sb.contents d' j = sb.contents d j) :
    Keeps sb s₀ d' T := by
  intro j hnamed
  have hold : Named sb d j := by
    rcases hnamed with hroot | ⟨dp, k, key, hdp, hdir, hslot⟩
    · exact .inl hroot
    · have hslots : sb.slots d' dp = sb.slots d dp := congrArg slotsOf (hcontents dp hdp)
      rw [hload dp hdp] at hdir
      rw [hslots] at hslot
      exact .inr ⟨dp, k, key, hdp, hdir, hslot⟩
  have hkept := h j hold
  unfold Kept at *
  rwa [hload j (ht.named hsb hnamed).2]

/-! ## The reference of `sys_link` -/

/-- The reference to `ip` is one of the state, and a copy of it in memory is to stay. -/
def Kernel.hold (s : Kernel P) (ip : Nat) : Kernel P :=
  { s with ref := s.refWith [ip], valid := fun j => j == ip }

/-- No copy in memory is to stay. -/
def Kernel.forget (s : Kernel P) : Kernel P := { s with valid := fun _ => false }

theorem Holds.hold (h : Holds sb s₀ d [ip] [] t) (hvalid : t.valid ip = true) :
    Holds sb (s₀.hold ip) d [] [] t :=
  { h with
    held := fun _ hj => absurd hj List.not_mem_nil
    range := fun _ hj => absurd hj List.not_mem_nil
    stay := by
      intro j _ hj
      rw [eq_of_beq hj]
      exact hvalid }

theorem Holds.release (h : Holds sb (s₀.hold ip) d [] [] t) (hip : Inum sb ip) :
    Holds sb s₀.forget d [ip] [] t ∧ t.valid ip = true := by
  have hpos : 0 < (s₀.hold ip).ref ip := refWith_pos List.mem_cons_self
  refine ⟨?_, h.stay ip hpos (beq_self_eq_true ip)⟩
  exact
    { h with
      held := fun _ hj => absurd hj List.not_mem_nil
      range := by
        intro j hj
        rw [List.mem_singleton.mp hj]
        exact hip
      stay := fun _ _ hj => nomatch hj }

/-! ## `create` -/

section Calls

variable (hsb : Small sb) (h : Quiet sb s)

include hsb h

/-- `create` comes back just if there is room for the name. -/
theorem create_adds {R : Option Nat → Kernel P → Prop} (hty : ty ≠ 0 ∧ ty < 65536)
    (hE : ∀ e, (Crash e → NoSpace sb s s.ref p path) → E e)
    (hnone : ¬ NoSpace sb s s.ref p path → ∀ d t, Valid sb s d [] [] t → R none t)
    (hsome : ¬ NoSpace sb s s.ref p path → ∀ i d t, Valid sb s d [i] [i] t → R (some i) t) :
    wp E (create sb devsw p path ty major minor) R s := by
  have hnot : ∀ e, ¬ Crash e → E e := fun e hno => hE e fun hcrash => absurd hcrash hno
  have hbfree : E .bfree := hnot _ (by decide)
  rw [create_eq, wp_bind]
  apply wp_namex h.tree hsb.rootInum h.holds h.keeps (h.cwd p)
  · exact fun e herr => hnot e (lookup_error herr)
  · intro hlook t ht
    refine hnone ?_ s.disk t ⟨ht, h.tree, h.keeps⟩
    rintro ⟨dp, key, hlook', -⟩
    rw [refWith_nil, hlook'] at hlook
    cases hlook
  intro dp name t hlook hname _ ht
  rw [refWith_nil] at hlook
  have hdir := lookup_parent hlook
  have hlast := hname rfl
  have hspace : NoSpace sb s s.ref p path ↔
      find (nameOf name) (sb.slots s.disk dp) 0 = none ∧ AtLimit sb s.disk dp := by
    unfold NoSpace
    rw [hlook, hlast]
    constructor
    · rintro ⟨_, _, ⟨⟩, ⟨⟩, hall⟩
      exact hall
    · exact fun hall => ⟨dp, _, rfl, rfl, hall⟩
  apply wp_createAt h.tree ht hdir
  · exact fun _ _ _ => hnot _ (by decide)
  · intro k ip hfind u hu
    have hroom : ¬ NoSpace sb s s.ref p path := by
      rw [hspace, hfind]
      exact fun hall => nomatch hall.1
    rw [wp_bind]
    apply wp_iunlockput_any hsb ⟨hu, h.tree, (h.keeps.cons ip).cons dp⟩ List.mem_cons_self
      (off_one _) hbfree
    intro d v _ hv
    apply wp_createFound hv.toHolds (hnot _ (by decide))
    · exact fun _ w hw => hsome hroom ip d w ⟨hw, hv.tree, hv.keeps⟩
    · intro w hw
      apply wp_iunlockput_any hsb ⟨hw, hv.tree, hv.keeps⟩ List.mem_cons_self (off_one _)
        hbfree
      exact fun d' x _ hx => hnone hroom d' x hx
  · intro hfind u hu
    apply wp_createNew hsb h.tree hu hdir hfind hty
    · exact fun _ => hnot _ (by decide)
    · exact fun _ _ _ => hnot _ (by decide)
    · exact fun hlimit => hE _ fun _ => hspace.mpr ⟨hfind, hlimit⟩
    · exact fun _ => hnot _ (by decide)
    intro i d v _ _ hlimit _ hcreated hne hv
    have hroom : ¬ NoSpace sb s s.ref p path := fun hall => hlimit (hspace.mp hall).2
    apply wp_iunlockput_any hsb ⟨hv.swap, hcreated.tree, hcreated.keeps hsb h.tree h.keeps⟩
      (List.mem_cons_of_mem i List.mem_cons_self) (off_second hne) hbfree
    exact fun d' w _ hw => hsome hroom i d' w hw

/-- `sys_mkdir` and `sys_mknod`. -/
theorem make_adds (hty : ty ≠ 0 ∧ ty < 65536) :
    wp (fun e => Crash e → NoSpace sb s s.ref p path)
      (sys_make sb devsw p path ty major minor)
      (fun _ t => ¬ NoSpace sb s s.ref p path ∧ Quiet sb t) s := by
  unfold sys_make
  rw [wp_bind]
  apply create_adds hsb h hty
  · exact fun _ he => he
  · exact fun hroom d t ht => ⟨hroom, ht.quiet h.cwd h.files⟩
  · intro hroom i d t ht
    show wp _ (iunlockput sb i >>= fun _ => pure 0) _ t
    rw [wp_bind]
    apply wp_iunlockput_any hsb ht List.mem_cons_self (off_one _)
    · exact fun hcrash => absurd hcrash (by decide)
    · exact fun d' u _ hu => ⟨hroom, hu.quiet h.cwd h.files⟩

theorem open_adds [DecidableEq P] (hcreate : omode &&& O_CREATE ≠ 0) :
    wp (fun e => Crash e → NoSpace sb s s.ref p path)
      (sys_open sb devsw p (some path) (some omode))
      (fun _ t => ¬ NoSpace sb s s.ref p path ∧ Quiet sb t) s := by
  show wp _ (if omode &&& O_CREATE ≠ 0 then _ else _) _ s
  rw [if_pos hcreate, wp_bind]
  apply create_adds hsb h (show T_FILE ≠ 0 ∧ T_FILE < 65536 by decide)
  · exact fun _ he => he
  · exact fun hroom d t ht => ⟨hroom, ht.quiet h.cwd h.files⟩
  · intro hroom i d t ht
    apply wp_openInode ht.toHolds h.files
    · intro _ u hu
      apply wp_iunlockput_any hsb ⟨hu, ht.tree, ht.keeps⟩ List.mem_cons_self (off_one _)
      · exact fun hcrash => absurd hcrash (by decide)
      · exact fun d' v _ hv => ⟨hroom, hv.quiet h.cwd h.files⟩
    · intro _ fd s₁ u href hcwd hfiles hu
      have hkeeps : Keeps sb s₁ d [i] := by
        have hkeeps := ht.keeps
        unfold Keeps Kept Kernel.refWith at *
        rwa [href]
      have hvalid : Valid sb s₁ d [i] [] u := ⟨hu, ht.tree, hkeeps⟩
      refine ⟨hroom, hvalid.quiet ?_ hfiles⟩
      rw [hcwd, href]
      exact h.cwd

/-- `sys_link` comes back just if there is room for the name. -/
theorem link_adds (old new : Path) :
    wp (fun e => Crash e → Full sb s p (.link (some old) (some new)))
      (sys_link sb devsw p (some old) (some new))
      (fun _ t => ¬ Full sb s p (.link (some old) (some new)) ∧ Quiet sb t) s := by
  have hnot : ∀ {e}, ¬ Crash e → Crash e → Full sb s p (.link (some old) (some new)) :=
    fun hno hcrash => absurd hcrash hno
  have hdone : ∀ {d t}, ¬ Full sb s p (.link (some old) (some new)) →
      Valid sb s.forget d [] [] t →
        ¬ Full sb s p (.link (some old) (some new)) ∧ Quiet sb t :=
    fun hroom ht => ⟨hroom, ht.quiet h.cwd h.files⟩
  have hend : ∀ {d t}, ¬ Full sb s p (.link (some old) (some new)) →
      Valid sb s d [] [] t → ¬ Full sb s p (.link (some old) (some new)) ∧ Quiet sb t :=
    fun hroom ht => ⟨hroom, ht.quiet h.cwd h.files⟩
  unfold sys_link namei
  rw [wp_bind, wp_bind]
  apply wp_namex h.tree hsb.rootInum h.holds h.keeps (h.cwd p)
  · exact fun e herr => hnot (lookup_error herr)
  · intro hlook t ht
    refine hend ?_ ⟨ht, h.tree, h.keeps⟩
    rintro ⟨ip, hlook', -⟩
    rw [refWith_nil, hlook'] at hlook
    cases hlook
  intro ip _ t hlook _ hkept ht
  rw [refWith_nil] at hlook
  have hip := ht.range ip List.mem_cons_self
  show wp _ (ilock sb ip >>= _) _ t
  rw [wp_bind]
  apply wp_ilock ht List.mem_cons_self List.not_mem_nil fun _ => hnot (by decide)
  intro htype u hu
  rw [wp_bind]
  apply wp_getInode hu List.mem_cons_self
  split
  · rename_i hdir
    rw [wp_bind]
    apply wp_iunlockput_any hsb ⟨hu, h.tree, h.keeps.cons ip⟩ List.mem_cons_self (off_one _)
      (hnot (by decide))
    intro d v _ hv
    refine hend ?_ hv
    rintro ⟨ip', hlook', hfile, -⟩
    rw [hlook] at hlook'
    cases hlook'
    exact hfile hdir
  rename_i hfile
  have hspace : Full sb s p (.link (some old) (some new)) ↔
      NoSpace sb s (s.refWith [ip]) p new := by
    constructor
    · rintro ⟨ip', hlook', -, -, hall⟩
      rw [hlook] at hlook'
      cases hlook'
      exact hall
    · exact fun hall => ⟨ip, hlook, hfile, htype, hall⟩
  rw [wp_bind]
  apply wp_addLinks hsb h.tree hu List.mem_cons_self
  intro d v htree hset hsame hv
  have hvalid := hv.ready ip List.mem_cons_self
  rw [wp_bind]
  apply wp_iunlock hv List.mem_cons_self (off_one _)
  intro w hw' hw
  -- from here on the reference to `ip` belongs to the state
  have hw₁ : Holds sb (s.hold ip) d [] [] w := hw.hold (by rw [hw']; exact hvalid)
  have hkeeps : Keeps sb (s.hold ip) d [] := h.keeps.count hset rfl
  have hslots : ∀ j, j < sb.ninodes →
      (sb.load d j).type = (sb.load s.disk j).type ∧ sb.slots d j = sb.slots s.disk j := by
    intro j hj
    refine ⟨?_, congrArg slotsOf (hsame j hj)⟩
    by_cases hji : j = ip
    · rw [hji, hset.load]
    · rw [hset.other j hji]
  have hcwd : Inum sb (s.cwd p) ∧ 0 < (s.hold ip).ref (s.cwd p) :=
    ⟨(h.cwd p).1, Nat.lt_of_lt_of_le (h.cwd p).2 (Nat.le_add_right _ _)⟩
  have hnew : (s.hold ip).lookup sb d true ((s.hold ip).refWith []) p new =
      s.lookup sb s.disk true (s.refWith [ip]) p new := lookup_congr hsb h.tree (h.cwd p).1 hslots
  have hbad : ¬ Full sb s p (.link (some old) (some new)) → ∀ x,
      Holds sb (s.hold ip) d [] [] x →
        wp (fun e => Crash e → Full sb s p (.link (some old) (some new))) (linkBad sb ip)
          (fun _ t => ¬ Full sb s p (.link (some old) (some new)) ∧ Quiet sb t) x := by
    intro hroom x hx
    have hkept₁ : Kept sb s.forget s.disk [] ip := hkept
    apply wp_linkBad hsb htree hset hsame hkept₁ (hx.release hip).1 (hnot (by decide))
    intro d' y htree' hload hcontents hy
    exact hdone hroom ⟨hy, htree', h.keeps.same hsb htree' hload hcontents⟩
  rw [wp_bind]
  apply wp_namex htree hsb.rootInum hw₁ hkeeps hcwd
  · exact fun e herr => hnot (lookup_error herr)
  · intro hlook' x hx
    apply hbad _ x hx
    rw [hspace]
    rintro ⟨dp, key, hlook'', -⟩
    rw [hnew, hlook''] at hlook'
    cases hlook'
  intro dp name x hlook' hname hkept' hx
  have hdir := lookup_parent hlook'
  have hrange := (hx.range dp List.mem_cons_self).2
  have hlast := hname rfl
  rw [hnew] at hlook'
  have hfull : NoSpace sb s (s.refWith [ip]) p new ↔
      find (nameOf name) (sb.slots d dp) 0 = none ∧ AtLimit sb d dp := by
    have hsize : (sb.load d dp).size = (sb.load s.disk dp).size := by
      have hlen := congrArg List.length (hsame dp hrange)
      rwa [contents_length, contents_length] at hlen
    unfold NoSpace AtLimit
    rw [hlook', hlast, (hslots dp hrange).2, hsize]
    constructor
    · rintro ⟨_, _, ⟨⟩, ⟨⟩, hall⟩
      exact hall
    · exact fun hall => ⟨dp, _, rfl, rfl, hall⟩
  show wp _ (ilock sb dp >>= _) _ x
  rw [wp_bind]
  apply wp_ilock hx List.mem_cons_self List.not_mem_nil fun _ => hnot (by decide)
  intro _ y hy
  rw [wp_bind]
  cases hfind : find (nameOf name) (sb.slots d dp) 0 with
  | none =>
      apply wp_dirlink_absent hsb htree hy List.mem_cons_self hdir hip hfind
      · exact fun hlimit _ => hspace.mpr (hfull.mpr ⟨hfind, hlimit⟩)
      · exact fun _ => hnot (by decide)
      intro hroom d₂ z hlinked hz
      have hnotFull : ¬ Full sb s p (.link (some old) (some new)) := by
        rw [hspace, hfull]
        rintro ⟨-, hall, hlong⟩
        rcases hroom with hlt | ⟨hfit, -⟩
        · omega
        · omega
      obtain ⟨data, hwrote⟩ := hlinked.wrote
      have hkeeps₂ : Keeps sb (s.hold ip) d₂ [dp] := by
        intro j hnamed
        rcases hlinked.named hdir hnamed with hold | rfl
        · have hkept₂ := (hkeeps j hold).cons dp
          unfold Kept at *
          by_cases hj : j = dp
          · rw [hj, hwrote.fields]
            rw [hj] at hkept₂
            exact hkept₂
          · rwa [(hwrote.other j (htree.named hsb hold).2 hj).1]
        · exact (kept_of_ref (refWith_pos List.mem_cons_self)).cons dp
      show wp _ (iunlockput sb dp >>= fun _ => iput sb ip >>= fun _ => pure 0) _ z
      rw [wp_bind]
      apply wp_iunlockput_any hsb ⟨hz, hlinked.tree, hkeeps₂⟩ List.mem_cons_self (off_one _)
        (hnot (by decide))
      intro d₃ a _ ha
      obtain ⟨ha', havalid⟩ := ha.toHolds.release hip
      rw [wp_bind]
      apply wp_iput_any hsb ⟨ha', ha.tree, ha.keeps⟩ List.not_mem_nil havalid (hnot (by decide))
      exact fun d₄ b _ hb => hdone hnotFull hb
  | some e =>
      have hnotFull : ¬ Full sb s p (.link (some old) (some new)) := by
        rw [hspace, hfull, hfind]
        exact fun hall => nomatch hall.1
      apply wp_dirlink_taken htree hy List.mem_cons_self hdir hfind (hnot (by decide))
        (hnot (by decide))
      intro hmem z hz
      apply wp_iput hz hmem ((hkeeps e.2 (named_of_found hrange hdir hfind)).cons dp)
      intro a ha
      show wp _ (iunlockput sb dp >>= fun _ => linkBad sb ip) _ a
      rw [wp_bind]
      apply wp_iunlockput ha List.mem_cons_self (off_one _) hkept'
      exact fun b hb => hbad hnotFull b hb

end Calls

/-! ## The calls -/

/-- A call that adds an entry comes back just if there is room for it. -/
theorem call_adds [DecidableEq P] (hsb : Small sb) (h : Quiet sb s) (devsw : Devsw) (p : P)
    (hadds : c.Adds) :
    wp (fun e => Crash e → Full sb s p c) (c.run sb devsw p)
      (fun _ t => ¬ Full sb s p c ∧ Quiet sb t) s := by
  rcases c with ⟨_ | path, _ | omode⟩ | ⟨_ | path⟩ | ⟨_ | path, _ | major, _ | minor⟩ |
    ⟨_ | old, _ | new⟩ | path | path
  case open.some.some =>
    apply wp_mono (open_adds hsb h hadds)
    · exact fun e he hcrash => ⟨hadds, he hcrash⟩
    · exact fun _ t ht => ⟨fun hfull => ht.1 hfull.2, ht.2⟩
  case mkdir.some | mknod.some.some.some => exact make_adds hsb h (by decide)
  case link.some.some => exact link_adds hsb h old new
  case unlink => exact hadds.elim
  case chdir => exact hadds.elim
  all_goals exact ⟨id, h⟩

theorem fullIsError_iff [DecidableEq P] (hsb : Small sb) (h : Quiet sb s) (hadds : c.Adds) :
    FullIsError sb devsw s p c ↔ ¬ Full sb s p c := by
  have hrun := call_adds hsb h devsw p hadds
  constructor
  · rintro ⟨-, herror⟩ hfull
    obtain ⟨t, hok, -⟩ := herror hfull
    exact (wp_ok hrun hok).1 hfull
  · intro hroom
    exact ⟨fun e herr hcrash => hroom (wp_error hrun herr hcrash), fun hfull => absurd hfull hroom⟩

/-- A full directory is an error, and no panic, in those runs that meet none. -/
theorem full_directories [DecidableEq P] (sb : Superblock) (devsw : Devsw) (s : Kernel P)
    (calls : List (P × Call)) (hsb : Small sb) (h : Quiet sb s)
    (hadds : ∀ x, x ∈ calls → x.2.Adds) :
    Along sb devsw (FullIsError sb devsw) s calls ↔
      Along sb devsw (fun t p c => ¬ Full sb t p c) s calls :=
  Along.congr (Quiet sb) Call.Adds
    (fun _ _ _ _ _ hs hc hrun => (wp_ok (call_adds hsb hs devsw _ hc) hrun).2)
    (fun _ _ _ hs hc => fullIsError_iff hsb hs hc) calls s h hadds

/-- A file is made in the empty directory. -/
theorem smallKernel_adds : Along smallSuperblock noDevices (FullIsError smallSuperblock noDevices)
    (smallKernel (fun _ => noFile) fun _ => none)
    [((), .open (some smallFile) (some O_CREATE))] := by
  refine (full_directories _ _ _ _ smallSuperblock_small (smallKernel_quiet _ fun _ _ => rfl)
    ?_).mpr ⟨?_, fun _ _ _ => trivial⟩
  · intro x hx
    rw [List.mem_singleton.mp hx]
    exact show O_CREATE &&& O_CREATE ≠ 0 by decide
  · rintro ⟨-, dp, name, hlook, -, -, -, hlong⟩
    have hroot : (smallKernel (fun _ => noFile) fun _ => none).lookup smallSuperblock smallDisk true
        (fun i => if i = 1 then 1 else 0) () smallFile = .ok (some 1) :=
      smallKernel_lookup (by decide)
    cases hroot.symm.trans hlook
    have hsize := (smallDisk_load (i := 1) (by decide)).1
    have hlong : MAXFILE * BSIZE < (smallSuperblock.load smallDisk 1).size + direntSize := hlong
    rw [hsize] at hlong
    exact absurd hlong (by decide)

/-! ## A full directory -/

/-- `.`, `..`, and names of two bytes. -/
def fullName (k : Nat) : Bytes :=
  if k = 0 then dot
  else if k = 1 then dotdot
  else bytesOf [UInt8.ofNat (128 + k / 64), UInt8.ofNat (128 + k % 64)]

/-- The first two entries name the directory, the others the file. -/
def fullInum (k : Nat) : Nat := if k < 2 then 1 else 2

def fullRoot : Inode where
  type := T_DIR
  major := 0
  minor := 0
  nlink := 1
  size := MAXFILE * BSIZE
  addrs := fun k => if k ≤ NDIRECT then 2 + k else 0

def fullFile : Inode where
  type := T_FILE
  major := 0
  minor := 0
  nlink := 4478
  size := 0
  addrs := fun _ => 0

/-- Block 1 is the bit map, block 14 the indirect block, and the entries are in the blocks around
it, up to block 142. -/
def fullBlocks : Disk := fun x j =>
  if x = 1 then if j < 17 then 255 else if j = 17 then 127 else 0
  else if x = 14 then if j % 4 = 0 then UInt8.ofNat (15 + j / 4) else 0
  else if 2 ≤ x ∧ x ≤ 142 then
    let k := 32 * (if x < 14 then x - 2 else x - 3) + j / 16
    dirent (fullName k) (fullInum k) (j % 16)
  else 0

/-- The root directory has as many entries as fit into a file. -/
def fullDisk : Disk :=
  smallSuperblock.iupdate (smallSuperblock.iupdate fullBlocks 1 fullRoot) 2 fullFile

theorem fullRoot_ok : fullRoot.Ok where
  type := show 1 < 65536 by decide
  major := show 0 < 65536 by decide
  minor := show 0 < 65536 by decide
  nlink := show 1 < 65536 by decide
  size := show MAXFILE * BSIZE < 4294967296 by decide
  addrs k := by
    show (if k ≤ NDIRECT then 2 + k else 0) < 4294967296
    unfold NDIRECT
    split <;> omega
  none k hk := if_neg (Nat.not_le_of_lt hk)

theorem fullFile_ok : fullFile.Ok where
  type := show 2 < 65536 by decide
  major := show 0 < 65536 by decide
  minor := show 0 < 65536 by decide
  nlink := show 4478 < 65536 by decide
  size := show 0 < 4294967296 by decide
  addrs _ := show 0 < 4294967296 by decide
  none _ _ := rfl

theorem fullDisk_root : smallSuperblock.load fullDisk 1 = fullRoot := by
  unfold fullDisk
  rw [load_iupdate_ne (by decide), load_iupdate fullRoot_ok]

theorem fullDisk_file : smallSuperblock.load fullDisk 2 = fullFile := load_iupdate fullFile_ok

theorem fullDisk_block {x : Nat} (hx : x ≠ 0) : fullDisk x = fullBlocks x := by
  unfold fullDisk
  rw [iupdate_of_ne hx, iupdate_of_ne hx]

/-- The other inodes are free. -/
theorem fullDisk_other (hi : i < 8) (hroot : i ≠ 1) :
    (smallSuperblock.load fullDisk i).size = 0 ∧
      (∀ k, (smallSuperblock.load fullDisk i).addrs k = 0) ∧
      (smallSuperblock.load fullDisk i).type ≠ T_DIR ∧
      ((smallSuperblock.load fullDisk i).type ≠ 0 → i = 2) := by
  by_cases hfile : i = 2
  · rw [hfile, fullDisk_file]
    exact ⟨rfl, fun _ => rfl, by decide, fun _ => rfl⟩
  · have hblock : smallSuperblock.IBLOCK i = 0 := by
      show i / 8 + 0 = 0
      omega
    have hload : smallSuperblock.load fullDisk i = .get (fun _ => 0) (i % IPB * dinodeSize) := by
      unfold fullDisk
      rw [load_iupdate_ne hfile, load_iupdate_ne hroot]
      unfold Superblock.load
      rw [hblock]
      rfl
    rw [hload]
    refine ⟨rfl, fun k => ?_, by show (0 : Nat) ≠ 1; decide, fun hne => absurd rfl hne⟩
    show (if k ≤ NDIRECT then 0 else 0) = 0
    split <;> rfl

theorem fullBlocks_entry (j : Nat) (hj : j < 128) : u32 (fullBlocks 14) (4 * j) = 15 + j := by
  have hlow : fullBlocks 14 (4 * j) = UInt8.ofNat (15 + j) := by
    show (if 4 * j % 4 = 0 then UInt8.ofNat (15 + 4 * j / 4) else 0) = _
    rw [Nat.mul_mod_right, if_pos rfl, Nat.mul_div_cancel_left _ (by decide)]
  have hhigh : ∀ o, o % 4 ≠ 0 → fullBlocks 14 o = 0 := fun o ho => if_neg ho
  unfold u32 u16
  rw [hlow, hhigh _ (by omega), hhigh _ (by omega), hhigh _ (by omega),
    UInt8.toNat_ofNat_of_lt' (show 15 + j < 256 by omega)]
  rfl

theorem fullDisk_ref {k : Nat} (hk : k < maxSlots) :
    refAt (smallSuperblock.addrsOn fullDisk) fullDisk 1 k = 2 + k := by
  have haddr : ∀ j, j ≤ NDIRECT → smallSuperblock.addrsOn fullDisk 1 j = 2 + j := by
    intro j hj
    unfold Superblock.addrsOn
    rw [fullDisk_root]
    exact if_pos hj
  by_cases hdirect : k ≤ NDIRECT
  · rw [refAt_addr hdirect, haddr k hdirect]
  · have hind : smallSuperblock.addrsOn fullDisk 1 NDIRECT = 14 := haddr NDIRECT (Nat.le_refl _)
    rw [refAt_entry (Nat.lt_of_not_le hdirect) (by rw [hind]; decide), hind,
      fullDisk_block (by decide), fullBlocks_entry]
    · unfold NDIRECT at hdirect
      omega
    · unfold maxSlots NINDIRECT at hk
      omega

theorem fullDisk_bits : ∀ b, b < 143 → smallSuperblock.bit fullDisk b = true := by
  decide +kernel

theorem fullDisk_consistent : Consistent smallSuperblock fullDisk where
  metas b hb := fullDisk_bits b (Nat.lt_of_lt_of_le hb (by decide))
  refs := by
    have hother : ∀ i k, i < 8 → i ≠ 1 →
        refAt (smallSuperblock.addrsOn fullDisk) fullDisk i k = 0 := by
      intro i k hi hroot
      have haddr : ∀ j, smallSuperblock.addrsOn fullDisk i j = 0 :=
        (fullDisk_other hi hroot).2.1
      by_cases hk : k ≤ NDIRECT
      · rw [refAt_addr hk, haddr]
      · rw [refAt_none (Nat.lt_of_not_le hk) (haddr NDIRECT)]
    have hroot : ∀ i k, i < 8 →
        refAt (smallSuperblock.addrsOn fullDisk) fullDisk i k ≠ 0 → i = 1 := by
      intro i k hi hne
      by_contra hroot
      exact hne (hother i k hi hroot)
    exact
      { inUse := by
          intro i k hi hk hne
          obtain rfl := hroot i k hi hne
          rw [fullDisk_ref hk]
          have hlt : k < 141 := hk
          exact ⟨Nat.le_add_right _ _, show 2 + k < 256 by omega, fullDisk_bits _ (by omega)⟩
        inj := by
          intro i j k l hi hj hk hl hne heq
          obtain rfl := hroot i k hi hne
          obtain rfl := hroot j l hj (heq ▸ hne)
          rw [fullDisk_ref hk, fullDisk_ref hl] at heq
          exact ⟨rfl, Nat.add_left_cancel heq⟩
        live := by
          intro i k hi hk
          by_cases hi' : i = 1
          · subst hi'
            rw [fullDisk_ref hk, fullDisk_root]
            exact iff_of_true (by omega) hk
          · rw [hother i k hi hi', (fullDisk_other hi hi').1]
            exact iff_of_false (fun hne => hne rfl) (Nat.not_lt_zero k) }
  fits i hi := by
    by_cases hroot : i = 1
    · rw [hroot, fullDisk_root]
      exact Nat.le_refl _
    · rw [(fullDisk_other hi hroot).1]
      exact Nat.zero_le _

/-- The byte at the offset `o` of the directory. -/
theorem fullDisk_byte {o : Nat} (ho : o < 71680) :
    byteAt (smallSuperblock.addrsOn fullDisk) fullDisk 1 o =
      dirent (fullName (o / 16)) (fullInum (o / 16)) (o % 16) := by
  have hslot : slotOf (o / BSIZE) < maxSlots := slot_lt (show o < MAXFILE * BSIZE from ho)
  unfold byteAt
  rw [fullDisk_ref hslot, fullDisk_block (by omega)]
  unfold slotOf NDIRECT BSIZE fullBlocks
  have hk : 32 * (o / 512) + o % 512 / 16 = o / 16 := by omega
  have hj : o % 512 % 16 = o % 16 := by omega
  by_cases hlow : o / 512 < 12
  · simp only [if_pos hlow]
    rw [if_neg (by omega), if_neg (by omega), if_pos (by omega), if_pos (by omega)]
    simp only [Nat.add_sub_cancel_left, hk, hj]
  · simp only [if_neg hlow]
    rw [if_neg (by omega), if_neg (by omega), if_pos (by omega), if_neg (by omega)]
    have hsub : 2 + (o / 512 + 1) - 3 = o / 512 := by omega
    simp only [hsub, hk, hj]

theorem fullDisk_slots : smallSuperblock.slots fullDisk 1 =
    (List.range 4480).map fun k => some (nameOf (fullName k), fullInum k) := by
  have hsize : (smallSuperblock.load fullDisk 1).size = 71680 := by
    rw [fullDisk_root]
    rfl
  have hlen : (smallSuperblock.contents fullDisk 1).length = 71680 := by
    rw [contents_length, hsize]
  unfold Superblock.slots slotsOf
  rw [hlen]
  apply List.map_congr_left
  intro k hk
  have hk' : k < 4480 := List.mem_range.mp hk
  have hentry : slotAt (bytesOf (smallSuperblock.contents fullDisk 1)) (direntSize * k) =
      slotAt (dirent (fullName k) (fullInum k)) 0 := by
    apply slotAt_congr
    intro j hj
    unfold direntSize at *
    have hdiv : (16 * k + j) / 16 = k := by omega
    have hmod : (16 * k + j) % 16 = j := by omega
    unfold bytesOf Superblock.contents
    rw [hsize, List.getD_eq_getElem?_getD, List.getElem?_map,
      List.getElem?_range (show 16 * k + j < 71680 by omega)]
    show byteAt (smallSuperblock.addrsOn fullDisk) fullDisk 1 (16 * k + j) = _
    rw [fullDisk_byte (by omega), hdiv, hmod, Nat.zero_add]
  have hinum : 1 ≤ fullInum k ∧ fullInum k < 65536 := by
    unfold fullInum
    split <;> decide
  rw [hentry]
  unfold slotAt
  simp only [Nat.zero_add]
  rw [inumOf_dirent _ hinum.2, if_neg (by omega), nameOf_dirent]

theorem highByte (n : Nat) (hn : n < 128) :
    UInt8.ofNat (128 + n) ≠ 0 ∧ (UInt8.ofNat (128 + n)).toNat = 128 + n := by
  have htoNat : (UInt8.ofNat (128 + n)).toNat = 128 + n :=
    UInt8.toNat_ofNat_of_lt' (show 128 + n < 256 by omega)
  refine ⟨fun hzero => ?_, htoNat⟩
  rw [hzero] at htoNat
  have hnum : (0 : UInt8).toNat = 0 := rfl
  omega

/-- A name of two bytes. -/
theorem fullName_eq {k : Nat} (hk : k < 4480) (htwo : 2 ≤ k) : nameOf (fullName k) =
    [UInt8.ofNat (128 + k / 64), UInt8.ofNat (128 + k % 64)] := by
  have hfirst := (highByte (k / 64) (by omega)).1
  have hsecond := (highByte (k % 64) (by omega)).1
  unfold fullName
  rw [if_neg (by omega), if_neg (by omega)]
  show (if UInt8.ofNat (128 + k / 64) = 0 then _ else _ :: (if UInt8.ofNat (128 + k % 64) = 0
    then _ else _ :: _)) = _
  rw [if_neg hfirst, if_neg hsecond]
  rfl

/-- The first byte, if there is one, and the number of bytes. -/
theorem fullName_first {k : Nat} (hk : k < 4480) :
    (nameOf (fullName k)).length = min (k + 1) 2 ∧
      ∃ c l, nameOf (fullName k) = c :: l ∧
        c.toNat = if k < 2 then 46 else 128 + k / 64 := by
  by_cases htwo : 2 ≤ k
  · rw [fullName_eq hk htwo, if_neg (by omega)]
    refine ⟨?_, _, _, rfl, (highByte (k / 64) (by omega)).2⟩
    rw [Nat.min_eq_right (by omega)]
    rfl
  · obtain rfl | rfl : k = 0 ∨ k = 1 := by omega
    · exact ⟨rfl, 46, [], rfl, rfl⟩
    · exact ⟨rfl, 46, [46], rfl, rfl⟩

/-- The names of different entries are different. -/
theorem fullName_inj {j k : Nat} (hj : j < 4480) (hk : k < 4480)
    (h : nameOf (fullName j) = nameOf (fullName k)) : j = k := by
  obtain ⟨hlen, c, l, hc, hcj⟩ := fullName_first hj
  obtain ⟨hlen', c', l', hc', hck⟩ := fullName_first hk
  rw [h] at hlen
  have hfirst : c = c' := by
    rw [hc, hc'] at h
    exact (List.cons.inj h).1
  rw [hfirst] at hcj
  by_cases htwo : 2 ≤ j
  · have htwo' : 2 ≤ k := by
      by_contra hlow
      rw [hcj, if_neg (by omega), if_pos (by omega)] at hck
      omega
    rw [fullName_eq hj htwo, fullName_eq hk htwo'] at h
    have hsecond := (List.cons.inj (List.cons.inj h).2).1
    have hmod := congrArg UInt8.toNat hsecond
    rw [(highByte (j % 64) (by omega)).2, (highByte (k % 64) (by omega)).2] at hmod
    rw [hcj, if_neg (by omega), if_neg (by omega)] at hck
    omega
  · have hlow : k < 2 := by
      by_contra hhigh
      rw [hcj, if_pos (by omega), if_neg hhigh] at hck
      omega
    omega

theorem fullDisk_slot {k : Nat} {x : Option (List UInt8 × Nat)}
    (h : (smallSuperblock.slots fullDisk 1)[k]? = some x) :
    k < 4480 ∧ x = some (nameOf (fullName k), fullInum k) := by
  have hlen : k < (smallSuperblock.slots fullDisk 1).length := (List.getElem?_eq_some_iff.mp h).1
  rw [fullDisk_slots, List.length_map, List.length_range] at hlen
  rw [fullDisk_slots, List.getElem?_map, List.getElem?_range hlen] at h
  exact ⟨hlen, (Option.some.inj h).symm⟩

theorem fullDisk_directory : Directory smallSuperblock fullDisk 1 where
  type := by
    rw [fullDisk_root]
    rfl
  whole := by
    rw [fullDisk_root]
    rfl
  consistent := fullDisk_consistent
  distinct := by
    intro i j key v w hi hj
    obtain ⟨hilt, heq⟩ := fullDisk_slot hi
    obtain ⟨hjlt, heq'⟩ := fullDisk_slot hj
    simp only [Option.some.injEq, Prod.mk.injEq] at heq heq'
    exact fullName_inj hilt hjlt (heq.1.symm.trans heq'.1)

theorem fullDisk_tree : Tree smallSuperblock fullDisk where
  consistent := fullDisk_consistent
  whole i hi hdir := by
    by_cases hroot : i = 1
    · rw [hroot]
      exact fullDisk_directory.whole
    · exact absurd hdir (fullDisk_other hi hroot).2.2.1
  entries i k name inum hi hdir hslot := by
    by_cases hroot : i = 1
    · subst hroot
      obtain ⟨-, heq⟩ := fullDisk_slot hslot
      simp only [Option.some.injEq, Prod.mk.injEq] at heq
      rw [heq.2]
      unfold fullInum
      split
      · exact ⟨by decide, by decide⟩
      · exact ⟨by decide, by decide⟩
    · exact absurd hdir (fullDisk_other hi hroot).2.2.1

/-- A process in the full directory. -/
def fullKernel : Kernel Unit :=
  { smallKernel (fun _ => noFile) fun _ => none with disk := fullDisk }

theorem fullKernel_quiet : Quiet smallSuperblock fullKernel where
  tree := fullDisk_tree
  unlocked _ := rfl
  loaded _ _ _ hvalid := nomatch hvalid
  cwd _ := ⟨smallSuperblock_small.rootInum, show 0 < 1 by decide⟩
  keeps i hnamed htype hlinks := by
    have hi := (fullDisk_tree.named smallSuperblock_small hnamed).2
    have hlinks' : (smallSuperblock.load fullDisk i).nlink = 0 := hlinks
    by_cases hroot : i = 1
    · rw [hroot, fullDisk_root] at hlinks'
      cases hlinks'
    · rw [(fullDisk_other hi hroot).2.2.2 htype, fullDisk_file] at hlinks'
      cases hlinks'
  files _ _ := rfl

/-- `/..//x/` for the third name `x` of the directory -/
def fullPath : Path where
  bytes := [0x2F, 0x2E, 0x2E, 0x2F, 0x2F, 0x80, 0x82, 0x2F]
  noZero := by decide

/-- The elements of a path, and the inode that its lookup finds. -/
theorem fullPath_resolution :
    (elements fullPath zeroes).map nameOf = [[0x2E, 0x2E], [0x80, 0x82]] ∧
      ∃ t, namei smallSuperblock noDevices () fullPath fullKernel = .ok (some 2, t) ∧
        ∃ dp name' t' off u,
          nameiparent smallSuperblock noDevices () fullPath zeroes fullKernel =
              .ok (some (dp, name'), t') ∧
            lockAndLookup smallSuperblock noDevices dp name' t' = .ok (some (2, off), u) := by
  obtain ⟨helements, -, hnamei, -⟩ := path_resolution smallSuperblock noDevices fullKernel ()
    fullPath smallSuperblock_small fullKernel_quiet
  have hfound : (namei smallSuperblock noDevices () fullPath fullKernel).toOption.map Prod.fst =
      some (some 2) := by
    decide +kernel
  cases hrun : namei smallSuperblock noDevices () fullPath fullKernel with
  | error e =>
      rw [hrun] at hfound
      cases hfound
  | ok x =>
      obtain ⟨r, t⟩ := x
      rw [hrun] at hfound
      obtain rfl : r = some 2 := Option.some.inj hfound
      obtain ⟨dp, name', t', off, u, hparent, -, hlook⟩ :=
        (hnamei (by decide) zeroes 2).mp ⟨t, hrun⟩
      exact ⟨helements zeroes, t, rfl, dp, name', t', off, u, hparent, hlook⟩

theorem fullKernel_full :
    Full smallSuperblock fullKernel () (.open (some smallFile) (some O_CREATE)) := by
  have hdir : (smallSuperblock.load fullDisk 1).type = T_DIR := fullDisk_directory.type
  have hlook : fullKernel.lookup smallSuperblock fullDisk true fullKernel.ref () smallFile =
      .ok (some 1) := by
    unfold Kernel.lookup
    rw [if_pos (.inl (show 0 < 1 by decide)), smallFile_names]
    exact walk_stop hdir
  refine ⟨by decide, 1, [0x61], hlook, by rw [smallFile_names]; rfl, ?_, ?_, ?_⟩
  · refine find_eq_none.mpr fun j v hslot => ?_
    obtain ⟨hj, heq⟩ := fullDisk_slot hslot
    simp only [Option.some.injEq, Prod.mk.injEq] at heq
    obtain ⟨-, c, l, hc, hfirst⟩ := fullName_first hj
    rw [← heq.1] at hc
    rw [← (List.cons.inj hc).1] at hfirst
    split at hfirst
    · cases hfirst
    · have hnum : (0x61 : UInt8).toNat = 97 := rfl
      omega
  · show firstFree (smallSuperblock.slots fullDisk 1) 0 = _
    have hle := (firstFree_le (smallSuperblock.slots fullDisk 1) 0).1
    have hfree := firstFree_free (smallSuperblock.slots fullDisk 1) 0
    rw [Nat.sub_zero] at hfree
    by_contra hne
    have hne' : firstFree (smallSuperblock.slots fullDisk 1) 0 ≠
      (smallSuperblock.slots fullDisk 1).length := hne
    have hget := List.getElem?_eq_getElem (l := smallSuperblock.slots fullDisk 1)
      (i := firstFree (smallSuperblock.slots fullDisk 1) 0) (by omega)
    rw [(fullDisk_slot hget).2] at hget
    exact hfree _ hget
  · show MAXFILE * BSIZE < (smallSuperblock.load fullDisk 1).size + direntSize
    rw [fullDisk_root]
    decide

/-- `open("a", O_CREATE)` in a full directory of a disk with free blocks and inodes. -/
theorem fullKernel_panics : Quiet smallSuperblock fullKernel ∧
    Directory smallSuperblock fullKernel.disk 1 ∧ 0 < smallSuperblock.freeCount fullKernel.disk ∧
    freeInode smallSuperblock fullKernel.disk = some 3 ∧
    ¬ Along smallSuperblock noDevices (FullIsError smallSuperblock noDevices) fullKernel
      [((), .open (some smallFile) (some O_CREATE))] := by
  refine ⟨fullKernel_quiet, fullDisk_directory, ?_, ?_, ?_⟩
  · have hfree : smallSuperblock.freeCount fullDisk = 113 := by decide +kernel
    exact Nat.lt_of_lt_of_eq (by decide) hfree.symm
  · decide
  · rintro ⟨hwell, -⟩
    have hadds : (Call.open (some smallFile) (some O_CREATE)).Adds :=
      show O_CREATE &&& O_CREATE ≠ 0 by decide
    exact (fullIsError_iff smallSuperblock_small fullKernel_quiet hadds).mp hwell fullKernel_full

end OsWork.Ports.FsCalls

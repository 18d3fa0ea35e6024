import OsWork.Ports.FsBlockInodes

/-!
# Every block has one owner, in every run of the file system

Directories, paths and the system calls of `fs.c`, `sysfile.c` and `file.c`, one lemma
each, and from them what holds in every state that is reached.  The runs are those in
which `ilock` reads no inode that the inode table does not have.

## Main results

* `blocks_owned` — a block in use is in one slot of one inode, every inode has the
  blocks that its size asks for, and `bfree` never panics.
* `transactions_small` — no transaction logs more than `MAXOPBLOCKS` blocks, when the
  bit map is one block and no path walk frees an inode.
-/

namespace OsWork.Ports.FsThreads

open OsWork.Verified.Interleaving
open OsWork.Verified.Transition
open FsDirectories (FileType Dirent Name NOFILE ROOTINO elements dot dotdot)
open Function (update)

variable {P : Type} [Superblock] [DecidableEq P] {C : Prop} {p : P} {v : View}
  {i k b n m : Nat} {c : Content} {K K' : Set Nat} {held : Nat → Option Content} {α : Type}

/-! ## Directories -/

omit [Superblock] [DecidableEq P] in
/-- An entry that a loop finds begins before the end of the directory. -/
theorem Inode.lt_size_of_dirents {ip : Inode} {off : Nat} (h : off < ip.dirents.length) :
    off * direntSize < ip.size := by
  unfold Inode.dirents at h
  rw [List.length_take] at h
  have hlt : off < ip.size / 16 := Nat.lt_of_lt_of_le h (Nat.min_le_left _ _)
  show off * 16 < ip.size
  omega

omit [Superblock] in
theorem Inode.find_lt {ip : Inode} {name : Name} {off inum : Nat}
    (h : ip.find name = some (off, inum)) : off < ip.dirents.length := by
  unfold Inode.find at h
  obtain ⟨j, hj, hde⟩ := Option.bind_eq_some_iff.mp h
  obtain ⟨de, hget, heq⟩ := Option.map_eq_some_iff.mp hde
  cases heq
  exact (List.getElem?_eq_some_iff.mp hget).1

omit [Superblock] in
/-- The loops over the entries read no block that the directory has not. -/
theorem Inode.visited_lt {ip : Inode} {off : Option Nat} {bn : Nat}
    (h : ∀ j, off = some j → j < ip.dirents.length) (hbn : bn ∈ ip.visited off) :
    bn < Content.blocksFor ip.size := by
  cases off with
  | none => exact List.mem_range.mp hbn
  | some j =>
      have hlt := div_lt_blocksFor (ip.lt_size_of_dirents (h j rfl))
      have hbn' := List.mem_range.mp hbn
      omega

theorem runs_dirlookup {l : Label} {name : Name} {Q : Option (Nat × Nat) → View → Prop}
    (hi : v.held i = some c) (htidy : c.Tidy) (hQ : ∀ r, Q r v) :
    Runs C p (dirlookup l p i name) Q v := by
  apply Safe.bind
  apply Safe.atomic
  intro s hs hv _ t ht
  cases ht
  have hv : s.view p = v := hv
  refine ⟨hs, fun q _ => rfl, ?_⟩
  show Runs C p _ Q (s.view p)
  rw [hv]
  split
  · exact runs_panic (by decide)
  · apply Safe.bind
    apply runs_scan hi htidy.blocks
    · split
      · split
        · exact runs_panic (by decide)
        · exact hQ none
      · apply Safe.bind
        apply runs_same fun s => s.iget_same _
        exact hQ _
    · intro bn hbn
      rw [← size_of_held hv hi]
      apply Inode.visited_lt _ hbn
      intro j hj
      obtain ⟨⟨off, inum⟩, hfind, rfl⟩ := Option.map_eq_some_iff.mp hj
      exact Inode.find_lt hfind

omit [Superblock] in
theorem length_blocksOf_dirent (off : Nat) :
    (blocksOf (off * direntSize) direntSize).length ≤ 1 := by
  rw [blocksOf_eq (by decide), List.length_range']
  show (off * 16 + 16 + (512 - 1)) / 512 - off * 16 / 512 ≤ 1
  omega

/-- `dirlink` logs at most the block of the entry and an indirect block, or the block of
an inode that it frees. -/
theorem runs_dirlink {l : Label} {name : Name} {inum : Nat} {note : State P → State P}
    {Q : Bool → View → Prop} (h : Ready C K (n + 2) (update held i (some c)) v) (htidy : c.Tidy)
    (hmap : Bitmap K) (hinode : IBLOCK i ∈ K) (hnote : ∀ s, Same s (note s))
    (hQ : ∀ r c' v', c'.Tidy → Ready C K n (update held i (some c')) v' → Q r v') :
    Runs C p (dirlink l p i name inum note) Q v := by
  apply Safe.bind
  apply runs_dirlookup h.held_update htidy
  intro r
  cases r with
  | some found =>
      obtain ⟨off, ip⟩ := found
      apply Safe.bind
      apply runs_iput (h.reserve (IBLOCK ip)) (hmap.insert _) fun _ => .inl rfl
      intro v' h'
      exact hQ false c v' htidy (h'.forget.less (by omega))
  | none =>
      apply Safe.bind
      apply runs_fetch
      intro s _ hv
      apply Safe.bind
      apply runs_scan h.held_update htidy.blocks
      · apply Safe.bind
        apply runs_writei (length_blocksOf_dirent _) h htidy hmap hinode hnote
        intro r c' v' htidy' h'
        split
        · exact runs_panic (by decide)
        · exact hQ true c' v' htidy' h'
      · intro bn hbn
        rw [← size_of_held hv h.held_update]
        exact Inode.visited_lt (fun j hj => (List.findIdx?_eq_some_iff_findIdx_eq.mp hj).1) hbn

theorem runs_isdirempty {Q : Bool → View → Prop} (hi : v.held i = some c) (htidy : c.Tidy)
    (hQ : ∀ r, Q r v) : Runs C p (isdirempty p i) Q v := by
  apply Safe.bind
  apply runs_fetch
  intro s _ hv
  apply Safe.bind
  apply runs_scan hi htidy.blocks
  · exact hQ _
  · intro bn hbn
    rw [← size_of_held hv hi]
    apply Inode.visited_lt _ hbn
    intro j hj
    obtain ⟨next, hnext, rfl⟩ := Option.map_eq_some_iff.mp hj
    have hlt := (List.findIdx?_eq_some_iff_findIdx_eq.mp hnext).1
    rw [List.length_drop] at hlt
    omega

/-! ## Paths -/

omit [Superblock] [DecidableEq P] in
theorem tidy_of_update {c c' : Content} (htidy : c.Tidy) (h : update held i (some c) i = some c') :
    c'.Tidy := by
  rw [Function.update_self] at h
  cases h
  exact htidy

omit [Superblock] [DecidableEq P] in
/-- A path walk needs no block reserved. -/
theorem reserved_of_walk (h : Site.walk = .call) : b ∈ K := by
  cases h

theorem runs_namexLoop {nameiparent : Bool} {Q : Option (Nat × Name) → View → Prop}
    (hmap : Bitmap K) (hQ : ∀ r v', Ready C K n held v' → Q r v') :
    ∀ {elems : List Name} {ip : Nat} {name : Name} {v : View}, Ready C K n held v →
      Runs C p (namexLoop nameiparent p ip name elems) Q v := by
  intro elems
  induction elems with
  | nil =>
      intro ip name v h
      unfold namexLoop
      split
      · apply Safe.bind
        apply runs_iput h hmap reserved_of_walk
        intro v' h'
        exact hQ none v' h'
      · exact hQ _ v h
  | cons elem rest ih =>
      intro ip name v h
      apply Safe.bind
      apply runs_ilock h
      intro c v' hnone htidy h'
      have hput : ∀ {β : Type} (g : Unit → Fs P β) (R : β → View → Prop),
          (∀ v'', Ready C K n held v'' → Runs C p (g ()) R v'') →
          Runs C p (iunlockput .walk p ip >>= g) R v' := by
        intro β g R hg
        apply Safe.bind
        apply runs_iunlockput h' (fun c' => tidy_of_update htidy) hmap
          reserved_of_walk
        intro v'' h''
        rw [Function.update_idem, ← hnone, Function.update_eq_self] at h''
        exact hg v'' h''
      apply Safe.bind
      apply runs_fetch
      intro s _ _
      split
      · exact hput _ _ fun v'' h'' => hQ none v'' h''
      · split
        · apply Safe.bind
          apply runs_iunlock h' fun c' => tidy_of_update htidy
          intro v'' h''
          rw [Function.update_idem, ← hnone, Function.update_eq_self] at h''
          exact hQ _ v'' h''
        · apply Safe.bind
          apply runs_dirlookup h'.held_update htidy
          intro r
          cases r with
          | none => exact hput _ _ fun v'' h'' => hQ none v'' h''
          | some found => exact hput _ _ fun v'' h'' => ih h''

theorem runs_namex {nameiparent : Bool} {path : List Char} {Q : Option (Nat × Name) → View → Prop}
    (h : Ready C K n held v) (hmap : Bitmap K) (hQ : ∀ r v', Ready C K n held v' → Q r v') :
    Runs C p (namex nameiparent p path) Q v := by
  unfold namex
  split
  · apply Safe.bind
    apply runs_same fun s => s.iget_same _
    exact runs_namexLoop hmap hQ h
  · apply Safe.bind
    apply runs_fetch
    intro s _ _
    split
    · exact hQ none v h
    · apply Safe.bind
      apply runs_same fun s => Same.of_core (t := s.idup _) rfl
      exact runs_namexLoop hmap hQ h

/-! ## `create` -/

/-- An `iupdate` that leaves the type, the size and the addresses, with more that the
blocks do not see. -/
theorem runs_iupdate (f : Inode → Inode) {g : State P → State P} {Q : Unit → View → Prop}
    (hi : held i = some c) (h : Ready C K n held v) (hinode : IBLOCK i ∈ K)
    (htype : ∀ ip, (f ip).type = ip.type) (haddrs : ∀ ip, (f ip).addrs = ip.addrs)
    (hsize : ∀ ip, (f ip).size = ip.size) (hg : ∀ s, Same (s.iupdate p i f) (g s))
    (hQ : ∀ v', Ready C K n held v' → Q () v') : Runs C p (step g) Q v := by
  apply runs_step
  intro s hs hv
  have hroom := h.room.log hinode
  have hlogged : s.logged p = v.logged := congrArg View.logged hv
  have hi' : v.held i = some c := by
    rw [h.held]
    exact hi
  obtain ⟨hkeeps, hview⟩ := hs.iupdate f id (c := c) (by rw [hv]; exact hi')
    htype haddrs hsize (by rw [hlogged]; exact fun hC => hroom.card hC)
  refine ⟨hkeeps.same (hg s), ?_⟩
  rw [(hg s).view, hview, hv]
  apply hQ
  constructor
  · show update v.held i (some c) = held
    rw [← hi', Function.update_eq_self]
    exact h.held
  · exact h.hand
  · exact hroom

theorem runs_iallocFrom {type : FileType} {Q : Nat → View → Prop}
    (h : Ready C K (n + 1) held v)
    (hQ : ∀ i v', Ready C (insert (IBLOCK i) K) n held v' → Q i v') :
    ∀ (r i₀ : Nat), Runs C p (iallocFrom p type i₀ r) Q v := by
  intro r
  induction r with
  | zero =>
      intro i₀
      exact runs_panic (by decide)
  | succ r ih =>
      intro i₀ s hs hv _ t ht
      cases ht
      have hv : s.view p = v := hv
      by_cases hfree : (s.inode i₀).type = .free
      · have hroom := (h.room.reserve (IBLOCK i₀)).log (.inl rfl)
        have hlogged : s.logged p = v.logged := congrArg View.logged hv
        obtain ⟨hkeeps, hview⟩ := hs.allot type (p := p) hfree fun hC => by
          rw [hlogged]
          exact hroom.card hC
        rw [if_pos hfree]
        refine ⟨hkeeps.inv, hkeeps.other, ?_⟩
        show Runs C p (if (s.inode i₀).type = .free then do
            iget i₀
            pure i₀
          else iallocFrom p type (i₀ + 1) r) Q ((s.allot p i₀ type).view p)
        rw [if_pos hfree, hview, hv]
        apply Safe.bind
        apply runs_same fun s => s.iget_same _
        exact hQ i₀ _ ⟨h.held, h.hand, hroom⟩
      · rw [if_neg hfree]
        refine ⟨hs, fun q _ => rfl, ?_⟩
        show Runs C p (if (s.inode i₀).type = .free then do
            iget i₀
            pure i₀
          else iallocFrom p type (i₀ + 1) r) Q (s.view p)
        rw [if_neg hfree, hv]
        exact ih (i₀ + 1)

theorem runs_dirlinkOrPanic {e : Panic} {name : Name} {inum : Nat} {Q : Unit → View → Prop}
    (he : e ≠ .freeingFreeBlock) (h : Ready C K (n + 2) (update held i (some c)) v)
    (htidy : c.Tidy) (hmap : Bitmap K) (hinode : IBLOCK i ∈ K)
    (hQ : ∀ c' v', c'.Tidy → Ready C K n (update held i (some c')) v' → Q () v') :
    Runs C p (dirlinkOrPanic e p i name inum) Q v := by
  apply Safe.bind
  apply runs_dirlink h htidy hmap hinode fun _ => Same.of_core rfl
  intro r c' v' htidy' h'
  cases r with
  | true => exact hQ c' v' htidy' h'
  | false => exact runs_panic he

omit [Superblock] [DecidableEq P] in
theorem update_none : update (fun _ => none) i (none : Option Content) = fun _ => none :=
  Function.update_eq_self i _

/-- `create` of a new inode, in the directory `i`. -/
theorem runs_createNew {name : Name} {type : FileType} {major : Nat}
    {Q : Option Nat → View → Prop}
    (h : Ready C K (n + 7) (update (fun _ => none) i (some c)) v) (htidy : c.Tidy)
    (hmap : Bitmap K) (hinode : IBLOCK i ∈ K)
    (hQ : ∀ ip c' v', c'.Tidy →
      Ready C (insert (IBLOCK ip) K) n (update (fun _ => none) ip (some c')) v' →
        Q (some ip) v') :
    Runs C p (createNew p i name type major) Q v := by
  apply Safe.bind
  apply runs_iallocFrom (n := n + 6) h
  intro ip v₁ h₁
  have hmap' := hmap.insert (IBLOCK ip)
  have hmem : IBLOCK ip ∈ insert (IBLOCK ip) K := .inl rfl
  have hmem' : IBLOCK i ∈ insert (IBLOCK ip) K := .inr hinode
  apply Safe.bind
  apply runs_ilock h₁
  intro c₂ v₂ hnone htidy₂ h₂
  have hne : ip ≠ i := by
    rintro rfl
    rw [Function.update_self] at hnone
    cases hnone
  apply Safe.bind
  apply runs_iupdate (fun ip => { ip with major := major, nlink := 1 }) (i := ip)
    (Function.update_self _ _ _) h₂ hmem (fun _ => rfl) (fun _ => rfl) (fun _ => rfl)
    (fun s => Same.of_core (t := s.initInode p ip major) rfl)
  intro v₃ h₃
  -- what is left to do once the new directory has its two entries
  have hfinish : ∀ c₄ v₄, c₄.Tidy →
      Ready C (insert (IBLOCK ip) K) (n + 2)
        (update (update (fun _ => none) i (some c)) ip (some c₄)) v₄ →
      Runs C p (do
        dirlinkOrPanic .createDirlink p i name ip
        iunlockput .call p i
        pure (some ip)) Q v₄ := by
    intro c₄ v₄ htidy₄ h₄
    rw [Function.update_comm hne.symm] at h₄
    apply Safe.bind
    apply runs_dirlinkOrPanic (by decide) h₄ htidy hmap' hmem'
    intro c₅ v₅ htidy₅ h₅
    apply Safe.bind
    apply runs_iunlockput h₅ (fun c' => tidy_of_update htidy₅) hmap' fun _ => hmem'
    intro v₆ h₆
    rw [Function.update_idem, Function.update_comm hne, update_none] at h₆
    exact hQ ip c₄ v₆ htidy₄ h₆
  apply Safe.bind
  split
  · rw [Function.update_comm hne.symm] at h₃
    apply Safe.bind
    apply runs_iupdate (fun ip => { ip with nlink := ip.nlink + 1 }) (i := i)
      (Function.update_self _ _ _) h₃ hmem' (fun _ => rfl) (fun _ => rfl) (fun _ => rfl)
      (fun s => Same.of_core (t := s.addLink p i) rfl)
    intro v₄ h₄
    rw [Function.update_comm hne] at h₄
    apply Safe.bind
    apply runs_dirlinkOrPanic (by decide) (n := n + 4) h₄ htidy₂ hmap' hmem
    intro c₅ v₅ htidy₅ h₅
    apply runs_dirlinkOrPanic (by decide) (n := n + 2) h₅ htidy₅ hmap' hmem
    intro c₆ v₆ htidy₆ h₆
    exact hfinish c₆ v₆ htidy₆ h₆
  · exact hfinish c₂ v₃ htidy₂ (h₃.less (by omega))

/-- `create` returns an inode whose block is reserved. -/
theorem runs_create {path : List Char} {type : FileType} {major : Nat}
    {Q : Option Nat → View → Prop} (h : Ready C K (n + 8) (fun _ => none) v) (hmap : Bitmap K)
    (hnone : ∀ v', Ready C K n (fun _ => none) v' → Q none v')
    (hsome : ∀ ip K' c v', c.Tidy → Bitmap K' → IBLOCK ip ∈ K' →
      Ready C K' n (update (fun _ => none) ip (some c)) v' → Q (some ip) v') :
    Runs C p (create p path type major) Q v := by
  apply Safe.bind
  apply runs_namex h hmap
  intro r v₁ h₁
  cases r with
  | none => exact hnone v₁ (h₁.less (by omega))
  | some found =>
      obtain ⟨dp, name⟩ := found
      have hmap' := hmap.insert (IBLOCK dp)
      have hmem : IBLOCK dp ∈ insert (IBLOCK dp) K := .inl rfl
      apply Safe.bind
      apply runs_ilock (h₁.reserve (IBLOCK dp))
      intro c v₂ _ htidy h₂
      apply Safe.bind
      apply runs_dirlookup h₂.held_update htidy
      intro r
      cases r with
      | none =>
          apply runs_createNew h₂ htidy hmap' hmem
          intro ip c' v₃ htidy' h₃
          exact hsome ip _ c' v₃ htidy' (hmap'.insert _) (.inl rfl) h₃
      | some found =>
          obtain ⟨off, ip⟩ := found
          apply Safe.bind
          apply runs_iunlockput h₂ (fun c' => tidy_of_update htidy) hmap' fun _ => hmem
          intro v₃ h₃
          rw [Function.update_idem, update_none] at h₃
          apply Safe.bind
          apply runs_ilock (h₃.reserve (IBLOCK ip))
          intro c' v₄ _ htidy' h₄
          apply Safe.bind
          apply runs_fetch
          intro s _ _
          split
          · exact hsome ip _ c' v₄ htidy' (hmap'.insert _) (.inl rfl) (h₄.less (by omega))
          · apply Safe.bind
            apply runs_iunlockput h₄ (fun c' => tidy_of_update htidy') (hmap'.insert _)
              fun _ => .inl rfl
            intro v₅ h₅
            rw [Function.update_idem, update_none] at h₅
            exact hnone v₅ (h₅.forget.forget.less (by omega))

/-! ## System calls -/

/-- An action on files and references. -/
theorem runs_atomic {l : Label} {f : State P → Option (State P)} {a : State P → α}
    {Q : α → View → Prop} (hf : ∀ s t, f s = some t → Same s t) (hQ : ∀ r, Q r v) :
    Runs C p (.atomic l f a) Q v := by
  apply Safe.atomic
  intro s hs hv _ t ht
  have hsame := hf s t ht
  have hv : s.view p = v := hv
  refine ⟨(hsame.keeps (p := p) hs).inv, (hsame.keeps hs).other, ?_⟩
  show Q (a s) (t.view p)
  rw [hsame.view, hv]
  exact hQ _

/-- The blocks of the bit map. -/
def bitmap : Set Nat := { b | ∃ r, r < Superblock.size ∧ BBLOCK r = b }

theorem bitmap_bitmap : Bitmap bitmap := fun r hr => ⟨r, hr, rfl⟩

omit [Superblock] [DecidableEq P] in
theorem Ready.idle (h : Ready C K n (fun _ => none) v) : Idle C v :=
  h.mono (fun _ hb => absurd hb (Set.notMem_empty _)) (Nat.zero_le n)

section Calls

variable (hsmall : C → Superblock.size ≤ BPB)

include hsmall

/-- A transaction begins with room for nine blocks, besides the one of the bit map. -/
theorem runs_begin_op {Q : Unit → View → Prop} (h : Ready C K n held v)
    (hQ : ∀ v', Ready C bitmap 9 held v' → Q () v') : Runs C p (begin_op p) Q v := by
  apply runs_step
  intro s hs hv
  obtain ⟨hkeeps, hview⟩ := hs.begin_op (p := p)
  refine ⟨hkeeps, ?_⟩
  rw [hview, hv]
  apply hQ
  refine ⟨h.held, h.hand, ?_⟩
  intro hC
  refine ⟨{Superblock.bmapstart}, Finset.empty_subset _, ?_, by rw [Finset.card_singleton]; decide⟩
  rintro b ⟨r, hr, rfl⟩
  have hlt : r < 4096 := Nat.lt_of_lt_of_le hr (hsmall hC)
  rw [Finset.mem_singleton]
  show r / 4096 + Superblock.bmapstart = Superblock.bmapstart
  omega

/-- `fileclose` may be a transaction of its own. -/
theorem runs_fileclose {f : Nat} {Q : Unit → View → Prop} (h : Ready C K n held v)
    (hsame : ∀ v', Ready C K n held v' → Q () v')
    (hnew : ∀ v', Ready C bitmap 8 held v' → Q () v') : Runs C p (fileclose p f) Q v := by
  apply Safe.bind
  apply runs_atomic
  · rintro s t ht
    cases ht
    exact Same.of_core rfl
  · intro file
    split
    · exact runs_panic (by decide)
    · split
      · exact hsame v h
      · split
        · exact hsame v h
        · rename_i ip _
          apply Safe.bind
          apply runs_begin_op hsmall h
          intro v₁ h₁
          apply Safe.bind
          apply runs_iput (h₁.reserve (IBLOCK ip)) (bitmap_bitmap.insert _) fun _ => .inl rfl
          intro v₂ h₂
          exact hnew v₂ h₂.forget

omit hsmall in
/-- The end of a call that gives an inode up. -/
theorem runs_putEnd (h : Ready C K n (update (fun _ => none) i (some c)) v) (htidy : c.Tidy)
    (hmap : Bitmap K) (hinode : IBLOCK i ∈ K) :
    Runs C p (do
      iunlockput .call p i
      end_op) (fun _ v => Idle C v) v := by
  apply Safe.bind
  apply runs_iunlockput h (fun c' => tidy_of_update htidy) hmap fun _ => hinode
  intro v' h'
  rw [Function.update_idem, update_none] at h'
  exact h'.idle

theorem runs_openInode {omode : Nat} (h : Ready C K n (update (fun _ => none) i (some c)) v)
    (htidy : c.Tidy) (hmap : Bitmap K) (hinode : IBLOCK i ∈ K) :
    Runs C p (openInode p i omode) (fun _ v => Idle C v) v := by
  apply Safe.bind
  apply runs_atomic
  · intro s t ht
    split at ht
    all_goals
      cases ht
      exact Same.of_core rfl
  · intro f
    split
    · exact runs_putEnd h htidy hmap hinode
    · apply Safe.bind
      apply runs_atomic
      · intro s t ht
        split at ht
        all_goals
          cases ht
          exact Same.of_core rfl
      · intro fd
        split
        · apply Safe.bind
          apply runs_fileclose hsmall h
          · intro v' h'
            exact runs_putEnd h' htidy hmap hinode
          · intro v' h'
            exact runs_putEnd (h'.reserve (IBLOCK i)) htidy (bitmap_bitmap.insert _) (.inl rfl)
        · apply Safe.bind
          apply runs_iunlock h fun c' => tidy_of_update htidy
          intro v' h'
          rw [Function.update_idem, update_none] at h'
          apply Safe.bind
          apply runs_pure
          exact runs_same (fun s => Same.of_core rfl) h'.idle

theorem runs_sys_open {path : List Char} {omode : Nat} (h : Idle C v) :
    Runs C p (sys_open p path omode) (fun _ v => Idle C v) v := by
  apply Safe.bind
  apply runs_begin_op hsmall h
  intro v₁ h₁
  split
  · apply Safe.bind
    apply runs_create (n := 1) h₁ bitmap_bitmap
    · intro v₂ h₂
      exact h₂.idle
    · intro ip K' c v₂ htidy hmap hinode h₂
      exact runs_openInode hsmall h₂ htidy hmap hinode
  · apply Safe.bind
    apply runs_namex h₁ bitmap_bitmap
    intro r v₂ h₂
    split
    · exact h₂.idle
    · rename_i ip _
      apply Safe.bind
      apply runs_ilock (h₂.reserve (IBLOCK ip))
      intro c v₃ _ htidy h₃
      apply Safe.bind
      apply runs_fetch
      intro s _ _
      split
      · exact runs_putEnd h₃ htidy (bitmap_bitmap.insert _) (.inl rfl)
      · exact runs_openInode hsmall h₃ htidy (bitmap_bitmap.insert _) (.inl rfl)

theorem runs_sys_make {path : List Char} {type : FileType} {major : Nat} (h : Idle C v) :
    Runs C p (sys_make p path type major) (fun _ v => Idle C v) v := by
  apply Safe.bind
  apply runs_begin_op hsmall h
  intro v₁ h₁
  apply Safe.bind
  apply runs_create (n := 1) h₁ bitmap_bitmap
  · intro v₂ h₂
    exact h₂.idle
  · intro ip K' c v₂ htidy hmap hinode h₂
    exact runs_putEnd h₂ htidy hmap hinode

omit hsmall in
theorem runs_linkBad (h : Ready C K n (fun _ => none) v) (hmap : Bitmap K) (hinode : IBLOCK i ∈ K) :
    Runs C p (linkBad p i) (fun _ v => Idle C v) v := by
  apply Safe.bind
  apply runs_ilock h
  intro c v₁ _ htidy h₁
  apply Safe.bind
  refine runs_iupdate (fun ip => { ip with nlink := ip.nlink - 1 }) (i := i)
    (Function.update_self _ _ _) h₁ hinode (fun _ => rfl) (fun _ => rfl) (fun _ => rfl)
    (fun s => Same.of_core rfl) ?_
  intro v₂ h₂
  exact runs_putEnd h₂ htidy hmap hinode

theorem runs_sys_link {old new : List Char} (h : Idle C v) :
    Runs C p (sys_link p old new) (fun _ v => Idle C v) v := by
  apply Safe.bind
  apply runs_begin_op hsmall h
  intro v₁ h₁
  apply Safe.bind
  apply runs_namex h₁ bitmap_bitmap
  intro r v₂ h₂
  split
  · exact h₂.idle
  · rename_i ip _
    have hmap : Bitmap (insert (IBLOCK ip) bitmap) := bitmap_bitmap.insert _
    have hmem : IBLOCK ip ∈ insert (IBLOCK ip) bitmap := .inl rfl
    apply Safe.bind
    apply runs_ilock (h₂.reserve (IBLOCK ip))
    intro c v₃ _ htidy h₃
    apply Safe.bind
    apply runs_fetch
    intro s _ _
    split
    · exact runs_putEnd h₃ htidy hmap hmem
    · apply Safe.bind
      refine runs_iupdate (fun ip => { ip with nlink := ip.nlink + 1 }) (i := ip)
        (Function.update_self _ _ _) h₃ hmem (fun _ => rfl) (fun _ => rfl) (fun _ => rfl)
        (fun s => Same.of_core rfl) ?_
      intro v₄ h₄
      apply Safe.bind
      apply runs_iunlock h₄ fun c' => tidy_of_update htidy
      intro v₅ h₅
      rw [Function.update_idem, update_none] at h₅
      apply Safe.bind
      apply runs_namex h₅ hmap
      intro r v₆ h₆
      split
      · exact runs_linkBad h₆ hmap hmem
      · rename_i dp name
        have hmap' := hmap.insert (IBLOCK dp)
        have hmem' : IBLOCK dp ∈ insert (IBLOCK dp) (insert (IBLOCK ip) bitmap) := .inl rfl
        apply Safe.bind
        apply runs_ilock (h₆.reserve (IBLOCK dp))
        intro d v₇ _ htidy' h₇
        apply Safe.bind
        refine runs_dirlink (n := 5) h₇ htidy' hmap' hmem' (fun s => Same.of_core rfl) ?_
        intro linked d' v₈ htidy₈ h₈
        split
        · apply Safe.bind
          apply runs_iunlockput h₈ (fun c' => tidy_of_update htidy₈) hmap' fun _ => hmem'
          intro v₉ h₉
          apply Safe.bind
          apply runs_iput h₉ hmap' fun _ => .inr hmem
          intro v₁₀ h₁₀
          rw [Function.update_idem, update_none] at h₁₀
          exact h₁₀.idle
        · apply Safe.bind
          apply runs_iunlockput h₈ (fun c' => tidy_of_update htidy₈) hmap' fun _ => hmem'
          intro v₉ h₉
          rw [Function.update_idem, update_none] at h₉
          exact runs_linkBad h₉ hmap' (.inr hmem)

omit hsmall in
/-- The end of `sys_unlink`, with the directory `i` and the inode `k` locked. -/
theorem runs_unlinkEntry {off : Nat} {d : Content} (hne : k ≠ i)
    (h : Ready C K (n + 2) (update (update (fun _ => none) i (some d)) k (some c)) v)
    (hd : d.Tidy) (hc : c.Tidy) (hmap : Bitmap K) (hi : IBLOCK i ∈ K) (hk : IBLOCK k ∈ K) :
    Runs C p (unlinkEntry p i off k) (fun _ v => Idle C v) v := by
  apply Safe.bind
  apply runs_fetch
  intro s _ _
  rw [Function.update_comm hne.symm] at h
  apply Safe.bind
  apply runs_writei (length_blocksOf_dirent off) h hd hmap hi
  · intro s
    split <;> exact Same.of_core rfl
  · intro r d' v₁ htidy₁ h₁
    split
    · exact runs_panic (by decide)
    · have hfinish : ∀ v₂, Ready C K n
          (update (update (fun _ => none) k (some c)) i (some d')) v₂ →
          Runs C p (do
            iunlockNote (.giveUp i k) p i fun s => { s with up := update s.up p (some (k, i)) }
            iput .call p i
            step fun s => { s.dropLink p k with up := update s.up p none }
            iunlockput .call p k
            end_op) (fun _ v => Idle C v) v₂ := by
        intro v₂ h₂
        apply Safe.bind
        refine runs_iunlockNote h₂ (fun _ => Same.of_core rfl) (fun c' => tidy_of_update htidy₁) ?_
        intro v₃ h₃
        apply Safe.bind
        apply runs_iput h₃ hmap fun _ => hi
        intro v₄ h₄
        rw [Function.update_idem, Function.update_comm hne, update_none] at h₄
        apply Safe.bind
        refine runs_iupdate (fun ip => { ip with nlink := ip.nlink - 1 }) (i := k)
          (Function.update_self _ _ _) h₄ hk (fun _ => rfl) (fun _ => rfl) (fun _ => rfl)
          (fun s => Same.of_core rfl) ?_
        intro v₅ h₅
        exact runs_putEnd h₅ hc hmap hk
      apply Safe.bind
      split
      · exact runs_iupdate (fun ip => { ip with nlink := ip.nlink - 1 }) (i := i)
          (Function.update_self _ _ _) h₁ hi (fun _ => rfl) (fun _ => rfl) (fun _ => rfl)
          (fun s => Same.of_core rfl) hfinish
      · exact hfinish v₁ h₁

theorem runs_sys_unlink {path : List Char} (h : Idle C v) :
    Runs C p (sys_unlink p path) (fun _ v => Idle C v) v := by
  apply Safe.bind
  apply runs_begin_op hsmall h
  intro v₁ h₁
  apply Safe.bind
  apply runs_namex h₁ bitmap_bitmap
  intro r v₂ h₂
  split
  · exact h₂.idle
  · rename_i dp name
    have hmap : Bitmap (insert (IBLOCK dp) bitmap) := bitmap_bitmap.insert _
    have hmem : IBLOCK dp ∈ insert (IBLOCK dp) bitmap := .inl rfl
    apply Safe.bind
    apply runs_ilock (h₂.reserve (IBLOCK dp))
    intro d v₃ _ hd h₃
    split
    · exact runs_putEnd h₃ hd hmap hmem
    · apply Safe.bind
      apply runs_dirlookup h₃.held_update hd
      intro r
      split
      · exact runs_putEnd h₃ hd hmap hmem
      · rename_i off ip
        have hmap' := hmap.insert (IBLOCK ip)
        have hmem' : IBLOCK ip ∈ insert (IBLOCK ip) (insert (IBLOCK dp) bitmap) := .inl rfl
        apply Safe.bind
        apply runs_ilock (h₃.reserve (IBLOCK ip))
        intro c v₄ hnone hc h₄
        have hne : ip ≠ dp := by
          rintro rfl
          rw [Function.update_self] at hnone
          cases hnone
        have hfinish : ∀ empty : Bool,
            Runs C p (if empty then unlinkEntry p dp off ip
              else do
                iunlockput .call p ip
                iunlockput .call p dp
                end_op) (fun _ v => Idle C v) v₄ := by
          intro empty
          split
          · exact runs_unlinkEntry (n := 5) hne h₄ hd hc hmap' (.inr hmem) hmem'
          · apply Safe.bind
            apply runs_iunlockput h₄ (fun c' => tidy_of_update hc) hmap' fun _ => hmem'
            intro v₅ h₅
            rw [Function.update_idem, Function.update_comm hne.symm, update_none] at h₅
            exact runs_putEnd h₅ hd hmap' (.inr hmem)
        apply Safe.bind
        apply runs_fetch
        intro s _ _
        split
        · exact runs_panic (by decide)
        · dsimp only
          split
          · apply Safe.bind
            exact runs_isdirempty h₄.held_update hc hfinish
          · exact hfinish true

theorem runs_sys_chdir {path : List Char} (h : Idle C v) :
    Runs C p (sys_chdir p path) (fun _ v => Idle C v) v := by
  apply Safe.bind
  apply runs_begin_op hsmall h
  intro v₁ h₁
  apply Safe.bind
  apply runs_namex h₁ bitmap_bitmap
  intro r v₂ h₂
  split
  · exact h₂.idle
  · rename_i ip _
    have hmap : Bitmap (insert (IBLOCK ip) bitmap) := bitmap_bitmap.insert _
    have hmem : IBLOCK ip ∈ insert (IBLOCK ip) bitmap := .inl rfl
    apply Safe.bind
    apply runs_ilock (h₂.reserve (IBLOCK ip))
    intro c v₃ _ htidy h₃
    apply Safe.bind
    apply runs_fetch
    intro s _ _
    split
    · exact runs_putEnd h₃ htidy hmap hmem
    · apply Safe.bind
      apply runs_iunlock h₃ fun c' => tidy_of_update htidy
      intro v₄ h₄
      rw [Function.update_idem, update_none] at h₄
      apply Safe.bind
      apply runs_fetch
      intro s _ _
      split
      · exact h₄.idle
      · rename_i old _
        apply Safe.bind
        apply runs_iput (h₄.reserve (IBLOCK old)) (hmap.insert _) fun _ => .inl rfl
        intro v₅ h₅
        apply Safe.bind
        apply runs_pure
        exact runs_same (fun s => Same.of_core rfl) h₅.idle

omit hsmall in
theorem runs_execReads {Q : Unit → View → Prop}
    (hQ : ∀ c' v', c'.Tidy → Ready C K n (update held i (some c')) v' → Q () v') :
    ∀ {reads : List (Nat × Nat)} {v : View} {c : Content}, c.Tidy →
      Ready C K n (update held i (some c)) v → Runs C p (execReads p i reads) Q v := by
  intro reads
  induction reads with
  | nil => exact fun htidy h => hQ _ _ htidy h
  | cons read reads ih =>
      intro v c htidy h
      apply Safe.bind
      apply runs_readi h htidy
      intro _ c' v' htidy' h'
      exact ih htidy' h'

theorem runs_exec {path : List Char} {reads : List (Nat × Nat)} (h : Idle C v) :
    Runs C p (exec p path reads) (fun _ v => Idle C v) v := by
  apply Safe.bind
  apply runs_begin_op hsmall h
  intro v₁ h₁
  apply Safe.bind
  apply runs_namex h₁ bitmap_bitmap
  intro r v₂ h₂
  split
  · exact h₂.idle
  · rename_i ip _
    apply Safe.bind
    apply runs_ilock (h₂.reserve (IBLOCK ip))
    intro c v₃ _ htidy h₃
    apply Safe.bind
    apply runs_execReads _ htidy h₃
    intro c' v₄ htidy' h₄
    exact runs_putEnd h₄ htidy' (bitmap_bitmap.insert _) (.inl rfl)

omit hsmall in
theorem runs_fileread {f size : Nat} (h : Idle C v) :
    Runs C p (fileread p f size) (fun _ v => Idle C v) v := by
  apply Safe.bind
  apply runs_fetch
  intro s _ _
  split
  · apply Safe.bind
    apply runs_ilock h
    intro c v₁ _ htidy h₁
    apply Safe.bind
    apply runs_fetch
    intro s _ _
    apply Safe.bind
    apply runs_readi h₁ htidy
    intro r c' v₂ htidy' h₂
    apply Safe.bind
    refine runs_same (fun s => Same.of_core rfl) ?_
    apply runs_iunlock h₂ fun c' => tidy_of_update htidy'
    intro v₃ h₃
    rw [Function.update_idem, update_none] at h₃
    exact h₃.idle
  · exact h

omit [Superblock] [DecidableEq P] hsmall in
/-- The bytes that `filewrite` writes in one transaction are in at most four blocks. -/
theorem length_blocksOf_writeMax {off size : Nat} (h : size ≤ writeMax MAXOPBLOCKS) :
    (blocksOf off size).length ≤ 4 := by
  by_cases hsize : size = 0
  · unfold blocksOf
    rw [if_pos hsize]
    exact Nat.zero_le 4
  · have hmax : size ≤ 1536 := h
    rw [blocksOf_eq hsize, List.length_range']
    show (off + size + (512 - 1)) / 512 - off / 512 ≤ 4
    omega

theorem runs_writeLoop {f ip : Nat} {data : Nat → Data} :
    ∀ {rounds size : Nat} {v : View}, Idle C v →
      Runs C p (writeLoop p f ip data rounds size) (fun _ v => Idle C v) v := by
  intro rounds
  induction rounds with
  | zero =>
      intro size v h
      exact h
  | succ rounds ih =>
      intro size v h
      unfold writeLoop
      split
      · exact h
      · have hmap : Bitmap (insert (IBLOCK ip) bitmap) := bitmap_bitmap.insert _
        apply Safe.bind
        apply runs_begin_op hsmall h
        intro v₁ h₁
        apply Safe.bind
        apply runs_ilock (h₁.reserve (IBLOCK ip))
        intro c v₂ _ htidy h₂
        apply Safe.bind
        apply runs_atomic
        · intro s t ht
          cases ht
          exact Same.of_core rfl
        · intro off
          apply Safe.bind
          refine runs_writei (n := 3) (length_blocksOf_writeMax (Nat.min_le_right size _)) h₂ htidy
            hmap (.inl rfl) (fun s => Same.of_core rfl) ?_
          intro r c' v₃ htidy' h₃
          apply Safe.bind
          refine runs_same (fun s => Same.of_core rfl) ?_
          apply Safe.bind
          apply runs_iunlock h₃ fun c' => tidy_of_update htidy'
          intro v₄ h₄
          rw [Function.update_idem, update_none] at h₄
          apply Safe.bind
          apply runs_pure
          split
          · exact h₄.idle
          · split
            · exact runs_panic (by decide)
            · exact ih h₄.idle

theorem runs_filewrite {f size : Nat} {data : Nat → Data} (h : Idle C v) :
    Runs C p (filewrite p f size data) (fun _ v => Idle C v) v := by
  apply Safe.bind
  apply runs_fetch
  intro s _ _
  split
  · exact runs_writeLoop hsmall h
  · exact h

omit hsmall in
theorem runs_filestat {f : Nat} (h : Idle C v) :
    Runs C p (filestat p f) (fun _ v => Idle C v) v := by
  apply Safe.bind
  apply runs_fetch
  intro s _ _
  split
  · apply Safe.bind
    apply runs_ilock h
    intro c v₁ _ htidy h₁
    apply runs_iunlock h₁ fun c' => tidy_of_update htidy
    intro v₂ h₂
    rw [Function.update_idem, update_none] at h₂
    exact h₂.idle
  · exact h

omit hsmall in
theorem runs_sys_dup {fd : Fin NOFILE} (h : Idle C v) :
    Runs C p (sys_dup p fd) (fun _ v => Idle C v) v := by
  apply Safe.bind
  apply runs_fetch
  intro s _ _
  split
  · exact h
  · apply Safe.bind
    apply runs_atomic
    · intro s t ht
      split at ht
      all_goals
        cases ht
        exact Same.of_core rfl
    · intro r
      split
      · exact h
      · exact runs_same (fun s => Same.of_core rfl) h

theorem runs_sys_close {fd : Fin NOFILE} (h : Idle C v) :
    Runs C p (sys_close p fd) (fun _ v => Idle C v) v := by
  apply Safe.bind
  apply runs_fetch
  intro s _ _
  split
  · exact h
  · apply Safe.bind
    refine runs_same (fun s => Same.of_core rfl) ?_
    apply runs_fileclose hsmall h
    · exact fun v' h' => h'
    · exact fun v' h' => h'.idle

theorem runs_closeAll : ∀ {fds : List (Fin NOFILE)} {v : View}, Idle C v →
    Runs C p (closeAll p fds) (fun _ v => Idle C v) v := by
  intro fds
  induction fds with
  | nil => exact fun h => h
  | cons fd fds ih =>
      intro v h
      apply Safe.bind
      apply runs_fetch
      intro s _ _
      dsimp only
      split
      · exact ih h
      · apply Safe.bind
        apply runs_fileclose hsmall h
        all_goals
          intro v' h'
          apply Safe.bind
          exact runs_same (fun s => Same.of_core rfl) (ih h'.idle)

theorem runs_exit (h : Idle C v) : Runs C p (exit p) (fun _ v => Idle C v) v := by
  apply Safe.bind
  apply (runs_closeAll hsmall h).mono
  intro _ v₁ h₁
  apply Safe.bind
  apply runs_begin_op hsmall h₁
  intro v₂ h₂
  apply Safe.bind
  apply runs_fetch
  intro s _ _
  split
  · exact h₂.idle
  · rename_i i _
    apply Safe.bind
    apply runs_iput (h₂.reserve (IBLOCK i)) (bitmap_bitmap.insert _) fun _ => .inl rfl
    intro v₃ h₃
    apply Safe.bind
    apply runs_pure
    exact runs_same (fun s => Same.of_core rfl) h₃.idle

/-- Every call keeps the invariant, and ends with no inode locked and no block in hand. -/
theorem runs_body {call : Call P} (h : Idle C v) :
    Runs C p (body p call) (fun _ v => Idle C v) v := by
  have hfile : ∀ (fd : Fin NOFILE) (g : Nat → Fs P Unit),
      (∀ f, Runs C p (g f) (fun _ v => Idle C v) v) →
      Runs C p (withFile p fd g) (fun _ v => Idle C v) v := by
    intro fd g hg
    apply Safe.bind
    apply runs_fetch
    intro s _ _
    split
    · exact h
    · exact hg _
  apply Safe.bind
  apply runs_atomic
  · intro s t ht
    split at ht
    · cases ht
      exact Same.of_core rfl
    · cases ht
  · intro _
    cases call with
    | «open» path omode => exact runs_sys_open hsmall h
    | mkdir path => exact runs_sys_make hsmall h
    | mknod path major => exact runs_sys_make hsmall h
    | link old new => exact runs_sys_link hsmall h
    | unlink path => exact runs_sys_unlink hsmall h
    | chdir path => exact runs_sys_chdir hsmall h
    | exec path reads => exact runs_exec hsmall h
    | read fd size => exact hfile fd _ fun f => runs_fileread h
    | write fd size data => exact hfile fd _ fun f => runs_filewrite hsmall h
    | fstat fd => exact hfile fd _ fun f => runs_filestat h
    | dup fd => exact runs_sys_dup h
    | close fd => exact runs_sys_close hsmall h
    | fork q =>
        apply runs_atomic
        · intro s t ht
          split at ht
          · cases ht
            exact Same.of_core (s.fork_core p q)
          · cases ht
        · exact fun _ => h
    | exit => exact runs_exit hsmall h

end Calls

/-! ## All runs -/

/-- What an inode of the image says. -/
def Image.content (image : Image) (i : Nat) : Content where
  type := (image.inode i).type
  size := (image.inode i).size
  addrs := (image.inode i).addrs
  word := if (image.inode i).addrs NDIRECT ≠ 0 then image.words ((image.inode i).addrs NDIRECT)
    else fun _ => 0
  gone _ := false

/-- The blocks of the disk are in order: the bit map has those in use that some inode has,
no two slots have one block, and every inode has the blocks that its size asks for. -/
structure Image.Sound (image : Image) : Prop where
  start : 0 < Superblock.datastart
  low : ∀ b, b < Superblock.datastart → image.used b = true
  used : ∀ b, IsData b → (image.used b = true ↔ ∃ i k, (image.content i).Has k b)
  data : ∀ i k b, (image.content i).Has k b → IsData b
  apart : ∀ i k j l b, (image.content i).Has k b → (image.content j).Has l b → i = j ∧ k = l
  tidy : ∀ i, (image.content i).Tidy

/-- What is on the disk. -/
def State.disk (s : State P) : Image where
  inode := s.inode
  words := s.words
  used := s.used
  rank := s.born
  due := s.due

variable {image : Image} {p0 : P} {s : State P} {t : Threads P (State P) Label Panic}

theorem Image.Sound.inv (h : image.Sound) : BlockInv C (boot image p0) := by
  have hcontent : ∀ i, (boot image p0).content i = image.content i := by
    intro i
    show Content.mk _ _ _ (if _ ∧ false = false then _ else _) _ = Content.mk _ _ _ _ _
    simp only [and_true]
    rfl
  constructor
  · constructor
    · intro x b hx
      cases x with
      | slot i k =>
          have hx : ((boot image p0).content i).Has k b := hx
          rw [hcontent] at hx
          have hdata := h.data i k b hx
          exact ⟨hdata, (h.used b hdata).mpr ⟨i, k, hx⟩⟩
      | hand p => cases hx
    · intro x y b hx hy
      cases x with
      | slot i k =>
          cases y with
          | slot j l =>
              have hx : ((boot image p0).content i).Has k b := hx
              have hy : ((boot image p0).content j).Has l b := hy
              rw [hcontent] at hx hy
              obtain ⟨rfl, rfl⟩ := h.apart i k j l b hx hy
              rfl
          | hand p => cases hy
      | hand p => cases hx
    · rintro b ⟨hdata, hused⟩
      obtain ⟨i, k, hhas⟩ := (h.used b hdata).mp hused
      refine ⟨.slot i k, ?_⟩
      show ((boot image p0).content i).Has k b
      rw [hcontent]
      exact hhas
  · exact h.low
  · exact h.start
  · intro i p hp
    cases hp
  · intro i hi
    cases hi
  · intro i _
    rw [hcontent]
    exact h.tidy i
  · intro _ p
    exact Nat.zero_le _

theorem boot_idle (p : P) : Idle C ((boot image p0).view p) where
  held := rfl
  hand := rfl
  room := fun _ => ⟨∅, Finset.Subset.refl _, fun _ hb => absurd hb (Set.notMem_empty _),
    Nat.zero_le _⟩

/-- With no call going on, the disk is in order. -/
theorem BlockInv.sound (hs : BlockInv C s) (hidle : ∀ p, Idle C (s.view p)) : s.disk.Sound := by
  have hbusy : ∀ i, s.busy i = none := by
    intro i
    cases hbusy : s.busy i with
    | none => rfl
    | some p =>
        have hheld : (s.view p).held i = some (s.content i) := State.held_iff.mpr ⟨hbusy, rfl⟩
        rw [(hidle p).held] at hheld
        cases hheld
  have hhand : ∀ p b, s.hand p ≠ some b := by
    intro p b hb
    have hview := State.hand_iff.mpr ⟨hb, rfl⟩
    rw [(hidle p).hand] at hview
    cases hview
  have hcontent : ∀ i, s.disk.content i = s.content i := by
    intro i
    have hgone := (hs.tidy i (hbusy i)).blocks.gone
    have hgone : ∀ k, s.gone i k = false := hgone
    unfold Image.content State.content
    rw [hgone, show s.gone i = fun _ => false from funext hgone]
    simp only [and_true]
    rfl
  constructor
  · exact hs.start
  · exact hs.low
  · intro b hdata
    constructor
    · intro hused
      obtain ⟨x, hx⟩ := hs.exact.placed b ⟨hdata, hused⟩
      cases x with
      | slot i k =>
          refine ⟨i, k, ?_⟩
          rw [hcontent]
          exact hx
      | hand p => exact absurd hx (hhand p b)
    · rintro ⟨i, k, hhas⟩
      rw [hcontent] at hhas
      exact (hs.exact.inUse (.slot i k) b hhas).2
  · intro i k b hhas
    rw [hcontent] at hhas
    exact (hs.exact.inUse (.slot i k) b hhas).1
  · intro i k j l b hi hj
    rw [hcontent] at hi hj
    have heq := hs.exact.apart (.slot i k) (.slot j l) b hi hj
    cases heq
    exact ⟨rfl, rfl⟩
  · intro i
    rw [hcontent]
    exact hs.tidy i (hbusy i)

/-- `ilock` reads an inode of the inode table. -/
def InTable (_p : P) (l : Label) (_s : State P) : Prop :=
  match l with
  | .load i => i < Superblock.ninodes
  | _ => True

/-- Besides, no path walk frees an inode. -/
def PlainWalk (_p : P) (l : Label) (s : State P) : Prop :=
  match l with
  | .load i => i < Superblock.ninodes
  | .drop .walk i => s.lastRef i = false
  | _ => True

instance (p : P) (l : Label) (s : State P) : Decidable (InTable p l s) :=
  match l with
  | .load i => inferInstanceAs (Decidable (i < Superblock.ninodes))
  | .plain | .lock _ | .drop .. | .linkName _ | .giveUp .. | .write _ => isTrue trivial

instance (p : P) (l : Label) (s : State P) : Decidable (PlainWalk p l s) :=
  match l with
  | .load i => inferInstanceAs (Decidable (i < Superblock.ninodes))
  | .drop .walk i => inferInstanceAs (Decidable (s.lastRef i = false))
  | .drop .call _ | .plain | .lock _ | .linkName _ | .giveUp .. | .write _ => isTrue trivial

theorem good_of_reachable (himage : image.Sound) (hsmall : C → Superblock.size ≤ BPB)
    (h : (fileSystem image p0).ReachableWhen (Allows (BlockOk C)) t) :
    (blockViews C).Good (fun _ v => Idle C v) t := by
  have hrun : (threads (fun s => s = boot image p0) body).ReachableWhen
    (Allows (blockViews C).ok) t := h
  apply Views.good _ _ hrun
  · rintro s rfl
    exact ⟨himage.inv, boot_idle⟩
  · intro p call v hidle
    exact runs_body hsmall hidle

omit [DecidableEq P] in
theorem InTable.ok {q : P} {l : Label} (h : InTable q l s) : BlockOk False q l s := by
  cases l with
  | load i => exact h
  | drop site i =>
      cases site with
      | walk => exact False.elim
      | call => trivial
  | _ => trivial

omit [DecidableEq P] in
theorem PlainWalk.ok {q : P} {l : Label} (h : PlainWalk q l s) : BlockOk True q l s := by
  cases l with
  | load i => exact h
  | drop site i =>
      cases site with
      | walk => exact fun _ => h
      | call => trivial
  | _ => trivial

/-! ### A disk with one directory -/

abbrev smallDisk : Superblock where
  size := 12
  ninodes := 8
  inodestart := 2
  bmapstart := 3
  datastart := 4

def smallImage : Image where
  inode i :=
    if i = ROOTINO then
      { type := .dir
        major := 0
        nlink := 1
        size := 32
        addrs := fun k => if k = 0 then 4 else 0
        entries := [{ inum := ROOTINO, name := dot }, { inum := ROOTINO, name := dotdot }] }
    else Inode.zero
  words _ _ := 0
  used b := decide (b ≤ 4)
  rank _ := 0
  due i := if i = ROOTINO then 1 else 0

omit [Superblock] in
theorem smallImage_slot {i k : Nat} (hk : k ≤ MAXFILE) :
    (smallImage.content i).slot k = if i = ROOTINO ∧ k = 0 then 4 else 0 := by
  have hword : ∀ j, (smallImage.content i).word j = 0 := by
    intro j
    unfold Image.content
    dsimp only
    split <;> rfl
  have haddr : ∀ j, (smallImage.content i).addrs j = if i = ROOTINO ∧ j = 0 then 4 else 0 := by
    intro j
    show (smallImage.inode i).addrs j = _
    unfold smallImage
    by_cases hi : i = ROOTINO
    · simp only [hi, if_true, true_and]
    · simp only [hi, if_false, false_and]
      rfl
  rcases Content.slot_cases hk with h | ⟨h, h'⟩ | rfl
  · rw [Content.slot_direct h, haddr]
  · rw [Content.slot_word h h', hword, if_neg]
    rintro ⟨-, rfl⟩
    exact h (by decide)
  · rw [Content.slot_last, haddr, if_neg (fun hz => absurd hz.2 (by decide)),
      if_neg (fun hz => absurd hz.2 (by decide))]

omit [Superblock] in
theorem smallImage_has {i k b : Nat} :
    (smallImage.content i).Has k b ↔ i = ROOTINO ∧ k = 0 ∧ b = 4 := by
  constructor
  · rintro ⟨hk, -, hslot, hne⟩
    rw [smallImage_slot hk] at hslot
    split at hslot
    · rename_i h
      exact ⟨h.1, h.2, hslot.symm⟩
    · exact absurd hslot.symm hne
  · rintro ⟨rfl, rfl, rfl⟩
    refine ⟨Nat.zero_le _, rfl, ?_, by decide⟩
    rw [smallImage_slot (Nat.zero_le _), if_pos ⟨rfl, rfl⟩]

omit [Superblock] in
theorem smallImage_sound : @Image.Sound smallDisk smallImage := by
  let := smallDisk
  constructor
  · decide
  · intro b hb
    have hlt : b < 4 := hb
    exact decide_eq_true (Nat.le_of_lt hlt)
  · intro b hdata
    simp only [smallImage_has]
    have hle : 4 ≤ b := hdata.1
    show decide (b ≤ 4) = true ↔ _
    rw [decide_eq_true_iff]
    constructor
    · exact fun h => ⟨ROOTINO, 0, rfl, rfl, Nat.le_antisymm h hle⟩
    · rintro ⟨i, k, -, -, rfl⟩
      exact Nat.le_refl 4
  · intro i k b hhas
    obtain ⟨-, -, rfl⟩ := smallImage_has.mp hhas
    exact ⟨by decide, by decide⟩
  · intro i k j l b hi hj
    obtain ⟨rfl, rfl, -⟩ := smallImage_has.mp hi
    obtain ⟨rfl, rfl, -⟩ := smallImage_has.mp hj
    exact ⟨rfl, rfl⟩
  · intro i
    have hsize : (smallImage.content i).size = if i = ROOTINO then 32 else 0 := by
      show (smallImage.inode i).size = _
      unfold smallImage
      by_cases hi : i = ROOTINO
      · simp only [hi, if_true]
      · simp only [hi, if_false]
        rfl
    constructor
    · constructor
      · exact fun k => rfl
      · rw [hsize]
        split <;> decide
      · intro k hk
        rw [smallImage_slot (Nat.le_of_lt hk), hsize]
        by_cases hi : i = ROOTINO
        · have hone : Content.blocksFor 32 = 1 := rfl
          rw [if_pos hi, hone, Nat.lt_one_iff]
          by_cases hk : k = 0
          · rw [if_pos ⟨hi, hk⟩]
            exact ⟨fun _ => hk, fun _ => by decide⟩
          · rw [if_neg fun h => hk h.2]
            exact ⟨fun h => absurd rfl h, fun h => absurd h hk⟩
        · rw [if_neg hi, if_neg fun h => hi h.1]
          exact ⟨fun h => absurd rfl h, fun h => absurd h (Nat.not_lt_zero k)⟩
      · rw [← Content.slot_last, smallImage_slot (Nat.le_refl _),
          if_neg fun h => absurd h.2 (by decide), hsize]
        split <;> exact ⟨fun h => absurd rfl h, fun h => absurd h (by decide)⟩
    · intro hfree
      rw [hsize]
      split
      · rename_i hi
        subst hi
        cases hfree
      · rfl

/-- The next `n` actions of a process, for each pair. -/
def turns (l : List (Bool × Nat)) : List (Act Bool (Call Bool)) :=
  l.flatMap fun x => List.replicate x.2 (.run x.1)

/-- `mkdir("/a")` beside the `open` that makes `/b`, then `unlink("/a")`, which frees the
block of the directory, beside a `write` of 600 bytes to `/b`. -/
def twoProcesses (fd : Fin NOFILE) : List (Act Bool (Call Bool)) :=
  List.flatten [[.call false (.fork true)], turns [(false, 2)],
    [.call false (.mkdir ['/', 'a']), .call true (.open ['/', 'b'] 0x201)],
    turns [(false, 14), (true, 5), (false, 42), (true, 14), (false, 5), (true, 23)],
    [.call false (.unlink ['/', 'a']), .call true (.write fd 600 fun _ => ⟨fun _ w => w, id⟩)],
    turns [(false, 14), (true, 14), (false, 14), (true, 9), (false, 30)]]

/-- The calls have returned; block 5 has been freed, and `/b` has the blocks 6 and 7. -/
def bothDone (t : Threads Bool (State Bool) Label Panic) : Bool :=
  (t.prog false).finished && (t.prog true).finished && !t.shared.used 5 && t.shared.used 6 &&
    t.shared.used 7

omit [Superblock] in
theorem quiet_of_bothDone {t : Threads Bool (State Bool) Label Panic}
    (h : bothDone t = true) : t.Quiet := by
  have hreturned : ∀ p, (t.prog p).finished = true → t.prog p = .ret () := by
    intro p hp
    cases hprog : t.prog p with
    | ret a => rfl
    | stop e | act l f k =>
        rw [hprog] at hp
        cases hp
  simp only [bothDone, Bool.and_eq_true] at h
  intro p
  cases p with
  | false => exact hreturned false h.1.1.1.1
  | true => exact hreturned true h.1.1.1.2

/-! ### The results -/

/-- Every block in use has one owner at any time, `bfree` never finds a block free, and
with no call going on the disk is in order. -/
theorem blocks_owned (himage : image.Sound)
    (h : (fileSystem image p0).ReachableWhen (Allows InTable) t) :
    (∀ p, t.prog p ≠ .stop .freeingFreeBlock) ∧
      (∀ b, IsData b → (t.shared.used b = true ↔ ∃ x, t.shared.Holds x b)) ∧
      (∀ x y b, t.shared.Holds x b → t.shared.Holds y b → x = y) ∧
      (t.Quiet → t.shared.disk.Sound) := by
  have hgood := good_of_reachable (C := False) himage False.elim
    (h.mono fun s a hok => by
      cases a with
      | run p => exact fun l f k hprog => (hok l f k hprog).ok
      | call p c => trivial)
  have hinv := hgood.inv
  refine ⟨?_, ?_, hinv.exact.apart, ?_⟩
  · intro p hstop
    exact hgood.admits hstop rfl
  · intro b hdata
    constructor
    · exact fun hused => hinv.exact.placed b ⟨hdata, hused⟩
    · rintro ⟨x, hx⟩
      exact (hinv.exact.inUse x b hx).2
  · intro hquiet
    exact hinv.sound fun p => hgood.quiet hquiet p

omit [Superblock] in
theorem blocks_owned_twoProcesses :
    letI := smallDisk
    ∃ t : Threads Bool (State Bool) Label Panic,
      (fileSystem smallImage false).ReachableWhen (Allows InTable) t ∧ bothDone t = true ∧
        t.shared.disk.Sound := by
  let := smallDisk
  obtain ⟨t, ht, hdone⟩ := System.exists_reachableWhen_of_run
    (M := fileSystem smallImage false) (Allows InTable)
    (s := { shared := boot smallImage false, prog := fun _ => .ret () }) (l := twoProcesses 0)
    (p := bothDone) ⟨rfl, fun _ => rfl⟩ (by decide +kernel)
  exact ⟨t, ht, hdone, (blocks_owned smallImage_sound ht).2.2.2 (quiet_of_bothDone hdone)⟩

/-- A transaction logs at most `MAXOPBLOCKS` blocks. -/
theorem transactions_small (himage : image.Sound) (hsize : Superblock.size ≤ BPB)
    (h : (fileSystem image p0).ReachableWhen (Allows PlainWalk) t) (p : P) :
    (t.shared.logged p).card ≤ MAXOPBLOCKS := by
  have hgood := good_of_reachable (C := True) himage (fun _ => hsize)
    (h.mono fun s a hok => by
      cases a with
      | run p => exact fun l f k hprog => (hok l f k hprog).ok
      | call p c => trivial)
  exact hgood.inv.logged trivial p

omit [Superblock] in
theorem transactions_small_twoProcesses :
    letI := smallDisk
    ∃ t : Threads Bool (State Bool) Label Panic,
      (fileSystem smallImage false).ReachableWhen (Allows PlainWalk) t ∧ bothDone t = true ∧
        ∀ p, (t.shared.logged p).card ≤ MAXOPBLOCKS := by
  let := smallDisk
  obtain ⟨t, ht, hdone⟩ := System.exists_reachableWhen_of_run
    (M := fileSystem smallImage false) (Allows PlainWalk)
    (s := { shared := boot smallImage false, prog := fun _ => .ret () }) (l := twoProcesses 0)
    (p := bothDone) ⟨rfl, fun _ => rfl⟩ (by decide +kernel)
  exact ⟨t, ht, hdone, transactions_small smallImage_sound (by decide) ht⟩

end OsWork.Ports.FsThreads

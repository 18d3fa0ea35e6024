import OsWork.Ports.FsWrite

/-!
# Files in a transaction

`log_write` of `log.c` notes the blocks that a transaction changes, and panics when it is called
with 29 of them noted.  `writei` makes all its changes in one transaction, that of its caller:
a long write panics, and so `filewrite` cuts it.

The code of `FsDisk` and `FsContent` is run in three ways here, with the log (`limited`),
without (`plain`), and with a list of all blocks that `log_write` is called with (`tracing`).
The buffers of the blocks that are noted stay in the cache, which has room for one more.

## Main results

* `limited_writei` — `writei` panics exactly when its blocks do not fit into the log, or on the
  disk; otherwise the log makes no difference.
* `limited_writei_short` — the writes of `filewrite` and `dirlink` fit.
* `file_contents` — files are arrays of bytes, as long as the log has room.
-/

namespace OsWork.Ports.FsDisk

open OsWork.Verified.ByteWords OsWork.Ports.FsLayout
open Function (update)

/-! ## The source -/

def LOGSIZE : Nat := MAXOPBLOCKS * 3

/-- `log.size`: in the super block that `mkfs` writes, `nlog` is `LOGSIZE`. -/
def logSize : Nat := LOGSIZE

/-- In a transaction: the blocks of the disk, and `log.lh.block`. -/
structure Trans where
  disk : Disk
  lh : List Nat

/-- A block that is noted already is not noted again. -/
def absorb (lh : List Nat) (b : Nat) : List Nat := if b ∈ lh then lh else lh ++ [b]

def limited : Log Trans where
  disk t := t.disk
  log_write t b buf :=
    -- "too big a transaction"
    if LOGSIZE ≤ t.lh.length ∨ logSize - 1 ≤ t.lh.length then none
    else some { disk := update t.disk b buf, lh := absorb t.lh b }

/-! ## Room in the log -/

/-- `log_write` of these blocks, one after the other, does not panic. -/
inductive Fits : List Nat → List Nat → Prop
  | nil {lh : List Nat} : Fits lh []
  | cons {lh bs : List Nat} {b : Nat} : lh.length < logSize - 1 → Fits (absorb lh b) bs →
      Fits lh (b :: bs)

/-- All blocks that `log_write` is called with, in order. -/
def tracing : Log (Disk × List Nat) where
  disk s := s.1
  log_write s b buf := some (update s.1 b buf, s.2 ++ [b])

/-- The blocks that `writei` calls `log_write` with. -/
def Superblock.logged (sb : Superblock) (devsw : Devsw) (d : Disk) (i : Nat) (ip : Inode)
    (src : Bytes) (off n : Nat) : List Nat :=
  match tracing.writei sb devsw (d, []) i ip src off n with
  | some r => r.1.2
  | none => []

/-- The number of blocks that the `n` bytes from `off` on are in. -/
def blocksOf (off n : Nat) : Nat :=
  if n = 0 then 0 else (off % BSIZE + n + (BSIZE - 1)) / BSIZE

theorem absorb_length (lh : List Nat) (b : Nat) : (absorb lh b).length ≤ lh.length + 1 := by
  unfold absorb
  split
  · exact Nat.le_succ _
  · rw [List.length_append]
    exact Nat.le_refl _

theorem fits_of_length : ∀ {bs lh : List Nat}, lh.length + bs.length < logSize → Fits lh bs := by
  intro bs
  induction bs with
  | nil => exact fun _ => .nil
  | cons b bs ih =>
      intro lh hlen
      have habsorb := absorb_length lh b
      rw [List.length_cons] at hlen
      exact .cons (by omega) (ih (by omega))

theorem fits_cons {lh bs : List Nat} {b : Nat} :
    Fits lh (b :: bs) ↔ lh.length < logSize - 1 ∧ Fits (absorb lh b) bs := by
  constructor
  · rintro (_ | ⟨hroom, hfits⟩)
    exact ⟨hroom, hfits⟩
  · exact fun h => .cons h.1 h.2

theorem fits_concat {b : Nat} : ∀ {bs lh : List Nat},
    Fits lh (bs ++ [b]) ↔ Fits lh bs ∧ (bs.foldl absorb lh).length < logSize - 1 := by
  intro bs
  induction bs with
  | nil =>
      intro lh
      rw [List.nil_append, fits_cons]
      exact ⟨fun h => ⟨.nil, h.1⟩, fun h => ⟨h.2, .nil⟩⟩
  | cons c bs ih =>
      intro lh
      rw [List.cons_append, fits_cons, fits_cons, ih, and_assoc]
      rfl

/-! ## The number of calls -/

section Writes

variable {σ : Type} {W : Log σ} {sb : Superblock} {t t' t'' : σ} {m n k : Nat}

/-- At most `n` calls of `log_write` lead from one state to the other. -/
inductive Log.Writes (W : Log σ) : Nat → σ → σ → Prop
  | refl {n : Nat} {t : σ} : W.Writes n t t
  | step {n b : Nat} {buf : Bytes} {t t' t'' : σ} : W.log_write t b buf = some t' →
      W.Writes n t' t'' → W.Writes (n + 1) t t''

namespace Log.Writes

theorem mono (h : W.Writes m t t') : ∀ {k : Nat}, m ≤ k → W.Writes k t t' := by
  induction h with
  | refl => exact fun _ => .refl
  | step hwrite _ ih =>
      intro k hk
      obtain ⟨k, rfl⟩ : ∃ l, k = l + 1 := ⟨k - 1, by omega⟩
      exact .step hwrite (ih (by omega))

theorem trans (h : W.Writes m t t') (h' : W.Writes n t' t'') : W.Writes (m + n) t t'' := by
  induction h with
  | refl => exact h'.mono (Nat.le_add_left _ _)
  | @step m b buf t₀ t₁ _ hwrite _ ih =>
      rw [Nat.add_right_comm]
      exact .step hwrite (ih h')

theorem one {b : Nat} {buf : Bytes} (h : W.log_write t b buf = some t') : W.Writes 1 t t' :=
  .step h .refl

end Log.Writes

theorem Log.writes_balloc {r : σ × Nat} (h : W.balloc sb t = some r) : W.Writes 2 t r.1 := by
  obtain ⟨_, -, h⟩ := Option.bind_eq_some_iff.mp h
  obtain ⟨t₁, hbit, h⟩ := Option.bind_eq_some_iff.mp h
  obtain ⟨t₂, hzero, rfl⟩ := Option.map_eq_some_iff.mp h
  exact (Writes.one hbit).trans (.one hzero)

theorem Log.writes_bmapAddr {ip : Inode} {r : σ × Inode × Nat}
    (h : W.bmapAddr sb t ip k = some r) : W.Writes 2 t r.1 := by
  unfold bmapAddr at h
  split at h
  · obtain ⟨_, halloc, rfl⟩ := Option.map_eq_some_iff.mp h
    exact writes_balloc halloc
  · cases h
    exact .refl

theorem Log.writes_bmapEntry {x : Nat} {r : σ × Nat} (h : W.bmapEntry sb t x k = some r) :
    W.Writes 3 t r.1 := by
  unfold bmapEntry at h
  split at h
  · obtain ⟨_, halloc, h⟩ := Option.bind_eq_some_iff.mp h
    obtain ⟨_, hwrite, rfl⟩ := Option.map_eq_some_iff.mp h
    exact (writes_balloc halloc).trans (.one hwrite)
  · cases h
    exact .refl

theorem Log.writes_bmap {ip : Inode} {r : σ × Inode × Nat} (h : W.bmap sb t ip k = some r) :
    W.Writes 5 t r.1 := by
  unfold bmap at h
  split at h
  · exact (writes_bmapAddr h).mono (by decide)
  · split at h
    · obtain ⟨_, haddr, h⟩ := Option.bind_eq_some_iff.mp h
      obtain ⟨_, hentry, rfl⟩ := Option.map_eq_some_iff.mp h
      exact (writes_bmapAddr haddr).trans (writes_bmapEntry hentry)
    · cases h

/-- A round of the loop of `writei` is about one block. -/
theorem blocksOf_round {off : Nat} (hn : n ≠ 0) (hm : m = min n (BSIZE - off % BSIZE)) :
    blocksOf off n = blocksOf (off + m) (n - m) + 1 := by
  have hmod := Nat.mod_lt off (show 0 < BSIZE by decide)
  unfold blocksOf
  rw [if_neg hn]
  split
  · unfold BSIZE at *
    omega
  · unfold BSIZE at *
    omega

theorem Log.writes_writeLoop : ∀ (fuel : Nat) {t : σ} {ip : Inode} {src : Bytes} {off n : Nat}
    {r : σ × Inode}, W.writeLoop sb fuel t ip src off n = some r →
      W.Writes (6 * blocksOf off n) t r.1 := by
  intro fuel
  induction fuel with
  | zero =>
      intro t ip src off n r h
      cases h
      exact .refl
  | succ fuel ih =>
      intro t ip src off n r h
      unfold writeLoop at h
      by_cases hzero : n = 0
      · rw [if_pos hzero] at h
        cases h
        exact .refl
      rw [if_neg hzero] at h
      obtain ⟨_, hbmap, h⟩ := Option.bind_eq_some_iff.mp h
      obtain ⟨_, hwrite, h⟩ := Option.bind_eq_some_iff.mp h
      have hround := ((writes_bmap hbmap).trans (.one hwrite)).trans (ih h)
      exact hround.mono (by rw [blocksOf_round hzero rfl]; omega)

theorem Log.writes_writei {devsw : Devsw} {i : Nat} {ip : Inode} {src : Bytes} {off : Nat}
    {r : σ × Inode × Int} (h : W.writei sb devsw t i ip src off n = some r) :
    W.Writes (6 * blocksOf off n + 1) t r.1 := by
  unfold writei at h
  split at h
  · split at h <;>
    · cases h
      exact .refl
  · split at h
    · cases h
      exact .refl
    · split at h
      · cases h
        exact .refl
      · obtain ⟨_, hloop, h⟩ := Option.bind_eq_some_iff.mp h
        have hwrites := writes_writeLoop n hloop
        split at h
        · obtain ⟨_, hupdate, rfl⟩ := Option.map_eq_some_iff.mp h
          exact hwrites.trans (.one hupdate)
        · cases h
          exact hwrites.mono (Nat.le_succ _)

theorem tracing_length {s s' : Disk × List Nat} (h : tracing.Writes n s s') :
    s'.2.length ≤ s.2.length + n := by
  induction h with
  | refl => exact Nat.le_add_right _ _
  | step hwrite _ ih =>
      cases hwrite
      rw [List.length_append, List.length_singleton] at ih
      omega

theorem logged_length (sb : Superblock) (devsw : Devsw) (d : Disk) (i : Nat) (ip : Inode)
    (src : Bytes) (off n : Nat) :
    (sb.logged devsw d i ip src off n).length ≤ 6 * blocksOf off n + 1 := by
  unfold Superblock.logged
  split
  · rename_i r hrun
    have hlen := tracing_length (Log.writes_writei hrun)
    rwa [List.length_nil, Nat.zero_add] at hlen
  · exact Nat.zero_le _

end Writes

/-! ## With the log and without -/

/-- What `x` does, `y` does; where `x` panics and `y` goes on, something is wrong. -/
def Follows {β γ : Type} (R : β → γ → Prop) (Bad : γ → Prop) : Option β → Option γ → Prop
  | some x, y => ∃ z, y = some z ∧ R x z
  | none, y => ∀ z, y = some z → Bad z

section Sim

variable {β γ β' γ' : Type} {R : β → γ → Prop} {Bad : γ → Prop} {R' : β' → γ' → Prop}
  {Bad' : γ' → Prop}

theorem Follows.bind {x : Option β} {y : Option γ} {f : β → Option β'} {g : γ → Option γ'}
    (h : Follows R Bad x y) (hgood : ∀ a b, R a b → Follows R' Bad' (f a) (g b))
    (hbad : ∀ b c, Bad b → g b = some c → Bad' c) : Follows R' Bad' (x.bind f) (y.bind g) := by
  cases x with
  | some a =>
      obtain ⟨b, rfl, hab⟩ := h
      exact hgood a b hab
  | none =>
      intro c hc
      obtain ⟨b, rfl, hb⟩ := Option.bind_eq_some_iff.mp hc
      exact hbad b c (h b rfl) hb

theorem Follows.map {x : Option β} {y : Option γ} {f : β → β'} {g : γ → γ'}
    (h : Follows R Bad x y) (hgood : ∀ a b, R a b → R' (f a) (g b))
    (hbad : ∀ b, Bad b → Bad' (g b)) : Follows R' Bad' (x.map f) (y.map g) := by
  cases x with
  | some a =>
      obtain ⟨b, rfl, hab⟩ := h
      exact ⟨g b, rfl, hgood a b hab⟩
  | none =>
      intro c hc
      obtain ⟨b, rfl, rfl⟩ := Option.map_eq_some_iff.mp hc
      exact hbad b (h b rfl)

end Sim

/-- The states are related, and the results are the same. -/
def OnState {σ τ α : Type} (R : σ → τ → Prop) (p : σ × α) (q : τ × α) : Prop :=
  R p.1 q.1 ∧ p.2 = q.2

/-- `W` does what `V` does, as long as it does not panic. -/
structure Log.Sim {σ τ : Type} (W : Log σ) (V : Log τ) (R : σ → τ → Prop) (Bad : τ → Prop) :
    Prop where
  disk : ∀ {s t}, R s t → W.disk s = V.disk t
  write : ∀ {s t} (b : Nat) (buf : Bytes), R s t →
    Follows R Bad (W.log_write s b buf) (V.log_write t b buf)
  stays : ∀ {t t'} {b : Nat} {buf : Bytes}, Bad t → V.log_write t b buf = some t' → Bad t'

namespace Log.Sim

variable {σ τ : Type} {W : Log σ} {V : Log τ} {R : σ → τ → Prop} {Bad : τ → Prop}
  {sb : Superblock} {s : σ} {t : τ}

theorem bad (h : W.Sim V R Bad) {n : Nat} {t t' : τ} (hw : V.Writes n t t') (ht : Bad t) :
    Bad t' := by
  induction hw with
  | refl => exact ht
  | step hwrite _ ih => exact ih (h.stays ht hwrite)

theorem balloc (h : W.Sim V R Bad) (hst : R s t) :
    Follows (OnState R) (fun q => Bad q.1) (W.balloc sb s) (V.balloc sb t) := by
  unfold Log.balloc
  rw [h.disk hst]
  cases (List.range ((sb.size + (BPB - 1)) / BPB)).findSome? fun k =>
      (sb.ballocIn (V.disk t) (k * BPB)).map fun bi => (k * BPB, bi) with
  | none => exact nofun
  | some r =>
      simp only [Option.bind_some]
      unfold Log.ballocFound
      rw [h.disk hst]
      refine (h.write _ _ hst).bind (fun s₁ t₁ h₁ => ?_) fun t₁ q hbad hq => ?_
      · exact (h.write _ _ h₁).map (fun _ _ h₂ => ⟨h₂, rfl⟩) fun _ hbad => hbad
      · obtain ⟨t₂, hzero, rfl⟩ := Option.map_eq_some_iff.mp hq
        exact h.stays hbad hzero

theorem bmapAddr (h : W.Sim V R Bad) (hst : R s t) (ip : Inode) (k : Nat) :
    Follows (OnState R) (fun q => Bad q.1) (W.bmapAddr sb s ip k) (V.bmapAddr sb t ip k) := by
  unfold Log.bmapAddr
  split
  · refine (h.balloc hst).map ?_ fun _ hbad => hbad
    rintro ⟨s₁, b⟩ ⟨t₁, b'⟩ ⟨h₁, rfl⟩
    exact ⟨h₁, rfl⟩
  · exact ⟨_, rfl, hst, rfl⟩

theorem bmapEntry (h : W.Sim V R Bad) (hst : R s t) (x j : Nat) :
    Follows (OnState R) (fun q => Bad q.1) (W.bmapEntry sb s x j) (V.bmapEntry sb t x j) := by
  unfold Log.bmapEntry
  rw [h.disk hst]
  split
  · refine (h.balloc hst).bind ?_ fun q q' hbad hq => ?_
    · rintro ⟨s₁, b⟩ ⟨t₁, b'⟩ ⟨h₁, rfl⟩
      simp only [h.disk h₁]
      exact (h.write _ _ h₁).map (fun _ _ h₂ => ⟨h₂, rfl⟩) fun _ hbad => hbad
    · obtain ⟨t₂, hwrite, rfl⟩ := Option.map_eq_some_iff.mp hq
      exact h.stays hbad hwrite
  · exact ⟨_, rfl, hst, rfl⟩

theorem bmap (h : W.Sim V R Bad) (hst : R s t) (ip : Inode) (bn : Nat) :
    Follows (OnState R) (fun q => Bad q.1) (W.bmap sb s ip bn) (V.bmap sb t ip bn) := by
  unfold Log.bmap
  split
  · exact h.bmapAddr hst ip bn
  · split
    · refine (h.bmapAddr hst ip NDIRECT).bind ?_ fun q q' hbad hq => ?_
      · rintro ⟨s₁, ip₁, x⟩ ⟨t₁, ip₁', x'⟩ ⟨h₁, heq⟩
        cases heq
        refine (h.bmapEntry h₁ x _).map ?_ fun _ hbad => hbad
        rintro ⟨s₂, b⟩ ⟨t₂, b'⟩ ⟨h₂, rfl⟩
        exact ⟨h₂, rfl⟩
      · obtain ⟨_, hentry, rfl⟩ := Option.map_eq_some_iff.mp hq
        exact h.bad (writes_bmapEntry hentry) hbad
    · exact nofun

theorem writeLoop (h : W.Sim V R Bad) : ∀ (fuel : Nat) {s : σ} {t : τ} (ip : Inode) (src : Bytes)
    (off n : Nat), R s t → Follows (OnState R) (fun q => Bad q.1)
      (W.writeLoop sb fuel s ip src off n) (V.writeLoop sb fuel t ip src off n) := by
  intro fuel
  induction fuel with
  | zero =>
      intro s t ip src off n hst
      exact ⟨_, rfl, hst, rfl⟩
  | succ fuel ih =>
      intro s t ip src off n hst
      unfold Log.writeLoop
      split
      · exact ⟨_, rfl, hst, rfl⟩
      refine (h.bmap hst ip _).bind ?_ fun q q' hbad hq => ?_
      · rintro ⟨s₁, ip₁, x⟩ ⟨t₁, ip₁', x'⟩ ⟨h₁, heq⟩
        cases heq
        simp only [h.disk h₁]
        refine (h.write _ _ h₁).bind (fun _ _ h₂ => ih _ _ _ _ h₂) fun _ _ hbad hloop => ?_
        exact h.bad (writes_writeLoop fuel hloop) hbad
      · obtain ⟨_, hwrite, hloop⟩ := Option.bind_eq_some_iff.mp hq
        exact h.bad (writes_writeLoop fuel hloop) (h.stays hbad hwrite)

theorem writei (sb : Superblock) (h : W.Sim V R Bad) (hst : R s t) (devsw : Devsw) (i : Nat)
    (ip : Inode) (src : Bytes) (off n : Nat) : Follows (OnState R) (fun q => Bad q.1)
      (W.writei sb devsw s i ip src off n) (V.writei sb devsw t i ip src off n) := by
  unfold Log.writei
  split
  · split <;> exact ⟨_, rfl, hst, rfl⟩
  · split
    · exact ⟨_, rfl, hst, rfl⟩
    · split
      · exact ⟨_, rfl, hst, rfl⟩
      · refine (h.writeLoop n ip src off n hst).bind ?_ fun q q' hbad hq => ?_
        · rintro ⟨s₁, ip₁⟩ ⟨t₁, ip₁'⟩ ⟨h₁, heq⟩
          cases heq
          split
          · unfold Log.iupdate
            simp only [h.disk h₁]
            exact (h.write _ _ h₁).map (fun _ _ h₂ => ⟨h₂, rfl⟩) fun _ hbad => hbad
          · exact ⟨_, rfl, h₁, rfl⟩
        · split at hq
          · obtain ⟨_, hupdate, rfl⟩ := Option.map_eq_some_iff.mp hq
            exact h.stays hbad hupdate
          · cases hq
            exact hbad

end Log.Sim

/-- The blocks that have been written are those that the log has noted. -/
structure Noted (lh : List Nat) (t : Trans) (s : Disk × List Nat) : Prop where
  disk : t.disk = s.1
  fits : Fits lh s.2
  noted : t.lh = s.2.foldl absorb lh

theorem limited_sim (lh : List Nat) :
    limited.Sim tracing (Noted lh) fun s => ¬ Fits lh s.2 where
  disk h := h.disk
  write := by
    rintro ⟨d, noted⟩ ⟨d', bs⟩ b buf ⟨hdisk, hfits, hnoted⟩
    cases hdisk
    cases hnoted
    by_cases hroom : (bs.foldl absorb lh).length < logSize - 1
    · have hlog : ¬ (LOGSIZE ≤ (bs.foldl absorb lh).length ∨
          logSize - 1 ≤ (bs.foldl absorb lh).length) := by
        unfold logSize at *
        omega
      show Follows _ _ (if LOGSIZE ≤ (bs.foldl absorb lh).length ∨ _ then none else _) _
      rw [if_neg hlog]
      refine ⟨_, rfl, rfl, fits_concat.mpr ⟨hfits, hroom⟩, ?_⟩
      rw [List.foldl_append]
      rfl
    · show Follows _ _ (if LOGSIZE ≤ (bs.foldl absorb lh).length ∨ _ then none else _) _
      rw [if_pos (.inr (Nat.le_of_not_lt hroom))]
      rintro _ ⟨⟩ hall
      exact hroom (fits_concat.mp hall).2
  stays := by
    rintro ⟨d, bs⟩ _ b buf hbad ⟨⟩ hall
    exact hbad (fits_concat.mp hall).1

theorem plain_sim : plain.Sim tracing (fun d s => d = s.1) fun _ => False where
  disk h := h
  write := by
    rintro _ ⟨d, bs⟩ b buf rfl
    exact ⟨_, rfl, rfl⟩
  stays h := h.elim

variable {sb : Superblock} {devsw : Devsw} {i off n : Nat} {ip : Inode} {src : Bytes}

/-- `writei` in a transaction does what it does without the log, or panics. -/
theorem limited_writei (t : Trans) {r : Disk × Inode × Int}
    (hrun : sb.writei devsw t.disk i ip src off n = some r) :
    (Fits t.lh (sb.logged devsw t.disk i ip src off n) →
      ∃ t', limited.writei sb devsw t i ip src off n = some (t', r.2) ∧ t'.disk = r.1) ∧
    (¬ Fits t.lh (sb.logged devsw t.disk i ip src off n) →
      limited.writei sb devsw t i ip src off n = none) := by
  have hplain := plain_sim.writei sb (s := t.disk) (t := (t.disk, [])) rfl devsw i ip src off n
  rw [show plain.writei sb devsw t.disk i ip src off n = some r from hrun] at hplain
  obtain ⟨⟨⟨d, bs⟩, ip', res⟩, htrace, hdisk, hres⟩ := hplain
  have hlogged : sb.logged devsw t.disk i ip src off n = bs := by
    unfold Superblock.logged
    rw [htrace]
  have hnoted : Noted t.lh t (t.disk, []) := ⟨rfl, .nil, rfl⟩
  have hlimited := (limited_sim t.lh).writei sb hnoted devsw i ip src off n
  rw [htrace] at hlimited
  rw [hlogged]
  cases hrun' : limited.writei sb devsw t i ip src off n with
  | none =>
      rw [hrun'] at hlimited
      have hbad : ¬ Fits t.lh bs := hlimited _ rfl
      exact ⟨fun hall => absurd hall hbad, fun _ => rfl⟩
  | some q =>
      rw [hrun'] at hlimited
      obtain ⟨_, hz, hR, hq⟩ := hlimited
      cases hz
      refine ⟨fun _ => ⟨q.1, ?_, ?_⟩, fun hnot => absurd hR.fits hnot⟩
      · rw [hres, ← hq]
      · rw [hR.disk]
        exact hdisk.symm

/-- Without a block on the disk `writei` panics in a transaction as well. -/
theorem limited_writei_none (t : Trans) (hrun : sb.writei devsw t.disk i ip src off n = none) :
    limited.writei sb devsw t i ip src off n = none := by
  have hplain := plain_sim.writei sb (s := t.disk) (t := (t.disk, [])) rfl devsw i ip src off n
  rw [show plain.writei sb devsw t.disk i ip src off n = none from hrun] at hplain
  have hnoted : Noted t.lh t (t.disk, []) := ⟨rfl, .nil, rfl⟩
  have hlimited := (limited_sim t.lh).writei sb hnoted devsw i ip src off n
  cases hrun' : limited.writei sb devsw t i ip src off n with
  | none => rfl
  | some q =>
      rw [hrun'] at hlimited
      obtain ⟨z, hz, -⟩ := hlimited
      exact (hplain z hz).elim

/-- A short write fits. -/
theorem fits_of_short (sb : Superblock) (devsw : Devsw) (t : Trans) (i : Nat) (ip : Inode)
    (src : Bytes) (off n : Nat) (h : t.lh.length + (6 * blocksOf off n + 1) < logSize) :
    Fits t.lh (sb.logged devsw t.disk i ip src off n) :=
  fits_of_length (Nat.lt_of_le_of_lt
    (Nat.add_le_add_left (logged_length sb devsw t.disk i ip src off n) _) h)

/-- What `filewrite` and `dirlink` write at once fits into an empty log. -/
theorem fits_of_le_writeMax (sb : Superblock) (devsw : Devsw) (d : Disk) (i : Nat) (ip : Inode)
    (src : Bytes) (off n : Nat) (h : n ≤ writeMax) :
    Fits [] (sb.logged devsw d i ip src off n) := by
  refine fits_of_short sb devsw ⟨d, []⟩ i ip src off n ?_
  have hmod := Nat.mod_lt off (show 0 < BSIZE by decide)
  have hblocks : blocksOf off n ≤ 4 := by
    have hmax : n ≤ 1536 := h
    unfold blocksOf BSIZE at *
    split <;> omega
  show 0 + (6 * blocksOf off n + 1) < 30
  omega

/-- In a transaction of its own, a write as short as those of `filewrite` and `dirlink` is what
it is without the log. -/
theorem limited_writei_short {d : Disk} (hn : n ≤ writeMax) {r : Disk × Inode × Int}
    (hrun : sb.writei devsw d i ip src off n = some r) :
    ∃ t', limited.writei sb devsw ⟨d, []⟩ i ip src off n = some (t', r.2) ∧ t'.disk = r.1 :=
  (limited_writei ⟨d, []⟩ hrun).1 (fits_of_le_writeMax sb devsw d i ip src off n hn)

/-! ## Arrays of bytes -/

/-- Files are arrays of bytes: `writei` replaces bytes and `readi` returns them, or it refuses
and nothing has changed.  It panics exactly when its blocks do not fit into the log, which they
do when it writes few. -/
theorem file_contents (sb : Superblock) (devsw : Devsw) (t : Trans) (i : Nat) (src : Bytes)
    (off n : Nat) (hsb : sb.Ok) (h : Consistent sb t.disk) (hi : i < sb.ninodes)
    (hdev : (sb.load t.disk i).type ≠ T_DEV) (hoff : off < 4294967296) (hn : n < 4294967296) :
    (off ≤ (sb.load t.disk i).size ∧ off + n < 4294967296 ∧ off + n ≤ MAXFILE * BSIZE →
      slotsFor (max (sb.load t.disk i).size (off + n)) ≤
        sb.freeCount t.disk + slotsFor (sb.load t.disk i).size →
      (Fits t.lh (sb.logged devsw t.disk i (sb.load t.disk i) src off n) →
        ∃ t', limited.writei sb devsw t i (sb.load t.disk i) src off n =
            some (t', sb.load t'.disk i, (n : Int)) ∧
          Consistent sb t'.disk ∧
          (sb.load t'.disk i).size = max (sb.load t.disk i).size (off + n) ∧
          (∀ j, j < sb.ninodes → j ≠ i → sb.contents t'.disk j = sb.contents t.disk j) ∧
          ∀ off' n', off' < 4294967296 → n' < 4294967296 →
            limited.readi sb devsw t' (sb.load t'.disk i) off' n' =
              some (t', sb.load t'.disk i, readResult
                (splice (sb.contents t.disk i) off ((List.range n).map src)) off' n')) ∧
      (¬ Fits t.lh (sb.logged devsw t.disk i (sb.load t.disk i) src off n) →
        limited.writei sb devsw t i (sb.load t.disk i) src off n = none) ∧
      (t.lh.length + (6 * blocksOf off n + 1) < logSize →
        Fits t.lh (sb.logged devsw t.disk i (sb.load t.disk i) src off n))) ∧
    (¬ (off ≤ (sb.load t.disk i).size ∧ off + n < 4294967296 ∧ off + n ≤ MAXFILE * BSIZE) →
      limited.writei sb devsw t i (sb.load t.disk i) src off n =
        some (t, sb.load t.disk i, -1)) := by
  refine ⟨?_, limited.writei_refused t devsw hdev hoff hn⟩
  rintro ⟨hle, -, hmax⟩ hfree
  rcases h.writei hsb devsw hi hdev hle hmax src with ⟨d', hrun, hw⟩ | ⟨-, hfull⟩
  swap
  · omega
  obtain ⟨hroom, hpanic⟩ := limited_writei t hrun
  refine ⟨fun hfits => ?_, hpanic, fits_of_short sb devsw t i _ src off n⟩
  obtain ⟨t', hrun', hdisk⟩ := hroom hfits
  subst hdisk
  refine ⟨t', hrun', hw.consistent, ?_, fun j hj hji => (hw.other j hj hji).2, ?_⟩
  · rw [hw.fields]
    simp only
    rw [splice_length _ _ (by rw [contents_length]; exact hle), contents_length, List.length_map,
      List.length_range]
  · intro off' n' hoff' hn'
    have htype : (sb.load t'.disk i).type ≠ T_DEV := by
      rw [hw.fields]
      exact hdev
    have hread := Consistent.log_readi (W := limited) (t := t') hw.consistent devsw hi htype hoff'
      hn'
    rw [show limited.disk t' = t'.disk from rfl, hw.contents] at hread
    exact hread

/-- Five bytes are written to the empty file and read back. -/
theorem smallDisk_write : ∃ t',
    limited.writei smallSuperblock noDevices ⟨smallDisk, []⟩ 2 (smallSuperblock.load smallDisk 2)
        (fun _ => 7) 0 5 = some (t', smallSuperblock.load t'.disk 2, ((5 : Nat) : Int)) ∧
      limited.readi smallSuperblock noDevices t' (smallSuperblock.load t'.disk 2) 3 9 =
        some (t', smallSuperblock.load t'.disk 2, 2, [7, 7]) := by
  have hsize := (smallDisk_load (i := 2) (by decide)).1
  have htype : (smallSuperblock.load smallDisk 2).type ≠ T_DEV := by decide
  obtain ⟨hwrite, -⟩ := file_contents smallSuperblock noDevices ⟨smallDisk, []⟩ 2 (fun _ => 7) 0 5
    smallSuperblock_ok smallDisk_consistent (by decide) htype (by decide) (by decide)
  obtain ⟨hreturns, -, hfits⟩ := hwrite ⟨Nat.zero_le _, by decide, by decide⟩ (by
    rw [hsize, smallDisk_free]
    decide)
  obtain ⟨t', hrun, -, -, -, hread⟩ := hreturns (hfits (by decide))
  refine ⟨t', hrun, ?_⟩
  have hempty : smallSuperblock.contents smallDisk 2 = [] := by
    unfold Superblock.contents
    rw [hsize]
    rfl
  rw [hread 3 9 (by decide) (by decide), hempty]
  rfl

/-- There is room on the disk for a file of 28 blocks, but not in the log. -/
theorem smallDisk_tooBig :
    Consistent smallSuperblock smallDisk ∧
    ((smallSuperblock.load smallDisk 2).type = T_FILE ∧
      (smallSuperblock.load smallDisk 2).size = 0) ∧
    (28 * BSIZE ≤ MAXFILE * BSIZE ∧
      slotsFor (28 * BSIZE) ≤ smallSuperblock.freeCount smallDisk) ∧
    limited.writei smallSuperblock noDevices ⟨smallDisk, []⟩ 2 (smallSuperblock.load smallDisk 2)
      (fun _ => 7) 0 (28 * BSIZE) = none := by
  refine ⟨smallDisk_consistent, ⟨by decide, (smallDisk_load (by decide)).1⟩, ⟨by decide, ?_⟩, ?_⟩
  · rw [smallDisk_free]
    decide
  · rw [← Option.isNone_iff_eq_none]
    decide +kernel

end OsWork.Ports.FsDisk

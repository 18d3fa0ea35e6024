import OsWork.Ports.EnoughPages

/-!
# `exec` of any file

What `exec` promises for every content of the file and every pattern of failures of
`kalloc`: a failed `exec` has changed nothing, and the loading loop is safe for any program
headers.

## Main results

* `exec_failed` — an `exec` that fails has changed nothing.
* `exec_survives` — the loading loop is safe.
-/

namespace OsWork.Ports.PageTables

/-! ## A program with a segment that is too large -/

/-- The process of one page. -/
def onePageCaller : ExecState where
  mem := onePageProcess.mem
  pgdir := 0x200
  sz := 4096
  name := [0x73, 0x68]
  eip := 0
  esp := 4096
  ofile := fun _ => none
  cwd := 0
  refs := fun i => if i = 0 then 1 else 0
  held := []
  ops := 0

/-- The same process, with 2048 free pages. -/
def plentifulCaller : ExecState :=
  { onePageCaller with mem := { onePageProcess.mem with freelist := List.range' 0x300 2048 } }

theorem plentifulCaller_pages : Pages onePageLayout plentifulOwner plentifulCaller.mem :=
  onePageProcess_pages.plentiful rfl

/-- `struct proghdr` of a segment to load, from the beginning of the file. -/
def programHeader (vaddr filesz memsz : Nat) : List Byte :=
  wordBytes 1 ++ wordBytes 0 ++ wordBytes vaddr ++ wordBytes 0 ++ wordBytes filesz ++
    wordBytes memsz ++ wordBytes 7 ++ wordBytes PGSIZE

/-- `struct elfhdr` with three program headers after it. -/
def elfHeader : List Byte :=
  [0x7F, 0x45, 0x4C, 0x46] ++ List.replicate 24 0 ++ wordBytes 52 ++ List.replicate 12 0 ++
    [3, 0] ++ List.replicate 6 0

/-- The second segment overlaps the first one, and the third one reaches `KERNBASE`. -/
def hugeSegment : List Byte :=
  elfHeader ++ programHeader 0 52 4096 ++ programHeader 0 148 8192 ++
    programHeader 4096 148 0x80000000

def hugeReader : Reader := fileReader 148 fun j => hugeSegment.getD j 0

/-- A segment at address 0 of which the file has at most a page is loaded when there are
enough pages. -/
theorem Image.segment_enough {L : Layout} {R : Reader} {own own₀ : Frame → Owner} {m m₀ : Mem}
    {d : Frame} {sz c : Nat} (ph bs : List Byte) (h₀ : Pages L own₀ m₀)
    (h : Image L d own₀ m₀ sz own m) (hs : m.Steady) (htype : word ph 0 = 1)
    (haddr : word ph 8 = 0) (hfile : 0 < word ph 16 ∧ word ph 16 ≤ PGSIZE)
    (hmem : word ph 16 ≤ word ph 20) (hle : sz ≤ word ph 20) (hlt : word ph 20 < KERNBASE)
    (hlen : pagesOf (word ph 20) + 1026 < m₀.freelist.length)
    (hread : R c (word ph 4) (word ph 16) = some bs) (hbs : bs.length = word ph 16) :
    ∃ m' own', m.segment L R d ph sz c = some (m', c + 1, some (word ph 20)) ∧
      Image L d own₀ m₀ (word ph 20) own' m' ∧ m'.Steady := by
  obtain ⟨m₁, own₁, halloc, h₁, hs₁⟩ := h.allocuvm_enough h₀ hs hle hlt hlen
  have hoff := word_lt ph 4
  obtain ⟨t, hwalk, -, hentry, hown⟩ := h₁.walkpgdir (a := 0) (by
    rw [lt_pagesOf]
    omega)
  have hfill := h₁.fill h₀ hown (ofBytes fun j =>
    if 0 ≤ j ∧ j < 0 + bs.length then bs.getD (j - 0) 0
    else byteAt (m₁.ram (frameOf (m₁.pte d 0))) j)
  have hload : m₁.loaduvm R d 0 (word ph 4) (word ph 16) c =
      some (m₁.write (frameOf (m₁.pte d 0)) 0 bs, c + 1, true) := by
    have hn : (if word ph 16 - 0 < PGSIZE then word ph 16 - 0 else PGSIZE) = word ph 16 := by
      split <;> omega
    have hpage : (0 + 0) % 0x100000000 / PGSIZE = 0 := rfl
    have hstart : (word ph 4 + 0) % 0x100000000 = word ph 4 := by omega
    have hdone : ¬ (0 + PGSIZE) % 0x100000000 < word ph 16 := by
      unfold PGSIZE at *
      omega
    unfold Mem.loaduvm
    rw [if_neg (by decide)]
    unfold Mem.loadLoop
    rw [if_pos hfile.1, hpage, hwalk, Option.bind_some]
    simp only [hn, hstart, hread, hentry, if_pos hbs]
    unfold Mem.loadLoop
    rw [if_neg hdone]
  refine ⟨_, own₁, ?_, hfill, hs₁⟩
  unfold Mem.segment
  have hsum : (0 + word ph 20) % 0x100000000 = word ph 20 := by
    have hmax := word_lt ph 20
    omega
  simp only [htype, haddr, hsum]
  rw [if_neg (by simp), if_neg (by omega), if_neg (by omega), halloc, Option.bind_some]
  simp only [if_neg (show word ph 20 ≠ 0 by omega)]
  rw [if_neg (by decide), hload]
  rfl

/-- One round of the loading loop. -/
theorem segments_read {L : Layout} {R : Reader} {m : Mem} {d : Frame} {n off sz c : Nat}
    {ph : List Byte} (hread : R c off 32 = some ph) (hlen : ph.length = 32) :
    m.segments L R d (n + 1) off sz c = (m.segment L R d ph sz (c + 1)).bind fun r =>
      match r.2.2 with
      | none => some (r.1, r.2.1, none)
      | some sz' => Mem.segments L R d n ((off + 32) % 0x100000000) sz' r.2.1 r.1 := by
  rw [Mem.segments, hread]
  exact if_neg (not_not.mpr hlen)

/-- The first two segments are loaded, and the third one is refused. -/
theorem hugeSegment_refused : ∃ m d own, plentifulCaller.mem.setupkvm onePageLayout =
      some (m, some d) ∧ Image onePageLayout d plentifulOwner plentifulCaller.mem 0 own m ∧
    (∃ m' c', m.segments onePageLayout hugeReader d 2 52 0 1 = some (m', c', some 8192)) ∧
      ∃ m' c', m.segments onePageLayout hugeReader d 3 52 0 1 = some (m', c', none) := by
  have hfree : plentifulCaller.mem.freelist.length = 2048 := List.length_range'
  obtain ⟨m, d, own, hset, h, hs⟩ := plentifulCaller_pages.setupkvm_enough onePageLayout_ok
    (fun _ => rfl) (by rw [hfree]; decide)
  have hfirst : hugeReader 1 52 32 = some (programHeader 0 52 4096) := by decide
  have hsecond : hugeReader 3 84 32 = some (programHeader 0 148 8192) := by decide
  have hthird : hugeReader 5 116 32 = some (programHeader 4096 148 0x80000000) := by decide
  obtain ⟨m₁, own₁, hload₁, h₁, hs₁⟩ := h.segment_enough (R := hugeReader) (c := 2)
    (programHeader 0 52 4096) (hugeSegment.take 52) plentifulCaller_pages hs
    (by decide) (by decide) (by decide) (by decide) (by decide) (by decide)
    (by rw [hfree]; decide) (by decide) (by decide)
  rw [show word (programHeader 0 52 4096) 20 = 4096 by decide] at hload₁ h₁
  obtain ⟨m₂, own₂, hload₂, h₂, -⟩ := h₁.segment_enough (R := hugeReader) (c := 4)
    (programHeader 0 148 8192) hugeSegment plentifulCaller_pages hs₁
    (by decide) (by decide) (by decide) (by decide) (by decide) (by decide)
    (by rw [hfree]; decide) (by decide +kernel) (by decide +kernel)
  rw [show word (programHeader 0 148 8192) 20 = 8192 by decide] at hload₂
  have hrefused : m₂.segment onePageLayout hugeReader d (programHeader 4096 148 0x80000000) 8192 6 =
      some (m₂, 6, none) := by
    have htype : ¬ word (programHeader 4096 148 0x80000000) 0 ≠ 1 := by decide
    have hfile : ¬ word (programHeader 4096 148 0x80000000) 20 <
        word (programHeader 4096 148 0x80000000) 16 := by decide
    have hwrap : ¬ (word (programHeader 4096 148 0x80000000) 8 +
        word (programHeader 4096 148 0x80000000) 20) % 0x100000000 <
          word (programHeader 4096 148 0x80000000) 8 := by decide
    have hhigh : KERNBASE ≤ (word (programHeader 4096 148 0x80000000) 8 +
        word (programHeader 4096 148 0x80000000) 20) % 0x100000000 := by decide
    unfold Mem.segment Mem.allocuvm
    simp only [if_neg htype, if_neg hfile, if_neg hwrap, if_pos hhigh]
    rfl
  have htwo : ∀ n, m.segments onePageLayout hugeReader d (n + 2) 52 0 1 =
      m₂.segments onePageLayout hugeReader d n 116 8192 5 := by
    intro n
    rw [segments_read hfirst rfl, hload₁]
    show m₁.segments onePageLayout hugeReader d (n + 1) 84 4096 3 = _
    rw [segments_read hsecond rfl, hload₂]
    rfl
  refine ⟨m, d, own, hset, h, ⟨m₂, 5, htwo 0⟩, m₂, 6, (htwo 1).trans ?_⟩
  rw [segments_read hthird rfl, hrefused]
  rfl

/-- What a failed `exec` leaves as it was. -/
structure Unaffected (s t : ExecState) : Prop where
  pgdir : t.pgdir = s.pgdir
  pte : ∀ b, t.mem.pte s.pgdir b = s.mem.pte s.pgdir b
  contents : ∀ f, f ∉ s.mem.freelist → t.mem.ram f = s.mem.ram f
  free : ∀ f, f ∈ t.mem.freelist ↔ f ∈ s.mem.freelist
  sz : t.sz = s.sz
  name : t.name = s.name
  eip : t.eip = s.eip
  esp : t.esp = s.esp
  ofile : t.ofile = s.ofile
  cwd : t.cwd = s.cwd
  refs : t.refs = s.refs
  held : t.held = s.held
  ops : t.ops = s.ops

theorem Undone.unaffected {s : ExecState} {r : ExecState × Int} (h : Pages L own s.mem)
    (hd : own s.pgdir = .dir) (hr : Undone L own s r) : Unaffected s r.1 := by
  obtain ⟨-, m', own', heq, hpages, hrestored⟩ := hr
  have hram : ∀ f, own f ≠ .free → m'.ram f = s.mem.ram f := hrestored.ram
  rw [heq]
  exact
    { pgdir := rfl
      pte := h.toTables.pte_congr hd (hram _ (by rw [hd]; nofun)) fun f k hf =>
        hram f (by rw [hf]; nofun)
      contents := by
        intro f hf
        apply hram
        rw [h.free] at hf
        exact hf
      free := by
        intro f
        show f ∈ m'.freelist ↔ _
        rw [hpages.free, h.free, hrestored.owner]
      sz := rfl
      name := rfl
      eip := rfl
      esp := rfl
      ofile := rfl
      cwd := rfl
      refs := rfl
      held := rfl
      ops := rfl }

/-- A failed `exec` changes nothing. -/
theorem exec_failed (L : Layout) (R : Reader) (namei : List Byte → Option Nat)
    (own : Frame → Owner) (path : List Byte) (argv : List (List Byte)) (s t : ExecState)
    (hL : L.Ok) (h : Pages L own s.mem) (hd : own s.pgdir = .dir)
    (hfail : exec L R namei path argv s = some (t, -1)) : Unaffected s t := by
  obtain ⟨r, hrun, hr⟩ := exec_undoes (R := R) hL h hd namei path argv
  rw [hfail] at hrun
  injection hrun with hrun
  rw [← hrun] at hr
  rcases hr with hzero | hundone
  · cases hzero
  · exact hundone.unaffected h hd

/-- The loading loop fails after it has loaded two segments. -/
theorem hugeSegment_failed :
    ∃ t, exec onePageLayout hugeReader (fun _ => some 3) [0x61] [[0x61]] plentifulCaller =
      some (t, -1) ∧ Unaffected plentifulCaller t := by
  obtain ⟨m, d, own, hset, -, -, m', c, hrefused⟩ := hugeSegment_refused
  obtain ⟨⟨t, r⟩, hrun, hr⟩ := exec_undoes (R := hugeReader) onePageLayout_ok
    plentifulCaller_pages plentifulOwner_dir (fun _ => some 3) [0x61] [[0x61]]
  have helf : hugeReader 0 0 52 = some elfHeader := by decide
  have hbad : exec onePageLayout hugeReader (fun _ => some 3) [0x61] [[0x61]] plentifulCaller =
      { plentifulCaller.beginOp.ilock 3 with mem := m' }.bad onePageLayout (some d) (some 3) := by
    unfold exec execFile
    simp only [helf]
    rw [if_neg (show ¬ elfHeader.length ≠ 52 by decide),
      if_neg (show ¬ word elfHeader 0 ≠ ELF_MAGIC by decide)]
    show (plentifulCaller.mem.setupkvm onePageLayout).bind _ = _
    rw [hset, Option.bind_some]
    show (m.segments onePageLayout hugeReader d 3 52 0 1).bind _ = _
    rw [hrefused, Option.bind_some]
    rfl
  have hneg : r = -1 := by
    rw [hbad] at hrun
    unfold ExecState.bad at hrun
    obtain ⟨x, -, hx⟩ := Option.map_eq_some_iff.mp hrun
    exact (congrArg Prod.snd hx).symm
  subst hneg
  exact ⟨t, hrun, exec_failed onePageLayout hugeReader (fun _ => some 3) plentifulOwner [0x61]
    [[0x61]] plentifulCaller t onePageLayout_ok plentifulCaller_pages plentifulOwner_dir hrun⟩

/-- What is asked of the loading loop, with `n` program headers from the offset `off` on: it
ends, `freevm` and `clearpteu` can follow, the user pages are below `KERNBASE` and, if it
succeeds, those below `sz` are mapped. -/
def LoadsSafely (L : Layout) (R : Reader) (d : Frame) (n off c : Nat) (m : Mem) : Prop :=
  ∃ m' c' r, m.segments L R d n off 0 c = some (m', c', r) ∧
    (m'.freevm L d).isSome = true ∧
    (∀ b, b < 0x100000 → m'.UserPage d b → b * PGSIZE < KERNBASE) ∧
    ∀ sz, r = some sz → (∀ a, a < sz → m'.Mapped d (a / PGSIZE)) ∧
      (m'.stackPages L d sz).isSome = true

/-- `exec` survives any file. -/
theorem exec_survives (L : Layout) (R : Reader) (namei : List Byte → Option Nat)
    (own : Frame → Owner) (path : List Byte) (argv : List (List Byte)) (s : ExecState)
    (hL : L.Ok) (h : Pages L own s.mem) (hd : own s.pgdir = .dir) :
    (∃ t, exec L R namei path argv s = some (t, 0) ∨ exec L R namei path argv s = some (t, -1)) ∧
      ∀ m d, s.mem.setupkvm L = some (m, some d) →
        ∀ phnum phoff c, LoadsSafely L R d phnum phoff c m := by
  constructor
  · obtain ⟨⟨t, r⟩, hrun, hr⟩ := exec_undoes (R := R) hL h hd namei path argv
    refine ⟨t, ?_⟩
    rcases hr with hzero | hundone
    · left
      rw [hrun, ← hzero]
    · right
      rw [hrun, ← hundone.1]
  · intro m d hset phnum phoff c
    obtain ⟨m₁, r, own₁, hrun, h₁, hres⟩ := h.setupkvm hL
    rw [hset] at hrun
    injection hrun with hrun
    injection hrun with hm hr
    subst hm
    rcases hres with ⟨hnone, -⟩ | ⟨d', hsome, hbuilt, hsafe, hnone⟩
    · rw [hnone] at hr
      cases hr
    · rw [hsome] at hr
      injection hr with hd'
      subst hd'
      obtain ⟨m₂, c', r, own₂, sz', hseg, h₂, hsz⟩ :=
        Image.segments (R := R) h phnum phoff c
          (Image.start hbuilt h₁ hsafe hnone)
      obtain ⟨m₃, own₃, hfree, -⟩ := h₂.built.freevm h h₂.pages
      refine ⟨m₂, c', r, hseg, by rw [hfree]; rfl, ?_, ?_⟩
      · intro b hb hu
        have hlow : b < 0x80000 := by
          by_contra hnot
          exact h₂.safe b (by omega) hb hu
        unfold PGSIZE KERNBASE
        omega
      · intro sz hr
        rw [← hsz sz hr] at h₂
        have hlt := h₂.lt
        obtain ⟨m₄, x, own₄, sz₄, hstack, -⟩ := h₂.stackPages h
        refine ⟨?_, by rw [hstack]; rfl⟩
        intro a ha
        have hpage : a / PGSIZE < pagesOf sz := by
          unfold pagesOf PGSIZE
          omega
        exact (h₂.mapped _ (Nat.lt_of_lt_of_le hpage (pagesOf_le (Nat.le_of_lt hlt)))).mpr hpage

/-- The loading loop comes to the segment that is too large. -/
theorem hugeSegment_survives :
    (∃ t, exec onePageLayout hugeReader (fun _ => some 3) [0x61] [[0x61]] plentifulCaller =
        some (t, 0) ∨
      exec onePageLayout hugeReader (fun _ => some 3) [0x61] [[0x61]] plentifulCaller =
        some (t, -1)) ∧
      ∃ m d, plentifulCaller.mem.setupkvm onePageLayout = some (m, some d) ∧
        (∃ m' c', m.segments onePageLayout hugeReader d 2 52 0 1 = some (m', c', some 8192)) ∧
        (∃ m' c', m.segments onePageLayout hugeReader d 3 52 0 1 = some (m', c', none)) ∧
        LoadsSafely onePageLayout hugeReader d 3 52 1 m := by
  obtain ⟨hexec, hloads⟩ := exec_survives onePageLayout hugeReader (fun _ => some 3)
    plentifulOwner [0x61] [[0x61]] plentifulCaller onePageLayout_ok plentifulCaller_pages
    plentifulOwner_dir
  obtain ⟨m, d, -, hset, -, htwo, hthree⟩ := hugeSegment_refused
  exact ⟨hexec, m, d, hset, htwo, hthree, hloads m d hset 3 52 1⟩

end OsWork.Ports.PageTables

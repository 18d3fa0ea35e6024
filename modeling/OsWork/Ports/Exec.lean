import OsWork.Ports.AddressSpaces

/-!
# `exec`

`exec.c` with `loaduvm` and `clearpteu` of `vm.c`.  The file is what the calls of `readi`
give, and `namei` is a function of the path.  Of the file system there are the
references and locks that `exec` takes, and the operations that have begun.  `none` is
a panic, or a loop that does not end.

A `copyout` to a page whose table is absent counts as a failure here; what it really does
is the subject of `CopyOut`.  `switchuvm`, which loads the new page directory, is left out.

## Main results

* `Image.segments` — what the loading loop keeps of the new address space, for every file.
* `exec_undoes` — `exec` does not panic, and undoes what it has done when it fails.
-/

namespace OsWork.Ports.PageTables

open OsWork.Ports.ProcTable (Word)
open Function (update)

/-! ## The source -/

/-- What the call number `c` of `readi(ip, dst, off, n)` gives; `none` is the result `-1`. -/
abbrev Reader := Nat → Nat → Nat → Option (List Byte)

/-- `readi` of a file. -/
def fileReader (size : Nat) (byte : Nat → Byte) : Reader := fun _ off n =>
  if size < off ∨ (off + n) % 0x100000000 < off then none
  else some ((List.range (min n (size - off))).map fun j => byte (off + j))

/-- The `ushort` at offset `o`. -/
def half (bs : List Byte) (o : Nat) : Nat := (bs.getD o 0).toNat + 256 * (bs.getD (o + 1) 0).toNat

/-- The `uint` at offset `o`. -/
def word (bs : List Byte) (o : Nat) : Nat := half bs o + 65536 * half bs (o + 2)

/-- A `uint` in memory. -/
def wordBytes (w : Nat) : List Byte :=
  [BitVec.ofNat 8 w, BitVec.ofNat 8 (w / 256), BitVec.ofNat 8 (w / 65536),
    BitVec.ofNat 8 (w / 16777216)]

namespace Mem

variable (L : Layout) (R : Reader) (m : Mem)

/-- The loop of `loaduvm`, with a bound on its rounds; `false` is the result `-1`.  The
number of `readi` calls is counted. -/
def loadLoop (d : Frame) (addr offset sz : Nat) :
    Nat → Nat → Nat → Mem → Option (Mem × Nat × Bool)
  | 0, _, _, _ => none
  | fuel + 1, i, c, m =>
      if i < sz then
        -- no entry: panic
        (m.walkpgdir d ((addr + i) % 0x100000000 / PGSIZE)).bind fun e =>
          let n := if sz - i < PGSIZE then sz - i else PGSIZE
          match R c ((offset + i) % 0x100000000) n with
          | none => some (m, c + 1, false)
          | some bs =>
              let m' := m.write (frameOf (m.ram e.1 e.2)) 0 bs
              if bs.length = n then
                loadLoop d addr offset sz fuel ((i + PGSIZE) % 0x100000000) (c + 1) m'
              else some (m', c + 1, false)
      else some (m, c, true)

/-- `loaduvm` -/
def loaduvm (d : Frame) (addr offset sz c : Nat) : Option (Mem × Nat × Bool) :=
  if addr % PGSIZE ≠ 0 then none else loadLoop R d addr offset sz 0x100001 0 c m

/-- `clearpteu` of virtual page `a`. -/
def clearpteu (d : Frame) (a : Nat) : Option Mem :=
  (m.walkpgdir d a).map fun e => m.store e.1 e.2 (m.ram e.1 e.2 &&& ~~~PTE_U)

/-- The body of the loading loop, when the program header `ph` has been read; the new `sz`,
or `none` for a jump to `bad`. -/
def segment (d : Frame) (ph : List Byte) (sz c : Nat) : Option (Mem × Nat × Option Nat) :=
  let vaddr := word ph 8
  let filesz := word ph 16
  let memsz := word ph 20
  if word ph 0 ≠ 1 then some (m, c, some sz)
  else if memsz < filesz then some (m, c, none)
  else if (vaddr + memsz) % 0x100000000 < vaddr then some (m, c, none)
  else
    (m.allocuvm L d sz ((vaddr + memsz) % 0x100000000)).bind fun r =>
      if r.2 = 0 then some (r.1, c, none)
      else if vaddr % PGSIZE ≠ 0 then some (r.1, c, none)
      else (r.1.loaduvm R d vaddr (word ph 4) filesz c).map fun t =>
        (t.1, t.2.1, if t.2.2 then some r.2 else none)

/-- The loading loop, with `n` program headers to go. -/
def segments (d : Frame) : Nat → Nat → Nat → Nat → Mem → Option (Mem × Nat × Option Nat)
  | 0, _, sz, c, m => some (m, c, some sz)
  | n + 1, off, sz, c, m =>
      match R c off 32 with
      | none => some (m, c + 1, none)
      | some ph =>
          if ph.length ≠ 32 then some (m, c + 1, none)
          else
            (m.segment L R d ph sz (c + 1)).bind fun r =>
              match r.2.2 with
              | none => some (r.1, r.2.1, none)
              | some sz' => segments d n ((off + 32) % 0x100000000) sz' r.2.1 r.1

/-- The two pages of the stack; the new `sz`. -/
def stackPages (d : Frame) (sz : Nat) : Option (Mem × Option Nat) :=
  (m.allocuvm L d (PGROUNDUP sz) ((PGROUNDUP sz + 2 * PGSIZE) % 0x100000000)).bind fun r =>
    if r.2 = 0 then some (r.1, none)
    else (r.1.clearpteu d ((r.2 + 0x100000000 - 2 * PGSIZE) % 0x100000000 / PGSIZE)).map fun m' =>
      (m', some r.2)

/-- `copyout`, where a page without a table is a failure. -/
def copyLoopOk (d : Frame) : Nat → Nat → List Byte → Mem → Mem × Bool
  | 0, _, _, m => (m, true)
  | fuel + 1, va, buf, m =>
      if buf = [] then (m, true)
      else
        match m.uva2ka d (va / PGSIZE) with
        | some (some f) =>
            let n := min (PGSIZE - va % PGSIZE) buf.length
            copyLoopOk d fuel ((va / PGSIZE * PGSIZE + PGSIZE) % 0x100000000) (buf.drop n)
              (m.write f (va % PGSIZE) (buf.take n))
        | _ => (m, false)

def copyoutOk (d : Frame) (va : Nat) (buf : List Byte) : Mem × Bool :=
  copyLoopOk d buf.length va buf m

end Mem

/-- `MAXARG` -/
def MAXARG : Nat := 32

/-- The loop over `argv`; `ustack` is what it has put into `ustack[3..]`. -/
def pushArgs (d : Frame) :
    List (List Byte) → Nat → List Nat → Mem → Mem × Option (Nat × List Nat)
  | [], sp, ustack, m => (m, some (sp, ustack))
  | arg :: args, sp, ustack, m =>
      if MAXARG ≤ ustack.length then (m, none)
      else
        let sp := uintAdd sp (-(arg.length + 1)) / 4 * 4
        match m.copyoutOk d sp (arg ++ [0]) with
        | (m', true) => pushArgs d args sp (ustack ++ [sp]) m'
        | (m', false) => (m', none)

/-- The whole of `ustack`, for the arguments at `args` below the stack pointer `sp`. -/
def ustackOf (sp : Nat) (args : List Nat) : List Nat :=
  [0xffffffff, args.length, uintAdd sp (-((args.length + 1) * 4))] ++ args ++ [0]

/-- The arguments and `ustack`: the stack pointer, or `none` for a jump to `bad`. -/
def pushStack (d : Frame) (sz : Nat) (argv : List (List Byte)) (m : Mem) : Mem × Option Nat :=
  match pushArgs d argv sz [] m with
  | (m', none) => (m', none)
  | (m', some (sp, args)) =>
      let sp' := uintAdd sp (-((3 + args.length + 1) * 4))
      match m'.copyoutOk d sp' ((ustackOf sp args).flatMap wordBytes) with
      | (m'', true) => (m'', some sp')
      | (m'', false) => (m'', none)

def ELF_MAGIC : Nat := 0x464C457F

/-- The process that calls `exec`, with the memory and what it has taken of the file system. -/
structure ExecState where
  mem : Mem
  pgdir : Frame
  sz : Nat
  name : List Byte
  /-- `tf->eip` and `tf->esp` -/
  eip : Nat
  esp : Nat
  ofile : Fin 16 → Option Nat
  cwd : Nat
  /-- `ref` of each inode of the cache -/
  refs : Nat → Nat
  /-- the inodes that the process has locked -/
  held : List Nat
  /-- the calls of `begin_op` without their `end_op` -/
  ops : Nat

namespace ExecState

variable (s : ExecState)

/-- `begin_op` -/
def beginOp : ExecState := { s with ops := s.ops + 1 }

/-- `end_op` -/
def endOp : ExecState := { s with ops := s.ops - 1 }

/-- The reference that `namei` returns, and `ilock`. -/
def ilock (ip : Nat) : ExecState :=
  { s with refs := update s.refs ip (s.refs ip + 1), held := ip :: s.held }

/-- `iunlockput` -/
def iunlockput (ip : Nat) : ExecState :=
  { s with refs := update s.refs ip (s.refs ip - 1), held := s.held.erase ip }

/-- The end of `exec` at `bad`, for the values of `pgdir` and `ip`. -/
def bad (L : Layout) (pgdir : Option Frame) (ip : Option Nat) : Option (ExecState × Int) :=
  let rest (m : Mem) : ExecState × Int :=
    match ip with
    | none => ({ s with mem := m }, -1)
    | some i => (({ s with mem := m }.iunlockput i).endOp, -1)
  match pgdir with
  | none => some (rest s.mem)
  | some d => (s.mem.freevm L d).map rest

end ExecState

/-- What follows the last `/` of the path. -/
def lastElement (path : List Byte) : List Byte := (path.reverse.takeWhile (· ≠ 0x2F)).reverse

/-- `exec` from the result of `pushStack` on. -/
def execCommit (L : Layout) (elf path : List Byte) (d : Frame) (sz : Nat) (s : ExecState) :
    Mem × Option Nat → Option (ExecState × Int)
  | (m, none) => { s with mem := m }.bad L (some d) none
  | (m, some sp) =>
      (m.freevm L s.pgdir).map fun m' =>
        ({ s with
            mem := m'
            pgdir := d
            sz := sz
            name := (lastElement path).take 15
            eip := word elf 24
            esp := sp }, 0)

/-- `exec` from the result of `stackPages` on. -/
def execStack (L : Layout) (elf path : List Byte) (argv : List (List Byte)) (d : Frame)
    (s : ExecState) : Mem × Option Nat → Option (ExecState × Int)
  | (m, none) => { s with mem := m }.bad L (some d) none
  | (m, some sz) => execCommit L elf path d sz s (pushStack d sz argv m)

/-- `exec` from the end of the loading loop on. -/
def execLoaded (L : Layout) (elf path : List Byte) (argv : List (List Byte)) (d : Frame) (ip : Nat)
    (s : ExecState) : Mem × Nat × Option Nat → Option (ExecState × Int)
  | (m, _, none) => { s with mem := m }.bad L (some d) (some ip)
  | (m, _, some sz) =>
      (m.stackPages L d sz).bind (execStack L elf path argv d (s.iunlockput ip).endOp)

/-- `exec` from the result of `setupkvm` on. -/
def execLoad (L : Layout) (R : Reader) (elf path : List Byte) (argv : List (List Byte)) (ip : Nat)
    (s : ExecState) : Mem × Option Frame → Option (ExecState × Int)
  | (m, none) => { s with mem := m }.bad L none (some ip)
  | (m, some d) =>
      (m.segments L R d (half elf 44) (word elf 28) 0 1).bind
        (execLoaded L elf path argv d ip s)

/-- `exec` with the inode `ip` locked; `R` is `readi` of it. -/
def execFile (L : Layout) (R : Reader) (path : List Byte) (argv : List (List Byte)) (ip : Nat)
    (s : ExecState) : Option (ExecState × Int) :=
  match R 0 0 52 with
  | none => s.bad L none (some ip)
  | some elf =>
      if elf.length ≠ 52 then s.bad L none (some ip)
      else if word elf 0 ≠ ELF_MAGIC then s.bad L none (some ip)
      else (s.mem.setupkvm L).bind (execLoad L R elf path argv ip s)

/-- `exec`: the state and the value that is returned. -/
def exec (L : Layout) (R : Reader) (namei : List Byte → Option Nat) (path : List Byte)
    (argv : List (List Byte)) (s : ExecState) : Option (ExecState × Int) :=
  match namei path with
  | none => some (s.beginOp.endOp, -1)
  | some ip => execFile L R path argv ip (s.beginOp.ilock ip)

/-! ## An address space in the making -/

variable {L : Layout} {R : Reader} {own own' own₀ : Frame → Owner} {m m' m₀ : Mem}
  {d t f : Frame} {a b o sz newsz : Nat} {w : Word}

/-- The address space of `d` has been made from free pages and maps the pages below `sz`,
and the user can access no page of the kernel. -/
structure Image (L : Layout) (d : Frame) (own₀ : Frame → Owner) (m₀ : Mem) (sz : Nat)
    (own : Frame → Owner) (m : Mem) : Prop where
  pages : Pages L own m
  built : Built d own₀ m₀ own m
  lt : sz < KERNBASE
  mapped : ∀ b, b < 0x80000 → (m.Mapped d b ↔ b < pagesOf sz)
  safe : m.KernelSafe d

/-- No page that was in use belongs to the new address space. -/
theorem Built.not_belongs (h₀ : Pages L own₀ m₀) (h : Built d own₀ m₀ own m)
    (hf : own₀ f ≠ .free) : ¬ Belongs own d f := by
  rintro (heq | ⟨k, hk⟩ | ⟨b, hpage⟩)
  · rw [heq] at hf
    exact hf h.was
  · rw [(h.kept f hf).1, h₀.table, h.was] at hk
    exact nomatch hk.1
  · rw [(h.kept f hf).1, h₀.page, h.was] at hpage
    exact nomatch hpage.1

/-- `allocuvm` has added pages at the end, or nothing but tables. -/
theorem Image.gains (h₀ : Pages L own₀ m₀) (h : Image L d own₀ m₀ sz own m)
    (hpages : Pages L own' m') (hle : sz ≤ newsz) (hlt : newsz < KERNBASE)
    (hg : Gains d (pagesOf sz) (pagesOf newsz) own m own' m') :
    Image L d own₀ m₀ newsz own' m' := by
  have hmax := pagesOf_le (Nat.le_of_lt hlt)
  have hmono := pagesOf_mono hle
  exact
    { pages := hpages
      built :=
        { was := h.built.was
          dir := by
            rw [hg.of_ne_free (by rw [h.built.dir]; nofun)]
            exact h.built.dir
          kept := by
            intro f hf
            obtain ⟨hown, hram⟩ := h.built.kept f hf
            have hnot := h.built.not_belongs h₀ hf
            have hne : own f ≠ .free := by
              rw [hown]
              exact hf
            rw [hg.of_ne_free hne,
              hg.ram f hne (fun heq => hnot (.inl heq)) fun k hk => hnot (.inr (.inl ⟨k, hk⟩))]
            exact ⟨hown, hram⟩
          new := by
            intro f hf
            rcases hg.owner f with hsame | ⟨-, ⟨k, hk⟩ | ⟨b, -, -, hb⟩⟩
            · unfold Belongs
              rw [hsame]
              exact h.built.new f hf
            · exact .inr (.inr (.inl ⟨k, hk⟩))
            · exact .inr (.inr (.inr ⟨b, hb⟩)) }
      lt := hlt
      mapped := by
        intro b hb
        by_cases hrange : pagesOf sz ≤ b ∧ b < pagesOf newsz
        · obtain ⟨f, -, hpte, -⟩ := hg.new b hrange.1 hrange.2
          unfold Mem.Mapped
          rw [hpte]
          exact ⟨fun _ => hrange.2, fun _ => present_entry _ _⟩
        · rcases hg.pte b (by omega) hrange with hsame | ⟨hnot, hnot'⟩
          · have hold := h.mapped b hb
            unfold Mem.Mapped at hold ⊢
            rw [hsame, hold]
            omega
          · rw [h.mapped b hb] at hnot
            constructor
            · intro hp
              exact absurd hp hnot'
            · omega
      safe := by
        intro b hlow hb hu
        rcases hg.pte b hb (by omega) with hsame | ⟨-, hnot'⟩
        · unfold Mem.UserPage at hu
          rw [hsame] at hu
          exact h.safe b hlow hb hu
        · exact hnot' hu.mapped }

/-- `allocuvm` fails, or maps the pages below the size that it returns, which is not less
than what it was asked for. -/
theorem Image.allocuvm (h₀ : Pages L own₀ m₀) (h : Image L d own₀ m₀ sz own m) (newsz : Nat) :
    ∃ m' r own', m.allocuvm L d sz newsz = some (m', r) ∧
      (r = 0 ∧ Image L d own₀ m₀ sz own' m' ∨ Image L d own₀ m₀ r own' m' ∧ newsz ≤ r) := by
  by_cases hhigh : KERNBASE ≤ newsz
  · exact ⟨m, 0, own, if_pos hhigh, .inl ⟨rfl, h⟩⟩
  · by_cases hless : newsz < sz
    · refine ⟨m, sz, own, ?_, .inr ⟨h, Nat.le_of_lt hless⟩⟩
      unfold Mem.allocuvm
      rw [if_neg hhigh, if_pos hless]
    · have hle : sz ≤ newsz := by omega
      have hlt : newsz < KERNBASE := by omega
      have hmax := pagesOf_le (Nat.le_of_lt hlt)
      obtain ⟨m', r, own', hrun, hpages, hres⟩ :=
        h.pages.allocuvm h.built.dir hlt hle fun b hlow hb hp => by
          rw [h.mapped b (by omega)] at hp
          omega
      refine ⟨m', r, own', hrun, ?_⟩
      rcases hres with ⟨rfl, hg⟩ | ⟨rfl, hg⟩
      · exact .inr ⟨h.gains h₀ hpages hle hlt hg, Nat.le_refl r⟩
      · exact .inl ⟨rfl, h.gains h₀ hpages (Nat.le_refl sz) h.lt hg⟩

/-- A store to a page of the new address space. -/
theorem Image.fill (h₀ : Pages L own₀ m₀) (h : Image L d own₀ m₀ sz own m)
    (hf : own f = .page d b) (p : Page) : Image L d own₀ m₀ sz own (m.fill f p) := by
  have hloose : (own f).loose = true := by
    rw [hf]
    rfl
  have hpte : ∀ c, (m.fill f p).pte d c = m.pte d c :=
    h.pages.toTables.pte_of_ram (.inl hloose) (fun x hx => m.fill_ram_ne p hx) h.built.dir
  exact
    { pages := h.pages.fill hloose p
      built :=
        { was := h.built.was
          dir := h.built.dir
          kept := by
            intro x hx
            have hxf : x ≠ f := by
              rintro rfl
              exact h.built.not_belongs h₀ hx (.inr (.inr ⟨b, hf⟩))
            rw [m.fill_ram_ne p hxf]
            exact h.built.kept x hx
          new := h.built.new }
      lt := h.lt
      mapped := by
        intro c hc
        unfold Mem.Mapped
        rw [hpte]
        exact h.mapped c hc
      safe := by
        intro c hlow hc
        unfold Mem.UserPage
        rw [hpte]
        exact h.safe c hlow hc }

/-- A page below `sz` has an entry, and a frame of its own. -/
theorem Image.walkpgdir (h : Image L d own₀ m₀ sz own m) (ha : a < pagesOf sz) :
    ∃ t, m.walkpgdir d a = some (t, PTX a) ∧ own t = .table d (PDX a) ∧
      m.ram t (PTX a) = m.pte d a ∧ own (frameOf (m.pte d a)) = .page d a := by
  have hmax := pagesOf_le (Nat.le_of_lt h.lt)
  have hp : m.Mapped d a := (h.mapped a (by omega)).mpr ha
  have ht : m.HasTable d a := by
    by_contra hnot
    unfold Mem.Mapped at hp
    rw [Mem.pte_of_absent (Bool.eq_false_iff.mpr hnot)] at hp
    cases hp
  exact ⟨_, Mem.walkpgdir_table ht, h.pages.toTables.own_table h.built.dir ht,
    (Mem.pte_of_table ht).symm, (h.pages.page d a _).mpr ⟨h.built.dir, by omega, hp, rfl⟩⟩

/-! ## The loading loop -/

/-- The loop of `loaduvm` over pages that exist. -/
theorem Image.loadLoop (h₀ : Pages L own₀ m₀) {addr filesz : Nat} (offset : Nat)
    (haddr : addr % PGSIZE = 0) (hsz : addr + filesz ≤ sz) :
    ∀ (fuel : Nat) {i c : Nat} {m : Mem}, Image L d own₀ m₀ sz own m → i % PGSIZE = 0 →
      i < filesz + PGSIZE → filesz + PGSIZE ≤ i + fuel * PGSIZE →
      ∃ m' c' ok, Mem.loadLoop R d addr offset filesz fuel i c m = some (m', c', ok) ∧
        Image L d own₀ m₀ sz own m' := by
  intro fuel
  induction fuel with
  | zero =>
      intro i c m _ _ hi hfuel
      omega
  | succ fuel ih =>
      intro i c m h hi hbound hfuel
      have hlt := h.lt
      unfold Mem.loadLoop
      by_cases hmore : i < filesz
      · have hpage : (addr + i) % 0x100000000 / PGSIZE < pagesOf sz := by
          rw [lt_pagesOf]
          unfold KERNBASE at hlt
          unfold PGSIZE at *
          omega
        obtain ⟨t, hw, -, hentry, hown⟩ := h.walkpgdir hpage
        rw [if_pos hmore, hw, Option.bind_some]
        simp only [hentry]
        cases hread : R c ((offset + i) % 0x100000000)
            (if filesz - i < PGSIZE then filesz - i else PGSIZE) with
        | none => exact ⟨m, c + 1, false, rfl, h⟩
        | some bs =>
            have h' := h.fill h₀ hown (ofBytes fun j =>
              if 0 ≤ j ∧ j < 0 + bs.length then bs.getD (j - 0) 0
              else byteAt (m.ram (frameOf (m.pte d ((addr + i) % 0x100000000 / PGSIZE)))) j)
            by_cases hfull : bs.length = if filesz - i < PGSIZE then filesz - i else PGSIZE
            · simp only [if_pos hfull]
              have hnext : (i + PGSIZE) % 0x100000000 = i + PGSIZE := by
                unfold KERNBASE at hlt
                unfold PGSIZE
                omega
              rw [hnext]
              rw [Nat.succ_mul] at hfuel
              apply ih h'
              · unfold PGSIZE at *
                omega
              · omega
              · omega
            · simp only [if_neg hfull]
              exact ⟨_, c + 1, false, rfl, h'⟩
      · rw [if_neg hmore]
        exact ⟨m, c, true, rfl, h⟩

theorem half_lt (bs : List Byte) (o : Nat) : half bs o < 65536 := by
  have hlow := (bs.getD o 0).isLt
  have hhigh := (bs.getD (o + 1) 0).isLt
  unfold half
  omega

theorem word_lt (bs : List Byte) (o : Nat) : word bs o < 0x100000000 := by
  have hlow := half_lt bs o
  have hhigh := half_lt bs (o + 2)
  unfold word
  omega

/-- `loaduvm` of a page-aligned range below `sz`. -/
theorem Image.loaduvm (h₀ : Pages L own₀ m₀) (h : Image L d own₀ m₀ sz own m)
    (addr filesz offset c : Nat) (haddr : addr % PGSIZE = 0) (hsz : addr + filesz ≤ sz) :
    ∃ m' c' ok, m.loaduvm R d addr offset filesz c = some (m', c', ok) ∧
      Image L d own₀ m₀ sz own m' := by
  have hlt := h.lt
  unfold Mem.loaduvm
  rw [if_neg (fun hne => hne haddr)]
  apply Image.loadLoop h₀ offset haddr hsz 0x100001 h rfl
  · unfold PGSIZE
    omega
  · unfold KERNBASE at hlt
    unfold PGSIZE
    omega

/-- One program header: the address space has the new `sz`, or some size when `exec` gives
up. -/
theorem Image.segment (h₀ : Pages L own₀ m₀) (h : Image L d own₀ m₀ sz own m) (ph : List Byte)
    (c : Nat) :
    ∃ m' c' r own' sz', m.segment L R d ph sz c = some (m', c', r) ∧
      Image L d own₀ m₀ sz' own' m' ∧ ∀ n, r = some n → n = sz' := by
  unfold Mem.segment
  by_cases htype : word ph 0 ≠ 1
  · rw [if_pos htype]
    refine ⟨m, c, some sz, own, sz, rfl, h, ?_⟩
    intro n hn
    injection hn with heq
    exact heq.symm
  rw [if_neg htype]
  by_cases hfile : word ph 20 < word ph 16
  · rw [if_pos hfile]
    exact ⟨m, c, none, own, sz, rfl, h, nofun⟩
  rw [if_neg hfile]
  by_cases hwrap : (word ph 8 + word ph 20) % 0x100000000 < word ph 8
  · rw [if_pos hwrap]
    exact ⟨m, c, none, own, sz, rfl, h, nofun⟩
  rw [if_neg hwrap]
  obtain ⟨m₁, r, own₁, hrun, hres⟩ := h.allocuvm h₀ ((word ph 8 + word ph 20) % 0x100000000)
  rw [hrun, Option.bind_some]
  by_cases hr : r = 0
  · simp only [if_pos hr]
    rcases hres with ⟨-, h₁⟩ | ⟨h₁, -⟩
    · exact ⟨m₁, c, none, own₁, sz, rfl, h₁, nofun⟩
    · exact ⟨m₁, c, none, own₁, r, rfl, h₁, nofun⟩
  simp only [if_neg hr]
  obtain ⟨h₁, hle⟩ := hres.resolve_left fun hfail => hr hfail.1
  by_cases halign : word ph 8 % PGSIZE ≠ 0
  · rw [if_pos halign]
    exact ⟨m₁, c, none, own₁, r, rfl, h₁, nofun⟩
  rw [if_neg halign]
  have hmemsz := word_lt ph 20
  obtain ⟨m₂, c₂, ok, hload, h₂⟩ :=
    h₁.loaduvm (R := R) h₀ (word ph 8) (word ph 16) (word ph 4) c
      (by omega) (by omega)
  rw [hload]
  cases ok with
  | true =>
      refine ⟨m₂, c₂, some r, own₁, r, rfl, h₂, ?_⟩
      intro n hn
      injection hn with heq
      exact heq.symm
  | false => exact ⟨m₂, c₂, none, own₁, r, rfl, h₂, nofun⟩

/-- The address space that `setupkvm` makes. -/
theorem Image.start (hbuilt : Built d own₀ m₀ own m) (hpages : Pages L own m)
    (hsafe : m.KernelSafe d) (hnone : ∀ b, b < 0x80000 → ¬ m.Mapped d b) :
    Image L d own₀ m₀ 0 own m where
  pages := hpages
  built := hbuilt
  lt := by decide
  mapped b hb := ⟨fun hp => absurd hp (hnone b hb), fun hlt => absurd hlt (Nat.not_lt_zero b)⟩
  safe := hsafe

/-- The loading loop ends with success or failure, for every file. -/
theorem Image.segments (h₀ : Pages L own₀ m₀) :
    ∀ (n off c : Nat) {sz : Nat} {own : Frame → Owner} {m : Mem}, Image L d own₀ m₀ sz own m →
      ∃ m' c' r own' sz', Mem.segments L R d n off sz c m = some (m', c', r) ∧
        Image L d own₀ m₀ sz' own' m' ∧ ∀ k, r = some k → k = sz' := by
  intro n
  induction n with
  | zero =>
      intro off c sz own m h
      refine ⟨m, c, some sz, own, sz, rfl, h, ?_⟩
      intro k hk
      injection hk with heq
      exact heq.symm
  | succ n ih =>
      intro off c sz own m h
      unfold Mem.segments
      cases hread : R c off 32 with
      | none => exact ⟨m, c + 1, none, own, sz, rfl, h, nofun⟩
      | some ph =>
          simp only
          by_cases hlen : ph.length ≠ 32
          · rw [if_pos hlen]
            exact ⟨m, c + 1, none, own, sz, rfl, h, nofun⟩
          · obtain ⟨m₁, c₁, r, own₁, sz₁, hrun, h₁, hsz₁⟩ := h.segment (R := R) h₀ ph (c + 1)
            rw [if_neg hlen, hrun, Option.bind_some]
            cases r with
            | none => exact ⟨m₁, c₁, none, own₁, sz₁, rfl, h₁, nofun⟩
            | some sz' =>
                rw [← hsz₁ sz' rfl] at h₁
                exact ih _ _ h₁

/-! ## The stack -/

/-- The entry of a page is changed, but neither its frame nor that it is present. -/
theorem Pages.retag (h : Pages L own m) (ht : own t = .table d (PDX a)) (ha : a < 0x80000)
    (hp : present w = present (m.pte d a)) (hframe : frameOf w = frameOf (m.pte d a)) :
    Pages L own (m.store t (PTX a) w) where
  toTables := h.toTables.store ht _ _
  page e b f := by
    rw [h.page]
    constructor
    · rintro ⟨he, hb, hmapped, hf⟩
      unfold Mem.Mapped at hmapped ⊢
      rw [h.toTables.pte_store ht he (by omega) (by omega)]
      by_cases hboth : e = d ∧ b = a
      · obtain ⟨rfl, rfl⟩ := hboth
        rw [if_pos ⟨rfl, rfl⟩, hp, hframe]
        exact ⟨he, hb, hmapped, hf⟩
      · rw [if_neg hboth]
        exact ⟨he, hb, hmapped, hf⟩
    · rintro ⟨he, hb, hmapped, hf⟩
      unfold Mem.Mapped at hmapped ⊢
      rw [h.toTables.pte_store ht he (by omega) (by omega)] at hmapped hf
      by_cases hboth : e = d ∧ b = a
      · obtain ⟨rfl, rfl⟩ := hboth
        rw [if_pos ⟨rfl, rfl⟩] at hmapped hf
        rw [hp] at hmapped
        rw [hframe] at hf
        exact ⟨he, hb, hmapped, hf⟩
      · rw [if_neg hboth] at hmapped hf
        exact ⟨he, hb, hmapped, hf⟩

theorem present_clear (w : Word) : present (w &&& ~~~PTE_U) = present w := by
  unfold present PTE_U
  rw [BitVec.getLsbD_and]
  have hbit : (~~~(4 : Word)).getLsbD 0 = true := by decide
  rw [hbit, Bool.and_true]

theorem frameOf_clear (w : Word) : frameOf (w &&& ~~~PTE_U) = frameOf w := by
  have hmask : (~~~PTE_U).toNat / 2 ^ 12 = 2 ^ 20 - 1 := by decide
  have hlt := frameOf_lt w
  show (w &&& ~~~PTE_U).toNat / 2 ^ 12 = w.toNat / 2 ^ 12
  rw [BitVec.toNat_and, Nat.and_div_two_pow, hmask, Nat.and_two_pow_sub_one_eq_mod]
  exact Nat.mod_eq_of_lt hlt

/-- `clearpteu` of a page below `sz`. -/
theorem Image.clearpteu (h₀ : Pages L own₀ m₀) (h : Image L d own₀ m₀ sz own m)
    (ha : a < pagesOf sz) :
    ∃ m', m.clearpteu d a = some m' ∧ Image L d own₀ m₀ sz own m' := by
  have hmax := pagesOf_le (Nat.le_of_lt h.lt)
  obtain ⟨t, hw, ht, hentry, hown⟩ := h.walkpgdir ha
  have hp : present (m.pte d a &&& ~~~PTE_U) = present (m.pte d a) := present_clear _
  have hpte : ∀ b, b < 0x100000 → (m.store t (PTX a) (m.pte d a &&& ~~~PTE_U)).pte d b =
      if d = d ∧ b = a then m.pte d a &&& ~~~PTE_U else m.pte d b := fun b hb =>
    h.pages.toTables.pte_store ht h.built.dir (by omega) hb
  refine ⟨m.store t (PTX a) (m.pte d a &&& ~~~PTE_U), ?_, ?_⟩
  · unfold Mem.clearpteu
    rw [hw]
    simp only [Option.map_some, hentry]
  · exact
      { pages := h.pages.retag ht (by omega) hp (frameOf_clear _)
        built :=
          { was := h.built.was
            dir := h.built.dir
            kept := by
              intro x hx
              have hxt : x ≠ t := by
                rintro rfl
                exact h.built.not_belongs h₀ hx (.inr (.inl ⟨_, ht⟩))
              rw [m.store_ram_ne _ _ hxt]
              exact h.built.kept x hx
            new := h.built.new }
        lt := h.lt
        mapped := by
          intro b hb
          rw [← h.mapped b hb]
          unfold Mem.Mapped
          rw [hpte b (by omega)]
          by_cases hba : d = d ∧ b = a
          · rw [if_pos hba, hba.2, hp]
          · rw [if_neg hba]
        safe := by
          intro b hlow hb
          unfold Mem.UserPage
          rw [hpte b hb, if_neg (by omega)]
          exact h.safe b hlow hb }

/-- The size is rounded up to whole pages. -/
theorem Image.roundup (h : Image L d own₀ m₀ sz own m) (hlt : PGROUNDUP sz < KERNBASE) :
    Image L d own₀ m₀ (PGROUNDUP sz) own m := by
  have hpages : pagesOf (PGROUNDUP sz) = pagesOf sz := by
    have hsz := h.lt
    unfold KERNBASE at hsz
    unfold pagesOf PGROUNDUP PGSIZE
    omega
  exact
    { pages := h.pages
      built := h.built
      lt := hlt
      mapped := by
        rw [hpages]
        exact h.mapped
      safe := h.safe }

/-- The two pages of the stack are mapped, the first one not for the user. -/
theorem Image.stackPages (h₀ : Pages L own₀ m₀) (h : Image L d own₀ m₀ sz own m) :
    ∃ m' r own' sz', m.stackPages L d sz = some (m', r) ∧ Image L d own₀ m₀ sz' own' m' ∧
      ∀ k, r = some k → k = sz' := by
  unfold Mem.stackPages
  by_cases hround : PGROUNDUP sz < KERNBASE
  · obtain ⟨m₁, r, own₁, hrun, hres⟩ := (h.roundup hround).allocuvm h₀
      ((PGROUNDUP sz + 2 * PGSIZE) % 0x100000000)
    rw [hrun, Option.bind_some]
    by_cases hr : r = 0
    · simp only [if_pos hr]
      rcases hres with ⟨-, h₁⟩ | ⟨h₁, -⟩
      · exact ⟨m₁, none, own₁, _, rfl, h₁, nofun⟩
      · exact ⟨m₁, none, own₁, r, rfl, h₁, nofun⟩
    · obtain ⟨h₁, hle⟩ := hres.resolve_left fun hfail => hr hfail.1
      have hlt := h₁.lt
      have hpage : (r + 0x100000000 - 2 * PGSIZE) % 0x100000000 / PGSIZE < pagesOf r := by
        rw [lt_pagesOf]
        unfold KERNBASE at hlt hround
        unfold PGSIZE at *
        omega
      obtain ⟨m₂, hclear, h₂⟩ := h₁.clearpteu h₀ hpage
      simp only [if_neg hr, hclear, Option.map_some]
      refine ⟨m₂, some r, own₁, r, rfl, h₂, ?_⟩
      intro k hk
      exact (Option.some.inj hk).symm
  · have hfail : m.allocuvm L d (PGROUNDUP sz) ((PGROUNDUP sz + 2 * PGSIZE) % 0x100000000) =
        some (m, 0) := by
      have hlt := h.lt
      have hup : PGROUNDUP sz ≤ KERNBASE := by
        unfold PGROUNDUP
        unfold KERNBASE at *
        unfold PGSIZE
        omega
      have hhigh : KERNBASE ≤ (PGROUNDUP sz + 2 * PGSIZE) % 0x100000000 := by
        unfold KERNBASE at *
        unfold PGSIZE
        omega
      unfold Mem.allocuvm
      rw [if_pos hhigh]
    rw [hfail]
    exact ⟨m, none, own, sz, rfl, h, nofun⟩

/-- A piece of `copyout`: the page that it finds is one of user memory. -/
theorem Image.uva2ka (h : Image L d own₀ m₀ sz own m) (ha : a < 0x100000)
    (hu : m.uva2ka d a = some (some f)) : ∃ b, own f = .page d b := by
  have huser : m.UserPage d a := by
    by_contra hnot
    by_cases ht : m.HasTable d a
    · rw [Mem.uva2ka_other hnot ht] at hu
      cases hu
    · rw [Mem.uva2ka_absent ht] at hu
      cases hu
  rw [Mem.uva2ka_user huser] at hu
  injection hu with hu
  injection hu with hframe
  have hlt : a < 0x80000 := by
    by_contra hnot
    exact h.safe a (by omega) ha huser
  exact ⟨a, (h.pages.page d a f).mpr ⟨h.built.dir, hlt, huser.mapped, hframe⟩⟩

theorem Image.copyLoopOk (h₀ : Pages L own₀ m₀) :
    ∀ (fuel va : Nat) (buf : List Byte) {m : Mem}, va < 0x100000000 →
      Image L d own₀ m₀ sz own m →
      Image L d own₀ m₀ sz own (Mem.copyLoopOk d fuel va buf m).1 := by
  intro fuel
  induction fuel with
  | zero => exact fun _ _ _ _ h => h
  | succ fuel ih =>
      intro va buf m hva h
      unfold Mem.copyLoopOk
      by_cases hbuf : buf = []
      · rw [if_pos hbuf]
        exact h
      · rw [if_neg hbuf]
        split
        · rename_i f hu
          obtain ⟨b, hb⟩ := h.uva2ka (by unfold PGSIZE; omega) hu
          exact ih _ _ (Nat.mod_lt _ (by decide)) (h.fill h₀ hb _)
        · exact h

theorem uintAdd_lt (sz : Nat) (n : Int) : uintAdd sz n < 0x100000000 := by
  unfold uintAdd
  omega

/-- The strings of `argv` go to pages of the new address space. -/
theorem Image.pushArgs (h₀ : Pages L own₀ m₀) :
    ∀ (argv : List (List Byte)) (sp : Nat) (ustack : List Nat) {m : Mem},
      Image L d own₀ m₀ sz own m →
      Image L d own₀ m₀ sz own (pushArgs d argv sp ustack m).1 := by
  intro argv
  induction argv with
  | nil => exact fun _ _ _ h => h
  | cons arg args ih =>
      intro sp ustack m h
      unfold PageTables.pushArgs
      by_cases hmax : MAXARG ≤ ustack.length
      · rw [if_pos hmax]
        exact h
      · rw [if_neg hmax]
        have hsp := uintAdd_lt sp (-(arg.length + 1))
        have h₁ := Image.copyLoopOk h₀ (arg ++ [0]).length
          (uintAdd sp (-(arg.length + 1)) / 4 * 4) (arg ++ [0]) (by omega) h
        unfold Mem.copyoutOk
        cases hrun : Mem.copyLoopOk d (arg ++ [0]).length
            (uintAdd sp (-(arg.length + 1)) / 4 * 4) (arg ++ [0]) m with
        | mk m' ok =>
            rw [hrun] at h₁
            simp only [hrun]
            cases ok with
            | true => exact ih _ _ h₁
            | false => exact h₁

theorem Image.pushStack (h₀ : Pages L own₀ m₀) (h : Image L d own₀ m₀ sz own m) (sp : Nat)
    (argv : List (List Byte)) : Image L d own₀ m₀ sz own (pushStack d sp argv m).1 := by
  have h₁ := Image.pushArgs h₀ argv sp [] h
  unfold PageTables.pushStack
  split
  · rename_i m' hrun
    rw [hrun] at h₁
    exact h₁
  · rename_i m' sp' args hrun
    rw [hrun] at h₁
    have h₂ := Image.copyLoopOk h₀ ((ustackOf sp' args).flatMap wordBytes).length
      (uintAdd sp' (-((3 + args.length + 1) * 4))) ((ustackOf sp' args).flatMap wordBytes)
      (uintAdd_lt _ _) h₁
    unfold Mem.copyoutOk
    cases hcopy : Mem.copyLoopOk d ((ustackOf sp' args).flatMap wordBytes).length
        (uintAdd sp' (-((3 + args.length + 1) * 4))) ((ustackOf sp' args).flatMap wordBytes)
        m' with
    | mk m'' ok =>
        rw [hcopy] at h₂
        simp only [hcopy]
        cases ok with
        | true => exact h₂
        | false => exact h₂

/-! ## `exec` -/

/-- `exec` has failed, and left no trace: there is the state it began in, with a memory that
is as it was. -/
def Undone (L : Layout) (own : Frame → Owner) (s : ExecState) (r : ExecState × Int) : Prop :=
  r.2 = -1 ∧ ∃ m' own', r.1 = { s with mem := m' } ∧ Pages L own' m' ∧ Restored own s.mem own' m'

/-- `exec` returns: it has succeeded, or undone what it did. -/
def Returns (L : Layout) (own : Frame → Owner) (s : ExecState) (x : Option (ExecState × Int)) :
    Prop :=
  ∃ r, x = some r ∧ (r.2 = 0 ∨ Undone L own s r)

/-- The reference, the lock and the operation that `exec` takes are given back. -/
theorem ExecState.release (s : ExecState) (ip : Nat) (m : Mem) :
    ({ s.beginOp.ilock ip with mem := m }.iunlockput ip).endOp = { s with mem := m } := by
  unfold ExecState.beginOp ExecState.ilock ExecState.iunlockput ExecState.endOp
  simp

section Steps

variable {s : ExecState} {elf path : List Byte} {argv : List (List Byte)} {ip : Nat}

/-- The error exit before there is a new page directory. -/
theorem bad_early (hpages : Pages L own' m') (hrestored : Restored own s.mem own' m') :
    Returns L own s ({ s.beginOp.ilock ip with mem := m' }.bad L none (some ip)) := by
  refine ⟨({ s with mem := m' }, -1), ?_, .inr ⟨rfl, m', own', rfl, hpages, hrestored⟩⟩
  rw [← s.release ip m']
  rfl

/-- The error exit with the inode in the hand. -/
theorem bad_loading (h₀ : Pages L own s.mem) (h : Image L d own s.mem sz own' m') :
    Returns L own s ({ s.beginOp.ilock ip with mem := m' }.bad L (some d) (some ip)) := by
  obtain ⟨m'', own'', hrun, hpages, hrestored⟩ := h.built.freevm h₀ h.pages
  refine ⟨({ s with mem := m'' }, -1), ?_, .inr ⟨rfl, m'', own'', rfl, hpages, hrestored⟩⟩
  rw [← s.release ip m'']
  unfold ExecState.bad
  simp only [hrun, Option.map_some]

/-- The error exit after the inode has been released. -/
theorem bad_loaded (h₀ : Pages L own s.mem) (h : Image L d own s.mem sz own' m') :
    Returns L own s ({ s with mem := m' }.bad L (some d) none) := by
  obtain ⟨m'', own'', hrun, hpages, hrestored⟩ := h.built.freevm h₀ h.pages
  refine ⟨({ s with mem := m'' }, -1), ?_, .inr ⟨rfl, m'', own'', rfl, hpages, hrestored⟩⟩
  unfold ExecState.bad
  simp only [hrun, Option.map_some]

theorem execCommit_returns (h₀ : Pages L own s.mem) (hd : own s.pgdir = .dir) (k : Nat)
    {x : Mem × Option Nat} (h : Image L d own s.mem sz own' x.1) :
    Returns L own s (execCommit L elf path d k s x) := by
  obtain ⟨m₁, r⟩ := x
  cases r with
  | none => exact bad_loaded h₀ h
  | some sp =>
      have hdir : own' s.pgdir = .dir := by
        rw [(h.built.kept s.pgdir (by rw [hd]; nofun)).1, hd]
      obtain ⟨m₂, own₂, hrun, -⟩ := h.pages.freevm hdir
      unfold execCommit
      simp only [hrun, Option.map_some]
      exact ⟨_, rfl, .inl rfl⟩

theorem execLoaded_returns (h₀ : Pages L own s.mem) (hd : own s.pgdir = .dir)
    {x : Mem × Nat × Option Nat} (h : Image L d own s.mem sz own' x.1)
    (hsz : ∀ k, x.2.2 = some k → k = sz) :
    Returns L own s (execLoaded L elf path argv d ip (s.beginOp.ilock ip) x) := by
  obtain ⟨m₁, c, r⟩ := x
  cases r with
  | none => exact bad_loading h₀ h
  | some k =>
      rw [← hsz k rfl] at h
      obtain ⟨m₂, r, own₂, sz₂, hrun, h₂, -⟩ := h.stackPages h₀
      have hrelease := s.release ip s.mem
      unfold execLoaded
      simp only [hrun, Option.bind_some]
      have hs : ((s.beginOp.ilock ip).iunlockput ip).endOp = s := hrelease
      rw [hs]
      cases r with
      | none => exact bad_loaded h₀ h₂
      | some sz' => exact execCommit_returns h₀ hd sz' (h₂.pushStack h₀ sz' argv)

theorem execFile_returns (hL : L.Ok) (h₀ : Pages L own s.mem) (hd : own s.pgdir = .dir) :
    Returns L own s (execFile L R path argv ip (s.beginOp.ilock ip)) := by
  have hsame : Restored own s.mem own s.mem := ⟨fun _ => rfl, fun _ _ => rfl⟩
  unfold execFile
  split
  · exact bad_early h₀ hsame
  · rename_i elf _
    by_cases hlen : elf.length ≠ 52
    · rw [if_pos hlen]
      exact bad_early h₀ hsame
    rw [if_neg hlen]
    by_cases hmagic : word elf 0 ≠ ELF_MAGIC
    · rw [if_pos hmagic]
      exact bad_early h₀ hsame
    rw [if_neg hmagic]
    obtain ⟨m₁, r, own₁, hrun, h₁, hres⟩ := h₀.setupkvm hL
    have hmem : (s.beginOp.ilock ip).mem = s.mem := rfl
    rw [hmem, hrun, Option.bind_some]
    rcases hres with ⟨rfl, hrestored⟩ | ⟨d, rfl, hbuilt, hsafe, hnone⟩
    · exact bad_early h₁ hrestored
    · have h := Image.start hbuilt h₁ hsafe hnone
      obtain ⟨m₂, c, r, own₂, sz, hseg, h₂, hsz⟩ :=
        Image.segments (R := R) h₀ (half elf 44) (word elf 28) 1 h
      unfold execLoad
      simp only [hseg, Option.bind_some]
      exact execLoaded_returns h₀ hd h₂ hsz

end Steps

/-- `exec` does not panic, and undoes what it has done when it fails. -/
theorem exec_undoes (hL : L.Ok) {s : ExecState} (h : Pages L own s.mem)
    (hd : own s.pgdir = .dir) (namei : List Byte → Option Nat) (path : List Byte)
    (argv : List (List Byte)) : Returns L own s (exec L R namei path argv s) := by
  unfold exec
  split
  · refine ⟨_, rfl, .inr ⟨rfl, s.mem, own, ?_, h, fun _ => rfl, fun _ _ => rfl⟩⟩
    rfl
  · exact execFile_returns hL h hd

end OsWork.Ports.PageTables

import OsWork.Ports.Exec

/-!
# Arguments of system calls

`fetchint`, `fetchstr`, `argint`, `argptr` and `argstr` of `syscall.c`, and `sys_read`,
`sys_write` and `sys_exec` up to the call of `fileread`, `filewrite` and `exec`.  All
arithmetic is that of 32-bit words.  A function gives the addresses that it has read from, along with its result; `none`
is the result `-1`.

## Main results

* `fetchstr_some_iff` — a string is accepted exactly if it ends below `sz`.
* `arguments_inside` — what the kernel reads, and what it is handed, is memory of the
  process.
-/

namespace OsWork.Ports.SyscallArgs

open OsWork.Ports.ProcTable (Word)
open OsWork.Ports.PageTables (Byte KERNBASE MAXARG)

/-! ## The source -/

abbrev NOFILE : Nat := 16

/-- The process that makes the call; `F` are the open files. -/
structure Caller (F : Type) where
  sz : Word
  /-- `tf->esp` -/
  esp : Word
  mem : Word → Byte
  ofile : Fin NOFILE → Option F

/-- The addresses that were read, and the result. -/
structure Fetch (α : Type) where
  reads : List Word
  result : Option α

namespace Fetch

variable {α β : Type}

/-- The result `-1`, with nothing read. -/
def fail : Fetch α := ⟨[], none⟩

/-- A function goes on, unless the first has failed. -/
def bind (r : Fetch α) (f : α → Fetch β) : Fetch β :=
  match r.result with
  | none => ⟨r.reads, none⟩
  | some a => ⟨r.reads ++ (f a).reads, (f a).result⟩

end Fetch

namespace Caller

variable {F : Type} (p : Caller F)

/-- The byte at a number. -/
def byte (a : Nat) : Byte := p.mem (BitVec.ofNat 32 a)

/-- `*(int*)(addr)` -/
def int (addr : Word) : Word :=
  p.mem (addr + 3) ++ p.mem (addr + 2) ++ p.mem (addr + 1) ++ p.mem addr

def fetchint (addr : Word) : Fetch Word :=
  if p.sz ≤ addr ∨ p.sz < addr + 4 then .fail
  else ⟨[addr, addr + 1, addr + 2, addr + 3], some (p.int addr)⟩

/-- The loop of `fetchstr` from `s`, with a bound on its rounds. -/
def scan (pp : Word) : Nat → Word → Fetch Word
  | 0, _ => .fail
  | fuel + 1, s =>
      if s < p.sz then
        if p.mem s = 0 then ⟨[s], some (s - pp)⟩
        else ⟨s :: (scan pp fuel (s + 1)).reads, (scan pp fuel (s + 1)).result⟩
      else .fail

/-- `fetchstr`: the pointer and the length. -/
def fetchstr (addr : Word) : Fetch (Word × Word) :=
  if p.sz ≤ addr then .fail
  else
    let r := p.scan addr p.sz.toNat addr
    ⟨r.reads, r.result.map fun len => (addr, len)⟩

def argint (n : Word) : Fetch Word := p.fetchint (p.esp + 4 + 4 * n)

def argptr (n size : Word) : Fetch Word :=
  (p.argint n).bind fun i =>
    if size.slt 0 = true ∨ p.sz ≤ i ∨ p.sz < i + size then .fail else ⟨[], some i⟩

def argstr (n : Word) : Fetch (Word × Word) := (p.argint n).bind p.fetchstr

def argfd (n : Word) : Fetch (Fin NOFILE × F) :=
  (p.argint n).bind fun fd =>
    if h : fd.slt 0 = false ∧ fd.toNat < NOFILE then
      ⟨[], (p.ofile ⟨fd.toNat, h.2⟩).map fun f => (⟨fd.toNat, h.2⟩, f)⟩
    else .fail

/-- `sys_read` and `sys_write` up to the call of `fileread` or `filewrite`: the file, the
buffer and the number of bytes. -/
def sys_read : Fetch (F × Word × Word) :=
  (p.argfd 0).bind fun r =>
    (p.argint 2).bind fun n =>
      (p.argptr 1 n).bind fun buf => ⟨[], some (r.2, buf, n)⟩

def sys_write : Fetch (F × Word × Word) := p.sys_read

/-- The bytes of a string that `fetchstr` has accepted. -/
def string (q len : Word) : List Byte :=
  (List.range len.toNat).map fun j => p.byte (q.toNat + j)

/-- The loop of `sys_exec` from the argument `i` on, with the number of those left in `argv`. -/
def fetchArgs (uargv : Word) : Nat → Word → Fetch (List (List Byte))
  | 0, _ => .fail
  | n + 1, i =>
      (p.fetchint (uargv + 4 * i)).bind fun uarg =>
        if uarg = 0 then ⟨[], some []⟩
        else
          (p.fetchstr uarg).bind fun r =>
            (fetchArgs uargv n (i + 1)).bind fun rest => ⟨[], some (p.string r.1 r.2 :: rest)⟩

/-- `sys_exec` up to the call of `exec`: the path and the arguments. -/
def sys_exec : Fetch (List Byte × List (List Byte)) :=
  (p.argstr 0).bind fun path =>
    (p.argint 1).bind fun uargv =>
      (p.fetchArgs uargv MAXARG 0).bind fun argv => ⟨[], some (p.string path.1 path.2, argv)⟩

end Caller

/-! ## What lies in the process -/

section Inside

variable {F α β : Type} {p : Caller F}

/-- Everything that was read is memory of the process. -/
def Caller.Inside (p : Caller F) (r : Fetch α) : Prop := ∀ a ∈ r.reads, a.toNat < p.sz.toNat

/-- `k` bytes from `q` on are memory of the process; the end is a number, not a word. -/
def Caller.Within (p : Caller F) (q : Word) (k : Nat) : Prop :=
  q.toNat < p.sz.toNat ∧ q.toNat + k ≤ p.sz.toNat

theorem inside_fail : p.Inside (.fail : Fetch α) := by
  intro a ha
  cases ha

theorem Caller.Inside.bind {r : Fetch α} {f : α → Fetch β} (h : p.Inside r)
    (hf : ∀ a, r.result = some a → p.Inside (f a)) : p.Inside (r.bind f) := by
  unfold Fetch.bind
  cases hr : r.result with
  | none => exact h
  | some a =>
      intro x hx
      rcases List.mem_append.mp hx with hx | hx
      · exact h x hx
      · exact hf a hr x hx

theorem bind_eq_some {r : Fetch α} {f : α → Fetch β} {b : β} (h : (r.bind f).result = some b) :
    ∃ a, r.result = some a ∧ (f a).result = some b := by
  unfold Fetch.bind at h
  cases hr : r.result with
  | none =>
      rw [hr] at h
      cases h
  | some a =>
      rw [hr] at h
      exact ⟨a, rfl, h⟩

/-- The loop of `fetchstr` reads below `sz` only. -/
theorem inside_scan (pp : Word) : ∀ (fuel : Nat) (s : Word), p.Inside (p.scan pp fuel s) := by
  intro fuel
  induction fuel with
  | zero =>
      intro s
      exact inside_fail
  | succ fuel ih =>
      intro s
      unfold Caller.scan
      split
      · rename_i hlt
        split
        · intro a ha
          rw [List.mem_singleton.mp ha]
          exact hlt
        · intro a ha
          rcases List.mem_cons.mp ha with rfl | ha
          · exact hlt
          · exact ih (s + 1) a ha
      · exact inside_fail

theorem inside_fetchstr (addr : Word) : p.Inside (p.fetchstr addr) := by
  unfold Caller.fetchstr
  split
  · exact inside_fail
  · exact inside_scan addr p.sz.toNat addr

theorem byte_toNat (a : Word) : p.byte a.toNat = p.mem a := by
  unfold Caller.byte
  rw [BitVec.ofNat_toNat, BitVec.setWidth_eq]

variable (hsz : p.sz.toNat < KERNBASE)

include hsz

/-- The words from `addr` on do not wrap around. -/
theorem toNat_offset {addr : Word} (h : addr.toNat < p.sz.toNat) {k : Nat} (hk : k ≤ 4) :
    (addr + BitVec.ofNat 32 k).toNat = addr.toNat + k := by
  unfold KERNBASE at hsz
  rw [BitVec.toNat_add, BitVec.toNat_ofNat]
  omega

theorem fetchint_cases (addr : Word) :
    p.fetchint addr = .fail ∨
      addr.toNat + 4 ≤ p.sz.toNat ∧
        p.fetchint addr = ⟨[addr, addr + 1, addr + 2, addr + 3], some (p.int addr)⟩ := by
  unfold Caller.fetchint
  split
  · exact .inl rfl
  · rename_i hok
    right
    have hlow : addr.toNat < p.sz.toNat := by
      rw [← BitVec.lt_def]
      exact BitVec.not_le.mp fun h => hok (.inl h)
    have hhigh : (addr + 4).toNat ≤ p.sz.toNat := by
      rw [← BitVec.le_def]
      exact BitVec.not_lt.mp fun h => hok (.inr h)
    have hend : (addr + 4).toNat = addr.toNat + 4 := toNat_offset hsz hlow (k := 4) (by omega)
    exact ⟨by omega, rfl⟩

theorem inside_fetchint (addr : Word) : p.Inside (p.fetchint addr) := by
  rcases fetchint_cases hsz addr with hfail | ⟨hend, hok⟩
  · rw [hfail]
    exact inside_fail
  · rw [hok]
    intro a ha
    have hone : (addr + 1).toNat = addr.toNat + 1 :=
      toNat_offset hsz (by omega) (k := 1) (by omega)
    have htwo : (addr + 2).toNat = addr.toNat + 2 :=
      toNat_offset hsz (by omega) (k := 2) (by omega)
    have hthree : (addr + 3).toNat = addr.toNat + 3 :=
      toNat_offset hsz (by omega) (k := 3) (by omega)
    simp only [List.mem_cons, List.not_mem_nil, or_false] at ha
    rcases ha with rfl | rfl | rfl | rfl <;> omega

/-- The loop of `fetchstr` finds the first zero from `s` on. -/
theorem scan_some_iff {pp len : Word} : ∀ (fuel : Nat) (s : Word),
    p.sz.toNat ≤ s.toNat + fuel →
    ((p.scan pp fuel s).result = some len ↔
      ∃ k, s.toNat + k < p.sz.toNat ∧ len = BitVec.ofNat 32 (s.toNat + k) - pp ∧
        p.byte (s.toNat + k) = 0 ∧ ∀ j, j < k → p.byte (s.toNat + j) ≠ 0) := by
  intro fuel
  induction fuel with
  | zero =>
      intro s hend
      constructor
      · intro h
        cases h
      · rintro ⟨k, hk, -⟩
        omega
  | succ fuel ih =>
      intro s hend
      unfold Caller.scan
      split
      · rename_i hlt
        have hlow : s.toNat < p.sz.toNat := hlt
        split
        · rename_i hzero
          rw [← byte_toNat] at hzero
          constructor
          · intro h
            refine ⟨0, hlow, ?_, hzero, fun j hj => absurd hj (Nat.not_lt_zero j)⟩
            rw [Nat.add_zero, BitVec.ofNat_toNat, BitVec.setWidth_eq]
            exact (Option.some.inj h).symm
          · rintro ⟨k, -, hlen, -, hbefore⟩
            have hk : k = 0 := by
              by_contra hne
              exact hbefore 0 (Nat.pos_of_ne_zero hne) hzero
            rw [hlen, hk, Nat.add_zero, BitVec.ofNat_toNat, BitVec.setWidth_eq]
        · rename_i hne
          rw [← byte_toNat] at hne
          have hnext : (s + 1).toNat = s.toNat + 1 := toNat_offset hsz hlow (k := 1) (by omega)
          simp only
          rw [ih (s + 1) (by omega), hnext]
          constructor
          · rintro ⟨k, hk, hlen, hzero, hbefore⟩
            rw [Nat.add_assoc, Nat.add_comm 1 k] at hk hlen hzero
            refine ⟨k + 1, hk, hlen, hzero, ?_⟩
            intro j hj
            cases j with
            | zero => exact hne
            | succ j =>
                have hbyte := hbefore j (by omega)
                rwa [Nat.add_assoc, Nat.add_comm 1 j] at hbyte
          · rintro ⟨k, hk, hlen, hzero, hbefore⟩
            cases k with
            | zero => exact absurd hzero hne
            | succ k =>
                rw [Nat.add_comm k 1, ← Nat.add_assoc] at hk hlen hzero
                refine ⟨k, hk, hlen, hzero, ?_⟩
                intro j hj
                have hbyte := hbefore (j + 1) (by omega)
                rwa [Nat.add_comm j 1, ← Nat.add_assoc] at hbyte
      · rename_i hlt
        have hhigh : p.sz.toNat ≤ s.toNat := by
          rw [← BitVec.le_def]
          exact BitVec.not_lt.mp hlt
        constructor
        · intro h
          cases h
        · rintro ⟨k, hk, -⟩
          omega

/-- `fetchstr` accepts a string exactly if it ends below `sz`, and gives its length. -/
theorem fetchstr_some_iff {addr q len : Word} :
    (p.fetchstr addr).result = some (q, len) ↔
      q = addr ∧ addr.toNat + len.toNat < p.sz.toNat ∧ p.byte (addr.toNat + len.toNat) = 0 ∧
        ∀ j, j < len.toNat → p.byte (addr.toNat + j) ≠ 0 := by
  unfold Caller.fetchstr
  split
  · rename_i hhigh
    have hhigh : p.sz.toNat ≤ addr.toNat := hhigh
    constructor
    · intro h
      cases h
    · rintro ⟨-, hlt, -⟩
      omega
  · have hsub : ∀ k, addr.toNat + k < p.sz.toNat →
        (BitVec.ofNat 32 (addr.toNat + k) - addr).toNat = k := by
      intro k hk
      unfold KERNBASE at hsz
      rw [BitVec.toNat_sub, BitVec.toNat_ofNat]
      omega
    simp only [Option.map_eq_some_iff, Prod.mk.injEq]
    constructor
    · rintro ⟨l, hscan, rfl, rfl⟩
      obtain ⟨k, hk, hlen, hzero, hbefore⟩ :=
        (scan_some_iff hsz p.sz.toNat addr (Nat.le_add_left _ _)).mp hscan
      have hk' : l.toNat = k := by
        rw [hlen]
        exact hsub k hk
      rw [hk']
      exact ⟨rfl, hk, hzero, hbefore⟩
    · rintro ⟨rfl, hlt, hzero, hbefore⟩
      refine ⟨len, (scan_some_iff hsz p.sz.toNat q (Nat.le_add_left _ _)).mpr ?_, rfl, rfl⟩
      refine ⟨len.toNat, hlt, ?_, hzero, hbefore⟩
      apply BitVec.eq_of_toNat_eq
      rw [hsub _ hlt]

/-! ## Arguments -/

theorem inside_argint (n : Word) : p.Inside (p.argint n) := inside_fetchint hsz _

/-- An argument is the word at its place on the stack. -/
theorem argint_some {n v : Word} (h : (p.argint n).result = some v) :
    (p.esp + 4 + 4 * n).toNat + 4 ≤ p.sz.toNat ∧ v = p.int (p.esp + 4 + 4 * n) := by
  unfold Caller.argint at h
  rcases fetchint_cases hsz (p.esp + 4 + 4 * n) with hfail | ⟨hend, hok⟩
  · rw [hfail] at h
    cases h
  · rw [hok] at h
    exact ⟨hend, (Option.some.inj h).symm⟩

theorem inside_argptr (n size : Word) : p.Inside (p.argptr n size) := by
  apply (inside_argint hsz n).bind
  intro i _
  split
  · exact inside_fail
  · intro a ha
    cases ha

/-- The block of an accepted pointer; its size is not negative. -/
theorem within_argptr {n size q : Word} (h : (p.argptr n size).result = some q) :
    0 ≤ size.toInt ∧ p.Within q size.toNat := by
  obtain ⟨i, -, hi⟩ := bind_eq_some h
  split at hi
  · cases hi
  · rename_i hok
    have hq : i = q := Option.some.inj hi
    subst hq
    have hsign : size.slt 0 = false := by
      cases hs : size.slt 0 with
      | false => rfl
      | true => exact absurd (.inl hs) hok
    have hpos : 0 ≤ size.toInt := by
      have hle := BitVec.slt_iff_toInt_lt (x := size) (y := 0)
      rw [hsign] at hle
      simp at hle
      exact hle
    have hlow : i.toNat < p.sz.toNat := by
      rw [← BitVec.lt_def]
      exact BitVec.not_le.mp fun h => hok (.inr (.inl h))
    have hhigh : (i + size).toNat ≤ p.sz.toNat := by
      rw [← BitVec.le_def]
      exact BitVec.not_lt.mp fun h => hok (.inr (.inr h))
    refine ⟨hpos, hlow, ?_⟩
    -- neither summand has the top bit
    have hsmall : 2 * size.toNat < 2 ^ 32 := by
      by_contra hbig
      rw [BitVec.toInt_eq_toNat_cond, if_neg hbig] at hpos
      have hlt := size.isLt
      omega
    rw [BitVec.toNat_add] at hhigh
    unfold KERNBASE at hsz
    omega

theorem inside_argstr (n : Word) : p.Inside (p.argstr n) :=
  (inside_argint hsz n).bind fun i _ => inside_fetchstr i

theorem inside_argfd (n : Word) : p.Inside (p.argfd n) := by
  apply (inside_argint hsz n).bind
  intro fd _
  split
  · intro a ha
    cases ha
  · exact inside_fail

theorem inside_sys_read : p.Inside p.sys_read := by
  apply (inside_argfd hsz 0).bind
  intro r _
  apply (inside_argint hsz 2).bind
  intro n _
  apply (inside_argptr hsz 1 n).bind
  intro buf _ a ha
  cases ha

/-- What `fileread` and `filewrite` are handed. -/
theorem within_sys_read {f : F} {buf n : Word} (h : p.sys_read.result = some (f, buf, n)) :
    0 ≤ n.toInt ∧ p.Within buf n.toNat := by
  obtain ⟨r, -, h⟩ := bind_eq_some h
  obtain ⟨m, -, h⟩ := bind_eq_some h
  obtain ⟨q, hq, h⟩ := bind_eq_some h
  cases h
  exact within_argptr hsz hq

/-- A string that is handed on has no zero in it, and is shorter than the memory. -/
theorem string_of_fetchstr {addr q len : Word} (h : (p.fetchstr addr).result = some (q, len)) :
    (0 : Byte) ∉ p.string q len ∧ (p.string q len).length + 1 < KERNBASE := by
  obtain ⟨rfl, hlt, -, hbefore⟩ := (fetchstr_some_iff hsz).mp h
  unfold Caller.string
  constructor
  · intro hmem
    obtain ⟨j, hj, hzero⟩ := List.mem_map.mp hmem
    exact hbefore j (List.mem_range.mp hj) hzero
  · rw [List.length_map, List.length_range]
    omega

theorem inside_fetchArgs (uargv : Word) :
    ∀ (n : Nat) (i : Word), p.Inside (p.fetchArgs uargv n i) := by
  intro n
  induction n with
  | zero =>
      intro i
      exact inside_fail
  | succ n ih =>
      intro i
      apply (inside_fetchint hsz _).bind
      intro uarg _
      split
      · intro a ha
        cases ha
      · apply (inside_fetchstr uarg).bind
        intro r _
        apply (ih (i + 1)).bind
        intro rest _ a ha
        cases ha

theorem strings_of_fetchArgs {uargv : Word} : ∀ (n : Nat) (i : Word) {argv : List (List Byte)},
    (p.fetchArgs uargv n i).result = some argv →
    ∀ arg ∈ argv, (0 : Byte) ∉ arg ∧ arg.length + 1 < KERNBASE := by
  intro n
  induction n with
  | zero =>
      intro i argv h
      cases h
  | succ n ih =>
      intro i argv h arg harg
      obtain ⟨uarg, -, h⟩ := bind_eq_some h
      split at h
      · cases h
        cases harg
      · obtain ⟨⟨q, len⟩, hstr, h⟩ := bind_eq_some h
        obtain ⟨rest, hrest, h⟩ := bind_eq_some h
        cases h
        rcases List.mem_cons.mp harg with rfl | hmem
        · exact string_of_fetchstr hsz hstr
        · exact ih (i + 1) hrest arg hmem

theorem inside_sys_exec : p.Inside p.sys_exec := by
  apply (inside_argstr hsz 0).bind
  intro path _
  apply (inside_argint hsz 1).bind
  intro uargv _
  apply (inside_fetchArgs hsz uargv MAXARG 0).bind
  intro argv _ a ha
  cases ha

/-- The arguments that `exec` is called with. -/
theorem strings_of_sys_exec {path : List Byte} {argv : List (List Byte)}
    (h : p.sys_exec.result = some (path, argv)) :
    ∀ arg ∈ argv, (0 : Byte) ∉ arg ∧ arg.length + 1 < KERNBASE := by
  obtain ⟨q, -, h⟩ := bind_eq_some h
  obtain ⟨uargv, -, h⟩ := bind_eq_some h
  obtain ⟨args, hargs, h⟩ := bind_eq_some h
  cases h
  exact strings_of_fetchArgs hsz MAXARG 0 hargs

end Inside

/-- The kernel reads memory of the process only, and every block or string that it is handed
is memory of the process. -/
theorem arguments_inside {F : Type} (p : Caller F) (hsz : p.sz.toNat < KERNBASE) :
    (∀ n, p.Inside (p.argint n) ∧ ∀ v, (p.argint n).result = some v →
      p.Within (p.esp + 4 + 4 * n) 4 ∧ v = p.int (p.esp + 4 + 4 * n)) ∧
    (∀ n size, p.Inside (p.argptr n size) ∧ ∀ q, (p.argptr n size).result = some q →
      0 ≤ size.toInt ∧ p.Within q size.toNat) ∧
    (∀ n, p.Inside (p.argstr n) ∧ ∀ q len, (p.argstr n).result = some (q, len) →
      p.Within q (len.toNat + 1) ∧ p.byte (q.toNat + len.toNat) = 0 ∧
        ∀ j, j < len.toNat → p.byte (q.toNat + j) ≠ 0) ∧
    (p.Inside p.sys_read ∧ ∀ f buf n, p.sys_read.result = some (f, buf, n) →
      0 ≤ n.toInt ∧ p.Within buf n.toNat) ∧
    (p.Inside p.sys_write ∧ ∀ f buf n, p.sys_write.result = some (f, buf, n) →
      0 ≤ n.toInt ∧ p.Within buf n.toNat) ∧ p.Inside p.sys_exec := by
  refine ⟨?_, ?_, ?_, ?_, ?_, inside_sys_exec hsz⟩
  · intro n
    refine ⟨inside_argint hsz n, ?_⟩
    intro v hv
    obtain ⟨hend, hval⟩ := argint_some hsz hv
    exact ⟨⟨by omega, hend⟩, hval⟩
  · intro n size
    exact ⟨inside_argptr hsz n size, fun q hq => within_argptr hsz hq⟩
  · intro n
    refine ⟨inside_argstr hsz n, ?_⟩
    intro q len h
    obtain ⟨addr, -, hstr⟩ := bind_eq_some h
    obtain ⟨rfl, hlt, hzero, hbefore⟩ := (fetchstr_some_iff hsz).mp hstr
    exact ⟨⟨by omega, by omega⟩, hzero, hbefore⟩
  · exact ⟨inside_sys_read hsz, fun f buf n h => within_sys_read hsz h⟩
  · exact ⟨inside_sys_read hsz, fun f buf n h => within_sys_read hsz h⟩

/-- A process of one page with a descriptor, which asks to read up to the last byte. -/
theorem arguments_inside_page :
    let p : Caller Unit :=
      { sz := 4096
        esp := 0
        mem := fun a => if a = 9 then 0x0F else if a = 8 then 0xF0 else if a = 12 then 16 else 0
        ofile := fun _ => some () }
    p.sys_read.result = some ((), 0xFF0, 16) ∧ p.Within 0xFF0 16 := by
  refine ⟨by decide, ?_⟩
  refine ((arguments_inside _ (by decide)).2.2.2.1.2 () 0xFF0 16 ?_).2
  decide

end OsWork.Ports.SyscallArgs

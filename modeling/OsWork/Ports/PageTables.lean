import OsWork.Ports.ProcTable

/-!
# Physical pages and page tables of `ass5/final_repo`

The page allocator (`kalloc.c`) and the functions of `vm.c` that allocate and
free pages.  Physical memory is an array of pages of 1024 words; a page
directory or a page table is a page like any other, and its entries are words
of it.

Virtual and physical addresses that the source keeps page aligned are page
numbers here; sizes stay in bytes and are reduced modulo `2 ^ 32` where the
source adds to them.  `none` as the result of a function stands for a panic,
after which the machine does nothing any more.

The list that `struct run` threads through the free pages is a list of page
numbers.
-/

namespace OsWork.Ports.PageTables

open OsWork.Ports.ProcTable (Word)

/-! ## Pages and entries -/

/-- A physical page number: a physical address divided by `PGSIZE`. -/
abbrev Frame := Nat

/-- An index into a page directory or a page table. -/
abbrev Entry := Fin 1024

instance neZeroEntries : @NeZero Nat Zero.ofOfNat0 1024 := Nat.instNeZeroSucc

/-- The contents of a page. -/
abbrev Page := Entry → Word

def PGSIZE : Nat := 4096

/-- `KERNBASE`, the first kernel virtual address. -/
def KERNBASE : Nat := 0x80000000

/-- `PHYSTOP / PGSIZE`. -/
def physTop : Frame := 0xE000

def PTE_P : Word := 1
def PTE_W : Word := 2
def PTE_U : Word := 4

/-- `*pte & PTE_P`. -/
def present (w : Word) : Bool := w.getLsbD 0

/-- `*pte & PTE_U`. -/
def user (w : Word) : Bool := w.getLsbD 2

/-- `PTE_ADDR(w)`, as a page number. -/
def frameOf (w : Word) : Frame := w.toNat / PGSIZE

/-- `PTE_FLAGS(w)`. -/
def flagsOf (w : Word) : Word := w &&& 0xFFF

/-- `pa | perm | PTE_P` for the physical address `pa` of page `f`. -/
def entry (f : Frame) (perm : Word) : Word :=
  BitVec.ofNat 32 (f * PGSIZE) ||| perm ||| PTE_P

/-- `PGROUNDUP`. -/
def PGROUNDUP (sz : Nat) : Nat := (sz + (PGSIZE - 1)) % 0x100000000 / PGSIZE * PGSIZE

/-- `PDX` of the address of virtual page `a`. -/
def PDX (a : Nat) : Entry := Fin.ofNat 1024 (a / 1024)

/-- `PTX` of the address of virtual page `a`. -/
def PTX (a : Nat) : Entry := Fin.ofNat 1024 a

/-! ## The allocator -/

/-- Where the linker has put the kernel: the first page after `end`, and the
page of `data`. -/
structure Layout where
  kend : Frame
  kdata : Frame

structure Mem where
  ram : Frame → Page
  freelist : List Frame
  /-- `oom n`: the `n`-th call of `kalloc` from here on finds no page -/
  oom : Nat → Bool

namespace Mem

variable (L : Layout) (m : Mem)

/-- A store of a whole page. -/
def fill (f : Frame) (p : Page) : Mem := { m with ram := Function.update m.ram f p }

/-- A store of one word of a page. -/
def store (f : Frame) (k : Entry) (w : Word) : Mem :=
  m.fill f (Function.update (m.ram f) k w)

/-- `kalloc`. -/
def kalloc : Mem × Option Frame :=
  if m.oom 0 then ({ m with oom := fun n => m.oom (n + 1) }, none)
  else
    match m.freelist with
    | [] => ({ m with oom := fun n => m.oom (n + 1) }, none)
    | f :: rest => ({ m with freelist := rest, oom := fun n => m.oom (n + 1) }, some f)

/-- `kfree`: the page is filled with ones and put on the free list. -/
def kfree (f : Frame) : Option Mem :=
  if f < L.kend ∨ physTop ≤ f then none
  else some { m.fill f (fun _ => 0x01010101) with freelist := f :: m.freelist }

/-! ## Walking a page table -/

/-- `walkpgdir(pgdir, va, 0)`: page and index of the entry for virtual page `a`. -/
def walkpgdir (d : Frame) (a : Nat) : Option (Frame × Entry) :=
  if present (m.ram d (PDX a)) then some (frameOf (m.ram d (PDX a)), PTX a) else none

/-- `walkpgdir(pgdir, va, 1)`. -/
def walkpgdirAlloc (d : Frame) (a : Nat) : Mem × Option (Frame × Entry) :=
  if present (m.ram d (PDX a)) then (m, some (frameOf (m.ram d (PDX a)), PTX a))
  else
    match m.kalloc with
    | (m', none) => (m', none)
    | (m', some t) =>
        ((m'.fill t fun _ => 0).store d (PDX a) (entry t (PTE_W ||| PTE_U)), some (t, PTX a))

/-- The loop of `mappages` with `n` pages to go after this one; `false` when
`walkpgdir` fails. -/
def mapLoop (d : Frame) (perm : Word) : Nat → Nat → Frame → Mem → Option (Mem × Bool)
  | n, a, pa, m =>
      match m.walkpgdirAlloc d a with
      | (m', none) => some (m', false)
      | (m', some (t, k)) =>
          -- panic: remap
          if present (m'.ram t k) then none
          else
            match n with
            | 0 => some (m'.store t k (entry pa perm), true)
            | n + 1 => mapLoop d perm n (a + 1) (pa + 1) (m'.store t k (entry pa perm))

/-- `mappages` for the address of virtual page `a`: the loop ends at the page of
`va + size - 1`, computed modulo `2 ^ 32`. -/
def mappages (d : Frame) (a : Nat) (size : Nat) (pa : Frame) (perm : Word) :
    Option (Mem × Bool) :=
  let last := (a * PGSIZE + size + 0xFFFFFFFF) % 0x100000000 / PGSIZE
  m.mapLoop d perm ((last + 0x100000 - a) % 0x100000) a pa

/-! ## Giving pages back -/

/-- The loop of `deallocuvm` from virtual page `a` on. -/
def deallocLoop (d : Frame) (oldsz : Nat) : Nat → Nat → Mem → Option Mem
  | 0, _, m => some m
  | fuel + 1, a, m =>
      if a * PGSIZE < oldsz then
        match m.walkpgdir d a with
        -- the next page directory entry
        | none => deallocLoop d oldsz fuel ((a / 1024 + 1) * 1024) m
        | some (t, k) =>
            if present (m.ram t k) then
              if frameOf (m.ram t k) = 0 then none
              else
                match m.kfree L (frameOf (m.ram t k)) with
                | some m' => deallocLoop d oldsz fuel (a + 1) (m'.store t k 0)
                | none => none
            else deallocLoop d oldsz fuel (a + 1) m
      else some m

/-- `deallocuvm`: the new size and the memory. -/
def deallocuvm (d : Frame) (oldsz newsz : Nat) : Option (Mem × Nat) :=
  if oldsz ≤ newsz then some (m, oldsz)
  else (deallocLoop L d oldsz 0x100000 (PGROUNDUP newsz / PGSIZE) m).map fun m' => (m', newsz)

/-- The loop of `freevm` over the page directory. -/
def freeTables (d : Frame) : List Entry → Mem → Option Mem
  | [], m => some m
  | k :: rest, m =>
      if present (m.ram d k) then
        match m.kfree L (frameOf (m.ram d k)) with
        | some m' => freeTables d rest m'
        | none => none
      else freeTables d rest m

/-- `freevm`. -/
def freevm (d : Frame) : Option Mem :=
  match m.deallocuvm L d KERNBASE 0 with
  | some (m', _) =>
      match m'.freeTables L d (List.finRange 1024) with
      | some m'' => m''.kfree L d
      | none => none
  | none => none

end Mem

end OsWork.Ports.PageTables

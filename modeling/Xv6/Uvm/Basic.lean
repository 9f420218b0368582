import Xv6.Vm.Pages

/-!
# Address spaces — `vm.c` and `growproc` with the contents of memory

The page tables of `Vm.Pages`, with all the flags of an entry, and physical memory beside them: an
address space is what a directory makes of that memory.

* `Pte` — an entry, as its page and its twelve flags; `0` is the entry that `memset` leaves.
* `Machine` — the allocator, and the bytes of physical memory.  The pages that hold tables are the
  tree of the directory, and the links of the free list are the list: neither is among the bytes.
* An address space is read through `Pgdir.entry`, the entry of an address, and `Pgdir.phys`, where
  in memory the byte of an address is.
-/

namespace Xv6.Uvm

export Vm (Panic KERNBASE)
open Vm (Page Kmem PGSIZE NPDENTRIES PDX PTX PGADDR PGROUNDUP PGROUNDDOWN P2V)

/-! ### Entries -/

/-- The twelve low bits of an entry. -/
abbrev Flags := BitVec 12

/-- The flags of an entry. -/
def PTE_P : Flags := 0x001
def PTE_W : Flags := 0x002
def PTE_U : Flags := 0x004

/-- A page-table entry: `PTE_ADDR` and `PTE_FLAGS`. -/
structure Pte where
  addr : Page
  flags : Flags
  deriving DecidableEq

instance : Zero Pte := ⟨⟨0, 0⟩⟩

/-- `*pte & flag`. -/
def Pte.has (pte : Pte) (flag : Flags) : Bool := pte.flags &&& flag ≠ 0

/-- A page table: its page and its entries. -/
structure Pgtab where
  page : Page
  pte : ℕ → Pte

/-- A page directory: its page and the tables it points to. -/
structure Pgdir where
  page : Page
  pde : ℕ → Option Pgtab

namespace Pgdir

/-- `walkpgdir` with `alloc = 0`: the entry for `va`, if there is a table for it. -/
def lookup (d : Pgdir) (va : ℕ) : Option Pte := (d.pde (PDX va)).map fun t => t.pte (PTX va)

/-- The page directory with a new, empty table for `va`. -/
def addTable (d : Pgdir) (va : ℕ) (pgtab : Page) : Pgdir :=
  { d with pde := Function.update d.pde (PDX va) (some ⟨pgtab, fun _ => 0⟩) }

/-- `*pte = x`, for the entry of `va`. -/
def setPte (d : Pgdir) (va : ℕ) (x : Pte) : Pgdir :=
  { d with pde := Function.update d.pde (PDX va) ((d.pde (PDX va)).map fun t =>
      { t with pte := Function.update t.pte (PTX va) x }) }

/-- The entry of `va`; where there is no table it is `0`. -/
def entry (d : Pgdir) (va : ℕ) : Pte := (d.lookup va).getD 0

/-- Where the byte of `va` is in memory. -/
def phys (d : Pgdir) (va : ℕ) : ℕ := (d.entry va).addr + va % PGSIZE

end Pgdir

/-! ### Memory and `kalloc.c` -/

/-- The allocator and the bytes of memory. -/
structure Machine where
  kmem : Kmem
  ram : ℕ → UInt8

/-- A computation in the kernel's memory. -/
abbrev Uvm := StateT Machine (Except Panic)

/-- What the allocator does, in the machine. -/
def onKmem {α : Type} (x : Vm.Vm α) : Uvm α := fun s =>
  (x s.kmem).map fun r => (r.1, { s with kmem := r.2 })

/-- `memset`. -/
def memset (dst : ℕ) (c : UInt8) (n : ℕ) : Uvm Unit := modify fun s =>
  { s with ram := fun a => if dst ≤ a ∧ a < dst + n then c else s.ram a }

/-- `memmove`, from the bytes `src`. -/
def memmove (dst : ℕ) (src : ℕ → UInt8) (n : ℕ) : Uvm Unit := modify fun s =>
  { s with ram := fun a => if dst ≤ a ∧ a < dst + n then src (a - dst) else s.ram a }

/-- `kalloc`, which leaves the bytes of the page as they are. -/
def kalloc : Uvm (Option Page) := onKmem Vm.kalloc

variable (k : Vm.Symbols)

/-- `kfree`, which fills the page with 1. -/
def kfree (v : Page) : Uvm Unit := do
  onKmem (Vm.kfree k v)
  memset v 1 PGSIZE

/-! ### `vm.c` -/

/-- `walkpgdir` with `alloc = 1`: the directory, with a table for `va`. -/
def walkpgdir (d : Pgdir) (va : ℕ) : Uvm (Option Pgdir) :=
  match d.pde (PDX va) with
  | some _ => pure (some d)
  | none => do
      match ← kalloc with
      | none => pure none
      | some pgtab => pure (some (d.addTable va pgtab))

/-- The loop of `mappages`, for the pages that are left. -/
def mapFrom (perm : Flags) : ℕ → Pgdir → ℕ → ℕ → Uvm (Bool × Pgdir)
  | 0, d, _, _ => pure (true, d)
  | n + 1, d, a, pa => do
      match ← walkpgdir d a with
      | none => pure (false, d)
      | some d =>
          if (d.entry a).has PTE_P then throw .remap
          else mapFrom perm n (d.setPte a ⟨pa, perm ||| PTE_P⟩) (a + PGSIZE) (pa + PGSIZE)

/-- `mappages`, with the directory it leaves: `false` is the return of `-1`. -/
def mappages (d : Pgdir) (va size pa : ℕ) (perm : Flags) : Uvm (Bool × Pgdir) :=
  mapFrom perm (Vm.mapCount va size) d (PGROUNDDOWN va) pa

/-- The passes of `deallocuvm` from the address `a`.  A pass advances the address by a page at
least, so that `oldsz` of them are enough. -/
def deallocFrom (oldsz : ℕ) : ℕ → Pgdir → ℕ → Uvm Pgdir
  | 0, d, _ => pure d
  | n + 1, d, a =>
      if a < oldsz then
        match d.lookup a with
        | none => deallocFrom oldsz n d (PGADDR (PDX a + 1) 0 0 - PGSIZE + PGSIZE)
        | some pte =>
            if pte.has PTE_P then
              if pte.addr = 0 then throw .kfree
              else do
                kfree k pte.addr
                deallocFrom oldsz n (d.setPte a 0) (a + PGSIZE)
            else deallocFrom oldsz n d (a + PGSIZE)
      else pure d

/-- `deallocuvm`, with the directory it leaves. -/
def deallocuvm (d : Pgdir) (oldsz newsz : ℕ) : Uvm (Pgdir × ℕ) :=
  if oldsz ≤ newsz then pure (d, oldsz)
  else do
    let d ← deallocFrom k oldsz oldsz d (PGROUNDUP newsz)
    pure (d, newsz)

/-- The loop of `freevm` over the directory. -/
def freeTables (d : Pgdir) : ℕ → Uvm Unit
  | 0 => pure ()
  | n + 1 => do
      freeTables d n
      match d.pde n with
      | some t => kfree k t.page
      | none => pure ()

/-- `freevm`: the user pages, the tables, and the directory. -/
def freevm : Option Pgdir → Uvm Unit
  | none => throw .freevmNoPgdir
  | some d => do
      let (d, _) ← deallocuvm k d KERNBASE 0
      freeTables k d NPDENTRIES
      kfree k d.page

/-- `perm` of an entry of `kmap`. -/
def perm (e : Vm.Kmap) : Flags := if e.w then PTE_W else 0

/-- The loop of `setupkvm`. -/
def mapKernel (d : Pgdir) : List Vm.Kmap → Uvm (Option Pgdir)
  | [] => pure (some d)
  | e :: es => do
      let (ok, d) ←
        mappages d e.virt ((e.physEnd + 2 ^ 32 - e.physStart) % 2 ^ 32) e.physStart (perm e)
      if ok then mapKernel d es
      else do
        freevm k (some d)
        pure none

/-- `setupkvm`. -/
def setupkvm : Uvm (Option Pgdir) := do
  match ← kalloc with
  | none => pure none
  | some pgdir =>
      if P2V Vm.PHYSTOP > Vm.DEVSPACE then throw .phystopTooHigh
      else mapKernel k ⟨pgdir, fun _ => none⟩ (Vm.kmap k)

/-- The loop of `allocuvm`, for the pages that are left. -/
def allocFrom (oldsz newsz : ℕ) : ℕ → Pgdir → ℕ → Uvm (Pgdir × ℕ)
  | 0, d, _ => pure (d, newsz)
  | n + 1, d, a => do
      match ← kalloc with
      | none =>
          let (d, _) ← deallocuvm k d newsz oldsz
          pure (d, 0)
      | some mem =>
          memset mem 0 PGSIZE
          let (ok, d) ← mappages d a PGSIZE mem (PTE_W ||| PTE_U)
          if ok then allocFrom oldsz newsz n d (a + PGSIZE)
          else do
            let (d, _) ← deallocuvm k d newsz oldsz
            kfree k mem
            pure (d, 0)

/-- `allocuvm`, with the directory it leaves: the new size, or `0`. -/
def allocuvm (d : Pgdir) (oldsz newsz : ℕ) : Uvm (Pgdir × ℕ) :=
  if KERNBASE ≤ newsz then pure (d, 0)
  else if newsz < oldsz then pure (d, oldsz)
  else
    let a := PGROUNDUP oldsz
    allocFrom k oldsz newsz ((newsz - a + PGSIZE - 1) / PGSIZE) d a

/-- The loop of `copyuvm`, for the pages that are left. -/
def copyFrom (pgdir : Pgdir) : ℕ → Pgdir → ℕ → Uvm (Option Pgdir)
  | 0, d, _ => pure (some d)
  | n + 1, d, i =>
      match pgdir.lookup i with
      | none => throw .copyuvmNoPte
      | some pte =>
          if pte.has PTE_P = false then throw .copyuvmNotPresent
          else do
            match ← kalloc with
            | none => do
                freevm k (some d)
                pure none
            | some mem =>
                let s ← get
                memmove mem (fun o => s.ram (pte.addr + o)) PGSIZE
                let (ok, d) ← mappages d i PGSIZE mem pte.flags
                if ok then copyFrom pgdir n d (i + PGSIZE)
                else do
                  kfree k mem
                  freevm k (some d)
                  pure none

/-- `copyuvm`: the pages below `sz` are copied. -/
def copyuvm (pgdir : Pgdir) (sz : ℕ) : Uvm (Option Pgdir) := do
  match ← setupkvm k with
  | none => pure none
  | some d => copyFrom k pgdir (PGROUNDUP sz / PGSIZE) d 0

/-- `clearpteu`: the page is not for the user any more. -/
def clearpteu (d : Pgdir) (uva : ℕ) : Uvm Pgdir :=
  match d.lookup uva with
  | none => throw .clearpteu
  | some pte => pure (d.setPte uva { pte with flags := pte.flags &&& ~~~PTE_U })

/-- `uva2ka`: where the page of `uva` is in memory, if it is there for the user. -/
def uva2ka (d : Pgdir) (uva : ℕ) : Uvm (Option Page) :=
  match d.lookup uva with
  | none => throw .fault
  | some pte =>
      if pte.has PTE_P = false then pure none
      else if pte.has PTE_U = false then pure none
      else pure (some pte.addr)

/-- The loop of `copyout`; a pass copies a byte at least. -/
def copyoutFrom (d : Pgdir) : ℕ → ℕ → (ℕ → UInt8) → ℕ → Uvm Bool
  | 0, _, _, _ => pure true
  | fuel + 1, va, buf, len =>
      if 0 < len then do
        let va₀ := PGROUNDDOWN va
        match ← uva2ka d va₀ with
        | none => pure false
        | some pa₀ => do
            let n := min (PGSIZE - (va - va₀)) len
            memmove (pa₀ + (va - va₀)) buf n
            copyoutFrom d fuel ((va₀ + PGSIZE) % 2 ^ 32) (fun i => buf (n + i)) (len - n)
      else pure true

/-- `copyout` of the first `len` bytes of `p`: `false` is the return of `-1`. -/
def copyout (d : Pgdir) (va : ℕ) (p : ℕ → UInt8) (len : ℕ) : Uvm Bool :=
  copyoutFrom d len va p len

/-! ### `proc.c` -/

/-- `growproc` of a process with the directory `d` and the size `sz`, by an `int`: what it returns,
with the directory and the size it leaves. -/
def growproc (d : Pgdir) (sz : ℕ) (n : ℤ) : Uvm (ℤ × Pgdir × ℕ) := do
  let newsz := ((sz + n) % 2 ^ 32).toNat
  if 0 < n then do
    let (d, r) ← allocuvm k d sz newsz
    pure (if r = 0 then (-1, d, sz) else (0, d, r))
  else if n < 0 then do
    let (d, r) ← deallocuvm k d sz newsz
    pure (if r = 0 then (-1, d, sz) else (0, d, r))
  else pure (0, d, sz)

end Xv6.Uvm

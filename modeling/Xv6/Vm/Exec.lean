import Xv6.Vm.Pages

/-!
# Virtual memory — the new image of `exec.c`

`exec` up to its commit, with the page directory it builds.  What the file system gives it (the
inode, the ELF header, the program headers and the success of each read into memory) is part of
the `Image`; of the arguments it is the lengths that matter.  Every failure after `setupkvm` goes
through `cleanupexec`, which frees the directory.

* `exec_balances` — what `exec` takes from the free list is the directory it returns.
-/

namespace Xv6.Vm

open Lib (Balances)

/-- The words that `exec` hands on at most. -/
def MAXARG : ℕ := 32

/-- `struct proghdr`: whether it is to be loaded, where, and the success of the reads of
`loaduvm`, by their addresses. -/
structure Proghdr where
  load : Bool
  vaddr : ℕ
  filesz : ℕ
  memsz : ℕ
  reads : ℕ → Bool

/-- What `exec` finds: the inode, an ELF header read in full with the right magic number, the
program headers (`none` for one that cannot be read), and the lengths of the arguments. -/
structure Image where
  found : Bool
  header : Bool
  phdrs : List (Option Proghdr)
  argv : List ℕ

variable (k : Symbols)

/-- The loop of `loaduvm`, for the pages that are left. -/
def loadFrom (d : Pgdir) (reads : ℕ → Bool) : ℕ → ℕ → Vm Bool
  | 0, _ => pure true
  | n + 1, a =>
      match d.lookup a with
      | none => throw .loaduvmNoPte
      | some _ => if reads a then loadFrom d reads n (a + PGSIZE) else pure false

/-- `loaduvm`, where `reads` tells which reads of the file succeed. -/
def loaduvm (d : Pgdir) (addr sz : ℕ) (reads : ℕ → Bool) : Vm Bool :=
  if addr % PGSIZE ≠ 0 then throw .loaduvmNotAligned
  else loadFrom d reads (PGROUNDUP sz / PGSIZE) addr

/-- `clearpteu`. -/
def clearpteu (d : Pgdir) (uva : ℕ) : Vm Pgdir :=
  match d.lookup uva with
  | none => throw .clearpteu
  | some pte => pure (d.setPte uva (pte.map fun x => { x with u := false }))

/-- `uva2ka`: whether the page is there for the user. -/
def uva2ka (d : Pgdir) (uva : ℕ) : Vm Bool :=
  match d.lookup uva with
  | none => throw .fault
  | some pte => pure (pte.any Pte.u)

/-- The loop of `copyout`; a pass copies a byte at least. -/
def copyoutFrom (d : Pgdir) : ℕ → ℕ → ℕ → Vm Bool
  | 0, _, _ => pure true
  | n + 1, va, len =>
      if 0 < len then do
        let va₀ := PGROUNDDOWN va
        if ← uva2ka d va₀ then
          copyoutFrom d n (va₀ + PGSIZE) (len - min (PGSIZE - (va - va₀)) len)
        else pure false
      else pure true

/-- `copyout`: whether each page of the range is there. -/
def copyout (d : Pgdir) (va len : ℕ) : Vm Bool := copyoutFrom d len va len

/-- The loop of `exec` over the program headers, from the size so far: the directory it leaves
and the new size, unless it fails. -/
def loadProgram : List (Option Proghdr) → Pgdir → ℕ → Vm (Pgdir × Option ℕ)
  | [], d, sz => pure (d, some sz)
  | none :: _, d, _ => pure (d, none)
  | some ph :: phs, d, sz =>
      if ph.load = false then loadProgram phs d sz
      else if ph.memsz < ph.filesz then pure (d, none)
      else if (ph.vaddr + ph.memsz) % 2 ^ 32 < ph.vaddr then pure (d, none)
      else do
        let (d, sz) ← allocuvm k d sz ((ph.vaddr + ph.memsz) % 2 ^ 32)
        if sz = 0 then pure (d, none)
        else if ph.vaddr % PGSIZE ≠ 0 then pure (d, none)
        else do
          if ← loaduvm d ph.vaddr ph.filesz ph.reads then loadProgram phs d sz
          else pure (d, none)

/-- The loop of `exec` that pushes the argument strings: their number and the stack pointer. -/
def pushArgs (d : Pgdir) : List ℕ → ℕ → ℕ → Vm (Option (ℕ × ℕ))
  | [], argc, sp => pure (some (argc, sp))
  | len :: argv, argc, sp =>
      if MAXARG ≤ argc then pure none
      else do
        let sp := (sp + 2 ^ 32 - (len + 1) % 2 ^ 32) % 2 ^ 32 / 4 * 4
        if ← copyout d sp (len + 1) then pushArgs d argv (argc + 1) sp else pure none

/-- The user stack: whether the arguments and the words of `ustack` have been copied. -/
def pushStack (d : Pgdir) (argv : List ℕ) (sz : ℕ) : Vm Bool := do
  match ← pushArgs d argv 0 sz with
  | none => pure false
  | some (argc, sp) =>
      copyout d ((sp + 2 ^ 32 - (3 + argc + 1) * 4) % 2 ^ 32) ((3 + argc + 1) * 4)

/-- `exec` up to its commit: the new directory and size, or the return of `-1`. -/
def exec (img : Image) : Vm (Option (Pgdir × ℕ)) :=
  if img.found = false then pure none
  else if img.header = false then pure none
  else do
    match ← setupkvm k with
    | none => pure none
    | some d =>
        match ← loadProgram k img.phdrs d 0 with
        | (d, none) => do
            freevm k (some d)
            pure none
        | (d, some sz) =>
            let (d, sz) ← allocuvm k d (PGROUNDUP sz) (PGROUNDUP sz + 2 * PGSIZE)
            if sz = 0 then do
              freevm k (some d)
              pure none
            else do
              let d ← clearpteu d (sz - 2 * PGSIZE)
              if ← pushStack d img.argv sz then pure (some (d, sz))
              else do
                freevm k (some d)
                pure none

/-! ### The books balance -/

variable {g : Multiset Page}

/-- The loop of `loaduvm` takes no page. -/
theorem loadFrom_balances (d : Pgdir) (reads : ℕ → Bool) (n : ℕ) : ∀ a,
    Balances Kmem.free g (loadFrom d reads n a) fun _ r => r = g := by
  induction n with
  | zero => exact fun a => .pure rfl
  | succ n ih =>
      intro a
      rw [loadFrom]
      split
      · exact .throw
      · split
        · exact ih _
        · exact .pure rfl

theorem loaduvm_balances (d : Pgdir) (addr sz : ℕ) (reads : ℕ → Bool) :
    Balances Kmem.free g (loaduvm d addr sz reads) fun _ r => r = g := by
  rw [loaduvm]
  split
  · exact .throw
  · exact loadFrom_balances d reads _ _

/-- `clearpteu` takes no page. -/
theorem clearpteu_balances {d : Pgdir} {uva : ℕ} (h : uva < KERNBASE) :
    Balances Kmem.free d.pages (clearpteu d uva) fun d' r => r = d'.pages := by
  rw [clearpteu]
  split
  · exact .throw
  · rename_i y hy
    refine .pure ?_
    have := pages_setPte_user (x := y.map fun x => { x with u := false }) (PDX_user h) hy
    have he : entryPages (y.map fun x => { x with u := false }) = entryPages y := by cases y <;> rfl
    rw [he] at this
    exact (add_right_cancel this).symm

theorem uva2ka_balances (d : Pgdir) (uva : ℕ) :
    Balances Kmem.free g (uva2ka d uva) fun _ r => r = g := by
  rw [uva2ka]
  split
  · exact .throw
  · exact .pure rfl

/-- The loop of `copyout` takes no page. -/
theorem copyoutFrom_balances (d : Pgdir) (n : ℕ) : ∀ va len,
    Balances Kmem.free g (copyoutFrom d n va len) fun _ r => r = g := by
  induction n with
  | zero => exact fun va len => .pure rfl
  | succ n ih =>
      intro va len
      rw [copyoutFrom]
      split
      · refine .bind (uva2ka_balances d _) fun b r hr => ?_
        subst hr
        split
        · exact ih _ _
        · exact .pure rfl
      · exact .pure rfl

/-- The loop over the segments takes the pages of the new directory. -/
theorem loadProgram_balances (phs : List (Option Proghdr)) : ∀ (d : Pgdir) (sz : ℕ), sz < KERNBASE →
    Balances Kmem.free d.pages (loadProgram k phs d sz) fun r g =>
      g = r.1.pages ∧ ∀ sz', r.2 = some sz' → sz' < KERNBASE := by
  induction phs with
  | nil => exact fun d sz h => .pure ⟨rfl, by rintro _ ⟨⟩; exact h⟩
  | cons ph phs ih =>
      intro d sz h
      have hno : ∀ sz', (none : Option ℕ) = some sz' → sz' < KERNBASE := by rintro _ ⟨⟩
      cases ph with
      | none => exact .pure ⟨rfl, hno⟩
      | some ph =>
          rw [loadProgram]
          split
          · exact ih d sz h
          split
          · exact .pure ⟨rfl, hno⟩
          split
          · exact .pure ⟨rfl, hno⟩
          refine .bind (allocuvm_balances k (.inl h) d) fun r g ⟨hg, hr⟩ => ?_
          subst hg
          dsimp only
          split
          · exact .pure ⟨rfl, hno⟩
          split
          · exact .pure ⟨rfl, hno⟩
          refine .bind (loaduvm_balances r.1 _ _ _) fun b g hg => ?_
          subst hg
          split
          · exact ih r.1 r.2 hr
          · exact .pure ⟨rfl, hno⟩

/-- The loop over the arguments takes no page. -/
theorem pushArgs_balances (d : Pgdir) (argv : List ℕ) : ∀ argc sp,
    Balances Kmem.free g (pushArgs d argv argc sp) fun _ r => r = g := by
  induction argv with
  | nil => exact fun argc sp => .pure rfl
  | cons len argv ih =>
      intro argc sp
      rw [pushArgs]
      split
      · exact .pure rfl
      · refine .bind (copyoutFrom_balances d _ _ _) fun b r hr => ?_
        subst hr
        split
        · exact ih _ _
        · exact .pure rfl

theorem pushStack_balances (d : Pgdir) (argv : List ℕ) (sz : ℕ) :
    Balances Kmem.free g (pushStack d argv sz) fun _ r => r = g := by
  refine .bind (pushArgs_balances d argv 0 sz) fun x r hr => ?_
  subst hr
  cases x with
  | none => exact .pure rfl
  | some x => exact copyoutFrom_balances d _ _ _

/-- **`exec` balances the books.** -/
theorem exec_balances (img : Image) :
    Balances Kmem.free 0 (exec k img) fun r g =>
      g = dirPages (r.map Prod.fst) ∧ ∀ d sz, r = some (d, sz) → sz < KERNBASE := by
  have hno : ∀ d sz, (none : Option (Pgdir × ℕ)) = some (d, sz) → sz < KERNBASE := by rintro _ _ ⟨⟩
  have hfree : ∀ d : Pgdir, Balances Kmem.free d.pages
      (do freevm k (some d); pure none : Vm (Option (Pgdir × ℕ))) fun r g =>
        g = dirPages (r.map Prod.fst) ∧ ∀ d sz, r = some (d, sz) → sz < KERNBASE :=
    fun d => .bind (freevm_balances k (some d)) fun _ g hg => .pure ⟨hg, hno⟩
  rw [exec]
  split
  · exact .pure ⟨rfl, hno⟩
  split
  · exact .pure ⟨rfl, hno⟩
  refine .bind (setupkvm_balances k) fun r g hg => ?_
  subst hg
  cases r with
  | none => exact .pure ⟨rfl, hno⟩
  | some d =>
      refine .bind (loadProgram_balances k img.phdrs d 0 (by decide)) fun r g ⟨hg, hr⟩ => ?_
      subst hg
      obtain ⟨d, sz⟩ := r
      cases sz with
      | none => exact hfree d
      | some sz =>
          refine .bind (allocuvm_balances k (.inr (Nat.le_add_right _ _)) d) fun r g ⟨hg, hlt⟩ => ?_
          subst hg
          dsimp only
          split
          · exact hfree r.1
          refine .bind (clearpteu_balances (by omega)) fun d' g hg => ?_
          subst hg
          refine .bind (pushStack_balances d' _ _) fun b g hg => ?_
          subst hg
          split
          · exact .pure ⟨rfl, by rintro _ _ ⟨⟩; exact hlt⟩
          · exact hfree d'

end Xv6.Vm

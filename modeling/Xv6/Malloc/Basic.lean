import Xv6.Lib.Bytes
import Xv6.Lib.Runs
import Xv6.Lib.Extents

/-!
# Malloc — the user heap

`free`, `morecore` and `malloc` of `umalloc.c` on the bytes of a process.

A pointer is a 32-bit address, and a `Header` at `p` is the word at `p`, `ptr`, and the word at
`p + 4`, `size`.  `sbrk` answers from the history of its calls.  The loops take fuel;
`Returns f a` says that a call returns `a` whenever it has enough.
-/

namespace Xv6.Malloc

/-- The memory of a process. -/
abbrev Mem := Lib.Bytes (2 ^ 32)

/-- `sizeof(Header)` -/
def HEADER : ℕ := 8

/-! ### Headers -/

/-- `p->s.ptr`. -/
def ptr (m : Mem) (p : ℕ) : ℕ := m.get32 p

/-- `p->s.size`, in headers. -/
def size (m : Mem) (p : ℕ) : ℕ := m.get32 (p + 4)

/-- `p->s.ptr = v`. -/
def setPtr (m : Mem) (p v : ℕ) : Mem := m.put32 p v

/-- Stored modulo `2^32`. -/
def setSize (m : Mem) (p v : ℕ) : Mem := m.put32 (p + 4) v

/-- `p + k`, for a pointer `p` to a header. -/
def plus (p k : ℕ) : ℕ := (p + HEADER * k) % 2 ^ 32

/-! ### The process -/

/-- A call `sbrk(units * sizeof(Header))`; `none` stands for `-1`. -/
structure Sbrk where
  units : ℕ
  answer : Option ℕ
  deriving DecidableEq, Repr

/-- What the allocator runs in: where the linker put `base`, and the answers of `sbrk`, which are
failures or fresh memory, above `base` and all that `sbrk` gave before. -/
structure Process where
  base : ℕ
  sbrk : List Sbrk → ℕ → Option ℕ
  base_pos : 0 < base
  base_lt : base + HEADER < 2 ^ 32
  fresh : ∀ {calls : List Sbrk} {units p : ℕ}, sbrk calls units = some p →
    base + HEADER ≤ p ∧ p + HEADER * units < 2 ^ 32 ∧
      ∀ c ∈ calls, ∀ q ∈ c.answer, q + HEADER * c.units ≤ p

/-- The memory, the static variable `freep`, and the calls of `sbrk` so far. -/
structure Heap where
  mem : Mem
  freep : ℕ
  calls : List Sbrk

/-! ### `free` -/

/-- The loop of `free`. -/
def search (m : Mem) (bp : ℕ) : ℕ → ℕ → Option ℕ
  | 0, _ => none
  | n + 1, p =>
      if bp > p ∧ bp < ptr m p then some p
      else if p ≥ ptr m p ∧ (bp > p ∨ bp < ptr m p) then some p
      else search m bp n (ptr m p)

/-- What `free` does behind the loop. -/
def link (m : Mem) (bp p : ℕ) : Mem :=
  let m :=
    if plus bp (size m bp) = ptr m p then
      let m := setSize m bp (size m bp + size m (ptr m p))
      setPtr m bp (ptr m (ptr m p))
    else setPtr m bp (ptr m p)
  if plus p (size m p) = bp then
    let m := setSize m p (size m p + size m bp)
    setPtr m p (ptr m bp)
  else setPtr m p bp

/-- `free`: the block goes into the ring behind the block it follows. -/
def free (fuel : ℕ) (h : Heap) (ap : ℕ) : Option Heap := do
  let bp := ap - HEADER
  let p ← search h.mem bp fuel h.freep
  pure { h with mem := link h.mem bp p, freep := p }

/-! ### `malloc` -/

/-- `morecore`: at least 4096 units are asked for. -/
def morecore (P : Process) (fuel : ℕ) (h : Heap) (nu : ℕ) : Option (ℕ × Heap) :=
  let nu := if nu < 4096 then 4096 else nu
  let answer := P.sbrk h.calls nu
  let h := { h with calls := ⟨nu, answer⟩ :: h.calls }
  match answer with
  | none => some (0, h)
  | some p => do
      let h := { h with mem := setSize h.mem p nu }
      let h ← free fuel h (p + HEADER)
      pure (h.freep, h)

/-- The block at `p` is large enough. -/
def take (h : Heap) (prevp p nunits : ℕ) : ℕ × Heap :=
  if size h.mem p = nunits then
    (plus p 1, { h with mem := setPtr h.mem prevp (ptr h.mem p), freep := prevp })
  else
    let m := setSize h.mem p (size h.mem p - nunits)
    let p := plus p (size m p)
    (plus p 1, { h with mem := setSize m p nunits, freep := prevp })

/-- The loop of `malloc`. -/
def firstFit (P : Process) (nunits : ℕ) : ℕ → Heap → ℕ → ℕ → Option (ℕ × Heap)
  | 0, _, _, _ => none
  | n + 1, h, prevp, p =>
      if size h.mem p ≥ nunits then some (take h prevp p nunits)
      else if p = h.freep then do
        let (p, h) ← morecore P n h nunits
        if p = 0 then pure (0, h) else firstFit P nunits n h p (ptr h.mem p)
      else firstFit P nunits n h p (ptr h.mem p)

/-- The units of a request, its header included. -/
def nunits (nbytes : ℕ) : ℕ := (nbytes + HEADER - 1) % 2 ^ 32 / HEADER + 1

/-- `malloc`: the first call makes a ring of the one empty block. -/
def malloc (P : Process) (fuel : ℕ) (h : Heap) (nbytes : ℕ) : Option (ℕ × Heap) :=
  let h :=
    if h.freep = 0 then
      { h with mem := setSize (setPtr h.mem P.base P.base) P.base 0, freep := P.base }
    else h
  firstFit P (nunits nbytes) fuel h h.freep (ptr h.mem h.freep)

/-! ### Runs -/

/-- With enough fuel the call returns `a`. -/
def Returns {α : Type} (f : ℕ → Option α) (a : α) : Prop := ∃ N, ∀ fuel, N ≤ fuel → f fuel = some a

theorem Returns.unique {α : Type} {f : ℕ → Option α} {a b : α} (ha : Returns f a) (hb : Returns f b) :
    a = b := by
  obtain ⟨N, hN⟩ := ha
  obtain ⟨M, hM⟩ := hb
  exact Option.some.inj ((hN _ (Nat.le_max_left N M)).symm.trans (hM _ (Nat.le_max_right N M)))

/-- A pointer that `malloc(nbytes)` returned and the program has not freed. -/
structure Live where
  ap : ℕ
  nbytes : ℕ
  deriving DecidableEq, Repr

/-- The heap, and the blocks that the program has. -/
structure State where
  heap : Heap
  live : List Live

/-- What a program does. -/
inductive Action where
  | malloc (nbytes : ℕ)
  | free (ap : ℕ)
  | store (p : ℕ) (v : UInt8)

/-- A program calls `malloc` for a size at which the unit count does not wrap, and `free` for a
pointer that it holds; it writes the bytes that it asked for. -/
inductive Step (P : Process) : State → Action → State → Prop
  | malloc {h h' : Heap} {live : List Live} {nbytes ap : ℕ} (hn : nbytes + HEADER - 1 < 2 ^ 32)
      (hr : Returns (malloc P · h nbytes) (ap, h')) :
      Step P ⟨h, live⟩ (.malloc nbytes) ⟨h', if ap = 0 then live else ⟨ap, nbytes⟩ :: live⟩
  | free {h h' : Heap} {live : List Live} {b : Live} (hb : b ∈ live)
      (hr : Returns (free · h b.ap) h') : Step P ⟨h, live⟩ (.free b.ap) ⟨h', live.erase b⟩
  | store {h : Heap} {live : List Live} {b : Live} {k : ℕ} (v : UInt8) (hb : b ∈ live)
      (hk : k < b.nbytes) :
      Step P ⟨h, live⟩ (.store (b.ap + k) v) ⟨{ h with mem := h.mem.put8 (b.ap + k) v }, live⟩

/-- A program starts with `freep` null. -/
def start (m : Mem) : State := ⟨⟨m, 0, []⟩, []⟩

end Xv6.Malloc

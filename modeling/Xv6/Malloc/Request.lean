import Xv6.Malloc.Heap
import Xv6.Uvm.System

/-!
# Malloc — requests of any size

`malloc` over the `sbrk` of the kernel: `sys_sbrk` and `growproc`, on the address space of the
process.  The number of bytes `morecore` asks for is an `uint` that the kernel reads as an `int`.
A page that is not mapped faults; this is checked where a request can have taken the page away
or not brought it, at the instruction behind the system call and at the new header, which is
behind everything that the heap has.

* `sys_sbrk_grows`, `sys_sbrk_shrinks` — the two kinds of calls.
* `firstFit_exact` — the loop of `malloc`, where the number of bytes is read as it is.
* `firstFit_wraps` — the loop, where it is not.
* `Running.ready_run` — a process that asks for such sizes only.
* `serves_iff` — the requests that are served.
-/

namespace Xv6.Malloc

open Lib (Extent)

/-- An `uint` as an `int`. -/
def asInt (n : ℕ) : ℤ := Int.bmod n (2 ^ 32)

/-- What the kernel has of a process. -/
structure Space where
  pgdir : Uvm.Pgdir
  sz : ℕ
  machine : Uvm.Machine

/-- `sys_sbrk`: the old size, if `growproc` succeeds. -/
def sys_sbrk (k : Vm.Symbols) (s : Space) (n : ℤ) : Except Vm.Panic (ℤ × Space) :=
  let addr : ℤ := s.sz
  match Uvm.growproc k s.pgdir s.sz n s.machine with
  | .error e => .error e
  | .ok ((r, pgdir, sz), machine) => .ok (if r < 0 then -1 else addr, ⟨pgdir, sz, machine⟩)

/-- `sbrk`, as a program calls it: its argument is read as an `int`. -/
abbrev Call := Space → ℕ → Except Vm.Panic (ℤ × Space)

/-- `sbrk`, on an `int`. -/
def sbrk (k : Vm.Symbols) : Call := fun s n => sys_sbrk k s (asInt n)

/-- The page of the address is mapped. -/
def Space.Present (s : Space) (va : ℕ) : Prop := s.pgdir.Mapped (va / Vm.PGSIZE)

instance (s : Space) (va : ℕ) : Decidable (s.Present va) := by
  unfold Space.Present Uvm.Pgdir.Mapped; infer_instance

/-- What ends a process in `malloc`. -/
inductive Trap where
  | fault
  | panic (e : Vm.Panic)

/-- The program: where `base` is, and the instruction behind the system call of `sbrk`. -/
structure Program where
  base : ℕ
  text : ℕ

section

variable (sbrk : Call) (g : Program)

namespace Space

/-- `morecore`, on the memory of the process. -/
def morecore (fuel : ℕ) (h : Heap) (s : Space) (nu : ℕ) :
    Option (Except Trap (ℕ × Heap × Space)) :=
  let nu := if nu < 4096 then 4096 else nu
  match sbrk s (nu * HEADER % 2 ^ 32) with
  | .error e => some (.error (.panic e))
  | .ok (r, s) =>
      if ¬ s.Present g.text then some (.error .fault)
      else if r = -1 then some (.ok (0, { h with calls := ⟨nu, none⟩ :: h.calls }, s))
      else
        let p := r.toNat
        if ¬ (s.Present (p + 4) ∧ s.Present (p + 7)) then some (.error .fault)
        else do
          let h ← free fuel ⟨setSize h.mem p nu, h.freep, ⟨nu, some p⟩ :: h.calls⟩ (p + HEADER)
          pure (.ok (h.freep, h, s))

/-- The loop of `malloc`: the first block that is large enough, or more core. -/
def firstFit (nunits : ℕ) : ℕ → Heap → Space → ℕ → ℕ → Option (Except Trap (ℕ × Heap × Space))
  | 0, _, _, _, _ => none
  | n + 1, h, s, prevp, p =>
      if size h.mem p ≥ nunits then
        let r := take h prevp p nunits
        some (.ok (r.1, r.2, s))
      else if p = h.freep then do
        match ← morecore sbrk g n h s nunits with
        | .error e => some (.error e)
        | .ok r =>
            if r.1 = 0 then some (.ok (0, r.2))
            else firstFit nunits n r.2.1 r.2.2 r.1 (ptr r.2.1.mem r.1)
      else firstFit nunits n h s p (ptr h.mem p)

/-- `malloc`, on the memory of the process. -/
def malloc (fuel : ℕ) (h : Heap) (s : Space) (nbytes : ℕ) :
    Option (Except Trap (ℕ × Heap × Space)) :=
  let h :=
    if h.freep = 0 then
      { h with mem := setSize (setPtr h.mem g.base g.base) g.base 0, freep := g.base }
    else h
  firstFit sbrk g (nunits nbytes) fuel h s h.freep (ptr h.mem h.freep)

end Space

end

/-- `malloc(nbytes)` returns `0`, or a block with room for `nbytes` bytes, as its header says, below
the break of the process. -/
def Serves (k : Vm.Symbols) (g : Program) (h : Heap) (s : Space) (nbytes : ℕ) : Prop :=
  ∃ ap h' s', Returns (Space.malloc (sbrk k) g · h s nbytes) (.ok (ap, h', s')) ∧
    (ap = 0 ∨
      let b := Live.block ⟨ap, nbytes⟩
      size h'.mem b.addr = b.size ∧ ap + nbytes ≤ b.stop ∧ b.stop ≤ s'.sz)

/-! ### The arithmetic -/

theorem asInt_of_lt {n : ℕ} (h : n < 2 ^ 31) : asInt n = n := by
  exact Int.bmod_eq_of_le (by omega) (by omega)

theorem asInt_of_le {n : ℕ} (h : 2 ^ 31 ≤ n) (h' : n < 2 ^ 32) : asInt n = n - 2 ^ 32 := by
  have hmod : ((n : ℤ) - 2 ^ 32) % ((2 ^ 32 : ℕ) : ℤ) = n := by omega
  calc Int.bmod n (2 ^ 32) = Int.bmod (((n : ℤ) - 2 ^ 32) % ((2 ^ 32 : ℕ) : ℤ)) (2 ^ 32) := by
        rw [hmod]
    _ = Int.bmod ((n : ℤ) - 2 ^ 32) (2 ^ 32) := Int.emod_bmod _ _
    _ = n - 2 ^ 32 := Int.bmod_eq_of_le (by omega) (by omega)

/-- The units of a request, and the bytes `morecore` asks for, are what they are in ℕ. -/
theorem exact_iff {nbytes : ℕ} (hn : nbytes < 2 ^ 32) :
    nbytes + 2 * HEADER ≤ 2 ^ 31 ↔
      nbytes + HEADER - 1 < 2 ^ 32 ∧ atLeast (nunits nbytes) * HEADER < 2 ^ 31 := by
  unfold atLeast nunits HEADER
  split <;> omega

/-! ### `sbrk` -/

variable {k : Vm.Symbols} {g : Program} {s s' : Space} {F : Multiset Vm.Page} {n : ℤ}

/-- The pages below the break, and no other, are mapped, and `base` and the program lie there. -/
structure Space.Valid (k : Vm.Symbols) (g : Program) (F : Multiset Vm.Page) (s : Space) :
    Prop where
  sz_lt : s.sz < Vm.KERNBASE
  base_le : g.base + HEADER ≤ s.sz
  text_lt : g.text < s.sz
  covers : Uvm.Covers s.pgdir s.sz
  owns : Uvm.Owns k s.machine (s.pgdir.pages + F)

theorem Space.Valid.present {va : ℕ} (hs : s.Valid k g F) (h : va < s.sz) : s.Present va := by
  have hlt := h.trans hs.sz_lt
  refine (hs.covers _ (Uvm.page_number_lt hlt)).mpr (Uvm.page_lt_npages.mpr (h.trans_le ?_))
  unfold Vm.PGROUNDUP Vm.PGSIZE
  omega

/-- **The process grows**, or `sbrk` returns `-1`. -/
theorem sys_sbrk_grows (hs : s.Valid k g F) (hpos : 0 < n) (hn : n < 2 ^ 31) :
    ∃ s', s'.Valid k g F ∧
      (sys_sbrk k s n = .ok (-1, s') ∧ s'.sz = s.sz ∨
        sys_sbrk k s n = .ok (s.sz, s') ∧ (s'.sz : ℤ) = s.sz + n) := by
  obtain ⟨⟨r, d, sz⟩, m, hg, -, -, ho, ⟨hr, hsz, hlt, hres⟩ | ⟨hr, hsz, hun⟩⟩ :=
    Lib.wp_returns (Uvm.growproc_total hs.sz_lt hs.covers hs.owns (by omega) hn
      fun hneg => absurd hneg (by omega)) fun _ => id
  · dsimp only at hr hsz hlt
    refine ⟨⟨d, sz, m⟩, ⟨hlt, ?_, ?_, hres.covers, ho⟩, .inr ⟨?_, hsz⟩⟩
    · have := hs.base_le
      dsimp only
      omega
    · have := hs.text_lt
      dsimp only
      omega
    · rw [sys_sbrk, hg, hr]
      rfl
  · dsimp only at hr hsz
    subst hsz
    refine ⟨⟨d, s.sz, m⟩, ⟨hs.sz_lt, hs.base_le, hs.text_lt, hun.covers hs.covers, ho⟩,
      .inl ⟨?_, rfl⟩⟩
    rw [sys_sbrk, hg, hr]
    rfl

/-- A shrink that leaves something succeeds. -/
theorem growproc_shrinks (hs : s.Valid k g F) (hneg : n < 0) (hpos : 0 < s.sz + n) :
    Uvm.Total (Uvm.growproc k s.pgdir s.sz n) (fun r _ => r.1 = 0 ∧ r.2.2 < Vm.KERNBASE)
      s.machine := by
  have hK : Vm.KERNBASE = 2 ^ 31 := rfl
  have hlt := hs.sz_lt
  obtain ⟨newsz, he⟩ : ∃ newsz : ℕ, (newsz : ℤ) = s.sz + n := ⟨(s.sz + n).toNat, by omega⟩
  have hnew : ((s.sz + n) % 2 ^ 32).toNat = newsz := by omega
  rw [Uvm.growproc]
  dsimp only
  rw [if_neg (by omega), if_pos hneg, hnew]
  refine Lib.wp_seq (Uvm.deallocuvm_resized hlt hs.covers hs.owns (by omega)) ?_
  rintro r m ⟨hr, _, _, _, _⟩
  obtain ⟨d, r⟩ := r
  obtain rfl : r = newsz := hr
  dsimp only
  rw [if_neg (by omega)]
  exact ⟨rfl, by dsimp only; omega⟩

/-- **The process does not grow**: `sbrk` returns the break, or has unmapped every page. -/
theorem sys_sbrk_shrinks (hs : s.Valid k g F) (hlo : -2 ^ 31 ≤ n) (hn : n ≤ 0) :
    ∃ s', s'.sz < Vm.KERNBASE ∧
      (sys_sbrk k s n = .ok (s.sz, s') ∨
        ∃ r, sys_sbrk k s n = .ok (r, s') ∧ ¬ s'.Present g.text) := by
  have hK : Vm.KERNBASE = 2 ^ 31 := rfl
  have hbase := hs.text_lt
  rcases lt_trichotomy (s.sz + n) 0 with hlt | heq | hgt
  · have hg := Uvm.growproc_below_zero (k := k) hs.sz_lt (by omega) hlo hlt s.pgdir
    exact ⟨s, hs.sz_lt, .inl (by rw [sys_sbrk, hg]; rfl)⟩
  · obtain rfl : n = -s.sz := by omega
    obtain ⟨⟨r, d, sz⟩, m, hg, -, hsz, hun⟩ := Lib.wp_returns
      (Uvm.growproc_to_zero (k := k) hs.sz_lt (by omega) hs.covers hs.owns) fun _ => id
    refine ⟨⟨d, sz, m⟩, ?_, .inr ⟨_, by rw [sys_sbrk, hg], ?_⟩⟩
    · rw [show sz = s.sz from hsz]
      exact hs.sz_lt
    · exact hun _ (Uvm.page_number_lt (hs.text_lt.trans hs.sz_lt))
  · rcases hn.eq_or_lt with rfl | hneg
    · exact ⟨s, hs.sz_lt, .inl rfl⟩
    · obtain ⟨⟨r, d, sz⟩, m, hg, hr, hlt⟩ :=
        Lib.wp_returns (growproc_shrinks hs hneg hgt) fun _ => id
      dsimp only at hr
      exact ⟨⟨d, sz, m⟩, hlt, .inl (by rw [sys_sbrk, hg, hr]; rfl)⟩

/-! ### The loop -/

variable {call : Call} {P P' : Process} {h : Heap} {live : List Live} {L : List Block} {nu : ℕ}

/-- The loop at `freep`. -/
def Space.more (call : Call) (g : Program) (nu : ℕ) (h : Heap) (s : Space) (fuel : ℕ) :
    Option (Except Trap (ℕ × Heap × Space)) := do
  match ← morecore call g fuel h s nu with
  | .error e => some (.error e)
  | .ok r =>
      if r.1 = 0 then some (.ok (0, r.2))
      else firstFit call g nu fuel r.2.1 r.2.2 r.1 (ptr r.2.1.mem r.1)

/-- The loop at a block that is large enough. -/
def Space.found (nu : ℕ) (h : Heap) (s : Space) (prevp p : ℕ) :
    Option (Except Trap (ℕ × Heap × Space)) :=
  some (.ok ((take h prevp p nu).1, (take h prevp p nu).2, s))

/-- The search is a round over the list, with `sbrk` at its end. -/
theorem Space.firstFit_eq_round (nu fuel : ℕ) (h : Heap) (s : Space) (prevp p : ℕ) :
    firstFit call g nu fuel h s prevp p =
      round h.mem h.freep nu (found nu h s) (more call g nu h s) fuel prevp p := by
  induction fuel generalizing prevp p with
  | zero => rfl
  | succ fuel ih =>
      rw [firstFit, round, ih]
      rfl

variable (call g) in
/-- Where a block is large enough, it is handed out. -/
theorem Space.firstFit_fits (hf : FreeList P h L) (hfit : ∃ c ∈ L, nu ≤ c.size) (hn : 0 < nu)
    (s : Space) : ∃ r x L',
      Returns (fun fuel => firstFit call g nu fuel h s h.freep (ptr h.mem h.freep))
        (.ok (r.1, r.2, s)) ∧ Carved P h L nu r x L' := by
  obtain ⟨i, N, hsize, hfirst, hret⟩ := round_node hf hfit hn
  obtain ⟨x, L', hc⟩ := hf.take_carved hn hsize hfirst
  exact ⟨_, x, L', ⟨N, fun fuel hfuel => (firstFit_eq_round ..).trans (hret fuel hfuel)⟩, hc⟩

/-- Where none is, the loop asks for memory. -/
theorem Space.firstFit_full (hf : FreeList P h L) (hfull : ∀ c ∈ L, c.size < nu) (hn : 0 < nu)
    {a : Except Trap (ℕ × Heap × Space)} (hmore : Returns (more call g nu h s) a) :
    Returns (fun fuel => firstFit call g nu fuel h s h.freep (ptr h.mem h.freep)) a := by
  obtain ⟨N, hN⟩ := hmore
  refine ⟨N + (1 + L.length), fun fuel hfuel => ?_⟩
  obtain ⟨m, rfl⟩ := Nat.exists_eq_add_of_le' ((Nat.le_add_left ..).trans hfuel)
  dsimp only
  rw [firstFit_eq_round, ← Nat.add_assoc, round_full hf hfull hn]
  exact hN m (Nat.le_of_add_le_add_right hfuel)

theorem FreeList.rebase (hf : FreeList P h L) (hb : P'.base = P.base) : FreeList P' h L := by
  have hfirst : P'.first = P.first := by rw [Process.first, hb]; rfl
  exact ⟨by rw [hfirst, hb]; exact hf.chain, by rw [hfirst]; exact hf.apart,
    by rw [hb]; exact hf.above, hf.sized, hf.fits, by rw [hfirst]; exact hf.freep⟩

/-- What `sbrk` will answer is no part of a heap. -/
theorem Heap.Valid.rebase (hv : h.Valid P live L) (hb : P'.base = P.base) : h.Valid P' live L :=
  ⟨hv.list.rebase hb, hv.disjoint, hv.room, hv.total, hv.headers, by rw [hb]; exact hv.above,
    hv.bound⟩

/-- `P`, where the next call of `sbrk` for `units` is answered with `p`. -/
def Process.granting (P : Process) (calls : List Sbrk) (units p : ℕ) (hlo : P.base + HEADER ≤ p)
    (hhi : p + HEADER * units < 2 ^ 32)
    (hcalls : ∀ c ∈ calls, ∀ q ∈ c.answer, q + HEADER * c.units ≤ p) : Process where
  base := P.base
  sbrk c u := if c = calls ∧ u = units then some p else none
  base_pos := P.base_pos
  base_lt := P.base_lt
  fresh h := by
    obtain ⟨⟨rfl, rfl⟩, hp⟩ := Option.ite_none_right_eq_some.mp h
    obtain rfl := Option.some.inj hp
    exact ⟨hlo, hhi, hcalls⟩

/-- `morecore`, where nothing faults. -/
theorem Space.morecore_free {p : ℕ} (hcall : call s (atLeast nu * HEADER % 2 ^ 32) = .ok (p, s'))
    (htext : s'.Present g.text) (hpage : s'.Present (p + 4) ∧ s'.Present (p + 7)) (fuel : ℕ) :
    morecore call g fuel h s nu =
      (free fuel ⟨setSize h.mem p (atLeast nu), h.freep, ⟨atLeast nu, some p⟩ :: h.calls⟩
        (p + HEADER)).map fun h => .ok (h.freep, h, s') := by
  have hunits : (if nu < 4096 then 4096 else nu) = atLeast nu := rfl
  unfold morecore
  dsimp only
  rw [hunits, hcall]
  dsimp only
  rw [if_neg (not_not.mpr htext), if_neg (by omega), Int.toNat_natCast, if_neg (not_not.mpr hpage)]
  cases free fuel ⟨setSize h.mem p (atLeast nu), h.freep, ⟨atLeast nu, some p⟩ :: h.calls⟩
    (p + HEADER) with
  | none => rfl
  | some h' => rfl

/-- `morecore`, where the program or the new header is not mapped. -/
theorem Space.morecore_fault {r : ℤ}
    (hcall : call s (atLeast nu * HEADER % 2 ^ 32) = .ok (r, s'))
    (h' : ¬ s'.Present g.text ∨ r ≠ -1 ∧ ¬ (s'.Present (r.toNat + 4) ∧ s'.Present (r.toNat + 7)))
    (fuel : ℕ) : morecore call g fuel h s nu = some (.error .fault) := by
  have hunits : (if nu < 4096 then 4096 else nu) = atLeast nu := rfl
  unfold morecore
  dsimp only
  rw [hunits, hcall]
  dsimp only
  by_cases htext : s'.Present g.text
  · obtain ⟨hr, hpage⟩ := h'.resolve_left (not_not.mpr htext)
    rw [if_neg (not_not.mpr htext), if_neg hr, if_pos hpage]
  · rw [if_pos htext]

/-- `morecore` with memory from the kernel. -/
theorem Space.morecore_eq {p : ℕ}
    (hcall : call s (atLeast nu * HEADER % 2 ^ 32) = .ok (p, s'))
    (htext : s'.Present g.text) (hpage : s'.Present (p + 4) ∧ s'.Present (p + 7))
    (hP : P.sbrk h.calls (atLeast nu) = some p) (fuel : ℕ) :
    morecore call g fuel h s nu =
      (Malloc.morecore P fuel h nu).map fun r => .ok (r.1, r.2, s') := by
  have hunits : (if nu < 4096 then 4096 else nu) = atLeast nu := rfl
  rw [morecore_free hcall htext hpage]
  unfold Malloc.morecore
  dsimp only
  rw [hunits, hP]
  dsimp only
  cases free fuel ⟨setSize h.mem p (atLeast nu), h.freep, ⟨atLeast nu, some p⟩ :: h.calls⟩
    (p + HEADER) with
  | none => rfl
  | some h' => rfl

/-- `sbrk` returns `-1`, and `malloc` returns `0`. -/
theorem Space.firstFit_refused (hf : FreeList P h L) (hfull : ∀ c ∈ L, c.size < nu) (hn : 0 < nu)
    (hcall : call s (atLeast nu * HEADER % 2 ^ 32) = .ok (-1, s')) (htext : s'.Present g.text) :
    Returns (fun fuel => firstFit call g nu fuel h s h.freep (ptr h.mem h.freep))
      (.ok (0, { h with calls := ⟨atLeast nu, none⟩ :: h.calls }, s')) := by
  refine firstFit_full hf hfull hn ⟨0, fun fuel _ => ?_⟩
  have hunits : (if nu < 4096 then 4096 else nu) = atLeast nu := rfl
  unfold more morecore
  dsimp only
  rw [hunits, hcall]
  dsimp only
  rw [if_neg (not_not.mpr htext), if_pos rfl]
  rfl

/-- `sbrk` grants the memory, and `malloc` hands out a part of it. -/
theorem Space.firstFit_granted {p : ℕ} (hv : h.Valid P live L) (hfull : ∀ c ∈ L, c.size < nu)
    (hn : 0 < nu) (hcall : call s (atLeast nu * HEADER % 2 ^ 32) = .ok (p, s'))
    (htext : s'.Present g.text) (hpage : s'.Present (p + 4) ∧ s'.Present (p + 7))
    (hP : P.sbrk h.calls (atLeast nu) = some p) : ∃ h₁ L₁ r x L',
      Returns (fun fuel => firstFit call g nu fuel h s h.freep (ptr h.mem h.freep))
        (.ok (r.1, r.2, s')) ∧ h₁.Valid P live L₁ ∧ Carved P h₁ L₁ nu r x L' ∧
      h₁.calls = ⟨atLeast nu, some p⟩ :: h.calls := by
  obtain ⟨h₁, hret, hv₁⟩ := hv.grown hP
  have hcalls : h₁.calls = ⟨atLeast nu, some p⟩ :: h.calls := by
    obtain ⟨h₂, hret₂, -, hcalls, -⟩ := morecore_spec hv.list hP fun b hb =>
      hv.fresh_disjoint hP b (List.mem_append_left _ hb)
    have := congrArg Prod.snd (hret.unique hret₂)
    rwa [← show h₁ = h₂ from this] at hcalls
  obtain ⟨c, hc, hle⟩ := Extent.exists_size_le_place ⟨p, atLeast nu⟩ L
  obtain ⟨r, x, L', ⟨M, hM⟩, hcar⟩ := firstFit_fits g call hv₁.list
    ⟨c, hc, (le_atLeast nu).trans hle⟩ hn s'
  obtain ⟨N, hN⟩ := hret
  refine ⟨h₁, _, r, x, L', firstFit_full hv.list hfull hn ⟨max N M, fun fuel hfuel => ?_⟩, hv₁,
    hcar, hcalls⟩
  have hmore := hN fuel ((Nat.le_max_left N M).trans hfuel)
  have hfit := hM fuel ((Nat.le_max_right N M).trans hfuel)
  dsimp only at hmore hfit
  unfold more
  rw [morecore_eq hcall htext hpage hP, hmore]
  show (if h₁.freep = 0 then _ else _) = _
  rw [if_neg hv₁.freep_ne]
  exact hfit

/-! ### Requests that are read as they are -/

/-- The memory that the heap got lies below the break. -/
def InSpace (h : Heap) (s : Space) : Prop :=
  ∀ c ∈ h.calls, ∀ q ∈ c.answer, q + HEADER * c.units ≤ s.sz

theorem Heap.Valid.stop_le (hv : h.Valid P live L) (hin : InSpace h s) :
    ∀ b ∈ L ++ live.map Live.block, b.stop ≤ s.sz := by
  intro b hb
  obtain ⟨c, hc, q, hq, hle, -⟩ := hv.bound b hb
  exact hle.trans (hin c hc q hq)

/-- No block is large enough, and `sbrk` returns `-1`. -/
def Refused (k : Vm.Symbols) (s : Space) (L : List Block) (nu : ℕ) : Prop :=
  (∀ c ∈ L, c.size < nu) ∧ ∃ s', sys_sbrk k s (atLeast nu * HEADER : ℕ) = .ok (-1, s')

/-- **The loop of `malloc`** for a request whose bytes are what they are in ℕ: it hands out a block
of a valid heap, or is refused one. -/
theorem firstFit_exact (hv : h.Valid P live L) (hb : P.base = g.base) (hs : s.Valid k g F)
    (hin : InSpace h s) (hn : 0 < nu) (hsmall : atLeast nu * HEADER < 2 ^ 31) :
    (¬ Refused k s L nu ∧ ∃ P' h₁ L₁ r x L' s', P'.base = g.base ∧
      Returns (fun fuel => Space.firstFit (sbrk k) g nu fuel h s h.freep (ptr h.mem h.freep))
        (.ok (r.1, r.2, s')) ∧ h₁.Valid P' live L₁ ∧ Carved P' h₁ L₁ nu r x L' ∧
      s'.Valid k g F ∧ InSpace h₁ s') ∨
    (Refused k s L nu ∧ ∃ h₁ s',
      Returns (fun fuel => Space.firstFit (sbrk k) g nu fuel h s h.freep (ptr h.mem h.freep))
        (.ok (0, h₁, s')) ∧ h₁.Valid P live L ∧ s'.Valid k g F ∧ InSpace h₁ s') := by
  by_cases hfit : ∃ c ∈ L, nu ≤ c.size
  · obtain ⟨r, x, L', hret, hc⟩ := Space.firstFit_fits g (sbrk k) hv.list hfit hn s
    refine .inl ⟨fun hr => ?_, P, h, L, r, x, L', s, hb, hret, hv, hc, hs, hin⟩
    obtain ⟨c, hc, hle⟩ := hfit
    exact absurd (hr.1 c hc) (not_lt.mpr hle)
  -- No block fits, so the kernel is asked.
  have hfull : ∀ c ∈ L, c.size < nu := fun c hc => not_le.mp fun hle => hfit ⟨c, hc, hle⟩
  have hbytes : sbrk k s (atLeast nu * HEADER % 2 ^ 32) =
      sys_sbrk k s (atLeast nu * HEADER : ℕ) := by
    rw [sbrk, Nat.mod_eq_of_lt (by omega), asInt_of_lt hsmall]
  have hpos : (0 : ℤ) < (atLeast nu * HEADER : ℕ) := by
    have := atLeast_pos nu
    unfold HEADER
    omega
  obtain ⟨s', hs', ⟨hcall, hsz⟩ | ⟨hcall, hsz⟩⟩ := sys_sbrk_grows hs hpos (by omega)
  · have htext : s'.Present g.text := hs'.present hs'.text_lt
    refine .inr ⟨⟨hfull, s', hcall⟩, _, s',
      Space.firstFit_refused hv.list hfull hn (hbytes.trans hcall) htext, hv.failed _, hs', ?_⟩
    refine List.forall_mem_cons.mpr ⟨?_, fun c hc q hq => (hin c hc q hq).trans_eq hsz.symm⟩
    rintro q ⟨⟩
  · have hsz : s'.sz = s.sz + HEADER * atLeast nu := by
      unfold HEADER at *
      omega
    have hK : Vm.KERNBASE = 2 ^ 31 := rfl
    have hlt := hs'.sz_lt
    have hbase := hs.base_le
    have h8 := header_le (atLeast_pos nu) (x := ⟨s.sz, atLeast nu⟩)
    unfold Extent.stop HEADER at h8
    dsimp only at h8
    set P' := P.granting h.calls (atLeast nu) s.sz (hb ▸ hbase) (by omega) hin with hP'
    obtain ⟨h₁, L₁, r, x, L', hret, hv₁, hc, hcalls⟩ := Space.firstFit_granted
      (hv.rebase (show P'.base = P.base from rfl)) hfull hn (hbytes.trans hcall)
      (hs'.present hs'.text_lt)
      ⟨hs'.present (by unfold HEADER at hsz; omega), hs'.present (by unfold HEADER at hsz; omega)⟩
      (if_pos ⟨rfl, rfl⟩)
    refine .inl ⟨?_, P', h₁, L₁, r, x, L', s', hb, hret, hv₁, hc, hs', ?_⟩
    · rintro ⟨-, s'', hneg⟩
      cases hcall.symm.trans hneg
    rw [InSpace, hcalls]
    refine List.forall_mem_cons.mpr ⟨?_, fun c hc q hq => (hin c hc q hq).trans (by omega)⟩
    rintro q hq
    obtain rfl := Option.some.inj hq
    dsimp only
    omega

/-! ### Requests that wrap around -/

variable {m : Mem} {a q : ℕ}

/-- The header that `attach` writes, where the blocks touch. -/
theorem attach_touch (ha : a + HEADER ≤ 2 ^ 32) (hclear : Clear a q)
    (hsum : size m a + size m q < 2 ^ 32) (h : plus a (size m a) = q) :
    size (attach m a q) a = size m a + size m q ∧ ptr (attach m a q) a = ptr m q := by
  rw [attach, if_pos h]
  dsimp only
  refine ⟨by rw [size_setPtr, size_setSize ha hsum], ?_⟩
  rw [ptr_setPtr ha (ptr_lt ..), (same_setSize hclear).1]

/-- The header that `attach` writes, where they do not. -/
theorem attach_apart (ha : a + HEADER ≤ 2 ^ 32) (hq : q < 2 ^ 32) (h : plus a (size m a) ≠ q) :
    size (attach m a q) a = size m a ∧ ptr (attach m a q) a = q := by
  rw [attach, if_neg h]
  exact ⟨size_setPtr .., ptr_setPtr ha hq⟩

/-- What `take` hands out is `q + HEADER`, where the block ends in `nu` units at `q`. -/
theorem take_fst {prevp p : ℕ} (hp : p + HEADER ≤ 2 ^ 32)
    (h' : size h.mem p = nu ∧ p = q ∨ nu < size h.mem p ∧ plus p (size h.mem p - nu) = q) :
    (take h prevp p nu).1 = plus q 1 := by
  rcases h' with ⟨hsize, rfl⟩ | ⟨hlt, hplus⟩
  · rw [take, if_pos hsize]
  · rw [take, if_neg hlt.ne']
    dsimp only
    rw [size_setSize hp (by have := get32_lt h.mem (p + 4); unfold size; omega), hplus]

/-- The walk to the last block, from `base` or from the block behind it. -/
theorem round_last {α : Type} (found : ℕ → ℕ → Option α) (ask : ℕ → Option α) {m : Mem}
    {base freep q r : ℕ} {A : List Block} {a b : Block} (hc : Chain m base (a :: A ++ [b]) r)
    (hsmall : ∀ c ∈ a :: A, c.size < nu ∧ c.addr ≠ freep) (hb : nu ≤ b.size)
    (hq : q = base ∨ q = ptr m base) (prevp : ℕ) :
    ∃ prevp' N, ∀ fuel, N ≤ fuel →
      round m freep nu found ask fuel prevp q = found prevp' b.addr := by
  have hwalk : ∀ C, Chain m q (C ++ [b]) r → (∀ c ∈ C, c.size < nu ∧ c.addr ≠ freep) →
      ∃ prevp' N, ∀ fuel, N ≤ fuel →
        round m freep nu found ask fuel prevp q = found prevp' b.addr := by
    intro C hC hsmall
    obtain ⟨prevp', h⟩ := round_chain found ask hC hsmall hb prevp
    refine ⟨prevp', 1 + C.length, fun fuel hfuel => ?_⟩
    obtain ⟨n, rfl⟩ := Nat.exists_eq_add_of_le' hfuel
    rw [← Nat.add_assoc, h]
  rcases hq with rfl | rfl
  · exact hwalk _ hc hsmall
  · exact hwalk A hc.2.2 (List.forall_mem_cons.mp hsmall).2

/-- The headers that `free` writes for a block of `nu` units behind the last one. -/
theorem link_last {p base : ℕ} {b : Block} (hp : p + HEADER ≤ 2 ^ 32)
    (hb : b.addr + HEADER ≤ 2 ^ 32) (hpb : Clear p b.addr) (hpbase : Clear p base) (hbase : base < 2 ^ 32) (hsize : size m p = nu)
    (hsize0 : size m base = 0) (hbsize : size m b.addr = b.size) (hbptr : ptr m b.addr = base)
    (hsum : b.size + nu < 2 ^ 32) :
    (plus b.addr b.size = p ∧ size (link m p b.addr) b.addr = b.size + nu ∧
        (ptr (link m p b.addr) b.addr = base ∨ ptr (link m p b.addr) b.addr = ptr m base)) ∨
      (ptr (link m p b.addr) b.addr = p ∧ size (link m p b.addr) p = nu) := by
  rw [link_eq hpb, hbptr]
  have hm₁ : size (attach m p base) p = nu ∧
      (ptr (attach m p base) p = base ∨ ptr (attach m p base) p = ptr m base) := by
    by_cases h : plus p (size m p) = base
    · obtain ⟨h₁, h₂⟩ := attach_touch hp hpbase (by omega) h
      exact ⟨by rw [h₁, hsize, hsize0, Nat.add_zero], .inr h₂⟩
    · obtain ⟨h₁, h₂⟩ := attach_apart hp hbase h
      exact ⟨h₁.trans hsize, .inl h₂⟩
  obtain ⟨hs₁, hp₁⟩ := hm₁
  have hb₁ : size (attach m p base) b.addr = b.size := (same_attach hpb).2.trans hbsize
  by_cases h : plus b.addr b.size = p
  · obtain ⟨h₁, h₂⟩ := attach_touch hb hpb.symm (by omega) (hb₁.symm ▸ h)
    rw [h₁, h₂, hb₁, hs₁]
    exact .inl ⟨h, rfl, hp₁⟩
  · have hlt : p < 2 ^ 32 := (Nat.lt_add_of_pos_right (by decide)).trans_le hp
    obtain ⟨-, h₂⟩ := attach_apart hb hlt (hb₁.symm ▸ h)
    exact .inr ⟨h₂, (same_attach hpb.symm).2.trans hs₁⟩

variable (call g) in
/-- **The block at the break.**  `free` of `nu` units at `p`, behind everything, links them in; and
the loop of `malloc` hands them out. -/
theorem firstFit_behind {p : ℕ} (hf : FreeList P h L) (hp : p + HEADER ≤ 2 ^ 32)
    (hbase : P.base + HEADER ≤ p) (hL : ∀ b ∈ L, b.stop ≤ p) (hn : 0 < nu) (hnu : nu < 2 ^ 31)
    (hbig : ∀ b ∈ L, b.size < nu) (calls : List Sbrk) (s : Space) :
    ∃ (h₁ : Heap) (r : ℕ × Heap),
      Returns (free · ⟨setSize h.mem p nu, h.freep, calls⟩ (p + HEADER)) h₁ ∧ h₁.freep ≠ 0 ∧
      Returns (fun fuel => Space.firstFit call g nu fuel h₁ s h₁.freep (ptr h₁.mem h₁.freep))
        (.ok (r.1, r.2, s)) ∧ r.1 = plus p 1 := by
  have hclear : ∀ c ∈ P.first :: L, Clear p c.addr := by
    intro c hc
    rcases List.mem_cons.mp hc with rfl | hc
    · exact .inr hbase
    · exact .inr ((header_le (hf.sized c hc)).trans (hL c hc))
  -- the header at `p` is none of the list's
  set h₀ : Heap := ⟨setSize h.mem p nu, h.freep, calls⟩ with hh₀
  have hf₀ : FreeList P h₀ L :=
    ⟨hf.chain.congr fun b hb => same_setSize (hclear b hb), hf.apart, hf.above, hf.sized, hf.fits,
      hf.freep⟩
  obtain ⟨A, b, B, hN, hbp, hB, N, hsearch⟩ := hf₀.search_returns (base_lt_of_le hbase)
    fun c hc heq => by
      have := hclear c (List.mem_cons_of_mem _ hc)
      unfold Clear HEADER at this
      omega
  obtain rfl : B = [] := by
    refine List.eq_nil_iff_forall_not_mem.mpr fun c hc => ?_
    have hcN : c ∈ P.first :: L := hN ▸ List.mem_append_right _ (List.mem_cons_of_mem _ hc)
    rcases List.mem_cons.mp hcN with rfl | hcL
    · exact absurd (hB _ hc) (base_lt_of_le hbase).not_gt
    · exact absurd (hB _ hc) (c.addr_le_stop.trans (hL c hcL)).not_gt
  have hb : b ∈ P.first :: L := hN ▸ List.mem_append_right _ (List.mem_singleton_self b)
  have hbhi := (hf₀.header_lt hb).le
  have hchain : Chain h₀.mem P.base (A ++ [b]) P.base := hN ▸ hf₀.chain
  obtain ⟨_, hcA, rfl, hbsize, hbptr⟩ := chain_append.mp hchain
  have hsmall : ∀ c ∈ P.first :: L, c.size < nu := List.forall_mem_cons.mpr ⟨hn, hbig⟩
  set m := link h₀.mem p b.addr with hm
  -- `base`, and the blocks between
  have hsame : ∀ q, Clear p q → Clear b.addr q → Same h₀.mem m q := fun q hpq hbq => by
    rw [hm, link_eq (hclear b hb)]
    exact (same_attach hpq).trans (same_attach hbq)
  have hret : Returns (free · h₀ (p + HEADER)) ⟨m, b.addr, calls⟩ := by
    refine ⟨N, fun fuel hfuel => ?_⟩
    simp only [free, Nat.add_sub_cancel, hsearch fuel hfuel]
    rfl
  have hfreep : b.addr ≠ 0 := by
    rcases List.mem_cons.mp hb with rfl | hb
    · exact P.base_pos.ne'
    · exact (P.base_pos.trans (base_lt_of_le (hf.above b hb))).ne'
  have hlt : P.base < 2 ^ 32 := (Nat.le_add_right ..).trans_lt P.base_lt
  have hlink := link_last hp hbhi (hclear b hb) (hclear _ (List.mem_cons_self ..)) hlt
    (size_setSize hp (hnu.trans (by decide))) hf₀.chain.2.1 hbsize hbptr (by
      have := hsmall b hb
      omega)
  rw [← hm] at hlink
  clear_value m
  rcases hlink with ⟨htouch, hsize, hptr⟩ | ⟨hptr, hsize⟩
  · cases A with
    | nil =>
        obtain ⟨rfl, -⟩ := List.cons.inj hN
        exact absurd ((Nat.mod_eq_of_lt hlt).symm.trans htouch) (base_lt_of_le hbase).ne
    | cons a A =>
        have hA : ∀ c ∈ a :: A, c ∈ P.first :: L ∧ c.stop < b.addr := by
          intro c hc
          have hapart : Extent.Apart (a :: A ++ [b]) := hN ▸ hf.apart
          exact ⟨hN ▸ List.mem_append_left _ hc,
            (List.pairwise_append.mp hapart).2.2 c hc b (List.mem_singleton_self b)⟩
        have hclear' : ∀ c ∈ a :: A, Same h₀.mem m c.addr := by
          intro c hc
          obtain ⟨hcN, hcb⟩ := hA c hc
          exact hsame _ (hclear c hcN) (hf.clear_of_lt hcN (hf.mem_of_lt hcN hb hcb) hcb).symm
        have hbase' : ptr m P.base = ptr h₀.mem P.base := by
          obtain ⟨rfl, -⟩ := List.cons.inj hN
          exact (hclear' _ (List.mem_cons_self ..)).1
        have hptr : ptr m b.addr = P.base ∨ ptr m b.addr = ptr m P.base :=
          hptr.imp_right (·.trans hbase'.symm)
        have hpos : 0 < b.size := by
          obtain ⟨haN, hab⟩ := hA a (List.mem_cons_self ..)
          exact hf.sized b (hf.mem_of_lt haN hb hab)
        have hwalk : Chain m P.base (a :: A ++ [⟨b.addr, b.size + nu⟩]) (ptr m b.addr) :=
          chain_append.mpr ⟨b.addr, hcA.congr hclear', rfl, hsize, rfl⟩
        obtain ⟨prevp, N, hN'⟩ := round_last (Space.found nu ⟨m, b.addr, calls⟩ s)
          (Space.more call g nu ⟨m, b.addr, calls⟩ s) hwalk
          (fun c hc => ⟨hsmall c (hA c hc).1, (c.addr_le_stop.trans_lt (hA c hc).2).ne⟩)
          (Nat.le_add_left ..) hptr b.addr
        refine ⟨_, take ⟨m, b.addr, calls⟩ prevp b.addr nu, hret, hfreep,
          ⟨N, fun fuel hfuel => (Space.firstFit_eq_round ..).trans (hN' fuel hfuel)⟩,
          take_fst hbhi (.inr ⟨?_, ?_⟩)⟩
        · exact (Nat.lt_add_of_pos_left hpos).trans_eq hsize.symm
        · rw [hsize, Nat.add_sub_cancel, htouch]
  · refine ⟨_, take ⟨m, b.addr, calls⟩ b.addr p nu, hret, hfreep, ⟨1, fun fuel hfuel => ?_⟩,
      take_fst hp (.inl ⟨hsize, rfl⟩)⟩
    obtain ⟨n, rfl⟩ := Nat.exists_eq_add_of_le' hfuel
    dsimp only
    rw [hptr, Space.firstFit, hsize, if_pos le_rfl]

/-- **The loop of `malloc`** for a request whose bytes the kernel reads as no growth: it faults, or
hands out a block, though the process has not grown. -/
theorem firstFit_wraps (hv : h.Valid P live L) (hb : P.base = g.base) (hs : s.Valid k g F)
    (hin : InSpace h s) (hlo : 2 ^ 31 ≤ nu * HEADER) (hhi : nu * HEADER ≤ 2 ^ 32) :
    ∃ a, Returns (fun fuel => Space.firstFit (sbrk k) g nu fuel h s h.freep (ptr h.mem h.freep)) a ∧
      ∀ ap h' s', a = .ok (ap, h', s') → ap ≠ 0 ∧ s'.sz < Vm.KERNBASE := by
  have hK : Vm.KERNBASE = 2 ^ 31 := rfl
  have hlt := hs.sz_lt
  have hbase := hs.base_le
  unfold HEADER at hlo hhi
  have hn : 0 < nu := by omega
  have hunits : atLeast nu = nu := if_neg (by omega)
  have hL : ∀ b ∈ L, b.stop ≤ s.sz := fun b hb =>
    hv.stop_le hin b (List.mem_append_left _ hb)
  have hbig : ∀ b ∈ L, b.size < nu := by
    intro b hb
    have : b.addr + 8 * b.size ≤ s.sz := hL b hb
    omega
  -- the kernel reads an `int` that is not positive
  obtain ⟨n, hn31, hneg, hcall⟩ : ∃ n : ℤ, -2 ^ 31 ≤ n ∧ n ≤ 0 ∧
      sbrk k s (atLeast nu * HEADER % 2 ^ 32) = sys_sbrk k s n := by
    rw [hunits, HEADER, sbrk]
    rcases hhi.eq_or_lt with heq | hlt
    · exact ⟨0, by omega, le_rfl, by rw [heq]; rfl⟩
    · rw [Nat.mod_eq_of_lt hlt, asInt_of_le hlo hlt]
      exact ⟨_, by omega, by omega, rfl⟩
  obtain ⟨s', hsz, hans⟩ := sys_sbrk_shrinks hs hn31 hneg
  have hfault : ∀ {r : ℤ}, sbrk k s (atLeast nu * HEADER % 2 ^ 32) = .ok (r, s') →
      (¬ s'.Present g.text ∨
        r ≠ -1 ∧ ¬ (s'.Present (r.toNat + 4) ∧ s'.Present (r.toNat + 7))) →
      Returns (fun fuel => Space.firstFit (sbrk k) g nu fuel h s h.freep (ptr h.mem h.freep))
        (.error .fault) := fun hr h' =>
    Space.firstFit_full hv.list hbig hn ⟨0, fun fuel _ => by
      rw [Space.more, Space.morecore_fault hr h']
      rfl⟩
  have herr : ∀ ap h' s'', (Except.error Trap.fault : Except Trap (ℕ × Heap × Space)) =
      .ok (ap, h', s'') → ap ≠ 0 ∧ s''.sz < Vm.KERNBASE := fun _ _ _ h => nomatch h
  rcases hans with hans | ⟨r, hans, htext⟩
  -- `malloc` goes on only if its text, and the header that it writes, are still there.
  · by_cases hpresent : s'.Present g.text ∧ s'.Present (s.sz + 4) ∧ s'.Present (s.sz + 7)
    · obtain ⟨htext, hpage⟩ := hpresent
      obtain ⟨h₁, r, ⟨N, hfree⟩, hfreep, ⟨M, hfit⟩, hr⟩ := firstFit_behind g (sbrk k)
        hv.list (by unfold HEADER; omega) (hb ▸ hbase) hL hn (by omega) hbig
        (⟨nu, some s.sz⟩ :: h.calls) s'
      refine ⟨.ok (r.1, r.2, s'),
        Space.firstFit_full hv.list hbig hn ⟨max N M, fun fuel hfuel => ?_⟩, ?_⟩
      · have hmore := hfree fuel ((Nat.le_max_left N M).trans hfuel)
        have hfit := hfit fuel ((Nat.le_max_right N M).trans hfuel)
        dsimp only at hmore hfit
        unfold Space.more
        rw [Space.morecore_free (hcall.trans hans) htext hpage, hunits, hmore]
        show (if h₁.freep = 0 then _ else _) = _
        rw [if_neg hfreep]
        exact hfit
      · rintro ap h' s'' heq
        cases heq
        refine ⟨?_, hsz⟩
        rw [hr, plus, HEADER]
        omega
    · refine ⟨_, hfault (hcall.trans hans) ?_, herr⟩
      by_cases htext : s'.Present g.text
      · refine .inr ⟨by omega, fun hpage => hpresent ⟨htext, ?_⟩⟩
        rwa [Int.toNat_natCast] at hpage
      · exact .inl htext
  · exact ⟨_, hfault (hcall.trans hans) (.inl htext), herr⟩

/-! ### Every request -/

/-- A process whose heap is as its calls have left it: `sbrk` answered them with memory below the
break. -/
structure Ready (k : Vm.Symbols) (g : Program) (F : Multiset Vm.Page) (h : Heap) (s : Space)
    (live : List Live) (L : List Block) : Prop where
  space : s.Valid k g F
  inside : InSpace h s
  heap : ∃ P : Process, P.base = g.base ∧ State.Valid P ⟨h, live⟩ L

variable {nbytes : ℕ}

variable (call) in
/-- The heap that the loop starts with. -/
theorem Ready.start (hr : Ready k g F h s live L) : ∃ (P : Process) (h₀ : Heap), P.base = g.base ∧
    h₀.Valid P live L ∧ InSpace h₀ s ∧ ∀ fuel nbytes, Space.malloc call g fuel h s nbytes =
      Space.firstFit call g (nunits nbytes) fuel h₀ s h₀.freep (ptr h₀.mem h₀.freep) := by
  obtain ⟨P, hb, hv | ⟨hfree, rfl, hcalls, rfl⟩⟩ := hr.heap
  · refine ⟨P, h, hb, hv, hr.inside, fun fuel nbytes => ?_⟩
    unfold Space.malloc
    rw [if_neg hv.freep_ne]
  · refine ⟨P, _, hb, valid_init P h.mem, fun c hc => absurd hc List.not_mem_nil,
      fun fuel nbytes => ?_⟩
    unfold Space.malloc
    dsimp only at hfree hcalls
    rw [if_pos hfree, hb, hcalls]

/-- A block of the heap lies below the break and has room for what was asked for. -/
theorem Heap.Valid.serves (hv : h.Valid P live L) (hin : InSpace h s) {b : Live} (hb : b ∈ live) :
    size h.mem b.block.addr = b.block.size ∧ b.ap + b.nbytes ≤ b.block.stop ∧ b.block.stop ≤ s.sz :=
  ⟨hv.headers b hb, (hv.room b hb).2,
    hv.stop_le hin _ (List.mem_append_right _ (List.mem_map_of_mem hb))⟩

/-- **A request that is read as it is** is served, and the heap stays as it should be. -/
theorem Ready.malloc (hr : Ready k g F h s live L) (hn : nbytes + 2 * HEADER ≤ 2 ^ 31) :
    ∃ ap h' s' L', Returns (Space.malloc (sbrk k) g · h s nbytes) (.ok (ap, h', s')) ∧
      Ready k g F h' s' (if ap = 0 then live else ⟨ap, nbytes⟩ :: live) L' := by
  have hlt : nbytes < 2 ^ 32 := by
    unfold HEADER at hn
    omega
  obtain ⟨hwrap, hsmall⟩ := (exact_iff hlt).mp hn
  obtain ⟨P, h₀, hb, hv, hin, heq⟩ := hr.start (sbrk k)
  simp only [heq]
  rcases firstFit_exact hv hb hr.space hin (nunits_pos nbytes) hsmall with
    ⟨-, P', h₁, L₁, r, x, L', s', hb', hret, hv₁, hc, hs', hin'⟩ |
    ⟨-, h₁, s', hret, hv₁, hs', hin'⟩
  · have hap : r.1 ≠ 0 := hc.ap ▸ Nat.succ_ne_zero _
    refine ⟨r.1, r.2, s', L', hret, ?_⟩
    rw [if_neg hap]
    refine ⟨hs', ?_, P', hb', .inl (hv₁.carved hwrap hc)⟩
    rw [InSpace, hc.calls]
    exact hin'
  · exact ⟨0, h₁, s', L, hret, hs', hin', P, hb, .inl hv₁⟩

/-- `free` returns, and leaves the heap ready. -/
theorem Ready.free (hr : Ready k g F h s live L) {b : Live} (hb : b ∈ live) :
    ∃ h' L', Returns (free · h b.ap) h' ∧ Ready k g F h' s (live.erase b) L' := by
  obtain ⟨P, hbase, hv | ⟨-, rfl, -⟩⟩ := hr.heap
  · obtain ⟨h', L', hret, hv'⟩ := hv.freed hb
    have hcalls : h'.calls = h.calls := by
      obtain ⟨N, hN⟩ := hret
      have hN := hN N le_rfl
      unfold Malloc.free at hN
      obtain ⟨p, -, hp⟩ := Option.bind_eq_some_iff.mp hN
      exact (Option.some.inj hp) ▸ rfl
    refine ⟨h', L', hret, hr.space, ?_, P, hbase, .inl hv'⟩
    rw [InSpace, hcalls]
    exact hr.inside
  · cases hb

theorem Ready.store (hr : Ready k g F h s live L) {b : Live} (hb : b ∈ live) {i : ℕ}
    (hi : i < b.nbytes) (v : UInt8) :
    Ready k g F { h with mem := h.mem.put8 (b.ap + i) v } s live L := by
  obtain ⟨P, hbase, hv | ⟨-, rfl, -⟩⟩ := hr.heap
  · exact ⟨hr.space, hr.inside, P, hbase, .inl (hv.stored hb hi v)⟩
  · cases hb

/-- A process, and what it holds of its heap. -/
structure Running where
  heap : Heap
  space : Space
  live : List Live

/-- The process asks for sizes that are read as they are, frees what it holds, and writes the bytes
that it asked for. -/
inductive Running.Step (k : Vm.Symbols) (g : Program) : Running → Action → Running → Prop
  | malloc {h h' : Heap} {s s' : Space} {live : List Live} {nbytes ap : ℕ}
      (hn : nbytes + 2 * HEADER ≤ 2 ^ 31)
      (hret : Returns (Space.malloc (sbrk k) g · h s nbytes) (.ok (ap, h', s'))) :
      Step k g ⟨h, s, live⟩ (.malloc nbytes) ⟨h', s', if ap = 0 then live else ⟨ap, nbytes⟩ :: live⟩
  | free {h h' : Heap} {s : Space} {live : List Live} {b : Live} (hb : b ∈ live)
      (hret : Returns (free · h b.ap) h') :
      Step k g ⟨h, s, live⟩ (.free b.ap) ⟨h', s, live.erase b⟩
  | store {h : Heap} {s : Space} {live : List Live} {b : Live} {i : ℕ} (v : UInt8) (hb : b ∈ live)
      (hi : i < b.nbytes) : Step k g ⟨h, s, live⟩ (.store (b.ap + i) v)
        ⟨{ h with mem := h.mem.put8 (b.ap + i) v }, s, live⟩

/-- The program is in a state that its calls can start from. -/
def Running.Ready (k : Vm.Symbols) (g : Program) (F : Multiset Vm.Page) (r : Running) : Prop :=
  ∃ L, Malloc.Ready k g F r.heap r.space r.live L

/-- Every step leaves the heap ready. -/
theorem Running.ready_step {r t : Running} {a : Action} (h : Step k g r a t)
    (hr : r.Ready k g F) : t.Ready k g F := by
  obtain ⟨L, hr⟩ := hr
  cases h with
  | malloc hn hret =>
      obtain ⟨ap, h', s', L', hret', hr'⟩ := hr.malloc hn
      cases hret'.unique hret
      exact ⟨L', hr'⟩
  | free hb hret =>
      obtain ⟨h', L', hret', hr'⟩ := hr.free hb
      cases hret'.unique hret
      exact ⟨L', hr'⟩
  | store v hb hi => exact ⟨L, hr.store hb hi v⟩

/-- In every run of such requests the process is ready for the next. -/
theorem Running.ready_run {r t : Running} {as : List Action} (h : Lib.Run (Step k g) r as t)
    (hr : r.Ready k g F) : t.Ready k g F :=
  h.inv (I := fun r => r.Ready k g F) (fun _ _ _ => ready_step) hr

/-- A request in between is served for no heap. -/
theorem Ready.wraps (hr : Ready k g F h s live L) (hlo : 2 ^ 31 < nbytes + 2 * HEADER)
    (hhi : nbytes + HEADER - 1 < 2 ^ 32) : ¬ Serves k g h s nbytes := by
  have hK : Vm.KERNBASE = 2 ^ 31 := rfl
  have hbig : 2 ^ 31 ≤ nunits nbytes * HEADER ∧ nunits nbytes * HEADER ≤ 2 ^ 32 := by
    unfold nunits
    unfold HEADER at *
    omega
  obtain ⟨P, h₀, hb, hv, hin, heq⟩ := hr.start (sbrk k)
  rintro ⟨ap, h', s', hret, hap⟩
  simp only [heq] at hret
  obtain ⟨a, ha, hbad⟩ := firstFit_wraps hv hb hr.space hin hbig.1 hbig.2
  obtain ⟨hne, hsz⟩ := hbad ap h' s' (ha.unique hret)
  obtain ⟨-, -, hstop⟩ := hap.resolve_left hne
  unfold Live.block Extent.stop at hstop
  unfold HEADER at hbig hstop
  dsimp only at hstop
  omega

/-- A request whose bytes wrap around gets a block of one unit. -/
theorem Ready.one_unit (hr : Ready k g F h s live L) (hlo : 2 ^ 32 ≤ nbytes + HEADER - 1)
    (hn : nbytes < 2 ^ 32) : Serves k g h s nbytes ↔
      L = [] ∧ ∃ s', sys_sbrk k s (4096 * HEADER : ℕ) = .ok (-1, s') := by
  have hunits : nunits nbytes = 1 := by
    unfold nunits
    unfold HEADER at *
    omega
  obtain ⟨P, h₀, hb, hv, hin, heq⟩ := hr.start (sbrk k)
  have hempty : (∀ c ∈ L, c.size < 1) ↔ L = [] := by
    refine ⟨fun h => List.eq_nil_iff_forall_not_mem.mpr fun c hc => ?_, by rintro rfl; simp⟩
    exact absurd (h c hc) (not_lt.mpr (hv.list.sized c hc))
  unfold Serves
  simp only [heq, hunits]
  have hrefused : Refused k s L 1 ↔
      L = [] ∧ ∃ s', sys_sbrk k s (4096 * HEADER : ℕ) = .ok (-1, s') := and_congr_left' hempty
  rw [← hrefused]
  rcases firstFit_exact hv hb hr.space hin Nat.one_pos (by decide) with
    ⟨hnot, P', h₁, L₁, r, x, L', s', hb', hret, hv₁, hc, hs', hin'⟩ | ⟨hyes, h₁, s', hret, -⟩
  · refine iff_of_false ?_ hnot
    rintro ⟨ap, h', s'', hret', hap⟩
    cases hret.unique hret'
    have hx := hc.ap
    obtain ⟨-, hroom, -⟩ := hap.resolve_left (hx ▸ Nat.succ_ne_zero _)
    unfold Live.block Extent.stop at hroom
    rw [hunits] at hroom
    unfold HEADER at *
    dsimp only at hroom
    omega
  · exact iff_of_true ⟨0, h₁, s', hret, .inl rfl⟩ hyes

/-- **The requests that are served**: those that are read as they are, and those that wrap around
where there is no block and no memory. -/
theorem serves_iff (hr : Ready k g F h s live L) (hn : nbytes < 2 ^ 32) :
    Serves k g h s nbytes ↔ nbytes + 2 * HEADER ≤ 2 ^ 31 ∨
      2 ^ 32 ≤ nbytes + HEADER - 1 ∧ L = [] ∧
        ∃ s', sys_sbrk k s (4096 * HEADER : ℕ) = .ok (-1, s') := by
  rcases le_or_gt (2 ^ 32) (nbytes + HEADER - 1) with hlo | hhi
  · have hbig : ¬ nbytes + 2 * HEADER ≤ 2 ^ 31 := by
      unfold HEADER at *
      omega
    rw [hr.one_unit hlo hn, or_iff_right hbig, and_iff_right hlo]
  · rcases le_or_gt (nbytes + 2 * HEADER) (2 ^ 31) with hsmall | hbig
    · refine iff_of_true ?_ (.inl hsmall)
      obtain ⟨ap, h', s', L', hret, hr'⟩ := hr.malloc hsmall
      refine ⟨ap, h', s', hret, or_iff_not_imp_left.mpr fun hap => ?_⟩
      rw [if_neg hap] at hr'
      obtain ⟨P, hb, hv | ⟨-, hnil, -⟩⟩ := hr'.heap
      · exact hv.serves hr'.inside (List.mem_cons_self ..)
      · cases hnil
    · refine iff_of_false (hr.wraps hbig hhi) ?_
      rintro (hsmall | ⟨hlo, -⟩)
      · exact absurd hsmall hbig.not_ge
      · exact absurd hlo hhi.not_ge

/-- A process of one page before its first `malloc`. -/
def smallProgram : Program := ⟨16, 0⟩

/-- A process of 100 bytes. -/
def smallStart : Space := ⟨Uvm.smallSpace, 100, Uvm.smallMachine⟩

/-- `base` is at 16, and `sbrk` has not been called. -/
def smallProcess : Process where
  base := 16
  sbrk _ _ := none
  base_pos := by decide
  base_lt := by decide
  fresh h := nomatch h

theorem smallStart_ready : Ready Uvm.smallLinked.toSymbols smallProgram 0 ⟨fun _ => 0, 0, []⟩
    smallStart [] [] where
  space := ⟨by decide, by decide, by decide, Uvm.smallSpace_covers, Uvm.smallSpace_owns⟩
  inside := fun _ hc => nomatch hc
  heap := ⟨smallProcess, rfl, .inr ⟨rfl, rfl, rfl, rfl⟩⟩

theorem serves_iff_small :
    Serves Uvm.smallLinked.toSymbols smallProgram ⟨fun _ => 0, 0, []⟩ smallStart 10 ↔
      10 + 2 * HEADER ≤ 2 ^ 31 ∨ 2 ^ 32 ≤ 10 + HEADER - 1 ∧ ([] : List Block) = [] ∧
        ∃ s', sys_sbrk Uvm.smallLinked.toSymbols smallStart (4096 * HEADER : ℕ) = .ok (-1, s') :=
  serves_iff smallStart_ready (by decide)

/-- `malloc(0x80000000)` hands out a block beyond the break, or faults. -/
theorem not_serves :
    ¬ Serves Uvm.smallLinked.toSymbols smallProgram ⟨fun _ => 0, 0, []⟩ smallStart (2 ^ 31) :=
  smallStart_ready.wraps (by decide) (by decide)

end Xv6.Malloc

import Xv6.Uvm.Call

/-!
# Address spaces — the stack that `exec` builds

The stack pointer is moved down by a string at a time, with no look at how far it may go.  What
stops it is the page below that of the stack, which is not the user's: a `copyout` that succeeds
has stayed above it.  Where a string reaches below `0`, the pointer wraps to the last page of the
address space, which is mapped and not the user's either.

* `view` — the bytes of an address space; `copyout_view` is `copyout` seen from there.
* `Strings` — strings on the stack, one below another; `pushArgs_strings` is the loop of `exec`.
* `pushArgs_short` — the loop returns, if the strings together are shorter than the image.
* `ArgStack` — what a program finds at its stack pointer.
* `exec_builds_stack` — the call.
-/

namespace Xv6.Uvm

open Vm (Page PGSIZE KERNBASE PGROUNDUP MAXARG)
open Lib (wp_seq wp_mono wp_weaken wp_of_ok wp_run wp_returns)

variable {k : Vm.Symbols} {s t : Machine} {d : Pgdir} {v v' : ℕ → UInt8} {F : Multiset Page}
  {top va vb len sp sp' : ℕ} {p : ℕ → UInt8} {arg : List UInt8} {argv : List (List UInt8)}
  {us us' ps : List ℕ}

/-! ### The bytes of an address space -/

/-- The byte that the directory `d` gives for an address. -/
def view (m : Machine) (d : Pgdir) (va : ℕ) : UInt8 := m.ram (d.phys va)

/-- Different addresses that are mapped are different bytes of memory. -/
theorem phys_injective (ho : Owns k s (d.pages + F)) (ha : va < KERNBASE) (hb : vb < KERNBASE)
    (hma : (d.entry va).has PTE_P = true) (hmb : (d.entry vb).has PTE_P = true) (hne : va ≠ vb) :
    d.phys va ≠ d.phys vb := by
  have hpage : ∀ {a}, a < KERNBASE → (d.entry a).has PTE_P = true →
      (d.entry a).addr % PGSIZE = 0 := fun h hm =>
    (ho.valid_goods (Multiset.mem_add.mpr (.inl (mem_pages_of_address h hm)))).aligned
  have hoff : ∀ a : ℕ, a % PGSIZE < PGSIZE := fun a => Nat.mod_lt a (by decide)
  rw [Pgdir.phys, Pgdir.phys]
  by_cases hp : va / PGSIZE = vb / PGSIZE
  · have := Nat.div_add_mod va PGSIZE
    have := Nat.div_add_mod vb PGSIZE
    rw [entry_eq, entry_eq, hp]
    rw [hp] at *
    omega
  · have haddr : (d.entry va).addr ≠ (d.entry vb).addr := by
      rw [entry_eq] at hma hmb ⊢
      rw [entry_eq]
      exact addr_injective (Multiset.nodup_add.mp ho.nodup_goods).1 (page_number_lt ha)
        (page_number_lt hb) hma hmb hp
    have hapart := page_apart (hpage ha hma) (hpage hb hmb) haddr (hoff va)
    have := hoff vb
    omega

/-- **`copyout` below a size that the directory covers**: the bytes are there, and no other byte of
the address space has changed. -/
theorem copyout_view (hsize : top ≤ KERNBASE) (hc : Covers d top) (hs : Sealed d)
    (ho : Owns k s (d.pages + F)) (hend : va + len ≤ PGROUNDUP top)
    (h : copyout d va p len s = .ok (true, t)) :
    (∀ i < len, UserPage d (va + i)) ∧ ∀ a < PGROUNDUP top,
      view t d a = if va ≤ a ∧ a < va + len then p (a - va) else view s d a := by
  have hK : PGROUNDUP top ≤ KERNBASE := PGROUNDUP_le hsize
  have hlt : KERNBASE < 2 ^ 32 := by decide
  have hva : va < 2 ^ 32 := by omega
  have hnth : ∀ i < len, nth va i = va + i := fun i hi => Nat.mod_eq_of_lt (by omega)
  obtain ⟨-, huser⟩ := wp_of_ok (copyout_total hsize hc hs ho hva hend p) h
  have hram : t = { s with ram := stored d va p len s.ram } := by
    rw [copyout_all hva (huser rfl)] at h
    cases h
    rfl
  have hinj : ∀ {a b}, a < PGROUNDUP top → b < PGROUNDUP top → a ≠ b → d.phys a ≠ d.phys b :=
    fun ha hb hne => phys_injective ho (hc.mapped hsize ha).1 (hc.mapped hsize hb).1
      (hc.mapped hsize ha).2 (hc.mapped hsize hb).2 hne
  refine ⟨fun i hi => hnth i hi ▸ huser rfl i hi, fun a ha => ?_⟩
  subst hram
  split
  · rename_i hin
    obtain ⟨i, rfl⟩ := Nat.exists_eq_add_of_le hin.1
    have hi : i < len := by omega
    rw [Nat.add_sub_cancel_left, view, ← hnth i hi]
    refine stored_nth hi fun j hj hij => ?_
    rw [hnth i hi, hnth j hj]
    exact hinj (by omega) (by omega) (by omega)
  · rename_i hout
    refine stored_of_ne fun i hi => ?_
    rw [hnth i hi]
    exact hinj (by omega) ha (by omega)

/-! ### Bytes and words at an address -/

/-- The bytes `bs` are at `va`. -/
def At (v : ℕ → UInt8) (va : ℕ) (bs : List UInt8) : Prop := ∀ i < bs.length, v (va + i) = bs.getD i 0

/-- The word at `va`. -/
def word (v : ℕ → UInt8) (va : ℕ) : ℕ := Lib.ofLE ((List.range 4).map fun i => v (va + i))

theorem At.congr {bs : List UInt8} (h : At v va bs) (he : ∀ i < bs.length, v' (va + i) = v (va + i)) :
    At v' va bs := fun i hi => (he i hi).trans (h i hi)

theorem At.word {n : ℕ} (h : At v va (Lib.toLE 4 n)) (hn : n < 2 ^ 32) : word v va = n := by
  have hbytes : (List.range 4).map (fun i => v (va + i)) = Lib.toLE 4 n := by
    refine List.ext_getElem (by simp) fun i hi hi' => ?_
    rw [List.getElem_map, List.getElem_range, h i hi', List.getD_eq_getElem?_getD,
      List.getElem?_eq_getElem hi', Option.getD_some]
  rw [Uvm.word, hbytes, Lib.ofLE_toLE hn]

/-- A word of a list of words. -/
theorem At.nth_word {ws : List ℕ} (h : At v va (ws.flatMap (Lib.toLE 4))) {i n : ℕ}
    (hi : ws[i]? = some n) (hn : n < 2 ^ 32) : Uvm.word v (va + 4 * i) = n := by
  obtain ⟨hlt, rfl⟩ := List.getElem?_eq_some_iff.mp hi
  have hlen : (ws.flatMap (Lib.toLE 4)).length = 4 * ws.length :=
    Lib.length_flatMap_of_width fun a _ => Lib.length_toLE 4 a
  refine At.word (fun j hj => ?_) hn
  rw [Lib.length_toLE] at hj
  have hin : 4 * i + j < (ws.flatMap (Lib.toLE 4)).length := by omega
  rw [Nat.add_assoc, h _ hin, ← Lib.take_drop_flatMap_toLE 4 ws hlt, List.getD_eq_getElem?_getD,
    List.getD_eq_getElem?_getD, List.getElem?_take_of_lt hj, List.getElem?_drop]

/-! ### The strings -/

/-- The strings `argv` lie at `ps`, one below another, from `sp` down to `sp'`, and none below
`low`. -/
inductive Strings (v : ℕ → UInt8) (low : ℕ) : List (List UInt8) → List ℕ → ℕ → ℕ → Prop
  | nil (sp : ℕ) : Strings v low [] [] sp sp
  | cons {arg : List UInt8} {argv : List (List UInt8)} {p : ℕ} {ps : List ℕ} {sp sp' : ℕ}
      (hp : p + width arg = sp) (hlow : low ≤ p) (hcopy : At v p (arg ++ [0]))
      (h : Strings v low argv ps p sp') : Strings v low (arg :: argv) (p :: ps) sp sp'

namespace Strings

variable {low i j : ℕ}

theorem length_eq (h : Strings v low argv ps sp sp') : ps.length = argv.length := by
  induction h with
  | nil sp => rfl
  | cons hp hlow hcopy h ih => rw [List.length_cons, List.length_cons, ih]

/-- What the strings take. -/
theorem sum_eq (h : Strings v low argv ps sp sp') : sp' + (argv.map width).sum = sp := by
  induction h with
  | nil sp => rfl
  | cons hp hlow hcopy h ih =>
      rw [List.map_cons, List.sum_cons, ← hp, ← ih]
      omega

theorem low_le (h : Strings v low argv ps sp sp') (hsp : low ≤ sp) : low ≤ sp' := by
  induction h with
  | nil sp => exact hsp
  | cons hp hlow hcopy h ih => exact ih hlow

/-- The strings are between `sp'` and `sp`. -/
theorem congr (h : Strings v low argv ps sp sp') (he : ∀ a, sp' ≤ a → a < sp → v' a = v a) :
    Strings v' low argv ps sp sp' := by
  induction h with
  | nil sp => exact .nil sp
  | @cons arg argv p ps sp sp' hp hlow hcopy h ih =>
      have := h.sum_eq
      have := length_lt_width arg
      refine .cons hp hlow (hcopy.congr fun i hi => he _ (by omega) ?_) (ih fun a ha hlt => he a ha ?_)
      · rw [List.length_append, List.length_singleton] at hi
        omega
      · omega

theorem aligned (h : Strings v low argv ps sp sp') (hsp : sp % 4 = 0) : sp' % 4 = 0 := by
  induction h with
  | nil sp => exact hsp
  | cons hp hlow hcopy h ih =>
      refine ih ?_
      unfold width at hp
      omega

/-- A string is copied, within the bounds. -/
theorem get (h : Strings v low argv ps sp sp') (hi : i < argv.length) (hi' : i < ps.length) :
    low ≤ ps[i] ∧ sp' ≤ ps[i] ∧ ps[i] + argv[i].length + 1 ≤ sp ∧ At v ps[i] (argv[i] ++ [0]) := by
  induction h generalizing i with
  | nil sp => cases hi
  | @cons arg argv p ps sp sp' hp hlow hcopy h ih =>
      cases i with
      | zero =>
          have := h.sum_eq
          have := length_lt_width arg
          exact ⟨hlow, show sp' ≤ p by omega, show p + arg.length + 1 ≤ sp by omega, hcopy⟩
      | succ i =>
          rw [List.length_cons, Nat.succ_lt_succ_iff] at hi hi'
          obtain ⟨h₁, h₂, h₃, h₄⟩ := ih hi hi'
          exact ⟨h₁, h₂, show ps[i] + argv[i].length + 1 ≤ sp by omega, h₄⟩

/-- A later string ends below an earlier one. -/
theorem apart (h : Strings v low argv ps sp sp') (hij : i < j) (hj : j < argv.length)
    (hi' : i < ps.length) (hj' : j < ps.length) : ps[j] + argv[j].length + 1 ≤ ps[i] := by
  induction h generalizing i j with
  | nil sp => cases hj
  | @cons arg argv p ps sp sp' hp hlow hcopy h ih =>
      obtain ⟨j, rfl⟩ := Nat.exists_eq_succ_of_ne_zero (show j ≠ 0 by omega)
      rw [List.length_cons, Nat.succ_lt_succ_iff] at hj hj'
      cases i with
      | zero => exact (h.get hj hj').2.2.1
      | succ i => exact ih (by omega) hj (by simpa using hi') hj'

end Strings

/-- **What the loop of `exec` has pushed.** -/
theorem pushArgs_strings (hd : HasStack d top) (argv : List (List UInt8)) :
    ∀ (sp : ℕ) (us : List ℕ) (s : Machine), top - PGSIZE ≤ sp → sp ≤ top → sp % 4 = 0 →
      Owns k s (d.pages + F) → Lib.wp (fun _ => True) (pushArgs d argv sp us) (fun r t =>
        ∀ sp' us', r = some (sp', us') → ∃ ps, us' = us ++ ps ∧
          Strings (view t d) (top - PGSIZE) argv ps sp sp' ∧
          (∀ a < top, a < sp' ∨ sp ≤ a → view t d a = view s d a) ∧ Owns k t (d.pages + F)) s := by
  induction argv with
  | nil =>
      intro sp us s _ _ _ ho
      rintro _ _ ⟨⟩
      exact ⟨[], (List.append_nil us).symm, .nil sp, fun _ _ _ => rfl, ho⟩
  | cons arg argv ih =>
      intro sp us s hlo hhi halign ho
      rw [pushArgs]
      split
      · rintro _ _ ⟨⟩
      refine wp_seq (wp_weaken (wp_run (push_faults hd ho hlo hhi arg.length (bytes arg)))
        fun _ _ => trivial) ?_
      rintro ok t ⟨⟨hbuild, hpush⟩, hcopied⟩
      cases ok with
      | false => rintro _ _ ⟨⟩
      | true =>
          obtain ⟨hfit, hlo', hhi'⟩ := hpush rfl
          have hK : KERNBASE < 2 ^ 32 := by decide
          have hsize := hd.size
          have hround := PGROUNDUP_of_aligned hd.aligned
          obtain ⟨hp, halign'⟩ := below_add_width (by omega) halign hfit
          have hwidth := length_lt_width arg
          generalize below sp arg.length = p at hcopied hlo' hhi' hp halign' ⊢
          obtain ⟨-, hview⟩ := copyout_view hd.size hd.covers hd.sealed ho (by omega) hcopied
          rw [hround] at hview
          refine wp_mono (ih p (us ++ [p]) t hlo' hhi' halign' (hbuild.owns ho)) fun r u hr sp' us' he => ?_
          obtain ⟨ps, rfl, hstrings, hframe, ho'⟩ := hr sp' us' he
          have hsum := hstrings.sum_eq
          refine ⟨p :: ps, by simp, .cons hp hlo' (fun i hi => ?_) hstrings, fun a ha hout => ?_, ho'⟩
          · rw [List.length_append, List.length_singleton] at hi
            rw [hframe _ (by omega) (.inr (Nat.le_add_right _ _)), hview _ (by omega),
              if_pos (by omega), Nat.add_sub_cancel_left, bytes]
            simp only [List.getD_eq_getElem?_getD, List.getElem?_append]
            split
            · rfl
            · rename_i hlast
              obtain rfl : i = arg.length := by omega
              simp
          · rw [hframe a ha (by omega), hview a ha, if_neg (by omega)]

/-! ### The loop returns -/

/-- A string that is too long by less than a page: the pointer wraps to the last page. -/
theorem below_wraps (hsp : sp ≤ KERNBASE) (h : sp < arg.length + 1)
    (hle : arg.length + 1 ≤ sp + PGSIZE) :
    below sp arg.length < 2 ^ 32 ∧ below sp arg.length / PGSIZE = 2 ^ 20 - 1 := by
  have hK : KERNBASE = 2 ^ 31 := rfl
  unfold below
  simp only [PGSIZE] at *
  omega

/-- The last page, which is the kernel's, stops such a string. -/
theorem push_wraps (hd : HasStack d top) (hlast : d.Mapped (2 ^ 20 - 1))
    (ho : Owns k s (d.pages + F)) (hsp : sp ≤ top) (h : sp < arg.length + 1)
    (hle : arg.length + 1 ≤ sp + PGSIZE) :
    Total (copyout d (below sp arg.length) (bytes arg) (arg.length + 1))
      (fun r t => Builds F s d t d ∧ r = false) s := by
  obtain ⟨hlt, hpage⟩ := below_wraps (hsp.trans hd.size) h hle
  have hzero : nth (below sp arg.length) 0 = below sp arg.length := by
    rw [nth, Nat.add_zero, Nat.mod_eq_of_lt hlt]
  have hlookup : d.lookup (below sp arg.length) ≠ none := by
    rw [← lookup_page, hpage, lookup_of_mapped hlast]
    exact Option.some_ne_none _
  have hno : ¬ UserPage d (nth (below sp arg.length) 0) := fun hu => by
    rw [hzero] at hu
    have hlow := page_number_lt (hu.mapped hd.sealed hlt).1
    have : USER < 2 ^ 20 - 1 := by decide
    omega
  have htabled : Tabled d (below sp arg.length) (arg.length + 1) := fun i _ huser => by
    cases i with
    | zero => rwa [hzero]
    | succ i => exact absurd (huser 0 (Nat.succ_pos i)) hno
  refine wp_mono ((copyout_faults hd.sealed ho hlt (bytes arg)).total (not_not.mpr htabled)) ?_
  rintro r t ⟨hbuild, huser⟩
  refine ⟨hbuild, ?_⟩
  cases r with
  | false => rfl
  | true => exact absurd (huser rfl 0 (Nat.succ_pos _)) hno

/-- **The loop returns**, if the strings are together shorter than what lies below the stack. -/
theorem pushArgs_short (hd : HasStack d top) (hlast : d.Mapped (2 ^ 20 - 1))
    (ho : Owns k s (d.pages + F)) (hn : argv.length ≤ MAXARG)
    (hlen : (argv.map List.length).sum < top) : Pushes False F d top argv top [] s := by
  have htop : top % 4 = 0 := by
    have := hd.aligned
    simp only [PGSIZE] at this
    omega
  refine pushArgs_rule (I := fun argv sp n => n + argv.length ≤ MAXARG ∧ sp % 4 = 0 ∧
    (argv.map List.length).sum < sp + 4 * n) (fun arg argv sp n u hI hlo hhi hmax ho' => ?_)
    argv top [] s ⟨by simpa using hn, htop, by simpa using hlen⟩ (Nat.sub_le _ _) le_rfl
    (Nat.zero_le _) ho
  obtain ⟨hn, halign, hlen⟩ := hI
  rw [List.length_cons] at hn
  rw [List.map_cons, List.sum_cons] at hlen
  have hK : KERNBASE < 2 ^ 32 := by decide
  have hsize := hd.size
  by_cases hfit : arg.length + 1 ≤ sp
  · obtain ⟨hwidth, halign'⟩ := below_add_width (by omega) halign hfit
    have hle : width arg ≤ arg.length + 4 := Nat.div_mul_le_self _ 4
    refine wp_mono ((push_faults hd ho' hlo hhi arg.length (bytes arg)).total
      (not_not.mpr hfit)).faults ?_
    rintro r t ⟨hbuild, hpush⟩
    exact ⟨hbuild, fun hr => ⟨⟨by omega, halign', by omega⟩, (hpush hr).2⟩⟩
  · have hroom : 4 * MAXARG ≤ PGSIZE := by decide
    refine wp_mono (push_wraps hd hlast ho' hhi (not_le.mp hfit) (by omega)).faults ?_
    rintro r t ⟨hbuild, hr⟩
    refine ⟨hbuild, fun h => ?_⟩
    rw [hr] at h
    cases h

/-! ### The stack -/

/-- The `i`th pointer of the array that the word at `esp + 8` points to. -/
def ptr (v : ℕ → UInt8) (esp i : ℕ) : ℕ := word v (word v (esp + 8) + 4 * i)

/-- **What a program with the bytes `v` finds at its stack pointer**: the return address, `argc` and
the array of pointers to the strings, all in the last page below `sz`.  The strings lie one below
another, and the array below all of them. -/
structure ArgStack (v : ℕ → UInt8) (sz esp : ℕ) (argv : List (List UInt8)) : Prop where
  aligned : esp % 4 = 0
  low : sz - PGSIZE ≤ esp
  ret : word v esp = 0xffffffff
  argc : word v (esp + 4) = argv.length
  string : ∀ i (h : i < argv.length), At v (ptr v esp i) (argv[i] ++ [0])
  null : ptr v esp argv.length = 0
  stringIn : ∀ i (h : i < argv.length),
    sz - PGSIZE ≤ ptr v esp i ∧ ptr v esp i + argv[i].length + 1 ≤ sz
  arrayIn : esp + 12 ≤ word v (esp + 8) ∧ word v (esp + 8) + 4 * (argv.length + 1) ≤ sz
  stringApart : ∀ i j (_ : i < j) (hj : j < argv.length),
    ptr v esp j + argv[j].length + 1 ≤ ptr v esp i
  arrayApart : ∀ i < argv.length, word v (esp + 8) + 4 * (argv.length + 1) ≤ ptr v esp i

/-- The words at the stack pointer, below the strings. -/
theorem Strings.argStack {low esp sz : ℕ} (h : Strings v low argv us sz sp) (hsz : sz < 2 ^ 32)
    (hlow : low = sz - PGSIZE) (halign : sz % 4 = 0) (hesp : low ≤ esp)
    (hsp : esp + 4 * (argv.length + 4) = sp)
    (hw : At v esp ((ustackWords sp us).flatMap (Lib.toLE 4))) : ArgStack v sz esp argv := by
  have hlen := h.length_eq
  have hsum := h.sum_eq
  have hsp' := h.aligned halign
  have hptr : ∀ {i n}, (us ++ [0])[i]? = some n → n < 2 ^ 32 → word v (esp + 4 * (i + 3)) = n :=
    fun hi hn => hw.nth_word (by simpa [ustackWords] using hi) hn
  have harray : word v (esp + 8) = esp + 12 := by
    have hargv : (ustackWords sp us)[2]? =
        some ((sp + 2 ^ 32 - (us.length + 1) * 4) % 2 ^ 32) := rfl
    have hval : (sp + 2 ^ 32 - (us.length + 1) * 4) % 2 ^ 32 = esp + 12 := by omega
    rw [hval] at hargv
    exact hw.nth_word hargv (by omega)
  -- The pointers to the strings follow `argv` on the stack.
  have hpos : ∀ i, word v (esp + 8) + 4 * i = esp + 4 * (i + 3) := fun i => by
    rw [harray]
    omega
  have hus : ∀ i (hi : i < argv.length), ptr v esp i = us[i] := fun i hi => by
    have hi' : i < us.length := hlen ▸ hi
    obtain ⟨-, -, hlt, -⟩ := h.get hi hi'
    rw [ptr, hpos]
    refine hptr ?_ (by omega)
    rw [List.getElem?_append_left hi', List.getElem?_eq_getElem hi']
  constructor
  case aligned => omega
  case low => omega
  case ret =>
    have hret : (ustackWords sp us)[0]? = some 0xffffffff := rfl
    have hword := hw.nth_word hret (by decide)
    rwa [Nat.mul_zero, Nat.add_zero] at hword
  case argc =>
    rw [← hlen]
    exact hw.nth_word (i := 1) rfl (by omega)
  case string =>
    intro i hi
    rw [hus i hi]
    exact (h.get hi _).2.2.2
  case null =>
    rw [ptr, hpos]
    refine hptr ?_ (by decide)
    rw [List.getElem?_append_right hlen.le, hlen, Nat.sub_self]
    rfl
  case stringIn =>
    intro i hi
    have := h.get hi (hlen ▸ hi)
    rw [hus i hi]
    omega
  case arrayIn => omega
  case stringApart =>
    intro i j hij hj
    rw [hus i (hij.trans hj), hus j hj]
    exact h.apart hij hj _ _
  case arrayApart =>
    intro i hi
    have := h.get hi (hlen ▸ hi)
    rw [hus i hi]
    omega

/-! ### The call -/

/-- **What `exec` of the file `f` in the memory `s` has prepared**: below the top of the image a page
with the stack, below that a page that is not the user's, and below that the program as loaded. -/
structure Prepared (k : Vm.Symbols) (f : List UInt8) (s : Machine) (argv : List (List UInt8))
    (p : Process) (m : Machine) : Prop where
  size : p.sz = stackTop f
  stack : ArgStack (view m p.pgdir) p.sz p.esp argv
  page : ∀ va, p.sz - PGSIZE ≤ va → va < p.sz → UserPage p.pgdir va
  guard : ∀ va, p.sz - 2 * PGSIZE ≤ va → va < p.sz - PGSIZE → ¬ UserPage p.pgdir va
  program : ∃ d sz m₀, Loaded k f s d sz m₀ ∧ p.sz = PGROUNDUP sz + 2 * PGSIZE ∧
    ∀ va < PGROUNDUP sz, p.pgdir.entry va = d.entry va ∧ view m p.pgdir va = view m₀ d va

/-- Addresses of one page below a page boundary. -/
theorem same_page {n : ℕ} (halign : n % PGSIZE = 0) (ha : n ≤ va) (ha' : va < n + PGSIZE) :
    va / PGSIZE = n / PGSIZE := by
  simp only [PGSIZE] at *
  omega

/-- A call that succeeds has had room for the arguments, and has put them there. -/
theorem Started.prepared {G : Multiset Page} {m v w x s₀ : Machine} {sz : ℕ} {f : List UInt8}
    {u : Kernel} (h : Started k G m d sz argv v w x sp us u) (hload : Loaded k f s₀ d sz m)
    (htop : PGROUNDUP sz + 2 * PGSIZE = stackTop f) (hn : argv.length ≤ MAXARG) :
    Prepared k f s₀ argv u.proc u.mem ∧ stackBytes argv ≤ PGSIZE := by
  have hsize := h.size
  have hd := h.stack
  have hkept := h.kept
  have hprogram := h.program
  have hentries := h.entries
  have hesp := h.esp
  have hcopied := h.copied
  obtain ⟨us, hus, hstrings, hframe, how⟩ := wp_of_ok (pushArgs_strings hd argv _ [] v
    (Nat.sub_le _ _) le_rfl (by have := hd.aligned; simp only [PGSIZE] at this; omega) h.owns)
    h.pushed sp us rfl
  rw [List.nil_append] at hus
  subst hus
  rcases u with ⟨mem, ⟨d', top, entry, esp, name⟩, outstanding, ref, locked⟩
  dsimp only at *
  have hround := PGROUNDUP_of_aligned hd.aligned
  have htopK := hd.size
  have hroom := hd.room
  have hK : KERNBASE < 2 ^ 32 := by decide
  have halign : top % 4 = 0 := by
    have := hd.aligned
    simp only [PGSIZE] at this
    omega
  have hlen := hstrings.length_eq
  have hsum := hstrings.sum_eq
  have hlow := hstrings.low_le (Nat.sub_le _ _)
  have hwords : (ustackWords sp us).length = argv.length + 4 := by simp [ustackWords, hlen]
  have hmax : 4 * (MAXARG + 4) ≤ PGSIZE := by decide
  rw [hwords] at hesp hcopied
  have hsp : esp + 4 * (argv.length + 4) = sp := by omega
  obtain ⟨huser, hview⟩ := copyout_view hd.size hd.covers hd.sealed how (by omega) hcopied
  rw [hround] at hview
  have hin : top - PGSIZE ≤ esp :=
    copy_in_stack hd.guard hd.room hd.aligned hlow (by omega) (by omega) huser
  -- What was on the stack after the copy is there when the program starts.
  have hfinal : ∀ a < top, view mem d' a = view x d' a := fun a ha => by
    obtain ⟨hlt, hm⟩ := hd.covers.mapped hd.size (hround.symm ▸ ha)
    exact hkept _ (mem_pages_of_address hlt hm) _ (Nat.mod_lt _ (by decide))
  have hmod : (top - PGSIZE) % PGSIZE = 0 ∧ (top - 2 * PGSIZE) % PGSIZE = 0 := by
    have := hd.aligned
    simp only [PGSIZE] at *
    omega
  constructor
  · constructor
    case size => exact hsize.trans htop
    case stack =>
      show ArgStack (view mem d') top esp argv
      refine Strings.argStack (hstrings.congr fun a hlo hhi => ?_) (by omega) rfl halign hin hsp
        fun i hi => ?_
      · rw [hfinal a hhi, hview a hhi, if_neg (by omega)]
      · have hbytes : ((ustackWords sp us).flatMap (Lib.toLE 4)).length = 4 * (argv.length + 4) := by
          rw [Lib.length_flatMap_of_width fun a _ => Lib.length_toLE 4 a, hwords]
        rw [hfinal _ (by omega), hview _ (by omega), if_pos (by omega), Nat.add_sub_cancel_left,
          bytes]
    case page =>
      intro va hlo hhi
      dsimp only at hlo hhi
      have hpage := huser 0 (by omega)
      rw [Nat.add_zero] at hpage
      refine (userPage_congr ?_).mp hpage
      rw [same_page hmod.1 hin (by omega), same_page hmod.1 hlo (by omega)]
    case guard =>
      intro va hlo hhi hpage
      dsimp only at hlo hhi
      refine hd.guard ((userPage_congr ?_).mp hpage)
      rw [same_page hmod.2 hlo (by omega)]
    case program =>
      refine ⟨d, sz, m, hload, hsize, fun va hva => ⟨hentries va hva, ?_⟩⟩
      rw [hfinal va (by omega), hview va (by omega), if_neg (by omega),
        hframe va (by omega) (.inl (by omega)), view, Pgdir.phys, hentries va hva]
      exact hprogram va hva
  · unfold stackBytes
    omega

/-- **`exec` builds the stack of the arguments in its page.**  Of arguments that are together shorter
than the image, it prepares an address space or returns `-1`; and it returns `-1` if they do not fit
in the page. -/
theorem exec_builds_stack {k : Linked} {s : Kernel} (found : Bool) (f path : List UInt8)
    {argv : List (List UInt8)} (ho : Owns k.toSymbols s.mem (s.proc.pgdir.pages + F))
    (hl : s.locked = false) (hn : argv.length ≤ MAXARG - 1)
    (hlen : (argv.map List.length).sum < stackTop f) :
    ∃ r t, exec k.toSymbols found f path argv s = .ok (r, t) ∧ (r = 0 ∨ r = -1) ∧
      (r = 0 → Prepared k.toSymbols f s.mem argv t.proc t.mem) ∧
      (PGSIZE < stackBytes argv → r = -1) := by
  have hn' : argv.length ≤ MAXARG := hn.trans (Nat.sub_le _ _)
  have hends : Ends False (exec k.toSymbols found f path argv)
      (Execs k.toSymbols F found f argv s) s :=
    exec_starts found f ho hl fun d u hd hlast ho' => pushArgs_short hd hlast ho' hn' hlen
  obtain ⟨r, t, hr, hout, hrun, -⟩ := wp_returns hends fun _ he => he.2
  have hprepared : r = 0 → Prepared k.toSymbols f s.mem argv t.proc t.mem ∧
      stackBytes argv ≤ PGSIZE := fun h0 => by
    obtain ⟨d, sz, m, v, w, x, sp, us, hload, htop, hstarted⟩ := hrun h0
    exact hstarted.prepared hload htop hn'
  have hres : r = 0 ∨ r = -1 := hout.imp And.left And.left
  refine ⟨r, t, hr, hres, fun h0 => (hprepared h0).1, fun hbig => ?_⟩
  rcases hres with h0 | h1
  · exact absurd (hprepared h0).2 (not_le.mpr hbig)
  · exact h1

/-- A program finds its argument; and one that is longer than a page is refused. -/
theorem exec_builds_stack_small :
    (∃ t, exec smallLinked.toSymbols true spinFile [] [[0x78]] roomyKernel = .ok (0, t) ∧
      Prepared smallLinked.toSymbols spinFile roomyMachine [[0x78]] t.proc t.mem) ∧
    ∃ t, exec smallLinked.toSymbols true spinFile [] [List.replicate 5000 0x78] roomyKernel =
      .ok (-1, t) := by
  have ho : Owns smallLinked.toSymbols roomyKernel.mem (roomyKernel.proc.pgdir.pages + 0) :=
    roomyMachine_owns
  constructor
  · have hlen : (([[0x78]] : List (List UInt8)).map List.length).sum < stackTop spinFile := by
      rw [spinFile_stackTop]
      decide
    obtain ⟨t, ht, -⟩ := exec_succeeds [] [[0x78]] ho rfl spinFile_inOrder roomyMachine_ample
      (by decide) (by decide)
    obtain ⟨r, u, hu, -, hprepared, -⟩ := exec_builds_stack true spinFile [] ho rfl (by decide) hlen
    rw [ht] at hu
    cases hu
    exact ⟨t, ht, hprepared rfl⟩
  · have hlen : (([List.replicate 5000 0x78] : List (List UInt8)).map List.length).sum <
        stackTop spinFile := by
      rw [spinFile_stackTop, List.map_singleton, List.sum_singleton, List.length_replicate]
      decide
    obtain ⟨r, u, hu, -, -, hbig⟩ := exec_builds_stack true spinFile [] ho rfl (by decide) hlen
    have hwide : PGSIZE < stackBytes [List.replicate 5000 0x78] := by
      rw [stackBytes, List.map_singleton, List.sum_singleton, width, List.length_replicate]
      decide
    rw [hbig hwide] at hu
    exact ⟨u, hu⟩

end Xv6.Uvm

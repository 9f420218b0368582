import Xv6.Uvm.Exec

/-!
# Address spaces — the image that `exec` builds

Whatever the headers say, `loadProgram` keeps the directory covered up to the size it has reached
(`Covers`), so that `loaduvm` finds the pages it writes; and the stack pointer stays in the page of
the stack, the guard page below it stopping `copyout`.

* `Builds` — what is kept while an image is built: the books, and the pages of everybody else.
* `loadProgram_total`, `pushArgs_faults` — no panic on the way, whatever the file and the arguments.
-/

namespace Xv6.Uvm

open Vm (Page PGSIZE KERNBASE PGROUNDUP PGROUNDDOWN MAXARG)
open Lib (wp_seq wp_mono wp_bind wp_weaken)
open Fs (field EHSIZE PHSIZE ELF_MAGIC ELF_PROG_LOAD)

variable {k : Vm.Symbols} {s t u : Machine} {d d' d'' : Pgdir} {va sz sz' : ℕ} {f : List UInt8}
  {F : Multiset Page}

/-! ### What is kept while an image is built -/

/-- From `s` with the directory `d` to `t` with `d'`: the books balance, of the pages `F`, which are
somebody else's, the bytes stay, and the kernel's entries are the same. -/
structure Builds (F : Multiset Page) (s : Machine) (d : Pgdir) (t : Machine) (d' : Pgdir) :
    Prop where
  books : t.kmem.free + d'.pages = s.kmem.free + d.pages
  keeps : ∀ p ∈ F, Keeps s t p
  kernel : SameKernel d d'

namespace Builds

theorem refl (s : Machine) (d : Pgdir) : Builds F s d s d := ⟨rfl, fun p _ => .refl s p, .refl d⟩

theorem trans (h : Builds F s d t d') (h' : Builds F t d' u d'') : Builds F s d u d'' :=
  ⟨h'.books.trans h.books, fun p hp => (h.keeps p hp).trans (h'.keeps p hp),
    fun j hj hj' => (h'.kernel j hj hj').trans (h.kernel j hj hj')⟩

theorem sealed (h : Builds F s d t d') (hd : Sealed d) : Sealed d' := h.kernel.sealed hd

theorem owns (h : Builds F s d t d') (ho : Owns k s (d.pages + F)) : Owns k t (d'.pages + F) :=
  ho.of_eq (by rw [← add_assoc, h.books, add_assoc])

/-- Only bytes of pages that the directory maps for the user have changed. -/
theorem of_writes (ho : Owns k s (d.pages + F)) (hkm : t.kmem = s.kmem)
    (h : ∀ a, (∀ i < USER, d.Mapped i → ∀ o < PGSIZE, (d.pte i).addr + o ≠ a) → t.ram a = s.ram a) :
    Builds F s d t d := by
  refine ⟨by rw [hkm], fun p hp o hlt => h _ fun i hi hm o' hlt' he => ?_, .refl d⟩
  have hin := mem_pages hi hm
  have hq := (ho.valid_goods (Multiset.mem_add.mpr (.inl hin))).aligned
  have hp' := (ho.valid_goods (Multiset.mem_add.mpr (.inr hp))).aligned
  have hne : p ≠ (d.pte i).addr := by
    rintro rfl
    exact Multiset.disjoint_left.mp (Multiset.nodup_add.mp ho.nodup_goods).2.2 hin hp
  exact page_apart hp' hq hne hlt ⟨he ▸ Nat.le_add_right _ _, he ▸ Nat.add_lt_add_left hlt' _⟩

end Builds

/-! ### `copyout` into mapped pages -/

/-- What `copyout` writes. -/
theorem copyoutFrom_frame (fuel : ℕ) : ∀ (va : ℕ) (p : ℕ → UInt8) (len : ℕ) (s t : Machine) (r : Bool),
    va < 2 ^ 32 → copyoutFrom d fuel va p len s = .ok (r, t) → t.kmem = s.kmem ∧
      ∀ a, (∀ i < len, UserPage d (nth va i) → d.phys (nth va i) ≠ a) → t.ram a = s.ram a := by
  induction fuel with
  | zero =>
      intro va p len s t r _ h
      cases h
      exact ⟨rfl, fun _ _ => rfl⟩
  | succ fuel ih =>
      intro va p len s t r hva h
      by_cases hpos : 0 < len
      · have hoff : va % PGSIZE < PGSIZE := Nat.mod_lt _ (by decide)
        have hzero : nth va 0 = va := by rw [nth, Nat.add_zero, Nat.mod_eq_of_lt hva]
        by_cases h₀ : UserPage d va
        · rw [copyoutFrom_page hva hpos h₀] at h
          obtain ⟨hkm, hram⟩ := ih _ _ _ _ t r (Nat.mod_lt _ (by decide)) h
          refine ⟨hkm, fun a ha => (hram a fun i hi => ?_).trans (stored_of_ne fun i hi => ?_)⟩
          · have hle : PGSIZE - va % PGSIZE ≤ len := by omega
            rw [min_eq_left hle] at hi
            rw [nth_next]
            exact ha _ (by omega)
          · have hi' : i < PGSIZE - va % PGSIZE ∧ i < len := ⟨by omega, by omega⟩
            exact ha i hi'.2 ((userPage_congr (nth_page hva hi'.1).2).mpr h₀)
        · rw [copyoutFrom, if_pos hpos] at h
          cases hl : d.lookup va with
          | none =>
              simp only [Bind.bind, StateT.bind, Except.bind, uva2ka_fault hl] at h
              cases h
          | some e =>
              simp only [Bind.bind, StateT.bind, Except.bind, uva2ka_stops h₀ hl] at h
              cases h
              exact ⟨rfl, fun _ _ => rfl⟩
      · rw [copyoutFrom, if_neg hpos] at h
        cases h
        exact ⟨rfl, fun _ _ => rfl⟩

/-- `x`, run in `s`, returns, with `Q`, or follows a null pointer; that only if `P`. -/
abbrev Faults (P : Prop) {α : Type} (x : Uvm α) (Q : α → Machine → Prop) (s : Machine) : Prop :=
  Lib.wp (fun e : Vm.Panic => e = .fault ∧ P) x Q s

theorem Total.faults {P : Prop} {α : Type} {x : Uvm α} {Q : α → Machine → Prop} (h : Total x Q s) :
    Faults P x Q s := wp_weaken h fun _ => False.elim

theorem Faults.total {P : Prop} {α : Type} {x : Uvm α} {Q : α → Machine → Prop}
    (h : Faults P x Q s) (hP : ¬ P) : Total x Q s := wp_weaken h fun _ h => hP h.2

/-- A page of the user is a user page. -/
theorem UserPage.mapped (h : UserPage d va) (hs : Sealed d) (hva : va < 2 ^ 32) :
    va < KERNBASE ∧ d.Mapped (va / PGSIZE) := by
  obtain ⟨e, hl, hP, hU⟩ := h
  have he : d.pte (va / PGSIZE) = e := by rw [← entry_eq, Pgdir.entry, hl, Option.getD_some]
  refine ⟨?_, by rwa [Pgdir.Mapped, he]⟩
  by_contra hk
  have hseal := hs (va / PGSIZE) (Nat.div_le_div_right (not_lt.mp hk)) (by
    simp only [PGSIZE]
    omega)
  rw [he, hU] at hseal
  cases hseal

/-- `copyout` writes to pages of the directory only, wherever it is told to. -/
theorem copyout_faults (hs : Sealed d) (ho : Owns k s (d.pages + F)) {va len : ℕ}
    (hva : va < 2 ^ 32) (p : ℕ → UInt8) :
    Faults (¬ Tabled d va len) (copyout d va p len) (fun r t => Builds F s d t d ∧
      (r = true → ∀ i < len, UserPage d (nth va i))) s := by
  by_cases ht : Tabled d va len
  · obtain ⟨r, t, hr, huser, -⟩ := copyout_exact (p := p) hva s ht
    obtain ⟨hkm, hram⟩ := copyoutFrom_frame len va p len s t r hva hr
    rw [Faults, Lib.wp, hr]
    refine ⟨.of_writes ho hkm fun a ha => hram a fun i hi hu => ?_, huser.mp⟩
    obtain ⟨hlt, hm⟩ := hu.mapped hs (Nat.mod_lt _ (by decide))
    rw [Pgdir.phys, entry_eq]
    exact ha _ (page_number_lt hlt) hm _ (Nat.mod_lt _ (by decide))
  · have hno := ht
    unfold Tabled at ht
    push Not at ht
    obtain ⟨i, hi, hall, hl⟩ := ht
    rw [Faults, Lib.wp, copyout_fault hva hi hall hl]
    exact ⟨rfl, hno⟩

/-- `copyout` below a size that the directory covers. -/
theorem copyout_total (hsz : sz ≤ KERNBASE) (hc : Covers d sz) (hs : Sealed d)
    (ho : Owns k s (d.pages + F)) {va len : ℕ} (hva : va < 2 ^ 32) (h : va + len ≤ PGROUNDUP sz)
    (p : ℕ → UInt8) :
    Total (copyout d va p len) (fun r t => Builds F s d t d ∧
      (r = true → ∀ i < len, UserPage d (nth va i))) s := by
  have hK : PGROUNDUP sz ≤ KERNBASE := PGROUNDUP_le hsz
  have hlt : KERNBASE < 2 ^ 32 := by decide
  refine (copyout_faults hs ho hva p).total (not_not.mpr fun i hi _ hl => ?_)
  have hnth : nth va i = va + i := Nat.mod_eq_of_lt (by omega)
  have hend : va + i < PGROUNDUP sz := by omega
  have hm := (hc.mapped hsz hend).2
  rw [hnth] at hl
  rw [Pgdir.entry, hl] at hm
  cases hm

/-! ### Loading -/

theorem readi_length {off n : ℕ} {b : List UInt8} (h : readi f off n = some b) : b.length ≤ n := by
  unfold readi at h
  split at h
  · cases h
  · cases h
    rw [List.length_take]
    exact min_le_left _ _

/-- `memmove` of at most a page to a page that the directory maps. -/
theorem memmove_builds (ho : Owns k s (d.pages + F)) {i n : ℕ} (hi : i < USER) (hm : d.Mapped i)
    (hn : n ≤ PGSIZE) (src : ℕ → UInt8) :
    Total (memmove (d.pte i).addr src n) (fun _ t => Builds F s d t d) s := by
  refine .of_writes ho rfl fun a ha => if_neg fun ⟨h₁, h₂⟩ => ?_
  obtain ⟨o, rfl⟩ := Nat.exists_eq_add_of_le h₁
  exact ha i hi hm o (by omega) rfl

/-- The loop of `loaduvm` fills pages that are there. -/
theorem loadFrom_total (hsz : sz ≤ KERNBASE) (hc : Covers d sz) {addr filesz : ℕ} (offset : ℕ)
    (h : addr + filesz ≤ sz) (n : ℕ) : ∀ (i : ℕ) (s : Machine), Owns k s (d.pages + F) →
      (n ≠ 0 → i + (n - 1) * PGSIZE < filesz) →
      Total (loadFrom d addr f offset filesz n i) (fun _ t => Builds F s d t d) s := by
  induction n with
  | zero => exact fun i s _ _ => .refl s d
  | succ n ih =>
      intro i s ho hn
      have hi : i < filesz := by
        have := hn (Nat.succ_ne_zero n)
        omega
      have hlt : KERNBASE < 2 ^ 32 := by decide
      have hround : sz ≤ PGROUNDUP sz := by
        simp only [PGROUNDUP, PGSIZE]
        omega
      have hend : addr + i < PGROUNDUP sz := by omega
      obtain ⟨hva, hP⟩ := hc.mapped hsz hend
      rw [entry_eq] at hP
      have hl : d.lookup ((addr + i) % 2 ^ 32) = some (d.pte ((addr + i) / PGSIZE)) := by
        rw [Nat.mod_eq_of_lt (by omega), ← lookup_page]
        exact lookup_of_mapped hP
      have hpage : (if filesz - i < PGSIZE then filesz - i else PGSIZE) ≤ PGSIZE := by
        split <;> omega
      rw [loadFrom, hl]
      dsimp only
      generalize (if filesz - i < PGSIZE then filesz - i else PGSIZE) = m at hpage ⊢
      split
      · exact .refl s d
      · rename_i b hb
        have hlen : b.length ≤ PGSIZE := (readi_length hb).trans hpage
        refine wp_seq (memmove_builds ho (page_number_lt hva) hP hlen _) fun _ t hbuild => ?_
        split
        · refine wp_mono (ih (i + PGSIZE) t (hbuild.owns ho) fun h0 => ?_) fun _ u h => hbuild.trans h
          have := hn (Nat.succ_ne_zero n)
          obtain ⟨m, rfl⟩ := Nat.exists_eq_succ_of_ne_zero h0
          rw [Nat.add_sub_cancel, Nat.succ_mul] at this
          rw [Nat.succ_sub_one]
          omega
        · exact hbuild

theorem loaduvm_total (hsz : sz ≤ KERNBASE) (hc : Covers d sz) (ho : Owns k s (d.pages + F))
    {addr filesz : ℕ} (offset : ℕ) (h : addr + filesz ≤ sz) (ha : addr % PGSIZE = 0) :
    Total (loaduvm d addr f offset filesz) (fun _ t => Builds F s d t d) s := by
  rw [loaduvm, if_neg (by omega)]
  refine loadFrom_total hsz hc offset h _ 0 s ho fun hn => ?_
  simp only [PGSIZE] at *
  omega

/-- A field of `n` bytes. -/
theorem field_lt (b : List UInt8) (off n : ℕ) : field b off n < 256 ^ n := by
  have hfold : ∀ l : List UInt8,
      l.foldr (fun x acc => x.toNat + 256 * acc) 0 < 256 ^ l.length := by
    intro l
    induction l with
    | nil => simp
    | cons x l ih =>
        have := x.toNat_lt
        rw [List.foldr_cons, List.length_cons, Nat.pow_succ]
        omega
  refine (hfold _).trans_le (Nat.pow_le_pow_right (by decide) ?_)
  rw [List.length_take]
  exact min_le_left _ _

/-- The size that the program headers that are left come to. -/
def loadSize (f : List UInt8) : ℕ → ℕ → ℕ → ℕ
  | 0, _, sz => sz
  | n + 1, off, sz =>
      match readi f off PHSIZE with
      | none => sz
      | some ph =>
          if field ph 0 4 ≠ ELF_PROG_LOAD then loadSize f n ((off + PHSIZE) % 2 ^ 32) sz
          else loadSize f n ((off + PHSIZE) % 2 ^ 32) (max sz ((field ph 8 4 + field ph 20 4) % 2 ^ 32))

/-- `allocuvm` on the way: also where the new size is smaller. -/
theorem allocuvm_builds (hsz : sz < KERNBASE) (hc : Covers d sz) (ho : Owns k s (d.pages + F))
    (newsz : ℕ) : Total (allocuvm k d sz newsz) (fun r t => Builds F s d t r.1 ∧
      (r.2 ≠ 0 → r.2 = max sz newsz ∧ r.2 < KERNBASE ∧ Covers r.1 r.2 ∧
        (sz ≤ newsz → Resized s t d r.1 sz newsz ∧
          ∀ j, npages sz ≤ j → j < npages newsz → (r.1.pte j).has PTE_U = true))) s := by
  by_cases hbig : KERNBASE ≤ newsz
  · rw [allocuvm, if_pos hbig]
    exact ⟨.refl s d, fun h => absurd rfl h⟩
  by_cases hlt : newsz < sz
  · rw [allocuvm, if_neg hbig, if_pos hlt]
    exact ⟨.refl s d, fun _ => ⟨(max_eq_left hlt.le).symm, hsz, hc, fun h => by omega⟩⟩
  have hbal := (allocuvm_erases k d sz newsz).balances
    (Vm.allocuvm_balances k (.inl hsz) d.erase)
  refine wp_mono ((allocuvm_resized (by omega) hc ho (by omega)).balances hbal) ?_
  rintro r t ⟨⟨hk, hkeep, _, hres⟩, g, ⟨hg, _⟩, he⟩
  refine ⟨⟨?_, hkeep, hk⟩, fun hr => ?_⟩
  · subst hg
    unfold Pgdir.pages
    exact he
  · rcases hres with ⟨hr', hg, huser⟩ | ⟨hr', _⟩
    · rw [hr']
      exact ⟨(max_eq_right (by omega)).symm, by omega, hg.covers, fun _ => ⟨hg, huser⟩⟩
    · exact absurd hr' hr

/-- **No program header leads to a panic.** -/
theorem loadProgram_total (n : ℕ) : ∀ (off : ℕ) (d : Pgdir) (sz : ℕ) (s : Machine),
    sz < KERNBASE → Covers d sz → Owns k s (d.pages + F) →
      Total (loadProgram k f n off d sz) (fun r t => Builds F s d t r.1 ∧
        ∀ sz', r.2 = some sz' → sz' = loadSize f n off sz ∧ sz' < KERNBASE ∧ Covers r.1 sz') s := by
  induction n with
  | zero =>
      intro off d sz s hsz hc _
      refine ⟨.refl s d, ?_⟩
      rintro _ ⟨⟩
      exact ⟨rfl, hsz, hc⟩
  | succ n ih =>
      intro off d sz s hsz hc ho
      have hfail : Builds F s d s d ∧ ∀ sz', (none : Option ℕ) = some sz' →
          sz' = loadSize f (n + 1) off sz ∧ sz' < KERNBASE ∧ Covers d sz' :=
        ⟨.refl s d, by rintro _ ⟨⟩⟩
      rw [loadProgram]
      cases hph : readi f off PHSIZE with
      | none => exact hfail
      | some ph =>
          dsimp only
          split
          · exact hfail
          split
          · rename_i hty
            refine wp_mono (ih _ d sz s hsz hc ho) fun r t ⟨hb, hr⟩ => ⟨hb, fun sz' he => ?_⟩
            rw [loadSize, hph]
            dsimp only
            rw [if_pos hty]
            exact hr sz' he
          rename_i hty
          split
          · exact hfail
          split
          · exact hfail
          rename_i hmemsz hwrap
          refine wp_seq (allocuvm_builds hsz hc ho _) fun r t ⟨hb, hr⟩ => ?_
          obtain ⟨d₁, sz₁⟩ := r
          have hfail₁ : ∀ t', Builds F t d₁ t' d₁ → Builds F s d t' d₁ ∧
              ∀ sz', (none : Option ℕ) = some sz' →
                sz' = loadSize f (n + 1) off sz ∧ sz' < KERNBASE ∧ Covers d₁ sz' :=
            fun t' h => ⟨hb.trans h, by rintro _ ⟨⟩⟩
          dsimp only
          split
          · exact hfail₁ t (.refl t d₁)
          rename_i hne
          obtain ⟨hmax, hlt, hc₁, -⟩ := hr hne
          split
          · exact hfail₁ t (.refl t d₁)
          rename_i halign
          have hin : field ph 8 4 + field ph 16 4 ≤ sz₁ := by
            have hle := le_max_right sz ((field ph 8 4 + field ph 20 4) % 2 ^ 32)
            have h₁ : field ph 8 4 < 2 ^ 32 := field_lt ph 8 4
            have h₂ : field ph 20 4 < 2 ^ 32 := field_lt ph 20 4
            dsimp only at hmax
            omega
          refine wp_seq (loaduvm_total hlt.le hc₁ (hb.owns ho) _ hin (by omega)) fun ok u hload => ?_
          cases ok with
          | false => exact hfail₁ u hload
          | true =>
              refine wp_mono (ih _ d₁ sz₁ u hlt hc₁ (hload.owns (hb.owns ho)))
                fun r v ⟨hb', hr'⟩ => ⟨(hb.trans hload).trans hb', fun sz' he => ?_⟩
              rw [loadSize, hph]
              dsimp only
              rw [if_neg hty, ← hmax]
              exact hr' sz' he

/-! ### The stack -/

theorem clear_U (e : Pte) :
    (Pte.mk e.addr (e.flags &&& ~~~PTE_U)).has PTE_P = e.has PTE_P ∧
      (Pte.mk e.addr (e.flags &&& ~~~PTE_U)).has PTE_U = false := by
  rw [Pte.has_P, Pte.has_P, Pte.has_U, BitVec.getLsbD_and, BitVec.getLsbD_and,
    show (~~~PTE_U).getLsbD 0 = true by decide, show (~~~PTE_U).getLsbD 2 = false by decide]
  simp

theorem PGROUNDUP_of_aligned (h : sz % PGSIZE = 0) : PGROUNDUP sz = sz := by
  simp only [PGROUNDUP, PGSIZE] at *
  omega

/-- `clearpteu` of the page below the stack. -/
theorem clearpteu_total (hsz : sz ≤ KERNBASE) (hc : Covers d sz) (h2 : 2 * PGSIZE ≤ sz)
    (halign : sz % PGSIZE = 0) (s : Machine) :
    Total (clearpteu d (sz - 2 * PGSIZE)) (fun d' t => t = s ∧ d'.pages = d.pages ∧ Covers d' sz ∧
      SameKernel d d' ∧ (∀ va < KERNBASE, va < sz - 2 * PGSIZE ∨ sz - PGSIZE ≤ va →
        d'.entry va = d.entry va) ∧
      ¬ UserPage d' (sz - 2 * PGSIZE)) s := by
  obtain ⟨i, hi⟩ : ∃ i, sz - 2 * PGSIZE = i * PGSIZE := ⟨sz / PGSIZE - 2, by
    simp only [PGSIZE] at *
    omega⟩
  have hiU : i < USER := by
    have := USER_eq
    simp only [PGSIZE, KERNBASE] at *
    omega
  have hm : d.Mapped i := (hc i hiU).mpr (lt_npages.mpr (by
    have : 0 < PGSIZE := by decide
    omega))
  have hl := lookup_of_mapped hm
  have hU : USER < 2 ^ 20 := by decide
  rw [hi, clearpteu, hl]
  refine ⟨rfl, ?_, fun j hj => ?_, fun j hj hj' => ?_, fun va hva hout => ?_, ?_⟩
  · have hset := pages_setPte (x := ⟨(d.pte i).addr, (d.pte i).flags &&& ~~~PTE_U⟩) hiU hl
    rw [Pte.erase, if_pos (show (d.pte i).has PTE_P = true from hm), Pte.erase,
      if_pos ((clear_U _).1.trans hm)] at hset
    exact add_right_cancel hset
  · rw [Pgdir.Mapped, pte_setPte hl (hiU.trans hU) (hj.trans hU)]
    split
    · rename_i hji
      subst hji
      rw [(clear_U _).1]
      exact hc j hj
    · exact hc j hj
  · rw [pte_setPte hl (hiU.trans hU) hj', if_neg (by omega)]
  · have hlt : va / PGSIZE < USER := page_number_lt hva
    have hne : va / PGSIZE ≠ i := by
      simp only [PGSIZE] at *
      omega
    rw [entry_eq, entry_eq, pte_setPte hl (hiU.trans hU) (hlt.trans hU), if_neg hne]
  · rintro ⟨e, he, -, hU'⟩
    rw [lookup_setPte_self hl, Option.some.injEq] at he
    rw [← he, (clear_U _).2] at hU'
    cases hU'

/-- The stack pointer does not wrap at any push that is made: a push below the page of the stack is
the last. -/
def NoWrap (top : ℕ) : List (List UInt8) → ℕ → Prop
  | [], _ => True
  | arg :: argv, sp => arg.length + 1 ≤ sp ∧
      (top - PGSIZE ≤ below sp arg.length → NoWrap top argv (below sp arg.length))

theorem below_eq {sp len : ℕ} (hsp : sp < 2 ^ 32) (h : len + 1 ≤ sp) :
    below sp len = (sp - (len + 1)) / 4 * 4 := by
  unfold below
  omega

/-- A string for which there is no room reaches into the kernel's addresses. -/
theorem wrapped_high {sp len : ℕ} (hsp : sp ≤ KERNBASE) (h : sp < len + 1) :
    ∃ i < len + 1, KERNBASE ≤ nth (below sp len) i := by
  have hK : KERNBASE = 2 ^ 31 := rfl
  unfold nth below
  by_cases hlen : len + 1 ≤ 2 ^ 31
  · exact ⟨0, by omega, by omega⟩
  · generalize (sp + 2 ^ 32 - (len + 1) % 2 ^ 32) % 2 ^ 32 / 4 * 4 = va
    by_cases hva : va % 2 ^ 32 < 2 ^ 31
    · exact ⟨2 ^ 31 - va % 2 ^ 32, by omega, by omega⟩
    · exact ⟨0, by omega, by omega⟩

/-- What is copied from the page of the stack on down stays in it: the page below stops it. -/
theorem copy_in_stack {top sp va len : ℕ} (hg : ¬ UserPage d (top - 2 * PGSIZE))
    (htop : 2 * PGSIZE ≤ top) (halign : top % PGSIZE = 0) (hsp : top - PGSIZE ≤ sp)
    (hlen : 0 < len) (hend : sp < va + len + 4) (h : ∀ i < len, UserPage d (va + i)) :
    top - PGSIZE ≤ va := by
  by_contra hva
  simp only [PGSIZE] at *
  by_cases hlow : va ≤ top - 2 * 4096
  · exact hg (by
      have := h (top - 2 * 4096 - va) (by omega)
      rwa [show va + (top - 2 * 4096 - va) = top - 2 * 4096 by omega] at this)
  · refine hg ((userPage_congr ?_).mp (h 0 hlen))
    simp only [PGSIZE]
    omega

/-- A directory with a stack below `top`: it covers `top`, the page of the stack is the user's, and
the page below it is not. -/
structure HasStack (d : Pgdir) (top : ℕ) : Prop where
  covers : Covers d top
  sealed : Sealed d
  guard : ¬ UserPage d (top - 2 * PGSIZE)
  page : UserPage d (top - PGSIZE)
  room : 2 * PGSIZE ≤ top
  aligned : top % PGSIZE = 0
  size : top ≤ KERNBASE

/-- The push of a string: it ends in the page of the stack, or it is the last. -/
theorem push_faults {top sp : ℕ} (hd : HasStack d top) (ho : Owns k s (d.pages + F))
    (hlo : top - PGSIZE ≤ sp) (hhi : sp ≤ top) (len : ℕ) (p : ℕ → UInt8) :
    Faults (¬ len + 1 ≤ sp) (copyout d (below sp len) p (len + 1)) (fun r t => Builds F s d t d ∧
      (r = true → len + 1 ≤ sp ∧ top - PGSIZE ≤ below sp len ∧ below sp len ≤ top)) s := by
  have hK : KERNBASE < 2 ^ 32 := by decide
  have hsize := hd.size
  have hva : below sp len < 2 ^ 32 := by
    unfold below
    omega
  by_cases hfit : len + 1 ≤ sp
  · have hb := below_eq (by omega) hfit
    have hround := PGROUNDUP_of_aligned hd.aligned
    have hend : below sp len + (len + 1) ≤ PGROUNDUP top := by omega
    refine Total.faults (wp_mono (copyout_total hd.size hd.covers hd.sealed ho hva hend p)
      fun r t ⟨hbuild, huser⟩ => ⟨hbuild, fun hr => ⟨hfit, ?_, by omega⟩⟩)
    refine copy_in_stack hd.guard hd.room hd.aligned hlo (Nat.succ_pos len) (by omega) fun i hi => ?_
    have := huser hr i hi
    rwa [nth, Nat.mod_eq_of_lt (by omega)] at this
  · refine wp_weaken (wp_mono (copyout_faults hd.sealed ho hva p)
      fun r t ⟨hbuild, huser⟩ => ⟨hbuild, fun hr => ?_⟩) fun e he => ⟨he.1, hfit⟩
    obtain ⟨i, hi, hhigh⟩ := wrapped_high (hhi.trans hsize) (not_le.mp hfit)
    exact absurd ((huser hr i hi).mapped hd.sealed (Nat.mod_lt _ (by decide))).1 (not_lt.mpr hhigh)

/-- The strings are pushed into the page of the stack, or a null pointer is followed; that only if
`P`. -/
abbrev Pushes (P : Prop) (F : Multiset Page) (d : Pgdir) (top : ℕ) (argv : List (List UInt8))
    (sp : ℕ) (ustack : List ℕ) (s : Machine) : Prop :=
  Faults P (pushArgs d argv sp ustack) (fun r t => Builds F s d t d ∧
    ∀ sp' us, r = some (sp', us) → top - PGSIZE ≤ sp' ∧ sp' ≤ top ∧ us.length ≤ MAXARG) s

/-- The rule of the loop: `I` is kept by every push that succeeds, and no push goes further wrong
than `P` admits. -/
theorem pushArgs_rule {P : Prop} {I : List (List UInt8) → ℕ → ℕ → Prop} {top : ℕ}
    (hstep : ∀ arg argv sp n s, I (arg :: argv) sp n → top - PGSIZE ≤ sp → sp ≤ top →
      n < MAXARG → Owns k s (d.pages + F) →
        Faults P (copyout d (below sp arg.length) (bytes arg) (arg.length + 1)) (fun r t =>
          Builds F s d t d ∧ (r = true → I argv (below sp arg.length) (n + 1) ∧
            top - PGSIZE ≤ below sp arg.length ∧ below sp arg.length ≤ top)) s)
    (argv : List (List UInt8)) :
    ∀ (sp : ℕ) (ustack : List ℕ) (s : Machine), I argv sp ustack.length → top - PGSIZE ≤ sp →
      sp ≤ top → ustack.length ≤ MAXARG → Owns k s (d.pages + F) →
        Pushes P F d top argv sp ustack s := by
  induction argv with
  | nil =>
      intro sp ustack s _ hlo hhi hlen _
      refine ⟨.refl s d, ?_⟩
      rintro _ _ ⟨⟩
      exact ⟨hlo, hhi, hlen⟩
  | cons arg argv ih =>
      intro sp ustack s hI hlo hhi hlen ho
      rw [Pushes, pushArgs]
      split
      · exact ⟨.refl s d, by rintro _ _ ⟨⟩⟩
      rename_i hmax
      refine wp_seq (hstep arg argv sp ustack.length s hI hlo hhi (not_le.mp hmax) ho)
        fun ok t ⟨hbuild, hpush⟩ => ?_
      cases ok with
      | false => exact ⟨hbuild, by rintro _ _ ⟨⟩⟩
      | true =>
          obtain ⟨hI', hlo', hhi'⟩ := hpush rfl
          have hnext : (ustack ++ [below sp arg.length]).length = ustack.length + 1 := by simp
          refine wp_mono (ih _ (ustack ++ [below sp arg.length]) t (hnext ▸ hI') hlo' hhi' (by omega)
            (hbuild.owns ho)) fun r u ⟨h₁, h₂⟩ => ⟨hbuild.trans h₁, h₂⟩

/-- **The arguments lead to no panic**, unless the stack pointer wraps. -/
theorem pushArgs_faults {top : ℕ} (hd : HasStack d top) (argv : List (List UInt8)) (sp : ℕ)
    (ustack : List ℕ) (s : Machine) (hlo : top - PGSIZE ≤ sp) (hhi : sp ≤ top)
    (hlen : ustack.length ≤ MAXARG) (ho : Owns k s (d.pages + F)) :
    Pushes (¬ NoWrap top argv sp) F d top argv sp ustack s := by
  refine pushArgs_rule (I := fun argv' sp' _ => ¬ NoWrap top argv' sp' → ¬ NoWrap top argv sp)
    (fun arg argv' sp' n u hI hlo' hhi' _ ho' => ?_) argv sp ustack s id hlo hhi hlen ho
  refine wp_weaken (wp_mono (push_faults hd ho' hlo' hhi' arg.length (bytes arg))
    fun r t ⟨hbuild, hpush⟩ => ⟨hbuild, fun hr => ?_⟩)
    fun e he => ⟨he.1, hI fun hw => he.2 hw.1⟩
  obtain ⟨-, hlo'', hhi''⟩ := hpush hr
  exact ⟨fun hno => hI fun hw => hno (hw.2 hlo''), hlo'', hhi''⟩

end Xv6.Uvm

import Xv6.Uvm.Image
import Xv6.Uvm.Supply

/-!
# Address spaces — files that `exec` can load

An image is built of every file that is in order, for arguments that fit in a page, where there are
pages enough.  Each of the steps that may refuse is shown not to.

* `Loadable` — every program header that is left is whole, and its segment is in the file, aligned
  and below the kernel.
* `loadProgram_supplied` — the program headers are all accepted.
* `pushArgs_fits` — the strings find room in the page of the stack.
-/

namespace Xv6.Uvm

open Vm (Page PGSIZE KERNBASE NPDENTRIES PGROUNDUP MAXARG)
open Lib (wp_seq wp_mono)
open Fs (field EHSIZE PHSIZE ELF_MAGIC ELF_PROG_LOAD)

variable {k : Vm.Symbols} {s : Machine} {d : Pgdir} {sz sp top n : ℕ} {f : List UInt8}
  {arg : List UInt8} {argv : List (List UInt8)} {us : List ℕ}

/-! ### The program headers -/

/-- The program headers that are left, `n` of them from `off` on, are all to be accepted. -/
def Loadable (f : List UInt8) : ℕ → ℕ → Prop
  | 0, _ => True
  | n + 1, off =>
      match readi f off PHSIZE with
      | none => False
      | some ph =>
          ph.length = PHSIZE ∧ Loadable f n ((off + PHSIZE) % 2 ^ 32) ∧
            (field ph 0 4 = ELF_PROG_LOAD → field ph 16 4 ≤ field ph 20 4 ∧
              0 < field ph 8 4 + field ph 20 4 ∧ field ph 8 4 + field ph 20 4 < KERNBASE ∧
              field ph 8 4 % PGSIZE = 0 ∧ field ph 4 4 + field ph 16 4 ≤ f.length)

instance decidableLoadable (f : List UInt8) : ∀ n off, Decidable (Loadable f n off)
  | 0, _ => inferInstanceAs (Decidable True)
  | n + 1, off => by
      unfold Loadable
      have := decidableLoadable f n ((off + PHSIZE) % 2 ^ 32)
      cases readi f off PHSIZE <;> dsimp only <;> infer_instance

/-- The size does not go down from segment to segment. -/
theorem le_loadSize (f : List UInt8) (n : ℕ) : ∀ off sz, sz ≤ loadSize f n off sz := by
  induction n with
  | zero => exact fun _ sz => le_refl sz
  | succ n ih =>
      intro off sz
      rw [loadSize]
      cases readi f off PHSIZE with
      | none => exact le_refl sz
      | some ph =>
          dsimp only
          split
          · exact ih _ sz
          · exact (le_max_left _ _).trans (ih _ _)

/-- A file that has the bytes gives them. -/
theorem readi_of_le {off m : ℕ} (h : off + m ≤ f.length) (hf : f.length < 2 ^ 32) :
    ∃ b, readi f off m = some b ∧ b.length = m := by
  refine ⟨(f.drop off).take m, ?_, ?_⟩
  · rw [readi, if_neg]
    rw [Nat.mod_eq_of_lt (by omega)]
    omega
  · rw [List.length_take, List.length_drop]
    omega

/-- A segment that lies in the file is loaded. -/
theorem loadFrom_supplied {addr offset filesz : ℕ} (hf : f.length < 2 ^ 32)
    (hfile : offset + filesz ≤ f.length) (m : ℕ) : ∀ (i : ℕ) (s : Machine), Supplied s d n →
      (m ≠ 0 → i + (m - 1) * PGSIZE < filesz) →
      Partly (loadFrom d addr f offset filesz m i) (fun r t => r = true ∧ Supplied t d n) s := by
  induction m with
  | zero => exact fun i s h _ => ⟨rfl, h⟩
  | succ m ih =>
      intro i s h hm
      have hi : i < filesz := by
        have := hm (Nat.succ_ne_zero m)
        omega
      rw [loadFrom]
      cases d.lookup ((addr + i) % 2 ^ 32) with
      | none => trivial
      | some pte =>
          dsimp only
          have hpage : offset + i + (if filesz - i < PGSIZE then filesz - i else PGSIZE) ≤
              f.length := by
            split <;> omega
          generalize (if filesz - i < PGSIZE then filesz - i else PGSIZE) = c at hpage ⊢
          obtain ⟨b, hread, hlen⟩ := readi_of_le hpage hf
          rw [Nat.mod_eq_of_lt (by omega), hread]
          have hmove : Partly (memmove pte.addr (fun o => b.getD o 0) b.length)
              (fun _ u => Supplied u d n) s := h.of_kmem rfl
          refine wp_seq hmove fun _ u hu => ?_
          rw [if_pos hlen]
          refine ih _ u hu fun h0 => ?_
          have := hm (Nat.succ_ne_zero m)
          obtain ⟨c, rfl⟩ := Nat.exists_eq_succ_of_ne_zero h0
          rw [Nat.add_sub_cancel, Nat.succ_mul] at this
          rw [Nat.succ_sub_one]
          omega

/-- `loaduvm` loads what lies in the file. -/
theorem loaduvm_supplied {addr offset filesz : ℕ} (hf : f.length < 2 ^ 32)
    (hfile : offset + filesz ≤ f.length) (h : Supplied s d n) :
    Partly (loaduvm d addr f offset filesz) (fun r t => r = true ∧ Supplied t d n) s := by
  rw [loaduvm]
  split
  · trivial
  · refine loadFrom_supplied hf hfile _ 0 s h fun hm => ?_
    simp only [PGSIZE] at *
    omega

/-- **Every program header is accepted.** -/
theorem loadProgram_supplied (hf : f.length < 2 ^ 32) (m : ℕ) :
    ∀ (off : ℕ) (d : Pgdir) (sz : ℕ) (s : Machine), Loadable f m off →
      Supplied s d (npages (loadSize f m off sz) - npages sz + n) →
      Partly (loadProgram k f m off d sz) (fun r t =>
        r.2 = some (loadSize f m off sz) ∧ Supplied t r.1 n) s := by
  induction m with
  | zero =>
      intro off d sz s _ h
      rw [loadSize, Nat.sub_self, Nat.zero_add] at h
      exact ⟨rfl, h⟩
  | succ m ih =>
      intro off d sz s hload h
      rw [Loadable] at hload
      rw [loadProgram]
      rw [loadSize] at h ⊢
      cases hph : readi f off PHSIZE with
      | none =>
          rw [hph] at hload
          exact hload.elim
      | some ph =>
          rw [hph] at hload h
          dsimp only at hload h ⊢
          obtain ⟨hlen, hrest, hseg⟩ := hload
          rw [if_neg (not_not.mpr hlen)]
          split
          · rename_i hty
            rw [if_pos hty] at h
            exact ih _ d sz s hrest h
          rename_i hty
          rw [if_neg hty] at h
          obtain ⟨hmem, hpos, hK, halign, hfile⟩ := hseg (not_not.mp hty)
          have hwrap : (field ph 8 4 + field ph 20 4) % 2 ^ 32 = field ph 8 4 + field ph 20 4 :=
            Nat.mod_eq_of_lt (hK.trans (by decide))
          rw [hwrap] at h ⊢
          generalize hnew : field ph 8 4 + field ph 20 4 = new at hpos hK h ⊢
          rw [if_neg (not_lt.mpr hmem), if_neg (by omega)]
          -- The pages of this segment, and those of the segments after it.
          have hpages : npages (loadSize f m ((off + PHSIZE) % 2 ^ 32) (max sz new)) - npages sz + n =
              npages (max sz new) - npages sz +
                (npages (loadSize f m ((off + PHSIZE) % 2 ^ 32) (max sz new)) -
                  npages (max sz new) + n) := by
            have h₁ : npages sz ≤ npages (max sz new) := npages_mono (le_max_left _ _)
            have h₂ := npages_mono (le_loadSize f m ((off + PHSIZE) % 2 ^ 32) (max sz new))
            omega
          rw [hpages] at h
          refine wp_seq (allocuvm_supplied hK h) ?_
          rintro ⟨d', sz'⟩ t ⟨hsz, ht⟩
          obtain rfl : sz' = max sz new := hsz
          dsimp only
          rw [if_neg (by omega), if_neg (not_not.mpr halign)]
          refine wp_seq (loaduvm_supplied hf hfile ht) ?_
          rintro ok u ⟨rfl, hu⟩
          exact ih _ d' _ u hrest hu

/-! ### The strings -/

/-- What a string takes of the stack: its bytes and the terminator, in whole words. -/
def width (arg : List UInt8) : ℕ := (arg.length + 4) / 4 * 4

/-- What the arguments take of the stack: the strings, three words, and the pointers with a null. -/
def stackBytes (argv : List (List UInt8)) : ℕ := (argv.map width).sum + 4 * (argv.length + 4)

theorem length_lt_width (arg : List UInt8) : arg.length < width arg := by
  unfold width
  omega

/-- The push of a string that fits. -/
theorem below_add_width (hsp : sp < 2 ^ 32) (halign : sp % 4 = 0) (h : arg.length + 1 ≤ sp) :
    below sp arg.length + width arg = sp ∧ below sp arg.length % 4 = 0 := by
  rw [below_eq hsp h, width]
  omega

/-- Every address in the page of the stack is the user's. -/
theorem HasStack.user {va : ℕ} (hd : HasStack d top) (hlo : top - PGSIZE ≤ va) (hhi : va < top) :
    UserPage d va := by
  refine (userPage_congr ?_).mp hd.page
  have := hd.aligned
  have := hd.room
  simp only [PGSIZE] at *
  omega

/-- A copy to the page of the stack succeeds. -/
theorem copyout_fits {va len : ℕ} (hd : HasStack d top) (hlo : top - PGSIZE ≤ va)
    (hhi : va + len ≤ top) (p : ℕ → UInt8) (s : Machine) :
    Partly (copyout d va p len) (fun r _ => r = true) s := by
  have hK : KERNBASE < 2 ^ 32 := by decide
  have hsize := hd.size
  have huser : ∀ i < len, UserPage d (nth va i) := fun i hi => by
    rw [nth, Nat.mod_eq_of_lt (by omega)]
    exact hd.user (by omega) (by omega)
  rw [Partly, Lib.wp]
  by_cases hlen : len = 0
  · subst hlen
    rfl
  · rw [copyout_all (by omega) huser]

/-- **The strings find room in the page of the stack.** -/
theorem pushArgs_fits (hd : HasStack d top) (argv : List (List UInt8)) :
    ∀ (sp : ℕ) (us : List ℕ) (s : Machine), sp ≤ top → sp % 4 = 0 →
      top - PGSIZE + (argv.map width).sum ≤ sp → us.length + argv.length ≤ MAXARG →
        Partly (pushArgs d argv sp us) (fun r _ => ∃ sp' us', r = some (sp', us') ∧
          sp' + (argv.map width).sum = sp ∧ us'.length = us.length + argv.length) s := by
  induction argv with
  | nil => exact fun sp us s _ _ _ _ => ⟨sp, us, rfl, rfl, rfl⟩
  | cons arg argv ih =>
      intro sp us s hhi halign hroom hn
      rw [List.map_cons, List.sum_cons] at hroom
      rw [List.length_cons] at hn
      have hK : KERNBASE < 2 ^ 32 := by decide
      have hsize := hd.size
      have hwidth := length_lt_width arg
      obtain ⟨hp, halign'⟩ := below_add_width (by omega) halign (show arg.length + 1 ≤ sp by omega)
      rw [pushArgs, if_neg (by omega)]
      generalize below sp arg.length = p at hp halign' ⊢
      refine wp_seq (copyout_fits hd (by omega) (by omega) _ s) ?_
      rintro ok t rfl
      refine wp_mono (ih p (us ++ [p]) t (by omega) halign' (by omega) (by simp; omega)) ?_
      rintro r u ⟨sp', us', rfl, hsum, hlen⟩
      refine ⟨sp', us', rfl, ?_, ?_⟩
      · rw [List.map_cons, List.sum_cons]
        omega
      · rw [hlen, List.length_append, List.length_singleton, List.length_cons]
        omega

/-! ### A file in order -/

/-- An ELF header, one program header, and `jmp .`, with 4998 more bytes of memory. -/
def spinFile : List UInt8 :=
  [0x7F, 0x45, 0x4C, 0x46, 1, 1, 1, 0, 0, 0, 0, 0, 0, 0, 0, 0, 2, 0, 3, 0, 1, 0, 0, 0, 0, 0, 0, 0,
    52, 0, 0, 0, 0, 0, 0, 0, 0, 0, 0, 0, 52, 0, 32, 0, 1, 0, 0, 0, 0, 0, 0, 0] ++
  [1, 0, 0, 0, 84, 0, 0, 0, 0, 0, 0, 0, 0, 0, 0, 0, 2, 0, 0, 0, 0x88, 0x13, 0, 0, 7, 0, 0, 0,
    0, 16, 0, 0] ++ [0xEB, 0xFE]

example : Loadable spinFile (field (spinFile.take EHSIZE) 44 2)
    (field (spinFile.take EHSIZE) 28 4) := by decide

end Xv6.Uvm

import Xv6.Graphics.Pointers
import Xv6.Uvm.Stack

/-!
# Uvm — the arguments of `exec`, fetched and handed on

`sys_exec` fetches the path and the array of arguments from the memory of the process, `exec` puts
the arguments on the stack of the program, and the program may give them to `sys_exec` again.

* `Passed` — what a process has to pass for `sys_exec` to call `exec`; `sys_exec_calls` says that
  it then does, with these strings, and that it returns `-1` in all other cases.
* `exec_hands_on` — a program that passes on what it was given passes what it was started with.
-/

namespace Xv6.User

open Lib
open Vm (MAXARG)

variable (p : Proc) (m : Mem)

/-! ### The calls -/

/-- The loop of `fetchstr` from `s` on, where `fuel` bytes are left up to `ep`. -/
def fetchstrFrom (pp : ℕ) : ℕ → ℕ → Option ℕ
  | 0, _ => none
  | fuel + 1, s => if m s = 0 then some (s - pp) else fetchstrFrom pp fuel (s + 1)

/-- `fetchstr`: the length, `none` where it returns `-1`.  It sets `*pp` to `addr`. -/
def fetchstr (addr : ℕ) : Option ℕ :=
  if addr ≥ p.sz then none else fetchstrFrom m addr (p.sz - addr) addr

/-- `argstr`: the pointer and the length. -/
def argstr (n : ℕ) : Option (ℕ × ℕ) := do
  let i ← argint p m n
  let addr := i.toUInt32.toNat
  let len ← fetchstr p m addr
  return (addr, len)

/-- The loop of `sys_exec` from `i` on, where `fuel` elements of `argv` are left. -/
def fetchArgs (uargv : ℕ) : ℕ → ℕ → Option (List ℕ)
  | 0, _ => none
  | fuel + 1, i => do
      let uarg ← fetchint p m ((uargv + 4 * i) % 2 ^ 32)
      if uarg = 0 then return []
      else
        let _ ← fetchstr p m uarg
        let argv ← fetchArgs uargv fuel (i + 1)
        return uarg :: argv

/-- `sys_exec`: the pointers it gives to `exec`, `none` where it returns `-1` by itself. -/
def sys_exec : Option (ℕ × List ℕ) := do
  let (path, _) ← argstr p m 0
  let uargv ← argint p m 1
  let argv ← fetchArgs p m uargv.toUInt32.toNat MAXARG 0
  return (path, argv)

/-- `exec` is called with these strings. -/
def Calls (path : CStr) (argv : List CStr) : Prop :=
  ∃ a as, sys_exec p m = some (a, as) ∧ StrAt p.sz m a path ∧ List.Forall₂ (StrAt p.sz m) as argv

/-! ### What they ask for -/

/-- The address of the `n`th argument. -/
def argAddr (n : ℕ) : ℕ := (p.esp + 4 + 4 * n) % 2 ^ 32

/-- The `i`th pointer of the array that is the second argument. -/
def argPtr (i : ℕ) : ℕ := wordAt m (wordAt m (argAddr p 1) + 4 * i)

/-- **What a process has to pass**: the arguments, the strings and an array that ends with a null
pointer all lie in the process, and there are fewer than `MAXARG` strings. -/
structure Passed (path : CStr) (argv : List CStr) : Prop where
  words : ∀ n < 2, argAddr p n + 4 ≤ p.sz
  path : StrAt p.sz m (wordAt m (argAddr p 0)) path
  short : argv.length < MAXARG
  arrayIn : wordAt m (argAddr p 1) + 4 * (argv.length + 1) ≤ p.sz
  string : ∀ i (h : i < argv.length), argPtr p m i ≠ 0 ∧ StrAt p.sz m (argPtr p m i) argv[i]
  null : argPtr p m argv.length = 0

variable {p m} {a b n len fuel i : ℕ} {s path : CStr} {as : List ℕ} {argv : List CStr}

theorem wordAt_lt (m : Mem) (a : ℕ) : wordAt m a < 2 ^ 32 := by
  have h₀ := (m a).toNat_lt
  have h₁ := (m (a + 1)).toNat_lt
  have h₂ := (m (a + 2)).toNat_lt
  have h₃ := (m (a + 3)).toNat_lt
  unfold wordAt word
  omega

theorem toNat_ofNat {n : ℕ} (h : n < 2 ^ 32) : (Int32.ofNat n).toUInt32.toNat = n := by
  show (UInt32.ofNat n).toNat = n
  rw [UInt32.toNat_ofNat', Nat.mod_eq_of_lt h]

theorem fetchint_eq_some : fetchint p m a = some n ↔ a + 4 ≤ p.sz ∧ wordAt m a = n := by
  unfold fetchint
  split
  · exact iff_of_false (fun h => by cases h) fun h => by omega
  · rw [Option.some_inj]
    exact (and_iff_right (by omega)).symm

theorem argint_eq_some {v : Int32} :
    argint p m n = some v ↔ argAddr p n + 4 ≤ p.sz ∧ Int32.ofNat (wordAt m (argAddr p n)) = v := by
  simp only [argint, argAddr, Option.map_eq_some_iff, fetchint_eq_some]
  exact ⟨fun ⟨_, ⟨h, hw⟩, hv⟩ => ⟨h, hw ▸ hv⟩, fun ⟨h, hv⟩ => ⟨_, ⟨h, rfl⟩, hv⟩⟩

/-- The loop of `fetchstr` walks as `strlen` does. -/
theorem fetchstrFrom_eq_some {pp : ℕ} (h : pp ≤ a) : fetchstrFrom m pp fuel a = some len ↔
    ∃ s, readStrFrom m fuel a = .ok s ∧ a - pp + s.length = len := by
  induction fuel generalizing a with
  | zero => exact iff_of_false (fun h => by cases h) fun ⟨s, h, _⟩ => by cases h
  | succ fuel ih =>
      rw [fetchstrFrom, readStrFrom]
      split
      · constructor
        · rintro ⟨⟩
          exact ⟨[], rfl, Nat.add_zero _⟩
        · rintro ⟨_, ⟨⟩, rfl⟩
          rfl
      · rw [ih (h.trans (Nat.le_succ a))]
        constructor
        · rintro ⟨s, hs, rfl⟩
          refine ⟨m a :: s, by rw [hs]; rfl, ?_⟩
          rw [List.length_cons]
          omega
        · rintro ⟨s, hs, rfl⟩
          obtain ⟨t, ht, hts⟩ := bind_eq_ok.mp hs
          obtain rfl := Except.ok.inj hts
          refine ⟨t, ht, ?_⟩
          rw [List.length_cons]
          omega

/-- `fetchstr` accepts the strings that end in the process. -/
theorem fetchstr_eq_some :
    fetchstr p m a = some len ↔ ∃ s, StrAt p.sz m a s ∧ s.length = len := by
  have hloop : fetchstrFrom m a (p.sz - a) a = some len ↔ _ := fetchstrFrom_eq_some (le_refl a)
  simp only [Nat.sub_self, Nat.zero_add] at hloop
  unfold fetchstr
  split
  · rename_i ha
    refine iff_of_false (fun h => by cases h) fun ⟨s, hs, _⟩ => ?_
    have := hs.fits
    omega
  · rw [hloop]
    exact exists_congr fun s => and_congr_left fun _ => readStr_eq_ok s

/-- `argstr` accepts an address at which a string of the process begins. -/
theorem argstr_eq_some : argstr p m n = some (a, len) ↔
    argAddr p n + 4 ≤ p.sz ∧ wordAt m (argAddr p n) = a ∧
      ∃ s, StrAt p.sz m a s ∧ s.length = len := by
  simp only [argstr, Option.bind_eq_bind, Option.bind_eq_some_iff, argint_eq_some, Option.pure_def,
    Option.some_inj, Prod.mk.injEq, fetchstr_eq_some]
  constructor
  · rintro ⟨_, ⟨h, rfl⟩, _, ⟨s, hs, hlen⟩, rfl, rfl⟩
    rw [toNat_ofNat (wordAt_lt m _)] at hs ⊢
    exact ⟨h, rfl, s, hs, hlen⟩
  · rintro ⟨h, rfl, s, hs, hlen⟩
    refine ⟨_, ⟨h, rfl⟩, len, ⟨s, ?_, hlen⟩, ?_, rfl⟩ <;> rw [toNat_ofNat (wordAt_lt m _)]
    exact hs

/-- The array at `u` has the strings from its `i`th element on, in `fuel` elements. -/
structure ArrayAt (sz : ℕ) (m : Mem) (u fuel i : ℕ) (argv : List CStr) : Prop where
  short : argv.length < fuel
  fits : u + 4 * (i + argv.length) + 4 ≤ sz
  string : ∀ j (h : j < argv.length), wordAt m (u + 4 * (i + j)) ≠ 0 ∧
    StrAt sz m (wordAt m (u + 4 * (i + j))) argv[j]
  null : wordAt m (u + 4 * (i + argv.length)) = 0

/-- The first of the arguments, and the others. -/
theorem arrayAt_cons {sz u : ℕ} : ArrayAt sz m u (fuel + 1) i (s :: argv) ↔
    wordAt m (u + 4 * i) ≠ 0 ∧ StrAt sz m (wordAt m (u + 4 * i)) s ∧
      ArrayAt sz m u fuel (i + 1) argv := by
  have hlen : i + (s :: argv).length = i + 1 + argv.length := by
    rw [List.length_cons]
    omega
  constructor
  · rintro ⟨hshort, hfits, hstring, hnull⟩
    rw [hlen] at hfits hnull
    refine ⟨(hstring 0 (Nat.succ_pos _)).1, (hstring 0 (Nat.succ_pos _)).2, ?_, hfits,
      fun j hj => ?_, hnull⟩
    · exact Nat.lt_of_succ_lt_succ hshort
    · have := hstring (j + 1) (Nat.succ_lt_succ hj)
      rwa [List.getElem_cons_succ, show i + (j + 1) = i + 1 + j by omega] at this
  · rintro ⟨hne, hs, hshort, hfits, hstring, hnull⟩
    refine ⟨Nat.succ_lt_succ hshort, by rwa [hlen], fun j hj => ?_, by rwa [hlen]⟩
    cases j with
    | zero => exact ⟨hne, hs⟩
    | succ j =>
        rw [List.getElem_cons_succ, show i + (j + 1) = i + 1 + j by omega]
        exact hstring j (Nat.lt_of_succ_lt_succ hj)

/-- **The loop of `sys_exec`** fetches the array. -/
theorem fetchArgs_iff {u : ℕ} (hu : u + 4 * (i + fuel) ≤ 2 ^ 32) :
    (∃ as, fetchArgs p m u fuel i = some as ∧ List.Forall₂ (StrAt p.sz m) as argv) ↔
      ArrayAt p.sz m u fuel i argv := by
  induction fuel generalizing i argv with
  | zero => exact iff_of_false (fun ⟨_, h, _⟩ => by cases h) fun h => by cases h.short
  | succ fuel ih =>
      -- no address wraps around
      rw [fetchArgs, Nat.mod_eq_of_lt (by omega)]
      by_cases hfits : u + 4 * i + 4 ≤ p.sz
      · rw [fetchint_eq_some.mpr ⟨hfits, rfl⟩]
        simp only [Option.bind_eq_bind, Option.bind_some]
        by_cases hz : wordAt m (u + 4 * i) = 0
        · rw [if_pos hz]
          cases argv with
          | nil =>
              exact iff_of_true ⟨[], rfl, .nil⟩
                ⟨Nat.succ_pos _, hfits, fun j hj => absurd hj (Nat.not_lt_zero j), hz⟩
          | cons s argv =>
              refine iff_of_false ?_ fun h => (arrayAt_cons.mp h).1 hz
              rintro ⟨_, ⟨⟩, h⟩
              cases h
        · rw [if_neg hz]
          cases argv with
          | nil =>
              refine iff_of_false ?_ fun h => hz h.null
              rintro ⟨as, h, h'⟩
              cases h'
              obtain ⟨_, -, h⟩ := Option.bind_eq_some_iff.mp h
              obtain ⟨_, -, h⟩ := Option.bind_eq_some_iff.mp h
              cases h
          | cons s argv =>
              rw [arrayAt_cons, ← ih (by omega)]
              constructor
              · rintro ⟨as, h, h'⟩
                obtain ⟨_, -, h⟩ := Option.bind_eq_some_iff.mp h
                obtain ⟨as, hrest, h⟩ := Option.bind_eq_some_iff.mp h
                cases h
                cases h' with
                | cons hs h' => exact ⟨hz, hs, as, hrest, h'⟩
              · rintro ⟨-, hs, as, hrest, h'⟩
                refine ⟨wordAt m (u + 4 * i) :: as, ?_, .cons hs h'⟩
                rw [fetchstr_eq_some.mpr ⟨s, hs, rfl⟩, hrest]
                rfl
      · have hnone : fetchint p m (u + 4 * i) = none := by
          rw [Option.eq_none_iff_forall_ne_some]
          exact fun n hn => hfits (fetchint_eq_some.mp hn).1
        rw [hnone]
        refine iff_of_false (fun ⟨_, h, _⟩ => by cases h) fun h => hfits ?_
        have := h.fits
        omega

/-- It fetches nothing but strings of the process. -/
theorem fetchArgs_strings {u : ℕ} (h : fetchArgs p m u fuel i = some as) :
    ∃ argv, List.Forall₂ (StrAt p.sz m) as argv := by
  induction fuel generalizing i as with
  | zero => cases h
  | succ fuel ih =>
      rw [fetchArgs] at h
      obtain ⟨_, -, h⟩ := Option.bind_eq_some_iff.mp h
      split at h
      · cases h
        exact ⟨[], .nil⟩
      · obtain ⟨_, hstr, h⟩ := Option.bind_eq_some_iff.mp h
        obtain ⟨_, hrest, h⟩ := Option.bind_eq_some_iff.mp h
        cases h
        obtain ⟨s, hs, -⟩ := fetchstr_eq_some.mp hstr
        obtain ⟨argv, hargv⟩ := ih hrest
        exact ⟨s :: argv, .cons hs hargv⟩

theorem fetchArgs_fits {u : ℕ} (hu : u < 2 ^ 32) (h : fetchArgs p m u (fuel + 1) 0 = some as) :
    u + 4 ≤ p.sz := by
  rw [fetchArgs, Nat.mul_zero, Nat.add_zero, Nat.mod_eq_of_lt hu] at h
  obtain ⟨_, hfetch, -⟩ := Option.bind_eq_some_iff.mp h
  exact (fetchint_eq_some.mp hfetch).1

/-- Where `sys_exec` calls `exec`, it is with strings of the process. -/
theorem exists_calls (h : sys_exec p m = some (a, as)) : ∃ path argv, Calls p m path argv := by
  obtain ⟨⟨_, len⟩, h₀, h'⟩ := Option.bind_eq_some_iff.mp h
  obtain ⟨v, h₁, h'⟩ := Option.bind_eq_some_iff.mp h'
  obtain ⟨_, hfetch, h'⟩ := Option.bind_eq_some_iff.mp h'
  cases h'
  obtain ⟨-, -, path, hpath, -⟩ := argstr_eq_some.mp h₀
  obtain ⟨argv, hargv⟩ := fetchArgs_strings hfetch
  exact ⟨path, argv, _, _, h, hpath, hargv⟩

/-- `sys_exec` calls `exec` exactly with what was passed. -/
theorem calls_iff : Calls p m path argv ↔ Passed p m path argv := by
  have hsz := p.sz_le
  have hK : KERNBASE + 4 * MAXARG ≤ 2 ^ 32 := by decide
  constructor
  · rintro ⟨a, as, h, hpath, hargs⟩
    obtain ⟨⟨_, len⟩, h₀, h⟩ := Option.bind_eq_some_iff.mp h
    obtain ⟨v, h₁, h⟩ := Option.bind_eq_some_iff.mp h
    obtain ⟨as, hfetch, h⟩ := Option.bind_eq_some_iff.mp h
    cases h
    obtain ⟨hw₀, rfl, -⟩ := argstr_eq_some.mp h₀
    obtain ⟨hw₁, rfl⟩ := argint_eq_some.mp h₁
    rw [toNat_ofNat (wordAt_lt m _)] at hfetch
    -- the first word read is in the process, so the array is far from where addresses wrap
    have hu := fetchArgs_fits (wordAt_lt m _) hfetch
    obtain ⟨hshort, hfits, hstring, hnull⟩ :=
      (fetchArgs_iff (by omega)).mp ⟨as, hfetch, hargs⟩
    simp only [Nat.zero_add] at hfits hstring hnull
    refine ⟨fun n hn => ?_, hpath, hshort, by omega, hstring, hnull⟩
    obtain rfl | rfl : n = 0 ∨ n = 1 := by omega
    · exact hw₀
    · exact hw₁
  · rintro ⟨hwords, hpath, hshort, hin, hstring, hnull⟩
    have harray : ArrayAt p.sz m (wordAt m (argAddr p 1)) MAXARG 0 argv := by
      refine ⟨hshort, by omega, ?_, ?_⟩ <;> simp only [Nat.zero_add]
      · exact hstring
      · exact hnull
    obtain ⟨as, hfetch, hargs⟩ := (fetchArgs_iff (by omega)).mpr harray
    refine ⟨_, as, ?_, hpath, hargs⟩
    rw [sys_exec, argstr_eq_some.mpr ⟨hwords 0 (by decide), rfl, path, hpath, rfl⟩,
      argint_eq_some.mpr ⟨hwords 1 (by decide), rfl⟩]
    simp only [Option.bind_eq_bind, Option.bind_some, toNat_ofNat (wordAt_lt m _), hfetch]
    rfl

/-- **What a process has to pass** for `sys_exec` to call `exec`; in all other cases it returns
`-1`. -/
theorem sys_exec_calls (p : Proc) (m : Mem) :
    (∀ path argv, Calls p m path argv ↔ Passed p m path argv) ∧
      (sys_exec p m = none ↔ ∀ path argv, ¬ Passed p m path argv) := by
  refine ⟨fun _ _ => calls_iff, fun hnone path argv hpassed => ?_, fun hno => ?_⟩
  · obtain ⟨_, _, hsome, -⟩ := calls_iff.mpr hpassed
    rw [hnone] at hsome
    cases hsome
  · rw [Option.eq_none_iff_forall_ne_some]
    rintro ⟨a, as⟩ hsome
    obtain ⟨path, argv, hcalls⟩ := exists_calls hsome
    exact hno path argv (calls_iff.mp hcalls)

end Xv6.User

namespace Xv6.Uvm

open Vm (Page PGSIZE MAXARG)
open User (Calls Passed StrAt wordAt argAddr)

variable {F : Multiset Page} {v m : ℕ → UInt8} {a esp sz : ℕ} {s path : List UInt8}
  {argv : List (List UInt8)}

/-! ### The stack of the arguments -/

theorem wordAt_eq (m : ℕ → UInt8) (a : ℕ) : wordAt m a = word m a := by
  simp [wordAt, User.word, word, Lib.ofLE, List.range_succ]

/-- A string and its NUL, within the process. -/
theorem At.strAt (h : At m a (s ++ [0])) (hs : 0 ∉ s) (hfits : a + s.length + 1 ≤ sz) :
    StrAt sz m a s := by
  rw [At, List.length_append, List.length_singleton] at h
  refine ⟨fun j hj => ?_, hs, ?_, hfits⟩
  · rw [h j (by omega), List.getD_eq_getElem?_getD, List.getElem?_append_left hj,
      List.getElem?_eq_getElem hj, Option.getD_some]
  · rw [h s.length (Nat.lt_succ_self _), List.getD_eq_getElem?_getD,
      List.getElem?_append_right le_rfl, Nat.sub_self]
    rfl

theorem word_congr {m' : ℕ → UInt8} (h : ∀ i < 4, m' (a + i) = m (a + i)) :
    word m' a = word m a :=
  congrArg Lib.ofLE (List.map_congr_left fun i hi => h i (List.mem_range.mp hi))

/-- A program that still has the array and the strings may pass them. -/
theorem ArgStack.passed {p : Proc} (h : ArgStack v p.sz esp argv)
    (hm : ∀ a, esp ≤ a → a < p.sz → m a = v a) (hwords : ∀ n < 2, argAddr p n + 4 ≤ p.sz)
    (hpath : StrAt p.sz m (wordAt m (argAddr p 0)) path)
    (hargv : wordAt m (argAddr p 1) = word v (esp + 8)) (hshort : argv.length < MAXARG)
    (hnul : ∀ s ∈ argv, 0 ∉ s) : Passed p m path argv := by
  obtain ⟨hlow, hhigh⟩ := h.arrayIn
  have hptr : ∀ i ≤ argv.length, User.argPtr p m i = ptr v esp i := fun i hi => by
    rw [User.argPtr, hargv, wordAt_eq]
    exact word_congr fun j hj => hm _ (by omega) (by omega)
  refine ⟨hwords, hpath, hshort, by rwa [hargv], fun i hi => ?_, ?_⟩
  · have hin := h.stringIn i hi
    have habove := h.arrayApart i hi
    rw [hptr i hi.le]
    refine ⟨by omega, At.strAt ((h.string i hi).congr fun j hj => hm _ (by omega) ?_)
      (hnul _ (List.getElem_mem hi)) hin.2⟩
    rw [List.length_append, List.length_singleton] at hj
    omega
  · rw [hptr _ le_rfl]
    exact h.null

/-- **Arguments are handed on.**  If `exec`, called by `sys_exec` with some arguments, starts the
program, and the program calls `sys_exec` with the array that it was given, not having changed it or
the strings, then `exec` is called with the same arguments. -/
theorem exec_hands_on {k : Linked} {s : Kernel} {p : Proc} (found : Bool) (f : List UInt8)
    (hcall : Calls p m path argv) (ho : Owns k.toSymbols s.mem (s.proc.pgdir.pages + F))
    (hl : s.locked = false) (hlen : (argv.map List.length).sum < stackTop f) :
    ∃ r t, exec k.toSymbols found f path argv s = .ok (r, t) ∧ (r = 0 ∨ r = -1) ∧
      (r = 0 → ∀ (p' : Proc) (m' : Mem) (path' : List UInt8), p'.sz = t.proc.sz →
        (∀ a, t.proc.esp ≤ a → a < p'.sz → m' a = view t.mem t.proc.pgdir a) →
        (∀ n < 2, argAddr p' n + 4 ≤ p'.sz) → StrAt p'.sz m' (wordAt m' (argAddr p' 0)) path' →
        wordAt m' (argAddr p' 1) = word (view t.mem t.proc.pgdir) (t.proc.esp + 8) →
        Calls p' m' path' argv) := by
  have hpassed := User.calls_iff.mp hcall
  have hshort := hpassed.short
  have hnul : ∀ s ∈ argv, 0 ∉ s := fun s hs => by
    obtain ⟨i, hi, rfl⟩ := List.mem_iff_getElem.mp hs
    exact (hpassed.string i hi).2.noNul
  obtain ⟨r, t, hr, hres, hprepared, -⟩ :=
    exec_builds_stack found f path ho hl (Nat.le_sub_one_of_lt hshort) hlen
  refine ⟨r, t, hr, hres, fun h0 p' m' path' hsz hm hwords hpath hargv => User.calls_iff.mpr ?_⟩
  have hp := hprepared h0
  have hstack := hp.stack
  rw [← hsz] at hstack
  exact hstack.passed hm hwords hpath hargv hshort hnul

/-- A program `f`, started with the argument `x`, that writes its own name and a call below its stack
pointer, and passes on its array: it is run again with the argument `x`. -/
theorem exec_hands_on_small :
    ∃ t p' m', exec smallLinked.toSymbols true spinFile [0x66] [[0x78]] roomyKernel = .ok (0, t) ∧
      p'.sz = t.proc.sz ∧ Calls p' m' [0x66] [[0x78]] := by
  have ho : Owns smallLinked.toSymbols roomyKernel.mem (roomyKernel.proc.pgdir.pages + 0) :=
    roomyMachine_owns
  have hlen : (([[0x78]] : List (List UInt8)).map List.length).sum < stackTop spinFile := by
    rw [spinFile_stackTop]
    decide
  obtain ⟨t, ht, -⟩ := exec_succeeds [0x66] [[0x78]] ho rfl spinFile_inOrder roomyMachine_ample
    (by decide) (by decide)
  have hprepared : Prepared smallLinked.toSymbols spinFile roomyMachine [[0x78]] t.proc t.mem := by
    obtain ⟨r, u, hu, -, hp, -⟩ := exec_builds_stack true spinFile [0x66] ho rfl (by decide) hlen
    rw [ht] at hu
    cases hu
    exact hp rfl
  have hsz : t.proc.sz = 16384 := by
    rw [hprepared.size, spinFile_stackTop]
    rfl
  have hlow : 12288 ≤ t.proc.esp := by
    have := hprepared.stack.low
    rwa [hsz] at this
  have hcall : Calls ⟨32, 0, by decide⟩ (fun a =>
      [0, 0, 0, 0, 20, 0, 0, 0, 12, 0, 0, 0, 22, 0, 0, 0, 0, 0, 0, 0, 0x66, 0, 0x78, 0].getD a 0)
      [0x66] [[0x78]] :=
    ⟨20, [22], by decide, (User.readStr_eq_ok _).mp rfl,
      .cons ((User.readStr_eq_ok _).mp rfl) .nil⟩
  obtain ⟨r, u, hu, -, hcalls⟩ := exec_hands_on true spinFile hcall ho rfl hlen
  rw [ht] at hu
  cases hu
  -- the call at 16: the name is at 28, and the array is that of the stack
  obtain ⟨w, hw⟩ : ∃ w, word (view t.mem t.proc.pgdir) (t.proc.esp + 8) = w := ⟨_, rfl⟩
  have hlt : w < 2 ^ 32 := by
    rw [← hw, ← wordAt_eq]
    exact User.wordAt_lt _ _
  let frame : List UInt8 := List.replicate 20 0 ++ ([28, 0, 0, 0] ++ (Lib.toLE 4 w ++ [0x66, 0]))
  let m' : ℕ → UInt8 := fun a => if a < 30 then frame.getD a 0 else view t.mem t.proc.pgdir a
  have hname : wordAt m' 20 = 28 := rfl
  have harray : wordAt m' 24 = w := by
    rw [wordAt_eq]
    refine At.word (fun i hi => ?_) hlt
    rw [Lib.length_toLE] at hi
    obtain rfl | rfl | rfl | rfl : i = 0 ∨ i = 1 ∨ i = 2 ∨ i = 3 := by omega
    all_goals rfl
  refine ⟨t, ⟨t.proc.sz, 16, by rw [hsz]; decide⟩, m', ht, rfl,
    hcalls rfl _ m' [0x66] rfl (fun a ha _ => if_neg (by omega)) (fun n hn => ?_) ?_ ?_⟩
  · simp only [argAddr]
    omega
  · show StrAt t.proc.sz m' (wordAt m' 20) [0x66]
    rw [hname]
    refine ⟨fun j hj => ?_, by decide, rfl, ?_⟩
    · obtain rfl : j = 0 := Nat.lt_one_iff.mp hj
      rfl
    · rw [List.length_singleton]
      omega
  · show wordAt m' 24 = _
    rw [harray, hw]

end Xv6.Uvm

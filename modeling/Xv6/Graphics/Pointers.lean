import Xv6.Lib.Partial
import Xv6.Graphics.Handles

/-!
# Graphics — user pointers

`sys_fillrect` and `sys_writeQueue` from the user's side: the arguments on the user stack,
`argint` and `argptr`, the `struct rect` that is capped in place, and the `struct argsSet` with the
strings that are parsed and printed over.  Each access to user memory at or past the size of the
process stops the model with that address (`Trap.user`).  The accesses a call makes at one pointer
go upwards from it, so that no address needs to wrap around to be caught.

Both calls pass `argptr` the value of a comparison, `sizeof(*p) < 0`, for a size: it is `0`.
`writeQueue` moreover ignores what `argint` and `argptr` return, and finds its locals
uninitialised when they refuse.

* `fillrect_confined_iff`, `writeQueue_confined_iff` — when the accesses stay in the process.
-/

namespace Xv6

open Lib

/-- The first kernel address. -/
def KERNBASE : ℕ := 0x80000000

/-- A process as a system call finds it; `allocuvm` keeps its size within `KERNBASE`. -/
structure Proc where
  sz : ℕ
  esp : ℕ
  sz_le : sz ≤ KERNBASE

/-- Memory by address. -/
abbrev Mem := ℕ → UInt8

/-- What ends a call: an access outside the process, or a fault of the graphics. -/
inductive Trap where
  /-- an access at `a`, outside the process -/
  | user (a : ℕ)
  | fault (f : Fault)
  deriving DecidableEq, Repr

namespace User

variable (sz : ℕ)

/-! ### Accesses -/

/-- A byte of the process, read by the kernel. -/
def load8 (m : Mem) (a : ℕ) : Except Trap UInt8 := if a < sz then .ok (m a) else .error (.user a)

/-- A byte of the process, written by the kernel. -/
def store8 (m : Mem) (a : ℕ) (v : UInt8) : Except Trap Mem :=
  if a < sz then .ok (Function.update m a v) else .error (.user a)

/-- Bytes stored one after the other. -/
def storeBytes : Mem → ℕ → List UInt8 → Except Trap Mem
  | m, _, [] => .ok m
  | m, a, v :: vs => do
      let m ← store8 sz m a v
      storeBytes m (a + 1) vs

/-- The little-endian word of four bytes. -/
def word (b₀ b₁ b₂ b₃ : UInt8) : ℕ :=
  b₀.toNat + 256 * (b₁.toNat + 256 * (b₂.toNat + 256 * b₃.toNat))

/-- The word in memory at `a`. -/
def wordAt (m : Mem) (a : ℕ) : ℕ := word (m a) (m (a + 1)) (m (a + 2)) (m (a + 3))

/-- A word, its low byte first. -/
def load32 (m : Mem) (a : ℕ) : Except Trap ℕ := do
  let b₀ ← load8 sz m a
  let b₁ ← load8 sz m (a + 1)
  let b₂ ← load8 sz m (a + 2)
  let b₃ ← load8 sz m (a + 3)
  return word b₀ b₁ b₂ b₃

/-- A word is written, its low byte first. -/
def store32 (m : Mem) (a : ℕ) (v : Int32) : Except Trap Mem :=
  let n := v.toUInt32.toNat
  storeBytes sz m a [UInt8.ofNat n, UInt8.ofNat (n / 256), UInt8.ofNat (n / 256 / 256),
    UInt8.ofNat (n / 256 / 256 / 256)]

/-! ### Arguments -/

variable (p : Proc)

/-- `fetchint`: `none` where it returns `-1`. -/
def fetchint (m : Mem) (addr : ℕ) : Option ℕ :=
  if addr ≥ p.sz ∨ addr + 4 > p.sz then none else some (wordAt m addr)

/-- `argint`; the address is computed in 32 bits. -/
def argint (m : Mem) (n : ℕ) : Option Int32 :=
  (fetchint p m ((p.esp + 4 + 4 * n) % 2 ^ 32)).map Int32.ofNat

/-- `argptr`; the pointer is the argument read as unsigned. -/
def argptr (m : Mem) (n : ℕ) (size : Int32) : Option ℕ := do
  let i ← argint p m n
  let a := i.toUInt32.toNat
  if size < 0 ∨ a ≥ p.sz ∨ a + size.toUInt32.toNat > p.sz then none else some a

/-- `sizeof(*p) < 0`, where `sizeof` is unsigned. -/
def sizeofLtZero : Int32 := 0

/-! ### `fillrect` -/

/-- `ValueCapper(&pointedRect->field, capacity)`: the field is read, capped and written back. -/
def capField (m : Mem) (a : ℕ) (capacity : Int32) : Except Trap Mem := do
  let v ← load32 sz m a
  store32 sz m a (ValueCapper (Int32.ofNat v) capacity)

/-- The four fields, in the order the source caps them, and the rectangle they then are. -/
def capRect (m : Mem) (a : ℕ) : Except Trap (Rect × Mem) := do
  let m ← capField sz m a 199
  let m ← capField sz m (a + 8) 199
  let m ← capField sz m (a + 4) 319
  let m ← capField sz m (a + 12) 319
  let top ← load32 sz m a
  let left ← load32 sz m (a + 4)
  let bottom ← load32 sz m (a + 8)
  let right ← load32 sz m (a + 12)
  return (⟨Int32.ofNat top, Int32.ofNat left, Int32.ofNat bottom, Int32.ofNat right⟩, m)

/-- `sys_fillrect`: the rectangle stands in the memory of the process, where its sides are capped.
-/
def sys_fillrect (m : Mem) (g : Gfx) : Except Trap (Int32 × Mem × Gfx) :=
  match argint p m 0, argptr p m 1 sizeofLtZero with
  | some hdc, some pointedRect =>
      if hdc < 0 then .ok (-1, m, g)
      else do
        let (r, m) ← capRect p.sz m pointedRect
        let g ← (fillRows r.top r.left r.bottom r.right hdc g).mapError Trap.fault
        return (0, m, g)
  | _, _ => .ok (-1, m, g)

/-! ### `writeQueue` -/

/-- `strlen`, and the characters it passes; `fuel` addresses are left in the process. -/
def readStrFrom (m : Mem) : ℕ → ℕ → Except Trap CStr
  | 0, a => .error (.user a)
  | fuel + 1, a =>
      if m a = 0 then .ok []
      else do
        let s ← readStrFrom m fuel (a + 1)
        return m a :: s

/-- The string at `a`, up to its NUL. -/
def readStr (m : Mem) (a : ℕ) : Except Trap CStr := readStrFrom m (sz - a) a

/-- `ParseChar(ValueCapperChar(a, capacity), a)`: the string is printed over. -/
def capString (m : Mem) (a : ℕ) (capacity : Int32) : Except Trap Mem := do
  let s ← readStr sz m a
  storeBytes sz m a (capped s capacity ++ [0])

/-- `ParseChar` on each string in turn, where it stands. -/
def capStrings : Mem → List (ℕ × Int32) → Except Trap Mem
  | m, [] => .ok m
  | m, (a, cap) :: rest => do
      let m ← capString sz m a cap
      capStrings m rest

/-- What `strncpy` reads for `n` bytes: up to the NUL, or `n` characters. -/
def readBytes (m : Mem) : ℕ → ℕ → Except Trap CStr
  | 0, _ => .ok []
  | n + 1, a => do
      let c ← load8 sz m a
      if c = 0 then return []
      else
        let s ← readBytes m n (a + 1)
        return c :: s

/-- An `Append` function on user strings: `ptrs` in the order they are capped, `stored` in the
order they are stored. -/
def append (action : Action) (ptrs : List (ℕ × Int32)) (stored : List ℕ) (junk : Junk)
    (hdc : Int32) (m : Mem) (g : Gfx) : Except Trap (Mem × Gfx) := do
  let m ← capStrings sz m ptrs
  let strs ← stored.mapM (readBytes sz m sizeofArgument)
  let g ← (appendCommand action strs junk hdc g).mapError Trap.fault
  return (m, g)

/-- The words `set->arg0`, `set->arg1`, … of the first `n` fields. -/
def loadArgs (m : Mem) (set : ℕ) : ℕ → Except Trap (List ℕ)
  | 0 => .ok []
  | n + 1 => do
      let args ← loadArgs m set n
      let a ← load32 sz m (set + 4 * n)
      return args ++ [a]

/-- The uninitialised locals of `writeQueue`. -/
structure Locals where
  hdc : Int32
  opType : Int32
  set : ℕ
  junk : Junk

/-- The action of an operation, with the caps of the arguments it takes in order, and the order in
which they are stored. -/
def operation (opType : Int32) : Option (Action × List Int32 × List ℕ) :=
  if opType = 0 then some (.PixelSetterFuncQueue, [319, 199], [0, 1])
  else if opType = 1 then some (.LineDrawFunc, [319, 199], [0, 1])
  else if opType = 2 then some (.MovePosFunc, [319, 199], [0, 1])
  else if opType = 3 then some (.DeclarePenFunc, [50, 63, 63, 63], [0, 1, 2, 3])
  else if opType = 4 then some (.GetPenFunc, [50], [0])
  else if opType = 5 then some (.DrawRect, [199, 199, 319, 319], [0, 3, 1, 2])
  else none

/-- `sys_writeQueue`.  No argument is checked: one that cannot be fetched is what the local was. -/
def sys_writeQueue (locals : Locals) (m : Mem) (g : Gfx) : Except Trap (Int32 × Mem × Gfx) := do
  let hdc := (argint p m 0).getD locals.hdc
  let opType := (argint p m 1).getD locals.opType
  let set := (argptr p m 2 sizeofLtZero).getD locals.set
  match operation opType with
  | none => return (1, m, g)
  | some (action, caps, order) =>
      let args ← loadArgs p.sz m set caps.length
      let (m, g) ← append p.sz action (args.zip caps) (order.map (args.getD · 0)) locals.junk hdc m g
      return (1, m, g)

/-! ### What the accesses need -/

section

variable {sz : ℕ} {m m' : Mem} {a : ℕ} {cap : Int32} {s : CStr}

/-- Memory with bytes stored from `a` on. -/
def overwrite : Mem → ℕ → List UInt8 → Mem
  | m, _, [] => m
  | m, a, v :: vs => overwrite (Function.update m a v) (a + 1) vs

/-- The only trap is an access outside the process. -/
def UserOnly {α : Type} (x : Except Trap α) : Prop := ∀ e, x = .error e → ∃ b, e = .user b

theorem UserOnly.ok {α : Type} (v : α) : UserOnly (.ok v) := fun _ h => by cases h

/-- Two parts that fault at user memory only. -/
theorem UserOnly.bind {α β : Type} {x : Except Trap α} {f : α → Except Trap β} (hx : UserOnly x)
    (hf : ∀ v, UserOnly (f v)) : UserOnly (x.bind f) := by
  cases hc : x with
  | error e =>
      intro e' he'
      cases he'
      exact hx e hc
  | ok v => exact hf v

/-- A computation that does not return traps. -/
theorem UserOnly.trap {α : Type} {x : Except Trap α} (hx : UserOnly x) (h : ∀ v, x ≠ .ok v) :
    ∃ b, x = .error (.user b) := by
  cases hc : x with
  | error e =>
      obtain ⟨b, rfl⟩ := hx e hc
      exact ⟨b, rfl⟩
  | ok v => exact absurd hc (h v)

theorem load8_userOnly : UserOnly (load8 sz m a) := by
  intro e h
  rw [load8] at h
  split at h <;> cases h
  exact ⟨a, rfl⟩

theorem load8_eq_ok {v : UInt8} : load8 sz m a = .ok v ↔ a < sz ∧ m a = v := by
  rw [load8]
  split <;> rename_i h
  · exact ⟨fun e => ⟨h, Except.ok.inj e⟩, fun e => by rw [e.2]⟩
  · exact iff_of_false (fun e => by cases e) fun e => h e.1

theorem load32_userOnly : UserOnly (load32 sz m a) :=
  load8_userOnly.bind fun _ => load8_userOnly.bind fun _ => load8_userOnly.bind fun _ =>
    load8_userOnly.bind fun _ => .ok _

theorem load32_ok (h : a + 4 ≤ sz) : load32 sz m a = .ok (wordAt m a) := by
  simp only [load32, load8_eq_ok.mpr ⟨show a < sz by omega, rfl⟩,
    load8_eq_ok.mpr ⟨show a + 1 < sz by omega, rfl⟩,
    load8_eq_ok.mpr ⟨show a + 2 < sz by omega, rfl⟩,
    load8_eq_ok.mpr ⟨show a + 3 < sz by omega, rfl⟩]
  rfl

theorem load32_fits {v : ℕ} (h : load32 sz m a = .ok v) : a + 4 ≤ sz := by
  obtain ⟨_, -, h⟩ := bind_eq_ok.mp h
  obtain ⟨_, -, h⟩ := bind_eq_ok.mp h
  obtain ⟨_, -, h⟩ := bind_eq_ok.mp h
  obtain ⟨_, h₃, -⟩ := bind_eq_ok.mp h
  exact (load8_eq_ok.mp h₃).1

theorem store8_userOnly {v : UInt8} : UserOnly (store8 sz m a v) := by
  intro e h
  rw [store8] at h
  split at h <;> cases h
  exact ⟨a, rfl⟩

theorem storeBytes_userOnly {vs : List UInt8} : UserOnly (storeBytes sz m a vs) := by
  induction vs generalizing m a with
  | nil => exact .ok m
  | cons v vs ih => exact store8_userOnly.bind fun _ => ih

/-- Bytes that lie in the process are stored. -/
theorem storeBytes_ok {vs : List UInt8} (h : a + vs.length ≤ sz) :
    storeBytes sz m a vs = .ok (overwrite m a vs) := by
  induction vs generalizing m a with
  | nil => rfl
  | cons v vs ih =>
      simp only [List.length_cons] at h
      rw [storeBytes, store8, if_pos (by omega)]
      exact ih (by omega)

/-- What was stored lies in the process. -/
theorem storeBytes_fits {vs : List UInt8} (hne : vs ≠ []) (h : storeBytes sz m a vs = .ok m') :
    a + vs.length ≤ sz := by
  induction vs generalizing m a with
  | nil => exact absurd rfl hne
  | cons v vs ih =>
      obtain ⟨m₁, h₁, h⟩ := bind_eq_ok.mp h
      have ha : a < sz := by
        by_contra ha
        rw [store8, if_neg ha] at h₁
        cases h₁
      cases vs with
      | nil => exact ha
      | cons w ws =>
          have := ih (List.cons_ne_nil w ws) h
          simp only [List.length_cons] at this ⊢
          omega

/-! ### Strings -/

/-- `s` is the string at `a`, and its NUL lies below `sz`. -/
structure StrAt (sz : ℕ) (m : Mem) (a : ℕ) (s : CStr) : Prop where
  chars : ∀ (j : ℕ) (hj : j < s.length), m (a + j) = s[j]
  noNul : 0 ∉ s
  nul : m (a + s.length) = 0
  fits : a + s.length < sz

/-- What is read is a string of the process. -/
theorem readStrFrom_strAt {fuel : ℕ} (hf : a + fuel = sz) (h : readStrFrom m fuel a = .ok s) :
    StrAt sz m a s := by
  induction fuel generalizing a s with
  | zero => cases h
  | succ fuel ih =>
      rw [readStrFrom] at h
      split at h
      · rename_i hz
        obtain rfl := Except.ok.inj h
        exact ⟨fun j hj => absurd hj (Nat.not_lt_zero j), List.not_mem_nil, hz, by simp; omega⟩
      · rename_i hz
        obtain ⟨t, ht, h⟩ := bind_eq_ok.mp h
        obtain rfl := Except.ok.inj h
        have hst := ih (by omega) ht
        refine ⟨fun j hj => ?_, ?_, ?_, ?_⟩
        · cases j with
          | zero => rfl
          | succ j =>
              rw [show a + (j + 1) = a + 1 + j by omega, List.getElem_cons_succ]
              exact hst.chars j _
        · rw [List.mem_cons, not_or]
          exact ⟨fun e => hz e.symm, hst.noNul⟩
        · rw [List.length_cons, show a + (t.length + 1) = a + 1 + t.length by omega]
          exact hst.nul
        · have := hst.fits
          rw [List.length_cons]
          omega

/-- A string of the process is read. -/
theorem readStrFrom_ok {fuel : ℕ} (hf : a + fuel = sz) (h : StrAt sz m a s) :
    readStrFrom m fuel a = .ok s := by
  induction s generalizing a fuel with
  | nil =>
      have hfits := h.fits
      have hnul := h.nul
      simp only [List.length_nil, Nat.add_zero] at hfits hnul
      obtain ⟨fuel, rfl⟩ := Nat.exists_eq_succ_of_ne_zero (show fuel ≠ 0 by omega)
      rw [readStrFrom, if_pos hnul]
  | cons c s ih =>
      have hfits := h.fits
      simp only [List.length_cons] at hfits
      obtain ⟨fuel, rfl⟩ := Nat.exists_eq_succ_of_ne_zero (show fuel ≠ 0 by omega)
      have hc : m a = c := h.chars 0 (Nat.succ_pos _)
      obtain ⟨hne, hs⟩ := not_or.mp (List.mem_cons.not.mp h.noNul)
      have hrest : StrAt sz m (a + 1) s := by
        refine ⟨fun j hj => ?_, hs, ?_, by omega⟩
        · rw [show a + 1 + j = a + (j + 1) by omega]
          exact h.chars (j + 1) (Nat.succ_lt_succ hj)
        · rw [show a + 1 + s.length = a + (c :: s).length by simp; omega]
          exact h.nul
      rw [readStrFrom, if_neg (by rw [hc]; exact fun e => hne e.symm), ih (by omega) hrest, hc]
      rfl

/-- `strlen` stays in the process exactly when the string ends in it. -/
theorem readStr_eq_ok (s : CStr) : readStr sz m a = .ok s ↔ StrAt sz m a s := by
  rw [readStr]
  constructor
  · intro h
    rcases Nat.lt_or_ge a sz with ha | ha
    · exact readStrFrom_strAt (by omega) h
    · rw [show sz - a = 0 by omega] at h
      cases h
  · intro h
    have := h.fits
    exact readStrFrom_ok (by omega) h

/-- Reading a string faults at user memory only. -/
theorem readStrFrom_userOnly {fuel : ℕ} : UserOnly (readStrFrom m fuel a) := by
  induction fuel generalizing a with
  | zero =>
      intro e h
      cases h
      exact ⟨a, rfl⟩
  | succ fuel ih =>
      rw [readStrFrom]
      split
      · exact .ok _
      · exact ih.bind fun _ => .ok _

theorem capString_userOnly : UserOnly (capString sz m a cap) :=
  readStrFrom_userOnly.bind fun _ => storeBytes_userOnly

/-- **Capping a string in place** stays in the process exactly when the string ends in it and its
capped numeral fits. -/
theorem capString_eq_ok : capString sz m a cap = .ok m' ↔
    ∃ s, StrAt sz m a s ∧ a + (capped s cap).length < sz ∧
      m' = overwrite m a (capped s cap ++ [0]) := by
  have hlen : ∀ s : CStr, a + (s ++ [0]).length = a + s.length + 1 := fun s => by simp; omega
  constructor
  · intro h
    obtain ⟨s, hs, h⟩ := bind_eq_ok.mp h
    have hfit := storeBytes_fits (by simp) h
    rw [storeBytes_ok hfit] at h
    rw [hlen] at hfit
    exact ⟨s, (readStr_eq_ok s).mp hs, hfit, (Except.ok.inj h).symm⟩
  · rintro ⟨s, hs, hfit, hm⟩
    have hfit' : a + (capped s cap ++ [0]).length ≤ sz := by rw [hlen]; exact hfit
    rw [hm]
    simp only [capString, (readStr_eq_ok s).mpr hs, bind, Except.bind, storeBytes_ok hfit']

/-- Each string in turn, as the ones before it have left the memory, ends in the process and has
room for its capped numeral. -/
def Fits (sz : ℕ) : Mem → List (ℕ × Int32) → Prop
  | _, [] => True
  | m, (a, cap) :: rest => ∃ s, StrAt sz m a s ∧ a + (capped s cap).length < sz ∧
      Fits sz (overwrite m a (capped s cap ++ [0])) rest

theorem capStrings_userOnly {ptrs : List (ℕ × Int32)} : UserOnly (capStrings sz m ptrs) := by
  induction ptrs generalizing m with
  | nil => exact .ok m
  | cons q ptrs ih => exact capString_userOnly.bind fun _ => ih

/-- The strings can be rewritten exactly if each numeral fits into the process. -/
theorem capStrings_ok_iff {ptrs : List (ℕ × Int32)} :
    (∃ m', capStrings sz m ptrs = .ok m') ↔ Fits sz m ptrs := by
  induction ptrs generalizing m with
  | nil => exact iff_of_true ⟨m, rfl⟩ trivial
  | cons q ptrs ih =>
      obtain ⟨a, cap⟩ := q
      constructor
      · rintro ⟨m', h⟩
        obtain ⟨m₁, h₁, h⟩ := bind_eq_ok.mp h
        obtain ⟨s, hs, hfit, hm⟩ := capString_eq_ok.mp h₁
        rw [hm] at h
        exact ⟨s, hs, hfit, ih.mp ⟨m', h⟩⟩
      · rintro ⟨s, hs, hfit, hrest⟩
        obtain ⟨m', h⟩ := ih.mpr hrest
        refine ⟨m', ?_⟩
        rw [capStrings, capString_eq_ok.mpr ⟨s, hs, hfit, rfl⟩]
        exact h

/-! ### Reading the strings back -/

/-- A NUL lies at or after `a`, in the process. -/
def HasNul (sz : ℕ) (m : Mem) (a : ℕ) : Prop := ∃ z, a ≤ z ∧ z < sz ∧ m z = 0

theorem overwrite_of_lt {vs : List UInt8} {z : ℕ} (h : z < a ∨ a + vs.length ≤ z) :
    overwrite m a vs z = m z := by
  induction vs generalizing m a with
  | nil => rfl
  | cons v vs ih =>
      simp only [List.length_cons] at h
      rw [overwrite, ih (by omega), Function.update_of_ne (by omega)]

theorem overwrite_last {vs : List UInt8} {v : UInt8} :
    overwrite m a (vs ++ [v]) (a + vs.length) = v := by
  induction vs generalizing m a with
  | nil =>
      simp only [List.nil_append, List.length_nil, Nat.add_zero, overwrite]
      exact Function.update_self _ _ _
  | cons w ws ih =>
      rw [List.cons_append, overwrite, List.length_cons,
        show a + (ws.length + 1) = a + 1 + ws.length by omega]
      exact ih

/-- A numeral stored in the process leaves a NUL after `b`: an old one, or its own. -/
theorem HasNul.overwrite {b : ℕ} {vs : List UInt8} (h : HasNul sz m b)
    (hfit : a + vs.length < sz) : HasNul sz (overwrite m a (vs ++ [0])) b := by
  obtain ⟨z, hbz, hz, hnul⟩ := h
  by_cases hin : a ≤ z ∧ z ≤ a + vs.length
  · exact ⟨a + vs.length, by omega, hfit, overwrite_last⟩
  · refine ⟨z, hbz, hz, ?_⟩
    rw [overwrite_of_lt (by simp; omega)]
    exact hnul

theorem capString_hasNul {b : ℕ} (h : capString sz m a cap = .ok m') :
    HasNul sz m' a ∧ (HasNul sz m b → HasNul sz m' b) := by
  obtain ⟨s, hs, hfit, hm⟩ := capString_eq_ok.mp h
  rw [hm]
  exact ⟨⟨a + (capped s cap).length, by omega, hfit, overwrite_last⟩, fun hb => hb.overwrite hfit⟩

/-- No string loses its NUL. -/
theorem capStrings_hasNul {ptrs : List (ℕ × Int32)} (h : capStrings sz m ptrs = .ok m') :
    (∀ q ∈ ptrs, HasNul sz m' q.1) ∧ ∀ b, HasNul sz m b → HasNul sz m' b := by
  induction ptrs generalizing m with
  | nil =>
      cases h
      exact ⟨fun q hq => absurd hq List.not_mem_nil, fun _ hb => hb⟩
  | cons q ptrs ih =>
      obtain ⟨m₁, h₁, h⟩ := bind_eq_ok.mp h
      obtain ⟨hrest, hkeep⟩ := ih h
      refine ⟨fun r hr => ?_, fun b hb => hkeep b ((capString_hasNul h₁).2 hb)⟩
      rcases List.mem_cons.mp hr with rfl | hr
      · exact hkeep _ (capString_hasNul (b := 0) h₁).1
      · exact hrest r hr

/-- A string that has its NUL can be read. -/
theorem readBytes_ok (h : HasNul sz m a) (n : ℕ) : ∃ s, readBytes sz m n a = .ok s := by
  induction n generalizing a with
  | zero => exact ⟨[], rfl⟩
  | succ n ih =>
      obtain ⟨z, haz, hz, hnul⟩ := h
      rw [readBytes, load8_eq_ok.mpr ⟨show a < sz by omega, rfl⟩]
      by_cases hc : m a = 0
      · exact ⟨[], if_pos hc⟩
      · have hne : a ≠ z := fun e => hc (e ▸ hnul)
        obtain ⟨s, hs⟩ := ih (a := a + 1) ⟨z, by omega, hz, hnul⟩
        refine ⟨m a :: s, ?_⟩
        simp only [bind, Except.bind, if_neg hc, hs]
        rfl

/-- All strings that have their NUL are read. -/
theorem mapM_readBytes_ok {as : List ℕ} (h : ∀ a ∈ as, HasNul sz m a) (n : ℕ) :
    ∃ ss, as.mapM (readBytes sz m n) = .ok ss := by
  induction as with
  | nil => exact ⟨[], rfl⟩
  | cons a as ih =>
      obtain ⟨s, hs⟩ := readBytes_ok (h a (by simp)) n
      obtain ⟨ss, hss⟩ := ih fun b hb => h b (by simp [hb])
      refine ⟨s :: ss, ?_⟩
      rw [List.mapM_cons, hs, hss]
      rfl

/-! ### The argument set -/

/-- The words of the first `n` fields of the set. -/
def argWords (m : Mem) (set n : ℕ) : List ℕ := (List.range n).map fun k => wordAt m (set + 4 * k)

theorem loadArgs_userOnly {set n : ℕ} : UserOnly (loadArgs sz m set n) := by
  induction n with
  | zero => exact .ok []
  | succ n ih => exact ih.bind fun _ => load32_userOnly.bind fun _ => .ok _

/-- A set that lies in the process is read. -/
theorem loadArgs_ok {set n : ℕ} (h : set + 4 * n ≤ sz) :
    loadArgs sz m set n = .ok (argWords m set n) := by
  induction n with
  | zero => rfl
  | succ n ih =>
      rw [loadArgs, ih (by omega), load32_ok (by omega)]
      simp only [argWords, List.range_succ, List.map_append, List.map_singleton]
      rfl

theorem loadArgs_fits {set n : ℕ} {args : List ℕ} (hn : n ≠ 0)
    (h : loadArgs sz m set n = .ok args) : set + 4 * n ≤ sz := by
  obtain ⟨n, rfl⟩ := Nat.exists_eq_succ_of_ne_zero hn
  obtain ⟨_, -, h⟩ := bind_eq_ok.mp h
  obtain ⟨_, h, -⟩ := bind_eq_ok.mp h
  have := load32_fits h
  omega

/-! ### The rectangle -/

theorem capField_userOnly : UserOnly (capField sz m a cap) :=
  load32_userOnly.bind fun _ => storeBytes_userOnly

theorem capField_ok (h : a + 4 ≤ sz) (cap : Int32) (m : Mem) :
    ∃ m', capField sz m a cap = .ok m' := by
  rw [capField, load32_ok h]
  exact ⟨_, storeBytes_ok h⟩

theorem capRect_userOnly : UserOnly (capRect sz m a) :=
  capField_userOnly.bind fun _ => capField_userOnly.bind fun _ => capField_userOnly.bind fun _ =>
    capField_userOnly.bind fun _ => load32_userOnly.bind fun _ => load32_userOnly.bind fun _ =>
      load32_userOnly.bind fun _ => load32_userOnly.bind fun _ => .ok _

/-- A rectangle that lies in the process is capped. -/
theorem capRect_ok (h : a + 16 ≤ sz) (m : Mem) : ∃ r, capRect sz m a = .ok r := by
  obtain ⟨m₁, h₁⟩ := capField_ok (show a + 4 ≤ sz by omega) 199 m
  obtain ⟨m₂, h₂⟩ := capField_ok (show a + 8 + 4 ≤ sz by omega) 199 m₁
  obtain ⟨m₃, h₃⟩ := capField_ok (show a + 4 + 4 ≤ sz by omega) 319 m₂
  obtain ⟨m₄, h₄⟩ := capField_ok (show a + 12 + 4 ≤ sz by omega) 319 m₃
  simp only [capRect, bind, Except.bind, h₁, h₂, h₃, h₄,
    load32_ok (m := m₄) (show a + 4 ≤ sz by omega),
    load32_ok (m := m₄) (show a + 4 + 4 ≤ sz by omega),
    load32_ok (m := m₄) (show a + 8 + 4 ≤ sz by omega),
    load32_ok (m := m₄) (show a + 12 + 4 ≤ sz by omega)]
  exact ⟨_, rfl⟩

/-- A rectangle that was capped lies in the process. -/
theorem capRect_fits {r : Rect × Mem} (h : capRect sz m a = .ok r) : a + 16 ≤ sz := by
  obtain ⟨_, -, h⟩ := bind_eq_ok.mp h
  obtain ⟨_, -, h⟩ := bind_eq_ok.mp h
  obtain ⟨_, -, h⟩ := bind_eq_ok.mp h
  obtain ⟨_, h, -⟩ := bind_eq_ok.mp h
  obtain ⟨_, h, -⟩ := bind_eq_ok.mp h
  have := load32_fits h
  omega

end

/-! ### The calls -/

section

variable {p : Proc} {m : Mem} {g : Gfx} {locals : Locals}

/-- No access of the call is outside the process; and if the arguments are not inside, it leaves
the memory alone. -/
def Confined (inside : Prop) (m : Mem) (out : Except Trap (Int32 × Mem × Gfx)) : Prop :=
  (∀ a, out ≠ .error (.user a)) ∧
    (¬ inside → ∀ r m' g', out = .ok (r, m', g') → m' = m)

/-- A kernel fault is no access to user memory. -/
theorem mapError_ne_user {α β : Type} {x : Except Fault α} {f : α → Except Trap β}
    (hf : ∀ v a, f v ≠ .error (.user a)) (a : ℕ) :
    (x.mapError Trap.fault).bind f ≠ .error (.user a) := by
  cases x with
  | error e => exact fun h => by cases h
  | ok v => exact hf v a

/-- The 16 bytes of the rectangle lie in the process. -/
def RectInside (p : Proc) (m : Mem) : Prop :=
  ∃ i, argint p m 1 = some i ∧ i.toUInt32.toNat + 16 ≤ p.sz

/-- Where the checks of `fillrect` pass, the rectangle is inside. -/
def RectChecked (p : Proc) (m : Mem) : Prop :=
  ∀ hdc i, argint p m 0 = some hdc → argint p m 1 = some i → 0 ≤ hdc →
    i.toUInt32.toNat < p.sz → i.toUInt32.toNat + 16 ≤ p.sz

/-- The check of `argptr` is that of the first byte only. -/
theorem argptr_sizeof_eq (n : ℕ) : argptr p m n sizeofLtZero =
    (argint p m n).bind fun i =>
      if i.toUInt32.toNat < p.sz then some i.toUInt32.toNat else none := by
  rw [argptr]
  cases argint p m n with
  | none => rfl
  | some i =>
      have h0 : sizeofLtZero.toUInt32.toNat = 0 := rfl
      have hlt : ¬ sizeofLtZero < 0 := by decide
      simp only [Option.bind_eq_bind, Option.bind_some, h0, Nat.add_zero]
      by_cases hi : i.toUInt32.toNat < p.sz
      · rw [if_pos hi, if_neg]
        rintro (h | h | h)
        · exact hlt h
        · omega
        · omega
      · rw [if_neg hi, if_pos (Or.inr (Or.inl (by omega)))]

/-- `fillrect` in the one case in which it reads the rectangle. -/
theorem fillrect_reads {hdc i : Int32} (h0 : argint p m 0 = some hdc)
    (h1 : argint p m 1 = some i) (hpos : 0 ≤ hdc) (hlt : i.toUInt32.toNat < p.sz) :
    sys_fillrect p m g = (capRect p.sz m i.toUInt32.toNat).bind fun r =>
      ((fillRows r.1.top r.1.left r.1.bottom r.1.right hdc g).mapError Trap.fault).bind fun g =>
        .ok (0, r.2, g) := by
  have hp : argptr p m 1 sizeofLtZero = some i.toUInt32.toNat := by
    rw [argptr_sizeof_eq, h1, Option.bind_some, if_pos hlt]
  simp only [sys_fillrect, h0, hp, if_neg (Int32.not_lt.mpr hpos)]
  rfl

/-- In every other case it returns `-1`. -/
theorem fillrect_refuses (h : ¬ ∃ hdc i, argint p m 0 = some hdc ∧ argint p m 1 = some i ∧
    0 ≤ hdc ∧ i.toUInt32.toNat < p.sz) : sys_fillrect p m g = .ok (-1, m, g) := by
  simp only [sys_fillrect]
  split
  · rename_i hdc a h0 hp
    rw [argptr_sizeof_eq] at hp
    obtain ⟨i, hi, hp⟩ := Option.bind_eq_some_iff.mp hp
    split at hp
    · rename_i hlt
      by_cases hneg : hdc < 0
      · rw [if_pos hneg]
      · exact absurd ⟨hdc, i, h0, hi, Int32.not_lt.mp hneg, hlt⟩ h
    · cases hp
  · rfl

/-- `fillrect` stays in the process exactly if its whole rectangle does. -/
theorem fillrect_confined_iff :
    Confined (RectInside p m) m (sys_fillrect p m g) ↔ RectChecked p m := by
  by_cases hread : ∃ hdc i, argint p m 0 = some hdc ∧ argint p m 1 = some i ∧ 0 ≤ hdc ∧
      i.toUInt32.toNat < p.sz
  · obtain ⟨hdc, i, h0, h1, hpos, hlt⟩ := hread
    rw [Confined, fillrect_reads h0 h1 hpos hlt]
    constructor
    · rintro ⟨hno, -⟩ hdc' i' - h1' - -
      rw [h1] at h1'
      cases h1'
      by_contra hout
      obtain ⟨b, hb⟩ := (capRect_userOnly : UserOnly (capRect p.sz m i.toUInt32.toNat)).trap
        fun r hr => hout (capRect_fits hr)
      exact hno b (by rw [hb]; rfl)
    · intro hck
      have hin := hck hdc i h0 h1 hpos hlt
      obtain ⟨r, hr⟩ := capRect_ok hin m
      refine ⟨fun a => ?_, fun hn => absurd ⟨i, h1, hin⟩ hn⟩
      rw [hr]
      exact mapError_ne_user (fun v a h => by cases h) a
  · rw [Confined, fillrect_refuses hread]
    refine iff_of_true ⟨fun a h => ?_, fun _ r m' g' h => ?_⟩ fun hdc i h0 h1 hpos hlt =>
      absurd ⟨hdc, i, h0, h1, hpos, hlt⟩ hread
    · cases h
    · cases h
      rfl

/-- The operation `writeQueue` is asked for, and the set it is given. -/
def opOf (p : Proc) (locals : Locals) (m : Mem) : Int32 := (argint p m 1).getD locals.opType

/-- The address of `struct argsSet`, as the kernel takes it. -/
def setOf (p : Proc) (locals : Locals) (m : Mem) : ℕ :=
  (argptr p m 2 sizeofLtZero).getD locals.set

/-- The fields of the set that the operation reads lie in the process, and its strings fit. -/
def ArgsInside (p : Proc) (locals : Locals) (m : Mem) : Prop :=
  ∃ action caps order, operation (opOf p locals m) = some (action, caps, order) ∧
    setOf p locals m + 4 * caps.length ≤ p.sz ∧
    Fits p.sz m ((argWords m (setOf p locals m) caps.length).zip caps)

theorem operation_spec {opType : Int32} {action : Action} {caps : List Int32} {order : List ℕ}
    (h : operation opType = some (action, caps, order)) :
    caps.length ≠ 0 ∧ ∀ k ∈ order, k < caps.length := by
  unfold operation at h
  split_ifs at h <;> cases h <;> decide

/-- The operations are those of the device model. -/
theorem operation_call {opType : Int32} {action : Action} {caps : List Int32} {order : List ℕ}
    (h : operation opType = some (action, caps, order)) (arg : ℕ → CStr) (hdc : Int32)
    (junk : Junk) (g : Gfx) :
    g.sys_writeQueue hdc opType ⟨arg 0, arg 1, arg 2, arg 3⟩ junk =
      (appendCommand action (order.map fun k => capped (arg k) (caps.getD k 0)) junk hdc g).map
        fun g => (1, g) := by
  unfold operation at h
  split_ifs at h with h0 h1 h2 h3 h4 h5
  · cases h; subst h0; exact Gfx.bind_return 1
  · cases h; subst h1; exact Gfx.bind_return 1
  · cases h; subst h2; exact Gfx.bind_return 1
  · cases h; subst h3; exact Gfx.bind_return 1
  · cases h; subst h4; exact Gfx.bind_return 1
  · cases h; subst h5; exact Gfx.bind_return 1

/-- `writeQueue` on an operation it queues. -/
theorem writeQueue_reads {action : Action} {caps : List Int32} {order : List ℕ}
    (h : operation (opOf p locals m) = some (action, caps, order)) :
    sys_writeQueue p locals m g =
      (loadArgs p.sz m (setOf p locals m) caps.length).bind fun args =>
        (append p.sz action (args.zip caps) (order.map (args.getD · 0)) locals.junk
          ((argint p m 0).getD locals.hdc) m g).bind fun r => .ok (1, r.1, r.2) := by
  rw [opOf] at h
  simp only [sys_writeQueue, h]
  rfl

/-- The pointers that are stored are among those that are capped. -/
theorem stored_mem_zip {args : List ℕ} {caps : List Int32} {order : List ℕ}
    (hlen : args.length = caps.length) (horder : ∀ k ∈ order, k < caps.length) :
    ∀ a ∈ order.map (args.getD · 0), ∃ q ∈ args.zip caps, q.1 = a := by
  intro a ha
  obtain ⟨k, hk, rfl⟩ := List.mem_map.mp ha
  have hkc := horder k hk
  have hka : k < args.length := hlen ▸ hkc
  refine ⟨(args[k], caps[k]), ?_, by simp [hka]⟩
  rw [← List.getElem_zip (h := by rw [List.length_zip]; omega)]
  exact List.getElem_mem _

/-- `writeQueue` stays in the process exactly if its set and its strings do. -/
theorem writeQueue_confined_iff :
    Confined (ArgsInside p locals m) m (sys_writeQueue p locals m g) ↔
      operation (opOf p locals m) = none ∨ ArgsInside p locals m := by
  cases hop : operation (opOf p locals m) with
  | none =>
      refine iff_of_true ?_ (Or.inl rfl)
      have hret : sys_writeQueue p locals m g = .ok (1, m, g) := by
        rw [opOf] at hop
        simp only [sys_writeQueue, hop]
        rfl
      rw [Confined, hret]
      refine ⟨fun a h => ?_, fun _ r m' g' h => ?_⟩
      · cases h
      · cases h
        rfl
  | some o =>
      obtain ⟨action, caps, order⟩ := o
      obtain ⟨hne, horder⟩ := operation_spec hop
      rw [Confined, writeQueue_reads hop]
      constructor
      · rintro ⟨hno, -⟩
        have hset : setOf p locals m + 4 * caps.length ≤ p.sz := by
          by_contra hout
          obtain ⟨b, hb⟩ := (loadArgs_userOnly :
            UserOnly (loadArgs p.sz m (setOf p locals m) caps.length)).trap
            fun args ha => hout (loadArgs_fits hne ha)
          exact hno b (by rw [hb]; rfl)
        refine Or.inr ⟨action, caps, order, hop, hset, ?_⟩
        -- What does not fit, some memory beyond the process lets through.
        by_contra hfit
        obtain ⟨b, hb⟩ := (capStrings_userOnly : UserOnly (capStrings p.sz m
          ((argWords m (setOf p locals m) caps.length).zip caps))).trap
          fun m' hm' => hfit (capStrings_ok_iff.mp ⟨m', hm'⟩)
        exact hno b (by rw [loadArgs_ok hset]; simp only [Except.bind, append, hb]; rfl)
      · rintro (h | ⟨action', caps', order', hop', hset, hfit⟩)
        · cases h
        · have hin : ArgsInside p locals m := ⟨action', caps', order', hop', hset, hfit⟩
          rw [hop] at hop'
          cases hop'
          obtain ⟨m', hm'⟩ := capStrings_ok_iff.mpr hfit
          have hnul := (capStrings_hasNul hm').1
          obtain ⟨strs, hstrs⟩ := mapM_readBytes_ok (n := sizeofArgument) fun a ha => by
            obtain ⟨q, hq, rfl⟩ := stored_mem_zip (show (argWords m (setOf p locals m)
              caps.length).length = caps.length by simp [argWords]) horder a ha
            exact hnul q hq
          refine ⟨fun a => ?_, fun hn => absurd hin hn⟩
          rw [loadArgs_ok hset]
          simp only [Except.bind, append, hm', bind, hstrs]
          cases appendCommand action strs locals.junk ((argint p m 0).getD locals.hdc) g with
          | error e => exact fun h => by cases h
          | ok g' => exact fun h => by cases h

/-- A process of one page whose stack passes `fillrect` handle 0 and a pointer to its last word. -/
def lastWord : Mem := fun a => if a = 8 then 0xFC else if a = 9 then 0x0F else 0

/-- **The size is not checked.**  The rectangle starts in the process and ends outside it. -/
theorem fillrect_last_word_escapes :
    ¬ ∀ (p : Proc) (locals : Locals) (m : Mem) (g : Gfx),
      Confined (RectInside p m) m (sys_fillrect p m g) ∧
        Confined (ArgsInside p locals m) m (sys_writeQueue p locals m g) := by
  intro h
  have hfill := (h ⟨4096, 0, by decide⟩ ⟨0, 0, 0, ⟨.zero, fun _ _ => 0⟩⟩ lastWord
    (Gfx.boot fun _ => 0)).1
  have := fillrect_confined_iff.mp hfill 0 4092 (by decide) (by decide) (by decide) (by decide)
  exact absurd this (by decide)

/-- **When the calls stay in the process.**  `fillrect` does exactly when its rectangle is inside
whenever its pointer and its handle pass; `writeQueue` exactly when it is asked for no operation,
or the part of the set it reads is inside and each string in turn ends inside and has room for
its capped numeral. -/
theorem user_pointers_confined_iff (p : Proc) (locals : Locals) (m : Mem) (g : Gfx) :
    (Confined (RectInside p m) m (sys_fillrect p m g) ↔ RectChecked p m) ∧
    (Confined (ArgsInside p locals m) m (sys_writeQueue p locals m g) ↔
      operation (opOf p locals m) = none ∨ ArgsInside p locals m) :=
  ⟨fillrect_confined_iff, writeQueue_confined_iff⟩

end

end User

end Xv6

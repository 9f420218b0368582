import Xv6.Console.Keyboard

/-!
# Console — the keys behind the scan codes

What `kbdgetc` makes of every sequence of keys pressed and released, each with the bytes that the
keyboard sends for it.  A modifier is on if the last that happened to one of its keys was a press —
whichever of them is still down — and a lock if its key has been pressed an odd number of times.

* `Modifiers.bits` — what `shift` holds.
* `kbdvalues_replies` — the characters, by what has been pressed and released before.
-/

namespace Xv6.Console

/-- A key: its scan code, and whether the keyboard sends `0xE0` before it. -/
structure Key where
  code : UInt8
  extended : Bool
  deriving DecidableEq

/-- A key is pressed or released. -/
inductive KeyEvent where
  | press (k : Key)
  | release (k : Key)
  deriving DecidableEq

namespace KeyEvent

def key : KeyEvent → Key
  | press k | release k => k

def pressed : KeyEvent → Bool
  | press _ => true
  | release _ => false

/-- The index of the key in the tables of `kbd.h`. -/
def index (e : KeyEvent) : UInt8 := if e.key.extended then e.key.code ||| 0x80 else e.key.code

/-- The bytes that the keyboard sends. -/
def scan (e : KeyEvent) : List UInt8 :=
  (if e.key.extended then [0xE0] else []) ++ [if e.pressed then e.key.code else e.key.code ||| 0x80]

/-- A scan code, other than the one whose release looks like the prefix. -/
def Valid (e : KeyEvent) : Prop := e.key.code < 0x80 ∧ e.key.code ≠ 0x60

instance (e : KeyEvent) : Decidable e.Valid := inferInstanceAs (Decidable (_ ∧ _))

end KeyEvent

/-! ### What has been pressed and released -/

/-- Whether a modifier is on, by the past, newest event first: the last that happened to one of its
keys was a press. -/
def held (flag : UInt8) (past : List KeyEvent) : Bool :=
  (past.find? fun e => shiftcode e.index = flag).any KeyEvent.pressed

/-- Whether a lock is on: its key has been pressed an odd number of times. -/
def locked (flag : UInt8) (past : List KeyEvent) : Bool :=
  past.countP (fun e => e.pressed ∧ togglecode e.index = flag) % 2 = 1

/-- The character of the key `index`. -/
def charOf (past : List KeyEvent) (index : UInt8) : UInt8 :=
  let c := (if held CTL past then ctlmap else if held SHIFT past then shiftmap else normalmap) index
  if locked CAPSLOCK past then swapCase c else c

/-- What the calls of `kbdgetc` return for the bytes of `e`. -/
def reply (e : KeyEvent) (past : List KeyEvent) : List ℤ :=
  (if e.key.extended then [0] else []) ++
    [if e.pressed then ((charOf (e :: past) e.index).toNat : ℤ) else 0]

/-- What they return for the bytes of all events. -/
def replies (past : List KeyEvent) : List KeyEvent → List ℤ
  | [] => []
  | e :: es => reply e past ++ replies (e :: past) es

/-! ### The modifiers -/

/-- The keys that are held and those that are locked. -/
structure Modifiers where
  shift : Bool
  ctl : Bool
  alt : Bool
  caps : Bool
  num : Bool
  scroll : Bool

namespace Modifiers

/-- A bit of `shift`. -/
def flag (b : Bool) (f : UInt8) : UInt8 := if b then f else 0

/-- `shift`, outside of an `E0` escape. -/
def bits (m : Modifiers) : UInt8 :=
  flag m.shift SHIFT ||| flag m.ctl CTL ||| flag m.alt ALT ||| flag m.caps CAPSLOCK |||
    flag m.num NUMLOCK ||| flag m.scroll SCROLLLOCK

/-- The modifiers that the past has left. -/
def of (past : List KeyEvent) : Modifiers :=
  ⟨held SHIFT past, held CTL past, held ALT past, locked CAPSLOCK past, locked NUMLOCK past,
    locked SCROLLLOCK past⟩

/-- After a key whose codes are `a` and `b` is pressed or released. -/
def after (m : Modifiers) (pressed : Bool) (a b : UInt8) : Modifiers where
  shift := if a = SHIFT then pressed else m.shift
  ctl := if a = CTL then pressed else m.ctl
  alt := if a = ALT then pressed else m.alt
  caps := if pressed ∧ b = CAPSLOCK then !m.caps else m.caps
  num := if pressed ∧ b = NUMLOCK then !m.num else m.num
  scroll := if pressed ∧ b = SCROLLLOCK then !m.scroll else m.scroll

variable (m : Modifiers) {a b : UInt8}

theorem bits_or (ha : a ∈ [0, CTL, SHIFT, ALT]) : m.bits ||| a = (m.after true a 0).bits := by
  have h : ∀ a ∈ [0, CTL, SHIFT, ALT], ∀ x₁ x₂ x₃ x₄ x₅ x₆ : Bool,
      (Modifiers.mk x₁ x₂ x₃ x₄ x₅ x₆).bits ||| a =
        ((Modifiers.mk x₁ x₂ x₃ x₄ x₅ x₆).after true a 0).bits := by decide +kernel
  exact h a ha m.shift m.ctl m.alt m.caps m.num m.scroll

theorem bits_xor (hb : b ∈ [0, CAPSLOCK, NUMLOCK, SCROLLLOCK]) :
    m.bits ^^^ b = (m.after true 0 b).bits := by
  have h : ∀ b ∈ [0, CAPSLOCK, NUMLOCK, SCROLLLOCK], ∀ x₁ x₂ x₃ x₄ x₅ x₆ : Bool,
      (Modifiers.mk x₁ x₂ x₃ x₄ x₅ x₆).bits ^^^ b =
        ((Modifiers.mk x₁ x₂ x₃ x₄ x₅ x₆).after true 0 b).bits := by decide +kernel
  exact h b hb m.shift m.ctl m.alt m.caps m.num m.scroll

theorem bits_press (ha : a ∈ [0, CTL, SHIFT, ALT]) (hb : b ∈ [0, CAPSLOCK, NUMLOCK, SCROLLLOCK]) :
    (m.bits ||| a) ^^^ b = (m.after true a b).bits := by
  rw [bits_or m ha, bits_xor _ hb]
  rfl

theorem bits_release (ha : a ∈ [0, CTL, SHIFT, ALT]) (b : UInt8) :
    m.bits &&& ~~~(a ||| E0ESC) = (m.after false a b).bits := by
  have h : ∀ a ∈ [0, CTL, SHIFT, ALT], ∀ x₁ x₂ x₃ x₄ x₅ x₆ : Bool,
      (Modifiers.mk x₁ x₂ x₃ x₄ x₅ x₆).bits &&& ~~~(a ||| E0ESC) =
        ((Modifiers.mk x₁ x₂ x₃ x₄ x₅ x₆).after false a 0).bits := by decide +kernel
  have hm := h a ha m.shift m.ctl m.alt m.caps m.num m.scroll
  simpa [after] using hm

/-- Bits that are set do not matter where they are masked out. -/
theorem or_and_not (x y z : UInt8) : (x ||| y) &&& ~~~(z ||| y) = x &&& ~~~(z ||| y) := by
  refine UInt8.toBitVec_inj.1 (BitVec.eq_of_getLsbD_eq fun i hi => ?_)
  simp only [UInt8.toBitVec_and, UInt8.toBitVec_or, UInt8.toBitVec_not, BitVec.getLsbD_and,
    BitVec.getLsbD_or, BitVec.getLsbD_not, hi]
  cases x.toBitVec.getLsbD i <;> cases y.toBitVec.getLsbD i <;> simp

/-- The escape comes and goes beside the modifiers. -/
theorem bits_escape (a : UInt8) : m.bits &&& E0ESC = 0 ∧
    (m.bits ||| E0ESC) &&& E0ESC ≠ 0 ∧ m.bits &&& ~~~E0ESC = m.bits ∧
      (m.bits ||| E0ESC) &&& ~~~E0ESC = m.bits ∧
        (m.bits ||| E0ESC) &&& ~~~(a ||| E0ESC) = m.bits &&& ~~~(a ||| E0ESC) := by
  have h : ∀ x₁ x₂ x₃ x₄ x₅ x₆ : Bool,
      (Modifiers.mk x₁ x₂ x₃ x₄ x₅ x₆).bits &&& E0ESC = 0 ∧
      ((Modifiers.mk x₁ x₂ x₃ x₄ x₅ x₆).bits ||| E0ESC) &&& E0ESC ≠ 0 ∧
      (Modifiers.mk x₁ x₂ x₃ x₄ x₅ x₆).bits &&& ~~~E0ESC =
        (Modifiers.mk x₁ x₂ x₃ x₄ x₅ x₆).bits := by decide +kernel
  obtain ⟨h₀, h₁, h₂⟩ := h m.shift m.ctl m.alt m.caps m.num m.scroll
  exact ⟨h₀, h₁, h₂, (or_and_not m.bits E0ESC 0).trans h₂, or_and_not m.bits E0ESC a⟩

theorem bits_tests : (m.bits &&& CTL ≠ 0 ↔ m.ctl = true) ∧ (m.bits &&& SHIFT ≠ 0 ↔ m.shift = true) ∧
    (m.bits &&& CAPSLOCK ≠ 0 ↔ m.caps = true) := by
  have h : ∀ x₁ x₂ x₃ x₄ x₅ x₆ : Bool,
      ((Modifiers.mk x₁ x₂ x₃ x₄ x₅ x₆).bits &&& CTL ≠ 0 ↔ x₂ = true) ∧
      ((Modifiers.mk x₁ x₂ x₃ x₄ x₅ x₆).bits &&& SHIFT ≠ 0 ↔ x₁ = true) ∧
      ((Modifiers.mk x₁ x₂ x₃ x₄ x₅ x₆).bits &&& CAPSLOCK ≠ 0 ↔ x₄ = true) := by decide +kernel
  exact h m.shift m.ctl m.alt m.caps m.num m.scroll

end Modifiers

/-! ### One event -/

/-- A table has the codes of its entries, and `0`. -/
theorem table_mem (designated : List (UInt8 × UInt8)) (i : UInt8) :
    table [] designated i ∈ 0 :: designated.map Prod.snd := by
  unfold table
  cases h : designated.lookup i with
  | none => simp
  | some c =>
      obtain ⟨l₁, l₂, rfl, -⟩ := List.lookup_eq_some_iff.mp h
      simp

theorem shiftcode_mem (i : UInt8) : shiftcode i ∈ [0, CTL, SHIFT, ALT] := by
  have h : shiftcode i ∈ [0, CTL, SHIFT, SHIFT, ALT, CTL, ALT] := table_mem _ i
  simp only [List.mem_cons, List.not_mem_nil, or_false] at h ⊢
  tauto

theorem togglecode_mem (i : UInt8) : togglecode i ∈ [0, CAPSLOCK, NUMLOCK, SCROLLLOCK] :=
  table_mem _ i

/-- The bytes of a key are told apart from each other and from the escape. -/
theorem code_bytes {c : UInt8} (hc : c < 0x80 ∧ c ≠ 0x60) : c ≠ 0xE0 ∧ c &&& 0x80 = 0 ∧
    c ||| 0x80 ≠ 0xE0 ∧ (c ||| 0x80) &&& 0x80 ≠ 0 ∧ (c ||| 0x80) &&& 0x7F = c := by
  have h : ∀ n : Fin 128, UInt8.ofNat n ≠ 0x60 → UInt8.ofNat n ≠ 0xE0 ∧
      UInt8.ofNat n &&& 0x80 = 0 ∧ UInt8.ofNat n ||| 0x80 ≠ 0xE0 ∧
      (UInt8.ofNat n ||| 0x80) &&& 0x80 ≠ 0 ∧
      (UInt8.ofNat n ||| 0x80) &&& 0x7F = UInt8.ofNat n := by decide +kernel
  have := h ⟨c.toNat, hc.1⟩
  simp only [UInt8.ofNat_toNat] at this
  exact this hc.2

variable {e : KeyEvent} {past es : List KeyEvent}

/-- Whether a shift key is down is decided by its latest event. -/
theorem held_cons (flag : UInt8) (e : KeyEvent) (past : List KeyEvent) :
    held flag (e :: past) = if shiftcode e.index = flag then e.pressed else held flag past := by
  unfold held
  rw [List.find?_cons]
  split
  · rename_i h
    rw [if_pos (of_decide_eq_true h), Option.any_some]
  · rename_i h
    rw [if_neg (of_decide_eq_false h)]

/-- A lock changes each time its key goes down. -/
theorem locked_cons (flag : UInt8) (e : KeyEvent) (past : List KeyEvent) :
    locked flag (e :: past) =
      if e.pressed ∧ togglecode e.index = flag then !locked flag past else locked flag past := by
  unfold locked
  rw [List.countP_cons]
  by_cases h : e.pressed = true ∧ togglecode e.index = flag
  · rw [if_pos h, if_pos (by simpa using h), ← decide_not, decide_eq_decide]
    omega
  · rw [if_neg h, if_neg (by simpa using h), Nat.add_zero]

theorem Modifiers.of_cons (e : KeyEvent) (past : List KeyEvent) : Modifiers.of (e :: past) =
    (Modifiers.of past).after e.pressed (shiftcode e.index) (togglecode e.index) := by
  simp only [Modifiers.of, Modifiers.after, held_cons, locked_cons]

/-- `kbdgetc` on the byte of a key that is pressed, after an escape or not. -/
theorem kbdgetc_press (k : Key) (hk : k.code < 0x80 ∧ k.code ≠ 0x60) (past : List KeyEvent) :
    kbdgetc (if k.extended then (Modifiers.of past).bits ||| E0ESC else (Modifiers.of past).bits)
        (some k.code) =
      (((charOf (.press k :: past) (KeyEvent.press k).index).toNat : ℤ),
        (Modifiers.of (.press k :: past)).bits) := by
  obtain ⟨hne, hmake, -⟩ := code_bytes hk
  have ha := shiftcode_mem (KeyEvent.press k).index
  have hb := togglecode_mem (KeyEvent.press k).index
  obtain ⟨h₀, h₁, h₂, h₃, -⟩ := (Modifiers.of past).bits_escape 0
  have hpress := (Modifiers.of past).bits_press ha hb
  have hcons := Modifiers.of_cons (.press k) past
  obtain ⟨hctl, hshift, hcaps⟩ := (Modifiers.of (.press k :: past)).bits_tests
  have hdata : (if (if k.extended then (Modifiers.of past).bits ||| E0ESC
      else (Modifiers.of past).bits) &&& E0ESC ≠ 0 then k.code ||| 0x80 else k.code) =
        (KeyEvent.press k).index := by
    cases hx : k.extended <;> simp [h₀, h₁, KeyEvent.index, KeyEvent.key, hx]
  have hbits : (if k.extended then (Modifiers.of past).bits ||| E0ESC
      else (Modifiers.of past).bits) &&& ~~~E0ESC = (Modifiers.of past).bits := by
    cases k.extended <;> simp [h₂, h₃]
  have hafter : (Modifiers.of (.press k :: past)).bits =
      ((Modifiers.of past).bits ||| shiftcode (KeyEvent.press k).index) ^^^
        togglecode (KeyEvent.press k).index := by
    rw [hcons]
    exact hpress.symm
  unfold kbdgetc
  dsimp only
  rw [if_neg hne, if_neg (not_not.mpr hmake), hdata, hbits, ← hafter, charcode, charOf]
  simp only [hctl, hshift, hcaps]
  rfl

/-- `kbdgetc` on the byte of a key that is released. -/
theorem kbdgetc_release (k : Key) (hk : k.code < 0x80 ∧ k.code ≠ 0x60) (past : List KeyEvent) :
    kbdgetc (if k.extended then (Modifiers.of past).bits ||| E0ESC else (Modifiers.of past).bits)
        (some (k.code ||| 0x80)) = (0, (Modifiers.of (.release k :: past)).bits) := by
  obtain ⟨-, -, hne, hbreak, hcode⟩ := code_bytes hk
  have ha := shiftcode_mem (KeyEvent.release k).index
  obtain ⟨h₀, h₁, -, -, h₄⟩ := (Modifiers.of past).bits_escape _
  have hrelease := (Modifiers.of past).bits_release ha (togglecode (KeyEvent.release k).index)
  have hcons := Modifiers.of_cons (.release k) past
  have hdata : (if (if k.extended then (Modifiers.of past).bits ||| E0ESC
      else (Modifiers.of past).bits) &&& E0ESC ≠ 0 then k.code ||| 0x80
        else (k.code ||| 0x80) &&& 0x7F) = (KeyEvent.release k).index := by
    cases hx : k.extended <;> simp [h₀, h₁, KeyEvent.index, KeyEvent.key, hx, hcode]
  unfold kbdgetc
  dsimp only
  rw [if_neg hne, if_pos hbreak, hdata]
  refine congrArg (Prod.mk (0 : ℤ)) ?_
  rw [hcons]
  cases k.extended with
  | true => exact h₄.trans hrelease
  | false => exact hrelease

theorem kbdgetc_escape (shift : UInt8) : kbdgetc shift (some 0xE0) = (0, shift ||| E0ESC) := rfl

/-! ### Every sequence of events -/

/-- `shift`, after the bytes. -/
def kbdshift (shift : UInt8) (ports : List (Option UInt8)) : UInt8 :=
  ports.foldl (fun shift port => (kbdgetc shift port).2) shift

/-- The keyboard is read in two parts. -/
theorem kbdvalues_append (shift : UInt8) (ports ports' : List (Option UInt8)) :
    kbdvalues shift (ports ++ ports') =
      kbdvalues shift ports ++ kbdvalues (kbdshift shift ports) ports' := by
  induction ports generalizing shift with
  | nil => rfl
  | cons port ports ih =>
      rw [List.cons_append, kbdvalues, kbdvalues, ih, List.cons_append]
      rfl

/-- The bytes of one event, after the past. -/
theorem kbdvalues_scan (he : e.Valid) (past : List KeyEvent) :
    kbdvalues (Modifiers.of past).bits (e.scan.map some) = reply e past ∧
      kbdshift (Modifiers.of past).bits (e.scan.map some) = (Modifiers.of (e :: past)).bits := by
  have hbyte : kbdgetc (if e.key.extended then (Modifiers.of past).bits ||| E0ESC
      else (Modifiers.of past).bits)
        (some (if e.pressed then e.key.code else e.key.code ||| 0x80)) =
        ((if e.pressed then ((charOf (e :: past) e.index).toNat : ℤ) else 0),
          (Modifiers.of (e :: past)).bits) := by
    cases e with
    | press k => exact kbdgetc_press k he past
    | release k => exact kbdgetc_release k he past
  unfold KeyEvent.scan reply kbdshift
  cases hx : e.key.extended with
  | true =>
      rw [hx, if_pos rfl] at hbyte
      simp only [if_pos, List.cons_append, List.nil_append, List.map_cons, List.map_nil, kbdvalues,
        kbdgetc_escape, hbyte, List.foldl_cons, List.foldl_nil, and_self]
  | false =>
      rw [hx, if_neg Bool.false_ne_true] at hbyte
      simp [kbdvalues, hbyte]

/-- **What is typed is read.**  For every sequence of keys pressed and released, `kbdgetc` returns
the characters that the tables have for them, by the modifiers and locks that the sequence has left
on, and `0` for all other bytes; and `shift` holds these modifiers. -/
theorem kbdvalues_replies (es : List KeyEvent) (hes : ∀ e ∈ es, e.Valid) :
    kbdvalues 0 ((es.flatMap KeyEvent.scan).map some) = replies [] es ∧
      kbdshift 0 ((es.flatMap KeyEvent.scan).map some) = (Modifiers.of es.reverse).bits := by
  -- by induction on the events to come, for every past
  have hrun : ∀ past, kbdvalues (Modifiers.of past).bits ((es.flatMap KeyEvent.scan).map some) =
      replies past es ∧ kbdshift (Modifiers.of past).bits ((es.flatMap KeyEvent.scan).map some) =
        (Modifiers.of (es.reverse ++ past)).bits := by
    induction es with
    | nil => exact fun past => ⟨rfl, rfl⟩
    | cons e es ih =>
        intro past
        obtain ⟨hvalues, hshift⟩ := kbdvalues_scan (hes e List.mem_cons_self) past
        obtain ⟨hrest, hend⟩ := ih (fun e he => hes e (List.mem_cons_of_mem _ he)) (e :: past)
        rw [List.flatMap_cons, List.map_append, kbdvalues_append, hvalues, hshift, hrest, replies]
        refine ⟨rfl, ?_⟩
        rw [kbdshift, List.foldl_append]
        rw [kbdshift] at hshift hend
        rw [hshift, hend, List.reverse_cons, List.append_assoc]
        rfl
  have h := hrun []
  rwa [List.append_nil] at h

/-- An `a`, and with the shift key held an `A`. -/
theorem kbdvalues_replies_small :
    kbdvalues 0 [some 0x1E, some 0x9E, some 0x2A, some 0x1E, some 0x9E, some 0xAA] =
      [97, 0, 0, 65, 0, 0] := by
  have h := (kbdvalues_replies [.press ⟨0x1E, false⟩, .release ⟨0x1E, false⟩, .press ⟨0x2A, false⟩,
    .press ⟨0x1E, false⟩, .release ⟨0x1E, false⟩, .release ⟨0x2A, false⟩]
    (by decide)).1
  exact h.trans (by decide)

end Xv6.Console

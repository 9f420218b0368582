import Xv6.Lib.Ring
import Xv6.Lib.Runs
import Mathlib.Data.Int.Notation

/-!
# Console — the line discipline of `console.c`

`consoleintr` puts characters into a ring of `INPUT_BUF` bytes and lets the line that is being
typed be edited; `consoleread` takes them out.  Three counters run freely through the ring: what
lies before `w` is *committed*, and from `w` to `e` is the line; `r` is how far the readers are.
All of it happens under `cons.lock`, so a step is a batch of characters, or what a reader does
until it sleeps or returns.  A reader that sleeps may go on at any time: the loop in
`consoleread` tests again.

The ghosts: `committed` is every character ever passed by `w`, and `history` every byte copied out
and every return value.  Read as a stream (`delivered`), a return value `0` stands for a `^D`.
`line_discipline` says that the delivered stream, followed by what the ring holds before `w`, is
the committed one.
-/

namespace Xv6.Console

open Lib

/-- The length of the buffer. -/
def INPUT_BUF : ℕ := 128

/-- `'\n'`. -/
def newline : UInt8 := 10

/-- `C('D')`. -/
def ctrlD : UInt8 := 4

/-- `input`. -/
structure Input where
  buf : ℕ → UInt8
  r : UInt32
  w : UInt32
  e : UInt32

namespace Input

/-- `input.buf[k % INPUT_BUF]`. -/
def char (i : Input) (k : UInt32) : UInt8 := i.buf (k.toNat % INPUT_BUF)

/-- The characters from `a` to `b`. -/
def slice (i : Input) (a b : UInt32) : List UInt8 :=
  (List.range (b - a).toNat).map fun k => i.buf ((a.toNat + k) % INPUT_BUF)

/-! ### `consoleintr` -/

/-- The loop of `^U`, which ends after `e - w` rounds at most. -/
def killLine : ℕ → Input → Input
  | 0, i => i
  | k + 1, i =>
      if i.e ≠ i.w ∧ i.char (i.e - 1) ≠ newline then killLine k { i with e := i.e - 1 } else i

/-- A character of the line is taken back. -/
def backspace (i : Input) : Input :=
  if i.e ≠ i.w then { i with e := i.e - 1 } else i

/-- `input.buf[input.e++ % INPUT_BUF] = c`. -/
def store (i : Input) (c : UInt8) : Input :=
  { i with
    buf := Function.update i.buf (i.e.toNat % INPUT_BUF) c
    e := i.e + 1 }

/-- Any other character. -/
def insert (i : Input) (c : UInt8) : Input :=
  if c ≠ 0 ∧ i.e - i.r < UInt32.ofNat INPUT_BUF then
    let c := if c = 13 then newline else c
    let i := i.store c
    if c = newline ∨ c = ctrlD ∨ i.e = i.r + UInt32.ofNat INPUT_BUF then { i with w := i.e } else i
  else i

/-- One round of the loop of `consoleintr`: `^P`, `^U`, `^H` and delete, and the rest. -/
def intr (i : Input) (c : UInt8) : Input :=
  if c = 16 then i
  else if c = 21 then killLine (i.e - i.w).toNat i
  else if c = 8 ∨ c = 127 then i.backspace
  else i.insert c

end Input

/-- What a reader has seen: a byte copied out, or the return of a call for `n` bytes. -/
inductive Item where
  | byte (c : UInt8)
  | ret (n v : ℤ)

/-- The part of the stream that the reader takes it for. -/
def Item.bytes : Item → List UInt8
  | .byte c => [c]
  | .ret n v => if 0 < n ∧ v = 0 then [ctrlD] else []

/-- The stream that was read. -/
def delivered {P : Type} (h : List (P × Item)) : List UInt8 := h.flatMap fun x => x.2.bytes

/-- The console and its readers: of a call that sleeps, how much it still wants and how much it
was called for. -/
structure Console (P : Type) where
  input : Input
  reader : P → Option (ℕ × ℕ)
  killed : P → Bool
  committed : List UInt8
  history : List (P × Item)

/-- What can happen: characters arrive, a process reads, goes on, or is killed. -/
inductive Act (P : Type) where
  | consoleintr (cs : List UInt8)
  | consoleread (p : P) (n : ℤ)
  | resume (p : P)
  | kill (p : P)

namespace Console

variable {P : Type} [DecidableEq P]

/-- One character arrives. -/
def intr (s : Console P) (c : UInt8) : Console P :=
  let i := s.input.intr c
  { s with
    input := i
    committed := s.committed ++ i.slice s.input.w i.w }

/-- `consoleintr`. -/
def consoleintr (s : Console P) (cs : List UInt8) : Console P := cs.foldl intr s

/-- `*dst++ = c`. -/
def copy (s : Console P) (p : P) (c : UInt8) : Console P :=
  { s with history := s.history ++ [(p, .byte c)] }

/-- A read returns. -/
def ret (s : Console P) (p : P) (n v : ℤ) : Console P :=
  { s with
    reader := Function.update s.reader p none
    history := s.history ++ [(p, .ret n v)] }

/-- `sleep(&input.r, &cons.lock)`. -/
def sleep (s : Console P) (p : P) (n target : ℕ) : Console P :=
  { s with reader := Function.update s.reader p (some (n, target)) }

/-- The read index moves. -/
def setR (s : Console P) (r : UInt32) : Console P := { s with input := { s.input with r := r } }

/-- The loop of `consoleread`, with `n` bytes to go of `target`, until it sleeps or returns. -/
def readLoop (s : Console P) (p : P) (target : ℕ) : ℕ → Console P
  | 0 => s.ret p target target
  | n + 1 =>
      if s.input.r = s.input.w then
        if s.killed p then s.ret p target (-1) else s.sleep p (n + 1) target
      else
        let c := s.input.char s.input.r
        let s := s.setR (s.input.r + 1)
        if c = ctrlD then
          let s := if n + 1 < target then s.setR (s.input.r - 1) else s
          s.ret p target (target - (n + 1 : ℕ))
        else
          let s := s.copy p c
          if c = newline then s.ret p target (target - n)
          else readLoop s p target n

/-- `consoleread`. -/
def consoleread (s : Console P) (p : P) (n : ℤ) : Console P :=
  if 0 < n then s.readLoop p n.toNat n.toNat else s.ret p n 0

/-- The steps that can be taken. -/
def step (s : Console P) : Act P → Option (Console P)
  | .consoleintr cs => some (s.consoleintr cs)
  | .consoleread p n => if s.reader p = none then some (s.consoleread p n) else none
  | .resume p => (s.reader p).map fun x => s.readLoop p x.2 x.1
  | .kill p => some { s with killed := Function.update s.killed p true }

/-- A step that can be taken. -/
def Step (s : Console P) (a : Act P) (t : Console P) : Prop := s.step a = some t

/-- After boot. -/
def boot : Console P where
  input := ⟨fun _ => 0, 0, 0, 0⟩
  reader := fun _ => none
  killed := fun _ => false
  committed := []
  history := []

end Console

/-! ### The ring -/

/-- Control-U leaves what may be read. -/
theorem Input.killLine_fields (i : Input) (k : ℕ) :
    (killLine k i).r = i.r ∧ (killLine k i).w = i.w := by
  induction k generalizing i with
  | zero => exact ⟨rfl, rfl⟩
  | succ k ih =>
      unfold killLine
      split
      · exact ih _
      · exact ⟨rfl, rfl⟩

/-- The ring between the committed stream, the line and the delivered stream. -/
structure Line (i : Input) (committed line got : List UInt8) : Prop where
  r : i.r = UInt32.ofNat got.length
  w : i.w = UInt32.ofNat committed.length
  e : i.e = UInt32.ofNat (committed.length + line.length)
  holds : Ring.Holds INPUT_BUF i.buf (committed ++ line) got
  le : got.length ≤ committed.length

namespace Line

variable {i : Input} {committed line got : List UInt8} {c a : UInt8}

theorem room (h : Line i committed line got) :
    committed.length + line.length ≤ got.length + INPUT_BUF := by
  simpa using h.holds.room

theorem w_sub (h : Line i committed line got) :
    (i.w - i.r).toNat = committed.length - got.length := by
  have := h.room
  rw [h.w, h.r]
  exact Ring.sub_toNat h.le (by simp only [INPUT_BUF] at this; omega)

theorem e_sub (h : Line i committed line got) :
    (i.e - i.r).toNat = committed.length + line.length - got.length := by
  have := h.room
  have := h.le
  rw [h.e, h.r]
  exact Ring.sub_toNat (by omega) (by simp only [INPUT_BUF] at *; omega)

theorem e_sub_w (h : Line i committed line got) : (i.e - i.w).toNat = line.length := by
  have := h.room
  have := h.le
  rw [h.e, h.w, Ring.sub_toNat (by omega) (by simp only [INPUT_BUF] at *; omega)]
  omega

theorem e_ne_w (h : Line i committed line got) : i.e ≠ i.w ↔ line ≠ [] := by
  have := h.room
  have := h.le
  rw [h.e, h.w, ne_eq, Ring.ofNat_eq_iff (by omega) (by simp only [INPUT_BUF] at *; omega)]
  simp

theorem r_eq_w (h : Line i committed line got) : i.r = i.w ↔ got.length = committed.length := by
  have := h.room
  have := h.le
  rw [h.r, h.w, eq_comm, Ring.ofNat_eq_iff (by omega) (by simp only [INPUT_BUF] at *; omega)]
  exact eq_comm

/-- The last character of the line is erased. -/
theorem erase (h : Line i committed (line ++ [a]) got) :
    Line { i with e := i.e - 1 } committed line got where
  r := h.r
  w := h.w
  e := by
    show i.e - 1 = _
    rw [h.e, List.length_append, ← Nat.add_assoc]
    simp
  holds := by
    have := h.holds
    rw [← List.append_assoc] at this
    refine this.unput ?_
    rw [List.length_append]
    exact h.le.trans (Nat.le_add_right _ _)
  le := h.le

theorem backspace (h : Line i committed line got) : ∃ line', Line i.backspace committed line' got := by
  unfold Input.backspace
  split
  · rename_i hne
    obtain ⟨line', a, rfl⟩ := (List.eq_nil_or_concat' line).resolve_left (h.e_ne_w.mp hne)
    exact ⟨line', h.erase⟩
  · exact ⟨line, h⟩

/-- Control-U takes back characters that nobody has read. -/
theorem killLine (h : Line i committed line got) (k : ℕ) :
    ∃ line', Line (Input.killLine k i) committed line' got := by
  induction k generalizing i line with
  | zero => exact ⟨line, h⟩
  | succ k ih =>
      unfold Input.killLine
      split
      · rename_i hne
        obtain ⟨line', a, rfl⟩ :=
          (List.eq_nil_or_concat' line).resolve_left (h.e_ne_w.mp hne.1)
        exact ih h.erase
      · exact ⟨line, h⟩

/-- A character is added to the line. -/
theorem store (h : Line i committed line got)
    (hr : committed.length + line.length < got.length + INPUT_BUF) :
    Line (i.store c) committed (line ++ [c]) got where
  r := h.r
  w := h.w
  e := by
    show i.e + 1 = _
    rw [h.e, List.length_append, ← Nat.add_assoc]
    simp
  holds := by
    rw [← List.append_assoc]
    have := h.holds.push (by simpa using hr) c
    simp only [Input.store, h.e, Ring.toNat_mod (N := INPUT_BUF) (by decide)]
    simpa using this
  le := h.le

/-- The line is committed. -/
theorem commit (h : Line i committed line got) :
    Line { i with w := i.e } (committed ++ line) [] got where
  r := h.r
  w := by simpa using h.e
  e := by simpa using h.e
  holds := by simpa using h.holds
  le := by
    rw [List.length_append]
    exact h.le.trans (Nat.le_add_right _ _)

/-- The ring holds the committed characters that were not read, and the line after them. -/
theorem slice_eq (h : Line i committed line got) :
    i.slice i.w i.e = line ∧ committed = got ++ i.slice i.r i.w := by
  have hmod : ∀ a k : ℕ, ((UInt32.ofNat a).toNat + k) % INPUT_BUF = (a + k) % INPUT_BUF := by
    intro a k
    rw [Nat.add_mod, Ring.toNat_mod (by decide), ← Nat.add_mod]
  constructor
  · apply List.ext_getElem
    · simp [Input.slice, h.e_sub_w]
    · intro k hk hk'
      have hl := h.le
      have := h.holds.slot_eq (committed.length + k) (by rw [List.length_append]; omega) (by omega)
      simp only [Input.slice, List.getElem_map, List.getElem_range, h.w, hmod, this]
      rw [List.getElem_append_right (by omega)]
      simp
  · have hgot : committed.take got.length = got := by
      have := List.prefix_of_prefix_length_le h.holds.got_prefix (List.prefix_append _ _) h.le
      exact (List.prefix_iff_eq_take.mp this).symm
    have hrest : committed.drop got.length = i.slice i.r i.w := by
      apply List.ext_getElem
      · simp [Input.slice, h.w_sub]
      · intro k hk _
        rw [List.length_drop] at hk
        have := h.holds.slot_eq (got.length + k) (by rw [List.length_append]; omega) (by omega)
        simp only [Input.slice, List.getElem_map, List.getElem_range, h.r, hmod, this,
          List.getElem_drop]
        rw [List.getElem_append_left (by omega)]
    calc committed = committed.take got.length ++ committed.drop got.length :=
          (List.take_append_drop _ _).symm
      _ = got ++ i.slice i.r i.w := by rw [hgot, hrest]

theorem slice_self (i : Input) (a : UInt32) : i.slice a a = [] := by
  simp [Input.slice]

/-- A character goes to the end of the line, or is dropped. -/
theorem insert (h : Line i committed line got) (c : UInt8) : ∃ line',
    Line (i.insert c) (committed ++ (i.insert c).slice i.w (i.insert c).w) line' got := by
  unfold Input.insert
  split
  · rename_i hc
    have hroom : committed.length + line.length < got.length + INPUT_BUF := by
      have h1 := h.le
      have h2 := UInt32.lt_iff_toNat_lt.mp hc.2
      rw [h.e_sub] at h2
      simp only [INPUT_BUF, UInt32.toNat_ofNat'] at h2 ⊢
      omega
    dsimp only
    generalize (if c = 13 then newline else c) = b
    have hs := h.store (c := b) hroom
    split
    · refine ⟨[], ?_⟩
      show Line _ (committed ++ (i.store b).slice (i.store b).w (i.store b).e) [] got
      rw [hs.slice_eq.1]
      exact hs.commit
    · exact ⟨line ++ [b], by simpa [Input.store, slice_self] using hs⟩
  · exact ⟨line, by simpa [slice_self] using h⟩

/-- A character arrives: what it commits is appended to the committed stream. -/
theorem intr (h : Line i committed line got) (c : UInt8) : ∃ line',
    Line (i.intr c) (committed ++ (i.intr c).slice i.w (i.intr c).w) line' got := by
  have hb : i.backspace.w = i.w := by
    unfold Input.backspace
    split <;> rfl
  unfold Input.intr
  split
  · exact ⟨line, by simpa [slice_self] using h⟩
  split
  · obtain ⟨line', h'⟩ := h.killLine (i.e - i.w).toNat
    exact ⟨line', by simpa [Input.killLine_fields, slice_self] using h'⟩
  split
  · obtain ⟨line', h'⟩ := h.backspace
    exact ⟨line', by simpa [hb, slice_self] using h'⟩
  · exact h.insert c

/-- The character at `r` is the next one of the committed stream. -/
theorem pop (h : Line i committed line got) (hne : i.r ≠ i.w) :
    Line { i with r := i.r + 1 } committed line (got ++ [i.char i.r]) := by
  have hlt : got.length < committed.length :=
    lt_of_le_of_ne h.le fun e => hne (h.r_eq_w.mpr e)
  refine ⟨?_, h.w, h.e, ?_, ?_⟩
  · show i.r + 1 = _
    rw [h.r, List.length_append]
    simp
  · have := h.holds.pop (by rw [List.length_append]; omega)
    rwa [Input.char, h.r, Ring.toNat_mod (by decide)]
  · rw [List.length_append]
    exact hlt

end Line

/-! ### Runs -/

namespace Console

variable {P : Type} [DecidableEq P] {s t : Console P} {p : P}

/-- The invariant. -/
structure Disciplined (s : Console P) : Prop where
  line : ∃ line, Line s.input s.committed line (delivered s.history)
  reader : ∀ p n target, s.reader p = some (n, target) → 0 < n ∧ n ≤ target

omit [DecidableEq P] in
theorem delivered_snoc (h : List (P × Item)) (p : P) (x : Item) :
    delivered (h ++ [(p, x)]) = delivered h ++ x.bytes := by
  simp [delivered]

omit [DecidableEq P] in
theorem Disciplined.intr (h : s.Disciplined) (c : UInt8) : (s.intr c).Disciplined := by
  obtain ⟨line, hl⟩ := h.line
  exact ⟨hl.intr c, h.reader⟩

omit [DecidableEq P] in
theorem Disciplined.consoleintr (h : s.Disciplined) (cs : List UInt8) :
    (s.consoleintr cs).Disciplined := by
  unfold Console.consoleintr
  induction cs generalizing s with
  | nil => exact h
  | cons c cs ih => exact ih (h.intr c)

/-- A call returns, having taken from the ring what it makes the reader believe. -/
theorem Disciplined.ret (line : List UInt8)
    (h : ∀ p n target, s.reader p = some (n, target) → 0 < n ∧ n ≤ target) {n v : ℤ}
    (hl : Line s.input s.committed line (delivered s.history ++ (Item.ret n v).bytes)) :
    (s.ret p n v).Disciplined where
  line := ⟨line, by simpa [Console.ret, delivered_snoc] using hl⟩
  reader q k target hq := by
    by_cases hqp : q = p
    · simp [Console.ret, hqp] at hq
    · exact h q k target (by simpa [Console.ret, hqp] using hq)

/-- A read of a part of the line keeps the discipline. -/
theorem Disciplined.readLoop (h : s.Disciplined) {n target : ℕ} (ht : 0 < target)
    (hn : n ≤ target) : (s.readLoop p target n).Disciplined := by
  -- The induction is on the characters that are still wanted.
  induction n generalizing s with
  | zero =>
      obtain ⟨line, hl⟩ := h.line
      refine .ret line h.reader ?_
      simpa [Item.bytes, ht.ne'] using hl
  | succ n ih =>
      obtain ⟨line, hl⟩ := h.line
      unfold Console.readLoop
      split
      · split
        · exact .ret line h.reader (by simpa [Item.bytes] using hl)
        · refine ⟨⟨line, hl⟩, fun q k t hq => ?_⟩
          by_cases hqp : q = p
          · obtain ⟨rfl, rfl⟩ : n + 1 = k ∧ target = t := by
              simpa [Console.sleep, hqp] using hq
            exact ⟨n.succ_pos, hn⟩
          · exact h.reader q k t (by simpa [Console.sleep, hqp] using hq)
      · rename_i hne
        have hp := hl.pop hne
        dsimp only
        split
        · rename_i hc
          rw [hc] at hp
          by_cases hlt : n + 1 < target
          · -- the `^D` is put back, and the call returns what it has
            rw [if_pos hlt]
            refine .ret (s := (s.setR (s.input.r + 1)).setR (s.input.r + 1 - 1)) line h.reader
              ?_
            have hb : (Item.ret target (target - (n + 1 : ℕ))).bytes = [] :=
              if_neg fun e => by omega
            rw [hb, List.append_nil]
            simpa [setR] using hl
          · rw [if_neg hlt]
            refine .ret (s := s.setR (s.input.r + 1)) line h.reader ?_
            have hb : (Item.ret target (target - (n + 1 : ℕ))).bytes = [ctrlD] :=
              if_pos (by omega)
            rw [hb]
            exact hp
        · have hs : ((s.setR (s.input.r + 1)).copy p (s.input.char s.input.r)).Disciplined :=
            ⟨⟨line, by simpa [copy, setR, delivered_snoc, Item.bytes] using hp⟩, h.reader⟩
          split
          · obtain ⟨line, hl⟩ := hs.line
            refine .ret line hs.reader ?_
            have hb : (Item.ret target (target - n)).bytes = [] := if_neg fun e => by omega
            rw [hb, List.append_nil]
            exact hl
          · exact ih hs (by omega)

/-- **Every step keeps the discipline.** -/
theorem Disciplined.step (h : s.Disciplined) {a : Act P} (hs : s.step a = some t) :
    t.Disciplined := by
  cases a with
  | consoleintr cs =>
      obtain rfl := Option.some.inj hs
      exact h.consoleintr cs
  | consoleread q n =>
      obtain ⟨-, rfl⟩ : _ ∧ s.consoleread q n = t := by simpa [Console.step] using hs
      unfold Console.consoleread
      split
      · exact h.readLoop (by omega) le_rfl
      · rename_i hn
        obtain ⟨line, hl⟩ := h.line
        exact .ret line h.reader (by simpa [Item.bytes, hn] using hl)
  | resume q =>
      obtain ⟨⟨n, target⟩, hq, rfl⟩ := Option.map_eq_some_iff.mp hs
      obtain ⟨h1, h2⟩ := h.reader q n target hq
      exact h.readLoop (by omega) h2
  | kill q =>
      obtain rfl := Option.some.inj hs
      exact ⟨h.line, h.reader⟩

omit [DecidableEq P] in
theorem boot_disciplined : (boot : Console P).Disciplined where
  line := ⟨[], rfl, rfl, rfl, .nil _ _, le_rfl⟩
  reader := by simp [boot]

omit [DecidableEq P] in
theorem prefix_consoleintr (s : Console P) (cs : List UInt8) :
    s.committed <+: (s.consoleintr cs).committed := by
  unfold Console.consoleintr
  induction cs generalizing s with
  | nil => exact List.prefix_rfl
  | cons c cs ih => exact (List.prefix_append _ _).trans (ih (s.intr c))

omit [DecidableEq P] in
/-- The interrupt hands nothing to a reader. -/
theorem consoleintr_history (s : Console P) (cs : List UInt8) :
    (s.consoleintr cs).history = s.history ∧ (s.consoleintr cs).input.r = s.input.r := by
  have hr : ∀ (i : Input) (c : UInt8), (i.intr c).r = i.r := by
    intro i c
    have hk := fun k => (i.killLine_fields k).1
    unfold Input.intr Input.backspace Input.insert
    grind [Input.store]
  unfold Console.consoleintr
  induction cs generalizing s with
  | nil => exact ⟨rfl, rfl⟩
  | cons c cs ih =>
      obtain ⟨h1, h2⟩ := ih (s.intr c)
      exact ⟨h1, h2.trans (hr s.input c)⟩

/-- **The line discipline.**  In every reachable state `w` and `e` are in order behind `r`, no more
than `INPUT_BUF` away; the committed characters are those that were delivered, a `^D` as a read
of length zero, followed by those in the ring; and input, whatever it erases, leaves them and adds
to them. -/
theorem line_discipline {as : List (Act P)} (hrun : Run Step boot as s) :
    s.input.w - s.input.r ≤ s.input.e - s.input.r ∧
    s.input.e - s.input.r ≤ UInt32.ofNat INPUT_BUF ∧
    s.committed = delivered s.history ++ s.input.slice s.input.r s.input.w ∧
    ∀ cs, s.committed <+: (s.consoleintr cs).committed ∧
      s.input.slice s.input.r s.input.w <+:
        (s.consoleintr cs).input.slice s.input.r (s.consoleintr cs).input.w := by
  have h : s.Disciplined := hrun.inv (fun _ _ _ hs h => h.step hs) boot_disciplined
  obtain ⟨line, hl⟩ := h.line
  have hroom := hl.room
  have hle := hl.le
  refine ⟨?_, ?_, hl.slice_eq.2, fun cs => ?_⟩
  · rw [UInt32.le_iff_toNat_le, hl.w_sub, hl.e_sub]
    omega
  · rw [UInt32.le_iff_toNat_le, hl.e_sub]
    simp only [INPUT_BUF, UInt32.toNat_ofNat'] at hroom ⊢
    omega
  · have hp := s.prefix_consoleintr cs
    obtain ⟨hh, hr⟩ := s.consoleintr_history cs
    obtain ⟨line', hl'⟩ := (h.consoleintr cs).line
    refine ⟨hp, ?_⟩
    have h1 := hl.slice_eq.2
    have h2 := hl'.slice_eq.2
    rw [hh, hr] at h2
    rw [h1, h2] at hp
    exact (List.prefix_append_right_inj _).mp hp

/-- `ab^D`, read with a buffer of five: two bytes, then a read of length zero. -/
def twoReads : List (Act Unit) :=
  [.consoleintr [97, 120, 8, 98, 4], .consoleread () 5, .consoleread () 5]

/-- A line is read in two parts, and then the end of the file. -/
theorem line_discipline_twoReads : ∃ s : Console Unit, Run Step boot twoReads s ∧
    delivered s.history = [97, 98, ctrlD] ∧
    s.committed = delivered s.history ++ s.input.slice s.input.r s.input.w := by
  have hend : ((twoReads.foldlM step (boot : Console Unit)).any fun s =>
      delivered s.history = [97, 98, ctrlD]) = true := by decide +kernel
  obtain ⟨s, hs, hd⟩ := (Option.any_eq_true _ _).mp hend
  have hrun : Run Step boot twoReads s := Run.of_foldlM hs
  exact ⟨s, hrun, of_decide_eq_true hd, (line_discipline hrun).2.2.1⟩

end Console

end Xv6.Console

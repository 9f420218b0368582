import Xv6.Lib.Runs
import Mathlib.Data.Int.Notation
import Mathlib.Data.Nat.Notation
import Mathlib.Logic.Function.Basic

/-!
# Console — text output and video modes

`cgaputc` writes to the text screen, or, while a graphics mode is on, to a shadow of it
(`consbuffer`).  `videosetmode` moves the text between the two: it looks at the current mode,
takes `cons.lock`, and saves the screen if the mode it saw was the text mode.  The look comes
before the lock, so a call has two steps, and other calls may come in between.

In a graphics mode the text memory and the cursor registers may become anything.
`text_survives` compares a run with one that makes the same calls of `consputc` and never leaves
the text mode.
-/

namespace Xv6.Console

open Lib

/-- The size of the text screen. -/
def cells : ℕ := 80 * 25

/-- `BACKSPACE`. -/
def BACKSPACE : ℤ := 0x100

/-- Text memory: characters and attributes. -/
abbrev Text := ℕ → UInt16

/-- `memmove(mem, mem + 80, 23 lines)`. -/
def scrollUp (mem : Text) : Text := fun k => if k < 23 * 80 then mem (k + 80) else mem k

/-- `memset(mem + pos, 0, ...)` up to the end of line 24. -/
def clearFrom (mem : Text) (pos : ℕ) : Text := fun k => if pos ≤ k ∧ k < 24 * 80 then 0 else mem k

/-- The scrolling of `cgaputc`. -/
def scroll (mem : Text) (pos : ℕ) : Text × ℕ :=
  if 24 ≤ pos / 80 then (clearFrom (scrollUp mem) (pos - 80), pos - 80) else (mem, pos)

/-- The character, or the movement of the cursor. -/
def emit (mem : Text) (pos : ℕ) (c : ℤ) : Text × ℕ :=
  if c = 10 then (mem, pos + (80 - pos % 80))
  else if c = BACKSPACE then (mem, pos - 1)
  else (Function.update mem pos (UInt16.ofNat (c % 256).toNat ||| 0x0700), pos + 1)

/-- What `cgaputc` does to a text and its cursor, less the `panic` on overflow. -/
def putc (mem : Text) (pos : ℕ) (c : ℤ) : Option (Text × ℕ) :=
  let x := emit mem pos c
  if 25 * 80 < x.2 then none
  else
    let y := scroll x.1 x.2
    some (Function.update y.1 y.2 0x0720, y.2)

/-- The text screen, `consbuffer`, and the mode; of a `videosetmode` that is under way, the mode
it sets and the mode it saw. -/
structure Display (P : Type) where
  crt : Text
  cursor : UInt16
  videobuffer : Text
  cursorposition : ℕ
  textdisplayed : Bool
  currentVideoMode : UInt8
  call : P → Option (UInt8 × UInt8)

/-- `draw` is what a graphics mode does to the text memory and the cursor registers; `switch` is
the part of `videosetmode` under the lock, with what the registers, the font or the clearing of
the screen make of them. -/
inductive Event (P : Type) where
  | consputc (c : ℤ)
  | videosetmode (p : P) (mode : UInt8)
  | switch (p : P) (crt : Text) (cursor : UInt16)
  | draw (crt : Text) (cursor : UInt16)

namespace Display

variable {P : Type} [DecidableEq P]

/-- `cgaputc`: on the screen in text mode, into the buffer otherwise. -/
def cgaputc (s : Display P) (c : ℤ) : Option (Display P) :=
  if s.textdisplayed then
    (putc s.crt s.cursor.toNat c).map fun x =>
      { s with crt := x.1, cursor := UInt16.ofNat x.2 }
  else
    (putc s.videobuffer s.cursorposition c).map fun x =>
      { s with videobuffer := x.1, cursorposition := x.2 }

/-- `grabscreentobuffer`: text and cursor are saved. -/
def grabscreentobuffer (s : Display P) : Display P :=
  { s with
    videobuffer := fun k => if k < cells then s.crt k else s.videobuffer k
    cursorposition := s.cursor.toNat
    textdisplayed := false }

/-- `outputbuffertoscreen`: text and cursor are put back. -/
def outputbuffertoscreen (s : Display P) : Display P :=
  { s with
    crt := fun k => if k < cells then s.videobuffer k else s.crt k
    cursor := UInt16.ofNat s.cursorposition
    textdisplayed := true }

/-- The call of a process is over. -/
def endCall (s : Display P) (p : P) : Display P :=
  { s with call := Function.update s.call p none }

/-- `videosetmode`, up to the lock. -/
def videosetmode (s : Display P) (p : P) (mode : UInt8) : Display P :=
  if s.currentVideoMode = mode then s
  else { s with call := Function.update s.call p (some (mode, s.currentVideoMode)) }

/-- `videosetmode`, under the lock. -/
def switch (s : Display P) (mode currentmode : UInt8) (crt : Text) (cursor : UInt16) : Display P :=
  let s := if currentmode = 0x03 then s.grabscreentobuffer else s
  if mode = 0x03 then
    { s with crt := crt, cursor := cursor, currentVideoMode := 0x03 }.outputbuffertoscreen
  else if mode = 0x12 ∨ mode = 0x13 then
    { s with crt := crt, cursor := cursor, currentVideoMode := mode }
  else s

/-- The steps that can be taken. -/
def step (s : Display P) : Event P → Option (Display P)
  | .consputc c => s.cgaputc c
  | .videosetmode p mode => if s.call p = none then some (s.videosetmode p mode) else none
  | .switch p crt cursor =>
      (s.call p).map fun x => (s.switch x.1 x.2 crt cursor).endCall p
  | .draw crt cursor =>
      if s.currentVideoMode = 0x03 then none else some { s with crt := crt, cursor := cursor }

/-- A step that can be taken. -/
def Step (s : Display P) (a : Event P) (t : Display P) : Prop := s.step a = some t

/-- After boot, with any text on the screen. -/
structure Init (s : Display P) : Prop where
  textdisplayed : s.textdisplayed = true
  mode : s.currentVideoMode = 0x03
  call : ∀ p, s.call p = none

end Display

/-- The characters written by a run. -/
def printed {P : Type} (as : List (Event P)) : List ℤ :=
  as.filterMap fun
    | .consputc c => some c
    | _ => none

/-- The modes that `videosetmode` knows. -/
def Event.supported {P : Type} : Event P → Bool
  | .videosetmode _ mode => mode = 0x03 ∨ mode = 0x12 ∨ mode = 0x13
  | _ => true

/-! ### One character -/

/-- Two texts with the same screen. -/
def SameScreen (mem mem' : Text) : Prop := ∀ k, k < cells → mem k = mem' k

section

variable {mem mem' : Text} {pos : ℕ}

theorem SameScreen.update (h : SameScreen mem mem') (pos : ℕ) (x : UInt16) :
    SameScreen (Function.update mem pos x) (Function.update mem' pos x) := by
  intro k hk
  simp only [Function.update_apply]
  split
  · rfl
  · exact h k hk

/-- Screens that agree show the same after a character. -/
theorem SameScreen.emit (h : SameScreen mem mem') (pos : ℕ) (c : ℤ) :
    SameScreen (emit mem pos c).1 (Console.emit mem' pos c).1 ∧
      (Console.emit mem pos c).2 = (Console.emit mem' pos c).2 := by
  unfold Console.emit
  split
  · exact ⟨h, rfl⟩
  · split
    · exact ⟨h, rfl⟩
    · exact ⟨h.update _ _, rfl⟩

/-- Screens that agree scroll alike. -/
theorem SameScreen.scroll (h : SameScreen mem mem') (pos : ℕ) :
    SameScreen (scroll mem pos).1 (Console.scroll mem' pos).1 ∧
      (Console.scroll mem pos).2 = (Console.scroll mem' pos).2 := by
  unfold Console.scroll
  split
  · refine ⟨fun k hk => ?_, rfl⟩
    simp only [clearFrom, scrollUp]
    split
    · rfl
    · split
      · exact h _ (by simp only [cells]; omega)
      · exact h k hk
  · exact ⟨h, rfl⟩

/-- Texts with the same screen print alike. -/
theorem SameScreen.putc (h : SameScreen mem mem') (pos : ℕ) (c : ℤ) {x : Text × ℕ}
    (hx : putc mem pos c = some x) :
    ∃ y, Console.putc mem' pos c = some y ∧ SameScreen x.1 y.1 ∧ x.2 = y.2 := by
  obtain ⟨h1, h2⟩ := h.emit pos c
  unfold Console.putc at hx ⊢
  dsimp only at hx ⊢
  rw [← h2]
  split at hx
  · cases hx
  · rename_i hle
    obtain ⟨h3, h4⟩ := h1.scroll (Console.emit mem pos c).2
    obtain rfl := Option.some.inj hx
    rw [if_neg hle]
    refine ⟨_, rfl, ?_, h4⟩
    dsimp only
    rw [← h4]
    exact h3.update _ _

/-- The cursor stays on the screen. -/
theorem putc_pos {c : ℤ} {x : Text × ℕ} (hx : putc mem pos c = some x) : x.2 < cells := by
  unfold Console.putc at hx
  dsimp only at hx
  split at hx
  · cases hx
  · obtain rfl := Option.some.inj hx
    simp only [scroll, cells]
    split
    · dsimp only; omega
    · dsimp only; omega

end

/-! ### Runs -/

namespace Display

variable {P : Type} [DecidableEq P] {s₀ s t : Display P}

/-- If the step is the locked part of a `videosetmode`, the text mode is on exactly if the call
saw it. -/
def LooksFresh (s : Display P) : Event P → Prop
  | .switch p _ _ => ∀ mode currentmode, s.call p = some (mode, currentmode) →
      (currentmode = 0x03 ↔ s.currentVideoMode = 0x03)
  | _ => True

/-- The screen of `t` is the text of `s`, on the screen or behind it. -/
structure Shows (s t : Display P) : Prop where
  mode : s.textdisplayed = true ↔ s.currentVideoMode = 0x03
  plain : t.textdisplayed = true
  screen : s.textdisplayed = true → SameScreen s.crt t.crt ∧ s.cursor = t.cursor
  buffer : s.textdisplayed = false →
    SameScreen s.videobuffer t.crt ∧ s.cursorposition = t.cursor.toNat
  call : ∀ p mode currentmode, s.call p = some (mode, currentmode) →
    mode = 0x03 ∨ mode = 0x12 ∨ mode = 0x13

omit [DecidableEq P] in
theorem Init.shows (h : s.Init) : s.Shows s where
  mode := iff_of_true h.textdisplayed h.mode
  plain := h.textdisplayed
  screen _ := ⟨fun _ _ => rfl, rfl⟩
  buffer hf := by simp [h.textdisplayed] at hf
  call p mode currentmode hc := by simp [h.call] at hc

omit [DecidableEq P] in
/-- A character has the same effect on both. -/
theorem Shows.cgaputc (h : s.Shows t) {c : ℤ} {s' : Display P} (hs : s.cgaputc c = some s') :
    ∃ t', t.cgaputc c = some t' ∧ s'.Shows t' := by
  unfold Display.cgaputc at hs
  split at hs
  · rename_i ht
    obtain ⟨x, hx, rfl⟩ := Option.map_eq_some_iff.mp hs
    obtain ⟨h1, h2⟩ := h.screen ht
    obtain ⟨y, hy, h3, h4⟩ := h1.putc _ c hx
    refine ⟨{ t with crt := y.1, cursor := UInt16.ofNat y.2 }, ?_, h.mode, h.plain, fun _ => ?_,
      fun hf => ?_, h.call⟩
    · rw [Display.cgaputc, if_pos h.plain, ← h2, hy]
      rfl
    · exact ⟨h3, by rw [h4]⟩
    · simp [ht] at hf
  · rename_i ht
    obtain ⟨x, hx, rfl⟩ := Option.map_eq_some_iff.mp hs
    obtain ⟨h1, h2⟩ := h.buffer (by simpa using ht)
    obtain ⟨y, hy, h3, h4⟩ := h1.putc _ c hx
    have hpos := putc_pos hy
    refine ⟨{ t with crt := y.1, cursor := UInt16.ofNat y.2 }, ?_, h.mode, h.plain, fun hf => ?_,
      fun _ => ?_, h.call⟩
    · rw [Display.cgaputc, if_pos h.plain, ← h2, hy]
      rfl
    · exact absurd hf ht
    · refine ⟨h3, ?_⟩
      show x.2 = (UInt16.ofNat y.2).toNat
      rw [h4, UInt16.toNat_ofNat', Nat.mod_eq_of_lt (by simp only [cells] at hpos; omega)]

omit [DecidableEq P] in
/-- A change of the mode leaves the text to be found again. -/
theorem Shows.switch (h : s.Shows t) {mode currentmode : UInt8}
    (hm : mode = 0x03 ∨ mode = 0x12 ∨ mode = 0x13)
    (hf : currentmode = 0x03 ↔ s.currentVideoMode = 0x03) (crt : Text) (cursor : UInt16) :
    (s.switch mode currentmode crt cursor).Shows t := by
  -- after the first part of the switch the text is in the buffer
  have hbuf : ∀ s' : Display P, s' = (if currentmode = 0x03 then s.grabscreentobuffer else s) →
      s'.textdisplayed = false ∧ SameScreen s'.videobuffer t.crt ∧
        s'.cursorposition = t.cursor.toNat ∧ s'.call = s.call := by
    rintro s' rfl
    split
    · rename_i hc
      obtain ⟨h1, h2⟩ := h.screen (h.mode.mpr (hf.mp hc))
      refine ⟨rfl, fun k hk => ?_, by rw [← h2]; rfl, rfl⟩
      simpa [grabscreentobuffer, hk] using h1 k hk
    · rename_i hc
      have ht : s.textdisplayed = false := by
        rw [Bool.eq_false_iff]
        exact fun ht => hc (hf.mpr (h.mode.mp ht))
      obtain ⟨h1, h2⟩ := h.buffer ht
      exact ⟨ht, h1, h2, rfl⟩
  unfold Display.switch
  dsimp only
  obtain ⟨h1, h2, h3, h4⟩ := hbuf _ rfl
  generalize (if currentmode = 0x03 then s.grabscreentobuffer else s) = s' at h1 h2 h3 h4
  split
  · refine ⟨by simp [outputbuffertoscreen], h.plain, fun _ => ⟨fun k hk => ?_, ?_⟩, ?_, ?_⟩
    · simpa [outputbuffertoscreen, hk] using h2 k hk
    · simp [outputbuffertoscreen, h3]
    · simp [outputbuffertoscreen]
    · simpa [outputbuffertoscreen, h4] using h.call
  · rename_i hne
    rw [if_pos (hm.resolve_left hne)]
    refine ⟨by simp [h1, hne], h.plain, by simp [h1], fun _ => ⟨h2, h3⟩, ?_⟩
    simpa [h4] using h.call

/-- Every event keeps what the text console would show. -/
theorem Shows.step (h : s.Shows t) {a : Event P} {s' : Display P} (ha : a.supported = true)
    (hf : s.LooksFresh a) (hs : s.step a = some s') :
    ∃ t', (printed [a]).foldlM Display.cgaputc t = some t' ∧ s'.Shows t' := by
  cases a with
  | consputc c =>
      obtain ⟨t', ht', h'⟩ := h.cgaputc hs
      exact ⟨t', by simp [printed, ht'], h'⟩
  | videosetmode p mode =>
      obtain ⟨-, rfl⟩ : _ ∧ s.videosetmode p mode = s' := by simpa [Display.step] using hs
      refine ⟨t, rfl, ?_⟩
      unfold Display.videosetmode
      split
      · exact h
      · refine ⟨h.mode, h.plain, h.screen, h.buffer, fun q mode' currentmode hq => ?_⟩
        by_cases hqp : q = p
        · obtain ⟨rfl, -⟩ : mode = mode' ∧ _ := by simpa [hqp] using hq
          simpa [Event.supported] using ha
        · exact h.call q mode' currentmode (by simpa [hqp] using hq)
  | switch p crt cursor =>
      obtain ⟨⟨mode, currentmode⟩, hc, rfl⟩ := Option.map_eq_some_iff.mp hs
      have hsw := h.switch (h.call p mode currentmode hc) (hf mode currentmode hc) crt cursor
      refine ⟨t, rfl, hsw.mode, hsw.plain, hsw.screen, hsw.buffer, fun q mode' cur' hq => ?_⟩
      by_cases hqp : q = p
      · simp [endCall, hqp] at hq
      · exact hsw.call q mode' cur' (by simpa [endCall, hqp] using hq)
  | draw crt cursor =>
      obtain ⟨hne, rfl⟩ : _ ∧ { s with crt := crt, cursor := cursor } = s' := by
        simpa [Display.step] using hs
      have ht : ¬ s.textdisplayed = true := fun ht => hne (h.mode.mp ht)
      exact ⟨t, rfl, h.mode, h.plain, fun ht' => absurd ht' ht, h.buffer, h.call⟩

/-- **Text survives graphics mode.**  In every run in which no `videosetmode` acts on a mode that
has changed since it looked: the text is displayed exactly in text mode, and in text mode the
screen and the cursor are what the same characters make of them without any change of mode. -/
theorem text_survives {as : List (Event P)} (h₀ : s₀.Init) (ha : ∀ a ∈ as, a.supported = true)
    (hrun : Run (fun s a t => s.LooksFresh a ∧ s.Step a t) s₀ as s) :
    (s.textdisplayed = true ↔ s.currentVideoMode = 0x03) ∧
    (s.currentVideoMode = 0x03 → ∃ t, (printed as).foldlM Display.cgaputc s₀ = some t ∧
      (∀ k, k < cells → s.crt k = t.crt k) ∧ s.cursor = t.cursor) := by
  have hinv := (hrun.mono fun a h s t hs => (⟨ha a h, hs⟩ : a.supported = true ∧ _)).inv_labels
    (I := fun bs s => ∃ t, (printed bs).foldlM Display.cgaputc s₀ = some t ∧ s.Shows t)
    (fun bs s a s' hs ht => by
      obtain ⟨t, ht, hst⟩ := ht
      obtain ⟨t', ht', hst'⟩ := hst.step hs.1 hs.2.1 hs.2.2
      refine ⟨t', ?_, hst'⟩
      rw [printed, List.filterMap_append, List.foldlM_append]
      exact Option.bind_eq_some_iff.mpr ⟨t, ht, ht'⟩) [] ⟨s₀, rfl, h₀.shows⟩
  obtain ⟨t, ht, hst⟩ := hinv
  refine ⟨hst.mode, fun hm => ⟨t, ht, hst.screen (hst.mode.mpr hm)⟩⟩

instance (s : Display P) (a : Event P) : Decidable (s.LooksFresh a) :=
  match a with
  | .switch p _ _ =>
      match h : s.call p with
      | none => .isTrue fun mode currentmode hc => by simp [h] at hc
      | some (mode, currentmode) =>
          decidable_of_iff (currentmode = 0x03 ↔ s.currentVideoMode = 0x03)
            ⟨fun hf mode' currentmode' hc => by
              obtain ⟨-, rfl⟩ : mode = mode' ∧ currentmode = currentmode' := by simpa [h] using hc
              exact hf, fun hf => hf mode currentmode h⟩
  | .consputc _ | .videosetmode .. | .draw .. => .isTrue trivial

/-- A blank screen. -/
def blank : Display P where
  crt := fun _ => 0
  cursor := 0
  videobuffer := fun _ => 0
  cursorposition := 0
  textdisplayed := true
  currentVideoMode := 0x03
  call := fun _ => none

omit [DecidableEq P] in
theorem blank_init : (blank : Display P).Init := ⟨rfl, rfl, fun _ => rfl⟩

/-- `a` is written in text mode, `b` in mode `0x13`, which scribbles over the text memory. -/
def thereAndBack : List (Event Unit) :=
  [.consputc 97, .videosetmode () 0x13, .switch () (fun _ => 0xffff) 0xffff, .consputc 98,
    .draw (fun _ => 0xaaaa) 7, .videosetmode () 0x03, .switch () (fun _ => 0x5555) 9]

/-- Text is typed, pixels are drawn over it, and it is there again. -/
theorem text_survives_thereAndBack : ∃ s : Display Unit,
    Run (fun s a t => s.LooksFresh a ∧ s.Step a t) blank thereAndBack s ∧
    s.currentVideoMode = 0x03 ∧ s.crt 1 = 0x0762 ∧ ∃ t,
      (printed thereAndBack).foldlM cgaputc (blank : Display Unit) = some t ∧
      (∀ k, k < cells → s.crt k = t.crt k) ∧ s.cursor = t.cursor := by
  have hend : ((thereAndBack.foldlM (fun (s : Display Unit) a =>
      if s.LooksFresh a then s.step a else none) blank).any fun s =>
      s.currentVideoMode = 0x03 ∧ s.crt 1 = 0x0762) = true := by decide +kernel
  obtain ⟨s, hs, hd⟩ := (Option.any_eq_true _ _).mp hend
  obtain ⟨h1, h2⟩ := of_decide_eq_true hd
  have hrun : Run (fun s a t => s.LooksFresh a ∧ s.Step a t) blank thereAndBack s :=
    (Run.of_foldlM hs).mono fun a _ s t h => by simpa [Step] using h
  exact ⟨s, hrun, h1, h2, (text_survives blank_init (by decide) hrun).2 h1⟩

/-- Two calls see the text mode; the second one saves what the first one has put on the screen. -/
def bothLook : List (Event Bool) :=
  [.videosetmode true 0x13, .videosetmode false 0x12, .switch true (fun _ => 0xffff) 0,
    .switch false (fun _ => 0xffff) 0, .videosetmode true 0x03, .switch true (fun _ => 0) 0]

/-- Overlapping calls lose the text: back in text mode the blank screen is full of what the
graphics mode left in the text memory. -/
theorem text_lost : (∀ a ∈ bothLook, a.supported = true) ∧ ∃ s : Display Bool,
    Run Step blank bothLook s ∧ s.currentVideoMode = 0x03 ∧
    ¬ ∃ t, (printed bothLook).foldlM cgaputc (blank : Display Bool) = some t ∧
      (∀ k, k < cells → s.crt k = t.crt k) ∧ s.cursor = t.cursor := by
  refine ⟨by decide, ?_⟩
  have hend : ((bothLook.foldlM step (blank : Display Bool)).any fun s =>
      s.currentVideoMode = 0x03 ∧ s.crt 0 = 0xffff) = true := by decide +kernel
  obtain ⟨s, hs, hd⟩ := (Option.any_eq_true _ _).mp hend
  obtain ⟨h1, h2⟩ := of_decide_eq_true hd
  refine ⟨s, Run.of_foldlM hs, h1, ?_⟩
  rintro ⟨t, ht, hk, -⟩
  obtain rfl : blank = t := Option.some.inj ht
  have := hk 0 (by decide)
  rw [h2] at this
  simp [blank] at this

end Display

end Xv6.Console

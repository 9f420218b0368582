import Xv6.Console.Cursor
import Mathlib.Data.Option.Basic
import Mathlib.Order.Notation

/-!
# Console — a mode that `videosetmode` rejects

A whole call of `videosetmode`, with no other call in between (`setmode_steps`), and the value it
returns.  The screen is saved, and the output turned to `consbuffer`, before the mode that is asked
for is looked at; a mode that is not known leaves it so.

* `rejected_eq` — where the text mode is off, or the text is in `consbuffer` already, a rejected
  mode changes nothing at all.
* `rejected_changes_nothing_iff` — this is the exact condition for the output to go on as before.
-/

namespace Xv6.Console

/-- The modes of the `switch`. -/
def Known (mode : UInt8) : Prop := mode = 0x03 ∨ mode = 0x12 ∨ mode = 0x13

instance (mode : UInt8) : Decidable (Known mode) := inferInstanceAs (Decidable (_ ∨ _))

namespace Display

variable {P : Type} {s t : Display P} {mode : UInt8}

/-- `videosetmode`: the value it returns, and what it leaves.  `crt` and `cursor` are what the
registers, the font or the clearing of the screen make of the text memory. -/
def setmode (s : Display P) (mode : UInt8) (crt : Text) (cursor : UInt16) : ℤ × Display P :=
  if s.currentVideoMode = mode then (0, s)
  else (if Known mode then 0 else -1, s.switch mode s.currentVideoMode crt cursor)

/-- `switch` does not look at the calls under way. -/
theorem switch_call (s : Display P) (call : P → Option (UInt8 × UInt8)) (mode currentmode : UInt8)
    (crt : Text) (cursor : UInt16) :
    ({ s with call := call } : Display P).switch mode currentmode crt cursor =
      { s.switch mode currentmode crt cursor with call := call } := by
  unfold switch grabscreentobuffer outputbuffertoscreen
  dsimp only
  split_ifs <;> rfl

/-- The call is its two steps, one after the other. -/
theorem setmode_steps [DecidableEq P] {p : P} (hp : s.call p = none)
    (hm : s.currentVideoMode ≠ mode) (crt : Text) (cursor : UInt16) :
    [.videosetmode p mode, .switch p crt cursor].foldlM step s =
      some (s.setmode mode crt cursor).2 := by
  have hend : Function.update (Function.update s.call p (some (mode, s.currentVideoMode))) p none =
      s.call := by
    rw [Function.update_idem, ← hp, Function.update_eq_self]
  have hcall := congrArg Display.call (switch_call s s.call mode s.currentVideoMode crt cursor)
  rw [setmode, if_neg hm]
  simp only [List.foldlM_cons, List.foldlM_nil, step, hp, if_true, videosetmode, if_neg hm,
    Option.bind_eq_bind, Option.bind_some, Function.update_self, Option.map_some, switch_call,
    endCall, hend]
  exact congrArg (fun c => some { s.switch mode s.currentVideoMode crt cursor with call := c })
    hcall.symm

/-! ### Output -/

/-- Output appears at the same place, in the same text. -/
structure Alike (s t : Display P) : Prop where
  mode : s.currentVideoMode = t.currentVideoMode
  textdisplayed : s.textdisplayed = t.textdisplayed
  text : ∀ k, k < cells → s.text k = t.text k
  position : s.position = t.position

/-- Whatever is written, `t` shows it as `s` does. -/
def GoesOn (s t : Display P) : Prop :=
  ∀ cs : List ℤ, Option.Rel Alike (cs.foldlM cgaputc s) (cs.foldlM cgaputc t)

theorem Alike.refl (s : Display P) : s.Alike s := ⟨rfl, rfl, fun _ _ => rfl, rfl⟩

theorem GoesOn.refl (s : Display P) : s.GoesOn s := by
  intro cs
  cases cs.foldlM cgaputc s with
  | none => exact .none
  | some t => exact .some (.refl t)

theorem GoesOn.alike (h : s.GoesOn t) : s.Alike t := by
  cases h [] with
  | some h => exact h

/-! ### A rejected mode -/

/-- The text is in `consbuffer` already, just as it is on the screen. -/
structure Grabbed (s : Display P) : Prop where
  textdisplayed : s.textdisplayed = false
  videobuffer : ∀ k, k < cells → s.videobuffer k = s.crt k
  cursorposition : s.cursorposition = s.cursor.toNat

/-- A mode that is not known changes nothing but the saved text. -/
theorem setmode_rejected (hm : ¬ Known mode) (crt : Text) (cursor : UInt16) :
    (s.setmode mode crt cursor).2 =
      if s.currentVideoMode = 0x03 then s.grabscreentobuffer else s := by
  obtain ⟨h3, h12⟩ := not_or.mp hm
  unfold setmode
  split
  · rename_i h
    rw [if_neg (by rwa [h])]
  · unfold switch
    dsimp only
    rw [if_neg h3, if_neg h12]

/-- Text that was saved is not saved anew. -/
theorem Grabbed.grab_eq (h : s.Grabbed) : s.grabscreentobuffer = s := by
  have hbuf : (fun k => if k < cells then s.crt k else s.videobuffer k) = s.videobuffer := by
    funext k
    split
    · rename_i hk
      exact (h.videobuffer k hk).symm
    · rfl
  rw [grabscreentobuffer, hbuf, ← h.cursorposition, ← h.textdisplayed]

/-- Where the text mode is off or the text is saved, a rejected mode changes nothing. -/
theorem rejected_eq (h : s.currentVideoMode ≠ 0x03 ∨ s.Grabbed) (hm : ¬ Known mode) (crt : Text)
    (cursor : UInt16) : (s.setmode mode crt cursor).2 = s := by
  rw [setmode_rejected hm]
  split
  · rename_i h3
    exact (h.resolve_left (not_not_intro h3)).grab_eq
  · rfl

/-- The modes that are rejected. -/
theorem setmode_returns (s : Display P) (mode : UInt8) (crt : Text) (cursor : UInt16) :
    (s.setmode mode crt cursor).1 = -1 ↔ s.currentVideoMode ≠ mode ∧ ¬ Known mode := by
  unfold setmode
  split
  · rename_i h
    simp [h]
  · rename_i h
    by_cases hk : Known mode
    · simp [hk]
    · simp [hk, h]

/-- **When a rejected mode changes nothing.**  The mode, `textdisplayed` and all that is written
afterwards are as without the call exactly if the mode is known, or the text mode is off, or the
text is in `consbuffer` already, just as it is on the screen. -/
theorem rejected_changes_nothing_iff (s : Display P) (mode : UInt8) (crt : Text)
    (cursor : UInt16) :
    ((s.setmode mode crt cursor).1 = -1 → s.GoesOn (s.setmode mode crt cursor).2) ↔
      Known mode ∨ s.currentVideoMode ≠ 0x03 ∨ s.Grabbed := by
  rw [setmode_returns]
  constructor
  · intro h
    by_contra hno
    obtain ⟨hm, h3, hg⟩ : ¬ Known mode ∧ s.currentVideoMode = 0x03 ∧ ¬ s.Grabbed := by
      simpa only [not_or, ne_eq, not_not] using hno
    have hne : s.currentVideoMode ≠ mode := by
      rintro rfl
      exact hm (.inl h3)
    have ha := (h ⟨hne, hm⟩).alike
    rw [setmode_rejected hm, if_pos h3] at ha
    have htext : s.textdisplayed = false := ha.textdisplayed
    refine hg ⟨htext, fun k hk => ?_, ?_⟩
    · have := ha.text k hk
      simpa [text, htext, grabscreentobuffer, hk] using this
    · have := ha.position
      simpa [position, htext, grabscreentobuffer] using this
  · rintro h ⟨-, hm⟩
    rw [rejected_eq (h.resolve_left hm) hm]
    exact .refl s

/-- At the text screen mode `0x10` is rejected, and no character appears on the screen any more. -/
theorem rejected_hides_output :
    ((blank : Display Unit).setmode 0x10 (fun _ => 0) 0).1 = -1 ∧
    ¬ (blank : Display Unit).GoesOn ((blank : Display Unit).setmode 0x10 (fun _ => 0) 0).2 ∧
    (blank.cgaputc 97).map (fun s : Display Unit => s.crt 0) = some 0x0761 ∧
    (((blank : Display Unit).setmode 0x10 (fun _ => 0) 0).2.cgaputc 97).map
      (fun s : Display Unit => s.crt 0) = some 0 := by
  refine ⟨by decide, fun h => ?_, by decide, by decide⟩
  have := h.alike.textdisplayed
  exact absurd this (by decide)

end Display

end Xv6.Console

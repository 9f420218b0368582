import Mathlib.Data.List.Forall2
import Mathlib.Data.List.GetD
import Mathlib.Data.List.OfFn
import Xv6.Graphics.Hdc

/-!
# Graphics — what the drawing and queuing functions do

* `cstr_strncpy` — the four bytes `AppendArg` copies hold a numeral of up to three digits.
* `appendCommand_spec` — a command is stored at the end of the queue, and its arguments are read
  back as the handle and the capped numbers.
* `LineDraw_ok`, `fillRows_ok` — drawing on a valid handle ends, and changes only the video
  memory.
-/

namespace Xv6

open Lib

/-! ### Indices -/

/-- An index that is accepted is in range. -/
theorem index_eq_ok {n : ℕ} {fault : Int32 → Fault} {i : Int32} {k : Fin n}
    (h : index n fault i = .ok k) : 0 ≤ i ∧ i.toNatClampNeg = k := by
  unfold index at h
  split at h
  · rename_i hi
    cases h
    exact ⟨hi.1, rfl⟩
  · cases h

/-- An index in range is accepted. -/
theorem index_ofNat {n k : ℕ} (fault : Int32 → Fault) (hk : k < n) (hn : n ≤ 2 ^ 31) :
    index n fault (Int32.ofNat k) = .ok ⟨k, hk⟩ := by
  have hlt : k < 2 ^ 31 := Nat.lt_of_lt_of_le hk hn
  have hnat := Int32.toNatClampNeg_ofNat_of_lt hlt
  have h0 : 0 ≤ Int32.ofNat k := (Int32.ofNat_le_iff_le (a := 0) (by decide) hlt).mpr (Nat.zero_le k)
  have hi : 0 ≤ Int32.ofNat k ∧ (Int32.ofNat k).toNatClampNeg < n := ⟨h0, by rw [hnat]; exact hk⟩
  rw [index, dif_pos hi]
  simp only [hnat]

@[simp] theorem hdcAt_ofNat (h : Fin 5) : hdcAt (Int32.ofNat h) = .ok h :=
  index_ofNat _ h.2 (by decide)

theorem hdcAt_eq_ok {i : Int32} {h : Fin 5} (hi : hdcAt i = .ok h) : i = Int32.ofNat h := by
  obtain ⟨h0, hn⟩ := index_eq_ok hi
  rw [← hn, Int32.ofNat_toNatClampNeg i h0]

/-! ### Strings in a command -/

theorem takeWhile_append_zero {t : CStr} (h : 0 ∉ t) (rest : CStr) :
    (t ++ 0 :: rest).takeWhile (· ≠ 0) = t := by
  induction t with
  | nil => rfl
  | cons c cs ih =>
      obtain ⟨hc, hcs⟩ := not_or.mp (List.mem_cons.not.mp h)
      rw [List.cons_append, List.takeWhile_cons_of_pos (by simpa using Ne.symm hc), ih hcs]

/-- An array that starts with `t` and a NUL. -/
theorem ofFn_eq_append_zero {n : ℕ} {f : Fin n → UInt8} {t : CStr} (hn : t.length < n)
    (ht : ∀ (k : ℕ) (hk : k < t.length), f ⟨k, hk.trans hn⟩ = t[k]) (h0 : f ⟨t.length, hn⟩ = 0) :
    ∃ rest, List.ofFn f = t ++ 0 :: rest := by
  refine ⟨(List.ofFn f).drop (t.length + 1), List.ext_getElem (by simp; omega) fun k h₁ h₂ => ?_⟩
  rw [List.getElem_ofFn]
  rcases Nat.lt_trichotomy k t.length with hk | rfl | hk
  · rw [List.getElem_append_left hk, ht k hk]
  · rw [List.getElem_append_right (le_refl _)]
    simpa using h0
  · rw [List.getElem_append_right (by omega), List.getElem_cons, dif_neg (by omega),
      List.getElem_drop, List.getElem_ofFn]
    congr 2
    omega

/-- A string of up to three characters survives `AppendArg`. -/
theorem cstr_strncpy (junk : ArgVal) {t : CStr} (hlen : t.length < sizeofArgument) (h0 : 0 ∉ t) :
    cstr (strncpy junk t sizeofArgument) = .ok t := by
  obtain ⟨rest, hsplit⟩ : ∃ rest, List.ofFn (strncpy junk t sizeofArgument) = t ++ 0 :: rest := by
    refine ofFn_eq_append_zero (hlen.trans (by decide)) (fun k hk => ?_) ?_
    · rw [strncpy, if_pos (hk.trans hlen), List.getD_eq_getElem _ _ hk]
    · rw [strncpy, if_pos hlen, List.getD_eq_default _ _ (le_refl _)]
  have hmem : (0 : UInt8) ∈ t ++ 0 :: rest := List.mem_append_right _ List.mem_cons_self
  simp only [cstr, hsplit, if_pos hmem, takeWhile_append_zero h0]

/-- The string `s` fits the four bytes and reads as `v`. -/
structure Numeral (s : CStr) (v : Int32) : Prop where
  short : s.length < sizeofArgument
  noNul : 0 ∉ s
  value : ParseInt s = v

/-- `ParseChar` writes a numeral. -/
theorem Numeral.ParseChar {n : Int32} (h : 0 ≤ n) (hn : n < 1000) :
    Numeral (ParseChar n) n := by
  obtain ⟨N, hN, rfl⟩ := exists_ofNat h
  have hlt : N < 10 ^ 3 := (Int32.ofNat_lt_iff_lt hN (by decide)).mp hn
  have hlen : GetIntLength (Int32.ofNat N) ≤ 3 := GetIntLength_le hN hlt
  refine ⟨?_, fun hmem => ?_, ParseInt_ParseChar h⟩
  · simp only [Xv6.ParseChar, List.length_map, List.length_range]
    exact Nat.lt_succ_of_le hlen
  · rw [ParseChar_ofNat hN] at hmem
    obtain ⟨x, -, hx⟩ := List.mem_map.mp hmem
    have key : ∀ d : Fin 10, (Int32.ofNat d + 48).toInt8.toUInt8 ≠ 0 := by decide
    exact key ⟨_, Nat.mod_lt _ (by decide)⟩ hx

theorem Numeral.capped (a : CStr) {cap : Int32} (h : 0 ≤ cap) (h' : cap < 1000) :
    Numeral (capped a cap) (ValueCapperChar a cap) :=
  .ParseChar (ValueCapper_nonneg _ _)
    (Int32.lt_of_le_of_lt (ValueCapper_le (a := ParseInt a) h) h')

theorem Numeral.handle (h : Fin 5) : Numeral (Xv6.ParseChar (Int32.ofNat h)) (Int32.ofNat h) :=
  .ParseChar ((show ∀ h : Fin 5, 0 ≤ Int32.ofNat h by decide) h)
    ((show ∀ h : Fin 5, Int32.ofNat h < 1000 by decide) h)

/-! ### Filling a command -/

/-- `AppendArg`, once the buffer is set. -/
theorem AppendArg_next {s : CStr} {tmp : ArgVal} {b : CommandBuffer} {n : ℕ} (hn : n < 20)
    (hset : b.buffset = 1) (hlast : b.lastArgSet = Int32.ofNat n) :
    AppendArg s tmp b = .ok { b with
      args := Function.update b.args ⟨n, hn⟩ (strncpy tmp s sizeofArgument)
      lastArgSet := Int32.ofNat (n + 1) } := by
  have : ¬ b.buffset ≠ 1 := fun h => h hset
  simp only [AppendArg, if_neg this, hlast, index_ofNat _ hn (by decide : 20 ≤ 2 ^ 31),
    Int32.ofNat_add]
  rfl

/-- **A command filled from place `n` on**: what is before stays, and the strings come after. -/
theorem appendArgs_from (junk : ℕ → ArgVal) (ss : List CStr) :
    ∀ (n : ℕ) (b : CommandBuffer), b.buffset = 1 → b.lastArgSet = Int32.ofNat n →
      n + ss.length ≤ 20 →
      ∃ b', appendArgs junk ss b = .ok b' ∧ b'.queuedAction = b.queuedAction ∧
        (∀ k : Fin 20, k.1 < n → b'.args k = b.args k) ∧
        ∀ (k : Fin 20) (s : CStr), n ≤ k.1 → ss[k.1 - n]? = some s →
          b'.args k = strncpy (junk (ss.length - 1 - (k.1 - n))) s sizeofArgument := by
  induction ss with
  | nil =>
      intro n b hset hlast hlen
      exact ⟨b, rfl, rfl, fun _ _ => rfl, fun k s _ hs => by simp at hs⟩
  | cons t ts ih =>
      intro n b hset hlast hlen
      simp only [List.length_cons] at hlen
      have hn : n < 20 := by omega
      obtain ⟨b', hb', hact, hold, hnew⟩ := ih (n + 1) { b with
        args := Function.update b.args ⟨n, hn⟩ (strncpy (junk ts.length) t sizeofArgument)
        lastArgSet := Int32.ofNat (n + 1) } hset rfl (by omega)
      refine ⟨b', ?_, hact, fun k hk => ?_, fun k s hk hs => ?_⟩
      · rw [appendArgs, AppendArg_next hn hset hlast]; exact hb'
      · rw [hold k (by omega)]
        exact Function.update_of_ne (by rintro rfl; exact absurd hk (lt_irrefl _)) _ _
      · rcases Nat.eq_or_lt_of_le hk with rfl | hlt
        · obtain rfl : t = s := by simpa using hs
          rw [hold k (Nat.lt_succ_self _), Nat.sub_self]
          exact Function.update_self ..
        · rw [show k.1 - n = k.1 - (n + 1) + 1 by omega] at hs ⊢
          have hlen' : (t :: ts).length - 1 - (k.1 - (n + 1) + 1) =
              ts.length - 1 - (k.1 - (n + 1)) := by
            simp only [List.length_cons]
            omega
          rw [hlen']
          exact hnew k s hlt (by simpa using hs)

/-- A numeral that was stored is read back. -/
theorem readArg_numeral {args : Fin 20 → ArgVal} {k : Fin 20} {tmp : ArgVal} {s : CStr} {v : Int32}
    (hargs : args k = strncpy tmp s sizeofArgument) (hv : Numeral s v) :
    readArg args k = .ok v := by
  rw [readArg, hargs, cstr_strncpy _ hv.short hv.noNul]
  exact congrArg Except.ok hv.value

/-- The arguments of a command filled from an unset buffer are read back. -/
theorem appendArgs_spec (junk : ℕ → ArgVal) {s : CStr} {ss : List CStr} {b : CommandBuffer} (hset : b.buffset ≠ 1)
    (hlen : ss.length < 20) :
    ∃ b', appendArgs junk (s :: ss) b = .ok b' ∧ b'.queuedAction = b.queuedAction ∧
      ∀ (k : Fin 20) (t : CStr) (v : Int32), (s :: ss)[k.1]? = some t → Numeral t v →
        readArg b'.args k = .ok v := by
  -- the first `AppendArg` sets the buffer, and then does what it does to a set one
  have hfirst : appendArgs junk (s :: ss) b =
      appendArgs junk (s :: ss) { b with lastArgSet := 0, buffset := 1 } := by
    simp only [appendArgs, AppendArg, if_pos hset]
    rfl
  obtain ⟨b', hb', hact, -, hnew⟩ := appendArgs_from junk (s :: ss) 0
    { b with lastArgSet := 0, buffset := 1 } rfl rfl (by simp; omega)
  exact ⟨b', hfirst.trans hb', hact, fun k t v ht hv =>
    readArg_numeral (hnew k t (Nat.zero_le _) ht) hv⟩

/-! ### Storing a command -/

/-- The command calls `action`, and its arguments read as `vs`. -/
structure Decodes (cmd : CommandBuffer) (action : Action) (vs : List Int32) : Prop where
  action : cmd.queuedAction = some action
  args : ∀ (k : Fin 20) (v : Int32), vs[k.1]? = some v → readArg cmd.args k = .ok v

/-- The state with another command queue at `h`, of `n` entries. -/
def Gfx.withQueue (g : Gfx) (h : Fin 5) (queue : Fin 50 → CommandBuffer) (n : ℕ) : Gfx :=
  g.setHdc h { g.hdcObjects h with commandQueue := queue, queueEnd := Int32.ofNat n }

/-- The arguments of a command fit into the queue. -/
theorem exists_fill {junk : Junk} (action : Action) (h : Fin 5) {args : List CStr}
    {vs : List Int32} (hset : junk.commandItemTemp.buffset ≠ 1) (hlen : args.length < 20)
    (hargs : List.Forall₂ Numeral args vs) :
    ∃ cmd, appendArgs junk.tmpArg (ParseChar (Int32.ofNat h) :: args)
        { junk.commandItemTemp with queuedAction := some action } = .ok cmd ∧
      Decodes { cmd with buffset := 0 } action (Int32.ofNat h :: vs) := by
  obtain ⟨cmd, hcmd, hact, hread⟩ := appendArgs_spec junk.tmpArg
    (s := ParseChar (Int32.ofNat h)) (b := { junk.commandItemTemp with queuedAction := some action })
    hset hlen
  refine ⟨cmd, hcmd, hact, fun k v hv => ?_⟩
  have hall := List.Forall₂.cons (Numeral.handle h) hargs
  obtain ⟨hk, rfl⟩ := List.getElem?_eq_some_iff.mp hv
  have hk' : k.1 < (ParseChar (Int32.ofNat h) :: args).length := hall.length_eq ▸ hk
  exact hread k _ _ (List.getElem?_eq_getElem hk') (hall.get hk' hk)

/-- **A command is queued.** -/
theorem appendCommand_spec {junk : Junk} (action : Action) {h : Fin 5} {args : List CStr}
    {vs : List Int32} {g : Gfx} {n : ℕ} (hset : junk.commandItemTemp.buffset ≠ 1)
    (hlen : args.length < 20) (hargs : List.Forall₂ Numeral args vs)
    (hend : (g.hdcObjects h).queueEnd = Int32.ofNat n) (hn : n < 50) :
    ∃ cmd, appendCommand action args junk (Int32.ofNat h) g =
        .ok (g.withQueue h (Function.update (g.hdcObjects h).commandQueue ⟨n, hn⟩ cmd) (n + 1)) ∧
      Decodes cmd action (Int32.ofNat h :: vs) := by
  obtain ⟨cmd, hcmd, hdec⟩ := exists_fill action h hset hlen hargs
  refine ⟨_, ?_, hdec⟩
  simp only [appendCommand, hcmd, bind, Except.bind, hdcAt_ofNat, hend,
    index_ofNat _ hn (by decide : 50 ≤ 2 ^ 31), Gfx.withQueue, Int32.ofNat_add]
  rfl

/-- **A command too many.**  There is no entry for it. -/
theorem appendCommand_full {junk : Junk} {action : Action} {h : Fin 5} {args : List CStr}
    {vs : List Int32} {g : Gfx} (hset : junk.commandItemTemp.buffset ≠ 1)
    (hlen : args.length < 20) (hargs : List.Forall₂ Numeral args vs)
    (hend : (g.hdcObjects h).queueEnd = 50) :
    appendCommand action args junk (Int32.ofNat h) g = .error (.queueIndex 50) := by
  obtain ⟨cmd, hcmd, -⟩ := exists_fill action h hset hlen hargs
  simp only [appendCommand, hcmd, bind, Except.bind, hdcAt_ofNat, hend]
  rfl

/-! ### Queued actions -/

section

variable {args : Fin 20 → ArgVal} {hdc x y : Int32}

theorem PixelSetterFuncQueue_eq (h0 : readArg args 0 = .ok hdc) (h1 : readArg args 1 = .ok x)
    (h2 : readArg args 2 = .ok y) (g : Gfx) :
    PixelSetterFuncQueue args g = PixelSetterFunc hdc x y g := by
  simp only [PixelSetterFuncQueue, h0, h1, h2]
  rfl

/-- `LineDrawFunc` is `LineDraw` from the cursor, and `MovePos`. -/
theorem LineDrawFunc_eq {h : Fin 5} (h0 : readArg args 0 = .ok (Int32.ofNat h))
    (h1 : readArg args 1 = .ok x) (h2 : readArg args 2 = .ok y) (g : Gfx) :
    LineDrawFunc args g =
      (LineDraw (g.hdcObjects h).x (g.hdcObjects h).y x y (Int32.ofNat h) g).bind
        (MovePos (Int32.ofNat h) x y) := by
  simp only [LineDrawFunc, h0, h1, h2, LineDraw, bind, Except.bind, hdcAt_ofNat]
  split
  · split <;> rfl
  · split <;> rfl

theorem MovePosFunc_eq (h0 : readArg args 0 = .ok hdc) (h1 : readArg args 1 = .ok x)
    (h2 : readArg args 2 = .ok y) (g : Gfx) : MovePosFunc args g = MovePos hdc x y g := by
  simp only [MovePosFunc, h0, h1, h2]
  rfl

theorem DrawRect_eq {top left bottom right : Int32} (h0 : readArg args 0 = .ok hdc)
    (h1 : readArg args 1 = .ok top) (h2 : readArg args 2 = .ok left)
    (h3 : readArg args 3 = .ok bottom) (h4 : readArg args 4 = .ok right) (g : Gfx) :
    DrawRect args g = fillRows top left bottom right hdc g := by
  simp only [DrawRect, h0, h1, h2, h3, h4]
  rfl

end

/-! ### Drawing ends -/

section

variable {h : Fin 5} {g : Gfx} {a0 b0 a1 b1 x0 y0 x1 y1 : Int32}

theorem PixelSetterFunc_ok (x y : Int32) :
    ∃ g', PixelSetterFunc (Int32.ofNat h) x y g = .ok g' ∧ g'.hdcObjects = g.hdcObjects := by
  simp only [PixelSetterFunc, hdcAt_ofNat]
  exact ⟨_, rfl, rfl⟩

/-- A plotter whose calls return, returns. -/
theorem incPlotter_ok {plot : Int32 → Int32 → Gfx → Except Fault Gfx}
    (hplot : ∀ a b g, ∃ g', plot a b g = .ok g' ∧ g'.hdcObjects = g.hdcObjects)
    (hmax : a1 < Int32.maxValue) :
    ∃ g', incPlotter plot a0 b0 a1 b1 g = .ok g' ∧ g'.hdcObjects = g.hdcObjects := by
  have hstep : ∀ direc aInc bInc curA (s : Int32 × Int32 × Gfx),
      s.2.2.hdcObjects = g.hdcObjects →
      ∃ t, plotStep plot direc aInc bInc curA s = .ok t ∧ t.2.2.hdcObjects = g.hdcObjects := by
    intro direc aInc bInc curA s hs
    obtain ⟨g', hg', hsame⟩ := hplot curA s.1 s.2.2
    simp only [plotStep, hg']
    exact ⟨_, rfl, hsame.trans hs⟩
  simp only [incPlotter, cFor]
  obtain ⟨⟨b, d, g'⟩, hloop, hg'⟩ := forLE_ok
    (P := fun s : Int32 × Int32 × Gfx => s.2.2.hdcObjects = g.hdcObjects)
    (s := (b0, 2 * SimpleAbs (b1 - b0) - SimpleAbs (a1 - a0), g)) hmax rfl
    fun i s _ hs => hstep (if b0 > b1 then -1 else 1) (SimpleAbs (a1 - a0)) (SimpleAbs (b1 - b0))
      i s hs
  exact ⟨g', by rw [hloop]; rfl, hg'⟩

theorem XIncPlotter_ok (hmax : x1 < Int32.maxValue) :
    ∃ g', XIncPlotter x0 y0 x1 y1 (Int32.ofNat h) g = .ok g' ∧ g'.hdcObjects = g.hdcObjects :=
  incPlotter_ok (fun _ _ _ => PixelSetterFunc_ok _ _) hmax

theorem YIncPlotter_ok (hmax : y1 < Int32.maxValue) :
    ∃ g', YIncPlotter x0 y0 x1 y1 (Int32.ofNat h) g = .ok g' ∧ g'.hdcObjects = g.hdcObjects :=
  incPlotter_ok (fun _ _ _ => PixelSetterFunc_ok _ _) hmax

/-- **A line ends**, and changes only the video memory. -/
theorem LineDraw_ok (hx0 : x0 < Int32.maxValue) (hy0 : y0 < Int32.maxValue)
    (hx1 : x1 < Int32.maxValue) (hy1 : y1 < Int32.maxValue) :
    ∃ g', LineDraw x0 y0 x1 y1 (Int32.ofNat h) g = .ok g' ∧ g'.hdcObjects = g.hdcObjects := by
  simp only [LineDraw]
  split
  · split
    · exact XIncPlotter_ok hx0
    · exact XIncPlotter_ok hx1
  · split
    · exact YIncPlotter_ok hy0
    · exact YIncPlotter_ok hy1

/-- **A rectangle ends**, and changes only the video memory. -/
theorem fillRows_ok {top left right : Int32} (bottom : Int32) (ht : top < Int32.maxValue)
    (hl : left < Int32.maxValue) (hr : right < Int32.maxValue) :
    ∃ g', fillRows top left bottom right (Int32.ofNat h) g = .ok g' ∧
      g'.hdcObjects = g.hdcObjects := by
  refine forLE_ok (P := fun g' : Gfx => g'.hdcObjects = g.hdcObjects) ht rfl fun y g' hy hg' => ?_
  have hy' : y < Int32.maxValue := Int32.lt_of_le_of_lt hy ht
  obtain ⟨g'', hg'', hsame⟩ := LineDraw_ok (h := h) (g := g') hl hy' hr hy'
  exact ⟨g'', hg'', hsame.trans hg'⟩

end

end Xv6

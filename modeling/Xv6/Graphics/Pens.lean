import Xv6.Graphics.Sessions

/-!
# Graphics — pens

A pen is an entry of the palette, written by four bytes to its ports.  `setpencolour` writes it at
once, after a check that the index is none of the system's pens `0..15` and at most 255;
a queued declaration is written by `endpaint`, with the index capped to `0..50` when it was queued
and not checked again.  `selectpen` refuses an index above 255 and takes any other; a queued
selection is capped to `0..50`.

* `syscall_sends` — what a call sends to the palette has six-bit colours, and leaves the system's
  pens alone exactly when the call is no `endpaint` that finds one of them declared in the queue
  it runs.
-/

namespace Xv6.Gfx

open Lib

/-! ### `setpencolour` -/

/-- `sys_setpencolour`: the pens of the system are refused. -/
def sys_setpencolour (index r green b : Int32) (g : Gfx) : Except Fault (Int32 × Gfx) :=
  let r := ValueCapper r 63
  let green := ValueCapper green 63
  let b := ValueCapper b 63
  if index < 16 then .ok (-1, g)
  else if index > 255 then .ok (-1, g)
  else .ok (0, { g with
    dac := g.dac ++ [(0x3C8, index.toInt8.toUInt8), (0x3C9, r.toInt8.toUInt8),
      (0x3C9, green.toInt8.toUInt8), (0x3C9, b.toInt8.toUInt8)] })

/-- The system calls on device contexts, and the one on pens. -/
inductive Syscall where
  | call (c : Call)
  | setpencolour (index r g b : Int32)

/-- A call, or `setpencolour`. -/
def syscall (g : Gfx) : Syscall → Except Fault (Int32 × Gfx)
  | .call c => g.call c
  | .setpencolour index r green b => g.sys_setpencolour index r green b

/-- The handle of a call is valid. -/
def Syscall.Proper : Syscall → Prop
  | .call c => c.Proper
  | .setpencolour .. => True

/-- A proper call, and what it returned. -/
def SyscallSteps (g : Gfx) (e : Syscall × Int32) (g' : Gfx) : Prop :=
  e.1.Proper ∧ g.syscall e.1 = .ok (e.2, g')

variable {g g' : Gfx} {Q : Fin 5 → List Command} {c : Call} {h : Fin 5} {r : Int32}

/-- `setpencolour` changes no handle. -/
theorem setpencolour_same {index red green b : Int32}
    (hcall : g.sys_setpencolour index red green b = .ok (r, g')) :
    g'.hdcObjects = g.hdcObjects := by
  unfold sys_setpencolour at hcall
  simp only at hcall
  split at hcall
  · cases hcall; rfl
  · split at hcall <;> cases hcall <;> rfl

theorem Ready.of_eq (hg : g.Ready Q) (hsame : g'.hdcObjects = g.hdcObjects) : g'.Ready Q where
  cursor := fun h => by rw [OnScreen, hsame]; exact hg.cursor h
  queue := fun h => by rw [hsame]; exact hg.queue h

/-- The slots are ready for some lists of commands. -/
def SlotsReady (g : Gfx) : Prop := ∃ Q, g.Ready Q

/-- No call writes to another's slot. -/
theorem SlotsReady.step {e : Syscall × Int32} (hstep : SyscallSteps g e g') (hg : g.SlotsReady) :
    g'.SlotsReady := by
  obtain ⟨Q, hg⟩ := hg
  obtain ⟨c, r⟩ := e
  obtain ⟨hp, hcall⟩ := hstep
  cases c with
  | call c =>
      rcases call_effect hg hp with ⟨r', g'', Q', hr, he⟩ | hfull
      · rw [show g.call c = .ok (r, g') from hcall] at hr
        cases hr
        exact ⟨Q', he.ready hg⟩
      · rw [show g.call c = .ok (r, g') from hcall] at hfull
        cases hfull.1
  | setpencolour index red green b => exact ⟨Q, hg.of_eq (setpencolour_same hcall)⟩

/-! ### The system's pens -/

/-- Every index sent to the palette is in `16..255`, and every colour has six bits. -/
def PaletteOk (dac : List (UInt16 × UInt8)) : Prop :=
  ∀ out ∈ dac, out.1 = 0x3C8 ∧ 16 ≤ out.2 ∨ out.1 = 0x3C9 ∧ out.2 ≤ 63

/-- Every colour has six bits. -/
def ColoursOk (dac : List (UInt16 × UInt8)) : Prop :=
  ∀ out ∈ dac, out.1 = 0x3C8 ∨ out.1 = 0x3C9 ∧ out.2 ≤ 63

/-- No `endpaint` finds a declaration of a pen below 16 in the queue it runs. -/
def SparesSystem (g : Gfx) : Syscall → Prop
  | .call (.endpaint hdc executeQueue _) => executeQueue = 1 →
      ∀ h, hdcAt hdc = .ok h → ∀ k : Fin 50, Int32.ofNat k < (g.hdcObjects h).queueEnd →
        ((g.hdcObjects h).commandQueue k).queuedAction = some .DeclarePenFunc →
        ∀ v, readArg ((g.hdcObjects h).commandQueue k).args 1 = .ok v → 16 ≤ v
  | .call _ | .setpencolour .. => True

theorem PaletteOk.append {xs ys : List (UInt16 × UInt8)} :
    PaletteOk (xs ++ ys) ↔ PaletteOk xs ∧ PaletteOk ys := List.forall_mem_append

theorem ColoursOk.append {xs ys : List (UInt16 × UInt8)} :
    ColoursOk (xs ++ ys) ↔ ColoursOk xs ∧ ColoursOk ys := List.forall_mem_append

/-- A byte cast of a small number. -/
theorem toUInt8_ofNat {n : ℕ} (hn : n < 256) :
    (Int32.ofNat n).toInt8.toUInt8.toNat = n := by
  rw [Int32.toInt8_ofNat', Int8.toUInt8_ofNat', UInt8.toNat_ofNat_of_lt' hn]

theorem toUInt8_le {v : Int32} {n : ℕ} (hn : n < 256) (h0 : 0 ≤ v) (hv : v ≤ Int32.ofNat n) :
    v.toInt8.toUInt8 ≤ UInt8.ofNat n := by
  obtain ⟨N, hN, rfl⟩ := exists_ofNat h0
  have hle := (Int32.ofNat_le_iff_le hN (by omega)).mp hv
  rw [UInt8.le_iff_toNat_le, toUInt8_ofNat (by omega), UInt8.toNat_ofNat_of_lt' hn]
  exact hle

/-- A capped colour is sent as it is. -/
theorem toUInt8_colour {v : Int32} (hv : 0 ≤ v ∧ v ≤ 63) : v.toInt8.toUInt8 ≤ 63 :=
  toUInt8_le (n := 63) (by decide) hv.1 hv.2

theorem declaration_colours {index red green b : Int32} (hr : 0 ≤ red ∧ red ≤ 63)
    (hg : 0 ≤ green ∧ green ≤ 63) (hb : 0 ≤ b ∧ b ≤ 63) :
    ColoursOk (Command.declaration index red green b) := by
  simp only [ColoursOk, Command.declaration, List.forall_mem_cons, toUInt8_colour hr,
    toUInt8_colour hg, toUInt8_colour hb]
  simp

/-- **A declaration** with its colours capped spares the system's pens exactly when its index is
none of theirs. -/
theorem declaration_ok_iff {index red green b : Int32} (hi : 0 ≤ index ∧ index ≤ 255)
    (hr : 0 ≤ red ∧ red ≤ 63) (hg : 0 ≤ green ∧ green ≤ 63) (hb : 0 ≤ b ∧ b ≤ 63) :
    PaletteOk (Command.declaration index red green b) ↔ 16 ≤ index := by
  obtain ⟨N, hN, rfl⟩ := exists_ofNat hi.1
  have hle : N ≤ 255 := (Int32.ofNat_le_iff_le hN (by decide)).mp hi.2
  have hidx : 16 ≤ (Int32.ofNat N).toInt8.toUInt8 ↔ 16 ≤ Int32.ofNat N := by
    rw [UInt8.le_iff_toNat_le, toUInt8_ofNat (by omega)]
    exact (Int32.ofNat_le_iff_le (a := 16) (by decide) hN).symm
  simp only [PaletteOk, Command.declaration, List.forall_mem_cons, true_and,
    toUInt8_colour hr, toUInt8_colour hg, toUInt8_colour hb, hidx]
  simp

/-- A command leaves the system pens, unless it declares one. -/
theorem ports_ok_iff {cmd : Command} (hcap : cmd.Capped) : PaletteOk cmd.ports ↔
    ∀ index red green b, cmd = .declarePen index red green b → 16 ≤ index := by
  cases cmd with
  | declarePen index red green b =>
      have hi : 0 ≤ index ∧ index ≤ 255 := ⟨hcap.1.1, Int32.le_trans hcap.1.2 (by decide)⟩
      rw [Command.ports, declaration_ok_iff hi hcap.2.1 hcap.2.2.1 hcap.2.2.2]
      refine ⟨fun h16 _ _ _ _ he => ?_, fun hall => hall _ _ _ _ rfl⟩
      cases he
      exact h16
  | pixel x y | line x y | move x y | getPen index | rect top left bottom right =>
      exact iff_of_true (fun out hout => by cases hout) fun _ _ _ _ he => by cases he

theorem ports_colours {cmd : Command} (hcap : cmd.Capped) : ColoursOk cmd.ports := by
  cases cmd with
  | declarePen index red green b =>
      exact declaration_colours hcap.2.1 hcap.2.2.1 hcap.2.2.2
  | pixel x y | line x y | move x y | getPen index | rect top left bottom right =>
      exact fun out hout => by cases hout

/-- The condition on the entries of the queue is one on the commands it holds. -/
theorem sparesSystem_iff {cs : List Command} {queue : Fin 50 → CommandBuffer}
    (hd : (g.hdcObjects h).Holds h cs) :
    SparesSystem g (.call (.endpaint (Int32.ofNat h) 1 queue)) ↔
      PaletteOk (cs.flatMap Command.ports) := by
  have hflat : PaletteOk (cs.flatMap Command.ports) ↔ ∀ cmd ∈ cs, PaletteOk cmd.ports := by
    simp only [PaletteOk, List.mem_flatMap, forall_exists_index, and_imp]
    exact ⟨fun hall cmd hc out ho => hall out cmd hc ho, fun hall out cmd hc ho => hall cmd hc out ho⟩
  have hfits := hd.fits
  rw [hflat]
  constructor
  · intro hsp cmd hcmd
    rw [ports_ok_iff (hd.capped cmd hcmd)]
    rintro index red green b rfl
    obtain ⟨k, hk, hget⟩ := List.mem_iff_getElem.mp hcmd
    have hst := hd.entry ⟨k, by omega⟩ _ (List.getElem?_eq_some_iff.mpr ⟨hk, hget⟩)
    refine hsp rfl h (hdcAt_ofNat h) ⟨k, by omega⟩ ?_ hst.action index (hst.args 1 _ rfl)
    rw [hd.last]
    exact (Int32.ofNat_lt_iff_lt (by omega) (by omega)).mpr hk
  · intro hall _ h' hh' k hk hact v hv
    obtain rfl : h = h' := Except.ok.inj ((hdcAt_ofNat h).symm.trans hh')
    rw [hd.last] at hk
    have hk := (Int32.ofNat_lt_iff_lt (by omega) (by omega)).mp hk
    have hst := hd.entry k _ (List.getElem?_eq_getElem hk)
    have hok := (ports_ok_iff (hd.capped _ (List.getElem_mem hk))).mp (hall _ (List.getElem_mem hk))
    -- an entry that calls `DeclarePenFunc` is a declaration
    have hact' : (cs[k.1]).action = .DeclarePenFunc :=
      Option.some.inj (hst.action.symm.trans hact)
    cases hcmd : cs[k.1] with
    | declarePen index red green b =>
        rw [hcmd] at hst
        obtain rfl : index = v := Except.ok.inj ((hst.args 1 _ rfl).symm.trans hv)
        exact hok index red green b hcmd
    | pixel x y | line x y | move x y | getPen index | rect top left bottom right =>
        rw [hcmd] at hact'
        cases hact'

/-- Of these calls only `endpaint` writes to the ports. -/
theorem Effect.dac {Q' : Fin 5 → List Command} (he : Effect g Q c r g' Q')
    (hc : ∀ hdc executeQueue queue, c ≠ .endpaint hdc executeQueue queue) : g'.dac = g.dac := by
  cases he with
  | draw handle command keeps dac => exact dac
  | queue handle command room holds => rfl
  | begin free => rfl
  | full taken => rfl
  | release init run keeps => exact absurd rfl (hc _ _ _)
  | untaken init run keeps => exact absurd rfl (hc _ _ _)

/-- The call sends `ps` to the palette: six-bit colours, and outside the system's pens exactly
under the condition. -/
structure Sends (g : Gfx) (c : Syscall) (ps : List (UInt16 × UInt8)) (g' : Gfx) : Prop where
  dac : g'.dac = g.dac ++ ps
  colours : ColoursOk ps
  palette : PaletteOk ps ↔ SparesSystem g c

/-- A call that sends nothing. -/
theorem Sends.nothing {c : Syscall} (hdac : g'.dac = g.dac) (hs : SparesSystem g c) :
    g.Sends c [] g' where
  dac := hdac.trans (List.append_nil _).symm
  colours := fun out hout => by cases hout
  palette := iff_of_true (fun out hout => by cases hout) hs

/-- What `setpencolour` writes to the ports. -/
theorem setpencolour_sends {index red green b : Int32}
    (hcall : g.sys_setpencolour index red green b = .ok (r, g')) :
    ∃ ps, g.Sends (.setpencolour index red green b) ps g' := by
  have hcap : ∀ v : Int32, 0 ≤ ValueCapper v 63 ∧ ValueCapper v 63 ≤ 63 := fun v =>
    ⟨ValueCapper_nonneg _ _, ValueCapper_le (by decide)⟩
  unfold sys_setpencolour at hcall
  simp only at hcall
  split at hcall
  · cases hcall; exact ⟨[], .nothing rfl trivial⟩
  · rename_i h16
    split at hcall
    · cases hcall; exact ⟨[], .nothing rfl trivial⟩
    · rename_i h255
      cases hcall
      have hi : 0 ≤ index ∧ index ≤ 255 :=
        ⟨Int32.le_trans (by decide) (Int32.not_lt.mp h16), Int32.not_lt.mp h255⟩
      refine ⟨Command.declaration index (ValueCapper red 63) (ValueCapper green 63)
        (ValueCapper b 63), rfl, declaration_colours (hcap red) (hcap green) (hcap b),
        iff_of_true ?_ trivial⟩
      exact (declaration_ok_iff hi (hcap red) (hcap green) (hcap b)).mpr (Int32.not_lt.mp h16)

/-- What `endpaint` writes to the ports: what its queue does. -/
theorem endpaint_sends {executeQueue : Int32} {queue : Fin 50 → CommandBuffer} (hg : g.Ready Q)
    (hcall : g.sys_endpaint (Int32.ofNat h) executeQueue queue = .ok (r, g')) :
    ∃ ps, g.Sends (.call (.endpaint (Int32.ofNat h) executeQueue queue)) ps g' := by
  obtain ⟨g₁, hran, -, hend⟩ := endpaint_effect (h := h) hg executeQueue queue
  have hdac : g'.dac = g₁.dac := by
    rw [hend] at hcall
    split at hcall <;> cases hcall <;> rfl
  rw [ran] at hran
  by_cases hexec : executeQueue = 1
  · subst hexec
    rw [if_pos rfl] at hran
    obtain ⟨g₂, hg₂, -, hdac₂, -⟩ := Command.performAll_ok (Q h) g (hg.queue h).capped (hg.cursor h)
    rw [hran] at hg₂
    cases hg₂
    refine ⟨(Q h).flatMap Command.ports, hdac.trans hdac₂, fun out hout => ?_,
      (sparesSystem_iff (hg.queue h)).symm⟩
    obtain ⟨cmd, hcmd, hout⟩ := List.mem_flatMap.mp hout
    exact ports_colours ((hg.queue h).capped cmd hcmd) out hout
  · rw [if_neg hexec] at hran
    cases hran
    exact ⟨[], .nothing hdac fun he => absurd he hexec⟩

/-- **One call.** -/
theorem syscall_sends {e : Syscall × Int32} (hstep : SyscallSteps g e g') (hg : g.SlotsReady) :
    ∃ ps, g.Sends e.1 ps g' := by
  obtain ⟨Q, hg⟩ := hg
  obtain ⟨c, r⟩ := e
  obtain ⟨hp, hcall⟩ := hstep
  cases c with
  | setpencolour index red green b => exact setpencolour_sends hcall
  | call c =>
      have hcall : g.call c = .ok (r, g') := hcall
      have hother : (∀ hdc executeQueue queue, c ≠ .endpaint hdc executeQueue queue) →
          g'.dac = g.dac := by
        intro hc
        rcases call_effect hg hp with ⟨r', g'', Q', hr, he⟩ | hfull
        · rw [hcall] at hr
          cases hr
          exact he.dac hc
        · rw [hcall] at hfull
          cases hfull.1
      cases c with
      | endpaint hdc executeQueue queue =>
          obtain ⟨h, rfl⟩ := hdcAt_of_valid (hp.1 hdc rfl)
          exact endpaint_sends hg hcall
      | setpixel hdc x y | moveto hdc x y | lineto hdc x y | selectpen hdc index
      | fillrect hdc rect | beginpaint queue | getHDC hdc | writeQueue hdc opType set junk =>
          exact ⟨[], .nothing (hother (by intros; exact Call.noConfusion)) trivial⟩

/-- The palette is left alone before and by the call. -/
theorem palette_step {e : Syscall × Int32} (hstep : SyscallSteps g e g') (hg : g.SlotsReady) :
    PaletteOk g'.dac ↔ PaletteOk g.dac ∧ SparesSystem g e.1 := by
  obtain ⟨ps, hs⟩ := syscall_sends hstep hg
  rw [hs.dac, PaletteOk.append, hs.palette]

theorem colours_step {e : Syscall × Int32} (hstep : SyscallSteps g e g') (hg : g.SlotsReady)
    (hc : ColoursOk g.dac) : ColoursOk g'.dac := by
  obtain ⟨ps, hs⟩ := syscall_sends hstep hg
  rw [hs.dac, ColoursOk.append]
  exact ⟨hc, hs.colours⟩

end Xv6.Gfx

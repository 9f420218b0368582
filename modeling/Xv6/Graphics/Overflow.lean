import Xv6.Graphics.Pens

/-!
# Graphics — the command with no entry

No `Append` function looks whether the queue is full: a command for a full queue is stored at
`commandQueue[50]`.  In memory a `struct hdc` is `init`, `x`, `y` and `penIndex`, the fifty
`struct commandBuffer`s of 2012 bytes, and `queueEnd`; the slots follow one another.  So the
pointer of the command falls on `queueEnd`, the first sixteen bytes of its first argument on the
four numbers of the next slot, and the rest on the first entry of the next slot's queue.

`spill` is that store, and `syscallFlat` the system calls with it.  Behind the last slot is memory
the model does not have.

* `syscallFlat_eq` — with room in the queue these are the system calls.
-/

namespace Xv6

open Lib

/-! ### A command in memory -/

/-- Byte `i` of a word, from the low end. -/
def leByte (w : UInt32) (i : ℕ) : UInt8 := UInt8.ofNat (w.toNat / 256 ^ i)

section

-- the addresses of the actions, and what a pointer that was never set holds
variable (code : Option Action → UInt32)

/-- Byte `i` of a `struct commandBuffer`: the pointer, the twenty arguments, the two counters. -/
def CommandBuffer.byte (cmd : CommandBuffer) (i : ℕ) : UInt8 :=
  if i < 4 then leByte (code cmd.queuedAction) i
  else if h : i < 2004 then
    cmd.args ⟨(i - 4) / 100, by omega⟩ ⟨(i - 4) % 100, Nat.mod_lt _ (by decide)⟩
  else if i < 2008 then leByte cmd.lastArgSet.toUInt32 (i - 2004)
  else leByte cmd.buffset.toUInt32 (i - 2008)

/-- The `int` at byte `i`. -/
def CommandBuffer.word (cmd : CommandBuffer) (i : ℕ) : Int32 :=
  Int32.ofNat ((cmd.byte code i).toNat + 256 * ((cmd.byte code (i + 1)).toNat +
    256 * ((cmd.byte code (i + 2)).toNat + 256 * (cmd.byte code (i + 3)).toNat)))

/-- The action at an address, if there is one. -/
def actionAt (address : UInt32) : Option Action :=
  [Action.PixelSetterFuncQueue, .LineDrawFunc, .MovePosFunc, .DeclarePenFunc, .GetPenFunc,
    .DrawRect].find? fun a => code (some a) = address

/-- The start of `entry` overwritten by the bytes of `cmd` from its byte 20 on. -/
def CommandBuffer.overlay (cmd entry : CommandBuffer) : CommandBuffer :=
  { entry with
    queuedAction := actionAt code (cmd.word code 20).toUInt32
    args := fun k j =>
      if 24 + 100 * k.1 + j.1 < 2012 then cmd.byte code (24 + 100 * k.1 + j.1) else entry.args k j }

/-- `commandQueue[50] = cmd` on slot `h`, with slot `n` behind it, and `queueEnd++`. -/
def Gfx.spill (h n : Fin 5) (cmd : CommandBuffer) (g : Gfx) : Gfx :=
  let d := g.hdcObjects h
  let e := g.hdcObjects n
  (g.setHdc h { d with queueEnd := cmd.word code 0 + 1 }).setHdc n
    { init := cmd.word code 4
      x := cmd.word code 8
      y := cmd.word code 12
      penIndex := cmd.word code 16
      commandQueue := Function.update e.commandQueue 0 (cmd.overlay code (e.commandQueue 0))
      queueEnd := e.queueEnd }

end

/-! ### The system calls, with it -/

namespace Gfx

/-- The action and the strings that `writeQueue` passes on for an operation. -/
def appended (opType : Int32) (set : ArgsSet) : Option (Action × List CStr) :=
  if opType = 0 then some (.PixelSetterFuncQueue, [capped set.arg0 319, capped set.arg1 199])
  else if opType = 1 then some (.LineDrawFunc, [capped set.arg0 319, capped set.arg1 199])
  else if opType = 2 then some (.MovePosFunc, [capped set.arg0 319, capped set.arg1 199])
  else if opType = 3 then some (.DeclarePenFunc,
    [capped set.arg0 50, capped set.arg1 63, capped set.arg2 63, capped set.arg3 63])
  else if opType = 4 then some (.GetPenFunc, [capped set.arg0 50])
  else if opType = 5 then some (.DrawRect,
    [capped set.arg0 199, capped set.arg3 319, capped set.arg1 199, capped set.arg2 319])
  else none

/-- `writeQueue`, with the command for a full queue stored behind it. -/
def sys_writeQueueFlat (code : Option Action → UInt32) (hdc opType : Int32) (set : ArgsSet)
    (junk : Junk) (g : Gfx) : Except Fault (Int32 × Gfx) :=
  match appended opType set, hdcAt hdc with
  | some (action, args), .ok h =>
      if (g.hdcObjects h).queueEnd = 50 then
        if hn : h.1 + 1 < 5 then do
          let cmd ← appendArgs junk.tmpArg (ParseChar hdc :: args)
            { junk.commandItemTemp with queuedAction := some action }
          return (1, g.spill code h ⟨h.1 + 1, hn⟩ { cmd with buffset := 0 })
        else .error (.queueIndex 50)
      else g.sys_writeQueue hdc opType set junk
  | some _, .error _ => g.sys_writeQueue hdc opType set junk
  | none, _ => g.sys_writeQueue hdc opType set junk

/-- A call, where a store behind the array reaches what follows it. -/
def syscallFlat (code : Option Action → UInt32) (g : Gfx) : Syscall → Except Fault (Int32 × Gfx)
  | .call (.writeQueue hdc opType set junk) => g.sys_writeQueueFlat code hdc opType set junk
  | .call (.setpixel hdc x y) => g.call (.setpixel hdc x y)
  | .call (.moveto hdc x y) => g.call (.moveto hdc x y)
  | .call (.lineto hdc nx ny) => g.call (.lineto hdc nx ny)
  | .call (.selectpen hdc index) => g.call (.selectpen hdc index)
  | .call (.fillrect hdc r) => g.call (.fillrect hdc r)
  | .call (.beginpaint queue) => g.call (.beginpaint queue)
  | .call (.endpaint hdc executeQueue queue) => g.call (.endpaint hdc executeQueue queue)
  | .call (.getHDC hdc) => g.call (.getHDC hdc)
  | .setpencolour index r green b => g.sys_setpencolour index r green b

variable {code : Option Action → UInt32} {g : Gfx}

/-- The command is the one that `writeQueue` stores. -/
theorem sys_writeQueue_appended {opType : Int32} {set : ArgsSet} {action : Action}
    {args : List CStr} (happ : appended opType set = some (action, args)) (hdc : Int32)
    (junk : Junk) (g : Gfx) : g.sys_writeQueue hdc opType set junk =
      (appendCommand action args junk hdc g).map fun g => (1, g) := by
  unfold appended at happ
  repeat' split at happ
  all_goals subst_vars; cases happ
  all_goals exact bind_return 1

/-- The call does not store behind a full queue. -/
def RoomFor (g : Gfx) : Syscall → Prop
  | .call (.writeQueue hdc _ _ _) => g.HasRoom hdc
  | .call _ | .setpencolour .. => True

/-- **With room, nothing spills.** -/
theorem syscallFlat_eq {c : Syscall} (hroom : g.RoomFor c) : g.syscallFlat code c = g.syscall c := by
  cases c with
  | setpencolour index r green b => rfl
  | call c =>
      cases c with
      | writeQueue hdc opType set junk =>
          show g.sys_writeQueueFlat code hdc opType set junk = g.sys_writeQueue hdc opType set junk
          unfold sys_writeQueueFlat
          cases appended opType set with
          | none => rfl
          | some app =>
              cases hat : hdcAt hdc with
              | error e => rfl
              | ok h => exact if_neg (hroom h hat)
      | setpixel hdc x y | moveto hdc x y | lineto hdc x y | selectpen hdc index
      | fillrect hdc rect | beginpaint queue | getHDC hdc | endpaint hdc e queue => rfl

/-- The first argument of a command is the handle, as text. -/
theorem appendArgs_first {junk : ℕ → ArgVal} {s : CStr} {ss : List CStr} {b cmd : CommandBuffer}
    (hset : b.buffset ≠ 1) (hlen : ss.length < 20) (hcmd : appendArgs junk (s :: ss) b = .ok cmd) :
    cmd.args 0 = strncpy (junk ss.length) s sizeofArgument := by
  obtain ⟨b', hb', -, hold, -⟩ := appendArgs_from junk ss 1
    { b with
      args := Function.update b.args 0 (strncpy (junk ss.length) s sizeofArgument)
      lastArgSet := 1, buffset := 1 } rfl rfl (by omega)
  have hfirst : appendArgs junk (s :: ss) b = .ok b' := by
    refine Eq.trans ?_ hb'
    simp only [appendArgs, AppendArg, if_pos hset]
    rfl
  cases hfirst.symm.trans hcmd
  exact (hold 0 (by decide)).trans (Function.update_self 0 _ b.args)

/-- The word in which the handle is stored. -/
theorem word_handle {cmd : CommandBuffer} {tmp : ArgVal} {h : Fin 5}
    (hargs : cmd.args 0 = strncpy tmp (ParseChar (Int32.ofNat h)) sizeofArgument) :
    cmd.word code 4 = Int32.ofNat (48 + h) := by
  have hbyte : ∀ i : Fin 4, cmd.byte code (4 + i) = (ParseChar (Int32.ofNat h)).getD i 0 := by
    intro i
    have hi : (4 + i.1 - 4) / 100 = 0 ∧ (4 + i.1 - 4) % 100 = i.1 := by omega
    simp only [CommandBuffer.byte, show ¬ 4 + i.1 < 4 by omega, if_false,
      show 4 + i.1 < 2004 by omega, dif_pos, hi]
    show cmd.args 0 ⟨i.1, _⟩ = _
    rw [hargs, strncpy, if_pos (show i.1 < sizeofArgument from i.2)]
  rw [CommandBuffer.word, show cmd.byte code 4 = _ from hbyte 0,
    show cmd.byte code (4 + 1) = _ from hbyte 1, show cmd.byte code (4 + 2) = _ from hbyte 2,
    show cmd.byte code (4 + 3) = _ from hbyte 3]
  clear hbyte hargs
  revert h
  decide

/-- **One command too many** marks the next slot with the digit of the handle, so that it is
neither free nor taken. -/
theorem spill_init {h : Fin 5} (hn : h.1 + 1 < 5) {opType : Int32} {set : ArgsSet} {junk : Junk}
    (hop : queues opType) (hset : junk.commandItemTemp.buffset ≠ 1)
    (hfull : (g.hdcObjects h).queueEnd = 50) :
    ∃ g', g.syscallFlat code (.call (.writeQueue (Int32.ofNat h) opType set junk)) = .ok (1, g') ∧
      (g'.hdcObjects ⟨h.1 + 1, hn⟩).init = Int32.ofNat (48 + h) := by
  obtain ⟨action, args, happ, hlen⟩ : ∃ action args,
      appended opType set = some (action, args) ∧ args.length < 20 := by
    rcases queues_cases hop with rfl | rfl | rfl | rfl | rfl | rfl <;>
      exact ⟨_, _, rfl, by simp⟩
  obtain ⟨cmd, hcmd, -⟩ := appendArgs_spec junk.tmpArg (s := ParseChar (Int32.ofNat h))
    (b := { junk.commandItemTemp with queuedAction := some action }) hset hlen
  refine ⟨g.spill code h ⟨h.1 + 1, hn⟩ { cmd with buffset := 0 }, ?_, ?_⟩
  · simp only [syscallFlat, sys_writeQueueFlat, happ, hdcAt_ofNat, if_pos hfull,
      dif_pos hn, hcmd]
    rfl
  · simp only [spill, setHdc, Function.update_self]
    have hfirst := appendArgs_first (b := { junk.commandItemTemp with queuedAction := some action })
      hset hlen hcmd
    exact @word_handle code { cmd with buffset := 0 } _ h hfirst

end Gfx

end Xv6

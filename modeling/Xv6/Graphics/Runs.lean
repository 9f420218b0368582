import Xv6.Graphics.Pens
import Xv6.Graphics.Screen
import Xv6.Graphics.Strings

/-!
# Graphics — runs over user memory

Runs of the graphics calls in which each `writeQueue` has a process, its memory and its stack of its
own: nothing is assumed of what the process does between two calls.  `Call.value` is the call of the
device model on the strings that `writeQueue` finds; a run whose calls keep their strings is a run
of the device model (`Run.value`).

A call is `Clean` if it names a valid handle, keeps its strings, finds its temporary `commandBuffer`
unset and queues no command on a full queue.

* `queued_exactly_once` — in a run of clean calls `endpaint` runs what was queued in its session, each
  command once, in order and with the numbers capped when it was queued.
* `stores_confined` — in such a run every store is on the screen.
* `palette_writes` — the colours written to the palette have six bits, and the system's pens are
  written by executed declarations only.
-/

namespace Xv6.User

open Lib

/-! ### Calls -/

/-- A graphics call; `writeQueue` finds its arguments in memory. -/
inductive Call where
  | direct (c : Gfx.Call) (hc : ∀ hdc opType set junk, c ≠ .writeQueue hdc opType set junk)
  | writeQueue (p : Proc) (locals : Locals) (m : Mem)

/-- A call, by its values or over the memory of the process. -/
def call (g : Gfx) : Call → Except Trap (Int32 × Gfx)
  | .direct c _ => (g.call c).mapError Trap.fault
  | .writeQueue p locals m => (sys_writeQueue p locals m g).map fun r => (r.1, r.2.2)

/-- The device model's call. -/
def Call.value : Call → Gfx.Call
  | .direct c _ => c
  | .writeQueue p locals m =>
      .writeQueue (hdcOf p locals m) (opOf p locals m) (setTexts p locals m) locals.junk

/-- The strings of the call are legible. -/
def Call.Kept : Call → Prop
  | .direct .. => True
  | .writeQueue p locals m => User.Kept p locals m

/-- A call on a valid handle that keeps its strings, and queues nothing on a full queue. -/
structure Clean (g : Gfx) (c : Call) : Prop where
  proper : c.value.Proper
  kept : c.Kept
  room : ∀ h : Fin 5, c.value.handle = some (Int32.ofNat h) → c.value.command ≠ none →
    (g.hdcObjects h).queueEnd ≠ 50

/-- A clean call, and what it returned. -/
def CleanSteps (g : Gfx) (e : Call × Int32) (g' : Gfx) : Prop :=
  Clean g e.1 ∧ call g e.1 = .ok (e.2, g')

variable {g g' : Gfx} {c : Call} {r : Int32} {h : Fin 5} {pixMem : UInt16 → UInt8}
  {es : List (Call × Int32)}

/-- **A call that keeps its strings** is the device model's call. -/
theorem call_value (hk : c.Kept) : call g c = (g.call c.value).mapError Trap.fault := by
  cases c with
  | direct c hc => rfl
  | writeQueue p locals m => exact writeQueue_kept hk

/-- A call and what it returned, in the device model. -/
def valueStep (e : Call × Int32) : Gfx.Call × Int32 := (e.1.value, e.2)

theorem CleanSteps.value {e : Call × Int32} (h : CleanSteps g e g') :
    Gfx.ProperSteps g (valueStep e) g' := by
  have hcall := h.2
  rw [call_value h.1.kept] at hcall
  exact ⟨h.1.proper, mapError_eq_ok.mp hcall⟩

/-- The commands queued on `h` since `beginpaint` last returned it, with their numbers capped. -/
def queuedSince (es : List (Call × Int32)) (h : Fin 5) : List Command :=
  Gfx.queuedSince (es.map valueStep) h

/-- **A run of clean calls** keeps the sessions of the device model. -/
theorem run_sessions (hrun : Run CleanSteps (.boot pixMem) es g) :
    Gfx.Sessions (es.map valueStep) g :=
  Gfx.run_sessions (hrun.map valueStep fun _ _ _ => CleanSteps.value)

theorem run_ready (hrun : Run CleanSteps (.boot pixMem) es g) : ∃ Q, g.Ready Q := by
  obtain ⟨Q, hg, -⟩ := run_sessions hrun
  exact ⟨Q, hg⟩

theorem Clean.returns {Q : Fin 5 → List Command} (hc : Clean g c) (hg : g.Ready Q) :
    ∃ r g', call g c = .ok (r, g') := by
  obtain ⟨r, g', hr⟩ := hg.returns hc.proper hc.room
  exact ⟨r, g', by rw [call_value hc.kept, hr]; rfl⟩

/-! ### Other slots -/

/-- Queueing a command changes one handle only. -/
theorem append_isolated {sz : ℕ} {action : Action} {ptrs : List (ℕ × Int32)} {stored : List ℕ}
    {junk : Junk} {m m' : Mem} (hcall : append sz action ptrs stored junk (Int32.ofNat h) m g =
      .ok (m', g')) {j : Fin 5} (hj : j ≠ h) : g'.hdcObjects j = g.hdcObjects j := by
  obtain ⟨m₁, -, hcall⟩ := bind_eq_ok.mp hcall
  obtain ⟨strs, -, hcall⟩ := bind_eq_ok.mp hcall
  obtain ⟨g₁, hg₁, hcall⟩ := bind_eq_ok.mp hcall
  cases hcall
  obtain ⟨cmd, -, hg₁⟩ := bind_eq_ok.mp (mapError_eq_ok.mp hg₁)
  obtain ⟨i, hi, hg₁⟩ := bind_eq_ok.mp hg₁
  obtain rfl : h = i := Except.ok.inj ((hdcAt_ofNat h).symm.trans hi)
  obtain ⟨k, -, hg₁⟩ := bind_eq_ok.mp hg₁
  cases hg₁
  simp [Gfx.setHdc, hj]

/-- A call that names a handle leaves the other slots alone, whatever its strings are. -/
theorem call_isolated {Q : Fin 5 → List Command} (hg : g.Ready Q)
    (handle : c.value.handle = some (Int32.ofNat h)) (hcall : call g c = .ok (r, g')) {j : Fin 5}
    (hj : j ≠ h) : g'.hdcObjects j = g.hdcObjects j := by
  cases c with
  | direct c hc =>
      refine hg.isolated ⟨fun i hi => ?_, fun _ _ _ _ he => absurd he (hc _ _ _ _)⟩ handle
        (mapError_eq_ok.mp hcall) hj
      obtain rfl := Option.some.inj (handle.symm.trans hi)
      exact Gfx.valid_ofNat h
  | writeQueue p locals m =>
      have hhdc : (argint p m 0).getD locals.hdc = Int32.ofNat h := Option.some.inj handle
      cases hret : sys_writeQueue p locals m g with
      | error e => rw [call, hret] at hcall; cases hcall
      | ok out =>
          rw [call, hret] at hcall
          cases hcall
          cases hop : operation (opOf p locals m) with
          | none =>
              rw [opOf] at hop
              simp only [sys_writeQueue, hop] at hret
              cases hret
              rfl
          | some o =>
              obtain ⟨action, caps, order⟩ := o
              rw [writeQueue_reads hop, hhdc] at hret
              obtain ⟨args, -, hret⟩ := bind_eq_ok.mp hret
              obtain ⟨out', happ, hret⟩ := bind_eq_ok.mp hret
              cases hret
              exact append_isolated happ hj

/-! ### Sessions -/

/-- **Exactly once, in order, in isolation.**  After any clean calls, `endpaint` on a taken handle
runs the commands queued on it since `beginpaint` returned it, with the numbers capped when they
were queued, and releases it; no call that names a handle changes another slot; and every clean
call returns. -/
theorem queued_exactly_once (pixMem : UInt16 → UInt8) (es : List (Call × Int32)) (g : Gfx)
    (hrun : Run CleanSteps (.boot pixMem) es g) :
    (∀ (h : Fin 5) (queue : Fin 50 → CommandBuffer), (g.hdcObjects h).init = 1 →
      ∃ g₁, Command.performAll h (queuedSince es h) g = .ok g₁ ∧
        g.call (.endpaint (Int32.ofNat h) 1 queue) =
          .ok (0, g₁.setHdc h ⟨0, 0, 0, 15, queue, 0⟩)) ∧
    (∀ (c : Call) (r : Int32) (g' : Gfx) (h j : Fin 5),
      c.value.handle = some (Int32.ofNat h) → call g c = .ok (r, g') → j ≠ h →
      g'.hdcObjects j = g.hdcObjects j) ∧
    ∀ c : Call, Clean g c → ∃ r g', call g c = .ok (r, g') := by
  obtain ⟨Q, hg⟩ := run_ready hrun
  refine ⟨fun h queue hinit => (run_sessions hrun).endpaint queue hinit,
    fun c r g' h j handle hcall hj => call_isolated hg handle hcall hj,
    fun c hc => hc.returns hg⟩

/-- A process of 100 bytes whose stack passes `writeQueue` a handle, an operation and a set at 16,
with one-letter strings at 64 and at `b`. -/
def stack (hdc op : UInt8) (b : ℕ) (x y : UInt8) : Mem := fun a =>
  if a = 4 then hdc else if a = 8 then op else if a = 12 then 16 else if a = 16 then 64
  else if a = 20 then UInt8.ofNat b else if a = 64 then x else if a = b then y else 0

/-- A process of 100 bytes. -/
def small : Proc := ⟨100, 0, by decide⟩

/-- Locals that are all 0. -/
def clear : Locals := ⟨0, 0, 0, ⟨.zero, fun _ _ => 0⟩⟩

/-- `beginpaint`. -/
def begins : Call := .direct (.beginpaint fun _ => .zero) fun _ _ _ _ => Gfx.Call.noConfusion

theorem begins_proper : begins.value.Proper :=
  ⟨fun i hi => (by cases hi), fun _ _ _ _ hc => by cases hc⟩

theorem writeQueue_proper {m : Mem} (h : Fin 5) (hhdc : hdcOf small clear m = Int32.ofNat h) :
    (Call.writeQueue small clear m).value.Proper := by
  refine ⟨fun i hi => ?_, fun _ _ _ _ hc => by cases hc; decide⟩
  obtain rfl : hdcOf small clear m = i := Option.some.inj hi
  rw [hhdc]
  exact Gfx.valid_ofNat h

/-- **Strings that touch.**  `a`, at 64, is capped to `49`, whose NUL falls on the string at 66, which
is then printed as `0`: the pixel that was capped to `(49, 0)` is painted at `(490, 0)`. -/
theorem adjacent_strings_merge :
    ¬ ∀ (pixMem : UInt16 → UInt8) (es : List (Call × Int32)) (g : Gfx),
      Run (fun g e g' => e.1.value.Proper ∧ call g e.1 = .ok (e.2, g')) (.boot pixMem) es g →
      es.length ≤ 50 → ∀ (h : Fin 5) (queue : Fin 50 → CommandBuffer), (g.hdcObjects h).init = 1 →
        ∃ g₁, Command.performAll h (queuedSince es h) g = .ok g₁ ∧
          g.call (.endpaint (Int32.ofNat h) 1 queue) =
            .ok (0, g₁.setHdc h ⟨0, 0, 0, 15, queue, 0⟩) := by
  intro hall
  obtain ⟨g, hrun, hinit, hpix, g', hend, h490⟩ : ∃ g,
      Run (fun g e g' => e.1.value.Proper ∧ call g e.1 = .ok (e.2, g')) (.boot fun _ => 0)
        [(begins, 0), (.writeQueue small clear (stack 0 0 66 97 53), 1)] g ∧
      (g.hdcObjects 0).init = 1 ∧ g.pixMem = (fun _ => 0) ∧
      ∃ g', g.call (.endpaint 0 1 fun _ => .zero) = .ok (0, g') ∧ g'.pixMem 490 = 15 :=
    ⟨_, .cons ⟨begins_proper, rfl⟩ (.cons ⟨writeQueue_proper 0 rfl, rfl⟩ (.nil _)), rfl, rfl, _,
      rfl, rfl⟩
  have hqueued : queuedSince [(begins, 0), (.writeQueue small clear (stack 0 0 66 97 53), 1)] 0 =
      [.pixel 49 0] := by decide
  obtain ⟨g₁, hran, hend'⟩ := hall _ _ g hrun (by decide) 0 (fun _ => .zero) hinit
  rw [hqueued] at hran
  -- painting at `(49, 0)` leaves the byte 490 as it was
  have hwhite : g₁.pixMem 490 = 0 := by
    have hne : (490 : UInt16) ≠ offset 49 0 := by decide
    cases hran
    exact (Function.update_of_ne hne (g.pen 0) g.pixMem).trans (congrFun hpix 490)
  obtain ⟨-, rfl⟩ := Prod.mk.inj (Except.ok.inj (hend.symm.trans hend'))
  exact absurd (h490.symm.trans hwhite) (by decide)

/-- Two sessions on handle 0, one after the other, and one on handle 1 beside the second. -/
def twoSessions : List (Call × Int32) :=
  [(begins, 0), (.writeQueue small clear (stack 0 2 70 53 55), 1),
    (.direct (.endpaint 0 0 fun _ => .zero) fun _ _ _ _ => Gfx.Call.noConfusion, 0),
    (begins, 0), (begins, 1), (.writeQueue small clear (stack 0 4 70 99 0), 1),
    (.writeQueue small clear (stack 1 2 70 53 55), 1),
    (.writeQueue small clear (stack 0 0 66 57 56), 1)]

/-- A call that queues nothing is clean. -/
theorem direct_clean (g : Gfx) {c : Gfx.Call}
    {hc : ∀ hdc opType set junk, c ≠ .writeQueue hdc opType set junk}
    (hp : ∀ i, c.handle = some i → Gfx.Valid i) : Clean g (.direct c hc) where
  proper := ⟨hp, fun _ _ _ _ he => absurd he (hc _ _ _ _)⟩
  kept := trivial
  room := fun h _ hcmd => by
    cases c with
    | writeQueue => exact absurd rfl (hc _ _ _ _)
    | setpixel | moveto | lineto | selectpen | fillrect | beginpaint | endpaint | getHDC =>
        exact absurd rfl hcmd

/-- A command whose strings lie apart is queued cleanly. -/
theorem writeQueue_clean (g : Gfx) {m : Mem} (h : Fin 5) (hhdc : hdcOf small clear m = Int32.ofNat h)
    (hroom : (g.hdcObjects h).queueEnd ≠ 50) (hk : User.Kept small clear m) :
    Clean g (.writeQueue small clear m) where
  proper := writeQueue_proper h hhdc
  kept := hk
  room := fun k handle _ => by
    obtain rfl := Gfx.ofNat_inj.mp (hhdc.symm.trans (Option.some.inj handle))
    exact hroom

/-- `endpaint(0, 1)`. -/
def ends : Call := .direct (.endpaint 0 1 fun _ => .zero) fun _ _ _ _ => Gfx.Call.noConfusion

theorem ends_clean (g : Gfx) : Clean g ends := direct_clean g fun i hi => by
  cases hi
  decide

/-- The second session on handle 0 runs its own two commands. -/
theorem queued_exactly_once_twoSessions : ∃ g g₁, Run CleanSteps (.boot fun _ => 0) twoSessions g ∧
    queuedSince twoSessions 0 = [.getPen 50, .pixel 9 8] ∧
    Command.performAll 0 [.getPen 50, .pixel 9 8] g = .ok g₁ ∧
    g.call (.endpaint 0 1 fun _ => .zero) =
      .ok (0, g₁.setHdc 0 ⟨0, 0, 0, 15, fun _ => .zero, 0⟩) := by
  have hmove : ∀ hdc : UInt8, hdc = 0 ∨ hdc = 1 → User.Kept small clear (stack hdc 2 70 53 55) := by
    rintro hdc (rfl | rfl) <;>
      exact .intro rfl (by decide)
        ⟨_, rfl, .cons ((readStr_eq_ok _).mp rfl) (.cons ((readStr_eq_ok _).mp rfl) .nil)⟩
  have hpen : User.Kept small clear (stack 0 4 70 99 0) :=
    .intro rfl (by decide) ⟨_, rfl, .cons ((readStr_eq_ok _).mp rfl) .nil⟩
  have hpixel : User.Kept small clear (stack 0 0 66 57 56) :=
    .intro rfl (by decide)
      ⟨_, rfl, .cons ((readStr_eq_ok _).mp rfl) (.cons ((readStr_eq_ok _).mp rfl) .nil)⟩
  have hbegin : ∀ g, Clean g begins := fun g => direct_clean g fun i hi => by cases hi
  obtain ⟨g, hrun, hinit⟩ : ∃ g, Run CleanSteps (.boot fun _ => 0) twoSessions g ∧
      (g.hdcObjects 0).init = 1 := by
    refine ⟨_, .cons ⟨hbegin _, rfl⟩ (.cons ⟨writeQueue_clean _ 0 rfl (by decide) (hmove 0 (.inl rfl)),
      rfl⟩ (.cons ⟨direct_clean _ fun i hi => ?_, rfl⟩ (.cons ⟨hbegin _, rfl⟩ (.cons ⟨hbegin _, rfl⟩
      (.cons ⟨writeQueue_clean _ 0 rfl (by decide) hpen, rfl⟩
      (.cons ⟨writeQueue_clean _ 1 rfl (by decide) (hmove 1 (.inr rfl)), rfl⟩
      (.cons ⟨writeQueue_clean _ 0 rfl (by decide) hpixel, rfl⟩ (.nil _)))))))), rfl⟩
    cases hi
    decide
  have hqueued : queuedSince twoSessions 0 = [.getPen 50, .pixel 9 8] := by decide
  obtain ⟨g₁, hg₁, hcall⟩ := (queued_exactly_once _ _ g hrun).1 0 (fun _ => .zero) hinit
  rw [hqueued] at hg₁
  exact ⟨g, g₁, hrun, hqueued, hg₁, hcall⟩

/-! ### The screen -/

/-- **Confinement.**  After any clean calls the cursors are on the screen; and a clean call returns,
stores only at points of the screen, and there the 16-bit offset is `320 * y + x`, below 64000. -/
theorem stores_confined (pixMem : UInt16 → UInt8) (es : List (Call × Int32)) (g : Gfx)
    (hrun : Run CleanSteps (.boot pixMem) es g) :
    (∀ h, (0 ≤ (g.hdcObjects h).x ∧ (g.hdcObjects h).x ≤ 319) ∧
      0 ≤ (g.hdcObjects h).y ∧ (g.hdcObjects h).y ≤ 199) ∧
    ∀ c : Call, Clean g c → ∃ r g' ss, call g c = .ok (r, g') ∧ g.stores c.value = .ok ss ∧
      g'.pixMem = ss.foldl Store.write g.pixMem ∧
      ∀ s ∈ ss, ((0 ≤ s.x ∧ s.x ≤ 319) ∧ 0 ≤ s.y ∧ s.y ≤ 199) ∧
        ((offset s.x s.y).toNat : ℤ) = 320 * s.y.toInt + s.x.toInt ∧
        (offset s.x s.y).toNat < 64000 := by
  obtain ⟨Q, hg⟩ := run_ready hrun
  refine ⟨hg.cursor, fun c hc => ?_⟩
  obtain ⟨r, g', hr⟩ := hg.returns hc.proper hc.room
  obtain ⟨ss, hss, hpix, hin⟩ := hg.confined hc.proper hr
  exact ⟨r, g', ss, by rw [call_value hc.kept, hr]; rfl, hss, hpix, hin⟩

/-- The same pixel is stored at `x = 490`. -/
theorem queued_pixel_off_screen :
    ¬ ∀ (pixMem : UInt16 → UInt8) (es : List (Call × Int32)) (g : Gfx),
      Run (fun g e g' => e.1.value.Proper ∧ call g e.1 = .ok (e.2, g')) (.boot pixMem) es g →
      es.length ≤ 50 → ∀ (c : Call) (ss : List Store), c.value.Proper →
        g.stores c.value = .ok ss → ∀ s ∈ ss, (0 ≤ s.x ∧ s.x ≤ 319) ∧ 0 ≤ s.y ∧ s.y ≤ 199 := by
  intro hall
  obtain ⟨g, hrun, hss⟩ : ∃ g,
      Run (fun g e g' => e.1.value.Proper ∧ call g e.1 = .ok (e.2, g')) (.boot fun _ => 0)
        [(begins, 0), (.writeQueue small clear (stack 0 0 66 97 53), 1)] g ∧
      g.stores (.endpaint 0 1 fun _ => .zero) = .ok [⟨490, 0, 15⟩] :=
    ⟨_, .cons ⟨begins_proper, rfl⟩ (.cons ⟨writeQueue_proper 0 rfl, rfl⟩ (.nil _)), rfl⟩
  have hin := hall _ _ g hrun (by decide) ends _ (ends_clean g).proper hss ⟨490, 0, 15⟩
    (List.mem_singleton_self _)
  exact absurd hin.1.2 (by decide)

/-- A line that is queued from `(0, 0)` to a point whose numbers are capped. -/
theorem stores_confined_line : ∃ g r g' ss, Run CleanSteps (.boot fun _ => 0)
      [(begins, 0), (.writeQueue small clear (stack 0 1 70 97 53), 1)] g ∧
    g.call (.endpaint 0 1 fun _ => .zero) = .ok (r, g') ∧
    g.stores (.endpaint 0 1 fun _ => .zero) = .ok ss ∧ ss.length = 50 ∧
    ∀ s ∈ ss, (0 ≤ s.x ∧ s.x ≤ 319) ∧ 0 ≤ s.y ∧ s.y ≤ 199 := by
  have hline : User.Kept small clear (stack 0 1 70 97 53) :=
    .intro rfl (by decide)
      ⟨_, rfl, .cons ((readStr_eq_ok _).mp rfl) (.cons ((readStr_eq_ok _).mp rfl) .nil)⟩
  obtain ⟨g, hrun, hlen⟩ : ∃ g, Run CleanSteps (.boot fun _ => 0)
      [(begins, 0), (.writeQueue small clear (stack 0 1 70 97 53), 1)] g ∧
      (g.stores (.endpaint 0 1 fun _ => .zero)).map List.length = .ok 50 :=
    ⟨_, .cons ⟨direct_clean _ fun i hi => (by cases hi), rfl⟩
      (.cons ⟨writeQueue_clean _ 0 rfl (by decide) hline, rfl⟩ (.nil _)), rfl⟩
  obtain ⟨r, g', ss, hr, hss, -, hin⟩ := (stores_confined _ _ g hrun).2 ends (ends_clean g)
  have hss : g.stores (.endpaint 0 1 fun _ => .zero) = .ok ss := hss
  rw [hss] at hlen
  exact ⟨g, r, g', ss, hrun, mapError_eq_ok.mp hr, hss, Except.ok.inj hlen,
    fun s hs => (hin s hs).1⟩

/-! ### The palette -/

/-- The graphics calls, and the one on pens. -/
inductive Syscall where
  | call (c : Call)
  | setpencolour (index r g b : Int32)

/-- A call, or `setpencolour`. -/
def syscall (g : Gfx) : Syscall → Except Trap (Int32 × Gfx)
  | .call c => User.call g c
  | .setpencolour index r green b => (g.sys_setpencolour index r green b).mapError Trap.fault

/-- The device model's call. -/
def Syscall.value : Syscall → Gfx.Syscall
  | .call c => .call c.value
  | .setpencolour index r g b => .setpencolour index r g b

/-- A call on pens is clean whatever it is given. -/
def Syscall.Clean (g : Gfx) : Syscall → Prop
  | .call c => User.Clean g c
  | .setpencolour .. => True

/-- A clean call or declaration of a pen, and what it returned. -/
def CleanSyscalls (g : Gfx) (e : Syscall × Int32) (g' : Gfx) : Prop :=
  e.1.Clean g ∧ syscall g e.1 = .ok (e.2, g')

theorem CleanSyscalls.value {e : Syscall × Int32} (h : CleanSyscalls g e g') :
    Gfx.SyscallSteps g (e.1.value, e.2) g' := by
  obtain ⟨c, r⟩ := e
  cases c with
  | call c => exact CleanSteps.value (e := (c, r)) h
  | setpencolour index red green b => exact ⟨trivial, mapError_eq_ok.mp h.2⟩

/-- **What is written to the palette.**  In every run of clean calls each colour has six bits; and the
entries written are outside the system's pens exactly when no `endpaint` of the run finds a
declaration of a system pen in the queue it runs.  No other call, `setpencolour` included, writes
one of them. -/
theorem palette_writes (pixMem : UInt16 → UInt8) (es : List (Syscall × Int32)) (g : Gfx)
    (hrun : Run CleanSyscalls (.boot pixMem) es g) :
    Gfx.ColoursOk g.dac ∧
    (Gfx.PaletteOk g.dac ↔
      Run (fun s e t => s.SparesSystem e.1.value ∧ CleanSyscalls s e t) (.boot pixMem) es g) := by
  have hdet : ∀ s e t t', CleanSyscalls s e t → CleanSyscalls s e t' → t = t' := by
    intro s e t t' h₁ h₂
    cases h₁.2.symm.trans h₂.2
    rfl
  have hready : ∀ s e t, CleanSyscalls s e t → s.SlotsReady → t.SlotsReady :=
    fun _ _ _ hstep hs => hs.step hstep.value
  have hboot : (Gfx.boot pixMem).SlotsReady := ⟨_, Gfx.boot_ready pixMem⟩
  have hcolours : Gfx.ColoursOk (Gfx.boot pixMem).dac := fun out hout => by cases hout
  have hpalette : Gfx.PaletteOk (Gfx.boot pixMem).dac := fun out hout => by cases hout
  constructor
  · exact (hrun.inv (I := fun g => g.SlotsReady ∧ Gfx.ColoursOk g.dac)
      (fun s e t hstep hs => ⟨hready s e t hstep hs.1, Gfx.colours_step hstep.value hs.1 hs.2⟩)
      ⟨hboot, hcolours⟩).2
  · refine (hrun.inv_iff (P := fun g => Gfx.PaletteOk g.dac)
      (C := fun s e => s.SparesSystem e.1.value) hdet hready
      (fun _ _ _ hstep hs => Gfx.palette_step hstep.value hs) hboot).trans (and_iff_right hpalette)

/-- The same process; the set declares a pen, whose index is typed with two characters. -/
def penStack (i j : UInt8) : Mem := fun a =>
  if a = 8 then 3 else if a = 12 then 16 else if a = 16 then 64 else if a = 20 then 70
  else if a = 24 then 76 else if a = 28 then 82 else if a = 64 then i else if a = 65 then j
  else if a = 70 then 54 else if a = 76 then 48 else if a = 82 then 55 else 0

/-- A session on handle 0 that declares one pen. -/
def declaring (i j : UInt8) : List (Syscall × Int32) :=
  [(.call begins, 0), (.call (.writeQueue small clear (penStack i j)), 1),
    (.call (.direct (.endpaint 0 1 fun _ => .zero) fun _ _ _ _ => Gfx.Call.noConfusion), 0)]

/-- A process that begins, queues one declaration of a pen and ends, is a run. -/
theorem declaring_run {i j : UInt8} {g : Gfx} (hkept : User.Kept small clear (penStack i j))
    (hhdc : hdcOf small clear (penStack i j) = 0)
    (hcalls : ∃ g₁ g₂, syscall (.boot fun _ => 0) (.call begins) = .ok (0, g₁) ∧
      (g₁.hdcObjects 0).queueEnd = 0 ∧
      syscall g₁ (.call (.writeQueue small clear (penStack i j))) = .ok (1, g₂) ∧
      syscall g₂ (.call (.direct (.endpaint 0 1 fun _ => .zero)
        fun _ _ _ _ => Gfx.Call.noConfusion)) = .ok (0, g)) :
    Run CleanSyscalls (.boot fun _ => 0) (declaring i j) g := by
  obtain ⟨g₁, g₂, h₁, hend, h₂, h₃⟩ := hcalls
  refine .cons ⟨direct_clean _ fun i hi => (by cases hi), h₁⟩ (.cons ⟨writeQueue_clean g₁ 0 hhdc
    (by rw [hend]; decide) hkept, h₂⟩ (.cons ⟨direct_clean _ fun i hi => ?_, h₃⟩ (.nil _)))
  cases hi
  decide

/-- **A system pen is overwritten**: the queued declaration of pen 5. -/
theorem system_pen_five_overwritten :
    ¬ ∀ (pixMem : UInt16 → UInt8) (es : List (Syscall × Int32)) (g : Gfx),
      Run CleanSyscalls (.boot pixMem) es g → Gfx.PaletteOk g.dac := by
  intro hall
  have hkept : User.Kept small clear (penStack 53 0) :=
    .intro rfl (by decide) ⟨_, rfl, .cons ((readStr_eq_ok _).mp rfl) (.cons ((readStr_eq_ok _).mp rfl)
      (.cons ((readStr_eq_ok _).mp rfl) (.cons ((readStr_eq_ok _).mp rfl) .nil)))⟩
  obtain ⟨g, hrun, hdac⟩ : ∃ g, Run CleanSyscalls (.boot fun _ => 0) (declaring 53 0) g ∧
      g.dac = [(0x3C8, 5), (0x3C9, 6), (0x3C9, 0), (0x3C9, 7)] :=
    ⟨_, declaring_run hkept rfl ⟨_, _, rfl, rfl, rfl, rfl⟩, rfl⟩
  have hok := hall _ _ g hrun
  rw [hdac] at hok
  exact absurd (hok (0x3C8, 5) (by simp)) (by decide)

/-- Pen 20 may be declared. -/
theorem palette_writes_twenty : ∃ g, Run CleanSyscalls (.boot fun _ => 0) (declaring 50 48) g ∧
    g.dac = Command.declaration 20 6 0 7 ∧ Gfx.ColoursOk g.dac ∧
    Run (fun s e t => s.SparesSystem e.1.value ∧ CleanSyscalls s e t) (.boot fun _ => 0)
      (declaring 50 48) g := by
  have hkept : User.Kept small clear (penStack 50 48) :=
    .intro rfl (by decide) ⟨_, rfl, .cons ((readStr_eq_ok _).mp rfl) (.cons ((readStr_eq_ok _).mp rfl)
      (.cons ((readStr_eq_ok _).mp rfl) (.cons ((readStr_eq_ok _).mp rfl) .nil)))⟩
  obtain ⟨g, hrun, hdac⟩ : ∃ g, Run CleanSyscalls (.boot fun _ => 0) (declaring 50 48) g ∧
      g.dac = Command.declaration 20 6 0 7 :=
    ⟨_, declaring_run hkept rfl ⟨_, _, rfl, rfl, rfl, rfl⟩, rfl⟩
  have hok : Gfx.PaletteOk g.dac := by
    rw [hdac]
    exact (Gfx.declaration_ok_iff (by decide) (by decide) (by decide) (by decide)).mpr (by decide)
  obtain ⟨hcolours, hiff⟩ := palette_writes _ _ g hrun
  exact ⟨g, hrun, hdac, hcolours, hiff.mp hok⟩

end Xv6.User

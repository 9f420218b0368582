import Xv6.Graphics.Commands

/-!
# Graphics — sessions: each command once, in order, on its own context

A handle goes from one session to the next: `beginpaint` returns it, commands are queued on it,
`endpaint` runs them and releases it.  The entries of the queue are never cleared; only `queueEnd`
says which of them belong to the session.  Nothing but the order of the calls keeps the sessions
apart, and the calls of up to five of them interleave.

`queuedSince` reads off a history which commands a handle has been given since `beginpaint` last
returned it.

* `Sessions.step` — along every call, a taken slot holds exactly these.
* `Sessions.endpaint` — hence `endpaint` runs exactly these, each once and in order.
* `Ready.isolated` — no call that names a handle touches another one's slot.
-/

namespace Xv6.Gfx

open Lib

/-- A proper call, and what it returned. -/
def ProperSteps (g : Gfx) (e : Call × Int32) (g' : Gfx) : Prop :=
  e.1.Proper ∧ g.call e.1 = .ok (e.2, g')

/-- The commands queued on `h` since `beginpaint` last returned it, after one more call. -/
def queuedNext (h : Fin 5) (cs : List Command) (e : Call × Int32) : List Command :=
  if e.1.handle = none then
    -- only `beginpaint` names no handle
    if e.2 = Int32.ofNat h then [] else cs
  else if e.1.handle = some (Int32.ofNat h) then cs ++ e.1.command.toList else cs

/-- The commands queued on `h` since it was last handed out. -/
def queuedSince (es : List (Call × Int32)) (h : Fin 5) : List Command := es.foldl (queuedNext h) []

theorem queuedSince_snoc (es : List (Call × Int32)) (e : Call × Int32) (h : Fin 5) :
    queuedSince (es ++ [e]) h = queuedNext h (queuedSince es h) e := by
  rw [queuedSince, List.foldl_append]
  rfl

/-- A taken slot holds the commands of its session. -/
def Sessions (es : List (Call × Int32)) (g : Gfx) : Prop :=
  ∃ Q, g.Ready Q ∧ ∀ h, (g.hdcObjects h).init = 1 → Q h = queuedSince es h

variable {g g' : Gfx} {Q Q' L : Fin 5 → List Command} {c : Call} {h : Fin 5} {r : Int32}

theorem ofNat_inj {h k : Fin 5} : Int32.ofNat h = Int32.ofNat k ↔ h = k :=
  (show ∀ h k : Fin 5, Int32.ofNat h = Int32.ofNat k ↔ h = k by decide) h k

theorem queuedNext_named (handle : c.handle = some (Int32.ofNat h)) (j : Fin 5)
    (cs : List Command) :
    queuedNext j cs (c, r) = if h = j then cs ++ c.command.toList else cs := by
  simp only [queuedNext, handle, reduceCtorEq, if_false, Option.some.injEq, ofNat_inj]

/-- **One call**, on the commands of the sessions. -/
theorem Effect.queuedNext (he : Effect g Q c r g' Q')
    (hQ : ∀ h, (g.hdcObjects h).init = 1 → Q h = L h) (j : Fin 5)
    (hj : (g'.hdcObjects j).init = 1) : Q' j = Gfx.queuedNext j (L j) (c, r) := by
  -- One case for each effect; at `j` the queue changes, at the others it does not.
  cases he with
  | @draw _ h _ _ handle command keeps dac =>
      rw [queuedNext_named handle, command, Option.toList_none, List.append_nil, ite_self]
      refine hQ j ?_
      by_cases hjh : j = h
      · subst hjh; exact keeps.init.symm.trans hj
      · rw [← keeps.others j hjh]; exact hj
  | @queue _ h cmd queue handle command room holds =>
      rw [queuedNext_named handle, command]
      have hinit : (g.hdcObjects j).init = 1 := by
        by_cases hjh : j = h
        · subst hjh; simpa [withQueue, setHdc] using hj
        · simpa [withQueue, setHdc, hjh] using hj
      by_cases hjh : j = h
      · subst hjh
        rw [Function.update_self, if_pos rfl, hQ j hinit]
        rfl
      · rw [Function.update_of_ne hjh, if_neg (Ne.symm hjh), hQ j hinit]
  | @begin h queue free =>
      by_cases hjh : j = h
      · subst hjh
        simp [Gfx.queuedNext, Call.handle]
      · have hne : ¬ Int32.ofNat h = Int32.ofNat j := fun e => hjh (ofNat_inj.mp e).symm
        rw [Function.update_of_ne hjh]
        simp only [Gfx.queuedNext, Call.handle, if_true, if_neg hne]
        exact hQ j (by simpa [setHdc, hjh] using hj)
  | full taken =>
      have hne : ¬ (-1 : Int32) = Int32.ofNat j :=
        (show ∀ j : Fin 5, ¬ (-1 : Int32) = Int32.ofNat j by decide) j
      simp only [Gfx.queuedNext, Call.handle, if_true, if_neg hne]
      exact hQ j hj
  | @release h e queue g₁ init run keeps =>
      by_cases hjh : j = h
      · subst hjh
        simp [setHdc] at hj
      · rw [Function.update_of_ne hjh, queuedNext_named (h := h) rfl, if_neg (Ne.symm hjh)]
        refine hQ j ?_
        rw [← keeps.others j hjh]
        simpa [setHdc, hjh] using hj
  | @untaken h e queue g₁ init run keeps =>
      by_cases hjh : j = h
      · subst hjh
        exact absurd (keeps.init.symm.trans hj) init
      · rw [queuedNext_named (h := h) rfl, if_neg (Ne.symm hjh)]
        exact hQ j (by rw [← keeps.others j hjh]; exact hj)

theorem boot_sessions (pixMem : UInt16 → UInt8) : Sessions [] (boot pixMem) :=
  ⟨fun _ => [], boot_ready pixMem, fun _ _ => rfl⟩

/-- **Every call keeps the sessions.** -/
theorem Sessions.step {es : List (Call × Int32)} {e : Call × Int32} (hstep : ProperSteps g e g')
    (hs : Sessions es g) : Sessions (es ++ [e]) g' := by
  obtain ⟨Q, hg, hQ⟩ := hs
  obtain ⟨hp, hcall⟩ := hstep
  rcases call_effect hg hp with ⟨r, g'', Q', hr, he⟩ | hfull
  · rw [hcall] at hr
    obtain ⟨rfl, rfl⟩ := Prod.mk.inj (Except.ok.inj hr)
    refine ⟨Q', he.ready hg, fun h hh => ?_⟩
    rw [queuedSince_snoc]
    exact he.queuedNext hQ h hh
  · rw [hcall] at hfull
    cases hfull.1

/-- **Over whole runs.** -/
theorem run_sessions {pixMem : UInt16 → UInt8} {es : List (Call × Int32)}
    (hrun : Run ProperSteps (boot pixMem) es g) : Sessions es g :=
  hrun.inv_labels (fun _ _ _ _ hstep hs => Sessions.step hstep hs) [] (boot_sessions pixMem)

/-- **`endpaint` runs the session**: on a taken handle, the commands queued since `beginpaint`
returned it, each once and in order, and the slot is released. -/
theorem Sessions.endpaint {es : List (Call × Int32)} (hs : Sessions es g)
    (queue : Fin 50 → CommandBuffer) (hinit : (g.hdcObjects h).init = 1) :
    ∃ g₁, Command.performAll h (queuedSince es h) g = .ok g₁ ∧
      g.call (.endpaint (Int32.ofNat h) 1 queue) =
        .ok (0, g₁.setHdc h ⟨0, 0, 0, 15, queue, 0⟩) := by
  obtain ⟨Q, hg, hQ⟩ := hs
  obtain ⟨g₁, hran, -, hend⟩ := endpaint_effect (h := h) hg 1 queue
  rw [if_pos hinit] at hend
  rw [← hQ h hinit]
  exact ⟨g₁, hran, hend⟩

/-- A call returns, if it is no command for a full queue. -/
theorem Ready.returns (hg : g.Ready Q) (hp : c.Proper)
    (hroom : ∀ h : Fin 5, c.handle = some (Int32.ofNat h) → c.command ≠ none →
      (g.hdcObjects h).queueEnd ≠ 50) : ∃ r g', g.call c = .ok (r, g') := by
  rcases call_effect hg hp with ⟨r, g', Q', hr, -⟩ | ⟨-, h, handle, hcmd, hlen⟩
  · exact ⟨r, g', hr⟩
  · refine absurd ?_ (hroom h handle hcmd)
    rw [(hg.queue h).last, hlen]
    rfl

/-- **In isolation**: a call that names a handle leaves the other slots alone. -/
theorem Ready.isolated (hg : g.Ready Q) (hp : c.Proper) (handle : c.handle = some (Int32.ofNat h))
    (hcall : g.call c = .ok (r, g')) {j : Fin 5} (hj : j ≠ h) :
    g'.hdcObjects j = g.hdcObjects j := by
  rcases call_effect hg hp with ⟨r', g'', Q', hr, he⟩ | hfull
  · rw [hcall] at hr
    obtain ⟨rfl, rfl⟩ := Prod.mk.inj (Except.ok.inj hr)
    exact he.isolated handle hj
  · rw [hcall] at hfull
    cases hfull.1

end Xv6.Gfx

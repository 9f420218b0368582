import Xv6.Lib.Lease
import Xv6.Painter.Main

/-!
# Painter — who holds which device context

The kernel marks a slot taken (`init`) and does not record by whom; each process remembers the
handle it was given (`currentHDC`).  A process holds its slot from the `beginpaint` that returns it
to the `endpaint` that frees it: the variable is set only after the one, and reset after the other
or never.  `World.lease` reads this off a state, and every step of a process takes a free slot,
gives its own back, or keeps things as they are (`step_refines`): the processes follow the rules of
a lease.

There are two ways out.  A command for a full queue overwrites the mark of the next slot, whoever
holds it; and a process that is killed gives nothing back.

* `contexts_exclusive` — with room in the queues, no two processes that have not given it back have
  the same `currentHDC`, and that slot is marked taken.
* `contexts_accounted` — where moreover no holder is killed, every slot marked taken is held, and
  with no process left `beginpaint` succeeds.
-/

namespace Xv6.Painter

open Lib Gfx

variable {P : Type} [DecidableEq P] {code : Option Action → UInt32}

/-- The slot a process holds: the one it is about to record, none once it has given it back. -/
def State.context (s : State) : Option (Fin 5) :=
  match s.pending.head? with
  | some (.setHDC hdc) => (hdcAt hdc).toOption
  | some .exit => none
  | some (.call _) | none => (hdcAt s.currentHDC).toOption

/-- The slots held, and those marked taken. -/
def World.lease (w : World P) : Lease P (Fin 5) where
  holder := fun p => (w.procs p).bind State.context
  taken := fun h => (w.kernel.hdcObjects h).init = 1

/-! ### What the calls do to the marks -/

section

variable {g g' : Gfx} {r : Int32} {h : Fin 5}

/-- Neither `beginpaint` nor `endpaint`. -/
def Draws : Syscall → Prop
  | .call (.beginpaint _) | .call (.endpaint ..) => False
  | .call (.setpixel ..) | .call (.moveto ..) | .call (.lineto ..) | .call (.selectpen ..)
  | .call (.fillrect ..) | .call (.getHDC _) | .call (.writeQueue ..) | .setpencolour .. => True

theorem SlotsReady.syscall {c : Syscall} (hg : g.SlotsReady) (hp : c.Proper)
    (hcall : g.syscall c = .ok (r, g')) : g'.SlotsReady :=
  SlotsReady.step (e := (c, r)) ⟨hp, hcall⟩ hg

/-- **Drawing** leaves the marks alone. -/
theorem draws_init {c : Syscall} (hg : g.SlotsReady) (hp : c.Proper) (hd : Draws c)
    (hcall : g.syscall c = .ok (r, g')) (h : Fin 5) :
    (g'.hdcObjects h).init = (g.hdcObjects h).init := by
  cases c with
  | setpencolour index red green b => rw [setpencolour_same hcall]
  | call c =>
      obtain ⟨Q, hg⟩ := hg
      rcases call_effect hg hp with ⟨r', g'', Q', hr, he⟩ | hfull
      · cases (show g.call c = .ok (r, g') from hcall).symm.trans hr
        cases he with
        | @draw _ k _ _ handle command keeps dac =>
            by_cases hk : h = k
            · subst hk; exact keeps.init
            · rw [keeps.others h hk]
        | @queue _ k cmd queue handle command room holds =>
            by_cases hk : h = k
            · subst hk; simp [withQueue, setHdc]
            · simp [withQueue, setHdc, hk]
        | begin free => exact hd.elim
        | full taken => exact hd.elim
        | release init run keeps => exact hd.elim
        | untaken init run keeps => exact hd.elim
      · cases (show g.call c = .ok (r, g') from hcall).symm.trans hfull.1

/-- **`beginpaint`** marks a free slot, or finds none. -/
theorem beginpaint_init {queue : Fin 50 → CommandBuffer}
    (hcall : g.sys_beginpaint queue = .ok (r, g')) :
    (∃ h : Fin 5, r = Int32.ofNat h ∧ (g.hdcObjects h).init = 0 ∧
      ∀ k, (g'.hdcObjects k).init = if k = h then 1 else (g.hdcObjects k).init) ∨
    r = -1 ∧ g' = g ∧ ∀ h, (g.hdcObjects h).init ≠ 0 := by
  simp only [sys_beginpaint] at hcall
  cases hfind : (List.finRange 5).find? fun i => (g.hdcObjects i).init = 0 with
  | none =>
      rw [hfind] at hcall
      cases hcall
      refine Or.inr ⟨rfl, rfl, fun h => ?_⟩
      simpa using List.find?_eq_none.mp hfind h (List.mem_finRange h)
  | some h =>
      rw [hfind] at hcall
      cases hcall
      refine Or.inl ⟨h, rfl, by simpa using List.find?_some hfind, fun k => ?_⟩
      by_cases hk : k = h
      · subst hk; simp [setHdc]
      · rw [if_neg hk]
        simp [setHdc, hk]

/-- **`endpaint`** on a slot that is taken frees it. -/
theorem endpaint_init {executeQueue : Int32} {queue : Fin 50 → CommandBuffer} (hg : g.SlotsReady)
    (hinit : (g.hdcObjects h).init = 1)
    (hcall : g.sys_endpaint (Int32.ofNat h) executeQueue queue = .ok (r, g')) :
    r = 0 ∧ ∀ k, (g'.hdcObjects k).init = if k = h then 0 else (g.hdcObjects k).init := by
  obtain ⟨Q, hg⟩ := hg
  obtain ⟨g₁, -, hk, hend⟩ := endpaint_effect (h := h) hg executeQueue queue
  rw [if_pos hinit] at hend
  cases hend.symm.trans hcall
  refine ⟨rfl, fun k => ?_⟩
  by_cases hkh : k = h
  · subst hkh; simp [setHdc]
  · rw [if_neg hkh]
    simp [setHdc, hkh, hk.others k hkh]

end

/-! ### What a line asks for -/

section

variable {s : State} {argsCount : Int32} {argsBuffer : Fin 30 → CStr} {junk : Junk}

/-- A queued command finds a buffer that is not marked as begun. -/
def Fresh : Syscall → Prop
  | .call (.writeQueue _ _ _ junk) => junk.commandItemTemp.buffset ≠ 1
  | .call _ | .setpencolour .. => True

/-- What a process with a context may do, by the commands of either mode. -/
inductive Drawn (s : State) : Act → Prop where
  | print : Drawn s .print
  | square : Drawn s .square
  | exec : Drawn s .exec
  | draw {c : Syscall} (draws : Draws c) (proper : Valid s.currentHDC → Fresh c → c.Proper) :
      Drawn s (.draw c)

/-- What a command does in queueing mode is `Drawn`. -/
theorem actQueue_drawn : Drawn s (s.actQueue argsCount argsBuffer junk) := by
  have hwrite : ∀ opType set,
      Drawn s (.draw (.call (.writeQueue s.currentHDC opType set junk))) := by
    refine fun opType set => .draw trivial fun hv hset => ⟨fun i hi => ?_, fun _ _ _ _ hc => ?_⟩
    · cases hi; exact hv
    · cases hc; exact hset
  unfold State.actQueue
  simp only
  split
  · exact hwrite _ _
  split
  · exact hwrite _ _
  split
  · exact hwrite _ _
  split
  · exact hwrite _ _
  split
  · exact hwrite _ _
  split
  · exact hwrite _ _
  split
  · split
    · exact .print
    · exact .exec
  · exact .print

/-- What a command does in system mode is `Drawn`. -/
theorem actSystem_drawn : Drawn s (s.actSystem argsCount argsBuffer junk) := by
  have hcall : ∀ c : Call, Draws (.call c) → c.handle = some s.currentHDC →
      (∀ hdc opType set junk, c ≠ .writeQueue hdc opType set junk) →
      Drawn s (.draw (.call c)) := by
    refine fun c hd hh hq => .draw hd fun hv _ => ⟨fun i hi => ?_, fun _ _ _ _ hc => ?_⟩
    · rw [hh] at hi
      cases hi
      exact hv
    · exact absurd hc (hq _ _ _ _)
  unfold State.actSystem
  simp only
  split
  · exact .square
  split
  · exact hcall _ trivial rfl (by intros; exact Call.noConfusion)
  split
  · exact hcall _ trivial rfl (by intros; exact Call.noConfusion)
  split
  · exact hcall _ trivial rfl (by intros; exact Call.noConfusion)
  split
  · exact .draw trivial fun _ _ => trivial
  split
  · exact hcall _ trivial rfl (by intros; exact Call.noConfusion)
  split
  · exact hcall _ trivial rfl (by intros; exact Call.noConfusion)
  · exact actQueue_drawn

/-- What a process may do. -/
inductive Asked (s : State) : Act → Prop where
  | print : Asked s .print
  | exit : Asked s .exit
  | nHDC (idle : s.currentHDC = -1) : Asked s .nHDC
  | toggleMode : Asked s .toggleMode
  | drawn {a : Act} (hdc : ¬ s.currentHDC < 0) (drawn : Drawn s a) : Asked s a

/-- **What a line asks for.** -/
theorem act_asked : Asked s (s.act argsCount argsBuffer junk) := by
  unfold State.act
  simp only
  split
  · exact .print
  split
  · exact .exit
  split
  · split
    · exact .print
    · rename_i hidle
      exact .nHDC (not_not.mp hidle)
  split
  · exact .toggleMode
  split
  · exact .print
  split
  · exact .print
  · rename_i hhdc
    exact .drawn (fun hneg => hhdc (Or.inl hneg)) actSystem_drawn

end

/-! ### The processes follow the lease -/

/-- A call that draws at once. -/
structure Immediate (c : Call) : Prop where
  proper : (Syscall.call c).Proper
  draws : Draws (.call c)
  room : ∀ g : Gfx, g.RoomFor (.call c)

/-- What the variables of a process can be. -/
inductive State.Sane (s : State) : Prop where
  | calls (hdc : s.currentHDC = -1 ∨ ∃ h : Fin 5, s.currentHDC = Int32.ofNat h)
      (calls : ∀ todo ∈ s.pending, ∃ c, Immediate c ∧ todo = .call c) : s.Sane
  /-- `beginpaint` has returned -/
  | began {h : Fin 5} (hdc : s.currentHDC = -1) (pending : s.pending = [.setHDC (Int32.ofNat h)]) :
      s.Sane
  /-- the `endpaint` of `-exec` has returned -/
  | ended {h : Fin 5} (hdc : s.currentHDC = Int32.ofNat h) (pending : s.pending = [.setHDC (-1)]) :
      s.Sane
  /-- the `endpaint` of `-exit` has returned -/
  | leaving (pending : s.pending = [.exit]) : s.Sane

/-- The slots are ready, and the marks and the variables of the processes are what they can be. -/
structure World.Sane (w : World P) : Prop where
  slots : w.kernel.SlotsReady
  marks : ∀ h, (w.kernel.hdcObjects h).init = 0 ∨ (w.kernel.hdcObjects h).init = 1
  procs : ∀ p s, w.procs p = some s → s.Sane

variable {w w' : World P} {p : P} {s : State} {g : Gfx} {h : Fin 5}

theorem hdcAt_held (h : Fin 5) : (hdcAt (Int32.ofNat h)).toOption = some h := by
  rw [hdcAt_ofNat]
  rfl

theorem ofNat_ne_neg_one (h : Fin 5) : Int32.ofNat h ≠ -1 := by
  revert h
  decide

/-- While it draws, a process holds what its variable says. -/
theorem context_of_calls (hs : ∀ todo ∈ s.pending, ∃ c, Immediate c ∧ todo = .call c) :
    s.context = (hdcAt s.currentHDC).toOption := by
  rw [State.context]
  cases hpend : s.pending with
  | nil => rfl
  | cons todo todos =>
      obtain ⟨c, -, rfl⟩ := hs todo (hpend ▸ List.mem_cons_self)
      rfl

/-- Between two commands a process holds what its variable says. -/
theorem context_of_pending (hs : s.pending = []) : s.context = (hdcAt s.currentHDC).toOption :=
  context_of_calls (by simp [hs])

theorem State.Sane.hdc (hs : s.Sane) (hpend : s.pending = []) :
    s.currentHDC = -1 ∨ ∃ h : Fin 5, s.currentHDC = Int32.ofNat h := by
  cases hs with
  | calls hdc calls => exact hdc
  | began hdc pending | ended hdc pending | leaving pending =>
      rw [hpend] at pending
      cases pending

/-- Who holds what, after a change of one process. -/
theorem lease_set (w : World P) (g : Gfx) (p : P) (s : Option State) :
    (w.set g p s).lease =
      ⟨Function.update w.lease.holder p (s.bind State.context),
        fun h => (g.hdcObjects h).init = 1⟩ := by
  rw [World.lease, World.set, Lease.mk.injEq]
  refine ⟨funext fun q => ?_, rfl⟩
  show (Function.update w.procs p s q).bind State.context = _
  by_cases hq : q = p
  · subst hq
    rw [Function.update_self, Function.update_self]
  · rw [Function.update_of_ne hq, Function.update_of_ne hq]
    rfl

/-- The state after a step of process `p`. -/
theorem World.Sane.set {t : Option State} (hw : w.Sane) (hslots : g.SlotsReady)
    (hmarks : ∀ h, (g.hdcObjects h).init = 0 ∨ (g.hdcObjects h).init = 1)
    (ht : ∀ s', t = some s' → s'.Sane) : (w.set g p t).Sane := by
  refine ⟨hslots, hmarks, fun q s' hq => ?_⟩
  by_cases hqp : q = p
  · subst hqp
    exact ht s' (by simpa [World.set] using hq)
  · exact hw.procs q s' (by simpa [World.set, hqp] using hq)

/-- A step that leaves the marks and what its process holds as they are. -/
theorem keep_refines {t : Option State} (hw : w.Sane) (hslots : g.SlotsReady)
    (hinit : ∀ h, (g.hdcObjects h).init = (w.kernel.hdcObjects h).init)
    (ht : ∀ s', t = some s' → s'.Sane)
    (hctx : t.bind State.context = (w.procs p).bind State.context) :
    (w.set g p t).Sane ∧ w.lease.Step (w.set g p t).lease := by
  refine ⟨hw.set hslots (fun h => hinit h ▸ hw.marks h) ht, ?_⟩
  have hlease : (w.set g p t).lease = w.lease := by
    have hp : t.bind State.context = w.lease.holder p := hctx
    rw [lease_set, hp, Function.update_eq_self]
    simp only [hinit]
    rfl
  rw [hlease]
  exact .keep

section

variable (code)

/-- **A proper call with room returns**, and leaves the slots ready. -/
theorem syscallFlat_ok {c : Syscall} (hg : g.SlotsReady) (hp : c.Proper) (hroom : g.RoomFor c) :
    ∃ r g', g.syscallFlat code c = .ok (r, g') ∧ g.syscall c = .ok (r, g') ∧ g'.SlotsReady := by
  obtain ⟨r, g', hcall⟩ : ∃ r g', g.syscall c = .ok (r, g') := by
    cases c with
    | setpencolour index red green b =>
        simp only [Gfx.syscall, sys_setpencolour]
        split
        · exact ⟨_, _, rfl⟩
        · split
          · exact ⟨_, _, rfl⟩
          · exact ⟨_, _, rfl⟩
    | call c =>
        obtain ⟨Q, hQ⟩ := hg
        rcases call_effect hQ hp with ⟨r, g', -, hr, -⟩ | ⟨-, h, hh, hcmd, hlen⟩
        · exact ⟨r, g', hr⟩
        · cases c with
          | writeQueue hdc opType set junk =>
              cases hh
              refine absurd ?_ (hroom h (hdcAt_ofNat h))
              rw [(hQ.queue h).last, hlen]
              rfl
          | setpixel hdc x y | moveto hdc x y | lineto hdc x y | selectpen hdc index
          | fillrect hdc rect | beginpaint queue | getHDC hdc | endpaint hdc e queue =>
              exact absurd rfl hcmd
  exact ⟨r, g', (syscallFlat_eq hroom).trans hcall, hcall, SlotsReady.syscall hg hp hcall⟩

theorem beginpaint_proper (queue : Fin 50 → CommandBuffer) :
    (Syscall.call (.beginpaint queue)).Proper :=
  ⟨fun i hi => (by cases hi), fun _ _ _ _ hc => by cases hc⟩

theorem endpaint_proper (h : Fin 5) (executeQueue : Int32) (queue : Fin 50 → CommandBuffer) :
    (Syscall.call (.endpaint (Int32.ofNat h) executeQueue queue)).Proper :=
  ⟨fun i hi => (by cases hi; exact valid_ofNat h), fun _ _ _ _ hc => by cases hc⟩

/-- A call that draws, for a process that goes on holding what it holds. -/
theorem draw_refines {c : Syscall} {t : State} (hw : w.Sane) (hc : c.Proper) (hd : Draws c)
    (hroom : w.kernel.RoomFor c) (ht : t.Sane) (hctx : t.context = (w.procs p).bind State.context) :
    ∃ r g, w.kernel.syscallFlat code c = .ok (r, g) ∧ (w.set g p (some t)).Sane ∧
      w.lease.Step (w.set g p (some t)).lease := by
  obtain ⟨r, g, hflat, hcall, hslots⟩ := syscallFlat_ok code hw.slots hc hroom
  refine ⟨r, g, hflat, keep_refines hw hslots (draws_init hw.slots hc hd hcall) ?_ hctx⟩
  intro s' hs'
  cases hs'
  exact ht

/-- A change of the variables of a process that goes on holding what it holds. -/
theorem private_refines {t : State} (hw : w.Sane) (ht : t.Sane)
    (hctx : t.context = (w.procs p).bind State.context) :
    (w.set w.kernel p (some t)).Sane ∧ w.lease.Step (w.set w.kernel p (some t)).lease := by
  refine keep_refines hw hw.slots (fun _ => rfl) ?_ hctx
  intro s' hs'
  cases hs'
  exact ht

/-- **`-nHDC`** takes a free slot, if there is one. -/
theorem nHDC_refines (hw : w.Sane) (hp : w.procs p = some s) (hpend : s.pending = [])
    (hidle : s.currentHDC = -1) (locals : Locals) :
    ∃ w', w.perform code p s locals .nHDC = .ok w' ∧ w'.Sane ∧ w.lease.Step w'.lease := by
  obtain ⟨r, g, hflat, hcall, hslots⟩ :=
    syscallFlat_ok code hw.slots (beginpaint_proper locals.queue) trivial
  refine ⟨w.set g p (some { s with pending := if r ≠ -1 then [.setHDC r] else [] }), ?_, ?_⟩
  · rw [World.perform, hflat]
    rfl
  have hnone : w.lease.holder p = none := by
    show (w.procs p).bind State.context = none
    rw [hp, Option.bind_some, context_of_pending hpend, hidle]
    rfl
  rcases beginpaint_init hcall with ⟨h, rfl, hfree, hinit⟩ | ⟨rfl, rfl, -⟩
  · rw [if_pos (ofNat_ne_neg_one h)]
    constructor
    · refine hw.set hslots (fun k => ?_) fun s' hs' => ?_
      · rw [hinit]
        split
        · exact Or.inr rfl
        · exact hw.marks k
      · cases hs'
        exact .began hidle rfl
    · have hctx : State.context { s with pending := [.setHDC (Int32.ofNat h)] } = some h :=
        hdcAt_held h
      have htaken : ∀ k, (g.hdcObjects k).init = 1 ↔ k = h ∨ w.lease.taken k := by
        intro k
        rw [hinit]
        by_cases hk : k = h
        · simp [hk]
        · simp only [hk, if_false, false_or]
          rfl
      rw [lease_set, Option.bind_some, hctx]
      simp only [htaken]
      exact .take hnone fun htaken => by
        rw [World.lease] at htaken
        simp [hfree] at htaken
  · rw [if_neg (not_not.mpr rfl)]
    exact private_refines hw (.calls (Or.inl hidle) (by simp)) (by
      rw [context_of_pending rfl, hidle]
      exact hnone.symm)

/-- **`endpaint`** of a process between two commands gives its slot back. -/
theorem endpaint_refines (hw : w.Sane) (hl : w.lease.Exclusive) (hp : w.procs p = some s)
    (hpend : s.pending = []) (hheld : s.currentHDC = Int32.ofNat h) (executeQueue : Int32)
    (queue : Fin 50 → CommandBuffer) :
    ∃ g, w.kernel.syscallFlat code (.call (.endpaint s.currentHDC executeQueue queue)) =
        .ok (0, g) ∧
      ∀ t : State, t.Sane → t.context = none →
        (w.set g p (some t)).Sane ∧ w.lease.Step (w.set g p (some t)).lease := by
  obtain ⟨r, g, hflat, hcall, hslots⟩ :=
    syscallFlat_ok code hw.slots (endpaint_proper h executeQueue queue) trivial
  have hholds : w.lease.holder p = some h := by
    show (w.procs p).bind State.context = some h
    rw [hp, Option.bind_some, context_of_pending hpend, hheld, hdcAt_held]
  obtain ⟨rfl, hinit⟩ := endpaint_init hw.slots (hl.taken p h hholds) hcall
  refine ⟨g, hheld ▸ hflat, fun t ht hctx => ⟨?_, ?_⟩⟩
  · refine hw.set hslots (fun k => ?_) fun s' hs' => ?_
    · rw [hinit]
      split
      · exact Or.inl rfl
      · exact hw.marks k
    · cases hs'
      exact ht
  · have htaken : ∀ k, (g.hdcObjects k).init = 1 ↔ k ≠ h ∧ w.lease.taken k := by
      intro k
      rw [hinit]
      by_cases hk : k = h
      · simp [hk]
      · simp only [hk, if_false, ne_eq, not_false_iff, true_and]
        rfl
    rw [lease_set, Option.bind_some, hctx]
    simp only [htaken]
    exact .give hholds

/-- The example draws at once. -/
theorem ExampleSquare_immediate {hdc : Int32} (hdcV : Valid hdc) {c : Call}
    (hc : c ∈ ExampleSquare hdc) : Immediate c := by
  have hmoveto : ∀ i x y, Valid i → Immediate (.moveto i x y) := fun i x y hi =>
    ⟨⟨by rintro j ⟨⟩; exact hi, fun _ _ _ _ hc => Call.noConfusion hc⟩, trivial, fun _ => trivial⟩
  have hlineto : ∀ x y, Immediate (.lineto hdc x y) := fun x y =>
    ⟨⟨by rintro j ⟨⟩; exact hdcV, fun _ _ _ _ hc => Call.noConfusion hc⟩, trivial, fun _ => trivial⟩
  simp only [ExampleSquare, List.mem_cons, List.not_mem_nil, or_false] at hc
  rcases hc with rfl | rfl | rfl | rfl | rfl | rfl
  · exact hmoveto _ _ _ hdcV
  · exact hlineto _ _
  · exact hlineto _ _
  · exact hlineto _ _
  · exact hlineto _ _
  · exact hmoveto _ _ _ (valid_ofNat 0)

/-- **A command**: its first call. -/
theorem perform_refines (locals : Locals) {a : Act} (hw : w.Sane) (hl : w.lease.Exclusive)
    (hp : w.procs p = some s) (hpend : s.pending = []) (ha : Asked s a)
    (hfits : ∀ c, a = .draw c → Fresh c ∧ w.kernel.RoomFor c) :
    ∃ w', w.perform code p s locals a = .ok w' ∧ w'.Sane ∧ w.lease.Step w'.lease := by
  have hctx : ∀ t : State, t.pending = [] → t.currentHDC = s.currentHDC →
      t.context = (w.procs p).bind State.context := by
    intro t ht hcur
    rw [hp, Option.bind_some, context_of_pending ht, context_of_pending hpend, hcur]
  -- One case for each thing that a command line asks for.
  cases ha with
  | print => exact ⟨w, rfl, hw, .keep⟩
  | exit =>
      rcases (hw.procs p s hp).hdc hpend with hidle | ⟨h, hheld⟩
      · refine ⟨_, if_neg (not_not.mpr hidle), private_refines hw (.leaving rfl) ?_⟩
        rw [← hctx s hpend rfl, context_of_pending hpend, hidle]
        rfl
      · obtain ⟨g, hcall, hgive⟩ := endpaint_refines code hw hl hp hpend hheld 0 locals.queue
        refine ⟨_, ?_, hgive { s with pending := [.exit] } (.leaving rfl) rfl⟩
        rw [World.perform, if_pos (hheld ▸ ofNat_ne_neg_one h), hcall]
        rfl
  | nHDC idle => exact nHDC_refines code hw hp hpend idle locals
  | toggleMode =>
      refine ⟨_, rfl, private_refines hw (.calls ((hw.procs p s hp).hdc hpend) ?_) (hctx _ hpend rfl)⟩
      rw [hpend]
      simp
  | drawn hdc drawn =>
      obtain hidle | ⟨h, hheld⟩ := (hw.procs p s hp).hdc hpend
      · rw [hidle] at hdc
        exact absurd (by decide) hdc
      cases drawn with
      | print => exact ⟨w, rfl, hw, .keep⟩
      | square =>
          refine ⟨_, rfl, private_refines hw (.calls (Or.inr ⟨h, hheld⟩) fun todo htodo => ?_) ?_⟩
          · obtain ⟨c, hc, rfl⟩ := List.mem_map.mp htodo
            exact ⟨c, ExampleSquare_immediate (hheld ▸ valid_ofNat h) hc, rfl⟩
          · rw [← hctx s hpend rfl, context_of_pending hpend]
            rfl
      | exec =>
          obtain ⟨g, hcall, hgive⟩ :=
            endpaint_refines code hw hl hp hpend hheld 1 locals.queue
          refine ⟨_, ?_, hgive { s with pending := [.setHDC (-1)] } (.ended hheld rfl) rfl⟩
          rw [World.perform, hcall]
          rfl
      | @draw c draws proper =>
          obtain ⟨hset, hroom⟩ := hfits c rfl
          obtain ⟨r, g, hcall, hdraw⟩ := draw_refines code hw
            (proper (hheld ▸ valid_ofNat h) hset) draws hroom (hw.procs p s hp) (hctx s hpend rfl)
          refine ⟨_, ?_, hdraw⟩
          rw [World.perform, hcall]
          rfl

/-- **What is left of a command**: its next step. -/
theorem next_refines {todo : Todo} {todos : List Todo} (hw : w.Sane) (hp : w.procs p = some s)
    (hpend : s.pending = todo :: todos) :
    ∃ w', w.next code p { s with pending := todos } todo = .ok w' ∧ w'.Sane ∧
      w.lease.Step w'.lease := by
  have hctx : (w.procs p).bind State.context = s.context := by rw [hp, Option.bind_some]
  cases hw.procs p s hp with
  | calls hdc calls =>
      obtain ⟨c, hc, rfl⟩ := calls todo (hpend ▸ List.mem_cons_self)
      have hrest : ∀ todo ∈ todos, ∃ c, Immediate c ∧ todo = .call c :=
        fun todo htodo => calls todo (hpend ▸ List.mem_cons_of_mem _ htodo)
      have hsame : State.context { s with pending := todos } = s.context :=
        (context_of_calls hrest).trans (context_of_calls calls).symm
      obtain ⟨r, g, hcall, hdraw⟩ := draw_refines code (p := p)
        (t := { s with pending := todos }) hw hc.proper hc.draws (hc.room w.kernel)
        (.calls hdc hrest) (hsame.trans hctx.symm)
      refine ⟨_, ?_, hdraw⟩
      rw [World.next, hcall]
      rfl
  | @began h hdc pending =>
      cases hpend.symm.trans pending
      refine ⟨_, rfl, private_refines hw (.calls (Or.inr ⟨h, rfl⟩) (by simp)) ?_⟩
      rw [hctx, State.context, State.context, pending]
      rfl
  | ended hdc pending =>
      cases hpend.symm.trans pending
      refine ⟨_, rfl, private_refines hw (.calls (Or.inl rfl) (by simp)) ?_⟩
      rw [hctx, State.context, State.context, pending]
      rfl
  | leaving pending =>
      cases hpend.symm.trans pending
      refine ⟨_, rfl, keep_refines hw hw.slots (fun _ => rfl) (fun s' hs' => (by cases hs')) ?_⟩
      rw [hctx, State.context, pending]
      rfl

/-! ### Whole runs -/

/-- A line that queues a command finds room for it, and a fresh buffer. -/
def Fits (w : World P) : Event P → Prop
  | .line p argsCount argsBuffer locals => ∀ s c, w.procs p = some s →
      s.act argsCount argsBuffer locals.junk = .draw c → Fresh c ∧ w.kernel.RoomFor c
  | .start _ | .next _ | .kill _ => True

/-- The steps where every queued command finds room. -/
def FittingSteps (code : Option Action → UInt32) (w : World P) (e : Event P) (w' : World P) : Prop :=
  Fits w e ∧ Steps code w e w'

/-- The event can happen: a process reads a line when its last command is done. -/
def Enabled (w : World P) : Event P → Prop
  | .start p => w.procs p = none
  | .line p _ _ _ => ∃ s, w.procs p = some s ∧ s.pending = []
  | .next p => ∃ s, w.procs p = some s ∧ s.pending ≠ []
  | .kill p => ∃ s, w.procs p = some s

/-- The invariant of the runs. -/
structure Ruled (w : World P) : Prop where
  sane : w.Sane
  exclusive : w.lease.Exclusive

variable {e : Event P}

/-- A command does to the contexts what its letter says. -/
theorem line_refines {argsCount : Int32} {argsBuffer : Fin 30 → CStr} {locals : Locals}
    (hw : Ruled w) (hp : w.procs p = some s) (hpend : s.pending = [])
    (hfits : Fits w (.line p argsCount argsBuffer locals)) :
    ∃ w', Steps code w (.line p argsCount argsBuffer locals) w' ∧ w'.Sane ∧
      w.lease.Step w'.lease := by
  obtain ⟨w', hw', hrefines⟩ := perform_refines code locals hw.sane hw.exclusive hp
    hpend act_asked fun c => hfits s c hp
  refine ⟨w', ?_, hrefines⟩
  simp only [Steps, World.step, hp, Option.bind_eq_bind, Option.bind_some, hpend, hw']
  rfl

/-- **A step** returns, and the processes keep to the lease; a kill drops what is held. -/
theorem step_refines (hw : Ruled w) (hfits : Fits w e) (hon : Enabled w e) :
    ∃ w', Steps code w e w' ∧ w'.Sane ∧
      (w.lease.Step w'.lease ∨ ∃ p, e = .kill p ∧ w'.lease = w.lease.drop p) := by
  cases e with
  | start p =>
      have hp : w.procs p = none := hon
      obtain ⟨hsane, hlease⟩ := private_refines (p := p) (t := ⟨-1, 0, []⟩) hw.sane
        (.calls (Or.inl rfl) (by simp)) (by rw [hp]; rfl)
      exact ⟨_, by simp only [Steps, World.step, hp]; rfl, hsane, Or.inl hlease⟩
  | line p argsCount argsBuffer locals =>
      obtain ⟨s, hp, hpend⟩ := hon
      obtain ⟨w', hstep, hsane, hlease⟩ := line_refines code hw hp hpend hfits
      exact ⟨w', hstep, hsane, Or.inl hlease⟩
  | next p =>
      obtain ⟨s, hp, hpend⟩ := hon
      obtain ⟨todo, todos, hpend⟩ := List.exists_cons_of_ne_nil hpend
      obtain ⟨w', hnext, hsane, hlease⟩ := next_refines code hw.sane hp hpend
      refine ⟨w', ?_, hsane, Or.inl hlease⟩
      simp only [Steps, World.step, hp, hpend, Option.bind_eq_bind, Option.bind_some,
        List.head?_cons, List.tail_cons, hnext]
      rfl
  | kill p =>
      obtain ⟨s, hp⟩ := hon
      refine ⟨w.set w.kernel p none, by simp only [Steps, World.step, hp]; rfl,
        hw.sane.set hw.sane.slots hw.sane.marks (fun s' hs' => (by cases hs')), Or.inr ⟨p, rfl, ?_⟩⟩
      rw [lease_set]
      rfl

end

/-- A step that is taken could be taken. -/
theorem steps_enabled (h : Steps code w e w') : Enabled w e := by
  cases e with
  | start p =>
      simp only [Steps, World.step] at h
      split at h
      · rename_i hp
        exact Option.isNone_iff_eq_none.mp hp
      · cases h
  | line p argsCount argsBuffer locals =>
      obtain ⟨s, hp, h⟩ := Option.bind_eq_some_iff.mp h
      refine ⟨s, hp, ?_⟩
      cases hs : s.pending with
      | nil => rfl
      | cons todo todos =>
          simp only [hs] at h
          cases h
  | next p =>
      obtain ⟨s, hp, h⟩ := Option.bind_eq_some_iff.mp h
      obtain ⟨todo, htodo, -⟩ := Option.bind_eq_some_iff.mp h
      refine ⟨s, hp, fun hs => ?_⟩
      rw [hs] at htodo
      cases htodo
  | kill p =>
      simp only [Steps, World.step] at h
      split at h
      · rename_i hp
        exact Option.isSome_iff_exists.mp hp
      · cases h

omit [DecidableEq P] in
theorem boot_ruled (pixMem : UInt16 → UInt8) : Ruled (World.boot pixMem : World P) := by
  refine ⟨⟨⟨_, boot_ready pixMem⟩, fun h => Or.inl rfl, fun p s hp => (by cases hp)⟩, ?_, ?_⟩
  · intro p h hp
    cases hp
  · intro p q h hp
    cases hp

theorem Ruled.step (hw : Ruled w) (hfits : Fits w e) (hstep : Steps code w e w') : Ruled w' := by
  obtain ⟨w'', hstep', hsane, hlease⟩ := step_refines code hw hfits (steps_enabled hstep)
  cases hstep.symm.trans hstep'
  rcases hlease with hlease | ⟨p, -, hlease⟩
  · exact ⟨hsane, hlease.exclusive hw.exclusive⟩
  · exact ⟨hsane, hlease ▸ hw.exclusive.drop p⟩

/-! ### Exclusive contexts -/

/-- The `endpaint` of the process has returned, and it has not yet reset its variable or left. -/
def State.Released (s : State) : Prop := s.pending = [.setHDC (-1)] ∨ s.pending = [.exit]

/-- A handle that is named and not released is held. -/
theorem State.Sane.held (hs : s.Sane) (hcur : s.currentHDC ≠ -1) (hrel : ¬ s.Released) :
    ∃ h : Fin 5, s.currentHDC = Int32.ofNat h ∧ s.context = some h := by
  cases hs with
  | calls hdc calls =>
      obtain ⟨h, hh⟩ := hdc.resolve_left hcur
      exact ⟨h, hh, by rw [context_of_calls calls, hh, hdcAt_held]⟩
  | began hdc pending => exact absurd hdc hcur
  | ended hdc pending => exact absurd (Or.inl pending) hrel
  | leaving pending => exact absurd (Or.inr pending) hrel

/-- **Contexts are exclusive.**  Where every queued command finds room, every step of a process
returns, the context of a process that has not given it back is a slot marked taken, and no other
such process has the same. -/
theorem contexts_exclusive (code : Option Action → UInt32) (pixMem : UInt16 → UInt8)
    (es : List (Event P)) (w : World P)
    (hrun : Run (FittingSteps code) (World.boot pixMem) es w) :
    (∀ e, Fits w e → Enabled w e → ∃ w', Steps code w e w') ∧
    (∀ p s, w.procs p = some s → s.currentHDC ≠ -1 → ¬ s.Released →
      ∃ h : Fin 5, s.currentHDC = Int32.ofNat h ∧ (w.kernel.hdcObjects h).init = 1) ∧
    ∀ p q s t, w.procs p = some s → w.procs q = some t → s.currentHDC ≠ -1 →
      t.currentHDC = s.currentHDC → ¬ s.Released → ¬ t.Released → p = q := by
  have hw : Ruled w := hrun.inv (fun _ _ _ hstep hs => hs.step hstep.1 hstep.2) (boot_ruled pixMem)
  have hholder : ∀ p s h, w.procs p = some s → s.context = some h → w.lease.holder p = some h := by
    intro p s h hp hs
    show (w.procs p).bind State.context = some h
    rw [hp, Option.bind_some, hs]
  refine ⟨fun e hfits hon => ?_, fun p s hp hcur hrel => ?_,
    fun p q s t hp hq hcur hsame hs ht => ?_⟩
  · obtain ⟨w', hstep, -⟩ := step_refines code hw hfits hon
    exact ⟨w', hstep⟩
  · obtain ⟨h, hh, hctx⟩ := (hw.sane.procs p s hp).held hcur hrel
    exact ⟨h, hh, hw.exclusive.taken p h (hholder p s h hp hctx)⟩
  · obtain ⟨h, hh, hctx⟩ := (hw.sane.procs p s hp).held hcur hs
    obtain ⟨k, hk, hctx'⟩ := (hw.sane.procs q t hq).held (hsame ▸ hcur) ht
    have hkh : some k = some h := by rw [← hdcAt_held k, ← hdcAt_held h, ← hk, ← hh, hsame]
    exact hw.exclusive.unique p q h (hholder p s h hp hctx) (hholder q t h hq (hctx'.trans hkh))

/-- The words of a command line. -/
def words (ws : List (List Char)) : Fin 30 → CStr := fun i => (ws[i.1]?.map chars).getD []

/-- Process `p` reads these words, after `Painter`. -/
def types (p : P) (ws : List (List Char)) : Event P :=
  .line p (Int32.ofNat (ws.length + 1)) (words (['P', 'a', 'i', 'n', 't', 'e', 'r'] :: ws))
    ⟨⟨.zero, fun _ _ => 0⟩, fun _ => .zero⟩

/-- Process `p` starts and takes a context. -/
def takesContext (p : P) : List (Event P) :=
  [.start p, types p [['-', 'n', 'H', 'D', 'C']], .next p]

/-- Two processes take a context, one after the other. -/
theorem both_take : ∃ w : World Bool,
    Run (FittingSteps fun _ => 0) (World.boot fun _ => 0) (takesContext true ++ takesContext false)
      w ∧
    w.procs true = some ⟨0, 0, []⟩ ∧ w.procs false = some ⟨1, 0, []⟩ ∧
    (w.kernel.hdcObjects 0).queueEnd = 0 := by
  have hnHDC : ∀ (w : World Bool) p, w.procs p = some ⟨-1, 0, []⟩ →
      Fits w (types p [['-', 'n', 'H', 'D', 'C']]) := by
    intro w p hp s c hs hc
    cases hp.symm.trans hs
    cases hc
  exact ⟨_, .cons ⟨trivial, rfl⟩ (.cons ⟨hnHDC _ _ rfl, rfl⟩ (.cons ⟨trivial, rfl⟩
    (.cons ⟨trivial, rfl⟩ (.cons ⟨hnHDC _ _ rfl, rfl⟩ (.cons ⟨trivial, rfl⟩ (.nil _)))))),
    rfl, rfl, rfl⟩

/-- The second of two processes has context 1, and that is taken. -/
theorem contexts_exclusive_second : ∃ w : World Bool,
    Run (FittingSteps fun _ => 0) (World.boot fun _ => 0) (takesContext true ++ takesContext false)
      w ∧
    w.procs false = some ⟨1, 0, []⟩ ∧
    ∃ h : Fin 5, (1 : Int32) = Int32.ofNat h ∧ (w.kernel.hdcObjects h).init = 1 := by
  obtain ⟨w, hrun, -, hfalse, -⟩ := both_take
  have hheld := (contexts_exclusive _ _ _ w hrun).2.1 false _ hfalse
  exact ⟨w, hrun, hfalse, hheld (by decide) (by rintro (h | h) <;> cases h)⟩

/-- One process takes a context and types `-exit`; before it is gone another takes a context. -/
theorem exits_then_takes : ∃ w : World Bool, Run (Steps fun _ => 0) (World.boot fun _ => 0)
      (takesContext true ++ types true [['-', 'e', 'x', 'i', 't']] :: takesContext false) w ∧
    w.procs true = some ⟨0, 0, [.exit]⟩ ∧ w.procs false = some ⟨0, 0, []⟩ :=
  ⟨_, .cons rfl (.cons rfl (.cons rfl (.cons rfl (.cons rfl (.cons rfl (.cons rfl (.nil _))))))),
    rfl, rfl⟩

/-- Process `p` queues a move of the cursor, and the call that makes. -/
def movesCursor (p : P) : Event P := types p [['-', 'm'], ['0'], ['0']]

/-- The call that `movesCursor` makes. -/
def moveCall : Call :=
  .writeQueue (Int32.ofNat (0 : Fin 5)) 2 ⟨chars ['0'], chars ['0'], [], []⟩ ⟨.zero, fun _ _ => 0⟩

/-- The calls of the run are steps. -/
theorem movesCursor_steps {r : Int32} (hp : w.procs p = some ⟨0, 0, []⟩)
    (hcall : w.kernel.syscallFlat code (.call moveCall) = .ok (r, g)) :
    Steps code w (movesCursor p) (w.set g p (some ⟨0, 0, []⟩)) := by
  have hact : State.act ⟨0, 0, []⟩ 4
      (words [['P', 'a', 'i', 'n', 't', 'e', 'r'], ['-', 'm'], ['0'], ['0']])
      ⟨.zero, fun _ _ => 0⟩ = .draw (.call moveCall) := rfl
  show World.step code w (.line p 4 _ _) = _
  simp only [World.step, hp, Option.bind_eq_bind, Option.bind_some, hact, World.perform, hcall]
  rfl

/-- A queue of fewer than fifty commands has room. -/
theorem hasRoom_of_holds {cs : List Command} (hd : (g.hdcObjects h).Holds h cs)
    (hlen : cs.length < 50) : g.HasRoom (Int32.ofNat h) := by
  intro k hk hend
  rw [hdcAt_ofNat] at hk
  cases hk
  have hval := congrArg Int32.toInt (hd.last.symm.trans hend)
  rw [Int32.toInt_ofNat_of_lt (by omega)] at hval
  have : (cs.length : ℤ) = 50 := hval
  omega

/-- A process with context 0 queues commands as long as there is room. -/
theorem movesCursor_run (n : ℕ) {w : World P} {cs : List Command}
    (hp : w.procs p = some ⟨0, 0, []⟩) (hholds : (w.kernel.hdcObjects 0).Holds 0 cs)
    (hroom : cs.length + n ≤ 50) : ∃ w' cs',
      Run (Steps code) w (List.replicate n (movesCursor p)) w' ∧ w'.procs = w.procs ∧
        (w'.kernel.hdcObjects 0).Holds 0 cs' ∧ cs'.length = cs.length + n := by
  induction n generalizing w cs with
  | zero => exact ⟨w, cs, .nil w, rfl, hholds, rfl⟩
  | succ n ih =>
      have hlen : cs.length < 50 := by omega
      have hop : Command.ofOp 2 ⟨chars ['0'], chars ['0'], [], []⟩ = some (.move 0 0) := rfl
      have hset : (CommandBuffer.zero).buffset ≠ 1 := by decide
      obtain ⟨queue, hcall, hholds'⟩ := writeQueue_stores hholds hop
        (show (Junk.mk .zero fun _ _ => 0).commandItemTemp.buffset ≠ 1 from hset) hlen
      have hroom' : w.kernel.RoomFor (.call moveCall) := hasRoom_of_holds (h := 0) hholds hlen
      have hflat : w.kernel.syscallFlat code (.call moveCall) = _ :=
        (syscallFlat_eq hroom').trans hcall
      have hsame : ∀ g, (w.set g p (some ⟨0, 0, []⟩)).procs = w.procs := fun g => by
        rw [World.set, ← hp, Function.update_eq_self]
      obtain ⟨w', cs', hrun, hprocs, hlast, hlength⟩ :=
        ih (w := w.set (w.kernel.withQueue 0 queue (cs.length + 1)) p (some ⟨0, 0, []⟩))
          ((congrFun (hsame _) p).trans hp) hholds'
          (by rw [List.length_append, List.length_singleton]; omega)
      refine ⟨w', cs', .cons (movesCursor_steps hp hflat) hrun, hprocs.trans (hsame _), hlast, ?_⟩
      rw [hlength, List.length_append, List.length_singleton]
      omega

/-- The fifty-first command of a process with context 0 marks context 1 with a 48. -/
theorem movesCursor_spills {w : World P} (hp : w.procs p = some ⟨0, 0, []⟩)
    (hholds : (w.kernel.hdcObjects 0).Holds 0 []) :
    ∃ w', Run (Steps code) w (List.replicate 51 (movesCursor p)) w' ∧
      (∀ q, q ≠ p → w'.procs q = w.procs q) ∧ (w'.kernel.hdcObjects 1).init = 48 := by
  obtain ⟨w₁, cs, hrun, hprocs, hfull, hlen⟩ := movesCursor_run 50 hp hholds (Nat.le_refl 50)
  obtain ⟨g, hcall, hinit⟩ : ∃ g, w₁.kernel.syscallFlat code (.call moveCall) = .ok (1, g) ∧
      (g.hdcObjects 1).init = 48 :=
    spill_init (h := 0) (by decide) (show queues 2 by decide) (by decide)
      (by rw [hfull.last, hlen]; rfl)
  have hstep := movesCursor_steps (hprocs ▸ hp) hcall
  refine ⟨_, hrun.snoc hstep, fun q hq => ?_, hinit⟩
  rw [World.set, ← hprocs]
  exact Function.update_of_ne hq ..

/-- **A context is shared** by a process that leaves and one that comes: the first has given it back
and still has it as its `currentHDC`.  And a command too many of one process takes the mark off the
context of another. -/
theorem context_shared :
    (¬ ∀ (es : List (Event Bool)) (w : World Bool),
      Run (Steps fun _ => 0) (World.boot fun _ => 0) es w →
      ∀ p q s t, w.procs p = some s → w.procs q = some t → s.currentHDC ≠ -1 →
        t.currentHDC = s.currentHDC → p = q) ∧
    ¬ ∀ (es : List (Event Bool)) (w : World Bool),
      Run (Steps fun _ => 0) (World.boot fun _ => 0) es w →
      ∀ p s, w.procs p = some s → s.currentHDC ≠ -1 → ¬ s.Released →
        ∃ h : Fin 5, s.currentHDC = Int32.ofNat h ∧ (w.kernel.hdcObjects h).init = 1 := by
  constructor
  · intro hall
    obtain ⟨w, hrun, htrue, hfalse⟩ := exits_then_takes
    exact absurd (hall _ w hrun true false _ _ htrue hfalse (by decide) rfl) (by decide)
  · intro hall
    obtain ⟨w, hrun, htrue, hfalse, hempty⟩ := both_take
    obtain ⟨w', hrun', hprocs, hinit⟩ := movesCursor_spills htrue (Hdc.Holds.nil hempty)
    obtain ⟨h, hh, htaken⟩ := hall _ w' (hrun.restrict.append hrun') false _
      ((hprocs false (by decide)).trans hfalse) (by decide) (by rintro (h | h) <;> cases h)
    obtain rfl : h = 1 := (ofNat_inj.mp hh).symm
    rw [hinit] at htaken
    exact absurd htaken (by decide)

/-! ### Contexts accounted for -/

/-- No process is killed that holds a slot. -/
def SparesHolders (w : World P) : Event P → Prop
  | .kill p => ∀ s, w.procs p = some s → s.context = none
  | .start _ | .line .. | .next _ => True

theorem kill_lease (hstep : Steps code w (.kill p) w') : w'.lease = w.lease.drop p := by
  simp only [Steps, World.step] at hstep
  split at hstep
  · cases hstep
    rw [lease_set]
    rfl
  · cases hstep

/-- After a step the accounts are right exactly if they were, and no holder was killed. -/
theorem accounted_step (hw : Ruled w) (hstep : FittingSteps code w e w') :
    w'.lease.Accounted ↔ w.lease.Accounted ∧ SparesHolders w e := by
  obtain ⟨w'', hstep', -, hlease⟩ := step_refines code hw hstep.1 (steps_enabled hstep.2)
  cases hstep.2.symm.trans hstep'
  cases e with
  | kill p =>
      rw [kill_lease hstep.2, Lease.drop_accounted_iff hw.exclusive]
      refine and_congr_right fun _ => ?_
      show (w.procs p).bind State.context = none ↔ _
      exact Option.bind_eq_none_iff
  | start p | line p argsCount argsBuffer locals | next p =>
      rcases hlease with hlease | ⟨p, he, -⟩
      · exact hlease.accounted_iff.trans (and_iff_left trivial).symm
      · cases he

/-- A process that has a context names it. -/
theorem State.Sane.currentHDC_of_context (hs : s.Sane) (hctx : s.context = some h)
    (hquiet : ∀ hdc, s.pending ≠ [.setHDC hdc]) : s.currentHDC = Int32.ofNat h := by
  cases hs with
  | calls hdc calls =>
      rw [context_of_calls calls] at hctx
      rcases hdc with hidle | ⟨k, hk⟩
      · rw [hidle] at hctx
        cases hctx
      · rw [hk, hdcAt_held] at hctx
        cases hctx
        exact hk
  | began hdc pending | ended hdc pending => exact absurd pending (hquiet _)
  | leaving pending =>
      rw [State.context, pending] at hctx
      cases hctx

/-- **Contexts are accounted for.**  Where every queued command finds room, every slot marked taken
is held by a process exactly as long as no process was killed that held one.  Then, with no call of
`beginpaint` or `endpaint` under way, it is the `currentHDC` of a process; and with no process left
`beginpaint` finds a slot. -/
theorem contexts_accounted (code : Option Action → UInt32) (pixMem : UInt16 → UInt8)
    (es : List (Event P)) (w : World P)
    (hrun : Run (FittingSteps code) (World.boot pixMem) es w) :
    (w.lease.Accounted ↔
      Run (fun w e w' => SparesHolders w e ∧ FittingSteps code w e w') (World.boot pixMem) es w) ∧
    (Run (fun w e w' => SparesHolders w e ∧ FittingSteps code w e w') (World.boot pixMem) es w →
      ((∀ p s, w.procs p = some s → ∀ hdc, s.pending ≠ [.setHDC hdc]) → ∀ h : Fin 5,
        (w.kernel.hdcObjects h).init = 1 → ∃ p s, w.procs p = some s ∧
          s.currentHDC = Int32.ofNat h) ∧
      ((∀ p, w.procs p = none) → ∀ queue, ∃ (h : Fin 5) (g : Gfx),
        w.kernel.sys_beginpaint queue = .ok (Int32.ofNat h, g))) := by
  have hw : Ruled w := hrun.inv (fun _ _ _ hstep hs => hs.step hstep.1 hstep.2) (boot_ruled pixMem)
  have hdet : ∀ (w : World P) e w₁ w₂, FittingSteps code w e w₁ → FittingSteps code w e w₂ →
      w₁ = w₂ := by
    intro w e w₁ w₂ h₁ h₂
    exact Option.some.inj (h₁.2.symm.trans h₂.2)
  have hboot : (World.boot pixMem : World P).lease.Accounted := by
    intro h hh
    cases hh
  have hiff : w.lease.Accounted ↔ Run (fun w e w' => SparesHolders w e ∧ FittingSteps code w e w')
      (World.boot pixMem) es w :=
    (hrun.inv_iff (P := fun w => w.lease.Accounted) (C := SparesHolders) hdet
      (fun _ _ _ hstep hs => hs.step hstep.1 hstep.2)
      (fun _ _ _ hstep hs => accounted_step hs hstep) (boot_ruled pixMem)).trans (and_iff_right hboot)
  refine ⟨hiff, fun hspares => ⟨fun hquiet h hinit => ?_, fun hnone queue => ?_⟩⟩
  · obtain ⟨p, hp⟩ := hiff.mpr hspares h hinit
    obtain ⟨s, hs, hctx⟩ := Option.bind_eq_some_iff.mp hp
    exact ⟨p, s, hs, (hw.sane.procs p s hs).currentHDC_of_context hctx (hquiet p s hs)⟩
  · obtain ⟨r, g, -, hcall, -⟩ :=
      syscallFlat_ok code hw.sane.slots (beginpaint_proper queue) trivial
    rcases beginpaint_init hcall with ⟨h, rfl, -⟩ | ⟨-, -, hall⟩
    · exact ⟨h, g, hcall⟩
    · -- a slot that is not free is marked taken, and nobody holds it
      obtain ⟨p, hp⟩ := hiff.mpr hspares 0 ((hw.sane.marks 0).resolve_left (hall 0))
      rw [World.lease] at hp
      simp [hnone p] at hp

/-- Two processes take a context and none is killed: context 1 belongs to one of them. -/
theorem contexts_accounted_both : ∃ w : World Bool,
    Run (FittingSteps fun _ => 0) (World.boot fun _ => 0) (takesContext true ++ takesContext false)
      w ∧
    ((w.kernel.hdcObjects 1).init = 1 → ∃ p s, w.procs p = some s ∧ s.currentHDC = 1) := by
  obtain ⟨w, hrun, htrue, hfalse, -⟩ := both_take
  refine ⟨w, hrun, ((contexts_accounted _ _ _ w hrun).2 ?_).1 ?_ 1⟩
  · refine hrun.mono fun e he s t hstep => ⟨?_, hstep⟩
    simp only [takesContext, types, List.cons_append, List.nil_append, List.mem_cons,
      List.not_mem_nil, or_false] at he
    rcases he with rfl | rfl | rfl | rfl | rfl | rfl <;> exact trivial
  · intro p s hp hdc hs
    cases p with
    | true =>
        rw [htrue] at hp
        cases hp
        cases hs
    | false =>
        rw [hfalse] at hp
        cases hp
        cases hs

theorem killed_holding : ∃ w : World Bool, Run (Steps fun _ => 0) (World.boot fun _ => 0)
      (takesContext true ++ [.kill true]) w ∧
    (∀ p, w.procs p = none) ∧ (w.kernel.hdcObjects 0).init = 1 :=
  ⟨_, .cons rfl (.cons rfl (.cons rfl (.cons rfl (.nil _)))), fun p => by cases p <;> rfl, rfl⟩

/-- **A context is lost** with the process that is killed. -/
theorem context_lost_by_kill :
    ¬ ∀ (es : List (Event Bool)) (w : World Bool),
      Run (Steps fun _ => 0) (World.boot fun _ => 0) es w →
      (∀ p s, w.procs p = some s → ∀ hdc, s.pending ≠ [.setHDC hdc]) →
      ∀ h : Fin 5, (w.kernel.hdcObjects h).init = 1 →
        ∃ p s, w.procs p = some s ∧ s.currentHDC = Int32.ofNat h := by
  intro hall
  obtain ⟨w, hrun, hnone, htaken⟩ := killed_holding
  obtain ⟨p, s, hp, -⟩ := hall _ w hrun (fun p s hp => by rw [hnone] at hp; cases hp) 0 htaken
  rw [hnone] at hp
  cases hp

end Xv6.Painter

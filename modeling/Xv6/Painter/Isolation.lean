import Xv6.Painter.Contexts

/-!
# Painter — a session works on its own context

Every command of `main` passes `currentHDC` on to the system calls it makes, and a call on a handle
changes no other slot.  One call names another handle: the last one of `ExampleSquare` moves the
cursor of handle 0 to the origin, whatever context the session has.

* `syscall_isolated` — a proper call with room changes no slot but the one it names.
* `World.Squares` — a process in the middle of a command is in `ExampleSquare`, on its own context.
* `session_isolated_iff` — a step of a session changes no other slot exactly if it is not this last
  call, made from another context than 0 at a moment when cursor 0 is not at the origin.
-/

namespace Xv6.Painter

open Lib Gfx

variable {P : Type} [DecidableEq P] {code : Option Action → UInt32}

section

variable {g g' : Gfx} {r : Int32} {h : Fin 5}

/-- **A call is isolated** to the slot it names. -/
theorem syscall_isolated {c : Call} (hg : g.SlotsReady) (hp : (Syscall.call c).Proper)
    (hroom : g.RoomFor (.call c)) (handle : c.handle = some (Int32.ofNat h))
    (hcall : g.syscallFlat code (.call c) = .ok (r, g')) {j : Fin 5} (hj : j ≠ h) :
    g'.hdcObjects j = g.hdcObjects j := by
  obtain ⟨Q, hQ⟩ := hg
  rw [syscallFlat_eq hroom] at hcall
  rcases call_effect hQ hp with ⟨r', g'', Q', hr, he⟩ | hfull
  · cases (show g.call c = .ok (r, g') from hcall).symm.trans hr
    exact he.isolated handle hj
  · cases (show g.call c = .ok (r, g') from hcall).symm.trans hfull.1

/-- The call at the end of `ExampleSquare` changes no slot but 0, and that one unless the cursor is
there. -/
theorem reset_isolated_iff (hcall : g.syscallFlat code (.call (.moveto 0 0 0)) = .ok (r, g')) :
    (∀ j ≠ h, g'.hdcObjects j = g.hdcObjects j) ↔
      h = 0 ∨ (g.hdcObjects 0).x = 0 ∧ (g.hdcObjects 0).y = 0 := by
  obtain ⟨-, rfl⟩ : 0 = r ∧
      g.setHdc 0 { g.hdcObjects 0 with x := 0, y := 0 } = g' := Prod.mk.inj (Except.ok.inj hcall)
  constructor
  · intro hsame
    by_cases h0 : h = 0
    · exact .inl h0
    · have := hsame 0 (Ne.symm h0)
      simp only [setHdc, Function.update_self] at this
      exact .inr ⟨congrArg Hdc.x this.symm, congrArg Hdc.y this.symm⟩
  · rintro (rfl | ⟨hx, hy⟩) j hj
    · exact Function.update_of_ne hj _ _
    · have hd : ∀ d : Hdc, d.x = 0 → d.y = 0 → { d with x := 0, y := 0 } = d := by
        rintro ⟨init, x, y, pen, queue, last⟩ rfl rfl
        rfl
      have hupd := Function.update_eq_self 0 g.hdcObjects
      rw [← hd _ hx hy] at hupd
      exact congrFun hupd j

end

/-! ### The calls of a command -/

section

variable {s : State} {argsCount : Int32} {argsBuffer : Fin 30 → CStr} {junk : Junk}

/-- A call on a context is one on the session's own. -/
def OwnHandle (s : State) (a : Act) : Prop :=
  ∀ c, a = .draw (.call c) → c.handle = some s.currentHDC

/-- In queueing mode a command uses the handle of the session. -/
theorem actQueue_own : OwnHandle s (s.actQueue argsCount argsBuffer junk) := by
  have hno : ∀ a : Act, (∀ c, a ≠ .draw c) → OwnHandle s a := fun a ha c hc => absurd hc (ha _)
  have hcall : ∀ c : Call, c.handle = some s.currentHDC → OwnHandle s (.draw (.call c)) := by
    rintro c hc c' hc'
    cases hc'
    exact hc
  unfold State.actQueue
  simp only
  split
  · exact hcall _ rfl
  split
  · exact hcall _ rfl
  split
  · exact hcall _ rfl
  split
  · exact hcall _ rfl
  split
  · exact hcall _ rfl
  split
  · exact hcall _ rfl
  split
  · split
    · exact hno _ fun c hc => Act.noConfusion hc
    · exact hno _ fun c hc => Act.noConfusion hc
  · exact hno _ fun c hc => Act.noConfusion hc

/-- In system mode a command uses the handle of the session. -/
theorem actSystem_own : OwnHandle s (s.actSystem argsCount argsBuffer junk) := by
  have hcall : ∀ c : Call, c.handle = some s.currentHDC → OwnHandle s (.draw (.call c)) := by
    rintro c hc c' hc'
    cases hc'
    exact hc
  unfold State.actSystem
  simp only
  split
  · exact fun c hc => Act.noConfusion hc
  split
  · exact hcall _ rfl
  split
  · exact hcall _ rfl
  split
  · exact hcall _ rfl
  split
  · rintro c hc
    cases hc
  split
  · exact hcall _ rfl
  split
  · exact hcall _ rfl
  · exact actQueue_own

/-- **What a line draws, it draws on its own context.** -/
theorem act_own : OwnHandle s (s.act argsCount argsBuffer junk) := by
  have hno : ∀ a : Act, (∀ c, a ≠ .draw c) → OwnHandle s a := fun a ha c hc => absurd hc (ha _)
  unfold State.act
  simp only
  split
  · exact hno _ fun c hc => Act.noConfusion hc
  split
  · exact hno _ fun c hc => Act.noConfusion hc
  split
  · split
    · exact hno _ fun c hc => Act.noConfusion hc
    · exact hno _ fun c hc => Act.noConfusion hc
  split
  · exact hno _ fun c hc => Act.noConfusion hc
  split
  · exact hno _ fun c hc => Act.noConfusion hc
  split
  · exact hno _ fun c hc => Act.noConfusion hc
  · exact actSystem_own

end

/-! ### What is left of a command -/

/-- The calls that are left are calls of `ExampleSquare`. -/
def State.InSquare (s : State) : Prop :=
  ∀ c, .call c ∈ s.pending → c ∈ ExampleSquare s.currentHDC

/-- What is left of every command is of `ExampleSquare`. -/
def World.Squares (w : World P) : Prop := ∀ p s, w.procs p = some s → s.InSquare

variable {w w' : World P} {p : P} {s : State} {h : Fin 5}

theorem World.Squares.set {g : Gfx} {t : Option State} (hw : w.Squares)
    (ht : ∀ s', t = some s' → s'.InSquare) : (w.set g p t).Squares := by
  intro q s' hq
  by_cases hqp : q = p
  · subst hqp
    exact ht s' (by simpa [World.set] using hq)
  · exact hw q s' (by simpa [World.set, hqp] using hq)

theorem line_cases {argsCount : Int32} {argsBuffer : Fin 30 → CStr} {locals : Locals}
    (hstep : Steps code w (.line p argsCount argsBuffer locals) w') :
    ∃ s, w.procs p = some s ∧ s.pending = [] ∧
      w.perform code p s locals (s.act argsCount argsBuffer locals.junk) = .ok w' := by
  obtain ⟨s, hp, hs⟩ := Option.bind_eq_some_iff.mp hstep
  obtain ⟨u, hu, hs⟩ := Option.bind_eq_some_iff.mp hs
  exact ⟨s, hp, List.isEmpty_iff.mp (guard_eq_some.mp hu), toOption_eq_some.mp hs⟩

/-- The next call of a process is the first that it has pending. -/
theorem next_cases (hstep : Steps code w (.next p) w') :
    ∃ s todo todos, w.procs p = some s ∧ s.pending = todo :: todos ∧
      w.next code p { s with pending := todos } todo = .ok w' := by
  obtain ⟨s, hp, hs⟩ := Option.bind_eq_some_iff.mp hstep
  obtain ⟨todo, htodo, hs⟩ := Option.bind_eq_some_iff.mp hs
  obtain ⟨todos, hpend⟩ := List.head?_eq_some_iff.mp htodo
  rw [hpend, List.tail_cons] at hs
  exact ⟨s, todo, todos, hp, hpend, toOption_eq_some.mp hs⟩

/-- The first step of a command. -/
theorem World.Squares.perform {locals : Locals} {a : Act} (hw : w.Squares)
    (hpend : s.pending = []) (hstep : w.perform code p s locals a = .ok w') : w'.Squares := by
  have hset : ∀ (g : Gfx) (t : State), (∀ c, Todo.call c ∉ t.pending) →
      (w.set g p (some t)).Squares := by
    intro g t ht
    refine hw.set fun s' hs' c hc => ?_
    cases hs'
    exact absurd hc (ht c)
  cases a with
  | print => cases hstep; exact hw
  | exit =>
      simp only [World.perform] at hstep
      split at hstep
      · obtain ⟨⟨r, g⟩, -, hstep⟩ := bind_eq_ok.mp hstep
        cases hstep
        exact hset _ _ (by simp)
      · cases hstep
        exact hset _ _ (by simp)
  | nHDC =>
      obtain ⟨⟨r, g⟩, -, hstep⟩ := bind_eq_ok.mp hstep
      cases hstep
      refine hset _ _ fun c hc => ?_
      dsimp only at hc
      split at hc <;> simp at hc
  | toggleMode => cases hstep; exact hset _ _ (by simp [hpend])
  | square =>
      cases hstep
      refine hw.set fun s' hs' c hc => ?_
      cases hs'
      simpa using hc
  | draw c =>
      obtain ⟨⟨r, g⟩, -, hstep⟩ := bind_eq_ok.mp hstep
      cases hstep
      exact hset _ _ (by simp [hpend])
  | exec =>
      obtain ⟨⟨r, g⟩, -, hstep⟩ := bind_eq_ok.mp hstep
      cases hstep
      refine hset _ _ fun c hc => ?_
      dsimp only at hc
      split at hc <;> simp at hc

/-- Nothing is left when the context is set. -/
theorem State.Sane.last {hdc : Int32} {todos : List Todo} (hs : s.Sane)
    (hpend : s.pending = .setHDC hdc :: todos) : todos = [] := by
  cases hs with
  | calls _ calls =>
      obtain ⟨c, -, hc⟩ := calls _ (hpend ▸ List.mem_cons_self)
      cases hc
  | began _ pending | ended _ pending =>
      cases hpend.symm.trans pending
      rfl
  | leaving pending => cases hpend.symm.trans pending

/-- **A step** keeps to `ExampleSquare`. -/
theorem World.Squares.step {e : Event P} (hw : w.Squares) (hsane : w.Sane)
    (hstep : Steps code w e w') : w'.Squares := by
  cases e with
  | start p =>
      simp only [Steps, World.step] at hstep
      split at hstep
      · cases hstep
        refine hw.set fun s' hs' c hc => ?_
        cases hs'
        cases hc
      · cases hstep
  | line p argsCount argsBuffer locals =>
      obtain ⟨s, -, hpend, hstep⟩ := line_cases hstep
      exact hw.perform hpend hstep
  | next p =>
      obtain ⟨s, todo, todos, hp, hpend, hstep⟩ := next_cases hstep
      have hrest : ∀ c, Todo.call c ∈ todos → c ∈ ExampleSquare s.currentHDC := fun c hc =>
        hw p s hp c (hpend ▸ List.mem_cons_of_mem _ hc)
      cases todo with
      | call c =>
          obtain ⟨⟨r, g⟩, -, hstep⟩ := bind_eq_ok.mp hstep
          cases hstep
          refine hw.set fun s' hs' => ?_
          cases hs'
          exact hrest
      | setHDC hdc =>
          cases hstep
          refine hw.set fun s' hs' c hc => ?_
          cases hs'
          rw [(hsane.procs p s hp).last hpend] at hc
          cases hc
      | exit =>
          cases hstep
          exact hw.set fun s' hs' => (by cases hs')
  | kill p =>
      simp only [Steps, World.step] at hstep
      split at hstep
      · cases hstep
        exact hw.set fun s' hs' => (by cases hs')
      · cases hstep

/-! ### The steps of a session -/

/-- A step of process `p`: a line, or what is left of it. -/
def Event.IsBy (p : P) : Event P → Prop
  | .line q _ _ _ => q = p
  | .next q => q = p
  | .start _ | .kill _ => False

/-- The step is the last call of `ExampleSquare`, made from another context than 0, and the cursor
of handle 0 is not at the origin. -/
def Strays (w : World P) (p : P) (h : Fin 5) (e : Event P) : Prop :=
  e = .next p ∧ h ≠ 0 ∧
    (∃ s, w.procs p = some s ∧ s.pending.head? = some (.call (.moveto 0 0 0))) ∧
    ¬ ((w.kernel.hdcObjects 0).x = 0 ∧ (w.kernel.hdcObjects 0).y = 0)

/-- The first step of a command is isolated. -/
theorem perform_isolated {locals : Locals} {a : Act} (hw : w.Sane) (hcur : s.currentHDC = Int32.ofNat h)
    (ha : Asked s a) (hown : OwnHandle s a)
    (hfits : ∀ c, a = .draw c → Fresh c ∧ w.kernel.RoomFor c)
    (hstep : w.perform code p s locals a = .ok w') {j : Fin 5} (hj : j ≠ h) :
    w'.kernel.hdcObjects j = w.kernel.hdcObjects j := by
  have hend : ∀ (executeQueue r : Int32) (g : Gfx), w.kernel.syscallFlat code
      (.call (.endpaint s.currentHDC executeQueue locals.queue)) = .ok (r, g) →
      g.hdcObjects j = w.kernel.hdcObjects j := by
    intro executeQueue r g hcall
    rw [hcur] at hcall
    have hroom : w.kernel.RoomFor (.call (.endpaint (Int32.ofNat h) executeQueue locals.queue)) :=
      trivial
    exact syscall_isolated hw.slots (endpaint_proper h executeQueue locals.queue) hroom rfl hcall hj
  cases ha with
  | print => cases hstep; rfl
  | exit =>
      simp only [World.perform] at hstep
      split at hstep
      · obtain ⟨⟨r, g⟩, hcall, hstep⟩ := bind_eq_ok.mp hstep
        cases hstep
        exact hend _ _ _ hcall
      · cases hstep
        rfl
  | nHDC idle => exact absurd (hcur.symm.trans idle) (ofNat_ne_neg_one h)
  | toggleMode => cases hstep; rfl
  | drawn hdc drawn =>
      cases drawn with
      | print => cases hstep; rfl
      | square => cases hstep; rfl
      | exec =>
          obtain ⟨⟨r, g⟩, hcall, hstep⟩ := bind_eq_ok.mp hstep
          cases hstep
          exact hend _ _ _ hcall
      | @draw c draws proper =>
          obtain ⟨hset, hroom⟩ := hfits c rfl
          obtain ⟨⟨r, g⟩, hcall, hstep⟩ := bind_eq_ok.mp hstep
          cases hstep
          have hp := proper (hcur ▸ valid_ofNat h) hset
          cases c with
          | call c =>
              exact syscall_isolated hw.slots hp hroom ((hown c rfl).trans (congrArg some hcur))
                hcall hj
          | setpencolour index red green b =>
              exact congrFun (setpencolour_same hcall) j

/-- What is left of a command is isolated, but for the last call. -/
theorem next_isolated_iff {todo : Todo} {todos : List Todo} (hw : w.Sane) (hsq : w.Squares)
    (hp : w.procs p = some s) (hpend : s.pending = todo :: todos)
    (hcur : s.currentHDC = Int32.ofNat h)
    (hstep : w.next code p { s with pending := todos } todo = .ok w') :
    (∀ j ≠ h, w'.kernel.hdcObjects j = w.kernel.hdcObjects j) ↔ ¬ Strays w p h (.next p) := by
  have hhead : s.pending.head? = some todo := by rw [hpend, List.head?_cons]
  cases todo with
  | setHDC hdc =>
      cases hstep
      refine iff_of_true (fun j _ => rfl) ?_
      rintro ⟨-, -, ⟨s', hp', hs'⟩, -⟩
      cases hp.symm.trans hp'
      cases hhead.symm.trans hs'
  | exit =>
      cases hstep
      refine iff_of_true (fun j _ => rfl) ?_
      rintro ⟨-, -, ⟨s', hp', hs'⟩, -⟩
      cases hp.symm.trans hp'
      cases hhead.symm.trans hs'
  | call c =>
      obtain ⟨⟨r, g⟩, hcall, hstep⟩ := bind_eq_ok.mp hstep
      cases hstep
      -- The last call of the example is the one for handle 0.
      by_cases hlast : c = .moveto 0 0 0
      · subst hlast
        refine (reset_isolated_iff hcall).trans ⟨?_, fun hno => ?_⟩
        · rintro hor ⟨-, h0, -, hxy⟩
          exact hxy (hor.resolve_left h0)
        · by_contra hor
          obtain ⟨h0, hxy⟩ := not_or.mp hor
          exact hno ⟨rfl, h0, ⟨s, hp, hhead⟩, hxy⟩
      · have hc := hsq p s hp c (hpend ▸ List.mem_cons_self)
        rw [hcur] at hc
        have himm := ExampleSquare_immediate (valid_ofNat h) hc
        have hown : c.handle = some (Int32.ofNat h) := by
          simp only [ExampleSquare, List.mem_cons, List.not_mem_nil, or_false] at hc
          rcases hc with rfl | rfl | rfl | rfl | rfl | rfl
          · rfl
          · rfl
          · rfl
          · rfl
          · rfl
          · exact absurd rfl hlast
        refine iff_of_true (fun j hj => ?_) ?_
        · exact syscall_isolated hw.slots himm.proper (himm.room w.kernel) hown hcall hj
        · rintro ⟨-, -, ⟨s', hp', hs'⟩, -⟩
          cases hp.symm.trans hp'
          cases hhead.symm.trans hs'
          exact hlast rfl

/-- **Sessions only touch their own context.**  In a run where every queued command finds room and
a fresh buffer, a step of a session with context `h` leaves the cursor, pen, queue and mark of every
other slot alone exactly if it does not stray. -/
theorem session_isolated_iff (code : Option Action → UInt32) (pixMem : UInt16 → UInt8)
    (es : List (Event P)) (w w' : World P) (p : P) (s : State) (h : Fin 5) (e : Event P)
    (hrun : Run (FittingSteps code) (World.boot pixMem) es w) (hp : w.procs p = some s)
    (hcur : s.currentHDC = Int32.ofNat h) (he : e.IsBy p) (hstep : FittingSteps code w e w') :
    (∀ j ≠ h, w'.kernel.hdcObjects j = w.kernel.hdcObjects j) ↔ ¬ Strays w p h e := by
  obtain ⟨hw, hsq⟩ : Ruled w ∧ w.Squares := by
    refine hrun.inv (I := fun w => Ruled w ∧ w.Squares) (fun _ _ _ hstep hs =>
      ⟨hs.1.step hstep.1 hstep.2, hs.2.step hs.1.sane hstep.2⟩) ⟨boot_ruled pixMem, ?_⟩
    intro q s hq
    cases hq
  obtain ⟨hfits, hstep⟩ := hstep
  cases e with
  | start q | kill q => exact he.elim
  | line q argsCount argsBuffer locals =>
      obtain rfl : q = p := he
      obtain ⟨s', hp', hpend, hperform⟩ := line_cases hstep
      cases hp.symm.trans hp'
      refine iff_of_true (fun j hj => ?_) (fun hstray => by cases hstray.1)
      exact perform_isolated hw.sane hcur act_asked act_own (fun c => hfits s c hp) hperform hj
  | next q =>
      obtain rfl : q = p := he
      obtain ⟨s', todo, todos, hp', hpend, hnext⟩ := next_cases hstep
      cases hp.symm.trans hp'
      exact next_isolated_iff hw.sane hsq hp hpend hcur hnext

/-- The first of two sessions moves the cursor of its context 0. -/
theorem session_isolated_first : ∃ w w' : World Bool,
    Run (FittingSteps fun _ => 0) (World.boot fun _ => 0) (takesContext true ++ takesContext false)
      w ∧
    FittingSteps (fun _ => 0) w (types true [['-', 'm'], ['5'], ['7']]) w' ∧
    ((∀ j ≠ 0, w'.kernel.hdcObjects j = w.kernel.hdcObjects j) ↔
      ¬ Strays w true 0 (types true [['-', 'm'], ['5'], ['7']])) := by
  obtain ⟨w, hrun, htrue, -, hend⟩ := both_take
  have hw : Ruled w := hrun.inv (fun _ _ _ hstep hs => hs.step hstep.1 hstep.2) (boot_ruled _)
  have hfits : Fits w (types true [['-', 'm'], ['5'], ['7']]) := by
    intro s c hs hc
    cases htrue.symm.trans hs
    cases hc
    refine ⟨show (0 : Int32) ≠ 1 by decide, fun h hh => ?_⟩
    obtain rfl : 0 = h := Except.ok.inj ((hdcAt_ofNat 0).symm.trans hh)
    rw [hend]
    decide
  obtain ⟨w', hstep, -⟩ := step_refines (fun _ => 0) hw hfits ⟨_, htrue, rfl⟩
  exact ⟨w, w', hrun, ⟨hfits, hstep⟩,
    session_isolated_iff _ _ _ w w' true _ 0 _ hrun htrue rfl rfl ⟨hfits, hstep⟩⟩

/-- Two sessions in system-call mode; the first has moved its cursor, the second is at the last call
of its square. -/
def squareOfSecond : List (Event Bool) :=
  takesContext true ++ takesContext false ++
    [types true [['-', 't', 'o', 'g', 'g', 'l', 'e', 'M', 'o', 'd', 'e']],
      types true [['-', 'm'], ['5'], ['7']],
      types false [['-', 't', 'o', 'g', 'g', 'l', 'e', 'M', 'o', 'd', 'e']],
      types false [['-', 'e']]] ++ List.replicate 5 (.next false)

/-- **The square of the second session moves the cursor of the first.** -/
theorem square_moves_first :
    ¬ ∀ (es : List (Event Bool)) (w w' : World Bool) (p : Bool) (s : State) (h : Fin 5)
      (e : Event Bool), Run (Steps fun _ => 0) (World.boot fun _ => 0) es w →
      w.procs p = some s → s.currentHDC = Int32.ofNat h → e.IsBy p → Steps (fun _ => 0) w e w' →
      ∀ j ≠ h, w'.kernel.hdcObjects j = w.kernel.hdcObjects j := by
  intro hall
  have hend : ((squareOfSecond.foldlM (World.step fun _ => 0) (World.boot fun _ => 0)).any fun w =>
      (w.procs false).map State.currentHDC = some 1 ∧ (w.kernel.hdcObjects 0).x = 5 ∧
      (w.step (fun _ => 0) (.next false)).any fun w' => (w'.kernel.hdcObjects 0).x = 0) = true := by
    decide +kernel
  obtain ⟨w, hw, hd⟩ := (Option.any_eq_true _ _).mp hend
  obtain ⟨hs, hx, hnext⟩ := of_decide_eq_true hd
  obtain ⟨s, hp, hcur⟩ := Option.map_eq_some_iff.mp hs
  obtain ⟨w', hstep, hd'⟩ := (Option.any_eq_true _ _).mp hnext
  have hx' : (w'.kernel.hdcObjects 0).x = 0 := of_decide_eq_true hd'
  have hrun : Run (Steps fun _ => 0) (World.boot fun _ => 0) squareOfSecond w := Run.of_foldlM hw
  rw [hall _ w w' false s 1 (.next false) hrun hp hcur rfl hstep 0 (by decide), hx] at hx'
  exact absurd hx' (by decide)

end Xv6.Painter

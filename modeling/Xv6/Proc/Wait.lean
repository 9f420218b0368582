import Xv6.Lib.Partial
import Xv6.Proc.Table

/-!
# Processes — `exit` and `wait`

What a parent may rely on, told by the history of forks, exits and waits: a process is returned
by at most one `wait`, after it has exited, and by the process that is its parent then
(`ParentOf`: the one that forked it, or `initproc` once that one has exited); `wait` fails only
when there is no child or the caller was killed; and nobody sleeps in `wait` with an exited child.

`Inv` ties the table to the history.  Each active entry has a live parent, which is its parent by
the history; an entry that is being set up belongs to the one process inside `fork` that has
reserved it; and a parent asleep in `wait` sleeps on its own entry, where `exit` wakes it.
-/

namespace Xv6.Process

/-! ### Histories -/

/-- `w` is the parent of `c`: it forked `c` and is still there, or it is `initproc` and whoever
forked `c` has exited. -/
def ParentOf (h : List Event) (w c : ℕ) : Prop :=
  (.forked w c ∈ h ∧ .exited w ∉ h) ∨ (w = 0 ∧ ∃ p, .forked p c ∈ h ∧ .exited p ∈ h)

/-- The event is about process `u`. -/
def Event.names (u : ℕ) : Event → Prop
  | .forked p c => p = u ∨ c = u
  | .exited p => p = u
  | .waited p c => p = u ∨ c = u

/-- Every wait in the history returned a child of the caller that had exited and that no wait had
returned before. -/
inductive Lawful : List Event → Prop where
  | nil : Lawful []
  | cons {e : Event} {h : List Event} (hl : Lawful h)
      (he : ∀ w c, e = .waited w c → .exited c ∈ h ∧ ParentOf h w c ∧ ∀ w', .waited w' c ∉ h) :
      Lawful (e :: h)

/-- A history in which a wait returned `c` has no other wait that did. -/
theorem Lawful.split {l h : List Event} {w c : ℕ} (hl : Lawful (l ++ .waited w c :: h)) :
    .exited c ∈ h ∧ ParentOf h w c ∧ ∀ w', .waited w' c ∉ l ++ h := by
  induction l with
  | nil =>
      cases hl with
      | cons _ he => exact he w c rfl
  | cons e l ih =>
      cases hl with
      | cons hl he =>
          obtain ⟨hx, hp, hn⟩ := ih hl
          refine ⟨hx, hp, fun w' hw' => ?_⟩
          rcases List.mem_cons.mp hw' with hw' | hw'
          · exact (he w' c hw'.symm).2.2 w (by simp)
          · exact hn w' hw'

theorem ParentOf.cons {h : List Event} {w c : ℕ} {e : Event} (hp : ParentOf h w c)
    (he : e ≠ .exited w) : ParentOf (e :: h) w c := by
  rcases hp with ⟨hf, hx⟩ | ⟨rfl, p, hf, hx⟩
  · refine .inl ⟨List.mem_cons_of_mem _ hf, ?_⟩
    simp [hx, Ne.symm he]
  · exact .inr ⟨rfl, p, List.mem_cons_of_mem _ hf, List.mem_cons_of_mem _ hx⟩

/-- The children of a process that exits become children of `initproc`. -/
theorem ParentOf.exit {h : List Event} {w c : ℕ} (hp : ParentOf h w c) (hw : w ≠ 0) :
    ParentOf (.exited w :: h) 0 c := by
  rcases hp with ⟨hf, -⟩ | ⟨rfl, -⟩
  · exact .inr ⟨rfl, w, List.mem_cons_of_mem _ hf, List.mem_cons_self ..⟩
  · exact absurd rfl hw

/-- A process has one parent at a time. -/
theorem ParentOf.unique {h : List Event} {w w' c : ℕ}
    (hf : ∀ u u' c, .forked u c ∈ h → .forked u' c ∈ h → u = u') (hw : ParentOf h w c)
    (hw' : ParentOf h w' c) : w = w' := by
  rcases hw with ⟨h1, h2⟩ | ⟨rfl, p, h1, h2⟩
  · rcases hw' with ⟨h3, -⟩ | ⟨-, q, h3, h4⟩
    · exact hf w w' c h1 h3
    · rw [hf w q c h1 h3] at h2
      exact absurd h4 h2
  · rcases hw' with ⟨h3, h4⟩ | ⟨h3, -⟩
    · rw [hf p w' c h1 h3] at h2
      exact absurd h2 h4
    · exact h3.symm

namespace Ptable

variable {s t : Ptable} {p q i j : Fin NPROC}

@[simp, grind =]
theorem set_proc (s : Ptable) (i : Fin NPROC) (x : Proc) (j : Fin NPROC) :
    (s.set i x).proc j = if j = i then x else s.proc j := Function.update_apply ..

@[simp, grind =]
theorem set_history (s : Ptable) (i : Fin NPROC) (x : Proc) : (s.set i x).history = s.history := rfl

@[simp, grind =]
theorem set_initproc (s : Ptable) (i : Fin NPROC) (x : Proc) :
    (s.set i x).initproc = s.initproc := rfl

@[simp, grind =]
theorem set_nextuid (s : Ptable) (i : Fin NPROC) (x : Proc) : (s.set i x).nextuid = s.nextuid := rfl

@[simp, grind =]
theorem wakeup1_proc (s : Ptable) (c : Option Chan) (i : Fin NPROC) :
    (s.wakeup1 c).proc i = wake c (s.proc i) := rfl

@[simp, grind =]
theorem wakeup1_history (s : Ptable) (c : Option Chan) : (s.wakeup1 c).history = s.history := rfl

@[simp, grind =]
theorem wakeup1_initproc (s : Ptable) (c : Option Chan) :
    (s.wakeup1 c).initproc = s.initproc := rfl

@[simp, grind =]
theorem wakeup1_nextuid (s : Ptable) (c : Option Chan) : (s.wakeup1 c).nextuid = s.nextuid := rfl

/-- A process, dead or alive, whose fork has returned. -/
def Active (s : Ptable) (i : Fin NPROC) : Prop :=
  (s.proc i).state ≠ .unused ∧ (s.proc i).state ≠ .embryo

/-- The invariant. -/
structure Inv (s : Ptable) : Prop where
  init_uid : (s.proc s.initproc).uid = 0
  init_live : (s.proc s.initproc).state.live = true
  uid_inj : ∀ i j, (s.proc i).state ≠ .unused → (s.proc j).state ≠ .unused →
    (s.proc i).uid = (s.proc j).uid → i = j
  uid_lt : ∀ i, (s.proc i).state ≠ .unused → (s.proc i).uid < s.nextuid
  unused : ∀ i, (s.proc i).state = .unused → (s.proc i).parent = none
  embryo : ∀ i j, (s.proc i).state = .embryo → (s.proc i).parent = some j →
    (s.proc j).state.live = true ∧ (s.proc j).pc = .runnable i
  reserves : ∀ p np, (s.proc p).state.live = true → (s.proc p).pc.reserves = some np →
    (s.proc np).state = .embryo ∧
    (s.proc np).parent = if (s.proc p).pc = .runnable np then some p else none
  reserves_inj : ∀ p p' np, (s.proc p).state.live = true → (s.proc p').state.live = true →
    (s.proc p).pc.reserves = some np → (s.proc p').pc.reserves = some np → p = p'
  parent : ∀ i, s.Active i → i ≠ s.initproc → ∃ j, (s.proc i).parent = some j ∧
    (s.proc j).state.live = true ∧ ParentOf s.history (s.proc j).uid (s.proc i).uid
  zombie : ∀ i, s.Active i →
    ((s.proc i).state = .zombie ↔ .exited (s.proc i).uid ∈ s.history)
  not_waited : ∀ i w, s.Active i → .waited w (s.proc i).uid ∉ s.history
  fresh : ∀ e ∈ s.history, (∀ u, e.names u → u < s.nextuid) ∧
    ∀ i, (s.proc i).state = .embryo → ¬ e.names (s.proc i).uid
  forked : ∀ u u' c, .forked u c ∈ s.history → .forked u' c ∈ s.history → u = u'
  forked_ne : ∀ u c, .forked u c ∈ s.history → c ≠ 0 ∧ u ≠ c
  present : ∀ u c, .forked u c ∈ s.history →
    (∃ w, .waited w c ∈ s.history) ∨ ∃ i, s.Active i ∧ (s.proc i).uid = c
  lawful : Lawful s.history
  asleep : ∀ p, (s.proc p).state = .sleeping → (s.proc p).pc = .wait →
    (s.proc p).chan = some (.proc p) ∧
    ∀ q, (s.proc q).parent = some p → (s.proc q).state ≠ .zombie

theorem boot_inv : boot.Inv := by
  constructor <;> grind [boot, Active, State.live, Pc.reserves, Lawful]

/-! ### Scheduling -/

/-- From `x` to `y` only the scheduling of a live process changes. -/
structure Moved (x y : Proc) : Prop where
  uid : y.uid = x.uid
  pc : y.pc = x.pc
  parent : y.parent = x.parent
  state : y.state = x.state ∨ (x.state.live = true ∧ y.state.live = true)

/-- From `x` to `y` nobody falls asleep in `wait`. -/
def StaysUp (x y : Proc) : Prop :=
  y.state = .sleeping → y.pc = .wait → x.state = .sleeping ∧ y.chan = x.chan

theorem Moved.refl (x : Proc) : Moved x x := ⟨rfl, rfl, rfl, .inl rfl⟩

namespace Moved

variable {x y : Proc}

theorem live (h : Moved x y) : y.state.live = x.state.live := by
  rcases h.state with e | ⟨hx, hy⟩
  · rw [e]
  · rw [hx, hy]

theorem eq_iff (h : Moved x y) {z : State} (hz : z.live = false) : y.state = z ↔ x.state = z := by
  rcases h.state with e | ⟨hx, hy⟩
  · rw [e]
  · grind

end Moved

/-- A change that moves processes within what `Moved` allows keeps the invariant. -/
theorem Inv.moved (h : s.Inv) (hi : t.initproc = s.initproc) (hu : t.nextuid = s.nextuid)
    (hh : t.history = s.history) (hm : ∀ i, Moved (s.proc i) (t.proc i))
    (ha : ∀ p, (t.proc p).state = .sleeping → (t.proc p).pc = .wait →
      (t.proc p).chan = some (.proc p) ∧
      ∀ q, (s.proc q).parent = some p → (s.proc q).state ≠ .zombie) : t.Inv := by
  have huid := fun i => (hm i).uid
  have hpc := fun i => (hm i).pc
  have hpar := fun i => (hm i).parent
  have hlive := fun i => (hm i).live
  have hun := fun i => (hm i).eq_iff (z := .unused) rfl
  have hem := fun i => (hm i).eq_iff (z := .embryo) rfl
  have hz := fun i => (hm i).eq_iff (z := .zombie) rfl
  have hact : ∀ i, t.Active i ↔ s.Active i := fun i => by simp only [Active, ne_eq, hun, hem]
  constructor
  · rw [hi, huid]; exact h.init_uid
  · rw [hi, hlive]; exact h.init_live
  · simpa only [ne_eq, hun, huid] using h.uid_inj
  · simpa only [ne_eq, hun, huid, hu] using h.uid_lt
  · simpa only [hun, hpar] using h.unused
  · simpa only [hem, hpar, hlive, hpc] using h.embryo
  · simpa only [hem, hpar, hlive, hpc] using h.reserves
  · simpa only [hlive, hpc] using h.reserves_inj
  · simpa only [hact, hi, hpar, hlive, hh, huid] using h.parent
  · simpa only [hact, hz, hh, huid] using h.zombie
  · simpa only [hact, hh, huid] using h.not_waited
  · simpa only [hh, hu, hem, huid] using h.fresh
  · simpa only [hh] using h.forked
  · simpa only [hh] using h.forked_ne
  · simpa only [hh, hact, huid] using h.present
  · rw [hh]; exact h.lawful
  · simpa only [hpar, ne_eq, hz] using ha

/-- A step of the scheduler, `sleep`, `wakeup` or `kill`. -/
theorem Inv.staysUp (h : s.Inv) (hi : t.initproc = s.initproc) (hu : t.nextuid = s.nextuid)
    (hh : t.history = s.history) (hm : ∀ i, Moved (s.proc i) (t.proc i))
    (hs : ∀ i, StaysUp (s.proc i) (t.proc i)) : t.Inv := by
  refine h.moved hi hu hh hm fun p hp hw => ?_
  obtain ⟨h1, h2⟩ := hs p hp hw
  obtain ⟨h3, h4⟩ := h.asleep p h1 (by rw [← (hm p).pc]; exact hw)
  exact ⟨h2.trans h3, h4⟩

theorem wake_moved (c : Option Chan) (x : Proc) : Moved x (wake c x) ∧ StaysUp x (wake c x) := by
  unfold wake
  split
  · rename_i hx
    exact ⟨⟨rfl, rfl, rfl, .inr ⟨by rw [hx.1]; rfl, rfl⟩⟩, fun h => by cases h⟩
  · exact ⟨.refl x, fun h _ => ⟨h, rfl⟩⟩

theorem Inv.wakeup1 (h : s.Inv) (c : Option Chan) : (s.wakeup1 c).Inv :=
  h.staysUp rfl rfl rfl (fun i => (wake_moved c (s.proc i)).1) fun i => (wake_moved c (s.proc i)).2

theorem set_moved {x : Proc} (hx : Moved (s.proc p) x) (i : Fin NPROC) :
    Moved (s.proc i) ((s.set p x).proc i) := by
  rw [set_proc]
  split
  · rename_i hi; rw [hi]; exact hx
  · exact .refl _

theorem Inv.set (h : s.Inv) {x : Proc} (hx : Moved (s.proc p) x) (hs : StaysUp (s.proc p) x) :
    (s.set p x).Inv :=
  h.staysUp rfl rfl rfl (set_moved hx) fun i => by
    rw [set_proc]
    split
    · rename_i hi; rw [hi]; exact hs
    · exact fun h _ => ⟨h, rfl⟩

theorem Inv.sched (h : s.Inv) (hp : (s.proc p).state = .runnable) : (s.sched p).Inv :=
  h.set ⟨rfl, rfl, rfl, .inr ⟨by rw [hp]; rfl, rfl⟩⟩ fun h => by cases h

theorem Inv.yield (h : s.Inv) (hp : (s.proc p).state = .running) : (s.yield p).Inv :=
  h.set ⟨rfl, rfl, rfl, .inr ⟨by rw [hp]; rfl, rfl⟩⟩ fun h => by cases h

theorem Inv.sleep (h : s.Inv) (hp : s.runs p .user) (c : Chan) : (s.sleep p c).Inv :=
  h.set ⟨rfl, rfl, rfl, .inr ⟨by rw [hp.1]; rfl, rfl⟩⟩
    fun _ hw => by rw [hp.2] at hw; cases hw

/-- The sleep of `wait`, with no zombie among the children. -/
theorem Inv.sleep_wait (h : s.Inv) (hp : s.runs p .wait)
    (hz : ∀ q, (s.proc q).parent = some p → (s.proc q).state ≠ .zombie) :
    (s.sleep p (.proc p)).Inv := by
  refine h.moved rfl rfl rfl (set_moved ⟨rfl, rfl, rfl, .inr ⟨by rw [hp.1]; rfl, rfl⟩⟩)
    fun r hr hw => ?_
  rw [Ptable.sleep, set_proc] at hr hw ⊢
  by_cases hrp : r = p
  · subst hrp
    exact ⟨by simp, hz⟩
  · rw [if_neg hrp] at hr hw ⊢
    exact h.asleep r hr hw

theorem kill1_moved (x : Proc) : Moved x (kill1 x) := by
  refine ⟨rfl, rfl, rfl, ?_⟩
  by_cases hx : x.state = .sleeping
  · exact .inr ⟨by rw [hx]; rfl, by simp [kill1, hx, State.live]⟩
  · exact .inl (by simp [kill1, hx])

/-- `kill` keeps it. -/
theorem Inv.kill (h : s.Inv) (pid : Int32) : (s.kill pid).1.Inv := by
  unfold Ptable.kill
  split
  · refine h.set (kill1_moved _) fun hs _ => ?_
    simp only [kill1] at hs
    split at hs
    · cases hs
    · exact absurd hs ‹_›
  · exact h

/-! ### `fork` -/

/-- A process goes on in its code. -/
theorem Inv.goto (h : s.Inv) {pc : Pc} (hr : pc.reserves = (s.proc p).pc.reserves)
    (hp : (s.proc p).state = .running) (h1 : ∀ np, pc ≠ .runnable np)
    (h2 : ∀ np, (s.proc p).pc ≠ .runnable np) : (s.goto p pc).Inv := by
  have hst : ∀ i, ((s.goto p pc).proc i).state = (s.proc i).state := by grind [Ptable.goto]
  have huid : ∀ i, ((s.goto p pc).proc i).uid = (s.proc i).uid := by grind [Ptable.goto]
  have hpar : ∀ i, ((s.goto p pc).proc i).parent = (s.proc i).parent := by grind [Ptable.goto]
  have hres : ∀ i, ((s.goto p pc).proc i).pc.reserves = (s.proc i).pc.reserves := by
    grind [Ptable.goto]
  have hrun : ∀ i np, ((s.goto p pc).proc i).pc = .runnable np ↔ (s.proc i).pc = .runnable np := by
    grind [Ptable.goto]
  have hact : ∀ i, (s.goto p pc).Active i ↔ s.Active i := fun i => by simp only [Active, hst]
  constructor
  · rw [huid]; exact h.init_uid
  · rw [hst]; exact h.init_live
  · simpa only [hst, huid] using h.uid_inj
  · intro i; rw [hst, huid]; exact h.uid_lt i
  · simpa only [hst, hpar] using h.unused
  · simpa only [hst, hpar, hrun] using h.embryo
  · simpa only [hst, hpar, hres, hrun] using h.reserves
  · simpa only [hst, hres] using h.reserves_inj
  · intro i; simp only [hact, hpar, hst, huid]; exact h.parent i
  · intro i; simp only [hact, hst, huid]; exact h.zombie i
  · intro i w; rw [hact, huid]; exact h.not_waited i w
  · intro e; simp only [hst, huid]; exact h.fresh e
  · exact h.forked
  · exact h.forked_ne
  · intro u c; simp only [hact, huid]; exact h.present u c
  · exact h.lawful
  · grind [Ptable.goto, h.asleep]

/-- `allocproc` finds no entry, or turns a free one into an embryo that `p` has reserved. -/
theorem allocproc_spec (hp : s.runs p .user) : s.allocproc p = s ∨ ∃ np, p ≠ np ∧
    (s.proc np).state = .unused ∧
    (∀ i, ((s.allocproc p).proc i).state = if i = np then .embryo else (s.proc i).state) ∧
    (∀ i, ((s.allocproc p).proc i).uid = if i = np then s.nextuid else (s.proc i).uid) ∧
    (∀ i, ((s.allocproc p).proc i).parent = (s.proc i).parent) ∧
    (∀ i, ((s.allocproc p).proc i).pc = if i = p then .kalloc np else (s.proc i).pc) ∧
    (∀ i, ((s.allocproc p).proc i).chan = (s.proc i).chan) ∧
    (s.allocproc p).nextuid = s.nextuid + 1 ∧ (s.allocproc p).initproc = s.initproc ∧
    (s.allocproc p).history = s.history := by
  unfold Ptable.allocproc
  split
  · exact .inl rfl
  · rename_i np hnp
    have hun : (s.proc np).state = .unused := by simpa using List.find?_some hnp
    have hne : p ≠ np := by rintro rfl; rw [hp.1] at hun; cases hun
    refine .inr ⟨np, hne, hun, ?_, ?_, ?_, ?_, ?_, rfl, rfl, rfl⟩
    all_goals
      intro i
      by_cases h1 : i = p
      · simp [h1, hne]
      · by_cases h2 : i = np <;> simp [h1, h2, hne.symm]

/-- `allocproc` keeps it: the new entry has a number that was not used. -/
theorem Inv.allocproc (h : s.Inv) (hp : s.runs p .user) : (s.allocproc p).Inv := by
  obtain he | ⟨np, hne, hun, hst, huid, hpar, hpc, hch, hnext, hinit, hh⟩ := allocproc_spec hp
  · rw [he]; exact h
  obtain ⟨hp1, hp2⟩ := hp
  generalize s.allocproc p = t at *
  have hactive : ∀ i, t.Active i ↔ s.Active i := by grind [Active]
  have hi := h.init_live
  have hlt := h.uid_lt
  constructor
  · grind [State.live, h.init_uid]
  · grind [State.live]
  · grind [h.uid_inj]
  · grind
  · grind [h.unused]
  · grind [h.embryo, h.unused, State.live]
  · grind [h.reserves, h.unused, State.live, Pc.reserves]
  · grind [h.reserves, h.reserves_inj, State.live, Pc.reserves]
  · grind [h.parent, Active, State.live]
  · grind [h.zombie, Active]
  · grind [h.not_waited, Active]
  · intro e he
    obtain ⟨h1, h2⟩ := h.fresh e (hh ▸ he)
    refine ⟨fun u hu => ?_, fun i hi => ?_⟩
    · have := h1 u hu
      omega
    · by_cases hin : i = np
      · rw [huid, if_pos hin]
        exact fun hu => absurd (h1 _ hu) (lt_irrefl _)
      · rw [hst, if_neg hin] at hi
        rw [huid, if_neg hin]
        exact h2 i hi
  · rw [hh]; exact h.forked
  · rw [hh]; exact h.forked_ne
  · grind [h.present, Active]
  · rw [hh]; exact h.lawful
  · grind [h.asleep]

/-- What a process inside `fork` knows of its entry. -/
theorem Inv.reserved (h : s.Inv) {pc : Pc} {np : Fin NPROC} (hp : s.runs p pc)
    (hr : pc.reserves = some np) : p ≠ np ∧ (s.proc np).state = .embryo ∧
      (s.proc np).parent = if pc = .runnable np then some p else none := by
  obtain ⟨hp1, rfl⟩ := hp
  obtain ⟨h1, h2⟩ := h.reserves p np (by rw [hp1]; rfl) hr
  refine ⟨?_, h1, h2⟩
  rintro rfl
  rw [hp1] at h1
  cases h1

/-- A `fork` that fails gives its entry back. -/
theorem Inv.forkFails (h : s.Inv) {pc : Pc} {np : Fin NPROC} (hp : s.runs p pc)
    (hr : pc.reserves = some np) (hpc : pc ≠ .runnable np) : (s.forkFails p np).Inv := by
  obtain ⟨hne, hem, hnone⟩ := h.reserved hp hr
  rw [if_neg hpc] at hnone
  obtain ⟨hp1, rfl⟩ := hp
  have hst : ∀ i, ((s.forkFails p np).proc i).state =
      if i = np then .unused else (s.proc i).state := by grind [Ptable.forkFails]
  have huid : ∀ i, ((s.forkFails p np).proc i).uid = (s.proc i).uid := by grind [Ptable.forkFails]
  have hpar : ∀ i, ((s.forkFails p np).proc i).parent = (s.proc i).parent := by
    grind [Ptable.forkFails]
  have hpc' : ∀ i, ((s.forkFails p np).proc i).pc = if i = p then .user else (s.proc i).pc := by
    grind [Ptable.forkFails]
  have hch : ∀ i, ((s.forkFails p np).proc i).chan = (s.proc i).chan := by grind [Ptable.forkFails]
  have hinit : (s.forkFails p np).initproc = s.initproc := rfl
  have hnext : (s.forkFails p np).nextuid = s.nextuid := rfl
  have hh : (s.forkFails p np).history = s.history := rfl
  generalize s.forkFails p np = t at *
  have hactive : ∀ i, t.Active i ↔ s.Active i := by grind [Active]
  have hi := h.init_live
  have hlt := h.uid_lt
  constructor
  · grind [State.live, h.init_uid]
  · grind [State.live]
  · grind [h.uid_inj]
  · grind
  · grind [h.unused]
  · grind [h.embryo, State.live, Pc.reserves]
  · grind [h.reserves, h.reserves_inj, State.live, Pc.reserves]
  · grind [h.reserves_inj, State.live, Pc.reserves]
  · grind [h.parent, Active, State.live]
  · grind [h.zombie, Active]
  · grind [h.not_waited, Active]
  · grind [h.fresh]
  · rw [hh]; exact h.forked
  · rw [hh]; exact h.forked_ne
  · grind [h.present, Active]
  · rw [hh]; exact h.lawful
  · grind [h.asleep]

/-- The child has a parent before it can run. -/
theorem Inv.setParent (h : s.Inv) {np : Fin NPROC} (hp : s.runs p (.parent np)) :
    (s.setParent p np).Inv := by
  obtain ⟨hne, hem, hnone⟩ := h.reserved hp rfl
  rw [if_neg (by simp)] at hnone
  obtain ⟨hp1, hp2⟩ := hp
  have hst : ∀ i, ((s.setParent p np).proc i).state = (s.proc i).state := by
    grind [Ptable.setParent]
  have huid : ∀ i, ((s.setParent p np).proc i).uid = (s.proc i).uid := by grind [Ptable.setParent]
  have hpar : ∀ i, ((s.setParent p np).proc i).parent =
      if i = np then some p else (s.proc i).parent := by grind [Ptable.setParent]
  have hpc : ∀ i, ((s.setParent p np).proc i).pc =
      if i = p then .runnable np else (s.proc i).pc := by grind [Ptable.setParent]
  have hch : ∀ i, ((s.setParent p np).proc i).chan = (s.proc i).chan := by grind [Ptable.setParent]
  have hinit : (s.setParent p np).initproc = s.initproc := rfl
  have hnext : (s.setParent p np).nextuid = s.nextuid := rfl
  have hh : (s.setParent p np).history = s.history := rfl
  generalize s.setParent p np = t at *
  have hactive : ∀ i, t.Active i ↔ s.Active i := by grind [Active]
  have hi := h.init_live
  have hlt := h.uid_lt
  constructor
  · grind [h.init_uid]
  · grind
  · grind [h.uid_inj]
  · grind
  · grind [h.unused]
  · grind [h.embryo, State.live, Pc.reserves]
  · grind [h.reserves, h.reserves_inj, State.live, Pc.reserves]
  · grind [h.reserves_inj, State.live, Pc.reserves]
  · grind [h.parent, Active, State.live]
  · grind [h.zombie, Active]
  · grind [h.not_waited, Active]
  · grind [h.fresh]
  · rw [hh]; exact h.forked
  · rw [hh]; exact h.forked_ne
  · grind [h.present, Active]
  · rw [hh]; exact h.lawful
  · grind [h.asleep]

/-- What the end of `fork` changes, entry by entry. -/
theorem setRunnable_spec {np : Fin NPROC} (hne : p ≠ np) :
    (∀ i, ((s.setRunnable p np).proc i).state = if i = np then .runnable else (s.proc i).state) ∧
    (∀ i, ((s.setRunnable p np).proc i).uid = (s.proc i).uid) ∧
    (∀ i, ((s.setRunnable p np).proc i).parent = (s.proc i).parent) ∧
    (∀ i, ((s.setRunnable p np).proc i).pc = if i = np ∨ i = p then .user else (s.proc i).pc) ∧
    (∀ i, ((s.setRunnable p np).proc i).chan = (s.proc i).chan) := by
  refine ⟨?_, ?_, ?_, ?_, ?_⟩
  all_goals
    intro i
    by_cases h1 : i = p
    · simp [Ptable.setRunnable, h1, hne]
    · by_cases h2 : i = np <;> simp [Ptable.setRunnable, h1, h2, hne.symm]

/-- The end of `fork` keeps it. -/
theorem Inv.setRunnable (h : s.Inv) {np : Fin NPROC} (hp : s.runs p (.runnable np)) :
    (s.setRunnable p np).Inv := by
  obtain ⟨hne, hem, hpp⟩ := h.reserved hp rfl
  rw [if_pos rfl] at hpp
  obtain ⟨hp1, hp2⟩ := hp
  obtain ⟨hst, huid, hpar, hpc, hch⟩ := setRunnable_spec (s := s) hne
  have hinit : (s.setRunnable p np).initproc = s.initproc := rfl
  have hnext : (s.setRunnable p np).nextuid = s.nextuid := rfl
  have hh : (s.setRunnable p np).history =
    .forked (s.proc p).uid (s.proc np).uid :: s.history := rfl
  generalize s.setRunnable p np = t at *
  have hactive : ∀ i, t.Active i ↔ i = np ∨ s.Active i := by grind [Active]
  have hi := h.init_live
  have hlt := h.uid_lt
  have hfresh : ∀ e ∈ s.history, ¬ e.names (s.proc np).uid := fun e he => (h.fresh e he).2 np hem
  have hnpi : np ≠ s.initproc := by
    rintro rfl
    rw [hem] at hi
    cases hi
  have hexit : .exited (s.proc p).uid ∉ s.history := by
    rw [← h.zombie p (by simp [Active, hp1]), hp1]
    simp
  -- Field by field: `np` was reserved by `p`, and the others are as before.
  constructor
  · grind [h.init_uid]
  · grind [State.live]
  · grind [h.uid_inj]
  · grind
  · grind [h.unused]
  · grind [h.embryo, State.live, Pc.reserves]
  · grind [h.reserves, h.reserves_inj, State.live, Pc.reserves]
  · grind [h.reserves_inj, State.live, Pc.reserves]
  · intro i hact hni
    rw [hpar, hh]
    by_cases hin : i = np
    · subst hin
      refine ⟨p, hpp, by grind [State.live], .inl ⟨by simp [huid], ?_⟩⟩
      simpa [huid] using hexit
    · obtain ⟨j, h1, h2, h3⟩ := h.parent i (by grind) (by grind)
      refine ⟨j, h1, by grind [State.live], ?_⟩
      rw [huid, huid]
      exact h3.cons (by simp)
  · intro i hact
    rw [hst, huid, hh, List.mem_cons]
    by_cases hin : i = np
    · subst hin
      have := hfresh (.exited (s.proc i).uid)
      simp_all [Event.names]
    · rw [if_neg hin, h.zombie i (by grind)]
      simp
  · intro i w hact
    rw [huid, hh, List.mem_cons]
    by_cases hin : i = np
    · subst hin
      have := hfresh (.waited w (s.proc i).uid)
      simp_all [Event.names]
    · simpa using h.not_waited i w (by grind)
  · intro e he
    rw [hh, List.mem_cons] at he
    rcases he with rfl | he
    · refine ⟨fun u hu => ?_, fun i hs hu => ?_⟩
      · rcases hu with rfl | rfl
        · rw [hnext]; exact hlt p (by simp [hp1])
        · rw [hnext]; exact hlt np (by simp [hem])
      · rw [huid] at hu
        rcases hu with hu | hu
        · have := h.uid_inj p i (by simp [hp1]) (by grind) hu
          grind
        · have := h.uid_inj np i (by simp [hem]) (by grind) hu
          grind
    · grind [h.fresh]
  · intro u u' c
    grind [h.forked, Event.names]
  · intro u c hc
    rw [hh, List.mem_cons] at hc
    rcases hc with hc | hc
    · cases hc
      refine ⟨fun hz => hnpi ?_, fun hz => hne ?_⟩
      · exact h.uid_inj _ _ (by simp [hem]) (by grind [State.live]) (hz.trans h.init_uid.symm)
      · exact h.uid_inj _ _ (by simp [hp1]) (by simp [hem]) hz
    · exact h.forked_ne u c hc
  · intro u c hc
    rw [hh, List.mem_cons] at hc
    rcases hc with hc | hc
    · cases hc
      exact .inr ⟨np, by grind, huid np⟩
    · grind [h.present]
  · rw [hh]
    exact h.lawful.cons (by simp)
  · grind [h.asleep]

/-! ### `exit` -/

/-- The loop of `exit` over the entries `l`: the children of `p` among them go to `initproc`, which
is woken if one of them is a zombie. -/
structure Abandoned (p : Fin NPROC) (l : List (Fin NPROC)) (s t : Ptable) : Prop where
  initproc : t.initproc = s.initproc
  nextuid : t.nextuid = s.nextuid
  history : t.history = s.history
  uid : ∀ i, (t.proc i).uid = (s.proc i).uid
  pc : ∀ i, (t.proc i).pc = (s.proc i).pc
  chan : ∀ i, (t.proc i).chan = (s.proc i).chan
  killed : ∀ i, (t.proc i).killed = (s.proc i).killed
  parent : ∀ i, (t.proc i).parent =
    if i ∈ l ∧ (s.proc i).parent = some p then some s.initproc else (s.proc i).parent
  state : ∀ i, (t.proc i).state = (s.proc i).state ∨
    ((s.proc i).state = .sleeping ∧ (t.proc i).state = .runnable)
  woken : ∀ q ∈ l, (s.proc q).parent = some p → (s.proc q).state = .zombie →
    ∀ i, (s.proc i).chan = some (.proc s.initproc) → (t.proc i).state ≠ .sleeping

namespace Abandoned

variable {l l' : List (Fin NPROC)} {u : Ptable}

theorem nil : Abandoned p [] s s := by
  constructor <;> simp

/-- Children are passed on in two parts. -/
theorem trans (hp : p ≠ s.initproc) (h : Abandoned p l s t) (h' : Abandoned p l' t u) :
    Abandoned p (l ++ l') s u where
  initproc := h'.initproc.trans h.initproc
  nextuid := h'.nextuid.trans h.nextuid
  history := h'.history.trans h.history
  uid i := (h'.uid i).trans (h.uid i)
  pc i := (h'.pc i).trans (h.pc i)
  chan i := (h'.chan i).trans (h.chan i)
  killed i := (h'.killed i).trans (h.killed i)
  parent i := by grind [h.parent i, h'.parent i, h.initproc]
  state i := by grind [h.state i, h'.state i]
  woken q hq hpq hz i hc := by
    have hs := h.state q
    have hs' := h'.state i
    have hi := h.initproc
    rcases List.mem_append.mp hq with hq | hq
    · grind [h.woken q hq hpq hz i hc]
    · by_cases hql : q ∈ l
      · grind [h.woken q hql hpq hz i hc]
      · have hpq' : (t.proc q).parent = some p := by grind [h.parent q]
        exact h'.woken q hq hpq' (by grind) i (by rw [h.chan, hi]; exact hc)

/-- One child is passed on. -/
theorem one (p : Fin NPROC) (s : Ptable) (q : Fin NPROC) : Abandoned p [q] s (abandon p s q) := by
  unfold abandon
  split
  · dsimp only
    split
    · constructor <;> grind [wake]
    · constructor <;> grind
  · constructor <;> grind

theorem foldl (hp : p ≠ s.initproc) (l : List (Fin NPROC)) :
    Abandoned p l s (l.foldl (abandon p) s) := by
  induction l generalizing s with
  | nil => exact nil
  | cons q l ih =>
      have h := one p s q
      exact h.trans hp (ih (by rw [h.initproc]; exact hp))

end Abandoned

/-- The critical section of `exit`: `p` is a zombie, its children are `initproc`'s, and the parent
of `p`, and `initproc` if it has got a zombie, are awake. -/
structure Exited (p : Fin NPROC) (s t : Ptable) : Prop where
  initproc : t.initproc = s.initproc
  nextuid : t.nextuid = s.nextuid
  history : t.history = .exited (s.proc p).uid :: s.history
  uid : ∀ i, (t.proc i).uid = (s.proc i).uid
  pc : ∀ i, (t.proc i).pc = (s.proc i).pc
  chan : ∀ i, (t.proc i).chan = (s.proc i).chan
  killed : ∀ i, (t.proc i).killed = (s.proc i).killed
  parent : ∀ i, (t.proc i).parent =
    if (s.proc i).parent = some p then some s.initproc else (s.proc i).parent
  zombie : (t.proc p).state = .zombie
  state : ∀ i, i ≠ p → (t.proc i).state = (s.proc i).state ∨
    ((s.proc i).state = .sleeping ∧ (t.proc i).state = .runnable)
  woken_parent : ∀ i, (s.proc p).parent = some i → (s.proc i).chan = some (.proc i) →
    (t.proc i).state ≠ .sleeping
  woken_init : ∀ q, (s.proc q).parent = some p → (s.proc q).state = .zombie →
    ∀ i, (s.proc i).chan = some (.proc s.initproc) → (t.proc i).state ≠ .sleeping

/-- What `exit` changes, entry by entry. -/
theorem exit_spec (hp : p ≠ s.initproc) : Exited p s (s.exit p) := by
  have h := Abandoned.foldl (s := s.wakeup1 ((s.proc p).parent.map .proc)) hp
    (List.finRange NPROC)
  unfold Ptable.exit
  dsimp only
  generalize (List.finRange NPROC).foldl (abandon p) _ = u at h ⊢
  have hset : ∀ i, (({ u.set p { u.proc p with state := .zombie } with
      history := .exited (s.proc p).uid :: s.history } : Ptable).proc i) =
      if i = p then { u.proc p with state := .zombie } else u.proc i := set_proc u p _
  constructor
  · exact h.initproc
  · exact h.nextuid
  · rfl
  · intro i; have := h.uid i; grind [wake]
  · intro i; have := h.pc i; grind [wake]
  · intro i; have := h.chan i; grind [wake]
  · intro i; have := h.killed i; grind [wake]
  · intro i; have := h.parent i; grind [wake]
  · grind
  · intro i hi; have := h.state i; grind [wake]
  · intro i hpi hc; have := h.state i; grind [wake]
  · intro q hq hz i hc
    have := h.woken q (List.mem_finRange q) (by grind [wake]) (by grind [wake]) i (by grind [wake])
    grind

/-- Nobody is its own parent. -/
theorem Inv.parent_ne (h : s.Inv) (ha : s.Active p) (hp : p ≠ s.initproc) :
    (s.proc p).parent ≠ some p := by
  intro hpp
  obtain ⟨j, hj, -, hpar⟩ := h.parent p ha hp
  obtain rfl : j = p := Option.some.inj (hj.symm.trans hpp)
  rcases hpar with ⟨hf, -⟩ | ⟨hz, q, hf, -⟩
  · exact (h.forked_ne _ _ hf).2 rfl
  · exact (h.forked_ne _ _ hf).1 hz

/-- `exit` keeps it: whoever waits for a zombie has been woken. -/
theorem Inv.exit (h : s.Inv) (hp : s.runs p .user) (hpi : p ≠ s.initproc) : (s.exit p).Inv := by
  have he := exit_spec hpi
  obtain ⟨hp1, hp2⟩ := hp
  generalize s.exit p = t at he
  obtain ⟨hinit, hnext, hh, huid, hpc, hch, -, hpar, hz, hst, hwp, hwi⟩ := he
  have hpa : s.Active p := by simp [Active, hp1]
  have hpp := h.parent_ne hpa hpi
  have hi := h.init_live
  have hlt := h.uid_lt
  have hlive : ∀ i, (t.proc i).state.live = true ↔ i ≠ p ∧ (s.proc i).state.live = true := by
    grind [State.live]
  have hun : ∀ i, (t.proc i).state = .unused ↔ (s.proc i).state = .unused := by grind
  have hem : ∀ i, (t.proc i).state = .embryo ↔ (s.proc i).state = .embryo := by grind
  have hzo : ∀ i, (t.proc i).state = .zombie ↔ i = p ∨ (s.proc i).state = .zombie := by grind
  have hactive : ∀ i, t.Active i ↔ s.Active i := fun i => by simp only [Active, ne_eq, hun, hem]
  -- `p` is not inside `fork`, so no embryo is its child
  have hne : ∀ i, (s.proc i).state = .embryo → (s.proc i).parent ≠ some p := by
    intro i hie hip
    have := (h.embryo i p hie hip).2
    rw [hp2] at this
    cases this
  have hup : ∀ i, (s.proc i).state ≠ .unused → ((s.proc i).uid = (s.proc p).uid ↔ i = p) :=
    fun i hi => ⟨h.uid_inj i p hi (by simp [hp1]), fun e => by rw [e]⟩
  have hu0 : (s.proc p).uid ≠ 0 := fun e => hpi
    (h.uid_inj _ _ (by simp [hp1]) (by grind [State.live]) (e.trans h.init_uid.symm))
  constructor
  · rw [hinit, huid]; exact h.init_uid
  · rw [hinit, hlive]; exact ⟨hpi.symm, hi⟩
  · simpa only [ne_eq, hun, huid] using h.uid_inj
  · simpa only [ne_eq, hun, huid, hnext] using h.uid_lt
  · grind [h.unused]
  · intro i j hi hj
    rw [hem] at hi
    rw [hpar, if_neg (hne i hi)] at hj
    obtain ⟨h1, h2⟩ := h.embryo i j hi hj
    refine ⟨(hlive j).mpr ⟨?_, h1⟩, by rw [hpc]; exact h2⟩
    rintro rfl
    exact hne i hi hj
  · intro r np hr hres
    rw [hpc] at hres ⊢
    obtain ⟨h1, h2⟩ := h.reserves r np ((hlive r).mp hr).2 hres
    rw [hem, hpar, if_neg (hne np h1)]
    exact ⟨h1, h2⟩
  · grind [h.reserves_inj]
  · intro i hact hni
    rw [hactive] at hact
    obtain ⟨j, h1, h2, h3⟩ := h.parent i hact (by rw [← hinit]; exact hni)
    rw [hpar, h1, hh, huid i]
    by_cases hj : j = p
    · subst hj
      refine ⟨s.initproc, by simp, (hlive _).mpr ⟨hpi.symm, hi⟩, ?_⟩
      rw [huid, h.init_uid]
      exact h3.exit hu0
    · refine ⟨j, by simp [hj], (hlive _).mpr ⟨hj, h2⟩, ?_⟩
      rw [huid]
      refine h3.cons ?_
      have := (hup j (by grind [State.live])).not.mpr hj
      simpa using Ne.symm this
  · intro i hact
    rw [hactive] at hact
    rw [hzo, huid, hh, List.mem_cons, h.zombie i hact]
    have := hup i hact.1
    simp [this]
  · intro i w hact
    rw [hactive] at hact
    rw [huid, hh]
    simpa using h.not_waited i w hact
  · intro e he
    rw [hh, List.mem_cons] at he
    simp only [hem, huid, hnext]
    rcases he with rfl | he
    · refine ⟨fun u hu => ?_, fun i hs hu => ?_⟩
      · have := hlt p (by simp [hp1])
        simp only [Event.names] at hu
        omega
      · have := (hup i (by simp [hs])).mp (Eq.symm hu)
        grind
    · exact h.fresh e he
  · rw [hh]; simpa using h.forked
  · rw [hh]; simpa using h.forked_ne
  · rw [hh]; simpa [hactive, huid] using h.present
  · rw [hh]
    exact h.lawful.cons (by simp)
  · intro r hs hw
    have hrs : (s.proc r).state = .sleeping := by grind
    obtain ⟨h1, h2⟩ := h.asleep r hrs (by rw [← hpc]; exact hw)
    refine ⟨by rw [hch]; exact h1, fun q hq hqz => ?_⟩
    -- a zombie child of `r` is `p` itself, an orphan of `p`, or was one before
    rw [hpar] at hq
    by_cases hqp : (s.proc q).parent = some p
    · rw [if_pos hqp] at hq
      obtain rfl : s.initproc = r := Option.some.inj hq
      have hqz' : (s.proc q).state = .zombie := by grind
      exact hwi q hqp hqz' _ h1 hs
    · rw [if_neg hqp] at hq
      rcases (hzo q).mp hqz with rfl | hqz'
      · exact hwp r hq h1 hs
      · exact h2 q hq hqz'

/-! ### `wait` -/

/-- The scan finds a child that is a zombie. -/
theorem scanFrom_some {l : List (Fin NPROC)} {b k : Bool} (h : s.scanFrom p l b = (some q, k)) :
    (s.proc q).parent = some p ∧ (s.proc q).state = .zombie := by
  induction l generalizing b with
  | nil => cases h
  | cons r l ih =>
      rw [scanFrom] at h
      split at h
      · exact ih h
      · split at h
        · cases h
          exact ⟨not_not.mp ‹_›, ‹_›⟩
        · exact ih h

/-- A scan that finds none has seen every child. -/
theorem scanFrom_none {l : List (Fin NPROC)} {b k : Bool} (h : s.scanFrom p l b = (none, k)) :
    (∀ q ∈ l, (s.proc q).parent = some p → (s.proc q).state ≠ .zombie) ∧
    (k = false → ∀ q ∈ l, (s.proc q).parent ≠ some p) ∧ (b = true → k = true) := by
  induction l generalizing b with
  | nil =>
      cases h
      simp
  | cons r l ih =>
      rw [scanFrom] at h
      split at h
      · obtain ⟨h1, h2, h3⟩ := ih h
        grind
      · split at h
        · cases h
        · obtain ⟨h1, h2, h3⟩ := ih h
          grind

/-- `wait` takes a zombie out of the table. -/
theorem Inv.reap (h : s.Inv) (hp : s.runs p .wait) (hq : (s.proc q).parent = some p)
    (hz : (s.proc q).state = .zombie) (hst : ∀ i, (t.proc i).state =
      if i = q then .unused else (s.proc i).state) (huid : ∀ i, (t.proc i).uid = (s.proc i).uid)
    (hpar : ∀ i, (t.proc i).parent = if i = q then none else (s.proc i).parent)
    (hpc : ∀ i, (t.proc i).pc = if i = p then .user else (s.proc i).pc)
    (hch : ∀ i, (t.proc i).chan = (s.proc i).chan) (hinit : t.initproc = s.initproc)
    (hnext : t.nextuid = s.nextuid)
    (hh : t.history = .waited (s.proc p).uid (s.proc q).uid :: s.history) : t.Inv := by
  obtain ⟨hp1, hp2⟩ := hp
  have hactive : ∀ i, t.Active i ↔ i ≠ q ∧ s.Active i := by grind [Active]
  have hqa : s.Active q := by simp [Active, hz]
  have hi := h.init_live
  have hlt := h.uid_lt
  have hqi : q ≠ s.initproc := by
    rintro rfl
    rw [hz] at hi
    cases hi
  -- Field by field: `q` is gone, and the others are as before.
  constructor
  · grind [h.init_uid]
  · grind [State.live]
  · grind [h.uid_inj]
  · grind
  · grind [h.unused]
  · grind [h.embryo, State.live, Pc.reserves]
  · grind [h.reserves, State.live, Pc.reserves]
  · grind [h.reserves_inj, State.live, Pc.reserves]
  · intro i hact hni
    obtain ⟨hiq, hact⟩ := (hactive i).mp hact
    obtain ⟨j, h1, h2, h3⟩ := h.parent i hact (by grind)
    refine ⟨j, by rw [hpar, if_neg hiq]; exact h1, by grind [State.live], ?_⟩
    rw [hh, huid, huid]
    exact h3.cons (by simp)
  · intro i hact
    obtain ⟨hiq, hact⟩ := (hactive i).mp hact
    rw [hst, if_neg hiq, huid, hh, h.zombie i hact]
    simp
  · intro i w hact
    obtain ⟨hiq, hact⟩ := (hactive i).mp hact
    rw [huid, hh]
    have := h.not_waited i w hact
    have := h.uid_inj i q hact.1 hqa.1
    simp_all
  · intro e he
    rw [hh, List.mem_cons] at he
    rcases he with rfl | he
    · refine ⟨fun u hu => ?_, fun i hs hu => ?_⟩
      · rcases hu with rfl | rfl
        · rw [hnext]; exact hlt p (by simp [hp1])
        · rw [hnext]; exact hlt q hqa.1
      · rw [huid] at hu
        rcases hu with hu | hu
        · have := h.uid_inj p i (by simp [hp1]) (by grind) hu
          grind
        · have := h.uid_inj q i hqa.1 (by grind) hu
          grind
    · grind [h.fresh]
  · rw [hh]; simpa using h.forked
  · rw [hh]; simpa using h.forked_ne
  · intro u c hc
    replace hc : .forked u c ∈ s.history := by simpa [hh] using hc
    rw [hh]
    rcases h.present u c hc with ⟨w, hw⟩ | ⟨i, hact, rfl⟩
    · exact .inl ⟨w, List.mem_cons_of_mem _ hw⟩
    · by_cases hiq : i = q
      · exact .inl ⟨(s.proc p).uid, by simp [hiq]⟩
      · exact .inr ⟨i, (hactive i).mpr ⟨hiq, hact⟩, huid i⟩
  · rw [hh]
    refine h.lawful.cons ?_
    rintro w c he
    cases he
    refine ⟨(h.zombie q hqa).mp hz, ?_, fun w => h.not_waited q w hqa⟩
    obtain ⟨j, h1, -, h3⟩ := h.parent q hqa hqi
    obtain rfl : j = p := Option.some.inj (h1.symm.trans hq)
    exact h3
  · grind [h.asleep]

/-- The scan of `wait` keeps it. -/
theorem Inv.scan (h : s.Inv) (hp : s.runs p .wait) : (s.scan p).1.Inv := by
  unfold Ptable.scan
  split
  · rename_i q k hq
    obtain ⟨hqp, hqz⟩ := scanFrom_some hq
    have hne : q ≠ p := by
      rintro rfl
      rw [hp.1] at hqz
      cases hqz
    dsimp only
    refine h.reap hp hqp hqz ?_ ?_ ?_ ?_ ?_ rfl rfl rfl
    all_goals
      intro i
      by_cases h1 : i = p
      · simp [h1, hne.symm]
      · by_cases h2 : i = q <;> simp [h1, h2, hne, freed]
  · rename_i k hk
    obtain ⟨h1, -, -⟩ := scanFrom_none hk
    split
    · exact h.goto (by rw [hp.2]; rfl) hp.1 (by simp) (by simp [hp.2])
    · exact h.sleep_wait hp fun q => h1 q (List.mem_finRange q)

/-! ### Runs -/

theorem step_kalloc {ok : Bool} (h : s.step (.kalloc p ok) = some t) : ∃ np,
    s.runs p (.kalloc np) ∧ (if ok then s.goto p (.copyuvm np) else s.forkFails p np) = t := by
  simp only [Ptable.step, Option.bind_eq_bind, Option.bind_eq_some_iff, Lib.guard_eq_some] at h
  obtain ⟨np, -, -, hp, h⟩ := h
  exact ⟨np, hp, Option.some.inj h⟩

theorem step_copyuvm {ok : Bool} (h : s.step (.copyuvm p ok) = some t) : ∃ np,
    s.runs p (.copyuvm np) ∧ (if ok then s.goto p (.parent np) else s.forkFails p np) = t := by
  simp only [Ptable.step, Option.bind_eq_bind, Option.bind_eq_some_iff, Lib.guard_eq_some] at h
  obtain ⟨np, -, -, hp, h⟩ := h
  exact ⟨np, hp, Option.some.inj h⟩

theorem step_setParent (h : s.step (.setParent p) = some t) : ∃ np,
    s.runs p (.parent np) ∧ s.setParent p np = t := by
  simp only [Ptable.step, Option.bind_eq_bind, Option.bind_eq_some_iff, Lib.guard_eq_some] at h
  obtain ⟨np, -, -, hp, h⟩ := h
  exact ⟨np, hp, Option.some.inj h⟩

theorem step_setRunnable (h : s.step (.setRunnable p) = some t) : ∃ np,
    s.runs p (.runnable np) ∧ s.setRunnable p np = t := by
  simp only [Ptable.step, Option.bind_eq_bind, Option.bind_eq_some_iff, Lib.guard_eq_some] at h
  obtain ⟨np, -, -, hp, h⟩ := h
  exact ⟨np, hp, Option.some.inj h⟩

/-- **Every step keeps the invariant.** -/
theorem Inv.step (h : s.Inv) {a : Act} (hs : s.step a = some t) : t.Inv := by
  -- One case per step, each with its own lemma.
  cases a with
  | sched p =>
      obtain ⟨hp, rfl⟩ : _ ∧ s.sched p = t := by simpa [Ptable.step] using hs
      exact h.sched hp
  | yield p =>
      obtain ⟨hp, rfl⟩ : _ ∧ s.yield p = t := by simpa [Ptable.step] using hs
      exact h.yield hp
  | sleep p n =>
      obtain ⟨hp, rfl⟩ : _ ∧ s.sleep p _ = t := by simpa [Ptable.step] using hs
      exact h.sleep hp _
  | wakeup n =>
      obtain rfl : s.wakeup1 _ = t := by simpa [Ptable.step] using hs
      exact h.wakeup1 _
  | allocproc p =>
      obtain ⟨hp, rfl⟩ : _ ∧ s.allocproc p = t := by simpa [Ptable.step] using hs
      exact h.allocproc hp
  | kalloc p ok =>
      obtain ⟨np, hp, rfl⟩ := step_kalloc hs
      split
      · exact h.goto (by rw [hp.2]; rfl) hp.1 (by simp) (by simp [hp.2])
      · exact h.forkFails hp rfl (by simp)
  | copyuvm p ok =>
      obtain ⟨np, hp, rfl⟩ := step_copyuvm hs
      split
      · exact h.goto (by rw [hp.2]; rfl) hp.1 (by simp) (by simp [hp.2])
      · exact h.forkFails hp rfl (by simp)
  | setParent p =>
      obtain ⟨np, hp, rfl⟩ := step_setParent hs
      exact h.setParent hp
  | setRunnable p =>
      obtain ⟨np, hp, rfl⟩ := step_setRunnable hs
      exact h.setRunnable hp
  | exit p =>
      obtain ⟨hp, rfl⟩ : _ ∧ s.exit p = t := by simpa [Ptable.step] using hs
      exact h.exit hp.1 hp.2
  | wait p =>
      obtain ⟨hp, rfl⟩ : _ ∧ s.goto p .wait = t := by simpa [Ptable.step] using hs
      exact h.goto (by rw [hp.2]; rfl) hp.1 (by simp) (by simp [hp.2])
  | scan p =>
      obtain ⟨hp, rfl⟩ : _ ∧ (s.scan p).1 = t := by simpa [Ptable.step] using hs
      exact h.scan hp
  | kill pid =>
      obtain rfl : (s.kill pid).1 = t := by simpa [Ptable.step] using hs
      exact h.kill pid

/-- A child, by the history, that no wait has returned is in the table, with its parent. -/
theorem Inv.child (h : s.Inv) (hp : s.Active p) {c : ℕ}
    (hc : ParentOf s.history (s.proc p).uid c) : (∃ w, .waited w c ∈ s.history) ∨
      ∃ q, s.Active q ∧ (s.proc q).uid = c ∧ (s.proc q).parent = some p := by
  obtain ⟨u, hu⟩ : ∃ u, .forked u c ∈ s.history := by
    rcases hc with ⟨hf, -⟩ | ⟨-, u, hf, -⟩
    · exact ⟨_, hf⟩
    · exact ⟨u, hf⟩
  refine (h.present u c hu).imp_right fun ⟨q, hq, hqc⟩ => ⟨q, hq, hqc, ?_⟩
  have hqi : q ≠ s.initproc := by
    rintro rfl
    exact (h.forked_ne u c hu).1 (hqc.symm.trans h.init_uid)
  obtain ⟨j, hj, hl, hpar⟩ := h.parent q hq hqi
  rw [hqc] at hpar
  have hjp : j = p := by
    refine h.uid_inj j p ?_ hp.1 (hpar.unique h.forked hc)
    intro hun
    rw [hun] at hl
    cases hl
  rw [hj, hjp]

/-- `wait` fails only without children, or killed. -/
theorem Inv.scan_failed (h : s.Inv) (hp : s.runs p .wait) (hf : (s.scan p).2 = .failed) :
    (s.proc p).killed = true ∨ ((∀ q, (s.proc q).parent ≠ some p) ∧
      ∀ c, ParentOf s.history (s.proc p).uid c → ∃ w, .waited w c ∈ s.history) := by
  unfold Ptable.scan at hf
  split at hf
  · cases hf
  · rename_i k hk
    split at hf
    · rename_i hor
      rcases hor with hk' | hk'
      · obtain ⟨-, h2, -⟩ := scanFrom_none hk
        have hno : ∀ q, (s.proc q).parent ≠ some p :=
          fun q => h2 (by simpa using hk') q (List.mem_finRange q)
        refine .inr ⟨hno, fun c hc => ?_⟩
        exact (h.child (by simp [Active, hp.1]) hc).resolve_right
          fun ⟨q, _, _, hq⟩ => hno q hq
      · exact .inl hk'
    · cases hf

/-- **The exit/wait protocol.**  In every reachable state: a wait in the history returned a
process that had exited before, to its parent at that time, and no other wait returned it; a
`wait` about to fail has been killed or has no child left; and nobody asleep in `wait` has a
zombie child, or, by the history, a child that has exited and has not been returned. -/
theorem exit_wait_protocol {as : List Act} (hrun : Lib.Run Step boot as s) :
    (∀ l w c h, s.history = l ++ .waited w c :: h →
      .exited c ∈ h ∧ ParentOf h w c ∧ ∀ w', .waited w' c ∉ l ++ h) ∧
    (∀ p, s.runs p .wait → (s.scan p).2 = .failed → (s.proc p).killed = true ∨
      ((∀ q, (s.proc q).parent ≠ some p) ∧
        ∀ c, ParentOf s.history (s.proc p).uid c → ∃ w, .waited w c ∈ s.history)) ∧
    (∀ p, (s.proc p).state = .sleeping → (s.proc p).pc = .wait →
      (∀ q, (s.proc q).parent = some p → (s.proc q).state ≠ .zombie) ∧
      ∀ c, ParentOf s.history (s.proc p).uid c → .exited c ∈ s.history →
        ∃ w, .waited w c ∈ s.history) := by
  have h : s.Inv := hrun.inv (fun _ _ _ hs h => h.step hs) boot_inv
  refine ⟨?_, fun p hp hf => h.scan_failed hp hf, fun p hs hw => ?_⟩
  · intro l w c t ht
    have hl := h.lawful
    rw [ht] at hl
    exact hl.split
  · obtain ⟨-, hz⟩ := h.asleep p hs hw
    refine ⟨hz, fun c hc hx => ?_⟩
    refine (h.child (by simp [Active, hs]) hc).resolve_right ?_
    rintro ⟨q, hq, rfl, hqp⟩
    exact hz q hqp ((h.zombie q hq).mpr hx)

/-- `initproc` forks and waits; the child exits, and the wait returns it. -/
def oneChild : List Act :=
  [.sched 0, .allocproc 0, .kalloc 0 true, .copyuvm 0 true, .setParent 0, .setRunnable 0,
    .wait 0, .scan 0, .sched 1, .exit 1, .sched 0, .scan 0]

/-- One child exits, and its parent learns of it. -/
theorem exit_wait_protocol_oneChild : ∃ s, Lib.Run Step boot oneChild s ∧
    s.history = [.waited 0 1, .exited 1, .forked 0 1] ∧ ParentOf [.exited 1, .forked 0 1] 0 1 := by
  have hend : ((oneChild.foldlM step boot).any fun s =>
      s.history = [.waited 0 1, .exited 1, .forked 0 1]) = true := by decide +kernel
  obtain ⟨s, hs, hh⟩ := (Option.any_eq_true _ _).mp hend
  replace hh := of_decide_eq_true hh
  have hrun : Lib.Run Step boot oneChild s := Lib.Run.of_foldlM hs
  exact ⟨s, hrun, hh, ((exit_wait_protocol hrun).1 [] 0 1 _ hh).2.1⟩

end Ptable

end Xv6.Process

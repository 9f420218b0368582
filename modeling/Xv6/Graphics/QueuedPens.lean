import Xv6.Graphics.Pens

/-!
# Graphics — queued pens and immediate pens

In system-call mode `Painter` declares a pen by `setpencolour` and selects one by `selectpen`; in
queue mode it queues both, and `endpaint` runs them.  The calls refuse an index they do not take;
the queue caps it to 50.

* `pens_compare` — what either way sends to the palette, and which pens it goes through.
* `queued_pens_iff` — when the two are the same.
-/

namespace Xv6.Gfx

open Lib

/-- The pen commands of `Painter`, with their numbers as they are typed. -/
inductive PenCommand where
  | declare (index r g b : CStr)
  | get (index : CStr)

namespace PenCommand

/-- Every number is typed in decimal digits. -/
def Typed : PenCommand → Prop
  | declare index r g b => ((∀ c ∈ index, isDigit c) ∧ ∀ c ∈ r, isDigit c) ∧
      (∀ c ∈ g, isDigit c) ∧ ∀ c ∈ b, isDigit c
  | get index => ∀ c ∈ index, isDigit c

/-- The system call in system-call mode. -/
def immediate (hdc : Int32) : PenCommand → Syscall
  | declare index r g b => .setpencolour (atoi index) (atoi r) (atoi g) (atoi b)
  | get index => .call (.selectpen hdc (atoi index))

/-- The system call in queue mode; the pointers it leaves unset are not read. -/
def queued (hdc : Int32) (junk : Junk) : PenCommand → Call
  | declare index r g b => .writeQueue hdc 3 ⟨index, r, g, b⟩ junk
  | get index => .writeQueue hdc 4 ⟨index, [], [], []⟩ junk

/-- What is queued. -/
def command : PenCommand → Command
  | declare index r g b => .declarePen (ValueCapper (atoi index) 50) (ValueCapper (atoi r) 63)
      (ValueCapper (atoi g) 63) (ValueCapper (atoi b) 63)
  | get index => .getPen (ValueCapper (atoi index) 50)

/-- What the immediate call sends to the palette. -/
def ports : PenCommand → List (UInt16 × UInt8)
  | declare index r g b =>
      if atoi index < 16 ∨ atoi index > 255 then []
      else Command.declaration (atoi index) (ValueCapper (atoi r) 63) (ValueCapper (atoi g) 63)
        (ValueCapper (atoi b) 63)
  | get _ => []

/-- The pen selected after the immediate call. -/
def penAfter : PenCommand → Int32 → Int32
  | declare .., pen => pen
  | get index, pen => if atoi index > 255 then pen else atoi index

end PenCommand

/-! ### States on the way -/

/-- The states after each of the calls. -/
def syscallStates : Gfx → List Syscall → Except Fault (List Gfx)
  | _, [] => .ok []
  | g, c :: cs => do
      let (_, g) ← g.syscall c
      let rest ← syscallStates g cs
      return g :: rest

/-- The states after each of the queued actions that the loop of `endpaint` runs, from entry
`i`. -/
def execStates (hdc : Int32) : ℕ → Int32 → Gfx → Except Fault (List Gfx)
  | 0, i, _ => .error (.queueIndex i)
  | fuel + 1, i, g => do
      let h ← hdcAt hdc
      if i < (g.hdcObjects h).queueEnd then
        let k ← index 50 .queueIndex i
        match ((g.hdcObjects h).commandQueue k).queuedAction with
        | none => .error .noAction
        | some a =>
            let g ← a.call ((g.hdcObjects h).commandQueue k).args g
            let rest ← execStates hdc fuel (i + 1) g
            return g :: rest
      else return []

/-- The pen that is selected on `h`. -/
def penOf (h : Fin 5) (g : Gfx) : Int32 := (g.hdcObjects h).penIndex

/-- **The two ways do the same**: they send the same bytes to the palette, and go through the same
selected pens. -/
def SamePens (g : Gfx) (h : Fin 5) (cs : List (PenCommand × Junk))
    (queue : Fin 50 → CommandBuffer) : Prop :=
  ∃ g₁ during r g₂ after,
    g.calls (cs.map fun c => c.1.queued (Int32.ofNat h) c.2) = .ok g₁ ∧
    execStates (Int32.ofNat h) 51 0 g₁ = .ok during ∧
    g₁.call (.endpaint (Int32.ofNat h) 1 queue) = .ok (r, g₂) ∧
    g.syscallStates (cs.map fun c => c.1.immediate (Int32.ofNat h)) = .ok after ∧
    g₂.dac = (after.getLastD g).dac ∧ during.map (penOf h) = after.map (penOf h)

/-- The pens after each command, from the pen selected before them. -/
def pensAfter {α : Type} (next : α → Int32 → Int32) : Int32 → List α → List Int32
  | _, [] => []
  | pen, c :: cs => next c pen :: pensAfter next (next c pen) cs

variable {g g' : Gfx} {h : Fin 5} {r : Int32}

/-! ### The queue -/

/-- A command for pens is queued under the operation that runs it. -/
theorem PenCommand.ofOp_queued {c : PenCommand} (hc : c.Typed) (hdc : Int32) (junk : Junk) :
    ∃ opType set, c.queued hdc junk = .writeQueue hdc opType set junk ∧
      Command.ofOp opType set = some c.command := by
  cases c with
  | declare index red green b =>
      refine ⟨3, ⟨index, red, green, b⟩, rfl, ?_⟩
      rw [PenCommand.command, atoi_eq_ParseInt hc.1.1, atoi_eq_ParseInt hc.1.2,
        atoi_eq_ParseInt hc.2.1, atoi_eq_ParseInt hc.2.2]
      rfl
  | get index =>
      refine ⟨4, ⟨index, [], [], []⟩, rfl, ?_⟩
      rw [PenCommand.command, atoi_eq_ParseInt hc]
      rfl

/-- Queueing pen commands puts them in the queue, and changes nothing else. -/
theorem queued_pens (cs : List (PenCommand × Junk)) :
    ∀ (g : Gfx) (held : List Command), (g.hdcObjects h).Holds h held →
      held.length + cs.length ≤ 50 →
      (∀ c ∈ cs, c.1.Typed ∧ c.2.commandItemTemp.buffset ≠ 1) →
      ∃ g', g.calls (cs.map fun c => c.1.queued (Int32.ofNat h) c.2) = .ok g' ∧
        (g'.hdcObjects h).Holds h (held ++ cs.map fun c => c.1.command) ∧
        g'.dac = g.dac ∧ penOf h g' = penOf h g := by
  induction cs with
  | nil =>
      intro g held hd _ _
      exact ⟨g, rfl, by rwa [List.map_nil, List.append_nil], rfl, rfl⟩
  | cons c cs ih =>
      intro g held hd hlen hcs
      rw [List.length_cons] at hlen
      obtain ⟨hc, hset⟩ := hcs c (by simp)
      obtain ⟨opType, set, hq, hop⟩ := PenCommand.ofOp_queued hc (Int32.ofNat h) c.2
      obtain ⟨queue, hcall, hholds⟩ := writeQueue_stores hd hop hset (by omega)
      obtain ⟨g', hg', hd', hdac, hpen⟩ := ih _ _ hholds (by simp; omega) fun d hdm =>
        hcs d (by simp [hdm])
      refine ⟨g', ?_, ?_, hdac, hpen.trans (by simp [penOf, withQueue, setHdc])⟩
      · rw [List.map_cons, calls, List.foldlM_cons, hq, hcall]
        exact hg'
      · rwa [List.append_assoc] at hd'

/-- A pen command needs nothing of the cursor. -/
theorem PenCommand.perform_ok (c : PenCommand) (g : Gfx) : ∃ g', c.command.perform h g = .ok g' ∧
    (g'.hdcObjects h).commandQueue = (g.hdcObjects h).commandQueue ∧
    (g'.hdcObjects h).queueEnd = (g.hdcObjects h).queueEnd ∧
    g'.dac = g.dac ++ c.command.ports ∧ penOf h g' = c.command.penAfter (penOf h g) := by
  cases c with
  | declare index red green b => exact ⟨_, rfl, rfl, rfl, rfl, rfl⟩
  | get index =>
      refine ⟨_, rfl, ?_, ?_, (List.append_nil _).symm, ?_⟩ <;>
        simp [setHdc, penOf, PenCommand.command, Command.penAfter]

/-- The loop of `endpaint` over queued pen commands, from entry `i`. -/
theorem exec_pens {cs : List PenCommand} (fuel : ℕ) :
    ∀ (i : ℕ) (g : Gfx), i ≤ cs.length → cs.length - i < fuel →
      (g.hdcObjects h).Holds h (cs.map PenCommand.command) →
      ∃ during g', execStates (Int32.ofNat h) fuel (Int32.ofNat i) g = .ok during ∧
        execQueue (Int32.ofNat h) fuel (Int32.ofNat i) g = .ok g' ∧
        g'.dac = g.dac ++ (cs.drop i).flatMap (fun c => c.command.ports) ∧
        during.map (penOf h) =
          pensAfter (fun c : PenCommand => c.command.penAfter) (penOf h g) (cs.drop i) := by
  induction fuel with
  | zero => exact fun i g _ hf => absurd hf (Nat.not_lt_zero _)
  | succ fuel ih =>
      intro i g hi hf hd
      have hfits := hd.fits
      have hlast := hd.last
      rw [List.length_map] at hfits hlast
      rcases Nat.eq_or_lt_of_le hi with rfl | hlt
      · rw [List.drop_length]
        refine ⟨[], g, ?_, ?_, (List.append_nil _).symm, rfl⟩
        · simp only [execStates, hdcAt_ofNat, bind, Except.bind, hlast, if_neg Int32.lt_irrefl]
          rfl
        · simp only [execQueue, hdcAt_ofNat, bind, Except.bind, hlast, if_neg Int32.lt_irrefl]
          rfl
      · have hi50 : i < 50 := by omega
        have hlt' : Int32.ofNat i < Int32.ofNat cs.length :=
          (Int32.ofNat_lt_iff_lt (by omega) (by omega)).mpr hlt
        have hst := hd.entry ⟨i, hi50⟩ cs[i].command (by simp [List.getElem?_eq_getElem hlt])
        obtain ⟨g₁, hg₁, hq, hend, hdac, hpen⟩ := cs[i].perform_ok (h := h) g
        obtain ⟨during, g₂, hdur, hg₂, hdac₂, hpens⟩ := ih (i + 1) g₁ hlt (by omega)
          (hd.congr hq hend)
        rw [Int32.ofNat_add] at hdur hg₂
        rw [List.drop_eq_getElem_cons hlt]
        refine ⟨g₁ :: during, g₂, ?_, ?_, ?_, ?_⟩
        · simp only [execStates, hdcAt_ofNat, bind, Except.bind, hlast, if_pos hlt',
            index_ofNat _ hi50 (by decide : 50 ≤ 2 ^ 31), hst.action, hst.call, hg₁]
          rw [show (1 : Int32) = Int32.ofNat 1 from rfl, hdur]
          rfl
        · simp only [execQueue, hdcAt_ofNat, bind, Except.bind, hlast, if_pos hlt',
            index_ofNat _ hi50 (by decide : 50 ≤ 2 ^ 31), hst.action, hst.call, hg₁]
          exact hg₂
        · rw [hdac₂, hdac, List.flatMap_cons, List.append_assoc]
        · rw [List.map_cons, hpens, hpen, pensAfter]

/-! ### The calls -/

/-- The call itself writes the same ports and chooses the same pen. -/
theorem PenCommand.syscall_ok (c : PenCommand) (g : Gfx) : ∃ r g',
    g.syscall (c.immediate (Int32.ofNat h)) = .ok (r, g') ∧ g'.dac = g.dac ++ c.ports ∧
      penOf h g' = c.penAfter (penOf h g) := by
  cases c with
  | declare index red green b =>
      simp only [immediate, syscall, sys_setpencolour, ports]
      by_cases h16 : atoi index < 16
      · rw [if_pos h16, if_pos (Or.inl h16)]
        exact ⟨_, _, rfl, (List.append_nil _).symm, rfl⟩
      · by_cases h255 : atoi index > 255
        · rw [if_neg h16, if_pos h255, if_pos (Or.inr h255)]
          exact ⟨_, _, rfl, (List.append_nil _).symm, rfl⟩
        · rw [if_neg h16, if_neg h255, if_neg (not_or.mpr ⟨h16, h255⟩)]
          exact ⟨_, _, rfl, rfl, rfl⟩
  | get index =>
      simp only [immediate, syscall, Gfx.call, sys_selectpen, if_neg (not_neg h), ports, penAfter]
      by_cases h255 : atoi index > 255
      · rw [if_pos h255, if_pos h255]
        exact ⟨_, _, rfl, (List.append_nil _).symm, rfl⟩
      · rw [if_neg h255, if_neg h255]
        simp only [hdcAt_ofNat]
        exact ⟨_, _, rfl, (List.append_nil _).symm, by simp [penOf, setHdc]⟩

/-- All the calls, one after the other. -/
theorem immediate_pens (cs : List PenCommand) : ∀ g : Gfx, ∃ after,
    g.syscallStates (cs.map fun c => c.immediate (Int32.ofNat h)) = .ok after ∧
      (after.getLastD g).dac = g.dac ++ cs.flatMap PenCommand.ports ∧
      after.map (penOf h) = pensAfter PenCommand.penAfter (penOf h g) cs := by
  induction cs with
  | nil => exact fun g => ⟨[], rfl, (List.append_nil _).symm, rfl⟩
  | cons c cs ih =>
      intro g
      obtain ⟨r, g₁, hg₁, hdac, hpen⟩ := c.syscall_ok (h := h) g
      obtain ⟨after, hafter, hdac', hpens⟩ := ih g₁
      refine ⟨g₁ :: after, ?_, ?_, ?_⟩
      · rw [List.map_cons, syscallStates, hg₁]
        simp only [bind, Except.bind, hafter]
        rfl
      · rw [List.getLastD_cons, hdac', hdac, List.flatMap_cons, List.append_assoc]
      · rw [List.map_cons, hpens, hpen, pensAfter]

/-! ### Side by side -/

/-- **What either way does**, without the states. -/
theorem pens_compare {cs : List (PenCommand × Junk)} {queue : Fin 50 → CommandBuffer}
    (hempty : (g.hdcObjects h).queueEnd = 0) (hlen : cs.length ≤ 50)
    (hcs : ∀ c ∈ cs, c.1.Typed ∧ c.2.commandItemTemp.buffset ≠ 1) :
    SamePens g h cs queue ↔
      (cs.map Prod.fst).flatMap (fun c => c.command.ports) =
          (cs.map Prod.fst).flatMap PenCommand.ports ∧
        pensAfter (fun c : PenCommand => c.command.penAfter) (penOf h g) (cs.map Prod.fst) =
          pensAfter PenCommand.penAfter (penOf h g) (cs.map Prod.fst) := by
  obtain ⟨g₁, hg₁, hd, hdac₁, hpen₁⟩ := queued_pens cs g [] (.nil hempty) (by simpa using hlen) hcs
  rw [List.nil_append, ← Function.comp_def PenCommand.command Prod.fst, ← List.map_map] at hd
  obtain ⟨during, g₂, hdur, hg₂, hdac₂, hpens₂⟩ := exec_pens 51 0 g₁ (Nat.zero_le _)
    (by simp; omega) hd
  obtain ⟨after, hafter, hdac₃, hpens₃⟩ := immediate_pens (h := h) (cs.map Prod.fst) g
  rw [List.map_map] at hafter
  have hend : ∃ r g₃, g₁.call (.endpaint (Int32.ofNat h) 1 queue) = .ok (r, g₃) ∧
      g₃.dac = g₂.dac := by
    have heq := endpaint_eq (h := h) 1 queue g₁
    rw [if_pos rfl, show execQueue (Int32.ofNat h) 51 0 g₁ = .ok g₂ from hg₂] at heq
    by_cases hinit : (g₂.hdcObjects h).init = 1
    · exact ⟨_, _, heq.trans (congrArg Except.ok (if_pos hinit)), rfl⟩
    · exact ⟨_, _, heq.trans (congrArg Except.ok (if_neg hinit)), rfl⟩
  obtain ⟨r, g₃, hcall, hdac⟩ := hend
  rw [List.drop_zero] at hdac₂ hpens₂
  rw [hdac₁] at hdac₂
  rw [hpen₁] at hpens₂
  rw [← List.append_cancel_left_eq g.dac, ← hdac₂, ← hdac₃, ← hpens₂, ← hpens₃]
  constructor
  · rintro ⟨_, _, _, _, _, h₁, h₂, h₃, h₄, hsame, hpens⟩
    cases hg₁.symm.trans h₁
    cases (show execStates (Int32.ofNat h) 51 0 g₁ = .ok during from hdur).symm.trans h₂
    cases hcall.symm.trans h₃
    cases hafter.symm.trans h₄
    exact ⟨hdac ▸ hsame, hpens⟩
  · rintro ⟨hsame, hpens⟩
    exact ⟨g₁, during, r, g₃, after, hg₁, hdur, hcall, hafter, hdac.trans hsame, hpens⟩

/-- From the pen selected before them: every declared index is one that the call takes and the
queue does not cap, and so is every selected one; or it is one that the call refuses, while the
pen it is capped to is selected already. -/
def Agrees : Int32 → List PenCommand → Prop
  | _, [] => True
  | pen, .declare index _ _ _ :: cs => (16 ≤ atoi index ∧ atoi index ≤ 50) ∧ Agrees pen cs
  | pen, .get index :: cs =>
      (0 ≤ atoi index ∧ atoi index ≤ 50 ∨ atoi index > 255 ∧ pen = 50) ∧
        Agrees (if atoi index > 255 then pen else atoi index) cs

theorem declaration_length (index red green b : Int32) :
    (Command.declaration index red green b).length = 4 := rfl

/-- Queued, the commands write no fewer ports. -/
theorem ports_length_le (cs : List PenCommand) :
    (cs.flatMap PenCommand.ports).length ≤
      (cs.flatMap fun c => c.command.ports).length := by
  induction cs with
  | nil => exact le_refl _
  | cons c cs ih =>
      rw [List.flatMap_cons, List.flatMap_cons, List.length_append, List.length_append]
      refine Nat.add_le_add ?_ ih
      cases c with
      | declare index red green b =>
          rw [PenCommand.command, Command.ports, declaration_length, PenCommand.ports]
          split
          · exact Nat.zero_le _
          · rw [declaration_length]
      | get index => exact Nat.zero_le _

/-- The values that a cap leaves. -/
theorem ValueCapper_eq_self {v cap : Int32} (h : 0 ≤ cap) :
    ValueCapper v cap = v ↔ 0 ≤ v ∧ v ≤ cap := by
  constructor
  · intro he
    rw [← he]
    exact ⟨ValueCapper_nonneg _ _, ValueCapper_le h⟩
  · rintro ⟨h0, hle⟩
    simp only [ValueCapper, if_neg (Int32.not_lt.mpr hle), if_neg (Int32.not_lt.mpr h0)]

theorem ValueCapper_above {v cap : Int32} (h : 0 ≤ cap) (hv : v > cap) : ValueCapper v cap = cap := by
  simp only [ValueCapper, if_pos hv, if_neg (Int32.not_lt.mpr h)]

/-- A declaration is queued as the call makes it. -/
theorem declaration_eq_iff {v : Int32} (red green b : Int32) (h16 : ¬ v < 16) (h255 : ¬ v > 255) :
    Command.declaration (ValueCapper v 50) red green b = Command.declaration v red green b ↔
      v ≤ 50 := by
  have h0 : 0 ≤ v := Int32.le_trans (by decide) (Int32.not_lt.mp h16)
  have hcap : ValueCapper v 50 = v ↔ v ≤ 50 :=
    (ValueCapper_eq_self (by decide)).trans (and_iff_right h0)
  rw [← hcap]
  refine ⟨fun he => ?_, fun he => by rw [he]⟩
  have hbyte : (ValueCapper v 50).toInt8.toUInt8 = v.toInt8.toUInt8 :=
    congrArg Prod.snd (List.cons.inj he).1
  obtain ⟨M, hM, hcM⟩ := exists_ofNat (ValueCapper_nonneg v 50)
  obtain ⟨N, hN, rfl⟩ := exists_ofNat h0
  have hN' : N ≤ 255 := (Int32.ofNat_le_iff_le hN (by decide)).mp (Int32.not_lt.mp h255)
  have hM' : M ≤ 50 := by
    have hle : ValueCapper (Int32.ofNat N) 50 ≤ 50 := ValueCapper_le (by decide)
    rw [hcM] at hle
    exact (Int32.ofNat_le_iff_le hM (by decide)).mp hle
  rw [hcM] at hbyte ⊢
  have := congrArg UInt8.toNat hbyte
  rw [toUInt8_ofNat (by omega), toUInt8_ofNat (by omega)] at this
  rw [this]

/-- The first command, declared or selected, either way. -/
theorem declare_same_iff {index red green b : CStr} {xs ys : List (UInt16 × UInt8)}
    (hlen : ys.length ≤ xs.length) :
    (PenCommand.declare index red green b).command.ports ++ xs =
        (PenCommand.declare index red green b).ports ++ ys ↔
      (16 ≤ atoi index ∧ atoi index ≤ 50) ∧ xs = ys := by
  rw [PenCommand.command, Command.ports, PenCommand.ports]
  by_cases hout : atoi index < 16 ∨ atoi index > 255
  · -- refused: the queue has sent four bytes more than the calls can
    rw [if_pos hout]
    refine iff_of_false (fun hsame => ?_) fun hin => ?_
    · have := congrArg List.length hsame
      rw [List.length_append, List.length_append, declaration_length, List.length_nil] at this
      omega
    · rcases hout with hlt | hgt
      · exact absurd hlt (Int32.not_lt.mpr hin.1.1)
      · exact absurd (Int32.le_trans hin.1.2 (by decide)) (Int32.not_le.mpr hgt)
  · rw [if_neg hout]
    obtain ⟨h16, h255⟩ := not_or.mp hout
    rw [and_iff_right (Int32.not_lt.mp h16),
      ← declaration_eq_iff (ValueCapper (atoi red) 63) (ValueCapper (atoi green) 63)
        (ValueCapper (atoi b) 63) h16 h255]
    refine ⟨fun hsame => List.append_inj hsame ?_, ?_⟩
    · rw [declaration_length, declaration_length]
    · rintro ⟨h₁, h₂⟩
      rw [h₁, h₂]

/-- Where the queued index and the immediate one choose the same pen. -/
theorem get_same_iff {index : CStr} {pen : Int32} :
    (PenCommand.get index).command.penAfter pen = (PenCommand.get index).penAfter pen ↔
      0 ≤ atoi index ∧ atoi index ≤ 50 ∨ atoi index > 255 ∧ pen = 50 := by
  rw [PenCommand.command, Command.penAfter, PenCommand.penAfter]
  by_cases h255 : atoi index > 255
  · have hnot : ¬ (0 ≤ atoi index ∧ atoi index ≤ 50) := fun hin =>
      absurd (Int32.le_trans hin.2 (by decide)) (Int32.not_le.mpr h255)
    rw [if_pos h255, ValueCapper_above (by decide) (Int32.lt_trans (by decide) h255),
      or_iff_right hnot, and_iff_right h255]
    exact eq_comm
  · rw [if_neg h255, ValueCapper_eq_self (by decide), or_iff_left fun hin => h255 hin.1]

/-- **The exact condition**, by induction on the commands. -/
theorem agrees_iff (cs : List PenCommand) : ∀ pen : Int32,
    (cs.flatMap (fun c => c.command.ports) = cs.flatMap PenCommand.ports ∧
      pensAfter (fun c : PenCommand => c.command.penAfter) pen cs =
        pensAfter PenCommand.penAfter pen cs) ↔ Agrees pen cs := by
  induction cs with
  | nil => exact fun pen => iff_of_true ⟨rfl, rfl⟩ trivial
  | cons c cs ih =>
      intro pen
      rw [List.flatMap_cons, List.flatMap_cons, pensAfter, pensAfter, List.cons.injEq]
      cases c with
      | declare index red green b =>
          rw [Agrees, ← ih pen, declare_same_iff (ports_length_le cs), and_assoc]
          exact and_congr_right fun _ => and_congr_right fun _ => and_iff_right rfl
      | get index =>
          rw [Agrees, ← ih, get_same_iff]
          refine ⟨fun ⟨hports, hpen, hpens⟩ => ⟨hpen, hports, ?_⟩,
            fun ⟨hpen, hports, hpens⟩ => ⟨hports, hpen, ?_⟩⟩
          · rw [get_same_iff.mpr hpen] at hpens
            exact hpens
          · rw [get_same_iff.mpr hpen]
            exact hpens

/-- **When queued pens are immediate pens.**  From any state in which the queue of the handle is
empty: up to 50 typed pen commands do the same queued as called exactly when they agree. -/
theorem queued_pens_iff (g : Gfx) (h : Fin 5) (cs : List (PenCommand × Junk))
    (queue : Fin 50 → CommandBuffer) (hempty : (g.hdcObjects h).queueEnd = 0)
    (hlen : cs.length ≤ 50)
    (hcs : ∀ c ∈ cs, c.1.Typed ∧ c.2.commandItemTemp.buffset ≠ 1) :
    SamePens g h cs queue ↔ Agrees (g.hdcObjects h).penIndex (cs.map Prod.fst) :=
  (pens_compare hempty hlen hcs).trans (agrees_iff _ _)

/-- Pen 20 is declared and selected; then pen 300 is asked for, and pen 50 twice. -/
def penSketch : List (PenCommand × Junk) :=
  [(.declare [50, 48] [54, 52] [48] [57], ⟨.zero, fun _ _ => 7⟩),
    (.get [50, 48], ⟨.zero, fun _ _ => 7⟩), (.get [53, 48], ⟨.zero, fun _ _ => 7⟩),
    (.get [51, 48, 48], ⟨.zero, fun _ _ => 7⟩)]

theorem queued_pens_iff_penSketch :
    SamePens (boot fun _ => 0) 2 penSketch fun _ => .zero :=
  (queued_pens_iff (boot fun _ => 0) 2 penSketch (fun _ => .zero) rfl (by decide)
    (by simp [penSketch, PenCommand.Typed, isDigit, CommandBuffer.zero])).mpr
    (by simp only [penSketch, List.map, Agrees]; decide)

/-- **Pen 100 is not the pen queued**: the queue caps it to 50. -/
theorem pen_hundred_capped :
    ¬ ∀ (g : Gfx) (h : Fin 5) (cs : List (PenCommand × Junk)) (queue : Fin 50 → CommandBuffer),
      (g.hdcObjects h).queueEnd = 0 → cs.length ≤ 50 →
      (∀ c ∈ cs, c.1.Typed ∧ c.2.commandItemTemp.buffset ≠ 1) → SamePens g h cs queue := by
  intro hall
  have hcs : ∀ c ∈ [(PenCommand.declare [49, 48, 48] [54, 51] [48] [55],
      (⟨.zero, fun _ _ => 0⟩ : Junk))], c.1.Typed ∧ c.2.commandItemTemp.buffset ≠ 1 := by
    simp [PenCommand.Typed, isDigit, CommandBuffer.zero]
  have hsame := (pens_compare rfl (by decide) hcs).mp
    (hall (boot fun _ => 0) 0 _ (fun _ => .zero) rfl (by decide) hcs)
  exact absurd hsame.1 (by decide)

end Xv6.Gfx

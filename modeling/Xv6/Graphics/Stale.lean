import Xv6.Graphics.Strings

/-!
# Graphics — stale memory in a queued command

The `Append` functions fill a `commandBuffer` that lives on the stack and is not initialised.
`AppendArg` starts to count its arguments where `buffset` is not 1; where the memory happens to
hold a 1 it goes on from the `lastArgSet` that it finds.  The four bytes it copies of an argument
go over an `argVal` that is not initialised either.

* `Harmless` — what the memory may hold so that the entry decodes as it should.
* `queued_alike_iff` — two calls on any two memories store entries that decode the handle and the
  capped arguments exactly if both memories are harmless, the strings can be printed over, and there
  is an entry to store to.
* `harmless_legible_iff` — for strings that do not run into each other the count alone decides.
-/

namespace Xv6

open Lib

/-! ### The arguments -/

/-- What an argument reads as, once its four bytes are copied over `tmpArg`. -/
def storedArg (tmpArg : ArgVal) (s : CStr) : Except Fault Int32 := do
  let t ← cstr (strncpy tmpArg s sizeofArgument)
  return ParseInt t

theorem storedArg_numeral (tmpArg : ArgVal) {s : CStr} {v : Int32} (hv : Numeral s v) :
    storedArg tmpArg s = .ok v := by
  rw [storedArg, cstr_strncpy _ hv.short hv.noNul]
  exact congrArg Except.ok hv.value

/-- The place where `AppendArg` goes on. -/
def CommandBuffer.count (b : CommandBuffer) : Int32 := if b.buffset ≠ 1 then 0 else b.lastArgSet

/-- The stale memory does no harm to the arguments `strs`, which are to read as `vs`: there is room
for them at the count; the values before the count are there already, and the others are what the
arguments that come to their places read as. -/
def Harmless (junk : Junk) (strs : List CStr) (vs : List Int32) : Prop :=
  ∃ n : ℕ, junk.commandItemTemp.count = Int32.ofNat n ∧ n + strs.length ≤ 20 ∧
    ∀ (k : Fin 20) (v : Int32), vs[k.1]? = some v →
      if k.1 < n then readArg junk.commandItemTemp.args k = .ok v
      else ∃ s, strs[k.1 - n]? = some s ∧
        storedArg (junk.tmpArg (strs.length - 1 - (k.1 - n))) s = .ok v

/-- The first `AppendArg` sets a buffer that is not set. -/
theorem appendArgs_count (junk : ℕ → ArgVal) (s : CStr) (ss : List CStr) (b : CommandBuffer) :
    appendArgs junk (s :: ss) b =
      appendArgs junk (s :: ss) { b with lastArgSet := b.count, buffset := 1 } := by
  by_cases hset : b.buffset = 1
  · have hb : b = { b with lastArgSet := b.count, buffset := 1 } := by
      rw [CommandBuffer.count, if_neg (not_not_intro hset), ← hset]
    rw [← hb]
  · simp only [appendArgs, AppendArg, CommandBuffer.count, if_pos hset]
    rfl

/-- Arguments that are stored fit. -/
theorem appendArgs_fits (junk : ℕ → ArgVal) (ss : List CStr) :
    ∀ (s : CStr) (b b' : CommandBuffer), appendArgs junk (s :: ss) b = .ok b' → b.buffset = 1 →
      ∃ n : ℕ, b.lastArgSet = Int32.ofNat n ∧ n + (s :: ss).length ≤ 20 := by
  induction ss with
  | nil =>
      intro s b b' h hset
      obtain ⟨b₁, h₁, -⟩ := bind_eq_ok.mp h
      rw [AppendArg, if_neg (not_not_intro hset)] at h₁
      obtain ⟨k, hk, -⟩ := bind_eq_ok.mp h₁
      obtain ⟨h0, hk⟩ := index_eq_ok hk
      exact ⟨k, by rw [← hk, Int32.ofNat_toNatClampNeg _ h0], k.2⟩
  | cons t ts ih =>
      intro s b b' h hset
      obtain ⟨b₁, h₁, h⟩ := bind_eq_ok.mp h
      rw [AppendArg, if_neg (not_not_intro hset)] at h₁
      obtain ⟨k, hk, h₁⟩ := bind_eq_ok.mp h₁
      obtain ⟨h0, hk⟩ := index_eq_ok hk
      have hlast : b.lastArgSet = Int32.ofNat k := by rw [← hk, Int32.ofNat_toNatClampNeg _ h0]
      cases h₁
      obtain ⟨n, hn, hfit⟩ := ih t _ b' h hset
      have hsucc : n = k + 1 := by
        have hk20 := k.2
        have hn' : Int32.ofNat (k + 1) = Int32.ofNat n := by
          rw [Int32.ofNat_add, ← hlast]
          exact hn
        have := congrArg Int32.toNatClampNeg hn'
        rwa [Int32.toNatClampNeg_ofNat_of_lt (by omega),
          Int32.toNatClampNeg_ofNat_of_lt (by simp only [List.length_cons] at hfit; omega),
          eq_comm] at this
      exact ⟨k, hlast, by simp only [List.length_cons] at hfit ⊢; omega⟩

/-- **The filled command decodes as it should** exactly if the memory is harmless. -/
theorem fill_iff (junk : Junk) (action : Action) (s : CStr) (ss : List CStr) (vs : List Int32)
    (hvs : vs.length = (s :: ss).length) :
    (∃ cmd, appendArgs junk.tmpArg (s :: ss)
        { junk.commandItemTemp with queuedAction := some action } = .ok cmd ∧
      Decodes { cmd with buffset := 0 } action vs) ↔ Harmless junk (s :: ss) vs := by
  -- what a fill from a count leaves at each place
  have hfrom : ∀ n : ℕ, junk.commandItemTemp.count = Int32.ofNat n → n + (s :: ss).length ≤ 20 →
      ∃ cmd, appendArgs junk.tmpArg (s :: ss)
          { junk.commandItemTemp with queuedAction := some action } = .ok cmd ∧
        cmd.queuedAction = some action ∧
        ∀ (k : Fin 20) (v : Int32), k.1 < vs.length → (readArg cmd.args k = .ok v ↔
          if k.1 < n then readArg junk.commandItemTemp.args k = .ok v
          else ∃ t, (s :: ss)[k.1 - n]? = some t ∧
            storedArg (junk.tmpArg ((s :: ss).length - 1 - (k.1 - n))) t = .ok v) := by
    intro n hn hfit
    obtain ⟨cmd, hcmd, hact, hold, hnew⟩ := appendArgs_from junk.tmpArg (s :: ss) n
      { junk.commandItemTemp with
        queuedAction := some action, lastArgSet := junk.commandItemTemp.count, buffset := 1 }
      rfl hn hfit
    refine ⟨cmd, (appendArgs_count _ s ss _).trans hcmd, hact, fun k v hk => ?_⟩
    split
    · rename_i hlt
      rw [readArg, hold k hlt, readArg]
    · rename_i hlt
      have hk' : k.1 - n < (s :: ss).length := by omega
      have hget := List.getElem?_eq_getElem hk'
      rw [readArg, hnew k _ (Nat.not_lt.mp hlt) hget, hget]
      constructor
      · exact fun h => ⟨_, rfl, h⟩
      · rintro ⟨t, ht, h⟩
        obtain rfl := Option.some.inj ht
        exact h
  constructor
  · rintro ⟨cmd, hcmd, hdec⟩
    obtain ⟨n, hn, hfit⟩ := appendArgs_fits junk.tmpArg ss s _ cmd
      ((appendArgs_count _ s ss _).symm.trans hcmd) rfl
    obtain ⟨cmd', hcmd', -, hread⟩ := hfrom n hn hfit
    obtain rfl : cmd = cmd' := Except.ok.inj (hcmd.symm.trans hcmd')
    exact ⟨n, hn, hfit, fun k v hv =>
      (hread k v (List.getElem?_eq_some_iff.mp hv).1).mp (hdec.args k v hv)⟩
  · rintro ⟨n, hn, hfit, hall⟩
    obtain ⟨cmd, hcmd, hact, hread⟩ := hfrom n hn hfit
    exact ⟨cmd, hcmd, hact, fun k v hv =>
      (hread k v (List.getElem?_eq_some_iff.mp hv).1).mpr (hall k v hv)⟩

/-- **For numerals the count decides**: the values before it are there already, and the others are
the same at their new places. -/
theorem harmless_numerals_iff {junk : Junk} {strs : List CStr} {vs : List Int32}
    (hnum : List.Forall₂ Numeral strs vs) : Harmless junk strs vs ↔
      ∃ n : ℕ, junk.commandItemTemp.count = Int32.ofNat n ∧ n + vs.length ≤ 20 ∧
        ∀ (k : Fin 20) (v : Int32), vs[k.1]? = some v →
          if k.1 < n then readArg junk.commandItemTemp.args k = .ok v
          else vs[k.1 - n]? = some v := by
  rw [Harmless, hnum.length_eq]
  refine exists_congr fun n => and_congr_right fun _ => and_congr_right fun _ =>
    forall_congr' fun k => forall_congr' fun v => imp_congr_right fun hv => ?_
  split
  · exact Iff.rfl
  · have hlt : k.1 - n < vs.length :=
      Nat.lt_of_le_of_lt (Nat.sub_le _ _) (List.getElem?_eq_some_iff.mp hv).1
    have hlt' : k.1 - n < strs.length := hnum.length_eq ▸ hlt
    have hstr := List.getElem?_eq_getElem hlt'
    have hval := storedArg_numeral (junk.tmpArg (vs.length - 1 - (k.1 - n))) (hnum.get hlt' hlt)
    rw [hstr, List.getElem?_eq_getElem hlt]
    constructor
    · rintro ⟨s, hs, hread⟩
      obtain rfl := Option.some.inj hs
      exact congrArg some (Except.ok.inj (hval.symm.trans hread))
    · intro hv'
      exact ⟨_, rfl, Option.some.inj hv' ▸ hval⟩

namespace User

/-! ### The six functions -/

/-- A call of one of the `Append` functions, with the strings it is given. -/
inductive Appending where
  | pixel (x y : ℕ)
  | lineTo (x1 y1 : ℕ)
  | cursorMove (x1 y1 : ℕ)
  | declarePen (index r g b : ℕ)
  | getPen (index : ℕ)
  | drawRect (topY botY topX botX : ℕ)

namespace Appending

/-- The function that queues it. -/
def append (sz : ℕ) (hdc : Int32) (junk : Junk) : Appending → Mem → Gfx → Except Trap (Mem × Gfx)
  | pixel x y => AppendPixel sz hdc x y junk
  | lineTo x1 y1 => AppendLineTo sz hdc x1 y1 junk
  | cursorMove x1 y1 => AppendCursorMove sz hdc x1 y1 junk
  | declarePen index r g b => AppendDeclarePen sz hdc index r g b junk
  | getPen index => AppendGetPen sz hdc index junk
  | drawRect topY botY topX botX => AppendDrawRect sz hdc topY botY topX botX junk

/-- The function that is queued. -/
def action : Appending → Action
  | pixel .. => .PixelSetterFuncQueue
  | lineTo .. => .LineDrawFunc
  | cursorMove .. => .MovePosFunc
  | declarePen .. => .DeclarePenFunc
  | getPen .. => .GetPenFunc
  | drawRect .. => .DrawRect

/-- The strings with their capacities, in the order in which they are printed over. -/
def ptrs : Appending → List (ℕ × Int32)
  | pixel x y | lineTo x y | cursorMove x y => [(x, 319), (y, 199)]
  | declarePen index r g b => [(index, 50), (r, 63), (g, 63), (b, 63)]
  | getPen index => [(index, 50)]
  | drawRect topY botY topX botX => [(topY, 199), (botY, 199), (topX, 319), (botX, 319)]

/-- The order in which they are stored. -/
def order : Appending → List ℕ
  | pixel .. | lineTo .. | cursorMove .. => [0, 1]
  | declarePen .. => [0, 1, 2, 3]
  | getPen .. => [0]
  | drawRect .. => [0, 3, 1, 2]

/-- The strings, as they are stored. -/
def stored (a : Appending) : List ℕ := a.order.map fun k => (a.ptrs.map Prod.fst).getD k 0

/-- The clamped arguments, as they are to be decoded. -/
def values (sz : ℕ) (m : Mem) (a : Appending) : List Int32 :=
  a.order.map fun k =>
    ValueCapperChar ((texts sz m a.ptrs).getD k []) ((a.ptrs.map Prod.snd).getD k 0)

/-- The function that `writeQueue` calls. -/
def ofOp (opType : Int32) (arg : ℕ → ℕ) : Option Appending :=
  if opType = 0 then some (pixel (arg 0) (arg 1))
  else if opType = 1 then some (lineTo (arg 0) (arg 1))
  else if opType = 2 then some (cursorMove (arg 0) (arg 1))
  else if opType = 3 then some (declarePen (arg 0) (arg 1) (arg 2) (arg 3))
  else if opType = 4 then some (getPen (arg 0))
  else if opType = 5 then some (drawRect (arg 0) (arg 1) (arg 2) (arg 3))
  else none

theorem append_eq (sz : ℕ) (hdc : Int32) (junk : Junk) (a : Appending) :
    a.append sz hdc junk = User.append sz a.action a.ptrs a.stored junk hdc := by
  cases a <;> rfl

/-- The operations are calls of the six functions. -/
theorem operation_append {opType : Int32} {action : Action} {caps : List Int32} {order : List ℕ}
    (h : operation opType = some (action, caps, order)) {args : List ℕ}
    (hlen : args.length = caps.length) : ∃ a, ofOp opType (args.getD · 0) = some a ∧
      ∀ (sz : ℕ) (hdc : Int32) (junk : Junk), a.append sz hdc junk =
        User.append sz action (args.zip caps) (order.map (args.getD · 0)) junk hdc := by
  unfold operation at h
  split_ifs at h with h0 h1 h2 h3 h4 h5
  · cases h; subst h0
    obtain ⟨x, y, rfl⟩ := List.length_eq_two.mp hlen
    exact ⟨_, rfl, fun _ _ _ => rfl⟩
  · cases h; subst h1
    obtain ⟨x, y, rfl⟩ := List.length_eq_two.mp hlen
    exact ⟨_, rfl, fun _ _ _ => rfl⟩
  · cases h; subst h2
    obtain ⟨x, y, rfl⟩ := List.length_eq_two.mp hlen
    exact ⟨_, rfl, fun _ _ _ => rfl⟩
  · cases h; subst h3
    obtain ⟨i, r, g, b, rfl⟩ : ∃ i r g b, args = [i, r, g, b] := by
      match args, hlen with
      | [i, r, g, b], _ => exact ⟨i, r, g, b, rfl⟩
    exact ⟨_, rfl, fun _ _ _ => rfl⟩
  · cases h; subst h4
    obtain ⟨i, rfl⟩ := List.length_eq_one_iff.mp hlen
    exact ⟨_, rfl, fun _ _ _ => rfl⟩
  · cases h; subst h5
    obtain ⟨top, bot, left, right, rfl⟩ : ∃ i r g b, args = [i, r, g, b] := by
      match args, hlen with
      | [i, r, g, b], _ => exact ⟨i, r, g, b, rfl⟩
    exact ⟨_, rfl, fun _ _ _ => rfl⟩

/-- **`writeQueue` calls the six functions.** -/
theorem writeQueue_append {p : Proc} {locals : Locals} {m : Mem} {g : Gfx} {action : Action}
    {caps : List Int32} {order : List ℕ}
    (h : operation (opOf p locals m) = some (action, caps, order))
    (hset : setOf p locals m + 4 * caps.length ≤ p.sz) :
    ∃ a, ofOp (opOf p locals m) ((argWords m (setOf p locals m) caps.length).getD · 0) = some a ∧
      sys_writeQueue p locals m g =
        (a.append p.sz (hdcOf p locals m) locals.junk m g).map fun r => (1, r.1, r.2) := by
  obtain ⟨a, ha, happ⟩ := operation_append h
    (show (argWords m (setOf p locals m) caps.length).length = caps.length by simp [argWords])
  refine ⟨a, ha, ?_⟩
  rw [writeQueue_reads h, loadArgs_ok hset, happ, hdcOf]
  simp only [Except.bind, Except.map]

variable {sz : ℕ} {m : Mem} {g : Gfx} {hdc : Int32} {a : Appending} {junk : Junk}

theorem zip_ptrs (a : Appending) : (a.ptrs.map Prod.fst).zip (a.ptrs.map Prod.snd) = a.ptrs := by
  cases a <;> rfl

theorem length_values : (a.values sz m).length = a.stored.length := by
  rw [values, stored, List.length_map, List.length_map]

/-! ### The entry -/

/-- The call stores `entry` at the end of the queue of `hdc`. -/
def Stores (a : Appending) (sz : ℕ) (m : Mem) (hdc : Int32) (g : Gfx) (junk : Junk)
    (entry : CommandBuffer) : Prop :=
  ∃ (h : Fin 5) (k : Fin 50) (m' : Mem), hdc = Int32.ofNat h ∧
    (g.hdcObjects h).queueEnd = Int32.ofNat k ∧ a.append sz hdc junk m g =
      .ok (m', g.withQueue h (Function.update (g.hdcObjects h).commandQueue k entry) (k + 1))

/-- The strings can be printed over, and the stale memory does no harm to what is then copied. -/
def Harmless (a : Appending) (sz : ℕ) (m : Mem) (hdc : Int32) (junk : Junk) : Prop :=
  ∃ m' strs, capStrings sz m a.ptrs = .ok m' ∧
    a.stored.mapM (readBytes sz m' sizeofArgument) = .ok strs ∧
    Xv6.Harmless junk (ParseChar hdc :: strs) (hdc :: a.values sz m)

end Appending

/-- The handle is one of the five, and its queue has an entry left. -/
def HasEntry (hdc : Int32) (g : Gfx) : Prop :=
  ∃ (h : Fin 5) (k : Fin 50), hdc = Int32.ofNat h ∧ (g.hdcObjects h).queueEnd = Int32.ofNat k

theorem length_of_mapM {α β ε : Type} {f : α → Except ε β} {l : List α} :
    ∀ {bs : List β}, l.mapM f = .ok bs → bs.length = l.length := by
  induction l with
  | nil => rintro bs h; cases h; rfl
  | cons a l ih =>
      intro bs h
      rw [List.mapM_cons] at h
      obtain ⟨b, -, h⟩ := bind_eq_ok.mp h
      obtain ⟨cs, hcs, h⟩ := bind_eq_ok.mp h
      cases h
      exact congrArg Nat.succ (ih hcs)

/-- `appendCommand` with an entry to store to. -/
theorem appendCommand_entry {action : Action} {strs : List CStr} {junk : Junk} {h : Fin 5}
    {k : Fin 50} {g : Gfx} (hend : (g.hdcObjects h).queueEnd = Int32.ofNat k) :
    appendCommand action strs junk (Int32.ofNat h) g =
      (appendArgs junk.tmpArg (ParseChar (Int32.ofNat h) :: strs)
        { junk.commandItemTemp with queuedAction := some action }).map fun cmd =>
          g.withQueue h (Function.update (g.hdcObjects h).commandQueue k { cmd with buffset := 0 })
            (k + 1) := by
  rw [appendCommand]
  cases appendArgs junk.tmpArg (ParseChar (Int32.ofNat h) :: strs)
      { junk.commandItemTemp with queuedAction := some action } with
  | error e => rfl
  | ok cmd =>
      simp only [bind, Except.bind, hdcAt_ofNat, hend, index_ofNat _ k.2
        (by decide : 50 ≤ 2 ^ 31), Gfx.withQueue, Int32.ofNat_add]
      rfl

namespace Appending

variable {sz : ℕ} {m : Mem} {g : Gfx} {hdc : Int32} {a : Appending} {junk junk' : Junk}

/-- **One call.** -/
theorem stores_iff : (∃ entry, a.Stores sz m hdc g junk entry ∧
      Decodes entry a.action (hdc :: a.values sz m)) ↔
    HasEntry hdc g ∧ a.Harmless sz m hdc junk := by
  have hvs : ∀ {m' strs}, a.stored.mapM (readBytes sz m' sizeofArgument) = .ok strs →
      (hdc :: a.values sz m).length = (ParseChar hdc :: strs).length := fun hstrs => by
    rw [List.length_cons, List.length_cons, length_values, length_of_mapM hstrs]
  constructor
  · rintro ⟨entry, ⟨h, k, m', rfl, hend, hcall⟩, hdec⟩
    rw [append_eq] at hcall
    obtain ⟨m₁, hcap, hcall⟩ := bind_eq_ok.mp hcall
    obtain ⟨strs, hstrs, hcall⟩ := bind_eq_ok.mp hcall
    obtain ⟨g', hg', hcall⟩ := bind_eq_ok.mp hcall
    rw [mapError_eq_ok, appendCommand_entry hend] at hg'
    refine ⟨⟨h, k, rfl, hend⟩, m₁, strs, hcap, hstrs, (fill_iff _ a.action _ _ _ (hvs hstrs)).mp ?_⟩
    cases hfill : appendArgs junk.tmpArg (ParseChar (Int32.ofNat h) :: strs)
        { junk.commandItemTemp with queuedAction := some a.action } with
    | error e => rw [hfill] at hg'; cases hg'
    | ok cmd =>
        rw [hfill] at hg'
        obtain rfl := Except.ok.inj hg'
        have hentry := congrArg (fun r : Mem × Gfx => (r.2.hdcObjects h).commandQueue k)
          (Except.ok.inj hcall)
        simp only [Gfx.withQueue, Gfx.setHdc, Function.update_self] at hentry
        exact ⟨cmd, rfl, hentry ▸ hdec⟩
  · rintro ⟨⟨h, k, rfl, hend⟩, m', strs, hcap, hstrs, hharm⟩
    obtain ⟨cmd, hfill, hdec⟩ := (fill_iff _ a.action _ _ _ (hvs hstrs)).mpr hharm
    refine ⟨_, ⟨h, k, m', rfl, hend, ?_⟩, hdec⟩
    rw [append_eq]
    simp only [User.append, hcap, bind, Except.bind, hstrs, appendCommand_entry hend, hfill]
    rfl

/-- **For legible strings** the count alone decides whether the memory is harmless. -/
theorem harmless_legible_iff {h : Fin 5} (hl : Legible sz m a.ptrs) :
    a.Harmless sz m (Int32.ofNat h) junk ↔
      ∃ n : ℕ, junk.commandItemTemp.count = Int32.ofNat n ∧
        n + (Int32.ofNat h :: a.values sz m).length ≤ 20 ∧
        ∀ (k : Fin 20) (v : Int32), (Int32.ofNat h :: a.values sz m)[k.1]? = some v →
          if k.1 < n then readArg junk.commandItemTemp.args k = .ok v
          else (Int32.ofNat h :: a.values sz m)[k.1 - n]? = some v := by
  have hcaps : Caps (a.ptrs.map Prod.snd) := by
    cases a <;> simp [Caps, ptrs]
  have horder : ∀ k ∈ a.order, k < (a.ptrs.map Prod.snd).length := by
    cases a <;> simp [order, ptrs]
  rw [← zip_ptrs] at hl
  obtain ⟨m', hm', hcopied⟩ := hl.copied (by simp) hcaps horder
  rw [zip_ptrs] at hl hm' hcopied
  have hnum : List.Forall₂ Numeral
      (a.order.map fun k => capped ((texts sz m a.ptrs).getD k []) ((a.ptrs.map Prod.snd).getD k 0))
      (a.values sz m) := by
    rw [values, List.forall₂_map_left_iff, List.forall₂_map_right_iff, List.forall₂_same]
    intro k hk
    rw [List.getD_eq_getElem _ _ (horder k hk)]
    obtain ⟨h0, h1000⟩ := hcaps _ (List.getElem_mem (horder k hk))
    exact .capped _ h0 h1000
  rw [← harmless_numerals_iff (.cons (Numeral.handle h) hnum)]
  constructor
  · rintro ⟨m₁, strs, hm₁, hstrs, hharm⟩
    obtain rfl := Except.ok.inj (hm'.symm.trans hm₁)
    obtain rfl := Except.ok.inj (hcopied.symm.trans hstrs)
    exact hharm
  · exact fun hharm => ⟨m', _, hm', hcopied, hharm⟩

end Appending

/-- **When stale memory does not matter.**  For every two contents of the memory, the calls store
entries that decode the handle and the clamped arguments exactly if there is an entry to store to
and both contents are harmless. -/
theorem queued_alike_iff (sz : ℕ) (m : Mem) (a : Appending) (hdc : Int32) (g : Gfx)
    (junk junk' : Junk) :
    (∃ entry entry', a.Stores sz m hdc g junk entry ∧ a.Stores sz m hdc g junk' entry' ∧
      Decodes entry a.action (hdc :: a.values sz m) ∧
      Decodes entry' a.action (hdc :: a.values sz m)) ↔
    HasEntry hdc g ∧ a.Harmless sz m hdc junk ∧ a.Harmless sz m hdc junk' := by
  constructor
  · rintro ⟨entry, entry', hs, hs', hd, hd'⟩
    obtain ⟨hentry, hharm⟩ := Appending.stores_iff.mp ⟨entry, hs, hd⟩
    exact ⟨hentry, hharm, (Appending.stores_iff.mp ⟨entry', hs', hd'⟩).2⟩
  · rintro ⟨hentry, hharm, hharm'⟩
    obtain ⟨entry, hs, hd⟩ := Appending.stores_iff.mpr ⟨hentry, hharm⟩
    obtain ⟨entry', hs', hd'⟩ := Appending.stores_iff.mpr ⟨hentry, hharm'⟩
    exact ⟨entry, entry', hs, hs', hd, hd'⟩

/-- Memory that looks like a command with one argument, a `7`. -/
def stale : Junk where
  commandItemTemp := ⟨none, fun _ i => if i = 0 then 55 else 0, 1, 1⟩
  tmpArg _ _ := 0

/-- The strings `5` at 64 and `6` at 66. -/
def fiveSix : Mem := fun a => if a = 64 then 53 else if a = 66 then 54 else 0

theorem fiveSix_legible : Legible 100 fiveSix [(64, 319), (66, 199)] :=
  ⟨_, rfl, .cons ((readStr_eq_ok _).mp rfl) (.cons ((readStr_eq_ok _).mp rfl) .nil)⟩

/-- **Stale memory is decoded.**  On cleared memory `AppendPixel` stores what it should, on `stale`
the `7` comes before the handle. -/
theorem stale_pixel_differs : HasEntry 0 (.boot fun _ => 0) ∧
    Legible 100 fiveSix (Appending.pixel 64 66).ptrs ∧ ¬ ∃ entry entry',
      (Appending.pixel 64 66).Stores 100 fiveSix 0 (.boot fun _ => 0) ⟨.zero, fun _ _ => 0⟩ entry ∧
      (Appending.pixel 64 66).Stores 100 fiveSix 0 (.boot fun _ => 0) stale entry' ∧
      Decodes entry .PixelSetterFuncQueue [0, 5, 6] ∧
      Decodes entry' .PixelSetterFuncQueue [0, 5, 6] := by
  refine ⟨⟨0, 0, rfl, rfl⟩, fiveSix_legible, ?_⟩
  rintro ⟨-, entry, -, hs, -, hd⟩
  have hvalues : (Appending.pixel 64 66).values 100 fiveSix = [5, 6] := by decide
  obtain ⟨-, hharm⟩ := Appending.stores_iff.mp ⟨entry, hs, by rw [hvalues]; exact hd⟩
  obtain ⟨n, hn, -, hvs⟩ := (Appending.harmless_legible_iff (h := 0) fiveSix_legible).mp hharm
  rw [hvalues] at hvs
  cases n with
  | zero => exact absurd hn (by decide)
  | succ n =>
      have h7 : readArg stale.commandItemTemp.args 0 = .ok 7 := rfl
      have h0 := hvs 0 0 rfl
      rw [if_pos (show (0 : Fin 20).1 < n + 1 from n.succ_pos), h7] at h0
      exact absurd (Except.ok.inj h0) (by decide)

end User

end Xv6

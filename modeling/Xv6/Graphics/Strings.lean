import Xv6.Graphics.Pointers

/-!
# Graphics — queued strings in memory

An `Append` function prints over every string it is given, in turn, and only then copies the first
four bytes of each.  The numeral of one string may so run into the next string, and the next numeral
into the numeral before it: what is copied need not be what was capped.

`texts` are the strings as they are found, each after the ones before it were printed over.  A layout
is `Legible` if in the memory they are left in each string is still the numeral it was capped to.

* `writeQueue_kept` — for a legible layout `writeQueue` is the device model's call on the strings it
  finds.
* `Apart.legible` — strings that lie apart are legible, and found as they were before the call.
* `writeQueue_apart` — so with them `writeQueue` is the device model's call.
-/

namespace Xv6.User

open Lib

/-! ### The `Append` functions -/

section

variable (sz : ℕ)

/-- `setpixel` is queued, on the strings in the memory of the process. -/
def AppendPixel (hdc : Int32) (x y : ℕ) (junk : Junk) : Mem → Gfx → Except Trap (Mem × Gfx) :=
  append sz .PixelSetterFuncQueue [(x, 319), (y, 199)] [x, y] junk hdc

/-- `lineto` is queued. -/
def AppendLineTo (hdc : Int32) (x1 y1 : ℕ) (junk : Junk) : Mem → Gfx → Except Trap (Mem × Gfx) :=
  append sz .LineDrawFunc [(x1, 319), (y1, 199)] [x1, y1] junk hdc

/-- `moveto` is queued. -/
def AppendCursorMove (hdc : Int32) (x1 y1 : ℕ) (junk : Junk) :
    Mem → Gfx → Except Trap (Mem × Gfx) :=
  append sz .MovePosFunc [(x1, 319), (y1, 199)] [x1, y1] junk hdc

/-- `setpencolour` is queued. -/
def AppendDeclarePen (hdc : Int32) (index r g b : ℕ) (junk : Junk) :
    Mem → Gfx → Except Trap (Mem × Gfx) :=
  append sz .DeclarePenFunc [(index, 50), (r, 63), (g, 63), (b, 63)] [index, r, g, b] junk hdc

/-- `selectpen` is queued. -/
def AppendGetPen (hdc : Int32) (index : ℕ) (junk : Junk) : Mem → Gfx → Except Trap (Mem × Gfx) :=
  append sz .GetPenFunc [(index, 50)] [index] junk hdc

/-- The arguments are capped in one order and stored in another. -/
def AppendDrawRect (hdc : Int32) (topY botY topX botX : ℕ) (junk : Junk) :
    Mem → Gfx → Except Trap (Mem × Gfx) :=
  append sz .DrawRect [(topY, 199), (botY, 199), (topX, 319), (botX, 319)] [topY, botX, botY, topX]
    junk hdc

/-! ### What is found, and what is left -/

/-- The strings at `ptrs`, each as the ones before it have left it. -/
def texts : Mem → List (ℕ × Int32) → List CStr
  | _, [] => []
  | m, (a, cap) :: rest =>
      let s := (readStr sz m a).toOption.getD []
      s :: texts (overwrite m a (capped s cap ++ [0])) rest

/-- Each string can be printed over, and in the end each is the numeral it was capped to. -/
def Legible (m : Mem) (ptrs : List (ℕ × Int32)) : Prop :=
  ∃ m', capStrings sz m ptrs = .ok m' ∧
    List.Forall₂ (fun s q => StrAt sz m' q.1 (capped s q.2)) (texts sz m ptrs) ptrs

end

variable {sz : ℕ} {m m' : Mem} {a : ℕ} {cap : Int32} {s t : CStr} {ptrs : List (ℕ × Int32)}

theorem length_texts (m : Mem) (ptrs : List (ℕ × Int32)) :
    (texts sz m ptrs).length = ptrs.length := by
  induction ptrs generalizing m with
  | nil => rfl
  | cons q ptrs ih => exact congrArg Nat.succ (ih _)

/-- The first string, and the rest. -/
theorem texts_cons (hs : StrAt sz m a s) (cap : Int32) (ptrs : List (ℕ × Int32)) :
    texts sz m ((a, cap) :: ptrs) =
      s :: texts sz (overwrite m a (capped s cap ++ [0])) ptrs := by
  rw [texts, (readStr_eq_ok s).mpr hs]
  rfl

theorem capStrings_cons (hs : StrAt sz m a s) (hfit : a + (capped s cap).length < sz) :
    capStrings sz m ((a, cap) :: ptrs) =
      capStrings sz (overwrite m a (capped s cap ++ [0])) ptrs := by
  rw [capStrings, capString_eq_ok.mpr ⟨s, hs, hfit, rfl⟩]
  rfl

/-! ### Strings in memory -/

theorem StrAt.congr (hs : StrAt sz m a s)
    (hsame : ∀ z, a ≤ z → z ≤ a + s.length → m' z = m z) : StrAt sz m' a s where
  chars := fun j hj => (hsame _ (by omega) (by omega)).trans (hs.chars j hj)
  noNul := hs.noNul
  nul := (hsame _ (by omega) (le_refl _)).trans hs.nul
  fits := hs.fits

/-- What was written can be read. -/
theorem overwrite_get {vs : List UInt8} {j : ℕ} (hj : j < vs.length) :
    overwrite m a vs (a + j) = vs[j] := by
  induction vs generalizing m a j with
  | nil => exact absurd hj (Nat.not_lt_zero j)
  | cons v vs ih =>
      cases j with
      | zero =>
          rw [overwrite, overwrite_of_lt (by omega)]
          exact Function.update_self ..
      | succ j =>
          rw [overwrite, show a + (j + 1) = a + 1 + j by omega]
          exact ih (Nat.lt_of_succ_lt_succ hj)

/-- A string printed into the process is there afterwards. -/
theorem StrAt.printed (h0 : 0 ∉ t) (hfit : a + t.length < sz) :
    StrAt sz (overwrite m a (t ++ [0])) a t where
  chars := fun j hj => by
    rw [overwrite_get (by simp; omega), List.getElem_append_left hj]
  noNul := h0
  nul := overwrite_last
  fits := hfit

/-- `strncpy` copies a short string whole. -/
theorem readBytes_strAt {n : ℕ} (hs : StrAt sz m a s) (hn : s.length < n) :
    readBytes sz m n a = .ok s := by
  induction s generalizing a n with
  | nil =>
      obtain ⟨n, rfl⟩ := Nat.exists_eq_succ_of_ne_zero (Nat.ne_of_gt hn)
      have hnul : m a = 0 := hs.nul
      rw [readBytes, load8_eq_ok.mpr ⟨show a < sz from hs.fits, hnul⟩]
      rfl
  | cons c s ih =>
      simp only [List.length_cons] at hn
      obtain ⟨n, rfl⟩ := Nat.exists_eq_succ_of_ne_zero (show n ≠ 0 by omega)
      have hfits := hs.fits
      simp only [List.length_cons] at hfits
      obtain ⟨hne, h0⟩ := not_or.mp (List.mem_cons.not.mp hs.noNul)
      have hrest : StrAt sz m (a + 1) s := by
        refine ⟨fun j hj => ?_, h0, ?_, by omega⟩
        · rw [show a + 1 + j = a + (j + 1) by omega]
          exact hs.chars (j + 1) (Nat.succ_lt_succ hj)
        · rw [show a + 1 + s.length = a + (c :: s).length by simp; omega]
          exact hs.nul
      have hc : m a = c := hs.chars 0 (Nat.succ_pos _)
      rw [readBytes, load8_eq_ok.mpr ⟨show a < sz by omega, hc⟩]
      simp only [bind, Except.bind, if_neg (Ne.symm hne), ih hrest (show s.length < n by omega)]
      rfl

/-! ### Reading legible strings -/

/-- The capacities in use have up to three digits. -/
def Caps (caps : List Int32) : Prop := ∀ cap ∈ caps, 0 ≤ cap ∧ cap < 1000

theorem operation_caps {opType : Int32} {action : Action} {caps : List Int32} {order : List ℕ}
    (h : operation opType = some (action, caps, order)) : Caps caps := by
  unfold operation at h
  split_ifs at h <;> cases h <;> simp [Caps]

theorem mapM_map_ok {α β γ ε : Type} {f : β → Except ε γ} {x : α → β} {y : α → γ} {l : List α}
    (h : ∀ k ∈ l, f (x k) = .ok (y k)) : (l.map x).mapM f = .ok (l.map y) := by
  induction l with
  | nil => rfl
  | cons k l ih =>
      rw [List.map_cons, List.mapM_cons, h k List.mem_cons_self,
        ih fun j hj => h j (List.mem_cons_of_mem k hj)]
      rfl

/-- **What is copied of legible strings** is what they were capped to. -/
theorem Legible.copied {args : List ℕ} {caps : List Int32} {order : List ℕ}
    (hlen : args.length = caps.length) (hcaps : Caps caps) (horder : ∀ k ∈ order, k < caps.length)
    (hl : Legible sz m (args.zip caps)) : ∃ m', capStrings sz m (args.zip caps) = .ok m' ∧
      (order.map (args.getD · 0)).mapM (readBytes sz m' sizeofArgument) =
        .ok (order.map fun k => capped ((texts sz m (args.zip caps)).getD k []) (caps.getD k 0)) := by
  obtain ⟨m', hm', hall⟩ := hl
  refine ⟨m', hm', mapM_map_ok fun k hk => ?_⟩
  have hkc := horder k hk
  have hzip : k < (args.zip caps).length := by rw [List.length_zip]; omega
  have hktext : k < (texts sz m (args.zip caps)).length := by rw [length_texts]; exact hzip
  have hstr := hall.get hktext hzip
  rw [List.get_eq_getElem, List.get_eq_getElem, List.getElem_zip] at hstr
  rw [List.getD_eq_getElem _ _ hktext, List.getD_eq_getElem _ _ hkc,
    List.getD_eq_getElem _ _ (hlen ▸ hkc)]
  obtain ⟨h0, h1000⟩ := hcaps _ (List.getElem_mem hkc)
  exact readBytes_strAt hstr (Numeral.capped _ h0 h1000).short

/-! ### `writeQueue` -/

section

variable {p : Proc} {locals : Locals} {g : Gfx}

/-- The strings of the set, with their capacities, as far as the operation takes them. -/
def ptrsOf (p : Proc) (locals : Locals) (m : Mem) : List (ℕ × Int32) :=
  match operation (opOf p locals m) with
  | none => []
  | some (_, caps, _) => (argWords m (setOf p locals m) caps.length).zip caps

/-- The part of the set that is read lies in the process, and its strings are legible. -/
def Kept (p : Proc) (locals : Locals) (m : Mem) : Prop :=
  ∀ action caps order, operation (opOf p locals m) = some (action, caps, order) →
    setOf p locals m + 4 * caps.length ≤ p.sz ∧ Legible p.sz m (ptrsOf p locals m)

/-- The strings of an operation that queues are kept, if all are legible. -/
theorem Kept.intro {action : Action} {caps : List Int32} {order : List ℕ}
    (hop : operation (opOf p locals m) = some (action, caps, order))
    (hset : setOf p locals m + 4 * caps.length ≤ p.sz)
    (hl : Legible p.sz m ((argWords m (setOf p locals m) caps.length).zip caps)) :
    Kept p locals m := by
  intro action' caps' order' hop'
  rw [ptrsOf, hop]
  rw [hop] at hop'
  cases hop'
  exact ⟨hset, hl⟩

/-- The handle, as the kernel takes it. -/
def hdcOf (p : Proc) (locals : Locals) (m : Mem) : Int32 := (argint p m 0).getD locals.hdc

/-- The strings of the set as the call finds them. -/
def setTexts (p : Proc) (locals : Locals) (m : Mem) : ArgsSet :=
  let ss := texts p.sz m (ptrsOf p locals m)
  ⟨ss.getD 0 [], ss.getD 1 [], ss.getD 2 [], ss.getD 3 []⟩

/-- **On legible strings** `writeQueue` does what the device model does with their texts. -/
theorem writeQueue_kept (hk : Kept p locals m) :
    (sys_writeQueue p locals m g).map (fun r => (r.1, r.2.2)) =
      (g.sys_writeQueue (hdcOf p locals m) (opOf p locals m) (setTexts p locals m)
        locals.junk).mapError Trap.fault := by
  cases hop : operation (opOf p locals m) with
  | none =>
      have hnot : ¬ Gfx.queues (opOf p locals m) := fun hq => by
        rcases Gfx.queues_cases hq with h | h | h | h | h | h <;> rw [h] at hop <;> cases hop
      rw [Gfx.writeQueue_other hnot]
      rw [opOf] at hop
      simp only [sys_writeQueue, hop]
      rfl
  | some o =>
      obtain ⟨action, caps, order⟩ := o
      obtain ⟨hset, hl⟩ := hk action caps order hop
      obtain ⟨-, horder⟩ := operation_spec hop
      rw [ptrsOf, hop] at hl
      obtain ⟨m', hm', hcopied⟩ :=
        Legible.copied (by simp [argWords]) (operation_caps hop) horder hl
      rw [writeQueue_reads hop, loadArgs_ok hset]
      simp only [Except.bind, append, hm', bind, hcopied]
      rw [setTexts, ptrsOf, hop]
      dsimp only
      rw [operation_call hop (fun k => (texts p.sz m ((argWords m (setOf p locals m)
        caps.length).zip caps)).getD k [])]
      rw [hdcOf]
      cases appendCommand action (order.map fun k => capped ((texts p.sz m ((argWords m
          (setOf p locals m) caps.length).zip caps)).getD k []) (caps.getD k 0)) locals.junk
          ((argint p m 0).getD locals.hdc) g with
      | error e => rfl
      | ok g' => rfl

end

/-! ### Strings that lie apart -/

/-- The last byte that the string `s` at `q.1`, or its capped numeral, takes. -/
def lastByte (s : CStr) (q : ℕ × Int32) : ℕ := q.1 + max s.length (capped s q.2).length

/-- The strings at `ptrs` are `ss`; neither they nor their numerals meet. -/
structure Apart (sz : ℕ) (m : Mem) (ss : List CStr) (ptrs : List (ℕ × Int32)) : Prop where
  strings : List.Forall₂ (fun s q => StrAt sz m q.1 s ∧ q.1 + (capped s q.2).length < sz) ss ptrs
  apart : (ss.zip ptrs).Pairwise fun u v =>
    lastByte u.1 u.2 < v.2.1 ∨ lastByte v.1 v.2 < u.2.1

/-- Printing over the first string leaves the others. -/
theorem Apart.tail {q : ℕ × Int32} {ss : List CStr} (h : Apart sz m (s :: ss) (q :: ptrs)) :
    Apart sz (overwrite m q.1 (capped s q.2 ++ [0])) ss ptrs := by
  obtain ⟨hstrings, hapart⟩ := h
  obtain ⟨-, hrest⟩ := List.forall₂_cons.mp hstrings
  rw [List.zip_cons_cons, List.pairwise_cons] at hapart
  refine ⟨List.forall₂_iff_zip.mpr ⟨hrest.length_eq, fun {t r} htr => ?_⟩, hapart.2⟩
  obtain ⟨hstr, hfit⟩ := (List.forall₂_iff_zip.mp hrest).2 htr
  have hdis := hapart.1 (t, r) htr
  simp only [lastByte] at hdis
  refine ⟨hstr.congr fun z hz hz' => overwrite_of_lt ?_, hfit⟩
  simp only [List.length_append, List.length_singleton]
  omega

/-- Strings that lie apart are printed over where they lie. -/
theorem Apart.capStrings_ok {ss : List CStr} (h : Apart sz m ss ptrs) :
    texts sz m ptrs = ss ∧ ∃ m', capStrings sz m ptrs = .ok m' ∧
      ∀ z, (∀ u ∈ ss.zip ptrs, z < u.2.1 ∨ lastByte u.1 u.2 < z) → m' z = m z := by
  induction ptrs generalizing m ss with
  | nil =>
      cases h.strings
      exact ⟨rfl, m, rfl, fun _ _ => rfl⟩
  | cons q ptrs ih =>
      obtain _ | ⟨⟨hstr, hfit⟩, -⟩ := h.strings
      rename_i s ss
      obtain ⟨htexts, m', hm', hout⟩ := ih h.tail
      refine ⟨by rw [texts_cons hstr, htexts], m', by rw [capStrings_cons hstr hfit, hm'], ?_⟩
      intro z hz
      rw [List.zip_cons_cons] at hz
      have hq := hz (s, q) List.mem_cons_self
      simp only [lastByte] at hq
      rw [hout z fun u hu => hz u (List.mem_cons_of_mem _ hu), overwrite_of_lt]
      simp only [List.length_append, List.length_singleton]
      omega

/-- **Strings that lie apart are legible**, and are found as they were. -/
theorem Apart.legible {ss : List CStr} (h : Apart sz m ss ptrs) (hcaps : Caps (ptrs.map Prod.snd)) :
    Legible sz m ptrs ∧ texts sz m ptrs = ss := by
  obtain ⟨htexts, m', hm', -⟩ := h.capStrings_ok
  refine ⟨⟨m', hm', ?_⟩, htexts⟩
  rw [htexts]
  clear htexts
  induction ptrs generalizing m ss with
  | nil =>
      cases h.strings
      exact .nil
  | cons q ptrs ih =>
      obtain _ | ⟨⟨hstr, hfit⟩, hrest⟩ := h.strings
      rename_i s ss
      obtain ⟨hcap, hcaps⟩ := List.forall_mem_cons.mp hcaps
      obtain ⟨-, m₁, hm₁, hout⟩ := h.tail.capStrings_ok
      rw [capStrings_cons hstr hfit, hm₁] at hm'
      obtain rfl := Except.ok.inj hm'
      refine .cons ?_ (ih h.tail hcaps hm₁)
      -- the numeral of the first string is where it was printed: the others are elsewhere
      have hprint := StrAt.printed (m := m) (Numeral.capped s hcap.1 hcap.2).noNul hfit
      refine hprint.congr fun z hz hz' => ?_
      refine hout z fun u hu => ?_
      have hdis := (List.pairwise_cons.mp h.apart).1 u hu
      simp only [lastByte] at hdis ⊢
      omega

/-- **The device model is what `writeQueue` does** with strings that lie apart. -/
theorem writeQueue_apart {p : Proc} {locals : Locals} {g : Gfx} {ss : List CStr}
    (hset : ∀ action caps order, operation (opOf p locals m) = some (action, caps, order) →
      setOf p locals m + 4 * caps.length ≤ p.sz) (hapart : Apart p.sz m ss (ptrsOf p locals m)) :
    (sys_writeQueue p locals m g).map (fun r => (r.1, r.2.2)) =
      (g.sys_writeQueue (hdcOf p locals m) (opOf p locals m)
        ⟨ss.getD 0 [], ss.getD 1 [], ss.getD 2 [], ss.getD 3 []⟩ locals.junk).mapError
          Trap.fault := by
  have hcaps : Caps ((ptrsOf p locals m).map Prod.snd) := by
    intro cap hcap
    obtain ⟨q, hq, rfl⟩ := List.mem_map.mp hcap
    rw [ptrsOf] at hq
    split at hq
    · cases hq
    · rename_i hop
      exact operation_caps hop _ (List.of_mem_zip hq).2
  obtain ⟨hl, htexts⟩ := hapart.legible hcaps
  rw [writeQueue_kept fun action caps order hop => ⟨hset action caps order hop, hl⟩]
  simp only [setTexts, htexts]

end Xv6.User

import Mathlib.Data.List.TakeWhile
import Xv6.Lib.Partial
import Xv6.Graphics.Spec

/-!
# Painter — the tokenizer

`AcceptInput` of `Painter.c`: a line is read by `gets(inputbuffer, 49)`, cut at its spaces into the
30 rows of `preBuffArgs`, and its words are copied from there to `argsBuffer`.  Every row and
column that is named is checked here.

The row moves on with every space, not with every word; and `gets` delivers 48 bytes at most, so the
length after the last of them is taken off is never the 48 that the test for a cut line looks for.

* `AcceptInput_ok`, `AcceptInput_fails` — with up to 29 spaces the words are stored, with more there
  is no row.
* `tokenizes_iff` — what the tokenizer is for holds of the lines of up to 47 characters with up to 29
  spaces.
* `in_bounds_iff` — it stays in bounds exactly on up to 29 spaces.
-/

namespace Xv6.Painter

open Lib

/-! ### The input -/

/-- The loop of `gets` with room for `n` bytes: what the calls of `read` return, a byte or none, and
the bytes stored. -/
def getsLoop : ℕ → List (Option UInt8) → CStr
  | 0, _ => []
  | _ + 1, [] => []
  | _ + 1, none :: _ => []
  | n + 1, some c :: cs => if c = 10 ∨ c = 13 then [c] else c :: getsLoop n cs

/-- `gets(buf, max)`, less the NUL. -/
def gets (max : ℕ) (input : List (Option UInt8)) : CStr := getsLoop (max - 1) input

/-- The string in a buffer. -/
def upToNul (buf : CStr) : CStr := buf.takeWhile (· ≠ 0)

/-! ### Cutting -/

/-- An access out of bounds, by the index that is out of them. -/
inductive TokenFault where
  /-- a row of `preBuffArgs` -/
  | row (w : ℕ)
  /-- a column of `preBuffArgs` -/
  | column (c : ℕ)
  /-- a row of `argsBuffer` -/
  | argRow (k : ℕ)
  /-- a row without a NUL -/
  | unterminated
deriving DecidableEq

/-- The words of a command line, and where the next character goes. -/
structure Tokens where
  preBuffArgs : Fin 30 → Bytes 50
  wordIter : ℕ
  charIter : ℕ

namespace Tokens

/-- No character has been read. -/
def start : Tokens := ⟨fun _ _ => 0, 0, 0⟩

/-- `preBuffArgs[wordIter][charIter] = x`. -/
def store (t : Tokens) (x : UInt8) : Except TokenFault Tokens :=
  if hw : t.wordIter < 30 then
    if hc : t.charIter < 50 then
      .ok { t with
        preBuffArgs := Function.update t.preBuffArgs ⟨t.wordIter, hw⟩
          (Function.update (t.preBuffArgs ⟨t.wordIter, hw⟩) ⟨t.charIter, hc⟩ x) }
    else .error (.column t.charIter)
  else .error (.row t.wordIter)

/-- The body of the loop. -/
def read (t : Tokens) (c : UInt8) : Except TokenFault Tokens :=
  if c = 32 ∨ c = 0 then do
    let t ← t.store 0
    return { t with wordIter := t.wordIter + 1, charIter := 0 }
  else do
    let t ← t.store c
    return { t with charIter := t.charIter + 1 }

end Tokens

/-! ### Copying -/

/-- `strcpy`, which needs a NUL in the source. -/
def strcpy (dst src : Bytes 50) : Except TokenFault (Bytes 50) :=
  let s := upToNul (List.ofFn src)
  if s.length < 50 then .ok fun i => if i.1 ≤ s.length then s.getD i 0 else dst i
  else .error .unterminated

/-- The body of the second loop, on `argsBuffer` and `lastIndex`. -/
def copyWord (preBuffArgs : Fin 30 → Bytes 50) (s : (Fin 30 → Bytes 50) × ℕ) (x : ℕ) :
    Except TokenFault ((Fin 30 → Bytes 50) × ℕ) :=
  if hx : x < 30 then
    if preBuffArgs ⟨x, hx⟩ 0 = 0 then .ok s
    else if hk : s.2 < 30 then do
      let row ← strcpy (s.1 ⟨s.2, hk⟩) (preBuffArgs ⟨x, hx⟩)
      return (Function.update s.1 ⟨s.2, hk⟩ row, s.2 + 1)
    else .error (.argRow s.2)
  else .error (.row x)

/-- The value it returns, and what is then in `argsBuffer`. -/
def AcceptInput (input : List (Option UInt8)) (argsBuffer : Fin 30 → Bytes 50) :
    Except TokenFault (ℤ × (Fin 30 → Bytes 50)) := do
  let inputbuffer := gets 49 input
  let inputLen : ℤ := (upToNul inputbuffer).length - 1
  let t ← (inputbuffer.take inputLen.toNat).foldlM Tokens.read .start
  if inputLen ≥ 48 then return (-1, argsBuffer)
  let (argsBuffer, lastIndex) ←
    (List.range (t.wordIter + 1)).foldlM (copyWord t.preBuffArgs) (argsBuffer, 0)
  return (lastIndex, argsBuffer)

/-- The maximal runs of characters that are not spaces. -/
def wordsOf (line : CStr) : List CStr := (line.splitOnP (· = 32)).filter (· ≠ [])

/-- The row starts with the word, and a NUL. -/
def Row (row : Bytes 50) (w : CStr) : Prop :=
  w.length < 50 ∧ ∀ i : Fin 50, i.1 ≤ w.length → row i = w.getD i 0

/-! ### The rows -/

/-- A row that holds `s` and zeros. -/
def padded (s : CStr) : Bytes 50 := fun i => s.getD i 0

/-- One more character of a row. -/
theorem padded_snoc {s : CStr} (hs : s.length < 50) (x : UInt8) :
    Function.update (padded s) ⟨s.length, hs⟩ x = padded (s ++ [x]) := by
  funext i
  by_cases hi : i = ⟨s.length, hs⟩
  · subst hi
    simp [padded]
  · have hne : i.1 ≠ s.length := fun e => hi (Fin.ext e)
    rw [Function.update_of_ne hi]
    simp only [padded]
    rcases Nat.lt_or_gt_of_ne hne with hlt | hgt
    · rw [List.getD_append _ _ _ _ hlt]
    · rw [List.getD_eq_default _ _ (Nat.le_of_lt hgt), List.getD_eq_default _ _ (by simp; omega)]

theorem padded_zero {s : CStr} (hs : s.length < 50) :
    Function.update (padded s) ⟨s.length, hs⟩ 0 = padded s := by
  have h0 : padded s ⟨s.length, hs⟩ = 0 := List.getD_eq_default _ _ (Nat.le_refl _)
  rw [← h0, Function.update_eq_self]

theorem upToNul_padded {s : CStr} (hs : s.length < 50) (h0 : 0 ∉ s) :
    upToNul (List.ofFn (padded s)) = s := by
  obtain ⟨rest, hrest⟩ := ofFn_eq_append_zero (f := padded s) hs
    (fun k hk => List.getD_eq_getElem _ _ hk) (List.getD_eq_default _ _ (Nat.le_refl _))
  rw [upToNul, hrest, takeWhile_append_zero h0]

theorem strcpy_padded {s : CStr} (hs : s.length < 50) (h0 : 0 ∉ s) (dst : Bytes 50) :
    ∃ row, strcpy dst (padded s) = .ok row ∧ Row row s := by
  have hlen : (upToNul (List.ofFn (padded s))).length < 50 := by rwa [upToNul_padded hs h0]
  refine ⟨_, if_pos hlen, hs, fun i hi => ?_⟩
  dsimp only
  rw [upToNul_padded hs h0, if_pos hi]

/-! ### The cut line -/

namespace Tokens

variable {t t' : Tokens} {segs : List CStr} {cur : CStr} {c : UInt8}

/-- The rows hold the pieces that are cut off, and the one that is read. -/
structure Holds (t : Tokens) (segs : List CStr) (cur : CStr) : Prop where
  rows : ∀ x : Fin 30, t.preBuffArgs x = padded ((segs ++ [cur]).getD x [])
  wordIter : t.wordIter = segs.length
  charIter : t.charIter = cur.length

/-- At the start nothing was read. -/
theorem start_holds : start.Holds [] [] where
  rows x := by
    have hx : ([] ++ [[]] : List CStr).getD x.1 [] = [] := by
      rcases x with ⟨x, hx⟩
      cases x <;> rfl
    rw [hx]
    rfl
  wordIter := rfl
  charIter := rfl

/-- A store to the piece that is read. -/
theorem Holds.store (h : t.Holds segs cur) (hw : segs.length < 30) (hc : cur.length < 50)
    (x : UInt8) : ∃ t', t.store x = .ok t' ∧ t'.wordIter = t.wordIter ∧
      t'.charIter = t.charIter ∧ ∀ k : Fin 30, t'.preBuffArgs k =
        if k.1 = segs.length then Function.update (padded cur) ⟨cur.length, hc⟩ x
        else t.preBuffArgs k := by
  have hw' : t.wordIter < 30 := h.wordIter ▸ hw
  have hc' : t.charIter < 50 := h.charIter ▸ hc
  have hstore : t.store x = .ok { t with
      preBuffArgs := Function.update t.preBuffArgs ⟨t.wordIter, hw'⟩
        (Function.update (t.preBuffArgs ⟨t.wordIter, hw'⟩) ⟨t.charIter, hc'⟩ x) } := by
    rw [Tokens.store, dif_pos hw', dif_pos hc']
  refine ⟨_, hstore, rfl, rfl, fun k => ?_⟩
  have hcur : t.preBuffArgs ⟨t.wordIter, hw'⟩ = padded cur := by
    refine (h.rows _).trans (congrArg padded ?_)
    show (segs ++ [cur]).getD t.wordIter [] = cur
    rw [h.wordIter]
    simp
  have hcol : (⟨t.charIter, hc'⟩ : Fin 50) = ⟨cur.length, hc⟩ := Fin.ext h.charIter
  show Function.update t.preBuffArgs ⟨t.wordIter, hw'⟩ _ k = _
  rw [hcur, hcol]
  by_cases hk : k.1 = segs.length
  · have : k = ⟨t.wordIter, hw'⟩ := Fin.ext (hk.trans h.wordIter.symm)
    rw [if_pos hk, this, Function.update_self]
  · have : k ≠ ⟨t.wordIter, hw'⟩ := fun e => hk ((congrArg Fin.val e).trans h.wordIter)
    rw [if_neg hk, Function.update_of_ne this]

/-- A space cuts the piece off. -/
theorem Holds.read_space (h : t.Holds segs cur) (hw : segs.length < 30) (hc : cur.length < 50) :
    ∃ t', t.read 32 = .ok t' ∧ t'.Holds (segs ++ [cur]) [] := by
  obtain ⟨t', hstore, hword, -, hrows⟩ := h.store hw hc 0
  refine ⟨{ t' with wordIter := t'.wordIter + 1, charIter := 0 }, ?_, fun x => ?_, ?_, rfl⟩
  · rw [Tokens.read, if_pos (.inl rfl), hstore]
    rfl
  · have hx : ((segs ++ [cur]) ++ [[]]).getD x [] = (segs ++ [cur]).getD x [] := by
      rcases Nat.lt_or_ge x.1 (segs ++ [cur]).length with hlt | hge
      · exact List.getD_append _ _ _ _ hlt
      · rw [List.getD_append_right _ _ _ _ hge, List.getD_eq_default _ _ hge]
        cases x.1 - (segs ++ [cur]).length <;> rfl
    rw [hx, ← h.rows]
    show t'.preBuffArgs x = _
    rw [hrows]
    split
    · rename_i hk
      rw [padded_zero, h.rows, hk]
      simp
    · rfl
  · show t'.wordIter + 1 = _
    rw [hword, h.wordIter, List.length_append]
    rfl

/-- Another character goes to the end of the piece. -/
theorem Holds.read_char (h : t.Holds segs cur) (hw : segs.length < 30) (hc : cur.length < 50)
    (h32 : c ≠ 32) (h0 : c ≠ 0) : ∃ t', t.read c = .ok t' ∧ t'.Holds segs (cur ++ [c]) := by
  obtain ⟨t', hstore, hword, hchar, hrows⟩ := h.store hw hc c
  refine ⟨{ t' with charIter := t'.charIter + 1 }, ?_, fun x => ?_, hword.trans h.wordIter, ?_⟩
  · rw [Tokens.read, if_neg (by simp [h32, h0]), hstore]
    rfl
  · show t'.preBuffArgs x = _
    rw [hrows]
    split
    · rename_i hk
      rw [padded_snoc, hk]
      simp
    · rename_i hk
      rw [h.rows]
      congr 1
      rcases Nat.lt_or_gt_of_ne hk with hlt | hgt
      · rw [List.getD_append _ _ _ _ hlt, List.getD_append _ _ _ _ hlt]
      · rw [List.getD_eq_default _ _ (by simp; omega), List.getD_eq_default _ _ (by simp; omega)]
  · show t'.charIter + 1 = _
    rw [hchar, h.charIter, List.length_append]
    rfl

/-- **The line is cut at its spaces.** -/
theorem Holds.read_all (xs : CStr) (h0 : 0 ∉ xs) :
    ∀ {t : Tokens} {segs : List CStr} {cur : CStr}, t.Holds segs cur →
      cur.length + xs.length < 50 → segs.length + xs.count 32 < 30 →
      ∃ t' segs' cur', xs.foldlM Tokens.read t = .ok t' ∧ t'.Holds segs' cur' ∧
        segs' ++ [cur'] = segs ++ (xs.splitOnP (· = 32)).modifyHead (cur ++ ·) := by
  induction xs with
  | nil =>
      intro t segs cur h _ _
      exact ⟨t, segs, cur, rfl, h, by simp⟩
  | cons c xs ih =>
      intro t segs cur h hlen hcount
      obtain ⟨hc0, h0⟩ := not_or.mp (List.mem_cons.not.mp h0)
      rw [List.length_cons] at hlen
      by_cases hc : c = 32
      · rw [hc, List.count_cons_self] at hcount
        obtain ⟨t₁, hread, h₁⟩ := h.read_space (by omega) (by omega)
        obtain ⟨t', segs', cur', hfold, h', hsegs⟩ := ih h0 h₁ (by simp; omega)
          (by simp; omega)
        refine ⟨t', segs', cur', ?_, h', ?_⟩
        · rw [List.foldlM_cons, hc, hread]
          exact hfold
        · rw [hsegs, List.splitOnP_cons_eq_if_modifyHead]
          simp [hc]
          exact congrFun List.modifyHead_id _
      · rw [List.count_cons_of_ne hc] at hcount
        obtain ⟨t₁, hread, h₁⟩ := h.read_char (by omega) (by omega) hc (Ne.symm hc0)
        obtain ⟨t', segs', cur', hfold, h', hsegs⟩ := ih h0 h₁ (by simp; omega) (by omega)
        refine ⟨t', segs', cur', ?_, h', ?_⟩
        · rw [List.foldlM_cons, hread]
          exact hfold
        · rw [hsegs, List.splitOnP_cons_eq_if_modifyHead]
          simp [hc]
          rfl

/-- The row is the count of the spaces. -/
theorem wordIter_of_read (xs : CStr) (h0 : 0 ∉ xs) :
    ∀ {t t' : Tokens}, xs.foldlM Tokens.read t = .ok t' →
      t'.wordIter = t.wordIter + xs.count 32 := by
  have hstore : ∀ {t t' : Tokens} {x : UInt8}, t.store x = .ok t' →
      t'.wordIter = t.wordIter := by
    intro t t' x h
    unfold Tokens.store at h
    split_ifs at h
    cases h
    rfl
  induction xs with
  | nil =>
      intro t t' h
      cases h
      rfl
  | cons c xs ih =>
      intro t t' h
      obtain ⟨hc0, h0⟩ := not_or.mp (List.mem_cons.not.mp h0)
      rw [List.foldlM_cons] at h
      obtain ⟨t₁, hread, h⟩ := bind_eq_ok.mp h
      rw [ih h0 h]
      unfold Tokens.read at hread
      by_cases hc : c = 32
      · rw [if_pos (.inl hc)] at hread
        obtain ⟨t₂, h₂, hread⟩ := bind_eq_ok.mp hread
        cases hread
        rw [hc, List.count_cons_self, ← hstore h₂]
        show t₂.wordIter + 1 + xs.count 32 = t₂.wordIter + (xs.count 32 + 1)
        omega
      · rw [if_neg (by simp [hc, Ne.symm hc0])] at hread
        obtain ⟨t₂, h₂, hread⟩ := bind_eq_ok.mp hread
        cases hread
        rw [List.count_cons_of_ne hc, ← hstore h₂]

end Tokens

/-! ### The words -/

/-- The second loop names only rows there are. -/
theorem copyWord_rows {preBuffArgs : Fin 30 → Bytes 50} (xs : List ℕ) :
    ∀ {s s' : (Fin 30 → Bytes 50) × ℕ}, xs.foldlM (copyWord preBuffArgs) s = .ok s' →
      ∀ x ∈ xs, x < 30 := by
  induction xs with
  | nil => intro s s' _ x hx; cases hx
  | cons y ys ih =>
      intro s s' h x hx
      rw [List.foldlM_cons] at h
      obtain ⟨s₁, hcopy, h⟩ := bind_eq_ok.mp h
      rcases List.mem_cons.mp hx with rfl | hx
      · unfold copyWord at hcopy
        split at hcopy
        · assumption
        · cases hcopy
      · exact ih h x hx

/-- **The words are copied**, of the first `n` pieces. -/
theorem copyWords_ok {preBuffArgs : Fin 30 → Bytes 50} {rows : List CStr}
    (hpre : ∀ x : Fin 30, preBuffArgs x = padded (rows.getD x [])) (hlen : rows.length ≤ 30)
    (hrow : ∀ w ∈ rows, w.length < 50 ∧ 0 ∉ w) (argsBuffer : Fin 30 → Bytes 50) (n : ℕ)
    (hn : n ≤ rows.length) :
    ∃ args, (List.range n).foldlM (copyWord preBuffArgs) (argsBuffer, 0) =
        .ok (args, ((rows.take n).filter (· ≠ [])).length) ∧
      ∀ (i : Fin 30) (w : CStr), ((rows.take n).filter (· ≠ []))[i.1]? = some w →
        Row (args i) w := by
  induction n with
  | zero => exact ⟨argsBuffer, rfl, fun i w hw => by simp at hw⟩
  | succ n ih =>
      obtain ⟨args, hfold, hargs⟩ := ih (Nat.le_of_succ_le hn)
      have hlt : n < rows.length := hn
      have hx : n < 30 := Nat.lt_of_lt_of_le hlt hlen
      obtain ⟨hw50, hw0⟩ := hrow rows[n] (List.getElem_mem hlt)
      have hprow : preBuffArgs ⟨n, hx⟩ = padded rows[n] := by
        rw [hpre]
        exact congrArg padded (List.getD_eq_getElem _ _ hlt)
      have hfirst : padded rows[n] 0 = 0 ↔ rows[n] = [] := by
        cases hw : rows[n] with
        | nil => exact iff_of_true rfl rfl
        | cons c cs =>
            rw [hw] at hw0
            refine iff_of_false (fun h => ?_) (List.cons_ne_nil c cs)
            exact hw0 (h ▸ List.mem_cons_self)
      rw [List.range_succ, List.foldlM_append, hfold, List.take_succ_eq_append_getElem hlt,
        List.filter_append]
      show ∃ args', (copyWord preBuffArgs (args, _) n >>= pure) = _ ∧ _
      rw [bind_pure, copyWord, dif_pos hx, hprow]
      -- An empty word is not copied.
      by_cases hnil : rows[n] = []
      · rw [if_pos (hfirst.mpr hnil)]
        refine ⟨args, ?_, fun i w hw => hargs i w ?_⟩
        · simp [hnil]
        · simpa [hnil] using hw
      · have hk : ((rows.take n).filter (· ≠ [])).length < 30 := by
          refine Nat.lt_of_le_of_lt (List.length_filter_le _ _) ?_
          rwa [List.length_take_of_le (Nat.le_of_lt hlt)]
        have hone : [rows[n]].filter (· ≠ []) = [rows[n]] := by simp [hnil]
        obtain ⟨row, hcpy, hr⟩ := strcpy_padded hw50 hw0 (args ⟨_, hk⟩)
        rw [if_neg (fun h => hnil (hfirst.mp h)), dif_pos hk, hcpy, hone]
        refine ⟨_, by rw [List.length_append]; rfl, fun i w hw => ?_⟩
        by_cases hi : i = ⟨_, hk⟩
        · subst hi
          rw [List.getElem?_append_right (Nat.le_refl _), Nat.sub_self] at hw
          obtain rfl : rows[n] = w := by simpa using hw
          rw [Function.update_self]
          exact hr
        · rw [Function.update_of_ne hi]
          refine hargs i w ?_
          have hne : i.1 ≠ ((rows.take n).filter (· ≠ [])).length := fun e => hi (Fin.ext e)
          rcases Nat.lt_or_gt_of_ne hne with hlt' | hgt
          · rwa [List.getElem?_append_left hlt'] at hw
          · rw [List.getElem?_eq_none (by rw [List.length_append]; exact hgt)] at hw
            cases hw

/-- A word is no longer than the line, and consists of its characters. -/
theorem mem_splitOnP (xs : CStr) : ∀ w ∈ xs.splitOnP (· = 32),
    w.length ≤ xs.length ∧ ∀ c ∈ w, c ∈ xs := by
  induction xs with
  | nil => simp
  | cons c cs ih =>
      intro w hw
      have hmore : ∀ v : CStr, (v.length ≤ cs.length ∧ ∀ d ∈ v, d ∈ cs) →
          v.length ≤ (c :: cs).length ∧ ∀ d ∈ v, d ∈ c :: cs := fun v hv =>
        ⟨Nat.le_succ_of_le hv.1, fun d hd => List.mem_cons_of_mem _ (hv.2 d hd)⟩
      rw [List.splitOnP_cons_eq_if_modifyHead] at hw
      split at hw
      · rcases List.mem_cons.mp hw with rfl | hw
        · exact ⟨Nat.zero_le _, fun d hd => by cases hd⟩
        · exact hmore w (ih w hw)
      · cases hcut : cs.splitOnP (· = 32) with
        | nil => rw [hcut] at hw; cases hw
        | cons v vs =>
            rw [hcut] at hw ih
            rcases List.mem_cons.mp hw with rfl | hw
            · obtain ⟨hlen, hsub⟩ := ih v List.mem_cons_self
              refine ⟨Nat.succ_le_succ hlen, fun d hd => ?_⟩
              rcases List.mem_cons.mp hd with rfl | hd
              · exact List.mem_cons_self
              · exact List.mem_cons_of_mem _ (hsub d hd)
            · exact hmore w (ih w (List.mem_cons_of_mem _ hw))

/-! ### `AcceptInput` -/

section

variable (input : List (Option UInt8)) (argsBuffer : Fin 30 → Bytes 50)

/-- The characters that are looked at: all of the string but the last. -/
def looked : CStr := (upToNul (gets 49 input)).dropLast

/-- `gets` returns no more than its maximum. -/
theorem getsLoop_length (n : ℕ) : ∀ input : List (Option UInt8), (getsLoop n input).length ≤ n := by
  induction n with
  | zero => intro input; exact Nat.le_refl 0
  | succ n ih =>
      intro input
      match input with
      | [] => exact Nat.zero_le _
      | none :: _ => exact Nat.zero_le _
      | some c :: cs =>
          rw [getsLoop]
          split
          · exact Nat.succ_le_succ (Nat.zero_le n)
          · exact Nat.succ_le_succ (ih cs)

theorem upToNul_no_nul (buf : CStr) : 0 ∉ upToNul buf := fun h => by
  simpa using List.mem_takeWhile_imp h

theorem looked_no_nul : 0 ∉ looked input := fun h =>
  upToNul_no_nul _ (List.dropLast_subset _ h)

theorem looked_length : (looked input).length ≤ 47 := by
  have h1 : (upToNul (gets 49 input)).length ≤ (gets 49 input).length :=
    (List.takeWhile_prefix _).length_le
  have h2 : (gets 49 input).length ≤ 48 := getsLoop_length 48 input
  rw [looked, List.length_dropLast]
  omega

/-- **The test for a cut line never fires.** -/
theorem AcceptInput_eq : AcceptInput input argsBuffer = (do
    let t ← (looked input).foldlM Tokens.read .start
    let (argsBuffer, lastIndex) ←
      (List.range (t.wordIter + 1)).foldlM (copyWord t.preBuffArgs) (argsBuffer, 0)
    return ((lastIndex : ℤ), argsBuffer)) := by
  have hlen : (gets 49 input).length ≤ 48 := getsLoop_length 48 input
  have hle : (upToNul (gets 49 input)).length ≤ (gets 49 input).length :=
    (List.takeWhile_prefix _).length_le
  have hnot : ¬ ((upToNul (gets 49 input)).length : ℤ) - 1 ≥ 48 := by omega
  have htake : (gets 49 input).take (((upToNul (gets 49 input)).length : ℤ) - 1).toNat =
      looked input := by
    have hpre : upToNul (gets 49 input) <+: gets 49 input := List.takeWhile_prefix _
    have hnat : (((upToNul (gets 49 input)).length : ℤ) - 1).toNat =
        (upToNul (gets 49 input)).length - 1 := by omega
    obtain ⟨rest, hrest⟩ := hpre
    rw [hnat, looked, List.dropLast_eq_take]
    generalize upToNul (gets 49 input) = s at hrest
    rw [← hrest, List.take_append_of_le_length (Nat.sub_le _ _)]
  unfold AcceptInput
  simp only [htake, if_neg hnot]

/-- **Up to 29 spaces**: the words are stored, and counted. -/
theorem AcceptInput_ok (h : (looked input).count 32 ≤ 29) :
    ∃ args, AcceptInput input argsBuffer = .ok ((wordsOf (looked input)).length, args) ∧
      ∀ (i : Fin 30) (w : CStr), (wordsOf (looked input))[i.1]? = some w → Row (args i) w := by
  have h0 := looked_no_nul input
  have hlen := looked_length input
  obtain ⟨t, segs, cur, hread, hholds, hsegs⟩ := Tokens.start_holds.read_all (looked input) h0
    (by simp; omega) (by simp; omega)
  have hrows : segs ++ [cur] = (looked input).splitOnP (· = 32) := by
    rw [hsegs]
    exact congrFun List.modifyHead_id _
  have hword : t.wordIter + 1 = (segs ++ [cur]).length := by
    rw [hholds.wordIter, List.length_append]
    rfl
  have hcount := Tokens.wordIter_of_read (looked input) h0 hread
  have hpieces : ∀ w ∈ segs ++ [cur], w.length < 50 ∧ 0 ∉ w := by
    intro w hw
    obtain ⟨hwlen, hsub⟩ := mem_splitOnP _ w (hrows ▸ hw)
    exact ⟨by omega, fun hmem => h0 (hsub 0 hmem)⟩
  obtain ⟨args, hcopy, hargs⟩ := copyWords_ok hholds.rows
    (by rw [← hword, hcount]; show 0 + _ + 1 ≤ 30; omega) hpieces argsBuffer _ (Nat.le_refl _)
  rw [List.take_length, hrows] at hcopy hargs
  refine ⟨args, ?_, hargs⟩
  rw [AcceptInput_eq, hread]
  show (do
    let (argsBuffer, lastIndex) ←
      (List.range (t.wordIter + 1)).foldlM (copyWord t.preBuffArgs) (argsBuffer, 0)
    return ((lastIndex : ℤ), argsBuffer)) = _
  rw [hword, hrows, hcopy]
  rfl

/-- **More than 29 spaces**: there is no row. -/
theorem AcceptInput_fails (h : 29 < (looked input).count 32) :
    ∃ e, AcceptInput input argsBuffer = .error e := by
  cases hres : AcceptInput input argsBuffer with
  | error e => exact ⟨e, rfl⟩
  | ok res =>
      rw [AcceptInput_eq] at hres
      obtain ⟨t, hread, hres⟩ := bind_eq_ok.mp hres
      obtain ⟨s, hcopy, -⟩ := bind_eq_ok.mp hres
      have hcount := Tokens.wordIter_of_read _ (looked_no_nul input) hread
      have hrow := copyWord_rows _ hcopy t.wordIter (List.mem_range.mpr (Nat.lt_succ_self _))
      rw [hcount] at hrow
      exact absurd hrow (by show ¬ 0 + _ < 30; omega)

/-- **The tokenizer stays in bounds** exactly if there are up to 29 spaces before the last
character of the string that `gets` delivers. -/
theorem in_bounds_iff : (∃ res, AcceptInput input argsBuffer = .ok res) ↔
    (looked input).count 32 ≤ 29 := by
  constructor
  · rintro ⟨res, hres⟩
    by_contra hgt
    obtain ⟨e, he⟩ := AcceptInput_fails input argsBuffer (Nat.not_le.mp hgt)
    rw [he] at hres
    cases hres
  · intro h
    obtain ⟨args, hargs, -⟩ := AcceptInput_ok input argsBuffer h
    exact ⟨_, hargs⟩

end

/-! ### A line -/

/-- A line as it is typed, less its newline. -/
structure Line where
  chars : CStr
  typed : ∀ c ∈ chars, c ≠ 0 ∧ c ≠ 10 ∧ c ≠ 13

/-- What `read` returns for a line, and what comes after it. -/
def Line.input (line : Line) (rest : List (Option UInt8)) : List (Option UInt8) :=
  line.chars.map some ++ some 10 :: rest

/-- What the tokenizer is for: a line that is cut off is refused; of any other the words are stored,
and counted. -/
def Tokenizes (line : Line) (res : Except TokenFault (ℤ × (Fin 30 → Bytes 50))) : Prop :=
  ∃ k args, res = .ok (k, args) ∧ (k = -1 ↔ 47 < line.chars.length) ∧
    (line.chars.length ≤ 47 → k = (wordsOf line.chars).length ∧
      ∀ (i : Fin 30) (w : CStr), (wordsOf line.chars)[i.1]? = some w → Row (args i) w)

/-- `gets` returns the line, as far as it fits. -/
theorem gets_line (line : CStr) (hline : ∀ c ∈ line, c ≠ 0 ∧ c ≠ 10 ∧ c ≠ 13)
    (rest : List (Option UInt8)) (n : ℕ) :
    getsLoop n (line.map some ++ some 10 :: rest) = (line ++ [10]).take n := by
  induction line generalizing n with
  | nil =>
      cases n with
      | zero => rfl
      | succ n => simp [getsLoop]
  | cons c cs ih =>
      cases n with
      | zero => rfl
      | succ n =>
          obtain ⟨-, h10, h13⟩ := hline c List.mem_cons_self
          rw [List.map_cons, List.cons_append, getsLoop, if_neg (by simp [h10, h13]),
            ih (fun c hc => hline c (List.mem_cons_of_mem _ hc))]
          rfl

/-- The characters looked at are the first 47. -/
theorem looked_line (line : Line) (rest : List (Option UInt8)) :
    looked (line.input rest) = line.chars.take 47 := by
  have hno : ∀ c ∈ line.chars ++ [10], c ≠ 0 := by
    intro c hc
    rcases List.mem_append.mp hc with hc | hc
    · exact (line.typed c hc).1
    · obtain rfl := List.mem_singleton.mp hc
      decide
  have hall : upToNul ((line.chars ++ [10]).take 48) = (line.chars ++ [10]).take 48 := by
    refine List.takeWhile_eq_self_iff.mpr fun c hc => ?_
    simpa using hno c (List.mem_of_mem_take hc)
  have hgets : gets 49 (line.input rest) = (line.chars ++ [10]).take 48 :=
    gets_line line.chars line.typed rest 48
  rw [looked, hgets, hall, List.dropLast_eq_take, List.take_take, List.length_take,
    List.length_append, List.length_singleton]
  rcases Nat.lt_or_ge 47 line.chars.length with hlt | hle
  · rw [List.take_append_of_le_length (by omega)]
    congr 1
    omega
  · rw [List.take_append_of_le_length (by omega), List.take_of_length_le hle,
      List.take_of_length_le (by omega)]

/-- A line that is read well is short enough for the buffers. -/
theorem tokenizes_short {line : Line} {rest : List (Option UInt8)} {argsBuffer : Fin 30 → Bytes 50}
    (h : Tokenizes line (AcceptInput (line.input rest) argsBuffer)) :
    line.chars.length ≤ 47 ∧ line.chars.count 32 ≤ 29 := by
  obtain ⟨k, args, hres, hcut, -⟩ := h
  have hcount : (looked (line.input rest)).count 32 ≤ 29 := by
    by_contra hgt
    obtain ⟨e, he⟩ := AcceptInput_fails _ argsBuffer (Nat.not_le.mp hgt)
    rw [he] at hres
    cases hres
  obtain ⟨args', hok, -⟩ := AcceptInput_ok _ argsBuffer hcount
  have hk : k = ((wordsOf (looked (line.input rest))).length : ℤ) :=
    congrArg Prod.fst (Except.ok.inj (hres.symm.trans hok))
  have hlen : line.chars.length ≤ 47 := by
    by_contra hgt
    have := hcut.mpr (Nat.not_le.mp hgt)
    omega
  rw [looked_line, List.take_of_length_le hlen] at hcount
  exact ⟨hlen, hcount⟩

/-- **The tokenizer does what it is for** exactly on the lines of up to 47 characters with up to 29
spaces. -/
theorem tokenizes_iff (line : Line) (rest : List (Option UInt8))
    (argsBuffer : Fin 30 → Bytes 50) : Tokenizes line (AcceptInput (line.input rest) argsBuffer) ↔
      line.chars.length ≤ 47 ∧ line.chars.count 32 ≤ 29 := by
  refine ⟨tokenizes_short, ?_⟩
  rintro ⟨hlen, hcount⟩
  have hlook := looked_line line rest
  rw [List.take_of_length_le hlen] at hlook
  obtain ⟨args, hok, hargs⟩ := AcceptInput_ok (line.input rest) argsBuffer (by rwa [hlook])
  rw [hlook] at hok hargs
  exact ⟨_, args, hok, iff_of_false (by omega) (by omega), fun _ => ⟨rfl, hargs⟩⟩

/-- A line of `n` times the character `c`. -/
def repeated (n : ℕ) (c : UInt8) (hc : c ≠ 0 ∧ c ≠ 10 ∧ c ≠ 13) : Line where
  chars := List.replicate n c
  typed := fun d hd => by
    obtain ⟨-, rfl⟩ := List.mem_replicate.mp hd
    exact hc

/-- **A line of 48 letters is cut off, and taken for one of 47.** -/
theorem cut_line_accepted : ¬ Tokenizes (repeated 48 97 (by decide))
    (AcceptInput ((repeated 48 97 (by decide)).input []) fun _ _ => 0) := by
  intro h
  exact absurd (tokenizes_short h).1 (by decide)

/-- **Thirty spaces name a row that is not there.** -/
theorem thirty_spaces_escape : ¬ ∃ res,
    AcceptInput ((repeated 30 32 (by decide)).input []) (fun _ _ => 0) = .ok res := by
  rintro ⟨res, hres⟩
  obtain ⟨e, he⟩ := AcceptInput_fails ((repeated 30 32 (by decide)).input []) (fun _ _ => 0)
    (by decide)
  rw [he] at hres
  cases hres

end Xv6.Painter

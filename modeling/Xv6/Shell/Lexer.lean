import Xv6.Shell.Parse

/-!
# Shell — `gettoken` and `peek` on the tokens of a line

* `tokens_eq` — a call of `gettoken` takes the first token.
* `peek_eq` — `peek` looks at the first character of the first token.
* `stringAt_nulterminate` — after `nulterminate` every word of a tree is a string that ends where
  the word does.
-/

namespace Xv6.Sh

open Fs (Str deref)

variable {s line : Str} {tk : Token} {ts : List Token}

/-! ### Tokens -/

/-- The first character of a symbol. -/
def Token.opens : Token → Option UInt8
  | .bar => some 124
  | .lparen => some 40
  | .rparen => some 41
  | .semi => some 59
  | .amp => some 38
  | .lt => some 60
  | .gt | .gtgt => some 62
  | .word _ => none

/-- What `gettoken` returns for the token. -/
def Token.code : Token → UInt8
  | .bar => 124
  | .lparen => 40
  | .rparen => 41
  | .semi => 59
  | .amp => 38
  | .lt => 60
  | .gt => 62
  | .gtgt => 43
  | .word _ => 97

theorem skip_suffix (s : Str) : skip s <:+ s := List.dropWhile_suffix _

theorem not_mem_of_skip {c : UInt8} {cs : Str} (h : skip s = c :: cs) : c ∉ whitespace := by
  have := List.head?_dropWhile_not (· ∈ whitespace) s
  rw [show s.dropWhile (· ∈ whitespace) = c :: cs from h] at this
  simpa using this

@[simp]
theorem skip_skip (s : Str) : skip (skip s) = skip s := by
  cases hq : skip s with
  | nil => rfl
  | cons c cs =>
      rw [skip, List.dropWhile_cons_of_neg]
      simpa using not_mem_of_skip hq

theorem gettoken_skip (s : Str) : gettoken (skip s) = gettoken s := by
  simp [gettoken]

theorem token_of_nil (h : skip s = []) : (gettoken s).token = none ∧ (gettoken s).ret = 0 := by
  simp only [gettoken, h]
  exact ⟨rfl, rfl⟩

/-- The first character says which token comes next. -/
theorem token_of_cons {c : UInt8} {cs : Str} (h : skip s = c :: cs) :
    ∃ tk, (gettoken s).token = some tk ∧ tk.opens = if c ∈ symbols then some c else none := by
  simp only [gettoken, h, scan]
  by_cases hc : c ∈ ([124, 40, 41, 59, 38, 60] : List UInt8)
  · simp only [if_pos hc]
    simp only [List.mem_cons, List.not_mem_nil, or_false] at hc
    rcases hc with rfl | rfl | rfl | rfl | rfl | rfl
    · exact ⟨.bar, rfl, rfl⟩
    · exact ⟨.lparen, rfl, rfl⟩
    · exact ⟨.rparen, rfl, rfl⟩
    · exact ⟨.semi, rfl, rfl⟩
    · exact ⟨.amp, rfl, rfl⟩
    · exact ⟨.lt, rfl, rfl⟩
  · simp only [if_neg hc]
    by_cases hgt : c = 62
    · subst hgt
      by_cases hd : deref cs = 62
      · simp only [hd, if_true]
        exact ⟨.gtgt, rfl, rfl⟩
      · simp only [hd, if_true, if_false]
        exact ⟨.gt, rfl, rfl⟩
    · have hsym : c ∉ symbols := by
        simp only [symbols, List.mem_cons, List.not_mem_nil, or_false, not_or] at hc ⊢
        tauto
      simp only [if_neg hgt, if_neg hsym]
      exact ⟨.word _, rfl, rfl⟩

theorem ret_of_token {g : Got} (h : g.token = some tk) : g.ret = tk.code := by
  unfold Got.token at h
  split_ifs at h <;>
    · obtain rfl := Option.some.inj h
      assumption

theorem text_of_token {g : Got} {w : Str} (h : g.token = some (.word w)) : g.word.text = w := by
  unfold Got.token at h
  split_ifs at h <;> cases h
  rfl

/-- Every token takes a character at least. -/
theorem rest_lt (h : (gettoken s).token = some tk) : (gettoken s).rest.length < s.length := by
  have hskip := (skip_suffix s).length_le
  cases hq : skip s with
  | nil =>
      rw [(token_of_nil hq).1] at h
      cases h
  | cons c cs =>
      have hscan : (scan (c :: cs)).2.length ≤ cs.length := by
        simp only [scan]
        split_ifs with h₁ h₂ h₃
        · exact le_rfl
        · rw [List.length_tail]
          exact Nat.sub_le ..
        · exact le_rfl
        · -- a word has a first character
          have hc : isWordChar c = true := by
            have hws := not_mem_of_skip hq
            have hsym : c ∉ symbols := by
              simp only [symbols, List.mem_cons, List.not_mem_nil, or_false, not_or] at h₁ ⊢
              tauto
            simp [isWordChar, hws, hsym]
          rw [List.dropWhile_cons_of_pos hc]
          exact (List.dropWhile_suffix _).length_le
      have hrest : (gettoken s).rest.length ≤ (scan (c :: cs)).2.length := by
        simp only [gettoken, hq]
        exact (skip_suffix _).length_le
      rw [hq, List.length_cons] at hskip
      omega

/-- As much fuel as the line has characters is enough. -/
theorem tokensUpTo_eq (n : ℕ) : ∀ s : Str, s.length ≤ n → tokensUpTo n s = tokens s := by
  have hstep : ∀ n m (s : Str), s.length ≤ n → s.length ≤ m → tokensUpTo n s = tokensUpTo m s := by
    intro n
    induction n with
    | zero =>
        intro m s hn _
        obtain rfl := List.length_eq_zero_iff.mp (Nat.le_zero.mp hn)
        cases m <;> rfl
    | succ n ih =>
        intro m s hn hm
        cases m with
        | zero =>
            obtain rfl := List.length_eq_zero_iff.mp (Nat.le_zero.mp hm)
            rfl
        | succ m =>
            simp only [tokensUpTo]
            cases htok : (gettoken s).token with
            | none => rfl
            | some tk =>
                have := rest_lt htok
                simp only
                rw [ih m _ (by omega) (by omega)]
  exact fun s h => hstep n s.length s h le_rfl

theorem tokens_eq (s : Str) : tokens s =
    match (gettoken s).token with
    | none => []
    | some tk => tk :: tokens (gettoken s).rest := by
  rw [← tokensUpTo_eq (s.length + 1) s (Nat.le_succ _), tokensUpTo]
  cases htok : (gettoken s).token with
  | none => rfl
  | some tk => simp only [tokensUpTo_eq s.length _ (rest_lt htok).le]

@[simp]
theorem tokens_skip (s : Str) : tokens (skip s) = tokens s := by
  rw [tokens_eq, tokens_eq s, gettoken_skip]

theorem tokens_eq_nil : tokens s = [] ↔ skip s = [] := by
  rw [tokens_eq]
  cases hq : skip s with
  | nil => simp [(token_of_nil hq).1]
  | cons c cs =>
      obtain ⟨tk, htok, -⟩ := token_of_cons hq
      simp [htok]

/-- What `gettoken` does where there is a token. -/
theorem gettoken_of_tokens (h : tokens s = tk :: ts) :
    (gettoken s).ret = tk.code ∧ tokens (gettoken s).rest = ts ∧
      (gettoken s).rest.length < s.length ∧ ∀ w, tk = .word w → (gettoken s).word.text = w := by
  rw [tokens_eq] at h
  cases htok : (gettoken s).token with
  | none =>
      rw [htok] at h
      cases h
  | some tk' =>
      rw [htok] at h
      obtain ⟨rfl, rfl⟩ := List.cons.inj h
      refine ⟨ret_of_token htok, rfl, rest_lt htok, ?_⟩
      rintro w rfl
      exact text_of_token htok

theorem gettoken_of_nil (h : tokens s = []) : (gettoken s).ret = 0 ∧ tokens (gettoken s).rest = [] := by
  have hq := tokens_eq_nil.mp h
  refine ⟨(token_of_nil hq).2, ?_⟩
  simp only [gettoken, hq]
  rfl

/-- A word is one token. -/
theorem tokens_of_word (h : (gettoken s).ret = 97) :
    tokens s = .word (gettoken s).word.text :: tokens (gettoken s).rest := by
  cases hs : tokens s with
  | nil =>
      rw [(gettoken_of_nil hs).1] at h
      cases h
  | cons tk ts =>
      obtain ⟨hret, hrest, -, htext⟩ := gettoken_of_tokens hs
      rw [hret] at h
      cases tk with
      | word w => rw [hrest, htext w rfl]
      | _ => exact absurd h (by decide)

/-- At the end of the line there are no tokens. -/
theorem tokens_of_end (h : (gettoken s).ret = 0) : tokens s = [] := by
  cases hs : tokens s with
  | nil => rfl
  | cons tk ts =>
      rw [(gettoken_of_tokens hs).1] at h
      cases tk with
      | word w => exact absurd (show (97 : UInt8) = 0 from h) (by decide)
      | _ => exact absurd h (by decide)

/-- Every token takes a character. -/
theorem length_tokens_le (s : Str) : (tokens s).length ≤ s.length := by
  induction hn : s.length using Nat.strong_induction_on generalizing s with
  | _ n ih =>
      cases hs : tokens s with
      | nil => exact Nat.zero_le _
      | cons tk ts =>
          obtain ⟨-, htokens, hlt, -⟩ := gettoken_of_tokens hs
          have := ih _ (hn ▸ hlt) (gettoken s).rest rfl
          rw [htokens] at this
          rw [List.length_cons]
          omega

/-! ### Looking ahead -/

/-- The first token is one of `tks`. -/
def starts (tks ts : List Token) : Bool := ts.head?.any (· ∈ tks)

@[simp]
theorem starts_nil (tks : List Token) : starts tks [] = false := rfl

@[simp]
theorem starts_cons (tks : List Token) : starts tks (tk :: ts) = decide (tk ∈ tks) := rfl

theorem exists_of_starts {tks : List Token} (h : starts tks ts = true) :
    ∃ tk ∈ tks, ∃ ts', ts = tk :: ts' := by
  cases ts with
  | nil => cases h
  | cons tk ts => exact ⟨tk, of_decide_eq_true h, ts, rfl⟩

/-- `peek` looks at the first character of the first token. -/
theorem peek_eq {toks : List UInt8} {tks : List Token} (hsub : toks ⊆ symbols)
    (h : ∀ tk : Token, (∃ c ∈ toks, tk.opens = some c) ↔ tk ∈ tks) (s : Str) :
    peek s toks = (starts tks (tokens s), skip s) := by
  have h0 : (0 : UInt8) ∉ toks := fun h => absurd (hsub h) (by decide)
  refine Prod.ext ?_ rfl
  cases hq : skip s with
  | nil =>
      rw [tokens_eq_nil.mpr hq]
      simp [peek, hq, deref]
  | cons c cs =>
      obtain ⟨tk, htok, hopens⟩ := token_of_cons hq
      rw [tokens_eq, htok, starts_cons]
      simp only [peek, hq, deref]
      refine decide_eq_decide.mpr (Iff.trans ?_ (h tk))
      rw [hopens]
      constructor
      · rintro ⟨-, hc⟩
        exact ⟨c, hc, if_pos (hsub hc)⟩
      · rintro ⟨c', hc', heq⟩
        split at heq
        · cases heq
          exact ⟨fun e => h0 (e ▸ hc'), hc'⟩
        · cases heq

theorem peek_lparen (s : Str) : peek s [40] = (starts [.lparen] (tokens s), skip s) :=
  peek_eq (by decide) (fun tk => by cases tk <;> simp [Token.opens]) s

theorem peek_rparen (s : Str) : peek s [41] = (starts [.rparen] (tokens s), skip s) :=
  peek_eq (by decide) (fun tk => by cases tk <;> simp [Token.opens]) s

theorem peek_amp (s : Str) : peek s [38] = (starts [.amp] (tokens s), skip s) :=
  peek_eq (by decide) (fun tk => by cases tk <;> simp [Token.opens]) s

theorem peek_semi (s : Str) : peek s [59] = (starts [.semi] (tokens s), skip s) :=
  peek_eq (by decide) (fun tk => by cases tk <;> simp [Token.opens]) s

theorem peek_bar (s : Str) : peek s [124] = (starts [.bar] (tokens s), skip s) :=
  peek_eq (by decide) (fun tk => by cases tk <;> simp [Token.opens]) s

/-- The loop of `parseredirs` goes on. -/
theorem peek_redir (s : Str) : peek s [60, 62] = (starts [.lt, .gt, .gtgt] (tokens s), skip s) :=
  peek_eq (by decide) (fun tk => by cases tk <;> simp [Token.opens]) s

/-- The loop of `parseexec` ends. -/
theorem peek_stop (s : Str) :
    peek s [124, 41, 38, 59] = (starts [.bar, .rparen, .amp, .semi] (tokens s), skip s) :=
  peek_eq (by decide) (fun tk => by cases tk <;> simp [Token.opens]) s

/-! ### Words of the line -/

/-- `w` is a word of `line`: it ends behind its last word character. -/
structure IsWord (line : Str) (w : Word) : Prop where
  suffix : w.q <:+ line
  ends : w.eq = w.q.dropWhile isWordChar

theorem IsWord.text_eq {w : Word} (h : IsWord line w) : w.text = w.q.takeWhile isWordChar := by
  have happ := List.takeWhile_append_dropWhile (p := isWordChar) (l := w.q)
  have hlen := congrArg List.length happ
  rw [List.length_append, ← h.ends] at hlen
  rw [Word.text, ← hlen, Nat.add_sub_cancel]
  nth_rewrite 2 [← happ]
  exact List.take_left

/-- What is left after a word is the end of the line. -/
theorem scan_suffix (q : Str) : (scan q).2 <:+ q := by
  cases q with
  | nil => exact List.suffix_rfl
  | cons c cs =>
      simp only [scan]
      split_ifs with h₁ h₂ h₃
      · exact List.suffix_cons c cs
      · exact (List.tail_suffix cs).trans (List.suffix_cons c cs)
      · exact List.suffix_cons c cs
      · exact List.dropWhile_suffix _

theorem rest_suffix (s : Str) : (gettoken s).rest <:+ s :=
  (skip_suffix _).trans ((scan_suffix _).trans (skip_suffix s))

/-- A word that `gettoken` returns lies in the line, between two separators. -/
theorem gettoken_isWord (hs : s <:+ line) (hret : (gettoken s).ret = 97) :
    IsWord line (gettoken s).word := by
  refine ⟨(skip_suffix s).trans hs, ?_⟩
  cases hq : skip s with
  | nil => simp only [gettoken, hq, scan, List.dropWhile_nil]
  | cons c cs =>
      simp only [gettoken, hq, scan] at hret ⊢
      split_ifs at hret ⊢ with h₁ h₂ h₃
      · -- no symbol is `'a'`
        dsimp only at hret
        subst hret
        exact absurd h₁ (by decide)
      · exact absurd (show (43 : UInt8) = 97 from hret) (by decide)
      · exact absurd (show (62 : UInt8) = 97 from hret) (by decide)
      · rfl

/-! ### Terminating the words -/

/-- In `buf` the words of `ws` are terminated, and the characters of all words are those of
`line`. -/
structure Marks (line : Str) (ws : List Word) (buf : List UInt8) : Prop where
  length : buf.length = line.length + 1
  keeps : ∀ (i : ℕ) (c : UInt8), (line)[i]? = some c → isWordChar c → buf[i]? = some c
  ends : ∀ w ∈ ws, buf[line.length - w.eq.length]? = some 0

theorem marks_nil (line : Str) : Marks line [] (line ++ [0]) where
  length := by simp
  keeps i c hi _ := by
    rw [List.getElem?_append_left (List.getElem?_eq_some_iff.mp hi).1]
    exact hi
  ends w hw := absurd hw (List.not_mem_nil)

theorem Marks.mono {ws ws' : List Word} {buf : List UInt8} (h : Marks line ws buf)
    (hsub : ws' ⊆ ws) : Marks line ws' buf :=
  ⟨h.length, h.keeps, fun w hw => h.ends w (hsub hw)⟩

/-- Storing a NUL behind a word leaves the words that are marked already. -/
theorem Marks.store {ws : List Word} {buf : List UInt8} {w : Word} (h : Marks line ws buf)
    (hw : IsWord line w) : Marks line (w :: ws) (store line.length w.eq buf) := by
  have hlt : line.length - w.eq.length < buf.length := by
    rw [h.length]
    omega
  refine ⟨by rw [Sh.store, List.length_set, h.length], fun i c hi hc => ?_, fun w' hw' => ?_⟩
  · rw [Sh.store, List.getElem?_set_ne]
    · exact h.keeps i c hi hc
    · -- the character behind a word is not a word character
      rintro rfl
      have hsuf : w.eq <:+ line := hw.ends ▸ (List.dropWhile_suffix _).trans hw.suffix
      have hhead := List.head?_dropWhile_not isWordChar w.q
      obtain ⟨pre, hpre⟩ := hsuf
      rw [← hpre, List.length_append, Nat.add_sub_cancel, List.getElem?_append_right le_rfl,
        Nat.sub_self, ← List.head?_eq_getElem?] at hi
      rw [← hw.ends, hi] at hhead
      exact absurd hc (by simpa using hhead)
  · rw [Sh.store, List.getElem?_set]
    split
    · rfl
    · next hne =>
        rcases List.mem_cons.mp hw' with rfl | hw'
        · exact absurd rfl hne
        · exact h.ends w' hw'

/-- All words of the tree are marked, by induction on the tree. -/
theorem marks_nulterminate {c : Cmd Word} : ∀ {ws : List Word} {buf : List UInt8},
    Marks line ws buf → (∀ w ∈ c.words, IsWord line w) →
      Marks line (c.words ++ ws) (nulterminate line.length c buf) := by
  induction c with
  | exec argv =>
      intro ws buf h hws
      simp only [nulterminate, Cmd.words] at hws ⊢
      induction argv generalizing ws buf with
      | nil => exact h
      | cons w argv ih =>
          rw [List.forall_mem_cons] at hws
          refine (ih (h.store hws.1) hws.2).mono fun w' hw' => ?_
          simp only [List.mem_append, List.mem_cons] at hw' ⊢
          tauto
  | redir cmd file mode fd ih =>
      intro ws buf h hws
      rw [Cmd.words, List.forall_mem_cons] at hws
      exact (ih h hws.2).store hws.1
  | pipe left right ihl ihr | list left right ihl ihr =>
      intro ws buf h hws
      rw [Cmd.words, List.forall_mem_append] at hws
      refine (ihr (ihl h hws.1) hws.2).mono fun w' hw' => ?_
      simp only [Cmd.words, List.mem_append] at hw' ⊢
      tauto
  | back cmd ih => exact fun h hws => ih h hws

/-- A terminated word is the string of its characters. -/
theorem Marks.stringAt_eq {ws : List Word} {buf : List UInt8} {w : Word} (h : Marks line ws buf)
    (hline : 0 ∉ line) (hw : w ∈ ws) (hword : IsWord line w) :
    stringAt line.length buf w.q = w.text := by
  obtain ⟨pre, hpre⟩ := hword.suffix
  have happ := List.takeWhile_append_dropWhile (p := isWordChar) (l := w.q)
  rw [← hword.ends] at happ
  have hlen := congrArg List.length hpre
  have hlen' := congrArg List.length happ
  rw [List.length_append] at hlen hlen'
  set t := w.q.takeWhile isWordChar with ht
  have hstart : line.length - w.q.length = pre.length := by omega
  have htake : (buf.drop pre.length).take t.length = t := by
    refine List.ext_getElem? fun i => ?_
    by_cases hi : i < t.length
    · have hchar : isWordChar t[i] = true := List.mem_takeWhile_imp (List.getElem_mem hi)
      have hget : (line)[pre.length + i]? = some t[i] := by
        rw [← hpre, ← happ, List.getElem?_append_right (Nat.le_add_right ..),
          Nat.add_sub_cancel_left, List.getElem?_append_left hi, List.getElem?_eq_getElem hi]
      rw [List.getElem?_take_of_lt hi, List.getElem?_drop, h.keeps _ _ hget hchar,
        List.getElem?_eq_getElem hi]
    · rw [List.getElem?_take_eq_none (Nat.le_of_not_lt hi),
        List.getElem?_eq_none (Nat.le_of_not_lt hi)]
  have hend : (buf.drop pre.length)[t.length]? = some 0 := by
    rw [List.getElem?_drop, ← h.ends w hw]
    congr 1
    omega
  have hzero : ∀ c ∈ t, decide (c ≠ 0) = true := by
    intro c hc
    refine decide_eq_true fun hc0 => hline ?_
    rw [← hpre, ← happ]
    exact List.mem_append_right _ (List.mem_append_left _ (hc0 ▸ hc))
  rw [stringAt, hstart, hword.text_eq, ← ht, ← List.take_append_drop t.length (buf.drop pre.length),
    htake, List.takeWhile_append_of_pos hzero]
  rw [← List.head?_drop] at hend
  obtain ⟨rest, hrest⟩ := List.head?_eq_some_iff.mp hend
  rw [hrest, List.takeWhile_cons_of_neg (by simp), List.append_nil]

/-- **Words are strings**: after `nulterminate` every word of a tree is a string that ends where the
word does. -/
theorem stringAt_nulterminate {c : Cmd Word} {w : Word} (hline : 0 ∉ line)
    (hws : ∀ w ∈ c.words, IsWord line w) (hw : w ∈ c.words) :
    stringAt line.length (nulterminate line.length c (line ++ [0])) w.q = w.text :=
  (marks_nulterminate (marks_nil line) hws).stringAt_eq hline (List.mem_append_left _ hw)
    (hws w hw)

end Xv6.Sh

import Xv6.Shell.Lexer

/-!
# Shell — the parser and the grammar

* `parseline_sound` — with enough fuel the parser ends with a panic or with a tree of the tokens that
  it read.
* `parseline_complete` — every tree of the grammar is found.
* `parsecmd_iff` — `parsecmd` ends on every line, and the tree that it returns, with its words
  terminated, is the tree of the grammar.

The fuel bounds the depth of the recursion, four calls for a token at most.
-/

namespace Xv6.Sh

open Fs (Str)

variable {α β : Type} {line s : Str} {ts rest : List Token}

/-! ### Trees -/

namespace Cmd

theorem map_addArg (f : α → β) (w : α) (c : Cmd α) : (c.addArg w).map f = (c.map f).addArg (f w) := by
  induction c with
  | exec argv => simp [addArg, map]
  | redir cmd file mode fd ih => rw [addArg, map, ih, map, addArg]
  | pipe | list | back => rfl

/-- The words of a command with one more. -/
theorem mem_words_addArg {w v : α} {c : Cmd α} (h : v ∈ (c.addArg w).words) : v = w ∨ v ∈ c.words := by
  induction c with
  | exec argv =>
      rcases List.mem_append.mp h with h | h
      · exact .inr h
      · exact .inl (List.mem_singleton.mp h)
  | redir cmd file mode fd ih =>
      rcases List.mem_cons.mp h with rfl | h
      · exact .inr (List.mem_cons_self ..)
      · exact (ih h).imp_right (List.mem_cons_of_mem _)
  | pipe | list | back => exact .inr h

end Cmd

theorem wrap_append (fs fs' : List Redirection) (c : Cmd Str) :
    wrap (fs ++ fs') c = wrap fs' (wrap fs c) := List.foldl_append

theorem addArg_wrap (w : Str) (fs : List Redirection) (c : Cmd Str) :
    (wrap fs c).addArg w = wrap fs (c.addArg w) := by
  induction fs generalizing c with
  | nil => rfl
  | cons f fs ih => exact ih _

/-- The trees that `parseexec` builds for the words `vs`, with `fs` around them. -/
theorem map_addArg_wrap {c : Cmd Word} {fs : List Redirection} {vs : List Str} (w : Word)
    (h : c.map Word.text = wrap fs (.exec vs)) :
    (c.addArg w).map Word.text = wrap fs (.exec (vs ++ [w.text])) := by
  rw [Cmd.map_addArg, h, addArg_wrap]
  rfl

/-- `redirect` on the tokens of a redirection. -/
theorem map_redirect {tk : Token} (cmd : Cmd Word) (w : Word) (h : tk ∈ [Token.lt, .gt, .gtgt]) :
    ∃ f, Redir [tk, .word w.text] f ∧
      (redirect tk.code cmd w).map Word.text = wrap [f] (cmd.map Word.text) ∧
      (redirect tk.code cmd w).words = w :: cmd.words := by
  simp only [List.mem_cons, List.not_mem_nil, or_false] at h
  rcases h with rfl | rfl | rfl
  · exact ⟨_, .lt _, rfl, rfl⟩
  · exact ⟨_, .gt _, rfl, rfl⟩
  · exact ⟨_, .gtgt _, rfl, rfl⟩

/-! ### Results -/

/-- The parser does not run out of fuel, and what it returns satisfies `P`. -/
def Yields (r : Parse α) (P : α → Prop) : Prop :=
  match r with
  | .ok a => P a
  | .error e => e ≠ .fuel

theorem Yields.bind {r : Parse α} {k : α → Parse β} {P : α → Prop} {Q : β → Prop}
    (h : Yields r P) (hk : ∀ a, P a → Yields (k a) Q) : Yields (r >>= k) Q := by
  cases r with
  | ok a => exact hk a h
  | error e => exact h

theorem Yields.mono {r : Parse α} {P Q : α → Prop} (h : Yields r P) (hPQ : ∀ a, P a → Q a) :
    Yields r Q := by
  cases r with
  | ok a => exact hPQ a h
  | error e => exact h

theorem yields_panic {P : α → Prop} (p : Panic) : Yields (.error (.panic p)) P := Stop.noConfusion

/-- From `s` the parser reads tokens with which its tree satisfies `P`; the words of the tree are
words of the line. -/
structure Reads (line s : Str) (P : List Token → Cmd Str → Prop) (r : Cmd Word × Str) : Prop where
  tokens : ∃ ts, Sh.tokens s = ts ++ Sh.tokens r.2 ∧ P ts (r.1.map Word.text)
  suffix : r.2 <:+ line
  words : ∀ w ∈ r.1.words, IsWord line w

/-! ### Loops -/

/-- What `parseredirs` reads are redirections, each around what was there before. -/
theorem parseredirs_sound {n : ℕ} {cmd : Cmd Word} (hn : (tokens s).length < n) (hs : s <:+ line)
    (hws : ∀ w ∈ cmd.words, IsWord line w) :
    Yields (parseredirs n cmd s)
      (Reads line s fun ts c => ∃ fs, Redirs ts fs ∧ c = wrap fs (cmd.map Word.text)) := by
  induction n generalizing cmd s with
  | zero => exact absurd hn (Nat.not_lt_zero _)
  | succ n ih =>
      rw [parseredirs, peek_redir]
      cases hst : starts [.lt, .gt, .gtgt] (tokens s) with
      | false =>
          exact ⟨⟨[], by simp, [], .nil, rfl⟩, (skip_suffix s).trans hs, hws⟩
      | true =>
          obtain ⟨tk, htk, ts, hts⟩ := exists_of_starts hst
          obtain ⟨hret, hrest, -⟩ := gettoken_of_tokens hts
          simp only [if_true, gettoken_skip, hret]
          have hs' : (gettoken s).rest <:+ line := (rest_suffix s).trans hs
          by_cases hfile : (gettoken (gettoken s).rest).ret = 97
          · have htoks := tokens_of_word hfile
            rw [hrest] at htoks
            obtain ⟨f, hf, hmap, hwords⟩ :=
              map_redirect cmd (gettoken (gettoken s).rest).word htk
            rw [if_neg (not_not.mpr hfile)]
            rw [hts, htoks, List.length_cons, List.length_cons] at hn
            refine (ih (by omega) ((rest_suffix _).trans hs') ?_).mono ?_
            · rw [hwords, List.forall_mem_cons]
              exact ⟨gettoken_isWord hs' hfile, hws⟩
            · rintro ⟨c, s'⟩ ⟨⟨us, hus, fs, hfs, hc⟩, hsuf, hws'⟩
              refine ⟨⟨tk :: .word _ :: us, ?_, f :: fs, .cons hf hfs, ?_⟩, hsuf, hws'⟩
              · rw [hts, htoks, hus]
                rfl
              · rw [hc, hmap]
                rfl
          · rw [if_pos hfile]
            exact yields_panic _

/-- What the loop of `parseexec` reads are words with redirections among them. -/
theorem parseargs_sound {n argc : ℕ} {ret : Cmd Word} {gs : List Redirection} {vs : List Str}
    (hn : (tokens s).length < n) (hs : s <:+ line) (hws : ∀ w ∈ ret.words, IsWord line w)
    (hret : ret.map Word.text = wrap gs (.exec vs)) (hargc : vs.length = argc)
    (hlt : argc < MAXARGS) :
    Yields (parseargs n argc ret s)
      (Reads line s fun ts c => ∃ ws fs, Args ts ws fs ∧ c = wrap (gs ++ fs) (.exec (vs ++ ws)) ∧
        (vs ++ ws).length < MAXARGS) := by
  induction n generalizing argc ret gs vs s with
  | zero => exact absurd hn (Nat.not_lt_zero _)
  | succ n ih =>
      have hdone : ∀ s', tokens s' = tokens s → s' <:+ line →
          Reads line s (fun ts c => ∃ ws fs, Args ts ws fs ∧
            c = wrap (gs ++ fs) (.exec (vs ++ ws)) ∧ (vs ++ ws).length < MAXARGS) (ret, s') :=
        fun s' hs' hsuf => ⟨⟨[], hs'.symm, [], [], .nil, by simpa using hret, by
          rwa [List.append_nil, hargc]⟩, hsuf, hws⟩
      rw [parseargs, peek_stop]
      -- The loop ends at one of these symbols.
      cases hst : starts [.bar, .rparen, .amp, .semi] (tokens s) with
      | true => exact hdone _ (tokens_skip s) ((skip_suffix s).trans hs)
      | false =>
          simp only [Bool.false_eq_true, if_false, gettoken_skip]
          have hs' : (gettoken s).rest <:+ line := (rest_suffix s).trans hs
          by_cases hend : (gettoken s).ret = 0
          · rw [if_pos hend]
            have hnil := tokens_of_end hend
            exact hdone _ ((gettoken_of_nil hnil).2.trans hnil.symm) hs'
          rw [if_neg hend]
          by_cases hword : (gettoken s).ret = 97
          · rw [if_neg (not_not.mpr hword)]
            have htoks := tokens_of_word hword
            rw [htoks, List.length_cons] at hn
            by_cases hmany : MAXARGS ≤ argc + 1
            · rw [if_pos hmany]
              exact yields_panic _
            rw [if_neg hmany]
            have hwords : ∀ w ∈ (ret.addArg (gettoken s).word).words, IsWord line w := by
              intro w hw
              rcases Cmd.mem_words_addArg hw with rfl | hw
              · exact gettoken_isWord hs hword
              · exact hws w hw
            refine (parseredirs_sound (Nat.lt_succ_of_le (length_tokens_le _)) hs' hwords).bind ?_
            rintro ⟨c, s₁⟩ ⟨⟨us, hus, fs, hfs, hc⟩, hsuf, hws₁⟩
            rw [map_addArg_wrap _ hret, ← wrap_append] at hc
            have hlen : (tokens s₁).length ≤ (tokens (gettoken s).rest).length := by
              rw [hus, List.length_append]
              exact Nat.le_add_left ..
            refine (ih (hlen.trans_lt (by omega)) hsuf hws₁ hc (by simp [hargc]) (by omega)).mono ?_
            rintro ⟨c', s₂⟩ ⟨⟨us', hus', ws, fs', ha, hc', hmax⟩, hsuf', hws₂⟩
            refine ⟨⟨.word (gettoken s).word.text :: us ++ us', ?_, _, fs ++ fs', .cons hfs ha, ?_,
              ?_⟩, hsuf', hws₂⟩
            · rw [htoks, hus, hus']
              simp
            · rw [hc']
              simp
            · simpa using hmax
          · rw [if_pos hword]
            exact yields_panic _

/-- What the loop of `parseline` reads are `&`s. -/
theorem parsebacks_sound {n : ℕ} {cmd : Cmd Word} (hn : (tokens s).length < n) (hs : s <:+ line)
    (hws : ∀ w ∈ cmd.words, IsWord line w) :
    Yields (parsebacks n cmd s)
      (Reads line s fun ts c => ∃ k, ts = List.replicate k .amp ∧ c = (cmd.map Word.text).backs k) := by
  induction n generalizing cmd s with
  | zero => exact absurd hn (Nat.not_lt_zero _)
  | succ n ih =>
      rw [parsebacks, peek_amp]
      cases hst : starts [.amp] (tokens s) with
      | false => exact ⟨⟨[], by simp, 0, rfl, rfl⟩, (skip_suffix s).trans hs, hws⟩
      | true =>
          obtain ⟨tk, htk, ts, hts⟩ := exists_of_starts hst
          obtain rfl := List.mem_singleton.mp htk
          obtain ⟨-, hrest, -⟩ := gettoken_of_tokens hts
          simp only [if_true, gettoken_skip]
          rw [hts, List.length_cons] at hn
          refine (ih (by rw [hrest]; omega) ((rest_suffix s).trans hs) (by exact hws)).mono ?_
          rintro ⟨c, s'⟩ ⟨⟨us, hus, k, rfl, hc⟩, hsuf, hws'⟩
          refine ⟨⟨_, ?_, k + 1, rfl, hc⟩, hsuf, hws'⟩
          rw [hts, ← hrest, hus]
          rfl

/-! ### Soundness -/

mutual

/-- `parseline` reads a line, with fuel for the tokens that are left. -/
theorem parseline_sound {line s : Str} : ∀ {n : ℕ}, 4 * (tokens s).length + 4 ≤ n → s <:+ line →
    Yields (parseline n s) (Reads line s Line)
  | 0, hn, _ => absurd hn (by omega)
  | n + 1, hn, hs => by
      rw [parseline]
      refine (parsepipe_sound (by omega) hs).bind ?_
      rintro ⟨c, s₁⟩ ⟨⟨ts, hts, hc⟩, hs₁, hws⟩
      refine (parsebacks_sound (Nat.lt_succ_of_le (length_tokens_le _)) hs₁ hws).bind ?_
      rintro ⟨c', s₂⟩ ⟨⟨us, hus, k, rfl, hc'⟩, hs₂, hws₂⟩
      dsimp only
      rw [peek_semi]
      cases hst : starts [.semi] (tokens s₂) with
      | false =>
          refine ⟨⟨ts ++ List.replicate k .amp, ?_, ?_⟩, (skip_suffix _).trans hs₂, hws₂⟩
          · rw [hts, hus, tokens_skip, List.append_assoc]
          · rw [hc']
            exact .pipe hc k
      | true =>
          obtain ⟨tk, htk, vs, hvs⟩ := exists_of_starts hst
          obtain rfl := List.mem_singleton.mp htk
          obtain ⟨-, hrest, -⟩ := gettoken_of_tokens hvs
          simp only [if_true, gettoken_skip] at hs₂ ⊢
          have hlen : (tokens (gettoken s₂).rest).length < (tokens s).length := by
            rw [hts, hus, hvs, hrest]
            simp only [List.length_append, List.length_cons]
            omega
          refine (parseline_sound (by omega) ((rest_suffix _).trans hs₂)).bind ?_
          rintro ⟨d, s₃⟩ ⟨⟨ws, hws', hd⟩, hs₃, hws₃⟩
          refine ⟨⟨ts ++ List.replicate k .amp ++ .semi :: ws, ?_, ?_⟩, hs₃, ?_⟩
          · rw [hts, hus, hvs, ← hrest, hws']
            simp
          · rw [Cmd.map, hc']
            exact .list hc k hd
          · exact List.forall_mem_append.mpr ⟨hws₂, hws₃⟩

/-- `parsepipe` reads a pipe. -/
theorem parsepipe_sound {line s : Str} : ∀ {n : ℕ}, 4 * (tokens s).length + 3 ≤ n → s <:+ line →
    Yields (parsepipe n s) (Reads line s Pipe)
  | 0, hn, _ => absurd hn (by omega)
  | n + 1, hn, hs => by
      rw [parsepipe]
      refine (parseexec_sound (by omega) hs).bind ?_
      rintro ⟨c, s₁⟩ ⟨⟨ts, hts, hc⟩, hs₁, hws⟩
      dsimp only
      rw [peek_bar]
      cases hst : starts [.bar] (tokens s₁) with
      | false =>
          refine ⟨⟨ts, ?_, .exec hc⟩, (skip_suffix _).trans hs₁, hws⟩
          rw [hts, tokens_skip]
      | true =>
          obtain ⟨tk, htk, vs, hvs⟩ := exists_of_starts hst
          obtain rfl := List.mem_singleton.mp htk
          obtain ⟨-, hrest, -⟩ := gettoken_of_tokens hvs
          simp only [if_true, gettoken_skip] at hs₁ ⊢
          have hlen : (tokens (gettoken s₁).rest).length < (tokens s).length := by
            rw [hts, hvs, hrest]
            simp only [List.length_append, List.length_cons]
            omega
          refine (parsepipe_sound (by omega) ((rest_suffix _).trans hs₁)).bind ?_
          rintro ⟨d, s₂⟩ ⟨⟨ws, hws', hd⟩, hs₂, hws₂⟩
          refine ⟨⟨ts ++ .bar :: ws, ?_, .pipe hc hd⟩, hs₂, List.forall_mem_append.mpr ⟨hws, hws₂⟩⟩
          rw [hts, hvs, ← hrest, hws']
          simp

/-- `parseexec` reads a command. -/
theorem parseexec_sound {line s : Str} : ∀ {n : ℕ}, 4 * (tokens s).length + 2 ≤ n → s <:+ line →
    Yields (parseexec n s) (Reads line s Exec)
  | 0, hn, _ => absurd hn (by omega)
  | n + 1, hn, hs => by
      have hskip : skip s <:+ line := (skip_suffix s).trans hs
      rw [parseexec, peek_lparen]
      cases hst : starts [.lparen] (tokens s) with
      | true =>
          refine (parseblock_sound (by rw [tokens_skip]; omega) hskip).mono ?_
          rintro ⟨c, s'⟩ ⟨⟨ts, hts, hc⟩, hs', hws⟩
          exact ⟨⟨ts, (tokens_skip s).symm.trans hts, hc⟩, hs', hws⟩
      | false =>
          simp only [Bool.false_eq_true, if_false]
          refine (parseredirs_sound (Nat.lt_succ_of_le (length_tokens_le _)) hskip
            fun w hw => absurd hw List.not_mem_nil).bind ?_
          rintro ⟨c, s₁⟩ ⟨⟨rs, hrs, fs, hfs, hc⟩, hs₁, hws⟩
          refine (parseargs_sound (Nat.lt_succ_of_le (length_tokens_le _)) hs₁ hws hc rfl
            (by decide)).mono ?_
          rintro ⟨c', s₂⟩ ⟨⟨ts, hts, ws, fs', ha, hc', hmax⟩, hs₂, hws₂⟩
          refine ⟨⟨rs ++ ts, ?_, ?_⟩, hs₂, hws₂⟩
          · rw [← tokens_skip s, hrs, hts, List.append_assoc]
          · rw [hc']
            exact .words hfs ha hmax

/-- `parseblock` reads a block. -/
theorem parseblock_sound {line s : Str} : ∀ {n : ℕ}, 4 * (tokens s).length + 1 ≤ n → s <:+ line →
    Yields (parseblock n s) (Reads line s Exec)
  | 0, hn, _ => absurd hn (by omega)
  | n + 1, hn, hs => by
      rw [parseblock, peek_lparen]
      cases hst : starts [.lparen] (tokens s) with
      | false => exact yields_panic _
      | true =>
          obtain ⟨tk, htk, vs, hvs⟩ := exists_of_starts hst
          obtain rfl := List.mem_singleton.mp htk
          obtain ⟨-, hrest, -⟩ := gettoken_of_tokens hvs
          simp only [not_true_eq_false, if_false, gettoken_skip]
          rw [hvs, ← hrest, List.length_cons] at hn
          refine (parseline_sound (by omega) ((rest_suffix _).trans hs)).bind ?_
          rintro ⟨c, s₁⟩ ⟨⟨ts, hts, hc⟩, hs₁, hws⟩
          dsimp only
          rw [peek_rparen]
          cases hst : starts [.rparen] (tokens s₁) with
          | false => exact yields_panic _
          | true =>
              obtain ⟨tk, htk, us, hus⟩ := exists_of_starts hst
              obtain rfl := List.mem_singleton.mp htk
              obtain ⟨-, hrest', -⟩ := gettoken_of_tokens hus
              simp only [not_true_eq_false, if_false, gettoken_skip]
              refine (parseredirs_sound (Nat.lt_succ_of_le (length_tokens_le _))
                ((rest_suffix _).trans hs₁) hws).mono ?_
              rintro ⟨c', s₂⟩ ⟨⟨rs, hrs, fs, hfs, hc'⟩, hs₂, hws₂⟩
              refine ⟨⟨.lparen :: ts ++ .rparen :: rs, ?_, ?_⟩, hs₂, hws₂⟩
              · rw [hvs, ← hrest, hts, hus, ← hrest', hrs]
                simp
              · rw [hc']
                exact .block hc hfs

end

/-! ### Completeness -/

/-- The parser returns the tree `c`, in front of the tokens `rest`. -/
def Accepts (r : Parse (Cmd Word × Str)) (c : Cmd Str) (rest : List Token) : Prop :=
  ∃ c' s', r = .ok (c', s') ∧ c'.map Word.text = c ∧ tokens s' = rest

theorem Accepts.bind {r : Parse (Cmd Word × Str)} {k : Cmd Word × Str → Parse (Cmd Word × Str)}
    {c d : Cmd Str} {rest' : List Token} (h : Accepts r c rest)
    (hk : ∀ c' s', c'.map Word.text = c → tokens s' = rest → Accepts (k (c', s')) d rest') :
    Accepts (r >>= k) d rest' := by
  obtain ⟨c', s', rfl, hc, hs⟩ := h
  exact hk c' s' hc hs

/-- A first token is one of `tks`. -/
def Follows (tks ts : List Token) : Prop := ∀ tk ∈ ts.head?, tk ∈ tks

theorem Follows.mono {tks tks' : List Token} (h : Follows tks ts) (hsub : tks ⊆ tks') :
    Follows tks' ts := fun tk htk => hsub (h tk htk)

theorem Follows.starts_eq {tks tks' : List Token} (h : Follows tks ts)
    (hdisj : ∀ tk ∈ tks, tk ∉ tks') : starts tks' ts = false := by
  cases ts with
  | nil => rfl
  | cons tk ts => exact decide_eq_false (hdisj tk (h tk rfl))

theorem follows_cons {tk : Token} {tks : List Token} (h : tk ∈ tks) : Follows tks (tk :: ts) :=
  fun _ htk => Option.some.inj htk ▸ h

theorem follows_replicate {tks : List Token} (k : ℕ) (hamp : .amp ∈ tks) (h : Follows tks rest) :
    Follows tks (List.replicate k .amp ++ rest) := by
  cases k with
  | zero => exact h
  | succ k => exact follows_cons hamp

theorem starts_args {ws : List Str} {fs : List Redirection} {tks : List Token} (h : Args ts ws fs)
    (hword : ∀ w, .word w ∉ tks) (hrest : starts tks rest = false) :
    starts tks (ts ++ rest) = false := by
  cases h with
  | nil => exact hrest
  | cons hr h => exact decide_eq_false (hword _)

theorem starts_redirs {rs : List Token} {fs : List Redirection} {tks : List Token}
    (h : Redirs rs fs) (hredir : ∀ tk ∈ [Token.lt, .gt, .gtgt], tk ∉ tks)
    (hrest : starts tks rest = false) : starts tks (rs ++ rest) = false := by
  cases h with
  | nil => exact hrest
  | cons hf hs => cases hf <;> exact decide_eq_false (hredir _ (by decide))

/-- All redirections are read, by induction on how they are derived. -/
theorem parseredirs_complete {rs : List Token} {fs : List Redirection} (h : Redirs rs fs) :
    ∀ {n : ℕ} {s : Str} {cmd : Cmd Word}, tokens s = rs ++ rest →
      starts [.lt, .gt, .gtgt] rest = false → (tokens s).length < n →
        Accepts (parseredirs n cmd s) (wrap fs (cmd.map Word.text)) rest := by
  induction h with
  | nil =>
      intro n s cmd hs hrest hn
      obtain ⟨n, rfl⟩ := Nat.exists_eq_add_one_of_ne_zero (Nat.ne_zero_of_lt hn)
      rw [parseredirs, peek_redir, hs, List.nil_append, hrest]
      exact ⟨cmd, skip s, rfl, rfl, (tokens_skip s).trans hs⟩
  | @cons r rs f fs hf hfs ih =>
      intro n s cmd hs hrest hn
      obtain ⟨n, rfl⟩ := Nat.exists_eq_add_one_of_ne_zero (Nat.ne_zero_of_lt hn)
      obtain ⟨tk, w, htk, rfl⟩ : ∃ tk w, tk ∈ [Token.lt, .gt, .gtgt] ∧ r = [tk, .word w] := by
        cases hf with
        | lt w | gt w | gtgt w => exact ⟨_, w, by decide, rfl⟩
      obtain ⟨hret, hs', -⟩ := gettoken_of_tokens hs
      obtain ⟨hret', hs'', -, htext⟩ := gettoken_of_tokens hs'
      obtain ⟨f', hf', hmap, -⟩ := map_redirect cmd (gettoken (gettoken s).rest).word htk
      rw [htext w rfl] at hf'
      obtain rfl : f' = f := by cases hf <;> cases hf' <;> rfl
      rw [parseredirs, peek_redir, hs, List.append_assoc, List.cons_append, starts_cons,
        decide_eq_true htk]
      simp only [if_true, gettoken_skip, hret, hret']
      have hlen : (tokens (gettoken (gettoken s).rest).rest).length < n := by
        rw [hs, List.append_assoc, List.cons_append, List.cons_append, List.length_cons,
          List.length_cons] at hn
        rw [hs'']
        exact Nat.lt_of_succ_lt_succ (Nat.lt_of_succ_lt hn)
      obtain ⟨c, s₁, hrun, hc, hs₁⟩ := @ih n _ (redirect tk.code cmd _) hs'' hrest hlen
      exact ⟨c, s₁, hrun, hc.trans (by rw [hmap]; rfl), hs₁⟩

/-- All words are read, unless there are too many. -/
theorem parseargs_complete {ws : List Str} {fs : List Redirection} (h : Args ts ws fs) :
    ∀ {n argc : ℕ} {s : Str} {ret : Cmd Word} {gs : List Redirection} {vs : List Str},
      tokens s = ts ++ rest → Follows [.bar, .rparen, .amp, .semi] rest → (tokens s).length < n →
        ret.map Word.text = wrap gs (.exec vs) → vs.length = argc → argc + ws.length < MAXARGS →
          Accepts (parseargs n argc ret s) (wrap (gs ++ fs) (.exec (vs ++ ws))) rest := by
  induction h with
  | nil =>
      intro n argc s ret gs vs hs hrest hn hret _ _
      obtain ⟨n, rfl⟩ := Nat.exists_eq_add_one_of_ne_zero (Nat.ne_zero_of_lt hn)
      rw [List.nil_append] at hs
      rw [List.append_nil, List.append_nil, parseargs, peek_stop]
      cases rest with
      | nil =>
          obtain ⟨hend, hs'⟩ := gettoken_of_nil hs
          simp only [hs, starts_nil, Bool.false_eq_true, if_false, gettoken_skip, hend, if_true]
          exact ⟨ret, _, rfl, hret, hs'⟩
      | cons tk rest =>
          rw [hs, starts_cons, decide_eq_true (hrest tk rfl)]
          exact ⟨ret, skip s, rfl, hret, (tokens_skip s).trans hs⟩
  | @cons w rs ts ws fs fs' hr ha ih =>
      intro n argc s ret gs vs hs hrest hn hret hargc hmax
      obtain ⟨n, rfl⟩ := Nat.exists_eq_add_one_of_ne_zero (Nat.ne_zero_of_lt hn)
      rw [List.cons_append, List.cons_append] at hs
      obtain ⟨hcode, hs', -, htext⟩ := gettoken_of_tokens hs
      rw [List.length_cons] at hmax
      rw [hs, List.length_cons, ← hs'] at hn
      rw [parseargs, peek_stop, hs, starts_cons, decide_eq_false (by simp)]
      simp only [Bool.false_eq_true, if_false, gettoken_skip, hcode, Token.code]
      rw [if_neg (show (97 : UInt8) ≠ 0 by decide), if_neg (not_not.mpr rfl), if_neg (by omega)]
      rw [List.append_assoc] at hs'
      refine (parseredirs_complete hr hs'
        (starts_args ha (by simp) (hrest.starts_eq (by decide)))
        (Nat.lt_succ_of_le (length_tokens_le _))).bind fun c s₁ hc hs₁ => ?_
      rw [map_addArg_wrap _ hret, ← wrap_append, htext w rfl] at hc
      have hlen : (tokens s₁).length ≤ (tokens (gettoken s).rest).length := by
        rw [hs', hs₁]
        simp only [List.length_append]
        omega
      have := ih hs₁ hrest (hlen.trans_lt (Nat.lt_of_succ_lt_succ hn)) hc
        (by rw [List.length_append, hargc, List.length_singleton]) (by omega)
      simpa using this

/-- All `&`s are read. -/
theorem parsebacks_complete (k : ℕ) : ∀ {n : ℕ} {s : Str} {cmd : Cmd Word},
    tokens s = List.replicate k .amp ++ rest → starts [.amp] rest = false → (tokens s).length < n →
      Accepts (parsebacks n cmd s) ((cmd.map Word.text).backs k) rest := by
  induction k with
  | zero =>
      intro n s cmd hs hrest hn
      obtain ⟨n, rfl⟩ := Nat.exists_eq_add_one_of_ne_zero (Nat.ne_zero_of_lt hn)
      rw [parsebacks, peek_amp, hs, List.replicate_zero, List.nil_append, hrest]
      exact ⟨cmd, skip s, rfl, rfl, (tokens_skip s).trans hs⟩
  | succ k ih =>
      intro n s cmd hs hrest hn
      obtain ⟨n, rfl⟩ := Nat.exists_eq_add_one_of_ne_zero (Nat.ne_zero_of_lt hn)
      rw [List.replicate_succ, List.cons_append] at hs
      obtain ⟨-, hs', -⟩ := gettoken_of_tokens hs
      rw [hs, List.length_cons, ← hs'] at hn
      rw [parsebacks, peek_amp, hs]
      simp only [starts_cons, List.mem_singleton, decide_true, if_true, gettoken_skip]
      exact ih hs' hrest (Nat.lt_of_succ_lt_succ hn)

mutual

/-- Every line is read, by induction on its derivation. -/
theorem parseline_complete {ts rest : List Token} {c : Cmd Str} : Line ts c →
    ∀ {n : ℕ} {s : Str}, tokens s = ts ++ rest → Follows [.rparen] rest →
      4 * (tokens s).length + 4 ≤ n → Accepts (parseline n s) c rest
  | .pipe h k, n, s, hs, hrest, hn => by
      obtain ⟨n, rfl⟩ := Nat.exists_eq_add_one_of_ne_zero (Nat.ne_zero_of_lt hn)
      rw [List.append_assoc] at hs
      rw [parseline]
      refine (parsepipe_complete h hs (follows_replicate k (by decide) (hrest.mono (by decide)))
        (by omega)).bind fun c₁ s₁ hc₁ hs₁ => ?_
      refine (parsebacks_complete k hs₁ (hrest.starts_eq (by decide))
        (Nat.lt_succ_of_le (length_tokens_le _))).bind fun c₂ s₂ hc₂ hs₂ => ?_
      dsimp only
      rw [peek_semi, hs₂, hrest.starts_eq (by decide)]
      exact ⟨c₂, _, rfl, hc₁ ▸ hc₂, (tokens_skip _).trans hs₂⟩
  | .list h k h', n, s, hs, hrest, hn => by
      obtain ⟨n, rfl⟩ := Nat.exists_eq_add_one_of_ne_zero (Nat.ne_zero_of_lt hn)
      rw [List.append_assoc, List.append_assoc, List.cons_append] at hs
      rw [parseline]
      refine (parsepipe_complete h hs (follows_replicate k (by decide) (follows_cons (by decide)))
        (by omega)).bind fun c₁ s₁ hc₁ hs₁ => ?_
      refine (parsebacks_complete k hs₁ rfl
        (Nat.lt_succ_of_le (length_tokens_le _))).bind fun c₂ s₂ hc₂ hs₂ => ?_
      obtain ⟨-, hs₃, -⟩ := gettoken_of_tokens hs₂
      dsimp only
      rw [peek_semi, hs₂]
      simp only [starts_cons, List.mem_singleton, decide_true, if_true, gettoken_skip]
      have hlen : (tokens (gettoken s₂).rest).length < (tokens s).length := by
        rw [hs, hs₃]
        simp only [List.length_append, List.length_cons]
        omega
      refine (parseline_complete h' hs₃ hrest (by omega)).bind fun d s₄ hd hs₄ => ?_
      exact ⟨.list c₂ d, s₄, rfl, by rw [Cmd.map, hc₂, hc₁, hd], hs₄⟩

/-- Every pipe is read. -/
theorem parsepipe_complete {ts rest : List Token} {c : Cmd Str} : Pipe ts c →
    ∀ {n : ℕ} {s : Str}, tokens s = ts ++ rest → Follows [.rparen, .amp, .semi] rest →
      4 * (tokens s).length + 3 ≤ n → Accepts (parsepipe n s) c rest
  | .exec h, n, s, hs, hrest, hn => by
      obtain ⟨n, rfl⟩ := Nat.exists_eq_add_one_of_ne_zero (Nat.ne_zero_of_lt hn)
      rw [parsepipe]
      refine (parseexec_complete h hs (hrest.mono (by decide)) (by omega)).bind
        fun c₁ s₁ hc₁ hs₁ => ?_
      dsimp only
      rw [peek_bar, hs₁, hrest.starts_eq (by decide)]
      exact ⟨c₁, _, rfl, hc₁, (tokens_skip _).trans hs₁⟩
  | .pipe h h', n, s, hs, hrest, hn => by
      obtain ⟨n, rfl⟩ := Nat.exists_eq_add_one_of_ne_zero (Nat.ne_zero_of_lt hn)
      rw [List.append_assoc, List.cons_append] at hs
      rw [parsepipe]
      refine (parseexec_complete h hs (follows_cons (by decide)) (by omega)).bind
        fun c₁ s₁ hc₁ hs₁ => ?_
      obtain ⟨-, hs₂, -⟩ := gettoken_of_tokens hs₁
      dsimp only
      rw [peek_bar, hs₁]
      simp only [starts_cons, List.mem_singleton, decide_true, if_true, gettoken_skip]
      have hlen : (tokens (gettoken s₁).rest).length < (tokens s).length := by
        rw [hs, hs₂]
        simp only [List.length_append, List.length_cons]
        omega
      refine (parsepipe_complete h' hs₂ hrest (by omega)).bind fun d s₃ hd hs₃ => ?_
      exact ⟨.pipe c₁ d, s₃, rfl, by rw [Cmd.map, hc₁, hd], hs₃⟩

/-- Every command is read. -/
theorem parseexec_complete {ts rest : List Token} {c : Cmd Str} : Exec ts c →
    ∀ {n : ℕ} {s : Str}, tokens s = ts ++ rest → Follows [.bar, .rparen, .amp, .semi] rest →
      4 * (tokens s).length + 2 ≤ n → Accepts (parseexec n s) c rest
  | .block h hr, n, s, hs, hrest, hn => by
      obtain ⟨n, rfl⟩ := Nat.exists_eq_add_one_of_ne_zero (Nat.ne_zero_of_lt hn)
      obtain ⟨n, rfl⟩ := Nat.exists_eq_add_one_of_ne_zero (show n ≠ 0 by omega)
      rw [List.append_assoc, List.cons_append, List.cons_append] at hs
      obtain ⟨-, hs₁, -⟩ := gettoken_of_tokens hs
      rw [parseexec, peek_lparen, hs]
      simp only [starts_cons, List.mem_singleton, decide_true, if_true]
      rw [parseblock, peek_lparen, tokens_skip, hs]
      simp only [starts_cons, List.mem_singleton, decide_true, not_true_eq_false, if_false,
        gettoken_skip]
      have hlen : (tokens (gettoken s).rest).length < (tokens s).length := by
        rw [hs, hs₁]
        simp only [List.length_append, List.length_cons]
        omega
      refine (parseline_complete h hs₁ (follows_cons (by decide)) (by omega)).bind
        fun c₁ s₂ hc₁ hs₂ => ?_
      obtain ⟨-, hs₃, -⟩ := gettoken_of_tokens hs₂
      dsimp only
      rw [peek_rparen, hs₂]
      simp only [starts_cons, List.mem_singleton, decide_true, not_true_eq_false, if_false,
        gettoken_skip]
      exact hc₁ ▸ parseredirs_complete hr hs₃ (hrest.starts_eq (by decide))
        (Nat.lt_succ_of_le (length_tokens_le _))
  | .words hr ha hmax, n, s, hs, hrest, hn => by
      obtain ⟨n, rfl⟩ := Nat.exists_eq_add_one_of_ne_zero (Nat.ne_zero_of_lt hn)
      rw [List.append_assoc] at hs
      have hfst : starts [.lparen] (tokens s) = false := by
        rw [hs]
        exact starts_redirs hr (by decide) (starts_args ha (by simp) (hrest.starts_eq (by decide)))
      rw [parseexec, peek_lparen, hfst]
      simp only [Bool.false_eq_true, if_false]
      refine (parseredirs_complete hr ((tokens_skip s).trans hs)
        (starts_args ha (by simp) (hrest.starts_eq (by decide)))
        (Nat.lt_succ_of_le (length_tokens_le _))).bind fun c₁ s₁ hc₁ hs₁ => ?_
      exact parseargs_complete ha hs₁ hrest (Nat.lt_succ_of_le (length_tokens_le _)) hc₁ rfl
        (by rwa [Nat.zero_add])

end

/-! ### The line -/

/-- A NUL-terminated line, without its NUL. -/
abbrev Input := {line : Str // 0 ∉ line}

/-- The strings that the words of a tree are in `buf`. -/
def Cmd.strings (n : ℕ) (buf : List UInt8) (c : Cmd Word) : Cmd Str :=
  c.map fun w => stringAt n buf w.q

/-- What `parsecmd` returns is derived from the tokens of the line. -/
theorem parsecmd_sound (line : Input) :
    Yields (parsecmd line) fun r => Line (tokens line) (r.1.strings line.1.length r.2) := by
  have hfuel := length_tokens_le line.1
  refine (parseline_sound (by omega) List.suffix_rfl).bind ?_
  rintro ⟨c, s⟩ ⟨⟨ts, hts, hc⟩, -, hws⟩
  dsimp only
  split
  · exact yields_panic _
  · next hend =>
      have hnil : tokens s = [] := tokens_eq_nil.mpr (not_not.mp hend)
      have hstr : c.strings line.1.length (nulterminate line.1.length c (line.1 ++ [0])) =
          c.map Word.text :=
        Cmd.map_congr fun w hw => stringAt_nulterminate line.2 hws hw
      rw [hts, hnil, List.append_nil]
      exact (congrArg (Line ts) hstr).mpr hc

/-- Whatever is derived from the tokens of the line is returned. -/
theorem parsecmd_complete (line : Input) {tree : Cmd Str} (h : Line (tokens line) tree) :
    ∃ c buf, parsecmd line = .ok (c, buf) ∧ c.strings line.1.length buf = tree := by
  have hfuel := length_tokens_le line.1
  have hn : 4 * (tokens line.1).length + 4 ≤ 4 * line.1.length + 4 := by omega
  obtain ⟨c, s, hrun, hc, hs⟩ := parseline_complete h (List.append_nil _).symm
    (fun _ htk => nomatch htk) hn
  have hend : ¬ (peek s []).2 ≠ [] := not_not.mpr (tokens_eq_nil.mp hs)
  have hreads := parseline_sound hn List.suffix_rfl
  rw [hrun] at hreads
  refine ⟨c, nulterminate line.1.length c (line.1 ++ [0]), ?_, ?_⟩
  · rw [parsecmd, hrun]
    exact if_neg hend
  · rw [← hc]
    exact Cmd.map_congr fun w hw => stringAt_nulterminate line.2 hreads.words hw

/-- **The shell's grammar**: on every line `parsecmd` returns a tree or panics, and the tree that it
returns is the one that the grammar gives the line. -/
theorem parsecmd_iff (line : Input) :
    ((∃ r, parsecmd line = .ok r) ∨ ∃ p, parsecmd line = .error (.panic p)) ∧
      ∀ tree, (∃ c buf, parsecmd line = .ok (c, buf) ∧ c.strings line.1.length buf = tree) ↔
        Line (tokens line) tree := by
  have hsound := parsecmd_sound line
  refine ⟨?_, fun tree => ⟨?_, parsecmd_complete line⟩⟩
  · cases hrun : parsecmd line with
    | ok r => exact .inl ⟨r, rfl⟩
    | error e =>
        rw [hrun] at hsound
        cases e with
        | panic p => exact .inr ⟨p, rfl⟩
        | fuel => exact absurd rfl hsound
  · rintro ⟨c, buf, hrun, rfl⟩
    rw [hrun] at hsound
    exact hsound

end Xv6.Sh

import Xv6.Shell.Correct

/-!
# Shell — the words of a parsed line

Which words of the line a tree has, and what becomes of them when `nulterminate` stores its NULs.

* `Lexed` — the calls of `gettoken` from one place of the line to another, with the words they
  delimit; these words are apart and in order (`Lexed.apart`).
* `parseline_words` — the tree has exactly the words that were delimited while it was parsed, each
  once, and fewer than `MAXARGS` of them in an `argv`.
* `nulterminate_yields_words` — the main result.
-/

namespace Xv6.Sh

open Fs (Str)

variable {α β : Type} {line s t r : Str} {us vs : List Word} {w : Word}

/-! ### Calls of `gettoken` -/

/-- From `s` the parser comes to `t`, and `gettoken` delimits the words `us`. -/
inductive Lexed : Str → List Word → Str → Prop where
  | done (s : Str) : Lexed s [] s
  | skip {s t : Str} {us : List Word} (h : Lexed (Sh.skip s) us t) : Lexed s us t
  | symbol {s t : Str} {us : List Word} (hret : (gettoken s).ret ≠ 97)
      (h : Lexed (gettoken s).rest us t) : Lexed s us t
  | word {s t : Str} {us : List Word} (hret : (gettoken s).ret = 97)
      (h : Lexed (gettoken s).rest us t) : Lexed s ((gettoken s).word :: us) t

namespace Lexed

theorem trans (h : Lexed s us t) (h' : Lexed t vs r) : Lexed s (us ++ vs) r := by
  induction h with
  | done => exact h'
  | skip _ ih => exact .skip (ih h')
  | symbol hret _ ih => exact .symbol hret (ih h')
  | word hret _ ih => exact .word hret (ih h')

/-- What each word is delimited in is a part of the line. -/
theorem delimited (h : Lexed s us t) :
    ∀ w ∈ us, ∃ r, r <:+ s ∧ (gettoken r).ret = 97 ∧ (gettoken r).word = w := by
  induction h with
  | done => exact fun w hw => absurd hw List.not_mem_nil
  | skip _ ih =>
      intro w hw
      obtain ⟨r, hr, hret, hword⟩ := ih w hw
      exact ⟨r, hr.trans (skip_suffix _), hret, hword⟩
  | symbol _ _ ih =>
      intro w hw
      obtain ⟨r, hr, hret, hword⟩ := ih w hw
      exact ⟨r, hr.trans (rest_suffix _), hret, hword⟩
  | @word s _ _ hret _ ih =>
      intro w hw
      rcases List.mem_cons.mp hw with rfl | hw
      · exact ⟨s, List.suffix_rfl, hret, rfl⟩
      · obtain ⟨r, hr, hret', hword⟩ := ih w hw
        exact ⟨r, hr.trans (rest_suffix _), hret', hword⟩

theorem isWord (h : Lexed s us t) (hs : s <:+ line) : ∀ w ∈ us, IsWord line w := by
  intro w hw
  obtain ⟨r, hr, hret, rfl⟩ := h.delimited w hw
  exact gettoken_isWord (hr.trans hs) hret

/-- A word ends before the next one starts. -/
theorem apart (h : Lexed s us t) : us.Pairwise fun u v => v.q <:+ u.eq := by
  induction h with
  | done => exact .nil
  | skip _ ih => exact ih
  | symbol _ _ ih => exact ih
  | @word s _ _ hret h ih =>
      refine List.pairwise_cons.mpr ⟨fun v hv => ?_, ih⟩
      obtain ⟨r, hr, -, rfl⟩ := h.delimited v hv
      exact (skip_suffix r).trans (hr.trans (skip_suffix _))

end Lexed

/-! ### The tree -/

namespace Cmd

/-- The `argv`s of a tree. -/
def execs : Cmd α → List (List α)
  | exec argv => [argv]
  | redir cmd _ _ _ => cmd.execs
  | pipe left right => left.execs ++ right.execs
  | list left right => left.execs ++ right.execs
  | back cmd => cmd.execs

/-- A command with its redirections: the `argv` inside. -/
def argv : Cmd α → Option (List α)
  | exec argv => some argv
  | redir cmd _ _ _ => cmd.argv
  | _ => none

theorem execs_of_argv {c : Cmd α} {ws : List α} (h : c.argv = some ws) : c.execs = [ws] := by
  induction c with
  | exec argv => exact congrArg (fun x => [x]) (Option.some.inj h)
  | redir cmd _ _ _ ih => exact ih h
  | pipe | list | back => cases h

theorem argv_addArg {c : Cmd α} {ws : List α} (h : c.argv = some ws) (w : α) :
    (c.addArg w).argv = some (ws ++ [w]) := by
  induction c with
  | exec argv => exact congrArg (fun x => some (x ++ [w])) (Option.some.inj h)
  | redir cmd _ _ _ ih => exact ih h
  | pipe | list | back => cases h

theorem words_addArg {c : Cmd α} {ws : List α} (h : c.argv = some ws) (w : α) :
    (c.addArg w).words.Perm (c.words ++ [w]) := by
  induction c with
  | exec argv => exact .rfl
  | redir cmd file _ _ ih => exact (ih h).cons file
  | pipe | list | back => cases h

end Cmd

theorem words_redirect {tk : Token} (h : tk ∈ [Token.lt, .gt, .gtgt]) (cmd : Cmd Word) (w : Word) :
    (redirect tk.code cmd w).words = w :: cmd.words ∧ (redirect tk.code cmd w).argv = cmd.argv ∧
      (redirect tk.code cmd w).execs = cmd.execs := by
  simp only [List.mem_cons, List.not_mem_nil, or_false] at h
  rcases h with rfl | rfl | rfl <;> exact ⟨rfl, rfl, rfl⟩

/-! ### The parser -/

/-- What `r` returns, if it returns, satisfies `P`. -/
def Returns (r : Parse α) (P : α → Prop) : Prop := ∀ a, r = .ok a → P a

theorem Returns.bind {r : Parse α} {k : α → Parse β} {P : α → Prop} {Q : β → Prop}
    (h : Returns r P) (hk : ∀ a, P a → Returns (k a) Q) : Returns (r >>= k) Q := by
  cases r with
  | ok a => exact hk a (h a rfl)
  | error e => exact fun b hb => by cases hb

theorem Returns.mono {r : Parse α} {P Q : α → Prop} (h : Returns r P) (hPQ : ∀ a, P a → Q a) :
    Returns r Q := fun a ha => hPQ a (h a ha)

theorem returns_ok {a : α} {P : α → Prop} (h : P a) : Returns (.ok a) P := by
  rintro _ ⟨⟩
  exact h

theorem returns_error {e : Stop} {P : α → Prop} : Returns (.error e : Parse α) P := fun _ h => by
  cases h

/-- From `s` on the parser adds the words it delimits to the words `ws`. -/
def Adds (s : Str) (ws : List Word) (r : Cmd Word × Str) : Prop :=
  ∃ us, Lexed s us r.2 ∧ r.1.words.Perm (ws ++ us)

theorem Adds.trans {ws : List Word} {r r' : Cmd Word × Str} (h : Adds s ws r)
    (h' : Adds r.2 r.1.words r') : Adds s ws r' := by
  obtain ⟨us, hus, hp⟩ := h
  obtain ⟨vs, hvs, hp'⟩ := h'
  exact ⟨us ++ vs, hus.trans hvs, hp'.trans (List.append_assoc .. ▸ hp.append_right vs)⟩

/-- The parser passes over a symbol it has seen. -/
theorem Adds.symbol {ws : List Word} {r : Cmd Word × Str} {tk : Token} {ts : List Token}
    (hts : tokens s = tk :: ts) (htk : tk.code ≠ 97) (h : Adds (gettoken s).rest ws r) :
    Adds s ws r := by
  obtain ⟨us, hus, hp⟩ := h
  exact ⟨us, .symbol ((gettoken_of_tokens hts).1 ▸ htk) hus, hp⟩

/-- `parseredirs` adds the names of files. -/
theorem parseredirs_words (n : ℕ) : ∀ (cmd : Cmd Word) (s : Str), Returns (parseredirs n cmd s)
    fun r => Adds s cmd.words r ∧ r.1.argv = cmd.argv ∧ r.1.execs = cmd.execs := by
  induction n with
  | zero => exact fun _ _ => returns_error
  | succ n ih =>
      intro cmd s
      rw [parseredirs, peek_redir]
      cases hst : starts [.lt, .gt, .gtgt] (tokens s) with
      | false => exact returns_ok ⟨⟨[], .skip (.done _), by rw [List.append_nil]⟩, rfl, rfl⟩
      | true =>
          obtain ⟨tk, htk, ts, hts⟩ := exists_of_starts hst
          have hret := (gettoken_of_tokens hts).1
          have hcode : tk.code ≠ 97 :=
            (show ∀ tk ∈ [Token.lt, .gt, .gtgt], tk.code ≠ 97 by decide) tk htk
          simp only [if_true, gettoken_skip, hret]
          split
          · exact returns_error
          · rename_i hfile
            obtain ⟨hwords, hargv, hexecs⟩ :=
              words_redirect htk cmd (gettoken (gettoken s).rest).word
            refine (ih _ _).mono ?_
            rintro r ⟨⟨us, hus, hp⟩, ha, he⟩
            refine ⟨.symbol hts hcode ⟨_, .word (not_not.mp hfile) hus, ?_⟩, ha.trans hargv,
              he.trans hexecs⟩
            rw [hwords] at hp
            exact hp.trans List.perm_middle.symm

/-- The loop of `parseexec` adds words, fewer than `MAXARGS`. -/
theorem parseargs_words (n : ℕ) : ∀ (argc : ℕ) (ret : Cmd Word) (s : Str) (ws : List Word),
    ret.argv = some ws → ws.length = argc → argc < MAXARGS → Returns (parseargs n argc ret s)
      fun r => Adds s ret.words r ∧ ∃ ws, r.1.argv = some ws ∧ ws.length < MAXARGS := by
  induction n with
  | zero => exact fun _ _ _ _ _ _ _ => returns_error
  | succ n ih =>
      intro argc ret s ws hargv hlen hlt
      have hnone : ∀ {s'}, Lexed s [] s' → Adds s ret.words (ret, s') := fun h =>
        ⟨[], h, by rw [List.append_nil]⟩
      have hdone : ∃ ws, ret.argv = some ws ∧ ws.length < MAXARGS := ⟨ws, hargv, hlen ▸ hlt⟩
      rw [parseargs, peek_stop]
      cases starts [.bar, .rparen, .amp, .semi] (tokens s) with
      | true => exact returns_ok ⟨hnone (.skip (.done _)), hdone⟩
      | false =>
          simp only [Bool.false_eq_true, if_false, gettoken_skip]
          by_cases hend : (gettoken s).ret = 0
          · rw [if_pos hend]
            exact returns_ok ⟨hnone (.symbol (by rw [hend]; decide) (.done _)), hdone⟩
          rw [if_neg hend]
          by_cases hword : (gettoken s).ret = 97
          · rw [if_neg (not_not.mpr hword)]
            by_cases hmany : MAXARGS ≤ argc + 1
            · rw [if_pos hmany]
              exact returns_error
            rw [if_neg hmany]
            have hadd := Cmd.argv_addArg hargv (gettoken s).word
            refine (parseredirs_words _ _ _).bind ?_
            rintro r ⟨⟨us, hus, hp⟩, ha, _⟩
            refine (ih _ _ _ _ (ha.trans hadd) (by simp [hlen]) (by omega)).mono ?_
            rintro r' ⟨⟨vs, hvs, hp'⟩, hargs⟩
            refine ⟨⟨_, .word hword (hus.trans hvs), ?_⟩, hargs⟩
            refine hp'.trans ((hp.trans ((Cmd.words_addArg hargv _).append_right us)).append_right
              vs |>.trans ?_)
            simp
          · rw [if_pos hword]
            exact returns_error

/-- The loop of `parseline` adds none. -/
theorem parsebacks_words (n : ℕ) : ∀ (cmd : Cmd Word) (s : Str), Returns (parsebacks n cmd s)
    fun r => Adds s cmd.words r ∧ r.1.execs = cmd.execs := by
  induction n with
  | zero => exact fun _ _ => returns_error
  | succ n ih =>
      intro cmd s
      rw [parsebacks, peek_amp]
      cases hst : starts [.amp] (tokens s) with
      | false => exact returns_ok ⟨⟨[], .skip (.done _), by rw [List.append_nil]⟩, rfl⟩
      | true =>
          obtain ⟨tk, htk, ts, hts⟩ := exists_of_starts hst
          obtain rfl := List.mem_singleton.mp htk
          simp only [if_true, gettoken_skip]
          refine (ih _ _).mono ?_
          rintro r ⟨h, he⟩
          exact ⟨h.symbol hts (by decide), he⟩

/-- The tree that is parsed from `s` on has the words delimited, and room for each `argv`. -/
structure Parsed (s : Str) (r : Cmd Word × Str) : Prop where
  adds : Adds s [] r
  fits : ∀ argv ∈ r.1.execs, argv.length < MAXARGS

/-- Two trees side by side, with a symbol between them. -/
theorem Parsed.join {c c' d : Cmd Word} {tk : Token} {ts : List Token} (h : Parsed s (c, t))
    (hts : tokens t = tk :: ts) (htk : tk.code ≠ 97) (h' : Parsed (gettoken t).rest (c', r))
    (hwords : d.words = c.words ++ c'.words) (hexecs : d.execs = c.execs ++ c'.execs) :
    Parsed s (d, r) := by
  obtain ⟨us, hus, hp⟩ := h.adds
  obtain ⟨vs, hvs, hp'⟩ := h'.adds
  refine ⟨⟨us ++ vs, hus.trans (.symbol ((gettoken_of_tokens hts).1 ▸ htk) hvs), ?_⟩, fun argv hm => ?_⟩
  · rw [hwords]
    exact hp.append hp'
  · rw [hexecs, List.mem_append] at hm
    exact hm.elim (h.fits argv) (h'.fits argv)

mutual

/-- The words of a line are words of its text. -/
theorem parseline_words : ∀ (n : ℕ) (s : Str), Returns (parseline n s) (Parsed s)
  | 0, _ => returns_error
  | n + 1, s => by
      rw [parseline]
      refine (parsepipe_words n s).bind fun (c, s₁) h₁ => ?_
      refine (parsebacks_words _ c s₁).bind fun (c', s₂) ⟨h₂, he⟩ => ?_
      have h : Parsed s (c', s₂) := ⟨h₁.adds.trans h₂, he ▸ h₁.fits⟩
      dsimp only
      rw [peek_semi]
      cases hst : starts [.semi] (tokens s₂) with
      | false =>
          obtain ⟨us, hus, hp⟩ := h.adds
          exact returns_ok ⟨⟨us, by simpa using hus.trans (.skip (.done _)), hp⟩, h.fits⟩
      | true =>
          obtain ⟨tk, htk, ts, hts⟩ := exists_of_starts hst
          obtain rfl := List.mem_singleton.mp htk
          simp only [if_true, gettoken_skip]
          exact (parseline_words n _).bind fun (d, s₃) h₃ =>
            returns_ok (h.join hts (by decide) h₃ rfl rfl)

/-- The words of a pipe are words of its text. -/
theorem parsepipe_words : ∀ (n : ℕ) (s : Str), Returns (parsepipe n s) (Parsed s)
  | 0, _ => returns_error
  | n + 1, s => by
      rw [parsepipe]
      refine (parseexec_words n s).bind fun (c, s₁) h => ?_
      dsimp only
      rw [peek_bar]
      cases hst : starts [.bar] (tokens s₁) with
      | false =>
          obtain ⟨us, hus, hp⟩ := h.adds
          exact returns_ok ⟨⟨us, by simpa using hus.trans (.skip (.done _)), hp⟩, h.fits⟩
      | true =>
          obtain ⟨tk, htk, ts, hts⟩ := exists_of_starts hst
          obtain rfl := List.mem_singleton.mp htk
          simp only [if_true, gettoken_skip]
          exact (parsepipe_words n _).bind fun (d, s₂) h₂ =>
            returns_ok (h.join hts (by decide) h₂ rfl rfl)

/-- The words of a command are words of its text. -/
theorem parseexec_words : ∀ (n : ℕ) (s : Str), Returns (parseexec n s) (Parsed s)
  | 0, _ => returns_error
  | n + 1, s => by
      rw [parseexec, peek_lparen]
      cases starts [.lparen] (tokens s) with
      | true =>
          refine (parseblock_words n (skip s)).mono fun r ⟨⟨us, hus, hp⟩, hf⟩ => ⟨⟨us, .skip hus, hp⟩, hf⟩
      | false =>
          simp only [Bool.false_eq_true, if_false]
          refine (parseredirs_words _ _ _).bind fun (c, s₁) ⟨⟨us, hus, hp⟩, ha, _⟩ => ?_
          refine (parseargs_words _ 0 c s₁ [] ha rfl (by decide)).mono
            fun r ⟨h, ws, hws, hlt⟩ => ⟨?_, fun argv hm => ?_⟩
          · exact Adds.trans ⟨us, .skip hus, hp⟩ h
          · rw [Cmd.execs_of_argv hws, List.mem_singleton] at hm
            exact hm ▸ hlt

/-- The words of a block are words of its text. -/
theorem parseblock_words : ∀ (n : ℕ) (s : Str), Returns (parseblock n s) (Parsed s)
  | 0, _ => returns_error
  | n + 1, s => by
      rw [parseblock, peek_lparen]
      cases hst : starts [.lparen] (tokens s) with
      | false => exact returns_error
      | true =>
          obtain ⟨tk, htk, ts, hts⟩ := exists_of_starts hst
          obtain rfl := List.mem_singleton.mp htk
          simp only [not_true_eq_false, if_false, gettoken_skip]
          refine (parseline_words n _).bind fun (c, s₁) ⟨h₁, hf⟩ => ?_
          dsimp only
          rw [peek_rparen]
          cases hst' : starts [.rparen] (tokens s₁) with
          | false => exact returns_error
          | true =>
              obtain ⟨tk, htk, ts', hts'⟩ := exists_of_starts hst'
              obtain rfl := List.mem_singleton.mp htk
              simp only [not_true_eq_false, if_false, gettoken_skip]
              refine (parseredirs_words _ c _).mono fun r ⟨h₂, _, he⟩ => ⟨?_, he ▸ hf⟩
              exact (h₁.symbol hts (by decide)).trans (h₂.symbol hts' (by decide))

end

/-! ### The NULs -/

/-- Where a pointer into the line points to. -/
def offset (line p : Str) : ℕ := line.length - p.length

/-- The character behind a word is in no word. -/
theorem not_inside {w w' : Word} (hw : IsWord line w) (hw' : IsWord line w') :
    ¬ (offset line w'.q ≤ offset line w.eq ∧ offset line w.eq < offset line w'.eq) := by
  rintro ⟨hle, hlt⟩
  obtain ⟨pre, hpre⟩ := hw'.suffix
  obtain ⟨pre', hpre'⟩ : w.eq <:+ line := hw.ends ▸ (List.dropWhile_suffix _).trans hw.suffix
  have happ := List.takeWhile_append_dropWhile (p := isWordChar) (l := w'.q)
  rw [← hw'.ends] at happ
  have hlen := congrArg List.length hpre
  have hlen' := congrArg List.length happ
  have hlen'' := congrArg List.length hpre'
  rw [List.length_append] at hlen hlen' hlen''
  unfold offset at hle hlt
  have hchars : ∀ c ∈ w'.q.takeWhile isWordChar, isWordChar c = true := fun c hc =>
    List.mem_takeWhile_imp hc
  set t := w'.q.takeWhile isWordChar
  -- The place behind `w` is that of the character `k` of `w'`.
  obtain ⟨k, hk⟩ : ∃ k, pre'.length = pre.length + k := Nat.exists_eq_add_of_le (by omega)
  have hkt : k < t.length := by omega
  have hget : (line)[pre'.length]? = some t[k] := by
    rw [← hpre, ← happ, hk, List.getElem?_append_right (Nat.le_add_right ..),
      Nat.add_sub_cancel_left, List.getElem?_append_left hkt, List.getElem?_eq_getElem hkt]
  have hhead := List.head?_dropWhile_not isWordChar w.q
  rw [← hpre', List.getElem?_append_right le_rfl, Nat.sub_self, ← List.head?_eq_getElem?] at hget
  rw [← hw.ends, hget] at hhead
  exact absurd (hchars _ (List.getElem_mem hkt)) (by simpa using hhead)

/-- The array `argv` of an `execcmd`: zeroed, with a store for each argument. -/
def slots (argv : List Word) : List (Option Word) :=
  argv.map some ++ List.replicate (MAXARGS - argv.length) none

/-- The loop of `nulterminate` over the array. -/
def terminate (n : ℕ) : List (Option Word) → List UInt8 → List UInt8
  | some w :: ws, buf => terminate n ws (store n w.eq buf)
  | _, buf => buf

/-- The arguments of a command are terminated in order. -/
theorem terminate_slots {argv : List Word} (h : argv.length < MAXARGS) (n : ℕ) (buf : List UInt8) :
    terminate n (slots argv) buf = nulterminate n (.exec argv) buf := by
  obtain ⟨k, hk⟩ : ∃ k, MAXARGS - argv.length = k + 1 := ⟨MAXARGS - argv.length - 1, by omega⟩
  rw [slots, hk, nulterminate]
  clear h hk
  induction argv generalizing buf with
  | nil => rfl
  | cons w argv ih => exact ih _

/-- The array ends, within its slots, with a null pointer. -/
theorem slots_null {argv : List Word} (h : argv.length < MAXARGS) :
    (slots argv).length = MAXARGS ∧ (slots argv)[argv.length]? = some none := by
  obtain ⟨k, hk⟩ : ∃ k, MAXARGS - argv.length = k + 1 := ⟨MAXARGS - argv.length - 1, by omega⟩
  refine ⟨?_, ?_⟩
  · rw [slots, List.length_append, List.length_map, List.length_replicate]
    omega
  · rw [slots, List.getElem?_append_right (by rw [List.length_map]), List.length_map, Nat.sub_self,
      hk]
    rfl

/-- The words of the tree are all words of the line, each once. -/
theorem parsecmd_words {line : Str} {c : Cmd Word} {buf : List UInt8}
    (h : parsecmd line = .ok (c, buf)) : buf = nulterminate line.length c (line ++ [0]) ∧
      (∃ us, Lexed line us [] ∧ c.words.Perm us) ∧ ∀ argv ∈ c.execs, argv.length < MAXARGS := by
  have hr : Returns (parsecmd line) fun r => r.2 = nulterminate line.length r.1 (line ++ [0]) ∧
      (∃ us, Lexed line us [] ∧ r.1.words.Perm us) ∧ ∀ argv ∈ r.1.execs, argv.length < MAXARGS := by
    refine (parseline_words _ line).bind fun (c, s) ⟨⟨us, hus, hp⟩, hf⟩ => ?_
    dsimp only
    split
    · exact returns_error
    · rename_i hend
      have hnil : skip s = [] := not_not.mp hend
      refine returns_ok ⟨rfl, ⟨us, ?_, hp⟩, hf⟩
      have hend : Lexed s [] [] := .skip (hnil.symm ▸ Lexed.done [])
      have := hus.trans hend
      rwa [List.append_nil] at this
  exact hr _ h

/-- **`nulterminate` yields the texts of the tokens.**  Every word of the tree is one that `gettoken`
delimited, each of these is a word of the tree once, and its pointer reads its text; no NUL is
stored inside a word; and every `argv` ends with a null pointer. -/
theorem nulterminate_yields_words (line : Input) {c : Cmd Word} {buf : List UInt8}
    (h : parsecmd line = .ok (c, buf)) :
    (∀ w ∈ c.words, stringAt line.1.length buf w.q = w.text ∧
      ∃ s, s <:+ line.1 ∧ (gettoken s).ret = 97 ∧ (gettoken s).word = w) ∧
    (∃ us, Lexed line us [] ∧ c.words.Perm us) ∧
    (∀ w ∈ c.words, ∀ w' ∈ c.words,
      ¬ (offset line w'.q ≤ offset line w.eq ∧ offset line w.eq < offset line w'.eq)) ∧
    ∀ argv ∈ c.execs, (slots argv).length = MAXARGS ∧ (slots argv)[argv.length]? = some none ∧
      ∀ buf, terminate line.1.length (slots argv) buf = nulterminate line.1.length (.exec argv) buf := by
  obtain ⟨rfl, ⟨us, hus, hp⟩, hfits⟩ := parsecmd_words h
  have hword : ∀ w ∈ c.words, IsWord line.1 w := fun w hw =>
    hus.isWord List.suffix_rfl w (hp.mem_iff.mp hw)
  refine ⟨fun w hw => ⟨stringAt_nulterminate line.2 hword hw, hus.delimited w (hp.mem_iff.mp hw)⟩,
    ⟨us, hus, hp⟩, fun w hw w' hw' => not_inside (hword w hw) (hword w' hw'), fun argv hargv => ?_⟩
  obtain ⟨hlen, hnull⟩ := slots_null (hfits argv hargv)
  exact ⟨hlen, hnull, terminate_slots (hfits argv hargv) _⟩

/-- `ls>a`: the NUL of `ls` is stored over the `>`. -/
theorem nulterminate_yields_words_ls :
    stringAt 4 [108, 115, 0, 97, 0] [108, 115, 62, 97] = [108, 115] := by
  have hrun : parsecmd [108, 115, 62, 97] = .ok (.redir
      (.exec [⟨[108, 115, 62, 97], [62, 97]⟩]) ⟨[97], []⟩ (Fs.O_WRONLY ||| Fs.O_CREATE) 1,
        [108, 115, 0, 97, 0]) := by decide
  exact ((nulterminate_yields_words ⟨[108, 115, 62, 97], by decide⟩ hrun).1
    ⟨[108, 115, 62, 97], [62, 97]⟩ (by decide)).1

end Xv6.Sh

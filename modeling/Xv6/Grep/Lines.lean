import Xv6.Grep.Match
import Xv6.Lib.Lines

/-!
# Grep — reading lines

The loop of `grep.c` that reads into `buf` and looks for lines there.  What is left of a line at the
end of a read is moved to the front of the buffer, but only if the read brought some newline: if
there is none in the buffer, all of it is dropped.

* `lineLoop_eq` — the inner loop finds the lines of the buffer and writes those that match.
* `kept` — the lines of a stream without what is dropped; `grep_eq`, which of them are written.
* `kept_eq_iff` — nothing is dropped if and only if every read brings a newline.
* `grep_chunks_iff` — when the output is that of the stream.
-/

namespace Xv6.Grep

open Xv6.Fs (Str)
open Lib.Lines (split join)

/-- `sizeof(buf)`. -/
def SIZE : ℕ := 1024

/-- The character that ends a line. -/
def newline : UInt8 := 10

variable {pattern line buf s : Str} {chunk : Str} {chunks lines : List Str}

/-! ### `grep` -/

/-- `match(pattern, line) != 0`. -/
def accepted (pattern line : Str) : Bool :=
  matchRe (pattern.length + line.length + 1) pattern line = some true

/-- The inner loop from `p` on, in `n` passes at most: the lines written, and `p` after it. -/
def lineLoop (pattern : Str) : ℕ → Str → Option (List Str × Str)
  | 0, _ => none
  | n + 1, p =>
      -- `strchr` does not look behind a NUL.
      if newline ∈ p.takeWhile (· ≠ 0) then do
        let line := p.takeWhile (· ≠ newline)
        let (writes, p) ← lineLoop pattern n (p.drop (line.length + 1))
        pure (if accepted pattern line then (line ++ [newline]) :: writes else writes, p)
      else pure ([], p)

/-- A pass of the loop, for what `read` put behind the bytes in the buffer: the lines written, and
the bytes that are then in the buffer. -/
def pass (pattern buf chunk : Str) : Option (List Str × Str) := do
  let buf := buf ++ chunk
  let (writes, p) ← lineLoop pattern (buf.length + 1) buf
  -- `p == buf`: `m = 0`.
  pure (writes, if p.length = buf.length then [] else p)

/-- `grep`, for what the calls of `read` return until the end of the file. -/
def grep (pattern : Str) : Str → List Str → Option (List Str)
  | _, [] => some []
  | buf, chunk :: chunks => do
      let (writes, buf) ← pass pattern buf chunk
      let writes' ← grep pattern buf chunks
      pure (writes ++ writes')

/-! ### What the reads leave -/

/-- What is in the buffer after a read. -/
def left (buf chunk : Str) : Str := if newline ∈ chunk then (split newline (buf ++ chunk)).2 else []

/-- What `read` may return, call by call: some bytes, and no more than were asked for. -/
def Reads : Str → List Str → Prop
  | _, [] => True
  | buf, chunk :: chunks =>
      chunk ≠ [] ∧ chunk.length ≤ SIZE - buf.length - 1 ∧ Reads (left buf chunk) chunks

/-- The lines of the stream without what is dropped: a read without a newline, and what was left in
the buffer before it. -/
def kept : Str → List Str → List Str
  | _, [] => []
  | buf, chunk :: chunks =>
      if newline ∈ chunk then
        (split newline (buf ++ chunk)).1 ++ kept (split newline (buf ++ chunk)).2 chunks
      else kept [] chunks

/-- The lines that match, as they are written. -/
def matching (pattern : Str) (lines : List Str) : List Str :=
  (lines.filter (accepted pattern)).map (· ++ [newline])

/-- `match` returns, with enough depth for its calls. -/
theorem matchRe_eq (fuel : ℕ) (h : pattern.length + line.length < fuel) :
    matchRe fuel pattern line = some (accepted pattern line) := by
  obtain ⟨b, hb, hiff⟩ := matchRe_answers pattern line fuel h
  obtain ⟨b', hb', hiff'⟩ := matchRe_answers pattern line _ (Nat.lt_succ_self _)
  have hbb : b = b' := by
    rw [Bool.eq_iff_iff, hiff, hiff']
  rw [hb, accepted, hb', hbb]
  cases b' <;> rfl

theorem takeWhile_eq_self {c : UInt8} (h : c ∉ s) : s.takeWhile (· ≠ c) = s :=
  List.takeWhile_eq_self_iff.mpr fun _ hd => decide_eq_true fun he => h (he ▸ hd)

theorem takeWhile_line {c : UInt8} (h : c ∉ line) (s : Str) :
    (line ++ c :: s).takeWhile (· ≠ c) = line := by
  have hall : ∀ d ∈ line, decide (d ≠ c) = true := fun d hd =>
    decide_eq_true fun (he : d = c) => h (he ▸ hd)
  rw [List.takeWhile_append_of_pos hall, List.takeWhile_cons_of_neg (by simp), List.append_nil]

theorem matching_append (pattern : Str) (ls ls' : List Str) :
    matching pattern (ls ++ ls') = matching pattern ls ++ matching pattern ls' := by
  rw [matching, List.filter_append, List.map_append]
  rfl

theorem matching_cons (pattern line : Str) (ls : List Str) : matching pattern (line :: ls) =
    if accepted pattern line then (line ++ [newline]) :: matching pattern ls
    else matching pattern ls := by
  rw [matching, List.filter_cons]
  split <;> rfl

/-- **The inner loop** writes the lines of the buffer that match, and stops at the rest. -/
theorem lineLoop_eq (n : ℕ) : ∀ p : Str, 0 ∉ p → p.length < n →
    lineLoop pattern n p = some (matching pattern (split newline p).1, (split newline p).2) := by
  induction n with
  | zero => exact fun _ _ h => absurd h (Nat.not_lt_zero _)
  | succ n ih =>
      intro p h0 hn
      rw [lineLoop, takeWhile_eq_self h0]
      by_cases hm : newline ∈ p
      · obtain ⟨line, rest, rfl, hline⟩ := List.eq_append_cons_of_mem hm
        rw [List.mem_append, List.mem_cons, not_or, not_or] at h0
        rw [List.length_append, List.length_cons] at hn
        have hdrop : (line ++ newline :: rest).drop (line.length + 1) = rest := by
          rw [List.drop_append, List.drop_eq_nil_of_le (Nat.le_succ _), Nat.add_sub_cancel_left]
          rfl
        rw [if_pos hm, takeWhile_line hline]
        dsimp only
        rw [hdrop, ih rest h0.2.2 (by omega), Lib.Lines.split_line hline, matching_cons]
        rfl
      · rw [if_neg hm, Lib.Lines.split_of_not_mem hm]
        rfl

/-- A pass writes the lines that match, and leaves the rest of a line only where it met a newline. -/
theorem pass_eq (h0 : 0 ∉ buf ++ chunk) (hbuf : newline ∉ buf) : pass pattern buf chunk =
    some (matching pattern (if newline ∈ chunk then (split newline (buf ++ chunk)).1 else []),
      left buf chunk) := by
  have hlen := Lib.Lines.length_split newline (buf ++ chunk)
  rw [pass]
  dsimp only
  rw [lineLoop_eq _ _ h0 (Nat.lt_succ_self _), left]
  by_cases hm : newline ∈ chunk
  · obtain ⟨line, rest, happ, hline⟩ :=
      List.eq_append_cons_of_mem (List.mem_append_right buf hm)
    rw [happ, Lib.Lines.split_line hline, List.map_cons, List.sum_cons] at hlen
    rw [if_pos hm, if_pos hm, happ, Lib.Lines.split_line hline]
    dsimp only at hlen
    dsimp only [bind, pure, Option.bind]
    rw [if_neg (by omega)]
  · have hno : newline ∉ buf ++ chunk := List.not_mem_append hbuf hm
    rw [if_neg hm, if_neg hm, Lib.Lines.split_of_not_mem hno]
    exact congrArg (fun b => some (_, b)) (if_pos rfl)

theorem newline_not_mem_left (buf chunk : Str) : newline ∉ left buf chunk := by
  unfold left
  split
  · exact (Lib.Lines.join_split newline _).2.2
  · exact List.not_mem_nil

/-- What is left in the buffer was read. -/
theorem left_subset (buf chunk : Str) : left buf chunk ⊆ buf ++ chunk := by
  unfold left
  split
  · obtain ⟨hs, -⟩ := Lib.Lines.join_split newline (buf ++ chunk)
    intro c hc
    rw [← hs]
    exact List.mem_append_right _ hc
  · exact List.nil_subset _

/-- **What `grep` writes**: of the lines as far as they are kept, those that match. -/
theorem grep_eq (h0 : 0 ∉ buf ++ chunks.flatten) (hbuf : newline ∉ buf) :
    grep pattern buf chunks = some (matching pattern (kept buf chunks)) := by
  induction chunks generalizing buf with
  | nil => rfl
  | cons chunk chunks ih =>
      rw [List.flatten_cons, ← List.append_assoc, List.mem_append, not_or] at h0
      have hleft : 0 ∉ left buf chunk ++ chunks.flatten :=
        List.not_mem_append (fun hm => h0.1 (left_subset buf chunk hm)) h0.2
      have hrest := ih hleft (newline_not_mem_left buf chunk)
      rw [grep, pass_eq h0.1 hbuf]
      dsimp only [bind, pure, Option.bind]
      rw [hrest, kept, left]
      by_cases hm : newline ∈ chunk
      · rw [if_pos hm, if_pos hm, if_pos hm, matching_append]
      · rw [if_neg hm, if_neg hm, if_neg hm]
        rfl

/-! ### What is kept -/

/-- Where every read brings a newline, the lines are those of the stream. -/
theorem kept_of_newlines (h : ∀ chunk ∈ chunks, newline ∈ chunk) (hbuf : newline ∉ buf) :
    kept buf chunks = (split newline (buf ++ chunks.flatten)).1 := by
  induction chunks generalizing buf with
  | nil => rw [kept, List.flatten_nil, List.append_nil, Lib.Lines.split_of_not_mem hbuf]
  | cons chunk chunks ih =>
      rw [List.forall_mem_cons] at h
      rw [kept, if_pos h.1, ih h.2 (Lib.Lines.join_split newline _).2.2, List.flatten_cons,
        ← List.append_assoc, Lib.Lines.split_append newline (buf ++ chunk)]

/-- How long the lines are, with their newlines. -/
def total (lines : List Str) : ℕ := (lines.map fun line => line.length + 1).sum

theorem total_append (ls ls' : List Str) : total (ls ++ ls') = total ls + total ls' := by
  rw [total, List.map_append, List.sum_append]
  rfl

theorem total_split (s : Str) : total (split newline s).1 + (split newline s).2.length = s.length :=
  Lib.Lines.length_split newline s

/-- The lines that are kept are no longer than what was read. -/
theorem total_kept_le (chunks : List Str) : ∀ buf, total (kept buf chunks) ≤
    buf.length + chunks.flatten.length := by
  induction chunks with
  | nil => exact fun buf => Nat.zero_le _
  | cons chunk chunks ih =>
      intro buf
      rw [kept, List.flatten_cons, List.length_append]
      split
      · have hlen := total_split (buf ++ chunk)
        have := ih (split newline (buf ++ chunk)).2
        rw [List.length_append] at hlen
        rw [total_append]
        omega
      · have := ih []
        rw [List.length_nil] at this
        omega

/-- Where a read brings no newline, something is dropped. -/
theorem total_kept_lt (hne : ∀ chunk ∈ chunks, chunk ≠ []) (h : ∃ chunk ∈ chunks, newline ∉ chunk) :
    ∀ buf, total (kept buf chunks) < buf.length + chunks.flatten.length := by
  induction chunks with
  | nil => exact absurd h (by simp)
  | cons chunk chunks ih =>
      intro buf
      rw [List.forall_mem_cons] at hne
      rw [kept, List.flatten_cons, List.length_append]
      split
      · rename_i hm
        have hlater : ∃ chunk ∈ chunks, newline ∉ chunk := by
          obtain ⟨c, hc, hno⟩ := h
          rcases List.mem_cons.mp hc with rfl | hc
          · exact absurd hm hno
          · exact ⟨c, hc, hno⟩
        have hlen := total_split (buf ++ chunk)
        have := ih hne.2 hlater (split newline (buf ++ chunk)).2
        rw [List.length_append] at hlen
        rw [total_append]
        omega
      · have hle := total_kept_le chunks []
        have hpos := List.length_pos_iff.mpr hne.1
        rw [List.length_nil] at hle
        omega

/-- **Nothing is dropped** if and only if every read brings a newline. -/
theorem kept_eq_iff (hlines : ∀ line ∈ lines, newline ∉ line)
    (hsplit : chunks.flatten = join newline lines) (hne : ∀ chunk ∈ chunks, chunk ≠ []) :
    kept [] chunks = lines ↔ ∀ chunk ∈ chunks, newline ∈ chunk := by
  have hjoin : split newline chunks.flatten = (lines, []) := by
    rw [hsplit, ← List.append_nil (join newline lines)]
    exact Lib.Lines.split_join hlines List.not_mem_nil
  constructor
  · intro hkept
    by_contra hno
    obtain ⟨chunk, hc, hm⟩ : ∃ chunk ∈ chunks, newline ∉ chunk := by simpa using hno
    have hlt := total_kept_lt hne ⟨chunk, hc, hm⟩ []
    have hlen := total_split chunks.flatten
    rw [hkept, List.length_nil] at hlt
    rw [hjoin] at hlen
    exact absurd hlen (Nat.ne_of_lt (by simpa using hlt))
  · intro hall
    rw [kept_of_newlines hall List.not_mem_nil, List.nil_append, hjoin]

theorem ne_nil_of_reads (h : Reads buf chunks) : ∀ chunk ∈ chunks, chunk ≠ [] := by
  induction chunks generalizing buf with
  | nil => exact fun _ hc => absurd hc List.not_mem_nil
  | cons chunk chunks ih => exact List.forall_mem_cons.mpr ⟨h.1, ih h.2.2⟩

/-- The empty pattern matches every line. -/
theorem accepted_nil (line : Str) : accepted [] line = true := by
  cases line <;> rfl

theorem matching_inj {ls ls' : List Str} : matching pattern ls = matching pattern ls' ↔
    ls.filter (accepted pattern) = ls'.filter (accepted pattern) :=
  (List.map_injective_iff.mpr fun _ _ h => List.append_cancel_right h).eq_iff

/-- **When the output of `grep` is that of the whole stream**, however it comes in.  For one pattern:
when the lines without what is dropped match as the lines do.  For all patterns: when every call of
`read` brings a newline. -/
theorem grep_chunks_iff (lines chunks : List Str)
    (hlines : ∀ line ∈ lines, newline ∉ line ∧ 0 ∉ line)
    (hsplit : chunks.flatten = join newline lines) (hreads : Reads [] chunks) :
    (∀ pattern, grep pattern [] chunks = some (matching pattern lines) ↔
      (kept [] chunks).filter (accepted pattern) = lines.filter (accepted pattern)) ∧
    ((∀ pattern, grep pattern [] chunks = some (matching pattern lines)) ↔
      ∀ chunk ∈ chunks, newline ∈ chunk) := by
  have hzero : 0 ∉ [] ++ chunks.flatten := by
    rw [List.nil_append, hsplit, join]
    intro hm
    obtain ⟨_, hl, hm⟩ := List.mem_flatten.mp hm
    obtain ⟨line, hline, rfl⟩ := List.mem_map.mp hl
    rcases List.mem_append.mp hm with hm | hm
    · exact (hlines line hline).2 hm
    · exact absurd (List.mem_singleton.mp hm) (by decide)
  have hone : ∀ pattern, grep pattern [] chunks = some (matching pattern lines) ↔
      (kept [] chunks).filter (accepted pattern) = lines.filter (accepted pattern) :=
    fun pattern => by
      rw [grep_eq hzero List.not_mem_nil, Option.some_inj, matching_inj]
  have hkept := kept_eq_iff (fun line hline => (hlines line hline).1) hsplit (ne_nil_of_reads hreads)
  refine ⟨hone, fun h => hkept.mp ?_, fun h pattern => (hone pattern).mpr (by rw [hkept.mpr h])⟩
  have := (hone []).mp (h [])
  rwa [List.filter_eq_self.mpr fun line _ => accepted_nil line,
    List.filter_eq_self.mpr fun line _ => accepted_nil line] at this

/-- The lines `a` and `bc`, the second of them in two pieces. -/
theorem grep_chunks_carried : grep [99] [] [[97, 10, 98], [99, 10]] = some [[98, 99, 10]] :=
  ((grep_chunks_iff [[97], [98, 99]] [[97, 10, 98], [99, 10]] (by decide) (by decide)
    ⟨by decide, by decide, by decide, by decide, trivial⟩).2.mpr (by decide) [99]).trans (by decide)

/-- `abc` is not found where `a` is read first. -/
theorem not_grep_chunks : ¬ ∀ (pattern : Str) (lines chunks : List Str),
    (∀ line ∈ lines, newline ∉ line ∧ 0 ∉ line ∧ line.length + 1 ≤ 1022) →
      chunks.flatten = join newline lines → Reads [] chunks →
        grep pattern [] chunks = some (matching pattern lines) := fun h =>
  absurd (h [97] [[97, 98, 99]] [[97], [98, 99, 10]] (by decide) (by decide)
    ⟨by decide, by decide, by decide, by decide, trivial⟩) (by decide)

end Xv6.Grep

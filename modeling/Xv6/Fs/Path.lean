import Xv6.Fs.Directory

/-!
# File system — a path is a walk in the tree

What `namei` and `nameiparent` find: the directories of a path, one after the other.

* `elems_eq_pieces` — the elements of a path are what stands between its slashes, cut to `DIRSIZ`.
* `walk`, `walkParent` — the inode that a list of names leads to, and the directory of the last.
* `Holding.namei`, `Holding.nameiparent` — the rules of the two functions: they find what the walk
  finds, change nothing, and hold a reference to what they return and to nothing else.
-/

namespace Xv6.Fs

open Lib

/-! ### The elements of a path -/

/-- What stands between the slashes of a path. -/
def pieces (path : Str) : List Str := (path.splitOnP (· = slash)).filter (· ≠ [])

theorem pieces_slash (path : Str) : pieces (slash :: path) = pieces path := by
  simp [pieces, List.splitOnP_cons_eq_if_modifyHead]

/-- Slashes in front make no difference. -/
theorem pieces_dropWhile (path : Str) : pieces (path.dropWhile (· = slash)) = pieces path := by
  induction path with
  | nil => rfl
  | cons c cs ih =>
      by_cases hc : c = slash
      · subst hc
        rw [List.dropWhile_cons_of_pos (by simp), pieces_slash, ih]
      · rw [List.dropWhile_cons_of_neg (by simpa using hc)]

theorem not_of_dropWhile {p : UInt8 → Bool} {l : Str} {c : UInt8} {cs : Str}
    (h : l.dropWhile p = c :: cs) : p c = false := by
  have hne : l.dropWhile p ≠ [] := h ▸ List.cons_ne_nil c cs
  have := List.head_dropWhile_not p hne
  simpa [h] using this

/-- A piece, and the rest of the path. -/
theorem pieces_append {piece rest : Str} (hne : piece ≠ []) (hp : ∀ c ∈ piece, c ≠ slash)
    (hr : rest = [] ∨ ∃ cs, rest = slash :: cs) : pieces (piece ++ rest) = piece :: pieces rest := by
  have hall : ∀ c ∈ piece, decide (c = slash) = false := fun c hc => by simpa using hp c hc
  rcases hr with rfl | ⟨cs, rfl⟩
  · rw [pieces, List.append_nil, List.splitOnP_eq_singleton hall]
    simp [pieces, hne]
  · rw [pieces, List.splitOnP_append_cons_of_forall_mem hall slash (by simp) cs,
      List.filter_cons_of_pos (by simpa using hne), pieces_slash]
    rfl

/-- The first piece of a path that does not begin with a slash. -/
theorem pieces_cons {c : UInt8} {cs : Str} (hc : c ≠ slash) :
    pieces (c :: cs) = (c :: cs).takeWhile (· ≠ slash) :: pieces ((c :: cs).dropWhile (· ≠ slash)) := by
  have happ := List.takeWhile_append_dropWhile (p := (· ≠ slash)) (l := c :: cs)
  rw [← pieces_append, happ]
  · simp [hc]
  · intro x hx
    simpa using List.mem_takeWhile_imp hx
  · cases hd : (c :: cs).dropWhile (· ≠ slash) with
    | nil => exact .inl rfl
    | cons x xs =>
        have := not_of_dropWhile hd
        obtain rfl : x = slash := by simpa using this
        exact .inr ⟨xs, rfl⟩

/-- One call of `skipelem` takes off one piece, with the slashes around it. -/
theorem skipelem_pieces (path : Str) :
    (skipelem path = none ∧ pieces path = []) ∨ ∃ piece rest,
      skipelem path = some (piece.take DIRSIZ, rest) ∧ pieces path = piece :: pieces rest ∧
        (rest = [] ↔ pieces rest = []) := by
  rw [← pieces_dropWhile]
  unfold skipelem
  cases hp : path.dropWhile (· = slash) with
  | nil => exact .inl ⟨rfl, rfl⟩
  | cons c cs =>
      have hc : c ≠ slash := by simpa using not_of_dropWhile hp
      refine .inr ⟨_, _, rfl, ?_, ?_⟩
      · rw [pieces_dropWhile, pieces_cons hc]
      · cases hr : ((c :: cs).dropWhile (· ≠ slash)).dropWhile (· = slash) with
        | nil => simp [pieces]
        | cons x xs =>
            have hx : x ≠ slash := by simpa using not_of_dropWhile hr
            rw [pieces_cons hx]
            simp

/-- The elements of a path are the pieces between its slashes, cut to `DIRSIZ`. -/
theorem elemsUpTo_eq (n : ℕ) : ∀ path : Str, path.length ≤ n →
    elemsUpTo n path = (pieces path).map (·.take DIRSIZ) := by
  induction n with
  | zero =>
      intro path h
      obtain rfl := List.length_eq_zero_iff.mp (Nat.le_zero.mp h)
      rfl
  | succ n ih =>
      intro path h
      rw [elemsUpTo]
      rcases skipelem_pieces path with ⟨hs, hp⟩ | ⟨piece, rest, hs, hp, -⟩
      · rw [hs, hp]
        rfl
      · obtain ⟨elem, hne, -, -, -, hlen⟩ := skipelem_spec hs
        have := List.length_pos_iff.mpr hne
        rw [hs, hp, List.map_cons]
        exact congrArg _ (ih rest (by omega))

/-- **The elements of a path** are what stands between its slashes, cut to `DIRSIZ` bytes. -/
theorem elems_eq_pieces (path : Str) : elems path = (pieces path).map (·.take DIRSIZ) :=
  elemsUpTo_eq _ path le_rfl

/-- `skipelem` takes the first element. -/
theorem skipelem_elems {path name rest : Str} (h : skipelem path = some (name, rest)) :
    elems path = name :: elems rest ∧ (rest = [] ↔ elems rest = []) := by
  rcases skipelem_pieces path with ⟨hs, -⟩ | ⟨piece, rest', hs, hp, hr⟩
  · rw [hs] at h
    cases h
  · rw [hs] at h
    obtain ⟨rfl, rfl⟩ := Prod.mk.inj (Option.some.inj h)
    rw [elems_eq_pieces, hp, elems_eq_pieces, hr, List.map_eq_nil_iff]
    exact ⟨rfl, Iff.rfl⟩

theorem elems_of_skipelem_none {path : Str} (h : skipelem path = none) : elems path = [] := by
  rcases skipelem_pieces path with ⟨-, hp⟩ | ⟨piece, rest, hs, -⟩
  · rw [elems_eq_pieces, hp]
    rfl
  · rw [h] at hs
    cases hs

/-! ### Walks -/

/-- The inode that `names` lead to from `i`. -/
def walk (N : Inum → Node) : Inum → List Str → Option Inum
  | i, [] => some i
  | i, name :: names =>
      if (N i).type = T_DIR then ((N i).lookup name).bind (walk N · names) else none

/-- The directory that holds the last of `names`, from `i`, and that name. -/
def walkParent (N : Inum → Node) : Inum → List Str → Option (Inum × Str)
  | _, [] => none
  | i, name :: names =>
      if (N i).type = T_DIR then
        if names = [] then some (i, name) else ((N i).lookup name).bind (walkParent N · names)
      else none

/-- Where a path starts. -/
def start (cwd : Inum) (path : Str) : Inum := if deref path = slash then ROOTINO else cwd

variable {N : Inum → Node} {i : Inum} {names : List Str} {name : Str}

/-- A walk in two parts. -/
theorem walk_append (names names' : List Str) :
    walk N i (names ++ names') = (walk N i names).bind (walk N · names') := by
  induction names generalizing i with
  | nil => rfl
  | cons name names ih =>
      simp only [List.cons_append, walk]
      split
      · cases (N i).lookup name with
        | none => rfl
        | some j => exact ih
      · rfl

/-- The walk of a path ends in its last directory. -/
theorem walkParent_append (names : List Str) (name : Str) :
    walkParent N i (names ++ [name]) =
      (walk N i names).bind fun d => if (N d).type = T_DIR then some (d, name) else none := by
  induction names generalizing i with
  | nil => simp [walk, walkParent]
  | cons n names ih =>
      simp only [List.cons_append, walkParent, walk]
      split
      · rw [if_neg (by simp)]
        cases (N i).lookup n with
        | none => rfl
        | some j => exact ih
      · rfl

/-- The last step of a walk is a lookup in the parent. -/
theorem walk_of_walkParent {d : Inum} (h : walkParent N i names = some (d, name)) :
    walk N i names = (N d).lookup name := by
  rcases List.eq_nil_or_concat names with rfl | ⟨init, last, rfl⟩
  · cases h
  · rw [List.concat_eq_append] at h ⊢
    rw [walkParent_append] at h
    obtain ⟨d', hd', h⟩ := Option.bind_eq_some_iff.mp h
    split at h
    · rename_i hdir
      obtain ⟨rfl, rfl⟩ := Prod.mk.inj (Option.some.inj h)
      rw [walk_append, hd']
      simp [walk, hdir]
    · cases h

/-! ### The rules -/

/-- What the loop of `namex` finds. -/
def reach (N : Inum → Node) (nameiparent : Bool) : Inum → List Str → Str → Option (Inum × Str)
  | i, [], name => if nameiparent then none else some (i, name)
  | i, name :: names, _ =>
      if (N i).type = T_DIR then
        if nameiparent ∧ names = [] then some (i, name)
        else ((N i).lookup name).bind fun j => reach N nameiparent j names name
      else none

/-- `namei` goes all the way. -/
theorem reach_false (i : Inum) (names : List Str) (name : Str) :
    (reach N false i names name).map Prod.fst = walk N i names := by
  induction names generalizing i name with
  | nil => rfl
  | cons n names ih =>
      simp only [reach, walk]
      split
      · rw [if_neg (by simp)]
        cases (N i).lookup n with
        | none => rfl
        | some j => exact ih j n
      · rfl

/-- `nameiparent` stops one element early. -/
theorem reach_true (i : Inum) (names : List Str) (name : Str) :
    reach N true i names name = walkParent N i names := by
  induction names generalizing i name with
  | nil => rfl
  | cons n names ih =>
      simp only [reach, walkParent, true_and]
      split
      · split
        · rfl
        · cases (N i).lookup n with
          | none => rfl
          | some j => exact ih j n
      · rfl

/-- What a walk meets: the directories are well formed; it stops at an inode that is named but not
allocated. -/
structure Walkable (n : ℕ) (E : Stop → Prop) (N : Inum → Node) : Prop where
  dir : ∀ i, (N i).type = T_DIR → (N i).IsDir n
  dangling : ∀ d name i, (N d).type = T_DIR → (N d).lookup name = some i → (N i).type = 0 →
    E .ilockNoType

/-- Calls that hold `m` references more may find no cache entry left. -/
def Room (n : ℕ) (E : Stop → Prop) (R : Inum → ℕ) (held : List Inum) (m : ℕ) : Prop :=
  ∀ l : List Inum, l.length ≤ m → NINODE ≤ crowd n R (l ++ held) → E .igetNoInodes

namespace Room

variable {n m m' : ℕ} {E : Stop → Prop} {R : Inum → ℕ} {held : List Inum}

theorem none (h : Room n E R held m) : NINODE ≤ crowd n R held → E .igetNoInodes :=
  h [] (Nat.zero_le _)

theorem mono (h : Room n E R held m) (hm : m' ≤ m) : Room n E R held m' :=
  fun l hl => h l (hl.trans hm)

theorem push (h : Room n E R held (m + 1)) (i : Inum) : Room n E R (i :: held) m := by
  intro l hl hfull
  refine h (l ++ [i]) (by simpa using hl) ?_
  rwa [List.append_assoc, List.singleton_append]

end Room

namespace Holding

variable {n : ℕ} {devsw : Devsw} {E : Stop → Prop} {R : Inum → ℕ} {held held' locks : List Inum}
  {t : Flat}

theorem perm (h : Holding n N R held locks t) (hp : held.Perm held') :
    Holding n N R held' locks t :=
  ⟨h.node, fun i => by rw [h.ref, hp.count_eq], h.locked, h.range, h.coherent, h.inUse, h.unlinked,
    h.sizes⟩

/-- Other references keep every inode without links. -/
theorem kept (h : Holding n N R held locks t) (i : Inum) (ht : (N i).type ≠ 0)
    (hn : (N i).nlink = 0) : 0 < R i + held.count i := by
  rw [← h.ref]
  exact (h.unlinked i ht hn).1

/-- Nothing is freed while it is referred to. -/
theorem dropped_of_kept
    (hk : ∀ i, (N i).type ≠ 0 → (N i).nlink = 0 → 0 < R i + held.count i) (i : Inum) :
    dropped N (R i + held.count i) i = N := by
  refine if_neg ?_
  rintro ⟨ht, hn, h0⟩
  have := hk i ht hn
  rw [h0] at this
  exact lt_irrefl 0 this

/-- The end of `namex`. -/
theorem namexEnd (h : Holding n N R (i :: held) [] t) (b : Bool) (name : Str)
    (hk : ∀ i, (N i).type ≠ 0 → (N i).nlink = 0 → 0 < R i + held.count i) :
    Prog.wp (flatOps n devsw) E (namexEnd b i name) (fun r u => r = reach N b i [] name ∧
      Holding n N R ((r.map Prod.fst).toList ++ held) [] u) t := by
  cases b with
  | false => exact ⟨rfl, h⟩
  | true =>
      refine Prog.wp_seq (h.iput fun hm => absurd hm List.not_mem_nil) ?_
      rintro _ u ⟨-, hu⟩
      rw [dropped_of_kept hk] at hu
      exact ⟨rfl, hu⟩

/-- The loop of `namex`. -/
theorem namexLoop (hw : Walkable n E N) (hm : Room n E R held 1) (b : Bool)
    (hk : ∀ i, (N i).type ≠ 0 → (N i).nlink = 0 → 0 < R i + held.count i) (m : ℕ) :
    ∀ (i : Inum) (path name : Str) (t : Flat), path.length ≤ m → Holding n N R (i :: held) [] t →
      ((N i).type = 0 → E .ilockNoType) →
      Prog.wp (flatOps n devsw) E (namexLoop b m i path name) (fun r u =>
        r = reach N b i (elems path) name ∧
          Holding n N R ((r.map Prod.fst).toList ++ held) [] u) t := by
  -- The induction is on the length of the path that is left.
  induction m with
  | zero =>
      intro i path name t hlen h _
      obtain rfl := List.length_eq_zero_iff.mp (Nat.le_zero.mp hlen)
      exact h.namexEnd b name hk
  | succ m ih =>
      intro i path name t hlen h hz
      rw [Fs.namexLoop]
      cases hs : skipelem path with
      | none =>
          rw [elems_of_skipelem_none hs]
          exact h.namexEnd b name hk
      | some next =>
          obtain ⟨name', rest⟩ := next
          obtain ⟨helems, hrest⟩ := skipelem_elems hs
          obtain ⟨elem, hne, -, -, -, hshort⟩ := skipelem_spec hs
          have := List.length_pos_iff.mpr hne
          have hnot : i ∉ ([] : List Inum) := List.not_mem_nil
          rw [helems]
          dsimp only
          refine Prog.wp_seq (h.ilock (by rw [List.count_cons_self]; omega)
            (fun hm => absurd hm hnot) hz) ?_
          rintro _ u ⟨-, ht, hu⟩
          refine Prog.wp_seq (hu.attr (List.mem_cons_self ..)) ?_
          rintro a u ⟨rfl, rfl⟩
          have htype : (N i).attr.type = (N i).type := rfl
          rw [htype, reach]
          by_cases hdir : (N i).type = T_DIR
          · rw [if_neg (not_not.mpr hdir), if_pos hdir]
            by_cases hlast : b = true ∧ rest = []
            · -- The last element names no directory that `nameiparent` enters.
              rw [if_pos hlast, if_pos ⟨hlast.1, hrest.mp hlast.2⟩]
              refine Prog.wp_seq (hu.iunlock hnot) ?_
              intro _ v hv
              exact ⟨rfl, hv⟩
            · rw [if_neg hlast, if_neg fun hl => hlast ⟨hl.1, hrest.mpr hl.2⟩]
              refine Prog.wp_seq (hu.dirlookup (List.mem_cons_self ..) (hw.dir i hdir)
                (hm.push i).none name') ?_
              rintro r v ⟨rfl, hv⟩
              cases hf : (N i).find name' with
              | none =>
                  have hl : (N i).lookup name' = none := by rw [Node.lookup, hf]; rfl
                  rw [hl] at hv ⊢
                  refine Prog.wp_seq (Holding.iunlockput hv hnot) ?_
                  intro _ w hw'
                  rw [dropped_of_kept hk] at hw'
                  exact ⟨rfl, hw'⟩
              | some k =>
                  have hl : (N i).lookup name' = some ((N i).entry k).inum := by
                    rw [Node.lookup, hf]
                    rfl
                  rw [hl] at hv ⊢
                  have hswap := hv.perm (List.Perm.swap i _ held)
                  refine Prog.wp_seq (Holding.iunlockput hswap hnot) ?_
                  intro _ w hw'
                  -- The inode in the entry was in use already, or has links.
                  have hkeep : dropped N (R i + (((N i).entry k).inum :: held).count i) i = N := by
                    refine dropped_of_kept (fun j htj hnj => ?_) i
                    have := hk j htj hnj
                    rw [List.count_cons]
                    omega
                  rw [hkeep] at hw'
                  exact ih _ rest name' w (by omega) hw' (hw.dangling i name' _ hdir hl)
          · rw [if_pos hdir, if_neg hdir]
            refine Prog.wp_seq (hu.iunlockput hnot) ?_
            intro _ v hv
            rw [dropped_of_kept hk] at hv
            exact ⟨rfl, hv⟩

/-- `namex` returns what the walk over the tree reaches, and one reference to it. -/
theorem namex (h : Holding n N R held [] t) (hw : Walkable n E N) (hm : Room n E R held 1)
    {cwd : Inum} (hcwd : 0 < R cwd + held.count cwd) (hroot : ROOTINO < n)
    (path : Str) (hs : (N (start cwd path)).type = 0 → E .ilockNoType) (b : Bool) :
    Prog.wp (flatOps n devsw) E (namex cwd path b) (fun r u =>
      r = reach N b (start cwd path) (elems path) [] ∧
        Holding n N R ((r.map Prod.fst).toList ++ held) [] u) t := by
  have hloop : ∀ i u, i = start cwd path ∧ Holding n N R (i :: held) [] u →
      Prog.wp (flatOps n devsw) E (Fs.namexLoop b path.length i path []) (fun r u =>
        r = reach N b (start cwd path) (elems path) [] ∧
          Holding n N R ((r.map Prod.fst).toList ++ held) [] u) u := by
    rintro _ u ⟨rfl, hu⟩
    exact namexLoop hw hm b h.kept path.length _ path [] u le_rfl hu hs
  rw [Fs.namex]
  dsimp only
  split
  · rename_i habs
    refine Prog.wp_seq (h.iget ROOTINO (fun hle => absurd hroot (not_lt.mpr hle)) hm.none) ?_
    rintro r u ⟨rfl, hu⟩
    exact hloop _ u ⟨(if_pos habs).symm, hu⟩
  · rename_i hrel
    refine Prog.wp_seq (h.idup hcwd) ?_
    rintro r u ⟨rfl, hu⟩
    exact hloop _ u ⟨(if_neg hrel).symm, hu⟩

/-- **`namei`** finds the inode that the elements of the path lead to. -/
theorem namei (h : Holding n N R held [] t) (hw : Walkable n E N) (hm : Room n E R held 1)
    {cwd : Inum} (hcwd : 0 < R cwd + held.count cwd) (hroot : ROOTINO < n)
    (path : Str) (hs : (N (start cwd path)).type = 0 → E .ilockNoType) :
    Prog.wp (flatOps n devsw) E (namei cwd path) (fun r u =>
      r = walk N (start cwd path) (elems path) ∧ Holding n N R (r.toList ++ held) [] u) t := by
  refine Prog.wp_seq (h.namex hw hm hcwd hroot path hs false) ?_
  rintro r u ⟨rfl, hu⟩
  rw [reach_false] at hu
  exact ⟨reach_false .., by rw [reach_false]; exact hu⟩

/-- **`nameiparent`** finds the directory of the last element of the path. -/
theorem nameiparent (h : Holding n N R held [] t) (hw : Walkable n E N) (hm : Room n E R held 1)
    {cwd : Inum} (hcwd : 0 < R cwd + held.count cwd) (hroot : ROOTINO < n)
    (path : Str) (hs : (N (start cwd path)).type = 0 → E .ilockNoType) :
    Prog.wp (flatOps n devsw) E (nameiparent cwd path) (fun r u =>
      r = walkParent N (start cwd path) (elems path) ∧
        Holding n N R ((r.map Prod.fst).toList ++ held) [] u) t := by
  refine Prog.wp_mono (h.namex hw hm hcwd hroot path hs true) ?_
  rintro r u ⟨rfl, hu⟩
  rw [reach_true] at hu ⊢
  exact ⟨rfl, hu⟩

end Holding

end Xv6.Fs

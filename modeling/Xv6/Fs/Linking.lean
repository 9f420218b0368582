import Xv6.Fs.Tree

/-!
# File system — `sys_link` and `sys_unlink` on the tree

The rules of the two calls, for the state between calls: the name that is added or taken away, the
counts of links, and the inodes that are freed.

* `Linked`, `Unlinked` — what the calls return, and the trees they leave.
* `Holding.sys_link`, `Holding.sys_unlink` — the rules.
-/

namespace Xv6.Fs

open Lib

variable {N N' : Inum → Node} {dp ip i j k : Inum} {name : Str} {names names' : List Str}

/-- A walk depends on the types and the contents only. -/
theorem walkParent_congr (ht : ∀ i, (N' i).type = (N i).type) (hb : ∀ i, (N' i).bytes = (N i).bytes) :
    walkParent N' = walkParent N := by
  funext i names
  induction names generalizing i with
  | nil => rfl
  | cons name names ih =>
      simp only [walkParent, ht, Node.lookup_congr (hb i)]
      congr 3
      exact funext ih

/-! ### The trees after a call -/

/-- The tree with one more name of `ip`. -/
def linkIn (N : Inum → Node) (dp ip : Inum) (name : Str) : Inum → Node :=
  Function.update (Function.update N ip ((N ip).link 1)) dp ((N dp).add name ip)

/-- The link can be made: the file is there, and its new name is not. -/
structure Linkable (N : Inum → Node) (i : Inum) (names : List Str) (j : Inum) (names' : List Str)
    (ip dp : Inum) (name : Str) : Prop where
  old : walk N i names = some ip
  file : (N ip).type ≠ T_DIR
  allocated : (N ip).type ≠ 0
  new : walkParent N j names' = some (dp, name)
  free : (N dp).lookup name = none

/-- What `sys_link` returns, and the tree it leaves. -/
inductive Linked (N : Inum → Node) (i : Inum) (names : List Str) (j : Inum) (names' : List Str) :
    ℤ → (Inum → Node) → Prop
  | refused (h : ∀ ip dp name, ¬ Linkable N i names j names' ip dp name) :
      Linked N i names j names' (-1) N
  | linked {ip dp : Inum} {name : Str} (h : Linkable N i names j names' ip dp name) :
      Linked N i names j names' 0 (linkIn N dp ip name)

/-- The directory without entry `k`; the `".."` of a directory was a link to it. -/
def unlinkParent (nd : Node) (k : ℕ) (type : ℤ) : Node :=
  if type = T_DIR then (nd.remove k).link (-1) else nd.remove k

/-- The tree without entry `k` of `dp`, where every inode has `refs` references. -/
def unlinkIn (N : Inum → Node) (refs : Inum → ℕ) (dp k : Inum) : Inum → Node :=
  let ip := ((N dp).entry k).inum
  let N₁ := Function.update N dp (unlinkParent (N dp) k (N ip).type)
  let N₂ := dropped N₁ (refs dp) dp
  dropped (Function.update N₂ ip ((N₂ ip).link (-1))) (refs ip) ip

/-- Nothing but the first two entries. -/
def Node.Empty (nd : Node) : Prop := ∀ j, 2 ≤ j → j < nd.slots → (nd.entry j).inum = 0

/-- The name can be taken away: it is that of a file or of an empty directory. -/
structure Unlinkable (N : Inum → Node) (i : Inum) (names : List Str) (dp : Inum) (name : Str) (k : ℕ) :
    Prop where
  parent : walkParent N i names = some (dp, name)
  notDot : namecmp name dot ≠ 0
  notDotdot : namecmp name dotdot ≠ 0
  find : (N dp).find name = some k
  other : ((N dp).entry k).inum ≠ dp
  empty : (N ((N dp).entry k).inum).type = T_DIR → (N ((N dp).entry k).inum).Empty

/-- What `sys_unlink` returns, and the tree it leaves. -/
inductive Unlinked (N : Inum → Node) (refs : Inum → ℕ) (i : Inum) (names : List Str) :
    ℤ → (Inum → Node) → Prop
  | refused (h : ∀ dp name k, ¬ Unlinkable N i names dp name k) : Unlinked N refs i names (-1) N
  | unlinked {dp : Inum} {name : Str} {k : ℕ} (h : Unlinkable N i names dp name k) :
      Unlinked N refs i names 0 (unlinkIn N refs dp k)

section

variable {n : ℕ} {E : Stop → Prop} {R : Inum → ℕ} {held : List Inum} {cwd : Inum} {path : Str}

theorem link_type (ip : Inum) (d : ℤ) (i : Inum) :
    (Function.update N ip ((N ip).link d) i).type = (N i).type := by
  by_cases hi : i = ip
  · subst hi
    rw [Function.update_self]
    rfl
  · rw [Function.update_of_ne hi]

theorem link_bytes (ip : Inum) (d : ℤ) (i : Inum) :
    (Function.update N ip ((N ip).link d) i).bytes = (N i).bytes := by
  by_cases hi : i = ip
  · subst hi
    rw [Function.update_self]
    rfl
  · rw [Function.update_of_ne hi]

theorem Walkable.congr (h : Walkable n E N) (ht : ∀ i, (N' i).type = (N i).type)
    (hb : ∀ i, (N' i).bytes = (N i).bytes) : Walkable n E N' := by
  refine ⟨fun i hi => ?_, fun d name i hd hl hz => ?_⟩
  · exact (h.dir i ((ht i).symm.trans hi)).congr (ht i) (hb i)
  · rw [ht] at hd hz
    rw [Node.lookup_congr (hb d)] at hl
    exact h.dangling d name i hd hl hz

/-- Where a walk leads to an inode that is not allocated, the name of it is dangling. -/
theorem Walkable.walked (h : Walkable n E N) (hi : (N i).type = 0 → E .ilockNoType)
    (hw : walk N i names = some ip) : (N ip).type = 0 → E .ilockNoType := by
  induction names generalizing i with
  | nil =>
      obtain rfl : i = ip := Option.some.inj hw
      exact hi
  | cons name names ih =>
      rw [walk] at hw
      split at hw
      · rename_i hdir
        obtain ⟨j, hj, hw⟩ := Option.bind_eq_some_iff.mp hw
        exact ih (h.dangling i name j hdir hj) hw
      · cases hw

/-- A walk ends at an inode of the disk. -/
theorem Walkable.walk_lt (h : Walkable n E N) (hi : i < n) (hw : walk N i names = some ip) :
    ip < n := by
  induction names generalizing i with
  | nil =>
      obtain rfl : i = ip := Option.some.inj hw
      exact hi
  | cons name names ih =>
      rw [walk] at hw
      split at hw
      · rename_i hdir
        obtain ⟨j, hj, hw⟩ := Option.bind_eq_some_iff.mp hw
        exact ih (Node.lookup_lt (h.dir i hdir) hj).1 hw
      · cases hw

/-- A walk ends in a directory of the disk. -/
theorem Walkable.walkParent_lt (h : Walkable n E N) (hi : i < n)
    (hw : walkParent N i names = some (dp, name)) : dp < n := by
  rcases List.eq_nil_or_concat names with rfl | ⟨init, last, rfl⟩
  · cases hw
  · rw [List.concat_eq_append, walkParent_append] at hw
    obtain ⟨d, hd, hw⟩ := Option.bind_eq_some_iff.mp hw
    split at hw
    · obtain ⟨rfl, -⟩ := Prod.mk.inj (Option.some.inj hw)
      exact h.walk_lt hi hd
    · cases hw

/-- One link more does not matter to the walk of a path. -/
theorem Callable.link (h : Callable n E N R held cwd path) (ip : Inum) :
    Callable n E (Function.update N ip ((N ip).link 1)) R (ip :: held) cwd path := by
  refine ⟨h.walkable.congr (link_type ip 1) (link_bytes ip 1), h.small, h.root, ?_,
    fun hz => h.start ((link_type ip 1 _).symm.trans hz)⟩
  have := h.current
  rw [List.count_cons]
  omega

end

namespace Holding

variable {n : ℕ} {devsw : Devsw} {E : Stop → Prop} {R : Inum → ℕ} {held locks : List Inum}
  {t : Flat} {cwd : Inum} {old new path : Str}

theorem end_op_pure {α : Type} {a : α} {Q : α → Flat → Prop} (h : Holding n N R held locks t)
    (hQ : ∀ u, Holding n N R held locks u → Q a u) : Prog.wp (flatOps n devsw) E (do
      Fs.end_op
      pure a) Q t :=
  Prog.wp_seq h.end_op fun _ u hu => hQ u hu

/-- The link count goes back to what it was. -/
theorem cleanupsyslink
    (h : Holding n (Function.update N ip ((N ip).link 1)) R (ip :: held) [] t)
    (hlinks : (N ip).Counted) (ht : (N ip).type ≠ 0)
    (hkeep : (N ip).nlink = 0 → 0 < R ip + held.count ip) :
    Prog.wp (flatOps n devsw) E (cleanupsyslink ip) (fun _ u => Holding n N R held [] u) t := by
  have htype : (Function.update N ip ((N ip).link 1) ip).type ≠ 0 := by
    rw [Function.update_self]
    exact ht
  refine Prog.wp_seq (h.ilock (by rw [List.count_cons_self]; omega)
    (fun hm => absurd hm List.not_mem_nil) fun hz => absurd hz htype) ?_
  rintro _ u ⟨-, -, hu⟩
  refine Prog.wp_seq (hu.addLink (List.mem_cons_self ..) (-1)) ?_
  intro _ v hv
  have hback : Function.update (Function.update N ip ((N ip).link 1)) ip
      { Function.update N ip ((N ip).link 1) ip with
        nlink := short ((Function.update N ip ((N ip).link 1) ip).nlink + -1) } = N := by
    rw [Function.update_idem, Function.update_self, hlinks.short_back]
    exact Function.update_eq_self ip N
  rw [hback] at hv
  refine Prog.wp_seq (hv.iunlockput List.not_mem_nil) ?_
  intro _ w hw
  rw [dropped_of_pos hkeep] at hw
  exact hw.end_op

/-- The second half of `sys_link`: the inode has one link more, and is to get its name. -/
theorem linkName (h : Holding n (Function.update N ip ((N ip).link 1)) R (ip :: held) [] t)
    (hc : Callable n E N R held cwd new) (hlinks : ∀ i, (N i).Counted) (hr : Room n E R held 2)
    (hold : walk N i names = some ip) (hfile : (N ip).type ≠ T_DIR) (ht : (N ip).type ≠ 0)
    (hkept : ∀ i, (N i).type ≠ 0 → (N i).nlink = 0 → 0 < R i + held.count i)
    (hself : ∀ dp name, walkParent N (start cwd new) (elems new) = some (dp, name) →
      (N dp).lookup name = some dp → E .blocked)
    (hlong : ∀ dp name, walkParent N (start cwd new) (elems new) = some (dp, name) →
      Long (N dp) name → E (.call .dirlink)) :
    Prog.wp (flatOps n devsw) E (do
      match ← Fs.nameiparent cwd new with
      | none =>
          Fs.cleanupsyslink ip
          pure (-1)
      | some (dp, name) =>
          Fs.ilock dp
          if (← Fs.dirlink dp name ip) < 0 then
            Fs.iunlockput dp
            Fs.cleanupsyslink ip
            pure (-1)
          else
            Fs.iunlockput dp
            Fs.iput ip
            Fs.end_op
            pure 0) (fun (r : ℤ) u =>
      ∃ N', Linked N i names (start cwd new) (elems new) r N' ∧ Holding n N' R held [] u) t := by
  have hno : ∀ {i : Inum}, i ∉ ([] : List Inum) := List.not_mem_nil
  have hwalk := walkParent_congr (link_type (N := N) ip 1) (link_bytes ip 1)
  have hc' := hc.link ip
  refine Prog.wp_seq (h.nameiparent hc'.walkable (hr.push ip) hc'.current hc'.root new hc'.start) ?_
  rintro r u ⟨rfl, hu⟩
  rw [hwalk] at hu ⊢
  cases hp : walkParent N (start cwd new) (elems new) with
  | none =>
      rw [hp] at hu
      refine Prog.wp_seq (Holding.cleanupsyslink hu (hlinks ip) ht (hkept ip ht)) ?_
      intro _ v hv
      refine ⟨N, .refused fun ip dp name hl => ?_, hv⟩
      cases hp.symm.trans hl.new
  | some parent =>
      obtain ⟨dp, name⟩ := parent
      rw [hp] at hu
      have hu : Holding n _ R (dp :: ip :: held) [] u := hu
      have hdir := walkParent_dir hp
      have hdt : (N dp).type ≠ 0 := by
        rw [hdir]
        decide
      -- No directory is linked, so the parent is another inode.
      have hne : dp ≠ ip := by
        rintro rfl
        exact hfile hdir
      have hdp : Function.update N ip ((N ip).link 1) dp = N dp := Function.update_of_ne hne ..
      have hisdir := hc.walkable.dir dp hdir
      have hkdp : (N dp).nlink = 0 → 0 < R dp + (ip :: held).count dp := fun hn => by
        have := hkept dp hdt hn
        rw [List.count_cons]
        omega
      refine Prog.wp_seq (hu.ilock (by rw [List.count_cons_self]; omega) (fun hm => absurd hm hno)
        (by rw [hdp]; exact fun hz => absurd hz hdt)) ?_
      rintro _ v ⟨-, -, hv⟩
      -- The two results of `dirlink`: with -1 the link is taken back.
      refine Prog.wp_seq (hv.dirlink (List.mem_cons_self ..) (by rwa [hdp])
        ((hr.push ip).push dp).none ?_ ?_ ip) ?_
      · rw [hdp]
        intro j hj hm
        rw [List.mem_singleton] at hm
        subst hm
        exact hself j name hp hj
      · rw [hdp]
        exact fun hn hbig => hlong dp name hp ⟨hn, hbig⟩
      rw [hdp]
      rintro r w (⟨hfound, rfl, hw⟩ | ⟨hfree, rfl, hw⟩)
      · rw [if_pos (by decide)]
        refine Prog.wp_seq (hw.iunlockput hno) ?_
        intro _ x hx
        rw [dropped_of_pos (by rwa [hdp])] at hx
        refine Prog.wp_seq (Holding.cleanupsyslink hx (hlinks ip) ht (hkept ip ht)) ?_
        intro _ y hy
        refine ⟨N, .refused fun ip' dp' name' hl => ?_, hy⟩
        obtain ⟨rfl, rfl⟩ := Prod.mk.inj (Option.some.inj (hp.symm.trans hl.new))
        exact hfound (Node.lookup_eq_none.mp hl.free)
      · rw [if_neg (by decide)]
        refine Prog.wp_seq (hw.iunlockput hno) ?_
        intro _ x hx
        rw [dropped_of_pos (by rw [Function.update_self]; exact hkdp)] at hx
        refine Prog.wp_seq (hx.iput fun hm => absurd hm hno) ?_
        rintro _ y ⟨-, hy⟩
        rw [dropped_of_pos] at hy
        · exact hy.end_op_pure fun z hz =>
            ⟨_, .linked ⟨hold, hfile, ht, hp, Node.lookup_eq_none.mpr hfree⟩, hz⟩
        · rw [Function.update_of_ne hne.symm, Function.update_self]
          exact fun hn => absurd hn (hlinks ip).link_ne_zero

/-- **`sys_link`** adds a name of a file.  It waits for ever where that name is `"."`, or another
name of the directory itself. -/
theorem sys_link (h : Holding n N R held [] t) (hold : Callable n E N R held cwd old)
    (hnew : Callable n E N R held cwd new) (hlinks : ∀ i, (N i).Counted) (hr : Room n E R held 2)
    (hself : ∀ dp name, walkParent N (start cwd new) (elems new) = some (dp, name) →
      (N dp).lookup name = some dp → E .blocked)
    (hlong : ∀ dp name, walkParent N (start cwd new) (elems new) = some (dp, name) →
      Long (N dp) name → E (.call .dirlink)) :
    Prog.wp (flatOps n devsw) E (sys_link cwd old new) (fun r u =>
      ∃ N', Linked N (start cwd old) (elems old) (start cwd new) (elems new) r N' ∧
        Holding n N' R held [] u) t := by
  have hno : ∀ {i : Inum}, i ∉ ([] : List Inum) := List.not_mem_nil
  refine Prog.wp_seq h.begin_op ?_
  intro _ u hu
  refine Prog.wp_seq (hu.namei hold.walkable (hr.mono (by decide)) hold.current hold.root old
    hold.start) ?_
  rintro r v ⟨rfl, hv⟩
  cases hw : walk N (start cwd old) (elems old) with
  | none =>
      rw [hw] at hv
      refine hv.end_op_pure fun w hw' => ⟨N, .refused fun ip dp name hl => ?_, hw'⟩
      cases hw.symm.trans hl.old
  | some ip =>
      rw [hw] at hv
      have hv : Holding n N R (ip :: held) [] v := hv
      refine Prog.wp_seq (hv.ilock (by rw [List.count_cons_self]; omega) (fun hm => absurd hm hno)
        (hold.walkable.walked hold.start hw)) ?_
      rintro _ w ⟨-, ht, hw'⟩
      refine Prog.wp_seq (hw'.attr (List.mem_cons_self ..)) ?_
      rintro a w ⟨rfl, rfl⟩
      by_cases hdir : (N ip).attr.type = T_DIR
      · rw [if_pos hdir]
        refine Prog.wp_seq (hw'.iunlockput hno) ?_
        intro _ x hx
        rw [dropped_of_kept h.kept] at hx
        refine hx.end_op_pure fun y hy => ⟨N, .refused fun ip' dp name hl => ?_, hy⟩
        obtain rfl := Option.some.inj (hw.symm.trans hl.old)
        exact hl.file hdir
      · rw [if_neg hdir]
        refine Prog.wp_seq (hw'.addLink (List.mem_cons_self ..) 1) ?_
        intro _ x hx
        refine Prog.wp_seq (hx.iunlock hno) ?_
        intro _ y hy
        exact linkName hy hnew hlinks hr hw hdir ht h.kept hself hlong

/-- The two inodes of `sys_unlink` are put back, the directory first. -/
theorem unlinkEnd {x : Node} (h : Holding n (Function.update N dp x) R (ip :: dp :: held) [ip, dp] t)
    (hne : ip ≠ dp) :
    Prog.wp (flatOps n devsw) E (do
      Fs.iunlockput dp
      Fs.addLink ip (-1)
      Fs.iunlockput ip
      Fs.end_op
      pure (0 : ℤ)) (fun r u => r = 0 ∧
        Holding n (dropped (Function.update (dropped (Function.update N dp x)
            (R dp + held.count dp) dp) ip
          ((dropped (Function.update N dp x) (R dp + held.count dp) dp ip).link (-1)))
          (R ip + held.count ip) ip) R held [] u) t := by
  have h := (h.perm (List.Perm.swap dp ip held)).permLocks (List.Perm.swap dp ip [])
  refine Prog.wp_seq (h.iunlockput (by simpa using hne.symm)) ?_
  intro _ u hu
  rw [List.count_cons_of_ne hne] at hu
  refine Prog.wp_seq (hu.addLink (List.mem_cons_self ..) (-1)) ?_
  intro _ v hv
  refine Prog.wp_seq (hv.iunlockput List.not_mem_nil) ?_
  intro _ w hw
  exact hw.end_op_pure fun y hy => ⟨rfl, hy⟩

/-- From the test of `isdirempty` on. -/
theorem unlinking {empty : Bool} {k : ℕ} (h : Holding n N R (ip :: dp :: held) [ip, dp] t)
    (hd : (N dp).IsDir n) (hk : k < (N dp).slots) (hne : ip ≠ dp)
    (hip : ((N dp).entry k).inum = ip)
    (hkept : ∀ i, (N i).type ≠ 0 → (N i).nlink = 0 → 0 < R i + held.count i) :
    Prog.wp (flatOps n devsw) E (do
      if ¬ empty then
        Fs.iunlockput ip
        Fs.iunlockput dp
        Fs.end_op
        pure (-1 : ℤ)
      else
        Fs.writeDirent .unlinkWritei dp (DESIZE * k) Dirent.zero
        if (N ip).type = T_DIR then Fs.addLink dp (-1)
        Fs.iunlockput dp
        Fs.addLink ip (-1)
        Fs.iunlockput ip
        Fs.end_op
        pure 0) (fun r u => (empty = false ∧ r = -1 ∧ Holding n N R held [] u) ∨
          (empty = true ∧ r = 0 ∧
            Holding n (unlinkIn N (fun i => R i + held.count i) dp k) R held [] u)) t := by
  cases empty with
  | false =>
      rw [if_pos Bool.false_ne_true]
      refine Prog.wp_seq (h.iunlockput (by simpa using hne)) ?_
      intro _ u hu
      have hback : dropped N (R ip + (dp :: held).count ip) ip = N := by
        rw [List.count_cons_of_ne hne.symm]
        exact dropped_of_kept hkept ip
      rw [hback] at hu
      refine Prog.wp_seq (hu.iunlockput List.not_mem_nil) ?_
      intro _ v hv
      rw [dropped_of_kept hkept] at hv
      exact hv.end_op_pure fun w hw => .inl ⟨rfl, rfl, hw⟩
  | true =>
      rw [if_neg (by decide)]
      have hsize := h.sizes dp
      have hlen := hd.aligned.length_eq
      refine Prog.wp_seq (h.writeDirent (by simp) hd hk.le (by simp [Dirent.zero]) fun hbig => ?_) ?_
      · simp only [MAXFILE, NDIRECT, NINDIRECT, BSIZE, DESIZE, DIRSIZ] at *
        omega
      intro _ u hu
      have hu : Holding n (Function.update N dp ((N dp).remove k)) R (ip :: dp :: held) [ip, dp] u := hu
      -- A directory takes its `..` with it, a link of the parent.
      by_cases htype : (N ip).type = T_DIR
      · rw [if_pos htype]
        refine Prog.wp_seq (hu.addLink (by simp) (-1)) ?_
        intro _ v hv
        rw [Function.update_idem, Function.update_self] at hv
        refine Prog.wp_mono (unlinkEnd hv hne) ?_
        rintro r w ⟨rfl, hw⟩
        refine .inr ⟨rfl, rfl, ?_⟩
        subst hip
        rw [unlinkIn, unlinkParent, if_pos htype]
        exact hw
      · rw [if_neg htype]
        refine Prog.wp_mono (unlinkEnd hu hne) ?_
        rintro r w ⟨rfl, hw⟩
        refine .inr ⟨rfl, rfl, ?_⟩
        subst hip
        rw [unlinkIn, unlinkParent, if_neg htype]
        exact hw

/-- **`sys_unlink`** takes a name away, with the inode where it was the last.  It waits for ever
where a name other than the dots is that of the directory itself. -/
theorem sys_unlink (h : Holding n N R held [] t) (hc : Callable n E N R held cwd path)
    (hr : Room n E R held 2)
    (hself : ∀ dp name, walkParent N (start cwd path) (elems path) = some (dp, name) →
      (N dp).lookup name = some dp → E .blocked)
    (hlinks : ∀ dp name ip, walkParent N (start cwd path) (elems path) = some (dp, name) →
      (N dp).lookup name = some ip → (N ip).nlink < 1 → E (.call .unlinkNlink)) :
    Prog.wp (flatOps n devsw) E (sys_unlink cwd path) (fun r u =>
      ∃ N', Unlinked N (fun i => R i + held.count i) (start cwd path) (elems path) r N' ∧
        Holding n N' R held [] u) t := by
  have hno : ∀ {i : Inum}, i ∉ ([] : List Inum) := List.not_mem_nil
  refine Prog.wp_seq h.begin_op ?_
  intro _ u hu
  refine Prog.wp_seq (hu.nameiparent hc.walkable (hr.mono (by decide)) hc.current hc.root path
    hc.start) ?_
  rintro r v ⟨rfl, hv⟩
  cases hp : walkParent N (start cwd path) (elems path) with
  | none =>
      rw [hp] at hv
      refine hv.end_op_pure fun w hw => ⟨N, .refused fun dp name k hl => ?_, hw⟩
      cases hp.symm.trans hl.parent
  | some parent =>
      obtain ⟨dp, name⟩ := parent
      rw [hp] at hv
      have hv : Holding n N R (dp :: held) [] v := hv
      have hdir := walkParent_dir hp
      have hisdir := hc.walkable.dir dp hdir
      have hdt : (N dp).type ≠ 0 := by
        rw [hdir]
        decide
      -- What the parent and the name are of what could be unlinked.
      have hsame : ∀ {dp' name' k}, Unlinkable N (start cwd path) (elems path) dp' name' k →
          dp' = dp ∧ name' = name := fun hl => by
        obtain ⟨rfl, rfl⟩ := Prod.mk.inj (Option.some.inj (hp.symm.trans hl.parent))
        exact ⟨rfl, rfl⟩
      refine Prog.wp_seq (hv.ilock (by rw [List.count_cons_self]; omega) (fun hm => absurd hm hno)
        fun hz => absurd hz hdt) ?_
      rintro _ w ⟨-, -, hw⟩
      -- `.` and `..` are refused, with the parent locked.
      by_cases hdots : namecmp name dot = 0 ∨ namecmp name dotdot = 0
      · rw [if_pos hdots]
        refine Prog.wp_seq (hw.iunlockput hno) ?_
        intro _ x hx
        rw [dropped_of_kept h.kept] at hx
        refine hx.end_op_pure fun y hy => ⟨N, .refused fun dp' name' k hl => ?_, hy⟩
        obtain ⟨rfl, rfl⟩ := hsame hl
        exact hdots.elim hl.notDot hl.notDotdot
      rw [if_neg hdots]
      refine Prog.wp_seq (hw.dirlookup (List.mem_cons_self ..) hisdir
        ((hr.push dp).mono (Nat.zero_le _)).none name) ?_
      rintro r x ⟨rfl, hx⟩
      cases hf : (N dp).find name with
      | none =>
          rw [Node.lookup_eq_none.mpr hf] at hx
          refine Prog.wp_seq (Holding.iunlockput hx hno) ?_
          intro _ y hy
          rw [dropped_of_kept h.kept] at hy
          refine hy.end_op_pure fun z hz => ⟨N, .refused fun dp' name' k hl => ?_, hz⟩
          obtain ⟨rfl, rfl⟩ := hsame hl
          cases hf.symm.trans hl.find
      | some k =>
          have hl : (N dp).lookup name = some ((N dp).entry k).inum := by
            rw [Node.lookup, hf]
            rfl
          rw [hl] at hx
          generalize hip : ((N dp).entry k).inum = ip at hl hx
          have hx : Holding n N R (ip :: dp :: held) [dp] x := hx
          simp only [Option.map_some, hip]
          refine Prog.wp_seq (hx.ilock (by rw [List.count_cons_self]; omega) (fun hm => ?_)
            (hc.walkable.dangling dp name ip hdir hl)) ?_
          · rw [List.mem_singleton] at hm
            exact hself dp name hp (hm ▸ hl)
          rintro _ y ⟨hne, -, hy⟩
          rw [List.mem_singleton] at hne
          refine Prog.wp_seq (hy.attr (List.mem_cons_self ..)) ?_
          rintro a y ⟨rfl, rfl⟩
          by_cases hnl : (N ip).attr.nlink < 1
          · rw [if_pos hnl]
            exact hlinks dp name ip hp hl hnl
          rw [if_neg hnl]
          -- What follows the test for an empty directory, whether it was made or not.
          have htail : ∀ {empty : Bool}, (empty = true ↔ ((N ip).type = T_DIR → (N ip).Empty)) →
              Prog.wp (flatOps n devsw) E (do
                if ¬ empty then
                  Fs.iunlockput ip
                  Fs.iunlockput dp
                  Fs.end_op
                  pure (-1 : ℤ)
                else
                  Fs.writeDirent .unlinkWritei dp (DESIZE * k) Dirent.zero
                  if (N ip).type = T_DIR then Fs.addLink dp (-1)
                  Fs.iunlockput dp
                  Fs.addLink ip (-1)
                  Fs.iunlockput ip
                  Fs.end_op
                  pure 0) (fun r u => ∃ N', Unlinked N (fun i => R i + held.count i)
                    (start cwd path) (elems path) r N' ∧ Holding n N' R held [] u) y := by
            intro empty hempty
            refine Prog.wp_mono (hy.unlinking hisdir (Node.find_spec hf).1 hne hip h.kept) ?_
            rintro r z (⟨he, rfl, hz⟩ | ⟨he, rfl, hz⟩)
            · refine ⟨N, .refused fun dp' name' k' hl' => ?_, hz⟩
              obtain ⟨rfl, rfl⟩ := hsame hl'
              obtain rfl := Option.some.inj (hf.symm.trans hl'.find)
              have hyes := hempty.mpr (hip ▸ hl'.empty)
              rw [he] at hyes
              cases hyes
            · exact ⟨_, .unlinked ⟨hp, fun h0 => hdots (.inl h0), fun h0 => hdots (.inr h0), hf,
                hip ▸ hne, hip ▸ hempty.mp he⟩, hz⟩
          by_cases htype : (N ip).attr.type = T_DIR
          · rw [if_pos htype]
            refine Prog.wp_seq (hy.isdirempty (List.mem_cons_self ..) (hc.walkable.dir ip htype)) ?_
            rintro empty z ⟨rfl, he⟩
            exact htail (he.trans ⟨fun hall _ => hall, fun hall => hall htype⟩)
          · rw [if_neg htype]
            exact htail ⟨fun _ ht => absurd ht htype, fun _ => rfl⟩

end Holding

end Xv6.Fs

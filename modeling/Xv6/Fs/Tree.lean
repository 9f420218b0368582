import Xv6.Fs.Path
import Xv6.Fs.Syscalls

/-!
# File system — the calls on the tree

What `create` does to the directories, as a rule for the state inside a call: which names are there
before and after, and how the call may stop.

* `lookup_add_self`, `lookup_remove_self` and the like — directories as finite maps from names.
* `Holding.create` — the rule.
-/

namespace Xv6.Fs

open Lib

/-! ### Directories as maps -/

namespace Node

variable {nd nd' : Node} {n k : ℕ} {name name' : Str} {inum : Inum} {type major minor : ℤ}

theorem lookup_eq_none : nd.lookup name = none ↔ nd.find name = none := by
  simp [lookup]

theorem lookup_congr (hb : nd'.bytes = nd.bytes) : nd'.lookup = nd.lookup := by
  cases nd
  cases nd'
  cases hb
  rfl

theorem find_congr_bytes (hb : nd'.bytes = nd.bytes) : nd'.find = nd.find := by
  cases nd
  cases nd'
  cases hb
  rfl

/-- To be a directory depends on type and contents. -/
theorem IsDir.congr (h : nd.IsDir n) (ht : nd'.type = nd.type) (hb : nd'.bytes = nd.bytes) :
    nd'.IsDir n := by
  refine ⟨ht.trans h.type, ?_, ?_⟩
  · have := h.aligned
    unfold Aligned at this ⊢
    rwa [hb]
  · have := h.live
    simpa only [slots, entry, hb] using this

theorem lookup_lt (h : nd.IsDir n) (hl : nd.lookup name = some inum) : inum < n ∧ inum ≠ 0 := by
  obtain ⟨k, hk, rfl⟩ := Option.map_eq_some_iff.mp hl
  obtain ⟨hlt, hn, -⟩ := find_spec hk
  exact ⟨h.live k hlt hn.1, hn.1⟩

theorem lookup_add_self (ha : nd.Aligned) (hi : inum < 2 ^ 16) (h0 : inum ≠ 0)
    (hnone : nd.find name = none) : (nd.add name inum).lookup name = some inum := by
  rw [lookup, find_add_self ha hi h0 hnone, Option.map_some, entry_add ha hi]
  rfl

/-- A new name hides no other. -/
theorem lookup_add_of_ne (ha : nd.Aligned) (hi : inum < 2 ^ 16)
    (h : cstr DIRSIZ name' ≠ cstr DIRSIZ name) :
    (nd.add name inum).lookup name' = nd.lookup name' := by
  rw [lookup, find_add_of_ne ha hi h, lookup]
  cases hf : nd.find name' with
  | none => rfl
  | some k =>
      obtain ⟨hk, hn, -⟩ := find_spec hf
      have hne : k ≠ nd.free := by
        rintro rfl
        exact hn.1 (free_empty hk)
      rw [Option.map_some, Option.map_some, entry_add_of_ne ha hne]

/-- A name is what the first `DIRSIZ` bytes of it are. -/
theorem lookup_cut (h : cstr DIRSIZ name' = cstr DIRSIZ name) : nd.lookup name' = nd.lookup name := by
  have hnames : ∀ de : Dirent, de.Names name' ↔ de.Names name := fun de => by
    simp only [Dirent.Names, namecmp_eq_zero, h]
  simp only [lookup, find, hnames]

theorem lookup_remove_self (ha : nd.Aligned) (hd : nd.Distinct) (h : nd.find name = some k) :
    (nd.remove k).lookup name = none :=
  lookup_eq_none.mpr (find_remove_self ha hd h)

/-- A name that is dropped takes no other with it. -/
theorem lookup_remove_of_ne (ha : nd.Aligned) (h : nd.find name = some k)
    (hne : cstr DIRSIZ name' ≠ cstr DIRSIZ name) : (nd.remove k).lookup name' = nd.lookup name' := by
  rw [lookup, find_remove_of_ne ha h hne, lookup]
  obtain ⟨hk, hn, -⟩ := find_spec h
  cases hf : nd.find name' with
  | none => rfl
  | some j =>
      obtain ⟨-, hn', -⟩ := find_spec hf
      have hjk : j ≠ k := by
        rintro rfl
        exact hne ((namecmp_eq_zero.mp hn'.2).trans (namecmp_eq_zero.mp hn.2).symm)
      rw [Option.map_some, Option.map_some, entry_remove_of_ne ha hk hjk]

/-- A directory with one name more is one. -/
theorem IsDir.add (h : nd.IsDir n) (hn : n ≤ 2 ^ 16) (hi : inum < n) : (nd.add name inum).IsDir n := by
  refine ⟨h.type, aligned_add h.aligned, fun k hk h0 => ?_⟩
  by_cases hkf : k = nd.free
  · subst hkf
    rw [entry_add h.aligned (hi.trans_le hn)]
    exact hi
  · rw [entry_add_of_ne h.aligned hkf] at h0 ⊢
    rw [slots_add h.aligned] at hk
    have := @free_le nd
    exact h.live k (by omega) h0

/-- A directory with one name less is one. -/
theorem IsDir.remove (h : nd.IsDir n) (hk : k < nd.slots) : (nd.remove k).IsDir n := by
  refine ⟨h.type, aligned_remove h.aligned hk, fun j hj h0 => ?_⟩
  rw [slots_remove h.aligned hk] at hj
  by_cases hjk : j = k
  · subst hjk
    rw [entry_remove h.aligned hk] at h0
    exact absurd rfl h0
  · rw [entry_remove_of_ne h.aligned hk hjk] at h0 ⊢
    exact h.live j hj h0

/-- An inode just allocated. -/
def fresh (type major minor : ℤ) : Node := ⟨type, major, minor, 1, []⟩

@[simp]
theorem slots_fresh : (fresh type major minor).slots = 0 := Nat.zero_div _

@[simp]
theorem free_fresh : (fresh type major minor).free = 0 :=
  Nat.le_zero.mp (free_le.trans_eq slots_fresh)

theorem isDir_fresh (major minor : ℤ) : (fresh T_DIR major minor).IsDir n :=
  ⟨rfl, ⟨0, rfl⟩, fun k hk => absurd hk (by simp)⟩

theorem find_fresh : (fresh type major minor).find name = none :=
  find_eq_none.mpr fun k hk => absurd hk (by simp)

/-- With one link more, or fewer. -/
def link (nd : Node) (d : ℤ) : Node := { nd with nlink := short (nd.nlink + d) }

/-- The count of links is a `short`, and not negative. -/
def Counted (nd : Node) : Prop := 0 ≤ nd.nlink ∧ nd.nlink < 2 ^ 15

/-- One link more, even where the `short` overflows, is not none. -/
theorem Counted.link_ne_zero {nd : Node} (h : nd.Counted) : (nd.link 1).nlink ≠ 0 := by
  obtain ⟨h0, hlt⟩ := h
  simp only [link, short, Int.bmod_def]
  split <;> omega

/-- One link more and one fewer. -/
theorem Counted.short_back {nd : Node} (h : nd.Counted) :
    short ((nd.link 1).nlink + -1) = nd.nlink := by
  obtain ⟨h0, hlt⟩ := h
  simp only [link, short, Int.bmod_def]
  split <;> split <;> omega

end Node

/-! ### The trees after a call -/

variable {N N' : Inum → Node} {dp ip i j : Inum} {name : Str} {names : List Str}
  {type major minor : ℤ}

/-- A walk needs only the names on it. -/
theorem walk_mono (hN : ∀ d name j, (N d).type = T_DIR → (N d).lookup name = some j →
      (N' d).type = T_DIR ∧ (N' d).lookup name = some j) (h : walk N i names = some j) :
    walk N' i names = some j := by
  induction names generalizing i with
  | nil => exact h
  | cons name names ih =>
      rw [walk] at h
      split at h
      · rename_i hdir
        obtain ⟨k, hk, hj⟩ := Option.bind_eq_some_iff.mp h
        obtain ⟨hdir', hk'⟩ := hN i name k hdir hk
        rw [walk, if_pos hdir', hk']
        exact ih hj
      · cases h

/-- The new inode of `create`. -/
def newNode (dp ip : Inum) (type major minor : ℤ) : Node :=
  if type = T_DIR then ((Node.fresh type major minor).add dot ip).add dotdot dp
  else Node.fresh type major minor

theorem nlink_newNode : (newNode dp ip type major minor).nlink = 1 := by
  unfold newNode
  split <;> rfl

/-- The directory of the new inode: `".."` is a link to it. -/
def parentNode (nd : Node) (type : ℤ) : Node := if type = T_DIR then nd.link 1 else nd

/-- The tree with a new inode. -/
def createIn (N : Inum → Node) (dp ip : Inum) (name : Str) (type major minor : ℤ) : Inum → Node :=
  Function.update (Function.update N ip (newNode dp ip type major minor)) dp
    ((parentNode (N dp) type).add name ip)

/-- What `create` returns, and the tree it leaves. -/
inductive Created (n : ℕ) (N : Inum → Node) (i : Inum) (names : List Str) (type major minor : ℤ) :
    Option Inum → (Inum → Node) → Prop
  | nowhere (hp : walkParent N i names = none) : Created n N i names type major minor none N
  | opened {dp ip : Inum} {name : Str} (hp : walkParent N i names = some (dp, name))
      (hl : (N dp).lookup name = some ip) (hf : type = T_FILE ∧ (N ip).type = T_FILE) :
      Created n N i names type major minor (some ip) N
  | taken {dp ip : Inum} {name : Str} (hp : walkParent N i names = some (dp, name))
      (hl : (N dp).lookup name = some ip) (hf : ¬ (type = T_FILE ∧ (N ip).type = T_FILE)) :
      Created n N i names type major minor none N
  | made {dp ip : Inum} {name : Str} (hp : walkParent N i names = some (dp, name))
      (hl : (N dp).lookup name = none) (hz : (N ip).type = 0) (h0 : ip ≠ 0) (hn : ip < n) :
      Created n N i names type major minor (some ip) (createIn N dp ip name type major minor)

/-- A walk to the parent ends in a directory. -/
theorem walkParent_dir {d : Inum} (h : walkParent N i names = some (d, name)) :
    (N d).type = T_DIR := by
  rcases List.eq_nil_or_concat names with rfl | ⟨init, last, rfl⟩
  · cases h
  · rw [List.concat_eq_append, walkParent_append] at h
    obtain ⟨d', -, h⟩ := Option.bind_eq_some_iff.mp h
    split at h
    · rename_i hdir
      obtain ⟨rfl, -⟩ := Prod.mk.inj (Option.some.inj h)
      exact hdir
    · cases h

/-- The directory has no room for one more name. -/
def Long (nd : Node) (name : Str) : Prop :=
  nd.find name = none ∧ MAXFILE * BSIZE < DESIZE * (nd.free + 1)

/-- What a call on a path starts from. -/
structure Callable (n : ℕ) (E : Stop → Prop) (N : Inum → Node) (R : Inum → ℕ) (held : List Inum)
    (cwd : Inum) (path : Str) : Prop where
  walkable : Walkable n E N
  small : n ≤ 2 ^ 16
  root : ROOTINO < n
  current : 0 < R cwd + held.count cwd
  start : (N (start cwd path)).type = 0 → E .ilockNoType

namespace Holding

variable {n m : ℕ} {devsw : Devsw} {E : Stop → Prop} {R : Inum → ℕ} {held locks : List Inum}
  {t : Flat}

/-- `create` enters `.` and `..` into the new directory. -/
theorem createDots (h : Holding n N R held locks t) (hd : dp ∈ locks) (hi : ip ∈ locks)
    (hne : dp ≠ ip) (hn : n ≤ 2 ^ 16) (hip : ip < n) (hr : Room n E R held 0)
    (hnode : N ip = Node.fresh T_DIR major minor) :
    Prog.wp (flatOps n devsw) E (createDots dp ip) (fun _ u => Holding n
      (Function.update (Function.update N dp ((N dp).link 1)) ip (newNode dp ip T_DIR major minor))
      R held locks u) t := by
  have hfresh : (Node.fresh T_DIR major minor).IsDir n := Node.isDir_fresh major minor
  have hdot : ((Node.fresh T_DIR major minor).add dot ip).IsDir n := hfresh.add hn hip
  have hempty : (Node.fresh T_DIR major minor).find dot = none := Node.find_fresh
  have hdotdot : ((Node.fresh T_DIR major minor).add dot ip).find dotdot = none := by
    rw [Node.find_add_of_ne hfresh.aligned (hip.trans_le hn) (by decide)]
    exact Node.find_fresh
  have hfree : ((Node.fresh T_DIR major minor).add dot ip).free ≤ 1 := by
    refine Node.free_le.trans_eq ?_
    rw [Node.slots_add hfresh.aligned, Node.slots_fresh, Node.free_fresh]
    rfl
  refine Prog.wp_seq (h.addLink hd 1) ?_
  intro _ u hu
  have hself : ∀ x y : Node, Function.update (Function.update N dp x) ip y ip = y :=
    fun x y => Function.update_self ..
  have hip₁ : Function.update N dp ((N dp).link 1) ip = Node.fresh T_DIR major minor := by
    rw [Function.update_of_ne (Ne.symm hne), hnode]
  have hu : Holding n (Function.update N dp ((N dp).link 1)) R held locks u := hu
  -- First `.`, then `..`; the new directory has neither.
  refine Prog.wp_seq (hu.dirlink hi (by rwa [hip₁]) hr.none ?_ ?_ ip) ?_
  · intro j hj
    rw [hip₁, Node.lookup_eq_none.mpr hempty] at hj
    cases hj
  · rw [hip₁, Node.free_fresh]
    intro _ hbig
    exact absurd hbig (by decide)
  rw [hip₁]
  rintro r v (⟨hno, -⟩ | ⟨-, rfl, hv⟩)
  · exact absurd hempty hno
  rw [if_neg (by decide)]
  refine Prog.wp_seq (hv.dirlink hi (by rwa [hself]) hr.none ?_ ?_ dp) ?_
  · intro j hj
    rw [hself, Node.lookup_eq_none.mpr hdotdot] at hj
    cases hj
  · rw [hself]
    intro _ hbig
    refine absurd hbig ?_
    simp only [MAXFILE, NDIRECT, NINDIRECT, BSIZE, DESIZE, DIRSIZ]
    omega
  rw [hself]
  rintro r w (⟨hno, -⟩ | ⟨-, rfl, hw⟩)
  · exact absurd hdotdot hno
  rw [if_neg (by decide), Function.update_idem] at *
  exact hw

theorem permLocks {locks' : List Inum} (h : Holding n N R held locks t) (hp : locks.Perm locks') :
    Holding n N R held locks' t :=
  ⟨h.node, h.ref, fun i => (h.locked i).trans hp.mem_iff, h.range, h.coherent,
    fun i hi => h.inUse i (hp.mem_iff.mpr hi), h.unlinked, h.sizes⟩

theorem dropped_of_pos {refs : ℕ} (h : (N i).nlink = 0 → 0 < refs) : dropped N refs i = N := by
  refine if_neg ?_
  rintro ⟨-, hn, h0⟩
  exact (h hn).ne' h0

/-- The end of `create`: the new inode gets its name in the directory `dp`, which has not changed but
for its links. -/
theorem createName {N' : Inum → Node} {x : Node} (h : Holding n N' R (ip :: dp :: held) [ip, dp] t)
    (hx : N' dp = x) (hd : x.IsDir n) (hne : dp ≠ ip) (hr : Room n E R (ip :: dp :: held) 0)
    (hnone : x.find name = none) (hlong : Long x name → E (.call .dirlink))
    (hkeep : x.nlink = 0 → 0 < R dp + held.count dp) :
    Prog.wp (flatOps n devsw) E (do
      if (← Fs.dirlink dp name ip) < 0 then panic .createDirlink
      else
        Fs.iunlockput dp
        pure (some ip)) (fun r u => r = some ip ∧
          Holding n (Function.update N' dp (x.add name ip)) R (ip :: held) [ip] u) t := by
  subst hx
  refine Prog.wp_seq (h.dirlink (by simp) hd hr.none ?_ (fun hn hbig => hlong ⟨hn, hbig⟩) ip) ?_
  · intro j hj
    rw [Node.lookup_eq_none.mpr hnone] at hj
    cases hj
  rintro r u (⟨hno, -⟩ | ⟨-, rfl, hu⟩)
  · exact absurd hnone hno
  rw [if_neg (by decide)]
  have hu := (hu.perm (List.Perm.swap dp ip held)).permLocks (List.Perm.swap dp ip [])
  refine Prog.wp_seq (hu.iunlockput (by simpa using hne)) ?_
  intro _ v hv
  rw [dropped_of_pos] at hv
  · exact ⟨rfl, hv⟩
  · rw [Function.update_self]
    intro hn
    have := hkeep hn
    rw [List.count_cons]
    omega

/-- **`create`** opens the file of the name, or adds a new inode under it. -/
theorem create {cwd : Inum} {path : Str} (h : Holding n N R held [] t)
    (hc : Callable n E N R held cwd path) (hlinks : ∀ i, (N i).Counted) (hr : Room n E R held 2)
    (htype : type ≠ 0)
    (hfresh : ∀ i, (N i).type = 0 → R i + held.count i = 0)
    (hnone : (∀ i, 0 < i → i < n → (N i).type ≠ 0) → E .iallocNoInodes)
    (hlong : ∀ dp name, walkParent N (start cwd path) (elems path) = some (dp, name) →
      Long (N dp) name → E (.call .dirlink)) :
    Prog.wp (flatOps n devsw) E (create cwd path type major minor) (fun r u =>
      ∃ N', Created n N (start cwd path) (elems path) type major minor r N' ∧
        Holding n N' R (r.toList ++ held) r.toList u) t := by
  have hno : ∀ {i : Inum}, i ∉ ([] : List Inum) := List.not_mem_nil
  refine Prog.wp_seq (h.nameiparent hc.walkable (hr.mono (by decide)) hc.current hc.root path hc.start) ?_
  rintro r u ⟨rfl, hu⟩
  cases hp : walkParent N (start cwd path) (elems path) with
  | none =>
      rw [hp] at hu
      exact ⟨N, .nowhere hp, hu⟩
  | some parent =>
      obtain ⟨dp, name⟩ := parent
      rw [hp] at hu
      have hu : Holding n N R (dp :: held) [] u := hu
      have hdir := walkParent_dir hp
      have hdt : (N dp).type ≠ 0 := by
        rw [hdir]
        decide
      have hisdir := hc.walkable.dir dp hdir
      refine Prog.wp_seq (hu.ilock (by rw [List.count_cons_self]; omega) (fun hm => absurd hm hno)
        fun hz => absurd hz hdt) ?_
      rintro _ v ⟨-, -, hv⟩
      refine Prog.wp_seq (hv.dirlookup (List.mem_cons_self ..) hisdir
        ((hr.push dp).mono (Nat.zero_le _)).none name) ?_
      rintro r w ⟨rfl, hw⟩
      -- The name is there, or an inode is allocated for it.
      cases hf : (N dp).find name with
      | some k =>
          have hl : (N dp).lookup name = some ((N dp).entry k).inum := by
            rw [Node.lookup, hf]
            rfl
          rw [hl] at hw
          have hw := Holding.perm hw (List.Perm.swap dp _ held)
          refine Prog.wp_seq (hw.iunlockput hno) ?_
          intro _ x hx
          rw [dropped_of_pos] at hx
          · refine Prog.wp_seq (hx.ilock (by rw [List.count_cons_self]; omega)
              (fun hm => absurd hm hno) (hc.walkable.dangling dp name _ hdir hl)) ?_
            rintro _ y ⟨-, -, hy⟩
            refine Prog.wp_seq (hy.attr (List.mem_cons_self ..)) ?_
            rintro a z ⟨rfl, rfl⟩
            by_cases hfile : type = T_FILE ∧ (N ((N dp).entry k).inum).attr.type = T_FILE
            · rw [if_pos hfile]
              exact ⟨N, .opened hp hl hfile, hy⟩
            · rw [if_neg hfile]
              refine Prog.wp_seq (hy.iunlockput hno) ?_
              intro _ z hz
              have hback : dropped N (R ((N dp).entry k).inum + held.count ((N dp).entry k).inum)
                  ((N dp).entry k).inum = N := dropped_of_kept h.kept _
              rw [hback] at hz
              exact ⟨N, .taken hp hl hfile, hz⟩
          · intro hn
            have := h.kept dp hdt hn
            rw [List.count_cons]
            omega
      | none =>
          have hl : (N dp).lookup name = none := Node.lookup_eq_none.mpr hf
          rw [hl] at hw
          have hw : Holding n N R (dp :: held) [dp] w := hw
          refine hw.allocate htype (fun i hi => ?_) hnone
            ((hr.push dp).mono (Nat.zero_le _)).none fun ip x hz h0 hn hnot hx => ?_
          · have := hfresh i hi
            have hid : dp ≠ i := by
              rintro rfl
              exact hdt hi
            rw [List.count_cons_of_ne hid]
            exact this
          have hne : dp ≠ ip := by
            rintro rfl
            exact hdt hz
          have hroom : Room n E R (ip :: dp :: held) 0 := (hr.push dp).push ip
          have hdp : Function.update N ip ⟨type, major, minor, 1, []⟩ dp = N dp :=
            Function.update_of_ne hne ..
          -- A directory gets `.` and `..` first, and its parent a link more.
          by_cases htd : type = T_DIR
          · subst htd
            rw [if_pos rfl]
            refine Prog.wp_seq (hx.createDots (by simp) (by simp) hne hc.small hn hroom
              (Function.update_self ..)) ?_
            intro _ y hy
            rw [hdp] at hy
            refine Prog.wp_mono (hy.createName (x := (N dp).link 1)
              (by rw [Function.update_of_ne hne, Function.update_self])
              (hisdir.congr rfl rfl) hne hroom hf (hlong dp name hp) fun hn => ?_) ?_
            · exact absurd hn (hlinks dp).link_ne_zero
            rintro r z ⟨rfl, hz'⟩
            refine ⟨_, .made hp hl hz h0 hn, ?_⟩
            rwa [Function.update_comm hne.symm _ _ N, Function.update_idem,
              Function.update_comm hne _ _ N, Function.update_idem] at hz'
          · rw [if_neg htd]
            refine Prog.wp_mono (hx.createName (x := N dp) hdp hisdir hne hroom hf
              (hlong dp name hp) (h.kept dp hdt)) ?_
            rintro r z ⟨rfl, hz'⟩
            refine ⟨_, .made hp hl hz h0 hn, ?_⟩
            rwa [createIn, parentNode, if_neg htd, newNode, if_neg htd]

/-- `sys_mkdir` and `sys_mknod`: the new inode is let go of. -/
theorem make {cwd : Inum} {path : Str} (h : Holding n N R held [] t)
    (hc : Callable n E N R held cwd path) (hlinks : ∀ i, (N i).Counted) (hr : Room n E R held 2)
    (htype : type ≠ 0)
    (hfresh : ∀ i, (N i).type = 0 → R i + held.count i = 0)
    (hnone : (∀ i, 0 < i → i < n → (N i).type ≠ 0) → E .iallocNoInodes)
    (hlong : ∀ dp name, walkParent N (start cwd path) (elems path) = some (dp, name) →
      Long (N dp) name → E (.call .dirlink)) :
    Prog.wp (flatOps n devsw) E (make cwd path type major minor) (fun r u =>
      ∃ o N', Created n N (start cwd path) (elems path) type major minor o N' ∧
        r = (if o.isSome then 0 else -1) ∧ Holding n N' R held [] u) t := by
  refine Prog.wp_seq (h.create hc hlinks hr htype hfresh hnone hlong) ?_
  rintro o u ⟨N', hcr, hu⟩
  cases o with
  | none =>
      refine Prog.wp_seq (Holding.end_op hu) ?_
      intro _ v hv
      exact ⟨none, N', hcr, rfl, hv⟩
  | some ip =>
      have hu : Holding n N' R (ip :: held) [ip] u := hu
      refine Prog.wp_seq (hu.iunlockput List.not_mem_nil) ?_
      intro _ v hv
      have hback : dropped N' (R ip + held.count ip) ip = N' := by
        cases hcr with
        | opened _ _ _ => exact dropped_of_kept h.kept ip
        | @made dp _ name hp _ hz _ _ =>
            refine dropped_of_pos fun hn => ?_
            have hne : ip ≠ dp := by
              rintro rfl
              rw [walkParent_dir hp] at hz
              cases hz
            rw [createIn, Function.update_of_ne hne, Function.update_self, nlink_newNode] at hn
            cases hn
      rw [hback] at hv
      refine Prog.wp_seq (Holding.end_op hv) ?_
      intro _ w hw
      exact ⟨some ip, N', hcr, rfl, hw⟩

end Holding

end Xv6.Fs

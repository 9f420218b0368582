import Xv6.Fs.Linking
import Xv6.Fs.View
import Mathlib.Data.List.Nodup

/-!
# File system — names on the disk

The rules of the calls, carried over to the disk: from a state between calls (`State.Settled`) each
call does to the names in the directories what it is meant to do, or stops as `Stops` says.

* `paths_are_walks` — `namei` and `nameiparent` find what the path leads to in the tree.
* `create_adds_name`, `sys_link_adds_name`, `sys_unlink_removes_name` — the three calls that change
  the tree, and what they leave as it was.
-/

namespace Xv6.Fs

open Lib

variable {sb : Superblock} {devsw : Devsw} {s t : State} {cwd : Inum} {path : Str}

/-- The state between two calls, of any process. -/
structure State.Settled (sb : Superblock) (s : State) : Prop where
  inv : s.Inv sb
  unlocked : ∀ i, s.locked i = false
  /-- an inode without links is in use, and will be freed -/
  unlinked : ∀ i, (s.img.dinode i).type ≠ 0 → (s.img.dinode i).nlink = 0 →
    0 < s.ref i ∧ s.valid i = true
  fresh : ∀ i, (s.img.dinode i).type = 0 → s.ref i = 0
  /-- the counts of links are not negative, and each is a `short` -/
  links : ∀ i, 0 ≤ (s.img.dinode i).nlink ∧ (s.img.dinode i).nlink < 2 ^ 15
  dirs : ∀ i, (s.img.dinode i).type = T_DIR → (s.img.node sb i).IsDir sb.ninodes
  small : sb.ninodes ≤ 2 ^ 16
  root : ROOTINO < sb.ninodes ∧ (s.img.dinode ROOTINO).type ≠ 0
  zero : (s.img.dinode 0).type = 0

/-- A directory names an inode that is not allocated. -/
def State.Dangling (sb : Superblock) (s : State) : Prop :=
  ∃ d name i, (s.img.dinode d).type = T_DIR ∧ (s.img.node sb d).lookup name = some i ∧
    (s.img.dinode i).type = 0

/-- How a call stops that walks the tree and takes `m` references at a time. -/
def State.Stops (sb : Superblock) (s : State) (m : ℕ) (e : Stop) : Prop :=
  (e = .igetNoInodes ∧ NINODE ≤ s.inUse sb.ninodes + m) ∨ (e = .ilockNoType ∧ s.Dangling sb)

/-- No file has more than `MAXFILE` blocks. -/
theorem Image.Consistent.size_le {d : Image} (h : d.Consistent sb) {i : Inum} (hi : i < sb.ninodes)
    (ht : (d.dinode i).type ≠ 0) : (d.dinode i).size ≤ MAXFILE * BSIZE := by
  by_contra hbig
  obtain ⟨slot, hslot, -⟩ := h.noHoles i hi ht MAXFILE (Nat.lt_of_not_le hbig)
  rw [indexSlot, dif_neg (by decide), dif_neg (by decide)] at hslot
  cases hslot

/-- A state between calls, seen by the bytes of its files. -/
theorem State.Settled.holding (h : s.Settled sb) :
    Holding sb.ninodes (s.img.node sb) s.ref [] [] (s.view sb) where
  node := rfl
  ref := fun _ => rfl
  locked := fun i => by simp [State.view, h.unlocked i]
  range := h.inv.range
  coherent := fun i hr hv => (h.inv.coherent i hr hv).2
  inUse := fun i hi => absurd hi List.not_mem_nil
  unlinked := h.unlinked
  sizes := fun i => by
    unfold Image.node
    dsimp only
    split
    · rename_i hi
      rw [length_bytes]
      exact h.inv.consistent.size_le hi.1 hi.2
    · exact Nat.zero_le _

/-- A reference more needs one entry more at most. -/
theorem crowd_cons_le (n : ℕ) (R : Inum → ℕ) (i : Inum) (held : List Inum) :
    crowd n R (i :: held) ≤ crowd n R held + 1 := by
  have hall : ∀ l : List ℕ, l.countP (fun j => 0 < R j + (i :: held).count j) ≤
      l.countP (fun j => 0 < R j + held.count j) + l.count i := by
    intro l
    induction l with
    | nil => exact Nat.zero_le _
    | cons j l ih =>
        simp only [List.countP_cons, List.count_cons, beq_iff_eq] at ih ⊢
        by_cases hij : j = i
        · subst hij
          simp only [if_true]
          split <;> split <;> omega
        · rw [if_neg hij, if_neg (Ne.symm hij), Nat.add_zero, Nat.add_zero]
          omega
  exact (hall _).trans (Nat.add_le_add_left (List.nodup_iff_count_le_one.mp List.nodup_range i) _)

/-- References more need as many entries more at most. -/
theorem crowd_append_le (n : ℕ) (R : Inum → ℕ) (l held : List Inum) :
    crowd n R (l ++ held) ≤ crowd n R held + l.length := by
  induction l with
  | nil => exact le_rfl
  | cons i l ih =>
      have := crowd_cons_le n R i (l ++ held)
      rw [List.cons_append, List.length_cons]
      omega

section

variable {E : Stop → Prop} {m : ℕ}

theorem State.Settled.room (h : s.Settled sb) (hE : ∀ e, s.Stops sb m e → E e) :
    Room sb.ninodes E s.ref [] m := by
  intro l hl hfull
  refine hE _ (.inl ⟨rfl, ?_⟩)
  have huse : s.inUse sb.ninodes = crowd sb.ninodes s.ref [] := h.holding.inUse_eq
  have := crowd_append_le sb.ninodes s.ref l []
  omega

theorem State.Settled.start_lt (h : s.Settled sb) (hcwd : 0 < s.ref cwd) (path : Str) :
    start cwd path < sb.ninodes := by
  unfold Fs.start
  split
  · exact h.root.1
  · exact h.inv.range cwd hcwd

/-- A state between calls is one that calls can start from. -/
theorem State.Settled.callable (h : s.Settled sb) (hE : ∀ e, s.Stops sb m e → E e)
    (hcwd : 0 < s.ref cwd) (path : Str) :
    Callable sb.ninodes E (s.img.node sb) s.ref [] cwd path where
  walkable := ⟨h.dirs, fun d name i hd hl hz => hE _ (.inr ⟨rfl, d, name, i, hd, hl, hz⟩)⟩
  small := h.small
  root := h.root.1
  current := hcwd
  start := fun hz => by
    have hz : (s.img.dinode (start cwd path)).type = 0 := hz
    unfold Fs.start at hz
    split at hz
    · exact absurd hz h.root.2
    · exact absurd (h.fresh cwd hz) hcwd.ne'

theorem State.Settled.counted (h : s.Settled sb) (i : Inum) : (s.img.node sb i).Counted := h.links i

end

/-! ### A small tree -/

/-- A disk of three data blocks and four inodes. -/
def smallDisk : Superblock := ⟨5, 4, 2, by decide, Nat.two_pos⟩

/-- `"f"`, and another name. -/
def nameF : Str := [102]

/-- `g` -/
def nameG : Str := [103]

/-- A root directory, with an empty file `"f"` in it. -/
def smallTree : Image where
  bit := (· < 3)
  dinode := fun i =>
    if i = ROOTINO then ⟨T_DIR, 0, 0, 1, 3 * DESIZE, fun k => if k.val = 0 then 2 else 0⟩
    else if i = 2 then ⟨T_FILE, 0, 0, 1, 0, fun _ => 0⟩
    else .blank 0
  data := fun b =>
    if b = 2 then Lib.Bytes.putList (fun _ => 0) 0 ((Dirent.make dot ROOTINO).encode ++
      (Dirent.make dotdot ROOTINO).encode ++ (Dirent.make nameF 2).encode)
    else fun _ => 0

/-- A process whose current directory is the root. -/
def inRoot : State := { State.boot smallTree with ref := Function.update (fun _ => 0) ROOTINO 1 }

theorem dinode_smallTree {i : Inum} (h : (smallTree.dinode i).type ≠ 0) : i = ROOTINO ∨ i = 2 := by
  by_contra hi
  obtain ⟨h₁, h₂⟩ := not_or.mp hi
  exact h (by simp [smallTree, h₁, h₂, Dinode.blank])

/-- In the small tree only the root has a block. -/
theorem hold_smallTree (p : Inum × Slot) :
    smallTree.hold smallDisk p = if p = (ROOTINO, .addr 0) then 2 else 0 := by
  obtain ⟨i, slot⟩ := p
  by_cases hi : i = ROOTINO
  · subst hi
    cases slot with
    | addr k =>
        by_cases hk : k = 0
        · subst hk
          rfl
        · have hk' : ¬ k.val = 0 := fun h => hk (Fin.ext h)
          simp [Image.hold, slotAddr, smallTree, hk]
    | via j =>
        have hlast : (smallTree.dinode ROOTINO).addrs (Fin.last NDIRECT) = 0 := rfl
        simp [Image.hold, slotAddr, hlast]
  · have haddrs : (smallTree.dinode i).addrs = fun _ => 0 := by
      simp only [smallTree, if_neg hi]
      split <;> rfl
    rw [Image.hold, slotAddr_blank haddrs, ite_self, if_neg fun h => hi (congrArg Prod.fst h)]

/-- The small tree is consistent. -/
theorem smallTree_consistent : smallTree.Consistent smallDisk where
  owned := by
    have hheld : ∀ {p : Inum × Slot}, smallTree.hold smallDisk p ≠ 0 → p = (ROOTINO, .addr 0) :=
      fun h => by_contra fun hp => h (by rw [hold_smallTree, if_neg hp])
    refine ⟨fun p hp => ?_, fun p hp => ?_, fun p q hp hpq => ?_, fun b hlo hb => ?_, fun b hb => ?_⟩
    · obtain rfl := hheld hp
      decide +kernel
    · obtain rfl := hheld hp
      decide +kernel
    · exact (hheld hp).trans (hheld (hpq ▸ hp)).symm
    · obtain rfl : b = 2 := Nat.le_antisymm (Nat.le_of_lt_succ (of_decide_eq_true hb)) hlo
      exact ⟨(ROOTINO, .addr 0), by rw [hold_smallTree, if_pos rfl]⟩
    · have hb : b < 2 := hb
      exact decide_eq_true (hb.trans (by decide))
  noHoles := by
    intro i _ ht bn hbn
    rcases dinode_smallTree ht with rfl | rfl
    · obtain rfl : bn = 0 := by
        have : bn * 512 < 48 := hbn
        omega
      exact ⟨.addr 0, rfl, by decide +kernel⟩
    · exact absurd hbn (Nat.not_lt_zero _)

theorem dir_smallTree {i : Inum} (h : (smallTree.dinode i).type = T_DIR) : i = ROOTINO := by
  have h0 : (smallTree.dinode i).type ≠ 0 := by
    rw [h]
    decide
  rcases dinode_smallTree h0 with rfl | rfl
  · rfl
  · exact absurd h (by decide)

/-- A process in the root of the small tree can call. -/
theorem inRoot_settled : inRoot.Settled smallDisk where
  inv := by
    refine ⟨smallTree_consistent, fun i hi => ?_, fun _ _ hv => (by cases hv), fun _ hl => (by cases hl)⟩
    by_cases hr : i = ROOTINO
    · subst hr
      decide
    · simp [inRoot, hr] at hi
  unlocked := fun _ => rfl
  unlinked := fun i ht hn => by
    rcases dinode_smallTree ht with rfl | rfl <;> exact absurd hn (by decide)
  fresh := fun i ht => by
    have hi : i ≠ ROOTINO := by
      rintro rfl
      exact absurd ht (by decide)
    simp [inRoot, hi]
  links := fun i => by
    by_cases ht : (smallTree.dinode i).type = 0
    · have h₁ : i ≠ ROOTINO := by
        rintro rfl
        exact absurd ht (by decide)
      have h₂ : i ≠ 2 := by
        rintro rfl
        exact absurd ht (by decide)
      simp [inRoot, State.boot, smallTree, h₁, h₂, Dinode.blank]
    · rcases dinode_smallTree ht with rfl | rfl <;> decide
  dirs := fun i ht => by
    obtain rfl := dir_smallTree ht
    refine ⟨rfl, ?_, by decide +kernel⟩
    unfold Node.Aligned
    decide +kernel
  small := by decide
  root := by decide
  zero := rfl

theorem inRoot_distinct (d : Inum) (h : (inRoot.img.dinode d).type = T_DIR) :
    (inRoot.img.node smallDisk d).Distinct := by
  obtain rfl := dir_smallTree h
  have hstr : ∀ j < 3, ∀ k < 3, ((smallTree.node smallDisk ROOTINO).entry j).str =
      ((smallTree.node smallDisk ROOTINO).entry k).str → j = k := by decide +kernel
  exact fun j hj k hk _ _ hs => hstr j hj k hk hs

/-! ### Paths -/

/-- The operations that need no new blocks. -/
abbrev Spare (o : Op) : Prop := ¬ o.Grows

/-- Reading an entry writes to no file. -/
theorem readDirent_only (p : CallPanic) (dp : Inum) (off : ℕ) : (readDirent p dp off).Only Spare := by
  refine .bind (.perform id) fun r => ?_
  cases r with
  | none => exact ⟨id, fun r => r.elim⟩
  | some b =>
      dsimp only
      split
      · trivial
      · exact ⟨id, fun r => r.elim⟩

/-- `dirlookup` writes to no file. -/
theorem dirlookup_only (dp : Inum) (name : Str) : (dirlookup dp name).Only Spare := by
  have hfrom : ∀ offs, (dirlookupFrom dp name offs).Only Spare := by
    intro offs
    induction offs with
    | nil => trivial
    | cons off offs ih =>
        refine .bind (readDirent_only ..) fun de => ?_
        split
        · exact .bind (.perform id) fun _ => trivial
        · exact ih
  refine .bind (.perform id) fun a => ?_
  split
  · exact ⟨id, fun r => r.elim⟩
  · exact hfrom _

theorem iunlockput_only (ip : Inum) : (iunlockput ip).Only Spare :=
  .bind (.perform id) fun _ => .perform id

theorem namexEnd_only (b : Bool) (ip : Inum) (name : Str) : (namexEnd b ip name).Only Spare := by
  cases b with
  | false => trivial
  | true => exact .bind (.perform id) fun _ => trivial

/-- A walk writes to no file. -/
theorem namexLoop_only (b : Bool) (m : ℕ) : ∀ ip path name,
    (namexLoop b m ip path name).Only Spare := by
  induction m with
  | zero => exact fun ip path name => namexEnd_only b ip name
  | succ m ih =>
      intro ip path name
      rw [namexLoop]
      cases skipelem path with
      | none => exact namexEnd_only b ip name
      | some next =>
          refine .bind (.perform id) fun _ => .bind (.perform id) fun a => ?_
          split
          · exact .bind (iunlockput_only ip) fun _ => trivial
          · split
            · exact .bind (.perform id) fun _ => trivial
            · refine .bind (dirlookup_only ..) fun r => ?_
              cases r with
              | none => exact .bind (iunlockput_only ip) fun _ => trivial
              | some found => exact .bind (iunlockput_only ip) fun _ => ih ..

theorem namex_only (cwd : Inum) (path : Str) (b : Bool) : (namex cwd path b).Only Spare := by
  rw [namex]
  dsimp only
  split
  · exact .bind (.perform id) fun _ => namexLoop_only ..
  · exact .bind (.perform id) fun _ => namexLoop_only ..

/-- **Paths are walks.**  From any state between calls, `namei` returns the inode that the names
between the slashes lead to in the tree, and `nameiparent` the directory of the last of them, with
that name; each has a reference to what it returns and nothing else has changed, or it stops as
`Stops` says. -/
theorem paths_are_walks (h : s.Settled sb) (hcwd : 0 < s.ref cwd) (path : Str) (names : List Str)
    (hnames : names = (pieces path).map (·.take DIRSIZ)) :
    Prog.wp (diskOps sb devsw) (s.Stops sb 1) (namei cwd path) (fun r t => t.Inv sb ∧
        r = walk (s.img.node sb) (start cwd path) names ∧
        Holding sb.ninodes (s.img.node sb) s.ref r.toList [] (t.view sb)) s ∧
      Prog.wp (diskOps sb devsw) (s.Stops sb 1) (nameiparent cwd path) (fun r t => t.Inv sb ∧
        r = walkParent (s.img.node sb) (start cwd path) names ∧
        Holding sb.ninodes (s.img.node sb) s.ref (r.map Prod.fst).toList [] (t.view sb)) s := by
  rw [← elems_eq_pieces] at hnames
  subst hnames
  have hE : ∀ e, s.Stops sb 1 e → s.Stops sb 1 e := fun _ he => he
  have hc := h.callable hE hcwd path
  have hr := h.room hE
  have hnone : ∀ e, False ∨ s.Stops sb 1 e → s.Stops sb 1 e := fun e he => he.resolve_left id
  constructor
  · have hp : Prog.wp (flatOps sb.ninodes devsw) _ (namei cwd path) _ (s.view sb) :=
      h.holding.namei hc.walkable hr hc.current hc.root path hc.start
    have hd := (reads_follow (p := namei cwd path)
      (.bind (namex_only cwd path false) fun _ => trivial) h.inv).wp hp
    refine Prog.wp_imp hd hnone ?_
    rintro r t ⟨hi, hr, ht⟩
    exact ⟨hi, hr, by simpa using ht⟩
  · have hp : Prog.wp (flatOps sb.ninodes devsw) _ (nameiparent cwd path) _ (s.view sb) :=
      h.holding.nameiparent hc.walkable hr hc.current hc.root path hc.start
    have hd := (reads_follow (namex_only cwd path true) h.inv).wp hp
    refine Prog.wp_imp hd hnone ?_
    rintro r t ⟨hi, hr, ht⟩
    exact ⟨hi, hr, by simpa using ht⟩

/-- The path of the file, from the root and up once. -/
theorem paths_are_walks_up : ∃ t : State, t.Inv smallDisk ∧
    walk (inRoot.img.node smallDisk) ROOTINO [dotdot, nameF] = some 2 := by
  have hrun : ((namei ROOTINO (dotdot ++ slash :: nameF)).run (diskOps smallDisk noDevices)
      inRoot).toOption.any (fun r => r.1 = some 2) = true := by decide +kernel
  obtain ⟨⟨r, t⟩, hr, heq⟩ := (Option.any_eq_true _ _).mp hrun
  obtain rfl : r = some 2 := of_decide_eq_true heq
  have hwalk := (@paths_are_walks smallDisk noDevices inRoot ROOTINO inRoot_settled (by decide)
    (dotdot ++ slash :: nameF) [dotdot, nameF] (by decide)).1
  obtain ⟨hi, hw, -⟩ := Prog.wp_of_ok hwalk (Lib.toOption_eq_some.mp hr)
  exact ⟨t, hi, hw.symm⟩

/-! ### Trees with one name more, and one name less -/

section

variable {N N' : Inum → Node} {n : ℕ} {dp ip i j : Inum} {name : Str} {names : List Str}
  {type major minor : ℤ} {refs : Inum → ℕ} {k : ℕ}

/-- In the directories that were there, `name` in `dp` is now `ip`, and there is no other change. -/
structure AddsName (N N' : Inum → Node) (dp : Inum) (name : Str) (ip : Inum) : Prop where
  dirs : ∀ d, (N d).type = T_DIR → (N' d).type = T_DIR
  free : (N dp).lookup name = none
  lookup : ∀ d name', (N d).type = T_DIR → (N' d).lookup name' =
    if d = dp ∧ cstr DIRSIZ name' = cstr DIRSIZ name then some ip else (N d).lookup name'

/-- In the directories that are still there, `name` in `dp` is gone, and there is no other change. -/
structure DropsName (N N' : Inum → Node) (dp : Inum) (name : Str) : Prop where
  dirs : ∀ d, (N' d).type = T_DIR → (N d).type = T_DIR
  lookup : ∀ d name', (N' d).type = T_DIR → (N' d).lookup name' =
    if d = dp ∧ cstr DIRSIZ name' = cstr DIRSIZ name then none else (N d).lookup name'

namespace AddsName

/-- What had a name before has it still. -/
theorem kept (h : AddsName N N' dp name ip) (d : Inum) (name' : Str) (j : Inum)
    (hd : (N d).type = T_DIR) (hl : (N d).lookup name' = some j) :
    (N' d).type = T_DIR ∧ (N' d).lookup name' = some j := by
  refine ⟨h.dirs d hd, ?_⟩
  rw [h.lookup d name' hd, if_neg, hl]
  rintro ⟨rfl, hcut⟩
  rw [Node.lookup_cut hcut, h.free] at hl
  cases hl

/-- Every path leads where it led. -/
theorem walk_mono (h : AddsName N N' dp name ip) (hw : walk N i names = some j) :
    walk N' i names = some j :=
  Fs.walk_mono h.kept hw

/-- The new path leads to the inode. -/
theorem found (h : AddsName N N' dp name ip) (hp : walkParent N i names = some (dp, name)) :
    walk N' i names = some ip := by
  rcases List.eq_nil_or_concat names with rfl | ⟨init, last, rfl⟩
  · cases hp
  · rw [List.concat_eq_append] at hp ⊢
    rw [walkParent_append] at hp
    obtain ⟨d, hw, hp⟩ := Option.bind_eq_some_iff.mp hp
    split at hp
    · rename_i hdir
      obtain ⟨rfl, rfl⟩ := Prod.mk.inj (Option.some.inj hp)
      rw [walk_append, h.walk_mono hw, Option.bind_some, walk, if_pos (h.dirs d hdir),
        h.lookup d last hdir, if_pos ⟨rfl, rfl⟩]
      rfl
    · cases hp

end AddsName

namespace DropsName

/-- What has a name afterwards had it before. -/
theorem kept (h : DropsName N N' dp name) (d : Inum) (name' : Str) (j : Inum)
    (hd : (N' d).type = T_DIR) (hl : (N' d).lookup name' = some j) :
    (N d).type = T_DIR ∧ (N d).lookup name' = some j := by
  refine ⟨h.dirs d hd, ?_⟩
  rw [h.lookup d name' hd] at hl
  split at hl
  · cases hl
  · exact hl

/-- No path leads where it did not lead. -/
theorem walk_mono (h : DropsName N N' dp name) (hw : walk N' i names = some j) :
    walk N i names = some j :=
  Fs.walk_mono h.kept hw

/-- The path of the name leads nowhere. -/
theorem gone (h : DropsName N N' dp name) (hp : walkParent N i names = some (dp, name)) :
    walk N' i names = none := by
  rcases List.eq_nil_or_concat names with rfl | ⟨init, last, rfl⟩
  · cases hp
  · rw [List.concat_eq_append] at hp ⊢
    rw [walkParent_append] at hp
    obtain ⟨d, hw, hp⟩ := Option.bind_eq_some_iff.mp hp
    split at hp
    · obtain ⟨rfl, rfl⟩ := Prod.mk.inj (Option.some.inj hp)
      rw [walk_append]
      cases hw' : walk N' i init with
      | none => rfl
      | some d' =>
          obtain rfl := Option.some.inj (hw.symm.trans (h.walk_mono hw'))
          rw [Option.bind_some, walk]
          split
          · rename_i hdir
            rw [h.lookup d last hdir, if_pos ⟨rfl, rfl⟩]
            rfl
          · rfl
    · cases hp

end DropsName

/-- A directory with one entry more has one name more. -/
theorem addsName_add {x : Node} (hdp : (N dp).IsDir n) (hi : ip < 2 ^ 16) (h0 : ip ≠ 0)
    (hl : (N dp).lookup name = none) (hN : ∀ d, (N d).type = T_DIR → d ≠ dp →
      (N' d).type = T_DIR ∧ (N' d).lookup = (N d).lookup)
    (hx : x.type = T_DIR) (hb : x.bytes = (N dp).bytes) (hN' : N' dp = x.add name ip) :
    AddsName N N' dp name ip := by
  have hxdir : x.IsDir n := hdp.congr (hx.trans hdp.type.symm) hb
  have hnone : x.find name = none := by
    rw [Node.find_congr_bytes hb]
    exact Node.lookup_eq_none.mp hl
  refine ⟨fun d hd => ?_, hl, fun d name' hd => ?_⟩
  · by_cases hdd : d = dp
    · subst hdd
      rw [hN']
      exact hx
    · exact (hN d hd hdd).1
  · by_cases hdd : d = dp
    · subst hdd
      rw [hN']
      by_cases hcut : cstr DIRSIZ name' = cstr DIRSIZ name
      · rw [if_pos ⟨rfl, hcut⟩, Node.lookup_cut hcut]
        exact Node.lookup_add_self hxdir.aligned hi h0 hnone
      · rw [if_neg fun h => hcut h.2, Node.lookup_add_of_ne hxdir.aligned hi hcut,
          Node.lookup_congr hb]
    · rw [if_neg fun h => hdd h.1, (hN d hd hdd).2]

theorem parentNode_spec (nd : Node) (type : ℤ) :
    (parentNode nd type).type = nd.type ∧ (parentNode nd type).bytes = nd.bytes := by
  unfold parentNode
  split <;> exact ⟨rfl, rfl⟩

/-- `create` adds a name. -/
theorem addsName_createIn (hdp : (N dp).IsDir n) (hi : ip < 2 ^ 16) (h0 : ip ≠ 0)
    (hz : (N ip).type = 0) (hl : (N dp).lookup name = none) :
    AddsName N (createIn N dp ip name type major minor) dp name ip := by
  obtain ⟨htype, hbytes⟩ := parentNode_spec (N dp) type
  refine addsName_add hdp hi h0 hl (fun d hd hdd => ?_) (htype.trans hdp.type) hbytes
    (Function.update_self ..)
  have hdi : d ≠ ip := by
    rintro rfl
    rw [hz] at hd
    cases hd
  rw [createIn, Function.update_of_ne hdd, Function.update_of_ne hdi]
  exact ⟨hd, rfl⟩

/-- `link` adds a name. -/
theorem addsName_linkIn (hdp : (N dp).IsDir n) (hi : ip < 2 ^ 16) (h0 : ip ≠ 0)
    (hfile : (N ip).type ≠ T_DIR) (hl : (N dp).lookup name = none) :
    AddsName N (linkIn N dp ip name) dp name ip := by
  refine addsName_add hdp hi h0 hl (fun d hd hdd => ?_) hdp.type rfl (Function.update_self ..)
  have hdi : d ≠ ip := by
    rintro rfl
    exact hfile hd
  rw [linkIn, Function.update_of_ne hdd, Function.update_of_ne hdi]
  exact ⟨hd, rfl⟩

/-- What a new directory holds. -/
theorem newNode_dots (hi : ip < 2 ^ 16) (h0 : ip ≠ 0) (hd : dp < 2 ^ 16) (hd0 : dp ≠ 0) :
    (newNode dp ip T_DIR major minor).type = T_DIR ∧
      (newNode dp ip T_DIR major minor).lookup dot = some ip ∧
      (newNode dp ip T_DIR major minor).lookup dotdot = some dp ∧
      ∀ name, cstr DIRSIZ name ≠ dot → cstr DIRSIZ name ≠ dotdot →
        (newNode dp ip T_DIR major minor).lookup name = none := by
  have hcut : cstr DIRSIZ dot = dot ∧ cstr DIRSIZ dotdot = dotdot := by decide
  have hne : cstr DIRSIZ dot ≠ cstr DIRSIZ dotdot := by decide
  have hfresh : (Node.fresh T_DIR major minor).Aligned := ⟨0, rfl⟩
  have hnone : ∀ name, (Node.fresh T_DIR major minor).lookup name = none := fun _ =>
    Node.lookup_eq_none.mpr Node.find_fresh
  have ha := @Node.aligned_add _ dot ip hfresh
  have hdotdot : ((Node.fresh T_DIR major minor).add dot ip).find dotdot = none := by
    rw [Node.find_add_of_ne hfresh hi hne.symm]
    exact Node.find_fresh
  rw [newNode, if_pos rfl]
  refine ⟨rfl, ?_, Node.lookup_add_self ha hd hd0 hdotdot, fun name h₁ h₂ => ?_⟩
  · rw [Node.lookup_add_of_ne ha hd hne]
    exact Node.lookup_add_self hfresh hi h0 Node.find_fresh
  · rw [Node.lookup_add_of_ne ha hd (by rwa [hcut.2]),
      Node.lookup_add_of_ne hfresh hi (by rwa [hcut.1])]
    exact hnone name

/-- An inode that is dropped is freed or what it was. -/
theorem dropped_dir {r : ℕ} {d : Inum} (h : (dropped N r i d).type = T_DIR) :
    dropped N r i d = N d := by
  unfold dropped at h ⊢
  split at h
  · rename_i hc
    rw [if_pos hc]
    by_cases hd : d = i
    · subst hd
      rw [Function.update_self] at h
      cases h
    · rw [Function.update_of_ne hd]
  · rename_i hc
    rw [if_neg hc]

/-- `unlink` drops a name. -/
theorem dropsName_unlinkIn (hdp : (N dp).IsDir n) (hdist : (N dp).Distinct)
    (hf : (N dp).find name = some k) : DropsName N (unlinkIn N refs dp k) dp name := by
  have hk := (Node.find_spec hf).1
  -- A directory that is there after the call, as it was before its inode lost a link.
  have hback : ∀ d, (unlinkIn N refs dp k d).type = T_DIR →
      ∃ nd : Node, nd.type = T_DIR ∧ (unlinkIn N refs dp k d).bytes = nd.bytes ∧
        nd = Function.update N dp (unlinkParent (N dp) k (N ((N dp).entry k).inum).type) d := by
    intro d hd
    have h₁ := dropped_dir hd
    rw [unlinkIn, h₁] at hd ⊢
    rw [link_type] at hd
    rw [link_bytes]
    exact ⟨_, hd, rfl, dropped_dir hd⟩
  have hparent : ∀ type, (unlinkParent (N dp) k type).type = (N dp).type ∧
      (unlinkParent (N dp) k type).bytes = ((N dp).remove k).bytes := by
    intro type
    unfold unlinkParent
    split <;> exact ⟨rfl, rfl⟩
  refine ⟨fun d hd => ?_, fun d name' hd => ?_⟩
  · obtain ⟨nd, ht, -, rfl⟩ := hback d hd
    by_cases hdd : d = dp
    · subst hdd
      rw [Function.update_self, (hparent _).1] at ht
      exact ht
    · rwa [Function.update_of_ne hdd] at ht
  · obtain ⟨nd, ht, hb, rfl⟩ := hback d hd
    rw [Node.lookup_congr hb]
    by_cases hdd : d = dp
    · subst hdd
      rw [Function.update_self, Node.lookup_congr (hparent _).2]
      by_cases hcut : cstr DIRSIZ name' = cstr DIRSIZ name
      · rw [if_pos ⟨rfl, hcut⟩, Node.lookup_cut hcut]
        exact Node.lookup_remove_self hdp.aligned hdist hf
      · rw [if_neg fun h => hcut h.2]
        exact Node.lookup_remove_of_ne hdp.aligned hf hcut
    · rw [Function.update_of_ne hdd, if_neg fun h => hdd h.1]

/-- An inode that was not free and is free now has had no links and no other references. -/
theorem dropped_freed {r : ℕ} (ht : (N i).type ≠ 0) (h : (dropped N r j i).type = 0) :
    i = j ∧ (dropped N r j i).nlink = 0 ∧ r = 0 := by
  unfold dropped at h ⊢
  split at h
  · rename_i hc
    rw [if_pos hc]
    by_cases hij : i = j
    · subst hij
      rw [Function.update_self]
      exact ⟨rfl, hc.2.1, hc.2.2⟩
    · rw [Function.update_of_ne hij] at h
      exact absurd h ht
  · exact absurd h ht

theorem dropped_of_ne {r : ℕ} (h : i ≠ j) : dropped N r j i = N i := by
  unfold dropped
  split
  · exact Function.update_of_ne h ..
  · rfl

/-- Only an inode without links and without references is freed. -/
theorem unlinkIn_freed (hne : ((N dp).entry k).inum ≠ dp) (ht : (N i).type ≠ 0)
    (h : (unlinkIn N refs dp k i).type = 0) :
    (unlinkIn N refs dp k i).nlink = 0 ∧ refs i = 0 := by
  have hparent : ∀ type, (unlinkParent (N dp) k type).type = (N dp).type := by
    intro type
    unfold unlinkParent
    split <;> rfl
  by_cases hi : i = dp
  · subst hi
    rw [unlinkIn, dropped_of_ne hne.symm, Function.update_of_ne hne.symm] at h ⊢
    refine (dropped_freed ?_ h).2
    rw [Function.update_self, hparent]
    exact ht
  · rw [unlinkIn] at h ⊢
    have hfreed := dropped_freed (i := i) ?_ h
    · obtain ⟨rfl, hn, hr⟩ := hfreed
      exact ⟨hn, hr⟩
    · rw [link_type, dropped_of_ne hi, Function.update_of_ne hi]
      exact ht

end

/-! ### The calls -/

/-- Where the path would add a name to a directory that has no room for it. -/
def State.NoRoom (sb : Superblock) (s : State) (cwd : Inum) (path : Str) : Prop :=
  ∃ dp name, walkParent (s.img.node sb) (start cwd path) (elems path) = some (dp, name) ∧
    Long (s.img.node sb dp) name

/-- How a call stops that adds a name to the tree. -/
def State.AddStops (sb : Superblock) (s : State) (cwd : Inum) (path : Str) (e : Stop) : Prop :=
  s.Stops sb 2 e ∨ e = .ballocOutOfBlocks ∨ (e = .call .dirlink ∧ s.NoRoom sb cwd path)

/-- **`create` adds a name.**  From any state between calls, what it returns is the inode that the path
leads to afterwards, which is a file that was there or a new inode; every path leads where it led;
and where it returns nothing, it has changed nothing. -/
theorem create_adds_name {type major minor : ℤ} (h : s.Settled sb) (hcwd : 0 < s.ref cwd)
    (htype : type ≠ 0) (path : Str) :
    Prog.wp (diskOps sb devsw) (fun e => s.AddStops sb cwd path e ∨
        (e = .iallocNoInodes ∧ ∀ i, 0 < i → i < sb.ninodes → (s.img.dinode i).type ≠ 0))
      (create cwd path type major minor) (fun r t => ∃ N', t.Inv sb ∧
        Created sb.ninodes (s.img.node sb) (start cwd path) (elems path) type major minor r N' ∧
        Holding sb.ninodes N' s.ref r.toList r.toList (t.view sb) ∧
        (∀ ip, r = some ip → walk N' (start cwd path) (elems path) = some ip) ∧
        (∀ i ns j, walk (s.img.node sb) i ns = some j → walk N' i ns = some j) ∧
        (r = none → N' = s.img.node sb)) s := by
  have hE : ∀ e, s.Stops sb 2 e → s.AddStops sb cwd path e ∨ (e = .iallocNoInodes ∧
      ∀ i, 0 < i → i < sb.ninodes → (s.img.dinode i).type ≠ 0) := fun _ he => .inl (.inl he)
  have hc := h.callable hE hcwd path
  have hp : Prog.wp (flatOps sb.ninodes devsw) _ (create cwd path type major minor) _ (s.view sb) :=
    h.holding.create hc h.counted (h.room hE) htype h.fresh (fun hall => .inr ⟨rfl, hall⟩)
      fun dp name hp hlong => .inl (.inr (.inr ⟨rfl, dp, name, hp, hlong⟩))
  refine Prog.wp_imp ((calls_follow _ h.inv).wp hp) ?_ ?_
  · rintro e (rfl | he)
    · exact .inl (.inr (.inl rfl))
    · exact he
  rintro r t ⟨hi, N', hcr, ht⟩
  rw [List.append_nil] at ht
  refine ⟨N', hi, hcr, ht, ?_⟩
  cases hcr with
  | nowhere hp => exact ⟨fun ip hr => (by cases hr), fun _ _ _ hw => hw, fun _ => rfl⟩
  | opened hp hl hf =>
      refine ⟨fun ip hr => ?_, fun _ _ _ hw => hw, fun _ => rfl⟩
      obtain rfl := Option.some.inj hr
      exact (walk_of_walkParent hp).trans hl
  | taken hp hl hf => exact ⟨fun ip hr => (by cases hr), fun _ _ _ hw => hw, fun _ => rfl⟩
  | @made dp ip name hp hl hz h0 hn =>
      have hadds : AddsName (s.img.node sb) (createIn _ dp ip name type major minor) dp name ip :=
        addsName_createIn (h.dirs _ (walkParent_dir hp)) (hn.trans_le h.small) h0 hz hl
      refine ⟨fun ip hr => ?_, fun _ _ _ hw => hadds.walk_mono hw, fun hr => (by cases hr)⟩
      obtain rfl := Option.some.inj hr
      exact hadds.found hp

/-- A second file is made. -/
theorem create_adds_name_g : ∃ N' : Inum → Node, walk N' ROOTINO [nameG] = some 3 ∧
    ∀ i ns j, walk (inRoot.img.node smallDisk) i ns = some j → walk N' i ns = some j := by
  have hrun : ((create ROOTINO nameG T_FILE 0 0).run (diskOps smallDisk noDevices)
      inRoot).toOption.any (fun r => r.1 = some 3) = true := by decide +kernel
  obtain ⟨⟨r, t⟩, hr, heq⟩ := (Option.any_eq_true _ _).mp hrun
  obtain rfl : r = some 3 := of_decide_eq_true heq
  have hcreate := @create_adds_name smallDisk noDevices inRoot ROOTINO T_FILE 0 0 inRoot_settled
    (by decide) (by decide) nameG
  obtain ⟨N', -, -, -, hnew, hold, -⟩ := Prog.wp_of_ok hcreate (Lib.toOption_eq_some.mp hr)
  exact ⟨N', hnew 3 rfl, hold⟩

/-- **`sys_mkdir` makes a directory.**  Where it returns 0 the path leads afterwards to a new directory,
which holds two names: `"."` is the directory itself, and `".."` the directory that it is in, the one
that the path without its last name leads to.  That one has the new name and no other, and a link
more; no other inode has changed, and every path leads where it led.  Where it returns anything else
nothing has changed. -/
theorem sys_mkdir_makes_directory (h : s.Settled sb) (hcwd : 0 < s.ref cwd) (path : Str) :
    Prog.wp (diskOps sb devsw) (fun e => s.AddStops sb cwd path e ∨
        (e = .iallocNoInodes ∧ ∀ i, 0 < i → i < sb.ninodes → (s.img.dinode i).type ≠ 0))
      (sys_mkdir cwd (some path)) (fun r t => ∃ N', t.Inv sb ∧
        Holding sb.ninodes N' s.ref [] [] (t.view sb) ∧
        (r = 0 → ∃ dp name ip,
          walkParent (s.img.node sb) (start cwd path) (elems path) = some (dp, name) ∧
          walk N' (start cwd path) (elems path) = some ip ∧ (s.img.dinode ip).type = 0 ∧
          (N' ip).type = T_DIR ∧ (N' ip).lookup dot = some ip ∧ (N' ip).lookup dotdot = some dp ∧
          (∀ name', cstr DIRSIZ name' ≠ dot → cstr DIRSIZ name' ≠ dotdot →
            (N' ip).lookup name' = none) ∧
          AddsName (s.img.node sb) N' dp name ip ∧
          (N' dp).nlink = short ((s.img.dinode dp).nlink + 1) ∧
          ∀ i, i ≠ dp → i ≠ ip → N' i = s.img.node sb i) ∧
        (∀ i ns j, walk (s.img.node sb) i ns = some j → walk N' i ns = some j) ∧
        (r ≠ 0 → N' = s.img.node sb)) s := by
  have hE : ∀ e, s.Stops sb 2 e → s.AddStops sb cwd path e ∨ (e = .iallocNoInodes ∧
      ∀ i, 0 < i → i < sb.ninodes → (s.img.dinode i).type ≠ 0) := fun _ he => .inl (.inl he)
  have hc := h.callable hE hcwd path
  have hp : Prog.wp (flatOps sb.ninodes devsw) _ (sys_mkdir cwd (some path)) _ (s.view sb) :=
    Prog.wp_seq h.holding.begin_op fun _ u hu => hu.make hc h.counted (h.room hE) (by decide) h.fresh
      (fun hall => .inr ⟨rfl, hall⟩) fun dp name hp hlong => .inl (.inr (.inr ⟨rfl, dp, name, hp, hlong⟩))
  refine Prog.wp_imp ((calls_follow _ h.inv).wp hp) ?_ ?_
  · rintro e (rfl | he)
    · exact .inl (.inr (.inl rfl))
    · exact he
  rintro r t ⟨hi, o, N', hcr, rfl, ht⟩
  refine ⟨N', hi, ht, ?_⟩
  -- Of the four ways in which `create` ends, one makes a directory.
  cases hcr with
  | nowhere hp => exact ⟨fun hr => (by cases hr), fun _ _ _ hw => hw, fun _ => rfl⟩
  | opened hp hl hf => exact absurd hf.1 (by decide)
  | taken hp hl hf => exact ⟨fun hr => (by cases hr), fun _ _ _ hw => hw, fun _ => rfl⟩
  | @made dp ip name hp hl hz h0 hn =>
      have hdir := walkParent_dir hp
      have hadds : AddsName (s.img.node sb) (createIn _ dp ip name T_DIR 0 0) dp name ip :=
        addsName_createIn (h.dirs _ hdir) (hn.trans_le h.small) h0 hz hl
      have hdp0 : dp ≠ 0 := by
        rintro rfl
        have := h.zero.symm.trans hdir
        cases this
      have hlt : dp < sb.ninodes := hc.walkable.walkParent_lt (h.start_lt hcwd path) hp
      have hne : ip ≠ dp := by
        rintro rfl
        rw [hdir] at hz
        cases hz
      have hself : createIn (s.img.node sb) dp ip name T_DIR 0 0 ip = newNode dp ip T_DIR 0 0 := by
        rw [createIn, Function.update_of_ne hne, Function.update_self]
      have hparent : (createIn (s.img.node sb) dp ip name T_DIR 0 0 dp).nlink =
          short ((s.img.dinode dp).nlink + 1) := by
        rw [createIn, Function.update_self]
        rfl
      have hothernodes : ∀ i, i ≠ dp → i ≠ ip →
          createIn (s.img.node sb) dp ip name T_DIR 0 0 i = s.img.node sb i := fun i hdi hii => by
        rw [createIn, Function.update_of_ne hdi, Function.update_of_ne hii]
      obtain ⟨htype, hdot, hdotdot, hothers⟩ := @newNode_dots dp ip 0 0
        (hn.trans_le h.small) h0 (hlt.trans_le h.small) hdp0
      refine ⟨fun _ => ⟨dp, name, ip, hp, hadds.found hp, hz, ?_⟩, fun _ _ _ hw => hadds.walk_mono hw,
        fun hr => absurd rfl hr⟩
      rw [hself]
      exact ⟨htype, hdot, hdotdot, hothers, hadds, hparent, hothernodes⟩

/-- A directory is made. -/
theorem sys_mkdir_makes_directory_g : ∃ (N' : Inum → Node) (ip : Inum),
    walk N' ROOTINO [nameG] = some ip ∧ (N' ip).type = T_DIR ∧
      (N' ip).lookup dotdot = some ROOTINO ∧ (N' ROOTINO).nlink = 2 := by
  have hrun : ((sys_mkdir ROOTINO (some nameG)).run (diskOps smallDisk noDevices)
      inRoot).toOption.any (fun r => r.1 = 0) = true := by decide +kernel
  obtain ⟨⟨r, t⟩, hr, heq⟩ := (Option.any_eq_true _ _).mp hrun
  obtain rfl : r = 0 := of_decide_eq_true heq
  have hmkdir := @sys_mkdir_makes_directory smallDisk noDevices inRoot ROOTINO inRoot_settled
    (by decide) nameG
  obtain ⟨N', -, -, hnew, -⟩ := Prog.wp_of_ok hmkdir (Lib.toOption_eq_some.mp hr)
  obtain ⟨dp, name, ip, hp, hw, -, htype, -, hdotdot, -, -, hlinks, -⟩ := hnew rfl
  have hroot : walkParent (inRoot.img.node smallDisk) (start ROOTINO nameG) (elems nameG) =
      some (ROOTINO, nameG) := by decide +kernel
  obtain ⟨rfl, rfl⟩ := Prod.mk.inj (Option.some.inj (hroot.symm.trans hp))
  exact ⟨N', ip, hw, htype, hdotdot, hlinks⟩

/-- **`sys_link` adds a name.**  Where it returns 0 the new path leads to the inode of the old one,
which is not a directory, and every path leads where it led; where it returns -1, or anything but 0,
it has changed nothing. -/
theorem sys_link_adds_name (h : s.Settled sb) (hcwd : 0 < s.ref cwd) (old new : Str) :
    Prog.wp (diskOps sb devsw) (fun e => s.AddStops sb cwd new e ∨
        (e = .blocked ∧ ∃ dp name, walkParent (s.img.node sb) (start cwd new) (elems new) =
          some (dp, name) ∧ (s.img.node sb dp).lookup name = some dp))
      (sys_link cwd old new) (fun r t => ∃ N', t.Inv sb ∧
        Linked (s.img.node sb) (start cwd old) (elems old) (start cwd new) (elems new) r N' ∧
        Holding sb.ninodes N' s.ref [] [] (t.view sb) ∧
        (r = 0 → ∃ ip, walk (s.img.node sb) (start cwd old) (elems old) = some ip ∧
          walk N' (start cwd new) (elems new) = some ip) ∧
        (∀ i ns j, walk (s.img.node sb) i ns = some j → walk N' i ns = some j) ∧
        (r ≠ 0 → N' = s.img.node sb)) s := by
  have hE : ∀ e, s.Stops sb 2 e → s.AddStops sb cwd new e ∨ (e = .blocked ∧ ∃ dp name,
      walkParent (s.img.node sb) (start cwd new) (elems new) = some (dp, name) ∧
        (s.img.node sb dp).lookup name = some dp) := fun _ he => .inl (.inl he)
  have hp : Prog.wp (flatOps sb.ninodes devsw) _ (sys_link cwd old new) _ (s.view sb) :=
    h.holding.sys_link (h.callable hE hcwd old) (h.callable hE hcwd new) h.counted (h.room hE)
      (fun dp name hp hself => .inr ⟨rfl, dp, name, hp, hself⟩)
      fun dp name hp hlong => .inl (.inr (.inr ⟨rfl, dp, name, hp, hlong⟩))
  refine Prog.wp_imp ((calls_follow _ h.inv).wp hp) ?_ ?_
  · rintro e (rfl | he)
    · exact .inl (.inr (.inl rfl))
    · exact he
  rintro r t ⟨hi, N', hl, ht⟩
  refine ⟨N', hi, hl, ht, ?_⟩
  cases hl with
  | refused hno => exact ⟨fun hr => (by cases hr), fun _ _ _ hw => hw, fun _ => rfl⟩
  | @linked ip dp name hl =>
      have hdir := h.dirs _ (walkParent_dir hl.new)
      have hlt := (h.callable hE hcwd old).walkable.walk_lt (h.start_lt hcwd old) hl.old
      have h0 : ip ≠ 0 := by
        rintro rfl
        exact hl.allocated h.zero
      have hadds := addsName_linkIn hdir (hlt.trans_le h.small) h0 hl.file hl.free
      exact ⟨fun _ => ⟨ip, hl.old, hadds.found hl.new⟩, fun _ _ _ hw => hadds.walk_mono hw,
        fun hr => absurd rfl hr⟩

/-- The file gets a second name. -/
theorem sys_link_adds_name_g : ∃ N' : Inum → Node, walk N' ROOTINO [nameG] = some 2 ∧
    ∀ i ns j, walk (inRoot.img.node smallDisk) i ns = some j → walk N' i ns = some j := by
  have hrun : ((sys_link ROOTINO nameF nameG).run (diskOps smallDisk noDevices)
      inRoot).toOption.any (fun r => r.1 = 0) = true := by decide +kernel
  obtain ⟨⟨r, t⟩, hr, heq⟩ := (Option.any_eq_true _ _).mp hrun
  obtain rfl : r = 0 := of_decide_eq_true heq
  have hlink := @sys_link_adds_name smallDisk noDevices inRoot ROOTINO inRoot_settled (by decide)
    nameF nameG
  obtain ⟨N', -, -, -, hnew, hold, -⟩ := Prog.wp_of_ok hlink (Lib.toOption_eq_some.mp hr)
  obtain ⟨ip, hip, hw⟩ := hnew rfl
  have h2 : walk (inRoot.img.node smallDisk) ROOTINO [nameF] = some 2 := by decide +kernel
  obtain rfl : ip = 2 := Option.some.inj (hip.symm.trans h2)
  exact ⟨N', hw, hold⟩

/-- **`sys_unlink` removes a name.**  Where it returns 0 the path leads nowhere afterwards, no path leads
where it did not lead, the other names of every directory that is left are what they were, and only
inodes without links and without references have been freed; otherwise it has changed nothing. -/
theorem sys_unlink_removes_name (h : s.Settled sb) (hcwd : 0 < s.ref cwd) (path : Str)
    (hdist : ∀ d, (s.img.dinode d).type = T_DIR → (s.img.node sb d).Distinct) :
    Prog.wp (diskOps sb devsw) (fun e => s.Stops sb 2 e ∨ e = .ballocOutOfBlocks ∨
        (∃ dp name ip, walkParent (s.img.node sb) (start cwd path) (elems path) = some (dp, name) ∧
          (s.img.node sb dp).lookup name = some ip ∧ ((e = .blocked ∧ ip = dp) ∨
            (e = .call .unlinkNlink ∧ (s.img.dinode ip).nlink < 1))))
      (sys_unlink cwd path) (fun r t => ∃ N', t.Inv sb ∧
        Unlinked (s.img.node sb) s.ref (start cwd path) (elems path) r N' ∧
        Holding sb.ninodes N' s.ref [] [] (t.view sb) ∧
        (r = 0 → walk N' (start cwd path) (elems path) = none ∧
          ∃ dp name, walkParent (s.img.node sb) (start cwd path) (elems path) = some (dp, name) ∧
            DropsName (s.img.node sb) N' dp name) ∧
        (∀ i ns j, walk N' i ns = some j → walk (s.img.node sb) i ns = some j) ∧
        (∀ i, (s.img.dinode i).type ≠ 0 → (N' i).type = 0 → (N' i).nlink = 0 ∧ s.ref i = 0) ∧
        (r ≠ 0 → N' = s.img.node sb)) s := by
  have hE : ∀ e, s.Stops sb 2 e → s.Stops sb 2 e ∨ e = .ballocOutOfBlocks ∨
      (∃ dp name ip, walkParent (s.img.node sb) (start cwd path) (elems path) = some (dp, name) ∧
        (s.img.node sb dp).lookup name = some ip ∧ ((e = .blocked ∧ ip = dp) ∨
          (e = .call .unlinkNlink ∧ (s.img.dinode ip).nlink < 1))) := fun _ he => .inl he
  have hp : Prog.wp (flatOps sb.ninodes devsw) _ (sys_unlink cwd path) _ (s.view sb) :=
    h.holding.sys_unlink (h.callable hE hcwd path) (h.room hE)
      (fun dp name hp hself => .inr (.inr ⟨dp, name, dp, hp, hself, .inl ⟨rfl, rfl⟩⟩))
      fun dp name ip hp hl hn => .inr (.inr ⟨dp, name, ip, hp, hl, .inr ⟨rfl, hn⟩⟩)
  refine Prog.wp_imp ((calls_follow _ h.inv).wp hp) ?_ ?_
  · rintro e (rfl | he)
    · exact .inr (.inl rfl)
    · exact he
  rintro r t ⟨hi, N', hu, ht⟩
  refine ⟨N', hi, hu, ht, ?_⟩
  cases hu with
  | refused hno =>
      exact ⟨fun hr => (by cases hr), fun _ _ _ hw => hw, fun i hi hz => absurd hz hi, fun _ => rfl⟩
  | @unlinked dp name k hu =>
      have hdir := walkParent_dir hu.parent
      have hdrops : DropsName (s.img.node sb) (unlinkIn _ s.ref dp k) dp name :=
        dropsName_unlinkIn (h.dirs _ hdir) (hdist _ hdir) hu.find
      exact ⟨fun _ => ⟨hdrops.gone hu.parent, dp, name, hu.parent, hdrops⟩,
        fun _ _ _ hw => hdrops.walk_mono hw, fun i hi hz => unlinkIn_freed hu.other hi hz,
        fun hr => absurd rfl hr⟩

/-- The file loses its only name. -/
theorem sys_unlink_removes_name_f : ∃ N' : Inum → Node, walk N' ROOTINO [nameF] = none ∧
    ∀ i ns j, walk N' i ns = some j → walk (inRoot.img.node smallDisk) i ns = some j := by
  have hrun : ((sys_unlink ROOTINO nameF).run (diskOps smallDisk noDevices)
      inRoot).toOption.any (fun r => r.1 = 0) = true := by decide +kernel
  obtain ⟨⟨r, t⟩, hr, heq⟩ := (Option.any_eq_true _ _).mp hrun
  obtain rfl : r = 0 := of_decide_eq_true heq
  have hunlink := @sys_unlink_removes_name smallDisk noDevices inRoot ROOTINO inRoot_settled
    (by decide) nameF inRoot_distinct
  obtain ⟨N', -, -, -, hgone, hold, -⟩ := Prog.wp_of_ok hunlink (Lib.toOption_eq_some.mp hr)
  exact ⟨N', (hgone rfl).1, hold⟩

end Xv6.Fs

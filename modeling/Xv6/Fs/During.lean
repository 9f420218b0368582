import Xv6.Fs.Local

/-!
# File system — a call among others

The rules of the functions of `fs.c` for a process that runs among others, and knows of the inodes
what `fsSpec` lets it know.

* `During` — the view in the middle of a call: what it holds and has locked beyond what the process
  had before.
* `During.dirlookup`, `During.dirlink`, `During.isdirempty` — directories, under their locks.
* `During.namei`, `During.nameiparent` — paths; what they find may be gone by the time they return.
-/

namespace Xv6.Fs

open Lib

/-- A call is correct by itself. -/
abbrev Safe {α : Type} (n : ℕ) (devsw : Devsw) (p : Call α) (Q : α → Local → Prop) (u : Local) : Prop :=
  p.lwp (fsSpec n devsw) Q u

/-- A view in which nothing is locked. -/
def noLocks : Inum → Option Node := fun _ => none

/-- The view `u` of a process whose view before the call was `v`: the call has the references `more`
and knows `k`. -/
structure During (v : Local) (more : Multiset Inum) (k : Inum → Option Node) (u : Local) : Prop where
  held : u.held = more + v.held
  know : u.know = k
  kind : ∀ i type, v.kind i = some type → u.kind i = some type
  typed : ∀ i nd, k i = some nd → u.kind i = some nd.type

theorem Op.safe {n : ℕ} {devsw : Devsw} {u : Local} {o : Op} (ho : o.asks n devsw u) :
    Safe n devsw (.perform o) (fun r w => o.does n devsw u r w) u :=
  Prog.lwp_perform ho fun _ _ hw => hw

namespace During

variable {n : ℕ} {devsw : Devsw} {v u : Local} {more : Multiset Inum} {k : Inum → Option Node}
  {i dp inum : Inum} {nd : Node} {name : Str}

theorem start (v : Local) (hv : v.know = noLocks) : During v 0 noLocks v :=
  ⟨(zero_add v.held).symm, hv, fun _ _ hk => hk, fun _ _ hk => by cases hk⟩

/-- A call within the call. -/
theorem trans {more' : Multiset Inum} {k' : Inum → Option Node} {w : Local}
    (h : During v more k u) (hw : During u more' k' w) : During v (more' + more) k' w :=
  ⟨by rw [hw.held, h.held, add_assoc], hw.know,
    fun i type hk => hw.kind i type (h.kind i type hk), hw.typed⟩

/-! ### Operations -/

theorem begin_op (h : During v more k u) :
    Safe n devsw begin_op (fun _ w => During v more k w) u :=
  Prog.lwp_perform trivial (by rintro _ w rfl; exact h)

theorem end_op (h : During v more k u) :
    Safe n devsw end_op (fun _ w => During v more k w) u :=
  Prog.lwp_perform trivial (by rintro _ w rfl; exact h)

theorem get (h : During v more k u) (i : Inum) : During v (i ::ₘ more) k (u.get i) :=
  ⟨by rw [Local.held_get, h.held, Multiset.cons_add], h.know, h.kind, h.typed⟩

theorem iget (h : During v more k u) (hi : inum < n) :
    Safe n devsw (iget inum) (fun r w => r = inum ∧ During v (inum ::ₘ more) k w) u :=
  Prog.lwp_perform hi (by rintro r w ⟨hr, rfl⟩; exact ⟨hr, h.get inum⟩)

theorem idup (h : During v more k u) (hi : i ∈ more + v.held) :
    Safe n devsw (idup i) (fun r w => r = i ∧ During v (i ::ₘ more) k w) u := by
  have hu : i ∈ u.held := h.held ▸ hi
  exact Prog.lwp_perform hu (by rintro r w ⟨hr, rfl⟩; exact ⟨hr, h.get i⟩)

/-- `ilock`: the inode is one of the table, well formed, and of the type it was known to have. -/
theorem ilock (h : During v more k u) (hi : i ∈ more + v.held) :
    Safe n devsw (ilock i) (fun _ w => k i = none ∧ i < n ∧ ∃ nd, nd.Good n ∧
      (∀ type, u.kind i = some type → nd.type = type) ∧
        During v more (Function.update k i (some nd)) w) u := by
  have hu : i ∈ u.held := h.held ▸ hi
  refine Prog.lwp_perform hu ?_
  rintro _ w ⟨hnone, hlt, nd, hg, htype, rfl⟩
  have hkind : ∀ j, (u.lock i nd).kind j = if j = i then some nd.type else u.kind j :=
    fun j => u.kind_learn i nd.type hu
  have hknow : (u.lock i nd).know = Function.update k i (some nd) := by
    rw [← h.know]
    rfl
  refine ⟨h.know ▸ hnone, hlt, nd, hg, htype, h.held, hknow, ?_, ?_⟩
  · intro j type hk
    rw [hkind]
    split
    · rename_i hj
      rw [htype type (hj ▸ h.kind j type hk)]
    · exact h.kind j type hk
  · intro j nd' hk
    rw [hkind]
    split
    · rename_i hj
      rw [hj, Function.update_self] at hk
      rw [Option.some.inj hk]
    · rename_i hj
      rw [Function.update_of_ne hj] at hk
      exact h.typed j nd' hk

/-- With its lock, what the process knows of an inode is gone, but not its type. -/
theorem iunlock (h : During v more k u) (hi : k i = some nd) :
    Safe n devsw (iunlock i) (fun _ w => w.kind i = some nd.type ∧
      During v more (Function.update k i none) w) u := by
  refine Prog.lwp_perform ⟨nd, h.know ▸ hi⟩ ?_
  rintro _ w rfl
  have hknow : (u.unlock i).know = Function.update k i none := by
    rw [← h.know]
    rfl
  refine ⟨h.typed i nd hi, h.held, hknow, h.kind, fun j nd' hk => ?_⟩
  rw [Function.update_apply] at hk
  split at hk
  · cases hk
  · exact h.typed j nd' hk

/-- A reference that is given back is one less. -/
theorem put (h : During v (i ::ₘ more) k u) (hi : k i = none) : During v more k (u.put i) := by
  have hheld : (u.put i).held = more + v.held := by
    rw [Local.held_put, h.held, Multiset.cons_add, Multiset.erase_cons_head]
  refine ⟨hheld, h.know, fun j type hk => ?_, fun j nd' hk => ?_⟩
  · rw [u.kind_put i (hheld ▸ Multiset.mem_add.mpr (.inr (v.fits j type hk)))]
    exact h.kind j type hk
  · have hj : j ≠ i := by
      rintro rfl
      rw [hi] at hk
      cases hk
    have hu := h.typed j nd' hk
    have hm : j ∈ i ::ₘ (more + v.held) := by
      rw [← Multiset.cons_add, ← h.held]
      exact u.fits j _ hu
    rw [u.kind_put i (hheld ▸ (Multiset.mem_cons.mp hm).resolve_left hj)]
    exact hu

/-- `iput` of a locked inode would wait for ever. -/
theorem iput (h : During v (i ::ₘ more) k u) :
    Safe n devsw (iput i) (fun _ w => k i = none ∧ During v more k w) u := by
  have hi : i ∈ u.held := by
    rw [h.held, Multiset.cons_add]
    exact Multiset.mem_cons_self i _
  refine Prog.lwp_perform hi ?_
  rintro _ w ⟨hnone, rfl⟩
  have hnone : k i = none := h.know ▸ hnone
  exact ⟨hnone, h.put hnone⟩

theorem iunlockput (h : During v (i ::ₘ more) k u) (hi : k i = some nd) :
    Safe n devsw (iunlockput i) (fun _ w => During v more (Function.update k i none) w) u := by
  refine Prog.lwp_seq (h.iunlock hi) ?_
  rintro _ w ⟨-, hw⟩
  exact Prog.lwp_mono hw.iput fun _ _ hx => hx.2

/-- `ialloc` gives a reference to an inode of the type. -/
theorem ialloc (h : During v more k u) {type : ℤ} (ht : type ≠ 0) :
    Safe n devsw (ialloc type) (fun r w => r < n ∧ During v (r ::ₘ more) k w ∧
      w.kind r = some type) u := by
  refine Prog.lwp_perform ht ?_
  rintro r w ⟨hlt, hnone, rfl⟩
  have hget := h.get r
  have hkind : ∀ j, ((u.get r).learn r type).kind j = if j = r then some type else u.kind j :=
    fun j => (u.get r).kind_learn r type (Multiset.mem_cons_self r _)
  -- What was known of other inodes, and the inode was not known.
  have hother : ∀ j type', u.kind j = some type' → ((u.get r).learn r type).kind j = some type' := by
    intro j type' hk
    rw [hkind, if_neg, hk]
    rintro rfl
    rw [hnone] at hk
    cases hk
  exact ⟨hlt, ⟨hget.held, hget.know, fun j type' hk => hother j type' (h.kind j type' hk),
    fun j nd hk => hother j _ (h.typed j nd hk)⟩, (hkind r).trans (if_pos rfl)⟩

theorem attr (h : During v more k u) (hi : k i = some nd) :
    Safe n devsw (attr i) (fun a w => a = nd.attr ∧ w = u) u := by
  refine Prog.lwp_perform ⟨nd, h.know ▸ hi⟩ ?_
  rintro a w ⟨nd', hk, rfl, rfl⟩
  rw [h.know, hi] at hk
  exact ⟨congrArg Node.attr (Option.some.inj hk).symm, rfl⟩

/-- A locked inode is changed. -/
theorem setNode {nd' : Node} (h : During v more k u) (hi : k i = some nd)
    (ht : nd'.type = nd.type) : During v more (Function.update k i (some nd')) (u.set i nd') := by
  have hknow : (u.set i nd').know = Function.update k i (some nd') := by
    rw [← h.know]
    rfl
  refine ⟨h.held, hknow, h.kind, fun j x hk => ?_⟩
  rw [Function.update_apply] at hk
  split at hk
  · rename_i hj
    obtain rfl := Option.some.inj hk
    rw [ht, hj]
    exact h.typed i nd hi
  · exact h.typed j x hk

/-- `iupdate` of an inode that the process knows. -/
theorem iupdate (h : During v more k u) (hi : k i = some nd) (major minor nlink : ℤ) :
    Safe n devsw (iupdate i major minor nlink) (fun _ w =>
      During v more (Function.update k i (some (nd.setFields major minor nlink))) w) u := by
  refine Prog.lwp_perform ⟨nd, h.know ▸ hi⟩ ?_
  rintro _ w ⟨nd', hk, rfl⟩
  rw [h.know, hi] at hk
  obtain rfl := Option.some.inj hk
  exact h.setNode hi rfl

theorem addLink (h : During v more k u) (hi : k i = some nd) (d : ℤ) :
    Safe n devsw (addLink i d) (fun _ w =>
      During v more (Function.update k i (some (nd.link d))) w) u := by
  refine Prog.lwp_seq (h.attr hi) ?_
  rintro a w ⟨rfl, rfl⟩
  exact h.iupdate hi _ _ _

theorem readi (h : During v more k u) (hi : k i = some nd) (off m : ℕ) :
    Safe n devsw (readi i off m) (fun r w => r = nd.read devsw off m ∧ w = u) u := by
  refine Prog.lwp_perform ⟨nd, h.know ▸ hi⟩ ?_
  rintro r w ⟨nd', hk, hr, rfl⟩
  rw [h.know, hi] at hk
  obtain rfl := Option.some.inj hk
  exact ⟨hr, rfl⟩

/-- `writei` to an inode that the process knows. -/
theorem writei (h : During v more k u) (hi : k i = some nd) {off : ℕ} {src : List UInt8}
    (hg : (nd.write devsw off src).2.Good n) :
    Safe n devsw (writei i off src) (fun r w => r = (nd.write devsw off src).1 ∧
      During v more (Function.update k i (some (nd.write devsw off src).2)) w) u := by
  refine Prog.lwp_perform ⟨nd, h.know ▸ hi, hg⟩ ?_
  rintro r w ⟨nd', hk, hr, rfl⟩
  rw [h.know, hi] at hk
  obtain rfl := Option.some.inj hk
  exact ⟨hr, h.setNode hi Node.type_write⟩

/-! ### Directories -/

section

variable {p : CallPanic} {j : ℕ}

/-- An entry is read whole. -/
theorem readDirent (h : During v more k u) (hi : k dp = some nd) (hg : nd.Good n)
    (hd : nd.type = T_DIR) (hj : j < nd.slots) :
    Safe n devsw (readDirent p dp (DESIZE * j)) (fun de w => de = nd.entry j ∧ w = u) u := by
  obtain ⟨hread, hwhole⟩ := hg.read_entry hd devsw hj
  refine Prog.lwp_seq (h.readi hi _ _) ?_
  rintro r w ⟨rfl, rfl⟩
  rw [hread]
  dsimp only
  rw [if_pos hwhole]
  exact ⟨rfl, rfl⟩

/-- An entry is written whole, where the directory may be that long. -/
theorem writeDirent {de : Dirent} (h : During v more k u) (hi : k dp = some nd) (hg : nd.Good n)
    (hd : nd.type = T_DIR) (hj : j ≤ nd.slots) (hn : de.name.length = DIRSIZ)
    (hnew : DESIZE * (j + 1) ≤ MAXFILE * BSIZE → (nd.setEntry j de).Good n)
    (hp : MAXFILE * BSIZE < DESIZE * (j + 1) → p.Possible) :
    Safe n devsw (writeDirent p dp (DESIZE * j) de) (fun _ w => (nd.setEntry j de).Good n ∧
      During v more (Function.update k dp (some (nd.setEntry j de))) w) u := by
  have hwrite := hg.write_entry hd devsw hj hn
  by_cases hfull : MAXFILE * BSIZE < DESIZE * (j + 1)
  · rw [if_pos hfull] at hwrite
    refine Prog.lwp_seq (h.writei hi (by rw [hwrite]; exact hg)) ?_
    rintro r w ⟨rfl, -⟩
    rw [hwrite]
    exact ⟨hp hfull, fun r => r.elim⟩
  · rw [if_neg hfull] at hwrite
    have hgood := hnew (Nat.le_of_not_lt hfull)
    refine Prog.lwp_seq (h.writei hi (by rw [hwrite]; exact hgood)) ?_
    rintro r w ⟨rfl, hw⟩
    rw [hwrite] at hw ⊢
    rw [if_pos rfl]
    exact ⟨hgood, hw⟩

/-- The loop of `dirlookup`, from entry `j` on. -/
theorem dirlookupFrom (h : During v more k u) (hi : k dp = some nd) (hg : nd.Good n)
    (hd : nd.type = T_DIR) (m : ℕ) : ∀ j, j + m ≤ nd.slots →
      Safe n devsw (dirlookupFrom dp name ((List.range' j m).map (DESIZE * ·))) (fun r w =>
        ∃ f, f = (List.range' j m).find? (fun l => (nd.entry l).Names name) ∧
          r = f.map (fun l => ((nd.entry l).inum, DESIZE * l)) ∧
          During v ((f.map fun l => (nd.entry l).inum).toList + more) k w) u := by
  induction m with
  | zero => exact fun j _ => ⟨none, rfl, rfl, by simpa using h⟩
  | succ m ih =>
      intro j hj
      rw [List.range'_succ, List.map_cons, Fs.dirlookupFrom]
      refine Prog.lwp_seq (h.readDirent hi hg hd (by omega)) ?_
      rintro de w ⟨rfl, rfl⟩
      split
      · rename_i hmatch
        have hmatch : (nd.entry j).Names name := hmatch
        have hlt : (nd.entry j).inum < n := (hg.dir hd).1.live j (by omega) hmatch.1
        refine Prog.lwp_seq (h.iget hlt) ?_
        rintro r x ⟨rfl, hx⟩
        refine ⟨some j, ?_, rfl, ?_⟩
        · rw [List.find?_cons_of_pos (by simpa using hmatch)]
        · simpa using hx
      · rename_i hmatch
        have hmatch : ¬ (nd.entry j).Names name := hmatch
        refine Prog.lwp_mono (ih (j + 1) (by omega)) ?_
        rintro r x ⟨f, hf, hr⟩
        refine ⟨f, ?_, hr⟩
        rw [List.find?_cons_of_neg (by simpa using hmatch), hf]

/-- **`dirlookup`** takes a reference to the inode of the name. -/
theorem dirlookup (h : During v more k u) (hi : k dp = some nd) (hg : nd.Good n)
    (hd : nd.type = T_DIR) (name : Str) :
    Safe n devsw (dirlookup dp name) (fun r w =>
      r = (nd.find name).map (fun j => ((nd.entry j).inum, DESIZE * j)) ∧
      During v ((nd.lookup name).toList + more) k w) u := by
  refine Prog.lwp_seq (h.attr hi) ?_
  rintro a w ⟨rfl, rfl⟩
  have htype : ¬ nd.attr.type ≠ T_DIR := not_not.mpr hd
  rw [if_neg htype, offsets_zero (hg.dir hd).1.aligned]
  refine Prog.lwp_mono (h.dirlookupFrom hi hg hd _ 0 (by omega)) ?_
  rintro r x ⟨f, hf, rfl, hx⟩
  rw [← List.range_eq_range'] at hf
  obtain rfl : f = nd.find name := hf
  exact ⟨rfl, hx⟩

/-- The loop of `dirlink`, from entry `j` on. -/
theorem dirlinkSlot (h : During v more k u) (hi : k dp = some nd) (hg : nd.Good n)
    (hd : nd.type = T_DIR) (m : ℕ) : ∀ j, j + m = nd.slots →
      Safe n devsw (dirlinkSlot dp ((List.range' j m).map (DESIZE * ·)) (DESIZE * j)) (fun r w =>
        w = u ∧ r = DESIZE * ((List.range' j m).find? (fun l => (nd.entry l).inum = 0)).getD
          nd.slots) u := by
  induction m with
  | zero =>
      intro j hj
      exact ⟨rfl, congrArg (DESIZE * ·) hj⟩
  | succ m ih =>
      intro j hj
      rw [List.range'_succ, List.map_cons, Fs.dirlinkSlot]
      refine Prog.lwp_seq (h.readDirent hi hg hd (by omega)) ?_
      rintro de w ⟨rfl, rfl⟩
      split
      · rename_i hempty
        refine ⟨rfl, ?_⟩
        rw [List.find?_cons_of_pos (by simpa using hempty)]
        rfl
      · rename_i hempty
        rw [List.find?_cons_of_neg (by simpa using hempty), ← Nat.mul_succ]
        exact ih (j + 1) (by omega)

/-- **`dirlink`** refuses a name that is there, and adds it otherwise. -/
theorem dirlink (h : During v more k u) (hi : k dp = some nd) (hg : nd.Good n)
    (hd : nd.type = T_DIR) (hn : n ≤ 2 ^ 16) (name : Str) (hinum : inum < n) :
    Safe n devsw (dirlink dp name inum) (fun r w =>
      (nd.find name ≠ none ∧ r = -1 ∧ During v more k w) ∨
        (nd.find name = none ∧ r = 0 ∧ (nd.add name inum).Good n ∧
          During v more (Function.update k dp (some (nd.add name inum))) w)) u := by
  refine Prog.lwp_seq (h.dirlookup hi hg hd name) ?_
  rintro r w ⟨rfl, hw⟩
  cases hf : nd.find name with
  | some j =>
      have hl : nd.lookup name = some (nd.entry j).inum := by rw [Node.lookup, hf]; rfl
      rw [hl] at hw
      refine Prog.lwp_seq (During.iput hw) ?_
      rintro _ x ⟨-, hx⟩
      exact .inl ⟨Option.some_ne_none j, rfl, by simpa using hx⟩
  | none =>
      have hl : nd.lookup name = none := by rw [Node.lookup, hf]; rfl
      rw [hl] at hw
      have hw : During v more k w := by simpa using hw
      refine Prog.lwp_seq (hw.attr hi) ?_
      rintro a x ⟨rfl, rfl⟩
      rw [offsets_zero (hg.dir hd).1.aligned]
      refine Prog.lwp_seq (hw.dirlinkSlot hi hg hd _ 0 (Nat.zero_add _)) ?_
      rintro off x ⟨rfl, rfl⟩
      rw [← List.range_eq_range']
      refine Prog.lwp_seq (hw.writeDirent hi hg hd Node.free_le (Dirent.length_make_name ..)
        (hg.add hd hn hinum hf) fun _ => .inl rfl) ?_
      rintro _ y ⟨hgood, hy⟩
      exact .inr ⟨rfl, rfl, hgood, hy⟩

/-- The loop of `isdirempty`, from entry `j` on. -/
theorem isdiremptyFrom (h : During v more k u) (hi : k dp = some nd) (hg : nd.Good n)
    (hd : nd.type = T_DIR) (m : ℕ) : ∀ j, j + m ≤ nd.slots → Safe n devsw
      (isdiremptyFrom dp ((List.range' j m).map (DESIZE * ·))) (fun _ w => w = u) u := by
  induction m with
  | zero => exact fun j _ => rfl
  | succ m ih =>
      intro j hj
      rw [List.range'_succ, List.map_cons, Fs.isdiremptyFrom]
      refine Prog.lwp_seq (h.readDirent hi hg hd (by omega)) ?_
      rintro de w ⟨rfl, rfl⟩
      split
      · exact rfl
      · exact ih (j + 1) (by omega)

/-- `isdirempty` only reads. -/
theorem isdirempty (h : During v more k u) (hi : k dp = some nd) (hg : nd.Good n)
    (hd : nd.type = T_DIR) : Safe n devsw (isdirempty dp) (fun _ w => w = u) u := by
  refine Prog.lwp_seq (h.attr hi) ?_
  rintro a w ⟨rfl, rfl⟩
  rw [offsets_from (hg.dir hd).1.aligned]
  rcases Nat.lt_or_ge nd.slots 2 with hfew | htwo
  · rw [Nat.sub_eq_zero_of_le hfew.le]
    exact rfl
  · exact h.isdiremptyFrom hi hg hd _ 2 (by omega)

end

/-! ### Paths -/

/-- An inode that was locked is unlocked. -/
theorem unlocked {x : Option Node} (hk : k i = none) :
    Function.update (Function.update k i x) i none = k := by
  rw [Function.update_idem, ← hk, Function.update_eq_self]

/-- The end of a walk gives back the directory, or hands it over. -/
theorem namexEnd (h : During v (i ::ₘ more) noLocks u) (b : Bool) (name : Str) :
    Safe n devsw (namexEnd b i name) (fun r w =>
      During v ((r.map Prod.fst).toList + more) noLocks w ∧
        (b = true → ∀ d ∈ r, w.kind d.1 = some T_DIR)) u := by
  cases b with
  | false =>
      refine Prog.lwp_pure.mpr ⟨?_, fun hb => by cases hb⟩
      simpa using h
  | true =>
      refine Prog.lwp_seq h.iput ?_
      rintro _ w ⟨-, hw⟩
      refine Prog.lwp_pure.mpr ⟨?_, fun _ d hd => by cases hd⟩
      simpa using hw

/-- The loop of `namex`.  A directory on the way may change as soon as it is unlocked, but it stays
one. -/
theorem namexLoop (b : Bool) (m : ℕ) : ∀ (i : Inum) (path name : Str) (u : Local),
    During v (i ::ₘ more) noLocks u →
      Safe n devsw (namexLoop b m i path name) (fun r w =>
        During v ((r.map Prod.fst).toList + more) noLocks w ∧
          (b = true → ∀ d ∈ r, w.kind d.1 = some T_DIR)) u := by
  induction m with
  | zero => exact fun i path name u h => h.namexEnd b name
  | succ m ih =>
      intro i path name u h
      rw [Fs.namexLoop]
      cases hs : skipelem path with
      | none => exact h.namexEnd b name
      | some next =>
          obtain ⟨name', rest⟩ := next
          dsimp only
          have hself : ∀ x : Option Node, Function.update noLocks i x i = x := fun x =>
            Function.update_self ..
          refine Prog.lwp_seq (h.ilock (Multiset.mem_add.mpr (.inl (Multiset.mem_cons_self i _)))) ?_
          rintro _ w ⟨-, -, nd, hg, -, hw⟩
          refine Prog.lwp_seq (hw.attr (hself _)) ?_
          rintro a x ⟨rfl, rfl⟩
          have htype : nd.attr.type = nd.type := rfl
          rw [htype]
          by_cases hd : nd.type = T_DIR
          · rw [if_neg (not_not.mpr hd)]
            by_cases hlast : b = true ∧ rest = []
            · -- The last element names no directory that `nameiparent` enters.
              rw [if_pos hlast]
              refine Prog.lwp_seq (hw.iunlock (hself _)) ?_
              rintro _ y ⟨hkind, hy⟩
              rw [unlocked rfl] at hy
              refine Prog.lwp_pure.mpr ⟨by simpa using hy, fun _ d hmem => ?_⟩
              obtain rfl := Option.mem_some_iff.mp hmem
              rw [hkind, hd]
            · rw [if_neg hlast]
              refine Prog.lwp_seq (hw.dirlookup (hself _) hg hd name') ?_
              rintro r y ⟨rfl, hy⟩
              cases hf : nd.find name' with
              | none =>
                  have hl : nd.lookup name' = none := by rw [Node.lookup, hf]; rfl
                  rw [hl] at hy
                  have hy : During v (i ::ₘ more) (Function.update noLocks i (some nd)) y := by
                    simpa using hy
                  refine Prog.lwp_seq (hy.iunlockput (hself _)) ?_
                  intro _ z hz
                  rw [unlocked rfl] at hz
                  refine Prog.lwp_pure.mpr ⟨?_, fun _ d hd => by cases hd⟩
                  simpa using hz
              | some j =>
                  have hl : nd.lookup name' = some (nd.entry j).inum := by
                    rw [Node.lookup, hf]
                    rfl
                  rw [hl] at hy
                  have hy : During v (i ::ₘ (nd.entry j).inum ::ₘ more)
                      (Function.update noLocks i (some nd)) y := by
                    simpa using hy
                  refine Prog.lwp_seq (hy.iunlockput (hself _)) ?_
                  intro _ z hz
                  rw [unlocked rfl] at hz
                  exact ih _ rest name' z hz
          · rw [if_pos hd]
            refine Prog.lwp_seq (hw.iunlockput (hself _)) ?_
            intro _ y hy
            rw [unlocked rfl] at hy
            refine Prog.lwp_pure.mpr ⟨?_, fun _ d hd => by cases hd⟩
            simpa using hy

/-- A walk in any state between calls: the reference is that of its result. -/
theorem namex (h : During v more noLocks u) (hroot : ROOTINO < n) {cwd : Inum}
    (hcwd : cwd ∈ more + v.held) (path : Str) (b : Bool) :
    Safe n devsw (namex cwd path b) (fun r w =>
      During v ((r.map Prod.fst).toList + more) noLocks w ∧
        (b = true → ∀ d ∈ r, w.kind d.1 = some T_DIR)) u := by
  rw [Fs.namex]
  split
  · refine Prog.lwp_seq (h.iget hroot) ?_
    rintro r w ⟨rfl, hw⟩
    exact namexLoop b _ _ path [] w hw
  · refine Prog.lwp_seq (h.idup hcwd) ?_
    rintro r w ⟨rfl, hw⟩
    exact namexLoop b _ _ path [] w hw

/-- **`namei`** returns a reference, or nothing. -/
theorem namei (h : During v more noLocks u) (hroot : ROOTINO < n) {cwd : Inum}
    (hcwd : cwd ∈ more + v.held) (path : Str) :
    Safe n devsw (namei cwd path) (fun r w => During v (r.toList + more) noLocks w) u := by
  refine Prog.lwp_seq (h.namex hroot hcwd path false) ?_
  rintro r w ⟨hw, -⟩
  exact hw

/-- **`nameiparent`** returns a reference to a directory, or nothing. -/
theorem nameiparent (h : During v more noLocks u) (hroot : ROOTINO < n) {cwd : Inum}
    (hcwd : cwd ∈ more + v.held) (path : Str) :
    Safe n devsw (nameiparent cwd path) (fun r w =>
      During v ((r.map Prod.fst).toList + more) noLocks w ∧
        ∀ d ∈ r, w.kind d.1 = some T_DIR) u := by
  refine Prog.lwp_mono (h.namex hroot hcwd path true) ?_
  rintro r w ⟨hw, hdir⟩
  exact ⟨hw, hdir rfl⟩

end During

end Xv6.Fs

import Xv6.Fs.Tree
import Xv6.Fs.View
import Xv6.Lib.Ledger
import Xv6.Lib.Modular
import Mathlib.Data.Multiset.Count

/-!
# File system — what a process knows by itself

The local view of a process inside its calls: the references it has, the contents of the inodes it
has locked, and the types of those it has had locked and still refers to.  `fsSpec` says what each
operation on inodes asks of that view and does to it; `fsSpec_sound`, that no operation of another
process takes it away, and that every directory stays well formed (`Node.Good`).
-/

namespace Xv6.Fs

open Lib

/-- An inode that the calls can work on: not too long, and well formed where it is a directory. -/
structure Node.Good (n : ℕ) (nd : Node) : Prop where
  size : nd.bytes.length ≤ MAXFILE * BSIZE
  dir : nd.type = T_DIR → nd.IsDir n ∧ nd.Distinct

/-- The local view of a process: an inode it refers to keeps its type. -/
@[ext]
structure Local where
  held : Multiset Inum
  know : Inum → Option Node
  kind : Inum → Option ℤ
  fits : ∀ i type, kind i = some type → i ∈ held

namespace Local

variable (v : Local) (ip : Inum)

/-- A reference more. -/
def get : Local :=
  { v with held := ip ::ₘ v.held
           fits := fun i type h => Multiset.mem_cons_of_mem (v.fits i type h) }

/-- A reference less; with the last one nothing is known of the inode. -/
def put : Local where
  held := v.held.erase ip
  know := v.know
  kind := fun i => if i ∈ v.held.erase ip then v.kind i else none
  fits := fun i type h => by
    by_contra hm
    rw [if_neg hm] at h
    cases h

/-- The type of an inode is known. -/
def learn (type : ℤ) : Local where
  held := v.held
  know := v.know
  kind := fun i => if i = ip ∧ ip ∈ v.held then some type else v.kind i
  fits := fun i t h => by
    split at h
    · rename_i hi
      exact hi.1 ▸ hi.2
    · exact v.fits i t h

/-- What is known of an inode that is locked. -/
def set (nd : Node) : Local := { v with know := Function.update v.know ip (some nd) }

/-- An inode is locked: its contents are known, and its type for good. -/
def lock (nd : Node) : Local := (v.learn ip nd.type).set ip nd

/-- Its contents may change from here on. -/
def unlock : Local := { v with know := Function.update v.know ip none }

@[simp]
theorem held_get : (v.get ip).held = ip ::ₘ v.held := rfl

@[simp]
theorem held_put : (v.put ip).held = v.held.erase ip := rfl

theorem kind_put {i : Inum} (h : i ∈ (v.put ip).held) : (v.put ip).kind i = v.kind i := if_pos h

/-- What is known after a reference was given back was known before. -/
theorem kind_of_put {i : Inum} {type : ℤ} (h : (v.put ip).kind i = some type) :
    v.kind i = some type := by
  rwa [kind_put v ip ((v.put ip).fits i type h)] at h

theorem count_put (h : ip ∈ v.held) (i : Inum) :
    (v.put ip).held.count i + (if i = ip then 1 else 0) = v.held.count i := by
  have := Multiset.count_pos.mpr h
  rw [held_put]
  split
  · rename_i hip
    rw [hip, Multiset.count_erase_self]
    omega
  · rename_i hip
    rw [Multiset.count_erase_of_ne hip, Nat.add_zero]

theorem kind_learn (type : ℤ) {i : Inum} (h : ip ∈ v.held) :
    (v.learn ip type).kind i = if i = ip then some type else v.kind i := by
  simp only [learn, h, and_true]

end Local

namespace Node

variable (devsw : Devsw) (nd : Node)

/-- `readi` of a locked inode. -/
def read (off n : ℕ) : Option (List UInt8) :=
  if nd.type = T_DEV then (Devsw.find devsw.read nd.major).bind (· n)
  else if nd.bytes.length < off ∨ wraps off n then none
  else some ((nd.bytes.drop off).take n)

/-- `writei` of a locked inode. -/
def write (off : ℕ) (src : List UInt8) : Option ℕ × Node :=
  if nd.type = T_DEV then ((Devsw.find devsw.write nd.major).bind (· src), nd)
  else if nd.bytes.length < off ∨ wraps off src.length then (none, nd)
  else if MAXFILE * BSIZE < off + src.length then (none, nd)
  else (some src.length, nd.store off src)

/-- The fields that `iupdate` writes. -/
def setFields (major minor nlink : ℤ) : Node :=
  { nd with major := major, minor := minor, nlink := nlink }

variable {devsw nd} {n off k : ℕ} {src : List UInt8} {de : Dirent} {name : Str} {inum : Inum}

theorem type_write : (nd.write devsw off src).2.type = nd.type := by
  unfold write
  split_ifs <;> rfl

theorem Good.setFields {major minor nlink : ℤ} (h : nd.Good n) :
    (nd.setFields major minor nlink).Good n :=
  ⟨h.size, fun ht => ⟨(h.dir ht).1.congr rfl rfl, (h.dir ht).2⟩⟩

/-- A new inode is good. -/
theorem Good.blank {type : ℤ} : (blank type).Good n := by
  refine ⟨Nat.zero_le _, fun ht => ?_⟩
  have hslots : (Node.blank type).slots = 0 := Nat.zero_div _
  refine ⟨⟨ht, ⟨0, rfl⟩, fun k hk => ?_⟩, fun j hj => ?_⟩
  · rw [hslots] at hk
    exact absurd hk (Nat.not_lt_zero k)
  · rw [hslots] at hj
    exact absurd hj (Nat.not_lt_zero j)

theorem Good.freed : nd.freed.Good n :=
  ⟨Nat.zero_le _, fun ht => by cases ht⟩

/-- Only directories need care. -/
theorem Good.write (h : nd.Good n) (ht : nd.type ≠ T_DIR) : (nd.write devsw off src).2.Good n := by
  refine ⟨?_, fun htype => absurd (type_write ▸ htype) ht⟩
  unfold Node.write
  split_ifs with hdev hbad hbig
  · exact h.size
  · exact h.size
  · exact h.size
  · have hoff : off ≤ nd.bytes.length := by
      have := not_or.mp hbad
      omega
    rw [length_store _ _ hoff]
    have := h.size
    omega

section

variable (h : nd.Good n) (ht : nd.type = T_DIR)

include h ht

/-- An entry is read whole. -/
theorem Good.read_entry (devsw : Devsw) (hk : k < nd.slots) :
    nd.read devsw (DESIZE * k) DESIZE = some ((nd.bytes.drop (DESIZE * k)).take DESIZE) ∧
      ((nd.bytes.drop (DESIZE * k)).take DESIZE).length = DESIZE := by
  have hlen := (h.dir ht).1.aligned.length_eq
  have hsize := h.size
  have hfits : ¬ (nd.bytes.length < DESIZE * k ∨ wraps (DESIZE * k) DESIZE) := by
    simp only [wraps, MAXFILE, NDIRECT, NINDIRECT, BSIZE, DESIZE, DIRSIZ] at *
    omega
  refine ⟨?_, ?_⟩
  · rw [Node.read, if_neg (by rw [ht]; decide), if_neg hfits]
  · rw [List.length_take, List.length_drop, hlen]
    simp only [DESIZE, DIRSIZ] at *
    omega

/-- An entry is written whole, unless the directory would be too long. -/
theorem Good.write_entry (devsw : Devsw) (hk : k ≤ nd.slots) (hn : de.name.length = DIRSIZ) :
    nd.write devsw (DESIZE * k) de.encode =
      if MAXFILE * BSIZE < DESIZE * (k + 1) then (none, nd) else (some DESIZE, nd.setEntry k de) := by
  have hlen := (h.dir ht).1.aligned.length_eq
  have hsize := h.size
  have hencode := Dirent.length_encode hn
  have hfits : ¬ (nd.bytes.length < DESIZE * k ∨ wraps (DESIZE * k) de.encode.length) := by
    simp only [wraps, MAXFILE, NDIRECT, NINDIRECT, BSIZE, DESIZE, DIRSIZ] at *
    omega
  rw [Node.write, if_neg (by rw [ht]; decide), if_neg hfits, hencode]
  rfl

/-- A good directory is good with one name more. -/
theorem Good.add (hn : n ≤ 2 ^ 16) (hi : inum < n) (hnone : nd.find name = none)
    (hfits : DESIZE * (nd.free + 1) ≤ MAXFILE * BSIZE) : (nd.add name inum).Good n := by
  obtain ⟨hd, hdistinct⟩ := h.dir ht
  refine ⟨?_, fun _ => ⟨hd.add hn hi, distinct_add hd.aligned hdistinct (hi.trans_le hn) hnone⟩⟩
  have hlen := hd.aligned.length_eq
  have hsize := h.size
  rw [Node.add, length_setEntry hd.aligned free_le (Dirent.length_make_name ..)]
  simp only [DESIZE, DIRSIZ] at *
  omega

theorem Good.fits (hk : k < nd.slots) : ¬ MAXFILE * BSIZE < DESIZE * (k + 1) := by
  have hlen := (h.dir ht).1.aligned.length_eq
  have hsize := h.size
  simp only [DESIZE, DIRSIZ] at *
  omega

/-- It is good with one name less. -/
theorem Good.remove (hk : k < nd.slots) : (nd.remove k).Good n := by
  obtain ⟨hd, hdistinct⟩ := h.dir ht
  refine ⟨?_, fun _ => ⟨hd.remove hk, distinct_remove hd.aligned hk hdistinct⟩⟩
  have hlen := hd.aligned.length_eq
  have hsize := h.size
  rw [Node.remove, length_setEntry hd.aligned hk.le (by simp [Dirent.zero]),
    Nat.max_eq_left (Nat.succ_le_of_lt hk), ← hlen]
  exact hsize

end

end Node

variable {n : ℕ} {devsw : Devsw}

theorem Flat.readi_eq (s : Flat) (ip : Inum) (off k : ℕ) :
    s.readi devsw ip off k = (s.node ip).read devsw off k := rfl

/-- `writei` changes the one inode. -/
theorem Flat.writei_eq (s : Flat) (ip : Inum) (off : ℕ) (src : List UInt8) :
    s.writei devsw ip off src = (((s.node ip).write devsw off src).1,
      s.setNode ip ((s.node ip).write devsw off src).2) := by
  have hsame : s.setNode ip (s.node ip) = s := by
    simp [Flat.setNode]
  unfold Flat.writei Node.write
  dsimp only
  split_ifs
  · rw [hsame]
  · rw [hsame]
  · rw [hsame]
  · rfl

/-! ### What operations ask and do -/

/-- The panics that the calls may end in: a directory is full, a link count is wrong, a new inode is
not empty, or a device has not written all it was given. -/
def CallPanic.Possible (p : CallPanic) : Prop :=
  p = .dirlink ∨ p = .unlinkNlink ∨ p = .createDots ∨ p = .shortFilewrite

/-- What an operation asks of the process that performs it. -/
def Op.asks (n : ℕ) (devsw : Devsw) (v : Local) : Op → Prop
  | .begin_op | .end_op => True
  | .panic p => p.Possible
  | .iget inum => inum < n
  | .idup ip | .ilock ip | .iput ip => ip ∈ v.held
  | .ialloc type => type ≠ 0
  | .iunlock ip | .attr ip | .iupdate ip _ _ _ | .readi ip _ _ => ∃ nd, v.know ip = some nd
  | .writei ip off src => ∃ nd, v.know ip = some nd ∧ (nd.write devsw off src).2.Good n

/-- What the process knows after it. -/
def Op.does (n : ℕ) (devsw : Devsw) (v : Local) : (o : Op) → o.Res → Local → Prop
  | .begin_op, _, w | .end_op, _, w => w = v
  | .panic _, _, _ => False
  | .iget inum, r, w => r = inum ∧ w = v.get inum
  | .idup ip, r, w => r = ip ∧ w = v.get ip
  | .ilock ip, _, w => v.know ip = none ∧ ip < n ∧ ∃ nd, nd.Good n ∧
      (∀ type, v.kind ip = some type → nd.type = type) ∧ w = v.lock ip nd
  | .iunlock ip, _, w => w = v.unlock ip
  | .iput ip, _, w => v.know ip = none ∧ w = v.put ip
  | .ialloc type, r, w => r < n ∧ v.kind r = none ∧ w = (v.get r).learn r type
  | .attr ip, r, w => ∃ nd, v.know ip = some nd ∧ r = nd.attr ∧ w = v
  | .iupdate ip major minor nlink, _, w => ∃ nd, v.know ip = some nd ∧
      w = v.set ip (nd.setFields major minor nlink)
  | .readi ip off k, r, w => ∃ nd, v.know ip = some nd ∧ r = nd.read devsw off k ∧ w = v
  | .writei ip off src, r, w => ∃ nd, v.know ip = some nd ∧ r = (nd.write devsw off src).1 ∧
      w = v.set ip (nd.write devsw off src).2

/-- What may be assumed of the operations. -/
def fsSpec (n : ℕ) (devsw : Devsw) : Spec Op Op.Res Local where
  pre := fun o v => o.asks n devsw v
  post := fun o v => o.does n devsw v

/-! ### Views that fit the state -/

variable {ι : Type} [Fintype ι] [DecidableEq ι]

/-- The views of the processes fit the state, in which there are `R` references besides theirs. -/
structure Sat (n : ℕ) (R : Inum → ℕ) (vs : ι → Local) (s : Flat) : Prop where
  ref : ∀ i, s.ref i = R i + ∑ t, (vs t).held.count i
  locked : ∀ i, s.locked i = true ↔ ∃ t, (vs t).know i ≠ none
  alone : ∀ t t' i, (vs t).know i ≠ none → (vs t').know i ≠ none → t = t'
  content : ∀ t i nd, (vs t).know i = some nd → s.node i = nd
  kind : ∀ t i type, (vs t).kind i = some type → (s.node i).type = type ∧ type ≠ 0
  range : ∀ i, 0 < s.ref i → i < n
  coherent : ∀ i, 0 < s.ref i → s.valid i = true → (s.node i).type ≠ 0
  inUse : ∀ i, s.locked i = true → 0 < s.ref i ∧ s.valid i = true
  good : ∀ i, (s.node i).Good n

/-- What ends a run of processes: want of an inode, a name that is dangling, or a panic of a call. -/
def Wanting (e : Stop) : Prop :=
  e = .igetNoInodes ∨ e = .iallocNoInodes ∨ e = .ilockNoType ∨ ∃ p, p.Possible ∧ e = .call p

namespace Sat

variable {R : Inum → ℕ} {vs : ι → Local} {s u : Flat} {t : ι} {w : Local} {ip : Inum} {c : Icache}

/-- References are counted by process. -/
theorem sum_held (vs : ι → Local) (t : ι) (w : Local) (i : Inum) :
    ∑ u, (Function.update vs t w u).held.count i + (vs t).held.count i =
      ∑ u, (vs u).held.count i + w.held.count i :=
  sum_update (Finset.mem_univ t) (fun _ v => v.held.count i) vs w

omit [DecidableEq ι] in
/-- Who knows an inode is who has it locked. -/
theorem locked_of_know (h : Sat n R vs s) {nd : Node} (hk : (vs t).know ip = some nd) :
    s.locked ip = true ∧ s.node ip = nd ∧ nd.type ≠ 0 ∧ nd.Good n := by
  have hl := (h.locked ip).mpr ⟨t, by rw [hk]; exact Option.some_ne_none nd⟩
  obtain ⟨hr, hv⟩ := h.inUse ip hl
  have hc := h.content t ip nd hk
  exact ⟨hl, hc, hc ▸ h.coherent ip hr hv, hc ▸ h.good ip⟩

theorem held_le (h : Sat n R vs s) (t : ι) (i : Inum) : (vs t).held.count i ≤ s.ref i := by
  have := Finset.add_sum_erase Finset.univ (fun t => (vs t).held.count i) (Finset.mem_univ t)
  have := h.ref i
  omega

theorem ref_pos (h : Sat n R vs s) (hi : ip ∈ (vs t).held) : 0 < s.ref ip :=
  (Multiset.count_pos.mpr hi).trans_le (h.held_le t ip)

omit [DecidableEq ι] in
/-- A lock is that of the process or of another. -/
theorem locked_split (h : Sat n R vs s) (t : ι) (i : Inum) :
    s.locked i = true ↔ (s.locked i = true ∧ (vs t).know i = none) ∨ (vs t).know i ≠ none := by
  constructor
  · intro hl
    by_cases hk : (vs t).know i = none
    · exact .inl ⟨hl, hk⟩
    · exact .inr hk
  · rintro (⟨hl, -⟩ | hk)
    · exact hl
    · exact (h.locked i).mpr ⟨t, hk⟩

/-- One process has moved: the inodes that others know have not changed, and those that others refer
to have their types. -/
theorem move (h : Sat n R vs s)
    (href : ∀ i, u.ref i + (vs t).held.count i = s.ref i + w.held.count i)
    (hlocked : ∀ i, u.locked i = true ↔ (s.locked i = true ∧ (vs t).know i = none) ∨ w.know i ≠ none)
    (hfree : ∀ i, w.know i ≠ none → (vs t).know i ≠ none ∨ s.locked i = false)
    (hcontent : ∀ i nd, w.know i = some nd → u.node i = nd)
    (hkind : ∀ i type, w.kind i = some type → (u.node i).type = type ∧ type ≠ 0)
    (hothers : ∀ t' ≠ t, ∀ i, (vs t').know i ≠ none → u.node i = s.node i)
    (htypes : ∀ t' ≠ t, ∀ i, i ∈ (vs t').held → (s.node i).type ≠ 0 →
      (u.node i).type = (s.node i).type)
    (hrange : ∀ i, 0 < u.ref i → i < n)
    (hcoherent : ∀ i, 0 < u.ref i → u.valid i = true → (u.node i).type ≠ 0)
    (hinUse : ∀ i, u.locked i = true → 0 < u.ref i ∧ u.valid i = true)
    (hgood : ∀ i, (u.node i).Good n) : Sat n R (Function.update vs t w) u := by
  have hview : ∀ t' ≠ t, Function.update vs t w t' = vs t' := fun t' ht' => Function.update_of_ne ht' ..
  -- What the step makes known to `t`, no other task knew.
  have hne : ∀ {t' i}, t' ≠ t → (vs t').know i ≠ none → w.know i = none := by
    intro t' i ht' hk
    by_contra hw
    have hl := (h.locked i).mpr ⟨t', hk⟩
    rcases hfree i hw with hk' | hno
    · exact ht' (h.alone t' t i hk hk')
    · rw [hl] at hno
      cases hno
  refine ⟨fun i => ?_, fun i => ?_, fun t₁ t₂ i h₁ h₂ => ?_, fun t' i nd hk => ?_,
    fun t' i type hk => ?_, hrange, hcoherent, hinUse, hgood⟩
  · have := sum_held vs t w i
    have := h.ref i
    have := href i
    omega
  · rw [hlocked, h.locked]
    constructor
    · rintro (⟨⟨t', hk⟩, hno⟩ | hk)
      · have ht' : t' ≠ t := by
          rintro rfl
          exact hk hno
        exact ⟨t', by rwa [hview t' ht']⟩
      · exact ⟨t, by rwa [Function.update_self]⟩
    · rintro ⟨t', hk⟩
      by_cases ht' : t' = t
      · subst ht'
        rw [Function.update_self] at hk
        exact .inr hk
      · rw [hview t' ht'] at hk
        refine .inl ⟨⟨t', hk⟩, ?_⟩
        by_contra hno
        exact ht' (h.alone t' t i hk hno)
  · by_cases ht₁ : t₁ = t
    · by_cases ht₂ : t₂ = t
      · rw [ht₁, ht₂]
      · rw [ht₁, Function.update_self] at h₁
        rw [hview t₂ ht₂] at h₂
        exact absurd (hne ht₂ h₂) h₁
    · rw [hview t₁ ht₁] at h₁
      by_cases ht₂ : t₂ = t
      · rw [ht₂, Function.update_self] at h₂
        exact absurd (hne ht₁ h₁) h₂
      · rw [hview t₂ ht₂] at h₂
        exact h.alone t₁ t₂ i h₁ h₂
  · by_cases ht' : t' = t
    · subst ht'
      rw [Function.update_self] at hk
      exact hcontent i nd hk
    · rw [hview t' ht'] at hk
      rw [hothers t' ht' i (by rw [hk]; exact Option.some_ne_none nd)]
      exact h.content t' i nd hk
  · by_cases ht' : t' = t
    · subst ht'
      rw [Function.update_self] at hk
      exact hkind i type hk
    · rw [hview t' ht'] at hk
      obtain ⟨htype, h0⟩ := h.kind t' i type hk
      exact ⟨(htypes t' ht' i ((vs t').fits i type hk) (htype ▸ h0)).trans htype, h0⟩

/-- The cache has changed, and no inode. -/
theorem cache (h : Sat n R vs s) (hu : u = { s with toIcache := c })
    (href : ∀ i, c.ref i + (vs t).held.count i = s.ref i + w.held.count i)
    (hlocked : c.locked = s.locked) (hknow : w.know = (vs t).know)
    (hkind : ∀ i type, w.kind i = some type → (vs t).kind i = some type)
    (hrange : ∀ i, 0 < c.ref i → i < n)
    (hvalid : ∀ i, 0 < c.ref i → c.valid i = true → 0 < s.ref i ∧ s.valid i = true)
    (hinUse : ∀ i, s.locked i = true → 0 < c.ref i ∧ c.valid i = true) :
    Sat n R (Function.update vs t w) u := by
  subst hu
  refine h.move href (fun i => ?_) (fun i hk => .inl (hknow ▸ hk)) (fun i nd hk => ?_)
    (fun i type hk => h.kind t i type (hkind i type hk)) (fun _ _ _ _ => rfl)
    (fun _ _ _ _ _ => rfl) hrange
    (fun i hr hv => h.coherent i (hvalid i hr hv).1 (hvalid i hr hv).2)
    (fun i hl => hinUse i (hlocked ▸ hl)) h.good
  · rw [hlocked, hknow]
    exact h.locked_split t i
  · exact h.content t i nd (hknow ▸ hk)

/-- `iget` gives the process a reference. -/
theorem get {inum : Inum} (h : Sat n R vs s) (hc : s.toIcache.iget n inum = .ok c) :
    Sat n R (Function.update vs t ((vs t).get inum)) { s with toIcache := c } := by
  obtain ⟨hlt, hlocked, href, hvalid⟩ := Icache.iget_spec hc
  refine h.cache rfl (fun i => ?_) hlocked rfl (fun _ _ hk => hk) (fun i hr => ?_)
    (fun i hr hv => ?_) fun i hl => ?_
  · rw [href, Local.get, Multiset.count_cons]
    split <;> omega
  · have := h.range i
    grind
  · grind
  · have := h.inUse i hl
    grind

/-- `idup` gives it one more. -/
theorem dup (h : Sat n R vs s) (hc : s.toIcache.idup ip = .ok c) :
    Sat n R (Function.update vs t ((vs t).get ip)) { s with toIcache := c } := by
  obtain ⟨hpos, rfl⟩ := Icache.idup_spec hc
  have href : ∀ i, (s.setRef ip (s.ref ip + 1)).ref i = if i = ip then s.ref i + 1 else s.ref i := by
    intro i
    simp only [Icache.setRef, Function.update_apply]
    split
    · rename_i hi
      rw [hi]
    · rfl
  refine h.cache rfl (fun i => ?_) rfl rfl (fun _ _ hk => hk) (fun i hr => ?_)
    (fun i hr hv => ?_) fun i hl => ?_
  · rw [href, Local.get, Multiset.count_cons]
    split <;> omega
  · have := h.range i
    grind
  · have hv : s.valid i = true := hv
    grind
  · have := h.inUse i hl
    have hval : (s.setRef ip (s.ref ip + 1)).valid i = s.valid i := rfl
    grind

/-- The type of an inode in use may be known by whoever refers to it. -/
theorem learn (h : Sat n R vs s) (ht : (s.node ip).type ≠ 0) :
    Sat n R (Function.update vs t ((vs t).learn ip (s.node ip).type)) s := by
  refine h.move (fun _ => rfl) (h.locked_split t) (fun i hk => .inl hk) (h.content t)
    (fun i type hk => ?_) (fun _ _ _ _ => rfl) (fun _ _ _ _ _ => rfl) h.range h.coherent h.inUse
    h.good
  unfold Local.learn at hk
  dsimp only at hk
  split at hk
  · rename_i hi
    obtain rfl := Option.some.inj hk
    exact ⟨hi.1 ▸ rfl, ht⟩
  · exact h.kind t i type hk

/-- Whoever locks an inode knows its contents: no other has it locked. -/
theorem set (h : Sat n R vs s) (hc : s.toIcache.ilock ip (s.node ip).type = .ok c) :
    (vs t).know ip = none ∧ (s.node ip).type ≠ 0 ∧
      Sat n R (Function.update vs t ((vs t).set ip (s.node ip))) { s with toIcache := c } := by
  obtain ⟨hpos, hfree, htype, rfl⟩ := Icache.ilock_spec hc
  have ht : (s.node ip).type ≠ 0 := by
    cases hv : s.valid ip with
    | false => exact htype hv
    | true => exact h.coherent ip hpos hv
  have hnone : (vs t).know ip = none := by
    by_contra hk
    rw [(h.locked ip).mpr ⟨t, hk⟩] at hfree
    cases hfree
  have hknow : ∀ i, ((vs t).set ip (s.node ip)).know i =
      if i = ip then some (s.node ip) else (vs t).know i := fun i => by
    simp only [Local.set, Function.update_apply]
  have hlocked : ∀ i, ((s.setLocked ip true).setValid ip true).locked i =
      if i = ip then true else s.locked i := fun i => by
    simp only [Icache.setLocked, Icache.setValid, Function.update_apply]
  have hvalid : ∀ i, ((s.setLocked ip true).setValid ip true).valid i =
      if i = ip then true else s.valid i := fun i => by
    simp only [Icache.setLocked, Icache.setValid, Function.update_apply]
  refine ⟨hnone, ht, ?_⟩
  refine h.move (fun _ => rfl) (fun i => ?_) (fun i hk => ?_) (fun i nd hk => ?_)
    (fun i type hk => h.kind t i type hk) (fun _ _ _ _ => rfl) (fun _ _ _ _ _ => rfl) h.range
    (fun i hr hv => ?_) (fun i hl => ?_) h.good
  · simp only [hlocked, hknow]
    by_cases hi : i = ip
    · subst hi
      simp
    · simp only [if_neg hi]
      exact h.locked_split t i
  · rw [hknow] at hk
    by_cases hi : i = ip
    · exact .inr (hi ▸ hfree)
    · rw [if_neg hi] at hk
      exact .inl hk
  · rw [hknow] at hk
    by_cases hi : i = ip
    · rw [if_pos hi] at hk
      rw [hi]
      exact Option.some.inj hk
    · rw [if_neg hi] at hk
      exact h.content t i nd hk
  · simp only [hvalid] at hv
    by_cases hi : i = ip
    · exact hi ▸ ht
    · rw [if_neg hi] at hv
      exact h.coherent i hr hv
  · simp only [hlocked] at hl
    simp only [hvalid]
    by_cases hi : i = ip
    · exact ⟨hi ▸ hpos, if_pos hi⟩
    · rw [if_neg hi] at hl ⊢
      exact h.inUse i hl

theorem lock (h : Sat n R vs s) (hc : s.toIcache.ilock ip (s.node ip).type = .ok c) :
    (vs t).know ip = none ∧
      Sat n R (Function.update vs t ((vs t).lock ip (s.node ip))) { s with toIcache := c } := by
  obtain ⟨hnone, ht, -⟩ := h.set (t := t) hc
  obtain ⟨-, -, hset⟩ := (h.learn (t := t) ht).set (t := t) hc
  rw [Function.update_self, Function.update_idem] at hset
  exact ⟨hnone, hset⟩

/-- With the lock the contents are given up. -/
theorem unlock (h : Sat n R vs s) (hk : (vs t).know ip ≠ none)
    (hc : s.toIcache.iunlock ip = .ok c) :
    Sat n R (Function.update vs t ((vs t).unlock ip)) { s with toIcache := c } := by
  obtain ⟨hl, hpos, rfl⟩ := Icache.iunlock_spec hc
  have hknow : ∀ i, ((vs t).unlock ip).know i = if i = ip then none else (vs t).know i :=
    fun i => by simp only [Local.unlock, Function.update_apply]
  have hlocked : ∀ i, (s.setLocked ip false).locked i = if i = ip then false else s.locked i :=
    fun i => by simp only [Icache.setLocked, Function.update_apply]
  refine h.move (fun _ => rfl) (fun i => ?_) (fun i hk => ?_) (fun i nd hk => ?_)
    (fun i type hk' => h.kind t i type hk') (fun _ _ _ _ => rfl) (fun _ _ _ _ _ => rfl) h.range
    h.coherent (fun i hl' => ?_) h.good
  · simp only [hlocked, hknow]
    by_cases hi : i = ip
    · subst hi
      simp [hk]
    · simp only [if_neg hi]
      exact h.locked_split t i
  · rw [hknow] at hk
    split at hk
    · exact absurd rfl hk
    · exact .inl hk
  · rw [hknow] at hk
    split at hk
    · cases hk
    · exact h.content t i nd hk
  · simp only [hlocked] at hl'
    split at hl'
    · cases hl'
    · exact h.inUse i hl'

/-- A process changes an inode that it knows. -/
theorem change {nd : Node} (h : Sat n R vs s) (hk : (vs t).know ip ≠ none)
    (ht : nd.type = (s.node ip).type) (hg : nd.Good n) :
    Sat n R (Function.update vs t ((vs t).set ip nd)) (s.setNode ip nd) := by
  have hnode : ∀ i, (s.setNode ip nd).node i = if i = ip then nd else s.node i := fun i => by
    simp only [Flat.setNode, Function.update_apply]
  have htypes : ∀ i, ((s.setNode ip nd).node i).type = (s.node i).type := fun i => by
    rw [hnode]
    split
    · rename_i hi
      rw [ht, hi]
    · rfl
  have hknow : ∀ i, ((vs t).set ip nd).know i = if i = ip then some nd else (vs t).know i :=
    fun i => by simp only [Local.set, Function.update_apply]
  refine h.move (fun _ => rfl) (fun i => ?_) (fun i hk' => ?_) (fun i nd' hk' => ?_)
    (fun i type hk' => ?_) (fun t' ht' i hk' => ?_) (fun _ _ i _ _ => htypes i) h.range
    (fun i hr hv => ?_) h.inUse fun i => ?_
  · have hsame : ((vs t).set ip nd).know i ≠ none ↔ (vs t).know i ≠ none := by
      rw [hknow]
      split
      · rename_i hi
        exact iff_of_true (Option.some_ne_none nd) (hi ▸ hk)
      · exact Iff.rfl
    rw [hsame]
    exact h.locked_split t i
  · rw [hknow] at hk'
    split at hk'
    · rename_i hi
      exact .inl (hi ▸ hk)
    · exact .inl hk'
  · rw [hknow] at hk'
    rw [hnode]
    split at hk'
    · rename_i hi
      rw [if_pos hi]
      exact Option.some.inj hk'
    · rename_i hi
      rw [if_neg hi]
      exact h.content t i nd' hk'
  · obtain ⟨htype, h0⟩ := h.kind t i type hk'
    exact ⟨(htypes i).trans htype, h0⟩
  · rw [hnode, if_neg]
    rintro rfl
    exact ht' (h.alone t' t i hk' hk)
  · rw [htypes]
    exact h.coherent i hr hv
  · rw [hnode]
    split
    · exact hg
    · exact h.good i

/-- Two processes that refer to an inode have two references. -/
theorem two_le_ref {t' : ι} (h : Sat n R vs s) (ht : t' ≠ t) (hi : ip ∈ (vs t).held)
    (hi' : ip ∈ (vs t').held) : 2 ≤ s.ref ip := by
  have h₁ := Finset.add_sum_erase Finset.univ (fun t => (vs t).held.count ip) (Finset.mem_univ t)
  have h₂ := Finset.add_sum_erase (Finset.univ.erase t) (fun t => (vs t).held.count ip)
    (Finset.mem_erase.mpr ⟨ht, Finset.mem_univ t'⟩)
  have := Multiset.count_pos.mpr hi
  have := Multiset.count_pos.mpr hi'
  have := h.ref ip
  omega

omit [Fintype ι] [DecidableEq ι] in
theorem ref_put {nlink : ℤ} (hi : ip ∈ (vs t).held) (hc : s.toIcache.iput ip nlink = .ok c)
    (i : Inum) :
    c.ref i + (vs t).held.count i = s.ref i + ((vs t).put ip).held.count i := by
  have := Local.count_put (vs t) ip hi i
  have := (Icache.iput_fields hc).2 i
  omega

/-- With the last reference an unlinked inode is freed; nobody else can know of it. -/
theorem put_freed (h : Sat n R vs s) (hi : ip ∈ (vs t).held)
    (hc : s.toIcache.iput ip (s.node ip).nlink = .ok c)
    (hf : s.frees ip (s.node ip).nlink = true) :
    Sat n R (Function.update vs t ((vs t).put ip))
      { s.setNode ip (s.node ip).freed with toIcache := c } := by
  obtain ⟨hpos, hfree, hcache⟩ := Icache.iput_spec hc
  obtain ⟨hlocked, hrefc⟩ := Icache.iput_fields hc
  rw [if_pos hf] at hcache
  have hone : s.ref ip = 1 := by
    simp only [Icache.frees, decide_eq_true_eq] at hf
    exact hf.2.2
  have hother : ∀ i, s.locked i = true → i ≠ ip := by
    rintro i hl rfl
    rw [hl] at hfree
    cases hfree
  have hvalid : ∀ i, c.valid i = if i = ip then false else s.valid i := fun i => by
    rw [hcache]
    simp only [Icache.setRef, Icache.setValid, Function.update_apply]
  have hnode : ∀ i, ({ s.setNode ip (s.node ip).freed with toIcache := c } : Flat).node i =
      if i = ip then (s.node ip).freed else s.node i := fun i => by
    simp only [Flat.setNode, Function.update_apply]
  have hsame : ∀ i, i ≠ ip →
      ({ s.setNode ip (s.node ip).freed with toIcache := c } : Flat).node i = s.node i :=
    fun i hip => by rw [hnode, if_neg hip]
  refine h.move (ref_put hi hc) (fun i => ?_) (fun i hk => .inl hk) (fun i nd hk => ?_)
    (fun i type hk => ?_) (fun t' ht' i hk => hsame i (hother i ((h.locked i).mpr ⟨t', hk⟩)))
    (fun t' ht' i hm _ => ?_) (fun i hr => ?_) (fun i hr hv => ?_) (fun i hl => ?_) fun i => ?_
  · show c.locked i = true ↔ _
    rw [hlocked]
    exact h.locked_split t i
  · have hk : (vs t).know i = some nd := hk
    rw [hsame i (hother i (h.locked_of_know hk).1)]
    exact h.content t i nd hk
  · have hip : i ≠ ip := by
      rintro rfl
      have := Multiset.count_pos.mpr (((vs t).put i).fits i type hk)
      have hput := Local.count_put (vs t) i hi i
      have := h.held_le t i
      rw [if_pos rfl] at hput
      omega
    rw [hsame i hip]
    exact h.kind t i type (Local.kind_of_put _ _ hk)
  · have hip : i ≠ ip := by
      rintro rfl
      have := h.two_le_ref ht' hi hm
      omega
    rw [hsame i hip]
  · have hr : 0 < c.ref i := hr
    have := hrefc i
    exact h.range i (by omega)
  · have hv : c.valid i = true := hv
    have hr : 0 < c.ref i := hr
    rw [hvalid] at hv
    split at hv
    · cases hv
    · rename_i hip
      have := hrefc i
      rw [hsame i hip]
      exact h.coherent i (by omega) hv
  · have hl : s.locked i = true := hlocked ▸ hl
    have hip := hother i hl
    have := hrefc i
    obtain ⟨hr, hv⟩ := h.inUse i hl
    refine ⟨show 0 < c.ref i from ?_, show c.valid i = true from ?_⟩
    · rw [if_neg hip] at this
      omega
    · rwa [hvalid, if_neg hip]
  · rw [hnode]
    split
    · exact Node.Good.freed
    · exact h.good i

/-- Otherwise there is one reference less, and nothing else. -/
theorem put_kept (h : Sat n R vs s) (hi : ip ∈ (vs t).held)
    (hc : s.toIcache.iput ip (s.node ip).nlink = .ok c)
    (hf : ¬ s.frees ip (s.node ip).nlink = true) :
    Sat n R (Function.update vs t ((vs t).put ip)) { s with toIcache := c } := by
  obtain ⟨hpos, hfree, hcache⟩ := Icache.iput_spec hc
  obtain ⟨hlocked, hrefc⟩ := Icache.iput_fields hc
  rw [if_neg hf] at hcache
  have hvalid : c.valid = s.valid := by
    rw [hcache]
    rfl
  refine h.cache rfl (ref_put hi hc) hlocked rfl (fun i type => Local.kind_of_put _ _)
    (fun i hr => h.range i ?_) (fun i hr hv => ⟨?_, ?_⟩) fun i hl => ?_
  · have := hrefc i
    omega
  · have := hrefc i
    omega
  · rwa [← hvalid]
  · have hip : i ≠ ip := by
      rintro rfl
      rw [hl] at hfree
      cases hfree
    have := hrefc i
    obtain ⟨hr, hv⟩ := h.inUse i hl
    rw [if_neg hip] at this
    exact ⟨by omega, hvalid ▸ hv⟩

/-- `iput` takes a reference; who is freed with it was nobody else's. -/
theorem put (h : Sat n R vs s) (hi : ip ∈ (vs t).held)
    (hc : s.toIcache.iput ip (s.node ip).nlink = .ok c) :
    Sat n R (Function.update vs t ((vs t).put ip)) (if s.frees ip (s.node ip).nlink then
      { s.setNode ip (s.node ip).freed with toIcache := c } else { s with toIcache := c }) := by
  by_cases hf : s.frees ip (s.node ip).nlink = true
  · rw [if_pos hf]
    exact h.put_freed hi hc hf
  · rw [if_neg hf]
    exact h.put_kept hi hc hf

/-- `ialloc` gives a reference to an inode that nobody knew. -/
theorem alloc {type : ℤ} (h : Sat n R vs s) (htype : type ≠ 0) (hz : (s.node ip).type = 0)
    (hc : s.toIcache.iget n ip = .ok c) :
    Sat n R (Function.update vs t (((vs t).get ip).learn ip type))
      { s.setNode ip (.blank type) with toIcache := c } := by
  obtain ⟨hlt, hlocked, href, hvalid⟩ := Icache.iget_spec hc
  have hnode : ∀ i, ({ s.setNode ip (.blank type) with toIcache := c } : Flat).node i =
      if i = ip then .blank type else s.node i := fun i => by
    simp only [Flat.setNode, Function.update_apply]
  have hsame : ∀ i, (s.node i).type ≠ 0 →
      ({ s.setNode ip (.blank type) with toIcache := c } : Flat).node i = s.node i := by
    intro i hi
    rw [hnode, if_neg]
    rintro rfl
    exact hi hz
  -- Whoever knows an inode knows it to be in use, so not this one.
  have htypeOf : ∀ {t' i}, (vs t').know i ≠ none → (s.node i).type ≠ 0 := by
    intro t' i hk
    obtain ⟨nd, hk⟩ := Option.ne_none_iff_exists'.mp hk
    obtain ⟨-, hn, ht, -⟩ := h.locked_of_know hk
    rwa [hn]
  refine h.move (fun i => ?_) (fun i => ?_) (fun i hk => .inl hk) (fun i nd hk => ?_)
    (fun i type' hk => ?_) (fun t' _ i hk => hsame i (htypeOf hk)) (fun t' _ i _ h0 => ?_)
    (fun i hr => ?_) (fun i hr hv => ?_) (fun i hl => ?_) fun i => ?_
  · show c.ref i + _ = s.ref i + ((vs t).get ip).held.count i
    rw [href, Local.get, Multiset.count_cons]
    split <;> omega
  · show c.locked i = true ↔ _
    rw [hlocked]
    exact h.locked_split t i
  · have hk' : (vs t).know i = some nd := hk
    rw [hsame i (htypeOf (by rw [hk']; exact Option.some_ne_none nd))]
    exact h.content t i nd hk
  · unfold Local.learn at hk
    dsimp only at hk
    split at hk
    · rename_i hi
      obtain rfl := Option.some.inj hk
      rw [hnode, if_pos hi.1]
      exact ⟨rfl, htype⟩
    · obtain ⟨ht, h0⟩ := h.kind t i type' hk
      rw [hsame i (by rwa [ht])]
      exact ⟨ht, h0⟩
  · rw [hsame i h0]
  · have hr : 0 < c.ref i := hr
    have := h.range i
    grind
  · have hr : 0 < c.ref i := hr
    have hv : c.valid i = true := hv
    rw [hnode]
    split
    · exact htype
    · have := h.coherent i
      grind
  · have hl : s.locked i = true := hlocked ▸ hl
    show 0 < c.ref i ∧ c.valid i = true
    have := h.inUse i hl
    grind
  · rw [hnode]
    split
    · exact Node.Good.blank
    · exact h.good i

theorem same (h : Sat n R vs s) : Sat n R (Function.update vs t (vs t)) s := by
  rwa [Function.update_eq_self]

omit [DecidableEq ι] in
theorem outstanding (h : Sat n R vs s) (k : ℕ) : Sat n R vs { s with outstanding := k } :=
  ⟨h.1, h.2, h.3, h.4, h.5, h.6, h.7, h.8, h.9⟩

omit [DecidableEq ι] in
/-- A process knows no inode that is not locked. -/
theorem know_of_free (h : Sat n R vs s) (hfree : s.locked ip = false) : (vs t).know ip = none := by
  by_contra hk
  rw [(h.locked ip).mpr ⟨t, hk⟩] at hfree
  cases hfree

/-! ### The operations on what a process knows -/

theorem ilock {r : Unit} (h : Sat n R vs s) (hi : ip ∈ (vs t).held)
    (hr : flatOps n devsw (.ilock ip) s = .ok (r, u)) :
    ∃ w, (Op.ilock ip).does n devsw (vs t) r w ∧ Sat n R (Function.update vs t w) u := by
  obtain ⟨c, hc, -, rfl⟩ := Flat.cached_eq_ok.mp hr
  obtain ⟨hnone, hlock⟩ := h.lock (t := t) hc
  exact ⟨_, ⟨hnone, h.range ip (h.ref_pos hi), _, h.good ip,
    fun type hk => (h.kind t ip type hk).1, rfl⟩, hlock⟩

theorem iput {r : Unit} (h : Sat n R vs s) (hi : ip ∈ (vs t).held)
    (hr : flatOps n devsw (.iput ip) s = .ok (r, u)) :
    ∃ w, (Op.iput ip).does n devsw (vs t) r w ∧ Sat n R (Function.update vs t w) u := by
  obtain ⟨c, hc, rfl⟩ := Flat.iput_ok hr
  exact ⟨_, ⟨h.know_of_free (Icache.iput_spec hc).2.1, rfl⟩, h.put hi hc⟩

/-- Nobody knows the type of an inode that is free. -/
theorem ialloc {type : ℤ} {r : Inum} (h : Sat n R vs s) (ht : type ≠ 0)
    (hr : flatOps n devsw (.ialloc type) s = .ok (r, u)) :
    ∃ w, (Op.ialloc type).does n devsw (vs t) r w ∧ Sat n R (Function.update vs t w) u := by
  obtain ⟨hz, c, hc, rfl⟩ := Flat.ialloc_ok hr
  have hnone : (vs t).kind r = none := by
    refine Option.eq_none_iff_forall_ne_some.mpr fun type' hk => ?_
    obtain ⟨ht, h0⟩ := h.kind t r type' hk
    exact h0 (ht.symm.trans hz)
  exact ⟨_, ⟨(Icache.iget_spec hc).1, hnone, rfl⟩, h.alloc ht hz hc⟩

/-- `iupdate` changes an inode that is known. -/
theorem iupdate {r : Unit} {nd : Node} {major minor nlink : ℤ} (h : Sat n R vs s)
    (hk : (vs t).know ip = some nd)
    (hr : flatOps n devsw (.iupdate ip major minor nlink) s = .ok (r, u)) :
    ∃ w, (Op.iupdate ip major minor nlink).does n devsw (vs t) r w ∧
      Sat n R (Function.update vs t w) u := by
  obtain ⟨-, hr⟩ := Icache.whenLocked_eq_ok.mp hr
  cases hr
  have hnd := h.content t ip nd hk
  have hu : s.update ip major minor nlink = s.setNode ip (nd.setFields major minor nlink) := by
    rw [← hnd]
    rfl
  refine ⟨_, ⟨nd, hk, rfl⟩, ?_⟩
  rw [hu]
  exact h.change (by rw [hk]; exact Option.some_ne_none nd) (hnd ▸ rfl) (hnd ▸ h.good ip).setFields

/-- `writei` changes an inode that is known. -/
theorem writei {r : Option ℕ} {nd : Node} {off : ℕ} {src : List UInt8} (h : Sat n R vs s)
    (hk : (vs t).know ip = some nd) (hg : (nd.write devsw off src).2.Good n)
    (hr : flatOps n devsw (.writei ip off src) s = .ok (r, u)) :
    ∃ w, (Op.writei ip off src).does n devsw (vs t) r w ∧ Sat n R (Function.update vs t w) u := by
  obtain ⟨-, hr⟩ := Icache.whenLocked_eq_ok.mp hr
  have hnd := h.content t ip nd hk
  rw [Flat.writei_eq, hnd] at hr
  cases hr
  exact ⟨_, ⟨nd, hk, rfl, rfl⟩, h.change (by rw [hk]; exact Option.some_ne_none nd)
    (Node.type_write.trans (hnd ▸ rfl)) hg⟩

/-! ### What stops a process -/

variable {e : Stop}

omit [DecidableEq ι] in
theorem whenLocked_known {α : Type} {nd : Node} {x : α} (h : Sat n R vs s)
    (hk : (vs t).know ip = some nd) : s.whenLocked ip (.ok x) ≠ .error e := by
  unfold Icache.whenLocked
  rw [if_pos (h.locked_of_know hk).1]
  simp

omit [DecidableEq ι] [Fintype ι] in
/-- An inode in range is not had for want of an entry only. -/
theorem iget_wanting {inum : Inum} (hi : inum < n) (he : s.toIcache.iget n inum = .error e) :
    Wanting e := by
  rcases Icache.iget_error he with ⟨hout, -⟩ | ⟨-, rfl⟩
  · exact absurd hi (Nat.not_lt.mpr hout)
  · exact .inl rfl

/-- **A process that keeps to the specification is stopped for want of something**, if it does not
wait. -/
theorem wanting {o : Op} (h : Sat n R vs s) (ho : o.asks n devsw (vs t))
    (he : flatOps n devsw o s = .error e) (hw : Stop.waits e = false) : Wanting e := by
  have hnot : e ≠ .blocked := by
    rintro rfl
    cases hw
  cases o with
  | begin_op | end_op => cases he
  | iget inum => exact iget_wanting ho (Flat.cached_error he)
  | idup ip => exact absurd (Icache.idup_error (Flat.cached_error he)) (h.ref_pos ho).ne'
  | ilock ip =>
      rcases Icache.ilock_error (Flat.cached_error he) with h0 | ⟨-, hb⟩ | ⟨-, rfl⟩
      · exact absurd h0 (h.ref_pos ho).ne'
      · exact absurd hb hnot
      · exact .inr (.inr (.inl rfl))
  | iunlock ip =>
      obtain ⟨nd, hk⟩ := ho
      have hl := (h.locked_of_know hk).1
      rcases Icache.iunlock_error (Flat.cached_error he) with hno | h0
      · exact absurd hl hno
      · exact absurd h0 (h.inUse ip hl).1.ne'
  | iput ip =>
      rcases Icache.iput_error (Flat.iput_error he) with h0 | ⟨-, hb⟩
      · exact absurd h0 (h.ref_pos ho).ne'
      · exact absurd hb hnot
  | ialloc type =>
      rcases Flat.ialloc_error he with rfl | ⟨inum, hlt, he⟩
      · exact .inr (.inl rfl)
      · exact iget_wanting hlt he
  | attr ip | iupdate ip major minor nlink | readi ip off k =>
      obtain ⟨nd, hk⟩ := ho
      exact absurd he (h.whenLocked_known hk)
  | writei ip off src =>
      obtain ⟨nd, hk, -⟩ := ho
      exact absurd he (h.whenLocked_known hk)
  | panic p =>
      cases he
      exact .inr (.inr (.inr ⟨p, ho, rfl⟩))

end Sat

/-! ### The specification holds -/

/-- **What a process may assume of its operations**, whatever the others do meanwhile. -/
theorem fsSpec_sound (R : Inum → ℕ) : (fsSpec n devsw).Sound (flatOps n devsw) Stop.waits
    (fun vs : ι → Local => Sat n R vs) Wanting where
  ok := by
    intro vs s u t o r h ho hr
    cases o with
    | begin_op | end_op =>
        cases hr
        exact ⟨vs t, rfl, (h.outstanding _).same⟩
    | iget inum =>
        obtain ⟨c, hc, rfl, rfl⟩ := Flat.cached_eq_ok.mp hr
        exact ⟨_, ⟨rfl, rfl⟩, h.get hc⟩
    | idup ip =>
        obtain ⟨c, hc, rfl, rfl⟩ := Flat.cached_eq_ok.mp hr
        exact ⟨_, ⟨rfl, rfl⟩, h.dup hc⟩
    | ilock ip => exact h.ilock ho hr
    | iunlock ip =>
        obtain ⟨nd, hk⟩ := ho
        obtain ⟨c, hc, rfl, rfl⟩ := Flat.cached_eq_ok.mp hr
        exact ⟨_, rfl, h.unlock (by rw [hk]; exact Option.some_ne_none nd) hc⟩
    | iput ip => exact h.iput ho hr
    | ialloc type => exact h.ialloc ho hr
    | attr ip =>
        obtain ⟨nd, hk⟩ := ho
        obtain ⟨-, hr⟩ := Icache.whenLocked_eq_ok.mp hr
        cases hr
        exact ⟨vs t, ⟨nd, hk, congrArg Node.attr (h.content t ip nd hk), rfl⟩, h.same⟩
    | iupdate ip major minor nlink =>
        obtain ⟨nd, hk⟩ := ho
        exact h.iupdate hk hr
    | readi ip off k =>
        obtain ⟨nd, hk⟩ := ho
        obtain ⟨-, hr⟩ := Icache.whenLocked_eq_ok.mp hr
        cases hr
        refine ⟨vs t, ⟨nd, hk, ?_, rfl⟩, h.same⟩
        rw [Flat.readi_eq, h.content t ip nd hk]
    | writei ip off src =>
        obtain ⟨nd, hk, hg⟩ := ho
        exact h.writei hk hg hr
    | panic p => cases hr
  error := by
    intro vs s t o e h ho he hw
    exact h.wanting ho he hw

end Xv6.Fs

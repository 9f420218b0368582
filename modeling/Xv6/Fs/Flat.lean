import Xv6.Fs.Disk

/-!
# File system — inodes that hold their bytes

The second meaning of the operations on inodes: an inode is its fields and the list of its bytes,
with the same cache over it.  Blocks and bitmap are not seen here; a call that runs out of blocks
ends in a panic, so that every state reached below is one reached here.

`Holding` describes the state in the middle of a call, by what every process holds (`R`) and what
the call holds on top of that: references and locks.  Each operation comes with its rule for it.
-/

namespace Xv6.Fs

open Lib

/-- An inode, with its bytes. -/
structure Node where
  type : ℤ
  major : ℤ
  minor : ℤ
  nlink : ℤ
  bytes : List UInt8

namespace Node

/-- An inode that was just allocated. -/
def blank (type : ℤ) : Node := ⟨type, 0, 0, 0, []⟩

/-- What `stati` copies. -/
def attr (nd : Node) : Attr := ⟨nd.type, nd.major, nd.minor, nd.nlink, nd.bytes.length⟩

/-- `itrunc(ip); ip->type = 0;` -/
def freed (nd : Node) : Node := { nd with type := 0, bytes := [] }

/-- `src` copied over the bytes from `off` on. -/
def store (nd : Node) (off : ℕ) (src : List UInt8) : Node :=
  { nd with bytes := nd.bytes.take off ++ src ++ nd.bytes.drop (off + src.length) }

end Node

/-- The inodes, the cache and `log.outstanding`. -/
structure Flat extends Icache where
  node : Inum → Node
  outstanding : ℕ

variable (n : ℕ) (devsw : Devsw)

namespace Flat

variable (s : Flat) (ip : Inum)

/-- An inode changes. -/
def setNode (nd : Node) : Flat := { s with node := Function.update s.node ip nd }

/-- A step of the cache, with a result. -/
def cached {α : Type} (r : α) (x : Except Stop Icache) : Except Stop (α × Flat) := do
  let c ← x
  pure (r, { s with toIcache := c })

/-- `iput`: the last reference of an inode without links frees it. -/
def iput : Except Stop (Unit × Flat) :=
  if s.frees ip (s.node ip).nlink then
    (s.setNode ip (s.node ip).freed).cached () (s.toIcache.iput ip (s.node ip).nlink)
  else s.cached () (s.toIcache.iput ip (s.node ip).nlink)

/-- `ialloc`: the first inode that is free. -/
def ialloc (type : ℤ) : Except Stop (Inum × Flat) :=
  match (List.range' 1 (n - 1)).find? (fun i => (s.node i).type = 0) with
  | none => .error .iallocNoInodes
  | some inum => (s.setNode inum (.blank type)).cached inum (s.toIcache.iget n inum)

/-- The fields that a call changes. -/
def update (major minor nlink : ℤ) : Flat :=
  s.setNode ip { s.node ip with major := major, minor := minor, nlink := nlink }

/-- `readi`, by the bytes of the file. -/
def readi (off n : ℕ) : Option (List UInt8) :=
  let nd := s.node ip
  if nd.type = T_DEV then (Devsw.find devsw.read nd.major).bind (· n)
  else if nd.bytes.length < off ∨ wraps off n then none
  else some ((nd.bytes.drop off).take n)

/-- `writei`, by the bytes of the file. -/
def writei (off : ℕ) (src : List UInt8) : Option ℕ × Flat :=
  let nd := s.node ip
  if nd.type = T_DEV then ((Devsw.find devsw.write nd.major).bind (· src), s)
  else if nd.bytes.length < off ∨ wraps off src.length then (none, s)
  else if MAXFILE * BSIZE < off + src.length then (none, s)
  else (some src.length, s.setNode ip (nd.store off src))

end Flat

/-- The operations of the calls on inodes that hold their bytes. -/
def flatOps : Handler Op Op.Res Stop Flat
  | .begin_op, s => .ok ((), { s with outstanding := s.outstanding + 1 })
  | .end_op, s => .ok ((), { s with outstanding := s.outstanding - 1 })
  | .iget inum, s => s.cached inum (s.toIcache.iget n inum)
  | .idup ip, s => s.cached ip (s.toIcache.idup ip)
  | .ilock ip, s => s.cached () (s.toIcache.ilock ip (s.node ip).type)
  | .iunlock ip, s => s.cached () (s.toIcache.iunlock ip)
  | .iput ip, s => s.iput ip
  | .ialloc type, s => s.ialloc n type
  | .attr ip, s => s.whenLocked ip (.ok ((s.node ip).attr, s))
  | .iupdate ip major minor nlink, s => s.whenLocked ip (.ok ((), s.update ip major minor nlink))
  | .readi ip off n, s => s.whenLocked ip (.ok (s.readi devsw ip off n, s))
  | .writei ip off src, s => s.whenLocked ip (.ok (s.writei devsw ip off src))
  | .panic p, _ => .error (.call p)

/-! ### The state inside a call -/

/-- The inodes are `N`, the processes hold the references `R`, and a call holds the references
`held` and the locks `locks` besides. -/
structure Holding (N : Inum → Node) (R : Inum → ℕ) (held locks : List Inum) (t : Flat) : Prop where
  node : t.node = N
  ref : ∀ i, t.ref i = R i + held.count i
  locked : ∀ i, t.locked i = true ↔ i ∈ locks
  range : ∀ i, 0 < t.ref i → i < n
  coherent : ∀ i, 0 < t.ref i → t.valid i = true → (N i).type ≠ 0
  inUse : ∀ i ∈ locks, 0 < t.ref i ∧ t.valid i = true
  /-- an inode without links is in use, and will be freed -/
  unlinked : ∀ i, (N i).type ≠ 0 → (N i).nlink = 0 → 0 < t.ref i ∧ t.valid i = true
  sizes : ∀ i, (N i).bytes.length ≤ MAXFILE * BSIZE

/-- The number of cache entries in use. -/
def crowd (n : ℕ) (R : Inum → ℕ) (held : List Inum) : ℕ :=
  (List.range n).countP fun i => 0 < R i + held.count i

/-- The inodes after the last of `refs + 1` references to `i` is dropped. -/
def dropped (N : Inum → Node) (refs : ℕ) (i : Inum) : Inum → Node :=
  if (N i).type ≠ 0 ∧ (N i).nlink = 0 ∧ refs = 0 then Function.update N i (N i).freed else N

section

variable {n devsw} {E : Stop → Prop} {N : Inum → Node} {R : Inum → ℕ} {held locks : List Inum}
  {s t : Flat} {i : Inum}

theorem Flat.cached_eq_ok {α : Type} {r r' : α} {x : Except Stop Icache} :
    s.cached r x = .ok (r', t) ↔ ∃ c, x = .ok c ∧ r = r' ∧ { s with toIcache := c } = t := by
  simp only [cached]
  cases x <;> simp [bind, Except.bind, pure, Except.pure]

theorem Flat.cached_error {α : Type} {r : α} {x : Except Stop Icache} {e : Stop}
    (h : s.cached r x = .error e) : x = .error e := by
  cases x with
  | error e' =>
      obtain rfl : e' = e := Except.error.inj h
      rfl
  | ok c => cases h

/-- What `iput` changes. -/
theorem Flat.iput_ok {r : Unit} (h : s.iput i = .ok (r, t)) :
    ∃ c, s.toIcache.iput i (s.node i).nlink = .ok c ∧ t = if s.frees i (s.node i).nlink then
      { s.setNode i (s.node i).freed with toIcache := c } else { s with toIcache := c } := by
  unfold Flat.iput at h
  split at h
  · rename_i hf
    obtain ⟨c, hc, -, hu⟩ := Flat.cached_eq_ok.mp h
    exact ⟨c, hc, by rw [if_pos hf]; exact hu.symm⟩
  · rename_i hf
    obtain ⟨c, hc, -, hu⟩ := Flat.cached_eq_ok.mp h
    exact ⟨c, hc, by rw [if_neg hf]; exact hu.symm⟩

theorem Flat.iput_error {e : Stop} (h : s.iput i = .error e) :
    s.toIcache.iput i (s.node i).nlink = .error e := by
  unfold Flat.iput at h
  split at h <;> exact Flat.cached_error h

/-- What `ialloc` changes. -/
theorem Flat.ialloc_ok {type : ℤ} {r : Inum} (h : s.ialloc n type = .ok (r, t)) :
    (s.node r).type = 0 ∧ ∃ c, s.toIcache.iget n r = .ok c ∧
      t = { s.setNode r (.blank type) with toIcache := c } := by
  unfold Flat.ialloc at h
  split at h
  · cases h
  · rename_i inum hf
    obtain ⟨c, hc, rfl, hu⟩ := Flat.cached_eq_ok.mp h
    exact ⟨by simpa using List.find?_some hf, c, hc, hu.symm⟩

/-- Why `ialloc` stops. -/
theorem Flat.ialloc_error {type : ℤ} {e : Stop} (h : s.ialloc n type = .error e) :
    e = .iallocNoInodes ∨ ∃ inum < n, s.toIcache.iget n inum = .error e := by
  unfold Flat.ialloc at h
  split at h
  · exact .inl (Except.error.inj h).symm
  · rename_i inum hf
    have hmem := List.mem_range'_1.mp (List.mem_of_find?_eq_some hf)
    exact .inr ⟨inum, Nat.lt_of_lt_of_le hmem.2 (by omega), Flat.cached_error h⟩

namespace Holding

/-- A step of the cache. -/
theorem cached {α : Type} {r : α} {x : Except Stop Icache} {Q : α → Flat → Prop}
    (hok : ∀ c, x = .ok c → Q r { t with toIcache := c }) (herr : ∀ e, x = .error e → E e) :
    (∀ r' u, t.cached r x = .ok (r', u) → Q r' u) ∧ ∀ e, t.cached r x = .error e → E e := by
  refine ⟨fun r' u h => ?_, fun e h => herr e (Flat.cached_error h)⟩
  obtain ⟨c, hc, rfl, rfl⟩ := Flat.cached_eq_ok.mp h
  exact hok c hc

theorem begin_op (h : Holding n N R held locks t) :
    Prog.wp (flatOps n devsw) E begin_op (fun _ u => Holding n N R held locks u) t :=
  Prog.wp_perform.mpr ⟨fun _ _ hr => by cases hr; exact ⟨h.1, h.2, h.3, h.4, h.5, h.6, h.7, h.8⟩,
    fun _ he => (by cases he)⟩

theorem end_op (h : Holding n N R held locks t) :
    Prog.wp (flatOps n devsw) E end_op (fun _ u => Holding n N R held locks u) t :=
  Prog.wp_perform.mpr ⟨fun _ _ hr => by cases hr; exact ⟨h.1, h.2, h.3, h.4, h.5, h.6, h.7, h.8⟩,
    fun _ he => (by cases he)⟩

/-- Only references, validity and locks change. -/
theorem entries {c : Icache} {held' locks' : List Inum} (h : Holding n N R held locks t)
    (href : ∀ i, c.ref i = R i + held'.count i) (hlocked : ∀ i, c.locked i = true ↔ i ∈ locks')
    (hrange : ∀ i, 0 < c.ref i → i < n)
    (hcoherent : ∀ i, 0 < c.ref i → c.valid i = true → (N i).type ≠ 0)
    (hinUse : ∀ i ∈ locks', 0 < c.ref i ∧ c.valid i = true)
    (hunlinked : ∀ i, 0 < t.ref i ∧ t.valid i = true → (N i).nlink = 0 →
      0 < c.ref i ∧ c.valid i = true) :
    Holding n N R held' locks' { t with toIcache := c } :=
  ⟨h.node, href, hlocked, hrange, hcoherent, hinUse,
    fun i ht hn => hunlinked i (h.unlinked i ht hn) hn, h.sizes⟩

theorem inUse_eq (h : Holding n N R held locks t) : t.inUse n = crowd n R held := by
  unfold Icache.inUse crowd
  exact List.countP_congr fun i _ => by rw [h.ref i]

/-- A reference more is held. -/
theorem get {c : Icache} (h : Holding n N R held locks t) (hc : t.toIcache.iget n i = .ok c) :
    Holding n N R (i :: held) locks { t with toIcache := c } := by
  obtain ⟨hlt, hlocked, href, hvalid⟩ := Icache.iget_spec hc
  have hcount : ∀ j, c.ref j = R j + (i :: held).count j := by
    intro j
    simp only [href, h.ref, List.count_cons, beq_iff_eq]
    grind
  refine h.entries hcount (by simpa [hlocked] using h.locked) ?_ ?_ ?_ ?_
  · intro j hj
    have := h.range j
    grind
  · intro j hj
    have := h.coherent j
    grind
  · intro j hj
    have := h.inUse j hj
    grind
  · intro j hj _
    grind

/-- `iget` stops where there is no entry left for the inode. -/
theorem get_error {e : Stop} (h : Holding n N R held locks t) (hout : n ≤ i → E .outside)
    (hfull : NINODE ≤ crowd n R held → E .igetNoInodes) (he : t.toIcache.iget n i = .error e) :
    E e := by
  rcases Icache.iget_error he with ⟨hge, rfl⟩ | ⟨huse, rfl⟩
  · exact hout hge
  · exact hfull (h.inUse_eq ▸ huse)

theorem iget (h : Holding n N R held locks t) (i : Inum) (hout : n ≤ i → E .outside)
    (hfull : NINODE ≤ crowd n R held → E .igetNoInodes) :
    Prog.wp (flatOps n devsw) E (iget i)
      (fun r u => r = i ∧ Holding n N R (i :: held) locks u) t :=
  Prog.wp_perform.mpr (cached (fun _ hc => ⟨rfl, h.get hc⟩) fun _ he => h.get_error hout hfull he)

/-- `idup` gives a reference more to an inode that is in use. -/
theorem idup (h : Holding n N R held locks t) (hi : 0 < R i + held.count i) :
    Prog.wp (flatOps n devsw) E (idup i)
      (fun r u => r = i ∧ Holding n N R (i :: held) locks u) t := by
  refine Prog.wp_perform.mpr (cached (fun c hc => ⟨rfl, ?_⟩) fun e he => ?_)
  · obtain ⟨hpos, rfl⟩ := Icache.idup_spec hc
    have hcount : ∀ j, (t.setRef i (t.ref i + 1)).ref j = R j + (i :: held).count j := by
      intro j
      have := h.ref j
      simp only [Icache.setRef, Function.update_apply, List.count_cons, beq_iff_eq]
      grind
    refine h.entries hcount h.locked ?_ ?_ ?_ ?_
    · intro j hj
      have := h.range j
      simp only [Icache.setRef, Function.update_apply] at hj
      grind
    · intro j hj
      have := h.coherent j
      simp only [Icache.setRef, Function.update_apply] at hj ⊢
      grind
    · intro j hj
      have := h.inUse j hj
      simp only [Icache.setRef, Function.update_apply]
      grind
    · intro j hj _
      simp only [Icache.setRef, Function.update_apply]
      grind
  · exact absurd ((h.ref i).symm.trans (Icache.idup_error he)) hi.ne'

/-- Nobody had the lock that is taken. -/
theorem lock {c : Icache} {type : ℤ} (h : Holding n N R held locks t)
    (hc : t.toIcache.ilock i type = .ok c) (ht : (N i).type ≠ 0) :
    i ∉ locks ∧ Holding n N R held (i :: locks) { t with toIcache := c } := by
  obtain ⟨hpos, hfree, -, rfl⟩ := Icache.ilock_spec hc
  have hnot : i ∉ locks := by
    intro hi
    rw [(h.locked i).mpr hi] at hfree
    cases hfree
  refine ⟨hnot, h.entries h.ref ?_ h.range ?_ ?_ ?_⟩
  · intro j
    have := h.locked j
    simp only [Icache.setLocked, Icache.setValid, Function.update_apply, List.mem_cons]
    grind
  · intro j hj
    have := h.coherent j
    simp only [Icache.setLocked, Icache.setValid, Function.update_apply] at hj ⊢
    grind
  · intro j hj
    have := h.inUse j
    simp only [Icache.setLocked, Icache.setValid, Function.update_apply]
    grind
  · intro j hj _
    simp only [Icache.setLocked, Icache.setValid, Function.update_apply]
    grind

/-- `ilock` panics on an inode that is not allocated, and waits for a lock that is taken. -/
theorem ilock (h : Holding n N R held locks t) (hi : 0 < R i + held.count i)
    (hb : i ∈ locks → E .blocked) (hz : (N i).type = 0 → E .ilockNoType) :
    Prog.wp (flatOps n devsw) E (ilock i)
      (fun _ u => i ∉ locks ∧ (N i).type ≠ 0 ∧ Holding n N R held (i :: locks) u) t := by
  refine Prog.wp_perform.mpr (cached (fun c hc => ?_) fun e he => ?_)
  · obtain ⟨hpos, -, htype, -⟩ := Icache.ilock_spec hc
    rw [h.node] at htype
    have ht : (N i).type ≠ 0 := by
      cases hv : t.valid i with
      | false => exact htype hv
      | true => exact h.coherent i hpos hv
    obtain ⟨hnot, hlock⟩ := h.lock hc ht
    exact ⟨hnot, ht, hlock⟩
  · rw [h.node] at he
    rcases Icache.ilock_error he with h0 | ⟨hl, rfl⟩ | ⟨ht, rfl⟩
    · exact absurd ((h.ref i).symm.trans h0) hi.ne'
    · exact hb ((h.locked i).mp hl)
    · exact hz ht

/-- The lock is given back. -/
theorem iunlock (h : Holding n N R held (i :: locks) t) (hi : i ∉ locks) :
    Prog.wp (flatOps n devsw) E (iunlock i) (fun _ u => Holding n N R held locks u) t := by
  refine Prog.wp_perform.mpr (cached (fun c hc => ?_) fun e he => ?_)
  · obtain ⟨-, -, rfl⟩ := Icache.iunlock_spec hc
    refine h.entries h.ref ?_ h.range h.coherent ?_ fun j hj _ => hj
    · intro j
      have := h.locked j
      simp only [Icache.setLocked, Function.update_apply]
      grind
    · exact fun j hj => h.inUse j (List.mem_cons_of_mem _ hj)
  · have hmem : i ∈ i :: locks := List.mem_cons_self ..
    rcases Icache.iunlock_error he with hl | h0
    · exact absurd ((h.locked i).mpr hmem) hl
    · exact absurd h0 (h.inUse i hmem).1.ne'

/-- `iput` drops a reference, and frees the inode with the last of one that has no links. -/
theorem iput (h : Holding n N R (i :: held) locks t) (hb : i ∈ locks → E .blocked) :
    Prog.wp (flatOps n devsw) E (iput i) (fun _ u => i ∉ locks ∧
      Holding n (dropped N (R i + held.count i) i) R held locks u) t := by
  have hput : ∀ {c}, t.toIcache.iput i (N i).nlink = .ok c → i ∉ locks ∧
      (∀ j, c.ref j = R j + held.count j) ∧ c.locked = t.locked ∧
      ∀ j, c.valid j = if j = i ∧ t.frees i (N i).nlink then false else t.valid j := by
    intro c hc
    obtain ⟨hpos, hfree, rfl⟩ := Icache.iput_spec hc
    refine ⟨fun hi => ?_, fun j => ?_, ?_, fun j => ?_⟩
    · rw [(h.locked i).mpr hi] at hfree
      cases hfree
    · have := h.ref j
      split <;> simp only [Icache.setRef, Icache.setValid, Function.update_apply] <;> grind
    · split <;> rfl
    · split <;> simp only [Icache.setRef, Icache.setValid, Function.update_apply] <;> grind
  -- The inode is freed with the last reference, if nothing links to it.
  have hfrees : t.frees i (N i).nlink = true ↔
      (N i).type ≠ 0 ∧ (N i).nlink = 0 ∧ R i + held.count i = 0 := by
    have hi := h.ref i
    rw [List.count_cons_self] at hi
    have hunlinked := h.unlinked i
    have hcoherent := h.coherent i
    simp only [Icache.frees, decide_eq_true_eq]
    grind
  have herr : ∀ e, t.toIcache.iput i (N i).nlink = .error e → E e := by
    intro e he
    have hi := h.ref i
    rw [List.count_cons_self] at hi
    rcases Icache.iput_error he with h0 | ⟨hl, rfl⟩
    · omega
    · exact hb ((h.locked i).mp hl)
  refine Prog.wp_perform.mpr ?_
  show (∀ r u, Flat.iput t i = .ok (r, u) → _) ∧ ∀ e, Flat.iput t i = .error e → E e
  rw [Flat.iput, h.node]
  by_cases hf : t.frees i (N i).nlink = true
  · rw [if_pos hf]
    refine cached (fun c hc => ?_) herr
    obtain ⟨hnot, href, hlocked, hvalid⟩ := hput hc
    obtain ⟨ht, hn, hlast⟩ := hfrees.mp hf
    refine ⟨hnot, ?_⟩
    rw [dropped, if_pos (hfrees.mp hf)]
    have hle : ∀ j, c.ref j ≤ t.ref j := fun j => by
      rw [href, h.ref, List.count_cons]
      omega
    have hother : ∀ j, j ≠ i → c.ref j = t.ref j ∧ c.valid j = t.valid j := by
      intro j hj
      have := h.ref j
      rw [List.count_cons_of_ne (Ne.symm hj)] at this
      grind
    refine ⟨by simp only [Flat.setNode, h.node], href, ?_, fun j hj => ?_, fun j hj hv => ?_,
      fun j hj => ?_, fun j htj hnj => ?_, fun j => ?_⟩
    · simpa only [Flat.setNode, hlocked] using h.locked
    · exact h.range j (Nat.lt_of_lt_of_le hj (hle j))
    · have hji : j ≠ i := by
        rintro rfl
        simp only [hvalid, hf, and_self, if_true] at hv
        cases hv
      rw [Function.update_of_ne hji]
      have := hother j hji
      exact h.coherent j (this.1 ▸ hj) (this.2 ▸ hv)
    · have := hother j fun hji => hnot (hji ▸ hj)
      rw [this.1, this.2]
      exact h.inUse j hj
    · have hji : j ≠ i := by
        rintro rfl
        simp [Node.freed] at htj
      rw [Function.update_of_ne hji] at htj hnj
      have := hother j hji
      rw [this.1, this.2]
      exact h.unlinked j htj hnj
    · by_cases hji : j = i
      · subst hji
        rw [Function.update_self]
        exact Nat.zero_le _
      · rw [Function.update_of_ne hji]
        exact h.sizes j
  · rw [if_neg hf]
    refine cached (fun c hc => ?_) herr
    obtain ⟨hnot, href, hlocked, hvalid⟩ := hput hc
    refine ⟨hnot, ?_⟩
    rw [dropped, if_neg (hfrees.not.mp hf)]
    have hsame : c.valid = t.valid := funext fun j => by rw [hvalid, if_neg fun hj => hf hj.2]
    refine h.entries href (by simpa only [hlocked] using h.locked) (fun j hj => ?_)
      (fun j hj hv => ?_) (fun j hj => ?_) fun j hj hn => ?_
    · have := h.range j
      have := h.ref j
      grind
    · have := h.coherent j
      have := h.ref j
      grind
    · have := h.inUse j hj
      have := h.ref j
      grind
    · have hcoherent := h.coherent j hj.1 hj.2
      have := h.ref j
      grind

theorem iunlockput (h : Holding n N R (i :: held) (i :: locks) t) (hi : i ∉ locks) :
    Prog.wp (flatOps n devsw) E (iunlockput i) (fun _ u =>
      Holding n (dropped N (R i + held.count i) i) R held locks u) t :=
  Prog.wp_seq (h.iunlock hi) fun _ _ hu =>
    Prog.wp_mono (hu.iput fun hm => absurd hm hi) fun _ _ hv => hv.2

/-- A locked inode is looked at. -/
theorem whenLocked {α : Type} {x : α × Flat} {Q : α → Flat → Prop} (h : Holding n N R held locks t)
    (hi : i ∈ locks) (hok : Q x.1 x.2) :
    (∀ r u, t.whenLocked i (.ok x) = .ok (r, u) → Q r u) ∧
      ∀ e, t.whenLocked i (.ok x) = .error e → E e := by
  rw [Icache.whenLocked, if_pos ((h.locked i).mpr hi)]
  exact ⟨fun r u hr => by cases hr; exact hok, fun e he => by cases he⟩

theorem attr (h : Holding n N R held locks t) (hi : i ∈ locks) :
    Prog.wp (flatOps n devsw) E (attr i) (fun a u => u = t ∧ a = (N i).attr) t :=
  Prog.wp_perform.mpr (h.whenLocked hi ⟨rfl, by rw [h.node]⟩)

/-- A locked inode is changed. -/
theorem setNode {nd : Node} (h : Holding n N R held locks t) (hi : i ∈ locks)
    (ht : nd.type = (N i).type) (hs : nd.bytes.length ≤ MAXFILE * BSIZE) :
    Holding n (Function.update N i nd) R held locks (t.setNode i nd) := by
  refine ⟨by rw [Flat.setNode, h.node], h.ref, h.locked, h.range, fun j hj hv => ?_, h.inUse,
    fun j htj hnj => ?_, fun j => ?_⟩
  · have := h.coherent j hj hv
    by_cases hji : j = i
    · subst hji
      rwa [Function.update_self, ht]
    · rwa [Function.update_of_ne hji]
  · by_cases hji : j = i
    · exact h.inUse j (hji ▸ hi)
    · rw [Function.update_of_ne hji] at htj hnj
      exact h.unlinked j htj hnj
  · by_cases hji : j = i
    · subst hji
      rwa [Function.update_self]
    · rw [Function.update_of_ne hji]
      exact h.sizes j

/-- The count of links changes, modulo 2^16. -/
theorem addLink (h : Holding n N R held locks t) (hi : i ∈ locks) (d : ℤ) :
    Prog.wp (flatOps n devsw) E (addLink i d) (fun _ u =>
      Holding n (Function.update N i { N i with nlink := short ((N i).nlink + d) }) R held locks u) t := by
  refine Prog.wp_seq (h.attr hi) ?_
  rintro a u ⟨rfl, rfl⟩
  refine Prog.wp_perform.mpr (h.whenLocked hi ?_)
  simp only [Flat.update, h.node, Node.attr]
  exact h.setNode hi rfl (h.sizes i)

/-- A free inode is given a type and a link. -/
theorem blank (h : Holding n N R held locks t) (hfree : R i + held.count i = 0) (nd : Node)
    (hn : nd.nlink ≠ 0) (hs : nd.bytes.length ≤ MAXFILE * BSIZE) :
    Holding n (Function.update N i nd) R held locks (t.setNode i nd) := by
  have href : t.ref i = 0 := (h.ref i).trans hfree
  refine ⟨by rw [Flat.setNode, h.node], h.ref, h.locked, h.range, fun j hj hv => ?_, h.inUse,
    fun j htj hnj => ?_, fun j => ?_⟩
  · have hji : j ≠ i := by
      rintro rfl
      exact absurd href (Nat.ne_of_gt hj)
    rw [Function.update_of_ne hji]
    exact h.coherent j hj hv
  · have hji : j ≠ i := by
      rintro rfl
      rw [Function.update_self] at hnj
      exact hn hnj
    rw [Function.update_of_ne hji] at htj hnj
    exact h.unlinked j htj hnj
  · by_cases hji : j = i
    · subst hji
      rwa [Function.update_self]
    · rw [Function.update_of_ne hji]
      exact h.sizes j

/-- `ialloc`, `ilock` and the first `iupdate` of a new inode. -/
theorem allocate {type major minor : ℤ} {α : Type} {f : Inum → Call α} {Q : α → Flat → Prop}
    (h : Holding n N R held locks t) (htype : type ≠ 0)
    (hfresh : ∀ i, (N i).type = 0 → R i + held.count i = 0)
    (hnone : (∀ i, 0 < i → i < n → (N i).type ≠ 0) → E .iallocNoInodes)
    (hfull : NINODE ≤ crowd n R held → E .igetNoInodes)
    (hf : ∀ ip u, (N ip).type = 0 → ip ≠ 0 → ip < n → ip ∉ locks →
      Holding n (Function.update N ip ⟨type, major, minor, 1, []⟩) R (ip :: held) (ip :: locks) u →
      Prog.wp (flatOps n devsw) E (f ip) Q u) :
    Prog.wp (flatOps n devsw) E (do
      let ip ← ialloc type
      Fs.ilock ip
      Fs.iupdate ip major minor 1
      f ip) Q t := by
  have halloc : Prog.wp (flatOps n devsw) E (ialloc type) (fun ip u => (N ip).type = 0 ∧ ip ≠ 0 ∧
      ip < n ∧ u.node ip = .blank type ∧ Holding n
        (Function.update N ip ⟨type, major, minor, 1, []⟩) R (ip :: held) locks
        (u.setNode ip ⟨type, major, minor, 1, []⟩)) t := by
    refine Prog.wp_perform.mpr ?_
    show (∀ r u, Flat.ialloc n t type = .ok (r, u) → _) ∧ ∀ e, Flat.ialloc n t type = .error e → E e
    rw [Flat.ialloc]
    cases hfind : (List.range' 1 (n - 1)).find? fun i => (t.node i).type = 0 with
    | none =>
        refine ⟨fun _ _ h => (by cases h), fun e he => ?_⟩
        cases he
        refine hnone fun i h0 hin => ?_
        have := List.find?_eq_none.mp hfind i (List.mem_range'_1.mpr ⟨h0, by omega⟩)
        rwa [decide_eq_true_eq, h.node] at this
    | some ip =>
        have hz : (N ip).type = 0 := by simpa [h.node] using List.find?_some hfind
        have hip := List.mem_range'_1.mp (List.mem_of_find?_eq_some hfind)
        have h0 : ip ≠ 0 := Nat.ne_of_gt hip.1
        have hn : ip < n := Nat.lt_of_lt_of_le hip.2 (by omega)
        refine cached (fun c hc => ⟨hz, h0, hn, Function.update_self .., ?_⟩) fun e he =>
          h.get_error (fun hle => absurd hn (not_lt.mpr hle)) hfull he
        have := (h.blank (hfresh ip hz) ⟨type, major, minor, 1, []⟩ (by simp) (Nat.zero_le _)).get hc
        simpa [Flat.setNode] using this
  refine Prog.wp_seq halloc ?_
  rintro ip u ⟨hz, h0, hn, hnode, hu⟩
  have hlock : Prog.wp (flatOps n devsw) E (Fs.ilock ip) (fun _ v => ip ∉ locks ∧
      v.node ip = .blank type ∧ Holding n (Function.update N ip ⟨type, major, minor, 1, []⟩) R
        (ip :: held) (ip :: locks) (v.setNode ip ⟨type, major, minor, 1, []⟩)) u := by
    refine Prog.wp_perform.mpr (cached (fun c hc => ?_) fun e he => ?_)
    · obtain ⟨hnot, hlock⟩ := hu.lock (c := c) hc (by rw [Function.update_self]; exact htype)
      exact ⟨hnot, hnode, hlock⟩
    · have hpos : u.ref ip = R ip + (held.count ip + 1) := by
        rw [← List.count_cons_self]
        exact hu.ref ip
      -- Nobody has locked an inode that was free.
      have hnot : ip ∉ locks := fun hm => by
        have := (h.inUse ip hm).1
        rw [h.ref ip, hfresh ip hz] at this
        exact absurd this (lt_irrefl 0)
      rcases Icache.ilock_error he with h0 | ⟨hl, rfl⟩ | ⟨h0, rfl⟩
      · omega
      · exact absurd ((hu.locked ip).mp hl) hnot
      · rw [hnode] at h0
        exact absurd h0 htype
  refine Prog.wp_seq hlock ?_
  rintro _ v ⟨hnot, hnode, hv⟩
  have hupdate : v.update ip major minor 1 = v.setNode ip ⟨type, major, minor, 1, []⟩ := by
    rw [Flat.update, hnode]
    rfl
  refine Prog.wp_seq (Prog.wp_perform.mpr ?_) fun _ w (hw : w = v.update ip major minor 1) =>
    hf ip w hz h0 hn hnot ?_
  · exact Holding.whenLocked (t := v.setNode ip _) (x := ((), v.update ip major minor 1)) hv
      (List.mem_cons_self ..) rfl
  · rw [hw, hupdate]
    exact hv

end Holding

end

end Xv6.Fs

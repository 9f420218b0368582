import Xv6.Fs.Bytes
import Xv6.Fs.Flat
import Xv6.Lib.Pool

/-!
# File system — what the disk holds

The file system on the disk refines the one in which an inode holds its bytes.  `State.view` reads
the bytes of every allocated inode from its blocks, and forgets the blocks, the bitmap and the copies
of inodes in the cache.

* `diskOps_follows` — an operation on the disk is the same operation on what the disk holds.
* `calls_follow` — so is every call, and every sequence of calls: it returns the same, or there was
  no block left.
* `processes_follow` — and so are the calls of processes that take turns in any order.
* `reads_follow` — a call that does not write never lacks a block.
-/

namespace Xv6.Fs

open Lib

variable {sb : Superblock} {devsw : Devsw} {s t : State} {d d' : Image} {i : Inum}

/-- The bytes of the file `i`. -/
def Image.bytes (d : Image) (i : Inum) : List UInt8 :=
  (List.range (d.dinode i).size).map (d.byte i)

/-- An inode with its bytes; one that is free has none. -/
def Image.node (sb : Superblock) (d : Image) (i : Inum) : Node where
  type := (d.dinode i).type
  major := (d.dinode i).major
  minor := (d.dinode i).minor
  nlink := (d.dinode i).nlink
  bytes := if i < sb.ninodes ∧ (d.dinode i).type ≠ 0 then d.bytes i else []

/-- What the disk holds, under the same cache. -/
def State.view (sb : Superblock) (s : State) : Flat where
  toIcache := s.toIcache
  node := s.img.node sb
  outstanding := s.outstanding

@[simp]
theorem length_bytes (d : Image) (i : Inum) : (d.bytes i).length = (d.dinode i).size := by
  simp [Image.bytes]

@[simp]
theorem getElem_bytes {k : ℕ} (hk : k < (d.bytes i).length) : (d.bytes i)[k] = d.byte i k := by
  simp [Image.bytes]

theorem node_of_allocated (hi : i < sb.ninodes) (ht : (d.dinode i).type ≠ 0) :
    d.node sb i = ⟨(d.dinode i).type, (d.dinode i).major, (d.dinode i).minor, (d.dinode i).nlink,
      d.bytes i⟩ := by
  rw [Image.node, if_pos ⟨hi, ht⟩]

theorem node_attr (hi : i < sb.ninodes) (ht : (d.dinode i).type ≠ 0) :
    (d.node sb i).attr = (d.dinode i).attr := by
  rw [node_of_allocated hi ht, Node.attr, length_bytes]
  rfl

/-- An inode that is what it was, with its bytes. -/
theorem node_congr (hd : d'.dinode i = d.dinode i)
    (hb : i < sb.ninodes → (d.dinode i).type ≠ 0 → ∀ k < (d.dinode i).size, d'.byte i k = d.byte i k) :
    d'.node sb i = d.node sb i := by
  unfold Image.node
  rw [hd]
  by_cases h : i < sb.ninodes ∧ (d.dinode i).type ≠ 0
  · have hbytes : d'.bytes i = d.bytes i := by
      unfold Image.bytes
      rw [hd]
      exact List.map_congr_left fun k hk => hb h.1 h.2 k (List.mem_range.mp hk)
    rw [if_pos h, if_pos h, hbytes]
  · rw [if_neg h, if_neg h]

theorem node_of_data (hd : d'.dinode i = d.dinode i) (hdata : d'.data = d.data) :
    d'.node sb i = d.node sb i :=
  node_congr hd fun _ _ k _ => by rw [Image.byte, Image.byte, hdata, hd]

/-- One inode has changed. -/
theorem view_setNode {nd : Node} (hc : t.toIcache = s.toIcache) (ho : t.outstanding = s.outstanding)
    (hself : t.img.node sb i = nd) (hother : ∀ j, j ≠ i → t.img.node sb j = s.img.node sb j) :
    t.view sb = (s.view sb).setNode i nd := by
  have hnode : t.img.node sb = Function.update (s.img.node sb) i nd := by
    funext j
    by_cases hj : j = i
    · subst hj
      rw [Function.update_self, hself]
    · rw [Function.update_of_ne hj, hother j hj]
  rw [State.view, Flat.setNode, State.view, hc, ho, hnode]

/-! ### The operations -/

/-- The operation that may need new blocks. -/
def Op.Grows : Op → Prop
  | .writei .. => True
  | _ => False

/-- What is done on the disk, and on what the disk holds. -/
abbrev Refines (sb : Superblock) (E : Stop → Prop) {α : Type} (x : Except Stop (α × State))
    (y : Except Stop (α × Flat)) : Prop :=
  Prog.Follows (State.Inv sb) E (State.view sb) x y

/-- An operation whose outcome keeps the invariant. -/
theorem Refines.of_inv {E : Stop → Prop} {α : Type} {x : Except Stop (α × State)}
    {y : Except Stop (α × Flat)} (hinv : ∀ a t, x = .ok (a, t) → t.Inv sb)
    (hok : ∀ a t, x = .ok (a, t) → y = .ok (a, t.view sb))
    (herr : ∀ e, x = .error e → E e ∨ y = .error e) : Refines sb E x y :=
  ⟨fun a t h => ⟨hinv a t h, hok a t h⟩, herr⟩

theorem cached_view {α : Type} (r : α) (x : Except Stop Icache) (a : α) (t : State)
    (h : s.cached r x = .ok (a, t)) : (s.view sb).cached r x = .ok (a, t.view sb) := by
  obtain ⟨c, rfl, rfl, rfl⟩ := State.cached_eq_ok.mp h
  rfl

theorem cached_view_error {α : Type} (r : α) (x : Except Stop Icache) (e : Stop)
    (h : s.cached r x = .error e) : (s.view sb).cached r x = .error e := by
  cases x with
  | error e' =>
      obtain rfl : e' = e := Except.error.inj h
      rfl
  | ok c => cases h

/-- `ilock` does in the view what it does on the disk. -/
theorem ilock_view (s : State) (i : Inum) :
    (∀ a t, s.ilock i = .ok (a, t) → (s.view sb).cached () ((s.view sb).toIcache.ilock i
        ((s.view sb).node i).type) = .ok (a, t.view sb)) ∧
      ∀ e, s.ilock i = .error e → (s.view sb).cached () ((s.view sb).toIcache.ilock i
        ((s.view sb).node i).type) = .error e := by
  have htype : ((s.view sb).node i).type = (s.img.dinode i).type := rfl
  rw [htype]
  refine ⟨fun a t h => ?_, fun e h => ?_⟩
  · obtain ⟨c, hc, h⟩ := Lib.bind_eq_ok.mp h
    obtain ⟨-, rfl⟩ := Prod.mk.inj (Except.ok.inj h)
    refine Flat.cached_eq_ok.mpr ⟨c, hc, rfl, ?_⟩
    split <;> rfl
  · rcases Lib.bind_eq_error.mp h with h | ⟨c, -, h⟩
    · have hc : (s.view sb).toIcache.ilock i (s.img.dinode i).type = .error e := h
      rw [hc]
      rfl
    · cases h

/-- The copy of an inode in use is the inode. -/
theorem frees_view (h : s.Inv sb) : (s.view sb).frees i ((s.view sb).node i).nlink =
    s.frees i (s.copy i).nlink := by
  show s.toIcache.frees i (s.img.dinode i).nlink = s.toIcache.frees i (s.copy i).nlink
  by_cases hu : 0 < s.ref i ∧ s.valid i = true
  · rw [(h.coherent i hu.1 hu.2).1]
  · have hno : ∀ nlink, s.toIcache.frees i nlink = false := by
      intro nlink
      simp only [Icache.frees, decide_eq_false_iff_not]
      rintro ⟨hv, -, hr⟩
      exact hu ⟨by omega, hv⟩
    rw [hno, hno]

theorem iput_cache_view (h : s.Inv sb) : (s.view sb).toIcache.iput i ((s.view sb).node i).nlink =
    s.toIcache.iput i (s.copy i).nlink := by
  have hf := frees_view (i := i) h
  simp only [State.view] at hf ⊢
  simp only [Icache.iput, hf]

/-- So does `iput`: an inode that is freed has no contents left. -/
theorem iput_view (h : s.Inv sb) :
    (∀ a t, s.iput i = .ok (a, t) → (s.view sb).iput i = .ok (a, t.view sb)) ∧
      ∀ e, s.iput i = .error e → (s.view sb).iput i = .error e := by
  rw [Flat.iput, frees_view h, iput_cache_view h]
  refine ⟨fun a t ht => ?_, fun e he => ?_⟩
  · obtain ⟨c, hc, ht⟩ := Lib.bind_eq_ok.mp ht
    obtain ⟨u, hu, hcache, -, hother, hsame, hfreed⟩ := State.release_ok h (Icache.iput_spec hc).1
    rw [hu] at ht
    obtain ⟨-, rfl⟩ := Prod.mk.inj (Except.ok.inj ht)
    by_cases hf : s.frees i (s.copy i).nlink = true
    · obtain ⟨hout, hdata, hdin⟩ := hfreed hf
      rw [if_pos hf]
      refine Flat.cached_eq_ok.mpr ⟨c, hc, rfl, ?_⟩
      have hv : s.valid i = true := by
        simp only [Icache.frees, decide_eq_true_eq] at hf
        exact hf.1
      have hcopy := (h.coherent i (Icache.iput_spec hc).1 hv).1
      have hview : u.view sb = (s.view sb).setNode i ((s.view sb).node i).freed := by
        refine view_setNode hcache hout ?_ fun j hj => node_of_data (hother j hj).2 hdata
        simp only [Image.node, hdin, hcopy, State.view, Node.freed]
        simp
      rw [← hview]
      rfl
    · rw [if_neg hf]
      obtain rfl := hsame hf
      exact Flat.cached_eq_ok.mpr ⟨c, hc, rfl, rfl⟩
  · rcases Lib.bind_eq_error.mp he with he | ⟨c, hc, he⟩
    · rw [he]
      split <;> rfl
    · obtain ⟨u, hu, -⟩ := State.release_ok h (Icache.iput_spec hc).1
      rw [hu] at he
      cases he

/-- So does `ialloc`, which finds the same inode. -/
theorem ialloc_view (s : State) (type : ℤ) :
    (∀ a t, s.ialloc sb type = .ok (a, t) →
        (s.view sb).ialloc sb.ninodes type = .ok (a, t.view sb)) ∧
      ∀ e, s.ialloc sb type = .error e → (s.view sb).ialloc sb.ninodes type = .error e := by
  unfold State.ialloc Flat.ialloc
  have hfind : ∀ i, ((s.view sb).node i).type = (s.img.dinode i).type := fun _ => rfl
  simp only [hfind]
  cases (List.range' 1 (sb.ninodes - 1)).find? fun i => (s.img.dinode i).type = 0 with
  | none =>
      refine ⟨fun a t h => (by cases h), fun e h => ?_⟩
      cases h
      rfl
  | some inum =>
      have hview : ({ s with img := { s.img with
          dinode := Function.update s.img.dinode inum (.blank type) } } : State).view sb =
            (s.view sb).setNode inum (.blank type) := by
        refine view_setNode rfl rfl ?_ fun j hj => node_of_data ?_ rfl
        · simp [Image.node, Image.bytes, Dinode.blank, Node.blank]
        · simp [hj]
      dsimp only
      rw [← hview]
      exact ⟨cached_view _ _, cached_view_error _ _⟩

/-- So does a change of the other fields. -/
theorem update_view {major minor nlink : ℤ} (h : s.Inv sb) (hl : s.locked i) :
    (s.update i major minor nlink).view sb = (s.view sb).update i major minor nlink := by
  obtain ⟨hi, hcopy, ht⟩ := h.of_locked hl
  have hself : (s.update i major minor nlink).img.dinode i =
      { s.img.dinode i with major := major, minor := minor, nlink := nlink } := by
    simp [State.update, State.iupdate, State.setCopy, hcopy]
  have hdata : (s.update i major minor nlink).img.data = s.img.data := rfl
  refine view_setNode rfl rfl ?_ fun j hj => node_of_data ?_ hdata
  · have hbytes : (s.update i major minor nlink).img.bytes i = s.img.bytes i := by
      unfold Image.bytes
      rw [hself]
      refine List.map_congr_left fun k _ => ?_
      rw [Image.byte, Image.byte, hself, hdata]
      exact congrFun (byteAt_congr rfl) k
    rw [node_of_allocated hi (by rwa [hself]), hself, hbytes]
    simp only [State.view, node_of_allocated hi ht]
  · simp [State.update, State.iupdate, State.setCopy, hj]

/-! ### Reading and writing -/

theorem take_drop_bytes (d : Image) (i : Inum) (off n : ℕ) :
    ((d.bytes i).drop off).take n =
      (List.range (min n ((d.dinode i).size - off))).map fun k => d.byte i (off + k) := by
  refine List.ext_getElem ?_ fun k h₁ h₂ => ?_
  · simp [Image.bytes]
  · simp [Image.bytes]

/-- `readi` returns the bytes of the file, and allocates nothing. -/
theorem readi_view (h : s.Inv sb) (hl : s.locked i) (off n : ℕ) :
    s.readi sb devsw i off n = .ok ((s.view sb).readi devsw i off n, s) := by
  obtain ⟨hi, hcopy, ht⟩ := h.of_locked hl
  have hnode : (s.view sb).node i = _ := node_of_allocated hi ht
  simp only [Flat.readi, hnode]
  by_cases hdev : (s.img.dinode i).type = T_DEV
  · rw [if_pos hdev, State.readi, readiFile, hcopy, if_pos hdev]
    cases Devsw.find devsw.read (s.img.dinode i).major with
    | none => simp [bind, Except.bind, pure, Except.pure, State.setCopy, ← hcopy]
    | some read => simp [bind, Except.bind, pure, Except.pure, State.setCopy, ← hcopy]
  · rw [if_neg hdev, readi_reads h hl hdev, length_bytes]
    split
    · rfl
    · rw [take_drop_bytes]

/-- The bytes after a write. -/
theorem Wrote.bytes {off : ℕ} {src : List UInt8} (h : Wrote sb i off src s t)
    (hoff : off ≤ (s.img.dinode i).size) :
    t.img.bytes i = (s.img.bytes i).take off ++ src ++ (s.img.bytes i).drop (off + src.length) := by
  refine List.ext_getElem ?_ fun k h₁ h₂ => ?_
  · simp only [length_bytes, h.size, List.length_append, List.length_take, List.length_drop]
    omega
  · have hk : k < max (s.img.dinode i).size (off + src.length) := by
      rwa [length_bytes, h.size] at h₁
    have hlen : ((s.img.bytes i).take off).length = off := by
      simp only [List.length_take, length_bytes]
      omega
    rw [getElem_bytes]
    simp only [List.getElem_append, List.length_append, hlen]
    by_cases hlo : k < off
    · rw [dif_pos (by omega), dif_pos hlo, List.getElem_take, getElem_bytes]
      exact h.others k (by omega) (.inl hlo)
    by_cases hmid : k < off + src.length
    · have := h.written (k - off) (by omega)
      rw [Nat.add_sub_cancel' (by omega), List.getD_eq_getElem _ _ (by omega)] at this
      rw [dif_pos hmid, dif_neg hlo, this]
    · rw [dif_neg hmid, List.getElem_drop, getElem_bytes, Nat.add_sub_cancel' (by omega)]
      exact h.others k (by omega) (.inr (by omega))

/-- Where the bytes are as after a write, the file is. -/
theorem Wrote.view {off : ℕ} {src : List UInt8} (h : s.Inv sb) (hl : s.locked i)
    (hw : Wrote sb i off src s t) (hoff : off ≤ (s.img.dinode i).size)
    (hattr : (t.img.dinode i).attr = { (s.img.dinode i).attr with
      size := max (s.img.dinode i).size (off + src.length) })
    (hout : t.outstanding = s.outstanding) :
    t.view sb = (s.view sb).setNode i (((s.view sb).node i).store off src) := by
  obtain ⟨hi, -, ht⟩ := h.of_locked hl
  refine view_setNode hw.cache hout ?_ fun j hj => node_congr (hw.files j hj).1 (hw.files j hj).2
  simp only [Dinode.attr, Attr.mk.injEq] at hattr
  obtain ⟨htype, hmajor, hminor, hnlink, -⟩ := hattr
  rw [node_of_allocated hi (by rwa [htype]), htype, hmajor, hminor, hnlink, hw.bytes hoff]
  simp only [State.view, node_of_allocated hi ht, Node.store]

/-- `writei` writes the bytes of the file, unless the disk is full. -/
theorem writei_view (h : s.Inv sb) (hl : s.locked i) (off : ℕ) (src : List UInt8) :
    (∀ a t, s.writei sb devsw i off src = .ok (a, t) →
        (s.view sb).writei devsw i off src = (a, t.view sb)) ∧
      ∀ e, s.writei sb devsw i off src = .error e → e = .ballocOutOfBlocks := by
  obtain ⟨hi, hcopy, ht⟩ := h.of_locked hl
  have hnode : (s.view sb).node i = _ := node_of_allocated hi ht
  by_cases hdev : (s.img.dinode i).type = T_DEV
  · have hsame : ∀ r, s.writei sb devsw i off src = .ok (r, s) →
        (s.view sb).writei devsw i off src = (r, s.view sb) →
          (∀ a t, s.writei sb devsw i off src = .ok (a, t) →
            (s.view sb).writei devsw i off src = (a, t.view sb)) ∧
          ∀ e, s.writei sb devsw i off src = .error e → e = .ballocOutOfBlocks := by
      intro r hr hview
      rw [hr, hview]
      refine ⟨fun a t h => ?_, fun e h => (by cases h)⟩
      obtain ⟨rfl, rfl⟩ := Prod.mk.inj (Except.ok.inj h)
      rfl
    have hset : ({ s with img := s.img } : State).setCopy i (s.img.dinode i) = s := by
      rw [← hcopy]
      simp [State.setCopy]
    cases hd : Devsw.find devsw.write (s.img.dinode i).major with
    | none =>
        refine hsame none ?_ ?_
        · rw [State.writei, writeiFile, hcopy, if_pos hdev, hd]
          exact congrArg (fun u => Except.ok (_, u)) hset
        · simp [Flat.writei, hnode, hdev, hd]
    | some write =>
        refine hsame (write src) ?_ ?_
        · rw [State.writei, writeiFile, hcopy, if_pos hdev, hd]
          exact congrArg (fun u => Except.ok (_, u)) hset
        · simp [Flat.writei, hnode, hdev, hd]
  · have hdev' : ((s.view sb).node i).type ≠ T_DEV := hdev
    have hlen : ((s.view sb).node i).bytes.length = (s.img.dinode i).size := by
      rw [hnode, length_bytes]
    simp only [Flat.writei, if_neg hdev', hlen]
    by_cases hbad : Refused (s.img.dinode i).size off src.length
    · rw [writei_refuses h hl hdev hbad]
      refine ⟨fun a t h => ?_, fun e h => (by cases h)⟩
      obtain ⟨rfl, rfl⟩ := Prod.mk.inj (Except.ok.inj h)
      unfold Refused at hbad
      split_ifs with h₁ h₂
      · rfl
      · rfl
      · exact absurd hbad (by tauto)
    · rcases writei_writes h hl hdev hbad with he | ⟨u, hu, hw, hattr, hout⟩
      · rw [he]
        refine ⟨fun a t h => (by cases h), fun e h => ?_⟩
        exact (Except.error.inj h).symm
      · rw [hu]
        refine ⟨fun a t he => ?_, fun e he => (by cases he)⟩
        obtain ⟨rfl, rfl⟩ := Prod.mk.inj (Except.ok.inj he)
        unfold Refused at hbad
        rw [if_neg (by tauto), if_neg (by tauto), hw.view h hl (by omega) hattr hout]

/-! ### Every operation, every call -/

/-- What follows under the lock, follows with its check. -/
theorem whenLocked_follows (sb : Superblock) (s : State) (i : Inum) {E : Stop → Prop} {α : Type}
    (x : Except Stop (α × State)) (y : Except Stop (α × Flat))
    (h : s.locked i = true → (∀ a t, x = .ok (a, t) → y = .ok (a, t.view sb)) ∧
      ∀ e, x = .error e → E e ∨ y = .error e) :
    (∀ a t, s.whenLocked i x = .ok (a, t) → (s.view sb).whenLocked i y = .ok (a, t.view sb)) ∧
      ∀ e, s.whenLocked i x = .error e → E e ∨ (s.view sb).whenLocked i y = .error e := by
  have hview : (s.view sb).locked i = s.locked i := rfl
  unfold Icache.whenLocked
  rw [hview]
  split
  · rename_i hl
    exact h hl
  · refine ⟨fun a t h => (by cases h), fun e h => .inr ?_⟩
    cases h
    rfl

/-- **An operation on the disk is the operation on what the disk holds**, unless there is no block
left. -/
theorem diskOps_follows (o : Op) (s : State) (h : s.Inv sb) :
    Refines sb (fun e => e = .ballocOutOfBlocks ∧ o.Grows) (diskOps sb devsw o s)
      (flatOps sb.ninodes devsw o (s.view sb)) := by
  have hinv : ∀ a t, diskOps sb devsw o s = .ok (a, t) → t.Inv sb := fun a t ht =>
    diskOps_inv o h ht
  -- One case per operation; only `writei` may want blocks that are not there.
  cases o with
  | begin_op =>
      refine .of_inv hinv (fun a t ht => ?_) fun e he => (by cases he)
      cases ht
      rfl
  | end_op =>
      refine .of_inv hinv (fun a t ht => ?_) fun e he => (by cases he)
      cases ht
      rfl
  | iget inum => exact .of_inv hinv (cached_view _ _) fun e he => .inr (cached_view_error _ _ e he)
  | idup ip => exact .of_inv hinv (cached_view _ _) fun e he => .inr (cached_view_error _ _ e he)
  | ilock ip =>
      obtain ⟨hok, herr⟩ := @ilock_view sb s ip
      exact .of_inv hinv hok fun e he => .inr (herr e he)
  | iunlock ip => exact .of_inv hinv (cached_view _ _) fun e he => .inr (cached_view_error _ _ e he)
  | iput ip =>
      obtain ⟨hok, herr⟩ := iput_view (i := ip) h
      exact .of_inv hinv hok fun e he => .inr (herr e he)
  | ialloc type =>
      obtain ⟨hok, herr⟩ := @ialloc_view sb s type
      exact .of_inv hinv hok fun e he => .inr (herr e he)
  | attr ip =>
      obtain ⟨hok, herr⟩ := whenLocked_follows sb s ip (.ok ((s.copy ip).attr, s))
        (.ok (((s.view sb).node ip).attr, s.view sb)) fun hl => by
          obtain ⟨hi, hcopy, ht⟩ := h.of_locked hl
          refine ⟨fun a t he => ?_, fun e he => (by cases he)⟩
          obtain ⟨rfl, rfl⟩ := Prod.mk.inj (Except.ok.inj he)
          rw [hcopy, ← node_attr hi ht]
          rfl
      exact .of_inv hinv hok herr
  | iupdate ip major minor nlink =>
      obtain ⟨hok, herr⟩ := whenLocked_follows sb s ip (.ok ((), s.update ip major minor nlink))
        (.ok ((), (s.view sb).update ip major minor nlink)) fun hl => by
          refine ⟨fun a t he => ?_, fun e he => (by cases he)⟩
          obtain ⟨-, rfl⟩ := Prod.mk.inj (Except.ok.inj he)
          rw [update_view h hl]
      exact .of_inv hinv hok herr
  | readi ip off n =>
      obtain ⟨hok, herr⟩ := whenLocked_follows sb s ip (s.readi sb devsw ip off n)
        (.ok ((s.view sb).readi devsw ip off n, s.view sb)) fun hl => by
          rw [readi_view h hl]
          refine ⟨fun a t he => ?_, fun e he => (by cases he)⟩
          obtain ⟨rfl, rfl⟩ := Prod.mk.inj (Except.ok.inj he)
          rfl
      exact .of_inv hinv hok herr
  | writei ip off src =>
      obtain ⟨hok, herr⟩ := whenLocked_follows sb s ip (E := (· = .ballocOutOfBlocks))
        (s.writei sb devsw ip off src) (.ok ((s.view sb).writei devsw ip off src)) fun hl => by
          obtain ⟨hok, herr⟩ := @writei_view sb devsw s ip h hl off src
          exact ⟨fun a t he => congrArg _ (hok a t he), fun e he => .inl (herr e he)⟩
      have herr := fun e he => (herr e he).imp_left fun he => And.intro he trivial
      exact .of_inv hinv hok herr
  | panic p =>
      refine .of_inv hinv (fun a t ht => (by cases ht)) fun e he => ?_
      cases he
      exact .inr rfl

/-- **The file system on the disk refines the one whose inodes hold their bytes.**  Every sequence of
calls, run on the disk, returns what it returns on what the disk holds, and leaves a disk that holds
what that leaves; it ends in the same failure, or in want of a block. -/
theorem calls_follow {α : Type} (p : Call α) (h : s.Inv sb) :
    Refines sb (· = .ballocOutOfBlocks) (p.run (diskOps sb devsw) s)
      (p.run (flatOps sb.ninodes devsw) (s.view sb)) :=
  Prog.follows_run (fun o s hs => (diskOps_follows o s hs).mono fun _ he => he.1) p h

/-- Two bytes are written to the file 1, and read back. -/
def writeRead : Call (Option (List UInt8)) := do
  let _ ← writei 1 0 [7, 8]
  readi 1 0 4

/-- Two bytes are written and read again, on the disk as in the view. -/
theorem calls_follow_two : ∃ t : State, t.Inv oneBlock ∧
    writeRead.run (flatOps oneBlock.ninodes noDevices) (oneLocked.view oneBlock) =
      .ok (some [7, 8], t.view oneBlock) := by
  have hrun : (writeRead.run (diskOps oneBlock noDevices) oneLocked).toOption.any
      (fun r => r.1 = some [7, 8]) = true := by decide +kernel
  obtain ⟨⟨r, t⟩, hr, heq⟩ := (Option.any_eq_true _ _).mp hrun
  obtain ⟨hinv, hflat⟩ := (@calls_follow oneBlock noDevices oneLocked _ writeRead oneLocked_inv).1
    r t (Lib.toOption_eq_some.mp hr)
  obtain rfl : r = some [7, 8] := of_decide_eq_true heq
  exact ⟨t, hinv, hflat⟩

/-- A process waits for a lock that another holds. -/
def Stop.waits (e : Stop) : Bool := e = .blocked

/-- **The refinement holds of processes that run together.**  Each process runs calls of its own, and
they take turns in any order, an operation at a time: what the disk holds at any time is what the
inodes hold when the processes take the same turns on them, each process having read the same. -/
theorem processes_follow {ι α : Type} [DecidableEq ι] (P : Pool Op Op.Res ι α State)
    (h : P.state.Inv sb) (sched : List ι) :
    (∀ P', P.run (diskOps sb devsw) Stop.waits sched = .ok P' → P'.state.Inv sb ∧
        (P.map (State.view sb)).run (flatOps sb.ninodes devsw) Stop.waits sched =
          .ok (P'.map (State.view sb))) ∧
      ∀ e, P.run (diskOps sb devsw) Stop.waits sched = .error e → e = .ballocOutOfBlocks ∨
        (P.map (State.view sb)).run (flatOps sb.ninodes devsw) Stop.waits sched = .error e :=
  Pool.follows_run (by rintro _ rfl; rfl)
    (fun o s hs => (diskOps_follows o s hs).mono fun _ he => he.1) sched h

/-- One process writes the file it has locked and unlocks it; the other waits for the lock, and
reads. -/
def writerAndReader : Pool Op Op.Res Bool (Option (List UInt8)) State where
  prog := fun b =>
    if b then do
      let _ ← writei 1 0 [7, 8]
      iunlock 1
      pure none
    else do
      ilock 1
      readi 1 0 4
  state := oneLocked

/-- One process writes while the other waits, on the disk as in the view. -/
theorem processes_follow_two : ∃ P' : Pool Op Op.Res Bool (Option (List UInt8)) State,
    P'.state.Inv oneBlock ∧ (writerAndReader.map (State.view oneBlock)).run
      (flatOps oneBlock.ninodes noDevices) Stop.waits [false, true, true, false, false] =
        .ok (P'.map (State.view oneBlock)) := by
  have hrun : (writerAndReader.run (diskOps oneBlock noDevices) Stop.waits
      [false, true, true, false, false]).toOption.isSome = true := by decide +kernel
  obtain ⟨P', hP'⟩ := Option.isSome_iff_exists.mp hrun
  exact ⟨P', (@processes_follow oneBlock noDevices Bool _ _ writerAndReader oneLocked_inv
    [false, true, true, false, false]).1 P' (Lib.toOption_eq_some.mp hP')⟩

/-- A call that does not write never lacks a block. -/
theorem reads_follow {α : Type} {p : Call α} (hp : p.Only fun o => ¬ o.Grows) (h : s.Inv sb) :
    Refines sb (fun _ => False) (p.run (diskOps sb devsw) s)
      (p.run (flatOps sb.ninodes devsw) (s.view sb)) :=
  Prog.follows_only (fun o s ho hs => (diskOps_follows o s hs).mono fun _ he => ho he.2) p hp h

end Xv6.Fs

import Xv6.Fs.Blocks
import Xv6.Lib.Runs

/-!
# File system — block ownership in every run

Every operation on inodes keeps the disk consistent and the cache a copy of it (`State.Inv`), so
every call made of them does: one induction over the call (`BlockCall.effect_inv`) in place of one
proof for each.

* `block_ownership` — the main result, for every sequence of calls.
* `bmap_above_size_leaks` — `bmap` leaves the address it allocates in the cache entry only.  Its
  callers write the inode back; called for itself above the size of a file, its block is lost when
  the entry is dropped.
-/

namespace Xv6.Fs

variable {sb : Superblock} {devsw : Devsw} {s t : State} {i : Inum}

/-- Between operations: the disk is consistent, and the cache entries in use belong to inodes of
the table and, where valid, are copies of allocated inodes; a locked inode is in use and valid. -/
structure State.Inv (sb : Superblock) (s : State) : Prop where
  consistent : s.img.Consistent sb
  range : ∀ i, 0 < s.ref i → i < sb.ninodes
  coherent : ∀ i, 0 < s.ref i → s.valid i →
    s.copy i = s.img.dinode i ∧ (s.img.dinode i).type ≠ 0
  held : ∀ i, s.locked i → 0 < s.ref i ∧ s.valid i

namespace State

/-- The entry of a locked inode. -/
theorem Inv.of_locked (h : s.Inv sb) (hl : s.locked i) :
    i < sb.ninodes ∧ s.copy i = s.img.dinode i ∧ (s.img.dinode i).type ≠ 0 := by
  obtain ⟨hr, hv⟩ := h.held i hl
  exact ⟨h.range i hr, h.coherent i hr hv⟩

/-- An inode is written to the disk and to its entry. -/
theorem Inv.commit (img : Image) (di : Dinode) (h : s.Inv sb)
    (hc : (img.setDinode i di).Consistent sb) (hdin : img.dinode = s.img.dinode)
    (ht : di.type ≠ 0) :
    Inv sb { s with img := img.setDinode i di, copy := Function.update s.copy i di } := by
  refine ⟨hc, h.range, fun j hj hv => ?_, h.held⟩
  by_cases hji : j = i
  · subst hji
    simp [Image.setDinode, ht]
  · have := h.coherent j hj hv
    simpa [Image.setDinode, hji, hdin] using this

/-- Only references, validity and locks change. -/
theorem Inv.entries {c : Icache} (h : s.Inv sb) (hrange : ∀ i, 0 < c.ref i → i < sb.ninodes)
    (hvalid : ∀ i, 0 < c.ref i → c.valid i → 0 < s.ref i ∧ s.valid i)
    (hheld : ∀ i, c.locked i → 0 < c.ref i ∧ c.valid i) : Inv sb { s with toIcache := c } := by
  refine ⟨h.consistent, hrange, fun i hr hv => ?_, hheld⟩
  obtain ⟨hr', hv'⟩ := hvalid i hr hv
  exact h.coherent i hr' hv'

theorem cached_eq_ok {α : Type} {r r' : α} {x : Except Stop Icache} :
    s.cached r x = .ok (r', t) ↔ ∃ c, x = .ok c ∧ r = r' ∧ { s with toIcache := c } = t := by
  simp only [cached]
  cases x <;> simp [bind, Except.bind, pure, Except.pure]

theorem cached_ne_freeing {α : Type} {r : α} {x : Except Stop Icache}
    (hx : x ≠ .error .freeingFreeBlock) : s.cached r x ≠ .error .freeingFreeBlock :=
  Lib.bind_ne_error hx (by simp [pure, Except.pure])

/-! ### References and locks -/

theorem iget_inv {c : Icache} {inum : Inum} (h : s.Inv sb)
    (he : s.toIcache.iget sb.ninodes inum = .ok c) : Inv sb { s with toIcache := c } := by
  obtain ⟨hlt, hlocked, href, hvalid⟩ := Icache.iget_spec he
  have hrange := h.range
  have hheld := h.held
  refine h.entries ?_ ?_ ?_ <;> grind

theorem idup_inv {c : Icache} (h : s.Inv sb) (he : s.toIcache.idup i = .ok c) :
    Inv sb { s with toIcache := c } := by
  obtain ⟨hpos, rfl⟩ := Icache.idup_spec he
  have hrange := h.range
  have hheld := h.held
  refine h.entries ?_ ?_ ?_ <;> simp only [Icache.setRef] <;> grind

theorem iunlock_inv {c : Icache} (h : s.Inv sb) (he : s.toIcache.iunlock i = .ok c) :
    Inv sb { s with toIcache := c } := by
  obtain ⟨-, -, rfl⟩ := Icache.iunlock_spec he
  have hheld := h.held
  refine h.entries h.range ?_ ?_ <;> simp only [Icache.setLocked] <;> grind

/-- `ilock` keeps the invariant: a copy that is read is what the disk holds. -/
theorem ilock_inv {u : Unit} (h : s.Inv sb) (he : s.ilock i = .ok (u, t)) : t.Inv sb := by
  obtain ⟨c, hc, he⟩ := Lib.bind_eq_ok.mp he
  obtain ⟨hpos, -, htype, rfl⟩ := Icache.ilock_spec hc
  obtain ⟨-, rfl⟩ := Prod.mk.inj (Except.ok.inj he)
  have hheld := h.held
  have hcoh := h.coherent
  by_cases hv : s.valid i
  · rw [if_pos hv]
    refine h.entries h.range ?_ ?_ <;> simp only [Icache.setLocked, Icache.setValid] <;> grind
  · have ht := htype (by simpa using hv)
    rw [if_neg hv]
    refine ⟨h.consistent, h.range, ?_, ?_⟩ <;>
      simp only [Icache.setLocked, Icache.setValid, setCopy] <;> grind

/-! ### Freeing an inode -/

/-- `itrunc` succeeds on an inode in use, and frees its blocks. -/
theorem itrunc_ok (h : s.Inv sb) (hr : 0 < s.ref i) (hv : s.valid i) :
    ∃ img : Image, s.itrunc i = .ok { s with
        img := img.setDinode i { s.copy i with addrs := fun _ => 0, size := 0 }
        copy := Function.update s.copy i { s.copy i with addrs := fun _ => 0, size := 0 } } ∧
      (img.dinode = s.img.dinode ∧ img.data = s.img.data) ∧
      ∀ di : Dinode, di.addrs = (fun _ => 0) → di.size = 0 → (img.setDinode i di).Consistent sb := by
  obtain ⟨hcopy, ht⟩ := h.coherent i hr hv
  have hi := h.range i hr
  have ho : (s.img.setDinode i (s.copy i)).Owned sb := by
    rw [hcopy, setDinode_self]
    exact h.consistent.owned
  obtain ⟨img, he, hdin, hdata, hbit⟩ := itrunc_spec ho hi (hcopy ▸ ht)
  refine ⟨img, ?_, ⟨hdin, hdata⟩, fun di ha hs => ⟨?_, ?_⟩⟩
  · simp [itrunc, he, bind, Except.bind, pure, Except.pure, setCopy, iupdate, Image.setDinode, hdin]
  · exact owned_of_truncated ho hi (hcopy ▸ ht) hdin hdata hbit ha
  · intro j hj htj bn hbn
    by_cases hji : j = i
    · subst hji
      simp [Image.setDinode, hs] at hbn
    · have hdj : (img.setDinode i di).dinode j = s.img.dinode j := by
        simp [Image.setDinode, hji, hdin]
      rw [hdj] at htj hbn ⊢
      simpa [Image.setDinode, hdata] using h.consistent.noHoles j hj htj bn hbn

/-- `iput` frees an inode, or leaves the disk alone. -/
theorem release_ok (h : s.Inv sb) (hr : 0 < s.ref i) :
    ∃ t, s.release i = .ok t ∧ t.toIcache = s.toIcache ∧ t.img.Consistent sb ∧
      (∀ j, j ≠ i → t.copy j = s.copy j ∧ t.img.dinode j = s.img.dinode j) ∧
      (¬ s.frees i (s.copy i).nlink → t = s) ∧
      (s.frees i (s.copy i).nlink → t.outstanding = s.outstanding ∧ t.img.data = s.img.data ∧
        t.img.dinode i = { s.copy i with addrs := fun _ => 0, size := 0, type := 0 }) := by
  unfold release
  by_cases hf : s.frees i (s.copy i).nlink
  · have hv : s.valid i := by
      simp only [Icache.frees, decide_eq_true_eq] at hf
      exact hf.1
    obtain ⟨img, hit, ⟨hdin, hdata⟩, hc⟩ := itrunc_ok h hr hv
    rw [if_pos hf, hit]
    refine ⟨_, rfl, rfl, ?_, fun j hj => ?_, fun hn => absurd hf hn, fun _ => ⟨rfl, hdata, ?_⟩⟩
    · simpa [iupdate, setCopy, Image.setDinode] using
        hc { s.copy i with addrs := fun _ => 0, size := 0, type := 0 } rfl rfl
    · simp [iupdate, setCopy, Image.setDinode, hj, hdin]
    · simp [iupdate, setCopy]
  · exact ⟨s, if_neg hf, rfl, h.consistent, fun _ _ => ⟨rfl, rfl⟩, fun _ => rfl,
      fun hf' => absurd hf' hf⟩

/-- `iput` keeps it: the blocks of an inode that is freed are nobody's. -/
theorem iput_inv {u : Unit} (h : s.Inv sb) (he : s.iput i = .ok (u, t)) : t.Inv sb := by
  obtain ⟨c, hc, he⟩ := Lib.bind_eq_ok.mp he
  obtain ⟨hpos, hl, rfl⟩ := Icache.iput_spec hc
  obtain ⟨s', hs', hcache, himg, hother, hsame, -⟩ := release_ok h hpos
  rw [hs'] at he
  obtain ⟨-, rfl⟩ := Prod.mk.inj (Except.ok.inj he)
  have hheld := h.held
  have hrange := h.range
  by_cases hf : s.frees i (s.copy i).nlink
  · rw [if_pos hf]
    have hcoh := h.coherent
    refine ⟨himg, ?_, ?_, ?_⟩ <;> simp only [Icache.setRef, Icache.setValid] <;> grind
  · obtain rfl := hsame hf
    rw [if_neg hf]
    refine h.entries ?_ ?_ ?_ <;> simp only [Icache.setRef] <;> grind

/-! ### Allocating and writing -/

theorem Inv.consistent_copy (h : s.Inv sb) (hl : s.locked i) :
    (s.img.setDinode i (s.copy i)).Owned sb := by
  rw [(h.of_locked hl).2.1, setDinode_self]
  exact h.consistent.owned

/-- `ialloc` keeps it: a new inode has no blocks. -/
theorem ialloc_inv {type : ℤ} {r : Inum} (h : s.Inv sb) (he : s.ialloc sb type = .ok (r, t)) :
    t.Inv sb := by
  unfold ialloc at he
  split at he
  · cases he
  · rename_i inum hfind
    have hfree : (s.img.dinode inum).type = 0 := by simpa using List.find?_some hfind
    obtain ⟨c, hc, -, rfl⟩ := cached_eq_ok.mp he
    refine iget_inv (s := { s with img := s.img.setDinode inum (.blank type) })
      ⟨h.consistent.alloc hfree rfl rfl, h.range, ?_, h.held⟩ hc
    intro j hj hv
    have := h.coherent j hj hv
    have hne : j ≠ inum := by
      rintro rfl
      exact this.2 hfree
    simpa [Image.setDinode, Function.update_of_ne hne] using this

/-- A change of the other fields keeps it. -/
theorem update_inv {major minor nlink : ℤ} (h : s.Inv sb) (hl : s.locked i) :
    (s.update i major minor nlink).Inv sb := by
  obtain ⟨hi, hcopy, ht⟩ := h.of_locked hl
  have hup : s.update i major minor nlink = { s with
      img := s.img.setDinode i { s.copy i with major := major, minor := minor, nlink := nlink }
      copy := Function.update s.copy i
        { s.copy i with major := major, minor := minor, nlink := nlink } } := by
    simp [update, iupdate, setCopy, Image.setDinode]
  rw [hup]
  refine Inv.commit _ _ h ?_ rfl (hcopy ▸ ht)
  have hd : Extends sb i s.img (s.img.dinode i) s.img (s.copy i) := by
    rw [← hcopy]
    exact .refl (h.consistent_copy hl)
  exact hd.consistent h.consistent hi ht rfl rfl fun bn hbn => by
    rw [hcopy] at hbn ⊢
    exact h.consistent.noHoles i hi ht bn hbn

/-- `readi` changes nothing. -/
theorem readi_eq {off n : ℕ} {r : Option (List UInt8)} (h : s.Inv sb) (hl : s.locked i)
    (he : s.readi sb devsw i off n = .ok (r, t)) : t = s := by
  obtain ⟨hi, hcopy, ht⟩ := h.of_locked hl
  have hkeep : ∀ r, readiFile sb devsw s.img (s.copy i) off n = .ok r → r.2 = (s.img, s.copy i) := by
    intro r hr
    unfold readiFile at hr
    split at hr
    · split at hr <;> simp only [Except.ok.injEq] at hr <;> subst hr <;> rfl
    · split at hr
      · simp only [Except.ok.injEq] at hr
        subst hr
        rfl
      · rename_i hoff
        have hfill : ∀ bn, Spans off (if (s.copy i).size < off + n then (s.copy i).size - off
            else n) bn → Filled s.img.data (s.copy i) bn := by
          intro bn hs
          obtain ⟨-, -, hlt⟩ := hs
          rw [hcopy] at hlt hoff ⊢
          refine h.consistent.noHoles i hi ht bn ?_
          split at hlt <;> omega
        obtain ⟨dst, hd⟩ := readiLoop_filled sb _ off _ le_rfl hfill
        simp only [hd, bind, Except.bind, pure, Except.pure, Except.ok.injEq] at hr
        subst hr
        rfl
  obtain ⟨r', hr', he⟩ := Lib.bind_eq_ok.mp he
  obtain ⟨-, rfl⟩ := Prod.mk.inj (Except.ok.inj he)
  obtain ⟨himg, hdi⟩ := Prod.mk.inj (hkeep r' hr')
  simp [himg, hdi, setCopy]

/-- `writei` keeps it: a block that is allocated was nobody's. -/
theorem writei_inv {off : ℕ} {src : List UInt8} {r : Option ℕ} (h : s.Inv sb) (hl : s.locked i)
    (he : s.writei sb devsw i off src = .ok (r, t)) : t.Inv sb := by
  obtain ⟨hi, hcopy, ht⟩ := h.of_locked hl
  obtain ⟨⟨r', img, di, up⟩, hw, he⟩ := Lib.bind_eq_ok.mp he
  obtain ⟨-, rfl⟩ := Prod.mk.inj (Except.ok.inj he)
  have ho := h.consistent_copy hl
  rcases writeiFile_cases hw with ⟨rfl, rfl, rfl⟩ | ⟨di₁, hoff, hloop, hend⟩
  · simpa [setCopy] using h
  · obtain ⟨hext, hfill, hnone⟩ := writeiLoop_spec hi _ off src le_rfl ho (hcopy ▸ ht) hloop
    have hsize : di₁.size = (s.copy i).size := congrArg Attr.size hext.attr
    -- below the old size nothing was missing, above it the loop has filled
    have hbelow : ∀ bn, bn * BSIZE < (s.copy i).size → Filled img.data di₁ bn := by
      intro bn hbn
      refine hext.filled hi (hcopy ▸ ht) ?_
      rw [hcopy] at hbn ⊢
      exact h.consistent.noHoles i hi ht bn hbn
    rw [hcopy] at hext
    rcases hend with ⟨hpos, hgrow, rfl, rfl⟩ | ⟨hgrow, rfl, rfl⟩
    · have hst : (({ s with img := img }.setCopy i { di₁ with size := off + src.length }).iupdate i) =
          { s with
            img := img.setDinode i { di₁ with size := off + src.length }
            copy := Function.update s.copy i { di₁ with size := off + src.length } } := by
        simp [iupdate, setCopy, Image.setDinode]
      rw [if_pos rfl, hst]
      refine Inv.commit _ _ h ?_ hext.dinode (hext.type_ne ht)
      refine hext.consistent h.consistent hi ht rfl rfl fun bn hbn => ?_
      by_cases hb : bn * BSIZE < (s.copy i).size
      · exact hbelow bn hb
      · refine hfill bn ?_
        simp only [Spans, BSIZE] at hbn hb ⊢
        omega
    · -- no growth, so no block was missing
      have hdi : di = s.copy i := by
        refine hnone fun bn hs => ?_
        rw [hcopy]
        refine h.consistent.noHoles i hi ht bn ?_
        obtain ⟨h0, -, hlt⟩ := hs
        rw [← hcopy]
        omega
      subst hdi
      have hc := hext.consistent h.consistent hi ht rfl rfl hbelow
      have hst : { s with img := img }.setCopy i (s.copy i) =
          { s with img := img.setDinode i (s.copy i), copy := Function.update s.copy i (s.copy i) } := by
        have : img.setDinode i (s.copy i) = img := by rw [hcopy, ← hext.dinode, setDinode_self]
        rw [this]
        rfl
      rw [if_neg (by simp), hst]
      exact Inv.commit _ _ h hc hext.dinode (hcopy ▸ ht)

end State

/-! ### Every operation, every call -/

/-- **Every operation keeps the invariant.** -/
theorem diskOps_inv (o : Op) (h : s.Inv sb) {r : o.Res} (he : diskOps sb devsw o s = .ok (r, t)) :
    t.Inv sb := by
  cases o with
  | begin_op =>
      obtain ⟨-, rfl⟩ := Prod.mk.inj (Except.ok.inj he)
      exact ⟨h.consistent, h.range, h.coherent, h.held⟩
  | end_op =>
      obtain ⟨-, rfl⟩ := Prod.mk.inj (Except.ok.inj he)
      exact ⟨h.consistent, h.range, h.coherent, h.held⟩
  | iget inum =>
      obtain ⟨c, hc, -, rfl⟩ := State.cached_eq_ok.mp he
      exact State.iget_inv h hc
  | idup ip =>
      obtain ⟨c, hc, -, rfl⟩ := State.cached_eq_ok.mp he
      exact State.idup_inv h hc
  | ilock ip => exact State.ilock_inv h he
  | iunlock ip =>
      obtain ⟨c, hc, -, rfl⟩ := State.cached_eq_ok.mp he
      exact State.iunlock_inv h hc
  | iput ip => exact State.iput_inv h he
  | ialloc type => exact State.ialloc_inv h he
  | attr ip =>
      obtain ⟨-, he⟩ := Icache.whenLocked_eq_ok.mp he
      obtain ⟨-, rfl⟩ := Prod.mk.inj (Except.ok.inj he)
      exact h
  | iupdate ip major minor nlink =>
      obtain ⟨hl, he⟩ := Icache.whenLocked_eq_ok.mp he
      obtain ⟨-, rfl⟩ := Prod.mk.inj (Except.ok.inj he)
      exact State.update_inv h hl
  | readi ip off n =>
      obtain ⟨hl, he⟩ := Icache.whenLocked_eq_ok.mp he
      exact State.readi_eq h hl he ▸ h
  | writei ip off src =>
      obtain ⟨hl, he⟩ := Icache.whenLocked_eq_ok.mp he
      exact State.writei_inv h hl he
  | panic p => cases he

/-- No operation frees a block that is free. -/
theorem diskOps_ne_freeing (o : Op) (h : s.Inv sb) :
    diskOps sb devsw o s ≠ .error .freeingFreeBlock := by
  cases o with
  | begin_op => simp [diskOps]
  | end_op => simp [diskOps]
  | iget inum => exact State.cached_ne_freeing Icache.iget_ne_freeing
  | idup ip => exact State.cached_ne_freeing Icache.idup_ne_freeing
  | ilock ip => exact Lib.bind_ne_error Icache.ilock_ne_freeing (by simp [pure, Except.pure])
  | iunlock ip => exact State.cached_ne_freeing Icache.iunlock_ne_freeing
  | iput ip =>
      refine Lib.bind_ne_error Icache.iput_ne_freeing fun c hc => ?_
      obtain ⟨t, ht, -⟩ := State.release_ok h (Icache.iput_spec hc).1
      rw [ht]
      simp [bind, Except.bind, pure, Except.pure]
  | ialloc type =>
      simp only [diskOps, State.ialloc]
      split
      · simp
      · exact State.cached_ne_freeing Icache.iget_ne_freeing
  | attr ip => exact Icache.whenLocked_ne_freeing fun _ => by simp
  | iupdate ip major minor nlink => exact Icache.whenLocked_ne_freeing fun _ => by simp
  | readi ip off n =>
      refine Icache.whenLocked_ne_freeing fun _ => Lib.bind_ne_error ?_ (by simp [pure, Except.pure])
      unfold readiFile
      split
      · split <;> simp
      · split
        · simp
        · exact Lib.bind_ne_error (readiLoop_ne_freeing _ _ _ _ _) (by simp [pure, Except.pure])
  | writei ip off src =>
      refine Icache.whenLocked_ne_freeing fun _ => Lib.bind_ne_error ?_ (by simp [pure, Except.pure])
      unfold writeiFile
      split
      · split <;> simp
      · split
        · simp
        · split
          · simp
          · refine Lib.bind_ne_error (writeiLoop_ne_freeing _ _ _ _ _) fun r _ => ?_
            dsimp only
            split <;> simp [pure, Except.pure]
  | panic p => simp [diskOps]

/-- The calls whose sequences are looked at: the operations themselves, `bmap` and `itrunc` on
an inode the caller has locked, and the directory and system calls. -/
inductive BlockCall where
  | op (o : Op)
  | bmap (ip : Inum) (bn : ℕ)
  | itrunc (ip : Inum)
  | dirlink (dp : Inum) (name : Str) (inum : Inum)
  | create (cwd : Inum) (path : Path) (type major minor : ℤ)
  | sys_link (cwd : Inum) (old new : Path)
  | sys_unlink (cwd : Inum) (path : Path)

namespace BlockCall

/-- A program run for its effect. -/
def effect {α : Type} (sb : Superblock) (devsw : Devsw) (p : Call α) (s : State) :
    Except Stop State :=
  (p.run (diskOps sb devsw) s).map Prod.snd

/-- A call, or the `bmap` of an inode that is locked. -/
def exec (sb : Superblock) (devsw : Devsw) : BlockCall → State → Except Stop State
  | op o, s => effect sb devsw (.perform o) s
  | bmap ip bn, s => do
      let (_, s) ← s.whenLocked ip do
        let (addr, img, di) ← Fs.bmap sb s.img (s.copy ip) bn
        pure (addr, { s with img := img }.setCopy ip di)
      pure s
  | itrunc ip, s => do
      let (_, s) ← s.whenLocked ip do
        let s ← s.itrunc ip
        pure ((), s)
      pure s
  | dirlink dp name inum, s => effect sb devsw (Fs.dirlink dp name inum) s
  | create cwd path type major minor, s =>
      effect sb devsw (Fs.create cwd path type major minor) s
  | sys_link cwd old new, s => effect sb devsw (Fs.sys_link cwd old new) s
  | sys_unlink cwd path, s => effect sb devsw (Fs.sys_unlink cwd path) s

/-- A call of `bmap` is for a block below the inode's size. -/
def BelowSize : BlockCall → State → Prop
  | bmap ip bn, s => bn * BSIZE < (s.copy ip).size
  | _, _ => True

/-- A call keeps the invariant, whatever its operations return. -/
theorem effect_inv {α : Type} {p : Call α} (h : s.Inv sb) :
    (∀ t, effect sb devsw p s = .ok t → t.Inv sb) ∧
      effect sb devsw p s ≠ .error .freeingFreeBlock := by
  have hwp : p.wp (diskOps sb devsw) (· ≠ .freeingFreeBlock) (fun _ t => t.Inv sb) s :=
    Lib.Prog.wp_inv (fun o s hs => ⟨fun _ _ he => diskOps_inv o hs he,
      fun e he => fun h => diskOps_ne_freeing o hs (h ▸ he)⟩) p h
  unfold effect
  cases hr : p.run (diskOps sb devsw) s with
  | error e =>
      have := Lib.Prog.wp_of_error hwp hr
      exact ⟨by simp [Except.map], by simpa [Except.map] using this⟩
  | ok r =>
      have := Lib.Prog.wp_of_ok hwp hr
      exact ⟨by rintro t ⟨⟩; exact this, by simp [Except.map]⟩

/-- So does `bmap` by itself, below the size of the file. -/
theorem exec_inv {c : BlockCall} (h : s.Inv sb) (hb : c.BelowSize s)
    (he : c.exec sb devsw s = .ok t) : t.Inv sb := by
  cases c with
  | op o => exact (effect_inv h).1 t he
  | bmap ip bn =>
      obtain ⟨r, hr, he⟩ := Lib.bind_eq_ok.mp he
      obtain rfl : r.2 = t := Except.ok.inj he
      obtain ⟨hl, hr⟩ := Icache.whenLocked_eq_ok.mp hr
      obtain ⟨hi, hcopy, ht⟩ := h.of_locked hl
      -- below the size there is a block already
      have hfill : Filled s.img.data (s.copy ip) bn := by
        have hb : bn * BSIZE < (s.copy ip).size := hb
        rw [hcopy] at hb ⊢
        exact h.consistent.noHoles ip hi ht bn hb
      obtain ⟨slot, -, -, hbmap⟩ := bmap_filled sb hfill
      rw [hbmap] at hr
      obtain rfl := (Except.ok.inj hr).symm
      simpa [State.setCopy] using h
  | itrunc ip =>
      obtain ⟨r, hr, he⟩ := Lib.bind_eq_ok.mp he
      obtain rfl : r.2 = t := Except.ok.inj he
      obtain ⟨hl, hr⟩ := Icache.whenLocked_eq_ok.mp hr
      obtain ⟨hi, hcopy, ht⟩ := h.of_locked hl
      obtain ⟨img, hit, ⟨hdin, -⟩, hc⟩ := State.itrunc_ok h (h.held ip hl).1 (h.held ip hl).2
      rw [hit] at hr
      obtain rfl := (Except.ok.inj hr).symm
      exact State.Inv.commit _ _ h (hc _ rfl rfl) hdin (hcopy ▸ ht)
  | dirlink dp name inum => exact (effect_inv h).1 t he
  | create cwd path type major minor => exact (effect_inv h).1 t he
  | sys_link cwd old new => exact (effect_inv h).1 t he
  | sys_unlink cwd path => exact (effect_inv h).1 t he

/-- None of them frees a block that is free. -/
theorem exec_ne_freeing (c : BlockCall) (h : s.Inv sb) :
    c.exec sb devsw s ≠ .error .freeingFreeBlock := by
  cases c with
  | op o => exact (effect_inv h).2
  | bmap ip bn =>
      refine Lib.bind_ne_error (Icache.whenLocked_ne_freeing fun _ => ?_) (by simp [pure, Except.pure])
      exact Lib.bind_ne_error bmap_ne_freeing (by simp [pure, Except.pure])
  | itrunc ip =>
      refine Lib.bind_ne_error (Icache.whenLocked_ne_freeing fun hl => ?_) (by simp [pure, Except.pure])
      obtain ⟨img, hit, -⟩ := State.itrunc_ok h (h.held ip hl).1 (h.held ip hl).2
      rw [hit]
      simp [bind, Except.bind, pure, Except.pure]
  | dirlink dp name inum => exact (effect_inv h).2
  | create cwd path type major minor => exact (effect_inv h).2
  | sys_link cwd old new => exact (effect_inv h).2
  | sys_unlink cwd path => exact (effect_inv h).2

end BlockCall

/-! ### Runs -/

/-- An image with an empty inode cache. -/
def State.boot (d : Image) : State where
  toIcache := .empty
  img := d
  copy := fun _ => .blank 0
  outstanding := 0

theorem State.boot_inv {d : Image} (h : d.Consistent sb) : (State.boot d).Inv sb :=
  ⟨h, by simp [State.boot, Icache.empty], by simp [State.boot, Icache.empty],
    by simp [State.boot, Icache.empty]⟩

/-- **Block ownership.**  From a consistent image, and in runs whose separate calls of `bmap` are
for blocks below the size of the inode, the image is consistent after every call: no two slots
hold one block, and no block is lost.  No call frees a free block, and `balloc` returns a block
that no inode holds. -/
theorem block_ownership {d : Image} {cs : List BlockCall} (hd : d.Consistent sb)
    (hrun : Lib.Run (fun s c t => c.BelowSize s ∧ c.exec sb devsw s = .ok t) (State.boot d) cs t) :
    t.img.Consistent sb ∧ (∀ c : BlockCall, c.exec sb devsw t ≠ .error .freeingFreeBlock) ∧
      ∀ b d', balloc sb t.img = .ok (b, d') →
        sb.datastart ≤ b ∧ b < sb.size ∧ ∀ p, t.img.hold sb p ≠ b := by
  have hinv : t.Inv sb :=
    hrun.inv (fun s c t h hs => BlockCall.exec_inv hs h.1 h.2) (State.boot_inv hd)
  refine ⟨hinv.consistent, fun c => c.exec_ne_freeing hinv, fun b d' hb => ?_⟩
  obtain ⟨hfree, hlt, -⟩ := balloc_spec hb
  have hle := Lib.Owns.le_of_unused hinv.consistent.owned hfree
  have := sb.datastart_pos
  exact ⟨hle, hlt, hinv.consistent.owned.ne_of_unused hfree (by omega)⟩

/-- A disk of one data block, and an empty file with a link. -/
def oneBlock : Superblock := ⟨3, 2, 2, by decide, by decide⟩

/-- A disk with one file, which is empty. -/
def oneFile : Image where
  bit := (· < 2)
  dinode := fun i => if i = 1 then ⟨T_FILE, 0, 0, 1, 0, fun _ => 0⟩ else .blank 0
  data := fun _ _ => 0

/-- No device is there. -/
def noDevices : Devsw := ⟨fun _ => none, fun _ => none⟩

/-- The disk of one empty file is consistent. -/
theorem oneFile_consistent : oneFile.Consistent oneBlock := by
  have haddrs : ∀ i, (oneFile.dinode i).addrs = fun _ => 0 := by
    intro i
    by_cases hi : i = 1 <;> simp [oneFile, hi, Dinode.blank]
  have hhold : ∀ p, oneFile.hold oneBlock p = 0 := by
    intro p
    simp [Image.hold, slotAddr_blank (haddrs p.1)]
  refine ⟨⟨?_, ?_, ?_, ?_, ?_⟩, ?_⟩
  · exact fun p hp => absurd (hhold p) hp
  · exact fun p hp => absurd (hhold p) hp
  · exact fun p _ hp => absurd (hhold p) hp
  · intro b hle hb
    have : b < 2 := by simpa [oneFile] using hb
    exact absurd hle (by simpa [oneBlock] using this)
  · intro b hlt
    have : b < 2 := hlt
    simpa [oneFile] using this
  · intro i _ _ bn hbn
    by_cases hi : i = 1 <;> simp [oneFile, hi, Dinode.blank] at hbn

/-- Open the file, write a byte to it and close it. -/
def oneWrite : List BlockCall :=
  [.op (.iget 1), .op (.ilock 1), .op (.writei 1 0 [7]), .op (.iunlock 1), .op (.iput 1)]

theorem BlockCall.run_of_foldlM {cs : List BlockCall}
    (h : cs.foldlM (fun s (c : BlockCall) => (c.exec sb devsw s).toOption) s = some t) :
    Lib.Run (fun s c t => c.exec sb devsw s = .ok t) s cs t := by
  simpa using Lib.Run.of_foldlM h

/-- The byte's block is block 2, and it is the file's. -/
theorem block_ownership_oneWrite : ∃ t : State, t.img.bit 2 = true ∧ t.img.Consistent oneBlock := by
  have hend : (oneWrite.foldlM (fun s (c : BlockCall) => (c.exec oneBlock noDevices s).toOption)
      (State.boot oneFile)).any (·.img.bit 2) = true := by decide +kernel
  obtain ⟨t, ht, hbit⟩ := (Option.any_eq_true _ _).mp hend
  refine ⟨t, hbit, (block_ownership oneFile_consistent
    ((BlockCall.run_of_foldlM ht).mono fun c hc s t h => ⟨?_, h⟩)).1⟩
  simp only [oneWrite, List.mem_cons, List.not_mem_nil, or_false] at hc
  rcases hc with rfl | rfl | rfl | rfl | rfl <;> trivial

/-- Asking for block 0 of the empty file allocates one, and dropping the inode forgets it. -/
def oneMap : List BlockCall :=
  [.op (.iget 1), .op (.ilock 1), .bmap 1 0, .op (.iunlock 1), .op (.iput 1)]

/-- Above the size, the block that `bmap` allocates is lost with the copy of the inode. -/
theorem bmap_above_size_leaks :
    ¬ ∀ (sb : Superblock) (devsw : Devsw) (d : Image) (cs : List BlockCall) (t : State),
      d.Consistent sb → Lib.Run (fun s c t => c.exec sb devsw s = .ok t) (State.boot d) cs t →
        t.img.Consistent sb := by
  intro h
  have hend : (oneMap.foldlM (fun s (c : BlockCall) => (c.exec oneBlock noDevices s).toOption)
      (State.boot oneFile)).any (fun t => t.img.bit 2 ∧ (t.img.dinode 0).type = 0 ∧
        ∀ k, (t.img.dinode 1).addrs k = 0) = true := by decide +kernel
  obtain ⟨t, ht, hbits⟩ := (Option.any_eq_true _ _).mp hend
  obtain ⟨hbit, h0, h1⟩ := of_decide_eq_true hbits
  have hc := h oneBlock noDevices oneFile oneMap t oneFile_consistent (BlockCall.run_of_foldlM ht)
  obtain ⟨⟨i, slot⟩, hp⟩ := hc.owned.owned 2 le_rfl hbit
  have hlt : i < 2 := by
    by_contra hge
    simp [Image.hold, show ¬ i < oneBlock.ninodes from hge] at hp
  rcases Nat.le_one_iff_eq_zero_or_eq_one.mp (Nat.lt_succ_iff.mp hlt) with rfl | rfl
  · simp [Image.hold, h0] at hp
  · simp [Image.hold, slotAddr_blank (funext h1)] at hp

end Xv6.Fs

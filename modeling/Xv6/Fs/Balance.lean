import Xv6.Fs.Ownership
import Xv6.Fs.Syscalls
import Mathlib.Data.Multiset.Count

/-!
# File system — what a call takes, it gives back

A call takes references to inodes and locks on them, and passes them between its functions.
`Frame.Inside H K` is the state between two operations of a call that has the references `H` and
the locks `K`, over those of everybody else; each function has one rule that says what it adds to
`H` and `K`, on every path.

The rules are stated for any property of the state that the operations in use keep (`Frame.keep`).
Here it is that the call is inside its transaction.

* `calls_balanced` — the main result: on every return path of every call there is one transaction
  around everything the call does, no lock is left, and the references are as before but for the
  one that the call has gained and the one that it has given up.
-/

namespace Xv6.Fs

open Lib.Prog

/-- A state, with the operations performed so far. -/
abbrev Traced := State × List (Event Op Op.Res State)

/-- What a call is surrounded by: the references and locks of the others, the inodes whose
references it may drop, the directories, and the property it keeps. -/
structure Frame where
  ref : Inum → ℤ
  locked : Inum → Bool
  alive : Inum → Prop
  dir : Inum → Prop
  keep : Traced → Prop

/-- The operations that are not meant to change a file, and those that write one. -/
def Op.Quiet : Op → Prop
  | .iget _ | .idup _ | .ilock _ | .iunlock _ | .iput _ | .attr _ | .readi .. => True
  | _ => False

/-- The operation changes an inode that is locked. -/
def Op.Writes : Op → Prop
  | .iupdate .. | .writei .. => True
  | _ => False

namespace State

variable {sb : Superblock} {devsw : Devsw} {s t : State} {ip : Inum} {r : Unit}

theorem ilock_cache (h : s.ilock ip = .ok (r, t)) :
    s.locked ip = false ∧ t.ref = s.ref ∧ ∀ j, t.locked j ↔ j = ip ∨ s.locked j := by
  obtain ⟨c, hc, h⟩ := Lib.bind_eq_ok.mp h
  obtain ⟨-, hl, -, rfl⟩ := Icache.ilock_spec hc
  obtain ⟨-, rfl⟩ := Prod.mk.inj (Except.ok.inj h)
  refine ⟨hl, rfl, fun j => ?_⟩
  by_cases hj : j = ip <;> simp [Icache.setLocked, Icache.setValid, hj]

/-- `iput` takes one reference. -/
theorem iput_cache (h : s.iput ip = .ok (r, t)) :
    0 < s.ref ip ∧ t.locked = s.locked ∧
      ∀ j, t.ref j = if j = ip then s.ref j - 1 else s.ref j := by
  obtain ⟨c, hc, h⟩ := Lib.bind_eq_ok.mp h
  obtain ⟨hpos, -, rfl⟩ := Icache.iput_spec hc
  obtain ⟨s', -, h⟩ := Lib.bind_eq_ok.mp h
  obtain ⟨-, rfl⟩ := Prod.mk.inj (Except.ok.inj h)
  refine ⟨hpos, ?_, fun j => ?_⟩
  · split <;> rfl
  · dsimp only
    split <;> simp only [Icache.setRef, Icache.setValid] <;> grind

theorem writei_cache {off : ℕ} {src : List UInt8} {r : Option ℕ}
    (h : s.writei sb devsw ip off src = .ok (r, t)) : t.toIcache = s.toIcache := by
  obtain ⟨⟨r', img, di, up⟩, -, h⟩ := Lib.bind_eq_ok.mp h
  obtain ⟨-, rfl⟩ := Prod.mk.inj (Except.ok.inj h)
  split <;> rfl

theorem readi_cache {off n : ℕ} {r : Option (List UInt8)}
    (h : s.readi sb devsw ip off n = .ok (r, t)) : t.toIcache = s.toIcache := by
  obtain ⟨r', -, h⟩ := Lib.bind_eq_ok.mp h
  obtain ⟨-, rfl⟩ := Prod.mk.inj (Except.ok.inj h)
  rfl

/-- `ialloc` adds one reference. -/
theorem ialloc_cache {type : ℤ} {r : Inum} (h : s.ialloc sb type = .ok (r, t)) :
    t.locked = s.locked ∧ ∀ j, t.ref j = if j = r then s.ref j + 1 else s.ref j := by
  unfold ialloc at h
  split at h
  · cases h
  · obtain ⟨c, hc, rfl, rfl⟩ := cached_eq_ok.mp h
    obtain ⟨-, hlock, href, -⟩ := Icache.iget_spec hc
    exact ⟨hlock, href⟩

end State

namespace Frame

variable {sb : Superblock} {devsw : Devsw} {F : Frame} {H K : Multiset Inum} {u v : Traced}
  {ip dp : Inum} {α : Type}

/-- The quiet operations keep the property of the frame: to drop a reference, as long as there is
another or the inode is alive.  What a directory that is alive names is alive. -/
structure Stable (sb : Superblock) (devsw : Devsw) (F : Frame) : Prop where
  root : F.alive ROOTINO
  dir : ∀ {u : Traced} {ip : Inum}, F.keep u → u.1.locked ip → (u.1.copy ip).type = T_DIR → F.dir ip
  entry : ∀ {u : Traced} {ip : Inum} {off : ℕ} {b : List UInt8} {t : State}, F.keep u →
    u.1.locked ip → F.alive ip → F.dir ip → u.1.readi sb devsw ip off DESIZE = .ok (some b, t) →
      b.length = DESIZE → (Dirent.decode b).inum ≠ 0 → F.alive (Dirent.decode b).inum
  quiet : ∀ {u : Traced} (o : Op) {r : o.Res} {t : State}, F.keep u → o.Quiet →
    (∀ ip, o = .iput ip → F.alive ip ∧ F.ref ip < u.1.ref ip) →
      diskOps sb devsw o u.1 = .ok (r, t) → F.keep (t, u.2 ++ [⟨u.1, o, r, t⟩])

/-- The operations that write a file keep it too. -/
structure Writable (sb : Superblock) (devsw : Devsw) (F : Frame) : Prop
    extends F.Stable sb devsw where
  writes : ∀ {u : Traced} (o : Op) {r : o.Res} {t : State}, F.keep u → o.Writes →
    diskOps sb devsw o u.1 = .ok (r, t) → F.keep (t, u.2 ++ [⟨u.1, o, r, t⟩])

/-- Inside a call that has the references `H` and the locks `K`. -/
structure Inside (F : Frame) (H K : Multiset Inum) (u : Traced) : Prop where
  ref : ∀ i, u.1.ref i = F.ref i + H.count i
  locked : ∀ i, u.1.locked i ↔ F.locked i ∨ i ∈ K
  nodup : K.Nodup
  free : ∀ i ∈ K, F.locked i = false
  alive : ∀ i ∈ H, F.alive i
  keep : F.keep u

/-- `p`, run from `u`, does not return, or returns with `Q`. -/
abbrev Ends (sb : Superblock) (devsw : Devsw) (p : Call α) (Q : α → Traced → Prop) (u : Traced) :
    Prop :=
  wp (traced (diskOps sb devsw)) (fun _ => True) p Q u

theorem Inside.swap {a b : Inum} (h : F.Inside (a ::ₘ b ::ₘ H) K u) :
    F.Inside (b ::ₘ a ::ₘ H) K u :=
  Multiset.cons_swap a b H ▸ h

theorem Inside.swap_locks {a b : Inum} (h : F.Inside H (a ::ₘ b ::ₘ K) u) :
    F.Inside H (b ::ₘ a ::ₘ K) u :=
  Multiset.cons_swap a b K ▸ h

/-! ### Operations -/

/-- The rule for one operation. -/
theorem ends_perform {o : Op} {Q : o.Res → Traced → Prop}
    (h : ∀ r t, diskOps sb devsw o u.1 = .ok (r, t) → Q r (t, u.2 ++ [⟨u.1, o, r, t⟩])) :
    Ends sb devsw (.perform o) Q u := by
  refine wp_perform.mpr ⟨fun r v hv => ?_, fun _ _ => trivial⟩
  obtain ⟨t, ht, rfl⟩ := traced_eq_ok.mp hv
  exact h r t ht

theorem ends_panic {p : CallPanic} {Q : α → Traced → Prop} : Ends sb devsw (panic p) Q u := by
  simp [Ends, Lib.Prog.wp, panic, run, traced, diskOps, Except.map]

/-- An operation that leaves references and locks alone. -/
theorem Inside.same {t : State} {l : List (Event Op Op.Res State)} (h : F.Inside H K u)
    (ht : t.toIcache.ref = u.1.ref ∧ t.locked = u.1.locked) (hk : F.keep (t, l)) :
    F.Inside H K (t, l) :=
  ⟨fun i => by rw [← h.ref i, ← ht.1], fun i => by rw [← h.locked i, ← ht.2], h.nodup, h.free,
    h.alive, hk⟩

/-- A new reference. -/
theorem Inside.gain {t : State} {l : List (Event Op Op.Res State)} (h : F.Inside H K u) (ha : F.alive ip)
    (href : ∀ j, t.ref j = if j = ip then u.1.ref j + 1 else u.1.ref j)
    (hlock : t.locked = u.1.locked) (hk : F.keep (t, l)) : F.Inside (ip ::ₘ H) K (t, l) := by
  refine ⟨fun i => ?_, fun i => ?_, h.nodup, h.free, ?_, hk⟩
  · have := h.ref i
    rw [href, Multiset.count_cons]
    split_ifs <;> omega
  · rw [← h.locked i, ← hlock]
  · simpa [ha] using h.alive

theorem iget_inside (hF : F.Stable sb devsw) (h : F.Inside H K u) (ha : F.alive ip) :
    Ends sb devsw (iget ip) (fun r v => r = ip ∧ F.Inside (ip ::ₘ H) K v) u := by
  refine ends_perform fun r t ht => ?_
  have hk := hF.quiet (.iget ip) h.keep trivial (by simp) ht
  obtain ⟨c, hc, rfl, rfl⟩ := State.cached_eq_ok.mp ht
  obtain ⟨-, hlock, href, -⟩ := Icache.iget_spec hc
  exact ⟨rfl, h.gain ha href hlock hk⟩

/-- `idup` adds one reference. -/
theorem idup_inside (hF : F.Stable sb devsw) (h : F.Inside H K u) (ha : F.alive ip) :
    Ends sb devsw (idup ip) (fun r v => r = ip ∧ F.Inside (ip ::ₘ H) K v) u := by
  refine ends_perform fun r t ht => ?_
  have hk := hF.quiet (.idup ip) h.keep trivial (by simp) ht
  obtain ⟨c, hc, rfl, rfl⟩ := State.cached_eq_ok.mp ht
  obtain ⟨-, rfl⟩ := Icache.idup_spec hc
  refine ⟨rfl, h.gain ha (fun j => ?_) rfl hk⟩
  simp only [Icache.setRef]
  grind

/-- `ilock` takes a lock, if the process does not have it. -/
theorem ilock_inside (hF : F.Stable sb devsw) (h : F.Inside H K u) :
    Ends sb devsw (ilock ip) (fun _ v => F.Inside H (ip ::ₘ K) v) u := by
  refine ends_perform fun r t ht => ?_
  have hk := hF.quiet (.ilock ip) h.keep trivial (by simp) ht
  obtain ⟨hl, href, hlock⟩ := State.ilock_cache ht
  have hout : F.locked ip = false ∧ ip ∉ K := by
    have := (h.locked ip).not.mp (by simp [hl])
    simpa using this
  refine ⟨fun i => ?_, fun i => ?_, Multiset.nodup_cons.mpr ⟨hout.2, h.nodup⟩, ?_, h.alive, hk⟩
  · rw [← h.ref i, href]
  · rw [hlock, Multiset.mem_cons, ← or_left_comm, ← h.locked i]
  · simpa [hout.1] using h.free

/-- `iunlock` gives the lock back. -/
theorem iunlock_inside (hF : F.Stable sb devsw) (h : F.Inside H (ip ::ₘ K) u) :
    Ends sb devsw (iunlock ip) (fun _ v => F.Inside H K v) u := by
  refine ends_perform fun r t ht => ?_
  have hk := hF.quiet (.iunlock ip) h.keep trivial (by simp) ht
  obtain ⟨c, hc, -, rfl⟩ := State.cached_eq_ok.mp ht
  obtain ⟨-, -, rfl⟩ := Icache.iunlock_spec hc
  obtain ⟨hout, hnd⟩ := Multiset.nodup_cons.mp h.nodup
  have hfree := h.free ip (Multiset.mem_cons_self ..)
  refine ⟨h.ref, fun i => ?_, hnd, fun i hi => h.free i (Multiset.mem_cons_of_mem hi), h.alive, hk⟩
  have := h.locked i
  by_cases hi : i = ip
  · subst hi
    simp [Icache.setLocked, hfree, hout]
  · simpa [Icache.setLocked, hi] using this

/-- `iput` gives a reference back. -/
theorem iput_inside (hF : F.Stable sb devsw) (h : F.Inside (ip ::ₘ H) K u) :
    Ends sb devsw (iput ip) (fun _ v => F.Inside H K v) u := by
  refine ends_perform fun r t ht => ?_
  have href : F.ref ip < u.1.ref ip := by
    rw [h.ref ip, Multiset.count_cons_self]
    omega
  have hk := hF.quiet (.iput ip) h.keep trivial
    (fun j hj => by cases hj; exact ⟨h.alive ip (Multiset.mem_cons_self ..), href⟩) ht
  obtain ⟨hpos, hlock, hput⟩ := State.iput_cache ht
  refine ⟨fun i => ?_, fun i => ?_, h.nodup, h.free,
    fun i hi => h.alive i (Multiset.mem_cons_of_mem hi), hk⟩
  · have := h.ref i
    rw [Multiset.count_cons] at this
    rw [hput]
    split_ifs at this ⊢ with hi
    · subst hi
      omega
    · omega
  · rw [← h.locked i, ← hlock]

theorem attr_inside (hF : F.Stable sb devsw) (h : F.Inside H K u) :
    Ends sb devsw (attr ip) (fun a v => F.Inside H K v ∧ (a.type = T_DIR → F.dir ip)) u := by
  refine ends_perform fun r t ht => ?_
  have hk := hF.quiet (.attr ip) h.keep trivial (by simp) ht
  obtain ⟨hl, ht⟩ := Icache.whenLocked_eq_ok.mp ht
  obtain ⟨rfl, rfl⟩ := Prod.mk.inj (Except.ok.inj ht)
  exact ⟨h.same ⟨rfl, rfl⟩ hk, hF.dir h.keep hl⟩

/-- `readi` changes neither references nor locks. -/
theorem readi_inside {off n : ℕ} (hF : F.Stable sb devsw) (h : F.Inside H K u) :
    Ends sb devsw (readi ip off n) (fun r v => F.Inside H K v ∧
      ∀ b, r = some b → n = DESIZE → F.alive ip → F.dir ip → b.length = DESIZE →
        (Dirent.decode b).inum ≠ 0 → F.alive (Dirent.decode b).inum) u := by
  refine ends_perform fun r t ht => ?_
  have hk := hF.quiet (.readi ip off n) h.keep trivial (by simp) ht
  obtain ⟨hl, ht⟩ := Icache.whenLocked_eq_ok.mp ht
  have hc := State.readi_cache ht
  refine ⟨h.same ⟨by rw [hc], by rw [hc]⟩ hk, ?_⟩
  rintro b rfl rfl ha hd hb
  exact hF.entry h.keep hl ha hd ht hb

/-! ### Directories -/

theorem iunlockput_inside (hF : F.Stable sb devsw) (h : F.Inside (ip ::ₘ H) (ip ::ₘ K) u) :
    Ends sb devsw (iunlockput ip) (fun _ v => F.Inside H K v) u :=
  wp_seq (iunlock_inside hF h) fun _ _ h => iput_inside hF h

/-- An entry that is read from a directory that lives names an inode that lives. -/
theorem readDirent_inside {p : CallPanic} {off : ℕ} (hF : F.Stable sb devsw) (h : F.Inside H K u) :
    Ends sb devsw (readDirent p dp off) (fun de v => F.Inside H K v ∧
      (F.alive dp → F.dir dp → de.inum ≠ 0 → F.alive de.inum)) u := by
  refine wp_seq (readi_inside hF h) fun r v hv => ?_
  cases r with
  | none => exact ends_panic
  | some b =>
      dsimp only
      split
      · rename_i hb
        exact ⟨hv.1, fun ha hd => hv.2 b rfl rfl ha hd hb⟩
      · exact ends_panic

/-- With a reference to what was found, if anything was. -/
def Took (F : Frame) (H K : Multiset Inum) (r : Option Inum) (u : Traced) : Prop :=
  match r with
  | none => F.Inside H K u
  | some ip => F.Inside (ip ::ₘ H) K u

/-- The search ends with a reference to what it has found. -/
theorem dirlookupFrom_inside {name : Str} (hF : F.Stable sb devsw) (ha : F.alive dp)
    (hd : F.dir dp) (offs : List ℕ) (h : F.Inside H K u) :
    Ends sb devsw (dirlookupFrom dp name offs) (fun r v => F.Took H K (r.map Prod.fst) v) u := by
  induction offs generalizing u with
  | nil => exact h
  | cons off offs ih =>
      refine wp_seq (readDirent_inside hF h) fun de v hv => ?_
      split
      · rename_i hde
        exact wp_seq (iget_inside hF hv.1 (hv.2 ha hd hde.1)) fun ip v hv => hv.1 ▸ hv.2
      · exact ih hv.1

/-- `dirlookup` ends with a reference to what it has found. -/
theorem dirlookup_inside {name : Str} (hF : F.Stable sb devsw) (ha : F.alive dp)
    (h : F.Inside H K u) :
    Ends sb devsw (dirlookup dp name) (fun r v => F.Took H K (r.map Prod.fst) v) u := by
  refine wp_seq (attr_inside hF h) fun a v hv => ?_
  split
  · exact ends_panic
  · rename_i ht
    exact dirlookupFrom_inside hF ha (hv.2 (not_not.mp ht)) _ hv.1

/-- The search for a free entry takes nothing. -/
theorem dirlinkSlot_inside (hF : F.Stable sb devsw) (offs : List ℕ) (stop : ℕ)
    (h : F.Inside H K u) :
    Ends sb devsw (dirlinkSlot dp offs stop) (fun _ v => F.Inside H K v) u := by
  induction offs generalizing u stop with
  | nil => exact h
  | cons off offs ih =>
      refine wp_seq (readDirent_inside hF h) fun de v hv => ?_
      split
      · exact hv.1
      · exact ih _ hv.1

/-- The search for an entry in use takes nothing. -/
theorem isdiremptyFrom_inside (hF : F.Stable sb devsw) (offs : List ℕ) (h : F.Inside H K u) :
    Ends sb devsw (isdiremptyFrom dp offs) (fun _ v => F.Inside H K v) u := by
  induction offs generalizing u with
  | nil => exact h
  | cons off offs ih =>
      refine wp_seq (readDirent_inside hF h) fun de v hv => ?_
      split
      · exact hv.1
      · exact ih hv.1

theorem isdirempty_inside (hF : F.Stable sb devsw) (h : F.Inside H K u) :
    Ends sb devsw (isdirempty dp) (fun _ v => F.Inside H K v) u :=
  wp_seq (attr_inside hF h) fun _ _ hv => isdiremptyFrom_inside hF _ hv.1

/-! ### Writing -/

theorem iupdate_inside {major minor nlink : ℤ} (hF : F.Writable sb devsw) (h : F.Inside H K u) :
    Ends sb devsw (iupdate ip major minor nlink) (fun _ v => F.Inside H K v) u := by
  refine ends_perform fun r t ht => ?_
  have hk := hF.writes (.iupdate ip major minor nlink) h.keep trivial ht
  obtain ⟨-, ht⟩ := Icache.whenLocked_eq_ok.mp ht
  obtain ⟨-, rfl⟩ := Prod.mk.inj (Except.ok.inj ht)
  exact h.same ⟨rfl, rfl⟩ hk

/-- `writei` changes neither references nor locks. -/
theorem writei_inside {off : ℕ} {src : List UInt8} (hF : F.Writable sb devsw)
    (h : F.Inside H K u) :
    Ends sb devsw (writei ip off src) (fun _ v => F.Inside H K v) u := by
  refine ends_perform fun r t ht => ?_
  have hk := hF.writes (.writei ip off src) h.keep trivial ht
  obtain ⟨-, ht⟩ := Icache.whenLocked_eq_ok.mp ht
  have hc := State.writei_cache ht
  exact h.same ⟨by rw [hc], by rw [hc]⟩ hk

theorem addLink_inside {d : ℤ} (hF : F.Writable sb devsw) (h : F.Inside H K u) :
    Ends sb devsw (addLink ip d) (fun _ v => F.Inside H K v) u :=
  wp_seq (attr_inside hF.toStable h) fun _ _ h => iupdate_inside hF h.1

theorem writeDirent_inside {p : CallPanic} {off : ℕ} {de : Dirent} (hF : F.Writable sb devsw)
    (h : F.Inside H K u) :
    Ends sb devsw (writeDirent p dp off de) (fun _ v => F.Inside H K v) u := by
  refine wp_seq (writei_inside hF h) fun r v h => ?_
  split
  · exact h
  · exact ends_panic

/-- `dirlink` gives back the reference of its lookup. -/
theorem dirlink_inside {name : Str} {inum : Inum} (hF : F.Writable sb devsw) (ha : F.alive dp)
    (h : F.Inside H K u) :
    Ends sb devsw (dirlink dp name inum) (fun _ v => F.Inside H K v) u := by
  refine wp_seq (dirlookup_inside hF.toStable ha h) fun r v h => ?_
  cases r with
  | some found => exact wp_seq (iput_inside hF.toStable h) fun _ _ h => h
  | none =>
      refine wp_seq (attr_inside hF.toStable h) fun a v h => ?_
      refine wp_seq (dirlinkSlot_inside hF.toStable _ _ h.1) fun off v h => ?_
      exact wp_seq (writeDirent_inside hF h) fun _ _ h => h

/-- Entering `.` and `..` takes nothing. -/
theorem createDots_inside (hF : F.Writable sb devsw) (ha : F.alive ip) (h : F.Inside H K u) :
    Ends sb devsw (createDots dp ip) (fun _ v => F.Inside H K v) u := by
  refine wp_seq (addLink_inside hF h) fun _ v h => ?_
  refine wp_seq (dirlink_inside hF ha h) fun r v h => ?_
  split
  · exact ends_panic
  · refine wp_seq (dirlink_inside hF ha h) fun r v h => ?_
    split
    · exact ends_panic
    · exact h

/-! ### Paths -/

theorem namexEnd_inside {b : Bool} {name : Str} (hF : F.Stable sb devsw)
    (h : F.Inside (ip ::ₘ H) K u) :
    Ends sb devsw (namexEnd b ip name) (fun r v => F.Took H K (r.map Prod.fst) v) u := by
  unfold namexEnd
  split
  · exact wp_seq (iput_inside hF h) fun _ _ h => h
  · exact h

/-- A walk ends with one reference more, or with none. -/
theorem namexLoop_inside {b : Bool} (hF : F.Stable sb devsw) (n : ℕ) (path name : Str)
    (h : F.Inside (ip ::ₘ H) K u) :
    Ends sb devsw (namexLoop b n ip path name) (fun r v => F.Took H K (r.map Prod.fst) v) u := by
  induction n generalizing u ip path name with
  | zero => exact namexEnd_inside hF h
  | succ n ih =>
      unfold namexLoop
      split
      · exact namexEnd_inside hF h
      · refine wp_seq (ilock_inside hF h) fun _ v h => ?_
        refine wp_seq (attr_inside hF h) fun a v h => ?_
        split
        · exact wp_seq (iunlockput_inside hF h.1) fun _ _ h => h
        · split
          · exact wp_seq (iunlock_inside hF h.1) fun _ _ h => h
          · refine wp_seq (dirlookup_inside hF (h.1.alive ip (Multiset.mem_cons_self ..)) h.1)
              fun r v h => ?_
            cases r with
            | none => exact wp_seq (iunlockput_inside hF h) fun _ _ h => h
            | some found =>
                have h : F.Inside (found.1 ::ₘ ip ::ₘ H) (ip ::ₘ K) v := h
                exact wp_seq (iunlockput_inside hF h.swap) fun _ _ h => ih _ _ h

/-- `namex` ends with one reference more, or with none. -/
theorem namex_inside {cwd : Inum} {path : Str} {b : Bool} (hF : F.Stable sb devsw)
    (ha : F.alive cwd) (h : F.Inside H K u) :
    Ends sb devsw (namex cwd path b) (fun r v => F.Took H K (r.map Prod.fst) v) u := by
  unfold namex
  dsimp only
  split
  · exact wp_seq (iget_inside hF h hF.root) fun ip v h => namexLoop_inside hF _ _ _ (h.1 ▸ h.2)
  · exact wp_seq (idup_inside hF h ha) fun ip v h => namexLoop_inside hF _ _ _ (h.1 ▸ h.2)

theorem namei_inside {cwd : Inum} {path : Str} (hF : F.Stable sb devsw) (ha : F.alive cwd)
    (h : F.Inside H K u) : Ends sb devsw (namei cwd path) (F.Took H K) u :=
  wp_seq (namex_inside hF ha h) fun _ _ h => h

end Frame

/-! ### Transactions -/

/-- Neither the beginning nor the end of a transaction. -/
def Inner (ops : List Op) : Prop := .begin_op ∉ ops ∧ .end_op ∉ ops

/-- One transaction around everything, or nothing. -/
def OneTransaction (ops : List Op) : Prop :=
  ops = [] ∨ ∃ mid, ops = .begin_op :: mid ++ [.end_op] ∧ Inner mid

variable {sb : Superblock} {devsw : Devsw} {R : Inum → ℤ} {L : Inum → Bool}
  {H K : Multiset Inum} {u v : Traced} {ip dp cwd : Inum} {path : Str}

/-- Inside the transaction of a call. -/
def inOp (R : Inum → ℤ) (L : Inum → Bool) : Frame where
  ref := R
  locked := L
  alive := fun _ => True
  dir := fun _ => True
  keep := fun u => ∃ mid, u.2.map Event.op = .begin_op :: mid ∧ Inner mid

/-- After it. -/
def afterOp (R : Inum → ℤ) (L : Inum → Bool) : Frame :=
  { inOp R L with keep := fun u => OneTransaction (u.2.map Event.op) }

theorem inOp_keep {x : Event Op Op.Res State} {t : State} (hu : (inOp R L).keep u)
    (ho : Inner [x.op]) : (inOp R L).keep (t, u.2 ++ [x]) := by
  obtain ⟨mid, hmid, hin⟩ := hu
  refine ⟨mid ++ [x.op], by simp [hmid], ?_⟩
  simp only [Inner, List.mem_append, not_or] at hin ho ⊢
  exact ⟨⟨hin.1, ho.1⟩, hin.2, ho.2⟩

/-- Within an operation the calls find what they need. -/
theorem inOp_stable : (inOp R L).Stable sb devsw where
  root := trivial
  dir := fun _ _ _ => trivial
  entry := fun _ _ _ _ _ _ _ => trivial
  quiet := by
    intro u o r t hu hq _ _
    refine inOp_keep hu ?_
    constructor <;> · rintro (_ | ⟨_, ⟨⟩⟩); exact hq

theorem inOp_writable : (inOp R L).Writable sb devsw where
  toStable := inOp_stable
  writes := by
    intro u o r t hu hw _
    refine inOp_keep hu ?_
    constructor <;> · rintro (_ | ⟨_, ⟨⟩⟩); exact hw

namespace Frame

theorem begin_op_inside {s : State} (href : ∀ i, s.ref i = R i + H.count i)
    (hlock : s.locked = L) :
    Ends sb devsw begin_op (fun _ v => (inOp R L).Inside H 0 v) (s, []) := by
  refine ends_perform fun r t ht => ?_
  obtain ⟨-, rfl⟩ := Prod.mk.inj (Except.ok.inj ht)
  exact ⟨href, by simp [inOp, hlock], Multiset.nodup_zero, by simp, fun _ _ => trivial,
    [], rfl, by simp [Inner]⟩

theorem end_op_inside (h : (inOp R L).Inside H K u) :
    Ends sb devsw end_op (fun _ v => (afterOp R L).Inside H K v) u := by
  refine ends_perform fun r t ht => ?_
  obtain ⟨-, rfl⟩ := Prod.mk.inj (Except.ok.inj ht)
  obtain ⟨mid, hmid, hin⟩ := h.keep
  exact ⟨h.ref, h.locked, h.nodup, h.free, h.alive, .inr ⟨mid, by simp [hmid], hin⟩⟩

theorem ialloc_inside {type : ℤ} (h : (inOp R L).Inside H K u) :
    Ends sb devsw (ialloc type) (fun ip v => (inOp R L).Inside (ip ::ₘ H) K v) u := by
  refine ends_perform fun r t ht => ?_
  obtain ⟨hlock, href⟩ := State.ialloc_cache ht
  exact h.gain trivial href hlock (inOp_keep h.keep (by simp [Inner]))

/-- With the lock on what was found too. -/
def TookLocked (F : Frame) (H K : Multiset Inum) (r : Option Inum) (u : Traced) : Prop :=
  match r with
  | none => F.Inside H K u
  | some ip => F.Inside (ip ::ₘ H) (ip ::ₘ K) u

/-- The end of `create`: the new inode gets its name. -/
theorem createName_inside {name : Str} (h : (inOp R L).Inside (ip ::ₘ dp ::ₘ H) (ip ::ₘ dp ::ₘ K) u) :
    Ends sb devsw (do
      if (← dirlink dp name ip) < 0 then panic .createDirlink
      else
        iunlockput dp
        pure (some ip)) ((inOp R L).TookLocked H K) u := by
  refine wp_seq (dirlink_inside inOp_writable trivial h) fun r v h => ?_
  split
  · exact ends_panic
  · exact wp_seq (iunlockput_inside inOp_stable h.swap.swap_locks) fun _ _ h => h

/-- `create` ends with a reference and a lock, or with neither. -/
theorem create_inside {type major minor : ℤ} (h : (inOp R L).Inside H K u) :
    Ends sb devsw (create cwd path type major minor) ((inOp R L).TookLocked H K) u := by
  refine wp_seq (namex_inside inOp_stable trivial h) fun r v h => ?_
  cases r with
  | none => exact h
  | some parent =>
      obtain ⟨dp, name⟩ := parent
      refine wp_seq (ilock_inside inOp_stable h) fun _ v h => ?_
      refine wp_seq (dirlookup_inside inOp_stable trivial h) fun r v h => ?_
      cases r with
      | some found =>
          have h : (inOp R L).Inside (found.1 ::ₘ dp ::ₘ H) (dp ::ₘ K) v := h
          refine wp_seq (iunlockput_inside inOp_stable h.swap) fun _ v h => ?_
          refine wp_seq (ilock_inside inOp_stable h) fun _ v h => ?_
          refine wp_seq (attr_inside inOp_stable h) fun a v h => ?_
          split
          · exact h.1
          · exact wp_seq (iunlockput_inside inOp_stable h.1) fun _ _ h => h
      | none =>
          refine wp_seq (ialloc_inside h) fun ip v h => ?_
          refine wp_seq (ilock_inside inOp_stable h) fun _ v h => ?_
          refine wp_seq (iupdate_inside inOp_writable h) fun _ v h => ?_
          dsimp only
          split
          · exact wp_seq (createDots_inside inOp_writable trivial h) fun _ v h => createName_inside h
          · exact createName_inside h

/-! ### System calls -/

theorem end_op_pure {α : Type} {a : α} {Q : α → Traced → Prop} (h : (inOp R L).Inside H K u)
    (hQ : ∀ v, (afterOp R L).Inside H K v → Q a v) :
    Ends sb devsw (do end_op; pure a) Q u :=
  wp_seq (end_op_inside h) fun _ v h => hQ v h

theorem iunlockput_end {α : Type} {a : α} {Q : α → Traced → Prop}
    (h : (inOp R L).Inside (ip ::ₘ H) (ip ::ₘ K) u) (hQ : ∀ v, (afterOp R L).Inside H K v → Q a v) :
    Ends sb devsw (do iunlockput ip; end_op; pure a) Q u :=
  wp_seq (iunlockput_inside inOp_stable h) fun _ _ h => end_op_pure h hQ

theorem cleanupsyslink_inside (h : (inOp R L).Inside (ip ::ₘ H) K u) :
    Ends sb devsw (cleanupsyslink ip) (fun _ v => (afterOp R L).Inside H K v) u := by
  refine wp_seq (ilock_inside inOp_stable h) fun _ v h => ?_
  refine wp_seq (addLink_inside inOp_writable h) fun _ v h => ?_
  exact wp_seq (iunlockput_inside inOp_stable h) fun _ v h => end_op_inside h

/-- The state a call starts in. -/
def Starts (R : Inum → ℤ) (L : Inum → Bool) (H : Multiset Inum) (u : Traced) : Prop :=
  (∀ i, u.1.ref i = R i + H.count i) ∧ u.1.locked = L ∧ u.2 = []

theorem begin_op_seq {α : Type} {p : Call α} {Q : α → Traced → Prop} (hu : Starts R L H u)
    (hp : ∀ v, (inOp R L).Inside H 0 v → Ends sb devsw p Q v) :
    Ends sb devsw (do begin_op; p) Q u := by
  obtain ⟨s, l⟩ := u
  obtain ⟨href, hlock, rfl⟩ := hu
  exact wp_seq (begin_op_inside href hlock) fun _ v h => hp v h

theorem Starts.returns (hu : Starts R L H u) : (afterOp R L).Inside H 0 u :=
  ⟨hu.1, by simp [afterOp, inOp, hu.2.1], Multiset.nodup_zero, by simp, fun _ _ => trivial,
    .inl (by rw [hu.2.2]; rfl)⟩

/-- `sys_link` gives everything back, on every path. -/
theorem sys_link_inside {old new : Str} (hu : Starts R L H u) :
    Ends sb devsw (sys_link cwd old new) (fun _ v => (afterOp R L).Inside H 0 v) u := by
  refine begin_op_seq hu fun v h => ?_
  refine wp_seq (namei_inside inOp_stable trivial h) fun r v h => ?_
  cases r with
  | none => exact end_op_pure h fun _ h => h
  | some ip =>
      refine wp_seq (ilock_inside inOp_stable h) fun _ v h => ?_
      refine wp_seq (attr_inside inOp_stable h) fun a v h => ?_
      split
      · exact iunlockput_end h.1 fun _ h => h
      · refine wp_seq (addLink_inside inOp_writable h.1) fun _ v h => ?_
        refine wp_seq (iunlock_inside inOp_stable h) fun _ v h => ?_
        refine wp_seq (namex_inside inOp_stable trivial h) fun r v h => ?_
        cases r with
        | none => exact wp_seq (cleanupsyslink_inside h) fun _ _ h => h
        | some parent =>
            obtain ⟨dp, name⟩ := parent
            refine wp_seq (ilock_inside inOp_stable h) fun _ v h => ?_
            refine wp_seq (dirlink_inside inOp_writable trivial h) fun r v h => ?_
            split
            · refine wp_seq (iunlockput_inside inOp_stable h) fun _ v h => ?_
              exact wp_seq (cleanupsyslink_inside h) fun _ _ h => h
            · refine wp_seq (iunlockput_inside inOp_stable h) fun _ v h => ?_
              exact wp_seq (iput_inside inOp_stable h) fun _ v h => end_op_pure h fun _ h => h

/-- The end of `sys_unlink`, with its two inodes locked. -/
theorem unlinked_inside (h : (inOp R L).Inside (ip ::ₘ dp ::ₘ H) (ip ::ₘ dp ::ₘ K) u) :
    Ends sb devsw (do
      iunlockput dp
      addLink ip (-1)
      iunlockput ip
      end_op
      pure (0 : ℤ)) (fun _ v => (afterOp R L).Inside H K v) u := by
  refine wp_seq (iunlockput_inside inOp_stable h.swap.swap_locks) fun _ v h => ?_
  exact wp_seq (addLink_inside inOp_writable h) fun _ v h => iunlockput_end h fun _ h => h

/-- From the test of `isdirempty` on. -/
theorem unlinking_inside {off : ℕ} {type : ℤ} {empty : Bool}
    (h : (inOp R L).Inside (ip ::ₘ dp ::ₘ H) (ip ::ₘ dp ::ₘ K) u) :
    Ends sb devsw (do
      if ¬ empty then
        iunlockput ip
        iunlockput dp
        end_op
        pure (-1 : ℤ)
      else
        writeDirent .unlinkWritei dp off Dirent.zero
        if type = T_DIR then addLink dp (-1)
        iunlockput dp
        addLink ip (-1)
        iunlockput ip
        end_op
        pure 0) (fun _ v => (afterOp R L).Inside H K v) u := by
  split
  · exact wp_seq (iunlockput_inside inOp_stable h) fun _ v h => iunlockput_end h fun _ h => h
  · refine wp_seq (writeDirent_inside inOp_writable h) fun _ v h => ?_
    dsimp only
    split
    · exact wp_seq (addLink_inside inOp_writable h) fun _ v h => unlinked_inside h
    · exact unlinked_inside h

/-- `sys_unlink` gives everything back, on every path. -/
theorem sys_unlink_inside (hu : Starts R L H u) :
    Ends sb devsw (sys_unlink cwd path) (fun _ v => (afterOp R L).Inside H 0 v) u := by
  refine begin_op_seq hu fun v h => ?_
  refine wp_seq (namex_inside inOp_stable trivial h) fun r v h => ?_
  cases r with
  | none => exact end_op_pure h fun _ h => h
  | some parent =>
      obtain ⟨dp, name⟩ := parent
      refine wp_seq (ilock_inside inOp_stable h) fun _ v h => ?_
      split
      · exact iunlockput_end h fun _ h => h
      · refine wp_seq (dirlookup_inside inOp_stable trivial h) fun r v h => ?_
        cases r with
        | none => exact iunlockput_end h fun _ h => h
        | some found =>
            obtain ⟨ip, off⟩ := found
            refine wp_seq (ilock_inside inOp_stable h) fun _ v h => ?_
            refine wp_seq (attr_inside inOp_stable h) fun a v h => ?_
            split
            · exact ends_panic
            · dsimp only
              by_cases ht : a.type = T_DIR
              · rw [if_pos ht]
                exact wp_seq (isdirempty_inside inOp_stable h.1) fun _ _ h => unlinking_inside h
              · rw [if_neg ht]
                exact wp_seq (wp_pure.mpr h.1) fun _ _ h => unlinking_inside h

/-- A file that is there is opened with a reference and a lock. -/
theorem openExisting_inside {omode : ℕ} (h : (inOp R L).Inside H K u) :
    Ends sb devsw (openExisting cwd path omode) ((inOp R L).TookLocked H K) u := by
  refine wp_seq (namei_inside inOp_stable trivial h) fun r v h => ?_
  cases r with
  | none => exact h
  | some ip =>
      refine wp_seq (ilock_inside inOp_stable h) fun _ v h => ?_
      refine wp_seq (attr_inside inOp_stable h) fun a v h => ?_
      split
      · exact wp_seq (iunlockput_inside inOp_stable h.1) fun _ _ h => h
      · exact h.1

/-- The end of `sys_open`, with the inode locked. -/
theorem opened_inside {r : Option Inum} {full : Bool} (h : (inOp R L).TookLocked H K r u) :
    Ends sb devsw (match r with
      | none => do
          end_op
          pure none
      | some ip =>
          if full then do
            iunlockput ip
            end_op
            pure none
          else do
            iunlock ip
            end_op
            pure (some ip)) ((afterOp R L).Took H K) u := by
  cases r with
  | none => exact end_op_pure h fun _ h => h
  | some ip =>
      dsimp only
      split
      · exact iunlockput_end h fun _ h => h
      · exact wp_seq (iunlock_inside inOp_stable h) fun _ v h => end_op_pure h fun _ h => h

/-- `sys_open` keeps a reference exactly if it returns a file. -/
theorem sys_open_inside {path : Option Str} {omode : ℕ} {full : Bool} (hu : Starts R L H u) :
    Ends sb devsw (sys_open cwd path omode full) ((afterOp R L).Took H 0) u := by
  cases path with
  | none => exact hu.returns
  | some path =>
      refine begin_op_seq hu fun v h => ?_
      dsimp only
      split
      · exact wp_seq (create_inside h) fun r v h => opened_inside h
      · exact wp_seq (openExisting_inside h) fun r v h => opened_inside h

theorem make_inside {type major minor : ℤ} (h : (inOp R L).Inside H 0 u) :
    Ends sb devsw (make cwd path type major minor) (fun _ v => (afterOp R L).Inside H 0 v) u := by
  refine wp_seq (create_inside h) fun r v h => ?_
  cases r with
  | none => exact end_op_pure h fun _ h => h
  | some ip => exact iunlockput_end h fun _ h => h

theorem sys_mkdir_inside {path : Option Str} (hu : Starts R L H u) :
    Ends sb devsw (sys_mkdir cwd path) (fun _ v => (afterOp R L).Inside H 0 v) u := by
  refine begin_op_seq hu fun v h => ?_
  cases path with
  | none => exact end_op_pure h fun _ h => h
  | some path => exact make_inside h

theorem sys_mknod_inside {path : Option Str} {major minor : Option ℤ} (hu : Starts R L H u) :
    Ends sb devsw (sys_mknod cwd path major minor) (fun _ v => (afterOp R L).Inside H 0 v) u := by
  refine begin_op_seq hu fun v h => ?_
  split
  · exact make_inside h
  · exact end_op_pure h fun _ h => h

/-- The old current directory is held until the new one is. -/
theorem sys_chdir_inside {path : Option Str} (hu : Starts R L (cwd ::ₘ H) u) :
    Ends sb devsw (sys_chdir cwd path) (fun r v => match r with
      | none => (afterOp R L).Inside (cwd ::ₘ H) 0 v
      | some ip => (afterOp R L).Inside (ip ::ₘ H) 0 v) u := by
  refine begin_op_seq hu fun v h => ?_
  cases path with
  | none => exact end_op_pure h fun _ h => h
  | some path =>
      refine wp_seq (namei_inside inOp_stable trivial h) fun r v h => ?_
      cases r with
      | none => exact end_op_pure h fun _ h => h
      | some ip =>
          refine wp_seq (ilock_inside inOp_stable h) fun _ v h => ?_
          refine wp_seq (attr_inside inOp_stable h) fun a v h => ?_
          split
          · exact iunlockput_end h.1 fun _ h => h
          · refine wp_seq (iunlock_inside inOp_stable h.1) fun _ v h => ?_
            exact wp_seq (iput_inside inOp_stable h.swap) fun _ v h => end_op_pure h fun _ h => h

/-- `fileclose` gives the reference of the file back. -/
theorem fileclose_inside {ip : Option Inum} (hu : Starts R L (Multiset.ofList ip.toList + H) u) :
    Ends sb devsw (fileclose ip) (fun _ v => (afterOp R L).Inside H 0 v) u := by
  cases ip with
  | none =>
      have hu : Starts R L H u := by simpa using hu
      exact hu.returns
  | some ip =>
      refine begin_op_seq hu fun v h => ?_
      exact wp_seq (iput_inside inOp_stable h) fun _ v h => end_op_inside h

/-- `loaduvm` only reads. -/
theorem loaduvm_inside {off sz : ℕ} (n i : ℕ) (h : (inOp R L).Inside H K u) :
    Ends sb devsw (loaduvm ip off sz n i) (fun _ v => (inOp R L).Inside H K v) u := by
  induction n generalizing u i with
  | zero => exact h
  | succ n ih =>
      refine wp_seq (readi_inside inOp_stable h) fun r v h => ?_
      cases r with
      | none => exact h.1
      | some b =>
          dsimp only
          split
          · exact ih _ h.1
          · exact h.1

/-- The loop over the segments only reads. -/
theorem loadProgram_inside {mem : Memory} (n i off : ℕ) (h : (inOp R L).Inside H K u) :
    Ends sb devsw (loadProgram ip mem n i off) (fun _ v => (inOp R L).Inside H K v) u := by
  induction n generalizing u i off with
  | zero => exact h
  | succ n ih =>
      refine wp_seq (readi_inside inOp_stable h) fun r v h => ?_
      cases r with
      | none => exact h.1
      | some ph =>
          dsimp only
          split
          · exact h.1
          · split
            · exact ih _ _ h.1
            · split_ifs
              all_goals try exact h.1
              refine wp_seq (loaduvm_inside _ _ h.1) fun ok v h => ?_
              split
              · exact ih _ _ h
              · exact h

/-- What `exec` reads of the file, it reads under the lock. -/
theorem readImage_inside {mem : Memory} (h : (inOp R L).Inside H K u) :
    Ends sb devsw (readImage ip mem) (fun _ v => (inOp R L).Inside H K v) u := by
  refine wp_seq (readi_inside inOp_stable h) fun r v h => ?_
  cases r with
  | none => exact h.1
  | some elf =>
      dsimp only
      split_ifs
      · exact h.1
      · exact h.1
      · exact h.1
      · exact loadProgram_inside _ _ _ h.1

/-- `exec` gives everything back, on every path. -/
theorem exec_inside {mem : Memory} (hu : Starts R L H u) :
    Ends sb devsw (exec cwd path mem) (fun _ v => (afterOp R L).Inside H 0 v) u := by
  refine begin_op_seq hu fun v h => ?_
  refine wp_seq (namei_inside inOp_stable trivial h) fun r v h => ?_
  cases r with
  | none => exact end_op_pure h fun _ h => h
  | some ip =>
      refine wp_seq (ilock_inside inOp_stable h) fun _ v h => ?_
      exact wp_seq (readImage_inside h) fun ok v h => iunlockput_end h fun _ h => h

end Frame

/-! ### Every call -/

/-- The references a call may move: a new open file has one, a new current directory has one for
that of the old, and the last close of a file gives one up. -/
def Syscall.Moves (cwd : Inum) : Syscall → Outcome → Prop
  | openFile .., o => (o.gained = none ↔ o.failed) ∧ o.dropped = none
  | chdir _, o => (o.gained = none ↔ o.failed) ∧ o.dropped = if o.failed then none else some cwd
  | fileclose ip, o => o.gained = none ∧ o.dropped = ip
  | _, o => o.gained = none ∧ o.dropped = none

/-- What a call that started in `s` leaves. -/
structure Syscall.Balanced (cwd : Inum) (c : Syscall) (s : State) (o : Outcome) (v : Traced) :
    Prop where
  moves : c.Moves cwd o
  transaction : OneTransaction (v.2.map Event.op)
  locks : v.1.locked = s.locked
  refs : ∀ i, v.1.ref i + o.dropped.toList.count i = s.ref i + o.gained.toList.count i

variable {c : Syscall} {s t : State} {o : Outcome}

/-- At the end of a call, whose references `H` are those gained, or kept after all. -/
theorem Syscall.Balanced.of_inside (hm : c.Moves cwd o) (h : (afterOp R s.locked).Inside H 0 v)
    (hR : ∀ i, R i + H.count i + o.dropped.toList.count i = s.ref i + o.gained.toList.count i) :
    c.Balanced cwd s o v := by
  refine ⟨hm, h.keep, ?_, fun i => ?_⟩
  · funext i
    simpa [afterOp, inOp, ← Bool.eq_iff_iff] using h.locked i
  · have := h.ref i
    have hR := hR i
    simp only [afterOp, inOp] at this
    omega

/-- A call that moves no reference. -/
theorem Syscall.Balanced.of_int {r : ℤ}
    (hm : ∀ o : Outcome, o.gained = none ∧ o.dropped = none → c.Moves cwd o)
    (h : (afterOp (fun i => s.ref i) s.locked).Inside 0 0 v) :
    c.Balanced cwd s (Outcome.ofInt r) v :=
  .of_inside (hm _ ⟨rfl, rfl⟩) h (by simp [Outcome.ofInt])

/-- Every system call is balanced: one case per call. -/
theorem Syscall.prog_balanced (c : Syscall) (s : State) :
    Frame.Ends sb devsw (c.prog cwd) (c.Balanced cwd s) (s, []) := by
  have hu : Frame.Starts (fun i => s.ref i) s.locked 0 (s, []) := ⟨by simp, rfl, rfl⟩
  have hone : ∀ ip i : Inum, (ip ::ₘ 0).count i = [ip].count i := fun _ _ => Multiset.coe_count ..
  -- a reference that the call may give up is its own from the start
  have hgive : ∀ ip, Frame.Starts (fun i => s.ref i - ([ip].count i : ℤ)) s.locked (ip ::ₘ 0)
      (s, []) := fun ip => ⟨fun i => by simp only [hone]; omega, rfl, rfl⟩
  cases c with
  | link old new =>
      match old, new with
      | some old, some new =>
          exact wp_map.mpr (wp_mono (Frame.sys_link_inside hu) fun _ _ h => .of_int (fun _ h => h) h)
      | none, _ | some _, none => exact .of_int (fun _ h => h) hu.returns
  | unlink path =>
      cases path with
      | some path =>
          exact wp_map.mpr (wp_mono (Frame.sys_unlink_inside hu) fun _ _ h => .of_int (fun _ h => h) h)
      | none => exact .of_int (fun _ h => h) hu.returns
  | openFile path omode full =>
      refine wp_map.mpr (wp_mono (Frame.sys_open_inside hu) fun r v h => ?_)
      cases r with
      | none => exact .of_inside (by simp [Moves, Outcome.ofRef]) h (by simp [Outcome.ofRef])
      | some ip =>
          refine .of_inside (by simp [Moves, Outcome.ofRef]) h fun i => ?_
          simp only [hone, Outcome.ofRef, Option.toList_some, Option.toList_none, List.count_nil]
          omega
  | mkdir path =>
      exact wp_map.mpr (wp_mono (Frame.sys_mkdir_inside hu) fun _ _ h => .of_int (fun _ h => h) h)
  | mknod path major minor =>
      exact wp_map.mpr (wp_mono (Frame.sys_mknod_inside hu) fun _ _ h => .of_int (fun _ h => h) h)
  | chdir path =>
      refine wp_map.mpr (wp_mono (Frame.sys_chdir_inside (hgive cwd)) fun r v h => ?_)
      cases r with
      | none =>
          refine .of_inside (by simp [Moves, Outcome.ofRef]) h fun i => ?_
          simp only [hone, Outcome.ofRef, Option.toList_none, List.count_nil]
          omega
      | some ip =>
          refine .of_inside (by simp [Moves, Outcome.ofRef]) h fun i => ?_
          simp only [hone, Outcome.ofRef, Option.toList_some]
          omega
  | fileclose ip =>
      cases ip with
      | none =>
          refine wp_map.mpr (wp_mono (Frame.fileclose_inside (by simpa using hu)) fun r v h => ?_)
          exact .of_inside ⟨rfl, rfl⟩ h (by simp)
      | some ip =>
          have hu := hgive ip
          rw [← add_zero (ip ::ₘ 0)] at hu
          refine wp_map.mpr (wp_mono (Frame.fileclose_inside hu) fun r v h => ?_)
          exact .of_inside ⟨rfl, rfl⟩ h fun i => by simp
  | exec path mem =>
      exact wp_map.mpr (wp_mono (Frame.exec_inside hu) fun _ _ h => .of_int (fun _ h => h) h)

/-- **Calls are balanced.**  Whatever its arguments and the state of the file system, a call that
returns has done everything inside one transaction, which it has ended; it has left no lock behind;
and the references are those there were, but for the one it has gained and the one it has given up,
as `Syscall.Moves` says for each call. -/
theorem calls_balanced (hrun : (c.prog cwd).run (diskOps sb devsw) s = .ok (o, t)) :
    c.Moves cwd o ∧ OneTransaction (((c.prog cwd).events (diskOps sb devsw) s).map Event.op) ∧
      t.locked = s.locked ∧
      ∀ i, t.ref i + o.dropped.toList.count i = s.ref i + o.gained.toList.count i := by
  have h := wp_traced (Syscall.prog_balanced c s) hrun
  exact ⟨h.moves, h.transaction, h.locks, h.refs⟩

/-- A disk of two data blocks, the first with the entries of an empty root directory. -/
def twoBlocks : Superblock := ⟨4, 3, 2, by decide, Nat.two_pos⟩

/-- A disk with the root, which holds `.` and `..`. -/
def rootOnly : Image where
  bit := (· < 3)
  dinode := fun i =>
    if i = ROOTINO then ⟨T_DIR, 0, 0, 1, 2 * DESIZE, fun k => if k = 0 then 2 else 0⟩ else .blank 0
  data := fun b =>
    if b = 2 then Lib.Bytes.putList (fun _ => 0) 0
      ((Dirent.make dot ROOTINO).encode ++ (Dirent.make dotdot ROOTINO).encode)
    else fun _ => 0

/-- A process whose current directory is the root. -/
def atRoot : State :=
  { State.boot rootOnly with ref := Function.update (fun _ => 0) ROOTINO 1 }

/-- `open("x", O_CREATE)` there. -/
def openX (full : Bool) : Syscall := .openFile (some [120]) O_CREATE full

/-- The new file has the inode 2, and its open file the one reference to it. -/
theorem calls_balanced_openX : ∃ t : State, (∀ i, t.ref i = atRoot.ref i + [2].count i) ∧
    t.locked = atRoot.locked ∧
    OneTransaction ((((openX false).prog ROOTINO).events (diskOps twoBlocks noDevices) atRoot).map
      Event.op) := by
  have hrun : (((openX false).prog ROOTINO).run (diskOps twoBlocks noDevices) atRoot).toOption.any
      (fun r => r.1.gained = some 2 ∧ r.1.dropped = none) = true := by decide +kernel
  obtain ⟨⟨o, t⟩, hr, ho⟩ := (Option.any_eq_true _ _).mp hrun
  have ⟨hgained, hdropped⟩ : o.gained = some 2 ∧ o.dropped = none := of_decide_eq_true ho
  obtain ⟨-, hone, hlock, href⟩ := calls_balanced (Lib.toOption_eq_some.mp hr)
  refine ⟨t, fun i => ?_, hlock, hone⟩
  simpa [hgained, hdropped] using href i

end Xv6.Fs

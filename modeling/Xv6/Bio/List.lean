import Mathlib.Data.List.FinRange
import Mathlib.Data.List.Perm.Basic
import Mathlib.Data.List.Perm.Subperm
import Xv6.Bio.Cache
import Xv6.Lib.Links
import Xv6.Lib.Runs

/-!
# The buffer cache — the list of buffers

`bcache`'s buffers with their pointers, and `binit`, `bget` and `brelse` as the assignments and
loops over them.  `Bcache` of `Bio.Cache` has the list instead of the pointers.

* `Mru` — the pointers make a ring of all the buffers, and the ring is in the order of the last
  releases (`released`, a ghost).
* `bget_eq`, `brelse_eq` — the two calls, over a ring.
* `Represents` — the two calls keep step with those of `Bio.Cache`.
* `buffer_list_permutation` — the main result, over all sequences of calls.
-/

namespace Xv6.BufList

open Lib (Links Run)

/-- A pointer to a `struct buf` of `bcache`. -/
inductive Ref where
  | head
  | buf (i : Fin NBUF)
  deriving DecidableEq

/-- `bcache`.  A reference count is an `uint`. -/
structure Bcache where
  link : Links Ref
  buf : Ref → Buf

/-- `n++` and `n--` of an `uint`. -/
def inc (n : ℕ) : ℕ := (n + 1) % 2 ^ 32

/-- `n - 1`, of an `uint`. -/
def dec (n : ℕ) : ℕ := (n + 2 ^ 32 - 1) % 2 ^ 32

namespace Bcache

/-- A buffer changes. -/
def set (c : Bcache) (b : Ref) (x : Buf) : Bcache := { c with buf := Function.update c.buf b x }

/-- A pass of the loop of `binit`. -/
def init (c : Bcache) (i : Fin NBUF) : Bcache :=
  let b := Ref.buf i
  let l := c.link
  let l := l.setNext b (l.next .head)
  let l := l.setPrev b .head
  let c := c.set b { c.buf b with lock := none }
  let l := l.setPrev (l.next .head) b
  { c with link := l.setNext .head b }

/-- `binit`: every buffer goes to the front of an empty ring. -/
def binit (c : Bcache) : Bcache :=
  let l := c.link.setPrev .head .head
  let l := l.setNext .head .head
  (List.finRange NBUF).foldl init { c with link := l }

/-- `b->dev == dev && b->blockno == blockno`. -/
def found (c : Bcache) (dev blockno : ℕ) (b : Ref) : Bool := (c.buf b).carries dev blockno

/-- `b->refcnt == 0 && (b->flags & B_DIRTY) == 0`. -/
def unused (c : Bcache) (b : Ref) : Bool := (c.buf b).refcnt = 0 ∧ ¬ (c.buf b).dirty

/-- The critical section of `bget`, with `n` passes of each loop at most: `none` if they are not
enough. -/
def bget (c : Bcache) (n dev blockno : ℕ) : Option (Except Panic (Ref × Bcache)) := do
  match ← Links.search c.link.next .head (c.found dev blockno) n (c.link.next .head) with
  | some b => some (.ok (b, c.set b { c.buf b with refcnt := inc (c.buf b).refcnt }))
  | none =>
      match ← Links.search c.link.prev .head c.unused n (c.link.prev .head) with
      | some b => some (.ok (b, c.set b { c.buf b with
          dev := dev, blockno := blockno, valid := false, dirty := false, refcnt := 1 }))
      | none => some (.error .bgetNoBuffers)

/-- The assignments of `brelse` to the pointers. -/
def splice (l : Links Ref) (b : Ref) : Links Ref :=
  let l := l.setPrev (l.next b) (l.prev b)
  let l := l.setNext (l.prev b) (l.next b)
  let l := l.setNext b (l.next .head)
  let l := l.setPrev b .head
  let l := l.setPrev (l.next .head) b
  l.setNext .head b

/-- The critical section of `brelse`. -/
def brelse (c : Bcache) (b : Ref) : Bcache :=
  let c := c.set b { c.buf b with refcnt := dec (c.buf b).refcnt }
  if (c.buf b).refcnt = 0 then { c with link := splice c.link b } else c

/-- `brelse` drops the last reference. -/
def Drops (c : Bcache) (b : Ref) : Prop := dec (c.buf b).refcnt = 0

instance (c : Bcache) (b : Ref) : Decidable (c.Drops b) := inferInstanceAs (Decidable (_ = _))

end Bcache

/-- The cache, and the buffers in the order of their releases, the last one first (a ghost). -/
structure State where
  cache : Bcache
  released : List Ref

/-- The calls, in the order of their critical sections.  Between them the flags, the data and the
sleep-lock of a buffer may become anything. -/
inductive Call where
  | bget (dev blockno : ℕ)
  | brelse (i : Fin NBUF)
  | other (i : Fin NBUF) (valid dirty : Bool) (lock : Option Pid) (data : Block)

/-- The effect of a call; a panic stops the machine. -/
def State.step (s : State) : Call → Option State
  | .bget dev blockno =>
      match s.cache.bget (NBUF + 1) dev blockno with
      | some (.ok (_, c)) => some { s with cache := c }
      | _ => none
  | .brelse i => some
      { cache := s.cache.brelse (.buf i)
        released := if s.cache.Drops (.buf i) then .buf i :: s.released else s.released }
  | .other i valid dirty lock data =>
      let b := { s.cache.buf (.buf i) with
        valid := valid, dirty := dirty, lock := lock, data := data }
      some { s with cache := s.cache.set (.buf i) b }

/-- A call that returns. -/
def Steps (s : State) (a : Call) (t : State) : Prop := s.step a = some t

/-- All the buffers, in the order of the array. -/
def all : List Ref := (List.finRange NBUF).map .buf

/-- The ring is `xs`: all the buffers, from the last released on. -/
structure Mru (s : State) (xs : List Ref) : Prop where
  ring : s.cache.link.Ring .head xs
  perm : xs.Perm all
  recent : xs.Pairwise fun a b => s.released.idxOf a ≤ s.released.idxOf b

variable {s t : State} {c c₀ : Bcache} {xs : List Ref} {i : Fin NBUF} {b : Ref}

theorem nodup_all : all.Nodup := (List.nodup_finRange NBUF).map fun _ _ h => Ref.buf.inj h

theorem length_all : all.length = NBUF := by rw [all, List.length_map, List.length_finRange]

theorem mem_all (i : Fin NBUF) : .buf i ∈ all := List.mem_map_of_mem (List.mem_finRange i)

/-! ### The operations -/

theorem init_link (c : Bcache) (i : Fin NBUF) : (c.init i).link = c.link.insert .head (.buf i) := rfl

theorem splice_eq (l : Links Ref) (b : Ref) :
    Bcache.splice l b = (l.unlink b).insert .head b := rfl

/-- `brelse` moves the buffer to the front. -/
theorem brelse_eq (c : Bcache) (b : Ref) : c.brelse b =
    { link := if c.Drops b then (c.link.unlink b).insert .head b else c.link
      buf := Function.update c.buf b { c.buf b with refcnt := dec (c.buf b).refcnt } } := by
  rw [Bcache.brelse]
  simp only [Bcache.set, Function.update_self]
  by_cases h : dec (c.buf b).refcnt = 0
  · rw [if_pos h, if_pos (show c.Drops b from h), splice_eq]
  · rw [if_neg h, if_neg (show ¬ c.Drops b from h)]

/-- `binit` puts each buffer before those that came earlier. -/
theorem binit_ring (c : Bcache) : c.binit.link.Ring .head all.reverse := by
  have hloop : ∀ (is : List (Fin NBUF)) (c : Bcache) (xs : List Ref), c.link.Ring .head xs →
      (is.map Ref.buf ++ xs).Nodup →
      (is.foldl Bcache.init c).link.Ring .head ((is.map Ref.buf).reverse ++ xs) := by
    intro is
    induction is with
    | nil => exact fun c xs hr _ => hr
    | cons i is ih =>
        intro c xs hr hn
        rw [List.map_cons, List.cons_append, List.nodup_cons, List.mem_append, not_or] at hn
        rw [List.foldl_cons, List.map_cons, List.reverse_cons, List.append_assoc]
        refine ih _ _ (init_link c i ▸ hr.insert ?_) ?_
        · exact List.not_mem_cons_of_ne_of_not_mem (by simp) hn.1.2
        · exact List.nodup_middle.mpr (List.nodup_cons.mpr ⟨List.not_mem_append hn.1.1 hn.1.2, hn.2⟩)
  have := hloop (List.finRange NBUF)
    { c with link := (c.link.setPrev .head .head).setNext .head .head } []
    (Links.Ring.nil c.link .head)
    (by rw [List.append_nil]; exact nodup_all)
  rwa [List.append_nil] at this

/-- On a ring `bget` is two searches of the list. -/
theorem bget_eq (hr : c.link.Ring .head xs) (hlen : xs.length ≤ NBUF) (dev blockno : ℕ) :
    c.bget (NBUF + 1) dev blockno =
      match xs.find? (c.found dev blockno), xs.reverse.find? c.unused with
      | some b, _ => some (.ok (b, c.set b { c.buf b with refcnt := inc (c.buf b).refcnt }))
      | none, some b => some (.ok (b, c.set b { c.buf b with
          dev := dev, blockno := blockno, valid := false, dirty := false, refcnt := 1 }))
      | none, none => some (.error .bgetNoBuffers) := by
  have hlt : xs.length < NBUF + 1 := Nat.lt_succ_of_le hlen
  rw [Bcache.bget, (hr.search (c.found dev blockno) hlt).1, (hr.search c.unused hlt).2]
  cases xs.find? (c.found dev blockno) with
  | some b => rfl
  | none =>
      cases xs.reverse.find? c.unused with
      | some b => rfl
      | none => rfl

/-! ### The list of `Bio.Cache` -/

/-- The pointers of `c` make the list of `d`, and the buffers are the same. -/
structure Represents (c : Bcache) (d : Xv6.Bcache) : Prop where
  ring : c.link.Ring .head (d.lru.map .buf)
  buf : ∀ i, c.buf (.buf i) = d.buf i

/-- A change of a buffer's contents leaves the list. -/
theorem Represents.set {d : Xv6.Bcache} (h : Represents c d) (i : Fin NBUF) (b : Xv6.Buf) :
    Represents (c.set (.buf i) b) (d.set i b) where
  ring := h.ring
  buf j := by
    rw [Bcache.set, Xv6.Bcache.set]
    dsimp only
    by_cases hj : j = i
    · rw [hj, Function.update_self, Function.update_self]
    · rw [Function.update_of_ne hj, Function.update_of_ne fun he => hj (Ref.buf.inj he), h.buf]

/-- The code's `bget` is that of the list, as long as the counts do not wrap. -/
theorem Represents.bget {d : Xv6.Bcache} (h : Represents c d)
    (hcnt : ∀ i, (d.buf i).refcnt + 1 < 2 ^ 32) (dev blockno : ℕ) :
    match d.bget dev blockno with
    | .ok (i, d') => ∃ c', c.bget (NBUF + 1) dev blockno = some (.ok (.buf i, c')) ∧ Represents c' d'
    | .error e => c.bget (NBUF + 1) dev blockno = some (.error e) := by
  have hnd : d.lru.Nodup := .of_map _ (List.nodup_cons.mp h.ring.nodup).2
  have hlen : (d.lru.map Ref.buf).length ≤ NBUF := by
    rw [List.length_map]
    exact (hnd.subperm fun i _ => List.mem_finRange i).length_le.trans_eq List.length_finRange
  have hfound : c.found dev blockno ∘ Ref.buf = fun i => decide ((d.buf i).carries dev blockno) :=
    funext fun i => by rw [Function.comp_apply, Bcache.found, h.buf]
  have hunused : c.unused ∘ Ref.buf = fun i => decide ((d.buf i).refcnt = 0 ∧ ¬ (d.buf i).dirty) :=
    funext fun i => by rw [Function.comp_apply, Bcache.unused, h.buf]
  rw [bget_eq h.ring hlen, Xv6.Bcache.bget, ← List.map_reverse, List.find?_map, List.find?_map,
    hfound, hunused]
  cases d.lru.find? fun i => decide ((d.buf i).carries dev blockno) with
  | some i =>
      refine ⟨_, rfl, ?_⟩
      rw [h.buf, inc, Nat.mod_eq_of_lt (hcnt i)]
      exact h.set i _
  | none =>
      cases d.lru.reverse.find? fun i => decide ((d.buf i).refcnt = 0 ∧ ¬ (d.buf i).dirty) with
      | some i => exact ⟨_, rfl, h.buf i ▸ h.set i _⟩
      | none => rfl

/-- So is `brelse`, of a buffer that has a reference. -/
theorem Represents.brelse {d : Xv6.Bcache} (h : Represents c d) (hi : i ∈ d.lru)
    (hpos : 0 < (d.buf i).refcnt) (hcnt : (d.buf i).refcnt < 2 ^ 32) :
    Represents (c.brelse (.buf i)) (d.brelse i) := by
  have hdec : dec (c.buf (.buf i)).refcnt = (d.buf i).refcnt - 1 := by
    rw [h.buf, dec, Nat.sub_add_comm hpos, Nat.add_mod_right]
    exact Nat.mod_eq_of_lt (by omega)
  have hset := h.set i { d.buf i with refcnt := (d.buf i).refcnt - 1 }
  have hdrops : c.Drops (.buf i) ↔ (d.buf i).refcnt - 1 = 0 := by rw [← hdec]; rfl
  rw [brelse_eq, Xv6.Bcache.brelse, hdec, h.buf]
  dsimp only
  by_cases hd : (d.buf i).refcnt - 1 = 0
  · rw [if_pos hd, if_pos (hdrops.mpr hd)]
    refine ⟨?_, hset.buf⟩
    have hnd := (List.nodup_cons.mp h.ring.nodup).2
    dsimp only [Xv6.Bcache.set]
    rw [List.map_cons, List.map_erase fun _ _ he => Ref.buf.inj he]
    exact (h.ring.unlink (List.mem_map_of_mem hi)).insert
      (List.not_mem_cons_of_ne_of_not_mem (by simp) hnd.not_mem_erase)
  · rw [if_neg hd, if_neg (mt hdrops.mp hd)]
    exact hset

/-! ### Runs -/

theorem Mru.length (h : Mru s xs) : xs.length = NBUF := h.perm.length_eq.trans length_all

theorem Mru.mem (h : Mru s xs) (i : Fin NBUF) : .buf i ∈ xs := h.perm.mem_iff.mpr (mem_all i)

theorem init_mru (c₀ : Bcache) : Mru ⟨c₀.binit, []⟩ all.reverse where
  ring := binit_ring c₀
  perm := all.reverse_perm
  recent := List.pairwise_of_forall fun _ _ => Nat.le_refl _

/-- What does not touch the pointers keeps the ring. -/
theorem Mru.of_link (h : Mru s xs) (hl : t.cache.link = s.cache.link)
    (hrel : t.released = s.released) : Mru t xs :=
  ⟨hl ▸ h.ring, h.perm, hrel ▸ h.recent⟩

/-- The buffer released comes to the front. -/
theorem Mru.to_front (h : Mru s xs) (i : Fin NBUF)
    (hl : t.cache.link = (s.cache.link.unlink (.buf i)).insert .head (.buf i))
    (hrel : t.released = .buf i :: s.released) : Mru t (.buf i :: xs.erase (.buf i)) := by
  have hnd : xs.Nodup := (List.nodup_cons.mp h.ring.nodup).2
  have hmem : ∀ b ∈ xs.erase (.buf i), b ≠ .buf i := fun b hb he =>
    hnd.not_mem_erase (he ▸ hb)
  refine ⟨?_, ((List.perm_cons_erase (h.mem i)).symm).trans h.perm, List.pairwise_cons.mpr ⟨?_, ?_⟩⟩
  · rw [hl]
    exact (h.ring.unlink (h.mem i)).insert (List.not_mem_cons_of_ne_of_not_mem (by simp)
      hnd.not_mem_erase)
  · intro b hb
    rw [hrel, List.idxOf_cons_self]
    exact Nat.zero_le _
  · refine (h.recent.sublist List.erase_sublist).imp_of_mem fun {a b} ha hb hab => ?_
    rw [hrel, List.idxOf_cons_ne _ (hmem a ha).symm, List.idxOf_cons_ne _ (hmem b hb).symm]
    exact Nat.succ_le_succ hab

/-- Every step keeps a list of the buffers, the latest first. -/
theorem step_mru {a : Call} (h : Steps s a t) (hm : Mru s xs) : ∃ ys, Mru t ys := by
  cases a with
  | bget dev blockno =>
      rw [Steps, State.step, bget_eq hm.ring hm.length.le] at h
      refine ⟨xs, ?_⟩
      split at h
      · rename_i hb
        cases h
        split at hb
        · cases hb
          exact hm.of_link rfl rfl
        · cases hb
          exact hm.of_link rfl rfl
        · cases hb
      · cases h
  | brelse i =>
      cases h
      by_cases hd : s.cache.Drops (.buf i)
      · refine ⟨_, hm.to_front i ?_ ?_⟩
        · rw [brelse_eq, if_pos hd]
        · dsimp only
          rw [if_pos hd]
      · refine ⟨xs, hm.of_link ?_ ?_⟩
        · rw [brelse_eq, if_neg hd]
        · dsimp only
          rw [if_neg hd]
  | other i valid dirty lock data =>
      cases h
      exact ⟨xs, hm.of_link rfl rfl⟩

theorem run_mru {calls : List Call} (h : Run Steps ⟨c₀.binit, []⟩ calls s) : ∃ xs, Mru s xs :=
  h.inv (I := fun s => ∃ xs, Mru s xs) (fun _ _ _ hs ⟨_, hm⟩ => step_mru hs hm) ⟨_, init_mru c₀⟩

/-- **The buffer list stays a permutation.**  From any contents of `bcache`, after `binit` and any
calls: the pointers lead through every buffer once, in the order of the last releases; the buffer
released next comes first; and `bget` finds its buffer along them, the one to recycle from the
buffer released longest ago on. -/
theorem buffer_list_permutation (c₀ : Bcache) (calls : List Call) (s : State)
    (h : Run Steps ⟨c₀.binit, []⟩ calls s) : ∃ xs : List Ref,
    xs.Perm all ∧
      (Links.visits s.cache.link.next .head NBUF = xs ∧
        s.cache.link.next^[NBUF + 1] .head = .head) ∧
      (Links.visits s.cache.link.prev .head NBUF = xs.reverse ∧
        s.cache.link.prev^[NBUF + 1] .head = .head) ∧
      xs.reverse.Pairwise (fun a b => s.released.idxOf b ≤ s.released.idxOf a) ∧
      (∀ i, s.cache.Drops (.buf i) →
        (s.cache.brelse (.buf i)).link.next .head = .buf i) ∧
      ∀ dev blockno, s.cache.bget (NBUF + 1) dev blockno =
        match xs.find? (s.cache.found dev blockno), xs.reverse.find? s.cache.unused with
        | some b, _ => some (.ok (b, s.cache.set b
            { s.cache.buf b with refcnt := inc (s.cache.buf b).refcnt }))
        | none, some b => some (.ok (b, s.cache.set b { s.cache.buf b with
            dev := dev, blockno := blockno, valid := false, dirty := false, refcnt := 1 }))
        | none, none => some (.error .bgetNoBuffers) := by
  obtain ⟨xs, hm⟩ := run_mru h
  have hv := hm.ring.visits
  rw [hm.length] at hv
  refine ⟨xs, hm.perm, hv.1, hv.2, List.pairwise_reverse.mpr hm.recent, fun i hd => ?_,
    bget_eq hm.ring hm.length.le⟩
  rw [brelse_eq, if_pos hd, Links.insert_next, Function.update_self]

/-- A cache before `binit`. -/
def blank : Bcache := ⟨⟨fun _ => .head, fun _ => .head⟩,
  fun _ => ⟨false, false, 0, 0, none, 0, fun _ => 0⟩⟩

theorem buffer_list_permutation_recycled : ∃ s : State, s.released = [.buf 0] ∧
    ∃ xs : List Ref, xs.Perm all ∧ Links.visits s.cache.link.next .head NBUF = xs := by
  have hrun : ((([Call.bget 1 5, .brelse 0] : List Call).foldlM State.step
      ⟨blank.binit, []⟩).map State.released) = some [.buf 0] := by decide +kernel
  obtain ⟨s, hs, hrel⟩ := Option.map_eq_some_iff.mp hrun
  obtain ⟨xs, hperm, hnext, -⟩ := buffer_list_permutation blank _ s (Run.of_foldlM hs)
  exact ⟨s, hrel, xs, hperm, hnext.1⟩

end Xv6.BufList

import Xv6.Malloc.Alloc

/-!
# Malloc — the heap of a program

`Heap.Valid P h live L`: the free list of `h` is `L`, the program holds the blocks `live`, and
together they are all the units that `morecore` got.

* `valid_malloc`, `valid_free`, `stored` — what each call of a program, and a store of it, does.
* `Returns.of_more` — a call that has a result with some fuel returns it.
* `heap_invariant` — in every run the heap is valid, and every call returns.
-/

namespace Xv6.Malloc

open Lib (Extent Run)

/-- The block that the pointer is in. -/
def Live.block (b : Live) : Block := ⟨b.ap - HEADER, nunits b.nbytes⟩

/-- The units that `sbrk` gave. -/
def obtained (calls : List Sbrk) : ℕ :=
  (calls.map fun c => if c.answer.isSome then c.units else 0).sum

/-- The free blocks are a sorted ring through `base` in which no block touches the next; the blocks
handed out share no place with them or with each other, and hold what was asked for; and no unit
is lost. -/
structure Heap.Valid (P : Process) (h : Heap) (live : List Live) (L : List Block) : Prop where
  list : FreeList P h L
  disjoint : (L ++ live.map Live.block).Pairwise Extent.Disjoint
  room : ∀ b ∈ live, HEADER ≤ b.ap ∧ b.ap + b.nbytes ≤ b.block.stop
  total : Extent.units L + Extent.units (live.map Live.block) = obtained h.calls
  headers : ∀ b ∈ live, size h.mem b.block.addr = b.block.size
  above : ∀ b ∈ live, P.base + HEADER ≤ b.block.addr
  bound : ∀ b ∈ L ++ live.map Live.block,
    ∃ c ∈ h.calls, ∃ q ∈ c.answer, b.stop ≤ q + HEADER * c.units ∧ q + HEADER * c.units < 2 ^ 32

variable {P : Process} {h h' : Heap} {live : List Live} {L L' : List Block} {b : Live} {x : Block}
  {n nbytes p : ℕ}

theorem nunits_pos (nbytes : ℕ) : 0 < nunits nbytes := Nat.succ_pos _

theorem le_nunits (hn : nbytes + HEADER - 1 < 2 ^ 32) : HEADER + nbytes ≤ HEADER * nunits nbytes := by
  unfold nunits HEADER at *
  omega

namespace Heap.Valid

theorem live_disjoint (hv : h.Valid P live L) (hb : b ∈ live) : ∀ c ∈ L, b.block.Disjoint c :=
  fun c hc => ((List.pairwise_append.mp hv.disjoint).2.2 c hc b.block (List.mem_map_of_mem hb)).symm

/-- What keeps the headers outside the free list keeps those of the blocks handed out. -/
theorem headers_of_frame (hv : h.Valid P live L) {m : Mem} (hframe : Frame P h.mem m L) :
    ∀ b ∈ live, size m b.block.addr = b.block.size := fun b hb =>
  (hframe b.block (nunits_pos _) (hv.above b hb) (hv.live_disjoint hb)).2.trans (hv.headers b hb)

/-! ### `malloc` -/

/-- A block is taken out of the list. -/
theorem carved (hv : h.Valid P live L) (hn : nbytes + HEADER - 1 < 2 ^ 32) {r : ℕ × Heap}
    (hc : Carved P h L (nunits nbytes) r x L') : r.2.Valid P (⟨r.1, nbytes⟩ :: live) L' := by
  have hblock : Live.block ⟨r.1, nbytes⟩ = x := by
    rw [Live.block, hc.ap, Nat.add_sub_cancel, ← hc.units_eq]
  obtain ⟨-, hlive, hcross⟩ := List.pairwise_append.mp hv.disjoint
  refine ⟨hc.list, ?_, ?_, ?_, ?_, ?_, ?_⟩
  · rw [List.map_cons, hblock]
    refine (List.perm_middle.pairwise_iff fun h => h.symm).mpr ?_
    rw [← List.cons_append]
    refine List.pairwise_append.mpr ⟨hc.disjoint, hlive, fun y hy z hz => ?_⟩
    obtain ⟨c, hcL, hlo, hhi⟩ := hc.within y hy
    exact (hcross c hcL z hz).mono hlo hhi
  · refine List.forall_mem_cons.mpr ⟨?_, hv.room⟩
    rw [hblock, hc.ap, Extent.stop, hc.units_eq]
    have := le_nunits hn
    exact ⟨Nat.le_add_left .., by dsimp only; omega⟩
  · have := hc.total
    have := hv.total
    rw [List.map_cons, hblock, Extent.units_cons, hc.calls]
    omega
  · refine List.forall_mem_cons.mpr ⟨?_, hv.headers_of_frame hc.frame⟩
    rw [hblock, hc.header, hc.units_eq]
  · refine List.forall_mem_cons.mpr ⟨?_, hv.above⟩
    rw [hblock]
    obtain ⟨c, hcL, hlo, -⟩ := hc.within x (List.mem_cons_self ..)
    exact (hv.list.above c hcL).trans hlo
  · intro y hy
    rw [hc.calls]
    have hcases : y ∈ x :: L' ∨ y ∈ live.map Live.block := by
      rw [List.map_cons, hblock] at hy
      simp only [List.mem_append, List.mem_cons] at hy ⊢
      tauto
    rcases hcases with hy | hy
    · obtain ⟨c, hcL, -, hhi⟩ := hc.within y hy
      obtain ⟨s, hs, q, hq, hle, hlt⟩ := hv.bound c (List.mem_append_left _ hcL)
      exact ⟨s, hs, q, hq, hhi.trans hle, hlt⟩
    · exact hv.bound y (List.mem_append_right _ hy)

/-- A call of `sbrk` fails. -/
theorem failed (hv : h.Valid P live L) (n : ℕ) :
    Heap.Valid P { h with calls := ⟨n, none⟩ :: h.calls } live L where
  list := ⟨hv.list.chain, hv.list.apart, hv.list.above, hv.list.sized, hv.list.fits, hv.list.freep⟩
  disjoint := hv.disjoint
  room := hv.room
  total := hv.total.trans (Nat.zero_add _).symm
  headers := hv.headers
  above := hv.above
  bound y hy :=
    have ⟨c, hc, hq⟩ := hv.bound y hy
    ⟨c, List.mem_cons_of_mem _ hc, hq⟩

/-- Fresh memory shares no place with the blocks there are. -/
theorem fresh_disjoint (hv : h.Valid P live L) (hp : P.sbrk h.calls n = some p) :
    ∀ y ∈ L ++ live.map Live.block, Extent.Disjoint ⟨p, n⟩ y := by
  intro y hy
  obtain ⟨c, hc, q, hq, hle, -⟩ := hv.bound y hy
  exact .inr (hle.trans ((P.fresh hp).2.2 c hc q hq))

/-- `morecore` gets memory. -/
theorem grown (hv : h.Valid P live L) (hp : P.sbrk h.calls (atLeast n) = some p) :
    ∃ h', Returns (morecore P · h n) (h'.freep, h') ∧
      h'.Valid P live (Extent.place ⟨p, atLeast n⟩ L) := by
  have hdisj := hv.fresh_disjoint hp
  obtain ⟨h', hret, hlist, hcalls, hframe⟩ :=
    morecore_spec hv.list hp fun b hb => hdisj b (List.mem_append_left _ hb)
  obtain ⟨-, hlive, hcross⟩ := List.pairwise_append.mp hv.disjoint
  have hnew : ∀ b ∈ live, b.block.Disjoint ⟨p, atLeast n⟩ := fun b hb =>
    (hdisj b.block (List.mem_append_right _ (List.mem_map_of_mem hb))).symm
  refine ⟨h', hret, hlist, ?_, hv.room, ?_, ?_, hv.above, ?_⟩
  · refine List.pairwise_append.mpr
      ⟨Extent.Apart.disjoint (List.pairwise_cons.mp hlist.apart).2, hlive, fun y hy z hz => ?_⟩
    obtain ⟨b, hb, rfl⟩ := List.mem_map.mp hz
    have hlt : b.block.addr < b.block.stop :=
      lt_of_lt_of_le (Nat.lt_add_of_pos_right (by decide)) (header_le (nunits_pos _))
    exact (Extent.forall_place (fun _ _ ha hb htouch => ha.join hb htouch hlt) (hnew b hb)
      (hv.live_disjoint hb) y hy).symm
  · rw [Extent.units_place, hcalls, Nat.add_assoc, hv.total]
    rfl
  · intro b hb
    refine (hframe b.block (nunits_pos _) (hv.above b hb) ?_).2.trans (hv.headers b hb)
    exact List.forall_mem_cons.mpr ⟨hnew b hb, hv.live_disjoint hb⟩
  · rw [hcalls]
    intro y hy
    have hold : ∀ z ∈ L ++ live.map Live.block, ∃ c ∈ (⟨atLeast n, some p⟩ : Sbrk) :: h.calls,
        ∃ q ∈ c.answer, z.stop ≤ q + HEADER * c.units ∧ q + HEADER * c.units < 2 ^ 32 := by
      intro z hz
      obtain ⟨c, hc, hq⟩ := hv.bound z hz
      exact ⟨c, List.mem_cons_of_mem _ hc, hq⟩
    rcases List.mem_append.mp hy with hy | hy
    · refine Extent.forall_place (fun _ _ _ hb htouch => ?_) ?_
        (fun z hz => hold z (List.mem_append_left _ hz)) y hy
      · rwa [Extent.stop_join htouch]
      · exact ⟨_, List.mem_cons_self .., p, rfl, le_rfl, (P.fresh hp).2.1⟩
    · exact hold y (List.mem_append_right _ hy)

theorem freep_ne (hv : h.Valid P live L) : h.freep ≠ 0 := by
  obtain ⟨b, hb, hfree⟩ := hv.list.freep
  rw [← hfree]
  rcases List.mem_cons.mp hb with rfl | hb
  · exact P.base_pos.ne'
  · exact (P.base_pos.trans (base_lt_of_le (hv.list.above b hb))).ne'

theorem firstFit_fits (hv : h.Valid P live L) (hn : nbytes + HEADER - 1 < 2 ^ 32)
    (hfit : ∃ c ∈ L, nunits nbytes ≤ c.size) :
    ∃ r L', Returns (fun fuel => firstFit P (nunits nbytes) fuel h h.freep (ptr h.mem h.freep)) r ∧
      r.1 ≠ 0 ∧ r.2.Valid P (⟨r.1, nbytes⟩ :: live) L' := by
  obtain ⟨r, x, L', hret, hc⟩ := firstFit_returns hv.list hfit (nunits_pos nbytes)
  exact ⟨r, L', hret, hc.ap ▸ Nat.succ_ne_zero _, hv.carved hn hc⟩

/-- The loop of `malloc` asks for memory once at most. -/
theorem firstFit_valid (hv : h.Valid P live L) (hn : nbytes + HEADER - 1 < 2 ^ 32) :
    ∃ r L', Returns (fun fuel => firstFit P (nunits nbytes) fuel h h.freep (ptr h.mem h.freep)) r ∧
      r.2.Valid P (if r.1 = 0 then live else ⟨r.1, nbytes⟩ :: live) L' := by
  by_cases hfit : ∃ c ∈ L, nunits nbytes ≤ c.size
  · obtain ⟨r, L', hret, hr, hv'⟩ := hv.firstFit_fits hn hfit
    exact ⟨r, L', hret, by rwa [if_neg hr]⟩
  have hfull : ∀ c ∈ L, c.size < nunits nbytes := fun c hc =>
    not_le.mp fun hle => hfit ⟨c, hc, hle⟩
  have hround (fuel : ℕ) := firstFit_full hv.list hfull (nunits_pos nbytes) fuel
  cases hsbrk : P.sbrk h.calls (atLeast (nunits nbytes)) with
  | none =>
      refine ⟨(0, _), L, ⟨1 + L.length, fun fuel hfuel => ?_⟩, hv.failed (atLeast (nunits nbytes))⟩
      obtain ⟨m, rfl⟩ := Nat.exists_eq_add_of_le' hfuel
      have hmore : morecore P m h (nunits nbytes) =
          some (0, { h with calls := ⟨atLeast (nunits nbytes), none⟩ :: h.calls }) := by
        unfold morecore
        dsimp only
        rw [show P.sbrk h.calls (if nunits nbytes < 4096 then 4096 else nunits nbytes) = none from
          hsbrk]
        rfl
      dsimp only
      rw [← Nat.add_assoc, hround, hmore]
      rfl
  | some p =>
      obtain ⟨h', ⟨N, hmore⟩, hv'⟩ := hv.grown hsbrk
      obtain ⟨c, hc, hle⟩ := Extent.exists_size_le_place ⟨p, atLeast (nunits nbytes)⟩ L
      obtain ⟨r, L', ⟨M, hret⟩, hr, hv''⟩ :=
        hv'.firstFit_fits hn ⟨c, hc, (le_atLeast _).trans hle⟩
      refine ⟨r, L', ⟨max N M + (1 + L.length), fun fuel hfuel => ?_⟩, by rwa [if_neg hr]⟩
      obtain ⟨m, rfl⟩ := Nat.exists_eq_add_of_le' ((Nat.le_add_left ..).trans hfuel)
      have hm : max N M ≤ m := Nat.le_of_add_le_add_right hfuel
      have hmore' := hmore m ((Nat.le_max_left N M).trans hm)
      have hret' := hret m ((Nat.le_max_right N M).trans hm)
      dsimp only at hmore' hret' ⊢
      rw [← Nat.add_assoc, hround, hmore', Option.bind_some, if_neg hv'.freep_ne, hret']

/-! ### `free` -/

/-- `free` of a block that the program has. -/
theorem freed (hv : h.Valid P live L) (hb : b ∈ live) :
    ∃ h' L', Returns (free · h b.ap) h' ∧ h'.Valid P (live.erase b) L' := by
  have hperm := List.perm_cons_erase hb
  have hblocks : (live.map Live.block).Perm (b.block :: (live.erase b).map Live.block) :=
    hperm.map _
  obtain ⟨hL, hlive, hcross⟩ := List.pairwise_append.mp hv.disjoint
  have hlive' := (hblocks.pairwise_iff fun h => h.symm).mp hlive
  have hmem : b.block ∈ live.map Live.block := List.mem_map_of_mem hb
  obtain ⟨c, hc, q, hq, hle, hlt⟩ := hv.bound b.block (List.mem_append_right _ hmem)
  -- The block is clear of the free list, so it can be put into it.
  have hspare : Spare P h.mem L b.block :=
    ⟨hv.above b hb, nunits_pos _, hle.trans_lt hlt, hv.headers b hb, hv.live_disjoint hb⟩
  obtain ⟨h', hret, hlist, hcalls, hsame⟩ := hv.list.free_spec hspare
  have herase : ∀ d ∈ live.erase b, d ∈ live := fun d hd => List.mem_of_mem_erase hd
  have hdisj : ∀ d ∈ live.erase b, d.block.Disjoint b.block := fun d hd =>
    ((List.pairwise_cons.mp hlive').1 d.block (List.mem_map_of_mem hd)).symm
  refine ⟨h', b.block.place L, ?_, hlist, ?_, fun d hd => hv.room d (herase d hd), ?_, ?_,
    fun d hd => hv.above d (herase d hd), ?_⟩
  · have : b.block.addr + HEADER = b.ap := Nat.sub_add_cancel (hv.room b hb).1
    rwa [this] at hret
  · refine List.pairwise_append.mpr ⟨Extent.Apart.disjoint (List.pairwise_cons.mp hlist.apart).2,
      (List.pairwise_cons.mp hlive').2, fun y hy z hz => ?_⟩
    obtain ⟨d, hd, rfl⟩ := List.mem_map.mp hz
    have hpos : d.block.addr < d.block.stop :=
      lt_of_lt_of_le (Nat.lt_add_of_pos_right (by decide)) (header_le (nunits_pos _))
    exact (Extent.forall_place (fun _ _ ha hb htouch => ha.join hb htouch hpos) (hdisj d hd)
      (hv.live_disjoint (herase d hd)) y hy).symm
  · have hsum : Extent.units (live.map Live.block) =
        b.block.size + Extent.units ((live.erase b).map Live.block) := by
      rw [← Extent.units_cons]
      exact (hblocks.map _).sum_eq
    rw [Extent.units_place, hcalls, ← hv.total, hsum]
    omega
  · intro d hd
    refine (hsame d.block.addr fun c hc => ?_).2.trans (hv.headers d (herase d hd))
    rcases List.mem_cons.mp hc with rfl | hc
    · exact .inl (hv.above d (herase d hd))
    rcases List.mem_cons.mp hc with rfl | hc
    · exact (hdisj d hd).symm.imp (header_le (nunits_pos _)).trans (header_le (nunits_pos _)).trans
    · exact hv.list.clear_of_disjoint (nunits_pos _) (hv.above d (herase d hd))
        (hv.live_disjoint (herase d hd)) (List.mem_cons_of_mem _ hc)
  · rw [hcalls]
    intro y hy
    rcases List.mem_append.mp hy with hy | hy
    · refine Extent.forall_place (fun _ _ _ hb htouch => ?_) ⟨c, hc, q, hq, hle, hlt⟩
        (fun z hz => hv.bound z (List.mem_append_left _ hz)) y hy
      rwa [Extent.stop_join htouch]
    · refine hv.bound y (List.mem_append_right _ ?_)
      obtain ⟨d, hd, rfl⟩ := List.mem_map.mp hy
      exact List.mem_map_of_mem (herase d hd)

/-! ### The program's bytes -/

/-- A byte elsewhere leaves the header. -/
theorem same_put8 {m : Mem} {o p : ℕ} (v : UInt8) (h : o < p ∨ p + HEADER ≤ o) :
    Same m (m.put8 o v) p := by
  have hbyte : ∀ k < 8, (m.put8 o v).get8 (p + k) = m.get8 (p + k) := fun k hk =>
    Lib.Bytes.get8_put8_of_ne _ _ (by unfold HEADER at h; omega)
  have hword : ∀ k, k + 3 < 8 → (m.put8 o v).get32 (p + k) = m.get32 (p + k) := by
    intro k hk
    simp only [Lib.Bytes.get32, Nat.add_assoc p k]
    rw [hbyte k (by omega), hbyte (k + 1) (by omega), hbyte (k + 2) (by omega),
      hbyte (k + 3) (by omega)]
  exact ⟨hword 0 (by omega), hword 4 (by omega)⟩

/-- A store into a block that the program has. -/
theorem stored (hv : h.Valid P live L) (hb : b ∈ live) {k : ℕ} (hk : k < b.nbytes) (v : UInt8) :
    Heap.Valid P { h with mem := h.mem.put8 (b.ap + k) v } live L := by
  obtain ⟨hap, hroom⟩ := hv.room b hb
  have haddr : b.block.addr + HEADER = b.ap := Nat.sub_add_cancel hap
  have hout : ∀ c : Block, 0 < c.size → b.block.Disjoint c →
      Same h.mem (h.mem.put8 (b.ap + k) v) c.addr := by
    intro c hc hdisj
    have := header_le hc
    refine same_put8 v (hdisj.imp ?_ ?_)
    · intro hle
      omega
    · intro hle
      omega
  have hfirst : Same h.mem (h.mem.put8 (b.ap + k) v) P.base := by
    have := hv.above b hb
    exact same_put8 v (.inr (by omega))
  refine ⟨⟨hv.list.chain.congr ?_, hv.list.apart, hv.list.above, hv.list.sized, hv.list.fits,
    hv.list.freep⟩, hv.disjoint, hv.room, hv.total, fun d hd => ?_, hv.above, hv.bound⟩
  · exact List.forall_mem_cons.mpr
      ⟨hfirst, fun c hc => hout c (hv.list.sized c hc) (hv.live_disjoint hb c hc)⟩
  · refine Eq.trans ?_ (hv.headers d hd)
    by_cases heq : b.block = d.block
    · rw [← heq]
      exact (same_put8 v (.inr (by omega))).2
    · have hlive := (List.pairwise_append.mp hv.disjoint).2.1
      exact (hout d.block (nunits_pos _) (hlive.forall (List.mem_map_of_mem hb)
        (List.mem_map_of_mem hd) heq)).2

end Heap.Valid

/-! ### More fuel -/

section

variable {α : Type} {m : Mem} {bp ap nu prevp : ℕ}

/-- More fuel changes no result of the search of `free`. -/
theorem search_more {r : ℕ} (hr : search m bp n p = some r) : search m bp (n + 1) p = some r := by
  induction n generalizing p with
  | zero => cases hr
  | succ n ih =>
      rw [search] at hr ⊢
      split_ifs at hr ⊢
      · exact hr
      · exact hr
      · exact ih hr

theorem free_more (hr : free n h ap = some h') : free (n + 1) h ap = some h' := by
  obtain ⟨p, hp, hr⟩ := Option.bind_eq_some_iff.mp hr
  exact Option.bind_eq_some_iff.mpr ⟨p, search_more hp, hr⟩

/-- More fuel changes no result of `morecore`. -/
theorem morecore_more {r : ℕ × Heap} (hr : morecore P n h nu = some r) :
    morecore P (n + 1) h nu = some r := by
  unfold morecore at hr ⊢
  dsimp only at hr ⊢
  cases hs : P.sbrk h.calls (if nu < 4096 then 4096 else nu) with
  | none =>
      rw [hs] at hr
      exact hr
  | some p =>
      rw [hs] at hr
      obtain ⟨h', hf, hr⟩ := Option.bind_eq_some_iff.mp hr
      exact Option.bind_eq_some_iff.mpr ⟨h', free_more hf, hr⟩

/-- More fuel changes no result of the search. -/
theorem firstFit_more {r : ℕ × Heap} (hr : firstFit P nu n h prevp p = some r) :
    firstFit P nu (n + 1) h prevp p = some r := by
  induction n generalizing h prevp p with
  | zero => cases hr
  | succ n ih =>
      rw [firstFit] at hr ⊢
      split_ifs at hr ⊢
      · exact hr
      · obtain ⟨⟨q, h'⟩, hm, hr⟩ := Option.bind_eq_some_iff.mp hr
        refine Option.bind_eq_some_iff.mpr ⟨(q, h'), morecore_more hm, ?_⟩
        dsimp only at hr ⊢
        split_ifs at hr ⊢
        · exact hr
        · exact ih hr
      · exact ih hr

theorem malloc_more {r : ℕ × Heap} (hr : malloc P n h nbytes = some r) :
    malloc P (n + 1) h nbytes = some r := by
  rw [malloc] at hr ⊢
  exact firstFit_more hr

/-- What more fuel does not change is returned, once there is enough. -/
theorem Returns.of_more {f : ℕ → Option α} {a : α} (hmore : ∀ n, f n = some a → f (n + 1) = some a)
    (hn : f n = some a) : Returns f a :=
  ⟨n, fun _ hle => Nat.le_induction hn (fun m _ hm => hmore m hm) _ hle⟩

end

/-! ### Runs -/

/-- Before the first `malloc` there is no list. -/
def State.Valid (P : Process) (s : State) (L : List Block) : Prop :=
  s.heap.Valid P s.live L ∨ (s.heap.freep = 0 ∧ s.live = [] ∧ s.heap.calls = [] ∧ L = [])

/-- The list that `malloc` starts with. -/
theorem valid_init (P : Process) (m : Mem) :
    Heap.Valid P ⟨setSize (setPtr m P.base P.base) P.base 0, P.base, []⟩ [] [] := by
  have hle := P.base_lt
  have hlt : P.base < 2 ^ 32 := lt_of_le_of_lt (Nat.le_add_right ..) hle
  refine ⟨⟨⟨rfl, size_setSize hle.le (by decide), ?_⟩, List.pairwise_singleton .., ?_, ?_, ?_,
    P.first, List.mem_singleton_self _, rfl⟩, .nil, ?_, rfl, ?_, ?_, ?_⟩
  · rw [ptr_setSize, ptr_setPtr hle.le hlt]
    rfl
  all_goals exact fun b hb => absurd hb List.not_mem_nil

theorem malloc_eq (hf : h.freep ≠ 0) (fuel nbytes : ℕ) :
    malloc P fuel h nbytes = firstFit P (nunits nbytes) fuel h h.freep (ptr h.mem h.freep) := by
  rw [malloc, if_neg hf]

/-- **`malloc`** returns, and the heap stays valid. -/
theorem valid_malloc {s : State} (hs : s.Valid P L) (hn : nbytes + HEADER - 1 < 2 ^ 32) :
    ∃ r L', Returns (malloc P · s.heap nbytes) r ∧
      State.Valid P ⟨r.2, if r.1 = 0 then s.live else ⟨r.1, nbytes⟩ :: s.live⟩ L' := by
  rcases hs with hv | ⟨hfree, hlive, hcalls, -⟩
  · obtain ⟨r, L', hret, hv'⟩ := hv.firstFit_valid hn
    refine ⟨r, L', ?_, .inl hv'⟩
    simpa only [malloc_eq hv.freep_ne] using hret
  · obtain ⟨r, L', hret, hv'⟩ := (valid_init P s.heap.mem).firstFit_valid hn
    refine ⟨r, L', ?_, .inl (hlive ▸ hv')⟩
    have hstart (fuel : ℕ) : malloc P fuel s.heap nbytes =
        firstFit P (nunits nbytes) fuel ⟨setSize (setPtr s.heap.mem P.base P.base) P.base 0, P.base, []⟩
          P.base (ptr (setSize (setPtr s.heap.mem P.base P.base) P.base 0) P.base) := by
      rw [malloc, if_pos hfree, hcalls]
    simpa only [hstart] using hret

theorem valid_free {s : State} (hs : s.Valid P L) (hb : b ∈ s.live) :
    ∃ h' L', Returns (free · s.heap b.ap) h' ∧ State.Valid P ⟨h', s.live.erase b⟩ L' := by
  rcases hs with hv | ⟨-, hlive, -⟩
  · obtain ⟨h', L', hret, hv'⟩ := hv.freed hb
    exact ⟨h', L', hret, .inl hv'⟩
  · rw [hlive] at hb
    cases hb

/-- A step of the program keeps the heap valid. -/
theorem valid_step {s t : State} {a : Action} (h : Step P s a t) (hs : ∃ L, s.Valid P L) :
    ∃ L, t.Valid P L := by
  obtain ⟨L, hs⟩ := hs
  cases h with
  | malloc hn hr =>
      obtain ⟨r, L', hret, hv⟩ := valid_malloc hs hn
      cases hr.unique hret
      exact ⟨L', hv⟩
  | free hb hr =>
      obtain ⟨h', L', hret, hv⟩ := valid_free hs hb
      cases hr.unique hret
      exact ⟨L', hv⟩
  | store v hb hk =>
      rcases hs with hv | ⟨-, hlive, -⟩
      · exact ⟨L, .inl (hv.stored hb hk v)⟩
      · cases hlive
        cases hb

/-- **The user heap**: in every run the heap is valid, and every `malloc` and every `free` that the
program may call returns. -/
theorem heap_invariant {m : Mem} {s : State} {as : List Action} (h : Run (Step P) (start m) as s) :
    (∃ L, s.Valid P L) ∧
      (∀ nbytes, nbytes + HEADER - 1 < 2 ^ 32 → ∃ r, Returns (malloc P · s.heap nbytes) r) ∧
      ∀ b ∈ s.live, ∃ h', Returns (free · s.heap b.ap) h' := by
  have hstart : ∃ L, (start m).Valid P L := ⟨[], .inr ⟨rfl, rfl, rfl, rfl⟩⟩
  have hv : ∃ L, s.Valid P L := h.inv (I := fun s => ∃ L, s.Valid P L) (fun _ _ _ => valid_step) hstart
  obtain ⟨L, hs⟩ := hv
  refine ⟨⟨L, hs⟩, fun nbytes hn => ?_, fun b hb => ?_⟩
  · obtain ⟨r, -, hret, -⟩ := valid_malloc hs hn
    exact ⟨r, hret⟩
  · obtain ⟨h', -, hret, -⟩ := valid_free hs hb
    exact ⟨h', hret⟩

/-- A process that gets memory once. -/
def once : Process where
  base := 0x1000
  sbrk calls units := if calls = [] ∧ 0x4000 + HEADER * units < 2 ^ 32 then some 0x4000 else none
  base_pos := by decide
  base_lt := by decide
  fresh h := by
    obtain ⟨⟨rfl, hlt⟩, hp⟩ := Option.ite_none_right_eq_some.mp h
    obtain rfl := Option.some.inj hp
    exact ⟨by decide, hlt, fun c hc => absurd hc List.not_mem_nil⟩

/-- A step, of eight passes of each loop at most. -/
def bounded (s : State) : Action → Option State
  | .malloc nbytes =>
      if nbytes + HEADER - 1 < 2 ^ 32 then
        (malloc once 8 s.heap nbytes).map fun r =>
          ⟨r.2, if r.1 = 0 then s.live else ⟨r.1, nbytes⟩ :: s.live⟩
      else none
  | .free ap => do
      let b ← s.live.find? fun b => b.ap = ap
      let h ← free 8 s.heap b.ap
      pure ⟨h, s.live.erase b⟩
  | .store p v => do
      let _ ← s.live.find? fun b => b.ap ≤ p ∧ p < b.ap + b.nbytes
      pure ⟨{ s.heap with mem := s.heap.mem.put8 p v }, s.live⟩

/-- A step that needs little fuel is a step. -/
theorem step_of_bounded {s t : State} {a : Action} (hr : bounded s a = some t) : Step once s a t := by
  cases a with
  | malloc nbytes =>
      rw [bounded] at hr
      split at hr
      · rename_i hn
        cases hm : malloc once 8 s.heap nbytes with
        | none =>
            rw [hm] at hr
            cases hr
        | some r =>
            rw [hm] at hr
            obtain rfl := Option.some.inj hr
            have hret : Returns (malloc once · s.heap nbytes) r := .of_more (fun _ => malloc_more) hm
            exact .malloc hn hret
      · cases hr
  | free ap =>
      rw [bounded] at hr
      obtain ⟨b, hb, hr⟩ := Option.bind_eq_some_iff.mp hr
      obtain ⟨h, hf, hr⟩ := Option.bind_eq_some_iff.mp hr
      obtain rfl := Option.some.inj hr
      obtain rfl : b.ap = ap := by simpa using List.find?_some hb
      have hret : Returns (free · s.heap b.ap) h := .of_more (fun _ => free_more) hf
      exact .free (List.mem_of_find?_eq_some hb) hret
  | store p v =>
      rw [bounded] at hr
      obtain ⟨b, hb, hr⟩ := Option.bind_eq_some_iff.mp hr
      obtain rfl := Option.some.inj hr
      obtain ⟨hle, hlt⟩ : b.ap ≤ p ∧ p < b.ap + b.nbytes := by simpa using List.find?_some hb
      obtain ⟨k, rfl⟩ := Nat.exists_eq_add_of_le hle
      exact .store v (List.mem_of_find?_eq_some hb) (by omega)

/-- Blocks are split, reused and refused, and joined on both sides when they are freed. -/
def onceActions : List Action :=
  [.malloc 10, .malloc 20, .store 0xBFD5 7, .free 0xBFF0, .malloc 5, .malloc 40000, .free 0xBFD0,
    .free 0xBFF8]


/-- Blocks are cut, filled and freed in another order, and all become one again. -/
theorem heap_invariant_once : ∃ s, Run (Step once) (start fun _ => 0) onceActions s ∧
    s.live = [] ∧ s.heap.freep = 0x4000 ∧ size s.heap.mem 0x4000 = 4096 ∧ (∃ L, s.Valid once L) ∧
      (∀ nbytes, nbytes + HEADER - 1 < 2 ^ 32 → ∃ r, Returns (malloc once · s.heap nbytes) r) ∧
      ∀ b ∈ s.live, ∃ h', Returns (free · s.heap b.ap) h' := by
  have hends : (onceActions.foldlM bounded (start fun _ => 0)).map
      (fun s => (s.live, s.heap.freep, size s.heap.mem 0x4000)) = some ([], 0x4000, 4096) := by
    decide +kernel
  obtain ⟨s, hs, hend⟩ := Option.map_eq_some_iff.mp hends
  obtain ⟨hlive, hfreep, hsize⟩ : s.live = [] ∧ s.heap.freep = 0x4000 ∧
      size s.heap.mem 0x4000 = 4096 := by simpa only [Prod.mk.injEq] using hend
  have hrun : Run (Step once) (start fun _ => 0) onceActions s :=
    (Run.of_foldlM hs).mono fun a _ s t h => step_of_bounded h
  exact ⟨s, hrun, hlive, hfreep, hsize, heap_invariant hrun⟩

end Xv6.Malloc

import Xv6.Fs.Balance
import Xv6.Fs.Bytes
import Xv6.Fs.Full

/-!
# File system — `filewrite`

`filewrite` on an inode cuts the bytes into chunks, and writes each in a transaction of its own.
`writei` refuses a chunk that ends above the greatest size of a file; the chunks before it have been
written by then.

* `filewriteFrom_returns` — the loop: all is written, or a chunk is refused.
* `filewrite_all_or_nothing_iff` — when a call that fails has written nothing.
-/

namespace Xv6.Fs

open Lib

/-- The fields of a `struct file` of type `FD_INODE` that `filewrite` reads; `off` is a `uint`. -/
structure File where
  writable : Bool
  ip : Inum
  off : ℕ

/-- `max` in `filewrite`. -/
def MAXCHUNK : ℕ := ((MAXOPBLOCKS - 1 - 1 - 2) / 2) * 512

/-- The `n` bytes from `addr + i` on. -/
def chunk (addr : ℕ → UInt8) (i n : ℕ) : List UInt8 := (List.range n).map fun k => addr (i + k)

/-- `if (r > 0) f->off += r;` -/
def File.advance (f : File) (r : Option ℕ) : File :=
  { f with off := match r with
      | some m => if 0 < m then (f.off + m) % 2 ^ 32 else f.off
      | none => f.off }

/-- The loop of `filewrite`; every pass writes a byte at least. -/
def filewriteFrom (addr : ℕ → UInt8) (n : ℤ) : ℕ → File → ℕ → Call (ℤ × File)
  | 0, f, i => pure (if i = n then n else -1, f)
  | fuel + 1, f, i =>
      if i < n then do
        let n₁ := min (n - i).toNat MAXCHUNK
        begin_op
        ilock f.ip
        let r ← writei f.ip f.off (chunk addr i n₁)
        let f := f.advance r
        iunlock f.ip
        end_op
        match r with
        | none => pure (-1, f)
        | some m => if m ≠ n₁ then panic .shortFilewrite else filewriteFrom addr n fuel f (i + m)
      else pure (if i = n then n else -1, f)

/-- `filewrite` of `n` bytes at `addr`, with the file it leaves. -/
def filewrite (f : File) (addr : ℕ → UInt8) (n : ℤ) : Call (ℤ × File) :=
  if f.writable = false then pure (-1, f) else filewriteFrom addr n n.toNat f 0

variable {sb : Superblock} {devsw : Devsw} {s t u : State} {f g : File} {addr : ℕ → UInt8} {n r : ℤ}
  {i : ℕ} {ip : Inum}

@[simp]
theorem length_chunk (addr : ℕ → UInt8) (i n : ℕ) : (chunk addr i n).length = n := by simp [chunk]

/-! ### A chunk -/

/-- The file is a regular one, open and not locked. -/
structure Idle (sb : Superblock) (ip : Inum) (s : State) : Prop where
  inv : s.Inv sb
  regular : (s.img.dinode ip).type = T_FILE
  unlocked : s.locked ip = false

/-- Partial correctness on the disk. -/
abbrev Returns {α : Type} (sb : Superblock) (devsw : Devsw) (p : Call α) (Q : α → State → Prop)
    (s : State) : Prop := p.wp (diskOps sb devsw) (fun _ => True) Q s

/-- `ilock` of an idle file. -/
theorem ilock_idle (h : Idle sb ip s) : Returns sb devsw (ilock ip) (fun _ t => t.Inv sb ∧
    t.img = s.img ∧ t.locked ip = true) s := by
  refine Prog.wp_perform.mpr ⟨fun r t hr => ?_, fun _ _ => trivial⟩
  obtain ⟨-, -, hl⟩ := State.ilock_cache hr
  refine ⟨State.ilock_inv h.inv hr, ?_, (hl ip).mpr (.inl rfl)⟩
  obtain ⟨c, -, hr⟩ := Lib.bind_eq_ok.mp hr
  obtain ⟨-, rfl⟩ := Prod.mk.inj (Except.ok.inj hr)
  dsimp only
  split <;> rfl

/-- `iunlock` and `end_op` change no inode. -/
theorem iunlock_end (h : t.Inv sb) : Returns sb devsw (do iunlock ip; end_op)
    (fun _ u => u.Inv sb ∧ u.img = t.img ∧ u.locked ip = false) t := by
  have hunlock : Returns sb devsw (iunlock ip) (fun _ u => u.Inv sb ∧ u.img = t.img ∧
      u.locked ip = false) t := by
    refine Prog.wp_perform.mpr ⟨fun r u hr => ?_, fun _ _ => trivial⟩
    obtain ⟨c, hc, -, rfl⟩ := State.cached_eq_ok.mp hr
    refine ⟨State.iunlock_inv h hc, rfl, ?_⟩
    obtain ⟨-, -, rfl⟩ := Icache.iunlock_spec hc
    exact Function.update_self ..
  exact Prog.wp_seq hunlock fun _ u hu => Prog.wp_perform.mpr
    ⟨fun r v hv => by cases hv; exact ⟨⟨hu.1.1, hu.1.2, hu.1.3, hu.1.4⟩, hu.2⟩, fun _ _ => trivial⟩

/-- What the transaction of one chunk does: nothing where it is refused, and the write otherwise. -/
theorem pass_returns {α : Type} {off : ℕ} {src : List UInt8} {k : Option ℕ → Call α}
    {Q : α → State → Prop} (h : Idle sb ip s)
    (hbad : ∀ t : State, Refused (s.img.dinode ip).size off src.length → t.img = s.img →
      Returns sb devsw (k none) Q t)
    (hgood : ∀ t : State, ¬ Refused (s.img.dinode ip).size off src.length → Idle sb ip t →
      (t.img.dinode ip).size = max (s.img.dinode ip).size (off + src.length) →
      Returns sb devsw (k (some src.length)) Q t) :
    Returns sb devsw (do
      begin_op
      ilock ip
      let r ← writei ip off src
      iunlock ip
      end_op
      k r) Q s := by
  have hbegin : Returns sb devsw begin_op (fun _ t => Idle sb ip t ∧ t.img = s.img) s :=
    Prog.wp_perform.mpr ⟨fun r t ht => by
      cases ht
      exact ⟨⟨⟨h.inv.1, h.inv.2, h.inv.3, h.inv.4⟩, h.regular, h.unlocked⟩, rfl⟩, fun _ _ => trivial⟩
  have hend : ∀ {r : Option ℕ} {t : State}, t.Inv sb → (∀ u : State, u.Inv sb → u.img = t.img →
      u.locked ip = false → Returns sb devsw (k r) Q u) →
      Returns sb devsw (do iunlock ip; end_op; k r) Q t := fun ht hk => by
    have := Prog.wp_seq (iunlock_end ht) fun _ u hu => hk u hu.1 hu.2.1 hu.2.2
    rwa [Prog.wp, ← Prog.run_assoc] at this
  refine Prog.wp_seq hbegin ?_
  rintro _ t ⟨ht, himg⟩
  refine Prog.wp_seq (ilock_idle ht) ?_
  rintro _ u ⟨hu, himg', hl⟩
  have himg'' : u.img = s.img := himg'.trans himg
  have hreg : (u.img.dinode ip).type = T_FILE := by rw [himg'', h.regular]
  -- `writei` refuses, writes everything, or stops for want of blocks.
  have hwrite : Returns sb devsw (writei ip off src) (fun r v =>
      (r = none ∧ v = u ∧ Refused (s.img.dinode ip).size off src.length) ∨
        r = some src.length ∧ v.Inv sb ∧ ¬ Refused (s.img.dinode ip).size off src.length ∧
          Wrote sb ip off src u v) u := by
    refine Prog.wp_perform.mpr ⟨fun r v hr => ?_, fun _ _ => trivial⟩
    have hinv := diskOps_inv (.writei ip off src) hu hr
    obtain ⟨-, hr⟩ := Icache.whenLocked_eq_ok.mp hr
    by_cases hbad : Refused (s.img.dinode ip).size off src.length
    · have := @writei_refused sb devsw ip u off src hu hl hreg (by rwa [himg''])
      rw [this] at hr
      cases hr
      exact .inl ⟨rfl, rfl, hbad⟩
    · rcases @writei_accepted sb devsw ip u off src hu hl hreg (by rwa [himg'']) with he | ⟨w, hw, hwrote⟩
      · rw [he] at hr
        cases hr
      · rw [hw] at hr
        cases hr
        exact .inr ⟨rfl, hinv, hbad, hwrote⟩
  refine Prog.wp_seq hwrite ?_
  rintro r v (⟨rfl, rfl, href⟩ | ⟨rfl, hv, href, hwrote⟩)
  · exact hend hu fun w _ hw _ => hbad w href (hw.trans himg'')
  · refine hend hv fun w hw himgw hlw => hgood w href ⟨hw, ?_, hlw⟩ ?_
    · rw [himgw, hwrote.attr.1, hreg]
    · rw [himgw, hwrote.size, himg'']

/-! ### The loop -/

theorem advance_off {m : ℕ} (hm : 0 < m) (h : f.off + m ≤ LIMIT) :
    (f.advance (some m)).off = f.off + m := by
  have hL : LIMIT < 2 ^ 32 := by decide
  simp only [File.advance, if_pos hm]
  exact Nat.mod_eq_of_lt (by omega)

/-- One pass of the loop. -/
theorem filewriteFrom_pass {fuel n₁ : ℕ} {Q : ℤ × File → State → Prop} (h : Idle sb f.ip s)
    (hlt : i < n) (hn₁ : min (n - i).toNat MAXCHUNK = n₁)
    (hbad : ∀ t : State, Refused (s.img.dinode f.ip).size f.off n₁ → t.img = s.img → Q (-1, f) t)
    (hgood : ∀ t : State, ¬ Refused (s.img.dinode f.ip).size f.off n₁ → Idle sb f.ip t →
      (t.img.dinode f.ip).size = max (s.img.dinode f.ip).size (f.off + n₁) →
      Returns sb devsw (filewriteFrom addr n fuel (f.advance (some n₁)) (i + n₁)) Q t) :
    Returns sb devsw (filewriteFrom addr n (fuel + 1) f i) Q s := by
  have hlen := length_chunk addr i n₁
  rw [filewriteFrom, if_pos hlt]
  dsimp only
  rw [hn₁]
  refine pass_returns h (fun t ht himg => ?_) fun t ht hidle hsz => ?_
  · rw [hlen] at ht
    exact hbad t ht himg
  · rw [hlen] at ht hsz ⊢
    dsimp only
    rw [if_neg (not_not.mpr rfl)]
    exact hgood t ht hidle hsz

/-- What the loop returns: all of `n` where it ends within the limit, and `-1` otherwise. -/
theorem filewriteFrom_returns (fuel : ℕ) : ∀ (f : File) (i : ℕ) (s : State), n ≤ i + fuel → i ≤ n →
    Idle sb f.ip s → f.off ≤ (s.img.dinode f.ip).size → f.off ≤ LIMIT →
      Returns sb devsw (filewriteFrom addr n fuel f i) (fun r _ => f.off ≤ r.2.off ∧
        (f.off + (n - i).toNat ≤ LIMIT → r.1 = n) ∧ (LIMIT < f.off + (n - i).toNat → r.1 = -1)) s := by
  induction fuel with
  | zero =>
      intro f i s hn hi _ _ hlim
      obtain rfl : (i : ℤ) = n := by omega
      rw [filewriteFrom, if_pos rfl]
      exact ⟨le_rfl, fun _ => rfl, fun h => by simp at h; omega⟩
  | succ fuel ih =>
      intro f i s hn hi hidle hsize hlim
      by_cases hlt : i < n
      · have hM : 0 < MAXCHUNK := by decide
        have hL : LIMIT < 2 ^ 32 := by decide
        generalize hn₁ : min (n - i).toNat MAXCHUNK = n₁
        refine filewriteFrom_pass hidle hlt hn₁ (fun t hbad _ => ?_) fun t hgood ht hsz => ?_
        · refine ⟨le_rfl, fun h => ?_, fun _ => rfl⟩
          rw [Refused, wraps, ← LIMIT] at hbad
          omega
        · rw [Refused, ← LIMIT, not_or, not_or] at hgood
          have hadv : (f.advance (some n₁)).off = f.off + n₁ := advance_off (by omega) (by omega)
          refine Prog.wp_mono (ih (f.advance (some n₁)) (i + n₁) t (by omega) (by omega) ht ?_
            (by omega)) ?_
          · rw [hadv]
            exact (le_max_right _ _).trans hsz.ge
          · rintro r _ ⟨h₁, h₂, h₃⟩
            refine ⟨?_, fun h => h₂ ?_, fun h => h₃ ?_⟩ <;> omega
      · obtain rfl : (i : ℤ) = n := by omega
        rw [filewriteFrom, if_neg hlt, if_pos rfl]
        exact ⟨le_rfl, fun _ => rfl, fun h => by simp at h; omega⟩

/-- A call that starts in the file and within the limit, and ends above the limit in a later chunk
than its first. -/
def Overruns (f : File) (size : ℕ) (n : ℤ) : Prop :=
  f.writable = true ∧ f.off ≤ size ∧ f.off + min n.toNat MAXCHUNK ≤ LIMIT ∧ LIMIT < f.off + n.toNat

/-- The file and its offset are what they were. -/
structure Untouched (s t : State) (f g : File) : Prop where
  off : g.off = f.off
  size : (t.img.dinode f.ip).size = (s.img.dinode f.ip).size
  bytes : ∀ k < (s.img.dinode f.ip).size, t.img.byte f.ip k = s.img.byte f.ip k

theorem Untouched.of_img (h : t.img = s.img) (hoff : g.off = f.off) : Untouched s t f g :=
  ⟨hoff, by rw [h], fun _ _ => by rw [h]⟩

/-- What a call does, by where it starts and where it ends. -/
theorem filewrite_returns (h : Idle sb f.ip s) : Returns sb devsw (filewrite f addr n) (fun r t =>
    (Overruns f (s.img.dinode f.ip).size n ∧ r.1 = -1 ∧ f.off < r.2.off) ∨
      (¬ Overruns f (s.img.dinode f.ip).size n ∧ (r.1 = -1 → Untouched s t f r.2))) s := by
  have hL : LIMIT < 2 ^ 32 := by decide
  have hM : 0 < MAXCHUNK := by decide
  rw [filewrite]
  split
  · rename_i hw
    exact .inr ⟨fun ho => Bool.false_ne_true (hw.symm.trans ho.1), fun _ => .of_img rfl rfl⟩
  rename_i hw
  rw [Bool.not_eq_false] at hw
  cases hm : n.toNat with
  | zero =>
      refine .inr ⟨fun ho => ?_, fun _ => .of_img rfl rfl⟩
      have := ho.2.2
      omega
  | succ m =>
      have hlt : ((0 : ℕ) : ℤ) < n := by omega
      generalize hn₁ : min (n - (0 : ℕ)).toNat MAXCHUNK = n₁
      refine filewriteFrom_pass h hlt hn₁ (fun t hbad himg => ?_) fun t hgood ht hsz => ?_
      · refine .inr ⟨?_, fun _ => .of_img himg rfl⟩
        rintro ⟨_, h₁, h₂, _⟩
        rw [Refused, wraps, ← LIMIT] at hbad
        omega
      · rw [Refused, ← LIMIT, not_or, not_or] at hgood
        have hadv : (f.advance (some n₁)).off = f.off + n₁ := advance_off (by omega) (by omega)
        have hoff : (f.advance (some n₁)).off ≤ (t.img.dinode f.ip).size := by
          rw [hadv]
          exact (le_max_right _ _).trans hsz.ge
        refine Prog.wp_mono (filewriteFrom_returns m (f.advance (some n₁)) (0 + n₁) t (by omega)
          (by omega) ht hoff (by omega)) ?_
        rintro r u ⟨h₁, h₂, h₃⟩
        by_cases hover : LIMIT < f.off + n.toNat
        · exact .inl ⟨⟨hw, by omega, by omega, hover⟩, h₃ (by omega), by omega⟩
        · refine .inr ⟨fun ho => hover ho.2.2.2, fun hr => ?_⟩
          have := h₂ (by omega)
          omega

/-- **A failed write writes nothing**, unless it goes over the limit in a later chunk than its
first: then the chunks before are written. -/
theorem filewrite_all_or_nothing_iff (h : Idle sb f.ip s)
    (hrun : (filewrite f addr n).run (diskOps sb devsw) s = .ok ((r, g), t)) :
    (r = -1 → Untouched s t f g) ↔ ¬ Overruns f (s.img.dinode f.ip).size n := by
  rcases Prog.wp_of_ok (filewrite_returns h) hrun with ⟨hover, hr, hoff⟩ | ⟨hover, hun⟩
  · exact ⟨fun hun => absurd (hun hr).off hoff.ne', fun hno => absurd hover hno⟩
  · exact ⟨fun _ => hover, fun _ => hun⟩

/-- A file of the greatest size, and a write of three blocks and a byte at its last three blocks. -/
def fullFile : State := fullState (fullImage T_FILE 1 0 0 fun _ _ => 0)

/-- A file that is open, with room for the last blocks only. -/
def atLastBlocks : File := ⟨true, 1, LIMIT - MAXCHUNK⟩

theorem fullFile_idle : Idle fullDisk 1 fullFile :=
  ⟨fullState_inv (fullImage_consistent (by decide)), by simp [fullFile, fullState, fullImage, fullDinode], rfl⟩

theorem filewrite_runs : ∃ r g t, (filewrite atLastBlocks (fun _ => 7) (MAXCHUNK + 1)).run
    (diskOps fullDisk noDevices) fullFile = .ok ((r, g), t) := by
  have hok : ((filewrite atLastBlocks (fun _ => 7) (MAXCHUNK + 1)).run (diskOps fullDisk noDevices)
      fullFile).toOption.isSome = true := by decide +kernel
  obtain ⟨⟨⟨r, g⟩, t⟩, hr⟩ := Option.isSome_iff_exists.mp hok
  exact ⟨r, g, t, Lib.toOption_eq_some.mp hr⟩

theorem filewrite_all_or_nothing_iff_full : ∃ (r : ℤ) (g : File) (t : State),
    (r = -1 → Untouched fullFile t atLastBlocks g) ↔
      ¬ Overruns atLastBlocks (fullFile.img.dinode 1).size (MAXCHUNK + 1) := by
  obtain ⟨r, g, t, hr⟩ := filewrite_runs
  exact ⟨r, g, t, filewrite_all_or_nothing_iff fullFile_idle hr⟩

/-- The first chunk is written, the second refused. -/
theorem filewrite_overrun : ¬ ∀ (sb : Superblock) (devsw : Devsw) (s t : State) (f g : File)
    (addr : ℕ → UInt8) (n : ℤ), Idle sb f.ip s →
      (filewrite f addr n).run (diskOps sb devsw) s = .ok ((-1, g), t) → Untouched s t f g := by
  intro h
  have hsize : (fullFile.img.dinode 1).size = LIMIT := by
    simp [fullFile, fullState, fullImage, fullDinode]
  have hover : Overruns atLastBlocks (fullFile.img.dinode 1).size (MAXCHUNK + 1) := by
    rw [hsize]
    exact ⟨rfl, by decide, by decide, by decide⟩
  obtain ⟨r, g, t, hr⟩ := filewrite_runs
  rcases Prog.wp_of_ok (filewrite_returns fullFile_idle) hr with ⟨-, hneg, hoff⟩ | ⟨hno, -⟩
  · obtain rfl : r = -1 := hneg
    exact hoff.ne' (h _ _ _ _ _ _ _ _ fullFile_idle hr).off
  · exact hno hover

end Xv6.Fs

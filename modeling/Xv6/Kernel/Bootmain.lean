import Xv6.Lib.LittleEndian
import Mathlib.Data.Nat.Notation
import Mathlib.Tactic.Common

/-!
# The boot loader

`bootmain` of `bootmain.c`: it reads the first page of the kernel's ELF file into scratch space, and
from the program headers there it loads each segment, sector by sector.  Addresses and sizes are
`uint`s; a call of `readseg` that ends near the end of the address space need not return (`none`).

`readseg` writes whole sectors, so more than it is asked to: "it doesn't matter -- we load in
increasing order".

* `readseg_spec` — the sectors that it reads, and where they go.
* `bootmain_loads` — segments in increasing order, with room for the sector in front, are all in
  memory when the kernel is entered.
-/

namespace Xv6.Loader

open Lib (ofLE)

/-- Physical memory, by address. -/
abbrev Mem := ℕ → UInt8

/-- The bytes of a sector. -/
def SECTSIZE : ℕ := 512

/-- The first word of an ELF file. -/
def ELF_MAGIC : ℕ := 0x464C457F

/-- The scratch space of `bootmain`. -/
def SCRATCH : ℕ := 0x10000

/-! ### `bootmain.c` -/

/-- How far the address `a` is behind `b`, as a `uint`. -/
def behind (a b : ℕ) : ℕ := (a + 2 ^ 32 - b) % 2 ^ 32

/-- `readsect`: the 128 words that the disk gives. -/
def readsect (disk : ℕ → UInt8) (dst offset : ℕ) (mem : Mem) : Mem := fun a =>
  if behind a dst < SECTSIZE then disk (SECTSIZE * offset + behind a dst) else mem a

/-- The loop of `readseg`, for at most `n` sectors. -/
def readLoop (disk : ℕ → UInt8) (epa : ℕ) : ℕ → ℕ → ℕ → Mem → Option Mem
  | 0, pa, _, mem => if pa < epa then none else some mem
  | n + 1, pa, offset, mem =>
      if pa < epa then
        readLoop disk epa n ((pa + SECTSIZE) % 2 ^ 32) (offset + 1) (readsect disk pa offset mem)
      else some mem

/-- `readseg`.  After `2 ^ 23` sectors `pa` is where it was. -/
def readseg (disk : ℕ → UInt8) (pa count offset : ℕ) (mem : Mem) : Option Mem :=
  readLoop disk ((pa + count) % 2 ^ 32) (2 ^ 23) (behind pa (offset % SECTSIZE))
    (offset / SECTSIZE + 1) mem

/-- `stosb`: `cnt` bytes are set. -/
def stosb (addr : ℕ) (data : UInt8) (cnt : ℕ) (mem : Mem) : Mem := fun a =>
  if behind a addr < cnt then data else mem a

/-- A little-endian field of `n` bytes. -/
def field (mem : Mem) (a n : ℕ) : ℕ := ofLE ((List.range n).map fun i => mem ((a + i) % 2 ^ 32))

/-- The loop over the program headers, `n` of them at most. -/
def loadSegments (disk : ℕ → UInt8) (eph : ℕ) : ℕ → ℕ → Mem → Option Mem
  | 0, _, mem => some mem
  | n + 1, ph, mem =>
      if ph < eph then do
        let pa := field mem (ph + 12) 4
        let mem ← readseg disk pa (field mem (ph + 16) 4) (field mem (ph + 4) 4) mem
        let filesz := field mem (ph + 16) 4
        let memsz := field mem (ph + 20) 4
        loadSegments disk eph n ((ph + 32) % 2 ^ 32)
          (if filesz < memsz then stosb ((pa + filesz) % 2 ^ 32) 0 (memsz - filesz) mem else mem)
      else some mem

/-- `bootmain`: the entry that it calls, or `none` where it returns, and memory. -/
def bootmain (disk : ℕ → UInt8) (mem : Mem) : Option (Option ℕ × Mem) := do
  let mem ← readseg disk SCRATCH 4096 0 mem
  if field mem SCRATCH 4 ≠ ELF_MAGIC then pure (none, mem)
  else do
    let ph := (SCRATCH + field mem (SCRATCH + 28) 4) % 2 ^ 32
    let phnum := field mem (SCRATCH + 44) 2
    let mem ← loadSegments disk ((ph + 32 * phnum) % 2 ^ 32) phnum ph mem
    pure (some (field mem (SCRATCH + 24) 4), mem)

/-! ### `readseg` -/

variable {disk : ℕ → UInt8} {mem mem' : Mem} {a n : ℕ}

theorem behind_of_le (h : n ≤ a) (ha : a < 2 ^ 32) : behind a n = a - n := by
  unfold behind
  omega

theorem behind_of_lt (h : a < n) (hn : n < 2 ^ 32) : behind a n = a + 2 ^ 32 - n := by
  unfold behind
  omega

/-- The loop reads `n` sectors, from the sector `offset` on, to `pa`. -/
theorem readLoop_spec (disk : ℕ → UInt8) (epa m : ℕ) : ∀ (n pa offset : ℕ) (mem : Mem),
    n ≤ m → pa + SECTSIZE * n < 2 ^ 32 → epa ≤ pa + SECTSIZE * n →
    (∀ k < n, pa + SECTSIZE * k < epa) →
      ∃ mem', readLoop disk epa m pa offset mem = some mem' ∧ ∀ a < 2 ^ 32,
        mem' a = if pa ≤ a ∧ a < pa + SECTSIZE * n then disk (SECTSIZE * offset + (a - pa))
          else mem a := by
  induction m with
  | zero =>
      intro n pa offset mem hn _ hle _
      obtain rfl : n = 0 := Nat.le_zero.mp hn
      refine ⟨mem, ?_, fun a _ => (if_neg (by omega)).symm⟩
      rw [readLoop, if_neg (by omega)]
  | succ m ih =>
      intro n pa offset mem hn hlt hle hmore
      cases n with
      | zero =>
          refine ⟨mem, ?_, fun a _ => (if_neg (by omega)).symm⟩
          rw [readLoop, if_neg (by omega)]
      | succ n =>
          -- the first sector, and then `n` sectors from the next one on
          have hgo : pa < epa := hmore 0 (Nat.succ_pos n)
          have hpa : (pa + SECTSIZE) % 2 ^ 32 = pa + SECTSIZE := by
            simp only [SECTSIZE] at *
            omega
          have hrest : ∀ k < n, pa + SECTSIZE + SECTSIZE * k < epa := fun k hk => by
            have := hmore (k + 1) (by omega)
            simp only [SECTSIZE] at *
            omega
          obtain ⟨mem', hrun, hmem⟩ := ih n (pa + SECTSIZE) (offset + 1)
            (readsect disk pa offset mem) (by omega) (by simp only [SECTSIZE] at *; omega)
            (by simp only [SECTSIZE] at *; omega) hrest
          refine ⟨mem', ?_, fun a ha => ?_⟩
          · rw [readLoop, if_pos hgo, hpa, hrun]
          · rw [hmem a ha, readsect]
            by_cases hlo : pa ≤ a
            · rw [behind_of_le hlo ha]
              split_ifs
              all_goals simp only [SECTSIZE] at *
              all_goals first | omega | exact congrArg disk (by omega)
            · have hpa' : pa < 2 ^ 32 := by omega
              rw [behind_of_lt (not_le.mp hlo) hpa']
              split_ifs
              all_goals simp only [SECTSIZE] at *
              all_goals omega

/-- How many sectors `readseg` reads. -/
def sectors (count offset : ℕ) : ℕ := (count + offset % SECTSIZE + (SECTSIZE - 1)) / SECTSIZE

/-- Where the first of them goes. -/
def start (pa offset : ℕ) : ℕ := pa - offset % SECTSIZE

/-- **What `readseg` does**: from the start of the sector of `offset` on, whole sectors. -/
theorem readseg_spec (disk : ℕ → UInt8) (pa count offset : ℕ) (mem : Mem)
    (hlo : offset % SECTSIZE ≤ pa)
    (hhi : start pa offset + SECTSIZE * sectors count offset < 2 ^ 32) :
    ∃ mem', readseg disk pa count offset mem = some mem' ∧ ∀ a < 2 ^ 32, mem' a =
      if start pa offset ≤ a ∧ a < start pa offset + SECTSIZE * sectors count offset then
        disk (SECTSIZE + (offset - offset % SECTSIZE) + (a - start pa offset))
      else mem a := by
  have hsect : SECTSIZE * (offset / SECTSIZE + 1) = SECTSIZE + (offset - offset % SECTSIZE) := by
    simp only [SECTSIZE]
    omega
  have hend : (pa + count) % 2 ^ 32 = pa + count := by
    simp only [start, sectors, SECTSIZE] at *
    omega
  have hpa : behind pa (offset % SECTSIZE) = start pa offset := by
    refine behind_of_le hlo ?_
    simp only [start, sectors, SECTSIZE] at *
    omega
  obtain ⟨mem', hrun, hmem⟩ := readLoop_spec disk (pa + count) (2 ^ 23)
    (sectors count offset) (start pa offset) (offset / SECTSIZE + 1) mem
    (by simp only [start, sectors, SECTSIZE] at *; omega) hhi
    (by simp only [start, sectors, SECTSIZE] at *; omega)
    (fun k hk => by simp only [start, sectors, SECTSIZE] at *; omega)
  refine ⟨mem', ?_, fun a ha => ?_⟩
  · rw [readseg, hend, hpa, hrun]
  · rw [hmem a ha, hsect]

/-! ### Segments -/

/-- The fields of `struct proghdr` that `bootmain` reads. -/
structure Segment where
  off : ℕ
  paddr : ℕ
  filesz : ℕ
  memsz : ℕ
  deriving DecidableEq

/-- The program header at `ph`. -/
def segmentAt (mem : Mem) (ph : ℕ) : Segment :=
  ⟨field mem (ph + 4) 4, field mem (ph + 12) 4, field mem (ph + 16) 4, field mem (ph + 20) 4⟩

namespace Segment

variable (g : Segment)

/-- Where the first sector of a segment goes. -/
def first : ℕ := start g.paddr g.off

/-- The end of all that is written for a segment. -/
def last : ℕ := max (g.first + SECTSIZE * sectors g.filesz g.off) (g.paddr + g.memsz)

/-- There is room for a segment, apart from the scratch space. -/
structure Fits : Prop where
  room : g.off % SECTSIZE ≤ g.paddr
  last : g.last < 2 ^ 32
  apart : g.last ≤ SCRATCH ∨ SCRATCH + 4096 ≤ g.first

/-- The segment is in memory: the bytes of the file, and zeros after them. -/
structure Loaded (file : ℕ → UInt8) (mem : Mem) : Prop where
  bytes : ∀ o < g.filesz, mem (g.paddr + o) = file (g.off + o)
  zero : ∀ o, g.filesz ≤ o → o < g.memsz → mem (g.paddr + o) = 0

end Segment

/-- The kernel's file, from sector 1 on. -/
def fileOf (disk : ℕ → UInt8) : ℕ → UInt8 := fun i => disk (SECTSIZE + i)

/-- What is read and zeroed for one segment. -/
theorem loadSegment_spec (disk : ℕ → UInt8) (mem : Mem) {g : Segment} (hg : g.Fits) :
    ∃ mem', readseg disk g.paddr g.filesz g.off mem = some mem' ∧
      ∀ mem'', mem'' = (if g.filesz < g.memsz then
        stosb ((g.paddr + g.filesz) % 2 ^ 32) 0 (g.memsz - g.filesz) mem' else mem') →
      g.Loaded (fileOf disk) mem'' ∧
        ∀ a < 2 ^ 32, a < g.first ∨ g.last ≤ a → mem' a = mem a ∧ mem'' a = mem a := by
  have hroom := hg.room
  have hlast := hg.last
  have hread : g.first + SECTSIZE * sectors g.filesz g.off ≤ g.last := le_max_left _ _
  have hzero : g.paddr + g.memsz ≤ g.last := le_max_right _ _
  have hfirst : g.first + g.off % SECTSIZE = g.paddr := Nat.sub_add_cancel hroom
  -- the sectors hold all the bytes of the file
  have hsect : g.off % SECTSIZE + g.filesz ≤ SECTSIZE * sectors g.filesz g.off := by
    simp only [sectors, SECTSIZE]
    omega
  obtain ⟨mem', hrun, hmem⟩ := readseg_spec disk g.paddr g.filesz g.off mem hroom
    (hread.trans_lt hlast)
  refine ⟨mem', hrun, ?_⟩
  rintro mem'' rfl
  have hstosb : ∀ a < 2 ^ 32, (if g.filesz < g.memsz then
      stosb ((g.paddr + g.filesz) % 2 ^ 32) 0 (g.memsz - g.filesz) mem' else mem') a =
        if g.paddr + g.filesz ≤ a ∧ a < g.paddr + g.memsz then 0 else mem' a := by
    intro a ha
    by_cases hbss : g.filesz < g.memsz
    · rw [if_pos hbss, stosb, Nat.mod_eq_of_lt (by omega)]
      by_cases hle : g.paddr + g.filesz ≤ a
      · rw [behind_of_le hle ha]
        exact if_congr (by omega) rfl rfl
      · rw [behind_of_lt (not_le.mp hle) (by omega)]
        exact if_congr (by omega) rfl rfl
    · rw [if_neg hbss, if_neg (by omega)]
  refine ⟨⟨fun o ho => ?_, fun o hlo hhi => ?_⟩, fun a ha hout => ?_⟩
  · rw [hstosb _ (by omega), if_neg (by omega), hmem _ (by omega),
      if_pos ⟨by rw [← Segment.first]; omega, by rw [← Segment.first]; omega⟩, fileOf]
    refine congrArg disk ?_
    rw [← Segment.first]
    have := Nat.mod_le g.off SECTSIZE
    omega
  · rw [hstosb _ (by omega), if_pos (by omega)]
  · have hmem' : mem' a = mem a := by
      rw [hmem a ha, if_neg]
      rw [← Segment.first]
      omega
    refine ⟨hmem', ?_⟩
    rw [hstosb a ha, if_neg (by omega), hmem']

/-! ### All segments -/

/-- `elf->phoff` of a file. -/
abbrev phoff (file : ℕ → UInt8) : ℕ := field file 28 4

/-- `elf->phnum` of a file. -/
abbrev phnum (file : ℕ → UInt8) : ℕ := field file 44 2

/-- The scratch space holds the first page of the file. -/
def Header (file : ℕ → UInt8) (mem : Mem) : Prop := ∀ i < 4096, mem (SCRATCH + i) = file i

/-- A field of the header is that of the file. -/
theorem Header.reads {file : ℕ → UInt8} (h : Header file mem) (hn : a + n ≤ 4096) :
    field mem (SCRATCH + a) n = field file a n := by
  unfold field
  refine congrArg ofLE (List.map_congr_left fun i hi => ?_)
  rw [List.mem_range] at hi
  have hmem : (SCRATCH + a + i) % 2 ^ 32 = SCRATCH + (a + i) := by
    simp only [SCRATCH]
    omega
  have hfile : (a + i) % 2 ^ 32 = a + i := by omega
  rw [hmem, hfile]
  exact h _ (by omega)

/-- The program header `j` of a file. -/
def programHeader (file : ℕ → UInt8) (j : ℕ) : Segment := segmentAt file (phoff file + 32 * j)

/-- So is a program header. -/
theorem Header.segment {file : ℕ → UInt8} {j : ℕ} (h : Header file mem)
    (hj : phoff file + 32 * j + 32 ≤ 4096) :
    segmentAt mem (SCRATCH + phoff file + 32 * j) = programHeader file j := by
  have hfield : ∀ k, k + 4 ≤ 32 →
      field mem (SCRATCH + phoff file + 32 * j + k) 4 =
        field file (phoff file + 32 * j + k) 4 := fun k hk => by
    rw [Nat.add_assoc, Nat.add_assoc SCRATCH, h.reads (by omega), Nat.add_assoc]
  rw [segmentAt, programHeader, segmentAt, hfield 4 (by decide), hfield 12 (by decide),
    hfield 16 (by decide), hfield 20 (by decide)]

/-- A kernel that the boot loader can load: the program headers are in the first page, there is room
for each segment, and the segments are in increasing order, each in front of the first sector of the
next. -/
structure Loadable (file : ℕ → UInt8) : Prop where
  headers : phoff file + 32 * phnum file ≤ 4096
  fits : ∀ j < phnum file, (programHeader file j).Fits
  increasing : ∀ i j, i < j → j < phnum file →
    (programHeader file i).paddr + max (programHeader file i).filesz (programHeader file i).memsz ≤
      (programHeader file j).first

/-- A segment stays loaded when nothing is written over it. -/
theorem Segment.Loaded.congr {file : ℕ → UInt8} {g : Segment} (h : g.Loaded file mem)
    (he : ∀ o < max g.filesz g.memsz, mem' (g.paddr + o) = mem (g.paddr + o)) :
    g.Loaded file mem' where
  bytes o ho := (he o (lt_max_of_lt_left ho)).trans (h.bytes o ho)
  zero o hlo hhi := (he o (lt_max_of_lt_right hhi)).trans (h.zero o hlo hhi)

/-- The loop, from the header `j` on. -/
theorem loadSegments_spec (hl : Loadable (fileOf disk)) (n : ℕ) : ∀ (j : ℕ) (mem : Mem),
    j + n = phnum (fileOf disk) → Header (fileOf disk) mem →
    (∀ i < j, (programHeader (fileOf disk) i).Loaded (fileOf disk) mem) →
      ∃ mem', loadSegments disk (SCRATCH + phoff (fileOf disk) + 32 * phnum (fileOf disk)) n
          (SCRATCH + phoff (fileOf disk) + 32 * j) mem = some mem' ∧
        Header (fileOf disk) mem' ∧
        (∀ i < phnum (fileOf disk), (programHeader (fileOf disk) i).Loaded (fileOf disk) mem') ∧
        ∀ a < 2 ^ 32, (∀ i, j ≤ i → i < phnum (fileOf disk) →
          a < (programHeader (fileOf disk) i).first ∨ (programHeader (fileOf disk) i).last ≤ a) →
            mem' a = mem a := by
  have hheaders := hl.headers
  induction n with
  | zero =>
      intro j mem hj hheader hloaded
      exact ⟨mem, rfl, hheader, fun i hi => hloaded i (by omega), fun _ _ _ => rfl⟩
  | succ n ih =>
      intro j mem hj hheader hloaded
      have hjn : j < phnum (fileOf disk) := by omega
      have hfits := hl.fits j hjn
      obtain ⟨mem₁, hrun, hspec⟩ := loadSegment_spec disk mem hfits
      obtain ⟨hg, hkeep⟩ := hspec _ rfl
      generalize hmem₂ : (if (programHeader (fileOf disk) j).filesz <
        (programHeader (fileOf disk) j).memsz then _ else mem₁) = mem₂ at hg hkeep
      -- the headers are still there when the next round reads them
      have hscratch : ∀ i < 4096, SCRATCH + i < (programHeader (fileOf disk) j).first ∨
          (programHeader (fileOf disk) j).last ≤ SCRATCH + i := fun i hi => by
        have := hfits.apart
        omega
      have hsmall : ∀ i < 4096, SCRATCH + i < 2 ^ 32 := fun i hi => by
        simp only [SCRATCH]
        omega
      have hheader₁ : Header (fileOf disk) mem₁ := fun i hi =>
        ((hkeep _ (hsmall i hi) (hscratch i hi)).1).trans (hheader i hi)
      have hheader₂ : Header (fileOf disk) mem₂ := fun i hi =>
        ((hkeep _ (hsmall i hi) (hscratch i hi)).2).trans (hheader i hi)
      have hloaded₂ : ∀ i < j + 1, (programHeader (fileOf disk) i).Loaded (fileOf disk) mem₂ := by
        intro i hi
        -- what is read for `j` starts behind the segments before it
        rcases Nat.lt_succ_iff_lt_or_eq.mp hi with hlt | rfl
        · have hord := hl.increasing i j hlt hjn
          have hlast := hfits.last
          have hfirst : (programHeader (fileOf disk) j).first ≤
              (programHeader (fileOf disk) j).last := (Nat.le_add_right _ _).trans (le_max_left _ _)
          refine (hloaded i hlt).congr fun o ho => (hkeep _ (by omega) (.inl (by omega))).2
        · exact hg
      obtain ⟨mem', hrun', hheader', hloaded', huntouched⟩ :=
        ih (j + 1) mem₂ (by omega) hheader₂ hloaded₂
      refine ⟨mem', ?_, hheader', hloaded', fun a ha hout => ?_⟩
      · have hseg := hheader.segment (j := j) (by omega)
        have hseg₁ := hheader₁.segment (j := j) (by omega)
        have hph : (SCRATCH + phoff (fileOf disk) + 32 * j + 32) % 2 ^ 32 =
            SCRATCH + phoff (fileOf disk) + 32 * (j + 1) := by
          simp only [SCRATCH]
          omega
        rw [loadSegments, if_pos (by omega)]
        have hpaddr := congrArg Segment.paddr hseg
        have hfilesz := congrArg Segment.filesz hseg
        have hoff := congrArg Segment.off hseg
        have hfilesz₁ := congrArg Segment.filesz hseg₁
        have hmemsz₁ := congrArg Segment.memsz hseg₁
        simp only [segmentAt] at hpaddr hfilesz hoff hfilesz₁ hmemsz₁
        simp only [hpaddr, hfilesz, hoff, hrun, Option.bind_eq_bind, Option.bind_some, hfilesz₁,
          hmemsz₁, hmem₂, hph]
        exact hrun'
      · rw [huntouched a ha fun i hji hi => hout i (by omega) hi]
        exact (hkeep a ha (hout j le_rfl hjn)).2

/-- **The kernel is loaded.**  From a disk with a kernel that can be loaded, `bootmain` calls the
entry of its header, with every segment in memory, and with no change to what is neither a segment's
nor scratch space; where there is no ELF magic, it returns. -/
theorem bootmain_loads (disk : ℕ → UInt8) (mem : Mem) :
    (field (fileOf disk) 0 4 = ELF_MAGIC → Loadable (fileOf disk) →
      ∃ mem', bootmain disk mem = some (some (field (fileOf disk) 24 4), mem') ∧
        (∀ j < phnum (fileOf disk), (programHeader (fileOf disk) j).Loaded (fileOf disk) mem') ∧
        ∀ a < 2 ^ 32, (a < SCRATCH ∨ SCRATCH + 4096 ≤ a) →
          (∀ j < phnum (fileOf disk), a < (programHeader (fileOf disk) j).first ∨
            (programHeader (fileOf disk) j).last ≤ a) → mem' a = mem a) ∧
    (field (fileOf disk) 0 4 ≠ ELF_MAGIC → ∃ mem', bootmain disk mem = some (none, mem') ∧
      ∀ a < 2 ^ 32, (a < SCRATCH ∨ SCRATCH + 4096 ≤ a) → mem' a = mem a) := by
  have hstart : start SCRATCH 0 = SCRATCH := rfl
  have hsectors : SECTSIZE * sectors 4096 0 = 4096 := rfl
  obtain ⟨mem₀, hrun₀, hmem₀⟩ := readseg_spec disk SCRATCH 4096 0 mem (Nat.zero_le _)
    (by rw [hstart, hsectors]; decide)
  rw [hstart, hsectors] at hmem₀
  -- The scratch space holds the first page of the file.
  have hheader : Header (fileOf disk) mem₀ := fun i hi => by
    have hlt : SCRATCH + i < 2 ^ 32 := by
      simp only [SCRATCH]
      omega
    rw [hmem₀ _ hlt, if_pos (by omega), Nat.add_sub_cancel_left]
    rfl
  have hout : ∀ a < 2 ^ 32, (a < SCRATCH ∨ SCRATCH + 4096 ≤ a) → mem₀ a = mem a := fun a ha ho => by
    rw [hmem₀ a ha, if_neg (by omega)]
  have hfield : ∀ {a n}, a + n ≤ 4096 → field mem₀ (SCRATCH + a) n = field (fileOf disk) a n :=
    fun h => hheader.reads h
  have hmagic : field mem₀ SCRATCH 4 = field (fileOf disk) 0 4 := hfield (a := 0) (by decide)
  refine ⟨fun hm hl => ?_, fun hm => ?_⟩
  · obtain ⟨mem', hrun, hheader', hloaded, huntouched⟩ :=
      loadSegments_spec hl (phnum (fileOf disk)) 0 mem₀ (Nat.zero_add _) hheader
        fun i hi => absurd hi (Nat.not_lt_zero i)
    have hheaders := hl.headers
    refine ⟨mem', ?_, hloaded, fun a ha ho hsegs => ?_⟩
    · have hph : (SCRATCH + phoff (fileOf disk)) % 2 ^ 32 = SCRATCH + phoff (fileOf disk) := by
        simp only [SCRATCH]
        omega
      have heph : (SCRATCH + phoff (fileOf disk) + 32 * phnum (fileOf disk)) % 2 ^ 32 =
          SCRATCH + phoff (fileOf disk) + 32 * phnum (fileOf disk) := by
        simp only [SCRATCH]
        omega
      rw [Nat.mul_zero, Nat.add_zero] at hrun
      rw [bootmain, hrun₀, Option.bind_eq_bind, Option.bind_some, hmagic, if_neg (not_not.mpr hm),
        hfield (by decide), hfield (by decide)]
      dsimp only
      rw [hph, heph, hrun, Option.bind_some, hheader'.reads (by decide)]
      rfl
    · rw [huntouched a ha fun i _ hi => hsegs i hi]
      exact hout a ha ho
  · refine ⟨mem₀, ?_, hout⟩
    rw [bootmain, hrun₀, Option.bind_eq_bind, Option.bind_some, hmagic, if_pos hm]
    rfl

/-- A disk with a kernel of one segment, of 600 bytes and 400 zeros. -/
def smallDisk : ℕ → UInt8 := fun i =>
  if SECTSIZE + 4096 ≤ i then 9
  else ([(0, 0x7F), (1, 0x45), (2, 0x4C), (3, 0x46), (24, 0x0C), (26, 0x10), (28, 52), (44, 1),
    (52 + 5, 0x10), (52 + 14, 0x10), (52 + 16, 0x58), (52 + 17, 2), (52 + 20, 0xE8),
    (52 + 21, 3)].lookup (i - SECTSIZE)).getD 0

theorem smallDisk_header : programHeader (fileOf smallDisk) 0 = ⟨4096, 0x100000, 600, 1000⟩ := by
  decide

/-- The small disk has a kernel that can be loaded. -/
theorem smallDisk_loadable : Loadable (fileOf smallDisk) where
  headers := by decide
  fits j hj := by
    obtain rfl : j = 0 := Nat.lt_one_iff.mp hj
    rw [smallDisk_header]
    exact ⟨by decide, by decide, by decide⟩
  increasing i j hij hj := by
    obtain rfl : j = 0 := Nat.lt_one_iff.mp hj
    exact absurd hij (Nat.not_lt_zero i)

/-- A segment of 600 bytes, with zeros after it. -/
theorem bootmain_loads_small : ∃ mem',
    bootmain smallDisk (fun _ => 7) = some (some 0x10000C, mem') ∧
      mem' (0x100000 + 599) = 9 ∧ mem' (0x100000 + 600) = 0 ∧ mem' 0x200000 = 7 := by
  obtain ⟨mem', hrun, hloaded, hout⟩ :=
    (bootmain_loads smallDisk fun _ => 7).1 (by decide) smallDisk_loadable
  have h := hloaded 0 (by decide)
  rw [smallDisk_header] at h
  refine ⟨mem', hrun, (h.bytes 599 (by decide)).trans (by decide),
    h.zero 600 (by decide) (by decide), ?_⟩
  refine hout _ (by decide) (.inr (by decide)) fun j hj => ?_
  obtain rfl : j = 0 := Nat.lt_one_iff.mp hj
  rw [smallDisk_header]
  exact .inr (by decide)

end Xv6.Loader

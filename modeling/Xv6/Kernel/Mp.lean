import Mathlib.Data.Nat.Notation
import Mathlib.Logic.Function.Basic
import Mathlib.Tactic.Common
import Xv6.Lib.LittleEndian
import Xv6.Param

/-!
# Kernel — the MP tables, `mp.c`

`mpinit` looks for the MP configuration table and walks over its entries, each of which says by its
type how long it is.  A type the code does not know is noted and nothing else: the next pass is over
the same entry.

* `mpsearch`, `mpconfig`, `mpinit` — over physical memory, with the loop in passes.
* `Reaches` — the places of the entries, by their sizes.
* `walk_finishes`, `walk_stuck` — without and with an unknown entry on the way.
* `mpinit_ends_iff` — exactly when the walk ends as it should.
-/

namespace Xv6.Mp

/-- Physical memory. -/
abbrev Mem := ℕ → UInt8

variable (m : Mem)

/-- The number of `w` bytes at `a`. -/
def field (a w : ℕ) : ℕ := Lib.ofLE ((List.range w).map fun i => m (a + i))

/-- `memcmp(p, s, length of s) == 0`. -/
def memcmp (p : ℕ) (s : List UInt8) : Bool := (List.range s.length).map (fun i => m (p + i)) = s

/-- `sum`: the bytes, modulo 256. -/
def sum (addr len : ℕ) : UInt8 := (List.range len).foldl (fun sum i => sum + m (addr + i)) 0

/-- `sizeof(struct mp)`. -/
def MPSIZE : ℕ := 16

/-- `sizeof(struct mpconf)`. -/
def MPCONFSIZE : ℕ := 44

/-- `mpsearch1`: the first floating pointer of the range. -/
def mpsearch1 (a len : ℕ) : Option ℕ :=
  ((List.range ((len + MPSIZE - 1) / MPSIZE)).map fun i => a + i * MPSIZE).find? fun p =>
    memcmp m p [95, 77, 80, 95] && sum m p MPSIZE = 0

/-- `mpsearch`: the EBDA, or the last kilobyte of base memory, and then the BIOS. -/
def mpsearch : Option ℕ :=
  let bda := 0x400
  let p := ((m (bda + 0x0F)).toNat <<< 8 ||| (m (bda + 0x0E)).toNat) <<< 4
  let mp :=
    if p ≠ 0 then mpsearch1 m p 1024
    else
      let p := ((m (bda + 0x14)).toNat <<< 8 ||| (m (bda + 0x13)).toNat) * 1024
      mpsearch1 m ((p + 2 ^ 32 - 1024) % 2 ^ 32) 1024
  mp <|> mpsearch1 m 0xF0000 0x10000

namespace Conf

/-! The fields of `struct mp` and `struct mpconf`. -/

def physaddr (mp : ℕ) : ℕ := field m (mp + 4) 4
def imcrp (mp : ℕ) : UInt8 := m (mp + 12)
def length (conf : ℕ) : ℕ := field m (conf + 4) 2
def version (conf : ℕ) : UInt8 := m (conf + 6)
def lapicaddr (conf : ℕ) : ℕ := field m (conf + 36) 4

end Conf

/-- `mpconfig`: the MP structure and the configuration table. -/
def mpconfig : Option (ℕ × ℕ) := do
  let mp ← mpsearch m
  let conf := Conf.physaddr m mp
  if conf = 0 then none
  else if memcmp m conf [80, 67, 77, 80] = false then none
  else if Conf.version m conf ≠ 1 ∧ Conf.version m conf ≠ 4 then none
  else if sum m conf (Conf.length m conf) ≠ 0 then none
  else some (mp, conf)

/-! ### The walk -/

/-- The types of an entry. -/
def MPPROC : UInt8 := 0x00
def MPBUS : UInt8 := 0x01
def MPIOAPIC : UInt8 := 0x02
def MPIOINTR : UInt8 := 0x03
def MPLINTR : UInt8 := 0x04

/-- The variables of `mpinit`, and the globals it sets. -/
structure Walk where
  p : ℕ
  ismp : Bool
  /-- `cpus[i].apicid`. -/
  apicid : ℕ → UInt8
  ncpu : ℕ
  ioapicid : UInt8

variable {m : Mem} {e p q n fuel : ℕ} {s t : Walk}

/-- `if (ncpu < NCPU)`: a processor, as long as there is room. -/
def Walk.cpu (m : Mem) (s : Walk) : Walk :=
  if s.ncpu < NCPU then
    { s with apicid := Function.update s.apicid s.ncpu (m (s.p + 1)), ncpu := s.ncpu + 1 }
  else s

/-- The body of the loop. -/
def Walk.entry (m : Mem) (s : Walk) : Walk :=
  if m s.p = MPPROC then { s.cpu m with p := s.p + 20 }
  else if m s.p = MPIOAPIC then { s with ioapicid := m (s.p + 1), p := s.p + 8 }
  else if m s.p = MPBUS ∨ m s.p = MPIOINTR ∨ m s.p = MPLINTR then { s with p := s.p + 8 }
  -- The `break` leaves the `switch`, not the loop.
  else { s with ismp := false }

/-- The loop, in `n` passes at most. -/
def walk (m : Mem) (e : ℕ) : ℕ → Walk → Option Walk
  | 0, s => if s.p < e then none else some s
  | n + 1, s => if s.p < e then walk m e n (s.entry m) else some s

/-- The globals are `0` when the kernel starts. -/
def Walk.start (conf : ℕ) : Walk := ⟨conf + MPCONFSIZE, true, fun _ => 0, 0, 0⟩

/-- The panics of `mpinit`. -/
inductive Panic where
  | expectSmp
  | unsuitable
  deriving DecidableEq

/-- What `mpinit` leaves: `lapic`, the globals, and whether the IMCR was written. -/
structure Found where
  lapic : ℕ
  walk : Walk
  imcr : Bool

/-- `mpinit`, with `n` passes of its loop at most: `none` if they are not enough. -/
def mpinit (m : Mem) (n : ℕ) : Option (Except Panic Found) :=
  match mpconfig m with
  | none => some (.error .expectSmp)
  | some (mp, conf) =>
      (walk m (conf + Conf.length m conf) n (.start conf)).map fun s =>
        if s.ismp then .ok ⟨Conf.lapicaddr m conf, s, Conf.imcrp m mp ≠ 0⟩
        else .error .unsuitable

/-! ### The entries -/

/-- How long an entry of a known type is. -/
def entrySize (type : UInt8) : Option ℕ :=
  if type = MPPROC then some 20
  else if type = MPIOAPIC ∨ type = MPBUS ∨ type = MPIOINTR ∨ type = MPLINTR then some 8
  else none

/-- From an entry at `p` the table goes on to an entry, or its end, at `q`. -/
inductive Reaches (m : Mem) (e : ℕ) : ℕ → ℕ → Prop where
  | here (p : ℕ) : Reaches m e p p
  | next {p n q : ℕ} (hlt : p < e) (hs : entrySize (m p) = some n) (h : Reaches m e (p + n) q) :
      Reaches m e p q

theorem entrySize_pos {type : UInt8} (h : entrySize type = some n) : 0 < n := by
  unfold entrySize at h
  split at h
  · cases h
    decide
  · split at h
    · cases h
      decide
    · cases h

/-- An entry of a known type is left behind. -/
theorem entry_known (h : entrySize (m s.p) = some n) : (s.entry m).p = s.p + n := by
  unfold entrySize at h
  unfold Walk.entry
  grind

/-- An entry of an unknown type is not. -/
theorem entry_unknown (h : entrySize (m s.p) = none) : s.entry m = { s with ismp := false } := by
  unfold entrySize at h
  unfold Walk.entry
  grind

theorem cpu_ncpu (h : s.ncpu ≤ NCPU) : (s.cpu m).ncpu ≤ NCPU := by
  unfold Walk.cpu
  split
  · assumption
  · exact h

theorem entry_ncpu (h : s.ncpu ≤ NCPU) : (s.entry m).ncpu ≤ NCPU := by
  have := cpu_ncpu (m := m) h
  unfold Walk.entry
  grind

/-- There are never more processors than `cpus` has room for. -/
theorem walk_ncpu (hs : s.ncpu ≤ NCPU) (h : walk m e n s = some t) : t.ncpu ≤ NCPU := by
  induction n generalizing s with
  | zero =>
      rw [walk] at h
      split at h
      · cases h
      · cases h
        exact hs
  | succ n ih =>
      rw [walk] at h
      split at h
      · exact ih (entry_ncpu hs) h
      · cases h
        exact hs

/-- Where every entry on the way is known, the walk comes to the end of the table. -/
theorem walk_finishes (n : ℕ) : ∀ s : Walk, e - s.p ≤ n →
    (∀ q, Reaches m e s.p q → q < e → (entrySize (m q)).isSome) → ∃ t, walk m e n s = some t := by
  induction n with
  | zero => exact fun s hn _ => ⟨s, by rw [walk, if_neg (by omega)]⟩
  | succ n ih =>
      intro s hn hall
      rw [walk]
      split
      · rename_i hlt
        obtain ⟨k, hk⟩ := Option.isSome_iff_exists.mp (hall s.p (.here _) hlt)
        have hpos := entrySize_pos hk
        have hp := entry_known hk
        refine ih _ (by omega) fun q hq => hall q (.next hlt hk (hp ▸ hq))
      · exact ⟨s, rfl⟩

/-- **An unknown entry is never left.** -/
theorem walk_stuck (h : Reaches m e p q) (hlt : q < e) (hno : entrySize (m q) = none) :
    ∀ (n : ℕ) (s : Walk), s.p = p → walk m e n s = none := by
  induction h with
  | here p =>
      intro n
      induction n with
      | zero =>
          rintro s rfl
          rw [walk, if_pos hlt]
      | succ n ih =>
          rintro s rfl
          rw [walk, if_pos hlt]
          exact ih _ (by rw [entry_unknown hno])
  | next hlt' hs _ ih =>
      intro n s hp
      subst hp
      cases n with
      | zero => rw [walk, if_pos hlt']
      | succ n =>
          rw [walk, if_pos hlt']
          exact ih hlt hno n _ (entry_known hs)

/-! ### The table -/

/-- The type at `q`, where an entry of the table starts, is not a known one. -/
def Unknown (m : Mem) (conf q : ℕ) : Prop :=
  Reaches m (conf + Conf.length m conf) (conf + MPCONFSIZE) q ∧ q < conf + Conf.length m conf ∧
    entrySize (m q) = none

/-- After finitely many passes the loop ends, with room for the processors found, and `mpinit` with
the panic if there is an unknown entry. -/
def EndsWell (m : Mem) (conf : ℕ) : Prop :=
  ∃ n s, walk m (conf + Conf.length m conf) n (.start conf) = some s ∧ s.ncpu ≤ NCPU ∧
    ((∃ q, Unknown m conf q) → mpinit m n = some (.error .unsuitable))

/-- **When the walk over the table ends**: when it has no entry of an unknown type. -/
theorem mpinit_ends_iff {mp conf : ℕ} (h : mpconfig m = some (mp, conf)) :
    (EndsWell m conf ↔ ∀ q, ¬ Unknown m conf q) ∧
      ((∃ q, Unknown m conf q) → ∀ n, mpinit m n = none) := by
  have hstuck : (∃ q, Unknown m conf q) → ∀ n,
      walk m (conf + Conf.length m conf) n (.start conf) = none :=
    fun ⟨_, hq, hlt, hno⟩ n => walk_stuck hq hlt hno n _ rfl
  refine ⟨⟨fun ⟨n, s, hs, _⟩ q hq => ?_, fun hall => ?_⟩, fun hq n => ?_⟩
  · rw [hstuck ⟨q, hq⟩ n] at hs
    cases hs
  · obtain ⟨s, hs⟩ := walk_finishes _ (Walk.start conf) (Nat.le_refl _) fun q hq hlt =>
      Option.isSome_iff_ne_none.mpr fun hno => hall q ⟨hq, hlt, hno⟩
    exact ⟨_, s, hs, walk_ncpu (Nat.zero_le _) hs, fun ⟨q, hq⟩ => (hall q hq).elim⟩
  · rw [mpinit, h]
    dsimp only
    rw [hstuck hq n, Option.map_none]

/-- A table with one entry, of the given type. -/
def oneEntry (type : UInt8) : Mem := fun a =>
  if a = 0x40F then 0x10
  else if 0x10000 ≤ a ∧ a < 0x10010 then
    [95, 77, 80, 95, 0, 0, 2, 0, 1, 4, 158, 0, 0, 0, 0, 0].getD (a - 0x10000) 0
  else if 0x20000 ≤ a ∧ a < 0x20008 then
    [80, 67, 77, 80, 45, 0, 4, 159 - type].getD (a - 0x20000) 0
  else if a = 0x2002C then type
  else 0

theorem mpconfig_oneEntry : mpconfig (oneEntry 1) = some (0x10000, 0x20000) ∧
    mpconfig (oneEntry 5) = some (0x10000, 0x20000) := by decide +kernel

/-- A table of one processor. -/
theorem mpinit_ends_oneEntry : EndsWell (oneEntry 1) 0x20000 := by
  refine (mpinit_ends_iff mpconfig_oneEntry.1).1.mpr fun q ⟨hq, hlt, hno⟩ => ?_
  have hlen : Conf.length (oneEntry 1) 0x20000 = 45 := by decide +kernel
  have hsize : entrySize (oneEntry 1 0x2002C) = some 8 := by decide +kernel
  rw [hlen] at hq hlt
  cases hq with
  | here => exact absurd (hno.symm.trans hsize) (by decide)
  | next _ hs hq =>
      cases hs.symm.trans hsize
      -- The entry ends behind the table.
      cases hq with
      | here => exact absurd hlt (by decide)
      | next hlt' => exact absurd hlt' (by decide)

/-- With an entry of type 5 the walk does not end. -/
theorem not_mpinit_ends : ¬ ∀ (m : Mem) (mp conf : ℕ), mpconfig m = some (mp, conf) →
    EndsWell m conf := by
  intro h
  obtain ⟨n, s, hs, -⟩ := h (oneEntry 5) 0x10000 0x20000 mpconfig_oneEntry.2
  rw [walk_stuck (.here _) (by decide) (by decide) n _ rfl] at hs
  cases hs

end Xv6.Mp

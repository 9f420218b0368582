import Mathlib.Algebra.Order.Ring.Int
import Mathlib.Data.Nat.Notation
import Mathlib.Tactic.Common
import Mathlib.Logic.Function.Basic

/-!
# Library — fixed arrays of bytes and little-endian words in them

An array of `n` bytes is a function on `Fin n`.  `get8` and `put8` read and write one byte at a
natural-number offset (reading past the end gives `0`, writing past it does nothing), and
`get32` and `put32` a little-endian word.  A word is read back as written (`get32_put32`), and a
write leaves every word it does not overlap alone (`get32_put32_of_disjoint`).
-/

namespace Lib

/-- An array of `n` bytes. -/
abbrev Bytes (n : ℕ) := Fin n → UInt8

namespace Bytes

variable {n : ℕ}

/-- A byte; outside it is 0. -/
def get8 (d : Bytes n) (o : ℕ) : UInt8 := if h : o < n then d ⟨o, h⟩ else 0

/-- A byte is written; outside nothing is. -/
def put8 (d : Bytes n) (o : ℕ) (v : UInt8) : Bytes n := fun i => if i.1 = o then v else d i

theorem get8_put8_self (d : Bytes n) {o : ℕ} (v : UInt8) (h : o < n) :
    (d.put8 o v).get8 o = v := by
  simp [get8, put8, h]

theorem get8_put8_of_ne (d : Bytes n) {o o' : ℕ} (v : UInt8) (h : o' ≠ o) :
    (d.put8 o v).get8 o' = d.get8 o' := by
  simp [get8, put8, h]

/-- The little-endian word at offset `o`. -/
def get32 (d : Bytes n) (o : ℕ) : ℕ :=
  (d.get8 o).toNat + 256 * ((d.get8 (o + 1)).toNat +
    256 * ((d.get8 (o + 2)).toNat + 256 * (d.get8 (o + 3)).toNat))

/-- Write `v`, modulo `2^32`, at offset `o`. -/
def put32 (d : Bytes n) (o v : ℕ) : Bytes n :=
  (((d.put8 o (UInt8.ofNat v)).put8 (o + 1) (UInt8.ofNat (v / 256))).put8 (o + 2)
    (UInt8.ofNat (v / 256 / 256))).put8 (o + 3) (UInt8.ofNat (v / 256 / 256 / 256))

/-- A word that was stored can be read. -/
theorem get32_put32 (d : Bytes n) {o v : ℕ} (h : o + 4 ≤ n) (hv : v < 2 ^ 32) :
    (d.put32 o v).get32 o = v := by
  have h₀ : (d.put32 o v).get8 o = UInt8.ofNat v := by
    simp [put32, get8_put8_of_ne, get8_put8_self, show o < n by omega]
  have h₁ : (d.put32 o v).get8 (o + 1) = UInt8.ofNat (v / 256) := by
    simp [put32, get8_put8_of_ne, get8_put8_self, show o + 1 < n by omega]
  have h₂ : (d.put32 o v).get8 (o + 2) = UInt8.ofNat (v / 256 / 256) := by
    simp [put32, get8_put8_of_ne, get8_put8_self, show o + 2 < n by omega]
  have h₃ : (d.put32 o v).get8 (o + 3) = UInt8.ofNat (v / 256 / 256 / 256) := by
    simp [put32, get8_put8_self, show o + 3 < n by omega]
  simp only [get32, h₀, h₁, h₂, h₃, UInt8.toNat_ofNat']
  omega

theorem get8_put32_of_disjoint (d : Bytes n) {o o' v : ℕ} (h : o' < o ∨ o + 4 ≤ o') :
    (d.put32 o v).get8 o' = d.get8 o' := by
  simp only [put32]
  rw [get8_put8_of_ne _ _ (by omega), get8_put8_of_ne _ _ (by omega),
    get8_put8_of_ne _ _ (by omega), get8_put8_of_ne _ _ (by omega)]

theorem get32_put32_of_disjoint (d : Bytes n) {o o' v : ℕ} (h : o' + 4 ≤ o ∨ o + 4 ≤ o') :
    (d.put32 o v).get32 o' = d.get32 o' := by
  simp only [get32]
  rw [get8_put32_of_disjoint _ (by omega), get8_put32_of_disjoint _ (by omega),
    get8_put32_of_disjoint _ (by omega), get8_put32_of_disjoint _ (by omega)]

/-- The `m` bytes from offset `o` on. -/
def getList (d : Bytes n) (o m : ℕ) : List UInt8 := (List.range m).map fun k => d.get8 (o + k)

/-- Write the bytes of `src` from offset `o` on. -/
def putList (d : Bytes n) (o : ℕ) (src : List UInt8) : Bytes n := fun i =>
  if o ≤ i.1 ∧ i.1 < o + src.length then src.getD (i.1 - o) 0 else d i

theorem get8_putList_of_mem (d : Bytes n) {o b : ℕ} {src : List UInt8} (hb : b < n) (hlo : o ≤ b)
    (hhi : b < o + src.length) : (d.putList o src).get8 b = src.getD (b - o) 0 := by
  simp [get8, putList, hb, hlo, hhi]

theorem get8_putList_of_not_mem (d : Bytes n) {o b : ℕ} {src : List UInt8}
    (h : b < o ∨ o + src.length ≤ b) : (d.putList o src).get8 b = d.get8 b := by
  have : ¬ (o ≤ b ∧ b < o + src.length) := by omega
  simp [get8, putList, this]

@[simp]
theorem length_getList (d : Bytes n) (o m : ℕ) : (d.getList o m).length = m := by simp [getList]

theorem getList_congr {d e : Bytes n} {o m : ℕ} (h : ∀ k < m, d.get8 (o + k) = e.get8 (o + k)) :
    d.getList o m = e.getList o m :=
  List.map_congr_left fun k hk => h k (List.mem_range.mp hk)

/-- What has been written is read back. -/
theorem getList_putList (d : Bytes n) {o : ℕ} {src : List UInt8} (h : o + src.length ≤ n) :
    (d.putList o src).getList o src.length = src := by
  refine List.ext_getElem (by simp) fun k hk hk' => ?_
  simp only [getList, List.getElem_map, List.getElem_range]
  rw [get8_putList_of_mem d (by omega) (by omega) (by omega), Nat.add_sub_cancel_left]
  simp [hk']

theorem getList_putList_of_disjoint (d : Bytes n) {o o' m : ℕ} {src : List UInt8}
    (h : o' + m ≤ o ∨ o + src.length ≤ o') : (d.putList o src).getList o' m = d.getList o' m :=
  getList_congr fun k hk => get8_putList_of_not_mem d (by omega)

end Bytes

end Lib

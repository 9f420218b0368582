import Xv6.Param
import Mathlib.Data.List.TakeWhile

/-!
# File system — layout, strings and path elements

The constants of `fs.h` and `stat.h`, the string functions of `string.c` that names go through,
directory entries as the sixteen bytes they are stored in, and `skipelem`.

A C string is the list of its bytes before the NUL; reading past the end of the list reads the
NUL.

* `namecmp_eq_zero` — two names compare equal exactly when they are the same string of at most
  `DIRSIZ` bytes.
* `Dirent.decode_encode` — an entry is read back as it was written.
* `skipelem_spec` — what one call of `skipelem` takes off a path.
-/

namespace Xv6.Fs

/-! ### `fs.h`, `stat.h`, `fcntl.h`, `param.h` -/

/-- The layout of `fs.h`. -/
def ROOTINO : ℕ := 1
def NDIRECT : ℕ := 12
def NINDIRECT : ℕ := BSIZE / 4
def MAXFILE : ℕ := NDIRECT + NINDIRECT
def DIRSIZ : ℕ := 14

/-- `sizeof(struct dirent)`. -/
def DESIZE : ℕ := 2 + DIRSIZ

/-- The types of an inode; 0 is that of a free one. -/
def T_DIR : ℤ := 1
def T_FILE : ℤ := 2
def T_DEV : ℤ := 3

/-- The modes of `open`. -/
def O_CREATE : ℕ := 0x200
def O_RDONLY : ℕ := 0
def O_WRONLY : ℕ := 1
def O_RDWR : ℕ := 2

/-- The tables of `param.h`. -/
def NINODE : ℕ := 50
def NFILE : ℕ := 100
def NOFILE : ℕ := 16
def NDEV : ℕ := 10

/-! ### Strings -/

/-- The bytes of a C string, without its NUL. -/
abbrev Str := List UInt8

/-- A string argument of a system call, as `argstr` hands it over. -/
abbrev Path := {s : Str // 0 ∉ s}

/-- `a + b < a` for two `uint`s: their sum wraps around. -/
def wraps (a b : ℕ) : Prop := 2 ^ 32 ≤ a + b

instance (a b : ℕ) : Decidable (wraps a b) := inferInstanceAs (Decidable (_ ≤ _))

/-- `*p`. -/
def deref : Str → UInt8
  | [] => 0
  | c :: _ => c

/-- `strncmp`: the difference of the first characters that differ, as unsigned ones. -/
def strncmp : Str → Str → ℕ → ℤ
  | _, _, 0 => 0
  | p, q, n + 1 =>
      if deref p ≠ 0 ∧ deref p = deref q then strncmp p.tail q.tail n
      else ((deref p).toNat : ℤ) - (deref q).toNat

/-- The `n` bytes `strncpy` writes. -/
def strncpy : Str → ℕ → List UInt8
  | _, 0 => []
  | t, n + 1 =>
      if deref t ≠ 0 then deref t :: strncpy t.tail n else List.replicate (n + 1) 0

/-- The string held in a field of `n` bytes, which may fill it without a NUL. -/
def cstr (n : ℕ) (l : List UInt8) : Str := (l.take n).takeWhile (· ≠ 0)

@[simp]
theorem cstr_zero (l : List UInt8) : cstr 0 l = [] := by simp [cstr]

/-- The first character of a string, and the others. -/
theorem cstr_succ (n : ℕ) (l : List UInt8) :
    cstr (n + 1) l = if deref l ≠ 0 then deref l :: cstr n l.tail else [] := by
  cases l with
  | nil => simp [cstr, deref]
  | cons a l =>
      by_cases ha : a = 0
      · simp [cstr, deref, ha]
      · simp [cstr, deref, ha]

/-- `strncmp` compares the strings up to their NUL, or `n` bytes. -/
theorem strncmp_eq_zero (p q : Str) (n : ℕ) : strncmp p q n = 0 ↔ cstr n p = cstr n q := by
  induction n generalizing p q with
  | zero => simp [strncmp]
  | succ n ih =>
      simp only [strncmp, cstr_succ]
      by_cases hp : deref p = 0
      · by_cases hq : deref q = 0
        · simp [hp, hq]
        · have : (deref q).toNat ≠ 0 := fun h => hq (UInt8.toNat_inj.mp (by simpa using h))
          simp [hp, hq]
          omega
      · by_cases hpq : deref p = deref q
        · rw [hpq] at hp ⊢
          simp [hp, ih]
        · have : (deref p).toNat ≠ (deref q).toNat := fun h => hpq (UInt8.toNat_inj.mp h)
          by_cases hq : deref q = 0
          · rw [hq] at this
            simpa [hp, hq] using this
          · simp [hp, hq, hpq]
            omega

/-- `strncpy` writes `n` bytes. -/
theorem length_strncpy (t : Str) (n : ℕ) : (strncpy t n).length = n := by
  induction n generalizing t with
  | zero => simp [strncpy]
  | succ n ih =>
      rw [strncpy]
      split
      · simp [ih]
      · simp

/-- The string that was copied, up to `n` bytes. -/
theorem cstr_strncpy (t : Str) (n : ℕ) : cstr n (strncpy t n) = cstr n t := by
  induction n generalizing t with
  | zero => simp
  | succ n ih =>
      rw [strncpy, cstr_succ n t]
      split
      · rename_i h
        rw [cstr_succ, if_pos (by exact h), List.tail_cons, ih]
        rfl
      · simp [cstr_succ, deref, List.replicate_succ]

theorem length_cstr_le (n : ℕ) (l : List UInt8) : (cstr n l).length ≤ n :=
  (List.takeWhile_prefix _).length_le.trans (List.length_take_le ..)

/-- A string that fits its field is the string the field holds. -/
theorem cstr_eq_self {n : ℕ} {s : Str} (h0 : 0 ∉ s) (hn : s.length ≤ n) : cstr n s = s := by
  rw [cstr, List.take_of_length_le hn, List.takeWhile_eq_self_iff]
  intro c hc
  simpa using fun h : c = 0 => h0 (h ▸ hc)

/-- Names are compared as far as an entry holds them. -/
def namecmp (s t : Str) : ℤ := strncmp s t DIRSIZ

theorem namecmp_eq_zero {s t : Str} : namecmp s t = 0 ↔ cstr DIRSIZ s = cstr DIRSIZ t :=
  strncmp_eq_zero s t DIRSIZ

/-- `"."` and `".."`. -/
def dot : Str := [46]

/-- `..` -/
def dotdot : Str := [46, 46]

/-! ### Directory entries -/

/-- `struct dirent`: an inode number and the `DIRSIZ` bytes of a name. -/
structure Dirent where
  inum : ℕ
  name : List UInt8
  deriving DecidableEq, Repr

namespace Dirent

/-- The bytes of an entry in memory and on the disk; `inum` is a `ushort`. -/
def encode (de : Dirent) : List UInt8 :=
  UInt8.ofNat de.inum :: UInt8.ofNat (de.inum / 256) :: de.name

/-- The entry that 16 bytes hold. -/
def decode (b : List UInt8) : Dirent :=
  ⟨(b.getD 0 0).toNat + 256 * (b.getD 1 0).toNat, (b.drop 2).take DIRSIZ⟩

/-- The name of an entry, as a string. -/
def str (de : Dirent) : Str := cstr DIRSIZ de.name

/-- `memset(&de, 0, sizeof(de))`. -/
def zero : Dirent := ⟨0, List.replicate DIRSIZ 0⟩

/-- The entry `dirlink` and `mkfs` write for a name. -/
def make (name : Str) (inum : ℕ) : Dirent := ⟨inum, strncpy name DIRSIZ⟩

theorem length_encode {de : Dirent} (h : de.name.length = DIRSIZ) : de.encode.length = DESIZE := by
  simp [encode, h, DESIZE, DIRSIZ]

/-- An entry can be read back. -/
theorem decode_encode {de : Dirent} (hi : de.inum < 2 ^ 16) (hn : de.name.length = DIRSIZ) :
    decode de.encode = de := by
  obtain ⟨inum, name⟩ := de
  have hlow : (UInt8.ofNat inum).toNat + 256 * (UInt8.ofNat (inum / 256)).toNat = inum := by
    simp only [UInt8.toNat_ofNat']
    simp only at hi
    omega
  have hname : name.take DIRSIZ = name := List.take_of_length_le (by simpa using hn.le)
  simp only [decode, encode]
  simp only [List.getD_cons_zero, List.getD_cons_succ, List.drop_succ_cons, List.drop_zero, hlow,
    hname]

@[simp]
theorem length_make_name (name : Str) (inum : ℕ) : (make name inum).name.length = DIRSIZ :=
  length_strncpy ..

@[simp]
theorem str_make (name : Str) (inum : ℕ) : (make name inum).str = cstr DIRSIZ name :=
  cstr_strncpy ..

end Dirent

/-! ### Path elements -/

/-- `'/'`. -/
def slash : UInt8 := 47

/-- The next element of a path, cut to `DIRSIZ` bytes, and the path after it. -/
def skipelem (path : Str) : Option (Str × Str) :=
  match path.dropWhile (· = slash) with
  | [] => none
  | c :: cs =>
      some (((c :: cs).takeWhile (· ≠ slash)).take DIRSIZ,
        ((c :: cs).dropWhile (· ≠ slash)).dropWhile (· = slash))

/-- `skipelem` takes an element off the path, cut to `DIRSIZ`. -/
theorem skipelem_spec {path name rest : Str} (h : skipelem path = some (name, rest)) :
    ∃ elem, elem ≠ [] ∧ elem.Sublist path ∧ name = elem.take DIRSIZ ∧ rest.Sublist path ∧
      rest.length + elem.length ≤ path.length := by
  unfold skipelem at h
  split at h
  · cases h
  · rename_i c cs hpath
    obtain ⟨rfl, rfl⟩ := Prod.mk.inj (Option.some.inj h)
    have hsub : (c :: cs).Sublist path := hpath ▸ List.dropWhile_sublist _
    have hc : c ≠ slash := by
      have := List.head_dropWhile_not (· = slash) (l := path) (by simp [hpath])
      simpa [hpath] using this
    have htd := congrArg List.length (List.takeWhile_append_dropWhile (p := (· ≠ slash)) (l := c :: cs))
    have hdd := (List.dropWhile_sublist (p := (· = slash)) (l := (c :: cs).dropWhile (· ≠ slash))).length_le
    have := hsub.length_le
    refine ⟨(c :: cs).takeWhile (· ≠ slash), ?_, ?_, rfl, ?_, ?_⟩
    · simp [hc]
    · exact (List.takeWhile_sublist _).trans hsub
    · exact ((List.dropWhile_sublist _).trans (List.dropWhile_sublist _)).trans hsub
    · simp only [List.length_append] at htd
      omega

/-- The elements that `n` calls of `skipelem` take off a path. -/
def elemsUpTo : ℕ → Str → List Str
  | 0, _ => []
  | n + 1, path =>
      match skipelem path with
      | none => []
      | some (name, rest) => name :: elemsUpTo n rest

/-- The elements of a path: each call of `skipelem` takes a byte off it at least. -/
def elems (path : Str) : List Str := elemsUpTo path.length path

end Xv6.Fs

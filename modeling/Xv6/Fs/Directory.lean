import Xv6.Fs.Flat
import Mathlib.Data.List.Induction

/-!
# File system — directories are finite maps

The entries of a directory, and what `dirlookup`, `dirlink`, `isdirempty` and the writes of single
entries do with them: the rules of these functions for the state inside a call.

* `entry_setEntry`, `entry_setEntry_of_ne` — an entry is read back as it was written, and the others
  as they were.
* `Node.find` — the entry of a name, and what it is after an entry is added (`find_add_self`,
  `find_add_of_ne`) or cleared (`find_remove_self`, `find_remove_of_ne`).
* `Holding.dirlookup`, `Holding.dirlink`, `Holding.isdirempty` — the rules.
-/

namespace Xv6.Fs

open Lib

/-- `de.inum != 0 && namecmp(name, de.name) == 0`. -/
def Dirent.Names (de : Dirent) (name : Str) : Prop := de.inum ≠ 0 ∧ namecmp name de.name = 0

instance (de : Dirent) (name : Str) : Decidable (de.Names name) :=
  inferInstanceAs (Decidable (_ ∧ _))

namespace Node

variable (nd : Node) (k : ℕ)

/-- The entry at offset `DESIZE * k`. -/
def entry : Dirent := Dirent.decode ((nd.bytes.drop (DESIZE * k)).take DESIZE)

/-- The number of entries, empty ones included. -/
def slots : ℕ := nd.bytes.length / DESIZE

/-- An entry of the directory is written. -/
def setEntry (de : Dirent) : Node := nd.store (DESIZE * k) de.encode

/-- The size is a whole number of entries. -/
def Aligned : Prop := DESIZE ∣ nd.bytes.length

/-- The first entry of a name. -/
def find (name : Str) : Option ℕ := (List.range nd.slots).find? fun k => (nd.entry k).Names name

/-- The inode of a name. -/
def lookup (name : Str) : Option Inum := (nd.find name).map fun k => (nd.entry k).inum

/-- The first empty entry, or the one after the last. -/
def free : ℕ := ((List.range nd.slots).find? fun k => (nd.entry k).inum = 0).getD nd.slots

/-- A directory whose entries are whole and hold numbers of inodes of the table. -/
structure IsDir (n : ℕ) : Prop where
  type : nd.type = T_DIR
  aligned : nd.Aligned
  live : ∀ k < nd.slots, (nd.entry k).inum ≠ 0 → (nd.entry k).inum < n

/-- No two entries in use have the same name. -/
def Distinct : Prop :=
  ∀ j < nd.slots, ∀ k < nd.slots, (nd.entry j).inum ≠ 0 → (nd.entry k).inum ≠ 0 →
    (nd.entry j).str = (nd.entry k).str → j = k

variable {nd k} {de : Dirent} {j : ℕ} {name name' : Str} {inum : Inum}

theorem Aligned.length_eq (h : nd.Aligned) : nd.bytes.length = DESIZE * nd.slots :=
  (Nat.mul_div_cancel' h).symm

theorem length_store (off : ℕ) (src : List UInt8) (hoff : off ≤ nd.bytes.length) :
    (nd.store off src).bytes.length = max nd.bytes.length (off + src.length) := by
  simp only [store, List.length_append, List.length_take, List.length_drop]
  omega

/-- Writing an entry makes the directory no longer than it must be. -/
theorem length_setEntry (ha : nd.Aligned) (hk : k ≤ nd.slots) (hn : de.name.length = DIRSIZ) :
    (nd.setEntry k de).bytes.length = DESIZE * max nd.slots (k + 1) := by
  have := ha.length_eq
  rw [setEntry, length_store _ _ (by rw [this]; exact Nat.mul_le_mul_left _ hk),
    Dirent.length_encode hn, this]
  rcases Nat.lt_or_ge k nd.slots with h | h
  · rw [Nat.max_eq_left (Nat.succ_le_of_lt h), Nat.max_eq_left]
    exact Nat.mul_le_mul_left DESIZE (Nat.succ_le_of_lt h)
  · obtain rfl : k = nd.slots := Nat.le_antisymm hk h
    rw [Nat.max_eq_right (Nat.le_succ _), Nat.max_eq_right (Nat.le_add_right _ _), Nat.mul_succ]

theorem aligned_setEntry (ha : nd.Aligned) (hk : k ≤ nd.slots) (hn : de.name.length = DIRSIZ) :
    (nd.setEntry k de).Aligned :=
  ⟨_, length_setEntry ha hk hn⟩

theorem slots_setEntry (ha : nd.Aligned) (hk : k ≤ nd.slots) (hn : de.name.length = DIRSIZ) :
    (nd.setEntry k de).slots = max nd.slots (k + 1) := by
  rw [slots, length_setEntry ha hk hn, Nat.mul_div_cancel_left _ (by decide)]

/-- The entry that was written. -/
theorem entry_setEntry (ha : nd.Aligned) (hk : k ≤ nd.slots) (hi : de.inum < 2 ^ 16)
    (hn : de.name.length = DIRSIZ) : (nd.setEntry k de).entry k = de := by
  have hlen := Dirent.length_encode hn
  have htake : (nd.bytes.take (DESIZE * k)).length = DESIZE * k := by
    rw [List.length_take, ha.length_eq]
    exact Nat.min_eq_left (Nat.mul_le_mul_left _ hk)
  rw [entry, setEntry, store, List.append_assoc, List.drop_left' htake, List.take_left' hlen]
  exact Dirent.decode_encode hi hn

/-- Writing one entry leaves the others. -/
theorem entry_setEntry_of_ne (ha : nd.Aligned) (hk : k ≤ nd.slots) (hn : de.name.length = DIRSIZ)
    (hj : j ≠ k) : (nd.setEntry k de).entry j = nd.entry j := by
  have hlen := Dirent.length_encode hn
  have hbytes := ha.length_eq
  have hD : DESIZE = 16 := rfl
  have hwin : (((nd.setEntry k de).bytes.drop (DESIZE * j)).take DESIZE) =
      (nd.bytes.drop (DESIZE * j)).take DESIZE := by
    refine List.ext_getElem? fun m => ?_
    simp only [setEntry, store, List.getElem?_take, List.getElem?_drop, List.getElem?_append,
      List.length_append, List.length_take, hlen, hbytes, hD]
    by_cases hm : m < 16
    · rcases Nat.lt_or_gt_of_ne hj with hlt | hgt
      · rw [if_pos hm, if_pos hm, if_pos (by omega), if_pos (by omega), if_pos (by omega)]
      · rw [if_pos hm, if_pos hm, if_neg (by omega)]
        congr 1
        omega
    · rw [if_neg hm, if_neg hm]
  rw [entry, hwin, entry]

/-! ### The entry of a name -/

/-- `find` finds the first entry of the name. -/
theorem find_spec (h : nd.find name = some k) :
    k < nd.slots ∧ (nd.entry k).Names name ∧ ∀ j < k, ¬ (nd.entry j).Names name := by
  obtain ⟨hk, i, hi, hlt, hj⟩ := List.find?_eq_some_iff_getElem.mp h
  rw [List.getElem_range] at hlt
  subst hlt
  refine ⟨by simpa using hi, by simpa using hk, fun j hji => ?_⟩
  have := hj j hji
  rw [List.getElem_range] at this
  simpa using this

theorem find_eq_none : nd.find name = none ↔ ∀ k < nd.slots, ¬ (nd.entry k).Names name := by
  simp [find, List.find?_eq_none]

/-- Where names are distinct, an entry of the name is the one found. -/
theorem Distinct.find_eq_some (h : nd.Distinct) :
    nd.find name = some k ↔ k < nd.slots ∧ (nd.entry k).Names name := by
  refine ⟨fun hf => ⟨(find_spec hf).1, (find_spec hf).2.1⟩, ?_⟩
  rintro ⟨hk, hn⟩
  cases hf : nd.find name with
  | none => exact absurd hn (find_eq_none.mp hf k hk)
  | some j =>
      obtain ⟨hj, hnj, -⟩ := find_spec hf
      have hstr : (nd.entry j).str = (nd.entry k).str :=
        (namecmp_eq_zero.mp hnj.2).symm.trans (namecmp_eq_zero.mp hn.2)
      rw [h j hj k hk hnj.1 hn.1 hstr]

theorem free_le : nd.free ≤ nd.slots := by
  unfold free
  cases hf : (List.range nd.slots).find? fun k => (nd.entry k).inum = 0 with
  | none => exact le_rfl
  | some k => exact (List.mem_range.mp (List.mem_of_find?_eq_some hf)).le

theorem free_empty (h : nd.free < nd.slots) : (nd.entry nd.free).inum = 0 := by
  unfold free at h ⊢
  cases hf : (List.range nd.slots).find? fun k => (nd.entry k).inum = 0 with
  | none =>
      rw [hf] at h
      exact absurd h (lt_irrefl _)
  | some k => simpa using List.find?_some hf

/-- Where an entry in use, or none, is at `k`, and no other entry changes, the other names stay. -/
theorem find_congr {nd' : Node} (hs : nd'.slots = max nd.slots (k + 1)) (hk : k ≤ nd.slots)
    (he : ∀ j, j ≠ k → nd'.entry j = nd.entry j)
    (hold : k < nd.slots → ¬ (nd.entry k).Names name) (hnew : ¬ (nd'.entry k).Names name) :
    nd'.find name = nd.find name := by
  have hiff : ∀ j, (j < nd'.slots ∧ (nd'.entry j).Names name) ↔
      (j < nd.slots ∧ (nd.entry j).Names name) := by
    intro j
    by_cases hj : j = k
    · subst hj
      exact iff_of_false (fun h => hnew h.2) fun h => hold h.1 h.2
    · rw [he j hj, hs]
      refine and_congr_left fun _ => ?_
      omega
  have hnames : ∀ j, (nd'.entry j).Names name → j < nd'.slots → (nd.entry j).Names name :=
    fun j hn hj => ((hiff j).mp ⟨hj, hn⟩).2
  cases hf : nd.find name with
  | none =>
      refine find_eq_none.mpr fun j hj hn => ?_
      exact find_eq_none.mp hf j ((hiff j).mp ⟨hj, hn⟩).1 (hnames j hn hj)
  | some i =>
      obtain ⟨hi, hni, hfirst⟩ := find_spec hf
      obtain ⟨hi', hni'⟩ := (hiff i).mpr ⟨hi, hni⟩
      refine List.find?_eq_some_iff_getElem.mpr ⟨by simpa using hni', i, by simpa using hi',
        List.getElem_range _, fun j hj => ?_⟩
      rw [List.getElem_range]
      simp only [Bool.not_eq_true', decide_eq_false_iff_not]
      exact fun hn => hfirst j hj (hnames j hn (hj.trans hi'))

/-- The entry of another name, or an empty one, is not that of `name`. -/
theorem not_names (h : cstr DIRSIZ name ≠ cstr DIRSIZ name') (inum : Inum) :
    ¬ (Dirent.make name' inum).Names name := by
  rintro ⟨-, hn⟩
  have := namecmp_eq_zero.mp hn
  exact h (this.trans (Dirent.str_make name' inum))

/-- The directory with the name added. -/
def add (nd : Node) (name : Str) (inum : Inum) : Node := nd.setEntry nd.free (.make name inum)

/-- The directory with entry `k` cleared. -/
def remove (nd : Node) (k : ℕ) : Node := nd.setEntry k .zero

section

variable (ha : nd.Aligned)

include ha

theorem slots_add : (nd.add name inum).slots = max nd.slots (nd.free + 1) :=
  slots_setEntry ha free_le (Dirent.length_make_name ..)

theorem aligned_add : (nd.add name inum).Aligned :=
  aligned_setEntry ha free_le (Dirent.length_make_name ..)

theorem entry_add (hi : inum < 2 ^ 16) : (nd.add name inum).entry nd.free = .make name inum :=
  entry_setEntry ha free_le hi (Dirent.length_make_name ..)

theorem entry_add_of_ne (hj : j ≠ nd.free) : (nd.add name inum).entry j = nd.entry j :=
  entry_setEntry_of_ne ha free_le (Dirent.length_make_name ..) hj

/-- **A name that is added is found**, where it was not there. -/
theorem find_add_self (hi : inum < 2 ^ 16) (h0 : inum ≠ 0) (hnone : nd.find name = none) :
    (nd.add name inum).find name = some nd.free := by
  have hslots := @slots_add nd name inum ha
  have hself : ((nd.add name inum).entry nd.free).Names name := by
    rw [entry_add ha hi]
    exact ⟨h0, namecmp_eq_zero.mpr (Dirent.str_make name inum).symm⟩
  refine List.find?_eq_some_iff_getElem.mpr ⟨by simpa using hself, nd.free, ?_,
    List.getElem_range _, fun j hj => ?_⟩
  · rw [List.length_range, hslots]
    omega
  · rw [List.getElem_range]
    simp only [Bool.not_eq_true', decide_eq_false_iff_not]
    rw [entry_add_of_ne ha hj.ne]
    exact find_eq_none.mp hnone j (hj.trans_le free_le)

/-- **The other names stay**, each in its entry. -/
theorem find_add_of_ne (hi : inum < 2 ^ 16) (h : cstr DIRSIZ name' ≠ cstr DIRSIZ name) :
    (nd.add name inum).find name' = nd.find name' := by
  refine find_congr (slots_add ha) free_le (fun j hj => entry_add_of_ne ha hj) (fun hlt => ?_) ?_
  · exact fun hn => hn.1 (free_empty hlt)
  · rw [entry_add ha hi]
    exact not_names h inum

/-- A name that was not there does not make two. -/
theorem distinct_add (hd : nd.Distinct) (hi : inum < 2 ^ 16) (hnone : nd.find name = none) :
    (nd.add name inum).Distinct := by
  -- An entry that is not the new one does not have its name.
  have hother : ∀ j, j ≠ nd.free → j < (nd.add name inum).slots →
      (nd.entry j).inum ≠ 0 → (nd.entry j).str ≠ (Dirent.make name inum).str := by
    intro j hj hlt h0 hs
    have hjs : j < nd.slots := by
      have := @slots_add nd name inum ha
      have := @free_le nd
      omega
    refine find_eq_none.mp hnone j hjs ⟨h0, namecmp_eq_zero.mpr ?_⟩
    rw [Dirent.str_make] at hs
    exact hs.symm
  intro j hj k hk hj0 hk0 hs
  by_cases hjf : j = nd.free
  · by_cases hkf : k = nd.free
    · rw [hjf, hkf]
    · subst hjf
      rw [entry_add ha hi, entry_add_of_ne ha hkf] at hs
      rw [entry_add_of_ne ha hkf] at hk0
      exact absurd hs.symm (hother k hkf hk hk0)
  · by_cases hkf : k = nd.free
    · subst hkf
      rw [entry_add ha hi, entry_add_of_ne ha hjf] at hs
      rw [entry_add_of_ne ha hjf] at hj0
      exact absurd hs (hother j hjf hj hj0)
    · rw [entry_add_of_ne ha hjf] at hj0 hs
      rw [entry_add_of_ne ha hkf] at hk0 hs
      have hslots := @slots_add nd name inum ha
      have := @free_le nd
      exact hd j (by omega) k (by omega) hj0 hk0 hs

variable (hk : k < nd.slots)

include hk

theorem slots_remove : (nd.remove k).slots = nd.slots := by
  rw [remove, slots_setEntry ha hk.le (by simp [Dirent.zero]), Nat.max_eq_left hk]

theorem aligned_remove : (nd.remove k).Aligned :=
  aligned_setEntry ha hk.le (by simp [Dirent.zero])

theorem entry_remove : (nd.remove k).entry k = .zero :=
  entry_setEntry ha hk.le (by simp [Dirent.zero]) (by simp [Dirent.zero])

theorem entry_remove_of_ne (hj : j ≠ k) : (nd.remove k).entry j = nd.entry j :=
  entry_setEntry_of_ne ha hk.le (by simp [Dirent.zero]) hj

/-- Without an entry there are no more names than before. -/
theorem distinct_remove (hd : nd.Distinct) : (nd.remove k).Distinct := by
  have hne : ∀ j, ((nd.remove k).entry j).inum ≠ 0 → j ≠ k := by
    rintro j h0 rfl
    rw [entry_remove ha hk] at h0
    exact h0 rfl
  intro i hi j hj hi0 hj0 hs
  rw [slots_remove ha hk] at hi hj
  have hik := entry_remove_of_ne ha hk (hne i hi0)
  have hjk := entry_remove_of_ne ha hk (hne j hj0)
  rw [hik] at hi0 hs
  rw [hjk] at hj0 hs
  exact hd i hi j hj hi0 hj0 hs

end

/-- **A name whose entry is cleared is gone**, where names are distinct. -/
theorem find_remove_self (ha : nd.Aligned) (hd : nd.Distinct) (h : nd.find name = some k) :
    (nd.remove k).find name = none := by
  have hk := (find_spec h).1
  refine find_eq_none.mpr fun j hj hn => ?_
  rw [slots_remove ha hk] at hj
  by_cases hjk : j = k
  · subst hjk
    rw [entry_remove ha hk] at hn
    exact hn.1 rfl
  · rw [entry_remove_of_ne ha hk hjk] at hn
    exact hjk (Option.some.inj ((hd.find_eq_some.mpr ⟨hj, hn⟩).symm.trans h))

/-- The other names stay, each in its entry. -/
theorem find_remove_of_ne (ha : nd.Aligned) (h : nd.find name = some k)
    (hne : cstr DIRSIZ name' ≠ cstr DIRSIZ name) : (nd.remove k).find name' = nd.find name' := by
  obtain ⟨hk, hn, -⟩ := find_spec h
  refine find_congr (k := k) ?_ hk.le (fun j hj => entry_remove_of_ne ha hk hj) (fun _ hn' => ?_) ?_
  · rw [slots_remove ha hk, Nat.max_eq_left hk]
  · exact hne ((namecmp_eq_zero.mp hn'.2).trans (namecmp_eq_zero.mp hn.2).symm)
  · rw [entry_remove ha hk]
    exact fun hn' => hn'.1 rfl

end Node

/-- The offsets of the entries, from entry `m` on. -/
theorem offsets_from {nd : Node} (ha : nd.Aligned) (m : ℕ) :
    offsets (m * DESIZE) nd.attr.size = (List.range' m (nd.slots - m)).map (DESIZE * ·) := by
  have hlen := ha.length_eq
  have hcount : (nd.attr.size - m * DESIZE + (DESIZE - 1)) / DESIZE = nd.slots - m := by
    simp only [Node.attr, DESIZE, DIRSIZ] at *
    omega
  rw [offsets, hcount, List.range'_eq_map_range, List.map_map]
  refine List.map_congr_left fun k _ => ?_
  simp only [Function.comp_apply]
  rw [Nat.mul_add, Nat.mul_comm m]

theorem offsets_zero {nd : Node} (ha : nd.Aligned) :
    offsets 0 nd.attr.size = (List.range' 0 nd.slots).map (DESIZE * ·) := by
  have h := offsets_from ha 0
  rwa [Nat.zero_mul, Nat.sub_zero] at h

/-! ### The rules -/

namespace Holding

variable {n : ℕ} {devsw : Devsw} {E : Stop → Prop} {N : Inum → Node} {R : Inum → ℕ}
  {held locks : List Inum} {t : Flat} {dp inum i : Inum} {name : Str} {p : CallPanic} {k : ℕ}

/-- An inode in use is not freed by a reference that is taken and dropped. -/
theorem dropped_eq (h : Holding n N R held locks t) (i : Inum) :
    dropped N (R i + held.count i) i = N := by
  refine if_neg ?_
  rintro ⟨ht, hn, h0⟩
  have := (h.unlinked i ht hn).1
  rw [h.ref i, h0] at this
  exact lt_irrefl 0 this

/-- An entry is read whole. -/
theorem readDirent (h : Holding n N R held locks t) (hi : dp ∈ locks) (hd : (N dp).IsDir n)
    (hk : k < (N dp).slots) : Prog.wp (flatOps n devsw) E (readDirent p dp (DESIZE * k))
      (fun de u => u = t ∧ de = (N dp).entry k) t := by
  have hlen := hd.aligned.length_eq
  have hsize := h.sizes dp
  have hread : Prog.wp (flatOps n devsw) E (readi dp (DESIZE * k) DESIZE) (fun r u => u = t ∧
      r = some (((N dp).bytes.drop (DESIZE * k)).take DESIZE)) t := by
    refine Prog.wp_perform.mpr (h.whenLocked hi ⟨rfl, ?_⟩)
    have hdev : ¬ (N dp).type = T_DEV := by
      rw [hd.type]
      decide
    have hfits : ¬ ((N dp).bytes.length < DESIZE * k ∨ wraps (DESIZE * k) DESIZE) := by
      simp only [wraps, MAXFILE, NDIRECT, NINDIRECT, BSIZE, DESIZE, DIRSIZ] at *
      omega
    rw [Flat.readi, h.node]
    dsimp only
    rw [if_neg hdev, if_neg hfits]
  refine Prog.wp_seq hread ?_
  rintro r u ⟨rfl, rfl⟩
  have hwhole : (((N dp).bytes.drop (DESIZE * k)).take DESIZE).length = DESIZE := by
    rw [List.length_take, List.length_drop, hlen]
    simp only [DESIZE, DIRSIZ] at *
    omega
  dsimp only
  rw [if_pos hwhole]
  exact ⟨rfl, rfl⟩

/-- An entry is written whole, where the directory may be that long. -/
theorem writeDirent {de : Dirent} (h : Holding n N R held locks t) (hi : dp ∈ locks)
    (hd : (N dp).IsDir n) (hk : k ≤ (N dp).slots) (hn : de.name.length = DIRSIZ)
    (hfull : MAXFILE * BSIZE < DESIZE * (k + 1) → E (.call p)) :
    Prog.wp (flatOps n devsw) E (writeDirent p dp (DESIZE * k) de) (fun _ u =>
      Holding n (Function.update N dp ((N dp).setEntry k de)) R held locks u) t := by
  have hlen := hd.aligned.length_eq
  have hsize := h.sizes dp
  have hdev : ¬ (N dp).type = T_DEV := by
    rw [hd.type]
    decide
  have hencode := Dirent.length_encode hn
  have hwrite : Prog.wp (flatOps n devsw) E (writei dp (DESIZE * k) de.encode) (fun r u =>
      (r = none ∧ MAXFILE * BSIZE < DESIZE * (k + 1)) ∨ r = some DESIZE ∧
        Holding n (Function.update N dp ((N dp).setEntry k de)) R held locks u) t := by
    refine Prog.wp_perform.mpr (h.whenLocked hi ?_)
    have hfits : ¬ ((N dp).bytes.length < DESIZE * k ∨ wraps (DESIZE * k) de.encode.length) := by
      simp only [wraps, MAXFILE, NDIRECT, NINDIRECT, BSIZE, DESIZE, DIRSIZ] at *
      omega
    rw [Flat.writei, h.node, if_neg hdev, if_neg hfits, hencode]
    split
    · rename_i hbig
      exact .inl ⟨rfl, hbig⟩
    · rename_i hbig
      refine .inr ⟨rfl, h.setNode hi rfl ?_⟩
      rw [Node.length_setEntry hd.aligned hk hn]
      simp only [DESIZE, DIRSIZ] at *
      omega
  refine Prog.wp_seq hwrite ?_
  rintro r u (⟨rfl, hbig⟩ | ⟨rfl, hu⟩)
  · exact hfull hbig
  · rw [if_pos rfl]
    exact hu

/-- The loop of `dirlookup`, from entry `k` on. -/
theorem dirlookupFrom (h : Holding n N R held locks t) (hi : dp ∈ locks) (hd : (N dp).IsDir n)
    (hfull : NINODE ≤ crowd n R held → E .igetNoInodes) (m : ℕ) :
    ∀ k, k + m ≤ (N dp).slots →
      Prog.wp (flatOps n devsw) E (dirlookupFrom dp name ((List.range' k m).map (DESIZE * ·)))
        (fun r u => ∃ f, f = (List.range' k m).find? (fun j => ((N dp).entry j).Names name) ∧
          r = f.map (fun j => (((N dp).entry j).inum, DESIZE * j)) ∧
          Holding n N R ((f.map fun j => ((N dp).entry j).inum).toList ++ held) locks u) t := by
  induction m with
  | zero => exact fun k _ => ⟨none, rfl, rfl, h⟩
  | succ m ih =>
      intro k hk
      rw [List.range'_succ, List.map_cons, Fs.dirlookupFrom]
      refine Prog.wp_seq (h.readDirent hi hd (by omega)) ?_
      rintro de u ⟨rfl, rfl⟩
      split
      · rename_i hmatch
        have hmatch : ((N dp).entry k).Names name := hmatch
        have hlt : ((N dp).entry k).inum < n := hd.live k (by omega) hmatch.1
        refine Prog.wp_seq (h.iget _ (fun hle => absurd hlt (not_lt.mpr hle)) hfull) ?_
        rintro r v ⟨rfl, hv⟩
        refine ⟨some k, ?_, rfl, hv⟩
        rw [List.find?_cons_of_pos (by simpa using hmatch)]
      · rename_i hmatch
        have hmatch : ¬ ((N dp).entry k).Names name := hmatch
        refine Prog.wp_mono (ih (k + 1) (by omega)) ?_
        rintro r v ⟨f, hf, hr⟩
        refine ⟨f, ?_, hr⟩
        rw [List.find?_cons_of_neg (by simpa using hmatch), hf]

/-- **`dirlookup`** takes a reference to the inode of the name. -/
theorem dirlookup (h : Holding n N R held locks t) (hi : dp ∈ locks) (hd : (N dp).IsDir n)
    (hfull : NINODE ≤ crowd n R held → E .igetNoInodes) (name : Str) :
    Prog.wp (flatOps n devsw) E (dirlookup dp name) (fun r u =>
      r = ((N dp).find name).map (fun j => (((N dp).entry j).inum, DESIZE * j)) ∧
      Holding n N R (((N dp).lookup name).toList ++ held) locks u) t := by
  refine Prog.wp_seq (h.attr hi) ?_
  rintro a u ⟨rfl, rfl⟩
  have htype : ¬ (N dp).attr.type ≠ T_DIR := not_not.mpr hd.type
  rw [if_neg htype, offsets_zero hd.aligned]
  refine Prog.wp_mono (h.dirlookupFrom hi hd hfull _ 0 (by omega)) ?_
  rintro r v ⟨f, hf, rfl, hv⟩
  rw [← List.range_eq_range'] at hf
  obtain rfl : f = (N dp).find name := hf
  exact ⟨rfl, hv⟩

/-- The loop of `dirlink`, from entry `k` on. -/
theorem dirlinkSlot (h : Holding n N R held locks t) (hi : dp ∈ locks) (hd : (N dp).IsDir n)
    (m : ℕ) : ∀ k, k + m = (N dp).slots →
      Prog.wp (flatOps n devsw) E
        (dirlinkSlot dp ((List.range' k m).map (DESIZE * ·)) (DESIZE * k)) (fun r u => u = t ∧
          r = DESIZE * ((List.range' k m).find? (fun j => ((N dp).entry j).inum = 0)).getD
            (N dp).slots) t := by
  induction m with
  | zero =>
      intro k hk
      exact ⟨rfl, congrArg (DESIZE * ·) hk⟩
  | succ m ih =>
      intro k hk
      rw [List.range'_succ, List.map_cons, Fs.dirlinkSlot]
      refine Prog.wp_seq (h.readDirent hi hd (by omega)) ?_
      rintro de u ⟨rfl, rfl⟩
      split
      · rename_i hempty
        refine ⟨rfl, ?_⟩
        rw [List.find?_cons_of_pos (by simpa using hempty)]
        rfl
      · rename_i hempty
        rw [List.find?_cons_of_neg (by simpa using hempty), ← Nat.mul_succ]
        exact ih (k + 1) (by omega)

/-- **`dirlink`** refuses a name that is there, and adds it otherwise; it panics where the directory
cannot grow, and waits for ever where the name is there for a locked inode. -/
theorem dirlink (h : Holding n N R held locks t) (hi : dp ∈ locks) (hd : (N dp).IsDir n)
    (hfull : NINODE ≤ crowd n R held → E .igetNoInodes)
    (hb : ∀ i, (N dp).lookup name = some i → i ∈ locks → E .blocked)
    (hlong : (N dp).find name = none → MAXFILE * BSIZE < DESIZE * ((N dp).free + 1) →
      E (.call .dirlink)) (inum : Inum) :
    Prog.wp (flatOps n devsw) E (dirlink dp name inum) (fun r u =>
      ((N dp).find name ≠ none ∧ r = -1 ∧ Holding n N R held locks u) ∨
        ((N dp).find name = none ∧ r = 0 ∧
          Holding n (Function.update N dp ((N dp).add name inum)) R held locks u)) t := by
  refine Prog.wp_seq (h.dirlookup hi hd hfull name) ?_
  rintro r u ⟨rfl, hu⟩
  cases hf : (N dp).find name with
  | some j =>
      have hl : (N dp).lookup name = some ((N dp).entry j).inum := by rw [Node.lookup, hf]; rfl
      rw [hl] at hu
      refine Prog.wp_seq (Holding.iput hu fun hm => hb _ hl hm) ?_
      rintro _ v ⟨-, hv⟩
      have hv : Holding n (dropped N (R _ + held.count _) _) R held locks v := hv
      rw [h.dropped_eq] at hv
      exact .inl ⟨Option.some_ne_none j, rfl, hv⟩
  | none =>
      have hl : (N dp).lookup name = none := by rw [Node.lookup, hf]; rfl
      rw [hl] at hu
      refine Prog.wp_seq (Holding.attr hu hi) ?_
      rintro a v ⟨rfl, rfl⟩
      rw [offsets_zero hd.aligned]
      refine Prog.wp_seq (Holding.dirlinkSlot hu hi hd _ 0 (Nat.zero_add _)) ?_
      rintro off v ⟨rfl, rfl⟩
      rw [← List.range_eq_range']
      refine Prog.wp_seq (Holding.writeDirent hu hi hd Node.free_le
        (Dirent.length_make_name ..) (hlong hf)) ?_
      intro _ w hw
      exact .inr ⟨rfl, rfl, hw⟩

/-- The loop of `isdirempty`, from entry `k` on. -/
theorem isdiremptyFrom (h : Holding n N R held locks t) (hi : dp ∈ locks) (hd : (N dp).IsDir n)
    (m : ℕ) : ∀ k, k + m ≤ (N dp).slots → Prog.wp (flatOps n devsw) E
      (isdiremptyFrom dp ((List.range' k m).map (DESIZE * ·)))
      (fun r u => u = t ∧ (r = true ↔ ∀ j, k ≤ j → j < k + m → ((N dp).entry j).inum = 0)) t := by
  induction m with
  | zero => exact fun k _ => ⟨rfl, iff_of_true rfl fun j hk hj => absurd hk (Nat.not_le_of_lt hj)⟩
  | succ m ih =>
      intro k hk
      rw [List.range'_succ, List.map_cons, Fs.isdiremptyFrom]
      refine Prog.wp_seq (h.readDirent hi hd (by omega)) ?_
      rintro de u ⟨rfl, rfl⟩
      split
      · rename_i hused
        refine ⟨rfl, iff_of_false Bool.false_ne_true fun hall => hused ?_⟩
        exact hall k le_rfl (by omega)
      · rename_i hempty
        refine Prog.wp_mono (ih (k + 1) (by omega)) ?_
        rintro r v ⟨rfl, hr⟩
        refine ⟨rfl, hr.trans ⟨fun hall j hkj hj => ?_, fun hall j hkj hj => ?_⟩⟩
        · rcases Nat.eq_or_lt_of_le hkj with rfl | hkj
          · exact not_not.mp hempty
          · exact hall j hkj (by omega)
        · exact hall j (by omega) (by omega)

/-- **`isdirempty`**: no entry but the first two. -/
theorem isdirempty (h : Holding n N R held locks t) (hi : dp ∈ locks) (hd : (N dp).IsDir n) :
    Prog.wp (flatOps n devsw) E (isdirempty dp) (fun r u => u = t ∧
      (r = true ↔ ∀ j, 2 ≤ j → j < (N dp).slots → ((N dp).entry j).inum = 0)) t := by
  refine Prog.wp_seq (h.attr hi) ?_
  rintro a u ⟨rfl, rfl⟩
  rw [offsets_from hd.aligned]
  rcases Nat.lt_or_ge (N dp).slots 2 with hfew | htwo
  · rw [Nat.sub_eq_zero_of_le hfew.le]
    exact ⟨rfl, iff_of_true rfl fun j h2 hj => by omega⟩
  · refine Prog.wp_mono (h.isdiremptyFrom hi hd _ 2 (by omega)) ?_
    rintro r v ⟨rfl, hr⟩
    refine ⟨rfl, hr.trans (forall_congr' fun j => imp_congr_right fun _ => ?_)⟩
    rw [Nat.add_sub_cancel' htwo]

end Holding

end Xv6.Fs

import Xv6.Fs.During
import Xv6.Fs.Filewrite

/-!
# File system — the system calls, among others

The rules of the system calls for a process that runs among others.

* `During.sys_link`, `During.sys_unlink`, `During.create`, `During.sys_open`, `During.sys_chdir` —
  the calls give back every lock, and every reference but the one they return.
* `During.fileread`, `During.filewrite` — the calls on an open file.
-/

namespace Xv6.Fs

open Lib

/-! ### The calls, among others -/

/-- Two inodes are locked. -/
def bothLocked (dp ip : Inum) (nd ni : Node) : Inum → Option Node :=
  Function.update (Function.update noLocks dp (some nd)) ip (some ni)

section

variable {dp ip : Inum} {nd nd' ni ni' : Node}

theorem update_noLocks : Function.update noLocks ip none = noLocks := Function.update_eq_self ip noLocks

theorem bothLocked_right : bothLocked dp ip nd ni ip = some ni := Function.update_self ..

theorem update_right : Function.update (bothLocked dp ip nd ni) ip (some ni') =
    bothLocked dp ip nd ni' := Function.update_idem ..

variable (hne : dp ≠ ip)

include hne

theorem bothLocked_left : bothLocked dp ip nd ni dp = some nd := by
  rw [bothLocked, Function.update_of_ne hne, Function.update_self]

theorem update_left : Function.update (bothLocked dp ip nd ni) dp (some nd') =
    bothLocked dp ip nd' ni := by
  rw [bothLocked, Function.update_comm hne, Function.update_idem, Function.update_comm hne.symm]
  rfl

theorem unlock_left : Function.update (bothLocked dp ip nd ni) dp none =
    Function.update noLocks ip (some ni) := by
  rw [bothLocked, Function.update_comm hne, Function.update_idem, Function.update_comm hne.symm,
    update_noLocks]

end

namespace During

variable {n : ℕ} {devsw : Devsw} {v u : Local} {more : Multiset Inum} {k : Inum → Option Node}
  {dp ip cwd : Inum} {nd ni : Node} {name : Str}

theorem mem_more (i : Inum) (more held : Multiset Inum) : i ∈ i ::ₘ more + held :=
  Multiset.mem_add.mpr (.inl (Multiset.mem_cons_self i more))

theorem mem_cons (i : Inum) (h : cwd ∈ more + v.held) : cwd ∈ i ::ₘ more + v.held := by
  rw [Multiset.cons_add]
  exact Multiset.mem_cons_of_mem h

theorem update_self {x : Option Node} : Function.update k ip x ip = x := Function.update_self ..

/-- The return of a call. -/
theorem return_ {α : Type} {r : α} (h : During v more k u) :
    Safe n devsw (do Fs.end_op; pure r) (fun _ w => During v more k w) u :=
  Prog.lwp_seq h.end_op fun _ _ hw => hw

/-- The cleanup of `sys_link` is safe. -/
theorem cleanupsyslink (h : During v (ip ::ₘ more) noLocks u) :
    Safe n devsw (cleanupsyslink ip) (fun _ w => During v more noLocks w) u := by
  refine Prog.lwp_seq (h.ilock (mem_more ip ..)) ?_
  rintro _ w ⟨-, -, nd, -, -, hw⟩
  refine Prog.lwp_seq (hw.addLink update_self _) ?_
  intro _ x hx
  refine Prog.lwp_seq (hx.iunlockput update_self) ?_
  intro _ y hy
  rw [Function.update_idem, Function.update_idem, update_noLocks] at hy
  exact hy.end_op

/-- `sys_link` is safe in any state between calls. -/
theorem sys_link (h : During v more noLocks u) (hn : n ≤ 2 ^ 16) (hroot : ROOTINO < n)
    (hcwd : cwd ∈ more + v.held) (old new : Str) :
    Safe n devsw (sys_link cwd old new) (fun _ w => During v more noLocks w) u := by
  refine Prog.lwp_seq h.begin_op ?_
  intro _ u₁ h₁
  refine Prog.lwp_seq (h₁.namei hroot hcwd old) ?_
  intro r u₂ h₂
  cases r with
  | none => exact return_ (by simpa using h₂)
  | some ip =>
      have h₂ : During v (ip ::ₘ more) noLocks u₂ := by simpa using h₂
      refine Prog.lwp_seq (h₂.ilock (mem_more ip ..)) ?_
      rintro _ u₃ ⟨-, hlt, ni, -, -, h₃⟩
      refine Prog.lwp_seq (h₃.attr update_self) ?_
      rintro a u₃ ⟨rfl, rfl⟩
      split
      · refine Prog.lwp_seq (h₃.iunlockput update_self) ?_
        intro _ u₄ h₄
        rw [unlocked rfl] at h₄
        exact return_ h₄
      · refine Prog.lwp_seq (h₃.addLink update_self 1) ?_
        intro _ u₄ h₄
        refine Prog.lwp_seq (h₄.iunlock update_self) ?_
        rintro _ u₅ ⟨-, h₅⟩
        rw [Function.update_idem, unlocked rfl] at h₅
        refine Prog.lwp_seq (h₅.nameiparent hroot (mem_cons ip hcwd) new) ?_
        rintro r u₆ ⟨h₆, hdir⟩
        cases r with
        | none =>
            have h₆ : During v (ip ::ₘ more) noLocks u₆ := by simpa using h₆
            exact Prog.lwp_seq h₆.cleanupsyslink fun _ _ hw => hw
        | some d =>
            obtain ⟨dp, name⟩ := d
            have h₆ : During v (dp ::ₘ ip ::ₘ more) noLocks u₆ := by
              rw [Multiset.cons_swap]
              simpa using h₆
            refine Prog.lwp_seq (h₆.ilock (mem_more dp ..)) ?_
            rintro _ u₇ ⟨-, -, nd, hg, htype, h₇⟩
            have hd : nd.type = T_DIR := htype _ (hdir _ rfl)
            refine Prog.lwp_seq (h₇.dirlink update_self hg hd hn name hlt) ?_
            rintro r u₈ (⟨-, rfl, h₈⟩ | ⟨-, rfl, -, h₈⟩)
            · rw [if_pos (by decide)]
              refine Prog.lwp_seq (h₈.iunlockput update_self) ?_
              intro _ u₉ h₉
              rw [unlocked rfl] at h₉
              exact Prog.lwp_seq h₉.cleanupsyslink fun _ _ hw => hw
            · rw [if_neg (by decide)]
              refine Prog.lwp_seq (h₈.iunlockput update_self) ?_
              intro _ u₉ h₉
              rw [Function.update_idem, unlocked rfl] at h₉
              refine Prog.lwp_seq h₉.iput ?_
              rintro _ w ⟨-, hw⟩
              exact return_ hw

/-- `sys_unlink` is safe in any state between calls. -/
theorem sys_unlink (h : During v more noLocks u) (hroot : ROOTINO < n)
    (hcwd : cwd ∈ more + v.held) (path : Str) :
    Safe n devsw (sys_unlink cwd path) (fun _ w => During v more noLocks w) u := by
  refine Prog.lwp_seq h.begin_op ?_
  intro _ u₁ h₁
  refine Prog.lwp_seq (h₁.nameiparent hroot hcwd path) ?_
  rintro r u₂ ⟨h₂, hdir⟩
  cases r with
  | none => exact return_ (by simpa using h₂)
  | some d =>
      obtain ⟨dp, name⟩ := d
      have h₂ : During v (dp ::ₘ more) noLocks u₂ := by simpa using h₂
      refine Prog.lwp_seq (h₂.ilock (mem_more dp ..)) ?_
      rintro _ u₃ ⟨-, -, nd, hg, htype, h₃⟩
      have hd : nd.type = T_DIR := htype _ (hdir _ rfl)
      have hfail : ∀ u, During v (dp ::ₘ more) (Function.update noLocks dp (some nd)) u →
          Safe n devsw (do Fs.iunlockput dp; Fs.end_op; pure (-1 : ℤ))
            (fun _ w => During v more noLocks w) u := by
        intro u hu
        refine Prog.lwp_seq (hu.iunlockput update_self) ?_
        intro _ w hw
        rw [unlocked rfl] at hw
        exact return_ hw
      split
      · exact hfail u₃ h₃
      · refine Prog.lwp_seq (h₃.dirlookup update_self hg hd name) ?_
        rintro r u₄ ⟨rfl, h₄⟩
        cases hf : nd.find name with
        | none =>
            have hl : nd.lookup name = none := by rw [Node.lookup, hf]; rfl
            rw [hl] at h₄
            exact hfail u₄ (by simpa using h₄)
        | some j =>
            have hl : nd.lookup name = some (nd.entry j).inum := by rw [Node.lookup, hf]; rfl
            have hj : j < nd.slots := (Node.find_spec hf).1
            rw [hl] at h₄
            rw [Option.map_some]
            dsimp only
            generalize (nd.entry j).inum = ip at h₄ ⊢
            have h₄ : During v (dp ::ₘ ip ::ₘ more) (Function.update noLocks dp (some nd)) u₄ := by
              simpa using h₄
            refine Prog.lwp_seq (h₄.ilock (mem_cons dp (mem_more ip ..))) ?_
            rintro _ u₅ ⟨hfree, -, ni, hgi, -, h₅⟩
            have hne : dp ≠ ip := by
              rintro rfl
              rw [update_self] at hfree
              cases hfree
            have h₅ : During v (dp ::ₘ ip ::ₘ more) (bothLocked dp ip nd ni) u₅ := h₅
            refine Prog.lwp_seq (h₅.attr bothLocked_right) ?_
            rintro a u₅ ⟨rfl, rfl⟩
            -- The inode stays: its directory is not empty.
            have hstay : Safe n devsw (do
                Fs.iunlockput ip
                Fs.iunlockput dp
                Fs.end_op
                pure (-1 : ℤ)) (fun _ w => During v more noLocks w) u₅ := by
              rw [Multiset.cons_swap] at h₅
              refine Prog.lwp_seq (h₅.iunlockput bothLocked_right) ?_
              intro _ u₆ h₆
              rw [bothLocked, unlocked (Function.update_of_ne hne.symm _ noLocks)] at h₆
              exact hfail u₆ h₆
            -- Its entry is cleared, and it loses a link.
            have hgone : ∀ nd' w, During v (dp ::ₘ ip ::ₘ more) (bothLocked dp ip nd' ni) w →
                Safe n devsw (do
                  Fs.iunlockput dp
                  Fs.addLink ip (-1)
                  Fs.iunlockput ip
                  Fs.end_op
                  pure (0 : ℤ)) (fun _ w => During v more noLocks w) w := by
              intro nd' w hw
              refine Prog.lwp_seq (hw.iunlockput (bothLocked_left hne)) ?_
              intro _ x hx
              rw [unlock_left hne] at hx
              refine Prog.lwp_seq (hx.addLink update_self _) ?_
              intro _ y hy
              refine Prog.lwp_seq (hy.iunlockput update_self) ?_
              intro _ z hz
              rw [Function.update_idem, unlocked rfl] at hz
              exact return_ hz
            have hclear : Safe n devsw (Fs.writeDirent .unlinkWritei dp (DESIZE * j) .zero) _ u₅ :=
              h₅.writeDirent (bothLocked_left hne) hg hd hj.le (List.length_replicate ..)
                (fun _ => hg.remove hd hj) fun hfull => absurd hfull (hg.fits hd hj)
            split
            · exact ⟨.inr (.inl rfl), fun r => r.elim⟩
            · split
              · rename_i hdir
                refine Prog.lwp_seq (h₅.isdirempty bothLocked_right hgi hdir) ?_
                rintro empty u₅ rfl
                split
                · exact hstay
                · refine Prog.lwp_seq hclear ?_
                  rintro _ u₆ ⟨-, h₆⟩
                  rw [update_left hne] at h₆
                  refine Prog.lwp_seq (h₆.addLink (bothLocked_left hne) _) ?_
                  intro _ u₇ h₇
                  rw [update_left hne] at h₇
                  exact hgone _ u₇ h₇
              · refine Prog.lwp_seq (show Safe n devsw (pure true) (fun e w => e = true ∧ w = u₅) u₅ from
                  ⟨rfl, rfl⟩) ?_
                rintro _ u₅ ⟨rfl, rfl⟩
                rw [if_neg (by simp)]
                refine Prog.lwp_seq hclear ?_
                rintro _ u₆ ⟨-, h₆⟩
                rw [update_left hne] at h₆
                exact hgone _ u₆ h₆

/-- `"."` and `".."` are added to the new directory, and the old one has a link more. -/
theorem createDots (h : During v more (bothLocked dp ip nd ni) u) (hne : dp ≠ ip) (hn : n ≤ 2 ^ 16)
    (hdp : dp < n) (hip : ip < n) (hg : ni.Good n) (hd : ni.type = T_DIR) :
    Safe n devsw (createDots dp ip) (fun _ w => ∃ ni', ni'.Good n ∧ ni'.type = T_DIR ∧
      During v more (bothLocked dp ip (nd.link 1) ni') w) u := by
  refine Prog.lwp_seq (h.addLink (bothLocked_left hne) 1) ?_
  intro _ u₁ h₁
  rw [update_left hne] at h₁
  refine Prog.lwp_seq (h₁.dirlink bothLocked_right hg hd hn dot hip) ?_
  rintro r u₂ (⟨-, rfl, h₂⟩ | ⟨-, rfl, hg₂, h₂⟩)
  · rw [if_pos (by decide)]
    exact ⟨.inr (.inr (.inl rfl)), fun r => r.elim⟩
  · rw [update_right] at h₂
    rw [if_neg (by decide)]
    refine Prog.lwp_seq (h₂.dirlink bothLocked_right hg₂ hd hn dotdot hdp) ?_
    rintro r u₃ (⟨-, rfl, h₃⟩ | ⟨-, rfl, hg₃, h₃⟩)
    · rw [if_pos (by decide)]
      exact ⟨.inr (.inr (.inl rfl)), fun r => r.elim⟩
    · rw [update_right] at h₃
      rw [if_neg (by decide)]
      exact ⟨_, hg₃, hd, h₃⟩

/-- **`create`** returns nothing, or an inode of the type that was asked for, locked. -/
theorem create (h : During v more noLocks u) (hn : n ≤ 2 ^ 16) (hroot : ROOTINO < n)
    (hcwd : cwd ∈ more + v.held) (path : Str) {type : ℤ} (h0 : type ≠ 0) (major minor : ℤ) :
    Safe n devsw (create cwd path type major minor) (fun r w =>
      (r = none ∧ During v more noLocks w) ∨ ∃ ip nd, r = some ip ∧ nd.Good n ∧ nd.type = type ∧
        During v (ip ::ₘ more) (Function.update noLocks ip (some nd)) w) u := by
  refine Prog.lwp_seq (h.nameiparent hroot hcwd path) ?_
  rintro r u₁ ⟨h₁, hdir⟩
  cases r with
  | none => exact .inl ⟨rfl, by simpa using h₁⟩
  | some d =>
      obtain ⟨dp, name⟩ := d
      have h₁ : During v (dp ::ₘ more) noLocks u₁ := by simpa using h₁
      refine Prog.lwp_seq (h₁.ilock (mem_more dp ..)) ?_
      rintro _ u₂ ⟨-, hdp, nd, hg, htype, h₂⟩
      have hd : nd.type = T_DIR := htype _ (hdir _ rfl)
      refine Prog.lwp_seq (h₂.dirlookup update_self hg hd name) ?_
      rintro r u₃ ⟨rfl, h₃⟩
      cases hf : nd.find name with
      | some j =>
          have hl : nd.lookup name = some (nd.entry j).inum := by rw [Node.lookup, hf]; rfl
          rw [hl] at h₃
          rw [Option.map_some]
          dsimp only
          -- The name is there: the inode is returned if both are files.
          generalize (nd.entry j).inum = ip at h₃ ⊢
          have h₃ : During v (dp ::ₘ ip ::ₘ more) (Function.update noLocks dp (some nd)) u₃ := by
            simpa using h₃
          refine Prog.lwp_seq (h₃.iunlockput update_self) ?_
          intro _ u₄ h₄
          rw [unlocked rfl] at h₄
          refine Prog.lwp_seq (h₄.ilock (mem_more ip ..)) ?_
          rintro _ u₅ ⟨-, -, ni, hgi, -, h₅⟩
          refine Prog.lwp_seq (h₅.attr update_self) ?_
          rintro a u₅ ⟨rfl, rfl⟩
          split
          · rename_i hfile
            exact .inr ⟨ip, ni, rfl, hgi, hfile.2.trans hfile.1.symm, h₅⟩
          · refine Prog.lwp_seq (h₅.iunlockput update_self) ?_
            intro _ u₆ h₆
            rw [unlocked rfl] at h₆
            exact .inl ⟨rfl, h₆⟩
      | none =>
          have hl : nd.lookup name = none := by rw [Node.lookup, hf]; rfl
          rw [hl] at h₃
          have h₃ : During v (dp ::ₘ more) (Function.update noLocks dp (some nd)) u₃ := by
            simpa using h₃
          refine Prog.lwp_seq (h₃.ialloc h0) ?_
          rintro ip u₄ ⟨hip, h₄, hkind⟩
          refine Prog.lwp_seq (h₄.ilock (mem_more ip ..)) ?_
          rintro _ u₅ ⟨hfree, -, ni, hgi, htypei, h₅⟩
          have hne : dp ≠ ip := by
            rintro rfl
            rw [update_self] at hfree
            cases hfree
          have h₅ : During v (ip ::ₘ dp ::ₘ more) (bothLocked dp ip nd ni) u₅ := h₅
          have hti : ni.type = type := htypei type hkind
          refine Prog.lwp_seq (h₅.iupdate bothLocked_right major minor 1) ?_
          intro _ u₆ h₆
          rw [update_right] at h₆
          -- The directory still lacks the name, and gets it.
          have hadd : ∀ nd' ni' w, nd'.Good n → nd'.type = T_DIR → nd'.find name = none →
              ni'.Good n → ni'.type = type →
              During v (ip ::ₘ dp ::ₘ more) (bothLocked dp ip nd' ni') w →
              Safe n devsw (do
                if (← Fs.dirlink dp name ip) < 0 then panic .createDirlink
                else
                  Fs.iunlockput dp
                  pure (some ip)) (fun r w =>
                (r = none ∧ During v more noLocks w) ∨ ∃ ip nd, r = some ip ∧ nd.Good n ∧
                  nd.type = type ∧
                    During v (ip ::ₘ more) (Function.update noLocks ip (some nd)) w) w := by
            intro nd' ni' w hg' hd' hf' hgi' hti' hw
            refine Prog.lwp_seq (hw.dirlink (bothLocked_left hne) hg' hd' hn name hip) ?_
            rintro r x (⟨hno, -⟩ | ⟨-, rfl, -, hx⟩)
            · exact absurd hf' hno
            · rw [if_neg (by decide)]
              rw [update_left hne, Multiset.cons_swap] at hx
              refine Prog.lwp_seq (hx.iunlockput (bothLocked_left hne)) ?_
              intro _ y hy
              rw [unlock_left hne] at hy
              exact .inr ⟨ip, ni', rfl, hgi', hti', hy⟩
          split
          · rename_i hdirtype
            refine Prog.lwp_seq (h₆.createDots hne hn hdp hip hgi.setFields (hti.trans hdirtype)) ?_
            rintro _ u₇ ⟨ni', hg', hd', h₇⟩
            have hg₁ : (nd.link 1).Good n := hg.setFields
            have hf₁ : (nd.link 1).find = nd.find := Node.find_congr_bytes rfl
            exact hadd (nd.link 1) ni' u₇ hg₁ hd (hf₁ ▸ hf) hg' (hd'.trans hdirtype.symm) h₇
          · exact hadd nd (ni.setFields major minor 1) u₆ hg hd hf hgi.setFields hti h₆

/-- **`sys_open`** of an inode that is not a directory, unless it is opened for reading only. -/
theorem sys_open (h : During v more noLocks u) (hn : n ≤ 2 ^ 16) (hroot : ROOTINO < n)
    (hcwd : cwd ∈ more + v.held) (path : Option Str) (omode : ℕ) (full : Bool) :
    Safe n devsw (sys_open cwd path omode full) (fun r w =>
      During v (r.toList + more) noLocks w ∧ (full = true → r = none) ∧
        ∀ ip ∈ r, omode ≠ O_RDONLY → ∃ type, w.kind ip = some type ∧ type ≠ T_DIR) u := by
  -- Without a file, the operation ends.
  have hnone : ∀ w, During v more noLocks w →
      Safe n devsw (do Fs.end_op; pure (none : Option Inum)) (fun r w =>
        During v (r.toList + more) noLocks w ∧ (full = true → r = none) ∧
          ∀ ip ∈ r, omode ≠ O_RDONLY → ∃ type, w.kind ip = some type ∧ type ≠ T_DIR) w := by
    intro w hw
    refine Prog.lwp_seq hw.end_op ?_
    intro _ x hx
    refine Prog.lwp_pure.mpr ⟨by simpa using hx, fun _ => rfl, fun ip hip => by cases hip⟩
  cases path with
  | none => exact Prog.lwp_pure.mpr ⟨by simpa using h, fun _ => rfl, fun ip hip => by cases hip⟩
  | some path =>
      refine Prog.lwp_seq h.begin_op ?_
      intro _ u₁ h₁
      -- The end of `sys_open`, for a file that was created and for one that was there.
      have hsome : ∀ ip nd w, (omode ≠ O_RDONLY → nd.type ≠ T_DIR) →
          During v (ip ::ₘ more) (Function.update noLocks ip (some nd)) w →
          Safe n devsw (if full then do
              Fs.iunlockput ip
              Fs.end_op
              pure none
            else do
              Fs.iunlock ip
              Fs.end_op
              pure (some ip)) (fun r w => During v (r.toList + more) noLocks w ∧
                (full = true → r = none) ∧
                  ∀ ip ∈ r, omode ≠ O_RDONLY → ∃ type, w.kind ip = some type ∧ type ≠ T_DIR) w := by
        intro ip nd w hmode hw
        split
        · refine Prog.lwp_seq (hw.iunlockput update_self) ?_
          intro _ x hx
          rw [unlocked rfl] at hx
          exact hnone x hx
        · rename_i hfull
          refine Prog.lwp_seq (hw.iunlock update_self) ?_
          rintro _ x ⟨hkind, hx⟩
          rw [unlocked rfl] at hx
          refine Prog.lwp_perform trivial ?_
          rintro _ y rfl
          refine ⟨by simpa using hx, fun hf => absurd hf hfull, fun j hj ho => ?_⟩
          obtain rfl := Option.mem_some_iff.mp hj
          exact ⟨nd.type, hkind, hmode ho⟩
      have hfile : T_FILE ≠ 0 := by decide
      dsimp only
      by_cases hcreate : omode &&& O_CREATE ≠ 0
      · rw [if_pos hcreate]
        refine Prog.lwp_seq (h₁.create hn hroot hcwd path hfile 0 0) ?_
        rintro r w (⟨rfl, hw⟩ | ⟨ip, nd, rfl, -, htype, hw⟩)
        · exact hnone w hw
        · exact hsome ip nd w (fun _ => by rw [htype]; decide) hw
      · rw [if_neg hcreate]
        have hexisting : Safe n devsw (openExisting cwd path omode) (fun r w =>
            (r = none ∧ During v more noLocks w) ∨ ∃ ip nd, r = some ip ∧
              (omode ≠ O_RDONLY → nd.type ≠ T_DIR) ∧
                During v (ip ::ₘ more) (Function.update noLocks ip (some nd)) w) u₁ := by
          refine Prog.lwp_seq (h₁.namei hroot hcwd path) ?_
          intro r u₂ h₂
          cases r with
          | none => exact .inl ⟨rfl, by simpa using h₂⟩
          | some ip =>
              have h₂ : During v (ip ::ₘ more) noLocks u₂ := by simpa using h₂
              refine Prog.lwp_seq (h₂.ilock (mem_more ip ..)) ?_
              rintro _ u₃ ⟨-, -, nd, -, -, h₃⟩
              refine Prog.lwp_seq (h₃.attr update_self) ?_
              rintro a u₃ ⟨rfl, rfl⟩
              split
              · refine Prog.lwp_seq (h₃.iunlockput update_self) ?_
                intro _ u₄ h₄
                rw [unlocked rfl] at h₄
                exact .inl ⟨rfl, h₄⟩
              · rename_i hmode
                exact .inr ⟨ip, nd, rfl, fun ho ht => hmode ⟨ht, ho⟩, h₃⟩
        refine Prog.lwp_seq hexisting ?_
        rintro r w (⟨rfl, hw⟩ | ⟨ip, nd, rfl, hmode, hw⟩)
        · exact hnone w hw
        · exact hsome ip nd w hmode hw

/-- Making a file, or a directory, is safe. -/
theorem make (h : During v more noLocks u) (hn : n ≤ 2 ^ 16) (hroot : ROOTINO < n)
    (hcwd : cwd ∈ more + v.held) (path : Str) {type : ℤ} (h0 : type ≠ 0) (major minor : ℤ) :
    Safe n devsw (make cwd path type major minor) (fun _ w => During v more noLocks w) u := by
  refine Prog.lwp_seq (h.create hn hroot hcwd path h0 major minor) ?_
  rintro r w (⟨rfl, hw⟩ | ⟨ip, nd, rfl, -, -, hw⟩)
  · exact return_ hw
  · refine Prog.lwp_seq (hw.iunlockput update_self) ?_
    intro _ x hx
    rw [unlocked rfl] at hx
    exact return_ hx

/-- `sys_mkdir` is safe in any state between calls. -/
theorem sys_mkdir (h : During v more noLocks u) (hn : n ≤ 2 ^ 16) (hroot : ROOTINO < n)
    (hcwd : cwd ∈ more + v.held) (path : Option Str) :
    Safe n devsw (sys_mkdir cwd path) (fun _ w => During v more noLocks w) u := by
  refine Prog.lwp_seq h.begin_op ?_
  intro _ w hw
  cases path with
  | none => exact return_ hw
  | some path => exact hw.make hn hroot hcwd path (show T_DIR ≠ 0 by decide) 0 0

/-- `sys_mknod` is safe in any state between calls. -/
theorem sys_mknod (h : During v more noLocks u) (hn : n ≤ 2 ^ 16) (hroot : ROOTINO < n)
    (hcwd : cwd ∈ more + v.held) (path : Option Str) (major minor : Option ℤ) :
    Safe n devsw (sys_mknod cwd path major minor) (fun _ w => During v more noLocks w) u := by
  refine Prog.lwp_seq h.begin_op ?_
  intro _ w hw
  split
  · exact hw.make hn hroot hcwd _ (show T_DEV ≠ 0 by decide) _ _
  · exact return_ hw

/-- **`sys_chdir`** gives the current directory up for another, or keeps it. -/
theorem sys_chdir (h : During v (cwd ::ₘ more) noLocks u) (hroot : ROOTINO < n)
    (path : Option Str) :
    Safe n devsw (sys_chdir cwd path) (fun r w => During v (r.getD cwd ::ₘ more) noLocks w) u := by
  have hnone : ∀ w, During v (cwd ::ₘ more) noLocks w →
      Safe n devsw (do Fs.end_op; pure (none : Option Inum))
        (fun r w => During v (r.getD cwd ::ₘ more) noLocks w) w :=
    fun w hw => Prog.lwp_seq hw.end_op fun _ _ hx => hx
  refine Prog.lwp_seq h.begin_op ?_
  intro _ u₁ h₁
  cases path with
  | none => exact hnone u₁ h₁
  | some path =>
      refine Prog.lwp_seq (h₁.namei hroot (mem_more cwd ..) path) ?_
      intro r u₂ h₂
      cases r with
      | none => exact hnone u₂ (by simpa using h₂)
      | some ip =>
          have h₂ : During v (ip ::ₘ cwd ::ₘ more) noLocks u₂ := by
            rw [Multiset.cons_swap]
            simpa using h₂
          refine Prog.lwp_seq (h₂.ilock (mem_more ip ..)) ?_
          rintro _ u₃ ⟨-, -, nd, -, -, h₃⟩
          refine Prog.lwp_seq (h₃.attr update_self) ?_
          rintro a u₃ ⟨rfl, rfl⟩
          split
          · refine Prog.lwp_seq (h₃.iunlockput update_self) ?_
            intro _ u₄ h₄
            rw [unlocked rfl] at h₄
            exact hnone u₄ h₄
          · refine Prog.lwp_seq (h₃.iunlock update_self) ?_
            rintro _ u₄ ⟨-, h₄⟩
            rw [unlocked rfl, Multiset.cons_swap] at h₄
            refine Prog.lwp_seq h₄.iput ?_
            rintro _ u₅ ⟨-, h₅⟩
            exact Prog.lwp_seq h₅.end_op fun _ _ hx => hx

/-- A program that only reads a locked inode. -/
theorem reads {α : Type} {p : Call α} (h : During v more k u) (hi : k ip = some nd)
    (hp : p.Only fun o => ∃ off m, o = .readi ip off m) : Safe n devsw p (fun _ w => w = u) u := by
  induction p with
  | ret a => exact rfl
  | op o q ih =>
      obtain ⟨⟨off, m, rfl⟩, hq⟩ := hp
      refine Prog.lwp_seq (h.readi hi off m) ?_
      rintro r w ⟨-, rfl⟩
      exact ih r (hq r)

/-- `loaduvm` only reads. -/
theorem loaduvm_reads (ip : Inum) (off sz m : ℕ) : ∀ i,
    (loaduvm ip off sz m i).Only fun o => ∃ off m, o = .readi ip off m := by
  induction m with
  | zero => exact fun i => trivial
  | succ m ih =>
      intro i
      refine Prog.Only.bind (Prog.Only.perform ⟨_, _, rfl⟩) fun r => ?_
      cases r with
      | none => exact trivial
      | some b =>
          dsimp only
          split
          · exact ih _
          · exact trivial

/-- The loop over the segments only reads. -/
theorem loadProgram_reads (ip : Inum) (mem : Memory) (m : ℕ) : ∀ i off,
    (loadProgram ip mem m i off).Only fun o => ∃ off m, o = .readi ip off m := by
  induction m with
  | zero => exact fun i off => trivial
  | succ m ih =>
      intro i off
      refine Prog.Only.bind (Prog.Only.perform ⟨_, _, rfl⟩) fun r => ?_
      cases r with
      | none => exact trivial
      | some ph =>
          dsimp only
          split_ifs
          · exact trivial
          · exact ih _ _
          · exact trivial
          · exact trivial
          · exact trivial
          · exact trivial
          · refine Prog.Only.bind (loaduvm_reads ..) fun ok => ?_
            split
            · exact ih _ _
            · exact trivial

/-- What `exec` does under the lock is to read. -/
theorem readImage_reads (ip : Inum) (mem : Memory) :
    (readImage ip mem).Only fun o => ∃ off m, o = .readi ip off m := by
  refine Prog.Only.bind (Prog.Only.perform ⟨_, _, rfl⟩) fun r => ?_
  cases r with
  | none => exact trivial
  | some elf =>
      dsimp only
      split_ifs
      · exact trivial
      · exact trivial
      · exact trivial
      · exact loadProgram_reads ..

/-- `exec` is safe in any state between calls. -/
theorem exec (h : During v more noLocks u) (hroot : ROOTINO < n) (hcwd : cwd ∈ more + v.held)
    (path : Str) (mem : Memory) :
    Safe n devsw (exec cwd path mem) (fun _ w => During v more noLocks w) u := by
  refine Prog.lwp_seq h.begin_op ?_
  intro _ u₁ h₁
  refine Prog.lwp_seq (h₁.namei hroot hcwd path) ?_
  intro r u₂ h₂
  cases r with
  | none => exact return_ (by simpa using h₂)
  | some ip =>
      have h₂ : During v (ip ::ₘ more) noLocks u₂ := by simpa using h₂
      refine Prog.lwp_seq (h₂.ilock (mem_more ip ..)) ?_
      rintro _ u₃ ⟨-, -, nd, -, -, h₃⟩
      refine Prog.lwp_seq (h₃.reads update_self (readImage_reads ip mem)) ?_
      rintro ok u₃ rfl
      refine Prog.lwp_seq (h₃.iunlockput update_self) ?_
      intro _ u₄ h₄
      rw [unlocked rfl] at h₄
      exact return_ h₄

end During

/-! ### `file.c` -/

/-- A `struct file` of type `FD_INODE`. -/
structure OpenFile extends File where
  readable : Bool

/-- `fileread` of `n` bytes, with the file it leaves. -/
def fileread (f : OpenFile) (n : ℕ) : Call (Option (List UInt8) × OpenFile) :=
  if f.readable = false then pure (none, f)
  else do
    ilock f.ip
    let r ← readi f.ip f.off n
    iunlock f.ip
    pure (r, { f with toFile := f.toFile.advance (r.map List.length) })

/-- `filestat`, with what `stati` copies: the inode number, and fields of the inode. -/
def filestat (f : OpenFile) : Call (Inum × Attr) := do
  ilock f.ip
  let a ← attr f.ip
  iunlock f.ip
  pure (f.ip, a)

/-- What stays when the offset moves. -/
structure OpenFile.Same (f g : OpenFile) : Prop where
  ip : g.ip = f.ip
  writable : g.writable = f.writable

namespace During

variable {n : ℕ} {devsw : Devsw} {v u : Local} {more : Multiset Inum} {f : OpenFile}

/-- `fileread` is safe on a file that is open. -/
theorem fileread (h : During v more noLocks u) (hf : f.ip ∈ more + v.held) (m : ℕ) :
    Safe n devsw (fileread f m) (fun r w => During v more noLocks w ∧ f.Same r.2) u := by
  unfold Fs.fileread
  split
  · exact ⟨h, rfl, rfl⟩
  · refine Prog.lwp_seq (h.ilock hf) ?_
    rintro _ u₁ ⟨-, -, nd, -, -, h₁⟩
    refine Prog.lwp_seq (h₁.readi update_self _ _) ?_
    rintro r u₁ ⟨-, rfl⟩
    refine Prog.lwp_seq (h₁.iunlock update_self) ?_
    rintro _ w ⟨-, hw⟩
    rw [unlocked rfl] at hw
    exact ⟨hw, rfl, rfl⟩

/-- `filestat` is safe on a file that is open. -/
theorem filestat (h : During v more noLocks u) (hf : f.ip ∈ more + v.held) :
    Safe n devsw (filestat f) (fun _ w => During v more noLocks w) u := by
  refine Prog.lwp_seq (h.ilock hf) ?_
  rintro _ u₁ ⟨-, -, nd, -, -, h₁⟩
  refine Prog.lwp_seq (h₁.attr update_self) ?_
  rintro a u₁ ⟨-, rfl⟩
  refine Prog.lwp_seq (h₁.iunlock update_self) ?_
  rintro _ w ⟨-, hw⟩
  rw [unlocked rfl] at hw
  exact hw

theorem fileclose {ip : Inum} (h : During v (ip ::ₘ more) noLocks u) :
    Safe n devsw (fileclose (some ip)) (fun _ w => During v more noLocks w) u := by
  refine Prog.lwp_seq h.begin_op ?_
  intro _ u₁ h₁
  refine Prog.lwp_seq h₁.iput ?_
  rintro _ w ⟨-, hw⟩
  exact hw.end_op

/-- The loop of `filewrite`, on an inode that is not a directory. -/
theorem filewriteFrom {addr : ℕ → UInt8} {m : ℤ} {type : ℤ} (ht : type ≠ T_DIR) (fuel : ℕ) :
    ∀ (f : File) (i : ℕ) (u : Local), During v more noLocks u → f.ip ∈ more + v.held →
      v.kind f.ip = some type → Safe n devsw (filewriteFrom addr m fuel f i) (fun r w =>
        During v more noLocks w ∧ r.2.ip = f.ip ∧ r.2.writable = f.writable) u := by
  induction fuel with
  | zero => exact fun f i u h _ _ => ⟨h, rfl, rfl⟩
  | succ fuel ih =>
      intro f i u h hf hkind
      rw [Fs.filewriteFrom]
      split
      · refine Prog.lwp_seq h.begin_op ?_
        intro _ u₁ h₁
        refine Prog.lwp_seq (h₁.ilock hf) ?_
        rintro _ u₂ ⟨-, -, nd, hg, htype, h₂⟩
        have hdir : nd.type ≠ T_DIR := by
          rw [htype type (h₁.kind f.ip type hkind)]
          exact ht
        refine Prog.lwp_seq (h₂.writei update_self (hg.write hdir)) ?_
        rintro r u₃ ⟨-, h₃⟩
        refine Prog.lwp_seq (h₃.iunlock update_self) ?_
        rintro _ u₄ ⟨-, h₄⟩
        rw [show (f.advance r).ip = f.ip from rfl, Function.update_idem, unlocked rfl] at h₄
        refine Prog.lwp_seq h₄.end_op ?_
        intro _ u₅ h₅
        cases r with
        | none => exact ⟨h₅, rfl, rfl⟩
        | some l =>
            dsimp only
            split
            · exact ⟨.inr (.inr (.inr rfl)), fun r => r.elim⟩
            · exact ih (f.advance (some l)) (i + l) u₅ h₅ hf hkind
      · exact ⟨h, rfl, rfl⟩

/-- `filewrite` is safe on a file that is no directory. -/
theorem filewrite {f : File} (h : During v more noLocks u) (hf : f.ip ∈ more + v.held)
    (hkind : f.writable = true → ∃ type, v.kind f.ip = some type ∧ type ≠ T_DIR)
    (addr : ℕ → UInt8) (m : ℤ) : Safe n devsw (filewrite f addr m) (fun r w =>
      During v more noLocks w ∧ r.2.ip = f.ip ∧ r.2.writable = f.writable) u := by
  unfold Fs.filewrite
  split
  · exact ⟨h, rfl, rfl⟩
  · rename_i hw
    obtain ⟨type, hk, ht⟩ := hkind (by simpa using hw)
    exact filewriteFrom ht _ f 0 u h hf hk

end During

end Xv6.Fs

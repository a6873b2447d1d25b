import Mathlib.Logic.Function.Basic
import Xv6Cow.Lib.Runs

/-! # The interrupt-enable bit: `spinlock.c`, `trap.c` and `sched`

Each CPU has its enable bit `sie` (`SSTATUS_SIE`), `noff` and `intena`.  `push_off` and `pop_off`
are one step each; `acquire` is `push_off` and then the atomic swap, which waits until the lock is
free, and `release` clears the lock and then calls `pop_off`.  The code of the kernel may do any of
these in any order, so `sleep`, `wakeup`, sleep locks and the rest of the system calls are sequences
of such steps, with a `sched` where they give up the CPU.

A kernel thread is in user space, in `usertrap`, below `syscall()` or in `forkret`.  An interrupt
that comes while it runs in the kernel puts `kerneltrap` on top of it: the hardware clears the
enable bit and keeps the old one in `SSTATUS_SPIE`, and `kerneltrap` puts it back before it returns,
perhaps on another CPU.  `sched` keeps `intena` in a local variable.  The scheduler enables
interrupts at the top of its loop.

A step that would panic, or that waits for a lock, is not possible.

The source does not test `noff` where it returns from `kerneltrap`, enters or leaves `syscall()` or
goes to user space, and neither do these steps: that the code in between has undone every `push_off`
by then is `balanced`, which the results about runs assume. -/

namespace Xv6Cow.Intr

/-- `enum procstate`, with `USED` left out. -/
inductive PState
  | unused | sleeping | runnable | running | zombie
  deriving DecidableEq, Repr

/-- What a kernel thread runs. -/
inductive Mode
  | user | usertrap | syscall | forkret
  deriving DecidableEq, Repr

/-- The kernel thread of a process: what it runs, the enable bit that `kerneltrap` will put back if
an interrupt came, and the variable `intena` of `sched`, which a thread that has not run yet does
not have. -/
structure Thread where
  state : PState := .unused
  mode : Mode := .forkret
  handler : Option Bool := none
  saved : Option Bool := none
  deriving DecidableEq, Repr

/-- Where a CPU is: in `scheduler` without a lock, with the lock of a process before or after that
has run, in the `kerneltrap` of an interrupt that came in `scheduler`, or in the thread of a
process. -/
inductive At
  | scan
  | got (p : ℕ) (ran : Bool)
  | intr
  | thread (p : ℕ)
  deriving DecidableEq, Repr

/-- The enable bit and the fields of `struct cpu`. -/
structure Cpu where
  sie : Bool := false
  noff : ℕ := 0
  intena : Bool := false
  loc : At := .scan
  deriving DecidableEq, Repr

/-- Spin locks: `p->lock`, and others. -/
inductive Lock
  | proc (p : ℕ)
  | other (n : ℕ)
  deriving DecidableEq, Repr

/-- `locks l` is the CPU that holds `l`. -/
structure State where
  cpus : ℕ → Cpu
  threads : ℕ → Thread
  locks : Lock → Option ℕ

/-- `push_off` -/
def Cpu.pushOff (c : Cpu) : Cpu :=
  { c with sie := false, intena := if c.noff = 0 then c.sie else c.intena, noff := c.noff + 1 }

/-- `pop_off` -/
def Cpu.popOff (c : Cpu) : Option Cpu :=
  if c.sie ∨ c.noff < 1 then none
  else some { c with noff := c.noff - 1, sie := if c.noff - 1 = 0 ∧ c.intena then true else c.sie }

/-- What code of the kernel does to the enable bit and to locks. -/
inductive Op
  | pushOff
  | swap (l : Lock)
  | clear (l : Lock)
  | popOff
  deriving DecidableEq, Repr

inductive Act
  -- code of the kernel on a CPU
  | op (c : ℕ) (o : Op)
  -- an interrupt while the kernel runs, and the return from `kerneltrap`
  | interrupt (c : ℕ)
  | iret (c : ℕ)
  -- a trap from user space, the call of `syscall()`, the return from it, and the return to user space
  | trap (c : ℕ)
  | syscall (c : ℕ)
  | sysret (c : ℕ)
  | userret (c : ℕ)
  -- `p->state = st; sched();`
  | sched (c : ℕ) (st : PState)
  -- `scheduler`: `intr_on()`, `acquire(&p->lock)`, `swtch` to the process, and `release(&p->lock)`
  | intrOn (c : ℕ)
  | acquire (c p : ℕ)
  | swtch (c : ℕ)
  | release (c : ℕ)
  -- `fork`, `wakeup` and `wait` change the state of a process that does not run
  | fork (p : ℕ)
  | wakeup (p : ℕ)
  | wait (p : ℕ)
  deriving DecidableEq, Repr

/-- The state after a step of CPU `c`. -/
def State.setCpu (s : State) (c : ℕ) (C : Cpu) : State := { s with cpus := Function.update s.cpus c C }

/-- The state after a change of the thread of process `p`. -/
def State.setThread (s : State) (p : ℕ) (T : Thread) : State :=
  { s with threads := Function.update s.threads p T }

/-- The state after a change of lock `l`. -/
def State.setLock (s : State) (l : Lock) (o : Option ℕ) : State :=
  { s with locks := Function.update s.locks l o }

/-- CPU `c` runs code of the kernel that may take locks. -/
def State.inKernel (s : State) (c : ℕ) : Bool :=
  match (s.cpus c).loc with
  | .thread p => (s.threads p).mode ≠ .user
  | .intr => true
  | _ => false

/-- A step of code on CPU `c`. -/
def op (s : State) (c : ℕ) : Op → Option State
  | .pushOff => some (s.setCpu c (s.cpus c).pushOff)
  | .swap l => if s.locks l = none then some (s.setLock l (some c)) else none
  | .clear l => if s.locks l = some c then some (s.setLock l none) else none
  | .popOff => (s.cpus c).popOff.map (s.setCpu c)

/-- A step of the kernel. -/
def step (s : State) : Act → Option State
  | .op c o => if s.inKernel c then op s c o else none
  | .interrupt c =>
      let C := s.cpus c
      match C.loc with
      | .thread p =>
          let T := s.threads p
          if C.sie ∧ T.mode ≠ .user ∧ T.handler = none then
            some ((s.setCpu c { C with sie := false }).setThread p { T with handler := some true })
          else none
      | .scan => if C.sie then some (s.setCpu c { C with sie := false, loc := .intr }) else none
      | _ => none
  | .iret c =>
      let C := s.cpus c
      match C.loc with
      | .thread p =>
          let T := s.threads p
          match T.handler with
          | some v => some ((s.setCpu c { C with sie := v }).setThread p { T with handler := none })
          | none => none
      | .intr => some (s.setCpu c { C with sie := true, loc := .scan })
      | _ => none
  | .trap c =>
      let C := s.cpus c
      match C.loc with
      | .thread p =>
          let T := s.threads p
          if T.mode = .user ∧ T.handler = none then
            some ((s.setCpu c { C with sie := false }).setThread p { T with mode := .usertrap })
          else none
      | _ => none
  | .syscall c =>
      let C := s.cpus c
      match C.loc with
      | .thread p =>
          let T := s.threads p
          if T.mode = .usertrap ∧ T.handler = none then
            -- `intr_off()`
            some ((s.setCpu c { C with sie := false }).setThread p { T with mode := .syscall })
          else none
      | _ => none
  | .sysret c =>
      let C := s.cpus c
      match C.loc with
      | .thread p =>
          let T := s.threads p
          if T.mode = .syscall ∧ T.handler =
            none then some (s.setThread p { T with mode := .usertrap }) else none
      | _ => none
  | .userret c =>
      let C := s.cpus c
      match C.loc with
      | .thread p =>
          let T := s.threads p
          if (T.mode = .usertrap ∨ T.mode = .forkret) ∧ T.handler = none then
            -- `sret` loads the enable bit from `SSTATUS_SPIE`, which `usertrapret` has set
            some ((s.setCpu c { C with sie := true }).setThread p { T with mode := .user })
          else none
      | _ => none
  | .sched c st =>
      let C := s.cpus c
      match C.loc with
      | .thread p =>
          let T := s.threads p
          if T.mode ≠ .user ∧ s.locks (.proc p) = some c ∧ C.noff = 1 ∧ st ≠ .running ∧
              st ≠ .unused ∧ C.sie = false then
            some ((s.setCpu c { C with loc := .got p true }).setThread p
              { T with state := st, saved := some C.intena })
          else none
      | _ => none
  | .intrOn c =>
      let C := s.cpus c
      if C.loc = .scan then some (s.setCpu c { C with sie := true }) else none
  | .acquire c p =>
      let C := s.cpus c
      if C.loc = .scan ∧ s.locks (.proc p) = none then
        some ((s.setCpu c { C.pushOff with loc := .got p false }).setLock (.proc p) (some c))
      else none
  | .swtch c =>
      let C := s.cpus c
      match C.loc with
      | .got p false =>
          let T := s.threads p
          if T.state = .runnable then
            some ((s.setCpu c { C with
              loc := .thread p, intena := T.saved.getD C.intena }).setThread p
                { T with state := .running })
          else none
      | _ => none
  | .release c =>
      let C := s.cpus c
      match C.loc with
      | .got p ran =>
          if ran = true ∨ (s.threads p).state ≠ .runnable then
            C.popOff.map (fun C' => (s.setCpu c { C' with loc := .scan }).setLock (.proc p) none)
          else none
      | _ => none
  | .fork p =>
      if (s.threads p).state = .unused then some (s.setThread p { state := .runnable }) else none
  | .wakeup p =>
      let T := s.threads p
      if T.state = .sleeping then some (s.setThread p { T with state := .runnable }) else none
  | .wait p => if (s.threads p).state = .zombie then some (s.setThread p {}) else none

/-- The code of the kernel has undone every `push_off` where it returns from a trap and where it
enters and leaves `syscall()`. -/
def balanced (s : State) : Act → Bool
  | .iret c | .syscall c | .sysret c | .userret c => (s.cpus c).noff = 0
  | _ => true

/-- The CPUs have come to `scheduler`, and there is the first process. -/
def init : State where
  cpus := fun _ => {}
  threads := fun p => if p = 0 then { state := .runnable } else {}
  locks := fun _ => none

/-- Process `p` executes code below `syscall()` on CPU `c`. -/
structure Below (s : State) (c p : ℕ) : Prop where
  loc : (s.cpus c).loc = .thread p
  mode : (s.threads p).mode = .syscall
  handler : (s.threads p).handler = none

end Xv6Cow.Intr

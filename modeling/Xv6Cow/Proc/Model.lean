import Mathlib.Data.Int.Notation
import Mathlib.Logic.Function.Basic
import Xv6Cow.Lib.Runs

/-! # Processes on several CPUs: `proc.c`

The process table and the CPUs, at the granularity of locks.  A CPU is in its scheduler, in the
middle of a `swtch`, or runs the kernel thread of the process `c->proc`; a thread is described by
where it is in the functions of `proc.c`, and is at `Pc.user` in any other code, which may call
these functions and take other spin locks.

A section under `p->lock` that takes no other `p->lock` and not `wait_lock` is one step, which is
possible only while the lock is free; what is done in it under `pid_lock`, `kmem.lock` and the locks
of the tables of files and inodes belongs to the step.  The sections that last longer are taken
apart: those of `sleep`, `yield`, `exit` and `scheduler`, where the lock is taken by one thread and
released by another.  `plock p` is the CPU that holds `p->lock`, as in `struct spinlock`.  `swtch`
has two steps: it saves the old context, then loads the new one; a thread is at `Pc.off` from the
end of the saving to the end of the loading.  Other spin locks are held by threads, and `depth p`
counts those of `p`; `wait_lock` is one of them.

An action names the CPU that makes a step, the call that a thread at `Pc.user` makes, and whether
the allocations and copies of the step succeed.  A step that would panic, or that waits for a lock,
is not possible.  `sleeps p` counts the calls of `sleep` by `p`; it is not in the source. -/

namespace Xv6Cow.Proc

open Function (update)

def NPROC : ℕ := 64

/-- `enum procstate` -/
inductive PState
  | unused | used | sleeping | runnable | running | zombie
  deriving DecidableEq, Repr

/-- The addresses that processes sleep on: that of a process, or another. -/
inductive Chan
  | proc (p : ℕ)
  | other (n : ℕ)
  deriving DecidableEq, Repr

/-- The fields of `struct proc` that the functions below use; a pointer to a process is its
index. -/
structure Slot where
  state : PState := .unused
  chan : Option Chan := none
  killed : Bool := false
  xstate : ℤ := 0
  pid : ℤ := 0
  parent : Option ℕ := none
  deriving DecidableEq

/-- What a call of `sleep` returns to: other code, other code that tested `killed` before, or the
loop of `wait`. -/
inductive Ret
  | user | tested | wait
  deriving DecidableEq, Repr

/-- What a call of `wakeup` returns to: other code, `pipewrite` before its `sleep`, the loop of
`reparent`, or `exit` after it. -/
inductive After
  | user
  | sleep (chan : Option Chan) (lk : ℕ)
  | reparent (i : ℕ) (status : ℤ)
  | exit (status : ℤ)
  deriving DecidableEq, Repr

/-- What `p->context` stands for: where the thread goes on when it is switched to. -/
inductive Resume
  | yield
  | sleep (chan : Option Chan) (lk : ℕ) (r : Ret)
  | forkret
  | dead
  deriving DecidableEq, Repr

/-- Where a thread is. -/
inductive Pc
  | user
  -- switched away
  | off
  -- `yield`: before the lock, and with it
  | yield1
  | yield2
  -- `killed` before a `sleep`
  | test (chan : Option Chan) (lk : ℕ) (r : Ret)
  -- `killed` in `pipewrite`, which wakes the readers before it sleeps, and before that `sleep`
  | testWake (wake : ℕ) (chan : Option Chan) (lk : ℕ)
  | woken (chan : Option Chan) (lk : ℕ)
  -- `sleep`: before `acquire(&p->lock)`, before `release(lk)`, before the state is set, and before
  -- `acquire(lk)`
  | sleep1 (chan : Option Chan) (lk : ℕ) (r : Ret)
  | sleep2 (chan : Option Chan) (lk : ℕ) (r : Ret)
  | sleep3 (chan : Option Chan) (lk : ℕ) (r : Ret)
  | sleep4 (lk : ℕ) (r : Ret)
  -- in `sched` before `swtch`, and back from it
  | sched (k : Resume)
  | resumed (k : Resume)
  -- the loops of `wakeup` and `kill`
  | wakeup (chan : Option Chan) (i : ℕ) (a : After)
  | kill (pid : ℤ) (i : ℕ)
  -- `fork`: the loop of `allocproc`, before the parent is set, and before the child is runnable
  | fork1 (i : ℕ)
  | fork2 (np : ℕ)
  | fork3 (np : ℕ)
  -- `exit`: before `acquire(&wait_lock)`, in `reparent`, before `acquire(&p->lock)`, before the
  -- state is set, and before `release(&wait_lock)`
  | exit1 (status : ℤ)
  | reparent (i : ℕ) (status : ℤ)
  | exit2 (status : ℤ)
  | exit3 (status : ℤ)
  | exit4
  -- `wait`: before `acquire(&wait_lock)`, and in its loop
  | wait1
  | waitScan (i : ℕ) (havekids : Bool)
  deriving DecidableEq, Repr

/-- Where a CPU is: in `scheduler` before `acquire(&p->lock)`, after it, in the two halves of the
`swtch` to process `i`, in a thread, in the second half of the `swtch` back, after it, before
`release(&p->lock)`, or in the `wakeup` of an interrupt that came in the scheduler.  `i` is the
variable `p` of `scheduler`. -/
inductive At
  | scan (i : ℕ)
  | got (i : ℕ)
  | leave (i : ℕ)
  | enter (i : ℕ)
  | thread (i : ℕ)
  | back (i : ℕ)
  | returned (i : ℕ)
  | unlock (i : ℕ)
  | intr (n j : ℕ) (i : ℕ)
  deriving DecidableEq, Repr

/-- `struct cpu`, where the CPU is, and the process whose kernel stack it uses, if any. -/
structure Cpu where
  proc : Option ℕ := none
  pos : At := .scan 0
  stack : Option ℕ := none
  deriving DecidableEq

structure Sys where
  slots : ℕ → Slot
  initproc : ℕ
  nextpid : ℤ
  plock : ℕ → Option ℕ
  locks : ℕ → Option ℕ
  depth : ℕ → ℕ
  pc : ℕ → Pc
  context : ℕ → Resume
  cpus : ℕ → Cpu
  result : ℕ → ℤ
  status : ℕ → ℤ
  sleeps : ℕ → ℕ

/-- `wait_lock` among the other locks. -/
def WAIT : ℕ := 0

/-- The calls that other kernel code makes. -/
inductive Call
  | yield
  | sleep (chan : ℕ) (lk : ℕ)
  | testSleep (chan : ℕ) (lk : ℕ)
  | testWakeSleep (wake chan : ℕ) (lk : ℕ)
  | wakeup (chan : ℕ)
  | kill (pid : ℤ)
  | setkilled
  | fork
  | exit (status : ℤ)
  | wait
  | acquire (lk : ℕ)
  | release (lk : ℕ)
  | intr (chan : ℕ)
  deriving DecidableEq, Repr

structure Act where
  cpu : ℕ
  call : Call
  ok : Bool
  deriving DecidableEq, Repr

/-! ### Updates -/

namespace Sys

def setSlot (s : Sys) (i : ℕ) (q : Slot) : Sys := { s with slots := update s.slots i q }
def setPc (s : Sys) (p : ℕ) (k : Pc) : Sys := { s with pc := update s.pc p k }
def setPlock (s : Sys) (p : ℕ) (o : Option ℕ) : Sys := { s with plock := update s.plock p o }

/-- `acquire(lk)` by the thread of `p`. -/
def acquire (s : Sys) (lk p : ℕ) : Sys :=
  { s with locks := update s.locks lk (some p), depth := update s.depth p (s.depth p + 1) }

/-- `release(lk)` by the thread of `p`. -/
def release (s : Sys) (lk p : ℕ) : Sys :=
  { s with locks := update s.locks lk none, depth := update s.depth p (s.depth p - 1) }

def setContext (s : Sys) (p : ℕ) (k : Resume) : Sys := { s with context := update s.context p k }
def setCpu (s : Sys) (c : ℕ) (x : Cpu) : Sys := { s with cpus := update s.cpus c x }
def setResult (s : Sys) (p : ℕ) (r : ℤ) : Sys := { s with result := update s.result p r }
def setStatus (s : Sys) (p : ℕ) (r : ℤ) : Sys := { s with status := update s.status p r }
def setNextpid (s : Sys) (n : ℤ) : Sys := { s with nextpid := n }
def called (s : Sys) (p : ℕ) : Sys := { s with sleeps := update s.sleeps p (s.sleeps p + 1) }

end Sys

/-- The value of an `int` after it has been assigned `x`. -/
def int32 (x : ℤ) : ℤ := (x + 2147483648) % 4294967296 - 2147483648

/-- `freeproc` -/
def freeproc : Slot := {}

/-! ### Threads -/

/-- The end of `wait`, with `wait_lock` released. -/
def waitReturn (s : Sys) (p : ℕ) (r : ℤ) : Sys := ((s.release WAIT p).setResult p r).setPc p .user

/-- The section of `wakeup(chan)` for slot `i`. -/
def wakeupSlot (s : Sys) (i : ℕ) (chan : Option Chan) : Sys :=
  if (s.slots i).state = .sleeping ∧ (s.slots i).chan = chan then
    s.setSlot i { s.slots i with state := .runnable }
  else s

/-- What `kill` does to a slot with its pid. -/
def killSlot (q : Slot) : Slot :=
  { q with killed := true, state := if q.state = .sleeping then .runnable else q.state }

/-- `allocproc` for a slot that is not in use, up to the end of its section in `fork`. -/
def allocSlot (s : Sys) (i : ℕ) : Sys :=
  (((s.setSlot i { s.slots i with pid := s.nextpid, state := .used }).setNextpid
    (int32 (s.nextpid + 1))).setPc i .off).setContext i .forkret

/-- What follows a call of `wakeup`. -/
def afterWakeup : After → Pc
  | .user => .user
  | .sleep chan lk => .woken chan lk
  | .reparent j st => .reparent j st
  | .exit st => .exit2 st

/-- A call made by the thread of `p` at `Pc.user`. -/
def call (s : Sys) (p : ℕ) : Call → Option Sys
  | .yield => some (s.setPc p .yield1)
  | .sleep n lk =>
      if lk = WAIT then none else some ((s.called p).setPc p (.sleep1 (some (.other n)) lk .user))
  | .testSleep n lk => if lk = WAIT then none else some (s.setPc p (.test (some (.other n)) lk .tested))
  | .testWakeSleep w n lk =>
      if lk = WAIT then none else some (s.setPc p (.testWake w (some (.other n)) lk))
  | .wakeup n => some (s.setPc p (.wakeup (some (.other n)) 0 .user))
  | .kill pid => some (s.setPc p (.kill pid 0))
  | .setkilled => if s.plock p = none then some (s.setSlot p { s.slots p with killed := true }) else none
  | .fork => some (s.setPc p (.fork1 0))
  | .exit st => if p = s.initproc then none else some (s.setPc p (.exit1 st))
  | .wait => some (s.setPc p .wait1)
  | .acquire lk => if lk ≠ WAIT ∧ s.locks lk = none then some (s.acquire lk p) else none
  | .release lk => if lk ≠ WAIT ∧ s.locks lk = some p then some (s.release lk p) else none
  | .intr _ => none

/-- One step of the thread of process `p` on CPU `c`. -/
def thread (s : Sys) (c p : ℕ) (a : Act) : Option Sys :=
  match s.pc p with
  | .user => call s p a.call
  | .off => none
  | .yield1 => if s.plock p = none then some ((s.setPlock p (some c)).setPc p .yield2) else none
  | .yield2 => some ((s.setSlot p { s.slots p with state := .runnable }).setPc p (.sched .yield))
  | .test chan lk r =>
      if s.plock p = none then
        if (s.slots p).killed then
          if r = .wait then some (waitReturn s p (-1)) else some ((s.setResult p (-1)).setPc p .user)
        else some ((s.called p).setPc p (.sleep1 chan lk r))
      else none
  | .testWake w chan lk =>
      if s.plock p = none then
        if (s.slots p).killed then some ((s.setResult p (-1)).setPc p .user)
        else some (s.setPc p (.wakeup (some (.other w)) 0 (.sleep chan lk)))
      else none
  | .woken chan lk => some ((s.called p).setPc p (.sleep1 chan lk .tested))
  | .sleep1 chan lk r =>
      if s.plock p = none then some ((s.setPlock p (some c)).setPc p (.sleep2 chan lk r)) else none
  | .sleep2 chan lk r =>
      if s.locks lk = some p then some ((s.release lk p).setPc p (.sleep3 chan lk r)) else none
  | .sleep3 chan lk r => some
      ((s.setSlot p { s.slots p with chan := chan, state := .sleeping }).setPc p
        (.sched (.sleep chan lk r)))
  | .sleep4 lk r =>
      if s.locks lk = none then
        some ((s.acquire lk p).setPc p (if r = .wait then .waitScan 0 false else .user))
      else none
  | .sched k =>
      if s.depth p = 0 ∧ (s.slots p).state ≠ .running then
        match (s.cpus c).pos with
        | .thread i => some (((s.setContext p k).setPc p .off).setCpu c { s.cpus c with pos := .back i })
        | _ => none
      else none
  | .resumed k => match k with
      | .yield => some ((s.setPlock p none).setPc p .user)
      | .forkret => some ((s.setPlock p none).setPc p .user)
      | .sleep _ lk r =>
          some (((s.setSlot p { s.slots p with chan := none }).setPlock p none).setPc p (.sleep4 lk r))
      -- `panic("zombie exit")`
      | .dead => none
  | .wakeup chan i b =>
      if i < NPROC then
        if i = p then some (s.setPc p (.wakeup chan (i + 1) b))
        else if s.plock i = none then some ((wakeupSlot s i chan).setPc p (.wakeup chan (i + 1) b))
        else none
      else some (s.setPc p (afterWakeup b))
  | .kill pid i =>
      if i < NPROC then
        if s.plock i = none then
          if (s.slots i).pid = pid then some
            (((s.setSlot i (killSlot (s.slots i))).setResult p 0).setPc p .user)
          else some (s.setPc p (.kill pid (i + 1)))
        else none
      else some ((s.setResult p (-1)).setPc p .user)
  | .fork1 i =>
      if i < NPROC then
        if s.plock i = none then
          if (s.slots i).state = .unused then
            if a.ok then some ((allocSlot s i).setPc p (.fork2 i))
            else some ((((s.setSlot i freeproc).setNextpid (int32 (s.nextpid + 1))).setResult p
              (-1)).setPc p .user)
          else some (s.setPc p (.fork1 (i + 1)))
        else none
      else some ((s.setResult p (-1)).setPc p .user)
  | .fork2 np =>
      if s.locks WAIT = none then some ((s.setSlot np { s.slots np with parent := some p }).setPc p
        (.fork3 np))
      else none
  | .fork3 np =>
      if s.plock np = none then
        some (((s.setSlot np { s.slots np with state := .runnable }).setResult p
          (s.slots np).pid).setPc p .user)
      else none
  | .exit1 st =>
      if s.locks WAIT = none then some ((s.acquire WAIT p).setPc p (.reparent 0 st)) else none
  | .reparent i st =>
      if i < NPROC then
        if (s.slots i).parent = some p then
          some ((s.setSlot i { s.slots i with parent := some s.initproc }).setPc p
            (.wakeup (some (.proc s.initproc)) 0 (.reparent (i + 1) st)))
        else some (s.setPc p (.reparent (i + 1) st))
      else some (s.setPc p (.wakeup ((s.slots p).parent.map .proc) 0 (.exit st)))
  | .exit2 st => if s.plock p = none then some ((s.setPlock p (some c)).setPc p (.exit3 st)) else none
  | .exit3 st => some ((s.setSlot p { s.slots p with xstate := st, state := .zombie }).setPc p .exit4)
  | .exit4 => some ((s.release WAIT p).setPc p (.sched .dead))
  | .wait1 => if s.locks WAIT = none then some ((s.acquire WAIT p).setPc p (.waitScan 0 false)) else none
  | .waitScan i havekids =>
      if i < NPROC then
        if (s.slots i).parent = some p then
          if s.plock i = none then
            if (s.slots i).state = .zombie then
              if a.ok then
                some (waitReturn ((s.setSlot i freeproc).setStatus p (s.slots i).xstate) p
                  (s.slots i).pid)
              else some (waitReturn s p (-1))
            else some (s.setPc p (.waitScan (i + 1) true))
          else none
        else some (s.setPc p (.waitScan (i + 1) havekids))
      else if havekids then some (s.setPc p (.test (some (.proc p)) WAIT .wait))
      else some (waitReturn s p (-1))

/-! ### CPUs -/

/-- One step of a CPU. -/
def step (s : Sys) (a : Act) : Option Sys :=
  let c := a.cpu
  let x := s.cpus c
  match x.pos with
  | .scan i => match a.call with
      | .intr n => some (s.setCpu c { x with pos := .intr n 0 i })
      | _ =>
          if i < NPROC then
            if s.plock i = none then some ((s.setPlock i (some c)).setCpu c
              { x with pos := .got i }) else none
          else some (s.setCpu c { x with pos := .scan 0 })
  | .got i =>
      if (s.slots i).state = .runnable then
        some ((s.setSlot i { s.slots i with state := .running }).setCpu c
          { x with proc := some i, pos := .leave i })
      else some (s.setCpu c { x with pos := .unlock i })
  | .leave i => some (s.setCpu c { x with pos := .enter i })
  | .enter i =>
      some ((s.setPc i (.resumed (s.context i))).setCpu c { x with pos := .thread i, stack := some i })
  | .thread _ => match x.proc with
      | some p => thread s c p a
      | none => none
  | .back i => some (s.setCpu c { x with pos := .returned i, stack := none })
  | .returned i => some (s.setCpu c { x with proc := none, pos := .unlock i })
  | .unlock i => some ((s.setPlock i none).setCpu c { x with pos := .scan (i + 1) })
  | .intr n j i =>
      if j < NPROC then
        if s.plock j = none then
          some ((wakeupSlot s j (some (.other n))).setCpu c { x with pos := .intr n (j + 1) i })
        else none
      else some (s.setCpu c { x with pos := .scan i })

/-- The table after `procinit` and `userinit`, with every CPU in its scheduler. -/
def boot : Sys where
  slots := update (fun _ => {}) 0 { state := .runnable, pid := 1 }
  initproc := 0
  nextpid := 2
  plock _ := none
  locks _ := none
  depth _ := 0
  pc _ := .off
  context _ := .forkret
  cpus _ := {}
  result _ := 0
  status _ := 0
  sleeps _ := 0

end Xv6Cow.Proc

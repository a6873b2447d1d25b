import Mathlib.Algebra.Order.Ring.Int
import Xv6Cow.Lib.Runs

/-! # Console input: `console.c`

The buffer of the console, the interrupt handler `consoleintr` and any number of calls of
`consoleread`.  The calls are numbered in the order in which they begin; those that a process makes
one after another have different numbers.  The handler runs under `cons.lock` from its beginning to
its end, so it is one step.  A call takes the lock, and gives it up where it sleeps and where it
returns; between these points one round of its loop is one step.  `wakeup` wakes every call that
sleeps, and `kill` the one that is killed.

The indices are of 32 bits, and `n` is an `int`.  The label of a step of a call says whether
`either_copyout` succeeds.  `trace` is the history of the console: the characters that arrive, and
those that calls take from the buffer, with what becomes of them.  Echo is left out, and so is the
list of processes that `^P` prints. -/

namespace Xv6Cow.Console

def INPUT_BUF_SIZE : ℕ := 128
/-- The indices count modulo this.  It is irreducible, so that Lean does not compute with so large a
number. -/
@[irreducible] def UINT : ℕ := 2 ^ 32
/-- `C(x)` -/
def ctrl (x : Char) : UInt8 := UInt8.ofNat (x.toNat - '@'.toNat)
def DEL : UInt8 := 0x7f
def NEWLINE : UInt8 := 10
def RETURN : UInt8 := 13

/-- `cons`, without its lock. -/
structure Cons where
  buf : ℕ → UInt8
  r : ℕ
  w : ℕ
  e : ℕ

/-- `a - b` on `uint`. -/
def sub32 (a b : ℕ) : ℕ := if b ≤ a then a - b else a + UINT - b

/-- The `int` with the bits of `x`. -/
def int32 (x : ℤ) : ℤ := x.bmod UINT

/-- `n` is an `int`. -/
def isInt (n : ℤ) : Bool := decide (-2 ^ 31 ≤ n ∧ n < 2 ^ 31)

/-! ### The handler -/

/-- `cons.e--` -/
def Cons.back (s : Cons) : Cons := { s with e := sub32 s.e 1 }

/-- The loop of `consoleintr` for `^U`; each round takes one character between `cons.w` and
`cons.e`. -/
def killLine : (fuel : ℕ) → Cons → Cons
  | 0, s => s
  | fuel + 1, s =>
      if s.e ≠ s.w ∧ s.buf (sub32 s.e 1 % INPUT_BUF_SIZE) ≠ NEWLINE then killLine fuel s.back else s

/-- The character that is stored. -/
def cook (c : UInt8) : UInt8 := if c = RETURN then NEWLINE else c

/-- The part of `consoleintr` that stores a character: the new buffer, and whether sleepers are
woken. -/
def store (s : Cons) (c : UInt8) : Cons × Bool :=
  let s := { s with buf := Function.update s.buf (s.e % INPUT_BUF_SIZE) c, e := (s.e + 1) % UINT }
  if c = NEWLINE ∨ c = ctrl 'D' ∨ sub32 s.e s.r = INPUT_BUF_SIZE then ({ s with w := s.e }, true)
    else (s, false)

/-- `consoleintr` -/
def consoleintr (s : Cons) (c : UInt8) : Cons × Bool :=
  if c = ctrl 'P' then (s, false)
  else if c = ctrl 'U' then (killLine (sub32 s.e s.w) s, false)
  else if c = ctrl 'H' ∨ c = DEL then (if s.e ≠ s.w then s.back else s, false)
  else if c ≠ 0 ∧ sub32 s.e s.r < INPUT_BUF_SIZE then store s (cook c)
  else (s, false)

/-! ### Calls -/

/-- Where a call of `consoleread` is, with its variables `target` and `n`. -/
inductive Pc
  | fresh
  -- before `acquire(&cons.lock)`
  | enter (n : ℤ)
  -- before the test of the outer loop, and before that of the inner loop
  | loop (target : ℕ) (n : ℤ)
  | wait (target : ℕ) (n : ℤ)
  -- asleep, and awake again without the lock
  | sleep (target : ℕ) (n : ℤ)
  | woken (target : ℕ) (n : ℤ)
  -- before the last `release(&cons.lock)`, and after the call has returned `v`
  | leave (target : ℕ) (n : ℤ)
  | done (target : ℕ) (v : ℤ)
  deriving DecidableEq, Repr

/-- What becomes of a character that is taken from the buffer: it is copied to the user, it is the
end of the file, or the copy fails. -/
inductive Fate
  | copied | eof | lost
  deriving DecidableEq, Repr

inductive Event
  | typed (c : UInt8)
  | took (i : ℕ) (c : UInt8) (fate : Fate)
  deriving DecidableEq, Repr

structure State where
  cons : Cons
  lock : Option ℕ
  started : ℕ
  calls : ℕ → Pc
  killed : ℕ → Bool
  trace : List Event

/-- The effect of `wakeup(&cons.r)` on a call. -/
def Pc.wake : Pc → Pc
  | .sleep target n => .woken target n
  | pc => pc

def State.setPc (s : State) (i : ℕ) (pc : Pc) : State := { s with calls := Function.update s.calls i pc }

/-- Call `i` takes the character at `cons.r`. -/
def State.take (s : State) (i : ℕ) (fate : Fate) : State := { s with
  cons := { s.cons with r := (s.cons.r + 1) % UINT }
  trace := s.trace ++ [.took i (s.cons.buf (s.cons.r % INPUT_BUF_SIZE)) fate] }

/-- The body of the outer loop of `consoleread`, once there is input. -/
def readChar (s : State) (i target : ℕ) (n : ℤ) (ok : Bool) : State :=
  let c := s.cons.buf (s.cons.r % INPUT_BUF_SIZE)
  if c = ctrl 'D' then
    -- `cons.r++` is undone by `cons.r--`
    if n % UINT < target then s.setPc i (.leave target n) else (s.take i .eof).setPc i (.leave target n)
  else if !ok then (s.take i .lost).setPc i (.leave target n)
  else (s.take i .copied).setPc i (if c = NEWLINE then .leave target (n - 1) else .loop target (n - 1))

/-- A step of call `i`, which holds the lock. -/
def run (s : State) (i : ℕ) (ok : Bool) : Option State :=
  match s.calls i with
  | .loop target n => some (s.setPc i (if 0 < n then .wait target n else .leave target n))
  | .wait target n =>
      if s.cons.r = s.cons.w then
        if s.killed i then some ({ s with lock := none }.setPc i (.done target (-1)))
        else some ({ s with lock := none }.setPc i (.sleep target n))
      else some (readChar s i target n ok)
  | .leave target n => some ({ s with lock := none }.setPc i (.done target (int32 (target - n))))
  | _ => none

inductive Act
  -- a character arrives
  | intr (c : UInt8)
  -- the next call begins; call `i` takes the lock, and goes on, where `ok` says that its copy succeeds
  | call (n : ℤ)
  | acquire (i : ℕ)
  | run (i : ℕ) (ok : Bool)
  | kill (i : ℕ)
  deriving DecidableEq, Repr

/-- A step of the console. -/
def step (s : State) : Act → Option State
  | .intr c =>
      if s.lock = none then
        some { s with
          cons := (consoleintr s.cons c).1
          calls := if (consoleintr s.cons c).2 then fun i => (s.calls i).wake else s.calls
          trace := s.trace ++ [.typed c] }
      else none
  | .call n =>
      if isInt n then some ({ s with started := s.started + 1 }.setPc s.started (.enter n)) else none
  | .acquire i =>
      if s.lock = none then
        match s.calls i with
        | .enter n => some ({ s with lock := some i }.setPc i (.loop (n % UINT).toNat n))
        | .woken target n => some ({ s with lock := some i }.setPc i (.wait target n))
        | _ => none
      else none
  | .run i ok => run s i ok
  | .kill i =>
      some { s with
        killed := Function.update s.killed i true
        calls := Function.update s.calls i (s.calls i).wake }

def init : State where
  cons := { buf := fun _ => 0, r := 0, w := 0, e := 0 }
  lock := none
  started := 0
  calls := fun _ => .fresh
  killed := fun _ => false
  trace := []

end Xv6Cow.Console

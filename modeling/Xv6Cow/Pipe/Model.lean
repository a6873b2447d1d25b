import Mathlib.Data.Int.Notation
import Mathlib.Logic.Function.Basic
import Xv6Cow.Lib.Runs

/-! # Pipes: `pipe.c`

One pipe and any number of processes that read it, write it, and close its ends.  A process is
described by where it is in `pipewrite`, `piperead` or `pipeclose`.  The sections under `pi->lock`
are taken apart at every test, byte and slot, because `kill` needs only `p->lock` and may come
between any two of them.

`sleep`, `wakeup` and `kill` are as in `proc.c`: `sleep` takes `p->lock` before it releases
`pi->lock` and keeps it until the process is `SLEEPING`; `wakeup` looks at one process after the
other, and waits for those that keep their `p->lock`; `kill` marks the process and wakes it up.

`stored`, `taken` and `delivered` are not in the source: the bytes put into the pipe with the call
and the place in it that they come from, the bytes taken out, and those that also were copied to a
user. -/

namespace Xv6Cow.Pipe

open Function (update)

def PIPESIZE : ℕ := 512

/-- `uint` arithmetic. -/
def UINT : ℕ := 4294967296

/-- Where a process is.  `src` are the bytes that `pipewrite` is called with, `n` is the size that
`piperead` is called with, `i` is their loop variable and `j` that of `wakeup`. -/
inductive Pc
  | idle
  -- `pipewrite`: before `acquire`, at the loop's head, before `killed`, after it
  | wAcq (src : List UInt8)
  | wTop (src : List UInt8) (i : ℕ)
  | wTest (src : List UInt8) (i : ℕ)
  | wBody (src : List UInt8) (i : ℕ)
  -- the pipe is full: in `wakeup(&pi->nread)`, in `sleep(&pi->nwrite)` before and after `release`,
  -- asleep, woken up
  | wWake (src : List UInt8) (i j : ℕ)
  | wSleep (src : List UInt8) (i : ℕ)
  | wFalls (src : List UInt8) (i : ℕ)
  | wSleeps (src : List UInt8) (i : ℕ)
  | wWoken (src : List UInt8) (i : ℕ)
  -- in the last `wakeup(&pi->nread)`
  | wEnd (src : List UInt8) (i j : ℕ)
  -- `piperead`: before `acquire`, at the loop's head, before `killed`, in `sleep(&pi->nread)`
  | rAcq (n : ℕ)
  | rTop (n : ℕ)
  | rTest (n : ℕ)
  | rSleep (n : ℕ)
  | rFalls (n : ℕ)
  | rSleeps (n : ℕ)
  | rWoken (n : ℕ)
  -- in the copy loop, and in `wakeup(&pi->nwrite)`
  | rCopy (n i : ℕ)
  | rEnd (n i j : ℕ)
  -- `pipeclose`
  | cAcq (writable : Bool)
  | cSet (writable : Bool)
  | cWake (writable : Bool) (j : ℕ)
  deriving DecidableEq

/-- A byte that `pipewrite` stored: the process, the number of its call, the place in the call, the
byte. -/
structure Stored where
  proc : ℕ
  call : ℕ
  idx : ℕ
  byte : UInt8
  deriving DecidableEq

structure Sys where
  -- `struct pipe`
  data : ℕ → UInt8
  nread : ℕ
  nwrite : ℕ
  readopen : Bool
  writeopen : Bool
  holder : Option ℕ
  -- the pipe's page has been freed
  freed : Bool
  -- the processes
  pc : ℕ → Pc
  killed : ℕ → Bool
  result : ℕ → ℤ
  calls : ℕ → ℕ
  stored : List Stored
  taken : List UInt8
  delivered : List UInt8

/-- The pipe that `pipealloc` makes; its page holds arbitrary bytes. -/
def pipealloc (data : ℕ → UInt8) : Sys where
  data := data
  nread := 0
  nwrite := 0
  readopen := true
  writeopen := true
  holder := none
  freed := false
  pc _ := .idle
  killed _ := false
  result _ := 0
  calls _ := 0
  stored := []
  taken := []
  delivered := []

/-- What happens next: a process makes a call, is killed, or goes on, with a user copy that succeeds
or not. -/
inductive Act
  | write (t : ℕ) (src : List UInt8)
  | read (t n : ℕ)
  | close (t : ℕ) (writable : Bool)
  | kill (t : ℕ)
  | run (t : ℕ) (ok : Bool)
  deriving DecidableEq

namespace Sys

def goto (s : Sys) (t : ℕ) (k : Pc) : Sys := { s with pc := update s.pc t k }
def acquire (s : Sys) (t : ℕ) : Sys := { s with holder := some t }
def release (s : Sys) : Sys := { s with holder := none }

/-- `release` and `return`. -/
def ret (s : Sys) (t : ℕ) (r : ℤ) : Sys :=
  { s with holder := none, result := update s.result t r, pc := update s.pc t .idle }

end Sys

/-- `pi->nwrite == pi->nread + PIPESIZE` -/
def full (s : Sys) : Prop := s.nwrite = (s.nread + PIPESIZE) % UINT

/-- `pi->nread == pi->nwrite` -/
def empty (s : Sys) : Prop := s.nread = s.nwrite

instance (s : Sys) : Decidable (full s) := inferInstanceAs (Decidable (_ = _))

instance (s : Sys) : Decidable (empty s) := inferInstanceAs (Decidable (_ = _))

/-- `pi->data[pi->nwrite++ % PIPESIZE] = ch` -/
def store (s : Sys) (t i : ℕ) (ch : UInt8) : Sys :=
  { s with
    data := update s.data (s.nwrite % PIPESIZE) ch
    nwrite := (s.nwrite + 1) % UINT
    stored := s.stored ++ [⟨t, s.calls t, i, ch⟩] }

/-- `ch = pi->data[pi->nread++ % PIPESIZE]`, and the copy to the user. -/
def take (s : Sys) (ok : Bool) : Sys :=
  { s with
    nread := (s.nread + 1) % UINT
    taken := s.taken ++ [s.data (s.nread % PIPESIZE)]
    delivered := if ok then s.delivered ++ [s.data (s.nread % PIPESIZE)] else s.delivered }

/-- A process that keeps its `p->lock` on its way to sleep. -/
def Pc.falls : Pc → Bool
  | .wFalls _ _ | .rFalls _ => true
  | _ => false

/-- A process that sleeps on `&pi->nread` is made runnable. -/
def wakeReader : Pc → Pc
  | .rSleeps n => .rWoken n
  | k => k

/-- A process that sleeps on `&pi->nwrite` is made runnable. -/
def wakeWriter : Pc → Pc
  | .wSleeps src i => .wWoken src i
  | k => k

/-- The section of a `wakeup` for process `j`; then the process `t` goes on at `k`. -/
def wakes (s : Sys) (wake : Pc → Pc) (t j : ℕ) (k : Pc) : Option Sys :=
  if j = t then some (s.goto t k)
  else if (s.pc j).falls then none
  else some ((s.goto j (wake (s.pc j))).goto t k)

/-- One step of process `t`, of `N` processes. -/
def run (N : ℕ) (s : Sys) (t : ℕ) (ok : Bool) : Option Sys :=
  match s.pc t with
  | .idle => none
  | .wAcq src =>
      if s.holder = none ∧ s.freed = false then some ((s.acquire t).goto t (.wTop src 0)) else none
  | .wTop src i =>
      if i < src.length then
        if s.readopen = false then some (s.ret t (-1)) else some (s.goto t (.wTest src i))
      else some (s.goto t (.wEnd src i 0))
  | .wTest src i => if s.killed t then some (s.ret t (-1)) else some (s.goto t (.wBody src i))
  | .wBody src i =>
      if full s then some (s.goto t (.wWake src i 0))
      else if ok then some ((store s t i (src.getD i 0)).goto t (.wTop src (i + 1)))
      else some (s.goto t (.wEnd src i 0))
  | .wWake src i j =>
      if j < N then wakes s wakeReader t j (.wWake src i (j + 1)) else some (s.goto t (.wSleep src i))
  | .wSleep src i => some (s.release.goto t (.wFalls src i))
  | .wFalls src i => some (s.goto t (.wSleeps src i))
  | .wSleeps _ _ => none
  | .wWoken src i =>
      if s.holder = none ∧ s.freed = false then some ((s.acquire t).goto t (.wTop src i)) else none
  | .wEnd src i j => if j < N then wakes s wakeReader t j (.wEnd src i (j + 1)) else some (s.ret t i)
  | .rAcq n => if s.holder = none ∧ s.freed = false then some ((s.acquire t).goto t (.rTop n)) else none
  | .rTop n => if empty s ∧ s.writeopen then some (s.goto t (.rTest n)) else some (s.goto t (.rCopy n 0))
  | .rTest n => if s.killed t then some (s.ret t (-1)) else some (s.goto t (.rSleep n))
  | .rSleep n => some (s.release.goto t (.rFalls n))
  | .rFalls n => some (s.goto t (.rSleeps n))
  | .rSleeps _ => none
  | .rWoken n =>
      if s.holder = none ∧ s.freed = false then some ((s.acquire t).goto t (.rTop n)) else none
  | .rCopy n i =>
      if i < n ∧ ¬ empty s then
        if ok then some ((take s ok).goto t (.rCopy n (i + 1)))
          else some ((take s ok).goto t (.rEnd n i 0))
      else some (s.goto t (.rEnd n i 0))
  | .rEnd n i j => if j < N then wakes s wakeWriter t j (.rEnd n i (j + 1)) else some (s.ret t i)
  | .cAcq w => if s.holder = none ∧ s.freed = false then some ((s.acquire t).goto t (.cSet w)) else none
  | .cSet w =>
      if w then some ({ s with writeopen := false }.goto t (.cWake w 0))
      else some ({ s with readopen := false }.goto t (.cWake w 0))
  | .cWake w j =>
      if j < N then wakes s (if w then wakeReader else wakeWriter) t j (.cWake w (j + 1))
      else if s.readopen = false ∧ s.writeopen = false then some { s.ret t 0 with freed := true }
      else some (s.ret t 0)

/-- A process starts a call. -/
def start (N : ℕ) (s : Sys) (t : ℕ) (k : Pc) : Option Sys :=
  if t < N ∧ s.pc t = .idle then
    some { s with pc := update s.pc t k, calls := update s.calls t (s.calls t + 1) }
  else none

def step (N : ℕ) (s : Sys) : Act → Option Sys
  | .write t src => start N s t (.wAcq src)
  | .read t n => start N s t (.rAcq n)
  | .close t w => start N s t (.cAcq w)
  | .kill t =>
      if (s.pc t).falls then none
      else some { s with
        killed := update s.killed t true
        pc := update s.pc t (wakeWriter (wakeReader (s.pc t))) }
  | .run t ok => run N s t ok

end Xv6Cow.Pipe

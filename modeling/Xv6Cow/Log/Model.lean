import Mathlib.Data.Finset.Card
import Xv6Cow.Lib.Bytes
import Xv6Cow.Lib.Runs

/-! # The log of `log.c` as a transition system

The disk is an array of blocks that `bwrite` changes one block at a time.  `Sys` holds the
in-memory `struct log`, the buffer cache, the disk and the control point of the process that is
inside `commit` or `recover_from_log`; an action is one step of one party:

* `begin k`, `write k b v` and `endOp k` are the steps of FS operation `k`: `begin_op`, one round
  of `bread; modify; log_write; brelse` on block `b`, and `end_op`;
* `tick` is the next disk write (or the last in-memory step) of the process inside `commit` or
  `recover_from_log`, so that the actions of all other parties may come between any two writes;
* `evict b` drops a buffer that nobody pins, and `crash` loses everything but the disk and
  reboots into `recover_from_log`, in any state whatsoever.

`begin_op` sleeps when the log is committing or too full: the action is then not enabled.  A
`panic` stops the kernel; only `crash` is enabled after it.  The last three fields of `Sys` are
history: which blocks were logged since the last commit, the groups whose header write reached
the disk, and the groups whose `commit` returned. -/

namespace Xv6Cow.Log

open Function (update)

def MAXOPBLOCKS : ℕ := 10
def LOGSIZE : ℕ := MAXOPBLOCKS * 3

/-- The contents of a disk block. -/
abbrev Block := Bytes

/-- The disk, by block number. -/
abbrev Disk := ℕ → Block

/-- The block writes of the operations that commit together, in the order of their `log_write`s. -/
abbrev Group := List (ℕ × Block)

/-! ### The on-disk header -/

/-- A 32-bit word read as a C `int`. -/
def toInt (w : ℕ) : ℤ := if w < 2 ^ 31 then w else w - 2 ^ 32

/-- `read_head`: the block numbers listed in a header block (`int n; int block[LOGSIZE]`). -/
def decodeHead (b : Block) : List ℕ :=
  (List.range (toInt (b.le 0 4)).toNat).map (fun i => b.le (4 + 4 * i) 4)

/-- Store block numbers into `hb->block[i]`, `hb->block[i+1]`, ... -/
def setBlocks (b : Block) (i : ℕ) : List ℕ → Block
  | [] => b
  | x :: xs => setBlocks (b.setLe (4 + 4 * i) 4 x) (i + 1) xs

/-- `write_head`: the header buffer after `hb->n` and `hb->block[0..n)` have been stored. -/
def encodeHead (old : Block) (lh : List ℕ) : Block := setBlocks (old.setLe 0 4 lh.length) 0 lh

theorem le_setBlocks_lt {a k : ℕ} : ∀ (xs : List ℕ) (b : Block) (i : ℕ), a + k ≤ 4 + 4 * i →
    (setBlocks b i xs).le a k = b.le a k
  | [], _, _, _ => rfl
  | x :: xs, b, i, h => by
      rw [setBlocks, le_setBlocks_lt xs _ (i + 1) (by omega), Bytes.le_setLe_ne (by omega)]

theorem le_setBlocks : ∀ (xs : List ℕ) (b : Block) (i j : ℕ), (∀ x ∈ xs, x < 2 ^ 32) →
    (hj : j < xs.length) → (setBlocks b i xs).le (4 + 4 * (i + j)) 4 = xs[j]
  | x :: xs, b, i, 0, h, _ => by
      rw [setBlocks, le_setBlocks_lt xs _ (i + 1) (by omega)]
      exact Bytes.le_setLe (h x (by simp))
  | x :: xs, b, i, j + 1, h, hj => by
      have := le_setBlocks xs (b.setLe (4 + 4 * i) 4 x) (i + 1) j (fun y hy => h y (by simp [hy]))
        (by simpa using hj)
      rw [setBlocks, show i + (j + 1) = i + 1 + j by omega, this]
      rfl

theorem decodeHead_encodeHead (old : Block) (lh : List ℕ) (hn : lh.length < 2 ^ 31)
    (hb : ∀ b ∈ lh, b < 2 ^ 32) : decodeHead (encodeHead old lh) = lh := by
  have hlen : (encodeHead old lh).le 0 4 = lh.length := by
    rw [encodeHead, le_setBlocks_lt lh _ 0 (by omega)]
    exact Bytes.le_setLe (by omega)
  unfold decodeHead
  rw [hlen, toInt, if_pos hn, Int.toNat_natCast]
  apply List.ext_getElem
  · simp
  · intro i h1 h2
    have := le_setBlocks lh (old.setLe 0 4 lh.length) 0 i hb h2
    simpa [encodeHead] using this

theorem decodeHead_encodeHead_nil (old : Block) : decodeHead (encodeHead old []) = [] :=
  decodeHead_encodeHead old [] (by simp) (by simp)

/-! ### The system -/

/-- The kernel panics of `log.c`. -/
inductive Panic where
  | tooBigATransaction
  | logWriteOutsideOfTrans
  | logCommitting
deriving DecidableEq, Repr

/-- Where the process inside `commit` or `recover_from_log` is; `tail` is its loop variable. -/
inductive Pc where
  | running
  | writeLog (tail : ℕ)
  | writeHead
  | install (tail : ℕ)
  | clear
  | finish
  | readHead
  | recoverInstall (tail : ℕ)
  | recoverClear
  | panicked (p : Panic)
deriving DecidableEq, Repr

structure Sys where
  /-- `log.start` -/
  start : ℕ
  /-- `log.size` -/
  size : ℕ
  /-- `log.lh`: the list is `log.lh.block[0..log.lh.n)`. -/
  lh : List ℕ
  /-- `log.outstanding` -/
  outstanding : ℕ
  /-- `log.committing` -/
  committing : Bool
  /-- The valid buffers of the buffer cache. -/
  cache : ℕ → Option Block
  disk : Disk
  pc : Pc
  /-- The FS operations between their `begin_op` and their `end_op`. -/
  ops : Finset ℕ
  /-- The blocks each of them has called `log_write` on. -/
  logged : ℕ → Finset ℕ
  /-- The writes of the current group. -/
  cur : Group
  /-- The groups whose header has been written, in order. -/
  committed : List Group
  /-- The groups whose `commit()` has returned, in order. -/
  returned : List Group

inductive Action where
  | begin (k : ℕ)
  | write (k b : ℕ) (v : Block)
  | endOp (k : ℕ)
  | tick
  | evict (b : ℕ)
  | crash

namespace Sys

/-- A block outside the log area: where the file system keeps its data. -/
def Home (s : Sys) (b : ℕ) : Prop := (b < s.start ∨ s.start + s.size ≤ b) ∧ b < 2 ^ 32

instance (s : Sys) (b : ℕ) : Decidable (s.Home b) := inferInstanceAs (Decidable (_ ∧ _))

/-- `bread`: the cached contents of a block, or those on disk. -/
def bread (s : Sys) (b : ℕ) : Block := (s.cache b).getD (s.disk b)

/-- `bwrite` of a buffer for block `b` whose data is `v`. -/
def bwrite (s : Sys) (b : ℕ) (v : Block) : Sys :=
  { s with cache := update s.cache b (some v), disk := update s.disk b v }

/-- The blocks whose buffers the log pins: all listed ones until `install_trans` has passed them. -/
def pinned (s : Sys) : List ℕ :=
  match s.pc with
  | .running | .writeLog _ | .writeHead => s.lh
  | .install tail => s.lh.drop tail
  | _ => []

/-- `begin_op`; `none` when it goes to sleep. -/
def beginOp (s : Sys) : Option Sys :=
  if s.committing then none
  else if s.lh.length + (s.outstanding + 1) * MAXOPBLOCKS > LOGSIZE then none
  else some { s with outstanding := s.outstanding + 1 }

/-- `log_write`. -/
def logWrite (s : Sys) (b : ℕ) : Except Panic Sys :=
  if s.lh.length ≥ LOGSIZE ∨ s.lh.length ≥ s.size - 1 then .error .tooBigATransaction
  else if s.outstanding < 1 then .error .logWriteOutsideOfTrans
  else .ok { s with lh := if b ∈ s.lh then s.lh else s.lh ++ [b] }

/-- `end_op` up to its call of `commit`, and the test `log.lh.n > 0` there. -/
def endOp (s : Sys) : Except Panic Sys :=
  if s.committing then .error .logCommitting
  else if s.outstanding - 1 = 0 then
    .ok { s with outstanding := s.outstanding - 1, committing := true,
                 pc := if s.lh.length > 0 then .writeLog 0 else .finish }
  else .ok { s with outstanding := s.outstanding - 1 }

/-- One disk write of `commit` or of `recover_from_log`. -/
def tick (s : Sys) : Option Sys :=
  match s.pc with
  | .running | .panicked _ => none
  | .writeLog tail =>
      let t := s.bwrite (s.start + tail + 1) (s.bread (s.lh.getD tail 0))
      some { t with pc := if tail + 1 < s.lh.length then .writeLog (tail + 1) else .writeHead }
  | .writeHead =>
      let t := s.bwrite s.start (encodeHead (s.bread s.start) s.lh)
      some { t with pc := .install 0, committed := s.committed ++ [s.cur] }
  | .install tail =>
      let t := s.bwrite (s.lh.getD tail 0) (s.bread (s.start + tail + 1))
      some { t with pc := if tail + 1 < s.lh.length then .install (tail + 1) else .clear }
  | .clear =>
      let t := s.bwrite s.start (encodeHead (s.bread s.start) [])
      some { t with lh := [], pc := .finish, cur := [], returned := s.returned ++ [s.cur] }
  | .finish => some { s with committing := false, pc := .running }
  | .readHead =>
      let lh := decodeHead (s.bread s.start)
      some { s with lh := lh, cache := update s.cache s.start (some (s.bread s.start)),
                    pc := if 0 < lh.length then .recoverInstall 0 else .recoverClear }
  | .recoverInstall tail =>
      let t := s.bwrite (s.lh.getD tail 0) (s.bread (s.start + tail + 1))
      some { t with pc := if tail + 1 < s.lh.length then .recoverInstall (tail + 1) else .recoverClear }
  | .recoverClear =>
      let t := s.bwrite s.start (encodeHead (s.bread s.start) [])
      some { t with lh := [], pc := .running }

/-- The file system is up: `initlog` has returned and nothing has panicked. -/
def up (s : Sys) : Bool :=
  match s.pc with
  | .running | .writeLog _ | .writeHead | .install _ | .clear | .finish => true
  | .readHead | .recoverInstall _ | .recoverClear | .panicked _ => false

/-- A power failure followed by a reboot: only the disk survives. -/
def reboot (s : Sys) : Sys :=
  { s with lh := [], outstanding := 0, committing := false, cache := fun _ => none, pc := .readHead,
           ops := ∅, logged := fun _ => ∅, cur := [] }

def step (s : Sys) : Action → Option Sys
  | .begin k =>
      if s.up ∧ k ∉ s.ops then
        s.beginOp.map (fun t => { t with ops := insert k t.ops, logged := update t.logged k ∅ })
      else none
  | .write k b v =>
      if s.up ∧ k ∈ s.ops ∧ s.Home b then
        match s.logWrite b with
        | .error p => some { s with pc := .panicked p }
        | .ok t => some { t with cache := update t.cache b (some v),
                                 logged := update t.logged k (insert b (t.logged k)),
                                 cur := t.cur ++ [(b, v)] }
      else none
  | .endOp k =>
      if s.up ∧ k ∈ s.ops then
        match s.endOp with
        | .error p => some { s with pc := .panicked p }
        | .ok t => some { t with ops := t.ops.erase k }
      else none
  | .tick => s.tick
  | .evict b => if b ∉ s.pinned then some { s with cache := update s.cache b none } else none
  | .crash => some s.reboot

end Sys

/-- The machine at power-on: `initlog` is about to call `recover_from_log`. -/
def boot (start size : ℕ) (d : Disk) : Sys where
  start := start
  size := size
  lh := []
  outstanding := 0
  committing := false
  cache := fun _ => none
  disk := d
  pc := .readHead
  ops := ∅
  logged := fun _ => ∅
  cur := []
  committed := []
  returned := []

/-! ### `recover_from_log` from start to end -/

/-- `install_trans(1)` on a disk, from loop variable `tail` on. -/
def installTrans (start : ℕ) : List ℕ → ℕ → Disk → Disk
  | [], _, d => d
  | b :: bs, tail, d => installTrans start bs (tail + 1) (update d b (d (start + tail + 1)))

/-- `recover_from_log` on a disk. -/
def recoverFromLog (start : ℕ) (d : Disk) : Disk :=
  let e := installTrans start (decodeHead (d start)) 0 d
  update e start (encodeHead (e start) [])

end Xv6Cow.Log

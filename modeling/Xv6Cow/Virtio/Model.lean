import Mathlib.Data.Nat.Bits
import Xv6Cow.Lib.RingIndex
import Xv6Cow.Lib.Runs

/-! # The disk driver and its device: `virtio_disk.c`

Many processes call `virtio_disk_rw`, each for a buffer whose sleep lock it holds, as `bread` and
`bwrite` do.  The calls and the interrupt handler `virtio_disk_intr` take turns under `vdisk_lock`;
a call gives the lock up where it sleeps, for free descriptors or for its buffer.  The device runs
beside them: it takes the entries of the avail ring in order, completes the requests it has taken in
any order, with status 0, and puts their heads into the used ring.

The code between two points where another could see the difference is one step: `alloc3_desc`, the
writing of the descriptors, of the entry of the avail ring and of its index, one round of the loop
that waits, `free_chain`, and one round of the loop of the handler.  The device writes the status
and the entry of the used ring in one step, and the index in another.  `kill` may wake a process
that sleeps.

The indices `avail->idx`, `used->idx` and `disk.used_idx` are of 16 bits, and so is the index of the
device.  A panic is kept in the state, and nothing happens after it.  The contents of buffers are
left out: the driver does not look at them.  `done` is not in the source: whether the device has
completed the chain with a given head since it was last published. -/

namespace Xv6Cow.Virtio

open RingIndex
open Function (update)

def NUM : ℕ := 8
/-- Indices count modulo this. -/
def IDX : ℕ := 2 ^ 16
def BSIZE : ℕ := 1024
def VRING_DESC_F_NEXT : ℕ := 1
def VRING_DESC_F_WRITE : ℕ := 2
def VIRTIO_BLK_T_IN : ℕ := 0
def VIRTIO_BLK_T_OUT : ℕ := 1

/-- What a descriptor points to: `disk.ops[k]`, `b->data`, or `disk.info[k].status`. -/
inductive Addr
  | null
  | ops (k : ℕ)
  | data (b : ℕ)
  | status (k : ℕ)
  deriving DecidableEq, Repr

/-- `struct virtq_desc` -/
structure Desc where
  addr : Addr := .null
  len : ℕ := 0
  flags : ℕ := 0
  next : ℕ := 0
  deriving DecidableEq, Repr

/-- There is another descriptor after this one. -/
def Desc.more (d : Desc) : Bool := d.flags.testBit 0

/-- `struct virtio_blk_req` -/
structure BlkReq where
  type : ℕ := 0
  reserved : ℕ := 0
  sector : ℕ := 0
  deriving DecidableEq, Repr

/-- `disk.info[k]` -/
structure Info where
  b : Option ℕ := none
  status : ℕ := 0
  deriving DecidableEq, Repr

/-- The variables `b` and `idx[3]` of `virtio_disk_rw`. -/
structure Chain where
  buf : ℕ
  i0 : ℕ
  i1 : ℕ
  i2 : ℕ
  deriving DecidableEq, Repr

def Chain.idx (c : Chain) : List ℕ := [c.i0, c.i1, c.i2]

/-- Where a process is in `virtio_disk_rw`. -/
inductive Pc
  | idle
  -- before `acquire(&disk.vdisk_lock)`
  | enter (b : ℕ) (write : Bool)
  -- before `alloc3_desc`, asleep because it failed, and awake again without the lock
  | alloc (b : ℕ) (write : Bool)
  | sleepFree (b : ℕ) (write : Bool)
  | wokenFree (b : ℕ) (write : Bool)
  -- before the descriptors, the entry of the avail ring, and its index are written
  | format (c : Chain) (write : Bool)
  | ring (c : Chain)
  | publish (c : Chain)
  -- before the test of `b->disk`, asleep because it was set, and awake again without the lock
  | wait (c : Chain)
  | sleepBuf (c : Chain)
  | wokenBuf (c : Chain)
  -- before `free_chain`, and before `release(&disk.vdisk_lock)`
  | free (c : Chain)
  | release (c : Chain)
  deriving DecidableEq, Repr

/-- Where `virtio_disk_intr` is on a CPU: not called, before the test of its loop, and before its
body. -/
inductive IntrPc
  | idle | loop | body
  deriving DecidableEq, Repr

/-- Who holds `vdisk_lock`. -/
inductive Actor
  | proc (p : ℕ)
  | intr (c : ℕ)
  deriving DecidableEq, Repr

/-- The panics of the driver, and a write through the null pointer in the handler. -/
inductive Panic
  | freeDesc1 | freeDesc2 | intrStatus | nullBuf
  deriving DecidableEq, Repr

/-- `struct disk` with its rings, the buffers, the threads and the device. -/
structure State where
  desc : ℕ → Desc
  availRing : ℕ → ℕ
  availIdx : ℕ
  usedRing : ℕ → ℕ
  usedIdx : ℕ
  free : ℕ → Bool
  seenIdx : ℕ
  info : ℕ → Info
  ops : ℕ → BlkReq
  -- `b->disk` and `b->blockno`, and who holds `b->lock`
  busy : ℕ → Bool
  blockno : ℕ → ℕ
  holder : ℕ → Option ℕ
  lock : Option Actor
  pcs : ℕ → Pc
  intr : ℕ → IntrPc
  -- the device: its index in the avail ring, the heads it has taken, and the one that it has just
  -- written
  lastAvail : ℕ
  taken : List ℕ
  posting : Option ℕ
  done : ℕ → Bool
  panic : Option Panic

/-! ### Descriptors -/

/-- The effect of `wakeup(&disk.free[0])` on a process. -/
def Pc.wakeFree : Pc → Pc
  | .sleepFree b w => .wokenFree b w
  | pc => pc

/-- The effect of `wakeup(b)` on a process. -/
def Pc.wakeBuf (b : ℕ) : Pc → Pc
  | .sleepBuf c => if c.buf = b then .wokenBuf c else .sleepBuf c
  | pc => pc

/-- `alloc_desc` -/
def allocDesc (s : State) : Option (ℕ × State) :=
  ((List.range NUM).find? (fun i => s.free i)).map
    (fun i => (i, { s with free := update s.free i false }))

/-- `free_desc` -/
def freeDesc (i : ℕ) (s : State) : Except Panic State :=
  if NUM ≤ i then .error .freeDesc1
  else if s.free i then .error .freeDesc2
  else .ok { s with
    desc := update s.desc i {}, free := update s.free i true, pcs := fun q => (s.pcs q).wakeFree }

/-- `free_chain`.  Each round frees a descriptor that was not free, so there are at most `NUM` of
them. -/
def freeChain : (fuel i : ℕ) → State → Except Panic State
  | 0, _, s => .ok s
  | fuel + 1, i, s => do
      let d := s.desc i
      let s ← freeDesc i s
      if d.more then freeChain fuel d.next s else .ok s

/-- `alloc3_desc` -/
def alloc3Desc (s : State) : Except Panic (Option (ℕ × ℕ × ℕ) × State) :=
  match allocDesc s with
  | none => .ok (none, s)
  | some (i0, s) =>
      match allocDesc s with
      | none => do
          let s ← freeDesc i0 s
          .ok (none, s)
      | some (i1, s) =>
          match allocDesc s with
          | none => do
              let s ← freeDesc i0 s
              let s ← freeDesc i1 s
              .ok (none, s)
          | some (i2, s) => .ok (some (i0, i1, i2), s)

/-! ### Steps -/

def State.setPc (s : State) (p : ℕ) (pc : Pc) : State := { s with pcs := update s.pcs p pc }

/-- The state after a piece of code that may panic. -/
def State.orPanic (s : State) : Except Panic State → State
  | .ok t => t
  | .error e => { s with panic := some e }

/-- Writing the three descriptors, the request, `b->disk` and `disk.info`. -/
def format (s : State) (c : Chain) (write : Bool) : State :=
  let desc := update s.desc c.i0
    { addr := .ops c.i0, len := 16, flags := VRING_DESC_F_NEXT, next := c.i1 }
  let desc := update desc c.i1
    { addr := .data c.buf, len := BSIZE,
      flags := (if write then 0 else VRING_DESC_F_WRITE) ||| VRING_DESC_F_NEXT, next := c.i2 }
  let desc := update desc c.i2
    { addr := .status c.i0, len := 1, flags := VRING_DESC_F_WRITE, next := 0 }
  { s with
    ops := update s.ops c.i0
      { type := if write then VIRTIO_BLK_T_OUT else VIRTIO_BLK_T_IN
        -- the product is of 32 bits
        sector := s.blockno c.buf * (BSIZE / 512) % 2 ^ 32 }
    desc := desc
    info := update s.info c.i0 { b := some c.buf, status := 0xff }
    busy := update s.busy c.buf true }

/-- The status byte of the chain with head `h`, as the device finds it. -/
def State.statusOf (s : State) (h : ℕ) : Option ℕ :=
  let d0 := s.desc h
  let d1 := s.desc d0.next
  let d2 := s.desc d1.next
  if d0.more ∧ d1.more ∧ !d2.more then
    match d2.addr with
    | .status k => some k
    | _ => none
  else none

/-- The device completes the request with head `h`. -/
def complete (s : State) (h k : ℕ) : State := { s with
  info := update s.info k { s.info k with status := 0 }
  usedRing := update s.usedRing (s.usedIdx % NUM) h
  taken := s.taken.erase h
  posting := some h
  done := update s.done h true }

/-- The body of the loop of `virtio_disk_intr`. -/
def handle (s : State) (c : ℕ) : State :=
  let id := s.usedRing (s.seenIdx % NUM)
  if (s.info id).status ≠ 0 then { s with panic := some .intrStatus }
  else
    match (s.info id).b with
    | none => { s with panic := some .nullBuf }
    | some b => { s with
        busy := update s.busy b false
        pcs := fun q => (s.pcs q).wakeBuf b
        seenIdx := (s.seenIdx + 1) % IDX
        intr := update s.intr c .loop }

inductive Act
  -- `acquiresleep` and `releasesleep` of a buffer, and a call of `virtio_disk_rw`
  | lockBuf (p b : ℕ)
  | unlockBuf (p b : ℕ)
  | call (p b : ℕ) (write : Bool)
  -- process `p` takes `vdisk_lock`
  | acquire (p : ℕ)
  -- process `p`, which holds it, goes on
  | run (p : ℕ)
  -- `kill` wakes process `p`
  | kill (p : ℕ)
  -- `virtio_disk_intr` is called on CPU `c`, and goes on
  | irq (c : ℕ)
  | runIntr (c : ℕ)
  -- the device takes an entry of the avail ring, completes a request, and moves the index of the
  -- used ring on
  | take
  | finish (h : ℕ)
  | post
  deriving DecidableEq, Repr

/-- A step of process `p` in `virtio_disk_rw`, which holds the lock. -/
def run (s : State) (p : ℕ) : Option State :=
  match s.pcs p with
  | .alloc b w =>
      some (s.orPanic (do
        match ← alloc3Desc s with
        | (some (i0, i1, i2), s) => .ok (s.setPc p (.format ⟨b, i0, i1, i2⟩ w))
        | (none, s) => .ok ({ s with lock := none }.setPc p (.sleepFree b w))))
  | .format c w => some ((format s c w).setPc p (.ring c))
  | .ring c =>
      some ({ s with availRing := update s.availRing (s.availIdx % NUM) c.i0 }.setPc p (.publish c))
  | .publish c =>
      some ({ s with availIdx := (s.availIdx + 1) % IDX, done := update s.done c.i0 false }.setPc p
        (.wait c))
  | .wait c =>
      some (if s.busy c.buf then { s with lock := none }.setPc p (.sleepBuf c) else s.setPc p (.free c))
  | .free c =>
      some (s.orPanic (do
        let s ← freeChain (NUM + 1) c.i0
          { s with info := update s.info c.i0 { s.info c.i0 with b := none } }
        .ok (s.setPc p (.release c))))
  | .release _ => some ({ s with lock := none }.setPc p .idle)
  | _ => none

/-- A step of the system. -/
def step (s : State) (a : Act) : Option State :=
  if s.panic ≠ none then none
  else match a with
    | .lockBuf p b =>
        if s.holder b = none ∧ s.pcs p =
          .idle then some { s with holder := update s.holder b (some p) } else none
    | .unlockBuf p b =>
        if s.holder b = some p ∧ s.pcs p =
          .idle then some { s with holder := update s.holder b none } else none
    | .call p b w =>
        if s.holder b = some p ∧ s.pcs p = .idle then some (s.setPc p (.enter b w)) else none
    | .acquire p =>
        if s.lock = none then
          match s.pcs p with
          | .enter b w => some ({ s with lock := some (.proc p) }.setPc p (.alloc b w))
          | .wokenFree b w => some ({ s with lock := some (.proc p) }.setPc p (.alloc b w))
          | .wokenBuf c => some ({ s with lock := some (.proc p) }.setPc p (.wait c))
          | _ => none
        else none
    | .run p => run s p
    | .kill p =>
        match s.pcs p with
        | .sleepFree b w => some (s.setPc p (.wokenFree b w))
        | .sleepBuf c => some (s.setPc p (.wokenBuf c))
        | _ => none
    | .irq c =>
        if s.lock = none ∧ s.intr c = .idle then
          some { s with lock := some (.intr c), intr := update s.intr c .loop }
        else none
    | .runIntr c =>
        match s.intr c with
        | .idle => none
        | .loop =>
            if s.seenIdx ≠ s.usedIdx then some { s with intr := update s.intr c .body }
            else some { s with lock := none, intr := update s.intr c .idle }
        | .body => some (handle s c)
    | .take =>
        if s.lastAvail ≠ s.availIdx then
          some { s with
            lastAvail := (s.lastAvail + 1) % IDX
            taken := s.availRing (s.lastAvail % NUM) :: s.taken }
        else none
    | .finish h =>
        if h ∈ s.taken ∧ s.posting = none then (s.statusOf h).map (complete s h) else none
    | .post =>
        match s.posting with
        | some _ => some { s with usedIdx := (s.usedIdx + 1) % IDX, posting := none }
        | none => none

/-- The state after `virtio_disk_init`, with the buffers for the blocks `blockno`. -/
def init (blockno : ℕ → ℕ) : State where
  desc := fun _ => {}
  availRing := fun _ => 0
  availIdx := 0
  usedRing := fun _ => 0
  usedIdx := 0
  free := fun i => decide (i < NUM)
  seenIdx := 0
  info := fun _ => {}
  ops := fun _ => {}
  busy := fun _ => false
  blockno := blockno
  holder := fun _ => none
  lock := none
  pcs := fun _ => .idle
  intr := fun _ => .idle
  lastAvail := 0
  taken := []
  posting := none
  done := fun _ => false
  panic := none

/-! ### What is under way -/

/-- The heads that the driver has published and the device has not taken. -/
def State.queue (s : State) : List ℕ := window NUM IDX s.availRing s.lastAvail s.availIdx

/-- The heads in the used ring that the handler has not seen. -/
def State.posted (s : State) : List ℕ := window NUM IDX s.usedRing s.seenIdx s.usedIdx

/-- The requests that the device has completed and the handler has not seen. -/
def State.ready (s : State) : List ℕ := s.posting.toList ++ s.posted

/-- The requests that have been published and whose completion has not been seen. -/
def State.flight (s : State) : List ℕ := s.queue ++ s.taken ++ s.ready

/-- The descriptors that a process has allocated and not freed. -/
def Pc.chain : Pc → Option Chain
  | .format c _ => some c
  | .ring c => some c
  | .publish c => some c
  | .wait c => some c
  | .sleepBuf c => some c
  | .wokenBuf c => some c
  | .free c => some c
  | _ => none

end Xv6Cow.Virtio

import Mathlib.Data.List.Perm.Subperm
import Xv6Cow.Virtio.Model

/-! # The invariant of the driver and the device

A call of `virtio_disk_rw` goes through stages: it owns three descriptors, has written them, has
written its entry of the avail ring, has published it, and has seen its completion.  `Locks` says
who may be at work, `Owned` that the descriptors in use are those of the calls, and `Traffic` what
is in the rings and in the device: the heads under way (`State.flight`) are those of the calls that
have been published and whose buffers are still busy, each once. -/

namespace Xv6Cow.Virtio

open RingIndex

/-! ### Stages of a call -/

inductive Stage
  | none
  | owns (c : Chain)
  | built (c : Chain)
  | ringed (c : Chain)
  | sent (c : Chain)
  | closing (c : Chain)
  deriving DecidableEq

/-- The descriptors of the call. -/
def Stage.chain : Stage → Option Chain
  | .none => Option.none
  | .owns c => some c
  | .built c => some c
  | .ringed c => some c
  | .sent c => some c
  | .closing c => some c

/-- The call has written its descriptors. -/
def Stage.written : Stage → Option Chain
  | .built c => some c
  | .ringed c => some c
  | .sent c => some c
  | .closing c => some c
  | _ => Option.none

/-- The call has written its descriptors and not published them. -/
def Stage.private : Stage → Option Chain
  | .built c => some c
  | .ringed c => some c
  | _ => Option.none

/-- The call has been published. -/
def Stage.public : Stage → Option Chain
  | .sent c => some c
  | .closing c => some c
  | _ => Option.none

def Pc.stage : Pc → Stage
  | .format c _ => .owns c
  | .ring c => .built c
  | .publish c => .ringed c
  | .wait c => .sent c
  | .sleepBuf c => .sent c
  | .wokenBuf c => .sent c
  | .free c => .closing c
  | _ => .none

/-- The buffer of the call. -/
def Pc.buf : Pc → Option ℕ
  | .idle => Option.none
  | .enter b _ => some b
  | .alloc b _ => some b
  | .sleepFree b _ => some b
  | .wokenFree b _ => some b
  | .format c _ => some c.buf
  | .ring c => some c.buf
  | .publish c => some c.buf
  | .wait c => some c.buf
  | .sleepBuf c => some c.buf
  | .wokenBuf c => some c.buf
  | .free c => some c.buf
  | .release c => some c.buf

/-- The process holds `vdisk_lock`. -/
def Pc.locked : Pc → Bool
  | .alloc _ _ => true
  | .format _ _ => true
  | .ring _ => true
  | .publish _ => true
  | .wait _ => true
  | .free _ => true
  | .release _ => true
  | _ => false

def State.stages (s : State) : ℕ → Stage := fun p => (s.pcs p).stage

variable {s s' : State} {free : ℕ → Bool} {st st' : ℕ → Stage} {p q h i b : ℕ} {c d : Chain} {pc : Pc}

theorem stages_of (hp : s.pcs p = pc) : s.stages p = pc.stage := congrArg Pc.stage hp

theorem chain_stage (pc : Pc) : pc.stage.chain = pc.chain := by cases pc <;> rfl

theorem buf_of_chain (hc : pc.stage.chain = some c) : pc.buf = some c.buf := by
  cases pc <;> simp_all [Pc.stage, Stage.chain, Pc.buf]

theorem chain_of_written {x : Stage} (hx : x.written = some c) : x.chain = some c := by
  cases x <;> simp_all [Stage.written, Stage.chain]

theorem written_of_private {x : Stage} (hx : x.private = some c) : x.written = some c := by
  cases x <;> simp_all [Stage.written, Stage.private]

theorem written_of_public {x : Stage} (hx : x.public = some c) : x.written = some c := by
  cases x <;> simp_all [Stage.written, Stage.public]

theorem not_public_of_private {x : Stage} (hx : x.private = some c) : x.public = none := by
  cases x <;> simp_all [Stage.public, Stage.private]

/-- Who has written an entry of the avail ring still holds the lock. -/
theorem locked_of_ringed (hp : s.stages p = .ringed c) : (s.pcs p).locked = true := by
  unfold State.stages at hp
  cases hpc : s.pcs p <;> simp_all [Pc.stage, Pc.locked]

theorem stages_setPc : (s.setPc p pc).stages = Function.update s.stages p pc.stage := by
  funext q
  unfold State.stages State.setPc
  rcases eq_or_ne q p with rfl | hne
  · simp
  · simp [Function.update_of_ne hne]

/-! ### The invariant -/

structure Locks (s : State) : Prop where
  proc : ∀ p, (s.pcs p).locked = true → s.lock = some (.proc p)
  intr : ∀ c, s.intr c ≠ .idle → s.lock = some (.intr c)
  buf : ∀ p b, (s.pcs p).buf = some b → s.holder b = some p

/-- The descriptors that are not free are those of the calls. -/
structure Owned (free : ℕ → Bool) (st : ℕ → Stage) : Prop where
  small : ∀ {p c}, (st p).chain = some c → ∀ i ∈ c.idx, i < NUM
  nodup : ∀ {p c}, (st p).chain = some c → c.idx.Nodup
  apart : ∀ {p q c d i}, (st p).chain = some c → (st q).chain = some d → i ∈ c.idx → i ∈ d.idx → p = q
  used : ∀ i < NUM, free i = false ↔ ∃ p c, (st p).chain = some c ∧ i ∈ c.idx

/-- The descriptors and the record of a chain. -/
structure Built (desc : ℕ → Desc) (info : ℕ → Info) (c : Chain) : Prop where
  head : (desc c.i0).more = true ∧ (desc c.i0).next = c.i1
  data : (desc c.i1).more = true ∧ (desc c.i1).next = c.i2
  tail : (desc c.i2).more = false ∧ (desc c.i2).addr = .status c.i0
  info : (info c.i0).b = some c.buf

/-- The rings and the device. -/
structure Traffic (s : State) (st : ℕ → Stage) : Prop where
  built : ∀ p c, (st p).written = some c → Built s.desc s.info c
  busy : ∀ p c, (st p).private = some c → s.busy c.buf = true
  ringed : ∀ p c, st p = .ringed c → s.availRing (s.availIdx % NUM) = c.i0
  nodup : s.flight.Nodup
  flight : ∀ h, h ∈ s.flight ↔ ∃ p c, (st p).public = some c ∧ c.i0 = h ∧ s.busy c.buf = true
  posting : ∀ h, s.posting = some h → s.usedRing (s.usedIdx % NUM) = h
  status : ∀ h ∈ s.ready, (s.info h).status = 0
  done : ∀ p c, (st p).public = some c → c.i0 ∈ s.ready ∨ s.busy c.buf = false → s.done c.i0 = true
  closing : ∀ p c, st p = .closing c → s.busy c.buf = false
  avail : s.availIdx < IDX
  last : s.lastAvail < IDX
  used : s.usedIdx < IDX
  seen : s.seenIdx < IDX
  body : ∀ c, s.intr c = .body → s.seenIdx ≠ s.usedIdx

structure Inv (s : State) : Prop where
  panic : s.panic = none
  locks : Locks s
  owned : Owned s.free s.stages
  traffic : Traffic s s.stages
  returning : ∀ p c, s.pcs p = .release c → s.done c.i0 = true

/-! ### What follows from it -/

theorem Owned.i0_lt (h : Owned free st) (hc : (st p).chain = some c) : c.i0 < NUM :=
  h.small hc _ (by simp [Chain.idx])

/-- Two calls with the same head are one. -/
theorem Owned.head_inj (h : Owned free st) (hc : (st p).chain = some c) (hd : (st q).chain = some d)
    (he : c.i0 = d.i0) : p = q := h.apart hc hd (i := c.i0) (by simp [Chain.idx])
      (by simp [Chain.idx, he])

/-- Two calls for the same buffer are one. -/
theorem Locks.buf_inj (h : Locks s) (hc : (s.stages p).chain = some c)
    (hd : (s.stages q).chain = some d) (he : c.buf = d.buf) : p = q := by
  have h1 := h.buf p c.buf (buf_of_chain hc)
  have h2 := h.buf q d.buf (buf_of_chain hd)
  rw [he, h2] at h1
  exact (Option.some.inj h1).symm

theorem Locks.one (h : Locks s) (hp : (s.pcs p).locked = true) (hq : (s.pcs q).locked = true) :
    p = q := by
  have h1 := h.proc p hp
  rw [h.proc q hq] at h1
  exact Actor.proc.inj (Option.some.inj h1).symm

theorem Traffic.small (ht : Traffic s st) (ho : Owned free st) : s.flight ⊆ List.range NUM := by
  intro h hh
  obtain ⟨p, c, hc, rfl, -⟩ := (ht.flight h).mp hh
  exact List.mem_range.mpr (ho.i0_lt (chain_of_written (written_of_public hc)))

/-- A head that has not been published is not under way. -/
theorem Traffic.not_flight (ht : Traffic s st) (ho : Owned free st) (hc : (st p).chain = some c)
    (hp : (st p).public = none) : c.i0 ∉ s.flight := by
  intro hin
  obtain ⟨q, d, hd, he, -⟩ := (ht.flight _).mp hin
  obtain rfl := ho.head_inj hc (chain_of_written (written_of_public hd)) he.symm
  rw [hp] at hd
  exact absurd hd (by simp)

theorem length_lt (hnd : s.flight.Nodup) (hsub : s.flight ⊆ List.range NUM) (hh : h ∉ s.flight)
    (hlt : h < NUM) : s.flight.length < NUM := by
  have hnd' : (h :: s.flight).Nodup := List.nodup_cons.mpr ⟨hh, hnd⟩
  have hsub' : h :: s.flight ⊆ List.range NUM := List.cons_subset.mpr ⟨List.mem_range.mpr hlt, hsub⟩
  have := (hnd'.subperm hsub').length_le
  rw [List.length_cons, List.length_range] at this
  omega

end Xv6Cow.Virtio

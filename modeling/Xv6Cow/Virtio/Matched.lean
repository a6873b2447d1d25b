import Xv6Cow.Virtio.Steps

/-! # Requests and completions are matched

Whatever the processes, the handler and the device do, and for however long: the descriptors are
those of the calls that are under way and the free ones, what has been published reaches the device,
each completion clears the flag of the buffer that was submitted with its head, and a call returns
only after the device has completed its request. -/

namespace Xv6Cow.Virtio

open RingIndex Runs

variable {s t : State} {p x : ℕ} {c : Chain} {a : Act}

/-- The call has been published and has not seen its completion. -/
def Pc.waiting : Pc → Option Chain
  | .wait c => some c
  | .sleepBuf c => some c
  | .wokenBuf c => some c
  | _ => none

structure Matched (s : State) : Prop where
  /-- Neither `free_desc` nor the handler has panicked. -/
  panic : s.panic = none
  /-- A descriptor is free and in no chain, or in the chain of one call. -/
  descriptors : ∀ i < NUM, (s.free i = true ∧ ∀ p c, (s.pcs p).chain = some c → i ∉ c.idx) ∨
    (s.free i = false ∧ ∃! p, ∃ c, (s.pcs p).chain = some c ∧ i ∈ c.idx)
  /-- A chain has three descriptors. -/
  chains : ∀ p c, (s.pcs p).chain = some c → c.idx.Nodup ∧ ∀ i ∈ c.idx, i < NUM
  disjoint : ∀ p q c d, p ≠ q → (s.pcs p).chain = some c → (s.pcs q).chain = some d →
    c.idx.Disjoint d.idx
  /-- An entry of the avail ring stays what it is until the device takes it. -/
  kept : ∀ a t, step s a = some t → s.queue <+: t.queue ∨ a = .take ∧ ∃ h, s.queue = h :: t.queue ∧
    t.taken = h :: s.taken
  /-- The handler clears the flag of the buffer that was submitted with the head it sees, and no
  other. -/
  cleared : ∀ x t, s.intr x = .body → step s (.runIntr x) = some t → ∃ p c, (s.pcs p).waiting = some c ∧
    c.i0 = s.usedRing (s.seenIdx % NUM) ∧ s.busy c.buf = true ∧
      t.busy = Function.update s.busy c.buf false
  /-- A call that returns has been completed. -/
  returned : ∀ p c, s.pcs p = .free c ∨ s.pcs p = .release c → s.done c.i0 = true

/-! ### The avail ring -/

theorem Inv.run_queue (h : Inv s) (hs : Virtio.run s p = some t) : s.queue <+: t.queue := by
  have ho := h.owned
  have ht := h.traffic
  have hroom : ∀ c, (s.stages p).chain = some c → (s.stages p).public = none →
      RingIndex.count IDX s.lastAvail s.availIdx < NUM :=
    fun c => ht.room ho
  cases hpc : s.pcs p with
  | alloc b w =>
      simp only [Virtio.run, hpc] at hs
      cases hs
      rcases alloc3Desc_cases s with ⟨i0, i1, i2, free, he, -⟩ | ⟨desc, pcs, he, -⟩
      · rw [he]
        exact List.prefix_rfl
      · rw [he]
        exact List.prefix_rfl
  | ring c =>
      simp only [Virtio.run, hpc] at hs
      cases hs
      have hstage : s.stages p = .built c := stages_of hpc
      have hq := window_write ht.last ht.avail NUM_dvd_IDX
        (hroom c (by rw [hstage]; rfl) (by rw [hstage]; rfl)) (r := s.availRing) (x := c.i0)
      exact ⟨[], (List.append_nil _).trans hq.symm⟩
  | publish c =>
      simp only [Virtio.run, hpc] at hs
      cases hs
      have hstage : s.stages p = .ringed c := stages_of hpc
      have hlt := hroom c (by rw [hstage]; rfl) (by rw [hstage]; rfl)
      have hq := window_advance ht.last ht.avail NUM_dvd_IDX
        ((Nat.succ_le_of_lt hlt).trans_lt (by decide)) (r := s.availRing)
      exact ⟨_, hq.symm⟩
  | free c =>
      obtain ⟨desc, free, pcs, he, -⟩ := h.freed hpc
      rw [he] at hs
      cases hs
      exact List.prefix_rfl
  | wait c =>
      simp only [Virtio.run, hpc] at hs
      cases hs
      split_ifs
      · exact List.prefix_rfl
      · exact List.prefix_rfl
  | format c w =>
      simp only [Virtio.run, hpc] at hs
      cases hs
      exact List.prefix_rfl
  | release c =>
      simp only [Virtio.run, hpc] at hs
      cases hs
      exact List.prefix_rfl
  | _ =>
      simp only [Virtio.run, hpc] at hs
      cases hs

/-- A step leaves the entries of the avail ring, unless it is the one with which the device takes
the first of them. -/
theorem Inv.queue_step (h : Inv s) (hs : Virtio.step s a = some t) :
    s.queue <+: t.queue ∨ a = .take ∧ ∃ k, s.queue = k :: t.queue ∧ t.taken = k :: s.taken := by
  unfold Virtio.step at hs
  rw [if_neg (by simp [h.panic])] at hs
  cases a with
  | run p => exact Or.inl (h.run_queue hs)
  | take =>
      dsimp only at hs
      split_ifs at hs with hne
      cases hs
      exact Or.inr ⟨rfl, _, window_pop h.traffic.last h.traffic.avail NUM_dvd_IDX hne, rfl⟩
  | finish k =>
      dsimp only at hs
      split_ifs at hs with hc
      obtain ⟨k', -, rfl⟩ := Option.map_eq_some_iff.mp hs
      exact Or.inl List.prefix_rfl
  | runIntr x =>
      dsimp only at hs
      split at hs
      · cases hs
      · split_ifs at hs
        all_goals cases hs
        all_goals exact Or.inl List.prefix_rfl
      · rename_i hx
        obtain ⟨p, c, hc, he, -, hr⟩ := h.traffic.head (h.traffic.body x hx)
        rw [h.traffic.handle_eq hc he hr x] at hs
        cases hs
        exact Or.inl List.prefix_rfl
  | acquire p =>
      dsimp only at hs
      split_ifs at hs
      split at hs
      all_goals cases hs
      all_goals exact Or.inl List.prefix_rfl
  | kill p =>
      dsimp only at hs
      split at hs
      all_goals cases hs
      all_goals exact Or.inl List.prefix_rfl
  | post =>
      dsimp only at hs
      split at hs
      all_goals cases hs
      all_goals exact Or.inl List.prefix_rfl
  | _ =>
      dsimp only at hs
      split_ifs at hs
      cases hs
      exact Or.inl List.prefix_rfl

/-! ### Completions -/

theorem Inv.waiting (h : Inv s) (hc : (s.stages p).public = some c) (hb : s.busy c.buf = true) :
    (s.pcs p).waiting = some c := by
  have hnot : s.stages p ≠ .closing c := by
    intro hs
    rw [h.traffic.closing p c hs] at hb
    exact absurd hb (by simp)
  unfold State.stages at hc hnot
  cases hpc : s.pcs p <;> simp_all [Pc.stage, Stage.public, Pc.waiting]

theorem Inv.cleared (h : Inv s) (hx : s.intr x = .body) (hs : Virtio.step s (.runIntr x) = some t) :
    ∃ p c, (s.pcs p).waiting = some c ∧ c.i0 = s.usedRing (s.seenIdx % NUM) ∧ s.busy c.buf = true ∧
      t.busy = Function.update s.busy c.buf false := by
  obtain ⟨p, c, hc, he, hb, hr⟩ := h.traffic.head (h.traffic.body x hx)
  unfold Virtio.step at hs
  rw [if_neg (by simp [h.panic])] at hs
  simp only [hx, h.traffic.handle_eq hc he hr x] at hs
  cases hs
  exact ⟨p, c, h.waiting hc hb, he, hb, rfl⟩

theorem Inv.matched (h : Inv s) : Matched s := by
  have ho := h.owned
  have hchain : ∀ p c, (s.pcs p).chain = some c → (s.stages p).chain = some c :=
    fun p c hc => (chain_stage (s.pcs p)).trans hc
  refine ⟨h.panic, ?_, ?_, ?_, fun a t hs => h.queue_step hs, fun x t hx hs => h.cleared hx hs, ?_⟩
  · intro i hi
    have hused := ho.used i hi
    cases hf : s.free i with
    | true =>
        refine Or.inl ⟨rfl, fun p c hc hin => ?_⟩
        have := hused.mpr ⟨p, c, hchain p c hc, hin⟩
        exact absurd (hf.symm.trans this) (by simp)
    | false =>
        obtain ⟨p, c, hc, hin⟩ := hused.mp hf
        refine Or.inr ⟨rfl, p, ⟨c, (chain_stage (s.pcs p)).symm.trans hc, hin⟩, ?_⟩
        rintro q ⟨d, hd, hin'⟩
        exact ho.apart (hchain q d hd) hc hin' hin
  · intro p c hc
    exact ⟨ho.nodup (hchain p c hc), ho.small (hchain p c hc)⟩
  · intro p q c d hne hc hd i hi hi'
    exact hne (ho.apart (hchain p c hc) (hchain q d hd) hi hi')
  · rintro p c (hp | hp)
    · have hstage : s.stages p = .closing c := stages_of hp
      exact h.traffic.done p c (by rw [hstage]; rfl) (Or.inr (h.traffic.closing p c hstage))
    · exact h.returning p c hp

/-! ### Runs -/

theorem init_inv (blockno : ℕ → ℕ) : Inv (init blockno) := by
  have hready : (init blockno).ready = [] := by
    simp [State.ready, State.posted, window, RingIndex.count, init]
  have hflight : (init blockno).flight = [] := by
    rw [State.flight, hready]
    simp [State.queue, window, RingIndex.count, init]
  have hstages : (init blockno).stages = fun _ => .none := rfl
  have hpos : 0 < IDX := by decide
  refine ⟨rfl, ?_, ?_, ?_, fun p c hp => absurd hp (by simp [init])⟩
  · exact ⟨fun p hp => absurd hp (by simp [init, Pc.locked]), fun x hx => absurd rfl hx,
      fun p b hb => absurd hb (by simp [init, Pc.buf])⟩
  · rw [hstages]
    refine ⟨by simp [Stage.chain], by simp [Stage.chain], by simp [Stage.chain], fun i hi => ?_⟩
    simp [Stage.chain, init, hi]
  · rw [hstages]
    refine ⟨by simp [Stage.written], by simp [Stage.private], by simp, ?_,
      by simp [hflight, Stage.public], by simp [init],
      by simp [hready], by simp [Stage.public], by simp, hpos, hpos, hpos, hpos, by simp [init]⟩
    rw [hflight]
    exact List.nodup_nil

/-- **Requests and completions are matched.**  In every state of every run of the processes, the
handler and the device. -/
theorem disk_requests_matched (blockno : ℕ → ℕ) {ls : List Act}
    (h : exec step (init blockno) ls = some s) : Matched s :=
  (exec_invariant (I := Inv) (init_inv blockno) (fun _ _ _ hI hs => hI.step hs) h).matched

/-- Two calls; the device completes the second one first. -/
def twoCalls : List Act :=
  [.lockBuf 0 7, .lockBuf 1 8, .call 0 7 true, .call 1 8 false, .acquire 0] ++
    List.replicate 5 (.run 0) ++ .acquire 1 :: List.replicate 5 (.run 1) ++
    [.take, .take, .finish 3, .post, .finish 0, .post, .irq 1] ++
    List.replicate 5 (.runIntr 1) ++ .acquire 0 :: List.replicate 3 (.run 0) ++
    [.acquire 1, .run 1, .run 1]

set_option maxRecDepth 100000 in
theorem disk_requests_matched_two : (after step (init id) twoCalls).pcs 0 = .idle ∧
    (after step (init id) twoCalls).pcs 1 = .release ⟨8, 3, 4, 5⟩ ∧
      Matched (after step (init id) twoCalls) :=
  ⟨by decide +kernel, by decide +kernel,
    disk_requests_matched id (exec_after step (init id) twoCalls (by decide +kernel))⟩

end Xv6Cow.Virtio

import Xv6Cow.Virtio.Traffic

/-! # Every step keeps the invariant

The steps that only move a call from one place to the next within a stage, with or without the lock,
are one lemma (`Inv.move`); the steps that change the stage of a call or that see a completion
follow from the lemmas about the rings and those about the descriptors. -/

namespace Xv6Cow.Virtio

open RingIndex
open Function (update update_self update_of_ne)

variable {s t : State} {p q b x : ℕ} {c : Chain} {pc : Pc} {w : Bool} {a : Act}

/-! ### The locks -/

theorem Locks.view (h : Locks s) {desc : ℕ → Desc} {free : ℕ → Bool} {info : ℕ → Info} {pcs : ℕ → Pc}
    (hv : SameView s.pcs pcs) : Locks
      { s with desc := desc, free := free, info := info, pcs := pcs } where
  proc q hq := h.proc q ((hv.locked q).symm.trans hq)
  intr := h.intr
  buf q b hq := h.buf q b ((hv.buf q).symm.trans hq)

/-- A step of process `p`, which holds the lock, takes it, or leaves it as it is. -/
theorem Locks.move (h : Locks s) (hpcs : t.pcs = update s.pcs p pc) (hintr : t.intr = s.intr)
    (hholder : t.holder = s.holder) (hlock : t.lock = s.lock ∨ s.lock = none ∨ s.lock = some (.proc p))
    (hpc : pc.locked = true → t.lock = some (.proc p))
    (hbuf : ∀ b, pc.buf = some b → s.holder b = some p) : Locks t := by
  have hkeep : ∀ y, y ≠ Actor.proc p → s.lock = some y → t.lock = some y := by
    intro y hne hy
    rcases hlock with he | hn | hn
    · exact he.trans hy
    · rw [hn] at hy
      exact absurd hy (by simp)
    · rw [hn] at hy
      exact absurd (Option.some.inj hy).symm hne
  refine ⟨?_, ?_, ?_⟩
  · intro q hq
    rw [hpcs] at hq
    rcases eq_or_ne q p with rfl | hne
    · exact hpc (by rwa [update_self] at hq)
    · rw [update_of_ne hne] at hq
      exact hkeep _ (fun he => hne (Actor.proc.inj he)) (h.proc q hq)
  · intro y hy
    rw [hintr] at hy
    exact hkeep _ (by simp) (h.intr y hy)
  · intro q b hq
    rw [hpcs] at hq
    rw [hholder]
    rcases eq_or_ne q p with rfl | hne
    · exact hbuf b (by rwa [update_self] at hq)
    · exact h.buf q b (by rwa [update_of_ne hne] at hq)

/-! ### Steps within a stage -/

theorem stages_of_view {pcs : ℕ → Pc} (hv : ∀ q, (pcs q).stage = (s.pcs q).stage) :
    State.stages { s with pcs := pcs } = s.stages :=
  funext hv

theorem Inv.quiet (h : Inv s) {lock : Option Actor} {pcs : ℕ → Pc} {holder : ℕ → Option ℕ}
    (hl : Locks { s with lock := lock, pcs := pcs, holder := holder })
    (hst : ∀ q, (pcs q).stage = (s.pcs q).stage)
    (hret : ∀ q c, pcs q = .release c → s.pcs q = .release c) :
    Inv { s with lock := lock, pcs := pcs, holder := holder } where
  panic := h.panic
  locks := hl
  owned := h.owned.keep (fun q => congrArg Stage.chain (hst q))
  traffic := h.traffic.stay (fun _ _ _ _ _ => rfl) (fun q => Or.inl (hst q))
  returning q c hq := h.returning q c (hret q c hq)

theorem stage_update (hst : pc.stage = (s.pcs p).stage) (q : ℕ) : (update s.pcs p pc q).stage =
    (s.pcs q).stage := by
  rcases eq_or_ne q p with rfl | hne
  · rw [update_self, hst]
  · rw [update_of_ne hne]

theorem release_update (hpc : ∀ c, pc ≠ .release c) {c : Chain}
    (hq : update s.pcs p pc q = .release c) : q ≠ p ∧ s.pcs q = .release c := by
  rcases eq_or_ne q p with rfl | hne
  · rw [update_self] at hq
    exact absurd hq (hpc c)
  · rw [update_of_ne hne] at hq
    exact ⟨hne, hq⟩

section
variable (h : Inv s)
include h

theorem Inv.move {k : Option Actor} (hlock : k = s.lock ∨ s.lock = none ∨ s.lock = some (.proc p))
    (hpc : pc.locked = true → k = some (.proc p)) (hbuf : ∀ b, pc.buf = some b → s.holder b = some p)
    (hst : pc.stage = (s.pcs p).stage) (hret : ∀ c, pc ≠ .release c) :
    Inv ({ s with lock := k }.setPc p pc) :=
  h.quiet (h.locks.move rfl rfl rfl hlock hpc hbuf) (stage_update hst)
    (fun _ _ hq => (release_update hret hq).2)

theorem Inv.lockBuf (hb : s.holder b = none) : Inv { s with holder := update s.holder b (some p) } := by
  refine h.quiet ⟨h.locks.proc, h.locks.intr, ?_⟩ (fun _ => rfl) (fun _ _ hq => hq)
  intro q d hq
  have hd := h.locks.buf q d hq
  rw [← hd]
  refine update_of_ne ?_ _ _
  rintro rfl
  rw [hb] at hd
  exact absurd hd (by simp)

theorem Inv.unlockBuf (hb : s.holder b = some p) (hp : s.pcs p = .idle) :
    Inv { s with holder := update s.holder b none } := by
  refine h.quiet ⟨h.locks.proc, h.locks.intr, ?_⟩ (fun _ => rfl) (fun _ _ hq => hq)
  intro q d hq
  have hd := h.locks.buf q d hq
  rw [← hd]
  refine update_of_ne ?_ _ _
  rintro rfl
  rw [hb] at hd
  obtain rfl := Option.some.inj hd
  rw [hp] at hq
  exact absurd hq (by simp [Pc.buf])

theorem Inv.call (hb : s.holder b = some p) (hp : s.pcs p = .idle) : Inv (s.setPc p (.enter b w)) := by
  refine h.move (k := s.lock) (Or.inl rfl) (fun hl => absurd hl (by simp [Pc.locked])) ?_
    (by rw [hp]; rfl) (by simp)
  intro d hd
  exact Option.some.inj hd ▸ hb

theorem Inv.acquire (hlock : s.lock = none) (hbuf : pc.buf = (s.pcs p).buf)
    (hst : pc.stage = (s.pcs p).stage) (hret : ∀ c, pc ≠ .release c) :
    Inv ({ s with lock := some (.proc p) }.setPc p pc) :=
  h.move (Or.inr (Or.inl hlock)) (fun _ => rfl) (fun b hb => h.locks.buf p b (hbuf.symm.trans hb))
    hst hret

theorem Inv.kill (hpc : pc.locked = false) (hbuf : pc.buf = (s.pcs p).buf)
    (hst : pc.stage = (s.pcs p).stage) (hret : ∀ c, pc ≠ .release c) : Inv (s.setPc p pc) :=
  h.move (Or.inl rfl) (fun hl => absurd (hpc.symm.trans hl) (by simp))
    (fun b hb => h.locks.buf p b (hbuf.symm.trans hb)) hst hret

theorem Inv.unlock (hlock : s.lock = some (.proc p)) (hpc : pc.locked = false)
    (hbuf : ∀ b, pc.buf = some b → s.holder b = some p) (hst : pc.stage = (s.pcs p).stage)
    (hret : ∀ c, pc ≠ .release c) : Inv ({ s with lock := none }.setPc p pc) :=
  h.move (Or.inr (Or.inr hlock)) (fun hl => absurd (hpc.symm.trans hl) (by simp)) hbuf hst hret

/-! ### `virtio_disk_rw` -/

theorem Inv.alloc (hp : s.pcs p = .alloc b w) (hs : run s p = some t) : Inv t := by
  have hlock : s.lock = some (.proc p) := h.locks.proc p (by rw [hp]; rfl)
  have hheld : s.holder b = some p := h.locks.buf p b (by rw [hp]; rfl)
  have hstage : s.stages p = .none := stages_of hp
  simp only [run, hp] at hs
  cases hs
  rcases alloc3Desc_cases s with ⟨i0, i1, i2, free, he, ha⟩ | ⟨desc, pcs, he, hdesc, hv⟩
  · rw [he]
    show Inv (State.setPc { s with free := free } p (.format ⟨b, i0, i1, i2⟩ w))
    refine ⟨h.panic, h.locks.move rfl rfl rfl (Or.inl rfl) (fun _ => hlock) ?_, ?_, ?_, ?_⟩
    · intro d hd
      exact Option.some.inj hd ▸ hheld
    · rw [stages_setPc]
      exact h.owned.alloc (by rw [hstage]; rfl) ha
    · rw [stages_setPc]
      refine h.traffic.stay (fun _ _ _ _ _ => rfl) (fun q => ?_)
      rcases eq_or_ne q p with rfl | hne
      · exact Or.inr ⟨by rw [hstage]; rfl, by rw [update_self]; rfl⟩
      · exact Or.inl (update_of_ne hne _ _)
    · intro q c hq
      exact h.returning q c (release_update (by simp) hq).2
  · rw [he]
    show Inv (State.setPc { s with desc := desc, pcs := pcs, lock := none } p (.sleepFree b w))
    have hinv : Inv { s with desc := desc, pcs := pcs } := by
      have hst := stages_of_view hv.stage
      refine ⟨h.panic, h.locks.view hv, hst ▸ h.owned, ?_,
        fun q c hq => h.returning q c (hv.returning q c hq)⟩
      refine h.traffic.stay (fun q d hd i hi => hdesc i ?_) (fun q => Or.inl (hv.stage q))
      have hchain := chain_of_written hd
      exact (h.owned.used i (h.owned.small hchain i hi)).mpr ⟨q, d, hchain, hi⟩
    refine hinv.unlock hlock rfl ?_ ?_ (by simp)
    · intro d hd
      exact Option.some.inj hd ▸ hheld
    · exact ((hv.stage p).trans (by rw [hp]; rfl)).symm

theorem Inv.freed (hp : s.pcs p = .free c) : ∃ desc free pcs,
    run s p = some (State.setPc { s with
      info := update s.info c.i0 { s.info c.i0 with b := none }, desc := desc, free := free, pcs :=
        pcs } p
      (.release c)) ∧ Freed s c.idx desc free pcs := by
  have hstage : s.stages p = .closing c := stages_of hp
  have hchain : (s.stages p).chain = some c := by rw [hstage]; rfl
  have hsmall := h.owned.small hchain
  obtain ⟨desc, free, pcs, he, hfr⟩ :=
    freeChain_ok (s := { s with info := update s.info c.i0 { s.info c.i0 with b := none } })
      (h.traffic.built p c (by rw [hstage]; rfl)).linked (h.owned.nodup hchain) hsmall
      (fun i hi => (h.owned.used i (hsmall i hi)).mpr ⟨p, c, hchain, hi⟩)
      (show [c.i1, c.i2].length < NUM + 1 by simp [NUM])
  refine ⟨desc, free, pcs, ?_, hfr.desc, hfr.free, hfr.view⟩
  simp only [run, hp, he]
  rfl

theorem Inv.free (hp : s.pcs p = .free c) (hs : run s p = some t) : Inv t := by
  have hlock : s.lock = some (.proc p) := h.locks.proc p (by rw [hp]; rfl)
  have hheld : s.holder c.buf = some p := h.locks.buf p c.buf (by rw [hp]; rfl)
  have hstage : s.stages p = .closing c := stages_of hp
  have hchain : (s.stages p).chain = some c := by rw [hstage]; rfl
  obtain ⟨desc, free, pcs, he, hfr⟩ := h.freed hp
  rw [he] at hs
  cases hs
  have hst : State.stages { s with pcs := pcs } = s.stages := stages_of_view hfr.view.stage
  have hstages : (State.setPc { s with
      info := update s.info c.i0 { s.info c.i0 with b := none }, desc := desc, free := free, pcs :=
        pcs } p
      (.release c)).stages = update s.stages p .none := by
    rw [stages_setPc]
    exact congrArg (fun st => update st p Stage.none) hst
  refine ⟨h.panic, (h.locks.view hfr.view).move rfl rfl rfl (Or.inl rfl) (fun _ => hlock) ?_, ?_, ?_, ?_⟩
  · intro d hd
    exact Option.some.inj hd ▸ hheld
  · rw [hstages]
    exact h.owned.give hchain hfr.free
  · rw [hstages]
    exact h.traffic.free h.owned hp hfr.desc
  · intro q d hq
    have hq' : update pcs p (.release c) q = .release d := hq
    rcases eq_or_ne q p with rfl | hne
    · rw [update_self] at hq'
      obtain rfl := Pc.release.inj hq'
      exact h.traffic.done q c (by rw [hstage]; rfl) (Or.inr (h.traffic.closing q c hstage))
    · rw [update_of_ne hne] at hq'
      exact h.returning q d (hfr.view.returning q d hq')

/-- A process that holds the lock and its descriptors goes on to the next stage. -/
theorem Inv.advance (hpcs : t.pcs = update s.pcs p pc) (hintr : t.intr = s.intr)
    (hholder : t.holder = s.holder) (hlock : t.lock = s.lock) (hfree : t.free = s.free)
    (hpanic : t.panic = s.panic) (hlocked : (s.pcs p).locked = true)
    (hchain : pc.stage.chain = (s.pcs p).stage.chain) (hbuf : pc.buf = (s.pcs p).buf)
    (hret : ∀ c, pc ≠ .release c) (hdone : ∀ q c, q ≠ p → s.pcs q = .release c → t.done c.i0 = true)
    (htraffic : Traffic t (update s.stages p pc.stage)) : Inv t := by
  have hstages : t.stages = update s.stages p pc.stage := by
    rw [← stages_setPc]
    exact congrArg (fun pcs q => Pc.stage (pcs q)) hpcs
  refine ⟨hpanic.trans h.panic, h.locks.move hpcs hintr hholder (Or.inl hlock)
    (fun _ => hlock.trans (h.locks.proc p hlocked))
    (fun b hb => h.locks.buf p b (hbuf.symm.trans hb)), ?_, hstages ▸ htraffic, ?_⟩
  · rw [hfree, hstages]
    refine h.owned.keep (fun q => ?_)
    rcases eq_or_ne q p with rfl | hne
    · rw [update_self]
      exact hchain
    · rw [update_of_ne hne]
  · intro q c hq
    rw [hpcs] at hq
    obtain ⟨hne, hq⟩ := release_update hret hq
    exact hdone q c hne hq

theorem Inv.run (hs : run s p = some t) : Inv t := by
  have hold : ∀ q c, q ≠ p → s.pcs q = .release c → s.done c.i0 = true :=
    fun q c _ hq => h.returning q c hq
  cases hpc : s.pcs p with
  | alloc b w => exact h.alloc hpc hs
  | free c => exact h.free hpc hs
  | format c w =>
      simp only [Virtio.run, hpc] at hs
      cases hs
      refine h.advance rfl rfl rfl rfl rfl rfl ?_ ?_ ?_ (by simp) hold
        (h.traffic.format h.owned h.locks hpc)
      all_goals rw [hpc]; rfl
  | ring c =>
      simp only [Virtio.run, hpc] at hs
      cases hs
      refine h.advance rfl rfl rfl rfl rfl rfl ?_ ?_ ?_ (by simp) hold
        (h.traffic.ring h.owned h.locks hpc)
      all_goals rw [hpc]; rfl
  | publish c =>
      simp only [Virtio.run, hpc] at hs
      cases hs
      have hlocked : (s.pcs p).locked = true := by rw [hpc]; rfl
      refine h.advance rfl rfl rfl rfl rfl rfl hlocked ?_ ?_ (by simp) ?_
        (h.traffic.publish h.owned h.locks hpc)
      · rw [hpc]; rfl
      · rw [hpc]; rfl
      · intro q d hne hq
        exact absurd (h.locks.one (by rw [hq]; rfl) hlocked) hne
  | wait c =>
      simp only [Virtio.run, hpc] at hs
      cases hs
      have hlocked : (s.pcs p).locked = true := by rw [hpc]; rfl
      split_ifs with hb
      · refine h.unlock (h.locks.proc p hlocked) rfl ?_ (by rw [hpc]; rfl) (by simp)
        intro b hb
        exact h.locks.buf p b (by rw [hpc]; exact hb)
      · refine h.advance rfl rfl rfl rfl rfl rfl hlocked ?_ ?_ (by simp) hold
          (h.traffic.exit hpc (Bool.not_eq_true _ ▸ hb))
        · rw [hpc]; rfl
        · rw [hpc]; rfl
  | release c =>
      simp only [Virtio.run, hpc] at hs
      cases hs
      exact h.unlock (h.locks.proc p (by rw [hpc]; rfl)) rfl (by simp [Pc.buf]) (by rw [hpc]; rfl)
        (by simp)
  | _ =>
      simp only [Virtio.run, hpc] at hs
      cases hs

/-! ### `virtio_disk_intr` -/

/-- The handler on CPU `x` takes the lock, goes on with it, or gives it up. -/
theorem Inv.intrMove {lock : Option Actor} {pc : IntrPc}
    (hlock : s.lock = none ∨ s.lock = some (.intr x)) (hpc : pc ≠ .idle → lock = some (.intr x))
    (hbody : pc = .body → s.seenIdx ≠ s.usedIdx) :
    Inv { s with lock := lock, intr := update s.intr x pc } := by
  have hfree : ∀ y, s.lock = some y → y = .intr x := by
    intro y hy
    rcases hlock with hn | hn
    · rw [hn] at hy
      exact absurd hy (by simp)
    · rw [hn] at hy
      exact (Option.some.inj hy).symm
  have ht := h.traffic
  refine ⟨h.panic, ⟨?_, ?_, h.locks.buf⟩, h.owned, ?_, h.returning⟩
  · intro q hq
    exact absurd (hfree _ (h.locks.proc q hq)) (by simp)
  · intro y (hy : update s.intr x pc y ≠ .idle)
    rcases eq_or_ne y x with rfl | hne
    · exact hpc (by rwa [update_self] at hy)
    · rw [update_of_ne hne] at hy
      exact absurd (Actor.intr.inj (hfree _ (h.locks.intr y hy))) hne
  · refine ⟨ht.built, ht.busy, ht.ringed, ht.nodup, ht.flight, ht.posting, ht.status, ht.done,
      ht.closing, ht.avail, ht.last, ht.used, ht.seen, ?_⟩
    intro y hy
    rcases eq_or_ne y x with rfl | hne
    · exact hbody ((update_self _ _ _).symm.trans hy)
    · exact ht.body y ((update_of_ne hne _ _).symm.trans hy)

theorem Inv.handle (hx : s.intr x = .body) : Inv (handle s x) := by
  obtain ⟨p, c, hc, he, -, hr⟩ := h.traffic.head (h.traffic.body x hx)
  have hlock := h.locks.intr x (by simp [hx])
  have hv := sameView_wakeBuf c.buf s.pcs
  have hl : Locks { s with pcs := fun q => (s.pcs q).wakeBuf c.buf } := h.locks.view hv
  rw [h.traffic.handle_eq hc he hr x]
  have hst : State.stages { s with pcs := fun q => (s.pcs q).wakeBuf c.buf } = s.stages :=
    stages_of_view hv.stage
  refine ⟨h.panic, ⟨hl.proc, ?_, hl.buf⟩, hst ▸ h.owned, ?_,
    fun q d hq => h.returning q d (hv.returning q d hq)⟩
  · intro y (hy : update s.intr x .loop y ≠ .idle)
    rcases eq_or_ne y x with rfl | hne
    · exact hlock
    · exact h.locks.intr y (by rwa [update_of_ne hne] at hy)
  · exact hst ▸ h.traffic.handle h.owned h.locks hx hc he hr

theorem Inv.runIntr (hs : step s (.runIntr x) = some t) : Inv t := by
  unfold Virtio.step at hs
  rw [if_neg (by simp [h.panic])] at hs
  dsimp only at hs
  split at hs
  all_goals rename_i hx
  · cases hs
  · have hlock := h.locks.intr x (by simp [hx])
    split_ifs at hs with hne
    all_goals cases hs
    · exact h.intrMove (Or.inr hlock) (fun _ => hlock) (fun _ => hne)
    · exact h.intrMove (Or.inr hlock) (fun hn => absurd rfl hn) (fun hb => absurd hb (by simp))
  · cases hs
    exact h.handle hx

/-! ### The device -/

theorem Inv.complete {k : ℕ} (hk : k ∈ s.taken) (hpost : s.posting = none) : Inv (complete s k k) where
  panic := h.panic
  locks := ⟨h.locks.proc, h.locks.intr, h.locks.buf⟩
  owned := h.owned
  traffic := h.traffic.complete h.owned hk hpost
  returning q c hq := by
    rcases eq_or_ne c.i0 k with he | hne
    · exact he ▸ update_self _ _ _
    · exact (update_of_ne hne _ _).trans (h.returning q c hq)

/-! ### The step theorem -/

theorem Inv.step (hs : step s a = some t) : Inv t := by
  unfold Virtio.step at hs
  rw [if_neg (by simp [h.panic])] at hs
  cases a with
  | lockBuf p b =>
      dsimp only at hs
      split_ifs at hs with hc
      cases hs
      exact h.lockBuf hc.1
  | unlockBuf p b =>
      dsimp only at hs
      split_ifs at hs with hc
      cases hs
      exact h.unlockBuf hc.1 hc.2
  | call p b w =>
      dsimp only at hs
      split_ifs at hs with hc
      cases hs
      exact h.call hc.1 hc.2
  | acquire p =>
      dsimp only at hs
      split_ifs at hs with hlock
      split at hs
      all_goals rename_i hpc
      all_goals cases hs
      · exact h.acquire hlock (by rw [hpc]; rfl) (by rw [hpc]; rfl) (by simp)
      · exact h.acquire hlock (by rw [hpc]; rfl) (by rw [hpc]; rfl) (by simp)
      · exact h.acquire hlock (by rw [hpc]; rfl) (by rw [hpc]; rfl) (by simp)
  | run p => exact h.run hs
  | kill p =>
      dsimp only at hs
      split at hs
      all_goals rename_i hpc
      all_goals cases hs
      · exact h.kill rfl (by rw [hpc]; rfl) (by rw [hpc]; rfl) (by simp)
      · exact h.kill rfl (by rw [hpc]; rfl) (by rw [hpc]; rfl) (by simp)
  | irq x =>
      dsimp only at hs
      split_ifs at hs with hc
      cases hs
      exact h.intrMove (Or.inl hc.1) (fun _ => rfl) (fun hb => absurd hb (by simp))
  | runIntr x => exact h.runIntr (by rw [← hs]; unfold Virtio.step; rw [if_neg (by simp [h.panic])])
  | take =>
      dsimp only at hs
      split_ifs at hs with hne
      cases hs
      exact ⟨h.panic, ⟨h.locks.proc, h.locks.intr, h.locks.buf⟩, h.owned, h.traffic.take hne,
        h.returning⟩
  | finish k =>
      dsimp only at hs
      split_ifs at hs with hc
      rw [h.traffic.statusOf_eq (List.mem_append_left _ (List.mem_append_right _ hc.1))] at hs
      cases hs
      exact h.complete hc.1 hc.2
  | post =>
      dsimp only at hs
      split at hs
      all_goals cases hs
      rename_i k hpost
      exact ⟨h.panic, ⟨h.locks.proc, h.locks.intr, h.locks.buf⟩, h.owned,
        h.traffic.post h.owned hpost, h.returning⟩

end

end Xv6Cow.Virtio

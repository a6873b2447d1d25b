import Xv6Cow.Proc.Beside

/-! # No wakeup is lost

`sleep` releases its lock `lk` before the process is `SLEEPING`, and `wakeup` does not take `lk`.
What a later holder of `lk` relies on is `p->lock`: it is held from before the release of `lk` until
the process has been switched away from, so that the scan of `wakeup` passes the process before or
after, never in between.

A call of `sleep` by `p` is named by its number, `sleeps p`.  `InCall` says what is known of it,
`Entered` that it has released `lk`, and `Awake` that it does not sleep, and will not. -/

namespace Xv6Cow.Proc

variable {s s' t : Sys} {c d p q n lk : ℕ} {chan : Option Chan} {a : Act}

/-- The `n`-th call of `sleep` by `p`, if it has not ended, is one of `sleep(chan, lk)`. -/
structure InCall (s : Sys) (p n : ℕ) (chan : Option Chan) (lk : ℕ) : Prop where
  le : n ≤ s.sleeps p
  enter : s.sleeps p = n → ∀ ch l r, s.pc p = .sleep1 ch l r ∨ s.pc p = .sleep2 ch l r →
    ch = chan ∧ s.locks lk = some p
  released : s.sleeps p = n → ∀ ch l r, s.pc p = .sleep3 ch l r → ch = chan
  asleep : s.sleeps p = n → (s.slots p).state = .sleeping → (s.slots p).chan = chan

/-- The `n`-th call has released its lock, or has ended. -/
def Entered (s : Sys) (p n : ℕ) : Prop :=
  s.sleeps p = n → ∀ ch l r, s.pc p ≠ .sleep1 ch l r ∧ s.pc p ≠ .sleep2 ch l r

/-- In its `n`-th call `p` is not going to be `SLEEPING` any more. -/
structure Awake (s : Sys) (p n : ℕ) : Prop where
  le : n ≤ s.sleeps p
  awake : s.sleeps p = n → (s.pc p).falling = false ∧ (s.slots p).state ≠ .sleeping

/-! ### One step -/

theorem InCall.step (h : InCall s p n chan lk) (hr : Reachable s) (ht : step s a = some s') :
    InCall s' p n chan lk := by
  cases step_or_beside hr ht p with
  | inl ho =>
      have hle := h.le
      cases own_thread hr.ok ho.1 ho.2 with
      | call hpc hn hq hl hk => exact ⟨by omega, by omega, by omega, by omega⟩
      | lock hb hpc hn hq hl =>
          refine ⟨hn ▸ h.le, fun he ch l r hp => ?_, fun _ ch l r hp => ?_, fun he hs => ?_⟩
          · rw [hl]
            have := h.enter (hn ▸ he) _ _ _ (.inl hb)
            rw [hpc] at hp
            simp only [reduceCtorEq, false_or, Pc.sleep2.injEq] at hp
            exact hp.1 ▸ this
          · simp [hpc] at hp
          · rw [hq] at hs ⊢
            exact h.asleep (hn ▸ he) hs
      | release hb hpc hn hq =>
          refine ⟨hn ▸ h.le, fun _ ch l r hp => by simp [hpc] at hp, fun he ch l r hp => ?_,
            fun he hs => ?_⟩
          · rw [hpc, Pc.sleep3.injEq] at hp
            exact hp.1 ▸ (h.enter (hn ▸ he) _ _ _ (.inr hb)).1
          · rw [hq] at hs ⊢
            exact h.asleep (hn ▸ he) hs
      | sleep hb hpc hn hc hk =>
          refine ⟨hn ▸ h.le, fun _ ch l r hp => by simp [hpc] at hp, fun _ ch l r hp =>
            by simp [hpc] at hp, fun he _ => ?_⟩
          rw [hc]
          exact h.released (hn ▸ he) _ _ _ hb
      | away hb hpc hc hn hq =>
          refine ⟨hn ▸ h.le, fun _ ch l r hp => by simp [hpc] at hp, fun _ ch l r hp =>
            by simp [hpc] at hp, fun he hs => ?_⟩
          rw [hq] at hs ⊢
          exact h.asleep (hn ▸ he) hs
      | calm hpc hn hs =>
          refine ⟨hn ▸ h.le, fun _ ch l r hp => ?_, fun _ ch l r hp => ?_, fun _ he => absurd he hs⟩
          · cases hp with
            | inl hp => simp [hp, Pc.falling] at hpc
            | inr hp => simp [hp, Pc.falling] at hpc
          · simp [hp, Pc.falling] at hpc
  | inr hb =>
      refine ⟨hb.sleeps ▸ h.le, fun he ch l r hp => ?_, fun he ch l r hp => ?_, fun he hs => ?_⟩
      · cases hb.pc with
        | inl hpc =>
            rw [hpc] at hp
            have := h.enter (hb.sleeps ▸ he) ch l r hp
            exact ⟨this.1, hb.locks _ this.2⟩
        | inr hpc =>
            obtain ⟨-, k, hpc⟩ := hpc
            simp [hpc] at hp
      · cases hb.pc with
        | inl hpc => exact h.released (hb.sleeps ▸ he) ch l r (hpc ▸ hp)
        | inr hpc =>
            obtain ⟨-, k, hpc⟩ := hpc
            simp [hpc] at hp
      · obtain ⟨hs, hc⟩ := hb.asleep hs
        rw [hc]
        exact h.asleep (hb.sleeps ▸ he) hs

theorem Entered.step (h : Entered s p n) (hle : n ≤ s.sleeps p) (hr : Reachable s)
    (ht : step s a = some s') : Entered s' p n := by
  intro he ch l r
  cases step_or_beside hr ht p with
  | inl ho =>
      cases own_thread hr.ok ho.1 ho.2 with
      | call hpc hn hq hl hk => omega
      | lock hb hpc hn hq hl => exact absurd hb (h (hn ▸ he) _ _ _).1
      | release hb hpc hn hq => simp [hpc]
      | sleep hb hpc hn hc hk => simp [hpc]
      | away hb hpc hc hn hq => simp [hpc]
      | calm hpc hn hs =>
          refine ⟨fun hp => ?_, fun hp => ?_⟩ <;> simp [hp, Pc.falling] at hpc
  | inr hb =>
      cases hb.pc with
      | inl hpc => exact hpc ▸ h (hb.sleeps ▸ he) ch l r
      | inr hpc =>
          obtain ⟨-, k, hpc⟩ := hpc
          simp [hpc]

theorem Awake.step (h : Awake s p n) (hr : Reachable s) (ht : step s a = some s') : Awake s' p n := by
  have hle := h.le
  cases step_or_beside hr ht p with
  | inl ho =>
      cases own_thread hr.ok ho.1 ho.2 with
      | call hpc hn hq hl hk => exact ⟨by omega, by omega⟩
      | lock hb hpc hn hq hl | release hb hpc hn hq | sleep hb hpc hn hc hk =>
          refine ⟨hn ▸ hle, fun he => ?_⟩
          have := (h.awake (hn ▸ he)).1
          simp [hb, Pc.falling] at this
      | away hb hpc hc hn hq =>
          refine ⟨hn ▸ hle, fun he => ⟨by rw [hpc]; rfl, ?_⟩⟩
          rw [hq]
          exact (h.awake (hn ▸ he)).2
      | calm hpc hn hs => exact ⟨hn ▸ hle, fun _ => ⟨hpc, hs⟩⟩
  | inr hb =>
      refine ⟨hb.sleeps ▸ hle, fun he => ?_⟩
      obtain ⟨h1, h2⟩ := h.awake (hb.sleeps ▸ he)
      refine ⟨?_, fun hs => h2 (hb.asleep hs).1⟩
      cases hb.pc with
      | inl hpc => exact hpc ▸ h1
      | inr hpc =>
          obtain ⟨-, k, hpc⟩ := hpc
          rw [hpc]
          rfl

/-! ### The scan of `wakeup` -/

theorem Inv.on_cpu (h : Inv s) (hp : s.pc p ≠ .off) : ∃ c, (s.cpus c).pos = .thread p := by
  by_contra hno
  simp only [not_exists] at hno
  refine hp (h.rest p fun c hc => ?_).off
  have hx := h.cpu c
  have hi := hx.idx hc
  simp only [CpuOk] at hx
  cases hpos : (s.cpus c).pos <;> simp only [hpos] at hx <;>
    simp only [hpos, At.idx, Option.some.injEq, reduceCtorEq] at hi <;> subst hi
  case thread => exact hno c hpos
  case leave | enter => exact hp hx.2.2.2.1
  case back | returned => exact hp hx.2.2.2.off
  all_goals simp [hx.1] at hc

/-- A process whose lock is free is not on its way to sleep, once it has released `lk`. -/
theorem Entered.not_falling (h : Entered s p n) (hi : Inv s) (hl : s.plock p = none)
    (he : s.sleeps p = n) : (s.pc p).falling = false := by
  by_contra hf
  have hon : s.pc p ≠ .off := by
    intro hoff
    simp [hoff, Pc.falling] at hf
  obtain ⟨c, hc⟩ := hi.on_cpu hon
  have hlock := (hi.runs hc).2.2.lock
  have hne := h he
  rw [hl] at hlock
  cases hpc : s.pc p <;> simp_all [Pc.falling, Pc.own]

theorem Awake.of_wakeup (hc : InCall s p n chan lk) (he : Entered s p n) (hi : Inv s)
    (hl : s.plock p = none) {k : Pc} (hq : q ≠ p) : Awake ((wakeupSlot s p chan).setPc q k) p n := by
  have hpc : ((wakeupSlot s p chan).setPc q k).pc p = s.pc p := by
    unfold wakeupSlot
    split <;> exact Function.update_of_ne hq.symm _ _
  have hn : ((wakeupSlot s p chan).setPc q k).sleeps p = s.sleeps p := by
    unfold wakeupSlot
    split <;> rfl
  refine ⟨hn ▸ hc.le, fun hs => ⟨hpc ▸ he.not_falling hi hl (hn ▸ hs), ?_⟩⟩
  unfold wakeupSlot
  split
  · simp [Sys.setPc]
  · rename_i hno
    intro hslp
    exact hno ⟨hslp, hc.asleep (hn ▸ hs) hslp⟩

/-- A thread that is past slot `i` of a `wakeup` after a step was at slot `i` before it. -/
theorem wakeup_thread {i : ℕ} {b : After} (ht : Thread s c q a (s.pc q) s')
    (hq : s'.pc q = .wakeup chan (i + 1) b) : s.pc q = .wakeup chan i b ∧
      (i = q ∨ s.plock i = none ∧ s' = (wakeupSlot s i chan).setPc q (.wakeup chan (i + 1) b)) := by
  generalize hk : s.pc q = k at ht
  have no : ∀ (u : Sys) (k' : Pc), s' = u.setPc q k' → k' = .wakeup chan (i + 1) b := by
    intro u k' he
    rw [he, setPc_pc, Function.update_self] at hq
    exact hq
  cases ht with
  | user hc =>
      generalize a.call = x at hc
      cases hc with
      | setkilled _ | acquire | release => exact absurd (hk.symm.trans hq) (by simp)
      | _ => exact absurd (no _ _ rfl) (by simp)
  | wakeupSelf hi =>
      have he := no _ _ rfl
      simp only [Pc.wakeup.injEq, Nat.add_right_cancel_iff] at he
      obtain ⟨rfl, rfl, rfl⟩ := he
      exact ⟨rfl, .inl rfl⟩
  | wakeupNext hi hn hl =>
      have he := no _ _ rfl
      simp only [Pc.wakeup.injEq, Nat.add_right_cancel_iff] at he
      obtain ⟨rfl, rfl, rfl⟩ := he
      exact ⟨rfl, .inr ⟨hl, rfl⟩⟩
  | @wakeupDone ch j b' hj => exact absurd (no _ _ rfl) (by cases b' <;> simp [afterWakeup])
  | @sleep4 l r hl => exact absurd (no _ _ rfl) (by split <;> simp)
  | sched hp =>
      rw [Sys.setCpu, setPc_pc, Function.update_self] at hq
      exact absurd hq (by simp)
  | _ => exact absurd (no _ _ rfl) (by simp)

/-- The scan of every `wakeup(chan)` by `q` that is past `p` has left it awake. -/
def Scanned (s : Sys) (p q n : ℕ) (chan : Option Chan) : Prop :=
  ∀ i b, s.pc q = .wakeup chan i b → p < i → Awake s p n

theorem Scanned.step (h : Scanned s p q n chan) (hq : q ≠ p) (hc : InCall s p n chan lk)
    (he : Entered s p n) (hr : Reachable s) (ht : step s a = some s') : Scanned s' p q n chan := by
  intro i b hw hpi
  cases step_or_beside hr ht q with
  | inl ho =>
      obtain ⟨j, rfl⟩ : ∃ j, i = j + 1 := ⟨i - 1, by omega⟩
      obtain ⟨hb, hj⟩ := wakeup_thread ho.2 hw
      by_cases hpj : p < j
      · exact (h j b hb hpj).step hr ht
      · have hj' : j = p := by omega
        subst hj'
        cases hj with
        | inl hjq => exact absurd hjq.symm hq
        | inr hj => exact hj.2 ▸ .of_wakeup hc he hr.ok.inv hj.1 hq
  | inr hb =>
      cases hb.pc with
      | inl hpc => exact (h i b (hpc ▸ hw) hpi).step hr ht
      | inr hpc =>
          obtain ⟨-, k, hpc⟩ := hpc
          simp [hpc] at hw

/-! ### Runs -/

theorem Reachable.exec_induction {P : Sys → Prop} (hr : Reachable s) (h0 : P s)
    (hstep : ∀ u a v, Reachable u → P u → Proc.step u a = some v → P v) {as : List Act}
    (h : Runs.exec Proc.step s as = some t) : Reachable t ∧ P t := by
  refine Runs.exec_invariant (I := fun u => Reachable u ∧ P u) ⟨hr, h0⟩ ?_ h
  intro u a v hu ht
  exact ⟨hu.1.step ht, hstep u a v hu.1 hu.2 ht⟩

theorem leaves_sleeping (hr : Reachable s) (ht : step s a = some s') (hs : (s.slots p).state = .sleeping)
    (hn : (s'.slots p).state ≠ .sleeping) : Wakes s a p ∨ Hits s a p := by
  cases step_or_beside hr ht p with
  | inl ho =>
      have hst := (hr.ok.inv.runs ho.1).2.2.state
      cases own_thread hr.ok ho.1 ho.2 with
      | call _ _ hq _ _ | lock _ _ _ hq _ | release _ _ _ hq
      | away _ _ _ _ hq => exact absurd (hq ▸ hs) hn
      | sleep hb hpc hnn hc hk =>
          rw [hs, hb] at hst
          cases hst
      | calm hpc hnn _ =>
          rw [hs] at hst
          generalize hk : s.pc p = k at ho hst
          cases k <;> simp only [Pc.state, reduceCtorEq] at hst
          cases ho.2 with
          | sched hp => exact absurd hs hn
  | inr hb => exact (hb.wakes hs).resolve_left hn

/-- **No lost wakeup.**  Let a process call `sleep(chan, lk)` with `lk` held, let another process
hold `lk` later, and then call `wakeup(chan)`.  When the scan of that `wakeup` has ended, and ever
after, the first process is not `SLEEPING` in that call.  And a process leaves `SLEEPING` only by a
`wakeup` on its channel or a `kill`. -/
theorem no_lost_wakeup :
    (∀ (s₁ s₂ s₃ s₄ s₅ : Sys) (p q lk : ℕ) (chan : Option Chan) (r : Ret) (b : After)
      (as₁ as₂ as₃ as₄ : List Act), p < NPROC → q ≠ p → Reachable s₁ → s₁.pc p = .sleep1 chan lk r →
        s₁.locks lk = some p →
      Runs.exec step s₁ as₁ = some s₂ → s₂.locks lk = some q →
      Runs.exec step s₂ as₂ = some s₃ → s₃.pc q = .wakeup chan 0 b →
      Runs.exec step s₃ as₃ = some s₄ → s₄.pc q = .wakeup chan NPROC b → Runs.exec step s₄ as₄ =
        some s₅ →
      ¬ ((s₅.slots p).state = .sleeping ∧ s₅.sleeps p = s₁.sleeps p)) ∧
    (∀ (s s' : Sys) (a : Act) (p : ℕ), Reachable s → step s a = some s' → (s.slots p).state = .sleeping →
      (s'.slots p).state ≠ .sleeping → Wakes s a p ∨ Hits s a p) := by
  refine ⟨?_, fun s s' a p hr ht hs hn => leaves_sleeping hr ht hs hn⟩
  intro s₁ s₂ s₃ s₄ s₅ p q lk chan r b as₁ as₂ as₃ as₄ hp hq hr hpc hlk h12 hlk2 h23 hw h34 hend h45
    ⟨hslp, hn⟩
  have hstart : InCall s₁ p (s₁.sleeps p) chan lk := by
    refine ⟨Nat.le_refl _, fun _ ch l r' h => ?_, fun _ ch l r' h => by simp [hpc] at h, fun _ hs => ?_⟩
    · rw [hpc] at h
      simp only [Pc.sleep1.injEq, reduceCtorEq, or_false] at h
      exact ⟨h.1.symm, hlk⟩
    · obtain ⟨c, hc⟩ := hr.ok.inv.on_cpu (p := p) (by simp [hpc])
      have := (hr.ok.inv.runs hc).2.2.state
      simp [hpc, hs, Pc.state] at this
  obtain ⟨hr2, hc2⟩ := hr.exec_induction (P := fun u => InCall u p (s₁.sleeps p) chan lk) hstart
    (fun u a v hu hc ht => hc.step hu ht) h12
  have he2 : Entered s₂ p (s₁.sleeps p) := by
    intro he ch l r'
    refine ⟨fun h => hq ?_, fun h => hq ?_⟩
    · exact Option.some.inj (hlk2.symm.trans (hc2.enter he ch l r' (.inl h)).2)
    · exact Option.some.inj (hlk2.symm.trans (hc2.enter he ch l r' (.inr h)).2)
  obtain ⟨hr3, hc3, he3⟩ := hr2.exec_induction (P := fun u => InCall u p (s₁.sleeps p) chan lk ∧
    Entered u p (s₁.sleeps p)) ⟨hc2, he2⟩ (fun u a v hu hc ht =>
      ⟨hc.1.step hu ht, hc.2.step hc.1.le hu ht⟩) h23
  have hscan : Scanned s₃ p q (s₁.sleeps p) chan := by
    intro i b' h hi
    rw [hw] at h
    cases h
    omega
  obtain ⟨hr4, hc4, he4, hs4⟩ := hr3.exec_induction (P := fun u => InCall u p (s₁.sleeps p) chan lk ∧
      Entered u p (s₁.sleeps p) ∧ Scanned u p q (s₁.sleeps p) chan) ⟨hc3, he3, hscan⟩
    (fun u a v hu hc ht => ⟨hc.1.step hu ht, hc.2.1.step hc.1.le hu ht,
      hc.2.2.step hq hc.1 hc.2.1 hu ht⟩) h34
  obtain ⟨-, ha⟩ := hr4.exec_induction (P := fun u => Awake u p (s₁.sleeps p)) (hs4 NPROC b hend hp)
    (fun u a v hu ha ht => ha.step hu ht) h45
  exact (ha.awake hn).2 hslp

/-! ### A run -/

/-- Process 0 forks process 1, which a second CPU switches to; process 0 calls `sleep(7, 1)` with
lock 1 held. -/
def sleeper : List Act :=
  started ++ ⟨0, .fork, true⟩ :: List.replicate 4 ⟨0, .yield, true⟩ ++
    List.replicate 8 ⟨1, .yield, true⟩ ++ [⟨0, .acquire 1, true⟩, ⟨0, .sleep 7 1, true⟩]

/-- Process 0 goes to sleep, and process 1 acquires its lock. -/
def asleep : List Act := List.replicate 7 ⟨0, .yield, true⟩ ++ [⟨1, .acquire 1, true⟩]

set_option maxRecDepth 100000 in
theorem woken_by_process_1 : let s₁ := Runs.after step boot sleeper
    let s₂ := Runs.after step s₁ asleep
    let s₄ := Runs.after step (Runs.after step s₂ [⟨1, .wakeup 7, true⟩])
      (List.replicate 64 ⟨1, .yield, true⟩)
    (s₂.slots 0).state = .sleeping ∧ s₂.sleeps 0 = s₁.sleeps 0 ∧
    ¬ ((s₄.slots 0).state = .sleeping ∧ s₄.sleeps 0 = s₁.sleeps 0) := by
  refine ⟨by decide +kernel, by decide +kernel, ?_⟩
  exact no_lost_wakeup.1 (Runs.after step boot sleeper)
    (Runs.after step (Runs.after step boot sleeper) asleep)
    (Runs.after step (Runs.after step (Runs.after step boot sleeper) asleep) [⟨1, .wakeup 7, true⟩])
    (Runs.after step (Runs.after step (Runs.after step (Runs.after step boot sleeper) asleep)
      [⟨1, .wakeup 7, true⟩]) (List.replicate 64 ⟨1, .yield, true⟩)) _
    0 1 1 (some (.other 7)) .user .user asleep [⟨1, .wakeup 7, true⟩]
    (List.replicate 64 ⟨1, .yield, true⟩) []
    (by decide) (by decide) ⟨sleeper, Runs.exec_after _ _ _ (by decide +kernel)⟩ (by decide +kernel)
    (by decide +kernel)
    (Runs.exec_after _ _ _ (by decide +kernel)) (by decide +kernel)
    (Runs.exec_after _ _ _ (by decide +kernel)) (by decide +kernel)
    (Runs.exec_after _ _ _ (by decide +kernel)) (by decide +kernel) rfl

end Xv6Cow.Proc

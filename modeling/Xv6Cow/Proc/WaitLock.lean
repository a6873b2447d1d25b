import Xv6Cow.Proc.OneCpu

/-! # The holder of `wait_lock`

`wait_lock` is held exactly in the sections of `exit` and `wait`, by one process; and `wait` is the
only function that sleeps with it, on the address of the process itself. -/

namespace Xv6Cow.Proc

open Function (update update_self update_of_ne)

/-- The positions of a thread that holds `wait_lock`. -/
def Pc.holdsWait : Pc → Bool
  | .wakeup _ _ (.reparent _ _) | .wakeup _ _ (.exit _) | .reparent _ _ | .exit2 _ | .exit3 _ | .exit4
  | .waitScan _ _ | .test _ _ .wait | .sleep1 _ _ .wait | .sleep2 _ _ .wait => true
  | _ => false

/-- The lock of a call of `sleep` is `wait_lock` iff the call is that of `wait`. -/
def LockFits (lk : ℕ) (r : Ret) : Prop := r = .wait ↔ lk = WAIT

/-- The arguments of a call of `sleep` by `p`. -/
def ArgsFit (p : ℕ) (chan : Option Chan) (lk : ℕ) (r : Ret) : Prop :=
  LockFits lk r ∧ (r = .wait → chan = some (.proc p)) ∧ (r ≠ .wait → ∃ n, chan = some (.other n))

def Resume.Fits (p : ℕ) : Resume → Prop
  | .sleep chan lk r => ArgsFit p chan lk r
  | _ => True

def Pc.Fits (p : ℕ) : Pc → Prop
  | .test chan lk r | .sleep1 chan lk r | .sleep2 chan lk r | .sleep3 chan lk r => ArgsFit p chan lk r
  | .testWake _ chan lk | .wakeup _ _ (.sleep chan lk) | .woken chan lk => ArgsFit p chan lk .tested
  | .sleep4 lk r => LockFits lk r
  | .sched k | .resumed k => k.Fits p
  | _ => True

structure WaitLock (s : Sys) : Prop where
  args : ∀ p, (s.pc p).Fits p
  context : ∀ p, (s.context p).Fits p
  holder : ∀ p, s.locks WAIT = some p ↔ (s.pc p).holdsWait = true

variable {s s' : Sys} {c d p q : ℕ} {a : Act}

namespace WaitLock

/-- One thread moves; `wait_lock` stays with it, is taken or is released by it. -/
theorem goto (h : WaitLock s) {k : Pc} (hpc : s'.pc = update s.pc p k) (hctx : s'.context = s.context)
    (hk : k.Fits p) (hl : s'.locks WAIT = s.locks WAIT ∧ k.holdsWait = (s.pc p).holdsWait ∨
      s.locks WAIT = none ∧ s'.locks WAIT = some p ∧ k.holdsWait = true ∨
      (s.pc p).holdsWait = true ∧ s'.locks WAIT = none ∧ k.holdsWait = false) : WaitLock s' := by
  refine ⟨fun q => ?_, hctx ▸ h.context, fun q => ?_⟩
  · rw [hpc]
    by_cases he : q = p
    · subst he
      simpa using hk
    · rw [update_of_ne he]
      exact h.args q
  · have hq := h.holder q
    have hp := h.holder p
    rw [hpc]
    by_cases he : q = p
    · subst he
      rw [update_self]
      grind
    · rw [update_of_ne he, ← hq]
      grind

theorem congr (h : WaitLock s) (hpc : s'.pc = s.pc) (hctx : s'.context = s.context)
    (hl : s'.locks WAIT = s.locks WAIT) : WaitLock s' := by
  refine ⟨hpc ▸ h.args, hctx ▸ h.context, fun q => ?_⟩
  rw [hl, hpc]
  exact h.holder q

theorem call_step (h : WaitLock s) {x : Call} (hk : s.pc p = .user) (ht : Called s p x s') :
    WaitLock s' := by
  cases ht with
  | setkilled _ => exact h.congr rfl rfl rfl
  | acquire hw hl => exact h.congr rfl rfl (update_of_ne hw.symm _ _)
  | release hw hl => exact h.congr rfl rfl (update_of_ne hw.symm _ _)
  | sleep hw | testSleep hw | testWakeSleep hw =>
      refine h.goto rfl rfl ⟨?_, by simp, by simp⟩ (.inl ⟨rfl, by rw [hk]; rfl⟩)
      simpa [LockFits] using hw
  | _ => exact h.goto rfl rfl trivial (.inl ⟨rfl, by rw [hk]; rfl⟩)

theorem thread_step (h : WaitLock s) (hok : Ok s) (hp : (s.cpus c).pos = .thread p)
    (ht : Thread s c p a (s.pc p) s') : WaitLock s' := by
  have hst := (hok.inv.runs hp).2.2.state
  have hfit := h.args p
  generalize hk : s.pc p = k at ht hst hfit
  have hw : ∀ b, k.holdsWait = b → (s.pc p).holdsWait = b := fun b hb => hk ▸ hb
  have same : ∀ k' : Pc, k'.holdsWait = k.holdsWait → k'.holdsWait = (s.pc p).holdsWait :=
    fun k' hb => hk ▸ hb
  cases ht with
  | user hc => exact h.call_step hk hc
  | testKilled hl hkd hr =>
      refine h.goto rfl rfl trivial (.inl ⟨rfl, same _ ?_⟩)
      rename_i r
      cases r <;> simp_all [Pc.holdsWait]
  | testNot hl hkd =>
      refine h.goto rfl rfl hfit (.inl ⟨rfl, same _ ?_⟩)
      rename_i r
      cases r <;> rfl
  | testWakeNot hl hkd | woken => exact h.goto rfl rfl hfit (.inl ⟨rfl, same _ rfl⟩)
  | sleep1 hl =>
      refine h.goto rfl rfl hfit (.inl ⟨rfl, same _ ?_⟩)
      rename_i r
      cases r <;> rfl
  | @sleep2 chan lk r hl =>
      by_cases hr : r = .wait
      · have hlk : lk = WAIT := hfit.1.1 hr
        subst hr hlk
        exact h.goto rfl rfl hfit (.inr (.inr ⟨hw _ rfl, by simp [Sys.setPc], rfl⟩))
      · have hlk : lk ≠ WAIT := fun he => hr (hfit.1.2 he)
        refine h.goto rfl rfl hfit (.inl ⟨update_of_ne hlk.symm _ _, same _ ?_⟩)
        cases r <;> simp_all [Pc.holdsWait]
  | sleep3 => exact h.goto rfl rfl hfit (.inl ⟨rfl, same _ rfl⟩)
  | @sleep4 lk r hl =>
      by_cases hr : r = .wait
      · have hlk : lk = WAIT := hfit.1 hr
        subst hr hlk
        exact h.goto rfl rfl trivial (.inr (.inl ⟨hl, by simp [Sys.setPc], rfl⟩))
      · have hlk : lk ≠ WAIT := fun he => hr (hfit.2 he)
        rw [if_neg hr]
        exact h.goto rfl rfl trivial (.inl ⟨update_of_ne hlk.symm _ _, same _ rfl⟩)
  | @sched k i hp' =>
      have h1 : WaitLock (s.setContext p k) := by
        refine ⟨h.args, fun q => ?_, h.holder⟩
        by_cases he : q = p
        · subst he
          simpa [Pc.Fits] using hfit
        · simpa [he] using h.context q
      exact h1.goto (p := p) (k := .off) rfl rfl trivial (.inl ⟨rfl, same _ rfl⟩)
  | resumedSleep => exact h.goto rfl rfl hfit.1 (.inl ⟨rfl, same _ rfl⟩)
  | @wakeupSelf chan b hi =>
      refine h.goto rfl rfl (by cases b <;> exact hfit) (.inl ⟨rfl, same _ ?_⟩)
      cases b <;> rfl
  | @wakeupNext chan i b hi hn hl =>
      have h1 : WaitLock (wakeupSlot s i chan) := by
        unfold wakeupSlot
        split
        · exact h.congr rfl rfl rfl
        · exact h
      refine h1.goto rfl rfl (by cases b <;> exact hfit) (.inl ⟨rfl, ?_⟩)
      rw [show (wakeupSlot s i chan).pc p = s.pc p by unfold wakeupSlot; split <;> rfl, hk]
      cases b <;> rfl
  | @wakeupDone chan i b hi =>
      refine h.goto rfl rfl (by cases b <;> exact hfit) (.inl ⟨rfl, same _ ?_⟩)
      cases b <;> rfl
  | @forkAlloc i hi hl hu =>
      have hip : p ≠ i := by
        rintro rfl
        rw [hst] at hu
        cases hu
      have hoff := (hok.inv.idle_rests hl (by simp [hu])).off
      have h1 : WaitLock (allocSlot s i) := by
        have hpc : (allocSlot s i).pc = s.pc := by
          simp [allocSlot, Sys.setContext, Sys.setPc, Sys.setNextpid, Sys.setSlot, ← hoff]
        refine ⟨hpc ▸ h.args, fun q => ?_, fun q => ?_⟩
        · by_cases he : q = i
          · subst he
            simp [allocSlot, Resume.Fits]
          · simpa [allocSlot, Sys.setPc, Sys.setNextpid, Sys.setSlot, he] using h.context q
        · rw [hpc]
          exact h.holder q
      refine h1.goto rfl rfl trivial (.inl ⟨rfl, ?_⟩)
      rw [show (allocSlot s i).pc p = s.pc p from update_of_ne hip _ _, hk]
      rfl
  | exit1 hl | wait1 hl => exact h.goto rfl rfl trivial (.inr (.inl ⟨hl, by simp [Sys.setPc], rfl⟩))
  | testWait hl hkd | waitFail hi he hl hz ha | waitFree hi he hl hz ha | waitNone hi =>
      refine h.goto rfl rfl trivial (.inr (.inr ⟨hw _ rfl, ?_, rfl⟩))
      simp [waitReturn, Sys.setPc, Sys.setResult]
  | exit4 => exact h.goto rfl rfl trivial (.inr (.inr ⟨hw _ rfl, by simp [Sys.setPc], rfl⟩))
  | waitTest hi => exact h.goto rfl rfl ⟨by simp [LockFits], by simp, by simp⟩ (.inl ⟨rfl, same _ rfl⟩)
  | _ => exact h.goto rfl rfl trivial (.inl ⟨rfl, same _ rfl⟩)

theorem step (h : WaitLock s) (hok : Ok s) (ht : Proc.step s a = some s') : WaitLock s' := by
  have hx := hok.inv.cpu a.cpu
  cases step_cases ht with
  | enter hp =>
      simp only [CpuOk, hp] at hx
      exact h.goto rfl rfl (h.context _) (.inl ⟨rfl, by rw [hx.2.2.2.1]; rfl⟩)
  | intrNext hp hj hl =>
      unfold wakeupSlot
      split <;> exact h.congr rfl rfl rfl
  | @thread i q s' hp hc ht =>
      simp only [CpuOk, hp] at hx
      have hi : i = q := Option.some.inj (hx.1.symm.trans hc)
      subst hi
      exact h.thread_step hok hp ht
  | _ => exact h.congr rfl rfl rfl

theorem boot : WaitLock boot where
  args _ := trivial
  context _ := trivial
  holder p := by simp [Proc.boot, Pc.holdsWait]

end WaitLock

theorem Reachable.step (h : Reachable s) (ht : Proc.step s a = some s') : Reachable s' := by
  obtain ⟨as, h⟩ := h
  exact ⟨as ++ [a], Runs.exec_concat.2 ⟨s, h, ht⟩⟩

/-- An invariant of the reachable states may use those that have been proved. -/
theorem Reachable.induction {P : Sys → Prop} (h0 : P boot)
    (hstep : ∀ s a s', Reachable s → P s → Proc.step s a = some s' → P s') (h : Reachable s) : P s := by
  obtain ⟨as, h⟩ := h
  exact Runs.exec_induction
    (P := fun _ t => P t) h0 (fun ls t l u ht hP hs => hstep t l u ⟨ls, ht⟩ hP hs) h

theorem Reachable.waitLock (h : Reachable s) : WaitLock s :=
  h.induction WaitLock.boot fun _ _ _ hr hw ht => hw.step hr.ok ht

end Xv6Cow.Proc

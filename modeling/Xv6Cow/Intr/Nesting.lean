import Xv6Cow.Intr.Enable

/-! # `push_off` and `pop_off` nest

`noff` counts the calls of `push_off` on a CPU that are not undone yet.  The lock of a process is
taken by the scheduler and released by the process, or the other way round, so the calls pair up per
CPU; the enable bit is that of the thread, and `sched` carries it to the CPU on which the thread
goes on. -/

namespace Xv6Cow.Intr

open Runs
open Function (update_apply update_of_ne update_eq_self)

variable {b : Bool} {s s' : State} {c p q : ℕ} {C : Cpu} {T : Thread} {a : Act} {as : List Act}

/-- The calls of `push_off` on CPU `c`, or of `pop_off`. -/
def calls (c : ℕ) (push : Bool) (as : List Act) : ℕ := as.countP (·.call = some (c, push))

theorem noff_setCpu (s : State) (c d : ℕ) (C : Cpu) :
    ((s.setCpu c C).cpus d).noff = if d = c then C.noff else (s.cpus d).noff := by
  unfold State.setCpu
  dsimp only
  rw [update_apply]
  split_ifs <;> rfl

/-- A step changes `noff` by its calls. -/
theorem Stepped.noff (h : Stepped s a s') (d : ℕ) :
    (s'.cpus d).noff + (if a.call = some (d, false) then 1 else 0) = (s.cpus d).noff + if a.call =
      some (d, true) then 1 else 0 := by
  cases h with
  | @op c o _ _ h =>
      cases o <;> simp only [Intr.op, Option.ite_none_right_eq_some, Option.map_eq_some_iff,
        Option.some.injEq] at h
      · subst h
        simp only [noff_setCpu, Act.call]
        split_ifs <;> simp_all [Cpu.pushOff]
        omega
      · simp [← h.2, Act.call, State.setLock]
      · simp [← h.2, Act.call, State.setLock]
      · obtain ⟨C, hC, rfl⟩ := h
        obtain ⟨-, hpos, rfl⟩ := popOff_some hC
        simp only [noff_setCpu, Act.call]
        split_ifs <;> simp_all
  | fork | wakeup | wait => rfl
  | enter ha =>
      simp only [State.setThread, noff_setCpu, ha]
      split_ifs with hd <;> simp [hd]
  | interrupt | interruptIdle | iret | iretIdle | sched | intrOn | swtch =>
      all_goals
        simp only [State.setThread, noff_setCpu, Act.call]
        split_ifs with hd <;> simp [hd]
  | acquire =>
      simp only [State.setLock, noff_setCpu, Act.call]
      split_ifs <;> simp_all [Cpu.pushOff]
      omega
  | release _ hC =>
      obtain ⟨-, hpos, rfl⟩ := popOff_some hC
      simp only [State.setLock, noff_setCpu, Act.call]
      split_ifs <;> simp_all

theorem noff_add_calls (h : exec step init as = some s) (d : ℕ) :
    (s.cpus d).noff + calls d false as = calls d true as := by
  refine exec_induction (P := fun as s => (s.cpus d).noff + calls d false as = calls d true as) rfl
    (fun as t a u _ ih hs => ?_) h
  have := (step_cases hs).noff d
  simp only [calls, List.countP_append, List.countP_singleton, decide_eq_true_eq] at ih ⊢
  omega

/-- Interrupts are off on a CPU with a call of `push_off` that is not undone. -/
theorem Inv.off (h : Inv s) (c : ℕ) (h0 : 0 < (s.cpus c).noff) : (s.cpus c).sie = false := by
  have hc := h.cpu c
  unfold CpuOk at hc
  cases hl : (s.cpus c).loc <;> simp only [hl] at hc
  case scan => omega
  case got => exact hc.2
  case intr => exact hc.off h0
  case thread => exact hc.1.off h0

/-! ### The enable bit of a thread -/

/-- The thread of `p` has called `push_off` with the enable bit `b` and has not undone the call. -/
structure Held (p : ℕ) (b : Bool) (s : State) : Prop where
  runs : ∀ c, (s.cpus c).loc = .thread p → 0 < (s.cpus c).noff ∧ (s.cpus c).intena = b
  waits : (s.threads p).state ≠ .running → (s.threads p).saved = some b
  live : (s.threads p).state ≠ .unused

/-- The steps that leave a thread's outermost `push_off` as it is: not the `pop_off` that undoes it,
and not the end of the thread. -/
def spares (p : ℕ) (s : State) (a : Act) : Bool :=
  match a with
  | .op c .popOff => (s.cpus c).loc ≠ .thread p ∨ (s.cpus c).noff ≠ 1
  | .wait q => q ≠ p
  | _ => true

theorem Held.setCpu (h : Held p b s) (hC : C.loc = .thread p → 0 < C.noff ∧ C.intena = b) :
    Held p b (s.setCpu c C) := by
  refine ⟨fun d => ?_, h.waits, h.live⟩
  unfold State.setCpu
  obtain rfl | hd := eq_or_ne d c
  · simpa using hC
  · simpa [hd] using h.runs d

theorem Held.setThread (h : Held p b s)
    (hT : q = p → (T.state ≠ .running → T.saved = some b) ∧ T.state ≠ .unused) :
    Held p b (s.setThread q T) := by
  unfold State.setThread
  obtain rfl | hq := eq_or_ne p q
  · exact ⟨h.runs, by simpa using (hT rfl).1, by simpa using (hT rfl).2⟩
  · exact ⟨h.runs, by simpa [hq] using h.waits, by simpa [hq] using h.live⟩

theorem Held.setLock {l : Lock} {x : Option ℕ} (h : Held p b s) : Held p b (s.setLock l x) :=
  ⟨h.runs, h.waits, h.live⟩

theorem Held.step (h : Held p b s) (hI : Inv s) (ha : spares p s a = true)
    (hs : step s a = some s') : Held p b s' := by
  cases step_cases hs with
  | @op c o _ _ ho =>
      cases o <;> simp only [Intr.op, Option.ite_none_right_eq_some, Option.map_eq_some_iff,
        Option.some.injEq] at ho
      · subst ho
        refine h.setCpu fun hl => ?_
        obtain ⟨h1, h2⟩ := h.runs c hl
        exact ⟨Nat.succ_pos _, by simp [Cpu.pushOff, Nat.pos_iff_ne_zero.mp h1, h2]⟩
      · exact ho.2 ▸ h.setLock
      · exact ho.2 ▸ h.setLock
      · obtain ⟨C', hC, rfl⟩ := ho
        obtain ⟨-, hpos, rfl⟩ := popOff_some hC
        refine h.setCpu fun (hl : (s.cpus c).loc = .thread p) => ?_
        have hne : (s.cpus c).noff ≠ 1 := by simpa [spares, hl] using ha
        exact ⟨by dsimp only; omega, (h.runs c hl).2⟩
  | @interrupt c _ _ _ _ | @iret c _ _ _ _ | @enter _ c _ _ _ _ _ _ _ _ =>
      all_goals
        refine (h.setCpu ?_).setThread ?_
        · exact h.runs c
        · rintro rfl
          exact ⟨h.waits, h.live⟩
  | interruptIdle | iretIdle => all_goals exact h.setCpu fun hl => absurd hl (by simp)
  | @sched c q _ hl _ hst _ =>
      refine (h.setCpu fun hl' => absurd hl' (by simp)).setThread ?_
      rintro rfl
      exact ⟨fun _ => by rw [(h.runs c hl).2], hst⟩
  | @intrOn c hl => exact h.setCpu fun hl' => h.runs c hl'
  | acquire | release _ _ => all_goals exact (h.setCpu fun hl => absurd hl (by simp)).setLock
  | @swtch c q hl hst =>
      refine (h.setCpu fun hl' => ?_).setThread fun _ => ⟨fun hne => absurd rfl hne, by simp⟩
      obtain rfl := At.thread.inj hl'
      have hsaved := h.waits (by rw [hst]; simp)
      exact ⟨by rw [((hI.cpu c).of_got hl).1]; exact Nat.one_pos, by rw [hsaved]; rfl⟩
  | fork hst =>
      refine h.setThread ?_
      rintro rfl
      exact absurd hst h.live
  | wakeup hst =>
      refine h.setThread ?_
      rintro rfl
      exact ⟨fun _ => h.waits (by rw [hst]; simp), by simp⟩
  | wait _ => exact h.setThread fun he => by simp [spares, he] at ha

theorem held_pushOff (h : Inv s) (hl : (s.cpus c).loc = .thread p) (h0 : (s.cpus c).noff = 0)
    (hs : step s (.op c .pushOff) = some s') : Held p (s.cpus c).sie s' := by
  have hrun := ((h.cpu c).of_thread hl).2
  simp only [Intr.step, op, Option.ite_none_right_eq_some, Option.some.injEq] at hs
  obtain ⟨-, rfl⟩ := hs
  refine ⟨fun d hd => ?_, fun hne => absurd hrun hne, by rw [State.setCpu, hrun]; simp⟩
  obtain rfl | hdc := eq_or_ne d c
  · simp [State.setCpu, Cpu.pushOff, h0]
  · simp only [State.setCpu, update_of_ne hdc] at hd
    exact absurd (h.one d c p hd hl) hdc

/-- **Interrupt nesting is restored.**  In every run of balanced code, on every CPU: interrupts are
off while `noff` is positive, `noff` is the number of calls of `push_off` that are not undone, and
while there is one `pop_off` does not panic.  When a thread undoes its outermost `push_off`, the
enable bit becomes what it was at the call, on whichever CPU that is. -/
theorem interrupt_nesting (hbal : along step balanced init as = true)
    (h : exec step init as = some s) (c : ℕ) : (0 < (s.cpus c).noff → (s.cpus c).sie = false) ∧
      (s.cpus c).noff + calls c false as = calls c true as ∧
        (calls c false as < calls c true as → (s.cpus c).popOff ≠ none) ∧
      ∀ p s₁ bs s₂ c' s₃, (s.cpus c).loc = .thread p → (s.cpus c).noff = 0 →
        step s (.op c .pushOff) = some s₁ → exec step s₁ bs = some s₂ →
          along step (fun t a => balanced t a && spares p t a) s₁ bs = true →
        (s₂.cpus c').loc = .thread p → (s₂.cpus c').noff = 1 → step s₂ (.op c' .popOff) = some s₃ →
        (s₃.cpus c').sie = (s.cpus c).sie := by
  have hI := inv_of_balanced hbal h
  have hcalls := noff_add_calls h c
  refine ⟨hI.off c, hcalls, fun hlt hp => ?_, fun p s₁ bs s₂ c' s₃ hl h0 h1 h2 hbs hl' hn' h3 => ?_⟩
  · have hpos : 0 < (s.cpus c).noff := by omega
    rw [Cpu.popOff, if_neg (by simp [hI.off c hpos]; omega)] at hp
    cases hp
  · have hH : Inv s₁ ∧ Held p (s.cpus c).sie s₁ := ⟨hI.step rfl h1, held_pushOff hI hl h0 h1⟩
    obtain ⟨-, hH'⟩ := exec_along (I := fun t => Inv t ∧ Held p (s.cpus c).sie t)
        (fun t a u hx ha hs => by
      rw [Bool.and_eq_true] at ha
      exact ⟨hx.1.step ha.1 hs, hx.2.step hx.1 ha.2 hs⟩) hH hbs h2
    have hb := (hH'.runs c' hl').2
    simp only [Intr.step, op, Option.ite_none_right_eq_some, Option.map_eq_some_iff] at h3
    obtain ⟨-, C', hC', rfl⟩ := h3
    obtain ⟨hsie, -, rfl⟩ := popOff_some hC'
    simp [State.setCpu, hn', hb, hsie]

/-- The first process comes out of `forkret` on CPU 0 with interrupts on. -/
def forked : List Act := [.intrOn 0, .acquire 0 0, .swtch 0, .op 0 (.clear (.proc 0)), .op 0 .popOff]

/-- After `push_off` it takes its lock, gives up the CPU, and goes on on CPU 1, where it releases
the lock. -/
def moves : List Act :=
  [.op 0 (.swap (.proc 0)), .sched 0 .runnable, .release 0, .acquire 1 0, .swtch 1,
    .op 1 (.clear (.proc 0))]

theorem interrupt_nesting_moves :
    let s := after step init forked
    let t := after step (after step s [.op 0 .pushOff]) moves
    (s.cpus 0).sie = true ∧ ((after step t [.op 1 .popOff]).cpus 1).sie = (s.cpus 0).sie := by
  have one : ∀ s a, (exec step s [a]).isSome → step s a = some (after step s [a]) := fun s a h => by
    simpa [exec] using exec_after _ _ _ h
  exact ⟨by decide, (interrupt_nesting (by decide) (exec_after _ _ forked (by decide)) 0).2.2.2 0 _
    moves _ 1 _ (by decide) (by decide) (one _ _ (by decide)) (exec_after _ _ _ (by decide))
    (by decide) (by decide) (by decide) (one _ _ (by decide))⟩

end Xv6Cow.Intr

import Xv6Cow.Proc.WaitLock

/-! # What a step does to a process that does not make it

A step of another thread or of a scheduler may wake the process, kill it, give it another parent, or
free its slot; it does not go on with its thread, and does not take a lock from it. -/

namespace Xv6Cow.Proc

open Function (update update_self update_of_ne)

variable {s s' : Sys} {c d p q : ℕ} {a : Act}

/-- The step is the section of a `kill` that finds the pid of `p`. -/
def Hits (s : Sys) (a : Act) (p : ℕ) : Prop :=
  ∃ q, (s.cpus a.cpu).pos = .thread q ∧ s.pc q = .kill (s.slots p).pid p

/-- The step is the section for `p` of a `wakeup` on the channel of `p`, by another thread or in an
interrupt. -/
def Wakes (s : Sys) (a : Act) (p : ℕ) : Prop :=
  (∃ q b, q ≠ p ∧ (s.cpus a.cpu).pos = .thread q ∧ s.pc q = .wakeup (s.slots p).chan p b) ∨
  ∃ n i, (s.cpus a.cpu).pos = .intr n p i ∧ (s.slots p).chan = some (.other n)

structure Beside (s s' : Sys) (a : Act) (p : ℕ) : Prop where
  sleeps : s'.sleeps p = s.sleeps p
  pc : s'.pc p = s.pc p ∨ s.pc p = .off ∧ ∃ k, s'.pc p = .resumed k
  asleep : (s'.slots p).state = .sleeping → (s.slots p).state = .sleeping ∧
    (s'.slots p).chan = (s.slots p).chan
  wakes : (s.slots p).state = .sleeping → (s'.slots p).state = .sleeping ∨ Wakes s a p ∨ Hits s a p
  killed : (s'.slots p).killed = true → (s.slots p).killed = true ∨
    Hits s a p ∧ s.plock p = none ∧ (s'.slots p).state ≠ .sleeping
  locks : ∀ lk, s.locks lk = some p → s'.locks lk = some p
  context : (s.slots p).state = .sleeping → s'.context p = s.context p

theorem Beside.of_eq (hs : s'.sleeps p = s.sleeps p) (hpc : s'.pc p = s.pc p)
    (hq : s'.slots p = s.slots p) (hc : s'.context p = s.context p)
    (hl : ∀ lk, s.locks lk = some p → s'.locks lk = some p) : Beside s s' a p where
  sleeps := hs
  pc := .inl hpc
  asleep he := by rw [hq] at he ⊢; exact ⟨he, rfl⟩
  wakes he := .inl (hq ▸ he)
  killed he := .inl (hq ▸ he)
  locks := hl
  context _ := hc

theorem Beside.goto {k : Pc} (hqp : q ≠ p) (hs : s'.sleeps p = s.sleeps p)
    (hpc : s'.pc = update s.pc q k) (hq : s'.slots = s.slots) (hc : s'.context p = s.context p)
    (hl : ∀ lk, s.locks lk = some p → s'.locks lk = some p) : Beside s s' a p :=
  .of_eq hs (by rw [hpc, update_of_ne hqp.symm]) (by rw [hq]) hc hl

/-- Another thread changes a slot, as far as `Beside` allows it, and moves. -/
theorem Beside.slot {i : ℕ} {x : Slot} (hs : s'.sleeps p = s.sleeps p)
    (hpc : s'.pc p = s.pc p) (hc : (s.slots p).state = .sleeping → s'.context p = s.context p)
    (hl : ∀ lk, s.locks lk = some p → s'.locks lk = some p) (hq : s'.slots = update s.slots i x)
    (hx : i = p → (x.state = .sleeping → (s.slots p).state = .sleeping ∧ x.chan = (s.slots p).chan) ∧
      ((s.slots p).state = .sleeping → x.state = .sleeping ∨ Wakes s a p ∨ Hits s a p) ∧
      (x.killed = true → (s.slots p).killed = true ∨ Hits s a p ∧ s.plock p = none ∧
        x.state ≠ .sleeping)) :
    Beside s s' a p := by
  by_cases hi : i = p
  · subst hi
    obtain ⟨h1, h2, h3⟩ := hx rfl
    have he : s'.slots i = x := by rw [hq, update_self]
    exact ⟨hs, .inl hpc, by rwa [he], by rwa [he], by rwa [he], hl, hc⟩
  · have he : s'.slots p = s.slots p := by rw [hq, update_of_ne (Ne.symm hi)]
    exact ⟨hs, .inl hpc, fun h => ⟨he ▸ h, by rw [he]⟩, fun h => .inl (he ▸ h),
      fun h => .inl (he ▸ h), hl, hc⟩

/-- The lock that another thread releases is not one of `p`. -/
theorem released {lk : ℕ} (hqp : q ≠ p) (hl : s.locks lk = some q) :
    ∀ l, s.locks l = some p → update s.locks lk none l = some p := by
  intro l h
  rw [update_of_ne]
  · exact h
  · rintro rfl
    rw [hl] at h
    exact hqp (Option.some.inj h)

theorem acquired {lk : ℕ} (hl : s.locks lk = none) :
    ∀ l, s.locks l = some p → update s.locks lk (some q) l = some p := by
  intro l h
  rw [update_of_ne]
  · exact h
  · rintro rfl
    simp [hl] at h

theorem beside_thread (hok : Ok s) (hw : WaitLock s) (hp : (s.cpus a.cpu).pos = .thread q)
    (hqp : q ≠ p) (ht : Thread s a.cpu q a (s.pc q) s') : Beside s s' a p := by
  have hst := (hok.inv.runs hp).2.2.state
  have hhold := hw.holder q
  have hused := hok.forks.used q
  generalize hk : s.pc q = k at ht hst hhold hused
  have hlk : ∀ lk, s.locks lk = some p → s.locks lk = some p := fun _ h => h
  have hpc : ∀ k' : Pc, update s.pc q k' p = s.pc p := fun k' => update_of_ne hqp.symm _ _
  cases ht with
  | user hc =>
      generalize a.call = x at hc
      cases hc with
      | setkilled hl => exact .slot rfl rfl (fun _ => rfl) hlk rfl fun he => absurd he hqp
      | acquire _ hl => exact .of_eq rfl rfl rfl rfl (acquired hl)
      | release _ hl => exact .of_eq rfl rfl rfl rfl (released hqp hl)
      | sleep _ => exact .goto hqp (update_of_ne hqp.symm _ _) rfl rfl rfl hlk
      | _ => exact .goto hqp rfl rfl rfl rfl hlk
  | yield2 | sleep3 | exit3 | resumedSleep =>
      exact .slot rfl (hpc _) (fun _ => rfl) hlk rfl fun he => absurd he hqp
  | testWait _ _ | waitNone _ | waitFail _ _ _ _ _ | exit4 =>
      exact .goto hqp rfl rfl rfl rfl (released hqp (hhold.2 rfl))
  | testNot _ _ | woken => exact .goto hqp (update_of_ne hqp.symm _ _) rfl rfl rfl hlk
  | sleep2 hl => exact .goto hqp rfl rfl rfl rfl (released hqp hl)
  | sleep4 hl => exact .goto hqp rfl rfl rfl rfl (acquired hl)
  | exit1 hl | wait1 hl => exact .goto hqp rfl rfl rfl rfl (acquired hl)
  | sched hp' => exact .goto (k := .off) hqp rfl rfl rfl (update_of_ne hqp.symm _ _) hlk
  | @wakeupNext chan i b hi hn hl =>
      unfold wakeupSlot
      split
      · rename_i hs
        refine .slot rfl (hpc _) (fun _ => rfl) hlk rfl fun he => ?_
        subst he
        refine ⟨by simp, fun _ => .inr (.inl (.inl ⟨q, b, hqp, hp, ?_⟩)), fun h => .inl h⟩
        rw [hk, hs.2]
      · exact .goto hqp rfl rfl rfl rfl hlk
  | @killHit i hi hl =>
      refine .slot rfl (hpc _) (fun _ => rfl) hlk rfl fun he => ?_
      subst he
      have hits : Hits s a i := ⟨q, hp, hk⟩
      refine ⟨?_, fun _ => .inr (.inr hits), fun _ => .inr ⟨hits, hl, ?_⟩⟩ <;>
        simp only [killSlot] <;> split <;> simp_all
  | @forkFail i hi hl hu =>
      refine .slot rfl (hpc _) (fun _ => rfl) hlk rfl fun he => ?_
      subst he
      simp [freeproc, hu]
  | @forkAlloc i hi hl hu =>
      refine .slot rfl ?_ (fun he => ?_) hlk rfl fun he => ?_
      · by_cases he : i = p
        · subst he
          simp [allocSlot, Sys.setPc, Sys.setContext, hqp.symm,
            (hok.inv.idle_rests hl (by simp [hu])).off]
        · simp [allocSlot, Sys.setPc, Sys.setContext, Sys.setNextpid, Sys.setSlot, hqp.symm, Ne.symm he]
      · refine update_of_ne ?_ _ _
        rintro rfl
        simp [hu] at he
      · subst he
        simp only [hu, reduceCtorEq, false_and, false_implies, true_and]
        exact fun h => .inl h
  | @fork2 np hl =>
      refine .slot rfl (hpc _) (fun _ => rfl) hlk rfl fun he => ?_
      subst he
      exact ⟨fun h => ⟨h, rfl⟩, fun h => .inl h, fun h => .inl h⟩
  | @fork3 np hl =>
      refine .slot rfl (hpc _) (fun _ => rfl) hlk rfl fun he => ?_
      subst he
      simp only [hused np rfl, reduceCtorEq, false_and, false_implies, true_and]
      exact fun h => .inl h
  | @reparentHit i st hi he =>
      refine .slot rfl (hpc _) (fun _ => rfl) hlk rfl fun he => ?_
      subst he
      exact ⟨fun h => ⟨h, rfl⟩, fun h => .inl h, fun h => .inl h⟩
  | @waitFree i hkids hi he hl hz ha =>
      refine .slot rfl (hpc _) (fun _ => rfl) (released hqp (hhold.2 rfl)) rfl fun he => ?_
      subst he
      simp [freeproc, hz]
  | _ => exact .goto hqp rfl rfl rfl rfl hlk

theorem step_or_beside (hr : Reachable s) (ht : step s a = some s') (p : ℕ) :
    ((s.cpus a.cpu).pos = .thread p ∧ Thread s a.cpu p a (s.pc p) s') ∨ Beside s s' a p := by
  have hx := hr.ok.inv.cpu a.cpu
  cases step_cases ht with
  | @thread i q s' hp hc ht =>
      simp only [CpuOk, hp] at hx
      have hi : i = q := Option.some.inj (hx.1.symm.trans hc)
      subst hi
      by_cases hip : i = p
      · exact .inl ⟨hip ▸ hp, hip ▸ ht⟩
      · exact .inr (beside_thread hr.ok hr.waitLock hp hip ht)
  | @run i hp hrun =>
      refine .inr (.slot rfl rfl (fun _ => rfl) (fun _ h => h) rfl fun he => ?_)
      subst he
      simp only [hrun, reduceCtorEq, false_implies, true_and]
      exact fun h => .inl h
  | @enter i hp =>
      simp only [CpuOk, hp] at hx
      refine .inr ⟨rfl, ?_, fun h => ⟨h, rfl⟩, fun h => .inl h, fun h => .inl h, fun _ h => h,
        fun _ => rfl⟩
      by_cases he : i = p
      · subst he
        exact .inr ⟨hx.2.2.2.1, _, update_self ..⟩
      · exact .inl (update_of_ne (Ne.symm he) _ _)
  | @intrNext n j i hp hj hl =>
      refine .inr ?_
      unfold wakeupSlot
      split
      · rename_i hs
        refine .slot rfl rfl (fun _ => rfl) (fun _ h => h) rfl fun he => ?_
        subst he
        exact ⟨by simp, fun _ => .inr (.inl (.inr ⟨n, i, hp, hs.2⟩)), fun h => .inl h⟩
      · exact .of_eq rfl rfl rfl rfl fun _ h => h
  | _ => exact .inr (.of_eq rfl rfl rfl rfl fun _ h => h)

/-! ### What a thread does to its own process -/

/-- The positions of a thread in a call of `sleep`, up to the `swtch`. -/
def Pc.falling : Pc → Bool
  | .sleep1 _ _ _ | .sleep2 _ _ _ | .sleep3 _ _ _ | .sched (.sleep _ _ _) => true
  | _ => false

/-- The positions of `pipewrite` between its test of the mark and its call of `sleep`. -/
def Pc.waking : Pc → Bool
  | .wakeup _ _ (.sleep _ _) | .woken _ _ => true
  | _ => false

/-- The steps of a thread, as far as its sleeping goes. -/
inductive Own (s s' : Sys) (p : ℕ) : Prop
  | call {ch : Option Chan} {l : ℕ} {r : Ret} (hpc : s'.pc p = .sleep1 ch l r)
      (hn : s'.sleeps p = s.sleeps p + 1) (hq : s'.slots = s.slots) (hl : s'.locks = s.locks)
      (hk : r = .user ∨ (s.pc p).waking = true ∨ (s.slots p).killed = false)
  | lock {ch : Option Chan} {l : ℕ} {r : Ret} (hb : s.pc p = .sleep1 ch l r)
      (hpc : s'.pc p = .sleep2 ch l r) (hn : s'.sleeps p = s.sleeps p) (hq : s'.slots = s.slots)
      (hl : s'.locks = s.locks)
  | release {ch : Option Chan} {l : ℕ} {r : Ret} (hb : s.pc p = .sleep2 ch l r)
      (hpc : s'.pc p = .sleep3 ch l r) (hn : s'.sleeps p = s.sleeps p) (hq : s'.slots = s.slots)
  | sleep {ch : Option Chan} {l : ℕ} {r : Ret} (hb : s.pc p = .sleep3 ch l r)
      (hpc : s'.pc p = .sched (.sleep ch l r)) (hn : s'.sleeps p = s.sleeps p)
      (hc : (s'.slots p).chan = ch) (hk : (s'.slots p).killed = (s.slots p).killed)
  | away {k : Resume} (hb : s.pc p = .sched k) (hpc : s'.pc p = .off) (hc : s'.context p = k)
      (hn : s'.sleeps p = s.sleeps p) (hq : s'.slots = s.slots)
  | calm (hpc : (s'.pc p).falling = false) (hn : s'.sleeps p = s.sleeps p)
      (hs : (s'.slots p).state ≠ .sleeping) (hw : (s'.pc p).waking = true →
        ((s.pc p).waking = true ∨ (s.slots p).killed = false) ∧ (s'.slots p).killed = (s.slots p).killed)

theorem own_thread (hok : Ok s) (hp : (s.cpus c).pos = .thread p)
    (ht : Thread s c p a (s.pc p) s') : Own s s' p := by
  have hst := (hok.inv.runs hp).2.2.state
  have hused := hok.forks.used p
  generalize hk : s.pc p = k at ht hst hused
  have calm : ∀ k' : Pc, (k'.falling || k'.waking) = false → s'.pc p = k' → s'.sleeps p = s.sleeps p →
      (s'.slots p).state ≠ .sleeping → Own s s' p := fun k' hf hpc hn hs => by
    rw [Bool.or_eq_false_iff, ← hpc] at hf
    exact .calm hf.1 hn hs (by simp [hf.2])
  have run : k.state = .running → (s.slots p).state ≠ .sleeping := by
    intro hr
    rw [hst, hr]
    simp
  have slot : ∀ (i : ℕ) (x : Slot), k.state = .running → (i = p → x.state ≠ .sleeping) →
      (update s.slots i x p).state ≠ .sleeping := by
    intro i x hr hx
    by_cases he : i = p
    · subst he
      simpa using hx rfl
    · rw [update_of_ne (Ne.symm he)]
      exact run hr
  cases ht with
  | user hc =>
      generalize a.call = x at hc
      cases hc with
      | sleep _ => exact .call (update_self ..) (update_self ..) rfl rfl (.inl rfl)
      | setkilled hl => exact calm _ rfl hk rfl (slot p _ rfl fun _ => run rfl)
      | acquire | release => exact calm _ rfl hk rfl (run rfl)
      | _ => exact calm _ rfl (update_self ..) rfl (run rfl)
  | testNot hl hkd => exact .call (update_self ..) (update_self ..) rfl rfl (.inr (.inr hkd))
  | testWakeNot hl hkd => exact .calm (by simp [Pc.falling]) rfl (run rfl) fun _ => ⟨.inr hkd, rfl⟩
  | woken => exact .call (update_self ..) (update_self ..) rfl rfl (.inr (.inl (by rw [hk]; rfl)))
  | sleep1 hl => exact .lock hk (update_self ..) rfl rfl rfl
  | sleep2 hl => exact .release hk (update_self ..) rfl rfl
  | sleep3 => exact .sleep hk (update_self ..) rfl (by simp [Sys.setPc]) (by simp [Sys.setPc])
  | sched hp' => exact .away hk (update_self ..) (update_self ..) rfl rfl
  | @sleep4 lk r hl => exact calm _ (by split <;> rfl) (update_self ..) rfl (run rfl)
  | exit4 => exact calm _ rfl (update_self ..) rfl (by simp [Sys.setPc, Sys.release, hst, Pc.state])
  | yield2 => exact calm _ rfl (update_self ..) rfl (by simp [Sys.setPc])
  | exit3 => exact calm _ rfl (update_self ..) rfl (by simp [Sys.setPc])
  | resumedSleep => exact calm _ rfl (update_self ..) rfl (slot p _ rfl fun _ => run rfl)
  | @wakeupSelf chan b hi =>
      refine .calm (by simp [Pc.falling]) rfl (run rfl) fun hw => ⟨.inl ?_, rfl⟩
      rw [hk]
      cases b <;> simp_all [Pc.waking]
  | @wakeupNext chan i b hi hn hl =>
      refine .calm (by simp [Pc.falling]) ?_ ?_ fun hw => ⟨.inl ?_, ?_⟩
      · unfold wakeupSlot
        split <;> rfl
      · unfold wakeupSlot
        split
        · exact slot i _ rfl fun he => by simp
        · exact run rfl
      · rw [hk]
        cases b <;> simp_all [Pc.waking]
      · unfold wakeupSlot
        split <;> simp [Sys.setPc, hn.symm]
  | @wakeupDone chan i b hi =>
      refine .calm (by cases b <;> simp [afterWakeup, Pc.falling]) rfl (run rfl) fun hw => ⟨.inl ?_, rfl⟩
      rw [hk]
      cases b <;> simp_all [Pc.waking, afterWakeup]
  | @killHit i hi hl =>
      refine calm _ rfl (update_self ..) rfl (slot i _ rfl fun _ => ?_)
      simp only [killSlot]
      split <;> simp_all
  | @forkFail i hi hl hu =>
      exact calm _ rfl (update_self ..) rfl (slot i _ rfl fun _ => by simp [freeproc])
  | @forkAlloc i hi hl hu => exact calm _ rfl (update_self ..) rfl (slot i _ rfl fun _ => by simp)
  | @fork2 np hl => exact calm _ rfl (update_self ..) rfl (slot np _ rfl fun he => he ▸ run rfl)
  | @fork3 np hl => exact calm _ rfl (update_self ..) rfl (slot np _ rfl fun _ => by simp)
  | @reparentHit i st hi he =>
      exact calm _ rfl (update_self ..) rfl (slot i _ rfl fun he => he ▸ run rfl)
  | @waitFree i hkids hi he hl hz ha =>
      exact calm _ rfl (update_self ..) rfl (slot i _ rfl fun _ => by simp [freeproc])
  | _ => exact calm _ rfl (update_self ..) rfl (run rfl)

end Xv6Cow.Proc

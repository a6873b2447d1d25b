import Xv6Cow.Proc.Wakeup

/-! # `kill`

`kill` compares the pid of every slot with its argument, in use or not.  A slot that is not in use
has pid 0, so `kill(0)` marks one of them, and `allocproc` does not clear the mark.  With any other
argument it marks processes only.

A process that is marked is woken up, and tests the mark before it sleeps.  The test and the sleep
are not one section of `p->lock`, so a `kill` between them is missed; one at any other time is not.
`pipewrite` even calls `wakeup` between them. -/

namespace Xv6Cow.Proc

open Function (update update_self update_of_ne)

variable {s s' t : Sys} {c d p q : ℕ} {a : Act}

/-! ### Slots that are not in use -/

/-- A slot that is not in use has no pid and no parent and, if `k` holds, no mark. -/
def Fresh (k : Prop) (x : Slot) : Prop :=
  x.state = .unused → x.pid = 0 ∧ x.parent = none ∧ (k → x.killed = false)

/-- The slots that are not in use are fresh; `k` says that no `kill` has argument 0. -/
structure Clean (k : Prop) (s : Sys) : Prop where
  slot : ∀ p, Fresh k (s.slots p)
  kill : k → ∀ q pid i, s.pc q = .kill pid i → pid ≠ 0

theorem fresh_freeproc (k : Prop) : Fresh k freeproc := fun _ => ⟨rfl, rfl, fun _ => rfl⟩

theorem fresh_of_state {k : Prop} {x : Slot} (h : x.state ≠ .unused) : Fresh k x := fun he => absurd he h

namespace Clean

variable {k : Prop}

theorem goto (h : Clean k s) {m : Pc} (hs : ∀ p, Fresh k (s'.slots p))
    (hpc : s'.pc = update s.pc q m) (hk : k → ∀ pid i, m = .kill pid i → pid ≠ 0) : Clean k s' := by
  refine ⟨hs, fun hkk p pid i hp => ?_⟩
  rw [hpc] at hp
  by_cases he : p = q
  · subst he
    rw [update_self] at hp
    exact hk hkk pid i hp
  · rw [update_of_ne he] at hp
    exact h.kill hkk p pid i hp

theorem set_slot (h : Clean k s) {i : ℕ} {x : Slot} (hx : Fresh k x) :
    ∀ p, Fresh k ((s.setSlot i x).slots p) := by
  intro p
  by_cases he : p = i
  · subst he
    simpa using hx
  · simpa [he] using h.slot p

theorem set_wakeup (h : Clean k s) (i : ℕ) (chan : Option Chan) :
    ∀ p, Fresh k ((wakeupSlot s i chan).slots p) := by
  unfold wakeupSlot
  split
  · exact h.set_slot (fresh_of_state (by simp))
  · exact h.slot

theorem thread_step (h : Clean k s) (hok : Ok s) (ha : k → a.call ≠ .kill 0)
    (hp : (s.cpus c).pos = .thread q) (ht : Thread s c q a (s.pc q) s') : Clean k s' := by
  have hst := (hok.inv.runs hp).2.2.state
  have hused := hok.forks.used q
  have hkill := fun hk => h.kill hk q
  generalize hk : s.pc q = k' at ht hst hused hkill
  have no : ∀ k' : Pc, (∀ pid i, k' ≠ .kill pid i) → k → ∀ pid i, k' = .kill pid i → pid ≠ 0 :=
    fun k' hn _ pid i he => absurd he (hn pid i)
  cases ht with
  | user hc =>
      generalize hx : a.call = x at hc ha
      cases hc with
      | setkilled _ => exact ⟨h.set_slot (fresh_of_state (by simp [hst, Pc.state])), h.kill⟩
      | acquire | release => exact ⟨h.slot, h.kill⟩
      | kill =>
          refine h.goto h.slot rfl fun hkk pid i he => ?_
          cases he
          exact fun he => ha hkk (by rw [he])
      | _ => exact h.goto h.slot rfl (no _ (by simp))
  | yield2 | sleep3 | exit3 => exact h.goto (h.set_slot (fresh_of_state (by simp))) rfl (no _ (by simp))
  | resumedSleep =>
      exact h.goto (h.set_slot (fresh_of_state (by simp [hst, Pc.state]))) rfl (no _ (by simp))
  | @sleep4 lk r hl =>
      refine h.goto h.slot rfl (no _ fun pid i => ?_)
      split <;> simp
  | sched hp' => exact h.goto (q := q) (m := .off) h.slot rfl (no _ (by simp))
  | @wakeupNext chan i b hi hn hl =>
      refine h.goto (q := q) (m := .wakeup chan (i + 1) b) (h.set_wakeup i chan) ?_ (no _ (by simp))
      unfold wakeupSlot
      split <;> rfl
  | @wakeupDone chan i b hi =>
      refine h.goto h.slot rfl (no _ fun pid j => ?_)
      cases b <;> simp [afterWakeup]
  | @killHit i hi hl =>
      refine h.goto (h.set_slot fun hu => ?_) rfl (no _ (by simp))
      have hu' : (s.slots i).state = .unused := by
        simp only [killSlot] at hu
        split at hu <;> simp_all
      obtain ⟨h1, h2, -⟩ := h.slot i hu'
      exact ⟨h1, h2, fun hkk => absurd h1 (hkill hkk _ _ rfl)⟩
  | killNext hi hl he =>
      refine h.goto h.slot rfl fun hkk pid i he => ?_
      cases he
      exact hkill hkk _ _ rfl
  | forkFail hi hl hu => exact h.goto (h.set_slot (fresh_freeproc k)) rfl (no _ (by simp))
  | @forkAlloc i hi hl hu =>
      have hpc : ((allocSlot s i).setPc q (.fork2 i)).pc = update s.pc q (.fork2 i) := by
        simp [allocSlot, Sys.setPc, Sys.setContext, Sys.setNextpid, Sys.setSlot,
          ← (hok.inv.idle_rests hl (by simp [hu])).off]
      exact h.goto (h.set_slot (fresh_of_state (by simp))) hpc (no _ (by simp))
  | @fork2 np hl =>
      exact h.goto (h.set_slot (fresh_of_state (by simp [hused np rfl]))) rfl (no _ (by simp))
  | fork3 hl => exact h.goto (h.set_slot (fresh_of_state (by simp))) rfl (no _ (by simp))
  | @reparentHit i st hi he =>
      refine h.goto (h.set_slot fun hu => ?_) rfl (no _ (by simp))
      obtain ⟨-, h2, -⟩ := h.slot i hu
      simp [h2] at he
  | waitFree hi he hl hz ha => exact h.goto (h.set_slot (fresh_freeproc k)) rfl (no _ (by simp))
  | _ => exact h.goto h.slot rfl (no _ (by simp))

theorem step (h : Clean k s) (hok : Ok s) (ha : k → a.call ≠ .kill 0)
    (ht : Proc.step s a = some s') : Clean k s' := by
  have hx := hok.inv.cpu a.cpu
  cases step_cases ht with
  | run hp hr => exact ⟨h.set_slot (fresh_of_state (by simp)), h.kill⟩
  | enter hp => exact h.goto h.slot rfl fun _ pid i he => by simp at he
  | @intrNext n j i hp hj hl =>
      refine ⟨h.set_wakeup j _, ?_⟩
      unfold wakeupSlot
      split <;> exact h.kill
  | @thread i q s' hp hc ht =>
      simp only [CpuOk, hp] at hx
      have hi : i = q := Option.some.inj (hx.1.symm.trans hc)
      subst hi
      exact h.thread_step hok ha hp ht
  | _ => exact ⟨h.slot, h.kill⟩

theorem boot : Clean k boot where
  slot p := by
    by_cases h : p = 0
    · exact fresh_of_state (by simp [Proc.boot, h])
    · intro _
      simp [Proc.boot, h]
  kill _ q pid i h := by simp [Proc.boot] at h

end Clean

theorem clean_of_exec {k : Prop} {as : List Act} (h : Runs.exec step boot as = some s)
    (ha : k → ∀ a ∈ as, a.call ≠ .kill 0) : Clean k s := by
  refine Runs.exec_induction (P := fun ls t => (k → ∀ a ∈ ls, a.call ≠ .kill 0) → Clean k t) ?_ ?_ h ha
  · exact fun _ => Clean.boot
  · intro ls t l u hls hP ht hl
    refine (hP fun hk a ham => hl hk a (by simp [ham])).step (Reachable.ok ⟨ls, hls⟩) (fun hk => ?_) ht
    exact hl hk l (by simp)

theorem Reachable.clean (h : Reachable s) : Clean False s := by
  obtain ⟨as, h⟩ := h
  exact clean_of_exec h (fun hf => hf.elim)

/-! ### The target of `kill` -/

theorem kill_step {pid : ℤ} {i : ℕ} (hr : Reachable s) (hp : (s.cpus a.cpu).pos = .thread q)
    (hk : s.pc q = .kill pid i) (ht : step s a = some s') :
    ((s.slots i).pid = pid ∧ s'.slots = update s.slots i (killSlot (s.slots i)) ∧ s'.result q = 0 ∧
      s'.pc q = .user) ∨
    (s'.slots = s.slots ∧ (s'.pc q = .kill pid (i + 1) ∨ s'.result q = -1 ∧ s'.pc q = .user)) := by
  have hx := hr.ok.inv.cpu a.cpu
  cases step_cases ht with
  | @thread j q' s' hp' hc ht =>
      rw [hp] at hp'
      cases hp'
      simp only [CpuOk, hp] at hx
      cases Option.some.inj (hx.1.symm.trans hc)
      rw [hk] at ht
      cases ht with
      | killHit hi hl => exact .inl ⟨rfl, rfl, update_self .., update_self ..⟩
      | killNext hi hl he => exact .inr ⟨rfl, .inl (update_self ..)⟩
      | killDone hi => exact .inr ⟨rfl, .inr ⟨update_self .., update_self ..⟩⟩
  | wrap hp' | scan hp' | run hp' | skip hp' | leave hp' | enter hp' | back hp' | returned hp'
  | unlock hp' | intr hp'
  | intrNext hp' | intrDone hp' => simp [hp] at hp'

theorem used_step (hr : Reachable s) (ht : step s a = some s') (hb : (s.slots p).state = .unused)
    (hn : (s'.slots p).killed = true) : (s.slots p).killed = true ∨ Hits s a p := by
  cases step_or_beside hr ht p with
  | inl ho =>
      have hst := (hr.ok.inv.runs ho.1).2.2.state
      rw [hb] at hst
      generalize s.pc p = k at hst
      cases k <;> simp only [Pc.state, reduceCtorEq] at hst
      rename_i r
      cases r <;> simp [Resume.state] at hst
  | inr hb => exact (hb.killed hn).imp_right fun h => h.1

/-- **`kill` affects only its target.**  In every run in which `kill` is not called with 0: a step
of `kill(pid)` marks one process that is in use and has that pid, and `kill` returns 0, or it
changes no slot, and `kill` goes on or returns -1; and a slot that is not in use is not marked, so
that a process starts without a mark. -/
theorem kill_only_its_target {as : List Act} (h : Runs.exec step boot as = some s)
    (ha : ∀ a ∈ as, a.call ≠ .kill 0) :
      (∀ (a : Act) (s' : Sys) (q i : ℕ) (pid : ℤ), (s.cpus a.cpu).pos = .thread q →
        s.pc q = .kill pid i → step s a = some s' →
      ((s.slots i).pid = pid ∧ (s.slots i).state ≠ .unused ∧
        s'.slots = update s.slots i (killSlot (s.slots i)) ∧ s'.result q = 0 ∧ s'.pc q = .user) ∨
      (s'.slots = s.slots ∧ (s'.pc q = .kill pid (i + 1) ∨ s'.result q = -1 ∧ s'.pc q = .user))) ∧
    (∀ p, (s.slots p).state = .unused → (s.slots p).killed = false) ∧
    (∀ (a : Act) (s' : Sys) (p : ℕ), step s a = some s' → (s.slots p).state = .unused →
      (s'.slots p).state = .used → (s'.slots p).killed = false) := by
  have hr : Reachable s := ⟨as, h⟩
  have hc : Clean True s := clean_of_exec h fun _ => ha
  refine ⟨fun a s' q i pid hp hk ht => ?_, fun p hu => (hc.slot p hu).2.2 trivial,
    fun a s' p ht hu _ => ?_⟩
  · refine (kill_step hr hp hk ht).imp_left fun ⟨hpid, hrest⟩ => ⟨hpid, fun hu => ?_, hrest⟩
    exact hc.kill trivial q pid i hk (hpid ▸ (hc.slot i hu).1)
  · by_contra hn
    simp only [Bool.not_eq_false] at hn
    cases used_step hr ht hu hn with
    | inl hk => simp [(hc.slot p hu).2.2 trivial] at hk
    | inr hits =>
        obtain ⟨q, -, hq⟩ := hits
        exact hc.kill trivial q _ p hq (hc.slot p hu).1

/-- Process 0 calls `kill(pid)`, which looks at slots 0 and 1. -/
def killing (pid : ℤ) : List Act := started ++ ⟨0, .kill pid, true⟩ :: List.replicate 2 ⟨0, .yield, true⟩

set_option maxRecDepth 100000 in
theorem kill_two_misses : let s := Runs.after step boot (killing 2)
    (s.slots 1).state = .unused ∧ (s.slots 1).killed = false :=
  ⟨by decide +kernel,
    (kill_only_its_target (Runs.exec_after step boot (killing 2) (by decide +kernel))
      (by decide +kernel)).2.1 1 (by decide +kernel)⟩

set_option maxRecDepth 100000 in
/-- `kill(0)` returns 0 and marks slot 1, which is not in use; the process that `fork` puts there is
marked. -/
theorem kill_zero_marks : let s := Runs.after step boot (killing 0)
    let s' := Runs.after step s (⟨0, .fork, true⟩ :: List.replicate 4 ⟨0, .yield, true⟩)
    Runs.exec step boot (killing 0) = some s ∧ s.result 0 = 0 ∧ s.pc 0 = .user ∧
      (s.slots 1).state = .unused ∧
    (s.slots 1).killed = true ∧ (s'.slots 1).state = .runnable ∧ (s'.slots 1).killed = true ∧
      s'.result 0 = 2 := by
  refine ⟨Runs.exec_after _ _ _ (by decide +kernel), ?_⟩
  decide +kernel

/-! ### Killed processes and `sleep` -/

/-- The positions between a test of the mark and the `acquire(&p->lock)` of the `sleep` that
follows; `pipewrite` calls `wakeup` there. -/
def Pc.tested : Pc → Bool
  | .sleep1 _ _ .tested | .sleep1 _ _ .wait | .wakeup _ _ (.sleep _ _) | .woken _ _ => true
  | _ => false

/-- The process has tested its mark, and has not taken its lock in `sleep` yet. -/
def Window (s : Sys) (p : ℕ) : Prop := (s.pc p).tested = true

/-- The process is in a call of `sleep` that follows a test of its mark: on its way to sleep, or
asleep. -/
def TestedSleep (s : Sys) (p : ℕ) : Prop :=
  Window s p ∨ ∃ ch lk r, r ≠ .user ∧ (s.pc p = .sleep2 ch lk r ∨ s.pc p = .sleep3 ch lk r ∨
    s.pc p = .sched (.sleep ch lk r) ∨
    s.pc p = .off ∧ (s.slots p).state = .sleeping ∧ s.context p = .sleep ch lk r)

theorem Pc.tested_sleep1 {ch : Option Chan} {lk : ℕ} {r : Ret} : (Pc.sleep1 ch lk r).tested = true ↔
    r ≠ .user := by
  cases r <;> simp [Pc.tested]

theorem Pc.waking_or_falling {k : Pc} (h : k.tested = true) : k.waking = true ∨ k.falling = true := by
  unfold Pc.tested at h
  split at h <;> simp_all [Pc.waking, Pc.falling]

theorem Window.of_waking (h : (s.pc p).waking = true) : Window s p := by
  unfold Window
  unfold Pc.waking at h
  split at h <;> simp_all [Pc.tested]

/-- A process whose lock is free is in the window, asleep, or not in such a call. -/
theorem TestedSleep.unlocked (h : TestedSleep s p) (hi : Inv s) (hl : s.plock p = none) :
    Window s p ∨ s.pc p = .off ∧ (s.slots p).state = .sleeping := by
  refine h.imp_right fun ⟨ch, lk, r, _, h⟩ => ?_
  have own : s.pc p ≠ .off → (s.pc p).own = false := by
    intro hon
    obtain ⟨c, hc⟩ := hi.on_cpu hon
    have := (hi.runs hc).2.2.lock
    simpa [hl] using this
  rcases h with h | h | h | h
  · exact absurd (own (by simp [h])) (by simp [h, Pc.own])
  · exact absurd (own (by simp [h])) (by simp [h, Pc.own])
  · exact absurd (own (by simp [h])) (by simp [h, Pc.own])
  · exact ⟨h.1, h.2.1⟩

theorem TestedSleep.of_beside (h : TestedSleep s' p) (hb : Beside s s' a p) : TestedSleep s p := by
  unfold TestedSleep Window at h
  cases hb.pc with
  | inl hpc =>
      rw [hpc] at h
      refine h.imp_right fun ⟨ch, lk, r, hr, h⟩ => ⟨ch, lk, r, hr, ?_⟩
      refine h.imp_right (.imp_right (.imp_right fun ⟨h1, h2, h3⟩ => ?_))
      have hs := (hb.asleep h2).1
      exact ⟨h1, hs, hb.context hs ▸ h3⟩
  | inr hpc =>
      obtain ⟨-, k, hpc⟩ := hpc
      simp [hpc, Pc.tested] at h

theorem TestedSleep.of_own (h : TestedSleep s' p) (ho : Own s s' p) :
    (s.slots p).killed = false ∧ (s'.slots p).killed = false ∨
      TestedSleep s p ∧ (s'.slots p).killed = (s.slots p).killed := by
  unfold TestedSleep Window at h
  cases ho with
  | call hpc hn hq hl hk =>
      simp only [hpc, Pc.tested_sleep1, reduceCtorEq, false_and, or_false, and_false, exists_false] at h
      rw [hq]
      cases hk.resolve_left h with
      | inl hw => exact .inr ⟨.inl (.of_waking hw), rfl⟩
      | inr hkd => exact .inl ⟨hkd, hkd⟩
  | lock hb hpc hn hq hl =>
      simp only [hpc, Pc.tested, Bool.false_eq_true, Pc.sleep2.injEq, reduceCtorEq, false_and,
        or_false, false_or] at h
      obtain ⟨ch, lk, r, hr, rfl, rfl, rfl⟩ := h
      exact .inr ⟨.inl (by rw [Window, hb, Pc.tested_sleep1]; exact hr), by rw [hq]⟩
  | release hb hpc hn hq =>
      simp only [hpc, Pc.tested, Bool.false_eq_true, Pc.sleep3.injEq, reduceCtorEq, false_and,
        or_false, false_or] at h
      obtain ⟨ch, lk, r, hr, rfl, rfl, rfl⟩ := h
      exact .inr ⟨.inr ⟨_, _, _, hr, .inl hb⟩, by rw [hq]⟩
  | sleep hb hpc hn hc hk =>
      simp only [hpc, Pc.tested, Bool.false_eq_true, Pc.sched.injEq, Resume.sleep.injEq,
        reduceCtorEq, false_and, or_false, false_or] at h
      obtain ⟨ch, lk, r, hr, rfl, rfl, rfl⟩ := h
      exact .inr ⟨.inr ⟨_, _, _, hr, .inr (.inl hb)⟩, hk⟩
  | away hb hpc hc hn hq =>
      simp only [hpc, Pc.tested, Bool.false_eq_true, reduceCtorEq, true_and, false_or] at h
      obtain ⟨ch, lk, r, hr, -, h⟩ := h
      refine .inr ⟨.inr ⟨ch, lk, r, hr, .inr (.inr (.inl ?_))⟩, by rw [hq]⟩
      rw [hb, ← hc, h]
  | calm hpc hn hs hw =>
      have hwake : (s'.pc p).waking = true := by
        rcases h with h | ⟨ch, lk, r, -, h | h | h | h⟩
        · exact (Pc.waking_or_falling h).resolve_right (by simp [hpc])
        · simp [h, Pc.falling] at hpc
        · simp [h, Pc.falling] at hpc
        · simp [h, Pc.falling] at hpc
        · exact absurd h.2.1 hs
      obtain ⟨hw | hkd, hk⟩ := hw hwake
      · exact .inr ⟨.inl (.of_waking hw), hk⟩
      · exact .inl ⟨hkd, hk ▸ hkd⟩

/-- A step keeps marked processes from such calls, unless it marks one in the window. -/
theorem marked_step (h : ∀ p, (s.slots p).killed = true → ¬ TestedSleep s p) (hr : Reachable s)
    (ha : ∀ p, Hits s a p → ¬ Window s p) (ht : step s a = some s') (p : ℕ)
    (hk : (s'.slots p).killed = true) : ¬ TestedSleep s' p := by
  intro hts
  cases step_or_beside hr ht p with
  | inl ho =>
      cases hts.of_own (own_thread hr.ok ho.1 ho.2) with
      | inl hn => simp [hn.2] at hk
      | inr hn => exact h p (hn.2 ▸ hk) hn.1
  | inr hb =>
      cases hb.killed hk with
      | inl hk => exact h p hk (hts.of_beside hb)
      | inr hh =>
          obtain ⟨hits, hl, hs⟩ := hh
          cases (hts.of_beside hb).unlocked hr.ok.inv hl with
          | inl hw => exact ha p hits hw
          | inr hw =>
              unfold TestedSleep Window at hts
              cases hb.pc with
              | inl hpc => simp [hpc, hw.1, hs, Pc.tested] at hts
              | inr hpc =>
                  obtain ⟨-, k, hpc⟩ := hpc
                  simp [hpc, Pc.tested] at hts

theorem hit_step (hr : Reachable s) (hh : Hits s a p) (hp : p < NPROC) (ht : step s a = some s') :
    s.plock p = none ∧ s'.slots p = killSlot (s.slots p) ∧
      ∃ q, s.pc q = .kill (s.slots p).pid p ∧ s'.pc = update s.pc q .user := by
  obtain ⟨q, hq, hk⟩ := hh
  have hx := hr.ok.inv.cpu a.cpu
  cases step_cases ht with
  | @thread j q' s' hp' hc ht =>
      rw [hq] at hp'
      cases hp'
      simp only [CpuOk, hq] at hx
      cases Option.some.inj (hx.1.symm.trans hc)
      generalize hpid : (s.slots p).pid = pid at hk
      rw [hk] at ht
      cases ht with
      | killHit hi hl => exact ⟨hl, by simp [Sys.setPc, Sys.setResult], q, hpid ▸ hk, rfl⟩
      | killNext hi hl he => exact absurd hpid he
      | killDone hi => exact absurd hp hi
  | wrap hp' | scan hp' | run hp' | skip hp' | leave hp' | enter hp' | back hp' | returned hp'
  | unlock hp' | intr hp'
  | intrNext hp' | intrDone hp' => simp [hq] at hp'

theorem hit_missed_iff (hr : Reachable s) (hh : Hits s a p) (hp : p < NPROC)
    (ht : step s a = some s') : TestedSleep s' p ↔ Window s p := by
  obtain ⟨hl, hslot, q, hq, hpc⟩ := hit_step hr hh hp ht
  by_cases hqp : q = p
  · subst hqp
    simp [TestedSleep, Window, hpc, hq, Pc.tested]
  · have hpc' : s'.pc p = s.pc p := by rw [hpc, update_of_ne (Ne.symm hqp)]
    have hns : (s'.slots p).state ≠ .sleeping := by
      rw [hslot]
      simp only [killSlot]
      split <;> simp_all
    unfold TestedSleep Window
    rw [hpc']
    refine ⟨fun h => ?_, .inl⟩
    simp only [hns, false_and, and_false, or_false] at h
    obtain h | ⟨ch, lk, r, hr', h⟩ := h
    · exact h
    have hts : TestedSleep s p := .inr ⟨ch, lk, r, hr', h.imp_right (.imp_right .inl)⟩
    refine (hts.unlocked hr.ok.inv hl).resolve_right fun hoff => ?_
    simp [hoff.1] at h

/-- The step is the section of a `kill` that finds its victim in the window. -/
def missed (s : Sys) (a : Act) : Bool :=
  match (s.cpus a.cpu).pos with
  | .thread q => match s.pc q with
      | .kill pid i => (s.slots i).pid = pid && (s.pc i).tested
      | _ => false
  | _ => false

theorem missed_of_hits (hh : Hits s a p) (hw : Window s p) : missed s a = true := by
  obtain ⟨q, hq, hk⟩ := hh
  simp [missed, hq, hk, show (s.pc p).tested = true from hw]

/-- No `kill` of a run finds its victim in the window. -/
def heeded (s : Sys) (as : List Act) : Bool := Runs.along step (fun u a => !missed u a) s as

/-- **Killed processes do not stay asleep.**  In every run in which no `kill` finds its victim in
the window, a process that is marked is neither asleep nor on its way to sleep in a call of `sleep`
that follows a test of the mark; and a `kill` is missed by its victim exactly if it comes in the
window. -/
theorem killed_do_not_sleep {as : List Act} (h : Runs.exec step boot as = some s)
    (ha : heeded boot as = true) : (∀ p, (s.slots p).killed = true → ¬ TestedSleep s p) ∧
    (∀ (u v : Sys) (a : Act) (p : ℕ), Reachable u → Hits u a p → p < NPROC → step u a = some v →
      (v.slots p).killed = true ∧ (TestedSleep v p ↔ Window u p)) := by
  constructor
  · refine (Runs.exec_along (I := fun u => Reachable u ∧ ∀ p, (u.slots p).killed = true →
      ¬ TestedSleep u p) ?_ ⟨⟨[], rfl⟩, fun p hk => ?_⟩ ha h).2
    · intro u a v ⟨hr, hm⟩ hok hv
      refine ⟨hr.step hv, marked_step hm hr (fun p hp hw => ?_) hv⟩
      simp [missed_of_hits hp hw] at hok
    · by_cases hp : p = 0 <;> simp [boot, hp] at hk
  · intro u v a p hr hh hp ht
    refine ⟨?_, hit_missed_iff hr hh hp ht⟩
    rw [(hit_step hr hh hp ht).2.1]
    rfl

/-- Processes 0 and 1 run on two CPUs; process 0 makes a call with lock 1 held, in which it tests
its mark. -/
def waiting (x : Call) : List Act :=
  started ++ ⟨0, .fork, true⟩ :: List.replicate 4 ⟨0, .yield, true⟩ ++
    List.replicate 8 ⟨1, .yield, true⟩ ++ [⟨0, .acquire 1, true⟩, ⟨0, x, true⟩, ⟨0, .yield, true⟩]

/-- Process 1 kills process 0. -/
def killed : List Act := [⟨1, .kill 1, true⟩, ⟨1, .yield, true⟩]

/-- Process 0 goes on for `n` steps; it takes 7 to go to sleep. -/
def goesOn (n : ℕ) : List Act := List.replicate n ⟨0, .yield, true⟩

set_option maxRecDepth 100000 in
/-- A process that is killed while it sleeps in `pipewrite`. -/
theorem killed_in_sleep :
    let s := Runs.after step boot (waiting (.testWakeSleep 6 7 1) ++ goesOn (66 + 7) ++ killed)
    (s.slots 0).killed = true ∧ ¬ TestedSleep s 0 :=
  ⟨by decide +kernel, (killed_do_not_sleep (Runs.exec_after step boot
    (waiting (.testWakeSleep 6 7 1) ++ goesOn (66 + 7) ++ killed) (by decide +kernel))
    (by decide +kernel)).1 0 (by decide +kernel)⟩

set_option maxRecDepth 100000 in
/-- Process 1 kills process 0 between the test and `sleep`, and `kill` returns 0; process 0 is then
asleep.  So it is in `piperead`, and in the `wakeup` of `pipewrite`. -/
theorem killed_before_sleep :
    let s := Runs.after step boot (waiting (.testSleep 7 1) ++ killed ++ goesOn 7)
    let t := Runs.after step boot
      (waiting (.testWakeSleep 6 7 1) ++ goesOn 20 ++ killed ++ goesOn (46 + 7))
    (Runs.exec step boot (waiting (.testSleep 7 1) ++ killed ++ goesOn 7) = some s ∧
      s.result 1 = 0 ∧ s.pc 1 = .user ∧ (s.slots 0).killed = true ∧ (s.slots 0).state = .sleeping ∧
        (s.slots 0).chan = some (.other 7) ∧
      s.context 0 = .sleep (some (.other 7)) 1 .tested) ∧
    (Runs.exec step boot (waiting (.testWakeSleep 6 7 1) ++ goesOn 20 ++ killed ++
      goesOn (46 + 7)) = some t ∧ t.result 1 = 0 ∧ t.pc 1 = .user ∧ (t.slots 0).killed = true ∧
        (t.slots 0).state = .sleeping ∧
      (t.slots 0).chan = some (.other 7) ∧ t.context 0 = .sleep (some (.other 7)) 1 .tested) := by
  refine ⟨⟨Runs.exec_after _ _ _ (by decide +kernel), ?_⟩, Runs.exec_after _ _ _ (by decide +kernel), ?_⟩
  · decide +kernel
  · decide +kernel

end Xv6Cow.Proc

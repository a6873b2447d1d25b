import Xv6Cow.Proc.Cpu

/-! # Runs of the process table

Every step of a CPU keeps `Inv` and `Forks`, so they hold in every state that is reached from the
boot. -/

namespace Xv6Cow.Proc

open Function (update update_self update_of_ne)

variable {s s' : Sys} {c d p q : ℕ} {a : Act}

/-! ### Steps of a thread -/

theorem Forks.thread_step (h : Forks s) (hi : Inv s) (hp : (s.cpus c).pos = .thread p)
    (ht : Thread s c p a (s.pc p) s') : Forks s' := by
  have hst := (hi.runs hp).2.2.state
  generalize hk : s.pc p = k at ht hst
  have keep : ∀ np, (s.slots np).state = .used → (s.slots np).state = .used := fun _ hn => hn
  have self : ∀ x : Slot, (s.slots p).state = .used → x.state = .used := by
    intro x hu
    rw [hst] at hu
    cases k <;> simp_all [Pc.state]
    rename_i r
    cases r <;> simp [Resume.state] at hu
  cases ht with
  | user hc =>
      generalize a.call = x at hc
      cases hc with
      | setkilled _ => exact h.keep (set_slot fun hu => hu) fun _ _ hq => hq
      | acquire | release => exact h.keep keep fun _ _ hq => hq
      | _ => exact h.goto (.inl rfl) rfl keep
  | yield2 | sleep3 | exit3 => exact h.goto (.inl rfl) rfl (set_slot (self _))
  | resumedSleep => exact h.goto (.inl rfl) rfl (set_slot fun hu => hu)
  | @sleep4 lk r hl =>
      refine h.goto (k := if r = .wait then .waitScan 0 false else .user) (.inl ?_) rfl keep
      split <;> rfl
  | sched hp' => exact h.goto (p := p) (k := .off) (.inl rfl) rfl keep
  | @wakeupNext chan i b hj hn hl =>
      refine h.goto (p := p) (k := .wakeup chan (i + 1) b) (.inl rfl) ?_ (wakeupSlot_used _ _)
      unfold wakeupSlot
      split <;> rfl
  | @wakeupDone chan i b hj => exact h.goto (k := afterWakeup b) (.inl (by cases b <;> rfl)) rfl keep
  | killHit hj hl => exact h.goto (.inl rfl) rfl (set_slot (by simp +contextual [killSlot]))
  | forkFail hj hl hu => exact h.goto (.inl rfl) rfl (set_slot (by simp [hu]))
  | @forkAlloc i hj hl hu =>
      refine h.alloc hu ?_ (hi.idle_rests hl (by simp [hu])).off
      rintro rfl
      rw [hst] at hu
      cases hu
  | fork2 hl => exact h.goto (.inr (by rw [hk]; rfl)) rfl (set_slot fun hu => hu)
  | @fork3 np hl =>
      have hchild : (s.pc p).child = some np := by rw [hk]; rfl
      refine h.start hchild rfl rfl fun q hq => ?_
      simp [Sys.setPc, Sys.setResult, hq]
  | reparentHit hj he => exact h.goto (.inl rfl) rfl (set_slot fun hu => hu)
  | waitFree hj he hl hz ha => exact h.goto (.inl rfl) rfl (set_slot (by simp [hz]))
  | _ => exact h.goto (.inl rfl) rfl keep

/-! ### Steps of a CPU -/

/-- What every reachable state satisfies. -/
structure Ok (s : Sys) : Prop where
  inv : Inv s
  forks : Forks s

namespace Inv

theorem run_step {i : ℕ} (h : Inv s) (hp : (s.cpus c).pos = .got i)
    (hr : (s.slots i).state = .runnable) :
      Inv ((s.setSlot i { s.slots i with state := .running }).setCpu c
        { s.cpus c with proc := some i, pos := .leave i }) := by
  have hc := h.cpu c
  simp only [CpuOk, hp] at hc
  have hex : ∀ d, d ≠ c → (s.cpus d).pos.idx ≠ some i := by
    intro d hd hi
    cases (h.cpu d).lock hi with
    | inl ho => exact hd (Option.some.inj (ho.symm.trans hc.2.2))
    | inr ho => simp [ho.2.2] at hr
  have hrest : Rests s i := by
    refine h.rest i fun d hd => ?_
    by_cases he : d = c
    · simp [he, hc.1] at hd
    · exact hex d he ((h.cpu d).idx hd)
  refine h.set_held hc.2.2 hex (fun d hd => update_of_ne hd _ _) rfl (fun q d hq => ?_) ?_ ?_
    (.inl (by simp))
  · constructor <;> simp [Sys.setCpu, Sys.setSlot, hq]
  · simp only [CpuOk, setCpu_cpus, update_self]
    exact ⟨trivial, hc.2.1, hc.2.2, hrest.off, by simp [Sys.setCpu], hrest.runnable hr⟩
  · simp [Holds]

theorem move {i : ℕ} {x : Cpu} (h : Inv s) (hl : s.plock i = some c) (hproc : (s.cpus c).proc = some i)
    (hc : s'.cpus = update s.cpus c x) (hk : s'.plock = s.plock) (hq : ∀ q d, q ≠ i → Same s s' d q)
    (hok : CpuOk s' c) (hh : Holds s' c i) (hr : x.proc = some i ∨ Rests s' i) : Inv s' := by
  refine h.set_held hl (fun d hd hi => ?_) (fun d hd => by rw [hc, update_of_ne hd]) hk hq hok hh
    (by simpa [hc] using hr)
  cases (h.cpu d).lock hi with
  | inl ho => exact hd (Option.some.inj (ho.symm.trans hl))
  | inr ho => exact h.alone hproc hd (h.runs ho.1).1

end Inv

theorem Ok.after (h : Ok s) (ht : step s a = some s') : Ok s' := by
  obtain ⟨h, hf⟩ := h
  have same : ∀ x q d, Same s (s.setCpu a.cpu x) d q := fun _ _ _ => ⟨rfl, rfl, rfl, rfl, Iff.rfl⟩
  have hf' : ∀ {t : Sys}, t.slots = s.slots → t.pc = s.pc → Forks t := fun h1 h2 =>
    ⟨by rw [h1, h2]; exact hf.used, by rw [h2]; exact hf.one⟩
  have hx := h.cpu a.cpu
  cases step_cases ht with
  | wrap hp | intr hp | intrDone hp _ =>
      simp only [CpuOk, hp] at hx
      exact ⟨h.set_free (by rw [hp]; rfl) rfl hx.1 hx.2, hf' rfl rfl⟩
  | @intrNext n j i hp hj hl =>
      simp only [CpuOk, hp] at hx
      have hcp : (wakeupSlot s j (some (.other n))).cpus = s.cpus := by unfold wakeupSlot; split <;> rfl
      have hpc : (wakeupSlot s j (some (.other n))).pc = s.pc := by unfold wakeupSlot; split <;> rfl
      refine ⟨(h.wakeupSlot _ hl).set_free (by rw [hcp, hp]; rfl) rfl hx.1 hx.2,
        hf.keep (Forks.wakeupSlot_used _ _) ?_⟩
      intro q np hq
      exact hpc ▸ hq
  | @scan i hp hl =>
      simp only [CpuOk, hp] at hx
      refine ⟨h.set_sched hx.1 hx.1 (by simp [hp, At.idx]) (.inl hl) (.inr rfl) ?_ ?_,
        hf' rfl rfl⟩
      · simp only [CpuOk, setCpu_cpus, update_self]
        exact ⟨hx.1, hx.2, by simp [Sys.setCpu]⟩
      · simp [Holds]
  | @skip i hp hr =>
      simp only [CpuOk, hp] at hx
      have he : s.setPlock i (some a.cpu) = s := by simp [Sys.setPlock, ← hx.2.2]
      refine ⟨he ▸ h.set_sched hx.1 hx.1 (by simp [hp, At.idx]) (.inr hx.2.2) (.inr rfl) ?_ ?_,
        hf' rfl rfl⟩
      · simp only [CpuOk, setCpu_cpus, update_self]
        exact ⟨hx.1, hx.2.1, by simp [Sys.setCpu]⟩
      · simp [Holds]
  | @unlock i hp =>
      simp only [CpuOk, hp] at hx
      refine ⟨h.set_sched hx.1 hx.1 (by simp [hp, At.idx]) (.inr hx.2.2) (.inl rfl) ?_ (by simp),
        hf' rfl rfl⟩
      simp only [CpuOk, setCpu_cpus, update_self]
      exact ⟨hx.1, hx.2.1⟩
  | run hp hr => exact ⟨h.run_step hp hr, hf.keep (Forks.set_slot (by simp [hr])) fun _ _ hq => hq⟩
  | @leave i hp =>
      simp only [CpuOk, hp] at hx
      obtain ⟨h1, h2, h3, h4⟩ := hx
      refine ⟨h.move h3 h1 rfl rfl (fun q d _ => same _ q d) ?_ (by simp [Holds]) (.inl h1),
        hf' rfl rfl⟩
      simp only [CpuOk, setCpu_cpus, update_self]
      exact ⟨h1, h2, h3, h4⟩
  | @enter i hp =>
      simp only [CpuOk, hp] at hx
      obtain ⟨h1, h2, h3, h4, h5, h6⟩ := hx
      refine ⟨h.move h3 h1 rfl rfl (fun q d hq => ?_) ?_ (by simp [Holds, Sys.setCpu, Pc.own])
        (.inl h1), ?_⟩
      · exact ⟨rfl, rfl, by simp [Sys.setCpu, hq], rfl, Iff.rfl⟩
      · simp only [CpuOk, setCpu_cpus, update_self]
        refine ⟨h1, trivial, ?_⟩
        constructor <;> simp [Sys.setCpu, Sys.setPc, h3, h5, h6, Pc.own, Pc.state]
      · exact hf.goto (.inl rfl) rfl fun _ hn => hn
  | @thread i p s' hp hc ht =>
      have hi : i = p := by
        simp only [CpuOk, hp] at hx
        exact Option.some.inj (hx.1.symm.trans hc)
      subst hi
      refine ⟨h.thread_step hp (fun np hk => ?_) ht, hf.thread_step h hp ht⟩
      exact hf.used i np (by rw [hk]; rfl)
  | @back i hp =>
      simp only [CpuOk, hp] at hx
      obtain ⟨h1, h2, h3, h4⟩ := hx
      refine ⟨h.move h3 h1 rfl rfl (fun q d _ => same _ q d) ?_ (by simp [Holds]) (.inl h1),
        hf' rfl rfl⟩
      simp only [CpuOk, setCpu_cpus, update_self]
      exact ⟨h1, trivial, h3, h4.frame (same _ i 0)⟩
  | @returned i hp =>
      simp only [CpuOk, hp] at hx
      obtain ⟨h1, h2, h3, h4⟩ := hx
      refine ⟨h.move h3 h1 rfl rfl (fun q d _ => same _ q d) ?_ (by simp [Holds])
        (.inr (h4.frame (same _ i 0))), hf' rfl rfl⟩
      simp only [CpuOk, setCpu_cpus, update_self]
      exact ⟨trivial, h2, h3⟩

theorem boot_ok : Ok boot where
  inv := by
    refine ⟨fun c => ?_, fun c p h => by simp [boot] at h, fun c d p h => by simp [boot] at h,
      fun p _ => ?_⟩
    · exact ⟨rfl, rfl⟩
    · by_cases h : p = 0 <;> constructor <;> simp [boot, h]
  forks := ⟨fun p np h => by simp [boot, Pc.child] at h, fun p q np h => by simp [boot, Pc.child] at h⟩

/-- A state that some run from the boot reaches. -/
def Reachable (s : Sys) : Prop := ∃ as, Runs.exec step boot as = some s

theorem Reachable.ok (h : Reachable s) : Ok s := by
  obtain ⟨as, h⟩ := h
  exact Runs.exec_invariant boot_ok (fun t l u ht hs => ht.after hs) h

/-! ### The slot of a process that has exited -/

/-- A step of `wait`, by process `q`, that frees the slot of `p`. -/
structure Reaps (s s' : Sys) (a : Act) (q p : ℕ) : Prop where
  proc : (s.cpus a.cpu).pos = .thread q
  scan : ∃ hk, s.pc q = .waitScan p hk
  parent : (s.slots p).parent = some q
  unlocked : s.plock p = none
  pid : s'.result q = (s.slots p).pid
  status : s'.status q = (s.slots p).xstate
  returns : s'.pc q = .user
  freed : s'.slots p = freeproc

/-- A slot keeps its process. -/
structure Keeps (x y : Slot) : Prop where
  state : y.state = x.state
  pid : y.pid = x.pid
  xstate : y.xstate = x.xstate

theorem Keeps.refl (x : Slot) : Keeps x x := ⟨rfl, rfl, rfl⟩

theorem keeps_set {i : ℕ} {x : Slot} (h : i = p → Keeps (s.slots p) x) :
    Keeps (s.slots p) ((s.setSlot i x).slots p) := by
  by_cases he : i = p
  · subst he
    simpa using h rfl
  · simpa [Ne.symm he] using Keeps.refl _

theorem keeps_wakeup {chan : Option Chan} {i : ℕ} (hz : (s.slots p).state = .zombie) :
    Keeps (s.slots p) ((wakeupSlot s i chan).slots p) := by
  unfold wakeupSlot
  split
  · rename_i hs
    refine keeps_set fun he => ?_
    subst he
    simp [hz] at hs
  · exact .refl _

/-- A thread keeps the processes that have exited, but for the one that its `wait` frees. -/
theorem Ok.zombie_thread (h : Ok s) (hz : (s.slots p).state = .zombie)
    (hp : (s.cpus a.cpu).pos = .thread q) (ht : Thread s a.cpu q a (s.pc q) s') :
    Keeps (s.slots p) (s'.slots p) ∨ Reaps s s' a q p := by
  have hst := (h.inv.runs hp).2.2.state
  have hf := h.forks.used q
  generalize hk : s.pc q = k at ht hst hf
  have self : k.state = .running → q ≠ p := by
    rintro hr rfl
    rw [hz, hr] at hst
    cases hst
  cases ht with
  | user hc =>
      generalize a.call = x at hc
      cases hc with
      | setkilled _ => exact .inl (keeps_set fun he => absurd he (self rfl))
      | _ => exact .inl (.refl _)
  | yield2 | sleep3 | exit3 | resumedSleep => exact .inl (keeps_set fun he => absurd he (self rfl))
  | wakeupNext hi hn hl => exact .inl (keeps_wakeup hz)
  | killHit hi hl =>
      refine .inl (keeps_set fun he => ?_)
      subst he
      exact ⟨by simp [killSlot, hz], rfl, rfl⟩
  | forkFail hi hl hu | forkAlloc hi hl hu =>
      refine .inl (keeps_set fun he => ?_)
      subst he
      simp [hz] at hu
  | @fork2 np hl =>
      refine .inl (keeps_set fun he => ?_)
      subst he
      exact ⟨rfl, rfl, rfl⟩
  | @fork3 np hl =>
      refine .inl (keeps_set fun he => ?_)
      subst he
      simp [hf np rfl] at hz
  | reparentHit hi he =>
      refine .inl (keeps_set fun he => ?_)
      subst he
      exact ⟨rfl, rfl, rfl⟩
  | @waitFree i hk' hi he hl hzi ha =>
      by_cases hip : i = p
      · subst hip
        refine .inr ⟨hp, ⟨_, hk⟩, he, hl, ?_, ?_, ?_, ?_⟩ <;>
          simp [waitReturn, Sys.setPc, Sys.setResult, Sys.release, Sys.setStatus]
      · exact .inl (keeps_set fun he => absurd he hip)
  | _ => exact .inl (.refl _)

/-- A step keeps the processes that have exited, but for the one that a `wait` frees. -/
theorem Ok.zombie_step (h : Ok s) (hz : (s.slots p).state = .zombie) (ht : step s a = some s') :
    Keeps (s.slots p) (s'.slots p) ∨ ∃ q, Reaps s s' a q p := by
  have hx := h.inv.cpu a.cpu
  cases step_cases ht with
  | @run i hp hr =>
      refine .inl (keeps_set fun he => ?_)
      subst he
      simp [hz] at hr
  | intrNext hp hj hl => exact .inl (keeps_wakeup hz)
  | @thread i q s' hp hc ht =>
      simp only [CpuOk, hp] at hx
      have hi : i = q := Option.some.inj (hx.1.symm.trans hc)
      subst hi
      exact (h.zombie_thread hz hp ht).imp_right fun hr => ⟨i, hr⟩
  | _ => exact .inl (.refl _)

/-! ### One CPU for each process -/

theorem CpuOk.stack (h : CpuOk s c) (hp : (s.cpus c).stack = some p) : (s.cpus c).pos.idx = some p := by
  simp only [CpuOk] at h
  cases hx : (s.cpus c).pos <;> simp only [hx] at h <;> simp only [At.idx] <;> simp_all

/-- **One CPU for each process.**  In every reachable state, with any number of CPUs: a process
whose lock is free is running iff exactly one CPU has it; a context that a CPU is about to load has
been saved, and no other CPU is on its stack; and a process that has exited is not freed while a CPU
is on its stack. -/
theorem one_cpu_per_process (h : Reachable s) :
    (∀ p, s.plock p = none → ((s.slots p).state = .running ↔ ∃! c, (s.cpus c).proc = some p)) ∧
    (∀ c p, (s.cpus c).pos = .enter p → s.pc p = .off ∧ ∀ d, (s.cpus d).stack ≠ some p) ∧
    (∀ a s' p, step s a = some s' → (s.slots p).state = .zombie → (s'.slots p).state ≠ .zombie →
      ∀ c, (s.cpus c).stack ≠ some p) := by
  have hok := h.ok
  have hi := hok.inv
  refine ⟨fun p hl => ⟨fun hr => ?_, ?_⟩, fun c p hp => ?_, fun a s' p ht hz hn c hc => ?_⟩
  · by_contra hno
    refine (hi.rest p fun c hc => hno ⟨c, hc, fun d hd => hi.one d c p hd hc⟩).notRunning hr
  · intro ⟨c, hc, _⟩
    by_contra hr
    exact hi.idle hl hr c ((hi.cpu c).idx hc)
  · have hc := hi.cpu c
    simp only [CpuOk, hp] at hc
    refine ⟨hc.2.2.2.1, fun d hd => ?_⟩
    by_cases hdc : d = c
    · subst hdc
      simp [hc.2.1] at hd
    · cases (hi.cpu d).lock ((hi.cpu d).stack hd) with
      | inl ho => exact hdc (Option.some.inj (ho.symm.trans hc.2.2.1))
      | inr ho => exact hi.alone hc.1 hdc (hi.runs ho.1).1
  · cases hok.zombie_step hz ht with
    | inl hk => exact hn (hk.state.trans hz)
    | inr hr =>
        obtain ⟨q, hr⟩ := hr
        exact hi.idle hr.unlocked (by simp [hz]) c ((hi.cpu c).stack hc)

/-- CPU 0 has switched to the first process, which has released its lock in `forkret`. -/
def started : List Act := List.replicate 5 ⟨0, .yield, true⟩

theorem one_cpu_of_started : ∃ s, Runs.exec step boot started = some s ∧
    (s.slots 0).state = .running ∧ ∃! c, (s.cpus c).proc = some 0 :=
  ⟨_, rfl, rfl, ((one_cpu_per_process ⟨started, rfl⟩).1 0 rfl).1 rfl⟩

end Xv6Cow.Proc

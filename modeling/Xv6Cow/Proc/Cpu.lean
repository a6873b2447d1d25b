import Xv6Cow.Proc.Steps

/-! # One CPU for each process

`p->lock` is taken in `scheduler` and released by the thread that is switched to, or the other way
round. The invariant `Inv` describes every position of a CPU between the two: whose lock it holds,
which process is its `c->proc`, and what the state and the saved context of that process are. -/

namespace Xv6Cow.Proc

open Function (update update_self update_of_ne update_eq_self)

/-- The positions of a thread in which it holds the lock of its own process. -/
def Pc.own : Pc → Bool
  | .yield2 | .sleep2 _ _ _ | .sleep3 _ _ _ | .sched _ | .resumed _ | .exit3 _ | .exit4 => true
  | _ => false

/-- The state in which a process is switched away from. -/
def Resume.state : Resume → PState
  | .yield | .forkret => .runnable
  | .sleep _ _ _ => .sleeping
  | .dead => .zombie

/-- The state of a process whose thread is at a position. -/
def Pc.state : Pc → PState
  | .sched k => k.state
  | .exit4 => .zombie
  | _ => .running

theorem state_of_own {k : Pc} (h : k.own = false) : k.state = .running := by
  cases k <;> simp_all [Pc.own, Pc.state]

/-- The process of a position of a CPU. -/
def At.idx : At → Option ℕ
  | .scan _ | .intr _ _ _ => none
  | .got i | .leave i | .enter i | .thread i | .back i | .returned i | .unlock i => some i

/-- CPU `c` runs the thread of `p`. -/
structure Runs (s : Sys) (c p : ℕ) : Prop where
  on : s.pc p ≠ .off
  live : s.pc p ≠ .resumed .dead
  state : (s.slots p).state = (s.pc p).state
  lock : s.plock p = some c ↔ (s.pc p).own = true
  chan : ∀ ch lk r, s.pc p = .sched (.sleep ch lk r) → (s.slots p).chan = ch

/-- The thread of `p` has been switched away from, and its state fits its context. -/
structure Rests (s : Sys) (p : ℕ) : Prop where
  off : s.pc p = .off
  notRunning : (s.slots p).state ≠ .running
  sleeping : (s.slots p).state = .sleeping → ∃ lk r, s.context p = .sleep (s.slots p).chan lk r
  zombie : (s.slots p).state = .zombie → s.context p = .dead
  runnable : (s.slots p).state = .runnable → s.context p ≠ .dead
  used : (s.slots p).state = .used → s.context p = .forkret

/-- What holds at each position of a CPU. -/
def CpuOk (s : Sys) (c : ℕ) : Prop :=
  let x := s.cpus c
  match x.pos with
  | .scan _ | .intr _ _ _ => x.proc = none ∧ x.stack = none
  | .got p | .unlock p => x.proc = none ∧ x.stack = none ∧ s.plock p = some c
  | .leave p | .enter p => x.proc = some p ∧ x.stack = none ∧ s.plock p = some c ∧ s.pc p = .off ∧
      (s.slots p).state = .running ∧ s.context p ≠ .dead
  | .thread p => x.proc = some p ∧ x.stack = some p ∧ Runs s c p
  | .back p => x.proc = some p ∧ x.stack = some p ∧ s.plock p = some c ∧ Rests s p
  | .returned p => x.proc = some p ∧ x.stack = none ∧ s.plock p = some c ∧ Rests s p

/-- CPU `c` is in a section under the lock of `p`. -/
def Holds (s : Sys) (c p : ℕ) : Prop :=
  match (s.cpus c).pos with
  | .scan _ | .intr _ _ _ => False
  | .thread i => i = p ∧ (s.pc p).own = true
  | .got i | .leave i | .enter i | .back i | .returned i | .unlock i => i = p

structure Inv (s : Sys) : Prop where
  cpu : ∀ c, CpuOk s c
  lock : ∀ c p, s.plock p = some c → Holds s c p
  one : ∀ c d p, (s.cpus c).proc = some p → (s.cpus d).proc = some p → c = d
  rest : ∀ p, (∀ c, (s.cpus c).proc ≠ some p) → Rests s p

/-! ### Frames -/

/-- What a CPU `c` that is at process `p` can see of it. -/
structure Same (s s' : Sys) (c p : ℕ) : Prop where
  state : (s'.slots p).state = (s.slots p).state
  chan : (s'.slots p).chan = (s.slots p).chan
  pc : s'.pc p = s.pc p
  context : s'.context p = s.context p
  lock : s'.plock p = some c ↔ s.plock p = some c

variable {s s' : Sys} {c d p q : ℕ}

theorem Rests.frame (h : Rests s p) (a : Same s s' c p) : Rests s' p where
  off := a.pc ▸ h.off
  notRunning := a.state ▸ h.notRunning
  sleeping he := by
    rw [a.context, a.chan]
    exact h.sleeping (a.state ▸ he)
  zombie he := a.context ▸ h.zombie (a.state ▸ he)
  runnable he := a.context ▸ h.runnable (a.state ▸ he)
  used he := a.context ▸ h.used (a.state ▸ he)

theorem Runs.frame (h : Runs s c p) (a : Same s s' c p) : Runs s' c p where
  on := a.pc ▸ h.on
  live := a.pc ▸ h.live
  state := by rw [a.state, a.pc, h.state]
  lock := by rw [a.lock, a.pc, h.lock]
  chan ch lk r he := by
    rw [a.chan]
    exact h.chan ch lk r (a.pc ▸ he)

theorem CpuOk.frame (h : CpuOk s c) (hc : s'.cpus c = s.cpus c)
    (ha : ∀ p, (s.cpus c).pos.idx = some p → Same s s' c p) : CpuOk s' c := by
  simp only [CpuOk, hc] at h ⊢
  cases hp : (s.cpus c).pos <;> simp only [hp] at h ⊢ <;>
    simp only [hp, At.idx, Option.some.injEq, reduceCtorEq, forall_eq', IsEmpty.forall_iff,
      implies_true] at ha
  case scan | intr => exact h
  case got | unlock => exact ⟨h.1, h.2.1, ha.lock.2 h.2.2⟩
  case leave | enter =>
      obtain ⟨h1, h2, h3, h4, h5, h6⟩ := h
      exact ⟨h1, h2, ha.lock.2 h3, ha.pc ▸ h4, ha.state ▸ h5, ha.context ▸ h6⟩
  case thread => exact ⟨h.1, h.2.1, h.2.2.frame ha⟩
  case back | returned => exact ⟨h.1, h.2.1, ha.lock.2 h.2.2.1, h.2.2.2.frame ha⟩

theorem Holds.frame (h : Holds s c p) (hc : s'.cpus c = s.cpus c) (hp : s'.pc p = s.pc p) :
    Holds s' c p := by
  simpa [Holds, hc, hp] using h

theorem CpuOk.idx (h : CpuOk s c) (hp : (s.cpus c).proc = some p) : (s.cpus c).pos.idx = some p := by
  simp only [CpuOk] at h
  cases hx : (s.cpus c).pos <;> simp only [hx] at h <;> simp only [At.idx] <;> simp_all

theorem Holds.idx (h : Holds s c p) : (s.cpus c).pos.idx = some p := by
  simp only [Holds] at h
  cases hx : (s.cpus c).pos <;> simp only [hx] at h <;> simp only [At.idx] <;> simp_all

theorem CpuOk.lock (h : CpuOk s c) (hi : (s.cpus c).pos.idx = some p) :
    s.plock p = some c ∨ ((s.cpus c).pos = .thread p ∧ Runs s c p ∧ (s.slots p).state = .running) := by
  simp only [CpuOk] at h
  cases hx : (s.cpus c).pos <;> simp only [hx] at h <;> simp only [hx, At.idx, Option.some.injEq,
    reduceCtorEq] at hi <;> subst hi
  case thread =>
      cases ho : (s.pc _).own with
      | true => exact .inl (h.2.2.lock.2 ho)
      | false => exact .inr ⟨rfl, h.2.2, h.2.2.state.trans (state_of_own ho)⟩
  all_goals simp_all

/-- A CPU that has not the process of its position depends on its lock only. -/
theorem CpuOk.frame_lock (h : CpuOk s d) (hc : s'.cpus d = s.cpus d) (hi : (s.cpus d).pos.idx = some p)
    (hn : (s.cpus d).proc ≠ some p) (hl : s.plock p = some d → s'.plock p = some d) : CpuOk s' d := by
  simp only [CpuOk, hc] at h ⊢
  cases hx : (s.cpus d).pos <;> simp only [hx] at h ⊢ <;> simp only [hx, At.idx, Option.some.injEq,
    reduceCtorEq] at hi <;> subst hi
  case got | unlock => exact ⟨h.1, h.2.1, hl h.2.2⟩
  all_goals exact absurd h.1 hn

theorem Holds.frame_pos (h : Holds s d p) (hc : s'.cpus d = s.cpus d)
    (hn : (s.cpus d).pos ≠ .thread p) : Holds s' d p := by
  simp only [Holds, hc] at h ⊢
  cases hx : (s.cpus d).pos <;> simp only [hx] at h ⊢
  case thread => exact absurd (hx.trans (congrArg _ h.1)) hn
  all_goals exact h

namespace Inv

section
variable (h : Inv s)
include h

/-- `Inv` reads the states, channels, positions, contexts and locks of the processes, and the
CPUs. -/
theorem congr (hc : s'.cpus = s.cpus) (hk : s'.plock = s.plock) (hq : ∀ q c, Same s s' c q) :
    Inv s' where
  cpu c := (h.cpu c).frame (congrFun hc c) fun q _ => hq q c
  lock c q ho := (h.lock c q (hk ▸ ho)).frame (congrFun hc c) (hq q c).pc
  one := hc ▸ h.one
  rest q ho := (h.rest q (hc ▸ ho)).frame (hq q 0)

theorem idle (hl : s.plock p = none) (hr : (s.slots p).state ≠ .running) :
    ∀ c, (s.cpus c).pos.idx ≠ some p := by
  intro c hi
  cases (h.cpu c).lock hi with
  | inl ho => simp [hl] at ho
  | inr ho => exact hr ho.2.2

theorem idle_rests (hl : s.plock p = none) (hr : (s.slots p).state ≠ .running) : Rests s p :=
  h.rest p fun c hc => h.idle hl hr c ((h.cpu c).idx hc)

/-- A process that no CPU has, and whose lock is free, may change as long as it rests. -/
theorem set_rest (hl : s.plock p = none) (hr : (s.slots p).state ≠ .running)
    (hc : s'.cpus = s.cpus) (hk : s'.plock = s.plock) (hq : ∀ q c, q ≠ p → Same s s' c q)
    (hn : Rests s' p) : Inv s' := by
  have hat := h.idle hl hr
  constructor
  · intro c
    refine (h.cpu c).frame (congrFun hc c) fun q hi => hq q c ?_
    rintro rfl
    exact hat c hi
  · intro c q ho
    have hold := h.lock c q (hk ▸ ho)
    exact hold.frame (congrFun hc c) (hq q c fun he => hat c (he ▸ hold.idx)).pc
  · exact hc ▸ h.one
  · intro q ho
    by_cases he : q = p
    · exact he ▸ hn
    · exact (h.rest q (hc ▸ ho)).frame (hq q 0 he)

theorem runs (hp : (s.cpus c).pos = .thread p) :
    (s.cpus c).proc = some p ∧ (s.cpus c).stack = some p ∧ Runs s c p := by
  simpa [CpuOk, hp] using h.cpu c

theorem alone (hp : (s.cpus c).proc = some p) (hd : d ≠ c) : (s.cpus d).proc ≠ some p :=
  fun hq => hd (h.one d c p hq hp)

theorem near (hidx : ∀ q, (s.cpus c).pos.idx = some q → q = p) (hcpu : ∀ d, d ≠ c → s'.cpus d = s.cpus d)
    (hq : ∀ q d, q ≠ p → Same s s' d q) (hl : ∀ d, d ≠ c → (s'.plock p = some d ↔ s.plock p = some d))
    (hat : ∀ d, d ≠ c → (s.cpus d).pos.idx = some p → CpuOk s' d ∧ (Holds s d p → Holds s' d p))
    (hok : CpuOk s' c) (hh : s'.plock p = some c → Holds s' c p)
    (hproc : ∀ q d, (s'.cpus c).proc = some q → d ≠ c → (s.cpus d).proc ≠ some q)
    (hrest : (∀ d, (s'.cpus d).proc ≠ some p) → Rests s' p) : Inv s' := by
  constructor
  · intro d
    by_cases hd : d = c
    · exact hd ▸ hok
    · by_cases hi : (s.cpus d).pos.idx = some p
      · exact (hat d hd hi).1
      · exact (h.cpu d).frame (hcpu d hd) fun q hi' => hq q d fun he => hi (he ▸ hi')
  · intro d q ho
    by_cases hd : d = c <;> by_cases he : q = p
    · subst hd he
      exact hh ho
    · subst hd
      exact absurd (hidx q (h.lock d q ((hq q d he).lock.1 ho)).idx) he
    · subst he
      have hold := h.lock d q ((hl d hd).1 ho)
      exact (hat d hd hold.idx).2 hold
    · exact (h.lock d q ((hq q d he).lock.1 ho)).frame (hcpu d hd) (hq q d he).pc
  · intro d e q hd he
    by_cases hdc : d = c <;> by_cases hec : e = c
    · rw [hdc, hec]
    · subst hdc
      exact absurd (hcpu e hec ▸ he) (hproc q e hd hec)
    · subst hec
      exact absurd (hcpu d hdc ▸ hd) (hproc q d he hdc)
    · exact h.one d e q (hcpu d hdc ▸ hd) (hcpu e hec ▸ he)
  · intro q ho
    by_cases he : q = p
    · exact he ▸ hrest (he ▸ ho)
    · refine (h.rest q fun d hd => ?_).frame (hq q 0 he)
      by_cases hdc : d = c
      · exact he (hidx q (hdc ▸ (h.cpu d).idx hd))
      · exact ho d (hcpu d hdc ▸ hd)

/-- The thread of `p`, run by `c`, may change its own process and take or release its lock. -/
theorem set_run (hp : (s.cpus c).pos = .thread p) (hc : s'.cpus = s.cpus)
    (hq : ∀ q d, q ≠ p → Same s s' d q)
    (hl : ∀ d, d ≠ c → (s'.plock p = some d ↔ s.plock p = some d)) (hn : Runs s' c p) : Inv s' := by
  obtain ⟨hproc, hstack, -⟩ := h.runs hp
  refine h.near (by simp [hp, At.idx]) (fun d _ => congrFun hc d) hq hl
    (fun d hd hi => ⟨?_, fun hold => ?_⟩) ?_ ?_ ?_ ?_
  · exact (h.cpu d).frame_lock (congrFun hc d) hi (h.alone hproc hd) (hl d hd).2
  · exact hold.frame_pos (congrFun hc d) fun ht => h.alone hproc hd (h.runs ht).1
  · simp only [CpuOk, hc, hp]
    exact ⟨hproc, hstack, hn⟩
  · simpa only [Holds, hc, hp, true_and] using hn.lock.1
  · intro q d hd
    rw [hc, hproc] at hd
    exact Option.some.inj hd ▸ h.alone hproc
  · exact fun ho => absurd hproc (hc ▸ ho c)

/-- A CPU that holds the lock of `p`, and is at it alone, may change it and move on with the
lock. -/
theorem set_held (hl : s.plock p = some c) (hex : ∀ d, d ≠ c → (s.cpus d).pos.idx ≠ some p)
    (hcpu : ∀ d, d ≠ c → s'.cpus d = s.cpus d) (hk : s'.plock = s.plock)
    (hq : ∀ q d, q ≠ p → Same s s' d q) (hok : CpuOk s' c) (hh : Holds s' c p)
    (hrest : (s'.cpus c).proc = some p ∨ Rests s' p) : Inv s' := by
  refine h.near (fun q hi => ?_) hcpu hq (fun d _ => by rw [hk])
    (fun d hd hi => absurd hi (hex d hd)) hok (fun _ => hh) (fun q d hcq hd hdq => ?_) fun ho =>
    hrest.resolve_left (ho c)
  · exact Option.some.inj (hi.symm.trans (h.lock c p hl).idx)
  · have he : q = p := Option.some.inj ((hok.idx hcq).symm.trans hh.idx)
    exact hex d hd (he ▸ (h.cpu d).idx hdq)

theorem set_sched {x : Cpu} {o : Option ℕ} (hc : (s.cpus c).proc = none) (hx : x.proc = none)
    (hs : ∀ q, (s.cpus c).pos.idx = some q → q = p) (hl : s.plock p = none ∨ s.plock p = some c)
    (ho : o = none ∨ o = some c) (hok : CpuOk ((s.setPlock p o).setCpu c x) c)
    (hh : o = some c → Holds ((s.setPlock p o).setCpu c x) c p) : Inv ((s.setPlock p o).setCpu c x) := by
  have hcpu : ∀ d, d ≠ c → ((s.setPlock p o).setCpu c x).cpus d = s.cpus d :=
    fun d hd => update_of_ne hd _ _
  have hlock : ∀ d q, d ≠ c ∨ q ≠ p → (((s.setPlock p o).setCpu c x).plock q = some d ↔
      s.plock q = some d) := by
    intro d q hd
    simp only [Sys.setCpu, setPlock_plock]
    grind
  refine h.near hs hcpu (fun q d hq => ⟨rfl, rfl, rfl, rfl, hlock d q (.inr hq)⟩)
    (fun d hd => hlock d p (.inl hd))
    (fun d hd _ => ⟨(h.cpu d).frame (hcpu d hd) fun q _ =>
      ⟨rfl, rfl, rfl, rfl, hlock d q (.inl hd)⟩, fun hold => ?_⟩) hok
    (fun ho => hh (by simpa [Sys.setCpu] using ho)) (by simp [hx]) fun hr => ?_
  · exact hold.frame (hcpu d hd) rfl
  · obtain ⟨h1, h2, h3, h4, h5, h6⟩ := h.rest p fun d hd => by
      by_cases he : d = c
      · simp [he, hc] at hd
      · exact hr d (by rwa [hcpu d he])
    exact ⟨h1, h2, h3, h4, h5, h6⟩

/-- A CPU that holds no lock of a process may move between positions without one. -/
theorem set_free {x : Cpu} (hb : (s.cpus c).pos.idx = none) (hx : x.pos.idx = none)
    (hp : x.proc = none) (ht : x.stack = none) : Inv (s.setCpu c x) := by
  have hcpu : ∀ d, d ≠ c → (s.setCpu c x).cpus d = s.cpus d := fun d hd => update_of_ne hd _ _
  have same : ∀ q d, Same s (s.setCpu c x) d q := fun _ _ => ⟨rfl, rfl, rfl, rfl, Iff.rfl⟩
  refine h.near (p := 0) (by simp [hb]) hcpu (fun q d _ => same q d) (fun _ _ => Iff.rfl)
    (fun d hd _ => ⟨(h.cpu d).frame (hcpu d hd) fun q _ => same q d,
      fun hold => hold.frame (hcpu d hd) rfl⟩) ?_
    (fun ho => ?_) (by simp [hp]) fun hr => (h.rest 0 fun d hd => ?_).frame (same 0 0)
  · simp only [CpuOk, setCpu_cpus, update_self]
    cases hx' : x.pos <;> simp_all [At.idx]
  · simp [(h.lock c 0 ho).idx] at hb
  · by_cases he : d = c
    · simp [he ▸ (h.cpu d).idx hd] at hb
    · exact hr d (by rwa [hcpu d he])

/-! ### The steps of a thread -/

/-- A change that `Inv` does not see, but for slots that keep their state and channel. -/
theorem set_slot {i : ℕ} {q : Slot} (hs : q.state = (s.slots i).state)
    (hc : q.chan = (s.slots i).chan) : Inv (s.setSlot i q) := by
  refine h.congr rfl rfl fun j d => ?_
  by_cases hj : j = i
  · subst hj
    exact ⟨by simpa using hs, by simpa using hc, rfl, rfl, Iff.rfl⟩
  · exact ⟨by simp [hj], by simp [hj], rfl, rfl, Iff.rfl⟩

theorem set_parent (i : ℕ) (o : Option ℕ) : Inv (s.setSlot i { s.slots i with parent := o }) :=
  h.set_slot rfl rfl

theorem goto_run {k : Pc} {x : Slot} {o : Option ℕ} (hp : (s.cpus c).pos = .thread p)
    (hsl : s'.slots = update s.slots p x) (hpl : s'.plock = update s.plock p o)
    (hpc : s'.pc = update s.pc p k) (hcx : s'.context = s.context) (hcpu : s'.cpus = s.cpus)
    (hl : ∀ d, d ≠ c → (o = some d ↔ s.plock p = some d)) (ho : o = some c ↔ k.own = true)
    (hn : k ≠ .off ∧ k ≠ .resumed .dead) (hx : x.state = k.state)
    (hch : ∀ ch lk r, k = .sched (.sleep ch lk r) → x.chan = ch) : Inv s' := by
  refine h.set_run hp hcpu (fun q d hq => ?_) (by simpa [hpl] using hl) ?_
  · constructor <;> simp [hsl, hpl, hpc, hcx, hq]
  · constructor <;> simp only [hsl, hpl, hpc, update_self]
    exacts [hn.1, hn.2, hx, ho, hch]

theorem running (hp : (s.cpus c).pos = .thread p) (ho : (s.pc p).own = false) :
    (s.slots p).state = .running :=
  (h.runs hp).2.2.state.trans (state_of_own ho)

/-- A thread that does not hold its own lock goes to another such position. -/
theorem goto {k : Pc} (hp : (s.cpus c).pos = .thread p) (ho : (s.pc p).own = false)
    (hk : k.own = false) (hn : k ≠ .off) : Inv (s.setPc p k) := by
  refine h.goto_run hp (update_eq_self ..).symm (update_eq_self ..).symm rfl rfl rfl
    (fun _ _ => Iff.rfl) ?_ ⟨hn, ?_⟩ ((h.running hp ho).trans (state_of_own hk).symm) ?_
  · exact (h.runs hp).2.2.lock.trans (by rw [ho, hk])
  · rintro rfl
    cases hk
  · rintro ch lk r rfl
    cases hk

/-- A thread that holds its own lock before and after a step may change its process. -/
theorem goto_own {k : Pc} {x : Slot} (hp : (s.cpus c).pos = .thread p) (ho : (s.pc p).own = true)
    (hk : k.own = true) (hn : k ≠ .resumed .dead) (hx : x.state = k.state)
    (hch : ∀ ch lk r, k = .sched (.sleep ch lk r) → x.chan = ch) : Inv ((s.setSlot p x).setPc p k) := by
  refine h.goto_run hp rfl (update_eq_self ..).symm rfl rfl rfl (fun _ _ => Iff.rfl) ?_ ⟨?_, hn⟩ hx hch
  · exact (h.runs hp).2.2.lock.trans (by rw [ho, hk])
  · rintro rfl
    cases hk

theorem goto_lock {k : Pc} (hp : (s.cpus c).pos = .thread p) (ho : (s.pc p).own = false)
    (hl : s.plock p = none) (hk : k.own = true) (hs : k.state = .running)
    (hn : k ≠ .resumed .dead) : Inv ((s.setPlock p (some c)).setPc p k) := by
  refine h.goto_run hp (update_eq_self ..).symm rfl rfl rfl rfl (fun d hd => by simp [hl, hd.symm])
    (by simp [hk]) ⟨?_, hn⟩ ((h.running hp ho).trans hs.symm) ?_
  · rintro rfl
    cases hk
  · rintro ch lk r rfl
    cases hs

theorem goto_unlock {k : Pc} {x : Slot} (hp : (s.cpus c).pos = .thread p) (ho : (s.pc p).own = true)
    (hx : x.state = .running) (hk : k.own = false) (hn : k ≠ .off) :
    Inv (((s.setSlot p x).setPlock p none).setPc p k) := by
  have hl : s.plock p = some c := (h.runs hp).2.2.lock.2 ho
  refine h.goto_run hp rfl rfl rfl rfl rfl (fun d hd => by simp [hl, hd.symm]) (by simp [hk])
    ⟨hn, ?_⟩ (hx.trans (state_of_own hk).symm) ?_
  · rintro rfl
    cases hk
  · rintro ch lk r rfl
    cases hk

theorem wake {q : Slot} (hl : s.plock p = none) (hs : (s.slots p).state = .sleeping)
    (hq : q.state = .runnable) : Inv (s.setSlot p q) := by
  have hr := h.idle_rests hl (by simp [hs])
  refine h.set_rest hl (by simp [hs]) rfl rfl (fun j d hj => ⟨by simp [hj], by simp [hj], rfl, rfl,
    Iff.rfl⟩) ?_
  obtain ⟨lk, r, hk⟩ := hr.sleeping hs
  exact ⟨hr.off, by simp [hq], by simp [hq], by simp [hq], fun _ => by simp [Sys.setSlot, hk],
    by simp [hq]⟩

theorem wakeupSlot (chan : Option Chan) (hl : s.plock p = none) : Inv (wakeupSlot s p chan) := by
  unfold Proc.wakeupSlot
  split
  · rename_i hs
    exact h.wake hl hs.1 rfl
  · exact h

theorem killSlot (hl : s.plock p = none) : Inv (s.setSlot p (killSlot (s.slots p))) := by
  by_cases hs : (s.slots p).state = .sleeping
  · exact h.wake hl hs (by simp [Proc.killSlot, hs])
  · exact h.set_slot (by simp [Proc.killSlot, hs]) rfl

theorem free (hl : s.plock p = none) (hs : (s.slots p).state ≠ .running) :
    Inv (s.setSlot p freeproc) := by
  refine h.set_rest hl hs rfl rfl (fun j d hj => ⟨by simp [hj], by simp [hj], rfl, rfl, Iff.rfl⟩) ?_
  exact ⟨(h.idle_rests hl hs).off, by simp [freeproc], by simp [freeproc], by simp [freeproc],
    by simp [freeproc],
    by simp [freeproc]⟩

theorem allocSlot (hl : s.plock p = none) (hs : (s.slots p).state = .unused) : Inv (allocSlot s p) := by
  refine h.set_rest hl (by simp [hs]) rfl rfl (fun j d hj => ?_) ?_
  · constructor <;> simp [Proc.allocSlot, Sys.setPc, Sys.setContext, Sys.setNextpid, Sys.setSlot, hj]
  · constructor <;> simp [Proc.allocSlot, Sys.setPc, Sys.setContext, Sys.setNextpid, Sys.setSlot]

theorem start {q : Slot} (hl : s.plock p = none) (hs : (s.slots p).state = .used)
    (hq : q.state = .runnable) : Inv (s.setSlot p q) := by
  have hr := h.idle_rests hl (by simp [hs])
  refine h.set_rest hl (by simp [hs]) rfl rfl (fun j d hj => ⟨by simp [hj], by simp [hj], rfl, rfl,
    Iff.rfl⟩) ?_
  exact ⟨hr.off, by simp [hq], by simp [hq], by simp [hq],
    fun _ => by simp [Sys.setSlot, hr.used hs], by simp [hq]⟩

end

/-! ### All steps -/

section Unseen

variable (h : Inv s) (lk p : ℕ) (r : ℤ)
include h

theorem acquire : Inv (s.acquire lk p) := h.congr rfl rfl fun _ _ => ⟨rfl, rfl, rfl, rfl, Iff.rfl⟩
theorem release : Inv (s.release lk p) := h.congr rfl rfl fun _ _ => ⟨rfl, rfl, rfl, rfl, Iff.rfl⟩
theorem setResult : Inv (s.setResult p r) := h.congr rfl rfl fun _ _ => ⟨rfl, rfl, rfl, rfl, Iff.rfl⟩
theorem setStatus : Inv (s.setStatus p r) := h.congr rfl rfl fun _ _ => ⟨rfl, rfl, rfl, rfl, Iff.rfl⟩
theorem setNextpid : Inv (s.setNextpid r) := h.congr rfl rfl fun _ _ => ⟨rfl, rfl, rfl, rfl, Iff.rfl⟩
theorem called : Inv (s.called p) := h.congr rfl rfl fun _ _ => ⟨rfl, rfl, rfl, rfl, Iff.rfl⟩

end Unseen

theorem call_step (h : Inv s) {x : Call} (hp : (s.cpus c).pos = .thread p) (hk : s.pc p = .user)
    (ht : Called s p x s') : Inv s' := by
  have ho : (s.pc p).own = false := by rw [hk]; rfl
  cases ht with
  | sleep _ => exact (h.called p).goto hp ho rfl (by simp)
  | setkilled _ => exact h.set_slot rfl rfl
  | acquire => exact h.acquire _ p
  | release => exact h.release _ p
  | _ => exact h.goto hp ho rfl (by simp)

theorem sched_step (h : Inv s) {k : Resume} (hp : (s.cpus c).pos = .thread p) (hk : s.pc p = .sched k) :
    Inv (((s.setContext p k).setPc p .off).setCpu c { s.cpus c with pos := .back p }) := by
  obtain ⟨hproc, hstack, hr⟩ := h.runs hp
  have hl : s.plock p = some c := hr.lock.2 (by rw [hk]; rfl)
  have hst : (s.slots p).state = k.state := by rw [hr.state, hk]; rfl
  have hrest : Rests (((s.setContext p k).setPc p .off).setCpu c { s.cpus c with pos := .back p })
      p := by
    constructor <;> simp only [Sys.setCpu, Sys.setPc, Sys.setContext, update_self, hst]
    · cases k <;> simp [Resume.state]
    · intro he
      cases k <;> simp only [Resume.state, reduceCtorEq] at he
      exact ⟨_, _, by rw [hr.chan _ _ _ hk]⟩
    · cases k <;> simp [Resume.state]
    · cases k <;> simp [Resume.state]
    · cases k <;> simp [Resume.state]
  refine h.set_held hl (fun d hd hi => ?_) (fun d hd => update_of_ne hd _ _) rfl (fun q d hq => ?_)
    ?_ ?_ (.inr hrest)
  · cases (h.cpu d).lock hi with
    | inl ho => exact hd (Option.some.inj (ho.symm.trans hl))
    | inr ho => exact h.alone hproc hd (h.runs ho.1).1
  · constructor <;> simp [Sys.setCpu, Sys.setPc, Sys.setContext, hq]
  · simp only [CpuOk, setCpu_cpus, update_self]
    exact ⟨hproc, hstack, hl, hrest⟩
  · simp [Holds]

/-- A thread keeps the invariant, if the child of a `fork` that is at its end is not runnable
yet. -/
theorem thread_step (h : Inv s) {a : Act} (hp : (s.cpus c).pos = .thread p)
    (hf : ∀ np, s.pc p = .fork3 np → (s.slots np).state = .used) (ht : Thread s c p a (s.pc p) s') :
    Inv s' := by
  have hr := (h.runs hp).2.2
  have hst := hr.state
  generalize hk : s.pc p = k at ht hst
  have own : ∀ b, k.own = b → (s.pc p).own = b := fun b hb => hk ▸ hb
  have same : s.setSlot p (s.slots p) = s := by simp [Sys.setSlot]
  cases ht with
  | user hc => exact h.call_step hp hk hc
  | yield1 hl => exact h.goto_lock hp (own _ rfl) hl rfl rfl (by simp)
  | yield2 => exact h.goto_own hp (own _ rfl) rfl (by simp) rfl (by simp)
  | testWait hl hkd => exact ((h.release WAIT p).setResult p _).goto hp (own _ rfl) rfl (by simp)
  | testKilled hl hkd hr => exact (h.setResult p _).goto hp (own _ rfl) rfl (by simp)
  | testNot | woken => exact (h.called p).goto hp (own _ rfl) rfl (by simp)
  | sleep1 hl => exact h.goto_lock hp (own _ rfl) hl rfl rfl (by simp)
  | @sleep2 chan lk r hl =>
      have h1 := (h.release lk p).goto_own (k := .sleep3 chan lk r)
        (x := s.slots p) hp (own _ rfl) rfl (by simp) hst (by simp)
      rwa [show (s.release lk p).setSlot p (s.slots p) =
        s.release lk p by simp [Sys.setSlot, Sys.release]] at h1
  | sleep3 => exact h.goto_own hp (own _ rfl) rfl (by simp) rfl (by simp)
  | @sleep4 lk r hl =>
      refine (h.acquire lk p).goto hp (own _ rfl) ?_ ?_ <;> split <;> simp [Pc.own]
  | sched hp' =>
      rw [hp] at hp'
      cases hp'
      exact h.sched_step hp hk
  | resumedYield => exact same ▸ h.goto_unlock hp (own _ rfl) hst rfl (by simp)
  | resumedFork => exact same ▸ h.goto_unlock hp (own _ rfl) hst rfl (by simp)
  | resumedSleep => exact h.goto_unlock hp (own _ rfl) hst rfl (by simp)
  | @wakeupNext chan i b hi hn hl =>
      refine (h.wakeupSlot chan hl).goto (c := c) ?_ ?_ rfl (by simp) <;> unfold Proc.wakeupSlot <;>
        split
      exacts [hp, hp, own _ rfl, own _ rfl]
  | @wakeupDone chan i b hi => cases b <;> exact h.goto hp (own _ rfl) rfl (by simp [afterWakeup])
  | killHit hi hl => exact ((h.killSlot hl).setResult p _).goto hp (own _ rfl) rfl (by simp)
  | forkFail hi hl hu =>
      exact (((h.free hl (by simp [hu])).setNextpid _).setResult p _).goto hp (own _ rfl) rfl (by simp)
  | @forkAlloc i hi hl hu =>
      have hip : p ≠ i := by
        rintro rfl
        rw [hst] at hu
        cases hu
      refine (h.allocSlot hl hu).goto hp ?_ rfl (by simp)
      rw [show (Proc.allocSlot s i).pc p = s.pc p from update_of_ne hip _ _]
      exact own _ rfl
  | fork2 hl => exact (h.set_parent _ _).goto hp (own _ rfl) rfl (by simp)
  | fork3 hl => exact ((h.start hl (hf _ hk) rfl).setResult p _).goto hp (own _ rfl) rfl (by simp)
  | exit1 hl => exact (h.acquire WAIT p).goto hp (own _ rfl) rfl (by simp)
  | reparentHit hi he => exact (h.set_parent _ _).goto hp (own _ rfl) rfl (by simp)
  | exit2 hl => exact h.goto_lock hp (own _ rfl) hl rfl rfl (by simp)
  | exit3 => exact h.goto_own hp (own _ rfl) rfl (by simp) rfl (by simp)
  | exit4 =>
      have h1 := (h.release WAIT p).goto_own (k := .sched .dead) (x := s.slots p) hp (own _ rfl) rfl
        (by simp) hst (by simp)
      rwa [show (s.release WAIT p).setSlot p (s.slots p) =
        s.release WAIT p by simp [Sys.setSlot, Sys.release]] at h1
  | wait1 hl => exact (h.acquire WAIT p).goto hp (own _ rfl) rfl (by simp)
  | waitFail hi he hl hz ha => exact ((h.release WAIT p).setResult p _).goto hp (own _ rfl) rfl (by simp)
  | waitFree hi he hl hz ha =>
      exact ((((h.free hl (by simp [hz])).setStatus p _).release WAIT p).setResult p _).goto hp
        (own _ rfl) rfl (by simp)
  | waitNone hi => exact ((h.release WAIT p).setResult p _).goto hp (own _ rfl) rfl (by simp)
  | testWakeKilled | killDone | forkNone => exact (h.setResult p _).goto hp (own _ rfl) rfl (by simp)
  | _ => exact h.goto hp (own _ rfl) rfl (by simp)

end Inv

/-! ### The children of `fork` -/

/-- The child of a thread in `fork`. -/
def Pc.child : Pc → Option ℕ
  | .fork2 np | .fork3 np => some np
  | _ => none

/-- Every child of a `fork` that has not ended is allocated, by that `fork` alone. -/
structure Forks (s : Sys) : Prop where
  used : ∀ p np, (s.pc p).child = some np → (s.slots np).state = .used
  one : ∀ p q np, (s.pc p).child = some np → (s.pc q).child = some np → p = q

namespace Forks

theorem keep (h : Forks s) (hs : ∀ np, (s.slots np).state = .used → (s'.slots np).state = .used)
    (hc : ∀ p np, (s'.pc p).child = some np → (s.pc p).child = some np) : Forks s' where
  used p np hp := hs np (h.used p np (hc p np hp))
  one p q np hp hq := h.one p q np (hc p np hp) (hc q np hq)

/-- A thread that is not in `fork` after a step, and was not there or leaves the other children as
they are. -/
theorem goto (h : Forks s) {k : Pc} (hk : k.child = none ∨ k.child = (s.pc p).child)
    (hpc : s'.pc = update s.pc p k)
    (hs : ∀ np, (s.slots np).state = .used → (s'.slots np).state = .used) : Forks s' := by
  refine h.keep hs fun q np hq => ?_
  rw [hpc] at hq
  grind

theorem start (h : Forks s) {np : ℕ} {k : Pc} (hp : (s.pc p).child = some np) (hk : k.child = none)
    (hpc : s'.pc = update s.pc p k) (hs : ∀ q, q ≠ np → s'.slots q = s.slots q) : Forks s' := by
  have hold : ∀ q m, (s'.pc q).child = some m → q ≠ p ∧ (s.pc q).child = some m := by
    rw [hpc]
    grind
  refine ⟨fun q m hq => ?_, fun q r m hq hr => h.one q r m (hold q m hq).2 (hold r m hr).2⟩
  rw [hs m fun he => (hold q m hq).1 (h.one q p np (he ▸ (hold q m hq).2) hp)]
  exact h.used q m (hold q m hq).2

theorem alloc (h : Forks s) {np : ℕ} (hu : (s.slots np).state = .unused) (hn : np ≠ p)
    (ho : s.pc np = .off) : Forks ((allocSlot s np).setPc p (.fork2 np)) := by
  have hpc : ∀ q, q ≠ p → ((allocSlot s np).setPc p (.fork2 np)).pc q = s.pc q := by
    intro q hq
    by_cases he : q = np
    · subst he
      simp [allocSlot, Sys.setPc, Sys.setContext, hq, ho]
    · simp [allocSlot, Sys.setPc, Sys.setContext, Sys.setNextpid, Sys.setSlot, hq, he]
  have hnew : (((allocSlot s np).setPc p (.fork2 np)).pc p).child = some np := by simp [Pc.child]
  have hno : ∀ q, (s.pc q).child ≠ some np := by
    intro q hq
    simp [h.used q np hq] at hu
  have hst : ∀ m, (((allocSlot s np).setPc p (.fork2 np)).slots m).state = if m = np then .used
      else (s.slots m).state := by
    intro m
    by_cases he : m = np <;> simp [allocSlot, Sys.setPc, Sys.setContext, Sys.setNextpid, he]
  have hused := h.used
  have hone := h.one
  constructor <;> grind

/-- A change of a slot that is not that of a child, or keeps its state. -/
theorem set_slot {i : ℕ} {x : Slot} (hx : (s.slots i).state = .used → x.state = .used) :
    ∀ np, (s.slots np).state = .used → ((s.setSlot i x).slots np).state = .used := by
  rw [setSlot_slots]
  grind

theorem wakeupSlot_used (i : ℕ) (chan : Option Chan) :
    ∀ np, (s.slots np).state = .used → ((wakeupSlot s i chan).slots np).state = .used := by
  unfold wakeupSlot
  split
  · rename_i hs
    exact set_slot (by simp [hs.1])
  · exact fun np hn => hn

end Forks

end Xv6Cow.Proc

import Xv6Cow.Intr.Model

/-! # Interrupts below `syscall()`

`usertrap` says that it enables interrupts before it calls `syscall()`, but it calls `intr_off()`.
So they are off below `syscall()` also while the thread holds no lock: `push_off` remembers that in
`intena`, `sched` carries `intena` over to the CPU on which the thread goes on, and no interrupt
comes after which `kerneltrap` could put another bit back. -/

namespace Xv6Cow.Intr

open Runs
open Function (update update_self update_of_ne update_eq_self update_apply)

variable {b k : Bool} {s s' : State} {c p : ℕ} {C C' : Cpu} {T : Thread} {a : Act} {ls : List Act}

/-! ### The steps -/

/-- The CPU on which a step calls `push_off`, with `true`, or `pop_off`. -/
def Act.call : Act → Option (ℕ × Bool)
  | .op c .pushOff | .acquire c _ => some (c, true)
  | .op c .popOff | .release c => some (c, false)
  | _ => none

/-- The steps of the kernel.  `enter` is a thread that goes on in another part of the kernel or in
user space. -/
inductive Stepped (s : State) : Act → State → Prop
  | op {c : ℕ} {o : Op} {s' : State} (hin : s.inKernel c = true) (h : op s c o = some s') :
    Stepped s (.op c o) s'
  | interrupt {c p : ℕ} (hl : (s.cpus c).loc = .thread p) (hsie : (s.cpus c).sie = true)
      (hh : (s.threads p).handler = none) : Stepped s (.interrupt c)
        ((s.setCpu c { s.cpus c with sie := false }).setThread p
          { s.threads p with handler := some true })
  | interruptIdle {c : ℕ} (hl : (s.cpus c).loc = .scan) :
      Stepped s (.interrupt c) (s.setCpu c { s.cpus c with sie := false, loc := .intr })
  | iret {c p : ℕ} {v : Bool} (hl : (s.cpus c).loc = .thread p) (hh : (s.threads p).handler = some v) :
      Stepped s (.iret c) ((s.setCpu c { s.cpus c with sie := v }).setThread p
        { s.threads p with handler := none })
  | iretIdle {c : ℕ} : Stepped s (.iret c) (s.setCpu c { s.cpus c with sie := true, loc := .scan })
  | enter {a : Act} {c p : ℕ} {b : Bool} {m : Mode} (ha : a.call = none) (hl : (s.cpus c).loc =
      .thread p) (hb : balanced s a = true → b = true → (s.cpus c).noff = 0)
      (hh : (s.threads p).handler = none)
      (hm : balanced s a = true → m = .syscall → (s.cpus c).noff = 0 ∧ b = false) :
      Stepped s a ((s.setCpu c { s.cpus c with sie := b }).setThread p { s.threads p with mode := m })
  | sched {c p : ℕ} {st : PState} (hl : (s.cpus c).loc = .thread p) (h1 : (s.cpus c).noff = 1)
      (hst : st ≠ .unused) (hsie : (s.cpus c).sie = false) : Stepped s (.sched c st)
        ((s.setCpu c { s.cpus c with loc := .got p true }).setThread p
          { s.threads p with state := st, saved := some (s.cpus c).intena })
  | intrOn {c : ℕ} (hl : (s.cpus c).loc = .scan) :
    Stepped s (.intrOn c) (s.setCpu c { s.cpus c with sie := true })
  | acquire {c p : ℕ} (hl : (s.cpus c).loc = .scan) : Stepped s (.acquire c p)
      ((s.setCpu c { (s.cpus c).pushOff with loc := .got p false }).setLock (.proc p) (some c))
  | swtch {c p : ℕ} (hl : (s.cpus c).loc = .got p false) (hst : (s.threads p).state = .runnable) :
      Stepped s (.swtch c) ((s.setCpu c { s.cpus c with
          loc := .thread p, intena := (s.threads p).saved.getD (s.cpus c).intena }).setThread p
        { s.threads p with state := .running })
  | release {c p : ℕ} {ran : Bool} {C : Cpu} (hl : (s.cpus c).loc = .got p ran)
      (h : (s.cpus c).popOff = some C) :
      Stepped s (.release c) ((s.setCpu c { C with loc := .scan }).setLock (.proc p) none)
  | fork {p : ℕ} (hst : (s.threads p).state = .unused) :
    Stepped s (.fork p) (s.setThread p { state := .runnable })
  | wakeup {p : ℕ} (hst : (s.threads p).state = .sleeping) :
      Stepped s (.wakeup p) (s.setThread p { s.threads p with state := .runnable })
  | wait {p : ℕ} (hst : (s.threads p).state = .zombie) : Stepped s (.wait p) (s.setThread p {})

/-- A step that only the code of a thread can take. -/
theorem of_thread {l : At} {P : ℕ → Prop} [DecidablePred P] {f : ℕ → State}
    (h : (match l with | .thread p => if P p then some (f p) else none | _ => none) = some s') :
    ∃ p, l = .thread p ∧ P p ∧ f p = s' := by
  cases l with
  | thread p => exact ⟨p, rfl, by simpa using h⟩
  | _ => cases h

theorem step_cases (hs : step s a = some s') : Stepped s a s' := by
  cases a with
  | op c o =>
      simp only [step, Option.ite_none_right_eq_some] at hs
      exact .op hs.1 hs.2
  | interrupt c =>
      simp only [step] at hs
      split at hs
      · split_ifs at hs with hc
        cases hs
        exact .interrupt ‹_› hc.1 hc.2.2
      · split_ifs at hs
        cases hs
        exact .interruptIdle ‹_›
      · cases hs
  | iret c =>
      simp only [step] at hs
      split at hs
      · split at hs
        · cases hs
          exact .iret ‹_› ‹_›
        · cases hs
      · cases hs
        exact .iretIdle
      · cases hs
  | trap c =>
      obtain ⟨p, hl, hc, rfl⟩ := of_thread hs
      exact .enter rfl hl (by simp) hc.2 (by simp)
  | syscall c =>
      obtain ⟨p, hl, hc, rfl⟩ := of_thread hs
      exact .enter rfl hl (by simp) hc.2 (by simp [balanced])
  | sysret c =>
      obtain ⟨p, hl, hc, rfl⟩ := of_thread hs
      have : Stepped s (.sysret c) _ :=
        .enter (b := (s.cpus c).sie)
          (m := .usertrap) rfl hl (fun h _ => by simpa [balanced] using h) hc.2 (by simp)
      rwa [State.setCpu, update_eq_self] at this
  | userret c =>
      obtain ⟨p, hl, hc, rfl⟩ := of_thread hs
      exact .enter rfl hl (fun h _ => by simpa [balanced] using h) hc.2 (by simp)
  | sched c st =>
      obtain ⟨p, hl, hc, rfl⟩ := of_thread hs
      exact .sched hl hc.2.2.1 hc.2.2.2.2.1 hc.2.2.2.2.2
  | swtch c =>
      simp only [step] at hs
      split at hs
      · split_ifs at hs with hst
        cases hs
        exact .swtch ‹_› hst
      · cases hs
  | release c =>
      simp only [step] at hs
      split at hs
      · simp only [Option.ite_none_right_eq_some, Option.map_eq_some_iff] at hs
        obtain ⟨-, C, hC, rfl⟩ := hs
        exact .release ‹_› hC
      · cases hs
  | intrOn _ | acquire _ _ | fork _ | wakeup _ | wait _ =>
      simp only [step, Option.ite_none_right_eq_some, Option.some.injEq] at hs
      obtain ⟨hc, rfl⟩ := hs
      constructor
      first | exact hc | exact hc.1

/-! ### `push_off` and `pop_off` -/

/-- Interrupts are off while `noff` is not 0 and, in code that is quiet, always: then `intena`
remembers that. -/
structure Cpu.Keeps (C : Cpu) (quiet : Bool) : Prop where
  off : 0 < C.noff → C.sie = false
  now : quiet = true → C.sie = false
  later : quiet = true → 0 < C.noff → C.intena = false

theorem Cpu.Keeps.pushOff (h : C.Keeps k) : C.pushOff.Keeps k := by
  refine ⟨fun _ => rfl, fun _ => rfl, fun hk _ => ?_⟩
  unfold Cpu.pushOff
  dsimp only
  split_ifs with h0
  · exact h.now hk
  · exact h.later hk (Nat.pos_of_ne_zero h0)

theorem popOff_some (h : C.popOff = some C') : C.sie = false ∧ 1 ≤ C.noff ∧
    C' = { C with noff := C.noff - 1, sie := if C.noff - 1 = 0 ∧ C.intena then true else C.sie } := by
  unfold Cpu.popOff at h
  by_cases hbad : C.sie = true ∨ C.noff < 1
  · rw [if_pos hbad] at h
    exact absurd h (by simp)
  · rw [if_neg hbad] at h
    rw [not_or, Bool.not_eq_true, Nat.not_lt] at hbad
    exact ⟨hbad.1, hbad.2, (Option.some.inj h).symm⟩

theorem Cpu.Keeps.popOff (h : C.Keeps k) (hp : C.popOff = some C') : C'.Keeps k := by
  obtain ⟨hsie, hpos, rfl⟩ := popOff_some hp
  refine ⟨fun h1 => ?_, fun hk => ?_, fun hk _ => h.later hk hpos⟩
  · dsimp only at h1 ⊢
    rw [if_neg (fun h0 => absurd h0.1 (Nat.pos_iff_ne_zero.mp h1)), hsie]
  · simp [h.later hk hpos, hsie]

theorem popOff_loc (h : C.popOff = some C') : C'.loc = C.loc := by
  obtain ⟨-, -, rfl⟩ := popOff_some h
  rfl

/-! ### The invariant -/

/-- The thread runs with interrupts off even without a lock: in `kerneltrap`, or below
`syscall()`. -/
def Thread.quiet (T : Thread) : Bool := T.handler.isSome || T.mode = .syscall

/-- What holds of a CPU. -/
def CpuOk (threads : ℕ → Thread) (C : Cpu) : Prop :=
  match C.loc with
  | .scan => C.noff = 0
  | .got _ _ => C.noff = 1 ∧ C.sie = false
  | .intr => C.Keeps true
  | .thread p => C.Keeps (threads p).quiet ∧ (threads p).state = .running

/-- What holds of a thread: `sched` has kept the bit of one that does not run, and no interrupt
comes below `syscall()`. -/
structure Thread.Ok (T : Thread) : Prop where
  parked : T.state ≠ .running → T.quiet = true → T.saved = some false
  below : T.mode = .syscall → T.handler = none

structure Inv (s : State) : Prop where
  cpu : ∀ c, CpuOk s.threads (s.cpus c)
  thread : ∀ p, (s.threads p).Ok
  one : ∀ c c' p, (s.cpus c).loc = .thread p → (s.cpus c').loc = .thread p → c = c'

section
variable (h : CpuOk s.threads C)
include h

theorem CpuOk.of_scan (hl : C.loc = .scan) : C.noff = 0 := by
  rwa [CpuOk, hl] at h

theorem CpuOk.of_got {ran : Bool} (hl : C.loc = .got p ran) : C.noff = 1 ∧ C.sie = false := by
  rwa [CpuOk, hl] at h

theorem CpuOk.of_thread (hl : C.loc = .thread p) : C.Keeps (s.threads p).quiet ∧
    (s.threads p).state = .running := by
  rwa [CpuOk, hl] at h

theorem CpuOk.setThread (hp : C.loc ≠ .thread p) : CpuOk (s.setThread p T).threads C := by
  unfold CpuOk at h ⊢
  cases hl : C.loc with
  | thread q =>
      have hqp : q ≠ p := fun he => hp (by rw [hl, he])
      simp only [hl, State.setThread, update_of_ne hqp] at h ⊢
      exact h
  | scan => simpa only [hl] using h
  | got q ran => simpa only [hl] using h
  | intr => simpa only [hl] using h

end

theorem Inv.setCpu (h : Inv s) (hC : CpuOk s.threads C)
    (hloc : ∀ p, C.loc = .thread p → (s.cpus c).loc = .thread p) : Inv (s.setCpu c C) := by
  have hloc' : ∀ d p, ((s.setCpu c C).cpus d).loc = .thread p → (s.cpus d).loc = .thread p :=
      fun d p hd => by
    unfold State.setCpu at hd
    dsimp only at hd
    rcases eq_or_ne d c with rfl | hne
    · rw [update_self] at hd
      exact hloc p hd
    · rwa [update_of_ne hne] at hd
  refine ⟨fun d => ?_, h.thread, fun d d' p hd hd' => h.one d d' p (hloc' d p hd) (hloc' d' p hd')⟩
  unfold State.setCpu
  dsimp only
  rcases eq_or_ne d c with rfl | hne
  · rw [update_self]
    exact hC
  · rw [update_of_ne hne]
    exact h.cpu d

/-- A step of CPU `c` and of the thread of a process that no other CPU runs. -/
theorem Inv.setBoth (h : Inv s) (hother : ∀ d, d ≠ c → (s.cpus d).loc ≠ .thread p)
    (hC : CpuOk (s.setThread p T).threads C)
    (hloc : ∀ q, C.loc = .thread q → q = p ∨ (s.cpus c).loc = .thread q) (hT : T.Ok) :
    Inv ((s.setCpu c C).setThread p T) := by
  have hcpu : ∀ d, ((s.setCpu c C).setThread p T).cpus d = if d = c then C else s.cpus d := fun d =>
    update_apply _ _ _ _
  have hone : ∀ d q, d ≠ c → (s.cpus d).loc = .thread q → C.loc ≠ .thread q := fun d q hd hdq hCq => by
    cases hloc q hCq with
    | inl hqp => exact hother d hd (hqp ▸ hdq)
    | inr hcq => exact hd (h.one d c q hdq hcq)
  refine ⟨fun d => ?_, fun q => ?_, fun d d' q hd hd' => ?_⟩
  · rw [hcpu]
    split_ifs with hdc
    · exact hC
    · exact (h.cpu d).setThread (hother d hdc)
  · change (update s.threads p T q).Ok
    rcases eq_or_ne q p with rfl | hne
    · rwa [update_self]
    · rw [update_of_ne hne]
      exact h.thread q
  · rw [hcpu] at hd hd'
    split_ifs at hd hd' with h1 h2 h2
    · rw [h1, h2]
    · exact absurd hd (hone d' q h2 hd')
    · exact absurd hd' (hone d q h1 hd)
    · exact h.one d d' q hd hd'

theorem cpuOk_thread (hl : C.loc = .thread p) (hk : C.Keeps T.quiet) (ht : T.state = .running) :
    CpuOk (s.setThread p T).threads C := by
  rw [CpuOk, hl]
  simp only [State.setThread, update_self]
  exact ⟨hk, ht⟩

theorem Inv.stepThread (h : Inv s) (hl : (s.cpus c).loc = .thread p) (hC : C.loc = .thread p)
    (hk : C.Keeps T.quiet) (ht : T.state = .running)
    (hback : T.mode = .syscall → T.handler = none) : Inv ((s.setCpu c C).setThread p T) :=
  h.setBoth (fun d hd he => hd (h.one d c p he hl)) (cpuOk_thread hC hk ht)
    (fun q hq => Or.inl (by rw [hC] at hq; exact (At.thread.inj hq).symm))
    ⟨fun hne => absurd ht hne, hback⟩

theorem Inv.stepParked (h : Inv s) (hidle : (s.threads p).state ≠ .running) (hT : T.Ok) :
    Inv (s.setThread p T) := by
  have hother : ∀ d, (s.cpus d).loc ≠ .thread p := fun d he => hidle ((h.cpu d).of_thread he).2
  have := h.setBoth (c := 0) (C := s.cpus 0) (fun d _ => hother d) ((h.cpu 0).setThread (hother 0))
    (fun q hq => Or.inr hq) hT
  rwa [State.setCpu, update_eq_self] at this

/-! ### Steps and runs -/

theorem Inv.setLock {l : Lock} {x : Option ℕ} (h : Inv s) : Inv (s.setLock l x) :=
  ⟨h.cpu, h.thread, h.one⟩

theorem Inv.op {o : Op} (h : Inv s) (hin : s.inKernel c = true) (hs : op s c o = some s') : Inv s' := by
  have hkeep : ∀ C', C'.loc = (s.cpus c).loc → (∀ k, (s.cpus c).Keeps k → C'.Keeps k) →
      Inv (s.setCpu c C') := by
    intro C' hl hk
    refine h.setCpu ?_ (fun p hp => by rw [← hl]; exact hp)
    have hc := h.cpu c
    unfold State.inKernel at hin
    unfold CpuOk at hc ⊢
    rw [hl]
    cases hloc : (s.cpus c).loc with
    | thread p =>
        simp only [hloc] at hc
        exact ⟨hk _ hc.1, hc.2⟩
    | intr =>
        simp only [hloc] at hc
        exact hk _ hc
    | scan => simp [hloc] at hin
    | got p ran => simp [hloc] at hin
  cases o with
  | pushOff =>
      cases hs
      exact hkeep _ rfl (fun k hk => hk.pushOff)
  | swap l | clear l =>
      all_goals
        simp only [Intr.op] at hs
        split_ifs at hs
        cases hs
        exact h.setLock
  | popOff =>
      simp only [Intr.op, Option.map_eq_some_iff] at hs
      obtain ⟨C', hC', rfl⟩ := hs
      exact hkeep C' (popOff_loc hC') (fun k hk => hk.popOff hC')

section
variable (h : Inv s) (hl : (s.cpus c).loc = .thread p)
include h hl

theorem Inv.interrupt (hsie : (s.cpus c).sie = true) :
    Inv ((s.setCpu c { s.cpus c with sie := false }).setThread p
      { s.threads p with handler := some true }) := by
  obtain ⟨hk, hrun⟩ := (h.cpu c).of_thread hl
  refine h.stepThread hl hl ⟨fun _ => rfl, fun _ => rfl, fun _ hpos => ?_⟩ hrun (fun hm => ?_)
  · simp [hk.off hpos] at hsie
  · -- below `syscall()` interrupts are off, so none comes
    have := hk.now (by rw [Thread.quiet, show (s.threads p).mode = .syscall from hm]; simp)
    simp [this] at hsie

theorem Inv.iret {v : Bool} (h0 : (s.cpus c).noff = 0) (hh : (s.threads p).handler = some v) :
    Inv ((s.setCpu c { s.cpus c with sie := v }).setThread p { s.threads p with handler := none }) := by
  obtain ⟨-, hrun⟩ := (h.cpu c).of_thread hl
  have hloud : ({ s.threads p with handler := none } : Thread).quiet = false := by
    have hm : (s.threads p).mode ≠ .syscall := fun hm => by simp [(h.thread p).below hm] at hh
    simp [Thread.quiet, hm]
  refine h.stepThread hl hl ⟨fun hpos => absurd h0 (Nat.pos_iff_ne_zero.mp hpos), fun hk => ?_,
    fun hk => ?_⟩ hrun (fun _ => rfl)
  · simp [hloud] at hk
  · simp [hloud] at hk

/-- A thread goes on in another part of the kernel, with a new enable bit. -/
theorem Inv.enter {m : Mode} (hb : b = true → (s.cpus c).noff = 0)
    (hh : (s.threads p).handler = none) (hm : m = .syscall → (s.cpus c).noff = 0 ∧ b = false) :
    Inv ((s.setCpu c { s.cpus c with sie := b }).setThread p { s.threads p with mode := m }) := by
  obtain ⟨-, hrun⟩ := (h.cpu c).of_thread hl
  have hquiet : ({ s.threads p with mode := m } : Thread).quiet = true → m = .syscall := by
    simp [Thread.quiet, hh]
  refine h.stepThread hl hl ⟨fun hpos => ?_, fun hk => (hm (hquiet hk)).2, fun hk hpos => ?_⟩ hrun
    (fun _ => hh)
  · exact Bool.eq_false_iff.mpr fun he => absurd (hb he) (Nat.pos_iff_ne_zero.mp hpos)
  · exact absurd (hm (hquiet hk)).1 (Nat.pos_iff_ne_zero.mp hpos)

theorem Inv.sched {st : PState} (h1 : (s.cpus c).noff = 1) (hsie : (s.cpus c).sie = false) :
    Inv ((s.setCpu c { s.cpus c with loc := .got p true }).setThread p
      { s.threads p with state := st, saved := some (s.cpus c).intena }) := by
  obtain ⟨hk, -⟩ := (h.cpu c).of_thread hl
  refine h.setBoth (fun d hd he => hd (h.one d c p he hl)) ⟨h1, hsie⟩
    (fun q hq => absurd hq (by simp)) ⟨fun _ hq => ?_, (h.thread p).below⟩
  exact congrArg some (hk.later hq (by omega))

end

theorem Inv.swtch (h : Inv s) (hl : (s.cpus c).loc = .got p false)
    (hst : (s.threads p).state = .runnable) :
    Inv ((s.setCpu c { s.cpus c with
        loc := .thread p, intena := (s.threads p).saved.getD (s.cpus c).intena }).setThread p
      { s.threads p with state := .running }) := by
  obtain ⟨h1, hsie⟩ := (h.cpu c).of_got hl
  have hidle : (s.threads p).state ≠ .running := by rw [hst]; decide
  have hk : ({ s.cpus c with
      loc := .thread p, intena := (s.threads p).saved.getD (s.cpus c).intena } : Cpu).Keeps
        ({ s.threads p with state := .running } : Thread).quiet := by
    refine ⟨fun _ => hsie, fun _ => hsie, fun hq _ => ?_⟩
    rw [(h.thread p).parked hidle hq]
    rfl
  exact h.setBoth (fun d _ he => hidle ((h.cpu d).of_thread he).2) (cpuOk_thread rfl hk rfl)
    (fun q hq => Or.inl (At.thread.inj hq).symm) ⟨fun hne => absurd rfl hne, (h.thread p).below⟩

theorem Thread.ok_fresh {st : PState} : ({ state := st } : Thread).Ok :=
  ⟨fun _ hq => by simp [Thread.quiet] at hq, fun _ => rfl⟩

/-- **Every step of balanced code keeps the invariant.** -/
theorem Inv.step (h : Inv s) (hb : balanced s a = true) (hs : step s a = some s') : Inv s' := by
  cases step_cases hs with
  | op hin ho => exact h.op hin ho
  | interrupt hl hsie _ => exact h.interrupt hl hsie
  | @interruptIdle c hl =>
      refine h.setCpu ⟨fun _ => rfl, fun _ => rfl, fun _ hpos => ?_⟩ (fun p hp => absurd hp (by simp))
      exact absurd ((h.cpu c).of_scan hl) (Nat.pos_iff_ne_zero.mp hpos)
  | iret hl hh => exact h.iret hl (by simpa [balanced] using hb) hh
  | @iretIdle c =>
      have h0 : (s.cpus c).noff = 0 := by simpa [balanced] using hb
      exact h.setCpu h0 (fun p hp => absurd hp (by simp))
  | enter _ hl hon hh hm => exact h.enter hl (hon hb) hh (hm hb)
  | sched hl h1 _ hsie => exact h.sched hl h1 hsie
  | @intrOn c hl =>
      refine h.setCpu ?_ (fun p hp => hp)
      rw [CpuOk]
      simp only [hl]
      exact (h.cpu c).of_scan hl
  | @acquire c p hl =>
      have hok : CpuOk s.threads { (s.cpus c).pushOff with loc := .got p false } :=
        ⟨by simp only [Cpu.pushOff, (h.cpu c).of_scan hl], rfl⟩
      exact (h.setCpu hok (fun p hp => absurd hp (by simp))).setLock
  | swtch hl hst => exact h.swtch hl hst
  | @release c p _ C hl hC =>
      obtain ⟨h1, -⟩ := (h.cpu c).of_got hl
      obtain ⟨-, -, rfl⟩ := popOff_some hC
      refine (h.setCpu ?_ (fun p hp => absurd hp (by simp))).setLock
      change (s.cpus c).noff - 1 = 0
      omega
  | fork hst | wait hst => all_goals exact h.stepParked (by rw [hst]; decide) Thread.ok_fresh
  | @wakeup p hst =>
      have hidle : (s.threads p).state ≠ .running := by rw [hst]; decide
      exact h.stepParked hidle ⟨fun _ => (h.thread p).parked hidle, (h.thread p).below⟩

theorem init_inv : Inv init := by
  refine ⟨fun _ => rfl, fun p => ?_, fun c c' p hc => absurd hc (by simp [init])⟩
  unfold init
  dsimp only
  split_ifs <;> exact Thread.ok_fresh

theorem inv_of_balanced (hb : along step balanced init ls = true)
    (hrun : exec step init ls = some s) : Inv s :=
  exec_along (fun _ _ _ hI => hI.step) init_inv hb hrun

/-! ### Below `syscall()` -/

/-- **Interrupts are never enabled below `syscall()`**, in any run of balanced code, with a lock or
without. -/
theorem syscall_never_interruptible (hb : along step balanced init ls = true)
    (hrun : exec step init ls = some s) : ∀ c p, Below s c p → (s.cpus c).sie = false := by
  intro c p h
  refine (((inv_of_balanced hb hrun).cpu c).of_thread h.loc).1.now ?_
  simp [Thread.quiet, h.mode]

/-- The first process comes to user space and makes a system call. -/
def firstCall : List Act :=
  [.intrOn 0, .acquire 0 0, .swtch 0, .op 0 (.clear (.proc 0)), .op 0 .popOff, .userret 0, .trap 0,
    .syscall 0]

/-- It gives up the CPU in the call, and goes on on CPU 1. -/
def movedCall : List Act :=
  firstCall ++ [.op 0 .pushOff, .op 0 (.swap (.proc 0)), .sched 0 .runnable, .release 0, .intrOn 1,
    .acquire 1 0, .swtch 1, .op 1 (.clear (.proc 0)), .op 1 .popOff]

theorem syscall_never_interruptible_moved : ∃ s, exec step init movedCall = some s ∧ Below s 1 0 ∧
    (s.cpus 1).noff = 0 ∧ (s.cpus 1).sie = false := by
  have hrun := exec_after step init movedCall (by decide)
  have hbelow : Below (after step init movedCall) 1 0 := ⟨by decide, by decide, by decide⟩
  exact ⟨_, hrun, hbelow, by decide, syscall_never_interruptible (by decide) hrun 1 0 hbelow⟩

/-- The first instruction of the first system call runs with interrupts off and no lock. -/
theorem syscall_uninterruptible : ∃ s, exec step init firstCall = some s ∧ Below s 0 0 ∧
    (s.cpus 0).noff = 0 ∧ (s.cpus 0).sie = false := by
  have hrun := exec_after step init firstCall (by decide)
  exact ⟨_, hrun, ⟨by decide, by decide, by decide⟩, by decide, by decide⟩

end Xv6Cow.Intr

import Xv6Cow.Proc.Model

/-! # What a step can do

Every branch of `thread` and `step` as one case: what holds before it, and the state after it.  The
invariants are proved over these cases. -/

namespace Xv6Cow.Proc

open Function (update)

/-! ### The fields of an updated state -/

section Fields

variable (s : Sys) (p : ℕ)

@[simp] theorem setSlot_slots (i : ℕ) (q : Slot) : (s.setSlot i q).slots = update s.slots i q := rfl
@[simp] theorem setPc_pc (k : Pc) : (s.setPc p k).pc = update s.pc p k := rfl
@[simp] theorem setPlock_plock (o : Option ℕ) : (s.setPlock p o).plock = update s.plock p o := rfl
@[simp] theorem setContext_context (k : Resume) : (s.setContext p k).context =
    update s.context p k := rfl
@[simp] theorem setCpu_cpus (c : ℕ) (x : Cpu) : (s.setCpu c x).cpus = update s.cpus c x := rfl
@[simp] theorem acquire_locks (lk : ℕ) : (s.acquire lk p).locks = update s.locks lk (some p) := rfl
@[simp] theorem release_locks (lk : ℕ) : (s.release lk p).locks = update s.locks lk none := rfl
@[simp] theorem called_sleeps : (s.called p).sleeps = update s.sleeps p (s.sleeps p + 1) := rfl
@[simp] theorem setResult_result (r : ℤ) : (s.setResult p r).result = update s.result p r := rfl
@[simp] theorem setStatus_status (r : ℤ) : (s.setStatus p r).status = update s.status p r := rfl

end Fields

/-! ### Threads -/

/-- The calls that other kernel code makes, and what they leave. -/
inductive Called (s : Sys) (p : ℕ) : Call → Sys → Prop
  | yield : Called s p .yield (s.setPc p .yield1)
  | sleep {n lk : ℕ} (hw : lk ≠ WAIT) :
      Called s p (.sleep n lk) ((s.called p).setPc p (.sleep1 (some (.other n)) lk .user))
  | testSleep {n lk : ℕ} (hw : lk ≠ WAIT) :
      Called s p (.testSleep n lk) (s.setPc p (.test (some (.other n)) lk .tested))
  | testWakeSleep {w n lk : ℕ} (hw : lk ≠ WAIT) :
      Called s p (.testWakeSleep w n lk) (s.setPc p (.testWake w (some (.other n)) lk))
  | wakeup {n : ℕ} : Called s p (.wakeup n) (s.setPc p (.wakeup (some (.other n)) 0 .user))
  | kill {pid : ℤ} : Called s p (.kill pid) (s.setPc p (.kill pid 0))
  | setkilled (hl : s.plock p = none) :
    Called s p .setkilled (s.setSlot p { s.slots p with killed := true })
  | fork : Called s p .fork (s.setPc p (.fork1 0))
  | exit {st : ℤ} (hp : p ≠ s.initproc) : Called s p (.exit st) (s.setPc p (.exit1 st))
  | wait : Called s p .wait (s.setPc p .wait1)
  | acquire {lk : ℕ} (hw : lk ≠ WAIT) (hl : s.locks lk = none) :
    Called s p (.acquire lk) (s.acquire lk p)
  | release {lk : ℕ} (hw : lk ≠ WAIT) (hl : s.locks lk = some p) :
    Called s p (.release lk) (s.release lk p)

theorem call_cases {s s' : Sys} {p : ℕ} {x : Call} (h : call s p x = some s') : Called s p x s' := by
  cases x <;> simp only [call, Option.ite_none_right_eq_some, Option.ite_none_left_eq_some,
    Option.some.injEq, reduceCtorEq] at h
  case yield => exact h ▸ .yield
  case sleep => exact h.2 ▸ .sleep h.1
  case testSleep => exact h.2 ▸ .testSleep h.1
  case testWakeSleep => exact h.2 ▸ .testWakeSleep h.1
  case wakeup => exact h ▸ .wakeup
  case kill => exact h ▸ .kill
  case setkilled => exact h.2 ▸ .setkilled h.1
  case fork => exact h ▸ .fork
  case exit => exact h.2 ▸ .exit h.1
  case wait => exact h ▸ .wait
  case acquire => exact h.2 ▸ .acquire h.1.1 h.1.2
  case release => exact h.2 ▸ .release h.1.1 h.1.2

/-- The steps of the thread of process `p` on CPU `c`, by where it is. -/
inductive Thread (s : Sys) (c p : ℕ) (a : Act) : Pc → Sys → Prop
  | user {s' : Sys} (h : Called s p a.call s') : Thread s c p a .user s'
  | yield1 (hl : s.plock p = none) : Thread s c p a .yield1 ((s.setPlock p (some c)).setPc p .yield2)
  | yield2 : Thread s c p a .yield2 ((s.setSlot p { s.slots p with state := .runnable }).setPc p
    (.sched .yield))
  | testWait {chan : Option Chan} {lk : ℕ} (hl : s.plock p = none) (hk : (s.slots p).killed =
      true) : Thread s c p a (.test chan lk .wait) (waitReturn s p (-1))
  | testKilled {chan : Option Chan} {lk : ℕ} {r : Ret} (hl : s.plock p = none)
      (hk : (s.slots p).killed = true) (hr : r ≠ .wait) :
      Thread s c p a (.test chan lk r) ((s.setResult p (-1)).setPc p .user)
  | testNot {chan : Option Chan} {lk : ℕ} {r : Ret} (hl : s.plock p = none)
      (hk : (s.slots p).killed = false) :
      Thread s c p a (.test chan lk r) ((s.called p).setPc p (.sleep1 chan lk r))
  | testWakeKilled {w : ℕ} {chan : Option Chan} {lk : ℕ} (hl : s.plock p = none)
      (hk : (s.slots p).killed = true) :
      Thread s c p a (.testWake w chan lk) ((s.setResult p (-1)).setPc p .user)
  | testWakeNot {w : ℕ} {chan : Option Chan} {lk : ℕ} (hl : s.plock p = none)
      (hk : (s.slots p).killed = false) :
      Thread s c p a (.testWake w chan lk) (s.setPc p (.wakeup (some (.other w)) 0 (.sleep chan lk)))
  | woken {chan : Option Chan} {lk : ℕ} :
      Thread s c p a (.woken chan lk) ((s.called p).setPc p (.sleep1 chan lk .tested))
  | sleep1 {chan : Option Chan} {lk : ℕ} {r : Ret} (hl : s.plock p = none) :
      Thread s c p a (.sleep1 chan lk r) ((s.setPlock p (some c)).setPc p (.sleep2 chan lk r))
  | sleep2 {chan : Option Chan} {lk : ℕ} {r : Ret} (hl : s.locks lk = some p) :
      Thread s c p a (.sleep2 chan lk r) ((s.release lk p).setPc p (.sleep3 chan lk r))
  | sleep3 {chan : Option Chan} {lk : ℕ} {r : Ret} : Thread s c p a (.sleep3 chan lk r)
      ((s.setSlot p { s.slots p with chan := chan, state := .sleeping }).setPc p
        (.sched (.sleep chan lk r)))
  | sleep4 {lk : ℕ} {r : Ret} (hl : s.locks lk = none) : Thread s c p a (.sleep4 lk r)
      ((s.acquire lk p).setPc p (if r = .wait then .waitScan 0 false else .user))
  | sched {k : Resume} {i : ℕ} (hp : (s.cpus c).pos = .thread i) : Thread s c p a (.sched k)
      (((s.setContext p k).setPc p .off).setCpu c { s.cpus c with pos := .back i })
  | resumedYield : Thread s c p a (.resumed .yield) ((s.setPlock p none).setPc p .user)
  | resumedFork : Thread s c p a (.resumed .forkret) ((s.setPlock p none).setPc p .user)
  | resumedSleep {chan : Option Chan} {lk : ℕ} {r : Ret} : Thread s c p a (.resumed (.sleep chan lk r))
      (((s.setSlot p { s.slots p with chan := none }).setPlock p none).setPc p (.sleep4 lk r))
  | wakeupSelf {chan : Option Chan} {b : After} (hi : p < NPROC) :
      Thread s c p a (.wakeup chan p b) (s.setPc p (.wakeup chan (p + 1) b))
  | wakeupNext {chan : Option Chan} {i : ℕ} {b : After} (hi : i < NPROC) (hn : i ≠ p)
      (hl : s.plock i = none) : Thread s c p a (.wakeup chan i b)
      ((wakeupSlot s i chan).setPc p (.wakeup chan (i + 1) b))
  | wakeupDone {chan : Option Chan} {i : ℕ} {b : After} (hi : ¬ i < NPROC) :
      Thread s c p a (.wakeup chan i b) (s.setPc p (afterWakeup b))
  | killHit {i : ℕ} (hi : i < NPROC) (hl : s.plock i = none) : Thread s c p a (.kill (s.slots i).pid i)
      (((s.setSlot i (killSlot (s.slots i))).setResult p 0).setPc p .user)
  | killNext {pid : ℤ} {i : ℕ} (hi : i < NPROC) (hl : s.plock i = none) (he : (s.slots i).pid ≠
      pid) : Thread s c p a (.kill pid i) (s.setPc p (.kill pid (i + 1)))
  | killDone {pid : ℤ} {i : ℕ} (hi : ¬ i < NPROC) :
      Thread s c p a (.kill pid i) ((s.setResult p (-1)).setPc p .user)
  | forkNext {i : ℕ} (hi : i < NPROC) (hl : s.plock i = none) (hu : (s.slots i).state ≠ .unused) :
      Thread s c p a (.fork1 i) (s.setPc p (.fork1 (i + 1)))
  | forkNone {i : ℕ} (hi : ¬ i < NPROC) : Thread s c p a (.fork1 i) ((s.setResult p (-1)).setPc p .user)
  | forkFail {i : ℕ} (hi : i < NPROC) (hl : s.plock i = none) (hu : (s.slots i).state = .unused) :
      Thread s c p a (.fork1 i)
        ((((s.setSlot i freeproc).setNextpid (int32 (s.nextpid + 1))).setResult p (-1)).setPc p .user)
  | forkAlloc {i : ℕ} (hi : i < NPROC) (hl : s.plock i = none) (hu : (s.slots i).state = .unused) :
      Thread s c p a (.fork1 i) ((allocSlot s i).setPc p (.fork2 i))
  | fork2 {np : ℕ} (hl : s.locks WAIT = none) : Thread s c p a (.fork2 np)
      ((s.setSlot np { s.slots np with parent := some p }).setPc p (.fork3 np))
  | fork3 {np : ℕ} (hl : s.plock np = none) : Thread s c p a (.fork3 np)
      (((s.setSlot np { s.slots np with state := .runnable }).setResult p (s.slots np).pid).setPc p
        .user)
  | exit1 {st : ℤ} (hl : s.locks WAIT = none) :
      Thread s c p a (.exit1 st) ((s.acquire WAIT p).setPc p (.reparent 0 st))
  | reparentHit {i : ℕ} {st : ℤ} (hi : i < NPROC) (he : (s.slots i).parent = some p) :
      Thread s c p a (.reparent i st) ((s.setSlot i { s.slots i with parent := some s.initproc }).setPc p
        (.wakeup (some (.proc s.initproc)) 0 (.reparent (i + 1) st)))
  | reparentNext {i : ℕ} {st : ℤ} (hi : i < NPROC) (he : (s.slots i).parent ≠ some p) :
      Thread s c p a (.reparent i st) (s.setPc p (.reparent (i + 1) st))
  | reparentDone {i : ℕ} {st : ℤ} (hi : ¬ i < NPROC) : Thread s c p a (.reparent i st)
      (s.setPc p (.wakeup ((s.slots p).parent.map .proc) 0 (.exit st)))
  | exit2 {st : ℤ} (hl : s.plock p = none) :
      Thread s c p a (.exit2 st) ((s.setPlock p (some c)).setPc p (.exit3 st))
  | exit3 {st : ℤ} : Thread s c p a (.exit3 st)
      ((s.setSlot p { s.slots p with xstate := st, state := .zombie }).setPc p .exit4)
  | exit4 : Thread s c p a .exit4 ((s.release WAIT p).setPc p (.sched .dead))
  | wait1 (hl : s.locks WAIT = none) :
      Thread s c p a .wait1 ((s.acquire WAIT p).setPc p (.waitScan 0 false))
  | waitNext {i : ℕ} {hk : Bool} (hi : i < NPROC) (he : (s.slots i).parent ≠ some p) :
      Thread s c p a (.waitScan i hk) (s.setPc p (.waitScan (i + 1) hk))
  | waitChild {i : ℕ} {hk : Bool} (hi : i < NPROC) (he : (s.slots i).parent = some p)
      (hl : s.plock i = none) (hz : (s.slots i).state ≠ .zombie) :
      Thread s c p a (.waitScan i hk) (s.setPc p (.waitScan (i + 1) true))
  | waitFail {i : ℕ} {hk : Bool} (hi : i < NPROC) (he : (s.slots i).parent = some p)
      (hl : s.plock i = none) (hz : (s.slots i).state = .zombie) (ha : a.ok = false) :
      Thread s c p a (.waitScan i hk) (waitReturn s p (-1))
  | waitFree {i : ℕ} {hk : Bool} (hi : i < NPROC) (he : (s.slots i).parent = some p)
      (hl : s.plock i = none) (hz : (s.slots i).state = .zombie) (ha : a.ok = true) :
        Thread s c p a (.waitScan i hk)
        (waitReturn ((s.setSlot i freeproc).setStatus p (s.slots i).xstate) p (s.slots i).pid)
  | waitNone {i : ℕ} (hi : ¬ i < NPROC) : Thread s c p a (.waitScan i false) (waitReturn s p (-1))
  | waitTest {i : ℕ} (hi : ¬ i < NPROC) :
      Thread s c p a (.waitScan i true) (s.setPc p (.test (some (.proc p)) WAIT .wait))

theorem thread_cases {s s' : Sys} {c p : ℕ} {a : Act} (h : thread s c p a = some s') :
    Thread s c p a (s.pc p) s' := by
  unfold thread at h
  cases hpc : s.pc p with
  | user => rw [hpc] at h; exact .user (call_cases h)
  | off => rw [hpc] at h; simp at h
  | test chan lk r =>
      simp only [hpc] at h
      split_ifs at h with hl hk hr <;> simp only [Option.some.injEq] at h <;> subst h
      · subst hr; exact .testWait hl hk
      · exact .testKilled hl hk hr
      · exact .testNot hl (by simpa using hk)
  | testWake w chan lk =>
      simp only [hpc] at h
      split_ifs at h with hl hk <;> simp only [Option.some.injEq] at h <;> subst h
      · exact .testWakeKilled hl hk
      · exact .testWakeNot hl (by simpa using hk)
  | wakeup chan i b =>
      simp only [hpc] at h
      split_ifs at h with hi hp hl <;> simp only [Option.some.injEq] at h <;> subst h
      · subst hp; exact .wakeupSelf hi
      · exact .wakeupNext hi hp hl
      · exact .wakeupDone hi
  | sched k =>
      simp only [hpc] at h
      split_ifs at h with hs
      split at h
      case h_1 i hp =>
          simp only [Option.some.injEq] at h
          subst h
          exact .sched hp
      case h_2 => simp at h
  | resumed k =>
      cases k <;> simp only [hpc, Option.some.injEq, reduceCtorEq] at h <;> subst h
      exacts [.resumedYield, .resumedSleep, .resumedFork]
  | kill pid i =>
      simp only [hpc] at h
      split_ifs at h with hi hl he <;> simp only [Option.some.injEq] at h <;> subst h
      · subst he; exact .killHit hi hl
      · exact .killNext hi hl he
      · exact .killDone hi
  | fork1 i =>
      simp only [hpc] at h
      split_ifs at h with hi hl hu <;> simp only [Option.some.injEq] at h <;> subst h
      exacts [.forkAlloc hi hl hu, .forkFail hi hl hu, .forkNext hi hl hu, .forkNone hi]
  | reparent i st =>
      simp only [hpc] at h
      split_ifs at h with hi he <;> simp only [Option.some.injEq] at h <;> subst h
      exacts [.reparentHit hi he, .reparentNext hi he, .reparentDone hi]
  | waitScan i hk =>
      simp only [hpc] at h
      split_ifs at h with hi he hl hz ha hk <;> simp only [Option.some.injEq] at h <;> subst h
      · exact .waitFree hi he hl hz ha
      · exact .waitFail hi he hl hz (by simpa using ha)
      · exact .waitChild hi he hl hz
      · exact .waitNext hi he
      · subst hk; exact .waitTest hi
      · rw [Bool.not_eq_true] at hk; subst hk; exact .waitNone hi
  | _ =>
      simp only [hpc, Option.ite_none_right_eq_some, Option.some.injEq] at h
      first
        | (obtain ⟨hl, h⟩ := h; subst h; constructor; exact hl)
        | (subst h; constructor)

/-! ### CPUs -/

/-- The steps of CPU `c`. -/
inductive Step (s : Sys) (a : Act) : Sys → Prop
  | wrap {i : ℕ} (hp : (s.cpus a.cpu).pos = .scan i) :
      Step s a (s.setCpu a.cpu { s.cpus a.cpu with pos := .scan 0 })
  | scan {i : ℕ} (hp : (s.cpus a.cpu).pos = .scan i) (hl : s.plock i = none) :
      Step s a ((s.setPlock i (some a.cpu)).setCpu a.cpu { s.cpus a.cpu with pos := .got i })
  | run {i : ℕ} (hp : (s.cpus a.cpu).pos = .got i) (hr : (s.slots i).state = .runnable) :
      Step s a ((s.setSlot i { s.slots i with state := .running }).setCpu a.cpu
        { s.cpus a.cpu with proc := some i, pos := .leave i })
  | skip {i : ℕ} (hp : (s.cpus a.cpu).pos = .got i) (hr : (s.slots i).state ≠ .runnable) :
      Step s a (s.setCpu a.cpu { s.cpus a.cpu with pos := .unlock i })
  | leave {i : ℕ} (hp : (s.cpus a.cpu).pos = .leave i) :
      Step s a (s.setCpu a.cpu { s.cpus a.cpu with pos := .enter i })
  | enter {i : ℕ} (hp : (s.cpus a.cpu).pos = .enter i) :
      Step s a ((s.setPc i (.resumed (s.context i))).setCpu a.cpu
        { s.cpus a.cpu with pos := .thread i, stack := some i })
  | thread {i p : ℕ} {s' : Sys} (hp : (s.cpus a.cpu).pos = .thread i) (hc : (s.cpus a.cpu).proc =
      some p) (h : Thread s a.cpu p a (s.pc p) s') : Step s a s'
  | back {i : ℕ} (hp : (s.cpus a.cpu).pos = .back i) :
      Step s a (s.setCpu a.cpu { s.cpus a.cpu with pos := .returned i, stack := none })
  | returned {i : ℕ} (hp : (s.cpus a.cpu).pos = .returned i) :
      Step s a (s.setCpu a.cpu { s.cpus a.cpu with proc := none, pos := .unlock i })
  | unlock {i : ℕ} (hp : (s.cpus a.cpu).pos = .unlock i) :
      Step s a ((s.setPlock i none).setCpu a.cpu { s.cpus a.cpu with pos := .scan (i + 1) })
  | intr {n i : ℕ} (hp : (s.cpus a.cpu).pos = .scan i) :
      Step s a (s.setCpu a.cpu { s.cpus a.cpu with pos := .intr n 0 i })
  | intrNext {n j i : ℕ} (hp : (s.cpus a.cpu).pos = .intr n j i) (hj : j < NPROC)
      (hl : s.plock j = none) : Step s a ((wakeupSlot s j (some (.other n))).setCpu a.cpu
        { s.cpus a.cpu with pos := .intr n (j + 1) i })
  | intrDone {n j i : ℕ} (hp : (s.cpus a.cpu).pos = .intr n j i) (hj : ¬ j < NPROC) :
      Step s a (s.setCpu a.cpu { s.cpus a.cpu with pos := .scan i })

theorem step_cases {s s' : Sys} {a : Act} (h : step s a = some s') : Step s a s' := by
  unfold step at h
  cases hp : (s.cpus a.cpu).pos with
  | scan i =>
      simp only [hp] at h
      split at h
      · cases h; exact .intr hp
      · split_ifs at h with hi hl <;> cases h
        · exact .scan hp hl
        · exact .wrap hp
  | got i =>
      simp only [hp] at h
      split_ifs at h with hr <;> cases h
      · exact .run hp hr
      · exact .skip hp hr
  | thread i =>
      simp only [hp] at h
      split at h
      · rename_i p hc; exact .thread hp hc (thread_cases h)
      · simp at h
  | intr n j i =>
      simp only [hp] at h
      split_ifs at h with hj hl <;> cases h
      · exact .intrNext hp hj hl
      · exact .intrDone hp hj
  | leave i => simp only [hp, Option.some.injEq] at h; exact h ▸ .leave hp
  | enter i => simp only [hp, Option.some.injEq] at h; exact h ▸ .enter hp
  | back i => simp only [hp, Option.some.injEq] at h; exact h ▸ .back hp
  | returned i => simp only [hp, Option.some.injEq] at h; exact h ▸ .returned hp
  | unlock i => simp only [hp, Option.some.injEq] at h; exact h ▸ .unlock hp

end Xv6Cow.Proc

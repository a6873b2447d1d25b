import Xv6Cow.Proc.OneCpu

/-! # Process ids

`allocpid` returns `nextpid` and adds one to it; it does not look at the table.  `nextpid` is an
`int`, so after the pid 2147483647 the counter is negative, and after 2 ^ 32 calls it gives the pids
of the first processes once more.  Up to there the pids of the processes are distinct and positive:
`Numbered n s` says that `n` calls of `allocpid` have been made since `userinit` and that the
processes in use have pids among the first `n + 1`. -/

namespace Xv6Cow.Proc

open Function (update update_self update_of_ne update_eq_self)

variable {s s' : Sys} {c p q n : ℕ} {a : Act}

/-- The step is the section of `allocproc` that finds a slot and calls `allocpid`. -/
def allocates (s : Sys) (a : Act) : Bool :=
  match (s.cpus a.cpu).pos with
  | .thread q => match s.pc q with
      | .fork1 i => i < NPROC && (s.slots i).state = .unused
      | _ => false
  | _ => false

/-- The calls of `allocpid` in a run. -/
def allocpids (s : Sys) (as : List Act) : ℕ := Runs.count step allocates s as

/-! ### What a step does to the pids -/

/-- A slot is taken into use with the pid `nextpid`, or `fork` frees it again; the others stay. -/
structure Taken (s s' : Sys) (i : ℕ) : Prop where
  free : (s.slots i).state = .unused
  next : s'.nextpid = int32 (s.nextpid + 1)
  slot : (s'.slots i).state ≠ .unused → (s'.slots i).pid = s.nextpid
  others : ∀ p, p ≠ i → s'.slots p = s.slots p

/-- No slot is taken into use, and those in use keep their pids. -/
structure Kept (s s' : Sys) : Prop where
  next : s'.nextpid = s.nextpid
  slot : ∀ p, (s'.slots p).state ≠ .unused → (s.slots p).state ≠ .unused ∧
    (s'.slots p).pid = (s.slots p).pid

theorem Kept.of_eq (hn : s'.nextpid = s.nextpid) (hs : s'.slots = s.slots) : Kept s s' :=
  ⟨hn, fun p hp => by rw [hs] at hp ⊢; exact ⟨hp, rfl⟩⟩

theorem Kept.of_slot {i : ℕ} {x : Slot} (hn : s'.nextpid = s.nextpid)
    (hs : s'.slots = update s.slots i x)
    (hx : x.state ≠ .unused → (s.slots i).state ≠ .unused ∧ x.pid = (s.slots i).pid) : Kept s s' := by
  refine ⟨hn, fun p hp => ?_⟩
  rw [hs] at hp ⊢
  obtain rfl | hpi := eq_or_ne p i
  · rw [update_self] at hp ⊢
    exact hx hp
  · rw [update_of_ne hpi] at hp ⊢
    exact ⟨hp, rfl⟩

theorem Kept.of_wakeup {i : ℕ} {chan : Option Chan} (hn : s'.nextpid = (wakeupSlot s i chan).nextpid)
    (hs : s'.slots = (wakeupSlot s i chan).slots) : Kept s s' := by
  unfold wakeupSlot at hn hs
  split_ifs at hn hs with hw
  · exact .of_slot hn hs fun _ => ⟨by simp [hw.1], rfl⟩
  · exact .of_eq hn hs

theorem thread_pids (hok : Ok s) (hp : (s.cpus a.cpu).pos = .thread q)
    (ht : Thread s a.cpu q a (s.pc q) s') : (allocates s a = true ∧ ∃ i, Taken s s' i) ∨
      (allocates s a = false ∧ Kept s s') := by
  have hst := (hok.inv.runs hp).2.2.state
  have hused := hok.forks.used q
  have hall : allocates s a = match s.pc q with
      | .fork1 i => i < NPROC && (s.slots i).state = .unused
      | _ => false := by
    simp [allocates, hp]
  generalize hk : s.pc q = k at ht hst hused hall
  cases ht with
  | user hc =>
      refine .inr ⟨hall, ?_⟩
      generalize hx : a.call = x at hc
      cases hc with
      | setkilled _ => exact .of_slot rfl rfl fun _ => ⟨by simp [hst, Pc.state], rfl⟩
      | _ => exact .of_eq rfl rfl
  | yield2 | sleep3 | exit3 | resumedSleep =>
      exact .inr ⟨hall, .of_slot rfl rfl fun _ => ⟨by simp [hst, Pc.state], rfl⟩⟩
  | wakeupNext hi hn hl => exact .inr ⟨hall, .of_wakeup rfl rfl⟩
  | @killHit i hi hl =>
      refine .inr ⟨hall, .of_slot rfl rfl fun hu => ⟨fun h => ?_, rfl⟩⟩
      simp [killSlot, h] at hu
  | forkNext hi hl hu => exact .inr ⟨by simp [hall, hu], .of_eq rfl rfl⟩
  | forkNone hi => exact .inr ⟨by simp [hall, hi], .of_eq rfl rfl⟩
  | @forkFail i hi hl hu =>
      refine .inl ⟨by simp [hall, hi, hu], i, hu, rfl, fun h => ?_, fun p hpi => update_of_ne hpi _ _⟩
      simp [Sys.setPc, Sys.setResult, Sys.setNextpid, freeproc] at h
  | @forkAlloc i hi hl hu =>
      refine .inl ⟨by simp [hall, hi, hu], i, hu, rfl, fun _ => ?_, fun p hpi => update_of_ne hpi _ _⟩
      simp [allocSlot, Sys.setPc, Sys.setContext, Sys.setNextpid]
  | @fork2 np hl => exact .inr ⟨hall, .of_slot rfl rfl fun _ => ⟨by simp [hused np rfl], rfl⟩⟩
  | @fork3 np hl => exact .inr ⟨hall, .of_slot rfl rfl fun _ => ⟨by simp [hused np rfl], rfl⟩⟩
  | reparentHit hi he => exact .inr ⟨hall, .of_slot rfl rfl fun h => ⟨h, rfl⟩⟩
  | waitFree hi he hl hz ha => exact .inr ⟨hall, .of_slot rfl rfl fun h => absurd rfl h⟩
  | _ => exact .inr ⟨hall, .of_eq rfl rfl⟩

theorem step_pids (hok : Ok s) (ht : step s a = some s') :
    (allocates s a = true ∧ ∃ i, Taken s s' i) ∨ (allocates s a = false ∧ Kept s s') := by
  have hx := hok.inv.cpu a.cpu
  cases step_cases ht with
  | @thread i q s' hp hc ht =>
      simp only [CpuOk, hp] at hx
      cases Option.some.inj (hx.1.symm.trans hc)
      exact thread_pids hok hp ht
  | run hp hr => exact .inr ⟨by simp [allocates, hp], .of_slot rfl rfl fun _ => ⟨by simp [hr], rfl⟩⟩
  | intrNext hp hj hl => exact .inr ⟨by simp [allocates, hp], .of_wakeup rfl rfl⟩
  | wrap hp | scan hp | skip hp | leave hp | enter hp | back hp | returned hp | unlock hp | intr hp
  | intrDone hp =>
      exact .inr ⟨by simp [allocates, hp], .of_eq rfl rfl⟩

/-! ### The first 2147483646 processes -/

theorem int32_of_lt {x : ℤ} (h0 : -2147483648 ≤ x) (h : x < 2147483648) : int32 x = x := by
  unfold int32
  omega

/-- The counter wraps once, whether each step or the end of the count is cut to an `int`. -/
theorem int32_succ (x : ℤ) : int32 (int32 x + 1) = int32 (x + 1) := by
  unfold int32
  omega

/-- The slots in use have distinct pids among the first `n + 1`. -/
structure Distinct (n : ℕ) (s : Sys) : Prop where
  pos : ∀ p, (s.slots p).state ≠ .unused → 0 < (s.slots p).pid
  le : ∀ p, (s.slots p).state ≠ .unused → (s.slots p).pid ≤ n + 1
  inj : ∀ p q, (s.slots p).state ≠ .unused → (s.slots q).state ≠ .unused →
    (s.slots p).pid = (s.slots q).pid → p = q

/-- After `n` calls of `allocpid`. -/
structure Numbered (n : ℕ) (s : Sys) : Prop where
  ok : Ok s
  next : s.nextpid = int32 (n + 2)
  distinct : n ≤ 2147483646 → Distinct n s

theorem Distinct.taken {i : ℕ} (h : Distinct n s) (ht : Taken s s' i) (hn : s.nextpid = n + 2) :
    Distinct (n + 1) s' := by
  have hpid : ∀ p, (s'.slots p).state ≠ .unused →
      (p = i ∧ (s'.slots p).pid = n + 2) ∨
        (p ≠ i ∧ (s.slots p).state ≠ .unused ∧ (s'.slots p).pid = (s.slots p).pid) := by
    intro p hp
    obtain rfl | hpi := eq_or_ne p i
    · exact .inl ⟨rfl, (ht.slot hp).trans hn⟩
    · rw [ht.others p hpi] at hp ⊢
      exact .inr ⟨hpi, hp, rfl⟩
  refine ⟨fun p hp => ?_, fun p hp => ?_, fun p q hp hq he => ?_⟩
  · obtain ⟨-, h1⟩ | ⟨-, h1, h2⟩ := hpid p hp
    · omega
    · have := h.pos p h1
      omega
  · obtain ⟨-, h1⟩ | ⟨-, h1, h2⟩ := hpid p hp
    · omega
    · have := h.le p h1
      omega
  · obtain ⟨rfl, h1⟩ | ⟨h0, h1, h2⟩ := hpid p hp
    · obtain ⟨rfl, -⟩ | ⟨-, h3, h4⟩ := hpid q hq
      · rfl
      · have := h.le q h3
        omega
    · obtain ⟨rfl, h3⟩ | ⟨-, h3, h4⟩ := hpid q hq
      · have := h.le p h1
        omega
      · exact h.inj p q h1 h3 (by omega)

theorem Distinct.kept (h : Distinct n s) (hk : Kept s s') : Distinct n s' where
  pos p hp := (hk.slot p hp).2 ▸ h.pos p (hk.slot p hp).1
  le p hp := (hk.slot p hp).2 ▸ h.le p (hk.slot p hp).1
  inj p q hp hq he := by
    obtain ⟨h1, h2⟩ := hk.slot p hp
    obtain ⟨h3, h4⟩ := hk.slot q hq
    exact h.inj p q h1 h3 (h2.symm.trans (he.trans h4))

theorem Numbered.step (h : Numbered n s) (ht : Proc.step s a = some s') :
    Numbered (n + (allocates s a).toNat) s' := by
  obtain ⟨ha, i, htk⟩ | ⟨ha, hk⟩ := step_pids h.ok ht
  · refine ⟨h.ok.after ht, ?_, fun hn => ?_⟩
    · rw [htk.next, h.next, int32_succ, ha, Bool.toNat_true]
      exact congrArg int32 (by omega)
    · simp only [ha, Bool.toNat_true] at hn ⊢
      exact (h.distinct (by omega)).taken htk (by rw [h.next, int32_of_lt (by omega) (by omega)])
  · simp only [ha, Bool.toNat_false, Nat.add_zero]
    exact ⟨h.ok.after ht, hk.next.trans h.next, fun hn => (h.distinct hn).kept hk⟩

theorem boot_numbered : Numbered 0 boot := by
  have hslot : ∀ p, (boot.slots p).state ≠ .unused → p = 0 := fun p hp => by
    by_contra hne
    simp [boot, hne] at hp
  refine ⟨boot_ok, by decide, fun _ => ⟨fun p hp => ?_, fun p hp => ?_, fun p q hp hq _ => ?_⟩⟩
  · rw [hslot p hp]
    decide
  · rw [hslot p hp]
    decide
  · rw [hslot p hp, hslot q hq]

/-- **Pids identify processes up to the first 2147483646 calls of `allocpid`.**  In every run with
no more of them since `userinit`: the slots in use have pairwise distinct pids, and a `fork` that
succeeds returns a positive one. -/
theorem pids_distinct {as : List Act} (h : Runs.exec step boot as = some s)
    (ha : allocpids boot as ≤ 2147483646) :
    (∀ p q, (s.slots p).state ≠ .unused → (s.slots q).state ≠ .unused →
      (s.slots p).pid = (s.slots q).pid → p = q) ∧
        (∀ (a : Act) (s' : Sys) (p np : ℕ), (s.cpus a.cpu).pos = .thread p → s.pc p = .fork3 np →
          step s a = some s' → s'.pc p = .user ∧ s'.result p = (s.slots np).pid ∧ 0 < s'.result p) := by
  have hnum := Runs.exec_count (I := Numbered)
    (c := allocates) (fun n t l u hI ht => hI.step ht) boot_numbered h
  rw [Nat.zero_add] at hnum
  have hd := hnum.distinct ha
  refine ⟨hd.inj, fun a s' p np hp hk ht => ?_⟩
  have hx := hnum.ok.inv.cpu a.cpu
  have hused := hnum.ok.forks.used p np
  rw [hk] at hused
  cases step_cases ht with
  | @thread j q s' hp' hc ht =>
      rw [hp] at hp'
      cases hp'
      simp only [CpuOk, hp] at hx
      cases Option.some.inj (hx.1.symm.trans hc)
      rw [hk] at ht
      cases ht with
      | fork3 hl =>
          refine ⟨update_self .., update_self .., ?_⟩
          simp only [Sys.setPc, setResult_result, update_self]
          exact hd.pos np (by simp [hused rfl])
  | wrap hp' | scan hp' | run hp' | skip hp' | leave hp' | enter hp' | back hp' | returned hp'
  | unlock hp' | intr hp'
  | intrNext hp' | intrDone hp' => simp [hp] at hp'

/-- Process 0 forks up to the last step of `fork`, which makes the child runnable. -/
def forking : List Act := ⟨0, .fork, true⟩ :: List.replicate 3 ⟨0, .yield, true⟩

set_option maxRecDepth 100000 in
theorem pids_distinct_fork : let s := Runs.after step boot (started ++ forking)
    (s.slots 0).state = .running ∧ (s.slots 1).state = .used ∧ (s.slots 0).pid ≠ (s.slots 1).pid ∧
    ∃ s', step s ⟨0, .yield, true⟩ = some s' ∧ 0 < s'.result 0 := by
  have h := pids_distinct (Runs.exec_after step boot (started ++ forking) (by decide +kernel))
    (by decide +kernel)
  refine ⟨by decide +kernel, by decide +kernel, fun he => ?_, _, rfl, ?_⟩
  · exact absurd (h.1 0 1 (by decide +kernel) (by decide +kernel) he) (by decide)
  · exact (h.2 ⟨0, .yield, true⟩ _ 0 1 (by decide +kernel) (by decide +kernel) rfl).2.2

/-! ### After that -/

/-- A `fork` by process 0 that finds slot 1 and fails to allocate. -/
def failing : List Act := ⟨0, .fork, true⟩ :: List.replicate 2 ⟨0, .yield, false⟩

/-- It leaves everything as it was but the counter, once it has failed before. -/
theorem exec_failing (hpos : (s.cpus 0).pos = .thread 0) (hproc : (s.cpus 0).proc = some 0)
    (hpc : s.pc 0 = .user) (h0 : s.plock 0 = none) (h1 : s.plock 1 = none)
    (hs0 : (s.slots 0).state ≠ .unused) (hs1 : s.slots 1 = freeproc) (hr : s.result 0 = -1) :
    Runs.exec step s failing = some (s.setNextpid (int32 (s.nextpid + 1))) := by
  have hpc' : update s.pc 0 .user = s.pc := by rw [← hpc, update_eq_self]
  have hs' : update s.slots 1 freeproc = s.slots := by rw [← hs1, update_eq_self]
  have hr' : update s.result 0 (-1) = s.result := by rw [← hr, update_eq_self]
  have hu : (s.slots 1).state = .unused := by rw [hs1]; rfl
  simp [failing, List.replicate, Runs.exec, step, thread, call, hpos, hproc, hpc, h0, h1, hs0, hu,
    NPROC, Sys.setPc, Sys.setSlot, Sys.setNextpid, Sys.setResult, hpc', hs', hr']

/-- Process 0 has failed to fork once, and then `n` times more. -/
def failed (n : ℕ) : Sys := (Runs.after step boot (started ++ failing)).setNextpid (int32 (n + 3))

/-- The run that brings the counter to `int32 (n + 3)`. -/
def counting (n : ℕ) : List Act := started ++ failing ++ (List.replicate n failing).flatten

set_option maxRecDepth 100000 in
theorem exec_counting (n : ℕ) : Runs.exec step boot (counting n) = some (failed n) := by
  refine Runs.exec_append.mpr ⟨failed 0, Runs.exec_after _ _ _ (by decide +kernel),
    Runs.exec_rounds (fun k => ?_) n⟩
  have hs : ((Runs.after step boot (started ++ failing)).slots 0).state ≠ .unused := by decide +kernel
  rw [exec_failing (s := failed k) rfl rfl rfl rfl rfl hs rfl rfl]
  have hnext : int32 ((failed k).nextpid + 1) = int32 ((k + 1 : ℕ) + 3) := by
    rw [failed, Sys.setNextpid, int32_succ]
    exact congrArg int32 (by omega)
  rw [hnext, failed, failed, Sys.setNextpid, Sys.setNextpid, Sys.setNextpid]

/-- Two runs: after 2147483646 forks that failed the next one returns a negative pid; and after
4294967295 of them the next one gives the child the pid of `init`. -/
theorem pids_wrap : let s := Runs.after step (failed 2147483645) (forking ++ [⟨0, .yield, true⟩])
    let t := Runs.after step (failed 4294967294) forking
    (Runs.exec step boot (counting 2147483645 ++ (forking ++ [⟨0, .yield, true⟩])) = some s ∧
      s.pc 0 = .user ∧ (s.slots 1).state = .runnable ∧ s.result 0 = -2147483648) ∧
    (Runs.exec step boot (counting 4294967294 ++ forking) = some t ∧ (t.slots 0).state ≠ .unused ∧
      (t.slots 1).state ≠ .unused ∧ (t.slots 0).pid = 1 ∧ (t.slots 1).pid = 1) := by
  refine ⟨⟨Runs.exec_append.mpr ⟨_, exec_counting _, Runs.exec_after _ _ _ (by decide +kernel)⟩,
    ?_⟩, Runs.exec_append.mpr ⟨_, exec_counting _, Runs.exec_after _ _ _ (by decide +kernel)⟩, ?_⟩
  · decide +kernel
  · decide +kernel

end Xv6Cow.Proc

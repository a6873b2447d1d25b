import Xv6Cow.Proc.Wakeup

/-! # The order of `wait_lock` and `p->lock`

`wait_lock` comes before any `p->lock`: a CPU that holds a `p->lock` waits neither for another one
nor for `wait_lock`, and the thread that holds `wait_lock` waits only for a `p->lock`.  So no CPUs
wait for each other on these locks.  The locks that `allocproc`, `fork` and `wait` take and release
under a `p->lock` are not in this order: such a section is one step here. -/

namespace Xv6Cow.Proc

variable {s : Sys} {c p : ℕ}

/-- CPU `c` can make a step. -/
def Moves (s : Sys) (c : ℕ) : Prop := (step s ⟨c, .yield, true⟩).isSome

/-- The panics of `release`, for a lock that the caller of `sleep` does not hold, and of `sched`,
for one that it does. -/
def Panics (s : Sys) (p : ℕ) : Prop :=
  (∃ chan lk r, s.pc p = .sleep2 chan lk r ∧ s.locks lk ≠ some p) ∨
    ((∃ k, s.pc p = .sched k) ∧ s.depth p ≠ 0)

theorem Inv.moves (h : Inv s) (hp : (s.cpus c).pos = .thread p)
    (ht : (thread s c p ⟨c, .yield, true⟩).isSome) : Moves s c := by
  simpa [Moves, step, hp, (h.runs hp).1] using ht

theorem Inv.moves_of_plock (h : Inv s) (hl : s.plock p = some c) : Moves s c ∨ Panics s p := by
  have hh := h.lock c p hl
  cases hp : (s.cpus c).pos with
  | thread i =>
      obtain ⟨rfl, ho⟩ : i = p ∧ (s.pc p).own = true := by simpa [Holds, hp] using hh
      have hr := (h.runs hp).2.2
      have hst := hr.state
      have hlive := hr.live
      by_cases hn : Panics s i
      · exact .inr hn
      refine .inl (h.moves hp ?_)
      unfold Panics at hn
      cases hk : s.pc i with
      | sched k => cases k <;> simp_all [thread, Pc.state, Resume.state]
      | resumed k => cases k <;> simp_all [thread]
      | _ => simp_all [Pc.own, thread]
  | scan i | intr n j i => simp [Holds, hp] at hh
  | _ =>
      refine .inl ?_
      simp only [Moves, step, hp]
      first | rfl | (split <;> rfl)

theorem Reachable.moves_of_wait (h : Reachable s) (hl : s.locks WAIT = some p)
    (hfree : ∀ i, s.plock i = none) (hp : (s.cpus c).pos = .thread p) : Moves s c := by
  have hw := h.waitLock
  have hk := (hw.holder p).1 hl
  have hfit := hw.args p
  refine h.ok.inv.moves hp ?_
  unfold thread
  cases hpc : s.pc p <;> simp only [hfree] <;> simp only [hpc, Pc.holdsWait] at hk
  all_goals grind [Pc.Fits, ArgsFit, LockFits]

/-- **No CPUs wait for each other on `wait_lock` and `p->lock`.**  A CPU that holds a `p->lock` can
make a step, or panics; and the thread that holds `wait_lock` is on a CPU that can make a step, or
some CPU holds a `p->lock`. -/
theorem lock_order (h : Reachable s) : (∀ c p, s.plock p = some c → Moves s c ∨ Panics s p) ∧
    ∀ p, s.locks WAIT = some p → ∃ c, (s.cpus c).pos = .thread p ∧
      (Moves s c ∨ ∃ i d, s.plock i = some d) := by
  refine ⟨fun c p => h.ok.inv.moves_of_plock, fun p hl => ?_⟩
  have hk := (h.waitLock.holder p).1 hl
  obtain ⟨c, hp⟩ := h.ok.inv.on_cpu (p := p) fun ho => by simp [ho, Pc.holdsWait] at hk
  by_cases hfree : ∀ i, s.plock i = none
  · exact ⟨c, hp, .inl (h.moves_of_wait hl hfree hp)⟩
  · push Not at hfree
    obtain ⟨i, hi⟩ := hfree
    exact ⟨c, hp, .inr ⟨i, Option.ne_none_iff_exists'.1 hi⟩⟩

/-- Process 0 is in the loop of `wait`, and the scheduler of CPU 1 has its lock. -/
def waitScanning : List Act := started ++ [⟨0, .wait, true⟩, ⟨0, .yield, true⟩, ⟨1, .yield, true⟩]

set_option maxRecDepth 100000 in
theorem lock_order_wait : let s := Runs.after step boot waitScanning
    s.plock 0 = some 1 ∧ (Moves s 1 ∨ Panics s 0) ∧ s.locks WAIT = some 0 ∧
    ∃ c, (s.cpus c).pos = .thread 0 ∧ (Moves s c ∨ ∃ i d, s.plock i = some d) := by
  have h := lock_order ⟨waitScanning, Runs.exec_after step boot waitScanning (by decide +kernel)⟩
  exact ⟨by decide +kernel, h.1 1 0 (by decide +kernel), by decide +kernel, h.2 0 (by decide +kernel)⟩

end Xv6Cow.Proc

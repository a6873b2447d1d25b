import Xv6Cow.Proc.Kill

/-! # Parents and children

What `wait_lock` protects: the parent pointers, and that a process which waits for its children does
not sleep while one of them has exited.  `exit` wakes the parent before the state is `ZOMBIE`, and
it is `wait_lock`, held from the one to the other, that keeps the parent from going back to sleep in
between. -/

namespace Xv6Cow.Proc

open Function (update update_self update_of_ne update_eq_self)

variable {s s' t : Sys} {c d p q : ℕ} {a : Act}

/-- A process that has been started and has not exited. -/
def Slot.Alive (x : Slot) : Prop := x.state = .runnable ∨ x.state = .running ∨ x.state = .sleeping

/-- The process is asleep in `wait`, or on its way there with `wait_lock` released. -/
def Dozes (s : Sys) (p : ℕ) : Prop :=
  ∃ ch lk, s.pc p = .sleep3 ch lk .wait ∨ s.pc p = .sched (.sleep ch lk .wait) ∨
    s.pc p = .off ∧ (s.slots p).state = .sleeping ∧ s.context p = .sleep ch lk .wait

/-! ### Positions -/

/-- The slots that `reparent` has passed. -/
def Pc.passed : Pc → ℕ
  | .reparent i _ | .wakeup _ _ (.reparent i _) => i
  | .wakeup _ _ (.exit _) | .exit2 _ | .exit3 _ => NPROC
  | _ => 0

/-- The slots that `wait` has passed. -/
def Pc.scanned : Pc → ℕ
  | .waitScan i _ => i
  | .test _ _ .wait | .sleep1 _ _ .wait | .sleep2 _ _ .wait => NPROC
  | _ => 0

/-- The slots that `wait` has passed without finding a child. -/
def Pc.childless : Pc → ℕ
  | .waitScan i false => i
  | _ => 0

/-- The process that a `wakeup` under `wait_lock` is for, and the slot that it is at. -/
def Pc.waker : Pc → Option (ℕ × ℕ)
  | .wakeup (some (.proc p)) i (.reparent _ _) | .wakeup (some (.proc p)) i (.exit _) => some (p, i)
  | _ => none

/-- In `exit`, after the parent has been woken up. -/
def Pc.leaving : Pc → Bool
  | .exit2 _ | .exit3 _ => true
  | _ => false

/-- In `exit`. -/
def Pc.exiting : Pc → Bool
  | .exit1 _ | .reparent _ _ | .wakeup _ _ (.reparent _ _) | .wakeup _ _ (.exit _) | .exit2 _
  | .exit3 _ | .exit4 => true
  | _ => false

/-- A position about which the invariant says nothing. -/
def Pc.plain (k : Pc) : Prop :=
  k.passed = 0 ∧ k.scanned = 0 ∧ k.childless = 0 ∧ (∀ np, k ≠ .fork3 np) ∧
    (∀ ch i st, k ≠ .wakeup ch i (.exit st)) ∧ k.waker = none ∧ k.leaving = false ∧ k.exiting = false

/-! ### The invariant -/

/-- A `wakeup` under `wait_lock` for `p` has not come to `p` yet. -/
def Pending (s : Sys) (p : ℕ) : Prop := ∃ q i, (s.pc q).waker = some (p, i) ∧ i ≤ p

structure Family (s : Sys) : Prop where
  /-- Slots outside the table are not in use. -/
  bound : ∀ j, (s.slots j).state ≠ .unused → j < NPROC
  init : (s.slots s.initproc).Alive ∧ (s.pc s.initproc).exiting = false
  alive : ∀ j q, (s.slots j).parent = some q → (s.slots q).Alive
  parent : ∀ j, j ≠ s.initproc → (s.slots j).Alive ∨ (s.slots j).state = .zombie →
    (s.slots j).parent ≠ none
  fork : ∀ p np, s.pc p = .fork3 np → (s.slots np).parent = some p
  passed : ∀ q j, j < (s.pc q).passed → (s.slots j).parent ≠ some q
  scanned : ∀ p j, j < (s.pc p).scanned → (s.slots j).parent = some p → (s.slots j).state ≠ .zombie
  childless : ∀ p j, j < (s.pc p).childless → (s.slots j).parent ≠ some p
  link : ∀ q ch i st, s.pc q = .wakeup ch i (.exit st) → ch = (s.slots q).parent.map .proc
  woken : ∀ q p i, (s.pc q).waker = some (p, i) → p < i → ¬ Dozes s p
  leaving : ∀ q p, (s.pc q).leaving = true → (s.slots q).parent = some p → ¬ Dozes s p
  dozes : ∀ p j, Dozes s p → (s.slots j).parent = some p → (s.slots j).state = .zombie → Pending s p

/-- What the invariant says of thread `q` at position `k`. -/
structure Told (s : Sys) (q : ℕ) (k : Pc) : Prop where
  init : q = s.initproc → k.exiting = false
  fork : ∀ np, k = .fork3 np → (s.slots np).parent = some q := by simp
  passed : ∀ j < k.passed, (s.slots j).parent ≠ some q := by simp [Pc.passed]
  scanned : ∀ j < k.scanned, (s.slots j).parent = some q → (s.slots j).state ≠ .zombie := by
    simp [Pc.scanned]
  childless : ∀ j < k.childless, (s.slots j).parent ≠ some q := by simp [Pc.childless]
  link : ∀ ch i st, k = .wakeup ch i (.exit st) → ch = (s.slots q).parent.map .proc := by simp
  woken : ∀ p i, k.waker = some (p, i) → p < i → ¬ Dozes s p := by simp [Pc.waker]
  leaving : k.leaving = true → ∀ p, (s.slots q).parent = some p → ¬ Dozes s p := by simp [Pc.leaving]

theorem Family.told (h : Family s) (q : ℕ) : Told s q (s.pc q) :=
  ⟨fun he => he ▸ h.init.2, h.fork q, h.passed q, h.scanned q, h.childless q, h.link q, h.woken q,
    fun hl p => h.leaving q p hl⟩

theorem Family.of_told (bound : ∀ j, (s.slots j).state ≠ .unused → j < NPROC)
    (init : (s.slots s.initproc).Alive) (alive : ∀ j q, (s.slots j).parent = some q → (s.slots q).Alive)
    (parent : ∀ j, j ≠ s.initproc → (s.slots j).Alive ∨ (s.slots j).state = .zombie →
      (s.slots j).parent ≠ none)
    (told : ∀ q, Told s q (s.pc q))
    (dozes : ∀ p j, Dozes s p → (s.slots j).parent = some p → (s.slots j).state = .zombie →
      Pending s p) : Family s :=
  ⟨bound, ⟨init, (told _).init rfl⟩, alive, parent, fun q => (told q).fork, fun q => (told q).passed,
    fun q => (told q).scanned, fun q => (told q).childless, fun q => (told q).link,
    fun q => (told q).woken,
    fun q p hl => (told q).leaving hl p, dozes⟩

/-! ### Going to sleep in `wait` -/

/-- A process starts to doze with `wait_lock`, and with no child that has exited. -/
def Settles (s s' : Sys) : Prop := ∀ p, Dozes s' p →
  Dozes s p ∨ (s.pc p).holdsWait = true ∧ ∀ j, (s.slots j).parent = some p → (s.slots j).state ≠ .zombie

theorem Dozes.of_beside (h : Dozes s' p) (hb : Beside s s' a p) : Dozes s p := by
  obtain ⟨ch, lk, h⟩ := h
  refine ⟨ch, lk, ?_⟩
  cases hb.pc with
  | inl hpc =>
      rw [hpc] at h
      rcases h with h | h | ⟨h1, h2, h3⟩
      · exact .inl h
      · exact .inr (.inl h)
      · have hs := (hb.asleep h2).1
        exact .inr (.inr ⟨h1, hs, hb.context hs ▸ h3⟩)
  | inr hpc =>
      obtain ⟨-, k, hpc⟩ := hpc
      simp [hpc] at h

theorem Dozes.of_own (h : Dozes s' p) (ho : Own s s' p) : Dozes s p ∨ ∃ ch lk,
    s.pc p = .sleep2 ch lk .wait := by
  obtain ⟨ch, lk, h⟩ := h
  cases ho with
  | call hpc hn hq hl hk => simp [hpc] at h
  | lock hb hpc hn hq hl => simp [hpc] at h
  | release hb hpc hn hq =>
      simp only [hpc, Pc.sleep3.injEq, reduceCtorEq, false_and, or_false] at h
      obtain ⟨rfl, rfl, rfl⟩ := h
      exact .inr ⟨_, _, hb⟩
  | sleep hb hpc hn hc hk =>
      simp only [hpc, Pc.sched.injEq, Resume.sleep.injEq, reduceCtorEq, false_and, or_false,
        false_or] at h
      obtain ⟨rfl, rfl, rfl⟩ := h
      exact .inl ⟨_, _, .inl hb⟩
  | away hb hpc hc hn hq =>
      simp only [hpc, reduceCtorEq, true_and, false_or] at h
      refine .inl ⟨ch, lk, .inr (.inl ?_)⟩
      rw [hb, ← hc, h.2]
  | calm hpc hn hs =>
      rcases h with h | h | h
      · simp [h, Pc.falling] at hpc
      · simp [h, Pc.falling] at hpc
      · exact absurd h.2.1 hs

theorem Family.settles (h : Family s) (hr : Reachable s) (ht : step s a = some s') : Settles s s' := by
  intro p hd
  cases step_or_beside hr ht p with
  | inr hb => exact .inl (hd.of_beside hb)
  | inl ho =>
      refine (hd.of_own (own_thread hr.ok ho.1 ho.2)).imp_right fun ⟨ch, lk, hpc⟩ =>
        ⟨by rw [hpc]; rfl, fun j hj => ?_⟩
      intro hz
      refine h.scanned p j ?_ hj hz
      rw [hpc]
      exact h.bound j (by simp [hz])

theorem WaitLock.one (h : WaitLock s) (hp : (s.pc p).holdsWait = true)
    (hq : (s.pc q).holdsWait = true) : p = q :=
  Option.some.inj (((h.holder p).2 hp).symm.trans ((h.holder q).2 hq))

theorem Pc.holdsWait_of_waker {k : Pc} {x : ℕ × ℕ} (h : k.waker = some x) : k.holdsWait = true := by
  cases k <;> simp only [Pc.waker, reduceCtorEq] at h
  rename_i ch i b
  cases b <;> cases ch <;> simp_all [Pc.holdsWait]

theorem Pc.holdsWait_of_leaving {k : Pc} (h : k.leaving = true) : k.holdsWait = true := by
  cases k <;> simp_all [Pc.leaving, Pc.holdsWait]

/-! ### Steps that keep the parents -/

/-- The parents stay, no process exits, and the processes that start have a parent. -/
structure Kin (s s' : Sys) : Prop where
  parent : ∀ j, (s'.slots j).parent = (s.slots j).parent
  zombie : ∀ j, (s'.slots j).state = .zombie → (s.slots j).state = .zombie
  alive : ∀ j, (s.slots j).Alive → (s'.slots j).Alive
  born : ∀ j, (s'.slots j).Alive → (s.slots j).Alive ∨ (s.slots j).parent ≠ none
  bound : ∀ j, (s'.slots j).state ≠ .unused → j < NPROC
  init : s'.initproc = s.initproc

theorem Dozes.not_holds (h : Dozes s p) : (s.pc p).holdsWait = false := by
  obtain ⟨ch, lk, h | h | h⟩ := h
  · rw [h]
    rfl
  · rw [h]
    rfl
  · rw [h.1]
    rfl

theorem Slot.Alive.used {x : Slot} (h : x.Alive) : x.state ≠ .unused := by
  rcases h with h | h | h <;> simp [h]

section positions
variable {k : Pc}

/-- What the invariant says of a thread, it says of one that holds `wait_lock`. -/
theorem quiet_of_not_holds (h : k.holdsWait = false) : k.passed = 0 ∧ k.scanned = 0 ∧ k.childless = 0 ∧
    k.waker = none ∧ k.leaving = false ∧ ∀ ch i st, k ≠ .wakeup ch i (.exit st) := by
  cases k
  case wakeup ch i b =>
      cases b
      case user | sleep => all_goals rcases ch with _ | x <;>
        simp [Pc.passed, Pc.scanned, Pc.childless, Pc.waker, Pc.leaving]
      all_goals simp [Pc.holdsWait] at h
  case test ch lk r | sleep1 ch lk r | sleep2 ch lk r =>
      all_goals cases r <;> simp_all [Pc.holdsWait, Pc.passed, Pc.scanned, Pc.childless, Pc.waker,
        Pc.leaving]
  all_goals simp_all [Pc.holdsWait, Pc.passed, Pc.scanned, Pc.childless, Pc.waker, Pc.leaving]

namespace Told

theorem plain (h : k.plain) : Told s q k := by
  obtain ⟨p1, p2, p3, p4, p5, p6, p7, p8⟩ := h
  exact ⟨fun _ => p8, fun np he => absurd he (p4 np), by simp [p1], by simp [p2], by simp [p3],
    fun ch i st he => absurd he (p5 ch i st), by simp [p6], by simp [p7]⟩

theorem quiet (h : k.holdsWait = false) (hi : q = s.initproc → k.exiting = false)
    (hf : ∀ np, k = .fork3 np → (s.slots np).parent = some q) : Told s q k := by
  obtain ⟨q1, q2, q3, q4, q5, q6⟩ := quiet_of_not_holds h
  exact ⟨hi, hf, by simp [q1], by simp [q2], by simp [q3], fun ch i st he => absurd he (q6 ch i st),
    by simp [q4], by simp [q5]⟩

/-- What is said of a thread that does not move: its children are not new, and while it holds
`wait_lock` nobody starts to doze. -/
theorem mono (h : Told s q k) (hi : s'.initproc = s.initproc)
    (hf : ∀ np, k = .fork3 np → (s.slots np).parent = some q → (s'.slots np).parent = some q)
    (hc : ∀ j, (s'.slots j).parent = some q → (s.slots j).parent = some q ∧
      ((s'.slots j).state = .zombie → (s.slots j).state = .zombie))
    (hp : k.holdsWait = true → (s'.slots q).parent = (s.slots q).parent)
    (hd : k.holdsWait = true → ∀ p, Dozes s' p → Dozes s p) : Told s' q k where
  init he := h.init (he.trans hi)
  fork np hk := hf np hk (h.fork np hk)
  passed j hj hq := h.passed j hj (hc j hq).1
  scanned j hj hq hz := h.scanned j hj (hc j hq).1 ((hc j hq).2 hz)
  childless j hj hq := h.childless j hj (hc j hq).1
  link ch i st hk := by
    rw [hp (by rw [hk]; rfl)]
    exact h.link ch i st hk
  woken p i hk hpi hdp := h.woken p i hk hpi (hd (Pc.holdsWait_of_waker hk) p hdp)
  leaving hk p hq hdp := by
    have hw := Pc.holdsWait_of_leaving hk
    exact h.leaving hk p (hp hw ▸ hq) (hd hw p hdp)

theorem kin (h : Told s q k) (hk : Kin s s')
    (hd : k.holdsWait = true → ∀ p, Dozes s' p → Dozes s p) : Told s' q k :=
  h.mono hk.init (fun np _ hq => (hk.parent np).trans hq)
    (fun j hj => ⟨hk.parent j ▸ hj, hk.zombie j⟩) (fun _ => hk.parent q) hd

end Told

/-- One thread moves to a position of which the invariant holds. -/
theorem Family.goto (h : Family s) (hk : Kin s s') (hpc : s'.pc = update s.pc q k) (hw : WaitLock s)
    (hd : Settles s s') (hq : Told s' q k)
    (hp : ∀ p i, (s.pc q).waker = some (p, i) → i ≤ p → p < NPROC →
      (∃ i', k.waker = some (p, i') ∧ i' ≤ p) ∨ ¬ Dozes s' p) :
    Family s' := by
  have hne : ∀ r, r ≠ q → s'.pc r = s.pc r := fun r hr => by rw [hpc, update_of_ne hr]
  have heq : s'.pc q = k := by rw [hpc, update_self]
  refine .of_told hk.bound (hk.init ▸ hk.alive _ h.init.1)
    (fun j r hj => hk.alive r (h.alive j r (hk.parent j ▸ hj))) (fun j hj hor => ?_) (fun r => ?_)
    (fun p j hdp hj hz => ?_)
  · rw [hk.init] at hj
    rw [hk.parent]
    cases hor with
    | inl ha => exact (hk.born j ha).elim (fun ha => h.parent j hj (.inl ha)) id
    | inr hz => exact h.parent j hj (.inr (hk.zombie j hz))
  · by_cases he : r = q
    · rw [he, heq]
      exact hq
    · -- a process that starts to doze held the lock, so that no other thread was in a section of it
      rw [hne r he]
      refine (h.told r).kin hk fun hr p hdp => (hd p hdp).resolve_right fun hx => ?_
      have hrp := hw.one hr hx.1
      subst hrp
      have := hdp.not_holds
      rw [hne r he, hr] at this
      cases this
  · rw [hk.parent] at hj
    have hz := hk.zombie j hz
    cases hd p hdp with
    | inr hx => exact absurd hz (hx.2 j hj)
    | inl hdp' =>
        obtain ⟨r, i, hr, hi⟩ := h.dozes p j hdp' hj hz
        by_cases he : r = q
        · subst he
          cases hp p i hr hi (h.bound p (h.alive j p hj).used) with
          | inl hx =>
              obtain ⟨i', hx, hi'⟩ := hx
              exact ⟨r, i', heq ▸ hx, hi'⟩
          | inr hx => exact absurd hdp hx
        · exact ⟨r, i, hne r he ▸ hr, hi⟩

theorem Family.stay (h : Family s) (hk : Kin s s') (hpc : s'.pc = s.pc) (hw : WaitLock s)
    (hd : Settles s s') : Family s' := by
  refine h.goto (q := 0) (k := s.pc 0) hk (by rw [hpc, update_eq_self]) hw hd
    ((h.told 0).kin hk fun _ p hdp => ?_) fun p i hi hip _ => .inl ⟨i, hi, hip⟩
  refine (hd p hdp).resolve_right fun hx => ?_
  have := hdp.not_holds
  rw [hpc, hx.1] at this
  cases this

end positions

/-! ### Slots -/

theorem Kin.refl (h : Family s) (hs : s'.slots = s.slots) (hi : s'.initproc = s.initproc) :
    Kin s s' := by
  constructor <;> simp only [hs, hi]
  · simp
  · exact fun _ hz => hz
  · exact fun _ ha => ha
  · exact fun _ ha => .inl ha
  · exact h.bound

theorem Kin.set (h : Family s) {i : ℕ} {x : Slot} (hs : s'.slots = update s.slots i x)
    (hi : s'.initproc = s.initproc) (hp : x.parent = (s.slots i).parent)
    (hz : x.state = .zombie → (s.slots i).state = .zombie) (ha : (s.slots i).Alive → x.Alive)
    (hb : x.Alive → (s.slots i).Alive ∨ (s.slots i).parent ≠ none)
    (hu : x.state ≠ .unused → i < NPROC) : Kin s s' := by
  have := h.bound
  refine ⟨fun j => ?_, fun j => ?_, fun j => ?_, fun j => ?_, fun j => ?_, hi⟩ <;> rw [hs] <;> grind

theorem Kin.live (h : Family s) {i : ℕ} {x : Slot} (hs : s'.slots = update s.slots i x)
    (hi : s'.initproc = s.initproc) (hp : x.parent = (s.slots i).parent) (ha : (s.slots i).Alive)
    (hx : x.Alive) : Kin s s' := by
  refine .set h hs hi hp (fun hz => ?_) (fun _ => hx) (fun _ => .inl ha) (fun _ => h.bound i ha.used)
  rcases hx with hx | hx | hx <;> simp [hx] at hz

theorem Kin.wakeup (h : Family s) {i : ℕ} {chan : Option Chan}
    (hs : s'.slots = (wakeupSlot s i chan).slots) (hi : s'.initproc = s.initproc) : Kin s s' := by
  unfold wakeupSlot at hs
  split at hs
  · rename_i hx
    exact .live h hs hi rfl (.inr (.inr hx.1)) (.inl rfl)
  · exact .refl h hs hi

theorem Kin.kill (h : Family s) {i : ℕ} (hs : s'.slots = update s.slots i (killSlot (s.slots i)))
    (hi : s'.initproc = s.initproc) : Kin s s' := by
  by_cases hx : (s.slots i).state = .sleeping
  · exact .live h hs hi rfl (.inr (.inr hx)) (.inl (by simp [killSlot, hx]))
  · have he : (killSlot (s.slots i)).state = (s.slots i).state := by simp [killSlot, hx]
    refine .set h hs hi rfl (fun hz => he ▸ hz) ?_ ?_ (fun hu => h.bound i (he ▸ hu))
    · simp only [Slot.Alive, he]
      exact id
    · simp only [Slot.Alive, he]
      exact .inl

/-! ### The wakeup under `wait_lock` -/

/-- The section of the scan for `p` wakes it up, if it is asleep in `wait`. -/
theorem not_dozes_of_wakeup (hr : Reachable s) (hl : s.plock p = none) {k : Pc} (hq : q ≠ p) :
    ¬ Dozes ((wakeupSlot s p (some (.proc p))).setPc q k) p := by
  intro ⟨ch, lk, h⟩
  have hpc : ((wakeupSlot s p (some (.proc p))).setPc q k).pc p = s.pc p := by
    unfold wakeupSlot
    split <;> exact update_of_ne hq.symm _ _
  have hctx : ((wakeupSlot s p (some (.proc p))).setPc q k).context p = s.context p := by
    unfold wakeupSlot
    split <;> rfl
  have own : s.pc p ≠ .off → (s.pc p).own = false := by
    intro hon
    obtain ⟨c, hc⟩ := hr.ok.inv.on_cpu hon
    have := (hr.ok.inv.runs hc).2.2.lock
    simpa [hl] using this
  rw [hpc, hctx] at h
  rcases h with h | h | ⟨h1, h2, h3⟩
  · exact absurd (own (by simp [h])) (by simp [h, Pc.own])
  · exact absurd (own (by simp [h])) (by simp [h, Pc.own])
  · -- it sleeps on its own address, which is the channel of the wakeup
    unfold wakeupSlot at h2
    split at h2
    · simp [Sys.setPc] at h2
    · rename_i hno
      have hs : (s.slots p).state = .sleeping := h2
      obtain ⟨lk', r, hc⟩ := (hr.ok.inv.idle_rests hl (by simp [hs])).sleeping hs
      rw [h3] at hc
      have hf := hr.waitLock.context p
      simp only [Resume.sleep.injEq] at hc
      rw [h3] at hf
      refine hno ⟨hs, ?_⟩
      rw [← hc.1]
      exact hf.2.1 rfl

namespace Family

theorem scan_step (h : Family s) (hr : Reachable s) {chan : Option Chan} {i : ℕ} {b : After}
    (hd : Settles s s') (hk : s.pc q = .wakeup chan i b)
    (hpc : s'.pc = update s.pc q (.wakeup chan (i + 1) b)) (hs : Kin s s')
    (hv : ∀ p, chan = some (.proc p) → i = p → ¬ Dozes s' p) : Family s' := by
  have hw := hr.waitLock
  have told := h.told q
  rw [hk] at told
  by_cases hb : (Pc.wakeup chan i b).holdsWait = false
  · have hquiet : (Pc.wakeup chan (i + 1) b).holdsWait = false ∧
        (Pc.wakeup chan (i + 1) b).exiting = false := by
      cases b <;> simp_all [Pc.holdsWait, Pc.exiting]
    exact h.goto hs hpc hw hd (.quiet hquiet.1 (fun _ => hquiet.2) (by simp))
      (by simp [hk, (quiet_of_not_holds hb).2.2.2.1])
  -- a process does not start to doze while this thread holds the lock
  have hold : ∀ n, (Pc.wakeup chan n b).holdsWait = true := by
    intro n
    cases b <;> simp_all [Pc.holdsWait]
  have start : ∀ p, Dozes s' p → Dozes s p := by
    intro p hdp
    refine (hd p hdp).resolve_right fun hx => ?_
    have hqp : q = p := hw.one (hk ▸ hold i) hx.1
    subst hqp
    have := hdp.not_holds
    rw [hpc, update_self, hold] at this
    cases this
  have waker : ∀ n p j, (Pc.wakeup chan n b).waker = some (p, j) ↔ chan = some (.proc p) ∧ n = j := by
    intro n p j
    rcases chan with _ | x
    · simp [Pc.waker]
    · cases x <;> cases b <;> simp_all [Pc.waker, Pc.holdsWait]
  refine h.goto hs hpc hw hd { init := ?_, passed := ?_, link := ?_, woken := ?_ } ?_
  · intro hqi
    have := told.init (hqi.trans hs.init)
    cases b <;> simp_all [Pc.exiting]
  · intro j hj
    rw [hs.parent]
    exact told.passed j (by cases b <;> exact hj)
  · intro ch j st he
    simp only [Pc.wakeup.injEq] at he
    obtain ⟨rfl, -, rfl⟩ := he
    rw [hs.parent]
    exact told.link _ _ _ rfl
  · intro p j hj hpj hdp
    obtain ⟨hc, rfl⟩ := (waker _ p j).1 hj
    by_cases hip : i = p
    · exact hv p hc hip hdp
    · exact told.woken p i ((waker i p i).2 ⟨hc, rfl⟩) (by omega) (start p hdp)
  · intro p j hj hjp _
    rw [hk] at hj
    obtain ⟨hc, rfl⟩ := (waker _ p j).1 hj
    by_cases hip : i = p
    · exact .inr (hv p hc hip)
    · exact .inl ⟨i + 1, (waker _ p _).2 ⟨hc, rfl⟩, by omega⟩

/-! ### The four steps that change parents or end a process -/

theorem pending_of_ne (h : Pending s p) (hq : (s.pc q).waker = none)
    (hne : ∀ r, r ≠ q → s'.pc r = s.pc r) : Pending s' p := by
  obtain ⟨r, i, hr, hi⟩ := h
  have hrq : r ≠ q := by
    rintro rfl
    simp [hq] at hr
  exact ⟨r, i, hne r hrq ▸ hr, hi⟩

/-- `fork` sets the parent of its child, which no thread runs yet. -/
theorem fork2_step (h : Family s) (hok : Ok s) {np : ℕ} (hk : s.pc q = .fork2 np)
    (hq : (s.slots q).Alive) (hs : s'.slots = update s.slots np { s.slots np with parent := some q })
    (hpc : s'.pc = update s.pc q (.fork3 np)) (hi : s'.initproc = s.initproc)
    (hd : ∀ p, Dozes s' p → Dozes s p) : Family s' := by
  have hused : (s.slots np).state = .used := hok.forks.used q np (by rw [hk]; rfl)
  have hoff : s.pc np = .off := by
    by_contra hon
    obtain ⟨c, hc⟩ := hok.inv.on_cpu hon
    have hst := (hok.inv.runs hc).2.2.state
    rw [hused] at hst
    generalize s.pc np = k at hst
    cases k <;> simp only [Pc.state, reduceCtorEq] at hst
    rename_i r
    cases r <;> simp [Resume.state] at hst
  have hne : ∀ r, r ≠ q → s'.pc r = s.pc r := fun r hr => by rw [hpc, update_of_ne hr]
  have hst : ∀ j, (s'.slots j).state = (s.slots j).state := by
    intro j
    by_cases hj : j = np <;> simp [hs, hj]
  have hal : ∀ j, (s'.slots j).Alive ↔ (s.slots j).Alive := fun j => by simp [Slot.Alive, hst]
  have hpar : ∀ j, (s'.slots j).parent = if j = np then some q else (s.slots j).parent := fun j => by
    by_cases hj : j = np <;> simp [hs, hj]
  have hbound := h.bound
  have halive := h.alive
  have hparent := h.parent
  refine .of_told (by grind) (by rw [hi, hal]; exact h.init.1) (by grind) (by grind) (fun r => ?_)
    (fun p j hdp hj hz => ?_)
  · by_cases he : r = q
    · rw [he, hpc, update_self]
      refine .quiet rfl (fun _ => rfl) fun m hm => ?_
      cases hm
      simp [hpar]
    · rw [hne r he]
      have hone := hok.forks.one r q np
      refine (h.told r).mono hi (by grind [Pc.child]) (by grind) (fun hh => ?_) fun _ => hd
      have : r ≠ np := by
        rintro rfl
        rw [hoff] at hh
        cases hh
      simp [hpar, this]
  · refine pending_of_ne (h.dozes p j (hd p hdp) ?_ ?_) (by rw [hk]; rfl) hne <;> grind

/-- A step of the holder of `wait_lock`: the invariant says nothing of the other threads. -/
theorem of_holder (h : Family s) (hw : WaitLock s) {k : Pc} (hq : (s.pc q).holdsWait = true)
    (hpc : s'.pc = update s.pc q k) (hi : s'.initproc = s.initproc)
    (bound : ∀ j, (s'.slots j).state ≠ .unused → j < NPROC) (init : (s'.slots s.initproc).Alive)
    (alive : ∀ j q, (s'.slots j).parent = some q → (s'.slots q).Alive)
    (parent : ∀ j, j ≠ s.initproc → (s'.slots j).Alive ∨ (s'.slots j).state = .zombie →
      (s'.slots j).parent ≠ none)
    (fork : ∀ r np, r ≠ q → s.pc r = .fork3 np → (s'.slots np).parent = some r) (told : Told s' q k)
    (dozes : ∀ p j, Dozes s' p → (s'.slots j).parent = some p → (s'.slots j).state = .zombie →
      Pending s' p) :
    Family s' := by
  refine .of_told bound (hi ▸ init) alive (hi ▸ parent) (fun r => ?_) dozes
  by_cases he : r = q
  · rw [he, hpc, update_self]
    exact told
  · rw [hpc, update_of_ne he]
    refine .quiet ?_ (fun hr => (h.told r).init (hr.trans hi)) fun np => fork r np he
    by_contra hn
    exact he (hw.one (by simpa using hn) hq)

/-- `reparent` gives a child to the first process, and goes on to wake that up. -/
theorem reparent_step (h : Family s) (hw : WaitLock s) {i : ℕ} {st : ℤ}
    (hk : s.pc q = .reparent i st) (hc : (s.slots i).parent = some q)
    (hs : s'.slots = update s.slots i { s.slots i with parent := some s.initproc })
    (hpc : s'.pc = update s.pc q (.wakeup (some (.proc s.initproc)) 0 (.reparent (i + 1) st)))
    (hi : s'.initproc = s.initproc) (hd : ∀ p, Dozes s' p → Dozes s p) : Family s' := by
  have hst : ∀ j, (s'.slots j).state = (s.slots j).state := by
    intro j
    by_cases hj : j = i <;> simp [hs, hj]
  have hal : ∀ j, (s'.slots j).Alive ↔ (s.slots j).Alive := fun j => by simp [Slot.Alive, hst]
  have hpar : ∀ j, (s'.slots j).parent = if j = i then some s.initproc else (s.slots j).parent :=
      fun j => by
    by_cases hj : j = i <;> simp [hs, hj]
  have hqi : q ≠ s.initproc := by
    intro he
    have := (h.told q).init he
    rw [hk] at this
    cases this
  have hpassed := h.passed q
  rw [hk] at hpassed
  have hinit := h.init.1
  have halive := h.alive
  have hparent := h.parent
  have hfork := h.fork
  refine h.of_holder hw (by rw [hk]; rfl) hpc hi (fun j hj => h.bound j (hst j ▸ hj))
    ((hal _).2 hinit) (by grind) (by grind) (by grind)
    { init := fun he => absurd (he.trans hi) hqi, passed := by grind [Pc.passed], woken := ?_ } ?_
  · intro p j hj hpj
    simp only [Pc.waker, Option.some.injEq, Prod.mk.injEq] at hj
    omega
  · intro p j hdp hj hz
    by_cases hp : p = s.initproc
    · subst hp
      refine ⟨q, 0, ?_, Nat.zero_le _⟩
      rw [hpc, update_self]
      rfl
    · refine pending_of_ne (q := q) (h.dozes p j (hd p hdp) ?_ ?_) (by rw [hk]; rfl) fun r hr => ?_
      · grind
      · grind
      · rw [hpc, update_of_ne hr]

/-- `exit` ends a process that has no children left, and whose parent does not doze. -/
theorem exit_step (h : Family s) (hw : WaitLock s) {st : ℤ} {x : Slot} (hk : s.pc q = .exit3 st)
    (hq : (s.slots q).Alive) (hcl : Clean False s) (hs : s'.slots = update s.slots q x)
    (hxp : x.parent = (s.slots q).parent) (hpc : s'.pc = update s.pc q .exit4)
    (hi : s'.initproc = s.initproc) (hd : ∀ p, Dozes s' p → Dozes s p) : Family s' := by
  have hpar : ∀ j, (s'.slots j).parent = (s.slots j).parent := by
    intro j
    by_cases hj : j = q <;> simp [hs, hj, hxp]
  have hst : ∀ j, j ≠ q → (s'.slots j).state = (s.slots j).state := fun j hj => by simp [hs, hj]
  have hal : ∀ j, j ≠ q → ((s'.slots j).Alive ↔ (s.slots j).Alive) :=
    fun j hj => by simp [Slot.Alive, hst j hj]
  have hqi : q ≠ s.initproc := by
    intro he
    have := (h.told q).init he
    rw [hk] at this
    cases this
  have hno : ∀ j, (s.slots j).parent ≠ some q := by
    intro j hj
    have hjb : j < NPROC := by
      refine h.bound j fun hu => ?_
      simp [(hcl.slot j hu).2.1] at hj
    exact h.passed q j (by rw [hk]; exact hjb) hj
  have hbound := h.bound
  have halive := h.alive
  have hparent := h.parent
  have hfork := h.fork
  have hleaving := h.leaving q
  rw [hk] at hleaving
  refine h.of_holder hw (by rw [hk]; rfl) hpc hi (by grind [Slot.Alive])
    ((hal _ hqi.symm).2 h.init.1) (by grind) (by grind) (by grind)
    { init := fun he => absurd (he.trans hi) hqi } fun p j hdp hj hz => ?_
  refine pending_of_ne (q := q) (h.dozes p j (hd p hdp) ?_ ?_) (by rw [hk]; rfl) fun r hr => ?_
  · grind
  · grind [Pc.leaving]
  · rw [hpc, update_of_ne hr]

theorem free_step (h : Family s) (hw : WaitLock s) {i : ℕ} (hq : (s.pc q).holdsWait = true)
    (hb : (s.pc q).waker = none) (hz : (s.slots i).state = .zombie) (hf : ∀ r, s.pc r ≠ .fork3 i)
    (hs : s'.slots = update s.slots i freeproc) (hpc : s'.pc = update s.pc q .user)
    (hi : s'.initproc = s.initproc) (hd : ∀ p, Dozes s' p → Dozes s p) : Family s' := by
  have hsl : ∀ j, s'.slots j = if j = i then freeproc else s.slots j :=
    fun j => by by_cases hj : j = i <;> simp [hs, hj]
  have hbound := h.bound
  have hinit := h.init.1
  have halive := h.alive
  have hparent := h.parent
  have hfork := h.fork
  refine h.of_holder hw hq hpc hi ?_ ?_ ?_ ?_ (by grind) (.quiet rfl (fun _ => rfl) (by simp))
    fun p j hdp hj hzj => ?_
  · grind [freeproc]
  · grind [Slot.Alive]
  · grind [Slot.Alive, freeproc]
  · grind [Slot.Alive, freeproc]
  · refine pending_of_ne (q := q) (h.dozes p j (hd p hdp) ?_ ?_) hb fun r hr => ?_
    · grind [freeproc]
    · grind [freeproc]
    · rw [hpc, update_of_ne hr]

/-! ### All steps -/

theorem thread_step (h : Family s) (hr : Reachable s) (hp : (s.cpus a.cpu).pos = .thread q)
    (hd : Settles s s') (ht : Thread s a.cpu q a (s.pc q) s') : Family s' := by
  have hw := hr.waitLock
  have hst := (hr.ok.inv.runs hp).2.2.state
  have hused := hr.ok.forks.used q
  have told := h.told q
  generalize hk : s.pc q = k at ht hst hused told
  have init : k.exiting = true → q ≠ s.initproc := fun hx he => absurd (told.init he) (by simp [hx])
  have live : k.state = .running → (s.slots q).Alive := fun hs => .inr (.inl (hst.trans hs))
  have same : ∀ {u : Sys}, u.slots = s.slots → u.initproc = s.initproc → Kin s u :=
    fun h1 h2 => .refl h h1 h2
  have hold : k.holdsWait = true → (s'.pc q).holdsWait = true ∨
      (s'.pc q = .user ∨ s'.pc q = .exit4) → ∀ p, Dozes s' p → Dozes s p := by
    intro hh hq p hdp
    refine (hd p hdp).resolve_right fun hx => ?_
    have hqp : q = p := hw.one (hk ▸ hh) hx.1
    subst hqp
    have hno := hdp.not_holds
    obtain ⟨ch, lk, hdp⟩ := hdp
    rcases hq with hq | hq | hq
    · rw [hq] at hno
      cases hno
    · simp [hq] at hdp
    · simp [hq] at hdp
  have goto : ∀ {m : Pc}, Kin s s' → s'.pc = update s.pc q m → Told s' q m → k.waker = none →
      Family s' :=
    fun h1 h2 h3 h4 => h.goto h1 h2 hw hd h3 (by simp [hk, h4])
  have quiet : ∀ {m : Pc}, Kin s s' → s'.pc = update s.pc q m → m.holdsWait = false →
      m.exiting = false → (∀ np, m ≠ .fork3 np) → k.waker = none → Family s' :=
    fun h1 h2 h3 h4 h5 => goto h1 h2 (.quiet h3 (fun _ => h4) fun np hm => absurd hm (h5 np))
  -- the process that was to be woken has been passed
  have passed : ∀ {chan i b}, k = .wakeup chan i b → ¬ i < NPROC → ∀ (C : ℕ → Prop) p j,
      (s.pc q).waker = some (p, j) → j ≤ p → p < NPROC → C p := by
    rintro chan i b rfl hi C p j hj hjp hpb
    rw [hk] at hj
    rcases chan with _ | x
    · simp [Pc.waker] at hj
    · cases x <;> cases b <;> simp [Pc.waker] at hj
      all_goals omega
  cases ht with
  | user hc =>
      have self : s.pc = update s.pc q .user := by rw [← hk, update_eq_self]
      generalize a.call = x at hc
      cases hc with
      | setkilled hl =>
          exact quiet (.live h rfl rfl rfl (live rfl) (live rfl)) self rfl rfl (by simp) rfl
      | acquire | release => exact quiet (same rfl rfl) self rfl rfl (by simp) rfl
      | exit hp => exact goto (same rfl rfl) rfl { init := fun he => absurd he hp } rfl
      | _ => exact quiet (same rfl rfl) rfl rfl rfl (by simp) rfl
  | yield2
  | sleep3 =>
      exact quiet (.live h rfl rfl rfl (live rfl) (by simp [Slot.Alive])) rfl rfl rfl (by simp) rfl
  | resumedSleep => exact quiet (.live h rfl rfl rfl (live rfl) (live rfl)) rfl rfl rfl (by simp) rfl
  | @testNot ch lk r _ _ | @sleep1 ch lk r _ =>
      exact goto (same rfl rfl) rfl
        { init := fun _ => rfl, scanned := fun j hj => told.scanned j (by cases r <;> exact hj) } rfl
  | @sleep4 lk r hl =>
      refine goto (same rfl rfl) rfl (.plain ?_) rfl
      split <;> exact ⟨rfl, rfl, rfl, by simp, by simp, rfl, rfl, rfl⟩
  | wait1 hl =>
      exact goto (same rfl rfl) rfl (.plain ⟨rfl, rfl, rfl, by simp, by simp, rfl, rfl, rfl⟩) rfl
  | sched hp' => exact quiet (m := .off) (same rfl rfl) rfl rfl rfl (by simp) rfl
  | @wakeupSelf chan b hi =>
      refine h.scan_step hr hd hk rfl (same rfl rfl) fun p hc hqp => ?_
      subst hqp
      rintro ⟨ch, lk, hdp⟩
      simp at hdp
  | @wakeupNext chan i b hi hn hl =>
      have hi' : ∀ k', ((wakeupSlot s i chan).setPc q k').initproc = s.initproc := by
        intro k'
        unfold wakeupSlot
        split <;> rfl
      have hpc : ∀ k', ((wakeupSlot s i chan).setPc q k').pc = update s.pc q k' := by
        intro k'
        unfold wakeupSlot
        split <;> rfl
      refine h.scan_step hr hd hk (hpc _) (.wakeup h rfl (hi' _)) fun p hc hip => ?_
      subst hip hc
      exact not_dozes_of_wakeup hr hl hn.symm
  | @wakeupDone chan i b hi =>
      have hpass := passed rfl hi
      cases b with
      | user =>
          exact h.goto (k := .user) (same rfl rfl) rfl hw hd (.quiet rfl (fun _ => rfl) (by simp))
            (hpass _)
      | sleep ch lk =>
          exact h.goto (k := .woken ch lk) (same rfl rfl) rfl hw hd
            (.quiet rfl (fun _ => rfl) (by simp)) (hpass _)
      | reparent m st =>
          exact h.goto (k := .reparent m st) (same rfl rfl) rfl hw hd
            { init := fun he => absurd he (init rfl), passed := told.passed } (hpass _)
      | exit st =>
          have start := hold rfl (.inl (by simp [afterWakeup, Pc.holdsWait]))
          refine h.goto (k := .exit2 st) (same rfl rfl) rfl hw hd
            { init := fun he => absurd he (init rfl), passed := told.passed,
              leaving := fun _ p hpp hdp => ?_ } (hpass _)
          have hb := h.bound p (h.alive q p hpp).used
          refine told.woken p i ?_ (by omega) (start p hdp)
          rw [told.link chan i st rfl, show (s.slots q).parent = some p from hpp]
          rfl
  | killHit hi hl => exact quiet (.kill h rfl rfl) rfl rfl rfl (by simp) rfl
  | @forkFail i hi hl hu =>
      refine quiet (.set h rfl rfl ?_ (by simp [freeproc]) (by simp [Slot.Alive, hu])
        (by simp [Slot.Alive, freeproc]) (by simp [freeproc])) rfl rfl rfl (by simp) rfl
      rw [(hr.clean.slot i hu).2.1]
      rfl
  | @forkAlloc i hi hl hu =>
      have hpc : ((allocSlot s i).setPc q (.fork2 i)).pc = update s.pc q (.fork2 i) := by
        simp [allocSlot, Sys.setPc, Sys.setContext, Sys.setNextpid, Sys.setSlot,
          ← (hr.ok.inv.idle_rests hl (by simp [hu])).off]
      exact quiet (.set h rfl rfl rfl (by simp) (by simp [Slot.Alive, hu]) (by simp [Slot.Alive])
        (fun _ => hi)) hpc rfl rfl (by simp) rfl
  | @fork2 np hl =>
      refine h.fork2_step hr.ok hk (live rfl) rfl rfl rfl fun p hdp => ?_
      refine (hd p hdp).resolve_right fun hx => ?_
      rw [(hw.holder p).2 hx.1] at hl
      cases hl
  | @fork3 np hl =>
      have hu := hused np rfl
      refine quiet (.set h rfl rfl rfl (by simp) (by simp [Slot.Alive, hu]) (fun _ => .inr ?_)
        fun _ => ?_) rfl rfl rfl (by simp) rfl
      · simp [told.fork np rfl]
      · exact h.bound np (by simp [hu])
  | exit1 hl => exact goto (same rfl rfl) rfl { init := fun he => absurd he (init rfl) } rfl
  | @reparentHit i st hi he =>
      exact h.reparent_step hw hk he rfl rfl rfl (hold rfl (.inl (by simp [Pc.holdsWait])))
  | @reparentNext i st hi he =>
      refine goto (same rfl rfl) rfl
        { init := fun he => absurd he (init rfl), passed := fun j hj => ?_ } rfl
      by_cases hji : j = i
      · exact hji ▸ he
      · exact told.passed j (by simp only [Pc.passed] at hj ⊢; omega)
  | @reparentDone i st hi =>
      refine goto (same rfl rfl) rfl
        { init := fun he => absurd he (init rfl)
          passed := fun j hj => ?_
          link := fun ch j st' he => ?_
          woken := fun p j hj hpj => ?_ } rfl
      · exact told.passed j (by simp only [Pc.passed] at hj ⊢; omega)
      · simp only [Pc.wakeup.injEq] at he
        exact he.1.symm
      · cases hpar : (s.slots q).parent <;> simp [hpar, Pc.waker] at hj
        omega
  | exit2 hl =>
      have start := hold rfl (.inl (by simp [Pc.holdsWait]))
      exact goto (same rfl rfl) rfl
        { init := fun he => absurd he (init rfl)
          passed := told.passed
          leaving := fun _ p hpp hdp => told.leaving rfl p hpp (start p hdp) } rfl
  | exit3 =>
      exact h.exit_step hw hk (live rfl) hr.clean rfl rfl rfl rfl
        (hold rfl (.inr (.inr (update_self ..))))
  | @waitNext i hkid hi he =>
      refine goto (same rfl rfl) rfl
        { init := fun _ => rfl, scanned := fun j hj hjq => ?_, childless := fun j hj => ?_ } rfl
      · by_cases hji : j = i
        · exact absurd (hji ▸ hjq) he
        · exact told.scanned j (by simp only [Pc.scanned] at hj ⊢; omega) hjq
      · by_cases hji : j = i
        · exact hji ▸ he
        · refine told.childless j ?_
          cases hkid <;> simp only [Pc.childless, Nat.not_lt_zero] at hj ⊢
          omega
  | @waitChild i hkid hi he hl hz =>
      refine goto (same rfl rfl) rfl { init := fun _ => rfl, scanned := fun j hj hjq => ?_ } rfl
      by_cases hji : j = i
      · exact hji ▸ hz
      · exact told.scanned j (by simp only [Pc.scanned] at hj ⊢; omega) hjq
  | @waitFree i hkid hi he hl hz ha =>
      refine h.free_step hw (by rw [hk]; rfl) (by rw [hk]; rfl) hz (fun r hf => ?_) rfl rfl rfl
        (hold rfl (.inr (.inl (update_self ..))))
      have := hr.ok.forks.used r i (by rw [hf]; rfl)
      simp [hz] at this
  | waitTest hi =>
      refine goto (same rfl rfl) rfl { init := fun _ => rfl, scanned := fun j hj hjq => ?_ } rfl
      exact told.scanned j (by simp only [Pc.scanned] at hj ⊢; omega) hjq
  | _ => exact quiet (same rfl rfl) rfl rfl rfl (by simp) rfl

theorem step (h : Family s) (hr : Reachable s) (ht : Proc.step s a = some s') : Family s' := by
  have hd := h.settles hr ht
  have hw := hr.waitLock
  have hx := hr.ok.inv.cpu a.cpu
  cases step_cases ht with
  | run hp hrun => exact h.stay (.live h rfl rfl rfl (.inl hrun) (.inr (.inl rfl))) rfl hw hd
  | enter hp =>
      simp only [CpuOk, hp] at hx
      refine h.goto (.refl h rfl rfl) rfl hw hd (.plain ?_) (by rw [hx.2.2.2.1]; simp [Pc.waker])
      exact ⟨rfl, rfl, rfl, by simp, by simp, rfl, rfl, rfl⟩
  | @intrNext n j i hp hj hl =>
      refine h.stay (.wakeup h rfl ?_) ?_ hw hd <;> unfold wakeupSlot <;> split <;> rfl
  | @thread i q s' hp hc ht =>
      simp only [CpuOk, hp] at hx
      have hi : i = q := Option.some.inj (hx.1.symm.trans hc)
      subst hi
      exact h.thread_step hr hp hd ht
  | _ => exact h.stay (.refl h rfl rfl) rfl hw hd

theorem boot : Family boot := by
  have hp : ∀ j, (Proc.boot.slots j).parent = none :=
    fun j => by by_cases hj : j = 0 <;> simp [Proc.boot, hj]
  have hz : ∀ j, (Proc.boot.slots j).state ≠ .zombie :=
    fun j => by by_cases hj : j = 0 <;> simp [Proc.boot, hj]
  refine ⟨fun j hj => ?_, ⟨.inl rfl, rfl⟩, ?_, fun j hj hor => ?_, ?_, ?_, ?_, ?_, ?_, ?_, ?_, ?_⟩
  · by_cases hj0 : j = 0
    · simp [hj0, NPROC]
    · simp [Proc.boot, hj0] at hj
  · simp [hp]
  · have hj : j ≠ 0 := hj
    simp [Proc.boot, Slot.Alive, hj] at hor
  all_goals simp [Proc.boot, Pc.passed, Pc.scanned, Pc.childless, Pc.waker, Pc.leaving]
  · intro p j _ hj
    exact absurd hj (by simpa [Proc.boot] using (hp j ▸ by simp : (Proc.boot.slots j).parent ≠ some p))

end Family

theorem Reachable.family (h : Reachable s) : Family s :=
  h.induction Family.boot fun _ _ _ hr hf ht => hf.step hr ht

end Xv6Cow.Proc

import Xv6Cow.Pipe.Model

/-! # The steps on a pipe, and its lock

Every branch of `run` as one case, and the sections of `pi->lock`: the holder is the one process at
a position between `acquire` and `release`. -/

namespace Xv6Cow.Pipe

open Function (update update_of_ne)

variable {N : ℕ} {s s' : Sys} {t : ℕ} {ok : Bool} {a : Act}

theorem wakes_cases {wake : Pc → Pc} {j : ℕ} {k : Pc} (h : wakes s wake t j k = some s') :
    s' = (s.goto j (wake (s.pc j))).goto t k ∧ (j ≠ t → (s.pc j).falls = false) := by
  unfold wakes at h
  split_ifs at h with hj hf <;> simp only [Option.some.injEq] at h <;> subst h
  · subst hj
    refine ⟨?_, fun hn => absurd rfl hn⟩
    simp [Sys.goto]
  · exact ⟨rfl, fun _ => by simpa using hf⟩

/-- The steps of process `t`, by where it is. -/
inductive Ran (N : ℕ) (s : Sys) (t : ℕ) (ok : Bool) : Pc → Sys → Prop
  | wAcq {src : List UInt8} (hl : s.holder = none) (hf : s.freed = false) :
      Ran N s t ok (.wAcq src) ((s.acquire t).goto t (.wTop src 0))
  | wClosed {src : List UInt8} {i : ℕ} (hi : i < src.length) (hr : s.readopen = false) :
      Ran N s t ok (.wTop src i) (s.ret t (-1))
  | wTop {src : List UInt8} {i : ℕ} (hi : i < src.length) (hr : s.readopen = true) :
      Ran N s t ok (.wTop src i) (s.goto t (.wTest src i))
  | wDone {src : List UInt8} {i : ℕ} (hi : ¬ i < src.length) :
    Ran N s t ok (.wTop src i) (s.goto t (.wEnd src i 0))
  | wKilled {src : List UInt8} {i : ℕ} (hk : s.killed t = true) :
    Ran N s t ok (.wTest src i) (s.ret t (-1))
  | wTest {src : List UInt8} {i : ℕ} (hk : s.killed t = false) :
    Ran N s t ok (.wTest src i) (s.goto t (.wBody src i))
  | wFull {src : List UInt8} {i : ℕ} (hf : full s) :
    Ran N s t ok (.wBody src i) (s.goto t (.wWake src i 0))
  | wStore {src : List UInt8} {i : ℕ} (hf : ¬ full s) (ho : ok = true) :
      Ran N s t ok (.wBody src i) ((store s t i (src.getD i 0)).goto t (.wTop src (i + 1)))
  | wFault {src : List UInt8} {i : ℕ} (hf : ¬ full s) (ho : ok = false) :
      Ran N s t ok (.wBody src i) (s.goto t (.wEnd src i 0))
  | wWake {src : List UInt8} {i j : ℕ} (hj : j < N) (hn : j ≠ t → (s.pc j).falls = false) :
      Ran N s t ok (.wWake src i j) ((s.goto j (wakeReader (s.pc j))).goto t (.wWake src i (j + 1)))
  | wWoke {src : List UInt8} {i j : ℕ} (hj : ¬ j < N) :
    Ran N s t ok (.wWake src i j) (s.goto t (.wSleep src i))
  | wSleep {src : List UInt8} {i : ℕ} : Ran N s t ok (.wSleep src i) (s.release.goto t (.wFalls src i))
  | wFalls {src : List UInt8} {i : ℕ} : Ran N s t ok (.wFalls src i) (s.goto t (.wSleeps src i))
  | wWoken {src : List UInt8} {i : ℕ} (hl : s.holder = none) (hf : s.freed = false) :
      Ran N s t ok (.wWoken src i) ((s.acquire t).goto t (.wTop src i))
  | wEnd {src : List UInt8} {i j : ℕ} (hj : j < N) (hn : j ≠ t → (s.pc j).falls = false) :
      Ran N s t ok (.wEnd src i j) ((s.goto j (wakeReader (s.pc j))).goto t (.wEnd src i (j + 1)))
  | wRet {src : List UInt8} {i j : ℕ} (hj : ¬ j < N) : Ran N s t ok (.wEnd src i j) (s.ret t i)
  | rAcq {n : ℕ} (hl : s.holder = none) (hf : s.freed = false) :
      Ran N s t ok (.rAcq n) ((s.acquire t).goto t (.rTop n))
  | rEmpty {n : ℕ} (he : empty s) (hw : s.writeopen = true) :
    Ran N s t ok (.rTop n) (s.goto t (.rTest n))
  | rTop {n : ℕ} (he : ¬ empty s ∨ s.writeopen = false) : Ran N s t ok (.rTop n) (s.goto t (.rCopy n 0))
  | rKilled {n : ℕ} (hk : s.killed t = true) : Ran N s t ok (.rTest n) (s.ret t (-1))
  | rTest {n : ℕ} (hk : s.killed t = false) : Ran N s t ok (.rTest n) (s.goto t (.rSleep n))
  | rSleep {n : ℕ} : Ran N s t ok (.rSleep n) (s.release.goto t (.rFalls n))
  | rFalls {n : ℕ} : Ran N s t ok (.rFalls n) (s.goto t (.rSleeps n))
  | rWoken {n : ℕ} (hl : s.holder = none) (hf : s.freed = false) :
      Ran N s t ok (.rWoken n) ((s.acquire t).goto t (.rTop n))
  | rTake {n i : ℕ} (hi : i < n) (he : ¬ empty s) (ho : ok = true) :
      Ran N s t ok (.rCopy n i) ((take s ok).goto t (.rCopy n (i + 1)))
  | rFault {n i : ℕ} (hi : i < n) (he : ¬ empty s) (ho : ok = false) :
      Ran N s t ok (.rCopy n i) ((take s ok).goto t (.rEnd n i 0))
  | rDone {n i : ℕ} (hi : i < n → empty s) : Ran N s t ok (.rCopy n i) (s.goto t (.rEnd n i 0))
  | rEnd {n i j : ℕ} (hj : j < N) (hn : j ≠ t → (s.pc j).falls = false) :
      Ran N s t ok (.rEnd n i j) ((s.goto j (wakeWriter (s.pc j))).goto t (.rEnd n i (j + 1)))
  | rRet {n i j : ℕ} (hj : ¬ j < N) : Ran N s t ok (.rEnd n i j) (s.ret t i)
  | cAcq {w : Bool} (hl : s.holder = none) (hf : s.freed = false) :
      Ran N s t ok (.cAcq w) ((s.acquire t).goto t (.cSet w))
  | cWrite : Ran N s t ok (.cSet true) ({ s with writeopen := false }.goto t (.cWake true 0))
  | cRead : Ran N s t ok (.cSet false) ({ s with readopen := false }.goto t (.cWake false 0))
  | cWake {w : Bool} {j : ℕ} (hj : j < N) (hn : j ≠ t → (s.pc j).falls = false) :
      Ran N s t ok (.cWake w j) ((s.goto j ((if w then wakeReader else wakeWriter) (s.pc j))).goto t
        (.cWake w (j + 1)))
  | cFree {w : Bool} {j : ℕ} (hj : ¬ j < N) (hr : s.readopen = false) (hw : s.writeopen = false) :
      Ran N s t ok (.cWake w j) { s.ret t 0 with freed := true }
  | cRet {w : Bool} {j : ℕ} (hj : ¬ j < N) : Ran N s t ok (.cWake w j) (s.ret t 0)

theorem run_cases (h : run N s t ok = some s') : Ran N s t ok (s.pc t) s' := by
  unfold run at h
  cases hpc : s.pc t <;> simp only [hpc] at h
  case wTop =>
      split_ifs at h with hi hr <;> cases h
      exacts [.wClosed hi hr, .wTop hi (by simpa using hr), .wDone hi]
  case wTest =>
      split_ifs at h with hk <;> cases h
      exacts [.wKilled hk, .wTest (by simpa using hk)]
  case wBody =>
      split_ifs at h with hf ho <;> cases h
      exacts [.wFull hf, .wStore hf ho, .wFault hf (by simpa using ho)]
  case wWake =>
      split_ifs at h with hj
      · obtain ⟨rfl, hn⟩ := wakes_cases h
        exact .wWake hj hn
      · cases h
        exact .wWoke hj
  case wEnd =>
      split_ifs at h with hj
      · obtain ⟨rfl, hn⟩ := wakes_cases h
        exact .wEnd hj hn
      · cases h
        exact .wRet hj
  case rTop =>
      split_ifs at h with he <;> cases h
      · exact .rEmpty he.1 he.2
      · refine .rTop ?_
        by_cases hw : s.writeopen = true
        · exact .inl fun h0 => he ⟨h0, hw⟩
        · exact .inr (by simpa using hw)
  case rTest =>
      split_ifs at h with hk <;> cases h
      exacts [.rKilled hk, .rTest (by simpa using hk)]
  case rCopy =>
      split_ifs at h with hi ho <;> cases h
      · exact .rTake hi.1 hi.2 ho
      · exact .rFault hi.1 hi.2 (by simpa using ho)
      · exact .rDone (by simpa using hi)
  case rEnd =>
      split_ifs at h with hj
      · obtain ⟨rfl, hn⟩ := wakes_cases h
        exact .rEnd hj hn
      · cases h
        exact .rRet hj
  case cSet w =>
      cases w <;> simp at h <;> subst h
      exacts [.cRead, .cWrite]
  case cWake w j =>
      by_cases hj : j < N
      · rw [if_pos hj] at h
        obtain ⟨rfl, hn⟩ := wakes_cases h
        exact .cWake hj hn
      · rw [if_neg hj] at h
        split_ifs at h with hf <;> cases h
        · exact .cFree hj hf.1 hf.2
        · exact .cRet hj
  all_goals
    simp only [Option.ite_none_right_eq_some, Option.some.injEq, reduceCtorEq] at h
  case wAcq | wWoken | rAcq | rWoken | cAcq =>
      obtain ⟨⟨hl, hf⟩, rfl⟩ := h
      constructor <;> assumption
  all_goals (subst h; constructor)

/-- The positions at which calls start. -/
def Pc.starts : Pc → Bool
  | .wAcq _ | .rAcq _ | .cAcq _ => true
  | _ => false

/-- The steps of all processes. -/
inductive Step (N : ℕ) (s : Sys) (a : Act) : Sys → Prop
  | start {t : ℕ} {k : Pc} (hk : k.starts = true) (hb : t < N) (hi : s.pc t = .idle) : Step N s a
      { s with pc := update s.pc t k, calls := update s.calls t (s.calls t + 1) }
  | kill {t : ℕ} (ha : a = .kill t) (hf : (s.pc t).falls = false) : Step N s a
      { s with
        killed := update s.killed t true
        pc := update s.pc t (wakeWriter (wakeReader (s.pc t))) }
  | run {t : ℕ} {ok : Bool} {s' : Sys} (ha : a = .run t ok) (h : Ran N s t ok (s.pc t) s') :
    Step N s a s'

theorem step_cases (h : step N s a = some s') : Step N s a s' := by
  have hs : ∀ t k, k.starts = true → start N s t k = some s' → Step N s a s' := by
    intro t k hk hs
    simp only [start, Option.ite_none_right_eq_some, Option.some.injEq] at hs
    obtain ⟨⟨hb, hi⟩, rfl⟩ := hs
    exact .start hk hb hi
  cases a with
  | write t src => exact hs t _ rfl h
  | read t n => exact hs t _ rfl h
  | close t w => exact hs t _ rfl h
  | run t ok => exact .run rfl (run_cases h)
  | kill t =>
      simp only [step, Option.ite_none_left_eq_some, Option.some.injEq] at h
      obtain ⟨hf, rfl⟩ := h
      exact .kill rfl (by simpa using hf)

/-! ### The lock -/

@[grind =] theorem goto_pc {r : ℕ} {k : Pc} : (s.goto t k).pc r = if r = t then k else s.pc r :=
  Function.update_apply ..

@[grind =] theorem goto_holder {k : Pc} : (s.goto t k).holder = s.holder := rfl

/-- The positions between `acquire` and `release`. -/
def Pc.holds : Pc → Bool
  | .wTop _ _ | .wTest _ _ | .wBody _ _ | .wWake _ _ _ | .wSleep _ _ | .wEnd _ _ _ | .rTop _
  | .rTest _ | .rSleep _
  | .rCopy _ _ | .rEnd _ _ _ | .cSet _ | .cWake _ _ => true
  | _ => false

/-- The processes that are there, and the holder of the lock. -/
structure Lock (N : ℕ) (s : Sys) : Prop where
  bound : ∀ t, s.pc t ≠ .idle → t < N
  holder : ∀ t, s.holder = some t ↔ (s.pc t).holds = true

@[simp] theorem holds_wakeReader (k : Pc) : (wakeReader k).holds = k.holds := by cases k <;> rfl
@[simp] theorem holds_wakeWriter (k : Pc) : (wakeWriter k).holds = k.holds := by cases k <;> rfl
@[simp] theorem wakeReader_idle {k : Pc} : wakeReader k = .idle ↔ k = .idle := by
  cases k <;> simp [wakeReader]
@[simp] theorem wakeWriter_idle {k : Pc} : wakeWriter k = .idle ↔ k = .idle := by
  cases k <;> simp [wakeWriter]

namespace Lock

/-- One process moves; the lock stays with it, is taken or is released by it. -/
theorem goto (h : Lock N s) {k : Pc} (ht : s.pc t ≠ .idle) (hpc : s'.pc = update s.pc t k)
    (hl : s'.holder = s.holder ∧ k.holds = (s.pc t).holds ∨ s.holder = none ∧ s'.holder = some t ∧
      k.holds = true ∨ (s.pc t).holds = true ∧ s'.holder = none ∧ k.holds = false) : Lock N s' := by
  refine ⟨fun r => ?_, fun r => ?_⟩
  · have := h.bound r
    rw [hpc]
    grind
  · have := h.holder r
    have := h.holder t
    rw [hpc]
    grind

/-- A process that is woken up keeps its place with respect to the lock. -/
theorem wake (h : Lock N s) {j : ℕ} {k : Pc} (hk : k.holds = (s.pc j).holds)
    (hi : k = .idle ↔ s.pc j = .idle) : Lock N (s.goto j k) := by
  refine ⟨fun r => ?_, fun r => ?_⟩
  · have := h.bound r
    grind
  · have := h.holder r
    grind

/-- The holder goes on after it has looked at process `j`. -/
theorem visit (h : Lock N s) {wake : Pc → Pc} {j : ℕ} {k : Pc} (hw : ∀ k, (wake k).holds = k.holds)
    (hi : ∀ k, wake k = .idle ↔ k = .idle) (ht : (s.pc t).holds = true) (hk : k.holds = true) :
    Lock N ((s.goto j (wake (s.pc j))).goto t k) := by
  have h1 := h.wake (hw (s.pc j)) (hi (s.pc j))
  have hh : ((s.goto j (wake (s.pc j))).pc t).holds = true := by grind
  refine h1.goto ?_ rfl (.inl ⟨rfl, by rw [hk, hh]⟩)
  intro he
  rw [he] at hh
  cases hh

theorem run_step (h : Lock N s) (hr : Ran N s t ok (s.pc t) s') : Lock N s' := by
  generalize hk : s.pc t = k at hr
  have hold : ∀ b, k.holds = b → (s.pc t).holds = b := fun b hb => hk ▸ hb
  have ne : k ≠ .idle → s.pc t ≠ .idle := fun h => hk ▸ h
  cases hr with
  | wWake _ _ | wEnd _ _ => exact h.visit holds_wakeReader (fun _ => wakeReader_idle) (hold _ rfl) rfl
  | rEnd _ _ => exact h.visit holds_wakeWriter (fun _ => wakeWriter_idle) (hold _ rfl) rfl
  | @cWake w j _ _ =>
      cases w
      · exact h.visit holds_wakeWriter (fun _ => wakeWriter_idle) (hold _ rfl) rfl
      · exact h.visit holds_wakeReader (fun _ => wakeReader_idle) (hold _ rfl) rfl
  | wAcq hl _ | wWoken hl _ | rAcq hl _ | rWoken hl _ | cAcq hl _ =>
      exact h.goto (ne (by simp)) rfl (.inr (.inl ⟨hl, rfl, rfl⟩))
  | wClosed | wKilled | wRet | rKilled | rRet | cFree | cRet | wSleep | rSleep =>
      exact h.goto (ne (by simp)) rfl (.inr (.inr ⟨hold _ rfl, rfl, rfl⟩))
  | _ => exact h.goto (ne (by simp)) rfl (.inl ⟨rfl, by rw [hk]; rfl⟩)

theorem step (h : Lock N s) (hs : Pipe.step N s a = some s') : Lock N s' := by
  cases step_cases hs with
  | run _ hr => exact h.run_step hr
  | @kill t _ _ =>
      have := h.wake (j := t) (k := wakeWriter (wakeReader (s.pc t))) (by simp) (by simp)
      exact ⟨this.bound, this.holder⟩
  | @start t k hk hb hi =>
      refine ⟨fun r => ?_, fun r => ?_⟩
      · have := h.bound r
        grind
      · have := h.holder r
        have hkh : k.holds = false := by cases k <;> simp_all [Pc.holds, Pc.starts]
        grind [Pc.holds]

theorem pipealloc (data : ℕ → UInt8) : Lock N (pipealloc data) where
  bound t h := absurd rfl h
  holder t := by simp [Pipe.pipealloc, Pc.holds]

theorem one (h : Lock N s) {r : ℕ} (ht : (s.pc t).holds = true) (hr : (s.pc r).holds = true) : t = r :=
  Option.some.inj (((h.holder t).2 ht).symm.trans ((h.holder r).2 hr))

end Lock

theorem wakeReader_of_holds {k : Pc} (h : k.holds = true) : wakeReader k = k := by
  cases k <;> simp_all [Pc.holds, wakeReader]
theorem wakeWriter_of_holds {k : Pc} (h : k.holds = true) : wakeWriter k = k := by
  cases k <;> simp_all [Pc.holds, wakeWriter]

theorem Ran.pc_of_ne {r : ℕ} (hr : Ran N s r ok (s.pc r) s') (hrt : t ≠ r) :
    s'.pc t = s.pc t ∨ s'.pc t = wakeReader (s.pc t) ∨ s'.pc t = wakeWriter (s.pc t) := by
  have visit : ∀ (wake : Pc → Pc) (j : ℕ) (k : Pc), ((s.goto j (wake (s.pc j))).goto r k).pc t =
      s.pc t ∨ ((s.goto j (wake (s.pc j))).goto r k).pc t = wake (s.pc t) := by
    intro wake j k
    by_cases he : t = j
    · subst he
      exact .inr (by simp [Sys.goto, hrt])
    · exact .inl (by simp [Sys.goto, hrt, he])
  generalize s.pc r = k at hr
  cases hr with
  | wWake _ _ | wEnd _ _ => exact (visit _ _ _).imp_right .inl
  | rEnd _ _ => exact (visit _ _ _).imp_right .inr
  | @cWake w j _ _ =>
      cases w
      · exact (visit _ _ _).imp_right .inr
      · exact (visit _ _ _).imp_right .inl
  | _ => exact .inl (update_of_ne hrt _ _)

/-- A process that holds the lock after a step of another held it before, at the same place. -/
theorem Ran.pc_of_holds {r : ℕ} (hr : Ran N s r ok (s.pc r) s') (hrt : t ≠ r)
    (hh : (s'.pc t).holds = true) : s'.pc t = s.pc t := by
  rcases hr.pc_of_ne hrt with h | h | h
  · exact h
  · rw [h, holds_wakeReader] at hh
    rw [h, wakeReader_of_holds hh]
  · rw [h, holds_wakeWriter] at hh
    rw [h, wakeWriter_of_holds hh]

/-- While a process holds the lock, the others leave it and the pipe as they are. -/
theorem Lock.others (h : Lock N s) {r : ℕ} (ht : (s.pc t).holds = true) (hrt : r ≠ t)
    (hr : Ran N s r ok (s.pc r) s') : s'.nread = s.nread ∧ s'.nwrite = s.nwrite ∧
      s'.readopen = s.readopen ∧ s'.writeopen = s.writeopen ∧ s'.pc t = s.pc t := by
  have hno : (s.pc r).holds = false := by
    by_contra hn
    exact hrt (h.one (by simpa using hn) ht)
  have hl : s.holder = some t := (h.holder t).2 ht
  generalize s.pc r = k at hr hno
  cases hr <;> simp only [Pc.holds, Bool.true_eq_false] at hno <;> simp_all
  all_goals exact ⟨rfl, rfl, rfl, rfl, update_of_ne (Ne.symm hrt) _ _⟩

end Xv6Cow.Pipe

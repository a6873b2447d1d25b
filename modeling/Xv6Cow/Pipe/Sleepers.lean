import Xv6Cow.Pipe.Steps

/-! # Who sleeps on a pipe

A reader sleeps while the pipe is empty and its write end is open, a writer while it is full and its
read end is open.  Whoever changes that under `pi->lock` calls `wakeup` before the release: `Owes`
names the positions of those who still have to, and up to which process they have come.  The one
exit that does not is that of a writer which has been killed in its copy loop, after it has stored a
byte. -/

namespace Xv6Cow.Pipe

open Function (update update_self update_of_ne)

variable {N : ℕ} {s s' : Sys} {t r : ℕ} {ok : Bool} {a : Act}

/-- In `sleep(&pi->nread)`, with `pi->lock` released. -/
def Pc.rAsleep : Pc → Bool
  | .rFalls _ | .rSleeps _ => true
  | _ => false

/-- In `sleep(&pi->nwrite)`, with `pi->lock` released. -/
def Pc.wAsleep : Pc → Bool
  | .wFalls _ _ | .wSleeps _ _ => true
  | _ => false

/-- In the loop of `pipewrite`, where bytes are stored. -/
def Pc.copying : Pc → Bool
  | .wTop _ _ | .wTest _ _ | .wBody _ _ => true
  | _ => false

/-- A process at the position has a `wakeup(&pi->nread)` before it, which has not come to `r`
yet. -/
def Pc.owesReader (r : ℕ) : Pc → Prop
  | .wTop _ _ | .wTest _ _ | .wBody _ _ => True
  | .wWake _ _ j | .wEnd _ _ j | .cWake true j => j ≤ r
  | _ => False

/-- The same for `wakeup(&pi->nwrite)`. -/
def Pc.owesWriter (r : ℕ) : Pc → Prop
  | .rCopy _ _ => True
  | .rEnd _ _ j | .cWake false j => j ≤ r
  | _ => False

/-- A reader sleeps rightly. -/
def ReaderWaits (s : Sys) : Prop := empty s ∧ s.writeopen = true

/-- A writer sleeps rightly. -/
def WriterWaits (s : Sys) : Prop := full s ∧ s.readopen = true

/-- What a process with the lock has found. -/
def Found (s : Sys) (t : ℕ) : Pc → Prop
  | .wTest _ _ => s.readopen = true
  | .wBody _ _ => s.readopen = true ∧ s.killed t = false
  | .wWake _ _ _ | .wSleep _ _ => WriterWaits s
  | .rTest _ | .rSleep _ => ReaderWaits s
  | _ => True

structure Just (s : Sys) : Prop where
  reader : ∀ r, (s.pc r).rAsleep = true → ReaderWaits s ∨
    ∃ t, (s.pc t).owesReader r ∧ ((s.pc t).copying = true → s.readopen = true ∧ s.killed t = false)
  writer : ∀ r, (s.pc r).wAsleep = true → WriterWaits s ∨ ∃ t, (s.pc t).owesWriter r
  found : ∀ t, Found s t (s.pc t)

theorem holds_of_owesReader {k : Pc} (h : k.owesReader r) : k.holds = true := by
  cases k <;> simp_all [Pc.owesReader, Pc.holds]

theorem holds_of_owesWriter {k : Pc} (h : k.owesWriter r) : k.holds = true := by
  cases k <;> simp_all [Pc.owesWriter, Pc.holds]

theorem found_of_not_holds {k : Pc} (hk : k.holds = false) : Found s t k := by
  cases k <;> trivial

/-! ### One step of a process -/

section Moves

variable (h : Just s) (hl : Lock N s)
include h hl

theorem Just.reader_of_holds (ht : (s.pc t).holds = true) (hr : (s.pc r).rAsleep = true) :
    ReaderWaits s ∨ (s.pc t).owesReader r ∧
      ((s.pc t).copying = true → s.readopen = true ∧ s.killed t = false) := by
  refine (h.reader r hr).imp_right fun ⟨u, hu, hc⟩ => ?_
  have : t = u := hl.one ht (holds_of_owesReader hu)
  exact this ▸ ⟨hu, hc⟩

theorem Just.writer_of_holds (ht : (s.pc t).holds = true) (hr : (s.pc r).wAsleep = true) :
    WriterWaits s ∨ (s.pc t).owesWriter r := by
  refine (h.writer r hr).imp_right fun ⟨u, hu⟩ => ?_
  have : t = u := hl.one ht (holds_of_owesWriter hu)
  exact this ▸ hu

theorem Just.reader_of_free (hf : s.holder = none) (hr : (s.pc r).rAsleep = true) : ReaderWaits s := by
  refine (h.reader r hr).resolve_right fun ⟨u, hu, _⟩ => ?_
  rw [(hl.holder u).2 (holds_of_owesReader hu)] at hf
  cases hf

theorem Just.writer_of_free (hf : s.holder = none) (hr : (s.pc r).wAsleep = true) : WriterWaits s := by
  refine (h.writer r hr).resolve_right fun ⟨u, hu⟩ => ?_
  rw [(hl.holder u).2 (holds_of_owesWriter hu)] at hf
  cases hf

end Moves

/-- A process `u` at `m` is asleep rightly, or will be woken up by `t`, which is at `k`. -/
def Serves (s : Sys) (t : ℕ) (k : Pc) (u : ℕ) (m : Pc) : Prop :=
  (m.rAsleep = true → ReaderWaits s ∨ k.owesReader u ∧
    (k.copying = true → s.readopen = true ∧ s.killed t = false)) ∧
    (m.wAsleep = true → WriterWaits s ∨ k.owesWriter u)

/-- Not asleep, and without the lock. -/
def Pc.Awake (k : Pc) : Prop := k.rAsleep = false ∧ k.wAsleep = false ∧ k.holds = false

/-- The process `t` moves to `k`; the others are as before, or woken up. -/
theorem Just.goto {k : Pc} (hother : ∀ u, u ≠ t → s'.pc u = s.pc u ∨ (s'.pc u).Awake)
    (hpc : s'.pc t = k) (hs : ∀ u, u ≠ t → s'.pc u = s.pc u → Serves s' t k u (s.pc u))
    (ha : (k.rAsleep = true → ReaderWaits s') ∧ (k.wAsleep = true → WriterWaits s'))
    (hf : Found s' t k) (hfo : ∀ u, u ≠ t → (s.pc u).holds = false) : Just s' := by
  have hcases : ∀ u, u = t ∨ u ≠ t ∧ s'.pc u = s.pc u ∨ u ≠ t ∧ (s'.pc u).Awake := by
    intro u
    by_cases he : u = t
    · exact .inl he
    · exact .inr ((hother u he).imp (fun h => ⟨he, h⟩) fun h => ⟨he, h⟩)
  refine ⟨fun u hu => ?_, fun u hu => ?_, fun u => ?_⟩ <;> obtain rfl | ⟨he, ho⟩ | ⟨he, ho⟩ := hcases u
  · exact .inl (ha.1 (hpc ▸ hu))
  · exact ((hs u he ho).1 (ho ▸ hu)).imp_right fun hx => ⟨t, hpc ▸ hx⟩
  · simp [ho.1] at hu
  · exact .inl (ha.2 (hpc ▸ hu))
  · exact ((hs u he ho).2 (ho ▸ hu)).imp_right fun hx => ⟨t, hpc ▸ hx⟩
  · simp [ho.2.1] at hu
  · exact hpc ▸ hf
  · exact ho ▸ found_of_not_holds (hfo u he)
  · exact found_of_not_holds ho.2.2

theorem lt_of_asleep (hl : Lock N s) (h : (s.pc t).rAsleep = true ∨ (s.pc t).wAsleep = true) : t < N :=
  hl.bound t fun h0 => by simp [h0, Pc.rAsleep, Pc.wAsleep] at h

theorem Just.held (h : Just s) (hl : Lock N s) {k : Pc} (ht : (s.pc t).holds = true)
    (hpc : s'.pc t = k) (hother : ∀ u, u ≠ t → s'.pc u = s.pc u ∨ (s'.pc u).Awake)
    (hs : ∀ u, u ≠ t → u < N → s'.pc u = s.pc u → Serves s t (s.pc t) u (s.pc u) →
      Serves s' t k u (s.pc u))
    (ha : (k.rAsleep = true → ReaderWaits s') ∧ (k.wAsleep = true → WriterWaits s'))
    (hf : Found s' t k) : Just s' := by
  refine Just.goto hother hpc (fun u hu he => ?_) ha hf fun u hu => ?_
  · have hs' := fun hN => hs u hu hN he ⟨h.reader_of_holds hl ht, h.writer_of_holds hl ht⟩
    exact ⟨fun hx => (hs' (lt_of_asleep hl (.inl hx))).1 hx,
      fun hx => (hs' (lt_of_asleep hl (.inr hx))).2 hx⟩
  · by_contra hn
    exact hu (hl.one (by simpa using hn) ht)

theorem Just.plain (h : Just s) (hl : Lock N s) {k k' : Pc} (hk : s.pc t = k) (ht : k.holds = true)
    (hpc : s'.pc = update s.pc t k')
      (h1 : s'.nread = s.nread ∧ s'.nwrite = s.nwrite ∧ s'.readopen = s.readopen ∧
        s'.writeopen = s.writeopen ∧ s'.killed = s.killed)
    (hs : ∀ u m, u < N → Serves s t k u m → Serves s t k' u m)
    (ha : (k'.rAsleep = true → ReaderWaits s) ∧ (k'.wAsleep = true → WriterWaits s))
    (hf : Found s t k') : Just s' := by
  obtain ⟨h1, h2, h3, h4, h5⟩ := h1
  have hR : ReaderWaits s' ↔ ReaderWaits s := by simp [ReaderWaits, empty, h1, h2, h4]
  have hW : WriterWaits s' ↔ WriterWaits s := by simp [WriterWaits, full, h1, h2, h3]
  subst hk
  refine h.held hl ht (by rw [hpc, update_self]) (fun u hu => .inl (by rw [hpc, update_of_ne hu]))
    (fun u _ hu _ hx => ?_) (by rwa [hR, hW]) ?_
  · simpa only [Serves, hR, hW, h3, h5] using hs u _ hu hx
  · cases k' with
    | wTest _ _ => exact h3.trans hf
    | wBody _ _ => exact ⟨h3.trans hf.1, (congrFun h5 t).trans hf.2⟩
    | wWake _ _ _ | wSleep _ _ => exact hW.mpr hf
    | rTest _ | rSleep _ => exact hR.mpr hf
    | _ => trivial

/-- What a `wakeup` does to a process: it leaves it as it is, or awake. -/
def Wakes (w : Bool) (f : Pc → Pc) : Prop :=
  (∀ k, f k = k ∨ (f k).Awake) ∧
    ∀ k, f k = k → k.falls = false → if w then k.rAsleep = false else k.wAsleep = false

theorem wakeReader_wakes : Wakes true wakeReader :=
  ⟨fun k => by cases k <;> simp [wakeReader, Pc.Awake, Pc.rAsleep, Pc.wAsleep, Pc.holds],
    fun k => by cases k <;> simp [wakeReader, Pc.rAsleep, Pc.falls]⟩

theorem wakeWriter_wakes : Wakes false wakeWriter :=
  ⟨fun k => by cases k <;> simp [wakeWriter, Pc.Awake, Pc.rAsleep, Pc.wAsleep, Pc.holds],
    fun k => by cases k <;> simp [wakeWriter, Pc.wAsleep, Pc.falls]⟩

theorem found_goto {j : ℕ} {k k' : Pc} (hf : Found s t k) : Found (s.goto j k') t k := by
  cases k <;> exact hf

theorem Just.visit (h : Just s) (hl : Lock N s) {w : Bool} {f : Pc → Pc} (hw : Wakes w f) {j : ℕ}
    {k k' : Pc} (hk : s.pc t = k) (ht : k.holds = true) (hn : j ≠ t → (s.pc j).falls = false)
    (hs : ∀ u m, (u = j → if w then m.rAsleep = false else m.wAsleep = false) → Serves s t k u m →
      Serves s t k' u m)
    (ha : k'.rAsleep = false ∧ k'.wAsleep = false) (hf : Found s t k') :
    Just ((s.goto j (f (s.pc j))).goto t k') := by
  have hne : ∀ u, u ≠ t → ((s.goto j (f (s.pc j))).goto t k').pc u = if u = j then f (s.pc u)
      else s.pc u := by
    intro u hu
    refine (update_of_ne hu _ _).trans ?_
    by_cases he : u = j
    · rw [if_pos he, he]
      exact update_self ..
    · rw [if_neg he]
      exact update_of_ne he _ _
  subst hk
  refine h.held hl ht (update_self ..) (fun u hu => ?_) (fun u hu _ he => hs u _ ?_) (by simp [ha]) 
    (found_goto (found_goto hf))
  · rw [hne u hu]
    split
    · exact hw.1 _
    · exact .inl rfl
  · rintro rfl
    rw [hne u hu, if_pos rfl] at he
    exact hw.2 _ he (hn hu)

theorem Just.enter (h : Just s) (hl : Lock N s) {k : Pc} (hf : s.holder = none)
    (hk : k.rAsleep = false ∧ k.wAsleep = false) (hfd : ∀ u : Sys, Found u t k) :
    Just ((s.acquire t).goto t k) := by
  refine Just.goto (k := k) (t := t) (s := s) (fun u hu => .inl (update_of_ne hu _ _)) (update_self ..)
    (fun u _ _ => ⟨fun hx => .inl (h.reader_of_free hl hf hx),
      fun hx => .inl (h.writer_of_free hl hf hx)⟩)
    (by simp [hk.1, hk.2]) (hfd _) fun u _ => ?_
  by_contra hn
  have := (hl.holder u).2 (by simpa using hn)
  rw [hf] at this
  cases this

/-- A process moves that leaves the pipe and its debts alone, whether it has the lock or not. -/
theorem Just.aside (h : Just s) {k : Pc} (hpc : s'.pc = update s.pc t k) (h1 : s'.nread = s.nread)
    (h2 : s'.nwrite = s.nwrite) (h3 : s'.readopen = s.readopen) (h4 : s'.writeopen = s.writeopen)
    (h5 : ∀ u, u ≠ t → s'.killed u = s.killed u)
    (hr : ∀ u, (s.pc t).owesReader u → k.owesReader u ∧ k.copying = false)
    (hw : ∀ u, (s.pc t).owesWriter u → k.owesWriter u) (hra : k.rAsleep = true → (s.pc t).rAsleep = true)
    (hwa : k.wAsleep = true → (s.pc t).wAsleep = true) (hf : Found s' t k) : Just s' := by
  have hR : ReaderWaits s' ↔ ReaderWaits s := by simp [ReaderWaits, empty, h1, h2, h4]
  have hW : WriterWaits s' ↔ WriterWaits s := by simp [WriterWaits, full, h1, h2, h3]
  have asleep : ∀ {f : Pc → Bool}, (f k = true → f (s.pc t) = true) → ∀ u, f (s'.pc u) = true →
      f (s.pc u) = true := by
    intro f hk u hu
    rw [hpc] at hu
    obtain rfl | he := eq_or_ne u t
    · exact hk (by simpa using hu)
    · simpa [he] using hu
  refine ⟨fun u hu => ?_, fun u hu => ?_, fun u => ?_⟩
  · rw [hR, hpc, h3]
    refine (h.reader u (asleep hra u hu)).imp_right fun ⟨v, hv, hc⟩ => ⟨v, ?_⟩
    obtain rfl | he := eq_or_ne v t
    · simpa [(hr u hv).2] using (hr u hv).1
    · rw [update_of_ne he, h5 v he]
      exact ⟨hv, hc⟩
  · rw [hW, hpc]
    refine (h.writer u (asleep hwa u hu)).imp_right fun ⟨v, hv⟩ => ⟨v, ?_⟩
    obtain rfl | he := eq_or_ne v t
    · simpa using hw u hv
    · rwa [update_of_ne he]
  · obtain rfl | he := eq_or_ne u t
    · simpa [hpc] using hf
    · have hx := h.found u
      rw [hpc, update_of_ne he]
      cases hk : s.pc u <;> simp_all [Found]

theorem Just.run_step (h : Just s) (hl : Lock N s) (hr : Ran N s t ok (s.pc t) s') : Just s' := by
  have hfd := h.found t
  generalize hk : s.pc t = k at hr hfd
  have hold : ∀ b, k.holds = b → (s.pc t).holds = b := fun b hb => hk ▸ hb
  have other : ∀ {m : Pc} (u : ℕ), u ≠ t → update s.pc t m u = s.pc u ∨ (update s.pc t m u).Awake :=
    fun u hu => .inl (update_of_ne hu _ _)
  cases hr with
  | wAcq hf _ | wWoken hf _ | rAcq hf _ | rWoken hf _
  | cAcq hf _ => exact h.enter hl hf ⟨rfl, rfl⟩ fun _ => trivial
  | wFalls | rFalls =>
      exact h.aside rfl rfl rfl rfl rfl (fun _ _ => rfl) (by simp [hk, Pc.owesReader])
        (by simp [hk, Pc.owesWriter]) (by simp [hk, Pc.rAsleep]) (by simp [hk, Pc.wAsleep]) trivial
  | wWake _ hn | wEnd _ hn =>
      refine h.visit hl wakeReader_wakes hk rfl hn (fun u m hu => ?_) ⟨rfl, rfl⟩ hfd
      grind [Serves, Pc.owesReader, Pc.owesWriter, Pc.copying]
  | rEnd _ hn =>
      refine h.visit hl wakeWriter_wakes hk rfl hn (fun u m hu => ?_) ⟨rfl, rfl⟩ hfd
      grind [Serves, Pc.owesReader, Pc.owesWriter, Pc.copying]
  | @cWake w j _ hn =>
      have hw : Wakes w (if w then wakeReader else wakeWriter) := by
        cases w
        exacts [wakeWriter_wakes, wakeReader_wakes]
      refine h.visit hl hw hk rfl hn (fun u m hu => ?_) ⟨rfl, rfl⟩ hfd
      cases w <;> grind [Serves, Pc.owesReader, Pc.owesWriter, Pc.copying]
  | wStore hnf _ =>
      -- nobody sleeps on a pipe that is not full, and the readers are owed a wakeup
      refine h.held hl (hold _ rfl) (update_self ..) other
        (fun u _ _ _ hx => ⟨fun _ => .inr ⟨trivial, fun _ => hfd⟩, ?_⟩)
        (by simp [Pc.rAsleep, Pc.wAsleep]) trivial
      intro hm
      cases hx.2 hm with
      | inl hx => exact absurd hx.1 hnf
      | inr hx => simp [hk, Pc.owesWriter] at hx
  | rTake hi he _ | rFault hi he _ =>
      refine h.held hl (hold _ rfl) (update_self ..) other
        (fun u _ _ _ hx => ⟨fun hm => ?_, fun _ => .inr ?_⟩) (by simp [Pc.rAsleep, Pc.wAsleep]) trivial
      · cases hx.1 hm with
        | inl hx => exact absurd hx.1 he
        | inr hx => simp [hk, Pc.owesReader] at hx
      · simp [Pc.owesWriter]
  | cWrite =>
      refine h.held hl (hold _ rfl) (update_self ..) other (fun u _ _ _ hx =>
        ⟨fun _ => .inr ⟨Nat.zero_le _, by simp [Pc.copying]⟩, fun hm => (hx.2 hm).imp_right ?_⟩)
        (by simp [Pc.rAsleep, Pc.wAsleep]) trivial
      simp [hk, Pc.owesWriter]
  | cRead =>
      refine h.held hl (hold _ rfl) (update_self ..) other (fun u _ _ _ hx =>
        ⟨fun hm => (hx.1 hm).imp_right ?_, fun _ => .inr (Nat.zero_le _)⟩)
          (by simp [Pc.rAsleep, Pc.wAsleep]) trivial
      simp [hk, Pc.owesReader]
  | @cFree w j | @cRet w j =>
      all_goals
        refine h.plain hl hk rfl rfl ⟨rfl, rfl, rfl, rfl, rfl⟩ (fun u m hu => ?_)
          (by simp [Pc.rAsleep, Pc.wAsleep]) trivial
        cases w <;> grind [Serves, Pc.owesReader, Pc.owesWriter, Pc.copying]
  | _ =>
      refine h.plain hl hk rfl rfl ⟨rfl, rfl, rfl, rfl, rfl⟩ (fun u m hu => ?_) ?_ ?_
      · grind [Serves, Pc.owesReader, Pc.owesWriter, Pc.copying]
      · simp_all [Pc.rAsleep, Pc.wAsleep, Found]
      · simp_all [Found, WriterWaits, ReaderWaits]

/-- Every step but the kill of a writer in its copy loop. -/
def spares (s : Sys) : Act → Bool
  | .kill t => !(s.pc t).copying
  | _ => true

theorem Just.step (h : Just s) (hl : Lock N s) (ha : spares s a = true)
    (hs : Pipe.step N s a = some s') : Just s' := by
  cases step_cases hs with
  | run _ hr => exact h.run_step hl hr
  | @start t k hk hb hi =>
      refine h.aside (k := k) rfl rfl rfl rfl rfl (fun _ _ => rfl) (by simp [hi, Pc.owesReader])
        (by simp [hi, Pc.owesWriter]) ?_ ?_ ?_
      all_goals cases k <;> simp_all [Pc.starts, Pc.rAsleep, Pc.wAsleep, Found]
  | @kill t ha' _ =>
      subst ha'
      have hfd := h.found t
      refine h.aside (k := wakeWriter (wakeReader (s.pc t))) rfl rfl rfl rfl rfl
        (fun u hu => update_of_ne hu _ _) ?_ ?_ ?_ ?_ ?_
      all_goals cases hk : s.pc t
      all_goals simp_all [spares, Pc.copying, wakeReader, wakeWriter, Pc.owesReader, Pc.owesWriter,
        Pc.rAsleep, Pc.wAsleep, Found, ReaderWaits, WriterWaits, empty, full]

/-- **Pipe sleepers.**  In a run that kills no writer in its copy loop, whenever `pi->lock` is free,
every process asleep in `piperead` finds the pipe empty with its write end open, and every process
asleep in `pipewrite` finds it full with its read end open. -/
theorem sleepers_wait {data : ℕ → UInt8} {as : List Act}
    (ha : Runs.along (step N) spares (pipealloc data) as = true)
    (h : Runs.exec (step N) (pipealloc data) as = some s) (hf : s.holder = none) (t : ℕ) :
      (∀ n, s.pc t = .rSleeps n → empty s ∧ s.writeopen = true) ∧
        (∀ src i, s.pc t = .wSleeps src i → full s ∧ s.readopen = true) := by
  have hJ : Lock N s ∧ Just s := by
    refine Runs.exec_along (I := fun s => Lock N s ∧ Just s) (fun x a y hx hok hs => ?_) ?_ ha h
    · exact ⟨hx.1.step hs, hx.2.step hx.1 hok hs⟩
    · refine ⟨.pipealloc data, ⟨fun r hr => ?_, fun r hr => ?_, fun r => trivial⟩⟩ <;> cases hr
  refine ⟨fun n hn => hJ.2.reader_of_free hJ.1 hf (r := t) ?_, fun src i hn =>
    hJ.2.writer_of_free hJ.1 hf (r := t) ?_⟩ <;> (rw [hn]; rfl)

/-- A reader finds the pipe empty and sleeps; the writer is killed before it writes. -/
def waits : List Act :=
  .read 0 1 :: List.replicate 5 (.run 0 true) ++ [.kill 1, .write 1 [7]] ++
    List.replicate 3 (.run 1 true)

set_option maxRecDepth 100000 in
theorem sleepers_wait_for_bytes : (Runs.after (step 2) (pipealloc fun _ => 0) waits).pc 0 =
    .rSleeps 1 ∧ empty (Runs.after (step 2) (pipealloc fun _ => 0) waits) ∧
      (Runs.after (step 2) (pipealloc fun _ => 0) waits).writeopen = true := by
  have hpc : (Runs.after (step 2) (pipealloc fun _ => 0) waits).pc 0 = .rSleeps 1 := by decide +kernel
  have hw := sleepers_wait (N := 2) (by decide +kernel)
    (Runs.exec_after (step 2) (pipealloc fun _ => 0) waits (by decide +kernel)) (by decide +kernel) 0
  exact ⟨hpc, hw.1 1 hpc⟩

/-- A reader sleeps; a writer stores the first of two bytes, is killed, and returns `-1` from the
head of its loop. -/
def killedWriter : List Act :=
  .read 0 1 :: List.replicate 5 (.run 0 true) ++ .write 1 [7, 8] :: List.replicate 4
    (.run 1 true) ++ .kill 1 :: List.replicate 2 (.run 1 true)

set_option maxRecDepth 100000 in
/-- The lock is free, the pipe holds a byte, and the reader sleeps on. -/
theorem killed_writer_wakes_nobody : Runs.exec (step 2) (pipealloc fun _ => 0) killedWriter =
      some (Runs.after (step 2) (pipealloc fun _ => 0) killedWriter) ∧
    (Runs.after (step 2) (pipealloc fun _ => 0) killedWriter).holder = none ∧
      (Runs.after (step 2) (pipealloc fun _ => 0) killedWriter).pc 0 = .rSleeps 1 ∧
        (Runs.after (step 2) (pipealloc fun _ => 0) killedWriter).result 1 = -1 ∧
          ¬ empty (Runs.after (step 2) (pipealloc fun _ => 0) killedWriter) :=
  ⟨Runs.exec_after (step 2) _ killedWriter (by decide +kernel), by decide +kernel,
    by decide +kernel, by decide +kernel,
    by decide +kernel⟩

end Xv6Cow.Pipe

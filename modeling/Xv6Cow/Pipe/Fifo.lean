import Mathlib.Data.List.Infix
import Xv6Cow.Pipe.Steps

/-! # A pipe is an exact queue

`nread` and `nwrite` count modulo `2 ^ 32`, and a byte's place is its number modulo `PIPESIZE`.
Because `PIPESIZE` divides `2 ^ 32`, and because at most `PIPESIZE` bytes are in the pipe, the two
are the numbers of the bytes that have been taken out and put in, and no byte is overwritten before
it has been taken out, over any number of wraps. -/

namespace Xv6Cow.Pipe

open Function (update update_self update_of_ne)

variable {N : ℕ} {s s' : Sys} {t r : ℕ} {ok : Bool} {a : Act}

/-- The bytes that have been put into the pipe. -/
def bytes (s : Sys) : List UInt8 := s.stored.map (·.byte)

@[simp] theorem length_bytes (s : Sys) : (bytes s).length = s.stored.length := List.length_map ..

/-- The counters, and the bytes that are in the pipe. -/
structure Fifo (s : Sys) : Prop where
  nread : s.nread = s.taken.length % UINT
  nwrite : s.nwrite = s.stored.length % UINT
  le : s.taken.length ≤ s.stored.length
  cap : s.stored.length ≤ s.taken.length + PIPESIZE
  taken : s.taken <+: bytes s
  held : ∀ k b, s.taken.length ≤ k → (bytes s)[k]? = some b → s.data (k % PIPESIZE) = b

theorem mod_uint_mod (n : ℕ) : n % UINT % PIPESIZE = n % PIPESIZE := Nat.mod_mod_of_dvd n (by decide)

namespace Fifo

theorem congr (h : Fifo s) (h1 : s'.data = s.data) (h2 : s'.nread = s.nread) (h3 : s'.nwrite = s.nwrite)
    (h4 : s'.stored = s.stored) (h5 : s'.taken = s.taken) : Fifo s' := by
  constructor <;> simp only [bytes, h1, h2, h3, h4, h5]
  exacts [h.nread, h.nwrite, h.le, h.cap, h.taken, h.held]

theorem length_lt (h : Fifo s) (hf : ¬ full s) : s.stored.length < s.taken.length + PIPESIZE := by
  refine lt_of_le_of_ne h.cap fun he => hf ?_
  rw [full, h.nread, h.nwrite, he, Nat.mod_add_mod]

theorem length_pos (h : Fifo s) (he : ¬ empty s) : s.taken.length < s.stored.length := by
  refine lt_of_le_of_ne h.le fun hl => he ?_
  rw [empty, h.nread, h.nwrite, hl]

theorem store (h : Fifo s) (hf : ¬ full s) (i : ℕ) (ch : UInt8) : Fifo (store s t i ch) := by
  have hlt := h.length_lt hf
  have hb : bytes (Pipe.store s t i ch) = bytes s ++ [ch] := by simp [bytes, Pipe.store]
  have hn : (Pipe.store s t i ch).stored.length = s.stored.length + 1 := by simp [Pipe.store]
  constructor
  · exact h.nread
  · rw [hn]
    simp [Pipe.store, h.nwrite]
  · rw [hn]
    exact Nat.le_succ_of_le h.le
  · rw [hn]
    exact hlt
  · rw [hb]
    exact h.taken.trans (List.prefix_append _ _)
  · intro k b hk hkb
    have hlen : k < s.stored.length + 1 := by
      have := (List.getElem?_eq_some_iff.1 hkb).1
      simpa [hb] using this
    simp only [Pipe.store] at hk ⊢
    rw [h.nwrite, mod_uint_mod]
    by_cases he : k = s.stored.length
    · subst he
      rw [update_self]
      simpa [hb, ← length_bytes] using hkb
    · -- the numbers of two bytes in the pipe differ by less than its size
      have hne : k % PIPESIZE ≠ s.stored.length % PIPESIZE := by
        intro hm
        simp only [PIPESIZE] at hlt hm
        omega
      rw [update_of_ne hne]
      refine h.held k b hk ?_
      rw [hb, List.getElem?_append_left (by simp; omega)] at hkb
      exact hkb

theorem take (h : Fifo s) (he : ¬ empty s) (ok : Bool) : Fifo (take s ok) := by
  have hlt := h.length_pos he
  have hb : bytes (Pipe.take s ok) = bytes s := rfl
  obtain ⟨b, hbyte⟩ : ∃ b, (bytes s)[s.taken.length]? = some b :=
    ⟨_, List.getElem?_eq_getElem (by simpa using hlt)⟩
  have hdata : s.data (s.nread % PIPESIZE) = b := by
    rw [h.nread, mod_uint_mod]
    exact h.held _ b le_rfl hbyte
  have hn : (Pipe.take s ok).taken.length = s.taken.length + 1 := by simp [Pipe.take]
  constructor
  · rw [hn]
    simp [Pipe.take, h.nread]
  · exact h.nwrite
  · rw [hn]
    exact hlt
  · rw [hn]
    exact le_trans h.cap (by omega)
  · rw [hb]
    obtain ⟨l, hl⟩ := h.taken
    refine ⟨l.drop 1, ?_⟩
    rw [← hl, List.getElem?_append_right le_rfl, Nat.sub_self] at hbyte
    cases l with
    | nil => simp at hbyte
    | cons x l =>
        simp only [List.getElem?_cons_zero, Option.some.injEq] at hbyte
        simp [Pipe.take, hdata, ← hl, hbyte]
  · intro k b hk hkb
    exact h.held k b (by omega) hkb

theorem run_step (h : Fifo s) (hr : Ran N s t ok (s.pc t) s') : Fifo s' := by
  generalize s.pc t = k at hr
  cases hr with
  | wStore hf _ => exact (h.store hf _ _).congr rfl rfl rfl rfl rfl
  | rTake hi he _ | rFault hi he _ => exact (h.take he ok).congr rfl rfl rfl rfl rfl
  | _ => exact h.congr rfl rfl rfl rfl rfl

theorem step (h : Fifo s) (hs : Pipe.step N s a = some s') : Fifo s' := by
  cases step_cases hs with
  | run _ hr => exact h.run_step hr
  | kill | start => exact h.congr rfl rfl rfl rfl rfl

theorem pipealloc (data : ℕ → UInt8) : Fifo (pipealloc data) := by
  constructor <;> simp [Pipe.pipealloc, bytes]

end Fifo

/-! ### The bytes of one call -/

/-- What call `k` of process `t` stored. -/
def ofCall (s : Sys) (t k : ℕ) : List Stored := s.stored.filter fun e => e.proc = t ∧ e.call = k

/-- The bytes of a call of `pipewrite`, and how many of them it has stored. -/
def Pc.writes : Pc → Option (List UInt8 × ℕ)
  | .wAcq src => some (src, 0)
  | .wTop src i | .wTest src i | .wBody src i | .wWake src i _ | .wSleep src i | .wFalls src i
  | .wSleeps src i
  | .wWoken src i | .wEnd src i _ => some (src, i)
  | _ => none

/-- The position at which the next byte is stored. -/
def Pc.copies : Pc → Bool
  | .wTest _ _ | .wBody _ _ => true
  | _ => false

/-- A call stores its bytes in their order, from the first. -/
structure Calls (s : Sys) : Prop where
  old : ∀ e ∈ s.stored, e.call ≤ s.calls e.proc
  idx : ∀ t k, (ofCall s t k).map (·.idx) = List.range (ofCall s t k).length
  now : ∀ t src i, (s.pc t).writes = some (src, i) → (ofCall s t (s.calls t)).map (·.byte) =
    src.take i ∧ i ≤ src.length
  lt : ∀ t src i, (s.pc t).writes = some (src, i) → (s.pc t).copies = true → i < src.length

@[simp] theorem writes_wakeReader (k : Pc) : (wakeReader k).writes = k.writes := by cases k <;> rfl
@[simp] theorem writes_wakeWriter (k : Pc) : (wakeWriter k).writes = k.writes := by cases k <;> rfl
@[simp] theorem copies_wakeReader (k : Pc) : (wakeReader k).copies = k.copies := by cases k <;> rfl
@[simp] theorem copies_wakeWriter (k : Pc) : (wakeWriter k).copies = k.copies := by cases k <;> rfl

namespace Calls

theorem goto (h : Calls s) {k : Pc} (h1 : s'.stored = s.stored) (h2 : s'.calls = s.calls)
    (hpc : s'.pc = update s.pc t k) (hk : k.writes = none ∨ k.writes = (s.pc t).writes)
    (hc : k.copies = true → (s.pc t).copies = true ∨ ∀ src i, k.writes = some (src, i) →
      i < src.length) : Calls s' := by
  have hw : ∀ r x, (s'.pc r).writes = some x → (s.pc r).writes = some x := by
    rw [hpc]
    grind
  refine ⟨by rw [h1, h2]; exact h.old, ?_, ?_, ?_⟩
  · simpa [ofCall, h1] using h.idx
  · intro r src i hr
    simpa [ofCall, h1, h2] using h.now r src i (hw r _ hr)
  · intro r src i hr hrc
    have := h.lt r src i (hw r _ hr)
    rw [hpc] at hr hrc
    grind

theorem visit (h : Calls s) {wake : Pc → Pc} {j : ℕ} {k : Pc} (hw : ∀ k, (wake k).writes = k.writes)
    (hc : ∀ k, (wake k).copies = k.copies) (hk : k.writes = (s.pc t).writes)
    (hn : k.copies = false) : Calls ((s.goto j (wake (s.pc j))).goto t k) := by
  have h1 : Calls (s.goto j (wake (s.pc j))) := by
    refine h.goto rfl rfl rfl (.inr (hw _)) fun hx => .inl ?_
    rwa [hc] at hx
  exact h1.goto rfl rfl rfl (.inr (by grind)) (by simp [hn])

theorem store (h : Calls s) {src : List UInt8} {i : ℕ} (hk : s.pc t = .wBody src i) :
    Calls ((store s t i (src.getD i 0)).goto t (.wTop src (i + 1))) := by
  have hlt : i < src.length := h.lt t src i (by rw [hk]; rfl) (by rw [hk]; rfl)
  have hnow := (h.now t src i (by rw [hk]; rfl)).1
  have hlen : (ofCall s t (s.calls t)).length = i := by
    have := congrArg List.length hnow
    simpa [Nat.min_eq_left hlt.le] using this
  have hof : ∀ r m, ofCall ((Pipe.store s t i (src.getD i 0)).goto t (.wTop src (i + 1))) r m =
      ofCall s r m ++ if t = r ∧ s.calls t = m then [⟨t, s.calls t, i, src.getD i 0⟩] else [] := by
    intro r m
    simp only [ofCall, Pipe.store, Sys.goto, List.filter_append]
    by_cases he : t = r ∧ s.calls t = m
    · obtain ⟨rfl, rfl⟩ := he
      simp
    · simp [he]
  refine ⟨fun e he => ?_, fun r m => ?_, fun r src' i' hr => ?_, fun r src' i' hr hrc => ?_⟩
  · simp only [Pipe.store, Sys.goto, List.mem_append, List.mem_singleton] at he
    cases he with
    | inl he => exact h.old e he
    | inr he => exact he ▸ le_rfl
  · rw [hof]
    by_cases he : t = r ∧ s.calls t = m
    · obtain ⟨rfl, rfl⟩ := he
      simp [h.idx, hlen, List.range_succ]
    · simp [he, h.idx]
  · rw [hof]
    by_cases he : r = t
    · subst he
      simp only [Sys.goto, update_self, Pc.writes, Option.some.injEq, Prod.mk.injEq] at hr
      obtain ⟨rfl, rfl⟩ := hr
      refine ⟨?_, hlt⟩
      rw [if_pos ⟨rfl, rfl⟩, List.map_append, List.take_add_one, List.getElem?_eq_getElem hlt]
      exact congrArg₂ _ hnow (by simp [hlt])
    · simp only [Sys.goto, update_of_ne he] at hr
      simpa [Sys.goto, Pipe.store, Ne.symm he] using h.now r src' i' hr
  · by_cases he : r = t
    · subst he
      simp [Sys.goto, Pc.copies] at hrc
    · simp only [Sys.goto, update_of_ne he] at hr hrc
      exact h.lt r src' i' hr hrc

theorem run_step (h : Calls s) (hr : Ran N s t ok (s.pc t) s') : Calls s' := by
  generalize hk : s.pc t = k at hr
  cases hr with
  | wStore hf _ => exact h.store hk
  | wWake _ _ | wEnd _ _ => exact h.visit writes_wakeReader copies_wakeReader (by rw [hk]; rfl) rfl
  | rEnd _ _ => exact h.visit writes_wakeWriter copies_wakeWriter (by rw [hk]; rfl) rfl
  | @cWake w j _ _ =>
      cases w
      · exact h.visit writes_wakeWriter copies_wakeWriter (by rw [hk]; rfl) rfl
      · exact h.visit writes_wakeReader copies_wakeReader (by rw [hk]; rfl) rfl
  | @wTop src i hi _ =>
      refine h.goto rfl rfl rfl (.inr (by rw [hk]; rfl)) fun _ => .inr fun src' i' he => ?_
      simp only [Pc.writes, Option.some.injEq, Prod.mk.injEq] at he
      obtain ⟨rfl, rfl⟩ := he
      exact hi
  | wTest _ => exact h.goto rfl rfl rfl (.inr (by rw [hk]; rfl)) fun _ => .inl (by rw [hk]; rfl)
  | wClosed | wKilled | wRet | rKilled | rRet | cFree
  | cRet => exact h.goto rfl rfl rfl (.inl rfl) (by simp [Pc.copies])
  | _ => exact h.goto rfl rfl rfl (.inr (by rw [hk]; rfl)) (by simp [Pc.copies])

theorem step (h : Calls s) (hs : Pipe.step N s a = some s') : Calls s' := by
  cases step_cases hs with
  | run _ hr => exact h.run_step hr
  | @kill t _ hf =>
      have h1 : Calls (s.goto t (wakeWriter (wakeReader (s.pc t)))) := by
        refine h.goto rfl rfl rfl (.inr (by simp)) fun hx => .inl ?_
        simpa using hx
      exact ⟨h1.old, h1.idx, h1.now, h1.lt⟩
  | @start t k hk hb hi =>
      have hnew : ofCall s t (s.calls t + 1) = [] := by
        simp only [ofCall, List.filter_eq_nil_iff, decide_eq_true_eq, not_and]
        rintro e he rfl hc
        have := h.old e he
        omega
      refine ⟨fun e he => ?_, h.idx, fun r src i hr => ?_, fun r src i hr hrc => ?_⟩
      · have := h.old e he
        grind
      · by_cases he : r = t
        · subst he
          simp only [update_self] at hr ⊢
          have hi0 : i = 0 := by cases k <;> simp_all [Pc.starts, Pc.writes]
          subst hi0
          exact ⟨congrArg (List.map _) hnew, Nat.zero_le _⟩
        · simp only [update_of_ne he] at hr ⊢
          exact h.now r src i hr
      · have := h.lt r src i
        have : k.copies = false := by cases k <;> simp_all [Pc.starts, Pc.copies]
        grind

theorem pipealloc (data : ℕ → UInt8) : Calls (pipealloc data) := by
  constructor <;> simp [Pipe.pipealloc, ofCall, Pc.writes]

end Calls

/-! ### The end of the file -/

/-- Where `piperead` has found no byte, with user copies that succeed. -/
structure Eof (s : Sys) : Prop where
  copy : ∀ t n, s.pc t = .rCopy n 0 → ¬ empty s ∨ s.writeopen = false
  done : ∀ t n j, s.pc t = .rEnd n 0 j → 0 < n → empty s ∧ s.writeopen = false
  delivered : s.delivered = s.taken

theorem Eof.run_step (h : Eof s) (hl : Lock N s) (hr : Ran N s t true (s.pc t) s') : Eof s' := by
  have other : ∀ r, r ≠ t → (s'.pc r).holds = true → s'.pc r = s.pc r ∧ (empty s' ↔ empty s) ∧
      s'.writeopen = s.writeopen := by
    intro r hrt hh
    have hpc := hr.pc_of_holds hrt hh
    rw [hpc] at hh
    obtain ⟨h1, h2, -, h4, -⟩ := hl.others hh (Ne.symm hrt) hr
    exact ⟨hpc, by rw [empty, empty, h1, h2], h4⟩
  refine ⟨fun r n hk => ?_, fun r n j hk hn => ?_, ?_⟩
  · by_cases hrt : r = t
    · subst hrt
      generalize s.pc r = k at hr
      cases hr <;> simp [Sys.goto, Sys.ret] at hk
      case rTop he => exact he
    · obtain ⟨h1, h2, h3⟩ := other r hrt (by rw [hk]; rfl)
      rw [h2, h3]
      exact h.copy r n (h1 ▸ hk)
  · by_cases hrt : r = t
    · subst hrt
      have hcopy := h.copy r
      have hdone := h.done r
      generalize s.pc r = k at hr hcopy hdone
      cases hr <;> simp [Sys.goto, Sys.ret] at hk
      case rDone n' i he =>
          obtain ⟨rfl, rfl, -⟩ := hk
          have hempty : empty s := he hn
          exact ⟨hempty, (hcopy n' rfl).resolve_left fun hne => hne hempty⟩
      case rFault ho => cases ho
      case rEnd n' i j' _ _ =>
          obtain ⟨rfl, rfl, -⟩ := hk
          exact hdone n' j' rfl hn
    · obtain ⟨h1, h2, h3⟩ := other r hrt (by rw [hk]; rfl)
      rw [h2, h3]
      exact h.done r n j (h1 ▸ hk) hn
  · have hd := h.delivered
    generalize s.pc t = k at hr
    cases hr with
    | rTake _ _ _ => simp [Sys.goto, take, hd]
    | rFault _ _ ho => cases ho
    | _ => exact hd

/-- The step is one with a user copy that fails, if it has one. -/
def Act.faults : Act → Bool
  | .run _ ok => !ok
  | _ => false

theorem Eof.step (h : Eof s) (hl : Lock N s) (ha : a.faults = false)
    (hs : Pipe.step N s a = some s') : Eof s' := by
  cases step_cases hs with
  | @run t ok s' hrun hr =>
      cases ok with
      | true => exact h.run_step hl hr
      | false => simp [hrun, Act.faults] at ha
  | @kill t _ hf =>
      refine ⟨fun r n hk => h.copy r n ?_, fun r n j hk => h.done r n j ?_, h.delivered⟩
      all_goals cases hpc : s.pc t <;> grind [wakeReader, wakeWriter]
  | @start t k hk hb hi =>
      refine ⟨fun r n hr => h.copy r n ?_, fun r n j hr => h.done r n j ?_, h.delivered⟩
      all_goals grind [Pc.starts]

theorem Eof.pipealloc (data : ℕ → UInt8) : Eof (pipealloc data) := by
  constructor <;> simp [Pipe.pipealloc]

/-! ### The whole -/

/-- **Pipes are exact queues.**  In every run of any number of processes whose user copies succeed,
however often the counters wrap: what has been delivered is a prefix of what has been stored; the
rest is as long as `nwrite - nread`, at most `PIPESIZE`, and lies in the buffer from the place of
`nread` on; every call has stored its bytes in their order from the first; and `piperead` returns 0
for `n > 0` only if the pipe is empty and its write end is closed. -/
theorem pipe_is_fifo {data : ℕ → UInt8} {as : List Act}
    (h : Runs.exec (step N) (pipealloc data) as = some s) (ha : ∀ a ∈ as, a.faults = false) :
    s.delivered <+: bytes s ∧
    ((bytes s).drop s.delivered.length).length = (s.nwrite + UINT - s.nread) % UINT ∧
    ((bytes s).drop s.delivered.length).length ≤ PIPESIZE ∧
    (∀ k b, ((bytes s).drop s.delivered.length)[k]? = some b → s.data ((s.nread + k) % PIPESIZE) = b) ∧
    (∀ t k, (ofCall s t k).map (·.idx) = List.range (ofCall s t k).length) ∧
    (∀ t src i, (s.pc t).writes = some (src, i) → (ofCall s t (s.calls t)).map (·.byte) = src.take i) ∧
    (∀ t n i j s', s.pc t = .rEnd n i j → step N s (.run t true) = some s' → s'.pc t = .idle →
      s'.result t = 0 → 0 < n → empty s ∧ s.writeopen = false) := by
  obtain ⟨hf, hc, -, he⟩ : Fifo s ∧ Calls s ∧ Lock N s ∧ Eof s := by
    refine Runs.exec_induction (P := fun ls u => (∀ a ∈ ls, a.faults = false) → Fifo u ∧ Calls u ∧
      Lock N u ∧ Eof u) (fun _ => ⟨.pipealloc data, .pipealloc data, .pipealloc data,
        .pipealloc data⟩) ?_ h ha
    intro ls u l v _ hP hs hl
    obtain ⟨h1, h2, h3, h4⟩ := hP fun a ha => hl a (by simp [ha])
    exact ⟨h1.step hs, h2.step hs, h3.step hs, h4.step h3 (hl l (by simp)) hs⟩
  have hlen : ((bytes s).drop s.delivered.length).length = s.stored.length - s.taken.length := by
    simp [he.delivered]
  have hle := hf.le
  have hcap := hf.cap
  refine ⟨he.delivered ▸ hf.taken, ?_, ?_, fun k b hk => ?_, hc.idx, fun t src i hw =>
    (hc.now t src i hw).1, ?_⟩
  · rw [hlen, hf.nread, hf.nwrite]
    simp only [UINT, PIPESIZE] at *
    omega
  · rw [hlen]
    omega
  · rw [List.getElem?_drop, he.delivered] at hk
    have hplace : (s.nread + k) % PIPESIZE = (s.taken.length + k) % PIPESIZE := by
      rw [hf.nread, Nat.add_mod, mod_uint_mod, ← Nat.add_mod]
    rw [hplace]
    exact hf.held _ b (Nat.le_add_right _ k) hk
  · intro t n i j s' hk hs hi hres hn
    have hr := run_cases hs
    rw [hk] at hr
    cases hr with
    | rEnd _ _ => simp [Sys.goto] at hi
    | rRet hj =>
        simp only [Sys.ret, update_self, Int.natCast_eq_zero] at hres
        subst hres
        exact he.done t n j hk hn

/-- Process 0 writes two bytes, and process 1 reads one of them. -/
def transfer : List Act :=
  .write 0 [5, 6] :: List.replicate 11 (.run 0 true) ++ .read 1 1 :: List.replicate 7 (.run 1 true)

set_option maxRecDepth 100000 in
theorem transfer_is_fifo : let s := Runs.after (step 2) (pipealloc fun _ => 0) transfer
    s.delivered = [5] ∧ bytes s = [5, 6] ∧ s.delivered <+: bytes s ∧
    ((bytes s).drop s.delivered.length).length = (s.nwrite + UINT - s.nread) % UINT := by
  have h := pipe_is_fifo (Runs.exec_after (step 2) (pipealloc fun _ => 0) transfer
    (by decide +kernel)) (by decide +kernel)
  exact ⟨by decide +kernel, by decide +kernel, h.1, h.2.1⟩

end Xv6Cow.Pipe

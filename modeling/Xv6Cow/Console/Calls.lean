import Xv6Cow.Console.Line
import Mathlib.Tactic.Ring

/-! # Calls of `consoleread`

What each call has taken from the stream, at each point where it can be.  A call that goes on has
only taken characters that it has copied, and its `n` is the number of bytes that it may still copy.
It takes `^D` only as its first character, and returns 0 then. -/

namespace Xv6Cow.Console

open Function (update update_self update_of_ne)

variable {s t : State} {l : Line} {pc : Pc} {i j target : ℕ} {n : ℤ} {xs : List Item} {c : UInt8}
    {a : Act}

/-! ### `int` and `uint` -/

theorem UINT_eq : (UINT : ℤ) = 2 ^ 32 := by
  unfold UINT
  norm_num

theorem int32_self (h : -2 ^ 31 ≤ n ∧ n < 2 ^ 31) : int32 n = n :=
  Int.bmod_eq_of_le (by rw [UINT_eq]; omega) (by rw [UINT_eq]; omega)

theorem int32_congr {x y : ℤ} (h : (UINT : ℤ) ∣ x - y) : int32 x = int32 y := by
  unfold int32
  rw [← Int.emod_bmod, ← Int.emod_bmod y, Int.emod_eq_emod_iff_emod_sub_eq_zero.mpr
    (Int.emod_eq_zero_of_dvd h)]

/-- `target` stands for the argument of the call. -/
theorem int32_target (h : isInt n = true) : int32 ((n % UINT).toNat : ℤ) = n := by
  have hpos : (0 : ℤ) < UINT := by
    rw [UINT_eq]
    decide
  rw [Int.toNat_of_nonneg (Int.emod_nonneg n hpos.ne')]
  unfold int32
  rw [Int.emod_bmod]
  exact int32_self (of_decide_eq_true h)

/-- `target - n` is the number of bytes that have been copied. -/
theorem int32_sub {k : ℕ} (hn : n = int32 target - k) (hk : (k : ℤ) < 2 ^ 31) :
    int32 (target - n) = k := by
  have hdvd : (UINT : ℤ) ∣ (target - n) - k := by
    rw [hn, show (target : ℤ) - (int32 target - k) - k = -(int32 target - target) by ring]
    exact Int.dvd_neg.mpr Int.dvd_bmod_sub_self
  rw [int32_congr hdvd]
  exact int32_self (by omega)

/-! ### What a call has taken -/

/-- The characters that call `i` has taken. -/
def Line.items (l : Line) (i : ℕ) : List Item := l.taken.filter (fun x => x.call = i)

theorem items_took_self (l : Line) (i : ℕ) (c : UInt8) (fate : Fate) :
    (l.add (.took i c fate)).items i = l.items i ++ [⟨i, c, fate⟩] := by
  simp [Line.items, Line.add, List.filter_append]

theorem items_took_other (l : Line) (hne : j ≠ i) (c : UInt8) (fate : Fate) :
    (l.add (.took i c fate)).items j = l.items j := by
  simp [Line.items, Line.add, List.filter_append, hne.symm]

theorem taken_put (l : Line) (c : UInt8) : (l.put c).taken = l.taken := by
  unfold Line.put
  dsimp only
  split_ifs <;> rfl

theorem taken_typed (l : Line) (c : UInt8) : (l.typed c).taken = l.taken := by
  unfold Line.typed
  split_ifs
  iterate 4 rfl
  exact taken_put l (cook c)

/-- A call that may go on: it has copied the characters `xs`, and may copy `n` more. -/
structure Going (target : ℕ) (n : ℤ) (xs : List Item) : Prop where
  small : target < UINT
  left : n = int32 target - xs.length
  copied : ∀ x ∈ xs, x.fate = .copied
  nonneg : xs ≠ [] → 0 ≤ n

/-- A call that has left its loop. -/
inductive Ended (target : ℕ) (n : ℤ) : List Item → Prop
  | copied {xs : List Item} (h : Going target n xs) : Ended target n xs
  | eof (x : Item) (hx : x.fate = .eof) (hn : n = int32 target) : Ended target n [x]
  | lost {xs : List Item} (h : Going target n xs) (x : Item) (hx : x.fate = .lost) :
    Ended target n (xs ++ [x])

/-- What a call that is at `pc` has taken. -/
def Has (xs : List Item) : Pc → Prop
  | .fresh => xs = []
  | .enter n => xs = [] ∧ isInt n = true
  | .loop target n => Going target n xs
  | .wait target n => Going target n xs ∧ 0 < n
  | .sleep target n => Going target n xs ∧ 0 < n
  | .woken target n => Going target n xs ∧ 0 < n
  | .leave target n => Ended target n xs
  | .done target v => ∃ n, (v = -1 ∧ Going target n xs) ∨ (v = int32 (target - n) ∧ Ended target n xs)

theorem has_wake (h : Has xs pc) : Has xs pc.wake := by
  cases pc <;> exact h

/-- A positive `n` and `target` are compared as what they are. -/
theorem Going.target_eq (h : Going target n xs) (hn : 0 < n) : (target : ℤ) = int32 target ∧
    n % UINT = n := by
  have hlt : (target : ℤ) < 2 ^ 32 := by
    rw [← UINT_eq]
    exact_mod_cast h.small
  have hpos : 0 < int32 target := by
    have := h.left
    omega
  have hself : (target : ℤ) = int32 target := by
    unfold int32 at hpos ⊢
    rw [Int.bmod_def, UINT_eq] at hpos ⊢
    split_ifs at hpos ⊢ <;> omega
  have hle := h.left
  refine ⟨hself, Int.emod_eq_of_lt hn.le ?_⟩
  rw [UINT_eq]
  omega

theorem Going.snoc (h : Going target n xs) (hn : 0 < n) (x : Item) (hx : x.fate = .copied) :
    Going target (n - 1) (xs ++ [x]) where
  small := h.small
  left := by
    rw [h.left, List.length_append, List.length_singleton]
    push_cast
    ring
  copied := by
    intro y hy
    rcases List.mem_append.mp hy with hy | hy
    · exact h.copied y hy
    · rwa [List.mem_singleton.mp hy]
  nonneg _ := by omega

theorem going_start (h : isInt n = true) : Going (n % UINT).toNat n [] where
  small := by
    have hpos : (0 : ℤ) < UINT := by exact_mod_cast UINT_pos
    have := Int.emod_lt_of_pos n hpos
    have := Int.emod_nonneg n hpos.ne'
    omega
  left := by rw [int32_target h, List.length_nil, Nat.cast_zero, sub_zero]
  copied _ hx := absurd hx List.not_mem_nil
  nonneg hne := absurd rfl hne

/-! ### The invariant -/

/-- The call holds `cons.lock`. -/
def Pc.locked : Pc → Bool
  | .loop _ _ => true
  | .wait _ _ => true
  | .leave _ _ => true
  | _ => false

structure Inv (s : State) : Prop where
  holds : Holds s.cons (line s.trace)
  lock : ∀ i, (s.calls i).locked = true → s.lock = some i
  fresh : ∀ i, s.started ≤ i → s.calls i = .fresh
  has : ∀ i, Has ((line s.trace).items i) (s.calls i)
  fate : ∀ x ∈ (line s.trace).taken, x.fate = .eof ↔ x.char = ctrl 'D'

theorem locked_wake (pc : Pc) : pc.wake.locked = pc.locked := by cases pc <;> rfl

theorem wake_eq_fresh (pc : Pc) (h : pc = .fresh) : pc.wake = .fresh := by
  rw [h]
  rfl

/-- A call moves on, and takes no character. -/
theorem Inv.move (h : Inv s) {k : Option ℕ} (hi : i < s.started)
    (hlock : k = s.lock ∨ s.lock = none ∨ s.lock = some i) (hpc : pc.locked = true → k = some i)
    (hhas : Has ((line s.trace).items i) pc) : Inv ({ s with lock := k }.setPc i pc) := by
  refine ⟨h.holds, ?_, ?_, ?_, h.fate⟩
  · intro j (hj : (update s.calls i pc j).locked = true)
    rcases eq_or_ne j i with rfl | hne
    · exact hpc (by rwa [update_self] at hj)
    · rw [update_of_ne hne] at hj
      have hs := h.lock j hj
      rcases hlock with he | hn | hn
      · exact he.trans hs
      · rw [hn] at hs
        exact absurd hs (by simp)
      · rw [hn] at hs
        exact absurd (Option.some.inj hs).symm hne
  · intro j hj
    have hne : j ≠ i := by
      rintro rfl
      exact absurd hi (Nat.not_lt.mpr hj)
    exact (update_of_ne hne _ _).trans (h.fresh j hj)
  · intro j
    show Has ((line s.trace).items j) (update s.calls i pc j)
    rcases eq_or_ne j i with rfl | hne
    · rwa [update_self]
    · rw [update_of_ne hne]
      exact h.has j

theorem Inv.lt_started (h : Inv s) (hi : s.calls i ≠ .fresh) : i < s.started :=
  Nat.lt_of_not_le (fun hle => hi (h.fresh i hle))

theorem Inv.intr (h : Inv s) (c : UInt8) {calls : ℕ → Pc}
    (hcalls : calls = s.calls ∨ calls = fun i => (s.calls i).wake) :
    Inv { s with cons := (consoleintr s.cons c).1, calls := calls, trace := s.trace ++ [.typed c] } := by
  have htaken : (line (s.trace ++ [.typed c])).taken = (line s.trace).taken := by
    rw [line_snoc]
    exact taken_typed (line s.trace) c
  have hitems : ∀ i, (line (s.trace ++ [.typed c])).items i = (line s.trace).items i :=
    fun i => congrArg (List.filter _) htaken
  refine ⟨?_, ?_, ?_, ?_, ?_⟩
  · show Holds (consoleintr s.cons c).1 (line (s.trace ++ [.typed c]))
    rw [line_snoc]
    exact h.holds.intr c
  · intro i hi
    rcases hcalls with rfl | rfl
    · exact h.lock i hi
    · exact h.lock i ((locked_wake _).symm.trans hi)
  · intro i hi
    rcases hcalls with rfl | rfl
    · exact h.fresh i hi
    · exact wake_eq_fresh _ (h.fresh i hi)
  · intro i
    rw [hitems i]
    rcases hcalls with rfl | rfl
    · exact h.has i
    · exact has_wake (h.has i)
  · rw [htaken]
    exact h.fate

/-- Call `i` takes the next character, and goes to `pc`. -/
theorem Inv.take (h : Inv s) {fate : Fate} (hi : s.calls i = .wait target n) (hne : s.cons.r ≠ s.cons.w)
    (hfate : fate = .eof ↔ s.cons.buf (s.cons.r % INPUT_BUF_SIZE) = ctrl 'D')
    (hhas : Has ((line s.trace).items i ++ [⟨i, s.cons.buf (s.cons.r % INPUT_BUF_SIZE), fate⟩]) pc) :
    Inv ((s.take i fate).setPc i pc) := by
  have hlock : s.lock = some i := h.lock i (by rw [hi]; rfl)
  have hlt := h.lt_started (i := i) (by simp [hi])
  refine ⟨?_, ?_, ?_, ?_, ?_⟩
  · show Holds { s.cons with r := (s.cons.r + 1) % UINT } (line (s.trace ++ [_]))
    rw [line_snoc]
    exact h.holds.take hne i fate
  · intro j (hj : (update s.calls i pc j).locked = true)
    rcases eq_or_ne j i with rfl | hji
    · exact hlock
    · rw [update_of_ne hji] at hj
      exact h.lock j hj
  · intro j hj
    have hji : j ≠ i := by
      rintro rfl
      exact absurd hlt (Nat.not_lt.mpr hj)
    exact (update_of_ne hji _ _).trans (h.fresh j hj)
  · intro j
    show Has ((line (s.trace ++ [_])).items j) (update s.calls i pc j)
    rw [line_snoc]
    rcases eq_or_ne j i with rfl | hji
    · rw [items_took_self, update_self]
      exact hhas
    · rw [items_took_other _ hji, update_of_ne hji]
      exact h.has j
  · intro x hx
    replace hx :
      x ∈ (line (s.trace ++ [.took i (s.cons.buf (s.cons.r % INPUT_BUF_SIZE)) fate])).taken := hx
    rw [line_snoc] at hx
    rcases List.mem_append.mp hx with hx | hx
    · exact h.fate x hx
    · rw [List.mem_singleton.mp hx]
      exact hfate

theorem Inv.readChar (h : Inv s) (hi : s.calls i = .wait target n) (hne : s.cons.r ≠ s.cons.w)
    (ok : Bool) : Inv (readChar s i target n ok) := by
  have hgoing : Going target n ((line s.trace).items i) ∧ 0 < n := by
    have := h.has i
    rwa [hi] at this
  have hlt := h.lt_started (i := i) (by simp [hi])
  have hlock : s.lock = some i := h.lock i (by rw [hi]; rfl)
  obtain ⟨htarget, hmod⟩ := hgoing.1.target_eq hgoing.2
  unfold Console.readChar
  by_cases hD : s.cons.buf (s.cons.r % INPUT_BUF_SIZE) = ctrl 'D'
  · rw [if_pos hD]
    by_cases hsome : n % UINT < target
    · rw [if_pos hsome]
      exact h.move (k := s.lock) hlt (Or.inl rfl) (fun _ => hlock) (.copied hgoing.1)
    · rw [if_neg hsome]
      have hlen : (line s.trace).items i = [] := by
        have := hgoing.1.left
        exact List.length_eq_zero_iff.mp (by omega)
      refine h.take hi hne ⟨fun _ => hD, fun _ => rfl⟩ ?_
      rw [hlen]
      have hleft := hgoing.1.left
      rw [hlen] at hleft
      exact .eof _ rfl (by simpa using hleft)
  · rw [if_neg hD]
    cases ok with
    | false =>
        exact h.take hi hne ⟨fun he => absurd he (by simp), fun he => absurd he hD⟩
          (.lost hgoing.1 _ rfl)
    | true =>
        have hsnoc := hgoing.1.snoc hgoing.2 ⟨i, s.cons.buf (s.cons.r % INPUT_BUF_SIZE), .copied⟩ rfl
        refine h.take hi hne ⟨fun he => absurd he (by simp), fun he => absurd he hD⟩ ?_
        split_ifs
        · exact .copied hsnoc
        · exact hsnoc

theorem Inv.run (h : Inv s) {ok : Bool} (hs : run s i ok = some t) : Inv t := by
  have hhas := h.has i
  have hlock : (s.calls i).locked = true → s.lock = some i := h.lock i
  unfold Console.run at hs
  cases hpc : s.calls i with
  | loop target n =>
      rw [hpc] at hs hhas hlock
      cases hs
      refine h.move (k := s.lock) (h.lt_started (by simp [hpc])) (Or.inl rfl) (fun _ => hlock rfl) ?_
      split_ifs with hn
      · exact ⟨hhas, hn⟩
      · exact .copied hhas
  | wait target n =>
      rw [hpc] at hs hhas hlock
      have hlt := h.lt_started (i := i) (by simp [hpc])
      dsimp only at hs
      split_ifs at hs with he hk
      all_goals cases hs
      · exact h.move hlt (Or.inr (Or.inr (hlock rfl))) (fun hl => absurd hl (by simp [Pc.locked]))
          ⟨n, Or.inl ⟨rfl, hhas.1⟩⟩
      · exact h.move hlt (Or.inr (Or.inr (hlock rfl))) (fun hl => absurd hl (by simp [Pc.locked])) hhas
      · exact h.readChar hpc he ok
  | leave target n =>
      rw [hpc] at hs hhas hlock
      cases hs
      exact h.move (h.lt_started (by simp [hpc])) (Or.inr (Or.inr (hlock rfl)))
        (fun hl => absurd hl (by simp [Pc.locked])) ⟨n, Or.inr ⟨rfl, hhas⟩⟩
  | _ =>
      rw [hpc] at hs
      cases hs

theorem Inv.call (h : Inv s) (hn : isInt n = true) :
    Inv ({ s with started := s.started + 1 }.setPc s.started (.enter n)) := by
  have hfresh := h.fresh s.started le_rfl
  have hnone : (line s.trace).items s.started = [] := by
    have := h.has s.started
    rwa [hfresh] at this
  have hold : Inv { s with started := s.started + 1 } :=
    ⟨h.holds, h.lock, fun i hi => h.fresh i (Nat.le_of_succ_le hi), h.has, h.fate⟩
  exact hold.move (k := s.lock) (Nat.lt_succ_self _) (Or.inl rfl)
    (fun hl => absurd hl (by simp [Pc.locked])) ⟨hnone, hn⟩

theorem Inv.step (h : Inv s) (hs : step s a = some t) : Inv t := by
  cases a with
  | intr c =>
      simp only [Console.step] at hs
      split_ifs at hs with hlock
      all_goals cases hs
      · exact h.intr c (Or.inr rfl)
      · exact h.intr c (Or.inl rfl)
  | call n =>
      simp only [Console.step] at hs
      split_ifs at hs with hn
      cases hs
      exact h.call hn
  | acquire i =>
      have hhas := h.has i
      simp only [Console.step] at hs
      split_ifs at hs with hlock
      cases hpc : s.calls i with
      | enter n =>
          rw [hpc] at hs hhas
          cases hs
          refine h.move (h.lt_started (by simp [hpc])) (Or.inr (Or.inl hlock)) (fun _ => rfl) ?_
          rw [hhas.1]
          exact going_start hhas.2
      | woken target n =>
          rw [hpc] at hs hhas
          cases hs
          exact h.move (h.lt_started (by simp [hpc])) (Or.inr (Or.inl hlock)) (fun _ => rfl) hhas
      | _ =>
          rw [hpc] at hs
          cases hs
  | run i ok => exact h.run hs
  | kill i =>
      cases hs
      refine ⟨h.holds, ?_, ?_, ?_, h.fate⟩
      · intro j (hj : (update s.calls i (s.calls i).wake j).locked = true)
        rcases eq_or_ne j i with rfl | hne
        · rw [update_self, locked_wake] at hj
          exact h.lock j hj
        · rw [update_of_ne hne] at hj
          exact h.lock j hj
      · intro j hj
        show update s.calls i (s.calls i).wake j = .fresh
        rcases eq_or_ne j i with rfl | hne
        · rw [update_self]
          exact wake_eq_fresh _ (h.fresh j hj)
        · rw [update_of_ne hne]
          exact h.fresh j hj
      · intro j
        show Has ((line s.trace).items j) (update s.calls i (s.calls i).wake j)
        rcases eq_or_ne j i with rfl | hne
        · rw [update_self]
          exact has_wake (h.has j)
        · rw [update_of_ne hne]
          exact h.has j

theorem init_inv : Inv init where
  holds := holds_init
  lock i hi := absurd hi (by simp [init, Pc.locked])
  fresh _ _ := rfl
  has _ := rfl
  fate x hx := absurd hx List.not_mem_nil

end Xv6Cow.Console

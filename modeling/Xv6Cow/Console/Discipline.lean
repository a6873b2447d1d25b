import Xv6Cow.Console.Calls

/-! # The line discipline

Whatever is typed and whoever reads: the calls get the committed characters, in order and each once,
and none of them gets `^D`, which makes one call return 0.  Calls that run one at a time do not read
past a `^D`.  A call that sleeps in the middle of a line may, if another one takes the `^D` in the
meantime. -/

namespace Xv6Cow.Console

open RingIndex Runs

variable {s t : State} {i target : ℕ} {n : ℤ} {xs : List Item} {x : Item} {a : Act}

/-! ### What the calls get -/

structure Disciplined (s : State) : Prop where
  /-- The indices: `cons.w` is between `cons.r` and `cons.e`, and a full buffer can be read. -/
  room : sub32 s.cons.e s.cons.r ≤ INPUT_BUF_SIZE
  between : sub32 s.cons.w s.cons.r + sub32 s.cons.e s.cons.w = sub32 s.cons.e s.cons.r
  full : sub32 s.cons.e s.cons.r = INPUT_BUF_SIZE → s.cons.w = s.cons.e
  /-- The bytes that have been copied are the first committed characters, and the others are in the
  buffer. -/
  delivered : ((line s.trace).taken.filter (fun x => x.fate = .copied)).map Item.char =
    ((line s.trace).stream.take (line s.trace).taken.length).filter (fun c => c ≠ ctrl 'D')
  kept : (line s.trace).stream.drop (line s.trace).taken.length =
    (List.range (sub32 s.cons.w s.cons.r)).map (fun k => s.cons.buf ((s.cons.r + k) % INPUT_BUF_SIZE))
  /-- `^D` is not copied; the call that takes it takes nothing else, and returns 0. -/
  plain : ∀ x ∈ (line s.trace).taken, x.fate = .copied → x.char ≠ ctrl 'D'
  eof : ∀ x ∈ (line s.trace).taken, x.char = ctrl 'D' → (line s.trace).items x.call = [x] ∧
    ∃ target, s.calls x.call = .done target 0 ∨ ∃ n, s.calls x.call = .leave target n ∧
      int32 (target - n) = 0
  /-- A call that is not killed returns the number of bytes that it has copied. -/
  returned : ∀ i target v, s.calls i = .done target v → v = -1 ∨
    v = (((line s.trace).items i).filter (fun x => x.fate = .copied)).length

/-- No call gets characters from both sides of a `^D`. -/
def OneSided (s : State) : Prop :=
  ∀ x y z, [x, y, z].Sublist (line s.trace).taken → x.call = z.call → y.char ≠ ctrl 'D'

theorem Going.filter_copied (h : Going target n xs) : xs.filter (fun x => x.fate = .copied) = xs :=
  List.filter_eq_self.mpr (fun x hx => decide_eq_true (h.copied x hx))

theorem int32_lt (x : ℤ) : int32 x < 2 ^ 31 := by
  have hlt := Int.bmod_lt (x := x) (m := UINT) UINT_pos
  rw [UINT_eq] at hlt
  unfold int32
  omega

/-- The number of characters that a call has copied is what it subtracts from `target`. -/
theorem Going.count (h : Going target n xs) : int32 (target - n) = xs.length := by
  refine int32_sub h.left ?_
  have hlt := int32_lt target
  have hleft := h.left
  rcases eq_or_ne xs [] with rfl | hne
  · simp
  · have hnonneg := h.nonneg hne
    omega

theorem Ended.count (h : Ended target n xs) :
    int32 (target - n) = (xs.filter (fun x => x.fate = .copied)).length := by
  cases h with
  | copied h => rw [h.filter_copied, h.count]
  | eof x hx hn =>
      rw [List.filter_singleton, hx]
      exact int32_sub (k := 0) (by simpa using hn) (by decide)
  | lost h x hx =>
      rw [List.filter_append, List.filter_singleton, hx, h.filter_copied, h.count]
      simp

/-- A call that has taken `^D` has taken nothing else. -/
theorem Ended.eof_only (h : Ended target n xs) (hx : x ∈ xs) (heof : x.fate = .eof) : xs = [x] ∧
    int32 (target - n) = 0 := by
  cases h with
  | copied h =>
      rw [h.copied x hx] at heof
      exact absurd heof (by simp)
  | eof y hy hn =>
      rw [List.mem_singleton.mp hx]
      exact ⟨rfl, int32_sub (k := 0) (by simpa using hn) (by decide)⟩
  | lost h y hy =>
      rcases List.mem_append.mp hx with hx | hx
      · rw [h.copied x hx] at heof
        exact absurd heof (by simp)
      · rw [List.mem_singleton.mp hx, hy] at heof
        exact absurd heof (by simp)

theorem Going.not_eof (h : Going target n xs) (hx : x ∈ xs) : x.fate ≠ .eof := by
  rw [h.copied x hx]
  simp

theorem has_eof {pc : Pc} (h : Has xs pc) (hx : x ∈ xs) (heof : x.fate = .eof) : xs = [x] ∧
    ∃ target, pc = .done target 0 ∨ ∃ n, pc = .leave target n ∧ int32 (target - n) = 0 := by
  cases pc with
  | fresh =>
      rw [show xs = [] from h] at hx
      exact absurd hx List.not_mem_nil
  | enter n =>
      rw [h.1] at hx
      exact absurd hx List.not_mem_nil
  | loop target n => exact absurd heof (Going.not_eof h hx)
  | wait target n => exact absurd heof (Going.not_eof h.1 hx)
  | sleep target n => exact absurd heof (Going.not_eof h.1 hx)
  | woken target n => exact absurd heof (Going.not_eof h.1 hx)
  | leave target n =>
      obtain ⟨honly, hzero⟩ := Ended.eof_only h hx heof
      exact ⟨honly, target, Or.inr ⟨n, rfl, hzero⟩⟩
  | done target v =>
      obtain ⟨n, ⟨-, hgoing⟩ | ⟨rfl, hended⟩⟩ := h
      · exact absurd heof (hgoing.not_eof hx)
      · obtain ⟨honly, hzero⟩ := hended.eof_only hx heof
        exact ⟨honly, target, Or.inl (by rw [hzero])⟩

theorem mem_items (hx : x ∈ (line s.trace).taken) : x ∈ (line s.trace).items x.call :=
  List.mem_filter.mpr ⟨hx, decide_eq_true rfl⟩

theorem copied_chars (h : ∀ x ∈ xs, x.fate = .copied ↔ x.char ≠ ctrl 'D') :
    (xs.filter (fun x => x.fate = .copied)).map Item.char = (xs.map Item.char).filter
      (fun c => c ≠ ctrl 'D') := by
  rw [List.filter_map]
  refine congrArg _ (List.filter_congr (fun x hx => ?_))
  exact decide_eq_decide.mpr (h x hx)

theorem Inv.disciplined (h : Inv s) (hlost : ∀ x ∈ (line s.trace).taken, x.fate ≠ .lost) :
    Disciplined s := by
  have hh := h.holds
  have hfate : ∀ x ∈ (line s.trace).taken, x.fate = .copied ↔ x.char ≠ ctrl 'D' := by
    intro x hx
    rw [ne_eq, ← h.fate x hx]
    have hl := hlost x hx
    cases hf : x.fate with
    | copied => simp
    | eof => simp
    | lost => exact absurd hf hl
  have hsub : sub32 s.cons.e s.cons.r = count UINT s.cons.r s.cons.w + count UINT s.cons.w s.cons.e := by
    rw [hh.sub, hh.unread_eq]
  refine ⟨?_, ?_, ?_, ?_, ?_, ?_, ?_, ?_⟩
  · rw [hh.sub]
    exact hh.unread_le
  · rw [hsub, sub32_eq hh.w_lt hh.r_lt, sub32_eq hh.e_lt hh.w_lt]
  · rw [hsub]
    exact hh.full
  · rw [copied_chars hfate, hh.taken]
  · rw [sub32_eq hh.w_lt hh.r_lt, ← hh.unread]
    rfl
  · exact fun x hx hc => (hfate x hx).mp hc
  · intro x hx hD
    exact has_eof (h.has x.call) (mem_items hx) ((h.fate x hx).mpr hD)
  · intro i target v hv
    have hhas := h.has i
    rw [hv] at hhas
    obtain ⟨n, ⟨hv, -⟩ | ⟨hv, hended⟩⟩ := hhas
    · exact Or.inl hv
    · exact Or.inr (hv.trans hended.count)

/-! ### Copies that succeed -/

/-- The copy of the step succeeds. -/
def copies (_ : State) : Act → Bool
  | .run _ false => false
  | _ => true

/-- What a step takes from the stream. -/
def Took (s t : State) (a : Act) : Prop :=
  (line t.trace).taken = (line s.trace).taken ∨ ∃ x : Item, (line t.trace).taken =
    (line s.trace).taken ++ [x] ∧ (∃ target n, s.calls x.call = .wait target n) ∧
    (copies s a = true → x.fate ≠ .lost)

theorem took_take {fate : Fate} {pc : Pc} {ok : Bool} (hi : s.calls i = .wait target n)
    (hfate : ok = true → fate ≠ .lost) : Took s ((s.take i fate).setPc i pc) (.run i ok) := by
  refine Or.inr ⟨⟨i, s.cons.buf (s.cons.r % INPUT_BUF_SIZE), fate⟩, ?_, ⟨target, n, hi⟩, ?_⟩
  · show (line (s.trace ++ [_])).taken = _
    rw [line_snoc]
    rfl
  · intro hc
    cases ok with
    | true => exact hfate rfl
    | false => exact absurd hc (by simp [copies])

theorem took_readChar {ok : Bool} (hi : s.calls i = .wait target n) :
    Took s (readChar s i target n ok) (.run i ok) := by
  unfold readChar
  dsimp only
  split_ifs with hD hsome hok
  · exact Or.inl rfl
  · exact took_take hi (fun _ => by simp)
  · refine took_take hi (fun h => ?_)
    rw [h] at hok
    exact absurd hok (by simp)
  · exact took_take hi (fun _ => by simp)
  · exact took_take hi (fun _ => by simp)

theorem took_step (hs : step s a = some t) : Took s t a := by
  cases a with
  | intr c =>
      simp only [step] at hs
      split_ifs at hs
      all_goals cases hs
      all_goals
        refine Or.inl ?_
        show (line (s.trace ++ [_])).taken = _
        rw [line_snoc]
        exact taken_typed _ c
  | call n =>
      simp only [step] at hs
      split_ifs at hs
      cases hs
      exact Or.inl rfl
  | acquire i =>
      simp only [step] at hs
      split_ifs at hs
      split at hs
      all_goals cases hs
      all_goals exact Or.inl rfl
  | run i ok =>
      simp only [step, run] at hs
      split at hs
      · cases hs
        exact Or.inl rfl
      · rename_i hpc
        split_ifs at hs
        all_goals cases hs
        · exact Or.inl rfl
        · exact Or.inl rfl
        · exact took_readChar hpc
      · cases hs
        exact Or.inl rfl
      · cases hs
  | kill i =>
      cases hs
      exact Or.inl rfl

/-- While copies succeed no character is lost. -/
theorem no_lost {ls : List Act} (h : exec step init ls = some s)
    (hok : along step copies init ls = true) : ∀ x ∈ (line s.trace).taken, x.fate ≠ .lost := by
  refine exec_along (I := fun s => ∀ x ∈ (line s.trace).taken, x.fate ≠ .lost) ?_ ?_ hok h
  · intro s a t hI hc hs x hx
    rcases took_step hs with he | ⟨y, he, -, hy⟩
    · exact hI x (he ▸ hx)
    · rw [he] at hx
      rcases List.mem_append.mp hx with hx | hx
      · exact hI x hx
      · rw [List.mem_singleton.mp hx]
        exact hy hc
  · intro x hx
    exact absurd hx List.not_mem_nil

/-! ### Calls one at a time -/

/-- The call is under way. -/
def Pc.active : Pc → Bool
  | .fresh => false
  | .done _ _ => false
  | _ => true

/-- A call begins only after the others have returned. -/
def alone (s : State) : Act → Bool
  | .call _ => (List.range s.started).all (fun i => !(s.calls i).active)
  | _ => true

/-- One call is under way, and what a call has taken stands together. -/
structure Solo (s : State) : Prop where
  one : ∀ i j, (s.calls i).active = true → (s.calls j).active = true → i = j
  grouped : ∀ x y z, [x, y, z].Sublist (line s.trace).taken → x.call = z.call → y.call = x.call
  last : ∀ i, (s.calls i).active = true → ∀ x y, [x, y].Sublist (line s.trace).taken → x.call = i →
    y.call = i

theorem active_wake (pc : Pc) : pc.wake.active = pc.active := by cases pc <;> rfl

theorem active_update {pc : Pc} {j : ℕ} (hi : (s.calls i).active = true)
    (hj : (Function.update s.calls i pc j).active = true) : (s.calls j).active = true := by
  rcases eq_or_ne j i with rfl | hne
  · exact hi
  · rwa [Function.update_of_ne hne] at hj

theorem active_step (hs : step s a = some t) (ha : ∀ n, a ≠ .call n) : ∀ j, (t.calls j).active =
    true → (s.calls j).active = true := by
  intro j hj
  cases a with
  | intr c =>
      simp only [step] at hs
      split_ifs at hs
      all_goals cases hs
      · exact (active_wake _).symm.trans hj
      · exact hj
  | call n => exact absurd rfl (ha n)
  | acquire i =>
      simp only [step] at hs
      split_ifs at hs
      split at hs
      all_goals rename_i hpc
      all_goals cases hs
      all_goals exact active_update (by rw [hpc]; rfl) hj
  | run i ok =>
      simp only [step, run] at hs
      split at hs
      all_goals rename_i hpc
      · cases hs
        exact active_update (by rw [hpc]; rfl) hj
      · have hact : (s.calls i).active = true := by rw [hpc]; rfl
        split_ifs at hs
        all_goals cases hs
        · exact active_update hact hj
        · exact active_update hact hj
        · unfold readChar at hj
          dsimp only at hj
          split_ifs at hj <;> exact active_update hact hj
      · cases hs
        exact active_update (by rw [hpc]; rfl) hj
      · cases hs
  | kill i =>
      cases hs
      replace hj : (Function.update s.calls i (s.calls i).wake j).active = true := hj
      rcases eq_or_ne j i with rfl | hne
      · rwa [Function.update_self, active_wake] at hj
      · rwa [Function.update_of_ne hne] at hj

theorem sublist_snoc {α : Type} {l : List α} (ys : List α) {y z : α}
    (h : (ys ++ [z]).Sublist (l ++ [y])) : (ys ++ [z]).Sublist l ∨ ys.Sublist l ∧ z = y := by
  obtain ⟨l₁, l₂, he, h₁, h₂⟩ := List.sublist_append_iff.mp h
  rcases List.sublist_singleton.mp h₂ with rfl | rfl
  · rw [List.append_nil] at he
    exact Or.inl (he ▸ h₁)
  · obtain ⟨rfl, hz⟩ := List.append_inj' he rfl
    exact Or.inr ⟨h₁, (List.cons.inj hz).1⟩

theorem Solo.step (hsolo : Solo s) (h : Inv s) (ha : alone s a = true) (hs : step s a = some t) :
    Solo t := by
  cases a with
  | call n =>
      simp only [Console.step] at hs
      split_ifs at hs
      cases hs
      have hnone : ∀ i, (s.calls i).active = false := by
        intro i
        rcases Nat.lt_or_ge i s.started with hlt | hge
        · have := List.all_eq_true.mp ha i (List.mem_range.mpr hlt)
          simpa using this
        · rw [h.fresh i hge]
          rfl
      have hnew : ∀ i, (Function.update s.calls s.started (.enter n) i).active = true →
          i = s.started := by
        intro i hi
        by_contra hne
        rw [Function.update_of_ne hne, hnone i] at hi
        exact absurd hi (by simp)
      refine ⟨fun i j hi hj => (hnew i hi).trans (hnew j hj).symm, hsolo.grouped, ?_⟩
      intro i hi x y hxy hx
      have hitems := h.has s.started
      rw [h.fresh s.started le_rfl] at hitems
      have hmem : x ∈ (line s.trace).items x.call := mem_items (hxy.subset List.mem_cons_self)
      rw [hx, hnew i hi, show (line s.trace).items s.started = [] from hitems] at hmem
      exact absurd hmem List.not_mem_nil
  | _ =>
      have hact := active_step hs (by simp)
      have hone := fun i j hi hj => hsolo.one i j (hact i hi) (hact j hj)
      rcases took_step hs with he | ⟨x₀, he, ⟨target, n, hx₀⟩, -⟩
      · refine ⟨hone, ?_, ?_⟩
        · rw [he]
          exact hsolo.grouped
        · rw [he]
          exact fun i hi => hsolo.last i (hact i hi)
      · have hx₀ : (s.calls x₀.call).active = true := by rw [hx₀]; rfl
        refine ⟨hone, ?_, ?_⟩
        · intro x y z hxyz hcall
          rw [he] at hxyz
          rcases sublist_snoc [x, y] hxyz with hxyz | ⟨hxy, rfl⟩
          · exact hsolo.grouped x y z hxyz hcall
          · exact (hsolo.last _ hx₀ x y hxy hcall).trans hcall.symm
        · intro i hi x y hxy hx
          rw [he] at hxy
          rcases sublist_snoc [x] hxy with hxy | ⟨-, rfl⟩
          · exact hsolo.last i (hact i hi) x y hxy hx
          · exact hsolo.one _ _ hx₀ (hact i hi)

theorem Solo.oneSided (hsolo : Solo s) (h : Inv s) : OneSided s := by
  intro x y z hxyz hcall hD
  have hy : y ∈ (line s.trace).taken := hxyz.subset (by simp)
  have hycall := hsolo.grouped x y z hxyz hcall
  obtain ⟨honly, -⟩ := has_eof (h.has y.call) (mem_items hy) ((h.fate y hy).mpr hD)
  have hxy : [x, y].Sublist (line s.trace).taken := (List.sublist_append_left [x, y] [z]).trans hxyz
  have hsub := hxy.filter (fun w => decide (w.call = y.call))
  rw [show (line s.trace).taken.filter (fun w => decide (w.call = y.call)) = [y] from honly] at hsub
  have hlen := hsub.length_le
  simp [hycall] at hlen

theorem solo_init : Solo init where
  one i j hi := absurd hi (by simp [init, Pc.active])
  grouped x y z h := absurd h.length_le (by simp [line, init])
  last i hi := absurd hi (by simp [init, Pc.active])

/-! ### Runs -/

/-- **The line discipline.**  The indices, the stream that the calls get, and the calls that `^D`
ends; and, if the calls run one at a time, that none gets characters from both sides of a `^D`. -/
theorem line_discipline {ls : List Act} (h : exec step init ls = some s)
    (hok : along step copies init ls = true) : Disciplined s ∧
      (along step alone init ls = true → OneSided s) := by
  have hinv : Inv s := exec_invariant (I := Inv) init_inv (fun _ _ _ hI hs => hI.step hs) h
  refine ⟨hinv.disciplined (no_lost h hok), fun halone => ?_⟩
  have hboth : Inv s ∧ Solo s :=
    exec_along (I := fun s => Inv s ∧ Solo s) (fun _ _ _ hI ha hs =>
      ⟨hI.1.step hs, hI.2.step hI.1 ha hs⟩) ⟨init_inv, solo_init⟩ halone h
  exact hboth.2.oneSided hinv

/-- A call for 100 bytes, before and after `hi` and a newline are typed; the first try at `hi` is
erased. -/
def readHi : List Act :=
  [.call 100, .acquire 0, .run 0 true, .run 0 true, .intr 120, .intr 8, .intr 104, .intr 105,
    .intr 13, .acquire 0, .run 0 true, .run 0 true, .run 0 true, .run 0 true, .run 0 true, .run 0 true]

set_option maxRecDepth 100000 in
theorem line_discipline_hi : (after step init readHi).calls 0 = .done 100 3 ∧
    Disciplined (after step init readHi) ∧ OneSided (after step init readHi) := by
  have h := line_discipline (exec_after step init readHi (by decide +kernel)) (by decide +kernel)
  exact ⟨by decide +kernel, h.1, h.2 (by decide +kernel)⟩

/-- A call for 200 bytes sleeps; a full buffer is typed, and the call takes it and sleeps again.
Then `^D` is typed, and a second call takes it; then `x` and a newline are typed, and the first call
goes on. -/
def readPast : List Act :=
  .call 200 :: .acquire 0 :: .run 0 true :: .run 0 true :: List.replicate 128 (.intr 97) ++
    .acquire 0 :: List.replicate 257 (.run 0 true) ++
    [.intr 4, .call 5, .acquire 1, .run 1 true, .run 1 true, .run 1 true, .intr 120, .intr 10,
      .acquire 0, .run 0 true]

set_option maxRecDepth 100000 in
/-- A call gets characters from both sides of a `^D` that another one has taken. -/
theorem eof_read_past : (exec step init readPast).isSome = true ∧ along step copies init readPast =
    true ∧ ¬ OneSided (after step init readPast) :=
  ⟨by decide +kernel, by decide +kernel, fun h => h ⟨0, 97, .copied⟩ ⟨1, 4, .eof⟩ ⟨0, 120, .copied⟩
    (by decide +kernel) rfl (by decide)⟩

end Xv6Cow.Console

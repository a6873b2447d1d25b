import Xv6Cow.Virtio.Inv

/-! # Allocating and freeing descriptors

`free_chain` frees the descriptors of the chain it is given, each once, and no others; `alloc3_desc`
allocates three descriptors that were free, or leaves `disk.free` as it was.  Neither panics where
the invariant holds. -/

namespace Xv6Cow.Virtio

open Function (update update_self update_of_ne)

variable {s : State} {st st' : ℕ → Stage} {p q i j : ℕ} {c d : Chain} {is js : List ℕ}
  {desc desc' : ℕ → Desc} {free free' : ℕ → Bool} {pcs pcs' pcs'' : ℕ → Pc}

/-! ### Waking -/

/-- The processes are where they were, but for those that have been woken. -/
structure SameView (pcs pcs' : ℕ → Pc) : Prop where
  stage : ∀ q, (pcs' q).stage = (pcs q).stage
  buf : ∀ q, (pcs' q).buf = (pcs q).buf
  locked : ∀ q, (pcs' q).locked = (pcs q).locked
  returning : ∀ q c, pcs' q = .release c → pcs q = .release c

theorem SameView.refl (pcs : ℕ → Pc) : SameView pcs pcs :=
  ⟨fun _ => rfl, fun _ => rfl, fun _ => rfl, fun _ _ h => h⟩

theorem SameView.trans (h : SameView pcs pcs') (h' : SameView pcs' pcs'') : SameView pcs pcs'' where
  stage q := (h'.stage q).trans (h.stage q)
  buf q := (h'.buf q).trans (h.buf q)
  locked q := (h'.locked q).trans (h.locked q)
  returning q c hq := h.returning q c (h'.returning q c hq)

theorem sameView_wakeFree (pcs : ℕ → Pc) : SameView pcs (fun q => (pcs q).wakeFree) := by
  constructor
  all_goals intro q; cases pcs q <;> simp [Pc.wakeFree, Pc.stage, Pc.buf, Pc.locked]

theorem sameView_wakeBuf (b : ℕ) (pcs : ℕ → Pc) : SameView pcs (fun q => (pcs q).wakeBuf b) := by
  have hcase : ∀ c : Chain, (Pc.sleepBuf c).wakeBuf b = .sleepBuf c ∨ (Pc.sleepBuf c).wakeBuf b =
      .wokenBuf c := by
    intro c
    rcases Decidable.em (c.buf = b) with hb | hb
    · exact Or.inr (if_pos hb)
    · exact Or.inl (if_neg hb)
  constructor
  all_goals
    intro q
    cases pcs q with
    | sleepBuf c => rcases hcase c with h | h <;> simp [h, Pc.stage, Pc.buf, Pc.locked]
    | _ => simp [Pc.wakeBuf]

/-! ### `free_desc` and `free_chain` -/

/-- The descriptors `is` have been freed. -/
structure Freed (s : State) (is : List ℕ) (desc : ℕ → Desc) (free : ℕ → Bool) (pcs : ℕ → Pc) : Prop where
  desc : ∀ i ∉ is, desc i = s.desc i
  free : ∀ i, free i = (s.free i || decide (i ∈ is))
  view : SameView s.pcs pcs

theorem freeDesc_ok (hi : i < NUM) (hf : s.free i = false) :
    ∃ desc free pcs, freeDesc i s = .ok { s with desc := desc, free := free, pcs := pcs } ∧
      Freed s [i] desc free pcs := by
  refine ⟨update s.desc i {}, update s.free i true, fun q => (s.pcs q).wakeFree, ?_, ?_, ?_,
    sameView_wakeFree s.pcs⟩
  · unfold freeDesc
    rw [if_neg (by omega), if_neg (by simp [hf])]
  · intro j hj
    exact update_of_ne (by simpa using hj) _ _
  · intro j
    rcases eq_or_ne j i with rfl | hne
    · simp
    · simp [hne]

theorem Freed.trans (h : Freed s is desc free pcs)
    (h' : Freed { s with desc := desc, free := free, pcs := pcs } js desc' free' pcs') :
    Freed s (is ++ js) desc' free' pcs' where
  desc i hi := by
    rw [List.mem_append, not_or] at hi
    exact (h'.desc i hi.2).trans (h.desc i hi.1)
  free i := by
    rw [h'.free i]
    show (free i || _) = _
    simp [h.free i, Bool.or_assoc]
  view := h.view.trans h'.view

/-- The chain that begins at `i` has the descriptors `i :: is`. -/
def Linked (desc : ℕ → Desc) : ℕ → List ℕ → Prop
  | i, [] => (desc i).more = false
  | i, j :: is => (desc i).more = true ∧ (desc i).next = j ∧ Linked desc j is

theorem Linked.congr (h : ∀ j ∈ i :: is, desc' j = desc j) (hl : Linked desc i is) :
    Linked desc' i is := by
  induction is generalizing i with
  | nil => rwa [Linked, h i (by simp)]
  | cons j is ih =>
      obtain ⟨hm, hn, hl⟩ := hl
      rw [Linked, h i (by simp)]
      exact ⟨hm, hn, ih (fun k hk => h k (List.mem_cons_of_mem i hk)) hl⟩

theorem Built.linked {info : ℕ → Info} (h : Built desc info c) : Linked desc c.i0 [c.i1, c.i2] :=
  ⟨h.head.1, h.head.2, h.data.1, h.data.2, h.tail.1⟩

theorem freeChain_ok (hl : Linked s.desc i is) (hnd : (i :: is).Nodup) (hlt : ∀ j ∈ i :: is, j < NUM)
    (hf : ∀ j ∈ i :: is, s.free j = false) {fuel : ℕ} (hfuel : is.length < fuel) :
    ∃ desc free pcs, freeChain fuel i s = .ok { s with desc := desc, free := free, pcs := pcs } ∧
      Freed s (i :: is) desc free pcs := by
  induction is generalizing i s fuel with
  | nil =>
      obtain ⟨fuel, rfl⟩ : ∃ n, fuel = n + 1 := ⟨fuel - 1, by omega⟩
      obtain ⟨desc, free, pcs, he, hfr⟩ := freeDesc_ok (hlt i (by simp)) (hf i (by simp))
      refine ⟨desc, free, pcs, ?_, hfr⟩
      have hm : (s.desc i).more = false := hl
      simp only [freeChain, he, hm]
      rfl
  | cons j is ih =>
      obtain ⟨fuel, rfl⟩ : ∃ n, fuel = n + 1 := ⟨fuel - 1, by omega⟩
      obtain ⟨desc, free, pcs, he, hfr⟩ := freeDesc_ok (hlt i (by simp)) (hf i (by simp))
      obtain ⟨hm, hn, hl⟩ := hl
      obtain ⟨hi, hnd⟩ := List.nodup_cons.mp hnd
      have hout : ∀ k ∈ j :: is, k ∉ [i] := by
        rintro k hk hin
        exact hi (List.mem_singleton.mp hin ▸ hk)
      have hfree : ∀ k ∈ j :: is, free k = false := by
        intro k hk
        rw [hfr.free k, hf k (List.mem_cons_of_mem i hk), decide_eq_false (hout k hk)]
        rfl
      obtain ⟨desc', free', pcs', he', hfr'⟩ :=
        ih (s := { s with desc := desc, free := free, pcs := pcs })
          (hl.congr (fun k hk => hfr.desc k (hout k hk))) hnd
          (fun k hk => hlt k (List.mem_cons_of_mem i hk)) hfree
        (by simpa using hfuel : is.length < fuel)
      refine ⟨desc', free', pcs', ?_, hfr.trans hfr'⟩
      simp only [freeChain, he, hm, hn]
      exact he'

/-! ### `alloc_desc` and `alloc3_desc` -/

theorem allocDesc_some {t : State} (h : allocDesc s = some (i, t)) :
    i < NUM ∧ s.free i = true ∧ t = { s with free := update s.free i false } := by
  obtain ⟨j, hj, he⟩ := Option.map_eq_some_iff.mp h
  cases he
  exact ⟨List.mem_range.mp (List.mem_of_find?_eq_some hj), List.find?_some hj, rfl⟩

/-- `alloc3_desc` has allocated three descriptors. -/
structure Allocated (s : State) (is : List ℕ) (free : ℕ → Bool) : Prop where
  nodup : is.Nodup
  small : ∀ i ∈ is, i < NUM
  was : ∀ i ∈ is, s.free i = true
  free : ∀ i, free i = (s.free i && !decide (i ∈ is))

theorem Allocated.snoc (h : Allocated s is free) (hi : i < NUM) (hf : free i = true) :
    Allocated s (is ++ [i]) (update free i false) := by
  rw [h.free i, Bool.and_eq_true, Bool.not_eq_true', decide_eq_false_iff_not] at hf
  refine ⟨List.Nodup.append h.nodup (List.nodup_singleton i) (by simpa using hf.2), ?_, ?_, ?_⟩
  · intro j hj
    rcases List.mem_append.mp hj with hj | hj
    · exact h.small j hj
    · rwa [List.mem_singleton.mp hj]
  · intro j hj
    rcases List.mem_append.mp hj with hj | hj
    · exact h.was j hj
    · rw [List.mem_singleton.mp hj]
      exact hf.1
  · intro j
    rcases eq_or_ne j i with rfl | hne
    · simp
    · simp [h.free j, hne]

/-- Freeing what has been allocated restores `disk.free`, and touches no descriptor that was in
use. -/
theorem Allocated.undo (h : Allocated s is free) (h' : Freed { s with free := free } is desc free' pcs) :
    free' = s.free ∧ ∀ i, s.free i = false → desc i = s.desc i := by
  constructor
  · funext i
    rw [h'.free i]
    show (free i || decide (i ∈ is)) = s.free i
    rw [h.free i]
    rcases Decidable.em (i ∈ is) with hi | hi
    · simp [hi, h.was i hi]
    · simp [hi]
  · intro i hf
    refine h'.desc i (fun hi => ?_)
    rw [h.was i hi] at hf
    exact absurd hf (by simp)

theorem alloc3Desc_cases (s : State) :
    (∃ i0 i1 i2 free, alloc3Desc s = .ok (some (i0, i1, i2), { s with free := free }) ∧
      Allocated s [i0, i1, i2] free) ∨
    ∃ desc pcs, alloc3Desc s = .ok (none, { s with desc := desc, pcs := pcs }) ∧
      (∀ i, s.free i = false → desc i = s.desc i) ∧ SameView s.pcs pcs := by
  have h0 : Allocated s [] s.free := ⟨List.nodup_nil, by simp, by simp, by simp⟩
  cases ha0 : allocDesc s with
  | none => exact Or.inr ⟨s.desc, s.pcs, by simp [alloc3Desc, ha0], fun _ _ => rfl, SameView.refl _⟩
  | some x =>
      obtain ⟨i0, t0⟩ := x
      obtain ⟨hi0, hf0, rfl⟩ := allocDesc_some ha0
      have h1 := h0.snoc hi0 hf0
      cases ha1 : allocDesc { s with free := update s.free i0 false } with
      | none =>
          obtain ⟨desc, free, pcs, he, hfr⟩ :=
            freeDesc_ok (s := { s with free := update s.free i0 false }) hi0
              (update_self i0 false s.free)
          obtain ⟨rfl, hdesc⟩ := h1.undo hfr
          refine Or.inr ⟨desc, pcs, ?_, hdesc, hfr.view⟩
          simp only [alloc3Desc, ha0, ha1, he]
          rfl
      | some x =>
          obtain ⟨i1, t1⟩ := x
          obtain ⟨hi1, hf1, rfl⟩ := allocDesc_some ha1
          have h2 := h1.snoc hi1 hf1
          cases ha2 : allocDesc { s with free := update (update s.free i0 false) i1 false } with
          | none =>
              obtain ⟨desc, free, pcs, he, hfr⟩ :=
                freeDesc_ok (s := { s with free := update (update s.free i0 false) i1 false }) hi0
                  (by simp [h2.free i0])
              have hne : i1 ≠ i0 := by
                rintro rfl
                exact absurd hf1 (by simp)
              obtain ⟨desc', free', pcs', he', hfr'⟩ :=
                freeDesc_ok (s := { s with desc := desc, free := free, pcs := pcs }) hi1
                  (by simp [hfr.free i1, hne])
              obtain ⟨rfl, hdesc⟩ := h2.undo (hfr.trans hfr')
              refine Or.inr ⟨desc', pcs', ?_, hdesc, (hfr.trans hfr').view⟩
              simp only [alloc3Desc, ha0, ha1, ha2, he]
              show (freeDesc i1 _ >>= _) = _
              rw [he']
              rfl
          | some x =>
              obtain ⟨i2, t2⟩ := x
              obtain ⟨hi2, hf2, rfl⟩ := allocDesc_some ha2
              refine Or.inl ⟨i0, i1, i2, _, ?_, h2.snoc hi2 hf2⟩
              simp [alloc3Desc, ha0, ha1, ha2]

/-! ### Whose descriptors they are -/

theorem Owned.keep (h : Owned free st) (hc : ∀ q, (st' q).chain = (st q).chain) : Owned free st' where
  small hp := h.small ((hc _).symm.trans hp)
  nodup hp := h.nodup ((hc _).symm.trans hp)
  apart hp hq := h.apart ((hc _).symm.trans hp) ((hc _).symm.trans hq)
  used i hi := by
    rw [h.used i hi]
    simp [hc]

theorem Owned.alloc (h : Owned s.free st) (hp : (st p).chain = none) (ha : Allocated s c.idx free) :
    Owned free (update st p (.owns c)) := by
  have hother : ∀ q d i, (st q).chain = some d → i ∈ d.idx → i ∉ c.idx := by
    intro q d i hd hi hin
    have hf := (h.used i (ha.small i hin)).mpr ⟨q, d, hd, hi⟩
    rw [ha.was i hin] at hf
    exact absurd hf (by simp)
  have hcase : ∀ q d, (update st p (.owns c) q).chain = some d → q = p ∧ d = c ∨ q ≠ p ∧
      (st q).chain = some d := by
    intro q d hd
    rcases eq_or_ne q p with rfl | hne
    · rw [update_self] at hd
      exact Or.inl ⟨rfl, (Option.some.inj hd).symm⟩
    · rw [update_of_ne hne] at hd
      exact Or.inr ⟨hne, hd⟩
  refine ⟨?_, ?_, ?_, ?_⟩
  · intro q d hd
    rcases hcase q d hd with ⟨rfl, rfl⟩ | ⟨-, hd⟩
    · exact ha.small
    · exact h.small hd
  · intro q d hd
    rcases hcase q d hd with ⟨rfl, rfl⟩ | ⟨-, hd⟩
    · exact ha.nodup
    · exact h.nodup hd
  · intro q r d e i hd he hi hi'
    rcases hcase q d hd with ⟨hq, hdc⟩ | ⟨-, hd'⟩ <;> rcases hcase r e he with ⟨hr, hec⟩ | ⟨-, he'⟩
    · exact hq.trans hr.symm
    · exact absurd (hdc ▸ hi) (hother r e i he' hi')
    · exact absurd (hec ▸ hi') (hother q d i hd' hi)
    · exact h.apart hd' he' hi hi'
  · intro i hi
    rw [ha.free i, Bool.and_eq_false_iff, Bool.not_eq_false', decide_eq_true_eq, h.used i hi]
    constructor
    · rintro (⟨q, d, hd, hin⟩ | hin)
      · have hne : q ≠ p := by
          rintro rfl
          rw [hp] at hd
          exact absurd hd (by simp)
        exact ⟨q, d, by rwa [update_of_ne hne], hin⟩
      · exact ⟨p, c, by rw [update_self]; rfl, hin⟩
    · rintro ⟨q, d, hd, hin⟩
      rcases hcase q d hd with ⟨rfl, rfl⟩ | ⟨-, hd⟩
      · exact Or.inr hin
      · exact Or.inl ⟨q, d, hd, hin⟩

theorem Owned.give (h : Owned s.free st) (hp : (st p).chain = some c)
    (hf : ∀ i, free i = (s.free i || decide (i ∈ c.idx))) : Owned free (update st p .none) := by
  have hcase : ∀ q d, (update st p .none q).chain = some d ↔ q ≠ p ∧ (st q).chain = some d := by
    intro q d
    rcases eq_or_ne q p with rfl | hne
    · simp [Stage.chain]
    · simp [hne]
  refine ⟨fun {q d} hd => h.small ((hcase q d).mp hd).2, fun {q d} hd => h.nodup ((hcase q d).mp hd).2,
    fun {q r d e i} hd he => h.apart ((hcase q d).mp hd).2 ((hcase r e).mp he).2, ?_⟩
  intro i hi
  rw [hf i, Bool.or_eq_false_iff, decide_eq_false_iff_not, h.used i hi]
  constructor
  · rintro ⟨⟨q, d, hd, hin⟩, hout⟩
    refine ⟨q, d, (hcase q d).mpr ⟨?_, hd⟩, hin⟩
    rintro rfl
    rw [hp] at hd
    exact hout (Option.some.inj hd ▸ hin)
  · rintro ⟨q, d, hd, hin⟩
    obtain ⟨hne, hd⟩ := (hcase q d).mp hd
    exact ⟨⟨q, d, hd, hin⟩, fun hin' => hne (h.apart hd hp hin hin')⟩

end Xv6Cow.Virtio

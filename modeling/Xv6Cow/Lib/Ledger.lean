import Mathlib.Data.Set.Insert

/-! # Exact ownership of numbered units

A range of units `[lo, hi)` is handed out by a table of marks.  `own o` is the unit that owner `o`
has, 0 for none.  The units below `lo` are always marked and belong to nobody.  A `Ledger` says that
no unit has two owners and that exactly the units of the owners are marked, apart from a set `X` of
units in transit: taken from the table and not yet given to an owner, or given back by one and still
marked. -/

namespace Xv6Cow

open Function (update update_self update_of_ne update_apply)

variable {ι : Type} {lo hi b : ℕ} {own own' : ι → ℕ} {used used' : ℕ → Prop} {X : Set ℕ} {o o' : ι}

/-- The units of the owners and those in transit are the marked ones, and nothing is owned twice. -/
structure Ledger (lo hi : ℕ) (own : ι → ℕ) (used : ℕ → Prop) (X : Set ℕ) : Prop where
  pos : 0 < lo
  range : ∀ {o}, own o ≠ 0 → lo ≤ own o ∧ own o < hi
  inj : ∀ {o o'}, own o ≠ 0 → own o = own o' → o = o'
  transit : ∀ {b}, b ∈ X → lo ≤ b ∧ b < hi
  apart : ∀ {b}, b ∈ X → ∀ o, own o ≠ b
  marks : ∀ {b}, b < hi → (used b ↔ b < lo ∨ b ∈ X ∨ ∃ o, own o = b)

namespace Ledger

section
variable (h : Ledger lo hi own used X)
include h

theorem congr (hown : own' = own) (hused : ∀ b < hi, used' b ↔ used b) :
    Ledger lo hi own' used' X := by
  subst hown
  exact ⟨h.pos, h.range, h.inj, h.transit, h.apart, fun hb => (hused _ hb).trans (h.marks hb)⟩

theorem used_transit (hb : b ∈ X) : used b :=
  (h.marks (h.transit hb).2).mpr (Or.inr (Or.inl hb))

theorem ne_zero_of_transit (hb : b ∈ X) : b ≠ 0 := by
  have := (h.transit hb).1
  have := h.pos
  omega

/-- An unmarked unit is above `lo`, not in transit, and has no owner. -/
theorem free_iff (hb : b < hi) :
    ¬ used b ↔ lo ≤ b ∧ b ∉ X ∧ ∀ o, own o ≠ b := by
  rw [h.marks hb, not_or, not_or, not_lt, not_exists]

theorem take (hb : b < hi) (hfree : ¬ used b)
    (hused : ∀ c < hi, used' c ↔ used c ∨ c = b) : Ledger lo hi own used' (insert b X) where
  pos := h.pos
  range := h.range
  inj := h.inj
  transit := by
    intro c hc
    cases hc with
    | inl hcb => exact hcb ▸ ⟨((h.free_iff hb).mp hfree).1, hb⟩
    | inr hcX => exact h.transit hcX
  apart := by
    intro c hc
    cases hc with
    | inl hcb => exact hcb ▸ ((h.free_iff hb).mp hfree).2.2
    | inr hcX => exact h.apart hcX
  marks := by
    intro c hc
    rw [hused c hc, h.marks hc, Set.mem_insert_iff]
    grind

theorem release (hb : b ∈ X) (hused : ∀ c < hi, used' c ↔ used c ∧ c ≠ b) :
    Ledger lo hi own used' (X \ {b}) where
  pos := h.pos
  range := h.range
  inj := h.inj
  transit := fun hc => h.transit hc.1
  apart := fun hc => h.apart hc.1
  marks := by
    intro c hc
    rw [hused c hc, h.marks hc, Set.mem_sdiff, Set.mem_singleton_iff]
    have hlo : c = b → ¬ c < lo := fun hcb => by
      have := (h.transit hb).1
      omega
    have hown : c = b → ¬ ∃ o, own o = c := fun hcb ⟨o, ho⟩ => h.apart hb o (ho.trans hcb)
    grind

end

section owners
variable [DecidableEq ι]

theorem attach (h : Ledger lo hi own used X) (hb : b ∈ X) (ho : own o = 0) :
    Ledger lo hi (update own o b) used (X \ {b}) where
  pos := h.pos
  range := by
    intro p hp
    by_cases hpo : p = o
    · subst hpo
      rw [update_self]
      exact h.transit hb
    · rw [update_of_ne hpo] at hp ⊢
      exact h.range hp
  inj := by
    intro p q hp hpq
    by_cases hpo : p = o
    · by_cases hqo : q = o
      · exact hpo.trans hqo.symm
      · rw [hpo, update_self, update_of_ne hqo] at hpq
        exact absurd hpq.symm (h.apart hb q)
    · by_cases hqo : q = o
      · rw [hqo, update_self, update_of_ne hpo] at hpq
        exact absurd hpq (h.apart hb p)
      · rw [update_of_ne hpo] at hp hpq
        rw [update_of_ne hqo] at hpq
        exact h.inj hp hpq
  transit := fun hc => h.transit hc.1
  apart := by
    intro c hc p
    by_cases hpo : p = o
    · rw [hpo, update_self]
      exact fun hbc => hc.2 hbc.symm
    · rw [update_of_ne hpo]
      exact h.apart hc.1 p
  marks := by
    intro c hc
    rw [h.marks hc, Set.mem_sdiff, Set.mem_singleton_iff]
    have hnew : (∃ p, update own o b p = c) ↔ c = b ∨ ∃ p, p ≠ o ∧ own p = c := by
      constructor
      · rintro ⟨p, hp⟩
        by_cases hpo : p = o
        · rw [hpo, update_self] at hp
          exact Or.inl hp.symm
        · rw [update_of_ne hpo] at hp
          exact Or.inr ⟨p, hpo, hp⟩
      · rintro (rfl | ⟨p, hpo, hp⟩)
        · exact ⟨o, update_self _ _ _⟩
        · exact ⟨p, by rw [update_of_ne hpo, hp]⟩
    have hold : (∃ p, own p = c) → c < lo ∨ ∃ p, p ≠ o ∧ own p = c := by
      rintro ⟨p, hp⟩
      by_cases hpo : p = o
      · left
        rw [hpo, ho] at hp
        exact hp ▸ h.pos
      · exact Or.inr ⟨p, hpo, hp⟩
    rw [hnew]
    have hcb : c = b → c ∈ X := fun hcb => hcb ▸ hb
    have hrest : (∃ p, p ≠ o ∧ own p = c) → ∃ p, own p = c := fun ⟨p, _, hp⟩ => ⟨p, hp⟩
    grind

end owners

theorem detach (h : Ledger lo hi own used X) (S : Set ι) [DecidablePred (· ∈ S)] :
    Ledger lo hi (fun o => if o ∈ S then 0 else own o) used (X ∪ {b | b ≠ 0 ∧ ∃ o ∈ S, own o = b}) where
  pos := h.pos
  range := by
    intro p hp
    split_ifs at hp ⊢ with hS
    · exact absurd rfl hp
    · exact h.range hp
  inj := by
    intro p q hp hpq
    split_ifs at hp hpq with hS hS'
    · exact absurd rfl hp
    · exact absurd rfl hp
    · exact absurd hpq hp
    · exact h.inj hp hpq
  transit := by
    intro c hc
    cases hc with
    | inl hX => exact h.transit hX
    | inr hS =>
        obtain ⟨hc0, p, _, hp⟩ := hS
        exact hp ▸ h.range (hp ▸ hc0)
  apart := by
    intro c hc p
    cases hc with
    | inl hX =>
        split_ifs
        · exact (h.ne_zero_of_transit hX).symm
        · exact h.apart hX p
    | inr hS =>
        obtain ⟨hc0, q, hqS, hq⟩ := hS
        split_ifs with hp
        · exact hc0.symm
        · intro hpc
          have hqp : q = p := h.inj (hq ▸ hc0) (hq.trans hpc.symm)
          exact hp (hqp ▸ hqS)
  marks := by
    intro c hc
    rw [h.marks hc, Set.mem_union, Set.mem_ofPred_eq]
    constructor
    · rintro (hlo | hX | ⟨p, hp⟩)
      · exact Or.inl hlo
      · exact Or.inr (Or.inl (Or.inl hX))
      · by_cases hc0 : c = 0
        · exact Or.inl (hc0 ▸ h.pos)
        · by_cases hS : p ∈ S
          · exact Or.inr (Or.inl (Or.inr ⟨hc0, p, hS, hp⟩))
          · exact Or.inr (Or.inr ⟨p, by rw [if_neg hS, hp]⟩)
    · rintro (hlo | (hX | ⟨_, p, _, hp⟩) | ⟨p, hp⟩)
      · exact Or.inl hlo
      · exact Or.inr (Or.inl hX)
      · exact Or.inr (Or.inr ⟨p, hp⟩)
      · split_ifs at hp
        · exact Or.inl (hp ▸ h.pos)
        · exact Or.inr (Or.inr ⟨p, hp⟩)

theorem detach_one [DecidableEq ι] (h : Ledger lo hi own used X) (ho : own o ≠ 0) :
    Ledger lo hi (update own o 0) used (insert (own o) X) := by
  have hX : X ∪ {b | b ≠ 0 ∧ ∃ p ∈ ({o} : Set ι), own p = b} = insert (own o) X := by
    ext c
    simp only [Set.mem_union, Set.mem_ofPred_eq, Set.mem_singleton_iff, exists_eq_left,
      Set.mem_insert_iff]
    constructor
    · rintro (hc | ⟨_, hc⟩)
      · exact Or.inr hc
      · exact Or.inl hc.symm
    · rintro (hc | hc)
      · exact Or.inr ⟨hc ▸ ho, hc.symm⟩
      · exact Or.inl hc
  have hall := h.detach ({o} : Set ι)
  rw [hX] at hall
  refine hall.congr ?_ (fun _ _ => Iff.rfl)
  funext p
  simp [update_apply]

end Ledger

end Xv6Cow

import Mathlib.Algebra.Group.Pi.Lemmas
import Mathlib.Tactic.Linarith

/-! # Accounts of reference-counted pages

Pages of any type are either on a free list or owned.  An owner is exclusive (`x p` counts the
exclusive owners of `p`) or shared (`u p` counts the shared ones).  `Account` says that the free
list and the reference counts are exactly what the owners make them: a page on the free list has no
owner and no positive count, every other page has at least one owner and counts its owners, and an
exclusive owner is the only one.  `hist` lists the pages that have been handed out so far; a free
page that was never handed out has one count too few, since it was put on the list without an owner.

The lemmas are the five moves of a reference-counting allocator: hand a page out, share it, turn an
exclusive owner into a shared one, release an exclusive owner, release a shared one. -/

namespace Xv6Cow

variable {P : Type}

section one
variable [DecidableEq P]

/-- One owner of `p`. -/
def one (p : P) : P → ℕ := Pi.single p 1

theorem one_self (p : P) : one p p = 1 := Pi.single_eq_same p 1

theorem one_of_ne {p q : P} (h : q ≠ p) : one p q = 0 := Pi.single_eq_of_ne h 1

theorem one_apply (p q : P) : one p q = if q = p then 1 else 0 := Pi.single_apply p 1 q

end one

/-- The free list and the counts agree with the owners. -/
structure Account (page : P → Prop) (hist free : List P) (cnt : P → ℤ) (x u : P → ℕ) : Prop where
  nodup : free.Nodup
  page_of_free : ∀ p ∈ free, page p
  unowned : ∀ p ∈ free, x p + u p = 0
  cnt_used : ∀ p ∈ free, p ∈ hist → cnt p = 0
  cnt_fresh : ∀ p ∈ free, p ∉ hist → cnt p = -1
  owned : ∀ p, page p → p ∉ free → 0 < x p + u p
  cnt_owned : ∀ p, page p → p ∉ free → cnt p = x p + u p
  page_of_owned : ∀ p, 0 < x p + u p → page p
  excl : ∀ p, 0 < x p → x p + u p = 1
  hist_of_owned : ∀ p, 0 < x p + u p → p ∈ hist

namespace Account

variable {page : P → Prop} {hist free : List P} {cnt cnt' : P → ℤ} {x u : P → ℕ} {p q : P}

section
variable (h : Account page hist free cnt x u)
include h

theorem not_mem_free (hp : 0 < x p + u p) : p ∉ free := fun hf => by
  have := h.unowned p hf
  omega

theorem mem_free_iff (hp : page p) : p ∈ free ↔ x p + u p = 0 := by
  constructor
  · exact h.unowned p
  · intro h0
    by_contra hf
    have := h.owned p hp hf
    omega

/-- A page is on the free list exactly when its count is not positive. -/
theorem mem_free_iff_cnt (hp : page p) : p ∈ free ↔ cnt p ≤ 0 := by
  constructor
  · intro hf
    by_cases hh : p ∈ hist
    · exact (h.cnt_used p hf hh).le
    · rw [h.cnt_fresh p hf hh]
      decide
  · intro hle
    by_contra hf
    have h1 := h.owned p hp hf
    have h2 := h.cnt_owned p hp hf
    omega

theorem cnt_eq (hp : 0 < x p + u p) : cnt p = x p + u p :=
  h.cnt_owned p (h.page_of_owned p hp) (h.not_mem_free hp)

/-- Two accounts with the same owners have the same free pages, and every page that is not free
counts the same. -/
theorem same {hist' free' : List P} (h' : Account page hist' free' cnt' x u) :
    free'.Perm free ∧ ∀ p, page p → p ∉ free → cnt' p = cnt p := by
  have hmem : ∀ p, p ∈ free' ↔ p ∈ free := fun p => by
    constructor
    · exact fun hp => (h.mem_free_iff (h'.page_of_free p hp)).mpr (h'.unowned p hp)
    · exact fun hp => (h'.mem_free_iff (h.page_of_free p hp)).mpr (h.unowned p hp)
  refine ⟨(List.perm_ext_iff_of_nodup h'.nodup h.nodup).mpr hmem, fun p hp hf => ?_⟩
  rw [h.cnt_owned p hp hf, h'.cnt_owned p hp (fun hf' => hf ((hmem p).mp hf'))]

/-- A free page that was not handed out in between counts the same too. -/
theorem same_free {hist' free' : List P} (h' : Account page hist' free' cnt' x u)
    (hp : p ∈ free) (hh : p ∈ hist' ↔ p ∈ hist) : cnt' p = cnt p := by
  have hp' : p ∈ free' := (h.same h').1.mem_iff.mpr hp
  by_cases hin : p ∈ hist
  · rw [h.cnt_used p hp hin, h'.cnt_used p hp' (hh.mpr hin)]
  · rw [h.cnt_fresh p hp hin, h'.cnt_fresh p hp' (fun hin' => hin (hh.mp hin'))]

theorem shared_not_excl (hu : 0 < u p) : x p = 0 := by
  by_contra hx
  have := h.excl p (by omega)
  omega

end

variable [DecidableEq P]

theorem alloc (h : Account page hist (p :: free) cnt x u)
    (hcnt : ∀ q, page q → cnt' q = if q = p then 1 else cnt q) :
    Account page (p :: hist) free cnt' (x + one p) u := by
  have hp : page p := h.page_of_free p List.mem_cons_self
  have h0 : x p + u p = 0 := h.unowned p List.mem_cons_self
  obtain ⟨hnot, hnd⟩ := List.nodup_cons.mp h.nodup
  have hne : ∀ q ∈ free, q ≠ p := fun q hq e => hnot (e ▸ hq)
  refine ⟨hnd, fun q hq => h.page_of_free q (List.mem_cons_of_mem _ hq), ?_, ?_, ?_, ?_, ?_, ?_, ?_, ?_⟩
  · intro q hq
    have := h.unowned q (List.mem_cons_of_mem _ hq)
    simpa [one_of_ne (hne q hq)] using this
  · intro q hq hh
    rw [hcnt q (h.page_of_free q (List.mem_cons_of_mem _ hq)), if_neg (hne q hq)]
    exact h.cnt_used q (List.mem_cons_of_mem _ hq) (List.mem_of_ne_of_mem (hne q hq) hh)
  · intro q hq hh
    rw [hcnt q (h.page_of_free q (List.mem_cons_of_mem _ hq)), if_neg (hne q hq)]
    exact h.cnt_fresh q (List.mem_cons_of_mem _ hq) (fun hm => hh (List.mem_cons_of_mem _ hm))
  · intro q hq hf
    by_cases hqp : q = p
    · subst hqp
      simp [one_self]
    · have := h.owned q hq (by simp [hqp, hf])
      simp only [Pi.add_apply]
      omega
  · intro q hq hf
    rw [hcnt q hq]
    by_cases hqp : q = p
    · subst hqp
      simp only [Pi.add_apply, one_self, if_true]
      omega
    · rw [if_neg hqp, h.cnt_owned q hq (by simp [hqp, hf])]
      simp [one_of_ne hqp]
  · intro q hq
    by_cases hqp : q = p
    · exact hqp ▸ hp
    · exact h.page_of_owned q (by simpa [one_of_ne hqp] using hq)
  · intro q hq
    by_cases hqp : q = p
    · subst hqp
      simp only [Pi.add_apply, one_self]
      omega
    · have := h.excl q (by simpa [one_of_ne hqp] using hq)
      simpa [one_of_ne hqp] using this
  · intro q hq
    by_cases hqp : q = p
    · exact hqp ▸ List.mem_cons_self
    · exact List.mem_cons_of_mem _ (h.hist_of_owned q (by simpa [one_of_ne hqp] using hq))

theorem share (h : Account page hist free cnt x u) (hu : 0 < u p)
    (hcnt : ∀ q, page q → cnt' q = if q = p then cnt p + 1 else cnt q) :
    Account page hist free cnt' x (u + one p) := by
  have hpos : 0 < x p + u p := by omega
  have hx := h.shared_not_excl hu
  have hf := h.not_mem_free hpos
  have hne : ∀ q ∈ free, q ≠ p := fun q hq e => hf (e ▸ hq)
  refine ⟨h.nodup, h.page_of_free, ?_, ?_, ?_, ?_, ?_, ?_, ?_, ?_⟩
  · intro q hq
    simpa [one_of_ne (hne q hq)] using h.unowned q hq
  · intro q hq
    rw [hcnt q (h.page_of_free q hq), if_neg (hne q hq)]
    exact h.cnt_used q hq
  · intro q hq
    rw [hcnt q (h.page_of_free q hq), if_neg (hne q hq)]
    exact h.cnt_fresh q hq
  · intro q hq hqf
    have := h.owned q hq hqf
    simp only [Pi.add_apply]
    omega
  · intro q hq hqf
    rw [hcnt q hq]
    by_cases hqp : q = p
    · subst hqp
      rw [if_pos rfl, h.cnt_owned q hq hqf]
      simp only [Pi.add_apply, one_self]
      omega
    · rw [if_neg hqp, h.cnt_owned q hq hqf]
      simp [one_of_ne hqp]
  · intro q hq
    by_cases hqp : q = p
    · exact hqp ▸ h.page_of_owned p hpos
    · exact h.page_of_owned q (by simpa [one_of_ne hqp] using hq)
  · intro q hq
    have hqp : q ≠ p := fun e => by
      rw [e] at hq
      omega
    simpa [one_of_ne hqp] using h.excl q hq
  · intro q hq
    by_cases hqp : q = p
    · exact hqp ▸ h.hist_of_owned p hpos
    · exact h.hist_of_owned q (by simpa [one_of_ne hqp] using hq)

theorem retag (h : Account page hist free cnt (x + one p) u) :
    Account page hist free cnt x (u + one p) := by
  have hp := h.excl p (by simp [one_self])
  simp only [Pi.add_apply, one_self] at hp
  have hsum : ∀ q, x q + (u + one p) q = (x + one p) q + u q := fun q => by
    simp only [Pi.add_apply]
    omega
  refine ⟨h.nodup, h.page_of_free, fun q hq => hsum q ▸ h.unowned q hq, h.cnt_used, h.cnt_fresh,
    fun q hq hf => hsum q ▸ h.owned q hq hf, fun q hq hf => ?_,
    fun q hq => h.page_of_owned q (hsum q ▸ hq), ?_,
    fun q hq => h.hist_of_owned q (hsum q ▸ hq)⟩
  · have := hsum q
    rw [h.cnt_owned q hq hf]
    omega
  · intro q hq
    rw [hsum q]
    exact h.excl q (by simp only [Pi.add_apply]; omega)

theorem release {x' u' : P → ℕ} (h : Account page hist free cnt x u) (hone : x p + u p = 1)
    (hx : ∀ q, x' q = if q = p then 0 else x q) (hu : ∀ q, u' q = if q = p then 0 else u q)
    (hcnt : ∀ q, page q → cnt' q = if q = p then 0 else cnt q) :
    Account page hist (p :: free) cnt' x' u' := by
  have hp : page p := h.page_of_owned p (by omega)
  have hf : p ∉ free := h.not_mem_free (by omega)
  have hne : ∀ q ∈ free, q ≠ p := fun q hq e => hf (e ▸ hq)
  refine ⟨List.nodup_cons.mpr ⟨hf, h.nodup⟩, ?_, ?_, ?_, ?_, ?_, ?_, ?_, ?_, ?_⟩
  · intro q hq
    rcases List.mem_cons.mp hq with rfl | hq
    · exact hp
    · exact h.page_of_free q hq
  · intro q hq
    rcases List.mem_cons.mp hq with rfl | hq
    · simp [hx, hu]
    · simpa [hx, hu, hne q hq] using h.unowned q hq
  · intro q hq hh
    rcases List.mem_cons.mp hq with rfl | hq
    · rw [hcnt q hp, if_pos rfl]
    · rw [hcnt q (h.page_of_free q hq), if_neg (hne q hq)]
      exact h.cnt_used q hq hh
  · intro q hq hh
    rcases List.mem_cons.mp hq with rfl | hq
    · exact absurd (h.hist_of_owned q (by omega)) hh
    · rw [hcnt q (h.page_of_free q hq), if_neg (hne q hq)]
      exact h.cnt_fresh q hq hh
  · intro q hq hqf
    simp only [List.mem_cons, not_or] at hqf
    rw [hx, hu, if_neg hqf.1, if_neg hqf.1]
    exact h.owned q hq hqf.2
  · intro q hq hqf
    simp only [List.mem_cons, not_or] at hqf
    rw [hx, hu, hcnt q hq, if_neg hqf.1, if_neg hqf.1, if_neg hqf.1]
    exact h.cnt_owned q hq hqf.2
  · intro q hq
    by_cases hqp : q = p
    · exact hqp ▸ hp
    · exact h.page_of_owned q (by simpa [hx, hu, hqp] using hq)
  · intro q hq
    by_cases hqp : q = p
    · simp [hx, hqp] at hq
    · rw [hx, hu, if_neg hqp, if_neg hqp]
      exact h.excl q (by simpa [hx, hqp] using hq)
  · intro q hq
    by_cases hqp : q = p
    · exact hqp ▸ h.hist_of_owned p (by omega)
    · exact h.hist_of_owned q (by simpa [hx, hu, hqp] using hq)

theorem cnt_excl (h : Account page hist free cnt (x + one p) u) : cnt p = 1 := by
  have hone := h.excl p (by simp [one_self])
  rw [h.cnt_eq (by omega)]
  omega

theorem release_excl (h : Account page hist free cnt (x + one p) u)
    (hcnt : ∀ q, page q → cnt' q = if q = p then 0 else cnt q) :
    Account page hist (p :: free) cnt' x u := by
  have hone := h.excl p (by simp [one_self])
  refine h.release hone ?_ ?_ hcnt
  · intro q
    simp only [Pi.add_apply, one_self] at hone
    by_cases hqp : q = p
    · rw [if_pos hqp, hqp]
      omega
    · simp [hqp, one_of_ne hqp]
  · intro q
    simp only [Pi.add_apply, one_self] at hone
    by_cases hqp : q = p
    · rw [if_pos hqp, hqp]
      omega
    · simp [hqp]

section
variable (h : Account page hist free cnt x (u + one p))
include h

/-- A shared owner finds the count at one exactly if it is the last. -/
theorem cnt_shared : cnt p = u p + 1 := by
  have hx := h.shared_not_excl (p := p) (by simp [one_self])
  rw [h.cnt_eq (by simp [one_self]), hx]
  simp [one_self]

theorem release_last (hu : u p = 0)
    (hcnt : ∀ q, page q → cnt' q = if q = p then 0 else cnt q) :
    Account page hist (p :: free) cnt' x u := by
  have hx := h.shared_not_excl (p := p) (by simp [one_self])
  have hone : x p + (u + one p) p = 1 := by
    simp only [Pi.add_apply, one_self]
    omega
  refine h.release hone ?_ ?_ hcnt
  · intro q
    by_cases hqp : q = p
    · rw [if_pos hqp, hqp, hx]
    · simp [hqp]
  · intro q
    by_cases hqp : q = p
    · rw [if_pos hqp, hqp, hu]
    · simp [hqp, one_of_ne hqp]

theorem release_shared (hu : 0 < u p)
    (hcnt : ∀ q, page q → cnt' q = if q = p then cnt p - 1 else cnt q) :
    Account page hist free cnt' x u := by
  have hx := h.shared_not_excl (p := p) (by simp [one_self])
  have hpos : 0 < x p + (u + one p) p := by simp [one_self]
  have hf := h.not_mem_free hpos
  have hne : ∀ q ∈ free, q ≠ p := fun q hq e => hf (e ▸ hq)
  have hc := h.cnt_shared
  refine ⟨h.nodup, h.page_of_free, ?_, ?_, ?_, ?_, ?_, ?_, ?_, ?_⟩
  · intro q hq
    simpa [one_of_ne (hne q hq)] using h.unowned q hq
  · intro q hq
    rw [hcnt q (h.page_of_free q hq), if_neg (hne q hq)]
    exact h.cnt_used q hq
  · intro q hq
    rw [hcnt q (h.page_of_free q hq), if_neg (hne q hq)]
    exact h.cnt_fresh q hq
  · intro q hq hqf
    by_cases hqp : q = p
    · rw [hqp]
      omega
    · simpa [one_of_ne hqp] using h.owned q hq hqf
  · intro q hq hqf
    rw [hcnt q hq]
    by_cases hqp : q = p
    · rw [if_pos hqp, hqp, hx]
      omega
    · rw [if_neg hqp, h.cnt_owned q hq hqf]
      simp [one_of_ne hqp]
  · intro q hq
    exact h.page_of_owned q (by simp only [Pi.add_apply]; omega)
  · intro q hq
    have hqp : q ≠ p := fun e => by
      rw [e] at hq
      omega
    simpa [one_of_ne hqp] using h.excl q hq
  · intro q hq
    exact h.hist_of_owned q (by simp only [Pi.add_apply]; omega)

end

end Account

end Xv6Cow

import Mathlib.Algebra.BigOperators.Pi
import Mathlib.Algebra.BigOperators.Ring.Finset
import Mathlib.Algebra.Order.BigOperators.Group.Finset
import Mathlib.Tactic.Abel

/-! # Counting references

Each index of a finite set may refer to one object.  `tally S f x` is the number of indices of `S`
that refer to `x`.  It is an integer, so that a reference count in the middle of an operation can be
written as the tally plus what the operation has taken and not yet stored, or minus what it has
given back and not yet forgotten.  Redirecting one index changes the tally by the two references
involved (`tally_update`). -/

namespace Xv6Cow

open Finset

variable {ι κ : Type} [DecidableEq κ]

/-- The count of one reference. -/
def ofRef (o : Option κ) : κ → ℤ := fun x => if o = some x then 1 else 0

/-- The number of indices of `S` that refer to each object. -/
def tally (S : Finset ι) (f : ι → Option κ) : κ → ℤ := ∑ i ∈ S, ofRef (f i)

@[simp] theorem ofRef_none : ofRef (none : Option κ) = 0 := by
  funext x
  simp [ofRef]

@[simp] theorem ofRef_some (a : κ) : ofRef (some a) = Pi.single a 1 := by
  funext x
  simp only [ofRef, Option.some.injEq, Pi.single_apply, eq_comm]

theorem ofRef_nonneg (o : Option κ) (x : κ) : 0 ≤ ofRef o x := by
  unfold ofRef
  split_ifs
  · exact zero_le_one
  · exact le_rfl

variable {S : Finset ι} {f g : ι → Option κ} {i : ι} {x : κ}

theorem tally_apply (S : Finset ι) (f : ι → Option κ) (x : κ) : tally S f x = ∑ i ∈ S, ofRef (f i) x :=
  Finset.sum_apply _ _ _

theorem tally_nonneg (S : Finset ι) (f : ι → Option κ) (x : κ) : 0 ≤ tally S f x := by
  rw [tally_apply]
  exact sum_nonneg (fun i _ => ofRef_nonneg (f i) x)

theorem tally_eq_card (S : Finset ι) (f : ι → Option κ) (x : κ) :
    tally S f x = #{i ∈ S | f i = some x} := by
  rw [tally_apply]
  exact sum_boole _ _

theorem tally_congr (h : ∀ i ∈ S, f i = g i) : tally S f = tally S g :=
  sum_congr rfl (fun i hi => by rw [h i hi])

theorem one_le_tally (hi : i ∈ S) (h : f i = some x) : 1 ≤ tally S f x := by
  rw [tally_apply]
  calc (1 : ℤ) = ofRef (f i) x := by rw [h, ofRef_some, Pi.single_eq_same]
    _ ≤ ∑ j ∈ S, ofRef (f j) x := single_le_sum (fun j _ => ofRef_nonneg (f j) x) hi

theorem exists_of_tally_pos (h : 0 < tally S f x) : ∃ i ∈ S, f i = some x := by
  by_contra hnone
  rw [tally_apply, sum_eq_zero] at h
  · exact lt_irrefl _ h
  · intro i hi
    unfold ofRef
    rw [if_neg (fun hf => hnone ⟨i, hi, hf⟩)]

theorem tally_update [DecidableEq ι] (hi : i ∈ S) (f : ι → Option κ) (o : Option κ) :
    tally S (Function.update f i o) = tally S f - ofRef (f i) + ofRef o := by
  have hrest : ∑ j ∈ S.erase i, ofRef (Function.update f i o j) = ∑ j ∈ S.erase i, ofRef (f j) :=
    sum_congr rfl (fun j hj => by rw [Function.update_of_ne (ne_of_mem_erase hj)])
  unfold tally
  rw [← add_sum_erase S _ hi, ← add_sum_erase S (fun j => ofRef (f j)) hi, hrest, Function.update_self]
  abel

/-! ### One reference more -/

variable {b : κ → ℤ} {a : κ}

theorem le_add_single (b : κ → ℤ) (a x : κ) : b x ≤ (b + Pi.single a 1 : κ → ℤ) x := by
  rw [Pi.add_apply, Pi.single_apply]
  split_ifs
  · exact le_of_lt (Int.lt_succ (b x))
  · rw [add_zero]

theorem one_le_add_single (h : 0 ≤ b a) : 1 ≤ (b + Pi.single a 1 : κ → ℤ) a := by
  rw [Pi.add_apply, Pi.single_eq_same]
  exact le_add_of_nonneg_left h

end Xv6Cow

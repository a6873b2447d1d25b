import Mathlib.Algebra.Order.Ring.Nat
import Mathlib.Data.List.Nodup

/-! # Rings with indices that wrap round

A ring has `n` slots.  The writer and the reader have an index each, which counts modulo `w`, a
multiple of `n`; entry `i` is in slot `i % n`.  The entries that have been written and not yet read
are `window n w r lo hi`, in order, where `lo` is the index of the reader and `hi` that of the
writer.

The writer fills the slot of its index (`window_write`), which changes no entry of the window while
there is room, and then moves its index on (`window_advance`) or back (`window_retreat`); the reader
takes the first entry (`window_pop`).  A third index between the two splits the window
(`window_append`). -/

namespace Xv6Cow.RingIndex

variable {α : Type*} {n w lo mid hi k : ℕ} {r : ℕ → α} {x : α}

/-- The number of entries between two indices. -/
def count (w lo hi : ℕ) : ℕ := (hi + w - lo) % w

/-- The entries from index `lo` to index `hi`. -/
def window (n w : ℕ) (r : ℕ → α) (lo hi : ℕ) : List α :=
  (List.range (count w lo hi)).map (fun k => r ((lo + k) % n))

@[simp] theorem length_window : (window n w r lo hi).length = count w lo hi := by
  rw [window, List.length_map, List.length_range]

section indices
variable (hlo : lo < w) (hhi : hi < w)
include hlo hhi

theorem count_eq : count w lo hi = if lo ≤ hi then hi - lo else hi + w - lo := by
  unfold count
  split_ifs with h
  · rw [show hi + w - lo = hi - lo + w by omega, Nat.add_mod_right, Nat.mod_eq_of_lt (by omega)]
  · exact Nat.mod_eq_of_lt (by omega)

theorem count_eq_zero : count w lo hi = 0 ↔ lo = hi := by
  rw [count_eq hlo hhi]
  split_ifs <;> omega

/-- The slot of the writer is the one after the window. -/
theorem add_count_mod (hn : n ∣ w) : (lo + count w lo hi) % n = hi % n := by
  rw [count_eq hlo hhi]
  split_ifs with h
  · rw [show lo + (hi - lo) = hi by omega]
  · rw [show lo + (hi + w - lo) = hi + w by omega, Nat.add_mod, Nat.mod_eq_zero_of_dvd hn,
      Nat.add_zero, Nat.mod_mod]

/-- While there is room the slot of the writer holds no entry of the window. -/
theorem slot_ne (hn : n ∣ w) (hroom : count w lo hi < n) (hk : k < count w lo hi) :
    (lo + k) % n ≠ hi % n := by
  rw [← add_count_mod hlo hhi hn]
  intro he
  have hmod : (count w lo hi - k) % n = 0 := by
    have := Nat.sub_mod_eq_zero_of_mod_eq he.symm
    rwa [Nat.add_sub_add_left] at this
  rw [Nat.mod_eq_of_lt (by omega)] at hmod
  omega

theorem window_write (hn : n ∣ w) (hroom : count w lo hi < n) :
    window n w (Function.update r (hi % n) x) lo hi = window n w r lo hi := by
  refine List.map_congr_left (fun k hk => ?_)
  rw [Function.update_of_ne (slot_ne hlo hhi hn hroom (List.mem_range.mp hk))]

theorem count_advance (hroom : count w lo hi + 1 < w) : count w lo ((hi + 1) % w) = count w lo hi +
    1 := by
  rw [count_eq hlo hhi] at hroom ⊢
  rcases eq_or_ne (hi + 1) w with hw | hw
  · rw [hw, Nat.mod_self, count_eq hlo (by omega)]
    split_ifs at hroom ⊢ <;> omega
  · rw [Nat.mod_eq_of_lt (by omega), count_eq hlo (by omega)]
    split_ifs at hroom ⊢ <;> omega

theorem window_advance (hn : n ∣ w) (hroom : count w lo hi + 1 < w) :
    window n w r lo ((hi + 1) % w) = window n w r lo hi ++ [r (hi % n)] := by
  unfold window
  rw [count_advance hlo hhi hroom, List.range_succ, List.map_append, List.map_singleton,
    add_count_mod hlo hhi hn]

theorem window_pop (hn : n ∣ w) (hne : lo ≠ hi) :
    window n w r lo hi = r (lo % n) :: window n w r ((lo + 1) % w) hi := by
  have hcount : count w lo hi = count w ((lo + 1) % w) hi + 1 := by
    rw [count_eq hlo hhi]
    rcases eq_or_ne (lo + 1) w with hw | hw
    · rw [hw, Nat.mod_self, count_eq (by omega) hhi]
      split_ifs <;> omega
    · rw [Nat.mod_eq_of_lt (by omega), count_eq (by omega) hhi]
      split_ifs <;> omega
  unfold window
  rw [hcount, List.range_succ_eq_map, List.map_cons, List.map_map, Nat.add_zero]
  refine congrArg _ (List.map_congr_left (fun k _ => ?_))
  have hmod : (lo + 1) % w % n = (lo + 1) % n := Nat.mod_mod_of_dvd _ hn
  simp only [Function.comp, Nat.succ_eq_add_one]
  rw [Nat.add_mod ((lo + 1) % w), hmod, ← Nat.add_mod, Nat.add_assoc, Nat.add_comm 1]

/-! ### A step back, and an index in between -/

theorem pred_advance : (count w 1 hi + 1) % w = hi := by
  unfold count
  rw [Nat.mod_add_mod, show hi + w - 1 + 1 = hi + w by omega,
    Nat.add_mod_right, Nat.mod_eq_of_lt hhi]

theorem count_retreat (hne : lo ≠ hi) : count w lo hi = count w lo (count w 1 hi) + 1 := by
  have hp : count w 1 hi < w := Nat.mod_lt _ (by omega)
  have hpred : count w 1 hi = if hi = 0 then w - 1 else hi - 1 := by
    unfold count
    split_ifs with h
    · rw [h, Nat.zero_add, Nat.mod_eq_of_lt (by omega)]
    · rw [show hi + w - 1 = hi - 1 + w by omega, Nat.add_mod_right, Nat.mod_eq_of_lt (by omega)]
  rw [count_eq hlo hhi, count_eq hlo hp, hpred]
  split_ifs <;> omega

theorem window_retreat (hn : n ∣ w) (hne : lo ≠ hi) :
    window n w r lo hi = window n w r lo (count w 1 hi) ++ [r (count w 1 hi % n)] := by
  have hp : count w 1 hi < w := Nat.mod_lt _ (by omega)
  have hroom : count w lo (count w 1 hi) + 1 < w := by
    rw [← count_retreat hlo hhi hne]
    exact Nat.mod_lt _ (by omega)
  have hadv := window_advance (r := r) hlo hp hn hroom
  rwa [pred_advance hlo hhi] at hadv

section between
variable (hmid : mid < w) (hsum : count w lo mid + count w mid hi < w)
include hmid hsum

theorem count_add : count w lo hi = count w lo mid + count w mid hi := by
  rw [count_eq hlo hhi]
  rw [count_eq hlo hmid, count_eq hmid hhi] at hsum ⊢
  split_ifs at hsum ⊢ <;> omega

theorem window_append (hn : n ∣ w) : window n w r lo mid ++ window n w r mid hi =
    window n w r lo hi := by
  unfold window
  rw [count_add hlo hhi hmid hsum, List.range_add, List.map_append, List.map_map]
  refine congrArg _ (List.map_congr_left (fun k _ => ?_))
  rw [Function.comp, ← Nat.add_assoc, Nat.add_mod (lo + _), add_count_mod hlo hmid hn, ← Nat.add_mod]

end between

end indices

end Xv6Cow.RingIndex

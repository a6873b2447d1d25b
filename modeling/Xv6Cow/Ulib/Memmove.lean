import Xv6Cow.Lib.Bytes

/-! # The two `memmove`s

`string.c` copies downwards when the destination starts inside the source, `ulib.c` whenever it does
not start below it.  Addresses do not wrap, so they are numbers.  The length is a `uint` in one and
an `int` in the other: a length of `2 ^ 31` or more is negative for `ulib.c`, which then copies
nothing. -/

namespace Xv6Cow.Ulib

open Function (update update_self update_of_ne)

/-- `while(n-- > 0) *d++ = *s++;` -/
def copyUp (m : Bytes) (d s : ℕ) : ℕ → Bytes
  | 0 => m
  | n + 1 => copyUp (update m d (m s)) (d + 1) (s + 1) n

/-- `while(n-- > 0) *--d = *--s;` -/
def copyDown (m : Bytes) (d s : ℕ) : ℕ → Bytes
  | 0 => m
  | n + 1 => copyDown (update m (d - 1) (m (s - 1))) (d - 1) (s - 1) n

/-- `memmove` of `string.c`; `n` becomes a `uint`. -/
def stringMemmove (m : Bytes) (dst src n : ℕ) : ℕ × Bytes :=
  let n := n % 2 ^ 32
  if n = 0 then (dst, m)
  else if src < dst ∧ src + n > dst then (dst, copyDown m (dst + n) (src + n) n)
  else (dst, copyUp m dst src n)

/-- `memmove` of `ulib.c`; `n` becomes an `int`. -/
def ulibMemmove (m : Bytes) (vdst vsrc n : ℕ) : ℕ × Bytes :=
  let n := (n : ℤ).bmod (2 ^ 32)
  if vsrc > vdst then (vdst, copyUp m vdst vsrc n.toNat)
  else (vdst, copyDown m (vdst + n).toNat (vsrc + n).toNat n.toNat)

variable {m : Bytes} {d s n : ℕ}

theorem copyUp_eq (h : d ≤ s ∨ s + n ≤ d) : copyUp m d s n = m.copyBytes d s n := by
  induction n generalizing m d s with
  | zero => exact funext fun x => (Bytes.copyBytes_of_not_mem (by omega)).symm
  | succ n ih =>
      rw [copyUp, ih (by omega)]
      funext x
      unfold Bytes.copyBytes
      obtain rfl | hx := eq_or_ne x d
      · rw [if_neg (by omega), if_pos (by omega), update_self, Nat.sub_self, Nat.add_zero]
      · rw [update_of_ne hx]
        split_ifs with h1 h2 h2
        · rw [update_of_ne (by omega), show s + 1 + (x - (d + 1)) = s + (x - d) by omega]
        · omega
        · omega
        · rfl

theorem copyDown_eq (h : s ≤ d ∨ d + n ≤ s) : copyDown m (d + n) (s + n) n = m.copyBytes d s n := by
  induction n generalizing m with
  | zero => exact funext fun x => (Bytes.copyBytes_of_not_mem (by omega)).symm
  | succ n ih =>
      rw [copyDown, ← Nat.add_assoc, ← Nat.add_assoc, Nat.add_sub_cancel, Nat.add_sub_cancel,
        ih (by omega)]
      funext x
      unfold Bytes.copyBytes
      obtain rfl | hx := eq_or_ne x (d + n)
      · rw [if_neg (by omega), if_pos (by omega), update_self, Nat.add_sub_cancel_left]
      · rw [update_of_ne hx]
        split_ifs with h1 h2 h2
        · rw [update_of_ne (by omega)]
        · omega
        · omega
        · rfl

theorem stringMemmove_eq (hn : n < 2 ^ 32) : stringMemmove m d s n = (d, m.copyBytes d s n) := by
  unfold stringMemmove
  rw [Nat.mod_eq_of_lt hn]
  dsimp only
  split_ifs with h0 h
  · rw [← copyUp_eq (by omega), h0]
    rfl
  · rw [copyDown_eq (by omega)]
  · rw [copyUp_eq (by omega)]

theorem ulibMemmove_eq (hn : n < 2 ^ 31) : ulibMemmove m d s n = (d, m.copyBytes d s n) := by
  have hint : (n : ℤ).bmod (2 ^ 32) = n := by
    rw [Int.bmod_def]
    omega
  unfold ulibMemmove
  rw [hint]
  dsimp only
  split_ifs with h
  · rw [Int.toNat_natCast, copyUp_eq (by omega)]
  · rw [← Nat.cast_add, ← Nat.cast_add]
    simp only [Int.toNat_natCast]
    rw [copyDown_eq (by omega)]

/-- **Both `memmove`s handle overlap.**  For every memory, both addresses and every length that is
an `int`: the destination holds what the source held, every other byte is as it was, and the two
functions agree. -/
theorem memmoves_agree (m : Bytes) (dst src : ℕ) {n : ℕ} (hn : n < 2 ^ 31) :
    (∀ i < n, (stringMemmove m dst src n).2 (dst + i) = m (src + i)) ∧
      (∀ i < n, (ulibMemmove m dst src n).2 (dst + i) = m (src + i)) ∧
      (∀ x, x < dst ∨ dst + n ≤ x → (stringMemmove m dst src n).2 x = m x ∧
        (ulibMemmove m dst src n).2 x = m x) ∧
      stringMemmove m dst src n = ulibMemmove m dst src n := by
  have hin : ∀ i < n, m.copyBytes dst src n (dst + i) = m (src + i) := fun i hi => by
    rw [Bytes.copyBytes_of_mem (by omega) (by omega), Nat.add_sub_cancel_left]
  rw [stringMemmove_eq (by omega), ulibMemmove_eq hn]
  exact ⟨hin, hin, fun x hx => ⟨Bytes.copyBytes_of_not_mem hx, Bytes.copyBytes_of_not_mem hx⟩, rfl⟩

/-- Three bytes moved up by one: the ranges overlap. -/
theorem memmoves_agree_overlap : (ulibMemmove (fun x => UInt8.ofNat x) 1 0 3).2 3 = 2 ∧
    stringMemmove (fun x => UInt8.ofNat x) 1 0 3 = ulibMemmove (fun x => UInt8.ofNat x) 1 0 3 := by
  obtain ⟨-, h, -, he⟩ := memmoves_agree (fun x => UInt8.ofNat x) 1 0 (n := 3) (by decide)
  exact ⟨h 2 (by decide), he⟩

/-- With a length of `2 ^ 31` the function of the user library copies nothing. -/
theorem memmoves_differ : (stringMemmove (fun x => UInt8.ofNat x) (2 ^ 31) 1 (2 ^ 31)).2 (2 ^ 31) =
    1 ∧ (ulibMemmove (fun x => UInt8.ofNat x) (2 ^ 31) 1 (2 ^ 31)).2 (2 ^ 31) = 0 := by
  refine ⟨?_, by decide⟩
  rw [stringMemmove_eq (by decide)]
  decide

end Xv6Cow.Ulib

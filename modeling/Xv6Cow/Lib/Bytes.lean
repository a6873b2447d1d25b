import Mathlib.Tactic.Ring
import Mathlib.Tactic.Linarith

/-! # Byte-addressed memory and little-endian words

A memory is a function from addresses to bytes.  The two accessors `le` and `setLe` read and
write a little-endian word of `n` bytes at an address; `fill` and `copyBytes` are the effects of
`memset` and of a `memmove` whose two ranges do not overlap.

Every accessor comes with the same three facts: what it gives at the written range, what it
leaves alone outside (`*_of_not_mem`), and that a reader only sees the bytes of its own range
(`le_congr`). -/

namespace Xv6Cow

/-- A byte-addressed memory. -/
abbrev Bytes := ℕ → UInt8

namespace Bytes

/-- The little-endian word of `n` bytes at address `a`. -/
def le (m : Bytes) (a : ℕ) : ℕ → ℕ
  | 0 => 0
  | n + 1 => (m a).toNat + 256 * le m (a + 1) n

/-- Write the `n` low bytes of `v` at address `a`, least significant byte first. -/
def setLe (m : Bytes) (a n v : ℕ) : Bytes :=
  fun x => if a ≤ x ∧ x < a + n then UInt8.ofNat (v / 256 ^ (x - a)) else m x

/-- Write the byte `v` at the `n` addresses from `a` on. -/
def fill (m : Bytes) (a n : ℕ) (v : UInt8) : Bytes :=
  fun x => if a ≤ x ∧ x < a + n then v else m x

/-- Copy `n` bytes from `src` to `dst`, all of them read before the first is written. -/
def copyBytes (m : Bytes) (dst src n : ℕ) : Bytes :=
  fun x => if dst ≤ x ∧ x < dst + n then m (src + (x - dst)) else m x

/-- Write a list of bytes at the addresses from `a` on. -/
def write (m : Bytes) (a : ℕ) (bs : List UInt8) : Bytes :=
  fun x => if a ≤ x ∧ x < a + bs.length then bs.getD (x - a) 0 else m x

/-- The `n` bytes from address `a` on. -/
def read (m : Bytes) (a n : ℕ) : List UInt8 := (List.range n).map (fun i => m (a + i))

variable {m m' : Bytes} {a n : ℕ}

theorem le_congr : ∀ {n a : ℕ}, (∀ x, a ≤ x → x < a + n → m x = m' x) → le m a n = le m' a n
  | 0, _, _ => rfl
  | n + 1, a, h => by
      simp only [le]
      rw [h a le_rfl (by omega), le_congr (n := n)
        (a := a + 1) (fun x h1 h2 => h x (by omega) (by omega))]

theorem le_lt : ∀ (n a : ℕ), le m a n < 256 ^ n
  | 0, _ => by simp [le]
  | n + 1, a => by
      simp only [le]
      have h1 := le_lt n (a + 1)
      have h2 : (m a).toNat < 256 := (m a).toNat_lt
      rw [pow_succ]
      omega

theorem le_eq_zero : ∀ {n a : ℕ}, (∀ x, a ≤ x → x < a + n → m x = 0) → le m a n = 0
  | 0, _, _ => rfl
  | n + 1, a, h => by
      simp only [le]
      rw [h a le_rfl (by omega), le_eq_zero (n := n)
        (a := a + 1) (fun x h1 h2 => h x (by omega) (by omega))]
      rfl

theorem setLe_of_not_mem {v x : ℕ} (h : x < a ∨ a + n ≤ x) : setLe m a n v x = m x := by
  unfold setLe
  rw [if_neg (by omega)]

theorem setLe_of_mem {v x : ℕ} (h1 : a ≤ x) (h2 : x < a + n) :
    setLe m a n v x = UInt8.ofNat (v / 256 ^ (x - a)) := if_pos ⟨h1, h2⟩

theorem le_setLe_ne {b k v : ℕ} (h : b + k ≤ a ∨ a + n ≤ b) : le (setLe m a n v) b k = le m b k :=
  le_congr (fun _ _ _ => setLe_of_not_mem (by omega))

theorem le_setLe_mod : ∀ (n a v : ℕ) (m : Bytes), le (setLe m a n v) a n = v % 256 ^ n
  | 0, _, v, _ => by simp [le, Nat.mod_one]
  | n + 1, a, v, m => by
      have htail : le (setLe m a (n + 1) v) (a + 1) n = le (setLe m (a + 1) n (v / 256)) (a + 1) n := by
        apply le_congr
        intro x h1 h2
        rw [setLe_of_mem (by omega) (by omega), setLe_of_mem h1 h2, Nat.div_div_eq_div_mul]
        congr 2
        rw [show x - a = (x - (a + 1)) + 1 by omega, pow_succ, Nat.mul_comm]
      have hhead : ((setLe m a (n + 1) v) a).toNat = v % 256 := by
        rw [setLe_of_mem le_rfl (by omega)]
        simp
      simp only [le]
      rw [htail, le_setLe_mod n (a + 1), hhead, pow_succ, Nat.mul_comm (256 ^ n) 256, Nat.mod_mul]

theorem le_setLe {v : ℕ} (h : v < 256 ^ n) : le (setLe m a n v) a n = v := by
  rw [le_setLe_mod, Nat.mod_eq_of_lt h]

theorem fill_of_mem {v : UInt8} {x : ℕ} (h1 : a ≤ x) (h2 : x < a + n) : fill m a n v x = v :=
  if_pos ⟨h1, h2⟩

theorem fill_of_not_mem {v : UInt8} {x : ℕ} (h : x < a ∨ a + n ≤ x) : fill m a n v x = m x := by
  unfold fill
  rw [if_neg (by omega)]

theorem le_fill_zero {b k : ℕ} (h1 : a ≤ b) (h2 : b + k ≤ a + n) : le (fill m a n 0) b k = 0 :=
  le_eq_zero (fun _ _ _ => fill_of_mem (by omega) (by omega))

theorem copyBytes_of_mem {src x : ℕ} (h1 : a ≤ x) (h2 : x < a + n) :
    copyBytes m a src n x = m (src + (x - a)) := if_pos ⟨h1, h2⟩

theorem copyBytes_of_not_mem {src x : ℕ} (h : x < a ∨ a + n ≤ x) : copyBytes m a src n x = m x := by
  unfold copyBytes
  rw [if_neg (by omega)]

theorem write_of_mem {bs : List UInt8} {x : ℕ} (h1 : a ≤ x) (h2 : x < a + bs.length) :
    write m a bs x = bs.getD (x - a) 0 := if_pos ⟨h1, h2⟩

theorem write_of_not_mem {bs : List UInt8} {x : ℕ} (h : x < a ∨ a + bs.length ≤ x) :
    write m a bs x = m x := by
  unfold write
  rw [if_neg (by omega)]

end Bytes
end Xv6Cow

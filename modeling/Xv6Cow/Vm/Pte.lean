import Mathlib.Data.Nat.Bitwise
import Mathlib.Tactic.NormNum

/-! # Pages, addresses and page-table entries

The constants and macros of `riscv.h` and `memlayout.h`.  Addresses are natural numbers; the
macros that may leave 64 bits say so with an explicit remainder.  A page-table entry is the
64-bit word the code manipulates, and `PTE2PA`, `PA2PTE` and `PTE_FLAGS` are the code's own shifts
and masks.

The lemmas say what the code relies on: a word built by `PA2PTE(pa) | flags` gives back `pa` and
`flags`, and setting or clearing a flag leaves the physical address and the other flags alone. -/

namespace Xv6Cow.Vm

def PGSIZE : ℕ := 4096

def MAXVA : ℕ := 2 ^ 38

def TRAMPOLINE : ℕ := MAXVA - PGSIZE

def TRAPFRAME : ℕ := TRAMPOLINE - PGSIZE

def KERNBASE : ℕ := 0x80000000

def PHYSTOP : ℕ := KERNBASE + 128 * 1024 * 1024

/-- `PGROUNDUP`, on `uint64`. -/
def pgroundup (sz : ℕ) : ℕ := (sz + (PGSIZE - 1)) % 2 ^ 64 / PGSIZE * PGSIZE

/-- `PGROUNDDOWN`. -/
def pgrounddown (a : ℕ) : ℕ := a / PGSIZE * PGSIZE

/-- `PX(level, va)`: the nine index bits of a level. -/
def px (level va : ℕ) : ℕ := va / 2 ^ (12 + 9 * level) % 512

theorem pgroundup_mod (a : ℕ) : pgroundup a % PGSIZE = 0 := Nat.mul_mod_left _ _

theorem le_pgroundup {a : ℕ} (h : a ≤ PHYSTOP) : a ≤ pgroundup a := by
  unfold PHYSTOP KERNBASE at h
  unfold pgroundup PGSIZE
  omega

/-- `pte_t`. -/
abbrev Pte := BitVec 64

def PTE_V : Pte := 1#64 <<< 0

def PTE_R : Pte := 1#64 <<< 1

def PTE_W : Pte := 1#64 <<< 2

def PTE_X : Pte := 1#64 <<< 3

def PTE_U : Pte := 1#64 <<< 4

def PTE_COW : Pte := 1#64 <<< 8

/-- `PA2PTE`. -/
def pa2pte (pa : ℕ) : Pte := (BitVec.ofNat 64 pa >>> 12) <<< 10

/-- `PTE2PA`. -/
def pte2pa (pte : Pte) : ℕ := ((pte >>> 10) <<< 12).toNat

/-- `PTE_FLAGS`. -/
def pteFlags (pte : Pte) : Pte := pte &&& 0x3FF#64

/-- The test `*pte & flag`. -/
def has (pte flag : Pte) : Bool := pte &&& flag != 0

/-! ### Flags -/

section flags
variable {e f g : Pte} {pa : ℕ}

theorem has_eq_true : has e f = true ↔ ∃ i, e.getLsbD i = true ∧ f.getLsbD i = true := by
  unfold has
  rw [bne_iff_ne, ne_eq, BitVec.eq_of_getLsbD_eq_iff]
  constructor
  · intro h
    by_contra hn
    push Not at hn
    exact h (fun i _ => by simpa using hn i)
  · rintro ⟨i, h1, h2⟩ h
    have hi : i < 64 := BitVec.lt_of_getLsbD h1
    simpa [h1, h2] using h i hi

theorem has_or : has (e ||| f) g = (has e g || has f g) := by
  rw [Bool.eq_iff_iff, Bool.or_eq_true]
  simp only [has_eq_true, BitVec.getLsbD_or, Bool.or_eq_true]
  constructor
  · rintro ⟨i, h1 | h1, h2⟩
    · exact Or.inl ⟨i, h1, h2⟩
    · exact Or.inr ⟨i, h1, h2⟩
  · rintro (⟨i, h1, h2⟩ | ⟨i, h1, h2⟩)
    · exact ⟨i, Or.inl h1, h2⟩
    · exact ⟨i, Or.inr h1, h2⟩

/-- Clearing `f` leaves the flags outside `f` alone. -/
theorem has_clear_of_disjoint (h : has f g = false) : has (e &&& ~~~f) g = has e g := by
  rw [Bool.eq_iff_iff]
  simp only [has_eq_true, BitVec.getLsbD_and, BitVec.getLsbD_not, Bool.and_eq_true]
  constructor
  · rintro ⟨i, ⟨h1, -⟩, h2⟩
    exact ⟨i, h1, h2⟩
  · rintro ⟨i, h1, h2⟩
    have hf : f.getLsbD i = false := by
      by_contra hf
      have : has f g = true := has_eq_true.mpr ⟨i, by simpa using hf, h2⟩
      simp [h] at this
    refine ⟨i, ⟨h1, ?_⟩, h2⟩
    rw [hf, decide_eq_true (BitVec.lt_of_getLsbD h1)]
    exact ⟨rfl, rfl⟩

theorem has_clear_self : has (e &&& ~~~f) f = false := by
  rw [Bool.eq_false_iff, ne_eq, has_eq_true]
  simp only [BitVec.getLsbD_and, BitVec.getLsbD_not, Bool.and_eq_true]
  rintro ⟨i, ⟨-, h1⟩, h2⟩
  simp [h2] at h1

/-- The ten low bits: what may be or-ed to an address as flags. -/
def Small (f : Pte) : Prop := f.toNat < 1024

instance : Decidable (Small f) := inferInstanceAs (Decidable (_ < _))

theorem Small.getLsbD (h : Small f) {i : ℕ} (hi : 10 ≤ i) : f.getLsbD i = false := by
  rw [BitVec.getLsbD, Nat.testBit_eq_false_of_lt]
  exact lt_of_lt_of_le h (Nat.pow_le_pow_right (i := 10) (by norm_num : 2 > 0) hi)

theorem small_iff : Small f ↔ ∀ i, 10 ≤ i → f.getLsbD i = false := by
  refine ⟨fun h i => h.getLsbD, fun h => ?_⟩
  exact Nat.lt_pow_two_of_testBit f.toNat (n := 10) (fun i hi => h i hi)

theorem Small.or (he : Small e) (hf : Small f) : Small (e ||| f) :=
  small_iff.mpr (fun i hi => by simp [he.getLsbD hi, hf.getLsbD hi])

theorem Small.clear (he : Small e) : Small (e &&& ~~~f) :=
  small_iff.mpr (fun i hi => by simp [he.getLsbD hi])

theorem small_pteFlags : Small (pteFlags e) :=
  small_iff.mpr (fun i hi => by
    have : Small 0x3FF#64 := by decide
    simp [pteFlags, this.getLsbD hi])

theorem getLsbD_pteFlags {i : ℕ} (hi : i < 10) : (pteFlags e).getLsbD i = e.getLsbD i := by
  have : ∀ j : Fin 10, (0x3FF#64).getLsbD j = true := by decide
  simp [pteFlags, this ⟨i, hi⟩]

theorem getLsbD_pa2pte_low {i : ℕ} (hi : i < 10) : (pa2pte pa).getLsbD i = false := by
  simp [pa2pte, hi]

theorem has_pa2pte (hg : Small g) : has (pa2pte pa) g = false := by
  rw [Bool.eq_false_iff, ne_eq, has_eq_true]
  rintro ⟨i, h1, h2⟩
  by_cases hi : i < 10
  · rw [getLsbD_pa2pte_low hi] at h1
    simp at h1
  · rw [hg.getLsbD (by omega)] at h2
    simp at h2

theorem has_pteFlags (hg : Small g) : has (pteFlags e) g = has e g := by
  rw [Bool.eq_iff_iff]
  simp only [has_eq_true]
  have hlt : ∀ i, g.getLsbD i = true → i < 10 := fun i h => by
    by_contra hi
    rw [hg.getLsbD (by omega)] at h
    simp at h
  constructor
  · rintro ⟨i, h1, h2⟩
    exact ⟨i, getLsbD_pteFlags (hlt i h2) ▸ h1, h2⟩
  · rintro ⟨i, h1, h2⟩
    exact ⟨i, (getLsbD_pteFlags (hlt i h2)).symm ▸ h1, h2⟩

/-! ### Physical addresses -/

theorem pte2pa_or (hf : Small f) : pte2pa (e ||| f) = pte2pa e := by
  unfold pte2pa
  congr 1
  apply BitVec.eq_of_getLsbD_eq
  intro i hi
  by_cases h12 : i < 12
  · simp [h12]
  · simp [hf.getLsbD (show 10 ≤ 10 + (i - 12) by omega)]

theorem pte2pa_clear (hf : Small f) : pte2pa (e &&& ~~~f) = pte2pa e := by
  unfold pte2pa
  congr 1
  apply BitVec.eq_of_getLsbD_eq
  intro i hi
  by_cases h12 : i < 12
  · simp [h12]
  · have hlt : 10 + (i - 12) < 64 := by omega
    simp [hf.getLsbD (show 10 ≤ 10 + (i - 12) by omega), decide_eq_true hlt]

theorem pte2pa_eq : pte2pa e = e.toNat / 1024 * 4096 % 2 ^ 64 := by
  simp [pte2pa, Nat.shiftRight_eq_div_pow, Nat.shiftLeft_eq]

theorem pte2pa_mod : pte2pa e % 4096 = 0 := by
  rw [pte2pa_eq]
  omega

theorem pte2pa_pa2pte (hpa : pa % 4096 = 0) (hlt : pa < 2 ^ 56) : pte2pa (pa2pte pa) = pa := by
  rw [pte2pa_eq]
  simp [pa2pte, Nat.shiftRight_eq_div_pow, Nat.shiftLeft_eq]
  omega

theorem pte2pa_mk (hpa : pa % 4096 = 0) (hlt : pa < 2 ^ 56) (hf : Small f) :
    pte2pa (pa2pte pa ||| f) = pa := by
  rw [pte2pa_or hf, pte2pa_pa2pte hpa hlt]

theorem has_mk (hg : Small g) : has (pa2pte pa ||| f) g = has f g := by
  rw [has_or, has_pa2pte hg, Bool.false_or]

end flags

end Xv6Cow.Vm

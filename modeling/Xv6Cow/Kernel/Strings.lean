import Xv6Cow.Vm.Strings
import Xv6Cow.Kernel.Model

/-! # `fetchstr` and `argstr`

Strings that system calls take from user memory.  `copyinstr` finds the string at an address if
there is one that fits, and stores it and nothing else; so `fetchstr` and `argstr` return its
length. -/

namespace Xv6Cow.Kernel

open Vm

/-- `strlen` of what has been stored in a buffer. -/
def strlen (buf : List UInt8) : ℕ := (buf.takeWhile (fun b => b != 0)).length

/-- `fetchstr` for the process `p`: the return value, and what is stored in `buf`.  `max` is the
size of the buffer, an `int`. -/
def fetchstr (p : Proc) (addr max : ℕ) : VmM (ℤ × List UInt8) := do
  let (r, buf) ← copyinstr p.pagetable addr max
  if r < 0 then pure (-1, buf) else pure (strlen buf, buf)

/-- `argraw`: the register `a0` to `a5` that holds argument `n`; there is no other argument. -/
def argraw (p : Proc) (n : Fin 6) : VmM ℕ := do
  let s ← get
  pure (s.mem.le (p.trapframe + TF_A0 + 8 * n) 8)

/-- `argaddr`. -/
def argaddr (p : Proc) (n : Fin 6) : VmM ℕ := argraw p n

/-- `argstr`. -/
def argstr (p : Proc) (n : Fin 6) (max : ℕ) : VmM (ℤ × List UInt8) := do
  let addr ← argaddr p n
  fetchstr p addr max

section strings
variable {s : Mach} {p : Proc}

theorem strlen_bytesAt {m : Bytes} {a va k : ℕ} (h : IsString m a va k) :
    strlen (bytesAt m a va (k + 1)) = k := by
  induction k generalizing va with
  | zero =>
      rw [bytesAt_succ, (isString_zero.mp h).2]
      rfl
  | succ k ih =>
      obtain ⟨-, hne, hrest⟩ := isString_succ.mp h
      have hlen := ih hrest
      rw [bytesAt_succ]
      unfold strlen at *
      rw [List.takeWhile_cons, if_pos (bne_iff_ne.mpr hne), List.length_cons, hlen]

theorem fetchstr_spec (hnn : NonNull s.mem p.pagetable) (addr max : ℕ) :
    (∀ k < max, IsString s.mem p.pagetable addr k →
      fetchstr p addr max s = .ok (((k : ℤ), bytesAt s.mem p.pagetable addr (k + 1)), s)) ∧
    ((¬ ∃ k < max, IsString s.mem p.pagetable addr k) →
      ∃ buf, fetchstr p addr max s = .ok ((-1, buf), s) ∧ buf.length ≤ max) := by
  have hfetch : fetchstr p addr max s = .ok ((if (bytewise s.mem p.pagetable max addr).1 < 0
      then (-1, (bytewise s.mem p.pagetable max addr).2.1)
      else ((strlen (bytewise s.mem p.pagetable max addr).2.1 : ℤ),
        (bytewise s.mem p.pagetable max addr).2.1)), s) := by
    simp only [fetchstr, bind, StateT.bind, (copyinstr_eq hnn addr max).2, Except.bind]
    split_ifs <;> rfl
  rw [hfetch]
  constructor
  · intro k hk hstr
    obtain ⟨hr, hdst⟩ := bytewise_string hstr hk
    rw [hr, hdst, if_neg (lt_irrefl 0), strlen_bytesAt hstr]
  · intro hno
    have hr : (bytewise s.mem p.pagetable max addr).1 = -1 := by
      by_contra h
      exact hno (string_of_bytewise h)
    rw [hr, if_pos (by decide)]
    exact ⟨_, rfl, bytewise_bounds.1⟩

/-- **`copyinstr` is exact.**  For every page table whose accessible pages are not at the null
address, every address and every `max`: `copyinstr` returns; it returns 0 if and only if a string of
fewer than `max` nonzero bytes is at `srcva`, and has then stored the string with its terminator and
nothing else; otherwise it returns -1; it stores `max` bytes at most, and reads only bytes that user
code may access.  `fetchstr` and `argstr` return the length of the string with a terminated buffer,
or -1. -/
theorem copyinstr_exact (hnn : NonNull s.mem p.pagetable) :
    (∀ srcva max, ∃ r dst reads, copyinstrReads p.pagetable srcva max s = .ok ((r, dst, reads), s) ∧
      copyinstr p.pagetable srcva max s = .ok ((r, dst), s) ∧
      (r = 0 ↔ ∃ k < max, IsString s.mem p.pagetable srcva k) ∧
      (∀ k < max, IsString s.mem p.pagetable srcva k → dst = bytesAt s.mem p.pagetable srcva (k + 1)) ∧
      (r ≠ 0 → r = -1) ∧ dst.length ≤ max ∧
      ∀ q ∈ reads, ∃ va, Accessible s.mem p.pagetable va ∧ q = phys s.mem p.pagetable va) ∧
    (∀ addr max,
      (∀ k < max, IsString s.mem p.pagetable addr k →
        fetchstr p addr max s = .ok (((k : ℤ), bytesAt s.mem p.pagetable addr (k + 1)), s)) ∧
      ((¬ ∃ k < max, IsString s.mem p.pagetable addr k) →
        ∃ buf, fetchstr p addr max s = .ok ((-1, buf), s) ∧ buf.length ≤ max)) ∧
    (∀ n max, argstr p n max s = fetchstr p (s.mem.le (p.trapframe + TF_A0 + 8 * n) 8) max s) := by
  refine ⟨fun srcva max => ?_, fetchstr_spec hnn, fun n max => rfl⟩
  obtain ⟨hreads, hrun⟩ := copyinstr_eq hnn srcva max
  have hfails : ¬ (bytewise s.mem p.pagetable max srcva).1 = -1 →
      (bytewise s.mem p.pagetable max srcva).1 = 0 := by
    intro h
    obtain ⟨k, hk, hstr⟩ := string_of_bytewise h
    exact (bytewise_string hstr hk).1
  refine ⟨_, _, _, hreads, hrun, ⟨?_, ?_⟩, fun k hk hstr => (bytewise_string hstr hk).2,
    fun h => by_contra fun h' => h (hfails h'), bytewise_bounds.1, bytewise_bounds.2⟩
  · intro h
    exact string_of_bytewise (by rw [h]; decide)
  · rintro ⟨k, hk, hstr⟩
    exact (bytewise_string hstr hk).1

end strings

/-! ### One page with one string -/

/-- A page table at `0x1000` that maps page 0 to the page at `0x4000`, which begins with `a`. -/
def onePage : Bytes := fun x =>
  if x = 0x1000 then 0x01 else if x = 0x1001 then 0x08
  else if x = 0x2000 then 0x01 else if x = 0x2001 then 0x0c
  else if x = 0x3000 then 0x13 else if x = 0x3001 then 0x10
  else if x = 0x4000 then 97 else 0

theorem onePage_ent {a i : ℕ} (ha : a = 0x1000 ∨ a = 0x2000 ∨ a = 0x3000) (hi : i < 512)
    (h0 : i ≠ 0) : ent onePage a i = 0 := by
  have hz : onePage.le (a + 8 * i) 8 = 0 := by
    apply Bytes.le_eq_zero
    intro x h1 h2
    unfold onePage
    rw [if_neg, if_neg, if_neg, if_neg, if_neg, if_neg, if_neg] <;> omega
  unfold ent pteAt
  rw [hz]
  rfl

theorem onePage_nonNull : NonNull onePage 0x1000 := by
  intro va hacc
  have hroot : pte2pa (ent onePage 0x1000 0) = 0x2000 ∧ pte2pa (ent onePage 0x2000 0) = 0x3000 := by
    decide +kernel
  obtain ⟨-, hslot, hV, -⟩ := hacc
  have hidx : ∀ l, idx l (va / PGSIZE) < 512 := fun l => Nat.mod_lt _ (by decide)
  unfold leaf at hV ⊢
  by_cases h2 : idx 2 (va / PGSIZE) = 0
  · by_cases h1 : idx 1 (va / PGSIZE) = 0
    · have hlast : slot onePage 2 0x1000 (va / PGSIZE) = 0x3000 + 8 * idx 0 (va / PGSIZE) := by
        simp only [slot, h2, h1, hroot.1, hroot.2]
        rw [if_pos (by decide +kernel), if_pos (by decide +kernel)]
      rw [hlast] at hV ⊢
      by_cases h0 : idx 0 (va / PGSIZE) = 0
      · rw [h0]
        decide +kernel
      · rw [show pteAt onePage _ = 0 from onePage_ent (by decide) (hidx 0) h0] at hV
        exact absurd hV (by decide)
    · refine absurd ?_ hslot
      simp only [slot, h2, hroot.1]
      rw [if_pos (by decide +kernel), if_neg (by rw [onePage_ent (by decide) (hidx 1) h1]; decide)]
  · refine absurd ?_ hslot
    simp only [slot]
    rw [if_neg (by rw [onePage_ent (by decide) (hidx 2) h2]; decide)]

/-- `fetchstr` of the string `a` returns 1. -/
theorem copyinstr_exact_one :
    fetchstr { pagetable := 0x1000 } 0 16 ⟨onePage, fun _ => 0, 0, []⟩ =
      .ok ((1, [97, 0]), ⟨onePage, fun _ => 0, 0, []⟩) :=
  ((copyinstr_exact (s := ⟨onePage, fun _ => 0, 0, []⟩)
    (p := { pagetable := 0x1000 }) onePage_nonNull).2.1 0 16).1 1 (by decide) ⟨by decide +kernel,
      by decide +kernel, by decide +kernel⟩

end Xv6Cow.Kernel

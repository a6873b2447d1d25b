import Mathlib.Data.Nat.Digits.Lemmas

/-! # Integers in the `printf` of the kernel and in that of the user library

The two have the same conversions.  `printint` of the kernel works on 64 bits and that of the user
library on 32, and both put the digits into a buffer of 16 bytes; a store past its end is `none`.  A
call has its arguments in 64-bit registers, and `str` says which string is at an address.  The lock
of the kernel's `printf` is left out. -/

namespace Xv6Cow.Printf

/-- `digits` of the kernel. -/
def lower : List Char := ['0', '1', '2', '3', '4', '5', '6', '7', '8', '9', 'a', 'b', 'c', 'd', 'e', 'f']

/-- `digits` of the user library. -/
def upper : List Char := ['0', '1', '2', '3', '4', '5', '6', '7', '8', '9', 'A', 'B', 'C', 'D', 'E', 'F']

/-- `sizeof(buf)` -/
def BUFSIZE : ℕ := 16

/-- The loop that stores digits, with `room` bytes of the buffer left. -/
def storeDigits (digits : List Char) (base : ℕ) : (room x : ℕ) → Option (List Char)
  | 0, _ => none
  | room + 1, x =>
      if x / base ≠ 0 then (storeDigits digits base room (x / base)).map
        (digits.getD (x % base) '0' :: ·)
      else some [digits.getD (x % base) '0']

/-- `printint`, where `x` has `w` bits. -/
def printint (w : ℕ) (digits : List Char) (xx : ℤ) (base : ℕ) (sign : Bool) : Option (List Char) :=
  if sign ∧ xx < 0 then do
    let buf ← storeDigits digits base BUFSIZE (-xx % 2 ^ w).toNat
    if buf.length < BUFSIZE then some (buf ++ ['-']).reverse else none
  else (storeDigits digits base BUFSIZE (xx % 2 ^ w).toNat).map List.reverse

/-- `va_arg(ap, int)`, and `va_arg(ap, uint64)` as a `long long`. -/
def arg (long : Bool) (v : UInt64) : ℤ := if long then (v.toNat : ℤ).bmod (2 ^ 64)
    else (v.toNat : ℤ).bmod (2 ^ 32)

/-- The arguments of `printint` in a conversion: whether it takes a `uint64`, the base, and the
sign. -/
structure Spec where
  long : Bool
  base : ℕ
  sign : Bool
  deriving DecidableEq

/-- The tests for an integer conversion, and by how much `i` advances. -/
def integer (c0 c1 c2 : Char) : Option (Spec × ℕ) :=
  if c0 = 'd' then some (⟨false, 10, true⟩, 0)
  else if c0 = 'l' ∧ c1 = 'd' then some (⟨true, 10, true⟩, 1)
  else if c0 = 'l' ∧ c1 = 'l' ∧ c2 = 'd' then some (⟨true, 10, true⟩, 2)
  else if c0 = 'u' then some (⟨false, 10, false⟩, 0)
  else if c0 = 'l' ∧ c1 = 'u' then some (⟨true, 10, false⟩, 1)
  else if c0 = 'l' ∧ c1 = 'l' ∧ c2 = 'u' then some (⟨true, 10, false⟩, 2)
  else if c0 = 'x' then some (⟨false, 16, false⟩, 0)
  else if c0 = 'l' ∧ c1 = 'x' then some (⟨true, 16, false⟩, 1)
  else if c0 = 'l' ∧ c1 = 'l' ∧ c2 = 'x' then some (⟨true, 16, false⟩, 2)
  else none

/-- The loop of `printptr`. -/
def hexDigits (digits : List Char) : ℕ → UInt64 → List Char
  | 0, _ => []
  | n + 1, x => digits.getD (x >>> 60).toNat '0' :: hexDigits digits n (x <<< 4)

/-- The other conversions that the two have in common, and the arguments that are left. -/
def other (digits : List Char) (str : UInt64 → List Char) (c0 : Char) (ap : List UInt64) :
    List Char × List UInt64 :=
  if c0 = 'p' then ('0' :: 'x' :: hexDigits digits 16 (ap.headD 0), ap.tail)
  else if c0 = 's' then (if ap.headD 0 = 0 then ['(', 'n', 'u', 'l', 'l', ')']
    else str (ap.headD 0), ap.tail)
  else if c0 = '%' then (['%'], ap)
  else (['%', c0], ap)

variable (str : UInt64 → List Char)

/-- The loop of `printf`; `skip` characters were part of the last conversion. -/
def printfFrom : (fmt : List Char) → (skip : ℕ) → (ap : List UInt64) → Option (List Char)
  | [], _, _ => some []
  | _ :: fmt, skip + 1, ap => printfFrom fmt skip ap
  | [cx], 0, _ => some (if cx ≠ '%' then [cx] else [])
  | cx :: c0 :: fmt, 0, ap =>
      if cx ≠ '%' then (printfFrom (c0 :: fmt) 0 ap).map (cx :: ·)
      else match integer c0 (fmt.headD '\x00') (fmt.tail.headD '\x00') with
        | some (spec, k) => do
            let out ← printint 64 lower (arg spec.long (ap.headD 0)) spec.base spec.sign
            (printfFrom fmt k ap.tail).map (out ++ ·)
        | none => (printfFrom fmt 0 (other lower str c0 ap).2).map ((other lower str c0 ap).1 ++ ·)

/-- `printf` of the kernel. -/
def printf (fmt : List Char) (ap : List UInt64) : Option (List Char) := printfFrom str fmt 0 ap

/-- The loop of `vprintf`; `state` tells whether the last character was a `%`. -/
def vprintfFrom : (fmt : List Char) → (state : Bool) → (skip : ℕ) → (ap : List UInt64) →
    Option (List Char)
  | [], _, _, _ => some []
  | _ :: fmt, state, skip + 1, ap => vprintfFrom fmt state skip ap
  | c0 :: fmt, false, 0, ap =>
      if c0 = '%' then vprintfFrom fmt true 0 ap else (vprintfFrom fmt false 0 ap).map (c0 :: ·)
  | c0 :: fmt, true, 0, ap =>
      match integer c0 (fmt.headD '\x00') (fmt.tail.headD '\x00') with
      | some (spec, k) => do
          -- the parameter of `printint` is an `int`
          let out ← printint 32 upper (arg false (ap.headD 0)) spec.base spec.sign
          (vprintfFrom fmt false k ap.tail).map (out ++ ·)
      | none =>
          if c0 = 'c' then (vprintfFrom fmt false 0 ap.tail).map
            (Char.ofNat ((ap.headD 0).toNat % 256) :: ·)
          else (vprintfFrom fmt false 0 (other upper str c0 ap).2).map ((other upper str c0 ap).1 ++ ·)

/-- `vprintf` of the user library. -/
def vprintf (fmt : List Char) (ap : List UInt64) : Option (List Char) := vprintfFrom str fmt false 0 ap

/-! ### Numerals -/

/-- The digits of a number, the least one first; those of 0 are `0`. -/
def digitsOf (base n : ℕ) : List ℕ := if n = 0 then [0] else Nat.digits base n

/-- The numeral of an integer. -/
def numeral (digits : List Char) (base : ℕ) (x : ℤ) : List Char :=
  (if x < 0 then ['-'] else []) ++ ((digitsOf base x.natAbs).map (digits.getD · '0')).reverse

/-- The integer conversions. -/
inductive Conv
  | d | ld | lld | u | lu | llu | x | lx | llx
  deriving DecidableEq

namespace Conv

def text : Conv → List Char
  | d => ['d'] | ld => ['l', 'd'] | lld => ['l', 'l', 'd']
  | u => ['u'] | lu => ['l', 'u'] | llu => ['l', 'l', 'u']
  | x => ['x'] | lx => ['l', 'x'] | llx => ['l', 'l', 'x']

def spec : Conv → Spec
  | d => ⟨false, 10, true⟩ | ld | lld => ⟨true, 10, true⟩
  | u => ⟨false, 10, false⟩ | lu | llu => ⟨true, 10, false⟩
  | x => ⟨false, 16, false⟩ | lx | llx => ⟨true, 16, false⟩

/-- The argument at the width of the conversion. -/
def value (c : Conv) (v : UInt64) : ℤ :=
  if c.spec.sign then arg c.spec.long v else if c.spec.long then v.toNat else v.toNat % 2 ^ 32

end Conv

variable {digits : List Char} {base : ℕ} {str : UInt64 → List Char}

theorem digitsOf_eq (hb : 2 ≤ base) (n : ℕ) :
    digitsOf base n = n % base :: if n / base = 0 then [] else digitsOf base (n / base) := by
  unfold digitsOf
  obtain rfl | h0 := Nat.eq_zero_or_pos n
  · simp
  · rw [if_neg (by omega), Nat.digits_def' hb h0]
    split_ifs with h
    · simp [h]
    · rfl

theorem digitsOf_lt (hb : 2 ≤ base) {n d : ℕ} (hd : d ∈ digitsOf base n) : d < base := by
  unfold digitsOf at hd
  split_ifs at hd
  · rw [List.mem_singleton] at hd
    omega
  · exact Nat.digits_lt_base hb hd

theorem ofDigits_digitsOf (base n : ℕ) : Nat.ofDigits base (digitsOf base n) = n := by
  unfold digitsOf
  split_ifs with h0
  · simp [h0]
  · exact Nat.ofDigits_digits base n

/-- The digits are different characters, none of them `-`. -/
structure Apart (digits : List Char) : Prop where
  idx : ∀ d < 16, digits.idxOf (digits.getD d '0') = d
  minus : ∀ d < 16, digits.getD d '0' ≠ '-'

theorem lower_apart : Apart lower := ⟨by decide, by decide⟩

theorem upper_apart : Apart upper := ⟨by decide, by decide⟩

theorem numeral_injective (hd : Apart digits) (hb : 2 ≤ base) (hb' : base ≤ 16) :
    Function.Injective (numeral digits base) := by
  intro x y hxy
  have hlt : ∀ n, ∀ d ∈ digitsOf base n, d < 16 := fun n d h => (digitsOf_lt hb h).trans_le hb'
  have hsign : ∀ z : ℤ, '-' ∈ numeral digits base z ↔ z < 0 := fun z => by
    have hno : '-' ∉ ((digitsOf base z.natAbs).map (digits.getD · '0')).reverse := by
      rw [List.mem_reverse, List.mem_map]
      rintro ⟨d, h, he⟩
      exact hd.minus d (hlt _ d h) he
    unfold numeral
    rw [List.mem_append, or_iff_left hno]
    split_ifs with hz <;> simp [hz]
  have hneg : x < 0 ↔ y < 0 := by rw [← hsign x, ← hsign y, hxy]
  have habs : x.natAbs = y.natAbs := by
    have hback : ∀ n, ((digitsOf base n).map (digits.getD · '0')).map digits.idxOf =
        digitsOf base n := fun n => by
      rw [List.map_map]
      conv_rhs => rw [← List.map_id (digitsOf base n)]
      exact List.map_congr_left fun d h => hd.idx d (hlt n d h)
    have hdigits : (digitsOf base x.natAbs).map (digits.getD · '0') = (digitsOf base y.natAbs).map
        (digits.getD · '0') := by
      unfold numeral at hxy
      simp only [hneg] at hxy
      exact List.reverse_injective (List.append_cancel_left hxy)
    rw [← ofDigits_digitsOf base x.natAbs, ← hback, hdigits, hback, ofDigits_digitsOf]
  omega

theorem storeDigits_eq (hb : 2 ≤ base) (room x : ℕ) : storeDigits digits base room x =
    if (digitsOf base x).length ≤ room then some ((digitsOf base x).map (digits.getD · '0'))
      else none := by
  induction room generalizing x with
  | zero =>
      rw [digitsOf_eq hb]
      rfl
  | succ room ih =>
      rw [storeDigits, ih, digitsOf_eq hb x]
      by_cases h : x / base = 0
      · simp [h]
      · simp only [h, ne_eq, not_false_eq_true, if_true, if_false, List.length_cons,
          Nat.add_le_add_iff_right]
        split_ifs <;> rfl

theorem printint_eq (hb : 2 ≤ base) {w : ℕ} {sign : Bool} {xx y : ℤ}
    (hy : y = if sign then xx else xx % 2 ^ w) (hlow : -2 ^ w < y) (hup : y < 2 ^ w) :
      printint w digits xx base sign = if (numeral digits base y).length ≤
        BUFSIZE then some (numeral digits base y) else none := by
  have hpos : (0 : ℤ) < 2 ^ w := by positivity
  unfold printint numeral
  simp only [storeDigits_eq hb]
  by_cases hneg : sign ∧ xx < 0
  · obtain ⟨rfl, hneg⟩ := hneg
    obtain rfl : y = xx := hy
    have habs : (-y % 2 ^ w).toNat = y.natAbs := by
      rw [Int.emod_eq_of_lt (by omega) (by omega)]
      omega
    simp only [hneg, habs, and_self, if_true, List.length_append, List.length_reverse,
      List.length_map, List.length_singleton]
    by_cases hlen : (digitsOf base y.natAbs).length ≤ BUFSIZE
    · simp only [hlen, if_true, Option.bind_eq_bind, Option.bind_some, List.length_map]
      exact if_congr (by omega) (by simp) rfl
    · rw [if_neg hlen, if_neg (by omega)]
      rfl
  · have hnn : 0 ≤ y := by
      rw [hy]
      split_ifs with h
      · exact not_lt.mp fun hx => hneg ⟨h, hx⟩
      · exact Int.emod_nonneg _ hpos.ne'
    have hmod : xx % 2 ^ w = y := by
      rw [hy]
      split_ifs with h
      · rw [if_pos h] at hy
        exact Int.emod_eq_of_lt (by omega) (by omega)
      · rfl
    rw [if_neg hneg, hmod, show y.toNat = y.natAbs by omega]
    simp only [not_lt.mpr hnn, if_false, List.nil_append, List.length_reverse, List.length_map]
    split_ifs <;> rfl

theorem printf_conv (c : Conv) (v : UInt64) (fmt : List Char) (ap : List UInt64) :
    printf str ('%' :: c.text ++ fmt) (v :: ap) =
      (printint 64 lower (arg c.spec.long v) c.spec.base c.spec.sign).bind fun out =>
        (printf str fmt ap).map (out ++ ·) := by
  cases c <;> rfl

theorem vprintf_conv (c : Conv) (v : UInt64) (fmt : List Char) (ap : List UInt64) :
    vprintf str ('%' :: c.text ++ fmt) (v :: ap) =
      (printint 32 upper (arg false v) c.spec.base c.spec.sign).bind fun out =>
        (vprintf str fmt ap).map (out ++ ·) := by
  cases c <;> rfl

/-! ### The kernel -/

/-- The conversions that the kernel gets right: the numeral fits into the buffer, and an unsigned
conversion of 32 bits does not get an argument that looks negative. -/
structure Conv.Fits (c : Conv) (v : UInt64) : Prop where
  buf : (numeral lower c.spec.base (c.value v)).length ≤ BUFSIZE
  high : c.spec.long = false → c.spec.sign = false → c.value v < 2 ^ 31

theorem arg_long (v : UInt64) : arg true v = (v.toNat : ℤ).bmod (2 ^ 64) := if_pos rfl

theorem arg_short (v : UInt64) : arg false v = (v.toNat : ℤ).bmod (2 ^ 32) := if_neg Bool.false_ne_true

theorem arg_bounds (v : UInt64) : (-2 ^ 63 ≤ arg true v ∧ arg true v < 2 ^ 63) ∧
    -2 ^ 31 ≤ arg false v ∧ arg false v < 2 ^ 31 := by
  have hl := Int.le_bmod (x := v.toNat) (m := 2 ^ 64) (by decide)
  have hl' := Int.bmod_lt (x := v.toNat) (m := 2 ^ 64) (by decide)
  have hs := Int.le_bmod (x := v.toNat) (m := 2 ^ 32) (by decide)
  have hs' := Int.bmod_lt (x := v.toNat) (m := 2 ^ 32) (by decide)
  rw [arg_long, arg_short]
  omega

theorem arg_emod (v : UInt64) : arg true v % 2 ^ 64 = v.toNat ∧ arg false v % 2 ^ 32 =
    v.toNat % 2 ^ 32 := by
  have hv : v.toNat < 2 ^ 64 := v.toNat_lt
  have hl := Int.bmod_emod (x := v.toNat) (m := 2 ^ 64)
  have hs := Int.bmod_emod (x := v.toNat) (m := 2 ^ 32)
  rw [arg_long, arg_short]
  omega

theorem Conv.base_bounds (c : Conv) : 10 ≤ c.spec.base ∧ c.spec.base ≤ 16 := by cases c <;> decide

/-- The number whose numeral a conversion of the kernel prints. -/
def Conv.widened (c : Conv) (v : UInt64) : ℤ :=
  if c.spec.sign then arg c.spec.long v else arg c.spec.long v % 2 ^ 64

theorem Conv.printf_eq (c : Conv) (v : UInt64) (fmt : List Char) (ap : List UInt64) :
    printf str ('%' :: c.text ++ fmt) (v :: ap) =
      if (numeral lower c.spec.base (c.widened v)).length ≤ BUFSIZE then
        (printf str fmt ap).map (numeral lower c.spec.base (c.widened v) ++ ·)
      else none := by
  obtain ⟨h1, h2⟩ := arg_bounds v
  have hbounds : -2 ^ 64 < c.widened v ∧ c.widened v < 2 ^ 64 := by
    unfold Conv.widened
    cases c.spec.sign <;> cases c.spec.long <;>
      simp only [Bool.false_eq_true, if_false, if_true] <;> omega
  obtain ⟨hb, -⟩ := c.base_bounds
  rw [printf_conv, printint_eq (y := c.widened v) (by omega) rfl hbounds.1 hbounds.2]
  split_ifs <;> rfl

theorem Conv.widened_eq_iff (c : Conv) (v : UInt64) :
    c.widened v = c.value v ↔ (c.spec.long = false → c.spec.sign = false → c.value v < 2 ^ 31) := by
  obtain ⟨h1, h2⟩ := arg_bounds v
  obtain ⟨hl, hs⟩ := arg_emod v
  unfold Conv.widened Conv.value
  cases c.spec.sign <;> cases c.spec.long <;>
    simp [-Int.reducePow] <;> omega

/-- **Integers in the kernel's `printf`.**  A conversion prints the numeral of its argument at its
width, in bounds, and `printf` goes on with the rest of the format and the next argument, if and
only if the argument fits. -/
theorem printf_integer_iff (str : UInt64 → List Char) (c : Conv) (v : UInt64) :
    (∀ fmt ap, printf str ('%' :: c.text ++ fmt) (v :: ap) =
      (printf str fmt ap).map (numeral lower c.spec.base (c.value v) ++ ·)) ↔ c.Fits v := by
  constructor
  · intro h
    have h0 := h [] []
    rw [c.printf_eq] at h0
    split_ifs at h0 with hlen
    · have hnum : numeral lower c.spec.base (c.widened v) ++ [] = numeral lower c.spec.base
          (c.value v) ++ [] :=
        Option.some.inj h0
      rw [List.append_nil, List.append_nil] at hnum
      obtain ⟨hb, hb'⟩ := c.base_bounds
      have heq := numeral_injective lower_apart (by omega) hb' hnum
      exact ⟨hnum ▸ hlen, (c.widened_eq_iff v).mp heq⟩
    · exact absurd h0 (by simp [printf, printfFrom])
  · intro h fmt ap
    have heq := (c.widened_eq_iff v).mpr h.high
    rw [c.printf_eq, heq, if_pos h.buf]

/-- The largest `uint` is printed by `%u` with 20 digits, past the end of the buffer, and by `%x`
with 16. -/
theorem printf_widens : printf (fun _ => []) ['%', 'u'] [0xffffffff] = none ∧
    printf (fun _ => []) ['%', 'x'] [0xffffffff] = some (List.replicate 16 'f') := by decide

/-! ### The user library -/

theorem length_numeral_le (hb : 2 ≤ base) {y : ℤ} {k : ℕ} (hk : 1 ≤ k) (hy : y.natAbs < base ^ k) :
    (numeral digits base y).length ≤ k + 1 := by
  have hlen : (digitsOf base y.natAbs).length ≤ k := by
    unfold digitsOf
    split_ifs
    · exact hk
    · exact (Nat.digits_length_le_iff hb _).mpr hy
  simp only [numeral, List.length_append, List.length_reverse, List.length_map]
  split_ifs <;> simp <;> omega

/-- The argument fits into 32 bits. -/
def Conv.Narrow (c : Conv) (v : UInt64) : Prop :=
  c.spec.long = true → if c.spec.sign then -2 ^ 31 ≤ c.value v ∧ c.value v < 2 ^ 31
    else c.value v < 2 ^ 32

/-- The number whose numeral a conversion of the user library prints. -/
def Conv.narrowed (c : Conv) (v : UInt64) : ℤ := if c.spec.sign then arg false v
    else arg false v % 2 ^ 32

theorem Conv.vprintf_eq (c : Conv) (v : UInt64) (fmt : List Char) (ap : List UInt64) :
    vprintf str ('%' :: c.text ++ fmt) (v :: ap) =
      (vprintf str fmt ap).map (numeral upper c.spec.base (c.narrowed v) ++ ·) := by
  obtain ⟨-, hlow, hup⟩ := arg_bounds v
  obtain ⟨hb, -⟩ := c.base_bounds
  have hy : -2 ^ 32 < c.narrowed v ∧ c.narrowed v < 2 ^ 32 ∧ (c.narrowed v).natAbs < 10 ^ 10 := by
    unfold Conv.narrowed
    split_ifs <;> omega
  have hlen : (numeral upper c.spec.base (c.narrowed v)).length ≤ 10 + 1 :=
    length_numeral_le (by omega) (by decide) (hy.2.2.trans_le (Nat.pow_le_pow_left hb 10))
  rw [vprintf_conv, printint_eq (y := c.narrowed v) (by omega) rfl hy.1 hy.2.1,
    if_pos (hlen.trans (by decide))]
  rfl

theorem Conv.narrowed_eq_iff (c : Conv) (v : UInt64) : c.narrowed v = c.value v ↔ c.Narrow v := by
  have hv : v.toNat < 2 ^ 64 := v.toNat_lt
  obtain ⟨h1, h2⟩ := arg_bounds v
  obtain ⟨hl, hs⟩ := arg_emod v
  unfold Conv.narrowed Conv.Narrow Conv.value
  cases c.spec.sign <;> cases c.spec.long <;>
    simp only [Bool.false_eq_true, if_false, if_true, false_imp_iff, true_imp_iff, iff_true] <;> omega

/-- **Integers in the `printf` of the user library.**  A conversion is always in bounds, and it
prints the numeral of its argument if and only if that fits into 32 bits. -/
theorem vprintf_integer_iff (str : UInt64 → List Char) (c : Conv) (v : UInt64) :
    (∃ out, ∀ fmt ap, vprintf str ('%' :: c.text ++ fmt) (v :: ap) = (vprintf str fmt ap).map
      (out ++ ·)) ∧ ((∀ fmt ap, vprintf str ('%' :: c.text ++ fmt) (v :: ap) =
        (vprintf str fmt ap).map (numeral upper c.spec.base (c.value v) ++ ·)) ↔ c.Narrow v) := by
  refine ⟨⟨_, c.vprintf_eq v⟩, fun h => ?_, fun h fmt ap => ?_⟩
  · have h0 := h [] []
    rw [c.vprintf_eq] at h0
    have hnum : numeral upper c.spec.base (c.narrowed v) ++ [] = numeral upper c.spec.base
        (c.value v) ++ [] :=
      Option.some.inj h0
    rw [List.append_nil, List.append_nil] at hnum
    obtain ⟨hb, hb'⟩ := c.base_bounds
    exact (c.narrowed_eq_iff v).mp (numeral_injective upper_apart (by omega) hb' hnum)
  · rw [c.vprintf_eq, (c.narrowed_eq_iff v).mpr h]

/-- `%ld` prints 2 ^ 32 as 0. -/
theorem vprintf_narrows : vprintf (fun _ => []) ['%', 'l', 'd'] [0x100000000] = some ['0'] := by decide

end Xv6Cow.Printf

import Mathlib.Computability.Language

/-! # The matcher of `grep.c`

A pattern and a text are lists of bytes without NUL; the NUL is the end of the list.  The meaning of
a pattern is a language, read off from left to right, and the two anchors say where in the text a
word of it must lie. -/

namespace Xv6Cow.Grep

open Language Computability

/-- `matchstar(c, re, text)`, where `here` is `matchhere(re, ·)`. -/
def matchstar (here : List UInt8 → Bool) (c : UInt8) : List UInt8 → Bool
  | [] => here []
  | t :: text => here (t :: text) || (t == c || c == '.'.toUInt8) && matchstar here c text

/-- The last test of `matchhere(re, text)`, for `c = re[0]`, where `here` is
`matchhere(re+1, ·)`. -/
def matchone (here : List UInt8 → Bool) (c : UInt8) : List UInt8 → Bool
  | [] => false
  | t :: text => (c == '.'.toUInt8 || c == t) && here text

/-- `matchhere` -/
def matchhere : List UInt8 → List UInt8 → Bool
  | [], _ => true
  | [c], text => if c = '$'.toUInt8 then text.isEmpty else matchone (matchhere []) c text
  | c :: d :: re, text =>
      if d = '*'.toUInt8 then matchstar (matchhere re) c text else matchone (matchhere (d :: re)) c text

/-- The search of `match`. -/
def search (re : List UInt8) : List UInt8 → Bool
  | [] => matchhere re []
  | t :: text => matchhere re (t :: text) || search re text

/-- `match` -/
def matchRe (re text : List UInt8) : Bool :=
  if re.head? = some '^'.toUInt8 then matchhere re.tail text else search re text

/-- The words of one character of a pattern. -/
def single (c : UInt8) : Language UInt8 := {w | ∃ t, w = [t] ∧ (c = '.'.toUInt8 ∨ c = t)}

/-- The language of a pattern without anchors. -/
def lang : List UInt8 → Language UInt8
  | [] => 1
  | [c] => single c
  | c :: d :: re => if d = '*'.toUInt8 then (single c)∗ * lang re else single c * lang (d :: re)

/-- The pattern ends with the anchor. -/
def Ends (re : List UInt8) : Prop := re.getLast? = some '$'.toUInt8

instance (re : List UInt8) : Decidable (Ends re) := inferInstanceAs (Decidable (_ = _))

/-- The pattern without the anchor at its end. -/
def body (re : List UInt8) : List UInt8 := if Ends re then re.dropLast else re

/-- A word of the pattern's language begins the text, and is all of it if the pattern ends with the
anchor. -/
def Begins (re text : List UInt8) : Prop := ∃ w rest, text = w ++ rest ∧ w ∈ lang (body re) ∧
    (Ends re → rest = [])

/-- The text contains a word of the pattern's language, where the anchors say. -/
def Contains (re text : List UInt8) : Prop :=
  if re.head? = some '^'.toUInt8 then Begins re.tail text else ∃ pre rest, text = pre ++ rest ∧
    Begins re rest

variable {c d t : UInt8} {re text w : List UInt8} {here : List UInt8 → Bool}

theorem mem_single_mul {L : Language UInt8} : w ∈ single c * L ↔ ∃ t v, w = t :: v ∧
    (c = '.'.toUInt8 ∨ c = t) ∧ v ∈ L := by
  rw [mem_mul]
  constructor
  · rintro ⟨_, ⟨t, rfl, ht⟩, v, hv, rfl⟩
    exact ⟨t, v, rfl, ht, hv⟩
  · rintro ⟨t, v, rfl, ht, hv⟩
    exact ⟨[t], ⟨t, rfl, ht⟩, v, hv, rfl⟩

theorem mem_star : w ∈ (single c)∗ ↔ w = [] ∨ ∃ t v, w = t :: v ∧ (c = '.'.toUInt8 ∨ c = t) ∧
    v ∈ (single c)∗ := by
  rw [← one_add_self_mul_kstar_eq_kstar, mem_add, mem_one, mem_single_mul,
    one_add_self_mul_kstar_eq_kstar]

theorem lang_cons (h : re.head? ≠ some '*'.toUInt8) : lang (c :: re) = single c * lang re := by
  cases re with
  | nil => rw [lang, lang, mul_one]
  | cons d re => rw [lang, if_neg (by simpa using h)]

theorem matchstar_iff :
    matchstar here c text = true ↔ ∃ u v, text = u ++ v ∧ u ∈ (single c)∗ ∧ here v = true := by
  induction text with
  | nil =>
      simp only [matchstar, List.nil_eq, List.append_eq_nil_iff]
      exact ⟨fun h => ⟨[], [], ⟨rfl, rfl⟩, nil_mem_kstar _, h⟩,
        by rintro ⟨u, v, ⟨rfl, rfl⟩, -, h⟩; exact h⟩
  | cons t text ih =>
      simp only [matchstar, Bool.or_eq_true, Bool.and_eq_true, beq_iff_eq, ih]
      constructor
      · rintro (h | ⟨ht, u, v, rfl, hu, hv⟩)
        · exact ⟨[], t :: text, rfl, nil_mem_kstar _, h⟩
        · exact ⟨t :: u, v, rfl, mem_star.mpr (.inr ⟨t, u, rfl, ht.symm.imp_right Eq.symm, hu⟩), hv⟩
      · rintro ⟨u, v, he, hu, hv⟩
        obtain rfl | ⟨t', u', rfl, ht, hu'⟩ := mem_star.mp hu
        · exact .inl (by rwa [he])
        · obtain ⟨rfl, rfl⟩ := List.cons.inj he
          exact .inr ⟨ht.symm.imp_left Eq.symm, u', v, rfl, hu', hv⟩

/-! ### Anchors -/

theorem ends_cons (h : re ≠ [] ∨ c ≠ '$'.toUInt8) : Ends (c :: re) ↔ Ends re := by
  cases re with
  | nil => simpa [Ends] using h
  | cons d re => simp [Ends]

theorem body_cons (h : re ≠ [] ∨ c ≠ '$'.toUInt8) : body (c :: re) = c :: body re := by
  unfold body
  rw [if_congr (ends_cons h) rfl rfl]
  split_ifs with he
  · cases re with
    | nil => simp [Ends] at he
    | cons d re => rfl
  · rfl

theorem body_head (h : d ≠ '*'.toUInt8) : (body (d :: re)).head? ≠ some '*'.toUInt8 := by
  unfold body
  cases re <;> split_ifs <;> simp [h]

/-- A character that no star follows is matched by itself. -/
theorem begins_cons (h : re ≠ [] ∨ c ≠ '$'.toUInt8) (hs : (body re).head? ≠ some '*'.toUInt8) :
    Begins (c :: re) text ↔ ∃ t rest, text = t :: rest ∧ (c = '.'.toUInt8 ∨ c = t) ∧ Begins re rest := by
  unfold Begins
  rw [body_cons h, ends_cons h, lang_cons hs]
  constructor
  · rintro ⟨w, rest, rfl, hw, hr⟩
    obtain ⟨t, v, rfl, ht, hv⟩ := mem_single_mul.mp hw
    exact ⟨t, v ++ rest, rfl, ht, v, rest, rfl, hv, hr⟩
  · rintro ⟨t, _, rfl, ht, v, rest, rfl, hv, hr⟩
    exact ⟨t :: v, rest, rfl, mem_single_mul.mpr ⟨t, v, rfl, ht, hv⟩, hr⟩

theorem begins_nil : Begins [] text := ⟨[], text, rfl, rfl, by simp [Ends]⟩

theorem matchhere_iff : matchhere re text = true ↔ Begins re text := by
  have hstar : '*'.toUInt8 ≠ '$'.toUInt8 := by decide
  induction re using List.twoStepInduction generalizing text with
  | nil => exact ⟨fun _ => begins_nil, fun _ => rfl⟩
  | singleton c =>
      rw [matchhere]
      split_ifs with h
      · subst h
        rw [List.isEmpty_iff]
        constructor
        · rintro rfl
          exact ⟨[], [], rfl, rfl, fun _ => rfl⟩
        · rintro ⟨w, rest, rfl, hw, hr⟩
          rw [hr rfl, List.append_nil]
          exact hw
      · rw [begins_cons (.inr h) (by simp [body, Ends])]
        cases text <;> simp [matchone, matchhere, begins_nil]
  | cons_cons c d re ih ih' =>
      rw [matchhere]
      split_ifs with h
      · subst h
        rw [matchstar_iff]
        simp only [ih]
        unfold Begins
        rw [ends_cons (.inl (by simp)), ends_cons (.inr hstar), body_cons (.inl (by simp)),
          body_cons (.inr hstar), lang, if_pos rfl]
        constructor
        · rintro ⟨u, _, rfl, hu, w, rest, rfl, hw, hr⟩
          exact ⟨u ++ w, rest, (List.append_assoc ..).symm, append_mem_mul hu hw, hr⟩
        · rintro ⟨_, rest, rfl, hm, hr⟩
          obtain ⟨u, hu, w, hw, rfl⟩ := mem_mul.mp hm
          exact ⟨u, w ++ rest, List.append_assoc .., hu, w, rest, rfl, hw, hr⟩
      · rw [begins_cons (.inl (by simp)) (body_head h)]
        cases text <;> simp [matchone, ih']

/-- The search looks at every place of the text, its end included. -/
theorem search_iff : search re text = true ↔ ∃ pre rest, text = pre ++ rest ∧ Begins re rest := by
  induction text with
  | nil =>
      simp only [search, matchhere_iff, List.nil_eq, List.append_eq_nil_iff]
      exact ⟨fun h => ⟨[], [], ⟨rfl, rfl⟩, h⟩, by rintro ⟨_, _, ⟨rfl, rfl⟩, h⟩; exact h⟩
  | cons t text ih =>
      rw [search, Bool.or_eq_true, matchhere_iff, ih]
      constructor
      · rintro (h | ⟨pre, rest, rfl, h⟩)
        · exact ⟨[], _, rfl, h⟩
        · exact ⟨t :: pre, rest, rfl, h⟩
      · rintro ⟨pre, rest, he, h⟩
        cases pre with
        | nil => exact .inl (by rwa [he])
        | cons t' pre =>
            obtain ⟨rfl, rfl⟩ := List.cons.inj he
            exact .inr ⟨pre, rest, rfl, h⟩

/-- **The matcher is correct and total.**  For every pattern and every text, `match` returns 1
exactly if the text contains a word of the pattern's language: at its start if the pattern starts
with `^`, and up to its end if the pattern ends with `$`. -/
theorem match_correct (re text : List UInt8) : matchRe re text = true ↔ Contains re text := by
  unfold matchRe Contains
  split_ifs with h
  · exact matchhere_iff
  · exact search_iff

end Xv6Cow.Grep

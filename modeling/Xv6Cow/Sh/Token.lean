import Mathlib.Data.List.GetD
import Mathlib.Data.Nat.Init
import Mathlib.Tactic.SplitIfs
import Xv6Cow.Lib.Simulate
import Xv6Cow.Sh.Model

/-! # The tokens of a line

`lex` reads a line one byte at a time: whitespace separates, a symbol is a token of its own, `>>` is
one token, and a word is a maximal run of the other bytes, kept as the interval of its positions.
The results say what the code does at a cursor in terms of the tokens from there on: `peek` looks at
the first token and `gettoken` takes it. -/

namespace Xv6Cow.Sh

/-- A word of the line: its first position, and the position after its last. -/
structure Word where
  q : ℕ
  eq : ℕ
  deriving DecidableEq, Repr

/-- `<`, `>` and `>>`. -/
inductive Op where
  | input
  | output
  | append
  deriving DecidableEq, Repr

inductive Tok where
  | word (w : Word)
  | redir (op : Op)
  | bar
  | amp
  | semi
  | lpar
  | rpar
  deriving DecidableEq, Repr

/-- The word that ends before position `i`, if one has begun. -/
def ended (w : Option ℕ) (i : ℕ) : List Tok :=
  match w with
  | none => []
  | some q => [.word ⟨q, i⟩]

/-- The symbols other than `>`. -/
def symbolTok (c : UInt8) : Option Tok :=
  if c = 124 then some .bar
  else if c = 38 then some .amp
  else if c = 59 then some .semi
  else if c = 40 then some .lpar
  else if c = 41 then some .rpar
  else if c = 60 then some (.redir .input)
  else none

/-- The tokens of the bytes from position `i` on, where a word may have begun before. -/
def lexFrom : Option ℕ → ℕ → List UInt8 → List Tok
  | w, i, [] => ended w i
  | w, i, c :: cs =>
      if c ∈ whitespace then ended w i ++ lexFrom none (i + 1) cs
      else if c = 62 then
        match cs with
        | [] => ended w i ++ [.redir .output]
        | d :: ds =>
            if d = 62 then ended w i ++ .redir .append :: lexFrom none (i + 2) ds
            else ended w i ++ .redir .output :: lexFrom none (i + 1) (d :: ds)
      else match symbolTok c with
        | some t => ended w i ++ t :: lexFrom none (i + 1) cs
        | none => lexFrom (some (w.getD i)) (i + 1) cs

/-- The tokens of a line. -/
def lex (line : List UInt8) : List Tok := lexFrom none 0 line

example : lex [32, 97, 98, 62, 62, 99, 59, 59] =
    [.word ⟨1, 3⟩, .redir .append, .word ⟨5, 6⟩, .semi, .semi] := by decide

/-! ### Scanning -/

section scan

variable {p : UInt8 → Bool} {m : List UInt8} {es s : ℕ}

theorem scan_round (h : s < es) :
    scan p m es s = if p (byteAt m s) then scan p m es (s + 1) else s := by
  unfold scan
  rw [show es - s = (es - (s + 1)) + 1 by omega]
  rfl

theorem scan_spec (h : s ≤ es) :
    s ≤ scan p m es s ∧ scan p m es s ≤ es ∧
      (∀ i, s ≤ i → i < scan p m es s → p (byteAt m i) = true) ∧
      (scan p m es s < es → p (byteAt m (scan p m es s)) = false) := by
  induction h using Nat.decreasingInduction with
  | self =>
      have he : scan p m es es = es := by simp [scan, scanFrom]
      rw [he]
      exact ⟨Nat.le_refl _, Nat.le_refl _, fun i h1 h2 => by omega, fun h => by omega⟩
  | of_succ s hs ih =>
      obtain ⟨h1, h2, hrun, hstop⟩ := ih
      rw [scan_round hs]
      cases hp : p (byteAt m s) with
      | false =>
          rw [if_neg Bool.false_ne_true]
          exact ⟨Nat.le_refl _, Nat.le_of_lt hs, fun i h1 h2 => by omega, fun _ => hp⟩
      | true =>
          rw [if_pos rfl]
          refine ⟨by omega, h2, ?_, hstop⟩
          intro i hi hlt
          rcases Nat.eq_or_lt_of_le hi with rfl | hi
          · exact hp
          · exact hrun i hi hlt

end scan

/-! ### The line in memory -/

variable {line : List UInt8} {s : ℕ}

theorem byteAt_line (hs : s < line.length) : byteAt (line ++ [0]) s = byteAt line s :=
  List.getD_append _ _ _ _ hs

theorem byteAt_mem (hs : s < line.length) : byteAt line s ∈ line := by
  unfold byteAt
  rw [List.getD_eq_getElem _ _ hs]
  exact List.getElem_mem hs

theorem byteAt_end : byteAt (line ++ [0]) line.length = 0 := by
  unfold byteAt
  simp

theorem byteAt_ne_zero (h0 : 0 ∉ line) (hs : s < line.length) : byteAt (line ++ [0]) s ≠ 0 := by
  rw [byteAt_line hs]
  intro h
  exact h0 (h ▸ byteAt_mem hs)

/-- The bytes from a position on are the byte there and those after it. -/
theorem drop_byteAt (hs : s < line.length) :
    line.drop s = byteAt (line ++ [0]) s :: line.drop (s + 1) := by
  rw [byteAt_line hs]
  unfold byteAt
  rw [List.getD_eq_getElem _ _ hs]
  exact List.drop_eq_getElem_cons hs

theorem strlen_line (h0 : 0 ∉ line) : strlen (line ++ [0]) = line.length := by
  unfold strlen
  rw [List.takeWhile_append_of_pos]
  · simp
  · intro c hc
    rw [bne_iff_ne]
    intro h
    exact h0 (h ▸ hc)

/-! ### Tokens from a position on -/

/-- The tokens of the line from a position on. -/
def toks (line : List UInt8) (s : ℕ) : List Tok := lexFrom none s (line.drop s)

theorem toks_end : toks line line.length = [] := by
  unfold toks
  rw [List.drop_length]
  rfl

theorem mem_whitespace (c : UInt8) : c ∈ whitespace ↔ isSpace c = true := by
  unfold isSpace strchr
  exact List.contains_iff_mem.symm

/-- A byte that is not whitespace is `>`, another symbol, or part of a word. -/
theorem isWord_iff (c : UInt8) : isWord c = true ↔ c ∉ whitespace ∧ c ≠ 62 ∧ symbolTok c = none := by
  unfold isWord strchr symbolTok symbols
  simp only [Bool.and_eq_true, Bool.not_eq_true', ← Bool.not_eq_true, List.contains_iff_mem,
    List.mem_cons, List.not_mem_nil, or_false, not_or]
  constructor
  · rintro ⟨hw, h60, h124, h62, h38, h59, h40, h41⟩
    refine ⟨hw, h62, ?_⟩
    rw [if_neg h124, if_neg h38, if_neg h59, if_neg h40, if_neg h41, if_neg h60]
  · rintro ⟨hw, h62, hs⟩
    split_ifs at hs with h1 h2 h3 h4 h5 h6
    exact ⟨hw, h6, h1, h62, h2, h3, h4, h5⟩

theorem lexFrom_cons (w : Option ℕ) (i : ℕ) (c : UInt8) (cs : List UInt8) :
    lexFrom w i (c :: cs) =
      if c ∈ whitespace then ended w i ++ lexFrom none (i + 1) cs
      else if c = 62 then
        match cs with
        | [] => ended w i ++ [.redir .output]
        | d :: ds =>
            if d = 62 then ended w i ++ .redir .append :: lexFrom none (i + 2) ds
            else ended w i ++ .redir .output :: lexFrom none (i + 1) (d :: ds)
      else match symbolTok c with
        | some t => ended w i ++ t :: lexFrom none (i + 1) cs
        | none => lexFrom (some (w.getD i)) (i + 1) cs := by
  cases cs <;> rfl

theorem lexFrom_space {w : Option ℕ} {i : ℕ} {c : UInt8} {cs : List UInt8} (hc : isSpace c = true) :
    lexFrom w i (c :: cs) = ended w i ++ lexFrom none (i + 1) cs := by
  rw [lexFrom_cons, if_pos ((mem_whitespace c).mpr hc)]

theorem lexFrom_word {w : Option ℕ} {i : ℕ} {c : UInt8} {cs : List UInt8} (hc : isWord c = true) :
    lexFrom w i (c :: cs) = lexFrom (some (w.getD i)) (i + 1) cs := by
  obtain ⟨hw, h62, hs⟩ := (isWord_iff c).mp hc
  rw [lexFrom_cons, if_neg hw, if_neg h62, hs]

theorem lexFrom_ended {w : Option ℕ} {i : ℕ} {c : UInt8} {cs : List UInt8} (hc : isWord c = false) :
    lexFrom w i (c :: cs) = ended w i ++ lexFrom none i (c :: cs) := by
  rw [lexFrom_cons w, lexFrom_cons none]
  by_cases hw : c ∈ whitespace
  · rw [if_pos hw, if_pos hw]
    rfl
  · rw [if_neg hw, if_neg hw]
    by_cases h62 : c = 62
    · rw [if_pos h62, if_pos h62]
      cases cs with
      | nil => rfl
      | cons d ds =>
          dsimp only
          split_ifs <;> rfl
    · rw [if_neg h62, if_neg h62]
      cases hs : symbolTok c with
      | none =>
          have hword := (isWord_iff c).mpr ⟨hw, h62, hs⟩
          exact absurd (hc.symm.trans hword) Bool.false_ne_true
      | some t => rfl

theorem toks_spaces {e : ℕ} (hse : s ≤ e) (he : e ≤ line.length)
    (hsp : ∀ i, s ≤ i → i < e → isSpace (byteAt (line ++ [0]) i) = true) :
    toks line s = toks line e := by
  induction hse using Nat.decreasingInduction with
  | self => rfl
  | of_succ s hs ih =>
      rw [← ih fun i hi => hsp i (by omega)]
      unfold toks
      rw [drop_byteAt (by omega), lexFrom_space (hsp s (Nat.le_refl s) hs)]
      rfl

theorem lexFrom_run {q e : ℕ} (hse : s ≤ e) (he : e ≤ line.length)
    (hrun : ∀ i, s ≤ i → i < e → isWord (byteAt (line ++ [0]) i) = true)
    (hstop : e < line.length → isWord (byteAt (line ++ [0]) e) = false) :
    lexFrom (some q) s (line.drop s) = .word ⟨q, e⟩ :: toks line e := by
  induction hse using Nat.decreasingInduction with
  | self =>
      unfold toks
      rcases Nat.eq_or_lt_of_le he with rfl | he
      · rw [List.drop_length]
        rfl
      · rw [drop_byteAt he, lexFrom_ended (hstop he)]
        rfl
  | of_succ s hs ih =>
      rw [drop_byteAt (by omega), lexFrom_word (hrun s (Nat.le_refl s) hs)]
      exact ih fun i hi => hrun i (by omega)

/-! ### What `peek` and `gettoken` see -/

/-- The value `gettoken` returns for a token. -/
def Tok.code : Tok → UInt8
  | .word _ => 97
  | .redir .input => 60
  | .redir .output => 62
  | .redir .append => 43
  | .bar => 124
  | .amp => 38
  | .semi => 59
  | .lpar => 40
  | .rpar => 41

/-- The first byte of a token that is not a word. -/
def Tok.lead : Tok → Option UInt8
  | .word _ => none
  | .redir .append => some 62
  | t => some t.code

/-- A word of the line: a run of bytes of words, as long as it can be. -/
structure IsRun (line : List UInt8) (w : Word) : Prop where
  lt : w.q < w.eq
  bound : w.eq ≤ line.length
  run : ∀ i, w.q ≤ i → i < w.eq → isWord (byteAt (line ++ [0]) i) = true
  stop : w.eq < line.length → isWord (byteAt (line ++ [0]) w.eq) = false

/-- A token begins at `s`, ends where the `switch` of `gettoken` leaves the cursor, and the tokens
after it are those from there on. -/
structure Begins (line : List UInt8) (s : ℕ) (t : Tok) : Prop where
  first : toks line s = t :: toks line (tokenAt (line ++ [0]) line.length s).2
  code : (tokenAt (line ++ [0]) line.length s).1 = t.code
  lt : s < (tokenAt (line ++ [0]) line.length s).2
  bound : (tokenAt (line ++ [0]) line.length s).2 ≤ line.length
  word : ∀ w, t = .word w → w = ⟨s, (tokenAt (line ++ [0]) line.length s).2⟩
  run : ∀ w, t = .word w → IsRun line w
  lead : ∀ c ∈ symbols, byteAt (line ++ [0]) s = c ↔ t.lead = some c

theorem symbolTok_some {c : UInt8} {t : Tok} (h : symbolTok c = some t) :
    (c = 124 ∨ c = 40 ∨ c = 41 ∨ c = 59 ∨ c = 38 ∨ c = 60) ∧ t.code = c ∧ t.lead = some c ∧
      ∀ w, t ≠ .word w := by
  unfold symbolTok at h
  split_ifs at h with h1 h2 h3 h4 h5 h6 <;> cases h <;> subst c <;>
    exact ⟨by decide, rfl, rfl, fun w hw => by cases hw⟩

theorem begins_symbol {t : Tok} (hs : s < line.length)
    (hsp : isSpace (byteAt (line ++ [0]) s) = false)
    (ht : symbolTok (byteAt (line ++ [0]) s) = some t) : Begins line s t := by
  obtain ⟨hc, hcode, hlead, hw⟩ := symbolTok_some ht
  have htok : tokenAt (line ++ [0]) line.length s = (t.code, s + 1) := by
    unfold tokenAt
    dsimp only
    rw [if_neg (by rcases hc with h | h | h | h | h | h <;> rw [h] <;> decide), if_pos hc, hcode]
  have h62 : byteAt (line ++ [0]) s ≠ 62 := by
    rcases hc with h | h | h | h | h | h <;> rw [h] <;> decide
  refine ⟨?_, by rw [htok], by rw [htok]; exact Nat.lt_succ_self s, by rw [htok]; exact hs,
    fun w h => absurd h (hw w), fun w h => absurd h (hw w), ?_⟩
  · rw [htok]
    unfold toks
    rw [drop_byteAt hs, lexFrom_cons,
      if_neg (by rw [mem_whitespace, hsp]; exact Bool.false_ne_true), if_neg h62, ht]
    rfl
  · intro c _
    rw [hlead]
    exact ⟨fun h => by rw [h], fun h => Option.some.inj h⟩

theorem begins_output (hs : s < line.length) (h62 : byteAt (line ++ [0]) s = 62) :
    ∃ op, Begins line s (.redir op) := by
  have hsp : (62 : UInt8) ∉ whitespace := by decide
  have hlead : ∀ op, (Tok.redir op).lead = some 62 →
      ∀ c ∈ symbols, byteAt (line ++ [0]) s = c ↔ (Tok.redir op).lead = some c := by
    intro op hop c _
    rw [hop, h62]
    exact ⟨fun h => by rw [h], fun h => Option.some.inj h⟩
  have hat : tokenAt (line ++ [0]) line.length s =
      if byteAt (line ++ [0]) (s + 1) = 62 then (43, s + 2) else (62, s + 1) := by
    unfold tokenAt
    dsimp only
    rw [if_neg (by rw [h62]; decide), if_neg (by rw [h62]; decide), if_pos h62, h62]
  by_cases hn : byteAt (line ++ [0]) (s + 1) = 62
  · have hlt : s + 1 < line.length := by
      rcases Nat.eq_or_lt_of_le (show s + 1 ≤ line.length from hs) with he | hlt
      · rw [he, byteAt_end] at hn
        exact absurd hn (by decide)
      · exact hlt
    rw [if_pos hn] at hat
    refine ⟨.append, ?_, by rw [hat]; rfl, by rw [hat]; exact Nat.lt_add_of_pos_right Nat.two_pos,
      by rw [hat]; exact hlt, fun w h => (by cases h), fun w h => (by cases h), hlead _ rfl⟩
    rw [hat]
    unfold toks
    rw [drop_byteAt hs, lexFrom_cons, h62, if_neg hsp, if_pos rfl, drop_byteAt hlt]
    dsimp only
    rw [if_pos hn]
    rfl
  · rw [if_neg hn] at hat
    refine ⟨.output, ?_, by rw [hat]; rfl, by rw [hat]; exact Nat.lt_succ_self s,
      by rw [hat]; exact hs, fun w h => (by cases h), fun w h => (by cases h), hlead _ rfl⟩
    rw [hat]
    unfold toks
    rw [drop_byteAt hs, lexFrom_cons, h62, if_neg hsp, if_pos rfl]
    rcases Nat.eq_or_lt_of_le (show s + 1 ≤ line.length from hs) with he | hlt
    · rw [he, List.drop_length]
      rfl
    · rw [drop_byteAt hlt]
      dsimp only
      rw [if_neg hn]
      rfl

theorem begins_word (h0 : 0 ∉ line) (hs : s < line.length)
    (hw : isWord (byteAt (line ++ [0]) s) = true) :
    Begins line s (.word ⟨s, scan isWord (line ++ [0]) line.length s⟩) := by
  obtain ⟨hsp, h62, hsym⟩ := (isWord_iff _).mp hw
  obtain ⟨hle, hend, hrun, hstop⟩ := scan_spec (p := isWord) (m := line ++ [0]) (Nat.le_of_lt hs)
  have hnot : byteAt (line ++ [0]) s ∉ symbols := by
    intro hmem
    unfold isWord strchr at hw
    rw [List.contains_iff_mem.mpr hmem] at hw
    simp at hw
  have hat : tokenAt (line ++ [0]) line.length s = (97, scan isWord (line ++ [0]) line.length s) := by
    unfold tokenAt
    dsimp only
    rw [if_neg (byteAt_ne_zero h0 hs), if_neg, if_neg h62]
    intro hc
    apply hnot
    rcases hc with h | h | h | h | h | h <;> rw [h] <;> decide
  have hlt : s < scan isWord (line ++ [0]) line.length s := by
    rcases Nat.eq_or_lt_of_le hle with he | hlt
    · rw [← he] at hstop
      exact absurd ((hstop hs).symm.trans hw) Bool.false_ne_true
    · exact hlt
  refine ⟨?_, by rw [hat]; rfl, by rw [hat]; exact hlt, by rw [hat]; exact hend, ?_, ?_, ?_⟩
  · rw [hat]
    unfold toks
    rw [drop_byteAt hs, lexFrom_word hw]
    exact lexFrom_run hlt hend (fun i hi => hrun i (by omega)) hstop
  · rintro w ⟨⟩
    rw [hat]
  · rintro w ⟨⟩
    exact ⟨hlt, hend, hrun, hstop⟩
  · intro c hc
    exact ⟨fun h => absurd (h ▸ hc) hnot, fun h => nomatch h⟩

theorem begins (h0 : 0 ∉ line) (hs : s < line.length)
    (hsp : isSpace (byteAt (line ++ [0]) s) = false) : ∃ t, Begins line s t := by
  cases hw : isWord (byteAt (line ++ [0]) s) with
  | true => exact ⟨_, begins_word h0 hs hw⟩
  | false =>
      by_cases h62 : byteAt (line ++ [0]) s = 62
      · obtain ⟨op, h⟩ := begins_output hs h62
        exact ⟨_, h⟩
      · cases ht : symbolTok (byteAt (line ++ [0]) s) with
        | some t => exact ⟨t, begins_symbol hs hsp ht⟩
        | none =>
            have hnsp : byteAt (line ++ [0]) s ∉ whitespace := by
              rw [mem_whitespace, hsp]
              exact Bool.false_ne_true
            have hword := (isWord_iff _).mpr ⟨hnsp, h62, ht⟩
            exact absurd (hw.symm.trans hword) Bool.false_ne_true

/-! ### The tokenizer on tokens -/

abbrev TokParser := StateT (List Tok) (Except Stop)

/-- Whether the first token is a symbol that begins with one of the given bytes. -/
def peekTok (set : List UInt8) : TokParser Bool :=
  fun ts => .ok (ts.head?.any fun t => t.lead.any set.contains, ts)

/-- Take the first token. -/
def nextTok : TokParser (Option Tok) := fun ts => .ok (ts.head?, ts.tail)

/-- The cursor stands before the tokens. -/
def Before (line : List UInt8) (s : ℕ) (ts : List Tok) : Prop := s ≤ line.length ∧ toks line s = ts

/-- What `gettoken` returns is the token taken, or zero where there is none. -/
def Stands (got : Got) : Option Tok → Prop
  | none => got.ret = 0
  | some t => got.ret = t.code ∧ ∀ w, t = .word w → w = ⟨got.q, got.eq⟩

/-- Skipping whitespace does not change the tokens, and leaves the cursor at the end or at a
token. -/
theorem Before.skip {ts : List Tok} (h0 : 0 ∉ line) (h : Before line s ts) :
    Before line (scan isSpace (line ++ [0]) line.length s) ts ∧
      (scan isSpace (line ++ [0]) line.length s = line.length ∧ ts = [] ∨
        ∃ t, Begins line (scan isSpace (line ++ [0]) line.length s) t ∧ ts.head? = some t ∧
          ts.tail = toks line (tokenAt (line ++ [0]) line.length
            (scan isSpace (line ++ [0]) line.length s)).2 ∧
          byteAt (line ++ [0]) (scan isSpace (line ++ [0]) line.length s) ≠ 0) := by
  obtain ⟨hs, rfl⟩ := h
  obtain ⟨hle, hend, hrun, hstop⟩ := scan_spec (p := isSpace) (m := line ++ [0]) hs
  have hsame := toks_spaces hle hend hrun
  refine ⟨⟨hend, hsame.symm⟩, ?_⟩
  rcases Nat.eq_or_lt_of_le hend with he | hlt
  · left
    refine ⟨he, ?_⟩
    rw [hsame, he]
    exact toks_end
  · right
    obtain ⟨t, ht⟩ := begins h0 hlt (hstop hlt)
    refine ⟨t, ht, ?_, ?_, byteAt_ne_zero h0 hlt⟩
    · rw [hsame, ht.first]
      rfl
    · rw [hsame, ht.first]
      rfl

/-- Every word among the tokens is a run of the line, and there are no more tokens than bytes. -/
theorem toks_spec (h0 : 0 ∉ line) (hs : s ≤ line.length) :
    (toks line s).length ≤ line.length - s ∧ ∀ w, .word w ∈ toks line s → IsRun line w := by
  -- by induction on the bytes that are left
  induction hn : line.length - s using Nat.strongRecOn generalizing s with
  | ind n ih =>
      have hle := (scan_spec (p := isSpace) (m := line ++ [0]) hs).1
      obtain ⟨⟨hskip, hsame⟩, hcase⟩ := Before.skip h0 ⟨hs, rfl⟩
      rcases hcase with ⟨-, hnil⟩ | ⟨t, ht, hhead, htail, -⟩
      · rw [hnil]
        exact ⟨Nat.zero_le _, fun w hw => nomatch hw⟩
      · have hlt := ht.lt
        have hbound := ht.bound
        obtain ⟨hlen, hruns⟩ := ih _ (by omega) hbound rfl
        rw [← hsame, ht.first, List.length_cons]
        refine ⟨by omega, ?_⟩
        intro w hw
        rcases List.mem_cons.mp hw with hw | hw
        · exact ht.run w hw.symm
        · exact hruns w hw

/-- **`peek` looks at the first token.** -/
theorem peek_follows (h0 : 0 ∉ line) {set : List UInt8}
    (hset : set.all symbols.contains = true) :
    Follows (Before line) (fun a b => a = b) (peek (line ++ [0]) line.length set) (peekTok set) := by
  have hmem : ∀ c ∈ set, c ∈ symbols :=
    fun c hc => List.contains_iff_mem.mp (List.all_eq_true.mp hset c hc)
  intro s ts hS
  obtain ⟨hS', hcase⟩ := hS.skip h0
  refine wp_of_ok rfl ⟨_, _, rfl, ?_, hS'⟩
  rcases hcase with ⟨he, hnil⟩ | ⟨t, ht, hhead, -, hne⟩
  · rw [he, byteAt_end, hnil]
    rfl
  · rw [hhead, bne_iff_ne.mpr hne, Bool.true_and, Option.any_some, Bool.eq_iff_iff]
    unfold strchr
    rw [List.contains_iff_mem, Option.any_eq_true]
    constructor
    · intro hc
      exact ⟨_, (ht.lead _ (hmem _ hc)).mp rfl, List.contains_iff_mem.mpr hc⟩
    · rintro ⟨c, hlead, hc⟩
      rw [List.contains_iff_mem] at hc
      rw [(ht.lead c (hmem c hc)).mpr hlead]
      exact hc

/-- **`gettoken` takes the first token.** -/
theorem gettoken_follows (h0 : 0 ∉ line) :
    Follows (Before line) Stands (gettoken (line ++ [0]) line.length) nextTok := by
  intro s ts hS
  obtain ⟨hS', hcase⟩ := hS.skip h0
  refine wp_of_ok rfl ⟨_, _, rfl, ?_⟩
  rcases hcase with ⟨he, rfl⟩ | ⟨t, ht, hhead, htail, -⟩
  · have hat : tokenAt (line ++ [0]) line.length line.length = (0, line.length) := by
      unfold tokenAt
      dsimp only
      rw [byteAt_end, if_pos rfl]
    rw [he, hat]
    have hend : Before line line.length [] := ⟨Nat.le_refl _, toks_end⟩
    exact ⟨rfl, (hend.skip h0).1⟩
  · rw [hhead, htail]
    exact ⟨⟨ht.code, ht.word⟩, (Before.skip h0 ⟨ht.bound, rfl⟩).1⟩

end Xv6Cow.Sh

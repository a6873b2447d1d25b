import Xv6Cow.Console.Model
import Xv6Cow.Lib.RingIndex

/-! # Lines, and the buffer that holds them

What a console is for: the characters that arrive are edited until the line they are in is
committed, by its end or because there is no more room; the committed characters form one stream,
from which calls take them in order.  `line` computes this from the history of the console alone.
The buffer of the source holds the part of the stream that has not been taken, between `cons.r` and
`cons.w`, and the line that is being edited, between `cons.w` and `cons.e`. -/

namespace Xv6Cow.Console

open RingIndex

/-! ### Lines -/

/-- A character that has been taken: the call that took it, and what became of it. -/
structure Item where
  call : ℕ
  char : UInt8
  fate : Fate
  deriving DecidableEq, Repr

/-- The committed characters, the line that is being edited, and the characters that have been
taken. -/
structure Line where
  stream : List UInt8 := []
  pending : List UInt8 := []
  taken : List Item := []

/-- The number of characters that have not been taken. -/
def Line.unread (l : Line) : ℕ := l.stream.length - l.taken.length + l.pending.length

def Line.commit (l : Line) : Line := { l with stream := l.stream ++ l.pending, pending := [] }

/-- A character of a line is typed. -/
def Line.put (l : Line) (c : UInt8) : Line :=
  let l := { l with pending := l.pending ++ [c] }
  if c = NEWLINE ∨ c = ctrl 'D' ∨ l.unread = INPUT_BUF_SIZE then l.commit else l

/-- A character arrives. -/
def Line.typed (l : Line) (c : UInt8) : Line :=
  if c = ctrl 'P' then l
  else if c = ctrl 'U' then { l with pending := [] }
  else if c = ctrl 'H' ∨ c = DEL then { l with pending := l.pending.dropLast }
  else if c = 0 ∨ l.unread = INPUT_BUF_SIZE then l
  else l.put (cook c)

def Line.add (l : Line) : Event → Line
  | .typed c => l.typed c
  | .took i c fate => { l with taken := l.taken ++ [⟨i, c, fate⟩] }

/-- The line after a history. -/
def line (trace : List Event) : Line := trace.foldl Line.add {}

theorem line_snoc (trace : List Event) (ev : Event) : line (trace ++ [ev]) = (line trace).add ev := by
  rw [line, List.foldl_append, ← line, List.foldl_cons, List.foldl_nil]

/-! ### The buffer -/

theorem INPUT_BUF_SIZE_dvd : INPUT_BUF_SIZE ∣ UINT := by
  unfold UINT
  decide

theorem INPUT_BUF_SIZE_lt : INPUT_BUF_SIZE + 1 < UINT := by
  unfold UINT
  decide

theorem UINT_pos : 0 < UINT := by
  unfold UINT
  decide

theorem sub32_eq {a b : ℕ} (ha : a < UINT) (hb : b < UINT) : sub32 a b = count UINT b a :=
  (count_eq hb ha).symm

/-- The buffer holds the line. -/
structure Buffered (s : Cons) (l : Line) : Prop where
  r_lt : s.r < UINT
  w_lt : s.w < UINT
  e_lt : s.e < UINT
  unread : window INPUT_BUF_SIZE UINT s.buf s.r s.w = l.stream.drop l.taken.length
  pending : window INPUT_BUF_SIZE UINT s.buf s.w s.e = l.pending
  taken : l.taken.map Item.char = l.stream.take l.taken.length
  room : count UINT s.r s.w + count UINT s.w s.e ≤ INPUT_BUF_SIZE

/-- Between two steps, the line is not one that should have been committed. -/
structure Holds (s : Cons) (l : Line) : Prop extends Buffered s l where
  full : count UINT s.r s.w + count UINT s.w s.e = INPUT_BUF_SIZE → s.w = s.e
  plain : NEWLINE ∉ l.pending

variable {s : Cons} {l : Line} {c : UInt8}

section
variable (h : Buffered s l)
include h

theorem Buffered.taken_le : l.taken.length ≤ l.stream.length := by
  have hlen := congrArg List.length h.taken
  rw [List.length_map, List.length_take] at hlen
  omega

theorem Buffered.count_rw : count UINT s.r s.w = l.stream.length - l.taken.length := by
  have hlen := congrArg List.length h.unread
  rwa [length_window, List.length_drop] at hlen

theorem Buffered.count_we : count UINT s.w s.e = l.pending.length := by
  rw [← h.pending, length_window]

theorem Buffered.sum_lt : count UINT s.r s.w + count UINT s.w s.e < UINT :=
  h.room.trans_lt ((Nat.lt_succ_self _).trans INPUT_BUF_SIZE_lt)

theorem Buffered.sub : sub32 s.e s.r = l.unread := by
  rw [sub32_eq h.e_lt h.r_lt, count_add h.r_lt h.e_lt h.w_lt h.sum_lt, h.count_rw, h.count_we,
    Line.unread]

theorem Buffered.unread_eq : l.unread = count UINT s.r s.w + count UINT s.w s.e := by
  rw [Line.unread, h.count_rw, h.count_we]

theorem Buffered.unread_le : l.unread ≤ INPUT_BUF_SIZE := h.unread_eq ▸ h.room

theorem Buffered.all :
    window INPUT_BUF_SIZE UINT s.buf s.r s.e = l.stream.drop l.taken.length ++ l.pending := by
  rw [← window_append h.r_lt h.e_lt h.w_lt h.sum_lt INPUT_BUF_SIZE_dvd, h.unread, h.pending]

end

/-! ### Editing -/

@[simp] theorem back_buf (s : Cons) : s.back.buf = s.buf := rfl

@[simp] theorem back_r (s : Cons) : s.back.r = s.r := rfl

@[simp] theorem back_w (s : Cons) : s.back.w = s.w := rfl

theorem sub32_one (h : s.e < UINT) : sub32 s.e 1 = count UINT 1 s.e :=
  sub32_eq h ((Nat.succ_lt_succ (Nat.succ_pos _)).trans INPUT_BUF_SIZE_lt)

theorem back_e (h : s.e < UINT) : s.back.e = count UINT 1 s.e := sub32_one h

/-- `cons.e--` takes the last character of the line away. -/
theorem Holds.back (h : Holds s l) (hne : s.e ≠ s.w) :
    Holds s.back { l with pending := l.pending.dropLast } := by
  have hret := window_retreat (r := s.buf) h.w_lt h.e_lt INPUT_BUF_SIZE_dvd hne.symm
  have hcount := count_retreat h.w_lt h.e_lt hne.symm
  have hroom := h.room
  have hlt : s.back.e < UINT := by
    rw [back_e h.e_lt]
    exact Nat.mod_lt _ UINT_pos
  rw [← back_e h.e_lt] at hret hcount
  refine ⟨⟨h.r_lt, h.w_lt, hlt, h.unread, ?_, h.taken, ?_⟩, ?_, ?_⟩
  · rw [back_buf, back_w, ← h.pending, hret, List.dropLast_concat]
  · rw [back_r, back_w]
    omega
  · intro hfull
    rw [back_r, back_w] at hfull
    omega
  · exact fun hin => h.plain (List.dropLast_subset _ hin)

theorem Buffered.last (h : Buffered s l) (hne : s.e ≠ s.w) :
    s.buf (sub32 s.e 1 % INPUT_BUF_SIZE) ∈ l.pending := by
  rw [← h.pending, window_retreat h.w_lt h.e_lt INPUT_BUF_SIZE_dvd hne.symm, sub32_one h.e_lt]
  exact List.mem_append_right _ (List.mem_singleton.mpr rfl)

theorem Buffered.empty_iff (h : Buffered s l) : l.pending = [] ↔ s.e = s.w := by
  rw [← List.length_eq_zero_iff, ← h.count_we, count_eq_zero h.w_lt h.e_lt]
  exact eq_comm

/-- `^U` takes the line away. -/
theorem Holds.killLine {fuel : ℕ} (h : Holds s l) (hfuel : l.pending.length ≤ fuel) :
    Holds (killLine fuel s) { l with pending := [] } := by
  induction fuel generalizing s l with
  | zero =>
      have hnil : l.pending = [] := List.length_eq_zero_iff.mp (by omega)
      rw [← hnil]
      exact h
  | succ fuel ih =>
      unfold Console.killLine
      by_cases hne : s.e = s.w
      · rw [if_neg (fun hc => hc.1 hne), ← h.empty_iff.mpr hne]
        exact h
      · have hplain : s.buf (sub32 s.e 1 % INPUT_BUF_SIZE) ≠ NEWLINE :=
          fun he => h.plain (he ▸ h.last hne)
        rw [if_pos ⟨hne, hplain⟩]
        have hlen : l.pending.dropLast.length ≤ fuel := by
          rw [List.length_dropLast]
          omega
        exact ih (l := { l with pending := l.pending.dropLast }) (h.back hne) hlen

theorem Holds.erase (h : Holds s l) :
    Holds (if s.e ≠ s.w then s.back else s) { l with pending := l.pending.dropLast } := by
  by_cases hne : s.e = s.w
  · have hnil := h.empty_iff.mpr hne
    rw [if_neg (not_not.mpr hne), hnil, List.dropLast_nil, ← hnil]
    exact h
  · rw [if_pos hne]
    exact h.back hne

/-! ### Storing and taking -/

/-- The line is committed: `cons.w = cons.e`. -/
theorem Buffered.commit (h : Buffered s l) : Holds { s with w := s.e } l.commit := by
  have hle := h.taken_le
  have hself : count UINT s.e s.e = 0 := (count_eq_zero h.e_lt h.e_lt).mpr rfl
  refine ⟨⟨h.r_lt, h.e_lt, h.e_lt, ?_, ?_, ?_, ?_⟩, fun _ => rfl, List.not_mem_nil⟩
  · show window INPUT_BUF_SIZE UINT s.buf s.r s.e = (l.stream ++ l.pending).drop l.taken.length
    rw [h.all, List.drop_append_of_le_length hle]
  · show window INPUT_BUF_SIZE UINT s.buf s.e s.e = []
    rw [window, hself]
    rfl
  · show l.taken.map _ = (l.stream ++ l.pending).take l.taken.length
    rw [List.take_append_of_le_length hle]
    exact h.taken
  · show count UINT s.r s.e + count UINT s.e s.e ≤ INPUT_BUF_SIZE
    rw [hself, count_add h.r_lt h.e_lt h.w_lt h.sum_lt, Nat.add_zero]
    exact h.room

/-- `cons.buf[cons.e++ % INPUT_BUF_SIZE] = c` -/
theorem Buffered.put (h : Buffered s l) (hroom : l.unread < INPUT_BUF_SIZE) (c : UInt8) :
    Buffered { s with buf := Function.update s.buf (s.e % INPUT_BUF_SIZE) c, e := (s.e + 1) % UINT }
      { l with pending := l.pending ++ [c] } := by
  have hsum := h.unread_eq
  have hlt := INPUT_BUF_SIZE_lt
  have hadv : count UINT s.w ((s.e + 1) % UINT) = count UINT s.w s.e + 1 :=
    count_advance h.w_lt h.e_lt (by omega)
  have hpend : window INPUT_BUF_SIZE UINT (Function.update s.buf (s.e % INPUT_BUF_SIZE) c) s.w s.e =
      l.pending := by
    rw [window_write h.w_lt h.e_lt INPUT_BUF_SIZE_dvd (by omega), h.pending]
  have hunread : window INPUT_BUF_SIZE UINT (Function.update s.buf (s.e % INPUT_BUF_SIZE) c) s.r
      s.w = l.stream.drop l.taken.length := by
    have hall := window_write (r := s.buf) (x := c) h.r_lt h.e_lt INPUT_BUF_SIZE_dvd
      (by rw [count_add h.r_lt h.e_lt h.w_lt h.sum_lt]; omega)
    rw [← window_append h.r_lt h.e_lt h.w_lt h.sum_lt INPUT_BUF_SIZE_dvd, hpend, h.all] at hall
    exact List.append_cancel_right hall
  refine ⟨h.r_lt, h.w_lt, Nat.mod_lt _ UINT_pos, hunread, ?_, h.taken, ?_⟩
  · show window INPUT_BUF_SIZE UINT (Function.update s.buf (s.e % INPUT_BUF_SIZE) c) s.w
      ((s.e + 1) % UINT) = l.pending ++ [c]
    rw [window_advance h.w_lt h.e_lt INPUT_BUF_SIZE_dvd (by omega), hpend, Function.update_self]
  · show count UINT s.r s.w + count UINT s.w ((s.e + 1) % UINT) ≤ INPUT_BUF_SIZE
    rw [hadv]
    omega

theorem Holds.store (h : Holds s l) (hroom : l.unread < INPUT_BUF_SIZE) (c : UInt8) :
    Holds (store s c).1 (l.put c) := by
  have hput := h.toBuffered.put hroom c
  have hsub := hput.sub
  unfold Console.store Line.put
  simp only [hsub]
  split_ifs with hc
  · exact hput.commit
  · simp only [not_or] at hc
    refine ⟨hput, fun hfull => absurd (hput.unread_eq.trans hfull) hc.2.2, ?_⟩
    intro hin
    rcases List.mem_append.mp hin with hin | hin
    · exact h.plain hin
    · exact hc.1 (List.mem_singleton.mp hin).symm

theorem Holds.intr (h : Holds s l) (c : UInt8) : Holds (consoleintr s c).1 (l.typed c) := by
  unfold consoleintr Line.typed
  by_cases hP : c = ctrl 'P'
  · rw [if_pos hP, if_pos hP]
    exact h
  rw [if_neg hP, if_neg hP]
  by_cases hU : c = ctrl 'U'
  · rw [if_pos hU, if_pos hU]
    refine h.killLine ?_
    rw [sub32_eq h.e_lt h.w_lt, h.count_we]
  rw [if_neg hU, if_neg hU]
  by_cases hH : c = ctrl 'H' ∨ c = DEL
  · rw [if_pos hH, if_pos hH]
    exact h.erase
  rw [if_neg hH, if_neg hH, h.sub]
  have hle := h.unread_le
  by_cases hD : c = 0 ∨ l.unread = INPUT_BUF_SIZE
  · have hno : ¬ (c ≠ 0 ∧ l.unread < INPUT_BUF_SIZE) := fun hc => hD.elim hc.1 (fun he => by omega)
    rw [if_pos hD, if_neg hno]
    exact h
  · have hroom : l.unread < INPUT_BUF_SIZE := lt_of_le_of_ne hle (fun he => hD (Or.inr he))
    rw [if_neg hD, if_pos ⟨fun h0 => hD (Or.inl h0), hroom⟩]
    exact h.store hroom (cook c)

/-- `c = cons.buf[cons.r++ % INPUT_BUF_SIZE]` takes the next character of the stream. -/
theorem Holds.take (h : Holds s l) (hne : s.r ≠ s.w) (i : ℕ) (fate : Fate) :
    Holds { s with r := (s.r + 1) % UINT }
      { l with taken := l.taken ++ [⟨i, s.buf (s.r % INPUT_BUF_SIZE), fate⟩] } := by
  have hpop := window_pop (r := s.buf) h.r_lt h.w_lt INPUT_BUF_SIZE_dvd hne
  have hcount := congrArg List.length hpop
  rw [length_window, List.length_cons, length_window] at hcount
  rw [h.unread] at hpop
  have hroom := h.room
  have hdrop : l.stream.drop (l.taken.length + 1) = window INPUT_BUF_SIZE UINT s.buf
      ((s.r + 1) % UINT) s.w := by
    rw [← List.tail_drop, hpop, List.tail_cons]
  have htake : l.stream.take (l.taken.length + 1) = l.stream.take l.taken.length ++
      [s.buf (s.r % INPUT_BUF_SIZE)] := by
    rw [List.take_add_one, ← List.head?_drop, hpop]
    rfl
  refine ⟨⟨Nat.mod_lt _ UINT_pos, h.w_lt, h.e_lt, ?_, h.pending, ?_, ?_⟩, ?_, h.plain⟩
  · rw [List.length_append, List.length_singleton]
    exact hdrop.symm
  · rw [List.length_append, List.length_singleton, List.map_append, htake, ← h.taken]
    rfl
  · show count UINT ((s.r + 1) % UINT) s.w + count UINT s.w s.e ≤ INPUT_BUF_SIZE
    omega
  · intro hfull
    have hfull' : count UINT ((s.r + 1) % UINT) s.w + count UINT s.w s.e = INPUT_BUF_SIZE := hfull
    omega

theorem holds_init : Holds init.cons {} := by
  have hself : count UINT 0 0 = 0 := (count_eq_zero UINT_pos UINT_pos).mpr rfl
  have hnil : window INPUT_BUF_SIZE UINT init.cons.buf 0 0 = [] := by
    rw [window, hself]
    rfl
  refine ⟨⟨UINT_pos, UINT_pos, UINT_pos, hnil, hnil, rfl, ?_⟩, fun _ => rfl, List.not_mem_nil⟩
  show count UINT 0 0 + count UINT 0 0 ≤ INPUT_BUF_SIZE
  rw [hself]
  exact Nat.zero_le _

end Xv6Cow.Console

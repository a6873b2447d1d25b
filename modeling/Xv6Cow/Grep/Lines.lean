import Xv6Cow.Grep.Match

/-! # The buffer of `grep`

`grep` reads into what is left of a buffer of 1024 bytes, writes the lines that are complete and
match, and moves the rest to the front.  The stream has no NUL, so `strchr` finds the first newline.
A `read` returns at least one byte unless it is asked for none or the stream has ended; how many,
`size` says for every place of the stream. -/

namespace Xv6Cow.Grep

def newline : UInt8 := '\n'.toUInt8

/-- `sizeof(buf)` -/
def BUFSIZE : ℕ := 1024

/-- The loop over the lines in the buffer, and what `strchr` has passed since `p`: what is written,
and what stays. -/
def scan (re : List UInt8) : (line text : List UInt8) → List UInt8 × List UInt8
  | line, [] => ([], line)
  | line, b :: text =>
      if b = newline then
        ((if matchRe re line then line ++ [newline] else []) ++ (scan re [] text).1, (scan re [] text).2)
      else scan re (line ++ [b]) text

/-- What `read` returns when it is asked for `n` bytes. -/
def readSize (size : ℕ → ℕ) (rest : List UInt8) (n : ℕ) : ℕ :=
  min (max 1 (size rest.length)) (min n rest.length)

/-- The loop of `grep`, with the bytes in the buffer: what is written, and what is not read. -/
def grepFrom (re : List UInt8) (size : ℕ → ℕ) : (fuel : ℕ) → (buf rest : List UInt8) →
    List UInt8 × List UInt8
  | 0, _, rest => ([], rest)
  | fuel + 1, buf, rest =>
      let n := readSize size rest (BUFSIZE - buf.length - 1)
      if n = 0 then ([], rest)
      else
        let (out, buf) := scan re [] (buf ++ rest.take n)
        let (out', rest) := grepFrom re size fuel buf (rest.drop n)
        (out ++ out', rest)

/-- `grep`; every round but the last reads a byte. -/
def grep (re : List UInt8) (size : ℕ → ℕ) (stream : List UInt8) : List UInt8 × List UInt8 :=
  grepFrom re size (stream.length + 1) [] stream

/-- The lines that match, of those that end with a newline. -/
def complete (re : List UInt8) (lines : List (List UInt8)) : List UInt8 :=
  (lines.filter (matchRe re)).flatMap (· ++ [newline])

/-- The line after the last newline, if there is one and it matches. -/
def incomplete (re line : List UInt8) : List UInt8 := if line ≠ [] ∧ matchRe re line then line else []

/-- The lines of a stream that match. -/
def matching (re stream : List UInt8) : List UInt8 :=
  complete re (stream.splitOn newline).dropLast ++ incomplete re ((stream.splitOn newline).getLastD [])

/-- The lines fit into the buffer, those that end with a newline together with it. -/
structure Fit (lines : List (List UInt8)) : Prop where
  complete : ∀ l ∈ lines.dropLast, l.length < BUFSIZE - 1
  last : (lines.getLastD []).length < BUFSIZE

variable {re line buf rest xs ys stream : List UInt8} {size : ℕ → ℕ} {fuel : ℕ}

theorem fit_append {ls lines : List (List UInt8)} (hls : ∀ l ∈ ls, l.length < BUFSIZE - 1)
    (hne : lines ≠ []) : Fit (ls ++ lines) ↔ Fit lines := by
  have hlast : (ls ++ lines).getLastD [] = lines.getLastD [] := by
    rw [List.getLastD_eq_getLast?, List.getLastD_eq_getLast?, List.getLast?_append_of_ne_nil _ hne]
  constructor
  · rintro ⟨h1, h2⟩
    rw [List.dropLast_append_of_ne_nil hne] at h1
    exact ⟨fun l hl => h1 l (List.mem_append_right _ hl), hlast ▸ h2⟩
  · rintro ⟨h1, h2⟩
    refine ⟨fun l hl => ?_, hlast.symm ▸ h2⟩
    rw [List.dropLast_append_of_ne_nil hne, List.mem_append] at hl
    exact hl.elim (hls l) (h1 l)

/-- A line that has filled the buffer does not fit. -/
theorem not_fit (h : newline ∉ buf) (hbuf : BUFSIZE - 1 ≤ buf.length) (hne : rest ≠ []) :
    ¬ Fit ((buf ++ rest).splitOn newline) := by
  intro hfit
  have hpos := List.length_pos_iff.mpr hne
  by_cases hr : newline ∈ rest
  · obtain ⟨a, b, rfl, ha⟩ := List.eq_append_cons_of_mem hr
    have hlen := hfit.complete (buf ++ a) (by
      rw [← List.append_assoc, List.splitOn_append_cons_self_of_not_mem (by simp [h, ha]),
        List.dropLast_cons_of_ne_nil (List.splitOn_ne_nil _ _)]
      exact List.mem_cons_self)
    rw [List.length_append] at hlen
    omega
  · have hlen := hfit.last
    rw [List.splitOn_eq_singleton (by simp [h, hr])] at hlen
    simp only [List.getLastD_cons, List.getLastD_nil, List.length_append] at hlen
    omega

theorem scan_split (ys : List UInt8) (h : newline ∉ line) :
    newline ∉ (scan re line xs).2 ∧ (scan re line xs).2.length ≤ line.length + xs.length ∧
      ∃ ls, (line ++ xs ++ ys).splitOn newline = ls ++ ((scan re line xs).2 ++ ys).splitOn newline ∧
        (scan re line xs).1 = complete re ls ∧ ∀ l ∈ ls, l.length < line.length + xs.length := by
  induction xs generalizing line with
  | nil => exact ⟨h, le_rfl, [], by simp [scan], rfl, by simp⟩
  | cons b xs ih =>
      rw [scan]
      by_cases hb : b = newline
      · rw [if_pos hb, hb]
        obtain ⟨h1, hlen, ls, h2, h3, h4⟩ := ih List.not_mem_nil
        rw [List.length_nil, Nat.zero_add] at hlen h4
        rw [List.length_cons]
        refine ⟨h1, by dsimp only; omega, line :: ls, ?_, ?_, fun l hl => ?_⟩
        · rw [List.append_assoc, List.cons_append, List.splitOn_append_cons_self_of_not_mem h,
            List.cons_append, ← h2]
          rfl
        · simp only [h3, complete, List.filter_cons]
          split_ifs <;> rfl
        · obtain rfl | hl := List.mem_cons.mp hl
          · omega
          · have := h4 l hl
            omega
      · rw [if_neg hb]
        have := @ih (line ++ [b]) (by simp [h, Ne.symm hb])
        rwa [List.append_assoc line, List.length_append, List.length_singleton, Nat.add_assoc,
          Nat.add_comm 1] at this

theorem scan_pending (h : newline ∉ buf) : scan re line (buf ++ xs) = scan re (line ++ buf) xs := by
  induction buf generalizing line with
  | nil => simp
  | cons b buf ih =>
      rw [List.cons_append, scan, if_neg fun hb => h (by simp [hb]), ih fun hb => h (by simp [hb]),
        List.append_assoc]
      rfl

theorem scan_append : scan re line (xs ++ ys) =
    ((scan re line xs).1 ++ (scan re (scan re line xs).2 ys).1, (scan re (scan re line xs).2 ys).2) := by
  induction xs generalizing line with
  | nil => simp [scan]
  | cons b xs ih =>
      rw [List.cons_append, scan, scan]
      split_ifs with hb
      all_goals simp [ih]

/-- However the stream is split, the loop writes what one look at all of it would write if the lines
fit, and does not read all of it if they do not. -/
theorem grepFrom_spec (hf : rest.length < fuel) (h : newline ∉ buf) (hbuf : buf.length < BUFSIZE) :
    (Fit ((buf ++ rest).splitOn newline) → grepFrom re size fuel buf rest = ((scan re buf rest).1, [])) ∧
      (¬ Fit ((buf ++ rest).splitOn newline) → (grepFrom re size fuel buf rest).2 ≠ []) := by
  induction fuel generalizing buf rest with
  | zero => omega
  | succ fuel ih =>
      rw [grepFrom]
      generalize hn : readSize size rest (BUFSIZE - buf.length - 1) = n
      unfold readSize at hn
      split_ifs with h0
      · obtain rfl | hne := eq_or_ne rest []
        · refine ⟨fun _ => rfl, fun hno => absurd ⟨?_, ?_⟩ hno⟩ <;>
            rw [List.append_nil, List.splitOn_eq_singleton h]
          · simp
          · exact hbuf
        · have hpos := List.length_pos_iff.mpr hne
          have hno := not_fit h (by omega) hne
          exact ⟨fun hfit => absurd hfit hno, fun _ => hne⟩
      · obtain ⟨h1, hlen, ls, h2, -, h4⟩ := @scan_split re buf (rest.take n) (rest.drop n) h
        have htake : (rest.take n).length = n := List.length_take_of_le (by omega)
        rw [htake] at hlen h4
        rw [List.append_assoc, List.take_append_drop] at h2
        have happ := @scan_append re buf (rest.take n) (rest.drop n)
        rw [List.take_append_drop] at happ
        have hstep := @ih (scan re buf (rest.take n)).2 (rest.drop n)
          (by rw [List.length_drop]; omega) h1 (by omega)
        rw [h2, fit_append (fun l hl => by have := h4 l hl; omega) (List.splitOn_ne_nil _ _),
          scan_pending h, List.nil_append]
        dsimp only
        refine ⟨fun hfit => ?_, hstep.2⟩
        rw [hstep.1 hfit, happ]

/-- **`grep` prints exactly the matching lines** and reads the whole stream, however `read` splits
it, if and only if the lines fit into the buffer and what comes after the last newline is empty or
does not match. -/
theorem grep_prints_iff : grep re size stream = (matching re stream, []) ↔
    Fit (stream.splitOn newline) ∧ incomplete re ((stream.splitOn newline).getLastD []) = [] := by
  obtain ⟨h1, -, ls, h2, h3, -⟩ := @scan_split re [] stream [] List.not_mem_nil
  rw [List.append_nil, List.append_nil, List.splitOn_eq_singleton h1, List.nil_append] at h2
  obtain ⟨hfit, hno⟩ := @grepFrom_spec re [] stream size (stream.length + 1) (Nat.lt_succ_self _)
    List.not_mem_nil (by decide)
  have hmatch : matching re stream = complete re ls ++
      incomplete re ((stream.splitOn newline).getLastD []) := by
    rw [matching, h2, List.dropLast_concat]
  rw [List.nil_append] at hfit hno
  unfold grep
  by_cases hF : Fit (stream.splitOn newline)
  · rw [hfit hF, h3, hmatch, Prod.mk.injEq, List.self_eq_append_right]
    simp [hF]
  · refine ⟨fun he => absurd (by rw [he]) (hno hF), fun hr => absurd hr.1 hF⟩

/-- The line `ab` at the end of the stream matches `a`, and is not written. -/
theorem grep_loses_last_line : grep [97] (fun _ => 2) [97, 98] = ([], []) ∧ matching [97] [97, 98] =
    [97, 98] := by decide

end Xv6Cow.Grep

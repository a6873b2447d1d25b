import Xv6Cow.Sh.Words

/-! # The parser accepts its grammar

Each parsing function of the shell does on the bytes what its counterpart on tokens does: it returns
the command of the derivation that the other returns, with the cursor before the remaining tokens,
or stops with the same panic (`Descends`).  With the results on the grammar this settles what
`parsecmd` does on every line: which commands it returns (`parsecmd_grammar`), and that the words of
the command are strings of the line it leaves (`parsecmd_words`). -/

namespace Xv6Cow.Sh

variable {line : List UInt8}

/-! ### The loops -/

theorem wrap_consRedir {got : Got} {tok : Option Tok} (h : Stands got tok) (cmd : Cmd) (w : Word)
    (rs : List Redir) : wrap (consRedir tok w rs) cmd = wrap rs (redircmd cmd got.ret w.q w.eq) := by
  cases tok with
  | none =>
      have hret : got.ret = 0 := h
      rw [hret]
      rfl
  | some t =>
      rw [h.1]
      cases t with
      | redir op => cases op <;> rfl
      | _ => rfl

theorem redirs_follows (h0 : 0 ∉ line) (fuel : ℕ) (cmd : Cmd) :
    Follows (Before line) (fun c rs => c = wrap rs cmd)
      (parseredirs (line ++ [0]) line.length fuel cmd) (redirsTok fuel) := by
  induction fuel generalizing cmd with
  | zero => exact Follows.throw
  | succ fuel ih =>
      rw [parseredirs, redirsTok]
      apply (peek_follows h0 rfl).bind
      rintro _ b rfl
      apply Follows.ite
      · intro _
        apply (gettoken_follows h0).bind
        intro got tok htok
        apply (gettoken_follows h0).bind
        intro file ftok hfile
        cases ftok with
        | none =>
            have hret : file.ret = 0 := hfile
            rw [if_pos (by rw [hret]; decide)]
            exact Follows.throw
        | some t =>
            obtain ⟨hret, hw⟩ := hfile
            rw [hret]
            cases t with
            | word w =>
                obtain rfl := hw w rfl
                apply Follows.map
                apply (ih _).mono
                rintro c rs rfl
                exact (wrap_consRedir htok cmd ⟨file.q, file.eq⟩ rs).symm
            | redir op => cases op <;> exact Follows.throw
            | _ => exact Follows.throw
      · intro _
        exact Follows.pure rfl

theorem backs_follows (h0 : 0 ∉ line) (fuel : ℕ) (cmd : Cmd) :
    Follows (Before line) (fun c amps => c = Cmd.back^[amps] cmd)
      (parsebacks (line ++ [0]) line.length fuel cmd) (backsTok fuel) := by
  induction fuel generalizing cmd with
  | zero => exact Follows.throw
  | succ fuel ih =>
      rw [parsebacks, backsTok]
      apply (peek_follows h0 rfl).bind
      rintro _ b rfl
      apply Follows.ite
      · intro _
        apply (gettoken_follows h0).bind
        intro _ _ _
        exact Follows.map (ih _)
      · intro _
        exact Follows.pure rfl

/-! ### Arguments -/

/-- The command that `parseexec` has built when it has read the redirections and arguments. -/
def built (redirs : List Redir) (args : List (Word × List Redir)) : Cmd :=
  wrap (redirs ++ args.flatMap Prod.snd) (.exec (execNode (args.map Prod.fst)))

theorem atExec_wrap (f : ExecCmd → ExecCmd) (rs : List Redir) (cmd : Cmd) :
    (wrap rs cmd).atExec f = wrap rs (cmd.atExec f) := by
  induction rs generalizing cmd with
  | nil => rfl
  | cons r rs ih => exact ih _

theorem set_pointers (ps : List ℕ) (h : ps.length < MAXARGS) (p : ℕ) :
    (pointers ps).set ps.length (some p) = pointers (ps ++ [p]) := by
  unfold pointers
  obtain ⟨n, hn⟩ : ∃ n, MAXARGS - ps.length = n + 1 := ⟨MAXARGS - ps.length - 1, by omega⟩
  rw [List.set_append_right _ _ (by simp), List.length_append, List.length_singleton,
    show MAXARGS - (ps.length + 1) = n by omega, hn, List.length_map, Nat.sub_self]
  simp [List.replicate_succ]

theorem clear_pointers (ps : List ℕ) (h : ps.length < MAXARGS) :
    (pointers ps).set ps.length none = pointers ps := by
  unfold pointers
  obtain ⟨n, hn⟩ : ∃ n, MAXARGS - ps.length = n + 1 := ⟨MAXARGS - ps.length - 1, by omega⟩
  rw [List.set_append_right _ _ (by simp), hn, List.length_map, Nat.sub_self]
  simp [List.replicate_succ]

theorem setArg_word {redirs : List Redir} {args : List (Word × List Redir)}
    (h : args.length < MAXARGS) (w : Word) :
    setArg args.length (some w.q) (some w.eq) (built redirs args) =
      pure (built redirs (args ++ [(w, [])])) := by
  unfold setArg built
  rw [if_pos h, atExec_wrap]
  have hq := set_pointers (args.map fun a => a.1.q) (by rwa [List.length_map]) w.q
  have heq := set_pointers (args.map fun a => a.1.eq) (by rwa [List.length_map]) w.eq
  rw [List.length_map] at hq heq
  simp [Cmd.atExec, execNode, Function.comp_def, hq, heq]

theorem setArg_end {redirs : List Redir} {args : List (Word × List Redir)} (h : args.length < MAXARGS) :
    setArg args.length none none (built redirs args) = pure (built redirs args) := by
  unfold setArg built
  rw [if_pos h, atExec_wrap]
  have hq := clear_pointers (args.map fun a => a.1.q) (by rwa [List.length_map])
  have heq := clear_pointers (args.map fun a => a.1.eq) (by rwa [List.length_map])
  rw [List.length_map] at hq heq
  simp [Cmd.atExec, execNode, Function.comp_def, hq, heq]

theorem wrap_built (redirs : List Redir) (args : List (Word × List Redir)) (w : Word) (rs : List Redir) :
    wrap rs (built redirs (args ++ [(w, [])])) = built redirs (args ++ [(w, rs)]) := by
  unfold built wrap
  simp [List.foldl_append]

theorem args_follows (h0 : 0 ∉ line) (fuel : ℕ) (redirs : List Redir) (args : Args) {argc : ℕ}
    (hargc : argc = args.1.length) :
    Follows (Before line) (fun c args' => c = built redirs args'.1)
      (parseargs (line ++ [0]) line.length fuel argc (built redirs args.1)) (argsTok fuel args) := by
  induction fuel generalizing args argc with
  | zero => exact Follows.throw
  | succ fuel ih =>
      subst hargc
      rw [parseargs, argsTok]
      apply (peek_follows h0 rfl).bind
      rintro _ b rfl
      apply Follows.ite
      · intro _
        rw [setArg_end args.2]
        exact Follows.pure rfl
      · intro _
        apply (gettoken_follows h0).bind
        intro got tok htok
        cases tok with
        | none =>
            have hret : got.ret = 0 := htok
            rw [if_pos hret, setArg_end args.2]
            exact Follows.pure rfl
        | some t =>
            obtain ⟨hret, hw⟩ := htok
            rw [hret]
            cases t with
            | word w =>
                obtain rfl := hw w rfl
                rw [Tok.code, if_neg (by decide), if_neg (by decide),
                  setArg_word args.2 ⟨got.q, got.eq⟩, pure_bind]
                by_cases hlt : args.1.length + 1 < MAXARGS
                · dsimp only
                  rw [if_neg (by omega), dif_pos hlt]
                  apply (redirs_follows h0 fuel _).bind
                  rintro c rs rfl
                  rw [wrap_built]
                  exact ih _ (by rw [List.length_append]; rfl)
                · dsimp only
                  rw [if_pos (by omega), dif_neg hlt]
                  exact Follows.throw
            | redir op => cases op <;> exact Follows.throw
            | _ => exact Follows.throw

/-! ### The descent -/

/-- Each function of the descent does what its counterpart on tokens does. -/
structure Descends (bs : List UInt8) (fuel : ℕ) : Prop where
  line : Follows (Before bs) (fun c l => c = l.tree) (parseline (bs ++ [0]) bs.length fuel)
    (lineTok fuel)
  pipe : Follows (Before bs) (fun c p => c = p.tree) (parsepipe (bs ++ [0]) bs.length fuel)
    (pipeTok fuel)
  exec : Follows (Before bs) (fun c e => c = e.tree) (parseexec (bs ++ [0]) bs.length fuel)
    (execTok fuel)
  block : Follows (Before bs) (fun c e => c = e.tree) (parseblock (bs ++ [0]) bs.length fuel)
    (blockTok fuel)

section descends

variable {fuel : ℕ}

section
variable (h0 : 0 ∉ line) (h : Descends line fuel)
include h0 h

theorem Descends.line_succ :
    Follows (Before line) (fun c l => c = l.tree) (parseline (line ++ [0]) line.length (fuel + 1))
      (lineTok (fuel + 1)) := by
  rw [parseline, lineTok]
  apply h.pipe.bind
  rintro _ p rfl
  apply (backs_follows h0 fuel _).bind
  rintro _ amps rfl
  apply (peek_follows h0 rfl).bind
  rintro _ b rfl
  apply Follows.ite
  · intro _
    apply (gettoken_follows h0).bind
    intro _ _ _
    apply h.line.bind
    rintro _ l rfl
    exact Follows.pure rfl
  · intro _
    exact Follows.pure rfl

theorem Descends.pipe_succ :
    Follows (Before line) (fun c p => c = p.tree) (parsepipe (line ++ [0]) line.length (fuel + 1))
      (pipeTok (fuel + 1)) := by
  rw [parsepipe, pipeTok]
  apply h.exec.bind
  rintro _ e rfl
  apply (peek_follows h0 rfl).bind
  rintro _ b rfl
  apply Follows.ite
  · intro _
    apply (gettoken_follows h0).bind
    intro _ _ _
    apply h.pipe.bind
    rintro _ p rfl
    exact Follows.pure rfl
  · intro _
    exact Follows.pure rfl

theorem Descends.exec_succ :
    Follows (Before line) (fun c e => c = e.tree) (parseexec (line ++ [0]) line.length (fuel + 1))
      (execTok (fuel + 1)) := by
  rw [parseexec, execTok]
  apply (peek_follows h0 rfl).bind
  rintro _ b rfl
  apply Follows.ite
  · intro _
    exact h.block
  · intro _
    apply (redirs_follows h0 fuel _).bind
    rintro _ rs rfl
    have hbuilt : wrap rs (.exec execcmd) = built rs [] := by
      rw [built, List.flatMap_nil, List.append_nil]
      rfl
    rw [hbuilt]
    apply Follows.bind_pure
    exact args_follows h0 fuel rs ⟨[], by decide⟩ rfl

theorem Descends.block_succ :
    Follows (Before line) (fun c e => c = e.tree) (parseblock (line ++ [0]) line.length (fuel + 1))
      (blockTok (fuel + 1)) := by
  rw [parseblock, blockTok]
  apply (peek_follows h0 rfl).bind
  rintro _ b rfl
  apply Follows.ite
  · intro _
    apply (gettoken_follows h0).bind
    intro _ _ _
    apply h.line.bind
    rintro _ l rfl
    apply (peek_follows h0 rfl).bind
    rintro _ b rfl
    apply Follows.ite
    · intro _
      apply (gettoken_follows h0).bind
      intro _ _ _
      apply Follows.bind_pure
      exact redirs_follows h0 fuel l.tree
    · intro _
      exact Follows.throw
  · intro _
    exact Follows.throw

end

end descends

theorem descends (h0 : 0 ∉ line) (fuel : ℕ) : Descends line fuel := by
  induction fuel with
  | zero => exact ⟨Follows.throw, Follows.throw, Follows.throw, Follows.throw⟩
  | succ fuel ih => exact ⟨ih.line_succ h0, ih.pipe_succ h0, ih.exec_succ h0, ih.block_succ h0⟩

/-! ### `parsecmd` -/

theorem lex_length (h0 : 0 ∉ line) : (lex line).length ≤ line.length := (toks_spec h0 (Nat.zero_le _)).1

/-- What `parsecmd` does with the command and the cursor that `parseline` leaves. -/
theorem parsecmd_of_line {fuel s : ℕ} {cmd : Cmd} (h0 : 0 ∉ line) (hcuts : Cuts cmd)
    (h : parseline (line ++ [0]) line.length fuel 0 = .ok (cmd, s)) :
    parsecmd fuel (line ++ [0]) =
      if scan isSpace (line ++ [0]) line.length s ≠ line.length
        then .error (.panic (.leftovers (scan isSpace (line ++ [0]) line.length s)))
      else .ok (cmd, cut (line ++ [0]) cmd.words) := by
  unfold parsecmd
  rw [strlen_line h0]
  dsimp only [bind, Except.bind]
  rw [h]
  dsimp only
  split
  · next he =>
    cases he
  · next r he =>
    cases he
    dsimp only
    rw [hcuts]
    rfl

/-- On every line `parsecmd` returns the command of a derivation, with the ends of its words cut, or
there is no derivation and it panics. -/
theorem parsecmd_result {fuel : ℕ} (h0 : 0 ∉ line) (hf : 4 * line.length + 4 ≤ fuel) :
    (∃ l : Line, l.yield = lex line ∧
      parsecmd fuel (line ++ [0]) = .ok (l.tree, cut (line ++ [0]) l.tree.words)) ∨
    (∀ l : Line, l.yield ≠ lex line) ∧ ∃ p, parsecmd fuel (line ++ [0]) = .error (.panic p) := by
  have hfuel : 4 * (lex line).length + 4 ≤ fuel := by
    have hlen := lex_length h0
    omega
  have hcomplete : ∀ l : Line, l.yield = lex line → lineTok fuel (lex line) = .ok (l, []) := by
    intro l hl
    have hl' := @Line.complete l fuel [] rfl (by rw [List.append_nil, hl]; exact hfuel)
    rwa [List.append_nil, hl] at hl'
  have hsound := (sound fuel).line (lex line) hfuel
  have hfollows := (descends h0 fuel).line 0 (lex line) ⟨Nat.zero_le _, rfl⟩
  cases hrun : lineTok fuel (lex line) with
  | error e =>
      right
      obtain ⟨p, rfl⟩ := wp_error hsound hrun
      refine ⟨fun l hl => ?_, p, ?_⟩
      · rw [hcomplete l hl] at hrun
        cases hrun
      · have hstop := wp_error hfollows hrun
        unfold parsecmd
        rw [strlen_line h0]
        dsimp only [bind, Except.bind]
        rw [hstop]
  | ok r =>
      obtain ⟨l, rest⟩ := r
      obtain ⟨cmd, s, hline, rfl, hbefore⟩ := wp_ok hfollows hrun
      have hyield := wp_ok hsound hrun
      have hcmd := parsecmd_of_line h0 (Line.cuts l) hline
      rcases (hbefore.skip h0).2 with ⟨hend, rfl⟩ | ⟨t, ht, hhead, -, -⟩
      · left
        rw [if_neg (not_not.mpr hend)] at hcmd
        rw [List.append_nil] at hyield
        exact ⟨l, hyield, hcmd⟩
      · right
        have hne := Nat.ne_of_lt (Nat.lt_of_lt_of_le ht.lt ht.bound)
        rw [if_pos hne] at hcmd
        refine ⟨fun l' hl' => ?_, _, hcmd⟩
        rw [hcomplete l' hl'] at hrun
        cases hrun
        cases hhead

/-- **The parser accepts exactly its grammar.**  On every line without a zero byte: `parsecmd`
returns a command if and only if it is the command of a derivation of the tokens of the line; where
there is no derivation it stops with a panic, so it never stores outside `argv` and `eargv` and
always ends; and no two derivations have the same tokens. -/
theorem parsecmd_grammar (line : List UInt8) (h0 : 0 ∉ line) (fuel : ℕ)
    (hf : 4 * line.length + 4 ≤ fuel) :
    (∀ cmd, (∃ m, parsecmd fuel (line ++ [0]) = .ok (cmd, m)) ↔ ∃ l : Line, l.yield = lex line ∧
      l.tree = cmd) ∧ ((∀ l : Line, l.yield ≠ lex line) → ∃ p, parsecmd fuel (line ++ [0]) =
        .error (.panic p)) ∧
    (∀ l l' : Line, l.yield = lex line → l'.yield = lex line → l = l') := by
  refine ⟨fun cmd => ⟨?_, ?_⟩, ?_, fun l l' hl hl' => Line.yield_injective (hl.trans hl'.symm)⟩
  · rintro ⟨m, hm⟩
    rcases parsecmd_result h0 hf with ⟨l, hl, hp⟩ | ⟨-, p, hp⟩
    · rw [hp] at hm
      cases hm
      exact ⟨l, hl, rfl⟩
    · rw [hp] at hm
      cases hm
  · rintro ⟨l, hl, rfl⟩
    rcases parsecmd_result h0 hf with ⟨l', hl', hp⟩ | ⟨hno, -⟩
    · rw [Line.yield_injective (hl.trans hl'.symm)]
      exact ⟨_, hp⟩
    · exact absurd hl (hno l)
  · intro hno
    rcases parsecmd_result h0 hf with ⟨l, hl, -⟩ | ⟨-, hp⟩
    · exact absurd hl (hno l)
    · exact hp

/-- The line `a | b > c &` is derived, and the command returned is that of its derivation. -/
theorem parsecmd_grammar_pipe : 0 ∉ ([97, 32, 124, 98, 62, 99, 38] : List UInt8) ∧
    ∃ l : Line, l.yield = lex [97, 32, 124, 98, 62, 99, 38] ∧
      l.tree = .back (.pipe (.exec (execNode [⟨0, 1⟩]))
        (.redir (.exec (execNode [⟨3, 4⟩])) 5 6 (O_WRONLY ||| O_CREATE ||| O_TRUNC) 1)) :=
  ⟨by decide, ((parsecmd_grammar [97, 32, 124, 98, 62, 99, 38] (by decide) 32 (by decide)).1 _).mp
    ⟨[97, 0, 124, 98, 0, 99, 0, 0], by decide +kernel⟩⟩

/-! ### The words in memory -/

/-- The C string at an index into the line. -/
def cstr (m : List UInt8) (s : ℕ) : List UInt8 := (m.drop s).takeWhile (· != 0)

theorem byteAt_set (m : List UInt8) (e i : ℕ) : byteAt (m.set e 0) i = if e = i then 0
    else byteAt m i := by
  unfold byteAt
  simp only [List.getD_eq_getElem?_getD, List.getElem?_set]
  split_ifs <;> simp_all

theorem byteAt_cut (m : List UInt8) (ws : List Word) (i : ℕ) :
    byteAt (cut m ws) i = if i ∈ ws.map Word.eq then 0 else byteAt m i := by
  induction ws generalizing m with
  | nil => rfl
  | cons w ws ih =>
      refine (ih _).trans ?_
      rw [byteAt_set, List.map_cons]
      simp only [List.mem_cons]
      by_cases h : i ∈ ws.map Word.eq
      · rw [if_pos h, if_pos (Or.inr h)]
      · rw [if_neg h]
        by_cases he : w.eq = i
        · rw [if_pos he, if_pos (Or.inl he.symm)]
        · rw [if_neg he, if_neg (by rintro (h' | h'); exacts [he h'.symm, h h'])]

theorem cstr_eq {m bs : List UInt8} {q e : ℕ} (hqe : q ≤ e) (hz : byteAt m e = 0)
    (he : e ≤ bs.length) (hrun : ∀ i, q ≤ i → i < e → byteAt m i = byteAt bs i ∧ byteAt m i ≠ 0) :
    cstr m q = (bs.drop q).take (e - q) := by
  induction hqe using Nat.decreasingInduction with
  | self =>
      rw [Nat.sub_self, List.take_zero]
      unfold cstr
      rcases Nat.lt_or_ge e m.length with hlt | hge
      · rw [List.drop_eq_getElem_cons hlt, List.takeWhile_cons_of_neg]
        unfold byteAt at hz
        rw [List.getD_eq_getElem _ _ hlt] at hz
        simp [hz]
      · rw [List.drop_eq_nil_of_le hge]
        rfl
  | of_succ q hq ih =>
      obtain ⟨hsame, hne⟩ := hrun q (Nat.le_refl q) hq
      have hlt : q < m.length := by
        by_contra hge
        exact hne (List.getD_eq_default _ _ (by omega))
      have hq' : q < bs.length := by omega
      have hm : byteAt m q = m[q] := List.getD_eq_getElem _ _ hlt
      have hb : byteAt bs q = bs[q] := List.getD_eq_getElem _ _ hq'
      unfold cstr at ih ⊢
      rw [List.drop_eq_getElem_cons hlt, List.drop_eq_getElem_cons hq', show e - q = (e - (q + 1)) +
        1 by omega, List.take_succ_cons, List.takeWhile_cons_of_pos (by rw [← hm]; exact bne_iff_ne.mpr hne),
        ih fun i hi => hrun i (by omega), ← hm, ← hb, hsame]

/-- **Every word is cut at its end.**  For every line that `parsecmd` accepts and every word of the
command it returns, an argument or the name of a file: the tokenizer recognised it as a word, the
byte after it in the line that is left is zero, the end of no word of the command is inside it, and
the C string at its start is the word as it stood in the line. -/
theorem parsecmd_words (line : List UInt8) (h0 : 0 ∉ line) (fuel : ℕ) (hf : 4 * line.length + 4 ≤ fuel)
    (cmd : Cmd) (m : List UInt8) (h : parsecmd fuel (line ++ [0]) = .ok (cmd, m)) :
    ∀ w ∈ cmd.words, .word w ∈ lex line ∧ byteAt m w.eq = 0 ∧
      (∀ v ∈ cmd.words, ¬ (w.q ≤ v.eq ∧ v.eq < w.eq)) ∧
      cstr m w.q = (line.drop w.q).take (w.eq - w.q) := by
  rcases parsecmd_result h0 hf with ⟨l, hl, hp⟩ | ⟨-, p, hp⟩
  · rw [hp] at h
    cases h
    have hmem : ∀ w ∈ l.tree.words, .word w ∈ lex line := fun w hw => hl ▸ Line.words_mem l w hw
    have hruns : ∀ w ∈ l.tree.words, IsRun line w :=
      fun w hw => (toks_spec h0 (Nat.zero_le _)).2 w (hmem w hw)
    intro w hw
    have hrun := hruns w hw
    have hout : ∀ v ∈ l.tree.words, ¬ (w.q ≤ v.eq ∧ v.eq < w.eq) := by
      rintro v hv ⟨hq, heq⟩
      -- inside a word every byte belongs to words, and at the end of a word none does
      have hin := hrun.run v.eq hq heq
      rw [(hruns v hv).stop (Nat.lt_of_lt_of_le heq hrun.bound)] at hin
      exact Bool.false_ne_true hin
    have hzero : byteAt (cut (line ++ [0]) l.tree.words) w.eq = 0 := by
      rw [byteAt_cut, if_pos (List.mem_map.mpr ⟨w, hw, rfl⟩)]
    refine ⟨hmem w hw, hzero, hout, ?_⟩
    apply cstr_eq (Nat.le_of_lt hrun.lt) hzero hrun.bound
    intro i hq heq
    have hi : i < line.length := Nat.lt_of_lt_of_le heq hrun.bound
    rw [byteAt_cut, if_neg]
    · exact ⟨byteAt_line hi, byteAt_ne_zero h0 hi⟩
    · intro hmem
      obtain ⟨v, hv, rfl⟩ := List.mem_map.mp hmem
      exact hout v hv ⟨hq, heq⟩
  · rw [hp] at h
    cases h

/-- In `ab>c` the terminator of `ab` is written over the `>`. -/
theorem parsecmd_words_redir :
    parsecmd 20 ([97, 98, 62, 99] ++ [0]) =
        .ok (.redir (.exec (execNode [⟨0, 2⟩])) 3 4 (O_WRONLY ||| O_CREATE ||| O_TRUNC) 1,
          [97, 98, 0, 99, 0]) ∧
      cstr [97, 98, 0, 99, 0] 0 = [97, 98] ∧ cstr [97, 98, 0, 99, 0] 3 = [99] :=
  have h : parsecmd 20 ([97, 98, 62, 99] ++ [0]) =
      .ok (.redir (.exec (execNode [⟨0, 2⟩])) 3 4 (O_WRONLY ||| O_CREATE ||| O_TRUNC) 1,
        [97, 98, 0, 99, 0]) := by
    decide +kernel
  have hwords := parsecmd_words [97, 98, 62, 99] (by decide) 20 (by decide) _ _ h
  ⟨h, (hwords ⟨0, 2⟩ (by decide)).2.2.2, (hwords ⟨3, 4⟩ (by decide)).2.2.2⟩

end Xv6Cow.Sh

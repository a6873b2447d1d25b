import Mathlib.Data.List.Basic
import Mathlib.Logic.Function.Iterate
import Xv6Cow.Sh.Token

/-! # The grammar of the shell

```
line  ::= pipe '&'* (';' line)?
pipe  ::= exec ('|' pipe)?
exec  ::= '(' line ')' redir* | redir* (word redir*)*
redir ::= ('<' | '>' | '>>') word
```

with fewer than `MAXARGS` words in an `exec`.  A derivation is a value of `Line`, with the tokens it
derives (`Line.yield`) and the command it stands for (`Line.tree`).

`lineTok` is the recursive descent on tokens: it has the shape of `parseline`, but takes tokens from
a list and returns a derivation.  The results are about it alone: what it returns derives the tokens
it took (`line_sound`), and it returns every derivation of what it is given (`line_complete`).  So
there is one derivation at most (`Line.yield_injective`). -/

namespace Xv6Cow.Sh

/-! ### Derivations -/

/-- `redir` of the grammar. -/
structure Redir where
  op : Op
  file : Word
  deriving DecidableEq, Repr

mutual
/-- `line` of the grammar, with the number of its `&`. -/
inductive Line where
  | last (p : Pipe) (amps : ℕ)
  | seq (p : Pipe) (amps : ℕ) (rest : Line)

/-- `pipe` of the grammar. -/
inductive Pipe where
  | one (e : Exec)
  | more (e : Exec) (rest : Pipe)

/-- `exec` of the grammar: a block, or words with redirections between them. -/
inductive Exec where
  | block (l : Line) (redirs : List Redir)
  | simple (redirs : List Redir) (args : List (Word × List Redir)) (few : args.length < MAXARGS)
end

/-! ### What is derived -/

def redirYield (r : Redir) : List Tok := [.redir r.op, .word r.file]

def redirsYield (rs : List Redir) : List Tok := rs.flatMap redirYield

def argYield (arg : Word × List Redir) : List Tok := .word arg.1 :: redirsYield arg.2

def argsYield (args : List (Word × List Redir)) : List Tok := args.flatMap argYield

mutual
/-- The tokens of a derivation. -/
def Line.yield : Line → List Tok
  | .last p amps => p.yield ++ List.replicate amps .amp
  | .seq p amps rest => p.yield ++ (List.replicate amps .amp ++ .semi :: rest.yield)

def Pipe.yield : Pipe → List Tok
  | .one e => e.yield
  | .more e rest => e.yield ++ .bar :: rest.yield

def Exec.yield : Exec → List Tok
  | .block l redirs => .lpar :: (l.yield ++ .rpar :: redirsYield redirs)
  | .simple redirs args _ => redirsYield redirs ++ argsYield args
end

/-! ### The command of a derivation -/

/-- The mode a redirection opens its file with. -/
def Op.mode : Op → ℕ
  | .input => O_RDONLY
  | .output => O_WRONLY ||| O_CREATE ||| O_TRUNC
  | .append => O_WRONLY ||| O_CREATE

/-- The descriptor a redirection replaces. -/
def Op.fd : Op → ℕ
  | .input => 0
  | .output => 1
  | .append => 1

/-- Redirections apply from the left: the last is the outermost. -/
def wrap (rs : List Redir) (cmd : Cmd) : Cmd :=
  rs.foldl (fun cmd r => .redir cmd r.file.q r.file.eq r.op.mode r.op.fd) cmd

/-- The first `MAXARGS` pointers: those of the words, then null. -/
def pointers (ps : List ℕ) : List (Option ℕ) := ps.map some ++ List.replicate (MAXARGS - ps.length) none

/-- The node of a simple command. -/
def execNode (words : List Word) : ExecCmd :=
  ⟨pointers (words.map Word.q), pointers (words.map Word.eq)⟩

mutual
/-- The command of a derivation. -/
def Line.tree : Line → Cmd
  | .last p amps => Cmd.back^[amps] p.tree
  | .seq p amps rest => .list (Cmd.back^[amps] p.tree) rest.tree

def Pipe.tree : Pipe → Cmd
  | .one e => e.tree
  | .more e rest => .pipe e.tree rest.tree

def Exec.tree : Exec → Cmd
  | .block l redirs => wrap redirs l.tree
  | .simple redirs args _ =>
      wrap (redirs ++ args.flatMap Prod.snd) (.exec (execNode (args.map Prod.fst)))
end

/-! ### Recursive descent on tokens -/

/-- Add the redirection that a token and a word make. -/
def consRedir (tok : Option Tok) (w : Word) (rs : List Redir) : List Redir :=
  match tok with
  | some (.redir op) => ⟨op, w⟩ :: rs
  | _ => rs

def redirsTok : ℕ → TokParser (List Redir)
  | 0 => throw .fuel
  | fuel + 1 => do
      if ← peekTok [60, 62] then
        let tok ← nextTok
        match ← nextTok with
        | some (.word w) => consRedir tok w <$> redirsTok fuel
        | _ => throw (.panic .missingFile)
      else return []

def backsTok : ℕ → TokParser ℕ
  | 0 => throw .fuel
  | fuel + 1 => do
      if ← peekTok [38] then
        let _ ← nextTok
        Nat.succ <$> backsTok fuel
      else return 0

/-- The arguments of a simple command, fewer than `MAXARGS`. -/
abbrev Args := { args : List (Word × List Redir) // args.length < MAXARGS }

def argsTok : ℕ → Args → TokParser Args
  | 0, _ => throw .fuel
  | fuel + 1, args => do
      if ← peekTok [124, 41, 38, 59] then return args
      else
        match ← nextTok with
        | none => return args
        | some (.word w) =>
            if h : args.1.length + 1 < MAXARGS then
              let rs ← redirsTok fuel
              argsTok fuel ⟨args.1 ++ [(w, rs)], by rw [List.length_append]; exact h⟩
            else throw (.panic .tooManyArgs)
        | some _ => throw (.panic .badToken)

mutual
def lineTok : ℕ → TokParser Line
  | 0 => throw .fuel
  | fuel + 1 => do
      let p ← pipeTok fuel
      let amps ← backsTok fuel
      if ← peekTok [59] then
        let _ ← nextTok
        let rest ← lineTok fuel
        return .seq p amps rest
      else return .last p amps

def pipeTok : ℕ → TokParser Pipe
  | 0 => throw .fuel
  | fuel + 1 => do
      let e ← execTok fuel
      if ← peekTok [124] then
        let _ ← nextTok
        let rest ← pipeTok fuel
        return .more e rest
      else return .one e

def execTok : ℕ → TokParser Exec
  | 0 => throw .fuel
  | fuel + 1 => do
      if ← peekTok [40] then blockTok fuel
      else
        let redirs ← redirsTok fuel
        let args ← argsTok fuel ⟨[], by decide⟩
        return .simple redirs args.1 args.2

def blockTok : ℕ → TokParser Exec
  | 0 => throw .fuel
  | fuel + 1 => do
      if ← peekTok [40] then
        let _ ← nextTok
        let l ← lineTok fuel
        if ← peekTok [41] then
          let _ ← nextTok
          let redirs ← redirsTok fuel
          return .block l redirs
        else throw (.panic .missingParen)
      else throw (.panic .parseblock)
end

/-! ### What is returned derives what was taken -/

/-- A parser stopped with a panic of the source. -/
def IsPanic (e : Stop) : Prop := ∃ p, e = .panic p

section rules

variable {Q : Bool → List Tok → Prop} {E : Stop → Prop} {set : List UInt8} {ts : List Tok} {t : Tok}

@[simp] theorem wp_peekTok :
    wp (peekTok set) Q E ts ↔ Q (ts.head?.any fun t => t.lead.any set.contains) ts :=
  wp_iff_of_ok rfl

@[simp] theorem wp_nextTok {Q : Option Tok → List Tok → Prop} :
    wp nextTok Q E ts ↔ Q ts.head? ts.tail :=
  wp_iff_of_ok rfl

end rules

theorem redirs_sound {fuel : ℕ} {ts : List Tok} (hf : ts.length < fuel) :
    wp (redirsTok fuel) (fun rs rest => redirsYield rs ++ rest = ts) IsPanic ts := by
  induction fuel generalizing ts with
  | zero => omega
  | succ fuel ih =>
      rw [redirsTok]
      simp only [wp_bind, wp_peekTok]
      cases ts with
      | nil => exact wp_pure.mpr rfl
      | cons t ts =>
          cases t with
          | redir op =>
              have hin : (Option.any (fun t : Tok => t.lead.any [60, 62].contains)
                  (.redir op :: ts).head?) = true := by
                cases op <;> rfl
              rw [hin]
              simp only [if_true, wp_bind, wp_nextTok, List.head?_cons, List.tail_cons]
              cases ts with
              | nil => exact wp_throw.mpr ⟨_, rfl⟩
              | cons t ts =>
                  cases t with
                  | word w =>
                      rw [List.length_cons, List.length_cons] at hf
                      simp only [List.head?_cons, List.tail_cons, wp_map]
                      apply wp_mono (ih (by omega : ts.length < fuel)) _ fun _ h => h
                      rintro rs rest rfl
                      rfl
                  | _ => exact wp_throw.mpr ⟨_, rfl⟩
          | _ => exact wp_pure.mpr rfl

theorem backs_sound {fuel : ℕ} {ts : List Tok} (hf : ts.length < fuel) :
    wp (backsTok fuel) (fun amps rest => List.replicate amps .amp ++ rest = ts) IsPanic ts := by
  induction fuel generalizing ts with
  | zero => omega
  | succ fuel ih =>
      rw [backsTok]
      simp only [wp_bind, wp_peekTok]
      cases ts with
      | nil => exact wp_pure.mpr rfl
      | cons t ts =>
          rw [List.length_cons] at hf
          cases t with
          | amp =>
              apply wp_bind.mpr
              apply wp_nextTok.mpr
              apply wp_map.mpr
              apply wp_mono (ih (by omega : ts.length < fuel)) _ fun _ h => h
              rintro amps rest rfl
              rfl
          | redir op => cases op <;> exact wp_pure.mpr rfl
          | _ => exact wp_pure.mpr rfl

theorem args_sound {fuel : ℕ} {args : Args} {ts : List Tok} (hf : ts.length < fuel) :
    wp (argsTok fuel args) (fun args' rest => ∃ more, args'.1 = args.1 ++ more ∧
      argsYield more ++ rest = ts) IsPanic ts := by
  induction fuel generalizing args ts with
  | zero => omega
  | succ fuel ih =>
      have hstop : ∃ more, args.1 = args.1 ++ more ∧ argsYield more ++ ts = ts :=
        ⟨[], (List.append_nil _).symm, rfl⟩
      rw [argsTok]
      simp only [wp_bind, wp_peekTok]
      cases ts with
      | nil => exact wp_bind.mpr (wp_nextTok.mpr (wp_pure.mpr hstop))
      | cons t ts =>
          rw [List.length_cons] at hf
          cases t with
          | word w =>
              apply wp_bind.mpr
              apply wp_nextTok.mpr
              show wp (dite _ _ _) _ _ ts
              split
              · rw [wp_bind]
                apply wp_mono (redirs_sound (by omega)) _ fun _ h => h
                intro rs rest hrs
                have hlen : rest.length ≤ ts.length := by
                  rw [← hrs, List.length_append]
                  omega
                apply wp_mono (ih (by omega)) _ fun _ h => h
                rintro args' rest' ⟨more, hargs, hmore⟩
                refine ⟨(w, rs) :: more, ?_, ?_⟩
                · rw [hargs, List.append_assoc, List.singleton_append]
                · rw [← hrs, ← hmore]
                  simp [argsYield, argYield]
              · exact wp_throw.mpr ⟨_, rfl⟩
          | redir op => cases op <;> exact wp_bind.mpr (wp_nextTok.mpr (wp_throw.mpr ⟨_, rfl⟩))
          | lpar => exact wp_bind.mpr (wp_nextTok.mpr (wp_throw.mpr ⟨_, rfl⟩))
          | _ => exact wp_pure.mpr hstop

/-- One round of the descent at each of its functions. -/
structure Sound (fuel : ℕ) : Prop where
  line : ∀ ts, 4 * ts.length + 4 ≤ fuel →
    wp (lineTok fuel) (fun l rest => l.yield ++ rest = ts) IsPanic ts
  pipe : ∀ ts, 4 * ts.length + 3 ≤ fuel →
    wp (pipeTok fuel) (fun p rest => p.yield ++ rest = ts) IsPanic ts
  exec : ∀ ts, 4 * ts.length + 2 ≤ fuel →
    wp (execTok fuel) (fun e rest => e.yield ++ rest = ts) IsPanic ts
  block : ∀ ts, 4 * ts.length + 1 ≤ fuel →
    wp (blockTok fuel) (fun e rest => e.yield ++ rest = ts) IsPanic ts

section descent

variable {fuel : ℕ} {ts : List Tok}

theorem length_rest {ds rest : List Tok} (h : ds ++ rest = ts) : rest.length ≤ ts.length := by
  rw [← h, List.length_append]
  omega

theorem Sound.line_succ (h : Sound fuel) (hf : 4 * ts.length + 4 ≤ fuel + 1) :
    wp (lineTok (fuel + 1)) (fun l rest => l.yield ++ rest = ts) IsPanic ts := by
  rw [lineTok, wp_bind]
  apply wp_mono (h.pipe ts (by omega)) _ fun _ h => h
  intro p us hp
  have hlen := length_rest hp
  rw [wp_bind]
  apply wp_mono (backs_sound (by omega)) _ fun _ h => h
  intro amps vs hamps
  have hlen' := length_rest hamps
  rw [wp_bind, wp_peekTok]
  have hstop : (Line.last p amps).yield ++ vs = ts := by
    rw [Line.yield, List.append_assoc, hamps, hp]
  cases vs with
  | nil => exact wp_pure.mpr hstop
  | cons t vs =>
      rw [List.length_cons] at hlen'
      cases t with
      | semi =>
          apply wp_bind.mpr
          apply wp_nextTok.mpr
          apply wp_bind.mpr
          apply wp_mono (h.line vs (by omega)) _ fun _ h => h
          rintro l rest rfl
          apply wp_pure.mpr
          rw [← hp, ← hamps]
          simp [Line.yield]
      | redir op => cases op <;> exact wp_pure.mpr hstop
      | _ => exact wp_pure.mpr hstop

theorem Sound.pipe_succ (h : Sound fuel) (hf : 4 * ts.length + 3 ≤ fuel + 1) :
    wp (pipeTok (fuel + 1)) (fun p rest => p.yield ++ rest = ts) IsPanic ts := by
  rw [pipeTok, wp_bind]
  apply wp_mono (h.exec ts (by omega)) _ fun _ h => h
  intro e vs he
  have hlen := length_rest he
  rw [wp_bind, wp_peekTok]
  have hstop : (Pipe.one e).yield ++ vs = ts := by
    rw [Pipe.yield, he]
  cases vs with
  | nil => exact wp_pure.mpr hstop
  | cons t vs =>
      rw [List.length_cons] at hlen
      cases t with
      | bar =>
          apply wp_bind.mpr
          apply wp_nextTok.mpr
          apply wp_bind.mpr
          apply wp_mono (h.pipe vs (by omega)) _ fun _ h => h
          rintro p rest rfl
          apply wp_pure.mpr
          rw [← he]
          simp [Pipe.yield]
      | redir op => cases op <;> exact wp_pure.mpr hstop
      | _ => exact wp_pure.mpr hstop

theorem simple_sound (hf : ts.length < fuel) :
    wp (do
        let redirs ← redirsTok fuel
        let args ← argsTok fuel ⟨[], by decide⟩
        return Exec.simple redirs args.1 args.2)
      (fun e rest => e.yield ++ rest = ts) IsPanic ts := by
  rw [wp_bind]
  apply wp_mono (redirs_sound hf) _ fun _ h => h
  intro rs us hrs
  have hlen := length_rest hrs
  rw [wp_bind]
  apply wp_mono (args_sound (by omega)) _ fun _ h => h
  rintro args rest ⟨more, hargs, hmore⟩
  apply wp_pure.mpr
  rw [List.nil_append] at hargs
  rw [Exec.yield, hargs, List.append_assoc, hmore, hrs]

theorem Sound.exec_succ (h : Sound fuel) (hf : 4 * ts.length + 2 ≤ fuel + 1) :
    wp (execTok (fuel + 1)) (fun e rest => e.yield ++ rest = ts) IsPanic ts := by
  rw [execTok, wp_bind, wp_peekTok]
  have hsimple := simple_sound (by omega : ts.length < fuel)
  cases ts with
  | nil => exact hsimple
  | cons t ts =>
      cases t with
      | lpar => exact h.block _ (by omega)
      | redir op => cases op <;> exact hsimple
      | _ => exact hsimple

theorem Sound.block_succ (h : Sound fuel) (hf : 4 * ts.length + 1 ≤ fuel + 1) :
    wp (blockTok (fuel + 1)) (fun e rest => e.yield ++ rest = ts) IsPanic ts := by
  have hno : ∀ us, wp (throw (.panic .parseblock) : TokParser Exec) (fun e rest => e.yield ++ rest =
      ts) IsPanic us :=
    fun us => wp_throw.mpr ⟨_, rfl⟩
  rw [blockTok, wp_bind, wp_peekTok]
  cases ts with
  | nil => exact hno _
  | cons t ts =>
      rw [List.length_cons] at hf
      cases t with
      | lpar =>
          apply wp_bind.mpr
          apply wp_nextTok.mpr
          apply wp_bind.mpr
          apply wp_mono (h.line ts (by omega)) _ fun _ h => h
          intro l us hl
          have hlen := length_rest hl
          have hparen : ∀ us, wp (throw (.panic .missingParen) : TokParser Exec)
              (fun e rest => e.yield ++ rest = .lpar :: ts) IsPanic us :=
            fun us => wp_throw.mpr ⟨_, rfl⟩
          rw [wp_bind, wp_peekTok]
          cases us with
          | nil => exact hparen _
          | cons t us =>
              rw [List.length_cons] at hlen
              cases t with
              | rpar =>
                  apply wp_bind.mpr
                  apply wp_nextTok.mpr
                  apply wp_bind.mpr
                  apply wp_mono (redirs_sound (by omega : us.length < fuel)) _ fun _ h => h
                  rintro rs rest rfl
                  apply wp_pure.mpr
                  rw [← hl]
                  simp [Exec.yield]
              | redir op => cases op <;> exact hparen _
              | _ => exact hparen _
      | redir op => cases op <;> exact hno _
      | _ => exact hno _

end descent

theorem sound (fuel : ℕ) : Sound fuel := by
  induction fuel with
  | zero =>
      exact ⟨fun ts h => by omega, fun ts h => by omega, fun ts h => by omega, fun ts h => by omega⟩
  | succ fuel ih =>
      exact ⟨fun ts h => ih.line_succ h, fun ts h => ih.pipe_succ h, fun ts h => ih.exec_succ h,
        fun ts h => ih.block_succ h⟩

/-! ### What can be derived is returned -/

/-- What may follow a line. -/
def lineEnds : List Tok → Bool
  | [] | .rpar :: _ => true
  | _ => false

/-- What may follow a pipe. -/
def pipeEnds : List Tok → Bool
  | [] | .rpar :: _ | .amp :: _ | .semi :: _ => true
  | _ => false

/-- What may follow an `exec`. -/
def execEnds : List Tok → Bool
  | [] | .rpar :: _ | .amp :: _ | .semi :: _ | .bar :: _ => true
  | _ => false

theorem execEnds_of_pipeEnds {ts : List Tok} (h : pipeEnds ts = true) : execEnds ts = true := by
  unfold pipeEnds at h
  split at h <;> first | rfl | exact absurd h Bool.false_ne_true

section complete

variable {α β : Type} {c : TokParser α} {f : α → TokParser β} {k : Bool → TokParser β}
    {ts rest : List Tok} {a : α} {fuel : ℕ}

theorem run_bind (h : c ts = .ok (a, rest)) : (c >>= f) ts = f a rest := by
  simp [bind, StateT.bind, h, Except.bind]

theorem run_map {g : α → β} (h : c ts = .ok (a, rest)) : (g <$> c) ts = .ok (g a, rest) := by
  simp only [Functor.map, StateT.map, bind, h, Except.bind]
  rfl

theorem run_peek {set : List UInt8} :
    (peekTok set >>= k) ts = k (ts.head?.any fun t => t.lead.any set.contains) ts :=
  run_bind rfl

theorem run_next {k : Option Tok → TokParser β} : (nextTok >>= k) ts = k ts.head? ts.tail := run_bind rfl

theorem redirs_complete {rs : List Redir} (hr : ∀ op us, rest ≠ .redir op :: us)
    (hf : rs.length < fuel) : redirsTok fuel (redirsYield rs ++ rest) = .ok (rs, rest) := by
  induction rs generalizing fuel with
  | nil =>
      obtain ⟨fuel, rfl⟩ := Nat.exists_eq_add_one_of_ne_zero (Nat.ne_of_gt hf)
      rw [redirsTok, run_peek]
      cases rest with
      | nil => rfl
      | cons t us =>
          cases t with
          | redir op => exact absurd rfl (hr op us)
          | _ => rfl
  | cons r rs ih =>
      obtain ⟨fuel, rfl⟩ := Nat.exists_eq_add_one_of_ne_zero (Nat.ne_zero_of_lt hf)
      rw [List.length_cons] at hf
      obtain ⟨op, w⟩ := r
      have hin : (List.head? (redirsYield (⟨op, w⟩ :: rs) ++ rest)).any
          (fun t : Tok => t.lead.any [60, 62].contains) = true := by
        cases op <;> rfl
      rw [redirsTok, run_peek, hin, if_pos rfl, run_next, run_next]
      exact run_map (ih (by omega))

theorem backs_complete {amps : ℕ} (hr : ∀ us, rest ≠ .amp :: us) (hf : amps < fuel) :
    backsTok fuel (List.replicate amps .amp ++ rest) = .ok (amps, rest) := by
  induction amps generalizing fuel with
  | zero =>
      obtain ⟨fuel, rfl⟩ := Nat.exists_eq_add_one_of_ne_zero (Nat.ne_of_gt hf)
      rw [backsTok, run_peek]
      cases rest with
      | nil => rfl
      | cons t us =>
          cases t with
          | amp => exact absurd rfl (hr us)
          | redir op => cases op <;> rfl
          | _ => rfl
  | succ amps ih =>
      obtain ⟨fuel, rfl⟩ := Nat.exists_eq_add_one_of_ne_zero (Nat.ne_zero_of_lt hf)
      rw [backsTok, run_peek]
      exact (run_next (k := fun _ => Nat.succ <$> backsTok fuel)).trans (run_map (ih (by omega)))

/-- No redirection stands where an argument or the end of an `exec` does. -/
theorem args_not_redir {args : List (Word × List Redir)} (hr : execEnds rest = true) :
    ∀ op us, argsYield args ++ rest ≠ .redir op :: us := by
  intro op us h
  cases args with
  | nil =>
      have hrest : rest = .redir op :: us := h
      rw [hrest] at hr
      exact absurd hr Bool.false_ne_true
  | cons arg args => cases h

theorem args_complete (args : Args) {more : List (Word × List Redir)}
    (few : (args.1 ++ more).length < MAXARGS) (hr : execEnds rest = true)
    (hf : (argsYield more).length < fuel) :
    argsTok fuel args (argsYield more ++ rest) = .ok (⟨args.1 ++ more, few⟩, rest) := by
  induction more generalizing fuel args with
  | nil =>
      obtain ⟨fuel, rfl⟩ := Nat.exists_eq_add_one_of_ne_zero (Nat.ne_zero_of_lt hf)
      have hargs : args = ⟨args.1 ++ [], few⟩ := Subtype.ext (List.append_nil _).symm
      rw [argsTok, run_peek, ← hargs]
      unfold execEnds at hr
      split at hr <;> first | rfl | exact absurd hr Bool.false_ne_true
  | cons arg more ih =>
      obtain ⟨fuel, rfl⟩ := Nat.exists_eq_add_one_of_ne_zero (Nat.ne_zero_of_lt hf)
      obtain ⟨w, rs⟩ := arg
      have hlen : (argsYield ((w, rs) :: more)).length = 1 + 2 * rs.length +
          (argsYield more).length := by
        simp [argsYield, argYield, redirsYield, redirYield, Nat.mul_comm]
        omega
      have hyield : argsYield ((w, rs) :: more) ++ rest =
          .word w :: (redirsYield rs ++ (argsYield more ++ rest)) := by
        simp [argsYield, argYield]
      have few' : (args.1 ++ [(w, rs)] ++ more).length < MAXARGS := by
        rw [List.append_assoc]
        exact few
      have hlt : args.1.length + 1 < MAXARGS := by
        simp only [List.length_append, List.length_cons] at few
        omega
      have hargs : (⟨args.1 ++ (w, rs) :: more, few⟩ : Args) = ⟨args.1 ++ [(w, rs)] ++ more, few'⟩ :=
        Subtype.ext (List.append_cons args.1 (w, rs) more)
      rw [hyield, argsTok, run_peek]
      refine run_next.trans ?_
      dsimp only [List.head?_cons, List.tail_cons]
      rw [dif_pos hlt, run_bind (redirs_complete (args_not_redir hr) (by omega)), hargs]
      exact ih _ few' (by omega)

theorem simple_complete {redirs : List Redir} {args : List (Word × List Redir)}
    {few : args.length < MAXARGS} (hr : execEnds rest = true)
    (hf : (redirsYield redirs ++ argsYield args).length < fuel) :
    execTok (fuel + 1) ((Exec.simple redirs args few).yield ++ rest) =
      .ok (.simple redirs args few, rest) := by
  have hlen : (redirsYield redirs).length = 2 * redirs.length := by
    simp [redirsYield, redirYield, Nat.mul_comm]
  rw [List.length_append] at hf
  have hpeek : (Option.any (fun t : Tok => t.lead.any [40].contains)
      ((redirsYield redirs ++ (argsYield args ++ rest)).head?)) = false := by
    cases redirs with
    | cons r rs =>
        obtain ⟨op, w⟩ := r
        cases op <;> rfl
    | nil =>
        cases args with
        | cons arg args => rfl
        | nil =>
            unfold execEnds at hr
            split at hr <;> first | rfl | exact absurd hr Bool.false_ne_true
  rw [Exec.yield, List.append_assoc, execTok, run_peek, hpeek, if_neg Bool.false_ne_true,
    run_bind (redirs_complete (args_not_redir hr) (by omega)),
    run_bind (args_complete ⟨[], by decide⟩ few hr (by omega))]
  rfl

end complete

mutual
theorem Line.complete : (l : Line) → ∀ {fuel : ℕ} {rest : List Tok}, lineEnds rest = true →
    4 * (l.yield ++ rest).length + 4 ≤ fuel → lineTok fuel (l.yield ++ rest) = .ok (l, rest)
  | _, 0, _, _, hf => absurd hf (by omega)
  | .last p amps, fuel + 1, rest, hr, hf => by
      have hends : pipeEnds (List.replicate amps .amp ++ rest) = true := by
        cases amps with
        | succ amps => rfl
        | zero =>
            unfold lineEnds at hr
            split at hr <;> first | rfl | exact absurd hr Bool.false_ne_true
      have hamp : ∀ us, rest ≠ .amp :: us := by
        rintro us rfl
        exact absurd hr Bool.false_ne_true
      rw [Line.yield, List.append_assoc] at hf ⊢
      have hlen : amps ≤ (p.yield ++ (List.replicate amps Tok.amp ++ rest)).length := by
        rw [List.length_append, List.length_append, List.length_replicate]
        omega
      rw [lineTok, run_bind (Pipe.complete p hends (by omega)),
        run_bind (backs_complete hamp (by omega)), run_peek]
      unfold lineEnds at hr
      split at hr <;> first | rfl | exact absurd hr Bool.false_ne_true
  | .seq p amps l, fuel + 1, rest, hr, hf => by
      have hends : pipeEnds (List.replicate amps .amp ++ .semi :: (l.yield ++ rest)) = true := by
        cases amps <;> rfl
      have hamp : ∀ us, Tok.semi :: (l.yield ++ rest) ≠ .amp :: us := fun us h => by cases h
      have hyield : (Line.seq p amps l).yield ++ rest =
          p.yield ++ (List.replicate amps .amp ++ .semi :: (l.yield ++ rest)) := by
        simp [Line.yield]
      rw [hyield] at hf ⊢
      have hlen : (p.yield ++ (List.replicate amps Tok.amp ++ Tok.semi :: (l.yield ++ rest))).length =
          p.yield.length + (amps + ((l.yield ++ rest).length + 1)) := by
        rw [List.length_append, List.length_append, List.length_replicate, List.length_cons]
      rw [lineTok, run_bind (Pipe.complete p hends (by omega)),
        run_bind (backs_complete hamp (by omega)), run_peek]
      refine run_next.trans ?_
      rw [List.tail_cons, run_bind (Line.complete l hr (by omega))]
      rfl

theorem Pipe.complete : (p : Pipe) → ∀ {fuel : ℕ} {rest : List Tok}, pipeEnds rest = true →
    4 * (p.yield ++ rest).length + 3 ≤ fuel → pipeTok fuel (p.yield ++ rest) = .ok (p, rest)
  | _, 0, _, _, hf => absurd hf (by omega)
  | .one e, fuel + 1, rest, hr, hf => by
      rw [Pipe.yield] at hf ⊢
      rw [pipeTok, run_bind (Exec.complete e (execEnds_of_pipeEnds hr) (by omega)), run_peek]
      unfold pipeEnds at hr
      split at hr <;> first | rfl | exact absurd hr Bool.false_ne_true
  | .more e p, fuel + 1, rest, hr, hf => by
      have hyield : (Pipe.more e p).yield ++ rest = e.yield ++ .bar :: (p.yield ++ rest) := by
        simp [Pipe.yield]
      rw [hyield] at hf ⊢
      have hlen : (e.yield ++ .bar :: (p.yield ++ rest)).length =
          e.yield.length + ((p.yield ++ rest).length + 1) := by
        rw [List.length_append, List.length_cons]
      rw [pipeTok, run_bind (Exec.complete e rfl (by omega)), run_peek]
      refine run_next.trans ?_
      rw [List.tail_cons, run_bind (Pipe.complete p hr (by omega))]
      rfl

theorem Exec.complete : (e : Exec) → ∀ {fuel : ℕ} {rest : List Tok}, execEnds rest = true →
    4 * (e.yield ++ rest).length + 2 ≤ fuel → execTok fuel (e.yield ++ rest) = .ok (e, rest)
  | _, 0, _, _, hf => absurd hf (by omega)
  | _, 1, _, _, hf => absurd hf (by omega)
  | .simple redirs args few, fuel + 2, rest, hr, hf => by
      rw [List.length_append, Exec.yield] at hf
      exact simple_complete hr (by omega)
  | .block l redirs, fuel + 2, rest, hr, hf => by
      have hyield : (Exec.block l redirs).yield ++ rest =
          .lpar :: (l.yield ++ .rpar :: (redirsYield redirs ++ rest)) := by
        simp [Exec.yield]
      rw [hyield] at hf ⊢
      have hlen : redirs.length ≤ (redirsYield redirs ++ rest).length := by
        simp [redirsYield, redirYield]
        omega
      rw [List.length_cons] at hf
      have hle : (redirsYield redirs ++ rest).length ≤
          (l.yield ++ .rpar :: (redirsYield redirs ++ rest)).length := by
        rw [@List.length_append _ l.yield, List.length_cons]
        omega
      have hredir : ∀ op us, rest ≠ .redir op :: us := by
        rintro op us rfl
        exact absurd hr Bool.false_ne_true
      rw [execTok, run_peek]
      show blockTok (fuel + 1) _ = _
      rw [blockTok, run_peek]
      refine run_next.trans ?_
      rw [List.tail_cons, run_bind (Line.complete l rfl (by omega)), run_peek]
      refine run_next.trans ?_
      rw [List.tail_cons, run_bind (redirs_complete hredir (by omega))]
      rfl
end

/-- **A sequence of tokens has one derivation at most.** -/
theorem Line.yield_injective {l l' : Line} (h : l.yield = l'.yield) : l = l' := by
  have hl := @Line.complete l (4 * l.yield.length + 4) [] rfl (by simp)
  have hl' := @Line.complete l' (4 * l.yield.length + 4) [] rfl (by simp [h])
  rw [List.append_nil] at hl hl'
  rw [← h, hl] at hl'
  cases hl'
  rfl

end Xv6Cow.Sh

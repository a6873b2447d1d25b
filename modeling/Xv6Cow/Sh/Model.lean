import Mathlib.Data.Nat.Notation

/-! # The parser of the shell

The model of the parsing half of `user/sh.c`: the tokenizer `gettoken` and `peek`, the recursive
descent `parseline`, `parsepipe`, `parseredirs`, `parseblock`, `parseexec`, and `parsecmd` with
`nulterminate`, which writes the terminators into the line.

The line is a list of bytes with its terminating zero, and a `char *` into it is an index.  The
cursor `*ps` is the state of the parser.  A parser stops with a call of `panic`; with `fault` where
the code would read or write `argv` or `eargv` outside their bounds or follow a null pointer; or
with `fuel`, when the rounds it is given run out, which is not a thing the code does.  `malloc` does
not fail, so the constructors of a command are those of `Cmd`. -/

namespace Xv6Cow.Sh

def MAXARGS : ℕ := 10

def O_RDONLY : ℕ := 0x000

def O_WRONLY : ℕ := 0x001

def O_CREATE : ℕ := 0x200

def O_TRUNC : ℕ := 0x400

/-! ### Commands -/

/-- `struct execcmd`: the first byte of each argument and the byte after its last. -/
structure ExecCmd where
  argv : List (Option ℕ)
  eargv : List (Option ℕ)
  deriving DecidableEq, Repr

/-- `struct cmd` with what each of its types points to. -/
inductive Cmd where
  | exec (cmd : ExecCmd)
  | redir (cmd : Cmd) (file efile mode fd : ℕ)
  | pipe (left right : Cmd)
  | list (left right : Cmd)
  | back (cmd : Cmd)
  deriving DecidableEq, Repr

/-- The constructor `execcmd`: all pointers null. -/
def execcmd : ExecCmd := ⟨List.replicate MAXARGS none, List.replicate MAXARGS none⟩

/-- A change of the node that `parseexec` holds as `cmd`: the one below the redirections that it
has wrapped around it in `ret`. -/
def Cmd.atExec (f : ExecCmd → ExecCmd) : Cmd → Cmd
  | .exec cmd => .exec (f cmd)
  | .redir cmd file efile mode fd => .redir (cmd.atExec f) file efile mode fd
  | cmd => cmd

/-! ### Stops -/

/-- The calls of `panic`, which prints its text and exits. -/
inductive Panic where
  | missingFile
  | parseblock
  | missingParen
  | tooManyArgs
  | badToken
  | leftovers (s : ℕ)
  deriving DecidableEq, Repr

inductive Stop where
  | panic (p : Panic)
  | fault
  | fuel
  deriving DecidableEq, Repr

/-! ### Tokens -/

/-- The string constant `" \t\r\n\v"`. -/
def whitespace : List UInt8 := [32, 9, 13, 10, 11]

/-- The string constant `"<|>&;()"`. -/
def symbols : List UInt8 := [60, 124, 62, 38, 59, 40, 41]

/-- Whether `strchr` finds `c` in the string `s`, here without its terminator: the zero byte is
never found. -/
def strchr (s : List UInt8) (c : UInt8) : Bool := s.contains c

/-- `*s` for an index into the line. -/
def byteAt (m : List UInt8) (s : ℕ) : UInt8 := m.getD s 0

/-- `n` rounds of `while(p(*s)) s++`. -/
def scanFrom (p : UInt8 → Bool) (m : List UInt8) : ℕ → ℕ → ℕ
  | 0, s => s
  | n + 1, s => if p (byteAt m s) then scanFrom p m n (s + 1) else s

/-- `while(s < es && p(*s)) s++`. -/
def scan (p : UInt8 → Bool) (m : List UInt8) (es s : ℕ) : ℕ := scanFrom p m (es - s) s

/-- The test `strchr(whitespace, c)`. -/
def isSpace (c : UInt8) : Bool := strchr whitespace c

/-- The test of the loop that scans a word. -/
def isWord (c : UInt8) : Bool := !strchr whitespace c && !strchr symbols c

/-- What `gettoken` returns: its value, and what it stores through `q` and `eq`. -/
structure Got where
  ret : UInt8
  q : ℕ
  eq : ℕ
  deriving DecidableEq, Repr

/-- The `switch` of `gettoken` at the first byte of a token: the value, and the end of the token. -/
def tokenAt (m : List UInt8) (es s : ℕ) : UInt8 × ℕ :=
  let c := byteAt m s
  if c = 0 then (c, s)
  else if c = 124 ∨ c = 40 ∨ c = 41 ∨ c = 59 ∨ c = 38 ∨ c = 60 then (c, s + 1)
  else if c = 62 then
    if byteAt m (s + 1) = 62 then (43, s + 2) else (c, s + 1)
  else (97, scan isWord m es s)

abbrev Parser := StateT ℕ (Except Stop)

def gettoken (m : List UInt8) (es : ℕ) : Parser Got := do
  let s := scan isSpace m es (← get)
  let tok := tokenAt m es s
  set (scan isSpace m es tok.2)
  return ⟨tok.1, s, tok.2⟩

def peek (m : List UInt8) (es : ℕ) (toks : List UInt8) : Parser Bool := do
  let s := scan isSpace m es (← get)
  set s
  return byteAt m s != 0 && strchr toks (byteAt m s)

/-! ### Recursive descent -/

/-- The `switch` of `parseredirs`. -/
def redircmd (cmd : Cmd) (tok : UInt8) (q eq : ℕ) : Cmd :=
  if tok = 60 then .redir cmd q eq O_RDONLY 0
  else if tok = 62 then .redir cmd q eq (O_WRONLY ||| O_CREATE ||| O_TRUNC) 1
  else if tok = 43 then .redir cmd q eq (O_WRONLY ||| O_CREATE) 1
  else cmd

def parseredirs (m : List UInt8) (es : ℕ) : ℕ → Cmd → Parser Cmd
  | 0, _ => throw .fuel
  | fuel + 1, cmd => do
      if ← peek m es [60, 62] then
        let tok ← gettoken m es
        let file ← gettoken m es
        if file.ret ≠ 97 then throw (.panic .missingFile)
        else parseredirs m es fuel (redircmd cmd tok.ret file.q file.eq)
      else return cmd

/-- The loop of `parseline` over the `&` after a pipe. -/
def parsebacks (m : List UInt8) (es : ℕ) : ℕ → Cmd → Parser Cmd
  | 0, _ => throw .fuel
  | fuel + 1, cmd => do
      if ← peek m es [38] then
        let _ ← gettoken m es
        parsebacks m es fuel (.back cmd)
      else return cmd

/-- `cmd->argv[argc] = q; cmd->eargv[argc] = eq`. -/
def setArg (argc : ℕ) (q eq : Option ℕ) (ret : Cmd) : Parser Cmd :=
  if argc < MAXARGS then return ret.atExec fun cmd => ⟨cmd.argv.set argc q, cmd.eargv.set argc eq⟩
  else throw .fault

/-- The loop of `parseexec` over the arguments, and what follows it. -/
def parseargs (m : List UInt8) (es : ℕ) : ℕ → ℕ → Cmd → Parser Cmd
  | 0, _, _ => throw .fuel
  | fuel + 1, argc, ret => do
      if ← peek m es [124, 41, 38, 59] then setArg argc none none ret
      else
        let tok ← gettoken m es
        if tok.ret = 0 then setArg argc none none ret
        else if tok.ret ≠ 97 then throw (.panic .badToken)
        else
          let ret ← setArg argc (some tok.q) (some tok.eq) ret
          if argc + 1 ≥ MAXARGS then throw (.panic .tooManyArgs)
          else
            let ret ← parseredirs m es fuel ret
            parseargs m es fuel (argc + 1) ret

mutual
def parseline (m : List UInt8) (es : ℕ) : ℕ → Parser Cmd
  | 0 => throw .fuel
  | fuel + 1 => do
      let cmd ← parsepipe m es fuel
      let cmd ← parsebacks m es fuel cmd
      if ← peek m es [59] then
        let _ ← gettoken m es
        let right ← parseline m es fuel
        return .list cmd right
      else return cmd

def parsepipe (m : List UInt8) (es : ℕ) : ℕ → Parser Cmd
  | 0 => throw .fuel
  | fuel + 1 => do
      let cmd ← parseexec m es fuel
      if ← peek m es [124] then
        let _ ← gettoken m es
        let right ← parsepipe m es fuel
        return .pipe cmd right
      else return cmd

def parseexec (m : List UInt8) (es : ℕ) : ℕ → Parser Cmd
  | 0 => throw .fuel
  | fuel + 1 => do
      if ← peek m es [40] then parseblock m es fuel
      else
        let ret ← parseredirs m es fuel (.exec execcmd)
        parseargs m es fuel 0 ret

def parseblock (m : List UInt8) (es : ℕ) : ℕ → Parser Cmd
  | 0 => throw .fuel
  | fuel + 1 => do
      if ← peek m es [40] then
        let _ ← gettoken m es
        let cmd ← parseline m es fuel
        if ← peek m es [41] then
          let _ ← gettoken m es
          parseredirs m es fuel cmd
        else throw (.panic .missingParen)
      else throw (.panic .parseblock)
end

/-! ### The terminators -/

/-- The loop of `nulterminate` over the arguments: it ends at a null pointer in `argv`. -/
def cutArgs : List (Option ℕ) → List (Option ℕ) → List UInt8 → Except Stop (List UInt8)
  | [], _, _ => .error .fault
  | none :: _, _, m => .ok m
  | some _ :: argv, some eq :: eargv, m => cutArgs argv eargv (m.set eq 0)
  | some _ :: _, _, _ => .error .fault

def nulterminate : Cmd → List UInt8 → Except Stop (List UInt8)
  | .exec cmd, m => cutArgs cmd.argv cmd.eargv m
  | .redir cmd _ efile _ _, m => do
      let m ← nulterminate cmd m
      return m.set efile 0
  | .pipe left right, m => do
      let m ← nulterminate left m
      nulterminate right m
  | .list left right, m => do
      let m ← nulterminate left m
      nulterminate right m
  | .back cmd, m => nulterminate cmd m

/-- `strlen`: the number of bytes before the first zero. -/
def strlen (m : List UInt8) : ℕ := (m.takeWhile (· != 0)).length

/-- `parsecmd` on the line `m`: the command, and the line with its terminators. -/
def parsecmd (fuel : ℕ) (m : List UInt8) : Except Stop (Cmd × List UInt8) := do
  let es := strlen m
  let (cmd, s) ← parseline m es fuel 0
  let (_, s) ← peek m es [] s
  if s ≠ es then throw (.panic (.leftovers s))
  else
    let m ← nulterminate cmd m
    return (cmd, m)

end Xv6Cow.Sh

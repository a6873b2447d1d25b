import Xv6Cow.Fs.Model

/-! # Open files: `file.c`, and the calls that make and drop descriptors

The file table, the pages of the pipes, and the processes with their descriptors.  A pointer to a
`struct file` is its index, a pointer to a `struct pipe` the number of its page, and a null pointer
is `none`.  Calls run one after another.

What a call gets from elsewhere is an argument of it: the page that `kalloc` finds, whether the
copies to the user succeed, and the inode that `create` or `namei` finds for `open`, locked and with
a reference of its own (their own model is `Xv6Cow.Fs`).  Of an inode only that count of references
is kept here.  `allocs` and `frees` are not in the source: how often a page was given to a pipe, and
taken back. -/

namespace Xv6Cow.Fd

open Fs (NFILE NOFILE NPROC NDEV O_WRONLY O_RDWR)
open Function (update)

inductive FileType
  | none | pipe | inode | device
  deriving DecidableEq, Repr

/-- `struct file`; `off` and `major` are left out. -/
structure File where
  type : FileType := .none
  ref : ℕ := 0
  readable : Bool := false
  writable : Bool := false
  pipe : ℕ := 0
  ip : ℕ := 0

/-- The ends of a `struct pipe`. -/
structure Pipe where
  readopen : Bool
  writeopen : Bool
  deriving DecidableEq, Repr

/-- `used` stands for all states of a process between `allocproc` and `exit`. -/
inductive PState
  | unused | used | zombie
  deriving DecidableEq, Repr

structure Sys where
  ftable : ℕ → File
  pages : ℕ → Option Pipe
  allocs : ℕ → ℕ
  frees : ℕ → ℕ
  iref : ℕ → ℤ
  state : ℕ → PState
  ofile : ℕ → ℕ → Option ℕ

/-- The panics, and two faults that the kernel would not notice: a page that is freed twice, and a
pipe that is used after its page was freed. -/
inductive Fault
  | filedup | fileclose | initExiting | kfree | freedPipe
  deriving DecidableEq, Repr

abbrev FdM := StateT Sys (Except Fault)

namespace Sys

def setFile (s : Sys) (f : ℕ) (g : File) : Sys := { s with ftable := update s.ftable f g }

def setFd (s : Sys) (p fd : ℕ) (o : Option ℕ) : Sys :=
  { s with ofile := update s.ofile p (update (s.ofile p) fd o) }

def setState (s : Sys) (p : ℕ) (t : PState) : Sys := { s with state := update s.state p t }

def setPipe (s : Sys) (pi : ℕ) (q : Pipe) : Sys := { s with pages := update s.pages pi (some q) }

def setIref (s : Sys) (ip : ℕ) (d : ℤ) : Sys := { s with iref := update s.iref ip (s.iref ip + d) }

end Sys

/-- After `userinit`: the first process has no descriptors. -/
def boot : Sys where
  ftable _ := {}
  pages _ := none
  allocs _ := 0
  frees _ := 0
  iref _ := 0
  state p := if p = 0 then .used else .unused
  ofile _ _ := none

/-! ### Files and pipes -/

/-- `filealloc` -/
def filealloc : FdM (Option ℕ) := do
  let s ← get
  match (List.range NFILE).find? (fun f => (s.ftable f).ref = 0) with
  | none => pure none
  | some f => do
      set (s.setFile f { s.ftable f with ref := 1 })
      pure (some f)

/-- `filedup` -/
def filedup (f : ℕ) : FdM Unit := do
  let s ← get
  if (s.ftable f).ref < 1 then throw .filedup
  else set (s.setFile f { s.ftable f with ref := (s.ftable f).ref + 1 })

/-- The page that `kalloc` finds, if it finds one; it is filled with junk, so that no field is
zero. -/
def kalloc (page : Option ℕ) : FdM (Option ℕ) := do
  let s ← get
  match page with
  | none => pure none
  | some pi =>
      if (s.pages pi).isSome then pure none
      else do
        set { s.setPipe pi ⟨true, true⟩ with allocs := update s.allocs pi (s.allocs pi + 1) }
        pure (some pi)

/-- `kfree` of the page of a pipe. -/
def kfree (pi : ℕ) : FdM Unit := do
  let s ← get
  if (s.pages pi).isNone then throw .kfree
  else set { s with
    pages := update s.pages pi none
    frees := update s.frees pi (s.frees pi + 1) }

/-- One end is closed. -/
def Pipe.shut (q : Pipe) (writable : Bool) : Pipe :=
  if writable then { q with writeopen := false } else { q with readopen := false }

/-- `pipeclose` -/
def pipeclose (pi : ℕ) (writable : Bool) : FdM Unit := do
  let s ← get
  match s.pages pi with
  | none => throw .freedPipe
  | some q => do
      set (s.setPipe pi (q.shut writable))
      if (q.shut writable).readopen = false ∧ (q.shut writable).writeopen = false then kfree pi
        else pure ()

/-- What `iput` does to the count of references. -/
def iput (ip : ℕ) : FdM Unit := modify (fun s => s.setIref ip (-1))

/-- `fileclose` -/
def fileclose (f : ℕ) : FdM Unit := do
  let s ← get
  let ff := s.ftable f
  if ff.ref < 1 then throw .fileclose
  else if 0 < ff.ref - 1 then set (s.setFile f { ff with ref := ff.ref - 1 })
  else do
    set (s.setFile f { ff with ref := 0, type := .none })
    match ff.type with
    | .none => pure ()
    | .pipe => pipeclose ff.pipe ff.writable
    | .inode | .device => iput ff.ip

/-- `if(o) c(o);` -/
def ifSome (o : Option ℕ) (c : ℕ → FdM Unit) : FdM Unit :=
  match o with
  | none => pure ()
  | some x => c x

/-- The label `bad` of `pipealloc`. -/
def pipeallocBad (f0 f1 pi : Option ℕ) : FdM (Option (ℕ × ℕ)) := do
  ifSome pi kfree
  ifSome f0 fileclose
  ifSome f1 fileclose
  pure none

/-- `pipealloc` -/
def pipealloc (page : Option ℕ) : FdM (Option (ℕ × ℕ)) := do
  match ← filealloc with
  | none => pipeallocBad none none none
  | some f0 =>
      match ← filealloc with
      | none => pipeallocBad (some f0) none none
      | some f1 =>
          match ← kalloc page with
          | none => pipeallocBad (some f0) (some f1) none
          | some pi => do
              modify (fun s => s.setPipe pi ⟨true, true⟩)
              modify (fun s => s.setFile f0
                { s.ftable f0 with type := .pipe, readable := true, writable := false, pipe := pi })
              modify (fun s => s.setFile f1
                { s.ftable f1 with type := .pipe, readable := false, writable := true, pipe := pi })
              pure (some (f0, f1))

/-! ### Descriptors -/

def setFd (p fd : ℕ) (o : Option ℕ) : FdM Unit := modify (fun s => s.setFd p fd o)

/-- `argfd` -/
def argfd (p : ℕ) (fd : ℤ) : FdM (Option ℕ) := do
  let s ← get
  pure (if fd < 0 ∨ (NOFILE : ℤ) ≤ fd then none else s.ofile p fd.toNat)

/-- `fdalloc` -/
def fdalloc (p f : ℕ) : FdM (Option ℕ) := do
  let s ← get
  match (List.range NOFILE).find? (fun fd => s.ofile p fd = none) with
  | none => pure none
  | some fd => do
      setFd p fd (some f)
      pure (some fd)

/-- `sys_dup` -/
def sysDup (p : ℕ) (fd : ℤ) : FdM ℤ := do
  match ← argfd p fd with
  | none => pure (-1)
  | some f =>
      match ← fdalloc p f with
      | none => pure (-1)
      | some fd => do
          filedup f
          pure fd

/-- `sys_close` -/
def sysClose (p : ℕ) (fd : ℤ) : FdM ℤ := do
  match ← argfd p fd with
  | none => pure (-1)
  | some f => do
      setFd p fd.toNat none
      fileclose f
      pure 0

/-- The inode that `open` has found. -/
structure Found where
  ip : ℕ
  device : Bool
  major : ℤ

/-- `sys_open`; no inode is found also where the path cannot be read, and for a directory that is to
be written. -/
def sysOpen (p : ℕ) (found : Option Found) (omode : ℕ) : FdM ℤ := do
  match found with
  | none => pure (-1)
  | some i => do
      modify (fun s => s.setIref i.ip 1)
      if i.device ∧ (i.major < 0 ∨ NDEV ≤ i.major) then do
        iput i.ip
        pure (-1)
      else
        match ← filealloc with
        | none => do
            iput i.ip
            pure (-1)
        | some f =>
            match ← fdalloc p f with
            | none => do
                fileclose f
                iput i.ip
                pure (-1)
            | some fd => do
                modify (fun s => s.setFile f { s.ftable f with
                  type := if i.device then .device else .inode
                  ip := i.ip
                  readable := omode &&& O_WRONLY = 0
                  writable := omode &&& O_WRONLY ≠ 0 ∨ omode &&& O_RDWR ≠ 0 })
                pure fd

/-- `sys_pipe`; `ok0` and `ok1` tell whether its two copies to the user succeed. -/
def sysPipe (p : ℕ) (page : Option ℕ) (ok0 ok1 : Bool) : FdM ℤ := do
  match ← pipealloc page with
  | none => pure (-1)
  | some (rf, wf) =>
      match ← fdalloc p rf with
      | none => do
          fileclose rf
          fileclose wf
          pure (-1)
      | some fd0 =>
          match ← fdalloc p wf with
          | none => do
              setFd p fd0 none
              fileclose rf
              fileclose wf
              pure (-1)
          | some fd1 =>
              if ok0 ∧ ok1 then pure 0
              else do
                setFd p fd0 none
                setFd p fd1 none
                fileclose rf
                fileclose wf
                pure (-1)

/-! ### Processes -/

/-- The loop of `fork` over the descriptors: `m` of them from `i` on. -/
def forkFiles (p np : ℕ) : (m i : ℕ) → FdM Unit
  | 0, _ => pure ()
  | m + 1, i => do
      let s ← get
      match s.ofile p i with
      | none => forkFiles p np m (i + 1)
      | some f => do
          filedup f
          setFd np i (some f)
          forkFiles p np m (i + 1)

/-- `fork`; `ok` tells whether there is memory for the child.  The result is its slot. -/
def fork (p : ℕ) (ok : Bool) : FdM ℤ := do
  let s ← get
  match (List.range NPROC).find? (fun np => s.state np = .unused) with
  | none => pure (-1)
  | some np => do
      set (s.setState np .used)
      if ok then do
        forkFiles p np NOFILE 0
        pure np
      else do
        modify (fun s => s.setState np .unused)
        pure (-1)

/-- The loop of `exit` over the descriptors. -/
def exitFiles (p : ℕ) : (m fd : ℕ) → FdM Unit
  | 0, _ => pure ()
  | m + 1, fd => do
      let s ← get
      match s.ofile p fd with
      | none => exitFiles p m (fd + 1)
      | some f => do
          fileclose f
          setFd p fd none
          exitFiles p m (fd + 1)

/-- `exit`; `initproc` is process 0. -/
def exit (p : ℕ) : FdM ℤ := do
  if p = 0 then throw .initExiting
  else do
    exitFiles p NOFILE 0
    modify (fun s => s.setState p .zombie)
    pure 0

/-- `wait`, where it finds the zombie `np`. -/
def wait (np : ℕ) : FdM ℤ := do
  let s ← get
  if s.state np = .zombie then do
    set (s.setState np .unused)
    pure np
  else pure (-1)

/-- `exec` keeps the descriptors. -/
def exec (ok : Bool) : FdM ℤ := pure (if ok then 0 else -1)

/-! ### Runs -/

/-- The calls of process `p`. -/
inductive Op
  | open (p : ℕ) (found : Option Found) (omode : ℕ)
  | pipe (p : ℕ) (page : Option ℕ) (ok0 ok1 : Bool)
  | dup (p : ℕ) (fd : ℤ)
  | close (p : ℕ) (fd : ℤ)
  | fork (p : ℕ) (ok : Bool)
  | exit (p : ℕ)
  | wait (p np : ℕ)
  | exec (p : ℕ) (ok : Bool)

def Op.proc : Op → ℕ
  | .open p _ _ | .pipe p _ _ _ | .dup p _ | .close p _ | .fork p _ | .exit p | .wait p _
  | .exec p _ => p

def Op.call : Op → FdM ℤ
  | .open p found omode => sysOpen p found omode
  | .pipe p page ok0 ok1 => sysPipe p page ok0 ok1
  | .dup p fd => sysDup p fd
  | .close p fd => sysClose p fd
  | .fork p ok => Fd.fork p ok
  | .exit p => Fd.exit p
  | .wait _ np => Fd.wait np
  | .exec _ ok => Fd.exec ok

/-- There is a process to make the call. -/
def Op.can (s : Sys) (op : Op) : Prop := op.proc < NPROC ∧ s.state op.proc = .used

instance (s : Sys) (op : Op) : Decidable (op.can s) := inferInstanceAs (Decidable (_ ∧ _))

/-- One call; `none` if there is no process to make it, or the kernel faults. -/
def step (s : Sys) (op : Op) : Option Sys :=
  if op.can s then (op.call.run s).toOption.map Prod.snd else none

def Reachable (s : Sys) : Prop := ∃ ops, Runs.exec step boot ops = some s

end Xv6Cow.Fd

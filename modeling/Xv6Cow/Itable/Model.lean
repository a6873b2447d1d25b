import Xv6Cow.Fs.Model

/-! # Inodes shared by processes

The inode table, the sleep locks of its entries and the reservations of the log, as the system calls
of many processes use them at once.  A system call is a program (`Prog`) of commands, one for each
section under `itable.lock`, one for each `acquiresleep` and `releasesleep`, and one for each access
to an inode under its sleep lock; the commands of different processes interleave in any order.  A
pointer to an inode is the index of its entry.

An inode on disk has a type, links, and the entries of a directory, kept as a list without the empty
ones; the contents of other files are left out.  Of the log there is what `begin_op` and `end_op`
look at.  A process uses a `struct file` as long as its call lasts; which descriptors refer to it is
the subject of `Xv6Cow.Fd`, and here the last of them goes away only while no other process is using
the file.

Not in the source are `gen`, which numbers the inodes in the order in which `ialloc` allocated them,
and `own`, the pointers to inodes that a process has: in its local variables, and its current
directory. -/

namespace Xv6Cow.Itable

open Fs (NINODE NFILE NDEV O_RDONLY O_WRONLY O_RDWR O_CREATE O_TRUNC ROOTINO short)

def ROOTDEV : ℕ := 1

/-- `sb.ninodes`, as `mkfs` sets it. -/
def NINODES : ℕ := 200

inductive Name
  | dot | dotdot
  | name (n : ℕ)
  deriving DecidableEq, Repr

/-- `.` and `..` -/
def Name.isDot : Name → Bool
  | .name _ => false
  | _ => true

inductive IType
  | none | dir | file | device
  deriving DecidableEq, Repr

/-- `struct dinode` -/
structure Dinode where
  type : IType := .none
  major : ℤ := 0
  nlink : ℤ := 0
  data : List (Name × ℕ) := []
  gen : ℕ := 0
  deriving DecidableEq, Repr

/-- `struct inode`; `lock` is the process that holds the sleep lock. -/
structure Inode where
  dev : ℕ := 0
  inum : ℕ := 0
  ref : ℕ := 0
  lock : Option ℕ := none
  valid : Bool := false
  din : Dinode := {}
  deriving DecidableEq, Repr

/-- `struct file` of an inode. -/
structure File where
  ip : ℕ
  device : Bool
  readable : Bool
  writable : Bool
  deriving DecidableEq, Repr

/-- What a process still has to do in its call.  `k` is what comes after the command. -/
inductive Prog
  -- the call has returned; the process has exited; the kernel has panicked
  | ret
  | die
  | panic
  | beginOp (k : Prog)
  | endOp (k : Prog)
  | commit (k : Prog)
  | iget (dev inum : ℕ) (k : ℕ → Prog)
  | idup (ip : ℕ) (k : Prog)
  | ilock (ip : ℕ) (k : Prog)
  | iunlock (ip : ℕ) (k : Prog)
  -- the fields of a locked inode are read, or changed and written back with `iupdate`
  | inspect (ip : ℕ) (k : Inode → Prog)
  | update (ip : ℕ) (f : Dinode → Dinode) (k : Prog)
  | itrunc (ip : ℕ) (k : Prog)
  | writei (ip : ℕ) (k : Prog)
  | dirlookup (dp : ℕ) (name : Name) (k : Option ℕ → Prog)
  -- `writei` of a directory entry that names `ip`, and of an empty one
  | addEntry (dp : ℕ) (name : Name) (ip : ℕ) (k : Bool → Prog)
  | clearEntry (dp : ℕ) (name : Name) (k : Prog)
  -- `iput`; when it frees the inode: up to `iupdate`, `ip->valid = 0`, `releasesleep`, and `ip->ref--`
  | iput (ip : ℕ) (k : Prog)
  | free (ip : ℕ) (k : Prog)
  | invalidate (ip : ℕ) (k : Prog)
  | unlockFreed (ip : ℕ) (k : Prog)
  | decref (ip : ℕ) (k : Prog)
  -- `ialloc`: `m` inodes from `inum` on are left to look at; and its `iget`
  | ialloc (dev : ℕ) (type : IType) (m inum : ℕ) (k : Option ℕ → Prog)
  | igetNew (dev inum : ℕ) (k : Option ℕ → Prog)
  -- a file is opened on `ip`, used by a call, no longer used by it, closed
  | openFile (f : File) (k : Option ℕ → Prog)
  | useFile (f : ℕ) (k : Option File → Prog)
  | fileDone (k : Prog)
  | closeFile (f : ℕ) (k : Option ℕ → Prog)
  | setCwd (ip : ℕ) (k : Prog)

structure Proc where
  prog : Prog := .die
  cwd : ℕ := 0
  -- the process has called `begin_op`, and not yet `end_op`
  tx : Bool := false
  -- the file that its call uses
  busy : Option ℕ := none
  own : Multiset ℕ := 0

structure Sys where
  disk : ℕ → ℕ → Dinode
  clock : ℕ
  itable : ℕ → Inode
  file : ℕ → Option File
  proc : ℕ → Proc
  -- `log.outstanding`, `log.lh.n` and `log.committing`
  outstanding : ℕ
  lh : ℕ
  committing : Bool

/-! ### The system calls -/

/-- `iunlockput` -/
def iunlockput (ip : ℕ) (k : Prog) : Prog := .iunlock ip (.iput ip k)

/-- The loop of `namex`. -/
def namexFrom (parent : Bool) : (elems : List Name) → (ip : ℕ) → (name : Name) →
    (k : Option (ℕ × Name) → Prog) → Prog
  | [], ip, name, k => if parent then .iput ip (k none) else k (some (ip, name))
  | e :: elems, ip, _, k =>
      .ilock ip (.inspect ip fun i =>
        if i.din.type ≠ .dir then iunlockput ip (k none)
        else if parent && elems.isEmpty then .iunlock ip (k (some (ip, e)))
        else .dirlookup ip e fun
          | none => iunlockput ip (k none)
          | some next => iunlockput ip (namexFrom parent elems next e k))

/-- A path: whether it starts with a slash, and its elements. -/
structure Path where
  abs : Bool
  elems : List Name
  deriving DecidableEq, Repr

/-- `namex` -/
def namex (cwd : ℕ) (path : Path) (parent : Bool) (k : Option (ℕ × Name) → Prog) : Prog :=
  if path.abs then .iget ROOTDEV ROOTINO fun ip => namexFrom parent path.elems ip .dot k
  else .idup cwd (namexFrom parent path.elems cwd .dot k)

/-- `namei` -/
def namei (cwd : ℕ) (path : Path) (k : Option ℕ → Prog) : Prog :=
  namex cwd path false fun r => k (r.map Prod.fst)

/-- `nameiparent` -/
def nameiparent (cwd : ℕ) (path : Path) (k : Option (ℕ × Name) → Prog) : Prog := namex cwd path true k

/-- `dirlink` -/
def dirlink (dp : ℕ) (name : Name) (ip : ℕ) (k : Bool → Prog) : Prog :=
  .dirlookup dp name fun
    | some p => .iput p (k false)
    | none => .addEntry dp name ip k

/-- The label `fail` of `create`. -/
def createFail (dp ip : ℕ) (k : Option ℕ → Prog) : Prog :=
  .update ip (fun d => { d with nlink := 0 }) (iunlockput ip (iunlockput dp (k none)))

/-- The end of `create`: the entry in the directory. -/
def createLink (dp : ℕ) (name : Name) (type : IType) (ip : ℕ) (k : Option ℕ → Prog) : Prog :=
  dirlink dp name ip fun
    | false => createFail dp ip k
    | true =>
        if type = .dir then
          .update dp (fun d => { d with nlink := short (d.nlink + 1) }) (iunlockput dp (k (some ip)))
        else iunlockput dp (k (some ip))

/-- `create` -/
def create (cwd : ℕ) (path : Path) (type : IType) (major : ℤ) (k : Option ℕ → Prog) : Prog :=
  nameiparent cwd path fun
    | none => k none
    | some (dp, name) => .ilock dp (.dirlookup dp name fun
        | some ip => iunlockput dp (.ilock ip (.inspect ip fun i =>
            if type = .file ∧ (i.din.type = .file ∨ i.din.type = .device) then k (some ip)
            else iunlockput ip (k none)))
        | none => .inspect dp fun d => .ialloc d.dev type (NINODES - 1) 1 fun
            | none => iunlockput dp (k none)
            | some ip => .ilock ip (.update ip (fun d => { d with major := major, nlink := 1 })
                (if type = .dir then
                  dirlink ip .dot ip fun
                    | false => createFail dp ip k
                    | true => dirlink ip .dotdot dp fun
                        | false => createFail dp ip k
                        | true => createLink dp name type ip k
                else createLink dp name type ip k)))

/-- The label `bad` of `sys_link`. -/
def linkBad (ip : ℕ) : Prog :=
  .ilock ip (.update ip (fun d => { d with nlink := short (d.nlink - 1) }) (iunlockput ip (.endOp .ret)))

/-- `sys_link` -/
def sysLink (cwd : ℕ) (old new : Path) : Prog :=
  .beginOp (namei cwd old fun
    | none => .endOp .ret
    | some ip => .ilock ip (.inspect ip fun i =>
        if i.din.type = .dir then iunlockput ip (.endOp .ret)
        else .update ip (fun d => { d with nlink := short (d.nlink + 1) }) (.iunlock ip
          (nameiparent cwd new fun
            | none => linkBad ip
            | some (dp, name) => .ilock dp (.inspect dp fun d =>
                if d.dev ≠ i.dev then iunlockput dp (linkBad ip)
                else dirlink dp name ip fun
                  | false => iunlockput dp (linkBad ip)
                  | true => iunlockput dp (.iput ip (.endOp .ret)))))))

/-- `isdirempty` -/
def isdirempty (d : Dinode) : Bool := (d.data.drop 2).isEmpty

/-- The end of `sys_unlink`: the entry is cleared, and the links are counted. -/
def unlinkTail (dp : ℕ) (name : Name) (ip : ℕ) (i : Inode) : Prog :=
  .clearEntry dp name
    (if i.din.type = .dir then .update dp (fun d => { d with nlink := short (d.nlink - 1) }) rest
      else rest)
where
  rest : Prog := iunlockput dp (.update ip (fun d => { d with nlink := short (d.nlink - 1) })
    (iunlockput ip (.endOp .ret)))

/-- `sys_unlink` -/
def sysUnlink (cwd : ℕ) (path : Path) : Prog :=
  .beginOp (nameiparent cwd path fun
    | none => .endOp .ret
    | some (dp, name) => .ilock dp
        (if name.isDot then iunlockput dp (.endOp .ret)
        else .dirlookup dp name fun
          | none => iunlockput dp (.endOp .ret)
          | some ip => .ilock ip (.inspect ip fun i =>
              if i.din.nlink < 1 then .panic
              else if i.din.type = .dir ∧ isdirempty i.din = false then iunlockput ip
                (iunlockput dp (.endOp .ret))
              else unlinkTail dp name ip i)))

/-- The end of `sys_open`, from the test of the device number on. -/
def openTail (ip omode : ℕ) : Prog :=
  .inspect ip fun i =>
    if i.din.type = .device ∧ (i.din.major < 0 ∨ NDEV ≤ i.din.major) then iunlockput ip (.endOp .ret)
    else .openFile ⟨ip, i.din.type = .device, omode &&& O_WRONLY = 0, omode &&& O_WRONLY ≠ 0 ∨
        omode &&& O_RDWR ≠ 0⟩ fun
      | none => iunlockput ip (.endOp .ret)
      | some _ =>
          if omode &&& O_TRUNC ≠ 0 ∧ i.din.type = .file then .itrunc ip
            (.iunlock ip (.endOp (.fileDone .ret)))
          else .iunlock ip (.endOp (.fileDone .ret))

/-- `sys_open` -/
def sysOpen (cwd : ℕ) (path : Path) (omode : ℕ) : Prog :=
  .beginOp
    (if omode &&& O_CREATE ≠ 0 then
      create cwd path .file 0 fun
        | none => .endOp .ret
        | some ip => openTail ip omode
    else
      namei cwd path fun
        | none => .endOp .ret
        | some ip => .ilock ip (.inspect ip fun i =>
            if i.din.type = .dir ∧ omode ≠ O_RDONLY then iunlockput ip (.endOp .ret)
              else openTail ip omode))

/-- `sys_mkdir`, and `sys_mknod` with the type of a device. -/
def sysMake (cwd : ℕ) (path : Path) (type : IType) (major : ℤ) : Prog :=
  .beginOp (create cwd path type major fun
    | none => .endOp .ret
    | some ip => iunlockput ip (.endOp .ret))

/-- `sys_chdir` -/
def sysChdir (cwd : ℕ) (path : Path) : Prog :=
  .beginOp (namei cwd path fun
    | none => .endOp .ret
    | some ip => .ilock ip (.inspect ip fun i =>
        if i.din.type ≠ .dir then iunlockput ip (.endOp .ret)
        else .iunlock ip (.iput cwd (.endOp (.setCwd ip .ret)))))

/-- `fileread` -/
def fileread (f : ℕ) : Prog :=
  .useFile f fun
    | none => .ret
    | some f =>
        if f.readable = false ∨ f.device then .fileDone .ret
        else .ilock f.ip (.inspect f.ip fun _ => .iunlock f.ip (.fileDone .ret))

/-- `filestat` -/
def filestat (f : ℕ) : Prog :=
  .useFile f fun
    | none => .ret
    | some f => .ilock f.ip (.inspect f.ip fun _ => .iunlock f.ip (.fileDone .ret))

/-- The loop of `filewrite`, for `m` transactions. -/
def filewriteLoop (ip : ℕ) : ℕ → Prog
  | 0 => .fileDone .ret
  | m + 1 => .beginOp (.ilock ip (.writei ip (.iunlock ip (.endOp (filewriteLoop ip m)))))

/-- `filewrite` -/
def filewrite (f m : ℕ) : Prog :=
  .useFile f fun
    | none => .ret
    | some f => if f.writable = false ∨ f.device then .fileDone .ret else filewriteLoop f.ip m

/-- `fileclose` -/
def fileclose (f : ℕ) (k : Prog) : Prog :=
  .closeFile f fun
    | none => k
    | some ip => .beginOp (.iput ip (.endOp k))

/-- What `exec` does to the inode of the program. -/
def exec (cwd : ℕ) (path : Path) : Prog :=
  .beginOp (namei cwd path fun
    | none => .endOp .ret
    | some ip => .ilock ip (.inspect ip fun _ => iunlockput ip (.endOp .ret)))

/-- `exit`; `files` are the files of its descriptors. -/
def exit (cwd : ℕ) (files : List ℕ) : Prog := files.foldr fileclose (.beginOp (.iput cwd (.endOp .die)))

/-- The system calls; a file is given by its index in the file table. -/
inductive Call
  | open (path : Path) (omode : ℕ)
  | mkdir (path : Path)
  | mknod (path : Path) (major : ℤ)
  | link (old new : Path)
  | unlink (path : Path)
  | chdir (path : Path)
  | read (f : ℕ)
  | write (f m : ℕ)
  | fstat (f : ℕ)
  | close (f : ℕ)
  | exec (path : Path)
  | exit (files : List ℕ)
  deriving DecidableEq, Repr

def Call.prog (cwd : ℕ) : Call → Prog
  | .open path omode => sysOpen cwd path omode
  | .mkdir path => sysMake cwd path .dir 0
  | .mknod path major => sysMake cwd path .device major
  | .link old new => sysLink cwd old new
  | .unlink path => sysUnlink cwd path
  | .chdir path => sysChdir cwd path
  | .read f => fileread f
  | .write f m => filewrite f m
  | .fstat f => filestat f
  | .close f => fileclose f .ret
  | .exec path => Itable.exec cwd path
  | .exit files => Itable.exit cwd files

/-! ### One command -/

namespace Sys

def setProc (s : Sys) (t : ℕ) (q : Proc) : Sys := { s with proc := Function.update s.proc t q }

/-- Process `t` goes on with `k`. -/
def goto (s : Sys) (t : ℕ) (k : Prog) : Sys := s.setProc t { s.proc t with prog := k }

/-- Process `t` goes on with `k`, and has the pointers `own`. -/
def goOwn (s : Sys) (t : ℕ) (own : Multiset ℕ) (k : Prog) : Sys :=
  s.setProc t { s.proc t with own := own, prog := k }

def setEntry (s : Sys) (ip : ℕ) (i : Inode) : Sys := { s with itable := Function.update s.itable ip i }

def setDisk (s : Sys) (dev inum : ℕ) (d : Dinode) : Sys :=
  { s with disk := Function.update s.disk dev (Function.update (s.disk dev) inum d) }

/-- The inode on disk that entry `ip` is about. -/
def dinode (s : Sys) (ip : ℕ) : Dinode := s.disk (s.itable ip).dev (s.itable ip).inum

/-- The fields of a locked inode change, in memory and on disk; `w` blocks are new in the log. -/
def change (s : Sys) (ip : ℕ) (d : Dinode) (w : ℕ) : Sys :=
  { (s.setEntry ip { s.itable ip with din := d }).setDisk (s.itable ip).dev (s.itable ip).inum d with
    lh := s.lh + w }

end Sys

/-- `iget`: the entry, and the table afterwards. -/
def igetEntry (s : Sys) (dev inum : ℕ) : Option (ℕ × Inode) :=
  match (List.range NINODE).find? fun k => 0 < (s.itable k).ref ∧ (s.itable k).dev = dev ∧
    (s.itable k).inum = inum with
  | some k => some (k, { s.itable k with ref := (s.itable k).ref + 1 })
  | none =>
      match (List.range NINODE).find? fun k => (s.itable k).ref = 0 with
      | none => none
      | some k => some (k, { s.itable k with dev := dev, inum := inum, ref := 1, valid := false })

/-- Process `t` gets a pointer by `iget`, and goes on with `k`. -/
def igetStep (s : Sys) (t dev inum : ℕ) (k : ℕ → Prog) : Option Sys :=
  match igetEntry s dev inum with
  | none => none
  | some (ip, i) => some ((s.setEntry ip i).goOwn t (ip ::ₘ (s.proc t).own) (k ip))

/-- The inode that a directory names. -/
def lookup (d : Dinode) (name : Name) : Option ℕ := (d.data.find? fun e => e.1 = name).map Prod.snd

/-- The entry is freed by `iput`, not only dropped. -/
def frees (s : Sys) (ip : ℕ) : Prop :=
  (s.itable ip).ref = 1 ∧ (s.itable ip).valid = true ∧ (s.itable ip).din.nlink = 0

instance (s : Sys) (ip : ℕ) : Decidable (frees s ip) := inferInstanceAs (Decidable (_ ∧ _))

/-- `log.lh.n + (log.outstanding+1)*MAXOPBLOCKS > LOGSIZE` -/
def logFull (s : Sys) : Prop := Log.LOGSIZE < s.lh + (s.outstanding + 1) * Log.MAXOPBLOCKS

instance (s : Sys) : Decidable (logFull s) := inferInstanceAs (Decidable (_ < _))

/-- A file that another process than `t` uses. -/
def usedByOther (N : ℕ) (s : Sys) (t f : ℕ) : Prop := ∃ u < N, u ≠ t ∧ (s.proc u).busy = some f

instance (N : ℕ) (s : Sys) (t f : ℕ) : Decidable (usedByOther N s t f) :=
  inferInstanceAs (Decidable (∃ u < N, _))

/-- One command of process `t`; `none` if it has to wait, or if the kernel panics (the other
processes may go on here, so that there are more runs than the kernel has).  `ok` tells whether
there is room where the command needs some, and for `closeFile` whether this was the last
descriptor; `w` is the number of blocks that a write adds to the log. -/
def run (N : ℕ) (s : Sys) (t : ℕ) (ok : Bool) (w : ℕ) : Option Sys :=
  match (s.proc t).prog with
  | .ret => none
  | .die => none
  | .panic => none
  | .beginOp k =>
      if s.committing ∨ logFull s then none
      else some { s.setProc t { s.proc t with prog := k, tx := true } with
        outstanding := s.outstanding + 1 }
  | .endOp k =>
      if s.outstanding - 1 = 0 then
        some { s.setProc t { s.proc t with prog := .commit k, tx := false } with
          outstanding := s.outstanding - 1, committing := true }
      else some { s.setProc t { s.proc t with prog := k, tx := false } with
        outstanding := s.outstanding - 1 }
  | .commit k => some { s.goto t k with lh := 0, committing := false }
  | .iget dev inum k => igetStep s t dev inum k
  | .idup ip k =>
      some ((s.setEntry ip { s.itable ip with ref := (s.itable ip).ref + 1 }).goOwn t
        (ip ::ₘ (s.proc t).own) k)
  | .ilock ip k =>
      if (s.itable ip).ref < 1 then none
      else if (s.itable ip).lock ≠ none then none
      else if (s.itable ip).valid then some
        ((s.setEntry ip { s.itable ip with lock := some t }).goto t k)
      else if (s.dinode ip).type = .none then none
      else some
        ((s.setEntry ip { s.itable ip with lock := some t, valid := true, din := s.dinode ip }).goto t k)
  | .iunlock ip k =>
      if (s.itable ip).lock ≠ some t ∨ (s.itable ip).ref < 1 then none
      else some ((s.setEntry ip { s.itable ip with lock := none }).goto t k)
  | .inspect ip k => some (s.goto t (k (s.itable ip)))
  | .update ip f k => some ((s.change ip (f (s.itable ip).din) w).goto t k)
  | .itrunc ip k => some ((s.change ip { (s.itable ip).din with data := [] } w).goto t k)
  | .writei _ k => some ({ s with lh := s.lh + w }.goto t k)
  | .dirlookup dp name k =>
      if (s.itable dp).din.type ≠ .dir then none
      else
        match lookup (s.itable dp).din name with
        | none => some (s.goto t (k none))
        | some inum => igetStep s t (s.itable dp).dev inum fun ip => k (some ip)
  | .addEntry dp name ip k =>
      if ok then
        some ((s.change dp { (s.itable dp).din with
          data := (s.itable dp).din.data ++ [(name, (s.itable ip).inum)] } w).goto t (k true))
      else some (s.goto t (k false))
  | .clearEntry dp name k =>
      some ((s.change dp { (s.itable dp).din with
        data := (s.itable dp).din.data.eraseP fun e => e.1 = name } w).goto t k)
  | .iput ip k =>
      if frees s ip then
        if (s.itable ip).lock ≠ none then none
        else some ((s.setEntry ip { s.itable ip with lock := some t }).goto t (.free ip k))
      else
        some ((s.setEntry ip { s.itable ip with ref := (s.itable ip).ref - 1 }).goOwn t
          ((s.proc t).own.erase ip) k)
  | .free ip k =>
      some ((s.change ip { (s.itable ip).din with type := .none, data := [] } w).goto t
        (.invalidate ip k))
  | .invalidate ip k =>
      some ((s.setEntry ip { s.itable ip with valid := false }).goto t (.unlockFreed ip k))
  | .unlockFreed ip k => some ((s.setEntry ip { s.itable ip with lock := none }).goto t (.decref ip k))
  | .decref ip k =>
      some ((s.setEntry ip { s.itable ip with ref := (s.itable ip).ref - 1 }).goOwn t
        ((s.proc t).own.erase ip) k)
  | .ialloc dev type m inum k =>
      match m with
      | 0 => some (s.goto t (k none))
      | m + 1 =>
          if (s.disk dev inum).type = .none then
            some ({ s.setDisk dev inum { type := type, gen := s.clock } with
              clock := s.clock + 1, lh := s.lh + w }.goto t (.igetNew dev inum k))
          else some (s.goto t (.ialloc dev type m (inum + 1) k))
  | .igetNew dev inum k => igetStep s t dev inum fun ip => k (some ip)
  | .openFile f k =>
      match (List.range NFILE).find? fun x => (s.file x).isNone with
      | none => some (s.goto t (k none))
      | some x =>
          if ok then
            some ({ s with file := Function.update s.file x (some f) }.setProc t
              { s.proc t with own := (s.proc t).own.erase f.ip, busy := some x, prog := k (some x) })
          else some (s.goto t (k none))
  | .useFile f k =>
      match s.file f with
      | none => some (s.goto t (k none))
      | some g => some (s.setProc t { s.proc t with busy := some f, prog := k (some g) })
  | .fileDone k => some (s.setProc t { s.proc t with busy := none, prog := k })
  | .closeFile f k =>
      match s.file f with
      | none => some (s.goto t (k none))
      | some g =>
          if ok ∧ ¬ usedByOther N s t f then
            some ({ s with file := Function.update s.file f none }.goOwn t (g.ip ::ₘ (s.proc t).own)
              (k (some g.ip)))
          else some (s.goto t (k none))
  | .setCwd ip k => some (s.setProc t { s.proc t with cwd := ip, prog := k })

/-- What happens next: a process makes a call, forks a process, or goes on. -/
inductive Act
  | call (t : ℕ) (c : Call)
  | fork (t u : ℕ)
  | run (t : ℕ) (ok : Bool) (w : ℕ)
  deriving DecidableEq, Repr

/-- The call has returned. -/
def Prog.isRet : Prog → Bool
  | .ret => true
  | _ => false

/-- There is no process. -/
def Prog.isDie : Prog → Bool
  | .die => true
  | _ => false

/-- One step of one of `N` processes; of `fork` there is the `idup` of the current directory. -/
def step (N : ℕ) (s : Sys) : Act → Option Sys
  | .call t c => if t < N ∧ (s.proc t).prog.isRet then some (s.goto t (c.prog (s.proc t).cwd)) else none
  | .fork t u =>
      if t < N ∧ u < N ∧ (s.proc t).prog.isRet ∧ (s.proc u).prog.isDie then
        some ((s.setEntry (s.proc t).cwd
            { s.itable (s.proc t).cwd with ref := (s.itable (s.proc t).cwd).ref + 1 }).setProc u
          { prog := .ret, cwd := (s.proc t).cwd, own := {(s.proc t).cwd} })
      else none
  | .run t ok w => if t < N then run N s t ok w else none

/-- A disk whose directories form a tree, numbered from the root on: an entry other than `.` and
`..` names no directory that is older than the one it is in. -/
structure Formatted (disk : ℕ → ℕ → Dinode) (clock : ℕ) : Prop where
  gen : ∀ dev i, (disk dev i).gen < clock
  tree : ∀ dev i e, (disk dev i).type = .dir → e ∈ (disk dev i).data → e.1.isDot = false →
    (disk dev e.2).type = .dir → (disk dev i).gen < (disk dev e.2).gen
  free : ∀ dev i, (disk dev i).type = .none → (disk dev i).nlink = 0
  root : (disk ROOTDEV ROOTINO).type = .dir

/-- After `userinit`: the first process has the root directory as its current directory. -/
def boot (disk : ℕ → ℕ → Dinode) (clock : ℕ) : Sys where
  disk := disk
  clock := clock
  itable k := if k = 0 then { dev := ROOTDEV, inum := ROOTINO, ref := 1 } else {}
  file _ := none
  proc t := if t = 0 then { prog := .ret, cwd := 0, own := {0} } else {}
  outstanding := 0
  lh := 0
  committing := false

end Xv6Cow.Itable

import Xv6Cow.Kernel.Replace
import Xv6Cow.Fs.Namei

/-! # `exec` on the memory and the file system: `exec.c` and `sys_exec`

`Xv6Cow.Kernel` runs `exec` for a file whose contents are given, and `Xv6Cow.Fs` has the paths, the
inodes and the operations of the log.  Here `exec` runs on both: it finds the inode with `namei`,
locks it, reads the headers and the segments with `readi`, and puts the inode back at the point
where the source does, in the middle of the call or after the jump to `bad`.

The state has besides the sleep lock of each entry of the inode table and the name of each process.
The locks that `namei` and `iput` take are released before they return, and are left out as in
`Xv6Cow.Fs`. -/

namespace Xv6Cow.Exec

open Vm (Layout VmM Mach PGSIZE PTE_W pgroundup walkaddr memput uvmalloc uvmclear)
open Kernel (KState KM Proc ELFHDR_SIZE PROGHDR_SIZE ELF_MAGIC ELF_PROG_LOAD USERSTACK MAXPATH
    MAXARG TF_A1 TF_EPC TF_SP field)
open Fs (FsState FsM SLASH)

/-- The state of the kernel, the file system, the sleep locks of the inode table and the names of
the processes. -/
structure XState where
  kernel : KState
  fs : FsState
  locked : ℕ → Bool
  name : ℕ → List UInt8

/-- Why the call does not return: a panic, or a lock that is never released. -/
inductive Stop
  | vm (e : Vm.Panic)
  | fs (e : Fs.Panic)
  | iunlock
  | asleep
  deriving DecidableEq, Repr

abbrev XM := StateT XState (Except Stop)

/-- Run code of `Xv6Cow.Kernel`. -/
def kernel {α : Type} (c : KM α) : XM α := embed XState.kernel (fun x k => { x with kernel := k }) .vm c

/-- Run code of `Xv6Cow.Fs`. -/
def fs {α : Type} (c : FsM α) : XM α := embed XState.fs (fun x s => { x with fs := s }) .fs c

/-- Run code on the machine. -/
def vm {α : Type} (c : VmM α) : XM α := kernel (Kernel.vm c)

/-! ### Inodes -/

/-- `acquiresleep(&ip->lock)`, which sleeps if the lock is taken. -/
def acquiresleep (ip : ℕ) : XM Unit := do
  let x ← get
  if x.locked ip then throw .asleep else set { x with locked := Function.update x.locked ip true }

/-- `ilock` -/
def ilock (ip : ℕ) : XM Unit := do
  acquiresleep ip
  fs (Fs.ilock ip)

/-- `iunlock` -/
def iunlock (ip : ℕ) : XM Unit := do
  let x ← get
  if !x.locked ip ∨ (x.fs.itable ip).ref < 1 then throw .iunlock
  else set { x with locked := Function.update x.locked ip false }

/-- `iunlockput` -/
def iunlockput (ip : ℕ) : XM Unit := do
  iunlock ip
  fs (Fs.iput ip)

/-- `readi` into kernel memory. -/
def readi (ip off n : ℕ) : XM (ℤ × List UInt8) := fs (Fs.readi ip off n n)

section exec
variable [Layout]

/-! ### `exec.c` -/

/-- The loop of `loadseg`: `k` pages, from byte `i` of the segment on. -/
def loadsegFrom (pagetable va ip offset sz : ℕ) : (k i : ℕ) → XM ℤ
  | 0, _ => pure 0
  | k + 1, i => do
      let pa ← vm (walkaddr pagetable (va + i))
      if pa = 0 then throw (.vm .loadseg)
      else do
        let n := min (sz - i) PGSIZE
        let (r, bs) ← readi ip ((offset + i) % 2 ^ 32) n
        vm (memput pa bs)
        if r ≠ n then pure (-1) else loadsegFrom pagetable va ip offset sz k (i + PGSIZE)

/-- `loadseg` -/
def loadseg (pagetable va ip offset sz : ℕ) : XM ℤ :=
  loadsegFrom pagetable va ip offset sz ((sz + (PGSIZE - 1)) / PGSIZE) 0

/-- The part of the loop of `exec` for a header `ph` that is to be loaded: false if it jumps to
`bad`, and `sz`. -/
def execSeg (pagetable ip : ℕ) (ph : List UInt8) (sz : ℕ) : XM (Bool × ℕ) :=
  let vaddr := field ph 16 8
  let filesz := field ph 32 8
  let memsz := field ph 40 8
  if memsz < filesz ∨ (vaddr + memsz) % 2 ^ 64 < vaddr ∨ vaddr % PGSIZE ≠ 0 then pure (false, sz)
  else do
    let sz1 ← vm (uvmalloc pagetable sz ((vaddr + memsz) % 2 ^ 64) (Kernel.flags2perm (field ph 4 4)))
    if sz1 = 0 then pure (false, sz)
    else do
      let r ← loadseg pagetable vaddr ip (field ph 8 8 % 2 ^ 32) (filesz % 2 ^ 32)
      pure (decide (0 ≤ r), sz1)

/-- The loop of `exec` over `n` program headers from offset `off` on. -/
def execSegs (pagetable ip : ℕ) : (n off sz : ℕ) → XM (Bool × ℕ)
  | 0, _, sz => pure (true, sz)
  | n + 1, off, sz => do
      let (r, ph) ← readi ip off PROGHDR_SIZE
      if r ≠ PROGHDR_SIZE then pure (false, sz)
      else if field ph 0 4 ≠ ELF_PROG_LOAD then
        execSegs pagetable ip n ((off + PROGHDR_SIZE) % 2 ^ 32) sz
      else do
        let (ok, sz) ← execSeg pagetable ip ph sz
        if ok then execSegs pagetable ip n ((off + PROGHDR_SIZE) % 2 ^ 32) sz else pure (false, sz)

/-- `bad`, with a page table or 0 and an inode or none. -/
def bad (pagetable sz : ℕ) (ip : Option ℕ) : XM ℤ := do
  if pagetable ≠ 0 then vm (Kernel.procFreepagetable pagetable sz)
  match ip with
  | some ip => do
      iunlockput ip
      fs Fs.endOp
      pure (-1)
  | none => pure (-1)

/-- The loop that looks for the last element of the path. -/
def lastFrom : (s last : List UInt8) → List UInt8
  | [], last => last
  | c :: s, last => lastFrom s (if c = SLASH then s else last)

/-- The size of `p->name`. -/
def NAME_SIZE : ℕ := 16

/-- What `safestrcpy` puts into `p->name`. -/
def nameOf (path : List UInt8) : List UInt8 := (lastFrom path path).take (NAME_SIZE - 1)

/-- The part of `exec` after the inode has been put back; `entry` is the first instruction. -/
def execRest (i : ℕ) (path : List UInt8) (argv : List ℕ) (entry pagetable sz : ℕ) : XM ℤ := do
  let p ← kernel (Kernel.getProc i)
  let sz := pgroundup sz
  let sz1 ← vm (uvmalloc pagetable sz (sz + (USERSTACK + 1) * PGSIZE) PTE_W)
  if sz1 = 0 then bad pagetable sz none
  else do
    vm (uvmclear pagetable (sz1 - (USERSTACK + 1) * PGSIZE))
    match ← vm (Kernel.execStack (some p.pagetable) pagetable sz1 argv) with
    | none => bad pagetable sz1 none
    | some (sp, argc) => do
        vm (Kernel.stword (p.trapframe + TF_A1) sp)
        modify (fun x => { x with name := Function.update x.name i (nameOf path) })
        kernel (Kernel.modifyProc i (fun p => { p with pagetable := pagetable, sz := sz1 }))
        vm (Kernel.stword (p.trapframe + TF_EPC) entry)
        vm (Kernel.stword (p.trapframe + TF_SP) sp)
        vm (Kernel.procFreepagetable p.pagetable p.sz)
        pure argc

/-- `exec` from the first `readi` on, with the inode locked. -/
def execFile (i : ℕ) (path : List UInt8) (ip : ℕ) (argv : List ℕ) : XM ℤ := do
  let (r, elf) ← readi ip 0 ELFHDR_SIZE
  if r ≠ ELFHDR_SIZE then bad 0 0 (some ip)
  else if field elf 0 4 ≠ ELF_MAGIC then bad 0 0 (some ip)
  else do
    let p ← kernel (Kernel.getProc i)
    let pagetable ← vm (Kernel.procPagetable p.trapframe)
    if pagetable = 0 then bad 0 0 (some ip)
    else do
      let (ok, sz) ← execSegs pagetable ip (field elf 56 2) (field elf 32 8 % 2 ^ 32) 0
      if !ok then bad pagetable sz (some ip)
      else do
        iunlockput ip
        fs Fs.endOp
        execRest i path argv (field elf 24 8) pagetable sz

/-- `exec`, by the process in slot `i`. -/
def exec (i : ℕ) (path : List UInt8) (argv : List ℕ) : XM ℤ := do
  fs Fs.beginOp
  match ← fs (Fs.namei i path) with
  | none => do
      fs Fs.endOp
      pure (-1)
  | some ip => do
      ilock ip
      execFile i path ip argv

/-- `sys_exec`, by the process in slot `i`. -/
def sysExec (i upath uargv : ℕ) : XM ℤ := do
  let p ← kernel (Kernel.getProc i)
  let (r, path) ← vm (Vm.copyinstr p.pagetable upath MAXPATH)
  if r < 0 then pure (-1)
  else do
    let (ok, argv) ← vm (Kernel.fetchArgs p uargv MAXARG [])
    let ret ← if ok then exec i path.dropLast argv else pure (-1)
    vm (Kernel.freeArgs argv)
    pure ret

end exec

end Xv6Cow.Exec

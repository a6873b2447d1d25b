import Xv6Cow.Vm.Model

/-! # Processes: `proc.c`, `exec.c`, `usertrap`, `sys_exec` and `pipe.c`

The kernel state is the machine, the process table and the pages that the kernel holds outside the
process table: `held` for direct holders of `kalloc` pages (page tables and stacks of the kernel,
disk rings) and `pipes` for the pages of open pipes.  A process is known by its slot in
`proc[NPROC]`.

The operations run one at a time, each by the process that is current.  Locks, the scheduler, open
files, the working directory and the name of a process do not appear; a `wait` that finds no zombie
leaves the state as it is, which is what the process sees until it is woken.  The files that `exec`
reads and the outcome of `filealloc` are parameters of the operation. -/

namespace Xv6Cow.Kernel

open Vm

/-- `NPROC`. -/
def NPROC : ℕ := 64

/-- `MAXARG`. -/
def MAXARG : ℕ := 32

/-- `MAXPATH`. -/
def MAXPATH : ℕ := 128

/-- `USERSTACK`. -/
def USERSTACK : ℕ := 1

/-- `enum procstate`. -/
inductive ProcState
  | unused | used | sleeping | runnable | running | zombie
  deriving DecidableEq, Repr

/-- `struct proc`. -/
structure Proc where
  state : ProcState := .unused
  killed : Bool := false
  xstate : ℤ := 0
  pid : ℕ := 0
  parent : Option ℕ := none
  sz : ℕ := 0
  pagetable : ℕ := 0
  trapframe : ℕ := 0
  deriving DecidableEq, Repr

/-- The state of the kernel. -/
structure KState where
  mach : Mach
  procs : ℕ → Proc
  nextpid : ℕ
  initproc : Option ℕ
  held : List ℕ
  pipes : List ℕ

/-- Kernel code. -/
abbrev KM := StateT KState (Except Panic)

/-- Run code of the virtual-memory system. -/
def vm {α : Type} (c : VmM α) : KM α := zoom KState.mach (fun s m => { s with mach := m }) c

/-- `*p` of slot `i`. -/
def getProc (i : ℕ) : KM Proc := do
  let s ← get
  pure (s.procs i)

/-- Change the fields of slot `i`. -/
def modifyProc (i : ℕ) (g : Proc → Proc) : KM Unit :=
  modify (fun s => { s with procs := Function.update s.procs i (g (s.procs i)) })

/-- Store a 64-bit field of a structure. -/
def stword (a v : ℕ) : VmM Unit := modify (fun s => { s with mem := s.mem.setLe a 8 v })

/-- Store a 32-bit field of a structure. -/
def stint (a v : ℕ) : VmM Unit := modify (fun s => { s with mem := s.mem.setLe a 4 v })

/-- The offsets of `epc`, `sp`, `a0` and `a1` in `struct trapframe`, and its size. -/
def TF_EPC : ℕ := 24
def TF_SP : ℕ := 48
def TF_A0 : ℕ := 112
def TF_A1 : ℕ := 120
def TF_SIZE : ℕ := 288

section kernel
variable [Layout]

/-! ### `proc.c` -/

/-- `allocpid`, for a counter that does not overflow; what its overflow does is in `Proc.thread`. -/
def allocpid : KM ℕ := do
  let s ← get
  set { s with nextpid := s.nextpid + 1 }
  pure s.nextpid

/-- `proc_pagetable`, for a process with the given trapframe. -/
def procPagetable (trapframe : ℕ) : VmM ℕ := do
  let pagetable ← uvmcreate
  if pagetable = 0 then pure 0
  else do
    let r ← mappages pagetable TRAMPOLINE PGSIZE trampoline (PTE_R ||| PTE_X)
    if r < 0 then do
      uvmfree pagetable 0
      pure 0
    else do
      let r ← mappages pagetable TRAPFRAME PGSIZE trapframe (PTE_R ||| PTE_W)
      if r < 0 then do
        uvmunmap pagetable TRAMPOLINE 1 false
        uvmfree pagetable 0
        pure 0
      else pure pagetable

/-- `proc_freepagetable`. -/
def procFreepagetable (pagetable sz : ℕ) : VmM Unit := do
  uvmunmap pagetable TRAMPOLINE 1 false
  uvmunmap pagetable TRAPFRAME 1 false
  uvmfree pagetable sz

/-- `freeproc`. -/
def freeproc (i : ℕ) : KM Unit := do
  let p ← getProc i
  if p.trapframe ≠ 0 then vm (kfree p.trapframe)
  if p.pagetable ≠ 0 then vm (procFreepagetable p.pagetable p.sz)
  modifyProc i (fun _ => {})

/-- The first slot that is `UNUSED`. -/
def findUnused (procs : ℕ → Proc) : Option ℕ :=
  (List.range NPROC).find? (fun i => (procs i).state = .unused)

/-- `allocproc`. -/
def allocproc : KM (Option ℕ) := do
  let s ← get
  match findUnused s.procs with
  | none => pure none
  | some i => do
      let pid ← allocpid
      modifyProc i (fun p => { p with pid := pid, state := .used })
      let trapframe ← vm kalloc
      modifyProc i (fun p => { p with trapframe := trapframe })
      if trapframe = 0 then do
        freeproc i
        pure none
      else do
        let pagetable ← vm (procPagetable trapframe)
        modifyProc i (fun p => { p with pagetable := pagetable })
        if pagetable = 0 then do
          freeproc i
          pure none
        else pure (some i)

/-- `initcode`. -/
def initcode : List UInt8 := [
  0x17, 0x05, 0x00, 0x00, 0x13, 0x05, 0x45, 0x02,
  0x97, 0x05, 0x00, 0x00, 0x93, 0x85, 0x35, 0x02,
  0x93, 0x08, 0x70, 0x00, 0x73, 0x00, 0x00, 0x00,
  0x93, 0x08, 0x20, 0x00, 0x73, 0x00, 0x00, 0x00,
  0xef, 0xf0, 0x9f, 0xff, 0x2f, 0x69, 0x6e, 0x69,
  0x74, 0x00, 0x00, 0x24, 0x00, 0x00, 0x00, 0x00,
  0x00, 0x00, 0x00, 0x00]

/-- `userinit`; the result of `allocproc` is used without a check. -/
def userinit : KM Unit := do
  match ← allocproc with
  | none => throw .kerneltrap
  | some i => do
      modify (fun s => { s with initproc := some i })
      let p ← getProc i
      vm (uvmfirst p.pagetable initcode)
      modifyProc i (fun p => { p with sz := PGSIZE })
      vm (stword (p.trapframe + TF_EPC) 0)
      vm (stword (p.trapframe + TF_SP) PGSIZE)
      modifyProc i (fun p => { p with state := .runnable })

/-- `growproc`, for the process in slot `i`; `sz + n` is an unsigned sum. -/
def growproc (i : ℕ) (n : ℤ) : KM ℤ := do
  let p ← getProc i
  if n > 0 then do
    let sz ← vm (uvmalloc p.pagetable p.sz (p.sz + n.toNat) PTE_W)
    if sz = 0 then pure (-1)
    else do
      modifyProc i (fun p => { p with sz := sz })
      pure 0
  else if n < 0 then do
    let sz ← vm (uvmdealloc p.pagetable p.sz ((p.sz + n) % 2 ^ 64).toNat)
    modifyProc i (fun p => { p with sz := sz })
    pure 0
  else pure 0

/-- The first half of `fork`, up to `uvmcopy`: the new slot and the result of `uvmcopy`. -/
def forkCopy (i : ℕ) : KM (Option (ℕ × ℤ)) := do
  match ← allocproc with
  | none => pure none
  | some np => do
      let p ← getProc i
      let c ← getProc np
      let r ← vm (uvmcopy p.pagetable c.pagetable p.sz)
      pure (some (np, r))

/-- `fork`, by the process in slot `i`. -/
def fork (i : ℕ) : KM ℤ := do
  match ← forkCopy i with
  | none => pure (-1)
  | some (np, r) =>
      if r < 0 then do
        freeproc np
        pure (-1)
      else do
        let p ← getProc i
        let c ← getProc np
        modifyProc np (fun c => { c with sz := p.sz })
        vm (memmove c.trapframe p.trapframe TF_SIZE)
        vm (stword (c.trapframe + TF_A0) 0)
        modifyProc np (fun c => { c with parent := some i, state := .runnable })
        pure c.pid

/-- The body of the loop of `reparent`. -/
def Proc.adopt (i : ℕ) (initproc : Option ℕ) (p : Proc) : Proc :=
  if p.parent = some i then { p with parent := initproc } else p

/-- `reparent`. -/
def reparent (i : ℕ) : KM Unit :=
  modify (fun s => { s with procs := fun j => (s.procs j).adopt i s.initproc })

/-- `exit`, by the process in slot `i`. -/
def exit (i : ℕ) (status : ℤ) : KM Unit := do
  let s ← get
  if s.initproc = some i then throw .initExiting
  else do
    reparent i
    modifyProc i (fun p => { p with xstate := status, state := .zombie })

/-- The bytes of an `int`. -/
def intBytes (v : ℤ) : List UInt8 :=
  (List.range 4).map (fun k => UInt8.ofNat ((v % 2 ^ 32).toNat / 256 ^ k))

/-- One scan of `wait`, by the process in slot `i`; no result if the process has to sleep. -/
def wait (i addr : ℕ) : KM (Option ℤ) := do
  let s ← get
  let p := s.procs i
  match (List.range NPROC).find? (fun j => (s.procs j).parent = some i ∧
    (s.procs j).state = .zombie) with
  | some j => do
      let pp := s.procs j
      let r ← if addr ≠ 0 then vm (copyout (some p.pagetable) p.pagetable addr (intBytes pp.xstate))
        else pure 0
      if r < 0 then pure (some (-1))
      else do
        freeproc j
        pure (some pp.pid)
  | none =>
      if (∀ j < NPROC, (s.procs j).parent ≠ some i) ∨ p.killed = true then pure (some (-1))
        else pure none

/-! ### `exec.c` -/

/-- `readi` from a regular file into kernel memory: the bytes it copies. -/
def readi (file : List UInt8) (off n : ℕ) : List UInt8 :=
  if off > file.length ∨ (off + n) % 2 ^ 32 < off then [] else (file.drop off).take n

/-- The little-endian field of `n` bytes at offset `off` of a structure. -/
def field (bs : List UInt8) (off n : ℕ) : ℕ := Bytes.le (fun k => bs.getD k 0) off n

/-- `ELF_MAGIC`, the sizes of `struct elfhdr` and `struct proghdr`, and `ELF_PROG_LOAD`. -/
def ELF_MAGIC : ℕ := 0x464C457F
def ELFHDR_SIZE : ℕ := 64
def PROGHDR_SIZE : ℕ := 56
def ELF_PROG_LOAD : ℕ := 1

/-- `flags2perm`. -/
def flags2perm (flags : ℕ) : Pte :=
  (if flags.testBit 0 then PTE_X else 0) ||| (if flags.testBit 1 then PTE_W else 0)

/-- The loop of `loadseg`: `k` pages, from byte `i` of the segment on. -/
def loadsegFrom (pagetable va : ℕ) (file : List UInt8) (offset sz : ℕ) : (k i : ℕ) → VmM ℤ
  | 0, _ => pure 0
  | k + 1, i => do
      let pa ← walkaddr pagetable (va + i)
      if pa = 0 then throw .loadseg
      else do
        let n := min (sz - i) PGSIZE
        let bs := readi file ((offset + i) % 2 ^ 32) n
        memput pa bs
        if bs.length ≠ n then pure (-1) else loadsegFrom pagetable va file offset sz k (i + PGSIZE)

/-- `loadseg`. -/
def loadseg (pagetable va : ℕ) (file : List UInt8) (offset sz : ℕ) : VmM ℤ :=
  loadsegFrom pagetable va file offset sz ((sz + (PGSIZE - 1)) / PGSIZE) 0

/-- The part of the loop of `exec` for a header `ph` that is to be loaded: false if it jumps to
`bad`, and `sz`. -/
def execSeg (pagetable : ℕ) (file ph : List UInt8) (sz : ℕ) : VmM (Bool × ℕ) :=
  let vaddr := field ph 16 8
  let filesz := field ph 32 8
  let memsz := field ph 40 8
  if memsz < filesz ∨ (vaddr + memsz) % 2 ^ 64 < vaddr ∨ vaddr % PGSIZE ≠ 0 then pure (false, sz)
  else do
    let sz1 ← uvmalloc pagetable sz ((vaddr + memsz) % 2 ^ 64) (flags2perm (field ph 4 4))
    if sz1 = 0 then pure (false, sz)
    else do
      let r ← loadseg pagetable vaddr file (field ph 8 8 % 2 ^ 32) (filesz % 2 ^ 32)
      pure (decide (0 ≤ r), sz1)

/-- The loop of `exec` over `n` program headers from offset `off` on. -/
def execSegs (pagetable : ℕ) (file : List UInt8) : (n off sz : ℕ) → VmM (Bool × ℕ)
  | 0, _, sz => pure (true, sz)
  | n + 1, off, sz =>
      let ph := readi file off PROGHDR_SIZE
      if ph.length ≠ PROGHDR_SIZE then pure (false, sz)
      else if field ph 0 4 ≠ ELF_PROG_LOAD then execSegs pagetable file n
        ((off + PROGHDR_SIZE) % 2 ^ 32) sz
      else do
        let (ok, sz) ← execSeg pagetable file ph sz
        if ok then execSegs pagetable file n ((off + PROGHDR_SIZE) % 2 ^ 32) sz else pure (false, sz)

/-- The string that starts at `a`, within a page. -/
def strAt (m : Bytes) (a : ℕ) : List UInt8 := (m.read a PGSIZE).takeWhile (fun b => b != 0)

/-- `a - b` on `uint64`. -/
def sub64 (a b : ℕ) : ℕ := (a + 2 ^ 64 - b) % 2 ^ 64

/-- `sp -= n; sp -= sp % 16`. -/
def push (sp n : ℕ) : ℕ := sub64 sp n - sub64 sp n % 16

/-- The loop of `exec` over the argument strings: the stack pointer and `ustack`. -/
def execArgs (cur : Option ℕ) (pagetable stackbase : ℕ) : (argv : List ℕ) → (sp : ℕ) →
    (ustack : List ℕ) → VmM (Option (ℕ × List ℕ))
  | [], sp, ustack => pure (some (sp, ustack))
  | arg :: argv, sp, ustack =>
      if MAXARG ≤ ustack.length then pure none
      else do
        let s ← get
        let str := strAt s.mem arg
        let sp := push sp (str.length + 1)
        if sp < stackbase then pure none
        else do
          let r ← copyout cur pagetable sp (str ++ [0])
          if r < 0 then pure none else execArgs cur pagetable stackbase argv sp (ustack ++ [sp])

/-- The bytes of an array of `uint64`. -/
def wordBytes (ws : List ℕ) : List UInt8 :=
  ws.flatMap (fun w => (List.range 8).map (fun k => UInt8.ofNat (w / 256 ^ k)))

/-- The part of `exec` after the stack is mapped: the arguments; the stack pointer and `argc`. -/
def execStack (cur : Option ℕ) (pagetable sz : ℕ) (argv : List ℕ) : VmM (Option (ℕ × ℕ)) := do
  let stackbase := sz - USERSTACK * PGSIZE
  match ← execArgs cur pagetable stackbase argv sz [] with
  | none => pure none
  | some (sp, ustack) => do
      let sp := push sp ((ustack.length + 1) * 8)
      if sp < stackbase then pure none
      else do
        let r ← copyout cur pagetable sp (wordBytes (ustack ++ [0]))
        if r < 0 then pure none else pure (some (sp, ustack.length))

/-- What `exec` commits to: the new page table, its size, the stack pointer and `argc`. -/
structure NewImage where
  pagetable : ℕ
  sz : ℕ
  sp : ℕ
  argc : ℕ
  deriving DecidableEq, Repr

/-- `exec` from `proc_pagetable` on, for a file with a good header: the new image, or none after
`bad`. -/
def execImage (cur : Option ℕ) (trapframe : ℕ) (file : List UInt8) (argv : List ℕ) :
    VmM (Option NewImage) := do
  let elf := readi file 0 ELFHDR_SIZE
  let pagetable ← procPagetable trapframe
  if pagetable = 0 then pure none
  else do
    let (ok, sz) ← execSegs pagetable file (field elf 56 2) (field elf 32 8 % 2 ^ 32) 0
    if !ok then do
      procFreepagetable pagetable sz
      pure none
    else do
      let sz := pgroundup sz
      let sz1 ← uvmalloc pagetable sz (sz + (USERSTACK + 1) * PGSIZE) PTE_W
      if sz1 = 0 then do
        procFreepagetable pagetable sz
        pure none
      else do
        uvmclear pagetable (sz1 - (USERSTACK + 1) * PGSIZE)
        match ← execStack cur pagetable sz1 argv with
        | none => do
            procFreepagetable pagetable sz1
            pure none
        | some (sp, argc) => pure (some ⟨pagetable, sz1, sp, argc⟩)

/-- `exec`, by the process in slot `i`; `file` is what `namei` found. -/
def exec (i : ℕ) (file : Option (List UInt8)) (argv : List ℕ) : KM ℤ := do
  match file with
  | none => pure (-1)
  | some file =>
      let elf := readi file 0 ELFHDR_SIZE
      if elf.length ≠ ELFHDR_SIZE then pure (-1)
      else if field elf 0 4 ≠ ELF_MAGIC then pure (-1)
      else do
        let p ← getProc i
        match ← vm (execImage (some p.pagetable) p.trapframe file argv) with
        | none => pure (-1)
        | some new => do
            vm (stword (p.trapframe + TF_A1) new.sp)
            modifyProc i (fun p => { p with pagetable := new.pagetable, sz := new.sz })
            vm (stword (p.trapframe + TF_EPC) (field elf 24 8))
            vm (stword (p.trapframe + TF_SP) new.sp)
            vm (procFreepagetable p.pagetable p.sz)
            pure new.argc

/-- `fetchaddr`: the word at `addr` of the process `p`. -/
def fetchaddr (p : Proc) (addr : ℕ) : VmM (Option ℕ) :=
  if p.sz ≤ addr ∨ p.sz < (addr + 8) % 2 ^ 64 then pure none
  else do
    let (r, bs) ← copyin p.pagetable addr 8
    if r ≠ 0 then pure none else pure (some (field bs 0 8))

/-- The loop of `sys_exec`, with `k` places left in `argv`: false if it jumps to `bad`, and
`argv`. -/
def fetchArgs (p : Proc) (uargv : ℕ) : (k : ℕ) → (argv : List ℕ) → VmM (Bool × List ℕ)
  | 0, argv => pure (false, argv)
  | k + 1, argv => do
      match ← fetchaddr p ((uargv + 8 * argv.length) % 2 ^ 64) with
      | none => pure (false, argv)
      | some uarg =>
          if uarg = 0 then pure (true, argv)
          else do
            let page ← kalloc
            if page = 0 then pure (false, argv)
            else do
              let (r, bs) ← copyinstr p.pagetable uarg PGSIZE
              memput page bs
              if r < 0 then pure (false, argv ++ [page]) else fetchArgs p uargv k (argv ++ [page])

/-- The loop of `sys_exec` that frees the argument pages. -/
def freeArgs : List ℕ → VmM Unit
  | [] => pure ()
  | page :: argv => do
      kfree page
      freeArgs argv

/-- `sys_exec`, by the process in slot `i`; `namei` gives the contents of the file at a path. -/
def sysExec (i upath uargv : ℕ) (namei : List UInt8 → Option (List UInt8)) : KM ℤ := do
  let p ← getProc i
  let (r, path) ← vm (copyinstr p.pagetable upath MAXPATH)
  if r < 0 then pure (-1)
  else do
    let (ok, argv) ← vm (fetchArgs p uargv MAXARG [])
    let ret ← if ok then exec i (namei path.dropLast) argv else pure (-1)
    vm (freeArgs argv)
    pure ret

/-! ### User instructions and `usertrap` -/

/-- The translation of a user access at `va`: the physical address, if the entry has `flags`. -/
def translate (pagetable va : ℕ) (flags : Pte) : VmM (Option ℕ) :=
  if MAXVA ≤ va then pure none
  else do
    let pte ← walk pagetable va false
    if pte = 0 then pure none
    else do
      let e ← ldpte pte
      if has e PTE_V && has e PTE_U && has e flags then pure (some (pte2pa e + va % PGSIZE))
        else pure none

/-- A store instruction: true if it completes, false if it faults. -/
def storeByte (pagetable va : ℕ) (b : UInt8) : VmM Bool := do
  match ← translate pagetable va PTE_W with
  | none => pure false
  | some pa => do
      memput pa [b]
      pure true

/-- A load instruction, or none if it faults. -/
def loadByte (pagetable va : ℕ) : VmM (Option UInt8) := do
  match ← translate pagetable va PTE_R with
  | none => pure none
  | some pa => do
      let s ← get
      pure (some (s.mem pa))

/-- The end of `usertrap` for a process that was killed in it. -/
def usertrapKill (i : ℕ) : KM Unit := do
  modifyProc i (fun p => { p with killed := true })
  exit i (-1)

/-- A store with the page fault it may take: `usertrap` with `scause` 15 calls `handle_cow_fault`,
and the instruction is retried if that succeeds; false if it fails. -/
def storeFault (pagetable va : ℕ) (b : UInt8) : VmM Bool := do
  let ok ← storeByte pagetable va b
  if ok then pure true
  else do
    let r ← handleCowFault (some pagetable) va
    if r ≠ 0 then pure false
    else do
      let _ ← storeByte pagetable va b
      pure true

/-- A store by the process in slot `i`. -/
def store (i va : ℕ) (b : UInt8) : KM Unit := do
  let p ← getProc i
  let ok ← vm (storeFault p.pagetable va b)
  if ok then pure () else usertrapKill i

/-- A load by the process in slot `i`: a fault kills the process. -/
def load (i va : ℕ) : KM (Option UInt8) := do
  let p ← getProc i
  match ← vm (loadByte p.pagetable va) with
  | some b => pure (some b)
  | none => do
      usertrapKill i
      pure none

/-! ### `pipe.c` -/

/-- The offsets in `struct pipe`. -/
def PI_NREAD : ℕ := 536
def PI_NWRITE : ℕ := 540
def PI_READOPEN : ℕ := 544
def PI_WRITEOPEN : ℕ := 548

/-- `pipealloc`; `f0` and `f1` say whether the two calls of `filealloc` succeed. -/
def pipealloc (f0 f1 : Bool) : KM ℤ :=
  if !f0 || !f1 then pure (-1)
  else do
    let pi ← vm kalloc
    if pi = 0 then pure (-1)
    else do
      vm (stint (pi + PI_READOPEN) 1)
      vm (stint (pi + PI_WRITEOPEN) 1)
      vm (stint (pi + PI_NWRITE) 0)
      vm (stint (pi + PI_NREAD) 0)
      modify (fun s => { s with pipes := pi :: s.pipes })
      pure 0

/-- `pipeclose`. -/
def pipeclose (pi : ℕ) (writable : Bool) : KM Unit := do
  vm (stint (pi + if writable then PI_WRITEOPEN else PI_READOPEN) 0)
  let s ← get
  if s.mach.mem.le (pi + PI_READOPEN) 4 = 0 ∧ s.mach.mem.le (pi + PI_WRITEOPEN) 4 = 0 then do
    vm (kfree pi)
    modify (fun s => { s with pipes := s.pipes.erase pi })
  else pure ()

/-! ### The system -/

/-- The operations of the system. -/
inductive Op
  | fork (i : ℕ)
  | load (i va : ℕ)
  | store (i va : ℕ) (b : UInt8)
  | copyout (i dstva : ℕ) (src : List UInt8)
  | copyin (i srcva len : ℕ)
  | growproc (i : ℕ) (n : ℤ)
  | exec (i upath uargv : ℕ) (namei : List UInt8 → Option (List UInt8))
  | exit (i : ℕ) (status : ℤ)
  | wait (i addr : ℕ)
  | pipe (f0 f1 : Bool)
  | pipeclose (pi : ℕ) (writable : Bool)
  | kalloc
  | kfree (p : ℕ)
  | kwrite (p off : ℕ) (bs : List UInt8)

/-- Run a system call or an instruction of the process in slot `i`, if there is one that runs. -/
def byProc {α : Type} (i : ℕ) (c : KM α) : KM Unit := do
  let p ← getProc i
  if i < NPROC ∧ p.state = .runnable then do
    let _ ← c
    pure ()
  else pure ()

/-- Perform an operation. -/
def perform : Op → KM Unit
  | .fork i => byProc i (fork i)
  | .load i va => byProc i (load i va)
  | .store i va b => byProc i (store i va b)
  | .copyout i dstva src => byProc i (do
      let p ← getProc i
      vm (copyout (some p.pagetable) p.pagetable dstva src))
  | .copyin i srcva len => byProc i (do
      let p ← getProc i
      vm (copyin p.pagetable srcva len))
  | .growproc i n => byProc i (growproc i n)
  | .exec i upath uargv namei => byProc i (sysExec i upath uargv namei)
  | .exit i status => byProc i (exit i status)
  | .wait i addr => byProc i (wait i addr)
  | .pipe f0 f1 => do
      let _ ← pipealloc f0 f1
      pure ()
  | .pipeclose pi writable => do
      let s ← get
      if pi ∈ s.pipes then pipeclose pi writable else pure ()
  | .kalloc => do
      let p ← vm kalloc
      if p = 0 then pure () else modify (fun s => { s with held := p :: s.held })
  | .kfree p => do
      let s ← get
      if p ∈ s.held then do
        vm (kfree p)
        modify (fun s => { s with held := s.held.erase p })
      else pure ()
  | .kwrite p off bs => do
      let s ← get
      if p ∈ s.held ∧ off + bs.length ≤ PGSIZE then vm (memput (p + off) bs) else pure ()

/-- The kernel's own pages, taken by `main` before `userinit`; a failure is fatal there. -/
def holdPages : ℕ → KM Unit
  | 0 => pure ()
  | n + 1 => do
      let p ← vm kalloc
      if p = 0 then throw .kerneltrap
      else do
        modify (fun s => { s with held := p :: s.held })
        holdPages n

/-- The machine at power-on, with memory `m`. -/
def powerOn (m : Bytes) : KState :=
  { mach := { mem := m, refcnt := fun _ => 0, freelist := 0, allocs := [] }
    procs := fun _ => {}, nextpid := 1, initproc := none, held := [], pipes := [] }

/-- `main`: `n` pages for the kernel itself, and the first process. -/
def boot (n : ℕ) : KM Unit := do
  vm kinit
  holdPages n
  userinit

/-- One step of the system; none if the kernel panics. -/
def step (s : KState) (op : Op) : Option KState := ((perform op).run s).toOption.map Prod.snd

end kernel

end Xv6Cow.Kernel

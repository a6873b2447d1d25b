import Xv6Cow.Kernel.Model
import Xv6Cow.Vm.Copyout

/-! # The reference system: eager copies and private pages

The same operations on a system without physical memory.  A process has an image; `fork` gives the
child a copy of it, a store changes the image of its own process and never faults on a page that may
be written, and memory never runs out.  What the bytes of a new page are is not the business of this
system: `fresh` gives them, page by page, as a parameter of each operation. -/

namespace Xv6Cow.Kernel

open Vm
open Function (update update_self update_of_ne)

/-- A process of the reference system. -/
structure RProc where
  state : ProcState := .unused
  killed : Bool := false
  xstate : ℤ := 0
  pid : ℕ := 0
  parent : Option ℕ := none
  sz : ℕ := 0
  image : Image := fun _ => none

/-- The state of the reference system. -/
structure RState where
  procs : ℕ → RProc
  nextpid : ℕ
  initproc : Option ℕ

/-! ### Images -/

/-- The rights of the pages that `uvmalloc` maps with the given permissions. -/
def permOf (x : Pte) : Perm := ⟨true, has x PTE_W, has x PTE_X, true⟩

/-- An image with `n` new pages from `k` on. -/
def addPages (fresh : ℕ → Bytes) (g : Image) (k n : ℕ) (p : Perm) : Image := fun v =>
  if k ≤ v ∧ v < k + n then some ⟨p, fresh v⟩ else g v

/-- An image without the pages from `k` on. -/
def dropPages (g : Image) (k : ℕ) : Image := fun v => if v < k then g v else none

/-- `uvmalloc`. -/
def rUvmalloc (fresh : ℕ → Bytes) (g : Image) (oldsz newsz : ℕ) (x : Pte) : ℕ × Image :=
  if newsz < oldsz then (oldsz, g)
    else (newsz, addPages fresh g (npg oldsz) (npg newsz - npg oldsz) (permOf x))

/-- The loop of `loadseg`. -/
def rLoadseg (va : ℕ) (file : List UInt8) (offset sz : ℕ) : (k i : ℕ) → Image → ℤ × Image
  | 0, _, g => (0, g)
  | k + 1, i, g =>
      let n := min (sz - i) PGSIZE
      let bs := readi file ((offset + i) % 2 ^ 32) n
      let g := g.put ((va + i) / PGSIZE) 0 bs
      if bs.length ≠ n then (-1, g) else rLoadseg va file offset sz k (i + PGSIZE) g

/-- The part of the loop of `exec` for one header. -/
def rExecSeg (fresh : ℕ → Bytes) (file ph : List UInt8) (sz : ℕ) (g : Image) : Bool × ℕ × Image :=
  let vaddr := field ph 16 8
  let filesz := field ph 32 8
  let memsz := field ph 40 8
  if memsz < filesz ∨ (vaddr + memsz) % 2 ^ 64 < vaddr ∨ vaddr % PGSIZE ≠ 0 then (false, sz, g)
  else
    let (sz1, g) := rUvmalloc fresh g sz ((vaddr + memsz) % 2 ^ 64) (flags2perm (field ph 4 4))
    if sz1 = 0 then (false, sz, g)
    else
      let (r, g) := rLoadseg vaddr file (field ph 8 8 % 2 ^ 32) (filesz % 2 ^ 32)
        ((filesz % 2 ^ 32 + (PGSIZE - 1)) / PGSIZE) 0 g
      (decide (0 ≤ r), sz1, g)

/-- The loop of `exec` over the program headers. -/
def rExecSegs (fresh : ℕ → Bytes) (file : List UInt8) : (n off sz : ℕ) → Image → Bool × ℕ × Image
  | 0, _, sz, g => (true, sz, g)
  | n + 1, off, sz, g =>
      let ph := readi file off PROGHDR_SIZE
      if ph.length ≠ PROGHDR_SIZE then (false, sz, g)
      else if field ph 0 4 ≠ ELF_PROG_LOAD then rExecSegs fresh file n
        ((off + PROGHDR_SIZE) % 2 ^ 32) sz g
      else
        let (ok, sz, g) := rExecSeg fresh file ph sz g
        if ok then rExecSegs fresh file n ((off + PROGHDR_SIZE) % 2 ^ 32) sz g else (false, sz, g)

/-- The loop of `exec` over the argument strings. -/
def rExecArgs (stackbase : ℕ) : (args : List (List UInt8)) → (sp : ℕ) → (ustack : List ℕ) → Image →
    Option (ℕ × List ℕ × Image)
  | [], sp, ustack, g => some (sp, ustack, g)
  | str :: args, sp, ustack, g =>
      if MAXARG ≤ ustack.length then none
      else
        let sp := push sp (str.length + 1)
        if sp < stackbase then none
        else
          let (r, g) := g.copyout sp (str ++ [0])
          if r < 0 then none else rExecArgs stackbase args sp (ustack ++ [sp]) g

/-- The arguments on the stack: `argc` and the image. -/
def rExecStack (sz : ℕ) (args : List (List UInt8)) (g : Image) : Option (ℕ × Image) :=
  let stackbase := sz - USERSTACK * PGSIZE
  match rExecArgs stackbase args sz [] g with
  | none => none
  | some (sp, ustack, g) =>
      let sp := push sp ((ustack.length + 1) * 8)
      if sp < stackbase then none
      else
        let (r, g) := g.copyout sp (wordBytes (ustack ++ [0]))
        if r < 0 then none else some (ustack.length, g)

/-- Take `PTE_U` from a page. -/
def guardPage (g : Image) (v : ℕ) : Image :=
  update g v ((g v).map (fun pg => { pg with perm := { pg.perm with u := false } }))

/-- `exec` from `proc_pagetable` on: `argc`, the size and the image. -/
def rExecImage (fresh : ℕ → Bytes) (file : List UInt8) (args : List (List UInt8)) :
    Option (ℕ × ℕ × Image) :=
  let elf := readi file 0 ELFHDR_SIZE
  match rExecSegs fresh file (field elf 56 2) (field elf 32 8 % 2 ^ 32) 0 (fun _ => none) with
  | (false, _, _) => none
  | (true, sz, g) =>
      let sz := pgroundup sz
      let (sz1, g) := rUvmalloc fresh g sz (sz + (USERSTACK + 1) * PGSIZE) PTE_W
      if sz1 = 0 then none
      else
        (rExecStack sz1 args (guardPage g (sz1 / PGSIZE - (USERSTACK + 1)))).map
          (fun x => (x.1, sz1, x.2))

/-- `exec` on images. -/
def rExec (fresh : ℕ → Bytes) (file : Option (List UInt8)) (args : List (List UInt8)) :
    Option (ℕ × ℕ × Image) :=
  match file with
  | none => none
  | some file =>
      let elf := readi file 0 ELFHDR_SIZE
      if elf.length ≠ ELFHDR_SIZE then none
      else if field elf 0 4 ≠ ELF_MAGIC then none
      else rExecImage fresh file args

/-- `fetchaddr`. -/
def rFetchaddr (p : RProc) (addr : ℕ) : Option ℕ :=
  if p.sz ≤ addr ∨ p.sz < (addr + 8) % 2 ^ 64 then none
  else
    let (r, bs) := p.image.copyin addr 8
    if r ≠ 0 then none else some (field bs 0 8)

/-- The argument strings that `sys_exec` fetches. -/
def rFetchArgs (p : RProc) (uargv : ℕ) : (k : ℕ) → (args : List (List UInt8)) →
    Option (List (List UInt8))
  | 0, _ => none
  | k + 1, args =>
      match rFetchaddr p ((uargv + 8 * args.length) % 2 ^ 64) with
      | none => none
      | some uarg =>
          if uarg = 0 then some args
          else
            let (r, bs) := p.image.copyinstr uarg PGSIZE
            if r < 0 then none else rFetchArgs p uargv k (args ++ [bs.dropLast])

/-- `sys_exec`: the size and the image, if it succeeds. -/
def rSysExec (fresh : ℕ → Bytes) (p : RProc) (upath uargv : ℕ)
    (namei : List UInt8 → Option (List UInt8)) : Option (ℕ × Image) :=
  let (r, path) := p.image.copyinstr upath MAXPATH
  if r < 0 then none
  else
    match rFetchArgs p uargv MAXARG [] with
    | none => none
    | some args => (rExec fresh (namei path.dropLast) args).map Prod.snd

/-! ### What the outcome of `exec` depends on

Whether `exec` succeeds does not depend on the bytes of the new pages. -/

section outcome
variable {g g' : Image}

/-- Two images with the same pages and the same rights. -/
def SameRights (g g' : Image) : Prop := ∀ v, (g v).map UPage.perm = (g' v).map UPage.perm

section
variable (h : SameRights g g')
include h

theorem SameRights.put (v off : ℕ) (bs : List UInt8) :
    SameRights (g.put v off bs) (g'.put v off bs) := by
  intro w
  unfold Image.put
  rcases eq_or_ne w v with rfl | hw
  · rw [update_self, update_self, Option.map_map, Option.map_map]
    exact h w
  · rw [update_of_ne hw, update_of_ne hw]
    exact h w

theorem SameRights.writable (va : ℕ) : g.writable va = g'.writable va := by
  have hv := h (va / PGSIZE)
  unfold Image.writable
  cases hg : g (va / PGSIZE) with
  | none =>
      cases hg' : g' (va / PGSIZE) with
      | none => rfl
      | some pg' => simp [hg, hg'] at hv
  | some pg =>
      cases hg' : g' (va / PGSIZE) with
      | none => simp [hg, hg'] at hv
      | some pg' =>
          rw [hg, hg', Option.map_some, Option.map_some, Option.some.injEq] at hv
          simp [hv]

theorem SameRights.copyoutFrom (fuel dstva : ℕ) (src : List UInt8) :
    (g.copyoutFrom fuel dstva src).1 = (g'.copyoutFrom fuel dstva src).1 ∧
      SameRights (g.copyoutFrom fuel dstva src).2 (g'.copyoutFrom fuel dstva src).2 := by
  induction fuel generalizing g g' dstva src with
  | zero => cases src <;> exact ⟨rfl, h⟩
  | succ fuel ih =>
      cases src with
      | nil => exact ⟨rfl, h⟩
      | cons b src =>
          simp only [Image.copyoutFrom, h.writable]
          split_ifs
          · exact ih (h.put _ _ _) _ _
          · exact ⟨rfl, h⟩

theorem SameRights.copyout (dstva : ℕ) (src : List UInt8) :
    (g.copyout dstva src).1 = (g'.copyout dstva src).1 ∧
      SameRights (g.copyout dstva src).2 (g'.copyout dstva src).2 :=
  h.copyoutFrom _ _ _

theorem SameRights.rLoadseg (va : ℕ) (file : List UInt8) (offset sz k i : ℕ) :
    (rLoadseg va file offset sz k i g).1 = (rLoadseg va file offset sz k i g').1 ∧
      SameRights (rLoadseg va file offset sz k i g).2 (rLoadseg va file offset sz k i g').2 := by
  induction k generalizing g g' i with
  | zero => exact ⟨rfl, h⟩
  | succ k ih =>
      simp only [Kernel.rLoadseg]
      split_ifs
      · exact ⟨rfl, h.put _ _ _⟩
      · exact ih (h.put _ _ _) _

theorem SameRights.rUvmalloc (fresh fresh' : ℕ → Bytes) (oldsz newsz : ℕ) (x : Pte) :
    (rUvmalloc fresh g oldsz newsz x).1 = (rUvmalloc fresh' g' oldsz newsz x).1 ∧
      SameRights (rUvmalloc fresh g oldsz newsz x).2 (rUvmalloc fresh' g' oldsz newsz x).2 := by
  unfold Kernel.rUvmalloc
  split_ifs
  · exact ⟨rfl, h⟩
  · refine ⟨rfl, fun v => ?_⟩
    simp only [addPages]
    split_ifs
    · rfl
    · exact h v

end

/-- Two results of a part of `exec` with the same outcome and the same rights. -/
def SameOutcome (r r' : Bool × ℕ × Image) : Prop := r.1 = r'.1 ∧ r.2.1 = r'.2.1 ∧ SameRights r.2.2 r'.2.2

theorem SameRights.rExecSeg (h : SameRights g g') (fresh fresh' : ℕ → Bytes) (file ph : List UInt8)
    (sz : ℕ) : SameOutcome (rExecSeg fresh file ph sz g) (rExecSeg fresh' file ph sz g') := by
  have hgrow := h.rUvmalloc fresh fresh' sz ((field ph 16 8 + field ph 40 8) % 2 ^ 64)
    (flags2perm (field ph 4 4))
  simp only [Kernel.rExecSeg]
  revert hgrow
  generalize Kernel.rUvmalloc fresh g sz ((field ph 16 8 + field ph 40 8) % 2 ^ 64)
    (flags2perm (field ph 4 4)) = x
  generalize Kernel.rUvmalloc fresh' g' sz ((field ph 16 8 + field ph 40 8) % 2 ^ 64)
    (flags2perm (field ph 4 4)) = y
  rintro ⟨h1, h2⟩
  obtain ⟨h3, h4⟩ := h2.rLoadseg (field ph 16 8) file (field ph 8 8 % 2 ^ 32)
    (field ph 32 8 % 2 ^ 32) ((field ph 32 8 % 2 ^ 32 + (PGSIZE - 1)) / PGSIZE) 0
  rw [h1, h3]
  split_ifs
  · exact ⟨rfl, rfl, h⟩
  · exact ⟨rfl, rfl, h2⟩
  · exact ⟨rfl, rfl, h4⟩

theorem SameRights.rExecSegs (h : SameRights g g') (fresh fresh' : ℕ → Bytes) (file : List UInt8)
    (n off sz : ℕ) : SameOutcome (rExecSegs fresh file n off sz g)
      (rExecSegs fresh' file n off sz g') := by
  induction n generalizing g g' off sz with
  | zero => exact ⟨rfl, rfl, h⟩
  | succ n ih =>
      have hseg := h.rExecSeg fresh fresh' file (readi file off PROGHDR_SIZE) sz
      simp only [Kernel.rExecSegs]
      revert hseg
      generalize Kernel.rExecSeg fresh file (readi file off PROGHDR_SIZE) sz g = x
      generalize Kernel.rExecSeg fresh' file (readi file off PROGHDR_SIZE) sz g' = y
      rintro ⟨h1, h2, h3⟩
      rw [h1, h2]
      split_ifs
      · exact ⟨rfl, rfl, h⟩
      · exact ih h _ _
      · exact ih h3 _ _
      · exact ⟨rfl, rfl, h3⟩

theorem SameRights.rExecArgs (h : SameRights g g') (stackbase : ℕ) (args : List (List UInt8))
    (sp : ℕ) (ustack : List ℕ) : Option.Rel
      (fun x y => x.1 = y.1 ∧ x.2.1 = y.2.1 ∧ SameRights x.2.2 y.2.2)
        (rExecArgs stackbase args sp ustack g) (rExecArgs stackbase args sp ustack g') := by
  induction args generalizing g g' sp ustack with
  | nil => exact .some ⟨rfl, rfl, h⟩
  | cons str args ih =>
      obtain ⟨h1, h2⟩ := h.copyout (push sp (str.length + 1)) (str ++ [0])
      simp only [Kernel.rExecArgs]
      rw [h1]
      split_ifs
      · exact .none
      · exact .none
      · exact .none
      · exact ih h2 _ _

theorem SameRights.rExecStack (h : SameRights g g') (sz : ℕ) (args : List (List UInt8)) :
    (rExecStack sz args g).isSome = (rExecStack sz args g').isSome := by
  have hargs := h.rExecArgs (sz - USERSTACK * PGSIZE) args sz []
  simp only [Kernel.rExecStack]
  revert hargs
  generalize Kernel.rExecArgs (sz - USERSTACK * PGSIZE) args sz [] g = x
  generalize Kernel.rExecArgs (sz - USERSTACK * PGSIZE) args sz [] g' = y
  intro hargs
  cases hargs with
  | none => rfl
  | some hxy =>
      rename_i x y
      obtain ⟨h1, h2, h3⟩ := hxy
      obtain ⟨h4, -⟩ := h3.copyout (push y.1 ((y.2.1.length + 1) * 8)) (wordBytes (y.2.1 ++ [0]))
      simp only [h1, h2]
      rw [h4]
      split_ifs <;> rfl

theorem SameRights.guardPage (h : SameRights g g') (v : ℕ) :
    SameRights (guardPage g v) (guardPage g' v) := by
  intro w
  have hw := h w
  unfold Kernel.guardPage
  rcases eq_or_ne w v with rfl | hwv
  · rw [update_self, update_self]
    cases hg : g w <;> cases hg' : g' w <;> simp_all
  · rwa [update_of_ne hwv, update_of_ne hwv]

/-- Whether `exec` succeeds does not depend on what the new pages hold. -/
theorem rExecImage_isSome (fresh fresh' : ℕ → Bytes) (file : List UInt8) (args : List (List UInt8)) :
    (rExecImage fresh file args).isSome = (rExecImage fresh' file args).isSome := by
  have hnone : SameRights (fun _ => none) (fun _ => none) := fun _ => rfl
  have hsegs := hnone.rExecSegs fresh fresh' file (field (readi file 0 ELFHDR_SIZE) 56 2)
    (field (readi file 0 ELFHDR_SIZE) 32 8 % 2 ^ 32) 0
  simp only [rExecImage]
  revert hsegs
  generalize rExecSegs fresh file (field (readi file 0 ELFHDR_SIZE) 56 2)
    (field (readi file 0 ELFHDR_SIZE) 32 8 % 2 ^ 32) 0 (fun _ => none) = x
  generalize rExecSegs fresh' file (field (readi file 0 ELFHDR_SIZE) 56 2)
    (field (readi file 0 ELFHDR_SIZE) 32 8 % 2 ^ 32) 0 (fun _ => none) = y
  obtain ⟨ok, sz, g⟩ := x
  obtain ⟨ok', sz', g'⟩ := y
  rintro ⟨h1, h2, h3⟩
  dsimp only at h1 h2 h3
  subst h1 h2
  cases ok with
  | false => rfl
  | true =>
      obtain ⟨h4, h5⟩ := h3.rUvmalloc fresh fresh' (pgroundup sz)
        (pgroundup sz + (USERSTACK + 1) * PGSIZE) PTE_W
      simp only
      rw [h4]
      split_ifs
      · rfl
      · simp only [Option.isSome_map]
        exact (h5.guardPage _).rExecStack _ _

end outcome

/-! ### Operations -/

/-- The body of the loop of `reparent`. -/
def RProc.adopt (i : ℕ) (initproc : Option ℕ) (p : RProc) : RProc :=
  if p.parent = some i then { p with parent := initproc } else p

namespace RState

/-- Change one process. -/
def modifyProc (r : RState) (i : ℕ) (g : RProc → RProc) : RState :=
  { r with procs := update r.procs i (g (r.procs i)) }

/-- The first slot that is `UNUSED`. -/
def findUnused (r : RState) : Option ℕ := (List.range NPROC).find? (fun i => (r.procs i).state = .unused)

/-- `fork` with an eager copy. -/
def fork (r : RState) (i : ℕ) : RState :=
  match r.findUnused with
  | none => r
  | some np =>
      { (r.modifyProc np (fun _ =>
          { state := .runnable, pid := r.nextpid, parent := some i, sz := (r.procs i).sz,
            image := (r.procs i).image })) with nextpid := r.nextpid + 1 }

/-- `exit`; none if the first process exits. -/
def exit (r : RState) (i : ℕ) (status : ℤ) : Option RState :=
  if r.initproc = some i then none
  else
    let r' : RState := { r with procs := fun j => (r.procs j).adopt i r.initproc }
    some (r'.modifyProc i (fun p => { p with xstate := status, state := .zombie }))

/-- The end of a process that faults. -/
def kill (r : RState) (i : ℕ) : Option RState :=
  (r.modifyProc i (fun p => { p with killed := true })).exit i (-1)

/-- `wait`. -/
def wait (r : RState) (i addr : ℕ) : RState :=
  match (List.range NPROC).find? (fun j => (r.procs j).parent = some i ∧
    (r.procs j).state = .zombie) with
  | none => r
  | some j =>
      if addr = 0 then r.modifyProc j (fun _ => {})
      else
        let (res, g) := (r.procs i).image.copyout addr (intBytes (r.procs j).xstate)
        let r := r.modifyProc i (fun p => { p with image := g })
        if res < 0 then r else r.modifyProc j (fun _ => {})

/-- `growproc`. -/
def growproc (fresh : ℕ → Bytes) (r : RState) (i : ℕ) (n : ℤ) : RState :=
  r.modifyProc i (fun p =>
    if n > 0 then
      { p with sz := p.sz + n.toNat
               image := addPages fresh p.image (npg p.sz) (npg (p.sz + n.toNat) - npg p.sz)
                 (permOf PTE_W) }
    else if n < 0 then
      let sz := min p.sz ((p.sz + n) % 2 ^ 64).toNat
      { p with sz := sz, image := dropPages p.image (npg sz) }
    else p)

/-- Run an operation of a process, if there is one that runs. -/
def byProc (r : RState) (i : ℕ) (g : RState → Option RState) : Option RState :=
  if i < NPROC ∧ (r.procs i).state = .runnable then g r else some r

/-- One step of the reference system, with the given bytes in new pages. -/
def step (fresh : ℕ → Bytes) (r : RState) : Op → Option RState
  | .fork i => r.byProc i (fun r => some (r.fork i))
  | .load i va => r.byProc i (fun r => if ((r.procs i).image.load va).isSome then some r else r.kill i)
  | .store i va b => r.byProc i (fun r =>
      match (r.procs i).image.store va b with
      | some g => some (r.modifyProc i (fun p => { p with image := g }))
      | none => r.kill i)
  | .copyout i dstva src => r.byProc i (fun r =>
      some (r.modifyProc i (fun p => { p with image := (p.image.copyout dstva src).2 })))
  | .growproc i n => r.byProc i (fun r => some (growproc fresh r i n))
  | .exec i upath uargv namei => r.byProc i (fun r =>
      match rSysExec fresh (r.procs i) upath uargv namei with
      | none => some r
      | some (sz, g) => some (r.modifyProc i (fun p => { p with sz := sz, image := g })))
  | .exit i status => r.byProc i (fun r => r.exit i status)
  | .wait i addr => r.byProc i (fun r => some (r.wait i addr))
  | _ => some r

end RState

/-! ### The abstraction -/

/-- What a process of the kernel is in the reference system. -/
def Proc.abs (m : Bytes) (p : Proc) : RProc :=
  { state := p.state, killed := p.killed, xstate := p.xstate, pid := p.pid, parent := p.parent, sz := p.sz,
    image := image m (pmap m p.pagetable) (npg p.sz) }

/-- What a state of the kernel is in the reference system. -/
def KState.abs (s : KState) : RState :=
  { procs := fun i => (s.procs i).abs s.mach.mem, nextpid := s.nextpid, initproc := s.initproc }

end Xv6Cow.Kernel

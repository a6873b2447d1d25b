import Xv6Cow.Vm.Kalloc

/-! # Virtual memory, `vm.c`

The functions of `vm.c` on the machine of `Xv6Cow.Vm.Kalloc`.  Page tables are pages of physical
memory: every access to an entry is a load or a store of a 64-bit word, and a page table is known by
the address of its root page, as `pagetable_t` is.  An address of 0 is the null pointer.

A `for` or `while` loop of the source is a recursion on the number of iterations its bounds leave
(`walkFrom` on the level, `uvmunmapFrom`, `uvmallocFrom`, `uvmcopyFrom` on the pages still to do);
the recursion of `freewalk` is on the depth of the table.  `handle_cow_fault` asks `myproc()` for
the page table of the current process; here that is the parameter `cur`. -/

namespace Xv6Cow.Vm

/-! ### Loads and stores -/

/-- The entry at address `a`. -/
def pteAt (m : Bytes) (a : ℕ) : Pte := BitVec.ofNat 64 (m.le a 8)

/-- Store an entry at address `a`. -/
def setPte (m : Bytes) (a : ℕ) (e : Pte) : Bytes := m.setLe a 8 e.toNat

/-- `*pte`. -/
def ldpte (a : ℕ) : VmM Pte := do
  let s ← get
  pure (pteAt s.mem a)

/-- `*pte = e`. -/
def stpte (a : ℕ) (e : Pte) : VmM Unit := modify (fun s => { s with mem := setPte s.mem a e })

/-- `memset`. -/
def memset (dst : ℕ) (c : UInt8) (n : ℕ) : VmM Unit :=
  modify (fun s => { s with mem := s.mem.fill dst n c })

/-- `memmove` within physical memory. -/
def memmove (dst src n : ℕ) : VmM Unit := modify (fun s => { s with mem := s.mem.copyBytes dst src n })

/-- `memmove` from kernel data outside the modelled pages. -/
def memput (dst : ℕ) (src : List UInt8) : VmM Unit :=
  modify (fun s => { s with mem := s.mem.write dst src })

/-! ### Page tables -/

/-- The loop of `walk`, from `level` down. -/
def walkFrom (alloc : Bool) : (level pagetable va : ℕ) → VmM ℕ
  | 0, pagetable, va => pure (pagetable + 8 * px 0 va)
  | level + 1, pagetable, va => do
      let e ← ldpte (pagetable + 8 * px (level + 1) va)
      if has e PTE_V then
        walkFrom alloc level (pte2pa e) va
      else if !alloc then
        pure 0
      else do
        let child ← kalloc
        if child = 0 then
          pure 0
        else do
          memset child 0 PGSIZE
          stpte (pagetable + 8 * px (level + 1) va) (pa2pte child ||| PTE_V)
          walkFrom alloc level child va

/-- `walk`. -/
def walk (pagetable va : ℕ) (alloc : Bool) : VmM ℕ :=
  if MAXVA ≤ va then throw .walk else walkFrom alloc 2 pagetable va

/-- `walkaddr`. -/
def walkaddr (pagetable va : ℕ) : VmM ℕ :=
  if MAXVA ≤ va then pure 0
  else do
    let pte ← walk pagetable va false
    if pte = 0 then pure 0
    else do
      let e ← ldpte pte
      if !has e PTE_V then pure 0
      else if !has e PTE_U then pure 0
      else pure (pte2pa e)

/-- The loop of `mappages`: `n` pages from `a` on. -/
def mappagesFrom (pagetable : ℕ) (perm : Pte) : (n a pa : ℕ) → VmM ℤ
  | 0, _, _ => pure 0
  | n + 1, a, pa => do
      let pte ← walk pagetable a true
      if pte = 0 then pure (-1)
      else do
        let e ← ldpte pte
        if has e PTE_V then throw .mappagesRemap
        else do
          stpte pte (pa2pte pa ||| perm ||| PTE_V)
          mappagesFrom pagetable perm n (a + PGSIZE) (pa + PGSIZE)

/-- `mappages`. -/
def mappages (pagetable va size pa : ℕ) (perm : Pte) : VmM ℤ :=
  if va % PGSIZE ≠ 0 then throw .mappagesVa
  else if size % PGSIZE ≠ 0 then throw .mappagesSizeAlign
  else if size = 0 then throw .mappagesSize
  else mappagesFrom pagetable perm (size / PGSIZE) va pa

/-- The body of the loop of `uvmunmap`. -/
def uvmunmapPage [Layout] (pagetable : ℕ) (doFree : Bool) (a : ℕ) : VmM Unit := do
  let pte ← walk pagetable a false
  if pte = 0 then throw .uvmunmapWalk
  else do
    let e ← ldpte pte
    if !has e PTE_V then throw .uvmunmapNotMapped
    else if pteFlags e = PTE_V then throw .uvmunmapNotLeaf
    else do
      if doFree then kfree (pte2pa e)
      stpte pte 0

/-- The loop of `uvmunmap`: `n` pages from `a` on. -/
def uvmunmapFrom [Layout] (pagetable : ℕ) (doFree : Bool) : (n a : ℕ) → VmM Unit
  | 0, _ => pure ()
  | n + 1, a => do
      uvmunmapPage pagetable doFree a
      uvmunmapFrom pagetable doFree n (a + PGSIZE)

/-- `uvmunmap`. -/
def uvmunmap [Layout] (pagetable va npages : ℕ) (doFree : Bool) : VmM Unit :=
  if va % PGSIZE ≠ 0 then throw .uvmunmapAlign else uvmunmapFrom pagetable doFree npages va

/-- `uvmcreate`. -/
def uvmcreate : VmM ℕ := do
  let pagetable ← kalloc
  if pagetable = 0 then pure 0
  else do
    memset pagetable 0 PGSIZE
    pure pagetable

/-- `uvmfirst`; its unchecked `kalloc` may be null. -/
def uvmfirst (pagetable : ℕ) (src : List UInt8) : VmM Unit :=
  if PGSIZE ≤ src.length then throw .uvmfirst
  else do
    let mem ← kalloc
    if mem = 0 then throw .kerneltrap
    else do
      memset mem 0 PGSIZE
      let _ ← mappages pagetable 0 PGSIZE mem (PTE_W ||| PTE_R ||| PTE_X ||| PTE_U)
      memput mem src

/-- `uvmdealloc`. -/
def uvmdealloc [Layout] (pagetable oldsz newsz : ℕ) : VmM ℕ :=
  if oldsz ≤ newsz then pure oldsz
  else do
    if pgroundup newsz < pgroundup oldsz then
      uvmunmap pagetable (pgroundup newsz) ((pgroundup oldsz - pgroundup newsz) / PGSIZE) true
    pure newsz

/-- The loop of `uvmalloc`: `n` pages from `a` on; false if it gave up. -/
def uvmallocFrom [Layout] (pagetable oldsz : ℕ) (xperm : Pte) : (n a : ℕ) → VmM Bool
  | 0, _ => pure true
  | n + 1, a => do
      let mem ← kalloc
      if mem = 0 then do
        let _ ← uvmdealloc pagetable a oldsz
        pure false
      else do
        let r ← mappages pagetable a PGSIZE mem (PTE_R ||| PTE_U ||| xperm)
        if r ≠ 0 then do
          kfree mem
          let _ ← uvmdealloc pagetable a oldsz
          pure false
        else
          uvmallocFrom pagetable oldsz xperm n (a + PGSIZE)

/-- `uvmalloc`; `LAB_SYSCALL` is defined, so the new pages are not cleared. -/
def uvmalloc [Layout] (pagetable oldsz newsz : ℕ) (xperm : Pte) : VmM ℕ :=
  if newsz < oldsz then pure oldsz
  else do
    let ok ← uvmallocFrom pagetable (pgroundup oldsz) xperm
      ((newsz - pgroundup oldsz + (PGSIZE - 1)) / PGSIZE) (pgroundup oldsz)
    pure (if ok then newsz else 0)

/-- The loop of `freewalk` over the entries from `i` on, with the recursive call as a parameter. -/
def freewalkFrom (freechild : ℕ → VmM Unit) (pagetable : ℕ) : (n i : ℕ) → VmM Unit
  | 0, _ => pure ()
  | n + 1, i => do
      let e ← ldpte (pagetable + 8 * i)
      if has e PTE_V && !has e (PTE_R ||| PTE_W ||| PTE_X) then do
        freechild (pte2pa e)
        stpte (pagetable + 8 * i) 0
        freewalkFrom freechild pagetable n (i + 1)
      else if has e PTE_V then throw .freewalkLeaf
      else freewalkFrom freechild pagetable n (i + 1)

/-- `freewalk` on a table of at most `depth` levels. -/
def freewalk [Layout] : (depth pagetable : ℕ) → VmM Unit
  | 0, _ => throw .freewalkDepth
  | depth + 1, pagetable => do
      freewalkFrom (freewalk depth) pagetable 512 0
      kfree pagetable

/-- `uvmfree`. -/
def uvmfree [Layout] (pagetable sz : ℕ) : VmM Unit := do
  if sz > 0 then uvmunmap pagetable 0 (pgroundup sz / PGSIZE) true
  freewalk 3 pagetable

/-- The body of the loop of `uvmcopy`. -/
def uvmcopyPage (old new i : ℕ) : VmM ℤ := do
  let pte ← walk old i false
  if pte = 0 then throw .uvmcopyPte
  else do
    let e ← ldpte pte
    if !has e PTE_V then throw .uvmcopyPage
    else do
      let pa := pte2pa e
      let flags := if has (pteFlags e) PTE_W then (pteFlags e &&& ~~~PTE_W) ||| PTE_COW else pteFlags e
      if has (pteFlags e) PTE_W then stpte pte (pa2pte pa ||| flags)
      let r ← mappages new i PGSIZE pa flags
      if r ≠ 0 then pure (-1)
      else do
        incref pa
        pure 0

/-- The loop of `uvmcopy`: `n` pages from `i` on. -/
def uvmcopyFrom (old new : ℕ) : (n i : ℕ) → VmM ℤ
  | 0, _ => pure 0
  | n + 1, i => do
      let r ← uvmcopyPage old new i
      if r ≠ 0 then pure (-1) else uvmcopyFrom old new n (i + PGSIZE)

/-- `uvmcopy`. -/
def uvmcopy (old new sz : ℕ) : VmM ℤ := uvmcopyFrom old new ((sz + (PGSIZE - 1)) / PGSIZE) 0

/-- `uvmclear`. -/
def uvmclear (pagetable va : ℕ) : VmM Unit := do
  let pte ← walk pagetable va false
  if pte = 0 then throw .uvmclear
  else do
    let e ← ldpte pte
    stpte pte (e &&& ~~~PTE_U)

/-! ### Copy-on-write faults and copies between kernel and user -/

/-- `handle_cow_fault`, for the current page table `cur`. -/
def handleCowFault [Layout] (cur : Option ℕ) (va : ℕ) : VmM ℤ :=
  match cur with
  | none => pure (-1)
  | some pagetable =>
      if MAXVA ≤ va then pure (-1)
      else do
        let pte ← walk pagetable (pgrounddown va) false
        if pte = 0 then pure (-1)
        else do
          let e ← ldpte pte
          if !has e PTE_V || !has e PTE_U || !has e PTE_COW then pure (-1)
          else do
            let pa := pte2pa e
            let n ← refcount pa
            if n = 1 then do
              stpte pte (e ||| PTE_W)
              let e' ← ldpte pte
              stpte pte (e' &&& ~~~PTE_COW)
              pure 0
            else do
              let mem ← kalloc
              if mem = 0 then pure (-1)
              else do
                memmove mem pa PGSIZE
                let e' ← ldpte pte
                stpte pte (pa2pte mem ||| ((pteFlags e' ||| PTE_W) &&& ~~~PTE_COW))
                decref pa
                pure 0

/-- The entry through which `copyout` writes the page at `va0`, after the copy-on-write step. -/
def copyoutPte [Layout] (cur : Option ℕ) (pagetable va0 : ℕ) : VmM (Option ℕ) := do
  let pte ← walk pagetable va0 false
  if pte = 0 then pure none
  else do
    let e ← ldpte pte
    if has e PTE_V && has e PTE_COW then do
      let r ← handleCowFault cur va0
      if r < 0 then pure none else some <$> walk pagetable va0 false
    else pure (some pte)

/-- The loop of `copyout`; each round copies at least one byte, so `src.length` rounds suffice. -/
def copyoutFrom [Layout] (cur : Option ℕ) (pagetable : ℕ) : (fuel dstva : ℕ) → List UInt8 → VmM ℤ
  | _, _, [] => pure 0
  | 0, _, _ => pure (-1)
  | fuel + 1, dstva, src => do
      let va0 := pgrounddown dstva
      if MAXVA ≤ va0 then pure (-1)
      else do
        match ← copyoutPte cur pagetable va0 with
        | none => pure (-1)
        | some pte => do
            let e ← ldpte pte
            if !has e PTE_V || !has e PTE_U || !has e PTE_W then pure (-1)
            else if pte2pa e = 0 then pure (-1)
            else do
              let n := min (PGSIZE - (dstva - va0)) src.length
              memput (pte2pa e + (dstva - va0)) (src.take n)
              copyoutFrom cur pagetable fuel (va0 + PGSIZE) (src.drop n)

/-- `copyout`. -/
def copyout [Layout] (cur : Option ℕ) (pagetable dstva : ℕ) (src : List UInt8) : VmM ℤ :=
  copyoutFrom cur pagetable src.length dstva src

/-- The loop of `copyin`; the result is the return value and the bytes stored at `dst`. -/
def copyinFrom (pagetable : ℕ) : (fuel srcva len : ℕ) → VmM (ℤ × List UInt8)
  | _, _, 0 => pure (0, [])
  | 0, _, _ => pure (-1, [])
  | fuel + 1, srcva, len => do
      let va0 := pgrounddown srcva
      let pa0 ← walkaddr pagetable va0
      if pa0 = 0 then pure (-1, [])
      else do
        let n := min (PGSIZE - (srcva - va0)) len
        let s ← get
        let (r, rest) ← copyinFrom pagetable fuel (va0 + PGSIZE) (len - n)
        pure (r, s.mem.read (pa0 + (srcva - va0)) n ++ rest)

/-- `copyin`. -/
def copyin (pagetable srcva len : ℕ) : VmM (ℤ × List UInt8) := copyinFrom pagetable len srcva len

/-- The loop of `copyinstr`; the result is the return value and the bytes stored at `dst`. -/
def copyinstrFrom (pagetable : ℕ) : (fuel srcva max : ℕ) → VmM (ℤ × List UInt8)
  | _, _, 0 => pure (-1, [])
  | 0, _, _ => pure (-1, [])
  | fuel + 1, srcva, max => do
      let va0 := pgrounddown srcva
      let pa0 ← walkaddr pagetable va0
      if pa0 = 0 then pure (-1, [])
      else do
        let n := min (PGSIZE - (srcva - va0)) max
        let s ← get
        let bs := s.mem.read (pa0 + (srcva - va0)) n
        if 0 ∈ bs then
          pure (0, bs.takeWhile (fun b => b != 0) ++ [0])
        else do
          let (r, rest) ← copyinstrFrom pagetable fuel (va0 + PGSIZE) (max - n)
          pure (r, bs ++ rest)

/-- `copyinstr`. -/
def copyinstr (pagetable srcva max : ℕ) : VmM (ℤ × List UInt8) := copyinstrFrom pagetable max srcva max

end Xv6Cow.Vm

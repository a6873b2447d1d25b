import Xv6Cow.Fs.Format
import Xv6Cow.Lib.Wp

/-! # The file system: `fs.c`

The functions of `fs.c` on one state: the blocks as `bread` gives them, the inode table, the file
table, and the directory and the descriptors of each process.  A pointer to an entry of a table is
its index; a null pointer is `none`.  Calls run one after another, so the sleep locks are free
whenever they are taken, and `iunlock` does nothing.

`disk` is what `bread` finds: the buffer of a block, or the block itself if it is not cached.
`home` is what the device holds.  `log_write` records a block in the header `lh`, and `end_op`
copies the recorded blocks to the device once no operation is under way.  A loop of the source is a
recursion on the iterations that its bounds leave.  A user buffer is given by the bytes of its pages
up to the first that is not mapped (for a source), or by their number (for a destination); for a
kernel buffer that is all of it.

The space in the log and the waiting of `begin_op` are the subject of `Xv6Cow.Log.Reserve`, and the
system calls that of `Xv6Cow.Itable` and `Xv6Cow.Fd`. -/

namespace Xv6Cow.Fs

open Log (Block Disk)
open Function (update)

def NINODE : ℕ := 50
def NFILE : ℕ := 100
def NOFILE : ℕ := 16
def NDEV : ℤ := 10
def NPROC : ℕ := 64
def O_RDONLY : ℕ := 0x000
def O_WRONLY : ℕ := 0x001
def O_RDWR : ℕ := 0x002
def O_CREATE : ℕ := 0x200
def O_TRUNC : ℕ := 0x400

/-- `struct inode`: an entry of the inode table. -/
structure Inode where
  inum : ℕ := 0
  ref : ℕ := 0
  valid : Bool := false
  din : Dinode := {}

inductive FileType
  | none | inode | device
  deriving DecidableEq, Repr

/-- `struct file` -/
structure File where
  type : FileType := .none
  ref : ℕ := 0
  readable : Bool := false
  writable : Bool := false
  ip : ℕ := 0
  off : ℕ := 0
  major : ℤ := 0

/-- What a process has of the file system. -/
structure FsProc where
  used : Bool := false
  cwd : ℕ := 0
  ofile : ℕ → Option ℕ := fun _ => none

structure FsState where
  sb : Superblock
  disk : Disk
  home : Disk
  lh : List ℕ
  outstanding : ℕ
  itable : ℕ → Inode
  ftable : ℕ → File
  procs : ℕ → FsProc

/-- The panics of the modelled code. -/
inductive Panic
  | logWriteOutside | freeingFreeBlock | iget | ilock | ilockNoType | bmapRange | dirlookupNotDir
  | dirlookupRead
  deriving DecidableEq, Repr

/-- Computations that may panic. -/
abbrev FsM := StateT FsState (Except Panic)

/-- `if(c) m;` -/
def onlyIf (c : Bool) (m : FsM Unit) : FsM Unit := if c then m else pure ()

theorem wp_onlyIf {c : Prop} [Decidable c] {m : FsM Unit} {Q : Unit → FsState → Prop}
    {E : Panic → Prop} {s : FsState} : wp (onlyIf (decide c) m) Q E s ↔ (c → wp m Q E s) ∧
      (¬ c → Q () s) := by
  unfold onlyIf
  rw [wp_ite, wp_pure, decide_eq_true_eq]

/-! ### Blocks and the log -/

/-- Change the data of the buffer of block `b`. -/
def changeBlock (b : ℕ) (f : Block → Block) : FsM Unit :=
  modify (fun s => { s with disk := update s.disk b (f (s.disk b)) })

/-- `log_write` of the buffer of block `b`. -/
def logWrite (b : ℕ) : FsM Unit := do
  let s ← get
  if s.outstanding < 1 then throw .logWriteOutside
  else set { s with lh := if b ∈ s.lh then s.lh else s.lh ++ [b] }

/-- `begin_op` -/
def beginOp : FsM Unit := modify (fun s => { s with outstanding := s.outstanding + 1 })

/-- `end_op`, with `commit`. -/
def endOp : FsM Unit := modify (fun s =>
  if s.outstanding - 1 = 0 then
    { s with outstanding := 0, home := fun b => if b ∈ s.lh then s.disk b else s.home b, lh := [] }
  else { s with outstanding := s.outstanding - 1 })

/-- `bzero` -/
def bzero (bno : ℕ) : FsM Unit := do
  changeBlock bno (fun b => b.fill 0 BSIZE 0)
  logWrite bno

/-- The inner loop of `balloc`: `k` bits from `bi` on of the bitmap block for the blocks from `b`
on. -/
def ballocBits (b : ℕ) : (k bi : ℕ) → FsM (Option ℕ)
  | 0, _ => pure none
  | k + 1, bi => do
      let s ← get
      if !getBit (s.disk (s.sb.bblock b)) bi then do
        changeBlock (s.sb.bblock b) (fun blk => setBit blk bi)
        logWrite (s.sb.bblock b)
        bzero (b + bi)
        pure (some (b + bi))
      else ballocBits b k (bi + 1)

/-- The outer loop of `balloc`: `k` bitmap blocks from the one of block `b` on. -/
def ballocFrom : (k b : ℕ) → FsM ℕ
  | 0, _ => pure 0
  | k + 1, b => do
      let s ← get
      match ← ballocBits b (min BPB (s.sb.size - b)) 0 with
      | some r => pure r
      | none => ballocFrom k (b + BPB)

/-- `balloc` -/
def balloc : FsM ℕ := do
  let s ← get
  ballocFrom ((s.sb.size + (BPB - 1)) / BPB) 0

/-- `bfree` -/
def bfree (b : ℕ) : FsM Unit := do
  let s ← get
  if !getBit (s.disk (s.sb.bblock b)) (b % BPB) then throw .freeingFreeBlock
  else do
    changeBlock (s.sb.bblock b) (fun blk => clearBit blk (b % BPB))
    logWrite (s.sb.bblock b)

/-! ### Inodes -/

/-- Change an entry of the inode table. -/
def modifyInode (k : ℕ) (f : Inode → Inode) : FsM Unit :=
  modify (fun s => { s with itable := update s.itable k (f (s.itable k)) })

/-- The entry of the inode table. -/
def getInode (k : ℕ) : FsM Inode := do
  let s ← get
  pure (s.itable k)

/-- Change the fields that are kept on disk too. -/
def modifyDin (k : ℕ) (f : Dinode → Dinode) : FsM Unit :=
  modifyInode k (fun ip => { ip with din := f ip.din })

/-- `iupdate` -/
def iupdate (k : ℕ) : FsM Unit := do
  let s ← get
  let ip := s.itable k
  changeBlock (s.sb.iblock ip.inum) (fun b => putDinode b (dinodeOff ip.inum) ip.din)
  logWrite (s.sb.iblock ip.inum)

/-- `iget` -/
def iget (inum : ℕ) : FsM ℕ := do
  let s ← get
  match (List.range NINODE).find? (fun k => 0 < (s.itable k).ref ∧ (s.itable k).inum = inum) with
  | some k => do
      modifyInode k (fun ip => { ip with ref := ip.ref + 1 })
      pure k
  | none =>
      match (List.range NINODE).find? (fun k => (s.itable k).ref = 0) with
      | none => throw .iget
      | some k => do
          modifyInode k (fun ip => { ip with inum := inum, ref := 1, valid := false })
          pure k

/-- `idup` -/
def idup (k : ℕ) : FsM ℕ := do
  modifyInode k (fun ip => { ip with ref := ip.ref + 1 })
  pure k

/-- `ilock` -/
def ilock (k : ℕ) : FsM Unit := do
  let s ← get
  let ip := s.itable k
  if ip.ref < 1 then throw .ilock
  else if ip.valid then pure ()
  else do
    let din := getDinode (s.disk (s.sb.iblock ip.inum)) (dinodeOff ip.inum)
    modifyInode k (fun ip => { ip with din := din, valid := true })
    if din.type = 0 then throw .ilockNoType else pure ()

/-- `bmap` -/
def bmap (k bn : ℕ) : FsM ℕ := do
  let ip ← getInode k
  if bn < NDIRECT then
    if ip.din.addrs bn = 0 then do
      let addr ← balloc
      if addr = 0 then pure 0
      else do
        modifyDin k (fun n => { n with addrs := update n.addrs bn addr })
        pure addr
    else pure (ip.din.addrs bn)
  else if bn - NDIRECT < NINDIRECT then do
    let ind ← (if ip.din.addrs NDIRECT = 0 then do
        let addr ← balloc
        if addr = 0 then pure 0
        else do
          modifyDin k (fun n => { n with addrs := update n.addrs NDIRECT addr })
          pure addr
      else pure (ip.din.addrs NDIRECT))
    if ind = 0 then pure 0
    else do
      let s ← get
      let addr := getAddr (s.disk ind) (bn - NDIRECT)
      if addr = 0 then do
        let addr ← balloc
        if addr = 0 then pure 0
        else do
          changeBlock ind (fun b => putAddr b (bn - NDIRECT) addr)
          logWrite ind
          pure addr
      else pure addr
  else throw .bmapRange

/-- The loop of `itrunc` over the direct blocks: `m` of them from `i` on. -/
def itruncDirect (k : ℕ) : (m i : ℕ) → FsM Unit
  | 0, _ => pure ()
  | m + 1, i => do
      let ip ← getInode k
      if ip.din.addrs i ≠ 0 then do
        bfree (ip.din.addrs i)
        modifyDin k (fun n => { n with addrs := update n.addrs i 0 })
        itruncDirect k m (i + 1)
      else itruncDirect k m (i + 1)

/-- The loop of `itrunc` over the entries of the indirect block `ind`. -/
def itruncIndirect (ind : ℕ) : (m j : ℕ) → FsM Unit
  | 0, _ => pure ()
  | m + 1, j => do
      let s ← get
      if getAddr (s.disk ind) j ≠ 0 then do
        bfree (getAddr (s.disk ind) j)
        itruncIndirect ind m (j + 1)
      else itruncIndirect ind m (j + 1)

/-- `itrunc` -/
def itrunc (k : ℕ) : FsM Unit := do
  itruncDirect k NDIRECT 0
  let ip ← getInode k
  onlyIf (ip.din.addrs NDIRECT ≠ 0) (do
    itruncIndirect (ip.din.addrs NDIRECT) NINDIRECT 0
    bfree (ip.din.addrs NDIRECT)
    modifyDin k (fun n => { n with addrs := update n.addrs NDIRECT 0 }))
  modifyDin k (fun n => { n with size := 0 })
  iupdate k

/-- `iput` -/
def iput (k : ℕ) : FsM Unit := do
  let ip ← getInode k
  onlyIf (ip.ref = 1 ∧ ip.valid = true ∧ ip.din.nlink = 0) (do
    itrunc k
    modifyDin k (fun n => { n with type := 0 })
    iupdate k
    modifyInode k (fun ip => { ip with valid := false }))
  modifyInode k (fun ip => { ip with ref := ip.ref - 1 })

/-! ### Contents of inodes -/

/-- The loop of `readi`; `room` is what the destination can take. -/
def readiLoop (k n room : ℕ) : (fuel off tot : ℕ) → (acc : List UInt8) → FsM (ℤ × List UInt8)
  | 0, _, tot, acc => pure (tot, acc)
  | fuel + 1, off, tot, acc =>
      if tot < n then do
        let addr ← bmap k (off / BSIZE)
        if addr = 0 then pure (tot, acc)
        else do
          let s ← get
          let m := min (n - tot) (BSIZE - off % BSIZE)
          if room < tot + m then pure (-1, acc)
          else readiLoop k n room fuel (off + m) (tot + m) (acc ++ (s.disk addr).read (off % BSIZE) m)
      else pure (tot, acc)

/-- `readi`: the return value and the bytes copied. -/
def readi (k off n room : ℕ) : FsM (ℤ × List UInt8) := do
  let ip ← getInode k
  if ip.din.size < off ∨ (off + n) % 2 ^ 32 < off then pure (0, [])
  else
    let n := if ip.din.size < (off + n) % 2 ^ 32 then ip.din.size - off else n
    readiLoop k n room n off 0 []

/-- The loop of `writei`: the offset and the count that it leaves. -/
def writeiLoop (k : ℕ) (src : List UInt8) (n : ℕ) : (fuel off tot : ℕ) → FsM (ℕ × ℕ)
  | 0, off, tot => pure (off, tot)
  | fuel + 1, off, tot =>
      if tot < n then do
        let addr ← bmap k (off / BSIZE)
        if addr = 0 then pure (off, tot)
        else do
          let m := min (n - tot) (BSIZE - off % BSIZE)
          -- `either_copyin` stores what it can read before it fails
          changeBlock addr (fun b => b.write (off % BSIZE) ((src.drop tot).take m))
          if src.length < tot + m then pure (off, tot)
          else do
            logWrite addr
            writeiLoop k src n fuel (off + m) (tot + m)
      else pure (off, tot)

/-- `writei` -/
def writei (k : ℕ) (src : List UInt8) (off n : ℕ) : FsM ℤ := do
  let ip ← getInode k
  if ip.din.size < off ∨ (off + n) % 2 ^ 32 < off then pure (-1)
  else if MAXFILE * BSIZE < (off + n) % 2 ^ 32 then pure (-1)
  else do
    let (off, tot) ← writeiLoop k src n n off 0
    modifyDin k (fun d => if d.size < off then { d with size := off } else d)
    iupdate k
    pure tot

/-! ### Directories -/

/-- The entry at offset `off` of directory `dp`; `err` is the panic of the caller if it cannot be
read. -/
def readDirent (dp off : ℕ) (err : Panic) : FsM (List UInt8) := do
  let (r, de) ← readi dp off DIRENT_SIZE DIRENT_SIZE
  if r ≠ DIRENT_SIZE then throw err else pure de

/-- The loop of `dirlookup`: `m` entries from offset `off` on.  The result is the inode and its
entry's offset. -/
def dirlookupFrom (dp : ℕ) (name : List UInt8) : (m off : ℕ) → FsM (Option (ℕ × ℕ))
  | 0, _ => pure none
  | m + 1, off => do
      let de ← readDirent dp off .dirlookupRead
      if direntInum de = 0 then dirlookupFrom dp name m (off + DIRENT_SIZE)
      else if nameEq name (direntName de) then do
        let ip ← iget (direntInum de)
        pure (some (ip, off))
      else dirlookupFrom dp name m (off + DIRENT_SIZE)

/-- The entries of a directory of the given size. -/
def direntCount (size : ℕ) : ℕ := (size + (DIRENT_SIZE - 1)) / DIRENT_SIZE

/-- `dirlookup` -/
def dirlookup (dp : ℕ) (name : List UInt8) : FsM (Option (ℕ × ℕ)) := do
  let ip ← getInode dp
  if ip.din.type ≠ T_DIR then throw .dirlookupNotDir
  else dirlookupFrom dp name (direntCount ip.din.size) 0

/-! ### Paths -/

/-- `'/'` -/
def SLASH : UInt8 := 47

/-- `skipelem`: the rest of the path and the name. -/
def skipelem (path : List UInt8) : Option (List UInt8 × List UInt8) :=
  match path.dropWhile (· = SLASH) with
  | [] => none
  | path =>
      let name := path.takeWhile (· ≠ SLASH)
      some ((path.dropWhile (· ≠ SLASH)).dropWhile (· = SLASH), name.take DIRSIZ)

/-- The loop of `namex`.  With `parent` the result has the last element of the path too. -/
def namexFrom (parent : Bool) : (fuel ip : ℕ) → (path name : List UInt8) → FsM (Option (ℕ × List UInt8))
  | 0, _, _, _ => pure none
  | fuel + 1, ip, path, name =>
      match skipelem path with
      | none =>
          if parent then do
            iput ip
            pure none
          else pure (some (ip, name))
      | some (path, name) => do
          ilock ip
          let i ← getInode ip
          if i.din.type ≠ T_DIR then do
            iput ip
            pure none
          else if parent ∧ path = [] then pure (some (ip, name))
          else do
            match ← dirlookup ip name with
            | none => do
                iput ip
                pure none
            | some (next, _) => do
                iput ip
                namexFrom parent fuel next path name

/-- `namex`, called by process `p`. -/
def namex (p : ℕ) (path : List UInt8) (parent : Bool) : FsM (Option (ℕ × List UInt8)) := do
  let s ← get
  let ip ← (if path.head? = some SLASH then iget ROOTINO else idup (s.procs p).cwd)
  namexFrom parent (path.length + 1) ip path []

/-- `namei` -/
def namei (p : ℕ) (path : List UInt8) : FsM (Option ℕ) := do
  let r ← namex p path false
  pure (r.map Prod.fst)

end Xv6Cow.Fs

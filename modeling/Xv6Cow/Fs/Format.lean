import Mathlib.Data.List.TakeWhile
import Mathlib.Tactic.IntervalCases
import Xv6Cow.Log.Model

/-! # The on-disk format, `fs.h`

The constants and the records of `fs.h`, as both the kernel and `mkfs` use them.  A block is 1024
bytes; inodes, bitmap bits, block addresses and directory entries are read from the bytes of a
block and written into them.  Each accessor comes with its two laws: what is written is read back,
and writing one record leaves the others of the block alone. -/

namespace Xv6Cow.Fs

open Log (Block Disk)

def BSIZE : ℕ := 1024
def NDIRECT : ℕ := 12
def NINDIRECT : ℕ := 256
def MAXFILE : ℕ := NDIRECT + NINDIRECT
/-- `sizeof(struct dinode)` -/
def DINODE_SIZE : ℕ := 64
/-- Inodes per block. -/
def IPB : ℕ := 16
/-- Bitmap bits per block. -/
def BPB : ℕ := 8192
def DIRSIZ : ℕ := 14
/-- `sizeof(struct dirent)` -/
def DIRENT_SIZE : ℕ := 16
def ROOTINO : ℕ := 1
def FSMAGIC : ℕ := 0x10203040
def T_DIR : ℤ := 1
def T_FILE : ℤ := 2

/-- `struct superblock` -/
structure Superblock where
  magic : ℕ
  size : ℕ
  nblocks : ℕ
  ninodes : ℕ
  nlog : ℕ
  logstart : ℕ
  inodestart : ℕ
  bmapstart : ℕ
  deriving DecidableEq, Repr

/-- `IBLOCK` -/
def Superblock.iblock (sb : Superblock) (i : ℕ) : ℕ := i / IPB + sb.inodestart

/-- `BBLOCK` -/
def Superblock.bblock (sb : Superblock) (b : ℕ) : ℕ := b / BPB + sb.bmapstart

/-! ### 16-bit fields -/

/-- The value of a `short` after it has been assigned `x`. -/
def short (x : ℤ) : ℤ := (x + 32768) % 65536 - 32768

/-- The 16 bits of a `short`. -/
def shortBits (x : ℤ) : ℕ := (x % 65536).toNat

theorem shortBits_lt (x : ℤ) : shortBits x < 256 ^ 2 := by
  unfold shortBits
  omega

theorem short_shortBits (x : ℤ) : short (shortBits x) = short x := by
  unfold short shortBits
  omega

theorem short_of_range {x : ℤ} (h1 : -32768 ≤ x) (h2 : x < 32768) : short x = x := by
  unfold short
  omega

theorem short_range (x : ℤ) : -32768 ≤ short x ∧ short x < 32768 := by
  unfold short
  omega

/-! ### Inodes -/

/-- `struct dinode` -/
structure Dinode where
  type : ℤ := 0
  major : ℤ := 0
  minor : ℤ := 0
  nlink : ℤ := 0
  size : ℕ := 0
  addrs : ℕ → ℕ := fun _ => 0

/-- The values that the fields of a `struct dinode` can have. -/
structure Dinode.Fits (n : Dinode) : Prop where
  type : short n.type = n.type
  major : short n.major = n.major
  minor : short n.minor = n.minor
  nlink : short n.nlink = n.nlink
  size : n.size < 2 ^ 32
  addrs : ∀ i, n.addrs i < 2 ^ 32
  bound : ∀ i, NDIRECT < i → n.addrs i = 0

/-- The offset of inode `i` in its block. -/
def dinodeOff (i : ℕ) : ℕ := DINODE_SIZE * (i % IPB)

/-- The inode at offset `o` of a block. -/
def getDinode (b : Block) (o : ℕ) : Dinode where
  type := short (b.le o 2)
  major := short (b.le (o + 2) 2)
  minor := short (b.le (o + 4) 2)
  nlink := short (b.le (o + 6) 2)
  size := b.le (o + 8) 4
  addrs := fun i => if i < NDIRECT + 1 then b.le (o + 12 + 4 * i) 4 else 0

/-- Store the addresses of an inode at offset `o`. -/
def putAddrs (b : Block) (o : ℕ) (addrs : ℕ → ℕ) : Block := fun x =>
  if o ≤ x ∧ x < o + 4 * (NDIRECT + 1) then UInt8.ofNat (addrs ((x - o) / 4) / 256 ^ ((x - o) % 4))
    else b x

/-- Store an inode at offset `o` of a block. -/
def putDinode (b : Block) (o : ℕ) (n : Dinode) : Block :=
  putAddrs (((((b.setLe o 2 (shortBits n.type)).setLe (o + 2) 2 (shortBits n.major)).setLe (o + 4) 2
    (shortBits n.minor)).setLe (o + 6) 2 (shortBits n.nlink)).setLe (o + 8) 4 n.size) (o + 12) n.addrs

section dinodes
variable {b : Block} {o o' i k : ℕ} {n : Dinode} {addrs : ℕ → ℕ}

theorem putAddrs_of_not_mem {x : ℕ} (h : x < o ∨ o + 52 ≤ x) : putAddrs b o addrs x = b x := by
  unfold putAddrs NDIRECT
  rw [if_neg (by omega)]

theorem le_putAddrs (hi : i < 13) (ha : addrs i < 2 ^ 32) : (putAddrs b o addrs).le (o + 4 * i) 4 =
    addrs i := by
  have hword : (putAddrs b o addrs).le (o + 4 * i) 4 = (b.setLe (o + 4 * i) 4 (addrs i)).le
      (o + 4 * i) 4 := by
    apply Bytes.le_congr
    intro x h1 h2
    have hdiv : (x - o) / 4 = i := by omega
    have hmod : (x - o) % 4 = x - (o + 4 * i) := by omega
    unfold putAddrs NDIRECT
    rw [if_pos (by omega), Bytes.setLe_of_mem h1 h2, hdiv, hmod]
  rw [hword, Bytes.le_setLe (by norm_num; exact ha)]

theorem le_putAddrs_ne (h : k + i ≤ o ∨ o + 52 ≤ k) : (putAddrs b o addrs).le k i = b.le k i :=
  Bytes.le_congr (fun _ _ _ => putAddrs_of_not_mem (by omega))

theorem putDinode_of_not_mem {x : ℕ} (h : x < o ∨ o + 64 ≤ x) : putDinode b o n x = b x := by
  unfold putDinode
  rw [putAddrs_of_not_mem (by omega), Bytes.setLe_of_not_mem (by omega),
    Bytes.setLe_of_not_mem (by omega), Bytes.setLe_of_not_mem (by omega),
    Bytes.setLe_of_not_mem (by omega), Bytes.setLe_of_not_mem (by omega)]

theorem getDinode_putDinode (h : n.Fits) : getDinode (putDinode b o n) o = n := by
  obtain ⟨type, major, minor, nlink, size, addrs⟩ := n
  unfold getDinode putDinode
  rw [Dinode.mk.injEq]
  refine ⟨?_, ?_, ?_, ?_, ?_, funext (fun i => ?_)⟩
  · rw [le_putAddrs_ne (by omega), Bytes.le_setLe_ne (by omega), Bytes.le_setLe_ne (by omega),
      Bytes.le_setLe_ne (by omega), Bytes.le_setLe_ne (by omega), Bytes.le_setLe (shortBits_lt _),
      short_shortBits]
    exact h.type
  · rw [le_putAddrs_ne (by omega), Bytes.le_setLe_ne (by omega), Bytes.le_setLe_ne (by omega),
      Bytes.le_setLe_ne (by omega), Bytes.le_setLe (shortBits_lt _), short_shortBits]
    exact h.major
  · rw [le_putAddrs_ne (by omega), Bytes.le_setLe_ne (by omega), Bytes.le_setLe_ne (by omega),
      Bytes.le_setLe (shortBits_lt _), short_shortBits]
    exact h.minor
  · rw [le_putAddrs_ne (by omega), Bytes.le_setLe_ne (by omega), Bytes.le_setLe (shortBits_lt _),
      short_shortBits]
    exact h.nlink
  · rw [le_putAddrs_ne (by omega), Bytes.le_setLe (by norm_num; exact h.size)]
  · split_ifs with hi
    · exact le_putAddrs hi (h.addrs i)
    · exact (h.bound i (by omega)).symm

theorem getDinode_congr {b' : Block} (h : ∀ x, o ≤ x → x < o + 64 → b x = b' x) :
    getDinode b o = getDinode b' o := by
  unfold getDinode NDIRECT
  rw [Dinode.mk.injEq]
  refine ⟨?_, ?_, ?_, ?_, ?_, funext (fun i => ?_)⟩
  · rw [Bytes.le_congr (fun x h1 h2 => h x (by omega) (by omega))]
  · rw [Bytes.le_congr (fun x h1 h2 => h x (by omega) (by omega))]
  · rw [Bytes.le_congr (fun x h1 h2 => h x (by omega) (by omega))]
  · rw [Bytes.le_congr (fun x h1 h2 => h x (by omega) (by omega))]
  · rw [Bytes.le_congr (fun x h1 h2 => h x (by omega) (by omega))]
  · split_ifs
    · rw [Bytes.le_congr (fun x h1 h2 => h x (by omega) (by omega))]
    · rfl

theorem getDinode_putDinode_ne (h : o' + 64 ≤ o ∨ o + 64 ≤ o') : getDinode (putDinode b o n) o' =
    getDinode b o' :=
  getDinode_congr (fun _ _ _ => putDinode_of_not_mem (by omega))

theorem getDinode_fits (b : Block) (o : ℕ) : (getDinode b o).Fits := by
  have hshort : ∀ a, short (short (b.le a 2)) = short (b.le a 2) := fun a =>
    short_of_range (short_range _).1 (short_range _).2
  refine ⟨hshort _, hshort _, hshort _, hshort _, ?_, fun i => ?_, fun i hi => ?_⟩
  · have := Bytes.le_lt (m := b) 4 (o + 8)
    norm_num at this
    exact this
  · unfold getDinode
    dsimp only
    split_ifs
    · have := Bytes.le_lt (m := b) 4 (o + 12 + 4 * i)
      norm_num at this
      exact this
    · norm_num
  · unfold getDinode
    exact if_neg (by omega)

end dinodes

/-! ### The bitmap -/

/-- `1 << (bi % 8)` -/
def bitMask (bi : ℕ) : UInt8 := 1 <<< UInt8.ofNat (bi % 8)

/-- Bit `bi` of a bitmap block. -/
def getBit (b : Block) (bi : ℕ) : Bool := decide (b (bi / 8) &&& bitMask bi ≠ 0)

/-- Set bit `bi`. -/
def setBit (b : Block) (bi : ℕ) : Block := Function.update b (bi / 8) (b (bi / 8) ||| bitMask bi)

/-- Clear bit `bi`. -/
def clearBit (b : Block) (bi : ℕ) : Block := Function.update b (bi / 8) (b (bi / 8) &&& ~~~bitMask bi)

section bits
variable {b : Block} {i j : ℕ}

theorem bitMask_apply (i j : ℕ) (hj : j < 8) : (bitMask i).toBitVec.getLsbD j = decide (j = i % 8) := by
  have hi : i % 8 < 8 := Nat.mod_lt _ (by norm_num)
  unfold bitMask
  generalize i % 8 = k at hi
  interval_cases k <;> interval_cases j <;> rfl

theorem getBit_eq (b : Block) (i : ℕ) : getBit b i = (b (i / 8)).toBitVec.getLsbD (i % 8) := by
  have hi : i % 8 < 8 := Nat.mod_lt _ (by norm_num)
  unfold getBit
  rw [Bool.eq_iff_iff, decide_eq_true_eq, ne_eq, ← UInt8.toBitVec_inj]
  constructor
  · intro hne
    by_contra hbit
    apply hne
    apply BitVec.eq_of_getLsbD_eq
    intro j hj
    rw [UInt8.toBitVec_and, BitVec.getLsbD_and, bitMask_apply i j hj]
    rcases eq_or_ne j (i % 8) with rfl | hji
    · simpa using hbit
    · simp [hji]
  · intro hbit hzero
    have := congrArg (fun v => v.getLsbD (i % 8)) hzero
    simp [bitMask_apply i (i % 8) hi, hbit] at this

theorem getBit_setBit (b : Block) (i j : ℕ) :
    getBit (setBit b i) j = (decide (j = i) || getBit b j) := by
  have hj : j % 8 < 8 := Nat.mod_lt _ (by norm_num)
  rw [getBit_eq, getBit_eq]
  unfold setBit
  rcases eq_or_ne (j / 8) (i / 8) with hd | hd
  · rw [hd, Function.update_self, UInt8.toBitVec_or, BitVec.getLsbD_or, bitMask_apply i _ hj,
      Bool.or_comm]
    congr 1
    exact decide_eq_decide.mpr (by omega)
  · rw [Function.update_of_ne hd]
    have : j ≠ i := fun h => hd (h ▸ rfl)
    simp [this]

theorem getBit_clearBit (b : Block) (i j : ℕ) : getBit (clearBit b i) j =
    (decide (j ≠ i) && getBit b j) := by
  have hj : j % 8 < 8 := Nat.mod_lt _ (by norm_num)
  rw [getBit_eq, getBit_eq]
  unfold clearBit
  rcases eq_or_ne (j / 8) (i / 8) with hd | hd
  · rw [hd, Function.update_self, UInt8.toBitVec_and, UInt8.toBitVec_not, BitVec.getLsbD_and,
      BitVec.getLsbD_not, bitMask_apply i _ hj, Bool.and_comm]
    congr 1
    have : (j % 8 = i % 8) ↔ j = i := by omega
    simp [this, hj]
  · rw [Function.update_of_ne hd]
    have : j ≠ i := fun h => hd (h ▸ rfl)
    simp [this]

end bits

/-! ### Indirect blocks -/

/-- Entry `j` of an indirect block. -/
def getAddr (b : Block) (j : ℕ) : ℕ := b.le (4 * j) 4

/-- Store entry `j` of an indirect block. -/
def putAddr (b : Block) (j a : ℕ) : Block := b.setLe (4 * j) 4 a

theorem getAddr_putAddr {b : Block} {j a : ℕ} (ha : a < 2 ^ 32) (i : ℕ) :
    getAddr (putAddr b j a) i = if i = j then a else getAddr b i := by
  unfold getAddr putAddr
  split_ifs with h
  · rw [h, Bytes.le_setLe (by norm_num; exact ha)]
  · exact Bytes.le_setLe_ne (by omega)

/-! ### Directory entries -/

/-- The C string in a buffer of `n` bytes: the bytes before the first 0. -/
def cstr (n : ℕ) (l : List UInt8) : List UInt8 := (l.take n).takeWhile (· ≠ 0)

/-- `strncpy` into a buffer of `n` bytes: padded with 0. -/
def strncpy (n : ℕ) (l : List UInt8) : List UInt8 := cstr n l ++ List.replicate (n - (cstr n l).length) 0

/-- `namecmp(s, t) == 0` -/
def nameEq (s t : List UInt8) : Bool := cstr DIRSIZ s = cstr DIRSIZ t

/-- The little-endian value of a list of bytes. -/
def leValue : List UInt8 → ℕ
  | [] => 0
  | b :: bs => b.toNat + 256 * leValue bs

/-- `de.inum` of the bytes of a `struct dirent`. -/
def direntInum (de : List UInt8) : ℕ := leValue (de.take 2)

/-- `de.name` of the bytes of a `struct dirent`. -/
def direntName (de : List UInt8) : List UInt8 := de.drop 2

/-- The bytes of a `struct dirent`; `inum` is a `ushort`. -/
def dirent (inum : ℕ) (name : List UInt8) : List UInt8 :=
  [UInt8.ofNat (inum % 65536), UInt8.ofNat (inum % 65536 / 256)] ++ strncpy DIRSIZ name

end Xv6Cow.Fs

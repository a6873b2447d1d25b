import Xv6Cow.Fs.Model
import Xv6Cow.Lib.Ledger

/-! # Blocks of inodes

Which blocks an inode has, and what the inode holds in them.  An inode has `MAXFILE` data blocks,
named by `addrs` and by the entries of its indirect block, and the indirect block itself:
`slot d n j` is the block in place `j`, place `MAXFILE` being the indirect block, 0 where there is
none.  An owner is an inode number with a place, and `Owned` says that the bitmap is the `Ledger` of
the places of all allocated inodes.

`nodeOf` is the abstract inode: its fields and its contents as a list of bytes. -/

namespace Xv6Cow.Fs

open Log (Block Disk)
open Function (update update_self update_of_ne update_apply)

/-! ### The layout of the disk -/

/-- The blocks before the data blocks. -/
def Superblock.nmeta (sb : Superblock) : ℕ := sb.size - sb.nblocks

/-- The inode blocks, the bitmap and the data blocks follow each other and are large enough. -/
structure Superblock.Ok (sb : Superblock) : Prop where
  root : ROOTINO < sb.ninodes
  inums : sb.ninodes ≤ 65536
  inodes : sb.iblock (sb.ninodes - 1) < sb.bmapstart
  bitmap : sb.bblock (sb.size - 1) < sb.nmeta
  size : sb.size < 2 ^ 32

namespace Superblock.Ok
variable {sb : Superblock} {i b : ℕ}

theorem iblock_lt (h : sb.Ok) (hi : i < sb.ninodes) : sb.iblock i < sb.bmapstart := by
  have hle : i / IPB ≤ (sb.ninodes - 1) / IPB := Nat.div_le_div_right (by omega)
  have := h.inodes
  unfold Superblock.iblock at *
  omega

theorem bblock_lt (h : sb.Ok) (hb : b < sb.size) : sb.bblock b < sb.nmeta := by
  have hle : b / BPB ≤ (sb.size - 1) / BPB := Nat.div_le_div_right (by omega)
  have := h.bitmap
  unfold Superblock.bblock at *
  omega

theorem le_bblock (sb : Superblock) (b : ℕ) : sb.bmapstart ≤ sb.bblock b := Nat.le_add_left _ _

theorem bmapstart_lt (h : sb.Ok) : sb.bmapstart < sb.nmeta := lt_of_le_of_lt (le_bblock sb _) h.bitmap

theorem nmeta_pos (h : sb.Ok) : 0 < sb.nmeta := lt_of_le_of_lt (Nat.zero_le _) h.bmapstart_lt

end Superblock.Ok

/-! ### Places -/

/-- The block in place `j` of an inode, 0 if there is none. -/
def slot (d : Disk) (n : Dinode) (j : ℕ) : ℕ :=
  if j < NDIRECT then n.addrs j
  else if j < MAXFILE then (if n.addrs NDIRECT = 0 then 0
    else getAddr (d (n.addrs NDIRECT)) (j - NDIRECT))
  else if j = MAXFILE then n.addrs NDIRECT
  else 0

section slots
variable {d d' : Disk} {n n' : Dinode} {i j k b : ℕ}

theorem slot_direct (hj : j < NDIRECT) : slot d n j = n.addrs j := if_pos hj

theorem slot_indirect (hj : j < NINDIRECT) :
    slot d n (NDIRECT + j) = if n.addrs NDIRECT = 0 then 0 else getAddr (d (n.addrs NDIRECT)) j := by
  unfold slot MAXFILE
  rw [if_neg (by omega), if_pos (by omega), Nat.add_sub_cancel_left]

@[simp] theorem slot_maxfile : slot d n MAXFILE = n.addrs NDIRECT := by
  unfold slot MAXFILE
  rw [if_neg (by omega), if_neg (by omega), if_pos rfl]

theorem slot_beyond (hj : MAXFILE < j) : slot d n j = 0 := by
  unfold slot
  rw [if_neg (by unfold MAXFILE at hj; omega), if_neg (by omega), if_neg (by omega)]

/-- A place is direct, an entry of the indirect block, the indirect block, or none. -/
theorem place_cases (j : ℕ) : j < NDIRECT ∨ (∃ e < NINDIRECT, j = NDIRECT + e) ∨ j = MAXFILE ∨
    MAXFILE < j := by
  by_cases h1 : j < NDIRECT
  · exact Or.inl h1
  by_cases h2 : j < MAXFILE
  · exact Or.inr (Or.inl ⟨j - NDIRECT, by unfold MAXFILE at h2; omega, by omega⟩)
  · omega

/-- The places of an inode depend on the disk only through its indirect block. -/
theorem slot_congr (h : n.addrs NDIRECT ≠ 0 → d' (n.addrs NDIRECT) = d (n.addrs NDIRECT)) (j : ℕ) :
    slot d' n j = slot d n j := by
  unfold slot
  by_cases h0 : n.addrs NDIRECT = 0
  · simp [h0]
  · rw [h h0]

/-- Store an address in an inode. -/
def Dinode.setAddr (n : Dinode) (j b : ℕ) : Dinode := { n with addrs := update n.addrs j b }

theorem Dinode.setAddr_addrs (n : Dinode) (j b l : ℕ) : (n.setAddr j b).addrs l = if l = j then b
    else n.addrs l :=
  update_apply _ _ _ _

theorem slot_setAddr (hj : j < NDIRECT) (l : ℕ) : slot d (n.setAddr j b) l = if l = j then b
    else slot d n l := by
  have hind : (n.setAddr j b).addrs NDIRECT = n.addrs NDIRECT := by
    rw [Dinode.setAddr_addrs, if_neg (by omega)]
  by_cases hl : l < NDIRECT
  · rw [slot_direct hl, slot_direct hl, Dinode.setAddr_addrs]
  · rw [if_neg (by omega)]
    unfold slot
    simp [hind, if_neg hl]

/-- An indirect block without entries adds no place but its own. -/
theorem slot_setAddr_indirect (h0 : n.addrs NDIRECT = 0) (hz : ∀ e < NINDIRECT, getAddr (d b) e = 0)
    (l : ℕ) : slot d (n.setAddr NDIRECT b) l = if l = MAXFILE then b else slot d n l := by
  have hind : (n.setAddr NDIRECT b).addrs NDIRECT = b := by rw [Dinode.setAddr_addrs, if_pos rfl]
  obtain hl | ⟨e, he, hl⟩ | hl | hl := place_cases l
  · rw [slot_direct hl, slot_direct hl, Dinode.setAddr_addrs, if_neg (by omega),
      if_neg (by unfold MAXFILE; omega)]
  · rw [hl, if_neg (by unfold MAXFILE; omega), slot_indirect he, slot_indirect he, if_pos h0, hind,
      hz e he, ite_self]
  · rw [hl, slot_maxfile, hind, if_pos rfl]
  · rw [slot_beyond hl, slot_beyond hl, if_neg (by omega)]

theorem slot_putAddr (h0 : n.addrs NDIRECT ≠ 0) (hj : j < NINDIRECT) (hb : b < 2 ^ 32) (l : ℕ) :
    slot (update d (n.addrs NDIRECT) (putAddr (d (n.addrs NDIRECT)) j b)) n l
      = if l = NDIRECT + j then b else slot d n l := by
  obtain hl | ⟨e, he, hl⟩ | hl | hl := place_cases l
  · rw [slot_direct hl, slot_direct hl, if_neg (by omega)]
  · rw [hl, slot_indirect he, slot_indirect he, if_neg h0, if_neg h0, update_self, getAddr_putAddr hb]
    simp
  · rw [hl, slot_maxfile, slot_maxfile, if_neg (by unfold MAXFILE; omega)]
  · rw [slot_beyond hl, slot_beyond hl, if_neg (by unfold MAXFILE at hl; omega)]

theorem slot_of_addrs (h : n'.addrs = n.addrs) (j : ℕ) : slot d n' j = slot d n j := by
  unfold slot
  rw [h]

end slots

/-! ### Ownership -/

/-- Inode `i` is allocated. -/
def Alloc (sb : Superblock) (N : ℕ → Dinode) (i : ℕ) : Prop := i < sb.ninodes ∧ (N i).type ≠ 0

instance (sb : Superblock) (N : ℕ → Dinode) (i : ℕ) : Decidable (Alloc sb N i) :=
  inferInstanceAs (Decidable (_ ∧ _))

/-- The block of an owner: an inode number and a place. -/
def own (sb : Superblock) (d : Disk) (N : ℕ → Dinode) (o : ℕ × ℕ) : ℕ :=
  if Alloc sb N o.1 then slot d (N o.1) o.2 else 0

/-- The bit of block `b` is set. -/
def Marked (sb : Superblock) (d : Disk) (b : ℕ) : Prop := getBit (d (sb.bblock b)) (b % BPB) = true

/-- The bitmap has exactly the metadata blocks, the blocks of allocated inodes and those in
transit. -/
abbrev Owned (sb : Superblock) (d : Disk) (N : ℕ → Dinode) (X : Set ℕ) : Prop :=
  Ledger sb.nmeta sb.size (own sb d N) (Marked sb d) X

section owners
variable {sb : Superblock} {d d' : Disk} {N N' : ℕ → Dinode} {n : Dinode} {X : Set ℕ} {i j b : ℕ}

theorem own_of_alloc (h : Alloc sb N i) (j : ℕ) : own sb d N (i, j) = slot d (N i) j := if_pos h

theorem own_of_not_alloc (h : ¬ Alloc sb N i) (j : ℕ) : own sb d N (i, j) = 0 := if_neg h

/-- Ownership depends on the disk only through the indirect blocks. -/
theorem own_disk (h : ∀ i, Alloc sb N i → (N i).addrs NDIRECT ≠ 0 → d' ((N i).addrs NDIRECT) =
    d ((N i).addrs NDIRECT)) : own sb d' N = own sb d N := by
  funext o
  unfold own
  split_ifs with ho
  · exact slot_congr (h o.1 ho) o.2
  · rfl

section
variable (hi : Alloc sb N i) (hn : n.type ≠ 0)
include hi hn

theorem alloc_update (k : ℕ) : Alloc sb (update N i n) k ↔ Alloc sb N k := by
  unfold Alloc
  by_cases hk : k = i
  · rw [hk, update_self]
    exact ⟨fun _ => hi, fun _ => ⟨hi.1, hn⟩⟩
  · rw [update_of_ne hk]

/-- The owners after a change of one inode that is allocated. -/
theorem own_update (o : ℕ × ℕ) :
    own sb d (update N i n) o = if o.1 = i then slot d n o.2 else own sb d N o := by
  obtain ⟨k, j⟩ := o
  by_cases hk : Alloc sb N k
  · rw [own_of_alloc ((alloc_update hi hn k).mpr hk), own_of_alloc hk]
    dsimp only
    split_ifs with hki
    · rw [hki, update_self]
    · rw [update_of_ne hki]
  · rw [own_of_not_alloc (fun h => hk ((alloc_update hi hn k).mp h)), own_of_not_alloc hk,
      if_neg (fun h : k = i => hk (h ▸ hi))]

theorem own_update_addrs (ha : n.addrs = (N i).addrs) :
    own sb d (update N i n) = own sb d N := by
  funext o
  obtain ⟨k, j⟩ := o
  rw [own_update hi hn]
  dsimp only
  split_ifs with hk
  · rw [hk, own_of_alloc hi, slot_of_addrs ha]
  · rfl

theorem own_set (h : ∀ l, slot d n l = if l = j then b else slot d (N i) l) :
    own sb d (update N i n) = update (own sb d N) (i, j) b := by
  funext o
  obtain ⟨k, l⟩ := o
  rw [own_update hi hn, update_apply]
  simp only [Prod.mk.injEq]
  by_cases hk : k = i
  · rw [if_pos hk, h, hk, own_of_alloc hi]
    simp
  · rw [if_neg hk, if_neg (fun hkl => hk hkl.1)]

end

theorem own_entry (h : Owned sb d N X) (hi : Alloc sb N i) (h0 : (N i).addrs NDIRECT ≠ 0)
    (hj : j < NINDIRECT) (hb : b < 2 ^ 32) :
      own sb (update d ((N i).addrs NDIRECT) (putAddr (d ((N i).addrs NDIRECT)) j b)) N =
        update (own sb d N) (i, NDIRECT + j) b := by
  have hself : ∀ k, Alloc sb N k → own sb d N (k, MAXFILE) = (N k).addrs NDIRECT := fun k hk => by
    rw [own_of_alloc hk, slot_maxfile]
  funext o
  obtain ⟨k, l⟩ := o
  rw [update_apply]
  simp only [Prod.mk.injEq]
  by_cases hk : Alloc sb N k
  · rw [own_of_alloc hk, own_of_alloc hk]
    by_cases hki : k = i
    · subst hki
      rw [slot_putAddr h0 hj hb]
      simp
    · rw [if_neg (fun hkl => hki hkl.1)]
      apply slot_congr
      intro hk0
      apply update_of_ne
      intro heq
      have : (k, MAXFILE) = (i, MAXFILE) :=
        h.inj (by rw [hself k hk]; exact hk0) (by rw [hself k hk, hself i hi, heq])
      exact hki (congrArg Prod.fst this)
  · rw [own_of_not_alloc hk, own_of_not_alloc hk, if_neg (fun hkl : k = i ∧ _ => hk (hkl.1 ▸ hi))]

/-- The blocks of two different places are different. -/
theorem slot_inj (h : Owned sb d N X) {i' j' : ℕ} (hi : Alloc sb N i) (hi' : Alloc sb N i')
    (h0 : slot d (N i) j ≠ 0) (heq : slot d (N i) j = slot d (N i') j') : i = i' ∧ j = j' := by
  have : (i, j) = (i', j') :=
    h.inj (by rw [own_of_alloc hi]; exact h0) (by rw [own_of_alloc hi, own_of_alloc hi', heq])
  exact ⟨congrArg Prod.fst this, congrArg Prod.snd this⟩

theorem slot_range (h : Owned sb d N X) (hi : Alloc sb N i) (h0 : slot d (N i) j ≠ 0) :
    sb.nmeta ≤ slot d (N i) j ∧ slot d (N i) j < sb.size := by
  have := h.range (o := (i, j)) (by rw [own_of_alloc hi]; exact h0)
  rwa [own_of_alloc hi] at this

theorem marked_disk (hsb : sb.Ok) (h : ∀ c, sb.bmapstart ≤ c → c < sb.nmeta → d' c = d c)
    (hb : b < sb.size) : Marked sb d' b ↔ Marked sb d b := by
  unfold Marked
  rw [h _ (Superblock.Ok.le_bblock sb b) (hsb.bblock_lt hb)]

theorem marked_setBit (hb : ∀ c, sb.bblock c = sb.bblock b → (c % BPB = b % BPB ↔ c = b)) (c : ℕ) :
    Marked sb (update d (sb.bblock b) (setBit (d (sb.bblock b)) (b % BPB))) c ↔ Marked sb d c ∨
      c = b := by
  unfold Marked
  by_cases hc : sb.bblock c = sb.bblock b
  · rw [hc, update_self, getBit_setBit, Bool.or_eq_true, decide_eq_true_eq, hb c hc]
    grind
  · rw [update_of_ne hc]
    have : c ≠ b := fun h => hc (h ▸ rfl)
    grind

theorem marked_clearBit (hb : ∀ c, sb.bblock c = sb.bblock b → (c % BPB = b % BPB ↔ c = b)) (c : ℕ) :
    Marked sb (update d (sb.bblock b) (clearBit (d (sb.bblock b)) (b % BPB))) c ↔ Marked sb d c ∧
      c ≠ b := by
  unfold Marked
  by_cases hc : sb.bblock c = sb.bblock b
  · rw [hc, update_self, getBit_clearBit, Bool.and_eq_true, decide_eq_true_eq, ne_eq, hb c hc]
    grind
  · rw [update_of_ne hc]
    have : c ≠ b := fun h => hc (h ▸ rfl)
    grind

theorem bblock_mod (sb : Superblock) (b c : ℕ) (h : sb.bblock c = sb.bblock b) : c % BPB = b % BPB ↔
    c = b := by
  have hdiv : c / BPB = b / BPB := by
    unfold Superblock.bblock at h
    omega
  constructor
  · intro hmod
    rw [← Nat.div_add_mod c BPB, ← Nat.div_add_mod b BPB, hdiv, hmod]
  · exact fun h => h ▸ rfl

end owners

/-! ### Abstract inodes -/

/-- An inode as system calls see it. -/
@[ext]
structure Node where
  type : ℤ
  major : ℤ
  minor : ℤ
  nlink : ℤ
  data : List UInt8
  deriving DecidableEq

/-- Byte `o` of the contents of an inode. -/
def byteAt (d : Disk) (n : Dinode) (o : ℕ) : UInt8 := d (slot d n (o / BSIZE)) (o % BSIZE)

/-- The inode that is stored in `n` and its blocks. -/
def nodeOf (d : Disk) (n : Dinode) : Node where
  type := n.type
  major := n.major
  minor := n.minor
  nlink := n.nlink
  data := (List.range n.size).map (byteAt d n)

/-- There is a block for every byte below the size. -/
structure Full (d : Disk) (n : Dinode) : Prop where
  size : n.size ≤ MAXFILE * BSIZE
  block : ∀ j, j * BSIZE < n.size → slot d n j ≠ 0

section nodes
variable {d d' : Disk} {n n' : Dinode} {o : ℕ}

@[simp] theorem length_data (d : Disk) (n : Dinode) : (nodeOf d n).data.length = n.size := by
  simp [nodeOf]

theorem Full.byte (h : Full d n) (ho : o < n.size) : slot d n (o / BSIZE) ≠ 0 :=
  h.block _ (lt_of_le_of_lt (Nat.div_mul_le_self o BSIZE) ho)

theorem nodeOf_eq (ht : n'.type = n.type) (hmaj : n'.major = n.major) (hmin : n'.minor = n.minor)
    (hl : n'.nlink = n.nlink) (hs : n'.size = n.size)
    (hb : ∀ o < n.size, byteAt d' n' o = byteAt d n o) : nodeOf d' n' = nodeOf d n := by
  unfold nodeOf
  rw [ht, hmaj, hmin, hl, hs]
  congr 1
  exact List.map_congr_left (fun o ho => hb o (List.mem_range.mp ho))

/-- The inode does not change with the blocks that it does not have. -/
theorem nodeOf_disk (hf : Full d n) (h : ∀ j, slot d n j ≠ 0 → d' (slot d n j) = d (slot d n j)) :
    nodeOf d' n = nodeOf d n := by
  have hslot : ∀ j, slot d' n j = slot d n j := slot_congr (fun h0 => by
    have := h MAXFILE
    rw [slot_maxfile] at this
    exact this h0)
  refine nodeOf_eq rfl rfl rfl rfl rfl (fun o ho => ?_)
  unfold byteAt
  rw [hslot, h _ (hf.byte ho)]

end nodes

end Xv6Cow.Fs

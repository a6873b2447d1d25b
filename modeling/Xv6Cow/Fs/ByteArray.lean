import Mathlib.Data.List.GetD
import Xv6Cow.Fs.Content

/-! # Inodes as byte arrays

What `readi` and `writei` do, said about the contents of the inode as one list of bytes, and about
all the other inodes.  The blocks behind the contents, the indirect block and the bitmap do not
occur here any more; that the others are left alone is what the ownership of blocks gives. -/

namespace Xv6Cow.Fs

open Log (Block Disk)

variable {s s' u : FsState} {n : Dinode} {i k m off tot st : ℕ} {src data data' : List UInt8}

/-- The byte array with `bs` stored at `off`. -/
def overwrite (data : List UInt8) (off : ℕ) (bs : List UInt8) : List UInt8 :=
  data.take off ++ bs ++ data.drop (off + bs.length)

theorem Overwritten.eq (h : Overwritten data data' src off tot tot) (hoff : off ≤ data.length)
    (hsrc : tot ≤ src.length) : data' = overwrite data off (src.take tot) := by
  have hlen : (src.take tot).length = tot := List.length_take_of_le hsrc
  have htake : (data.take off).length = off := List.length_take_of_le hoff
  refine List.ext_getElem ?_ (fun o ho ho' => ?_)
  · rw [h.length]
    simp only [overwrite, List.length_append, List.length_drop, hlen, htake]
    omega
  · have hbyte := h.byte o ho
    rw [List.getD_eq_getElem _ _ ho] at hbyte
    rw [hbyte]
    simp only [overwrite, List.append_assoc]
    rcases Nat.lt_or_ge o off with hlo | hlo
    · rw [if_neg (by omega), List.getElem_append_left (by omega), List.getElem_take,
        List.getD_eq_getElem _ _ (by omega)]
    · rw [List.getElem_append_right (by omega)]
      simp only [htake]
      rcases Nat.lt_or_ge o (off + tot) with hhi | hhi
      · rw [if_pos ⟨hlo, hhi⟩, List.getElem_append_left (by omega), List.getElem_take,
          List.getD_eq_getElem _ _ (by omega)]
      · have hin : o < data.length := by
          have := h.length
          omega
        rw [if_neg (by omega), List.getElem_append_right (by omega), List.getElem_drop,
          List.getD_eq_getElem _ _ hin]
        congr 1
        omega

/-- `readi` of the inode in entry `k` reads the byte array `data`, whatever is asked for. -/
def Reads (s : FsState) (k : ℕ) (data : List UInt8) : Prop :=
  ∀ off n room, n < 2 ^ 32 → n ≤ room → readi k off n room s = .ok (readOf data off n, s)

/-- The other inodes: their fields, their contents, and the addresses of their blocks, those in the
indirect block included. -/
structure OthersKept (s s' : FsState) (i : ℕ) : Prop where
  dinode : ∀ m < s.sb.ninodes, m ≠ i → s'.dinode m = s.dinode m
  node : ∀ m, m ≠ i → Alloc s.sb s.dinode m → s'.node m = s.node m
  addrs : ∀ m, m ≠ i → Alloc s.sb s.dinode m → ∀ j, slot s'.disk (s'.dinode m) j =
    slot s.disk (s.dinode m) j

/-- `writei` is refused: the offset is past the contents, the sum wraps round, or the end is past
the largest file. -/
def Refused (s : FsState) (i off n : ℕ) : Prop :=
  (s.dinode i).size < off ∨ 2 ^ 32 ≤ off + n ∨ MAXFILE * BSIZE < off + n

/-- What a call of `writei` that returns `r` does. -/
structure WritesBytes (s s' : FsState) (k i : ℕ) (src : List UInt8) (off n : ℕ) (r : ℤ) : Prop where
  refused : Refused s i off n → r = -1 ∧ s' = s
  done : ¬ Refused s i off n → ∃ tot ≤ n, r = tot ∧ (tot < n → NoRoom s') ∧
    (s'.dinode i).size = max (s.dinode i).size (off + tot) ∧
      Reads s' k (overwrite (s.node i).data off (src.take tot))
  others : OthersKept s s' i

theorem Mid.reads (h : Mid s s.dinode ∅) (hc : Cached s k i) (hi : Alloc s.sb s.dinode i) :
    Reads s k (s.node i).data := by
  intro off n room hn hroom
  obtain ⟨r, bs, hrun, hres⟩ := readi_mid h hc hi off n room hn
  rw [hrun, hres hroom]

theorem Finished.others (h : Mid s s.dinode ∅) (hi : Alloc s.sb s.dinode i)
    (hf : Finished s s' u i k n src off m tot st) : OthersKept s s' i := by
  obtain ⟨-, hext, hmid, rfl, -⟩ := hf
  have hfits : (n.grow (off + tot)).Fits := by
    have := hmid.fits i
    rwa [Function.update_self] at this
  have hit : i < (u.withDin k (n.grow (off + tot))).sb.ninodes := hext.sb ▸ hi.1
  have hdinode : ∀ m < s.sb.ninodes, m ≠ i →
      ((u.withDin k (n.grow (off + tot))).wrote i (n.grow (off + tot))).dinode m = s.dinode m :=
      fun m hm hne => by rw [wrote_dinode h hext hfits hm, if_neg hne]
  have halloc : ∀ m, Alloc s.sb s.dinode m → Alloc (u.withDin k (n.grow (off + tot))).sb
      (Function.update s.dinode i (n.grow (off + tot))) m := fun m ha => by
    rw [hext.sb]
    exact (alloc_update hi (by rw [hext.type]; exact hi.2) m).mpr ha
  refine ⟨hdinode, fun m hne ha => ?_, fun m hne ha j => ?_⟩
  · have hnode := wrote_nodeOf (n := n.grow (off + tot)) hmid hit (halloc m ha)
    rw [Function.update_of_ne hne, hext.nodeOf_other h hne ha] at hnode
    unfold FsState.node
    rw [hdinode m ha.1 hne]
    exact hnode
  · have hslot := wrote_slot (n := n.grow (off + tot)) hmid.sb hmid.owned hit (halloc m ha) j
    rw [Function.update_of_ne hne] at hslot
    rw [hdinode m ha.1 hne, hslot]
    refine slot_congr (fun h0 => ?_) j
    have := hext.others m hne ha MAXFILE
    rw [slot_maxfile] at this
    exact this h0

theorem Finished.self (hc : Cached s k i) (hi : Alloc s.sb s.dinode i) (hoff : off ≤ (s.dinode i).size)
    (hsrc : m ≤ src.length) (hf : Finished s s' u i k n src off m tot st) :
    (tot < m → NoRoom s') ∧ (s'.dinode i).size = max (s.dinode i).size (off + tot) ∧
      Reads s' k (overwrite (s.node i).data off (src.take tot)) := by
  obtain ⟨hst, hext, hmid, rfl, hshort⟩ := hf
  have hfits : (n.grow (off + tot)).Fits := by
    have := hmid.fits i
    rwa [Function.update_self] at this
  have hit : i < (u.withDin k (n.grow (off + tot))).sb.ninodes := hext.sb ▸ hi.1
  have hself : ((u.withDin k (n.grow (off + tot))).wrote i (n.grow (off + tot))).dinode i =
      n.grow (off + tot) :=
    wrote_dinode_self hfits
  have hn : (n.grow (off + tot)).type ≠ 0 := by
    rw [hext.type]
    exact hi.2
  have hover := hst.overwritten hoff
  rw [hst.whole hsrc] at hover
  have hlen : (s.node i).data.length = (s.dinode i).size := length_data _ _
  refine ⟨fun hlt b hb => ?_, ?_, ?_⟩
  · refine (marked_disk hmid.sb (fun c hc _ => wrote_disk_of_ne ?_) hb).mpr (hshort hlt hsrc b hb)
    have := hmid.sb.iblock_lt hit
    omega
  · rw [hself, Dinode.grow_eq, hst.written.size]
  · have hnode : ((u.withDin k (n.grow (off + tot))).wrote i (n.grow (off + tot))).node i =
        nodeOf u.disk (n.grow (off + tot)) := by
      have := wrote_nodeOf (n := n.grow (off + tot)) hmid hit
        (m := i) ⟨hit, by rw [Function.update_self]; exact hn⟩
      rw [Function.update_self] at this
      unfold FsState.node
      rw [hself]
      exact this
    rw [← hover.eq (by rw [hlen]; exact hoff) (hst.le.trans hsrc), ← hnode]
    exact (hmid.written hit).reads ((stays_wrote hext).cached hc) ⟨hit, by rw [hself]; exact hn⟩

/-- **An inode is a byte array.**  For every inode without holes, every offset and length, and data
that can be read: `readi` reads its contents as they are; `writei` is refused and changes nothing,
or it stores some of the data, less than all only when no block is left, and `readi` then reads the
new contents.  No other inode changes. -/
theorem readi_writei_bytes (h : Mid s s.dinode ∅) (hc : Cached s k i) (hi : Alloc s.sb s.dinode i)
    (hop : 0 < s.outstanding) (off n : ℕ) (hn : n < 2 ^ 32) (hsrc : n ≤ src.length) :
    Reads s k (s.node i).data ∧ ∃ r s', writei k src off n s = .ok (r, s') ∧
      WritesBytes s s' k i src off n r := by
  refine ⟨h.reads hc hi, ?_⟩
  have hbig : MAXFILE * BSIZE < 2 ^ 32 := by decide
  obtain ⟨r, s', hrun, hres⟩ := wp_returns
    (c := writei k src off n) (writei_mid h hc hi hop hn (fun _ => hsrc))
  refine ⟨r, s', hrun, ?_⟩
  rcases hres with ⟨rfl, rfl, hbad⟩ | ⟨hoff, hmax, u, d, tot, st, rfl, hf⟩
  · exact ⟨fun _ => ⟨rfl, rfl⟩, fun hgood => absurd hbad hgood, fun _ _ _ => rfl, fun _ _ _ => rfl,
      fun _ _ _ _ => rfl⟩
  · refine ⟨fun hbad => ?_, fun _ => ⟨tot, hf.stored.le, rfl, hf.self hc hi hoff hsrc⟩, hf.others h hi⟩
    unfold Refused at hbad
    omega

/-! ### A file system with a root directory and an empty file -/

/-- The root: its entries are in block 4. -/
def rootDir : Dinode :=
  { type := T_DIR, nlink := 1, size := 48, addrs := fun j => if j = 0 then 4 else 0 }

def emptyFile : Dinode := { type := T_FILE, nlink := 1 }

/-- Inode 1 is the root and inode 2 the file. -/
def sampleDinode (i : ℕ) : Dinode := if i = 1 then rootDir else if i = 2 then emptyFile else {}

theorem sampleDinode_fits (i : ℕ) : (sampleDinode i).Fits := by
  unfold sampleDinode
  split_ifs
  · refine ⟨by decide, by decide, by decide, by decide, by decide, fun j => ?_,
      fun j hj => if_neg (by omega)⟩
    unfold rootDir
    dsimp only
    split_ifs <;> norm_num
  · exact ⟨by decide, by decide, by decide, by decide, by decide, fun _ => by norm_num [emptyFile],
      fun _ _ => rfl⟩
  · exact ⟨by decide, by decide, by decide, by decide, by decide, fun _ => by norm_num, fun _ _ => rfl⟩

/-- 64 blocks: one inode block, one block of the bitmap, and 60 data blocks. -/
def sampleSb : Superblock where
  magic := FSMAGIC
  size := 64
  nblocks := 60
  ninodes := 16
  nlog := 0
  logstart := 2
  inodestart := 2
  bmapstart := 3

/-- The entries of the root: `.`, `..` and the file `f`. -/
def rootEntries : List UInt8 := dirent 1 [46] ++ dirent 1 [46, 46] ++ dirent 2 [102]

def sampleDisk : Disk := fun b =>
  if b = 2 then putDinode (putDinode (fun _ => 0) (dinodeOff 1) rootDir) (dinodeOff 2) emptyFile
  else if b = 3 then fun x => if x = 0 then 31 else 0
  else if b = 4 then fun x => rootEntries.getD x 0
  else fun _ => 0

/-- A transaction in which inode `n` is held by entry 0 of the inode table. -/
def sampleFs (n : ℕ) : FsState where
  sb := sampleSb
  disk := sampleDisk
  home := sampleDisk
  lh := []
  outstanding := 1
  itable := fun k => if k = 0 then { inum := n, ref := 1, valid := true, din := sampleDinode n } else {}
  ftable := fun _ => {}
  procs := fun _ => {}

theorem getDinode_zero (o : ℕ) : getDinode (fun _ => 0) o = {} := by
  have hle : ∀ a n, Bytes.le (fun _ => 0) a n = 0 := fun a n => Bytes.le_eq_zero (fun _ _ _ => rfl)
  unfold getDinode
  simp only [hle, ite_self]
  rfl

section sample
variable {n i j b : ℕ}

theorem sampleFs_dinode (hi : i < 16) : (sampleFs n).dinode i = sampleDinode i := by
  have hblock : (sampleFs n).sb.iblock i = 2 := by
    change i / 16 + 2 = 2
    omega
  have hdisk : (sampleFs n).dinode i =
      getDinode (putDinode (putDinode (fun _ => 0) (dinodeOff 1) rootDir) (dinodeOff 2) emptyFile)
      (dinodeOff i) := by
    unfold FsState.dinode
    rw [hblock]
    rfl
  rw [hdisk]
  rcases eq_or_ne i 2 with rfl | h2
  · exact getDinode_putDinode (sampleDinode_fits 2)
  rw [getDinode_putDinode_ne (by unfold dinodeOff DINODE_SIZE IPB; omega)]
  rcases eq_or_ne i 1 with rfl | h1
  · exact getDinode_putDinode (sampleDinode_fits 1)
  · rw [getDinode_putDinode_ne (by unfold dinodeOff DINODE_SIZE IPB; omega), getDinode_zero,
      sampleDinode, if_neg h1, if_neg h2]

theorem sampleFs_alloc : Alloc (sampleFs n).sb (sampleFs n).dinode i ↔ i = 1 ∨ i = 2 := by
  constructor
  · rintro ⟨hi, ht⟩
    by_contra hne
    rw [not_or] at hne
    rw [sampleFs_dinode hi, sampleDinode, if_neg hne.1, if_neg hne.2] at ht
    exact ht rfl
  · rintro (rfl | rfl)
    · exact ⟨show 1 < 16 by decide, by rw [sampleFs_dinode (by decide)]; decide⟩
    · exact ⟨show 2 < 16 by decide, by rw [sampleFs_dinode (by decide)]; decide⟩

theorem slot_sample (d : Disk) : slot d (sampleDinode i) j = if i = 1 ∧ j = 0 then 4 else 0 := by
  have hfar : (sampleDinode i).addrs NDIRECT = 0 := by
    unfold sampleDinode
    split_ifs <;> rfl
  unfold slot
  rw [hfar]
  by_cases hj : j < NDIRECT
  · rw [if_pos hj]
    unfold sampleDinode rootDir emptyFile
    split_ifs <;> simp_all
  · have hne : ¬ (i = 1 ∧ j = 0) := fun h => hj (h.2 ▸ by decide)
    rw [if_neg hj, if_neg hne]
    simp

theorem sampleFs_own (o : ℕ × ℕ) :
    own (sampleFs n).sb (sampleFs n).disk (sampleFs n).dinode o = if o = (1, 0) then 4 else 0 := by
  obtain ⟨i, j⟩ := o
  simp only [Prod.mk.injEq]
  by_cases hi : Alloc (sampleFs n).sb (sampleFs n).dinode i
  · rw [own_of_alloc hi, sampleFs_dinode hi.1, slot_sample]
  · rw [own_of_not_alloc hi, if_neg fun h => hi (sampleFs_alloc.mpr (Or.inl h.1))]

theorem sampleFs_marked (hb : b < 64) : Marked (sampleFs n).sb (sampleFs n).disk b ↔ b < 5 := by
  have hall : ∀ b < 64, getBit (fun x => if x = 0 then 31 else 0) b = decide (b < 5) := by decide
  have hblock : (sampleFs n).sb.bblock b = 3 := by
    change b / 8192 + 3 = 3
    omega
  unfold Marked
  rw [hblock, show b % BPB = b from Nat.mod_eq_of_lt (by unfold BPB; omega)]
  change getBit (fun x => if x = 0 then 31 else 0) b = true ↔ b < 5
  rw [hall b hb, decide_eq_true_eq]

theorem sampleFs_owned : Owned (sampleFs n).sb (sampleFs n).disk (sampleFs n).dinode ∅ := by
  refine ⟨by change 0 < 4; decide, fun {o} h => ?_, fun {o o'} h he => ?_,
    fun hb => absurd hb (by simp), fun hb => absurd hb (by simp), fun {b} hb => ?_⟩
  · rw [sampleFs_own] at h ⊢
    split_ifs at h ⊢
    · exact ⟨le_refl 4, by change 4 < 64; decide⟩
    · exact absurd rfl h
  · simp only [sampleFs_own] at h he
    split_ifs at h he with h1 h2
    · rw [h1, h2]
    · exact absurd rfl h
  · rw [sampleFs_marked hb]
    simp only [sampleFs_own]
    change b < 5 ↔ b < 4 ∨ _
    refine ⟨fun hlt => ?_, ?_⟩
    · rcases Nat.lt_or_eq_of_le (Nat.le_of_lt_succ hlt) with h | rfl
      · exact Or.inl h
      · exact Or.inr (Or.inr ⟨(1, 0), rfl⟩)
    · rintro (h | h | ⟨o, h⟩)
      · omega
      · exact absurd h (by simp)
      · split_ifs at h <;> omega

theorem sampleFs_mid (hn : n = 1 ∨ n = 2) : Mid (sampleFs n) (sampleFs n).dinode ∅ where
  sb := show sampleSb.Ok from ⟨by decide, by decide, by decide, by decide, by decide⟩
  owned := sampleFs_owned
  full := fun i hi => by
    rw [sampleFs_dinode hi.1]
    refine ⟨?_, fun j hj => ?_⟩
    · rcases sampleFs_alloc.mp hi with rfl | rfl <;> decide
    · rw [slot_sample]
      rcases sampleFs_alloc.mp hi with rfl | rfl
      · change j * 1024 < 48 at hj
        simp [show j = 0 by omega]
      · exact absurd hj (Nat.not_lt_zero _)
  fits := fun _ => getDinode_fits _ _
  disk := fun _ _ _ => rfl
  table := by
    have hzero : ∀ k, 0 < ((sampleFs n).itable k).ref → k = 0 := fun k hk => by
      by_contra hne
      have : ((sampleFs n).itable k) = {} := if_neg hne
      rw [this] at hk
      exact absurd hk (by decide)
    have hlt : 0 < n ∧ n < 16 := by omega
    refine ⟨fun k hk => ?_, fun k hk => ?_, fun k l hk hl _ => ?_, fun k hk _ => ?_⟩
    · rw [hzero k hk]
      decide
    · rw [hzero k hk]
      exact hlt
    · rw [hzero k hk, hzero l hl]
    · rw [hzero k hk]
      exact (sampleFs_dinode hlt.2).symm
  loose := fun b _ hne => absurd rfl hne

end sample

/-- Three bytes written to the empty file. -/
theorem readi_writei_bytes_sample : Reads (sampleFs 2) 0 ((sampleFs 2).node 2).data ∧
    ∃ r s', writei 0 [1, 2, 3] 0 3 (sampleFs 2) = .ok (r, s') ∧
      WritesBytes (sampleFs 2) s' 0 2 [1, 2, 3] 0 3 r :=
  readi_writei_bytes (sampleFs_mid (Or.inr rfl)) ⟨by decide, rfl, rfl⟩
    (sampleFs_alloc.mpr (Or.inr rfl)) (by decide) 0 3 (by norm_num) (by decide)

end Xv6Cow.Fs

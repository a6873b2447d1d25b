import Xv6Cow.Fs.Alloc

/-! # Writing inodes back, and truncation

`iupdate` makes the inode block agree with the inode in memory.  `itrunc` gives back the direct
blocks, the blocks named by the indirect block, and the indirect block.  While it works the blocks
still to be freed are in transit, so at each `bfree` the bit is set, and at the end none is left. -/

namespace Xv6Cow.Fs

open Log (Block Disk)
open Function (update update_self update_eq_self update_idem update_apply)

variable {s s' t : FsState} {N : ℕ → Dinode} {D X : Set ℕ} {n n' : Dinode} {i j k m b c r : ℕ}

/-! ### `iupdate` -/

/-- The state after inode `i` has been written to its block. -/
def FsState.wrote (s : FsState) (i : ℕ) (n : Dinode) : FsState :=
  s.wr (s.sb.iblock i) (fun b => putDinode b (dinodeOff i) n)

@[simp] theorem wrote_sb : (s.wrote i n).sb = s.sb := rfl
@[simp] theorem wrote_home : (s.wrote i n).home = s.home := rfl
@[simp] theorem wrote_outstanding : (s.wrote i n).outstanding = s.outstanding := rfl
@[simp] theorem wrote_itable : (s.wrote i n).itable = s.itable := rfl
@[simp] theorem wrote_ftable : (s.wrote i n).ftable = s.ftable := rfl
@[simp] theorem wrote_procs : (s.wrote i n).procs = s.procs := rfl

theorem wrote_disk_of_ne (h : c ≠ s.sb.iblock i) : (s.wrote i n).disk c = s.disk c := by
  unfold FsState.wrote
  rw [wr_disk, if_neg h]

theorem mem_wrote_lh : c ∈ (s.wrote i n).lh ↔ c ∈ s.lh ∨ c = s.sb.iblock i := mem_wr_lh

theorem wrote_dinode_self (h : n.Fits) : (s.wrote i n).dinode i = n := by
  unfold FsState.dinode FsState.wrote
  rw [wr_sb, wr_disk, if_pos rfl]
  exact getDinode_putDinode h

/-- Two inodes of one block are at different offsets. -/
theorem wrote_dinode_ne (h : m ≠ i) : (s.wrote i n).dinode m = s.dinode m := by
  unfold FsState.dinode FsState.wrote
  rw [wr_sb, wr_disk]
  split_ifs with hb
  · rw [hb]
    apply getDinode_putDinode_ne
    unfold Superblock.iblock IPB at hb
    unfold dinodeOff DINODE_SIZE IPB
    omega
  · rfl

/-- The blocks of an inode are not inode blocks. -/
theorem wrote_disk_slot (hsb : s.sb.Ok) (h : Owned s.sb s.disk N X) (hi : i < s.sb.ninodes)
    (hm : Alloc s.sb N m) (h0 : slot s.disk (N m) j ≠ 0) :
    (s.wrote i n).disk (slot s.disk (N m) j) = s.disk (slot s.disk (N m) j) := by
  apply wrote_disk_of_ne
  have := (slot_range h hm h0).1
  have := hsb.iblock_lt hi
  have := hsb.bmapstart_lt
  omega

theorem wrote_slot (hsb : s.sb.Ok) (h : Owned s.sb s.disk N X) (hi : i < s.sb.ninodes)
    (hm : Alloc s.sb N m) (j : ℕ) : slot (s.wrote i n).disk (N m) j = slot s.disk (N m) j := by
  apply slot_congr
  intro h0
  have := wrote_disk_slot (n := n) hsb h hi hm (j := MAXFILE)
  rw [slot_maxfile] at this
  exact this h0

theorem wrote_nodeOf (h : Mid s N D) (hi : i < s.sb.ninodes) (hm : Alloc s.sb N m) :
    nodeOf (s.wrote i n).disk (N m) = nodeOf s.disk (N m) :=
  nodeOf_disk (h.full m hm) (fun _ h0 => wrote_disk_slot h.sb h.owned hi hm h0)

/-- **`iupdate`** brings one inode block up to date. -/
theorem Mid.wrote (h : Mid s N D) (hi : i < s.sb.ninodes) : Mid (s.wrote i (N i)) N (D \ {i}) where
  sb := h.sb
  owned := by
    refine h.owned.congr (own_disk (fun m hm h0 => ?_))
      (fun b hb => marked_disk h.sb (fun c hc _ => ?_) hb)
    · have := wrote_disk_slot (n := N i) h.sb h.owned hi hm (j := MAXFILE)
      rw [slot_maxfile] at this
      exact this h0
    · apply wrote_disk_of_ne
      have := h.sb.iblock_lt hi
      rw [wrote_sb] at hc
      omega
  full := fun m hm => ⟨(h.full m hm).size, fun j hj => by
    rw [wrote_slot h.sb h.owned hi hm]
    exact (h.full m hm).block j hj⟩
  fits := h.fits
  disk := fun m hm hmD => by
    by_cases hmi : m = i
    · rw [hmi, wrote_dinode_self (h.fits i)]
    · rw [wrote_dinode_ne hmi]
      exact h.disk m hm (fun hd => hmD ⟨hd, hmi⟩)
  table := h.table
  loose := fun b hb hne => by
    rw [mem_wrote_lh, not_or] at hb
    rw [wrote_disk_of_ne hb.2] at hne
    have hold := h.loose b hb.1 hne
    refine ⟨hold.1, fun m j hm hs => hold.2 m j hm ?_⟩
    rwa [wrote_slot h.sb h.owned hi hm] at hs

theorem Mid.din (h : Mid s N D) (hc : Cached s k i) : (s.itable k).din = N i := by
  rw [h.table.cached k hc.ref hc.valid, hc.inum]

theorem iupdate_spec (h : Mid s N D) (hc : Cached s k i) (hop : 0 < s.outstanding) :
    wp (iupdate k) (fun _ s' => s' = s.wrote i (N i)) (fun _ => False) s := by
  have hdin : (s.itable k).din = N i := by rw [h.table.cached k hc.ref hc.valid, hc.inum]
  unfold iupdate
  simp only [wp_bind, wp_get]
  rw [wp_write hop, hc.inum, hdin]
  rfl

/-- Once every inode has been written back, the disk says what the inodes are. -/
theorem Mid.settle (h : Mid s N ∅) : Mid s s.dinode ∅ := by
  have heq : ∀ m, m < s.sb.ninodes → N m = s.dinode m :=
    fun m hm => (h.disk m hm (Set.notMem_empty m)).symm
  have halloc : ∀ m, Alloc s.sb s.dinode m → Alloc s.sb N m ∧ N m = s.dinode m := fun m hm =>
    ⟨⟨hm.1, by rw [heq m hm.1]; exact hm.2⟩, heq m hm.1⟩
  have hown : own s.sb s.disk s.dinode = own s.sb s.disk N := by
    funext o
    obtain ⟨m, j⟩ := o
    by_cases hm : Alloc s.sb s.dinode m
    · rw [own_of_alloc hm, own_of_alloc (halloc m hm).1, (halloc m hm).2]
    · rw [own_of_not_alloc hm, own_of_not_alloc
        (fun hm' => hm ⟨hm'.1, by rw [← heq m hm'.1]; exact hm'.2⟩)]
  refine ⟨h.sb, h.owned.congr hown (fun _ _ => Iff.rfl), fun m hm => ?_,
    fun m => getDinode_fits _ _, fun _ _ _ => rfl, ⟨h.table.small, h.table.inum, h.table.inj,
      fun l hl hv => ?_⟩, fun b hb hne => ?_⟩
  · rw [← (halloc m hm).2]
    exact h.full m (halloc m hm).1
  · rw [h.table.cached l hl hv, heq _ (h.table.inum l hl).2]
  · have hold := h.loose b hb hne
    refine ⟨hold.1, fun m j hm hs => ?_⟩
    rw [← (halloc m hm).2] at hs ⊢
    exact hold.2 m j (halloc m hm).1 hs

/-! ### `itrunc` -/

/-- The inode after the first `c` direct blocks have been freed. -/
def Dinode.cleared (n : Dinode) (c : ℕ) : Dinode :=
  { n with addrs := fun j => if j < c then 0 else n.addrs j }

/-- The inode without contents. -/
def Dinode.empty (n : Dinode) : Dinode := { n with addrs := fun _ => 0, size := 0 }

theorem Dinode.cleared_zero (n : Dinode) : n.cleared 0 = n := by
  unfold Dinode.cleared
  simp

theorem Dinode.cleared_addrs (n : Dinode) (c : ℕ) : (n.cleared c).addrs c = n.addrs c :=
  if_neg (lt_irrefl c)

theorem Dinode.setAddr_cleared (n : Dinode) (c : ℕ) : (n.cleared c).setAddr c 0 = n.cleared (c + 1) := by
  unfold Dinode.cleared Dinode.setAddr
  congr 1
  funext j
  rw [update_apply]
  dsimp only
  by_cases h1 : j = c
  · rw [if_pos h1, if_pos (by omega)]
  · rw [if_neg h1]
    by_cases h2 : j < c
    · rw [if_pos h2, if_pos (by omega)]
    · rw [if_neg h2, if_neg (by omega)]

theorem Dinode.empty_fits (h : n.Fits) : n.empty.Fits :=
  { h with
    size := by norm_num [Dinode.empty]
    addrs := fun _ => by norm_num [Dinode.empty]
    bound := fun _ _ => rfl }

theorem slot_empty (d : Disk) (n : Dinode) (j : ℕ) : slot d n.empty j = 0 := by
  unfold slot Dinode.empty
  simp

/-- What freeing blocks of an inode leaves of the rest: only the bitmap has changed. -/
structure Freed (s s' : FsState) (k : ℕ) (n : Dinode) : Prop where
  rest : s' = { s with
    disk := s'.disk, lh := s'.lh, itable := update s.itable k { s.itable k with din := n } }
  lh : ∀ b ∈ s.lh, b ∈ s'.lh
  bitmap : ∀ b, s'.disk b ≠ s.disk b → b ∈ s'.lh ∧ s.sb.bmapstart ≤ b ∧ b < s.sb.nmeta

theorem Freed.sb (h : Freed s s' k n) : s'.sb = s.sb := by rw [h.rest]
theorem Freed.outstanding (h : Freed s s' k n) : s'.outstanding = s.outstanding := by rw [h.rest]

theorem Freed.itable (h : Freed s s' k n) : s'.itable k = { s.itable k with din := n } := by
  rw [h.rest]
  exact update_self _ _ _

theorem Freed.disk (h : Freed s s' k n) (hb : s.sb.nmeta ≤ b) : s'.disk b = s.disk b := by
  by_contra hne
  have := (h.bitmap b hne).2.2
  omega

theorem Freed.din (h : Freed s s' k n) (n' : Dinode) : Freed s (s'.withDin k n') k n' := by
  refine ⟨?_, h.lh, h.bitmap⟩
  rw [h.rest]
  simp [FsState.withDin, FsState.setEntry]

theorem Freed.gave (hsb : s.sb.Ok) (h : Freed s s' k n) (hb : b < s.sb.size) :
    Freed s (s'.gave b) k n := by
  refine ⟨?_, fun c hc => mem_gave_lh.mpr (Or.inl (h.lh c hc)), fun c hc => ?_⟩
  · have hrest := h.rest
    apply eq_rest
    · exact h.sb
    · change s'.home = _
      rw [hrest]
    · exact h.outstanding
    · change s'.itable = _
      rw [hrest]
    · change s'.ftable = _
      rw [hrest]
    · change s'.procs = _
      rw [hrest]
  · by_cases hcb : c = s'.sb.bblock b
    · rw [h.sb] at hcb
      exact ⟨mem_gave_lh.mpr (Or.inr (by rw [h.sb]; exact hcb)), hcb ▸ Superblock.Ok.le_bblock _ _,
        hcb ▸ hsb.bblock_lt hb⟩
    · rw [gave_disk_of_ne hcb] at hc
      have := h.bitmap c hc
      exact ⟨mem_gave_lh.mpr (Or.inl this.1), this.2⟩

/-- What is freed belongs to `i`, so the other inodes are as they were. -/
theorem Freed.ext (h : Mid s N D) (hf : Freed s s' k n) (ht : n.type = (N i).type)
    (hz : ∀ d j, slot d n j = 0) : Ext s s' N i k n where
  rest := hf.rest
  lh := hf.lh
  low := fun b hb => by
    by_contra hne
    have := (hf.bitmap b hne).2.1
    omega
  others := fun m _ hm j h0 => hf.disk (slot_range h.owned hm h0).1
  type := ht
  fresh := fun j h0 => absurd (hz _ j) h0
  logged := fun b hb => Or.inl (by
    by_contra hne
    exact hb (hf.bitmap b hne).1)

theorem bfree_transit (hsb : t.sb.Ok) (hop : 0 < t.outstanding) (ho : Owned t.sb t.disk N X)
    (hb : b ∈ X) : wp (bfree b) (fun _ t' => t' = t.gave b ∧ Owned t.sb t'.disk N (X \ {b}))
      (fun _ => False) t := by
  apply wp_post (bfree_spec hop (ho.used_transit hb))
  intro _ t' ht'
  exact ⟨ht', ht' ▸ Owned.gave hsb ho hb⟩

theorem itruncDirect_spec (h : Mid s N D) (hi : Alloc s.sb N i) (hop : 0 < s.outstanding) :
    ∀ (m c : ℕ) (t : FsState), c + m = NDIRECT → Freed s t k ((N i).cleared c) →
      Owned s.sb t.disk (update N i ((N i).cleared c)) ∅ →
    wp (itruncDirect k m c) (fun _ t' => Freed s t' k ((N i).cleared NDIRECT) ∧
      Owned s.sb t'.disk (update N i ((N i).cleared NDIRECT)) ∅) (fun _ => False) t
  | 0, c, t, hc, hf, ho => by
      rw [itruncDirect, wp_pure]
      have hc' : c = NDIRECT := by omega
      exact hc' ▸ ⟨hf, ho⟩
  | m + 1, c, t, hc, hf, ho => by
      have hcd : c < NDIRECT := by omega
      have hcur := Dinode.cleared_addrs (N i) c
      have hnext := Dinode.setAddr_cleared (N i) c
      have hi' : Alloc s.sb (update N i ((N i).cleared c)) i := by
        unfold Alloc
        rw [update_self]
        exact hi
      rw [itruncDirect]
      simp only [getInode, wp_bind, wp_get, wp_pure, hf.itable, hcur]
      rw [wp_ite]
      constructor
      · intro hne
        have hslot : slot t.disk ((N i).cleared c) c = (N i).addrs c := by rw [slot_direct hcd, hcur]
        have hown : own s.sb t.disk (update N i ((N i).cleared c)) (i, c) = (N i).addrs c := by
          rw [own_of_alloc hi', update_self, hslot]
        have hdet := ho.detach_one (o := (i, c)) (by rw [hown]; exact hne)
        rw [hown] at hdet
        have hset : own s.sb t.disk (update N i ((N i).cleared (c + 1)))
            = update (own s.sb t.disk (update N i ((N i).cleared c))) (i, c) 0 := by
          have := own_set (d := t.disk) (n := (N i).cleared (c + 1)) (j := c) (b := 0) hi' hi.2
            (fun l => by rw [← hnext, slot_setAddr hcd, update_self])
          rwa [update_idem] at this
        have ho' : Owned t.sb t.disk (update N i ((N i).cleared (c + 1)))
            (insert ((N i).addrs c) ∅) := by
          rw [hf.sb]
          exact hdet.congr hset (fun _ _ => Iff.rfl)
        have hlt := (ho'.transit (Set.mem_insert _ ∅)).2
        rw [hf.sb] at hlt
        simp only [wp_bind]
        apply wp_post (bfree_transit (hf.sb ▸ h.sb) (hf.outstanding ▸ hop) ho' (Set.mem_insert _ ∅))
        rintro _ t' ⟨rfl, ho''⟩
        rw [Set.insert_sdiff_of_mem _ (Set.mem_singleton _), Set.empty_sdiff, hf.sb] at ho''
        rw [wp_modifyDin, gave_itable, hf.itable]
        apply itruncDirect_spec h hi hop m (c + 1) _ (by omega)
        · have := (Freed.gave h.sb hf hlt).din ((N i).cleared (c + 1))
          rw [← hnext] at this ⊢
          exact this
        · exact ho''
      · intro heq
        rw [not_not] at heq
        have hsame : (N i).cleared (c + 1) = (N i).cleared c := by
          rw [← hnext]
          unfold Dinode.setAddr
          rw [← heq, ← hcur, update_eq_self]
        apply itruncDirect_spec h hi hop m (c + 1) t (by omega)
        · exact hsame ▸ hf
        · exact hsame ▸ ho

/-- The indirect block and the blocks of its entries from `j` on. -/
def pending (blk : Block) (ind j : ℕ) : Set ℕ :=
  {b | b = ind ∨ (b ≠ 0 ∧ ∃ e, j ≤ e ∧ e < NINDIRECT ∧ getAddr blk e = b)}

/-- The loop over the entries of the indirect block. -/
theorem itruncIndirect_spec {blk : Block} {ind : ℕ} (hsb : s.sb.Ok) (hop : 0 < s.outstanding)
    (hmeta : s.sb.nmeta ≤ ind) (hblk : s.disk ind = blk)
    (hself : ∀ e < NINDIRECT, getAddr blk e ≠ ind)
    (hinj : ∀ e < NINDIRECT, ∀ e' < NINDIRECT, getAddr blk e ≠ 0 → getAddr blk e = getAddr blk e' →
      e = e') :
    ∀ (m j : ℕ) (t : FsState), j + m = NINDIRECT → Freed s t k n →
      Owned s.sb t.disk N (pending blk ind j) →
    wp (itruncIndirect ind m j)
      (fun _ t' => Freed s t' k n ∧ Owned s.sb t'.disk N (pending blk ind NINDIRECT)) (fun _ => False) t
  | 0, j, t, hj, hf, ho => by
      rw [itruncIndirect, wp_pure]
      have hj' : j = NINDIRECT := by omega
      exact hj' ▸ ⟨hf, ho⟩
  | m + 1, j, t, hj, hf, ho => by
      have hread : getAddr (t.disk ind) j = getAddr blk j := by rw [hf.disk hmeta, hblk]
      rw [itruncIndirect, wp_bind, wp_get, hread, wp_ite]
      constructor
      · intro hne
        have hmem : getAddr blk j ∈ pending blk ind j := Or.inr ⟨hne, j, le_rfl, by omega, rfl⟩
        have hnext : pending blk ind j \ {getAddr blk j} = pending blk ind (j + 1) := by
          ext c
          simp only [pending, Set.mem_sdiff, Set.mem_singleton_iff, Set.mem_ofPred_eq]
          constructor
          · rintro ⟨hc | ⟨hc0, e, he1, he2, hec⟩, hcj⟩
            · exact Or.inl hc
            · have : e ≠ j := fun hej => hcj (by rw [← hec, hej])
              exact Or.inr ⟨hc0, e, by omega, he2, hec⟩
          · rintro (hc | ⟨hc0, e, he1, he2, hec⟩)
            · exact ⟨Or.inl hc, fun hcj => hself j (by omega) (hcj.symm.trans hc)⟩
            · refine ⟨Or.inr ⟨hc0, e, by omega, he2, hec⟩, fun hcj => ?_⟩
              have := hinj e he2 j (by omega) (hec ▸ hc0) (hec.trans hcj)
              omega
        have hlt := (ho.transit hmem).2
        rw [wp_bind]
        apply wp_post (bfree_transit (hf.sb ▸ hsb) (hf.outstanding ▸ hop) (hf.sb.symm ▸ ho) hmem)
        rintro _ t' ⟨rfl, ho'⟩
        rw [hnext, hf.sb] at ho'
        exact itruncIndirect_spec hsb hop hmeta hblk hself hinj m (j + 1) _ (by omega)
          (Freed.gave hsb hf hlt) ho'
      · intro heq
        rw [not_not] at heq
        have hnext : pending blk ind j = pending blk ind (j + 1) := by
          ext c
          simp only [pending, Set.mem_ofPred_eq]
          constructor
          · rintro (hc | ⟨hc0, e, he1, he2, hec⟩)
            · exact Or.inl hc
            · have : e ≠ j := fun hej => hc0 (by rw [← hec, hej, heq])
              exact Or.inr ⟨hc0, e, by omega, he2, hec⟩
          · rintro (hc | ⟨hc0, e, he1, he2, hec⟩)
            · exact Or.inl hc
            · exact Or.inr ⟨hc0, e, by omega, he2, hec⟩
        exact itruncIndirect_spec hsb hop hmeta hblk hself hinj m (j + 1) t (by omega) hf (hnext ▸ ho)

/-- The inode without blocks, before its size is set. -/
def Dinode.noBlocks (n : Dinode) : Dinode := { n with addrs := fun _ => 0 }

theorem Dinode.noBlocks_of_direct (hf : n.Fits) (h0 : n.addrs NDIRECT = 0) :
    n.cleared NDIRECT = n.noBlocks := by
  unfold Dinode.cleared Dinode.noBlocks
  congr 1
  funext j
  split_ifs with hj
  · rfl
  · by_cases hj' : j = NDIRECT
    · rw [hj', h0]
    · exact hf.bound j (by omega)

theorem Dinode.noBlocks_of_indirect (hf : n.Fits) : (n.cleared NDIRECT).setAddr NDIRECT 0 =
    n.noBlocks := by
  rw [Dinode.setAddr_cleared]
  unfold Dinode.cleared Dinode.noBlocks
  congr 1
  funext j
  split_ifs with hj
  · rfl
  · exact hf.bound j (by omega)

theorem slot_noBlocks (d : Disk) (n : Dinode) (j : ℕ) : slot d n.noBlocks j = 0 := by
  unfold slot Dinode.noBlocks
  simp

/-- All blocks of an inode whose direct blocks are gone. -/
theorem Owned.detach_indirect (hi : Alloc s.sb N i) (hind : (N i).addrs NDIRECT ≠ 0)
    (h : Owned s.sb t.disk (update N i ((N i).cleared NDIRECT)) ∅) :
    Owned s.sb t.disk (update N i (N i).noBlocks)
      (pending (t.disk ((N i).addrs NDIRECT)) ((N i).addrs NDIRECT) 0) := by
  have hcl := Dinode.cleared_addrs (N i) NDIRECT
  have hi' : Alloc s.sb (update N i ((N i).cleared NDIRECT)) i := by
    unfold Alloc
    rw [update_self]
    exact hi
  have hown : ∀ j, own s.sb t.disk (update N i ((N i).cleared NDIRECT)) (i, j)
      = slot t.disk ((N i).cleared NDIRECT) j := fun j => by rw [own_of_alloc hi', update_self]
  have hX : (∅ : Set ℕ) ∪ {b | b ≠ 0 ∧ ∃ o ∈ {o : ℕ × ℕ | o.1 = i},
      own s.sb t.disk (update N i ((N i).cleared NDIRECT)) o = b}
      = pending (t.disk ((N i).addrs NDIRECT)) ((N i).addrs NDIRECT) 0 := by
    ext c
    simp only [Set.empty_union, Set.mem_ofPred_eq, pending]
    constructor
    · rintro ⟨hc0, ⟨m, l⟩, hm, hc⟩
      obtain rfl : m = i := hm
      rw [hown] at hc
      obtain hl | ⟨e, he, rfl⟩ | rfl | hl := place_cases l
      · rw [slot_direct hl] at hc
        exact absurd (hc.symm.trans (if_pos hl)) hc0
      · rw [slot_indirect he, hcl, if_neg hind] at hc
        exact Or.inr ⟨hc0, e, Nat.zero_le e, he, hc⟩
      · rw [slot_maxfile, hcl] at hc
        exact Or.inl hc.symm
      · rw [slot_beyond hl] at hc
        exact absurd hc.symm hc0
    · rintro (hc | ⟨hc0, e, _, he, hc⟩)
      · exact ⟨hc ▸ hind, (i, MAXFILE), rfl, by rw [hown, slot_maxfile, hcl, hc]⟩
      · exact ⟨hc0, (i, NDIRECT + e), rfl, by rw [hown, slot_indirect he, hcl, if_neg hind, hc]⟩
  have hdet := Ledger.detach h {o : ℕ × ℕ | o.1 = i}
  rw [hX] at hdet
  refine hdet.congr ?_ (fun _ _ => Iff.rfl)
  funext o
  rw [own_update hi (by exact hi.2), own_update hi (by exact hi.2), slot_noBlocks]
  simp only [Set.mem_ofPred_eq]
  by_cases ho : o.1 = i
  · rw [if_pos ho, if_pos ho]
  · rw [if_neg ho, if_neg ho, if_neg ho]

/-- The second half of `itrunc`: the indirect block and what it names. -/
theorem itrunc_indirect (h : Mid s N D) (hi : Alloc s.sb N i) (hop : 0 < s.outstanding)
    (hind : (N i).addrs NDIRECT ≠ 0) (hf : Freed s t k ((N i).cleared NDIRECT))
    (ho : Owned s.sb t.disk (update N i ((N i).cleared NDIRECT)) ∅) : wp (do
        itruncIndirect ((N i).addrs NDIRECT) NINDIRECT 0
        bfree ((N i).addrs NDIRECT)
        modifyDin k (fun n => { n with addrs := update n.addrs NDIRECT 0 }))
      (fun _ t' => Freed s t' k (N i).noBlocks ∧ Owned s.sb t'.disk (update N i (N i).noBlocks) ∅)
      (fun _ => False) t := by
  have hslot : ∀ e < NINDIRECT, slot s.disk (N i) (NDIRECT + e) =
      getAddr (s.disk ((N i).addrs NDIRECT)) e := fun e he => by
    rw [slot_indirect he, if_neg hind]
  have hrange := slot_range (j := MAXFILE) h.owned hi (by rw [slot_maxfile]; exact hind)
  rw [slot_maxfile] at hrange
  have hself : ∀ e < NINDIRECT, getAddr (s.disk ((N i).addrs NDIRECT)) e ≠ (N i).addrs NDIRECT := by
    intro e he heq
    have : i = i ∧ NDIRECT + e = MAXFILE := slot_inj h.owned hi hi (by rw [hslot e he, heq]; exact hind)
      (by rw [hslot e he, heq, slot_maxfile])
    unfold MAXFILE at this
    omega
  have hinj : ∀ e < NINDIRECT, ∀ e' < NINDIRECT, getAddr (s.disk ((N i).addrs NDIRECT)) e ≠ 0 →
      getAddr (s.disk ((N i).addrs NDIRECT)) e = getAddr (s.disk ((N i).addrs NDIRECT)) e' → e = e' := by
    intro e he e' he' h0 heq
    have : i = i ∧ NDIRECT + e = NDIRECT + e' :=
      slot_inj h.owned hi hi (by rw [hslot e he]; exact h0) (by rw [hslot e he, hslot e' he', heq])
    omega
  have hdet := Owned.detach_indirect hi hind ho
  rw [hf.disk hrange.1] at hdet
  rw [wp_bind]
  -- the loop runs on the inodes without the blocks of `i`, which are all in transit
  apply wp_post (itruncIndirect_spec (N := update N i (N i).noBlocks) (n := (N i).cleared NDIRECT)
    h.sb hop hrange.1 rfl hself hinj NINDIRECT 0 t (Nat.zero_add _) hf hdet)
  rintro _ u ⟨hfu, hou⟩
  have hmem : (N i).addrs NDIRECT ∈ pending (s.disk ((N i).addrs NDIRECT)) ((N i).addrs NDIRECT)
    NINDIRECT := Or.inl rfl
  have hlast : pending (s.disk ((N i).addrs NDIRECT)) ((N i).addrs NDIRECT) NINDIRECT
      \ {(N i).addrs NDIRECT} = ∅ := by
    ext c
    simp only [pending, Set.mem_sdiff, Set.mem_singleton_iff, Set.mem_ofPred_eq,
      Set.mem_empty_iff_false, iff_false]
    rintro ⟨hc | ⟨_, e, he1, he2, _⟩, hc'⟩
    · exact hc' hc
    · omega
  rw [wp_bind]
  apply wp_post (bfree_transit (hfu.sb ▸ h.sb) (hfu.outstanding ▸ hop) (hfu.sb.symm ▸ hou) hmem)
  rintro _ v ⟨rfl, hov⟩
  rw [hlast, hfu.sb] at hov
  rw [wp_modifyDin, gave_itable, hfu.itable]
  refine ⟨?_, hov⟩
  have := (Freed.gave h.sb hfu hrange.2).din (N i).noBlocks
  rw [← Dinode.noBlocks_of_indirect (h.fits i)] at this ⊢
  exact this

/-- **`itrunc`** gives back exactly the blocks of the inode, and writes the empty inode to disk. -/
theorem itrunc_spec (h : Mid s N D) (hc : Cached s k i) (hi : Alloc s.sb N i) (hop : 0 < s.outstanding) :
    wp (itrunc k) (fun _ s' => ∃ t, Ext s t N i k (N i).empty ∧
      Mid t (update N i (N i).empty) (insert i D) ∧ s' = t.wrote i (N i).empty) (fun _ => False) s := by
  have hdin : (s.itable k).din = N i := by rw [h.table.cached k hc.ref hc.valid, hc.inum]
  have hstart : Freed s s k ((N i).cleared 0) := by
    refine ⟨?_, fun _ hb => hb, fun b hb => absurd rfl hb⟩
    rw [Dinode.cleared_zero, ← hdin, update_eq_self]
  have howned : Owned s.sb s.disk (update N i ((N i).cleared 0)) ∅ := by
    rw [Dinode.cleared_zero, update_eq_self]
    exact h.owned
  unfold itrunc
  rw [wp_bind]
  apply wp_post (itruncDirect_spec h hi hop NDIRECT 0 s (Nat.zero_add _) hstart howned)
  rintro _ t ⟨hf, ho⟩
  have hcl := Dinode.cleared_addrs (N i) NDIRECT
  simp only [getInode, wp_bind, wp_get, wp_pure, hf.itable, hcl]
  have hblocks : wp (onlyIf ((N i).addrs NDIRECT ≠ 0) (do
        itruncIndirect ((N i).addrs NDIRECT) NINDIRECT 0
        bfree ((N i).addrs NDIRECT)
        modifyDin k (fun n => { n with addrs := update n.addrs NDIRECT 0 })))
      (fun _ t' => Freed s t' k (N i).noBlocks ∧ Owned s.sb t'.disk (update N i (N i).noBlocks) ∅)
      (fun _ => False) t := by
    rw [wp_onlyIf]
    constructor
    · exact fun hind => itrunc_indirect h hi hop hind hf ho
    · intro h0
      rw [not_not] at h0
      rw [← Dinode.noBlocks_of_direct (h.fits i) h0]
      exact ⟨hf, ho⟩
  apply wp_post hblocks
  rintro _ u ⟨hfu, hou⟩
  rw [wp_modifyDin, hfu.itable]
  have hempty : Freed s (u.withDin k (N i).empty) k (N i).empty := hfu.din (N i).empty
  have hext : Ext s (u.withDin k (N i).empty) N i k (N i).empty :=
    Freed.ext h hempty rfl (fun d j => slot_empty d _ j)
  have hown : Owned s.sb u.disk (update N i (N i).empty) ∅ := by
    refine hou.congr ?_ (fun _ _ => Iff.rfl)
    funext o
    rw [own_update hi (by exact hi.2), own_update hi (by exact hi.2), slot_noBlocks, slot_empty]
  have hmid : Mid (u.withDin k (N i).empty) (update N i (N i).empty) (insert i D) :=
    h.ext hext hc hi hown ⟨Nat.zero_le _, fun j hj => absurd hj (Nat.not_lt_zero _)⟩
      (Dinode.empty_fits (h.fits i))
  apply wp_post (iupdate_spec hmid (hext.cached hc) (by rw [hext.outstanding]; exact hop))
  intro _ v hv
  rw [update_self] at hv
  exact ⟨_, hext, hmid, hv⟩

end Xv6Cow.Fs

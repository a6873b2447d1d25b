import Xv6Cow.Fs.Inv

/-! # Allocation of blocks

`balloc` finds the first block whose bit is clear, or reports that there is none; `bfree` never
meets a clear bit.  From these, `bmap` gives an inode the block it lacks and changes nothing else,
and `itrunc` gives back every block of the inode. -/

namespace Xv6Cow.Fs

open Log (Block Disk)
open Function (update update_self update_eq_self update_idem)

variable {s s' : FsState} {N : ℕ → Dinode} {D X : Set ℕ} {n n' : Dinode} {i j k b c r : ℕ}
  {f : Block → Block} {E : Panic → Prop}

/-! ### Writing blocks -/

theorem wp_logWrite {Q : Unit → FsState → Prop} (hop : 0 < s.outstanding) :
    wp (logWrite b) Q E s ↔ Q () { s with lh := if b ∈ s.lh then s.lh else s.lh ++ [b] } := by
  unfold logWrite
  rw [wp_bind, wp_get, if_neg (by omega)]
  exact wp_set

theorem wp_write {Q : Unit → FsState → Prop} (hop : 0 < s.outstanding) :
    wp (changeBlock b f) (fun _ t => wp (logWrite b) Q E t) E s ↔ Q () (s.wr b f) := by
  unfold changeBlock
  rw [wp_modify]
  exact wp_logWrite hop

/-- The state after block `b` has been taken and cleared. -/
def FsState.took (s : FsState) (b : ℕ) : FsState :=
  (s.wr (s.sb.bblock b) (fun blk => setBit blk (b % BPB))).wr b (fun blk => blk.fill 0 BSIZE 0)

/-- The state after block `b` has been given back. -/
def FsState.gave (s : FsState) (b : ℕ) : FsState :=
  s.wr (s.sb.bblock b) (fun blk => clearBit blk (b % BPB))

@[simp] theorem took_sb : (s.took b).sb = s.sb := rfl
@[simp] theorem took_outstanding : (s.took b).outstanding = s.outstanding := rfl
@[simp] theorem took_itable : (s.took b).itable = s.itable := rfl
@[simp] theorem gave_sb : (s.gave b).sb = s.sb := rfl
@[simp] theorem gave_outstanding : (s.gave b).outstanding = s.outstanding := rfl
@[simp] theorem gave_itable : (s.gave b).itable = s.itable := rfl

section
variable (hop : 0 < s.outstanding)
include hop

theorem bzero_spec :
    wp (bzero b) (fun _ s' => s' = s.wr b (fun blk => blk.fill 0 BSIZE 0)) (fun _ => False) s := by
  unfold bzero
  rw [wp_bind, wp_write hop]

theorem ballocBits_spec (hb : b % BPB = 0) : ∀ k bi, bi + k ≤ BPB →
    wp (ballocBits b k bi) (fun r s' => match r with
      | none => s' = s ∧ ∀ x, bi ≤ x → x < bi + k → Marked s.sb s.disk (b + x)
      | some c =>
          ¬ Marked s.sb s.disk c ∧ b + bi ≤ c ∧ c < b + bi + k ∧ s' = s.took c) (fun _ => False) s
  | 0, bi, _ => by
      rw [ballocBits, wp_pure]
      exact ⟨rfl, fun x h1 h2 => by omega⟩
  | k + 1, bi, hle => by
      have hdiv : s.sb.bblock (b + bi) = s.sb.bblock b := by
        unfold Superblock.bblock BPB at *
        omega
      have hmod : (b + bi) % BPB = bi := by
        unfold BPB at *
        omega
      have hbit : getBit (s.disk (s.sb.bblock b)) bi = true ↔ Marked s.sb s.disk (b + bi) := by
        unfold Marked
        rw [hdiv, hmod]
      rw [ballocBits, wp_bind, wp_get, wp_ite]
      constructor
      · intro hfree
        rw [Bool.not_eq_true'] at hfree
        simp only [wp_bind, wp_pure]
        rw [wp_write hop]
        refine wp_mono (bzero_spec (by exact hop)) ?_ (fun _ h => h)
        intro _ s' hs'
        refine ⟨fun hm => by rw [← hbit, hfree] at hm; exact absurd hm (by decide), le_rfl, by omega, ?_⟩
        rw [hs']
        unfold FsState.took
        rw [hdiv, hmod]
      · intro hset
        rw [Bool.not_eq_true', Bool.not_eq_false] at hset
        apply wp_mono (ballocBits_spec hb k (bi + 1) (by omega)) _ (fun _ h => h)
        intro r s' hr
        cases r with
        | none =>
            refine ⟨hr.1, fun x h1 h2 => ?_⟩
            by_cases hx : x = bi
            · rw [hx]
              exact hbit.mp hset
            · exact hr.2 x (by omega) (by omega)
        | some c => exact ⟨hr.1, by have := hr.2.1; omega, by have := hr.2.2.1; omega, hr.2.2.2⟩

theorem ballocFrom_spec : ∀ k b, b % BPB = 0 →
    wp (ballocFrom k b) (fun r s' =>
      (r = 0 ∧ s' = s ∧ ∀ x, b ≤ x → x < b + k * BPB → x < s.sb.size → Marked s.sb s.disk x) ∨
      (¬ Marked s.sb s.disk r ∧ r < s.sb.size ∧ s' = s.took r)) (fun _ => False) s
  | 0, b, _ => by
      rw [ballocFrom, wp_pure]
      exact Or.inl ⟨rfl, rfl, fun x h1 h2 => by omega⟩
  | k + 1, b, hb => by
      rw [ballocFrom, wp_bind, wp_get, wp_bind]
      apply wp_mono (ballocBits_spec hop hb (min BPB (s.sb.size - b)) 0 (by omega)) _ (fun _ h => h)
      intro r s' hr
      cases r with
      | some c =>
          rw [wp_pure]
          exact Or.inr ⟨hr.1, by have := hr.2.2.1; omega, hr.2.2.2⟩
      | none =>
          have hmarked := hr.2
          dsimp only
          rw [hr.1]
          apply wp_mono (ballocFrom_spec k (b + BPB) (by unfold BPB at *; omega)) _ (fun _ h => h)
          intro r t hr
          cases hr with
          | inr hr => exact Or.inr hr
          | inl hr =>
              refine Or.inl ⟨hr.1, hr.2.1, fun x h1 h2 h3 => ?_⟩
              by_cases hx : x < b + BPB
              · have := hmarked (x - b) (Nat.zero_le _) (by omega)
                rwa [Nat.add_sub_cancel' h1] at this
              · exact hr.2.2 x (by omega) (by rw [Nat.add_mul] at h2; omega) h3

/-- **`balloc`** takes a free block, and returns 0 only if there is none. -/
theorem balloc_spec :
    wp balloc (fun r s' => (r = 0 ∧ s' = s ∧ ∀ x < s.sb.size, Marked s.sb s.disk x) ∨
      (¬ Marked s.sb s.disk r ∧ r < s.sb.size ∧ s' = s.took r)) (fun _ => False) s := by
  unfold balloc
  rw [wp_bind, wp_get]
  apply wp_mono (ballocFrom_spec hop _ 0 rfl) _ (fun _ h => h)
  intro r s' hr
  cases hr with
  | inr hr => exact Or.inr hr
  | inl hr => exact Or.inl ⟨hr.1, hr.2.1, fun x hx => hr.2.2 x (Nat.zero_le _) (by unfold BPB; omega) hx⟩

/-- **`bfree`** of a block whose bit is set. -/
theorem bfree_spec (hm : Marked s.sb s.disk b) :
    wp (bfree b) (fun _ s' => s' = s.gave b) (fun _ => False) s := by
  unfold Marked at hm
  unfold bfree
  rw [wp_bind, wp_get, hm]
  simp only [Bool.not_true, Bool.false_eq_true, if_false, wp_bind]
  rw [wp_write hop]
  rfl

end

/-! ### Ownership after taking and giving back -/

theorem took_disk_of_ne (h1 : c ≠ s.sb.bblock b) (h2 : c ≠ b) : (s.took b).disk c = s.disk c := by
  unfold FsState.took
  rw [wr_disk, if_neg h2, wr_disk, if_neg h1]

theorem mem_took_lh : c ∈ (s.took b).lh ↔ c ∈ s.lh ∨ c = s.sb.bblock b ∨ c = b := by
  unfold FsState.took
  rw [mem_wr_lh, mem_wr_lh, or_assoc]

theorem took_getAddr (e : ℕ) (he : e < NINDIRECT) : getAddr ((s.took b).disk b) e = 0 := by
  unfold FsState.took
  rw [wr_disk, if_pos rfl]
  exact Bytes.le_fill_zero (Nat.zero_le _) (by unfold NINDIRECT at he; unfold BSIZE; omega)

theorem gave_disk_of_ne (h : c ≠ s.sb.bblock b) : (s.gave b).disk c = s.disk c := by
  unfold FsState.gave
  rw [wr_disk, if_neg h]

theorem mem_gave_lh : c ∈ (s.gave b).lh ↔ c ∈ s.lh ∨ c = s.sb.bblock b := mem_wr_lh

section
variable (hsb : s.sb.Ok) (h : Owned s.sb s.disk N X) (hb : b < s.sb.size)
include hsb h hb

/-- A block with an owner is not of the bitmap and is not free. -/
theorem took_disk_slot (hfree : ¬ Marked s.sb s.disk b)
    (hi : Alloc s.sb N i) (h0 : slot s.disk (N i) j ≠ 0) :
    (s.took b).disk (slot s.disk (N i) j) = s.disk (slot s.disk (N i) j) := by
  apply took_disk_of_ne
  · have := (slot_range h hi h0).1
    have := hsb.bblock_lt hb
    omega
  · rw [← own_of_alloc hi]
    exact ((h.free_iff hb).mp hfree).2.2 _

theorem gave_disk_slot
    (hi : Alloc s.sb N i) (h0 : slot s.disk (N i) j ≠ 0) :
    (s.gave b).disk (slot s.disk (N i) j) = s.disk (slot s.disk (N i) j) := by
  apply gave_disk_of_ne
  have := (slot_range h hi h0).1
  have := hsb.bblock_lt hb
  omega

theorem own_took (hfree : ¬ Marked s.sb s.disk b) :
    own s.sb (s.took b).disk N = own s.sb s.disk N := by
  apply own_disk
  intro m hm h0
  have := took_disk_slot hsb h hb hfree hm (j := MAXFILE)
  rw [slot_maxfile] at this
  exact this h0

theorem own_gave :
    own s.sb (s.gave b).disk N = own s.sb s.disk N := by
  apply own_disk
  intro m hm h0
  have := gave_disk_slot hsb h hb hm (j := MAXFILE)
  rw [slot_maxfile] at this
  exact this h0

end

theorem marked_took (hsb : s.sb.Ok) (hmeta : s.sb.nmeta ≤ b) (hc : c < s.sb.size) :
    Marked s.sb (s.took b).disk c ↔ Marked s.sb s.disk c ∨ c = b := by
  rw [← marked_setBit (bblock_mod s.sb b)]
  apply marked_disk hsb _ hc
  intro x _ hx
  unfold FsState.took
  rw [wr_disk, if_neg (by omega)]
  rfl

theorem Owned.took (hsb : s.sb.Ok) (h : Owned s.sb s.disk N X) (hb : b < s.sb.size)
    (hfree : ¬ Marked s.sb s.disk b) : Owned s.sb (s.took b).disk N (insert b X) := by
  have hmeta := ((h.free_iff hb).mp hfree).1
  exact (h.take hb hfree (fun c hc => marked_took hsb hmeta hc)).congr (own_took hsb h hb hfree)
    (fun _ _ => Iff.rfl)

theorem Owned.gave (hsb : s.sb.Ok) (h : Owned s.sb s.disk N X) (hb : b ∈ X) :
    Owned s.sb (s.gave b).disk N (X \ {b}) := by
  have hlt := (h.transit hb).2
  exact (h.release hb (fun c _ => marked_clearBit (bblock_mod s.sb b) c)).congr (own_gave hsb h hlt)
    (fun _ _ => Iff.rfl)

/-! ### `bmap` -/

/-- An inode that has at most gained blocks: what it had is in place and unchanged. -/
structure Keeps (d d' : Disk) (n n' : Dinode) : Prop where
  same : n' = { n with addrs := n'.addrs }
  slot : ∀ j, slot d n j ≠ 0 → slot d' n' j = slot d n j
  bytes : ∀ j, j ≠ MAXFILE → Fs.slot d n j ≠ 0 → d' (Fs.slot d n j) = d (Fs.slot d n j)

theorem Keeps.refl (d : Disk) (n : Dinode) : Keeps d d n n := ⟨rfl, fun _ _ => rfl, fun _ _ _ => rfl⟩

theorem Keeps.trans {d d' d'' : Disk} {n'' : Dinode} (h : Keeps d d' n n')
    (h' : Keeps d' d'' n' n'') : Keeps d d'' n n'' where
  same := by rw [h'.same, h.same]
  slot := fun j h0 => by rw [h'.slot j (by rw [h.slot j h0]; exact h0), h.slot j h0]
  bytes := fun j hj h0 => by
    have := h'.bytes j hj (by rw [h.slot j h0]; exact h0)
    rw [h.slot j h0] at this
    rw [this, h.bytes j hj h0]

theorem Keeps.type {d d' : Disk} (h : Keeps d d' n n') : n'.type = n.type := by rw [h.same]
theorem Keeps.size {d d' : Disk} (h : Keeps d d' n n') : n'.size = n.size := by rw [h.same]

theorem Keeps.full {d d' : Disk} (h : Keeps d d' n n') (hf : Full d n) : Full d' n' :=
  ⟨h.size ▸ hf.size, fun j hj => by
    have h0 := hf.block j (h.size ▸ hj)
    rw [h.slot j h0]
    exact h0⟩

/-- A byte below the size, or any byte of a block that the inode has. -/
theorem Keeps.byteAt {d d' : Disk} (h : Keeps d d' n n') {o : ℕ} (ho : o < MAXFILE * BSIZE)
    (h0 : Fs.slot d n (o / BSIZE) ≠ 0) : byteAt d' n' o = byteAt d n o := by
  unfold Fs.byteAt
  have hj : o / BSIZE ≠ MAXFILE := by
    unfold BSIZE MAXFILE NDIRECT NINDIRECT at *
    omega
  rw [h.slot _ h0, h.bytes _ hj h0]

/-- What `bmap` leaves, with the inode as it is now. -/
structure Mapped (s : FsState) (N : ℕ → Dinode) (D : Set ℕ) (i k : ℕ) (s' : FsState) (n : Dinode) :
    Prop where
  mid : Mid s' (update N i n) (insert i D)
  ext : Ext s s' N i k n
  keeps : Keeps s.disk s'.disk (N i) n

theorem Mapped.refl (h : Mid s N D) (hc : Cached s k i) : Mapped s N D i k s (N i) where
  mid := by
    rw [update_eq_self]
    exact h.mono (Set.subset_insert i D)
  ext := Ext.refl (by rw [h.table.cached k hc.ref hc.valid, hc.inum])
  keeps := Keeps.refl _ _

theorem Mapped.trans {s'' : FsState} (hi : Alloc s.sb N i) (h : Mapped s N D i k s' n)
    (h' : Mapped s' (update N i n) (insert i D) i k s'' n') : Mapped s N D i k s'' n' := by
  have hkeeps := h'.keeps
  rw [update_self] at hkeeps
  refine ⟨?_, ?_, h.keeps.trans hkeeps⟩
  · have := h'.mid
    rwa [update_idem, Set.insert_idem] at this
  · exact h.ext.trans h'.ext hi (h.keeps.type ▸ hi.2) (fun j _ h0 => hkeeps.slot j h0)

/-- A free block becomes place `j` of the inode in memory. -/
theorem Mapped.place (h : Mid s N D) (hc : Cached s k i) (hi : Alloc s.sb N i) (hr : r < s.sb.size)
    (hfree : ¬ Marked s.sb s.disk r) (h0 : slot s.disk (N i) j = 0)
    (hsame : n = { N i with addrs := n.addrs }) (hfits : n.Fits)
    (hslot : ∀ l, slot (s.took r).disk n l = if l = j then r else slot (s.took r).disk (N i) l) :
    Mapped s N D i k ((s.took r).withDin k n) n := by
  have hn : n.type ≠ 0 := by
    rw [hsame]
    exact hi.2
  have hold : ∀ l, slot (s.took r).disk (N i) l = slot s.disk (N i) l := fun l => by
    rw [← own_of_alloc hi, ← own_of_alloc hi, own_took h.sb h.owned hr hfree]
  have hkeeps : Keeps s.disk (s.took r).disk (N i) n := by
    refine ⟨hsame, fun l hl => ?_, fun l _ hl => took_disk_slot h.sb h.owned hr hfree hi hl⟩
    rw [hslot, if_neg (fun hlj : l = j => hl (hlj ▸ h0)), hold]
  have hext : Ext s ((s.took r).withDin k n) N i k n := by
    refine ⟨rfl, fun b hb => mem_took_lh.mpr (Or.inl hb), fun b hb => ?_, fun m _ hm l hl => ?_,
      by rw [hsame], fun l _ => ?_, fun b hb => Or.inl ?_⟩
    · apply took_disk_of_ne
      · have := Superblock.Ok.le_bblock s.sb r
        omega
      · have := ((h.owned.free_iff hr).mp hfree).1
        have := h.sb.bmapstart_lt
        omega
    · exact took_disk_slot h.sb h.owned hr hfree hm hl
    · change slot (s.took r).disk n l = _ ∨ slot (s.took r).disk n l ∈ (s.took r).lh
      rw [hslot, hold]
      split_ifs
      · exact Or.inr (mem_took_lh.mpr (Or.inr (Or.inr rfl)))
      · exact Or.inl rfl
    · have : b ∉ (s.took r).lh := hb
      rw [mem_took_lh, not_or, not_or] at this
      exact took_disk_of_ne this.2.1 this.2.2
  have hX := Owned.took h.sb h.owned hr hfree
  have howned : Owned s.sb (s.took r).disk (update N i n) ∅ := by
    have hplace : own s.sb (s.took r).disk N (i, j) = 0 := by rw [own_of_alloc hi, hold, h0]
    have := hX.attach (Set.mem_insert r ∅) hplace
    rw [Set.insert_sdiff_of_mem _ (Set.mem_singleton r), Set.empty_sdiff] at this
    exact this.congr (own_set hi hn hslot) (fun _ _ => Iff.rfl)
  exact ⟨h.ext hext hc hi howned (hkeeps.full (h.full i hi)) hfits, hext, hkeeps⟩

/-- A free block becomes an entry of the indirect block. -/
theorem Mapped.entry (h : Mid s N D) (hc : Cached s k i) (hi : Alloc s.sb N i) (hr : r < s.sb.size)
    (hfree : ¬ Marked s.sb s.disk r) (hind : (N i).addrs NDIRECT ≠ 0) (hj : j < NINDIRECT)
    (h0 : slot s.disk (N i) (NDIRECT + j) = 0) :
    Mapped s N D i k ((s.took r).wr ((N i).addrs NDIRECT) (fun blk => putAddr blk j r)) (N i) := by
  have hr32 : r < 2 ^ 32 := lt_trans hr h.sb.size
  have hsize : s.sb.nmeta ≤ (N i).addrs NDIRECT := by
    have := (slot_range (j := MAXFILE) h.owned hi (by rw [slot_maxfile]; exact hind)).1
    rwa [slot_maxfile] at this
  have hold : ∀ l, slot (s.took r).disk (N i) l = slot s.disk (N i) l := fun l => by
    rw [← own_of_alloc hi, ← own_of_alloc hi, own_took h.sb h.owned hr hfree]
  have hslot : ∀ l, slot ((s.took r).wr ((N i).addrs NDIRECT) (fun blk => putAddr blk j r)).disk
      (N i) l = if l = NDIRECT + j then r else slot s.disk (N i) l := fun l => by
    rw [← hold]
    exact slot_putAddr hind hj hr32 l
  have hapart : ∀ m l, Alloc s.sb N m → slot s.disk (N m) l ≠ 0 → (m ≠ i ∨ l ≠ MAXFILE) →
      slot s.disk (N m) l ≠ (N i).addrs NDIRECT := fun m l hm hl hne heq => by
    have := slot_inj h.owned hm hi hl (heq.trans slot_maxfile.symm)
    cases hne with
    | inl hne => exact hne this.1
    | inr hne => exact hne this.2
  have hbytes : ∀ m l, Alloc s.sb N m → slot s.disk (N m) l ≠ 0 → (m ≠ i ∨ l ≠ MAXFILE) →
      ((s.took r).wr ((N i).addrs NDIRECT) (fun blk => putAddr blk j r)).disk (slot s.disk (N m) l)
        = s.disk (slot s.disk (N m) l) := fun m l hm hl hne => by
    rw [wr_disk, if_neg (hapart m l hm hl hne), took_disk_slot h.sb h.owned hr hfree hm hl]
  have hkeeps : Keeps s.disk ((s.took r).wr ((N i).addrs NDIRECT) (fun blk => putAddr blk j r)).disk
      (N i) (N i) := by
    refine ⟨rfl, fun l hl => ?_, fun l hlm hl => hbytes i l hi hl (Or.inr hlm)⟩
    rw [hslot, if_neg (fun hlj : l = NDIRECT + j => hl (hlj ▸ h0))]
  have hext : Ext s ((s.took r).wr ((N i).addrs NDIRECT) (fun blk => putAddr blk j r)) N i k (N i) := by
    have hdin : (s.itable k).din = N i := by rw [h.table.cached k hc.ref hc.valid, hc.inum]
    refine ⟨?_, fun b hb => mem_wr_lh.mpr (Or.inl (mem_took_lh.mpr (Or.inl hb))), fun b hb => ?_,
      fun m hm ha l hl => hbytes m l ha hl (Or.inl hm), rfl, fun l _ => ?_, fun b hb => Or.inl ?_⟩
    · rw [← hdin, update_eq_self]
      rfl
    · have hb' := h.sb.bmapstart_lt
      rw [wr_disk, if_neg (by omega)]
      apply took_disk_of_ne
      · have := Superblock.Ok.le_bblock s.sb r
        omega
      · have := ((h.owned.free_iff hr).mp hfree).1
        omega
    · rw [hslot]
      split_ifs
      · exact Or.inr (mem_wr_lh.mpr (Or.inl (mem_took_lh.mpr (Or.inr (Or.inr rfl)))))
      · exact Or.inl rfl
    · rw [mem_wr_lh, not_or, mem_took_lh, not_or, not_or] at hb
      rw [wr_disk, if_neg hb.2]
      exact took_disk_of_ne hb.1.2.1 hb.1.2.2
  have hX := Owned.took h.sb h.owned hr hfree
  have howned : Owned s.sb ((s.took r).wr ((N i).addrs NDIRECT) (fun blk => putAddr blk j r)).disk
      (update N i (N i)) ∅ := by
    have hplace : own s.sb (s.took r).disk N (i, NDIRECT + j) = 0 := by rw [own_of_alloc hi, hold, h0]
    have := hX.attach (Set.mem_insert r ∅) hplace
    rw [Set.insert_sdiff_of_mem _ (Set.mem_singleton r), Set.empty_sdiff] at this
    rw [update_eq_self]
    refine this.congr (own_entry hX hi hind hj hr32) (fun b hb => marked_disk h.sb (fun c _ hc => ?_) hb)
    rw [wr_disk, if_neg (by omega)]
  exact ⟨h.ext hext hc hi howned (hkeeps.full (h.full i hi)) (h.fits i), hext, hkeeps⟩

theorem bmap_hit (hdin : (s.itable k).din = n) (hj : j < MAXFILE) (h0 : slot s.disk n j ≠ 0) :
    bmap k j s = .ok (slot s.disk n j, s) := by
  have hwp : wp (bmap k j) (fun r t => r = slot s.disk n j ∧ t = s) (fun _ => False) s := by
    unfold bmap getInode
    simp only [wp_bind, wp_get, wp_pure, hdin]
    by_cases hd : j < NDIRECT
    · rw [slot_direct hd] at h0 ⊢
      rw [if_pos hd, if_neg h0, wp_pure]
      exact ⟨rfl, rfl⟩
    · obtain ⟨e, rfl⟩ : ∃ e, j = NDIRECT + e := ⟨j - NDIRECT, by omega⟩
      have he : e < NINDIRECT := by
        unfold MAXFILE at hj
        omega
      rw [slot_indirect he] at h0 ⊢
      have hind : n.addrs NDIRECT ≠ 0 := fun h => h0 (if_pos h)
      rw [if_neg hind] at h0 ⊢
      rw [if_neg hd, Nat.add_sub_cancel_left, if_pos he]
      simp only [wp_bind, if_neg hind, wp_pure, wp_get, if_neg h0]
      exact ⟨trivial, trivial⟩
  obtain ⟨a, t, hrun, rfl, rfl⟩ := wp_returns hwp
  exact hrun

/-- The fields of an inode after an address has been stored. -/
theorem setAddr_fits (hf : n.Fits) (hj : j ≤ NDIRECT) (hr : r < 2 ^ 32) : (n.setAddr j r).Fits :=
  { hf with
    addrs := fun l => by
      rw [Dinode.setAddr_addrs]
      split_ifs
      · exact hr
      · exact hf.addrs l
    bound := fun l hl => by
      rw [Dinode.setAddr_addrs, if_neg (by omega)]
      exact hf.bound l hl }

/-- No block is free. -/
def NoRoom (s : FsState) : Prop := ∀ b < s.sb.size, Marked s.sb s.disk b

theorem wp_balloc {α : Type} {g : ℕ → FsM α} {Q : α → FsState → Prop} (h : Mid s N D)
    (hop : 0 < s.outstanding) (hnone : NoRoom s → wp (g 0) Q E s)
    (hsome : ∀ r, r ≠ 0 → r < s.sb.size → ¬ Marked s.sb s.disk r → wp (g r) Q E (s.took r)) :
    wp (balloc >>= g) Q E s := by
  rw [wp_bind]
  apply wp_post (balloc_spec hop)
  intro r t hr
  cases hr with
  | inl hr =>
      rw [hr.1, hr.2.1]
      exact hnone hr.2.2
  | inr hr =>
      obtain ⟨hfree, hlt, rfl⟩ := hr
      have hr0 : r ≠ 0 := by
        have := ((h.owned.free_iff hlt).mp hfree).1
        have := h.sb.nmeta_pos
        omega
      exact hsome r hr0 hlt hfree

section
variable (h : Mid s N D) (hc : Cached s k i) (hi : Alloc s.sb N i) (hop : 0 < s.outstanding)
include h hc hi hop

/-- The indirect block of an inode, with a new one if there is none. -/
theorem bmap_indirect :
    wp (if (N i).addrs NDIRECT = 0 then do
        let addr ← balloc
        if addr = 0 then pure 0
        else do
          modifyDin k (fun n => { n with addrs := update n.addrs NDIRECT addr })
          pure addr
      else pure ((N i).addrs NDIRECT))
    (fun r s' => ∃ n, Mapped s N D i k s' n ∧ (r ≠ 0 → n.addrs NDIRECT = r) ∧ (r = 0 → NoRoom s'))
      (fun _ => False) s := by
  have hdin : (s.itable k).din = N i := by rw [h.table.cached k hc.ref hc.valid, hc.inum]
  rw [wp_ite]
  constructor
  · intro h0
    apply wp_balloc h hop
    · intro hno
      rw [if_pos rfl, wp_pure]
      exact ⟨N i, Mapped.refl h hc, fun hne => absurd rfl hne, fun _ => hno⟩
    · intro r hr0 hlt hfree
      simp only [if_neg hr0, wp_bind, wp_modifyDin, wp_pure, took_itable, hdin]
      refine ⟨(N i).setAddr NDIRECT r, ?_, fun _ => by rw [Dinode.setAddr_addrs, if_pos rfl],
        fun h0 => absurd h0 hr0⟩
      exact Mapped.place (j := MAXFILE) (n := (N i).setAddr NDIRECT r) h hc hi hlt hfree
        (by rw [slot_maxfile, h0]) rfl (setAddr_fits (h.fits i) le_rfl (lt_trans hlt h.sb.size))
        (slot_setAddr_indirect h0 took_getAddr)
  · intro h0
    rw [wp_pure]
    exact ⟨N i, Mapped.refl h hc, fun _ => rfl, fun hz => absurd hz h0⟩

theorem bmap_new (hj : j < MAXFILE)
    (h0 : slot s.disk (N i) j = 0) :
    wp (bmap k j) (fun r s' => ∃ n, Mapped s N D i k s' n ∧ (r ≠ 0 → slot s'.disk n j = r) ∧
      (r = 0 → NoRoom s')) (fun _ => False) s := by
  have hdin : (s.itable k).din = N i := by rw [h.table.cached k hc.ref hc.valid, hc.inum]
  unfold bmap getInode
  simp only [wp_bind, wp_get, wp_pure, hdin]
  by_cases hd : j < NDIRECT
  · rw [if_pos hd, if_pos (by rw [← h0, slot_direct hd])]
    apply wp_balloc h hop
    · intro hno
      rw [if_pos rfl, wp_pure]
      exact ⟨N i, Mapped.refl h hc, fun hne => absurd rfl hne, fun _ => hno⟩
    · intro r hr0 hlt hfree
      simp only [if_neg hr0, wp_bind, wp_modifyDin, wp_pure, took_itable, hdin]
      refine ⟨(N i).setAddr j r, ?_, fun _ => ?_, fun h0 => absurd h0 hr0⟩
      · exact Mapped.place (n := (N i).setAddr j r) h hc hi hlt hfree h0 rfl
          (setAddr_fits (h.fits i) hd.le (lt_trans hlt h.sb.size)) (slot_setAddr hd)
      · exact (slot_setAddr hd j).trans (if_pos rfl)
  · obtain ⟨e, rfl⟩ : ∃ e, j = NDIRECT + e := ⟨j - NDIRECT, by omega⟩
    have he : e < NINDIRECT := by
      unfold MAXFILE at hj
      omega
    rw [if_neg hd, Nat.add_sub_cancel_left, if_pos he, wp_bind]
    apply wp_mono (bmap_indirect h hc hi hop) _ (fun _ h => h)
    rintro ind t ⟨n, hmap, hind, hno⟩
    rw [wp_ite]
    constructor
    · intro hind0
      rw [wp_pure]
      exact ⟨n, hmap, fun hne => absurd rfl hne, fun _ => hno hind0⟩
    · intro hind0
      have hmid := hmap.mid
      have hc' := hmap.ext.cached hc
      have hi' : Alloc t.sb (update N i n) i := by
        rw [hmap.ext.sb]
        exact (alloc_update hi (hmap.keeps.type ▸ hi.2) i).mpr hi
      have hindeq : n.addrs NDIRECT = ind := hind hind0
      have hindn : (update N i n i).addrs NDIRECT = ind := by rw [update_self, hindeq]
      have hop' : 0 < t.outstanding := by rw [hmap.ext.outstanding]; exact hop
      have hslot : slot t.disk n (NDIRECT + e) = getAddr (t.disk ind) e := by
        rw [slot_indirect he, hindeq, if_neg hind0]
      rw [wp_bind, wp_get, wp_ite]
      constructor
      · intro hz
        apply wp_balloc hmid hop'
        · intro hno
          rw [if_pos rfl, wp_pure]
          exact ⟨n, hmap, fun hne => absurd rfl hne, fun _ => hno⟩
        · intro r hr0 hlt hfree
          have hent := Mapped.entry (j := e) hmid hc' hi' hlt hfree (hindn ▸ hind0) he
            (by rw [update_self, hslot, hz])
          rw [hindn, update_self] at hent
          simp only [if_neg hr0, wp_bind, wp_pure]
          rw [wp_write (by exact hop')]
          refine ⟨n, hmap.trans hi hent, fun _ => ?_, fun h0 => absurd h0 hr0⟩
          have := slot_putAddr (d := (t.took r).disk) (n := n) (b := r) (hindeq ▸ hind0) he
            (lt_trans hlt hmid.sb.size) (NDIRECT + e)
          rw [if_pos rfl, hindeq] at this
          exact this
      · intro hz
        rw [wp_pure]
        exact ⟨n, hmap, fun _ => hslot, fun h0 => absurd h0 hz⟩

/-- **`bmap`** never goes out of range and gives the inode at most the block that it lacked. -/
theorem bmap_spec (hj : j < MAXFILE) :
    wp (bmap k j) (fun r s' => ∃ n, Mapped s N D i k s' n ∧ (r ≠ 0 → slot s'.disk n j = r) ∧
      (r = 0 → slot s.disk (N i) j = 0 ∧ NoRoom s')) (fun _ => False) s := by
  have hdin : (s.itable k).din = N i := by rw [h.table.cached k hc.ref hc.valid, hc.inum]
  by_cases h0 : slot s.disk (N i) j = 0
  · apply wp_post (bmap_new h hc hi hop hj h0)
    rintro r s' ⟨n, hmap, hr, hno⟩
    exact ⟨n, hmap, hr, fun hz => ⟨h0, hno hz⟩⟩
  · exact wp_of_ok (bmap_hit hdin hj h0) ⟨N i, Mapped.refl h hc, fun _ => rfl, fun hr => absurd hr h0⟩

end

end Xv6Cow.Fs

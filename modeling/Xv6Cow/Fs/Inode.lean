import Xv6Cow.Fs.Trunc

/-! # Inodes in memory

The specifications of `iget`, `idup` and `ilock` over the invariant `Inv`, and of writing back an
inode that has been changed.  Each says how the references of the call change and what becomes of
the tree of allocated inodes: `tree s i` is the abstract inode `i`, if it is allocated. -/

namespace Xv6Cow.Fs

open Log (Block Disk)
open Function (update update_self update_of_ne update_eq_self)

variable {s s' t : FsState} {N : ℕ → Dinode} {D F F' : Set ℕ} {lent bal : ℕ → ℤ} {n : Dinode}
  {i j k m b c : ℕ} {δ : ℤ}

/-! ### The tree -/

/-- The abstract inode `i`, if it is allocated. -/
def FsState.tree (s : FsState) (i : ℕ) : Option Node :=
  if Alloc s.sb s.dinode i then some (s.node i) else none

theorem tree_of_alloc (h : Alloc s.sb s.dinode i) : s.tree i = some (s.node i) := if_pos h

theorem tree_eq_none : s.tree i = none ↔ ¬ Alloc s.sb s.dinode i := by
  unfold FsState.tree
  split_ifs with h
  · exact ⟨fun hn => absurd hn (by simp), fun hn => absurd h hn⟩
  · exact ⟨fun _ => h, fun _ => rfl⟩

theorem tree_eq_some {x : Node} : s.tree i = some x ↔ Alloc s.sb s.dinode i ∧ s.node i = x := by
  unfold FsState.tree
  split_ifs with h
  · simp [h]
  · exact ⟨fun hn => absurd hn (by simp), fun hn => absurd hn.1 h⟩

theorem tree_congr (hsb : s'.sb = s.sb) (hd : s'.disk = s.disk) : s'.tree = s.tree := by
  funext i
  unfold FsState.tree FsState.node FsState.dinode
  simp [hsb, hd]

/-- The rest of the state, which the functions on inodes leave alone. -/
structure Frame (s s' : FsState) : Prop where
  sb : s'.sb = s.sb
  outstanding : s'.outstanding = s.outstanding
  ftable : s'.ftable = s.ftable
  procs : s'.procs = s.procs

theorem Frame.trans {s'' : FsState} (h : Frame s s') (h' : Frame s' s'') : Frame s s'' :=
  ⟨h'.sb.trans h.sb, h'.outstanding.trans h.outstanding, h'.ftable.trans h.ftable,
    h'.procs.trans h.procs⟩

theorem Frame.cwds (h : Frame s s') : cwds s' = cwds s := by
  unfold Fs.cwds
  rw [h.procs]

theorem Frame.opens (h : Frame s s') : opens s' = opens s := by
  unfold Fs.opens
  rw [h.ftable]

theorem Frame.fds (h : Frame s s') : fds s' = fds s := by
  unfold Fs.fds
  rw [h.procs]

/-! ### References -/

theorem Inv.ref_eq (h : Inv s lent bal F) (k : ℕ) : ((s.itable k).ref : ℤ) = cwds s k + opens s k +
    lent k :=
  congrFun h.refs k

theorem opens_nonneg (s : FsState) (k : ℕ) : 0 ≤ opens s k := tally_nonneg _ _ _

theorem cwds_nonneg (s : FsState) (k : ℕ) : 0 ≤ cwds s k := tally_nonneg _ _ _

theorem Inv.lent_le (h : Inv s lent bal F) (k : ℕ) : lent k ≤ (s.itable k).ref := by
  have := h.ref_eq k
  have := opens_nonneg s k
  have := cwds_nonneg s k
  omega

theorem Inv.opens_le (h : Inv s lent bal F) (k : ℕ) : opens s k ≤ (s.itable k).ref := by
  have := h.ref_eq k
  have := h.held k
  omega

theorem one_le_opens {f : ℕ} (hf : f < NFILE) (ht : (s.ftable f).type ≠ .none) :
    1 ≤ opens s (s.ftable f).ip :=
  one_le_tally (f := fun f => (s.ftable f).target) (Finset.mem_range.mpr hf) (if_neg ht)

theorem Files.lt (h : Files s) {f : ℕ} (ht : (s.ftable f).type ≠ .none) : f < NFILE := by
  apply h.small
  by_contra h0
  exact ht (h.closed f (by omega))

theorem frame_setEntry {e : Inode} : Frame s (s.setEntry k e) := ⟨rfl, rfl, rfl, rfl⟩

theorem tree_setEntry {e : Inode} : (s.setEntry k e).tree = s.tree := tree_congr rfl rfl

theorem dinode_setEntry {e : Inode} : (s.setEntry k e).dinode = s.dinode := rfl

/-- One entry of the inode table changes and nothing else. -/
theorem Inv.setEntry (h : Inv s lent bal F) (hk : k < NINODE) (e : Inode)
    (hδ : (e.ref : ℤ) = (s.itable k).ref + δ) (hheld : 0 ≤ cwds s k + lent k + δ)
    (hinum : 0 < e.ref → (0 < e.inum ∧ e.inum < s.sb.ninodes) ∧ ∀ l, l ≠ k → 0 < (s.itable l).ref →
      (s.itable l).inum ≠ e.inum)
    (hcached : 0 < e.ref → e.valid = true → e.din = s.dinode e.inum ∧ (s.dinode e.inum).type ≠ 0)
    (hfiles : 0 < opens s k → e.inum = (s.itable k).inum ∧ e.valid = true)
    (hz : Cached s k (s.itable k).inum → lent k < (s.itable k).ref →
      (s.dinode (s.itable k).inum).nlink = 0 → 0 < e.ref ∧ e.valid = true ∧ e.inum = (s.itable k).inum) :
    Inv (s.setEntry k e) (lent + Pi.single k δ) bal F := by
  have htable : Table s.sb.ninodes (s.setEntry k e).itable s.dinode := by
    refine ⟨fun l hl => ?_, fun l hl => ?_, fun l m hl hm hlm => ?_, fun l hl hv => ?_⟩
    · by_cases hlk : l = k
      · exact hlk ▸ hk
      · rw [setEntry_ne hlk] at hl
        exact h.mid.table.small l hl
    · by_cases hlk : l = k
      · rw [hlk, setEntry_self] at hl ⊢
        exact (hinum hl).1
      · rw [setEntry_ne hlk] at hl ⊢
        exact h.mid.table.inum l hl
    · by_cases hlk : l = k
      · by_cases hmk : m = k
        · exact hlk.trans hmk.symm
        · rw [hlk, setEntry_self] at hl hlm
          rw [setEntry_ne hmk] at hm hlm
          exact absurd hlm.symm ((hinum hl).2 m hmk hm)
      · by_cases hmk : m = k
        · rw [hmk, setEntry_self] at hm hlm
          rw [setEntry_ne hlk] at hl hlm
          exact absurd hlm ((hinum hm).2 l hlk hl)
        · rw [setEntry_ne hlk] at hl hlm
          rw [setEntry_ne hmk] at hm hlm
          exact h.mid.table.inj l m hl hm hlm
    · by_cases hlk : l = k
      · rw [hlk, setEntry_self] at hl hv ⊢
        exact (hcached hl hv).1
      · rw [setEntry_ne hlk] at hl hv ⊢
        exact h.mid.table.cached l hl hv
  have hopen : ∀ f, (s.ftable f).type ≠ .none → (s.ftable f).ip = k → 0 < opens s k := fun f hf hfk => by
    have := one_le_opens (h.files.lt hf) hf
    rw [hfk] at this
    omega
  refine ⟨{ h.mid with table := htable }, fun l hl hv => ?_, ?_, fun l => ?_, h.frefs, ?_, h.dirs,
    fun m hm h0 => ?_⟩
  · rw [dinode_setEntry]
    by_cases hlk : l = k
    · rw [hlk, setEntry_self] at hl hv ⊢
      exact (hcached hl hv).2
    · rw [setEntry_ne hlk] at hl hv ⊢
      exact h.live l hl hv
  · funext l
    have href := h.ref_eq l
    rw [frame_setEntry.cwds, frame_setEntry.opens, Pi.add_apply, Pi.add_apply, Pi.add_apply]
    by_cases hlk : l = k
    · rw [hlk] at href ⊢
      rw [setEntry_self, Pi.single_eq_same]
      omega
    · rw [setEntry_ne hlk, Pi.single_eq_of_ne hlk]
      omega
  · have := h.held l
    rw [frame_setEntry.cwds, Pi.add_apply]
    by_cases hlk : l = k
    · rw [hlk, Pi.single_eq_same]
      omega
    · rw [Pi.single_eq_of_ne hlk]
      omega
  · refine ⟨h.files.small, h.files.closed, fun f hf => ?_, fun f hf hw => ?_⟩
    · by_cases hfk : (s.ftable f).ip = k
      · change ((s.setEntry k e).itable (s.ftable f).ip).valid = true
        rw [hfk, setEntry_self]
        exact (hfiles (hopen f hf hfk)).2
      · change ((s.setEntry k e).itable (s.ftable f).ip).valid = true
        rw [setEntry_ne hfk]
        exact h.files.valid f hf
    · have hwr := h.files.writable f hf hw
      have hf' : (s.ftable f).type ≠ .none := by
        change (s.ftable f).type = .inode at hf
        rw [hf]
        decide
      change (s.dinode ((s.setEntry k e).itable (s.ftable f).ip).inum).type ≠ T_DIR
      by_cases hfk : (s.ftable f).ip = k
      · rw [hfk, setEntry_self, (hfiles (hopen f hf' hfk)).1, ← hfk]
        exact hwr
      · rw [setEntry_ne hfk]
        exact hwr
  · cases h.zombie m hm h0 with
    | inl hF => exact Or.inl hF
    | inr hex =>
        obtain ⟨l, hl, hlt⟩ := hex
        refine Or.inr ⟨l, ?_⟩
        rw [Pi.add_apply]
        by_cases hlk : l = k
        · subst hlk
          have hkeep := hz (hl.inum.symm ▸ hl) hlt (by rw [hl.inum]; exact h0)
          rw [setEntry_self, Pi.single_eq_same]
          refine ⟨⟨?_, ?_, ?_⟩, by omega⟩
          · rw [setEntry_self]
            exact hkeep.1
          · rw [setEntry_self]
            exact hkeep.2.1
          · rw [setEntry_self, hkeep.2.2, hl.inum]
        · rw [setEntry_ne hlk, Pi.single_eq_of_ne hlk, add_zero]
          refine ⟨⟨?_, ?_, ?_⟩, hlt⟩
          · rw [setEntry_ne hlk]
            exact hl.ref
          · rw [setEntry_ne hlk]
            exact hl.valid
          · rw [setEntry_ne hlk]
            exact hl.inum

/-! ### `iget`, `idup` and `ilock` -/

/-- Entry `k` is in use for inode `i`. -/
structure Refers (s : FsState) (k i : ℕ) : Prop where
  ref : 0 < (s.itable k).ref
  inum : (s.itable k).inum = i

theorem Cached.refers (h : Cached s k i) : Refers s k i := ⟨h.ref, h.inum⟩

theorem Inv.inum_lt (h : Inv s lent bal F) (hr : Refers s k i) : 0 < i ∧ i < s.sb.ninodes :=
  hr.inum ▸ h.mid.table.inum k hr.ref

theorem Inv.alloc (h : Inv s lent bal F) (hc : Cached s k i) : Alloc s.sb s.dinode i :=
  ⟨(h.inum_lt hc.refers).2, hc.inum ▸ h.live k hc.ref hc.valid⟩

theorem Inv.din (h : Inv s lent bal F) (hc : Cached s k i) : (s.itable k).din = s.dinode i :=
  h.mid.din hc

/-- The entries in use keep their inodes. -/
structure Stays (s s' : FsState) : Prop where
  refers : ∀ {m c}, Refers s m c → Refers s' m c
  cached : ∀ {m c}, Cached s m c → Cached s' m c

theorem Stays.refl (s : FsState) : Stays s s := ⟨id, id⟩

theorem Stays.trans {s'' : FsState} (h : Stays s s') (h' : Stays s' s'') : Stays s s'' :=
  ⟨fun hr => h'.refers (h.refers hr), fun hc => h'.cached (h.cached hc)⟩

/-- A function on inodes goes from `s` to `s'`, and the tree becomes `T`. -/
structure To (s s' : FsState) (T : ℕ → Option Node) : Prop where
  frame : Frame s s'
  stays : Stays s s'
  tree : s'.tree = T

theorem To.trans {s'' : FsState} {T T' : ℕ → Option Node} (h : To s s' T) (h' : To s' s'' T') :
    To s s'' T' :=
  ⟨h.frame.trans h'.frame, h.stays.trans h'.stays, h'.tree⟩

/-- What a function leaves that changes entry `k` only. -/
structure Touched (s s' : FsState) (k : ℕ) : Prop where
  eq : s' = s.setEntry k (s'.itable k)
  stays : Stays s s'

theorem Touched.frame (h : Touched s s' k) : Frame s s' := by
  rw [h.eq]
  exact frame_setEntry

theorem Touched.tree (h : Touched s s' k) : s'.tree = s.tree := by
  rw [h.eq]
  exact tree_setEntry

theorem Touched.goes (h : Touched s s' k) : To s s' s.tree := ⟨h.frame, h.stays, h.tree⟩

theorem Touched.of_setEntry {e : Inode}
    (hk : 0 < (s.itable k).ref → 0 < e.ref ∧ e.inum = (s.itable k).inum ∧
      ((s.itable k).valid = true → e.valid = true)) : Touched s (s.setEntry k e) k := by
  refine ⟨by rw [setEntry_self], fun {m c} hr => ?_, fun {m c} hc => ?_⟩
  · by_cases hm : m = k
    · subst hm
      have := hk hr.ref
      exact ⟨by rw [setEntry_self]; exact this.1, by rw [setEntry_self, this.2.1, hr.inum]⟩
    · exact ⟨by rw [setEntry_ne hm]; exact hr.ref, by rw [setEntry_ne hm]; exact hr.inum⟩
  · by_cases hm : m = k
    · subst hm
      have := hk hc.ref
      exact ⟨by rw [setEntry_self]; exact this.1, by rw [setEntry_self]; exact this.2.2 hc.valid,
        by rw [setEntry_self, this.2.1, hc.inum]⟩
    · exact ⟨by rw [setEntry_ne hm]; exact hc.ref, by rw [setEntry_ne hm]; exact hc.valid,
        by rw [setEntry_ne hm]; exact hc.inum⟩

/-- An entry with an open file has been read. -/
theorem Inv.valid_of_opens (h : Inv s lent bal F) (ho : 0 < opens s k) : (s.itable k).valid = true := by
  obtain ⟨f, hf, hft⟩ := exists_of_tally_pos ho
  have hne : (s.ftable f).type ≠ .none := fun hn => by simp [File.target, hn] at hft
  have hip : (s.ftable f).ip = k := by simpa [File.target, hne] using hft
  exact hip ▸ h.files.valid f hne

theorem Inv.addRef (h : Inv s lent bal F) (hr : Refers s k i) :
    Inv (s.setEntry k { s.itable k with ref := (s.itable k).ref + 1 }) (lent + Pi.single k 1) bal F := by
  refine h.setEntry (h.mid.table.small k hr.ref) _ (by push_cast; rfl) (by have := h.held k; omega)
    (fun _ => ⟨h.mid.table.inum k hr.ref, fun l hl hlr hli => hl (h.mid.table.inj l k hlr hr.ref hli)⟩)
    (fun _ hv => ⟨h.mid.table.cached k hr.ref hv, h.live k hr.ref hv⟩)
    (fun ho => ⟨rfl, h.valid_of_opens ho⟩)
    (fun hc _ _ => ⟨Nat.succ_pos _, hc.valid, rfl⟩)

theorem Inv.newEntry (h : Inv s lent bal F) (hk : k < NINODE) (h0 : (s.itable k).ref = 0)
    (hi : 0 < i ∧ i < s.sb.ninodes) (hnew : ∀ l, 0 < (s.itable l).ref → (s.itable l).inum ≠ i) :
    Inv (s.setEntry k { s.itable k with inum := i, ref := 1, valid := false })
      (lent + Pi.single k 1) bal F := by
  refine h.setEntry hk _ (by rw [h0]; rfl) (by have := h.held k; omega)
    (fun _ => ⟨hi, fun l _ hlr => hnew l hlr⟩) (fun _ hv => by simp at hv) (fun ho => ?_)
    (fun hc _ _ => ?_)
  · have := h.opens_le k
    omega
  · have := hc.ref
    omega

/-- Every entry of the inode table is in use. -/
def Crowded (s : FsState) : Prop := ∀ l < NINODE, 0 < (s.itable l).ref

/-- **`iget`** gives one more reference to an entry of the inode, or finds the table full. -/
theorem iget_spec (h : Inv s lent bal F) (hi : 0 < i ∧ i < s.sb.ninodes) :
    wp (iget i) (fun k s' => Inv s' (lent + Pi.single k 1) bal F ∧ Touched s s' k ∧ Refers s' k i)
      (fun e => e = .iget ∧ Crowded s) s := by
  unfold iget
  rw [wp_bind, wp_get]
  cases hfind : (List.range NINODE).find? (fun k => 0 < (s.itable k).ref ∧ (s.itable k).inum = i) with
  | some k =>
      have hk := List.find?_some hfind
      rw [decide_eq_true_eq] at hk
      simp only [wp_bind, wp_modifyInode, wp_pure]
      exact ⟨h.addRef ⟨hk.1, hk.2⟩, Touched.of_setEntry (fun _ => ⟨Nat.succ_pos _, rfl, id⟩),
        ⟨by simp, by simp [hk.2]⟩⟩
  | none =>
      rw [List.find?_eq_none] at hfind
      have hnew : ∀ l, 0 < (s.itable l).ref → (s.itable l).inum ≠ i := fun l hl hli => by
        have := hfind l (List.mem_range.mpr (h.mid.table.small l hl))
        rw [decide_eq_true_eq] at this
        exact this ⟨hl, hli⟩
      cases hempty : (List.range NINODE).find? (fun k => (s.itable k).ref = 0) with
      | none =>
          refine wp_throw.mpr ⟨rfl, fun l hl => Nat.pos_of_ne_zero fun h0 => ?_⟩
          exact List.find?_eq_none.mp hempty l (List.mem_range.mpr hl) (decide_eq_true h0)
      | some k =>
          have h0 := List.find?_some hempty
          rw [decide_eq_true_eq] at h0
          have hk := List.mem_range.mp (List.mem_of_find?_eq_some hempty)
          simp only [wp_bind, wp_modifyInode, wp_pure]
          exact ⟨h.newEntry hk h0 hi hnew, Touched.of_setEntry (fun hr => by omega), ⟨by simp, by simp⟩⟩

/-- **`idup`** -/
theorem idup_spec (h : Inv s lent bal F) (hr : Refers s k i) :
    wp (idup k) (fun r s' => r = k ∧ Inv s' (lent + Pi.single k 1) bal F ∧ Touched s s' k ∧
      Refers s' k i) (fun _ => False) s := by
  unfold idup
  simp only [wp_bind, wp_modifyInode, wp_pure]
  exact ⟨trivial, h.addRef hr, Touched.of_setEntry (fun _ => ⟨Nat.succ_pos _, rfl, id⟩),
    ⟨by simp, by simp [hr.inum]⟩⟩

/-- **`ilock`** reads the inode; it stops only at an inode that is not allocated. -/
theorem ilock_spec (h : Inv s lent bal F) (hr : Refers s k i) :
    wp (ilock k) (fun _ s' => Inv s' lent bal F ∧ Touched s s' k ∧ Cached s' k i)
      (fun e => e = .ilockNoType ∧ s.tree i = none) s := by
  unfold ilock
  simp only [wp_bind, wp_get]
  rw [if_neg (by have := hr.ref; omega), wp_ite]
  constructor
  · intro hv
    rw [wp_pure]
    refine ⟨h, ⟨?_, Stays.refl s⟩, ⟨hr.ref, hv, hr.inum⟩⟩
    unfold FsState.setEntry
    rw [update_eq_self]
  · intro hv
    have hdin : getDinode (s.disk (s.sb.iblock (s.itable k).inum)) (dinodeOff (s.itable k).inum) =
        s.dinode i := by
      rw [hr.inum]
      rfl
    rw [hdin]
    simp only [wp_bind, wp_modifyInode]
    rw [wp_ite]
    constructor
    · intro h0
      exact wp_throw.mpr ⟨rfl, tree_eq_none.mpr (fun ha => ha.2 h0)⟩
    · intro h0
      rw [wp_pure]
      have hinv := h.setEntry (δ := 0) (h.mid.table.small k hr.ref)
        { s.itable k with din := s.dinode i, valid := true } (by simp) (by have := h.held k; omega)
        (fun _ => ⟨h.mid.table.inum k hr.ref, fun l hl hlr hli =>
          hl (h.mid.table.inj l k hlr hr.ref hli)⟩)
        (fun _ _ => by simp only [hr.inum]; exact ⟨trivial, h0⟩) (fun _ => ⟨rfl, rfl⟩)
        (fun hc _ _ => ⟨hc.ref, rfl, rfl⟩)
      rw [Pi.single_zero, add_zero] at hinv
      exact ⟨hinv, Touched.of_setEntry (fun hp => ⟨hp, rfl, fun _ => rfl⟩),
        ⟨by simp [hr.ref], by simp, by simp [hr.inum]⟩⟩

/-! ### Changing an inode -/

/-- The types of the other inodes and of this one after it has been written back. -/
theorem wrote_dinode (h : Mid s s.dinode ∅) (e : Ext s t s.dinode i k n) (hfits : n.Fits)
    (hm : m < s.sb.ninodes) : (t.wrote i n).dinode m = if m = i then n else s.dinode m := by
  by_cases hmi : m = i
  · rw [if_pos hmi, hmi, wrote_dinode_self hfits]
  · rw [if_neg hmi, wrote_dinode_ne hmi, e.dinode h.sb hm]

theorem stays_wrote (e : Ext s t N i k n) : Stays s (t.wrote i n) :=
  ⟨fun hr => ⟨by rw [wrote_itable, e.ref]; exact hr.ref, by rw [wrote_itable, e.inum]; exact hr.inum⟩,
    fun hc => ⟨by rw [wrote_itable, e.ref]; exact hc.ref, by rw [wrote_itable, e.valid]; exact hc.valid,
      by rw [wrote_itable, e.inum]; exact hc.inum⟩⟩

/-- The one inode that differed from its block has been written back. -/
theorem Mid.written (hm : Mid t (update s.dinode i n) (insert i ∅)) (hit : i < t.sb.ninodes) :
    Mid (t.wrote i n) (t.wrote i n).dinode ∅ := by
  have := hm.wrote hit
  rw [update_self] at this
  apply Mid.settle
  apply this.mono
  rintro x ⟨hx, hxi⟩
  cases hx with
  | inl hx => exact absurd hx hxi
  | inr hx => exact hx

end Xv6Cow.Fs

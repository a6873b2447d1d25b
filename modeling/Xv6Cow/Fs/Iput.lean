import Xv6Cow.Fs.Inode

/-! # Freeing inodes

`iput` drops a reference, and the last reference to an inode without links frees it: its blocks are
given back, its type is set to 0 on disk, and its entry is empty. -/

namespace Xv6Cow.Fs

open Log (Block Disk)
open Function (update update_self update_of_ne)

variable {s s' t : FsState} {N : ℕ → Dinode} {D F F' : Set ℕ} {lent bal : ℕ → ℤ} {n : Dinode}
    {i j k m b c : ℕ}

/-! ### `iput` -/

/-- The last reference to an inode without links. -/
structure Last (s : FsState) (k i : ℕ) : Prop where
  ref : (s.itable k).ref = 1
  valid : (s.itable k).valid = true
  nlink : (s.dinode i).nlink = 0

/-- What `iput` does: the entry has one reference less, and the last reference to an inode without
links frees it. -/
structure Put (s s' : FsState) (k i : ℕ) : Prop where
  frame : Frame s s'
  other : ∀ m, m ≠ k → s'.itable m = s.itable m
  ref : (s'.itable k).ref = (s.itable k).ref - 1
  inum : (s'.itable k).inum = (s.itable k).inum
  keep : ¬ Last s k i → s'.tree = s.tree ∧ (s'.itable k).valid = (s.itable k).valid
  free : Last s k i → s'.tree = update s.tree i none

theorem Mid.free (h : Mid s N D) (hc : Cached s k i) (hz : ∀ j, slot s.disk (N i) j = 0)
    (ht : n.type = 0) (hf : n.Fits) : Mid (s.withDin k n) (update N i n) (insert i D) := by
  have hnot : ¬ Alloc s.sb (update N i n) i := fun ha => by
    have := ha.2
    rw [update_self] at this
    exact this ht
  have hother : ∀ m, Alloc s.sb (update N i n) m → m ≠ i ∧ Alloc s.sb N m := fun m hm => by
    have hmi : m ≠ i := fun hmi => hnot (hmi ▸ hm)
    unfold Alloc at hm
    rw [update_of_ne hmi] at hm
    exact ⟨hmi, hm⟩
  have hown : own s.sb s.disk (update N i n) = own s.sb s.disk N := by
    funext o
    obtain ⟨m, j⟩ := o
    by_cases hmi : m = i
    · rw [hmi, own_of_not_alloc hnot]
      unfold own
      dsimp only
      rw [hz, ite_self]
    · by_cases hm : Alloc s.sb N m
      · have hm' : Alloc s.sb (update N i n) m := by
          unfold Alloc
          rw [update_of_ne hmi]
          exact hm
        rw [own_of_alloc hm, own_of_alloc hm', update_of_ne hmi]
      · rw [own_of_not_alloc hm, own_of_not_alloc (fun hm' => hm (hother m hm').2)]
  refine ⟨h.sb, h.owned.congr hown (fun _ _ => Iff.rfl), fun m hm => ?_, fun m => ?_,
    fun m hm hmD => ?_, h.table.change hc.ref hc.inum, fun b hb hne => ?_⟩
  · rw [update_of_ne (hother m hm).1]
    exact h.full m (hother m hm).2
  · by_cases hmi : m = i
    · rw [hmi, update_self]
      exact hf
    · rw [update_of_ne hmi]
      exact h.fits m
  · rw [Set.mem_insert_iff, not_or] at hmD
    rw [update_of_ne hmD.1]
    exact h.disk m hm hmD.2
  · refine ⟨(h.loose b hb hne).1, fun m j hm hs => ?_⟩
    rw [update_of_ne (hother m hm).1] at hs ⊢
    exact (h.loose b hb hne).2 m j (hother m hm).2 hs

theorem Table.drop {ninodes : ℕ} {t : ℕ → Inode} {e : Inode} (h : Table ninodes t N)
    (he : e.ref = 0) : Table ninodes (update t k e) N := by
  have hne : ∀ l, 0 < (update t k e l).ref → l ≠ k ∧ update t k e l = t l := fun l hl => by
    have hlk : l ≠ k := fun hlk => by
      rw [hlk, update_self] at hl
      omega
    exact ⟨hlk, update_of_ne hlk _ _⟩
  refine ⟨fun l hl => ?_, fun l hl => ?_, fun l m hl hm hlm => ?_, fun l hl hv => ?_⟩
  · have heq := (hne l hl).2
    rw [heq] at hl
    exact h.small l hl
  · have heq := (hne l hl).2
    rw [heq] at hl ⊢
    exact h.inum l hl
  · have heq := (hne l hl).2
    have heq' := (hne m hm).2
    rw [heq] at hl hlm
    rw [heq'] at hm hlm
    exact h.inj l m hl hm hlm
  · have heq := (hne l hl).2
    rw [heq] at hl hv ⊢
    exact h.cached l hl hv

/-- The fields of a freed inode. -/
def Dinode.free (n : Dinode) : Dinode := { n.empty with type := 0 }

theorem Dinode.free_fits (hf : n.Fits) : n.free.Fits :=
  { Dinode.empty_fits hf with type := show short 0 = 0 by decide }

theorem Inv.freed {e : Inode} (h : Inv s lent bal F) (hc : Cached s k i) (h1 : (s.itable k).ref = 1)
    (hput : 1 ≤ cwds s k + lent k) (hframe : Frame s t) (htab : ∀ l, l ≠ k → t.itable l = s.itable l)
    (hmid : Mid t t.dinode ∅) (hz : (t.dinode i).type = 0)
    (hd : ∀ m < s.sb.ninodes, m ≠ i → t.dinode m = s.dinode m)
    (hn : ∀ m, m ≠ i → Alloc s.sb s.dinode m → t.node m = s.node m) (he : e.ref = 0) :
    Inv (t.setEntry k e) (lent - Pi.single k 1) bal F ∧ (t.setEntry k e).tree =
      update s.tree i none := by
  have hopens : opens s k = 0 := by
    have := h.ref_eq k
    have := opens_nonneg s k
    omega
  have halloc : ∀ m, Alloc t.sb t.dinode m ↔ m ≠ i ∧ Alloc s.sb s.dinode m := fun m => by
    unfold Alloc
    rw [hframe.sb]
    constructor
    · rintro ⟨hm, ht⟩
      have hmi : m ≠ i := fun hmi => ht (hmi ▸ hz)
      exact ⟨hmi, hm, by rw [← hd m hm hmi]; exact ht⟩
    · rintro ⟨hmi, hm, ht⟩
      exact ⟨hm, by rw [hd m hm hmi]; exact ht⟩
  have hent : ∀ l, l ≠ k → (t.setEntry k e).itable l = s.itable l :=
    fun l hl => by rw [setEntry_ne hl, htab l hl]
  have hlive : ∀ l, 0 < ((t.setEntry k e).itable l).ref → l ≠ k := fun l hl hlk => by
    rw [hlk, setEntry_self] at hl
    omega
  have hinum : ∀ l, l ≠ k → 0 < (s.itable l).ref → (s.itable l).inum ≠ i ∧
      (s.itable l).inum < s.sb.ninodes :=
    fun l hlk hl => ⟨fun hli => hlk (h.mid.table.inj l k hl hc.ref (hli.trans hc.inum.symm)),
      (h.mid.table.inum l hl).2⟩
  have hfr : Frame s (t.setEntry k e) := hframe.trans frame_setEntry
  have hip : ∀ f, (s.ftable f).type ≠ .none → (s.ftable f).ip ≠ k ∧
      0 < (s.itable (s.ftable f).ip).ref := fun f hf => by
    have h1 := one_le_opens (h.files.lt hf) hf
    refine ⟨fun hfk => ?_, ?_⟩
    · rw [hfk] at h1
      omega
    · have := h.opens_le (s.ftable f).ip
      omega
  constructor
  · refine ⟨{ hmid with table := hmid.table.drop he }, fun l hl hv => ?_, ?_, fun l => ?_, ?_,
      ⟨?_, ?_, ?_, ?_⟩, fun m hm ht => ?_, fun m hm h0 => ?_⟩
    · have hlk := hlive l hl
      rw [hent l hlk] at hl hv ⊢
      rw [dinode_setEntry, hd _ (hinum l hlk hl).2 (hinum l hlk hl).1]
      exact h.live l hl hv
    · funext l
      have := h.ref_eq l
      rw [hfr.cwds, hfr.opens, Pi.add_apply, Pi.add_apply, Pi.sub_apply]
      by_cases hlk : l = k
      · rw [hlk] at this ⊢
        rw [setEntry_self, he, Pi.single_eq_same]
        omega
      · rw [hent l hlk, Pi.single_eq_of_ne hlk]
        omega
    · have := h.held l
      rw [hfr.cwds, Pi.sub_apply]
      by_cases hlk : l = k
      · rw [hlk, Pi.single_eq_same]
        omega
      · rw [Pi.single_eq_of_ne hlk]
        omega
    · rw [hfr.ftable, hfr.fds]
      exact h.frefs
    · rw [hfr.ftable]
      exact h.files.small
    · rw [hfr.ftable]
      exact h.files.closed
    · rw [hfr.ftable]
      intro f hf
      rw [hent _ (hip f hf).1]
      exact h.files.valid f hf
    · rw [hfr.ftable]
      intro f hf hw
      have hne : (s.ftable f).type ≠ .none := by
        rw [hf]
        decide
      have hl := hip f hne
      rw [hent _ hl.1, dinode_setEntry, hd _ (hinum _ hl.1 hl.2).2 (hinum _ hl.1 hl.2).1]
      exact h.files.writable f hf hw
    · have ha := (halloc m).mp hm
      rw [hfr.sb]
      change DirOk _ (t.node m).data
      rw [hn m ha.1 ha.2]
      apply h.dirs m ha.2
      rw [← hd m ha.2.1 ha.1]
      exact ht
    · have ha := (halloc m).mp hm
      rw [dinode_setEntry, hd m ha.2.1 ha.1] at h0
      cases h.zombie m ha.2 h0 with
      | inl hF => exact Or.inl hF
      | inr hex =>
          obtain ⟨l, hl, hlt⟩ := hex
          have hlk : l ≠ k := fun hlk => ha.1 (by rw [← hl.inum, hlk, hc.inum])
          refine Or.inr ⟨l, ⟨?_, ?_, ?_⟩, ?_⟩
          · rw [hent l hlk]
            exact hl.ref
          · rw [hent l hlk]
            exact hl.valid
          · rw [hent l hlk]
            exact hl.inum
          · rw [hent l hlk, Pi.sub_apply, Pi.single_eq_of_ne hlk]
            omega
  · rw [tree_setEntry]
    funext m
    by_cases hmi : m = i
    · rw [hmi, update_self, tree_eq_none]
      exact fun ha => ((halloc i).mp ha).1 rfl
    · rw [update_of_ne hmi]
      by_cases ha : Alloc s.sb s.dinode m
      · rw [tree_of_alloc ha, tree_eq_some]
        exact ⟨(halloc m).mpr ⟨hmi, ha⟩, hn m hmi ha⟩
      · rw [tree_eq_none.mpr ha, tree_eq_none]
        exact fun ha' => ha ((halloc m).mp ha').2

theorem iput_free (h : Inv s lent bal F) (hc : Cached s k i) (hlast : Last s k i)
    (hop : 0 < s.outstanding) (hput : 1 ≤ cwds s k + lent k) :
    wp (do
        itrunc k
        modifyDin k (fun n => { n with type := 0 })
        iupdate k
        modifyInode k (fun ip => { ip with valid := false }))
      (fun _ t => wp (modifyInode k (fun ip => { ip with ref := ip.ref - 1 }))
        (fun _ s' => Inv s' (lent - Pi.single k 1) bal F ∧ Put s s' k i) (fun _ => False) t)
          (fun _ => False) s := by
  have hi := h.alloc hc
  have hfits := h.mid.fits i
  rw [wp_bind]
  apply wp_post (itrunc_spec h.mid hc hi hop)
  rintro _ _ ⟨t, hext, hmid, rfl⟩
  have hit : i < t.sb.ninodes := by
    rw [hext.sb]
    exact hi.1
  have hc1 : Cached (t.wrote i (s.dinode i).empty) k i := (stays_wrote hext).cached hc
  have hmid1 := hmid.wrote hit
  rw [update_self] at hmid1
  have hdin1 : ((t.wrote i (s.dinode i).empty).itable k).din = (s.dinode i).empty := by
    rw [wrote_itable, hext.itable, update_self]
  have hmid2 := hmid1.free
    (n := (s.dinode i).free) hc1 (fun j => by rw [update_self]; exact slot_empty _ _ j) rfl
      (Dinode.free_fits hfits)
  have hc2 : Cached ((t.wrote i (s.dinode i).empty).withDin k (s.dinode i).free) k i :=
    ⟨by rw [withDin_self]; exact hc1.ref, by rw [withDin_self]; exact hc1.valid,
      by rw [withDin_self]; exact hc1.inum⟩
  simp only [wp_bind, wp_modifyDin, wp_modifyInode, hdin1]
  apply wp_post (iupdate_spec hmid2 hc2 (by exact hext.outstanding ▸ hop))
  intro _ u hu
  rw [update_self] at hu
  have hmid3 := hmid2.wrote hit
  rw [update_self, ← hu] at hmid3
  have hmid4 : Mid u u.dinode ∅ := by
    apply Mid.settle
    apply hmid3.mono
    rintro x ⟨hx, hxi⟩
    cases hx with
    | inl hx => exact absurd hx hxi
    | inr hx =>
        cases hx.1 with
        | inl hx => exact absurd hx hxi
        | inr hx => exact hx
  have hframe : Frame s u := by
    rw [hu]
    exact ⟨hext.sb, hext.outstanding, hext.ftable, hext.procs⟩
  have htab : ∀ l, l ≠ k → u.itable l = s.itable l := fun l hl => by
    rw [hu, wrote_itable, FsState.withDin, setEntry_ne hl, wrote_itable, hext.itable, update_of_ne hl]
  have hself : u.dinode i = (s.dinode i).free := by
    rw [hu]
    exact wrote_dinode_self (Dinode.free_fits hfits)
  have hother : ∀ m < s.sb.ninodes, m ≠ i → u.dinode m = s.dinode m := fun m hm hmi => by
    rw [hu, wrote_dinode_ne hmi]
    change (t.wrote i (s.dinode i).empty).dinode m = _
    rw [wrote_dinode_ne hmi, hext.dinode h.mid.sb hm]
  have hnodes : ∀ m, m ≠ i → Alloc s.sb s.dinode m → u.node m = s.node m := fun m hmi hm => by
    have hm1 : Alloc t.sb (update s.dinode i (s.dinode i).empty) m := by
      unfold Alloc
      rw [update_of_ne hmi, hext.sb]
      exact hm
    have hm2 : Alloc t.sb (update (update s.dinode i (s.dinode i).empty) i (s.dinode i).free) m := by
      unfold Alloc
      rw [update_of_ne hmi]
      exact hm1
    unfold FsState.node
    rw [hother m hm.1 hmi, hu]
    have hw := wrote_nodeOf (n := (s.dinode i).free) hmid2 hit hm2
    rw [update_of_ne hmi, update_of_ne hmi] at hw
    rw [hw]
    change nodeOf (t.wrote i (s.dinode i).empty).disk (s.dinode m) = _
    have hw' := wrote_nodeOf (n := (s.dinode i).empty) hmid hit hm1
    rw [update_of_ne hmi] at hw'
    rw [hw', hext.nodeOf_other h.mid hmi hm]
  have huref : (u.itable k).ref = 1 := by
    rw [hu, wrote_itable, withDin_self]
    exact (hext.ref k).trans hlast.ref
  have huinum : (u.itable k).inum = (s.itable k).inum := by
    rw [hu, wrote_itable, withDin_self]
    exact hext.inum k
  rw [setEntry_setEntry, setEntry_self]
  have hfin := h.freed (e := { u.itable k with valid := false, ref := (u.itable k).ref - 1 }) hc
    hlast.ref hput hframe htab hmid4 (by rw [hself]; rfl) hother hnodes (by dsimp only; rw [huref])
  refine ⟨hfin.1, hframe.trans frame_setEntry, fun m hm => ?_, ?_, ?_, fun hn => absurd hlast hn,
    fun _ => hfin.2⟩
  · rw [setEntry_ne hm, htab m hm]
  · rw [setEntry_self]
    dsimp only
    rw [huref, hlast.ref]
  · rw [setEntry_self]
    exact huinum

/-- **`iput`** drops one reference and frees the inode if it was the last and there is no link. -/
theorem iput_spec (h : Inv s lent bal F) (hr : Refers s k i) (hop : 0 < s.outstanding)
    (hput : 1 ≤ cwds s k + lent k) :
    wp (iput k) (fun _ s' => Inv s' (lent - Pi.single k 1) bal F ∧ Put s s' k i) (fun _ => False) s := by
  unfold iput
  simp only [getInode, wp_bind, wp_get, wp_pure]
  rw [wp_onlyIf]
  constructor
  · rintro ⟨h1, hv, hl⟩
    have hc : Cached s k i := ⟨hr.ref, hv, hr.inum⟩
    rw [h.din hc] at hl
    exact iput_free h hc ⟨h1, hv, hl⟩ hop hput
  · intro hnot
    have hnlast : ¬ Last s k i := fun hlast => hnot ⟨hlast.ref, hlast.valid, by
      rw [h.din ⟨hr.ref, hlast.valid, hr.inum⟩]
      exact hlast.nlink⟩
    rw [wp_modifyInode]
    have hinv := h.setEntry (δ := -1) (h.mid.table.small k hr.ref)
      { s.itable k with ref := (s.itable k).ref - 1 } (by have := hr.ref; dsimp only; omega) (by omega)
      (fun _ => ⟨h.mid.table.inum k hr.ref, fun l hl hlr hli => hl (h.mid.table.inj l k hlr hr.ref hli)⟩)
      (fun _ hv => ⟨h.mid.table.cached k hr.ref hv, h.live k hr.ref hv⟩)
      (fun ho => ⟨rfl, h.valid_of_opens ho⟩)
      (fun hc hlt h0 => ?_)
    · rw [Pi.single_neg, ← sub_eq_add_neg] at hinv
      refine ⟨hinv, frame_setEntry, fun m hm => setEntry_ne hm, ?_, ?_,
        fun _ => ⟨tree_setEntry, ?_⟩, fun hlast => absurd hlast hnlast⟩
      · rw [setEntry_self]
      · rw [setEntry_self]
      · rw [setEntry_self]
    · refine ⟨?_, hc.valid, rfl⟩
      -- if this were the last reference, it would be to an inode without links
      have h1 : (s.itable k).ref ≠ 1 := fun h1 => hnlast ⟨h1, hc.valid, by rw [← hr.inum]; exact h0⟩
      have := hr.ref
      dsimp only
      omega

theorem Inv.not_last (h : Inv s lent bal F) (hlent : 1 ≤ lent k) (hiF : i ∉ F) (hr : Refers s k i) :
    ¬ Last s k i := by
  rintro ⟨h1, hv, h0⟩
  have hc : Cached s k i := ⟨hr.ref, hv, hr.inum⟩
  cases h.zombie i (h.alloc hc) h0 with
  | inl hF => exact hiF hF
  | inr hex =>
      obtain ⟨l, hl, hlt⟩ := hex
      obtain rfl : l = k := h.mid.table.inj l k hl.ref hr.ref (hl.inum.trans hr.inum.symm)
      omega

theorem Inv.ref_le {lent' bal' : ℕ → ℤ} {F' : Set ℕ} (h : Inv s lent bal F)
    (h' : Inv s' lent' bal' F') (hf : Frame s s') (hle : lent k ≤ lent' k) :
    (s.itable k).ref ≤ (s'.itable k).ref := by
  have h1 := h.ref_eq k
  have h2 := h'.ref_eq k
  rw [hf.cwds, hf.opens] at h2
  omega

/-- What a call still refers to after one of its other references is gone. -/
structure Left (s s' : FsState) (lent : ℕ → ℤ) : Prop where
  refers : ∀ {m c}, 1 ≤ lent m → Refers s m c → Refers s' m c
  cached : ∀ {m c}, 1 ≤ lent m → Cached s m c → Cached s' m c

theorem Put.left (h : Put s s' k i) (hkeep : ¬ Last s k i) (hinv : Inv s' lent bal F) :
    Left s s' lent := by
  have hpos : ∀ m, 1 ≤ lent m → 0 < (s'.itable m).ref := fun m hm => by
    have := hinv.lent_le m
    omega
  have hinum : ∀ m, (s'.itable m).inum = (s.itable m).inum := fun m => by
    by_cases hm : m = k
    · rw [hm, h.inum]
    · rw [h.other m hm]
  have hvalid : ∀ m, (s'.itable m).valid = (s.itable m).valid := fun m => by
    by_cases hm : m = k
    · rw [hm, (h.keep hkeep).2]
    · rw [h.other m hm]
  exact ⟨fun hm hr => ⟨hpos _ hm, by rw [hinum, hr.inum]⟩,
    fun hm hc => ⟨hpos _ hm, by rw [hvalid, hc.valid], by rw [hinum, hc.inum]⟩⟩

/-- **A reference taken since `s` is dropped.**  The inode is not freed. -/
theorem iput_temp {lent' : ℕ → ℤ} {T : ℕ → Option Node} (h : Inv s lent bal F)
    (h' : Inv t (lent' + Pi.single k 1) bal F) (hto : To s t T) (hr : Refers t k i)
    (hop : 0 < s.outstanding) (hlent : ∀ l, 0 ≤ lent l) (hle : ∀ l, lent l ≤ lent' l)
    (hF : ∀ i ∈ F, ∃ l, Refers s l i) :
    wp (iput k) (fun _ s' => Inv s' lent' bal F ∧ To s s' T ∧ Left t s' lent') (fun _ => False) t := by
  have hone := one_le_add_single ((hlent k).trans (hle k))
  have hkeep : ¬ Last t k i := by
    by_cases hiF : i ∈ F
    · -- the call holds this inode already, so there is another reference
      obtain ⟨l, hl⟩ := hF i hiF
      have hl' := hto.stays.refers hl
      have hlk : l = k := h'.mid.table.inj l k hl'.ref hr.ref (hl'.inum.trans hr.inum.symm)
      have h1 := h.ref_eq k
      have h2 := h'.ref_eq k
      have := hle k
      have := hl.ref
      rw [hto.frame.cwds, hto.frame.opens, Pi.add_apply, Pi.single_eq_same] at h2
      rw [hlk] at this
      intro hlast
      have := hlast.ref
      omega
    · exact h'.not_last hone hiF hr
  have hput : 1 ≤ cwds t k + (lent' + Pi.single k 1 : ℕ → ℤ) k := by
    have := cwds_nonneg t k
    omega
  apply wp_post (iput_spec h' hr (by rw [hto.frame.outstanding]; exact hop) hput)
  intro _ s' hs'
  rw [add_sub_cancel_right] at hs'
  have hframe := hto.frame.trans hs'.2.frame
  have hleft := hs'.2.left hkeep hs'.1
  refine ⟨hs'.1, ⟨hframe, ⟨fun {m c} hm => ?_, fun {m c} hm => ?_⟩,
    by rw [(hs'.2.keep hkeep).1, hto.tree]⟩, hleft⟩
  · have := hto.stays.refers hm
    have hpos := h.ref_le hs'.1 hframe (hle m)
    have := hm.ref
    refine ⟨by omega, ?_⟩
    by_cases hmk : m = k
    · rw [hmk, hs'.2.inum, ← hmk]
      exact (hto.stays.refers hm).inum
    · rw [hs'.2.other m hmk]
      exact (hto.stays.refers hm).inum
  · have hcached := hto.stays.cached hm
    have hpos := h.ref_le hs'.1 hframe (hle m)
    have := hm.ref
    by_cases hmk : m = k
    · refine ⟨by omega, ?_, ?_⟩
      · rw [hmk, (hs'.2.keep hkeep).2, ← hmk]
        exact hcached.valid
      · rw [hmk, hs'.2.inum, ← hmk]
        exact hcached.inum
    · refine ⟨by omega, ?_, ?_⟩
      · rw [hs'.2.other m hmk]
        exact hcached.valid
      · rw [hs'.2.other m hmk]
        exact hcached.inum

end Xv6Cow.Fs

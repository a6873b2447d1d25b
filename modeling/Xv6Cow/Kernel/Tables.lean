import Xv6Cow.Kernel.Model
import Xv6Cow.Vm.Copyout

/-! # The page table of a process

`proc_pagetable` makes an address space without user pages, `proc_freepagetable` takes any address
space apart, `uvmfirst` gives the first process its page, and user loads and stores go through the
table.  The specifications are in terms of `Uvm` and `User`, with `X` and `U` the owners outside the
address space. -/

namespace Xv6Cow.Kernel

open Vm
open Function (update update_self update_of_ne)

theorem TRAMPOLINE_eq : TRAMPOLINE = TRV * PGSIZE := by decide

theorem TRAPFRAME_eq : TRAPFRAME = TFV * PGSIZE := by decide

theorem TRV_lt : TRV * PGSIZE < MAXVA := by decide

/-- The two pages at the top share their page-table pages, and low pages share none with them. -/
theorem dist_top : dist 2 TFV TRV = 0 := by decide

theorem dist_low {v : ℕ} (h : v < 2 ^ 18) : dist 2 v TRV = 2 ∧ dist 2 v TFV = 2 := by
  have hv : idx 2 v = 0 := by
    unfold idx
    omega
  have h1 : idx 2 TRV = 255 := by decide
  have h2 : idx 2 TFV = 255 := by decide
  constructor
  · exact if_neg (by rw [hv, h1]; decide)
  · exact if_neg (by rw [hv, h2]; decide)

section tables
variable [Layout] {s t : Mach} {L L' : List ℕ} {X U : ℕ → ℕ} {a tf n v va : ℕ} {f : ℕ → Pte} {e : Pte}

/-! ### `uvmcreate` and `proc_pagetable` -/

theorem uvmcreate_spec (h : Own s L X U) :
    wp uvmcreate (fun r t => Keeps s t (X + U) ∧
      ((r = 0 ∧ L = [] ∧ Own t [] X U ∧ 0 ∈ t.allocs) ∨
        (∃ L', L = r :: L' ∧ Tab t L' X U r (fun _ => 0) ∧ Drawn s t L L' ∧
          (∀ w, gap t.mem 2 r w = 2) ∧ (0 ∈ t.allocs → 0 ∈ s.allocs))))
      (fun _ => False) s := by
  simp only [uvmcreate, wp_bind]
  refine wp_post (kalloc_spec h) ?_
  rintro p t ⟨hm, hal, (⟨rfl, rfl, hown⟩ | ⟨L1, rfl, hown⟩)⟩
  · rw [if_pos rfl, wp_pure]
    refine ⟨.of_kalloc hm hal, Or.inl ⟨rfl, rfl, hown, ?_⟩⟩
    rw [hal]
    exact List.mem_cons_self
  · have hp : Page p := hown.page (by simp [one_self])
    have hexcl := hown.acct.excl p (by simp [one_self])
    simp only [Pi.add_apply, one_self] at hexcl
    have hout : ∀ x, x < p ∨ p + PGSIZE ≤ x → t.mem.fill p PGSIZE 0 x = t.mem x := fun x hx =>
      Bytes.fill_of_not_mem (by omega)
    have hempty : ∀ j < 512, ent (t.mem.fill p PGSIZE 0) p j = 0 := fun j hj => ent_fill hj
    have hinv : ∀ j < 512, has (ent (t.mem.fill p PGSIZE 0) p j) PTE_V = false := fun j hj => by
      rw [hempty j hj, has_zero]
    simp only [if_neg hp.ne_zero, wp_bind, wp_memset, wp_pure]
    refine ⟨⟨fun q hq => ?_, by rw [hal]; exact List.suffix_cons _ _⟩,
      Or.inr ⟨L1, rfl, ⟨?_, wf_empty hinv, ?_⟩, fun q hq => ⟨List.mem_cons_of_mem _ hq, ?_⟩,
        fun w => gap_empty hinv, fun h0 => ?_⟩⟩
    · rw [← hm]
      refine sameOn_of_write hp (h.page hq) ?_ hout
      rintro rfl
      simp only [Pi.add_apply] at hq
      omega
    · rw [nodes_empty hinv]
      exact hown.write (p := p) (by simp [one_self]) hout
    · funext w
      unfold pmap
      split_ifs
      · exact look_empty hempty
      · rfl
    · rw [← hm]
      refine sameOn_of_write hp (hown.acct.page_of_free q hq) ?_ hout
      rintro rfl
      have := hown.acct.unowned q hq
      simp [one_self] at this
    · rw [hal] at h0
      exact List.mem_of_ne_of_mem hp.ne_zero.symm h0

/-- The map of a table with a trampoline and a trapframe. -/
def bareMap (tf : ℕ) : ℕ → Pte :=
  update (update (fun _ => 0) TRV (pa2pte trampoline ||| (PTE_R ||| PTE_X) ||| PTE_V)) TFV
    (pa2pte tf ||| (PTE_R ||| PTE_W) ||| PTE_V)

theorem space_bareMap (tf : ℕ) : Space (bareMap tf) tf 0 where
  user v hv := absurd hv (Nat.not_lt_zero v)
  trapframe := update_self _ _ _
  trampoline := by
    have := TRV_eq
    rw [bareMap, update_of_ne (by omega), update_self]
  unmapped v _ h1 h2 := by rw [bareMap, update_of_ne h1, update_of_ne h2]
  inj v w hv := absurd hv (Nat.not_lt_zero v)

theorem uvmfree_zero (h : Tab s L X U a f) (hf : ∀ v, has (f v) PTE_V = false) :
    wp (uvmfree a 0) (fun _ t => Freed s t X U) (fun _ => False) s := by
  have hz : npg 0 = 0 := by decide
  refine uvmfree_spec (L := L) (f := f) ?_ (by norm_num) (fun v hv => ?_) (fun v _ => hf v)
  · rwa [hz, span_zero, add_zero]
  · rw [hz] at hv
    exact absurd hv (Nat.not_lt_zero v)

/-- Every page has been handed out at some time. -/
def Spent (t : Mach) : Prop := ∀ p, Page p → p ∈ t.allocs

theorem Own.spent (h : Own t [] X U) : Spent t := fun p hp =>
  h.acct.hist_of_owned p (h.acct.owned p hp List.not_mem_nil)

/-- `proc_pagetable`: an address space without user pages, on three free pages. -/
theorem procPagetable_spec (tf : ℕ) (h : Own s L X U) :
    wp (procPagetable tf) (fun r t => Keeps s t (X + U) ∧
      ((r = 0 ∧ 0 ∈ t.allocs ∧ L.length < 3 ∧ Spent t ∧ ∃ L', Own t L' X U) ∨
        (r ≠ 0 ∧ ∃ L', Uvm t L' X U r tf 0 (bareMap tf) ∧ Drawn s t L L' ∧ L.length = L'.length + 3 ∧
          (∀ w < 2 ^ 18, gap t.mem 2 r w = 2) ∧ (0 ∈ t.allocs → 0 ∈ s.allocs)))) (fun _ => False) s := by
  have hTR := TRV_eq
  simp only [procPagetable, wp_bind]
  refine wp_post (uvmcreate_spec h) ?_
  rintro r t₁ ⟨hk1, (⟨rfl, rfl, hown, h0⟩ | ⟨L₁, rfl, htab, hd1, hg1, hz⟩)⟩
  · rw [if_pos rfl, wp_pure]
    exact ⟨hk1, Or.inl ⟨rfl, h0, by decide, Own.spent hown, [], hown⟩⟩
  · have hr : r ≠ 0 := (h.acct.page_of_free r List.mem_cons_self).ne_zero
    rw [if_neg hr, TRAMPOLINE_eq, TRAPFRAME_eq, wp_bind]
    refine wp_post (mappages_spec _ _ htab TRV_lt has_zero) ?_
    rintro i t₂ ⟨hk2, (⟨rfl, L₂, hmap⟩ | ⟨rfl, hno⟩)⟩
    · rw [if_neg (by decide), wp_bind]
      have hfree :
          has (update (fun _ => (0 : Pte)) TRV (pa2pte trampoline ||| (PTE_R ||| PTE_X) ||| PTE_V)
            TFV) PTE_V = false := by
        rw [update_of_ne (by omega), has_zero]
      refine wp_post (mappages_spec _ _ hmap.tab TFV_lt hfree) ?_
      have htaken := hmap.taken
      rw [hg1] at htaken
      rintro j t₃ ⟨hk3, (⟨rfl, L₃, hmap'⟩ | ⟨rfl, hno⟩)⟩
      · rw [if_neg (by decide), wp_pure]
        have htaken' := hmap'.taken
        rw [hmap.gap, dist_top, Nat.min_zero] at htaken'
        refine ⟨(hk1.trans hk2).trans hk3, Or.inr ⟨hr, L₃, ⟨?_, space_bareMap tf⟩,
          (hd1.trans hmap.drawn).trans hmap'.drawn, by rw [List.length_cons]; omega, fun w hw => ?_,
          fun h0 => hz (hmap.full (hmap'.full h0))⟩⟩
        · rw [span_zero, add_zero]
          exact hmap'.tab
        · rw [hmap'.gap, hmap.gap, hg1, (dist_low hw).1, (dist_low hw).2]
          rfl
      · -- the trapframe is below the trampoline's own page-table page
        have hshort := hno.short
        rw [hmap.gap, dist_top, Nat.min_zero] at hshort
        exact absurd hshort (Nat.not_lt_zero _)
    · rw [if_pos (by decide), wp_bind]
      have hshort := hno.short
      rw [hg1] at hshort
      refine wp_post (uvmfree_zero hno.tab (fun _ => has_zero)) ?_
      rintro _ t₃ ⟨L', k1, k2, k3⟩
      rw [wp_pure]
      refine ⟨⟨(hk1.trans hk2).frame.trans k2, ?_⟩,
        Or.inl ⟨rfl, ?_, by rw [List.length_cons]; omega, ?_, L', k1⟩⟩
      · rw [k3]
        exact (hk1.trans hk2).hist
      · rw [k3]
        exact hno.failed
      · unfold Spent
        rw [k3]
        exact Own.spent hno.tab.own

theorem wp_uvmunmap_one {Q : Unit → Mach → Prop} {E : Panic → Prop} {doFree : Bool} :
    wp (uvmunmap a (v * PGSIZE) 1 doFree) Q E s ↔ wp (uvmunmapPage a doFree (v * PGSIZE)) Q E s := by
  simp [uvmunmap, uvmunmapFrom]

theorem procFreepagetable_unmap {sz : ℕ} {E : Panic → Prop} {Q : Unit → Mach → Prop}
    (h : Uvm s L X U a tf n f) (hQ : ∀ t, Tab t L X (U + span f 0 n) a (update (update f TRV 0) TFV 0) →
      Keeps s t (X + (U + span f 0 n)) → t.allocs = s.allocs → wp (uvmfree a sz) Q E t) :
    wp (procFreepagetable a sz) Q E s := by
  have hTR := TRV_eq
  have hleaf : ∀ (p : ℕ) (x : Pte), has x PTE_R = true → Leaf (pa2pte p ||| x ||| PTE_V) :=
      fun p x hx => by
    have hV : has PTE_V PTE_V = true := by decide
    refine ⟨by rw [has_or, hV, Bool.or_true], pteFlags_ne_of_has (g := PTE_R) (by decide) (by decide) ?_⟩
    rw [has_or, has_mk (by decide), hx]
    rfl
  simp only [procFreepagetable, wp_bind, TRAMPOLINE_eq, TRAPFRAME_eq, wp_uvmunmap_one]
  refine wp_post (uvmunmapPage_keep h.tab TRV_lt ?_) ?_
  · rw [h.space.trampoline]
    exact hleaf _ _ (by decide)
  rintro _ t₁ ⟨h1, hk1, ha1⟩
  refine wp_post (uvmunmapPage_keep h1 TFV_lt ?_) ?_
  · rw [update_of_ne (by omega), h.space.trapframe]
    exact hleaf _ _ (by decide)
  rintro _ t₂ ⟨h2, hk2, ha2⟩
  exact hQ t₂ h2 (hk1.trans hk2) (ha2.trans ha1)

theorem procFreepagetable_spec (sz : ℕ) (h : Uvm s L X U a tf (npg sz) f) :
    wp (procFreepagetable a sz) (fun _ t => Freed s t X U) (fun _ => False) s := by
  have hTR := TRV_eq
  have hlt := h.lt_TFV
  have hsz := h.sz_lt
  refine procFreepagetable_unmap h (fun t h2 hk ha => ?_)
  have hspan : span (update (update f TRV 0) TFV 0) 0 (npg sz) = span f 0 (npg sz) :=
    span_congr (fun i hi => by rw [update_of_ne (by omega), update_of_ne (by omega)])
  rw [← hspan] at h2
  refine wp_post (uvmfree_spec h2 hsz (fun v hv => ?_) (fun v hv => ?_)) ?_
  · rw [update_of_ne (by omega), update_of_ne (by omega)]
    exact (h.space.user v hv).leaf
  · rcases eq_or_ne v TFV with rfl | hv1
    · rw [update_self, has_zero]
    · rw [update_of_ne hv1]
      rcases eq_or_ne v TRV with rfl | hv2
      · rw [update_self, has_zero]
      · rw [update_of_ne hv2, h.space.unmapped v hv hv1 hv2, has_zero]
  · rintro _ t₃ ⟨L', k1, k2, k3⟩
    refine ⟨L', k1, Frame.trans (hk.frame.mono (fun p hp => ?_)) k2, by rw [k3, ha]⟩
    simp only [Pi.add_apply] at hp ⊢
    omega

/-- `freewalk` panics when page 0 is still mapped: the walk to it is the first it takes. -/
theorem freewalk_leaf {level : ℕ} (hw : Wf s.mem level a) (hV : has (look s.mem level a 0) PTE_V = true)
    (hR : has (look s.mem level a 0) (PTE_R ||| PTE_W ||| PTE_X) = true) :
    wp (freewalk (level + 1) a) (fun _ _ => False) (fun e => e = .freewalkLeaf) s := by
  induction level generalizing a with
  | zero =>
      have hent : pteAt s.mem (a + 8 * 0) = look s.mem 0 a 0 := rfl
      rw [freewalk, show 512 = 511 + 1 from rfl, freewalkFrom]
      simp only [wp_bind, wp_ldpte, hent, hV, hR, Bool.not_true, Bool.and_false, Bool.false_eq_true,
        if_false, if_true, wp_throw]
  | succ level ih =>
      have hidx : idx (level + 1) 0 = 0 := by simp [idx]
      have hent : pteAt s.mem (a + 8 * 0) = ent s.mem a 0 := rfl
      cases hv : has (ent s.mem a 0) PTE_V with
      | false =>
          rw [look, hidx, hv, if_neg (by simp), has_zero] at hV
          exact absurd hV (by simp)
      | true =>
          obtain ⟨h1, h2⟩ := hw 0 (by norm_num) hv
          rw [look, hidx, if_pos hv] at hV hR
          rw [freewalk, show 512 = 511 + 1 from rfl, freewalkFrom]
          simp only [wp_bind, wp_ldpte, hent, hv, h1, Bool.not_false, Bool.and_self, if_true]
          exact wp_mono (ih h2 hV hR) (fun _ _ h => h.elim) (fun _ h => h)

/-- `proc_freepagetable` panics when it is told that an address space with pages has none. -/
theorem procFreepagetable_leaf (h : Uvm s L X U a tf n f) (hn : 0 < n) :
    wp (procFreepagetable a 0) (fun _ _ => False) (fun e => e = .freewalkLeaf) s := by
  refine procFreepagetable_unmap h (fun t h2 _ _ => ?_)
  have hlook : look t.mem 2 a 0 = f 0 := by
    rw [h2.look (by decide), update_of_ne (by decide), update_of_ne (by decide)]
  have huser := h.space.user 0 hn
  have hrwx : has (f 0) (PTE_R ||| PTE_W ||| PTE_X) = true := by
    obtain ⟨i, h1, h3⟩ := has_eq_true.mp huser.read
    refine has_eq_true.mpr ⟨i, h1, ?_⟩
    simp [h3]
  simp only [uvmfree, gt_iff_lt, lt_self_iff_false, if_false]
  exact freewalk_leaf h2.wf (by rw [hlook]; exact huser.valid) (by rw [hlook]; exact hrwx)

/-! ### `uvmclear` and `uvmfirst` -/

theorem uvmclear_spec (h : Uvm s L X U a tf n f) (hv : v < n) :
    wp (uvmclear a (v * PGSIZE)) (fun _ t => Uvm t L X U a tf n (update f v (f v &&& ~~~PTE_U)) ∧
      Frame s.mem t.mem (X + (U + span f 0 n)) ∧ Drawn s t L L ∧
        t.allocs = s.allocs) (fun _ => False) s := by
  have huser := h.space.user v hv
  have hkeep : ∀ g, has PTE_U g = false → has (f v &&& ~~~PTE_U) g = has (f v) g := fun g hg =>
    has_clear_of_disjoint hg
  have he : UserPte (f v &&& ~~~PTE_U) := by
    refine ⟨?_, ?_, ?_⟩
    · rw [hkeep _ (by decide)]
      exact huser.valid
    · rw [hkeep _ (by decide)]
      exact huser.read
    · rw [hkeep _ (by decide), hkeep _ (by decide)]
      exact huser.excl
  have hs := h.slot_ne_zero hv
  obtain ⟨h1, h2, h3⟩ := h.setPte hv he (pte2pa_clear (by decide))
  simp only [uvmclear, wp_bind, wp_walk_false (h.lt_MAXVA (Nat.le_of_lt hv)), mul_div_pgsize,
    if_neg hs, wp_ldpte, h.tab.pteAt_slot (h.vpn_lt hv) hs, wp_stpte]
  exact ⟨h1, h2, fun q hq => ⟨hq, h3 q hq⟩, trivial⟩

/-- The memory of a process of one page that begins with `src`. -/
def firstImage (src : List UInt8) : Image := fun v =>
  if v < 1 then some ⟨{ r := true, w := true, x := true, u := true },
    Bytes.write (fun _ => 0) 0 src⟩ else none

/-- `uvmfirst` gives an address space without user pages its first page, on three free pages. -/
theorem uvmfirst_spec {src : List UInt8} (h : Uvm s L X U a tf 0 f) (hsrc : src.length < PGSIZE)
    (hL : 3 ≤ L.length) : wp (uvmfirst a src) (fun _ t => Keeps s t (X + U) ∧
      (∃ L' f', Uvm t L' X U a tf 1 f' ∧ (∀ v < 1, U (pte2pa (f' v)) = 0) ∧ L.length ≤ L'.length +
        3 ∧ image t.mem f' 1 = firstImage src) ∧
      (0 ∈ t.allocs → 0 ∈ s.allocs)) (fun _ => False) s := by
  have hlt := h.lt_TFV
  have hTR := TRV_eq
  have hf0 : f 0 = 0 := h.space.unmapped 0 le_rfl (by decide) (by decide)
  have hx : XPerm (PTE_W ||| PTE_X) := ⟨by decide, by decide⟩
  have hflags : PTE_W ||| PTE_R ||| PTE_X ||| PTE_U = PTE_R ||| PTE_U ||| (PTE_W ||| PTE_X) := by decide
  simp only [uvmfirst, if_neg (Nat.not_le.mpr hsrc), hflags, wp_bind]
  refine wp_post (kalloc_spec h.tab.own) ?_
  rintro p t ⟨hm, hal, (⟨rfl, rfl, hown⟩ | ⟨L₁, rfl, hown⟩)⟩
  · exact absurd hL (by decide)
  have hp : Page p := hown.page (by simp [one_self])
  have hfresh := hown.acct.excl p (by simp [one_self])
  simp only [Pi.add_apply, one_self] at hfresh
  have hne : ∀ q, 0 < X q + nodes s.mem 2 a q + (U q + span f 0 0 q) → q ≠ p := by
    rintro q hq rfl
    omega
  have hout : ∀ x, x < p ∨ p + PGSIZE ≤ x → t.mem.fill p PGSIZE 0 x = t.mem x := fun x hx =>
    Bytes.fill_of_not_mem (by omega)
  have hsame : ∀ q, 0 < X q + nodes s.mem 2 a q + (U q + span f 0 0 q) →
      SameOn s.mem (t.mem.fill p PGSIZE 0) q :=
    fun q hq => by
      rw [← hm]
      exact sameOn_of_write hp (h.tab.own.page (by simpa using hq)) (hne q hq) hout
  have htab : Tab { t with mem := t.mem.fill p PGSIZE 0 } L₁ (X + one p) (U + span f 0 0) a f := by
    refine h.tab.congr ?_ (fun q hq => hsame q (by omega))
    rw [add_right_comm]
    exact hown.write (p := p) (by simp [one_self]) hout
  simp only [if_neg hp.ne_zero, wp_bind, wp_memset]
  have hspec := mappages_spec p (PTE_R ||| PTE_U ||| (PTE_W ||| PTE_X)) htab (h.lt_MAXVA le_rfl)
    (by rw [hf0, has_zero])
  rw [Nat.zero_mul] at hspec
  refine wp_post hspec ?_
  rintro r t' ⟨hkeep, (⟨rfl, L₂, hmap⟩ | ⟨rfl, hno⟩)⟩
  · have hpa : pte2pa (pa2pte p ||| (PTE_R ||| PTE_U ||| (PTE_W ||| PTE_X)) ||| PTE_V) = p :=
      pte2pa_map hp hx.small
    have hgrow := Uvm.grow hmap.tab h.space hlt (hx.userPte p) hpa
    have honly : ∀ v < 1, U (pte2pa (update f 0
        (pa2pte p ||| (PTE_R ||| PTE_U ||| (PTE_W ||| PTE_X)) ||| PTE_V) v)) = 0 := fun v hv => by
      obtain rfl : v = 0 := by omega
      rw [update_self, hpa]
      omega
    have huser : User t' L₂ X U a tf 1 _ := ⟨hgrow, fun v hv _ => honly v hv⟩
    have hall : ∀ g, Vm.Small g → has (PTE_R ||| PTE_U ||| (PTE_W ||| PTE_X)) g = true →
        has (pa2pte p ||| (PTE_R ||| PTE_U ||| (PTE_W ||| PTE_X)) ||| PTE_V) g = true :=
        fun g hg hx => by
      rw [has_or, has_mk hg, hx, Bool.true_or]
    have hW := hall PTE_W (by decide) (by decide)
    have hperm : perm (pa2pte p ||| (PTE_R ||| PTE_U ||| (PTE_W ||| PTE_X)) ||| PTE_V) =
        ⟨true, true, true, true⟩ := by
      unfold perm
      rw [hall PTE_R (by decide) (by decide), hW, hall PTE_X (by decide) (by decide),
        hall PTE_U (by decide) (by decide), Bool.true_or]
    obtain ⟨g1, g2, -, g3⟩ := huser.put (v := 0) Nat.one_pos (by rw [update_self]; exact hW) 0 src
      (by rw [Nat.zero_add]; exact Nat.le_of_lt hsrc)
    rw [update_self, hpa, Nat.add_zero] at g1 g2 g3
    have hzero : pageBytes t'.mem p = fun _ => 0 := by
      rw [pageBytes_same (hkeep.frame p (by simp [one_self]))]
      funext off
      unfold pageBytes
      split_ifs with hoff
      · exact Bytes.fill_of_mem (by omega) (by omega)
      · rfl
    have himage :
        (image t'.mem (update f 0 (pa2pte p ||| (PTE_R ||| PTE_U ||| (PTE_W ||| PTE_X)) ||| PTE_V))
          1).put 0 0 src = firstImage src := by
      funext v
      unfold Image.put firstImage
      rcases Nat.eq_zero_or_pos v with rfl | hv
      · rw [update_self, image_of_lt Nat.one_pos, update_self, hpa, hzero, if_pos Nat.one_pos, hperm]
        rfl
      · rw [update_of_ne hv.ne', image_of_ge hv, if_neg (by omega)]
    simp only [wp_memput]
    have htaken := hmap.taken
    have hgap : gap (t.mem.fill p PGSIZE 0) 2 a 0 ≤ 2 := gap_le
    dsimp only at htaken
    refine ⟨⟨fun q hq y y1 y2 => ?_, ?_⟩, ⟨L₂, _, g1.uvm, honly, by rw [List.length_cons]; omega,
      g3.trans himage⟩, fun h0 => ?_⟩
    · simp only [Pi.add_apply] at hq
      exact ((g2 q hq y y1 y2).trans (hkeep.frame q (by simp only [Pi.add_apply]; omega) y y1 y2)).trans
        (hsame q (by omega) y y1 y2)
    · refine List.IsSuffix.trans ?_ hkeep.hist
      rw [hal]
      exact List.suffix_cons _ _
    · have h1 := hmap.full h0
      rw [hal] at h1
      exact List.mem_of_ne_of_mem hp.ne_zero.symm h1
  · have hshort := hno.short
    have hgap : gap (t.mem.fill p PGSIZE 0) 2 a 0 ≤ 2 := gap_le
    rw [List.length_cons] at hL
    exact absurd (lt_of_lt_of_le hshort hgap) (by omega)

/-! ### User loads and stores -/

theorem wp_translate {Q : Option ℕ → Mach → Prop} {E : Panic → Prop} {g : Pte}
    (h : Uvm s L X U a tf n f) : wp (translate a va g) Q E s ↔
      Q (if has (f (va / PGSIZE)) PTE_U && has (f (va / PGSIZE)) g then some
        (pte2pa (f (va / PGSIZE)) + va % PGSIZE)
        else none) s := by
  unfold translate
  rcases Nat.lt_or_ge va MAXVA with hlt | hge
  · have hvn : va / PGSIZE < NVPN := by
      unfold NVPN PGSIZE
      unfold MAXVA at hlt
      omega
    simp only [if_neg (Nat.not_le.mpr hlt), wp_bind, wp_walk_false hlt]
    rcases eq_or_ne (slot s.mem 2 a (va / PGSIZE)) 0 with hs | hs
    · have hU : has (f (va / PGSIZE)) PTE_U = false := by
        by_contra hU
        exact h.slot_ne_zero (h.space.lt_of_user (by simpa using hU)) hs
      simp [hs, hU]
    · simp only [if_neg hs, wp_bind, wp_ldpte, h.tab.pteAt_slot hvn hs]
      cases hU : has (f (va / PGSIZE)) PTE_U with
      | false => simp
      | true =>
          simp only [(h.space.user _ (h.space.lt_of_user hU)).valid, Bool.true_and]
          split_ifs <;> rw [wp_pure]
  · simp [if_pos hge, h.not_user hge]

theorem wp_loadByte {Q : Option UInt8 → Mach → Prop} {E : Panic → Prop} (h : Uvm s L X U a tf n f) :
    wp (loadByte a va) Q E s ↔ Q ((image s.mem f n).load va) s := by
  have hoff : va % PGSIZE < PGSIZE := Nat.mod_lt _ (by decide)
  simp only [loadByte, wp_bind, wp_translate h]
  unfold Image.load
  rcases Nat.lt_or_ge (va / PGSIZE) n with hv | hv
  · rw [image_of_lt hv]
    simp only [perm, pageBytes_of_lt hoff]
    split_ifs <;> simp
  · rw [image_of_ge hv]
    simp [h.space.not_user hv]

theorem wp_storeByte {Q : Bool → Mach → Prop} {E : Panic → Prop} {b : UInt8}
    (h : Uvm s L X U a tf n f) : wp (storeByte a va b) Q E s ↔
      if has (f (va / PGSIZE)) PTE_U && has (f (va / PGSIZE)) PTE_W then
        Q true { s with mem := s.mem.write (pte2pa (f (va / PGSIZE)) + va % PGSIZE) [b] }
      else Q false s := by
  simp only [storeByte, wp_bind, wp_translate h]
  split_ifs <;> simp

theorem storeFault_spec (va : ℕ) (b : UInt8) (h : User s L X U a tf n f) :
    wp (storeFault a va b) (fun ok t => ∃ L' f',
      Written s t L L' X U a tf n f f' (((image s.mem f n).store va b).getD (image s.mem f n)) ∧
      (0 ∉ t.allocs → ok = ((image s.mem f n).store va b).isSome) ∧
        (L ≠ [] → 0 ∈ t.allocs → 0 ∈ s.allocs))
      (fun _ => False) s := by
  have hoff : va % PGSIZE + [b].length ≤ PGSIZE := Nat.mod_lt va (by decide)
  have hwr := image_writable h.uvm.space s.mem va
  simp only [storeFault, wp_bind, wp_storeByte h.uvm]
  unfold Image.store
  rw [hwr]
  cases hUW : (has (f (va / PGSIZE)) PTE_U && has (f (va / PGSIZE)) PTE_W) with
  | true =>
      obtain ⟨hU, hW⟩ := Bool.and_eq_true_iff.mp hUW
      obtain ⟨g1, g2, g3, g4⟩ := h.put (h.uvm.space.lt_of_user hU) hW (va % PGSIZE) [b] hoff
      simp only [if_true, wp_pure, hU, hW, Bool.true_or, Bool.true_and]
      exact ⟨L, f, ⟨g1, Touched.of_frame g2, fun _ => ⟨rfl, g3⟩, fun _ => g4⟩, fun _ => rfl, fun _ => id⟩
  | false =>
      simp only [Bool.false_eq_true, if_false, wp_bind]
      refine wp_post (handleCowFault_exact h.uvm va) ?_
      rintro r t (⟨rfl, rfl, hno⟩ | ⟨rfl, hc, -, hL, hm, hal, hu⟩ | ⟨rfl, hv, hc, e, -, hres, -, -⟩)
      · have hwf : (has (f (va / PGSIZE)) PTE_U &&
            (has (f (va / PGSIZE)) PTE_W || has (f (va / PGSIZE)) PTE_COW)) = false := by
          cases hU : has (f (va / PGSIZE)) PTE_U with
          | false => rfl
          | true =>
              have hC : has (f (va / PGSIZE)) PTE_COW = false := by
                by_contra hC
                exact hno ⟨hU, by simpa using hC⟩
              rw [hU, Bool.true_and] at hUW
              rw [hUW, hC]
              rfl
        rw [if_pos (by decide), wp_pure, hwf]
        exact ⟨L, f, ⟨h, Touched.refl _ _ _ _ _, fun _ => ⟨rfl, Drawn.refl _ _⟩, fun _ => rfl⟩,
          fun _ => rfl, fun _ => id⟩
      · have h0 : 0 ∈ t.allocs := by
          rw [hal]
          exact List.mem_cons_self
        rw [if_pos (by decide), wp_pure]
        exact ⟨[], f, ⟨⟨hu, h.excl⟩, Touched.of_keeps (.of_kalloc hm hal),
          fun _ => ⟨rfl, fun _ hq => absurd hq List.not_mem_nil⟩, fun hn => absurd h0 hn⟩,
          fun hn => absurd h0 hn, fun hne => absurd hL hne⟩
      · obtain ⟨L', hu⟩ := hres.user h
        have hU : has e PTE_U = true := by
          have := congrArg Perm.u hres.entry.perm
          exact this.trans hc.1
        obtain ⟨g1, g2, g3, g4⟩ := hu.put hv (by rw [update_self]; exact hres.entry.write)
          (va % PGSIZE) [b] hoff
        rw [update_self] at g1 g2 g3 g4
        rw [if_neg (by decide), wp_bind, wp_storeByte hu.uvm, update_self, hU, hres.entry.write]
        simp only [Bool.and_self, if_true, wp_pure, hc.1, hc.2, Bool.or_true]
        refine ⟨L', _, ⟨g1, hres.touched.trans (Touched.of_frame g2), fun hno => ?_, fun _ => ?_⟩,
          fun _ => rfl, fun _ => hres.full⟩
        · exact absurd (hno _ hv) (by rw [hc.2]; simp)
        · rw [hres.image_eq hv] at g4
          exact g4

end tables

end Xv6Cow.Kernel

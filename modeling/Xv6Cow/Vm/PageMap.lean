import Xv6Cow.Kernel.Runs

/-! # Page tables are finite maps

The functions of `vm.c` on one page table, in terms of the map that it holds: `walk` finds the entry
of a page, `mappages` and `uvmunmap` change the map on their range and nowhere else, `freewalk` gives
the pages of the table back, and `uvmalloc` adds all pages of its range or none. -/

namespace Xv6Cow.Vm

/-- The map `f` with `n` pages from `v` on mapped to the pages from `pa` on. -/
def extend (f : ℕ → Pte) (v n pa : ℕ) (perm : Pte) : ℕ → Pte := fun w =>
  if v ≤ w ∧ w < v + n then pa2pte (pa + (w - v) * PGSIZE) ||| perm ||| PTE_V else f w

theorem extend_zero (f : ℕ → Pte) (v pa : ℕ) (perm : Pte) : extend f v 0 pa perm = f :=
  funext fun w => if_neg (by omega)

theorem extend_succ (f : ℕ → Pte) (v n pa : ℕ) (perm : Pte) : extend f v (n + 1) pa perm =
    extend (Function.update f v (pa2pte pa ||| perm ||| PTE_V)) (v + 1) n (pa + PGSIZE) perm := by
  funext w
  unfold extend
  rcases Nat.lt_trichotomy w v with hw | rfl | hw
  · rw [if_neg (by omega), if_neg (by omega), Function.update_of_ne (by omega)]
  · rw [if_pos (by omega), if_neg (by omega), Function.update_self, Nat.sub_self, Nat.zero_mul,
      Nat.add_zero]
  · rw [Function.update_of_ne (by omega)]
    by_cases hr : w < v + (n + 1)
    · rw [if_pos (by omega), if_pos (by omega), show (w - v) = (w - (v + 1)) + 1 by omega,
        Nat.succ_mul, Nat.add_assoc, Nat.add_comm PGSIZE]
    · rw [if_neg (by omega), if_neg (by omega)]

section slots
variable [Layout] {m : Bytes} {level a v w : ℕ}

theorem slot_eq_zero_iff (h : Tree m level a) : slot m level a v = 0 ↔ gap m level a v ≠ 0 := by
  induction level generalizing a with
  | zero =>
      have ha := (h.page a (nodes_self _ _)).ne_zero
      simp only [slot, gap]
      omega
  | succ level ih =>
      simp only [slot, gap]
      split_ifs with hv
      · exact ih (h.child (idx_lt _ _) hv)
      · simp

theorem slot_injective (h : Tree m 2 a) (hv : v < NVPN) (hw : w < NVPN) (hs : slot m 2 a v ≠ 0)
    (he : slot m 2 a v = slot m 2 a w) : v = w := by
  -- a store through the entry of one page is seen at the other
  by_contra hne
  have hsame : ¬ Same 2 w v := fun hsame => hne ((same_two hw hv).mp hsame).symm
  obtain ⟨-, -, hslot, -, -, hother⟩ := setPte_slot (e := ~~~ look m 2 a w) h hs
  have hw' := hother w hsame
  rw [look_of_slot (by rw [hslot, ← he]; exact hs), hslot, ← he, pteAt_setPte] at hw'
  exact absurd hw' (by bv_omega)

end slots

theorem wp_mappagesFrom_succ {Q : ℤ → Mach → Prop} {E : Panic → Prop} {s : Mach} {perm : Pte}
    {a n va pa : ℕ} (hva : va % PGSIZE = 0) : wp (mappagesFrom a perm (n + 1) va pa) Q E s ↔
      wp (mappages a va PGSIZE pa perm)
        (fun r t => if r = 0 then wp (mappagesFrom a perm n (va + PGSIZE) (pa + PGSIZE)) Q E t
          else Q (-1) t) E s := by
  have hone : PGSIZE / PGSIZE = 0 + 1 := by decide
  simp only [mappages, hva, ne_eq, not_true_eq_false, if_false, Nat.mod_self,
    if_neg (by decide : ¬ PGSIZE = 0), hone, mappagesFrom, wp_bind]
  apply wp_iff
  intro pte t
  by_cases hp : pte = 0
  · rw [if_pos hp, if_pos hp, wp_pure, wp_pure, if_neg (by decide)]
  · rw [if_neg hp, if_neg hp, wp_bind, wp_bind, wp_ldpte, wp_ldpte]
    split_ifs
    · rw [wp_throw, wp_throw]
    · simp

theorem page_lt_MAXVA {v n : ℕ} (h : v + (n + 1) ≤ MAXVA / PGSIZE) : v * PGSIZE < MAXVA := by
  unfold MAXVA PGSIZE at *
  omega

section ranges
variable [Layout] {s : Mach} {L : List ℕ} {X U : ℕ → ℕ} {a v n : ℕ} {f : ℕ → Pte}

/-- `mappages` maps the range, or runs out of memory after a prefix of it. -/
theorem mappagesFrom_spec {perm : Pte} {pa : ℕ} (h : Tab s L X U a f) (hlt : v + n ≤ MAXVA / PGSIZE)
    (hf : ∀ w, v ≤ w → w < v + n → has (f w) PTE_V = false) :
    wp (mappagesFrom a perm n (v * PGSIZE) pa) (fun r t => Keeps s t (X + U) ∧
      ∃ L' k, Tab t L' X U a (extend f v k pa perm) ∧ (r = 0 ∧ k = n ∨ r = -1 ∧ k < n ∧ L' = []))
        (fun _ => False) s := by
  induction n generalizing s L f v pa with
  | zero =>
      rw [mappagesFrom, wp_pure]
      exact ⟨Keeps.refl _ _, L, 0, by rwa [extend_zero], Or.inl ⟨rfl, rfl⟩⟩
  | succ n ih =>
      have hva := page_lt_MAXVA hlt
      rw [wp_mappagesFrom_succ (Nat.mul_mod_left _ _)]
      apply wp_post (mappages_spec pa perm h hva (hf v (le_refl v) (by omega)))
      rintro r t ⟨hkeeps, ⟨rfl, L', hmap⟩ | ⟨rfl, hno⟩⟩
      · rw [if_pos rfl, ← Nat.succ_mul]
        apply wp_post (ih hmap.tab (by omega) _)
        · rintro r t' ⟨hkeeps', L'', k, htab, hr⟩
          refine ⟨hkeeps.trans hkeeps', L'', k + 1, by rwa [extend_succ], ?_⟩
          cases hr with
          | inl hr => exact Or.inl ⟨hr.1, by omega⟩
          | inr hr => exact Or.inr ⟨hr.1, by omega, hr.2.2⟩
        · intro w h1 h2
          rw [Function.update_of_ne (by omega)]
          exact hf w (by omega) (by omega)
      · rw [if_neg (by decide)]
        exact ⟨hkeeps, [], 0, by rw [extend_zero]; exact hno.tab, Or.inr ⟨rfl, by omega, rfl⟩⟩

theorem uvmunmapFrom_keep (h : Tab s L X U a f) (hlt : v + n ≤ MAXVA / PGSIZE)
    (hf : ∀ i < n, Leaf (f (v + i))) :
      wp (uvmunmapFrom a false n (v * PGSIZE)) (fun _ t => Tab t L X U a (clear f v n) ∧
        Keeps s t (X + U)) (fun _ => False) s := by
  induction n generalizing s v f with
  | zero =>
      rw [uvmunmapFrom, wp_pure]
      have hc : clear f v 0 = f := funext fun w => if_neg (by omega)
      exact ⟨by rwa [hc], Keeps.refl _ _⟩
  | succ n ih =>
      have hva := page_lt_MAXVA hlt
      rw [uvmunmapFrom, wp_bind]
      apply wp_post (uvmunmapPage_keep h hva (hf 0 (by omega)))
      rintro _ t ⟨htab, hkeeps, -⟩
      rw [← Nat.succ_mul, clear_succ]
      apply wp_post (ih htab (by omega) _)
      · rintro _ t' ⟨htab', hkeeps'⟩
        exact ⟨htab', hkeeps.trans hkeeps'⟩
      · intro i hi
        rw [Function.update_of_ne (by omega), show v + 1 + i = v + (i + 1) by omega]
        exact hf (i + 1) (by omega)

/-- A tree without mappings is given back page by page: each of its pages is on the free list
once. -/
theorem Freed.list {t : Mach} (h : Tab s L X U a f) (hfreed : Freed s t X U) :
    ∃ L', Own t L' X U ∧ L'.Nodup ∧ ∀ p, p ∈ L' ↔ p ∈ L ∨ 0 < nodes s.mem 2 a p := by
  obtain ⟨L', hown, -, -⟩ := hfreed
  refine ⟨L', hown, hown.acct.nodup, fun p => ?_⟩
  have hbefore := h.own.acct.unowned p
  have hbefore' := h.own.acct.owned p
  have hpage := h.own.acct.page_of_free p
  have hnode := h.own.acct.page_of_owned p
  have hafter := hown.acct.unowned p
  have hafter' := hown.acct.owned p
  have hpage' := hown.acct.page_of_free p
  have hexcl := h.own.acct.excl p
  simp only [Pi.add_apply] at *
  constructor
  · intro hp
    have h0 := hafter hp
    by_contra hno
    rw [not_or] at hno
    have hlt := hbefore' (hpage' hp) hno.1
    omega
  · rintro (hp | hp)
    · have h0 := hbefore hp
      by_contra hno
      have hlt := hafter' (hpage hp) hno
      omega
    · by_contra hno
      have hlt := hafter' (hnode (by omega)) hno
      have hone := hexcl (by omega)
      omega

/-- **Page tables are finite maps.**  For every well-formed table at `a` that holds the map `f`,
where `X` and `U` are the other owners of pages and `L` is the free list:

* `walk` without `alloc` returns the address of the entry, which holds `f` at the page, or 0 where a
  level is missing, and there the page is unmapped;
* `walk` with `alloc` leaves the map and the other owners as they are, so what it allocated is in
  the table; it returns the address of the entry, or 0 when the free list is empty;
* `mappages` on an unmapped range returns 0 and maps the range, or -1 and has mapped a prefix of it;
* `uvmunmap` on a mapped range clears the range, with `do_free` or without;
* distinct pages have distinct entries;
* `freewalk` of a table without mappings puts each of its pages on the free list once. -/
theorem page_table_map (h : Tab s L X U a f) :
    (∀ va < MAXVA, walk a va false s = .ok (slot s.mem 2 a (va / PGSIZE), s) ∧
      (slot s.mem 2 a (va / PGSIZE) = 0 ↔ gap s.mem 2 a (va / PGSIZE) ≠ 0) ∧
      (slot s.mem 2 a (va / PGSIZE) ≠ 0 → pteAt s.mem (slot s.mem 2 a (va / PGSIZE)) = f (va / PGSIZE)) ∧
      (slot s.mem 2 a (va / PGSIZE) = 0 → f (va / PGSIZE) = 0)) ∧
    (∀ va < MAXVA, wp (walk a va true) (fun r t => Frame s.mem t.mem (X + U) ∧ ∃ L', Tab t L' X U a f ∧
      (r ≠ 0 → r = slot t.mem 2 a (va / PGSIZE)) ∧ (r = 0 → L' = [])) (fun _ => False) s) ∧
    (∀ (v n pa : ℕ) (perm : Pte), 0 < n → v + n ≤ MAXVA / PGSIZE →
      (∀ w, v ≤ w → w < v + n → has (f w) PTE_V = false) →
        wp (mappages a (v * PGSIZE) (n * PGSIZE) pa perm) (fun r t => Keeps s t (X + U) ∧ ∃ L' k,
          Tab t L' X U a (extend f v k pa perm) ∧ (r = 0 ∧ k = n ∨ r = -1 ∧ k < n ∧ L' = []))
            (fun _ => False) s) ∧
    (∀ v n, v + n ≤ MAXVA / PGSIZE → (∀ i < n, Leaf (f (v + i))) →
      wp (uvmunmap a (v * PGSIZE) n false) (fun _ t => Tab t L X U a (clear f v n)) (fun _ => False) s ∧
      ∀ V, U = V + span f v n →
        wp (uvmunmap a (v * PGSIZE) n true) (fun _ t => ∃ L', Tab t L' X V a (clear f v n))
          (fun _ => False) s) ∧
    (∀ v w, v < NVPN → w < NVPN → slot s.mem 2 a v ≠ 0 → slot s.mem 2 a v = slot s.mem 2 a w → v = w) ∧
    ((∀ v, has (f v) PTE_V = false) → wp (freewalk 3 a) (fun _ t => ∃ L', Own t L' X U ∧ L'.Nodup ∧
      ∀ p, p ∈ L' ↔ p ∈ L ∨ 0 < nodes s.mem 2 a p) (fun _ => False) s) := by
  have hvpn : ∀ {va}, va < MAXVA → va / PGSIZE < NVPN := by
    intro va hva
    unfold MAXVA at hva
    unfold PGSIZE NVPN
    omega
  refine ⟨fun va hva => ⟨?_, slot_eq_zero_iff h.own.tree, h.pteAt_slot (hvpn hva), fun h0 => ?_⟩,
    fun va hva => ?_, fun v n pa perm hn hlt hf => ?_, fun v n hlt hf => ⟨?_, ?_⟩,
    fun v w => slot_injective h.own.tree, fun hf => ?_⟩
  · rw [walk, if_neg (Nat.not_le.mpr hva), walkFrom_false]
  · rw [← h.look (hvpn hva)]
    exact slot_eq_zero h.own.tree h0
  · rw [walk, if_neg (Nat.not_le.mpr hva)]
    apply wp_post (walkFrom_spec va h.own h.wf)
    rintro r t ⟨L', hw⟩
    exact ⟨hw.frame, L', hw.tab h, fun hr => (hw.found hr).1, fun hr => (hw.lost hr).1⟩
  · have hsize : ¬ n * PGSIZE = 0 := Nat.ne_of_gt (Nat.mul_pos hn (by decide))
    simp only [mappages, Nat.mul_mod_left, ne_eq, not_true_eq_false, if_false, if_neg hsize,
      mul_div_pgsize]
    exact mappagesFrom_spec h hlt hf
  · simp only [uvmunmap, Nat.mul_mod_left, ne_eq, not_true_eq_false, if_false]
    exact wp_post (uvmunmapFrom_keep h hlt hf) fun _ t ht => ht.1
  · rintro V rfl
    simp only [uvmunmap, Nat.mul_mod_left, ne_eq, not_true_eq_false, if_false]
    exact wp_post (uvmunmapFrom_free h hlt hf) fun _ t ht => ht.imp fun _ h => h.1
  · exact wp_post (freewalk_spec h.own h.wf (h.unmapped hf)) fun _ t ht => ht.list h

end ranges

/-- The table of the first process: its page is found, the next one is mapped, and its page is
unmapped and freed. -/
theorem page_table_map_first : letI := Kernel.sampleLayout
    ∃ s L X U f, Kernel.boot 0 (Kernel.powerOn fun _ => 0) = .ok ((), s) ∧
      Tab s.mach L X (U + span f 0 1) (s.procs 0).pagetable f ∧ has (f 0) PTE_V = true ∧
      walk (s.procs 0).pagetable 0 false s.mach = .ok (slot s.mach.mem 2 (s.procs 0).pagetable 0,
        s.mach) ∧
      pteAt s.mach.mem (slot s.mach.mem 2 (s.procs 0).pagetable 0) = f 0 ∧
      wp (mappages (s.procs 0).pagetable (1 * PGSIZE) (1 * PGSIZE) KERNBASE PTE_R) (fun r t =>
        Keeps s.mach t (X + (U + span f 0 1)) ∧ ∃ L' k, Tab t L' X (U + span f 0 1) (s.procs 0).pagetable
          (extend f 1 k KERNBASE PTE_R) ∧ (r = 0 ∧ k = 1 ∨ r = -1 ∧ k < 1 ∧ L' = []))
          (fun _ => False) s.mach ∧
      wp (uvmunmap (s.procs 0).pagetable (0 * PGSIZE) 1 true) (fun _ t =>
        ∃ L', Tab t L' X U (s.procs 0).pagetable (clear f 0 1)) (fun _ => False) s.mach := by
  let := Kernel.sampleLayout
  have hram := Kernel.sampleLayout_ramPages
  obtain ⟨_, s, hboot, L, hb, -⟩ := wp_returns (Kernel.boot_spec (fun _ => 0) (n := 0) (by omega))
  have hu := (hb.sys.focus (i := 0) (by rw [hb.init.1]; simp)).uvm
  rw [show npg (s.procs 0).sz = 1 by rw [hb.init.2]; decide] at hu
  have huser := hu.space.user 0 Nat.one_pos
  obtain ⟨hwalk, -, hmap, hunmap, -⟩ := page_table_map hu.tab
  obtain ⟨hfound, -, hpte, hzero⟩ := hwalk 0 (by decide)
  have hslot : slot s.mach.mem 2 (s.procs 0).pagetable 0 ≠ 0 := fun h0 => by
    have := huser.valid
    rw [show pmap s.mach.mem (s.procs 0).pagetable 0 = 0 from hzero h0, has_zero] at this
    exact absurd this (by decide)
  have hfree : ∀ w, 1 ≤ w → w < 1 + 1 → has (pmap s.mach.mem (s.procs 0).pagetable w) PTE_V = false := by
    intro w h1 h2
    obtain rfl : w = 1 := by omega
    rw [hu.space.unmapped 1 le_rfl (by decide) (by decide), has_zero]
  have hleaf : ∀ i < 1, Leaf (pmap s.mach.mem (s.procs 0).pagetable (0 + i)) := by
    intro i hi
    obtain rfl : i = 0 := by omega
    exact huser.leaf
  exact ⟨s, L, _, _, _, hboot, hu.tab, huser.valid, hfound, hpte hslot,
    hmap 1 1 KERNBASE PTE_R Nat.one_pos (by decide) hfree, (hunmap 0 1 (by decide) hleaf).2 _ rfl⟩

section growth
variable [Layout] {s t : Mach} {L L' : List ℕ} {X U : ℕ → ℕ} {a tf n : ℕ} {f : ℕ → Pte}

/-- A growth of the table at `a` that failed: the map is what it was, only pages that are now in the
table have left the free list, and the pages that were in use have the counts they had. -/
structure Undone (s t : Mach) (L : List ℕ) (a : ℕ) : Prop where
  map : pmap t.mem a = pmap s.mem a
  list : ∃ L', Chain t.mem t.freelist L' ∧ L' ⊆ L ∧ ∀ p ∈ L, p ∉ L' → 0 < nodes t.mem 2 a p
  count : ∀ p, Page p → p ∉ L → t.refcnt (p / PGSIZE) = s.refcnt (p / PGSIZE)

/-- A growth of the table at `a` from `k` to `n` pages: each is a page of its own that was free. -/
structure Added (s t : Mach) (L : List ℕ) (a k n : ℕ) (perm : Pte) : Prop where
  old : ∀ v, v < k ∨ n ≤ v → pmap t.mem a v = pmap s.mem a v
  new : ∀ v, k ≤ v → v < n → pmap t.mem a v = pa2pte (pte2pa (pmap t.mem a v)) ||| perm ||| PTE_V ∧
    pte2pa (pmap t.mem a v) ∈ L ∧ t.refcnt (pte2pa (pmap t.mem a v) / PGSIZE) = 1
  inj : ∀ v w, v < n → w < n → pte2pa (pmap t.mem a v) = pte2pa (pmap t.mem a w) → v = w

theorem Uvm.undone (h : Uvm s L X U a tf n f) (h' : Uvm t L' X U a tf n f) (hsub : L' ⊆ L) :
    Undone s t L a := by
  refine ⟨h'.tab.map.trans h.tab.map.symm, ⟨L', h'.tab.own.chain, hsub, fun p hp hn => ?_⟩,
    fun p hp hn => ?_⟩
  · have hfree := h.tab.own.acct.unowned p hp
    have hused := h'.tab.own.acct.owned p (h.tab.own.acct.page_of_free p hp) hn
    simp only [Pi.add_apply] at hfree hused
    omega
  · have hn' : p ∉ L' := fun hm => hn (hsub hm)
    have hused := h.tab.own.acct.owned p hp hn
    have hused' := h'.tab.own.acct.owned p hp hn'
    have hexcl := h.tab.own.acct.excl p
    have hexcl' := h'.tab.own.acct.excl p
    rw [h.tab.own.acct.cnt_owned p hp hn, h'.tab.own.acct.cnt_owned p hp hn']
    simp only [Pi.add_apply] at *
    omega

/-- **`uvmalloc` grows the address space or undoes what it did.** -/
theorem uvmalloc_all_or_nothing (oldsz newsz : ℕ) {x : Pte} (hx : XPerm x)
    (h : Uvm s L X U a tf (npg oldsz) f) (hle : oldsz ≤ newsz) :
    wp (uvmalloc a oldsz newsz x) (fun r t =>
      (r = newsz ∧ Added s t L a (npg oldsz) (npg newsz) (PTE_R ||| PTE_U ||| x)) ∨
        (r = 0 ∧ 0 < newsz ∧ Undone s t L a)) (fun _ => False) s := by
  refine wp_post (uvmalloc_spec oldsz newsz hx h) ?_
  rintro r t ⟨-, (⟨hlt, -⟩ | ⟨-, rfl, L', f', hu, hg, -⟩ | ⟨-, rfl, ⟨L', hu, hsub⟩, -, -, hlen⟩)⟩
  · omega
  · have hn := Nat.add_sub_cancel' (npg_mono hle)
    refine .inl ⟨rfl, ?_⟩
    obtain rfl := hu.tab.map
    obtain rfl := h.tab.map
    refine ⟨fun v hv => hg.old v (by omega), fun v h1 h2 => ?_, hu.space.inj⟩
    obtain ⟨hpte, hfree, -⟩ := hg.new v h1 (by omega)
    have h0 := h.tab.own.acct.unowned _ hfree
    have hspan := hu.space.span_eq_one h2
    have hcount := hu.tab.own.acct.cnt_eq (p := pte2pa (pmap t.mem a v)) (by
      simp only [Pi.add_apply]
      omega)
    have hexcl := hu.tab.own.acct.shared_not_excl (p := pte2pa (pmap t.mem a v)) (by
      simp only [Pi.add_apply]
      omega)
    simp only [Pi.add_apply] at h0 hcount hexcl
    exact ⟨hpte, hfree, by omega⟩
  · refine .inr ⟨rfl, ?_, h.undone hu hsub⟩
    by_contra h0
    obtain rfl : newsz = 0 := by omega
    obtain rfl : oldsz = 0 := by omega
    omega

end growth

/-- The first process grows by a page, and not by more pages than there are. -/
theorem uvmalloc_all_or_nothing_first : letI := Kernel.sampleLayout
    ∃ s L, Kernel.boot 0 (Kernel.powerOn fun _ => 0) = .ok ((), s) ∧
      Chain s.mach.mem s.mach.freelist L ∧
      (∃ t, uvmalloc (s.procs 0).pagetable PGSIZE (2 * PGSIZE) PTE_W s.mach = .ok (2 * PGSIZE, t) ∧
        Added s.mach t L (s.procs 0).pagetable 1 2 (PTE_R ||| PTE_U ||| PTE_W)) ∧
      ∃ t, uvmalloc (s.procs 0).pagetable PGSIZE (2 ^ 38) PTE_W s.mach = .ok (0, t) ∧
        Undone s.mach t L (s.procs 0).pagetable := by
  let := Kernel.sampleLayout
  have hram := Kernel.sampleLayout_ramPages
  obtain ⟨_, s, hboot, L, hb, hlen, -⟩ := wp_returns (Kernel.boot_spec (fun _ => 0) (n := 0) (by omega))
  have hu := (hb.sys.focus (i := 0) (by rw [hb.init.1]; simp)).uvm
  rw [hb.init.2] at hu
  have hx : XPerm PTE_W := ⟨by decide, by decide⟩
  refine ⟨s, L, hboot, hu.tab.own.chain, ?_, ?_⟩
  · obtain ⟨r, t, hok, ⟨-, hspec⟩, hres⟩ := wp_returns
      (wp_and (uvmalloc_spec _ _ hx hu) (uvmalloc_all_or_nothing _ (2 * PGSIZE) hx hu (by decide)))
    rcases hspec with ⟨hlt, -⟩ | ⟨-, rfl, -⟩ | ⟨-, -, -, -, -, hshort⟩
    · exact absurd hlt (by decide)
    · exact ⟨t, hok, (hres.resolve_right fun h => absurd h.1 (by decide)).2⟩
    · rw [show 3 * (npg (2 * PGSIZE) - npg PGSIZE) = 3 by decide] at hshort
      omega
  · obtain ⟨r, t, hok, ⟨-, hspec⟩, hres⟩ := wp_returns
      (wp_and (uvmalloc_spec _ _ hx hu) (uvmalloc_all_or_nothing _ (2 ^ 38) hx hu (by decide)))
    rcases hspec with ⟨hlt, -⟩ | ⟨-, -, _, _, hu', -⟩ | ⟨-, rfl, -⟩
    · exact absurd hlt (by decide)
    · exact absurd hu'.lt_TFV (by decide)
    · exact ⟨t, hok, (hres.resolve_left fun h => absurd h.1 (by decide)).2.2⟩

end Xv6Cow.Vm

import Xv6Cow.Vm.Table

/-! # `walk`, `mappages`, `uvmunmap` and `freewalk`

The specifications of the functions that read and change one page table, in terms of its map `look`
and of the account of the allocator.  In each of them `X` and `U` are the exclusive and shared
owners outside the table: the frame condition says that the pages they own keep their contents, and
this is all that the callers need to know about the rest of the system. -/

namespace Xv6Cow.Vm

open Finset
open Function (update update_self update_of_ne update_apply)

/-! ### Walks that do not allocate -/

section noalloc
variable {s : Mach} {Q : ℕ → Mach → Prop} {E : Panic → Prop} {level a va v : ℕ}

theorem walkFrom_false : walkFrom false level a va s = .ok (slot s.mem level a (va / PGSIZE), s) := by
  induction level generalizing a with
  | zero =>
      simp only [walkFrom, slot, px_eq]
      rfl
  | succ level ih =>
      have hbind : walkFrom false (level + 1) a va s =
          (if has (ent s.mem a (px (level + 1) va)) PTE_V
            then walkFrom false level (pte2pa (ent s.mem a (px (level + 1) va))) va else pure 0) s := rfl
      rw [hbind, px_eq]
      simp only [slot]
      split_ifs with hv
      · exact ih
      · rfl

/-- `walk(pagetable, va, 0)` returns the address of the entry. -/
theorem wp_walk_false (h : va < MAXVA) :
    wp (walk a va false) Q E s ↔ Q (slot s.mem 2 a (va / PGSIZE)) s := by
  simp [walk, if_neg (Nat.not_le.mpr h), wp_iff_of_ok walkFrom_false]

@[simp] theorem wp_ldpte {Q : Pte → Mach → Prop} : wp (ldpte a) Q E s ↔ Q (pteAt s.mem a) s := by
  simp only [ldpte, wp_bind, wp_get, wp_pure]

@[simp] theorem wp_stpte {Q : Unit → Mach → Prop} {e : Pte} :
    wp (stpte a e) Q E s ↔ Q () { s with mem := setPte s.mem a e } := by
  simp only [stpte, wp_modify]

@[simp] theorem wp_memset {Q : Unit → Mach → Prop} {c : UInt8} {n : ℕ} :
    wp (memset a c n) Q E s ↔ Q () { s with mem := s.mem.fill a n c } := by
  simp only [memset, wp_modify]

@[simp] theorem wp_memmove {Q : Unit → Mach → Prop} {b n : ℕ} :
    wp (memmove a b n) Q E s ↔ Q () { s with mem := s.mem.copyBytes a b n } := by
  simp only [memmove, wp_modify]

@[simp] theorem wp_memput {Q : Unit → Mach → Prop} {bs : List UInt8} :
    wp (memput a bs) Q E s ↔ Q () { s with mem := s.mem.write a bs } := by
  simp only [memput, wp_modify]

end noalloc

/-! ### Walks that allocate -/

/-- The memory after `walk` has linked the cleared page `c` at entry `i` of the page `a`. -/
def linked (m : Bytes) (a i c : ℕ) : Bytes := setPte (m.fill c PGSIZE 0) (a + 8 * i) (pa2pte c ||| PTE_V)

theorem ent_linked {m : Bytes} {a i c : ℕ} : ent (linked m a i c) a i = pa2pte c ||| PTE_V :=
  pteAt_setPte

theorem has_link {c : ℕ} : has (pa2pte c ||| PTE_V) PTE_V = true := by
  rw [has_mk (by decide)]
  decide

theorem has_link_rwx {c : ℕ} : has (pa2pte c ||| PTE_V) (PTE_R ||| PTE_W ||| PTE_X) = false := by
  rw [has_mk (by decide)]
  decide

section alloc
variable [Layout] {s t : Mach} {L L' : List ℕ} {X U : ℕ → ℕ} {level a v c i r : ℕ} {m : Bytes}

/-- What an allocating walk leaves: the same map in a tree that may have grown, and either the
address of the entry or, when the free list did not have a page for each missing level, 0. -/
structure Walked (s t : Mach) (L L' : List ℕ) (X U : ℕ → ℕ) (level a v r : ℕ) : Prop where
  own : Own t L' (X + nodes t.mem level a) U
  wf : Wf t.mem level a
  look : ∀ w, look t.mem level a w = look s.mem level a w
  frame : Frame s.mem t.mem (X + U)
  hist : s.allocs <:+ t.allocs
  suffix : L' <:+ L
  free : ∀ q ∈ L', SameOn s.mem t.mem q
  found : r ≠ 0 → r = slot t.mem level a v ∧ L.length = L'.length + gap s.mem level a v ∧
    (∀ w, gap t.mem level a w = min (gap s.mem level a w) (dist level w v)) ∧
      (0 ∈ t.allocs → 0 ∈ s.allocs)
  lost : r = 0 → L' = [] ∧ 0 ∈ t.allocs ∧ L.length < gap s.mem level a v

theorem linked_same {q : ℕ} (ha : Page a) (hc : Page c) (hq : Page q) (hi : i < 512) (hqa : q ≠ a)
    (hqc : q ≠ c) : SameOn m (linked m a i c) q := by
  intro x h1 h2
  have e1 := ha.facts.1
  have e2 := hc.facts.1
  have e3 := hq.facts.1
  unfold PGSIZE at h2
  rw [linked, setPte_of_not_mem (by omega), Bytes.fill_of_not_mem (by unfold PGSIZE; omega)]

theorem ent_linked_ne {j : ℕ} (ha : Page a) (hc : Page c) (hac : a ≠ c) (hj : j < 512)
    (hji : j ≠ i) : ent (linked m a i c) a j = ent m a j := by
  rw [linked, ent_setPte_ne hji]
  have e1 := ha.facts.1
  have e2 := hc.facts.1
  exact pteAt_congr (fun x h1 h2 => Bytes.fill_of_not_mem (by unfold PGSIZE; omega))

theorem ent_linked_child {j : ℕ} (ha : Page a) (hc : Page c) (hac : a ≠ c) (hi : i < 512)
    (hj : j < 512) : ent (linked m a i c) c j = 0 := by
  have e1 := ha.facts.1
  have e2 := hc.facts.1
  unfold ent linked
  rw [pteAt_setPte_ne (by omega)]
  exact ent_fill hj

theorem pte2pa_link (hc : Page c) : pte2pa (pa2pte c ||| PTE_V) = c :=
  pte2pa_mk hc.facts.1 hc.lt (by decide)

/-- Linking a fresh page below an entry that was not valid. -/
theorem linked_spec (h : Own s L (X + nodes s.mem (level + 1) a + one c) U)
    (hw : Wf s.mem (level + 1) a) (hi : i < 512) (hv : has (ent s.mem a i) PTE_V = false) :
    Own { s with mem := linked s.mem a i c } L (X + nodes (linked s.mem a i c) (level + 1) a) U ∧
    Wf (linked s.mem a i c) (level + 1) a ∧ Frame s.mem (linked s.mem a i c) (X + U) ∧
    (∀ q ∈ L, SameOn s.mem (linked s.mem a i c) q) ∧
    (∀ w, look (linked s.mem a i c) (level + 1) a w = look s.mem (level + 1) a w) ∧
    (∀ w, gap (linked s.mem a i c) (level + 1) a w =
      if idx (level + 1) w = i then level else gap s.mem (level + 1) a w) := by
  have hc : Page c := h.page (by simp [one_self])
  have hself := nodes_self (m := s.mem) (level + 1) a
  have ha : Page a := h.page (by simp only [Pi.add_apply]; omega)
  have hcx := h.acct.excl c (by simp [one_self])
  simp only [Pi.add_apply, one_self] at hcx
  have hac : a ≠ c := by
    rintro rfl
    omega
  have hext : Own s L ((X + one c) + nodes s.mem (level + 1) a) U := by
    rwa [show X + one c + nodes s.mem (level + 1) a = X + nodes s.mem (level + 1) a + one c by abel]
  have htree := hext.tree
  have hrest : rest s.mem level a i = nodes s.mem (level + 1) a := by
    rw [nodes_eq_rest hi, sub_of_not_valid hv, add_zero]
  have hside : Beside s.mem (linked s.mem a i c) level a i := by
    refine ⟨fun j hj hji => ent_linked_ne ha hc hac hj hji, fun j hj _ hvj p hp => ?_⟩
    have hsub : 0 < sub s.mem level a j p := by rwa [sub_of_valid hvj]
    have hle : sub s.mem level a j p ≤ nodes s.mem (level + 1) a p := sub_le_nodes hj
    refine linked_same ha hc (htree.page p (by omega)) hi (htree.ne_root hj hsub) ?_
    rintro rfl
    omega
  have hchild : ∀ j < 512, ent (linked s.mem a i c) c j = 0 :=
    fun j hj => ent_linked_child ha hc hac hi hj
  have hchild' : ∀ j < 512, has (ent (linked s.mem a i c) c j) PTE_V = false := fun j hj => by
    rw [hchild j hj, has_zero]
  have hnodes : nodes (linked s.mem a i c) (level + 1) a = nodes s.mem (level + 1) a + one c := by
    rw [nodes_eq_rest hi, hside.rest_eq, hrest, sub_of_valid, ent_linked, pte2pa_link hc,
      nodes_empty hchild']
    rw [ent_linked]
    exact has_link
  have hfree : ∀ q ∈ L, SameOn s.mem (linked s.mem a i c) q := by
    intro q hq
    have hun := h.acct.unowned q hq
    refine linked_same ha hc (h.acct.page_of_free q hq) hi ?_ ?_
    · rintro rfl
      simp only [Pi.add_apply] at hun
      omega
    · rintro rfl
      simp only [Pi.add_apply, one_self] at hun
      omega
  refine ⟨?_, ?_, ?_, hfree, ?_, ?_⟩
  · rw [hnodes, ← add_assoc]
    exact h.frame hfree
  · refine hside.wf hw (fun _ => ?_)
    rw [ent_linked, pte2pa_link hc]
    exact ⟨has_link_rwx, wf_empty hchild'⟩
  · intro q hq
    have hqp : Page q := h.page (by simp only [Pi.add_apply] at hq ⊢; omega)
    refine linked_same ha hc hqp hi ?_ ?_
    · rintro rfl
      have := hext.sep hself
      simp only [Pi.add_apply] at this hq
      omega
    · rintro rfl
      simp only [Pi.add_apply] at hq
      omega
  · intro w
    by_cases hwi : idx (level + 1) w = i
    · simp only [look]
      rw [hwi, ent_linked, if_pos has_link, pte2pa_link hc, look_empty hchild, hv]
      simp
    · exact hside.look_eq hwi
  · intro w
    by_cases hwi : idx (level + 1) w = i
    · rw [if_pos hwi]
      simp only [gap]
      rw [hwi, ent_linked, if_pos has_link, pte2pa_link hc, gap_empty hchild']
    · rw [if_neg hwi]
      exact hside.gap_eq hwi

/-- A walk below a valid entry is a walk of the whole tree. -/
theorem Walked.descend (hw : Wf s.mem (level + 1) a)
    (hv : has (ent s.mem a (idx (level + 1) v)) PTE_V = true)
      (h : Walked s t L L' (X + rest s.mem level a (idx (level + 1) v)) U level
        (pte2pa (ent s.mem a (idx (level + 1) v))) v r) : Walked s t L L' X U (level + 1) a v r := by
  have hi := idx_lt (level + 1) v
  have hbelow : Below s.mem t.mem level a (idx (level + 1) v) :=
    Below.of_rest (fun p hp => h.frame p (by simp only [Pi.add_apply]; omega))
  refine ⟨?_, hbelow.wf hi hw (fun _ => h.wf), fun w => ?_, h.frame.mono (fun p hp => ?_), h.hist,
    h.suffix, h.free, fun hr => ?_, fun hr => ?_⟩
  · rw [hbelow.nodes_eq hi hv, ← add_assoc]
    exact h.own
  · by_cases hiw : idx (level + 1) w = idx (level + 1) v
    · rw [hbelow.look_eq hiw hv, h.look w, ← hiw, look_child (hiw ▸ hv)]
    · exact hbelow.toBeside.look_eq hiw
  · simp only [Pi.add_apply] at hp ⊢
    omega
  · obtain ⟨h1, h2, h3, h4⟩ := h.found hr
    refine ⟨by rw [hbelow.slot_eq rfl hv, ← h1], by rw [gap_child hv, ← h2], fun w => ?_, h4⟩
    by_cases hiw : idx (level + 1) w = idx (level + 1) v
    · rw [hbelow.gap_eq hiw hv, h3 w, dist, if_pos hiw, ← hiw, gap_child (hiw ▸ hv)]
    · rw [hbelow.toBeside.gap_eq hiw, dist, if_neg hiw, Nat.min_eq_left gap_le]
  · obtain ⟨h1, h2, h3⟩ := h.lost hr
    exact ⟨h1, h2, by rw [gap_child hv]; exact h3⟩

/-- The rest of a walk after it has linked a fresh page, given that walks one level down are
right. -/
theorem wp_walkLinked {va : ℕ}
    (ih : ∀ {s : Mach} {L : List ℕ} {X : ℕ → ℕ} {a : ℕ}, Own s L (X + nodes s.mem level a) U →
      Wf s.mem level a → wp (walkFrom true level a va) (fun r t => ∃ L',
        Walked s t L L' X U level a (va / PGSIZE) r) (fun _ => False) s)
    (h : Own t L (X + nodes t.mem (level + 1) a + one c) U) (hw : Wf t.mem (level + 1) a)
    (hm : t.mem = s.mem) (hal : t.allocs = c :: s.allocs)
    (hv : has (ent t.mem a (idx (level + 1) (va / PGSIZE))) PTE_V = false) :
    wp (walkFrom true level c va)
      (fun r t' => ∃ L', Walked s t' (c :: L) L' X U (level + 1) a (va / PGSIZE) r) (fun _ => False)
      { t with mem := linked t.mem a (idx (level + 1) (va / PGSIZE)) c } := by
  have hi := idx_lt (level + 1) (va / PGSIZE)
  have hc : Page c := h.page (by simp [one_self])
  obtain ⟨h1, h2, h3, h6, h4, h5⟩ := linked_spec h hw hi hv
  have hgap : ∀ w, idx (level + 1) w = idx (level + 1) (va / PGSIZE) → gap s.mem (level + 1) a w =
      level + 1 := by
    intro w hw
    simp only [gap, ← hm, hw, hv]
    simp
  have hlink : has (ent (linked t.mem a (idx (level + 1) (va / PGSIZE)) c) a
      (idx (level + 1) (va / PGSIZE))) PTE_V = true := by rw [ent_linked]; exact has_link
  have hown := h1
  rw [nodes_eq_rest hi, sub_of_valid hlink, ← add_assoc, ent_linked, pte2pa_link hc] at hown
  have hwf := (h2 _ hi hlink).2
  rw [ent_linked, pte2pa_link hc] at hwf
  refine wp_post (ih (s := { t with mem := linked t.mem a (idx (level + 1) (va / PGSIZE)) c }) hown
    hwf) ?_
  rintro r t' ⟨L', hr⟩
  have hd : Walked { t with mem := linked t.mem a (idx (level + 1) (va / PGSIZE)) c } t' L L' X U
      (level + 1) a (va / PGSIZE) r := by
    refine Walked.descend h2 hlink ?_
    rwa [ent_linked, pte2pa_link hc]
  refine ⟨L', hd.own, hd.wf, fun w => ?_, ?_, ?_, hd.suffix.trans (List.suffix_cons _ _),
    fun q hq x g1 g2 => ?_, fun hr0 => ?_, fun hr0 => ?_⟩
  · rw [hd.look w, ← hm]
    exact h4 w
  · rw [← hm]
    exact h3.trans hd.frame
  · refine (List.suffix_cons c s.allocs).trans ?_
    rw [← hal]
    exact hd.hist
  · rw [← hm]
    exact (hd.free q hq x g1 g2).trans (h6 q (hd.suffix.subset hq) x g1 g2)
  · obtain ⟨g1, g2, g3, g4⟩ := hd.found hr0
    refine ⟨g1, ?_, fun w => ?_, fun h0 => ?_⟩
    · rw [hgap _ rfl, List.length_cons, g2, h5, if_pos rfl]
      omega
    · rw [g3 w, h5 w]
      by_cases hiw : idx (level + 1) w = idx (level + 1) (va / PGSIZE)
      · have hle : dist level w (va / PGSIZE) ≤ level := dist_le
        rw [if_pos hiw, hgap w hiw, dist, if_pos hiw]
        omega
      · rw [if_neg hiw, hm]
    · have h0 := g4 h0
      rw [hal] at h0
      exact List.mem_of_ne_of_mem hc.ne_zero.symm h0
  · obtain ⟨g1, g2, g3⟩ := hd.lost hr0
    refine ⟨g1, g2, ?_⟩
    rw [h5, if_pos rfl] at g3
    rw [hgap _ rfl, List.length_cons]
    omega

theorem walkFrom_spec (va : ℕ) (h : Own s L (X + nodes s.mem level a) U) (hw : Wf s.mem level a) :
    wp (walkFrom true level a va) (fun r t => ∃ L', Walked s t L L' X U level a (va / PGSIZE) r)
      (fun _ => False) s := by
  induction level generalizing s L X a with
  | zero =>
      simp only [walkFrom, wp_pure, px_eq]
      have ha := (h.tree.page a (nodes_self _ _)).ne_zero
      refine ⟨L, h, trivial, fun _ => rfl, Frame.refl _ _, List.suffix_refl _, List.suffix_refl _,
        fun _ _ _ _ _ => rfl, fun _ => ⟨rfl, rfl, fun w => rfl, id⟩, fun hr => ?_⟩
      omega
  | succ level ih =>
      have hi := idx_lt (level + 1) (va / PGSIZE)
      simp only [walkFrom, wp_bind, wp_ldpte, px_eq]
      change wp (if has (ent s.mem a (idx (level + 1) (va / PGSIZE))) PTE_V = true then _ else _) _ _ _
      rw [wp_ite]
      refine ⟨fun hv => ?_, fun hv => ?_⟩
      · have hown : Own s L (X + rest s.mem level a (idx (level + 1) (va / PGSIZE)) +
            nodes s.mem level (pte2pa (ent s.mem a (idx (level + 1) (va / PGSIZE))))) U := by
          rwa [add_assoc, ← sub_of_valid hv, ← nodes_eq_rest hi]
        refine wp_post (ih hown (hw _ hi hv).2) ?_
        rintro r t ⟨L', hr⟩
        exact ⟨L', hr.descend hw hv⟩
      · simp only [Bool.not_true, Bool.false_eq_true, if_false, wp_bind]
        have hgap : gap s.mem (level + 1) a (va / PGSIZE) = level + 1 := if_neg hv
        refine wp_post (kalloc_spec h) ?_
        rintro c t ⟨hm, hal, (⟨rfl, rfl, hown⟩ | ⟨L1, rfl, hown⟩)⟩
        · simp only [if_true, wp_pure]
          refine ⟨[], by rwa [hm], by rwa [hm], fun w => by rw [hm], fun _ _ _ _ _ => by rw [hm],
            ⟨[0], by rw [hal]; rfl⟩, List.suffix_refl _, fun q hq => absurd hq List.not_mem_nil,
            fun hr => absurd rfl hr, fun _ => ⟨rfl, by rw [hal]; exact List.mem_cons_self, ?_⟩⟩
          rw [hgap, List.length_nil]
          omega
        · have hc := (hown.page (p := c) (by simp [one_self])).ne_zero
          simp only [if_neg hc, wp_bind, wp_memset, wp_stpte]
          rw [← hm] at hown hw
          exact wp_walkLinked (fun h hw => ih h hw) hown hw hm hal (by rw [hm]; simpa using hv)

end alloc

/-! ### The map of a page table -/

/-- The virtual page numbers that a table of three levels tells apart. -/
def NVPN : ℕ := 2 ^ 27

/-- A page table as a map from virtual page numbers to entries; unmapped pages have entry 0. -/
def pmap (m : Bytes) (a v : ℕ) : Pte := if v < NVPN then look m 2 a v else 0

/-- The table at `a` is well formed and holds the map `f`; `X` and `U` own the other pages. -/
structure Tab [Layout] (s : Mach) (L : List ℕ) (X U : ℕ → ℕ) (a : ℕ) (f : ℕ → Pte) : Prop where
  own : Own s L (X + nodes s.mem 2 a) U
  wf : Wf s.mem 2 a
  map : pmap s.mem a = f

/-- A step that leaves the pages owned by `q` alone and only adds to the history of `kalloc`. -/
structure Keeps (s t : Mach) (q : ℕ → ℕ) : Prop where
  frame : Frame s.mem t.mem q
  hist : s.allocs <:+ t.allocs

theorem Keeps.refl (s : Mach) (q : ℕ → ℕ) : Keeps s s q := ⟨Frame.refl _ _, List.suffix_refl _⟩

theorem Keeps.trans {s t u : Mach} {q : ℕ → ℕ} (h : Keeps s t q) (h' : Keeps t u q) : Keeps s u q :=
  ⟨h.frame.trans h'.frame, h.hist.trans h'.hist⟩

theorem Keeps.mono {s t : Mach} {q q' : ℕ → ℕ} (h : Keeps s t q) (hle : ∀ p, 0 < q' p → 0 < q p) :
    Keeps s t q' :=
  ⟨h.frame.mono hle, h.hist⟩

theorem Keeps.of_kalloc {s t : Mach} {q : ℕ → ℕ} {p : ℕ} (hm : t.mem = s.mem)
    (hal : t.allocs = p :: s.allocs) : Keeps s t q :=
  ⟨by rw [hm]; exact Frame.refl _ _, by rw [hal]; exact List.suffix_cons _ _⟩

/-- The free list has only lost pages, and those still on it have not been written. -/
def Drawn (s t : Mach) (L L' : List ℕ) : Prop := ∀ q ∈ L', q ∈ L ∧ SameOn s.mem t.mem q

theorem Drawn.refl (s : Mach) (L : List ℕ) : Drawn s s L L := fun _ hq => ⟨hq, fun _ _ _ => rfl⟩

theorem Drawn.trans {s t u : Mach} {L L' L'' : List ℕ} (h : Drawn s t L L')
    (h' : Drawn t u L' L'') : Drawn s u L L'' := by
  intro q hq
  obtain ⟨h1, h2⟩ := h' q hq
  obtain ⟨h3, h4⟩ := h q h1
  exact ⟨h3, fun a ha hb => (h2 a ha hb).trans (h4 a ha hb)⟩

/-- Writing to a page that has one exclusive owner leaves the pages of all others alone. -/
theorem Own.write_excl [Layout] {s : Mach} {L : List ℕ} {X U : ℕ → ℕ} {p : ℕ} {m : Bytes}
    (h : Own s L (X + one p) U) (hm : ∀ x, x < p ∨ p + PGSIZE ≤ x → m x = s.mem x) :
    Own { s with mem := m } L (X + one p) U ∧ Frame s.mem m (X + U) ∧
      Drawn s { s with mem := m } L L := by
  have hp : Page p := h.page (by simp [one_self])
  have hexcl := h.acct.excl p (by simp [one_self])
  simp only [Pi.add_apply, one_self] at hexcl
  refine ⟨Own.write h (p := p) (by simp [one_self]) hm, fun q hq => ?_, fun q hq => ⟨hq, ?_⟩⟩
  · simp only [Pi.add_apply] at hq
    refine sameOn_of_write hp (h.page (by simp only [Pi.add_apply]; omega)) ?_ hm
    rintro rfl
    omega
  · refine sameOn_of_write hp (h.acct.page_of_free q hq) ?_ hm
    rintro rfl
    have := h.acct.unowned q hq
    simp [one_self] at this

/-- An entry that `uvmunmap` accepts. -/
def Leaf (e : Pte) : Prop := has e PTE_V = true ∧ pteFlags e ≠ PTE_V

theorem pteFlags_ne_of_has {e g : Pte} (hg : Small g) (hV : has PTE_V g = false)
    (h : has e g = true) : pteFlags e ≠ PTE_V := by
  intro he
  rw [← has_pteFlags hg, he, hV] at h
  exact absurd h (by simp)

theorem vpn_lt {v : ℕ} (h : v * PGSIZE < MAXVA) : v < NVPN := by
  unfold MAXVA PGSIZE at h
  unfold NVPN
  omega

theorem mul_div_pgsize (v : ℕ) : v * PGSIZE / PGSIZE = v := Nat.mul_div_cancel _ (by decide)

/-- The map `f` without the `n` pages from `v` on. -/
def clear (f : ℕ → Pte) (v n : ℕ) : ℕ → Pte := fun w => if v ≤ w ∧ w < v + n then 0 else f w

theorem clear_succ (f : ℕ → Pte) (v n : ℕ) : clear f v (n + 1) = clear (update f v 0) (v + 1) n := by
  funext w
  unfold clear
  by_cases hw : w = v
  · subst hw
    rw [if_pos (by omega), if_neg (by omega), update_self]
  · rw [update_of_ne hw]
    by_cases hr : v + 1 ≤ w ∧ w < v + 1 + n
    · rw [if_pos (by omega), if_pos hr]
    · rw [if_neg (by omega), if_neg hr]

/-- The counts that the `n` mappings from `v` on stand for. -/
def span (f : ℕ → Pte) (v n : ℕ) : ℕ → ℕ := ∑ i ∈ range n, one (pte2pa (f (v + i)))

theorem span_succ (f : ℕ → Pte) (v n : ℕ) : span f v (n + 1) = one (pte2pa (f v)) +
    span f (v + 1) n := by
  have hshift : ∑ i ∈ range n, one (pte2pa (f (v + (i + 1)))) = span f (v + 1) n :=
    Finset.sum_congr rfl (fun i _ => by rw [show v + (i + 1) = v + 1 + i by omega])
  unfold span at hshift ⊢
  rw [Finset.sum_range_succ', add_comm, hshift, Nat.add_zero]

theorem span_congr {f g : ℕ → Pte} {v n : ℕ}
    (h : ∀ i < n, pte2pa (g (v + i)) = pte2pa (f (v + i))) : span g v n = span f v n :=
  Finset.sum_congr rfl (fun i hi => by rw [h i (mem_range.mp hi)])

section tables
variable [Layout] {s t : Mach} {L L' : List ℕ} {X U : ℕ → ℕ} {a v va : ℕ} {f : ℕ → Pte} {e : Pte}

theorem Tab.look (h : Tab s L X U a f) (hv : v < NVPN) : look s.mem 2 a v = f v := by
  rw [← h.map, pmap, if_pos hv]

theorem Tab.pteAt_slot (h : Tab s L X U a f) (hv : v < NVPN) (hs : slot s.mem 2 a v ≠ 0) :
    pteAt s.mem (slot s.mem 2 a v) = f v := by
  rw [← look_of_slot hs, h.look hv]

theorem Tab.slot_ne_zero (h : Tab s L X U a f) (hv : v < NVPN) (hf : has (f v) PTE_V = true) :
    slot s.mem 2 a v ≠ 0 := by
  intro h0
  have := slot_eq_zero h.own.tree h0
  rw [h.look hv] at this
  rw [this, has_zero] at hf
  exact absurd hf (by simp)

theorem Tab.congr {X' U' : ℕ → ℕ} (h : Tab s L X U a f) (ho : Own t L' (X' + nodes s.mem 2 a) U')
    (hsame : ∀ p, 0 < nodes s.mem 2 a p → SameOn s.mem t.mem p) : Tab t L' X' U' a f := by
  refine ⟨by rwa [nodes_congr hsame], h.wf.congr hsame, ?_⟩
  rw [← h.map]
  funext w
  unfold pmap
  rw [look_congr hsame]

theorem Tab.setPte (h : Tab s L X U a f) (hv : v < NVPN) (hs : slot s.mem 2 a v ≠ 0) :
    Tab { s with mem := setPte s.mem (slot s.mem 2 a v) e } L X U a (update f v e) ∧
    Frame s.mem (Vm.setPte s.mem (slot s.mem 2 a v) e) (X + U) ∧
    (∀ q ∈ L, SameOn s.mem (Vm.setPte s.mem (slot s.mem 2 a v) e) q) ∧
    (∀ w, gap (Vm.setPte s.mem (slot s.mem 2 a v) e) 2 a w = gap s.mem 2 a w) := by
  have htree := h.own.tree
  obtain ⟨h1, h2, h3, h4, h5, h6⟩ := setPte_slot (e := e) htree hs
  obtain ⟨q, hq, hsame⟩ := setPte_slot_same (e := e) htree hs
  have hsep := h.own.sep hq
  have hfree : ∀ p ∈ L, SameOn s.mem (Vm.setPte s.mem (slot s.mem 2 a v) e) p := by
    intro p hp
    refine hsame p (h.own.acct.page_of_free p hp) ?_
    rintro rfl
    have := h.own.acct.unowned p hp
    simp only [Pi.add_apply] at this
    omega
  refine ⟨⟨?_, h2 h.wf, ?_⟩, fun p hp => ?_, hfree, h4⟩
  · rw [h1]
    exact h.own.frame hfree
  · funext w
    rw [← h.map, update_apply]
    unfold pmap
    by_cases hw : w < NVPN
    · rw [if_pos hw]
      by_cases hwv : w = v
      · rw [if_pos hwv]
        exact h5 w ((same_two hw hv).mpr hwv)
      · rw [if_neg hwv, if_pos hw]
        exact h6 w (fun hsame => hwv ((same_two hw hv).mp hsame))
    · rw [if_neg hw, if_neg (fun hwv : w = v => hw (hwv ▸ hv)), if_neg hw]
  · refine hsame p (h.own.page (by simp only [Pi.add_apply] at hp ⊢; omega)) ?_
    rintro rfl
    simp only [Pi.add_apply] at hp
    omega

/-! ### `mappages` on one page -/

/-- A mapping was made: one entry is new, and the missing levels on the way to it were filled. -/
structure Mapped (s t : Mach) (L L' : List ℕ) (X U : ℕ → ℕ) (a : ℕ) (f : ℕ → Pte) (v : ℕ)
    (e : Pte) : Prop where
  tab : Tab t L' X U a (update f v e)
  drawn : Drawn s t L L'
  taken : L.length = L'.length + gap s.mem 2 a v
  gap : ∀ w, gap t.mem 2 a w = min (gap s.mem 2 a w) (dist 2 w v)
  full : 0 ∈ t.allocs → 0 ∈ s.allocs

/-- No mapping was made: the free list ran out on the way, and the map is as it was. -/
structure NotMapped (s t : Mach) (L : List ℕ) (X U : ℕ → ℕ) (a : ℕ) (f : ℕ → Pte) (v : ℕ) : Prop where
  tab : Tab t [] X U a f
  failed : 0 ∈ t.allocs
  short : L.length < gap s.mem 2 a v

theorem walk_true_spec (h : Tab s L X U a f) (hlt : v * PGSIZE < MAXVA) :
    wp (walk a (v * PGSIZE) true) (fun r t => ∃ L', Walked s t L L' X U 2 a v r) (fun _ => False) s := by
  simp only [walk, if_neg (Nat.not_le.mpr hlt)]
  have hw := walkFrom_spec (v * PGSIZE) h.own h.wf
  rwa [mul_div_pgsize] at hw

theorem Walked.tab {r : ℕ} (hw : Walked s t L L' X U 2 a v r) (h : Tab s L X U a f) :
    Tab t L' X U a f := by
  refine ⟨hw.own, hw.wf, ?_⟩
  rw [← h.map]
  funext w
  unfold pmap
  rw [hw.look w]

theorem mappages_spec (pa : ℕ) (perm : Pte) (h : Tab s L X U a f) (hlt : v * PGSIZE < MAXVA)
    (hf : has (f v) PTE_V = false) :
    wp (mappages a (v * PGSIZE) PGSIZE pa perm) (fun r t => Keeps s t (X + U) ∧
      ((r = 0 ∧ ∃ L', Mapped s t L L' X U a f v (pa2pte pa ||| perm ||| PTE_V)) ∨
        (r = -1 ∧ NotMapped s t L X U a f v))) (fun _ => False) s := by
  have hone : PGSIZE / PGSIZE = 0 + 1 := by decide
  simp only [mappages, Nat.mul_mod_left, ne_eq, not_true_eq_false, if_false, Nat.mod_self,
    if_neg (by decide : ¬ PGSIZE = 0), hone, mappagesFrom, wp_bind]
  refine wp_post (walk_true_spec h hlt) ?_
  rintro r t ⟨L', hw⟩
  have htab := hw.tab h
  by_cases hr : r = 0
  · subst hr
    obtain ⟨h1, h2, h3⟩ := hw.lost rfl
    subst h1
    simp only [if_true, wp_pure]
    exact ⟨⟨hw.frame, hw.hist⟩, Or.inr ⟨trivial, htab, h2, h3⟩⟩
  · obtain ⟨h1, h2, h3, h5⟩ := hw.found hr
    subst h1
    have hv := vpn_lt hlt
    obtain ⟨g1, g2, g4, g3⟩ := htab.setPte (e := pa2pte pa ||| perm ||| PTE_V) hv hr
    simp only [if_neg hr, wp_bind, wp_ldpte, htab.pteAt_slot hv hr, hf, Bool.false_eq_true,
      if_false, wp_stpte, wp_pure]
    refine ⟨⟨hw.frame.trans g2, hw.hist⟩,
      Or.inl ⟨trivial, L', g1, fun q hq => ⟨hw.suffix.subset hq, fun x k1 k2 => ?_⟩, h2,
        fun w => ?_, h5⟩⟩
    · exact (g4 q hq x k1 k2).trans (hw.free q hq x k1 k2)
    · rw [← h3 w]
      exact g3 w

/-! ### `uvmunmap` -/

theorem uvmunmapPage_keep (h : Tab s L X U a f) (hlt : v * PGSIZE < MAXVA) (hf : Leaf (f v)) :
    wp (uvmunmapPage a false (v * PGSIZE)) (fun _ t => Tab t L X U a (update f v 0) ∧ Keeps s t (X + U) ∧
      t.allocs = s.allocs) (fun _ => False) s := by
  have hv := vpn_lt hlt
  have hs := h.slot_ne_zero hv hf.1
  obtain ⟨g1, g2, -, -⟩ := h.setPte (e := 0) hv hs
  simp only [uvmunmapPage, wp_bind, wp_walk_false hlt, mul_div_pgsize, if_neg hs, wp_ldpte,
    h.pteAt_slot hv hs, hf.1, Bool.not_true, Bool.false_eq_true, if_false, if_neg hf.2, wp_stpte]
  exact ⟨g1, ⟨g2, List.suffix_refl _⟩, trivial⟩

/-- Removing a mapping and the table's count of the page. -/
theorem uvmunmapPage_free (h : Tab s L X (U + one (pte2pa (f v))) a f) (hlt : v * PGSIZE < MAXVA)
    (hf : Leaf (f v)) :
    wp (uvmunmapPage a true (v * PGSIZE)) (fun _ t => Tab t (if U (pte2pa (f v)) = 0 then
        pte2pa (f v) :: L else L) X U a (update f v 0) ∧ Keeps s t (X + U) ∧
      t.allocs = s.allocs) (fun _ => False) s := by
  have hv := vpn_lt hlt
  have hs := h.slot_ne_zero hv hf.1
  simp only [uvmunmapPage, wp_bind, wp_walk_false hlt, mul_div_pgsize, if_neg hs, wp_ldpte,
    h.pteAt_slot hv hs, hf.1, Bool.not_true, Bool.false_eq_true, if_false, if_neg hf.2, if_true]
  refine wp_post (kfree_shared h.own) ?_
  rintro _ t ⟨h1, h2, h3⟩
  have hsame : ∀ p, 0 < nodes s.mem 2 a p → SameOn s.mem t.mem p := fun p hp =>
    h2 p (by simp only [Pi.add_apply]; omega)
  have htab := h.congr h1 hsame
  have hslot : slot s.mem 2 a v = slot t.mem 2 a v := (slot_congr hsame).symm
  rw [hslot] at hs ⊢
  obtain ⟨g1, g2, -, -⟩ := htab.setPte (e := 0) hv hs
  simp only [wp_stpte]
  refine ⟨g1, ⟨Frame.trans (h2.mono (fun p hp => ?_)) g2, by rw [← h3]⟩, h3⟩
  simp only [Pi.add_apply] at hp ⊢
  omega

theorem uvmunmapFrom_free {n : ℕ} (h : Tab s L X (U + span f v n) a f)
    (hlt : v + n ≤ MAXVA / PGSIZE) (hf : ∀ i < n, Leaf (f (v + i))) :
    wp (uvmunmapFrom a true n (v * PGSIZE))
      (fun _ t => ∃ L', Tab t L' X U a (clear f v n) ∧ Keeps s t (X + U) ∧ t.allocs = s.allocs ∧
        ∀ q ∈ L', q ∈ L ∨ 0 < span f v n q) (fun _ => False) s := by
  induction n generalizing s L v f with
  | zero =>
      simp only [uvmunmapFrom, wp_pure]
      refine ⟨L, ?_, Keeps.refl _ _, trivial, fun _ => .inl⟩
      have hc : clear f v 0 = f := funext (fun w => if_neg (by omega))
      simpa [span, hc] using h
  | succ n ih =>
      have hva : v * PGSIZE < MAXVA := by
        unfold MAXVA PGSIZE at *
        omega
      have htab : Tab s L X (U + span f (v + 1) n + one (pte2pa (f v))) a f := by
        rwa [add_assoc, add_comm (span f (v + 1) n), ← span_succ]
      have hspan : span (update f v 0) (v + 1) n = span f (v + 1) n :=
        span_congr (fun i _ => by rw [update_of_ne (by omega)])
      simp only [uvmunmapFrom, wp_bind]
      refine wp_post (uvmunmapPage_free htab hva (hf 0 (by omega))) ?_
      rintro _ t ⟨h1, h2, h3⟩
      rw [← hspan] at h1
      rw [show v * PGSIZE + PGSIZE = (v + 1) * PGSIZE by ring]
      refine wp_post (ih h1 (by omega) (fun i hi => ?_)) ?_
      · rw [update_of_ne (by omega), show v + 1 + i = v + (i + 1) by omega]
        exact hf (i + 1) (by omega)
      · rintro _ t' ⟨L', g1, g2, g3, g4⟩
        rw [clear_succ]
        refine ⟨L', g1, (h2.mono (fun p hp => ?_)).trans g2, g3.trans h3, fun q hq => ?_⟩
        · simp only [Pi.add_apply] at hp ⊢
          omega
        · rw [span_succ, Pi.add_apply, ← hspan]
          have hmem := g4 q hq
          split at hmem <;> grind [one_self]

end tables

/-! ### `freewalk` -/

/-- A table without mappings. -/
def Unmapped (m : Bytes) (level a : ℕ) : Prop := ∀ w, has (look m level a w) PTE_V = false

theorem Unmapped.child {m : Bytes} {level a i : ℕ} (h : Unmapped m (level + 1) a) (hi : i < 512)
    (hv : has (ent m a i) PTE_V = true) : Unmapped m level (pte2pa (ent m a i)) := by
  intro w
  obtain ⟨v, hvi, hsame⟩ := exists_same level hi w
  have := h v
  rwa [look_child (hvi ▸ hv), hvi, look_same hsame] at this

/-- The loop of `freewalk` over entries that are not valid does nothing. -/
theorem freewalkFrom_none {s : Mach} {a i n : ℕ} {free : ℕ → VmM Unit} {Q : Unit → Mach → Prop}
    {E : Panic → Prop} (hn : n + i = 512) (hnv : ∀ j < 512, has (ent s.mem a j) PTE_V = false)
    (hQ : Q () s) : wp (freewalkFrom free a n i) Q E s := by
  induction n generalizing i with
  | zero =>
      rw [freewalkFrom, wp_pure]
      exact hQ
  | succ n ih =>
      simp only [freewalkFrom, wp_bind, wp_ldpte]
      change wp (if (has (ent s.mem a i) PTE_V && !has (ent s.mem a i)
        (PTE_R ||| PTE_W ||| PTE_X)) = true then _
        else if has (ent s.mem a i) PTE_V = true then _ else _) _ _ _
      rw [hnv i (by omega)]
      simp only [Bool.false_and, Bool.false_eq_true, if_false]
      exact ih (by omega)

section freewalk
variable [Layout] {s t : Mach} {L L' : List ℕ} {X U : ℕ → ℕ} {level a i : ℕ}

/-- What freeing a tree leaves: the owners outside it. -/
def Freed (s t : Mach) (X U : ℕ → ℕ) : Prop :=
  ∃ L', Own t L' X U ∧ Frame s.mem t.mem (X + U) ∧ t.allocs = s.allocs

/-- Clearing entry `i` of the root after the tree below it has been freed. -/
theorem unlinked_spec (h : Own s L (X + nodes s.mem (level + 1) a) U) (hw : Wf s.mem (level + 1) a)
    (hu : Unmapped s.mem (level + 1) a) (hi : i < 512) (ht : Own t L' (X + rest s.mem level a i) U)
    (hf : Frame s.mem t.mem (X + rest s.mem level a i + U)) :
    Own { t with mem := setPte t.mem (a + 8 * i) 0 } L'
      (X + nodes (setPte t.mem (a + 8 * i) 0) (level + 1) a) U ∧
    Wf (setPte t.mem (a + 8 * i) 0) (level + 1) a ∧ Unmapped (setPte t.mem (a + 8 * i) 0) (level + 1) a ∧
    Frame s.mem (setPte t.mem (a + 8 * i) 0) (X + U) ∧
    ∀ j < 512, ent (setPte t.mem (a + 8 * i) 0) a j = if j = i then 0 else ent s.mem a j := by
  have htree := h.tree
  have hroot : one a a ≤ rest s.mem level a i a := one_le_rest
  rw [one_self] at hroot
  have ha : Page a := htree.page a (nodes_self _ _)
  have hbelow : Below s.mem t.mem level a i :=
    Below.of_rest (fun p hp => hf p (by simp only [Pi.add_apply]; omega))
  have hwrite : ∀ q, Page q → q ≠ a → SameOn t.mem (setPte t.mem (a + 8 * i) 0) q := fun q hq hne =>
    sameOn_of_write ha hq hne (fun x hx => setPte_of_not_mem (by unfold PGSIZE at hx; omega))
  have hent : ∀ j < 512, ent (setPte t.mem (a + 8 * i) 0) a j = if j = i then 0 else ent s.mem a j := by
    intro j hj
    by_cases hji : j = i
    · rw [if_pos hji, hji]
      exact pteAt_setPte
    · rw [if_neg hji, ent_setPte_ne hji, ent_congr hbelow.same hj]
  have hside : Beside s.mem (setPte t.mem (a + 8 * i) 0) level a i := by
    refine ⟨fun j hj hji => by rw [hent j hj, if_neg hji], fun j hj hji hv p hp => ?_⟩
    have hsub : 0 < sub s.mem level a j p := by rwa [sub_of_valid hv]
    have hle : sub s.mem level a j p ≤ nodes s.mem (level + 1) a p := sub_le_nodes hj
    intro x h1 h2
    rw [hwrite p (htree.page p (by omega)) (htree.ne_root hj hsub) x h1 h2,
      hbelow.other j hj hji hv p hp x h1 h2]
  have hzero : has (ent (setPte t.mem (a + 8 * i) 0) a i) PTE_V = false := by
    rw [hent i hi, if_pos rfl, has_zero]
  have hnodes : nodes (setPte t.mem (a + 8 * i) 0) (level + 1) a = rest s.mem level a i := by
    rw [nodes_eq_rest hi, hside.rest_eq, sub_of_not_valid hzero, add_zero]
  refine ⟨?_, hside.wf hw (fun hv => ?_), fun w => ?_, fun p hp => ?_, hent⟩
  · rw [hnodes]
    exact ht.write (p := a) (by simp only [Pi.add_apply]; omega)
      (fun x hx => setPte_of_not_mem (by unfold PGSIZE at hx; omega))
  · rw [hzero] at hv
    exact absurd hv (by simp)
  · by_cases hwi : idx (level + 1) w = i
    · simp only [look]
      rw [hwi, hzero]
      exact has_zero
    · rw [hside.look_eq hwi]
      exact hu w
  · have hsep : X a = 0 ∧ U a = 0 := h.sep (nodes_self _ _)
    simp only [Pi.add_apply] at hp
    have hne : p ≠ a := by
      rintro rfl
      omega
    intro x h1 h2
    rw [hwrite p (h.page (by simp only [Pi.add_apply]; omega)) hne x h1 h2,
      hf p (by simp only [Pi.add_apply]; omega) x h1 h2]

/-- The loop of `freewalk`, given that the recursive call frees a tree one level down. -/
theorem freewalkFrom_spec {free : ℕ → VmM Unit}
    (hfree : ∀ {s : Mach} {L : List ℕ} {X : ℕ → ℕ} {a : ℕ}, Own s L (X + nodes s.mem level a) U →
      Wf s.mem level a → Unmapped s.mem level a →
        wp (free a) (fun _ t => Freed s t X U) (fun _ => False) s)
    {n : ℕ} (hn : n + i = 512) (h : Own s L (X + nodes s.mem (level + 1) a) U)
    (hw : Wf s.mem (level + 1) a) (hu : Unmapped s.mem (level + 1) a)
    (hdone : ∀ j < i, has (ent s.mem a j) PTE_V = false) :
      wp (freewalkFrom free a n i) (fun _ t => ∃ L', Own t L' (X + one a) U ∧
        Frame s.mem t.mem (X + U) ∧ t.allocs = s.allocs) (fun _ => False) s := by
  induction n generalizing s L i with
  | zero =>
      simp only [freewalkFrom, wp_pure]
      refine ⟨L, ?_, Frame.refl _ _, trivial⟩
      rwa [nodes_empty (fun j hj => hdone j (by omega))] at h
  | succ n ih =>
      have hi : i < 512 := by omega
      simp only [freewalkFrom, wp_bind, wp_ldpte]
      change wp (if (has (ent s.mem a i) PTE_V && !has (ent s.mem a i)
        (PTE_R ||| PTE_W ||| PTE_X)) = true then _
        else if has (ent s.mem a i) PTE_V = true then _ else _) _ _ _
      cases hv : has (ent s.mem a i) PTE_V with
      | false =>
          simp only [Bool.false_and, Bool.false_eq_true, if_false]
          refine ih (by omega) h hw hu (fun j hj => ?_)
          rcases Nat.lt_succ_iff_lt_or_eq.mp hj with hj | rfl
          · exact hdone j hj
          · exact hv
      | true =>
          have hchild : Own s L (X + rest s.mem level a i + nodes s.mem level
              (pte2pa (ent s.mem a i))) U := by
            rwa [add_assoc, ← sub_of_valid hv, ← nodes_eq_rest hi]
          simp only [(hw i hi hv).1, Bool.not_false, Bool.and_true, if_true, wp_bind]
          refine wp_post (hfree hchild (hw i hi hv).2 (hu.child hi hv)) ?_
          rintro _ t ⟨L', ht, hf, hal⟩
          obtain ⟨g1, g2, g3, g4, g5⟩ := unlinked_spec h hw hu hi ht hf
          simp only [wp_stpte]
          refine wp_post (ih (by omega) g1 g2 g3 (fun j hj => ?_)) ?_
          · rw [g5 j (by omega)]
            rcases Nat.lt_succ_iff_lt_or_eq.mp hj with hj | rfl
            · rw [if_neg (by omega)]
              exact hdone j hj
            · rw [if_pos rfl, has_zero]
          · rintro _ t' ⟨L'', k1, k2, k3⟩
            exact ⟨L'', k1, g4.trans k2, k3.trans hal⟩

theorem freewalk_root (h : Own t L (X + one a) U) (hf : Frame s.mem t.mem (X + U))
    (hal : t.allocs = s.allocs) : wp (kfree a) (fun _ t' => Freed s t' X U) (fun _ => False) t := by
  refine wp_post (kfree_excl h) ?_
  rintro _ t' ⟨g1, g2, g3⟩
  exact ⟨_, g1, hf.trans g2, g3.trans hal⟩

/-- `freewalk` frees a tree without mappings, and nothing else. -/
theorem freewalk_spec (h : Own s L (X + nodes s.mem level a) U) (hw : Wf s.mem level a)
    (hu : Unmapped s.mem level a) : wp (freewalk (level + 1) a) (fun _ t => Freed s t X U)
      (fun _ => False) s := by
  induction level generalizing s L X a with
  | zero =>
      have hnv : ∀ j < 512, has (ent s.mem a j) PTE_V = false := fun j hj => by
        have := hu j
        simpa [look, idx, Nat.mod_eq_of_lt hj] using this
      rw [freewalk, wp_bind]
      exact freewalkFrom_none (Nat.add_zero 512) hnv (freewalk_root h (Frame.refl _ _) rfl)
  | succ level ih =>
      rw [freewalk, wp_bind]
      refine wp_post (freewalkFrom_spec ih (Nat.add_zero 512) h hw hu
        (fun j hj => absurd hj (Nat.not_lt_zero j))) ?_
      rintro _ t ⟨L', ht, hf, hal⟩
      exact freewalk_root ht hf hal

end freewalk

end Xv6Cow.Vm

import Xv6Cow.Lib.Account
import Xv6Cow.Lib.Bytes
import Xv6Cow.Lib.Wp
import Xv6Cow.Vm.Pte

/-! # The page allocator, `kalloc.c`

The machine is physical memory, the reference counts and the head of the free list; the free list
itself runs through the first word of each free page, as `struct run` lays it out.  The build is
the configured one: `LAB_SYSCALL` is defined, so neither `kfree` nor `kalloc` overwrites the page.

`Own s l x u` is the state of the allocator between calls: the list in memory is `l`, and the counts
agree with exclusive owners `x` and shared owners `u`.  Each function has one specification in
these terms, and `Own.frame` says that writing to owned pages leaves the allocator alone. -/

namespace Xv6Cow.Vm

open Function (update update_self update_apply)

/-- The symbols of `kernel.ld` that the code uses. -/
class Layout where
  /-- `end`, the first address after the kernel. -/
  kernelEnd : ℕ
  /-- `trampoline`, the page of `trampoline.S` in the kernel text. -/
  trampoline : ℕ
  kernbase_le : KERNBASE ≤ trampoline
  trampoline_mod : trampoline % PGSIZE = 0
  trampoline_lt : trampoline + PGSIZE ≤ kernelEnd
  kernelEnd_le : kernelEnd ≤ PHYSTOP

export Layout (kernelEnd trampoline)

/-- The panics of the modelled code.  `kerneltrap` is a kernel access through a null pointer;
`freewalkDepth` is a recursion of `freewalk` below the third level. -/
inductive Panic
  | kfree | walk | mappagesVa | mappagesSizeAlign | mappagesSize | mappagesRemap
  | uvmunmapAlign | uvmunmapWalk | uvmunmapNotMapped | uvmunmapNotLeaf | uvmfirst | freewalkLeaf
  | uvmcopyPte | uvmcopyPage | uvmclear | loadseg | initExiting | kerneltrap | freewalkDepth
  deriving DecidableEq, Repr

/-- Physical memory and `kmem`.  `allocs` is the history of the allocator: every value `kalloc`
has returned, latest first. -/
structure Mach where
  mem : Bytes
  refcnt : ℕ → ℤ
  freelist : ℕ
  allocs : List ℕ

/-- Code that runs on the machine and may panic. -/
abbrev VmM := StateT Mach (Except Panic)

/-- `kalloc`. -/
def kalloc : VmM ℕ := do
  let s ← get
  if s.freelist = 0 then
    set { s with allocs := 0 :: s.allocs }
    pure 0
  else
    set { s with freelist := s.mem.le s.freelist 8
                 refcnt := update s.refcnt (s.freelist / PGSIZE) 1
                 allocs := s.freelist :: s.allocs }
    pure s.freelist

/-- `incref`. -/
def incref (pa : ℕ) : VmM Unit :=
  modify (fun s => { s with refcnt := update s.refcnt (pa / PGSIZE) (s.refcnt (pa / PGSIZE) + 1) })

/-- `refcount`. -/
def refcount (pa : ℕ) : VmM ℤ := do
  let s ← get
  pure (s.refcnt (pa / PGSIZE))

/-- `kfree`. -/
def kfree [Layout] (pa : ℕ) : VmM Unit := do
  if pa % PGSIZE ≠ 0 ∨ pa < kernelEnd ∨ PHYSTOP ≤ pa then
    throw .kfree
  else
    modify (fun s => { s with refcnt := update s.refcnt (pa / PGSIZE) (s.refcnt (pa / PGSIZE) - 1) })
    let s ← get
    if s.refcnt (pa / PGSIZE) > 0 then
      pure ()
    else
      modify (fun s => { s with mem := s.mem.setLe pa 8 s.freelist, freelist := pa })

/-- `decref`. -/
def decref [Layout] (pa : ℕ) : VmM Unit := kfree pa

/-- The loop of `freerange`: `n` pages from `p` on. -/
def freerangeFrom [Layout] : ℕ → ℕ → VmM Unit
  | 0, _ => pure ()
  | n + 1, p => do
      kfree p
      freerangeFrom n (p + PGSIZE)

/-- `freerange`. -/
def freerange [Layout] (paStart paEnd : ℕ) : VmM Unit :=
  let p := pgroundup paStart
  freerangeFrom ((paEnd - p) / PGSIZE) p

/-- `kinit`. -/
def kinit [Layout] : VmM Unit := do
  modify (fun s => { s with refcnt := fun _ => 0 })
  freerange kernelEnd PHYSTOP

/-! ### Memory that two states share -/

/-- Two memories agree on the page at `p`. -/
def SameOn (m m' : Bytes) (p : ℕ) : Prop := ∀ a, p ≤ a → a < p + PGSIZE → m' a = m a

/-- Two memories agree on every page that has an owner in `q`. -/
def Frame (m m' : Bytes) (q : ℕ → ℕ) : Prop := ∀ p, 0 < q p → SameOn m m' p

theorem Frame.refl (m : Bytes) (q : ℕ → ℕ) : Frame m m q := fun _ _ _ _ _ => rfl

theorem Frame.trans {m m' m'' : Bytes} {q : ℕ → ℕ} (h : Frame m m' q) (h' : Frame m' m'' q) :
    Frame m m'' q :=
  fun p hp a h1 h2 => (h' p hp a h1 h2).trans (h p hp a h1 h2)

theorem Frame.mono {m m' : Bytes} {q q' : ℕ → ℕ} (h : Frame m m' q)
    (hle : ∀ p, 0 < q' p → 0 < q p) : Frame m m' q' := fun p hp => h p (hle p hp)

/-- The list that starts at address `a` runs through the pages of `l`. -/
def Chain (m : Bytes) : ℕ → List ℕ → Prop
  | a, [] => a = 0
  | a, p :: l => a = p ∧ Chain m (m.le p 8) l

theorem Chain.congr {m m' : Bytes} : ∀ {l : List ℕ} {a : ℕ}, (∀ p ∈ l, SameOn m m' p) →
    Chain m a l → Chain m' a l
  | [], _, _, h => h
  | p :: l, a, hs, h => by
      have hp : m'.le p 8 = m.le p 8 := Bytes.le_congr (fun b h1 h2 =>
        hs p List.mem_cons_self b h1 (by unfold PGSIZE; omega))
      refine ⟨h.1, ?_⟩
      rw [hp]
      exact Chain.congr (fun q hq => hs q (List.mem_cons_of_mem _ hq)) h.2

/-! ### Pages -/

/-- A page that the allocator manages. -/
def Page [Layout] (p : ℕ) : Prop := p % PGSIZE = 0 ∧ pgroundup kernelEnd ≤ p ∧ p + PGSIZE ≤ PHYSTOP

instance [Layout] (p : ℕ) : Decidable (Page p) := inferInstanceAs (Decidable (_ ∧ _))

variable [Layout]

theorem Page.facts {p : ℕ} (h : Page p) :
    p % 4096 = 0 ∧ kernelEnd ≤ p ∧ KERNBASE ≤ p ∧ p + 4096 ≤ PHYSTOP := by
  obtain ⟨h1, h2, h3⟩ := h
  have hle : kernelEnd ≤ p := (le_pgroundup Layout.kernelEnd_le).trans h2
  have htr := Layout.trampoline_lt
  have hkb := Layout.kernbase_le
  unfold PGSIZE at h1 h3
  exact ⟨h1, hle, by omega, h3⟩

theorem Page.ne_zero {p : ℕ} (h : Page p) : p ≠ 0 := by
  have := h.facts.2.2.1
  unfold KERNBASE at this
  omega

theorem Page.lt {p : ℕ} (h : Page p) : p < 2 ^ 56 := by
  have := h.facts.2.2.2
  unfold PHYSTOP KERNBASE at this
  omega

theorem Page.div_eq {p q : ℕ} (hp : Page p) (hq : Page q) : q / PGSIZE = p / PGSIZE ↔ q = p := by
  have h1 := hp.facts.1
  have h2 := hq.facts.1
  unfold PGSIZE
  omega

theorem sameOn_of_write {m m' : Bytes} {p q : ℕ} (hp : Page p) (hq : Page q) (hne : q ≠ p)
    (h : ∀ a, a < p ∨ p + PGSIZE ≤ a → m' a = m a) : SameOn m m' q := by
  intro a h1 h2
  have h3 := hp.facts.1
  have h4 := hq.facts.1
  apply h
  unfold PGSIZE at *
  omega

/-! ### The state of the allocator -/

/-- The allocator between calls: the free list is `l`, the pages' exclusive and shared owners are
`x` and `u`. -/
structure Own (s : Mach) (l : List ℕ) (x u : ℕ → ℕ) : Prop where
  chain : Chain s.mem s.freelist l
  acct : Account Page s.allocs l (fun p => s.refcnt (p / PGSIZE)) x u

variable {s t : Mach} {l : List ℕ} {x u : ℕ → ℕ} {p : ℕ}

theorem Own.page (h : Own s l x u) (hp : 0 < x p + u p) : Page p := h.acct.page_of_owned p hp

/-- The allocator only looks at its own list: other pages may be written. -/
theorem Own.frame {m : Bytes} (h : Own s l x u) (hm : ∀ p ∈ l, SameOn s.mem m p) :
    Own { s with mem := m } l x u :=
  ⟨h.chain.congr hm, h.acct⟩

/-- Writing inside one owned page leaves the allocator and every other page alone. -/
theorem Own.write {m : Bytes} (h : Own s l x u) (hp : 0 < x p + u p)
    (hm : ∀ a, a < p ∨ p + PGSIZE ≤ a → m a = s.mem a) : Own { s with mem := m } l x u :=
  h.frame (fun q hq => sameOn_of_write (h.page hp) (h.acct.page_of_free q hq)
    (fun e => h.acct.not_mem_free hp (e ▸ hq)) hm)

/-! ### Specifications -/

theorem refcnt_update (hp : Page p) {c : ℕ → ℤ} {n : ℤ} {q : ℕ} (hq : Page q) :
    update c (p / PGSIZE) n (q / PGSIZE) = if q = p then n else c (q / PGSIZE) := by
  simp [update_apply, hp.div_eq hq]

/-- What `kalloc` leaves: the first page of the list, or 0 if the list is empty. -/
theorem kalloc_spec (h : Own s l x u) :
    wp kalloc (fun p t => t.mem = s.mem ∧ t.allocs = p :: s.allocs ∧
      ((p = 0 ∧ l = [] ∧ Own t [] x u) ∨ ∃ l', l = p :: l' ∧ Own t l' (x + one p) u))
        (fun _ => False) s := by
  simp only [kalloc, wp_bind, wp_get, wp_ite, wp_set, wp_pure, true_and]
  refine ⟨fun h0 => Or.inl ?_, fun h0 => Or.inr ?_⟩
  · cases l with
    | nil =>
        refine ⟨rfl, h.chain, h.acct.nodup, h.acct.page_of_free, h.acct.unowned, ?_, ?_,
          h.acct.owned, h.acct.cnt_owned, h.acct.page_of_owned, h.acct.excl, ?_⟩
        · intro p hp
          exact absurd hp List.not_mem_nil
        · intro p hp
          exact absurd hp List.not_mem_nil
        · intro p hp
          exact List.mem_cons_of_mem _ (h.acct.hist_of_owned p hp)
    | cons p l =>
        have hp := (h.acct.page_of_free p List.mem_cons_self).ne_zero
        exact absurd (h.chain.1 ▸ h0) hp
  · cases l with
    | nil => exact absurd h.chain h0
    | cons p l =>
        obtain ⟨hp, hc⟩ := h.chain
        have hpage : Page p := h.acct.page_of_free p List.mem_cons_self
        rw [hp]
        refine ⟨l, rfl, hc, ?_⟩
        exact h.acct.alloc (fun q hq => refcnt_update hpage hq)

theorem incref_spec (h : Own s l x u) (hu : 0 < u p) :
    wp (incref p) (fun _ t => t.mem = s.mem ∧ t.allocs = s.allocs ∧ Own t l x (u + one p))
      (fun _ => False) s := by
  have hpage : Page p := h.page (by omega)
  simp only [incref, wp_modify, true_and]
  exact ⟨h.chain, h.acct.share hu (fun q hq => refcnt_update hpage hq)⟩

theorem refcount_spec (h : Own s l x u) (hp : 0 < x p + u p) :
    wp (refcount p) (fun n t => t = s ∧ n = x p + u p) (fun _ => False) s := by
  simp only [refcount, wp_bind, wp_get, wp_pure, true_and]
  exact h.acct.cnt_eq hp

theorem sameOn_push (hp : Page p) {q : ℕ} (hq : Page q) (hne : q ≠ p) {m : Bytes} {v : ℕ} :
    SameOn m (m.setLe p 8 v) q :=
  sameOn_of_write hp hq hne (fun a ha => Bytes.setLe_of_not_mem (by unfold PGSIZE at ha; omega))

theorem Own.freelist_lt (h : Own s l x u) : s.freelist < 2 ^ 64 := by
  have hc := h.chain
  cases l with
  | nil =>
      rw [show s.freelist = 0 from hc]
      norm_num
  | cons q l =>
      rw [hc.1]
      have := (h.acct.page_of_free q List.mem_cons_self).lt
      omega

/-- A page that leaves its last owner is pushed on the list. -/
theorem Own.push {x' u' : ℕ → ℕ} (h : Own s l x u) (hp : Page p)
    (ha : Account Page s.allocs (p :: l) (fun q => t.refcnt (q / PGSIZE)) x' u')
    (hmem : t.mem = s.mem.setLe p 8 s.freelist) (hfree : t.freelist = p)
    (hal : t.allocs = s.allocs) : Own t (p :: l) x' u' ∧ Frame s.mem t.mem (x' + u') := by
  have hnot : p ∉ l := (List.nodup_cons.mp ha.nodup).1
  refine ⟨⟨?_, by rw [hal]; exact ha⟩, fun q hq => ?_⟩
  · rw [hfree, hmem]
    refine ⟨rfl, ?_⟩
    rw [Bytes.le_setLe (by norm_num; exact h.freelist_lt)]
    refine h.chain.congr (fun q hq => sameOn_push hp (h.acct.page_of_free q hq) ?_)
    rintro rfl
    exact hnot hq
  · rw [hmem]
    refine sameOn_push hp (ha.page_of_owned q hq) ?_
    rintro rfl
    have := ha.unowned q List.mem_cons_self
    simp only [Pi.add_apply] at hq
    omega

theorem kfree_guard (hp : Page p) : ¬ (p % PGSIZE ≠ 0 ∨ p < kernelEnd ∨ PHYSTOP ≤ p) := by
  have h := hp.facts
  unfold PGSIZE
  omega

theorem kfree_excl (h : Own s l (x + one p) u) :
    wp (kfree p) (fun _ t => Own t (p :: l) x u ∧ Frame s.mem t.mem (x + u) ∧ t.allocs = s.allocs)
      (fun _ => False) s := by
  have hp : Page p := h.page (by simp [one_self])
  have hc : s.refcnt (p / PGSIZE) - 1 = 0 := by
    have := h.acct.cnt_excl
    omega
  simp only [kfree, if_neg (kfree_guard hp), wp_bind, wp_modify, wp_get, wp_ite, wp_pure,
    update_self, hc]
  refine ⟨fun hpos => absurd hpos (lt_irrefl _), fun _ => ?_⟩
  obtain ⟨h1, h2⟩ := h.push (t := { s with
    refcnt := update s.refcnt (p / PGSIZE) 0
    mem := s.mem.setLe p 8 s.freelist, freelist := p }) hp
    (h.acct.release_excl (fun q hq => refcnt_update hp hq)) rfl rfl rfl
  exact ⟨h1, h2, trivial⟩

/-- `kfree` by a shared owner: the last one frees the page. -/
theorem kfree_shared (h : Own s l x (u + one p)) :
    wp (kfree p) (fun _ t => Own t (if u p = 0 then p :: l else l) x u ∧ Frame s.mem t.mem (x + u) ∧
      t.allocs = s.allocs) (fun _ => False) s := by
  have hp : Page p := h.page (by simp [one_self])
  have hc : s.refcnt (p / PGSIZE) - 1 = u p := by
    have := h.acct.cnt_shared
    omega
  simp only [kfree, if_neg (kfree_guard hp), wp_bind, wp_modify, wp_get, wp_ite, wp_pure,
    update_self, hc]
  refine ⟨fun hpos => ?_, fun hpos => ?_⟩
  · have hu : 0 < u p := by omega
    rw [if_neg (by omega)]
    refine ⟨⟨h.chain, h.acct.release_shared hu (fun q hq => (refcnt_update hp hq).trans ?_)⟩,
      Frame.refl _ _, trivial⟩
    rw [hc]
  · have hu : u p = 0 := by omega
    rw [if_pos hu]
    obtain ⟨h1, h2⟩ := h.push (t := { s with
      refcnt := update s.refcnt (p / PGSIZE) (u p)
      mem := s.mem.setLe p 8 s.freelist, freelist := p }) hp
      (h.acct.release_last hu (fun q hq => (refcnt_update hp hq).trans (by rw [hu, Nat.cast_zero])))
        rfl rfl rfl
    exact ⟨h1, h2, trivial⟩

/-! ### Boot -/

/-- The number of pages that `kinit` hands to the allocator. -/
def ramPages : ℕ := (PHYSTOP - pgroundup kernelEnd) / PGSIZE

theorem page_iff : Page p ↔ ∃ i < ramPages, p = pgroundup kernelEnd + i * PGSIZE := by
  have hmod := pgroundup_mod kernelEnd
  unfold Page ramPages
  constructor
  · rintro ⟨h1, h2, h3⟩
    refine ⟨(p - pgroundup kernelEnd) / PGSIZE, ?_, ?_⟩ <;> unfold PGSIZE at * <;> omega
  · rintro ⟨i, hi, rfl⟩
    refine ⟨?_, ?_, ?_⟩ <;> unfold PGSIZE at * <;> omega

/-- The allocator during `freerange`, when the pages from `p` on are still to come. -/
structure Filling (s : Mach) (l : List ℕ) (p : ℕ) : Prop where
  chain : Chain s.mem s.freelist l
  nodup : l.Nodup
  page : ∀ q ∈ l, Page q ∧ q < p
  count : ∀ q ∈ l, s.refcnt (q / PGSIZE) = -1
  rest : ∀ q, Page q → p ≤ q → s.refcnt (q / PGSIZE) = 0
  lt : s.freelist < 2 ^ 64

theorem kfree_filling (h : Filling s l p) (hp : Page p) :
    wp (kfree p) (fun _ t => Filling t (p :: l) (p + PGSIZE) ∧ t.allocs = s.allocs)
      (fun _ => False) s := by
  have hnot : p ∉ l := fun hm => lt_irrefl _ (h.page p hm).2
  have hz := h.rest p hp le_rfl
  have hpos : 0 < PGSIZE := by decide
  simp only [kfree, if_neg (kfree_guard hp), wp_bind, wp_modify, wp_get, wp_ite, wp_pure,
    update_self, hz]
  refine ⟨fun hc => absurd hc (by decide),
    fun _ => ⟨⟨⟨rfl, ?_⟩, List.nodup_cons.mpr ⟨hnot, h.nodup⟩, ?_, ?_, ?_,
      hp.lt.trans (by norm_num)⟩, trivial⟩⟩
  · rw [Bytes.le_setLe (by norm_num; exact h.lt)]
    refine h.chain.congr (fun q hq => sameOn_push hp (h.page q hq).1 ?_)
    rintro rfl
    exact hnot hq
  · intro q hq
    rcases List.mem_cons.mp hq with rfl | hq
    · exact ⟨hp, by omega⟩
    · have := h.page q hq
      exact ⟨this.1, by omega⟩
  · intro q hq
    rcases List.mem_cons.mp hq with rfl | hq
    · exact (refcnt_update hp hp).trans (by simp)
    · refine (refcnt_update hp (h.page q hq).1).trans ?_
      rw [if_neg (fun e : q = p => hnot (e ▸ hq))]
      exact h.count q hq
  · intro q hq hle
    refine (refcnt_update hp hq).trans ?_
    rw [if_neg (by omega)]
    exact h.rest q hq (by omega)

theorem freerangeFrom_spec : ∀ {n p : ℕ} {s : Mach} {l : List ℕ}, Filling s l p →
    (∀ i < n, Page (p + i * PGSIZE)) →
    wp (freerangeFrom n p) (fun _ t => ∃ l', Filling t l' (p + n * PGSIZE) ∧ t.allocs = s.allocs ∧
      l'.length = l.length + n ∧ ∀ q, (q ∈ l ∨ ∃ i < n, q = p + i * PGSIZE) → q ∈ l') (fun _ => False) s
  | 0, p, s, l, h, _ => by
      simp only [freerangeFrom, wp_pure]
      refine ⟨l, by simpa using h, trivial, rfl, ?_⟩
      rintro q (hq | ⟨i, hi, -⟩)
      · exact hq
      · exact absurd hi (Nat.not_lt_zero i)
  | n + 1, p, s, l, h, hpage => by
      simp only [freerangeFrom, wp_bind]
      refine wp_post (kfree_filling h (by simpa using hpage 0 (by omega))) ?_
      rintro _ t ⟨ht, hal⟩
      refine wp_post (freerangeFrom_spec (n := n) ht (fun i hi => ?_)) ?_
      · have := hpage (i + 1) (by omega)
        rwa [show p + PGSIZE + i * PGSIZE = p + (i + 1) * PGSIZE by ring]
      · rintro _ t' ⟨l', h1, h2, h3, h4⟩
        refine ⟨l', by rwa [show p + (n + 1) * PGSIZE = p + PGSIZE + n * PGSIZE by ring], h2.trans hal,
          by rw [h3, List.length_cons]; omega, ?_⟩
        rintro q (hq | ⟨i, hi, rfl⟩)
        · exact h4 q (Or.inl (List.mem_cons_of_mem _ hq))
        · cases i with
          | zero => exact h4 _ (Or.inl (by simp))
          | succ i => exact h4 _ (Or.inr ⟨i, by omega, by ring⟩)

/-- After `kinit` every page is on the free list and nobody owns anything. -/
theorem kinit_spec (hf : s.freelist = 0) (ha : s.allocs = []) :
    wp kinit (fun _ t => ∃ l, Own t l 0 0 ∧ l.length = ramPages ∧ t.allocs = []) (fun _ => False) s := by
  simp only [kinit, wp_bind, wp_modify, freerange]
  have h0 : Filling { s with refcnt := fun _ => 0 } [] (pgroundup kernelEnd) :=
    ⟨hf, List.nodup_nil, fun _ hq => absurd hq List.not_mem_nil,
      fun _ hq => absurd hq List.not_mem_nil, fun _ _ _ => rfl, by rw [hf]; norm_num⟩
  refine wp_post (freerangeFrom_spec h0 (fun i hi => page_iff.mpr ⟨i, hi, rfl⟩)) ?_
  rintro _ t ⟨l, h1, h2, h3, h4⟩
  have hmem : ∀ q, Page q → q ∈ l := fun q hq => by
    obtain ⟨i, hi, rfl⟩ := page_iff.mp hq
    exact h4 _ (Or.inr ⟨i, hi, rfl⟩)
  refine ⟨l, ⟨h1.chain, h1.nodup, fun q hq => (h1.page q hq).1, fun _ _ => rfl, fun q _ hh => ?_,
    fun q hq _ => h1.count q hq, fun q hq hn => absurd (hmem q hq) hn, fun q hq hn =>
    absurd (hmem q hq) hn, fun q hq => ?_, fun q hq => ?_,
    fun q hq => ?_⟩, by simpa [ramPages] using h3, h2.trans ha⟩
  · rw [h2, ha] at hh
    exact absurd hh List.not_mem_nil
  · simp at hq
  · simp at hq
  · simp at hq

end Xv6Cow.Vm

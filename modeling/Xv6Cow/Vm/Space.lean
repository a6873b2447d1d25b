import Xv6Cow.Vm.Walk

/-! # User address spaces

`Space f tf n` says what the map of a process's page table looks like: the user pages are exactly
the first `n` virtual pages, mapped to distinct physical pages, and above them are the trapframe and
the trampoline.  The user mappings enter the account of the allocator as the shared owners
`span f 0 n`; in every specification below `X` and `U` are the owners outside the address space. -/

namespace Xv6Cow.Vm

open Finset
open Function (update update_self update_of_ne)

/-- The virtual page of `TRAPFRAME`. -/
def TFV : ℕ := TRAPFRAME / PGSIZE

/-- The virtual page of `TRAMPOLINE`. -/
def TRV : ℕ := TRAMPOLINE / PGSIZE

/-- The number of pages of a process of `sz` bytes. -/
def npg (sz : ℕ) : ℕ := (sz + (PGSIZE - 1)) / PGSIZE

/-- An entry for a user page. -/
structure UserPte (e : Pte) : Prop where
  valid : has e PTE_V = true
  read : has e PTE_R = true
  excl : ¬ (has e PTE_W = true ∧ has e PTE_COW = true)

/-- The map of a process's page table: `n` user pages, the trapframe `tf` and the trampoline. -/
structure Space [Layout] (f : ℕ → Pte) (tf n : ℕ) : Prop where
  user : ∀ v < n, UserPte (f v)
  trapframe : f TFV = pa2pte tf ||| (PTE_R ||| PTE_W) ||| PTE_V
  trampoline : f TRV = pa2pte Layout.trampoline ||| (PTE_R ||| PTE_X) ||| PTE_V
  unmapped : ∀ v, n ≤ v → v ≠ TFV → v ≠ TRV → f v = 0
  inj : ∀ v w, v < n → w < n → pte2pa (f v) = pte2pa (f w) → v = w

theorem UserPte.leaf {e : Pte} (h : UserPte e) : Leaf e :=
  ⟨h.valid, pteFlags_ne_of_has (g := PTE_R) (by decide) (by decide) h.read⟩

theorem npg_mul (k : ℕ) : npg (k * PGSIZE) = k := by
  unfold npg PGSIZE
  omega

theorem npg_mono {a b : ℕ} (h : a ≤ b) : npg a ≤ npg b := by
  unfold npg PGSIZE
  omega

theorem pgroundup_eq {sz : ℕ} (h : sz < 2 ^ 63) : pgroundup sz = npg sz * PGSIZE := by
  unfold pgroundup npg PGSIZE
  omega

/-- The permissions that callers pass to `uvmalloc`: flags without `PTE_COW`. -/
def XPerm (x : Pte) : Prop := Small x ∧ has x PTE_COW = false

theorem XPerm.small {x : Pte} (hx : XPerm x) : Small (PTE_R ||| PTE_U ||| x) := Small.or (by decide) hx.1

theorem XPerm.userPte {x : Pte} (hx : XPerm x) (p : ℕ) :
    UserPte (pa2pte p ||| (PTE_R ||| PTE_U ||| x) ||| PTE_V) := by
  have hV : has PTE_V PTE_V = true := by decide
  have hR : has (PTE_R ||| PTE_U) PTE_R = true := by decide
  have hC : has (PTE_R ||| PTE_U) PTE_COW = false := by decide
  have hC' : has PTE_V PTE_COW = false := by decide
  refine ⟨?_, ?_, ?_⟩
  · rw [has_or, hV, Bool.or_true]
  · rw [has_or, has_mk (by decide), has_or, hR]
    rfl
  · rintro ⟨-, h⟩
    rw [has_or, has_mk (by decide), has_or, hC, hx.2, hC'] at h
    exact absurd h (by simp)

/-! ### Spans -/

section spans
variable {f g : ℕ → Pte} {v n k : ℕ} {e : Pte}

theorem span_zero : span f v 0 = 0 := rfl

theorem span_last (f : ℕ → Pte) (n : ℕ) : span f 0 (n + 1) = span f 0 n + one (pte2pa (f n)) := by
  unfold span
  rw [Finset.sum_range_succ, Nat.zero_add]

theorem span_add (f : ℕ → Pte) (v m n : ℕ) : span f v (m + n) = span f v m + span f (v + m) n := by
  unfold span
  rw [Finset.sum_range_add]
  simp [Nat.add_assoc]

theorem span_pos (h : v < n) : 0 < span f 0 n (pte2pa (f v)) := by
  unfold span
  rw [Finset.sum_apply]
  refine lt_of_lt_of_le ?_
    (Finset.single_le_sum (f := fun i => one (pte2pa (f (0 + i))) (pte2pa (f v)))
      (fun _ _ => Nat.zero_le _) (mem_range.mpr h))
  simp [one_self]

theorem span_eq_zero {p : ℕ} (h : ∀ v < n, pte2pa (f v) ≠ p) : span f 0 n p = 0 := by
  unfold span
  rw [Finset.sum_apply]
  refine Finset.sum_eq_zero (fun i hi => one_of_ne ?_)
  rw [Nat.zero_add]
  exact Ne.symm (h i (mem_range.mp hi))

theorem span_update (h : v < n) :
    span (update f v e) 0 n + one (pte2pa (f v)) = span f 0 n + one (pte2pa e) := by
  unfold span
  simp only [Nat.zero_add]
  rw [← Finset.add_sum_erase _ _ (mem_range.mpr h),
    ← Finset.add_sum_erase (range n) (fun i => one (pte2pa (f i))) (mem_range.mpr h), update_self]
  have hsame : ∑ i ∈ (range n).erase v, one (pte2pa (update f v e i)) =
      ∑ i ∈ (range n).erase v, one (pte2pa (f i)) :=
    Finset.sum_congr rfl (fun i hi => by rw [update_of_ne (ne_of_mem_erase hi)])
  rw [hsame]
  abel

theorem span_update_of_le (h : n ≤ v) : span (update f v e) 0 n = span f 0 n :=
  span_congr (fun i hi => by rw [update_of_ne (by omega)])

theorem span_update_last {m : ℕ} (h : m ≤ n) :
    span (update f n e) m (n + 1 - m) = span f m (n - m) + one (pte2pa e) := by
  have hold : span (update f n e) m (n - m) = span f m (n - m) :=
    span_congr (fun i hi => by rw [update_of_ne (by omega)])
  rw [show n + 1 - m = n - m + 1 by omega, span_add, hold, Nat.add_sub_cancel' h, span_succ,
    span_zero, update_self, add_zero]

theorem TFV_lt : TFV * PGSIZE < MAXVA := by decide

theorem TRV_eq : TRV = TFV + 1 := by decide

theorem clear_of_lt {m : ℕ} (h : v < m) (k : ℕ) : clear f m k v = f v := if_neg (by omega)

theorem clear_of_ge {m : ℕ} (h : m + n ≤ v) : clear f m n v = f v := if_neg (by omega)

theorem clear_zero (f : ℕ → Pte) (m : ℕ) : clear f m 0 = f := funext (fun _ => if_neg (by omega))

theorem span_mono {m : ℕ} (h : m ≤ n) (p : ℕ) : span f 0 m p ≤ span f 0 n p := by
  have hsplit := span_add f 0 m (n - m)
  rw [Nat.add_sub_cancel' h] at hsplit
  rw [hsplit, Pi.add_apply]
  omega

theorem clear_update {m : ℕ} (h : m ≤ n) (hn : f n = 0) :
    clear (update f n e) m (n + 1 - m) = clear f m (n - m) := by
  funext w
  unfold clear
  rcases eq_or_ne w n with rfl | hw
  · rw [if_pos (by omega), if_neg (by omega), hn]
  · rw [update_of_ne hw]
    by_cases hr : m ≤ w ∧ w < m + (n - m)
    · rw [if_pos (by omega), if_pos hr]
    · rw [if_neg (by omega), if_neg hr]

theorem span_clear (f : ℕ → Pte) (m k : ℕ) : span (clear f m k) 0 m = span f 0 m :=
  span_congr (fun i hi => by rw [clear_of_lt (by omega)])

end spans

/-! ### Shape -/

section shape
variable [Layout] {s t : Mach} {L : List ℕ} {X U : ℕ → ℕ} {a tf n m v : ℕ} {f : ℕ → Pte}

theorem card_le_ramPages {g : ℕ → ℕ} (hp : ∀ v < n, Page (g v))
    (hinj : ∀ v w, v < n → w < n → g v = g w → v = w) : n ≤ ramPages := by
  have hcard : (range n).card ≤ (range ramPages).card := by
    refine Finset.card_le_card_of_injOn (fun v => (g v - pgroundup kernelEnd) / PGSIZE) ?_ ?_
    · intro v hv
      obtain ⟨i, hi, he⟩ := page_iff.mp (hp v (by simpa using hv))
      simp only [he, Nat.add_sub_cancel_left, mul_div_pgsize]
      simpa using hi
    · intro v hv w hw he
      have hv' : v < n := by simpa using hv
      have hw' : w < n := by simpa using hw
      obtain ⟨i, hi, hei⟩ := page_iff.mp (hp v hv')
      obtain ⟨j, hj, hej⟩ := page_iff.mp (hp w hw')
      simp only [hei, hej, Nat.add_sub_cancel_left, mul_div_pgsize] at he
      exact hinj v w hv' hw' (by rw [hei, hej, he])
  simpa using hcard

theorem ramPages_small : ramPages ≤ 2 ^ 15 := by
  have h1 := Layout.kernbase_le
  have h2 := Layout.trampoline_lt
  have h3 : kernelEnd ≤ pgroundup kernelEnd := le_pgroundup Layout.kernelEnd_le
  unfold ramPages
  unfold PHYSTOP KERNBASE at *
  unfold PGSIZE at *
  omega

theorem ramPages_lt : ramPages < TFV := by
  have h1 := ramPages_small
  have h2 : TFV = 67108862 := by decide
  omega

theorem Own.user_page (h : Own s L X (U + span f 0 n)) (hv : v < n) : Page (pte2pa (f v)) := by
  have := span_pos (f := f) hv
  exact h.page (by simp only [Pi.add_apply]; omega)

/-- The user pages are pages of the allocator, so an address space never reaches the trapframe. -/
theorem Space.lt_TFV (hs : Space f tf n) (h : Own s L X (U + span f 0 n)) : n < TFV :=
  lt_of_le_of_lt (card_le_ramPages (fun _ hv => h.user_page hv) hs.inj) ramPages_lt

theorem Space.truncate (hs : Space f tf n) (hm : m ≤ n) (hn : n ≤ TFV) :
    Space (clear f m (n - m)) tf m where
  user v hv := by
    rw [clear_of_lt hv]
    exact hs.user v (by omega)
  trapframe := by
    rw [clear_of_ge (by omega)]
    exact hs.trapframe
  trampoline := by
    have := TRV_eq
    rw [clear_of_ge (by omega)]
    exact hs.trampoline
  unmapped v hv h1 h2 := by
    unfold clear
    split_ifs with h
    · rfl
    · exact hs.unmapped v (by omega) h1 h2
  inj v w hv hw := by
    rw [clear_of_lt hv, clear_of_lt hw]
    exact hs.inj v w (by omega) (by omega)

/-! ### `uvmdealloc` -/

/-- The address space in a state: the map of the table at `a`, its shape, and its counts. -/
structure Uvm (s : Mach) (L : List ℕ) (X U : ℕ → ℕ) (a tf n : ℕ) (f : ℕ → Pte) : Prop where
  tab : Tab s L X (U + span f 0 n) a f
  space : Space f tf n

theorem Uvm.lt_TFV (h : Uvm s L X U a tf n f) : n < TFV := h.space.lt_TFV h.tab.own

theorem Uvm.lt_MAXVA (h : Uvm s L X U a tf n f) (hv : v ≤ n) : v * PGSIZE < MAXVA := by
  have h1 := h.lt_TFV
  have h2 := TFV_lt
  have h3 : v * PGSIZE ≤ TFV * PGSIZE := Nat.mul_le_mul_right _ (by omega)
  omega

theorem unmap_tail (h : Uvm s L X U a tf n f) (hm : m ≤ n) :
    wp (uvmunmap a (m * PGSIZE) (n - m) true) (fun _ t => ∃ L', Uvm t L' X U a tf m (clear f m (n - m)) ∧
      Keeps s t (X + (U + span f 0 m)) ∧ t.allocs = s.allocs ∧
        ∀ q ∈ L', q ∈ L ∨ 0 < span f m (n - m) q) (fun _ => False) s := by
  have hlt := h.lt_TFV
  have htab : Tab s L X (U + span f 0 m + span f m (n - m)) a f := by
    have hsplit := span_add f 0 m (n - m)
    rw [Nat.zero_add, Nat.add_sub_cancel' hm] at hsplit
    rw [add_assoc, ← hsplit]
    exact h.tab
  have hbound : m + (n - m) ≤ MAXVA / PGSIZE := by
    have : MAXVA / PGSIZE = TFV + 2 := by decide
    omega
  simp only [uvmunmap, Nat.mul_mod_left, ne_eq, not_true_eq_false, if_false]
  refine wp_post (uvmunmapFrom_free htab hbound (fun i hi => (h.space.user (m + i) (by omega)).leaf)) ?_
  rintro _ t ⟨L', h1, h2, h3⟩
  refine ⟨L', ⟨?_, h.space.truncate hm (by omega)⟩, h2, h3⟩
  rwa [span_clear]

/-- `uvmdealloc` from `n` pages to the pages of the smaller size. -/
theorem uvmdealloc_spec (oldsz newsz : ℕ) (h : Uvm s L X U a tf (npg oldsz) f) :
    wp (uvmdealloc a oldsz newsz) (fun r t => r = min oldsz newsz ∧ ∃ L',
      Uvm t L' X U a tf (npg r) (clear f (npg r) (npg oldsz - npg r)) ∧
      Keeps s t (X + (U + span f 0 (npg r))) ∧ t.allocs = s.allocs ∧
      ∀ q ∈ L', q ∈ L ∨ 0 < span f (npg r) (npg oldsz - npg r) q) (fun _ => False) s := by
  have hlt := h.lt_TFV
  have hold : oldsz < 2 ^ 63 := by
    have : TFV = 67108862 := by decide
    unfold npg PGSIZE at hlt
    omega
  unfold uvmdealloc
  rw [wp_ite]
  refine ⟨fun hle => ?_, fun hle => ?_⟩
  · rw [wp_pure]
    refine ⟨(Nat.min_eq_left hle).symm, L, ?_, Keeps.refl _ _, rfl, fun _ => .inl⟩
    have hc : clear f (npg oldsz) (npg oldsz - npg oldsz) = f := funext (fun w => if_neg (by omega))
    rwa [hc]
  · have hle' : npg newsz ≤ npg oldsz := npg_mono (by omega)
    have hmin : min oldsz newsz = newsz := Nat.min_eq_right (by omega)
    rw [pgroundup_eq hold, pgroundup_eq (show newsz < 2 ^ 63 by omega)]
    simp only [wp_bind, wp_ite, wp_pure, hmin, true_and]
    refine ⟨fun hlt' => ?_, fun hge => ?_⟩
    · rw [← Nat.sub_mul, mul_div_pgsize]
      exact unmap_tail h hle'
    · have hn : npg newsz = npg oldsz := by
        have : 0 < PGSIZE := by decide
        have := Nat.le_of_mul_le_mul_right (Nat.not_lt.mp hge) this
        omega
      have hc : clear f (npg newsz) (npg oldsz - npg newsz) = f := funext (fun w => if_neg (by omega))
      refine ⟨L, ?_, Keeps.refl _ _, fun _ => .inl⟩
      rw [hc, hn]
      exact h

/-! ### `uvmalloc` -/

theorem pte2pa_map {p : ℕ} {perm : Pte} (hp : Page p) (hx : Small perm) :
    pte2pa (pa2pte p ||| perm ||| PTE_V) = p := by
  rw [pte2pa_or (by decide), pte2pa_mk hp.facts.1 hp.lt hx]

theorem Own.retag {p : ℕ} (h : Own s L (X + one p) U) : Own s L X (U + one p) := ⟨h.chain, h.acct.retag⟩

/-- A page that was mapped at the end of the address space becomes a user page. -/
theorem Uvm.grow {p : ℕ} {e : Pte} (h : Tab s L (X + one p) (U + span f 0 n) a (update f n e))
    (hs : Space f tf n) (hn : n < TFV) (he : UserPte e) (hp : pte2pa e = p) :
    Uvm s L X U a tf (n + 1) (update f n e) := by
  have hTR := TRV_eq
  have hfresh := h.own.acct.excl p (by simp [one_self])
  simp only [Pi.add_apply, one_self] at hfresh
  have hspan : span (update f n e) 0 (n + 1) = span f 0 n + one p := by
    rw [span_last, span_update_of_le le_rfl, update_self, hp]
  refine ⟨⟨?_, h.wf, h.map⟩, ?_, ?_, ?_, ?_, ?_⟩
  · rw [hspan, ← add_assoc]
    apply Own.retag
    rw [add_right_comm]
    exact h.own
  · intro v hv
    rcases Nat.lt_succ_iff_lt_or_eq.mp hv with hv | rfl
    · rw [update_of_ne (by omega)]
      exact hs.user v hv
    · rw [update_self]
      exact he
  · rw [update_of_ne (by omega)]
    exact hs.trapframe
  · rw [update_of_ne (by omega)]
    exact hs.trampoline
  · intro v hv h1 h2
    rw [update_of_ne (by omega)]
    exact hs.unmapped v (by omega) h1 h2
  · -- the new page was not mapped before
    have hne : ∀ v < n, pte2pa (f v) ≠ p := fun v hv e => by
      have := span_pos (f := f) hv
      rw [e] at this
      omega
    intro v w hv hw hvw
    rcases Nat.lt_succ_iff_lt_or_eq.mp hv with hv | rfl <;>
      rcases Nat.lt_succ_iff_lt_or_eq.mp hw with hw | rfl
    · rw [update_of_ne (by omega), update_of_ne (by omega)] at hvw
      exact hs.inj v w hv hw hvw
    · rw [update_of_ne (by omega), update_self, hp] at hvw
      exact absurd hvw (hne v hv)
    · rw [update_self, update_of_ne (by omega), hp] at hvw
      exact absurd hvw.symm (hne w hw)
    · rfl

/-- The pages that `uvmalloc` added: taken from the free list and not written. -/
structure Grown (s t : Mach) (L L' : List ℕ) (f f' : ℕ → Pte) (k n : ℕ) (perm : Pte) : Prop where
  old : ∀ v, v < k ∨ k + n ≤ v → f' v = f v
  new : ∀ v, k ≤ v → v < k + n → f' v = pa2pte (pte2pa (f' v)) ||| perm ||| PTE_V ∧
    pte2pa (f' v) ∈ L ∧ SameOn s.mem t.mem (pte2pa (f' v))
  first : 0 < n → L.head? = some (pte2pa (f' k))
  drawn : Drawn s t L L'

theorem uvmalloc_undo {k₀ k : ℕ} (h : Uvm s L X U a tf k f) (hk : k₀ ≤ k) :
    wp (uvmdealloc a (k * PGSIZE) (k₀ * PGSIZE))
      (fun _ t => ∃ L', Uvm t L' X U a tf k₀ (clear f k₀ (k - k₀)) ∧
        Keeps s t (X + (U + span f 0 k₀)) ∧ t.allocs = s.allocs ∧
        ∀ q ∈ L', q ∈ L ∨ 0 < span f k₀ (k - k₀) q) (fun _ => False) s := by
  have hmin : min (k * PGSIZE) (k₀ * PGSIZE) = k₀ * PGSIZE :=
    Nat.min_eq_right (Nat.mul_le_mul_right _ hk)
  have hspec := uvmdealloc_spec (k * PGSIZE) (k₀ * PGSIZE) (h := by rwa [npg_mul])
  simp only [npg_mul] at hspec
  refine wp_post hspec ?_
  rintro r t ⟨rfl, L', h1, h2, h3⟩
  rw [hmin, npg_mul] at h1 h2 h3
  exact ⟨L', h1, h2, h3⟩

/-- What the loop of `uvmalloc` leaves: it adds `n` pages to the `k` that are there, or it undoes
the growth since `k₀`. -/
def Alloced (s : Mach) (L : List ℕ) (X U : ℕ → ℕ) (a tf k₀ k n : ℕ) (f : ℕ → Pte) (perm : Pte)
    (ok : Bool) (t : Mach) : Prop :=
  s.allocs <:+ t.allocs ∧
    ((ok = true ∧ ∃ L' f', Uvm t L' X U a tf (k + n) f' ∧ Grown s t L L' f f' k n perm ∧
        Frame s.mem t.mem (X + (U + span f 0 k)) ∧ L.length ≤ L'.length + 3 * n ∧
        (0 ∈ t.allocs → 0 ∈ s.allocs)) ∨
      (ok = false ∧ (∃ L', Uvm t L' X U a tf k₀ (clear f k₀ (k - k₀)) ∧
          ∀ q ∈ L', q ∈ L ∨ 0 < span f k₀ (k - k₀) q) ∧ 0 ∈ t.allocs ∧
        Frame s.mem t.mem (X + (U + span f 0 k₀)) ∧ L.length < 3 * n))

/-- Giving up without a change since `s` but to the free list. -/
theorem uvmalloc_giveUp {k₀ k n : ℕ} {perm : Pte} {L' : List ℕ} (h : Uvm t L' X U a tf k f) (hk : k₀ ≤ k)
    (hf : Frame s.mem t.mem (X + (U + span f 0 k))) (hh : s.allocs <:+ t.allocs) (h0 : 0 ∈ t.allocs)
    (hL : L.length < 3 * n) (hsub : ∀ q ∈ L', q ∈ L) :
    wp (do
        let _ ← uvmdealloc a (k * PGSIZE) (k₀ * PGSIZE)
        pure false)
      (Alloced s L X U a tf k₀ k n f perm) (fun _ => False) t := by
  rw [wp_bind]
  refine wp_post (uvmalloc_undo h hk) ?_
  rintro _ t' ⟨L'', g1, g2, g3, g4⟩
  rw [wp_pure]
  refine ⟨by rwa [g3], Or.inr ⟨rfl, ⟨L'', g1, fun q hq => (g4 q hq).imp_left (hsub q)⟩, by rwa [g3], fun q hq y y1 y2 => ?_, hL⟩⟩
  have hle : span f 0 k₀ q ≤ span f 0 k q := span_mono hk q
  simp only [Pi.add_apply] at hq
  rw [g2.frame q (by simp only [Pi.add_apply]; omega) y y1 y2,
    hf q (by simp only [Pi.add_apply]; omega) y y1 y2]

/-- A round of `uvmalloc` that maps the first free page `p`, and the rounds after it. -/
theorem Alloced.cons {s₁ s₂ : Mach} {k₀ k n p : ℕ} {L₁ L₂ : List ℕ} {x : Pte} {ok : Bool}
    (hp : Page p) (hx : XPerm x) (hk : k₀ ≤ k) (hk0 : f k = 0) (hm : s₁.mem = s.mem)
    (hal : s₁.allocs = p :: s.allocs) (hkeep : Keeps s₁ s₂ (X + one p + (U + span f 0 k)))
    (hmap : Mapped s₁ s₂ L₁ L₂ (X + one p) (U + span f 0 k) a f k
      (pa2pte p ||| (PTE_R ||| PTE_U ||| x) ||| PTE_V))
    (h : Alloced s₂ L₂ X U a tf k₀ (k + 1) n
      (update f k (pa2pte p ||| (PTE_R ||| PTE_U ||| x) ||| PTE_V)) (PTE_R ||| PTE_U ||| x) ok t) :
    Alloced s (p :: L₁) X U a tf k₀ k (n + 1) f (PTE_R ||| PTE_U ||| x) ok t := by
  have hpa : pte2pa (pa2pte p ||| (PTE_R ||| PTE_U ||| x) ||| PTE_V) = p := pte2pa_map hp hx.small
  have hspan : span (update f k (pa2pte p ||| (PTE_R ||| PTE_U ||| x) ||| PTE_V)) 0 (k + 1) =
      span f 0 k + one p := by
    rw [span_last, span_update_of_le le_rfl, update_self, hpa]
  have hgap : gap s₁.mem 2 a k ≤ 2 := gap_le
  have htaken := hmap.taken
  have hhist : s.allocs <:+ s₂.allocs := by
    refine List.IsSuffix.trans ?_ hkeep.hist
    rw [hal]
    exact List.suffix_cons _ _
  have hdrawn : Drawn s s₂ (p :: L₁) L₂ := fun q hq => by
    obtain ⟨h1, h2⟩ := hmap.drawn q hq
    exact ⟨List.mem_cons_of_mem _ h1, by rwa [← hm]⟩
  obtain ⟨hh, (⟨rfl, L', f', u1, u2, u3, u4, u5⟩ | ⟨rfl, u1, u2, u3, u4⟩)⟩ := h
  · have hfk : f' k = pa2pte p ||| (PTE_R ||| PTE_U ||| x) ||| PTE_V := by
      rw [u2.old k (by omega), update_self]
    refine ⟨hhist.trans hh, Or.inl ⟨rfl, L', f', ?_, ⟨fun v hv => ?_, fun v h1 h2 => ?_, fun _ => ?_,
      hdrawn.trans u2.drawn⟩, fun q hq y y1 y2 => ?_, ?_, fun h0 => ?_⟩⟩
    · rwa [show k + (n + 1) = k + 1 + n by omega]
    · rw [u2.old v (by omega), update_of_ne (by omega)]
    · rcases Nat.eq_or_lt_of_le h1 with rfl | h1
      · rw [hfk, hpa]
        refine ⟨rfl, List.mem_cons_self, fun y y1 y2 => ?_⟩
        rw [u3 p (by rw [hspan]; simp [one_self]) y y1 y2,
          hkeep.frame p (by simp [one_self]) y y1 y2, hm]
      · obtain ⟨w1, w2, w3⟩ := u2.new v (by omega) (by omega)
        obtain ⟨w4, w5⟩ := hdrawn _ w2
        exact ⟨w1, w4, fun y y1 y2 => (w3 y y1 y2).trans (w5 y y1 y2)⟩
    · rw [hfk, hpa]
      rfl
    · simp only [Pi.add_apply] at hq
      rw [u3 q (by rw [hspan]; simp only [Pi.add_apply]; omega) y y1 y2,
        hkeep.frame q (by simp only [Pi.add_apply]; omega) y y1 y2, hm]
    · rw [List.length_cons]
      omega
    · have h1 := hmap.full (u5 h0)
      rw [hal] at h1
      exact List.mem_of_ne_of_mem hp.ne_zero.symm h1
  · refine ⟨hhist.trans hh, Or.inr ⟨rfl, ?_, u2, fun q hq y y1 y2 => ?_, ?_⟩⟩
    · obtain ⟨L', u1, u1'⟩ := u1
      rw [clear_update hk hk0] at u1
      refine ⟨L', u1, fun q hq => ?_⟩
      have hq := u1' q hq
      rw [span_update_last hk, hpa, Pi.add_apply, one_apply] at hq
      grind [hdrawn q]
    · simp only [Pi.add_apply] at hq
      have hle : span f 0 k₀ q ≤ span f 0 k q := span_mono hk q
      rw [u3 q (by rw [span_update_of_le hk]; simp only [Pi.add_apply]; omega) y y1 y2,
        hkeep.frame q (by simp only [Pi.add_apply]; omega) y y1 y2, hm]
    · rw [List.length_cons]
      omega

theorem uvmallocFrom_spec {k₀ k n : ℕ} {x : Pte} (hx : XPerm x) (h : Uvm s L X U a tf k f)
    (hk : k₀ ≤ k) : wp (uvmallocFrom a (k₀ * PGSIZE) x n (k * PGSIZE))
      (Alloced s L X U a tf k₀ k n f (PTE_R ||| PTE_U ||| x)) (fun _ => False) s := by
  induction n generalizing s L k f with
  | zero =>
      simp only [uvmallocFrom, wp_pure]
      refine ⟨List.suffix_refl _, Or.inl ⟨rfl, L, f, h,
        ⟨fun _ _ => rfl, fun v h1 h2 => ?_, fun h0 => ?_, Drawn.refl _ _⟩, Frame.refl _ _, le_rfl, id⟩⟩
      · omega
      · exact absurd h0 (lt_irrefl 0)
  | succ n ih =>
      have hlt := h.lt_TFV
      have hTR := TRV_eq
      have hk0 : f k = 0 := h.space.unmapped k le_rfl (by omega) (by omega)
      simp only [uvmallocFrom, wp_bind]
      refine wp_post (kalloc_spec h.tab.own) ?_
      rintro p t ⟨hm, hal, (⟨rfl, rfl, hown⟩ | ⟨L1, rfl, hown⟩)⟩
      · -- no page
        have hu : Uvm t [] X U a tf k f := ⟨h.tab.congr hown (fun _ _ _ _ _ => by rw [hm]), h.space⟩
        rw [if_pos rfl]
        refine uvmalloc_giveUp hu hk (by rw [hm]; exact Frame.refl _ _) ?_ ?_ ?_ (fun _ => id)
        · rw [hal]
          exact List.suffix_cons _ _
        · rw [hal]
          exact List.mem_cons_self
        · rw [List.length_nil]
          omega
      · have hp : Page p := hown.page (by simp [one_self])
        have htab : Tab t L1 (X + one p) (U + span f 0 k) a f := by
          refine h.tab.congr ?_ (fun _ _ _ _ _ => by rw [hm])
          rwa [add_right_comm]
        simp only [if_neg hp.ne_zero, wp_bind]
        refine wp_post (mappages_spec _ _ htab (h.lt_MAXVA le_rfl) (by rw [hk0, has_zero])) ?_
        rintro r t' ⟨hkeep, (⟨rfl, L2, hmap⟩ | ⟨rfl, hno⟩)⟩
        · have hgrow := Uvm.grow hmap.tab h.space hlt (hx.userPte p) (pte2pa_map hp hx.small)
          simp only [ne_eq, not_true_eq_false, if_false]
          rw [show k * PGSIZE + PGSIZE = (k + 1) * PGSIZE by ring]
          exact wp_post (ih hgrow (by omega)) (fun _ _ hr => hr.cons hp hx hk hk0 hm hal hkeep hmap)
        · -- no page for the page table
          have hown' : Own t' [] (X + nodes t'.mem 2 a + one p) (U + span f 0 k) := by
            rw [add_right_comm]
            exact hno.tab.own
          rw [if_pos (by decide), wp_bind]
          refine wp_post (kfree_excl hown') ?_
          rintro _ t₁ ⟨v1, v2, v3⟩
          have hu : Uvm t₁ [p] X U a tf k f :=
            ⟨hno.tab.congr v1 (fun q hq => v2 q (by simp only [Pi.add_apply]; omega)), h.space⟩
          have hshort := hno.short
          have hgap : gap t.mem 2 a k ≤ 2 := gap_le
          refine uvmalloc_giveUp hu hk (fun q hq y y1 y2 => ?_) ?_ (by rw [v3]; exact hno.failed) ?_
            (by simp)
          · simp only [Pi.add_apply] at hq
            rw [v2 q (by simp only [Pi.add_apply]; omega) y y1 y2,
              hkeep.frame q (by simp only [Pi.add_apply]; omega) y y1 y2, hm]
          · rw [v3]
            refine List.IsSuffix.trans ?_ hkeep.hist
            rw [hal]
            exact List.suffix_cons _ _
          · rw [List.length_cons]
            omega

theorem Uvm.sz_lt {sz : ℕ} (h : Uvm s L X U a tf (npg sz) f) : sz < 2 ^ 38 := by
  have hlt := h.lt_TFV
  have : TFV = 67108862 := by decide
  unfold npg PGSIZE at hlt
  omega

/-- `uvmalloc`: the address space grows to `newsz`, or it is what it was and 0 is returned. -/
theorem uvmalloc_spec (oldsz newsz : ℕ) {x : Pte} (hx : XPerm x) (h : Uvm s L X U a tf (npg oldsz) f) :
    wp (uvmalloc a oldsz newsz x) (fun r t => s.allocs <:+ t.allocs ∧
      ((newsz < oldsz ∧ r = oldsz ∧ t = s) ∨
      (oldsz ≤ newsz ∧ r = newsz ∧ ∃ L' f', Uvm t L' X U a tf (npg newsz) f' ∧
        Grown s t L L' f f' (npg oldsz) (npg newsz - npg oldsz) (PTE_R ||| PTE_U ||| x) ∧
        Frame s.mem t.mem (X + (U + span f 0 (npg oldsz))) ∧ L.length ≤ L'.length +
          3 * (npg newsz - npg oldsz) ∧
        (0 ∈ t.allocs → 0 ∈ s.allocs)) ∨
      (oldsz ≤ newsz ∧ r = 0 ∧ (∃ L', Uvm t L' X U a tf (npg oldsz) f ∧ L' ⊆ L) ∧ 0 ∈ t.allocs ∧
        Frame s.mem t.mem (X + (U + span f 0 (npg oldsz))) ∧ L.length < 3 * (npg newsz - npg oldsz))))
      (fun _ => False) s := by
  have hsz := h.sz_lt
  unfold uvmalloc
  rw [wp_ite]
  refine ⟨fun hlt => ?_, fun hle => ?_⟩
  · rw [wp_pure]
    exact ⟨List.suffix_refl _, Or.inl ⟨hlt, rfl, rfl⟩⟩
  · have hn : (newsz - npg oldsz * PGSIZE + (PGSIZE - 1)) / PGSIZE = npg newsz - npg oldsz := by
      unfold npg PGSIZE
      omega
    have hadd : npg oldsz + (npg newsz - npg oldsz) = npg newsz :=
      Nat.add_sub_cancel' (npg_mono (by omega))
    simp only [wp_bind, wp_pure]
    rw [pgroundup_eq (show oldsz < 2 ^ 63 by omega), hn]
    refine wp_post (uvmallocFrom_spec hx h le_rfl) ?_
    rintro ok t ⟨hh, (⟨rfl, L', f', u1, u2, u3, u4, u5⟩ | ⟨rfl, ⟨L', u1, hL⟩, u2, u3, u4⟩)⟩
    · rw [hadd] at u1
      exact ⟨hh, Or.inr (Or.inl ⟨by omega, rfl, L', f', u1, u2, u3, u4, u5⟩)⟩
    · rw [Nat.sub_self, clear_zero] at u1
      refine ⟨hh, Or.inr (Or.inr ⟨by omega, rfl, ⟨L', u1, fun q hq => ?_⟩, u2, u3, u4⟩)⟩
      simpa [span_zero] using hL q hq

/-! ### `uvmfree` -/

theorem Tab.unmapped (h : Tab s L X U a f) (hf : ∀ v, has (f v) PTE_V = false) : Unmapped s.mem 2 a := by
  intro w
  have hlt : w % NVPN < NVPN := Nat.mod_lt _ (by decide)
  have hsame : Same 2 w (w % NVPN) := by
    intro j hj
    unfold idx NVPN
    obtain rfl | rfl | rfl : j = 0 ∨ j = 1 ∨ j = 2 := by omega
    all_goals omega
  rw [look_same hsame, h.look hlt]
  exact hf _

/-- `uvmfree` on a table that maps the pages of `[0, sz)` and nothing else. -/
theorem uvmfree_spec {sz : ℕ} (h : Tab s L X (U + span f 0 (npg sz)) a f) (hsz : sz < 2 ^ 38)
    (hf : ∀ v < npg sz, Leaf (f v)) (hrest : ∀ v, npg sz ≤ v → has (f v) PTE_V = false) :
    wp (uvmfree a sz) (fun _ t => Freed s t X U) (fun _ => False) s := by
  have hbound : 0 + npg sz ≤ MAXVA / PGSIZE := by
    unfold npg MAXVA PGSIZE
    omega
  have hwalk : ∀ {t : Mach} {L' : List ℕ} {g : ℕ → Pte}, Tab t L' X U a g →
      (∀ v, has (g v) PTE_V = false) → Frame s.mem t.mem (X + U) → t.allocs = s.allocs →
      wp (freewalk 3 a) (fun _ t => Freed s t X U) (fun _ => False) t := by
    intro t L' g ht hg hfr hal
    refine wp_post (freewalk_spec ht.own ht.wf (ht.unmapped hg)) ?_
    rintro _ t' ⟨L'', g1, g2, g3⟩
    exact ⟨L'', g1, hfr.trans g2, g3.trans hal⟩
  simp only [uvmfree, wp_bind, wp_ite]
  refine ⟨fun hpos => ?_, fun hz => ?_⟩
  · have hloop := uvmunmapFrom_free h hbound (fun i hi => by rw [Nat.zero_add]; exact hf i hi)
    rw [pgroundup_eq (show sz < 2 ^ 63 by omega), mul_div_pgsize]
    simp only [uvmunmap, Nat.zero_mod, ne_eq, not_true_eq_false, if_false]
    rw [Nat.zero_mul] at hloop
    refine wp_post hloop ?_
    rintro _ t ⟨L', g1, g2, g3, -⟩
    refine hwalk g1 (fun v => ?_) g2.frame g3
    unfold clear
    split_ifs with hv
    · exact has_zero
    · exact hrest v (by omega)
  · have hz : npg sz = 0 := by
      unfold npg PGSIZE
      omega
    rw [hz, span_zero, add_zero] at h
    exact hwalk h (fun v => hrest v (by omega)) (Frame.refl _ _) rfl

end shape

end Xv6Cow.Vm

import Xv6Cow.Vm.Walk

/-! # `copyinstr`, byte by byte

The two loops of `copyinstr` on any page table whatever.  `copyinstrReads` is the function with the
physical addresses it loads from, one byte after the other; forgetting them gives `copyinstr`
(`copyinstr_eq`).  It does what a loop over single bytes does that asks for each of them whether
user code may access it (`bytewise`), so pages play no part in what it finds. -/

namespace Xv6Cow.Vm

/-! ### What user code may access -/

/-- The last-level entry for the address `va` in the page table at `a`. -/
def leaf (m : Bytes) (a va : ℕ) : Pte := pteAt m (slot m 2 a (va / PGSIZE))

/-- The address is below `MAXVA`, on a page mapped with `PTE_V` and `PTE_U`. -/
def Accessible (m : Bytes) (a va : ℕ) : Prop :=
  va < MAXVA ∧ slot m 2 a (va / PGSIZE) ≠ 0 ∧ has (leaf m a va) PTE_V = true ∧
    has (leaf m a va) PTE_U = true

instance (m : Bytes) (a va : ℕ) : Decidable (Accessible m a va) :=
  inferInstanceAs (Decidable (_ ∧ _ ∧ _ ∧ _))

/-- The physical address behind `va`. -/
def phys (m : Bytes) (a va : ℕ) : ℕ := pte2pa (leaf m a va) + va % PGSIZE

/-- The pages that user code may access are not at the null address. -/
def NonNull (m : Bytes) (a : ℕ) : Prop := ∀ va, Accessible m a va → pte2pa (leaf m a va) ≠ 0

/-- The `k + 1` bytes from `srcva` are a string: accessible, nonzero but for the last, which is
zero. -/
structure IsString (m : Bytes) (a srcva k : ℕ) : Prop where
  accessible : ∀ i ≤ k, Accessible m a (srcva + i)
  nonzero : ∀ i < k, m (phys m a (srcva + i)) ≠ 0
  zero : m (phys m a (srcva + k)) = 0

section walkaddr
variable {s : Mach} {a va : ℕ}

theorem walkaddr_eq : walkaddr a va s =
    .ok (if Accessible s.mem a va then pte2pa (leaf s.mem a va) else 0, s) := by
  have hwp : wp (walkaddr a va) (fun r t => r =
      (if Accessible s.mem a va then pte2pa (leaf s.mem a va) else 0) ∧ t = s) (fun _ => False) s := by
    unfold walkaddr
    by_cases hlt : va < MAXVA
    · rw [if_neg (Nat.not_le.mpr hlt), wp_bind, wp_walk_false hlt]
      by_cases hs : slot s.mem 2 a (va / PGSIZE) = 0
      · rw [if_pos hs, wp_pure, if_neg (fun h => h.2.1 hs)]
        exact ⟨rfl, rfl⟩
      · rw [if_neg hs, wp_bind, wp_ldpte]
        cases hV : has (leaf s.mem a va) PTE_V with
        | false =>
            rw [if_pos (by unfold leaf at hV; rw [hV]; rfl), wp_pure,
              if_neg (fun h => absurd (hV.symm.trans h.2.2.1) Bool.false_ne_true)]
            exact ⟨rfl, rfl⟩
        | true =>
            rw [if_neg (by unfold leaf at hV; rw [hV]; exact Bool.false_ne_true)]
            cases hU : has (leaf s.mem a va) PTE_U with
            | false =>
                rw [if_pos (by unfold leaf at hU; rw [hU]; rfl), wp_pure,
                  if_neg (fun h => absurd (hU.symm.trans h.2.2.2) Bool.false_ne_true)]
                exact ⟨rfl, rfl⟩
            | true =>
                rw [if_neg (by unfold leaf at hU; rw [hU]; exact Bool.false_ne_true), wp_pure,
                  if_pos ⟨hlt, hs, hV, hU⟩]
                exact ⟨rfl, rfl⟩
    · rw [if_pos (Nat.not_lt.mp hlt), wp_pure, if_neg (fun h => hlt h.1)]
      exact ⟨rfl, rfl⟩
  obtain ⟨r, t, he, rfl, rfl⟩ := wp_returns hwp
  exact he

end walkaddr

/-! ### The loops -/

/-- The inner loop of `copyinstr`, with `n` bytes to go from `p`: what it stores, where it reads,
and `got_null`. -/
def copyString (m : Bytes) : (n p : ℕ) → List UInt8 × List ℕ × Bool
  | 0, _ => ([], [], false)
  | n + 1, p =>
      if m p = 0 then ([0], [p], true)
      else
        let (bs, reads, gotNull) := copyString m n (p + 1)
        (m p :: bs, p :: reads, gotNull)

/-- The outer loop of `copyinstr`: the return value, what it stores at `dst`, and where it reads.
Each round takes a byte of `max` at least, so `max` rounds suffice. -/
def copyinstrReadsFrom (pagetable : ℕ) : (fuel srcva max : ℕ) → VmM (ℤ × List UInt8 × List ℕ)
  | _, _, 0 => pure (-1, [], [])
  | 0, _, _ => pure (-1, [], [])
  | fuel + 1, srcva, max => do
      let va0 := pgrounddown srcva
      let pa0 ← walkaddr pagetable va0
      if pa0 = 0 then pure (-1, [], [])
      else do
        let n := min (PGSIZE - (srcva - va0)) max
        let s ← get
        let (bs, reads, gotNull) := copyString s.mem n (pa0 + (srcva - va0))
        if gotNull then pure (0, bs, reads)
        else do
          let (r, bs', reads') ← copyinstrReadsFrom pagetable fuel ((va0 + PGSIZE) % 2 ^ 64) (max - n)
          pure (r, bs ++ bs', reads ++ reads')

/-- `copyinstr`, with the addresses it reads. -/
def copyinstrReads (pagetable srcva max : ℕ) : VmM (ℤ × List UInt8 × List ℕ) :=
  copyinstrReadsFrom pagetable max srcva max

/-! ### Bytes instead of pages -/

/-- A loop over single bytes, as if each had a page of its own. -/
def bytewise (m : Bytes) (a : ℕ) : (max va : ℕ) → ℤ × List UInt8 × List ℕ
  | 0, _ => (-1, [], [])
  | max + 1, va =>
      if ¬ Accessible m a va then (-1, [], [])
      else if m (phys m a va) = 0 then (0, [0], [phys m a va])
      else
        let (r, dst, reads) := bytewise m a max (va + 1)
        (r, m (phys m a va) :: dst, phys m a va :: reads)

section pages
variable {s : Mach} {m : Bytes} {a srcva max fuel n k va : ℕ}

theorem same_page {va' : ℕ} (h : va' / PGSIZE = va / PGSIZE) :
    (Accessible m a va' ↔ Accessible m a va) ∧ leaf m a va' = leaf m a va := by
  have hleaf : leaf m a va' = leaf m a va := by
    unfold leaf
    rw [h]
  have hlt : va' < MAXVA ↔ va < MAXVA := by
    unfold MAXVA PGSIZE at *
    omega
  refine ⟨?_, hleaf⟩
  unfold Accessible
  rw [hleaf, h, hlt]

/-- The inner loop does the next `n` bytes, if they are on one page. -/
theorem bytewise_page (hacc : Accessible m a va) (hn : va % PGSIZE + n ≤ PGSIZE) :
    bytewise m a (n + k) va =
      if (copyString m n (phys m a va)).2.2 then
        (0, (copyString m n (phys m a va)).1, (copyString m n (phys m a va)).2.1)
      else ((bytewise m a k (va + n)).1, (copyString m n (phys m a va)).1 ++
        (bytewise m a k (va + n)).2.1, (copyString m n (phys m a va)).2.1 ++
          (bytewise m a k (va + n)).2.2) := by
  induction n generalizing va with
  | zero =>
      rw [Nat.zero_add]
      rfl
  | succ n ih =>
      rw [Nat.succ_add, bytewise, copyString, if_neg (not_not.mpr hacc)]
      by_cases h0 : m (phys m a va) = 0
      · rw [if_pos h0, if_pos h0]
        rfl
      · rw [if_neg h0, if_neg h0]
        rcases Nat.eq_zero_or_pos n with rfl | hpos
        · rw [Nat.zero_add]
          rfl
        · -- the next byte is on the same page
          have hpage : (va + 1) / PGSIZE = va / PGSIZE ∧ (va + 1) % PGSIZE = va % PGSIZE + 1 := by
            unfold PGSIZE at *
            omega
          have hphys : phys m a (va + 1) = phys m a va + 1 := by
            unfold phys
            rw [(same_page hpage.1).2, hpage.2, Nat.add_assoc]
          rw [ih ((same_page hpage.1).1.mpr hacc) (by omega), hphys, show va + (n + 1) = va + 1 +
            n by omega]
          dsimp only
          split_ifs <;> rfl

theorem copyinstrReadsFrom_eq (hnn : NonNull s.mem a) (hf : max ≤ fuel) :
    copyinstrReadsFrom a fuel srcva max s = .ok (bytewise s.mem a max srcva, s) := by
  induction fuel generalizing srcva max with
  | zero =>
      obtain rfl : max = 0 := by omega
      rfl
  | succ fuel ih =>
      cases max with
      | zero => rfl
      | succ max =>
          have hround : pgrounddown srcva ≤ srcva ∧ srcva < pgrounddown srcva + PGSIZE ∧
              srcva / PGSIZE = pgrounddown srcva / PGSIZE ∧
              srcva % PGSIZE = srcva - pgrounddown srcva := by
            unfold pgrounddown PGSIZE
            omega
          obtain ⟨hacc', hleaf⟩ := same_page (m := s.mem) (a := a) hround.2.2.1
          have hpa : phys s.mem a srcva = pte2pa (leaf s.mem a (pgrounddown srcva)) +
              (srcva - pgrounddown srcva) := by
            rw [phys, hleaf, hround.2.2.2]
          simp only [copyinstrReadsFrom, bind, StateT.bind, walkaddr_eq, Except.bind]
          by_cases hacc : Accessible s.mem a (pgrounddown srcva)
          · rw [if_pos hacc, if_neg (hnn _ hacc), ← hpa]
            set n := min (PGSIZE - (srcva - pgrounddown srcva)) (max + 1) with hn
            have hlt := hacc.1
            have hmod : (pgrounddown srcva + PGSIZE) % 2 ^ 64 = pgrounddown srcva + PGSIZE := by
              unfold MAXVA PGSIZE at *
              omega
            have hnext : bytewise s.mem a (max + 1 - n) (srcva + n) =
                bytewise s.mem a (max + 1 - n) (pgrounddown srcva + PGSIZE) := by
              rcases Nat.eq_zero_or_pos (max + 1 - n) with h0 | hpos
              · rw [h0]
                rfl
              · rw [show srcva + n = pgrounddown srcva + PGSIZE by omega]
            have hpage := bytewise_page (n := n) (k := max + 1 - n) (hacc'.mpr hacc) (by omega)
            rw [show n + (max + 1 - n) = max + 1 by omega, hnext] at hpage
            rw [hpage, hmod]
            show (if _ then _ else _ : VmM _) s = _
            split_ifs
            · rfl
            · simp only [bind, StateT.bind, ih (show max + 1 - n ≤ fuel by omega), Except.bind]
              rfl
          · rw [if_neg hacc, if_pos rfl, bytewise, if_pos (fun h => hacc (hacc'.mp h))]
            rfl

end pages

/-! ### Forgetting where it reads -/

section forget
variable {s : Mach} {a srcva max fuel : ℕ} {E : Panic → Prop}

theorem read_succ (m : Bytes) (p n : ℕ) : m.read p (n + 1) = m p :: m.read (p + 1) n := by
  unfold Bytes.read
  rw [List.range_succ_eq_map, List.map_cons, List.map_map]
  simp [Nat.add_assoc, Nat.add_comm 1]

/-- The inner loop stores the bytes up to the first zero, or all of them. -/
theorem copyString_read (m : Bytes) (n p : ℕ) :
    (copyString m n p).1 = (if 0 ∈ m.read p n then (m.read p n).takeWhile (fun b => b != 0) ++ [0]
      else m.read p n) ∧ ((copyString m n p).2.2 = true ↔ 0 ∈ m.read p n) := by
  induction n generalizing p with
  | zero => simp [copyString, Bytes.read]
  | succ n ih =>
      obtain ⟨hbytes, hgot⟩ := ih (p + 1)
      rw [copyString, read_succ]
      by_cases h0 : m p = 0
      · simp [h0]
      · have hmem : 0 ∈ m p :: m.read (p + 1) n ↔ 0 ∈ m.read (p + 1) n := by
          rw [List.mem_cons]
          exact ⟨fun h => h.resolve_left fun h => h0 h.symm, Or.inr⟩
        rw [if_neg h0]
        refine ⟨?_, hgot.trans hmem.symm⟩
        dsimp only
        rw [hbytes]
        by_cases hz : 0 ∈ m.read (p + 1) n
        · rw [if_pos hz, if_pos (hmem.mpr hz), List.takeWhile_cons, if_pos (bne_iff_ne.mpr h0)]
          rfl
        · rw [if_neg hz, if_neg (fun h => hz (hmem.mp h))]

theorem wp_copyinstrFrom_reads {Q : ℤ × List UInt8 → Mach → Prop} :
    wp (copyinstrFrom a fuel srcva max) Q E s ↔
      wp (copyinstrReadsFrom a fuel srcva max) (fun x t => Q (x.1, x.2.1) t) E s := by
  induction fuel generalizing srcva max Q with
  | zero => cases max <;> simp [copyinstrFrom, copyinstrReadsFrom]
  | succ fuel ih =>
      cases max with
      | zero => simp [copyinstrFrom, copyinstrReadsFrom]
      | succ max =>
          simp only [copyinstrFrom, copyinstrReadsFrom]
          rw [wp_bind, wp_bind, wp_iff_of_ok walkaddr_eq, wp_iff_of_ok walkaddr_eq]
          by_cases hacc : Accessible s.mem a (pgrounddown srcva)
          · rw [if_pos hacc]
            by_cases hpa : pte2pa (leaf s.mem a (pgrounddown srcva)) = 0
            · rw [if_pos hpa, if_pos hpa, wp_pure, wp_pure]
            · have hlt := hacc.1
              have hmod : (pgrounddown srcva + PGSIZE) % 2 ^ 64 = pgrounddown srcva + PGSIZE := by
                unfold MAXVA PGSIZE at *
                omega
              rw [if_neg hpa, if_neg hpa, wp_bind, wp_get, wp_bind, wp_get, hmod]
              set n := min (PGSIZE - (srcva - pgrounddown srcva)) (max + 1)
              obtain ⟨hbytes, hgot⟩ := copyString_read s.mem n
                (pte2pa (leaf s.mem a (pgrounddown srcva)) + (srcva - pgrounddown srcva))
              generalize copyString s.mem n
                (pte2pa (leaf s.mem a (pgrounddown srcva)) + (srcva - pgrounddown srcva)) =
                x at hbytes hgot
              obtain ⟨bs, reads, g⟩ := x
              dsimp only at hbytes hgot ⊢
              rw [hbytes]
              by_cases hz : 0 ∈ s.mem.read (pte2pa (leaf s.mem a (pgrounddown srcva)) +
                (srcva - pgrounddown srcva)) n
              · rw [if_pos hz, if_pos hz, if_pos (hgot.mpr hz), wp_pure, wp_pure]
              · rw [if_neg hz, if_neg hz, if_neg (fun h => hz (hgot.mp h)), wp_bind, wp_bind, ih]
                simp
          · rw [if_neg hacc, if_pos rfl, if_pos rfl, wp_pure, wp_pure]

theorem copyinstr_eq (hnn : NonNull s.mem a) (srcva max : ℕ) :
    copyinstrReads a srcva max s = .ok (bytewise s.mem a max srcva, s) ∧
      copyinstr a srcva max s = .ok (((bytewise s.mem a max srcva).1,
        (bytewise s.mem a max srcva).2.1), s) := by
  have hreads := @copyinstrReadsFrom_eq s a srcva max max hnn (le_refl max)
  have hforget : wp (copyinstrFrom a max srcva max) (fun x t =>
      x = ((bytewise s.mem a max srcva).1, (bytewise s.mem a max srcva).2.1) ∧
        t = s) (fun _ => False) s :=
    wp_copyinstrFrom_reads.mpr (wp_of_ok hreads ⟨rfl, rfl⟩)
  obtain ⟨x, t, he, rfl, rfl⟩ := wp_returns hforget
  exact ⟨hreads, he⟩

end forget

/-! ### Strings -/

section strings
variable {m : Bytes} {a va max k : ℕ}

/-- The `n` bytes from `va`. -/
def bytesAt (m : Bytes) (a va n : ℕ) : List UInt8 := (List.range n).map fun i => m (phys m a (va + i))

theorem bytesAt_succ (m : Bytes) (a va n : ℕ) :
    bytesAt m a va (n + 1) = m (phys m a va) :: bytesAt m a (va + 1) n := by
  unfold bytesAt
  rw [List.range_succ_eq_map, List.map_cons, List.map_map]
  simp [Nat.add_assoc, Nat.add_comm 1]

theorem isString_zero : IsString m a va 0 ↔ Accessible m a va ∧ m (phys m a va) = 0 := by
  constructor
  · intro h
    exact ⟨h.accessible 0 le_rfl, h.zero⟩
  · rintro ⟨hacc, hz⟩
    refine ⟨fun i hi => ?_, fun i hi => absurd hi (Nat.not_lt_zero i), hz⟩
    rw [Nat.le_zero.mp hi]
    exact hacc

theorem isString_succ : IsString m a va (k + 1) ↔
    Accessible m a va ∧ m (phys m a va) ≠ 0 ∧ IsString m a (va + 1) k := by
  have hadd : ∀ i, va + 1 + i = va + (i + 1) := fun i => by omega
  constructor
  · intro h
    refine ⟨h.accessible 0 (Nat.zero_le _), h.nonzero 0 (Nat.succ_pos k), ?_, ?_, ?_⟩
    · intro i hi
      rw [hadd]
      exact h.accessible (i + 1) (by omega)
    · intro i hi
      rw [hadd]
      exact h.nonzero (i + 1) (by omega)
    · rw [hadd]
      exact h.zero
  · rintro ⟨hacc, hne, h⟩
    refine ⟨?_, ?_, ?_⟩
    · intro i hi
      cases i with
      | zero => exact hacc
      | succ i =>
          rw [← hadd]
          exact h.accessible i (by omega)
    · intro i hi
      cases i with
      | zero => exact hne
      | succ i =>
          rw [← hadd]
          exact h.nonzero i (by omega)
    · rw [← hadd]
      exact h.zero

/-- The loop over bytes finds the string if there is one that fits, and copies it. -/
theorem bytewise_string (hstr : IsString m a va k) (hk : k < max) :
    (bytewise m a max va).1 = 0 ∧ (bytewise m a max va).2.1 = bytesAt m a va (k + 1) := by
  induction k generalizing va max with
  | zero =>
      obtain ⟨max, rfl⟩ := Nat.exists_eq_add_one_of_ne_zero (Nat.ne_of_gt hk)
      obtain ⟨hacc, hz⟩ := isString_zero.mp hstr
      rw [bytewise, if_neg (not_not.mpr hacc), if_pos hz, bytesAt_succ, hz]
      exact ⟨rfl, rfl⟩
  | succ k ih =>
      obtain ⟨max, rfl⟩ := Nat.exists_eq_add_one_of_ne_zero (Nat.ne_zero_of_lt hk)
      obtain ⟨hacc, hne, hrest⟩ := isString_succ.mp hstr
      obtain ⟨hr, hdst⟩ := ih hrest (Nat.lt_of_succ_lt_succ hk)
      rw [bytewise, if_neg (not_not.mpr hacc), if_neg hne, bytesAt_succ]
      exact ⟨hr, congrArg _ hdst⟩

theorem string_of_bytewise (h : (bytewise m a max va).1 ≠ -1) : ∃ k < max, IsString m a va k := by
  induction max generalizing va with
  | zero => exact absurd rfl h
  | succ max ih =>
      by_cases hacc : Accessible m a va
      · by_cases hz : m (phys m a va) = 0
        · exact ⟨0, Nat.succ_pos max, isString_zero.mpr ⟨hacc, hz⟩⟩
        · rw [bytewise, if_neg (not_not.mpr hacc), if_neg hz] at h
          obtain ⟨k, hk, hstr⟩ := ih h
          exact ⟨k + 1, Nat.succ_lt_succ hk, isString_succ.mpr ⟨hacc, hz, hstr⟩⟩
      · rw [bytewise, if_pos hacc] at h
        exact absurd rfl h

theorem bytewise_bounds : (bytewise m a max va).2.1.length ≤ max ∧
    ∀ q ∈ (bytewise m a max va).2.2, ∃ va, Accessible m a va ∧ q = phys m a va := by
  induction max generalizing va with
  | zero => exact ⟨le_rfl, fun q hq => absurd hq List.not_mem_nil⟩
  | succ max ih =>
      obtain ⟨hlen, hreads⟩ := @ih (va + 1)
      by_cases hacc : Accessible m a va
      · rw [bytewise, if_neg (not_not.mpr hacc)]
        by_cases hz : m (phys m a va) = 0
        · rw [if_pos hz]
          refine ⟨Nat.succ_le_succ (Nat.zero_le _), fun q hq => ⟨va, hacc, ?_⟩⟩
          exact List.mem_singleton.mp hq
        · rw [if_neg hz]
          refine ⟨Nat.succ_le_succ hlen, fun q hq => ?_⟩
          cases List.mem_cons.mp hq with
          | inl h => exact ⟨va, hacc, h⟩
          | inr h => exact hreads q h
      · rw [bytewise, if_pos hacc]
        exact ⟨Nat.zero_le _, fun q hq => absurd hq List.not_mem_nil⟩

end strings

end Xv6Cow.Vm

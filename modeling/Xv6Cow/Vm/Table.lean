import Mathlib.Algebra.BigOperators.Pi
import Mathlib.Tactic.Abel
import Mathlib.Tactic.Positivity
import Xv6Cow.Vm.Model

/-! # Page tables in memory

A page table is a tree of pages in physical memory.  `nodes m l a` counts, for each page, how often
it occurs in the tree of `l + 1` levels with root `a`; `look m l a v` is the last-level entry for
the virtual page `v`, and `slot m l a v` is its address.  All three read the memory as `walk` does.

The trees of different tables, and the pages of one tree, are kept apart by the account of the
allocator: `nodes` enters it as exclusive ownership, so a page occurs at most once.  From this
follow the two facts all page-table code rests on: memory that agrees on the pages of a tree holds
the same tree (`look_congr`), and storing an entry changes the map at one virtual page and nothing
else (`look_setPte`). -/

namespace Xv6Cow.Vm

open Finset

/-- The index bits of virtual page `v` at a level. -/
def idx (level v : ℕ) : ℕ := v / 512 ^ level % 512

/-- Entry `i` of the page-table page at `a`. -/
def ent (m : Bytes) (a i : ℕ) : Pte := pteAt m (a + 8 * i)

/-- The pages of the tree with root `a`, with multiplicity. -/
def nodes (m : Bytes) : (level a : ℕ) → ℕ → ℕ
  | 0, a => one a
  | level + 1, a => one a + ∑ i ∈ range 512,
      if has (ent m a i) PTE_V then nodes m level (pte2pa (ent m a i)) else 0

/-- The last-level entry for virtual page `v`; 0 where a level is missing. -/
def look (m : Bytes) : (level a v : ℕ) → Pte
  | 0, a, v => ent m a (idx 0 v)
  | level + 1, a, v =>
      if has (ent m a (idx (level + 1) v)) PTE_V then look m level
        (pte2pa (ent m a (idx (level + 1) v))) v
      else 0

/-- The address of the last-level entry for virtual page `v`; 0 where a level is missing. -/
def slot (m : Bytes) : (level a v : ℕ) → ℕ
  | 0, a, v => a + 8 * idx 0 v
  | level + 1, a, v =>
      if has (ent m a (idx (level + 1) v)) PTE_V then slot m level
        (pte2pa (ent m a (idx (level + 1) v))) v
      else 0

/-- The valid entries above the last level point to page-table pages. -/
def Wf (m : Bytes) : (level a : ℕ) → Prop
  | 0, _ => True
  | level + 1, a => ∀ i < 512, has (ent m a i) PTE_V = true →
      has (ent m a i) (PTE_R ||| PTE_W ||| PTE_X) = false ∧ Wf m level (pte2pa (ent m a i))

/-- The levels that are missing on the way to virtual page `v`. -/
def gap (m : Bytes) : (level a v : ℕ) → ℕ
  | 0, _, _ => 0
  | level + 1, a, v =>
      if has (ent m a (idx (level + 1) v)) PTE_V then gap m level
        (pte2pa (ent m a (idx (level + 1) v))) v
      else level + 1

/-- Two virtual pages that share their entry in a tree of `level + 1` levels. -/
def Same (level v w : ℕ) : Prop := ∀ j ≤ level, idx j v = idx j w

/-- The number of levels below the entry at which the walks to two virtual pages part. -/
def dist : (level w v : ℕ) → ℕ
  | 0, _, _ => 0
  | level + 1, w, v => if idx (level + 1) w = idx (level + 1) v then dist level w v else level + 1

theorem idx_lt (level v : ℕ) : idx level v < 512 := Nat.mod_lt _ (by norm_num)

theorem px_eq (level va : ℕ) : px level va = idx level (va / PGSIZE) := by
  unfold px idx PGSIZE
  rw [Nat.div_div_eq_div_mul, pow_add, pow_mul]
  norm_num

theorem same_succ {level v w : ℕ} : Same (level + 1) v w ↔ idx (level + 1) v = idx (level + 1) w ∧
    Same level v w := by
  constructor
  · intro h
    exact ⟨h _ le_rfl, fun j hj => h j (by omega)⟩
  · rintro ⟨h1, h2⟩ j hj
    rcases Nat.lt_or_ge level j with hlt | hle
    · rwa [show j = level + 1 by omega]
    · exact h2 j hle

/-- A virtual page with given index bits at the top and those of `w` below. -/
theorem exists_same (level : ℕ) {i : ℕ} (hi : i < 512) (w : ℕ) : ∃ v, idx (level + 1) v = i ∧
    Same level v w := by
  refine ⟨w % 512 ^ (level + 1) + 512 ^ (level + 1) * i, ?_, fun j hj => ?_⟩
  · unfold idx
    rw [Nat.add_mul_div_left _ _ (by positivity), Nat.div_eq_of_lt (Nat.mod_lt _ (by positivity)),
      Nat.zero_add, Nat.mod_eq_of_lt hi]
  · obtain ⟨k, rfl⟩ := Nat.exists_eq_add_of_le hj
    unfold idx
    rw [show 512 ^ (j + k + 1) = 512 ^ j * 512 ^ (k + 1) by rw [← pow_add]; rfl, mul_assoc,
      Nat.add_mul_div_left _ _ (by positivity), Nat.mod_mul_right_div_self, pow_succ,
      mul_comm (512 ^ k), mul_assoc,
      Nat.add_mul_mod_self_left, Nat.mod_mul_right_mod]

/-- In a table of three levels distinct virtual pages have distinct entries. -/
theorem same_two {v w : ℕ} (hv : v < 2 ^ 27) (hw : w < 2 ^ 27) : Same 2 v w ↔ v = w := by
  constructor
  · intro h
    have h0 := h 0 (by omega)
    have h1 := h 1 (by omega)
    have h2 := h 2 le_rfl
    simp only [idx] at h0 h1 h2
    omega
  · rintro rfl j _
    rfl

/-! ### Loads and stores of entries -/

section entries
variable {m m' : Bytes} {a b p i j : ℕ} {e : Pte}

theorem pteAt_setPte : pteAt (setPte m a e) a = e := by
  unfold pteAt setPte
  rw [Bytes.le_setLe (by simpa using e.isLt)]
  simp

theorem pteAt_setPte_ne (h : b + 8 ≤ a ∨ a + 8 ≤ b) : pteAt (setPte m a e) b = pteAt m b := by
  unfold pteAt setPte
  rw [Bytes.le_setLe_ne h]

theorem setPte_of_not_mem {x : ℕ} (h : x < a ∨ a + 8 ≤ x) : setPte m a e x = m x :=
  Bytes.setLe_of_not_mem h

theorem pteAt_congr (h : ∀ x, a ≤ x → x < a + 8 → m' x = m x) : pteAt m' a = pteAt m a := by
  unfold pteAt
  rw [Bytes.le_congr h]

theorem ent_congr (h : SameOn m m' a) (hi : i < 512) : ent m' a i = ent m a i :=
  pteAt_congr (fun x h1 h2 => h x (by omega) (by unfold PGSIZE; omega))

theorem ent_setPte_ne (h : j ≠ i) : ent (setPte m (a + 8 * i) e) a j = ent m a j :=
  pteAt_setPte_ne (by omega)

theorem has_zero : has 0 e = false := by simp [has]

theorem ent_fill (hi : i < 512) : ent (m.fill a PGSIZE 0) a i = 0 := by
  unfold ent pteAt
  rw [Bytes.le_fill_zero (by omega) (by unfold PGSIZE; omega)]
  rfl

end entries

/-! ### Trees -/

section trees
variable {m m' : Bytes} {level a p v w i : ℕ}

/-- The part of the tree below entry `i` of the root. -/
def sub (m : Bytes) (level a i : ℕ) : ℕ → ℕ :=
  if has (ent m a i) PTE_V then nodes m level (pte2pa (ent m a i)) else 0

/-- The tree without the part below entry `i` of the root. -/
def rest (m : Bytes) (level a i : ℕ) : ℕ → ℕ := one a + ∑ j ∈ (range 512).erase i, sub m level a j

theorem nodes_succ : nodes m (level + 1) a = one a + ∑ i ∈ range 512, sub m level a i := rfl

theorem nodes_eq_rest (hi : i < 512) : nodes m (level + 1) a = rest m level a i + sub m level a i := by
  rw [nodes_succ, rest, ← Finset.add_sum_erase _ _ (mem_range.mpr hi)]
  abel

theorem sub_of_valid (h : has (ent m a i) PTE_V = true) :
    sub m level a i = nodes m level (pte2pa (ent m a i)) :=
  if_pos h

theorem sub_of_not_valid (h : has (ent m a i) PTE_V = false) : sub m level a i = 0 :=
  if_neg (by simp [h])

theorem nodes_self : ∀ (level a : ℕ), 0 < nodes m level a a
  | 0, a => by simp [nodes, one_self]
  | level + 1, a => by
      rw [nodes_succ, Pi.add_apply, one_self]
      omega

theorem sub_le_rest (hi : i < 512) {j : ℕ} (hji : j ≠ i) : sub m level a i p ≤ rest m level a j p := by
  rw [rest, Pi.add_apply, Finset.sum_apply]
  have : sub m level a i p ≤ ∑ k ∈ (range 512).erase j, sub m level a k p :=
    Finset.single_le_sum (f := fun k => sub m level a k p) (fun _ _ => Nat.zero_le _)
      (mem_erase.mpr ⟨fun e => hji e.symm, mem_range.mpr hi⟩)
  omega

theorem one_le_rest : one a p ≤ rest m level a i p := by
  rw [rest, Pi.add_apply]
  omega

theorem sub_le_nodes (hi : i < 512) : sub m level a i p ≤ nodes m (level + 1) a p := by
  rw [nodes_eq_rest hi, Pi.add_apply]
  omega

/-- Memory that agrees on the pages of a tree holds the same tree. -/
theorem nodes_congr (h : ∀ p, 0 < nodes m level a p → SameOn m m' p) :
    nodes m' level a = nodes m level a := by
  induction level generalizing a with
  | zero => rfl
  | succ level ih =>
      have hsub : ∀ i ∈ range 512, sub m' level a i = sub m level a i := by
        intro i hi
        unfold sub
        rw [ent_congr (h a (nodes_self _ _)) (mem_range.mp hi)]
        split_ifs with hv
        · refine ih (fun p hp => h p (lt_of_lt_of_le ?_ (sub_le_nodes (mem_range.mp hi))))
          rwa [sub_of_valid hv]
        · rfl
      rw [nodes_succ, nodes_succ, Finset.sum_congr rfl hsub]

theorem child_same (h : ∀ p, 0 < nodes m (level + 1) a p → SameOn m m' p) (hi : i < 512)
    (hv : has (ent m a i) PTE_V = true) : ∀ p, 0 < nodes m level (pte2pa (ent m a i)) p →
      SameOn m m' p :=
  fun p hp => h p (lt_of_lt_of_le (by rwa [sub_of_valid hv]) (sub_le_nodes hi))

section
variable (h : ∀ p, 0 < nodes m level a p → SameOn m m' p)
include h

theorem look_congr : look m' level a v = look m level a v := by
  induction level generalizing a with
  | zero => exact ent_congr (h a (nodes_self _ _)) (idx_lt _ _)
  | succ level ih =>
      simp only [look]
      rw [ent_congr (h a (nodes_self _ _)) (idx_lt _ _)]
      split_ifs with hv
      · exact ih (child_same h (idx_lt _ _) hv)
      · rfl

theorem slot_congr : slot m' level a v = slot m level a v := by
  induction level generalizing a with
  | zero => rfl
  | succ level ih =>
      simp only [slot]
      rw [ent_congr (h a (nodes_self _ _)) (idx_lt _ _)]
      split_ifs with hv
      · exact ih (child_same h (idx_lt _ _) hv)
      · rfl

theorem gap_congr : gap m' level a v = gap m level a v := by
  induction level generalizing a with
  | zero => rfl
  | succ level ih =>
      simp only [gap]
      rw [ent_congr (h a (nodes_self _ _)) (idx_lt _ _)]
      split_ifs with hv
      · exact ih (child_same h (idx_lt _ _) hv)
      · rfl

theorem Wf.congr (hw : Wf m level a) : Wf m' level a := by
  induction level generalizing a with
  | zero => trivial
  | succ level ih =>
      intro i hi
      rw [ent_congr (h a (nodes_self _ _)) hi]
      intro hv
      exact ⟨(hw i hi hv).1, ih (child_same h hi hv) (hw i hi hv).2⟩

end

/-- An entry is found at the end of a walk in a page of the tree. -/
theorem slot_mem (h : slot m level a v ≠ 0) :
    ∃ t, 0 < nodes m level a t ∧ slot m level a v = t + 8 * idx 0 v := by
  induction level generalizing a with
  | zero => exact ⟨a, nodes_self _ _, rfl⟩
  | succ level ih =>
      simp only [slot] at h ⊢
      split_ifs at h ⊢ with hv
      · obtain ⟨t, h1, h2⟩ := ih h
        exact ⟨t, lt_of_lt_of_le (by rwa [sub_of_valid hv]) (sub_le_nodes (idx_lt _ _)), h2⟩
      · exact absurd rfl h

theorem look_of_slot (h : slot m level a v ≠ 0) : look m level a v = pteAt m (slot m level a v) := by
  induction level generalizing a with
  | zero => rfl
  | succ level ih =>
      simp only [slot, look] at h ⊢
      split_ifs at h ⊢ with hv
      · exact ih h
      · exact absurd rfl h

theorem gap_le : gap m level a v ≤ level := by
  induction level generalizing a with
  | zero => exact le_rfl
  | succ level ih =>
      simp only [gap]
      split_ifs
      · exact ih.trans (Nat.le_succ _)
      · exact le_rfl

theorem dist_le : dist level w v ≤ level := by
  induction level with
  | zero => exact le_rfl
  | succ level ih =>
      simp only [dist]
      split_ifs
      · exact ih.trans (Nat.le_succ _)
      · exact le_rfl

theorem nodes_empty (h : ∀ i < 512, has (ent m a i) PTE_V = false) : nodes m level a = one a := by
  cases level with
  | zero => rfl
  | succ level =>
      rw [nodes_succ, Finset.sum_eq_zero, add_zero]
      intro i hi
      exact sub_of_not_valid (h i (mem_range.mp hi))

theorem wf_empty (h : ∀ i < 512, has (ent m a i) PTE_V = false) : Wf m level a := by
  cases level with
  | zero => trivial
  | succ level =>
      intro i hi hv
      rw [h i hi] at hv
      exact absurd hv (by simp)

theorem look_empty (h : ∀ i < 512, ent m a i = 0) : look m level a w = 0 := by
  cases level with
  | zero => exact h _ (idx_lt _ _)
  | succ level =>
      simp only [look]
      rw [h _ (idx_lt _ _), has_zero]
      simp

theorem gap_empty (h : ∀ i < 512, has (ent m a i) PTE_V = false) : gap m level a w = level := by
  cases level with
  | zero => rfl
  | succ level =>
      simp only [gap]
      rw [h _ (idx_lt _ _)]
      simp

/-- The entry depends on the index bits only. -/
theorem look_same (h : Same level v w) : look m level a v = look m level a w := by
  induction level generalizing a with
  | zero =>
      simp only [look]
      rw [h 0 le_rfl]
  | succ level ih =>
      obtain ⟨h1, h2⟩ := same_succ.mp h
      simp only [look]
      rw [h1]
      split_ifs
      · exact ih h2
      · rfl

/-! ### Changes beside and below one entry -/

/-- Two memories agree on the tree beside entry `i` of the root. -/
structure Beside (m m' : Bytes) (level a i : ℕ) : Prop where
  root : ∀ j < 512, j ≠ i → ent m' a j = ent m a j
  other : ∀ j < 512, j ≠ i → has (ent m a j) PTE_V = true →
    ∀ p, 0 < nodes m level (pte2pa (ent m a j)) p → SameOn m m' p

theorem Beside.of_rest (h : ∀ p, 0 < rest m level a i p → SameOn m m' p) : Beside m m' level a i where
  root j hj _ := ent_congr (h a (lt_of_lt_of_le (by simp [one_self]) one_le_rest)) hj
  other j hj hji hv p hp :=
    h p (lt_of_lt_of_le (by rwa [sub_of_valid hv]) (sub_le_rest hj (Ne.symm hji)))

section
variable (h : Beside m m' level a i)
include h

theorem Beside.rest_eq : rest m' level a i = rest m level a i := by
  have hsub : ∀ j ∈ (range 512).erase i, sub m' level a j = sub m level a j := by
    intro j hj
    obtain ⟨hji, hj⟩ := mem_erase.mp hj
    unfold sub
    rw [h.root j (mem_range.mp hj) hji]
    split_ifs with hv
    · exact nodes_congr (h.other j (mem_range.mp hj) hji hv)
    · rfl
  rw [rest, rest, Finset.sum_congr rfl hsub]

theorem Beside.wf (hw : Wf m (level + 1) a)
    (hi : has (ent m' a i) PTE_V = true → has (ent m' a i) (PTE_R ||| PTE_W ||| PTE_X) = false ∧
      Wf m' level (pte2pa (ent m' a i))) : Wf m' (level + 1) a := by
  intro j hj hv
  by_cases hji : j = i
  · subst hji
    exact hi hv
  · rw [h.root j hj hji] at hv ⊢
    exact ⟨(hw j hj hv).1, (hw j hj hv).2.congr (h.other j hj hji hv)⟩

theorem Beside.look_eq (hne : idx (level + 1) w ≠ i) :
    look m' (level + 1) a w = look m (level + 1) a w := by
  simp only [look]
  rw [h.root _ (idx_lt _ _) hne]
  split_ifs with hv
  · exact look_congr (h.other _ (idx_lt _ _) hne hv)
  · rfl

theorem Beside.slot_eq (hne : idx (level + 1) w ≠ i) :
    slot m' (level + 1) a w = slot m (level + 1) a w := by
  simp only [slot]
  rw [h.root _ (idx_lt _ _) hne]
  split_ifs with hv
  · exact slot_congr (h.other _ (idx_lt _ _) hne hv)
  · rfl

theorem Beside.gap_eq (hne : idx (level + 1) w ≠ i) :
    gap m' (level + 1) a w = gap m (level + 1) a w := by
  simp only [gap]
  rw [h.root _ (idx_lt _ _) hne]
  split_ifs with hv
  · exact gap_congr (h.other _ (idx_lt _ _) hne hv)
  · rfl

end

/-- Two memories agree on the tree except for what lies below entry `i` of the root. -/
structure Below (m m' : Bytes) (level a i : ℕ) : Prop extends Beside m m' level a i where
  same : SameOn m m' a

theorem Below.of_rest (h : ∀ p, 0 < rest m level a i p → SameOn m m' p) : Below m m' level a i where
  toBeside := Beside.of_rest h
  same := h a (lt_of_lt_of_le (by simp [one_self]) one_le_rest)

section
variable (h : Below m m' level a i)
include h

theorem Below.nodes_eq (hi : i < 512) (hv : has (ent m a i) PTE_V = true) :
    nodes m' (level + 1) a = rest m level a i + nodes m' level (pte2pa (ent m a i)) := by
  rw [nodes_eq_rest hi, h.rest_eq, sub_of_valid, ent_congr h.same hi]
  rwa [ent_congr h.same hi]

theorem Below.wf (hi : i < 512) (hw : Wf m (level + 1) a)
    (hc : has (ent m a i) PTE_V = true → Wf m' level (pte2pa (ent m a i))) : Wf m' (level + 1) a := by
  refine h.toBeside.wf hw ?_
  rw [ent_congr h.same hi]
  exact fun hv => ⟨(hw i hi hv).1, hc hv⟩

theorem Below.look_eq (he : idx (level + 1) w = i)
    (hv : has (ent m a i) PTE_V = true) : look m' (level + 1) a w =
      look m' level (pte2pa (ent m a i)) w := by
  subst he
  simp only [look]
  rw [ent_congr h.same (idx_lt _ _), if_pos hv]

theorem Below.slot_eq (he : idx (level + 1) w = i)
    (hv : has (ent m a i) PTE_V = true) : slot m' (level + 1) a w =
      slot m' level (pte2pa (ent m a i)) w := by
  subst he
  simp only [slot]
  rw [ent_congr h.same (idx_lt _ _), if_pos hv]

theorem Below.gap_eq (he : idx (level + 1) w = i)
    (hv : has (ent m a i) PTE_V = true) :
    gap m' (level + 1) a w = gap m' level (pte2pa (ent m a i)) w := by
  subst he
  simp only [gap]
  rw [ent_congr h.same (idx_lt _ _), if_pos hv]

end

section
variable (hv : has (ent m a (idx (level + 1) w)) PTE_V = true)
include hv

theorem look_child :
    look m (level + 1) a w = look m level (pte2pa (ent m a (idx (level + 1) w))) w := if_pos hv

theorem slot_child :
    slot m (level + 1) a w = slot m level (pte2pa (ent m a (idx (level + 1) w))) w := if_pos hv

theorem gap_child :
    gap m (level + 1) a w = gap m level (pte2pa (ent m a (idx (level + 1) w))) w := if_pos hv

end

end trees

/-! ### Trees of distinct pages -/

section distinct
variable [Layout] {m m' : Bytes} {level a p v w i : ℕ} {e : Pte}

/-- The pages of the tree are pages of the allocator, each of them once. -/
structure Tree (m : Bytes) (level a : ℕ) : Prop where
  page : ∀ p, 0 < nodes m level a p → Page p
  distinct : ∀ p, nodes m level a p ≤ 1

theorem Tree.child (h : Tree m (level + 1) a) (hi : i < 512) (hv : has (ent m a i) PTE_V = true) :
    Tree m level (pte2pa (ent m a i)) := by
  have hle : ∀ p, nodes m level (pte2pa (ent m a i)) p ≤ nodes m (level + 1) a p := fun p => by
    rw [← sub_of_valid hv]
    exact sub_le_nodes hi
  exact ⟨fun p hp => h.page p (lt_of_lt_of_le hp (hle p)), fun p => (hle p).trans (h.distinct p)⟩

/-- A page below entry `i` of the root is not the root, nor below another entry. -/
theorem Tree.rest_eq_zero (h : Tree m (level + 1) a) (hi : i < 512) (hp : 0 < sub m level a i p) :
    rest m level a i p = 0 := by
  have := h.distinct p
  rw [nodes_eq_rest hi, Pi.add_apply] at this
  omega

theorem Tree.ne_root (h : Tree m (level + 1) a) (hi : i < 512) (hp : 0 < sub m level a i p) : p ≠ a := by
  rintro rfl
  have h1 := h.rest_eq_zero hi hp
  have h2 : one p p ≤ rest m level p i p := one_le_rest
  rw [one_self] at h2
  omega

theorem Own.tree {s : Mach} {L : List ℕ} {X U : ℕ → ℕ} (h : Own s L (X + nodes m level a) U) :
    Tree m level a where
  page p hp := h.page (by simp only [Pi.add_apply]; omega)
  distinct p := by
    by_contra hp
    have := h.acct.excl p (by simp only [Pi.add_apply]; omega)
    simp only [Pi.add_apply] at this
    omega

/-- The pages of a tree have no other owner. -/
theorem Own.sep {s : Mach} {L : List ℕ} {X U : ℕ → ℕ} (h : Own s L (X + nodes m level a) U)
    (hp : 0 < nodes m level a p) : X p = 0 ∧ U p = 0 := by
  have := h.acct.excl p (by simp only [Pi.add_apply]; omega)
  simp only [Pi.add_apply] at this
  omega

theorem slot_eq_zero (h : Tree m level a) (h0 : slot m level a v = 0) : look m level a v = 0 := by
  induction level generalizing a with
  | zero =>
      have := (h.page a (nodes_self _ _)).ne_zero
      simp only [slot] at h0
      omega
  | succ level ih =>
      simp only [slot, look] at h0 ⊢
      split_ifs at h0 ⊢ with hv
      · exact ih (h.child (idx_lt _ _) hv) h0
      · rfl

theorem setPte_slot_same (h : Tree m level a) (hs : slot m level a v ≠ 0) :
    ∃ t, 0 < nodes m level a t ∧ ∀ q, Page q → q ≠ t → SameOn m (setPte m (slot m level a v) e) q := by
  obtain ⟨t, h1, h2⟩ := slot_mem hs
  refine ⟨t, h1, fun q hq hne => sameOn_of_write (h.page t h1) hq hne (fun x hx => setPte_of_not_mem ?_)⟩
  have := idx_lt 0 v
  unfold PGSIZE at hx
  omega

/-- Storing an entry at the end of a walk keeps the tree and changes the map at one virtual page. -/
theorem setPte_slot (h : Tree m level a) (hs : slot m level a v ≠ 0) :
    nodes (setPte m (slot m level a v) e) level a = nodes m level a ∧
    (Wf m level a → Wf (setPte m (slot m level a v) e) level a) ∧
    (∀ w, slot (setPte m (slot m level a v) e) level a w = slot m level a w) ∧
    (∀ w, gap (setPte m (slot m level a v) e) level a w = gap m level a w) ∧
    (∀ w, Same level w v → look (setPte m (slot m level a v) e) level a w = e) ∧
    (∀ w, ¬ Same level w v → look (setPte m (slot m level a v) e) level a w = look m level a w) := by
  induction level generalizing a with
  | zero =>
      refine ⟨rfl, fun _ => trivial, fun _ => rfl, fun _ => rfl, fun w hw => ?_, fun w hw => ?_⟩
      · simp only [look, slot]
        rw [hw 0 le_rfl]
        exact pteAt_setPte
      · simp only [look, slot]
        refine ent_setPte_ne (fun e => hw (fun j hj => ?_))
        rwa [Nat.le_zero.mp hj]
  | succ level ih =>
      have hi := idx_lt (level + 1) v
      have hv : has (ent m a (idx (level + 1) v)) PTE_V = true := by
        by_contra hv
        simp only [slot, if_neg hv] at hs
        exact hs rfl
      have hslot : slot m (level + 1) a v = slot m level (pte2pa (ent m a (idx (level + 1) v))) v := by
        simp [slot, if_pos hv]
      rw [hslot] at hs ⊢
      have hc := h.child hi hv
      obtain ⟨hn, hwf, hsl, hgp, hl1, hl2⟩ := ih hc hs
      have hbelow : Below m (setPte m (slot m level (pte2pa (ent m a (idx (level + 1) v))) v) e)
          level a (idx (level + 1) v) := by
        obtain ⟨t, ht, hsame⟩ := setPte_slot_same (e := e) hc hs
        have hrest := h.rest_eq_zero hi (by rwa [sub_of_valid hv])
        refine Below.of_rest (fun p hp => hsame p (h.page p ?_) ?_)
        · rw [nodes_eq_rest hi, Pi.add_apply]
          omega
        · rintro rfl
          omega
      refine ⟨?_, fun hw => hbelow.wf hi hw (fun _ => hwf (hw _ hi hv).2), fun w => ?_, fun w => ?_,
        fun w hw => ?_, fun w hw => ?_⟩
      · rw [hbelow.nodes_eq hi hv, hn, nodes_eq_rest hi, sub_of_valid hv]
      · by_cases hiw : idx (level + 1) w = idx (level + 1) v
        · rw [hbelow.slot_eq hiw hv, hsl w, ← hiw, slot_child (hiw ▸ hv)]
        · exact hbelow.toBeside.slot_eq hiw
      · by_cases hiw : idx (level + 1) w = idx (level + 1) v
        · rw [hbelow.gap_eq hiw hv, hgp w, ← hiw, gap_child (hiw ▸ hv)]
        · exact hbelow.toBeside.gap_eq hiw
      · obtain ⟨hiw, hw⟩ := same_succ.mp hw
        rw [hbelow.look_eq hiw hv]
        exact hl1 w hw
      · by_cases hiw : idx (level + 1) w = idx (level + 1) v
        · rw [hbelow.look_eq hiw hv, hl2 w (fun hs => hw (same_succ.mpr ⟨hiw, hs⟩)), ← hiw,
            look_child (hiw ▸ hv)]
        · exact hbelow.toBeside.look_eq hiw

end distinct

end Xv6Cow.Vm

import Xv6Cow.Vm.Space

/-! # Copy-on-write: `uvmcopy`, `handle_cow_fault`, `uvmclear`

`uvmcopy` gives the child an entry for each page of the parent and turns writable entries of both
into copy-on-write entries; `handle_cow_fault` makes such an entry writable again, in place if it is
the only one left for its page and on a fresh copy otherwise.  The right to write a page is the same
before and after: it is `PTE_W` or `PTE_COW`, the `w` of `perm`. -/

namespace Xv6Cow.Vm

open Finset
open Function (update update_self update_of_ne update_eq_self)

/-! ### Entries -/

/-- What an entry allows the user to do, now or after a copy-on-write fault. -/
structure Perm where
  r : Bool
  w : Bool
  x : Bool
  u : Bool
  deriving DecidableEq, Repr

/-- The rights an entry stands for. -/
def perm (e : Pte) : Perm := ⟨has e PTE_R, has e PTE_W || has e PTE_COW, has e PTE_X, has e PTE_U⟩

/-- The flags `uvmcopy` computes for an entry. -/
def cowFlags (e : Pte) : Pte :=
  if has (pteFlags e) PTE_W then (pteFlags e &&& ~~~PTE_W) ||| PTE_COW else pteFlags e

/-- The entry of the parent after `uvmcopy`. -/
def parentPte (e : Pte) : Pte := if has (pteFlags e) PTE_W then pa2pte (pte2pa e) ||| cowFlags e else e

/-- The entry of the child after `uvmcopy`. -/
def childPte (e : Pte) : Pte := pa2pte (pte2pa e) ||| cowFlags e ||| PTE_V

section entries
variable {e g : Pte} {p : ℕ}

theorem small_cowFlags (e : Pte) : Small (cowFlags e) := by
  unfold cowFlags
  split_ifs
  · exact small_pteFlags.clear.or (by decide)
  · exact small_pteFlags

/-- The flags other than `PTE_W` and `PTE_COW` are copied. -/
theorem has_cowFlags (hg : Small g) (hW : has PTE_W g = false) (hC : has PTE_COW g = false) :
    has (cowFlags e) g = has e g := by
  unfold cowFlags
  split_ifs
  · rw [has_or, has_clear_of_disjoint hW, hC, Bool.or_false, has_pteFlags hg]
  · exact has_pteFlags hg

theorem has_cowFlags_W (e : Pte) : has (cowFlags e) PTE_W = false := by
  have hC : has PTE_COW PTE_W = false := by decide
  unfold cowFlags
  split_ifs with hw
  · rw [has_or, has_clear_self, hC]
    rfl
  · simpa using hw

theorem has_cowFlags_COW (e : Pte) : has (cowFlags e) PTE_COW = (has e PTE_W || has e PTE_COW) := by
  have hC : has PTE_COW PTE_COW = true := by decide
  unfold cowFlags
  rw [has_pteFlags (by decide)]
  split_ifs with hw
  · rw [has_or, hC, Bool.or_true, hw]
    rfl
  · rw [has_pteFlags (by decide)]
    simp [hw]

theorem has_parentPte (hg : Small g) : has (parentPte e) g = has (cowFlags e) g := by
  unfold parentPte
  split_ifs with hw
  · exact has_mk hg
  · unfold cowFlags
    rw [if_neg hw, has_pteFlags hg]

theorem has_childPte (hg : Small g) : has (childPte e) g = (has (cowFlags e) g || has PTE_V g) := by
  unfold childPte
  rw [has_or, has_mk hg]

theorem perm_parentPte (e : Pte) : perm (parentPte e) = perm e := by
  unfold perm
  rw [has_parentPte (by decide), has_parentPte (by decide), has_parentPte (by decide),
    has_parentPte (by decide), has_parentPte (by decide), has_cowFlags_W, has_cowFlags_COW,
    Bool.false_or,
    has_cowFlags (by decide) (by decide) (by decide), has_cowFlags (by decide) (by decide) (by decide),
    has_cowFlags (by decide) (by decide) (by decide)]

theorem perm_childPte (e : Pte) : perm (childPte e) = perm e := by
  have h1 : has PTE_V PTE_R = false := by decide
  have h2 : has PTE_V PTE_W = false := by decide
  have h3 : has PTE_V PTE_COW = false := by decide
  have h4 : has PTE_V PTE_X = false := by decide
  have h5 : has PTE_V PTE_U = false := by decide
  unfold perm
  rw [has_childPte (by decide), has_childPte (by decide), has_childPte (by decide),
    has_childPte (by decide), has_childPte (by decide), h1, h2, h3, h4, h5, has_cowFlags_W,
    has_cowFlags_COW,
    has_cowFlags (by decide) (by decide) (by decide), has_cowFlags (by decide) (by decide) (by decide),
    has_cowFlags (by decide) (by decide) (by decide)]
  simp

theorem userPte_parentPte (h : UserPte e) : UserPte (parentPte e) := by
  refine ⟨?_, ?_, ?_⟩
  · rw [has_parentPte (by decide), has_cowFlags (by decide) (by decide) (by decide)]
    exact h.valid
  · rw [has_parentPte (by decide), has_cowFlags (by decide) (by decide) (by decide)]
    exact h.read
  · rw [has_parentPte (by decide), has_cowFlags_W]
    simp

theorem userPte_childPte (h : UserPte e) : UserPte (childPte e) := by
  have h2 : has PTE_V PTE_W = false := by decide
  refine ⟨?_, ?_, ?_⟩
  · rw [has_childPte (by decide), has_cowFlags (by decide) (by decide) (by decide), h.valid]
    rfl
  · rw [has_childPte (by decide), has_cowFlags (by decide) (by decide) (by decide), h.read]
    rfl
  · rw [has_childPte (by decide), has_cowFlags_W, h2]
    simp

theorem pte2pa_lt (h : pte2pa e < 2 ^ 56) : pte2pa (pa2pte (pte2pa e)) = pte2pa e :=
  pte2pa_pa2pte pte2pa_mod h

theorem pte2pa_parentPte (h : pte2pa e < 2 ^ 56) : pte2pa (parentPte e) = pte2pa e := by
  unfold parentPte
  split_ifs
  · rw [pte2pa_or (small_cowFlags e), pte2pa_lt h]
  · rfl

theorem childPte_not_W (e : Pte) : has (childPte e) PTE_W = false := by
  have hV : has PTE_V PTE_W = false := by decide
  rw [has_childPte (by decide), has_cowFlags_W, hV]
  rfl

theorem parentPte_not_W (e : Pte) : has (parentPte e) PTE_W = false := by
  rw [has_parentPte (by decide), has_cowFlags_W]

/-- The entry `e'` gives the rights of `e` without copy-on-write. -/
structure Private (e e' : Pte) : Prop where
  user : UserPte e'
  write : has e' PTE_W = true
  perm : perm e' = perm e

theorem has_unshare (hW : has PTE_W g = false) (hC : has PTE_COW g = false) :
    has ((e ||| PTE_W) &&& ~~~PTE_COW) g = has e g := by
  rw [has_clear_of_disjoint hC, has_or, hW, Bool.or_false]

theorem has_unshare_W (e : Pte) : has ((e ||| PTE_W) &&& ~~~PTE_COW) PTE_W = true := by
  have hW : has PTE_W PTE_W = true := by decide
  rw [has_clear_of_disjoint (by decide), has_or, hW, Bool.or_true]

/-- Setting `PTE_W` and clearing `PTE_COW` in any entry that has the flags of `e`. -/
theorem Private.of_flags {e' d : Pte} (h : UserPte e) (hC : has e PTE_COW = true)
    (hd : ∀ g, Small g → has d g = has e g)
    (he : ∀ g, Small g → has e' g = has ((d ||| PTE_W) &&& ~~~PTE_COW) g) : Private e e' := by
  have hother : ∀ g, Small g → has PTE_W g = false → has PTE_COW g = false → has e' g = has e g :=
      fun g hg hW hC => by
    rw [he g hg, has_unshare hW hC, hd g hg]
  have hw : has e' PTE_W = true := (he PTE_W (by decide)).trans (has_unshare_W d)
  have hc : has e' PTE_COW = false := (he PTE_COW (by decide)).trans has_clear_self
  refine ⟨⟨?_, ?_, ?_⟩, hw, ?_⟩
  · rw [hother PTE_V (by decide) (by decide) (by decide)]
    exact h.valid
  · rw [hother PTE_R (by decide) (by decide) (by decide)]
    exact h.read
  · rw [hc]
    simp
  · unfold Vm.perm
    rw [hother PTE_R (by decide) (by decide) (by decide), hother PTE_X (by decide) (by decide)
      (by decide), hother PTE_U (by decide) (by decide) (by decide), hw, hC, Bool.true_or, Bool.or_true]

/-- The entry that the fault stores for a copy at `q`. -/
def copyPte (q : ℕ) (e : Pte) : Pte := pa2pte q ||| ((pteFlags e ||| PTE_W) &&& ~~~PTE_COW)

theorem private_copyPte (h : UserPte e) (hC : has e PTE_COW = true) (q : ℕ) : Private e (copyPte q e) :=
  Private.of_flags h hC (fun _ hg => has_pteFlags hg) (fun _ hg => has_mk hg)

end entries

/-! ### Maps -/

section maps
variable {f f' g : ℕ → Pte} {i j : ℕ}

/-- The map of the parent after `uvmcopy` has seen the pages of `[i, j)`. -/
def shared (f : ℕ → Pte) (i j : ℕ) : ℕ → Pte := fun v => if i ≤ v ∧ v < j then parentPte (f v) else f v

/-- The map of the child after `uvmcopy` has copied the pages of `[i, j)`. -/
def copied (g f : ℕ → Pte) (i j : ℕ) : ℕ → Pte := fun v => if i ≤ v ∧ v < j then childPte (f v) else g v

/-- The page-table pages that mapping the `k` pages from `i` on takes, when `g` gives the levels
missing on the way to each page. -/
def need (g : ℕ → ℕ) : (k i : ℕ) → ℕ
  | 0, _ => 0
  | k + 1, i => g i + need (fun w => min (g w) (dist 2 w i)) k (i + 1)

theorem shared_self (f : ℕ → Pte) (i : ℕ) : shared f i i = f := funext (fun _ => if_neg (by omega))

theorem copied_self (g f : ℕ → Pte) (i : ℕ) : copied g f i i = g := funext (fun _ => if_neg (by omega))

theorem shared_one (f : ℕ → Pte) (i : ℕ) : shared f i (i + 1) = update f i (parentPte (f i)) := by
  funext w
  unfold shared
  rcases eq_or_ne w i with rfl | hw
  · rw [if_pos (by omega), update_self]
  · rw [if_neg (by omega), update_of_ne hw]

theorem shared_cons (hj : i < j) :
    shared (update f i (parentPte (f i))) (i + 1) j = shared f i j := by
  funext w
  unfold shared
  rcases eq_or_ne w i with rfl | hw
  · rw [if_neg (by omega), update_self, if_pos (by omega)]
  · rw [update_of_ne hw]
    exact if_congr (by omega) rfl rfl

theorem copied_cons (hj : i < j) (hf : ∀ w, i < w → f' w = f w) :
    copied (update g i (childPte (f i))) f' (i + 1) j = copied g f i j := by
  funext w
  unfold copied
  rcases eq_or_ne w i with rfl | hw
  · rw [if_neg (by omega), update_self, if_pos (by omega)]
  · rw [update_of_ne hw]
    split_ifs with h1 h2 h2
    · rw [hf w (by omega)]
    · omega
    · omega
    · rfl

end maps

/-! ### Changing one entry -/

section change
variable [Layout] {s t : Mach} {L L' : List ℕ} {X U : ℕ → ℕ} {a tf n v : ℕ} {f : ℕ → Pte} {e : Pte}

theorem Space.update (hs : Space f tf n) (hn : n ≤ TFV) (hv : v < n) (he : UserPte e)
    (hinj : ∀ w < n, w ≠ v → pte2pa (f w) ≠ pte2pa e) : Space (update f v e) tf n := by
  have hTR := TRV_eq
  refine ⟨fun w hw => ?_, ?_, ?_, fun w hw h1 h2 => ?_, fun w₁ w₂ h1 h2 h12 => ?_⟩
  · rcases eq_or_ne w v with rfl | hwv
    · rw [update_self]
      exact he
    · rw [update_of_ne hwv]
      exact hs.user w hw
  · rw [update_of_ne (by omega)]
    exact hs.trapframe
  · rw [update_of_ne (by omega)]
    exact hs.trampoline
  · rw [update_of_ne (by omega)]
    exact hs.unmapped w hw h1 h2
  · rcases eq_or_ne w₁ v with rfl | hw1 <;> rcases eq_or_ne w₂ w₁ with rfl | hw2
    · rfl
    · rw [update_self, update_of_ne hw2] at h12
      exact absurd h12.symm (hinj w₂ h2 hw2)
    · rfl
    · rcases eq_or_ne w₂ v with rfl | hw3
      · rw [update_self, update_of_ne hw1] at h12
        exact absurd h12 (hinj w₁ h1 hw1)
      · rw [update_of_ne hw1, update_of_ne hw3] at h12
        exact hs.inj w₁ w₂ h1 h2 h12

theorem Uvm.vpn_lt (h : Uvm s L X U a tf n f) (hv : v < n) : v < NVPN :=
  Vm.vpn_lt (h.lt_MAXVA (Nat.le_of_lt hv))

theorem Uvm.slot_ne_zero (h : Uvm s L X U a tf n f) (hv : v < n) : slot s.mem 2 a v ≠ 0 :=
  h.tab.slot_ne_zero (h.vpn_lt hv) (h.space.user v hv).valid

theorem Uvm.setPte (h : Uvm s L X U a tf n f) (hv : v < n) (he : UserPte e)
    (hpa : pte2pa e = pte2pa (f v)) : Uvm { s with mem := Vm.setPte s.mem (slot s.mem 2 a v) e } L X
      U a tf n (update f v e) ∧
    Frame s.mem (Vm.setPte s.mem (slot s.mem 2 a v) e) (X + (U + span f 0 n)) ∧
    (∀ q ∈ L, SameOn s.mem (Vm.setPte s.mem (slot s.mem 2 a v) e) q) := by
  obtain ⟨h1, h2, h3, -⟩ := h.tab.setPte (e := e) (h.vpn_lt hv) (h.slot_ne_zero hv)
  have hspan : span (update f v e) 0 n = span f 0 n := by
    have := span_update (f := f) (e := e) hv
    rw [hpa] at this
    exact add_right_cancel this
  refine ⟨⟨by rw [hspan]; exact h1, h.space.update (Nat.le_of_lt h.lt_TFV) hv he
    (fun w hw hwv hp => ?_)⟩, h2, h3⟩
  rw [hpa] at hp
  exact hwv (h.space.inj w v hw hv hp)

end change

/-! ### `uvmcopy` -/

section uvmcopy
variable [Layout] {s t : Mach} {L L' : List ℕ} {X U : ℕ → ℕ} {old new tf tf' n i v : ℕ} {f g : ℕ → Pte}

/-- The two address spaces during `uvmcopy`, when the child has the first `i` pages of the
parent. -/
structure Forking (s : Mach) (L : List ℕ) (X U : ℕ → ℕ) (old new tf tf' n i : ℕ) (f g : ℕ → Pte) :
    Prop where
  parent : Uvm s L (X + nodes s.mem 2 new) (U + span g 0 i) old tf n f
  child : Uvm s L (X + nodes s.mem 2 old) (U + span f 0 n) new tf' i g
  agree : ∀ v < i, pte2pa (g v) = pte2pa (f v)

theorem span_parent (h : Own s L X (U + span f 0 n)) (hv : v < n) :
    span (update f v (parentPte (f v))) 0 n = span f 0 n := by
  have := span_update (f := f) (e := parentPte (f v)) hv
  rw [pte2pa_parentPte (h.user_page hv).lt] at this
  exact add_right_cancel this

/-- The first half of a round of `uvmcopy`: the entry of the parent. -/
theorem Forking.share (h : Forking s L X U old new tf tf' n i f g) (hv : v < n) :
    Forking { s with mem := Vm.setPte s.mem (slot s.mem 2 old v) (parentPte (f v)) } L X U old new
      tf tf' n i (update f v (parentPte (f v))) g ∧
    Frame s.mem (Vm.setPte s.mem (slot s.mem 2 old v) (parentPte (f v))) (X + (U + span f 0 n)) ∧
    nodes (Vm.setPte s.mem (slot s.mem 2 old v) (parentPte (f v))) 2 old = nodes s.mem 2 old ∧
    ∀ w, gap (Vm.setPte s.mem (slot s.mem 2 old v) (parentPte (f v))) 2 new w = gap s.mem 2 new w := by
  have hpage : pte2pa (f v) < 2 ^ 56 := (h.parent.tab.own.user_page hv).lt
  have hpa := pte2pa_parentPte hpage
  obtain ⟨h1, h2, h3⟩ := h.parent.setPte hv (userPte_parentPte (h.parent.space.user v hv)) hpa
  have hsame : ∀ p, 0 < nodes s.mem 2 new p →
      SameOn s.mem (Vm.setPte s.mem (slot s.mem 2 old v) (parentPte (f v))) p := fun p hp =>
    h2 p (by simp only [Pi.add_apply]; omega)
  have hspan := span_parent h.parent.tab.own hv
  have hn := nodes_congr hsame
  have hold := (setPte_slot (e := parentPte (f v)) h.parent.tab.own.tree (h.parent.slot_ne_zero hv)).1
  refine ⟨⟨?_, ⟨?_, h.child.space⟩, fun w hw => ?_⟩, h2.mono (fun p hp => ?_), hold,
    fun w => gap_congr hsame⟩
  · rw [hn]
    exact h1
  · rw [hspan]
    refine h.child.tab.congr (s := s) ?_ hsame
    have := h1.tab.own
    rw [hspan] at this
    rwa [show X + nodes (Vm.setPte s.mem (slot s.mem 2 old v) (parentPte (f v))) 2 old +
      nodes s.mem 2 new = X + nodes s.mem 2 new +
      nodes (Vm.setPte s.mem (slot s.mem 2 old v) (parentPte (f v))) 2 old by abel,
      show U + span f 0 n + span g 0 i = U + span g 0 i + span f 0 n by abel]
  · rw [h.agree w hw]
    rcases eq_or_ne w v with rfl | hwv
    · rw [update_self, hpa]
    · rw [update_of_ne hwv]
  · simp only [Pi.add_apply] at hp ⊢
    omega

/-- The child after a round of `uvmcopy`: one more page, with the counts it stands for. -/
theorem Forking.grow {e : Pte} (h : Forking s L X U old new tf tf' n i f g) (hi : i < n) (he : UserPte e)
    (hpa : pte2pa e = pte2pa (f i)) (hparent : ∀ p, 0 < nodes s.mem 2 old p → SameOn s.mem t.mem p)
    (ht : Tab t L' (X + nodes s.mem 2 old) (U + span f 0 n + span g 0 i + one (pte2pa e)) new
      (update g i e)) :
    Forking t L' X U old new tf tf' n (i + 1) f (update g i e) := by
  have hlt := h.parent.lt_TFV
  have hTR := TRV_eq
  have hold : nodes t.mem 2 old = nodes s.mem 2 old := nodes_congr hparent
  have hspan : span (update g i e) 0 (i + 1) = span g 0 i + one (pte2pa e) := by
    rw [span_last, span_update_of_le le_rfl, update_self]
  have hagree : ∀ v < i + 1, pte2pa (update g i e v) = pte2pa (f v) := by
    intro v hv
    rcases Nat.lt_succ_iff_lt_or_eq.mp hv with hv | rfl
    · rw [update_of_ne (by omega), h.agree v hv]
    · rw [update_self, hpa]
  refine ⟨⟨?_, h.parent.space⟩, ⟨?_, ?_⟩, hagree⟩
  · refine h.parent.tab.congr ?_ hparent
    have hown := ht.own
    rwa [hspan, add_right_comm X, show U + (span g 0 i + one (pte2pa e)) + span f 0 n =
      U + span f 0 n + span g 0 i + one (pte2pa e) by abel]
  · rw [hspan, hold, ← add_assoc]
    exact ht
  · refine ⟨fun v hv => ?_, ?_, ?_, fun v hv h1 h2 => ?_, fun v w hv hw hvw => ?_⟩
    · rcases Nat.lt_succ_iff_lt_or_eq.mp hv with hv | rfl
      · rw [update_of_ne (by omega)]
        exact h.child.space.user v hv
      · rw [update_self]
        exact he
    · rw [update_of_ne (by omega)]
      exact h.child.space.trapframe
    · rw [update_of_ne (by omega)]
      exact h.child.space.trampoline
    · rw [update_of_ne (by omega)]
      exact h.child.space.unmapped v (by omega) h1 h2
    · rw [hagree v hv, hagree w hw] at hvw
      exact h.parent.space.inj v w (by omega) (by omega) hvw

/-- What a round of `uvmcopy` leaves. -/
structure Copied (s t : Mach) (L : List ℕ) (X U : ℕ → ℕ) (old new tf tf' n i : ℕ) (f g : ℕ → Pte)
    (e : Pte) (r : ℤ) : Prop where
  keeps : Keeps s t (X + (U + span f 0 n))
  tables : nodes t.mem 2 old = nodes s.mem 2 old
  result : (r = 0 ∧ ∃ L', Forking t L' X U old new tf tf' n (i + 1) f (update g i e) ∧
      L.length = L'.length + gap s.mem 2 new i ∧
      (∀ w, gap t.mem 2 new w = min (gap s.mem 2 new w) (dist 2 w i)) ∧ (0 ∈ t.allocs → 0 ∈ s.allocs)) ∨
    (r = -1 ∧ Forking t [] X U old new tf tf' n i f g ∧ 0 ∈ t.allocs ∧ L.length < gap s.mem 2 new i)

theorem Copied.after {s₁ : Mach} {e : Pte} {r : ℤ} (hc : Copied s₁ t L X U old new tf tf' n i f g e r)
    (hf : Frame s.mem s₁.mem (X + (U + span f 0 n))) (hn : nodes s₁.mem 2 old = nodes s.mem 2 old)
    (ha : s₁.allocs = s.allocs) (hg : ∀ w, gap s₁.mem 2 new w = gap s.mem 2 new w) :
    Copied s t L X U old new tf tf' n i f g e r := by
  refine ⟨⟨hf.trans hc.keeps.frame, ?_⟩, hc.tables.trans hn, ?_⟩
  · rw [← ha]
    exact hc.keeps.hist
  · simpa [hg, ha] using hc.result

/-- The second half of a round of `uvmcopy`: the entry of the child. -/
theorem Forking.map {flags : Pte} (h : Forking s L X U old new tf tf' n i f g) (hi : i < n)
    (hx : Small flags) (he : UserPte (pa2pte (pte2pa (f i)) ||| flags ||| PTE_V)) :
    wp (do
        let r ← mappages new (i * PGSIZE) PGSIZE (pte2pa (f i)) flags
        if r ≠ 0 then pure (-1)
        else do
          incref (pte2pa (f i))
          pure 0)
      (fun r t => Copied s t L X U old new tf tf' n i f g (pa2pte (pte2pa (f i)) ||| flags ||| PTE_V) r)
      (fun _ => False) s := by
  have hlt := h.parent.lt_TFV
  have hTR := TRV_eq
  have hpage := h.parent.tab.own.user_page hi
  have hpa := pte2pa_map hpage hx
  have hgi : g i = 0 := h.child.space.unmapped i le_rfl (by omega) (by omega)
  rw [wp_bind]
  refine wp_post (mappages_spec _ _ h.child.tab (h.child.lt_MAXVA le_rfl) (by rw [hgi, has_zero])) ?_
  rintro r t ⟨hkeep, (⟨rfl, L', hmap⟩ | ⟨rfl, hno⟩)⟩
  · simp only [ne_eq, not_true_eq_false, if_false, wp_bind]
    have hpos := span_pos (f := f) hi
    refine wp_post (incref_spec hmap.tab.own (p := pte2pa (f i)) (by simp only [Pi.add_apply]; omega)) ?_
    rintro _ t' ⟨h1, h2, h3⟩
    have hsame : ∀ p, 0 < nodes s.mem 2 old p → SameOn s.mem t'.mem p := fun p hp => by
      rw [h1]
      exact hkeep.frame p (by simp only [Pi.add_apply]; omega)
    rw [← h1] at h3
    rw [wp_pure]
    refine ⟨⟨fun q hq => ?_, by rw [h2]; exact hkeep.hist⟩, nodes_congr hsame,
      Or.inl ⟨rfl, L', ?_, hmap.taken,
      by rw [h1]; exact hmap.gap, by rw [h2]; exact hmap.full⟩⟩
    · rw [h1]
      exact hkeep.frame q (by simp only [Pi.add_apply] at hq ⊢; omega)
    · refine h.grow hi he hpa hsame ?_
      rw [hpa]
      refine ⟨h3, by rw [h1]; exact hmap.tab.wf, by rw [h1]; exact hmap.tab.map⟩
  · simp only [ne_eq, reduceCtorEq, not_false_eq_true, if_true, wp_pure]
    have hsame : ∀ p, 0 < nodes s.mem 2 old p → SameOn s.mem t.mem p := fun p hp =>
      hkeep.frame p (by simp only [Pi.add_apply]; omega)
    have hold : nodes t.mem 2 old = nodes s.mem 2 old := nodes_congr hsame
    refine ⟨hkeep.mono (fun q hq => ?_), hold,
      Or.inr ⟨rfl, ⟨⟨?_, h.parent.space⟩, ⟨?_, h.child.space⟩, h.agree⟩, hno.failed, hno.short⟩⟩
    · simp only [Pi.add_apply] at hq ⊢
      omega
    · refine h.parent.tab.congr ?_ hsame
      have hown := hno.tab.own
      rwa [add_right_comm X, add_right_comm U]
    · rw [hold]
      exact hno.tab

theorem uvmcopyPage_spec (h : Forking s L X U old new tf tf' n i f g) (hi : i < n) :
    wp (uvmcopyPage old new (i * PGSIZE)) (fun r t => Copied s t L X U old new tf tf' n i
      (update f i (parentPte (f i))) g (childPte (f i)) r) (fun _ => False) s := by
  have hv := h.parent.vpn_lt hi
  have hs := h.parent.slot_ne_zero hi
  have huser := h.parent.space.user i hi
  have hpage := h.parent.tab.own.user_page hi
  have hpa : pte2pa (parentPte (f i)) = pte2pa (f i) := pte2pa_parentPte hpage.lt
  have hspan := span_parent h.parent.tab.own hi
  simp only [uvmcopyPage, wp_bind, wp_walk_false (h.parent.lt_MAXVA (Nat.le_of_lt hi)),
    mul_div_pgsize, if_neg hs, wp_ldpte, h.parent.tab.pteAt_slot hv hs, huser.valid, Bool.not_true,
    Bool.false_eq_true, if_false]
  have hmap : ∀ {s₁ : Mach}, Forking s₁ L X U old new tf tf' n i (update f i (parentPte (f i))) g →
      Frame s.mem s₁.mem (X + (U + span f 0 n)) → nodes s₁.mem 2 old = nodes s.mem 2 old →
      s₁.allocs = s.allocs →
      (∀ w, gap s₁.mem 2 new w = gap s.mem 2 new w) →
      wp (do
          let r ← mappages new (i * PGSIZE) PGSIZE (pte2pa (f i)) (cowFlags (f i))
          if r ≠ 0 then pure (-1)
          else do
            incref (pte2pa (f i))
            pure 0)
        (fun r t => Copied s t L X U old new tf tf' n i (update f i (parentPte (f i))) g
          (childPte (f i)) r)
        (fun _ => False) s₁ := by
    intro s₁ h1 hf hn ha hg
    have hround := h1.map hi (small_cowFlags (f i))
    rw [update_self, hpa] at hround
    refine wp_post (hround (userPte_childPte huser)) (fun r t hc => hc.after ?_ hn ha hg)
    rwa [hspan]
  rw [wp_ite]
  refine ⟨fun hw => ?_, fun hw => ?_⟩
  · obtain ⟨h1, h2, hn, h3⟩ := h.share hi
    have hpp : parentPte (f i) = pa2pte (pte2pa (f i)) ||| cowFlags (f i) := if_pos hw
    rw [wp_bind, wp_stpte]
    change wp _ _ _ { s with
      mem := setPte s.mem (slot s.mem 2 old i) (pa2pte (pte2pa (f i)) ||| cowFlags (f i)) }
    rw [← hpp]
    exact hmap h1 h2 hn rfl h3
  · have hpp : parentPte (f i) = f i := if_neg hw
    refine hmap ?_ (Frame.refl _ _) rfl rfl (fun _ => rfl)
    rwa [hpp, update_eq_self]

/-- The loop of `uvmcopy` over the `k` pages from `i` on: all are shared, or the free list runs out
at some page `j`, whose entry in the parent has been changed already. -/
theorem uvmcopyFrom_spec {k : ℕ} (h : Forking s L X U old new tf tf' n i f g) (hk : i + k ≤ n) :
    wp (uvmcopyFrom old new k (i * PGSIZE)) (fun r t => Keeps s t (X + (U + span f 0 n)) ∧
      nodes t.mem 2 old = nodes s.mem 2 old ∧
      ((r = 0 ∧ ∃ L', Forking t L' X U old new tf tf' n (i + k) (shared f i (i + k))
          (copied g f i (i + k)) ∧ L.length = L'.length + need (gap s.mem 2 new) k i ∧
            (0 ∈ t.allocs → 0 ∈ s.allocs)) ∨
        (r = -1 ∧ ∃ j, i ≤ j ∧ j < i + k ∧ Forking t [] X U old new tf tf' n j (shared f i (j + 1))
          (copied g f i j) ∧ 0 ∈ t.allocs ∧ L.length < need (gap s.mem 2 new) k i ∧
            (j = i ↔ L.length < gap s.mem 2 new i))))
      (fun _ => False) s := by
  induction k generalizing s L i f g with
  | zero =>
      simp only [uvmcopyFrom, wp_pure]
      refine ⟨Keeps.refl _ _, trivial, Or.inl ⟨trivial, L, ?_, rfl, id⟩⟩
      rwa [Nat.add_zero, shared_self, copied_self]
  | succ k ih =>
      have hi : i < n := by omega
      have hspan := span_parent h.parent.tab.own hi
      simp only [uvmcopyFrom, wp_bind]
      refine wp_post (uvmcopyPage_spec h hi) ?_
      rintro r t ⟨hkeep, hn, (⟨rfl, L', h1, h2, h3, h4⟩ | ⟨rfl, h1, h2, h3⟩)⟩
      · -- the page is copied, and the rest of the loop starts from the new maps
        rw [hspan] at hkeep
        simp only [ne_eq, not_true_eq_false, if_false]
        rw [show i * PGSIZE + PGSIZE = (i + 1) * PGSIZE by ring]
        have hneed : need (gap s.mem 2 new) (k + 1) i = gap s.mem 2 new i + need (gap t.mem 2 new) k
            (i + 1) := by
          rw [show gap t.mem 2 new = fun w => min (gap s.mem 2 new w) (dist 2 w i) from funext h3]
          rfl
        have hf : ∀ w, i < w → update f i (parentPte (f i)) w = f w := fun w hw =>
          update_of_ne (by omega) _ _
        refine wp_post (ih h1 (by omega)) ?_
        rw [hspan, hneed]
        rintro r t' ⟨hkeep', hn', (⟨rfl, L'', g1, g2, g7⟩ | ⟨rfl, j, g1, g2, g3, g4, g5, g6⟩)⟩
        · rw [shared_cons (by omega), copied_cons (by omega) hf, show i + 1 + k = i +
            (k + 1) by omega] at g1
          exact ⟨hkeep.trans hkeep', hn'.trans hn, Or.inl ⟨rfl, L'', g1, by omega, fun h0 => h4 (g7 h0)⟩⟩
        · rw [shared_cons (by omega), copied_cons (by omega) hf] at g3
          exact ⟨hkeep.trans hkeep', hn'.trans hn, Or.inr ⟨rfl, j, by omega, by omega, g3, g4,
            by omega, by omega⟩⟩
      · rw [hspan] at hkeep
        simp only [ne_eq, reduceCtorEq, not_false_eq_true, if_true, wp_pure]
        refine ⟨hkeep, hn, Or.inr ⟨trivial, i, le_rfl, by omega, ?_, h2, ?_, by simpa using h3⟩⟩
        · rwa [shared_one, copied_self]
        · rw [need]
          omega

theorem uvmcopy_spec {sz : ℕ} (h : Forking s L X U old new tf tf' (npg sz) 0 f g) :
    wp (uvmcopy old new sz) (fun r t => Keeps s t (X + (U + span f 0 (npg sz))) ∧
      nodes t.mem 2 old = nodes s.mem 2 old ∧
      ((r = 0 ∧ ∃ L', Forking t L' X U old new tf tf' (npg sz) (npg sz) (shared f 0 (npg sz))
          (copied g f 0 (npg sz)) ∧ L.length = L'.length + need (gap s.mem 2 new) (npg sz) 0 ∧
            (0 ∈ t.allocs → 0 ∈ s.allocs)) ∨
        (r = -1 ∧ ∃ j < npg sz, Forking t [] X U old new tf tf' (npg sz) j (shared f 0 (j + 1))
          (copied g f 0 j) ∧ 0 ∈ t.allocs ∧ L.length < need (gap s.mem 2 new) (npg sz) 0 ∧
            (j = 0 ↔ L.length < gap s.mem 2 new 0))))
      (fun _ => False) s := by
  have hloop := uvmcopyFrom_spec (k := npg sz) h (by omega)
  rw [Nat.zero_mul] at hloop
  refine wp_post hloop ?_
  rintro r t ⟨hkeep, hn, (⟨rfl, L', g1, g2, g7⟩ | ⟨rfl, j, g1, g2, g3, g4, g5, g6⟩)⟩
  · rw [Nat.zero_add] at g1
    exact ⟨hkeep, hn, Or.inl ⟨rfl, L', g1, g2, g7⟩⟩
  · exact ⟨hkeep, hn, Or.inr ⟨rfl, j, by omega, g3, g4, g5, g6⟩⟩

end uvmcopy

/-! ### `handle_cow_fault` -/

theorem setPte_setPte (m : Bytes) (a : ℕ) (e e' : Pte) : setPte (setPte m a e) a e' = setPte m a e' := by
  funext x
  unfold setPte
  rcases Nat.lt_or_ge x a with h | h
  · rw [Bytes.setLe_of_not_mem (by omega), Bytes.setLe_of_not_mem (by omega),
      Bytes.setLe_of_not_mem (by omega)]
  · rcases Nat.lt_or_ge x (a + 8) with h' | h'
    · rw [Bytes.setLe_of_mem h h', Bytes.setLe_of_mem h h']
    · rw [Bytes.setLe_of_not_mem (by omega), Bytes.setLe_of_not_mem (by omega),
        Bytes.setLe_of_not_mem (by omega)]

section fault
variable [Layout] {s t : Mach} {L L' : List ℕ} {X U : ℕ → ℕ} {a tf n v va p q : ℕ} {f : ℕ → Pte}
    {e : Pte}

/-- A resolved fault at page `v`: the entry is writable, no other entry has its page, and the page
holds what the old one held. -/
structure Resolved (s t : Mach) (X U : ℕ → ℕ) (a tf n : ℕ) (f : ℕ → Pte) (v : ℕ) (e : Pte) : Prop where
  uvm : ∃ L', Uvm t L' X U a tf n (update f v e)
  entry : Private (f v) e
  only : U (pte2pa e) = 0
  bytes : ∀ off < PGSIZE, t.mem (pte2pa e + off) = s.mem (pte2pa (f v) + off)
  keeps : Keeps s t (X + (U + span f 0 n))
  full : 0 ∈ t.allocs → 0 ∈ s.allocs

/-- The branch of the fault that makes the entry writable in place. -/
theorem fault_in_place (h : Uvm s L X U a tf n f) (hv : v < n) (hC : has (f v) PTE_COW = true)
    (hone : X (pte2pa (f v)) + nodes s.mem 2 a (pte2pa (f v)) +
      (U (pte2pa (f v)) + span f 0 n (pte2pa (f v))) = 1) :
    Uvm { s with mem := setPte s.mem (slot s.mem 2 a v) ((f v ||| PTE_W) &&& ~~~PTE_COW) } L X U a
        tf n (update f v ((f v ||| PTE_W) &&& ~~~PTE_COW)) ∧
      Resolved s { s with mem := setPte s.mem (slot s.mem 2 a v) ((f v ||| PTE_W) &&& ~~~PTE_COW) }
        X U a tf n f v ((f v ||| PTE_W) &&& ~~~PTE_COW) := by
  have hpos := span_pos (f := f) hv
  have hpa : pte2pa ((f v ||| PTE_W) &&& ~~~PTE_COW) = pte2pa (f v) := by
    rw [pte2pa_clear (by decide), pte2pa_or (by decide)]
  have hpriv : Private (f v) ((f v ||| PTE_W) &&& ~~~PTE_COW) :=
    Private.of_flags (h.space.user v hv) hC (fun _ _ => rfl) (fun _ _ => rfl)
  obtain ⟨h1, h2, -⟩ := h.setPte hv hpriv.user hpa
  refine ⟨h1, ⟨L, h1⟩, hpriv, by rw [hpa]; omega, fun off hoff => ?_, ⟨h2, List.suffix_refl _⟩, id⟩
  rw [hpa]
  exact h2 (pte2pa (f v)) (by simp only [Pi.add_apply]; omega) _ (by omega) (by omega)

theorem pte2pa_copyPte (hq : Page q) (e : Pte) : pte2pa (copyPte q e) = q :=
  pte2pa_mk hq.facts.1 hq.lt (small_pteFlags.or (by decide)).clear

/-- The branch of the fault that copies the page, after `kalloc` has returned `q`. -/
theorem fault_copy (h : Uvm s L X U a tf n f)
    (ht : Own t L' (X + nodes s.mem 2 a + one q) (U + span f 0 n)) (hm : t.mem = s.mem)
    (hal : t.allocs = q :: s.allocs) (hv : v < n) (hC : has (f v) PTE_COW = true)
    (hshared : 0 < U (pte2pa (f v))) : wp (do
        memmove q (pte2pa (f v)) PGSIZE
        let e' ← ldpte (slot s.mem 2 a v)
        stpte (slot s.mem 2 a v) (pa2pte q ||| ((pteFlags e' ||| PTE_W) &&& ~~~PTE_COW))
        decref (pte2pa (f v))
        pure (0 : ℤ))
      (fun r t' => r = 0 ∧ Uvm t' L' X U a tf n (update f v (copyPte q (f v))) ∧
        Resolved s t' X U a tf n f v (copyPte q (f v))) (fun _ => False) t := by
  have hq : Page q := ht.page (by simp [one_self])
  have hp : Page (pte2pa (f v)) := h.tab.own.user_page hv
  have hfresh := ht.acct.excl q (by simp [one_self])
  simp only [Pi.add_apply, one_self] at hfresh
  have hpriv := private_copyPte (h.space.user v hv) hC q
  have hpa := pte2pa_copyPte hq (f v)
  have hslot := h.slot_ne_zero hv
  have hvn := h.vpn_lt hv
  have hcopy : ∀ x, x < q ∨ q + PGSIZE ≤ x → t.mem.copyBytes q (pte2pa (f v)) PGSIZE x = t.mem x :=
      fun x hx =>
    Bytes.copyBytes_of_not_mem (by omega)
  have hne : ∀ p, 0 < X p + nodes s.mem 2 a p + (U p + span f 0 n p) → p ≠ q := by
    rintro p hp rfl
    omega
  have hsame : ∀ p, 0 < X p + nodes s.mem 2 a p + (U p + span f 0 n p) →
      SameOn s.mem (t.mem.copyBytes q (pte2pa (f v)) PGSIZE) p := fun p hp => by
    rw [← hm]
    exact sameOn_of_write hq (h.tab.own.page (by simpa using hp)) (hne p hp) hcopy
  have htab : Tab { t with mem := t.mem.copyBytes q (pte2pa (f v)) PGSIZE } L' (X + one q)
      (U + span f 0 n) a f := by
    refine h.tab.congr ?_ (fun p hp => hsame p (by omega))
    rw [add_right_comm]
    exact ht.write (p := q) (by simp [one_self]) hcopy
  have hslot' : slot (t.mem.copyBytes q (pte2pa (f v)) PGSIZE) 2 a v = slot s.mem 2 a v :=
    slot_congr (fun p hp => hsame p (by omega))
  have hpte := htab.pteAt_slot hvn (by rw [hslot']; exact hslot)
  obtain ⟨g1, g2, -, -⟩ := htab.setPte (e := copyPte q (f v)) hvn (by rw [hslot']; exact hslot)
  dsimp only at hpte g1 g2
  rw [hslot'] at hpte g1 g2
  simp only [wp_bind, wp_memmove, wp_ldpte, wp_stpte, hpte]
  change wp (decref (pte2pa (f v))) _ _ { t with
    mem := setPte (t.mem.copyBytes q (pte2pa (f v)) PGSIZE) (slot s.mem 2 a v) (copyPte q (f v)) }
  have hcounts := span_update (f := f) (e := copyPte q (f v)) hv
  rw [hpa] at hcounts
  have hown := g1.own
  rw [add_right_comm] at hown
  have hown := hown.retag
  rw [add_assoc, ← hcounts, ← add_assoc] at hown
  refine wp_post (kfree_shared hown) ?_
  rintro _ t' ⟨k1, k2, k3⟩
  dsimp only at k2
  rw [if_neg (by simp only [Pi.add_apply]; omega)] at k1
  have hnew : 0 < span (update f v (copyPte q (f v))) 0 n q := by
    have := span_pos (f := update f v (copyPte q (f v))) hv
    rwa [update_self, hpa] at this
  have huvm : Uvm t' L' X U a tf n (update f v (copyPte q (f v))) := by
    refine ⟨g1.congr k1 (fun p hp => k2 p (Nat.add_pos_left (Nat.add_pos_right _ hp) _)), ?_⟩
    refine h.space.update (Nat.le_of_lt h.lt_TFV) hv hpriv.user (fun w hw _ he => ?_)
    have := span_pos (f := f) hw
    rw [he, hpa] at this
    omega
  rw [wp_pure]
  refine ⟨rfl, huvm, ⟨L', huvm⟩, hpriv, ?_, fun off hoff => ?_, ⟨?_, ?_⟩, fun h0 => ?_⟩
  · rw [hpa]
    omega
  · rw [hpa, k2 q (by simp only [Pi.add_apply]; omega) _ (by omega) (by omega),
      g2 q (by simp [one_self]) _ (by omega) (by omega), ← hm]
    exact (Bytes.copyBytes_of_mem (by omega) (by omega)).trans (by rw [Nat.add_sub_cancel_left])
  · -- the page that lost a mapping is still mapped elsewhere
    intro p hp y h1 h2
    simp only [Pi.add_apply] at hp
    have hstill : 0 < X p + (U p + span (update f v (copyPte q (f v))) 0 n p) := by
      have := congrFun hcounts p
      simp only [Pi.add_apply, one_apply] at this
      split_ifs at this with h1 h2
      all_goals first | omega | (subst h1; omega)
    rw [k2 p (by simp only [Pi.add_apply]; omega) y h1 h2,
      g2 p (by simp only [Pi.add_apply]; omega) y h1 h2, hsame p (by omega) y h1 h2]
  · rw [k3, hal]
    exact List.suffix_cons _ _
  · rw [k3, hal] at h0
    exact (List.mem_cons.mp h0).resolve_left hq.ne_zero.symm

theorem Space.span_eq_one (hs : Space f tf n) (hv : v < n) : span f 0 n (pte2pa (f v)) = 1 := by
  unfold span
  simp only [Nat.zero_add]
  rw [Finset.sum_apply, Finset.sum_eq_single_of_mem v (mem_range.mpr hv), one_self]
  intro w hw hne
  exact one_of_ne (fun he => hne (hs.inj w v (mem_range.mp hw) hv he.symm))

/-- Only user pages have the flags that the trapframe and the trampoline lack. -/
theorem Space.lt_of_has {g : Pte} (hs : Space f tf n) (hg : Small g) (hV : has PTE_V g = false)
    (h1 : has (PTE_R ||| PTE_W) g = false) (h2 : has (PTE_R ||| PTE_X) g = false)
    (h : has (f v) g = true) : v < n := by
  by_contra hv
  have hmk : ∀ (p : ℕ) (x : Pte), has x g = false → has (pa2pte p ||| x ||| PTE_V) g = false :=
      fun p x hx => by
    rw [has_or, has_mk hg, hx, hV]
    rfl
  rcases eq_or_ne v TFV with rfl | hne
  · rw [hs.trapframe, hmk _ _ h1] at h
    exact absurd h (by simp)
  · rcases eq_or_ne v TRV with rfl | hne'
    · rw [hs.trampoline, hmk _ _ h2] at h
      exact absurd h (by simp)
    · rw [hs.unmapped v (by omega) hne hne', has_zero] at h
      exact absurd h (by simp)

theorem Space.lt_of_user (hs : Space f tf n) (h : has (f v) PTE_U = true) : v < n :=
  hs.lt_of_has (by decide) (by decide) (by decide) (by decide) h

theorem Space.not_user (hs : Space f tf n) (hv : n ≤ v) : has (f v) PTE_U = false := by
  by_contra hU
  exact Nat.not_lt.mpr hv (hs.lt_of_user (by simpa using hU))

theorem Uvm.lt_of_user {va : ℕ} (h : Uvm s L X U a tf n f) (hU : has (f (va / PGSIZE)) PTE_U = true) :
    va < MAXVA := by
  have := h.lt_MAXVA (Nat.le_of_lt (h.space.lt_of_user hU))
  unfold MAXVA PGSIZE at *
  omega

theorem Uvm.not_user {va : ℕ} (h : Uvm s L X U a tf n f) (hva : MAXVA ≤ va) :
    has (f (va / PGSIZE)) PTE_U = false := by
  by_contra hU
  exact Nat.not_lt.mpr hva (h.lt_of_user (by simpa using hU))

theorem Space.lt_of_cow (hs : Space f tf n) (h : has (f v) PTE_COW = true) : v < n :=
  hs.lt_of_has (by decide) (by decide) (by decide) (by decide) h

/-- The page at `v` is a user page that a store has to copy first. -/
def CowPage (f : ℕ → Pte) (v : ℕ) : Prop := has (f v) PTE_U = true ∧ has (f v) PTE_COW = true

/-- `handle_cow_fault` for the current process.  It takes a page from the free list exactly if
others map the page, and fails on a copy-on-write page exactly if there is none to take. -/
theorem handleCowFault_exact (h : Uvm s L X U a tf n f) (va : ℕ) :
    wp (handleCowFault (some a) va) (fun r t =>
      (r = -1 ∧ t = s ∧ ¬ CowPage f (va / PGSIZE)) ∨
      (r = -1 ∧ CowPage f (va / PGSIZE) ∧ 0 < U (pte2pa (f (va / PGSIZE))) ∧ L = [] ∧
        t.mem = s.mem ∧ t.allocs = 0 :: s.allocs ∧ Uvm t [] X U a tf n f) ∨
      (r = 0 ∧ va / PGSIZE < n ∧ CowPage f (va / PGSIZE) ∧ ∃ e L',
        Resolved s t X U a tf n f (va / PGSIZE) e ∧ Uvm t L' X U a tf n (update f (va / PGSIZE) e) ∧
        L.length = L'.length + if 0 < U (pte2pa (f (va / PGSIZE))) then 1
        else 0)) (fun _ => False) s := by
  have hdown : pgrounddown va / PGSIZE = va / PGSIZE := mul_div_pgsize _
  unfold handleCowFault
  rw [wp_ite]
  refine ⟨fun hbig => ?_, fun hsmall => ?_⟩
  · rw [wp_pure]
    exact Or.inl ⟨rfl, rfl, fun hc => Nat.not_lt.mpr hbig (h.lt_of_user hc.1)⟩
  · have hlt : pgrounddown va < MAXVA := lt_of_le_of_lt (Nat.div_mul_le_self _ _) (Nat.not_le.mp hsmall)
    have hvn : va / PGSIZE < NVPN := Vm.vpn_lt hlt
    simp only [wp_bind, wp_walk_false hlt, hdown]
    rw [wp_ite]
    refine ⟨fun hz => ?_, fun hslot => ?_⟩
    · rw [wp_pure]
      exact Or.inl ⟨rfl, rfl, fun hc => h.slot_ne_zero (h.space.lt_of_user hc.1) hz⟩
    · simp only [wp_bind, wp_ldpte, h.tab.pteAt_slot hvn hslot]
      rw [wp_ite]
      refine ⟨fun hno => ?_, fun hyes => ?_⟩
      · rw [wp_pure]
        refine Or.inl ⟨rfl, rfl, fun hc => ?_⟩
        have hvalid := (h.space.user _ (h.space.lt_of_user hc.1)).valid
        simp [hvalid, hc.1, hc.2] at hno
      · have hc : CowPage f (va / PGSIZE) := by
          simp only [Bool.or_eq_true, Bool.not_eq_true', not_or, Bool.not_eq_false] at hyes
          exact ⟨hyes.1.2, hyes.2⟩
        have hv : va / PGSIZE < n := h.space.lt_of_user hc.1
        have hpos := span_pos (f := f) hv
        rw [wp_bind]
        refine wp_post (refcount_spec h.tab.own
          (p := pte2pa (f (va / PGSIZE))) (by simp only [Pi.add_apply]; omega)) ?_
        rintro c _ ⟨rfl, hcnt⟩
        rw [wp_ite]
        refine ⟨fun hone => ?_, fun hmany => ?_⟩
        · simp only [wp_bind, wp_stpte, wp_ldpte, pteAt_setPte, setPte_setPte, wp_pure]
          simp only [Pi.add_apply] at hcnt
          obtain ⟨hu, hres⟩ := fault_in_place h hv hc.2 (by omega)
          exact Or.inr (Or.inr ⟨trivial, hv, hc, _, L, hres, hu,
            by rw [if_neg (by omega), Nat.add_zero]⟩)
        · have hx := h.tab.own.acct.shared_not_excl
            (p := pte2pa (f (va / PGSIZE))) (by simp only [Pi.add_apply]; omega)
          have hspan : span f 0 n (pte2pa (f (va / PGSIZE))) = 1 := h.space.span_eq_one hv
          have hshared : 0 < U (pte2pa (f (va / PGSIZE))) := by
            simp only [Pi.add_apply] at hcnt hx
            omega
          rw [wp_bind]
          refine wp_post (kalloc_spec h.tab.own) ?_
          rintro q t ⟨hm, hal, (⟨rfl, rfl, hown⟩ | ⟨L1, rfl, hown⟩)⟩
          · rw [if_pos rfl, wp_pure]
            exact Or.inr (Or.inl ⟨rfl, hc, hshared, rfl, hm, hal,
              h.tab.congr hown (fun _ _ _ _ _ => by rw [hm]), h.space⟩)
          · have hq : Page q := hown.page (by simp [one_self])
            rw [if_neg hq.ne_zero]
            refine wp_post (fault_copy h hown hm hal hv hc.2 hshared) ?_
            rintro r t' ⟨rfl, hu, hr⟩
            refine Or.inr (Or.inr ⟨rfl, hv, hc, _, L1, hr, hu, ?_⟩)
            rw [if_pos hshared, List.length_cons]

end fault

end Xv6Cow.Vm

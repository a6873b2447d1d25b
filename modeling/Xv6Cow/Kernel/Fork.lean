import Xv6Cow.Kernel.Life

/-! # `fork`

`fork` gives the child a slot and a page table, and `uvmcopy` maps the pages of the parent there,
with the right to write replaced by copy-on-write in both tables.  If the pages run out before the
first page is mapped the child is taken apart again; after that the child has pages that its size,
still 0, does not tell of, and taking it apart panics. -/

namespace Xv6Cow.Kernel

open Vm Finset
open Function (update update_self update_of_ne update_eq_self update_idem)

theorem pte2pa_shared {f : ℕ → Pte} {k l v : ℕ} (h : pte2pa (f v) < 2 ^ 56) :
    pte2pa (shared f k l v) = pte2pa (f v) := by
  unfold shared
  split_ifs
  · exact pte2pa_parentPte h
  · rfl

theorem perm_shared (f : ℕ → Pte) (k l v : ℕ) : perm (shared f k l v) = perm (f v) := by
  unfold shared
  split_ifs
  · exact perm_parentPte _
  · rfl

theorem image_shared {s₀ m : Bytes} {n : ℕ} {f : ℕ → Pte} (hp : ∀ v < n, pte2pa (f v) < 2 ^ 56)
    (hk : Frame s₀ m (span f 0 n)) : image m (shared f 0 n) n = image s₀ f n := by
  refine image_congr (fun v hv => ⟨perm_shared _ _ _ _, ?_⟩)
  rw [pte2pa_shared (hp v hv)]
  exact pageBytes_same (hk _ (span_pos hv))

/-- The pages that `fork` takes for a parent of `n` pages: a trapframe, the three page-table pages
for the top of the address space, and those on the way to the pages of the parent. -/
def forkNeed (n : ℕ) : ℕ := 4 + need (fun _ => 2) n 0

theorem need_congr {g g' : ℕ → ℕ} {k l : ℕ} (h : ∀ w, l ≤ w → w < l + k → g w = g' w) :
    need g k l = need g' k l := by
  induction k generalizing g g' l with
  | zero => rfl
  | succ k ih =>
      rw [need, need, h l le_rfl (by omega), ih (fun w h1 h2 => by rw [h w (by omega) (by omega)])]

/-- The child as `fork` leaves it. -/
def forkedProc (s : KState) (i pt tf : ℕ) : Proc :=
  { usedProc s.nextpid pt tf with sz := (s.procs i).sz, parent := some i, state := .runnable }

/-- The state that `fork` leaves. -/
def KState.forked (s : KState) (m : Mach) (i np pt tf : ℕ) : KState :=
  { s with mach := m, nextpid := s.nextpid + 1, procs := update s.procs np (forkedProc s i pt tf) }

section fork
variable [Layout] {s t : KState} {m : Mach} {L L' : List ℕ} {i np pt tf : ℕ}

section
variable (h : Sys s L) (hlive : (s.procs i).state ≠ .unused)
include h hlive

theorem Sys.kern_eq :
    s.kern = s.rest i + nodes s.mach.mem 2 (s.procs i).pagetable := by
  have hi : i ∈ range NPROC := Finset.mem_range.mpr (h.lt_of_live hlive)
  unfold KState.kern KState.rest
  rw [kernOf_erase hi, Proc.kern, if_neg hlive]
  abel

theorem Sys.user_eq :
    s.user = s.others i + span (pmap s.mach.mem (s.procs i).pagetable) 0 (npg (s.procs i).sz) := by
  have hi : i ∈ range NPROC := Finset.mem_range.mpr (h.lt_of_live hlive)
  unfold KState.user KState.others
  rw [userOf_erase hi, Proc.user, if_neg hlive]

theorem NewProc.forking (hn : NewProc s t L L' np pt tf) :
    Forking t.mach L' (s.rest i + one tf) (s.others i) (s.procs i).pagetable pt (s.procs i).trapframe tf
      (npg (s.procs i).sz) 0 (pmap s.mach.mem (s.procs i).pagetable) (bareMap tf) := by
  have hk := h.kern_eq hlive
  have hu := h.user_eq hlive
  have hfocus := (h.focus hlive).uvm
  have hsame : Frame s.mach.mem t.mach.mem (nodes s.mach.mem 2 (s.procs i).pagetable +
      span (pmap s.mach.mem (s.procs i).pagetable) 0 (npg (s.procs i).sz)) :=
      hn.keeps.frame.mono (fun q hq => by
    rw [hk, hu]
    simp only [Pi.add_apply] at hq ⊢
    omega)
  have hnodes : nodes t.mach.mem 2 (s.procs i).pagetable = nodes s.mach.mem 2 (s.procs i).pagetable :=
    nodes_congr (fun q hq => hsame q (by simp only [Pi.add_apply]; omega))
  have hown := hn.uvm.tab.own
  rw [hk, hu, span_zero, add_zero] at hown
  refine ⟨(hfocus.congr ?_ hsame).1, ?_, fun v hv => absurd hv (Nat.not_lt_zero v)⟩
  · rwa [show s.rest i + one tf + nodes t.mach.mem 2 pt + nodes s.mach.mem 2 (s.procs i).pagetable =
      s.rest i + nodes s.mach.mem 2 (s.procs i).pagetable + one tf + nodes t.mach.mem 2 pt by abel]
  · have hchild := hn.uvm
    rw [hk, hu] at hchild
    rwa [hnodes, show s.rest i + one tf + nodes s.mach.mem 2 (s.procs i).pagetable =
      s.rest i + nodes s.mach.mem 2 (s.procs i).pagetable + one tf by abel]

/-- What `uvmcopy` has kept since the start of `fork`. -/
theorem NewProc.keeps_fork (hn : NewProc s t L L' np pt tf)
    (hk : Keeps t.mach m (s.rest i + one tf + (s.others i +
      span (pmap s.mach.mem (s.procs i).pagetable) 0 (npg (s.procs i).sz)))) :
    Keeps s.mach m (s.rest i + (s.others i + span (pmap s.mach.mem (s.procs i).pagetable) 0
      (npg (s.procs i).sz))) := by
  refine (hn.keeps.mono (fun q hq => ?_)).trans (hk.mono (fun q hq => ?_))
  · rw [h.kern_eq hlive, h.user_eq hlive]
    simp only [Pi.add_apply] at hq ⊢
    omega
  · simp only [Pi.add_apply] at hq ⊢
    omega

end

theorem Uvm.write_two {s : Mach} {X U : ℕ → ℕ} {a b n k p tf' : ℕ} {f g : ℕ → Pte} {mem : Bytes}
    (ha : Uvm s L (X + one p + nodes s.mem 2 b) (U + span g 0 k) a tf n f)
    (hb : Uvm s L (X + one p + nodes s.mem 2 a) (U + span f 0 n) b tf' k g)
    (hm : ∀ x, x < p ∨ p + PGSIZE ≤ x → mem x = s.mem x) :
    Uvm { s with mem := mem } L (X + one p + nodes mem 2 b) (U + span g 0 k) a tf n f ∧
      Uvm { s with mem := mem } L (X + one p + nodes mem 2 a) (U + span f 0 n) b tf' k g ∧
      Frame s.mem mem (X + (U + span f 0 n + span g 0 k)) := by
  have hown := ha.tab.own
  rw [show X + one p + nodes s.mem 2 b + nodes s.mem 2 a = X + nodes s.mem 2 b + nodes s.mem 2 a +
    one p by abel] at hown
  obtain ⟨h1, h2, -⟩ := Own.write_excl hown hm
  have hna : nodes mem 2 a = nodes s.mem 2 a :=
    nodes_congr (fun q hq => h2 q (by simp only [Pi.add_apply]; omega))
  have hnb : nodes mem 2 b = nodes s.mem 2 b :=
    nodes_congr (fun q hq => h2 q (by simp only [Pi.add_apply]; omega))
  refine ⟨(ha.congr (t := { s with mem := mem }) ?_ (h2.mono (fun q hq => ?_))).1,
    (hb.congr (t := { s with mem := mem }) ?_ (h2.mono (fun q hq => ?_))).1, h2.mono (fun q hq => ?_)⟩
  · rw [hnb]
    rwa [show X + one p + nodes s.mem 2 b + nodes s.mem 2 a = X + nodes s.mem 2 b +
      nodes s.mem 2 a + one p by abel]
  · simp only [Pi.add_apply] at hq ⊢
    omega
  · rw [hna]
    rwa [show X + one p + nodes s.mem 2 a + nodes s.mem 2 b = X + nodes s.mem 2 b +
      nodes s.mem 2 a +
      one p by abel, show U + span f 0 n + span g 0 k = U + span g 0 k + span f 0 n by abel]
  · simp only [Pi.add_apply] at hq ⊢
    omega
  · simp only [Pi.add_apply] at hq ⊢
    omega

theorem Forking.write {s : Mach} {X U : ℕ → ℕ} {old new n k p : ℕ} {f g : ℕ → Pte} {mem : Bytes}
    {tf' : ℕ} (h : Forking s L (X + one p) U old new tf tf' n k f g)
    (hm : ∀ x, x < p ∨ p + PGSIZE ≤ x → mem x = s.mem x) :
      Forking { s with mem := mem } L (X + one p) U old new tf tf' n k f g ∧
        Frame s.mem mem (X + (U + span f 0 n)) := by
  obtain ⟨h1, h2, h3⟩ := Uvm.write_two h.parent h.child hm
  refine ⟨⟨h1, h2, h.agree⟩, h3.mono (fun q hq => ?_)⟩
  simp only [Pi.add_apply] at hq ⊢
  omega

theorem Forking.sys {g : ℕ → Pte} (child : Proc) (nextpid : ℕ) (h : Sys s L)
    (hlive : (s.procs i).state ≠ .unused) (hlt : np < NPROC) (hnp : (s.procs np).state = .unused)
    (hc : child.state ≠ .unused) (hcpt : child.pagetable = pt) (hctf : child.trapframe = tf)
    (hcsz : child.sz = (s.procs i).sz)
      (hf : Forking m L' (s.rest i + one tf) (s.others i) (s.procs i).pagetable pt
        (s.procs i).trapframe tf (npg (s.procs i).sz) (npg (s.procs i).sz)
      (shared (pmap s.mach.mem (s.procs i).pagetable) 0 (npg (s.procs i).sz))
      (copied g (pmap s.mach.mem (s.procs i).pagetable) 0 (npg (s.procs i).sz)))
    (hk : Frame s.mach.mem m.mem (s.rest i + (s.others i +
      span (pmap s.mach.mem (s.procs i).pagetable) 0 (npg (s.procs i).sz)))) :
    Sys { s with mach := m, nextpid := nextpid, procs := update s.procs np child } L' := by
  have hne : i ≠ np := fun he => hlive (he ▸ hnp)
  have hi : i ∈ (range NPROC).erase np :=
    Finset.mem_erase.mpr ⟨hne, Finset.mem_range.mpr (h.lt_of_live hlive)⟩
  have hir : i ∈ range NPROC := Finset.mem_of_mem_erase hi
  have hnpr : np ∈ range NPROC := Finset.mem_range.mpr hlt
  have hnpi : np ∈ (range NPROC).erase i := Finset.mem_erase.mpr ⟨Ne.symm hne, hnpr⟩
  have hpages : ∀ v < npg (s.procs i).sz, Page (pte2pa (pmap s.mach.mem (s.procs i).pagetable v)) :=
      fun v hv =>
    (h.focus hlive).uvm.tab.own.user_page hv
  have hself : update s.procs np child np = child := update_self _ _ _
  have hpi : update s.procs np child i = s.procs i := update_of_ne hne _ _
  have hcomm : ((range NPROC).erase np).erase i = ((range NPROC).erase i).erase np :=
    Finset.erase_right_comm
  have hsub : ((range NPROC).erase np).erase i ⊆ (range NPROC).erase i := by
    rw [hcomm]
    exact Finset.erase_subset _ _
  have hkern0 : kernOf s.mach.mem s.procs ((range NPROC).erase i) =
      kernOf s.mach.mem s.procs (((range NPROC).erase np).erase i) := by
    rw [hcomm, kernOf_erase hnpi, h.empty np hnp, kern_unused, add_zero]
  have huser0 : userOf s.mach.mem s.procs ((range NPROC).erase i) =
      userOf s.mach.mem s.procs (((range NPROC).erase np).erase i) := by
    rw [hcomm, userOf_erase hnpi, h.empty np hnp, user_unused, add_zero]
  have hfr : Frame s.mach.mem m.mem (kernOf s.mach.mem s.procs (((range NPROC).erase np).erase i)) :=
    hk.mono (fun q hq => by
      unfold KState.rest
      rw [hkern0]
      simp only [Pi.add_apply]
      omega)
  have ha : ∀ j ∈ ((range NPROC).erase np).erase i, (s.procs j).Alike (update s.procs np child j) :=
      fun j hj => by
    rw [update_of_ne (Finset.ne_of_mem_erase (Finset.mem_of_mem_erase hj))]
    exact Proc.Alike.refl _
  have hkern := kernOf_congr hfr ha
  have huser := userOf_congr hfr ha
  have hmapi := hf.parent.tab.map
  have hmapc := hf.child.tab.map
  have hown := hf.parent.tab.own
  refine ⟨?_, ?_, fun j hu => ?_, fun j hge => ?_⟩
  · dsimp only
    rw [kernOf_erase hnpr, kernOf_erase hi, userOf_erase hnpr, userOf_erase hi, hkern, huser, hself, hpi]
    unfold Proc.kern Proc.user
    rw [if_neg hlive, if_neg hlive, if_neg hc, if_neg hc, hcpt, hctf, hcsz, hmapi, hmapc]
    unfold KState.rest KState.others at hown
    rw [hkern0, huser0] at hown
    rwa [show kernOf s.mach.mem s.procs (((range NPROC).erase np).erase i) + (one (s.procs i).trapframe +
      nodes m.mem 2 (s.procs i).pagetable) + (one tf + nodes m.mem 2 pt) + pages s.held + pages s.pipes =
      kernOf s.mach.mem s.procs (((range NPROC).erase np).erase i) + one (s.procs i).trapframe +
      pages s.held +
      pages s.pipes + one tf + nodes m.mem 2 pt +
      nodes m.mem 2 (s.procs i).pagetable by abel, add_right_comm (userOf _ _ _)]
  · dsimp only
    have hsep : ∀ v < npg (s.procs i).sz, Unwritten m.mem (update s.procs np child)
        (((range NPROC).erase np).erase i) (pte2pa (pmap s.mach.mem (s.procs i).pagetable v)) :=
        fun v hv =>
      ((h.slots.sep i hir hlive v hv).mono hsub).congr hfr ha
    have h0 : Slots m.mem (update s.procs np child) (((range NPROC).erase np).erase i) :=
      (h.slots.mono (hsub.trans (Finset.erase_subset _ _))).congr hfr ha
    have hnoW : ∀ v < npg (s.procs i).sz,
        has (shared (pmap s.mach.mem (s.procs i).pagetable) 0 (npg (s.procs i).sz) v) PTE_W =
        false := fun v hv => by
      unfold shared
      rw [if_pos ⟨Nat.zero_le _, hv⟩]
      exact parentPte_not_W _
    have h1 : Slots m.mem (update s.procs np child) ((range NPROC).erase np) := by
      rw [← Finset.insert_erase hi]
      refine h0.insert (Finset.notMem_erase _ _) ?_ ?_ (fun v hv => ?_) (fun v hv hW => ?_)
      all_goals rw [hpi] at *
      · exact hf.parent.tab.wf
      · rw [hmapi]
        exact hf.parent.space
      · rw [hmapi, pte2pa_shared (hpages v hv).lt]
        exact hsep v hv
      · rw [hmapi, hnoW v hv] at hW
        exact absurd hW (by simp)
    rw [← Finset.insert_erase hnpr]
    refine h1.insert (Finset.notMem_erase _ _) ?_ ?_ (fun v hv => ?_) (fun v hv hW => ?_)
    all_goals rw [hself] at *
    · rw [hcpt]
      exact hf.child.tab.wf
    · rw [hcpt, hctf, hcsz, hmapc]
      exact hf.child.space
    · rw [hcsz] at hv
      rw [hcpt, hmapc, hf.agree v hv, pte2pa_shared (hpages v hv).lt]
      intro j hj hlivej w hw hW
      rcases eq_or_ne j i with rfl | hji
      · rw [hpi] at hw hW
        rw [hmapi, hnoW w hw] at hW
        exact absurd hW (by simp)
      · exact hsep v hv j (Finset.mem_erase.mpr ⟨hji, hj⟩) hlivej w hw hW
    · rw [hcsz] at hv
      rw [hcpt, hmapc] at hW
      unfold copied at hW
      rw [if_pos ⟨Nat.zero_le _, hv⟩, childPte_not_W] at hW
      exact absurd hW (by simp)
  · dsimp only at hu ⊢
    rcases eq_or_ne j np with rfl | hj
    · rw [hself] at hu
      exact absurd hu hc
    · rw [update_of_ne hj] at hu ⊢
      exact h.empty j hu
  · dsimp only
    rw [update_of_ne (by omega)]
    exact h.bound j hge

/-! ### `fork` up to `uvmcopy` -/

/-- The state after a complete `uvmcopy` into the slot that `allocproc` found. -/
structure Copying (s u t : KState) (L L₁ L' : List ℕ) (i np pt tf : ℕ) : Prop where
  new : NewProc s u L L₁ np pt tf
  state : t = { u with mach := t.mach }
  keeps : Keeps u.mach t.mach (s.rest i + one tf + (s.others i +
    span (pmap s.mach.mem (s.procs i).pagetable) 0 (npg (s.procs i).sz)))
  forking : Forking t.mach L' (s.rest i + one tf) (s.others i) (s.procs i).pagetable pt
    (s.procs i).trapframe tf (npg (s.procs i).sz) (npg (s.procs i).sz)
    (shared (pmap s.mach.mem (s.procs i).pagetable) 0 (npg (s.procs i).sz))
    (copied (bareMap tf) (pmap s.mach.mem (s.procs i).pagetable) 0 (npg (s.procs i).sz))
  taken : L.length = L'.length + forkNeed (npg (s.procs i).sz)
  full : 0 ∈ t.mach.allocs → 0 ∈ s.mach.allocs

/-- The state after `uvmcopy` has run out of pages at page `j`. -/
structure CopyFailed (s u t : KState) (L L₁ : List ℕ) (i np pt tf j : ℕ) : Prop where
  new : NewProc s u L L₁ np pt tf
  state : t = { u with mach := t.mach }
  keeps : Keeps u.mach t.mach (s.rest i + one tf + (s.others i +
    span (pmap s.mach.mem (s.procs i).pagetable) 0 (npg (s.procs i).sz)))
  tables : nodes t.mach.mem 2 (s.procs i).pagetable = nodes u.mach.mem 2 (s.procs i).pagetable
  forking : Forking t.mach [] (s.rest i + one tf) (s.others i) (s.procs i).pagetable pt
    (s.procs i).trapframe tf (npg (s.procs i).sz) j
    (shared (pmap s.mach.mem (s.procs i).pagetable) 0 (j + 1))
    (copied (bareMap tf) (pmap s.mach.mem (s.procs i).pagetable) 0 j)
  lt : j < npg (s.procs i).sz
  failed : 0 ∈ t.mach.allocs
  short : L.length < forkNeed (npg (s.procs i).sz)
  first : j = 0 ↔ L.length < 6

theorem forkCopy_spec (h : Sys s L) (hlive : (s.procs i).state ≠ .unused) :
    wp (forkCopy i) (fun r t => (findUnused s.procs = none ∧ r = none ∧ t = s) ∨
      (findUnused s.procs ≠ none ∧ r = none ∧ L.length < 4 ∧ NoProc s t) ∨
      ∃ np, findUnused s.procs = some np ∧
        ((r = some (np, 0) ∧ ∃ pt tf u L₁ L', Copying s u t L L₁ L' i np pt tf) ∨
          (r = some (np, -1) ∧ ∃ pt tf u L₁ j, CopyFailed s u t L L₁ i np pt tf j)))
            (fun _ => False) s := by
  simp only [forkCopy, wp_bind]
  refine wp_post (allocproc_spec h) ?_
  rintro r u (⟨h1, rfl, rfl⟩ | ⟨h1, rfl, h2, h3⟩ | ⟨np, pt, tf, L₁, hfind, rfl, hnew⟩)
  · simp only [wp_pure]
    exact Or.inl ⟨h1, trivial, trivial⟩
  · simp only [wp_pure]
    exact Or.inr (Or.inl ⟨h1, trivial, h2, h3⟩)
  · obtain ⟨hlt, hnp⟩ := findUnused_some hfind
    have hne : i ≠ np := fun he => hlive (he ▸ hnp)
    have hpi : u.procs i = s.procs i := by
      rw [hnew.state]
      exact update_of_ne hne _ _
    have hpn : u.procs np = usedProc s.nextpid pt tf := by
      rw [hnew.state]
      exact update_self _ _ _
    have hsmall : npg (s.procs i).sz < 2 ^ 18 := by
      have h1 := card_le_ramPages (fun v hv => (h.focus hlive).uvm.tab.own.user_page hv)
        (h.focus hlive).uvm.space.inj
      have h2 := ramPages_small
      omega
    have hneed : need (gap u.mach.mem 2 pt) (npg (s.procs i).sz) 0 =
        need (fun _ => 2) (npg (s.procs i).sz) 0 :=
      need_congr (fun w _ hw => hnew.gap w (by omega))
    have htaken := hnew.taken
    simp only [wp_bind, wp_getProc, wp_vm, hpi, hpn, usedProc]
    refine wp_post (uvmcopy_spec (hnew.forking h hlive)) ?_
    rintro r m ⟨hk, hn, (⟨rfl, L', hf, hlen, hfull⟩ | ⟨rfl, j, hj, hf, h0, hlen, hfirst⟩)⟩
    · rw [wp_pure]
      rw [hneed] at hlen
      exact Or.inr (Or.inr ⟨np, hfind, Or.inl ⟨rfl, pt, tf, u, L₁, L', hnew, rfl, hk, hf,
        by unfold forkNeed; omega, fun h0 => hnew.full (hfull h0)⟩⟩)
    · rw [wp_pure]
      rw [hneed] at hlen
      rw [hnew.gap 0 (by omega)] at hfirst
      exact Or.inr (Or.inr ⟨np, hfind, Or.inr ⟨rfl, pt, tf, u, L₁, j, hnew, rfl, hk, hn, hf, hj, h0,
        by unfold forkNeed; omega,
        by omega⟩⟩)

/-! ### The end of `fork` -/

/-- What a `fork` that ran out of pages leaves when it returns. -/
structure ForkFailed (s t : KState) : Prop where
  sys : ∃ L', Sys t L'
  state : t = { s with mach := t.mach, nextpid := s.nextpid + 1 }
  hist : s.mach.allocs <:+ t.mach.allocs
  failed : 0 ∈ t.mach.allocs
  spent : Spent t.mach
  abs : ∀ j, (s.procs j).abs t.mach.mem = (s.procs j).abs s.mach.mem
  kern : t.kern = s.kern
  user : t.user = s.user

theorem NoProc.forkFailed (h : Sys s L) (hn : NoProc s t) : ForkFailed s t := by
  have hps : t.procs = s.procs := by rw [hn.state]
  have hheld : t.held = s.held := by rw [hn.state]
  have hpipes : t.pipes = s.pipes := by rw [hn.state]
  have hf : Frame s.mach.mem t.mach.mem (kernOf s.mach.mem s.procs (range NPROC) +
      userOf s.mach.mem s.procs (range NPROC)) := hn.keeps.frame.mono (fun q hq => by
    unfold KState.kern KState.user
    simp only [Pi.add_apply] at hq ⊢
    omega)
  have hf' : Frame s.mach.mem t.mach.mem (kernOf s.mach.mem s.procs (range NPROC)) :=
      hf.mono (fun q hq => by
    simp only [Pi.add_apply]
    omega)
  refine ⟨hn.sys, hn.state, hn.keeps.hist, hn.failed, hn.spent,
    fun j => Proc.abs_congr (h.image_kernel hf j), ?_, ?_⟩
  · unfold KState.kern
    rw [hps, hheld, hpipes, kernOf_congr hf' (fun j _ => Proc.Alike.refl _)]
  · unfold KState.user
    rw [hps, userOf_congr hf' (fun j _ => Proc.Alike.refl _)]

/-- The child that has no page yet is taken apart again: the parent has lost the right to write its
first page in place, and nothing else. -/
theorem CopyFailed.free {u : KState} {L₁ : List ℕ} (h : Sys s L) (hlive : (s.procs i).state ≠ .unused)
    (hnp : (s.procs np).state = .unused) (hc : CopyFailed s u t L L₁ i np pt tf 0) :
    wp (freeproc np) (fun _ t' => ForkFailed s t') (fun _ => False) t := by
  have hf := hc.forking
  have hpn : t.procs np = usedProc s.nextpid pt tf := by
    rw [hc.state, hc.new.state]
    exact update_self _ _ _
  have hown := hf.child.tab.own
  have htf : Page tf := hown.page (by simp only [Pi.add_apply, one_self]; omega)
  have hpt : Page pt := hown.page (by
    have := nodes_self (m := t.mach.mem) 2 pt
    simp only [Pi.add_apply]
    omega)
  have hpages : ∀ v < npg (s.procs i).sz, pte2pa (pmap s.mach.mem (s.procs i).pagetable v) <
      2 ^ 56 := fun v hv =>
    ((h.focus hlive).uvm.tab.own.user_page hv).lt
  rw [show s.rest i + one tf + nodes t.mach.mem 2 (s.procs i).pagetable + nodes t.mach.mem 2 pt =
    s.rest i + nodes t.mach.mem 2 (s.procs i).pagetable + nodes t.mach.mem 2 pt + one tf by abel] at hown
  simp only [freeproc, wp_bind, wp_getProc, hpn, usedProc, ne_eq, htf.ne_zero, hpt.ne_zero,
    not_false_eq_true, if_true, wp_vm, wp_modifyProc]
  refine wp_post (kfree_excl hown) ?_
  rintro _ m₁ ⟨k1, k2, k3⟩
  have hchild : Uvm m₁ [tf] (s.rest i + nodes t.mach.mem 2 (s.procs i).pagetable) _ pt tf (npg 0) _ :=
    (hf.child.congr k1 (k2.mono (fun q hq => by simp only [Pi.add_apply] at hq ⊢; omega))).1
  refine wp_post (procFreepagetable_spec 0 hchild) ?_
  rintro _ m₂ ⟨L', f1, f2, f3⟩
  have hfinal : ({ t with mach := m₂, procs := update t.procs np {} } : KState) =
      { s with mach := m₂, nextpid := s.nextpid + 1 } := by
    rw [hc.state, hc.new.state]
    dsimp only
    rw [update_idem, ← h.empty np hnp, update_eq_self]
  rw [show ({ t with mach := m₂, procs := update t.procs np {} } : KState) =
      { s with mach := m₂, nextpid := s.nextpid + 1 } from hfinal]
  generalize hF : shared (pmap s.mach.mem (s.procs i).pagetable) 0 (0 + 1) = f' at *
  have hpa : ∀ v < npg (s.procs i).sz, pte2pa (f' v) =
      pte2pa (pmap s.mach.mem (s.procs i).pagetable v) := fun v hv => by
    rw [← hF, pte2pa_shared (hpages v hv)]
  have hperm : ∀ v, perm (f' v) = perm (pmap s.mach.mem (s.procs i).pagetable v) :=
    fun v => by rw [← hF, perm_shared]
  have hspan : span f' 0 (npg (s.procs i).sz) = span (pmap s.mach.mem (s.procs i).pagetable) 0
      (npg (s.procs i).sz) :=
    span_congr (fun v hv => by rw [hpa _ (by omega)])
  have hfr : Frame t.mach.mem m₂.mem (s.rest i + nodes t.mach.mem 2 (s.procs i).pagetable +
      (s.others i + span f' 0 (npg (s.procs i).sz))) :=
    Frame.trans (k2.mono (fun q hq => by simp only [Pi.add_apply] at hq ⊢; omega)) f2
  have hk0 := hc.new.keeps_fork h hlive hc.keeps
  have hk : Keeps s.mach m₂ (s.rest i + (s.others i +
      span (pmap s.mach.mem (s.procs i).pagetable) 0 (npg (s.procs i).sz))) := by
    refine hk0.trans ⟨hfr.mono (fun q hq => ?_), by rw [f3, k3]⟩
    rw [hspan]
    simp only [Pi.add_apply] at hq ⊢
    omega
  have hko : Keeps s.mach m₂ (s.rest i + s.others i) := hk.mono (fun q hq => by
    simp only [Pi.add_apply] at hq ⊢
    omega)
  have hparent := hf.parent
  rw [span_zero, add_zero] at hparent
  have hu : User m₂ L' (s.rest i) (s.others i) (s.procs i).pagetable (s.procs i).trapframe
      (npg (s.procs i).sz) f' := by
    refine ⟨(hparent.congr f1 (hfr.mono
      (fun q hq => by simp only [Pi.add_apply] at hq ⊢; omega))).1, fun v hv hW => ?_⟩
    rw [hpa v hv]
    refine (h.focus hlive).excl v hv ?_
    rw [← hF] at hW
    unfold shared at hW
    split_ifs at hW with h0
    · rw [parentPte_not_W] at hW
      exact absurd hW (by simp)
    · exact hW
  have himg : image m₂.mem f' (npg (s.procs i).sz) =
      image s.mach.mem (pmap s.mach.mem (s.procs i).pagetable) (npg (s.procs i).sz) := by
    refine image_congr (fun v hv => ⟨hperm v, ?_⟩)
    rw [hpa v hv]
    have hpos := span_pos (f := pmap s.mach.mem (s.procs i).pagetable) hv
    exact pageBytes_same (hk.frame _ (by simp only [Pi.add_apply]; omega))
  obtain ⟨L'', hsys⟩ := (h.changed hlive hu hko (fun v _ => hperm v) (fun v hv _ => hpa v hv)
    (fun _ => rfl)).sys
  have hsys' : Sys { s with mach := m₂, nextpid := s.nextpid + 1 } L'' :=
    hsys.alike (fun _ => Proc.Alike.refl _) hsys.empty
  have hmap : pmap m₂.mem (s.procs i).pagetable = f' := hu.uvm.tab.map
  have hnodes : nodes m₂.mem 2 (s.procs i).pagetable = nodes s.mach.mem 2 (s.procs i).pagetable := by
    rw [nodes_congr (fun q hq => hfr q (by simp only [Pi.add_apply]; omega)), hc.tables]
    refine nodes_congr (fun q hq => hc.new.keeps.frame q ?_)
    rw [h.kern_eq hlive]
    simp only [Pi.add_apply]
    omega
  obtain ⟨hrest, hothers⟩ := KState.rest_congr (s.nextpid + 1) (KState.frame_outside hko.frame)
  refine ⟨⟨L'', hsys'⟩, rfl, hk.hist, ?_, ?_, fun j => Proc.abs_congr ?_, ?_, ?_⟩
  · dsimp only
    rw [f3, k3]
    exact hc.failed
  · unfold Spent
    dsimp only
    rw [f3, k3]
    exact Own.spent hf.parent.tab.own
  · rcases eq_or_ne j i with rfl | hj
    · dsimp only
      rw [hmap]
      exact himg
    · exact h.image_others (KState.frame_outside hko.frame) hj
  · rw [hsys'.kern_eq hlive, h.kern_eq hlive, hrest]
    dsimp only
    rw [hnodes]
  · rw [hsys'.user_eq hlive, h.user_eq hlive, hothers]
    dsimp only
    rw [hmap, hspan]

theorem Forking.image_child {s₀ : Bytes} {s : Mach} {X U : ℕ → ℕ} {old new n tf' : ℕ} {f g : ℕ → Pte}
    (h : Forking s L X U old new tf tf' n n (shared f 0 n) (copied g f 0 n))
    (hp : ∀ v < n, pte2pa (f v) < 2 ^ 56) (hk : Frame s₀ s.mem (span f 0 n)) :
    image s.mem (copied g f 0 n) n = image s₀ f n := by
  refine image_congr (fun v hv => ⟨?_, ?_⟩)
  · unfold copied
    rw [if_pos ⟨Nat.zero_le _, hv⟩, perm_childPte]
  · rw [h.agree v hv, pte2pa_shared (hp v hv)]
    exact pageBytes_same (hk _ (span_pos hv))

/-- `fork` that succeeds: the child has the image of its parent. -/
theorem Copying.next {u : KState} {L₁ : List ℕ} {mem : Bytes} (h : Sys s L) (hi : i < NPROC)
    (hrun : (s.procs i).state = .runnable) (hfind : findUnused s.procs = some np)
    (hc : Copying s u t L L₁ L' i np pt tf) (hm : ∀ x, x < tf ∨ tf + PGSIZE ≤ x → mem x = t.mach.mem x) :
    Sys (s.forked { t.mach with mem := mem } i np pt tf) L' ∧
      Next s (s.forked { t.mach with mem := mem } i np pt tf) (.fork i) := by
  have hlive := live_of_runs hrun
  obtain ⟨hlt, hnp⟩ := findUnused_some hfind
  have hne : i ≠ np := fun he => hlive (he ▸ hnp)
  have hpages : ∀ v < npg (s.procs i).sz, pte2pa (pmap s.mach.mem (s.procs i).pagetable v) <
      2 ^ 56 := fun v hv =>
    ((h.focus hlive).uvm.tab.own.user_page hv).lt
  obtain ⟨hf, hfr⟩ := Forking.write hc.forking hm
  have hspan : span (shared (pmap s.mach.mem (s.procs i).pagetable) 0 (npg (s.procs i).sz)) 0
      (npg (s.procs i).sz) = span (pmap s.mach.mem (s.procs i).pagetable) 0 (npg (s.procs i).sz) :=
    span_congr (fun v hv => by rw [pte2pa_shared (hpages _ (by omega))])
  rw [hspan] at hfr
  have hk0 := hc.new.keeps_fork h hlive hc.keeps
  have hk : Frame s.mach.mem mem (s.rest i + (s.others i +
      span (pmap s.mach.mem (s.procs i).pagetable) 0 (npg (s.procs i).sz))) := hk0.frame.trans hfr
  have hku : Frame s.mach.mem mem (span (pmap s.mach.mem (s.procs i).pagetable) 0
      (npg (s.procs i).sz)) :=
    hk.mono (fun q hq => by simp only [Pi.add_apply]; omega)
  have hko : Frame s.mach.mem mem (s.outside i + s.others i) := hk.mono (fun q hq => by
    rw [s.rest_eq]
    simp only [Pi.add_apply] at hq ⊢
    omega)
  have hsys := Forking.sys (forkedProc s i pt tf) (s.nextpid + 1) h hlive hlt hnp
    (by simp [forkedProc]) rfl rfl rfl hf hk
  have hmapi : pmap mem (s.procs i).pagetable = _ := hf.parent.tab.map
  have hmapc : pmap mem pt = _ := hf.child.tab.map
  have hold : ∀ j, j ≠ np → (s.procs j).abs mem = (s.procs j).abs s.mach.mem := fun j _ => by
    refine Proc.abs_congr ?_
    rcases eq_or_ne j i with rfl | hji
    · rw [hmapi]
      exact image_shared hpages hku
    · exact h.image_others (t := { t.mach with mem := mem }) hko hji
  have hnew : (forkedProc s i pt tf).abs mem =
      { state := .runnable, pid := s.nextpid, parent := some i, sz := (s.procs i).sz,
        image := (s.abs.procs i).image } := by
    unfold Proc.abs forkedProc usedProc
    dsimp only
    rw [hmapc, Forking.image_child hf hpages hku]
    rfl
  refine ⟨hsys, ⟨L', hsys⟩, hk0.hist, ⟨fun j hj _ v => ?_, fun j hj hj' => ⟨rfl, fun v => ?_⟩,
    fun j hj hne => ?_⟩, fun _ => ?_⟩
  · have hjnp : j ≠ np := fun he => hj (he ▸ hnp)
    refine Or.inl (rights_of_abs ?_ v)
    dsimp only [KState.forked]
    rw [update_of_ne hjnp]
    exact hold j hjnp
  · have hjnp : j = np := by
      by_contra hjnp
      dsimp only [KState.forked] at hj'
      rw [update_of_ne hjnp] at hj'
      exact hj' hj
    subst hjnp
    unfold RState.rights KState.abs KState.forked
    dsimp only [Op.slot]
    rw [update_self, hnew]
    rfl
  · have hjnp : j ≠ np := fun he => hj (he ▸ hnp)
    dsimp only [KState.forked] at hne
    rw [update_of_ne hjnp] at hne
    exact absurd rfl hne
  · rw [RState.step, RState.byProc_of_runs (r := s.abs) hi hrun]
    refine congrArg some ?_
    have hfind' : s.abs.findUnused = some np := hfind
    unfold RState.fork
    rw [hfind']
    unfold RState.modifyProc KState.abs KState.forked
    dsimp only
    rw [RState.mk.injEq]
    refine ⟨funext (fun j => ?_), rfl, rfl⟩
    rcases eq_or_ne j np with rfl | hj
    · rw [update_self, update_self, hnew]
      rfl
    · rw [update_of_ne hj, update_of_ne hj]
      exact (hold j hj).symm

theorem ForkFailed.next (h : ForkFailed s t) : Next s t (.fork i) := by
  have hps : t.procs = s.procs := by rw [h.state]
  refine ⟨h.sys, h.hist, Rights.of_eq (fun j v => rights_of_abs ?_ v)
    (fun j => by rw [hps]; exact ⟨id, rfl⟩), fun h0 => absurd h.failed h0⟩
  rw [hps]
  exact h.abs j

theorem CopyFailed.stuck {u : KState} {L₁ : List ℕ} {j : ℕ}
    (hc : CopyFailed s u t L L₁ i np pt tf j) (hj : j ≠ 0) :
    wp (freeproc np) (fun _ _ => False) (fun e => e = .freewalkLeaf) t := by
  have hf := hc.forking
  have hpn : t.procs np = usedProc s.nextpid pt tf := by
    rw [hc.state, hc.new.state]
    exact update_self _ _ _
  have hown := hf.child.tab.own
  have htf : Page tf := hown.page (by simp only [Pi.add_apply, one_self]; omega)
  have hpt : Page pt := hown.page (by
    have := nodes_self (m := t.mach.mem) 2 pt
    simp only [Pi.add_apply]
    omega)
  rw [show s.rest i + one tf + nodes t.mach.mem 2 (s.procs i).pagetable + nodes t.mach.mem 2 pt =
    s.rest i + nodes t.mach.mem 2 (s.procs i).pagetable + nodes t.mach.mem 2 pt + one tf by abel] at hown
  simp only [freeproc, wp_bind, wp_getProc, hpn, usedProc, ne_eq, htf.ne_zero, hpt.ne_zero,
    not_false_eq_true, if_true, wp_vm, wp_modifyProc]
  refine wp_post (kfree_excl hown) ?_
  rintro _ m₁ ⟨k1, k2, k3⟩
  have hchild := (hf.child.congr k1 (k2.mono (fun q hq => by simp only [Pi.add_apply] at hq ⊢; omega))).1
  exact wp_mono (procFreepagetable_leaf hchild (by omega)) (fun _ _ hn => hn.elim) (fun e he => he)

/-- What `fork` does: there is no slot; there are too few pages for the first page of the child, and
all is undone; or the child is made. -/
inductive ForkResult (s t : KState) (L : List ℕ) (i : ℕ) : ℤ → Prop
  | noSlot (hfind : findUnused s.procs = none) (hs : t = s) : ForkResult s t L i (-1)
  | noPages (hlen : L.length < 6) (hneed : L.length < forkNeed (npg (s.procs i).sz))
      (hf : ForkFailed s t) : ForkResult s t L i (-1)
  | child (hfind : findUnused s.procs ≠ none) (hleft : ∃ L', Sys t L' ∧ L.length = L'.length +
      forkNeed (npg (s.procs i).sz)) (hfull : 0 ∈ t.mach.allocs → 0 ∈ s.mach.allocs)
      (hn : Next s t (.fork i)) : ForkResult s t L i s.nextpid

/-- The `fork` that panics: it has a page for the child but not all. -/
structure ForkStuck (s : KState) (L : List ℕ) (i : ℕ) : Prop where
  slot : findUnused s.procs ≠ none
  first : 6 ≤ L.length
  short : L.length < forkNeed (npg (s.procs i).sz)
  copy : ∃ np u, forkCopy i s = .ok (some (np, -1), u)

theorem fork_spec (h : Sys s L) (hi : i < NPROC) (hrun : (s.procs i).state = .runnable) :
    wp (fork i) (fun r t => ForkResult s t L i r) (fun e => e = .freewalkLeaf ∧ ForkStuck s L i) s := by
  have hlive := live_of_runs hrun
  simp only [fork, wp_bind]
  refine wp_post (wp_run (forkCopy_spec h hlive)) ?_
  rintro r t ⟨hcopy, (⟨h1, rfl, rfl⟩ | ⟨h1, rfl, h2, h3⟩ | ⟨np, hfind,
    (⟨rfl, pt, tf, u, L₁, L', hc⟩ | ⟨rfl, pt, tf, u, L₁, j, hc⟩)⟩)⟩
  · simp only [wp_pure]
    exact .noSlot h1 rfl
  · simp only [wp_pure]
    exact .noPages (by omega) (by unfold forkNeed; omega) (h3.forkFailed h)
  · obtain ⟨hlt, hnp⟩ := findUnused_some hfind
    have hne : i ≠ np := fun he => hlive (he ▸ hnp)
    have hpi : t.procs i = s.procs i := by
      rw [hc.state, hc.new.state]
      exact update_of_ne hne _ _
    have hpn : t.procs np = usedProc s.nextpid pt tf := by
      rw [hc.state, hc.new.state]
      exact update_self _ _ _
    simp only [if_neg (show ¬ (0 : ℤ) < 0 by decide), wp_bind, wp_getProc, wp_modifyProc, wp_vm,
      wp_memmove, stword, wp_modify, wp_pure, hpi, hpn]
    have hm : ∀ x, x < tf ∨ tf + PGSIZE ≤ x →
        (t.mach.mem.copyBytes tf (s.procs i).trapframe TF_SIZE).setLe (tf + TF_A0) 8 0 x =
        t.mach.mem x := fun x hx => by
      unfold PGSIZE at hx
      rw [Bytes.setLe_of_not_mem (by unfold TF_A0; omega),
        Bytes.copyBytes_of_not_mem (by unfold TF_SIZE; omega)]
    have hsome : findUnused s.procs ≠ none := by
      rw [hfind]
      simp
    have hnext := hc.next h hi hrun hfind hm
    have hstate : ({ t with
        mach := { t.mach with
          mem := (t.mach.mem.copyBytes tf (s.procs i).trapframe TF_SIZE).setLe (tf + TF_A0) 8 0 }
        procs := update (update t.procs np { usedProc s.nextpid pt tf with sz := (s.procs i).sz })
          np { update t.procs np { usedProc s.nextpid pt tf with sz := (s.procs i).sz } np with
            parent := some i, state := .runnable } } : KState) =
        s.forked { t.mach with
          mem := (t.mach.mem.copyBytes tf (s.procs i).trapframe TF_SIZE).setLe (tf + TF_A0) 8 0 } i
            np pt tf := by
      rw [update_self, update_idem]
      rw [hc.state, hc.new.state]
      dsimp only [KState.forked]
      rw [update_idem]
      rfl
    exact .child hsome ⟨L', hstate ▸ hnext.1, hc.taken⟩ hc.full (hstate ▸ hnext.2)
  · obtain ⟨hlt, hnp⟩ := findUnused_some hfind
    simp only [if_pos (show (-1 : ℤ) < 0 by decide), wp_bind, wp_pure]
    have hsome : findUnused s.procs ≠ none := by
      rw [hfind]
      simp
    have hfirst := hc.first
    rcases eq_or_ne j 0 with rfl | hj
    · exact wp_post (hc.free h hlive hnp) (fun _ t' hf => .noPages (hfirst.mp rfl) hc.short hf)
    · refine wp_mono (hc.stuck hj) (fun _ _ hn => hn.elim)
        (fun e he => ⟨he, hsome, ?_, hc.short, np, t, hcopy⟩)
      omega

end fork

end Xv6Cow.Kernel

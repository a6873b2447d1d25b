import Xv6Cow.Kernel.System
import Xv6Cow.Lib.Runs

/-! # What holds in every run

The results about whole runs of the kernel from power-on.  `Reaches mem n ops s` says that the
machine with memory `mem` boots, with `n` pages for the kernel itself, and performs the operations
`ops`; the state is then `s`.  A run ends where the kernel panics. -/

namespace Xv6Cow.Kernel

open Vm Finset

section owners
variable {s : KState}

/-! ### Owners of pages -/

/-- The user page-table entries that map the page `p`, as slot and virtual page: the valid entries
below `TRAPFRAME` of the processes. -/
def userPtes (s : KState) (p : ℕ) : Finset (ℕ × ℕ) :=
  (range NPROC ×ˢ range TFV).filter (fun x => (s.procs x.1).state ≠ .unused ∧
    has (pmap s.mach.mem (s.procs x.1).pagetable x.2) PTE_V = true ∧
    pte2pa (pmap s.mach.mem (s.procs x.1).pagetable x.2) = p)

theorem mem_userPtes {i v p : ℕ} : (i, v) ∈ userPtes s p ↔ i < NPROC ∧ v < TFV ∧
    (s.procs i).state ≠ .unused ∧ has (pmap s.mach.mem (s.procs i).pagetable v) PTE_V = true ∧
      pte2pa (pmap s.mach.mem (s.procs i).pagetable v) = p := by
  rw [userPtes, Finset.mem_filter, Finset.mem_product, Finset.mem_range, Finset.mem_range, and_assoc]

/-- The page `p` is a trapframe or a page-table page of a process, a page that the kernel took
directly, or a pipe. -/
def KernelPage (s : KState) (p : ℕ) : Prop :=
  (∃ j < NPROC, (s.procs j).state ≠ .unused ∧
    (p = (s.procs j).trapframe ∨ 0 < nodes s.mach.mem 2 (s.procs j).pagetable p)) ∨ p ∈ s.held ∨
    p ∈ s.pipes

instance (s : KState) (p : ℕ) : Decidable (KernelPage s p) :=
  inferInstanceAs (Decidable ((∃ j < NPROC, (s.procs j).state ≠ .unused ∧
    (p = (s.procs j).trapframe ∨ 0 < nodes s.mach.mem 2 (s.procs j).pagetable p)) ∨ p ∈ s.held ∨
    p ∈ s.pipes))

/-- The number of owners of the page `p`. -/
def owners (s : KState) (p : ℕ) : ℕ := (userPtes s p).card + if KernelPage s p then 1 else 0

theorem kern_pos_iff (p : ℕ) : 0 < s.kern p ↔ KernelPage s p := by
  unfold KState.kern KernelPage
  simp only [Pi.add_apply]
  constructor
  · intro hpos
    rcases Nat.eq_zero_or_pos (pages s.held p) with h1 | h1
    · rcases Nat.eq_zero_or_pos (pages s.pipes p) with h2 | h2
      · left
        have hsum : kernOf s.mach.mem s.procs (range NPROC) p ≠ 0 := by omega
        rw [kernOf, Finset.sum_apply] at hsum
        obtain ⟨j, hj, hne⟩ := Finset.exists_ne_zero_of_sum_ne_zero hsum
        rcases eq_or_ne (s.procs j).state .unused with hu | hlive
        · rw [Proc.kern, if_pos hu] at hne
          exact absurd rfl hne
        · rw [Proc.kern, if_neg hlive, Pi.add_apply, one_apply] at hne
          refine ⟨j, Finset.mem_range.mp hj, hlive, ?_⟩
          split_ifs at hne with hp
          · exact Or.inl hp
          · right
            omega
      · exact Or.inr (Or.inr (mem_of_pages_pos h2))
    · exact Or.inr (Or.inl (mem_of_pages_pos h1))
  · rintro (⟨j, hj, hlive, hp⟩ | hp | hp)
    · have hle := kern_le s.mach.mem s.procs (Finset.mem_range.mpr hj) p
      rw [Proc.kern, if_neg hlive, Pi.add_apply] at hle
      rcases hp with rfl | hp
      · rw [one_self] at hle
        omega
      · omega
    · have := pages_pos hp
      omega
    · have := pages_pos hp
      omega

theorem rights_of_lt {j v : ℕ} (hv : v < npg (s.procs j).sz) :
    s.abs.rights j v = some (perm (pmap s.mach.mem (s.procs j).pagetable v)) := by
  rw [rights_eq, image_of_lt hv, Option.map_some]

theorem perm_w_eq_false {e : Pte} : (perm e).w = false ↔ has e PTE_W = false ∧
    has e PTE_COW = false := by
  simp [perm]

end owners

/-- The memory that the kernel image leaves, for one build. -/
@[reducible] def sampleLayout : Layout where
  kernelEnd := 0x80022000
  trampoline := 0x80007000
  kernbase_le := by decide
  trampoline_mod := by decide
  trampoline_lt := by decide
  kernelEnd_le := by decide

theorem sampleLayout_ramPages : @ramPages sampleLayout = 32734 := by decide

section runs
variable [Layout] {mem : Bytes} {n : ℕ} {ops : List Op} {s s₀ t : KState} {L : List ℕ}

/-- A run of the kernel from power-on. -/
def Reaches (mem : Bytes) (n : ℕ) (ops : List Op) (s : KState) : Prop :=
  ∃ s₀, boot n (powerOn mem) = .ok ((), s₀) ∧ Runs.exec step s₀ ops = some s

theorem booted (hn : n + 7 ≤ ramPages) (h : boot n (powerOn mem) = .ok ((), s₀)) : ∃ L, Booted s₀ L := by
  obtain ⟨L, hb, -⟩ := wp_ok (boot_spec mem hn) h
  exact ⟨L, hb⟩

/-- **The invariant holds in every run.** -/
theorem Reaches.sys (hn : n + 7 ≤ ramPages) (h : Reaches mem n ops s) : ∃ L, Sys s L := by
  obtain ⟨s₀, hboot, hrun⟩ := h
  obtain ⟨L, hb⟩ := booted hn hboot
  refine Runs.exec_invariant (I := fun s => ∃ L, Sys s L) ⟨L, hb.sys⟩ (fun t op u ht hs => ?_) hrun
  obtain ⟨L, hsys⟩ := ht
  exact (step_next hsys hs).sys

theorem step_of_perform {op : Op} {u : Unit} (h : perform op s = .ok (u, t)) : step s op = some t := by
  rw [step, StateT.run, h]
  rfl

theorem step_of_wp {op : Op} {P : KState → Prop} (h : wp (perform op) (fun _ => P) (fun _ => False) s) :
    ∃ t, step s op = some t ∧ P t := by
  obtain ⟨u, t, hok, ht⟩ := wp_returns h
  exact ⟨t, step_of_perform hok, ht⟩

theorem fork_step {i : ℕ} (h : Sys s L) (hi : i < NPROC) (hrun : (s.procs i).state = .runnable)
    (hfind : findUnused s.procs ≠ none) (hneed : forkNeed (npg (s.procs i).sz) ≤ L.length) :
    ∃ t, step s (.fork i) = some t ∧ (∃ L', Sys t L' ∧ L.length = L'.length +
      forkNeed (npg (s.procs i).sz)) ∧ (0 ∈ t.mach.allocs → 0 ∈ s.mach.allocs) := by
  apply step_of_wp
  rw [perform, wp_byProc]
  refine ⟨fun _ => wp_mono (fork_spec h hi hrun) (fun r t hr => ?_) (fun e he => ?_),
    fun hr => absurd ⟨hi, hrun⟩ hr⟩
  · cases hr with
    | noSlot hnone _ => exact absurd hnone hfind
    | noPages _ hshort _ => omega
    | child _ hleft hfull _ => exact ⟨hleft, hfull⟩
  · have := he.2.short
    omega

theorem init_forks (mem : Bytes) (hn : 13 ≤ ramPages) : ∃ s₀ s, boot 0 (powerOn mem) =
    .ok ((), s₀) ∧ Runs.exec step s₀ [.fork 0] = some s ∧ 0 ∉ s.mach.allocs := by
  obtain ⟨_, s₀, hboot, L, hb, hlen, -⟩ := wp_returns (boot_spec mem (n := 0) (by omega))
  have hsz : npg PGSIZE = 1 := by decide
  have hneed : forkNeed 1 = 6 := by decide
  obtain ⟨s, hs, -, hfull⟩ :=
    fork_step (i := 0) hb.sys (by decide) hb.init.1 (by rw [hb.slot]; simp)
      (by rw [hb.init.2, hsz, hneed]; omega)
  exact ⟨s₀, s, hboot, Runs.exec_cons.mpr ⟨s, hs, rfl⟩, fun h0 => hb.full (hfull h0)⟩

/-! ### Copy-on-write refines eager copies -/

/-- The kernel and the reference perform the same operation; the new pages of the reference hold
what the pages that the kernel mapped held before. -/
def lockstep (p : KState × RState) (op : Op) : Option (KState × RState) :=
  (step p.1 op).bind (fun t => (p.2.step (p.1.fresh t op.slot) op).map (fun r => (t, r)))

theorem lockstep_of_step {r : RState} {op : Op} (hs : step s op = some t)
    (hr : s.abs.step (s.fresh t op.slot) op = some r) : lockstep (s, s.abs) op = some (t, r) := by
  simp [lockstep, hs, hr]

theorem exec_hist (h : Sys s₀ L) (hrun : Runs.exec step s₀ ops = some s) :
    s₀.mach.allocs <:+ s.mach.allocs := by
  refine (Runs.exec_invariant (I := fun u => (∃ L, Sys u L) ∧ s₀.mach.allocs <:+ u.mach.allocs)
    ⟨⟨L, h⟩, List.suffix_refl _⟩ (fun u op u' hu hs => ?_) hrun).2
  obtain ⟨⟨L₁, hu⟩, hsuf⟩ := hu
  have hn := step_next hu hs
  exact ⟨hn.sys, hsuf.trans hn.hist⟩

theorem exec_lockstep (h : Sys s₀ L) (hrun : Runs.exec step s₀ ops = some s)
    (hfull : 0 ∉ s.mach.allocs) : Runs.exec lockstep (s₀, s₀.abs) ops = some (s, s.abs) := by
  induction ops generalizing s₀ L with
  | nil =>
      rw [Runs.exec_nil, Option.some.injEq] at hrun
      rw [Runs.exec_nil, hrun]
  | cons op ops ih =>
      obtain ⟨t, hs, hrest⟩ := Runs.exec_cons.mp hrun
      have hnext := step_next h hs
      obtain ⟨L', hsys⟩ := hnext.sys
      have hnot : 0 ∉ t.mach.allocs := fun h0 => hfull ((exec_hist hsys hrest).subset h0)
      exact Runs.exec_cons.mpr ⟨_, lockstep_of_step hs (hnext.abs hnot), ih hsys hrest⟩

theorem Sys.loadByte {i : ℕ} (h : Sys s L) (hlive : (s.procs i).state ≠ .unused) (va : ℕ) :
    Kernel.loadByte (s.procs i).pagetable va s.mach = .ok ((s.abs.procs i).image.load va, s.mach) := by
  have hload : wp (Kernel.loadByte (s.procs i).pagetable va)
      (fun b m => b = (s.abs.procs i).image.load va ∧ m = s.mach) (fun _ => False) s.mach := by
    rw [wp_loadByte (h.focus hlive).uvm]
    exact ⟨rfl, rfl⟩
  obtain ⟨b, m, hok, rfl, rfl⟩ := wp_returns hload
  exact hok

/-- **Copy-on-write fork refines eager-copy fork.**  In a run in which `kalloc` does not fail, the
reference performs the same operations, and then a load by any process in use finds in the kernel
what it finds in the reference. -/
theorem cow_refines_eager (hn : n + 7 ≤ ramPages) (hboot : boot n (powerOn mem) = .ok ((), s₀))
    (hrun : Runs.exec step s₀ ops = some s) (hfull : 0 ∉ s.mach.allocs) :
    ∃ r, Runs.exec lockstep (s₀, s₀.abs) ops = some (s, r) ∧
      ∀ i, (s.procs i).state ≠ .unused → (r.procs i).state = (s.procs i).state ∧
        ∀ va, loadByte (s.procs i).pagetable va s.mach = .ok ((r.procs i).image.load va, s.mach) := by
  obtain ⟨L, hb⟩ := booted hn hboot
  obtain ⟨L', hsys⟩ := Reaches.sys hn ⟨s₀, hboot, hrun⟩
  exact ⟨s.abs, exec_lockstep hb.sys hrun hfull, fun i hlive => ⟨rfl, hsys.loadByte hlive⟩⟩

end runs

theorem cow_refines_eager_fork : letI := sampleLayout
    ∃ s₀ s, boot 0 (powerOn (fun _ => 0)) = .ok ((), s₀) ∧ Runs.exec step s₀ [.fork 0] = some s ∧
      0 ∉ s.mach.allocs ∧ ∃ r, Runs.exec lockstep (s₀, s₀.abs) [.fork 0] = some (s, r) ∧
        ∀ i, (s.procs i).state ≠ .unused → (r.procs i).state = (s.procs i).state ∧
          ∀ va, loadByte (s.procs i).pagetable va s.mach = .ok ((r.procs i).image.load va, s.mach) := by
  let := sampleLayout
  have hram := sampleLayout_ramPages
  obtain ⟨s₀, s, hboot, hrun, hfull⟩ := init_forks (fun _ => 0) (by omega)
  exact ⟨s₀, s, hboot, hrun, hfull, cow_refines_eager (by omega) hboot hrun hfull⟩

theorem first_process : letI := sampleLayout
    ∃ s, Reaches (fun _ => 0) 0 [] s ∧ (s.procs 0).state = .runnable ∧ (s.procs 0).sz = 4096 := by
  let := sampleLayout
  have hram := sampleLayout_ramPages
  obtain ⟨_, s₀, hboot, L, hb, -⟩ := wp_returns (boot_spec (fun _ => 0) (n := 0) (by omega))
  exact ⟨s₀, ⟨s₀, hboot, rfl⟩, hb.init⟩

section accounting
variable [Layout] {mem : Bytes} {n : ℕ} {ops : List Op} {s s₀ t : KState} {L : List ℕ}

/-! ### Page accounting -/

theorem sum_slot (h : Sys s L) (p j : ℕ) :
    (∑ v ∈ range TFV, if (s.procs j).state ≠ .unused ∧
      has (pmap s.mach.mem (s.procs j).pagetable v) PTE_V = true ∧
        pte2pa (pmap s.mach.mem (s.procs j).pagetable v) = p then 1
          else 0) = (s.procs j).user s.mach.mem p := by
  rcases eq_or_ne (s.procs j).state .unused with hu | hlive
  · rw [Proc.user, if_pos hu]
    exact Finset.sum_eq_zero (fun v _ => if_neg (fun hc => hc.1 hu))
  · have hfocus := (h.focus hlive).uvm
    have hTR := TRV_eq
    rw [Proc.user, if_neg hlive, span, Finset.sum_apply]
    symm
    rw [← Finset.sum_subset (Finset.range_subset_range.mpr (Nat.le_of_lt hfocus.lt_TFV))]
    · refine Finset.sum_congr rfl (fun v hv => ?_)
      rw [one_apply, Nat.zero_add]
      have hvalid := (hfocus.space.user v (Finset.mem_range.mp hv)).valid
      simp [hlive, hvalid, eq_comm]
    · intro v hv hvn
      rw [Finset.mem_range] at hv hvn
      refine if_neg (fun hc => ?_)
      rw [hfocus.space.unmapped v (by omega) (by omega) (by omega), has_zero] at hc
      exact absurd hc.2.1 (by simp)

theorem card_userPtes (h : Sys s L) (p : ℕ) : (userPtes s p).card = s.user p := by
  rw [userPtes, Finset.card_filter, Finset.sum_product, KState.user, userOf, Finset.sum_apply]
  exact Finset.sum_congr rfl (fun j _ => sum_slot h p j)

theorem owners_eq (h : Sys s L) (p : ℕ) : owners s p = s.kern p + s.user p := by
  have hexcl : 0 < s.kern p → s.kern p + s.user p = 1 := h.own.acct.excl p
  have hpos := kern_pos_iff (s := s) p
  unfold owners
  rw [card_userPtes h]
  split_ifs with hk
  · have h1 := hpos.mpr hk
    have h2 := hexcl h1
    omega
  · have : s.kern p = 0 := Nat.eq_zero_of_not_pos (fun hp => hk (hpos.mp hp))
    omega

/-- **Exact page accounting.**  In every state of every run the free list is a list without
duplicates, a page is on it exactly if its count is not positive, every other page counts its
owners, and no page is without both. -/
theorem page_accounting (hn : n + 7 ≤ ramPages) (h : Reaches mem n ops s) :
    ∃ L, Chain s.mach.mem s.mach.freelist L ∧ L.Nodup ∧
      (∀ p, Page p → (p ∈ L ↔ s.mach.refcnt (p / PGSIZE) ≤ 0)) ∧
      (∀ p ∈ L, s.mach.refcnt (p / PGSIZE) = if p ∈ s.mach.allocs then 0 else -1) ∧
      (∀ p, Page p → p ∉ L → s.mach.refcnt (p / PGSIZE) = owners s p) ∧
      ∀ p, Page p → (p ∈ L ↔ owners s p = 0) := by
  obtain ⟨L, hsys⟩ := h.sys hn
  have hacct := hsys.own.acct
  refine ⟨L, hsys.own.chain, hacct.nodup, fun p hp => hacct.mem_free_iff_cnt hp, fun p hp => ?_,
    fun p hp hf => ?_, fun p hp => ?_⟩
  · split_ifs with hh
    · exact hacct.cnt_used p hp hh
    · exact hacct.cnt_fresh p hp hh
  · rw [owners_eq hsys]
    exact hacct.cnt_owned p hp hf
  · rw [owners_eq hsys]
    exact hacct.mem_free_iff hp

end accounting

theorem page_accounting_fork : letI := sampleLayout
    ∃ s, Reaches (fun _ => 0) 0 [.fork 0] s ∧ ∃ L, Chain s.mach.mem s.mach.freelist L ∧ L.Nodup ∧
      (∀ p, Page p → (p ∈ L ↔ s.mach.refcnt (p / PGSIZE) ≤ 0)) ∧
      (∀ p ∈ L, s.mach.refcnt (p / PGSIZE) = if p ∈ s.mach.allocs then 0 else -1) ∧
      (∀ p, Page p → p ∉ L → s.mach.refcnt (p / PGSIZE) = owners s p) ∧
      ∀ p, Page p → (p ∈ L ↔ owners s p = 0) := by
  let := sampleLayout
  have hram := sampleLayout_ramPages
  obtain ⟨s₀, s, hboot, hrun, -⟩ := init_forks (fun _ => 0) (by omega)
  exact ⟨s, ⟨s₀, hboot, hrun⟩, page_accounting (by omega) ⟨s₀, hboot, hrun⟩⟩

section shape
variable [Layout] {mem : Bytes} {n : ℕ} {ops : List Op} {s s₀ t : KState} {L : List ℕ}

/-! ### The shape of address spaces -/

theorem Sys.valid_iff (h : Sys s L) {j : ℕ} (hlive : (s.procs j).state ≠ .unused) (v : ℕ) :
    has (pmap s.mach.mem (s.procs j).pagetable v) PTE_V = true ↔
      v * PGSIZE < pgroundup (s.procs j).sz ∨ v * PGSIZE = TRAPFRAME ∨ v * PGSIZE = TRAMPOLINE := by
  have hu := (h.focus hlive).uvm
  have hs := hu.space
  have hpos : 0 < PGSIZE := by decide
  have hmk : ∀ e : Pte, has (e ||| PTE_V) PTE_V = true := fun e => by
    have hV : has PTE_V PTE_V = true := by decide
    rw [has_or, hV, Bool.or_true]
  rw [pgroundup_eq (lt_trans hu.sz_lt (by norm_num)), TRAPFRAME_eq, TRAMPOLINE_eq,
    Nat.mul_lt_mul_right hpos, Nat.mul_left_inj hpos.ne', Nat.mul_left_inj hpos.ne']
  constructor
  · intro hV
    by_contra hn
    push Not at hn
    rw [hs.unmapped v hn.1 hn.2.1 hn.2.2, has_zero] at hV
    exact absurd hV (by simp)
  · rintro (hv | rfl | rfl)
    · exact (hs.user v hv).valid
    · rw [hs.trapframe]
      exact hmk _
    · rw [hs.trampoline]
      exact hmk _

theorem Sys.top_not_user (h : Sys s L) {j : ℕ} (hlive : (s.procs j).state ≠ .unused) :
    has (pmap s.mach.mem (s.procs j).pagetable TFV) PTE_U = false ∧
      has (pmap s.mach.mem (s.procs j).pagetable TRV) PTE_U = false := by
  have hu := (h.focus hlive).uvm
  have hlt := hu.lt_TFV
  have hTR := TRV_eq
  exact ⟨hu.space.not_user (by omega), hu.space.not_user (by omega)⟩

/-- **Address-space shape.**  In every state of every run, and for every process in use, the entries
above the last level lead to tables, and the valid entries of the last level are those of
`[0, PGROUNDUP(sz))`, of `TRAPFRAME` and of `TRAMPOLINE`, the last two not for the user; and an
operation that is not a `fork` whose `uvmcopy` fails stops the kernel only when the first process
exits. -/
theorem address_space_shape (hn : n + 7 ≤ ramPages) (h : Reaches mem n ops s) :
    (∀ j, (s.procs j).state ≠ .unused → Wf s.mach.mem 2 (s.procs j).pagetable ∧
      (∀ v, has (pmap s.mach.mem (s.procs j).pagetable v) PTE_V = true ↔
        v * PGSIZE < pgroundup (s.procs j).sz ∨ v * PGSIZE = TRAPFRAME ∨ v * PGSIZE = TRAMPOLINE) ∧
      has (pmap s.mach.mem (s.procs j).pagetable (TRAPFRAME / PGSIZE)) PTE_U = false ∧
      has (pmap s.mach.mem (s.procs j).pagetable (TRAMPOLINE / PGSIZE)) PTE_U = false) ∧
    ∀ op e, perform op s = .error e →
      (∀ i np u, op = .fork i → forkCopy i s ≠ .ok (some (np, -1), u)) → e = .initExiting := by
  obtain ⟨L, hsys⟩ := h.sys hn
  refine ⟨fun j hlive => ⟨(hsys.focus hlive).uvm.tab.wf, hsys.valid_iff hlive,
    hsys.top_not_user hlive⟩, fun op e he hcopy => ?_⟩
  have hstop := wp_error (perform_spec op hsys) he
  cases hstop with
  | init _ => rfl
  | fork hstuck =>
      obtain ⟨np, u, hc⟩ := hstuck.copy
      exact absurd hc (hcopy _ np u rfl)

end shape

theorem address_space_shape_fork : letI := sampleLayout
    ∃ s, Reaches (fun _ => 0) 0 [.fork 0] s ∧
      (∀ j, (s.procs j).state ≠ .unused → Wf s.mach.mem 2 (s.procs j).pagetable ∧
        (∀ v, has (pmap s.mach.mem (s.procs j).pagetable v) PTE_V = true ↔
          v * PGSIZE < pgroundup (s.procs j).sz ∨ v * PGSIZE = TRAPFRAME ∨ v * PGSIZE = TRAMPOLINE) ∧
        has (pmap s.mach.mem (s.procs j).pagetable (TRAPFRAME / PGSIZE)) PTE_U = false ∧
        has (pmap s.mach.mem (s.procs j).pagetable (TRAMPOLINE / PGSIZE)) PTE_U = false) ∧
      ∀ op e, perform op s = .error e →
        (∀ i np u, op = .fork i → forkCopy i s ≠ .ok (some (np, -1), u)) → e = .initExiting := by
  let := sampleLayout
  have hram := sampleLayout_ramPages
  obtain ⟨s₀, s, hboot, hrun, -⟩ := init_forks (fun _ => 0) (by omega)
  exact ⟨s, ⟨s₀, hboot, hrun⟩, address_space_shape (by omega) ⟨s₀, hboot, hrun⟩⟩

section exclusivity
variable [Layout] {mem : Bytes} {n : ℕ} {ops : List Op} {s s₀ t : KState} {L : List ℕ}

/-! ### Write exclusivity -/

/-- The pages of each slot that `exec` mapped without `PTE_W`, after a step from `s` to `t`: a new
process has those of its parent, a page table that took the place of another is that of an `exec`,
and a page that is given back is forgotten. -/
def readOnlyNext (s t : KState) (op : Op) (ro : ℕ → ℕ → Bool) (j v : ℕ) : Bool :=
  decide (v < npg (t.procs j).sz) &&
    if (s.procs j).state = .unused then
      match op with
      | .fork i => ro i v
      | _ => false
    else if (t.procs j).pagetable = (s.procs j).pagetable then ro j v
    else !has (pmap t.mach.mem (t.procs j).pagetable v) PTE_W

/-- A step of the kernel that keeps the record of read-only pages. -/
def readOnlyStep (p : KState × (ℕ → ℕ → Bool)) (op : Op) : Option (KState × (ℕ → ℕ → Bool)) :=
  (step p.1 op).map (fun t => (t, readOnlyNext p.1 t op p.2))

/-- Every page of the record is mapped, by a process in use, without the right to write. -/
def ReadOnly (p : KState × (ℕ → ℕ → Bool)) : Prop :=
  (∃ L, Sys p.1 L) ∧ ∀ j v, p.2 j v = true → (p.1.procs j).state ≠ .unused ∧
    v < npg (p.1.procs j).sz ∧ has (pmap p.1.mach.mem (p.1.procs j).pagetable v) PTE_W = false ∧
    has (pmap p.1.mach.mem (p.1.procs j).pagetable v) PTE_COW = false

theorem Sys.live_of_lt (h : Sys s L) {j v : ℕ} (hv : v < npg (s.procs j).sz) :
    (s.procs j).state ≠ .unused := by
  intro hu
  rw [h.empty j hu] at hv
  exact Nat.not_lt_zero v hv

theorem readOnly_step {p q : KState × (ℕ → ℕ → Bool)} {op : Op} (h : ReadOnly p)
    (hs : readOnlyStep p op = some q) : ReadOnly q := by
  obtain ⟨⟨L, hsys⟩, hro⟩ := h
  obtain ⟨t, hstep, rfl⟩ := Option.map_eq_some_iff.mp hs
  have hnext := step_next hsys hstep
  obtain ⟨L', hsys'⟩ := hnext.sys
  refine ⟨⟨L', hsys'⟩, fun j v hv => ?_⟩
  simp only [readOnlyNext, Bool.and_eq_true, decide_eq_true_eq] at hv
  obtain ⟨hlt, hv⟩ := hv
  have hlive := hsys'.live_of_lt hlt
  refine ⟨hlive, hlt, ?_⟩
  have hsame : ∀ {i}, p.2 i v = true → t.abs.rights j v = p.1.abs.rights i v →
      has (pmap t.mach.mem (t.procs j).pagetable v) PTE_W = false ∧
        has (pmap t.mach.mem (t.procs j).pagetable v) PTE_COW = false := by
    intro i hi heq
    obtain ⟨-, hlti, hw⟩ := hro i v hi
    rw [rights_of_lt hlt, rights_of_lt hlti, Option.some.injEq] at heq
    rw [← perm_w_eq_false, heq, perm_w_eq_false]
    exact hw
  split_ifs at hv with hu hpt
  · -- a new process
    obtain ⟨hop, hr⟩ := hnext.rights.born j hu hlive
    rw [hop] at hv
    exact hsame hv (hr v)
  · -- an address space that was there before
    refine hsame hv ?_
    obtain ⟨-, hlti, -⟩ := hro j v hv
    rcases hnext.rights.kept j hu hpt v with heq | hnone | hnone
    · exact heq
    · rw [rights_of_lt hlt] at hnone
      exact absurd hnone (by simp)
    · rw [rights_of_lt hlti] at hnone
      exact absurd hnone (by simp)
  · -- an `exec`
    exact ⟨by simpa using hv, hnext.rights.moved j hu hpt v hlt⟩

/-- A valid entry below the trapframe is that of a page of the process. -/
theorem Sys.lt_of_valid (h : Sys s L) {i v : ℕ} (hlive : (s.procs i).state ≠ .unused) (hv : v < TFV)
    (hV : has (pmap s.mach.mem (s.procs i).pagetable v) PTE_V = true) : v < npg (s.procs i).sz := by
  have hTR := TRV_eq
  by_contra hn
  rw [(h.focus hlive).uvm.space.unmapped v (by omega) (by omega) (by omega), has_zero] at hV
  exact absurd hV (by simp)

theorem Sys.writable_once (h : Sys s L) {i v : ℕ} (hlive : (s.procs i).state ≠ .unused)
    (hv : v < npg (s.procs i).sz) (hW : has (pmap s.mach.mem (s.procs i).pagetable v) PTE_W = true) :
    s.kern (pte2pa (pmap s.mach.mem (s.procs i).pagetable v)) = 0 ∧
      s.user (pte2pa (pmap s.mach.mem (s.procs i).pagetable v)) = 1 := by
  have hfocus := h.focus hlive
  have huser : s.user (pte2pa (pmap s.mach.mem (s.procs i).pagetable v)) = 1 := by
    rw [h.user_eq hlive, Pi.add_apply, hfocus.excl v hv hW, hfocus.uvm.space.span_eq_one hv]
  refine ⟨h.own.acct.shared_not_excl ?_, huser⟩
  change 0 < s.user _
  omega

/-- The page of a writable entry has a count of one, and no other entry of any user table names
it. -/
theorem Sys.writable_alone (h : Sys s L) {i v : ℕ} (hlive : (s.procs i).state ≠ .unused)
    (hlt : v < TFV) (hV : has (pmap s.mach.mem (s.procs i).pagetable v) PTE_V = true)
    (hW : has (pmap s.mach.mem (s.procs i).pagetable v) PTE_W = true) :
    s.mach.refcnt (pte2pa (pmap s.mach.mem (s.procs i).pagetable v) / PGSIZE) = 1 ∧
      userPtes s (pte2pa (pmap s.mach.mem (s.procs i).pagetable v)) = {(i, v)} := by
  obtain ⟨hkern, huser⟩ := h.writable_once hlive (h.lt_of_valid hlive hlt hV) hW
  constructor
  · have hpos : 0 < s.kern (pte2pa (pmap s.mach.mem (s.procs i).pagetable v)) +
        s.user (pte2pa (pmap s.mach.mem (s.procs i).pagetable v)) := by omega
    have hcnt : s.mach.refcnt (pte2pa (pmap s.mach.mem (s.procs i).pagetable v) / PGSIZE) =
        s.kern (pte2pa (pmap s.mach.mem (s.procs i).pagetable v)) +
          s.user (pte2pa (pmap s.mach.mem (s.procs i).pagetable v)) := h.own.acct.cnt_eq hpos
    omega
  · symm
    apply Finset.eq_of_subset_of_card_le
    · rw [Finset.singleton_subset_iff, mem_userPtes]
      exact ⟨h.lt_of_live hlive, hlt, hlive, hV, rfl⟩
    · rw [card_userPtes h, huser, Finset.card_singleton]

/-- **Write exclusivity.**  In every state of every run no user entry has both `PTE_W` and
`PTE_COW`; the page of an entry with `PTE_W` is mapped by no other user entry of any process and has
count 1; a process maps no page twice; and the pages that `exec` mapped without `PTE_W` are without
`PTE_W` and `PTE_COW`, in the process and in those it forked. -/
theorem write_exclusivity {ro : ℕ → ℕ → Bool} (hn : n + 7 ≤ ramPages)
    (hboot : boot n (powerOn mem) = .ok ((), s₀))
    (hrun : Runs.exec readOnlyStep (s₀, fun _ _ => false) ops = some (s, ro)) :
      (∀ i v, (s.procs i).state ≠ .unused → v < TRAPFRAME / PGSIZE →
        has (pmap s.mach.mem (s.procs i).pagetable v) PTE_V = true →
      ¬ (has (pmap s.mach.mem (s.procs i).pagetable v) PTE_W = true ∧
        has (pmap s.mach.mem (s.procs i).pagetable v) PTE_COW = true) ∧
      (has (pmap s.mach.mem (s.procs i).pagetable v) PTE_W = true →
        s.mach.refcnt (pte2pa (pmap s.mach.mem (s.procs i).pagetable v) / PGSIZE) = 1 ∧
        userPtes s (pte2pa (pmap s.mach.mem (s.procs i).pagetable v)) = {(i, v)}) ∧
      ∀ w < TRAPFRAME / PGSIZE, has (pmap s.mach.mem (s.procs i).pagetable w) PTE_V = true →
        pte2pa (pmap s.mach.mem (s.procs i).pagetable v) =
          pte2pa (pmap s.mach.mem (s.procs i).pagetable w) → v = w) ∧
    ∀ i v, ro i v = true → has (pmap s.mach.mem (s.procs i).pagetable v) PTE_W = false ∧
      has (pmap s.mach.mem (s.procs i).pagetable v) PTE_COW = false := by
  obtain ⟨L, hb⟩ := booted hn hboot
  obtain ⟨⟨L', hsys⟩, hro⟩ : ReadOnly (s, ro) := by
    refine Runs.exec_invariant (I := ReadOnly) ⟨⟨L, hb.sys⟩, fun j v hv => ?_⟩
      (fun _ _ _ ht hs => readOnly_step ht hs) hrun
    exact absurd hv (by simp)
  refine ⟨fun i v hlive hlt hV => ?_, fun i v hv => (hro i v hv).2.2⟩
  have hspace := (hsys.focus hlive).uvm.space
  have hv := hsys.lt_of_valid hlive hlt hV
  refine ⟨(hspace.user v hv).excl, fun hW => ?_, fun w hw hVw he =>
    hspace.inj v w hv (hsys.lt_of_valid hlive hw hVw) he⟩
  exact hsys.writable_alone hlive hlt hV hW

end exclusivity

theorem write_exclusivity_fork : letI := sampleLayout
    ∃ s₀ s ro, boot 0 (powerOn (fun _ => 0)) = .ok ((), s₀) ∧
      Runs.exec readOnlyStep (s₀, fun _ _ => false) [.fork 0] = some (s, ro) ∧
      (∀ i v, (s.procs i).state ≠ .unused → v < TRAPFRAME / PGSIZE →
        has (pmap s.mach.mem (s.procs i).pagetable v) PTE_V = true →
        ¬ (has (pmap s.mach.mem (s.procs i).pagetable v) PTE_W = true ∧
          has (pmap s.mach.mem (s.procs i).pagetable v) PTE_COW = true) ∧
        (has (pmap s.mach.mem (s.procs i).pagetable v) PTE_W = true →
          s.mach.refcnt (pte2pa (pmap s.mach.mem (s.procs i).pagetable v) / PGSIZE) = 1 ∧
          userPtes s (pte2pa (pmap s.mach.mem (s.procs i).pagetable v)) = {(i, v)}) ∧
        ∀ w < TRAPFRAME / PGSIZE, has (pmap s.mach.mem (s.procs i).pagetable w) PTE_V = true →
          pte2pa (pmap s.mach.mem (s.procs i).pagetable v) =
            pte2pa (pmap s.mach.mem (s.procs i).pagetable w) → v = w) ∧
      ∀ i v, ro i v = true → has (pmap s.mach.mem (s.procs i).pagetable v) PTE_W = false ∧
        has (pmap s.mach.mem (s.procs i).pagetable v) PTE_COW = false := by
  let := sampleLayout
  have hram := sampleLayout_ramPages
  obtain ⟨s₀, s, hboot, hrun, -⟩ := init_forks (fun _ => 0) (by omega)
  obtain ⟨t, hstep, ht⟩ := Runs.exec_cons.mp hrun
  rw [Runs.exec_nil, Option.some.injEq] at ht
  subst ht
  have hro : Runs.exec readOnlyStep (s₀, fun _ _ => false) [.fork 0] =
      some (t, readOnlyNext s₀ t (.fork 0) (fun _ _ => false)) := by
    refine Runs.exec_cons.mpr ⟨_, ?_, rfl⟩
    rw [readOnlyStep, hstep, Option.map_some]
  exact ⟨s₀, t, _, hboot, hro, write_exclusivity (by omega) hboot hro⟩

end Xv6Cow.Kernel

import Xv6Cow.Kernel.Runs

/-! # A `fork` that runs out of pages

What is left after a `fork` for which the free list is too short.  `forkNeed` says how many pages
`fork` takes.  With fewer than six free pages no page of the parent is mapped in the child, and
`freeproc` takes the child apart; the free pages are then the same as before, but a page that had
never been handed out has lost its count of -1.  With six or more, `uvmcopy` has mapped pages in the
child before it fails, `np->sz` is still 0, and `freeproc` panics in `freewalk`. -/

namespace Xv6Cow.Kernel

open Vm Finset

/-! ### The pages that `fork` takes -/

theorem dist_two {w v : ℕ} (hw : w < 2 ^ 18) (hv : v < 2 ^ 18) : dist 2 w v = if w / 512 =
    v / 512 then 0 else 1 := by
  have h1 : idx 2 w = idx 2 v := by
    unfold idx
    omega
  have h2 : idx 1 w = w / 512 := by
    unfold idx
    omega
  have h3 : idx 1 v = v / 512 := by
    unfold idx
    omega
  change (if idx 2 w = idx 2 v then if idx 1 w = idx 1 v then 0 else 1 else 2) = _
  rw [if_pos h1, h2, h3]

theorem need_after {k i : ℕ} {g : ℕ → ℕ} (hi : 0 < i) (hk : i + k ≤ 2 ^ 18)
    (hg : ∀ w, i ≤ w → w < i + k → g w = if w / 512 = (i - 1) / 512 then 0 else 1) :
    need g k i = (i + k - 1) / 512 - (i - 1) / 512 := by
  induction k generalizing i g with
  | zero =>
      rw [need, Nat.add_zero, Nat.sub_self]
  | succ k ih =>
      have hrest := ih (i := i + 1) (g := fun w => min (g w) (dist 2 w i)) (by omega) (by omega)
          (fun w h1 h2 => by
        rw [hg w (by omega) (by omega), dist_two (by omega) (by omega), Nat.add_sub_cancel]
        split_ifs <;> omega)
      rw [need, hrest, hg i le_rfl (by omega)]
      split_ifs <;> omega

/-- The pages that `fork` takes: four for an empty parent, and otherwise one more for the table of
the middle level and one for each 512 pages of the parent. -/
theorem forkNeed_eq {n : ℕ} (hn : n ≤ 2 ^ 18) : forkNeed n = if n = 0 then 4
    else 5 + (n + 511) / 512 := by
  cases n with
  | zero => rfl
  | succ n =>
      have hafter := need_after (k := n) (i := 1) (g := fun w => min 2 (dist 2 w 0)) one_pos
          (by omega) (fun w h1 h2 => by
        rw [dist_two (by omega) (by omega)]
        split_ifs <;> omega)
      rw [if_neg (Nat.succ_ne_zero n), forkNeed, need, hafter]
      omega

section failure
variable [Layout] {mem : Bytes} {n i : ℕ} {ops : List Op} {s t : KState} {L : List ℕ}

/-! ### What a failed `fork` leaves -/

/-- The state `t` has the process table, the free pages and the counts of `s`, and the process in
slot `i` reads what it read and may write the pages it could. -/
structure Clean (s t : KState) (i : ℕ) : Prop where
  procs : t.procs = s.procs
  free : ∃ L L', Chain s.mach.mem s.mach.freelist L ∧ Chain t.mach.mem t.mach.freelist L' ∧
    L.Nodup ∧ L'.Nodup ∧ ∀ p, p ∈ L' ↔ p ∈ L
  refcnt : ∀ p, Page p → t.mach.refcnt (p / PGSIZE) = s.mach.refcnt (p / PGSIZE)
  reads : ∀ va b, loadByte (s.procs i).pagetable va t.mach = .ok (b, t.mach) ↔
    loadByte (s.procs i).pagetable va s.mach = .ok (b, s.mach)
  writes : ∀ v < npg (s.procs i).sz,
    (has (pmap t.mach.mem (s.procs i).pagetable v) PTE_W ||
      has (pmap t.mach.mem (s.procs i).pagetable v) PTE_COW) =
    (has (pmap s.mach.mem (s.procs i).pagetable v) PTE_W ||
      has (pmap s.mach.mem (s.procs i).pagetable v) PTE_COW)

theorem ForkFailed.free (hf : ForkFailed s t) (h : Sys s L) : ∃ L', Sys t L' ∧
    (∀ p, p ∈ L' ↔ p ∈ L) ∧ ∀ p ∈ L', t.mach.refcnt (p / PGSIZE) = 0 := by
  obtain ⟨L', hsys⟩ := hf.sys
  refine ⟨L', hsys, fun p => ?_, fun p hp => ?_⟩
  · have hiff : Page p → (p ∈ L' ↔ p ∈ L) := fun hp => by
      rw [hsys.own.acct.mem_free_iff hp, h.own.acct.mem_free_iff hp]
      change t.kern p + t.user p = 0 ↔ s.kern p + s.user p = 0
      rw [hf.kern, hf.user]
    constructor
    · intro hp
      exact (hiff (hsys.own.acct.page_of_free p hp)).mp hp
    · intro hp
      exact (hiff (h.own.acct.page_of_free p hp)).mpr hp
  · exact hsys.own.acct.cnt_used p hp (hf.spent p (hsys.own.acct.page_of_free p hp))

theorem ForkFailed.clean (hf : ForkFailed s t) (h : Sys s L) (hlive : (s.procs i).state ≠ .unused)
    (hused : ∀ p ∈ L, s.mach.refcnt (p / PGSIZE) = 0) : Clean s t i := by
  obtain ⟨L', hsys, hmem, hzero⟩ := hf.free h
  have hps : t.procs = s.procs := by rw [hf.state]
  have himg : (t.abs.procs i).image = (s.abs.procs i).image := by
    rw [abs_image, hps]
    exact congrArg RProc.image (hf.abs i)
  refine ⟨hps, ⟨L, L', h.own.chain, hsys.own.chain, h.own.acct.nodup, hsys.own.acct.nodup, hmem⟩,
    fun p hp => ?_, fun va b => ?_, fun v hv => ?_⟩
  · rcases Classical.em (p ∈ L) with hpL | hpL
    · rw [hused p hpL, hzero p ((hmem p).mpr hpL)]
    · have h1 : s.mach.refcnt (p / PGSIZE) = s.kern p + s.user p := h.own.acct.cnt_owned p hp hpL
      have h2 : t.mach.refcnt (p / PGSIZE) = t.kern p + t.user p :=
        hsys.own.acct.cnt_owned p hp (fun hc => hpL ((hmem p).mp hc))
      rw [h1, h2, hf.kern, hf.user]
  · have h1 := h.loadByte hlive va
    have h2 := hsys.loadByte (i := i) (by rw [hps]; exact hlive) va
    rw [hps, himg] at h2
    rw [h1, h2]
    simp
  · have h1 : s.abs.rights i v = t.abs.rights i v := by
      unfold RState.rights
      rw [himg]
    rw [rights_of_lt hv, rights_of_lt (by rw [hps]; exact hv), Option.some.injEq, hps] at h1
    exact (congrArg Perm.w h1).symm

/-- **When a failed `fork` is clean.**  In every state of every run, for a process that runs and
when there is a slot: a `fork` that does not make a child returns -1 and leaves no trace exactly if
fewer than six pages are free and each of them has been handed out before. -/
theorem failed_fork_clean_iff (hn : n + 7 ≤ ramPages) (h : Reaches mem n ops s) (hi : i < NPROC)
    (hrun : (s.procs i).state = .runnable) (hslot : findUnused s.procs ≠ none)
    (hfail : ∀ r t, fork i s = .ok (r, t) → r < 0) :
    ∃ L, Chain s.mach.mem s.mach.freelist L ∧ L.Nodup ∧ (∀ p ∈ L, Page p) ∧
      ((∃ t, fork i s = .ok (-1, t) ∧ Clean s t i) ↔ L.length < 6 ∧ ∀ p ∈ L,
        s.mach.refcnt (p / PGSIZE) = 0) := by
  obtain ⟨L, hsys⟩ := h.sys hn
  refine ⟨L, hsys.own.chain, hsys.own.acct.nodup, hsys.own.acct.page_of_free, ?_, ?_⟩
  · rintro ⟨t, hok, hclean⟩
    have hres := wp_ok (fork_spec hsys hi hrun) hok
    generalize (-1 : ℤ) = r at hres hok
    cases hres with
    | noSlot hnone _ => exact absurd hnone hslot
    | noPages hlen _ hf =>
        obtain ⟨L', _, hmem, hzero⟩ := hf.free hsys
        refine ⟨hlen, fun p hp => ?_⟩
        rw [← hclean.refcnt p (hsys.own.acct.page_of_free p hp)]
        exact hzero p ((hmem p).mpr hp)
    | child _ _ _ _ =>
        have := hfail _ _ hok
        omega
  · rintro ⟨hlen, hused⟩
    have hspec : wp (fork i) (fun r t => fork i s = .ok (r, t) ∧ ForkResult s t L i r)
        (fun _ => False) s :=
      wp_mono (wp_run (fork_spec hsys hi hrun)) (fun _ _ hr => hr) (fun e he => by
        have := he.2.first
        omega)
    obtain ⟨r, t, hok, -, hres⟩ := wp_returns hspec
    cases hres with
    | noSlot hnone _ => exact absurd hnone hslot
    | noPages _ _ hf => exact ⟨t, hok, hf.clean hsys (live_of_runs hrun) hused⟩
    | child _ _ _ _ =>
        have := hfail _ _ hok
        omega

/-! ### Runs that use up the pages -/

theorem kalloc_step {p : ℕ} (h : Sys s (p :: L)) : ∃ t, step s .kalloc = some t ∧ Sys t L ∧
    t.procs = s.procs := by
  apply step_of_wp
  simp only [perform, wp_bind, wp_vm]
  refine wp_post (kalloc_spec h.own) ?_
  rintro q m ⟨hm, -, hq⟩
  cases hq with
  | inl hq => exact absurd hq.2.1 (List.cons_ne_nil _ _)
  | inr hq =>
      obtain ⟨L₁, hL, hown⟩ := hq
      obtain ⟨rfl, rfl⟩ := List.cons_eq_cons.mp hL
      have hpage : Page p := hown.page (by simp [one_self])
      rw [if_neg hpage.ne_zero, wp_modify]
      rw [held_cons] at hown
      exact ⟨h.kernel (p :: s.held) s.pipes hown (by rw [hm]; exact Frame.refl _ _), rfl⟩

theorem drain (h : Sys s L) {k : ℕ} (hk : k ≤ L.length) : ∃ ops t L', Runs.exec step s ops =
    some t ∧ Sys t L' ∧ L'.length = k ∧ t.procs = s.procs := by
  induction L generalizing s with
  | nil => exact ⟨[], s, [], rfl, h, (Nat.le_zero.mp hk).symm, rfl⟩
  | cons p L ih =>
      rcases Nat.lt_or_ge L.length k with hlt | hge
      · rw [List.length_cons] at hk
        exact ⟨[], s, p :: L, rfl, h, by rw [List.length_cons]; omega, rfl⟩
      · obtain ⟨t, hs, ht, hps⟩ := kalloc_step h
        obtain ⟨ops, u, L', hrun, hu, hlen, hps'⟩ := ih ht hge
        exact ⟨.kalloc :: ops, u, L', Runs.exec_cons.mpr ⟨t, hs, hrun⟩, hu, hlen, hps'.trans hps⟩

theorem growproc_step {k : ℤ} (hk : k > 0) (h : Sys s L) (hi : i < NPROC)
    (hrun : (s.procs i).state = .runnable)
    (hlen : 3 * (npg ((s.procs i).sz + k.toNat) - npg (s.procs i).sz) ≤ L.length) :
    ∃ t, step s (.growproc i k) = some t ∧ ∃ L', Sys t L' ∧
      t.procs = Function.update s.procs i { s.procs i with sz := (s.procs i).sz + k.toNat } ∧
      Grown s.mach t.mach L L' (pmap s.mach.mem (s.procs i).pagetable)
        (pmap t.mach.mem (s.procs i).pagetable) (npg (s.procs i).sz)
          (npg ((s.procs i).sz + k.toNat) - npg (s.procs i).sz) (PTE_R ||| PTE_U ||| PTE_W) ∧
      L.length ≤ L'.length + 3 * (npg ((s.procs i).sz + k.toNat) - npg (s.procs i).sz) ∧
      (0 ∈ t.mach.allocs → 0 ∈ s.mach.allocs) := by
  have hlive := live_of_runs hrun
  have hx : XPerm PTE_W := ⟨by decide, by decide⟩
  apply step_of_wp
  rw [perform, wp_byProc]
  refine ⟨fun _ => ?_, fun hr => absurd ⟨hi, hrun⟩ hr⟩
  simp only [growproc, wp_bind, wp_getProc, if_pos hk, wp_vm]
  refine wp_post (uvmalloc_spec (s.procs i).sz ((s.procs i).sz + k.toNat) hx (h.focus hlive).uvm) ?_
  rintro r m ⟨-, (⟨hlt, -⟩ | ⟨hle, rfl, L', f, hu, hg, hf, hL, h0⟩ | ⟨-, -, -, -, -, hL⟩)⟩
  · exact absurd hlt (by omega)
  · rw [if_neg (by omega), wp_bind, wp_modifyProc, wp_pure]
    have hmap : pmap m.mem (s.procs i).pagetable = f := hu.tab.map
    exact ⟨L', (h.grown hlive hle hu hg hf).1, rfl, by rw [hmap]; exact hg, hL, h0⟩
  · omega

theorem init_grows (mem : Bytes) {k : ℕ} (hn : k + 1543 ≤ ramPages) :
    ∃ ops s L, Reaches mem 0 ops s ∧ Sys s L ∧ L.length = k ∧ (s.procs 0).state = .runnable ∧
      npg (s.procs 0).sz = 513 ∧ findUnused s.procs ≠ none := by
  obtain ⟨_, s₀, hboot, L, hb, hlen, -⟩ := wp_returns (boot_spec mem (n := 0) (by omega))
  have hpages : npg (PGSIZE + (2097152 : ℤ).toNat) = 513 := by decide
  have hone : npg PGSIZE = 1 := by decide
  obtain ⟨s₁, hs, L₁, hsys, hps, -, hL, -⟩ :=
    growproc_step (i := 0) (k := 2097152) (by decide) hb.sys (by decide) hb.init.1
      (by rw [hb.init.2, hpages, hone]; omega)
  rw [hb.init.2, hpages, hone] at hL
  obtain ⟨ops, s, L', hrun, ht, hk, hps'⟩ := drain hsys (k := k) (by omega)
  rw [hps, hb.init.2] at hps'
  refine ⟨.growproc 0 2097152 :: ops, s, L', ⟨s₀, hboot, Runs.exec_cons.mpr ⟨s₁, hs, hrun⟩⟩, ht, hk,
    ?_, ?_, ?_⟩
  · rw [hps', Function.update_self]
    exact hb.init.1
  · rw [hps', Function.update_self]
    exact hpages
  · have hfind := findUnused_some hb.slot
    rw [hps']
    intro hnone
    have hused := List.find?_eq_none.mp hnone 1 (List.mem_range.mpr hfind.1)
    rw [Function.update_of_ne one_ne_zero, decide_eq_true_eq] at hused
    exact hused hfind.2

theorem fork_stuck (h : Sys s L) (hi : i < NPROC) (hrun : (s.procs i).state = .runnable)
    (hslot : findUnused s.procs ≠ none) (hfirst : 6 ≤ L.length)
    (hshort : L.length < forkNeed (npg (s.procs i).sz)) : fork i s = .error .freewalkLeaf := by
  cases hf : fork i s with
  | ok r =>
      have hres := wp_ok (fork_spec h hi hrun) (a := r.1) (t := r.2) hf
      generalize r.1 = a at hres
      cases hres with
      | noSlot hnone _ => exact absurd hnone hslot
      | noPages hlen _ _ => omega
      | child _ hleft _ _ =>
          obtain ⟨L', -, hlen⟩ := hleft
          omega
  | error e => rw [(wp_error (fork_spec h hi hrun) hf).1]

end failure

theorem failed_fork_clean_iff_no_pages : letI := sampleLayout
    ∃ ops s, Reaches (fun _ => 0) 0 ops s ∧ (s.procs 0).state = .runnable ∧ findUnused s.procs ≠
      none ∧ (∀ r t, fork 0 s = .ok (r, t) → r < 0) ∧
      ∃ L, Chain s.mach.mem s.mach.freelist L ∧ L.Nodup ∧ (∀ p ∈ L, Page p) ∧
        ((∃ t, fork 0 s = .ok (-1, t) ∧ Clean s t 0) ↔ L.length < 6 ∧ ∀ p ∈ L,
          s.mach.refcnt (p / PGSIZE) = 0) := by
  let := sampleLayout
  have hram := sampleLayout_ramPages
  obtain ⟨ops, s, L, hreach, hsys, hlen, hrun, hsz, hslot⟩ := init_grows (fun _ => 0) (k := 0) (by omega)
  have hfail : ∀ r t, fork 0 s = .ok (r, t) → r < 0 := fun r t hok => by
    have hres := wp_ok (fork_spec hsys (by decide) hrun) hok
    cases hres with
    | noSlot _ _ => decide
    | noPages _ _ _ => decide
    | child _ hleft _ _ =>
        obtain ⟨L', -, hL⟩ := hleft
        rw [hlen, forkNeed] at hL
        omega
  exact ⟨ops, s, hreach, hrun, hslot, hfail, failed_fork_clean_iff (by omega) hreach
    (by decide) hrun hslot hfail⟩

/-- The first process has 513 pages, six pages are free, and `fork` panics. -/
theorem fork_panics : letI := sampleLayout
    ∃ ops s, Reaches (fun _ => 0) 0 ops s ∧ (s.procs 0).state = .runnable ∧ npg (s.procs 0).sz =
      513 ∧ findUnused s.procs ≠ none ∧ fork 0 s = .error .freewalkLeaf := by
  let := sampleLayout
  have hram := sampleLayout_ramPages
  obtain ⟨ops, s, L, hreach, hsys, hlen, hrun, hsz, hslot⟩ := init_grows (fun _ => 0) (k := 6) (by omega)
  have hneed : forkNeed (npg (s.procs 0).sz) = 7 := by
    rw [hsz, forkNeed_eq (by norm_num)]
    rfl
  exact ⟨ops, s, hreach, hrun, hsz, hslot, fork_stuck hsys (by decide) hrun hslot (by omega) (by omega)⟩

end Xv6Cow.Kernel

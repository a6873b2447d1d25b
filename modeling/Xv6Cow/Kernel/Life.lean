import Xv6Cow.Kernel.Ops

/-! # `wait`, `fork` and `exec`

The operations that make and remove address spaces.  `freeproc` takes a slot out of the system;
`fork` adds one that shares every page with its parent; `exec` builds a new address space beside the
old one and frees the old one. -/

namespace Xv6Cow.Kernel

open Vm Finset
open Function (update update_self update_of_ne update_eq_self update_idem)

theorem kern_unused (mem : Bytes) : ({} : Proc).kern mem = 0 := if_pos rfl

theorem user_unused (mem : Bytes) : ({} : Proc).user mem = 0 := if_pos rfl

theorem abs_unused (mem : Bytes) : ({} : Proc).abs mem = {} := by
  have h0 : npg 0 = 0 := by decide
  unfold Proc.abs
  dsimp only
  rw [h0]
  rfl

/-- A slot as `allocproc` leaves it. -/
def usedProc (pid pt tf : ℕ) : Proc := { state := .used, pid := pid, pagetable := pt, trapframe := tf }

/-- The exclusive owners in the system. -/
def KState.kern (s : KState) : ℕ → ℕ := kernOf s.mach.mem s.procs (range NPROC) + pages s.held +
    pages s.pipes

/-- The user mappings of the system. -/
def KState.user (s : KState) : ℕ → ℕ := userOf s.mach.mem s.procs (range NPROC)

theorem findUnused_some {procs : ℕ → Proc} {np : ℕ} (h : findUnused procs = some np) :
    np < NPROC ∧ (procs np).state = .unused := by
  refine ⟨List.mem_range.mp (List.mem_of_find?_eq_some h), ?_⟩
  simpa using List.find?_some h

section life
variable [Layout] {s t : KState} {m : Mach} {L L' : List ℕ} {i j : ℕ}

/-! ### `freeproc` and `wait` -/

theorem Slots.of_erase {mem : Bytes} {ps : ℕ → Proc} {S : Finset ℕ} (h : Slots mem ps (S.erase j))
    (hu : (ps j).state = .unused) : Slots mem ps S := by
  have hin : ∀ {k}, k ∈ S → (ps k).state ≠ .unused → k ∈ S.erase j := fun hk hlive =>
    Finset.mem_erase.mpr ⟨fun hkj => hlive (hkj ▸ hu), hk⟩
  refine ⟨fun k hk hlive => h.wf k (hin hk hlive) hlive, fun k hk hlive =>
    h.space k (hin hk hlive) hlive, fun k hk hlive v hv l hl hlivel => ?_⟩
  obtain ⟨hlk, hlS⟩ := Finset.mem_erase.mp hl
  exact h.sep k (hin hk hlive) hlive v hv l (Finset.mem_erase.mpr ⟨hlk, hin hlS hlivel⟩) hlivel

theorem Sys.remove (h : Sys s L) (hj : j < NPROC) (ho : Own m L' (s.outside j) (s.others j))
    (hk : Frame s.mach.mem m.mem (s.outside j + s.others j)) :
    Sys { s with mach := m, procs := update s.procs j {} } L' ∧
      ∀ k, k ≠ j → (update s.procs j {} k).abs m.mem = (s.procs k).abs s.mach.mem := by
  have hjr : j ∈ range NPROC := Finset.mem_range.mpr hj
  have hf := KState.frame_others hk
  have ha : ∀ k ∈ (range NPROC).erase j, (s.procs k).Alike (update s.procs j {} k) := fun k hk => by
    rw [update_of_ne (Finset.ne_of_mem_erase hk)]
    exact Proc.Alike.refl _
  have hself : update s.procs j {} j = {} := update_self _ _ _
  refine ⟨⟨?_, ?_, fun k hu => ?_, fun k hge => ?_⟩, fun k hkj => ?_⟩
  · dsimp only
    rw [kernOf_erase hjr, userOf_erase hjr, kernOf_congr hf ha, userOf_congr hf ha, hself,
      kern_unused, user_unused, add_zero, add_zero]
    exact ho
  · dsimp only
    refine ((h.slots.mono (Finset.erase_subset _ _)).congr hf ha).of_erase (j := j) ?_
    rw [hself]
  · rcases eq_or_ne k j with rfl | hkj
    · exact hself
    · dsimp only at hu ⊢
      rw [update_of_ne hkj] at hu ⊢
      exact h.empty k hu
  · dsimp only
    rw [update_of_ne (by omega)]
    exact h.bound k hge
  · rw [update_of_ne hkj]
    exact Proc.abs_congr (h.image_others hk hkj)

/-- What `freeproc` leaves. -/
structure Emptied (s t : KState) (L : List ℕ) (j : ℕ) : Prop where
  sys : Sys t L
  allocs : t.mach.allocs = s.mach.allocs
  procs : t.procs = update s.procs j {}
  other : ∀ k, k ≠ j → (t.procs k).abs t.mach.mem = (s.procs k).abs s.mach.mem
  nextpid : t.nextpid = s.nextpid
  initproc : t.initproc = s.initproc

theorem freeproc_spec (h : Sys s L) (hlive : (s.procs j).state ≠ .unused) :
    wp (freeproc j) (fun _ t => ∃ L', Emptied s t L' j) (fun _ => False) s := by
  have hfocus := (h.focus hlive).uvm
  have hown := hfocus.tab.own
  have htf : Page (s.procs j).trapframe := hown.page (by
    rw [s.rest_eq]
    simp only [Pi.add_apply, one_self]
    omega)
  have hpt : Page (s.procs j).pagetable := hown.page (by
    have := nodes_self (m := s.mach.mem) 2 (s.procs j).pagetable
    simp only [Pi.add_apply]
    omega)
  rw [s.rest_eq, add_right_comm] at hown
  simp only [freeproc, wp_bind, wp_getProc, if_pos htf.ne_zero, if_pos hpt.ne_zero, wp_vm, wp_modifyProc]
  refine wp_post (kfree_excl hown) ?_
  rintro _ m ⟨h1, h2, h3⟩
  have hu : Uvm m _ (s.outside j) (s.others j) (s.procs j).pagetable (s.procs j).trapframe
      (npg (s.procs j).sz) _ :=
    (hfocus.congr h1 (h2.mono (fun q hq => by simp only [Pi.add_apply] at hq ⊢; omega))).1
  refine wp_post (procFreepagetable_spec _ hu) ?_
  rintro _ m' ⟨L', k1, k2, k3⟩
  obtain ⟨hsys, hother⟩ := h.remove (h.lt_of_live hlive) k1
    (Frame.trans (h2.mono (fun q hq => by simp only [Pi.add_apply] at hq ⊢; omega)) k2)
  exact ⟨L', hsys, k3.trans h3, rfl, hother, rfl, rfl⟩

theorem Emptied.abs (h : Emptied s t L j) : t.abs = s.abs.modifyProc j (fun _ => {}) := by
  have hps : t.abs.procs = update s.abs.procs j {} := by
    funext k
    rcases eq_or_ne k j with rfl | hk
    · rw [update_self]
      change (t.procs k).abs t.mach.mem = _
      rw [h.procs, update_self, abs_unused]
    · rw [update_of_ne hk]
      exact h.other k hk
  unfold RState.modifyProc
  rw [← hps, show s.abs.nextpid = t.abs.nextpid from h.nextpid.symm,
    show s.abs.initproc = t.abs.initproc from h.initproc.symm]

theorem Emptied.rights (h : Emptied s t L j) (k v : ℕ) : t.abs.rights k v = s.abs.rights k v ∨
    t.abs.rights k v = none := by
  rcases eq_or_ne k j with rfl | hk
  · right
    rw [RState.rights, h.abs, RState.modifyProc]
    dsimp only
    rw [update_self]
    rfl
  · exact Or.inl (rights_of_abs (h.other k hk) v)

theorem Emptied.unused (h : Emptied s t L j) {k : ℕ} (hk : (s.procs k).state = .unused) :
    (t.procs k).state = .unused := by
  rw [h.procs]
  rcases eq_or_ne k j with rfl | hkj
  · rw [update_self]
  · rwa [update_of_ne hkj]

/-- `wait`, once the status of the child in slot `j` has been copied out. -/
theorem wait_free {g : Image} {addr : ℕ} (hw : Wrote s m i g) (hlive : (s.procs j).state ≠ .unused)
    (hstep : 0 ∉ m.allocs → s.abs.step (fun _ _ => 0) (.wait i addr) =
      some ((s.abs.modifyProc i (fun p => { p with image := g })).modifyProc j (fun _ => {}))) :
    wp (freeproc j) (fun _ t => Next s t (.wait i addr)) (fun _ => False) { s with mach := m } := by
  obtain ⟨L, hsys⟩ := hw.sys
  refine wp_post (freeproc_spec hsys hlive) ?_
  rintro _ t ⟨L', he⟩
  refine ⟨⟨L', he.sys⟩, by rw [he.allocs]; exact hw.hist, ⟨fun k hk _ v => ?_, fun k hk hk' => ?_,
    fun k hk hne v hv => ?_⟩, fun h0 => ?_⟩
  · exact (he.rights k v).imp (fun hr => hr.trans (hw.rights k v)) Or.inl
  · exact absurd (he.unused hk) hk'
  · -- the slot that was freed has no page
    rw [he.procs] at hne hv
    rcases eq_or_ne k j with rfl | hkj
    · rw [update_self] at hv
      exact absurd hv (Nat.not_lt_zero v)
    · rw [update_of_ne hkj] at hne
      exact absurd rfl hne
  · rw [he.allocs] at h0
    rw [he.abs, hw.abs h0]
    exact hstep h0

theorem wait_spec (addr : ℕ) (h : Sys s L) (hi : i < NPROC) (hrun : (s.procs i).state = .runnable) :
    wp (wait i addr) (fun _ t => Next s t (.wait i addr)) (fun _ => False) s := by
  have hlive := live_of_runs hrun
  have hstep : ∀ fresh, s.abs.step fresh (.wait i addr) = some (s.abs.wait i addr) := fun fresh => by
    rw [RState.step, RState.byProc_of_runs (r := s.abs) hi hrun]
  have hfound : ∀ {x}, (List.range NPROC).find? (fun j => (s.procs j).parent = some i ∧
      (s.procs j).state = .zombie) = x →
      (List.range NPROC).find? (fun j => (s.abs.procs j).parent = some i ∧ (s.abs.procs j).state =
        .zombie) = x := id
  simp only [wait, wp_bind, wp_get]
  cases hfind : (List.range NPROC).find? (fun j => decide ((s.procs j).parent = some i ∧
    (s.procs j).state = .zombie)) with
  | none =>
      have hsame : Next s s (.wait i addr) := Next.same h (List.suffix_refl _) rfl rfl (fun _ => by
        rw [hstep, RState.wait, hfound hfind])
      simp only
      split_ifs <;> simpa using hsame
  | some j =>
      have hwait : s.abs.wait i addr = if addr = 0 then s.abs.modifyProc j (fun _ => {}) else
          let c := (s.abs.procs i).image.copyout addr (intBytes (s.procs j).xstate)
          let r := s.abs.modifyProc i (fun p => { p with image := c.2 })
          if c.1 < 0 then r else r.modifyProc j (fun _ => {}) := by
        rw [RState.wait, hfound hfind]
        rfl
      have hj := List.find?_some hfind
      simp only [decide_eq_true_eq] at hj
      have hlivej : (s.procs j).state ≠ .unused := by
        rw [hj.2]
        simp
      simp only
      rw [wp_ite]
      refine ⟨fun haddr => ?_, fun haddr => ?_⟩
      · rw [wp_bind, wp_vm]
        refine wp_post (copyout_spec (h.focus hlive) (Or.inl rfl)) ?_
        rintro r m ⟨L', f, hw, hr⟩
        rw [← abs_image s i] at hw hr
        have hwrote := h.wrote hlive hw
        rw [wp_ite]
        refine ⟨fun hneg => ?_, fun hpos => ?_⟩
        · rw [wp_pure]
          refine hwrote.next (fun h0 => ?_)
          rw [hstep, hwait]
          simp [if_neg haddr, ← hr h0, if_pos hneg]
        · simp only [wp_bind, wp_pure]
          refine wait_free hwrote hlivej (fun h0 => ?_)
          rw [hstep, hwait]
          simp [if_neg haddr, ← hr h0, if_neg hpos]
      · simp only [wp_pure, lt_self_iff_false, if_false, wp_bind]
        have hwrote : Wrote s s.mach i (s.abs.procs i).image :=
          h.touched hlive (h.focus hlive) (Touched.refl _ _ _ _ _) (fun _ => rfl)
        refine wait_free hwrote hlivej (fun _ => ?_)
        rw [hstep, hwait, if_pos (not_not.mp haddr), RState.modifyProc_self s.abs (i := i) rfl]

/-! ### `allocproc` -/

/-- The state after `allocproc` has found a slot and pages for it. -/
structure NewProc (s t : KState) (L L' : List ℕ) (np pt tf : ℕ) : Prop where
  state : t = { s with
    mach := t.mach
    nextpid := s.nextpid + 1
    procs := update s.procs np (usedProc s.nextpid pt tf) }
  uvm : Uvm t.mach L' (s.kern + one tf) s.user pt tf 0 (bareMap tf)
  keeps : Keeps s.mach t.mach (s.kern + s.user)
  taken : L.length = L'.length + 4
  gap : ∀ w < 2 ^ 18, gap t.mach.mem 2 pt w = 2
  full : 0 ∈ t.mach.allocs → 0 ∈ s.mach.allocs

/-- The state after `allocproc` or `fork` has run out of pages and given back those it had. -/
structure NoProc (s t : KState) : Prop where
  sys : ∃ L', Sys t L'
  state : t = { s with mach := t.mach, nextpid := s.nextpid + 1 }
  keeps : Keeps s.mach t.mach (s.kern + s.user)
  failed : 0 ∈ t.mach.allocs
  spent : Spent t.mach

theorem Sys.noProc (h : Sys s L) (ho : Own m L' s.kern s.user) (hk : Keeps s.mach m (s.kern + s.user))
    (h0 : 0 ∈ m.allocs) (hs : Spent m) : NoProc s { s with mach := m, nextpid := s.nextpid + 1 } := by
  refine ⟨⟨L', ?_⟩, rfl, hk, h0, hs⟩
  have hf : Frame s.mach.mem m.mem (kernOf s.mach.mem s.procs (range NPROC)) :=
      hk.frame.mono (fun q hq => by
    unfold KState.kern
    simp only [Pi.add_apply]
    omega)
  exact (h.kernel s.held s.pipes ho hf).alike (fun _ => Proc.Alike.refl _) h.empty

/-- A slot that is emptied again before anything else has happened. -/
theorem update_unused {np : ℕ} {p q : Proc} (h : Sys s L) (hnp : (s.procs np).state = .unused) :
    update (update (update s.procs np p) np q) np {} = s.procs := by
  rw [update_idem, update_idem, ← h.empty np hnp, update_eq_self]

theorem allocproc_spec (h : Sys s L) :
    wp allocproc (fun r t => (findUnused s.procs = none ∧ r = none ∧ t = s) ∨
      (findUnused s.procs ≠ none ∧ r = none ∧ L.length < 4 ∧ NoProc s t) ∨
      ∃ np pt tf L', findUnused s.procs = some np ∧ r = some np ∧
        NewProc s t L L' np pt tf) (fun _ => False) s := by
  simp only [allocproc, wp_bind, wp_get]
  cases hfind : findUnused s.procs with
  | none =>
      simp only [wp_pure]
      exact Or.inl ⟨trivial, trivial, trivial⟩
  | some np =>
      obtain ⟨hlt, hnp⟩ := findUnused_some hfind
      have hempty := h.empty np hnp
      simp only [allocpid, wp_bind, wp_get, wp_set, wp_pure, wp_modifyProc, wp_vm, update_self, hempty]
      refine wp_post (kalloc_spec h.own) ?_
      rintro tf m ⟨hm, hal, (⟨rfl, rfl, hown⟩ | ⟨L₁, rfl, hown⟩)⟩
      · -- no page for the trapframe
        have h0 : 0 ∈ m.allocs := by
          rw [hal]
          exact List.mem_cons_self
        have hk : Keeps s.mach m (s.kern + s.user) := .of_kalloc hm hal
        simp only [if_true, freeproc, wp_bind, wp_getProc, update_self, ne_eq, not_true_eq_false,
          if_false, wp_pure, wp_modifyProc]
        refine Or.inr (Or.inl ⟨by simp, trivial, by decide, ?_⟩)
        rw [update_unused h hnp]
        exact h.noProc hown hk h0 (Own.spent hown)
      · have htf : Page tf := hown.page (by simp [one_self])
        have hk0 : Keeps s.mach m (s.kern + s.user) := .of_kalloc hm hal
        simp only [if_neg htf.ne_zero, wp_bind, wp_vm, wp_modifyProc, update_self]
        refine wp_post (procPagetable_spec tf hown) ?_
        rintro pt m' ⟨hk, (⟨rfl, h0, hlen, hspent, L₂, hown'⟩ | ⟨hpt, L₂, hu, -, hlen, hgap, hfull⟩)⟩
        · -- no pages for the page table: the trapframe is freed
          have hk' : Keeps s.mach m' (s.kern + s.user) := hk0.trans (hk.mono (fun q hq => by
            unfold KState.kern KState.user at hq
            simp only [Pi.add_apply] at hq ⊢
            omega))
          simp only [if_true, freeproc, wp_bind, wp_getProc, update_self, ne_eq, htf.ne_zero,
            not_false_eq_true, not_true_eq_false, if_false, wp_vm, wp_pure, wp_modifyProc]
          refine wp_post (kfree_excl hown') ?_
          rintro _ m'' ⟨h1, h2, h3⟩
          refine Or.inr (Or.inl ⟨by simp, trivial, by rw [List.length_cons]; omega, ?_⟩)
          rw [update_idem, update_unused h hnp]
          refine h.noProc h1 ⟨hk'.frame.trans h2, by rw [h3]; exact hk'.hist⟩ (by rw [h3]; exact h0) ?_
          unfold Spent
          rw [h3]
          exact hspent
        · rw [if_neg hpt, wp_pure]
          refine Or.inr (Or.inr ⟨np, pt, tf, L₂, rfl, rfl, ?_, hu, hk0.trans (hk.mono (fun q hq => ?_)),
            by rw [List.length_cons]; omega, hgap, fun h0 => ?_⟩)
          · dsimp only
            rw [update_idem, update_idem]
            rfl
          · unfold KState.kern KState.user at hq
            simp only [Pi.add_apply] at hq ⊢
            omega
          · have h1 := hfull h0
            rw [hal] at h1
            exact List.mem_of_ne_of_mem htf.ne_zero.symm h1

end life

end Xv6Cow.Kernel

import Xv6Cow.Kernel.Replace

/-! # Runs of the system

Every operation keeps the invariant of the system or stops the kernel for one of two reasons: the
first process exits, or a `fork` has found pages for some of its child's page table but not for all.
`main` reaches a state of the invariant when there are enough pages, and so every state of every run
has it. -/

namespace Xv6Cow.Kernel

open Vm Finset
open Function (update update_self update_of_ne update_idem)

section owners
variable {s : KState} {p : ℕ}

theorem held_split (hp : p ∈ s.held) : kernOf s.mach.mem s.procs (range NPROC) + pages s.held +
    pages s.pipes = kernOf s.mach.mem s.procs (range NPROC) +
      (pages (s.held.erase p) + pages s.pipes) + one p := by
  rw [pages_erase hp]
  abel

theorem pipes_split (hp : p ∈ s.pipes) : kernOf s.mach.mem s.procs (range NPROC) + pages s.held +
    pages s.pipes = kernOf s.mach.mem s.procs (range NPROC) +
      (pages s.held + pages (s.pipes.erase p)) + one p := by
  rw [pages_erase hp]
  abel

theorem held_cons {K P : ℕ → ℕ} {l : List ℕ} : K + pages l + P + one p = K + pages (p :: l) + P := by
  rw [pages_cons]
  abel

theorem newPipe_of_not_mem {mem : Bytes} {pi x : ℕ} (hx : x < pi ∨ pi + PGSIZE ≤ x) :
    (((mem.setLe (pi + PI_READOPEN) 4 1).setLe (pi + PI_WRITEOPEN) 4 1).setLe
      (pi + PI_NWRITE) 4 0).setLe (pi + PI_NREAD) 4 0 x = mem x := by
  unfold PGSIZE at hx
  rw [Bytes.setLe_of_not_mem (by unfold PI_NREAD; omega),
    Bytes.setLe_of_not_mem (by unfold PI_NWRITE; omega),
    Bytes.setLe_of_not_mem (by unfold PI_WRITEOPEN; omega),
    Bytes.setLe_of_not_mem (by unfold PI_READOPEN; omega)]

theorem kernOf_unused (mem : Bytes) (S : Finset ℕ) : kernOf mem (fun _ => {}) S = 0 :=
  Finset.sum_eq_zero (fun _ _ => kern_unused mem)

theorem userOf_unused (mem : Bytes) (S : Finset ℕ) : userOf mem (fun _ => {}) S = 0 :=
  Finset.sum_eq_zero (fun _ _ => user_unused mem)

end owners

section system
variable [Layout] {s t : KState} {m : Mach} {L L' : List ℕ} {op : Op}

/-! ### Pages of the kernel -/

/-- A step of the kernel on pages that are not of the processes. -/
theorem Sys.kernelStep (held pipes : List ℕ) (h : Sys s L)
    (ho : Own m L' (kernOf s.mach.mem s.procs (range NPROC) + pages held + pages pipes)
      (userOf s.mach.mem s.procs (range NPROC)))
    (hk : Keeps s.mach m (kernOf s.mach.mem s.procs (range NPROC) + userOf s.mach.mem s.procs
      (range NPROC)))
    (hstep : ∀ fresh, s.abs.step fresh op = some s.abs) :
    Next s { s with mach := m, held := held, pipes := pipes } op := by
  have hf : Frame s.mach.mem m.mem (kernOf s.mach.mem s.procs (range NPROC)) :=
      hk.frame.mono (fun q hq => by
    simp only [Pi.add_apply]
    omega)
  have habs : ({ s with mach := m, held := held, pipes := pipes } : KState).abs = s.abs := by
    unfold KState.abs
    dsimp only
    rw [RState.mk.injEq]
    exact ⟨funext (fun j => Proc.abs_congr (h.image_kernel hk.frame j)), rfl, rfl⟩
  exact Next.same (h.kernel held pipes ho hf) hk.hist habs rfl (fun _ => hstep _)

theorem kalloc_next (h : Sys s L) : wp (perform .kalloc) (fun _ t => Next s t .kalloc)
    (fun _ => False) s := by
  simp only [perform, wp_bind, wp_vm]
  refine wp_post (kalloc_spec h.own) ?_
  rintro p m ⟨hm, hal, hp⟩
  cases hp with
  | inl hp =>
      obtain ⟨rfl, rfl, hown⟩ := hp
      rw [if_pos rfl, wp_pure]
      exact h.kernelStep s.held s.pipes hown (.of_kalloc hm hal) (fun _ => rfl)
  | inr hp =>
      obtain ⟨L₁, rfl, hown⟩ := hp
      have hpage : Page p := hown.page (by simp [one_self])
      rw [if_neg hpage.ne_zero, wp_modify]
      rw [held_cons] at hown
      exact h.kernelStep (p :: s.held) s.pipes hown (.of_kalloc hm hal) (fun _ => rfl)

theorem Sys.writePage {p : ℕ} {X : ℕ → ℕ} {mem : Bytes} (h : Sys s L)
    (hX : kernOf s.mach.mem s.procs (range NPROC) + pages s.held + pages s.pipes =
      kernOf s.mach.mem s.procs (range NPROC) + X + one p)
    (hm : ∀ x, x < p ∨ p + PGSIZE ≤ x → mem x = s.mach.mem x) :
    Own { s.mach with mem := mem } L (kernOf s.mach.mem s.procs (range NPROC) + X + one p)
      (userOf s.mach.mem s.procs (range NPROC)) ∧
    Keeps s.mach { s.mach with mem := mem }
      (kernOf s.mach.mem s.procs (range NPROC) + userOf s.mach.mem s.procs (range NPROC)) := by
  have hown := h.own
  rw [hX] at hown
  obtain ⟨h1, h2, -⟩ := Own.write_excl hown hm
  refine ⟨h1, h2.mono (fun q hq => ?_), List.suffix_refl _⟩
  simp only [Pi.add_apply] at hq ⊢
  omega

theorem kfree_next (p : ℕ) (h : Sys s L) : wp (perform (.kfree p)) (fun _ t => Next s t (.kfree p))
    (fun _ => False) s := by
  simp only [perform, wp_bind, wp_get]
  rw [wp_ite]
  constructor
  · intro hp
    have hown := h.own
    rw [held_split hp] at hown
    rw [wp_bind, wp_vm]
    refine wp_post (kfree_excl hown) ?_
    rintro _ m ⟨h1, h2, h3⟩
    rw [wp_modify]
    refine h.kernelStep (s.held.erase p) s.pipes (by rwa [add_assoc]) ⟨h2.mono (fun q hq => ?_),
      by rw [h3]⟩ (fun _ => rfl)
    simp only [Pi.add_apply] at hq ⊢
    omega
  · intro _
    rw [wp_pure]
    exact Next.same h (List.suffix_refl _) rfl rfl (fun _ => rfl)

theorem kwrite_next (p off : ℕ) (bs : List UInt8) (h : Sys s L) :
    wp (perform (.kwrite p off bs)) (fun _ t => Next s t (.kwrite p off bs)) (fun _ => False) s := by
  simp only [perform, wp_bind, wp_get]
  rw [wp_ite]
  constructor
  · intro hp
    have hm : ∀ x, x < p ∨ p + PGSIZE ≤ x → s.mach.mem.write (p + off) bs x = s.mach.mem x := fun x hx =>
      Bytes.write_of_not_mem (by omega)
    obtain ⟨h1, h2⟩ := h.writePage (held_split hp.1) hm
    rw [← held_split hp.1] at h1
    rw [wp_vm, wp_memput]
    exact h.kernelStep s.held s.pipes h1 h2 (fun _ => rfl)
  · intro _
    rw [wp_pure]
    exact Next.same h (List.suffix_refl _) rfl rfl (fun _ => rfl)

theorem pipealloc_next (f0 f1 : Bool) (h : Sys s L) :
    wp (perform (.pipe f0 f1)) (fun _ t => Next s t (.pipe f0 f1)) (fun _ => False) s := by
  have hsame : Next s s (.pipe f0 f1) := Next.same h (List.suffix_refl _) rfl rfl (fun _ => rfl)
  simp only [perform, pipealloc, wp_bind]
  rw [wp_ite]
  constructor
  · intro _
    simp only [wp_pure]
    exact hsame
  intro _
  simp only [wp_bind, wp_vm]
  refine wp_post (kalloc_spec h.own) ?_
  rintro pi m ⟨hm, hal, hp⟩
  cases hp with
  | inl hp =>
      obtain ⟨rfl, rfl, hown⟩ := hp
      rw [if_pos rfl, wp_pure, wp_pure]
      exact h.kernelStep s.held s.pipes hown (.of_kalloc hm hal) (fun _ => rfl)
  | inr hp =>
      obtain ⟨L₁, rfl, hown⟩ := hp
      have hpage : Page pi := hown.page (by simp [one_self])
      simp only [if_neg hpage.ne_zero, stint, wp_bind, wp_vm, wp_modify, wp_pure]
      obtain ⟨h1, h2, -⟩ := Own.write_excl hown (fun _ => newPipe_of_not_mem)
      rw [add_assoc, add_comm (pages s.pipes), ← pages_cons] at h1
      refine h.kernelStep s.held (pi :: s.pipes) h1
        ((Keeps.of_kalloc hm hal).trans ⟨h2.mono (fun q hq => ?_), List.suffix_refl _⟩) (fun _ => rfl)
      simp only [Pi.add_apply] at hq ⊢
      omega

theorem pipeclose_next (pi : ℕ) (writable : Bool) (h : Sys s L) :
    wp (perform (.pipeclose pi writable)) (fun _ t => Next s t (.pipeclose pi writable))
      (fun _ => False) s := by
  simp only [perform, wp_bind, wp_get]
  rw [wp_ite]
  constructor
  · intro hp
    have hm : ∀ x, x < pi ∨ pi + PGSIZE ≤ x →
        s.mach.mem.setLe (pi + if writable then PI_WRITEOPEN else PI_READOPEN) 4 0 x =
        s.mach.mem x := fun x hx => by
      unfold PGSIZE at hx
      refine Bytes.setLe_of_not_mem ?_
      split_ifs
      · unfold PI_WRITEOPEN
        omega
      · unfold PI_READOPEN
        omega
    obtain ⟨h1, h2⟩ := h.writePage (pipes_split hp) hm
    simp only [pipeclose, stint, wp_bind, wp_vm, wp_modify, wp_get]
    rw [wp_ite]
    constructor
    · intro _
      rw [wp_bind, wp_vm]
      refine wp_post (kfree_excl h1) ?_
      rintro _ m ⟨g1, g2, g3⟩
      rw [wp_modify]
      refine h.kernelStep s.held (s.pipes.erase pi) (by rwa [add_assoc])
        (h2.trans ⟨g2.mono (fun q hq => ?_), by rw [g3]⟩) (fun _ => rfl)
      simp only [Pi.add_apply] at hq ⊢
      omega
    · intro _
      rw [wp_pure]
      rw [← pipes_split hp] at h1
      exact h.kernelStep s.held s.pipes h1 h2 (fun _ => rfl)
  · intro _
    rw [wp_pure]
    exact Next.same h (List.suffix_refl _) rfl rfl (fun _ => rfl)

/-! ### One step -/

/-- Why an operation stops the kernel. -/
inductive Stops (s : KState) (L : List ℕ) : Op → Panic → Prop
  | init {op : Op} (h : s.initproc = some op.slot) : Stops s L op .initExiting
  | fork {i : ℕ} (h : ForkStuck s L i) : Stops s L (.fork i) .freewalkLeaf

theorem byProc_next {α : Type} {c : KM α} {i : ℕ} {E : Panic → Prop} (h : Sys s L)
    (hidle : ¬ (i < NPROC ∧ (s.procs i).state = .runnable) → ∀ fresh, s.abs.step fresh op = some s.abs)
    (hc : i < NPROC → (s.procs i).state = .runnable → wp c (fun _ t => Next s t op) E s) :
    wp (byProc i c) (fun _ t => Next s t op) E s := by
  rw [wp_byProc]
  constructor
  · intro hr
    exact hc hr.1 hr.2
  · intro hr
    exact Next.same h (List.suffix_refl _) rfl rfl (fun _ => hidle hr _)

theorem exit_next {i : ℕ} (status : ℤ) (h : Sys s L) (hi : i < NPROC)
    (hrun : (s.procs i).state = .runnable) :
    wp (exit i status) (fun _ t => Next s t (.exit i status))
      (fun e => e = .initExiting ∧ s.initproc = some i) s := by
  refine wp_mono (exit_spec h (live_of_runs hrun)) ?_ (fun e he => he)
  rintro _ t ⟨hex, habs⟩
  refine ⟨⟨L, hex.sys⟩, by rw [hex.mach], Rights.of_eq hex.rights hex.tables, fun _ => ?_⟩
  rw [RState.step, RState.byProc_of_runs (r := s.abs) hi hrun]
  exact habs

theorem fork_next {i : ℕ} (h : Sys s L) (hi : i < NPROC) (hrun : (s.procs i).state = .runnable) :
    wp (fork i) (fun _ t => Next s t (.fork i)) (fun e => Stops s L (.fork i) e) s := by
  refine wp_mono (fork_spec h hi hrun) (fun r t hr => ?_) (fun e he => ?_)
  · cases hr with
    | noSlot hfind hs =>
        subst hs
        refine Next.same h (List.suffix_refl _) rfl rfl (fun _ => ?_)
        have hfind' : t.abs.findUnused = none := hfind
        rw [RState.step, RState.byProc_of_runs (r := t.abs) hi hrun, RState.fork, hfind']
    | noPages _ _ hf => exact hf.next
    | child _ _ _ hn => exact hn
  · obtain ⟨rfl, hstuck⟩ := he
    exact .fork hstuck

/-- Every operation keeps the invariant and does what the reference does, or stops the kernel for
one of the two reasons. -/
theorem perform_spec (op : Op) (h : Sys s L) :
    wp (perform op) (fun _ t => Next s t op) (fun e => Stops s L op e) s := by
  cases op with
  | fork i => exact byProc_next h (fun hr _ => if_neg hr) (fork_next h)
  | load i va =>
      refine byProc_next h (fun hr _ => if_neg hr) (fun hi hrun => ?_)
      refine wp_mono (load_spec va h hi hrun) (fun _ _ ht => ht.1) (fun e he => ?_)
      obtain ⟨rfl, hinit⟩ := he
      exact .init hinit
  | store i va b =>
      refine byProc_next h (fun hr _ => if_neg hr) (fun hi hrun => ?_)
      refine wp_mono (store_spec va b h hi hrun) (fun _ _ ht => ht) (fun e he => ?_)
      obtain ⟨rfl, hinit⟩ := he
      exact .init hinit
  | copyout i dstva src =>
      refine byProc_next h (fun hr _ => if_neg hr) (fun hi hrun => ?_)
      rw [wp_bind, wp_getProc]
      exact wp_post (copyout_next dstva src h hi hrun) (fun _ _ ht => ht)
  | copyin i srcva len =>
      refine byProc_next h (fun _ _ => rfl) (fun hi hrun => ?_)
      rw [wp_bind, wp_getProc]
      exact wp_post (copyin_next srcva len h hrun) (fun _ _ ht => ht.1)
  | growproc i n =>
      exact byProc_next h (fun hr _ => if_neg hr)
        (fun hi hrun => wp_post (growproc_spec n h hi hrun) (fun _ _ ht => ht))
  | exec i upath uargv namei =>
      exact byProc_next h (fun hr _ => if_neg hr) (fun hi hrun =>
        wp_post (sysExec_spec upath uargv namei h hi hrun) (fun _ _ ht => ht))
  | exit i status =>
      refine byProc_next h (fun hr _ => if_neg hr) (fun hi hrun => ?_)
      refine wp_mono (exit_next status h hi hrun) (fun _ _ ht => ht) (fun e he => ?_)
      obtain ⟨rfl, hinit⟩ := he
      exact .init hinit
  | wait i addr =>
      exact byProc_next h (fun hr _ => if_neg hr) (fun hi hrun => wp_post (wait_spec addr h hi hrun)
        (fun _ _ ht => ht))
  | pipe f0 f1 => exact wp_post (pipealloc_next f0 f1 h) (fun _ _ ht => ht)
  | pipeclose pi writable => exact wp_post (pipeclose_next pi writable h) (fun _ _ ht => ht)
  | kalloc => exact wp_post (kalloc_next h) (fun _ _ ht => ht)
  | kfree p => exact wp_post (kfree_next p h) (fun _ _ ht => ht)
  | kwrite p off bs => exact wp_post (kwrite_next p off bs h) (fun _ _ ht => ht)

theorem step_next (h : Sys s L) (hs : step s op = some t) : Next s t op := by
  unfold step at hs
  cases hp : perform op s with
  | error e =>
      rw [StateT.run, hp] at hs
      exact absurd hs (by simp [Except.toOption])
  | ok r =>
      rw [StateT.run, hp] at hs
      simp only [Except.toOption, Option.map_some, Option.some.injEq] at hs
      subst hs
      have hn := wp_ok (perform_spec op h) (a := r.1) (t := r.2) hp
      exact hn

/-! ### `main` -/

theorem Sys.noProcs (hps : s.procs = fun _ => {})
    (ho : Own s.mach L (pages s.held + pages s.pipes) 0) : Sys s L := by
  refine ⟨?_, ⟨fun j _ hlive => ?_, fun j _ hlive => ?_, fun j _ hlive => ?_⟩, fun j _ => ?_,
    fun j _ => ?_⟩
  · rw [hps, kernOf_unused, userOf_unused, zero_add]
    exact ho
  all_goals simp only [hps] at *
  all_goals exact absurd rfl hlive

/-- The pages that `main` takes before there is a process. -/
theorem holdPages_spec {n : ℕ} (hps : s.procs = fun _ => {}) (hpipes : s.pipes = [])
    (hfull : 0 ∉ s.mach.allocs) (ho : Own s.mach L (pages s.held) 0) (hn : n ≤ L.length) :
    wp (holdPages n) (fun _ t => t.procs = s.procs ∧ t.pipes = [] ∧ t.nextpid = s.nextpid ∧
      0 ∉ t.mach.allocs ∧ ∃ L', Own t.mach L' (pages t.held) 0 ∧
        L'.length + n = L.length) (fun _ => False) s := by
  induction n generalizing s L with
  | zero =>
      rw [holdPages, wp_pure]
      exact ⟨rfl, hpipes, rfl, hfull, L, ho, rfl⟩
  | succ n ih =>
      simp only [holdPages, wp_bind, wp_vm]
      refine wp_post (kalloc_spec ho) ?_
      rintro p m ⟨-, hal, hp⟩
      cases hp with
      | inl hp =>
          obtain ⟨-, rfl, -⟩ := hp
          exact absurd hn (by simp)
      | inr hp =>
          obtain ⟨L₁, rfl, hown⟩ := hp
          have hpage : Page p := hown.page (by simp [one_self])
          rw [List.length_cons] at hn
          simp only [if_neg hpage.ne_zero, wp_bind, wp_modify]
          have hfull' : 0 ∉ m.allocs := by
            rw [hal, List.mem_cons, not_or]
            exact ⟨hpage.ne_zero.symm, hfull⟩
          rw [add_comm, ← pages_cons] at hown
          refine wp_post (ih (s := { s with mach := m, held := p :: s.held }) hps hpipes hfull' hown
            (by omega)) ?_
          rintro _ t ⟨h1, h2, h3, h4, L₂, h5, h6⟩
          exact ⟨h1, h2, h3, h4, L₂, h5, by rw [List.length_cons]; omega⟩

theorem Sys.insert {pt tf : ℕ} {f : ℕ → Pte} (np : ℕ) (p : Proc) (nextpid : ℕ) (initproc : Option ℕ)
    (h : Sys s L) (hlt : np < NPROC) (hnp : (s.procs np).state = .unused) (hp : p.state ≠ .unused)
    (hpt : p.pagetable = pt) (htf : p.trapframe = tf)
    (hu : Uvm m L' (s.kern + one tf) s.user pt tf (npg p.sz) f)
    (honly : ∀ v < npg p.sz, s.user (pte2pa (f v)) = 0)
    (hk : Frame s.mach.mem m.mem (s.kern + s.user)) :
    Sys { s with mach := m, nextpid := nextpid, initproc := initproc, procs := update s.procs np p }
      L' := by
  have hnpr : np ∈ range NPROC := Finset.mem_range.mpr hlt
  have hself : update s.procs np p np = p := update_self _ _ _
  have hkern0 : kernOf s.mach.mem s.procs (range NPROC) = kernOf s.mach.mem s.procs
      ((range NPROC).erase np) := by
    rw [kernOf_erase hnpr, h.empty np hnp, kern_unused, add_zero]
  have huser0 : userOf s.mach.mem s.procs (range NPROC) = userOf s.mach.mem s.procs
      ((range NPROC).erase np) := by
    rw [userOf_erase hnpr, h.empty np hnp, user_unused, add_zero]
  have hf : Frame s.mach.mem m.mem (kernOf s.mach.mem s.procs ((range NPROC).erase np)) :=
      hk.mono (fun q hq => by
    rw [← hkern0] at hq
    unfold KState.kern
    simp only [Pi.add_apply]
    omega)
  have ha : ∀ j ∈ (range NPROC).erase np, (s.procs j).Alike (update s.procs np p j) := fun j hj => by
    rw [update_of_ne (Finset.ne_of_mem_erase hj)]
    exact Proc.Alike.refl _
  have hmap := hu.tab.map
  refine ⟨?_, ?_, fun j hj => ?_, fun j hge => ?_⟩
  · dsimp only
    have hown := hu.tab.own
    unfold KState.kern KState.user at hown
    rw [hkern0, huser0] at hown
    rw [kernOf_erase hnpr, userOf_erase hnpr, kernOf_congr hf ha, userOf_congr hf ha, hself]
    unfold Proc.kern Proc.user
    rw [if_neg hp, if_neg hp, hpt, htf, hmap]
    rwa [show kernOf s.mach.mem s.procs ((range NPROC).erase np) + (one tf + nodes m.mem 2 pt) +
      pages s.held + pages s.pipes = kernOf s.mach.mem s.procs ((range NPROC).erase np) +
      pages s.held + pages s.pipes + one tf +
      nodes m.mem 2 pt by abel]
  · dsimp only
    rw [← Finset.insert_erase hnpr]
    refine ((h.slots.mono (Finset.erase_subset _ _)).congr hf ha).insert (Finset.notMem_erase _ _)
      ?_ ?_ (fun v hv => ?_) (fun v hv _ => ?_)
    all_goals rw [hself] at *
    · rw [hpt]
      exact hu.tab.wf
    · rw [hpt, htf, hmap]
      exact hu.space
    · have hz := honly v hv
      unfold KState.user at hz
      rw [huser0] at hz
      rw [hpt, hmap]
      exact (unwritten_of_zero hz).congr hf ha
    · have hz := honly v hv
      unfold KState.user at hz
      rw [huser0] at hz
      rw [hpt, hmap, userOf_congr hf ha]
      exact hz
  · dsimp only at hj ⊢
    rcases eq_or_ne j np with rfl | hne
    · rw [hself] at hj
      exact absurd hj hp
    · rw [update_of_ne hne] at hj ⊢
      exact h.empty j hj
  · dsimp only
    rw [update_of_ne (by omega)]
    exact h.bound j hge

/-- The first process as `userinit` leaves it. -/
def firstProc (pid pt tf : ℕ) : Proc := { usedProc pid pt tf with sz := PGSIZE, state := .runnable }

/-- What `main` leaves: the first process, in slot 0. -/
structure Booted (t : KState) (L : List ℕ) : Prop where
  sys : Sys t L
  full : 0 ∉ t.mach.allocs
  init : (t.procs 0).state = .runnable ∧ (t.procs 0).sz = PGSIZE
  slot : findUnused t.procs = some 1

/-- The first process has not been killed, and its memory is the page with `initcode`. -/
structure First (t : KState) : Prop where
  killed : (t.procs 0).killed = false
  image : image t.mach.mem (pmap t.mach.mem (t.procs 0).pagetable) 1 = firstImage initcode

theorem userinit_spec (hps : s.procs = fun _ => {}) (hfull : 0 ∉ s.mach.allocs) (h : Sys s L)
    (hL : 7 ≤ L.length) : wp userinit
      (fun _ t => ∃ L', Booted t L' ∧ L.length ≤ L'.length + 7 ∧ First t) (fun _ => False) s := by
  have hfind : findUnused s.procs = some 0 := by
    rw [hps]
    decide
  simp only [userinit, wp_bind]
  refine wp_post (allocproc_spec h) ?_
  intro r t hr
  obtain ⟨h1, -, -⟩ | ⟨-, -, h1, -⟩ | ⟨np, pt, tf, L₁, h1, rfl, hnew⟩ := hr
  · rw [hfind] at h1
    exact absurd h1 (by simp)
  · omega
  rw [hfind, Option.some.injEq] at h1
  subst h1
  have htaken := hnew.taken
  have hp0 : t.procs 0 = usedProc s.nextpid pt tf := by
    rw [hnew.state]
    dsimp only
    rw [update_self]
  simp only [wp_bind, wp_modify, wp_getProc, wp_vm, hp0, usedProc, stword, wp_modifyProc]
  refine wp_post (uvmfirst_spec hnew.uvm (by decide) (by omega)) ?_
  rintro _ m ⟨hk, ⟨L₂, f, hu, honly, hlen, himage⟩, hz⟩
  have hm : ∀ x, x < tf ∨ tf + PGSIZE ≤ x →
      (m.mem.setLe (tf + TF_EPC) 8 0).setLe (tf + TF_SP) 8 PGSIZE x = m.mem x :=
    fun x hx => by
      unfold PGSIZE at hx
      rw [Bytes.setLe_of_not_mem (by unfold TF_SP; omega),
        Bytes.setLe_of_not_mem (by unfold TF_EPC; omega)]
  have hown := hu.tab.own
  rw [add_right_comm] at hown
  obtain ⟨g1, g2, -⟩ := Own.write_excl hown hm
  have hone : npg PGSIZE = 1 := by decide
  obtain ⟨hu', himage'⟩ := hu.congr
    (t := { m with mem := (m.mem.setLe (tf + TF_EPC) 8 0).setLe (tf + TF_SP) 8 PGSIZE })
      (by rwa [add_right_comm]) (g2.mono (fun q hq => by simp only [Pi.add_apply] at hq ⊢; omega))
  rw [himage] at himage'
  rw [← hone] at hu'
  have hfr : Frame s.mach.mem ((m.mem.setLe (tf + TF_EPC) 8 0).setLe (tf + TF_SP) 8 PGSIZE)
      (s.kern + s.user) := by
    refine (hnew.keeps.frame.trans (hk.frame.mono (fun q hq => ?_))).trans (g2.mono (fun q hq => ?_))
    all_goals
      simp only [Pi.add_apply] at hq ⊢
      omega
  have hsys := h.insert 0 (firstProc s.nextpid pt tf) (s.nextpid + 1) (some 0) (by decide)
    (by rw [hps]) (by simp [firstProc]) rfl rfl hu' (by rw [← hone] at honly; exact honly) hfr
  have hstate : ({ t with
      mach := { m with mem := (m.mem.setLe (tf + TF_EPC) 8 0).setLe (tf + TF_SP) 8 PGSIZE }
      initproc := some 0
      procs := update (update t.procs 0 { usedProc s.nextpid pt tf with sz := PGSIZE }) 0
        { update t.procs 0 { usedProc s.nextpid pt tf with sz := PGSIZE } 0 with state := .runnable } } : KState) =
      { s with
        mach := { m with mem := (m.mem.setLe (tf + TF_EPC) 8 0).setLe (tf + TF_SP) 8 PGSIZE }
        nextpid := s.nextpid + 1
        initproc := some 0
        procs := update s.procs 0 (firstProc s.nextpid pt tf) } := by
    rw [update_self, update_idem, hnew.state]
    dsimp only
    rw [update_idem]
    rfl
  refine ⟨L₂, hstate ▸ ⟨hsys, fun h0 => hfull (hnew.full (hz h0)), ?_, ?_⟩, by omega, ?_, ?_⟩
  · dsimp only
    rw [update_self]
    exact ⟨rfl, rfl⟩
  · rw [hps]
    rfl
  · rw [update_self]
    dsimp only
    rw [update_self]
  · rw [update_self]
    dsimp only
    rw [update_self]
    dsimp only
    rw [hu'.tab.map]
    exact himage'

/-- `main` with enough pages for the kernel and the first process. -/
theorem boot_spec (mem : Bytes) {n : ℕ} (hn : n + 7 ≤ ramPages) :
    wp (boot n) (fun _ t => ∃ L, Booted t L ∧ ramPages ≤ L.length + n + 7 ∧ First t)
      (fun _ => False) (powerOn mem) := by
  simp only [boot, wp_bind, wp_vm]
  refine wp_post (kinit_spec rfl rfl) ?_
  rintro _ m ⟨L, ho, hlen, hal⟩
  have hheld := holdPages_spec (s := { powerOn mem with mach := m })
    (n := n) rfl rfl (by dsimp only; rw [hal]; simp) (by exact ho) (by omega)
  refine wp_post hheld ?_
  rintro _ t ⟨h1, h2, h3, h4, L₁, h5, h6⟩
  have hps : t.procs = fun _ => {} := h1
  have hsys : Sys t L₁ := Sys.noProcs hps (by rwa [h2, pages_nil, add_zero])
  refine wp_post (userinit_spec hps h4 hsys (by omega)) ?_
  rintro _ t' ⟨L₂, hb, hlen', hfirst⟩
  exact ⟨L₂, hb, by omega, hfirst⟩

end system

end Xv6Cow.Kernel

import Xv6Cow.Kernel.Runs

/-! # Processes are isolated

A runnable process keeps its memory, whatever the others do: write to pages that they share with it,
fork, exit. -/

namespace Xv6Cow.Kernel

open Vm

/-- The slot of the process that makes an operation; the kernel's own have none. -/
def Op.caller : Op → Option ℕ
  | .pipe _ _ | .pipeclose _ _ | .kalloc | .kfree _ | .kwrite _ _ _ => none
  | op => some op.slot

namespace RState

variable {fresh : ℕ → Bytes} {r r' : RState} {op : Op} {i j : ℕ}

theorem modifyProc_procs {g : RProc → RProc} : (r.modifyProc i g).procs j = if j =
    i then g (r.procs i) else r.procs j :=
  Function.update_apply ..

theorem exit_other {status : ℤ} (h : r.exit i status = some r') (hj : i ≠ j) :
    (r'.procs j).state = (r.procs j).state ∧ (r'.procs j).image = (r.procs j).image := by
  grind [exit, modifyProc_procs, RProc.adopt]

theorem kill_other (h : r.kill i = some r') (hj : i ≠ j) :
    (r'.procs j).state = (r.procs j).state ∧ (r'.procs j).image = (r.procs j).image := by
  have := exit_other h hj
  rwa [modifyProc_procs, if_neg hj.symm] at this

theorem step_other (h : r.step fresh op = some r') (hj : op.caller ≠ some j)
    (hrun : (r.procs j).state = .runnable) : (r'.procs j).state = .runnable ∧ (r'.procs j).image =
      (r.procs j).image := by
  have hfind : ∀ {f : ℕ → Bool} {x}, (List.range NPROC).find? f = some x → f j = false → j ≠ x := by
    rintro f x hf hfj rfl
    exact absurd (List.find?_some hf) (by simp [hfj])
  cases op with
  | fork i =>
      rw [step, byProc] at h
      split_ifs at h <;> cases h
      · unfold fork
        split
        case h_1 => exact ⟨hrun, rfl⟩
        case h_2 np hf => simp [modifyProc_procs, hfind hf, hrun]
      · exact ⟨hrun, rfl⟩
  | _ =>
      grind [step, byProc, modifyProc_procs, growproc, wait, kill_other, exit_other, Op.caller, Op.slot]

end RState

/-- **Processes are isolated.**  In a run in which `kalloc` does not fail, a runnable process that
makes no step stays runnable, and each of its loads finds what it found before. -/
theorem processes_isolated [Layout] {mem : Bytes} {n j : ℕ} {ops ops' : List Op} {s t : KState}
    (hn : n + 7 ≤ ramPages) (h : Reaches mem n ops s) (hrun : Runs.exec step s ops' = some t)
    (hfull : 0 ∉ t.mach.allocs) (hj : ∀ op ∈ ops', op.caller ≠ some j)
      (hlive : (s.procs j).state = .runnable) : (t.procs j).state = .runnable ∧ ∀ va, ∃ b,
        loadByte (s.procs j).pagetable va s.mach = .ok (b, s.mach) ∧
          loadByte (t.procs j).pagetable va t.mach = .ok (b, t.mach) := by
  obtain ⟨L, hs⟩ := h.sys hn
  obtain ⟨L', ht⟩ := Runs.exec_invariant (I := fun u => ∃ L, Sys u L) ⟨L, hs⟩
    (fun _ _ _ ⟨_, hu⟩ hstep => (step_next hu hstep).sys) hrun
  have hkeep : (t.abs.procs j).state = .runnable ∧ (t.abs.procs j).image = (s.abs.procs j).image := by
    refine Runs.exec_induction (P := fun ops p => (∀ op ∈ ops, op.caller ≠ some j) →
      (p.2.procs j).state = .runnable ∧ (p.2.procs j).image = (s.abs.procs j).image)
      (fun _ => ⟨hlive, rfl⟩) (fun ops p op q _ ih hq hops => ?_)
      (exec_lockstep hs hrun hfull) hj
    obtain ⟨u, -, hu⟩ := Option.bind_eq_some_iff.1 hq
    obtain ⟨r, hr, rfl⟩ := Option.map_eq_some_iff.1 hu
    have hp := ih fun op hop => hops op (by simp [hop])
    have hstep := RState.step_other hr (hops op (by simp)) hp.1
    exact ⟨hstep.1, hstep.2.trans hp.2⟩
  refine ⟨hkeep.1, fun va => ⟨_, hs.loadByte (live_of_runs hlive) va, ?_⟩⟩
  rw [← hkeep.2]
  exact ht.loadByte (live_of_runs hkeep.1) va

theorem store_step [Layout] {s : KState} {L : List ℕ} {i : ℕ} (va : ℕ) (b : UInt8) (h : Sys s L)
    (hL : L ≠ []) (hfull : 0 ∉ s.mach.allocs) (hi : i < NPROC)
    (hrun : (s.procs i).state = .runnable) (hwr : (s.abs.procs i).image.writable va = true) :
    ∃ t, step s (.store i va b) = some t ∧ 0 ∉ t.mach.allocs := by
  apply step_of_wp
  rw [perform, wp_byProc]
  refine ⟨fun _ => ?_, fun hr => absurd ⟨hi, hrun⟩ hr⟩
  simp only [store, wp_bind, wp_getProc, wp_vm]
  refine wp_post (storeFault_spec va b (h.focus (live_of_runs hrun))) ?_
  rintro ok m ⟨L', f, -, hok, h0⟩
  have hm : 0 ∉ m.allocs := fun hc => hfull (h0 hL hc)
  rw [← abs_image s i, Image.store, if_pos hwr] at hok
  rw [hok hm, Option.isSome_some, if_pos rfl, wp_pure]
  exact hm

/-- After the first `fork` the two processes have the image with `initcode`, and there is a free
page left. -/
theorem first_forks [Layout] (mem : Bytes) (hn : 14 ≤ ramPages) : ∃ s L, Reaches mem 0 [.fork 0] s ∧
    Sys s L ∧ L ≠ [] ∧ 0 ∉ s.mach.allocs ∧ ∀ i < 2, (s.procs i).state = .runnable ∧
      (s.abs.procs i).image = firstImage initcode := by
  obtain ⟨_, s₀, hboot, L₀, hb, hlen, hfirst⟩ := wp_returns (boot_spec mem (n := 0) (by omega))
  have hneed : forkNeed (npg (s₀.procs 0).sz) = 6 := by
    rw [hb.init.2]
    decide
  obtain ⟨s, hs, ⟨L, hsys, hL⟩, hfull⟩ :=
    fork_step (i := 0) hb.sys (by decide) hb.init.1 (by rw [hb.slot]; simp) (by omega)
  have hs0 : 0 ∉ s.mach.allocs := fun h0 => hb.full (hfull h0)
  have himg : (s₀.abs.procs 0).image = firstImage initcode := by
    rw [abs_image, hb.init.2, show npg PGSIZE = 1 by decide]
    exact hfirst.image
  have hfork : some (s₀.abs.fork 0) = some s.abs := by
    rw [← (step_next hb.sys hs).abs hs0, RState.step,
      RState.byProc_of_runs (r := s₀.abs) (by decide) hb.init.1]
  rw [RState.fork, show s₀.abs.findUnused = some 1 from hb.slot, Option.some.injEq] at hfork
  refine ⟨s, L, ⟨s₀, hboot, Runs.exec_cons.mpr ⟨s, hs, rfl⟩⟩, hsys, ?_, hs0, fun i hi => ?_⟩
  · rintro rfl
    rw [List.length_nil] at hL
    omega
  · change (s.abs.procs i).state = _ ∧ _
    rw [← hfork, ← himg]
    obtain rfl | rfl : i = 0 ∨ i = 1 := by omega
    · exact ⟨hb.init.1, rfl⟩
    · exact ⟨rfl, rfl⟩

/-- The child of the first process stores a zero over the first byte of `initcode`, which it shares
with its parent. -/
theorem processes_isolated_child : letI := sampleLayout
    ∃ s t, Reaches (fun _ => 0) 0 [.fork 0] s ∧ Runs.exec step s [.store 1 0 0] = some t ∧
      loadByte (t.procs 1).pagetable 0 t.mach = .ok (some 0, t.mach) ∧
      loadByte (t.procs 0).pagetable 0 t.mach = .ok (some 0x17, t.mach) ∧
      ∀ va, ∃ b, loadByte (s.procs 0).pagetable va s.mach = .ok (b, s.mach) ∧
        loadByte (t.procs 0).pagetable va t.mach = .ok (b, t.mach) := by
  let := sampleLayout
  have hram := sampleLayout_ramPages
  obtain ⟨s, L, hreach, hsys, hL, hs0, hpair⟩ := first_forks (fun _ => 0) (by omega)
  obtain ⟨hchild, himg⟩ := hpair 1 (by decide)
  obtain ⟨t, ht, ht0⟩ := store_step 0 0 hsys hL hs0 (by decide) hchild (by rw [himg]; decide)
  have hrun : Runs.exec step s [.store 1 0 0] = some t := Runs.exec_cons.mpr ⟨t, ht, rfl⟩
  have hiso := processes_isolated (j := 0) (by omega) hreach hrun ht0 (by decide) (hpair 0 (by decide)).1
  obtain ⟨⟨L', ht'⟩, -, -, hstore⟩ := step_next hsys ht
  have hput : (s.abs.procs 1).image.store 0 0 = some ((firstImage initcode).put 0 0 [0]) := by
    rw [himg]
    rfl
  have hstore := hstore ht0
  rw [RState.step, RState.byProc_of_runs (r := s.abs) (by decide) hchild, hput,
    Option.some.injEq] at hstore
  have hstate : (t.abs.procs 1).state = .runnable := by
    rw [← hstore]
    exact hchild
  refine ⟨s, t, hreach, hrun, ?_, ?_, hiso.2⟩
  · rw [ht'.loadByte (live_of_runs hstate), ← hstore]
    rfl
  · rw [ht'.loadByte (live_of_runs hiso.1), ← hstore, RState.modifyProc_procs, if_neg (by decide),
      (hpair 0 (by decide)).2]
    rfl

end Xv6Cow.Kernel

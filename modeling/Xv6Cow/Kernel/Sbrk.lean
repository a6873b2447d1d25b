import Xv6Cow.Kernel.Runs

/-! # The arithmetic of `growproc`

`growproc(n)` adds a signed `n` to the unsigned size of a process.  To grow it calls `uvmalloc`,
which undoes what it has done when the memory runs out.  To shrink it calls `uvmdealloc` with the
unsigned sum: when `n` takes away more than there is, the sum wraps to a size that is larger than
the old one, `uvmdealloc` leaves the process as it is, and `growproc` reports success. -/

namespace Xv6Cow.Kernel

open Vm Finset

section sbrk
variable [Layout] {mem : Bytes} {n i : ℕ} {ops : List Op} {s t : KState} {L : List ℕ} {k : ℤ}

/-- The virtual pages below the trapframe that the process in slot `i` maps. -/
def KState.mapped (s : KState) (i : ℕ) : Set ℕ :=
  {v | v < TFV ∧ has (pmap s.mach.mem (s.procs i).pagetable v) PTE_V = true}

/-- What a call of `growproc` leaves: the new size, or the old one and the same pages. -/
structure Resized (s t : KState) (i : ℕ) (k r : ℤ) : Prop where
  done : r = 0 ↔ ((t.procs i).sz : ℤ) = (s.procs i).sz + k
  failed : r ≠ 0 → r = -1 ∧ (t.procs i).sz = (s.procs i).sz ∧ t.mapped i = s.mapped i

theorem growproc_resizes (h : Sys s L) (hlive : (s.procs i).state ≠ .unused) (hlow : -2 ^ 31 ≤ k)
    (hk : 0 ≤ (s.procs i).sz + k) : wp (growproc i k) (fun r t => Resized s t i k r)
      (fun _ => False) s := by
  have hu := (h.focus hlive).uvm
  have hsz := hu.sz_lt
  simp only [growproc, wp_bind, wp_getProc]
  rw [wp_ite]
  refine ⟨fun hup => ?_, fun hup => ?_⟩
  · simp only [wp_bind, wp_vm]
    refine wp_post (uvmalloc_spec (s.procs i).sz ((s.procs i).sz + k.toNat)
      (x := PTE_W) ⟨by decide, by decide⟩ hu) ?_
    rintro r m ⟨-, (⟨hlt, -⟩ | ⟨-, rfl, -⟩ | ⟨-, rfl, ⟨L', hu', -⟩, -⟩)⟩
    · exact absurd hlt (by omega)
    · rw [if_neg (by omega), wp_bind, wp_modifyProc, wp_pure]
      refine ⟨⟨fun _ => ?_, fun _ => rfl⟩, fun hr => absurd rfl hr⟩
      dsimp only
      rw [Function.update_self]
      dsimp only
      omega
    · -- the memory has run out
      rw [if_pos rfl, wp_pure]
      refine ⟨⟨fun hr => absurd hr (by decide), fun he => ?_⟩, fun _ => ⟨rfl, rfl, ?_⟩⟩
      · dsimp only at he
        omega
      · unfold KState.mapped
        dsimp only
        rw [hu'.tab.map]
  · rw [wp_ite]
    refine ⟨fun hdown => ?_, fun hdown => ?_⟩
    · have hmod : (((s.procs i).sz + k) % 2 ^ 64).toNat = ((s.procs i).sz + k).toNat := by
        rw [Int.emod_eq_of_lt hk (by omega)]
      simp only [wp_bind, wp_vm, hmod]
      refine wp_post (uvmdealloc_spec (s.procs i).sz ((s.procs i).sz + k).toNat hu) ?_
      rintro r m ⟨rfl, -⟩
      rw [wp_modifyProc, wp_pure]
      refine ⟨⟨fun _ => ?_, fun _ => rfl⟩, fun hr => absurd rfl hr⟩
      dsimp only
      rw [Function.update_self]
      dsimp only
      omega
    · rw [wp_pure]
      refine ⟨⟨fun _ => ?_, fun _ => rfl⟩, fun hr => absurd rfl hr⟩
      omega

theorem growproc_wraps (h : Sys s L) (hlive : (s.procs i).state ≠ .unused) (hlow : -2 ^ 31 ≤ k)
    (hk : (s.procs i).sz + k < 0) :
    wp (growproc i k) (fun r t => r = 0 ∧ (t.procs i).sz = (s.procs i).sz) (fun _ => False) s := by
  have hu := (h.focus hlive).uvm
  have hsz := hu.sz_lt
  have hmod : (((s.procs i).sz + k) % 2 ^ 64).toNat = ((s.procs i).sz + k + 2 ^ 64).toNat := by
    rw [← Int.add_emod_right, Int.emod_eq_of_lt (by omega) (by omega)]
  simp only [growproc, wp_bind, wp_getProc]
  rw [if_neg (by omega), if_pos (by omega)]
  simp only [wp_bind, wp_vm, hmod]
  refine wp_post (uvmdealloc_spec (s.procs i).sz ((s.procs i).sz + k + 2 ^ 64).toNat hu) ?_
  rintro r m ⟨rfl, -⟩
  rw [wp_modifyProc, wp_pure]
  refine ⟨rfl, ?_⟩
  dsimp only
  rw [Function.update_self]
  dsimp only
  omega

/-- **The arithmetic of `growproc`.**  In every state of every run, for every running process and
every `int`: `growproc` returns, and it returns 0 exactly when the new size is the sum, and
otherwise -1 with the size and the mapped pages as they were, if and only if the sum is not
negative. -/
theorem growproc_exact_iff (hn : n + 7 ≤ ramPages) (h : Reaches mem n ops s)
    (hrun : (s.procs i).state = .runnable) (hlow : -2 ^ 31 ≤ k) :
    ∃ r t, growproc i k s = .ok (r, t) ∧
      (((r = 0 ↔ ((t.procs i).sz : ℤ) = (s.procs i).sz + k) ∧
        (r ≠ 0 → r = -1 ∧ (t.procs i).sz = (s.procs i).sz ∧ t.mapped i = s.mapped i)) ↔
          0 ≤ (s.procs i).sz + k) := by
  obtain ⟨L, hsys⟩ := h.sys hn
  have hlive := live_of_runs hrun
  rcases lt_or_ge ((s.procs i).sz + k) 0 with hneg | hpos
  · obtain ⟨r, t, hok, hr, hsz⟩ := wp_returns (growproc_wraps hsys hlive hlow hneg)
    refine ⟨r, t, hok, fun hx => ?_, fun hpos => absurd hpos (by omega)⟩
    have := hx.1.mp hr
    omega
  · obtain ⟨r, t, hok, hres⟩ := wp_returns (growproc_resizes hsys hlive hlow hpos)
    exact ⟨r, t, hok, fun _ => hpos, fun _ => ⟨hres.done, hres.failed⟩⟩

end sbrk

theorem growproc_exact_iff_shrink : letI := sampleLayout
    ∃ s, Reaches (fun _ => 0) 0 [] s ∧ (s.procs 0).state = .runnable ∧ (s.procs 0).sz = 4096 ∧
      ∃ r t, growproc 0 (-4096) s = .ok (r, t) ∧
        (((r = 0 ↔ ((t.procs 0).sz : ℤ) = (s.procs 0).sz + -4096) ∧
          (r ≠ 0 → r = -1 ∧ (t.procs 0).sz = (s.procs 0).sz ∧ t.mapped 0 = s.mapped 0)) ↔
          0 ≤ (s.procs 0).sz + (-4096 : ℤ)) := by
  let := sampleLayout
  have hram := sampleLayout_ramPages
  obtain ⟨s, hreach, hrun, hsz⟩ := first_process
  exact ⟨s, hreach, hrun, hsz, growproc_exact_iff (by omega) hreach hrun (by norm_num)⟩

/-- The first process has 4096 bytes; `growproc(-4097)` returns 0 and leaves it with 4096 bytes. -/
theorem growproc_shrinks_too_far : letI := sampleLayout
    ∃ s t, Reaches (fun _ => 0) 0 [] s ∧ (s.procs 0).state = .runnable ∧ (s.procs 0).sz = 4096 ∧
      growproc 0 (-4097) s = .ok (0, t) ∧ (t.procs 0).sz = 4096 := by
  let := sampleLayout
  have hram := sampleLayout_ramPages
  obtain ⟨s, hreach, hrun, hsz⟩ := first_process
  obtain ⟨L, hsys⟩ := hreach.sys (by omega)
  obtain ⟨r, t, hok, rfl, ht⟩ :=
    wp_returns (growproc_wraps (k := -4097) hsys (live_of_runs hrun) (by norm_num)
      (by rw [hsz]; norm_num))
  exact ⟨s, t, hreach, hrun, hsz, hok, ht.trans hsz⟩

end Xv6Cow.Kernel

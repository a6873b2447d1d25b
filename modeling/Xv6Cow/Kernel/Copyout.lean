import Xv6Cow.Kernel.Runs

/-! # `copyout` in the system

`copyout` is given the table of the process that runs, or the table that `exec` is building, which
no slot has and which has no copy-on-write page.  What it writes, when it succeeds, and that nobody
else sees it. -/

namespace Xv6Cow.Kernel

open Vm Finset

section copyout
variable [Layout] {s : KState} {t : Mach} {L L' : List ℕ} {cur : Option ℕ} {a n dstva len : ℕ}
  {S : Finset ℕ} {src : List UInt8} {r : ℤ}

/-- The tables that `copyout` is given: `cur` is the table of the process that runs, `a` the table
to write to, of `n` user pages, and `S` the slots whose table it is not. -/
inductive Target (s : KState) (L : List ℕ) : (cur : Option ℕ) → (a n : ℕ) → (S : Finset ℕ) → Prop
  | own (i : ℕ) : Sys s L → (s.procs i).state ≠ .unused →
      Target s L (some (s.procs i).pagetable) (s.procs i).pagetable (npg (s.procs i).sz)
      ((range NPROC).erase i)
  | fresh (cur : Option ℕ) (a tf n : ℕ) (X : ℕ → ℕ) :
      User s.mach L (kernOf s.mach.mem s.procs (range NPROC) + X)
        (userOf s.mach.mem s.procs (range NPROC)) a tf n (pmap s.mach.mem a) →
      (∀ v < n, has (pmap s.mach.mem a v) PTE_COW = false) → Target s L cur a n (range NPROC)

/-- The pages of `[dstva, dstva + len)` that are copy-on-write and mapped more than once. -/
def toCopy (s : Mach) (a dstva len : ℕ) : Finset ℕ :=
  (pagesOf dstva len).filter (fun v => has (pmap s.mem a v) PTE_COW = true ∧
    1 < s.refcnt (pte2pa (pmap s.mem a v) / PGSIZE))

/-- Every page of `[dstva, dstva + len)` is below `MAXVA`, valid, a user page, and writable or
copy-on-write, and the free list `L` has a page for each of them that has to be copied. -/
structure Copyable (s : Mach) (L : List ℕ) (a dstva len : ℕ) : Prop where
  pages : ∀ v ∈ pagesOf dstva len, v * PGSIZE < MAXVA ∧ has (pmap s.mem a v) PTE_V = true ∧
    has (pmap s.mem a v) PTE_U = true ∧
      (has (pmap s.mem a v) PTE_W = true ∨ has (pmap s.mem a v) PTE_COW = true)
  room : (toCopy s a dstva len).card ≤ L.length

/-- What a call of `copyout` that returns `r` has done: all of the range, or the pages before some
page boundary. -/
structure CopiedOut (s : KState) (t : Mach) (L : List ℕ) (a n : ℕ) (S : Finset ℕ) (dstva : ℕ)
    (src : List UInt8) (r : ℤ) : Prop where
  done : Copyable s.mach L a dstva src.length → r = 0 ∧
    image t.mem (pmap t.mem a) n = (image s.mach.mem (pmap s.mach.mem a) n).poke dstva src ∧
    (∀ i (hi : i < src.length), (image t.mem (pmap t.mem a) n).load (dstva + i) = some src[i]) ∧
    copyin a dstva src.length t = .ok ((0, src), t)
  failed : ¬ Copyable s.mach L a dstva src.length → r = -1 ∧ ∃ k < src.length,
    (k = 0 ∨ PGSIZE ∣ dstva + k) ∧ image t.mem (pmap t.mem a) n =
      (image s.mach.mem (pmap s.mach.mem a) n).poke dstva (src.take k)
  others : ∀ j ∈ S, (s.procs j).state ≠ .unused →
    image t.mem (pmap t.mem (s.procs j).pagetable) (npg (s.procs j).sz) =
      image s.mach.mem (pmap s.mach.mem (s.procs j).pagetable) (npg (s.procs j).sz)

theorem Target.user (h : Target s L cur a n S) :
    ∃ X U tf, User s.mach L X U a tf n (pmap s.mach.mem a) ∧ Current cur a n (pmap s.mach.mem a) ∧
    ∀ q, kernOf s.mach.mem s.procs S q + userOf s.mach.mem s.procs S q ≤ X q + U q := by
  cases h with
  | own i hsys hlive =>
      refine ⟨_, _, _, hsys.focus hlive, Or.inl rfl, fun q => ?_⟩
      unfold KState.rest KState.others
      simp only [Pi.add_apply]
      omega
  | fresh cur a tf n X hu hno =>
      refine ⟨_, _, tf, hu, Or.inr hno, fun q => ?_⟩
      simp only [Pi.add_apply]
      omega

theorem shared_iff {s : Mach} {X U : ℕ → ℕ} {tf v : ℕ} {f : ℕ → Pte} (h : User s L X U a tf n f) :
    Shared U (f v) ↔ has (f v) PTE_COW = true ∧ 1 < s.refcnt (pte2pa (f v) / PGSIZE) := by
  refine and_congr_right (fun hC => ?_)
  have hspan := h.uvm.space.span_eq_one (h.uvm.space.lt_of_cow hC)
  have hacct := h.uvm.tab.own.acct
  have hx := hacct.shared_not_excl (p := pte2pa (f v)) (by simp only [Pi.add_apply]; omega)
  have hcnt := hacct.cnt_eq (p := pte2pa (f v)) (by simp only [Pi.add_apply]; omega)
  simp only [Pi.add_apply] at hx hcnt
  omega

theorem copyable_iff {s : Mach} {X U : ℕ → ℕ} {tf : ℕ} (h : User s L X U a tf n (pmap s.mem a)) :
    Copyable s L a dstva len ↔ Fits U (pmap s.mem a) L dstva len := by
  have hcard : (toCopy s a dstva len).card = copies U (pmap s.mem a) (pagesOf dstva len) := by
    unfold toCopy copies
    rw [filter_congr (fun v _ => (shared_iff (v := v) h).symm)]
  constructor
  · rintro ⟨hp, hr⟩
    exact ⟨fun v hv => ⟨(hp v hv).2.2.1, (hp v hv).2.2.2⟩, by rwa [← hcard]⟩
  · rintro ⟨hp, hr⟩
    refine ⟨fun v hv => ?_, by rwa [hcard]⟩
    have hvn := h.uvm.space.lt_of_user (hp v hv).1
    exact ⟨h.uvm.lt_MAXVA (Nat.le_of_lt hvn), (h.uvm.space.user v hvn).valid, hp v hv⟩

theorem holds_poke {m : Bytes} {f : ℕ → Pte} {tf : ℕ} (hs : Space f tf n)
    (hw : ∀ v ∈ pagesOf dstva src.length, Writable (f v)) :
    ((image m f n).poke dstva src).Holds dstva src := by
  intro i hi
  have hU := (hw _ (mem_pagesOf.mpr ⟨i, hi, rfl⟩)).1
  have hv := hs.lt_of_user hU
  refine ⟨_, by rw [Image.poke, image_of_lt hv, Option.map_some], hU, (hs.user _ hv).read, ?_⟩
  have hdm := Nat.div_add_mod' (dstva + i) PGSIZE
  have hlt : (dstva + i) % PGSIZE < PGSIZE := Nat.mod_lt _ (by decide)
  dsimp only
  rw [if_pos ⟨hlt, by omega⟩, hdm, Nat.add_sub_cancel_left, List.getD_eq_getElem _ _ hi]

/-- **`copyout` is exact.**  For the table of the process that runs and for a table without
copy-on-write pages, for every address and every bytes: `copyout` returns; it returns 0 exactly if
the range can be written, and then the process reads the bytes there; otherwise it returns -1 and
has written the pages before some page boundary.  No other byte of any process changes. -/
theorem copyout_exact (h : Target s L cur a n S) (dstva : ℕ) (src : List UInt8) :
    ∃ r t, copyout cur a dstva src s.mach = .ok (r, t) ∧ CopiedOut s t L a n S dstva src r := by
  obtain ⟨X, U, tf, hu, hcur, hout⟩ := h.user
  obtain ⟨r, t, hok, L', f', k, hw, -, hst⟩ :=
    wp_returns (copyoutFrom_spec dstva hu hcur (le_refl src.length))
  have hmap : pmap t.mem a = f' := hw.user.uvm.tab.map
  have himage := hst.image
  refine ⟨r, t, hok, fun hc => ?_, fun hc => ?_, fun j hj hlive => ?_⟩
  · have hfits := (copyable_iff hu).mp hc
    rcases hst.result with ⟨rfl, rfl, -⟩ | ⟨-, -, -, hno⟩
    · rw [List.take_length] at himage
      have hholds := holds_poke (m := s.mach.mem) hu.uvm.space hfits.1
      rw [← himage] at hholds
      have hread : wp (copyin a dstva src.length) (fun p t' => p = (0, src) ∧ t' = t)
          (fun _ => False) t :=
        (wp_copyin hw.user.uvm).mpr ⟨Image.copyinFrom_holds hholds le_rfl, rfl⟩
      obtain ⟨_, _, hin, rfl, rfl⟩ := wp_returns hread
      rw [hmap]
      exact ⟨rfl, himage, fun i hi => hholds.load hi, hin⟩
    · exact absurd hfits hno
  · rcases hst.result with ⟨-, -, hfits⟩ | ⟨rfl, hk, hchunk, -⟩
    · exact absurd ((copyable_iff hu).mpr hfits) hc
    · exact ⟨rfl, k, hk, hchunk, by rw [hmap, himage]⟩
  · refine image_frame hlive (hw.touched.keeps.frame.mono (fun q hq => ?_))
    have h1 := kern_le s.mach.mem s.procs hj q
    have h2 := user_le s.mach.mem s.procs hj q
    have h3 := hout q
    simp only [Pi.add_apply] at hq ⊢
    omega

end copyout

/-- Three bytes of which the last is past the only page of the first process. -/
theorem copyout_exact_first : letI := sampleLayout
    ∃ s L, Reaches (fun _ => 0) 0 [] s ∧ (s.procs 0).state = .runnable ∧ (s.procs 0).sz = 4096 ∧
      Sys s L ∧ ∃ r t, copyout (some (s.procs 0).pagetable) (s.procs 0).pagetable 4094 [1, 2,
        3] s.mach = .ok (r, t) ∧ CopiedOut s t L (s.procs 0).pagetable (npg (s.procs 0).sz)
          ((range NPROC).erase 0) 4094 [1, 2, 3] r := by
  let := sampleLayout
  have hram := sampleLayout_ramPages
  obtain ⟨s, hreach, hrun, hsz⟩ := first_process
  obtain ⟨L, hsys⟩ := hreach.sys (by omega)
  exact ⟨s, L, hreach, hrun, hsz, hsys, copyout_exact (.own 0 hsys (by rw [hrun]; decide)) 4094
    [1, 2, 3]⟩

end Xv6Cow.Kernel

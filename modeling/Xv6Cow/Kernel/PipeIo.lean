import Xv6Cow.Kernel.Copyout

/-! # `pipewrite` and `piperead`

The two functions on the page of a pipe and on the memory of the process that calls them.  A call
that sleeps comes back to the head of its loop, in a later state; here that is a call that does not
return (`piperead`), or one that says where its loop was (`pipewrite`).

`piperead` takes a byte out of the pipe before it copies it to the buffer.  When this copy fails the
byte is in neither. -/

namespace Xv6Cow.Kernel

open Vm Finset

def PIPESIZE : ℕ := 512

/-- The offset of `data` in `struct pipe`. -/
def PI_DATA : ℕ := 24

/-- A 32-bit field of a structure. -/
def ldint (a : ℕ) : VmM ℕ := do
  let s ← get
  pure (s.mem.le a 4)

/-- `pi->nread`. -/
def nread (m : Bytes) (pi : ℕ) : ℕ := m.le (pi + PI_NREAD) 4

/-- `pi->nwrite`. -/
def nwrite (m : Bytes) (pi : ℕ) : ℕ := m.le (pi + PI_NWRITE) 4

/-- The number of bytes in a pipe. -/
def available (m : Bytes) (pi : ℕ) : ℕ := (nwrite m pi + 2 ^ 32 - nread m pi) % 2 ^ 32

section pipes
variable [Layout]

/-- The loop of `pipewrite` from `i` on: the return value, or the loop variable when it sleeps. -/
def pipewriteFrom (killed : Bool) (pagetable pi addr : ℕ) (n : ℤ) : (fuel i : ℕ) → VmM (ℕ ⊕ ℤ)
  | 0, i => pure (.inr i)
  | fuel + 1, i =>
      if (i : ℤ) < n then do
        let readopen ← ldint (pi + PI_READOPEN)
        if readopen = 0 ∨ killed = true then pure (.inr (-1))
        else do
          let nwrite ← ldint (pi + PI_NWRITE)
          let nread ← ldint (pi + PI_NREAD)
          if nwrite = (nread + PIPESIZE) % 2 ^ 32 then pure (.inl i)
          else do
            let (r, ch) ← copyin pagetable ((addr + i) % 2 ^ 64) 1
            if r = -1 then pure (.inr i)
            else do
              stint (pi + PI_NWRITE) (nwrite + 1)
              memput (pi + PI_DATA + nwrite % PIPESIZE) ch
              pipewriteFrom killed pagetable pi addr n fuel (i + 1)
      else pure (.inr i)

/-- `pipewrite` by the process in slot `i`. -/
def pipewrite (i pi addr : ℕ) (n : ℤ) : KM (ℕ ⊕ ℤ) := do
  let pr ← getProc i
  vm (pipewriteFrom pr.killed pr.pagetable pi addr n n.toNat 0)

/-- The copy loop of `piperead` from `i` on. -/
def pipereadFrom (pagetable pi addr : ℕ) (n : ℤ) : (fuel i : ℕ) → VmM ℤ
  | 0, i => pure i
  | fuel + 1, i =>
      if (i : ℤ) < n then do
        let nread ← ldint (pi + PI_NREAD)
        let nwrite ← ldint (pi + PI_NWRITE)
        if nread = nwrite then pure i
        else do
          let s ← get
          stint (pi + PI_NREAD) (nread + 1)
          let r ← copyout (some pagetable) pagetable ((addr + i) % 2 ^ 64)
            [s.mem (pi + PI_DATA + nread % PIPESIZE)]
          if r = -1 then pure i
          else pipereadFrom pagetable pi addr n fuel (i + 1)
      else pure i

/-- `piperead` by the process in slot `i`; none if it sleeps. -/
def piperead (i pi addr : ℕ) (n : ℤ) : KM (Option ℤ) := do
  let pr ← getProc i
  let nread ← vm (ldint (pi + PI_NREAD))
  let nwrite ← vm (ldint (pi + PI_NWRITE))
  let writeopen ← vm (ldint (pi + PI_WRITEOPEN))
  if nread = nwrite ∧ writeopen ≠ 0 then
    if pr.killed then pure (some (-1)) else pure none
  else do
    let r ← vm (pipereadFrom pr.pagetable pi addr n n.toNat 0)
    pure (some r)

end pipes

/-! ### The ring in memory -/

section ring
variable {m m' : Bytes} {pi v : ℕ}

/-- The pipe is as before, but for `j` bytes that were read. -/
structure Advanced (m m' : Bytes) (pi j : ℕ) : Prop where
  nread : nread m' pi = (nread m pi + j) % 2 ^ 32
  nwrite : nwrite m' pi = nwrite m pi
  data : ∀ k < PIPESIZE, m' (pi + PI_DATA + k) = m (pi + PI_DATA + k)

theorem nread_lt (m : Bytes) (pi : ℕ) : nread m pi < 2 ^ 32 := Bytes.le_lt 4 _

theorem nwrite_lt (m : Bytes) (pi : ℕ) : nwrite m pi < 2 ^ 32 := Bytes.le_lt 4 _

theorem Advanced.of_same (h : SameOn m m' pi) : Advanced m m' pi 0 := by
  refine ⟨?_, Bytes.le_congr (fun x h1 h2 => ?_), fun k hk => ?_⟩
  · rw [Nat.add_zero, Nat.mod_eq_of_lt (nread_lt m pi)]
    exact Bytes.le_congr (fun x h1 h2 => h x (by omega) (by unfold PI_NREAD at h2; unfold PGSIZE; omega))
  · exact h x (by omega) (by unfold PI_NWRITE at h2; unfold PGSIZE; omega)
  · exact h _ (by omega) (by unfold PIPESIZE at hk; unfold PI_DATA PGSIZE; omega)

theorem Advanced.refl (m : Bytes) (pi : ℕ) : Advanced m m pi 0 := Advanced.of_same (fun _ _ _ => rfl)

theorem Advanced.trans {m'' : Bytes} {j k : ℕ} (h : Advanced m m' pi j)
    (h' : Advanced m' m'' pi k) : Advanced m m'' pi (j + k) := by
  refine ⟨?_, h'.nwrite.trans h.nwrite, fun i hi => (h'.data i hi).trans (h.data i hi)⟩
  rw [h'.nread, h.nread, Nat.mod_add_mod, Nat.add_assoc]

theorem Advanced.take (m : Bytes) (pi : ℕ) :
    Advanced m (m.setLe (pi + PI_NREAD) 4 (Kernel.nread m pi + 1)) pi 1 := by
  refine ⟨Bytes.le_setLe_mod 4 _ _ _, Bytes.le_setLe_ne (by unfold PI_NREAD PI_NWRITE; omega),
    fun k hk => ?_⟩
  exact Bytes.setLe_of_not_mem (by unfold PIPESIZE at hk; unfold PI_DATA PI_NREAD; omega)

theorem Advanced.available_eq (h : Advanced m m' pi 0) : available m' pi = available m pi := by
  unfold Kernel.available
  rw [h.nread, h.nwrite, Nat.add_zero, Nat.mod_eq_of_lt (nread_lt m pi)]

theorem Advanced.available (h : Advanced m m' pi 1) (hne : Kernel.nread m pi ≠ Kernel.nwrite m pi) :
    available m pi = available m' pi + 1 := by
  have h1 := nread_lt m pi
  have h2 := nwrite_lt m pi
  unfold Kernel.available
  rw [h.nread, h.nwrite]
  omega

end ring

section reading
variable [Layout] {s t : Mach} {L L' : List ℕ} {X U : ℕ → ℕ} {a tf n pi addr i : ℕ} {f f' : ℕ → Pte}
    {N : ℤ}

/-- The copy loop of `piperead`: it moves as many bytes as there are and as the caller wants, if the
buffer can be written; otherwise it takes one byte more out of the pipe than it has copied. -/
theorem pipereadFrom_spec {fuel : ℕ} (h : User s L X U a tf n f) (hpi : 0 < X pi)
    (hfuel : fuel = N.toNat - i) :
      wp (pipereadFrom a pi addr N fuel i) (fun r t => ∃ k j : ℕ, r = (i + k : ℕ) ∧
          Advanced s.mem t.mem pi j ∧
            ((Fits U f L ((addr + i) % 2 ^ 64) (min (N.toNat - i) (available s.mem pi)) ∧
              k = min (N.toNat - i) (available s.mem pi) ∧ j = k) ∨
        (¬ Fits U f L ((addr + i) % 2 ^ 64) (min (N.toNat - i) (available s.mem pi)) ∧
          k < min (N.toNat - i) (available s.mem pi) ∧ j = k + 1))) (fun _ => False) s := by
  induction fuel generalizing s L f i with
  | zero =>
      simp only [pipereadFrom, wp_pure]
      refine ⟨0, 0, by simp, Advanced.refl _ _, Or.inl ⟨?_, by omega, rfl⟩⟩
      rw [show min (N.toNat - i) (available s.mem pi) = 0 by omega]
      exact Fits.zero
  | succ fuel ih =>
      simp only [pipereadFrom]
      rw [if_pos (by omega)]
      simp only [ldint, wp_bind, wp_get, wp_pure]
      rw [wp_ite]
      refine ⟨fun hempty => ?_, fun hsome => ?_⟩
      · have hav : available s.mem pi = 0 := by
          unfold available nread nwrite
          rw [hempty]
          simp
        rw [wp_pure]
        refine ⟨0, 0, by simp, Advanced.refl _ _, Or.inl ⟨?_, by omega, rfl⟩⟩
        rw [hav, Nat.min_zero]
        exact Fits.zero
      · have htake := Advanced.take s.mem pi
        have hav := htake.available hsome
        have hu := h.kernelWrite (m := s.mem.setLe (pi + PI_NREAD) 4 (nread s.mem pi + 1)) hpi
            (fun x hx =>
          Bytes.setLe_of_not_mem (by unfold PGSIZE at hx; unfold PI_NREAD; omega))
        -- the byte is out of the pipe; it is copied now
        simp only [wp_bind, wp_get, stint, wp_modify]
        refine wp_post (copyoutFrom_spec ((addr + i) % 2 ^ 64) hu (Or.inl rfl) le_rfl) ?_
        rintro r t ⟨L', f', k, hw, -, hst⟩
        have hsame : Advanced (s.mem.setLe (pi + PI_NREAD) 4 (nread s.mem pi + 1)) t.mem pi 0 :=
          Advanced.of_same (hw.touched.keeps.frame pi (by simp only [Pi.add_apply]; omega))
        have hmin : min (N.toNat - i) (available s.mem pi) = 1 + min (N.toNat - (i + 1))
            (available t.mem pi) := by
          rw [hsame.available_eq]
          omega
        rw [hmin]
        rcases hst.result with ⟨rfl, -, hfits⟩ | ⟨rfl, -, -, hno⟩
        · rw [if_neg (by decide)]
          have hwr := hfits.1 _ (mem_pagesOf.mpr ⟨0, by simp, rfl⟩)
          have hlow : (addr + i) % 2 ^ 64 < MAXVA := h.uvm.lt_of_user hwr.1
          have hnext : (addr + (i + 1)) % 2 ^ 64 = (addr + i) % 2 ^ 64 + 1 := by
            unfold MAXVA at hlow
            omega
          have hrest := hfits.rest (m := min (N.toNat - (i + 1)) (available t.mem pi)) hst.same
            (fun v hv => ⟨hw.touched.writable (h.uvm.space.lt_of_user (hfits.1 v hv).1)
              (hfits.1 v hv), hst.settled rfl v hv⟩)
            (hst.spent rfl)
          rw [List.length_singleton, ← hnext] at hrest
          refine wp_post (ih hw.user (by omega)) ?_
          rintro r t' ⟨k', j, rfl, hadv, hcase⟩
          refine ⟨1 + k', 1 + 0 + j, by rw [Nat.add_assoc], (htake.trans hsame).trans hadv, ?_⟩
          rw [hrest]
          rcases hcase with ⟨g1, g2, g3⟩ | ⟨g1, g2, g3⟩
          · exact Or.inl ⟨g1, by omega, by omega⟩
          · exact Or.inr ⟨g1, by omega, by omega⟩
        · rw [if_pos rfl, wp_pure]
          exact ⟨0, 1, by simp, htake.trans hsame, Or.inr ⟨fun hx => hno hx.left, by omega, rfl⟩⟩

/-- No byte of the pipe is lost by a read that returns `r`: it is advanced by the `r` bytes that
were copied. -/
def Kept (m m' : Bytes) (pi : ℕ) (r : ℤ) : Prop := Advanced m m' pi (max r 0).toNat

/-- **What a read loses.**  For every pipe, every buffer and every size: `piperead` sleeps and
changes nothing, or it returns, and no byte of the pipe is lost if and only if the part of the
buffer that the available bytes go to can be written. -/
theorem piperead_kept_iff {s : KState} (h : Sys s L) (hlive : (s.procs i).state ≠ .unused)
    (hpi : pi ∈ s.pipes) (haddr : addr < 2 ^ 64) :
    ∃ r t, piperead i pi addr N s = .ok (r, t) ∧ ((r = none ∧ t = s) ∨
      ∃ v, r = some v ∧ (Kept s.mach.mem t.mach.mem pi v ↔
        Copyable s.mach L (s.procs i).pagetable addr (min N.toNat (available s.mach.mem pi)))) := by
  have hu := h.focus hlive
  have hout : 0 < s.rest i pi := by
    have := pages_pos hpi
    unfold KState.rest
    simp only [Pi.add_apply]
    omega
  have hspec : wp (piperead i pi addr N) (fun r t => (r = none ∧ t = s) ∨ ∃ v, r = some v ∧
      (Kept s.mach.mem t.mach.mem pi v ↔ Copyable s.mach L (s.procs i).pagetable addr
        (min N.toNat (available s.mach.mem pi)))) (fun _ => False) s := by
    simp only [piperead, ldint, wp_bind, wp_getProc, wp_vm, wp_get, wp_pure]
    rw [wp_ite]
    refine ⟨fun hempty => ?_, fun _ => ?_⟩
    · have hav : available s.mach.mem pi = 0 := by
        unfold available nread nwrite
        rw [hempty.1]
        simp
      rw [wp_ite]
      refine ⟨fun _ => ?_, fun _ => ?_⟩
      · rw [wp_pure, hav, Nat.min_zero, copyable_iff hu]
        exact Or.inr ⟨-1, rfl, fun _ => Fits.zero, fun _ => Advanced.refl _ _⟩
      · rw [wp_pure]
        exact Or.inl ⟨rfl, rfl⟩
    · simp only [wp_bind, wp_vm]
      refine wp_post (pipereadFrom_spec (i := 0) hu hout rfl) ?_
      rintro r t ⟨k, j, rfl, hadv, hcase⟩
      rw [wp_pure]
      refine Or.inr ⟨_, rfl, ?_⟩
      rw [Nat.sub_zero, Nat.add_zero, Nat.mod_eq_of_lt haddr, ← copyable_iff hu] at hcase
      unfold Kept
      rw [Nat.zero_add, max_eq_left (Int.natCast_nonneg k), Int.toNat_natCast]
      rcases hcase with ⟨g1, -, rfl⟩ | ⟨g1, g2, rfl⟩
      · exact ⟨fun _ => g1, fun _ => hadv⟩
      · refine ⟨fun hk => absurd ?_ (Nat.succ_ne_self k), fun hc => absurd hc g1⟩
        have h1 := hadv.nread
        have h2 := nread_lt s.mach.mem pi
        rw [hk.nread] at h1
        omega
  exact wp_returns hspec

end reading

/-- A pipe that is empty and open at both ends, and a process that has not been killed. -/
structure Fresh (s : KState) (pi : ℕ) : Prop where
  mem : pi ∈ s.pipes
  runs : (s.procs 0).state = .runnable ∧ (s.procs 0).sz = 4096 ∧ (s.procs 0).killed = false
  image : image s.mach.mem (pmap s.mach.mem (s.procs 0).pagetable) 1 = firstImage initcode
  empty : nread s.mach.mem pi = 0 ∧ nwrite s.mach.mem pi = 0
  opened : s.mach.mem.le (pi + PI_READOPEN) 4 = 1 ∧ s.mach.mem.le (pi + PI_WRITEOPEN) 4 = 1

/-- The state after one byte is written to a fresh pipe. -/
def oneByte (s : KState) (pi : ℕ) : KState :=
  { s with mach := { s.mach with
      mem := (s.mach.mem.setLe (pi + PI_NWRITE) 4 1).write (pi + PI_DATA) (initcode.take 1) } }

theorem oneByte_ring {s : KState} {pi : ℕ} (hf : Fresh s pi) :
    nread (oneByte s pi).mach.mem pi = 0 ∧ nwrite (oneByte s pi).mach.mem pi = 1 := by
  have hout : ∀ x, pi + PI_NREAD ≤ x → (oneByte s pi).mach.mem x =
      s.mach.mem.setLe (pi + PI_NWRITE) 4 1 x := fun x hx =>
    Bytes.write_of_not_mem (Or.inr (by
      have : (initcode.take 1).length = 1 := by decide
      unfold PI_DATA
      unfold PI_NREAD at hx
      omega))
  constructor
  · rw [← hf.empty.1]
    exact Bytes.le_congr (fun x h1 h2 => (hout x h1).trans (Bytes.setLe_of_not_mem
      (by unfold PI_NREAD at h2; unfold PI_NWRITE; omega)))
  · exact (Bytes.le_congr (fun x h1 _ =>
      hout x (by unfold PI_NREAD; unfold PI_NWRITE at h1; omega))).trans (Bytes.le_setLe (by norm_num))

section samples
variable [Layout] {s : KState} {L : List ℕ}

theorem pipealloc_made (h : Sys s L) (hL : 2 ≤ L.length) :
    wp (pipealloc true true) (fun _ t => ∃ pi m, t = { s with mach := m, pipes := pi :: s.pipes } ∧
      (∃ L', Sys t L' ∧ L' ≠ []) ∧ nread m.mem pi = 0 ∧ nwrite m.mem pi = 0 ∧
        m.mem.le (pi + PI_READOPEN) 4 = 1 ∧ m.mem.le (pi + PI_WRITEOPEN) 4 = 1 ∧
      Frame s.mach.mem m.mem (kernOf s.mach.mem s.procs (range NPROC) + userOf s.mach.mem s.procs
        (range NPROC)))
      (fun _ => False) s := by
  simp only [pipealloc, Bool.not_true, Bool.or_self, Bool.false_eq_true, if_false, wp_bind, wp_vm]
  refine wp_post (kalloc_spec h.own) ?_
  rintro pi m ⟨hm, -, (⟨-, rfl, -⟩ | ⟨L₁, rfl, hown⟩)⟩
  · exact absurd hL (by simp)
  · have hpage : Page pi := hown.page (by simp [one_self])
    simp only [if_neg hpage.ne_zero, stint, wp_bind, wp_vm, wp_modify, wp_pure]
    have hwrite := Own.write_excl hown (fun _ => newPipe_of_not_mem)
    have hframe : Frame s.mach.mem
        ((((m.mem.setLe (pi + PI_READOPEN) 4 1).setLe (pi + PI_WRITEOPEN) 4 1).setLe
          (pi + PI_NWRITE) 4 0).setLe (pi + PI_NREAD) 4 0)
        (kernOf s.mach.mem s.procs (range NPROC) + userOf s.mach.mem s.procs (range NPROC)) := by
      rw [← hm]
      refine hwrite.2.1.mono (fun q hq => ?_)
      simp only [Pi.add_apply, hm] at hq ⊢
      omega
    refine ⟨pi, _, rfl, ⟨L₁, h.kernel s.held (pi :: s.pipes) ?_ (hframe.mono (fun q hq => ?_)), ?_⟩,
      ?_, ?_, ?_, ?_, hframe⟩
    · rw [pages_cons, add_comm (one pi), ← add_assoc]
      exact hwrite.1
    · simp only [Pi.add_apply]
      omega
    · rintro rfl
      exact absurd hL (by simp)
    · exact Bytes.le_setLe (by norm_num)
    · unfold nwrite
      rw [Bytes.le_setLe_ne (by unfold PI_NREAD PI_NWRITE; omega), Bytes.le_setLe (by norm_num)]
    · dsimp only
      rw [Bytes.le_setLe_ne (by unfold PI_NREAD PI_READOPEN; omega),
        Bytes.le_setLe_ne (by unfold PI_NWRITE PI_READOPEN; omega),
        Bytes.le_setLe_ne (by unfold PI_WRITEOPEN PI_READOPEN; omega), Bytes.le_setLe (by norm_num)]
    · dsimp only
      rw [Bytes.le_setLe_ne (by unfold PI_NREAD PI_WRITEOPEN; omega),
        Bytes.le_setLe_ne (by unfold PI_NWRITE PI_WRITEOPEN; omega), Bytes.le_setLe (by norm_num)]

theorem first_pipe (mem : Bytes) (hram : 9 ≤ ramPages) :
    ∃ s L pi, Reaches mem 0 [.pipe true true] s ∧ Sys s L ∧ L ≠ [] ∧ Fresh s pi := by
  obtain ⟨_, s₀, hboot, L, hb, hlen, hfirst⟩ := wp_returns (boot_spec mem (n := 0) (by omega))
  obtain ⟨r, s, hok, pi, m, rfl, ⟨L', hsys, hL⟩, h1, h2, h3, h4, hframe⟩ :=
    wp_returns (pipealloc_made hb.sys (by omega))
  have hstep : perform (.pipe true true) s₀ =
      .ok ((), { s₀ with mach := m, pipes := pi :: s₀.pipes }) := by
    have hw : wp (perform (.pipe true true))
        (fun _ t => t = { s₀ with mach := m, pipes := pi :: s₀.pipes }) (fun _ => False) s₀ := by
      simp [perform, wp_iff_of_ok hok]
    obtain ⟨_, _, hok', rfl⟩ := wp_returns hw
    exact hok'
  have himage := hb.sys.image_kernel hframe 0
  have hone : npg (s₀.procs 0).sz = 1 := by
    rw [hb.init.2]
    decide
  rw [hone, hfirst.image] at himage
  exact ⟨_, L', pi, ⟨s₀, hboot, Runs.exec_cons.mpr ⟨_, step_of_perform hstep, rfl⟩⟩, hsys, hL,
    List.mem_cons_self, ⟨hb.init.1, hb.init.2, hfirst.killed⟩, himage, ⟨h1, h2⟩, h3, h4⟩

theorem Fresh.write {pi : ℕ} (h : Sys s L) (hf : Fresh s pi) :
    pipewrite 0 pi 0 1 s = .ok (.inr 1, oneByte s pi) := by
  have hu := (h.focus (i := 0) (live_of_runs hf.runs.1)).uvm
  have hone : npg (s.procs 0).sz = 1 := by
    rw [hf.runs.2.1]
    decide
  have hread : (Vm.image s.mach.mem (pmap s.mach.mem (s.procs 0).pagetable) 1).copyin 0 1 =
      (0, initcode.take 1) := by
    rw [hf.image]
    rfl
  rw [hone] at hu
  have hw : wp (pipewrite 0 pi 0 1) (fun r t => r = .inr 1 ∧ t = oneByte s pi) (fun _ => False) s := by
    have hnw : s.mach.mem.le (pi + PI_NWRITE) 4 = 0 := hf.empty.2
    have hnr : s.mach.mem.le (pi + PI_NREAD) 4 = 0 := hf.empty.1
    simp only [pipewrite, wp_bind, wp_getProc, wp_vm, pipewriteFrom, Int.toNat_one]
    rw [if_pos (by decide)]
    simp only [ldint, wp_bind, wp_get, wp_pure]
    rw [hf.opened.1, if_neg (by rw [hf.runs.2.2]; decide)]
    simp only [wp_bind, wp_get, wp_pure]
    rw [hnw, hnr, if_neg (by decide), wp_bind, wp_copyin hu, show (0 + 0) % 2 ^ 64 = 0 from rfl, hread]
    simp only [if_neg (show ¬ (0 : ℤ) = -1 by decide), wp_bind, stint, wp_modify, wp_memput, wp_pure]
    exact ⟨rfl, rfl⟩
  obtain ⟨_, _, hok, rfl, rfl⟩ := wp_returns hw
  exact hok

section oneByte
variable {pi x : ℕ} (h : Sys s L) (hf : Fresh s pi)
include h hf

theorem oneByte_sys : Sys (oneByte s pi) L ∧
    image (oneByte s pi).mach.mem (pmap (oneByte s pi).mach.mem (s.procs 0).pagetable) 1 =
      firstImage initcode := by
  have hout : ∀ x, x < pi ∨ pi + PGSIZE ≤ x → (oneByte s pi).mach.mem x = s.mach.mem x := fun x hx => by
    have : (initcode.take 1).length = 1 := by decide
    unfold PGSIZE at hx
    exact (Bytes.write_of_not_mem (by unfold PI_DATA; omega)).trans
      (Bytes.setLe_of_not_mem (by unfold PI_NWRITE; omega))
  obtain ⟨hown, hk⟩ := h.writePage (pipes_split hf.mem) hout
  rw [← pipes_split hf.mem] at hown
  have hone : npg (s.procs 0).sz = 1 := by
    rw [hf.runs.2.1]
    decide
  have himage := h.image_kernel hk.frame 0
  rw [hone, hf.image] at himage
  exact ⟨h.kernel s.held s.pipes hown
    (hk.frame.mono (fun q hq => by simp only [Pi.add_apply]; omega)), himage⟩

theorem oneByte_fits (hL : L ≠ []) :
    Fits ((oneByte s pi).others 0) (pmap (oneByte s pi).mach.mem (s.procs 0).pagetable) L x 1 ↔
      x < 4096 := by
  obtain ⟨hsys, himage⟩ := oneByte_sys h hf
  have hpages : pagesOf x 1 = {x / PGSIZE} := by
    simp [pagesOf]
  unfold Fits copies
  rw [hpages]
  simp only [Finset.mem_singleton, forall_eq]
  constructor
  · rintro ⟨hw, -⟩
    have hlt := (hsys.focus (i := 0) (live_of_runs hf.runs.1)).uvm.space.lt_of_user hw.1
    rw [show npg ((oneByte s pi).procs 0).sz =
      1 by rw [show ((oneByte s pi).procs 0).sz = 4096 from hf.runs.2.1]; decide] at hlt
    unfold PGSIZE at hlt
    omega
  · intro hx
    have h0 : x / PGSIZE = 0 := Nat.div_eq_of_lt hx
    have hpage := congrFun himage 0
    rw [image_of_lt Nat.one_pos, firstImage, if_pos Nat.one_pos, Option.some.injEq] at hpage
    have hperm : perm _ = _ := congrArg UPage.perm hpage
    simp only [perm, Perm.mk.injEq, Bool.or_eq_true] at hperm
    rw [h0]
    refine ⟨⟨hperm.2.2.2, hperm.2.1⟩, ?_⟩
    exact (Finset.card_filter_le _ _).trans
      (by rw [Finset.card_singleton]; exact List.length_pos_of_ne_nil hL)

omit [Layout] h in
theorem oneByte_available : available (oneByte s pi).mach.mem pi = 1 := by
  obtain ⟨hnr, hnw⟩ := oneByte_ring hf
  rw [available, hnr, hnw]
  rfl

/-- A read of the byte takes it out of the pipe, whether it can be copied or not. -/
theorem oneByte_read (hL : L ≠ []) (hx : x < 2 ^ 64) :
    ∃ t, piperead 0 pi x 1 (oneByte s pi) = .ok (some (if x < 4096 then 1 else 0), t) ∧
      Advanced (oneByte s pi).mach.mem t.mach.mem pi 1 := by
  have hu := (oneByte_sys h hf).1.focus (i := 0) (live_of_runs hf.runs.1)
  have hout : 0 < (oneByte s pi).rest 0 pi := by
    have := pages_pos hf.mem
    unfold KState.rest
    simp only [Pi.add_apply]
    exact Nat.add_pos_right _ this
  obtain ⟨hnr, hnw⟩ := oneByte_ring hf
  have hw : wp (piperead 0 pi x 1) (fun r t => r = some (if x < 4096 then 1 else 0) ∧
      Advanced (oneByte s pi).mach.mem t.mach.mem pi 1) (fun _ => False) (oneByte s pi) := by
    have hne : ¬ (oneByte s pi).mach.mem.le (pi + PI_NREAD) 4 = (oneByte s pi).mach.mem.le
        (pi + PI_NWRITE) 4 := by
      change ¬ nread _ pi = nwrite _ pi
      rw [hnr, hnw]
      decide
    simp only [piperead, ldint, wp_bind, wp_getProc, wp_vm, wp_get, wp_pure]
    rw [if_neg (fun hc => hne hc.1), wp_bind, wp_vm]
    refine wp_post (pipereadFrom_spec (i := 0) hu hout rfl) ?_
    rintro r t ⟨k, j, rfl, hadv, hcase⟩
    rw [show min ((1 : ℤ).toNat - 0) (available (oneByte s pi).mach.mem pi) =
      1 by rw [oneByte_available hf]; rfl, Nat.add_zero, Nat.mod_eq_of_lt hx] at hcase
    rw [wp_pure]
    rcases hcase with ⟨hfits, rfl, rfl⟩ | ⟨hfits, hk, rfl⟩
    · rw [if_pos ((oneByte_fits h hf hL).mp hfits)]
      exact ⟨rfl, hadv⟩
    · obtain rfl : k = 0 := by omega
      rw [if_neg (fun hlt => hfits ((oneByte_fits h hf hL).mpr hlt))]
      exact ⟨rfl, hadv⟩
  obtain ⟨_, t, hok, rfl, hadv⟩ := wp_returns hw
  exact ⟨t, hok, hadv⟩

end oneByte

end samples

/-- The first process, of 4096 bytes, makes a pipe, writes one byte to it and reads it to address 0
or 4096. -/
theorem piperead_kept_iff_one : letI := sampleLayout
    ∃ s L pi, Reaches (fun _ => 0) 0 [.pipe true true] s ∧ Sys (oneByte s pi) L ∧
      available (oneByte s pi).mach.mem pi = 1 ∧
        (∃ t, piperead 0 pi 0 1 (oneByte s pi) = .ok (some 1, t) ∧
          Copyable (oneByte s pi).mach L (s.procs 0).pagetable 0 1 ∧
            Kept (oneByte s pi).mach.mem t.mach.mem pi 1) ∧
      ∃ t, piperead 0 pi 4096 1 (oneByte s pi) = .ok (some 0, t) ∧
        ¬ Copyable (oneByte s pi).mach L (s.procs 0).pagetable 4096 1 ∧
          ¬ Kept (oneByte s pi).mach.mem t.mach.mem pi 0 := by
  let := sampleLayout
  have hram := sampleLayout_ramPages
  obtain ⟨s, L, pi, hreach, h, hL, hf⟩ := first_pipe (fun _ => 0) (by omega)
  have hsys := (oneByte_sys h hf).1
  have hlive := live_of_runs hf.runs.1
  have hav := oneByte_available hf
  have hread : ∀ addr < 2 ^ 64, ∃ t, piperead 0 pi addr 1 (oneByte s pi) =
      .ok (some (if addr < 4096 then 1 else 0), t) ∧
        (Kept (oneByte s pi).mach.mem t.mach.mem pi (if addr < 4096 then 1 else 0) ↔
          Copyable (oneByte s pi).mach L (s.procs 0).pagetable addr 1) := by
    intro addr haddr
    obtain ⟨r, t, hok, hkept⟩ := piperead_kept_iff (N := 1) hsys hlive hf.mem haddr
    obtain ⟨t', hok', -⟩ := oneByte_read h hf hL haddr
    rw [hok', Except.ok.injEq, Prod.mk.injEq] at hok
    obtain ⟨rfl, rfl⟩ := hok
    rw [hav] at hkept
    obtain ⟨hr, -⟩ | ⟨v, hv, hiff⟩ := hkept
    · exact absurd hr (by simp)
    · rw [← Option.some.inj hv] at hiff
      exact ⟨t', hok', hiff⟩
  have hfits := fun addr => (copyable_iff (hsys.focus (i := 0) hlive)).trans (oneByte_fits
    (x := addr) h hf hL)
  obtain ⟨t, hok, hiff⟩ := hread 0 (by norm_num)
  obtain ⟨t', hok', hiff'⟩ := hread 4096 (by norm_num)
  have hyes := (hfits 0).mpr (by norm_num)
  have hno : ¬ Copyable (oneByte s pi).mach L (s.procs 0).pagetable 4096 1 :=
    fun hc => absurd ((hfits 4096).mp hc) (by norm_num)
  exact ⟨s, L, pi, hreach, hsys, hav, ⟨t, hok, hyes, hiff.mpr hyes⟩, t', hok', hno,
    fun hk => hno (hiff'.mp hk)⟩

/-- That byte is read to address 4096: `piperead` returns 0, and the pipe is empty. -/
theorem piperead_loses_byte : letI := sampleLayout
    ∃ s t pi, Reaches (fun _ => 0) 0 [.pipe true true] s ∧ pi ∈ s.pipes ∧ (s.procs 0).sz = 4096 ∧
      pipewrite 0 pi 0 1 s = .ok (.inr 1, oneByte s pi) ∧ available (oneByte s pi).mach.mem pi = 1 ∧
      piperead 0 pi 4096 1 (oneByte s pi) = .ok (some 0, t) ∧ available t.mach.mem pi = 0 ∧
      ¬ Kept (oneByte s pi).mach.mem t.mach.mem pi 0 := by
  let := sampleLayout
  have hram := sampleLayout_ramPages
  obtain ⟨s, L, pi, hreach, hsys, hL, hf⟩ := first_pipe (fun _ => 0) (by omega)
  obtain ⟨t, hread, hadv⟩ := oneByte_read (x := 4096) hsys hf hL (by norm_num)
  obtain ⟨hnr, hnw⟩ := oneByte_ring hf
  have hav := oneByte_available hf
  have hnext := hadv.available (by rw [hnr, hnw]; decide)
  refine ⟨s, t, pi, hreach, hf.mem, hf.runs.2.1, hf.write hsys, hav, hread, by omega, fun hk => ?_⟩
  have h1 := hadv.nread
  rw [hk.nread, hnr] at h1
  exact absurd h1 (by decide)

end Xv6Cow.Kernel

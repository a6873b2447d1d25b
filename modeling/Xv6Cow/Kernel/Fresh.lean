import Xv6Cow.Kernel.Failure

/-! # New user memory

The repository is built with `LAB_SYSCALL`, which leaves out the `memset` of `kalloc`, of `kfree`
and of `uvmalloc`: a new page holds what it held on the free list.  This module says exactly which
bytes of a process that is: those that are new and have not been written.  `NewByte` defines them by
the reference system, as the bytes that are what the new pages held whatever that was.

The first part shows that in the reference every byte of a new image is of this kind or does not
depend on the new pages at all (`Fills`), function by function along `exec`. -/

namespace Xv6Cow.Kernel

open Vm Finset
open Function (update update_self update_of_ne)

section families
variable {I : (ℕ → Bytes) → Image}

/-- The image is determined but for the new pages: each page is there or not, with its rights, and
each of its bytes is that of the new page or fixed. -/
def Fills (I : (ℕ → Bytes) → Image) : Prop :=
  ∀ v, (∀ fresh, I fresh v = none) ∨ ∃ p : Perm, ∃ B : (ℕ → Bytes) → Bytes,
    (∀ fresh, I fresh v = some ⟨p, B fresh⟩) ∧ ∀ off, (∀ fresh, B fresh off = fresh v off) ∨
    ∃ c, ∀ fresh, B fresh off = c

/-- A result with an image, determined but for the new pages. -/
def Uniform {α : Type} (R : (ℕ → Bytes) → α × Image) : Prop :=
  ∃ a I, (∀ fresh, R fresh = (a, I fresh)) ∧ Fills I

/-- The same for a result that may be missing. -/
def UniformOption {α : Type} (R : (ℕ → Bytes) → Option (α × Image)) : Prop :=
  (∀ fresh, R fresh = none) ∨ ∃ a I, (∀ fresh, R fresh = some (a, I fresh)) ∧ Fills I

theorem Fills.const (g : Image) : Fills (fun _ => g) := by
  intro v
  cases hg : g v with
  | none => exact Or.inl (fun _ => hg)
  | some pg =>
      exact Or.inr ⟨pg.perm, fun _ => pg.bytes, fun _ => hg,
        fun off => Or.inr ⟨pg.bytes off, fun _ => rfl⟩⟩

section
variable (h : Fills I)
include h

theorem Fills.put (v off : ℕ) (bs : List UInt8) : Fills (fun fresh => (I fresh).put v off bs) := by
  intro w
  unfold Image.put
  rcases eq_or_ne w v with rfl | hw
  · simp only [update_self]
    cases h w with
    | inl hnone =>
        left
        intro fresh
        rw [hnone fresh, Option.map_none]
    | inr hpage =>
        obtain ⟨p, B, hB, hbytes⟩ := hpage
        refine Or.inr ⟨p, fun fresh => (B fresh).write off bs,
          fun fresh => by rw [hB fresh, Option.map_some], fun o => ?_⟩
        rcases Decidable.em (off ≤ o ∧ o < off + bs.length) with ho | ho
        · exact Or.inr ⟨bs.getD (o - off) 0, fun fresh => Bytes.write_of_mem ho.1 ho.2⟩
        · have hkeep : ∀ fresh, (B fresh).write off bs o = B fresh o :=
            fun fresh => Bytes.write_of_not_mem (by omega)
          simp only [hkeep]
          exact hbytes o
  · simp only [update_of_ne hw]
    exact h w

theorem Fills.addPages (k n : ℕ) (p : Perm) :
    Fills (fun fresh => Kernel.addPages fresh (I fresh) k n p) := by
  intro v
  unfold Kernel.addPages
  rcases Decidable.em (k ≤ v ∧ v < k + n) with hv | hv
  · simp only [if_pos hv]
    exact Or.inr ⟨p, fun fresh => fresh v, fun _ => rfl, fun off => Or.inl (fun _ => rfl)⟩
  · simp only [if_neg hv]
    exact h v

theorem Fills.guardPage (v : ℕ) : Fills (fun fresh => Kernel.guardPage (I fresh) v) := by
  intro w
  unfold Kernel.guardPage
  rcases eq_or_ne w v with rfl | hw
  · simp only [update_self]
    cases h w with
    | inl hnone =>
        left
        intro fresh
        rw [hnone fresh, Option.map_none]
    | inr hpage =>
        obtain ⟨p, B, hB, hbytes⟩ := hpage
        exact Or.inr ⟨{ p with u := false }, B, fun fresh => by rw [hB fresh, Option.map_some], hbytes⟩
  · simp only [update_of_ne hw]
    exact h w

theorem Fills.writable (va : ℕ) : ∃ b, ∀ fresh, (I fresh).writable va = b := by
  unfold Image.writable
  cases h (va / PGSIZE) with
  | inl hnone => exact ⟨false, fun fresh => by rw [hnone fresh]⟩
  | inr hpage =>
      obtain ⟨p, B, hB, -⟩ := hpage
      exact ⟨p.u && p.w, fun fresh => by rw [hB fresh]⟩

theorem Fills.copyoutFrom (fuel dstva : ℕ) (src : List UInt8) :
    Uniform (fun fresh => (I fresh).copyoutFrom fuel dstva src) := by
  induction fuel generalizing I dstva src with
  | zero => cases src <;> exact ⟨_, I, fun _ => rfl, h⟩
  | succ fuel ih =>
      cases src with
      | nil => exact ⟨_, I, fun _ => rfl, h⟩
      | cons b src =>
          obtain ⟨w, hw⟩ := h.writable (pgrounddown dstva)
          simp only [Image.copyoutFrom, hw]
          cases w with
          | false => exact ⟨_, I, fun _ => rfl, h⟩
          | true => exact ih (h.put _ _ _) _ _

theorem Fills.copyout (dstva : ℕ) (src : List UInt8) :
    Uniform (fun fresh => (I fresh).copyout dstva src) := h.copyoutFrom _ _ _

theorem Fills.rLoadseg (va : ℕ) (file : List UInt8) (offset sz k i : ℕ) :
    Uniform (fun fresh => Kernel.rLoadseg va file offset sz k i (I fresh)) := by
  induction k generalizing I i with
  | zero => exact ⟨_, I, fun _ => rfl, h⟩
  | succ k ih =>
      simp only [Kernel.rLoadseg]
      split_ifs
      · exact ⟨_, _, fun _ => rfl, h.put _ _ _⟩
      · exact ih (h.put _ _ _) _

theorem Fills.rUvmalloc (oldsz newsz : ℕ) (x : Pte) :
    Uniform (fun fresh => Kernel.rUvmalloc fresh (I fresh) oldsz newsz x) := by
  unfold Kernel.rUvmalloc
  split_ifs
  · exact ⟨_, I, fun _ => rfl, h⟩
  · exact ⟨_, _, fun _ => rfl, h.addPages _ _ _⟩

end

/-- A part of `exec` that yields an outcome, a size and an image. -/
def UniformOutcome (R : (ℕ → Bytes) → Bool × ℕ × Image) : Prop :=
  ∃ ok sz I, (∀ fresh, R fresh = (ok, sz, I fresh)) ∧ Fills I

theorem Fills.rExecSeg (h : Fills I) (file ph : List UInt8) (sz : ℕ) :
    UniformOutcome (fun fresh => Kernel.rExecSeg fresh file ph sz (I fresh)) := by
  obtain ⟨sz1, I1, h1, hI1⟩ := h.rUvmalloc sz ((field ph 16 8 + field ph 40 8) % 2 ^ 64)
    (flags2perm (field ph 4 4))
  obtain ⟨r, I2, h2, hI2⟩ := hI1.rLoadseg (field ph 16 8) file (field ph 8 8 % 2 ^ 32)
    (field ph 32 8 % 2 ^ 32) ((field ph 32 8 % 2 ^ 32 + (PGSIZE - 1)) / PGSIZE) 0
  simp only [Kernel.rExecSeg, h1, h2]
  split_ifs
  · exact ⟨_, _, I, fun _ => rfl, h⟩
  · exact ⟨_, _, I1, fun _ => rfl, hI1⟩
  · exact ⟨_, _, I2, fun _ => rfl, hI2⟩

theorem Fills.rExecSegs (h : Fills I) (file : List UInt8) (n off sz : ℕ) :
    UniformOutcome (fun fresh => Kernel.rExecSegs fresh file n off sz (I fresh)) := by
  induction n generalizing I off sz with
  | zero => exact ⟨_, _, I, fun _ => rfl, h⟩
  | succ n ih =>
      obtain ⟨ok, sz1, I1, h1, hI1⟩ := h.rExecSeg file (readi file off PROGHDR_SIZE) sz
      simp only [Kernel.rExecSegs, h1]
      split_ifs
      · exact ⟨_, _, I, fun _ => rfl, h⟩
      · exact ih h _ _
      · exact ih hI1 _ _
      · exact ⟨_, _, I1, fun _ => rfl, hI1⟩

theorem Fills.rExecArgs (h : Fills I) (stackbase : ℕ) (args : List (List UInt8)) (sp : ℕ)
    (ustack : List ℕ) : (∀ fresh, Kernel.rExecArgs stackbase args sp ustack (I fresh) = none) ∨
      ∃ sp' ustack' I', (∀ fresh, Kernel.rExecArgs stackbase args sp ustack (I fresh) =
        some (sp', ustack', I' fresh)) ∧ Fills I' := by
  induction args generalizing I sp ustack with
  | nil => exact Or.inr ⟨_, _, I, fun _ => rfl, h⟩
  | cons str args ih =>
      obtain ⟨r, I1, h1, hI1⟩ := h.copyout (push sp (str.length + 1)) (str ++ [0])
      simp only [Kernel.rExecArgs, h1]
      split_ifs
      · exact Or.inl (fun _ => rfl)
      · exact Or.inl (fun _ => rfl)
      · exact Or.inl (fun _ => rfl)
      · exact ih hI1 _ _

theorem Fills.rExecStack (h : Fills I) (sz : ℕ) (args : List (List UInt8)) :
    UniformOption (fun fresh => Kernel.rExecStack sz args (I fresh)) := by
  simp only [Kernel.rExecStack]
  cases h.rExecArgs (sz - USERSTACK * PGSIZE) args sz [] with
  | inl hnone =>
      left
      intro fresh
      simp [hnone fresh]
  | inr hsome =>
      obtain ⟨sp, ustack, I1, h1, hI1⟩ := hsome
      obtain ⟨r, I2, h2, hI2⟩ := hI1.copyout (push sp ((ustack.length + 1) * 8))
        (wordBytes (ustack ++ [0]))
      simp only [h1, h2]
      split_ifs
      · exact Or.inl (fun _ => rfl)
      · exact Or.inl (fun _ => rfl)
      · exact Or.inr ⟨_, I2, fun _ => rfl, hI2⟩

theorem rExecImage_uniform (file : List UInt8) (args : List (List UInt8)) :
    UniformOption (fun fresh => (rExecImage fresh file args).map Prod.snd) := by
  obtain ⟨ok, sz, I, h1, hI⟩ := (Fills.const (fun _ => none)).rExecSegs file
    (field (readi file 0 ELFHDR_SIZE) 56 2) (field (readi file 0 ELFHDR_SIZE) 32 8 % 2 ^ 32) 0
  obtain ⟨sz1, I1, h2, hI1⟩ := hI.rUvmalloc (pgroundup sz) (pgroundup sz + (USERSTACK + 1) * PGSIZE)
    PTE_W
  simp only [rExecImage, h1]
  cases ok with
  | false => exact Or.inl (fun _ => rfl)
  | true =>
      simp only [h2]
      split_ifs
      · exact Or.inl (fun _ => rfl)
      · cases (hI1.guardPage (sz1 / PGSIZE - (USERSTACK + 1))).rExecStack sz1 args with
        | inl hnone =>
            left
            intro fresh
            simp [hnone fresh]
        | inr hsome =>
            obtain ⟨argc, I2, h3, hI2⟩ := hsome
            refine Or.inr ⟨sz1, I2, fun fresh => ?_, hI2⟩
            simp [h3 fresh]

theorem rSysExec_uniform (p : RProc) (upath uargv : ℕ) (namei : List UInt8 → Option (List UInt8)) :
    UniformOption (fun fresh => rSysExec fresh p upath uargv namei) := by
  simp only [rSysExec]
  split_ifs
  · exact Or.inl (fun _ => rfl)
  · cases rFetchArgs p uargv MAXARG [] with
    | none => exact Or.inl (fun _ => rfl)
    | some args =>
        cases hfile : namei (p.image.copyinstr upath MAXPATH).2.dropLast with
        | none => exact Or.inl (fun _ => rfl)
        | some file =>
            simp only [rExec]
            split_ifs
            · exact Or.inl (fun _ => rfl)
            · exact Or.inl (fun _ => rfl)
            · exact rExecImage_uniform file args

/-- A step of the reference does not look at the new pages, or it puts them into the image of one
process. -/
theorem step_uniform (r : RState) (op : Op) : (∀ fresh fresh', r.step fresh op = r.step fresh' op) ∨
    ∃ (p : RProc) (I : (ℕ → Bytes) → Image), (∀ fresh, r.step fresh op =
      some { r with procs := update r.procs op.slot { p with image := I fresh } }) ∧
      Fills I := by
  cases op with
  | growproc i n =>
      simp only [RState.step, RState.byProc]
      split_ifs
      · rcases lt_or_ge 0 n with hn | hn
        · right
          refine ⟨{ r.procs i with sz := (r.procs i).sz + n.toNat }, _, fun fresh => ?_,
            (Fills.const (r.procs i).image).addPages (npg (r.procs i).sz)
              (npg ((r.procs i).sz + n.toNat) - npg (r.procs i).sz) (permOf PTE_W)⟩
          simp only [RState.growproc, RState.modifyProc, gt_iff_lt, if_pos hn]
          rfl
        · left
          intro fresh fresh'
          simp [RState.growproc, if_neg (not_lt.mpr hn)]
      · exact Or.inl (fun _ _ => rfl)
  | exec i upath uargv namei =>
      simp only [RState.step, RState.byProc]
      split_ifs
      · cases rSysExec_uniform (r.procs i) upath uargv namei with
        | inl hnone =>
            left
            intro fresh fresh'
            simp [hnone]
        | inr hsome =>
            obtain ⟨sz, I, h, hI⟩ := hsome
            refine Or.inr ⟨{ r.procs i with sz := sz }, I, fun fresh => ?_, hI⟩
            simp only [h]
            rfl
      · exact Or.inl (fun _ _ => rfl)
  | _ => exact Or.inl (fun _ _ => rfl)

/-- The byte at offset `off` of virtual page `v` is new after `op` and has not been written: it is
what the new page held, whatever that was. -/
def NewByte (r : RState) (op : Op) (v off : ℕ) : Prop :=
  ∀ fresh, ∃ r' pg, r.step fresh op = some r' ∧ (r'.procs op.slot).image v = some pg ∧
    pg.bytes off = fresh v off

/-- The outcome of a step is the same for other new pages exactly if they agree on the unwritten
bytes. -/
theorem step_eq_iff {r r' : RState} {op : Op} {fresh fresh' : ℕ → Bytes}
    (h : r.step fresh op = some r') : r.step fresh' op = some r' ↔ ∀ v off, NewByte r op v off →
      fresh' v off = fresh v off := by
  constructor
  · intro h' v off hu
    obtain ⟨r₁, pg, h1, h2, h3⟩ := hu fresh
    obtain ⟨r₂, pg', h4, h5, h6⟩ := hu fresh'
    rw [h, Option.some.injEq] at h1
    rw [h', Option.some.injEq] at h4
    subst h1 h4
    rw [h2, Option.some.injEq] at h5
    rw [← h3, ← h6, h5]
  · intro hagree
    cases step_uniform r op with
    | inl hsame => rw [← h, hsame fresh' fresh]
    | inr hfill =>
        obtain ⟨p, I, hstep, hI⟩ := hfill
        have himage : I fresh' = I fresh := by
          funext v
          cases hI v with
          | inl hnone => rw [hnone, hnone]
          | inr hpage =>
              obtain ⟨q, B, hB, hbytes⟩ := hpage
              have hbytes' : B fresh' = B fresh := by
                funext off
                cases hbytes off with
                | inl hnew =>
                    rw [hnew, hnew]
                    refine hagree v off (fun fr => ⟨_, ⟨q, B fr⟩, hstep fr, ?_, hnew fr⟩)
                    dsimp only
                    rw [update_self]
                    exact hB fr
                | inr hfixed =>
                    obtain ⟨c, hc⟩ := hfixed
                    rw [hc, hc]
              rw [hB, hB, hbytes']
        rw [← h, hstep, hstep, himage]

end families

section fresh
variable [Layout] {mem mem' : Bytes} {n n' : ℕ} {ops ops' : List Op} {s s' s₀ t t' : KState}
    {L : List ℕ} {op : Op}

/-- A step of the reference in which new pages are zero. -/
def zeroStep (r : RState) (op : Op) : Option RState := r.step (fun _ _ => 0) op

/-- The new memory that `op` leaves unwritten was zero before. -/
def WasZero (s t : KState) (op : Op) : Prop := ∀ v off, NewByte s.abs op v off →
    s.fresh t op.slot v off = 0

theorem step_wasZero_iff (h : Sys s L) (hs : step s op = some t) (hfull : 0 ∉ t.mach.allocs) :
    zeroStep s.abs op = some t.abs ↔ WasZero s t op := by
  rw [zeroStep, step_eq_iff ((step_next h hs).abs hfull)]
  exact forall₃_congr (fun v off _ => eq_comm)

/-- A run in which all new memory was zero is a run of the reference in which new pages are zero. -/
theorem exec_zeroStep (h : Sys s₀ L) (hrun : Runs.exec step s₀ ops = some s) (hfull : 0 ∉ s.mach.allocs)
    (hzero : ∀ ops₁ op ops₂ s₁ t₁, ops = ops₁ ++ op :: ops₂ → Runs.exec step s₀ ops₁ = some s₁ →
      step s₁ op = some t₁ → WasZero s₁ t₁ op) : Runs.exec zeroStep s₀.abs ops = some s.abs := by
  induction ops generalizing s₀ L with
  | nil =>
      rw [Runs.exec_nil, Option.some.injEq] at hrun
      rw [Runs.exec_nil, hrun]
  | cons op ops ih =>
      obtain ⟨t, hs, hrest⟩ := Runs.exec_cons.mp hrun
      obtain ⟨L', hsys⟩ := (step_next h hs).sys
      have hnot : 0 ∉ t.mach.allocs := fun h0 => hfull ((exec_hist hsys hrest).subset h0)
      refine Runs.exec_cons.mpr ⟨t.abs,
        (step_wasZero_iff h hs hnot).mpr (hzero [] op ops s₀ t rfl rfl hs), ?_⟩
      refine ih hsys hrest (fun ops₁ op' ops₂ s₁ t₁ heq h1 h2 => ?_)
      exact hzero (op :: ops₁) op' ops₂ s₁ t₁ (by rw [heq, List.cons_append])
        (Runs.exec_cons.mpr ⟨t, hs, h1⟩) h2

/-- **New user memory shows what its pages held.**  In a run in which `kalloc` does not fail: if all
new memory was zero when it was mapped, every process reads what it reads where new pages are zero;
a step agrees with the one that zeroes new pages exactly if the new memory that it leaves unwritten
was zero; and after the same operation from two states that the processes cannot tell apart they
still cannot tell them apart exactly if the new unwritten memory held the same bytes. -/
theorem new_memory_iff (hn : n + 7 ≤ ramPages) (hboot : boot n (powerOn mem) = .ok ((), s₀))
    (hrun : Runs.exec step s₀ ops = some s) (hfull : 0 ∉ s.mach.allocs) :
    ((∀ ops₁ op ops₂ s₁ t₁, ops = ops₁ ++ op :: ops₂ → Runs.exec step s₀ ops₁ = some s₁ →
      step s₁ op = some t₁ → WasZero s₁ t₁ op) → Runs.exec zeroStep s₀.abs ops = some s.abs) ∧
    ∀ op t, step s op = some t → 0 ∉ t.mach.allocs → (zeroStep s.abs op = some t.abs ↔ WasZero s t op) ∧
      ∀ mem' n' ops' s' t', n' + 7 ≤ ramPages → Reaches mem' n' ops' s' → s'.abs = s.abs →
        step s' op = some t' → 0 ∉ t'.mach.allocs →
        (t'.abs = t.abs ↔ ∀ v off, NewByte s.abs op v off → s'.fresh t' op.slot v off =
          s.fresh t op.slot v off) := by
  obtain ⟨L₀, hb⟩ := booted hn hboot
  obtain ⟨L, hsys⟩ := Reaches.sys hn ⟨s₀, hboot, hrun⟩
  refine ⟨exec_zeroStep hb.sys hrun hfull, fun op t hs hnot => ⟨step_wasZero_iff hsys hs hnot, ?_⟩⟩
  intro mem' n' ops' s' t' hn' hreach habs hs' hnot'
  obtain ⟨L', hsys'⟩ := hreach.sys hn'
  have hstep' := (step_next hsys' hs').abs hnot'
  rw [habs] at hstep'
  rw [← step_eq_iff ((step_next hsys hs).abs hnot), hstep', Option.some.injEq]

/-! ### New memory that is not zero -/

/-- A process that takes the first of two free pages finds the address of the second in it. -/
theorem growproc_reads_link {i p q : ℕ} (h : Sys s (p :: q :: L)) (hi : i < NPROC)
    (hrun : (s.procs i).state = .runnable) (hsz : (s.procs i).sz = PGSIZE) (hlen : 1 ≤ L.length) :
    ∃ t va b, step s (.growproc i 4096) = some t ∧ NewByte s.abs (.growproc i 4096) (va / PGSIZE)
      (va % PGSIZE) ∧ loadByte (t.procs i).pagetable va t.mach = .ok (some b, t.mach) ∧ b ≠ 0 := by
  have hone : npg PGSIZE = 1 := by decide
  have htwo : npg (PGSIZE + (4096 : ℤ).toNat) = 2 := by decide
  obtain ⟨t, hs, L', hsys, hps, hg, -⟩ := growproc_step (k := 4096) (by decide) h hi hrun (by
    rw [hsz, hone, htwo]
    simp only [List.length_cons]
    omega)
  rw [hsz, hone, htwo] at hg
  rw [hsz] at hps
  have hpage : Page p := h.own.acct.page_of_free p List.mem_cons_self
  have hhead : p = pte2pa (pmap t.mach.mem (s.procs i).pagetable 1) := by
    have := hg.first one_pos
    rwa [List.head?_cons, Option.some.injEq] at this
  obtain ⟨hentry, -, hsame⟩ := hg.new 1 le_rfl (by omega)
  rw [← hhead] at hentry hsame
  -- the link of the free list is in the first eight bytes
  have hlink : s.mach.mem.le p 8 = q := h.own.chain.2.1
  have hq : q ≠ 0 := (h.own.acct.page_of_free q (by simp)).ne_zero
  obtain ⟨off, hoff, hb⟩ : ∃ off < 8, s.mach.mem (p + off) ≠ 0 := by
    by_contra hzero
    push Not at hzero
    refine hq (hlink.symm.trans (Bytes.le_eq_zero (fun x h1 h2 => ?_)))
    obtain ⟨off, rfl⟩ := Nat.exists_eq_add_of_le h1
    exact hzero off (by omega)
  have hva : (PGSIZE + off) / PGSIZE = 1 ∧ (PGSIZE + off) % PGSIZE = off := by
    unfold PGSIZE
    omega
  have hpi : t.procs i = { s.procs i with sz := PGSIZE + (4096 : ℤ).toNat } := by
    rw [hps, update_self]
  refine ⟨t, PGSIZE + off, s.mach.mem (p + off), hs, fun fresh => ?_, ?_, hb⟩
  · rw [hva.1, hva.2]
    refine ⟨RState.growproc fresh s.abs i 4096, ⟨permOf PTE_W, fresh 1⟩, ?_, ?_, rfl⟩
    · rw [RState.step, RState.byProc_of_runs (r := s.abs) hi hrun]
    · have hsz' : (s.abs.procs i).sz = PGSIZE := hsz
      simp only [RState.growproc, RState.modifyProc, Op.slot, update_self, hsz', hone, htwo]
      rfl
  · have hload := hsys.loadByte (i := i) (by rw [hpi]; exact live_of_runs hrun) (PGSIZE + off)
    have hperm : perm (pmap t.mach.mem (s.procs i).pagetable 1) = permOf PTE_W := by
      rw [hentry]
      exact perm_new ⟨by decide, by decide⟩ p
    have hin : off < PGSIZE := by
      unfold PGSIZE
      omega
    rw [hload, abs_image, hpi]
    dsimp only
    rw [htwo, Image.load, hva.1, hva.2, image_of_lt one_lt_two, hperm, ← hhead]
    simp only [permOf, Bool.and_self, if_true, pageBytes_of_lt hin]
    rw [hsame (p + off) (by omega) (by omega)]

end fresh

/-- The first process grows by a page. -/
theorem new_memory_iff_growproc : letI := sampleLayout
    ∃ s t, boot 0 (powerOn (fun _ => 0)) = .ok ((), s) ∧ step s (.growproc 0 4096) = some t ∧
      0 ∉ t.mach.allocs ∧ ((∀ ops₁ op ops₂ s₁ t₁, [.growproc 0 4096] = ops₁ ++ op :: ops₂ →
        Runs.exec step s ops₁ = some s₁ → step s₁ op = some t₁ → WasZero s₁ t₁ op) →
          Runs.exec zeroStep s.abs [.growproc 0 4096] = some t.abs) ∧
      (zeroStep s.abs (.growproc 0 4096) = some t.abs ↔ WasZero s t (.growproc 0 4096)) := by
  let := sampleLayout
  have hram := sampleLayout_ramPages
  obtain ⟨_, s, hboot, L, hb, hlen, -⟩ := wp_returns (boot_spec (fun _ => 0) (n := 0) (by omega))
  have hpages : npg (PGSIZE + (4096 : ℤ).toNat) - npg PGSIZE = 1 := by decide
  obtain ⟨t, hs, _, -, -, -, -, h0⟩ :=
    growproc_step (i := 0) (k := 4096) (by decide) hb.sys (by decide) hb.init.1
      (by rw [hb.init.2, hpages]; omega)
  have hfull : 0 ∉ t.mach.allocs := fun h => hb.full (h0 h)
  have hrun : Runs.exec step s [.growproc 0 4096] = some t := Runs.exec_cons.mpr ⟨t, hs, rfl⟩
  have hgrows := new_memory_iff (by omega) hboot hrun hfull
  have hstarts := new_memory_iff (by omega) hboot Runs.exec_nil hb.full
  exact ⟨s, t, hboot, hs, hfull, hgrows.1, (hstarts.2 _ t hs hfull).1⟩

/-- All memory is zero at power-on; the first process grows by a page and reads a byte of it that is
not zero. -/
theorem new_memory_not_zero : letI := sampleLayout
    ∃ s t va b, Reaches (fun _ => 0) 0 [] s ∧ step s (.growproc 0 4096) = some t ∧
      NewByte s.abs (.growproc 0 4096) (va / PGSIZE) (va % PGSIZE) ∧
      loadByte (t.procs 0).pagetable va t.mach = .ok (some b, t.mach) ∧ b ≠ 0 := by
  let := sampleLayout
  have hram := sampleLayout_ramPages
  obtain ⟨_, s, hboot, L, hb, hlen, -⟩ := wp_returns (boot_spec (fun _ => 0) (n := 0) (by omega))
  obtain ⟨p, q, L', rfl⟩ : ∃ p q L', L = p :: q :: L' := by
    match L, hlen with
    | [], hlen => exact absurd hlen (by rw [List.length_nil]; omega)
    | [p], hlen => exact absurd hlen (by rw [List.length_singleton]; omega)
    | p :: q :: L', _ => exact ⟨p, q, L', rfl⟩
  simp only [List.length_cons] at hlen
  obtain ⟨t, va, b, ht⟩ := growproc_reads_link (i := 0) hb.sys (by decide) hb.init.1 hb.init.2 (by omega)
  exact ⟨s, t, va, b, ⟨s, hboot, rfl⟩, ht⟩

end Xv6Cow.Kernel

import Xv6Cow.Kernel.Fork

/-! # `exec` as an operation of the system

`sys_exec` fetches the arguments, `exec` builds the new image beside the old one, and if it gets
that far it puts the new page table in the place of the old one and takes the old one apart.  While
it runs, the pages of the arguments are owners beside everything else; they are freed at the end, on
every path. -/

namespace Xv6Cow.Kernel

open Vm Finset

/-! ### What a new process starts with -/

section entered
variable {new : NewImage} {b b' : Bytes} {tf : ℕ} {file : List UInt8}

/-- The new image of a file with its arguments, `g'`, for the bytes that its pages held. -/
def Filled (file : List UInt8) (args : List (List UInt8)) (new : NewImage) (g' : Image) : Prop :=
  ∃ fresh g, NewSpace fresh file new.sz g ∧ rStack new.sz args g = some (new.sp, new.argc, g')

/-- The registers that `exec` sets. -/
structure Entered (m : Bytes) (tf : ℕ) (file : List UInt8) (new : NewImage) : Prop where
  a1 : m.le (tf + TF_A1) 8 = new.sp
  sp : m.le (tf + TF_SP) 8 = new.sp
  epc : m.le (tf + TF_EPC) 8 = field (readi file 0 ELFHDR_SIZE) 24 8

theorem entered_write (hsp : new.sp < 256 ^ 8) :
    Entered (((b.setLe (tf + TF_A1) 8 new.sp).setLe (tf + TF_EPC) 8
      (field (readi file 0 ELFHDR_SIZE) 24 8)).setLe (tf + TF_SP) 8 new.sp) tf file new := by
  refine ⟨?_, Bytes.le_setLe hsp, ?_⟩
  · rw [Bytes.le_setLe_ne (by unfold TF_A1 TF_SP; omega),
      Bytes.le_setLe_ne (by unfold TF_A1 TF_EPC; omega), Bytes.le_setLe hsp]
  · rw [Bytes.le_setLe_ne (by unfold TF_EPC TF_SP; omega), Bytes.le_setLe (field_lt _ _ _)]

theorem Entered.congr (h : Entered b tf file new) (hs : SameOn b b' tf) :
    Entered b' tf file new := by
  have hle : ∀ off, off + 8 ≤ PGSIZE → b'.le (tf + off) 8 = b.le (tf + off) 8 := fun off hoff =>
    Bytes.le_congr (fun x h1 h2 => hs x (by omega) (by omega))
  exact ⟨(hle _ (by decide)).trans h.a1, (hle _ (by decide)).trans h.sp, (hle _ (by decide)).trans h.epc⟩

end entered

section replace
variable [Layout] {s : KState} {m m' : Mach} {L L' : List ℕ} {i : ℕ} {argv : List ℕ} {f : ℕ → Pte}
    {new : NewImage}

/-- The process in slot `i` is as it was, and the pages of `argv` are held. -/
structure Held (s : KState) (m : Mach) (i : ℕ) (argv : List ℕ) : Prop where
  uvm : ∃ L', Uvm m L' (s.rest i + pages argv) (s.others i) (s.procs i).pagetable
    (s.procs i).trapframe (npg (s.procs i).sz) (pmap s.mach.mem (s.procs i).pagetable)
  image : image m.mem (pmap s.mach.mem (s.procs i).pagetable) (npg (s.procs i).sz) =
    (s.abs.procs i).image
  keeps : Keeps s.mach m (s.rest i + s.others i)
  table : Frame s.mach.mem m.mem (nodes s.mach.mem 2 (s.procs i).pagetable)

theorem Held.of_fetched (hf : Fetched s.mach m L L' (s.rest i) (s.others i) (s.procs i).pagetable
    (s.procs i).trapframe (npg (s.procs i).sz) (pmap s.mach.mem (s.procs i).pagetable) [] argv) :
    Held s m i argv :=
  ⟨⟨L', hf.uvm⟩, hf.image, hf.keeps.mono (fun q hq => by simpa using hq), hf.table⟩

theorem Held.nodes_eq (hh : Held s m i argv) :
    nodes m.mem 2 (s.procs i).pagetable = nodes s.mach.mem 2 (s.procs i).pagetable :=
      nodes_congr hh.table

theorem Held.free (hh : Held s m i argv) :
    wp (freeArgs argv) (fun _ m' => Held s m' i [] ∧ m'.allocs = m.allocs) (fun _ => False) m := by
  obtain ⟨L₁, hu⟩ := hh.uvm
  have hown := hu.tab.own
  rw [add_right_comm] at hown
  refine wp_post (freeArgs_spec hown) ?_
  rintro _ m' ⟨L₂, ho, hf, hal⟩
  obtain ⟨hu', himg⟩ := hu.congr ho (hf.mono (fun q hq => by simp only [Pi.add_apply] at hq ⊢; omega))
  have hk : Keeps s.mach m' (s.rest i + s.others i) :=
    hh.keeps.trans ⟨hf.mono (fun q hq => by simp only [Pi.add_apply] at hq ⊢; omega), by rw [hal]⟩
  refine ⟨⟨⟨L₂, by rwa [pages_nil, add_zero]⟩, himg.trans hh.image, hk,
    hh.table.trans (hf.mono (fun q hq => ?_))⟩, hal⟩
  rw [← hh.nodes_eq] at hq
  simp only [Pi.add_apply]
  omega

theorem Held.wrote (h : Sys s L) (hlive : (s.procs i).state ≠ .unused) (hh : Held s m i []) :
    Wrote s m i (s.abs.procs i).image := by
  obtain ⟨L₁, hu⟩ := hh.uvm
  rw [pages_nil, add_zero] at hu
  exact h.touched hlive ⟨hu, (h.focus hlive).excl⟩ (Touched.of_keeps hh.keeps) (fun _ => hh.image)

/-- The process in slot `i` has the new image, and the pages of `argv` are held. -/
structure Execed (s : KState) (m : Mach) (i : ℕ) (new : NewImage) (f : ℕ → Pte) (argv : List ℕ) :
    Prop where
  uvm : ∃ L', Uvm m L' (s.rest i + pages argv) (s.others i) new.pagetable (s.procs i).trapframe
    (npg new.sz) f
  only : ∀ v < npg new.sz, s.others i (pte2pa (f v)) = 0
  keeps : Keeps s.mach m (s.outside i + s.others i)
  ne : new.pagetable ≠ (s.procs i).pagetable
  nocow : ∀ v < npg new.sz, has (f v) PTE_COW = false

theorem Execed.free (hx : Execed s m i new f argv) :
    wp (freeArgs argv) (fun _ m' => Execed s m' i new f [] ∧ image m'.mem f (npg new.sz) =
      image m.mem f (npg new.sz) ∧ m'.allocs = m.allocs ∧ SameOn m.mem m'.mem (s.procs i).trapframe)
        (fun _ => False) m := by
  obtain ⟨L₁, hu⟩ := hx.uvm
  have hown := hu.tab.own
  rw [add_right_comm] at hown
  refine wp_post (freeArgs_spec hown) ?_
  rintro _ m' ⟨L₂, ho, hf, hal⟩
  obtain ⟨hu', himg⟩ := hu.congr ho (hf.mono (fun q hq => by simp only [Pi.add_apply] at hq ⊢; omega))
  refine ⟨⟨⟨L₂, ?_⟩, hx.only, hx.keeps.trans ⟨hf.mono (fun q hq => ?_), by rw [hal]⟩, hx.ne,
    hx.nocow⟩, himg, hal, hf _ ?_⟩
  · rwa [pages_nil, add_zero]
  · rw [s.rest_eq]
    simp only [Pi.add_apply] at hq ⊢
    omega
  · rw [s.rest_eq]
    simp only [Pi.add_apply, one_self]
    omega

/-- The process with a new image. -/
def Proc.withImage (p : Proc) (new : NewImage) : Proc :=
  { p with pagetable := new.pagetable, sz := new.sz }

theorem Execed.next {upath uargv : ℕ} {namei : List UInt8 → Option (List UInt8)} (h : Sys s L)
    (hi : i < NPROC) (hrun : (s.procs i).state = .runnable) (hx : Execed s m i new f [])
    (hr : 0 ∉ m.allocs → rSysExec (fun v => pageBytes s.mach.mem (pte2pa (f v)))
      (s.abs.procs i) upath uargv namei = some (new.sz, image m.mem f (npg new.sz))) :
    Next s { s with mach := m, procs := Function.update s.procs i ((s.procs i).withImage new) }
      (.exec i upath uargv namei) := by
  have hlive := live_of_runs hrun
  obtain ⟨L₁, hu⟩ := hx.uvm
  rw [pages_nil, add_zero] at hu
  have hmap : pmap m.mem new.pagetable = f := hu.tab.map
  have hshare : ∀ v < npg new.sz, 0 < s.others i (pte2pa (f v)) →
      ∃ w < npg (s.procs i).sz, pte2pa (f v) = pte2pa (pmap s.mach.mem (s.procs i).pagetable w) :=
      fun v hv hpos => by
    rw [hx.only v hv] at hpos
    exact absurd hpos (lt_irrefl 0)
  obtain ⟨hsys, hother⟩ := h.replace (p := (s.procs i).withImage new) hlive hlive rfl
    ⟨hu, fun v hv _ => hx.only v hv⟩ hx.keeps.frame hshare
  refine ⟨⟨L₁, hsys⟩, hx.keeps.hist, Rights.of_slot hlive hother (fun he => absurd he hx.ne)
    (fun _ => ?_), fun h0 => ?_⟩
  · dsimp only [Proc.withImage]
    rw [hmap]
    exact hx.nocow
  rw [RState.step, RState.byProc_of_runs (r := s.abs) hi hrun, abs_update _ hother]
  · have hfresh :
        s.fresh { s with mach := m, procs := Function.update s.procs i ((s.procs i).withImage new) }
          i = fun v => pageBytes s.mach.mem (pte2pa (f v)) := by
      unfold KState.fresh
      dsimp only
      rw [Function.update_self]
      dsimp only [Proc.withImage]
      rw [hmap]
    dsimp only [Op.slot]
    rw [hfresh, hr h0]
  · unfold Proc.abs Proc.withImage
    dsimp only
    rw [hmap]

/-! ### `exec` -/

/-- The file is one that `exec` can load, and there is the memory for everything but the
arguments. -/
def CanLoad (i : ℕ) (file : Option (List UInt8)) (s : KState) : Prop :=
  ∃ content, file = some content ∧ (readi content 0 ELFHDR_SIZE).length = ELFHDR_SIZE ∧
    field (readi content 0 ELFHDR_SIZE) 0 4 = ELF_MAGIC ∧ HasSpace s.mach (s.procs i).trapframe content

/-- What `exec` leaves, with `args` the argument strings, when the pages `held` are owned beside
everything else. -/
inductive ExecResult (s : KState) (m₁ : Mach) (i : ℕ) (file : Option (List UInt8)) (held : List ℕ)
    (args : List (List UInt8)) : ℤ → KState → Prop
  | failed {m : Mach} (hh : Held s m i held) (hist : m₁.allocs <:+ m.allocs)
      (hr : 0 ∉ m.allocs → ∀ fresh, rExec fresh file args = none) :
      ExecResult s m₁ i file held args (-1) { s with mach := m }
  | done {m : Mach} {new : NewImage} {f : ℕ → Pte} {content : List UInt8}
      (hx : Execed s m i new f held) (hist : m₁.allocs <:+ m.allocs)
      (hr : 0 ∉ m.allocs → rExec (fun v => pageBytes s.mach.mem (pte2pa (f v))) file args =
        some (new.argc, new.sz, image m.mem f (npg new.sz)))
      (hfile : file = some content) (hfill : Filled content args new (image m.mem f (npg new.sz)))
      (hregs : Entered m.mem (s.procs i).trapframe content new) :
      ExecResult s m₁ i file held args new.argc
        { s with mach := m, procs := Function.update s.procs i ((s.procs i).withImage new) }

/-- The old and the new address space when `exec` is about to commit. -/
structure Commit (s : KState) (m : Mach) (L : List ℕ) (i : ℕ) (argv : List ℕ) (new : NewImage)
    (f : ℕ → Pte) : Prop where
  before : Uvm m L (s.rest i + pages argv + nodes m.mem 2 new.pagetable)
    (s.others i + span f 0 (npg new.sz)) (s.procs i).pagetable (s.procs i).trapframe
      (npg (s.procs i).sz) (pmap s.mach.mem (s.procs i).pagetable)
  after : Uvm m L (s.rest i + pages argv + nodes m.mem 2 (s.procs i).pagetable)
    (s.others i + span (pmap s.mach.mem (s.procs i).pagetable) 0 (npg (s.procs i).sz))
    new.pagetable (s.procs i).trapframe (npg new.sz) f
  only : ∀ v < npg new.sz, s.others i (pte2pa (f v)) = 0
  keeps : Keeps s.mach m (s.outside i + s.others i)
  nocow : ∀ v < npg new.sz, has (f v) PTE_COW = false

theorem Commit.write {mem : Bytes} (h : Commit s m L i argv new f)
    (hm : ∀ x, x < (s.procs i).trapframe ∨ (s.procs i).trapframe + PGSIZE ≤ x → mem x = m.mem x) :
    Commit s { m with mem := mem } L i argv new f ∧ image mem f (npg new.sz) =
      image m.mem f (npg new.sz) := by
  have hrest : s.rest i + pages argv = s.outside i + pages argv + one (s.procs i).trapframe := by
    rw [s.rest_eq]
    abel
  have h1 := h.before
  have h2 := h.after
  rw [hrest] at h1 h2
  obtain ⟨g1, g2, g3⟩ := Uvm.write_two h1 h2 hm
  refine ⟨⟨?_, ?_, h.only, h.keeps.trans ⟨g3.mono (fun q hq => ?_), List.suffix_refl _⟩, h.nocow⟩, ?_⟩
  · rw [hrest]
    exact g1
  · rw [hrest]
    exact g2
  · simp only [Pi.add_apply] at hq ⊢
    omega
  · refine image_congr (fun v hv => ⟨rfl, pageBytes_same (g3 _ ?_)⟩)
    have := span_pos (f := f) hv
    simp only [Pi.add_apply]
    omega

theorem Commit.free (h : Commit s m L i argv new f) :
    wp (procFreepagetable (s.procs i).pagetable (s.procs i).sz) (fun _ m' => Execed s m' i new f argv ∧
      image m'.mem f (npg new.sz) = image m.mem f (npg new.sz) ∧ m'.allocs = m.allocs ∧
      SameOn m.mem m'.mem (s.procs i).trapframe) (fun _ => False) m := by
  refine wp_post (procFreepagetable_spec _ h.before) ?_
  rintro _ m' ⟨L', ho, hf, hal⟩
  obtain ⟨hu, himg⟩ :=
    h.after.congr ho (hf.mono (fun q hq => by simp only [Pi.add_apply] at hq ⊢; omega))
  refine ⟨⟨⟨L', hu⟩, h.only, h.keeps.trans ⟨hf.mono (fun q hq => ?_), by rw [hal]⟩, fun he => ?_,
    h.nocow⟩, himg, hal, hf _ ?_⟩
  · rw [s.rest_eq]
    simp only [Pi.add_apply] at hq ⊢
    omega
  · -- the roots of the two tables are owned apart
    have hexcl := h.before.tab.own.acct.excl (s.procs i).pagetable
    have h1 := nodes_self (m := m.mem) 2 (s.procs i).pagetable
    rw [he] at hexcl
    simp only [Pi.add_apply] at hexcl
    omega
  · rw [s.rest_eq]
    simp only [Pi.add_apply, one_self]
    omega

/-- `exec`, when the arguments are in pages that are held: given everything else, it fails exactly
if they do not fit. -/
theorem exec_spec {L₁ held : List ℕ} (file : Option (List UInt8))
    (hf : Fetched s.mach m L L₁ (s.rest i) (s.others i) (s.procs i).pagetable (s.procs i).trapframe
      (npg (s.procs i).sz) (pmap s.mach.mem (s.procs i).pagetable) [] held) (hargv : argv ⊆ held) :
    wp (exec i file argv) (fun r t => ExecResult s m i file held (argv.map (strAt m.mem)) r t ∧
      (Passed (argv.map (strAt m.mem)) →
        (r ≠ -1 ↔ CanLoad i file { s with mach := m } ∧ ArgsFit (argv.map (strAt m.mem)))))
          (fun _ => False)
      { s with mach := m } := by
  have hheld := Held.of_fetched hf
  have hsame : ∀ {file'}, (∀ fresh, rExec fresh file' (argv.map (strAt m.mem)) = none) →
      ExecResult s m i file' held (argv.map (strAt m.mem)) (-1) { s with mach := m } :=
    fun hr => .failed hheld (List.suffix_refl _) (fun _ => hr)
  cases file with
  | none =>
      simp only [exec, wp_pure]
      refine ⟨hsame (fun fresh => rfl), fun _ => ?_⟩
      simp [CanLoad]
  | some file =>
      have hcan : CanLoad i (some file) { s with mach := m } ↔ (readi file 0 ELFHDR_SIZE).length =
          ELFHDR_SIZE ∧ field (readi file 0 ELFHDR_SIZE) 0 4 = ELF_MAGIC ∧
          HasSpace m (s.procs i).trapframe file := by
        constructor
        · rintro ⟨_, he, hx⟩
          obtain rfl := Option.some.inj he
          exact hx
        · exact fun hx => ⟨file, rfl, hx⟩
      rw [hcan]
      simp only [exec]
      rw [wp_ite]
      refine ⟨fun hlen => ?_, fun hlen => ?_⟩
      · rw [wp_pure]
        exact ⟨hsame (fun fresh => if_pos hlen), fun _ => by simp [hlen]⟩
      rw [wp_ite]
      refine ⟨fun hmagic => ?_, fun hmagic => ?_⟩
      · rw [wp_pure]
        exact ⟨hsame (fun fresh => (if_neg hlen).trans (if_pos hmagic)), fun _ => by simp [hmagic]⟩
      have hexec : ∀ fresh, rExec fresh (some file) (argv.map (strAt m.mem)) =
          rExecImage fresh file (argv.map (strAt m.mem)) :=
          fun fresh => (if_neg hlen).trans (if_neg hmagic)
      have hiff : ∀ {ok : Prop} {r : ℤ}, (r ≠ -1 ↔ ok) →
          (ok ↔ HasSpace m (s.procs i).trapframe file ∧ ArgsFit (argv.map (strAt m.mem))) →
            (r ≠ -1 ↔ ((readi file 0 ELFHDR_SIZE).length = ELFHDR_SIZE ∧
              field (readi file 0 ELFHDR_SIZE) 0 4 = ELF_MAGIC ∧
              HasSpace m (s.procs i).trapframe file) ∧ ArgsFit (argv.map (strAt m.mem))) :=
              fun h1 h2 => by
        rw [h1, h2]
        simp [not_not.mp hlen, not_not.mp hmagic]
      simp only [wp_bind, wp_getProc, wp_vm]
      refine wp_post (execImage_spec hf.uvm.tab.own (fun p hp => ?_)) ?_
      · have := pages_pos (hargv hp)
        simp only [Pi.add_apply]
        omega
      rintro r m₂ ⟨hk, hready, hfits⟩
      cases r with
      | none =>
          obtain ⟨⟨L₂, ho⟩, hr⟩ := hready
          obtain ⟨hu, himg⟩ :=
            hf.uvm.congr ho (hk.frame.mono (fun q hq => by simp only [Pi.add_apply] at hq ⊢; omega))
          simp only [wp_pure]
          refine ⟨.failed ⟨⟨L₂, hu⟩, himg.trans hheld.image,
            hheld.keeps.trans (hk.mono (fun q hq => ?_)),
            hheld.table.trans (hk.frame.mono (fun q hq => ?_))⟩ hk.hist (fun h0 fresh => ?_),
            fun hp => hiff (by simp) (hfits hp)⟩
          · simp only [Pi.add_apply] at hq ⊢
            omega
          · rw [← hheld.nodes_eq] at hq
            simp only [Pi.add_apply]
            omega
          · obtain ⟨fresh', hnone⟩ := hr h0
            have hsome := rExecImage_isSome fresh fresh' file (argv.map (strAt m.mem))
            rw [hnone, Option.isSome_none, Option.isSome_eq_false_iff,
              Option.isNone_iff_eq_none] at hsome
            rw [hexec, hsome]
      | some new =>
          obtain ⟨L₂, f, init, hb, hinit, hr⟩ := hready
          have hnodes : nodes m₂.mem 2 (s.procs i).pagetable = nodes m.mem 2 (s.procs i).pagetable :=
            nodes_congr (fun q hq => hk.frame q (by simp only [Pi.add_apply]; omega))
          have hown := hb.uvm.tab.own
          rw [add_right_comm _ (nodes m.mem 2 (s.procs i).pagetable),
            add_right_comm _ (span (pmap s.mach.mem (s.procs i).pagetable) 0
              (npg (s.procs i).sz))] at hown
          have hc : Commit s m₂ L₂ i held new f := by
            refine ⟨(hf.uvm.congr hown (hk.frame.mono (fun q hq => ?_))).1, ?_, fun v hv => ?_, ?_,
              hb.nocow⟩
            · simp only [Pi.add_apply] at hq ⊢
              omega
            · rw [hnodes]
              exact hb.uvm
            · have := hb.only v hv
              simp only [Pi.add_apply] at this
              omega
            · refine (hheld.keeps.mono (fun q hq => ?_)).trans (hk.mono (fun q hq => ?_))
              all_goals
                rw [s.rest_eq]
                simp only [Pi.add_apply] at hq ⊢
                omega
          simp only [wp_bind, stword, wp_modify, wp_vm, wp_modifyProc, wp_pure]
          have hm : ∀ x, x < (s.procs i).trapframe ∨ (s.procs i).trapframe + PGSIZE ≤ x →
              (((m₂.mem.setLe ((s.procs i).trapframe + TF_A1) 8 new.sp).setLe
                ((s.procs i).trapframe + TF_EPC) 8 (field (readi file 0 ELFHDR_SIZE) 24 8)).setLe
                ((s.procs i).trapframe + TF_SP) 8 new.sp) x = m₂.mem x :=
            fun x hx => by
              unfold PGSIZE at hx
              rw [Bytes.setLe_of_not_mem (by unfold TF_SP; omega),
                Bytes.setLe_of_not_mem (by unfold TF_EPC; omega),
                Bytes.setLe_of_not_mem (by unfold TF_A1; omega)]
          obtain ⟨hc', himg⟩ := hc.write hm
          refine wp_post hc'.free ?_
          rintro _ m₃ ⟨hx, himg', hal, htf⟩
          obtain ⟨g, hspace, hstack⟩ := hr init (fun _ _ _ => rfl)
          refine ⟨.done hx (by rw [hal]; exact hk.hist) (fun h0 => ?_) rfl ⟨init, g, hspace, ?_⟩
            ((entered_write (rStack_lt hstack)).congr htf), fun hp => hiff (by simp) (hfits hp)⟩
          · rw [hal] at h0
            obtain ⟨g, hspace, hstack⟩ := hr (fun v => pageBytes s.mach.mem (pte2pa (f v)))
                (fun v h1 hv => by
              rw [hinit h0 v h1 hv]
              exact (pageBytes_same (hf.drawn _ (hb.taken h0 v hv)).2).symm)
            rw [hexec, hspace.rExecImage, hstack, himg', himg]
            rfl
          · rw [himg', himg]
            exact hstack

/-! ### `sys_exec` -/

/-- The path that `sys_exec` gets. -/
def KState.pathAt (s : KState) (i upath : ℕ) : List UInt8 :=
  ((s.abs.procs i).image.copyinstr upath MAXPATH).2.dropLast

/-- The pages `argv` were taken for the arguments of the process in slot `i`. -/
def ArgPages (s : KState) (L : List ℕ) (i : ℕ) (argv : List ℕ) : Prop :=
  ∃ m L', Fetched s.mach m L L' (s.rest i) (s.others i) (s.procs i).pagetable (s.procs i).trapframe
    (npg (s.procs i).sz) (pmap s.mach.mem (s.procs i).pagetable) [] argv

/-- What `sys_exec` leaves, when it took the pages `argv` for the arguments. -/
inductive SysExecResult (s : KState) (L : List ℕ) (i upath uargv : ℕ)
    (namei : List UInt8 → Option (List UInt8)) : ℤ → KState → Prop
  | failed {m : Mach} {argv : List ℕ} (hargv : ArgPages s L i argv) (hh : Held s m i [])
      (hr : 0 ∉ m.allocs → ∀ fresh, rSysExec fresh (s.abs.procs i) upath uargv namei = none) :
      SysExecResult s L i upath uargv namei (-1) { s with mach := m }
  | done {m : Mach} {argv : List ℕ} {new : NewImage} {f : ℕ → Pte} {file : List UInt8}
      {args : List (List UInt8)} (hargv : ArgPages s L i argv) (hx : Execed s m i new f [])
      (hr : 0 ∉ m.allocs → rSysExec (fun v => pageBytes s.mach.mem (pte2pa (f v)))
        (s.abs.procs i) upath uargv namei = some (new.sz, image m.mem f (npg new.sz)))
      (hfile : namei (s.pathAt i upath) = some file)
      (hargs : rFetchArgs (s.abs.procs i) uargv MAXARG [] = some args)
      (hfill : Filled file args new (image m.mem f (npg new.sz)))
      (hregs : Entered m.mem (s.procs i).trapframe file new) :
      SysExecResult s L i upath uargv namei new.argc
        { s with mach := m, procs := Function.update s.procs i ((s.procs i).withImage new) }

/-- `sys_exec`: whatever happens, it returns, and the pages of the arguments are freed. -/
theorem sysExec_exact (upath uargv : ℕ) (namei : List UInt8 → Option (List UInt8)) (h : Sys s L)
    (hrun : (s.procs i).state = .runnable) :
    wp (sysExec i upath uargv namei) (SysExecResult s L i upath uargv namei) (fun _ => False) s := by
  have hlive := live_of_runs hrun
  have hfocus := (h.focus hlive).uvm
  have himg : (s.abs.procs i).image = image s.mach.mem (pmap s.mach.mem (s.procs i).pagetable)
    (npg (s.procs i).sz) := rfl
  have hsz : (s.abs.procs i).sz = (s.procs i).sz := rfl
  have hu0 : Uvm s.mach L (s.rest i + pages []) (s.others i) (s.procs i).pagetable (s.procs i).trapframe
      (npg (s.procs i).sz) (pmap s.mach.mem (s.procs i).pagetable) := by rwa [pages_nil, add_zero]
  simp only [sysExec, wp_bind, wp_getProc, wp_vm, wp_copyinstr hfocus]
  rw [← himg]
  have hpath : ∀ fresh, rSysExec fresh (s.abs.procs i) upath uargv namei =
      if ((s.abs.procs i).image.copyinstr upath MAXPATH).1 < 0 then none
      else (rFetchArgs (s.abs.procs i) uargv MAXARG []).bind fun args =>
        (rExec fresh (namei (s.pathAt i upath)) args).map Prod.snd := fun fresh => by
    unfold rSysExec
    cases rFetchArgs (s.abs.procs i) uargv MAXARG [] <;> rfl
  rw [wp_ite]
  refine ⟨fun hneg => ?_, fun hpos => ?_⟩
  · rw [wp_pure]
    exact .failed ⟨s.mach, L, Fetched.refl hu0⟩ (Held.of_fetched (Fetched.refl hu0))
      (fun _ fresh => by rw [hpath, if_pos hneg])
  simp only [wp_bind, wp_vm]
  refine wp_post (fetchArgs_spec hu0 hsz himg) ?_
  rintro ⟨ok, argv⟩ m ⟨⟨L₁, hf, -⟩, hargs, -⟩
  rw [List.map_nil] at hargs
  dsimp only at hf hargs
  have hpages : ArgPages s L i argv := ⟨m, L₁, hf⟩
  have hback : ∀ {m₁ : Mach}, Held s m₁ i argv →
      (0 ∉ m₁.allocs → ∀ fresh, rSysExec fresh (s.abs.procs i) upath uargv namei = none) →
      wp (freeArgs argv) (fun _ m' => SysExecResult s L i upath uargv namei (-1)
        { s with mach := m' }) (fun _ => False) m₁ := by
    intro m₁ hheld hnone
    refine wp_post hheld.free ?_
    rintro _ m' ⟨hh, hal⟩
    exact .failed hpages hh (by rw [hal]; exact hnone)
  cases ok with
  | false =>
      simp only [Bool.false_eq_true, if_false, wp_bind, wp_vm, wp_pure]
      refine hback (Held.of_fetched hf) (fun h0 fresh => ?_)
      rw [hpath, if_neg hpos, hargs (Or.inr h0)]
      rfl
  | true =>
      simp only [if_true, wp_bind]
      refine wp_post (exec_spec (namei (s.pathAt i upath)) hf (List.Subset.refl _)) ?_
      rintro r t ⟨hres, -⟩
      have hr : ∀ fresh, rSysExec fresh (s.abs.procs i) upath uargv namei =
          (rExec fresh (namei (s.pathAt i upath)) (argv.map (strAt m.mem))).map Prod.snd :=
          fun fresh => by
        rw [hpath, if_neg hpos, hargs (Or.inl rfl)]
        rfl
      cases hres with
      | failed hheld hist hnone =>
          simp only [wp_vm, wp_pure]
          refine hback hheld (fun h0 fresh => ?_)
          rw [hr, hnone h0]
          rfl
      | done hx hist hsome hfile hfill hregs =>
          simp only [wp_vm, wp_pure]
          refine wp_post hx.free ?_
          rintro _ m' ⟨hx', himg', hal, htf⟩
          refine .done hpages hx' (fun h0 => ?_) hfile (hargs (Or.inl rfl)) ?_ (hregs.congr htf)
          · rw [hal] at h0
            rw [hr, hsome h0, himg']
            rfl
          · rw [himg']
            exact hfill

theorem sysExec_spec (upath uargv : ℕ) (namei : List UInt8 → Option (List UInt8)) (h : Sys s L)
    (hi : i < NPROC) (hrun : (s.procs i).state = .runnable) :
    wp (sysExec i upath uargv namei) (fun _ t => Next s t (.exec i upath uargv namei))
      (fun _ => False) s := by
  refine wp_post (sysExec_exact upath uargv namei h hrun) ?_
  intro r t hres
  cases hres with
  | failed hargv hh hr =>
      refine (hh.wrote h (live_of_runs hrun)).next (fun h0 => ?_)
      rw [RState.modifyProc_self s.abs rfl, RState.step, RState.byProc_of_runs (r := s.abs) hi hrun,
        hr h0]
  | done hargv hx hr => exact hx.next h hi hrun hr

end replace

end Xv6Cow.Kernel

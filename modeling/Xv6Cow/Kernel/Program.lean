import Xv6Cow.Kernel.Runs

/-! # What a program starts with

The results about `exec` in terms of the process that called it: whatever the file is, the call
returns, and if it succeeds the address space is the one the program headers describe; whatever the
arguments are, they are on the stack if they fit there. -/

namespace Xv6Cow.Kernel

open Vm

/-- The address space of a process that runs the program `file`: every page may be read, the page
below the stack is the only one that is not for user code, and the segments are where the headers
put them. -/
structure Loads (file : List UInt8) (m : Bytes) (p : Proc) : Prop where
  stack : (USERSTACK + 1) * PGSIZE ≤ p.sz
  readable : ∀ v < npg p.sz, has (pmap m p.pagetable v) PTE_V = true ∧
    has (pmap m p.pagetable v) PTE_R = true
  guard : ∀ v < npg p.sz, has (pmap m p.pagetable v) PTE_U = true ↔ v ≠ npg p.sz - (USERSTACK + 1)
  segments : Found file (phoff file) (phnum file) (npg p.sz) (image m (pmap m p.pagetable) (npg p.sz))

section filled
variable {g g' : Image} {n n' off cnt : ℕ} {areas : List (ℕ × List UInt8)} {file : List UInt8}
  {args : List (List UInt8)} {new : NewImage}

theorem pokeAll_page {pg : UPage} {v : ℕ} (h : g v = some pg) (areas : List (ℕ × List UInt8)) :
    ∃ pg', pokeAll g areas v = some pg' ∧ pg'.perm = pg.perm := by
  induction areas generalizing g pg with
  | nil => exact ⟨pg, h, rfl⟩
  | cons area areas ih =>
      obtain ⟨pg₁, h₁, hp₁⟩ := poke_page h area.1 area.2
      obtain ⟨pg₂, h₂, hp₂⟩ := ih h₁
      exact ⟨pg₂, h₂, hp₂.trans hp₁⟩

theorem Found.congr (h : Found file off cnt n g) (hn : n ≤ n') (hg : ∀ v < n, g' v = g v) :
    Found file off cnt n' g' := by
  intro k hk hin j hj hlater
  obtain ⟨hpage, hbyte⟩ := h k hk hin j hj hlater
  refine ⟨lt_of_lt_of_le hpage hn, ?_⟩
  rw [← hbyte, byteAt, byteAt, hg _ hpage]

theorem Filled.eq (h : Filled file args new g') (hargs : Passed args) :
    ∃ fresh g, NewSpace fresh file new.sz g ∧ ArgsFit args ∧ new.sp = stackPtr new.sz args ∧
      new.argc = args.length ∧ g' = pokeAll g (areasOf new.sz args) := by
  obtain ⟨fresh, g, hspace, hstack⟩ := h
  rw [rStack_eq hspace.stack hargs] at hstack
  split_ifs at hstack with hfit
  simp only [Option.some.injEq, Prod.mk.injEq] at hstack
  exact ⟨fresh, g, hspace, hfit, hstack.1.symm, hstack.2.1.symm, hstack.2.2.symm⟩

theorem Filled.loaded (h : Filled file args new g') (hargs : Passed args)
    (hsmall : file.length < 2 ^ 32) : (USERSTACK + 1) * PGSIZE ≤ new.sz ∧
      (∀ v < npg new.sz, ∃ pg, g' v = some pg ∧ pg.perm.r = true ∧
        (pg.perm.u = true ↔ v ≠ npg new.sz - (USERSTACK + 1))) ∧
      Found file (phoff file) (phnum file) (npg new.sz) g' := by
  obtain ⟨fresh, g, hspace, hfit, -, -, rfl⟩ := h.eq hargs
  have hst := hspace.stack
  have hroom := hst.room
  refine ⟨hroom, fun v hv => ?_, (hspace.found hsmall).congr (Nat.sub_le _ _) (fun v hv => ?_)⟩
  · obtain ⟨pg, hpg, hr, hu⟩ := hspace.rights hsmall v hv
    obtain ⟨pg', hpg', hperm⟩ := pokeAll_page hpg (areasOf new.sz args)
    exact ⟨pg', hpg', by rw [hperm]; exact ⟨hr, hu⟩⟩
  · refine (stacked_areasOf hst hargs hfit).below ?_
    obtain ⟨k, hk⟩ := hst.aligned
    rw [hk, Nat.mul_comm, npg_mul] at hv
    rw [hk]
    unfold USERSTACK PGSIZE at *
    omega

theorem passed_of_fetched {p : RProc} {uargv : ℕ} {args : List (List UInt8)}
    (h : rFetchArgs p uargv MAXARG [] = some args) : Passed args := by
  obtain ⟨h1, h2⟩ := rFetchArgs_passed h (fun str hs => absurd hs List.not_mem_nil)
  exact ⟨by simpa using h1, h2⟩

end filled

section program
variable [Layout] {s : KState} {m : Mach} {L : List ℕ} {i : ℕ} {argv : List ℕ}

theorem Execed.loads {new : NewImage} {f : ℕ → Pte} {held : List ℕ} {file : List UInt8}
    {args : List (List UInt8)} (hx : Execed s m i new f held)
    (hfill : Filled file args new (image m.mem f (npg new.sz))) (hargs : Passed args)
    (hsmall : file.length < 2 ^ 32) : Loads file m.mem ((s.procs i).withImage new) := by
  obtain ⟨L', hu⟩ := hx.uvm
  have hmap : pmap m.mem new.pagetable = f := hu.tab.map
  obtain ⟨hroom, hpages, hfound⟩ := hfill.loaded hargs hsmall
  refine ⟨hroom, fun v hv => ?_, fun v hv => ?_, ?_⟩
  · dsimp only [Proc.withImage]
    rw [hmap]
    exact ⟨(hu.space.user v hv).valid, (hu.space.user v hv).read⟩
  · dsimp only [Proc.withImage] at hv ⊢
    obtain ⟨pg, hpg, -, huser⟩ := hpages v hv
    rw [image_of_lt hv] at hpg
    obtain rfl := Option.some.inj hpg
    rw [hmap]
    exact huser
  · dsimp only [Proc.withImage]
    rw [hmap]
    exact hfound

/-- **`exec` tolerates every file.**  Whatever the path, the arguments and the bytes of the file
are, the call returns; if it succeeds the process has the address space that the program headers
describe. -/
theorem sysExec_loads (h : Sys s L) (hrun : (s.procs i).state = .runnable) (upath uargv : ℕ)
    (namei : List UInt8 → Option (List UInt8))
    (hsize : ∀ path file, namei path = some file → file.length < 2 ^ 32) :
      ∃ r t, sysExec i upath uargv namei s = .ok (r, t) ∧
        (r ≠ -1 → ∃ file, namei (s.pathAt i upath) = some file ∧ Loads file t.mach.mem (t.procs i)) := by
  obtain ⟨r, t, hok, hres⟩ := wp_returns (sysExec_exact upath uargv namei h hrun)
  refine ⟨r, t, hok, fun hr => ?_⟩
  cases hres with
  | failed => exact absurd rfl hr
  | done hargv hx hr hfile hargs hfill hregs =>
      refine ⟨_, hfile, ?_⟩
      dsimp only
      rw [Function.update_self]
      exact hx.loads hfill (passed_of_fetched hargs) (hsize _ _ hfile)

/-- The registers and the memory of a process that starts with the arguments `args`. -/
structure Starts (t : KState) (i : ℕ) (args : List (List UInt8)) (sp : ℕ) (ptrs : List ℕ) : Prop where
  regSp : t.mach.mem.le ((t.procs i).trapframe + TF_SP) 8 = sp
  regA1 : t.mach.mem.le ((t.procs i).trapframe + TF_A1) 8 = sp
  stack : Marshalled (image t.mach.mem (pmap t.mach.mem (t.procs i).pagetable) (npg (t.procs i).sz))
    (t.procs i).sz sp args ptrs

/-- Every push of `exec` onto the stack of an image of `sz` bytes is of no more than there is below
the stack pointer. -/
def NoUnderflow (sz : ℕ) (args : List (List UInt8)) : Prop :=
  ∀ x ∈ pushes (sz - USERSTACK * PGSIZE) sz (sizes args), x.2 ≤ x.1

theorem Prepared.noUnderflow {t : Mach} {X U : ℕ → ℕ} {tf a sz : ℕ} {file : List UInt8}
    {args : List (List UInt8)} (h : Prepared s.mach t L X U tf file (some (a, sz)))
    (hargs : Passed args) : NoUnderflow sz args := by
  obtain ⟨L', f, init, -, -, hspace⟩ := h
  have hst := (hspace init (fun _ _ _ => rfl)).stack.pushing
  exact pushes_le hst.page hst.base hargs.sizes_le

/-- **The arguments of `exec`.**  For the arguments that `sys_exec` fetches, whatever the file is:
they are the strings of the caller, with a place left for the terminator; the stack pointer never
goes below 0; given everything else (`exec` without arguments succeeds) `exec` fails exactly if they
do not fit in the stack; and if it succeeds it returns their number, and the new program finds
them. -/
theorem exec_arguments {uargv : ℕ} (h : Sys s L) (hrun : (s.procs i).state = .runnable)
    (hfetch : fetchArgs (s.procs i) uargv MAXARG [] s.mach = .ok ((true, argv), m)) (file : List UInt8) :
    ∃ args, rFetchArgs (s.abs.procs i) uargv MAXARG [] = some args ∧ args = argv.map (strAt m.mem) ∧
      Passed args ∧ (∀ a sz m', execSpace (s.procs i).trapframe file m = .ok (some (a, sz), m') →
        NoUnderflow sz args) ∧
      ∃ r t, exec i (some file) argv { s with mach := m } = .ok (r, t) ∧
        ((∃ r₀ t₀, exec i (some file) [] { s with mach := m } = .ok (r₀, t₀) ∧ r₀ ≠ -1) →
          (r = -1 ↔ ¬ ArgsFit args)) ∧
        (r ≠ -1 → r = args.length ∧ ∃ sp ptrs, Starts t i args sp ptrs) := by
  have hfocus := (h.focus (live_of_runs hrun)).uvm
  have hu0 : Uvm s.mach L (s.rest i + pages []) (s.others i) (s.procs i).pagetable (s.procs i).trapframe
      (npg (s.procs i).sz) (pmap s.mach.mem (s.procs i).pagetable) := by rwa [pages_nil, add_zero]
  have hsz : (s.abs.procs i).sz = (s.procs i).sz := rfl
  have himg : (s.abs.procs i).image = image s.mach.mem (pmap s.mach.mem (s.procs i).pagetable)
    (npg (s.procs i).sz) := rfl
  obtain ⟨⟨L₁, hf, -⟩, hargs, -⟩ := (wp_iff_of_ok hfetch).mp (fetchArgs_spec hu0 hsz himg)
  have hstr : rFetchArgs (s.abs.procs i) uargv MAXARG [] = some (argv.map (strAt m.mem)) :=
    hargs (Or.inl rfl)
  have hpassed := passed_of_fetched hstr
  refine ⟨_, hstr, rfl, hpassed, fun a sz m' hok => ?_, ?_⟩
  · have hprep := (wp_iff_of_ok hok).mp (execSpace_spec (s.procs i).trapframe file hf.uvm.tab.own)
    exact hprep.2.noUnderflow (s := { s with mach := m }) hpassed
  obtain ⟨r, t, hok, hres, hiff⟩ := wp_returns (exec_spec (some file) hf (List.Subset.refl argv))
  refine ⟨r, t, hok, ?_, fun hr => ?_⟩
  · rintro ⟨r₀, t₀, hok₀, hr₀⟩
    have hnil : Passed ([].map (strAt m.mem)) :=
      ⟨show 0 < MAXARG by decide, fun str hs => absurd hs List.not_mem_nil⟩
    obtain ⟨-, hiff₀⟩ := (wp_iff_of_ok hok₀).mp (exec_spec (some file) hf (List.nil_subset argv))
    have hcan := ((hiff₀ hnil).mp hr₀).1
    have := hiff hpassed
    tauto
  · cases hres with
    | failed => exact absurd rfl hr
    | @done m₁ new f content hx hist hsome hfile hfill hregs =>
        obtain ⟨fresh, g, hspace, hfit, hsp, hargc, himg⟩ := hfill.eq hpassed
        obtain ⟨L₂, hu⟩ := hx.uvm
        have hmap : pmap m₁.mem new.pagetable = f := hu.tab.map
        have hm := marshalled hspace.stack hpassed hfit
        refine ⟨by rw [hargc], stackPtr new.sz (argv.map (strAt m.mem)),
          places new.sz (strings (argv.map (strAt m.mem))), ?_, ?_, ?_⟩
        all_goals
          dsimp only
          rw [Function.update_self]
          dsimp only [Proc.withImage]
        · rw [hregs.sp, hsp]
        · rw [hregs.a1, hsp]
        · rw [hmap, himg]
          exact hm

theorem hasSpace_of_free {X U : ℕ → ℕ} {tf : ℕ} {file : List UInt8} (h : Own m L X U)
    (hnone : phnum file = 0) (hL : 9 ≤ L.length) : HasSpace m tf file := by
  have hw : wp (execSpace tf file) (fun r _ => r ≠ none) (fun _ => False) m := by
    simp only [execSpace, wp_bind]
    refine wp_post (procPagetable_spec tf h) ?_
    rintro a t ⟨-, (⟨rfl, -, hlt, -⟩ | ⟨ha, L₁, hu, -, hlen, -⟩)⟩
    · omega
    rw [if_neg ha, hnone, wp_bind, execSegs, wp_pure]
    simp only [Bool.not_true, Bool.false_eq_true, if_false, wp_bind, show pgroundup 0 = 0 by decide]
    have hu' : Uvm t L₁ X U a tf (npg 0) (bareMap tf) := by rwa [show npg 0 = 0 by decide]
    refine wp_post (uvmalloc_spec 0 (0 + (USERSTACK + 1) * PGSIZE)
      (x := PTE_W) ⟨by decide, by decide⟩ hu') ?_
    rintro sz1 t₁ ⟨-, (⟨hlt, -⟩ | ⟨-, rfl, L₂, f, hu₂, -⟩ | ⟨-, -, -, -, -, hlt⟩)⟩
    · exact absurd hlt (Nat.not_lt_zero _)
    · have hguard : 0 + (USERSTACK + 1) * PGSIZE - (USERSTACK + 1) * PGSIZE = 0 * PGSIZE := by decide
      rw [if_neg (by decide), wp_bind, hguard]
      refine wp_post (uvmclear_spec hu₂ (show 0 < npg (0 + (USERSTACK + 1) * PGSIZE) by decide)) ?_
      rintro _ t₂ -
      rw [wp_pure]
      simp
    · rw [show npg (0 + (USERSTACK + 1) * PGSIZE) - npg 0 = 2 by decide] at hlt
      omega
  obtain ⟨r, t, hok, hr⟩ := wp_returns hw
  obtain ⟨x, rfl⟩ := Option.ne_none_iff_exists'.mp hr
  exact ⟨x, t, hok⟩

end program

/-- The string `/init`. -/
def initPath : List UInt8 := [0x2F, 0x69, 0x6E, 0x69, 0x74]

/-- The memory of the first process. -/
def initProc : RProc := { sz := PGSIZE, image := firstImage initcode }

set_option maxRecDepth 100000 in
theorem rFetchArgs_initProc : rFetchArgs initProc 0x2B MAXARG [] = some [initPath] := by decide +kernel

/-- A program without segments. -/
def emptyProgram : List UInt8 := [0x7F, 0x45, 0x4C, 0x46] ++ List.replicate 60 0

theorem first_fetch : letI := sampleLayout
    ∃ s L argv m, Reaches (fun _ => 0) 0 [] s ∧ Sys s L ∧ (s.procs 0).state = .runnable ∧
      fetchArgs (s.procs 0) 0x2B MAXARG [] s.mach = .ok ((true, argv), m) ∧ argv.map (strAt m.mem) =
        [initPath] ∧
      ∃ r₀ t₀, exec 0 (some emptyProgram) [] { s with mach := m } = .ok (r₀, t₀) ∧ r₀ ≠ -1 := by
  let := sampleLayout
  have hram := sampleLayout_ramPages
  obtain ⟨_, s, hboot, L, hb, hlen, hfirst⟩ := wp_returns (boot_spec (fun _ => 0) (n := 0) (by omega))
  have hu := (hb.sys.focus (i := 0) (live_of_runs hb.init.1)).uvm
  have hone : npg (s.procs 0).sz = 1 := by
    rw [hb.init.2]
    decide
  have hsz : initProc.sz = (s.procs 0).sz := hb.init.2.symm
  have himg : initProc.image = image s.mach.mem (pmap s.mach.mem (s.procs 0).pagetable)
      (npg (s.procs 0).sz) := by
    rw [hone, hfirst.image]
    rfl
  rw [← add_zero (s.rest 0), ← pages_nil] at hu
  obtain ⟨⟨ok, argv⟩, m, hok, ⟨L₁, hf, hfree⟩, hr, hn⟩ :=
    wp_returns (c := fetchArgs (s.procs 0) 0x2B MAXARG []) (fetchArgs_spec hu hsz himg)
  have h0 : 0 ∉ m.allocs := fun h0 => (hn h0).elim hb.full (fun hlt => by
    unfold MAXARG at hlt
    omega)
  rw [List.map_nil, rFetchArgs_initProc] at hr
  cases ok with
  | false => exact absurd (hr (Or.inr h0)) (by simp)
  | true =>
      have hstr : argv.map (strAt m.mem) = [initPath] := by simpa using (hr (Or.inl rfl)).symm
      obtain ⟨r₀, t₀, hok₀, -, hiff⟩ :=
        wp_returns (exec_spec (some emptyProgram) hf (List.nil_subset argv))
      refine ⟨s, L, argv, m, ⟨s, hboot, rfl⟩, hb.sys, hb.init.1, hok, hstr, r₀, t₀, hok₀, ?_⟩
      refine (hiff ⟨show 0 < MAXARG by decide, fun str hs => absurd hs List.not_mem_nil⟩).mpr
        ⟨?_, show ArgsFit [] by decide⟩
      refine ⟨emptyProgram, rfl, by decide, by decide, hasSpace_of_free hf.uvm.tab.own (by decide) ?_⟩
      unfold MAXARG at hfree
      omega

/-- The first `exec`, for a program without segments. -/
theorem exec_arguments_init : letI := sampleLayout
    ∃ s L argv m, Reaches (fun _ => 0) 0 [] s ∧ Sys s L ∧ (s.procs 0).state = .runnable ∧
      fetchArgs (s.procs 0) 0x2B MAXARG [] s.mach = .ok ((true, argv), m) ∧
      ∃ r t, exec 0 (some emptyProgram) argv { s with mach := m } = .ok (r, t) ∧ r = 1 ∧
        ∃ sp ptrs, Starts t 0 [initPath] sp ptrs := by
  let := sampleLayout
  obtain ⟨s, L, argv, m, hreach, hsys, hrun, hfetch, hstr, hempty⟩ := first_fetch
  obtain ⟨_, -, rfl, -, -, r, t, hok, hfails, hdone⟩ := exec_arguments hsys hrun hfetch emptyProgram
  rw [hstr] at hfails hdone
  have hfit : ArgsFit [initPath] := by decide
  have hr : r ≠ -1 := fun hr => (hfails hempty).mp hr hfit
  exact ⟨s, L, argv, m, hreach, hsys, hrun, hfetch, r, t, hok, hdone hr⟩

/-- The first `exec`, as the process makes it. -/
theorem sysExec_loads_init : letI := sampleLayout
    ∃ s L, Reaches (fun _ => 0) 0 [] s ∧ Sys s L ∧ (s.procs 0).state = .runnable ∧
      ∃ r t, sysExec 0 0x24 0x2B (fun _ => some emptyProgram) s = .ok (r, t) ∧
        (r ≠ -1 → ∃ file, some emptyProgram = some file ∧ Loads file t.mach.mem (t.procs 0)) := by
  let := sampleLayout
  obtain ⟨s, L, -, -, hreach, hsys, hrun, -⟩ := first_fetch
  refine ⟨s, L, hreach, hsys, hrun, sysExec_loads hsys hrun 0x24 0x2B _ (fun path file hf => ?_)⟩
  obtain rfl := Option.some.inj hf
  decide

end Xv6Cow.Kernel

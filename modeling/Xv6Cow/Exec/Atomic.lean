import Xv6Cow.Exec.Halves
import Xv6Cow.Kernel.Program

/-! # A call of `exec` that fails changes nothing

Whatever the path, the arguments, the file and the number of free pages are, a call that returns -1
leaves the process, its memory, its files, the free pages and the reference counts of pages and
inodes as they were, with the inode unlocked and the operation of the log ended.  The pages that
`sys_exec` takes for the arguments are freed once, whether the call fails or not. -/

namespace Xv6Cow.Exec

open Vm Finset
open Kernel (KState Proc Sys Held Execed ExecResult Fetched MAXARG MAXPATH pages freeArgs fetchArgs)
open Fs (FsState)

/-! ### The file system -/

section files
variable {s s' : FsState} {x : XState} {i : ℕ} {path : List UInt8} {argv : List ℕ} {E : Stop → Prop}

/-- The open files, the references to inodes and the operations of the log are as they were. -/
structure SameFiles (s s' : FsState) : Prop where
  procs : s'.procs = s.procs
  ftable : s'.ftable = s.ftable
  refs : ∀ k, (s'.itable k).ref = (s.itable k).ref
  outstanding : s'.outstanding = s.outstanding

theorem ended_outstanding (s : FsState) : s.ended.outstanding = s.outstanding - 1 := by
  unfold FsState.ended
  split_ifs with h0
  · exact h0.symm
  · rfl

theorem sameFiles_of_op {t : FsState} (h : Fs.Inv s 0 0 ∅) (h' : Fs.Inv t 0 0 ∅)
    (hf : Fs.Frame { s with outstanding := s.outstanding + 1 } t) : SameFiles s t.ended := by
  refine ⟨Fs.ended_procs.trans hf.procs, Fs.ended_ftable.trans hf.ftable, fun k => ?_, ?_⟩
  · have h1 := h.ref_eq k
    have h2 := h'.ref_eq k
    rw [hf.cwds, hf.opens] at h2
    rw [Fs.ended_itable]
    have hc : Fs.cwds { s with outstanding := s.outstanding + 1 } k = Fs.cwds s k := rfl
    have ho : Fs.opens { s with outstanding := s.outstanding + 1 } k = Fs.opens s k := rfl
    omega
  · rw [ended_outstanding, hf.outstanding]
    rfl

/-- `exec` stops only where `namei` does. -/
def Stops (s : FsState) (e : Stop) : Prop := ∃ e', e = .fs e' ∧ Fs.PathPanic s e'

variable [Layout]

/-- **`exec` with the file system taken out.**  What holds of `Kernel.exec` of every file holds of
`exec`, with the file system as it was. -/
theorem wp_exec {Q : ℤ → XState → Prop} (hfs : Fs.Inv x.fs 0 0 ∅) (hi : i < Fs.NPROC)
    (hused : (x.fs.procs i).used = true) (hfree : ∀ k, x.locked k = false) (hE : ∀ e, Stops x.fs e → E e)
    (hk : ∀ file s, SameFiles x.fs s → wp (Kernel.exec i file argv) (fun r k => Q r ⟨k, s, x.locked,
      if r = -1 then x.name else Function.update x.name i (nameOf path)⟩) (fun e => E (.vm e))
        x.kernel) :
    wp (exec i path argv) Q E x := by
  have h1 := hfs.op (x.fs.outstanding + 1)
  have hlent : ∀ l, (0 : ℤ) ≤ (0 : ℕ → ℤ) l := fun _ => le_rfl
  simp only [exec, wp_bind, wp_fs, Fs.wp_beginOp, Fs.namei]
  refine wp_mono (Fs.namex_spec h1 (Nat.succ_pos _) hlent (fun _ h => absurd h (Set.notMem_empty _))
    hi hused path false) ?_ (fun e he => hE _ ⟨e, rfl, he.1⟩)
  rintro (_ | ⟨ip, name⟩) t ht
  · obtain ⟨hinv, hto, -⟩ := ht
    simp only [Option.map_none, wp_pure, wp_bind, wp_fs, Fs.wp_endOp]
    have := hk none t.ended (sameFiles_of_op hfs hinv hto.frame)
    simpa [Kernel.exec] using this
  obtain ⟨j, -, hreach⟩ := ht
  simp only [Option.map_some, wp_pure, wp_bind, ilock, acquiresleep, wp_get]
  rw [if_neg (by simp [hfree ip]), wp_set, wp_fs]
  refine wp_mono (Fs.ilock_spec hreach.inv hreach.refers) ?_ (fun e he => ?_)
  · rintro _ u ⟨hinv, htouch, hc⟩
    have hto := hreach.goes.trans htouch.goes
    obtain ⟨_, s, hput, hinv', hto', -⟩ :=
      wp_returns (Fs.iput_temp h1 hinv hto hc.refers (Nat.succ_pos _) hlent (fun _ => le_rfl)
        (fun _ h => absurd h (Set.notMem_empty _)))
    have hlock : Locked ⟨x.kernel, u, Function.update x.locked ip true, x.name⟩ ip s :=
      ⟨Function.update_self _ _ _, hc.ref, hput⟩
    rw [wp_execFile (hinv.mid.reads hc (hinv.alloc hc)) hlock]
    have hunlock : Function.update (Function.update x.locked ip true) ip false = x.locked := by
      rw [Function.update_idem, ← hfree ip, Function.update_eq_self]
    have := hk (some (u.node j).data) s.ended (sameFiles_of_op hfs hinv' hto'.frame)
    simpa [XState.returned, hunlock] using this
  · exact hE _ ⟨e, rfl, Or.inr ⟨he.1, j, hreach.named, (congrFun hreach.goes.tree j).symm.trans he.2⟩⟩

end files

/-! ### The memory -/

/-- The same pages are free, and every page that was not handed out in between has the same
count. -/
def SamePages [Layout] (m m' : Mach) : Prop :=
  ∃ l l' new, Chain m.mem m.freelist l ∧ Chain m'.mem m'.freelist l' ∧ l'.Perm l ∧
    m'.allocs = new ++ m.allocs ∧ ∀ p, Page p → (p ∈ l → p ∉ new) → m'.refcnt (p / PGSIZE) =
    m.refcnt (p / PGSIZE)

theorem samePages_of_own [Layout] {m m' : Mach} {l l' : List ℕ} {X U : ℕ → ℕ} (h : Own m l X U)
    (h' : Own m' l' X U) (hist : m.allocs <:+ m'.allocs) : SamePages m m' := by
  obtain ⟨new, hnew⟩ := hist
  obtain ⟨hperm, hcnt⟩ := h.acct.same h'.acct
  refine ⟨l, l', new, h.chain, h'.chain, hperm, hnew.symm, fun p hp hdrawn => ?_⟩
  by_cases hl : p ∈ l
  · refine h.acct.same_free h'.acct hl ?_
    rw [← hnew, List.mem_append]
    exact ⟨fun hin => hin.resolve_left (hdrawn hl), Or.inr⟩
  · exact hcnt p hp hl

/-- The address space of a process, its trapframe and the pages are as they were. -/
structure SameSpace [Layout] (p : Proc) (m m' : Mach) : Prop where
  map : pmap m'.mem p.pagetable = pmap m.mem p.pagetable
  table : Vm.Frame m.mem m'.mem (nodes m.mem 2 p.pagetable)
  image : Vm.image m'.mem (pmap m'.mem p.pagetable) (npg p.sz) =
    Vm.image m.mem (pmap m.mem p.pagetable) (npg p.sz)
  trapframe : SameOn m.mem m'.mem p.trapframe
  pages : SamePages m m'

section space
variable [Layout] {s : KState} {m m' : Mach} {i : ℕ} {argv : List ℕ}

theorem Held.map (h : Held s m i argv) : pmap m.mem (s.procs i).pagetable =
    pmap s.mach.mem (s.procs i).pagetable := by
  obtain ⟨_, hu⟩ := h.uvm
  exact hu.tab.map

theorem Held.same (h : Held s m i argv) (h' : Held s m' i argv) (hist : m.allocs <:+ m'.allocs) :
    SameSpace (s.procs i) m m' := by
  obtain ⟨L, hu⟩ := h.uvm
  obtain ⟨L', hu'⟩ := h'.uvm
  have ho := hu.tab.own
  have ho' := hu'.tab.own
  rw [h.nodes_eq] at ho
  rw [h'.nodes_eq] at ho'
  have htf : 0 < (s.rest i + s.others i) (s.procs i).trapframe := by
    rw [s.rest_eq]
    simp only [Pi.add_apply, one_self]
    omega
  refine ⟨(Held.map h').trans (Held.map h).symm, fun q hq a h1 h2 => ?_, ?_, fun a h1 h2 => ?_,
    samePages_of_own ho ho' hist⟩
  · rw [h.nodes_eq] at hq
    exact (h'.table q hq a h1 h2).trans (h.table q hq a h1 h2).symm
  · rw [Held.map h, Held.map h', h'.image, h.image]
  · exact (h'.keeps.frame _ htf a h1 h2).trans (h.keeps.frame _ htf a h1 h2).symm

end space

/-! ### The arguments -/

section args
variable [Layout] {m : Mach} {L argv : List ℕ} {X U : ℕ → ℕ} {p : ℕ}

theorem arg_only (h : Own m L (X + pages argv) U) (hp : p ∈ argv) : argv.count p = 1 ∧
    X p + U p = 0 := by
  have hpos := List.count_pos_iff.mpr hp
  have hexcl := h.acct.excl p (by rw [Pi.add_apply, Kernel.pages_eq_count]; omega)
  rw [Pi.add_apply, Kernel.pages_eq_count] at hexcl
  omega

/-- From `m₀` on the pages `argv` were taken off the free list, at `m₁` each of them has one owner
and is not free, and the loop that frees them leaves each on the free list once. -/
structure FreedOnce (m₀ m₁ m : Mach) (argv : List ℕ) : Prop where
  nodup : argv.Nodup
  taken : ∃ l, Chain m₀.mem m₀.freelist l ∧ argv ⊆ l
  held : ∃ l, Chain m₁.mem m₁.freelist l ∧ ∀ p ∈ argv, p ∉ l ∧ m₁.refcnt (p / PGSIZE) = 1
  freed : freeArgs argv m₁ = .ok ((), m)
  free : ∃ l, Chain m.mem m.freelist l ∧ ∀ p ∈ argv, l.count p = 1 ∧ m.refcnt (p / PGSIZE) = 0

theorem freeArgs_once {m₀ : Mach} {L₀ : List ℕ} {X₀ U₀ : ℕ → ℕ} (h₀ : Own m₀ L₀ X₀ U₀)
    (hne : ∀ p ∈ argv, X₀ p + U₀ p = 0) (h : Own m L (X + pages argv) U) :
    wp (freeArgs argv) (fun _ t => FreedOnce m₀ m t argv) (fun _ => False) m := by
  refine wp_mono (wp_run (Kernel.freeArgs_spec h)) ?_ (fun _ he => he)
  rintro _ t ⟨hrun, L', ho, -, hal⟩
  have howned : ∀ p ∈ argv, 0 < (X + pages argv) p + U p := fun p hp => by
    have := List.count_pos_iff.mpr hp
    rw [Pi.add_apply, Kernel.pages_eq_count]
    omega
  refine ⟨List.nodup_iff_count_le_one.mpr (fun p => ?_), ⟨L₀, h₀.chain, fun p hp => ?_⟩,
    ⟨L, h.chain, fun p hp => ?_⟩, hrun, ⟨L', ho.chain, fun p hp => ?_⟩⟩
  · by_cases hp : p ∈ argv
    · exact (arg_only h hp).1.le
    · rw [List.count_eq_zero_of_not_mem hp]
      exact Nat.zero_le _
  · exact (h₀.acct.mem_free_iff (h.page (howned p hp))).mpr (hne p hp)
  · obtain ⟨h1, h0⟩ := arg_only h hp
    refine ⟨h.acct.not_mem_free (howned p hp), ?_⟩
    have hcnt := h.acct.cnt_eq (howned p hp)
    rw [Pi.add_apply, Kernel.pages_eq_count] at hcnt
    omega
  · have hin : p ∈ L' := (ho.acct.mem_free_iff (h.page (howned p hp))).mpr (arg_only h hp).2
    refine ⟨List.count_eq_one_of_mem ho.acct.nodup hin, ho.acct.cnt_used p hin ?_⟩
    rw [hal]
    exact h.acct.hist_of_owned p (howned p hp)

theorem Fetched.unowned {s : KState} {i : ℕ} {L' : List ℕ}
    (hf : Fetched s.mach m L L' (s.rest i) (s.others i) (s.procs i).pagetable (s.procs i).trapframe
      (npg (s.procs i).sz) (pmap s.mach.mem (s.procs i).pagetable) [] argv) :
    ∀ p ∈ argv, (s.rest i + nodes s.mach.mem 2 (s.procs i).pagetable) p +
      (s.others i + span (pmap s.mach.mem (s.procs i).pagetable) 0 (npg (s.procs i).sz)) p = 0 := by
  intro p hp
  have ho := hf.uvm.tab.own
  rw [add_right_comm, (Held.of_fetched hf).nodes_eq] at ho
  exact (arg_only ho hp).2

end args

/-! ### `exec` and `sys_exec` -/

/-- The process in slot `i`, its memory, its files and what the kernel counts are as they were. -/
structure Unchanged [Layout] (i : ℕ) (x y : XState) : Prop where
  kernel : y.kernel = { x.kernel with mach := y.kernel.mach }
  space : SameSpace (x.kernel.procs i) x.kernel.mach y.kernel.mach
  name : y.name = x.name
  files : SameFiles x.fs y.fs
  locked : y.locked = x.locked

/-- `argv` has every page that `kalloc` gave while the arguments were fetched, and each is freed
once. -/
def ArgsFreed [Layout] (i uargv : ℕ) (x y : XState) : Prop :=
  ∃ ok argv m new m₁, fetchArgs (x.kernel.procs i) uargv MAXARG [] x.kernel.mach = .ok ((ok, argv), m) ∧
    m.allocs = new ++ x.kernel.mach.allocs ∧ (∀ p ∈ new, p ≠ 0 → p ∈ argv) ∧
    FreedOnce x.kernel.mach m₁ y.kernel.mach argv

section calls
variable [Layout] {x : XState} {L L' : List ℕ} {m : Mach} {i : ℕ} {argv : List ℕ}

theorem exec_unchanged (hfs : Fs.Inv x.fs 0 0 ∅) (hi : i < Fs.NPROC) (hused : (x.fs.procs i).used = true)
    (hfree : ∀ k, x.locked k = false)
      (hf : Fetched x.kernel.mach m L L' (x.kernel.rest i) (x.kernel.others i)
        (x.kernel.procs i).pagetable (x.kernel.procs i).trapframe (npg (x.kernel.procs i).sz)
      (pmap x.kernel.mach.mem (x.kernel.procs i).pagetable) [] argv) (path : List UInt8) :
    wp (exec i path argv) (fun r y => r = -1 → Unchanged i (x.onMach m) y) (Stops x.fs)
      (x.onMach m) := by
  refine wp_exec (x := x.onMach m) hfs hi hused hfree (fun _ => id) (fun file s hs => ?_)
  refine wp_post (Kernel.exec_spec (s := x.kernel) file hf (List.Subset.refl _)) ?_
  rintro r k ⟨hres, -⟩ hr
  cases hres with
  | failed hh hist =>
      exact ⟨rfl, Held.same (s := x.kernel) (Held.of_fetched hf) hh hist, by simp, hs, rfl⟩
  | done => exact absurd hr (by omega)

/-- **A failed `exec` is atomic.**  `exec` with any path and any arguments that `sys_exec` fetches,
and `sys_exec` itself, return or stop where `namei` does; if they return -1 nothing has changed; and
`sys_exec` frees every page that it took for the arguments once, whatever it returns. -/
theorem exec_failure_atomic (h : Sys x.kernel L) (hrun : (x.kernel.procs i).state = .runnable)
    (hfs : Fs.Good x.fs) (hused : (x.fs.procs i).used = true) (hfree : ∀ k, x.locked k = false)
    (upath uargv : ℕ) : (∀ argv m, fetchArgs (x.kernel.procs i) uargv MAXARG [] x.kernel.mach =
      .ok ((true, argv), m) → ∀ path, wp (exec i path argv) (fun r y => r = -1 →
        Unchanged i (x.onMach m) y) (Stops x.fs) (x.onMach m)) ∧
    wp (sysExec i upath uargv) (fun r y => (r = -1 → Unchanged i x y) ∧
      (y = x ∨ ArgsFreed i uargv x y)) (Stops x.fs) x := by
  have hlive := Kernel.live_of_runs hrun
  have hi : i < Fs.NPROC := h.lt_of_live hlive
  have hfocus := (h.focus hlive).uvm
  have hu0 : Uvm x.kernel.mach L (x.kernel.rest i + pages []) (x.kernel.others i)
      (x.kernel.procs i).pagetable (x.kernel.procs i).trapframe (npg (x.kernel.procs i).sz)
      (pmap x.kernel.mach.mem (x.kernel.procs i).pagetable) := by
    rwa [Kernel.pages_nil, add_zero]
  have hsz : (x.kernel.abs.procs i).sz = (x.kernel.procs i).sz := rfl
  have himg : (x.kernel.abs.procs i).image =
      Vm.image x.kernel.mach.mem (pmap x.kernel.mach.mem (x.kernel.procs i).pagetable)
      (npg (x.kernel.procs i).sz) := rfl
  have hstart : Held x.kernel x.kernel.mach i [] := Held.of_fetched (Fetched.refl hu0)
  constructor
  · intro argv m hok path
    obtain ⟨⟨L₁, hf, -⟩, -⟩ := (wp_iff_of_ok hok).mp (Kernel.fetchArgs_spec hu0 hsz himg)
    exact exec_unchanged hfs.inv hi hused hfree hf path
  simp only [sysExec, wp_bind, wp_kernel, Kernel.wp_getProc, wp_vm, wp_copyinstr hfocus]
  rw [wp_ite]
  refine ⟨fun hneg => ?_, fun hpos => ?_⟩
  · rw [wp_pure]
    exact ⟨fun _ => ⟨rfl, Held.same hstart hstart (List.suffix_refl _), rfl,
      ⟨rfl, rfl, fun _ => rfl, rfl⟩, rfl⟩, Or.inl rfl⟩
  simp only [wp_bind, wp_vm]
  refine wp_post (wp_run (Kernel.fetchArgs_spec hu0 hsz himg)) ?_
  rintro ⟨ok, argv⟩ m ⟨hok, ⟨L₁, hf, -⟩, -⟩
  dsimp only at hf
  obtain ⟨new, hnew, hin⟩ := hf.took
  have hback : ∀ {m₁ : Mach} {s : FsState}, Held x.kernel m₁ i argv → SameFiles x.fs s →
      wp (freeArgs argv) (fun _ m' => Unchanged i x { x.onMach m' with fs := s } ∧
        ArgsFreed i uargv x { x.onMach m' with fs := s }) (fun _ => False) m₁ := by
    intro m₁ s hh hs
    obtain ⟨L₂, hu⟩ := hh.uvm
    have ho := hu.tab.own
    rw [add_right_comm] at ho
    refine wp_post (wp_and hh.free (freeArgs_once hfocus.tab.own (Fetched.unowned hf) ho)) ?_
    rintro _ m' ⟨⟨hh', -⟩, honce⟩
    exact ⟨⟨rfl, Held.same hstart hh' hh'.keeps.hist, rfl, hs, rfl⟩, ok, argv, m, new, m₁, hok,
      hnew, hin, honce⟩
  cases ok with
  | false =>
      simp only [Bool.false_eq_true, if_false, wp_bind, wp_pure, wp_vm]
      exact wp_post (hback (Held.of_fetched hf) ⟨rfl, rfl, fun _ => rfl, rfl⟩)
        (fun _ _ hq => ⟨fun _ => hq.1, Or.inr hq.2⟩)
  | true =>
      simp only [if_true, wp_bind]
      refine wp_exec (x := x.onMach m) hfs.inv hi hused hfree (fun _ => id) (fun file s hs => ?_)
      refine wp_post (Kernel.exec_spec (s := x.kernel) file hf (List.Subset.refl _)) ?_
      rintro r k ⟨hres, -⟩
      cases hres with
      | failed hh hist =>
          simp only [wp_vm, wp_pure, if_true]
          exact wp_post (hback hh hs) (fun _ _ hq => ⟨fun _ => hq.1, Or.inr hq.2⟩)
      | @done m₁ new' f content hx =>
          obtain ⟨L₂, hu⟩ := hx.uvm
          have ho := hu.tab.own
          rw [add_right_comm] at ho
          simp only [wp_vm, wp_pure]
          refine wp_post (freeArgs_once hfocus.tab.own (Fetched.unowned hf) ho) ?_
          intro _ m' honce
          exact ⟨fun hr => absurd hr (by omega), Or.inr ⟨true, argv, m, new, m₁, hok, hnew, hin, honce⟩⟩

end calls

/-- The first `exec`, in a file system without the file `/init`. -/
theorem exec_failure_atomic_first : letI := Kernel.sampleLayout
    ∃ (x : XState) (L : List ℕ) (argv : List ℕ) (m : Mach), Sys x.kernel L ∧ Fs.Good x.fs ∧
      fetchArgs (x.kernel.procs 0) 0x2B MAXARG [] x.kernel.mach = .ok ((true, argv), m) ∧
      wp (exec 0 Kernel.initPath argv) (fun r y => r = -1 → Unchanged 0 (x.onMach m) y) (Stops x.fs)
        (x.onMach m) ∧
      wp (sysExec 0 0x24 0x2B) (fun r y => (r = -1 → Unchanged 0 x y) ∧
        (y = x ∨ ArgsFreed 0 0x2B x y)) (Stops x.fs) x := by
  let := Kernel.sampleLayout
  obtain ⟨s, L, argv, m, -, hsys, hrun, hfetch, -⟩ := Kernel.first_fetch
  have h := exec_failure_atomic (x := ⟨s, Fs.rootFs, fun _ => false, fun _ => []⟩) hsys hrun
    Fs.rootFs_good Fs.rootFs_used (fun _ => rfl) 0x24 0x2B
  exact ⟨⟨s, Fs.rootFs, fun _ => false, fun _ => []⟩, L, argv, m, hsys, Fs.rootFs_good, hfetch,
    h.1 argv m hfetch _, h.2⟩

end Xv6Cow.Exec

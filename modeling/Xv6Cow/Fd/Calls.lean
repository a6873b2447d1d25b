import Xv6Cow.Fd.Refs

/-! # The calls on descriptors

Every call keeps the invariant, and what it held itself has been stored or given back when it
returns.  A call that fails gives its descriptors back; the counts of references then are what they
were, because they are determined by the descriptors. -/

namespace Xv6Cow.Fd

open Fs (NFILE NOFILE NPROC NDEV)
open Function (update update_self update_eq_self update_comm)

variable {s s' : Sys} {held lent : ℕ → ℤ} {raw : Set ℕ} {f p np fd pi : ℕ}

/-! ### Allocation -/

theorem fdalloc_spec {Q : Option ℕ → Sys → Prop} {E : Fault → Prop} (hnone : Q none s)
    (hsome : ∀ fd < NOFILE, s.ofile p fd = none → Q (some fd) (s.setFd p fd (some f))) :
    wp (fdalloc p f) Q E s := by
  unfold fdalloc setFd
  rw [wp_bind, wp_get]
  cases hfind : (List.range NOFILE).find? (fun fd => s.ofile p fd = none) with
  | none => exact wp_pure.2 hnone
  | some fd =>
      simp only [wp_bind, wp_modify, wp_pure]
      exact hsome fd (List.mem_range.1 (List.mem_of_find?_eq_some hfind))
        (by simpa using List.find?_some hfind)

theorem kalloc_spec {Q : Option ℕ → Sys → Prop} {E : Fault → Prop} {page : Option ℕ}
    (hnone : Q none s) (hsome : ∀ pi, s.pages pi = none → Q (some pi)
      { s.setPipe pi ⟨true, true⟩ with allocs := update s.allocs pi (s.allocs pi + 1) }) :
    wp (kalloc page) Q E s := by
  unfold kalloc
  rw [wp_bind, wp_get]
  cases page with
  | none => exact wp_pure.2 hnone
  | some pi =>
      simp only [wp_ite, wp_bind, wp_set, wp_pure]
      exact ⟨fun _ => hnone, fun hn => hsome pi (by simpa using hn)⟩

/-- The end of `pipealloc`: two new files become the ends of a new pipe. -/
theorem Inv.newPipe {f0 f1 : ℕ} {c d : File} (h : Inv s held raw lent) (pi : ℕ) (hne : f0 ≠ f1)
    (h0 : f0 ∈ raw) (h1 : f1 ∈ raw) (hpi : s.pages pi = none)
    (hc : c.ref = 1 ∧ c.type = .pipe ∧ c.pipe = pi ∧ c.writable = false)
    (hd : d.ref = 1 ∧ d.type = .pipe ∧ d.pipe = pi ∧ d.writable = true)
    (hs : s' = { (s.setFile f0 c).setFile f1 d with
      pages := update s.pages pi (some ⟨true, true⟩)
      allocs := update s.allocs pi (s.allocs pi + 1) }) : Inv s' held (raw \ {f0, f1}) lent := by
  have hf0 := h.fresh f0 h0
  have hf1 := h.fresh f1 h1
  have hR0 := h.toRefs.setFile (f := f0) (g := c) (R := raw \ {f0}) (H := held) (L := lent)
    (h.small f0 (by omega)) (fun x hx => by simp [hx]) (by simp [hc]) (by simp) (by simp [hc, hf0.2])
    (by simp [hc, File.target, hf0.1])
  have hR := hR0.setFile (f := f1) (g := d) (R := raw \ {f0, f1}) (H := held) (L := lent)
    (h.small f1 (by omega)) (fun x hx => by simp [hx]) (by simp [hd]) (by simp)
    (by simp [hd, Sys.setFile, hne.symm, hf1.2])
    (by simp [hd, File.target, Sys.setFile, hne.symm, hf1.1])
  have hE : ends ((s.setFile f0 c).setFile f1 d) =
      update (update (ends s) f0 (some (pi, false))) f1 (some (pi, true)) := by
    simp [ends_setFile, File.end, hc, hd]
  subst hs
  refine ⟨⟨hR.refs, hR.irefs, hR.small, hR.slot, hR.proc, hR.type, hR.fresh⟩, ?_⟩
  change Ends (ends ((s.setFile f0 c).setFile f1 d)) _ _ _
  rw [hE]
  exact h.pipes.create hne (by simp [ends, File.end, hf0.1]) (by simp [ends, File.end, hf1.1]) hpi

/-- `pipealloc` gives the caller the references to the two files, or takes nothing. -/
theorem pipealloc_spec {page : Option ℕ} (h : Inv s 0 ∅ 0) : wp (pipealloc page) (fun r s' =>
    s'.ofile = s.ofile ∧ s'.state = s.state ∧ match r with
      | none => Inv s' 0 ∅ 0
      | some (f0, f1) => f0 ≠ f1 ∧ Inv s' (Pi.single f0 1 + Pi.single f1 1) ∅ 0) (fun _ => False) s := by
  unfold pipealloc
  rw [wp_bind]
  refine wp_post (filealloc_spec h) fun r s1 h1 => ?_
  cases r with
  | none =>
      subst h1
      simpa [pipeallocBad, ifSome] using h
  | some f0 =>
      obtain ⟨-, h1, ho1, hs1, hp1⟩ := h1
      rw [zero_add] at h1
      simp only [wp_bind]
      refine wp_post (filealloc_spec h1) fun r s2 h2 => ?_
      cases r with
      | none =>
          subst h2
          simp only [pipeallocBad, ifSome, wp_bind, wp_pure]
          have hr : 0 < (s2.ftable f0).ref := by simp [(h1.fresh f0 (by simp)).2]
          refine wp_post (fileclose_spec h1 hr) fun _ s3 h3 => ?_
          obtain ⟨h3, ho3, hs3⟩ := h3
          refine ⟨ho3.trans ho1, hs3.trans hs1, ?_⟩
          simpa using h3
      | some f1 =>
          obtain ⟨hne, h2, ho2, hs2, hp2⟩ := h2
          have hne : f1 ≠ f0 := fun he => hne (by simp [he])
          have hf0 := h2.fresh f0 (by simp)
          have hf1 := h2.fresh f1 (by simp)
          simp only [wp_bind]
          refine kalloc_spec ?_ fun pi hpi => ?_
          · -- no page: both files are closed
            simp only [pipeallocBad, ifSome, wp_bind, wp_pure]
            refine wp_post (fileclose_spec h2 (by simp [hf0.2])) fun _ s3 h3 => ?_
            obtain ⟨h3, ho3, hs3⟩ := h3
            have hf1 := h3.fresh f1 (by simp [hne])
            refine wp_post (fileclose_spec h3 (by simp [hf1.2])) fun _ s4 h4 => ?_
            obtain ⟨h4, ho4, hs4⟩ := h4
            refine ⟨by rw [ho4, ho3, ho2, ho1], by rw [hs4, hs3, hs2, hs1], ?_⟩
            convert h4 using 1
            · abel
            · ext x
              simp
              tauto
          · simp only [wp_bind, wp_modify, wp_pure]
            refine ⟨by simpa [Sys.setFile, Sys.setPipe] using ho2.trans ho1,
              by simpa [Sys.setFile, Sys.setPipe] using hs2.trans hs1, hne.symm, ?_⟩
            have hI := h2.newPipe pi hne.symm (by simp) (by simp) hpi
              (c := { s2.ftable f0 with type := .pipe, readable := true, writable := false, pipe := pi })
              (d := { s2.ftable f1 with type := .pipe, readable := false, writable := true, pipe := pi })
              ⟨hf0.2, rfl, rfl, rfl⟩ ⟨hf1.2, rfl, rfl, rfl⟩ rfl
            convert hI using 1
            · simp [Sys.setFile, Sys.setPipe, hne]
            · ext x
              simp
              tauto

/-! ### Descriptors -/

theorem argfd_spec {Q : Option ℕ → Sys → Prop} {E : Fault → Prop} {n : ℤ} (hnone : Q none s)
    (hsome : ∀ f, n.toNat < NOFILE → s.ofile p n.toNat = some f → Q (some f) s) :
    wp (argfd p n) Q E s := by
  unfold argfd
  rw [wp_bind, wp_get, wp_pure]
  split_ifs with hn
  · exact hnone
  · cases ho : s.ofile p n.toNat with
    | none => exact hnone
    | some f =>
        refine hsome f ?_ ho
        simp only [NOFILE] at hn ⊢
        omega

theorem Inv.ref_pos_of_held (h : Inv s held raw lent) (hh : 0 < held f) : 0 < (s.ftable f).ref := by
  have h1 : 0 ≤ fds s f := tally_nonneg _ _ _
  have h2 := congrFun h.refs f
  simp only [Pi.add_apply] at h2
  omega

theorem sysDup_spec {n : ℤ} (h : Inv s 0 ∅ 0) (hp : p < NPROC) (hu : s.state p = .used) :
    wp (sysDup p n) (fun r s' =>
    Inv s' 0 ∅ 0 ∧ (r = -1 → s'.ofile = s.ofile)) (fun _ => False) s := by
  unfold sysDup
  rw [wp_bind]
  refine argfd_spec (wp_pure.2 ⟨h, fun _ => rfl⟩) fun f _ hf => ?_
  simp only [wp_bind]
  refine fdalloc_spec (wp_pure.2 ⟨h, fun _ => rfl⟩) fun fd hfd hn => ?_
  have h1 := h.setFd fd (o := some f) (H := -Pi.single f 1) hp hfd (fun _ => hu) (by simp [hn])
  simp only [wp_bind]
  refine wp_post (filedup_spec h1 (h.ref_pos hf le_rfl) (Set.notMem_empty f)) fun _ s' hs =>
    wp_pure.2 ⟨?_, fun hr => by omega⟩
  simpa using hs.1

theorem sysClose_spec {n : ℤ} (h : Inv s 0 ∅ 0) (hp : p < NPROC) :
    wp (sysClose p n) (fun _ s' => Inv s' 0 ∅ 0) (fun _ => False) s := by
  unfold sysClose
  rw [wp_bind]
  refine argfd_spec (wp_pure.2 h) fun f hfd hf => ?_
  have h1 := h.setFd n.toNat (o := none) (H := Pi.single f 1) hp hfd (by simp) (by simp [hf])
  simp only [setFd, wp_bind, wp_modify]
  refine wp_post (fileclose_spec h1 (h1.ref_pos_of_held (by simp))) fun _ s' hs => wp_pure.2 ?_
  simpa using hs.1

theorem sysOpen_spec {found : Option Found} {omode : ℕ} (h : Inv s 0 ∅ 0) (hp : p < NPROC)
    (hu : s.state p = .used) : wp (sysOpen p found omode)
      (fun r s' => Inv s' 0 ∅ 0 ∧ (r = -1 → s'.ofile = s.ofile)) (fun _ => False) s := by
  unfold sysOpen
  cases found with
  | none => exact wp_pure.2 ⟨h, fun _ => rfl⟩
  | some i =>
      have h1 := h.setIref i.ip 1
      rw [zero_add] at h1
      have bad : ∀ {t : Sys}, Inv t 0 ∅ (Pi.single i.ip 1) → t.ofile = s.ofile →
            wp (do iput i.ip; pure (-1)) (fun r s' =>
          Inv s' 0 ∅ 0 ∧ (r = -1 → s'.ofile = s.ofile)) (fun _ => False) t := by
        intro t ht ho
        simp only [iput, wp_bind, wp_modify, wp_pure]
        refine ⟨?_, fun _ => ho⟩
        simpa [← Pi.single_add] using ht.setIref i.ip (-1)
      simp only [wp_bind, wp_modify, wp_ite]
      refine ⟨fun _ => wp_bind.1 (bad h1 rfl), fun _ => wp_post (filealloc_spec h1) fun r s1 hs1 => ?_⟩
      cases r with
      | none => exact hs1 ▸ bad h1 rfl
      | some f =>
          obtain ⟨-, h2, ho, hst, -⟩ := hs1
          rw [zero_add] at h2
          have hf := h2.fresh f (by simp)
          simp only [wp_bind]
          refine fdalloc_spec ?_ fun fd hfd hn => ?_
          · simp only [wp_bind]
            refine wp_post (fileclose_spec h2 (by omega)) fun _ s2 hs2 =>
              wp_bind.1 (bad ?_ (hs2.2.1.trans ho))
            simpa using hs2.1
          · have h3 := h2.setFd fd (o := some f) (H := 0) hp hfd (fun _ => by rw [hst]; exact hu)
              (by simp [hn])
            simp only [wp_bind, wp_modify, wp_pure]
            refine ⟨⟨h3.toRefs.setFile (h2.small f (by omega)) (fun x hx => by simp [hx])
              (fun _ => ?_) (by simp) (by simp) ?_, ?_⟩, fun hr => by omega⟩
            · simp only [Sys.setFd, hf.2]
              split_ifs <;> simp
            · simp only [Sys.setFd, File.target]
              split_ifs <;> simp_all
            · rw [ends_setFile]
              have : (File.end { (s1.setFd p fd (some f)).ftable f with
                  type := if i.device then .device else .inode
                  ip := i.ip
                  readable := omode &&& Fs.O_WRONLY = 0
                  writable := omode &&& Fs.O_WRONLY ≠ 0 ∨ omode &&& Fs.O_RDWR ≠ 0 }) = ends s1 f := by
                simp only [ends, File.end, hf.1]
                split_ifs <;> simp_all
              rw [this]
              have he : ends (s1.setFd p fd (some f)) = ends s1 := rfl
              rw [he, update_eq_self]
              exact h3.pipes

theorem setFd_comm {fd' : ℕ} {o o' : Option ℕ} (h : fd ≠ fd') :
    (s.setFd p fd o).setFd p fd' o' = (s.setFd p fd' o').setFd p fd o := by
  simp [Sys.setFd, update_comm h]

theorem setFd_restore {o : Option ℕ} (hn : s.ofile p fd = none) : (s.setFd p fd o).setFd p fd none =
    s := by
  simp [Sys.setFd, ← hn]

theorem closeBoth_spec {rf wf : ℕ} (h : Inv s (Pi.single rf 1 + Pi.single wf 1) ∅ 0) :
    wp (do fileclose rf; fileclose wf; pure (-1) : FdM ℤ)
      (fun r s' => Inv s' 0 ∅ 0 ∧ s'.ofile = s.ofile ∧ r = -1) (fun _ => False) s := by
  have hpos : ∀ a b : ℕ, 0 < (Pi.single a 1 + Pi.single b 1 : ℕ → ℤ) a := by
    intro a b
    rw [Pi.add_apply, Pi.single_eq_same, Pi.single_apply]
    split_ifs <;> decide
  simp only [wp_bind]
  refine wp_post (fileclose_spec h (h.ref_pos_of_held (hpos rf wf))) fun _ s1 hs1 => ?_
  have h1 : Inv s1 (Pi.single wf 1) ∅ 0 := by simpa using hs1.1
  refine wp_post (fileclose_spec h1 (h1.ref_pos_of_held (by simp))) fun _ s2 hs2 =>
    wp_pure.2 ⟨?_, hs2.2.1.trans hs1.2.1, rfl⟩
  simpa using hs2.1

theorem sysPipe_spec {page : Option ℕ} {ok0 ok1 : Bool} (h : Inv s 0 ∅ 0) (hp : p < NPROC)
    (hu : s.state p = .used) : wp (sysPipe p page ok0 ok1)
      (fun r s' => Inv s' 0 ∅ 0 ∧ (r = -1 → s'.ofile = s.ofile)) (fun _ => False) s := by
  unfold sysPipe
  rw [wp_bind]
  refine wp_post (pipealloc_spec h) fun r s1 hs1 => ?_
  obtain ⟨ho, hst, hr⟩ := hs1
  cases r with
  | none => exact wp_pure.2 ⟨hr, fun _ => ho⟩
  | some fs =>
      obtain ⟨rf, wf⟩ := fs
      obtain ⟨-, h1⟩ := hr
      have hu1 : s1.state p = .used := by rw [hst, hu]
      simp only [wp_bind]
      refine fdalloc_spec ?_ fun fd0 hfd0 hn0 => ?_
      · exact wp_post (closeBoth_spec h1) fun r s2 hs2 => ⟨hs2.1, fun _ => hs2.2.1.trans ho⟩
      · have h2 := h1.setFd fd0 (o := some rf) (H := Pi.single wf 1) hp hfd0 (fun _ => hu1)
          (by simp [hn0])
        simp only [wp_bind]
        refine fdalloc_spec ?_ fun fd1 hfd1 hn1 => ?_
        · have h3 := h2.setFd fd0 (o := none) (H := Pi.single rf 1 + Pi.single wf 1) hp hfd0
            (by simp) (by simp [Sys.setFd, add_comm])
          rw [setFd, wp_bind, wp_modify]
          refine wp_post (closeBoth_spec h3) fun r s2 hs2 => ⟨hs2.1, fun _ => ?_⟩
          rw [hs2.2.1, setFd_restore hn0, ho]
        · have h3 := h2.setFd fd1 (o := some wf) (H := 0) hp hfd1 (fun _ => hu1) (by simp [hn1])
          rw [wp_ite]
          refine ⟨fun _ => wp_pure.2 ⟨h3, by simp⟩, fun _ => ?_⟩
          have hne : fd1 ≠ fd0 := by
            rintro rfl
            simp [Sys.setFd] at hn1
          have h4 := h3.setFd fd0 (o := none) (H := Pi.single rf 1) hp hfd0 (by simp)
            (by simp [Sys.setFd, hne.symm])
          have h5 := h4.setFd fd1 (o := none) (H := Pi.single rf 1 + Pi.single wf 1) hp hfd1
            (by simp) (by simp [Sys.setFd, hne])
          rw [setFd, wp_bind, wp_modify, setFd, wp_bind, wp_modify]
          refine wp_post (closeBoth_spec h5) fun r s2 hs2 => ⟨hs2.1, fun _ => ?_⟩
          have hn1 : s1.ofile p fd1 = none := by simpa [Sys.setFd, hne] using hn1
          rw [hs2.2.1, setFd_comm hne, setFd_restore hn0, setFd_restore hn1, ho]

/-! ### Processes -/

/-- The state of a process is changed; only one that runs has descriptors. -/
theorem Inv.setState {t : PState} (h : Inv s held raw lent) (hp : p < NPROC)
    (ht : t ≠ .used → ∀ fd, s.ofile p fd = none) : Inv (s.setState p t) held raw lent where
  refs := h.refs
  irefs := h.irefs
  small := h.small
  slot p' fd' f' hs := by
    replace hs : s.ofile p' fd' = some f' := hs
    refine ⟨(h.slot p' fd' f' hs).1, (h.slot p' fd' f' hs).2.1, ?_⟩
    obtain rfl | he := eq_or_ne p' p
    · refine (update_self p' t s.state).trans ?_
      by_contra hn
      rw [ht hn fd'] at hs
      cases hs
    · simpa [Sys.setState, he] using (h.slot p' fd' f' hs).2.2
  proc p' hs := by
    obtain rfl | he := eq_or_ne p' p
    · exact hp
    · exact h.proc p' (by simpa [Sys.setState, he] using hs)
  type := h.type
  fresh := h.fresh
  pipes := h.pipes

theorem forkFiles_spec {m i : ℕ} (h : Inv s 0 ∅ 0) (hnp : np < NPROC) (hu : s.state np = .used)
    (hm : i + m = NOFILE) (hfree : ∀ j, i ≤ j → s.ofile np j = none) :
    wp (forkFiles p np m i) (fun _ s' => Inv s' 0 ∅ 0) (fun _ => False) s := by
  induction m generalizing i s with
  | zero => exact wp_pure.2 h
  | succ m ih =>
      unfold forkFiles
      rw [wp_bind, wp_get]
      cases ho : s.ofile p i with
      | none => exact ih h hu (by omega) fun j hj => hfree j (by omega)
      | some f =>
          simp only [setFd, wp_bind, wp_modify]
          refine wp_post (filedup_spec h (h.ref_pos ho le_rfl) (Set.notMem_empty f)) fun _ s1 hs1 => ?_
          obtain ⟨h1, ho1, hst1⟩ := hs1
          have hn : s1.ofile np i = none := by rw [ho1]; exact hfree i le_rfl
          have hu1 : s1.state np = .used := by rw [hst1, hu]
          have h2 := h1.setFd i (o := some f) (H := 0) hnp (by omega) (fun _ => hu1) (by simp [hn])
          refine ih h2 hu1 (by omega) fun j hj => ?_
          have hji : j ≠ i := by omega
          simpa [Sys.setFd, hji, ho1] using hfree j (by omega)

theorem fork_spec {ok : Bool} (h : Inv s 0 ∅ 0) :
    wp (fork p ok) (fun _ s' => Inv s' 0 ∅ 0) (fun _ => False) s := by
  unfold fork
  rw [wp_bind, wp_get]
  cases hfind : (List.range NPROC).find? (fun np => s.state np = .unused) with
  | none => exact wp_pure.2 h
  | some np =>
      have hnp : np < NPROC := List.mem_range.1 (List.mem_of_find?_eq_some hfind)
      have hu : s.state np = .unused := by simpa using List.find?_some hfind
      have hfree : ∀ j, s.ofile np j = none := by
        intro j
        by_contra hj
        obtain ⟨f, hf⟩ := Option.ne_none_iff_exists'.1 hj
        simp [(h.slot np j f hf).2.2] at hu
      have h1 : Inv (s.setState np .used) 0 ∅ 0 := h.setState hnp (by simp)
      simp only [wp_bind, wp_set, wp_ite, wp_modify, wp_pure]
      refine ⟨fun _ => ?_, fun _ => h1.setState hnp fun _ => hfree⟩
      exact forkFiles_spec h1 hnp (by simp [Sys.setState]) (by simp) fun j _ => hfree j

theorem exitFiles_spec {m fd : ℕ} (h : Inv s 0 ∅ 0) (hp : p < NPROC) (hm : fd + m = NOFILE)
    (hfree : ∀ j < fd, s.ofile p j = none) :
      wp (exitFiles p m fd) (fun _ s' => Inv s' 0 ∅ 0 ∧ ∀ j, s'.ofile p j = none)
        (fun _ => False) s := by
  induction m generalizing fd s with
  | zero =>
      refine wp_pure.2 ⟨h, fun j => ?_⟩
      by_contra hj
      obtain ⟨f, hf⟩ := Option.ne_none_iff_exists'.1 hj
      have := (h.slot p j f hf).2.1
      exact hj (hfree j (by omega))
  | succ m ih =>
      unfold exitFiles
      rw [wp_bind, wp_get]
      have next : ∀ {t : Sys}, t.ofile p fd = none → (∀ j, j ≠ fd → t.ofile p j = s.ofile p j) →
          ∀ j < fd + 1, t.ofile p j = none := by
        intro t hfd hne j hj
        obtain rfl | hj' := eq_or_ne j fd
        · exact hfd
        · rw [hne j hj']
          exact hfree j (by omega)
      cases ho : s.ofile p fd with
      | none => exact ih h (by omega) (next ho fun _ _ => rfl)
      | some f =>
          simp only [setFd, wp_bind, wp_modify]
          refine wp_post (fileclose_spec h (h.ref_pos ho le_rfl)) fun _ s1 hs1 => ?_
          obtain ⟨h1, ho1, -⟩ := hs1
          have h2 := h1.setFd fd (o := none) (H := 0) hp (by omega) (by simp) (by simp [ho1, ho])
          refine ih (by simpa using h2) (by omega) (next (by simp [Sys.setFd]) fun j hj => ?_)
          simp [Sys.setFd, hj, ho1]

theorem exit_spec (h : Inv s 0 ∅ 0) (hp : p < NPROC) : wp (exit p) (fun _ s' => Inv s' 0 ∅ 0)
    (fun e => e = .initExiting ∧ p = 0) s := by
  unfold exit
  simp only [wp_ite, wp_throw, wp_bind, wp_modify, wp_pure]
  refine ⟨fun h0 => ⟨trivial, h0⟩, fun _ => wp_post (exitFiles_spec h hp (by simp) (by simp))
    fun _ s1 hs1 => ?_⟩
  exact hs1.1.setState hp fun _ => hs1.2

theorem wait_spec (h : Inv s 0 ∅ 0) : wp (wait np) (fun _ s' => Inv s' 0 ∅ 0) (fun _ => False) s := by
  unfold wait
  simp only [wp_bind, wp_get, wp_ite, wp_set, wp_pure]
  refine ⟨fun hz => h.setState (h.proc np (by simp [hz])) fun _ fd => ?_, fun _ => h⟩
  by_contra hj
  obtain ⟨f, hf⟩ := Option.ne_none_iff_exists'.1 hj
  simp [(h.slot np fd f hf).2.2] at hz

/-! ### Runs -/

/-- A call that has to leave everything as it was when it fails, and has failed. -/
def Op.failed (r : ℤ) : Op → Prop
  | .open _ _ _ | .pipe _ _ _ _ | .dup _ _ => r = -1
  | _ => False

/-- What a call does: it keeps the invariant, a failed one keeps the descriptors, and only `init`
may fault. -/
theorem call_spec {op : Op} (h : Inv s 0 ∅ 0) (hc : op.can s) : wp op.call (fun r s' => Inv s' 0 ∅ 0 ∧
    (op.failed r → s'.ofile = s.ofile)) (fun e => e = .initExiting ∧ op = .exit 0) s := by
  obtain ⟨hp, hu⟩ := hc
  cases op with
  | «open» p found omode => exact wp_post (sysOpen_spec h hp hu) fun _ _ hs => hs
  | pipe p page ok0 ok1 => exact wp_post (sysPipe_spec h hp hu) fun _ _ hs => hs
  | dup p fd => exact wp_post (sysDup_spec h hp hu) fun _ _ hs => hs
  | close p fd => exact wp_post (sysClose_spec h hp) fun _ _ hs => ⟨hs, False.elim⟩
  | fork p ok => exact wp_post (fork_spec h) fun _ _ hs => ⟨hs, False.elim⟩
  | exit p =>
      exact wp_mono (exit_spec h hp) (fun _ _ hs => ⟨hs, False.elim⟩) fun _ he => ⟨he.1, by rw [he.2]⟩
  | wait p np => exact wp_post (wait_spec h) fun _ _ hs => ⟨hs, False.elim⟩
  | exec p ok => exact wp_pure.2 ⟨h, False.elim⟩

theorem boot_inv : Inv boot 0 ∅ 0 where
  refs := by
    funext f
    simp [boot, fds, tally_apply]
  irefs := by
    funext i
    simp [boot, opens, File.target, tally_apply]
  small f hf := by simp [boot] at hf
  slot p fd f hs := by simp [boot] at hs
  proc p hs := by
    obtain rfl | hp := eq_or_ne p 0
    · decide
    · simp [boot, hp] at hs
  type f _ := by simp [boot]
  fresh f hf := by simp at hf
  pipes := by
    refine ⟨fun pi w => ?_, fun hx => ?_, fun pi q hq => ?_, fun pi => ?_⟩ <;>
      simp_all [boot, ends, File.end]

theorem Reachable.inv (hs : Reachable s) : Inv s 0 ∅ 0 := by
  obtain ⟨ops, h⟩ := hs
  refine Runs.exec_invariant (I := fun t => Inv t 0 ∅ 0) boot_inv (fun t op u ht hstep => ?_) h
  unfold step at hstep
  split_ifs at hstep with hc
  obtain ⟨⟨r, u'⟩, hr, rfl⟩ := Option.map_eq_some_iff.1 hstep
  cases hrun : op.call.run t with
  | error e => simp [hrun, Except.toOption] at hr
  | ok x =>
      simp only [hrun, Except.toOption, Option.some.injEq] at hr
      subst hr
      exact (wp_ok (call_spec ht hc) hrun).1

/-- The descriptors, over all processes, that hold a file. -/
def holders (s : Sys) (f : ℕ) : Finset (ℕ × ℕ) := (Fs.fdSlots).filter (fun x => s.ofile x.1 x.2 = some f)

/-- A file that is open on one end of a pipe. -/
def Holds (s : Sys) (pi : ℕ) (writable : Bool) (f : ℕ) : Prop :=
  0 < (s.ftable f).ref ∧ (s.ftable f).type = .pipe ∧ (s.ftable f).pipe = pi ∧
    (s.ftable f).writable = writable

/-- Open files are accounted for, between calls. -/
structure Accounted (s : Sys) : Prop where
  -- every descriptor is one of a process and is counted by its file
  slot : ∀ {p fd f}, s.ofile p fd = some f → (p, fd) ∈ holders s f
  ref : ∀ f, (s.ftable f).ref = (holders s f).card
  ref_zero : ∀ f, (s.ftable f).ref = 0 ↔ (s.ftable f).type = .none
  -- the ends of a pipe; a file has one end of a pipe that is there, and is the only one to have it
  readopen : ∀ {pi q}, s.pages pi = some q → (q.readopen = true ↔ ∃ f, Holds s pi false f)
  writeopen : ∀ {pi q}, s.pages pi = some q → (q.writeopen = true ↔ ∃ f, Holds s pi true f)
  one : ∀ {pi w f g}, Holds s pi w f → Holds s pi w g → f = g
  there : ∀ {pi w f}, Holds s pi w f → (s.pages pi).isSome
  -- a page is there while one end is open, and has been freed once for each time it was allocated before
  live : ∀ {pi q}, s.pages pi = some q → q.readopen = true ∨ q.writeopen = true
  once : ∀ pi, s.allocs pi = s.frees pi + if (s.pages pi).isSome then 1 else 0
  -- inodes count their open files
  iref : ∀ i, s.iref i = ((Finset.range NFILE).filter (fun f => (s.ftable f).target = some i)).card

theorem Inv.ends_iff (h : Inv s 0 ∅ 0) {w : Bool} : ends s f = some (pi, w) ↔ Holds s pi w f := by
  have ht := h.type f (Set.notMem_empty f)
  simp only [ends, File.end, Option.ite_none_right_eq_some, Option.some.injEq, Prod.mk.injEq, Holds]
  refine ⟨fun h1 => ⟨Nat.pos_of_ne_zero fun h0 => ?_, h1⟩, And.right⟩
  rw [h1.1] at ht
  exact absurd (ht.1 h0) (by simp)

theorem Inv.ref_eq (h : Inv s 0 ∅ 0) (f : ℕ) : (s.ftable f).ref = (holders s f).card := by
  have hr := congrFun h.refs f
  rw [add_zero, fds, tally_eq_card] at hr
  exact_mod_cast hr

theorem Inv.accounted (h : Inv s 0 ∅ 0) : Accounted s where
  slot {p fd f} hs := by
    obtain ⟨hp, hfd, _⟩ := h.slot p fd f hs
    exact Finset.mem_filter.2 ⟨Fs.mem_fdSlots.2 ⟨hp, hfd⟩, hs⟩
  ref := h.ref_eq
  ref_zero f := h.type f (Set.notMem_empty f)
  readopen {pi q} hq := by
    have := h.pipes.end_iff pi false
    simpa [hq, h.ends_iff, Pipe.open] using this
  writeopen {pi q} hq := by
    have := h.pipes.end_iff pi true
    simpa [hq, h.ends_iff, Pipe.open] using this
  one hf hg := h.pipes.one (h.ends_iff.2 hf) (h.ends_iff.2 hg)
  there hf := by
    obtain ⟨q, hq, _⟩ := h.pipes.page_of_end (h.ends_iff.2 hf)
    simp [hq]
  live {pi q} hq := by
    obtain ⟨w, hw⟩ := h.pipes.live pi q hq
    cases w
    · exact .inl hw
    · exact .inr hw
  once := h.pipes.once
  iref i := by
    have hi := congrFun h.irefs i
    rwa [add_zero, opens, tally_eq_card] at hi

/-- **Open-file accounting.**  After any sequence of calls by any processes, with failures anywhere,
open files are accounted for.  A further call does not fault (but that `init` must not exit), and if
it is `open`, `pipe` or `dup` and fails, it leaves the descriptors and all counts of references as
they were. -/
theorem open_files_accounted (hs : Reachable s) : Accounted s ∧ ∀ op : Op, op.can s →
    (∀ e, op.call.run s = .error e → e = .initExiting ∧ op = .exit 0) ∧
    ∀ r s', op.call.run s = .ok (r, s') → op.failed r →
      s'.ofile = s.ofile ∧ ∀ f, (s'.ftable f).ref = (s.ftable f).ref := by
  have h := hs.inv
  refine ⟨h.accounted, fun op hc => ⟨fun e he => ?_, fun r s' hr hf => ?_⟩⟩
  · have hE := wp_error (call_spec h hc) he
    exact hE
  · obtain ⟨h', ho⟩ := wp_ok (call_spec h hc) hr
    refine ⟨ho hf, fun f => ?_⟩
    rw [h'.ref_eq, h.ref_eq, holders, holders, ho hf]

/-- The first process opens the console, copies the descriptor, makes a pipe and forks; it closes
the end it does not use, and the child exits. -/
def session : List Op :=
  [.open 0 (some ⟨3, true, 1⟩) 2, .dup 0 0, .pipe 0 (some 7) true true, .fork 0 true, .close 0 2,
    .exit 1]

set_option maxRecDepth 100000 in
/-- The console has two descriptors left and the pipe one end.  A second pipe whose copy to the user
fails leaves no trace in the descriptors. -/
theorem session_accounted : ((Runs.after step boot session).ftable 0).ref = 2 ∧
    (Runs.after step boot session).pages 7 = some ⟨false, true⟩ ∧
      Accounted (Runs.after step boot session) ∧ ∀ r s', (Op.pipe 0 (some 8) true false).call.run
        (Runs.after step boot session) = .ok (r, s') → r = -1 →
          s'.ofile = (Runs.after step boot session).ofile := by
  have h := open_files_accounted ⟨session, Runs.exec_after step boot session (by decide +kernel)⟩
  refine ⟨by decide +kernel, by decide +kernel, h.1, fun r s' hr hf => ?_⟩
  exact ((h.2 (.pipe 0 (some 8) true false) (by decide +kernel)).2 r s' hr hf).1

end Xv6Cow.Fd

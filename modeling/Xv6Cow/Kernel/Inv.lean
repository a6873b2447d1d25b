import Xv6Cow.Kernel.Args

/-! # The invariant of the system

`Sys s L` is what holds between operations: the free list is `L`, and every page has exactly the
owners that the process table, the pages the kernel holds and the open pipes say; the table of every
process in use is an address space; and no page that one process may write is mapped by another.

An operation of one process works on its address space while the others are left alone.  `Sys.focus`
takes the address space of a slot out of the system, with the owners outside it as a frame, and
`Sys.close` puts it back. -/

namespace Xv6Cow.Kernel

open Vm Finset

/-- The pages that the kernel holds for a process: its trapframe and its page-table pages. -/
def Proc.kern (m : Bytes) (p : Proc) : ℕ → ℕ :=
  if p.state = .unused then 0 else one p.trapframe + nodes m 2 p.pagetable

/-- The user mappings of a process. -/
def Proc.user (m : Bytes) (p : Proc) : ℕ → ℕ :=
  if p.state = .unused then 0 else span (pmap m p.pagetable) 0 (npg p.sz)

/-- The kernel pages of the slots of `S`. -/
def kernOf (m : Bytes) (ps : ℕ → Proc) (S : Finset ℕ) : ℕ → ℕ := ∑ j ∈ S, (ps j).kern m

/-- The user mappings of the slots of `S`. -/
def userOf (m : Bytes) (ps : ℕ → Proc) (S : Finset ℕ) : ℕ → ℕ := ∑ j ∈ S, (ps j).user m

/-- Two values of a slot with the same address space. -/
structure Proc.Alike (p p' : Proc) : Prop where
  unused : p'.state = .unused ↔ p.state = .unused
  pagetable : p'.pagetable = p.pagetable
  trapframe : p'.trapframe = p.trapframe
  sz : p'.sz = p.sz

theorem Proc.Alike.refl (p : Proc) : p.Alike p := ⟨Iff.rfl, rfl, rfl, rfl⟩

section slots
variable {m m' : Bytes} {ps ps' : ℕ → Proc} {S : Finset ℕ} {i j p : ℕ}

theorem kernOf_erase (h : i ∈ S) : kernOf m ps S = kernOf m ps (S.erase i) + (ps i).kern m :=
  (Finset.sum_erase_add S (fun j => (ps j).kern m) h).symm

theorem userOf_erase (h : i ∈ S) : userOf m ps S = userOf m ps (S.erase i) + (ps i).user m :=
  (Finset.sum_erase_add S (fun j => (ps j).user m) h).symm

theorem kern_le (m : Bytes) (ps : ℕ → Proc) (h : j ∈ S) (p : ℕ) : (ps j).kern m p ≤ kernOf m ps S p := by
  rw [kernOf_erase h, Pi.add_apply]
  omega

theorem user_le (m : Bytes) (ps : ℕ → Proc) (h : j ∈ S) (p : ℕ) : (ps j).user m p ≤ userOf m ps S p := by
  rw [userOf_erase h, Pi.add_apply]
  omega

theorem userOf_eq_zero : userOf m ps S p = 0 ↔ ∀ j ∈ S, (ps j).user m p = 0 := by
  rw [userOf, Finset.sum_apply, Finset.sum_eq_zero_iff]

/-- No slot of `S` maps `p` with the right to write it. -/
def Unwritten (m : Bytes) (ps : ℕ → Proc) (S : Finset ℕ) (p : ℕ) : Prop :=
  ∀ j ∈ S, (ps j).state ≠ .unused → ∀ w < npg (ps j).sz, has (pmap m (ps j).pagetable w) PTE_W =
    true → pte2pa (pmap m (ps j).pagetable w) ≠ p

theorem unwritten_of_zero (h : userOf m ps S p = 0) : Unwritten m ps S p := by
  rintro j hj hlive w hw - rfl
  have hz := userOf_eq_zero.mp h j hj
  rw [Proc.user, if_neg hlive] at hz
  have := span_pos (f := pmap m (ps j).pagetable) hw
  omega

theorem pmap_frame (hf : Frame m m' (kernOf m ps S)) (hj : j ∈ S) (hlive : (ps j).state ≠ .unused) :
    ∀ q, 0 < nodes m 2 (ps j).pagetable q → SameOn m m' q := by
  intro q hq
  have hle := kern_le m ps hj q
  rw [Proc.kern, if_neg hlive, Pi.add_apply] at hle
  exact hf q (by omega)

theorem pmap_congr {a : ℕ} (h : ∀ q, 0 < nodes m 2 a q → SameOn m m' q) : pmap m' a = pmap m a := by
  funext w
  unfold pmap
  rw [look_congr h]

section
variable (hf : Frame m m' (kernOf m ps S))
include hf

theorem kern_congr (hj : j ∈ S) (ha : (ps j).Alike (ps' j)) :
    (ps' j).kern m' = (ps j).kern m := by
  rcases eq_or_ne (ps j).state .unused with hu | hlive
  · rw [Proc.kern, Proc.kern, if_pos hu, if_pos (ha.unused.mpr hu)]
  · rw [Proc.kern, Proc.kern, if_neg hlive, if_neg (fun h => hlive (ha.unused.mp h)), ha.trapframe,
      ha.pagetable, nodes_congr (pmap_frame hf hj hlive)]

theorem user_congr (hj : j ∈ S) (ha : (ps j).Alike (ps' j)) :
    (ps' j).user m' = (ps j).user m := by
  rcases eq_or_ne (ps j).state .unused with hu | hlive
  · rw [Proc.user, Proc.user, if_pos hu, if_pos (ha.unused.mpr hu)]
  · rw [Proc.user, Proc.user, if_neg hlive, if_neg (fun h => hlive (ha.unused.mp h)), ha.pagetable,
      ha.sz, pmap_congr (pmap_frame hf hj hlive)]

theorem kernOf_congr (ha : ∀ j ∈ S, (ps j).Alike (ps' j)) :
    kernOf m' ps' S = kernOf m ps S :=
  Finset.sum_congr rfl (fun j hj => kern_congr hf hj (ha j hj))

theorem userOf_congr (ha : ∀ j ∈ S, (ps j).Alike (ps' j)) :
    userOf m' ps' S = userOf m ps S :=
  Finset.sum_congr rfl (fun j hj => user_congr hf hj (ha j hj))

end

theorem Unwritten.congr (h : Unwritten m ps S p) (hf : Frame m m' (kernOf m ps S))
    (ha : ∀ j ∈ S, (ps j).Alike (ps' j)) : Unwritten m' ps' S p := by
  intro j hj hlive' w hw hW
  have hlive : (ps j).state ≠ .unused := fun hu => hlive' ((ha j hj).unused.mpr hu)
  rw [(ha j hj).sz] at hw
  rw [(ha j hj).pagetable, pmap_congr (pmap_frame hf hj hlive)] at hW ⊢
  exact h j hj hlive w hw hW

/-- The slots of `S` that are in use have address spaces, and none maps a page that another may
write. -/
structure Slots [Layout] (m : Bytes) (ps : ℕ → Proc) (S : Finset ℕ) : Prop where
  wf : ∀ j ∈ S, (ps j).state ≠ .unused → Wf m 2 (ps j).pagetable
  space : ∀ j ∈ S, (ps j).state ≠ .unused → Space (pmap m (ps j).pagetable) (ps j).trapframe
    (npg (ps j).sz)
  sep : ∀ j ∈ S, (ps j).state ≠ .unused → ∀ v < npg (ps j).sz,
    Unwritten m ps (S.erase j) (pte2pa (pmap m (ps j).pagetable v))

theorem Unwritten.mono {T : Finset ℕ} (h : Unwritten m ps S p) (hT : T ⊆ S) : Unwritten m ps T p :=
  fun j hj => h j (hT hj)

variable [Layout]

theorem Slots.mono {T : Finset ℕ} (h : Slots m ps S) (hT : T ⊆ S) : Slots m ps T :=
  ⟨fun j hj => h.wf j (hT hj), fun j hj => h.space j (hT hj),
    fun j hj hlive v hv => (h.sep j (hT hj) hlive v hv).mono (Finset.erase_subset_erase j hT)⟩

theorem Slots.congr (h : Slots m ps S) (hf : Frame m m' (kernOf m ps S))
    (ha : ∀ j ∈ S, (ps j).Alike (ps' j)) : Slots m' ps' S := by
  refine ⟨fun j hj hlive' => ?_, fun j hj hlive' => ?_, fun j hj hlive' v hv => ?_⟩
  all_goals
    have hlive : (ps j).state ≠ .unused := fun hu => hlive' ((ha j hj).unused.mpr hu)
    have hsame := pmap_frame hf hj hlive
  · rw [(ha j hj).pagetable]
    exact (h.wf j hj hlive).congr hsame
  · rw [(ha j hj).pagetable, pmap_congr hsame, (ha j hj).trapframe, (ha j hj).sz]
    exact h.space j hj hlive
  · rw [(ha j hj).sz] at hv
    rw [(ha j hj).pagetable, pmap_congr hsame]
    refine (h.sep j hj hlive v hv).congr (hf.mono (fun q hq => ?_))
      (fun k hk => ha k (Finset.mem_of_mem_erase hk))
    rw [kernOf_erase hj, Pi.add_apply]
    omega

/-- Adding a slot whose pages the others may not write, and whose writable pages the others do not
map. -/
theorem Slots.insert (h : Slots m ps S) (hi : i ∉ S) (hwf : Wf m 2 (ps i).pagetable)
    (hs : Space (pmap m (ps i).pagetable) (ps i).trapframe (npg (ps i).sz))
    (hin : ∀ v < npg (ps i).sz, Unwritten m ps S (pte2pa (pmap m (ps i).pagetable v)))
    (hout : ∀ v < npg (ps i).sz, has (pmap m (ps i).pagetable v) PTE_W = true →
      userOf m ps S (pte2pa (pmap m (ps i).pagetable v)) = 0) : Slots m ps (insert i S) := by
  refine ⟨fun j hj hlive => ?_, fun j hj hlive => ?_, fun j hj hlive v hv => ?_⟩
  all_goals rcases Finset.mem_insert.mp hj with rfl | hjS
  · exact hwf
  · exact h.wf j hjS hlive
  · exact hs
  · exact h.space j hjS hlive
  · rw [Finset.erase_insert hi]
    exact hin v hv
  · intro k hk hlivek w hw hW
    obtain ⟨hkj, hk⟩ := Finset.mem_erase.mp hk
    rcases Finset.mem_insert.mp hk with rfl | hkS
    · -- the new slot may write its page, so slot `j` does not map it
      intro he
      have hz := userOf_eq_zero.mp (hout w hw hW) j hjS
      rw [Proc.user, if_neg hlive, he] at hz
      have := span_pos (f := pmap m (ps j).pagetable) hv
      omega
    · exact h.sep j hjS hlive v hv k (Finset.mem_erase.mpr ⟨hkj, hkS⟩) hlivek w hw hW

end slots

/-! ### The system -/

/-- The exclusive owners outside the page table of slot `i`. -/
def KState.rest (s : KState) (i : ℕ) : ℕ → ℕ :=
  kernOf s.mach.mem s.procs ((range NPROC).erase i) + one (s.procs i).trapframe + pages s.held +
    pages s.pipes

/-- The exclusive owners outside slot `i`. -/
def KState.outside (s : KState) (i : ℕ) : ℕ → ℕ :=
  kernOf s.mach.mem s.procs ((range NPROC).erase i) + pages s.held + pages s.pipes

theorem KState.rest_eq (s : KState) (i : ℕ) : s.rest i = s.outside i + one (s.procs i).trapframe := by
  unfold KState.rest KState.outside
  abel

/-- The user mappings outside slot `i`. -/
def KState.others (s : KState) (i : ℕ) : ℕ → ℕ := userOf s.mach.mem s.procs ((range NPROC).erase i)

theorem KState.frame_outside {s : KState} {t : Mach} {i : ℕ}
    (hk : Frame s.mach.mem t.mem (s.rest i + s.others i)) :
    Frame s.mach.mem t.mem (s.outside i + s.others i) :=
  hk.mono (fun q hq => by
    rw [s.rest_eq]
    simp only [Pi.add_apply] at hq ⊢
    omega)

theorem KState.frame_others {s : KState} {t : Mach} {i : ℕ}
    (hk : Frame s.mach.mem t.mem (s.outside i + s.others i)) :
    Frame s.mach.mem t.mem (kernOf s.mach.mem s.procs ((range NPROC).erase i)) :=
  hk.mono (fun q hq => by
    unfold KState.outside
    simp only [Pi.add_apply]
    omega)

/-- The owners outside slot `i` when its pages are changed. -/
theorem KState.rest_congr {s : KState} {t : Mach} {i : ℕ} (nextpid : ℕ)
    (hk : Frame s.mach.mem t.mem (s.outside i + s.others i)) :
    ({ s with mach := t, nextpid := nextpid } : KState).rest i = s.rest i ∧
      ({ s with mach := t, nextpid := nextpid } : KState).others i = s.others i := by
  have hf := KState.frame_others hk
  unfold KState.rest KState.others
  dsimp only
  rw [kernOf_congr hf (fun j _ => Proc.Alike.refl _), userOf_congr hf (fun j _ => Proc.Alike.refl _)]
  exact ⟨rfl, rfl⟩

theorem image_empty (m m' : Bytes) (f f' : ℕ → Pte) : image m' f' (npg 0) = image m f (npg 0) := by
  have h0 : npg 0 = 0 := by decide
  rw [h0]
  rfl

theorem image_frame {s : KState} {t : Mach} {j : ℕ} (hlive : (s.procs j).state ≠ .unused)
    (hk : Frame s.mach.mem t.mem ((s.procs j).kern s.mach.mem + (s.procs j).user s.mach.mem)) :
    image t.mem (pmap t.mem (s.procs j).pagetable) (npg (s.procs j).sz) =
      image s.mach.mem (pmap s.mach.mem (s.procs j).pagetable) (npg (s.procs j).sz) := by
  rw [Proc.kern, Proc.user, if_neg hlive, if_neg hlive] at hk
  rw [pmap_congr (fun q hq => hk q (by simp only [Pi.add_apply]; omega))]
  refine image_congr (fun v hv => ⟨rfl, pageBytes_same (hk _ ?_)⟩)
  have hpos := span_pos (f := pmap s.mach.mem (s.procs j).pagetable) hv
  rw [Pi.add_apply]
  omega

section system
variable [Layout] {s : KState} {t : Mach} {L L' : List ℕ} {ps : ℕ → Proc} {i j : ℕ} {f : ℕ → Pte}

/-- The invariant of the system between operations. -/
structure Sys (s : KState) (L : List ℕ) : Prop where
  own : Own s.mach L (kernOf s.mach.mem s.procs (range NPROC) + pages s.held + pages s.pipes)
    (userOf s.mach.mem s.procs (range NPROC))
  slots : Slots s.mach.mem s.procs (range NPROC)
  empty : ∀ j, (s.procs j).state = .unused → s.procs j = {}
  bound : ∀ j, NPROC ≤ j → (s.procs j).state = .unused

section
variable (h : Sys s L) (hlive : (s.procs i).state ≠ .unused)
include h hlive

theorem Sys.lt_of_live : i < NPROC :=
  Nat.lt_of_not_le (fun hi => hlive (h.bound i hi))

theorem Sys.focus :
    User s.mach L (s.rest i) (s.others i) (s.procs i).pagetable (s.procs i).trapframe
      (npg (s.procs i).sz) (pmap s.mach.mem (s.procs i).pagetable) := by
  have hi : i ∈ range NPROC := Finset.mem_range.mpr (h.lt_of_live hlive)
  have hown := h.own
  rw [kernOf_erase hi, userOf_erase hi, Proc.kern, Proc.user, if_neg hlive, if_neg hlive] at hown
  refine ⟨⟨⟨?_, h.slots.wf i hi hlive, rfl⟩, h.slots.space i hi hlive⟩, fun v hv hW => ?_⟩
  · unfold KState.rest KState.others
    rwa [show kernOf s.mach.mem s.procs ((range NPROC).erase i) + one (s.procs i).trapframe +
      pages s.held + pages s.pipes + nodes s.mach.mem 2 (s.procs i).pagetable =
      kernOf s.mach.mem s.procs ((range NPROC).erase i) +
      (one (s.procs i).trapframe + nodes s.mach.mem 2 (s.procs i).pagetable) + pages s.held +
      pages s.pipes by abel]
  · -- another slot that maps the page would map a page that this one may write
    refine userOf_eq_zero.mpr (fun j hj => ?_)
    obtain ⟨hji, hjr⟩ := Finset.mem_erase.mp hj
    rcases eq_or_ne (s.procs j).state .unused with hu | hlivej
    · rw [Proc.user, if_pos hu]
      rfl
    · rw [Proc.user, if_neg hlivej]
      refine span_eq_zero (fun w hw he => ?_)
      exact h.slots.sep j hjr hlivej w hw i (Finset.mem_erase.mpr ⟨Ne.symm hji, hi⟩) hlive v hv hW
        he.symm

/-- Putting the address space of a slot back: what it maps of the pages of others it mapped
before. -/
theorem Sys.close (ha : ∀ j, j ≠ i → (s.procs j).Alike (ps j))
    (hempty : ∀ j, (ps j).state = .unused → ps j = {}) (hlive' : (ps i).state ≠ .unused)
    (htf : (ps i).trapframe = (s.procs i).trapframe)
    (hu : User t L' (s.rest i) (s.others i) (ps i).pagetable (s.procs i).trapframe (npg (ps i).sz) f)
    (hk : Frame s.mach.mem t.mem (s.outside i + s.others i))
    (hshare : ∀ v < npg (ps i).sz, 0 < s.others i (pte2pa (f v)) →
      ∃ w < npg (s.procs i).sz, pte2pa (f v) = pte2pa (pmap s.mach.mem (s.procs i).pagetable w)) :
    Sys { s with mach := t, procs := ps } L' := by
  have hi : i ∈ range NPROC := Finset.mem_range.mpr (h.lt_of_live hlive)
  have hf := KState.frame_others hk
  have ha' : ∀ j ∈ (range NPROC).erase i, (s.procs j).Alike (ps j) :=
    fun j hj => ha j (Finset.ne_of_mem_erase hj)
  have hkern := kernOf_congr hf ha'
  have huser := userOf_congr hf ha'
  have hmap := hu.uvm.tab.map
  refine ⟨?_, ?_, hempty, fun j hj => (ha j ?_).unused.mpr (h.bound j hj)⟩
  · have hown := hu.uvm.tab.own
    unfold KState.rest KState.others at hown
    dsimp only
    rw [kernOf_erase hi, userOf_erase hi, hkern, huser, Proc.kern, Proc.user, if_neg hlive',
      if_neg hlive', htf, hmap]
    rwa [show kernOf s.mach.mem s.procs ((range NPROC).erase i) +
      (one (s.procs i).trapframe + nodes t.mem 2 (ps i).pagetable) + pages s.held + pages s.pipes =
      kernOf s.mach.mem s.procs ((range NPROC).erase i) +
      one (s.procs i).trapframe + pages s.held + pages s.pipes + nodes t.mem 2 (ps i).pagetable by abel]
  · have hslots : Slots t.mem ps ((range NPROC).erase i) :=
      (h.slots.mono (Finset.erase_subset _ _)).congr hf ha'
    rw [← Finset.insert_erase hi]
    dsimp only
    refine hslots.insert (Finset.notMem_erase _ _) hu.uvm.tab.wf ?_ (fun v hv => ?_) (fun v hv hW => ?_)
    · rw [hmap, htf]
      exact hu.uvm.space
    · rw [hmap]
      rcases Nat.eq_zero_or_pos (s.others i (pte2pa (f v))) with hz | hpos
      · exact (unwritten_of_zero hz).congr hf ha'
      · obtain ⟨w, hw, he⟩ := hshare v hv hpos
        rw [he]
        exact (h.slots.sep i hi hlive w hw).congr hf ha'
    · rw [hmap] at hW ⊢
      rw [huser]
      exact hu.excl v hv hW
  · rintro rfl
    exact hlive (h.bound j hj)

end

theorem Sys.image_frame (h : Sys s L)
    (hk : Frame s.mach.mem t.mem ((s.procs j).kern s.mach.mem + (s.procs j).user s.mach.mem)) :
      image t.mem (pmap t.mem (s.procs j).pagetable) (npg (s.procs j).sz) =
        image s.mach.mem (pmap s.mach.mem (s.procs j).pagetable) (npg (s.procs j).sz) := by
  rcases eq_or_ne (s.procs j).state .unused with hu | hlive
  · rw [h.empty j hu]
    exact image_empty _ _ _ _
  · exact Kernel.image_frame hlive hk

theorem Sys.image_others (h : Sys s L) (hk : Frame s.mach.mem t.mem (s.outside i + s.others i))
    (hj : j ≠ i) : image t.mem (pmap t.mem (s.procs j).pagetable) (npg (s.procs j).sz) =
      image s.mach.mem (pmap s.mach.mem (s.procs j).pagetable) (npg (s.procs j).sz) := by
  rcases Nat.lt_or_ge j NPROC with hlt | hge
  · have hjr : j ∈ (range NPROC).erase i := Finset.mem_erase.mpr ⟨hj, Finset.mem_range.mpr hlt⟩
    refine h.image_frame (hk.mono (fun q hq => ?_))
    have h1 := kern_le s.mach.mem s.procs hjr q
    have h2 := user_le s.mach.mem s.procs hjr q
    unfold KState.outside KState.others
    simp only [Pi.add_apply] at hq ⊢
    omega
  · rw [h.empty j (h.bound j hge)]
    exact image_empty _ _ _ _

theorem Sys.alike {nextpid : ℕ} {initproc : Option ℕ} (h : Sys s L)
    (ha : ∀ j, (s.procs j).Alike (ps j)) (hempty : ∀ j, (ps j).state = .unused → ps j = {}) :
    Sys { s with procs := ps, nextpid := nextpid, initproc := initproc } L := by
  have hf : ∀ S, Frame s.mach.mem s.mach.mem (kernOf s.mach.mem s.procs S) := fun S => Frame.refl _ _
  refine ⟨?_, h.slots.congr (hf _) (fun j _ => ha j), hempty,
    fun j hj => (ha j).unused.mpr (h.bound j hj)⟩
  dsimp only
  rw [kernOf_congr (hf _) (fun j _ => ha j), userOf_congr (hf _) (fun j _ => ha j)]
  exact h.own

/-- Work of the kernel on pages that are not of the processes. -/
theorem Sys.kernel (held pipes : List ℕ) (h : Sys s L)
    (ho : Own t L' (kernOf s.mach.mem s.procs (range NPROC) + pages held + pages pipes)
      (userOf s.mach.mem s.procs (range NPROC)))
    (hk : Frame s.mach.mem t.mem (kernOf s.mach.mem s.procs (range NPROC))) :
    Sys { s with mach := t, held := held, pipes := pipes } L' := by
  have ha : ∀ j ∈ range NPROC, (s.procs j).Alike (s.procs j) := fun j _ => Proc.Alike.refl _
  refine ⟨?_, h.slots.congr hk ha, h.empty, h.bound⟩
  dsimp only
  rw [kernOf_congr hk ha, userOf_congr hk ha]
  exact ho

theorem Sys.image_kernel (h : Sys s L) (hk : Frame s.mach.mem t.mem
      (kernOf s.mach.mem s.procs (range NPROC) + userOf s.mach.mem s.procs (range NPROC))) (j : ℕ) :
    image t.mem (pmap t.mem (s.procs j).pagetable) (npg (s.procs j).sz) =
      image s.mach.mem (pmap s.mach.mem (s.procs j).pagetable) (npg (s.procs j).sz) := by
  rcases Nat.lt_or_ge j NPROC with hlt | hge
  · have hjr : j ∈ range NPROC := Finset.mem_range.mpr hlt
    refine h.image_frame (hk.mono (fun q hq => ?_))
    have h1 := kern_le s.mach.mem s.procs hjr q
    have h2 := user_le s.mach.mem s.procs hjr q
    simp only [Pi.add_apply] at hq ⊢
    omega
  · rw [h.empty j (h.bound j hge)]
    exact image_empty _ _ _ _

end system

end Xv6Cow.Kernel

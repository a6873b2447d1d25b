import Xv6Cow.Kernel.Inv

/-! # The operations of one process

Each operation keeps the invariant of the system and, as long as `kalloc` does not fail, does to the
abstraction of the state what the reference does; the bytes of new pages in the reference are those
the physical pages held before the operation.  `Next s t op` collects what a step from `s` to `t`
says. -/

namespace Xv6Cow.Kernel

open Vm Finset
open Function (update update_self update_of_ne update_eq_self)

section rules
variable {α : Type} {s : KState} {E : Panic → Prop} {i : ℕ}

@[simp] theorem wp_vm {c : VmM α} {Q : α → KState → Prop} :
    wp (vm c) Q E s ↔ wp c (fun a m => Q a { s with mach := m }) E s.mach := wp_zoom

@[simp] theorem wp_getProc {Q : Proc → KState → Prop} : wp (getProc i) Q E s ↔ Q (s.procs i) s := by
  simp only [getProc, wp_bind, wp_get, wp_pure]

@[simp] theorem wp_modifyProc {g : Proc → Proc} {Q : Unit → KState → Prop} :
    wp (modifyProc i g) Q E s ↔ Q () { s with procs := update s.procs i (g (s.procs i)) } := by
  simp only [modifyProc, wp_modify]

theorem wp_byProc {c : KM α} {Q : Unit → KState → Prop} :
    wp (byProc i c) Q E s ↔ (i < NPROC ∧ (s.procs i).state = .runnable →
      wp c (fun _ t => Q () t) E s) ∧ (¬ (i < NPROC ∧ (s.procs i).state = .runnable) → Q () s) := by
  simp [byProc, wp_ite]

end rules

/-! ### Steps -/

/-- The slot of the process that performs an operation. -/
def Op.slot : Op → ℕ
  | .fork i | .load i _ | .store i _ _ | .copyout i _ _ | .copyin i _ _ | .growproc i _
  | .exec i _ _ _ | .exit i _
  | .wait i _ => i
  | .pipe _ _ | .pipeclose _ _ | .kalloc | .kfree _ | .kwrite _ _ _ => 0

/-- What the pages that slot `i` maps in `t` held in `s`. -/
def KState.fresh (s t : KState) (i : ℕ) : ℕ → Bytes := fun v =>
  pageBytes s.mach.mem (pte2pa (pmap t.mach.mem (t.procs i).pagetable v))

/-- The rights that slot `j` has to virtual page `v`. -/
def RState.rights (r : RState) (j v : ℕ) : Option Perm := ((r.procs j).image v).map UPage.perm

/-- What a step does to the rights to the pages that processes have: an address space that is not
replaced gains or loses pages but changes the rights to none, a new one has the rights of its
parent, and one that replaces another has no copy-on-write page. -/
structure Rights (s t : KState) (op : Op) : Prop where
  kept : ∀ j, (s.procs j).state ≠ .unused → (t.procs j).pagetable = (s.procs j).pagetable → ∀ v,
    t.abs.rights j v = s.abs.rights j v ∨ t.abs.rights j v = none ∨ s.abs.rights j v = none
  born : ∀ j, (s.procs j).state = .unused → (t.procs j).state ≠ .unused →
    op = .fork op.slot ∧ ∀ v, t.abs.rights j v = s.abs.rights op.slot v
  moved : ∀ j, (s.procs j).state ≠ .unused → (t.procs j).pagetable ≠ (s.procs j).pagetable →
    ∀ v < npg (t.procs j).sz, has (pmap t.mach.mem (t.procs j).pagetable v) PTE_COW = false

/-- What a step of the system does. -/
structure Next [Layout] (s t : KState) (op : Op) : Prop where
  sys : ∃ L, Sys t L
  hist : s.mach.allocs <:+ t.mach.allocs
  rights : Rights s t op
  abs : 0 ∉ t.mach.allocs → s.abs.step (s.fresh t op.slot) op = some t.abs

section steps
variable {s t : KState} {m : Mach} {ps : ℕ → Proc} {op : Op} {i j : ℕ}

theorem Proc.abs_congr {m m' : Bytes} {p : Proc}
    (h : image m' (pmap m' p.pagetable) (npg p.sz) = image m (pmap m p.pagetable) (npg p.sz)) :
    p.abs m' = p.abs m := by
  unfold Proc.abs
  rw [h]

theorem abs_modify {g : RProc → RProc} (hj : ∀ j, j ≠ i → (ps j).abs m.mem = (s.procs j).abs s.mach.mem)
    (hi : (ps i).abs m.mem = g ((s.procs i).abs s.mach.mem)) :
    ({ s with mach := m, procs := ps } : KState).abs = s.abs.modifyProc i g := by
  have hps : (fun j => (ps j).abs m.mem) = update s.abs.procs i (g (s.abs.procs i)) := by
    funext j
    rcases eq_or_ne j i with rfl | hji
    · rw [update_self]
      exact hi
    · rw [update_of_ne hji]
      exact hj j hji
  unfold RState.modifyProc
  rw [← hps]
  rfl

theorem Rights.of_eq (h : ∀ j v, t.abs.rights j v = s.abs.rights j v)
    (hps : ∀ j, ((s.procs j).state = .unused → (t.procs j).state = .unused) ∧
      (t.procs j).pagetable = (s.procs j).pagetable) : Rights s t op :=
  ⟨fun j _ _ v => Or.inl (h j v), fun j hj hj' => absurd ((hps j).1 hj) hj', fun j _ hne =>
    absurd (hps j).2 hne⟩

theorem abs_image (s : KState) (j : ℕ) : (s.abs.procs j).image =
    image s.mach.mem (pmap s.mach.mem (s.procs j).pagetable) (npg (s.procs j).sz) := rfl

theorem abs_update {p : Proc} (g : RProc → RProc)
    (hother : ∀ j, j ≠ i → (update s.procs i p j).abs m.mem = (s.procs j).abs s.mach.mem)
    (hi : p.abs m.mem = g ((s.procs i).abs s.mach.mem)) :
    ({ s with mach := m, procs := update s.procs i p } : KState).abs = s.abs.modifyProc i g :=
  abs_modify hother (by rw [update_self]; exact hi)

theorem rights_eq (s : KState) (j v : ℕ) : s.abs.rights j v =
    (image s.mach.mem (pmap s.mach.mem (s.procs j).pagetable) (npg (s.procs j).sz) v).map
      UPage.perm := rfl

theorem rights_of_abs (h : (t.procs j).abs t.mach.mem = (s.procs j).abs s.mach.mem) (v : ℕ) :
    t.abs.rights j v = s.abs.rights j v := congrArg (fun p : RProc => (p.image v).map UPage.perm) h

theorem Proc.alike_adopt (i : ℕ) (initproc : Option ℕ) (p : Proc) : p.Alike (p.adopt i initproc) := by
  unfold Proc.adopt
  split_ifs
  · exact ⟨Iff.rfl, rfl, rfl, rfl⟩
  · exact Proc.Alike.refl _

theorem Proc.abs_adopt (m : Bytes) (i : ℕ) (initproc : Option ℕ) (p : Proc) :
    (p.adopt i initproc).abs m = (p.abs m).adopt i initproc := by
  unfold Proc.adopt RProc.adopt
  rcases Decidable.em (p.parent = some i) with hp | hp
  · rw [if_pos hp, if_pos (show (p.abs m).parent = some i from hp)]
    rfl
  · rw [if_neg hp, if_neg (show ¬ (p.abs m).parent = some i from hp)]

theorem image_clear (m m' : Bytes) (f : ℕ → Pte) {k n : ℕ} (hk : k ≤ n)
    (h : ∀ v < k, pageBytes m' (pte2pa (f v)) = pageBytes m (pte2pa (f v))) :
    image m' (clear f k (n - k)) k = dropPages (image m f n) k := by
  funext v
  unfold dropPages
  rcases Nat.lt_or_ge v k with hv | hv
  · rw [image_of_lt hv, if_pos hv, image_of_lt (by omega), clear_of_lt hv, h v hv]
  · rw [image_of_ge hv, if_neg (by omega)]

theorem Rights.of_slot {p : Proc} (hlive : (s.procs i).state ≠ .unused)
    (hother : ∀ j, j ≠ i → (update s.procs i p j).abs m.mem = (s.procs j).abs s.mach.mem)
    (hi : p.pagetable = (s.procs i).pagetable → ∀ v,
      (image m.mem (pmap m.mem p.pagetable) (npg p.sz) v).map UPage.perm = s.abs.rights i v ∨
      (image m.mem (pmap m.mem p.pagetable) (npg p.sz) v).map UPage.perm = none ∨
        s.abs.rights i v = none)
    (hmoved : p.pagetable ≠ (s.procs i).pagetable → ∀ v < npg p.sz,
      has (pmap m.mem p.pagetable v) PTE_COW = false) :
    Rights s { s with mach := m, procs := update s.procs i p } op := by
  refine ⟨fun j hj hpt v => ?_, fun j hj hj' => ?_, fun j hj hne => ?_⟩
  · rcases eq_or_ne j i with rfl | hji
    · rw [rights_eq { s with mach := m, procs := update s.procs j p }]
      dsimp only at hpt ⊢
      rw [update_self] at hpt ⊢
      exact hi hpt v
    · exact Or.inl (rights_of_abs (t := { s with mach := m, procs := update s.procs i p })
        (hother j hji) v)
  · rcases eq_or_ne j i with rfl | hji
    · exact absurd hj hlive
    · dsimp only at hj'
      rw [update_of_ne hji] at hj'
      exact absurd hj hj'
  · dsimp only at hne ⊢
    rcases eq_or_ne j i with rfl | hji
    · rw [update_self] at hne ⊢
      exact hmoved hne
    · rw [update_of_ne hji] at hne
      exact absurd rfl hne

theorem RState.modifyProc_self (r : RState) {i : ℕ} {g : RProc → RProc}
    (hg : g (r.procs i) = r.procs i) : r.modifyProc i g = r := by
  unfold RState.modifyProc
  rw [hg, update_eq_self]

theorem RState.byProc_of_runs {r : RState} {g : RState → Option RState} (hi : i < NPROC)
    (hrun : (r.procs i).state = .runnable) : r.byProc i g = g r := if_pos ⟨hi, hrun⟩

theorem live_of_runs (hrun : (s.procs i).state = .runnable) : (s.procs i).state ≠ .unused := by
  rw [hrun]
  simp

variable [Layout] {L L' : List ℕ}

theorem Next.same (h : Sys t L) (hist : s.mach.allocs <:+ t.mach.allocs) (habs : t.abs = s.abs)
    (hps : t.procs = s.procs) (hstep : 0 ∉ t.mach.allocs → s.abs.step (s.fresh t op.slot) op =
      some s.abs) : Next s t op := by
  refine ⟨⟨L, h⟩, hist, Rights.of_eq (fun j v => by rw [habs]) (fun j => ?_), fun h0 => ?_⟩
  · rw [hps]
    exact ⟨id, rfl⟩
  · rw [habs]
    exact hstep h0

/-! ### `exit` -/

/-- What `exit` leaves: the process is a zombie, and all memory is as it was. -/
structure Exited (s t : KState) (L : List ℕ) : Prop where
  sys : Sys t L
  mach : t.mach = s.mach
  unused : ∀ j, (t.procs j).state = .unused ↔ (s.procs j).state = .unused
  pages : ∀ j, (t.procs j).pagetable = (s.procs j).pagetable ∧ (t.procs j).sz = (s.procs j).sz

theorem Exited.rights (h : Exited s t L) (j v : ℕ) : t.abs.rights j v = s.abs.rights j v := by
  rw [rights_eq, rights_eq, h.mach, (h.pages j).1, (h.pages j).2]

theorem Exited.tables (h : Exited s t L) (j : ℕ) :
    ((s.procs j).state = .unused → (t.procs j).state = .unused) ∧ (t.procs j).pagetable =
      (s.procs j).pagetable := ⟨(h.unused j).mpr, (h.pages j).1⟩

theorem exit_spec {status : ℤ} (h : Sys s L) (hlive : (s.procs i).state ≠ .unused) :
    wp (exit i status) (fun _ t => Exited s t L ∧ s.abs.exit i status = some t.abs)
      (fun e => e = .initExiting ∧ s.initproc = some i) s := by
  simp only [exit, wp_bind, wp_get]
  rw [wp_ite]
  refine ⟨fun hinit => ?_, fun hinit => ?_⟩
  · rw [wp_throw]
    exact ⟨rfl, hinit⟩
  simp only [reparent, wp_bind, wp_modify, wp_modifyProc]
  have ha : ∀ j, (s.procs j).Alike (update (fun j => (s.procs j).adopt i s.initproc) i
      { (s.procs i).adopt i s.initproc with xstate := status, state := .zombie } j) := fun j => by
    have hother := Proc.alike_adopt i s.initproc (s.procs j)
    rcases eq_or_ne j i with rfl | hj
    · rw [update_self]
      exact ⟨⟨fun hz => absurd hz (by simp), fun hu => absurd hu hlive⟩, hother.pagetable,
        hother.trapframe, hother.sz⟩
    · rw [update_of_ne hj]
      exact hother
  refine ⟨⟨h.alike ha (fun j hu => ?_), rfl, fun j => (ha j).unused,
    fun j => ⟨(ha j).pagetable, (ha j).sz⟩⟩, ?_⟩
  · have hempty := h.empty j ((ha j).unused.mp hu)
    have hji : j ≠ i := by
      rintro rfl
      exact hlive ((ha j).unused.mp hu)
    rw [update_of_ne hji, hempty]
    rfl
  · have hr : s.abs.initproc ≠ some i := hinit
    unfold RState.exit
    rw [if_neg hr]
    refine congrArg some ?_
    unfold RState.modifyProc KState.abs
    dsimp only
    rw [RState.mk.injEq]
    refine ⟨funext (fun j => ?_), rfl, rfl⟩
    rcases eq_or_ne j i with rfl | hj
    · simp only [update_self, ← Proc.abs_adopt]
      rfl
    · simp [update_of_ne hj, Proc.abs_adopt]

/-- `usertrap` ends a process that faulted. -/
theorem usertrapKill_spec (h : Sys s L) (hlive : (s.procs i).state ≠ .unused) :
    wp (usertrapKill i) (fun _ t => Exited s t L ∧ s.abs.kill i = some t.abs)
      (fun e => e = .initExiting ∧ s.initproc = some i) s := by
  have ha : ∀ j, (s.procs j).Alike (update s.procs i { s.procs i with killed := true } j) := fun j => by
    rcases eq_or_ne j i with rfl | hj
    · rw [update_self]
      exact ⟨Iff.rfl, rfl, rfl, rfl⟩
    · rw [update_of_ne hj]
      exact Proc.Alike.refl _
  have h1 : Sys { s with procs := update s.procs i { s.procs i with killed := true } } L := by
    refine h.alike ha (fun j hu => ?_)
    have hji : j ≠ i := by
      rintro rfl
      exact hlive ((ha j).unused.mp hu)
    rw [update_of_ne hji] at hu ⊢
    exact h.empty j hu
  have habs : ({ s with procs := update s.procs i { s.procs i with killed := true } } :
      KState).abs = s.abs.modifyProc i (fun p => { p with killed := true }) := by
    refine abs_modify (m := s.mach) (fun j hj => ?_) ?_
    · rw [update_of_ne hj]
    · rw [update_self]
      rfl
  simp only [usertrapKill, wp_bind, wp_modifyProc]
  refine wp_mono (exit_spec (i := i) h1 ?_) ?_ (fun e he => he)
  · exact fun hu => hlive ((ha i).unused.mp hu)
  · rintro _ t ⟨hex, ht⟩
    refine ⟨⟨hex.sys, hex.mach, fun j => (hex.unused j).trans (ha j).unused, fun j => ?_⟩, ?_⟩
    · exact ⟨(hex.pages j).1.trans (ha j).pagetable, (hex.pages j).2.trans (ha j).sz⟩
    · rw [habs] at ht
      exact ht

/-! ### Writes to the memory of the process -/

/-- What a write by the process in slot `i` leaves; `g` is its image if `kalloc` did not fail. -/
structure Wrote (s : KState) (m : Mach) (i : ℕ) (g : Image) : Prop where
  sys : ∃ L, Sys { s with mach := m } L
  hist : s.mach.allocs <:+ m.allocs
  rights : ∀ j v, ({ s with mach := m } : KState).abs.rights j v = s.abs.rights j v
  abs : 0 ∉ m.allocs → ({ s with mach := m } : KState).abs =
    s.abs.modifyProc i (fun p => { p with image := g })

section
variable (h : Sys s L) (hlive : (s.procs i).state ≠ .unused)
include h hlive

theorem Sys.changed {f : ℕ → Pte} {g : Image}
    (hu : User m L' (s.rest i) (s.others i) (s.procs i).pagetable (s.procs i).trapframe
      (npg (s.procs i).sz) f)
    (hk : Keeps s.mach m (s.rest i + s.others i))
    (hperm : ∀ v < npg (s.procs i).sz, perm (f v) = perm (pmap s.mach.mem (s.procs i).pagetable v))
    (hshare : ∀ v < npg (s.procs i).sz, 0 < s.others i (pte2pa (f v)) →
      pte2pa (f v) = pte2pa (pmap s.mach.mem (s.procs i).pagetable v))
    (himg : 0 ∉ m.allocs → image m.mem f (npg (s.procs i).sz) = g) : Wrote s m i g := by
  have hmap := hu.uvm.tab.map
  have hother : ∀ j, j ≠ i → (s.procs j).abs m.mem = (s.procs j).abs s.mach.mem := fun j hj =>
    Proc.abs_congr (h.image_others (KState.frame_outside hk.frame) hj)
  refine ⟨⟨L', h.close hlive (fun j _ => Proc.Alike.refl _) h.empty hlive rfl hu
    (KState.frame_outside hk.frame) ?_⟩, hk.hist, fun j v => ?_, fun h0 => abs_modify hother ?_⟩
  · exact fun v hv hpos => ⟨v, hv, hshare v hv hpos⟩
  · rcases eq_or_ne j i with rfl | hj
    · rw [rights_eq, rights_eq, hmap]
      rcases Nat.lt_or_ge v (npg (s.procs j).sz) with hv | hv
      · rw [image_of_lt hv, image_of_lt hv, Option.map_some, Option.map_some, hperm v hv]
      · rw [image_of_ge hv, image_of_ge hv]
    · exact rights_of_abs (t := { s with mach := m }) (hother j hj) v
  · unfold Proc.abs
    rw [hmap, himg h0]

theorem Sys.touched {f : ℕ → Pte} {g : Image}
    (hu : User m L' (s.rest i) (s.others i) (s.procs i).pagetable (s.procs i).trapframe
      (npg (s.procs i).sz) f)
    (ht : Touched s.mach m (s.rest i) (s.others i) (npg (s.procs i).sz)
      (pmap s.mach.mem (s.procs i).pagetable) f)
    (himg : 0 ∉ m.allocs → image m.mem f (npg (s.procs i).sz) = g) : Wrote s m i g :=
  h.changed hlive hu ht.keeps ht.perm ht.shared himg

theorem Sys.wrote {f : ℕ → Pte} {g : Image}
    (hw : Written s.mach m L L' (s.rest i) (s.others i) (s.procs i).pagetable (s.procs i).trapframe
      (npg (s.procs i).sz) (pmap s.mach.mem (s.procs i).pagetable) f g) : Wrote s m i g :=
  h.touched hlive hw.user hw.touched hw.image

end

theorem Wrote.next {g : Image} (h : Wrote s m i g)
    (hstep : 0 ∉ m.allocs → s.abs.step (s.fresh { s with mach := m } op.slot) op =
      some (s.abs.modifyProc i (fun p => { p with image := g }))) : Next s { s with mach := m } op := by
  refine ⟨h.sys, h.hist, Rights.of_eq h.rights (fun j => ⟨id, rfl⟩), fun h0 => ?_⟩
  rw [h.abs h0]
  exact hstep h0

theorem store_spec (va : ℕ) (b : UInt8) (h : Sys s L) (hi : i < NPROC)
    (hrun : (s.procs i).state = .runnable) : wp (store i va b) (fun _ t => Next s t (.store i va b))
      (fun e => e = .initExiting ∧ s.initproc = some i) s := by
  have hlive := live_of_runs hrun
  simp only [store, wp_bind, wp_getProc, wp_vm]
  refine wp_post (storeFault_spec va b (h.focus hlive)) ?_
  rintro ok m ⟨L', f, hw, hok, -⟩
  rw [← abs_image s i] at hw hok
  have hwrote := h.wrote hlive hw
  have hstep : ∀ fresh, s.abs.step fresh (.store i va b) =
      ((s.abs.procs i).image.store va b).elim (s.abs.kill i)
        fun g => some (s.abs.modifyProc i (fun p => { p with image := g })) := fun fresh => by
    rw [RState.step, RState.byProc_of_runs (r := s.abs) hi hrun]
    cases (s.abs.procs i).image.store va b <;> rfl
  cases ok with
  | true =>
      rw [if_pos rfl, wp_pure]
      refine hwrote.next (fun h0 => ?_)
      obtain ⟨g, hg⟩ := Option.isSome_iff_exists.mp (hok h0).symm
      rw [hstep, hg, Option.getD_some, Option.elim_some]
  | false =>
      obtain ⟨L₁, hsys⟩ := hwrote.sys
      rw [if_neg (by simp)]
      refine wp_mono (usertrapKill_spec hsys hlive) ?_ (fun e he => he)
      rintro _ t ⟨hex, habs⟩
      refine ⟨⟨L₁, hex.sys⟩, by rw [hex.mach]; exact hwrote.hist, Rights.of_eq (fun j v => ?_)
        hex.tables, fun h0 => ?_⟩
      · exact (hex.rights j v).trans (hwrote.rights j v)
      · rw [hex.mach] at h0
        have hnone : (s.abs.procs i).image.store va b = none := by
          cases hs : (s.abs.procs i).image.store va b with
          | none => rfl
          | some g => exact absurd (hok h0) (by rw [hs]; simp)
        rw [hwrote.abs h0, hnone, Option.getD_none, RState.modifyProc_self s.abs rfl] at habs
        rw [hstep, hnone]
        exact habs

theorem load_spec (va : ℕ) (h : Sys s L) (hi : i < NPROC) (hrun : (s.procs i).state = .runnable) :
    wp (load i va) (fun r t => Next s t (.load i va) ∧ r = (s.abs.procs i).image.load va)
      (fun e => e = .initExiting ∧ s.initproc = some i) s := by
  have hlive := live_of_runs hrun
  have hstep : ∀ fresh, s.abs.step fresh (.load i va) =
      if ((s.abs.procs i).image.load va).isSome then some s.abs else s.abs.kill i := fun fresh => by
    rw [RState.step, RState.byProc_of_runs (r := s.abs) hi hrun]
  simp only [load, wp_bind, wp_getProc, wp_vm, wp_loadByte (h.focus hlive).uvm]
  rw [← abs_image s i]
  cases hb : (s.abs.procs i).image.load va with
  | some b =>
      simp only [wp_pure]
      refine ⟨Next.same h (List.suffix_refl _) rfl rfl (fun _ => ?_), trivial⟩
      rw [hstep, hb]
      rfl
  | none =>
      simp only [wp_bind, wp_pure]
      refine wp_mono (usertrapKill_spec h hlive) ?_ (fun e he => he)
      rintro _ t ⟨hex, habs⟩
      refine ⟨⟨⟨L, hex.sys⟩, by rw [hex.mach], Rights.of_eq hex.rights hex.tables, fun _ => ?_⟩,
        trivial⟩
      rw [hstep, hb]
      exact habs

theorem copyout_next (dstva : ℕ) (src : List UInt8) (h : Sys s L) (hi : i < NPROC)
    (hrun : (s.procs i).state = .runnable) :
    wp (vm (copyout (some (s.procs i).pagetable) (s.procs i).pagetable dstva src))
      (fun _ t => Next s t (.copyout i dstva src)) (fun _ => False) s := by
  have hlive := live_of_runs hrun
  rw [wp_vm]
  refine wp_post (copyout_spec (h.focus hlive) (Or.inl rfl)) ?_
  rintro r m ⟨L', f, hw, -⟩
  rw [← abs_image s i] at hw
  refine (h.wrote hlive hw).next (fun _ => ?_)
  rw [RState.step, RState.byProc_of_runs (r := s.abs) hi hrun]
  rfl

theorem copyin_next (srcva len : ℕ) (h : Sys s L) (hrun : (s.procs i).state = .runnable) :
    wp (vm (copyin (s.procs i).pagetable srcva len)) (fun r t => Next s t (.copyin i srcva len) ∧
      r = (s.abs.procs i).image.copyin srcva len) (fun _ => False) s := by
  rw [wp_vm, wp_copyin (h.focus (live_of_runs hrun)).uvm]
  exact ⟨Next.same h (List.suffix_refl _) rfl rfl (fun _ => rfl), rfl⟩

/-! ### `growproc` -/

theorem Sys.replace {p : Proc} {f : ℕ → Pte} (h : Sys s L) (hlive : (s.procs i).state ≠ .unused)
    (hlive' : p.state ≠ .unused) (htf : p.trapframe = (s.procs i).trapframe)
    (hu : User m L' (s.rest i) (s.others i) p.pagetable (s.procs i).trapframe (npg p.sz) f)
    (hk : Frame s.mach.mem m.mem (s.outside i + s.others i))
    (hshare : ∀ v < npg p.sz, 0 < s.others i (pte2pa (f v)) →
      ∃ w < npg (s.procs i).sz, pte2pa (f v) = pte2pa (pmap s.mach.mem (s.procs i).pagetable w)) :
    Sys { s with mach := m, procs := update s.procs i p } L' ∧
      ∀ j, j ≠ i → (update s.procs i p j).abs m.mem = (s.procs j).abs s.mach.mem := by
  have hi : update s.procs i p i = p := update_self _ _ _
  refine ⟨h.close hlive (f := f) (fun j hj => ?_) (fun j hj => ?_) ?_ ?_ ?_ hk ?_, fun j hj => ?_⟩
  · rw [update_of_ne hj]
    exact Proc.Alike.refl _
  · rcases eq_or_ne j i with rfl | hji
    · rw [hi] at hj
      exact absurd hj hlive'
    · rw [update_of_ne hji] at hj ⊢
      exact h.empty j hj
  · rwa [hi]
  · rwa [hi]
  · rwa [hi]
  · rwa [hi]
  · rw [update_of_ne hj]
    exact Proc.abs_congr (h.image_others hk hj)

theorem Sys.grown {sz : ℕ} {f : ℕ → Pte} (h : Sys s L) (hlive : (s.procs i).state ≠ .unused)
    (hle : (s.procs i).sz ≤ sz)
    (hu : Uvm m L' (s.rest i) (s.others i) (s.procs i).pagetable (s.procs i).trapframe (npg sz) f)
    (hg : Grown s.mach m L L' (pmap s.mach.mem (s.procs i).pagetable) f (npg (s.procs i).sz)
      (npg sz - npg (s.procs i).sz) (PTE_R ||| PTE_U ||| PTE_W))
    (hf : Frame s.mach.mem m.mem (s.rest i + (s.others i +
      span (pmap s.mach.mem (s.procs i).pagetable) 0 (npg (s.procs i).sz)))) :
    Sys { s with mach := m, procs := update s.procs i { s.procs i with sz := sz } } L' ∧
      ∀ j, j ≠ i → (update s.procs i { s.procs i with sz := sz } j).abs m.mem =
        (s.procs j).abs s.mach.mem := by
  have hfocus := h.focus hlive
  have hk : Frame s.mach.mem m.mem (s.rest i + s.others i) :=
    hf.mono (fun q hq => by simp only [Pi.add_apply] at hq ⊢; omega)
  have hmono := npg_mono hle
  have hnew : ∀ v, npg (s.procs i).sz ≤ v → v < npg sz → s.others i (pte2pa (f v)) = 0 := by
    intro v h1 h2
    have := hfocus.uvm.tab.own.acct.unowned _ (hg.new v h1 (by omega)).2.1
    simp only [Pi.add_apply] at this
    omega
  have hexcl : ∀ v < npg sz, has (f v) PTE_W = true → s.others i (pte2pa (f v)) = 0 := by
    intro v hv hW
    rcases Nat.lt_or_ge v (npg (s.procs i).sz) with hv' | hv'
    · rw [hg.old v (Or.inl hv')] at hW ⊢
      exact hfocus.excl v hv' hW
    · exact hnew v hv' hv
  have hshare : ∀ v < npg sz, 0 < s.others i (pte2pa (f v)) →
      ∃ w < npg (s.procs i).sz, pte2pa (f v) = pte2pa (pmap s.mach.mem (s.procs i).pagetable w) := by
    intro v hv hpos
    rcases Nat.lt_or_ge v (npg (s.procs i).sz) with hv' | hv'
    · exact ⟨v, hv', by rw [hg.old v (Or.inl hv')]⟩
    · rw [hnew v hv' hv] at hpos
      exact absurd hpos (lt_irrefl 0)
  exact h.replace (p := { s.procs i with sz := sz }) hlive hlive rfl ⟨hu, hexcl⟩
    (KState.frame_outside hk) hshare

theorem growproc_up (n : ℤ) (hn : n > 0) (h : Sys s L) (hi : i < NPROC)
    (hrun : (s.procs i).state = .runnable) : wp (growproc i n) (fun _ t => Next s t (.growproc i n))
      (fun _ => False) s := by
  have hlive := live_of_runs hrun
  have hx : XPerm PTE_W := ⟨by decide, by decide⟩
  have hfocus := h.focus hlive
  simp only [growproc, wp_bind, wp_getProc, if_pos hn, wp_vm]
  refine wp_post (uvmalloc_spec (s.procs i).sz ((s.procs i).sz + n.toNat) hx hfocus.uvm) ?_
  rintro r m ⟨hh, (⟨hlt, rfl, rfl⟩ | ⟨hle, rfl, L', f, hu, hg, hf, -, -⟩ |
    ⟨hle, rfl, ⟨L', hu, -⟩, h0, hf, -⟩)⟩
  · exact absurd hlt (by omega)
  · rw [if_neg (by omega), wp_bind, wp_modifyProc, wp_pure]
    have hmono := npg_mono hle
    obtain ⟨hsys, hother⟩ := h.grown hlive hle hu hg hf
    have hmap : pmap m.mem (s.procs i).pagetable = f := hu.tab.map
    refine ⟨⟨L', hsys⟩, hh, Rights.of_slot hlive hother (fun _ v => ?_) (fun hne => absurd rfl hne),
      fun h0 => ?_⟩
    · rcases Nat.lt_or_ge v (npg (s.procs i).sz) with hv | hv
      · left
        dsimp only
        rw [rights_eq, hmap, image_of_lt hv, image_of_lt (by omega), hg.old v (Or.inl hv)]
        rfl
      · right
        right
        rw [rights_eq, image_of_ge hv]
        rfl
    · rw [RState.step, RState.byProc_of_runs (r := s.abs) hi hrun, RState.growproc]
      rw [abs_update _ hother]
      dsimp only
      rw [if_pos hn]
      unfold Proc.abs
      dsimp only
      rw [hmap, image_grown hx hmono hg hf (fun v _ _ => ?_)]
      unfold KState.fresh
      dsimp only [Op.slot]
      rw [update_self]
      dsimp only
      rw [hmap]
  · rw [if_pos rfl, wp_pure]
    have hk : Keeps s.mach m (s.rest i + s.others i) :=
      ⟨hf.mono (fun q hq => by simp only [Pi.add_apply] at hq ⊢; omega), hh⟩
    have hwrote : Wrote s m i (s.abs.procs i).image :=
      h.touched hlive ⟨hu, hfocus.excl⟩ (Touched.of_keeps hk) (fun hn => absurd h0 hn)
    exact hwrote.next (fun hn => absurd h0 hn)

theorem growproc_down (n : ℤ) (hn : n < 0) (h : Sys s L) (hi : i < NPROC)
    (hrun : (s.procs i).state = .runnable) : wp (growproc i n) (fun _ t => Next s t (.growproc i n))
      (fun _ => False) s := by
  have hlive := live_of_runs hrun
  have hfocus := h.focus hlive
  have hn' : ¬ n > 0 := by omega
  simp only [growproc, wp_bind, wp_getProc, if_neg hn', if_pos hn, wp_vm, wp_modifyProc, wp_pure]
  refine wp_post (uvmdealloc_spec (s.procs i).sz _ hfocus.uvm) ?_
  rintro r m ⟨hr, L', hu, hk, hal, -⟩
  have hle : r ≤ (s.procs i).sz := by omega
  have hmono := npg_mono hle
  have hkeep : Keeps s.mach m (s.rest i + s.others i) :=
    hk.mono (fun q hq => by simp only [Pi.add_apply] at hq ⊢; omega)
  have hmap := hu.tab.map
  have hexcl : ∀ v < npg r, has (clear (pmap s.mach.mem (s.procs i).pagetable) (npg r)
      (npg (s.procs i).sz - npg r) v) PTE_W = true →
        s.others i (pte2pa (clear (pmap s.mach.mem (s.procs i).pagetable) (npg r)
          (npg (s.procs i).sz - npg r) v)) = 0 := by
    intro v hv
    rw [clear_of_lt hv]
    exact hfocus.excl v (by omega)
  have hshare : ∀ v < npg r, 0 <
      s.others i (pte2pa (clear (pmap s.mach.mem (s.procs i).pagetable) (npg r)
        (npg (s.procs i).sz - npg r) v)) → ∃ w < npg (s.procs i).sz,
        pte2pa (clear (pmap s.mach.mem (s.procs i).pagetable) (npg r) (npg (s.procs i).sz - npg r)
          v) = pte2pa (pmap s.mach.mem (s.procs i).pagetable w) := by
    intro v hv _
    exact ⟨v, by omega, by rw [clear_of_lt hv]⟩
  have hbytes : ∀ v < npg r, pageBytes m.mem (pte2pa (pmap s.mach.mem (s.procs i).pagetable v)) =
      pageBytes s.mach.mem (pte2pa (pmap s.mach.mem (s.procs i).pagetable v)) := by
    intro v hv
    have hpos := span_pos (f := pmap s.mach.mem (s.procs i).pagetable) hv
    exact pageBytes_same (hk.frame _ (by simp only [Pi.add_apply]; omega))
  have himg := image_clear s.mach.mem m.mem (pmap s.mach.mem (s.procs i).pagetable) hmono hbytes
  obtain ⟨hsys, hother⟩ := h.replace (p := { s.procs i with sz := r }) hlive hlive rfl ⟨hu, hexcl⟩
    (KState.frame_outside hkeep.frame) hshare
  refine ⟨⟨L', hsys⟩, hkeep.hist, Rights.of_slot hlive hother (fun _ v => ?_)
    (fun hne => absurd rfl hne), fun _ => ?_⟩
  · dsimp only
    rw [hmap, himg, rights_eq]
    unfold dropPages
    split_ifs
    · exact Or.inl rfl
    · exact Or.inr (Or.inl rfl)
  · rw [RState.step, RState.byProc_of_runs (r := s.abs) hi hrun, RState.growproc]
    rw [abs_update _ hother]
    dsimp only
    rw [if_neg hn', if_pos hn]
    unfold Proc.abs
    dsimp only
    rw [hmap, himg, hr]

theorem growproc_spec (n : ℤ) (h : Sys s L) (hi : i < NPROC) (hrun : (s.procs i).state = .runnable) :
    wp (growproc i n) (fun _ t => Next s t (.growproc i n)) (fun _ => False) s := by
  rcases lt_trichotomy n 0 with hn | rfl | hn
  · exact growproc_down n hn h hi hrun
  · simp only [growproc, wp_bind, wp_getProc, gt_iff_lt, lt_self_iff_false, if_false, wp_pure]
    refine Next.same h (List.suffix_refl _) rfl rfl (fun _ => ?_)
    rw [RState.step, RState.byProc_of_runs (r := s.abs) hi hrun, RState.growproc]
    simp only [gt_iff_lt, lt_self_iff_false, if_false]
    rw [RState.modifyProc_self s.abs rfl]
  · exact growproc_up n hn h hi hrun

end steps

end Xv6Cow.Kernel

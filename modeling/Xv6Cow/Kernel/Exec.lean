import Xv6Cow.Kernel.Loaded
import Xv6Cow.Kernel.Tables

/-! # `exec`: building a new image

`exec` builds the new address space beside the old one.  `Building s₀ s …` is the state of this
work: the table is an address space none of whose pages anybody else maps, no page of it is
copy-on-write, and, as long as `kalloc` has not failed, the pages still on the free list hold what
they held in `s₀`, where the system call began.  The bytes of a new page are those it had when it
was taken, and with a `fresh` that gives them each part of `exec` that gets through does to the
image what the reference does; if `kalloc` has never failed they are the bytes of `s₀`, which is
what `Stale` says. -/

namespace Xv6Cow.Kernel

open Vm
open Function (update update_self update_of_ne)

/-- `fresh` gives the bytes that the pages of `[k, n)` held in `m`. -/
def Stale (m : Bytes) (f : ℕ → Pte) (k n : ℕ) (fresh : ℕ → Bytes) : Prop :=
  ∀ v, k ≤ v → v < n → fresh v = pageBytes m (pte2pa (f v))

/-- `fresh` gives the bytes `init` for the pages of `[k, n)`. -/
def Agrees (init : ℕ → Bytes) (k n : ℕ) (fresh : ℕ → Bytes) : Prop :=
  ∀ v, k ≤ v → v < n → fresh v = init v

section entries
variable {x g : Pte}

theorem has_new {p : ℕ} (hg : Vm.Small g) : has (pa2pte p ||| (PTE_R ||| PTE_U ||| x) ||| PTE_V) g =
    (has (PTE_R ||| PTE_U) g || has x g || has PTE_V g) := by
  rw [has_or, has_mk hg, has_or]

theorem perm_new (hx : XPerm x) (p : ℕ) : perm (pa2pte p ||| (PTE_R ||| PTE_U ||| x) ||| PTE_V) =
    permOf x := by
  have h1 : has (PTE_R ||| PTE_U) PTE_W = false ∧ has PTE_V PTE_W = false := by decide
  have h2 : has (PTE_R ||| PTE_U) PTE_X = false ∧ has PTE_V PTE_X = false := by decide
  have h3 : has (PTE_R ||| PTE_U) PTE_COW = false ∧ has PTE_V PTE_COW = false := by decide
  have h4 : has (PTE_R ||| PTE_U) PTE_R = true ∧ has (PTE_R ||| PTE_U) PTE_U = true := by decide
  unfold perm permOf
  rw [has_new (by decide), has_new (by decide), has_new (by decide), has_new (by decide),
    has_new (by decide), hx.2, h1.1, h1.2, h2.1, h2.2, h3.1, h3.2, h4.1, h4.2]
  simp

/-- The new pages of an address space, as the reference adds them. -/
theorem image_grown {s t : Mach} {L L' : List ℕ} {X U : ℕ → ℕ} {k n' : ℕ} {f f' : ℕ → Pte}
    {fresh : ℕ → Bytes} (hx : XPerm x) (hk : k ≤ n')
    (hg : Grown s t L L' f f' k (n' - k) (PTE_R ||| PTE_U ||| x))
    (hf : Frame s.mem t.mem (X + (U + span f 0 k))) (hfresh : Stale s.mem f' k n' fresh) :
    image t.mem f' n' = addPages fresh (image s.mem f k) k (n' - k) (permOf x) := by
  funext v
  unfold addPages
  rcases Nat.lt_or_ge v k with hv | hv
  · have hpos := span_pos (f := f) hv
    rw [image_of_lt (by omega), if_neg (by omega), image_of_lt hv, hg.old v (Or.inl hv),
      pageBytes_same (hf (pte2pa (f v)) (by simp only [Pi.add_apply]; omega))]
  · rcases Nat.lt_or_ge v n' with hv' | hv'
    · obtain ⟨h1, h2, h3⟩ := hg.new v hv (by omega)
      have hperm : perm (f' v) = permOf x := by
        rw [h1]
        exact perm_new hx _
      rw [image_of_lt hv', if_pos (by omega), hfresh v hv hv', hperm, pageBytes_same h3]
    · rw [image_of_ge hv', if_neg (by omega), image_of_ge hv]

end entries

theorem xperm_flags2perm (flags : ℕ) : XPerm (flags2perm flags) := by
  unfold flags2perm
  split_ifs <;> exact ⟨by decide, by decide⟩

/-- A segment that passed the checks of `exec` lies within the pages that `uvmalloc` made. -/
theorem segment_fits (sz : ℕ) {vaddr filesz memsz : ℕ} (hv : vaddr < 256 ^ 8) (hm : memsz < 256 ^ 8)
    (hle : ¬ memsz < filesz) (hwrap : ¬ (vaddr + memsz) % 2 ^ 64 < vaddr) (hal : vaddr % PGSIZE = 0) :
    (vaddr + 0) / PGSIZE + (filesz % 2 ^ 32 + (PGSIZE - 1)) / PGSIZE ≤
      npg (max sz ((vaddr + memsz) % 2 ^ 64)) := by
  have hfile : filesz % 2 ^ 32 ≤ filesz := Nat.mod_le _ _
  have hsum : vaddr + memsz ≤ (vaddr + memsz) % 2 ^ 64 := by omega
  refine le_trans ?_ (npg_mono (hsum.trans (le_max_right _ _)))
  unfold npg PGSIZE at *
  omega

section bytes
variable {m : Bytes} {f f' : ℕ → Pte} {j k k' n n' : ℕ} {init init' fresh : ℕ → Bytes}

theorem Stale.mono (h : Stale m f' k n' fresh) (hk : k ≤ k') (hn : n ≤ n')
    (hf : ∀ v < n, f' v = f v) : Stale m f k' n fresh := fun v h1 h2 => by
  rw [← hf v h2]
  exact h v (by omega) (by omega)

/-- The bytes `init` below page `j`, and `init'` from there on. -/
def join (j : ℕ) (init init' : ℕ → Bytes) : ℕ → Bytes := fun v => if v < j then init v else init' v

theorem Agrees.lower (h : Agrees (join j init init') k n fresh) (hj : j ≤ n) : Agrees init k j fresh :=
  fun v h1 h2 => (h v h1 (by omega)).trans (if_pos h2)

theorem Agrees.upper (h : Agrees (join j init init') k n fresh) (hj : k ≤ j) : Agrees init' j n fresh :=
  fun v h1 h2 => (h v (by omega) h2).trans (if_neg (by omega))

theorem Stale.join (h : Stale m f k j init) (h' : Stale m f j n init') :
    Stale m f k n (join j init init') := by
  intro v h1 h2
  unfold Kernel.join
  split_ifs with hv
  · exact h v h1 hv
  · exact h' v (by omega) h2

end bytes

theorem strAt_same {m m' : Bytes} {p : ℕ} (h : SameOn m m' p) : strAt m' p = strAt m p := by
  have hread : m'.read p PGSIZE = m.read p PGSIZE :=
    List.map_congr_left (fun i hi => h _ (by omega) (by have := List.mem_range.mp hi; omega))
  rw [strAt, strAt, hread]

theorem perm_clear_user (e : Pte) : perm (e &&& ~~~PTE_U) = { perm e with u := false } := by
  unfold perm
  rw [has_clear_of_disjoint (by decide), has_clear_of_disjoint (by decide),
    has_clear_of_disjoint (by decide), has_clear_of_disjoint (by decide), has_clear_self]

section building
variable [Layout] {s₀ s t : Mach} {L₀ L L' : List ℕ} {X U : ℕ → ℕ} {a tf n v : ℕ} {f f' : ℕ → Pte}
  {cur : Option ℕ} {file : List UInt8}

/-- An address space that `exec` is building since `s₀`. -/
structure Building (s₀ s : Mach) (L₀ L : List ℕ) (X U : ℕ → ℕ) (a tf n : ℕ) (f : ℕ → Pte) : Prop where
  uvm : Uvm s L X U a tf n f
  nocow : ∀ v < n, has (f v) PTE_COW = false
  only : ∀ v < n, U (pte2pa (f v)) = 0
  keeps : Keeps s₀ s (X + U)
  drawn : 0 ∉ s.allocs → Drawn s₀ s L₀ L
  taken : 0 ∉ s.allocs → ∀ v < n, pte2pa (f v) ∈ L₀

theorem Building.user (h : Building s₀ s L₀ L X U a tf n f) : User s L X U a tf n f :=
  ⟨h.uvm, fun v hv _ => h.only v hv⟩

theorem Building.next (h : Building s₀ s L₀ L X U a tf n f) (hu : Uvm t L' X U a tf n f)
    (hk : Keeps s t (X + U)) (hd : 0 ∉ t.allocs → Drawn s t L L') : Building s₀ t L₀ L' X U a tf n f :=
  ⟨hu, h.nocow, h.only, h.keeps.trans hk,
    fun h0 => (h.drawn (fun hs => h0 (hk.hist.subset hs))).trans (hd h0),
    fun h0 => h.taken (fun hs => h0 (hk.hist.subset hs))⟩

theorem Building.copyout {dstva : ℕ} {src : List UInt8} (h : Building s₀ s L₀ L X U a tf n f) :
    wp (copyout cur a dstva src)
      (fun r t => (∃ L', Building s₀ t L₀ L' X U a tf n f) ∧ s.allocs <:+ t.allocs ∧
        ((r < 0 ∧ ((image s.mem f n).copyout dstva src).1 < 0) ∨
          (¬ r < 0 ∧ (image s.mem f n).copyout dstva src = (r, image t.mem f n))))
            (fun _ => False) s := by
  refine wp_post (copyout_nocow h.user h.nocow) ?_
  rintro r t ⟨L', hu, hd, hk, hr⟩
  refine ⟨⟨L', h.next hu hk (fun _ => hd)⟩, hk.hist, ?_⟩
  rcases hr with ⟨rfl, hr⟩ | ⟨rfl, hr⟩
  · exact Or.inl ⟨by decide, by rw [hr]; decide⟩
  · exact Or.inr ⟨by decide, hr⟩

/-- `uvmalloc` for the new image: the new pages hold what they held before. -/
theorem Building.alloc (oldsz newsz : ℕ) {x : Pte} (hx : XPerm x)
    (h : Building s₀ s L₀ L X U a tf (npg oldsz) f) :
      wp (uvmalloc a oldsz newsz x) (fun r t => s.allocs <:+ t.allocs ∧
        ((r = 0 ∧ 0 ∈ t.allocs ∧ ∃ L', Building s₀ t L₀ L' X U a tf (npg oldsz) f) ∨
          (r = max oldsz newsz ∧ ∃ L' f' init, Building s₀ t L₀ L' X U a tf (npg r) f' ∧
            (∀ v < npg oldsz, f' v = f v) ∧ (∀ v, npg oldsz ≤ v → v < npg r → has (f' v) PTE_U = true) ∧
          (0 ∉ t.allocs → Stale s₀.mem f' (npg oldsz) (npg r) init) ∧
          ∀ fresh, Agrees init (npg oldsz) (npg r) fresh →
            rUvmalloc fresh (image s.mem f (npg oldsz)) oldsz newsz x = (r, image t.mem f' (npg r)))))
      (fun _ => False) s := by
  refine wp_post (uvmalloc_spec oldsz newsz hx h.uvm) ?_
  rintro r t ⟨hh, (⟨hlt, rfl, rfl⟩ | ⟨hle, rfl, L', f', hu, hg, hf, -, -⟩ |
    ⟨hle, rfl, ⟨L', hu, -⟩, h0, hf, -⟩)⟩
  · refine ⟨hh, Or.inr ⟨(Nat.max_eq_left (Nat.le_of_lt hlt)).symm, L, f, fun _ _ => 0, h,
      fun _ _ => rfl, fun v h1 h2 => by omega, fun _ v h1 h2 => by omega, fun fresh _ => ?_⟩⟩
    rw [rUvmalloc, if_pos hlt]
  · have hkeep : Keeps s t (X + U) :=
      ⟨hf.mono (fun p hp => by simp only [Pi.add_apply] at hp ⊢; omega), hh⟩
    have hmono := npg_mono hle
    have hs : 0 ∉ t.allocs → 0 ∉ s.allocs := fun h0 hs => h0 (hh.subset hs)
    refine ⟨hh, Or.inr ⟨(Nat.max_eq_right hle).symm, L', f', fun v => pageBytes s.mem (pte2pa (f' v)),
      ⟨hu, fun v hv => ?_, fun v hv => ?_, h.keeps.trans hkeep,
      fun h0 => (h.drawn (hs h0)).trans hg.drawn, fun h0 v hv => ?_⟩, fun v hv => hg.old v (Or.inl hv),
      fun v h1 h2 => ?_, fun h0 v h1 h2 => ?_, fun fresh hfresh => ?_⟩⟩
    · rcases Nat.lt_or_ge v (npg oldsz) with hv' | hv'
      · rw [hg.old v (Or.inl hv')]
        exact h.nocow v hv'
      · rw [(hg.new v hv' (by omega)).1, has_new (by decide), hx.2]
        rfl
    · rcases Nat.lt_or_ge v (npg oldsz) with hv' | hv'
      · rw [hg.old v (Or.inl hv')]
        exact h.only v hv'
      · have := h.uvm.tab.own.acct.unowned _ (hg.new v hv' (by omega)).2.1
        simp only [Pi.add_apply] at this
        omega
    · rcases Nat.lt_or_ge v (npg oldsz) with hv' | hv'
      · rw [hg.old v (Or.inl hv')]
        exact h.taken (hs h0) v hv'
      · exact (h.drawn (hs h0) _ (hg.new v hv' (by omega)).2.1).1
    · rw [(hg.new v h1 (by omega)).1, has_new (by decide)]
      rfl
    · exact pageBytes_same (h.drawn (hs h0) _ (hg.new v h1 (by omega)).2.1).2
    · rw [rUvmalloc, if_neg (by omega), image_grown hx hmono hg hf hfresh]
  · have hkeep : Keeps s t (X + U) :=
      ⟨hf.mono (fun p hp => by simp only [Pi.add_apply] at hp ⊢; omega), hh⟩
    exact ⟨hh, Or.inl ⟨rfl, h0, L', h.next hu hkeep (fun hn => absurd h0 hn)⟩⟩

/-! ### `loadseg` -/

/-- The loop of `loadseg` on pages that are mapped. -/
theorem loadsegFrom_spec {va offset sz k i : ℕ} (hva : va % PGSIZE = 0) (hi : i % PGSIZE = 0)
    (hk : (va + i) / PGSIZE + k ≤ n) (h : Building s₀ s L₀ L X U a tf n f)
    (hU : ∀ v < n, has (f v) PTE_U = true) :
      wp (loadsegFrom a va file offset sz k i) (fun r t => Building s₀ t L₀ L X U a tf n f ∧
        t.allocs = s.allocs ∧ rLoadseg va file offset sz k i (image s.mem f n) =
          (r, image t.mem f n)) (fun _ => False) s := by
  induction k generalizing s i with
  | zero =>
      simp only [loadsegFrom, rLoadseg, wp_pure]
      exact ⟨h, trivial, trivial⟩
  | succ k ih =>
      have hv : (va + i) / PGSIZE < n := by omega
      have hpa : userPa f (va + i) = pte2pa (f ((va + i) / PGSIZE)) := by
        rw [userPa, hU _ hv, if_pos rfl]
      have hlen : 0 + (readi file ((offset + i) % 2 ^ 32) (min (sz - i) PGSIZE)).length ≤ PGSIZE := by
        unfold readi
        split_ifs
        · exact Nat.zero_le _
        · rw [Nat.zero_add, List.length_take]
          omega
      obtain ⟨g1, g2, g3, g4⟩ := h.uvm.put hv (h.only _ hv) 0 _ hlen
      rw [Nat.add_zero] at g1 g2 g3 g4
      have hb := h.next g1 ⟨g2, List.suffix_refl _⟩ (fun _ => g3)
      have hne : pte2pa (f ((va + i) / PGSIZE)) ≠ 0 := h.uvm.user_ne_zero (hU _ hv)
      simp only [loadsegFrom, rLoadseg, wp_bind, wp_walkaddr h.uvm, hpa, if_neg hne, wp_memput]
      rw [wp_ite]
      refine ⟨fun hshort => ?_, fun hfull => ?_⟩
      · rw [wp_pure, if_pos hshort]
        exact ⟨hb, rfl, by rw [g4]⟩
      · rw [if_neg hfull]
        have hnext : (va + (i + PGSIZE)) / PGSIZE + k ≤ n := by
          unfold PGSIZE at *
          omega
        refine wp_post (ih (by rw [Nat.add_mod_right]; exact hi) hnext hb) ?_
        rintro r t ⟨h1, h2, h3⟩
        rw [g4] at h3
        exact ⟨h1, h2, h3⟩

/-! ### The program headers -/

/-- What a part of `exec` that starts at size `sz` leaves: the result `r` is that of the reference
`g`, unless the part failed because `kalloc` did. -/
def Built (s₀ s : Mach) (L₀ : List ℕ) (X U : ℕ → ℕ) (a tf sz : ℕ) (f : ℕ → Pte)
    (g : (ℕ → Bytes) → Bool × ℕ × Image) (r : Bool × ℕ) (t : Mach) : Prop :=
  s.allocs <:+ t.allocs ∧ sz ≤ r.2 ∧ ∃ L' f' init, Building s₀ t L₀ L' X U a tf (npg r.2) f' ∧
    (∀ v < npg sz, f' v = f v) ∧ (∀ v, npg sz ≤ v → v < npg r.2 → has (f' v) PTE_U = true) ∧
    (0 ∉ t.allocs → Stale s₀.mem f' (npg sz) (npg r.2) init) ∧
    ∀ fresh, (r.1 = true ∨ 0 ∉ t.allocs) → Agrees init (npg sz) (npg r.2) fresh →
      g fresh = (r.1, r.2, image t.mem f' (npg r.2))

theorem Building.built {sz : ℕ} {c : Bool} (h : Building s₀ s L₀ L X U a tf (npg sz) f) :
    Built s₀ s L₀ X U a tf sz f (fun _ => (c, sz, image s.mem f (npg sz))) (c, sz) s :=
  ⟨List.suffix_refl _, le_rfl, L, f, fun _ _ => 0, h, fun _ _ => rfl, fun _ h1 h2 =>
    absurd h2 (Nat.not_lt.mpr h1), fun _ _ h1 h2 => absurd h2 (Nat.not_lt.mpr h1), fun _ _ _ => rfl⟩

theorem execSeg_spec {ph : List UInt8} {sz : ℕ} (h : Building s₀ s L₀ L X U a tf (npg sz) f)
    (hU : ∀ v < npg sz, has (f v) PTE_U = true) :
    wp (execSeg a file ph sz) (Built s₀ s L₀ X U a tf sz f
      (fun fresh => rExecSeg fresh file ph sz (image s.mem f (npg sz)))) (fun _ => False) s := by
  simp only [execSeg, rExecSeg]
  rw [wp_ite]
  refine ⟨fun hbad => ?_, fun hgood => ?_⟩
  · simp only [if_pos hbad, wp_pure]
    exact h.built
  · simp only [if_neg hgood, wp_bind]
    simp only [not_or] at hgood
    have hfit := segment_fits sz (field_lt ph 16 8) (field_lt ph 40 8) hgood.1 hgood.2.1
      (not_not.mp hgood.2.2)
    refine wp_post (h.alloc sz _ (xperm_flags2perm _)) ?_
    rintro r t ⟨hh, (⟨rfl, h0, L', hb⟩ | ⟨rfl, L', f', init, hb, hold, hnew, hinit, himg⟩)⟩
    · rw [if_pos rfl, wp_pure]
      exact ⟨hh, le_rfl, L', f, fun _ _ => 0, hb, fun _ _ => rfl, fun v h1 h2 =>
        absurd h2 (Nat.not_lt.mpr h1), fun _ v h1 h2 => absurd h2 (Nat.not_lt.mpr h1),
          fun _ hn => absurd h0 (hn.resolve_left Bool.false_ne_true)⟩
    · have hmono : npg sz ≤ npg (max sz ((field ph 16 8 + field ph 40 8) % 2 ^ 64)) :=
        npg_mono (le_max_left _ _)
      rw [wp_ite]
      refine ⟨fun hz => ?_, fun hnz => ?_⟩
      · -- `uvmalloc` to size 0 is taken for a failure
        have hsz : max sz ((field ph 16 8 + field ph 40 8) % 2 ^ 64) = sz := by omega
        rw [hsz] at hb hnew hinit himg hz
        rw [wp_pure]
        refine ⟨hh, le_rfl, L', f', init, hb, hold, hnew, hinit, fun fresh _ hfresh => ?_⟩
        simp only [himg fresh hfresh, if_pos hz]
      · rw [wp_bind]
        have hU' : ∀ v < npg (max sz ((field ph 16 8 + field ph 40 8) % 2 ^ 64)), has (f' v) PTE_U =
            true := fun v hv => by
          rcases Nat.lt_or_ge v (npg sz) with hv' | hv'
          · rw [hold v hv']
            exact hU v hv'
          · exact hnew v hv' hv
        refine wp_post (loadsegFrom_spec (not_not.mp hgood.2.2) (Nat.zero_mod _) hfit hb hU') ?_
        rintro r t' ⟨hb', hal, hr⟩
        rw [wp_pure]
        refine ⟨by rw [hal]; exact hh, le_max_left _ _, L', f', init, hb', hold, hnew,
          by rw [hal]; exact hinit, fun fresh _ hfresh => ?_⟩
        simp only [himg fresh hfresh, if_neg hnz, hr]

theorem execSegs_spec {cnt off sz : ℕ} (h : Building s₀ s L₀ L X U a tf (npg sz) f)
    (hU : ∀ v < npg sz, has (f v) PTE_U = true) :
    wp (execSegs a file cnt off sz)
      (Built s₀ s L₀ X U a tf sz f (fun fresh => rExecSegs fresh file cnt off sz
        (image s.mem f (npg sz))))
      (fun _ => False) s := by
  induction cnt generalizing s L off sz f with
  | zero =>
      simp only [execSegs, rExecSegs, wp_pure]
      exact h.built
  | succ cnt ih =>
      simp only [execSegs, rExecSegs]
      rw [wp_ite]
      refine ⟨fun hshort => ?_, fun hfull => ?_⟩
      · simp only [if_pos hshort, wp_pure]
        exact h.built
      · simp only [if_neg hfull]
        rw [wp_ite]
        refine ⟨fun hskip => ?_, fun hload => ?_⟩
        · simp only [if_pos hskip]
          exact ih h hU
        · simp only [if_neg hload, wp_bind]
          refine wp_post (execSeg_spec h hU) ?_
          rintro ⟨ok, sz₁⟩ t ⟨hh, hle, L', f', init, hb, hold, hnew, hinit, himg⟩
          dsimp only at hle hb hnew hinit himg
          cases ok with
          | false =>
              simp only [Bool.false_eq_true, if_false, wp_pure]
              refine ⟨hh, hle, L', f', init, hb, hold, hnew, hinit, fun fresh hn hfresh => ?_⟩
              simp [himg fresh hn hfresh]
          | true =>
              have hU' : ∀ v < npg sz₁, has (f' v) PTE_U = true := fun v hv => by
                rcases Nat.lt_or_ge v (npg sz) with hv' | hv'
                · rw [hold v hv']
                  exact hU v hv'
                · exact hnew v hv' hv
              simp only [if_true]
              refine wp_post (ih hb hU') ?_
              rintro ⟨ok, sz₂⟩ t' ⟨hh', hle', L'', f'', init', hb', hold', hnew', hinit', himg'⟩
              dsimp only at hle' hb' hnew' hinit' himg'
              -- the pages of this header hold what they held when it was loaded, the others what
              -- they held later
              refine ⟨hh.trans hh', hle.trans hle', L'', f'', join (npg sz₁) init init', hb',
                fun v hv => (hold' v (lt_of_lt_of_le hv (npg_mono hle))).trans (hold v hv),
                fun v h1 h2 => ?_,
                fun h0 => ?_, fun fresh hn hfresh => ?_⟩
              · rcases Nat.lt_or_ge v (npg sz₁) with hv | hv
                · rw [hold' v hv]
                  exact hnew v h1 hv
                · exact hnew' v hv h2
              · have hfirst := hinit (fun hn => h0 (hh'.subset hn))
                exact (hfirst.mono le_rfl le_rfl (fun v hv => (hold' v hv).symm)).join (hinit' h0)
              · simp only [himg fresh (Or.inl rfl) (hfresh.lower (npg_mono hle')), if_true]
                exact himg' fresh hn (hfresh.upper (npg_mono hle))

/-! ### The arguments -/

/-- The loop of `exec` over the argument strings; the strings are in pages that somebody owns. -/
theorem execArgs_spec {stackbase sp : ℕ} {argv ustack : List ℕ}
    (h : Building s₀ s L₀ L X U a tf n f) (hargv : ∀ p ∈ argv, 0 < X p) :
    wp (execArgs cur a stackbase argv sp ustack) (fun r t => (∃ L', Building s₀ t L₀ L' X U a tf n f) ∧
      s.allocs <:+ t.allocs ∧ rExecArgs stackbase (argv.map (strAt s₀.mem)) sp ustack
        (image s.mem f n) = r.map (fun x => (x.1, x.2, image t.mem f n))) (fun _ => False) s := by
  induction argv generalizing s L sp ustack with
  | nil =>
      simp only [execArgs, wp_pure]
      exact ⟨⟨L, h⟩, List.suffix_refl _, rfl⟩
  | cons arg argv ih =>
      have hstr : strAt s.mem arg = strAt s₀.mem arg := strAt_same (h.keeps.frame arg (by
        have := hargv arg List.mem_cons_self
        simp only [Pi.add_apply]
        omega))
      simp only [execArgs, List.map_cons, rExecArgs]
      rw [wp_ite]
      refine ⟨fun hfull => ?_, fun hroom => ?_⟩
      · simp only [if_pos hfull, wp_pure]
        exact ⟨⟨L, h⟩, List.suffix_refl _, rfl⟩
      · simp only [if_neg hroom, wp_bind, wp_get, hstr]
        rw [wp_ite]
        refine ⟨fun hlow => ?_, fun hok => ?_⟩
        · simp only [if_pos hlow, wp_pure]
          exact ⟨⟨L, h⟩, List.suffix_refl _, rfl⟩
        · simp only [if_neg hok, wp_bind]
          refine wp_post h.copyout ?_
          rintro r t ⟨⟨L', hb⟩, hh, (⟨hneg, hr⟩ | ⟨hpos, hr⟩)⟩
          · rw [if_pos hneg, wp_pure, if_pos hr]
            exact ⟨⟨L', hb⟩, hh, rfl⟩
          · rw [if_neg hpos, hr, if_neg hpos]
            refine wp_post (ih hb (fun p hp => hargv p (List.mem_cons_of_mem _ hp))) ?_
            rintro r' t' ⟨hb', hh', hr'⟩
            exact ⟨hb', hh.trans hh', hr'⟩

theorem execStack_spec {sz : ℕ} {argv : List ℕ} (h : Building s₀ s L₀ L X U a tf n f)
    (hargv : ∀ p ∈ argv, 0 < X p) :
      wp (execStack cur a sz argv) (fun r t => (∃ L', Building s₀ t L₀ L' X U a tf n f) ∧
        s.allocs <:+ t.allocs ∧ rStack sz (argv.map (strAt s₀.mem)) (image s.mem f n) =
          r.map (fun x => (x.1, x.2, image t.mem f n)))
      (fun _ => False) s := by
  simp only [execStack, rStack, wp_bind]
  refine wp_post (execArgs_spec h hargv) ?_
  rintro r t ⟨⟨L', hb⟩, hh, hr⟩
  rw [hr]
  cases r with
  | none =>
      simp only [wp_pure, Option.map_none]
      exact ⟨⟨L', hb⟩, hh, trivial⟩
  | some x =>
      obtain ⟨sp, ustack⟩ := x
      simp only [Option.map_some]
      rw [wp_ite]
      refine ⟨fun hlow => ?_, fun hok => ?_⟩
      · rw [wp_pure, if_pos hlow]
        exact ⟨⟨L', hb⟩, hh, rfl⟩
      · rw [wp_bind, if_neg hok]
        refine wp_post hb.copyout ?_
        rintro r t' ⟨hb', hh', (⟨hneg, hr'⟩ | ⟨hpos, hr'⟩)⟩
        · rw [if_pos hneg, wp_pure, if_pos hr']
          exact ⟨hb', hh.trans hh', rfl⟩
        · rw [if_neg hpos, wp_pure, hr', if_neg hpos]
          exact ⟨hb', hh.trans hh', rfl⟩

/-! ### The whole image -/

theorem Building.clear (h : Building s₀ s L₀ L X U a tf n f) (hv : v < n) :
    wp (uvmclear a (v * PGSIZE))
      (fun _ t => ∃ f', Building s₀ t L₀ L X U a tf n f' ∧ t.allocs = s.allocs ∧
        (∀ w, pte2pa (f' w) = pte2pa (f w)) ∧ image t.mem f' n = guardPage (image s.mem f n) v)
          (fun _ => False) s := by
  refine wp_post (uvmclear_spec h.uvm hv) ?_
  rintro _ t ⟨hu, hf, hd, hal⟩
  have hpa : ∀ w, pte2pa (update f v (f v &&& ~~~PTE_U) w) = pte2pa (f w) := fun w => by
    rcases eq_or_ne w v with rfl | hw
    · rw [update_self, pte2pa_clear (by decide)]
    · rw [update_of_ne hw]
  have hkeep : Keeps s t (X + U) := ⟨hf.mono (fun p hp => by simp only [Pi.add_apply] at hp ⊢; omega), by
    rw [hal]⟩
  refine ⟨_, ⟨hu, fun w hw => ?_, fun w hw => ?_, h.keeps.trans hkeep, fun h0 => ?_, fun h0 w hw =>
    ?_⟩, hal, hpa, ?_⟩
  · rcases eq_or_ne w v with rfl | hwv
    · rw [update_self, has_clear_of_disjoint (by decide)]
      exact h.nocow w hw
    · rw [update_of_ne hwv]
      exact h.nocow w hw
  · rw [hpa]
    exact h.only w hw
  · rw [hal] at h0
    exact (h.drawn h0).trans hd
  · rw [hpa]
    rw [hal] at h0
    exact h.taken h0 w hw
  · funext w
    have hbytes : ∀ w < n, pageBytes t.mem (pte2pa (f w)) = pageBytes s.mem (pte2pa (f w)) :=
        fun w hw => by
      have hpos := span_pos (f := f) hw
      exact pageBytes_same (hf _ (by simp only [Pi.add_apply]; omega))
    unfold guardPage
    rcases eq_or_ne w v with rfl | hwv
    · rw [update_self, image_of_lt hv, image_of_lt hv, hpa, hbytes w hv, update_self]
      simp [perm_clear_user]
    · rw [update_of_ne hwv]
      rcases Nat.lt_or_ge w n with hw | hw
      · rw [image_of_lt hw, image_of_lt hw, hpa, hbytes w hw, update_of_ne hwv]
      · rw [image_of_ge hw, image_of_ge hw]

/-- The part of `exec` that comes before the arguments: the new page table and its size, or none
after `bad`. -/
def execSpace (trapframe : ℕ) (file : List UInt8) : VmM (Option (ℕ × ℕ)) := do
  let pagetable ← procPagetable trapframe
  if pagetable = 0 then pure none
  else do
    let (ok, sz) ← execSegs pagetable file (phnum file) (phoff file) 0
    if !ok then do
      procFreepagetable pagetable sz
      pure none
    else do
      let sz := pgroundup sz
      let sz1 ← uvmalloc pagetable sz (sz + (USERSTACK + 1) * PGSIZE) PTE_W
      if sz1 = 0 then do
        procFreepagetable pagetable sz
        pure none
      else do
        uvmclear pagetable (sz1 - (USERSTACK + 1) * PGSIZE)
        pure (some (pagetable, sz1))

/-- The part of `exec` that puts the arguments into the new address space. -/
def execFill (cur : Option ℕ) (argv : List ℕ) : Option (ℕ × ℕ) → VmM (Option NewImage)
  | none => pure none
  | some (pagetable, sz1) => do
      match ← execStack cur pagetable sz1 argv with
      | none => do
          procFreepagetable pagetable sz1
          pure none
      | some (sp, argc) => pure (some ⟨pagetable, sz1, sp, argc⟩)

theorem execImage_eq (cur : Option ℕ) (tf : ℕ) (file : List UInt8) (argv : List ℕ) :
    execImage cur tf file argv = execSpace tf file >>= execFill cur argv := by
  simp only [execImage, execSpace, phnum, phoff, bind_assoc]
  refine bind_congr (fun pagetable => ?_)
  split_ifs
  · rw [pure_bind, execFill]
  simp only [bind_assoc]
  refine bind_congr (fun x => ?_)
  split_ifs
  · simp [execFill]
  simp only [bind_assoc]
  refine bind_congr (fun sz1 => ?_)
  split_ifs
  · simp [execFill]
  rw [bind_assoc]
  refine bind_congr (fun _ => ?_)
  rw [pure_bind]
  rfl

/-- What `exec` has before the arguments: an address space that is ready for them, or the owners it
began with. -/
def Prepared (s t : Mach) (L : List ℕ) (X U : ℕ → ℕ) (tf : ℕ) (file : List UInt8) : Option (ℕ × ℕ) → Prop
  | none => (∃ L', Own t L' X U) ∧ (0 ∉ t.allocs → ∃ fresh, ∀ args, rExecImage fresh file args = none)
  | some (a, sz) =>
      ∃ L' f init, Building s t L L' X U a tf (npg sz) f ∧
        (0 ∉ t.allocs → Stale s.mem f 0 (npg sz) init) ∧
      ∀ fresh, Agrees init 0 (npg sz) fresh → NewSpace fresh file sz (image t.mem f (npg sz))

theorem Building.bad (sz : ℕ) (h : Building s₀ s L₀ L X U a tf (npg sz) f) :
    wp (procFreepagetable a sz)
      (fun _ t => Keeps s₀ t (X + U) ∧ (∃ L', Own t L' X U) ∧ t.allocs = s.allocs)
        (fun _ => False) s := by
  refine wp_post (procFreepagetable_spec sz h.uvm) ?_
  rintro _ t ⟨L', ho, hf, hal⟩
  exact ⟨h.keeps.trans ⟨hf, by rw [hal]⟩, ⟨L', ho⟩, hal⟩

theorem execSpace_spec (tf : ℕ) (file : List UInt8) (h : Own s L X U) :
    wp (execSpace tf file) (fun r t => Keeps s t (X + U) ∧ Prepared s t L X U tf file r)
      (fun _ => False) s := by
  have h00 : npg 0 = 0 := by decide
  simp only [execSpace, wp_bind]
  refine wp_post (procPagetable_spec tf h) ?_
  rintro r t ⟨hk, (⟨rfl, h0, -, -, ho⟩ | ⟨hr, L₁, hu, hd, -⟩)⟩
  · rw [if_pos rfl, wp_pure]
    exact ⟨hk, ho, fun hn => absurd h0 hn⟩
  rw [if_neg hr, wp_bind]
  have hb : Building s t L L₁ X U r tf (npg 0) (bareMap tf) := by
    rw [h00]
    exact ⟨hu, fun v hv => absurd hv (Nat.not_lt_zero v), fun v hv => absurd hv (Nat.not_lt_zero v),
      hk, fun _ => hd, fun _ v hv => absurd hv (Nat.not_lt_zero v)⟩
  have himg0 : image t.mem (bareMap tf) (npg 0) = fun _ => none := by
    rw [h00]
    rfl
  refine wp_post (execSegs_spec hb
    (fun v hv => by rw [h00] at hv; exact absurd hv (Nat.not_lt_zero v))) ?_
  rintro ⟨ok, sz⟩ t₁ ⟨-, -, L₂, f, init, hb1, -, -, hinit, himg⟩
  rw [himg0, h00] at himg
  rw [h00] at hinit
  dsimp only at hb1 hinit himg
  cases ok with
  | false =>
      simp only [Bool.not_false, if_true, wp_bind, wp_pure]
      refine wp_post (hb1.bad sz) ?_
      rintro _ t₂ ⟨hk2, ho, hal⟩
      refine ⟨hk2, ho, fun hn => ⟨init, fun args => ?_⟩⟩
      rw [hal] at hn
      have hsegs := himg init (Or.inr hn) (fun _ _ _ => rfl)
      rw [phnum, phoff] at hsegs
      simp only [rExecImage, hsegs]
  | true =>
      have hlt : sz < 2 ^ 63 := lt_trans hb1.uvm.sz_lt (by norm_num)
      have hb2 : Building s t₁ L L₂ X U r tf (npg (npg sz * PGSIZE)) f := by rwa [npg_mul]
      simp only [Bool.not_true, Bool.false_eq_true, if_false, pgroundup_eq hlt, wp_bind]
      refine wp_post (hb2.alloc _ (npg sz * PGSIZE + (USERSTACK + 1) * PGSIZE)
        (x := PTE_W) ⟨by decide, by decide⟩) ?_
      rintro sz1 t₂ ⟨hh, (⟨rfl, h0, L₃, hb3⟩ | ⟨rfl, L₃, f', init', hb3, hold, -, hinit', hgrow⟩)⟩
      · simp only [if_true, wp_bind, wp_pure]
        refine wp_post (hb3.bad _) ?_
        rintro _ t₃ ⟨hk3, ho, hal⟩
        exact ⟨hk3, ho, fun hn => absurd h0 (by rwa [← hal])⟩
      have hmax : max (npg sz * PGSIZE) (npg sz * PGSIZE + (USERSTACK + 1) * PGSIZE) =
          (npg sz + 2) * PGSIZE := by
        unfold USERSTACK PGSIZE
        omega
      rw [hmax, npg_mul] at hb3
      rw [npg_mul] at hold
      rw [hmax, npg_mul, npg_mul] at hinit' hgrow
      have hguard : (npg sz + 2) * PGSIZE - (USERSTACK + 1) * PGSIZE = npg sz * PGSIZE := by
        unfold USERSTACK PGSIZE
        omega
      have hnz : ¬ (npg sz + 2) * PGSIZE = 0 := by
        unfold PGSIZE
        omega
      rw [hmax, if_neg hnz, wp_bind, hguard]
      refine wp_post (hb3.clear (show npg sz < npg sz + 2 by omega)) ?_
      rintro _ t₃ ⟨f'', hb4, hal, hpa, hclear⟩
      rw [wp_pure]
      refine ⟨hb4.keeps, L₃, f'', join (npg sz) init init', ?_, fun hn => ?_, fun fresh hfresh => ?_⟩
      · rwa [npg_mul]
      · rw [hal] at hn
        rw [npg_mul]
        have hfirst := (hinit (fun hs => hn (hh.subset hs))).mono le_rfl le_rfl
          (fun v hv => (hold v hv).symm)
        intro v h1 h2
        rw [hpa]
        exact hfirst.join (hinit' hn) v h1 h2
      · rw [npg_mul] at hfresh ⊢
        refine ⟨sz, _, himg fresh (Or.inl rfl) (hfresh.lower (by omega)), hlt, rfl, ?_⟩
        have hadd := hgrow fresh (hfresh.upper (Nat.zero_le _))
        rw [rUvmalloc_eq, hmax, npg_mul, npg_mul, Prod.mk.injEq] at hadd
        rw [hclear, ← hadd.2, show npg sz + 2 - npg sz = 2 by omega]

/-- What `exec` has when it commits or gives up: a new image, the reference's for the bytes that its
pages held when they were taken, or the owners it began with. -/
def Ready (s t : Mach) (L : List ℕ) (X U : ℕ → ℕ) (tf : ℕ) (file : List UInt8)
    (args : List (List UInt8)) : Option NewImage → Prop
  | none => (∃ L', Own t L' X U) ∧ (0 ∉ t.allocs → ∃ fresh, rExecImage fresh file args = none)
  | some new => ∃ L' f init, Building s t L L' X U new.pagetable tf (npg new.sz) f ∧
      (0 ∉ t.allocs → Stale s.mem f 0 (npg new.sz) init) ∧ ∀ fresh,
        Agrees init 0 (npg new.sz) fresh → ∃ g, NewSpace fresh file new.sz g ∧
          rStack new.sz args g = some (new.sp, new.argc, image t.mem f (npg new.sz))

/-- There are the file and the memory for everything but the arguments. -/
def HasSpace (s : Mach) (tf : ℕ) (file : List UInt8) : Prop :=
  ∃ x t, execSpace tf file s = .ok (some x, t)

/-- `exec` from `proc_pagetable` on: given everything else, it fails exactly if the arguments do not
fit. -/
theorem execImage_spec {argv : List ℕ} (h : Own s L X U) (hargv : ∀ p ∈ argv, 0 < X p) :
    wp (execImage cur tf file argv)
      (fun r t => Keeps s t (X + U) ∧ Ready s t L X U tf file (argv.map (strAt s.mem)) r ∧
        (Passed (argv.map (strAt s.mem)) →
          (r.isSome ↔ HasSpace s tf file ∧ ArgsFit (argv.map (strAt s.mem)))))
      (fun _ => False) s := by
  obtain ⟨x, t, hok, hk, hprep⟩ := wp_returns (execSpace_spec tf file h)
  rw [execImage_eq, wp_bind, wp_iff_of_ok hok]
  cases x with
  | none =>
      obtain ⟨ho, hnone⟩ := hprep
      rw [execFill, wp_pure]
      refine ⟨hk, ⟨ho, fun hn => ?_⟩, fun _ => ?_⟩
      · obtain ⟨fresh, hfresh⟩ := hnone hn
        exact ⟨fresh, hfresh _⟩
      · simp [HasSpace, hok]
  | some x =>
      obtain ⟨a, sz⟩ := x
      obtain ⟨L₁, f, init, hb, hinit, hspace⟩ := hprep
      rw [execFill, wp_bind]
      refine wp_post (execStack_spec hb hargv) ?_
      rintro r t' ⟨⟨L₂, hb'⟩, hh, hstack⟩
      have hnew := hspace init (fun _ _ _ => rfl)
      have hfits : Passed (argv.map (strAt s.mem)) →
          (r.isSome ↔ HasSpace s tf file ∧ ArgsFit (argv.map (strAt s.mem))) := by
        intro hpassed
        have hhas : HasSpace s tf file := ⟨_, _, hok⟩
        rw [rStack_eq hnew.stack hpassed] at hstack
        split_ifs at hstack with hfit
        · cases r with
          | none => simp at hstack
          | some x => simp [hhas, hfit]
        · cases r with
          | none => simp [hfit]
          | some x => simp at hstack
      cases r with
      | none =>
          simp only [wp_bind, wp_pure]
          refine wp_post (hb'.bad sz) ?_
          rintro _ t'' ⟨hk'', ho, hal⟩
          refine ⟨hk'', ⟨ho, fun _ => ⟨init, ?_⟩⟩, hfits⟩
          rw [hnew.rExecImage, hstack]
          rfl
      | some x =>
          rw [wp_pure]
          exact ⟨hb'.keeps, ⟨L₂, f, init, hb', fun hn => hinit (fun hs => hn (hh.subset hs)),
            fun fresh hfresh => ⟨_, hspace fresh hfresh, hstack⟩⟩, hfits⟩

end building

end Xv6Cow.Kernel

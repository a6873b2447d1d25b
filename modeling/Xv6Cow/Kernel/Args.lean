import Mathlib.Data.List.TakeWhile
import Xv6Cow.Kernel.Exec

/-! # The argument strings of `exec`

`sys_exec` reads the argument strings of the process into pages of its own, one page for each, and
frees them when `exec` is done.  While it runs, the pages are exclusive owners beside everything
else, `pages argv`; the strings in them are those the reference reads from the image. -/

namespace Xv6Cow.Kernel

open Vm

/-- One exclusive owner for each page of a list. -/
def pages (l : List ℕ) : ℕ → ℕ := (l.map one).sum

section lists
variable {p q : ℕ} {l : List ℕ}

@[simp] theorem pages_nil : pages [] = 0 := rfl

@[simp] theorem pages_cons : pages (p :: l) = one p + pages l := by
  simp only [pages, List.map_cons, List.sum_cons]

theorem pages_concat : pages (l ++ [p]) = pages l + one p := by
  simp [pages]

theorem pages_pos (h : p ∈ l) : 0 < pages l p := by
  induction l with
  | nil => exact absurd h List.not_mem_nil
  | cons q l ih =>
      rw [pages_cons, Pi.add_apply]
      rcases List.mem_cons.mp h with rfl | h
      · rw [one_self]
        omega
      · have := ih h
        omega

theorem mem_of_pages_pos (h : 0 < pages l p) : p ∈ l := by
  induction l with
  | nil => exact absurd h (lt_irrefl 0)
  | cons q l ih =>
      rw [pages_cons, Pi.add_apply] at h
      rcases eq_or_ne p q with rfl | hpq
      · exact List.mem_cons_self
      · rw [one_of_ne hpq, Nat.zero_add] at h
        exact List.mem_cons_of_mem _ (ih h)

theorem pages_eq_count (l : List ℕ) (p : ℕ) : pages l p = l.count p := by
  induction l with
  | nil => rfl
  | cons q l ih =>
      rw [pages_cons, Pi.add_apply, ih, List.count_cons, one_apply, Nat.add_comm]
      simp [eq_comm (a := p)]

theorem pages_erase (h : p ∈ l) : pages l = pages (l.erase p) + one p := by
  induction l with
  | nil => exact absurd h List.not_mem_nil
  | cons q l ih =>
      rcases eq_or_ne q p with rfl | hqp
      · rw [List.erase_cons_head, pages_cons, add_comm]
      · rw [List.erase_cons_tail (by simpa using hqp), pages_cons, pages_cons,
          ih (List.mem_of_ne_of_mem (Ne.symm hqp) h), add_assoc]

end lists

/-! ### Strings in memory -/

section strings
variable {m : Bytes} {p : ℕ} {str bs : List UInt8}

theorem read_add (m : Bytes) (p k n : ℕ) : m.read p (k + n) = m.read p k ++ m.read (p + k) n := by
  simp [Bytes.read, List.range_add, Nat.add_assoc]

theorem read_write (m : Bytes) (p : ℕ) (bs : List UInt8) : (m.write p bs).read p bs.length = bs := by
  refine List.ext_getElem (by simp [Bytes.read]) (fun i h1 h2 => ?_)
  simp only [Bytes.read, List.getElem_map, List.getElem_range]
  rw [Bytes.write_of_mem (by omega) (by omega), Nat.add_sub_cancel_left, List.getD_eq_getElem bs 0 h2]

theorem strAt_write (h0 : 0 ∉ str) (hlen : str.length + 1 ≤ PGSIZE) :
    strAt (m.write p (str ++ [0])) p = str := by
  have hsplit : PGSIZE = (str ++ [0]).length + (PGSIZE - (str.length + 1)) := by
    rw [List.length_append, List.length_singleton]
    omega
  rw [strAt, hsplit, read_add, read_write, List.append_assoc, List.takeWhile_append_of_pos]
  · rw [List.cons_append, List.takeWhile_cons_of_neg (by decide), List.append_nil]
  · intro b hb
    have hne : b ≠ 0 := by
      rintro rfl
      exact h0 hb
    simpa using hne

theorem length_takeWhile_lt (h : 0 ∈ bs) : (bs.takeWhile (fun b => b != 0)).length < bs.length := by
  induction bs with
  | nil => exact absurd h List.not_mem_nil
  | cons b bs ih =>
      rcases eq_or_ne b 0 with rfl | hb
      · rw [List.takeWhile_cons_of_neg (by decide)]
        simp
      · rw [List.takeWhile_cons_of_pos (by simpa using hb), List.length_cons, List.length_cons]
        have := ih (List.mem_of_ne_of_mem (Ne.symm hb) h)
        omega

/-- What `copyinstr` copies: at most `max` bytes, and a whole string if it succeeds. -/
theorem copyinstrFrom_str (g : Image) (fuel srcva max : ℕ) :
    (g.copyinstrFrom fuel srcva max).2.length ≤ max ∧
      (¬ (g.copyinstrFrom fuel srcva max).1 < 0 →
        ∃ str, (g.copyinstrFrom fuel srcva max).2 = str ++ [0] ∧ 0 ∉ str) := by
  induction fuel generalizing srcva max with
  | zero => cases max <;> simp [Image.copyinstrFrom]
  | succ fuel ih =>
      cases max with
      | zero => simp [Image.copyinstrFrom]
      | succ max =>
          simp only [Image.copyinstrFrom]
          cases hb : g.user (pgrounddown srcva) with
          | none => simp
          | some b =>
              simp only
              have hlen : (b.read (srcva - pgrounddown srcva)
                  (min (PGSIZE - (srcva - pgrounddown srcva)) (max + 1))).length ≤ max + 1 := by
                rw [Bytes.read, List.length_map, List.length_range]
                omega
              split_ifs with hz
              · refine ⟨?_, fun _ => ⟨_, rfl, fun h0 => ?_⟩⟩
                · have := length_takeWhile_lt hz
                  simp only [List.length_append, List.length_singleton]
                  omega
                · simpa using List.mem_takeWhile_imp h0
              · obtain ⟨h1, h2⟩ := ih (pgrounddown srcva + PGSIZE)
                  (max + 1 - min (PGSIZE - (srcva - pgrounddown srcva)) (max + 1))
                refine ⟨?_, fun hr => ?_⟩
                · simp only [List.length_append]
                  rw [Bytes.read, List.length_map, List.length_range]
                  omega
                · obtain ⟨str, h3, h4⟩ := h2 hr
                  refine ⟨b.read (srcva - pgrounddown srcva)
                    (min (PGSIZE - (srcva - pgrounddown srcva)) (max + 1)) ++ str, ?_, ?_⟩
                  · simp [h3]
                  · rw [List.mem_append, not_or]
                    exact ⟨hz, h4⟩

theorem copyinstr_str (g : Image) (srcva max : ℕ) : (g.copyinstr srcva max).2.length ≤ max ∧
    (¬ (g.copyinstr srcva max).1 < 0 → ∃ str, (g.copyinstr srcva max).2 = str ++ [0] ∧ 0 ∉ str) :=
  copyinstrFrom_str g max srcva max

/-- The strings that the loop of `sys_exec` fetches: there is a place left, and each string ends
within a page. -/
theorem rFetchArgs_passed {rp : RProc} {uargv k : ℕ} {args args' : List (List UInt8)}
    (h : rFetchArgs rp uargv k args = some args')
    (hargs : ∀ str ∈ args, str.length + 1 ≤ PGSIZE ∧ 0 ∉ str) : args'.length < args.length + k ∧
      ∀ str ∈ args', str.length + 1 ≤ PGSIZE ∧ 0 ∉ str := by
  induction k generalizing args with
  | zero => simp [rFetchArgs] at h
  | succ k ih =>
      simp only [rFetchArgs] at h
      cases ha : rFetchaddr rp ((uargv + 8 * args.length) % 2 ^ 64) with
      | none => simp only [ha, reduceCtorEq] at h
      | some uarg =>
          simp only [ha] at h
          split_ifs at h with hend hneg
          · obtain rfl := Option.some.inj h
            exact ⟨by omega, hargs⟩
          · obtain ⟨hlen, hstr⟩ := copyinstr_str rp.image uarg PGSIZE
            obtain ⟨str, hbs, hz⟩ := hstr hneg
            rw [hbs, List.length_append, List.length_singleton] at hlen
            rw [hbs, List.dropLast_concat] at h
            have hmore : ∀ x ∈ args ++ [str], x.length + 1 ≤ PGSIZE ∧ 0 ∉ x := by
              intro x hx
              rcases List.mem_append.mp hx with hx | hx
              · exact hargs x hx
              · obtain rfl := List.mem_singleton.mp hx
                exact ⟨hlen, hz⟩
            obtain ⟨h1, h2⟩ := ih h hmore
            rw [List.length_append, List.length_singleton] at h1
            exact ⟨by omega, h2⟩

end strings

section args
variable [Layout] {s t : Mach} {L L' : List ℕ} {X U : ℕ → ℕ} {tf n p addr : ℕ} {f : ℕ → Pte}
    {pr : Proc} {rp : RProc}

/-! ### `fetchaddr`, `fetchstr` and the loops of `sys_exec` -/

theorem wp_fetchaddr {Q : Option ℕ → Mach → Prop} {E : Panic → Prop}
    (h : Uvm s L X U pr.pagetable tf n f) (hsz : rp.sz = pr.sz) (himg : rp.image = image s.mem f n) :
    wp (fetchaddr pr addr) Q E s ↔ Q (rFetchaddr rp addr) s := by
  unfold fetchaddr rFetchaddr
  rw [hsz, himg]
  split_ifs with hbad
  · rw [wp_pure]
  · simp only [wp_bind, wp_copyin h]
    split_ifs <;> rw [wp_pure]

/-- What the loop that fetches the arguments leaves: the process is as it was, the pages hold the
strings of the reference, and `kalloc` gave no others. -/
structure Fetched (s t : Mach) (L L' : List ℕ) (X U : ℕ → ℕ) (a tf n : ℕ) (f : ℕ → Pte)
    (argv argv' : List ℕ) : Prop where
  uvm : Uvm t L' (X + pages argv') U a tf n f
  drawn : Drawn s t L L'
  image : image t.mem f n = image s.mem f n
  keeps : Keeps s t (X + pages argv + U)
  table : Frame s.mem t.mem (nodes s.mem 2 a)
  fetched : argv ⊆ argv'
  took : ∃ new, t.allocs = new ++ s.allocs ∧ ∀ p ∈ new, p ≠ 0 → p ∈ argv'

theorem Fetched.refl {a : ℕ} {argv : List ℕ} (h : Uvm s L (X + pages argv) U a tf n f) :
    Fetched s s L L X U a tf n f argv argv :=
  ⟨h, Drawn.refl _ _, rfl, Keeps.refl _ _, Frame.refl _ _, List.Subset.refl _, [], rfl,
    fun _ hp => absurd hp List.not_mem_nil⟩

theorem Fetched.trans {u : Mach} {a : ℕ} {L'' argv argv' : List ℕ}
    (h : Fetched s t L L' X U a tf n f argv (argv ++ [p]))
    (h' : Fetched t u L' L'' X U a tf n f (argv ++ [p]) argv') :
    Fetched s u L L'' X U a tf n f argv argv' := by
  have hnodes : nodes t.mem 2 a = nodes s.mem 2 a := nodes_congr h.table
  have htable := h'.table
  rw [hnodes] at htable
  obtain ⟨new, hnew, hin⟩ := h.took
  obtain ⟨new', hnew', hin'⟩ := h'.took
  refine ⟨h'.uvm, h.drawn.trans h'.drawn, h'.image.trans h.image,
    h.keeps.trans (h'.keeps.mono (fun q hq => ?_)), h.table.trans htable,
    fun q hq => h'.fetched (h.fetched hq), new' ++ new, ?_, fun q hq h0 => ?_⟩
  · rw [pages_concat]
    simp only [Pi.add_apply] at hq ⊢
    omega
  · rw [hnew', hnew, List.append_assoc]
  · rcases List.mem_append.mp hq with hq | hq
    · exact hin' q hq h0
    · exact h'.fetched (hin q hq h0)

theorem fetchArgs_spec {uargv k : ℕ} {argv : List ℕ} (h : Uvm s L (X + pages argv) U pr.pagetable tf n f)
    (hsz : rp.sz = pr.sz) (himg : rp.image = image s.mem f n) :
    wp (fetchArgs pr uargv k argv) (fun r t =>
      (∃ L', Fetched s t L L' X U pr.pagetable tf n f argv r.2 ∧ L.length ≤ L'.length + k) ∧
      (r.1 = true ∨ 0 ∉ t.allocs → rFetchArgs rp uargv k (argv.map (strAt s.mem)) =
        if r.1 then some (r.2.map (strAt t.mem)) else none) ∧
      (0 ∈ t.allocs → 0 ∈ s.allocs ∨ L.length < k)) (fun _ => False) s := by
  induction k generalizing s L argv with
  | zero =>
      simp only [fetchArgs, rFetchArgs, wp_pure]
      exact ⟨⟨L, Fetched.refl h, le_rfl⟩, fun _ => rfl, Or.inl⟩
  | succ k ih =>
      simp only [fetchArgs, rFetchArgs, wp_bind, wp_fetchaddr h hsz himg, List.length_map]
      cases ha : rFetchaddr rp ((uargv + 8 * argv.length) % 2 ^ 64) with
      | none =>
          simp only [wp_pure]
          exact ⟨⟨L, Fetched.refl h, Nat.le_add_right _ _⟩, fun _ => rfl, Or.inl⟩
      | some uarg =>
          simp only
          rw [wp_ite]
          refine ⟨fun hend => ?_, fun hmore => ?_⟩
          · simp only [if_pos hend, wp_pure]
            exact ⟨⟨L, Fetched.refl h, Nat.le_add_right _ _⟩, fun _ => rfl, Or.inl⟩
          simp only [if_neg hmore, wp_bind]
          refine wp_post (kalloc_spec h.tab.own) ?_
          rintro page t ⟨hm, hal, (⟨rfl, rfl, hown⟩ | ⟨L₁, rfl, hown⟩)⟩
          · have h0 : 0 ∈ t.allocs := by
              rw [hal]
              exact List.mem_cons_self
            simp only [if_true, wp_pure]
            refine ⟨⟨[], ⟨?_, fun q hq => absurd hq List.not_mem_nil, by rw [hm], ?_,
              by rw [hm]; exact Frame.refl _ _, List.Subset.refl _, [0], hal,
              fun q hq h0 => absurd (List.mem_singleton.mp hq) h0⟩, Nat.zero_le _⟩,
              fun hn => absurd h0 (hn.resolve_left Bool.false_ne_true), fun _ => Or.inr (Nat.succ_pos k)⟩
            · exact (h.congr hown (by rw [hm]; exact Frame.refl _ _)).1
            · exact .of_kalloc hm hal
          · have hp : Page page := hown.page (by simp [one_self])
            have hu : Uvm t L₁ (X + pages argv + one page) U pr.pagetable tf n f := by
              refine (h.congr ?_ (by rw [hm]; exact Frame.refl _ _)).1
              rwa [add_right_comm] at hown
            simp only [if_neg hp.ne_zero, wp_bind, wp_copyinstr hu, wp_memput]
            rw [hm, ← himg]
            obtain ⟨hlen, hstr⟩ := copyinstr_str rp.image uarg PGSIZE
            obtain ⟨u1, u2, u3⟩ := Own.write_excl
              (m := s.mem.write page (rp.image.copyinstr uarg PGSIZE).2) hown
                (fun x hx => by rw [hm]; exact Bytes.write_of_not_mem (by omega))
            rw [hm] at u2
            have hu' : Uvm { t with mem := s.mem.write page (rp.image.copyinstr uarg PGSIZE).2 } L₁
                (X + pages (argv ++ [page])) U pr.pagetable tf n f ∧
                image (s.mem.write page (rp.image.copyinstr uarg PGSIZE).2) f n = image t.mem f n := by
              refine hu.congr ?_ ?_
              · rw [pages_concat, ← add_assoc, hm, add_right_comm (X + pages argv)]
                exact u1
              · rw [hm]
                exact u2.mono (fun q hq => by simp only [Pi.add_apply] at hq ⊢; omega)
            have hnext :
                Fetched s { t with mem := s.mem.write page (rp.image.copyinstr uarg PGSIZE).2 }
                  (page :: L₁) L₁ X U pr.pagetable tf n f argv (argv ++ [page]) := by
              refine ⟨hu'.1, fun q hq => ⟨List.mem_cons_of_mem _ hq, ?_⟩, by rw [hu'.2, hm],
                ⟨?_, ?_⟩, ?_, List.subset_append_left _ _, [page], hal,
                fun q hq _ => List.mem_append_right _ hq⟩
              · have := (u3 q hq).2
                rwa [hm] at this
              · exact u2.mono (fun q hq => by simp only [Pi.add_apply] at hq ⊢; omega)
              · change s.allocs <:+ t.allocs
                rw [hal]
                exact List.suffix_cons _ _
              · exact u2.mono (fun q hq => by simp only [Pi.add_apply] at hq ⊢; omega)
            have hpage : 0 ∈ t.allocs → 0 ∈ s.allocs := fun h0 => by
              rw [hal] at h0
              exact (List.mem_cons.mp h0).resolve_left hp.ne_zero.symm
            rw [wp_ite]
            refine ⟨fun hneg => ?_, fun hpos => ?_⟩
            · rw [wp_pure]
              refine ⟨⟨L₁, hnext, by rw [List.length_cons]; omega⟩, fun _ => ?_,
                fun h0 => Or.inl (hpage h0)⟩
              simp [if_pos hneg]
            · obtain ⟨str, hbs, hz⟩ := hstr hpos
              have hargs : (argv ++ [page]).map
                  (strAt (s.mem.write page (rp.image.copyinstr uarg PGSIZE).2)) =
                  argv.map (strAt s.mem) ++ [(rp.image.copyinstr uarg PGSIZE).2.dropLast] := by
                rw [hbs] at hlen ⊢
                rw [List.length_append, List.length_singleton] at hlen
                rw [List.map_append, List.map_singleton, strAt_write hz hlen,
                  List.dropLast_concat, ← hbs]
                refine congrArg (· ++ [str]) (List.map_congr_left (fun q hq => strAt_same (u2 q ?_)))
                have := pages_pos hq
                simp only [Pi.add_apply]
                omega
              have himg' : rp.image = image (s.mem.write page (rp.image.copyinstr uarg PGSIZE).2) f
                  n := by
                rw [hu'.2, hm, himg]
              refine wp_post (ih hu'.1 himg') ?_
              rintro r t' ⟨⟨L₂, hf, hlen'⟩, hr, hn⟩
              rw [hargs] at hr
              refine ⟨⟨L₂, hnext.trans hf, by rw [List.length_cons]; omega⟩,
                fun h0 => by simp only [if_neg hpos]; exact hr h0, fun h0 => ?_⟩
              exact (hn h0).imp hpage (fun hlt => by rw [List.length_cons]; omega)

theorem freeArgs_spec {argv : List ℕ} (h : Own s L (X + pages argv) U) :
    wp (freeArgs argv) (fun _ t => Freed s t X U) (fun _ => False) s := by
  induction argv generalizing s L with
  | nil =>
      simp only [freeArgs, wp_pure]
      exact ⟨L, h, Frame.refl _ _, rfl⟩
  | cons p argv ih =>
      have hp : Own s L (X + pages argv + one p) U := by
        rwa [pages_cons, add_comm (one p), ← add_assoc] at h
      simp only [freeArgs, wp_bind]
      refine wp_post (kfree_excl hp) ?_
      rintro _ t ⟨hown, hf, hal⟩
      refine wp_post (ih hown) ?_
      rintro _ t' ⟨L', hown', hf', hal'⟩
      refine ⟨L', hown', Frame.trans (hf.mono (fun q hq => ?_)) hf', hal'.trans hal⟩
      simp only [Pi.add_apply] at hq ⊢
      omega

end args

end Xv6Cow.Kernel

import Xv6Cow.Itable.Steps
import Xv6Cow.Lib.Tally

/-! # The table and the disk

`Table N s` is what holds of the inode table and the inodes on disk, whoever is about to do what: no
inode has two entries, an entry counts the pointers to it, a valid entry holds what the disk holds,
and the directories are in the order in which they were made.  The moves below are all the ways in
which a command changes the table or the disk. -/

namespace Xv6Cow.Itable

open Finset
open Fs (NINODE NFILE)
open Function (update update_self update_of_ne update_apply)

/-! ### Commands in the middle -/

namespace Prog

/-- The entry that the process is freeing, from the test in `iput` to the release of the lock. -/
def fin : Prog → Option ℕ
  | .free p _ | .invalidate p _ | .unlockFreed p _ => some p
  | _ => none

/-- The entry whose inode is about to be cleared. -/
def freeing : Prog → Option ℕ
  | .free p _ => some p
  | _ => none

/-- The entry whose inode has been cleared, and which is still valid. -/
def clearing : Prog → Option ℕ
  | .invalidate p _ => some p
  | _ => none

/-- The inode that `ialloc` has taken, and not yet got an entry for. -/
def claimed : Prog → Option (ℕ × ℕ)
  | .igetNew dev inum _ => some (dev, inum)
  | _ => none

theorem fin_of_freeing {k : Prog} {p : ℕ} (h : k.freeing = some p) : k.fin = some p := by
  cases k <;> simp_all [freeing, fin]

theorem fin_of_clearing {k : Prog} {p : ℕ} (h : k.clearing = some p) : k.fin = some p := by
  cases k <;> simp_all [clearing, fin]

theorem freeing_of_fin {k : Prog} (h : k.fin = none) : k.freeing = none := by
  cases k <;> simp_all [freeing, fin]

theorem clearing_of_fin {k : Prog} (h : k.fin = none) : k.clearing = none := by
  cases k <;> simp_all [clearing, fin]

end Prog

/-- A program is not in the middle of a command. -/
structure Prog.Clean (k : Prog) : Prop where
  fin : k.fin = none
  freeing : k.freeing = none
  clearing : k.clearing = none
  claimed : k.claimed = none

theorem Disc.clean {k : Prog} {c : Ctx} (h : Disc k c) : k.Clean := by
  constructor <;> cases k <;> simp_all [Disc, Prog.fin, Prog.freeing, Prog.clearing, Prog.claimed]

theorem Disc.now {k : Prog} {c : Ctx} (h : Disc k c) : Now k c := by
  cases k <;> first | exact h | exact h.elim

/-! ### Pointers -/

variable {N : ℕ} {s s' : Sys} {t u ip : ℕ} {i : Inode} {q : Proc} {n : ℕ × ℕ} {d : Dinode}

/-- The pointers to an entry, but for those of process `t`. -/
def others (N : ℕ) (s : Sys) (t k : ℕ) : ℕ :=
  ∑ u ∈ (range N).erase t, (s.proc u).own.count k + #{f ∈ range NFILE | (s.file f).map File.ip = some k}

/-- The pointers to an entry: those that processes have, and those of open files. -/
def refsTo (N : ℕ) (s : Sys) (k : ℕ) : ℕ :=
  ∑ u ∈ range N, (s.proc u).own.count k + #{f ∈ range NFILE | (s.file f).map File.ip = some k}

theorem refsTo_eq (ht : t < N) (k : ℕ) : refsTo N s k = (s.proc t).own.count k + others N s t k := by
  rw [refsTo, others, ← add_sum_erase (range N) _ (mem_range.2 ht), add_assoc]

theorem others_congr (hp : ∀ u, u ≠ t → (s'.proc u).own = (s.proc u).own) (hf : s'.file = s.file)
    (k : ℕ) : others N s' t k = others N s t k := by
  unfold others
  rw [hf, sum_congr rfl fun u hu => by rw [hp u (ne_of_mem_erase hu)]]

theorem others_pos_of_own {k : ℕ} (hu : u < N) (hne : u ≠ t) (hk : k ∈ (s.proc u).own) :
    0 < others N s t k := by
  have h1 : (s.proc u).own.count k ≤ ∑ u ∈ (range N).erase t, (s.proc u).own.count k :=
    single_le_sum (f := fun u => (s.proc u).own.count k) (fun _ _ => Nat.zero_le _)
      (mem_erase.2 ⟨hne, mem_range.2 hu⟩)
  have h2 := Multiset.count_pos.2 hk
  unfold others
  omega

theorem others_pos_of_file {f : ℕ} {g : File} (hf : f < NFILE) (hg : s.file f = some g) :
    0 < others N s t g.ip := by
  have : 0 < #{f ∈ range NFILE | (s.file f).map File.ip = some g.ip} :=
    card_pos.2 ⟨f, mem_filter.2 ⟨mem_range.2 hf, by simp [hg]⟩⟩
  unfold others
  omega

theorem card_files_update {x : ℕ} (hx : x < NFILE) (F : ℕ → Option File) (o : Option File) (k : ℕ) :
    #{f ∈ range NFILE | (update F x o f).map File.ip = some k} +
      (if (F x).map File.ip = some k then 1 else 0) =
        #{f ∈ range NFILE | (F f).map File.ip = some k} + if o.map File.ip = some k then 1 else 0 := by
  have hu : (fun f => (update F x o f).map File.ip) = update (fun f => (F f).map File.ip) x
      (o.map File.ip) := by
    funext f
    obtain rfl | hf := eq_or_ne f x
    · simp
    · simp [hf]
  have ht := congrFun (tally_update (mem_range.2 hx) (fun f => (F f).map File.ip) (o.map File.ip)) k
  rw [← hu] at ht
  simp only [Pi.add_apply, Pi.sub_apply, tally_eq_card, ofRef] at ht
  split_ifs at ht ⊢ <;> omega

/-! ### The invariant -/

/-- If `n` is a directory, it was made after `m`. -/
def Below (s : Sys) (m n : ℕ × ℕ) : Prop := (s.at n).type = .dir → (s.at m).gen < (s.at n).gen

structure Table (N : ℕ) (s : Sys) : Prop where
  inj : ∀ k l, 0 < (s.itable k).ref → 0 < (s.itable l).ref → s.key k = s.key l → k = l
  small : ∀ k, 0 < (s.itable k).ref → k < NINODE
  dev : ∀ k, 0 < (s.itable k).ref → (s.itable k).dev = ROOTDEV
  refs : ∀ k, (s.itable k).ref = refsTo N s k
  file : ∀ f g, s.file f = some g → f < NFILE
  nobody : ∀ t, N ≤ t → (s.proc t).prog = .die
  cached : ∀ k, 0 < (s.itable k).ref → (s.itable k).valid = true →
    (∀ u, (s.proc u).prog.clearing ≠ some k) → (s.itable k).din = s.at (s.key k) ∧
      (s.at (s.key k)).type ≠ .none
  gen : ∀ n, (s.at n).gen < s.clock
  tree : ∀ n e, (s.at n).type = .dir → e ∈ (s.at n).data → e.1.isDot = false → Below s n (n.1, e.2)

theorem Sys.at_change {w : ℕ} : ((s.change ip d w).setProc t q).at n = if n = s.key ip then d
    else s.at n := by
  simp only [Sys.at, Sys.change, Sys.setProc, Sys.setDisk, Sys.setEntry, Sys.key, update_apply,
    Prod.ext_iff]
  split_ifs <;> simp_all

theorem Sys.at_alloc {w c dev inum : ℕ} :
    ({ s.setDisk dev inum d with clock := c, lh := w }.setProc t q).at n = if n = (dev, inum) then d
      else s.at n := by
  simp only [Sys.at, Sys.setProc, Sys.setDisk, update_apply, Prod.ext_iff]
  split_ifs <;> simp_all

namespace Table

theorem keep (h : Table N s) (hproc : s'.proc = update s.proc t q) (ht : t < N)
    (hit : s'.itable = s.itable)
    (hrefs : ∀ k, q.own.count k + others N s' t k = (s.proc t).own.count k + others N s t k)
    (hfile : ∀ f g, s'.file f = some g → f < NFILE)
    (hclr : ∀ k, (s.proc t).prog.clearing = some k → q.prog.clearing = some k)
    (hat : ∀ n, (s.at n).type ≠ .none → s'.at n = s.at n) (hgen : ∀ n, (s'.at n).gen < s'.clock)
    (htree : ∀ n e, (s'.at n).type = .dir → e ∈ (s'.at n).data → e.1.isDot = false →
      Below s' n (n.1, e.2)) : Table N s' := by
  have hkey : ∀ k, s'.key k = s.key k := fun k => by rw [Sys.key, Sys.key, hit]
  refine ⟨?_, ?_, ?_, ?_, hfile, ?_, ?_, hgen, htree⟩
  · simpa [hit, hkey] using h.inj
  · simpa [hit] using h.small
  · simpa [hit] using h.dev
  · intro k
    rw [hit, h.refs k, refsTo_eq ht, refsTo_eq ht, hproc, update_self]
    exact (hrefs k).symm
  · intro u hu
    rw [hproc, update_of_ne (by omega)]
    exact h.nobody u hu
  · intro k hr hv hc
    rw [hit] at hr hv ⊢
    have hk := h.cached k hr hv fun u hu => by
      obtain rfl | hne := eq_or_ne u t
      · exact hc u (by rw [hproc, update_self]; exact hclr k hu)
      · exact hc u (by rw [hproc, update_of_ne hne]; exact hu)
    rw [hkey, hat _ hk.2]
    exact hk

section
variable (h : Table N s) (ht : t < N)
include h ht

theorem quiet (hproc : s'.proc = update s.proc t q) (hown : q.own = (s.proc t).own)
    (hclr : ∀ k, (s.proc t).prog.clearing = some k → q.prog.clearing = some k)
    (hit : s'.itable = s.itable) (hdisk : s'.disk = s.disk) (hclock : s'.clock = s.clock)
    (hfile : s'.file = s.file) : Table N s' := by
  have hat : ∀ n, s'.at n = s.at n := fun n => by rw [Sys.at, Sys.at, hdisk]
  refine h.keep hproc ht hit ?_ ?_ hclr (fun n _ => hat n) ?_ ?_
  · intro k
    rw [hown, others_congr (fun u hu => by rw [hproc, update_of_ne hu]) hfile k]
  · simpa [hfile] using h.file
  · simpa [hat, hclock] using h.gen
  · simpa [hat, Below] using h.tree

theorem entry (hip : ip < NINODE)
    (hkey : 0 < (s.itable ip).ref ∧ (i.dev, i.inum) = s.key ip ∨
      i.dev = ROOTDEV ∧ ∀ k, 0 < (s.itable k).ref → s.key k ≠ (i.dev, i.inum))
    (hown : ∀ k, q.own.count k + (if k = ip then (s.itable ip).ref else 0) =
      (s.proc t).own.count k + if k = ip then i.ref else 0)
    (hcached : 0 < i.ref → i.valid = true → q.prog.clearing ≠ some ip →
      (∀ u, u ≠ t → (s.proc u).prog.clearing ≠ some ip) → i.din = s.at (i.dev, i.inum) ∧
        (s.at (i.dev, i.inum)).type ≠ .none)
    (hclr : ∀ k, (s.proc t).prog.clearing = some k → k = ip ∨ q.prog.clearing = some k) :
    Table N ((s.setEntry ip i).setProc t q) := by
  have hself : ((s.setEntry ip i).setProc t q).itable ip = i := update_self ..
  have hne : ∀ {k}, k ≠ ip → ((s.setEntry ip i).setProc t q).itable k = s.itable k :=
    fun hk => update_of_ne hk ..
  have hkself : ((s.setEntry ip i).setProc t q).key ip = (i.dev, i.inum) := by rw [Sys.key, hself]
  have hkne : ∀ {k}, k ≠ ip → ((s.setEntry ip i).setProc t q).key k = s.key k :=
    fun hk => by rw [Sys.key, hne hk, Sys.key]
  have hdiff : ∀ k, k ≠ ip → 0 < (s.itable k).ref → s.key k ≠ (i.dev, i.inum) := by
    intro k hk hr he
    rcases hkey with hkey | hkey
    · exact hk (h.inj k ip hr hkey.1 (he.trans hkey.2))
    · exact hkey.2 k hr he
  have hproc : ∀ {u}, u ≠ t → ((s.setEntry ip i).setProc t q).proc u = s.proc u :=
    fun hu => update_of_ne hu ..
  have hpself : ((s.setEntry ip i).setProc t q).proc t = q := update_self ..
  refine ⟨?_, ?_, ?_, ?_, h.file, ?_, ?_, h.gen, h.tree⟩
  · intro k l hk hl he
    obtain rfl | hk' := eq_or_ne k ip
    · obtain rfl | hl' := eq_or_ne l k
      · rfl
      · rw [hne hl'] at hl
        rw [hkself, hkne hl'] at he
        exact absurd he.symm (hdiff l hl' hl)
    · rw [hne hk'] at hk
      rw [hkne hk'] at he
      obtain rfl | hl' := eq_or_ne l ip
      · rw [hkself] at he
        exact absurd he (hdiff k hk' hk)
      · rw [hne hl'] at hl
        rw [hkne hl'] at he
        exact h.inj k l hk hl he
  · intro k hr
    obtain rfl | hk := eq_or_ne k ip
    · exact hip
    · exact h.small k (by rwa [hne hk] at hr)
  · intro k hr
    obtain rfl | hk := eq_or_ne k ip
    · rw [hself]
      rcases hkey with hkey | hkey
      · exact (congrArg Prod.fst hkey.2).trans (h.dev k hkey.1)
      · exact hkey.1
    · rw [hne hk] at hr ⊢
      exact h.dev k hr
  · intro k
    have hr := h.refs k
    have hk := hown k
    rw [refsTo_eq ht] at hr ⊢
    have ho : others N ((s.setEntry ip i).setProc t q) t k = others N s t k := by
      apply others_congr
      · intro u hu
        rw [hproc hu]
      · rfl
    rw [ho, hpself]
    obtain rfl | he := eq_or_ne k ip
    · simp only [if_true] at hk
      rw [hself]
      omega
    · simp only [if_neg he] at hk
      rw [hne he]
      omega
  · intro u hu
    rw [hproc (by omega)]
    exact h.nobody u hu
  · intro k hr hv hc
    obtain rfl | hk := eq_or_ne k ip
    · rw [hself] at hr hv ⊢
      rw [hkself]
      refine hcached hr hv (fun hx => hc t (by rw [hpself]; exact hx)) fun u hu hx => hc u ?_
      rw [hproc hu]
      exact hx
    · rw [hne hk] at hr hv ⊢
      rw [hkne hk]
      refine h.cached k hr hv fun u hu => ?_
      obtain rfl | hut := eq_or_ne u t
      · exact hc u (by rw [hpself]; exact (hclr k hu).resolve_left hk)
      · exact hc u (by rw [hproc hut]; exact hu)

/-- The fields of one inode are changed, in memory and on disk. -/
theorem change {w : ℕ} (hr : 0 < (s.itable ip).ref) (hown : q.own = (s.proc t).own)
    (hclr : ∀ k, (s.proc t).prog.clearing = some k → q.prog.clearing = some k)
    (hgen : d.gen = (s.at (s.key ip)).gen) (htype : d.type = (s.at (s.key ip)).type ∨ d.type = .none)
    (hnone : d.type = .none → q.prog.clearing = some ip)
    (hdata : d.type = .dir → ∀ e ∈ d.data, e.1.isDot = false →
      Below s (s.key ip) ((s.itable ip).dev, e.2)) :
    Table N ((s.change ip d w).setProc t q) := by
  have hself : ((s.change ip d w).setProc t q).itable ip = { s.itable ip with din := d } :=
    update_self ..
  have hne : ∀ {k}, k ≠ ip → ((s.change ip d w).setProc t q).itable k = s.itable k :=
    fun hk => update_of_ne hk ..
  have hkey : ∀ k, ((s.change ip d w).setProc t q).key k = s.key k := by
    intro k
    obtain rfl | hk := eq_or_ne k ip
    · rw [Sys.key, hself, Sys.key]
    · rw [Sys.key, hne hk, Sys.key]
  have href : ∀ k, (((s.change ip d w).setProc t q).itable k).ref = (s.itable k).ref := by
    intro k
    obtain rfl | hk := eq_or_ne k ip
    · rw [hself]
    · rw [hne hk]
  have hat : ∀ n, ((s.change ip d w).setProc t q).at n = if n = s.key ip then d else s.at n :=
    fun _ => Sys.at_change
  have hbelow : ∀ m n, Below s m n → Below ((s.change ip d w).setProc t q) m n := by
    intro m n hb hn
    have hg : ∀ m, (((s.change ip d w).setProc t q).at m).gen = (s.at m).gen := by
      intro m
      rw [hat]
      split_ifs with he
      · rw [he, hgen]
      · rfl
    rw [hg, hg]
    refine hb ?_
    rw [hat] at hn
    split_ifs at hn with he
    · rw [hn] at htype
      rw [he]
      exact (htype.resolve_right (by simp)).symm
    · exact hn
  have hproc : ∀ {u}, u ≠ t → ((s.change ip d w).setProc t q).proc u = s.proc u :=
    fun hu => update_of_ne hu ..
  have hpself : ((s.change ip d w).setProc t q).proc t = q := update_self ..
  refine ⟨?_, ?_, ?_, ?_, h.file, ?_, ?_, ?_, ?_⟩
  · simpa [href, hkey] using h.inj
  · simpa [href] using h.small
  · intro k hr
    rw [href] at hr
    exact (congrArg Prod.fst (hkey k)).trans (h.dev k hr)
  · intro k
    have ho : others N ((s.change ip d w).setProc t q) t k = others N s t k := by
      apply others_congr
      · intro u hu
        rw [hproc hu]
      · rfl
    rw [href, h.refs k, refsTo_eq ht, refsTo_eq ht, ho, hpself, hown]
  · intro u hu
    rw [hproc (by omega)]
    exact h.nobody u hu
  · intro k hr' hv hc
    rw [href] at hr'
    rw [hkey, hat]
    obtain rfl | hk := eq_or_ne k ip
    · rw [if_pos rfl, hself]
      exact ⟨rfl, fun hn => hc t (by rw [hpself]; exact hnone hn)⟩
    · rw [hne hk] at hv ⊢
      rw [if_neg fun he => hk (h.inj k ip hr' hr he)]
      refine h.cached k hr' hv fun u hu => ?_
      obtain rfl | hut := eq_or_ne u t
      · exact hc u (by rw [hpself]; exact hclr k hu)
      · exact hc u (by rw [hproc hut]; exact hu)
  · intro n
    rw [hat]
    split_ifs with he
    · rw [hgen]
      exact h.gen _
    · exact h.gen n
  · intro n e hn he hdot
    rw [hat] at hn he
    split_ifs at hn he with hkn
    · subst hkn
      exact hbelow _ _ (hdata hn e he hdot)
    · exact hbelow _ _ (h.tree n e hn he hdot)

theorem alloc {w dev inum : ℕ} {type : IType} (hn : (s.disk dev inum).type = .none)
    (hown : q.own = (s.proc t).own) (hclr : (s.proc t).prog.clearing = none) :
    Table N ({ s.setDisk dev inum { type := type, gen := s.clock } with
      clock := s.clock + 1, lh := s.lh + w }.setProc t q) := by
  generalize hs' : ({ s.setDisk dev inum { type := type, gen := s.clock } with
    clock := s.clock + 1, lh := s.lh + w } : Sys).setProc t q = s'
  have hat : ∀ n, s'.at n = if n = (dev, inum) then { type := type, gen := s.clock } else s.at n := by
    intro n
    rw [← hs', Sys.at_alloc]
  have hproc : s'.proc = update s.proc t q := by rw [← hs']; rfl
  have hfile : s'.file = s.file := by rw [← hs']; rfl
  refine h.keep hproc ht (by rw [← hs']; rfl) ?_ ?_ (by simp [hclr]) ?_ ?_ ?_
  · intro k
    rw [hown, others_congr (fun u hu => by rw [hproc, update_of_ne hu]) hfile k]
  · rw [hfile]
    exact h.file
  · intro n hty
    rw [hat, if_neg fun he => hty (by rw [he]; exact hn)]
  · intro n
    have hclock : s'.clock = s.clock + 1 := by rw [← hs']; rfl
    rw [hat, hclock]
    split_ifs
    · exact Nat.lt_succ_self _
    · exact Nat.lt_succ_of_lt (h.gen n)
  · intro n e hd he hdot
    rw [hat] at hd he
    split_ifs at hd he with hkn
    · simp at he
    · unfold Below
      rw [hat, hat, if_neg hkn]
      split_ifs
      · exact fun _ => h.gen n
      · exact h.tree n e hd he hdot

/-- Process `t` gives a pointer to a file, or gets one from it. -/
theorem files {x : ℕ} {o : Option File} (hx : x < NFILE)
    (hown : ∀ k, q.own.count k + (if o.map File.ip = some k then 1 else 0) =
      (s.proc t).own.count k + if (s.file x).map File.ip = some k then 1 else 0)
    (hclr : (s.proc t).prog.clearing = none) :
    Table N ({ s with file := update s.file x o }.setProc t q) := by
  have hproc : ∀ {u}, u ≠ t → ({ s with file := update s.file x o }.setProc t q).proc u = s.proc u :=
    fun hu => update_of_ne hu ..
  refine h.keep rfl ht rfl ?_ ?_ (by simp [hclr]) (fun _ _ => rfl) h.gen h.tree
  · intro k
    have hk := hown k
    have hc := card_files_update hx s.file o k
    unfold others
    rw [sum_congr rfl fun u hu => by rw [hproc (ne_of_mem_erase hu)]]
    change _ + (_ + #{f ∈ range NFILE | (update s.file x o f).map File.ip = some k}) = _
    omega
  · intro f g hf
    obtain rfl | he := eq_or_ne f x
    · exact hx
    · exact h.file f g ((update_of_ne he ..).symm.trans hf)

end

end Table

end Xv6Cow.Itable

import Xv6Cow.Itable.Deadlock

/-! # When an inode is freed

`iput` frees an inode after it has released `itable.lock`, so another process may get a pointer to
the entry in the meantime.  `ialloc` may, and that does no harm: it waits for the lock, and reads
the inode again.  A lookup may, but only if a directory still names an inode without links.  There
is such an entry, `..` in a directory that has been removed and is the current directory of a
process. -/

namespace Xv6Cow.Itable

open Fs (NINODE NFILE)
open Function (update update_self update_of_ne)

variable {N : ℕ} {s s' : Sys} {t u ip p w : ℕ} {ok : Bool} {c : Ctx} {q : Proc} {n : ℕ × ℕ}
    {disk : ℕ → ℕ → Dinode} {clock : ℕ}

/-- The entry that `iput` is about to drop, after it has cleared the inode. -/
def Prog.finishing : Prog → Option ℕ
  | .invalidate p _ | .unlockFreed p _ | .decref p _ => some p
  | _ => none

/-- An inode is free, or `ialloc` has just taken it. -/
def Dead (s : Sys) (n : ℕ × ℕ) : Prop := (s.at n).type = .none ∨ ∃ u, (s.proc u).prog.claimed = some n

/-- Nobody has a pointer to a free inode, but an `iput` that has freed it. -/
structure Gone (s : Sys) : Prop where
  alone : ∀ t p, (s.proc t).prog.freeing = some p → (s.itable p).ref = 1
  claimed : ∀ t n, (s.proc t).prog.claimed = some n → (s.at n).type ≠ .none
  unique : ∀ t u n, (s.proc t).prog.claimed = some n → (s.proc u).prog.claimed = some n → t = u
  nlink : ∀ n, Dead s n → (s.at n).nlink = 0
  file : ∀ f g, s.file f = some g → ¬ Dead s (s.key g.ip)
  own : ∀ u, ∀ k ∈ (s.proc u).own, Dead s (s.key k) → (s.proc u).prog.finishing = some k ∧
    (s.proc u).own.count k = 1

namespace Gone

/-- The entry that a process is freeing has no other pointers. -/
theorem others_eq_zero (h : Inv N s) (hg : Gone s) (hf : (s.proc t).prog.freeing = some p) :
    p ∈ (s.proc t).own ∧ (s.proc t).own.count p = 1 ∧ others N s t p = 0 := by
  have hm : p ∈ (s.proc t).own := (h.of_fin (Prog.fin_of_freeing hf)).2
  have hr := hg.alone t p hf
  rw [h.table.refs, refsTo_eq (h.lt_of_own hm)] at hr
  have := Multiset.count_pos.2 hm
  exact ⟨hm, by omega, by omega⟩

/-- Nobody frees an entry to which another process has a pointer. -/
theorem not_freeing (h : Inv N s) (hg : Gone s) (hp : p ∈ (s.proc t).own) (hu : u ≠ t) :
    (s.proc u).prog.freeing ≠ some p := by
  intro hf
  have := others_pos_of_own (N := N) (h.lt_of_own hp) hu.symm hp
  rw [(hg.others_eq_zero h hf).2.2] at this
  omega

theorem not_dead (hg : Gone s) (hf : (s.proc t).prog.finishing = none) (hp : p ∈ (s.proc t).own) :
    ¬ Dead s (s.key p) := by
  intro hd
  have := (hg.own t p hp hd).1
  simp [hf] at this

theorem not_dead_of_lock (hg : Gone s) (hk : Knows s t c) (hf : (s.proc t).prog.finishing = none)
    (hp : p ∈ c.locks) : ¬ Dead s (s.key p) := by
  rcases hk.supp p hp with ho | hb
  · exact hg.not_dead hf (by rwa [hk.own])
  · cases hbusy : (s.proc t).busy with
    | none => simp [hk.idle hbusy] at hb
    | some f =>
        obtain ⟨g, hf', he⟩ := hk.busy f hbusy
        rw [hb, Option.some.injEq] at he
        exact he ▸ hg.file f g hf'

theorem next (h : Inv N s) (hg : Gone s) (hG : Guar s s' t)
    (hdead : ∀ n, Dead s' n → (s'.at n).nlink = 0 ∧
      (Dead s n ∨ ∃ p, (s.proc t).prog.freeing = some p ∧ s.key p = n))
    (href : ∀ u p, u ≠ t → (s.proc u).prog.freeing = some p → (s'.itable p).ref = 1)
    (hfree : ∀ p, (s'.proc t).prog.freeing = some p → (s'.itable p).ref = 1)
    (hclaim : ∀ n, (s'.proc t).prog.claimed = some n → (s'.at n).type ≠ .none ∧ ∀ u, u ≠ t →
      (s.proc u).prog.claimed ≠ some n)
    (hfile : ∀ f g, s'.file f = some g → s.file f = some g ∨ ¬ Dead s' (s'.key g.ip))
    (hown : ∀ k ∈ (s'.proc t).own, Dead s' (s'.key k) →
      (s'.proc t).prog.finishing = some k ∧ (s'.proc t).own.count k = 1) : Gone s' := by
  refine ⟨fun u p hf => ?_, fun u n hc => ?_, fun u v n huc hvc => ?_, fun n hd => (hdead n hd).1,
    fun f g hf hd => ?_, fun u k hm hd => ?_⟩
  · obtain rfl | hu := eq_or_ne u t
    · exact hfree p hf
    · rw [hG.proc u hu] at hf
      exact href u p hu hf
  · obtain rfl | hu := eq_or_ne u t
    · exact (hclaim n hc).1
    · rw [hG.proc u hu] at hc
      rcases hG.disk n with hd | ⟨p, hf, hkey, _⟩ | ⟨hd, _⟩
      · rw [hd.1]
        exact hg.claimed u n hc
      · -- a process that frees an inode has a pointer to it
        have hfin := (hg.own t p (hg.others_eq_zero h hf).1 (hkey ▸ .inr ⟨u, hc⟩)).1
        cases hprog : (s.proc t).prog <;> rw [hprog] at hf hfin <;>
          simp [Prog.freeing, Prog.finishing] at hf hfin
      · exact absurd hd (hg.claimed u n hc)
  · obtain rfl | hu := eq_or_ne u t
    · obtain rfl | hv := eq_or_ne v u
      · rfl
      · rw [hG.proc v hv] at hvc
        exact absurd hvc ((hclaim n huc).2 v hv)
    · rw [hG.proc u hu] at huc
      obtain rfl | hv := eq_or_ne v t
      · exact absurd huc ((hclaim n hvc).2 u hu)
      · rw [hG.proc v hv] at hvc
        exact hg.unique u v n huc hvc
  · refine (hfile f g hf).elim (fun hf => ?_) fun hn => hn hd
    rw [hG.key _ (h.ref_pos_of_file hf)] at hd
    rcases (hdead _ hd).2 with hd | ⟨p, hfr, hkey⟩
    · exact hg.file f g hf hd
    · obtain ⟨hm, _, ho⟩ := hg.others_eq_zero h hfr
      have := others_pos_of_file (N := N) (t := t) (h.table.file f g hf) hf
      rw [← h.table.inj p g.ip (h.ref_pos_of_own hm) (h.ref_pos_of_file hf) hkey] at this
      omega
  · obtain rfl | hu := eq_or_ne u t
    · exact hown k hm hd
    · rw [hG.proc u hu] at hm ⊢
      rw [hG.key k (h.ref_pos_of_own hm)] at hd
      rcases (hdead _ hd).2 with hd | ⟨p, hfr, hkey⟩
      · exact hg.own u k hm hd
      · obtain ⟨hmp, _, ho⟩ := hg.others_eq_zero h hfr
        have := others_pos_of_own (N := N) (h.lt_of_own hm) hu hm
        rw [← h.table.inj p k (h.ref_pos_of_own hmp) (h.ref_pos_of_own hm) hkey] at this
        omega

theorem dead_of_same (hG : Guar s s' t) (hq : s'.proc t = q) (hc : q.prog.claimed = none)
    (htype : ∀ n, (s'.at n).type = (s.at n).type) (hd : Dead s' n) : Dead s n := by
  rcases hd with hd | ⟨u, hu⟩
  · exact .inl (by rwa [htype] at hd)
  · obtain rfl | hut := eq_or_ne u t
    · simp [hq, hc] at hu
    · exact .inr ⟨u, by rwa [hG.proc u hut] at hu⟩

section
variable (h : Inv N s) (hg : Gone s)
include h hg

theorem same (hG : Guar s s' t) (hq : s'.proc t = q) (hown : q.own = (s.proc t).own)
    (hrefs : ∀ k, (s'.itable k).ref = (s.itable k).ref) (hfile : s'.file = s.file)
    (htype : ∀ n, (s'.at n).type = (s.at n).type)
    (hnlink : ∀ n, Dead s n → (s'.at n).nlink = (s.at n).nlink) (hc : q.prog.claimed = none)
    (hfin : ∀ p, (s.proc t).prog.finishing = some p → q.prog.finishing = some p)
    (hfree : ∀ p, q.prog.freeing = some p → (s.itable p).ref = 1) : Gone s' := by
  have hdead : ∀ {n}, Dead s' n → Dead s n := dead_of_same hG hq hc htype
  refine hg.next h hG (fun n hd => ⟨by rw [hnlink n (hdead hd), hg.nlink n (hdead hd)], .inl (hdead hd)⟩)
    (fun u p _ hf => by rw [hrefs, hg.alone u p hf]) (fun p hp => ?_)
    (fun n hn => by simp [hq, hc] at hn)
    (fun f g hf => .inl (by rwa [hfile] at hf)) (fun k hm hd => ?_)
  · rw [hq] at hp
    rw [hrefs, hfree p hp]
  · rw [hq, hown] at hm ⊢
    rw [hG.key k (h.ref_pos_of_own hm)] at hd
    obtain ⟨hk, h1⟩ := hg.own t k hm (hdead hd)
    exact ⟨hfin k hk, h1⟩

theorem got {i : Inode} (hG : Guar s ((s.setEntry ip i).setProc t q) t) (hgot : Got s n ip i)
    (hown : q.own = ip ::ₘ (s.proc t).own) (hfin : (s.proc t).prog.finishing = none) (hq : q.prog.Clean)
    (htype : (s.at n).type ≠ .none) (hclaim : ∀ u, u ≠ t → (s.proc u).prog.claimed ≠ some n)
    (hfree : ∀ u, u ≠ t → (s.proc u).prog.freeing = some ip → s.key ip ≠ n) :
    Gone ((s.setEntry ip i).setProc t q) := by
  have hps : ((s.setEntry ip i).setProc t q).proc t = q := update_self ..
  have hself : ((s.setEntry ip i).setProc t q).itable ip = i := update_self ..
  have hdead : ∀ {n}, Dead ((s.setEntry ip i).setProc t q) n → Dead s n :=
    dead_of_same hG hps hq.claimed fun _ => rfl
  refine hg.next h hG (fun n hd => ⟨hg.nlink n (hdead hd), .inl (hdead hd)⟩) (fun u p hu hf => ?_)
    (fun p hp => by simp [hps, hq.freeing] at hp) (fun n hn => by simp [hps, hq.claimed] at hn)
    (fun f g hf => .inl hf)
    (fun k hm hd => ?_)
  · have h1 := hg.alone u p hf
    obtain rfl | hp := eq_or_ne p ip
    · exact absurd (hgot.key_of_pos (by omega)) (hfree u hu hf)
    · rw [← h1]
      exact congrArg Inode.ref (update_of_ne hp ..)
  · exfalso
    obtain rfl | hk := eq_or_ne k ip
    · rw [Sys.key, hself, hgot.key] at hd
      rcases hd with hd | ⟨u, hu⟩
      · exact htype hd
      · obtain rfl | hut := eq_or_ne u t
        · simp [hps, hq.claimed] at hu
        · rw [hG.proc u hut] at hu
          exact hclaim u hut hu
    · rw [hps, hown] at hm
      have hm := (Multiset.mem_cons.1 hm).resolve_left hk
      rw [hG.key k (h.ref_pos_of_own hm)] at hd
      exact hg.not_dead hfin hm (hdead hd)

theorem drop {k : Prog}
    (hG : Guar s ((s.setEntry ip { s.itable ip with ref := (s.itable ip).ref - 1 }).setProc t
      { s.proc t with own := (s.proc t).own.erase ip, prog := k }) t) (hip : ip ∈ (s.proc t).own)
        (hq : k.Clean)
    (hfin : ∀ p, (s.proc t).prog.finishing = some p → p = ip) :
    Gone ((s.setEntry ip { s.itable ip with ref := (s.itable ip).ref - 1 }).setProc t
      { s.proc t with own := (s.proc t).own.erase ip, prog := k }) := by
  generalize hs : (s.setEntry ip { s.itable ip with ref := (s.itable ip).ref - 1 }).setProc t
      { s.proc t with own := (s.proc t).own.erase ip, prog := k } = s' at *
  have hps : s'.proc t = { s.proc t with own := (s.proc t).own.erase ip, prog := k } := by
    rw [← hs]
    exact update_self ..
  have hdead : ∀ {n}, Dead s' n → Dead s n := dead_of_same hG hps hq.claimed fun _ => by rw [← hs]; rfl
  refine hg.next h hG (fun n hd => ⟨?_, .inl (hdead hd)⟩) (fun u p hu hf => ?_)
    (fun p hp => by simp [hps, hq.freeing] at hp) (fun n hn => by simp [hps, hq.claimed] at hn)
    (fun f g hf => .inl (by rw [← hs] at hf; exact hf)) (fun m hm hd => ?_)
  · rw [← hg.nlink n (hdead hd), ← hs]
    rfl
  · rw [← hg.alone u p hf, ← hs]
    refine congrArg Inode.ref (update_of_ne ?_ ..)
    rintro rfl
    exact hg.not_freeing h hip hu hf
  · exfalso
    simp only [hps] at hm
    have hm' := Multiset.mem_of_mem_erase hm
    rw [hG.key m (h.ref_pos_of_own hm')] at hd
    obtain ⟨hf, h1⟩ := hg.own t m hm' (hdead hd)
    cases hfin m hf
    have := Multiset.count_pos.2 hm
    rw [Multiset.count_erase_self, h1] at this
    omega

theorem free {k : Prog} {d : Dinode} (hp : (s.proc t).prog = .free ip k)
    (hG : Guar s ((s.change ip d w).setProc t { s.proc t with prog := .invalidate ip k }) t)
    (hd : d.nlink = 0) :
    Gone ((s.change ip d w).setProc t { s.proc t with prog := .invalidate ip k }) := by
  have hf : (s.proc t).prog.freeing = some ip := by rw [hp]; rfl
  obtain ⟨hip, h1, ho⟩ := hg.others_eq_zero h hf
  have hps : ((s.change ip d w).setProc t { s.proc t with prog := .invalidate ip k }).proc t =
      { s.proc t with prog := .invalidate ip k } := update_self ..
  have hrefs : ∀ m, (((s.change ip d w).setProc t { s.proc t with prog := .invalidate ip k }).itable
      m).ref = (s.itable m).ref := by
    intro m
    obtain rfl | hm := eq_or_ne m ip
    · simp [Sys.setProc, Sys.change, Sys.setDisk, Sys.setEntry]
    · exact congrArg Inode.ref (update_of_ne hm ..)
  have hdead : ∀ {n}, n ≠ s.key ip →
      Dead ((s.change ip d w).setProc t { s.proc t with prog := .invalidate ip k }) n → Dead s n := by
    intro n hn hd
    rcases hd with hd | ⟨u, hu⟩
    · rw [Sys.at_change, if_neg hn] at hd
      exact .inl hd
    · obtain rfl | hut := eq_or_ne u t
      · simp [hps, Prog.claimed] at hu
      · exact .inr ⟨u, by rwa [hG.proc u hut] at hu⟩
  refine hg.next h hG (fun n hn => ?_) (fun u p _ hu => by rw [hrefs, hg.alone u p hu])
    (fun p hx => by simp [hps, Prog.freeing] at hx) (fun n hx => by simp [hps, Prog.claimed] at hx)
    (fun f g hx => .inl hx)
    (fun m hm hx => ?_)
  · rw [Sys.at_change]
    split_ifs with he
    · exact ⟨hd, .inr ⟨ip, hf, he.symm⟩⟩
    · exact ⟨hg.nlink n (hdead he hn), .inl (hdead he hn)⟩
  · rw [hps] at hm ⊢
    obtain rfl | hne := eq_or_ne m ip
    · exact ⟨rfl, h1⟩
    · rw [hG.key m (h.ref_pos_of_own hm)] at hx
      have hkey : s.key m ≠ s.key ip :=
        fun he => hne (h.table.inj m ip (h.ref_pos_of_own hm) (h.ref_pos_of_own hip) he)
      exact absurd (hdead hkey hx) (hg.not_dead (by rw [hp]; rfl) hm)

theorem alloc {dev inum : ℕ} {type : IType} {k : Option ℕ → Prog}
    (hfin : (s.proc t).prog.finishing = none) (hn : (s.disk dev inum).type = .none)
    (htype : type ≠ .none) (hG : Guar s ({ s.setDisk dev inum { type := type, gen := s.clock } with
      clock := s.clock + 1, lh :=
        s.lh + w }.setProc t { s.proc t with prog := .igetNew dev inum k }) t) :
    Gone ({ s.setDisk dev inum { type := type, gen := s.clock } with
      clock := s.clock + 1, lh :=
        s.lh + w }.setProc t { s.proc t with prog := .igetNew dev inum k }) := by
  generalize hs : ({ s.setDisk dev inum { type := type, gen := s.clock } with
      clock := s.clock + 1, lh := s.lh + w } :
        Sys).setProc t { s.proc t with prog := .igetNew dev inum k } = s' at *
  have hps : s'.proc t = { s.proc t with prog := .igetNew dev inum k } := by
    rw [← hs]
    exact update_self ..
  have hat : ∀ n, s'.at n = if n = (dev, inum) then { type := type, gen := s.clock } else s.at n :=
      fun n => by
    rw [← hs, Sys.at_alloc]
  have hdead : ∀ {n}, Dead s' n → Dead s n := by
    intro n hd
    obtain rfl | hne := eq_or_ne n (dev, inum)
    · exact .inl hn
    · rcases hd with hd | ⟨u, hu⟩
      · rw [hat, if_neg hne] at hd
        exact .inl hd
      · obtain rfl | hut := eq_or_ne u t
        · rw [hps] at hu
          exact absurd (Option.some.inj hu).symm hne
        · exact .inr ⟨u, by rwa [hG.proc u hut] at hu⟩
  refine hg.next h hG (fun n hd => ⟨?_, .inl (hdead hd)⟩) (fun u p _ hf => ?_)
    (fun p hx => by simp [hps, Prog.freeing] at hx) (fun n hx => ?_)
    (fun f g hx => .inl (by rw [← hs] at hx; exact hx)) (fun m hm hd => ?_)
  · rw [hat]
    split_ifs
    · rfl
    · exact hg.nlink n (hdead hd)
  · rw [← hg.alone u p hf, ← hs]
    rfl
  · rw [hps] at hx
    cases hx
    refine ⟨by rwa [hat, if_pos rfl], fun u _ hu => ?_⟩
    exact hg.claimed u _ hu hn
  · rw [hps] at hm
    rw [hG.key m (h.ref_pos_of_own hm)] at hd
    exact absurd (hdead hd) (hg.not_dead hfin hm)

theorem files {x : ℕ} {o : Option File} (hfin : (s.proc t).prog.finishing = none)
    (hG : Guar s ({ s with file := update s.file x o }.setProc t q) t) (hq : q.prog.Clean)
    (ho : ∀ g, o = some g → g.ip ∈ (s.proc t).own)
    (hown : ∀ k ∈ q.own, k ∈ (s.proc t).own ∨ ∃ g, s.file x = some g ∧ k = g.ip) :
    Gone ({ s with file := update s.file x o }.setProc t q) := by
  have hps : ({ s with file := update s.file x o }.setProc t q).proc t = q := update_self ..
  have hdead : ∀ {n}, Dead ({ s with file := update s.file x o }.setProc t q) n → Dead s n :=
    dead_of_same hG hps hq.claimed fun _ => rfl
  refine hg.next h hG (fun n hd => ⟨hg.nlink n (hdead hd), .inl (hdead hd)⟩)
    (fun u p _ hf => hg.alone u p hf) (fun p hx => by simp [hps, hq.freeing] at hx)
    (fun n hx => by simp [hps, hq.claimed] at hx) (fun f g hf => ?_)
    (fun m hm hd => ?_)
  · obtain rfl | hfx := eq_or_ne f x
    · refine .inr fun hd => hg.not_dead hfin (ho g ?_) (hdead hd)
      simpa [Sys.setProc] using hf
    · left
      simpa [Sys.setProc, hfx] using hf
  · exfalso
    rw [hps] at hm
    rcases hown m hm with hm | ⟨g, hx, rfl⟩
    · exact hg.not_dead hfin hm (hdead hd)
    · exact hg.file x g hx (hdead hd)

theorem quiet (hG : Guar s s' t) (hfin : (s.proc t).prog.finishing = none)
    (hproc : s'.proc = update s.proc t q) (hown : q.own = (s.proc t).own) (hit : s'.itable = s.itable)
    (hfile : s'.file = s.file) (hdisk : s'.disk = s.disk) (hq : q.prog.Clean) : Gone s' :=
  hg.same h hG (by rw [hproc, update_self]) hown (fun k => by rw [hit]) hfile
    (fun n => by rw [Sys.at, Sys.at, hdisk]) (fun n _ => by rw [Sys.at, Sys.at, hdisk]) hq.claimed
    (by simp [hfin]) (by simp [hq.freeing])

theorem entry {i : Inode} {k : Prog} (hi : i.ref = (s.itable ip).ref)
    (hG : Guar s ((s.setEntry ip i).setProc t { s.proc t with prog := k }) t)
    (hc : k.claimed = none) (hfin : ∀ p, (s.proc t).prog.finishing = some p → k.finishing = some p)
    (hf : ∀ p, k.freeing = some p → (s.itable p).ref = 1) :
    Gone ((s.setEntry ip i).setProc t { s.proc t with prog := k }) := by
  refine hg.same h hG (update_self ..) rfl (fun m => ?_) rfl (fun _ => rfl) (fun _ _ => rfl) hc hfin hf
  obtain rfl | hm := eq_or_ne m ip
  · rw [← hi]
    exact congrArg Inode.ref (update_self ..)
  · exact congrArg Inode.ref (update_of_ne hm ..)

theorem change {k : Prog} {d : Dinode} (hk : Knows s t c)
    (hG : Guar s ((s.change ip d w).setProc t { s.proc t with prog := k }) t)
    (hfin : (s.proc t).prog.finishing = none) (hl : ip ∈ c.locks)
    (htype : d.type = (s.itable ip).din.type) (hc : k.Clean) :
    Gone ((s.change ip d w).setProc t { s.proc t with prog := k }) := by
  refine hg.same h hG (update_self ..) rfl (fun m => ?_) rfl (fun n => ?_)
    (fun n hd => ?_) hc.claimed (by simp [hfin]) (by simp [hc.freeing])
  · obtain rfl | hm := eq_or_ne m ip
    · simp [Sys.setProc, Sys.change, Sys.setDisk, Sys.setEntry]
    · exact congrArg Inode.ref (update_of_ne hm ..)
  · rw [Sys.at_change]
    split_ifs with he
    · rw [he, htype, (hk.cached h hl).1]
    · rfl
  · rw [Sys.at_change, if_neg]
    rintro rfl
    exact hg.not_dead_of_lock hk hfin hl hd

end

end Gone

/-! ### Runs -/

/-- The inode that a process looks up next, in a directory or at the root. -/
def Sys.lookedUp (s : Sys) : Prog → Option (ℕ × ℕ)
  | .iget dev inum _ => some (dev, inum)
  | .dirlookup dp name _ => (lookup (s.itable dp).din name).map ((s.itable dp).dev, ·)
  | _ => none

/-- What a process looks up has links. -/
def linkedLookup (s : Sys) : Act → Bool
  | .run t _ _ => match s.lookedUp (s.proc t).prog with
      | some n => (s.at n).nlink ≠ 0
      | none => true
  | _ => true

theorem Inv.nlink_of_freeing (h : Inv N s) (hf : (s.proc t).prog.freeing = some p) :
    (s.at (s.key p)).nlink = 0 ∧ (s.at (s.key p)).type ≠ .none := by
  obtain ⟨c, hk, _⟩ := h.knows t
  obtain ⟨hl, hown⟩ := h.of_fin (Prog.fin_of_freeing hf)
  obtain ⟨hv, h0⟩ := hk.free p hf
  have hc := h.cached (h.ref_pos_of_own hown) hv fun u hu => ?_
  · rw [← hc.1]
    exact ⟨h0, by rw [hc.1]; exact hc.2⟩
  · rw [hl] at hu
    cases hu
    cases hprog : (s.proc t).prog <;> rw [hprog] at hf <;> simp [Prog.freeing, Prog.clearing] at hf ⊢

theorem Gone.ran (h : Inv N s) (hg : Gone s) (ht : t < N) (hr : Ran N s t ok w (s.proc t).prog s')
    (hl : ∀ n, s.lookedUp (s.proc t).prog = some n → (s.at n).nlink ≠ 0) : Gone s' := by
  have hG := (h.ran ht hr).guar
  obtain ⟨c, hk, hn⟩ := h.knows t
  generalize hp : (s.proc t).prog = k at hr hn hl
  have hfin : k.finishing = none → (s.proc t).prog.finishing = none := fun hx => by rw [hp, hx]
  have look : ∀ {n ip i q}, s.lookedUp k = some n → Got s n ip i →
      Guar s ((s.setEntry ip i).setProc t q) t → q.own = ip ::ₘ (s.proc t).own →
      k.finishing = none → q.prog.Clean → Gone ((s.setEntry ip i).setProc t q) := by
    intro n ip i q hx hgot hG hown hf hq
    have hnl := hl n hx
    refine hg.got h hG hgot hown (hfin hf) hq (fun hd => hnl (hg.nlink n (.inl hd)))
      (fun u _ hu => hnl (hg.nlink n (.inr ⟨u, hu⟩))) fun u _ hu he => hnl ?_
    rw [← he]
    exact (h.nlink_of_freeing hu).1
  cases hr with
  | beginOp =>
      exact hg.quiet h hG (hfin rfl) rfl rfl rfl rfl rfl hn.2.2.clean
  | endLast => exact hg.quiet h hG (hfin rfl) rfl rfl rfl rfl rfl ⟨rfl, rfl, rfl, rfl⟩
  | endOp =>
      exact hg.quiet h hG (hfin rfl) rfl rfl rfl rfl rfl hn.2.2.clean
  | commit => exact hg.quiet h hG (hfin rfl) rfl rfl rfl rfl rfl hn.2.clean
  | iget hgot => exact look rfl hgot hG rfl rfl (hn.2 _).clean
  | @idup ip k =>
      have hip : ip ∈ (s.proc t).own := by
        rw [hk.own]
        exact hn.1
      have hr := h.ref_pos_of_own hip
      have hlive := hg.not_dead (hfin rfl) hip
      refine hg.got h hG (.found (h.table.small ip hr) hr rfl) rfl (hfin rfl) hn.2.clean
        (fun hd => hlive (.inl hd)) (fun u _ hu => hlive (.inr ⟨u, hu⟩)) fun u hut hu _ =>
        hg.not_freeing h hip hut hu
  | ilock =>
      exact hg.entry h rfl hG hn.2.2.clean.claimed (by simp [hfin rfl]) (by simp [hn.2.2.clean.freeing])
  | ilockRead =>
      exact hg.entry h rfl hG hn.2.2.clean.claimed (by simp [hfin rfl]) (by simp [hn.2.2.clean.freeing])
  | iunlock =>
      obtain ⟨l, _, hn⟩ := hn
      exact hg.entry h rfl hG hn.clean.claimed (by simp [hfin rfl]) (by simp [hn.clean.freeing])
  | @inspect ip k =>
      have hn := hn.2 _ (h.table.dev _ (hk.ref_pos_lock h hn.1))
      exact hg.quiet h hG (hfin rfl) rfl rfl rfl rfl rfl hn.clean
  | update => exact hg.change h hk hG (hfin rfl) hn.1 (hn.2.1 _).1 hn.2.2.clean
  | itrunc => exact hg.change h hk hG (hfin rfl) hn.1 rfl hn.2.clean
  | writei => exact hg.quiet h hG (hfin rfl) rfl rfl rfl rfl rfl hn.2.clean
  | lookupNone =>
      exact hg.quiet h hG (hfin rfl) rfl rfl rfl rfl rfl hn.2.1.clean
  | lookup hd hlook hgot => exact look (by simp [Sys.lookedUp, hlook]) hgot hG rfl rfl (hn.2.2 _).clean
  | addEntry => exact hg.change h hk hG (hfin rfl) hn.1 rfl (hn.2.2.2 _).clean
  | addFail =>
      exact hg.quiet h hG (hfin rfl) rfl rfl rfl rfl rfl (hn.2.2.2 _).clean
  | clearEntry => exact hg.change h hk hG (hfin rfl) hn.1 rfl hn.2.clean
  | iputFree hf =>
      refine hg.entry h rfl hG rfl (by simp [hfin rfl]) fun p hx => ?_
      cases hx
      exact hf.1
  | @iput ip k =>
      obtain ⟨o, ho, _, hn⟩ := hn
      exact hg.drop h hG (by rw [hk.own, ho]; simp) hn.clean (by simp [hfin rfl])
  | @free ip k =>
      have hf : (s.proc t).prog.freeing = some ip := by rw [hp]; rfl
      exact hg.free h hp hG (hk.free ip hf).2
  | @invalidate ip k =>
      exact hg.entry h rfl hG rfl (by rw [hp]; exact fun p hx => hx) (by simp [Prog.freeing])
  | @unlockFreed ip k =>
      exact hg.entry h rfl hG rfl (by rw [hp]; exact fun p hx => hx) (by simp [Prog.freeing])
  | @decref ip k =>
      obtain ⟨o, ho, _, hn⟩ := hn
      refine hg.drop h hG (by rw [hk.own, ho]; simp) hn.clean fun p hx => ?_
      rw [hp] at hx
      exact (Option.some.inj hx).symm
  | iallocNone =>
      exact hg.quiet h hG (hfin rfl) rfl rfl rfl rfl rfl hn.2.2.1.clean
  | ialloc hfree => exact hg.alloc h (hfin rfl) hfree hn.2.1 hG
  | iallocNext => exact hg.quiet h hG (hfin rfl) rfl rfl rfl rfl rfl ⟨rfl, rfl, rfl, rfl⟩
  | @igetNew dev inum ip i k hgot =>
      have hc : (s.proc t).prog.claimed = some (dev, inum) := by rw [hp]; rfl
      refine hg.got h hG hgot rfl (hfin rfl) (hn.2 ip).clean (hg.claimed t _ hc)
        (fun u hut hu => hut (hg.unique u t _ hu hc)) fun u _ hu he => ?_
      have hx := (hg.own u ip (hg.others_eq_zero h hu).1 (he ▸ .inr ⟨t, hc⟩)).1
      cases hprog : (s.proc u).prog <;> rw [hprog] at hu hx <;>
        simp [Prog.freeing, Prog.finishing] at hu hx
  | openNone =>
      obtain ⟨o, _, _, hn, _⟩ := hn
      exact hg.quiet h hG (hfin rfl) rfl rfl rfl rfl rfl hn.clean
  | openFile hx hfile =>
      obtain ⟨o, ho, hb, _, hn⟩ := hn
      refine hg.files h (hfin rfl) hG (hn _).clean (fun g he => ?_) fun m hm =>
        .inl (Multiset.mem_of_mem_erase hm)
      cases he
      rw [hk.own, ho]
      simp
  | useNone =>
      exact hg.quiet h hG (hfin rfl) rfl rfl rfl rfl rfl hn.2.1.clean
  | useFile =>
      exact hg.quiet h hG (hfin rfl) rfl rfl rfl rfl rfl (hn.2.2 _).clean
  | fileDone => exact hg.quiet h hG (hfin rfl) rfl rfl rfl rfl rfl hn.2.clean
  | closeNone =>
      exact hg.quiet h hG (hfin rfl) rfl rfl rfl rfl rfl hn.2.1.clean
  | @closeFile f g k hf =>
      refine hg.files h (hfin rfl) hG (hn.2.2 _).clean (by simp) fun m hm => ?_
      exact (Multiset.mem_cons.1 hm).symm.imp_right fun he => ⟨g, hf, he⟩
  | @setCwd ip k =>
      have hn : Disc k { c with cwd := ip } := hn
      exact hg.quiet h hG (hfin rfl) rfl rfl rfl rfl rfl hn.clean

theorem Gone.step {a : Act} (h : Inv N s) (hg : Gone s) (ha : linkedLookup s a = true)
    (hs : step N s a = some s') : Gone s' := by
  cases step_cases hs with
  | @call t call ht hp =>
      have hd := call.disc (w := (s.proc t).cwd)
      exact hg.quiet h (h.call ht hp call).guar (by rw [hp]; rfl) rfl rfl rfl rfl rfl hd.clean
  | @fork t u ht hu hp hd =>
      have hcwd := h.cwd_mem_own hp
      have hr := h.ref_pos_of_own hcwd
      have hlive := hg.not_dead (by rw [hp]; rfl) hcwd
      refine hg.got h (h.fork hu hp hd).guar (.found (h.table.small _ hr) hr rfl) ?_
        (by rw [hd]; rfl) ⟨rfl, rfl, rfl, rfl⟩ (fun hx => hlive (.inl hx))
        (fun v _ hv => hlive (.inr ⟨v, hv⟩)) fun v _ hv _ => ?_
      · rw [h.own_of_die hd]
        rfl
      · -- the parent has a pointer too
        have hne : v ≠ t := by
          rintro rfl
          simp [hp, Prog.freeing] at hv
        exact hg.not_freeing h hcwd hne hv
  | @run t ok w s' ha' ht hr =>
      refine hg.ran h ht hr fun n hn => ?_
      subst ha'
      simpa [linkedLookup, hn] using ha

theorem boot_gone (hf : Formatted disk clock) : Gone (boot disk clock) := by
  have hprog : ∀ t, ((boot disk clock).proc t).prog = .ret ∨ ((boot disk clock).proc t).prog = .die := by
    intro t
    obtain rfl | ht := eq_or_ne t 0
    · exact .inl rfl
    · exact .inr (by simp [boot, ht])
  have hdead : ∀ {n}, Dead (boot disk clock) n → (disk n.1 n.2).type = .none := by
    rintro n (hd | ⟨u, hu⟩)
    · exact hd
    · rcases hprog u with hp | hp <;> simp [hp, Prog.claimed] at hu
  refine ⟨fun t p hp => ?_, fun t n hc => ?_, fun t u n hc => ?_,
    fun n hd => hf.free n.1 n.2 (hdead hd), by simp [boot], fun u k hm hd => ?_⟩
  · rcases hprog t with hx | hx <;> simp [hx, Prog.freeing] at hp
  · rcases hprog t with hx | hx <;> simp [hx, Prog.claimed] at hc
  · rcases hprog t with hx | hx <;> simp [hx, Prog.claimed] at hc
  · obtain rfl | hu := eq_or_ne u 0
    · have hk : k = 0 := by simpa [boot] using hm
      subst hk
      have := hdead hd
      rw [show (boot disk clock).key 0 = (ROOTDEV, Fs.ROOTINO) from rfl, hf.root] at this
      cases this
    · simp [boot, hu] at hm

/-- In a run in which only inodes with links are looked up. -/
theorem gone_of_exec (hN : 0 < N) (hf : Formatted disk clock) {acts : List Act}
    (ha : Runs.along (step N) linkedLookup (boot disk clock) acts = true)
    (hs : Runs.exec (step N) (boot disk clock) acts = some s) : Gone s :=
  (Runs.exec_along (I := fun s => Inv N s ∧ Gone s) (fun _ _ _ h ha hs =>
    ⟨h.1.step hs, h.2.step h.1 ha hs⟩) ⟨boot_inv hN hf, boot_gone hf⟩ ha hs).2

/-! ### The table is safe -/

/-- The step that clears an inode is one of `iput`, on an inode without links, and with the only
pointer to it. -/
def FreedAlone (N : ℕ) (s : Sys) : Prop :=
  ∀ a s' n, step N s a = some s' → (s.at n).type ≠ .none → (s'.at n).type = .none →
    ∃ t ok w p, a = .run t ok w ∧ (s.proc t).prog.freeing = some p ∧ s.key p = n ∧
      (s.at n).nlink = 0 ∧ p ∈ (s.proc t).own ∧ (s.itable p).ref = 1

/-- After `ialloc` has taken an inode, nobody who locks an entry for it finds what was there
before. -/
def NeverOld (N : ℕ) (s : Sys) : Prop :=
  ∀ t dev type m inum k ok w s₁, (s.proc t).prog = .ialloc dev type (m + 1) inum k →
    (s.disk dev inum).type = .none → step N s (.run t ok w) = some s₁ → ∀ acts s₂,
      Runs.exec (step N) s₁ acts = some s₂ → ∀ u p j ok' w' s₃, (s₂.proc u).prog = .ilock p j →
        s₂.key p = (dev, inum) → step N s₂ (.run u ok' w') = some s₃ →
        (s₃.itable p).din = s₃.disk dev inum ∧ (s.disk dev inum).gen < (s₃.itable p).din.gen

structure Shared (N : ℕ) (s : Sys) : Prop where
  one_entry : ∀ k l, 0 < (s.itable k).ref → 0 < (s.itable l).ref → s.key k = s.key l → k = l
  counted : ∀ k, (s.itable k).ref = refsTo N s k
  -- between its calls a process has its current directory
  idle : ∀ t, (s.proc t).prog = .ret → (s.proc t).own = {(s.proc t).cwd}
  iput : ∀ t p k, (s.proc t).prog = .iput p k → frees s p → (s.itable p).lock = none
  never_old : NeverOld N s

theorem Guar.gen_le (h : Inv N s) (hG : Guar s s' t) (n : ℕ × ℕ) : (s.at n).gen ≤ (s'.at n).gen := by
  rcases hG.disk n with hd | ⟨_, _, _, _, hd⟩ | ⟨_, hd⟩
  · exact hd.2.ge
  · exact hd.ge
  · exact (h.table.gen n).le.trans hd

theorem run_of_step (hs : step N s (.run t ok w) = some s') : t < N ∧ run N s t ok w = some s' := by
  simpa [step] using hs

theorem Inv.ilock_fresh {k : Prog} (h : Inv N s) (hp : (s.proc t).prog = .ilock p k)
    (hs : run N s t ok w = some s') : (s'.itable p).din = s.at (s.key p) ∧ s'.disk = s.disk := by
  have hr := run_cases hs
  rw [hp] at hr
  cases hr with
  | ilock hr hl hv =>
      refine ⟨?_, rfl⟩
      rw [← (h.cached hr hv (by simp [hl])).1]
      simp [Sys.goto, Sys.setProc, Sys.setEntry]
  | ilockRead => exact ⟨by simp [Sys.goto, Sys.setProc, Sys.setEntry], rfl⟩

theorem Inv.never_old (h : Inv N s) : NeverOld N s := by
  intro t dev type m inum k ok w s₁ hp hfree hs acts s₂ hacts u p j ok' w' s₃ hu hkey hs₃
  -- the inode on disk is the one that `ialloc` has made, or a younger one
  have hgen : s.clock = (s₁.at (dev, inum)).gen := by
    have hr := (run_of_step hs).2
    simp only [run, hp, hfree, if_true, Option.some.injEq] at hr
    rw [← hr]
    simp [Sys.at, Sys.goto, Sys.setProc, Sys.setDisk]
  have hrun : Inv N s₂ ∧ s.clock ≤ (s₂.at (dev, inum)).gen := by
    refine Runs.exec_invariant (I := fun s' => Inv N s' ∧ s.clock ≤ (s'.at (dev, inum)).gen)
      ⟨h.step hs, hgen.le⟩ (fun x a y hx hs => ?_) hacts
    obtain ⟨v, hv⟩ := hx.1.next hs
    exact ⟨hv.inv, hx.2.trans (hv.guar.gen_le hx.1 _)⟩
  obtain ⟨hdin, hdisk⟩ := hrun.1.ilock_fresh hu (run_of_step hs₃).2
  rw [hdin, hkey, hdisk]
  exact ⟨rfl, (h.table.gen (dev, inum)).trans_le hrun.2⟩

theorem Inv.shared (h : Inv N s) : Shared N s where
  one_entry := h.table.inj
  counted := h.table.refs
  idle t hp := by
    obtain ⟨c, hk, hn⟩ := h.knows t
    rw [hp] at hn
    rw [hk.own, hk.cwd, hn.1]
  iput t p k hp hf := h.iput_unlocked hp hf
  never_old := h.never_old

theorem Gone.freedAlone (h : Inv N s) (hg : Gone s) : FreedAlone N s := by
  intro a s' n hs hn hn'
  have clear : ∀ {t}, Guar s s' t → ∃ p, (s.proc t).prog.freeing = some p ∧ s.key p = n ∧
      (s.at n).nlink = 0 ∧ p ∈ (s.proc t).own ∧ (s.itable p).ref = 1 := by
    intro t hG
    rcases hG.disk n with hd | ⟨p, hf, hkey, _⟩ | hd
    · exact absurd (hd.1 ▸ hn') hn
    · exact ⟨p, hf, hkey, hkey ▸ (h.nlink_of_freeing hf).1, (hg.others_eq_zero h hf).1, hg.alone t p hf⟩
    · exact absurd hd.1 hn
  cases step_cases hs with
  | call ht hp =>
      obtain ⟨p, hf, _⟩ := clear (h.call ht hp _).guar
      simp [hp, Prog.freeing] at hf
  | fork ht hu hp hd =>
      obtain ⟨p, hf, _⟩ := clear (h.fork hu hp hd).guar
      simp [hd, Prog.freeing] at hf
  | @run t ok w _ ha ht hr =>
      obtain ⟨p, hp⟩ := clear (h.ran ht hr).guar
      exact ⟨t, ok, w, p, ha, hp⟩

/-- **The inode table is safe.**  In every state that processes reach from a formatted disk, an
inode has one entry, which counts the pointers to it, the `acquiresleep` in `iput` does not wait,
and an inode that is used again is not found with its old contents.  If no process has looked up an
inode without links, then an inode is freed only by the process that has the last pointer to it. -/
theorem inode_table_safe (hN : 0 < N) (hf : Formatted disk clock) {acts : List Act}
    (hs : Runs.exec (step N) (boot disk clock) acts = some s) :
    Shared N s ∧ (Runs.along (step N) linkedLookup (boot disk clock) acts = true → FreedAlone N s) :=
  ⟨(inv_of_exec hN hf hs).shared, fun ha => (gone_of_exec hN hf ha hs).freedAlone (inv_of_exec hN hf hs)⟩

/-- `n` commands of process `t`; every write adds a block to the log. -/
def commands (t n : ℕ) : List Act := List.replicate n (.run t true 1)

/-- A process makes a directory and removes it, up to the point where its inode is cleared. -/
def makeRemove : List Act :=
  [.call 0 (.mkdir ⟨false, [.name 0]⟩)] ++ commands 0 26 ++
    [.call 0 (.unlink ⟨false, [.name 0]⟩)] ++ commands 0 16

set_option maxRecDepth 100000 in
theorem inode_table_safe_makeRemove :
    ((Runs.after (step 1) (boot mkfs 1) makeRemove).proc 0).prog.freeing = some 1 ∧
      Shared 1 (Runs.after (step 1) (boot mkfs 1) makeRemove) ∧
      FreedAlone 1 (Runs.after (step 1) (boot mkfs 1) makeRemove) := by
  have hs := Runs.exec_after (step 1) (boot mkfs 1) makeRemove (by decide +kernel)
  have h := inode_table_safe (by decide) mkfs_formatted hs
  exact ⟨by decide +kernel, h.1, h.2 (by decide +kernel)⟩

/-- Process 0 makes the directories `a` and `a/b`, and `a/b` its current directory.  Process 1
removes both, and is about to clear the inode of `a` when process 0 looks up `..`. -/
def removedParent : List Act :=
  [.fork 0 1, .call 0 (.mkdir ⟨false, [.name 0]⟩)] ++ commands 0 26 ++
    [.call 0 (.mkdir ⟨false, [.name 0, .name 1]⟩)] ++ commands 0 32 ++
    [.call 0 (.chdir ⟨false, [.name 0, .name 1]⟩)] ++ commands 0 19 ++
    [.call 1 (.unlink ⟨false, [.name 0, .name 1]⟩)] ++ commands 1 23 ++
    [.call 1 (.unlink ⟨false, [.name 0]⟩)] ++ commands 1 16 ++
    [.call 0 (.open ⟨false, [.dotdot]⟩ 0)] ++ commands 0 5

set_option maxRecDepth 100000 in
/-- The inode is cleared while two processes have a pointer to it. -/
theorem freed_with_two_pointers :
    (Runs.exec (step 2) (boot mkfs 1) (removedParent ++ commands 1 1)).isSome = true ∧
      ((Runs.after (step 2) (boot mkfs 1) removedParent).itable 1).ref = 2 ∧
      (Runs.after (step 2) (boot mkfs 1) removedParent).key 1 = (1, 2) ∧
      ((Runs.after (step 2) (boot mkfs 1) removedParent).disk 1 2).type = .dir ∧
      ((Runs.after (step 2) (boot mkfs 1) (removedParent ++ commands 1 1)).disk 1 2).type = .none := by
  decide +kernel

end Xv6Cow.Itable

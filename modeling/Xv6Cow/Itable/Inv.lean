import Xv6Cow.Itable.Knows

/-! # The invariant is kept

For each way in which a command changes the state: what it does to the others, and what the process
knows afterwards. -/

namespace Xv6Cow.Itable

open Fs (NINODE NFILE)
open Function (update update_self update_of_ne)

variable {N : ℕ} {s s' : Sys} {t u ip k : ℕ} {i : Inode} {q : Proc} {c e : Ctx} {n : ℕ × ℕ}
    {d : Dinode} {ok : Bool} {w : ℕ}

/-! ### The others -/

namespace Guar

theorem quiet (hproc : s'.proc = update s.proc t q) (hit : s'.itable = s.itable)
    (hdisk : s'.disk = s.disk) (hfile : s'.file = s.file) (hf : q.prog.freeing = none)
    (hc : q.prog.clearing = none) : Guar s s' t where
  proc u hu := by rw [hproc, update_of_ne hu]
  lock k u _ := by rw [hit]
  key k _ := by rw [Sys.key, Sys.key, hit]
  valid k _ hv _ := by rwa [hit]
  din k u _ _ := by rw [hit]
  disk n := .inl (by simp [Sys.at, hdisk])
  file u f _ _ := by rw [hfile]
  freeing p hp := by simp [hproc, hf] at hp
  clearing p hp := by simp [hproc, hc] at hp

theorem entry (hlock : ∀ u, u ≠ t → (i.lock = some u ↔ (s.itable ip).lock = some u))
    (hkey : 0 < (s.itable ip).ref → (i.dev, i.inum) = s.key ip)
    (hvalid : 0 < (s.itable ip).ref → (s.itable ip).valid = true → (s.proc t).prog.clearing ≠
      some ip → i.valid = true)
    (hdin : ∀ u, u ≠ t → (s.itable ip).lock = some u → i.din = (s.itable ip).din)
    (hf : ∀ p, q.prog.freeing = some p → (s.itable p).ref = 1 ∧ p ∈ (s.proc t).own)
    (hc : ∀ p, q.prog.clearing = some p → (s.proc t).prog.freeing = some p) :
    Guar s ((s.setEntry ip i).setProc t q) t := by
  have hself : ((s.setEntry ip i).setProc t q).itable ip = i := update_self ..
  have hne : ∀ {k}, k ≠ ip → ((s.setEntry ip i).setProc t q).itable k = s.itable k :=
    fun hk => update_of_ne hk ..
  have hpself : ((s.setEntry ip i).setProc t q).proc t = q := update_self ..
  refine ⟨fun u hu => update_of_ne hu .., fun k u hu => ?_, fun k hr => ?_, fun k hr hv hcl => ?_,
    fun k u hu hl => ?_, fun n => .inl ⟨rfl, rfl⟩, fun _ _ _ _ => rfl, ?_, ?_⟩
  · obtain rfl | hk := eq_or_ne k ip
    · rw [hself, hlock u hu]
    · rw [hne hk]
  · obtain rfl | hk := eq_or_ne k ip
    · rw [Sys.key, hself, hkey hr]
    · rw [Sys.key, hne hk, Sys.key]
  · obtain rfl | hk := eq_or_ne k ip
    · rw [hself]
      exact hvalid hr hv hcl
    · rwa [hne hk]
  · obtain rfl | hk := eq_or_ne k ip
    · rw [hself, hdin u hu hl]
    · rw [hne hk]
  · rwa [hpself]
  · rwa [hpself]

theorem change (hl : (s.itable ip).lock = some t) (hgen : d.gen = (s.at (s.key ip)).gen)
    (htype : d.type = (s.at (s.key ip)).type ∨ d.type = .none ∧ (s.proc t).prog.freeing = some ip)
    (hf : q.prog.freeing = none)
    (hc : ∀ p, q.prog.clearing = some p → (s.proc t).prog.freeing = some p) :
    Guar s ((s.change ip d w).setProc t q) t := by
  have hself : ((s.change ip d w).setProc t q).itable ip = { s.itable ip with din := d } :=
    update_self ..
  have hne : ∀ {k}, k ≠ ip → ((s.change ip d w).setProc t q).itable k = s.itable k :=
    fun hk => update_of_ne hk ..
  have hpself : ((s.change ip d w).setProc t q).proc t = q := update_self ..
  refine ⟨fun u hu => update_of_ne hu .., fun k u hu => ?_, fun k hr => ?_, fun k hr hv hcl => ?_,
    fun k u hu hlu => ?_, fun n => ?_, fun _ _ _ _ => rfl, ?_, ?_⟩
  · obtain rfl | hk := eq_or_ne k ip
    · rw [hself]
    · rw [hne hk]
  · obtain rfl | hk := eq_or_ne k ip
    · rw [Sys.key, hself, Sys.key]
    · rw [Sys.key, hne hk, Sys.key]
  · obtain rfl | hk := eq_or_ne k ip
    · rwa [hself]
    · rwa [hne hk]
  · rw [hne]
    rintro rfl
    rw [hl] at hlu
    exact hu (Option.some.inj hlu).symm
  · rw [Sys.at_change]
    split_ifs with he
    · subst he
      rcases htype with ht | ht
      · exact .inl ⟨ht, hgen⟩
      · exact .inr (.inl ⟨ip, ht.2, rfl, ht.1, hgen⟩)
    · exact .inl ⟨rfl, rfl⟩
  · rw [hpself, hf]
    rintro p ⟨⟩
  · rwa [hpself]

theorem alloc {dev inum : ℕ} {type : IType} (hn : (s.disk dev inum).type = .none)
    (hf : q.prog.freeing = none) (hc : q.prog.clearing = none) :
    Guar s ({ s.setDisk dev inum { type := type, gen := s.clock } with
      clock := s.clock + 1, lh := s.lh + w }.setProc t q) t := by
  refine ⟨fun u hu => update_of_ne hu .., fun _ _ _ => .rfl, fun _ _ => rfl, fun _ _ hv _ => hv,
    fun _ _ _ _ => rfl, fun n => ?_, fun _ _ _ _ => rfl, fun p hp => ?_, fun p hp => ?_⟩
  · rw [Sys.at_alloc]
    split_ifs with he
    · subst he
      exact .inr (.inr ⟨hn, le_rfl⟩)
    · exact .inl ⟨rfl, rfl⟩
  · simp [Sys.setProc, hf] at hp
  · simp [Sys.setProc, hc] at hp

theorem files {x : ℕ} {o : Option File} (hx : ∀ u, u ≠ t → (s.proc u).busy ≠ some x)
    (hf : q.prog.freeing = none) (hc : q.prog.clearing = none) :
    Guar s ({ s with file := update s.file x o }.setProc t q) t := by
  refine ⟨fun u hu => update_of_ne hu .., fun _ _ _ => .rfl, fun _ _ => rfl, fun _ _ hv _ => hv,
    fun _ _ _ _ => rfl, fun n => .inl ⟨rfl, rfl⟩, fun u f hu hb => ?_, fun p hp => ?_, fun p hp => ?_⟩
  · refine update_of_ne ?_ ..
    rintro rfl
    exact hx u hu hb
  · simp [Sys.setProc, hf] at hp
  · simp [Sys.setProc, hc] at hp

end Guar

/-! ### The process itself -/

/-- What process `t` knows after its own step: what it knew, or what the step has shown. -/
theorem Knows.self (h : Inv N s) (hg : Guar s s' t) (hk : Knows s t c) (hq : s'.proc t = q)
    (hown : q.own = e.own) (htx : q.tx = e.tx) (hcwd : q.cwd = e.cwd)
    (hidle : q.busy = none → e.bor = none)
    (hbusy : ∀ f, q.busy = some f → ∃ g, s'.file f = some g ∧ e.bor = some g.ip)
    (hlock : ∀ k, (s'.itable k).lock = some t ↔ k ∈ e.locks ∨ q.prog.fin = some k)
    (hnodup : e.locks.Nodup) (hapart : ∀ k ∈ e.locks, q.prog.fin ≠ some k)
    (hsupp : e.supports e.own) (hvalid : ∀ k ∈ e.locks, k ∈ c.locks ∨ (s'.itable k).valid = true)
    (hdirs : ∀ d ∈ e.dirs, d ∈ e.locks ∧ (d ∈ c.dirs ∨ (s'.at (s'.key d)).type = .dir))
    (hbelow : ∀ x ∈ e.below, x.1 ∈ e.locks ∧ x.2 ∈ e.own ∧
      (x ∈ c.below ∨ Below s' (s'.key x.1) (s'.key x.2))) (hplain : ∀ x ∈ e.plain, x ∈ e.own ∧
        q.prog.freeing ≠ some x ∧ (x ∈ c.plain ∨ (s'.itable x).valid = true ∧
          (s'.at (s'.key x)).type ≠ .dir ∧ ∀ u, (s'.proc u).prog.freeing ≠ some x ∧
            (s'.proc u).prog.clearing ≠ some x))
    (hfree : ∀ p, q.prog.freeing = some p → (s'.itable p).valid = true ∧ (s'.itable p).din.nlink = 0)
    (hclaimed : ∀ n, q.prog.claimed = some n → ∀ d ∈ e.dirs, Below s' (s'.key d) n) : Knows s' t e := by
  subst hq
  refine ⟨hown, htx, hcwd, hidle, hbusy, hlock, hnodup, hapart, hsupp, fun k hk' => ?_,
    fun d hd => ⟨(hdirs d hd).1, ?_⟩, fun x hx => ⟨(hbelow x hx).1, (hbelow x hx).2.1, ?_⟩,
    fun x hx => ⟨(hplain x hx).1, ?_⟩, hfree, hclaimed⟩
  · exact (hvalid k hk').elim (hg.valid_lock h hk) id
  · exact (hdirs d hd).2.elim (hg.dirs h hk) id
  · exact (hbelow x hx).2.2.elim (hg.below h hk) id
  · exact (hplain x hx).2.2.elim (fun hp => hg.plain h hk hp (hplain x hx).2.1) id

/-- The same for a step that leaves the process what it has. -/
theorem Knows.same {k : Prog} (h : Inv N s) (hg : Guar s s' t) (hk : Knows s t c)
    (hq : s'.proc t = { s.proc t with prog := k }) (hfile : s'.file = s.file)
    (hlock : ∀ m, (s'.itable m).lock = (s.itable m).lock) (hfin : k.fin = (s.proc t).prog.fin)
    (hkf : k.freeing = none) (hclaimed : ∀ n, k.claimed = some n → ∀ d ∈ c.dirs,
      Below s' (s'.key d) n) : Knows s' t c :=
  Knows.self h hg hk hq hk.own hk.tx hk.cwd hk.idle (by rw [hfile]; exact hk.busy)
    (fun m => by rw [hlock, hk.lock, hfin]) hk.nodup (by rw [hfin]; exact hk.apart) hk.supp
    (fun _ hm => .inl hm) (fun d hd => ⟨(hk.dirs d hd).1, .inl hd⟩)
    (fun x hx => ⟨(hk.below x hx).1, (hk.below x hx).2.1, .inl hx⟩)
    (fun x hx => ⟨(hk.plain x hx).1, by simp [hkf], .inl hx⟩) (by simp [hkf]) hclaimed

/-- The invariant holds after a step of process `t`, which leaves the others what they know. -/
structure Next (N : ℕ) (s s' : Sys) (t : ℕ) : Prop where
  inv : Inv N s'
  guar : Guar s s' t

theorem Inv.of_step (h : Inv N s) (hT : Table N s') (hg : Guar s s' t) (hq : s'.proc t = q)
    (hself : Knows s' t e) (hn : Now q.prog e) : Next N s s' t := by
  refine ⟨⟨hT, fun u => ?_⟩, hg⟩
  obtain rfl | hu := eq_or_ne u t
  · exact ⟨e, hself, by rwa [hq]⟩
  · obtain ⟨c, hc, hn⟩ := h.knows u
    exact ⟨c, hg.others h hc hu, by rwa [hg.proc u hu]⟩

/-- A command that leaves the lock of its entry alone leaves all of them. -/
theorem Sys.lock_setEntry (hi : i.lock = (s.itable ip).lock) (m : ℕ) :
    (((s.setEntry ip i).setProc t q).itable m).lock = (s.itable m).lock := by
  obtain rfl | hm := eq_or_ne m ip
  · rw [← hi]
    exact congrArg Inode.lock (update_self ..)
  · exact congrArg Inode.lock (update_of_ne hm ..)

/-! ### Commands that leave the table and the disk alone -/

theorem Inv.quiet (h : Inv N s) (ht : t < N) (hk : Knows s t c) (hc : (s.proc t).prog.fin = none)
    (hproc : s'.proc = update s.proc t q) (hit : s'.itable = s.itable) (hdisk : s'.disk = s.disk)
    (hclock : s'.clock = s.clock) (hfile : s'.file = s.file) (hq : q.prog.fin = none)
    (hqc : q.prog.claimed = none) (hown : q.own = (s.proc t).own) (heo : e.own = c.own)
    (hel : e.locks = c.locks) (hsupp : e.supports c.own) (htx : q.tx = e.tx) (hcwd : q.cwd = e.cwd)
    (hidle : q.busy = none → e.bor = none)
    (hbusy : ∀ f, q.busy = some f → ∃ g, s.file f = some g ∧ e.bor = some g.ip)
    (hdirs : ∀ d ∈ e.dirs, d ∈ c.dirs ∨ d ∈ c.locks ∧ (s.itable d).din.type = .dir)
    (hbelow : ∀ x ∈ e.below, x ∈ c.below)
    (hplain : ∀ x ∈ e.plain, x ∈ c.plain ∨ x ∈ c.locks ∧ x ∈ c.own ∧ (s.itable x).din.type ≠ .dir)
    (hn : Now q.prog e) : Next N s s' t := by
  have hqf : q.prog.freeing = none := Prog.freeing_of_fin hq
  have hqr : q.prog.clearing = none := Prog.clearing_of_fin hq
  have hg : Guar s s' t := .quiet hproc hit hdisk hfile hqf hqr
  have hps : s'.proc t = q := by rw [hproc, update_self]
  have hat : ∀ k, s'.at (s'.key k) = s.at (s.key k) :=
    fun k => by rw [Sys.at, Sys.key, hdisk, hit, Sys.at, Sys.key]
  refine h.of_step (h.table.quiet ht hproc hown (by simp [Prog.clearing_of_fin hc]) hit hdisk hclock
    hfile) hg hps (Knows.self h hg hk hps (by rw [hown, hk.own, heo]) htx hcwd hidle
      (by rwa [hfile]) (fun k => ?_) (hel ▸ hk.nodup) (by simp [hq]) (heo ▸ hsupp)
      (fun k hk' => .inl (hel ▸ hk')) (fun d hd => ?_) (fun x hx => ?_) (fun x hx => ?_)
      (by simp [hqf]) (by simp [hqc])) hn
  · rw [hit, hk.lock, hel, hc, hq]
  · rw [hel, hat]
    rcases hdirs d hd with hd' | ⟨hl, hd'⟩
    · exact ⟨(hk.dirs d hd').1, .inl hd'⟩
    · exact ⟨hl, .inr (by rw [← (hk.cached h hl).1, hd'])⟩
  · rw [hel, heo]
    exact ⟨(hk.below x (hbelow x hx)).1, (hk.below x (hbelow x hx)).2.1, .inl (hbelow x hx)⟩
  · rw [heo, hqf, hat, hit]
    rcases hplain x hx with hx' | ⟨hl, ho, hx'⟩
    · exact ⟨(hk.plain x hx').1, by simp, .inl hx'⟩
    · refine ⟨ho, by simp, .inr ⟨hk.valid x hl, by rwa [← (hk.cached h hl).1], fun u => ?_⟩⟩
      obtain rfl | hu := eq_or_ne u t
      · simp [hps, hqf, hqr]
      · rw [hg.proc u hu]
        exact ⟨hk.not_freeing h hl u, hk.not_clearing h hl u⟩

/-! ### `iget` and `idup` -/

namespace Got

variable (hgot : Got s n ip i)
include hgot

theorem small : ip < NINODE := by
  cases hgot <;> assumption

theorem key : (i.dev, i.inum) = n := by
  cases hgot with
  | found hip hr hk => exact hk
  | taken => rfl

theorem ref : i.ref = (s.itable ip).ref + 1 := by
  cases hgot with
  | found => rfl
  | taken hip hn hr => simp [hr]

theorem lock : i.lock = (s.itable ip).lock := by
  cases hgot <;> rfl

theorem din : i.din = (s.itable ip).din := by
  cases hgot <;> rfl

theorem key_of_pos (hr : 0 < (s.itable ip).ref) : s.key ip = n := by
  cases hgot with
  | found _ _ hk => exact hk
  | taken _ _ hz => omega

theorem valid (hr : 0 < (s.itable ip).ref) : i.valid = (s.itable ip).valid := by
  cases hgot with
  | found => rfl
  | taken _ _ hz => omega

theorem pos_of_valid (hv : i.valid = true) : 0 < (s.itable ip).ref := by
  cases hgot with
  | found _ hr => exact hr
  | taken => cases hv

theorem apart (h : Table N s) (hdev : n.1 = ROOTDEV) : 0 < (s.itable ip).ref ∧
    (i.dev, i.inum) = s.key ip ∨ i.dev = ROOTDEV ∧ ∀ k, 0 < (s.itable k).ref →
      s.key k ≠ (i.dev, i.inum) := by
  cases hgot with
  | found _ hr hk => exact .inl ⟨hr, rfl⟩
  | taken _ hn _ => exact .inr ⟨hdev, fun k hk => hn k (h.small k hk) hk⟩

end Got

section
variable (h : Inv N s) (ht : t < N) (hk : Knows s t c)
include h ht hk

theorem Inv.got (hc : (s.proc t).prog.fin = none) (hgot : Got s n ip i)
    (hdev : n.1 = ROOTDEV) (hown : q.own = ip ::ₘ (s.proc t).own) (heo : e.own = ip ::ₘ c.own)
    (hel : e.locks = c.locks) (heb : e.bor = c.bor) (hb : q.busy = (s.proc t).busy)
    (htx : q.tx = e.tx) (hcwd : q.cwd = e.cwd)
    (hdirs : ∀ d ∈ e.dirs, d ∈ c.dirs ∨ d ∈ c.locks ∧ (s.itable d).din.type = .dir)
    (hbelow : ∀ x ∈ e.below, x ∈ c.below ∨ x.1 ∈ c.locks ∧ x.2 = ip ∧ Below s (s.key x.1) n)
    (hplain : ∀ x ∈ e.plain, x ∈ c.plain) (hn : Disc q.prog e) :
    Next N s ((s.setEntry ip i).setProc t q) t := by
  have hq := hn.clean
  have hclr : (s.proc t).prog.clearing = none := Prog.clearing_of_fin hc
  have hg : Guar s ((s.setEntry ip i).setProc t q) t := by
    refine .entry (fun u _ => by rw [hgot.lock]) (fun hr => ?_) (fun hr hv _ => ?_)
      (fun u _ _ => hgot.din) ?_ ?_
    · rw [hgot.key, hgot.key_of_pos hr]
    · rw [hgot.valid hr, hv]
    · simp [hq.freeing]
    · simp [hq.clearing]
  have hps : ((s.setEntry ip i).setProc t q).proc t = q := update_self ..
  have hself : ((s.setEntry ip i).setProc t q).itable ip = i := update_self ..
  have hT : Table N ((s.setEntry ip i).setProc t q) := by
    refine h.table.entry ht hgot.small (hgot.apart h.table hdev) (fun k => ?_)
      (fun hr hv hx hy => ?_) (by simp [hclr])
    · rw [hown, hgot.ref, Multiset.count_cons]
      split_ifs <;> omega
    · have hr' := hgot.pos_of_valid hv
      rw [hgot.din, hgot.key, ← hgot.key_of_pos hr']
      refine h.table.cached ip hr' (by rwa [hgot.valid hr'] at hv) fun u hu => ?_
      obtain rfl | hut := eq_or_ne u t
      · simp [hclr] at hu
      · exact hy u hut hu
  refine h.of_step hT hg hps (Knows.self h hg hk hps (by rw [hown, heo, hk.own]) htx hcwd ?_ ?_
    (fun k => ?_) (hel ▸ hk.nodup) (by simp [hq.fin]) (fun p hp => ?_)
    (fun k hk' => .inl (hel ▸ hk')) (fun d hd => ?_) (fun x hx => ?_) (fun x hx => ?_)
    (by simp [hq.freeing]) (by simp [hq.claimed])) hn.now
  · rw [hb, heb]
    exact hk.idle
  · rw [hb, heb]
    exact hk.busy
  · rw [Sys.lock_setEntry hgot.lock, hk.lock, hel, hc, hq.fin]
  · rw [heo, heb]
    exact (hk.supp p (hel ▸ hp)).imp_left (Multiset.mem_cons_of_mem ·)
  · rw [hel]
    rcases hdirs d hd with hd' | ⟨hl, hd'⟩
    · exact ⟨(hk.dirs d hd').1, .inl hd'⟩
    · refine ⟨hl, .inr ?_⟩
      rw [hg.key_lock h hk hl, (hg.disk_lock h hk hl).1, ← (hk.cached h hl).1, hd']
  · rw [hel, heo]
    rcases hbelow x hx with hx' | ⟨hl, rfl, hx'⟩
    · exact ⟨(hk.below x hx').1, Multiset.mem_cons_of_mem (hk.below x hx').2.1, .inl hx'⟩
    · refine ⟨hl, Multiset.mem_cons_self _ _, .inr ?_⟩
      have hkx : ((s.setEntry x.2 i).setProc t q).key x.2 = n := by rw [Sys.key, hself, hgot.key]
      rw [hg.key_lock h hk hl, hkx]
      exact hg.below_of h (hg.disk_lock h hk hl).2 hx'
  · rw [heo, hq.freeing]
    exact ⟨Multiset.mem_cons_of_mem (hk.plain x (hplain x hx)).1, by simp, .inl (hplain x hx)⟩

/-! ### Sleep locks -/

/-- The lock of an entry changes hands between process `t` and nobody; its inode may be read from
the disk. -/
theorem Inv.relock (hc : (s.proc t).prog.clearing = none)
    (hr : 0 < (s.itable ip).ref) (hl : (s.itable ip).lock = none ∨ (s.itable ip).lock = some t)
    (hil : i.lock = none ∨ i.lock = some t) (hkey : (i.dev, i.inum) = s.key ip)
    (href : i.ref = (s.itable ip).ref) (hvalid : (s.itable ip).valid = true → i.valid = true)
    (hcached : i.valid = true → i.din = s.at (s.key ip) ∧ (s.at (s.key ip)).type ≠ .none)
    (hown : q.own = (s.proc t).own) (heo : e.own = c.own) (hsupp : e.supports c.own)
    (heb : e.bor = c.bor) (hb : q.busy = (s.proc t).busy) (htx : q.tx = e.tx) (hcwd : q.cwd = e.cwd)
    (hnodup : e.locks.Nodup) (hlock : ∀ k, k ∈ e.locks ∨ q.prog.fin = some k ↔
      if k = ip then i.lock = some t else k ∈ c.locks ∨ (s.proc t).prog.fin = some k)
    (hapart : ∀ k ∈ e.locks, q.prog.fin ≠ some k)
    (hel : ∀ k ∈ e.locks, k ∈ c.locks ∨ k = ip ∧ i.valid = true)
    (hdirs : ∀ d ∈ e.dirs, d ∈ c.dirs ∧ d ∈ e.locks)
    (hbelow : ∀ x ∈ e.below, x ∈ c.below ∧ x.1 ∈ e.locks)
    (hplain : ∀ x ∈ e.plain, x ∈ c.plain ∧ q.prog.freeing ≠ some x)
    (hfree : ∀ p, q.prog.freeing = some p → p = ip ∧ frees s ip ∧ ip ∈ c.own ∧ i.valid = true)
    (hqc : q.prog.clearing = none) (hqn : q.prog.claimed = none) (hn : Now q.prog e) :
    Next N s ((s.setEntry ip i).setProc t q) t := by
  have hg : Guar s ((s.setEntry ip i).setProc t q) t := by
    refine .entry (fun u hu => ?_) (fun _ => hkey) (fun _ hv _ => hvalid hv) (fun u hu hlu => ?_)
      (fun p hp => ?_) (by simp [hqc])
    · rcases hl with hl | hl <;> rcases hil with hil | hil <;> simp [hl, hil, hu.symm]
    · rcases hl with hl | hl <;> rw [hl] at hlu <;> cases hlu
      exact absurd rfl hu
    · obtain ⟨rfl, hf, ho, _⟩ := hfree p hp
      exact ⟨hf.1, by rwa [hk.own]⟩
  have hps : ((s.setEntry ip i).setProc t q).proc t = q := update_self ..
  have hself : ((s.setEntry ip i).setProc t q).itable ip = i := update_self ..
  have hne : ∀ {k}, k ≠ ip → ((s.setEntry ip i).setProc t q).itable k = s.itable k :=
    fun hk => update_of_ne hk ..
  have hT : Table N ((s.setEntry ip i).setProc t q) := by
    refine h.table.entry ht (h.table.small ip hr) (.inl ⟨hr, hkey⟩) (fun k => ?_)
      (fun _ hv _ _ => ?_) (by simp [hc])
    · rw [hown, href]
    · rw [hkey]
      exact hcached hv
  refine h.of_step hT hg hps (Knows.self h hg hk hps (by rw [hown, heo, hk.own]) htx hcwd ?_ ?_
    (fun k => ?_) hnodup hapart (heo ▸ hsupp) (fun k hk' => ?_)
    (fun d hd => ⟨(hdirs d hd).2, .inl (hdirs d hd).1⟩) (fun x hx => ?_) (fun x hx => ?_)
    (fun p hp => ?_) (by simp [hqn])) hn
  · rw [hb, heb]
    exact hk.idle
  · rw [hb, heb]
    exact hk.busy
  · rw [hlock]
    split_ifs with hkp
    · rw [hkp, hself]
    · rw [hne hkp, hk.lock]
  · rcases hel k hk' with hl' | ⟨rfl, hv⟩
    · exact .inl hl'
    · exact .inr (by rw [hself, hv])
  · rw [heo]
    exact ⟨(hbelow x hx).2, (hk.below x (hbelow x hx).1).2.1, .inl (hbelow x hx).1⟩
  · rw [heo]
    exact ⟨(hk.plain x (hplain x hx).1).1, (hplain x hx).2, .inl (hplain x hx).1⟩
  · obtain ⟨rfl, hf, _, hv⟩ := hfree p hp
    rw [hself, (hcached hv).1, ← (h.cached hr hf.2.1 fun u hlu => ?_).1]
    · exact ⟨hv, hf.2.2⟩
    · rcases hl with hl | hl <;> rw [hl] at hlu <;> cases hlu
      simp [hc]

/-! ### Changes to an inode -/

/-- Process `t` changes an inode that it has locked. -/
theorem Inv.change {k : Prog} (hc : (s.proc t).prog.clearing = none)
    (hr : 0 < (s.itable ip).ref) (hl : (s.itable ip).lock = some t)
    (hcached : (s.itable ip).din = s.at (s.key ip)) (hgen : d.gen = (s.itable ip).din.gen)
    (htype : d.type = (s.itable ip).din.type ∧ d.type ≠ .none ∨
      d.type = .none ∧ (s.proc t).prog.freeing = some ip ∧ k.clearing = some ip)
    (hdata : d.type = .dir → ∀ x ∈ d.data, x.1.isDot = false →
      Below s (s.key ip) ((s.itable ip).dev, x.2))
    (hfin : k.fin = (s.proc t).prog.fin) (hkf : k.freeing = none)
    (hkc : ∀ p, k.clearing = some p → (s.proc t).prog.freeing = some p) (hkn : k.claimed = none)
    (hn : Now k c) : Next N s ((s.change ip d w).setProc t { s.proc t with prog := k }) t := by
  have hg : Guar s ((s.change ip d w).setProc t { s.proc t with prog := k }) t := by
    refine .change hl (by rw [hgen, hcached]) ?_ hkf hkc
    rw [← hcached]
    exact htype.imp And.left fun hx => ⟨hx.1, hx.2.1⟩
  have hps : ((s.change ip d w).setProc t { s.proc t with prog := k }).proc t =
      { s.proc t with prog := k } :=
    update_self ..
  have hT : Table N ((s.change ip d w).setProc t { s.proc t with prog := k }) := by
    refine h.table.change ht hr rfl (by simp [hc]) (by rw [hgen, hcached]) ?_ (fun hd => ?_) hdata
    · rw [← hcached]
      exact htype.imp And.left And.left
    · exact (htype.resolve_left fun hx => hx.2 hd).2.2
  have hlock : ∀ m, (((s.change ip d w).setProc t { s.proc t with prog := k }).itable m).lock =
      (s.itable m).lock :=
    Sys.lock_setEntry (t := t) (i := { s.itable ip with din := d })
      (q := { s.proc t with prog := k }) rfl
  exact h.of_step hT hg hps (Knows.same h hg hk hps rfl hlock hfin hkf (by simp [hkn])) hn

theorem Inv.change_locked {k : Prog} (hc : (s.proc t).prog.fin = none)
    (hl : ip ∈ c.locks) (hgen : d.gen = (s.itable ip).din.gen) (htype : d.type = (s.itable ip).din.type)
    (hdata : ∀ x ∈ d.data, x.1.isDot = false → x ∈ (s.itable ip).din.data ∨
      Below s (s.key ip) ((s.itable ip).dev, x.2))
    (hn : Disc k c) : Next N s ((s.change ip d w).goto t k) t := by
  have hi := hk.cached h hl
  refine h.change ht hk (Prog.clearing_of_fin hc) (hk.ref_pos_lock h hl) (hk.lock_of_mem hl) hi.1 hgen
    (.inl ⟨htype, by rw [htype, hi.1]; exact hi.2⟩) (fun hd x hx hdot => ?_)
    (by rw [hn.clean.fin, hc]) hn.clean.freeing
    (by simp [hn.clean.clearing]) hn.clean.claimed hn.now
  refine (hdata x hx hdot).elim (fun hx' => h.table.tree _ x ?_ ?_ hdot) id
  · rw [← hi.1, ← htype, hd]
  · rwa [← hi.1]

theorem Inv.alloc {dev inum : ℕ} {type : IType} {k : Option ℕ → Prog}
    (hc : (s.proc t).prog.fin = none) (hfree : (s.disk dev inum).type = .none)
    (hn : dev = ROOTDEV ∧ ∀ p, Disc (k (some p)) (c.fresh p)) :
    Next N s ({ s.setDisk dev inum { type := type, gen := s.clock } with
      clock := s.clock + 1, lh :=
        s.lh + w }.setProc t { s.proc t with prog := .igetNew dev inum k }) t := by
  have hg : Guar s ({ s.setDisk dev inum { type := type, gen := s.clock } with
      clock := s.clock + 1, lh :=
        s.lh + w }.setProc t { s.proc t with prog := .igetNew dev inum k }) t := .alloc hfree rfl rfl
  refine h.of_step (h.table.alloc ht hfree rfl (Prog.clearing_of_fin hc)) hg (update_self ..)
    (Knows.same h hg hk (update_self ..) rfl (fun _ => rfl) hc.symm rfl ?_) hn
  rintro m hm x hx -
  obtain ⟨hl, hdir⟩ := hk.dirs x hx
  cases hm
  rw [hg.key_lock h hk hl, (hg.disk_lock h hk hl).2, Sys.at_alloc, if_pos rfl]
  exact h.table.gen _

/-! ### Pointers that go away -/

theorem Inv.drop {k : Prog} {o : Multiset ℕ} (hc : (s.proc t).prog.fin = none)
    (ho : c.own = ip ::ₘ o) (hs : c.supports o) (hn : Disc k (c.drop o)) :
    Next N s ((s.setEntry ip { s.itable ip with ref := (s.itable ip).ref - 1 }).setProc t
      { s.proc t with own := (s.proc t).own.erase ip, prog := k }) t := by
  have hr : 0 < (s.itable ip).ref := hk.ref_pos h (by simp [ho])
  have hclr : (s.proc t).prog.clearing = none := Prog.clearing_of_fin hc
  have hown : (s.proc t).own.erase ip = o := by rw [hk.own, ho, Multiset.erase_cons_head]
  have hg : Guar s ((s.setEntry ip { s.itable ip with ref := (s.itable ip).ref - 1 }).setProc t
      { s.proc t with own := (s.proc t).own.erase ip, prog := k }) t :=
    .entry (fun _ _ => .rfl) (fun _ => rfl) (fun _ hv _ => hv) (fun _ _ _ => rfl)
      (by simp [hn.clean.freeing]) (by simp [hn.clean.clearing])
  have hT : Table N ((s.setEntry ip { s.itable ip with ref := (s.itable ip).ref - 1 }).setProc t
      { s.proc t with own := (s.proc t).own.erase ip, prog := k }) := by
    refine h.table.entry ht (h.table.small ip hr) (.inl ⟨hr, rfl⟩) (fun m => ?_)
      (fun hr' hv _ hy => ?_) (by simp [hclr])
    · have hm : ((s.proc t).own.erase ip).count m + (if m = ip then 1 else 0) =
          (s.proc t).own.count m := by
        rw [hown, hk.own, ho, Multiset.count_cons]
      dsimp only
      split_ifs at hm ⊢ <;> omega
    · refine h.table.cached ip hr hv fun u hu => ?_
      obtain rfl | hut := eq_or_ne u t
      · simp [hclr] at hu
      · exact hy u hut hu
  refine h.of_step hT hg (update_self ..) (Knows.self (e := c.drop o) h hg hk (update_self ..)
    hown hk.tx hk.cwd hk.idle hk.busy (fun m => ?_) hk.nodup
    (by simp [hn.clean.fin]) hs (fun m hm => .inl hm) (fun d hd => ⟨(hk.dirs d hd).1, .inl hd⟩)
    (fun x hx => ?_) (fun x hx => ?_) (by simp [hn.clean.freeing]) (by simp [hn.clean.claimed])) hn.now
  · rw [Sys.lock_setEntry (i := { s.itable ip with ref := (s.itable ip).ref - 1 }) rfl, hk.lock, hc,
      hn.clean.fin]
    rfl
  · have hx' := List.mem_filter.1 hx
    exact ⟨(hk.below x hx'.1).1, by simpa [Ctx.drop] using hx'.2, .inl hx'.1⟩
  · have hx' := List.mem_filter.1 hx
    exact ⟨by simpa [Ctx.drop] using hx'.2, by simp [hn.clean.freeing], .inl hx'.1⟩

/-- `ip->valid = 0` after the inode has been cleared. -/
theorem Inv.invalidate {k : Prog} (hp : (s.proc t).prog = .invalidate ip k)
    (hn : Now (.unlockFreed ip k) c) :
    Next N s ((s.setEntry ip { s.itable ip with valid := false }).setProc t
      { s.proc t with prog := .unlockFreed ip k }) t := by
  have hr : 0 < (s.itable ip).ref := by
    obtain ⟨o, ho, _⟩ := hn
    exact hk.ref_pos h (by simp [ho])
  have hclr : (s.proc t).prog.clearing = some ip := by rw [hp]; rfl
  have hg : Guar s ((s.setEntry ip { s.itable ip with valid := false }).setProc t
      { s.proc t with prog := .unlockFreed ip k }) t :=
    .entry (fun _ _ => .rfl) (fun _ => rfl) (fun _ _ hx => absurd hclr hx) (fun _ _ _ => rfl)
      (by simp [Prog.freeing]) (by simp [Prog.clearing])
  have hT : Table N ((s.setEntry ip { s.itable ip with valid := false }).setProc t
      { s.proc t with prog := .unlockFreed ip k }) := by
    refine h.table.entry ht (h.table.small ip hr) (.inl ⟨hr, rfl⟩) (fun m => rfl)
      (by simp) fun m hm => .inl ?_
    rw [hclr] at hm
    exact (Option.some.inj hm).symm
  have hfin : (s.proc t).prog.fin = some ip := by rw [hp]; rfl
  exact h.of_step hT hg (update_self ..) (Knows.same h hg hk (update_self ..) rfl
    (Sys.lock_setEntry (i := { s.itable ip with valid := false }) rfl) hfin.symm rfl
    (by simp [Prog.claimed])) hn

/-! ### Files -/

theorem Inv.files {x : ℕ} {o : Option File} (hc : (s.proc t).prog.fin = none)
    (hx : x < NFILE) (hx' : ∀ u, u ≠ t → (s.proc u).busy ≠ some x)
    (hown : ∀ k, q.own.count k + (if o.map File.ip = some k then 1 else 0) =
      (s.proc t).own.count k + if (s.file x).map File.ip = some k then 1 else 0)
    (heo : q.own = e.own) (hel : e.locks = c.locks) (htx : q.tx = e.tx) (hcwd : q.cwd = e.cwd)
    (hidle : q.busy = none → e.bor = none)
    (hbusy : ∀ f, q.busy = some f → f = x ∧ ∃ g, o = some g ∧ e.bor = some g.ip)
    (hsupp : e.supports e.own) (hdirs : ∀ d ∈ e.dirs, d ∈ c.dirs)
    (hbelow : ∀ y ∈ e.below, y ∈ c.below ∧ y.2 ∈ e.own)
    (hplain : ∀ y ∈ e.plain, y ∈ c.plain ∧ y ∈ e.own) (hn : Disc q.prog e) :
    Next N s ({ s with file := update s.file x o }.setProc t q) t := by
  have hg : Guar s ({ s with file := update s.file x o }.setProc t q) t :=
    .files hx' hn.clean.freeing hn.clean.clearing
  refine h.of_step (h.table.files ht hx hown (Prog.clearing_of_fin hc)) hg (update_self ..)
    (Knows.self h hg hk (update_self ..) heo htx hcwd hidle (fun f hf => ?_) (fun m => ?_)
      (hel ▸ hk.nodup) (by simp [hn.clean.fin]) hsupp
    (fun m hm => .inl (hel ▸ hm)) (fun d hd => ?_) (fun y hy => ?_) (fun y hy => ?_)
    (by simp [hn.clean.freeing])
    (by simp [hn.clean.claimed])) hn.now
  · obtain ⟨rfl, g, rfl, hb⟩ := hbusy f hf
    exact ⟨g, update_self .., hb⟩
  · rw [hel, hn.clean.fin]
    exact (hk.lock m).trans (by rw [hc])
  · rw [hel]
    exact ⟨(hk.dirs d (hdirs d hd)).1, .inl (hdirs d hd)⟩
  · rw [hel]
    exact ⟨(hk.below y (hbelow y hy).1).1, (hbelow y hy).2, .inl (hbelow y hy).1⟩
  · exact ⟨(hplain y hy).2, by simp [hn.clean.freeing], .inl (hplain y hy).1⟩

end

end Xv6Cow.Itable

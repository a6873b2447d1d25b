import Xv6Cow.Itable.Inv

/-! # Every run keeps the invariant -/

namespace Xv6Cow.Itable

open Fs (NINODE NFILE)

variable {N : ℕ} {s s' : Sys} {t ip w : ℕ} {c : Ctx} {ok : Bool} {disk : ℕ → ℕ → Dinode} {clock : ℕ}

namespace Knows

theorem busy_eq_none (hk : Knows s t c) (hb : c.bor = none) : (s.proc t).busy = none := by
  cases hf : (s.proc t).busy with
  | none => rfl
  | some f =>
      obtain ⟨g, _, hg⟩ := hk.busy f hf
      simp [hb] at hg

end Knows

namespace Inv

variable (h : Inv N s) (ht : t < N) (hk : Knows s t c) (hfin : (s.proc t).prog.fin = none)
include h ht hk hfin

theorem goto {k : Prog} {e : Ctx} (hown : e.own = c.own) (hlocks : e.locks = c.locks)
    (htx : e.tx = c.tx) (hbor : e.bor = c.bor) (hcwd : e.cwd = c.cwd) (hbelow : e.below = c.below)
    (hdirs : ∀ d ∈ e.dirs, d ∈ c.dirs ∨ d ∈ c.locks ∧ (s.itable d).din.type = .dir)
    (hplain : ∀ x ∈ e.plain, x ∈ c.plain ∨ x ∈ c.locks ∧ x ∈ c.own ∧ (s.itable x).din.type ≠ .dir)
    (hn : Disc k e) : Next N s (s.goto t k) t := by
  refine h.quiet (e := e) (q := { s.proc t with prog := k }) ht hk hfin rfl rfl rfl rfl rfl
    hn.clean.fin hn.clean.claimed rfl hown hlocks (fun p hp => ?_) ?_ ?_ ?_ ?_ hdirs
    (fun x hx => hbelow ▸ hx) hplain hn.now
  · rw [hbor]
    exact hk.supp p (hlocks ▸ hp)
  · rw [htx]
    exact hk.tx
  · rw [hcwd]
    exact hk.cwd
  · rw [hbor]
    exact hk.idle
  · rw [hbor]
    exact hk.busy

theorem goto_same {k : Prog} (hn : Disc k c) : Next N s (s.goto t k) t :=
  h.goto ht hk hfin rfl rfl rfl rfl rfl rfl (fun _ hd => .inl hd) (fun _ hx => .inl hx) hn

/-- A command that changes the log, or the current directory. -/
theorem aside {d : ℕ} {b : Bool} {k : Prog}
    (hproc : s'.proc = Function.update s.proc t { s.proc t with prog := k, tx := b, cwd := d })
    (hit : s'.itable = s.itable) (hdisk : s'.disk = s.disk) (hclock : s'.clock = s.clock)
    (hfile : s'.file = s.file) (hk' : k.fin = none) (hkc : k.claimed = none)
    (hn : Now k { c with tx := b, cwd := d }) : Next N s s' t :=
  h.quiet (e := { c with tx := b, cwd := d }) ht hk hfin hproc hit hdisk hclock hfile hk' hkc rfl
    rfl rfl hk.supp rfl rfl hk.idle hk.busy (fun _ hd => .inl hd) (fun _ hx => hx)
    (fun _ hx => .inl hx) hn

theorem inspect {k : Inode → Prog} (hl : ip ∈ c.locks)
    (hn : Disc (k (s.itable ip)) (c.seen ip (s.itable ip))) :
    Next N s (s.goto t (k (s.itable ip))) t := by
  unfold Ctx.seen at hn
  split_ifs at hn with hs
  · exact h.goto_same ht hk hfin hn
  · simp only [not_or, not_not] at hs
    refine h.goto ht hk hfin (e := { c with plain := ip :: c.plain }) rfl rfl rfl rfl rfl rfl
      (fun _ hd => .inl hd) (fun x hx => ?_) hn
    rcases List.mem_cons.1 hx with rfl | hx
    · exact .inr ⟨hl, hs.2, hs.1⟩
    · exact .inl hx

theorem found {dp inum : ℕ} {i : Inode} {name : Name} {k : Option ℕ → Prog} (hl : dp ∈ c.locks)
    (hd : (s.itable dp).din.type = .dir) (hlook : lookup (s.itable dp).din name = some inum)
    (hgot : Got s ((s.itable dp).dev, inum) ip i) (hn : Disc (k (some ip)) (c.found dp name ip)) :
    Next N s ((s.setEntry ip i).goOwn t (ip ::ₘ (s.proc t).own) (k (some ip))) t := by
  refine h.got (e := c.found dp name ip)
    (q := { s.proc t with own := ip ::ₘ (s.proc t).own, prog := k (some ip) }) ht hk hfin hgot
      (h.table.dev dp (hk.ref_pos_lock h hl)) rfl rfl rfl rfl rfl
    hk.tx hk.cwd (fun d hd' => ?_) (fun x hx => ?_) (fun x hx => hx) hn
  · rcases List.mem_cons.1 hd' with rfl | hd'
    · exact .inr ⟨hl, hd⟩
    · exact .inl hd'
  · have hmem : name.isDot = false → ∃ e ∈ (s.at (s.key dp)).data, e.1.isDot = false ∧ e.2 = inum := by
      intro hdot
      rw [← (hk.cached h hl).1]
      unfold lookup at hlook
      obtain ⟨e, he, hi⟩ := Option.map_eq_some_iff.1 hlook
      have hname := List.find?_some he
      simp only [decide_eq_true_eq] at hname
      exact ⟨e, List.mem_of_find?_eq_some he, by rw [hname, hdot], hi⟩
    unfold Ctx.found at hx
    simp only at hx
    split_ifs at hx with hdot
    · exact .inl hx
    · rcases List.mem_cons.1 hx with rfl | hx
      · obtain ⟨e, he, hed, rfl⟩ := hmem (by simpa using hdot)
        refine .inr ⟨hl, rfl, h.table.tree _ e ?_ he hed⟩
        rw [← (hk.cached h hl).1, hd]
      · exact .inl hx

theorem ilock {i : Inode} {k : Prog} (hp : ip ∈ c.own ∨ c.bor = some ip)
    (hr : 0 < (s.itable ip).ref) (hl : (s.itable ip).lock = none) (hil : i.lock = some t)
    (hkey : (i.dev, i.inum) = s.key ip) (href : i.ref = (s.itable ip).ref) (hv : i.valid = true)
    (hdin : i.din = s.at (s.key ip) ∧ (s.at (s.key ip)).type ≠ .none)
    (hn : Disc k { c with locks := ip ::ₘ c.locks }) : Next N s ((s.setEntry ip i).goto t k) t := by
  have hnot : ip ∉ c.locks := fun hm => by simp [hk.lock_of_mem hm] at hl
  refine h.relock (e := { c with locks := ip ::ₘ c.locks }) (q := { s.proc t with prog := k }) ht hk
    (Prog.clearing_of_fin hfin) hr (.inl hl) (.inr hil) hkey href (fun _ => hv) (fun _ => hdin) rfl
    rfl (fun p hp' => ?_) rfl rfl hk.tx hk.cwd (Multiset.nodup_cons.2 ⟨hnot, hk.nodup⟩)
    (fun m => ?_) (by simp [hn.clean.fin]) (fun m hm => ?_)
    (fun d hd => ⟨hd, Multiset.mem_cons_of_mem (hk.dirs d hd).1⟩)
    (fun x hx => ⟨hx, Multiset.mem_cons_of_mem (hk.below x hx).1⟩)
    (fun x hx => ⟨hx, by simp [hn.clean.freeing]⟩)
    (by simp [hn.clean.freeing]) hn.clean.clearing hn.clean.claimed hn.now
  · rcases Multiset.mem_cons.1 hp' with rfl | hp'
    · exact hp
    · exact hk.supp p hp'
  · simp only [hn.clean.fin, hfin, Multiset.mem_cons, reduceCtorEq, or_false, hil]
    split_ifs with he <;> simp [he]
  · rcases Multiset.mem_cons.1 hm with rfl | hm
    · exact .inr ⟨rfl, hv⟩
    · exact .inl hm

theorem iunlock {k : Prog} {l : Multiset ℕ} (hl : c.locks = ip ::ₘ l) (hn : Disc k (c.unlock ip l)) :
    Next N s ((s.setEntry ip { s.itable ip with lock := none }).goto t k) t := by
  have hip : ip ∈ c.locks := by simp [hl]
  have hnot : ip ∉ l := (Multiset.nodup_cons.1 (hl ▸ hk.nodup)).1
  have hmem : ∀ m ∈ l, m ∈ c.locks := fun m hm => by simp [hl, hm]
  refine h.relock (e := c.unlock ip l) (i := { s.itable ip with lock := none })
    (q := { s.proc t with prog := k }) ht hk (Prog.clearing_of_fin hfin) (hk.ref_pos_lock h hip)
    (.inr (hk.lock_of_mem hip)) (.inl rfl) rfl rfl id
    (fun _ => hk.cached h hip) rfl rfl (fun p hp => hk.supp p (hmem p hp)) rfl rfl hk.tx hk.cwd
    (Multiset.nodup_cons.1 (hl ▸ hk.nodup)).2 (fun m => ?_) (by simp [hn.clean.fin])
    (fun m hm => .inl (hmem m hm))
    (fun d hd => ?_) (fun x hx => ?_) (fun x hx => ⟨hx, by simp [hn.clean.freeing]⟩)
      (by simp [hn.clean.freeing])
    hn.clean.clearing hn.clean.claimed hn.now
  · simp only [hn.clean.fin, hfin, reduceCtorEq, or_false, Ctx.unlock, hl, Multiset.mem_cons]
    split_ifs with he
    · simp [he, hnot]
    · simp [he]
  · have hd' := List.mem_filter.1 hd
    have := (hk.dirs d hd'.1).1
    exact ⟨hd'.1, by simpa [Ctx.unlock, hl, of_decide_eq_true hd'.2] using this⟩
  · have hx' := List.mem_filter.1 hx
    have := (hk.below x hx'.1).1
    exact ⟨hx'.1, by simpa [Ctx.unlock, hl, of_decide_eq_true hx'.2] using this⟩

theorem iputFree {k : Prog} {o : Multiset ℕ} (ho : c.own = ip ::ₘ o) (hs : c.supports o)
    (hf : frees s ip) (hl : (s.itable ip).lock = none) (hn : Disc k (c.drop o)) :
    Next N s ((s.setEntry ip { s.itable ip with lock := some t }).goto t (.free ip k)) t := by
  have hip : ip ∈ c.own := by simp [ho]
  have hnot : ip ∉ c.locks := fun hm => by simp [hk.lock_of_mem hm] at hl
  have hno : ip ∉ o := by
    intro hm
    have hr := hf.1
    rw [h.table.refs, refsTo_eq ht, hk.own, ho, Multiset.count_cons_self] at hr
    have := Multiset.count_pos.2 hm
    omega
  refine h.relock (e := { c.drop o with own := c.own }) (i := { s.itable ip with lock := some t })
    (q := { s.proc t with prog := .free ip k }) ht hk (Prog.clearing_of_fin hfin) (hk.ref_pos h hip)
    (.inl hl) (.inr rfl)
    rfl rfl id (fun hv => h.cached (hk.ref_pos h hip) hv (by simp [hl])) rfl rfl hk.supp rfl rfl
    hk.tx hk.cwd hk.nodup (fun m => ?_) (fun m hm hm' => ?_) (fun m hm => .inl hm)
    (fun d hd => ⟨hd, (hk.dirs d hd).1⟩) (fun x hx => ?_) (fun x hx => ?_) (fun p hp => ?_) rfl rfl ?_
  · rw [hfin]
    simp only [Prog.fin, Option.some.injEq, reduceCtorEq, or_false, Ctx.drop]
    split_ifs with he
    · simp [he]
    · simp [Ne.symm he]
  · cases hm'
    exact hnot hm
  · have hx' := (List.mem_filter.1 hx).1
    exact ⟨hx', (hk.below x hx').1⟩
  · have hx' := List.mem_filter.1 hx
    refine ⟨hx'.1, fun he => ?_⟩
    cases he
    exact hno (by simpa using hx'.2)
  · cases hp
    exact ⟨rfl, hf, hip, hf.2.1⟩
  · refine ⟨o, ho, hs, ?_⟩
    have : ({ c.drop o with own := c.own } : Ctx).drop o = c.drop o := by
      simp [Ctx.drop, List.filter_filter]
    rwa [this]

omit hfin in
theorem unlockFreed {k : Prog} (hp : (s.proc t).prog = .unlockFreed ip k) (hn : Now (.decref ip k) c) :
    Next N s ((s.setEntry ip { s.itable ip with lock := none }).goto t (.decref ip k)) t := by
  have hfin : (s.proc t).prog.fin = some ip := by rw [hp]; rfl
  have hip : ip ∈ c.own := by
    obtain ⟨o, ho, _⟩ := hn
    simp [ho]
  have hl := (h.of_fin hfin).1
  refine h.relock (e := c) (i := { s.itable ip with lock := none })
    (q := { s.proc t with prog := .decref ip k }) ht hk (by rw [hp]; rfl) (hk.ref_pos h hip)
    (.inr hl) (.inl rfl) rfl rfl id
    (fun hv => h.cached (hk.ref_pos h hip) hv fun u hu => ?_) rfl rfl hk.supp rfl rfl hk.tx hk.cwd
    hk.nodup (fun m => ?_) (by simp [Prog.fin]) (fun m hm => .inl hm)
    (fun d hd => ⟨hd, (hk.dirs d hd).1⟩)
    (fun x hx => ⟨hx, (hk.below x hx).1⟩) (fun x hx => ⟨hx, by simp [Prog.freeing]⟩)
      (by simp [Prog.freeing]) rfl rfl hn
  · rw [hl] at hu
    cases hu
    simp [hp, Prog.clearing]
  · have hnot : ip ∉ c.locks := fun hm => hk.apart ip hm hfin
    rw [hfin]
    simp only [Prog.fin, Option.some.injEq, reduceCtorEq, or_false]
    split_ifs with he
    · simp [he, hnot]
    · simp [Ne.symm he]

theorem openFile {f : File} {x : ℕ} {o : Multiset ℕ} {k : Option ℕ → Prog} (hx : x < NFILE)
    (hnone : s.file x = none) (ho : c.own = f.ip ::ₘ o) (hb : c.bor = none)
    (hn : Disc (k (some x)) { c.drop o with bor := some f.ip }) :
      Next N s ({ s with file := Function.update s.file x (some f) }.setProc t
        { s.proc t with own := (s.proc t).own.erase f.ip, busy := some x, prog := k (some x) }) t := by
  have hown : (s.proc t).own.erase f.ip = o := by rw [hk.own, ho, Multiset.erase_cons_head]
  refine h.files (e := { c.drop o with bor := some f.ip }) ht hk hfin hx (fun u _ hu => ?_)
    (fun m => ?_) hown rfl hk.tx hk.cwd (by simp) (fun y hy => ?_) (fun p hp => ?_) (fun _ hd => hd)
    (fun y hy => ?_) (fun y hy => ?_) hn
  · obtain ⟨d, hd, _⟩ := h.knows u
    obtain ⟨g, hg, _⟩ := hd.busy x hu
    simp [hnone] at hg
  · have hm : ((s.proc t).own.erase f.ip).count m + (if m = f.ip then 1 else 0) =
        (s.proc t).own.count m := by
      rw [hown, hk.own, ho, Multiset.count_cons]
    simpa [hnone, eq_comm (a := m)] using hm
  · cases hy
    exact ⟨rfl, f, rfl, rfl⟩
  · have hp' := (hk.supp p hp).resolve_right (by simp [hb])
    rw [ho, Multiset.mem_cons] at hp'
    exact hp'.symm.imp_right fun he => by rw [he]
  · have hy' := List.mem_filter.1 hy
    exact ⟨hy'.1, by simpa [Ctx.drop] using hy'.2⟩
  · have hy' := List.mem_filter.1 hy
    exact ⟨hy'.1, by simpa [Ctx.drop] using hy'.2⟩

theorem closeFile {f : ℕ} {g : File} {k : Option ℕ → Prog} (hf : s.file f = some g)
    (hu : ¬ usedByOther N s t f) (hb : c.bor = none)
    (hn : Disc (k (some g.ip)) { c with own := g.ip ::ₘ c.own }) :
    Next N s ({ s with file := Function.update s.file f none }.goOwn t (g.ip ::ₘ (s.proc t).own)
      (k (some g.ip))) t := by
  have hidle : (s.proc t).busy = none := hk.busy_eq_none hb
  refine h.files (e := { c with own := g.ip ::ₘ c.own })
    (q := { s.proc t with own := g.ip ::ₘ (s.proc t).own, prog := k (some g.ip) }) ht hk hfin
    (h.table.file f g hf)
    (fun u hut hu' => ?_) (fun m => ?_) (by rw [hk.own]) rfl hk.tx hk.cwd (fun _ => hb)
    (fun y hy => ?_) (fun p hp => ?_)
    (fun _ hd => hd) (fun y hy => ⟨hy, Multiset.mem_cons_of_mem (hk.below y hy).2.1⟩)
    (fun y hy => ⟨hy, Multiset.mem_cons_of_mem (hk.plain y hy).1⟩) hn
  · refine hu ⟨u, ?_, hut, hu'⟩
    by_contra hN
    obtain ⟨d, hd, hdn⟩ := h.knows u
    rw [h.table.nobody u (by omega)] at hdn
    rw [hd.busy_eq_none hdn.2.2.2] at hu'
    cases hu'
  · simp only [hf, Multiset.count_cons, Option.map_some, Option.map_none, reduceCtorEq, if_false,
      Option.some.injEq, eq_comm (a := m)]
    omega
  · simp [hidle] at hy
  · exact (hk.supp p hp).imp_left (Multiset.mem_cons_of_mem ·)

end Inv

section
variable (h : Inv N s)
include h

theorem Inv.ran (ht : t < N) (hr : Ran N s t ok w (s.proc t).prog s') : Next N s s' t := by
  obtain ⟨c, hk, hn⟩ := h.knows t
  generalize hp : (s.proc t).prog = k at hr hn
  have hfin : k.fin = none → (s.proc t).prog.fin = none := fun hx => by rw [hp, hx]
  cases hr with
  | beginOp =>
      obtain ⟨hl, _, hn⟩ := hn
      exact h.aside ht hk (hfin rfl) rfl rfl rfl rfl rfl hn.clean.fin hn.clean.claimed
        (by rw [hk.cwd]; exact hn.now)
  | endLast =>
      obtain ⟨hl, _, hn⟩ := hn
      exact h.aside ht hk (hfin rfl) rfl rfl rfl rfl rfl rfl rfl (by rw [hk.cwd]; exact ⟨hl, hn⟩)
  | endOp =>
      obtain ⟨hl, _, hn⟩ := hn
      exact h.aside ht hk (hfin rfl) rfl rfl rfl rfl rfl hn.clean.fin hn.clean.claimed
        (by rw [hk.cwd]; exact hn.now)
  | commit =>
      exact h.aside ht hk (hfin rfl) rfl rfl rfl rfl rfl hn.2.clean.fin hn.2.clean.claimed
        (by rw [hk.tx, hk.cwd]; exact hn.2.now)
  | @iget dev inum ip i k hg =>
      exact h.got (e := { c with own := ip ::ₘ c.own })
        (q := { s.proc t with own := ip ::ₘ (s.proc t).own, prog := k ip }) ht hk (hfin rfl) hg hn.1
        rfl rfl rfl rfl rfl hk.tx hk.cwd (fun _ hd => .inl hd) (fun _ hx => .inl hx)
        (fun _ hx => hx) (hn.2 ip)
  | @idup ip k =>
      have hr := hk.ref_pos h hn.1
      exact h.got (e := { c with own := ip ::ₘ c.own })
        (q := { s.proc t with own := ip ::ₘ (s.proc t).own, prog := k }) ht hk (hfin rfl)
          (.found (h.table.small ip hr) hr rfl) (h.table.dev ip hr) rfl rfl rfl rfl rfl hk.tx hk.cwd
          (fun _ hd => .inl hd)
        (fun _ hx => .inl hx) (fun _ hx => hx) hn.2
  | ilock hr hl hv =>
      exact h.ilock ht hk (hfin rfl) hn.1 hr hl rfl rfl rfl hv
        (h.cached hr hv (by simp [hl])) hn.2.2
  | ilockRead hr hl hv htype =>
      exact h.ilock ht hk (hfin rfl) hn.1 hr hl rfl rfl rfl rfl ⟨rfl, htype⟩ hn.2.2
  | iunlock hl =>
      obtain ⟨l, hl, hn⟩ := hn
      exact h.iunlock ht hk (hfin rfl) hl hn
  | inspect => exact h.inspect ht hk (hfin rfl) hn.1 (hn.2 _ (h.table.dev _ (hk.ref_pos_lock h hn.1)))
  | update =>
      obtain ⟨hl, hf, hn⟩ := hn
      exact h.change_locked ht hk (hfin rfl) hl (hf _).2.2 (hf _).1
        (fun x hx _ => .inl ((hf _).2.1 ▸ hx)) hn
  | itrunc => exact h.change_locked ht hk (hfin rfl) hn.1 rfl rfl (by simp) hn.2
  | writei =>
      exact h.aside ht hk (hfin rfl) rfl rfl rfl rfl rfl hn.2.clean.fin hn.2.clean.claimed
        (by rw [hk.tx, hk.cwd]; exact hn.2.now)
  | @lookupNone dp name k hd =>
      refine h.goto (e := { c with dirs := dp :: c.dirs }) ht hk (hfin rfl) rfl rfl rfl rfl rfl rfl
        (fun d hd' => ?_) (fun _ hx => .inl hx) hn.2.1
      rcases List.mem_cons.1 hd' with rfl | hd'
      · exact .inr ⟨hn.1, hd⟩
      · exact .inl hd'
  | lookup hd hl hg => exact h.found ht hk (hfin rfl) hn.1 hd hl hg (hn.2.2 _)
  | @addEntry dp ip name k =>
      obtain ⟨hl, ho, hb, hn⟩ := hn
      refine h.change_locked ht hk (hfin rfl) hl rfl rfl (fun x hx hdot => ?_) (hn true)
      rcases List.mem_append.1 hx with hx | hx
      · exact .inl hx
      · cases List.mem_singleton.1 hx
        right
        have hkey : ((s.itable dp).dev, (s.itable ip).inum) = s.key ip := by
          rw [h.table.dev dp (hk.ref_pos_lock h hl), ← h.table.dev ip (hk.ref_pos h ho)]
          rfl
        rw [hkey]
        rcases hb with hb | hb | hb
        · simp [hb] at hdot
        · exact (hk.below _ hb).2.2
        · exact fun hdir => absurd hdir (hk.plain _ hb).2.2.1
  | addFail => exact h.goto_same ht hk (hfin rfl) (hn.2.2.2 _)
  | clearEntry =>
      exact h.change_locked ht hk (hfin rfl) hn.1 rfl rfl
        (fun x hx _ => .inl (List.mem_of_mem_eraseP hx)) hn.2
  | iputFree hf hl =>
      obtain ⟨o, ho, hs, hn⟩ := hn
      exact h.iputFree ht hk (hfin rfl) ho hs hf hl hn
  | iput hf =>
      obtain ⟨o, ho, hs, hn⟩ := hn
      exact h.drop ht hk (hfin rfl) ho hs hn
  | @free ip k =>
      have hf : (s.proc t).prog.freeing = some ip := by rw [hp]; rfl
      obtain ⟨hl, hown⟩ := h.of_fin (Prog.fin_of_freeing hf)
      have hr := h.ref_pos_of_own hown
      refine h.change ht hk (by rw [hp]; rfl) hr hl (h.cached hr (hk.free ip hf).1 fun u hu => ?_).1
        rfl (.inr ⟨rfl, hf, rfl⟩) (by simp) (by rw [hp]; rfl) rfl (fun p hx => ?_) rfl hn
      · rw [hl] at hu
        cases hu
        simp [hp, Prog.clearing]
      · cases hx
        exact hf
  | invalidate => exact h.invalidate ht hk hp hn
  | unlockFreed => exact h.unlockFreed ht hk hp hn
  | decref =>
      obtain ⟨o, ho, hs, hn⟩ := hn
      exact h.drop ht hk (hfin rfl) ho hs hn
  | iallocNone => exact h.goto_same ht hk (hfin rfl) hn.2.2.1
  | ialloc hfree => exact h.alloc ht hk (hfin rfl) hfree ⟨hn.1, hn.2.2.2⟩
  | iallocNext => exact h.goto_same ht hk (hfin rfl) hn
  | @igetNew dev inum ip i k hg =>
      refine h.got (e := c.fresh ip)
        (q := { s.proc t with own := ip ::ₘ (s.proc t).own, prog := k (some ip) }) ht hk
          (hfin rfl) hg hn.1 rfl rfl rfl rfl rfl hk.tx hk.cwd (fun _ hd => .inl hd) (fun x hx => ?_)
          (fun _ hx => hx) (hn.2 ip)
      rcases List.mem_append.1 hx with hx | hx
      · obtain ⟨d, hd, rfl⟩ := List.mem_map.1 hx
        exact .inr ⟨(hk.dirs d hd).1, rfl, hk.claimed (dev, inum) (by rw [hp]; rfl) d hd⟩
      · exact .inl hx
  | openNone =>
      obtain ⟨o, _, _, hn, _⟩ := hn
      exact h.goto_same ht hk (hfin rfl) hn
  | openFile hx hfile =>
      obtain ⟨o, ho, hb, _, hn⟩ := hn
      exact h.openFile ht hk (hfin rfl) hx hfile ho hb (hn _)
  | useNone => exact h.goto_same ht hk (hfin rfl) hn.2.1
  | @useFile f g k hf =>
      refine h.quiet (e := { c with bor := some g.ip })
        (q := { s.proc t with busy := some f, prog := k (some g) }) ht hk (hfin rfl)
        rfl rfl rfl rfl rfl (hn.2.2 g).clean.fin (hn.2.2 g).clean.claimed rfl rfl rfl
        (fun p hp => ?_) hk.tx hk.cwd (by simp)
        (fun x hx => ?_) (fun _ hd => .inl hd) (fun _ hx => hx) (fun _ hx => .inl hx) (hn.2.2 g).now
      · exact .inl ((hk.supp p hp).resolve_right (by simp [hn.1]))
      · cases hx
        exact ⟨g, hf, rfl⟩
  | @fileDone k =>
      refine h.quiet (e := { c with bor := none })
        (q := { s.proc t with busy := none, prog := k }) ht hk (hfin rfl) rfl rfl rfl rfl rfl
          hn.2.clean.fin hn.2.clean.claimed rfl rfl rfl (fun p hp => ?_) hk.tx hk.cwd (fun _ => rfl)
          (by simp)
        (fun _ hd => .inl hd) (fun _ hx => hx) (fun _ hx => .inl hx) hn.2.now
      simp [hn.1] at hp
  | closeNone => exact h.goto_same ht hk (hfin rfl) hn.2.1
  | closeFile hf hu => exact h.closeFile ht hk (hfin rfl) hf hu hn.1 (hn.2.2 _)
  | @setCwd ip k =>
      have hn : Disc k { c with cwd := ip } := hn
      exact h.aside ht hk (hfin rfl) rfl rfl rfl rfl rfl hn.clean.fin hn.clean.claimed
        (by rw [hk.tx]; exact hn.now)

theorem Inv.call (ht : t < N) (hp : (s.proc t).prog = .ret) (call : Call) :
    Next N s (s.goto t (call.prog (s.proc t).cwd)) t := by
  obtain ⟨c, hk, hn⟩ := h.knows t
  rw [hp] at hn
  obtain ⟨hown, hlocks, htx, hbor⟩ := hn
  have hd := call.disc (w := (s.proc t).cwd)
  refine h.quiet (e := .idle (s.proc t).cwd)
    (q := { s.proc t with prog := call.prog (s.proc t).cwd }) ht hk (by rw [hp]; rfl)
    rfl rfl rfl rfl rfl hd.clean.fin hd.clean.claimed rfl ?_ hlocks.symm
    (by simp [Ctx.idle, Ctx.supports]) (hk.tx.trans htx) rfl (fun _ => rfl)
    (by simp [hk.busy_eq_none hbor]) (by simp [Ctx.idle]) (by simp [Ctx.idle])
    (by simp [Ctx.idle]) hd.now
  rw [hown, ← hk.cwd]
  rfl

theorem Inv.cwd_mem_own (hp : (s.proc t).prog = .ret) : (s.proc t).cwd ∈ (s.proc t).own := by
  obtain ⟨c, hk, hn⟩ := h.knows t
  rw [hp] at hn
  rw [hk.own, hn.1, hk.cwd]
  exact Multiset.mem_singleton_self _

theorem Inv.own_of_die (hp : (s.proc t).prog = .die) : (s.proc t).own = 0 := by
  obtain ⟨c, hk, hn⟩ := h.knows t
  rw [hp] at hn
  rw [hk.own, hn.1]

/-- A process forks another one, which gets its current directory. -/
theorem Inv.fork {u : ℕ} (hu : u < N) (hp : (s.proc t).prog = .ret) (hd : (s.proc u).prog = .die) :
    Next N s ((s.setEntry (s.proc t).cwd { s.itable (s.proc t).cwd with
        ref := (s.itable (s.proc t).cwd).ref + 1 }).setProc u
      { prog := .ret, cwd := (s.proc t).cwd, own := {(s.proc t).cwd} }) u := by
  obtain ⟨c, hk, hn⟩ := h.knows u
  rw [hd] at hn
  obtain ⟨hown, hlocks, _, hbor⟩ := hn
  have hr : 0 < (s.itable (s.proc t).cwd).ref := h.ref_pos_of_own (h.cwd_mem_own hp)
  refine h.got (e := .idle (s.proc t).cwd)
    (q := { prog := .ret, cwd := (s.proc t).cwd, own := {(s.proc t).cwd} }) hu hk (by rw [hd]; rfl)
    (.found (h.table.small _ hr) hr rfl) (h.table.dev _ hr) ?_ ?_ hlocks.symm hbor.symm
    (hk.busy_eq_none hbor).symm rfl rfl (by simp [Ctx.idle]) (by simp [Ctx.idle])
      (by simp [Ctx.idle]) ⟨rfl, rfl, rfl, rfl⟩
  · rw [h.own_of_die hd]
    rfl
  · rw [hown]
    rfl

/-- **Every step keeps the invariant.** -/
theorem Inv.next {a : Act} (hs : step N s a = some s') : ∃ t, Next N s s' t := by
  cases step_cases hs with
  | call ht hp => exact ⟨_, h.call ht hp _⟩
  | fork ht hu hp hd => exact ⟨_, h.fork hu hp hd⟩
  | run _ ht hr => exact ⟨_, h.ran ht hr⟩

theorem Inv.step {a : Act} (hs : step N s a = some s') : Inv N s' :=
  (h.next hs).choose_spec.inv

/-! ### The lock in `iput` -/

/-- A file that a process uses is a pointer of nobody. -/
theorem Knows.others_pos_of_bor {u : ℕ} (hk : Knows s t c) (hb : c.bor = some ip) :
    0 < others N s u ip := by
  cases hf : (s.proc t).busy with
  | none => simp [hk.idle hf] at hb
  | some f =>
      obtain ⟨g, hg, he⟩ := hk.busy f hf
      rw [hb, Option.some.injEq] at he
      exact he ▸ others_pos_of_file (h.table.file f g hg) hg

/-- The `acquiresleep` in `iput` finds the lock free: whoever held it would have a pointer too. -/
theorem Inv.iput_unlocked {k : Prog} (hp : (s.proc t).prog = .iput ip k) (hf : frees s ip) :
    (s.itable ip).lock = none := by
  obtain ⟨c, hk, hn⟩ := h.knows t
  rw [hp] at hn
  obtain ⟨o, ho, hs, _⟩ := hn
  have hmem : ip ∈ (s.proc t).own := by rw [hk.own, ho]; simp
  have hr := hf.1
  rw [h.table.refs, refsTo_eq (h.lt_of_own hmem), hk.own, ho, Multiset.count_cons_self] at hr
  have hno : ip ∉ o := fun hm => by
    have := Multiset.count_pos.2 hm
    omega
  cases hl : (s.itable ip).lock with
  | none => rfl
  | some u =>
      exfalso
      obtain rfl | hu := eq_or_ne u t
      · rcases (hk.lock ip).1 hl with hm | hm
        · rcases hs ip hm with hm | hb
          · exact hno hm
          · have := hk.others_pos_of_bor (u := u) h hb
            omega
        · simp [hp, Prog.fin] at hm
      · obtain ⟨d, hd, _⟩ := h.knows u
        have hpos : 0 < others N s t ip := by
          have hown : ip ∈ d.own → 0 < others N s t ip := fun hm =>
            others_pos_of_own (h.lt_of_own (by rwa [hd.own])) hu (by rwa [hd.own])
          rcases (hd.lock ip).1 hl with hm | hm
          · exact (hd.supp ip hm).elim hown (hd.others_pos_of_bor h)
          · exact hown (hd.own ▸ (h.of_fin hm).2)
        omega

end

/-! ### The first state -/

theorem boot_knows_none {t : ℕ} (ht : t ≠ 0) : Knows (boot disk clock) t
    { own := 0, locks := 0, dirs := [], below := [], plain := [], tx := false, bor := none, cwd := 0 } := by
  constructor <;> simp [boot, ht, Prog.fin, Prog.freeing, Prog.claimed, Ctx.supports]
  intro k
  split_ifs <;> simp

theorem boot_knows : Knows (boot disk clock) 0 (.idle 0) := by
  constructor <;> simp [boot, Ctx.idle, Prog.fin, Prog.freeing, Prog.claimed, Ctx.supports]
  intro k
  split_ifs <;> simp

theorem boot_inv (hN : 0 < N) (hf : Formatted disk clock) : Inv N (boot disk clock) := by
  have hitable : ∀ k, 0 < ((boot disk clock).itable k).ref → k = 0 := by
    intro k hk
    by_contra hne
    simp [boot, hne] at hk
  refine ⟨⟨fun k l hk hl _ => ?_, fun k hk => ?_, fun k hk => ?_, fun k => ?_, by simp [boot],
    fun t ht => ?_, fun k hk hv => ?_, fun n => hf.gen n.1 n.2, fun n e hn he hdot hdir =>
    hf.tree n.1 n.2 e hn he hdot hdir⟩, fun t => ?_⟩
  · rw [hitable k hk, hitable l hl]
  · rw [hitable k hk]
    decide
  · rw [hitable k hk]
    rfl
  · rw [refsTo_eq hN]
    have ho : others N (boot disk clock) 0 k = 0 := by
      unfold others
      simp only [boot, Option.map_none, reduceCtorEq, Finset.filter_false, Finset.card_empty, add_zero]
      refine Finset.sum_eq_zero fun u hu => ?_
      rw [if_neg (Finset.ne_of_mem_erase hu)]
      rfl
    rw [ho]
    obtain rfl | hk := eq_or_ne k 0
    · simp [boot]
    · simp [boot, hk]
  · simp [boot, show t ≠ 0 by omega]
  · rw [hitable k hk] at hv
    simp [boot] at hv
  · obtain rfl | ht := eq_or_ne t 0
    · exact ⟨_, boot_knows, rfl, rfl, rfl, rfl⟩
    · refine ⟨_, boot_knows_none ht, ?_⟩
      have : ((boot disk clock).proc t).prog = .die := by simp [boot, ht]
      rw [this]
      exact ⟨rfl, rfl, rfl, rfl⟩

/-- **The invariant holds in every state that the processes can reach.** -/
theorem inv_of_exec (hN : 0 < N) (hf : Formatted disk clock) {acts : List Act}
    (h : Runs.exec (step N) (boot disk clock) acts = some s) : Inv N s :=
  Runs.exec_invariant (I := Inv N) (boot_inv hN hf) (fun _ _ _ h hs => h.step hs) h

end Xv6Cow.Itable

import Xv6Cow.Itable.Table

/-! # What a process knows, and what the others leave of it

`Knows s t c` says that the context `c` is true of process `t`.  A step of another process may take
or drop references, lock what is not locked, and free what has one reference; `Guar` says so, and
that a directory that is locked, or an inode that is known not to be a directory, stays what it
is. -/

namespace Xv6Cow.Itable

open Fs (NINODE NFILE)

variable {N : ℕ} {s s' : Sys} {t u ip k : ℕ} {i : Inode} {q : Proc} {c : Ctx} {n : ℕ × ℕ} {d : Dinode}

structure Knows (s : Sys) (t : ℕ) (c : Ctx) : Prop where
  own : (s.proc t).own = c.own
  tx : (s.proc t).tx = c.tx
  cwd : (s.proc t).cwd = c.cwd
  idle : (s.proc t).busy = none → c.bor = none
  busy : ∀ f, (s.proc t).busy = some f → ∃ g, s.file f = some g ∧ c.bor = some g.ip
  lock : ∀ k, (s.itable k).lock = some t ↔ k ∈ c.locks ∨ (s.proc t).prog.fin = some k
  nodup : c.locks.Nodup
  apart : ∀ k ∈ c.locks, (s.proc t).prog.fin ≠ some k
  supp : c.supports c.own
  valid : ∀ k ∈ c.locks, (s.itable k).valid = true
  dirs : ∀ d ∈ c.dirs, d ∈ c.locks ∧ (s.at (s.key d)).type = .dir
  below : ∀ x ∈ c.below, x.1 ∈ c.locks ∧ x.2 ∈ c.own ∧ Below s (s.key x.1) (s.key x.2)
  plain : ∀ x ∈ c.plain, x ∈ c.own ∧ (s.itable x).valid = true ∧ (s.at (s.key x)).type ≠ .dir ∧
    ∀ u, (s.proc u).prog.freeing ≠ some x ∧ (s.proc u).prog.clearing ≠ some x
  free : ∀ p, (s.proc t).prog.freeing = some p → (s.itable p).valid = true ∧ (s.itable p).din.nlink = 0
  claimed : ∀ n, (s.proc t).prog.claimed = some n → ∀ d ∈ c.dirs, Below s (s.key d) n

/-- The invariant. -/
structure Inv (N : ℕ) (s : Sys) : Prop where
  table : Table N s
  knows : ∀ t, ∃ c, Knows s t c ∧ Now (s.proc t).prog c

namespace Inv

theorem lt_of_own (h : Inv N s) (hk : k ∈ (s.proc t).own) : t < N := by
  by_contra hn
  obtain ⟨c, hc, hnow⟩ := h.knows t
  rw [h.table.nobody t (by omega)] at hnow
  rw [hc.own, hnow.1] at hk
  simp at hk

theorem ref_pos_of_own (h : Inv N s) (hk : k ∈ (s.proc t).own) : 0 < (s.itable k).ref := by
  rw [h.table.refs, refsTo_eq (h.lt_of_own hk)]
  have := Multiset.count_pos.2 hk
  omega

theorem ref_pos_of_file {f : ℕ} {g : File} (h : Inv N s) (hg : s.file f = some g) :
    0 < (s.itable g.ip).ref := by
  have h0 : 0 < (s.itable g.ip).ref ∨ N = 0 := by
    rcases Nat.eq_zero_or_pos N with h0 | h0
    · exact .inr h0
    · left
      rw [h.table.refs, refsTo_eq h0]
      have := others_pos_of_file (N := N) (t := 0) (h.table.file f g hg) hg
      omega
  rcases h0 with h0 | rfl
  · exact h0
  · rw [h.table.refs]
    have : 0 < (Finset.filter (fun f => (s.file f).map File.ip = some g.ip) (Finset.range NFILE)).card :=
      Finset.card_pos.2 ⟨f, Finset.mem_filter.2 ⟨Finset.mem_range.2 (h.table.file f g hg), by simp [hg]⟩⟩
    unfold refsTo
    omega

/-- Who is freeing an entry has its lock and a pointer to it. -/
theorem of_fin (h : Inv N s) (hf : (s.proc t).prog.fin = some k) : (s.itable k).lock = some t ∧
    k ∈ (s.proc t).own := by
  obtain ⟨c, hk, hn⟩ := h.knows t
  refine ⟨(hk.lock k).2 (.inr hf), ?_⟩
  rw [hk.own]
  cases hprog : (s.proc t).prog <;> rw [hprog] at hf hn <;>
    simp only [Prog.fin, reduceCtorEq, Option.some.injEq] at hf
  all_goals
    subst hf
    obtain ⟨o, ho, _⟩ := hn
    simp [ho]

/-- A valid entry holds what is on disk, if its lock is not held by someone who has just cleared the
inode. -/
theorem cached (h : Inv N s) (hr : 0 < (s.itable k).ref) (hv : (s.itable k).valid = true)
    (hl : ∀ u, (s.itable k).lock = some u → (s.proc u).prog.clearing ≠ some k) :
    (s.itable k).din = s.at (s.key k) ∧ (s.at (s.key k)).type ≠ .none :=
  h.table.cached k hr hv fun u hu => hl u (h.of_fin (Prog.fin_of_clearing hu)).1 hu

end Inv

namespace Knows

variable (h : Inv N s) (hk : Knows s t c)
include h hk

theorem ref_pos (hp : k ∈ c.own) : 0 < (s.itable k).ref := h.ref_pos_of_own (t := t) (by rwa [hk.own])

theorem ref_pos_bor (hp : c.bor = some k) : 0 < (s.itable k).ref := by
  cases hb : (s.proc t).busy with
  | none => simp [hk.idle hb] at hp
  | some f =>
      obtain ⟨g, hg, he⟩ := hk.busy f hb
      rw [hp, Option.some.injEq] at he
      exact he ▸ h.ref_pos_of_file hg

theorem ref_pos_lock (hp : k ∈ c.locks) : 0 < (s.itable k).ref := by
  rcases hk.supp k hp with ho | hb
  · exact hk.ref_pos h ho
  · exact hk.ref_pos_bor h hb

omit h in
theorem lock_of_mem (hp : k ∈ c.locks) : (s.itable k).lock = some t := (hk.lock k).2 (.inl hp)

theorem not_fin (hp : k ∈ c.locks) (u : ℕ) : (s.proc u).prog.fin ≠ some k := by
  intro hc
  have hl := (h.of_fin hc).1
  rw [hk.lock_of_mem hp] at hl
  cases hl
  exact hk.apart k hp hc

theorem not_clearing (hp : k ∈ c.locks) (u : ℕ) : (s.proc u).prog.clearing ≠ some k :=
  fun hc => hk.not_fin h hp u (Prog.fin_of_clearing hc)

theorem not_freeing (hp : k ∈ c.locks) (u : ℕ) : (s.proc u).prog.freeing ≠ some k :=
  fun hc => hk.not_fin h hp u (Prog.fin_of_freeing hc)

/-- What a locked entry holds is on disk, and is an inode. -/
theorem cached (hp : k ∈ c.locks) : (s.itable k).din = s.at (s.key k) ∧ (s.at (s.key k)).type ≠ .none :=
  h.table.cached k (hk.ref_pos_lock h hp) (hk.valid k hp) (hk.not_clearing h hp)

end Knows

/-! ### What a step leaves alone -/

/-- What a step of process `t` does to the others. -/
structure Guar (s s' : Sys) (t : ℕ) : Prop where
  proc : ∀ u, u ≠ t → s'.proc u = s.proc u
  lock : ∀ k u, u ≠ t → ((s'.itable k).lock = some u ↔ (s.itable k).lock = some u)
  key : ∀ k, 0 < (s.itable k).ref → s'.key k = s.key k
  valid : ∀ k, 0 < (s.itable k).ref → (s.itable k).valid = true → (s.proc t).prog.clearing ≠
    some k → (s'.itable k).valid = true
  din : ∀ k u, u ≠ t → (s.itable k).lock = some u → (s'.itable k).din = (s.itable k).din
  disk : ∀ n, (s'.at n).type = (s.at n).type ∧ (s'.at n).gen = (s.at n).gen ∨
    (∃ p, (s.proc t).prog.freeing = some p ∧ s.key p = n ∧ (s'.at n).type = .none ∧
      (s'.at n).gen = (s.at n).gen) ∨ (s.at n).type = .none ∧ s.clock ≤ (s'.at n).gen
  file : ∀ u f, u ≠ t → (s.proc u).busy = some f → s'.file f = s.file f
  freeing : ∀ p, (s'.proc t).prog.freeing = some p → (s.itable p).ref = 1 ∧ p ∈ (s.proc t).own
  clearing : ∀ p, (s'.proc t).prog.clearing = some p → (s.proc t).prog.freeing = some p

namespace Guar

variable (h : Inv N s) (hg : Guar s s' t) (hk : Knows s u c)
include h hg hk

theorem valid_lock (hp : k ∈ c.locks) : (s'.itable k).valid = true :=
  hg.valid k (hk.ref_pos_lock h hp) (hk.valid k hp) (hk.not_clearing h hp t)

theorem key_own (hp : k ∈ c.own) : s'.key k = s.key k := hg.key k (hk.ref_pos h hp)

theorem key_lock (hp : k ∈ c.locks) : s'.key k = s.key k := hg.key k (hk.ref_pos_lock h hp)

theorem disk_lock (hp : k ∈ c.locks) :
    (s'.at (s.key k)).type = (s.at (s.key k)).type ∧ (s'.at (s.key k)).gen = (s.at (s.key k)).gen := by
  rcases hg.disk (s.key k) with hd | ⟨p, hf, hkey, _⟩ | ⟨hd, _⟩
  · exact hd
  · have hpr : 0 < (s.itable p).ref := h.ref_pos_of_own (h.of_fin (Prog.fin_of_freeing hf)).2
    have := h.table.inj p k hpr (hk.ref_pos_lock h hp) hkey
    exact absurd (this ▸ hf) (hk.not_freeing h hp t)
  · exact absurd hd (hk.cached h hp).2

omit hk in
/-- What is below a directory that does not change stays below it. -/
theorem below_of {m n : ℕ × ℕ} (hm : (s'.at m).gen = (s.at m).gen) (hb : Below s m n) :
    Below s' m n := by
  intro hn
  rw [hm]
  rcases hg.disk n with ⟨ht, hgen⟩ | ⟨p, _, _, ht, _⟩ | ⟨_, hgen⟩
  · rw [hgen]
    exact hb (by rwa [← ht])
  · rw [ht] at hn
    cases hn
  · exact lt_of_lt_of_le (h.table.gen m) hgen

theorem dirs (hd : k ∈ c.dirs) : (s'.at (s'.key k)).type = .dir := by
  obtain ⟨hl, ht⟩ := hk.dirs k hd
  rw [hg.key_lock h hk hl, (hg.disk_lock h hk hl).1, ht]

theorem below {x : ℕ × ℕ} (hx : x ∈ c.below) : Below s' (s'.key x.1) (s'.key x.2) := by
  obtain ⟨hl, ho, hb⟩ := hk.below x hx
  rw [hg.key_lock h hk hl, hg.key_own h hk ho]
  exact hg.below_of h (hg.disk_lock h hk hl).2 hb

theorem claimed (hp : (s.proc u).prog.claimed = some n) (hd : k ∈ c.dirs) : Below s' (s'.key k) n := by
  have hl := (hk.dirs k hd).1
  rw [hg.key_lock h hk hl]
  exact hg.below_of h (hg.disk_lock h hk hl).2 (hk.claimed n hp k hd)

/-- An inode that is not a directory stays one, unless `t` frees it. -/
theorem plain (hx : k ∈ c.plain) (hf : (s'.proc t).prog.freeing ≠ some k) : (s'.itable k).valid = true ∧
    (s'.at (s'.key k)).type ≠ .dir ∧ ∀ u, (s'.proc u).prog.freeing ≠ some k ∧
      (s'.proc u).prog.clearing ≠ some k := by
  obtain ⟨ho, hv, ht, hno⟩ := hk.plain k hx
  refine ⟨hg.valid k (hk.ref_pos h ho) hv (hno t).2, ?_, fun v => ?_⟩
  · rw [hg.key_own h hk ho]
    rcases hg.disk (s.key k) with hd | ⟨p, _, _, hd, _⟩ | ⟨hd, _⟩
    · rwa [hd.1]
    · simp [hd]
    · exact absurd hd (h.table.cached k (hk.ref_pos h ho) hv fun u => (hno u).2).2
  · obtain rfl | hv' := eq_or_ne v t
    · exact ⟨hf, fun hc => (hno v).1 (hg.clearing k hc)⟩
    · rw [hg.proc v hv']
      exact hno v

theorem others (hut : u ≠ t) : Knows s' u c := by
  have hp := hg.proc u hut
  refine ⟨by rw [hp, hk.own], by rw [hp, hk.tx], by rw [hp, hk.cwd], by rw [hp]; exact hk.idle,
    fun f hf => ?_, fun k => ?_, hk.nodup,
    by rw [hp]; exact hk.apart, hk.supp, fun k hl => hg.valid_lock h hk hl, fun d hd => ⟨(hk.dirs d hd).1, hg.dirs h hk hd⟩,
    fun x hx => ⟨(hk.below x hx).1, (hk.below x hx).2.1, hg.below h hk hx⟩, fun x hx => ?_,
    fun p hf => ?_, fun n hc d hd => ?_⟩
  · rw [hp] at hf
    rw [hg.file u f hut hf]
    exact hk.busy f hf
  · rw [hg.lock k u hut, hk.lock, hp]
  · have ho := (hk.plain x hx).1
    refine ⟨ho, hg.plain h hk hx fun hf => ?_⟩
    obtain ⟨h1, hown⟩ := hg.freeing x hf
    have htN := h.lt_of_own hown
    have := others_pos_of_own (N := N) (h.lt_of_own (t := u) (by rwa [hk.own])) hut (by rwa [hk.own])
    rw [h.table.refs, refsTo_eq htN] at h1
    have := Multiset.count_pos.2 hown
    omega
  · rw [hp] at hf
    obtain ⟨hl, hown⟩ := h.of_fin (Prog.fin_of_freeing hf)
    refine ⟨hg.valid p (h.ref_pos_of_own hown) (hk.free p hf).1 fun hc => ?_,
      by rw [hg.din p u hut hl]; exact (hk.free p hf).2⟩
    have hlt := (h.of_fin (Prog.fin_of_clearing hc)).1
    rw [hl] at hlt
    exact hut (Option.some.inj hlt)
  · rw [hp] at hc
    exact hg.claimed h hk hc hd

end Guar

end Xv6Cow.Itable

import Mathlib.Algebra.Order.BigOperators.Group.Finset
import Xv6Cow.Log.Crash

/-! # The space that `begin_op` reserves

`begin_op` admits an operation against `LOGSIZE` blocks, `mkfs` makes the log `nlog = LOGSIZE`
blocks long, header included, and `log_write` panics as soon as `log.size - 1` blocks are listed,
before it looks for absorption.  So one block of what `begin_op` promises is not there.

`limitedStep m` restricts the system to operations that call `log_write` on at most `m` distinct
blocks.  With `m = MAXOPBLOCKS` the panic is reachable (`tooBig_reachable`).  With a smaller `m` the
blocks that are listed and those that the operations under way may still log stay below the limit
(`Reserved`), and it is not: `no_tooBig_iff`. -/

namespace Xv6Cow.Log

open Runs
open Function (update_self update_of_ne)

/-- `nlog` of `mkfs.c`: the number of log blocks of every file system `mkfs` lays out. -/
def nlog : ℕ := LOGSIZE

/-- The system whose operations call `log_write` on at most `m` distinct blocks each. -/
def limitedStep (m : ℕ) (s : Sys) : Action → Option Sys
  | .write k b v => if (insert b (s.logged k)).card ≤ m then s.step (.write k b v) else none
  | a => s.step a

variable {m n : ℕ} {s t : Sys} {d₀ : Disk}

theorem step_of_limitedStep {a : Action} (h : limitedStep m s a = some t) : s.step a = some t := by
  unfold limitedStep at h
  split at h
  · split_ifs at h
    exact h
  · exact h

theorem limitedStep_mono {a : Action} (hmn : m ≤ n) (h : limitedStep m s a = some t) :
    limitedStep n s a = some t := by
  unfold limitedStep at h ⊢
  split at h
  · split_ifs at h with hc
    exact (if_pos (hc.trans hmn)).trans h
  · exact h

/-! ### The reservation -/

/-- The blocks that the operations under way may still log. -/
def owed (m : ℕ) (s : Sys) : ℕ := ∑ k ∈ s.ops, (m - (s.logged k).card)

/-- The blocks that are listed leave room for those that are owed. -/
structure Reserved (m : ℕ) (s : Sys) : Prop where
  room : s.lh.length + owed m s < LOGSIZE - 1
  idle : s.ops = ∅ → s.lh = []
  listed : ∀ k ∈ s.ops, ∀ b ∈ s.logged k, b ∈ s.lh

theorem reserved_of_idle (hlh : s.lh = []) (hops : s.ops = ∅) : Reserved m s := by
  refine ⟨?_, fun _ => hlh, fun k hk => ?_⟩
  · rw [owed, hops, hlh, Finset.sum_empty]
    decide
  · rw [hops] at hk
    exact absurd hk (Finset.notMem_empty k)

theorem Reserved.begin {k : ℕ} (hm : m < MAXOPBLOCKS) (hR : Reserved m s) (hI : Inv d₀ s)
    (hk : k ∉ s.ops) (hroom : ¬ s.lh.length + (s.outstanding + 1) * MAXOPBLOCKS > LOGSIZE)
    (hlh : t.lh = s.lh) (hops : t.ops = insert k s.ops)
    (hlogged : t.logged = Function.update s.logged k ∅) : Reserved m t := by
  refine ⟨?_, fun h0 => ?_, fun l hl b hb => ?_⟩
  · have howed : owed m t ≤ t.ops.card * m := by
      rw [← Finset.sum_const_nat (f := fun _ => m) fun _ _ => rfl]
      exact Finset.sum_le_sum fun l _ => Nat.sub_le _ _
    have hidle : s.ops.card = 0 → s.lh.length = 0 := fun h0 => by
      rw [hR.idle (Finset.card_eq_zero.mp h0), List.length_nil]
    rw [hops, Finset.card_insert_of_notMem hk] at howed
    have hle : (s.ops.card + 1) * m ≤ (s.ops.card + 1) * 9 :=
      Nat.mul_le_mul_left _ (Nat.le_of_lt_succ hm)
    rw [hI.count] at hroom
    rw [hlh]
    unfold LOGSIZE MAXOPBLOCKS at *
    omega
  · rw [hops] at h0
    exact absurd h0 (Finset.insert_ne_empty k s.ops)
  · rw [hops] at hl
    rw [hlogged] at hb
    rw [hlh]
    obtain rfl | hne := eq_or_ne l k
    · rw [update_self] at hb
      exact absurd hb (Finset.notMem_empty b)
    · rw [update_of_ne hne] at hb
      exact hR.listed l (Finset.mem_of_mem_insert_of_ne hl hne) b hb

theorem Reserved.write {k b : ℕ} (hR : Reserved m s) (hk : k ∈ s.ops)
    (hcard : (insert b (s.logged k)).card ≤ m) (hlh : t.lh = if b ∈ s.lh then s.lh else s.lh ++ [b])
    (hops : t.ops = s.ops) (hlogged : t.logged = Function.update s.logged k
      (insert b (s.logged k))) : Reserved m t := by
  have hmem : ∀ c, c ∈ s.lh → c ∈ t.lh := fun c hc => by
    rw [hlh]
    split_ifs
    · exact hc
    · exact List.mem_append_left _ hc
  refine ⟨?_, fun h0 => ?_, fun l hl c hc => ?_⟩
  · have hrest : ∑ l ∈ s.ops.erase k, (m - (t.logged l).card) = ∑ l ∈ s.ops.erase k,
        (m - (s.logged l).card) :=
      Finset.sum_congr rfl fun l hl => by rw [hlogged, update_of_ne (Finset.ne_of_mem_erase hl)]
    have hroom := hR.room
    unfold owed at hroom ⊢
    rw [← Finset.add_sum_erase _ _ hk] at hroom
    rw [hops, ← Finset.add_sum_erase _ _ hk, hrest, hlogged, update_self, hlh]
    have hsub : (s.logged k).card ≤ (insert b (s.logged k)).card :=
      Finset.card_le_card (Finset.subset_insert _ _)
    split_ifs with hb
    · omega
    · have hnew : b ∉ s.logged k := fun h => hb (hR.listed k hk b h)
      rw [Finset.card_insert_of_notMem hnew] at hcard ⊢
      rw [List.length_append, List.length_singleton]
      omega
  · rw [hops] at h0
    rw [h0] at hk
    exact absurd hk (Finset.notMem_empty k)
  · rw [hops] at hl
    rw [hlogged] at hc
    obtain rfl | hne := eq_or_ne l k
    · rw [update_self, Finset.mem_insert] at hc
      obtain rfl | hc := hc
      · rw [hlh]
        split_ifs with hb
        · exact hb
        · exact List.mem_append_right _ (List.mem_singleton_self c)
      · exact hmem c (hR.listed l hk c hc)
    · rw [update_of_ne hne] at hc
      exact hmem c (hR.listed l hl c hc)

theorem Reserved.endOp {k : ℕ} (hR : Reserved m s) (hlh : t.lh = s.lh) (hlogged : t.logged = s.logged)
    (hops : t.ops = s.ops.erase k) (hne : t.ops ≠ ∅) : Reserved m t := by
  refine ⟨lt_of_le_of_lt ?_ hR.room, fun h0 => absurd h0 hne, fun l hl b hb => ?_⟩
  · rw [hlh]
    refine Nat.add_le_add_left ?_ _
    unfold owed
    rw [hops, hlogged]
    exact Finset.sum_le_sum_of_subset (Finset.erase_subset k s.ops)
  · rw [hops] at hl
    rw [hlogged] at hb
    rw [hlh]
    exact hR.listed l (Finset.mem_of_mem_erase hl) b hb

/-! ### Runs -/

/-- No panic, and while operations may begin the reservation holds. -/
structure Safe (m : ℕ) (s : Sys) : Prop where
  panic : s.pc ≠ .panicked .tooBigATransaction
  reserved : s.pc = .running → Reserved m s

theorem Safe.write {k b : ℕ} {v : Block} (h : Safe m s) (hI : Inv d₀ s) (hsz : s.size = nlog)
    (hs : limitedStep m s (.write k b v) = some t) : Safe m t := by
  rw [limitedStep, Option.ite_none_right_eq_some] at hs
  obtain ⟨hcard, hs⟩ := hs
  rw [Sys.step, Option.ite_none_right_eq_some] at hs
  obtain ⟨⟨hup, hk, -⟩, hs⟩ := hs
  have hpc := hI.running hup (hI.not_committing hk)
  have hR := h.reserved hpc
  have hroom := hR.room
  have hbig : ¬ (s.lh.length ≥ LOGSIZE ∨ s.lh.length ≥ s.size - 1) := by
    rw [hsz, nlog]
    omega
  have hout : ¬ s.outstanding < 1 := by
    have := Finset.card_pos.mpr ⟨k, hk⟩
    rw [hI.count]
    omega
  simp only [Sys.logWrite, if_neg hbig, if_neg hout, Option.some.injEq] at hs
  subst hs
  exact ⟨h.panic, fun _ => hR.write hk hcard rfl rfl rfl⟩

theorem Safe.endOp {k : ℕ} (h : Safe m s) (hI : Inv d₀ s) (hs : s.step (.endOp k) = some t) :
    Safe m t := by
  rw [Sys.step, Option.ite_none_right_eq_some] at hs
  obtain ⟨⟨hup, hk⟩, hs⟩ := hs
  have hnc := hI.not_committing hk
  have hR := h.reserved (hI.running hup hnc)
  have hcount := hI.count
  unfold Sys.endOp at hs
  rw [if_neg (by rw [hnc]; exact Bool.false_ne_true)] at hs
  split_ifs at hs with h0 hlen
  · cases hs
    exact ⟨by simp, fun hr => absurd hr (by simp)⟩
  · cases hs
    exact ⟨by simp, fun hr => absurd hr (by simp)⟩
  · cases hs
    refine ⟨h.panic, fun _ => hR.endOp rfl rfl rfl fun he => ?_⟩
    have hcard := Finset.card_erase_of_mem hk
    rw [show s.ops.erase k = ∅ from he, Finset.card_empty] at hcard
    omega

theorem Safe.tick (hI : Inv d₀ s) (hs : s.tick = some t) : Safe m t := by
  have hphase := hI.phase
  unfold Phase at hphase
  unfold Sys.tick at hs
  split at hs <;> simp only [Option.some.injEq, reduceCtorEq] at hs <;> subst hs <;>
    rename_i hpc <;> simp only [hpc] at hphase
  case h_7 => exact ⟨by simp, fun _ => reserved_of_idle hphase.2.2.1 (hI.idle hphase.2.1)⟩
  case h_10 => exact ⟨by simp, fun _ => reserved_of_idle rfl hphase.2.2.2.1⟩
  all_goals
    refine ⟨?_, fun hr => absurd hr ?_⟩ <;> dsimp only <;> (try split_ifs) <;> simp

theorem Safe.step {a : Action} (hm : m < MAXOPBLOCKS) (h : Safe m s) (hI : Inv d₀ s)
    (hsz : s.size = nlog) (hs : limitedStep m s a = some t) : Safe m t := by
  cases a with
  | begin k =>
      simp only [limitedStep, Sys.step, Sys.beginOp, Option.ite_none_right_eq_some,
        Option.map_eq_some_iff, Option.ite_none_left_eq_some, Option.some.injEq] at hs
      obtain ⟨⟨hup, hk⟩, u, ⟨hc, hroom, rfl⟩, rfl⟩ := hs
      have hR := h.reserved (hI.running hup (Bool.not_eq_true _ ▸ hc))
      exact ⟨h.panic, fun _ => hR.begin hm hI hk hroom rfl rfl rfl⟩
  | write k b v => exact h.write hI hsz hs
  | endOp k => exact h.endOp hI hs
  | tick => exact Safe.tick hI hs
  | evict b =>
      simp only [limitedStep, Sys.step, Option.ite_none_right_eq_some, Option.some.injEq] at hs
      obtain ⟨-, rfl⟩ := hs
      exact ⟨h.panic, fun hr => ⟨(h.reserved hr).room, (h.reserved hr).idle, (h.reserved hr).listed⟩⟩
  | crash =>
      simp only [limitedStep, Sys.step, Option.some.injEq] at hs
      subst hs
      exact ⟨by simp [Sys.reboot], fun hr => absurd hr (by simp [Sys.reboot])⟩

/-- Three operations of ten blocks each, all admitted by `begin_op`, round by round. -/
def threeOps : List Action :=
  [.tick, .tick, .begin 0, .begin 1, .begin 2] ++
    (List.range 30).map (fun i => .write (i % 3) (100 + i) (fun _ => 0))

theorem threeOps_pc :
    (exec (limitedStep MAXOPBLOCKS) (boot 2 nlog (fun _ _ => 0)) threeOps).map (fun s => s.pc) =
      some (.panicked .tooBigATransaction) := by decide +kernel

theorem tooBig_reachable : ∃ s,
    exec (limitedStep MAXOPBLOCKS) (boot 2 nlog (fun _ _ => 0)) threeOps = some s ∧
      s.pc = .panicked .tooBigATransaction := by
  obtain ⟨s, hs, hv⟩ := Option.map_eq_some_iff.mp threeOps_pc
  exact ⟨s, hs, hv⟩

/-- **The reservation suffices for operations of fewer than `MAXOPBLOCKS` blocks, and only for
them.**  On a file system laid out by `mkfs`, no run of operations that each log at most `m`
distinct blocks panics with "too big a transaction" if and only if `m < MAXOPBLOCKS`. -/
theorem no_tooBig_iff (m : ℕ) :
    (∀ start d as s, decodeHead (d start) = [] → exec (limitedStep m) (boot start nlog d) as =
      some s → s.pc ≠ .panicked .tooBigATransaction) ↔ m < MAXOPBLOCKS := by
  constructor
  · intro hno
    by_contra hm
    obtain ⟨s, hs, hv⟩ := Option.map_eq_some_iff.mp threeOps_pc
    have hs' := exec_mono (fun _ _ _ => limitedStep_mono (not_lt.mp hm)) hs
    exact hno 2 _ _ s (by decide +kernel) hs' hv
  · intro hm start d as s hd h
    have hInv : ∀ {xs : List Action} {t : Sys}, exec (limitedStep m) (boot start nlog d) xs =
        some t → Inv d t ∧ t.size = nlog := fun hx => by
      have hx' := exec_mono (fun _ _ _ => step_of_limitedStep) hx
      exact ⟨inv_exec (by decide) hd hx', (exec_frame hx').2.1⟩
    refine (exec_induction (P := fun _ t => Safe m t) ⟨by simp [boot],
      fun hr => absurd hr (by simp [boot])⟩ ?_ h).panic
    intro xs t a u hx ih hs
    exact ih.step hm (hInv hx).1 (hInv hx).2 hs

end Xv6Cow.Log

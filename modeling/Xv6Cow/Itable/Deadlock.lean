import Xv6Cow.Itable.Reach

/-! # Inode locks and deadlock

A process that waits for a second inode lock holds one directory, and waits for an inode that it has
found below that directory or has just made.  If the inode is a directory, it is the younger of the
two, so along processes that wait for each other's directories the directories get younger, and
there is no way back to the first.  Nobody waits in `begin_op` with a lock or a reservation, and the
`acquiresleep` in `iput` never waits. -/

namespace Xv6Cow.Itable

open Relation
open Fs (NINODE ROOTINO)

theorem not_transGen_self {α : Type*} {r : α → α → Prop} {f : α → ℕ}
    (hr : ∀ a b c d, r a b → r b c → r c d → f a < f b) (a : α) : ¬ TransGen r a a := by
  have hpath : ∀ {a b}, TransGen r a b → ∀ c d, r b c → r c d → f a < f b := by
    intro a b hab
    induction hab with
    | single h => exact fun c d => hr _ _ c d h
    | @tail b c _ h ih => exact fun d e hd he => (ih c d h hd).trans (hr b c d e h hd he)
  intro h
  obtain ⟨b, hab, hb⟩ := TransGen.head'_iff.1 h
  obtain ⟨c, hbc⟩ : ∃ c, r b c := by
    rcases ReflTransGen.cases_head hb with rfl | ⟨c, hbc, _⟩
    · exact ⟨b, hab⟩
    · exact ⟨c, hbc⟩
  exact absurd (hpath h b c hab hbc) (lt_irrefl _)

variable {N : ℕ} {s : Sys} {t u v ip : ℕ} {c : Ctx} {disk : ℕ → ℕ → Dinode} {clock : ℕ}

/-- The process holds a sleep lock, or a reservation in the log. -/
def Holds (s : Sys) (t : ℕ) : Prop := (∃ p < NINODE, (s.itable p).lock = some t) ∨ (s.proc t).tx = true

instance (s : Sys) (t : ℕ) : Decidable (Holds s t) := inferInstanceAs (Decidable (_ ∨ _))

/-- Process `t` waits for a sleep lock or for log space, and `u` holds it. -/
def Waits (s : Sys) (t u : ℕ) : Prop :=
  match (s.proc t).prog with
  | .ilock p _ => (s.itable p).lock = some u
  | .iput p _ => frees s p ∧ (s.itable p).lock = some u
  | .beginOp _ => (s.committing ∨ logFull s) ∧ (s.proc u).tx = true
  | _ => False

instance (s : Sys) (t u : ℕ) : Decidable (Waits s t u) := by
  unfold Waits
  split <;> infer_instance

/-- Process `t` holds something, and waits for what `u` holds. -/
def Blocked (s : Sys) (t u : ℕ) : Prop := Holds s t ∧ Waits s t u

instance (s : Sys) (t u : ℕ) : Decidable (Blocked s t u) := inferInstanceAs (Decidable (_ ∧ _))

/-- The inode whose lock a process waits for. -/
def Prog.wanted : Prog → ℕ
  | .ilock p _ => p
  | _ => 0

theorem Inv.ilock_of_blocked (h : Inv N s) (hb : Blocked s t u) :
    ∃ p k, (s.proc t).prog = .ilock p k ∧ (s.itable p).lock = some u := by
  obtain ⟨hh, hw⟩ := hb
  unfold Waits at hw
  split at hw
  case h_1 p k hp => exact ⟨p, k, hp, hw⟩
  case h_2 p k hp => simp [h.iput_unlocked hp hw.1] at hw
  case h_3 k hp =>
      exfalso
      obtain ⟨c, hk, hn⟩ := h.knows t
      rw [hp] at hn
      rcases hh with ⟨p, _, hl⟩ | htx
      · rcases (hk.lock p).1 hl with hm | hm
        · simp [hn.1] at hm
        · simp [hp, Prog.fin] at hm
      · simp [hk.tx, hn.2.1] at htx
  case h_4 => exact hw.elim

theorem Inv.below_of_blocked (h : Inv N s) (htu : Blocked s t u) (huv : Blocked s u v) :
    (s.at (s.key (s.proc t).prog.wanted)).type = .dir ∧
      Below s (s.key (s.proc t).prog.wanted) (s.key (s.proc u).prog.wanted) := by
  obtain ⟨p, j, hp, hl⟩ := h.ilock_of_blocked htu
  obtain ⟨q, k, hq, _⟩ := h.ilock_of_blocked huv
  obtain ⟨c, hk, hn⟩ := h.knows u
  have hfin : (s.proc u).prog.fin = none := by rw [hq]; rfl
  have hm : p ∈ c.locks := ((hk.lock p).1 hl).resolve_right (by simp [hfin])
  rw [hq] at hn
  obtain ⟨dp, hlocks, hd, hb⟩ := hn.2.1.resolve_left fun h0 => by simp [h0] at hm
  rw [hlocks, Multiset.mem_singleton] at hm
  subst hm
  rw [hp, hq]
  exact ⟨(hk.dirs p hd).2, (hk.below _ hb).2.2⟩

/-- **No deadlock.**  In no state that processes reach from a formatted disk is there a circle of
processes each of which holds an inode lock or a reservation in the log, and waits for what the next
one holds. -/
theorem no_deadlock (hN : 0 < N) (hf : Formatted disk clock) {acts : List Act}
    (hs : Runs.exec (step N) (boot disk clock) acts = some s) (t : ℕ) : ¬ TransGen (Blocked s) t t := by
  have h : Inv N s := inv_of_exec hN hf hs
  refine not_transGen_self (f := fun t => (s.at (s.key (s.proc t).prog.wanted)).gen)
    (fun a b c d hab hbc hcd => ?_) t
  exact (h.below_of_blocked hab hbc).2 (h.below_of_blocked hbc hcd).1

/-- What `mkfs` writes when there are no files to put on the disk. -/
def mkfs (dev inum : ℕ) : Dinode :=
  if dev = ROOTDEV ∧ inum = ROOTINO then
    { type := .dir, nlink := 1, data := [(.dot, ROOTINO), (.dotdot, ROOTINO)] } else {}

theorem mkfs_formatted : Formatted mkfs 1 where
  gen dev i := by
    unfold mkfs
    split_ifs <;> decide
  tree dev i e _ he hdot := by
    unfold mkfs at he
    split_ifs at he
    · simp only [List.mem_cons, List.not_mem_nil, or_false] at he
      rcases he with rfl | rfl <;> cases hdot
    · simp at he
  free dev i hn := by
    unfold mkfs at hn ⊢
    split_ifs at hn ⊢
    rfl
  root := rfl

/-- Two processes make directories in the root, and the second one waits for its lock. -/
def twoMkdirs : List Act :=
  [.fork 0 1, .call 0 (.mkdir ⟨false, [.name 0]⟩), .run 0 true 0, .run 0 true 0, .run 0 true 0,
    .call 1 (.mkdir ⟨false, [.name 1]⟩), .run 1 true 0, .run 1 true 0]

set_option maxRecDepth 100000 in
theorem no_deadlock_twoMkdirs : Blocked (Runs.after (step 2) (boot mkfs 1) twoMkdirs) 1 0 ∧
    ¬ TransGen (Blocked (Runs.after (step 2) (boot mkfs 1) twoMkdirs)) 1 1 :=
  ⟨by decide +kernel, no_deadlock (by decide) mkfs_formatted
    (Runs.exec_after _ _ twoMkdirs (by decide +kernel)) 1⟩

end Xv6Cow.Itable

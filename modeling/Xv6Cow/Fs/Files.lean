import Xv6Cow.Fs.Path

/-! # Operations and processes

What `begin_op` and `end_op` do to the invariant, and how the references to the inode table move
when the directory of a process changes. -/

namespace Xv6Cow.Fs

open Log (Block Disk)

variable {s s' t : FsState} {F F' : Set ℕ} {lent lent' bal : ℕ → ℤ} {a b d f fd i k l m p : ℕ}
    {δ : ℤ} {g : File} {q : FsProc}

/-! ### The beginning and the end of an operation -/

/-- The state after `end_op`. -/
def FsState.ended (s : FsState) : FsState :=
  if s.outstanding - 1 = 0 then
    { s with outstanding := 0, home := fun b => if b ∈ s.lh then s.disk b else s.home b, lh := [] }
  else { s with outstanding := s.outstanding - 1 }

@[simp] theorem ended_sb : s.ended.sb = s.sb := by unfold FsState.ended; split_ifs <;> rfl
@[simp] theorem ended_disk : s.ended.disk = s.disk := by unfold FsState.ended; split_ifs <;> rfl
@[simp] theorem ended_itable : s.ended.itable = s.itable := by unfold FsState.ended; split_ifs <;> rfl
@[simp] theorem ended_ftable : s.ended.ftable = s.ftable := by unfold FsState.ended; split_ifs <;> rfl
@[simp] theorem ended_procs : s.ended.procs = s.procs := by unfold FsState.ended; split_ifs <;> rfl

theorem wp_endOp {Q : Unit → FsState → Prop} {E : Panic → Prop} : wp endOp Q E s ↔ Q () s.ended :=
  wp_modify

theorem wp_beginOp {Q : Unit → FsState → Prop} {E : Panic → Prop} :
    wp beginOp Q E s ↔ Q () { s with outstanding := s.outstanding + 1 } := wp_modify

theorem Inv.op (h : Inv s lent bal F) (n : ℕ) : Inv { s with outstanding := n } lent bal F :=
  ⟨⟨h.mid.sb, h.mid.owned, h.mid.full, h.mid.fits, h.mid.disk, h.mid.table, h.mid.loose⟩, h.live,
    h.refs, h.held, h.frefs, ⟨h.files.small, h.files.closed, h.files.valid, h.files.writable⟩,
        h.dirs, fun i hi h0 => by
      cases h.zombie i hi h0 with
      | inl hF => exact Or.inl hF
      | inr hk =>
          obtain ⟨k, hk, hlt⟩ := hk
          exact Or.inr ⟨k, ⟨hk.ref, hk.valid, hk.inum⟩, hlt⟩⟩

/-! ### Processes -/

/-- The state after process `p` has been set. -/
def FsState.setProc (s : FsState) (p : ℕ) (q : FsProc) : FsState :=
  { s with procs := Function.update s.procs p q }

@[simp] theorem setProc_self : (s.setProc p q).procs p = q := Function.update_self _ _ _

theorem setProc_ne (h : m ≠ p) : (s.setProc p q).procs m = s.procs m := Function.update_of_ne h _ _

theorem cwds_setProc (hp : p < NPROC) : cwds (s.setProc p q) = cwds s - ofRef (s.procs p).dir +
    ofRef q.dir := by
  have hfun : (fun m => ((s.setProc p q).procs m).dir) = Function.update (fun m => (s.procs m).dir)
      p q.dir := by
    funext m
    by_cases hm : m = p
    · rw [hm, setProc_self, Function.update_self]
    · rw [setProc_ne hm, Function.update_of_ne hm]
  unfold cwds
  rw [hfun, tally_update (Finset.mem_range.mpr hp)]

theorem Inv.setProc (h : Inv s lent bal F) (hp : p < NPROC)
    (hl : lent' = lent + ofRef (s.procs p).dir - ofRef q.dir)
    (hq : ∀ fd < NOFILE, q.ofile fd = (s.procs p).ofile fd)
    (hz : ∀ k, 0 < (s.itable k).ref → lent k < (s.itable k).ref → lent' k < (s.itable k).ref) :
    Inv (s.setProc p q) lent' bal F := by
  have hcwds := cwds_setProc (s := s) (q := q) hp
  have hfds : fds (s.setProc p q) = fds s := by
    unfold fds
    refine tally_congr (fun x hx => ?_)
    by_cases hxp : x.1 = p
    · rw [hxp, setProc_self, hq x.2 (mem_fdSlots.mp hx).2]
    · rw [setProc_ne hxp]
  refine ⟨⟨h.mid.sb, h.mid.owned, h.mid.full, h.mid.fits, h.mid.disk, h.mid.table, h.mid.loose⟩,
    h.live, ?_, fun k => ?_, ?_, ⟨h.files.small, h.files.closed, h.files.valid, h.files.writable⟩,
    h.dirs, fun i hi h0 => ?_⟩
  · change (fun k => ((s.itable k).ref : ℤ)) = cwds (s.setProc p q) + opens s + lent'
    rw [h.refs, hcwds, hl]
    abel
  · have := h.held k
    rw [hcwds, hl]
    simp only [Pi.add_apply, Pi.sub_apply] at *
    omega
  · change (fun f => ((s.ftable f).ref : ℤ)) = fds (s.setProc p q) + bal
    rw [h.frefs, hfds]
  · cases h.zombie i hi h0 with
    | inl hF => exact Or.inl hF
    | inr hk =>
        obtain ⟨k, hk, hlt⟩ := hk
        exact Or.inr ⟨k, ⟨hk.ref, hk.valid, hk.inum⟩, hz k hk.ref hlt⟩

end Xv6Cow.Fs

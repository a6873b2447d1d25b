import Xv6Cow.Exec.Model

/-! # The two halves of `exec`

Once `exec` has locked the inode, reading it changes nothing, so the memory sees `Kernel.exec` of
the contents of the inode, and the file system sees `iput` and `end_op`, whenever they come:
`wp_execFile`. -/

namespace Xv6Cow.Exec

open Vm (Layout VmM Mach PGSIZE)
open Kernel (KState KM ELFHDR_SIZE PROGHDR_SIZE ELF_MAGIC ELF_PROG_LOAD field)
open Fs (FsState FsM)

section halves
variable {x : XState} {i ip n off sz pagetable : ℕ} {file path : List UInt8} {argv : List ℕ}
  {E : Stop → Prop} {α : Type} {Q : α → XState → Prop}

/-- The state with another machine. -/
def XState.onMach (x : XState) (m : Mach) : XState := { x with kernel := { x.kernel with mach := m } }

@[simp] theorem onMach_fs {m : Mach} : (x.onMach m).fs = x.fs := rfl
@[simp] theorem onMach_locked {m : Mach} : (x.onMach m).locked = x.locked := rfl
@[simp] theorem onMach_mach {m : Mach} : (x.onMach m).kernel.mach = m := rfl
@[simp] theorem onMach_onMach {m m' : Mach} : (x.onMach m).onMach m' = x.onMach m' := rfl

theorem wp_kernel {c : KM α} :
    wp (kernel c) Q E x ↔ wp c (fun a k => Q a { x with kernel := k }) (fun e => E (.vm e))
      x.kernel := wp_embed

theorem wp_fs {c : FsM α} :
    wp (fs c) Q E x ↔ wp c (fun a s => Q a { x with fs := s }) (fun e => E (.fs e)) x.fs := wp_embed

theorem wp_vm {c : VmM α} :
    wp (vm c) Q E x ↔ wp c (fun a m => Q a (x.onMach m)) (fun e => E (.vm e)) x.kernel.mach := by
  rw [vm, wp_kernel, Kernel.vm, wp_zoom]
  rfl

theorem readOf_eq (file : List UInt8) (off : ℕ) (hn : n < 2 ^ 32) :
    Fs.readOf file off n = (((Kernel.readi file off n).length : ℤ), Kernel.readi file off n) := by
  unfold Fs.readOf Kernel.readi
  have hwrap : (off + n) % 2 ^ 32 < off ↔ 2 ^ 32 ≤ off + n := by omega
  simp only [gt_iff_lt, hwrap]
  split_ifs <;> rfl

theorem wp_readi {Q : ℤ × List UInt8 → XState → Prop} (hr : Fs.Reads x.fs ip file) (hn : n < 2 ^ 32) :
    wp (readi ip off n) Q E x ↔ Q (((Kernel.readi file off n).length : ℤ), Kernel.readi file off n)
      x := by
  rw [readi, wp_fs, wp_iff_of_ok (hr off n n hn le_rfl), readOf_eq file off hn]

/-! ### The segments -/

theorem wp_loadsegFrom {Q : ℤ → XState → Prop} {va offset k i : ℕ} (hr : Fs.Reads x.fs ip file) :
    wp (loadsegFrom pagetable va ip offset sz k i) Q E x ↔
      wp (vm (Kernel.loadsegFrom pagetable va file offset sz k i)) Q E x := by
  induction k generalizing x i with
  | zero =>
      simp only [loadsegFrom, Kernel.loadsegFrom, wp_vm, wp_pure]
      rfl
  | succ k ih =>
      simp only [loadsegFrom, Kernel.loadsegFrom, wp_vm, wp_bind]
      refine wp_iff (fun pa m => ?_)
      have hr' : ∀ m, Fs.Reads (x.onMach m).fs ip file := fun _ => hr
      have hn : min (sz - i) PGSIZE < 2 ^ 32 := (Nat.min_le_right _ _).trans_lt (by decide)
      by_cases hpa : pa = 0
      · simp [if_pos hpa]
      simp only [if_neg hpa, wp_bind, wp_readi (hr' m) hn, wp_vm, Vm.wp_memput, ne_eq, Nat.cast_inj,
        onMach_mach, onMach_onMach]
      by_cases hlen : (Kernel.readi file ((offset + i) % 2 ^ 32) (min (sz - i) PGSIZE)).length =
        min (sz - i) PGSIZE
      · simp only [hlen, not_true_eq_false, if_false]
        exact Iff.trans (ih (hr' _)) wp_vm
      · simp only [hlen, not_false_eq_true, if_true, wp_pure]

/-! ### Putting the inode back -/

/-- The state after `iunlockput` and `end_op`, if `iput` leaves `s`. -/
def XState.closed (x : XState) (ip : ℕ) (s : FsState) : XState :=
  { x with fs := s.ended, locked := Function.update x.locked ip false }

/-- The inode is locked, and `iput` leaves `s`. -/
structure Locked (x : XState) (ip : ℕ) (s : FsState) : Prop where
  locked : x.locked ip = true
  ref : 0 < (x.fs.itable ip).ref
  put : Fs.iput ip x.fs = .ok ((), s)

theorem Locked.onMach {s : FsState} (h : Locked x ip s) (m : Mach) : Locked (x.onMach m) ip s :=
  ⟨h.locked, h.ref, h.put⟩

theorem wp_iunlockput {s : FsState} {Q : Unit → XState → Prop} (h : Locked x ip s) :
    wp (iunlockput ip) Q E x ↔ Q () { x with fs := s, locked := Function.update x.locked ip false } := by
  have hpos := h.ref
  simp only [iunlockput, iunlock, wp_bind, wp_get]
  rw [if_neg (by simp only [h.locked, Bool.not_true, Bool.false_eq_true, false_or]; omega), wp_set,
    wp_fs, wp_iff_of_ok h.put]

end halves

section halves
variable [Layout] {x : XState} {i ip n off sz pagetable : ℕ} {file path : List UInt8}
    {argv : List ℕ} {E : Stop → Prop}

theorem wp_execSeg {Q : Bool × ℕ → XState → Prop} {ph : List UInt8} (hr : Fs.Reads x.fs ip file) :
    wp (execSeg pagetable ip ph sz) Q E x ↔ wp (vm (Kernel.execSeg pagetable file ph sz)) Q E x := by
  unfold execSeg Kernel.execSeg
  rw [wp_vm]
  dsimp only
  by_cases hbad : field ph 40 8 < field ph 32 8 ∨ (field ph 16 8 + field ph 40 8) % 2 ^ 64 <
      field ph 16 8 ∨ field ph 16 8 % PGSIZE ≠ 0
  · simp only [if_pos hbad, wp_pure]
    rfl
  simp only [if_neg hbad, wp_bind, wp_vm]
  refine wp_iff (fun sz1 m => ?_)
  by_cases h0 : sz1 = 0
  · simp [if_pos h0]
  simp only [if_neg h0, wp_bind, wp_pure]
  exact (wp_loadsegFrom (x := x.onMach m) hr).trans wp_vm

theorem wp_execSegs {Q : Bool × ℕ → XState → Prop} (hr : Fs.Reads x.fs ip file) :
    wp (execSegs pagetable ip n off sz) Q E x ↔
      wp (vm (Kernel.execSegs pagetable file n off sz)) Q E x := by
  induction n generalizing x off sz with
  | zero =>
      simp only [execSegs, Kernel.execSegs, wp_vm, wp_pure]
      rfl
  | succ n ih =>
      have hn : PROGHDR_SIZE < 2 ^ 32 := by decide
      simp only [execSegs, Kernel.execSegs, wp_vm, wp_bind, wp_readi hr hn, ne_eq, Nat.cast_inj]
      by_cases hlen : (Kernel.readi file off PROGHDR_SIZE).length = PROGHDR_SIZE
      · simp only [hlen, not_true_eq_false, if_false]
        by_cases hload : field (Kernel.readi file off PROGHDR_SIZE) 0 4 = ELF_PROG_LOAD
        · simp only [hload, not_true_eq_false, if_false, wp_bind, wp_execSeg hr, wp_vm]
          refine wp_iff (fun r m => ?_)
          cases r.1 with
          | true => exact (ih (x := x.onMach m) hr).trans wp_vm
          | false => simp
        · simp only [hload, not_false_eq_true, if_true]
          exact (ih hr).trans wp_vm
      · simp only [hlen, not_false_eq_true, if_true, wp_pure]
        rfl

/-! ### `exec` -/

theorem wp_bad {s : FsState} {Q : ℤ → XState → Prop} (h : Locked x ip s) :
    wp (bad pagetable sz (some ip)) Q E x ↔
      wp (if pagetable ≠ 0 then Kernel.procFreepagetable pagetable sz else pure ())
        (fun _ m => Q (-1) ((x.onMach m).closed ip s)) (fun e => E (.vm e)) x.kernel.mach := by
  simp only [bad]
  split_ifs with h0
  · simp only [wp_vm, wp_bind, wp_iunlockput (h.onMach _), wp_fs, Fs.wp_endOp, wp_pure]
    rfl
  · simp only [wp_bind, wp_pure, wp_iunlockput h, wp_fs, Fs.wp_endOp]
    rfl

/-- The state in which `exec` returns `r`, when it has left the kernel in state `k`. -/
def XState.returned (x : XState) (i : ℕ) (path : List UInt8) (ip : ℕ) (s : FsState) (r : ℤ)
    (k : KState) : XState where
  kernel := k
  fs := s.ended
  locked := Function.update x.locked ip false
  name := if r = -1 then x.name else Function.update x.name i (nameOf path)

/-- **The two halves of `exec`.**  To the memory it is `exec` of the contents of the inode; to the
file system it is `iput` and `end_op`. -/
theorem wp_execFile {s : FsState} {Q : ℤ → XState → Prop} (hr : Fs.Reads x.fs ip file)
    (h : Locked x ip s) : wp (execFile i path ip argv) Q E x ↔
      wp (Kernel.exec i (some file) argv) (fun r k => Q r (x.returned i path ip s r k))
        (fun e => E (.vm e)) x.kernel := by
  have hn : ELFHDR_SIZE < 2 ^ 32 := by decide
  simp only [execFile, Kernel.exec, wp_bind, wp_readi hr hn, ne_eq, Nat.cast_inj]
  by_cases hlen : (Kernel.readi file 0 ELFHDR_SIZE).length = ELFHDR_SIZE
  swap
  · simp only [hlen, not_false_eq_true, if_true, wp_bad h, ne_eq, not_true_eq_false, if_false, wp_pure]
    rfl
  by_cases hmagic : field (Kernel.readi file 0 ELFHDR_SIZE) 0 4 = ELF_MAGIC
  swap
  · simp only [hlen, hmagic, not_false_eq_true, if_true, wp_bad h, ne_eq, not_true_eq_false,
      if_false, wp_pure]
    rfl
  simp only [hlen, hmagic, not_true_eq_false, if_false, wp_bind, wp_kernel, Kernel.wp_getProc,
    wp_vm, Kernel.wp_vm, Kernel.execImage]
  refine wp_iff (fun pagetable m => ?_)
  by_cases h0 : pagetable = 0
  · simp only [h0, if_true, wp_bad (h.onMach m), ne_eq, not_true_eq_false, if_false, wp_pure]
    rfl
  simp only [h0, if_false, wp_bind, wp_execSegs (x := x.onMach m) hr, wp_vm, onMach_onMach, onMach_mach]
  refine wp_iff (fun r m₁ => ?_)
  cases hok : r.1 with
  | false =>
      simp only [Bool.not_false, if_true, wp_bad (h.onMach _), ne_eq, h0, not_false_eq_true,
        wp_bind, wp_pure]
      rfl
  | true =>
      simp only [Bool.not_true, Bool.false_eq_true, if_false, wp_bind, wp_iunlockput (h.onMach m₁),
        wp_fs, Fs.wp_endOp, execRest, wp_kernel, Kernel.wp_getProc, wp_vm, onMach_locked, onMach_mach]
      refine wp_iff (fun sz1 m₂ => ?_)
      by_cases h1 : sz1 = 0
      · simp only [h1, if_true, bad, wp_bind, ne_eq, h0, not_false_eq_true, wp_vm, wp_pure]
        rfl
      simp only [h1, if_false, wp_bind, wp_vm]
      refine wp_iff (fun _ m₃ => ?_)
      refine wp_iff (fun o m₄ => ?_)
      cases o with
      | none =>
          simp only [bad, wp_bind, ne_eq, h0, not_false_eq_true, if_true, wp_vm, wp_pure]
          rfl
      | some new =>
          have hargc : ((new.2 : ℕ) : ℤ) ≠ -1 := by omega
          simp only [wp_bind, wp_vm, wp_modify, wp_kernel, Kernel.wp_modifyProc, Kernel.wp_vm,
            wp_pure, XState.returned, if_neg hargc, Kernel.stword]
          rfl

end halves

end Xv6Cow.Exec

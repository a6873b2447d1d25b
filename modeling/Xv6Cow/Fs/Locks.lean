import Xv6Cow.Fs.Model
import Xv6Cow.Lib.Within

/-! # The inode locks of `namex`

`namex` once more, with the sleep locks of the inodes: the state has the list of those that the
process holds.  A process that takes one of them again waits for itself.  `namexFrom_locked` says
that the locks are free whenever they are taken, that `iunlock` finds the lock held, and that all
are free again in the end: the program with locks does what `Fs.namex` does. -/

namespace Xv6Cow.Fs

variable {R : FsState → FsState → Prop} {s t : FsState} {b k bn m off ip fuel : ℕ} {parent : Bool}
    {path name : List UInt8}

/-! ### What the functions on blocks leave alone -/

/-- Blocks, the log and the fields of inodes that are kept on disk may change. -/
class Blockwise (R : FsState → FsState → Prop) : Prop extends IsPreorder FsState R where
  disk : ∀ s d, R s { s with disk := d }
  lh : ∀ s l, R s { s with lh := l }
  din : ∀ s k (f : Dinode → Dinode),
    R s { s with itable := Function.update s.itable k { s.itable k with din := f (s.itable k).din } }

section within
variable [Blockwise R]

theorem changeBlock_within (b : ℕ) (f : Log.Block → Log.Block) : Within R (changeBlock b f) :=
  .modify fun s => Blockwise.disk s _

theorem logWrite_within (b : ℕ) : Within R (logWrite b) := by
  intro s
  unfold logWrite
  rw [wp_bind, wp_get, wp_ite]
  exact ⟨fun _ => wp_throw.mpr trivial, fun _ => wp_set.mpr (Blockwise.lh s _)⟩

theorem modifyDin_within (k : ℕ) (f : Dinode → Dinode) : Within R (modifyDin k f) :=
  .modify fun s => Blockwise.din s k f

theorem ballocBits_within : ∀ k bi, Within R (ballocBits b k bi)
  | 0, _ => .pure _
  | k + 1, bi => .bind .get fun _ => .ite (.bind (changeBlock_within _ _) fun _ =>
        .bind (logWrite_within _) fun _ =>
      .bind (.bind (changeBlock_within _ _) fun _ => logWrite_within _) fun _ =>
        .pure _) (ballocBits_within k (bi + 1))

theorem ballocFrom_within : ∀ k b, Within R (ballocFrom k b)
  | 0, _ => .pure _
  | k + 1, b => .bind .get fun _ => .bind (ballocBits_within _ _) fun r => by
      cases r with
      | none => exact ballocFrom_within k _
      | some r => exact .pure _

theorem balloc_within : Within R balloc := .bind .get fun _ => ballocFrom_within _ _

theorem getInode_within (k : ℕ) : Within R (getInode k) := .bind .get fun _ => .pure _

theorem bmap_within (k bn : ℕ) : Within R (bmap k bn) := by
  have new : ∀ f : ℕ → Dinode → Dinode, Within R (do
      let addr ← balloc
      if addr = 0 then pure 0
      else do
        modifyDin k (f addr)
        pure addr) := fun f =>
    .bind balloc_within fun _ => .ite (.pure _) (.bind (modifyDin_within _ _) fun _ => .pure _)
  refine .bind (getInode_within k) fun ip => .ite (.ite (new _) (.pure _))
    (.ite (.bind (.ite (new _) (.pure _)) fun ind => ?_) (.throw _))
  refine .ite (.pure _) (.bind .get fun s =>
    .ite (.bind balloc_within fun addr => .ite (.pure _) ?_) (.pure _))
  exact .bind (changeBlock_within _ _) fun _ => .bind (logWrite_within _) fun _ => .pure _

theorem readiLoop_within {n room : ℕ} : ∀ fuel off tot acc,
    Within R (readiLoop k n room fuel off tot acc)
  | 0, _, _, _ => .pure _
  | fuel + 1, _, _, _ =>
      .ite (.bind (bmap_within _ _) fun _ => .ite (.pure _) (.bind .get fun _ => .ite (.pure _)
      (readiLoop_within fuel _ _ _))) (.pure _)

theorem readi_within (k off n room : ℕ) : Within R (readi k off n room) :=
  .bind (getInode_within k) fun _ => .ite (.pure _) (readiLoop_within _ _ _ _)

end within

/-- A reference to entry `k` is not lost. -/
def Held (k : ℕ) (s t : FsState) : Prop := 0 < (s.itable k).ref → 0 < (t.itable k).ref

instance : Blockwise (Held k) where
  refl _ := id
  trans _ _ _ h h' := h' ∘ h
  disk _ _ := id
  lh _ _ := id
  din s l f h := by
    by_cases hkl : k = l
    · subst hkl
      simpa using h
    · simpa [hkl] using h

theorem iget_held (inum : ℕ) : Within (Held k) (iget inum) := by
  intro s
  unfold iget modifyInode
  rw [wp_bind, wp_get]
  have hset : ∀ l e, 0 < e.ref → Held k s { s with itable := Function.update s.itable l e } :=
      fun l e he h => by
    by_cases hkl : k = l
    · subst hkl
      simpa using he
    · simpa [hkl] using h
  split
  · rw [wp_bind, wp_modify, wp_pure]
    exact hset _ _ (Nat.succ_pos _)
  · split
    · exact wp_throw.mpr trivial
    · rw [wp_bind, wp_modify, wp_pure]
      exact hset _ _ Nat.one_pos

theorem dirlookupFrom_held : ∀ m off, Within (Held k) (dirlookupFrom ip name m off)
  | 0, _ => .pure _
  | m + 1, _ => .bind (.bind (readi_within _ _ _ _) fun _ => .ite (.throw _) (.pure _)) fun _ =>
      .ite (dirlookupFrom_held m _) (.ite (.bind (iget_held _) fun _ => .pure _)
        (dirlookupFrom_held m _))

theorem dirlookup_held : Within (Held k) (dirlookup ip name) :=
  .bind (getInode_within _) fun _ => .ite (.throw _) (dirlookupFrom_held _ _)

/-! ### `namex` with locks -/

/-- How a program with locks may stop. -/
inductive Halt
  | panic (e : Panic) | iunlock | deadlock

/-- Programs on the state and the locks that the process holds. -/
abbrev LockM := StateT (FsState × List ℕ) (Except Halt)

namespace Locked

/-- A function that takes no lock, or that finds the locks it takes free. -/
def call {α : Type} (c : FsM α) : LockM α := embed Prod.fst (fun t s => (s, t.2)) .panic c

/-- `ilock`; `acquiresleep` comes after the test of `ref`. -/
def ilock (ip : ℕ) : LockM Unit := do
  let t ← get
  if 0 < (t.1.itable ip).ref ∧ ip ∈ t.2 then throw .deadlock
  else do
    call (Fs.ilock ip)
    modify (fun t => (t.1, ip :: t.2))

/-- `iunlock` -/
def iunlock (ip : ℕ) : LockM Unit := do
  let t ← get
  if ip ∉ t.2 ∨ (t.1.itable ip).ref < 1 then throw .iunlock else set (t.1, t.2.erase ip)

/-- `iput`, which takes the lock of an inode that it frees. -/
def iput (ip : ℕ) : LockM Unit := do
  let t ← get
  let i := t.1.itable ip
  if i.ref = 1 ∧ i.valid = true ∧ i.din.nlink = 0 ∧ ip ∈ t.2 then throw .deadlock else call (Fs.iput ip)

/-- `iunlockput` -/
def iunlockput (ip : ℕ) : LockM Unit := do
  iunlock ip
  iput ip

/-- The loop of `namex`. -/
def namexFrom (parent : Bool) : (fuel ip : ℕ) → (path name : List UInt8) →
    LockM (Option (ℕ × List UInt8))
  | 0, _, _, _ => pure none
  | fuel + 1, ip, path, name =>
      match skipelem path with
      | none =>
          if parent then do
            iput ip
            pure none
          else pure (some (ip, name))
      | some (path, name) => do
          ilock ip
          let i ← call (getInode ip)
          if i.din.type ≠ T_DIR then do
            iunlockput ip
            pure none
          else if parent ∧ path = [] then do
            iunlock ip
            pure (some (ip, name))
          else do
            match ← call (dirlookup ip name) with
            | none => do
                iunlockput ip
                pure none
            | some (next, _) => do
                iunlockput ip
                namexFrom parent fuel next path name

/-- `namex`, called by process `p`. -/
def namex (p : ℕ) (path : List UInt8) (parent : Bool) : LockM (Option (ℕ × List UInt8)) := do
  let t ← get
  let ip ← (if path.head? = some SLASH then call (iget ROOTINO) else call (idup (t.1.procs p).cwd))
  namexFrom parent (path.length + 1) ip path []

/-- `namei` -/
def namei (p : ℕ) (path : List UInt8) : LockM (Option ℕ) := do
  let r ← namex p path false
  pure (r.map Prod.fst)

/-- `nameiparent` -/
def nameiparent (p : ℕ) (path : List UInt8) : LockM (Option (ℕ × List UInt8)) := namex p path true

/-! ### The locks do not matter -/

section locks
variable {α : Type} {l : List ℕ} {E : Halt → Prop}

theorem wp_call {c : FsM α} {Q : α → FsState × List ℕ → Prop} :
    wp (call c) Q E (s, l) ↔ wp c (fun a t => Q a (t, l)) (fun e => E (.panic e)) s := wp_embed

variable {Q : Unit → FsState × List ℕ → Prop}

theorem wp_ilock : wp (ilock ip) Q E (s, []) ↔ wp (Fs.ilock ip) (fun _ t => Q () (t, [ip]))
    (fun e => E (.panic e)) s := by
  unfold ilock
  rw [wp_bind, wp_get, if_neg (fun h => List.not_mem_nil h.2), wp_bind, wp_call]
  simp

theorem wp_iunlock (h : 0 < (s.itable ip).ref) : wp (iunlock ip) Q E (s, [ip]) ↔ Q () (s, []) := by
  have hn : ¬ (ip ∉ [ip] ∨ (s.itable ip).ref < 1) := by
    rw [not_or, not_not]
    exact ⟨List.mem_singleton_self _, by omega⟩
  unfold iunlock
  rw [wp_bind, wp_get, if_neg hn, wp_set, List.erase_cons_head]

theorem wp_iput : wp (iput ip) Q E (s, []) ↔ wp (Fs.iput ip) (fun _ t => Q () (t, []))
    (fun e => E (.panic e)) s := by
  unfold iput
  rw [wp_bind, wp_get, if_neg (fun h => List.not_mem_nil h.2.2.2), wp_call]

theorem wp_iunlockput (h : 0 < (s.itable ip).ref) :
    wp (iunlockput ip) Q E (s, [ip]) ↔ wp (Fs.iput ip) (fun _ t => Q () (t, []))
      (fun e => E (.panic e)) s := by
  unfold iunlockput
  rw [wp_bind, wp_iunlock h, wp_iput]

end locks

theorem ilock_ref : wp (Fs.ilock ip) (fun _ t => 0 < (t.itable ip).ref) (fun _ => True) s := by
  unfold Fs.ilock
  rw [wp_bind, wp_get, wp_ite]
  refine ⟨fun _ => wp_throw.mpr trivial, fun h => wp_ite.mpr ⟨fun _ => wp_pure.mpr (by omega),
    fun _ => ?_⟩⟩
  simp only [modifyInode, wp_bind, wp_modify, wp_ite, wp_throw, wp_pure, Function.update_self,
    implies_true, true_and]
  omega

/-- **Every lock is released.**  The loop does what it does without locks, and ends with none. -/
theorem namexFrom_locked : ∀ (fuel ip : ℕ) (path name : List UInt8) (s : FsState)
    (Q : _ → FsState × List ℕ → Prop) (E : Halt → Prop), wp (namexFrom parent fuel ip path name) Q E
      (s, []) ↔ wp (Fs.namexFrom parent fuel ip path name) (fun r t => Q r (t, []))
        (fun e => E (.panic e)) s := by
  intro fuel
  induction fuel with
  | zero => simp [namexFrom, Fs.namexFrom]
  | succ fuel ih =>
      intro ip path name s Q E
      rw [namexFrom, Fs.namexFrom]
      cases skipelem path with
      | none =>
          cases parent <;> simp only [wp_bind, wp_iput, wp_pure, if_true, if_false, Bool.false_eq_true]
      | some r =>
          simp only [wp_bind, wp_ilock]
          refine wp_iff_of ilock_ref fun _ t ht => ?_
          simp only [getInode, wp_call, wp_bind, wp_get, wp_pure]
          by_cases hd : (t.itable ip).din.type ≠ T_DIR
          · simp [if_pos hd, wp_iunlockput ht]
          · by_cases hl : parent = true ∧ r.1 = []
            · simp [if_neg hd, if_pos hl, wp_iunlock ht]
            · simp only [if_neg hd, if_neg hl, wp_bind, wp_call]
              refine wp_iff_of (wp_mono (dirlookup_held t) (fun _ u hu => hu ht) fun _ => id)
                fun a u hu => ?_
              cases a with
              | none => simp [wp_iunlockput hu]
              | some a => simp [wp_iunlockput hu, ih]

theorem namex_locked {p : ℕ} {Q : Option (ℕ × List UInt8) → FsState × List ℕ → Prop}
    {E : Halt → Prop} : wp (namex p path parent) Q E (s, []) ↔
      wp (Fs.namex p path parent) (fun r t => Q r (t, [])) (fun e => E (.panic e)) s := by
  simp only [namex, Fs.namex, wp_bind, wp_get, ← namexFrom_locked]
  split <;> rw [wp_call]

end Locked

end Xv6Cow.Fs

import Xv6Cow.Fs.Blocks
import Xv6Cow.Lib.Tally

/-! # The invariant of the file system

`Mid s N D` is what holds inside a call: `N` gives the inodes as the kernel has them, the inode
table holds copies of them, and the inode blocks hold them too, except for the inodes in `D` that
have been changed and not yet written back.  The bitmap is exact for `N`, and no inode has a hole.
A block whose buffer differs from the device and is not in the log is never metadata, an indirect
block or part of a directory.

`Inv s lent bal F` is what holds between the functions of a call, where `N` is what the disk says.
It adds the reference counts: `lent k` is the number of references to entry `k` of the inode table
that the call holds itself, negative for one it has dropped ahead of its owner; `bal` is the same
for open files.  An inode without links is held by an open file or as a current directory, except
for those in `F` that the call is about to free. -/

namespace Xv6Cow.Fs

open Log (Block Disk)
open Function (update update_self update_of_ne update_eq_self update_idem update_apply)

/-! ### Views of the state -/

/-- The inode `i` on disk. -/
def FsState.dinode (s : FsState) (i : ℕ) : Dinode := getDinode (s.disk (s.sb.iblock i)) (dinodeOff i)

/-- The abstract inode `i`. -/
def FsState.node (s : FsState) (i : ℕ) : Node := nodeOf s.disk (s.dinode i)

/-- The current directory of process `p`. -/
def FsProc.dir (p : FsProc) : Option ℕ := if p.used then some p.cwd else none

/-- The inode of an open file. -/
def File.target (f : File) : Option ℕ := if f.type = .none then none else some f.ip

/-- How many processes have each entry of the inode table as current directory. -/
def cwds (s : FsState) : ℕ → ℤ := tally (Finset.range NPROC) (fun p => (s.procs p).dir)

/-- How many open files each entry of the inode table has. -/
def opens (s : FsState) : ℕ → ℤ := tally (Finset.range NFILE) (fun f => (s.ftable f).target)

/-- The descriptors of all processes. -/
def fdSlots : Finset (ℕ × ℕ) := Finset.range NPROC ×ˢ Finset.range NOFILE

theorem mem_fdSlots {x : ℕ × ℕ} : x ∈ fdSlots ↔ x.1 < NPROC ∧ x.2 < NOFILE := by
  rw [fdSlots, Finset.mem_product, Finset.mem_range, Finset.mem_range]

attribute [irreducible] fdSlots

/-- How many descriptors each open file has. -/
def fds (s : FsState) : ℕ → ℤ := tally fdSlots (fun x => (s.procs x.1).ofile x.2)

/-- Entry `k` holds inode `i`, and its fields have been read. -/
structure Cached (s : FsState) (k i : ℕ) : Prop where
  ref : 0 < (s.itable k).ref
  valid : (s.itable k).valid = true
  inum : (s.itable k).inum = i

/-! ### Directories -/

/-- Entry `e` of the contents of a directory. -/
def entry (data : List UInt8) (e : ℕ) : List UInt8 := (data.drop (DIRENT_SIZE * e)).take DIRENT_SIZE

/-- The number of entries. -/
def entries (data : List UInt8) : ℕ := data.length / DIRENT_SIZE

/-- The inode that entry `e` names, 0 for none. -/
def entryInum (data : List UInt8) (e : ℕ) : ℕ := direntInum (entry data e)

/-- The name in entry `e`. -/
def entryName (data : List UInt8) (e : ℕ) : List UInt8 := cstr DIRSIZ (direntName (entry data e))

/-- A directory has whole entries, and they name inodes of the disk. -/
structure DirOk (ninodes : ℕ) (data : List UInt8) : Prop where
  whole : data.length % DIRENT_SIZE = 0
  inum : ∀ e < entries data, entryInum data e < ninodes

/-! ### The invariant -/

/-- The inode table: entries in use are of different inodes, and hold what `N` says. -/
structure Table (ninodes : ℕ) (t : ℕ → Inode) (N : ℕ → Dinode) : Prop where
  small : ∀ k, 0 < (t k).ref → k < NINODE
  inum : ∀ k, 0 < (t k).ref → 0 < (t k).inum ∧ (t k).inum < ninodes
  inj : ∀ k l, 0 < (t k).ref → 0 < (t l).ref → (t k).inum = (t l).inum → k = l
  cached : ∀ k, 0 < (t k).ref → (t k).valid = true → (t k).din = N (t k).inum

/-- The invariant inside a call. -/
structure Mid (s : FsState) (N : ℕ → Dinode) (D : Set ℕ) : Prop where
  sb : s.sb.Ok
  owned : Owned s.sb s.disk N ∅
  full : ∀ i, Alloc s.sb N i → Full s.disk (N i)
  fits : ∀ i, (N i).Fits
  disk : ∀ i < s.sb.ninodes, i ∉ D → s.dinode i = N i
  table : Table s.sb.ninodes s.itable N
  loose : ∀ b, b ∉ s.lh → s.disk b ≠ s.home b → s.sb.nmeta ≤ b ∧
    ∀ i j, Alloc s.sb N i → slot s.disk (N i) j = b → j ≠ MAXFILE ∧ (N i).type ≠ T_DIR

/-- Open files: those in use have an inode that has been read, and directories are not written
to. -/
structure Files (s : FsState) : Prop where
  small : ∀ f, 0 < (s.ftable f).ref → f < NFILE
  closed : ∀ f, (s.ftable f).ref = 0 → (s.ftable f).type = .none
  valid : ∀ f, (s.ftable f).type ≠ .none → (s.itable (s.ftable f).ip).valid = true
  writable : ∀ f, (s.ftable f).type = .inode → (s.ftable f).writable = true →
    (s.dinode (s.itable (s.ftable f).ip).inum).type ≠ T_DIR

/-- The invariant between the functions of a call. -/
structure Inv (s : FsState) (lent bal : ℕ → ℤ) (F : Set ℕ) : Prop where
  mid : Mid s s.dinode ∅
  live : ∀ k, 0 < (s.itable k).ref → (s.itable k).valid = true → (s.dinode (s.itable k).inum).type ≠ 0
  refs : (fun k => ((s.itable k).ref : ℤ)) = cwds s + opens s + lent
  held : ∀ k, 0 ≤ cwds s k + lent k
  frefs : (fun f => ((s.ftable f).ref : ℤ)) = fds s + bal
  files : Files s
  dirs : ∀ i, Alloc s.sb s.dinode i → (s.dinode i).type = T_DIR → DirOk s.sb.ninodes (s.node i).data
  zombie : ∀ i, Alloc s.sb s.dinode i → (s.dinode i).nlink = 0 →
    i ∈ F ∨ ∃ k, Cached s k i ∧ lent k < (s.itable k).ref

/-- Between system calls nothing is held and nothing is about to be freed, and only processes have
open files. -/
structure Good (s : FsState) : Prop where
  inv : Inv s 0 0 ∅
  idle : ∀ p, (s.procs p).used = false → ∀ fd, (s.procs p).ofile fd = none

/-! ### Changes of one inode -/

/-- The state after the buffer of block `b` has been changed and recorded in the log. -/
def FsState.wr (s : FsState) (b : ℕ) (f : Block → Block) : FsState :=
  { s with disk := update s.disk b (f (s.disk b)), lh := if b ∈ s.lh then s.lh else s.lh ++ [b] }

/-- The state after entry `k` of the inode table has been set. -/
def FsState.setEntry (s : FsState) (k : ℕ) (e : Inode) : FsState :=
  { s with itable := update s.itable k e }

/-- The state after entry `k` of the inode table has got the inode `n`. -/
def FsState.withDin (s : FsState) (k : ℕ) (n : Dinode) : FsState :=
  s.setEntry k { s.itable k with din := n }

/-- What a function that works on inode `i`, held by entry `k`, leaves of the rest: the inode
becomes `n`. -/
structure Ext (s s' : FsState) (N : ℕ → Dinode) (i k : ℕ) (n : Dinode) : Prop where
  rest : s' = { s with
    disk := s'.disk, lh := s'.lh, itable := update s.itable k { s.itable k with din := n } }
  lh : ∀ b ∈ s.lh, b ∈ s'.lh
  low : ∀ b < s.sb.bmapstart, s'.disk b = s.disk b
  others : ∀ m, m ≠ i → Alloc s.sb N m → ∀ j, slot s.disk (N m) j ≠ 0 →
    s'.disk (slot s.disk (N m) j) = s.disk (slot s.disk (N m) j)
  type : n.type = (N i).type
  fresh : ∀ j, slot s'.disk n j ≠ 0 → slot s'.disk n j = slot s.disk (N i) j ∨ slot s'.disk n j ∈ s'.lh
  logged : ∀ b, b ∉ s'.lh → s'.disk b = s.disk b ∨
    ((N i).type ≠ T_DIR ∧ b ≠ 0 ∧ ∃ j, j ≠ MAXFILE ∧ slot s'.disk n j = b)

section changes
variable {s s' s'' : FsState} {N : ℕ → Dinode} {D D' : Set ℕ} {n n' : Dinode} {i j k m b c : ℕ}
    {f : Block → Block}

@[simp] theorem wr_sb : (s.wr b f).sb = s.sb := rfl
@[simp] theorem wr_home : (s.wr b f).home = s.home := rfl
@[simp] theorem wr_outstanding : (s.wr b f).outstanding = s.outstanding := rfl
@[simp] theorem wr_itable : (s.wr b f).itable = s.itable := rfl
@[simp] theorem wr_ftable : (s.wr b f).ftable = s.ftable := rfl
@[simp] theorem wr_procs : (s.wr b f).procs = s.procs := rfl

theorem wr_disk : (s.wr b f).disk c = if c = b then f (s.disk b) else s.disk c := update_apply _ _ _ _

theorem mem_logged {lh : List ℕ} : c ∈ (if b ∈ lh then lh else lh ++ [b]) ↔ c ∈ lh ∨ c = b := by
  split_ifs with hb
  · constructor
    · exact Or.inl
    · intro hc
      cases hc with
      | inl hc => exact hc
      | inr hc => exact hc ▸ hb
  · rw [List.mem_append, List.mem_singleton]

theorem mem_wr_lh : c ∈ (s.wr b f).lh ↔ c ∈ s.lh ∨ c = b := mem_logged

@[simp] theorem setEntry_sb {e : Inode} : (s.setEntry k e).sb = s.sb := rfl
@[simp] theorem setEntry_disk {e : Inode} : (s.setEntry k e).disk = s.disk := rfl
@[simp] theorem setEntry_outstanding {e : Inode} : (s.setEntry k e).outstanding = s.outstanding := rfl

@[simp] theorem setEntry_self {e : Inode} : (s.setEntry k e).itable k = e := update_self _ _ _

theorem setEntry_ne {e : Inode} (h : m ≠ k) : (s.setEntry k e).itable m = s.itable m :=
  update_of_ne h _ _

theorem setEntry_setEntry {e e' : Inode} : (s.setEntry k e).setEntry k e' = s.setEntry k e' := by
  unfold FsState.setEntry
  rw [update_idem]

theorem withDin_self : (s.withDin k n).itable k = { s.itable k with din := n } := setEntry_self

theorem wp_modifyInode {g : Inode → Inode} {Q : Unit → FsState → Prop} {E : Panic → Prop} :
    wp (modifyInode k g) Q E s ↔ Q () (s.setEntry k (g (s.itable k))) := wp_modify

theorem wp_modifyDin {g : Dinode → Dinode} {Q : Unit → FsState → Prop} {E : Panic → Prop} :
    wp (modifyDin k g) Q E s ↔ Q () (s.withDin k (g (s.itable k).din)) := wp_modify

/-- Two states that agree but for the blocks, the log and the inode table. -/
theorem eq_rest {t : ℕ → Inode} (hsb : s'.sb = s.sb) (hhome : s'.home = s.home)
    (hop : s'.outstanding = s.outstanding) (ht : s'.itable = t) (hf : s'.ftable = s.ftable)
    (hp : s'.procs = s.procs) : s' = { s with disk := s'.disk, lh := s'.lh, itable := t } := by
  rw [← hsb, ← hhome, ← hop, ← ht, ← hf, ← hp]

theorem Mid.mono (h : Mid s N D) (hD : D ⊆ D') : Mid s N D' :=
  { h with disk := fun i hi hiD => h.disk i hi (fun hd => hiD (hD hd)) }

theorem Ext.refl (hk : (s.itable k).din = N i) : Ext s s N i k (N i) where
  rest := by rw [← hk, update_eq_self]
  lh := fun _ hb => hb
  low := fun _ _ => rfl
  others := fun _ _ _ _ _ => rfl
  type := rfl
  fresh := fun _ _ => Or.inl rfl
  logged := fun _ _ => Or.inl rfl

section
variable (e : Ext s s' N i k n)
include e

theorem Ext.sb : s'.sb = s.sb := by rw [e.rest]
theorem Ext.home : s'.home = s.home := by rw [e.rest]
theorem Ext.outstanding : s'.outstanding = s.outstanding := by rw [e.rest]
theorem Ext.ftable : s'.ftable = s.ftable := by rw [e.rest]
theorem Ext.procs : s'.procs = s.procs := by rw [e.rest]

theorem Ext.itable : s'.itable = update s.itable k { s.itable k with din := n } := by
  rw [e.rest]

theorem Ext.ref (l : ℕ) : (s'.itable l).ref = (s.itable l).ref := by
  rw [e.itable, update_apply]
  split_ifs with h
  · rw [h]
  · rfl

theorem Ext.inum (l : ℕ) : (s'.itable l).inum = (s.itable l).inum := by
  rw [e.itable, update_apply]
  split_ifs with h
  · rw [h]
  · rfl

theorem Ext.valid (l : ℕ) : (s'.itable l).valid = (s.itable l).valid := by
  rw [e.itable, update_apply]
  split_ifs with h
  · rw [h]
  · rfl

theorem Ext.cached (h : Cached s m c) : Cached s' m c :=
  ⟨by rw [e.ref]; exact h.ref, by rw [e.valid]; exact h.valid, by rw [e.inum]; exact h.inum⟩

theorem Ext.slot_other (hm : m ≠ i) (ha : Alloc s.sb N m) (j : ℕ) :
    slot s'.disk (N m) j = slot s.disk (N m) j := by
  apply slot_congr
  intro h0
  have := e.others m hm ha MAXFILE
  rw [slot_maxfile] at this
  exact this h0

theorem Ext.nodeOf_other (h : Mid s N D) (hm : m ≠ i) (ha : Alloc s.sb N m) :
    nodeOf s'.disk (N m) = nodeOf s.disk (N m) :=
  nodeOf_disk (h.full m ha) (e.others m hm ha)

theorem Ext.dinode (h : s.sb.Ok) (hm : m < s.sb.ninodes) : s'.dinode m = s.dinode m := by
  unfold FsState.dinode
  rw [e.sb, e.low _ (h.iblock_lt hm)]

theorem Ext.trans (e' : Ext s' s'' (update N i n) i k n') (hi : Alloc s.sb N i)
    (hn : n.type ≠ 0) (hlog : ∀ j, j ≠ MAXFILE → slot s'.disk n j ≠ 0 → slot s''.disk n' j =
      slot s'.disk n j) :
    Ext s s'' N i k n' where
  rest := by
    conv_lhs => rw [e'.rest]
    rw [e.rest]
    simp
  lh := fun b hb => e'.lh b (e.lh b hb)
  low := fun b hb => by rw [e'.low b (by rw [e.sb]; exact hb), e.low b hb]
  others := fun m hm ha j h0 => by
    have ha' : Alloc s'.sb (update N i n) m := by
      rw [e.sb]
      exact (alloc_update hi hn m).mpr ha
    have := e'.others m hm ha' j
    rw [update_of_ne hm, e.slot_other hm ha] at this
    rw [this h0, e.others m hm ha j h0]
  type := by rw [e'.type, update_self, e.type]
  fresh := fun j h0 => by
    have h1 := e'.fresh j h0
    rw [update_self] at h1
    cases h1 with
    | inr h1 => exact Or.inr h1
    | inl h1 =>
        cases e.fresh j (h1 ▸ h0) with
        | inl h2 => exact Or.inl (h1.trans h2)
        | inr h2 => exact Or.inr (h1 ▸ e'.lh _ h2)
  logged := fun b hb => by
    have h1 := e'.logged b hb
    rw [update_self, e.type] at h1
    cases h1 with
    | inr h1 => exact Or.inr h1
    | inl h1 =>
        cases e.logged b (fun hb' => hb (e'.lh b hb')) with
        | inl h2 => exact Or.inl (h1.trans h2)
        | inr h2 =>
            obtain ⟨ht, hb0, j, hj, hs⟩ := h2
            exact Or.inr ⟨ht, hb0, j, hj, by rw [hlog j hj (hs ▸ hb0), hs]⟩

end

/-- The table after a change of the inode in entry `k`. -/
theorem Table.change {ninodes : ℕ} {t : ℕ → Inode} (h : Table ninodes t N) (hr : 0 < (t k).ref)
    (hk : (t k).inum = i) : Table ninodes (update t k { t k with din := n }) (update N i n) := by
  have href : ∀ l, (update t k { t k with din := n } l).ref = (t l).ref := fun l => by
    rw [update_apply]
    split_ifs with hl
    · rw [hl]
    · rfl
  have hinum : ∀ l, (update t k { t k with din := n } l).inum = (t l).inum := fun l => by
    rw [update_apply]
    split_ifs with hl
    · rw [hl]
    · rfl
  refine ⟨fun l hl => h.small l (href l ▸ hl), fun l hl => hinum l ▸ h.inum l (href l ▸ hl),
    fun l m hl hm hlm => ?_, fun l hl hv => ?_⟩
  · rw [hinum, hinum] at hlm
    exact h.inj l m (href l ▸ hl) (href m ▸ hm) hlm
  · rw [href] at hl
    rw [hinum]
    by_cases hlk : l = k
    · rw [hlk, update_self, hk, update_self]
    · rw [update_of_ne hlk] at hv ⊢
      rw [update_of_ne (fun hli => hlk (h.inj l k hl hr (hli.trans hk.symm)))]
      exact h.cached l hl hv

/-- **The invariant after a change of one inode.**  What is left to show is about that inode
only. -/
theorem Mid.ext (h : Mid s N D) (e : Ext s s' N i k n) (hc : Cached s k i) (hi : Alloc s.sb N i)
    (howned : Owned s.sb s'.disk (update N i n) ∅) (hfull : Full s'.disk n) (hfits : n.Fits) :
    Mid s' (update N i n) (insert i D) := by
  have hn : n.type ≠ 0 := e.type ▸ hi.2
  have hother : ∀ m, m ≠ i → Alloc s.sb (update N i n) m → Alloc s.sb N m := fun m _ =>
    (alloc_update hi hn m).mp
  refine ⟨?_, ?_, ?_, ?_, ?_, ?_, ?_⟩
  · rw [e.sb]
    exact h.sb
  · rw [e.sb]
    exact howned
  · rw [e.sb]
    intro m hm
    by_cases hmi : m = i
    · rw [hmi, update_self]
      exact hfull
    · rw [update_of_ne hmi]
      have ha := hother m hmi hm
      exact ⟨(h.full m ha).size, fun j hj => by rw [e.slot_other hmi ha]; exact (h.full m ha).block j hj⟩
  · intro m
    by_cases hmi : m = i
    · rw [hmi, update_self]
      exact hfits
    · rw [update_of_ne hmi]
      exact h.fits m
  · rw [e.sb]
    intro m hm hmD
    rw [Set.mem_insert_iff, not_or] at hmD
    rw [update_of_ne hmD.1, e.dinode h.sb hm]
    exact h.disk m hm hmD.2
  · rw [e.sb, e.itable]
    exact h.table.change hc.ref hc.inum
  · rw [e.sb, e.home]
    intro b hb hne
    cases e.logged b hb with
    | inl hsame =>
        have hold := h.loose b (fun hb' => hb (e.lh b hb')) (hsame ▸ hne)
        refine ⟨hold.1, fun m j hm hs => ?_⟩
        by_cases hmi : m = i
        · subst hmi
          rw [update_self] at hs ⊢
          have hb0 : slot s'.disk n j ≠ 0 := by
            have := h.sb.nmeta_pos
            have := hold.1
            omega
          cases e.fresh j hb0 with
          | inl hj => exact e.type ▸ hold.2 m j hi (hj ▸ hs)
          | inr hj => exact absurd (hs ▸ hj) hb
        · have ha := hother m hmi hm
          rw [update_of_ne hmi] at hs ⊢
          exact hold.2 m j ha (e.slot_other hmi ha j ▸ hs)
    | inr htorn =>
        obtain ⟨ht, hb0, j0, hj0, hs0⟩ := htorn
        have hi' : Alloc s.sb (update N i n) i := (alloc_update hi hn i).mpr hi
        have hself : slot s'.disk (update N i n i) j0 = b := by rw [update_self]; exact hs0
        refine ⟨hself ▸ (slot_range howned hi' (hself ▸ hb0)).1, fun m j hm hs => ?_⟩
        obtain ⟨rfl, rfl⟩ := slot_inj howned hm hi' (hs ▸ hb0) (hs.trans hself.symm)
        rw [update_self, e.type]
        exact ⟨hj0, ht⟩

end changes

end Xv6Cow.Fs

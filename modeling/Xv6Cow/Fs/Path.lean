import Xv6Cow.Fs.Dir

/-! # Paths

`resolve` follows a path in the tree; it names inodes, and `namex` returns entries of the inode
table that hold them.  `namex` takes a reference to each inode on its way and drops it again, and
none of these is the last one, so the tree does not change.  It stops only if the inode table is
full, or at an inode that is named by an entry of a directory and not allocated. -/

namespace Xv6Cow.Fs

open Log (Block Disk)

abbrev Tree := ℕ → Option Node

variable {s s' t : FsState} {T T' : Tree} {F : Set ℕ} {lent bal : ℕ → ℤ}
  {d e i j k m p fuel fuel' : ℕ} {parent : Bool} {path path' name name' : List UInt8}

/-! ### Elements of a path -/

theorem skipelem_length (h : skipelem path = some (path', name)) : path'.length < path.length := by
  unfold skipelem at h
  cases hd : path.dropWhile (· = SLASH) with
  | nil =>
      rw [hd] at h
      exact absurd h (by simp)
  | cons c rest =>
      have hc : c ≠ SLASH := by
        have := List.head_dropWhile_not (fun x : UInt8 => decide (x = SLASH))
          (l := path) (by rw [hd]; exact List.cons_ne_nil _ _)
        simpa [hd] using this
      have hlen : (c :: rest).length ≤ path.length := by
        rw [← hd]
        exact (List.dropWhile_suffix _).length_le
      rw [hd] at h
      simp only [Option.some.injEq, Prod.mk.injEq] at h
      have hrest : ((c :: rest).dropWhile (· ≠ SLASH)).length ≤ rest.length := by
        rw [List.dropWhile_cons_of_pos (by simpa using hc)]
        exact (List.dropWhile_suffix _).length_le
      have hlast : path'.length ≤ ((c :: rest).dropWhile (· ≠ SLASH)).length := by
        rw [← h.1]
        exact (List.dropWhile_suffix _).length_le
      rw [List.length_cons] at hlen
      omega

/-! ### Resolving a path in the tree -/

/-- `namex` on the tree, from inode `i`. -/
def resolve (T : Tree) (parent : Bool) : (fuel i : ℕ) → (path name : List UInt8) →
    Option (ℕ × List UInt8)
  | 0, _, _, _ => none
  | fuel + 1, i, path, name =>
      match skipelem path with
      | none => if parent then none else some (i, name)
      | some (path, name) =>
          match T i with
          | none => none
          | some x =>
              if x.type ≠ T_DIR then none
              else if parent ∧ path = [] then some (i, name)
              else
                match findEntry x.data name with
                | none => none
                | some e => resolve T parent fuel (entryInum x.data e) path name

/-- The inode of the current directory of process `p`. -/
def FsState.cwdInum (s : FsState) (p : ℕ) : ℕ := (s.itable (s.procs p).cwd).inum

/-- Where the path of a call of process `p` starts. -/
def FsState.start (s : FsState) (p : ℕ) (path : List UInt8) : ℕ :=
  if path.head? = some SLASH then ROOTINO else s.cwdInum p

/-- The inode that a path of process `p` leads to, or its directory with the last element. -/
def FsState.walk (s : FsState) (p : ℕ) (path : List UInt8) (parent : Bool) : Option (ℕ × List UInt8) :=
  resolve s.tree parent (path.length + 1) (s.start p path) path []

/-- A directory `d` of the tree has entry `e` in use for inode `i`. -/
structure Names (T : Tree) (d e i : ℕ) (x : Node) : Prop where
  node : T d = some x
  dir : x.type = T_DIR
  lt : e < entries x.data
  inum : entryInum x.data e = i
  pos : i ≠ 0

/-- The inodes that a path can come to. -/
def Named (s : FsState) (i : ℕ) : Prop :=
  i = ROOTINO ∨ (∃ p < NPROC, (s.procs p).used = true ∧ s.cwdInum p = i) ∨ ∃ d e x, Names s.tree d e i x

/-- A path can come to an inode that is not allocated. -/
def Dangling (s : FsState) : Prop := ∃ i, Named s i ∧ s.tree i = none

/-! ### `namex` -/

theorem Names.named {x : Node} (h : Names s.tree d e i x) : Named s i := Or.inr (Or.inr ⟨d, e, x, h⟩)

theorem names_of_find {x : Node} (hx : T d = some x) (ht : x.type = T_DIR)
    (h : findEntry x.data name = some e) : Names T d e (entryInum x.data e) x :=
  ⟨hx, ht, (findEntry_some h).1, rfl, (findEntry_some h).2.1⟩

/-- The ways in which a path can lead to a panic. -/
def PathPanic (s : FsState) (e : Panic) : Prop := e = .iget ∨ (e = .ilockNoType ∧ Dangling s)

/-- All entries of the inode table are in use, but for at most one. -/
def Scarce (s : FsState) : Prop := ∃ k, ∀ l < NINODE, l ≠ k → 0 < (s.itable l).ref

/-- References that are held outside the table of files and directories, as the counts show them. -/
theorem Inv.ref_sub {lent' : ℕ → ℤ} (h : Inv s lent bal F) (h' : Inv t lent' bal F) (hf : Frame s t)
    (l : ℕ) : ((t.itable l).ref : ℤ) = (s.itable l).ref + (lent' l - lent l) := by
  rw [h.ref_eq, h'.ref_eq, hf.cwds, hf.opens]
  ring

/-- What `namex` returns: a reference to the inode that the path leads to. -/
structure Reached (s s' : FsState) (lent bal : ℕ → ℤ) (F : Set ℕ) (parent : Bool) (k j : ℕ) : Prop where
  inv : Inv s' (lent + Pi.single k 1) bal F
  goes : To s s' s.tree
  refers : Refers s' k j
  named : Named s j
  locked : parent = true → Cached s' k j

theorem namexFrom_spec (h : Inv s lent bal F) (hop : 0 < s.outstanding) (hlent : ∀ l, 0 ≤ lent l)
    (hF : ∀ i ∈ F, ∃ l, Refers s l i) :
    ∀ (fuel : ℕ) (t : FsState) (ip i : ℕ) (path name : List UInt8), path.length < fuel →
      Inv t (lent + Pi.single ip 1) bal F → To s t s.tree → Refers t ip i → Named s i →
    wp (namexFrom parent fuel ip path name) (fun r s' => match r with
      | none => Inv s' lent bal F ∧ To s s' s.tree ∧ resolve s.tree parent fuel i path name = none
      | some (k, name') => ∃ j, resolve s.tree parent fuel i path name = some (j, name') ∧
          Reached s s' lent bal F parent k j) (fun e => PathPanic s e ∧ (e = .iget → Scarce s)) t := by
  intro fuel
  induction fuel with
  | zero => exact fun _ _ _ _ _ hfuel => absurd hfuel (Nat.not_lt_zero _)
  | succ fuel ih =>
      intro t ip i path name hfuel hinv hto hr hnamed
      rw [namexFrom, resolve]
      cases hs : skipelem path with
      | none =>
          cases parent with
          | true =>
              simp only [if_true, wp_bind, wp_pure]
              apply wp_post (iput_temp h hinv hto hr hop hlent (fun _ => le_rfl) hF)
              intro _ s' hs'
              exact ⟨hs'.1, hs'.2.1, trivial⟩
          | false =>
              simp only [Bool.false_eq_true, if_false, wp_pure]
              exact ⟨i, rfl, hinv, hto, hr, hnamed, fun hp => absurd hp (by decide)⟩
      | some r =>
          obtain ⟨path', name'⟩ := r
          have hlen := skipelem_length hs
          simp only [getInode, wp_bind, wp_get, wp_pure]
          apply wp_mono (ilock_spec hinv hr)
          · intro _ u hu
            obtain ⟨hinvu, htouch, hc⟩ := hu
            have htou := hto.trans htouch.goes
            rw [hto.tree] at htou
            have ha := hinvu.alloc hc
            have hx : s.tree i = some (u.node i) := by rw [← htou.tree, tree_of_alloc ha]
            have htype : (u.itable ip).din.type = (u.node i).type := by
              rw [hinvu.din hc]
              rfl
            rw [hx, htype]
            simp only
            rw [wp_ite]
            refine ⟨fun hnd => ?_, fun hd => ?_⟩
            · simp only [wp_bind, wp_pure]
              rw [if_pos hnd]
              apply wp_post (iput_temp h hinvu htou hc.refers hop hlent (fun _ => le_rfl) hF)
              intro _ s' hs'
              exact ⟨hs'.1, hs'.2.1, rfl⟩
            rw [if_neg hd, wp_ite]
            refine ⟨fun hlast => ?_, fun hlast => ?_⟩
            · rw [if_pos hlast, wp_pure]
              exact ⟨i, rfl, hinvu, htou, hc.refers, hnamed, fun _ => hc⟩
            rw [if_neg hlast, wp_bind]
            have hscarce : Crowded u → Scarce s := fun hfull => ⟨ip, fun l hl hne => by
              have hl := hfull l hl
              have := h.ref_sub hinvu htou.frame l
              rw [Pi.add_apply, Pi.single_eq_of_ne hne] at this
              omega⟩
            apply wp_mono (dirlookup_spec hinvu hc (not_not.mp hd) name') _
              (fun _ he => ⟨Or.inl he.1, fun _ => hscarce he.2⟩)
            intro r v hv
            cases r with
            | none =>
                obtain ⟨rfl, hnone⟩ := hv
                simp only [wp_bind, wp_pure, hnone]
                apply wp_post (iput_temp h hinvu htou hc.refers hop hlent (fun _ => le_rfl) hF)
                intro _ s' hs'
                exact ⟨hs'.1, hs'.2.1, trivial⟩
            | some r =>
                obtain ⟨next, off⟩ := r
                obtain ⟨e, hfind, _, hinvv, htov, hrv⟩ := hv
                have htov' := htou.trans htov
                rw [htou.tree] at htov'
                rw [add_right_comm] at hinvv
                simp only [wp_bind, hfind]
                apply wp_post (iput_temp h hinvv htov' (htov.stays.refers hc.refers) hop hlent
                  (le_add_single lent next) hF)
                intro _ w hw
                exact ih w next _ path' name' (by omega) hw.1 hw.2.1 
                  (hw.2.2.refers (one_le_add_single (hlent next)) hrv)
                  (names_of_find hx (not_not.mp hd) hfind).named
          · intro e he
            exact ⟨Or.inr ⟨he.1, i, hnamed, by rw [← hto.tree]; exact he.2⟩,
              fun h0 => absurd (h0.symm.trans he.1) (by decide)⟩

theorem Inv.cwd_refers (h : Inv s lent bal F) (hlent : ∀ l, 0 ≤ lent l) (hp : p < NPROC)
    (hu : (s.procs p).used = true) : Refers s (s.procs p).cwd (s.cwdInum p) := by
  have h1 : 1 ≤ cwds s (s.procs p).cwd :=
    one_le_tally (f := fun p => (s.procs p).dir) (Finset.mem_range.mpr hp) (if_pos hu)
  have h2 := h.ref_eq (s.procs p).cwd
  have h3 := opens_nonneg s (s.procs p).cwd
  have h4 := hlent (s.procs p).cwd
  exact ⟨by omega, rfl⟩

/-- **`namex`** follows the path in the tree. -/
theorem namex_spec (h : Inv s lent bal F) (hop : 0 < s.outstanding) (hlent : ∀ l, 0 ≤ lent l)
    (hF : ∀ i ∈ F, ∃ l, Refers s l i) (hp : p < NPROC) (hu : (s.procs p).used = true)
    (path : List UInt8) (parent : Bool) : wp (namex p path parent) (fun r s' => match r with
      | none => Inv s' lent bal F ∧ To s s' s.tree ∧ s.walk p path parent = none
      | some (k, name) =>
          ∃ j, s.walk p path parent = some (j, name) ∧ Reached s s' lent bal F parent k j)
      (fun e => PathPanic s e ∧ (e = .iget → Scarce s)) s := by
  unfold namex FsState.walk FsState.start
  simp only [wp_bind, wp_get]
  by_cases hslash : path.head? = some SLASH
  · rw [if_pos hslash, if_pos hslash]
    have hroot := h.mid.sb.root
    apply wp_mono (iget_spec h ⟨by decide, hroot⟩) _
      (fun _ he => ⟨Or.inl he.1, fun _ => ⟨0, fun l hl _ => he.2 l hl⟩⟩)
    intro ip t ht
    exact namexFrom_spec h hop hlent hF _ t ip ROOTINO path [] (Nat.lt_succ_self _) ht.1 ht.2.1.goes
      ht.2.2 (Or.inl rfl)
  · rw [if_neg hslash, if_neg hslash]
    apply wp_post (idup_spec h (h.cwd_refers hlent hp hu))
    intro ip t ht
    obtain ⟨rfl, hinv, htouch, hr⟩ := ht
    exact namexFrom_spec h hop hlent hF _ t _ _ path [] (Nat.lt_succ_self _) hinv htouch.goes hr
      (Or.inr (Or.inl ⟨p, hp, hu, rfl⟩))

end Xv6Cow.Fs

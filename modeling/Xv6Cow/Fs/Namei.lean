import Xv6Cow.Fs.ByteArray
import Xv6Cow.Fs.Files
import Xv6Cow.Fs.Locks

/-! # What a path means

The elements of a path are what stands between its slashes, and a path leads to the inode that is
reached by looking up one element after the other.  `path_resolution` says this of `namei` and
`nameiparent`, with the references and the locks that they leave. -/

namespace Xv6Cow.Fs

variable {s t : FsState} {T : Tree} {F : Set ℕ} {lent bal : ℕ → ℤ} {i p : ℕ} {c : UInt8}
  {path path' name w rest : List UInt8} {names : List (List UInt8)}

/-- The elements of a path, cut to `DIRSIZ` bytes. -/
def components (path : List UInt8) : List (List UInt8) :=
  ((path.splitOn SLASH).filter (· ≠ [])).map (·.take DIRSIZ)

/-- The inode that is reached from inode `i` by looking up the names. -/
def lookups (T : Tree) : (i : ℕ) → (names : List (List UInt8)) → Option ℕ
  | i, [] => some i
  | i, name :: names => do
      let x ← T i
      if x.type ≠ T_DIR then none
      else do
        let e ← findEntry x.data name
        lookups T (entryInum x.data e) names

/-- The directory that is reached by all names but the last, with the last. -/
def lookupParent (T : Tree) (i : ℕ) (names : List (List UInt8)) : Option (ℕ × List UInt8) := do
  let name ← names.getLast?
  let j ← lookups T i names.dropLast
  let x ← T j
  if x.type ≠ T_DIR then none else some (j, name)

/-! ### The elements one by one -/

theorem components_nil : components [] = [] := rfl

theorem components_slash : components (SLASH :: path) = components path := by
  have hsplit := List.splitOn_append_cons_self_of_not_mem (a := SLASH) List.not_mem_nil path
  unfold components
  rw [← List.nil_append (SLASH :: path), hsplit, List.filter_cons_of_neg (by simp)]

theorem components_dropWhile (path : List UInt8) : components (path.dropWhile (· = SLASH)) =
    components path := by
  induction path with
  | nil => rfl
  | cons c path ih =>
      by_cases hc : c = SLASH
      · rw [List.dropWhile_cons_of_pos (by simpa using hc), ih, hc, components_slash]
      · rw [List.dropWhile_cons_of_neg (by simpa using hc)]

theorem components_cons (hc : c ≠ SLASH) (path : List UInt8) : components (c :: path) =
    ((c :: path).takeWhile (· ≠ SLASH)).take DIRSIZ :: components
      ((c :: path).dropWhile (· ≠ SLASH)) := by
  have hw : (c :: path).takeWhile (· ≠ SLASH) ≠ [] := by
    rw [List.takeWhile_cons_of_pos (by simpa using hc)]
    exact List.cons_ne_nil _ _
  have hno : SLASH ∉ (c :: path).takeWhile (· ≠ SLASH) :=
    fun hx => by simpa using List.mem_takeWhile_imp hx
  have hsplit := List.takeWhile_append_dropWhile (p := (· ≠ SLASH)) (l := c :: path)
  have hrest := List.head?_dropWhile_not (· ≠ SLASH) (c :: path)
  generalize (c :: path).takeWhile (· ≠ SLASH) = w at *
  generalize (c :: path).dropWhile (· ≠ SLASH) = rest at *
  rw [← hsplit]
  cases rest with
  | nil =>
      unfold components
      rw [List.append_nil, List.splitOn_eq_singleton hno, List.filter_cons_of_pos (by simpa using hw)]
      rfl
  | cons x rest =>
      have hx : x = SLASH := by simpa using hrest
      subst hx
      rw [components_slash]
      unfold components
      rw [List.splitOn_append_cons_self_of_not_mem hno, List.filter_cons_of_pos (by simpa using hw),
        List.map_cons]

theorem skipelem_spec : match skipelem path with
    | none => components path = []
    | some (path', name) =>
        components path = name :: components path' ∧ (path' = [] ↔ components path' = []) := by
  have hfirst : ∀ l : List UInt8, l.dropWhile (· = SLASH) = [] ↔
      components (l.dropWhile (· = SLASH)) = [] := by
    intro l
    cases hl : l.dropWhile (· = SLASH) with
    | nil => simp [components_nil]
    | cons c rest =>
        have hc := List.head?_dropWhile_not (fun x : UInt8 => decide (x = SLASH)) l
        rw [hl] at hc
        simp [components_cons (show c ≠ SLASH by simpa using hc)]
  unfold skipelem
  rw [← components_dropWhile path]
  cases hd : path.dropWhile (· = SLASH) with
  | nil => rfl
  | cons c rest =>
      have hc := List.head?_dropWhile_not (fun x : UInt8 => decide (x = SLASH)) path
      rw [hd] at hc
      simp only
      rw [components_dropWhile, components_cons (show c ≠ SLASH by simpa using hc)]
      refine ⟨rfl, ?_⟩
      rw [hfirst, components_dropWhile]

theorem lookupParent_cons : lookupParent T i (name :: names) = (T i).bind fun x =>
    if x.type ≠ T_DIR then none
    else if names = [] then some (i, name)
    else (findEntry x.data name).bind fun e => lookupParent T (entryInum x.data e) names := by
  unfold lookupParent
  cases names with
  | nil => simp [lookups]
  | cons a names =>
      rw [List.getLast?_cons_cons, List.dropLast_cons_cons]
      cases hl : (a :: names).getLast? with
      | none => simp at hl
      | some b =>
          cases hx : T i with
          | none => simp [lookups, hx]
          | some x =>
              by_cases hd : x.type = T_DIR
              · cases he : findEntry x.data name <;> simp [lookups, hx, hd, he]
              · simp [lookups, hx, hd]

/-- `namex` on the tree looks up the elements. -/
theorem resolve_eq : ∀ (fuel i : ℕ) (path name : List UInt8), path.length < fuel →
    (resolve T false fuel i path name).map Prod.fst = lookups T i (components path) ∧
    resolve T true fuel i path name = lookupParent T i (components path) := by
  intro fuel
  induction fuel with
  | zero => exact fun _ _ _ h => absurd h (Nat.not_lt_zero _)
  | succ fuel ih =>
      intro i path name hfuel
      have hspec := @skipelem_spec path
      rw [resolve, resolve]
      cases hs : skipelem path with
      | none =>
          rw [hs] at hspec
          simp [show components path = [] from hspec, lookups, lookupParent]
      | some r =>
          obtain ⟨path', name'⟩ := r
          have hlen := skipelem_length hs
          rw [hs] at hspec
          obtain ⟨hcomp, hnil⟩ := hspec
          rw [hcomp, lookupParent_cons, lookups]
          cases hx : T i with
          | none => simp
          | some x =>
              by_cases hd : x.type = T_DIR
              · cases he : findEntry x.data name' with
                | none => simp [hd, he, hnil]
                | some e =>
                    have := ih (entryInum x.data e) path' name' (by omega)
                    simp [hd, he, hnil, this.1, this.2]
              · simp [hd]

/-! ### `namei` and `nameiparent` -/

/-- The references after a call: one more to entry `k`, and the others as they were. -/
def OneMore (s t : FsState) (k : Option ℕ) : Prop :=
  ∀ l, (t.itable l).ref = (s.itable l).ref + if k = some l then 1 else 0

theorem Reached.oneMore {k j : ℕ} {parent : Bool} (h : Inv s lent bal F)
    (hr : Reached s t lent bal F parent k j) : OneMore s t (some k) := by
  intro l
  have := h.ref_sub hr.inv hr.goes.frame l
  rw [Pi.add_apply, Pi.single_apply] at this
  simp only [Option.some.injEq]
  split_ifs at this ⊢ <;> omega

theorem To.noneMore {T : Tree} (h : Inv s lent bal F) (ht : Inv t lent bal F) (hto : To s t T) :
    OneMore s t none := by
  intro l
  have := h.ref_sub ht hto.frame l
  simp only [reduceCtorEq, if_false]
  omega

theorem tally_none {ι κ : Type} [DecidableEq κ] (S : Finset ι) :
    tally S (fun _ => (none : Option κ)) = 0 := by
  unfold tally
  simp only [ofRef_none, Finset.sum_const_zero]

theorem sampleFs_node : (sampleFs 1).node 1 = nodeOf sampleDisk rootDir := by
  rw [FsState.node, sampleFs_dinode (by decide)]
  rfl

theorem rootDir_data : (nodeOf sampleDisk rootDir).data = rootEntries := by decide

/-- A call that holds the reference to the root of `sampleFs`. -/
theorem sampleFs_inv : Inv (sampleFs 1) (Pi.single 0 1) 0 ∅ := by
  have hcwds : cwds (sampleFs 1) = 0 := tally_none _
  have hopens : opens (sampleFs 1) = 0 := tally_none _
  have hfds : fds (sampleFs 1) = 0 := tally_none _
  refine ⟨sampleFs_mid (Or.inl rfl), fun k hk _ => ?_, ?_, fun k => ?_, ?_,
    ⟨fun f hf => ?_, fun _ _ => rfl, fun f hf => ?_, fun f hf => ?_⟩, fun i hi ht => ?_,
    fun i hi h0 => ?_⟩
  · rcases eq_or_ne k 0 with rfl | hne
    · change ((sampleFs 1).dinode 1).type ≠ 0
      rw [sampleFs_dinode (by decide)]
      decide
    · have hzero : (sampleFs 1).itable k = {} := if_neg hne
      rw [hzero] at hk
      exact absurd hk (by decide)
  · rw [hcwds, hopens, zero_add, zero_add]
    funext k
    rcases eq_or_ne k 0 with rfl | hne
    · rw [Pi.single_eq_same]
      rfl
    · have hzero : (sampleFs 1).itable k = {} := if_neg hne
      rw [Pi.single_eq_of_ne hne, hzero]
      rfl
  · rw [hcwds]
    simp only [Pi.zero_apply, Pi.single_apply]
    split_ifs <;> omega
  · rw [hfds, add_zero]
    rfl
  · exact absurd hf (Nat.lt_irrefl 0)
  · exact absurd rfl hf
  · exact absurd hf (show FileType.none ≠ .inode by decide)
  · rcases sampleFs_alloc.mp hi with rfl | rfl
    · rw [sampleFs_node, rootDir_data]
      exact ⟨by decide, by decide⟩
    · rw [sampleFs_dinode (by decide)] at ht
      exact absurd ht (by decide)
  · rw [sampleFs_dinode hi.1] at h0
    rcases sampleFs_alloc.mp hi with rfl | rfl
    · exact absurd h0 (by decide)
    · exact absurd h0 (by decide)

/-- The first process has the root as its current directory. -/
def rootFs : FsState := (sampleFs 1).setProc 0 { used := true, cwd := 0 }

theorem rootFs_good : Good rootFs := by
  refine ⟨sampleFs_inv.setProc (by decide) ?_ (fun _ _ => rfl) (fun k hk _ => ?_), fun p hp fd => ?_⟩
  · simp only [show ((sampleFs 1).procs 0).dir = none from rfl, ofRef_none, add_zero,
      show ({ used := true, cwd := 0 } : FsProc).dir = some 0 from rfl, ofRef_some, sub_self]
  · rw [Pi.zero_apply]
    omega
  · unfold rootFs at hp ⊢
    rcases eq_or_ne p 0 with rfl | hne
    · rw [setProc_self] at hp
      exact absurd hp (by decide)
    · rw [setProc_ne hne]
      rfl

theorem rootFs_used : (rootFs.procs 0).used = true := by
  rw [rootFs, setProc_self]

theorem rootFs_tree {i : ℕ} (hi : i = 1 ∨ i = 2) : rootFs.tree i = some ((sampleFs 1).node i) :=
  tree_of_alloc (s := sampleFs 1) (sampleFs_alloc.mpr hi)

theorem rootFs_not_dangling : ¬ Dangling rootFs := by
  rintro ⟨i, hi, hnone⟩
  suffices i = 1 ∨ i = 2 from absurd ((rootFs_tree this).symm.trans hnone) (by simp)
  rcases hi with hi | ⟨p, -, hu, hi⟩ | ⟨d, e, x, hx⟩
  · exact Or.inl hi
  · rcases eq_or_ne p 0 with rfl | hne
    · exact Or.inl hi.symm
    · rw [rootFs, setProc_ne hne] at hu
      exact absurd hu Bool.false_ne_true
  · obtain ⟨ha, rfl⟩ := tree_eq_some.mp hx.node
    have hd : d = 1 := ((sampleFs_alloc (n := 1)).mp ha).resolve_right fun h2 => by
      have hdir := hx.dir
      subst h2
      change ((sampleFs 1).dinode 2).type = T_DIR at hdir
      rw [sampleFs_dinode (by decide)] at hdir
      exact absurd hdir (by decide)
    subst hd
    have hall : ∀ e < entries rootEntries, entryInum rootEntries e = 1 ∨ entryInum rootEntries e =
      2 := by decide
    have hdata : (rootFs.node 1).data = rootEntries :=
      (congrArg Node.data sampleFs_node).trans rootDir_data
    have hlt := hx.lt
    have hinum := hx.inum
    rw [hdata] at hlt hinum
    exact hinum ▸ hall e hlt

end Xv6Cow.Fs

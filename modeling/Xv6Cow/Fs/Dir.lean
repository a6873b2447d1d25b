import Xv6Cow.Fs.Content

/-! # Directories

A directory is read as its list of entries, and `findEntry` is what the loop of `dirlookup` looks
for. -/

namespace Xv6Cow.Fs

open Log (Block Disk)

variable {s s' t u : FsState} {F : Set ℕ} {lent lent' bal : ℕ → ℤ} {d e i j k m x off tot inum : ℕ}
    {data data' name : List UInt8}

/-! ### Entries -/

/-- The first entry in use with the given name. -/
def findEntry (data name : List UInt8) : Option ℕ :=
  (List.range (entries data)).find? (fun e => entryInum data e ≠ 0 ∧ entryName data e = cstr DIRSIZ name)

theorem findEntry_some (h : findEntry data name = some e) :
    e < entries data ∧ entryInum data e ≠ 0 ∧ entryName data e = cstr DIRSIZ name := by
  have hp := List.find?_some h
  rw [decide_eq_true_eq] at hp
  exact ⟨List.mem_range.mp (List.mem_of_find?_eq_some h), hp⟩

/-! ### Reading a directory -/

theorem direntCount_eq (h : (s.node d).data.length % DIRENT_SIZE = 0) :
    direntCount (s.dinode d).size = entries (s.node d).data := by
  have hlen : (s.node d).data.length = (s.dinode d).size := length_data _ _
  rw [hlen] at h
  unfold direntCount entries
  rw [hlen]
  unfold DIRENT_SIZE at *
  omega

theorem readDirent_run (h : Inv s lent bal F) (hc : Cached s k d) (he : e < entries (s.node d).data)
    (err : Panic) : readDirent k (DIRENT_SIZE * e) err s = .ok (entry (s.node d).data e, s) := by
  obtain ⟨r, bs, hrun, hres⟩ := readi_run h hc (DIRENT_SIZE * e) DIRENT_SIZE DIRENT_SIZE (by decide)
  have hin : DIRENT_SIZE * e + DIRENT_SIZE ≤ (s.node d).data.length := by
    unfold entries DIRENT_SIZE at *
    omega
  obtain ⟨rfl, rfl⟩ := hres hin le_rfl
  simp only [readDirent, bind, StateT.bind, Except.bind, hrun, ne_eq, not_true_eq_false, if_false]
  rfl

theorem scan_run {α : Type} {f : (m off : ℕ) → FsM α} {p : ℕ → Bool} {g : ℕ → FsM α} (n : ℕ)
    (hf : ∀ m e, e < n → f (m + 1) (DIRENT_SIZE * e) s =
      (if p e then g e else f m (DIRENT_SIZE * (e + 1))) s) :
    ∀ m e, e + m ≤ n → f m (DIRENT_SIZE * e) s =
      (match (List.range' e m).find? p with
        | none => f 0 (DIRENT_SIZE * (e + m))
        | some x => g x) s := by
  intro m
  induction m with
  | zero =>
      intro e _
      rfl
  | succ m ih =>
      intro e hle
      rw [hf m e (by omega), List.range'_succ, List.find?_cons]
      cases p e with
      | true => rfl
      | false =>
          have hnext := ih (e + 1) (by omega)
          rw [Nat.add_assoc, Nat.add_comm 1 m] at hnext
          exact hnext

section
variable (h : Inv s lent bal F) (hc : Cached s k d)
include h hc

theorem dirlookupFrom_run (name : List UInt8) : ∀ m e,
    e + m ≤ entries (s.node d).data → dirlookupFrom k name m (DIRENT_SIZE * e) s =
      (match (List.range' e m).find? (fun x => entryInum (s.node d).data x ≠ 0 ∧
          entryName (s.node d).data x = cstr DIRSIZ name) with
        | none => pure none
        | some x => do
            let ip ← iget (entryInum (s.node d).data x)
            pure (some (ip, DIRENT_SIZE * x)) : FsM (Option (ℕ × ℕ))) s := by
  refine scan_run _ fun m e he => ?_
  have hname : nameEq name (direntName (entry (s.node d).data e)) =
      decide (entryName (s.node d).data e = cstr DIRSIZ name) := decide_eq_decide.mpr eq_comm
  have hinum : direntInum (entry (s.node d).data e) = entryInum (s.node d).data e := rfl
  simp only [dirlookupFrom, bind, StateT.bind, Except.bind, readDirent_run h hc he, hname, hinum,
    decide_eq_true_eq, ne_eq]
  by_cases h0 : entryInum (s.node d).data e = 0
  · rw [if_pos h0, if_neg fun hb => hb.1 h0]
    rfl
  · by_cases hn : entryName (s.node d).data e = cstr DIRSIZ name
    · rw [if_neg h0, if_pos hn, if_pos ⟨h0, hn⟩]
    · rw [if_neg h0, if_neg hn, if_neg fun hb => hn hb.2]
      rfl

/-- **`dirlookup`** -/
theorem dirlookup_spec (ht : (s.dinode d).type = T_DIR) (name : List UInt8) :
    wp (dirlookup k name) (fun r s' => match r with
      | none => s' = s ∧ findEntry (s.node d).data name = none
      | some (ip, off) => ∃ e, findEntry (s.node d).data name = some e ∧ off = DIRENT_SIZE * e ∧
          Inv s' (lent + Pi.single ip 1) bal F ∧ To s s' s.tree ∧
          Refers s' ip (entryInum (s.node d).data e))
      (fun e => e = .iget ∧ Crowded s) s := by
  have hok := h.dirs d (h.alloc hc) ht
  unfold dirlookup getInode
  simp only [wp_bind, wp_get, wp_pure, h.din hc]
  rw [if_neg (not_not.mpr ht), direntCount_eq hok.whole]
  have hrun := dirlookupFrom_run h hc name (entries (s.node d).data) 0 (by omega)
  rw [Nat.mul_zero, ← List.range_eq_range'] at hrun
  change dirlookupFrom k name (entries (s.node d).data) 0 s = (match findEntry (s.node d).data name with
    | none => pure none
    | some x => _ : FsM (Option (ℕ × ℕ))) s at hrun
  rw [wp_congr hrun]
  cases hf : findEntry (s.node d).data name with
  | none => exact wp_pure.mpr ⟨rfl, rfl⟩
  | some e =>
      have hfe := findEntry_some hf
      simp only [wp_bind, wp_pure]
      apply wp_mono (iget_spec h ⟨by omega, hok.inum e hfe.1⟩) _ (fun _ he => he)
      intro ip s' hip
      exact ⟨e, rfl, rfl, hip.1, hip.2.1.goes, hip.2.2⟩

end

end Xv6Cow.Fs

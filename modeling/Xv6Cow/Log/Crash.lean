import Mathlib.Data.List.GetD
import Xv6Cow.Log.Model

/-! # Crash atomicity of the log

`recovered start d b` is what block `b` holds once `recover_from_log` has run on disk `d`
(`recoverFromLog_home`).  The invariant `Inv` says that this is always the state after the groups
whose header write reached the disk, `spec`, and adds for each control point what the next disk
write relies on: while the log blocks are being written the header on disk is empty, from the
header write on the log blocks hold the group, and the header is cleared only after every listed
block has been installed.

The only step that changes `spec` is the header write of `commit`; `Inv` is kept by every action
(`inv_step`), a crash included, hence holds in every reachable state (`inv_exec`). -/

namespace Xv6Cow.Log

open Runs
open Function (update update_self update_of_ne update_eq_self_iff)

/-! ### Groups and their effect -/

/-- The disk after the writes of one group. -/
def applyGroup (g : Group) (d : Disk) : Disk := g.foldl (fun d p => update d p.1 p.2) d

/-- The disk after a list of groups, each applied as a whole, in order. -/
def applyGroups (gs : List Group) (d : Disk) : Disk := gs.foldl (fun d g => applyGroup g d) d

theorem applyGroup_concat (g : Group) (b : ℕ) (v : Block) (d : Disk) :
    applyGroup (g ++ [(b, v)]) d = update (applyGroup g d) b v := by
  simp [applyGroup]

theorem applyGroups_concat (gs : List Group) (g : Group) (d : Disk) :
    applyGroups (gs ++ [g]) d = applyGroup g (applyGroups gs d) := by
  simp [applyGroups]

theorem applyGroup_of_not_mem {g : Group} {d : Disk} {b : ℕ} (h : b ∉ g.map Prod.fst) :
    applyGroup g d b = d b := by
  induction g using List.reverseRecOn with
  | nil => rfl
  | append_singleton g p ih =>
      simp only [List.map_append, List.map_cons, List.map_nil, List.mem_append, List.mem_singleton,
        not_or] at h
      rw [applyGroup_concat, update_of_ne h.2, ih h.1]

/-! ### What recovery leaves at the home locations -/

/-- A list of block numbers that a header may hold. -/
structure HeadOk (start size : ℕ) (lh : List ℕ) : Prop where
  nodup : lh.Nodup
  len_le : lh.length ≤ LOGSIZE
  len_le_size : lh.length ≤ size - 1
  home : ∀ b ∈ lh, (b < start ∨ start + size ≤ b) ∧ b < 2 ^ 32

theorem HeadOk.nil (start size : ℕ) : HeadOk start size [] :=
  ⟨List.nodup_nil, by simp, by simp, by simp⟩

/-- The contents of a home block after recovery. -/
def recovered (start : ℕ) (d : Disk) (b : ℕ) : Block :=
  if b ∈ decodeHead (d start) then d (start + (decodeHead (d start)).idxOf b + 1) else d b

theorem recovered_of_nil {start : ℕ} {d : Disk} (h : decodeHead (d start) = []) (b : ℕ) :
    recovered start d b = d b := by
  simp [recovered, h]

theorem installTrans_of_not_mem {start b : ℕ} : ∀ (bs : List ℕ) (tail : ℕ) (d : Disk), b ∉ bs →
    installTrans start bs tail d b = d b
  | [], _, _, _ => rfl
  | c :: bs, tail, d, h => by
      simp only [List.mem_cons, not_or] at h
      rw [installTrans, installTrans_of_not_mem bs _ _ h.2, update_of_ne h.1]

theorem installTrans_of_mem {start b : ℕ} : ∀ (bs : List ℕ) (tail : ℕ) (d : Disk), bs.Nodup →
    (∀ c ∈ bs, c ≤ start + tail ∨ start + tail + bs.length < c) → b ∈ bs →
    installTrans start bs tail d b = d (start + tail + bs.idxOf b + 1)
  | c :: bs, tail, d, hn, hd, hb => by
      rw [List.nodup_cons] at hn
      rw [installTrans]
      by_cases hbc : b = c
      · subst hbc
        rw [installTrans_of_not_mem bs _ _ hn.1, update_self, List.idxOf_cons_self]
      · have hbs : b ∈ bs := (List.mem_cons.mp hb).resolve_left hbc
        have hc := hd c (by simp)
        have hi : bs.idxOf b < bs.length := List.idxOf_lt_length_iff.mpr hbs
        simp only [List.length_cons] at hc hd
        rw [installTrans_of_mem bs (tail + 1) _ hn.2 ?_ hbs, List.idxOf_cons_ne _ (Ne.symm hbc),
          update_of_ne (by omega)]
        · congr 1
          omega
        · intro e he
          have := hd e (by simp [he])
          omega

theorem recoverFromLog_home {start size : ℕ} {d : Disk} (h : HeadOk start size (decodeHead (d start)))
    {b : ℕ} (hb : (b < start ∨ start + size ≤ b) ∧ b < 2 ^ 32) (hs : 0 < size) :
    recoverFromLog start d b = recovered start d b := by
  have hne : b ≠ start := by omega
  unfold recoverFromLog recovered
  rw [update_of_ne hne]
  split_ifs with hm
  · rw [installTrans_of_mem _ 0 d h.nodup ?_ hm]
    · simp
    · intro c hc
      have h1 := h.home c hc
      have h2 := h.len_le_size
      omega
  · exact installTrans_of_not_mem _ 0 d hm

theorem decodeHead_recoverFromLog (start : ℕ) (d : Disk) :
    decodeHead (recoverFromLog start d start) = [] := by
  unfold recoverFromLog
  simp only [update_self]
  exact decodeHead_encodeHead_nil _

theorem encodeHead_nil_idem (b : Block) : encodeHead (encodeHead b []) [] = encodeHead b [] := by
  funext x
  simp only [encodeHead, setBlocks, List.length_nil, Bytes.setLe]
  split_ifs <;> rfl

theorem recoverFromLog_of_nil {start : ℕ} {d : Disk} (h : decodeHead (d start) = []) :
    recoverFromLog start d = update d start (encodeHead (d start) []) := by
  unfold recoverFromLog
  rw [h]
  rfl

theorem recoverFromLog_idem (start : ℕ) (d : Disk) :
    recoverFromLog start (recoverFromLog start d) = recoverFromLog start d := by
  rw [recoverFromLog_of_nil (decodeHead_recoverFromLog start d)]
  apply update_eq_self_iff.mpr
  unfold recoverFromLog
  simp only [update_self]
  exact encodeHead_nil_idem _

/-! ### The invariant -/

/-- The home locations after the groups committed so far. -/
def spec (d₀ : Disk) (s : Sys) : Disk := applyGroups s.committed d₀

/-- A group that has not been committed: the header on disk is empty and the cache holds the
last version of every block of the group. -/
structure Open (d₀ : Disk) (s : Sys) : Prop where
  lh : HeadOk s.start s.size s.lh
  mem_iff : ∀ b, b ∈ s.lh ↔ b ∈ s.cur.map Prod.fst
  cached : ∀ b ∈ s.lh, s.cache b = some (applyGroup s.cur (spec d₀ s) b)
  empty : decodeHead (s.disk s.start) = []

/-- The first `n` log blocks hold the final versions `v` of the blocks listed in memory. -/
def LogHolds (s : Sys) (v : Disk) (n : ℕ) : Prop := ∀ i < n, s.disk (s.start + i + 1) = v (s.lh.getD i 0)

/-- The first `n` blocks listed in memory have been installed. -/
def Installed (d₀ : Disk) (s : Sys) (n : ℕ) : Prop :=
  ∀ i < n, s.disk (s.lh.getD i 0) = spec d₀ s (s.lh.getD i 0)

/-- The current group is the last of the committed ones, and has not been returned from. -/
def Last (s : Sys) : Prop := ∃ gs, s.committed = gs ++ [s.cur] ∧ s.returned.Sublist gs

/-- What holds at each control point. -/
def Phase (d₀ : Disk) (s : Sys) : Prop :=
  match s.pc with
  | .running => Open d₀ s ∧ s.committing = false
  | .writeLog tail => Open d₀ s ∧ s.committing = true ∧ tail < s.lh.length ∧
      LogHolds s (applyGroup s.cur (spec d₀ s)) tail
  | .writeHead => Open d₀ s ∧ s.committing = true ∧ 0 < s.lh.length ∧
      LogHolds s (applyGroup s.cur (spec d₀ s)) s.lh.length
  | .install tail => decodeHead (s.disk s.start) = s.lh ∧ s.committing = true ∧ Last s ∧
      tail < s.lh.length ∧ LogHolds s (spec d₀ s) s.lh.length ∧ Installed d₀ s tail
  | .clear => decodeHead (s.disk s.start) = s.lh ∧ s.committing = true ∧ Last s ∧
      Installed d₀ s s.lh.length
  | .finish => decodeHead (s.disk s.start) = [] ∧ s.committing = true ∧ s.lh = [] ∧ s.cur = []
  | .readHead => s.committing = false ∧ s.cur = [] ∧ s.ops = ∅
  | .recoverInstall tail => decodeHead (s.disk s.start) = s.lh ∧ s.committing = false ∧ s.cur = [] ∧
      s.ops = ∅ ∧ tail < s.lh.length ∧ LogHolds s (spec d₀ s) s.lh.length ∧ Installed d₀ s tail
  | .recoverClear => decodeHead (s.disk s.start) = s.lh ∧ s.committing = false ∧ s.cur = [] ∧
      s.ops = ∅ ∧ Installed d₀ s s.lh.length
  | .panicked _ => True

structure Inv (d₀ : Disk) (s : Sys) : Prop where
  size_pos : 0 < s.size
  headOk : HeadOk s.start s.size (decodeHead (s.disk s.start))
  recovered : ∀ b, s.Home b → recovered s.start s.disk b = spec d₀ s b
  returned : s.returned.Sublist s.committed
  count : s.outstanding = s.ops.card
  idle : s.committing = true → s.ops = ∅
  coherent : (∃ p, s.pc = .panicked p) ∨ ∀ b v, s.cache b = some v → b ∉ s.pinned → v = s.disk b
  phase : Phase d₀ s

/-! ### Disk writes -/

section writes
variable {start size : ℕ} {d : Disk} {b c : ℕ} {v : Block}

/-- While the header is empty a write outside the home location and the header is invisible. -/
theorem recovered_update_of_nil (h : decodeHead (d start) = []) (hc : c ≠ start) (hb : b ≠ c) :
    recovered start (update d c v) b = recovered start d b := by
  have h' : decodeHead (update d c v start) = [] := by
    rw [update_of_ne (Ne.symm hc)]; exact h
  rw [recovered_of_nil h', recovered_of_nil h, update_of_ne hb]

/-- Installing one listed block from its log block changes nothing that recovery leaves. -/
theorem recovered_install {tail : ℕ} (h : HeadOk start size (decodeHead (d start)))
    (ht : tail < (decodeHead (d start)).length) (hs : 0 < size) :
    recovered start (update d ((decodeHead (d start)).getD tail 0) (d (start + tail + 1))) b =
      recovered start d b := by
  have hget : (decodeHead (d start)).getD tail 0 = (decodeHead (d start))[tail] :=
    List.getD_eq_getElem _ _ ht
  have hmem : (decodeHead (d start))[tail] ∈ decodeHead (d start) := List.getElem_mem ht
  have hc := h.home _ hmem
  have hlen := h.len_le_size
  have hstart : start ≠ (decodeHead (d start))[tail] := by omega
  unfold recovered
  rw [hget, update_of_ne hstart]
  split_ifs with hm
  · have hi : (decodeHead (d start)).idxOf b < (decodeHead (d start)).length :=
      List.idxOf_lt_length_iff.mpr hm
    rw [update_of_ne (by omega)]
  · have hne : b ≠ (decodeHead (d start))[tail] := fun e => hm (e ▸ hmem)
    rw [update_of_ne hne]

theorem recovered_head {lh : List ℕ} {w : Disk} (hs : 0 < size)
    (hv : decodeHead v = lh) (hlog : ∀ i < lh.length, d (start + i + 1) = w (lh.getD i 0))
    (hb : (b < start ∨ start + size ≤ b) ∧ b < 2 ^ 32) (hout : b ∉ lh → d b = w b) :
    recovered start (update d start v) b = w b := by
  have hne : b ≠ start := by omega
  unfold recovered
  rw [update_self, hv]
  split_ifs with hm
  · have hi : lh.idxOf b < lh.length := List.idxOf_lt_length_iff.mpr hm
    rw [update_of_ne (by omega), hlog _ hi, List.getD_eq_getElem _ _ hi, List.getElem_idxOf hi]
  · rw [update_of_ne hne, hout hm]

/-- Clearing the header once everything is installed changes nothing that recovery leaves. -/
theorem recovered_clear {lh : List ℕ} {w : Disk} (hv : decodeHead v = []) (hs : 0 < size)
    (hd : decodeHead (d start) = lh) (hin : ∀ i < lh.length, d (lh.getD i 0) = w (lh.getD i 0))
    (hb : (b < start ∨ start + size ≤ b) ∧ b < 2 ^ 32) (hrec : recovered start d b = w b) :
    recovered start (update d start v) b = w b := by
  have hne : b ≠ start := by omega
  rw [recovered_of_nil (by rw [update_self]; exact hv), update_of_ne hne]
  by_cases hm : b ∈ lh
  · have hi := List.idxOf_lt_length_iff.mpr hm
    have := hin _ hi
    rwa [List.getD_eq_getElem _ _ hi, List.getElem_idxOf hi] at this
  · rw [← hrec]
    unfold recovered
    rw [hd, if_neg hm]

end writes

/-! ### Reading through the cache -/

theorem bread_of_coherent {s : Sys} {b : ℕ} (h : ∀ v, s.cache b = some v → v = s.disk b) :
    s.bread b = s.disk b := by
  unfold Sys.bread
  cases hc : s.cache b with
  | none => rfl
  | some v => exact h v hc

theorem bread_of_cached {s : Sys} {b : ℕ} {v : Block} (h : s.cache b = some v) : s.bread b = v := by
  unfold Sys.bread
  rw [h]
  rfl

theorem coherent_bwrite {s : Sys} {P R : List ℕ} {b : ℕ} {v : Block}
    (h : ∀ c w, s.cache c = some w → c ∉ P → w = s.disk c) (hP : ∀ c, c ∉ R → c ≠ b → c ∉ P) :
    ∀ c w, (s.bwrite b v).cache c = some w → c ∉ R → w = (s.bwrite b v).disk c := by
  intro c w hc hp
  by_cases hcb : c = b
  · subst hcb
    simp only [Sys.bwrite, update_self, Option.some.injEq] at hc ⊢
    exact hc.symm
  · simp only [Sys.bwrite, update_of_ne hcb] at hc ⊢
    exact h c w hc (hP c hp hcb)

/-! ### Every step keeps the invariant -/

section steps
variable {d₀ : Disk} {s t : Sys}

/-- The invariant outside a panic: buffers that are not pinned agree with the disk. -/
theorem Inv.agree (h : Inv d₀ s) (hp : ∀ p, s.pc ≠ .panicked p) {b : ℕ} {v : Block}
    (hc : s.cache b = some v) (hb : b ∉ s.pinned) : v = s.disk b := by
  rcases h.coherent with ⟨p, hpc⟩ | hcoh
  · exact absurd hpc (hp p)
  · exact hcoh b v hc hb

theorem getD_mem {l : List ℕ} {i : ℕ} (h : i < l.length) : l.getD i 0 ∈ l := by
  rw [List.getD_eq_getElem _ _ h]
  exact List.getElem_mem h

/-- Position `i` of a header is the log block `start + i + 1`, which is no home location. -/
theorem HeadOk.log_not_mem {start size : ℕ} {lh : List ℕ} (h : HeadOk start size lh) {i : ℕ}
    (hi : i < lh.length) : start + i + 1 ∉ lh := by
  intro hm
  have h1 := h.home _ hm
  have h2 := h.len_le_size
  omega

theorem HeadOk.start_not_mem {start size : ℕ} {lh : List ℕ} (h : HeadOk start size lh)
    (hs : 0 < size) : start ∉ lh := by
  intro hm
  have h1 := h.home _ hm
  omega

theorem Open.bwrite_log (h : Open d₀ s) {i : ℕ} (hi : i < s.lh.length) (v : Block) :
    Open d₀ (s.bwrite (s.start + i + 1) v) := by
  refine ⟨h.lh, h.mem_iff, ?_, ?_⟩
  · intro b hb
    have hne : b ≠ s.start + i + 1 := fun e => h.lh.log_not_mem hi (e ▸ hb)
    simp only [Sys.bwrite, update_of_ne hne]
    exact h.cached b hb
  · have hne : s.start ≠ s.start + i + 1 := by omega
    simp only [Sys.bwrite, update_of_ne hne]
    exact h.empty

/-- Writing log block `i` extends the part of the log that holds the group. -/
theorem LogHolds.bwrite {w : Disk} {i : ℕ} (h : LogHolds s w i) {v : Block}
    (hv : v = w (s.lh.getD i 0)) : LogHolds (s.bwrite (s.start + i + 1) v) w (i + 1) := by
  intro j hj
  rcases Nat.lt_succ_iff_lt_or_eq.mp hj with hlt | rfl
  · have hne : s.start + j + 1 ≠ s.start + i + 1 := by omega
    simp only [Sys.bwrite, update_of_ne hne]
    exact h j hlt
  · simp only [Sys.bwrite, update_self]
    exact hv

section
variable (hI : Inv d₀ s)
include hI

theorem inv_tick_writeLog {tail : ℕ} (hpc : s.pc = .writeLog tail)
    (h : s.tick = some t) : Inv d₀ t := by
  have hph := hI.phase
  simp only [Phase, hpc] at hph
  obtain ⟨hopen, hcomm, ht, hlog⟩ := hph
  have hsp := hI.size_pos
  have hlen := hopen.lh.len_le_size
  have hv : s.bread (s.lh.getD tail 0) = applyGroup s.cur (spec d₀ s) (s.lh.getD tail 0) :=
    bread_of_cached (hopen.cached _ (getD_mem ht))
  have hpin : s.pinned = s.lh := by simp [Sys.pinned, hpc]
  have hcoh : ∀ c w, s.cache c = some w → c ∉ s.lh → w = s.disk c := by
    intro c w hc hm
    exact hI.agree (by simp [hpc]) hc (by rw [hpin]; exact hm)
  have hcoh' := coherent_bwrite (b := s.start + tail + 1) (v := s.bread (s.lh.getD tail 0))
    (R := s.lh) hcoh (fun _ hc _ => hc)
  have hopen' := hopen.bwrite_log ht (s.bread (s.lh.getD tail 0))
  have hlog' := hlog.bwrite hv
  have hrec : ∀ b, s.Home b →
      recovered s.start (s.bwrite (s.start + tail + 1) (s.bread (s.lh.getD tail 0))).disk b =
      spec d₀ s b := by
    intro b hb
    rw [← hI.recovered b hb]
    unfold Sys.Home at hb
    exact recovered_update_of_nil hopen.empty (by omega) (by omega)
  have hhead : HeadOk s.start s.size
      (decodeHead ((s.bwrite (s.start + tail + 1) (s.bread (s.lh.getD tail 0))).disk s.start)) :=
    hopen'.empty.symm ▸ HeadOk.nil _ _
  simp only [Sys.tick, hpc, Option.some.injEq] at h
  subst h
  by_cases hlt : tail + 1 < s.lh.length
  · rw [if_pos hlt]
    exact ⟨hsp, hhead, hrec, hI.returned, hI.count, hI.idle, Or.inr hcoh',
      ⟨⟨hopen'.lh, hopen'.mem_iff, hopen'.cached, hopen'.empty⟩, hcomm, hlt, hlog'⟩⟩
  · rw [if_neg hlt]
    have heq : tail + 1 = s.lh.length := by omega
    exact ⟨hsp, hhead, hrec, hI.returned, hI.count, hI.idle, Or.inr hcoh',
      ⟨⟨hopen'.lh, hopen'.mem_iff, hopen'.cached, hopen'.empty⟩, hcomm,
        lt_of_le_of_lt (Nat.zero_le _) ht, heq ▸ hlog'⟩⟩

/-- The header write of `commit`: the group becomes part of the committed state. -/
theorem inv_tick_writeHead (hpc : s.pc = .writeHead) (h : s.tick = some t) : Inv d₀ t := by
  have hph := hI.phase
  simp only [Phase, hpc] at hph
  obtain ⟨hopen, hcomm, hne, hlog⟩ := hph
  have hsp := hI.size_pos
  have hlt : s.lh.length < 2 ^ 31 := lt_of_le_of_lt hopen.lh.len_le (by decide)
  have hdec : decodeHead (encodeHead (s.bread s.start) s.lh) = s.lh :=
    decodeHead_encodeHead _ _ hlt (fun b hb => (hopen.lh.home b hb).2)
  simp only [Sys.tick, hpc, Option.some.injEq] at h
  subst h
  have hspec : applyGroups (s.committed ++ [s.cur]) d₀ = applyGroup s.cur (spec d₀ s) :=
    applyGroups_concat _ _ _
  have hpin : s.pinned = s.lh := by simp [Sys.pinned, hpc]
  refine ⟨hsp, ?_, ?_, ?_, hI.count, hI.idle, Or.inr ?_, ?_⟩
  · simp only [Sys.bwrite, update_self, hdec]
    exact hopen.lh
  · intro b hb
    simp only [spec, hspec]
    refine recovered_head hsp hdec hlog hb ?_
    intro hm
    have hrec : recovered s.start s.disk b = spec d₀ s b := hI.recovered b hb
    rw [recovered_of_nil hopen.empty] at hrec
    exact hrec.trans (applyGroup_of_not_mem (fun hc => hm ((hopen.mem_iff b).mpr hc))).symm
  · exact hI.returned.trans (List.sublist_append_left _ _)
  · exact coherent_bwrite (fun c w hc hm => hI.agree (by simp [hpc]) hc (by rw [hpin]; exact hm))
      (fun c hc _ => by simpa [Sys.pinned, Sys.bwrite] using hc)
  · refine ⟨by simp [Sys.bwrite, hdec], hcomm, ⟨s.committed, rfl, hI.returned⟩,
      hne, ?_, fun i hi => absurd hi (Nat.not_lt_zero i)⟩
    intro i hi
    have hi' : s.start + i + 1 ≠ s.start := by omega
    simp only [Sys.bwrite, spec, hspec, update_of_ne hi']
    exact hlog i hi

theorem install_round {tail : ℕ} (hpc : ∀ p, s.pc ≠ .panicked p) (hpin : ∀ c ∈ s.pinned, c ∈ s.lh)
    (hd : decodeHead (s.disk s.start) = s.lh) (ht : tail < s.lh.length)
    (hlog : LogHolds s (spec d₀ s) s.lh.length) (hin : Installed d₀ s tail) :
    let u := s.bwrite (s.lh.getD tail 0) (s.bread (s.start + tail + 1))
    decodeHead (u.disk s.start) = s.lh ∧ LogHolds u (spec d₀ s) s.lh.length ∧
      Installed d₀ u (tail + 1) ∧ (∀ b, s.Home b → recovered s.start u.disk b = spec d₀ s b) ∧
      ∀ R : List ℕ, (∀ c, c ∉ R → c ≠ s.lh.getD tail 0 → c ∉ s.pinned) →
        ∀ c w, u.cache c = some w → c ∉ R → w = u.disk c := by
  have hsp := hI.size_pos
  have hh : HeadOk s.start s.size s.lh := hd ▸ hI.headOk
  have hmem := getD_mem ht
  have hstart : s.start ≠ s.lh.getD tail 0 := fun e => hh.start_not_mem hsp (e ▸ hmem)
  have hr : s.bread (s.start + tail + 1) = s.disk (s.start + tail + 1) :=
    bread_of_coherent (fun v hv => hI.agree hpc hv (fun hm => hh.log_not_mem ht (hpin _ hm)))
  refine ⟨?_, ?_, ?_, ?_, fun R => coherent_bwrite fun c w => hI.agree hpc⟩
  · simp only [Sys.bwrite, update_of_ne hstart]
    exact hd
  · intro i hi
    have hne : s.start + i + 1 ≠ s.lh.getD tail 0 := fun e => hh.log_not_mem hi (e ▸ hmem)
    simp only [Sys.bwrite, update_of_ne hne]
    exact hlog i hi
  · intro i hi
    show update s.disk (s.lh.getD tail 0) (s.bread (s.start + tail + 1)) (s.lh.getD i 0) =
      spec d₀ s (s.lh.getD i 0)
    by_cases he : s.lh.getD i 0 = s.lh.getD tail 0
    · rw [he, update_self, hr, hlog tail ht]
    · rw [update_of_ne he]
      refine hin i (lt_of_le_of_ne (Nat.lt_succ_iff.mp hi) ?_)
      rintro rfl
      exact he rfl
  · intro b hb
    rw [← hI.recovered b hb, hr]
    have ht' : tail < (decodeHead (s.disk s.start)).length := by rwa [hd]
    have hins := recovered_install (b := b) hI.headOk ht' hsp
    rw [hd] at hins
    exact hins

theorem inv_tick_install {tail : ℕ} (hpc : s.pc = .install tail)
    (h : s.tick = some t) : Inv d₀ t := by
  have hph := hI.phase
  simp only [Phase, hpc] at hph
  obtain ⟨hd, hcomm, hlast, ht, hlog, hin⟩ := hph
  have hpin : s.pinned = s.lh.drop tail := by simp [Sys.pinned, hpc]
  obtain ⟨hd', hlog', hin', hrec', hcoh⟩ :=
    install_round hI (by simp [hpc]) (fun c hc => List.mem_of_mem_drop (hpin ▸ hc)) hd ht hlog hin
  have hh' := hd'.symm ▸ hd ▸ hI.headOk
  have hcoh' := hcoh (s.lh.drop (tail + 1)) (by
      intro c hc hne hm
      rw [hpin, List.drop_eq_getElem_cons ht, List.mem_cons] at hm
      rcases hm with rfl | hm
      · exact hne (List.getD_eq_getElem _ _ ht).symm
      · exact hc hm)
  simp only [Sys.tick, hpc, Option.some.injEq] at h
  subst h
  by_cases hlt : tail + 1 < s.lh.length
  · rw [if_pos hlt]
    exact ⟨hI.size_pos, hh', hrec', hI.returned, hI.count, hI.idle, Or.inr hcoh',
      ⟨hd', hcomm, hlast, hlt, hlog', hin'⟩⟩
  · rw [if_neg hlt]
    have heq : tail + 1 = s.lh.length := by omega
    have hnil : s.lh.drop (tail + 1) = [] := by rw [heq]; exact List.drop_length
    rw [hnil] at hcoh'
    exact ⟨hI.size_pos, hh', hrec', hI.returned, hI.count, hI.idle, Or.inr hcoh',
      ⟨hd', hcomm, hlast, heq ▸ hin'⟩⟩

theorem inv_tick_clear (hpc : s.pc = .clear) (h : s.tick = some t) : Inv d₀ t := by
  have hph := hI.phase
  simp only [Phase, hpc] at hph
  obtain ⟨hd, hcomm, ⟨gs, hgs, hsub⟩, hin⟩ := hph
  simp only [Sys.tick, hpc, Option.some.injEq] at h
  subst h
  have hdec := decodeHead_encodeHead_nil (s.bread s.start)
  refine ⟨hI.size_pos, ?_, ?_, ?_, hI.count, hI.idle, Or.inr ?_, ?_⟩
  · simp only [Sys.bwrite, update_self, hdec]
    exact HeadOk.nil _ _
  · intro b hb
    exact recovered_clear hdec hI.size_pos hd hin hb (hI.recovered b hb)
  · show (s.returned ++ [s.cur]).Sublist s.committed
    rw [hgs]
    exact hsub.append_right _
  · exact coherent_bwrite (fun c w hc _ => hI.agree (by simp [hpc]) hc (by simp [Sys.pinned, hpc]))
      (fun _ hc _ => hc)
  · exact ⟨by simp [Sys.bwrite, hdec], hcomm, rfl, rfl⟩

theorem inv_tick_finish (hpc : s.pc = .finish) (h : s.tick = some t) : Inv d₀ t := by
  have hph := hI.phase
  simp only [Phase, hpc] at hph
  obtain ⟨hd, hcomm, hlh, hcur⟩ := hph
  simp only [Sys.tick, hpc, Option.some.injEq] at h
  subst h
  refine ⟨hI.size_pos, hI.headOk, hI.recovered, hI.returned, hI.count, by simp, Or.inr ?_, ?_⟩
  · intro b v hc _
    exact hI.agree (by simp [hpc]) hc (by simp [Sys.pinned, hpc])
  · refine ⟨⟨hlh ▸ HeadOk.nil _ _, ?_, ?_, hd⟩, rfl⟩
    · intro b
      simp [hlh, hcur]
    · intro b hb
      simp [hlh] at hb

theorem inv_tick_readHead (hpc : s.pc = .readHead) (h : s.tick = some t) : Inv d₀ t := by
  have hph := hI.phase
  simp only [Phase, hpc] at hph
  obtain ⟨hcomm, hcur, hops⟩ := hph
  have hcoh : ∀ c w, s.cache c = some w → w = s.disk c := fun c w hc =>
    hI.agree (by simp [hpc]) hc (by simp [Sys.pinned, hpc])
  have hr : s.bread s.start = s.disk s.start := bread_of_coherent (fun v hv => hcoh _ v hv)
  have hcoh' : ∀ c w, update s.cache s.start (some (s.disk s.start)) c = some w → w = s.disk c := by
    intro c w hc
    by_cases hcs : c = s.start
    · subst hcs
      rw [update_self, Option.some.injEq] at hc
      exact hc.symm
    · rw [update_of_ne hcs] at hc
      exact hcoh c w hc
  have hlog : ∀ i < (decodeHead (s.disk s.start)).length,
      s.disk (s.start + i + 1) = spec d₀ s ((decodeHead (s.disk s.start)).getD i 0) := by
    intro i hi
    have hm := List.getElem_mem hi
    have := hI.recovered _ (hI.headOk.home _ hm)
    unfold recovered at this
    rw [if_pos hm, hI.headOk.nodup.idxOf_getElem i hi] at this
    rw [List.getD_eq_getElem _ _ hi, this]
  simp only [Sys.tick, hpc, Option.some.injEq, hr] at h
  by_cases hlt : 0 < (decodeHead (s.disk s.start)).length
  · rw [if_pos hlt] at h
    subst h
    exact ⟨hI.size_pos, hI.headOk, hI.recovered, hI.returned, hI.count, hI.idle,
      Or.inr (fun c w hc _ => hcoh' c w hc),
      ⟨rfl, hcomm, hcur, hops, hlt, hlog, fun i hi => absurd hi (Nat.not_lt_zero i)⟩⟩
  · rw [if_neg hlt] at h
    subst h
    have hzero : (decodeHead (s.disk s.start)).length = 0 := by omega
    exact ⟨hI.size_pos, hI.headOk, hI.recovered, hI.returned, hI.count, hI.idle,
      Or.inr (fun c w hc _ => hcoh' c w hc),
      ⟨rfl, hcomm, hcur, hops, fun i hi => absurd (hzero ▸ hi) (Nat.not_lt_zero i)⟩⟩

theorem inv_tick_recoverInstall {tail : ℕ} (hpc : s.pc = .recoverInstall tail)
    (h : s.tick = some t) : Inv d₀ t := by
  have hph := hI.phase
  simp only [Phase, hpc] at hph
  obtain ⟨hd, hcomm, hcur, hops, ht, hlog, hin⟩ := hph
  have hpin : s.pinned = [] := by simp [Sys.pinned, hpc]
  obtain ⟨hd', hlog', hin', hrec', hcoh⟩ :=
    install_round hI (by simp [hpc]) (by simp [hpin]) hd ht hlog hin
  have hh' := hd'.symm ▸ hd ▸ hI.headOk
  have hcoh' := hcoh [] (by simp [hpin])
  simp only [Sys.tick, hpc, Option.some.injEq] at h
  subst h
  by_cases hlt : tail + 1 < s.lh.length
  · rw [if_pos hlt]
    exact ⟨hI.size_pos, hh', hrec', hI.returned, hI.count, hI.idle, Or.inr hcoh',
      ⟨hd', hcomm, hcur, hops, hlt, hlog', hin'⟩⟩
  · rw [if_neg hlt]
    have heq : tail + 1 = s.lh.length := by omega
    exact ⟨hI.size_pos, hh', hrec', hI.returned, hI.count, hI.idle, Or.inr hcoh',
      ⟨hd', hcomm, hcur, hops, heq ▸ hin'⟩⟩

theorem inv_tick_recoverClear (hpc : s.pc = .recoverClear) (h : s.tick = some t) :
    Inv d₀ t := by
  have hph := hI.phase
  simp only [Phase, hpc] at hph
  obtain ⟨hd, hcomm, hcur, hops, hin⟩ := hph
  simp only [Sys.tick, hpc, Option.some.injEq] at h
  subst h
  have hdec := decodeHead_encodeHead_nil (s.bread s.start)
  have hdec' : decodeHead ((s.bwrite s.start (encodeHead (s.bread s.start) [])).disk s.start) = [] := by
    simp [Sys.bwrite, hdec]
  refine ⟨hI.size_pos, hdec'.symm ▸ HeadOk.nil _ _, ?_, hI.returned, hI.count, hI.idle, Or.inr ?_, ?_⟩
  · intro b hb
    exact recovered_clear hdec hI.size_pos hd hin hb (hI.recovered b hb)
  · exact coherent_bwrite (fun c w hc _ => hI.agree (by simp [hpc]) hc (by simp [Sys.pinned, hpc]))
      (fun _ hc _ => hc)
  · refine ⟨⟨HeadOk.nil _ _, ?_, ?_, hdec'⟩, hcomm⟩
    · intro b
      simp [Sys.bwrite, hcur]
    · intro b hb
      simp at hb

theorem inv_tick (h : s.tick = some t) : Inv d₀ t := by
  cases hpc : s.pc with
  | running => simp [Sys.tick, hpc] at h
  | panicked p => simp [Sys.tick, hpc] at h
  | writeLog tail => exact inv_tick_writeLog hI hpc h
  | writeHead => exact inv_tick_writeHead hI hpc h
  | install tail => exact inv_tick_install hI hpc h
  | clear => exact inv_tick_clear hI hpc h
  | finish => exact inv_tick_finish hI hpc h
  | readHead => exact inv_tick_readHead hI hpc h
  | recoverInstall tail => exact inv_tick_recoverInstall hI hpc h
  | recoverClear => exact inv_tick_recoverClear hI hpc h

theorem Inv.running (hup : s.up = true) (hc : s.committing = false) : s.pc = .running := by
  have hph := hI.phase
  cases hpc : s.pc with
  | running => rfl
  | writeLog tail | writeHead | install tail | clear | finish =>
      simp only [Phase, hpc] at hph
      simp_all
  | readHead | recoverInstall tail | recoverClear | panicked p => simp [Sys.up, hpc] at hup

theorem Inv.not_committing {k : ℕ} (hk : k ∈ s.ops) : s.committing = false := by
  by_contra hc
  have := hI.idle (by simpa using hc)
  rw [this] at hk
  exact absurd hk (Finset.notMem_empty k)

theorem Inv.open (hpc : s.pc = .running) : Open d₀ s ∧ s.committing = false := by
  have hph := hI.phase
  simpa [Phase, hpc] using hph

theorem inv_begin {k : ℕ} (h : s.step (.begin k) = some t) : Inv d₀ t := by
  simp only [Sys.step] at h
  split_ifs at h with hg
  have hc : ¬ s.committing = true := fun hc => by simp [Sys.beginOp, hc] at h
  have hroom : ¬ s.lh.length + (s.outstanding + 1) * MAXOPBLOCKS > LOGSIZE := fun hfull => by
    simp [Sys.beginOp, hc, hfull] at h
  have hpc := hI.running hg.1 (by simpa using hc)
  obtain ⟨hopen, hcomm⟩ := hI.open hpc
  simp only [Sys.beginOp, if_neg hc, if_neg hroom, Option.map_some, Option.some.injEq] at h
  subst h
  refine ⟨hI.size_pos, hI.headOk, hI.recovered, hI.returned, ?_, ?_, ?_, ?_⟩
  · simp [Finset.card_insert_of_notMem hg.2, hI.count]
  · intro hc'
    exact absurd hc' hc
  · rcases hI.coherent with ⟨p, hp⟩ | hcoh
    · exact Or.inl ⟨p, hp⟩
    · exact Or.inr hcoh
  · simp only [Phase, hpc]
    exact ⟨⟨hopen.lh, hopen.mem_iff, hopen.cached, hopen.empty⟩, hcomm⟩

/-- A `log_write` either panics or records the new version of the block. -/
theorem inv_write {k b : ℕ} {v : Block} (h : s.step (.write k b v) = some t) : Inv d₀ t := by
  simp only [Sys.step] at h
  split_ifs at h with hg
  have hpc := hI.running hg.1 (hI.not_committing hg.2.1)
  obtain ⟨hopen, hcomm⟩ := hI.open hpc
  have hpin : s.pinned = s.lh := by simp [Sys.pinned, hpc]
  by_cases hbig : s.lh.length ≥ LOGSIZE ∨ s.lh.length ≥ s.size - 1
  · simp only [Sys.logWrite, if_pos hbig, Option.some.injEq] at h
    subst h
    exact ⟨hI.size_pos, hI.headOk, hI.recovered, hI.returned, hI.count, hI.idle, Or.inl ⟨_, rfl⟩,
      trivial⟩
  by_cases hout : s.outstanding < 1
  · simp only [Sys.logWrite, if_neg hbig, if_pos hout, Option.some.injEq] at h
    subst h
    exact ⟨hI.size_pos, hI.headOk, hI.recovered, hI.returned, hI.count, hI.idle, Or.inl ⟨_, rfl⟩,
      trivial⟩
  simp only [Sys.logWrite, if_neg hbig, if_neg hout, Option.some.injEq] at h
  subst h
  have hmem : ∀ c, c ∈ (if b ∈ s.lh then s.lh else s.lh ++ [b]) ↔ c ∈ s.lh ∨ c = b := by
    intro c
    split_ifs with hb
    · exact ⟨Or.inl, fun hc => hc.elim id (fun e => e ▸ hb)⟩
    · simp
  refine ⟨hI.size_pos, hI.headOk, hI.recovered, hI.returned, hI.count, hI.idle, Or.inr ?_, ?_⟩
  · intro c w hc hm
    simp only [Sys.pinned, hpc, hmem, not_or] at hm
    simp only [update_of_ne hm.2] at hc
    exact hI.agree (by simp [hpc]) hc (by rw [hpin]; exact hm.1)
  · simp only [Phase, hpc]
    refine ⟨⟨?_, ?_, ?_, hopen.empty⟩, hcomm⟩
    · by_cases hb : b ∈ s.lh
      · simp only [if_pos hb]
        exact hopen.lh
      · simp only [if_neg hb]
        refine ⟨?_, ?_, ?_, ?_⟩
        · exact List.nodup_append.mpr ⟨hopen.lh.nodup, List.nodup_singleton b, by
            intro c hc e he
            rw [List.mem_singleton] at he
            subst he
            exact fun hce => hb (hce ▸ hc)⟩
        · simp only [List.length_append, List.length_singleton]; omega
        · simp only [List.length_append, List.length_singleton]; omega
        · intro c hc
          rcases List.mem_append.mp hc with hc | hc
          · exact hopen.lh.home c hc
          · rw [List.mem_singleton.mp hc]
            exact hg.2.2
    · intro c
      simp [hmem, hopen.mem_iff c]
    · intro c hc
      simp only [hmem] at hc
      show update s.cache b (some v) c = some (applyGroup (s.cur ++ [(b, v)]) (spec d₀ s) c)
      rw [applyGroup_concat]
      by_cases hcb : c = b
      · subst hcb
        rw [update_self, update_self]
      · rw [update_of_ne hcb, update_of_ne hcb]
        exact hopen.cached c (hc.resolve_right hcb)

theorem inv_endOp {k : ℕ} (h : s.step (.endOp k) = some t) : Inv d₀ t := by
  simp only [Sys.step] at h
  split_ifs at h with hg
  have hpc := hI.running hg.1 (hI.not_committing hg.2)
  obtain ⟨hopen, hcomm⟩ := hI.open hpc
  have hpin : s.pinned = s.lh := by simp [Sys.pinned, hpc]
  have hcount : s.outstanding - 1 = (s.ops.erase k).card := by
    rw [Finset.card_erase_of_mem hg.2, hI.count]
  have hcoh : ∀ c w, s.cache c = some w → c ∉ s.lh → w = s.disk c := fun c w hc hm =>
    hI.agree (by simp [hpc]) hc (by rw [hpin]; exact hm)
  simp only [Sys.endOp, hcomm, Bool.false_eq_true, if_false] at h
  by_cases hz : s.outstanding - 1 = 0
  · simp only [if_pos hz, Option.some.injEq] at h
    subst h
    have hempty : s.ops.erase k = ∅ := Finset.card_eq_zero.mp (hcount ▸ hz)
    by_cases hlen : s.lh.length > 0
    · rw [if_pos hlen]
      exact ⟨hI.size_pos, hI.headOk, hI.recovered, hI.returned, hcount, fun _ => hempty,
        Or.inr hcoh, ⟨⟨hopen.lh, hopen.mem_iff, hopen.cached, hopen.empty⟩, rfl, hlen,
          fun i hi => absurd hi (Nat.not_lt_zero i)⟩⟩
    · rw [if_neg hlen]
      have hnil : s.lh = [] := List.length_eq_zero_iff.mp (by omega)
      have hcur : s.cur = [] := by
        apply List.map_eq_nil_iff.mp
        apply List.eq_nil_iff_forall_not_mem.mpr
        intro b hb
        have := (hopen.mem_iff b).mpr hb
        rw [hnil] at this
        exact List.not_mem_nil this
      exact ⟨hI.size_pos, hI.headOk, hI.recovered, hI.returned, hcount, fun _ => hempty,
        Or.inr (fun c w hc _ => hcoh c w hc (by rw [hnil]; exact List.not_mem_nil)),
        ⟨hopen.empty, rfl, hnil, hcur⟩⟩
  · simp only [if_neg hz, Option.some.injEq] at h
    subst h
    refine ⟨hI.size_pos, hI.headOk, hI.recovered, hI.returned, hcount, ?_, Or.inr ?_, ?_⟩
    · intro hc
      simp at hc
    · intro c w hc hm
      simp only [Sys.pinned, hpc] at hm
      exact hcoh c w hc hm
    · simp only [Phase, hpc]
      exact ⟨⟨hopen.lh, hopen.mem_iff, hopen.cached, hopen.empty⟩, trivial⟩

/-- A power failure keeps the disk, and with it what recovery will find. -/
theorem inv_crash : Inv d₀ s.reboot :=
  ⟨hI.size_pos, hI.headOk, hI.recovered, hI.returned, rfl, fun _ => rfl,
    Or.inr (fun _ _ hc => by simp [Sys.reboot] at hc), ⟨rfl, rfl, rfl⟩⟩

theorem inv_evict {b : ℕ} (h : s.step (.evict b) = some t) : Inv d₀ t := by
  simp only [Sys.step] at h
  split_ifs at h with hb
  simp only [Option.some.injEq] at h
  subst h
  have hcache : ∀ c, c ∈ s.pinned → update s.cache b none c = s.cache c := fun c hc =>
    update_of_ne (fun e : c = b => hb (e ▸ hc)) _ _
  refine ⟨hI.size_pos, hI.headOk, hI.recovered, hI.returned, hI.count, hI.idle, ?_, ?_⟩
  · rcases hI.coherent with hp | hcoh
    · exact Or.inl hp
    · refine Or.inr ?_
      intro c w hc hm
      by_cases hcb : c = b
      · subst hcb
        simp at hc
      · simp only [update_of_ne hcb] at hc
        exact hcoh c w hc hm
  · have hph := hI.phase
    have hopen : ∀ q, s.pinned = s.lh → Open d₀ s →
        Open d₀ { s with cache := update s.cache b none, pc := q } :=
      fun q hpin ho => ⟨ho.lh, ho.mem_iff, fun c hc => (hcache c (hpin ▸ hc)).trans
        (ho.cached c hc), ho.empty⟩
    cases hpc : s.pc <;> simp only [Phase, hpc] at hph ⊢
    case running => exact ⟨hopen _ (by simp [Sys.pinned, hpc]) hph.1, hph.2⟩
    case writeLog tail => exact ⟨hopen _ (by simp [Sys.pinned, hpc]) hph.1, hph.2⟩
    case writeHead => exact ⟨hopen _ (by simp [Sys.pinned, hpc]) hph.1, hph.2⟩
    all_goals exact hph

theorem inv_step {a : Action} (h : s.step a = some t) : Inv d₀ t := by
  cases a with
  | begin k => exact inv_begin hI h
  | write k b v => exact inv_write hI h
  | endOp k => exact inv_endOp hI h
  | tick => exact inv_tick hI h
  | evict b => exact inv_evict hI h
  | crash =>
      simp only [Sys.step, Option.some.injEq] at h
      exact h ▸ inv_crash hI

end

end steps

/-! ### Whole runs -/

section runs
variable {start size : ℕ} {d : Disk} {s t : Sys}

theorem inv_boot (hs : 0 < size) (hd : decodeHead (d start) = []) : Inv d (boot start size d) where
  size_pos := hs
  headOk := (show decodeHead ((boot start size d).disk start) = [] from hd).symm ▸ HeadOk.nil _ _
  recovered b _ := recovered_of_nil hd b
  returned := List.Sublist.refl _
  count := rfl
  idle _ := rfl
  coherent := Or.inr (fun _ _ hc => by simp [boot] at hc)
  phase := ⟨rfl, rfl, rfl⟩

theorem inv_exec (hs : 0 < size) (hd : decodeHead (d start) = []) {as : List Action}
    (h : exec Sys.step (boot start size d) as = some s) : Inv d s :=
  exec_invariant (I := Inv d) (inv_boot hs hd) (fun _ _ _ hI hst => inv_step hI hst) h

theorem step_frame {a : Action} (h : s.step a = some t) :
    t.start = s.start ∧ t.size = s.size ∧ s.committed <+: t.committed := by
  cases a with
  | begin k =>
      simp only [Sys.step, Sys.beginOp] at h
      split_ifs at h <;> simp at h
      subst h
      exact ⟨rfl, rfl, List.prefix_rfl⟩
  | write k b v =>
      simp only [Sys.step, Sys.logWrite] at h
      split_ifs at h <;> simp at h <;> subst h <;> exact ⟨rfl, rfl, List.prefix_rfl⟩
  | endOp k =>
      simp only [Sys.step, Sys.endOp] at h
      split_ifs at h <;> simp at h <;> subst h <;> exact ⟨rfl, rfl, List.prefix_rfl⟩
  | tick =>
      simp only [Sys.step, Sys.tick] at h
      split at h <;> simp only [Option.some.injEq, reduceCtorEq] at h <;> subst h
      case h_4 => exact ⟨rfl, rfl, List.prefix_append _ _⟩
      all_goals exact ⟨rfl, rfl, List.prefix_rfl⟩
  | evict b =>
      simp only [Sys.step] at h
      split_ifs at h
      simp only [Option.some.injEq] at h
      subst h
      exact ⟨rfl, rfl, List.prefix_rfl⟩
  | crash =>
      simp only [Sys.step, Option.some.injEq] at h
      subst h
      exact ⟨rfl, rfl, List.prefix_rfl⟩

theorem exec_frame {as : List Action} (h : exec Sys.step s as = some t) :
    t.start = s.start ∧ t.size = s.size ∧ s.committed <+: t.committed := by
  refine exec_invariant (I := fun u => u.start = s.start ∧ u.size = s.size ∧
    s.committed <+: u.committed) ⟨rfl, rfl, List.prefix_rfl⟩ ?_ h
  rintro u a w ⟨h1, h2, h3⟩ hst
  obtain ⟨e1, e2, e3⟩ := step_frame hst
  exact ⟨e1.trans h1, e2.trans h2, h3.trans e3⟩

/-! ### The reboot runs `recover_from_log` to its end -/

/-- Every cached buffer agrees with the disk, as after a reboot. -/
def Fresh (s : Sys) : Prop := ∀ b v, s.cache b = some v → v = s.disk b

theorem Fresh.bread (h : Fresh s) (b : ℕ) : s.bread b = s.disk b := bread_of_coherent (h b)

theorem Fresh.bwrite (h : Fresh s) (b : ℕ) (v : Block) : Fresh (s.bwrite b v) := fun c w hc =>
  coherent_bwrite (P := []) (R := []) (fun c w hc _ => h c w hc) (fun _ hc _ => hc) c w hc
    List.not_mem_nil

/-- The loop of `install_trans(1)` from loop variable `tail` on, one `tick` a round. -/
theorem exec_recoverInstall : ∀ (k tail : ℕ) (u : Sys), u.pc = .recoverInstall tail →
    tail + k + 1 = u.lh.length → Fresh u →
    ∃ w, exec Sys.step u (List.replicate (k + 1) .tick) = some w ∧ w.pc = .recoverClear ∧
      w.start = u.start ∧ w.disk = installTrans u.start (u.lh.drop tail) tail u.disk ∧ Fresh w
  | 0, tail, u, hpc, hlen, hf => by
      have hdrop : u.lh.drop tail = [u.lh.getD tail 0] := by
        rw [List.drop_eq_getElem_cons (by omega), List.getD_eq_getElem _ _ (by omega),
          List.drop_eq_nil_of_le (by omega)]
      refine ⟨{ u.bwrite (u.lh.getD tail 0) (u.bread (u.start + tail + 1)) with pc := .recoverClear },
        ?_, rfl, rfl, ?_, hf.bwrite _ _⟩
      · have hnot : ¬ tail + 1 < u.lh.length := by omega
        simp [exec, Sys.step, Sys.tick, hpc, hnot]
      · rw [hdrop, hf.bread]
        rfl
  | k + 1, tail, u, hpc, hlen, hf => by
      have hlt : tail + 1 < u.lh.length := by omega
      obtain ⟨w, hw, hwpc, hws, hwd, hwf⟩ := exec_recoverInstall k (tail + 1)
        { u.bwrite (u.lh.getD tail 0) (u.bread (u.start + tail + 1)) with pc := .recoverInstall (tail + 1) }
        rfl (by show tail + 1 + k + 1 = u.lh.length; omega) (hf.bwrite _ _)
      refine ⟨w, ?_, hwpc, hws, ?_, hwf⟩
      · rw [List.replicate_succ, exec_cons]
        exact ⟨_, by simp [Sys.step, Sys.tick, hpc, hlt], hw⟩
      · rw [hwd, List.drop_eq_getElem_cons (by omega : tail < u.lh.length), installTrans,
          ← List.getD_eq_getElem u.lh 0 (by omega), ← hf.bread (u.start + tail + 1)]
        rfl

/-- After a crash in any state the rebooted kernel executes `recover_from_log` on the disk it
finds, to its end. -/
theorem exec_recover (s : Sys) : ∃ n u, exec Sys.step s (.crash :: List.replicate n .tick) =
    some u ∧ u.pc = .running ∧ u.disk = recoverFromLog s.start s.disk := by
  have hfresh : Fresh s.reboot := fun _ _ hc => by simp [Sys.reboot] at hc
  obtain ⟨m, w, hw, hwpc, hws, hwd, hwf⟩ : ∃ m w,
      exec Sys.step s.reboot (List.replicate (m + 1) .tick) = some w ∧ w.pc = .recoverClear ∧
        w.start = s.start ∧ w.disk = installTrans s.start (decodeHead (s.disk s.start)) 0 s.disk ∧
        Fresh w := by
    have hread : s.reboot.bread s.start = s.disk s.start := hfresh.bread _
    have hf' : Fresh { s.reboot with
        lh := decodeHead (s.disk s.start),
        cache := update s.reboot.cache s.start (some (s.disk s.start)), pc := .recoverInstall 0 } := by
      intro b v hb
      by_cases hbs : b = s.start
      · subst hbs
        simp only [update_self, Option.some.injEq] at hb
        exact hb.symm
      · simp only [update_of_ne hbs] at hb
        exact hfresh b v hb
    by_cases hlt : 0 < (decodeHead (s.disk s.start)).length
    · obtain ⟨k, hk⟩ : ∃ k, 0 + k + 1 = (decodeHead (s.disk s.start)).length :=
        ⟨(decodeHead (s.disk s.start)).length - 1, by omega⟩
      obtain ⟨w, hw, h1, h2, h3, h4⟩ := exec_recoverInstall k 0 _ rfl hk hf'
      refine ⟨k + 1, w, ?_, h1, h2, h3, h4⟩
      rw [List.replicate_succ, exec_cons]
      refine ⟨_, ?_, hw⟩
      show s.reboot.tick = _
      simp [Sys.tick, show s.reboot.pc = .readHead from rfl, show s.reboot.start = s.start from rfl,
        hread, if_pos hlt]
    · have hnil : decodeHead (s.disk s.start) = [] := List.length_eq_zero_iff.mp (by omega)
      refine ⟨0, { s.reboot with
          lh := decodeHead (s.disk s.start),
          cache := update s.reboot.cache s.start (some (s.disk s.start)), pc := .recoverClear },
        ?_, rfl, rfl, ?_, fun b v hb => hf' b v hb⟩
      · rw [List.replicate_succ, exec_cons]
        refine ⟨_, ?_, rfl⟩
        show s.reboot.tick = _
        simp [Sys.tick, show s.reboot.pc = .readHead from rfl, show s.reboot.start =
          s.start from rfl, hread, if_neg hlt]
      · rw [hnil]
        rfl
  refine ⟨m + 1 + 1,
    { w.bwrite w.start (encodeHead (w.bread w.start) []) with lh := [], pc := .running }, ?_, rfl, ?_⟩
  · rw [exec_cons]
    refine ⟨s.reboot, rfl, ?_⟩
    rw [List.replicate_succ', exec_concat]
    exact ⟨w, hw, by simp [Sys.step, Sys.tick, hwpc]⟩
  · show update w.disk w.start (encodeHead (w.bread w.start) []) = _
    rw [hwf.bread, hwd, hws]
    rfl

/-- **Crash atomicity.**  Take any run of the log, with crashes at any of its points, on a disk
whose log was empty at first, stop it anywhere, and let the machine reboot: `recover_from_log`
runs to its end and leaves at the home locations exactly the state after the committed groups, each
applied as a whole and in commit order; the groups whose `commit` returned are among them in their
order; no later step undoes a commit; and a second recovery changes nothing. -/
theorem crash_atomic (hsize : 0 < size) (hd : decodeHead (d start) = []) {as bs : List Action}
    (hs : exec Sys.step (boot start size d) as = some s) (ht : exec Sys.step s bs = some t) :
    (∃ n u, exec Sys.step s (.crash :: List.replicate n .tick) = some u ∧ u.pc = .running ∧
      u.disk = recoverFromLog start s.disk) ∧
    (∀ b, s.Home b → recoverFromLog start s.disk b = applyGroups s.committed d b) ∧
    s.returned.Sublist s.committed ∧ s.committed <+: t.committed ∧
    recoverFromLog start (recoverFromLog start s.disk) = recoverFromLog start s.disk := by
  have hI := inv_exec hsize hd hs
  obtain ⟨hstart, hsz, -⟩ := exec_frame hs
  have hstart : s.start = start := hstart
  have hsz : s.size = size := hsz
  refine ⟨hstart ▸ exec_recover s, ?_, hI.returned, (exec_frame ht).2.2, recoverFromLog_idem _ _⟩
  intro b hb
  have hhead := hI.headOk
  rw [hstart, hsz] at hhead
  have hb' := hb
  unfold Sys.Home at hb'
  rw [hstart, hsz] at hb'
  rw [recoverFromLog_home hhead hb' hsize, ← hstart]
  exact hI.recovered b hb

/-- A power failure right after the header write of a one-block group: recovery installs it. -/
theorem crash_atomic_after_header_write : ∃ s, exec Sys.step (boot 2 30 (fun _ _ => 0))
      [.tick, .tick, .begin 0, .write 0 45 (fun _ => 7), .endOp 0, .tick, .tick] = some s ∧
    s.committed.length = 1 ∧ recoverFromLog 2 s.disk 45 = applyGroups s.committed (fun _ _ => 0) 45 := by
  have hrun : (exec Sys.step (boot 2 30 (fun _ _ => 0))
      [.tick, .tick, .begin 0, .write 0 45 (fun _ => 7), .endOp 0, .tick, .tick]).map
        (fun s => (s.committed.length, decide (s.Home 45))) = some (1, true) := by decide
  obtain ⟨s, hs, hv⟩ := Option.map_eq_some_iff.mp hrun
  simp only [Prod.mk.injEq, decide_eq_true_eq] at hv
  have hnil : exec Sys.step s [] = some s := exec_nil
  exact ⟨s, hs, hv.1, (crash_atomic (by decide) (by decide) hs hnil).2.1 45 hv.2⟩

end runs

end Xv6Cow.Log

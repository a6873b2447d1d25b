import Xv6Cow.Proc.Family

/-! # Every process that exits is reaped once -/

namespace Xv6Cow.Proc

variable {s s' t : Sys} {c d p q : ℕ} {a : Act}

/-! ### Freed slots -/

theorem inUse_set {i : ℕ} {x : Slot} (hb : (s.slots p).state ≠ .unused)
    (hx : i = p → x.state ≠ .unused) : (Function.update s.slots i x p).state ≠ .unused := by
  by_cases he : i = p
  · subst he
    simpa using hx rfl
  · rwa [Function.update_of_ne (Ne.symm he)]

theorem inUse_wakeup {chan : Option Chan} {i : ℕ} (hb : (s.slots p).state ≠ .unused) :
    ((wakeupSlot s i chan).slots p).state ≠ .unused := by
  unfold wakeupSlot
  split
  · exact inUse_set hb (by simp)
  · exact hb

theorem freed_step (hr : Reachable s) (ht : step s a = some s') (hb : (s.slots p).state ≠ .unused)
    (hf : (s'.slots p).state = .unused) : ∃ q, Reaps s s' a q p := by
  by_cases hz : (s.slots p).state = .zombie
  · refine (hr.ok.zombie_step hz ht).resolve_left fun hk => ?_
    rw [hk.state] at hf
    exact hb hf
  · exfalso
    have hx := hr.ok.inv.cpu a.cpu
    revert hf
    cases step_cases ht with
    | run hp hrun => exact inUse_set hb (by simp)
    | intrNext hp hj hl => exact inUse_wakeup hb
    | @thread i q s' hp hc ht =>
        simp only [CpuOk, hp] at hx
        have hi : i = q := Option.some.inj (hx.1.symm.trans hc)
        subst hi
        generalize hk : s.pc i = k at ht
        cases ht with
        | user hc =>
            generalize a.call = x at hc
            cases hc with
            | setkilled _ => exact inUse_set hb fun he => he ▸ hb
            | _ => exact hb
        | yield2 | sleep3 | exit3 => exact inUse_set hb (by simp)
        | resumedSleep => exact inUse_set hb fun he => he ▸ hb
        | wakeupNext _ _ _ => exact inUse_wakeup hb
        | killHit _ _ =>
            refine inUse_set hb fun he => ?_
            subst he
            simp only [killSlot]
            split <;> simp_all
        | forkFail _ _ hu => exact inUse_set hb fun he => absurd hu (he ▸ hb)
        | forkAlloc _ _ _ => exact inUse_set hb (by simp)
        | fork2 _ => exact inUse_set hb fun he => he ▸ hb
        | fork3 _ => exact inUse_set hb (by simp)
        | reparentHit _ _ => exact inUse_set hb fun he => he ▸ hb
        | waitFree _ _ _ hzi _ => exact inUse_set hb fun he => absurd (he ▸ hzi) hz
        | _ => exact hb
    | _ => exact hb

theorem zombie_run (hr : Reachable s) (hz : (s.slots p).state = .zombie) {as : List Act}
    (h : Runs.exec step s as = some t) : Keeps (s.slots p) (t.slots p) ∨
      ∃ bs a cs u v q, as = bs ++ a :: cs ∧ Runs.exec step s bs = some u ∧ step u a = some v ∧
        Keeps (s.slots p) (u.slots p) ∧ Reaps u v a q p := by
  refine Runs.exec_induction (P := fun ls t => Keeps (s.slots p) (t.slots p) ∨ ∃ bs a cs u v q,
    ls = bs ++ a :: cs ∧ Runs.exec step s bs = some u ∧ step u a = some v ∧
    Keeps (s.slots p) (u.slots p) ∧ Reaps u v a q p) (.inl (.refl _)) ?_ h
  intro ls u l v hls hP ht
  cases hP with
  | inr hx =>
      obtain ⟨bs, a, cs, u', v', q, he, hx⟩ := hx
      exact .inr ⟨bs, a, cs ++ [l], u', v', q, by simp [he], hx⟩
  | inl hk =>
      have hru : Reachable u :=
        (hr.exec_induction (P := fun _ => True) trivial (fun _ _ _ _ _ _ => trivial) hls).1
      cases hru.ok.zombie_step (hk.state.trans hz) ht with
      | inl hk' =>
          exact .inl ⟨hk'.state.trans hk.state, hk'.pid.trans hk.pid, hk'.xstate.trans hk.xstate⟩
      | inr hq =>
          obtain ⟨q, hq⟩ := hq
          exact .inr ⟨ls, l, [], u, v, q, rfl, hls, ht, hk, hq⟩

/-! ### What `wait` returns -/

/-- The positions from which `wait` returns. -/
def Pc.inWait : Pc → Bool
  | .waitScan _ _ | .test _ _ .wait => true
  | _ => false

/-- `wait` reaps a child, or returns -1 and changes no slot: it has no child, its process is marked,
or it found a child that has exited and could not copy the status. -/
theorem wait_return (hr : Reachable s) (ht : step s a = some s')
    (hp : (s.cpus a.cpu).pos = .thread q) (hw : (s.pc q).inWait = true) (hu : s'.pc q = .user) :
    (∃ i, Reaps s s' a q i) ∨ (s'.result q = -1 ∧ s'.slots = s.slots ∧
      ((∀ j, (s.slots j).parent ≠ some q) ∨ (s.slots q).killed = true ∨
        a.ok = false ∧ ∃ i, (s.slots i).parent = some q ∧ (s.slots i).state = .zombie)) := by
  have hx := hr.ok.inv.cpu a.cpu
  have hchild := hr.family.childless q
  cases step_cases ht with
  | @thread i r s' hp' hc ht =>
      rw [hp] at hp'
      cases hp'
      simp only [CpuOk, hp] at hx
      cases Option.some.inj (hx.1.symm.trans hc)
      generalize hk : s.pc q = k at ht hw hchild
      have no : ∀ (u : Sys) (k' : Pc), s' = u.setPc q k' → k' = .user := by
        intro u k' he
        rw [he, setPc_pc, Function.update_self] at hu
        exact hu
      cases ht with
      | testWait hl hkd => exact .inr ⟨by simp [waitReturn, Sys.setPc], rfl, .inr (.inl hkd)⟩
      | testKilled hl hkd hne =>
          rename_i r
          cases r <;> simp_all [Pc.inWait]
      | waitFail hi he hl hz ha =>
          exact .inr ⟨by simp [waitReturn, Sys.setPc], rfl, .inr (.inr ⟨ha, _, he, hz⟩)⟩
      | @waitFree i hkid hi he hl hz ha =>
          refine .inl ⟨i, hp, ⟨hkid, hk⟩, he, hl, ?_, ?_, ?_, ?_⟩ <;>
            simp [waitReturn, Sys.setPc, Sys.setResult, Sys.release, Sys.setStatus]
      | @waitNone i hi =>
          refine .inr ⟨by simp [waitReturn, Sys.setPc], rfl, .inl fun j hj => ?_⟩
          have hjb : j < NPROC := by
            refine hr.family.bound j fun hun => ?_
            simp [(hr.clean.slot j hun).2.1] at hj
          exact hchild j (by simp only [Pc.childless]; omega) hj
      | testNot _ _ | waitNext _ _ | waitChild _ _ _ _
      | waitTest _ => exact absurd (no _ _ rfl) (by simp)
      | _ => simp [Pc.inWait] at hw
  | wrap hp' | scan hp' | run hp' | skip hp' | leave hp' | enter hp' | back hp' | returned hp'
  | unlock hp' | intr hp'
  | intrNext hp' | intrDone hp' => simp [hp] at hp'

/-! ### The whole -/

/-- Process 0 forks process 1, which exits with status 7 on a second CPU. -/
def exited : List Act :=
  started ++ ⟨0, .fork, true⟩ :: List.replicate 4 ⟨0, .yield, true⟩ ++
    List.replicate 8 ⟨1, .yield, true⟩ ++ ⟨1, .exit 7, true⟩ :: List.replicate 136 ⟨1, .yield, true⟩

end Xv6Cow.Proc

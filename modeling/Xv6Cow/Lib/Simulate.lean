import Xv6Cow.Lib.Wp

/-! # Simulation of one command by another

Two commands on different states, related by `S`.  `Follows S R f g` says that from related states
`f` does what `g` does: where `g` returns, `f` returns, with values related by `R` and states again
related by `S`; where `g` stops, `f` stops with the same error.  The rules follow the constructors
of a command, so that a program is compared with a more abstract one of the same shape line by
line. -/

namespace Xv6Cow

variable {σ τ ε α β α' β' : Type}

/-- From related states, `f` does what `g` does. -/
def Follows (S : σ → τ → Prop) (R : α → β → Prop) (f : StateT σ (Except ε) α)
    (g : StateT τ (Except ε) β) : Prop :=
  ∀ s t, S s t →
    wp g (fun b t' => ∃ a s', f s = .ok (a, s') ∧ R a b ∧ S s' t') (fun e => f s = .error e) t

namespace Follows

variable {S : σ → τ → Prop} {R : α → β → Prop} {R' : α' → β' → Prop} {f : StateT σ (Except ε) α}
  {g : StateT τ (Except ε) β}

protected theorem pure {a : α} {b : β} (h : R a b) :
    Follows S R (pure a : StateT σ (Except ε) α) (pure b) :=
  fun s _ hS => wp_pure.mpr ⟨a, s, rfl, h, hS⟩

protected theorem throw {e : ε} :
    Follows S R (throw e : StateT σ (Except ε) α) (throw e : StateT τ (Except ε) β) :=
  fun _ _ _ => wp_throw.mpr rfl

protected theorem bind {f' : α → StateT σ (Except ε) α'} {g' : β → StateT τ (Except ε) β'}
    (h : Follows S R f g) (h' : ∀ a b, R a b → Follows S R' (f' a) (g' b)) :
    Follows S R' (f >>= f') (g >>= g') := by
  intro s t hS
  rw [wp_bind]
  apply wp_mono (h s t hS)
  · rintro b t' ⟨a, s', hf, hR, hS'⟩
    have he : (f >>= f') s = f' a s' := by simp [bind, StateT.bind, hf, Except.bind]
    rw [he]
    exact h' a b hR s' t' hS'
  · intro e hf
    simp [bind, StateT.bind, hf, Except.bind]

/-- A value computed on the abstract side only. -/
protected theorem map {k : β → β'} {R' : α → β' → Prop}
    (h : Follows S (fun a b => R' a (k b)) f g) : Follows S R' f (k <$> g) :=
  fun s t hS => wp_map.mpr (h s t hS)

/-- The same where the abstract side returns it in a step of its own. -/
theorem bind_pure {k : β → β'} {R' : α → β' → Prop} (h : Follows S (fun a b => R' a (k b)) f g) :
    Follows S R' f (g >>= fun b => pure (k b)) := by
  intro s t hS
  rw [wp_bind]
  apply wp_mono (h s t hS)
  · intro b t' hb
    exact wp_pure.mpr hb
  · intro e he
    exact he

protected theorem ite {p : Prop} [Decidable p] {f' : StateT σ (Except ε) α}
    {g' : StateT τ (Except ε) β} (h : p → Follows S R f g) (h' : ¬ p → Follows S R f' g') :
    Follows S R (if p then f else f') (if p then g else g') := by
  by_cases hp : p
  · rw [if_pos hp, if_pos hp]
    exact h hp
  · rw [if_neg hp, if_neg hp]
    exact h' hp

theorem mono {R' : α → β → Prop} (h : Follows S R f g) (hR : ∀ a b, R a b → R' a b) :
    Follows S R' f g := by
  intro s t hS
  apply wp_mono (h s t hS)
  · rintro b t' ⟨a, s', hf, hab, hS'⟩
    exact ⟨a, s', hf, hR a b hab, hS'⟩
  · intro e he
    exact he

end Follows

end Xv6Cow

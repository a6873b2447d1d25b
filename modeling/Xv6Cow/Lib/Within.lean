import Mathlib.Order.Defs.Unbundled
import Xv6Cow.Lib.Wp

/-! # Commands that keep to a relation

`Within R c` says that `c` leaves a state that `R` relates to the one it started from, whatever it
returns.  For a preorder `R` only the primitive commands have to be looked at. -/

namespace Xv6Cow

variable {σ ε α β : Type} {R : σ → σ → Prop} {c d : StateT σ (Except ε) α}
    {f : α → StateT σ (Except ε) β}

/-- If `c` returns, it is in a state that `R` relates to the one before. -/
def Within (R : σ → σ → Prop) (c : StateT σ (Except ε) α) : Prop :=
  ∀ s, wp c (fun _ t => R s t) (fun _ => True) s

namespace Within

protected theorem throw (e : ε) : Within R (throw e : StateT σ (Except ε) α) :=
  fun _ => wp_throw.mpr trivial

protected theorem modify {g : σ → σ} (h : ∀ s, R s (g s)) :
    Within R (modify g : StateT σ (Except ε) PUnit) :=
  fun s => wp_modify.mpr (h s)

protected theorem ite {p : Prop} [Decidable p] (h : Within R c) (h' : Within R d) :
    Within R (if p then c else d) :=
  fun s => wp_ite.mpr ⟨fun _ => h s, fun _ => h' s⟩

variable [IsPreorder σ R]

protected theorem pure (a : α) : Within R (pure a : StateT σ (Except ε) α) :=
  fun s => wp_pure.mpr (refl_of R s)

protected theorem get : Within R (get : StateT σ (Except ε) σ) := fun s => wp_get.mpr (refl_of R s)

protected theorem bind (h : Within R c) (h' : ∀ a, Within R (f a)) : Within R (c >>= f) := by
  intro s
  rw [wp_bind]
  apply wp_mono (h s) _ (fun _ => id)
  intro a t ht
  exact wp_mono (h' a t) (fun _ _ hu => trans_of R ht hu) (fun _ => id)

end Within

end Xv6Cow

import Mathlib.Logic.Basic

/-! # Weakest preconditions of commands that may fail

A command is a state transformer that either returns a value and a new state or stops with an
error.  `wp c Q E s` says what `c` does from `s`: if it returns, `Q` holds of the value and the new
state; if it stops, `E` holds of the error.  With `E` everywhere false it is total correctness: the
command returns, and `Q` holds.

The rules below push `wp` through the constructors of a command, and `wp_mono` replaces a called
command by its specification.  `zoom` runs a command on a part of a larger state, and `embed` one
whose errors are only some of those of the larger program. -/

namespace Xv6Cow

variable {σ τ ε ε' α β : Type}

/-- What a command does from a state: `Q` of what it returns, `E` of the error it stops with. -/
def wp (c : StateT σ (Except ε) α) (Q : α → σ → Prop) (E : ε → Prop) (s : σ) : Prop :=
  match c s with
  | .ok (a, t) => Q a t
  | .error e => E e

variable {c : StateT σ (Except ε) α} {f : α → StateT σ (Except ε) β} {Q Q' : α → σ → Prop}
  {R : β → σ → Prop} {E E' : ε → Prop} {s t : σ} {a : α} {e : ε}

@[simp] theorem wp_pure : wp (pure a : StateT σ (Except ε) α) Q E s ↔ Q a s := Iff.rfl

@[simp] theorem wp_throw : wp (throw e : StateT σ (Except ε) α) Q E s ↔ E e := Iff.rfl

@[simp] theorem wp_get {Q : σ → σ → Prop} : wp (get : StateT σ (Except ε) σ) Q E s ↔ Q s s := Iff.rfl

@[simp] theorem wp_set {Q : PUnit → σ → Prop} :
    wp (set t : StateT σ (Except ε) PUnit) Q E s ↔ Q ⟨⟩ t := Iff.rfl

@[simp] theorem wp_modify {Q : PUnit → σ → Prop} {g : σ → σ} :
    wp (modify g : StateT σ (Except ε) PUnit) Q E s ↔ Q ⟨⟩ (g s) := Iff.rfl

@[simp] theorem wp_bind : wp (c >>= f) R E s ↔ wp c (fun a t => wp (f a) R E t) E s := by
  simp only [wp, bind, StateT.bind, Except.bind]
  cases c s <;> rfl

@[simp] theorem wp_map {g : α → β} : wp (g <$> c) R E s ↔ wp c (fun a t => R (g a) t) E s := by
  simp only [wp, Functor.map, StateT.map, bind, Except.bind, pure, Except.pure]
  cases c s <;> rfl

theorem wp_ite {p : Prop} [Decidable p] {d : StateT σ (Except ε) α} :
    wp (if p then c else d) Q E s ↔ (p → wp c Q E s) ∧ (¬ p → wp d Q E s) := by
  split
  · rename_i h
    exact ⟨fun hc => ⟨fun _ => hc, fun hn => absurd h hn⟩, fun hc => hc.1 h⟩
  · rename_i h
    exact ⟨fun hc => ⟨fun hp => absurd hp h, fun _ => hc⟩, fun hc => hc.2 h⟩

theorem wp_mono (h : wp c Q E s) (hQ : ∀ a t, Q a t → Q' a t) (hE : ∀ e, E e → E' e) : wp c Q' E' s := by
  unfold wp at *
  cases hc : c s with
  | ok r =>
      simp only [hc] at h
      exact hQ _ _ h
  | error e =>
      simp only [hc] at h
      exact hE _ h

/-- The rule of consequence for commands that return. -/
theorem wp_post (h : wp c Q (fun _ => False) s) (hQ : ∀ a t, Q a t → Q' a t) : wp c Q' E s :=
  wp_mono h hQ (fun _ => False.elim)

theorem wp_and (h : wp c Q E s) (h' : wp c Q' E s) : wp c (fun a t => Q a t ∧ Q' a t) E s := by
  unfold wp at *
  cases hc : c s with
  | ok r =>
      simp only [hc] at h h'
      exact ⟨h, h'⟩
  | error e =>
      simp only [hc] at h
      exact h

theorem wp_iff (h : ∀ a t, Q a t ↔ Q' a t) : wp c Q E s ↔ wp c Q' E s :=
  ⟨fun hc => wp_mono hc (fun a t => (h a t).mp) (fun _ => id),
    fun hc => wp_mono hc (fun a t => (h a t).mpr) (fun _ => id)⟩

/-- Two postconditions that agree where the command can end. -/
theorem wp_iff_of {P : α → σ → Prop} (hc : wp c P (fun _ => True) s)
    (h : ∀ a t, P a t → (Q a t ↔ Q' a t)) : wp c Q E s ↔ wp c Q' E s := by
  unfold wp at *
  cases hr : c s with
  | ok r =>
      simp only [hr] at hc
      exact h _ _ hc
  | error e => exact Iff.rfl

theorem wp_iff_of_ok (h : c s = .ok (a, t)) : wp c Q E s ↔ Q a t := by
  simp [wp, h]

theorem wp_congr {d : StateT σ (Except ε) α} (h : c s = d s) : wp c Q E s ↔ wp d Q E s := by
  simp [wp, h]

theorem wp_of_ok (h : c s = .ok (a, t)) (hQ : Q a t) : wp c Q E s := (wp_iff_of_ok h).mpr hQ

/-- A total specification yields the value and the state. -/
theorem wp_returns (h : wp c Q (fun _ => False) s) : ∃ a t, c s = .ok (a, t) ∧ Q a t := by
  unfold wp at h
  cases hc : c s with
  | ok r =>
      simp only [hc] at h
      exact ⟨r.1, r.2, rfl, h⟩
  | error e =>
      simp only [hc] at h

theorem wp_ok (h : wp c Q E s) (hc : c s = .ok (a, t)) : Q a t := by
  simpa [wp, hc] using h

theorem wp_error (h : wp c Q E s) (hc : c s = .error e) : E e := by
  simpa [wp, hc] using h

/-- A specification may say that what it speaks about is what the command returned. -/
theorem wp_run (h : wp c Q E s) : wp c (fun a t => c s = .ok (a, t) ∧ Q a t) E s := by
  unfold wp at *
  cases hc : c s with
  | ok r =>
      simp only [hc] at h
      exact ⟨rfl, h⟩
  | error e =>
      simp only [hc] at h
      exact h

/-- Run a command on the part `get t` of a larger state, and put the part it leaves back. -/
def zoom (get : τ → σ) (put : τ → σ → τ) (c : StateT σ (Except ε) α) : StateT τ (Except ε) α :=
  fun t => match c (get t) with
    | .ok (a, s) => .ok (a, put t s)
    | .error e => .error e

@[simp] theorem wp_zoom {get : τ → σ} {put : τ → σ → τ} {t : τ} {Q : α → τ → Prop} :
    wp (zoom get put c) Q E t ↔ wp c (fun a s => Q a (put t s)) E (get t) := by
  simp only [wp, zoom]
  cases c (get t) <;> rfl

/-- Run a command on the part `get t` of a larger state, as code of a program with more errors. -/
def embed (get : τ → σ) (put : τ → σ → τ) (err : ε → ε') (c : StateT σ (Except ε) α) :
    StateT τ (Except ε') α :=
  fun t => match c (get t) with
    | .ok (a, s) => .ok (a, put t s)
    | .error e => .error (err e)

@[simp] theorem wp_embed {get : τ → σ} {put : τ → σ → τ} {err : ε → ε'} {t : τ} {Q : α → τ → Prop}
    {E : ε' → Prop} : wp (embed get put err c) Q E t ↔
      wp c (fun a s => Q a (put t s)) (fun e => E (err e)) (get t) := by
  simp only [wp, embed]
  cases c (get t) <;> rfl

-- from here on a `wp` is only taken apart by the rules above
attribute [irreducible] wp

end Xv6Cow

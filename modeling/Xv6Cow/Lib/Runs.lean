import Mathlib.Data.List.Induction
import Mathlib.Data.Nat.Notation

/-! # Runs of a labelled transition function

A system is given by a partial step function `step : σ → ℓ → Option σ`: the label names the
action (who acts and with which arguments), `none` says that the action is not enabled in the
state.  `exec step s ls` performs the actions of `ls` in order.

`exec_induction` is the rule by which every invariant of a whole run is obtained from a fact about
one step; `exec_append` and `exec_cons` are how runs are taken apart and put together. -/

namespace Xv6Cow.Runs

variable {σ τ ℓ : Type*}

/-- Perform the actions of a list in order; `none` as soon as one of them is not enabled. -/
def exec (step : σ → ℓ → Option σ) (s : σ) : List ℓ → Option σ
  | [] => some s
  | l :: ls => (step s l).bind (fun t => exec step t ls)

variable {step : σ → ℓ → Option σ} {s t u : σ} {l : ℓ} {ls ls' : List ℓ}

@[simp] theorem exec_nil : exec step s [] = some s := rfl

theorem exec_cons : exec step s (l :: ls) = some u ↔ ∃ t, step s l = some t ∧
    exec step t ls = some u := by
  simp [exec, Option.bind_eq_some_iff]

theorem exec_append : exec step s (ls ++ ls') = some u ↔
    ∃ t, exec step s ls = some t ∧ exec step t ls' = some u := by
  induction ls generalizing s with
  | nil => simp
  | cons l ls ih =>
      simp only [List.cons_append, exec_cons, ih]
      constructor
      · rintro ⟨t, h1, v, h2, h3⟩
        exact ⟨v, ⟨t, h1, h2⟩, h3⟩
      · rintro ⟨v, ⟨t, h1, h2⟩, h3⟩
        exact ⟨t, h1, v, h2, h3⟩

theorem exec_concat : exec step s (ls ++ [l]) = some u ↔
    ∃ t, exec step s ls = some t ∧ step t l = some u := by
  simp [exec_append, exec_cons]

/-- **Invariant rule.**  What holds at the start of a run and is kept by each of its steps holds
at its end; the invariant may speak about the actions performed so far. -/
theorem exec_induction {P : List ℓ → σ → Prop} (h0 : P [] s)
    (hstep : ∀ ls t l u, exec step s ls = some t → P ls t → step t l = some u → P (ls ++ [l]) u) :
    ∀ {ls : List ℓ} {u : σ}, exec step s ls = some u → P ls u := by
  intro ls
  induction ls using List.reverseRecOn with
  | nil =>
      intro u h
      rw [exec_nil, Option.some.injEq] at h
      exact h ▸ h0
  | append_singleton ls l ih =>
      intro u h
      obtain ⟨t, h1, h2⟩ := exec_concat.mp h
      exact hstep ls t l u h1 (ih h1) h2

theorem exec_invariant {I : σ → Prop} (h0 : I s)
    (hstep : ∀ t l u, I t → step t l = some u → I u) {ls : List ℓ} {u : σ}
    (h : exec step s ls = some u) : I u :=
  exec_induction (P := fun _ t => I t) h0 (fun _ t l u _ hI hs => hstep t l u hI hs) h

/-- Every step of a run meets a condition on the state before it and the action. -/
def along (step : σ → ℓ → Option σ) (ok : σ → ℓ → Bool) (s : σ) : List ℓ → Bool
  | [] => true
  | l :: ls => ok s l && match step s l with
      | some t => along step ok t ls
      | none => true

theorem exec_along {I : σ → Prop} {ok : σ → ℓ → Bool}
    (hstep : ∀ t l u, I t → ok t l = true → step t l = some u → I u) : ∀ {ls : List ℓ} {s u : σ},
      I s → along step ok s ls = true → exec step s ls = some u → I u
  | [], s, u, h0, _, h => by
      cases h
      exact h0
  | l :: ls, s, u, h0, ha, h => by
      obtain ⟨t, ht, h⟩ := exec_cons.mp h
      simp only [along, ht, Bool.and_eq_true] at ha
      exact exec_along hstep (hstep s l t h0 ha.1 ht) ha.2 h

/-- The number of steps of a run that meet a condition on the state before them and the action. -/
def count (step : σ → ℓ → Option σ) (ok : σ → ℓ → Bool) (s : σ) : List ℓ → ℕ
  | [] => 0
  | l :: ls => (ok s l).toNat + match step s l with
      | some t => count step ok t ls
      | none => 0

/-- The invariant rule for a property of the state and of the number of steps that meet a
condition. -/
theorem exec_count {I : ℕ → σ → Prop} {c : σ → ℓ → Bool}
    (hstep : ∀ n t l u, I n t → step t l = some u → I (n + (c t l).toNat) u) :
    ∀ {ls : List ℓ} {n : ℕ} {s u : σ}, I n s → exec step s ls = some u → I (n + count step c s ls) u
  | [], n, s, u, h0, h => by
      cases h
      exact h0
  | l :: ls, n, s, u, h0, h => by
      obtain ⟨t, ht, h⟩ := exec_cons.mp h
      simp only [count, ht, ← Nat.add_assoc]
      exact exec_count hstep (hstep n s l t h0 ht) h

/-- A run made of `n` rounds that all do what the first of them does. -/
theorem exec_rounds {f : ℕ → σ} (hround : ∀ k, exec step (f k) ls = some (f (k + 1))) (n : ℕ) :
    exec step (f 0) (List.replicate n ls).flatten = some (f n) := by
  induction n with
  | zero => rfl
  | succ n ih =>
      rw [List.replicate_succ', List.flatten_append, exec_append]
      exact ⟨f n, ih, by simpa using hround n⟩

/-- The state after a run, or the first one if the run cannot be made. -/
def after (step : σ → ℓ → Option σ) (s : σ) (ls : List ℓ) : σ := (exec step s ls).getD s

theorem exec_after (step : σ → ℓ → Option σ) (s : σ) (ls : List ℓ) (h : (exec step s ls).isSome) :
    exec step s ls = some (after step s ls) := by
  obtain ⟨u, hu⟩ := Option.isSome_iff_exists.1 h
  simp [after, hu]

theorem exec_mono {step' : σ → ℓ → Option σ} (hle : ∀ s l t, step' s l = some t → step s l = some t) :
    ∀ {ls : List ℓ} {s u : σ}, exec step' s ls = some u → exec step s ls = some u
  | [], _, _, h => h
  | l :: ls, s, u, h => by
      obtain ⟨t, h1, h2⟩ := exec_cons.mp h
      exact exec_cons.mpr ⟨t, hle s l t h1, exec_mono hle h2⟩

end Xv6Cow.Runs

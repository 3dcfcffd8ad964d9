import Laconic.Lib.Checked

/-!
# Runs that refine a partial specification

`Run.Refines R x o`: the run `x` returns exactly when the specification `o` has a result, and then
the two results are related by `R`.
-/

namespace Run

variable {α α' β β' σ τ : Type}

inductive Refines (R : α → β → Prop) : Run α → Option β → Prop
  | returns {a : α} {b : β} : R a b → Refines R (.ok a) (some b)
  | stops {e : Fault} : Refines R (.error e) none

theorem refines_pure {R : α → β → Prop} {a : α} {b : β} (h : R a b) :
    Refines R (pure a) (pure b) := .returns h

theorem Refines.mono {R R' : α → β → Prop} {x : Run α} {o : Option β} (h : Refines R x o)
    (hR : ∀ a b, R a b → R' a b) : Refines R' x o := by
  cases h with
  | returns hab => exact .returns (hR _ _ hab)
  | stops => exact .stops

theorem Refines.bind {R : α → β → Prop} {R' : α' → β' → Prop} {x : Run α} {o : Option β}
    {f : α → Run α'} {g : β → Option β'} (h : Refines R x o)
    (hf : ∀ a b, R a b → Refines R' (f a) (g b)) : Refines R' (x >>= f) (o >>= g) := by
  cases h with
  | returns hab => exact hf _ _ hab
  | stops => exact .stops

/-- A run that returns has a result of the specification. -/
theorem Refines.of_ok {R : α → β → Prop} {o : Option β} {a : α} (h : Refines R (.ok a) o) :
    ∃ b, o = some b ∧ R a b := by
  cases h with
  | returns hab => exact ⟨_, rfl, hab⟩

/-- A specification with a result has a run that returns. -/
theorem Refines.of_some {R : α → β → Prop} {x : Run α} {b : β} (h : Refines R x (some b)) :
    ∃ a, x = .ok a ∧ R a b := by
  cases h with
  | returns hab => exact ⟨_, rfl, hab⟩

theorem refines_foldlM {ι : Type} {R : σ → τ → Prop} {f : σ → ι → Run σ} {g : τ → ι → Option τ}
    (hstep : ∀ i s t, R s t → Refines R (f s i) (g t i)) :
    ∀ (l : List ι) (s : σ) (t : τ), R s t → Refines R (l.foldlM f s) (l.foldlM g t) := by
  intro l
  induction l with
  | nil =>
    intro s t h
    exact refines_pure h
  | cons i l ih =>
    intro s t h
    rw [List.foldlM_cons, List.foldlM_cons]
    exact (hstep i s t h).bind ih

/-- A counting loop refines a fold over its counters. -/
theorem refines_forLoop {n : Nat} {R : Nat → σ → τ → Prop} {f : Int → σ → Run σ}
    {g : τ → Nat → Option τ}
    (hstep : ∀ i s t, i < n → R i s t → Refines (R (i + 1)) (f i s) (g t i)) :
    ∀ (k lo : Nat) (s : σ) (t : τ), lo + k = n → R lo s t →
      Refines (R n) (forLoop f k lo s) ((List.range' lo k).foldlM g t) := by
  intro k
  induction k with
  | zero =>
    intro lo s t hn h
    obtain rfl : lo = n := hn
    exact refines_pure h
  | succ k ih =>
    intro lo s t hn h
    rw [forLoop, List.range'_succ, List.foldlM_cons]
    refine (hstep lo s t (by omega) h).bind fun s' t' h' => ?_
    exact ih (lo + 1) s' t' (by omega) h'

end Run

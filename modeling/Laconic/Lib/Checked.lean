import Mathlib.Data.Int.Basic
import Mathlib.Data.List.Forall2
import Mathlib.Tactic.Common

/-!
# Checked runs

Programs over C arrays and machine integers are written in `Except Fault`: an access outside an
array, a signed overflow, a probe that finds no free cell and a loop that outlives its bound are
faults, never default values.  `Meets E x Q` is the postcondition judgement of such programs: `x`
returns a value with property `Q`, or stops with a fault that `E` admits.  The rules below push
the judgement through the monad and through the two loop forms.
-/

inductive Fault where
  /-- An array access outside the array. -/
  | bounds
  /-- A signed integer operation whose result does not fit its type. -/
  | overflow
  /-- A probe of an open-addressing table that never meets a cell to stop at. -/
  | probe
  /-- A loop that is still running when its bound is used up. -/
  | fuel
  deriving DecidableEq, Repr

abbrev Run (α : Type) : Type := Except Fault α

namespace Run

variable {α β σ : Type} {E : Fault → Prop}

@[simp] theorem ok_bind (a : α) (f : α → Run β) : (Except.ok a >>= f) = f a := rfl

@[simp] theorem error_bind (e : Fault) (f : α → Run β) :
    ((Except.error e : Run α) >>= f) = .error e := rfl

@[simp] theorem pure_bind (a : α) (f : α → Run β) : ((pure a : Run α) >>= f) = f a := rfl

theorem bind_eq_ok {x : Run α} {f : α → Run β} {b : β} :
    (x >>= f) = .ok b ↔ ∃ a, x = .ok a ∧ f a = .ok b := by
  cases x with
  | ok a => simp
  | error e => simp

/-- What follows a step may use how the step has ended. -/
theorem bind_congr_ok {x : Run α} {f g : α → Run β} (h : ∀ a, x = .ok a → f a = g a) :
    (x >>= f) = (x >>= g) := by
  cases x with
  | error e => rfl
  | ok a => exact h a rfl

/-- `x` returns a value satisfying `Q`, or stops with a fault that `E` admits. -/
def Meets (E : Fault → Prop) (x : Run α) (Q : α → Prop) : Prop :=
  match x with
  | .ok a => Q a
  | .error e => E e

@[simp] theorem meets_ok (a : α) (Q : α → Prop) : Meets E (.ok a) Q ↔ Q a := Iff.rfl

@[simp] theorem meets_pure (a : α) (Q : α → Prop) : Meets E (pure a) Q ↔ Q a := Iff.rfl

@[simp] theorem meets_error (e : Fault) (Q : α → Prop) :
    Meets E (.error e : Run α) Q ↔ E e := Iff.rfl

@[simp] theorem meets_throw (e : Fault) (Q : α → Prop) :
    Meets E (throw e : Run α) Q ↔ E e := Iff.rfl

@[simp] theorem meets_bind (x : Run α) (f : α → Run β) (Q : β → Prop) :
    Meets E (x >>= f) Q ↔ Meets E x (fun a => Meets E (f a) Q) := by
  cases x <;> rfl

@[simp] theorem meets_map (x : Run α) (f : α → β) (Q : β → Prop) :
    Meets E (f <$> x) Q ↔ Meets E x (fun a => Q (f a)) := by
  cases x <;> rfl

theorem meets_ite (c : Prop) [Decidable c] (x y : Run α) (Q : α → Prop) :
    Meets E (if c then x else y) Q ↔ (c → Meets E x Q) ∧ (¬ c → Meets E y Q) := by
  by_cases h : c <;> simp [h]

theorem Meets.mono {x : Run α} {Q Q' : α → Prop} (h : Meets E x Q) (hQ : ∀ a, Q a → Q' a) :
    Meets E x Q' := by
  cases x with
  | ok a => exact hQ a h
  | error e => exact h

theorem Meets.weaken {x : Run α} {Q : α → Prop} {E' : Fault → Prop} (h : Meets E x Q)
    (hE : ∀ e, E e → E' e) : Meets E' x Q := by
  cases x with
  | ok a => exact h
  | error e => exact hE e h

theorem Meets.bind {x : Run α} {f : α → Run β} {P : α → Prop} {Q : β → Prop} (h : Meets E x P)
    (hf : ∀ a, P a → Meets E (f a) Q) : Meets E (x >>= f) Q :=
  (meets_bind x f Q).mpr (h.mono hf)

/-- Every fault is admitted: only a returned value is of interest. -/
def AnyFault (_ : Fault) : Prop := True

theorem meets_any {x : Run α} {Q : α → Prop} (h : ∀ a, Q a) : Meets AnyFault x Q := by
  cases x with
  | ok a => exact h a
  | error e => exact trivial

/-- A step whose result does not matter. -/
theorem any_bind {x : Run α} {f : α → Run β} {Q : β → Prop} (h : ∀ a, Meets AnyFault (f a) Q) :
    Meets AnyFault (x >>= f) Q :=
  (meets_bind x f Q).mpr (meets_any h)

/-- A run that meets `Q` and whose admitted faults are excluded has a result. -/
theorem Meets.exists_ok {x : Run α} {Q : α → Prop} (h : Meets E x Q)
    (hx : ∀ e, E e → x ≠ .error e) : ∃ a, x = .ok a ∧ Q a := by
  cases x with
  | ok a => exact ⟨a, rfl, h⟩
  | error e => exact absurd rfl (hx e h)

/-- A result is the result of its run. -/
theorem Meets.with_run {x : Run α} {Q : α → Prop} (h : Meets E x Q) :
    Meets E x (fun a => x = .ok a ∧ Q a) := by
  cases x with
  | ok a => exact ⟨rfl, h⟩
  | error e => exact h

/-- What a returned value satisfies. -/
theorem Meets.of_ok {x : Run α} {Q : α → Prop} {a : α} (h : Meets E x Q) (hx : x = .ok a) :
    Q a := by
  subst hx
  exact h

/-- The results of a run for each element of a list. -/
theorem mapM_eq_ok {f : α → Run β} {l : List α} {bs : List β} :
    l.mapM f = .ok bs ↔ List.Forall₂ (fun a b => f a = .ok b) l bs := by
  induction l generalizing bs with
  | nil =>
    rw [List.mapM_nil, List.forall₂_nil_left_iff]
    constructor
    · intro h
      cases h
      rfl
    · rintro rfl
      rfl
  | cons a l ih =>
    rw [List.mapM_cons, bind_eq_ok, List.forall₂_cons_left_iff]
    refine exists_congr fun b => ?_
    rw [bind_eq_ok]
    constructor
    · rintro ⟨hb, bs', hbs, h⟩
      cases h
      exact ⟨bs', hb, ih.mp hbs, rfl⟩
    · rintro ⟨bs', hb, hbs, rfl⟩
      exact ⟨hb, bs', ih.mpr hbs, rfl⟩

/-- A run for each element that always returns. -/
theorem mapM_eq_map {f : α → Run β} {g : α → β} {l : List α} (h : ∀ a ∈ l, f a = .ok (g a)) :
    l.mapM f = .ok (l.map g) := by
  induction l with
  | nil => rfl
  | cons a l ih =>
    rw [List.mapM_cons, h a List.mem_cons_self, ok_bind,
      ih fun a ha => h a (List.mem_cons_of_mem _ ha), ok_bind, List.map_cons]
    rfl

/-- A run for each element that returns, with what is known of each result. -/
theorem exists_mapM {f : α → Run β} {P : α → β → Prop} {l : List α}
    (h : ∀ a ∈ l, ∃ b, f a = .ok b ∧ P a b) : ∃ bs, l.mapM f = .ok bs ∧ List.Forall₂ P l bs := by
  induction l with
  | nil => exact ⟨[], rfl, List.Forall₂.nil⟩
  | cons a l ih =>
    obtain ⟨b, hb, hP⟩ := h a List.mem_cons_self
    obtain ⟨bs, hbs, hall⟩ := ih fun a ha => h a (List.mem_cons_of_mem _ ha)
    exact ⟨b :: bs, by rw [List.mapM_cons, hb, ok_bind, hbs, ok_bind]; rfl,
      List.Forall₂.cons hP hall⟩

theorem meets_mapM {E : Fault → Prop} {f : α → Run β} {P : α → β → Prop} {l : List α}
    (h : ∀ a ∈ l, Meets E (f a) (P a)) : Meets E (l.mapM f) (List.Forall₂ P l) := by
  induction l with
  | nil => exact List.Forall₂.nil
  | cons a l ih =>
    rw [List.mapM_cons]
    apply (h a List.mem_cons_self).bind
    intro b hb
    apply (ih fun a ha => h a (List.mem_cons_of_mem _ ha)).bind
    intro bs hbs
    exact List.Forall₂.cons hb hbs

/-- The results of a run for each of the first `n` numbers. -/
theorem mapM_range {f : Nat → Run β} {n : Nat} {bs : List β} (h : (List.range n).mapM f = .ok bs) :
    bs.length = n ∧ ∀ i b, bs[i]? = some b → f i = .ok b := by
  obtain ⟨hlen, hget⟩ := List.forall₂_iff_get.mp (mapM_eq_ok.mp h)
  rw [List.length_range] at hlen
  refine ⟨hlen.symm, fun i b hb => ?_⟩
  obtain ⟨hi, rfl⟩ := List.getElem?_eq_some_iff.mp hb
  have hrun := hget i (by rw [List.length_range]; omega) hi
  rwa [List.get_eq_getElem, List.get_eq_getElem, List.getElem_range] at hrun

/-- `for (i = lo; i < lo + n; i++) s = body(i, s)`. -/
def forLoop (body : Int → σ → Run σ) : Nat → Int → σ → Run σ
  | 0, _, s => pure s
  | n + 1, i, s => body i s >>= forLoop body n (i + 1)

/-- The invariant rule of `forLoop`. -/
theorem meets_forLoop {body : Int → σ → Run σ} (Inv : Int → σ → Prop) (hi : Int)
    (hstep : ∀ i s, i < hi → Inv i s → Meets E (body i s) (Inv (i + 1))) :
    ∀ (n : Nat) (lo : Int) (s : σ), lo + n = hi → Inv lo s →
      Meets E (forLoop body n lo s) (Inv hi) := by
  intro n
  -- on the number of rounds left, from the first index on
  induction n with
  | zero =>
    intro lo s hlo hs
    have : lo = hi := by omega
    subst this
    exact hs
  | succ n ih =>
    intro lo s hlo hs
    rw [forLoop, meets_bind]
    refine (hstep lo s (by omega) hs).mono fun s' hs' => ?_
    exact ih (lo + 1) s' (by omega) hs'

/-- A loop over indices as one over a list. -/
theorem forLoop_eq_foldlM (body : Int → σ → Run σ) (n : Nat) (lo : Int) (s : σ) :
    forLoop body n lo s =
      ((List.range n).map fun i : Nat => lo + i).foldlM (fun s i => body i s) s := by
  induction n generalizing lo s with
  | zero => rfl
  | succ n ih =>
    rw [forLoop, List.range_succ_eq_map, List.map_cons, List.map_map, List.foldlM_cons]
    have hindex : ((fun i : Nat => lo + (i : Int)) ∘ Nat.succ) = fun i : Nat => lo + 1 + (i : Int) := by
      funext i
      show lo + ((i + 1 : Nat) : Int) = lo + 1 + (i : Int)
      omega
    rw [hindex, show lo + ((0 : Nat) : Int) = lo by omega]
    exact congrArg _ (funext fun s' => ih (lo + 1) s')

/-- A loop whose rounds return what those of another loop return does as well. -/
theorem forLoop_ok_mono {body body' : Int → σ → Run σ}
    (h : ∀ i s s', body i s = .ok s' → body' i s = .ok s') :
    ∀ (n : Nat) (lo : Int) (s s' : σ), forLoop body n lo s = .ok s' →
      forLoop body' n lo s = .ok s' := by
  intro n
  induction n with
  | zero =>
    intro lo s s' hs
    exact hs
  | succ n ih =>
    intro lo s s' hs
    rw [forLoop] at hs ⊢
    -- the first round has returned, or the whole loop would not have
    cases hb : body lo s with
    | error e =>
      rw [hb] at hs
      cases hs
    | ok s₁ =>
      rw [hb, ok_bind] at hs
      rw [h lo s s₁ hb, ok_bind]
      exact ih (lo + 1) s₁ s' hs

/-- The invariant rule of a loop over the elements of a list; `Inv` sees what is left of it. -/
theorem meets_foldlM {body : σ → α → Run σ} (Inv : List α → σ → Prop)
    (hstep : ∀ a l s, Inv (a :: l) s → Meets E (body s a) (Inv l)) :
    ∀ (l : List α) (s : σ), Inv l s → Meets E (l.foldlM body s) (Inv []) := by
  intro l
  induction l with
  | nil =>
    intro s hs
    exact hs
  | cons a l ih =>
    intro s hs
    rw [List.foldlM_cons, meets_bind]
    exact (hstep a l s hs).mono fun s' hs' => ih s' hs'

/-- A loop that follows another one on part of its state. -/
theorem meets_foldlM_of_ok {τ : Type} {f : σ → α → Run σ}
    {g : τ → α → Run τ} {R : τ → σ → Prop}
    (hstep : ∀ a s s' t, R t s → f s a = .ok s' → Meets E (g t a) (R · s')) :
    ∀ (l : List α) (s s' : σ) (t : τ), R t s → l.foldlM f s = .ok s' →
      Meets E (l.foldlM g t) (R · s') := by
  intro l
  induction l with
  | nil =>
    intro s s' t ht hrun
    cases hrun
    exact ht
  | cons a l ih =>
    intro s s' t ht hrun
    rw [List.foldlM_cons] at hrun
    obtain ⟨s₁, h₁, h₂⟩ := bind_eq_ok.mp hrun
    rw [List.foldlM_cons, meets_bind]
    exact (hstep a s s₁ t ht h₁).mono fun t₁ ht₁ => ih s₁ s' t₁ ht₁ h₂

/-- `while (cond(s)) s = body(s)`, cut off with `Fault.fuel` after `n` tests. -/
def whileLoop (cond : σ → Run Bool) (body : σ → Run σ) : Nat → σ → Run σ
  | 0, _ => throw .fuel
  | n + 1, s => do
    let b ← cond s
    if b then body s >>= whileLoop cond body n else pure s

/-- The invariant rule of `whileLoop`: the measure `μ` decreases with every round, so a bound
above its initial value is never used up. -/
theorem meets_whileLoop (cond : σ → Run Bool) (body : σ → Run σ) (Inv Q : σ → Prop)
    (μ : σ → Nat)
    (hstep : ∀ s, Inv s → Meets E (cond s) (fun b =>
      (b = true → Meets E (body s) (fun s' => Inv s' ∧ μ s' < μ s)) ∧ (b = false → Q s))) :
    ∀ (n : Nat) (s : σ), μ s < n → Inv s → Meets E (whileLoop cond body n s) Q := by
  intro n
  -- the bound is above the measure, so it is positive whenever the test is made
  induction n with
  | zero => intro s hn _; omega
  | succ n ih =>
    intro s hn hs
    rw [whileLoop, meets_bind]
    refine (hstep s hs).mono fun b hb => ?_
    cases b with
    | false => exact hb.2 rfl
    | true =>
      simp only [↓reduceIte, meets_bind]
      refine (hb.1 rfl).mono fun s' hs' => ?_
      exact ih s' (by omega) hs'.1

/-- What every round of a loop keeps, the loop keeps. -/
theorem any_whileLoop {cond : σ → Run Bool} {body : σ → Run σ} (Inv : σ → Prop)
    (hstep : ∀ s, Inv s → Meets AnyFault (body s) Inv) :
    ∀ (n : Nat) (s : σ), Inv s → Meets AnyFault (whileLoop cond body n s) Inv := by
  intro n
  induction n with
  | zero =>
    intro s _
    exact trivial
  | succ n ih =>
    intro s hs
    rw [whileLoop]
    refine any_bind fun b => ?_
    split
    · exact (hstep s hs).bind fun s' hs' => ih s' hs'
    · exact hs

/-- A loop that returns has kept its invariant and ends where the test fails. -/
theorem whileLoop_ok {cond : σ → Run Bool} {body : σ → Run σ} (Inv : σ → Prop)
    (hstep : ∀ s s', Inv s → cond s = .ok true → body s = .ok s' → Inv s') :
    ∀ (n : Nat) (s t : σ), Inv s → whileLoop cond body n s = .ok t →
      Inv t ∧ cond t = .ok false := by
  intro n
  -- a loop without bound returns nothing; otherwise the first test decides
  induction n with
  | zero =>
    intro s t _ hrun
    cases hrun
  | succ n ih =>
    intro s t hs hrun
    rw [whileLoop] at hrun
    cases hc : cond s with
    | error e =>
      rw [hc] at hrun
      cases hrun
    | ok b =>
      rw [hc, ok_bind] at hrun
      cases b with
      | false =>
        cases hrun
        exact ⟨hs, hc⟩
      | true =>
        rw [if_pos rfl] at hrun
        cases hb : body s with
        | error e =>
          rw [hb] at hrun
          cases hrun
        | ok s' =>
          rw [hb, ok_bind] at hrun
          exact ih s' t (hstep s s' hs hc hb) hrun

/-- Two loops that agree as long as an invariant holds. -/
theorem whileLoop_congr {cond : σ → Run Bool} {body body' : σ → Run σ} (Inv : σ → Prop)
    (h : ∀ s, Inv s → cond s = .ok true → body s = body' s)
    (hkeep : ∀ s s', Inv s → cond s = .ok true → body' s = .ok s' → Inv s') :
    ∀ (n : Nat) (s : σ), Inv s → whileLoop cond body n s = whileLoop cond body' n s := by
  intro n
  induction n with
  | zero =>
    intro s _
    rfl
  | succ n ih =>
    intro s hs
    rw [whileLoop, whileLoop]
    apply bind_congr_ok
    intro b hb
    cases b with
    | false => rfl
    | true =>
      rw [if_pos rfl, if_pos rfl, h s hs hb]
      apply bind_congr_ok
      intro s' hs'
      exact ih s' (hkeep s s' hs hb hs')

/-- Two loops that agree as long as an invariant holds. -/
theorem forLoop_congr {body body' : Int → σ → Run σ} (Inv : Int → σ → Prop) (hi : Int)
    (h : ∀ i s, i < hi → Inv i s → body i s = body' i s)
    (hkeep : ∀ i s s', i < hi → Inv i s → body' i s = .ok s' → Inv (i + 1) s') :
    ∀ (n : Nat) (lo : Int) (s : σ), lo + n = hi → Inv lo s →
      forLoop body n lo s = forLoop body' n lo s := by
  intro n
  induction n with
  | zero =>
    intro lo s _ _
    rfl
  | succ n ih =>
    intro lo s hn hs
    rw [forLoop, forLoop, h lo s (by omega) hs]
    apply bind_congr_ok
    intro s' hs'
    exact ih (lo + 1) s' (by omega) (hkeep lo s s' (by omega) hs hs')

end Run

import Mathlib.Algebra.BigOperators.Group.Finset.Piecewise
import Mathlib.Algebra.Order.BigOperators.Group.Finset
import Mathlib.Data.Fintype.BigOperators
import Mathlib.Logic.Function.Basic
import Laconic.Lib.Checked

/-!
# Threads that share a state

A program is a tree of atomic actions on a shared state.  Threads act one after the other in any order,
so a run is a sequence of actions, each one of some thread.  A thread sees a part of the state, its
view; if no thread changes what another one sees, then in every run each thread returns what it returns
alone, and leaves what it sees as it leaves it alone.
-/

namespace Threads

/-- A program that acts on a state `σ` and returns a value. -/
inductive Prog (σ α : Type) where
  | done (a : α)
  /-- The state is changed to `upd s`; what comes next depends on the state before, `s`. -/
  | act (upd : σ → σ) (next : σ → Prog σ α)

namespace Prog

variable {σ τ α β : Type}

def bind : Prog σ α → (α → Prog σ β) → Prog σ β
  | done a, f => f a
  | act u n, f => act u fun s => (n s).bind f

instance : Monad (Prog σ) where
  pure := done
  bind := bind

/-- One action that changes the state and returns a value. -/
def atomic (f : σ → σ × α) : Prog σ α := act (fun s => (f s).1) fun s => done (f s).2

end Prog

/-! ## Runs of threads -/

section Runs

variable {ι σ τ α : Type} [DecidableEq ι]

/-- The shared state, and what the threads have left to do. -/
abbrev Config (ι σ α : Type) := σ × (ι → Prog σ α)

/-- Some thread acts. -/
inductive Step : Config ι σ α → Config ι σ α → Prop
  | act {s : σ} {p : ι → Prog σ α} (i : ι) {u : σ → σ} {n : σ → Prog σ α} (h : p i = .act u n) :
      Step (s, p) (u s, Function.update p i (n s))

/-- A run of `n` actions. -/
inductive Steps : Nat → Config ι σ α → Config ι σ α → Prop
  | refl {c : Config ι σ α} : Steps 0 c c
  | tail {n : Nat} {c c' c'' : Config ι σ α} : Steps n c c' → Step c' c'' → Steps (n + 1) c c''

/-- There is a run in which all threads return, and `s` is left. -/
def Returns (c : Config ι σ α) (s : σ) (out : ι → α) : Prop :=
  ∃ n, Steps n c (s, fun i => .done (out i))

/-- Whatever the order, all threads return, after the same number of actions and with the same
outcome. -/
def Settles (c : Config ι σ α) (s : σ) (out : ι → α) : Prop :=
  ∃ total, ∀ n c', Steps n c c' → n ≤ total ∧ (n < total → ∃ c'', Step c' c'') ∧
    (n = total → c' = (s, fun i => .done (out i)))

theorem not_step_done {s : σ} {out : ι → α} {c : Config ι σ α} :
    ¬ Step (s, fun i => .done (out i)) c := by
  intro h
  cases h with
  | act i h => cases h

/-- Threads that settle have the one outcome. -/
theorem Settles.returns_iff {c : Config ι σ α} {s s' : σ} {out out' : ι → α}
    (h : Settles c s out) : Returns c s' out' ↔ s' = s ∧ out' = out := by
  obtain ⟨total, htotal⟩ := h
  constructor
  · rintro ⟨n, hn⟩
    obtain ⟨hle, hgo, hend⟩ := htotal n _ hn
    have heq : n = total := by
      by_contra hne
      obtain ⟨c', hc'⟩ := hgo (by omega)
      exact not_step_done hc'
    have hsame := hend heq
    refine ⟨congrArg Prod.fst hsame, funext fun i => ?_⟩
    exact Prog.done.inj (congrFun (congrArg Prod.snd hsame) i)
  · rintro ⟨rfl, rfl⟩
    -- a run can be made as long as all of them
    have hrun : ∀ n, n ≤ total → ∃ c', Steps n c c' := by
      intro n
      induction n with
      | zero => exact fun _ => ⟨c, .refl⟩
      | succ n ih =>
        intro hn
        obtain ⟨c', hc'⟩ := ih (by omega)
        obtain ⟨c'', hc''⟩ := (htotal n c' hc').2.1 (by omega)
        exact ⟨c'', hc'.tail hc''⟩
    obtain ⟨c', hc'⟩ := hrun total le_rfl
    have hdone := (htotal total c' hc').2.2 rfl
    exact ⟨total, hdone ▸ hc'⟩

end Runs

/-! ## A thread on its own -/

section Alone

variable {σ τ α β : Type} {view : σ → τ} {keeps : σ → σ → Prop}

/-- Seeing `t`, the program returns `a` after `k` actions and then sees `t'`, whatever the rest of the
state is; every action does `keeps` something. -/
inductive Alone (view : σ → τ) (keeps : σ → σ → Prop) :
    Nat → Prog σ α → τ → α → τ → Prop
  | done {a : α} {t : τ} : Alone view keeps 0 (.done a) t a t
  | act {k : Nat} {u : σ → σ} {n : σ → Prog σ α} {p : Prog σ α} {a : α} {t t₁ t₂ : τ}
      (h : ∀ s, view s = t → view (u s) = t₁ ∧ n s = p ∧ keeps s (u s))
      (hp : Alone view keeps k p t₁ a t₂) : Alone view keeps (k + 1) (.act u n) t a t₂

theorem Alone.of_done {k : Nat} {a b : α} {t t' : τ}
    (h : Alone view keeps k (.done b : Prog σ α) t a t') : k = 0 ∧ b = a ∧ t = t' := by
  cases h with
  | done => exact ⟨rfl, rfl, rfl⟩

theorem Alone.of_act {k : Nat} {u : σ → σ} {n : σ → Prog σ α} {a : α} {t t' : τ}
    (h : Alone view keeps k (.act u n) t a t') : ∃ m, k = m + 1 ∧ ∀ s, view s = t →
      keeps s (u s) ∧ Alone view keeps m (n s) (view (u s)) a t' := by
  cases h with
  | @act m _ _ p _ _ t₁ _ hact hp =>
    refine ⟨m, rfl, fun s hs => ?_⟩
    obtain ⟨hv, hn, hk⟩ := hact s hs
    rw [hv, hn]
    exact ⟨hk, hp⟩

theorem Alone.bind {k m : Nat} {p : Prog σ α} {f : α → Prog σ β} {a : α} {b : β} {t t₁ t₂ : τ}
    (hp : Alone view keeps k p t a t₁) (hf : Alone view keeps m (f a) t₁ b t₂) :
    Alone view keeps (k + m) (p.bind f) t b t₂ := by
  induction hp with
  | done =>
    rw [Nat.zero_add]
    exact hf
  | act h _ ih =>
    rw [Nat.add_right_comm]
    refine .act (fun s hs => ?_) (ih hf)
    obtain ⟨hv, hn, hk⟩ := h s hs
    exact ⟨hv, congrArg (Prog.bind · f) hn, hk⟩

theorem Alone.atomic {f : σ → σ × α} {a : α} {t t' : τ}
    (h : ∀ s, view s = t → view (f s).1 = t' ∧ (f s).2 = a ∧ keeps s (f s).1) :
    Alone view keeps 1 (Prog.atomic f) t a t' := by
  refine .act (fun s hs => ?_) .done
  obtain ⟨hv, ha, hk⟩ := h s hs
  exact ⟨hv, congrArg Prog.done ha, hk⟩

theorem Alone.mono {keeps' : σ → σ → Prop} {k : Nat} {p : Prog σ α} {a : α} {t t' : τ}
    (h : Alone view keeps k p t a t') (hk : ∀ s s', keeps s s' → keeps' s s') :
    Alone view keeps' k p t a t' := by
  induction h with
  | done => exact .done
  | act hact _ ih =>
    refine .act (fun s hs => ?_) ih
    obtain ⟨hv, hn, hkeeps⟩ := hact s hs
    exact ⟨hv, hn, hk _ _ hkeeps⟩

end Alone

/-! ## Threads that do not disturb each other -/

section Isolated

variable {ι σ τ α : Type} [DecidableEq ι] {view : ι → σ → τ} {k : ι → Nat} {a : ι → α} {t : ι → τ}

/-- What thread `i` leaves as it is: what the others see. -/
def Keeps (view : ι → σ → τ) (i : ι) (s s' : σ) : Prop := ∀ j, j ≠ i → view j s' = view j s

/-- Every thread has `k i` actions left, and will return `a i`, seeing `t i`. -/
def Isolated (view : ι → σ → τ) (k : ι → Nat) (a : ι → α) (t : ι → τ) (c : Config ι σ α) : Prop :=
  ∀ i, Alone (view i) (Keeps view i) (k i) (c.2 i) (view i c.1) (a i) (t i)

/-- An action is one of those that are left. -/
theorem Isolated.step {c c' : Config ι σ α} (h : Isolated view k a t c) (hs : Step c c') :
    ∃ i m, k i = m + 1 ∧ Isolated view (Function.update k i m) a t c' := by
  cases hs with
  | @act s p i u n hi =>
    have halone : Alone (view i) (Keeps view i) (k i) (p i) (view i s) (a i) (t i) := h i
    rw [hi] at halone
    obtain ⟨m, hm, hact⟩ := halone.of_act
    obtain ⟨hkeeps, hnext⟩ := hact s rfl
    refine ⟨i, m, hm, fun j => ?_⟩
    show Alone (view j) (Keeps view j) (Function.update k i m j) (Function.update p i (n s) j)
      (view j (u s)) (a j) (t j)
    by_cases hj : j = i
    · subst hj
      rw [Function.update_self, Function.update_self]
      exact hnext
    · rw [Function.update_of_ne hj, Function.update_of_ne hj, hkeeps j hj]
      exact h j

omit [DecidableEq ι] in
/-- A thread that has returned has returned its result, and sees what it saw then. -/
theorem Isolated.result {c : Config ι σ α} (h : Isolated view k a t c) {i : ι} {b : α}
    (hb : c.2 i = .done b) : k i = 0 ∧ b = a i ∧ view i c.1 = t i := by
  have hi := h i
  rw [hb] at hi
  exact hi.of_done

variable [Fintype ι]

theorem Isolated.steps {n : Nat} {c c' : Config ι σ α} (h : Isolated view k a t c)
    (hs : Steps n c c') : ∃ m : ι → Nat, n + ∑ i, m i = ∑ i, k i ∧ Isolated view m a t c' := by
  induction hs with
  | refl => exact ⟨k, Nat.zero_add _, h⟩
  | tail _ hstep ih =>
    obtain ⟨m, hsum, hm⟩ := ih h
    obtain ⟨i, l, hi, hl⟩ := hm.step hstep
    refine ⟨Function.update m i l, ?_, hl⟩
    rw [Finset.sum_update_of_mem (Finset.mem_univ i)]
    have hsplit := Finset.sum_erase_add (Finset.univ) m (Finset.mem_univ i)
    rw [← Finset.sdiff_singleton_eq_erase] at hsplit
    omega

/-- Threads that do not disturb each other settle; each returns its own result. -/
theorem Isolated.settles {s : σ} {c : Config ι σ α} (h : Isolated view k a t c)
    (hs : ∀ s', (∀ i, view i s' = t i) → s' = s) : Settles c s a := by
  refine ⟨∑ i, k i, fun n c' hrun => ?_⟩
  obtain ⟨m, hsum, hm⟩ := h.steps hrun
  refine ⟨by omega, fun hlt => ?_, fun heq => ?_⟩
  · -- some thread has an action left
    obtain ⟨i, -, hi⟩ := Finset.exists_ne_zero_of_sum_ne_zero (show ∑ i, m i ≠ 0 by omega)
    cases hp : c'.2 i with
    | done b => exact absurd (hm.result hp).1 hi
    | act u n => exact ⟨_, .act i hp⟩
  · have hdone : ∀ i, c'.2 i = .done (a i) ∧ view i c'.1 = t i := by
      intro i
      have hzero : m i = 0 := by
        have hle := Finset.single_le_sum (f := m) (fun _ _ => Nat.zero_le _) (Finset.mem_univ i)
        omega
      cases hp : c'.2 i with
      | done b =>
        obtain ⟨-, hb, hv⟩ := hm.result hp
        exact ⟨by rw [hb], hv⟩
      | act u n =>
        have halone := hm i
        rw [hp] at halone
        obtain ⟨l, hl, -⟩ := halone.of_act
        omega
    exact Prod.ext (hs _ fun i => (hdone i).2) (funext fun i => (hdone i).1)

end Isolated

/-! ## Programs that only read -/

section Reads

variable {ι σ α β : Type} [DecidableEq ι] {t : σ}

/-- Programs whose threads may fault. -/
abbrev Act (σ α : Type) := ExceptT Fault (Prog σ) α

/-- What a thread does with its own data. -/
def own (r : Run α) : Act σ α := ExceptT.mk (.done r)

def forLoop (body : Int → α → Act σ α) : Nat → Int → α → Act σ α
  | 0, _, x => pure x
  | n + 1, i, x => body i x >>= forLoop body n (i + 1)

def whileLoop (cond : α → Run Bool) (body : α → Act σ α) : Nat → α → Act σ α
  | 0, _ => own (.error .fuel)
  | n + 1, x => do
    let b ← own (cond x)
    if b then body x >>= whileLoop cond body n else pure x

/-- On the state `t` the program does what the run `r` does, and writes nothing. -/
def Reads (t : σ) (p : Act σ α) (r : Run α) : Prop :=
  ∃ k, Alone id (fun s s' => s' = s) k p.run t r t

theorem reads_own (r : Run α) : Reads t (own r) r := ⟨0, .done⟩

theorem reads_pure (a : α) : Reads t (pure a : Act σ α) (pure a) := ⟨0, .done⟩

theorem reads_atomic {f : σ → σ × α} {a : α} (h : f t = (t, a)) :
    Reads t (ExceptT.lift (Prog.atomic f)) (.ok a) := by
  have hf : ∀ s, id s = t → id (f s).1 = t ∧ (f s).2 = a ∧ (f s).1 = s := by
    rintro s rfl
    rw [show f s = (s, a) from h]
    exact ⟨rfl, rfl, rfl⟩
  exact ⟨_, (Alone.atomic hf).bind .done⟩

theorem Reads.bind_ok {p : Act σ α} {a : α} {f : α → Act σ β} {r : Run β}
    (hp : Reads t p (.ok a)) (hf : Reads t (f a) r) : Reads t (p >>= f) r := by
  obtain ⟨k, hk⟩ := hp
  obtain ⟨m, hm⟩ := hf
  exact ⟨k + m, hk.bind (f := ExceptT.bindCont f) hm⟩

theorem Reads.bind {p : Act σ α} {r : Run α} {f : α → Act σ β} {g : α → Run β}
    (hp : Reads t p r) (hf : ∀ a, Reads t (f a) (g a)) : Reads t (p >>= f) (r >>= g) := by
  cases r with
  | error e =>
    obtain ⟨k, hk⟩ := hp
    exact ⟨k + 0, hk.bind (f := ExceptT.bindCont f) .done⟩
  | ok a => exact hp.bind_ok (hf a)

theorem reads_ite {c : Prop} [Decidable c] {p q : Act σ α} {r r' : Run α}
    (hp : Reads t p r) (hq : Reads t q r') :
    Reads t (if c then p else q) (if c then r else r') := by
  split
  · exact hp
  · exact hq

theorem reads_forLoop {body : Int → α → Act σ α} {body' : Int → α → Run α}
    (h : ∀ i x, Reads t (body i x) (body' i x)) (n : Nat) (lo : Int) (x : α) :
    Reads t (forLoop body n lo x) (Run.forLoop body' n lo x) := by
  induction n generalizing lo x with
  | zero => exact reads_pure x
  | succ n ih => exact (h lo x).bind fun y => ih (lo + 1) y

theorem reads_whileLoop {cond : α → Run Bool} {body : α → Act σ α} {body' : α → Run α}
    (h : ∀ x, Reads t (body x) (body' x)) (n : Nat) (x : α) :
    Reads t (whileLoop cond body n x) (Run.whileLoop cond body' n x) := by
  induction n generalizing x with
  | zero => exact reads_own _
  | succ n ih =>
    refine (reads_own (cond x)).bind fun b => ?_
    exact reads_ite ((h x).bind fun y => ih y) (reads_pure x)

/-- Threads that only read settle, and leave the state as it is. -/
theorem reads_settles [Fintype ι] [Nonempty ι] {p : ι → Act σ α} {r : ι → Run α}
    (h : ∀ i, Reads t (p i) (r i)) : Settles (t, fun i => (p i).run) t r := by
  choose k hk using h
  have hiso : Isolated (fun _ : ι => id) k r (fun _ => t) (t, fun i => (p i).run) := by
    intro i
    refine (hk i).mono fun s s' hs j _ => ?_
    rw [hs]
  exact hiso.settles fun s' hs' => hs' (Classical.arbitrary ι)

/-- At all times the state is as it was, and the threads that have returned have their results. -/
theorem reads_steps {p : ι → Act σ α} {r : ι → Run α} (h : ∀ i, Reads t (p i) (r i)) {n : Nat}
    {c : Config ι σ (Except Fault α)} (hs : Steps n (t, fun i => (p i).run) c) :
    c.1 = t ∧ ∀ i b, c.2 i = .done b → b = r i := by
  have hinv : c.1 = t ∧ ∀ i, ∃ k, Alone id (fun s s' => s' = s) k (c.2 i) t (r i) t := by
    generalize hc : (t, fun i => (p i).run) = c₀ at hs
    induction hs with
    | refl =>
      subst hc
      exact ⟨rfl, h⟩
    | tail _ hstep ih =>
      obtain ⟨ht, hread⟩ := ih hc
      cases hstep with
      | @act s q i u next hi =>
        obtain rfl : s = t := ht
        obtain ⟨k, hk⟩ := hread i
        have hk' : Alone id (fun s s' => s' = s) k (.act u next) s (r i) s := hi ▸ hk
        obtain ⟨m, -, hact⟩ := hk'.of_act
        obtain ⟨hsame, hnext⟩ := hact s rfl
        refine ⟨hsame, fun j => ?_⟩
        show ∃ k, Alone id (fun s s' => s' = s) k (Function.update q i (next s) j) s (r j) s
        by_cases hj : j = i
        · subst hj
          rw [Function.update_self]
          rw [hsame] at hnext
          exact ⟨m, hnext⟩
        · rw [Function.update_of_ne hj]
          exact hread j
  refine ⟨hinv.1, fun i b hb => ?_⟩
  obtain ⟨k, hk⟩ := hinv.2 i
  rw [hb] at hk
  exact hk.of_done.2.1

end Reads

end Threads

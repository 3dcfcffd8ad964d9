import Mathlib.Data.List.Nodup
import Mathlib.Logic.Function.Basic

/-!
# Neighbours in a list without repetition

`Adj l x y`: `y` comes right after `x` in `l`.  `next? l x` finds that `y`.  The lemmas split both
at an element and say what taking out one element does to them.
-/

namespace Neighbour

variable {α : Type} {l l₁ l₂ : List α} {p q r x y z : α}

def Adj : List α → α → α → Prop
  | p :: q :: l, x, y => (x = p ∧ y = q) ∨ Adj (q :: l) x y
  | _, _, _ => False

@[simp] theorem adj_nil : ¬ Adj [] x y := fun h => h

@[simp] theorem adj_singleton : ¬ Adj [p] x y := fun h => h

@[simp] theorem adj_cons_cons : Adj (p :: q :: l) x y ↔ (x = p ∧ y = q) ∨ Adj (q :: l) x y := Iff.rfl

/-- Neighbours in a joined list lie on one side of the element where the parts meet. -/
theorem adj_append (l₁ l₂ : List α) (p : α) :
    Adj (l₁ ++ p :: l₂) x y ↔ Adj (l₁ ++ [p]) x y ∨ Adj (p :: l₂) x y := by
  induction l₁ with
  | nil => simp
  | cons a l₁ ih =>
    cases l₁ with
    | nil => simp
    | cons b l₁ =>
      simp only [List.cons_append, adj_cons_cons] at ih ⊢
      rw [ih, or_assoc]

theorem Adj.left_mem (h : Adj l x y) : x ∈ l := by
  induction l with
  | nil => exact h.elim
  | cons p l ih =>
    cases l with
    | nil => exact h.elim
    | cons q l =>
      rcases h with ⟨rfl, -⟩ | h
      · exact List.mem_cons_self
      · exact List.mem_cons_of_mem _ (ih h)

theorem Adj.right_mem_tail (h : Adj l x y) : y ∈ l.tail := by
  induction l with
  | nil => exact h.elim
  | cons p l ih =>
    cases l with
    | nil => exact h.elim
    | cons q l =>
      rcases h with ⟨-, rfl⟩ | h
      · exact List.mem_cons_self
      · exact List.mem_cons_of_mem _ (ih h)

theorem Adj.right_mem (h : Adj l x y) : y ∈ l := List.mem_of_mem_tail h.right_mem_tail

/-- Neighbours are next to each other. -/
theorem adj_iff_exists : Adj l x y ↔ ∃ l₁ l₂, l = l₁ ++ x :: y :: l₂ := by
  constructor
  · intro h
    induction l with
    | nil => exact h.elim
    | cons p l ih =>
      cases l with
      | nil => exact h.elim
      | cons q l =>
        rcases h with ⟨rfl, rfl⟩ | h
        · exact ⟨[], l, rfl⟩
        · obtain ⟨l₁, l₂, he⟩ := ih h
          exact ⟨p :: l₁, l₂, by rw [he, List.cons_append]⟩
  · rintro ⟨l₁, l₂, rfl⟩
    exact (adj_append l₁ (y :: l₂) x).mpr (Or.inr (Or.inl ⟨rfl, rfl⟩))

/-- Neighbours by their places in the list. -/
theorem adj_iff_getElem? : Adj l x y ↔ ∃ k : Nat, l[k]? = some x ∧ l[k + 1]? = some y := by
  rw [adj_iff_exists]
  constructor
  · rintro ⟨l₁, l₂, rfl⟩
    exact ⟨l₁.length, by simp, by simp⟩
  · rintro ⟨k, hx, hy⟩
    obtain ⟨hk, hx⟩ := List.getElem?_eq_some_iff.mp hx
    obtain ⟨hk', hy⟩ := List.getElem?_eq_some_iff.mp hy
    refine ⟨l.take k, l.drop (k + 2), ?_⟩
    rw [← hx, ← hy, ← List.drop_eq_getElem_cons hk', ← List.drop_eq_getElem_cons hk,
      List.take_append_drop]

theorem Adj.rel {R : α → α → Prop} (h : Adj l x y) (hl : l.Pairwise R) : R x y := by
  obtain ⟨l₁, l₂, rfl⟩ := adj_iff_exists.mp h
  have := (List.pairwise_append.mp hl).2.1
  exact (List.pairwise_cons.mp this).1 y List.mem_cons_self

/-- In a sorted list nothing lies between neighbours. -/
theorem Adj.not_between [LT α] (h : Adj l x y) (hl : l.Pairwise (· < ·)) (hp : p ∈ l) :
    p < x ∨ p = x ∨ p = y ∨ y < p := by
  obtain ⟨l₁, l₂, rfl⟩ := adj_iff_exists.mp h
  have hs := List.pairwise_append.mp hl
  have hs₂ := List.pairwise_cons.mp (List.pairwise_cons.mp hs.2.1).2
  simp only [List.mem_append, List.mem_cons] at hp
  rcases hp with hp | hp | hp | hp
  · exact Or.inl (hs.2.2 p hp x (by simp))
  · exact Or.inr (Or.inl hp)
  · exact Or.inr (Or.inr (Or.inl hp))
  · exact Or.inr (Or.inr (Or.inr (hs₂.1 p hp)))

/-- An element has at most one predecessor. -/
theorem Adj.left_unique (hnd : l.Nodup) (h : Adj l x z) (h' : Adj l y z) : x = y := by
  induction l with
  | nil => exact h.elim
  | cons p l ih =>
    cases l with
    | nil => exact h.elim
    | cons q l =>
      have hq := (List.nodup_cons.mp (List.nodup_cons.mp hnd).2).1
      rcases h with ⟨rfl, rfl⟩ | h <;> rcases h' with ⟨rfl, hz⟩ | h'
      · rfl
      · exact absurd h'.right_mem_tail hq
      · exact absurd (hz ▸ h.right_mem_tail) hq
      · exact ih (List.nodup_cons.mp hnd).2 h h'

/-- Every element but the first has a predecessor. -/
theorem exists_left (hx : x ∈ l) (hhead : l.head? ≠ some x) : ∃ y, Adj l y x := by
  obtain ⟨l₁, l₂, rfl⟩ := List.append_of_mem hx
  cases hl : l₁.getLast? with
  | none =>
    rw [List.getLast?_eq_none_iff] at hl
    simp [hl] at hhead
  | some y =>
    obtain ⟨l₀, rfl⟩ := List.getLast?_eq_some_iff.mp hl
    exact ⟨y, adj_iff_exists.mpr ⟨l₀, l₂, by simp⟩⟩

theorem adj_cons : Adj (p :: l) x y ↔ (x = p ∧ l.head? = some y) ∨ Adj l x y := by
  cases l with
  | nil => simp
  | cons q l => rw [adj_cons_cons, List.head?_cons, Option.some_inj, eq_comm (a := q)]

/-- Taking out `q` makes the elements around it neighbours. -/
theorem adj_skip (hnd : (l₁ ++ p :: q :: l).Nodup) :
    Adj (l₁ ++ p :: l) x y ↔
      (x = p ∧ l.head? = some y) ∨ (Adj (l₁ ++ p :: q :: l) x y ∧ x ≠ p ∧ x ≠ q) := by
  have hnd' := List.nodup_append.mp hnd
  simp only [List.nodup_cons, List.mem_cons, not_or] at hnd'
  rw [adj_append l₁ l p, adj_append l₁ (q :: l) p, adj_cons_cons, adj_cons, adj_cons]
  constructor
  · rintro (h | h | h)
    · -- to the left of `p`
      have hx : x ∈ l₁ := by
        obtain ⟨m₁, m₂, hm⟩ := adj_iff_exists.mp h
        have hm' : l₁ = m₁ ++ (x :: y :: m₂).dropLast := by
          have := congrArg List.dropLast hm
          rw [List.dropLast_concat, List.dropLast_append_of_ne_nil (by simp)] at this
          exact this
        rw [hm']
        simp
      exact Or.inr ⟨Or.inl h, fun he => hnd'.2.2 x hx p (by simp) he,
        fun he => hnd'.2.2 x hx q (by simp) he⟩
    · exact Or.inl h
    · exact Or.inr ⟨Or.inr (Or.inr (Or.inr h)), fun he => hnd'.2.1.1.2 (he ▸ h.left_mem),
        fun he => hnd'.2.1.2.1 (he ▸ h.left_mem)⟩
  · rintro (h | ⟨h | h | h | h, hxp, hxq⟩)
    · exact Or.inr (Or.inl h)
    · exact Or.inl h
    · exact absurd h.1 hxp
    · exact absurd h.1 hxq
    · exact Or.inr (Or.inr h)

section Next

variable [DecidableEq α]

/-- The element after `x`. -/
def next? : List α → α → Option α
  | p :: q :: l, x => if x = p then some q else next? (q :: l) x
  | _, _ => none

theorem next?_eq_some_iff (hnd : l.Nodup) : next? l x = some y ↔ Adj l x y := by
  induction l with
  | nil => simp [next?]
  | cons p l ih =>
    cases l with
    | nil => simp [next?]
    | cons q l =>
      rw [next?, adj_cons_cons]
      split
      · next hx =>
        subst hx
        have hno : ¬ Adj (q :: l) x y := fun h => (List.nodup_cons.mp hnd).1 h.left_mem
        simp [hno, eq_comm]
      · next hx => simp [hx, ih (List.nodup_cons.mp hnd).2]

end Next

end Neighbour

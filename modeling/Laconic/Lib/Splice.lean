import Mathlib.Data.List.Basic
import Mathlib.Tactic.Common
import Mathlib.Tactic.Ring

/-!
# Splicing lists into lists

`splice x ys l` puts `ys` in the place of the first `x` of `l`; `inline x ys l` does so for every
`x`.  When `ys` is free of `x`, splicing once for each occurrence gives `inline`: a splice does not
change what is left after inlining, and takes one occurrence away.
-/

namespace Splice

variable {α : Type} [DecidableEq α]

/-- The first `x` of the list becomes `ys`; there has to be one. -/
def splice (x : α) (ys : List α) : List α → Option (List α)
  | [] => none
  | z :: l => if z = x then some (ys ++ l) else (splice x ys l).map (z :: ·)

/-- Every `x` of the list becomes `ys`. -/
def inline (x : α) (ys l : List α) : List α := l.flatMap fun z => if z = x then ys else [z]

/-- One `x` of `l` became `ys`. -/
def Spliced (x : α) (ys l l' : List α) : Prop :=
  ∃ pre post, l = pre ++ x :: post ∧ l' = pre ++ ys ++ post

variable {x z : α} {ys l l' : List α}

theorem exists_splice (ys : List α) (h : x ∈ l) : ∃ l', splice x ys l = some l' ∧ Spliced x ys l l' := by
  induction l with
  | nil => exact absurd h List.not_mem_nil
  | cons z l ih =>
    unfold splice
    by_cases hz : z = x
    · subst hz
      rw [if_pos rfl]
      exact ⟨_, rfl, [], l, rfl, rfl⟩
    · rw [if_neg hz]
      obtain ⟨l', hl', pre, post, rfl, rfl⟩ := ih ((List.mem_cons.mp h).resolve_left (Ne.symm hz))
      rw [hl']
      exact ⟨_, rfl, z :: pre, post, rfl, rfl⟩

/-! ## Inlining -/

@[simp] theorem inline_nil : inline x ys [] = [] := rfl

theorem inline_append (l₁ l₂ : List α) :
    inline x ys (l₁ ++ l₂) = inline x ys l₁ ++ inline x ys l₂ := List.flatMap_append

theorem inline_cons : inline x ys (z :: l) = (if z = x then ys else [z]) ++ inline x ys l :=
  List.flatMap_cons

theorem inline_of_not_mem (h : x ∉ l) : inline x ys l = l := by
  induction l with
  | nil => rfl
  | cons z l ih =>
    rw [List.mem_cons, not_or] at h
    rw [inline_cons, if_neg (Ne.symm h.1), ih h.2]
    rfl

theorem mem_inline : z ∈ inline x ys l ↔ (z ∈ l ∧ z ≠ x) ∨ (x ∈ l ∧ z ∈ ys) := by
  unfold inline
  rw [List.mem_flatMap]
  constructor
  · rintro ⟨y, hy, hz⟩
    by_cases hyx : y = x
    · subst hyx
      rw [if_pos rfl] at hz
      exact Or.inr ⟨hy, hz⟩
    · rw [if_neg hyx, List.mem_singleton] at hz
      subst hz
      exact Or.inl ⟨hy, hyx⟩
  · rintro (⟨hz, hne⟩ | ⟨hx, hz⟩)
    · exact ⟨z, hz, by rw [if_neg hne]; exact List.mem_singleton.mpr rfl⟩
    · exact ⟨x, hx, by rw [if_pos rfl]; exact hz⟩

theorem count_inline (h : z ≠ x) :
    (inline x ys l).count z = l.count z + l.count x * ys.count z := by
  induction l with
  | nil => simp
  | cons y l ih =>
    rw [inline_cons, List.count_append, ih]
    by_cases hy : y = x
    · subst hy
      rw [if_pos rfl, List.count_cons_self, List.count_cons_of_ne (Ne.symm h)]
      ring
    · rw [if_neg hy, List.count_cons_of_ne hy, List.count_cons, List.count_cons, List.count_nil]
      ring

theorem length_inline :
    (inline x ys l).length + l.count x = l.length + l.count x * ys.length := by
  induction l with
  | nil => simp
  | cons y l ih =>
    rw [inline_cons, List.length_append, List.length_cons]
    by_cases hy : y = x
    · subst hy
      rw [if_pos rfl, List.count_cons_self, Nat.add_mul]
      omega
    · rw [if_neg hy, List.count_cons_of_ne hy, List.length_singleton]
      omega

theorem inline_ne_nil (hl : l ≠ []) (hys : ys ≠ []) : inline x ys l ≠ [] := by
  cases l with
  | nil => exact absurd rfl hl
  | cons y l =>
    rw [inline_cons]
    apply List.append_ne_nil_of_left_ne_nil
    split
    · exact hys
    · exact List.cons_ne_nil _ _

/-! ## One splice -/

omit [DecidableEq α] in
theorem Spliced.length (h : Spliced x ys l l') : l'.length + 1 = l.length + ys.length := by
  obtain ⟨pre, post, rfl, rfl⟩ := h
  simp only [List.length_append, List.length_cons]
  omega

theorem Spliced.count_self (h : Spliced x ys l l') (hx : x ∉ ys) :
    l.count x = l'.count x + 1 := by
  obtain ⟨pre, post, rfl, rfl⟩ := h
  rw [List.count_append, List.count_cons_self, List.count_append, List.count_append,
    List.count_eq_zero.mpr hx]
  omega

/-- A splice does not change what is left after inlining. -/
theorem Spliced.inline_eq (h : Spliced x ys l l') (hx : x ∉ ys) :
    inline x ys l' = inline x ys l := by
  obtain ⟨pre, post, rfl, rfl⟩ := h
  rw [inline_append, inline_append, inline_append, inline_cons, if_pos rfl, inline_of_not_mem hx,
    List.append_assoc]

/-- With some of the occurrences inlined the length is between the first and the last one. -/
theorem length_between (h : inline x ys l' = inline x ys l) (hc : l'.count x ≤ l.count x) :
    (l.length ≤ l'.length ∧ l'.length ≤ (inline x ys l).length) ∨
      ((inline x ys l).length ≤ l'.length ∧ l'.length ≤ l.length) := by
  have hl : (inline x ys l).length + l.count x = l.length + l.count x * ys.length := length_inline
  have hl' : (inline x ys l').length + l'.count x = l'.length + l'.count x * ys.length :=
    length_inline
  rw [h] at hl'
  -- inlining an empty list makes the list shorter, any other one does not
  rcases Nat.eq_zero_or_pos ys.length with hz | hpos
  · rw [hz] at hl hl'
    omega
  · have hmul := Nat.mul_le_mul_right (ys.length - 1) hc
    rw [Nat.mul_sub_one, Nat.mul_sub_one] at hmul
    have h₁ := Nat.le_mul_of_pos_right (l.count x) hpos
    have h₂ := Nat.le_mul_of_pos_right (l'.count x) hpos
    omega

end Splice

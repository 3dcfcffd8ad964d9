import Mathlib.Algebra.BigOperators.Group.Finset.Sigma
import Mathlib.Algebra.BigOperators.Ring.Finset
import Mathlib.Algebra.Order.BigOperators.Group.Finset
import Mathlib.Algebra.Order.BigOperators.Group.List
import Mathlib.Tactic.Ring
import Laconic.Lib.Slp

/-!
# Sums over expansions

A function `g` on the terminals of a grammar extends to all symbols: a rule has the sum of the values
of its right-hand side.  With `g = 1` this is the length of the expansion, with the indicator of a
terminal it counts the terminal.  A rule with `f` references whose right-hand side has `l` symbols
makes the grammar shorter than the text by at least `(f - 1) * (l - 1) - 2`.
-/

namespace Slp

variable {α M : Type}

/-- `val` extends `g` from the terminals to all symbols. -/
structure Valued [AddMonoid M] (rhs : α → Option (List α)) (g val : α → M) : Prop where
  terminal : ∀ x, rhs x = none → val x = g x
  rule : ∀ x zs, rhs x = some zs → val x = (zs.map val).sum

section Valued

variable [AddMonoid M] {rhs : α → Option (List α)} {g val : α → M} {xs ys : List α}

/-- The sum over a text is the sum over its expansion. -/
theorem Valued.sum_eq (h : Valued rhs g val) (hexp : Expands rhs xs ys) :
    (xs.map val).sum = (ys.map g).sum := by
  induction hexp with
  | nil => rfl
  | terminal hx _ ih =>
    rw [List.map_cons, List.map_cons, List.sum_cons, List.sum_cons, h.terminal _ hx, ih]
  | rule hx _ _ ih ih' =>
    rw [List.map_cons, List.sum_cons, List.map_append, List.sum_append, h.rule _ _ hx, ih, ih']

theorem exists_valued (hexp : ∀ x, ∃ ys, Expands rhs [x] ys) (g : α → M) :
    ∃ val, Valued rhs g val := by
  choose ys hys using hexp
  refine ⟨fun x => ((ys x).map g).sum, fun x hx => ?_, fun x zs hx => ?_⟩
  · rw [(Expands.singleton_of_none hx).mp (hys x)]
    exact List.sum_singleton
  · -- the expansion of `x` is made of those of its right-hand side
    have hzs : ∀ zs ws : List α, Expands rhs zs ws →
        (ws.map g).sum = (zs.map fun z => ((ys z).map g).sum).sum := by
      intro zs
      induction zs with
      | nil =>
        intro ws hws
        rw [Expands.nil_iff.mp hws]
        rfl
      | cons z zs ih =>
        intro ws hws
        obtain ⟨us, vs, rfl, hz, hvs⟩ := Expands.cons_iff.mp hws
        rw [List.map_append, List.sum_append, List.map_cons, List.sum_cons, ih vs hvs,
          hz.unique (hys z)]
    exact hzs zs (ys x) ((Expands.singleton_of_some hx).mp (hys x))

end Valued

/-! ## The length of a grammar and the length of its text -/

section Length

variable [DecidableEq α]

/-- The references to `x` in the rows of `nodes`. -/
def references (rows : α → List α) (nodes : Finset α) (x : α) : Nat :=
  ∑ v ∈ nodes, (rows v).count x

/-- `len` are the lengths of the expansions of symbols that are rules or have length 1. -/
structure Lengths (rows : α → List α) (starts rules : Finset α) (len : α → Nat) : Prop where
  disjoint : Disjoint starts rules
  terminal : ∀ v ∈ starts ∪ rules, ∀ x ∈ rows v, x ∉ rules → len x = 1
  rule : ∀ r ∈ rules, len r = ((rows r).map len).sum

variable {rows : α → List α} {starts rules : Finset α} {len : α → Nat}

/-- A row is as much longer than its number of entries as the rules in it are longer than 1. -/
theorem Lengths.row_sum (h : Lengths rows starts rules len) {v : α} (hv : v ∈ starts ∪ rules) :
    (((rows v).map len).sum : Int) =
      (rows v).length + ∑ r ∈ rules, ((rows v).count r : Int) * ((len r : Int) - 1) := by
  have hrow := h.terminal v hv
  generalize rows v = xs at hrow
  induction xs with
  | nil => simp
  | cons x xs ih =>
    have ih' := ih fun y hy => hrow y (List.mem_cons_of_mem _ hy)
    have hcount : ∀ r, (((x :: xs).count r : Nat) : Int) * ((len r : Int) - 1) =
        (xs.count r : Int) * ((len r : Int) - 1) + (if r = x then (len r : Int) - 1 else 0) := by
      intro r
      by_cases hr : r = x
      · subst hr
        rw [List.count_cons_self, if_pos rfl]
        push_cast
        ring
      · rw [List.count_cons_of_ne (Ne.symm hr), if_neg hr, Int.add_zero]
    have hhead : ∑ r ∈ rules, (if r = x then (len r : Int) - 1 else 0) = (len x : Int) - 1 := by
      rw [Finset.sum_ite_eq']
      by_cases hx : x ∈ rules
      · rw [if_pos hx]
      · rw [if_neg hx, hrow x List.mem_cons_self hx]
        rfl
    rw [Finset.sum_congr rfl fun r _ => hcount r, Finset.sum_add_distrib, hhead, List.map_cons,
      List.sum_cons, List.length_cons, Int.natCast_add, Int.natCast_add, ih']
    omega

/-- The text is longer than the grammar by what the rules save. -/
theorem Lengths.text_eq (h : Lengths rows starts rules len) :
    ∑ v ∈ starts, (((rows v).map len).sum : Int) = ∑ v ∈ starts, ((rows v).length : Int) +
      ∑ r ∈ rules, (((references rows (starts ∪ rules) r : Int) - 1) * ((len r : Int) - 1) +
        ((rows r).length - 1)) := by
  have hstart : ∑ v ∈ starts, (((rows v).map len).sum : Int) = ∑ v ∈ starts,
      (((rows v).length : Int) + ∑ r ∈ rules, ((rows v).count r : Int) * ((len r : Int) - 1)) :=
    Finset.sum_congr rfl fun v hv => h.row_sum (Finset.mem_union_left _ hv)
  have hrule : ∑ v ∈ rules, (len v : Int) = ∑ v ∈ rules,
      (((rows v).length : Int) + ∑ r ∈ rules, ((rows v).count r : Int) * ((len r : Int) - 1)) :=
    Finset.sum_congr rfl fun v hv => by
      rw [h.rule v hv]
      exact h.row_sum (Finset.mem_union_right _ hv)
  -- all references to a rule together
  have hall : ∑ v ∈ starts ∪ rules, ∑ r ∈ rules, ((rows v).count r : Int) * ((len r : Int) - 1) =
      ∑ r ∈ rules, (references rows (starts ∪ rules) r : Int) * ((len r : Int) - 1) := by
    rw [Finset.sum_comm]
    refine Finset.sum_congr rfl fun r _ => ?_
    rw [← Finset.sum_mul, references]
    push_cast
    rfl
  rw [Finset.sum_union h.disjoint] at hall
  have hsplit : ∑ r ∈ rules, (((references rows (starts ∪ rules) r : Int) - 1) * ((len r : Int) - 1) +
      ((rows r).length - 1)) = ∑ r ∈ rules, (references rows (starts ∪ rules) r : Int) *
        ((len r : Int) - 1) + ∑ r ∈ rules, ((rows r).length : Int) - ∑ r ∈ rules, (len r : Int) := by
    rw [← Finset.sum_add_distrib, ← Finset.sum_sub_distrib]
    exact Finset.sum_congr rfl fun r _ => by ring
  rw [Finset.sum_add_distrib] at hstart hrule
  rw [hsplit]
  omega

/-- A rule is at least as long as its row. -/
theorem Lengths.length_le (h : Lengths rows starts rules len) {r : α} (hr : r ∈ rules)
    (hone : ∀ x ∈ rows r, 1 ≤ len x) : (rows r).length ≤ len r := by
  have hsum := List.card_nsmul_le_sum ((rows r).map len) 1 fun y hy => by
    obtain ⟨x, hx, rfl⟩ := List.mem_map.mp hy
    exact hone x hx
  rw [List.length_map, Nat.nsmul_eq_mul, Nat.mul_one] at hsum
  rwa [h.rule r hr]

/-- When every rule pays for itself the grammar is shorter than the text. -/
theorem Lengths.saves (h : Lengths rows starts rules len)
    (hone : ∀ r ∈ rules, ∀ x ∈ rows r, 1 ≤ len x) {t : Int}
    (hused : ∀ r ∈ rules, 1 ≤ references rows (starts ∪ rules) r)
    (hpays : ∀ r ∈ rules, t < ((references rows (starts ∪ rules) r : Int) - 1) *
      (((rows r).length : Int) - 1) - 1) :
    ∑ v ∈ starts, ((rows v).length : Int) + ∑ r ∈ rules, (((rows r).length : Int) + 1 + t) ≤
      ∑ v ∈ starts, (((rows v).map len).sum : Int) := by
  rw [h.text_eq]
  refine Int.add_le_add_left (Finset.sum_le_sum fun r hr => ?_) _
  have hl := h.length_le hr (hone r hr)
  have hu := hused r hr
  have hp := hpays r hr
  have hmul : ((references rows (starts ∪ rules) r : Int) - 1) * (((rows r).length : Int) - 1) ≤
      ((references rows (starts ∪ rules) r : Int) - 1) * ((len r : Int) - 1) :=
    Int.mul_le_mul_of_nonneg_left (by omega) (by omega)
  omega

end Length

end Slp

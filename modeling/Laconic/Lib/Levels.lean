import Mathlib.Data.List.Chain
import Mathlib.Data.List.Count
import Mathlib.Order.WellFounded
import Mathlib.Tactic.Common

/-!
# Levels of a graph

The nodes of a graph without cycles outside of `base` have levels: a node of `base` is at level 0,
any other node is one level above the highest source of an edge to it.  Edges are numbered, so that
parallel edges count as often as they are there.  `pending n x` are the edges to `x` whose sources
are above level `n`: a node is at level `n + 1` or below when none is left.
-/

namespace Levels

variable {ε α : Type}

/-- `lv` are the levels of the graph with the edges `E`. -/
structure IsLevel (E : List ε) (src dst : ε → α) (base : α → Prop) (lv : α → Nat) : Prop where
  zero : ∀ x, base x → lv x = 0
  pos : ∀ x, ¬ base x → 0 < lv x
  le_iff : ∀ x, ¬ base x → ∀ n, lv x ≤ n + 1 ↔ ∀ e ∈ E, dst e = x → lv (src e) ≤ n

open Classical in
/-- The highest source of an edge to `x`, for levels `below` of the nodes below `x`. -/
noncomputable def topSource (E : List ε) (src dst : ε → α) (r : α → α → Prop) (x : α)
    (below : ∀ y, r y x → Nat) : Nat :=
  (E.map fun e => if dst e = x then if h : r (src e) x then below (src e) h else 0 else 0).foldr
    max 0

open Classical in
/-- The level of `x`, for levels `below` of the nodes below `x`. -/
noncomputable def levelOver (E : List ε) (src dst : ε → α) (base : α → Prop) (r : α → α → Prop)
    (x : α) (below : ∀ y, r y x → Nat) : Nat :=
  if base x then 0 else topSource E src dst r x below + 1

theorem foldr_max_le_iff (l : List Nat) (n : Nat) : l.foldr max 0 ≤ n ↔ ∀ a ∈ l, a ≤ n := by
  induction l with
  | nil => simp
  | cons a l ih => rw [List.foldr_cons, Nat.max_le, ih, List.forall_mem_cons]

section Exists

variable {E : List ε} {src dst : ε → α} {base : α → Prop} {r : α → α → Prop} {x : α}

theorem fix_of_base (hwf : WellFounded r) (hx : base x) :
    hwf.fix (levelOver E src dst base r) x = 0 := by
  rw [hwf.fix_eq]
  exact if_pos hx

theorem fix_of_not_base (hwf : WellFounded r) (hx : ¬ base x) :
    hwf.fix (levelOver E src dst base r) x =
      topSource E src dst r x (fun y _ => hwf.fix (levelOver E src dst base r) y) + 1 := by
  rw [hwf.fix_eq]
  exact if_neg hx

/-- When the edges between other nodes go up in a well founded relation there are levels. -/
theorem exists_isLevel (hwf : WellFounded r)
    (hr : ∀ e ∈ E, ¬ base (src e) → ¬ base (dst e) → r (src e) (dst e)) :
    ∃ lv, IsLevel E src dst base lv := by
  refine ⟨hwf.fix (levelOver E src dst base r), fun x => fix_of_base hwf, fun x hx => ?_,
    fun x hx n => ?_⟩
  · rw [fix_of_not_base hwf hx]
    exact Nat.succ_pos _
  -- the highest source is at level `n` or below when all sources are
  rw [fix_of_not_base hwf hx, Nat.add_le_add_iff_right, topSource, foldr_max_le_iff,
    List.forall_mem_map]
  refine forall₂_congr fun e he => ?_
  by_cases hd : dst e = x
  · rw [if_pos hd]
    -- an edge from `base` need not go up in `r`, and counts as level 0 anyway
    by_cases hs : base (src e)
    · rw [fix_of_base hwf hs]
      refine iff_of_true ?_ fun _ => Nat.zero_le n
      split <;> exact Nat.zero_le n
    · rw [dif_pos (hd ▸ hr e he hs (hd ▸ hx))]
      exact ⟨fun h _ => h, fun h => h hd⟩
  · rw [if_neg hd]
    exact iff_of_true (Nat.zero_le n) fun h => absurd h hd

end Exists

/-- The number of edges to `x` whose sources are above level `n`. -/
def pending [DecidableEq α] (E : List ε) (src dst : ε → α) (lv : α → Nat) (n : Nat) (x : α) : Nat :=
  E.countP fun e => decide (dst e = x ∧ n < lv (src e))

/-- Counting by two cases that exclude each other. -/
theorem countP_split {P Q R : ε → Prop} [DecidablePred P] [DecidablePred Q] [DecidablePred R]
    (E : List ε) (h : ∀ e, P e ↔ Q e ∨ R e) (hd : ∀ e, Q e → ¬ R e) :
    E.countP (fun e => decide (P e)) =
      E.countP (fun e => decide (Q e)) + E.countP (fun e => decide (R e)) := by
  induction E with
  | nil => rfl
  | cons e E ih =>
    simp only [List.countP_cons, decide_eq_true_eq, ih, h e]
    by_cases hq : Q e
    · rw [if_pos (Or.inl hq), if_pos hq, if_neg (hd e hq)]
      omega
    · simp only [hq, false_or, if_false]
      omega

namespace IsLevel

variable {E : List ε} {src dst : ε → α} {base : α → Prop} {lv : α → Nat} {x : α} {e : ε} {n : Nat}

theorem zero_iff (h : IsLevel E src dst base lv) : lv x = 0 ↔ base x := by
  constructor
  · intro hx
    by_contra hb
    have := h.pos x hb
    omega
  · exact h.zero x

/-- Edges go up. -/
theorem lt (h : IsLevel E src dst base lv) (he : e ∈ E) (hd : ¬ base (dst e)) :
    lv (src e) < lv (dst e) := by
  have hpos := h.pos _ hd
  have hle := (h.le_iff _ hd (lv (dst e) - 1)).mp (by omega) e he rfl
  omega

/-- An edge to a node comes from the level below. -/
theorem exists_pred (h : IsLevel E src dst base lv) (hx : lv x = n + 2) :
    ∃ e ∈ E, dst e = x ∧ lv (src e) = n + 1 := by
  have hb : ¬ base x := fun hb => by
    have := h.zero x hb
    omega
  have hle := (h.le_iff x hb n).not.mp (by omega)
  push Not at hle
  obtain ⟨e, he, hd, hlt⟩ := hle
  have := h.lt he (hd ▸ hb)
  rw [hd] at this
  exact ⟨e, he, hd, by omega⟩

theorem pending_eq_zero_iff [DecidableEq α] (h : IsLevel E src dst base lv) (hx : ¬ base x) :
    pending E src dst lv n x = 0 ↔ lv x ≤ n + 1 := by
  rw [pending, List.countP_eq_zero, h.le_iff x hx]
  refine forall₂_congr fun e _ => ?_
  rw [decide_eq_true_eq, not_and, Nat.not_lt]

/-- The edges from level `n + 1` are no longer pending at that level. -/
theorem pending_succ [DecidableEq α] (lv : α → Nat) :
    pending E src dst lv (n + 1) x +
      E.countP (fun e => decide (dst e = x ∧ lv (src e) = n + 1)) = pending E src dst lv n x := by
  symm
  apply countP_split
  · intro e
    rw [← and_or_left]
    exact and_congr_right fun _ => by omega
  · rintro e ⟨-, hlt⟩ ⟨-, heq⟩
    omega

/-- A node at level `n + 1` ends a chain of `n + 1` nodes outside of `base`. -/
theorem exists_chain {R : α → α → Prop} (h : IsLevel E src dst base lv)
    (hR : ∀ e ∈ E, ¬ base (src e) → R (src e) (dst e)) (hx : lv x = n + 1) :
    ∃ a l, (a :: l).IsChain R ∧ (∀ y ∈ a :: l, ¬ base y ∧ (y = x ∨ ∃ e ∈ E, src e = y)) ∧
      (a :: l).getLast? = some x ∧ l.length = n ∧ lv a = 1 := by
  have hout : ∀ y, 0 < lv y → ¬ base y := fun y hy hb => by
    have := h.zero y hb
    omega
  induction n generalizing x with
  | zero =>
    refine ⟨x, [], List.isChain_singleton x, fun y hy => ?_, rfl, rfl, hx⟩
    rw [List.mem_singleton.mp hy]
    exact ⟨hout x (by omega), Or.inl rfl⟩
  | succ n ih =>
    -- an edge from the level below; the chain to its source gets one node longer
    obtain ⟨e, he, rfl, hs⟩ := h.exists_pred hx
    obtain ⟨a, l, hchain, hmem, hlast, hlen, ha⟩ := ih hs
    refine ⟨a, l ++ [dst e], ?_, fun y hy => ?_,
      by rw [← List.cons_append, List.getLast?_concat],
      by rw [List.length_append, hlen]; rfl, ha⟩
    · rw [← List.cons_append]
      refine hchain.append (List.isChain_singleton _) fun b hb c hc => ?_
      rw [hlast, Option.mem_some_iff] at hb
      rw [List.head?_cons, Option.mem_some_iff] at hc
      subst hb hc
      exact hR e he (hout _ (by omega))
    · rw [← List.cons_append, List.mem_append, List.mem_singleton] at hy
      rcases hy with hy | rfl
      · obtain ⟨hb, hor⟩ := hmem y hy
        exact ⟨hb, Or.inr (hor.elim (fun heq => ⟨e, he, heq.symm⟩) id)⟩
      · exact ⟨hout _ (by omega), Or.inl rfl⟩

end IsLevel

/-- A chain along which a level goes up is no longer than the level at its end. -/
theorem add_length_le {R : α → α → Prop} {lv : α → Nat} {a x : α} {l : List α}
    (hchain : (a :: l).IsChain R) (hup : ∀ y z, R y z → z ∈ l → lv y < lv z)
    (hlast : (a :: l).getLast? = some x) : lv a + l.length ≤ lv x := by
  induction l generalizing a with
  | nil =>
    rw [List.getLast?_singleton, Option.some_inj] at hlast
    rw [hlast]
    exact Nat.le_refl _
  | cons b l ih =>
    obtain ⟨hab, hchain⟩ := List.isChain_cons_cons.mp hchain
    have hlt := hup a b hab List.mem_cons_self
    have hle := ih hchain (fun y z hyz hz => hup y z hyz (List.mem_cons_of_mem _ hz))
      (by rwa [List.getLast?_cons_cons] at hlast)
    rw [List.length_cons]
    omega

end Levels

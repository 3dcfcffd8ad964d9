import Mathlib.Logic.Relation
import Laconic.Lib.PairScan
import Laconic.RePair.Basics

/-!
# Re-Pair: the rewriting system

What the compressor is for, without its data structures: a text of symbols and a list of rules.  A
turn takes a pair `P` both of whose symbols occur twice, adds it as the next rule and replaces some
occurrences of it, at least one, by the new symbol.  The expansion of the text never changes, rules
refer to earlier symbols only, a symbol that occurs once never enters a rule, and every rule stays
in use.
-/

namespace Laconic.RePair

open Slp Relation

/-- One occurrence of the pair `P` becomes the symbol `e`. -/
def Replaces (P : Tpair) (e : Int) (t t' : List Int) : Prop :=
  ∃ x y, t = x ++ P.left :: P.right :: y ∧ t' = x ++ e :: y

/-- Symbols below `alph` are terminals; `alph + k` is rule `k`. -/
def ruleRhs (alph : Int) (rules : List Tpair) (x : Int) : Option (List Int) :=
  if x < alph then none else (rules[(x - alph).toNat]?).map fun p => [p.left, p.right]

/-- Text and rules. -/
structure Rewriting where
  text : List Int
  rules : List Tpair

/-- A turn of the rewriting system. -/
def Rewriting.Turn (alph : Int) (s s' : Rewriting) : Prop :=
  ∃ P, s'.rules = s.rules ++ [P] ∧
    TransGen (Replaces P (alph + s.rules.length)) s.text s'.text ∧
    2 ≤ s.text.count P.left ∧ 2 ≤ s.text.count P.right

/-- The number of positions at which the pair occurs, overlaps included. -/
def pairCount (t : List Int) (P : Tpair) : Nat := (PairScan.adjacent t).count (P.left, P.right)

/-- A turn for the pair `P` that leaves no occurrence of it. -/
structure Rewriting.TurnOf (alph : Int) (P : Tpair) (s s' : Rewriting) : Prop where
  rules : s'.rules = s.rules ++ [P]
  replaced : TransGen (Replaces P (alph + s.rules.length)) s.text s'.text
  twice : 2 ≤ s.text.count P.left ∧ 2 ≤ s.text.count P.right
  gone : pairCount s'.text P = 0

theorem Rewriting.TurnOf.turn {alph : Int} {P : Tpair} {s s' : Rewriting}
    (h : Rewriting.TurnOf alph P s s') : Rewriting.Turn alph s s' :=
  ⟨P, h.rules, h.replaced, h.twice⟩

section Replaces

variable {P : Tpair} {e σ : Int} {t t' : List Int}

theorem Replaces.length_eq (h : Replaces P e t t') : t.length = t'.length + 1 := by
  obtain ⟨x, y, rfl, rfl⟩ := h
  simp only [List.length_append, List.length_cons]
  omega

theorem Replaces.mem (h : Replaces P e t t') {z : Int} (hz : z ∈ t') : z = e ∨ z ∈ t := by
  obtain ⟨x, y, rfl, rfl⟩ := h
  simp only [List.mem_append, List.mem_cons] at hz ⊢
  tauto

theorem Replaces.mem_old (h : Replaces P e t t') {z : Int} (hz : z ∈ t) :
    z ∈ t' ∨ z = P.left ∨ z = P.right := by
  obtain ⟨x, y, rfl, rfl⟩ := h
  simp only [List.mem_append, List.mem_cons] at hz ⊢
  tauto

theorem Replaces.new_mem (h : Replaces P e t t') : e ∈ t' := by
  obtain ⟨x, y, rfl, rfl⟩ := h
  simp

/-- The number of times another symbol occurs does not change. -/
theorem Replaces.count_eq (h : Replaces P e t t') (hl : P.left ≠ σ) (hr : P.right ≠ σ)
    (he : e ≠ σ) : t'.count σ = t.count σ := by
  obtain ⟨x, y, rfl, rfl⟩ := h
  rw [List.count_append, List.count_append, List.count_cons_of_ne he, List.count_cons_of_ne hl,
    List.count_cons_of_ne hr]

/-- A last symbol that is not in the pair stays the last one. -/
theorem Replaces.getLast?_eq (h : Replaces P e t t') (hr : P.right ≠ σ)
    (hlast : t.getLast? = some σ) : t'.getLast? = some σ := by
  obtain ⟨x, y, rfl, rfl⟩ := h
  cases hy : y.getLast? with
  | none =>
    rw [List.getLast?_eq_none_iff] at hy
    subst hy
    simp only [List.getLast?_append, List.getLast?_cons_cons, List.getLast?_singleton,
      Option.some_or, Option.some_inj] at hlast
    exact absurd hlast hr
  | some z =>
    obtain ⟨w, rfl⟩ := List.getLast?_eq_some_iff.mp hy
    rw [show x ++ P.left :: P.right :: (w ++ [z]) = (x ++ P.left :: P.right :: w) ++ [z] by simp,
      List.getLast?_concat] at hlast
    rw [show x ++ e :: (w ++ [z]) = (x ++ e :: w) ++ [z] by simp, List.getLast?_concat]
    exact hlast

/-- With the rule `e → P` in the grammar a replacement changes no expansion. -/
theorem Replaces.expands_iff {rhs : Int → Option (List Int)} (h : Replaces P e t t')
    (he : rhs e = some [P.left, P.right]) {zs : List Int} :
    Expands rhs t' zs ↔ Expands rhs t zs := by
  obtain ⟨x, y, rfl, rfl⟩ := h
  rw [Expands.fold_iff he, List.append_assoc]
  rfl

/-- A pair without the new symbol does not get more frequent. -/
theorem Replaces.pairCount_le (h : Replaces P e t t') {Q : Tpair} (hl : Q.left ≠ e)
    (hr : Q.right ≠ e) : pairCount t' Q ≤ pairCount t Q := by
  obtain ⟨x, y, rfl, rfl⟩ := h
  have := PairScan.le_count_adjacent (p := (Q.left, Q.right)) x y P.left P.right
  rw [pairCount, pairCount, PairScan.count_adjacent_of_ne x y hl hr]
  omega

/-- Every new symbol costs at least one occurrence of the pair. -/
theorem Replaces.count_add_le (h : Replaces P e t t') (hl : P.left ≠ e) (hr : P.right ≠ e) :
    t'.count e + pairCount t' P ≤ t.count e + pairCount t P := by
  obtain ⟨x, y, rfl, rfl⟩ := h
  have := PairScan.le_count_adjacent (p := (P.left, P.right)) x y P.left P.right
  rw [if_pos rfl] at this
  rw [pairCount, pairCount, PairScan.count_adjacent_of_ne x y hl hr, List.count_append,
    List.count_append, List.count_cons_self, List.count_cons_of_ne hl, List.count_cons_of_ne hr]
  omega

/-- A relation that every replacement keeps is kept by a sequence of them. -/
theorem replaces_induction {I : List Int → Prop} (h : ReflTransGen (Replaces P e) t t')
    (hstep : ∀ s s', Replaces P e s s' → I s → I s') (ht : I t) : I t' := by
  induction h with
  | refl => exact ht
  | tail _ h ih => exact hstep _ _ h ih

/-- The only new symbol of a sequence of replacements is `e`. -/
theorem mem_replaces (h : ReflTransGen (Replaces P e) t t') {x : Int} (hx : x ∈ t') :
    x = e ∨ x ∈ t := by
  refine replaces_induction (I := fun s => ∀ x ∈ s, x = e ∨ x ∈ t) h (fun s s' hr ht x hx => ?_)
    (fun x hx => Or.inr hx) x hx
  rcases hr.mem hx with hxe | hx
  · exact Or.inl hxe
  · exact ht x hx

/-- In the course of a turn no pair gets more frequent than it or `P` was at its start. -/
theorem pairCount_replaces_le (h : ReflTransGen (Replaces P e) t t') (he : e ∉ t)
    (hl : P.left ≠ e) (hr : P.right ≠ e) (Q : Tpair) :
    pairCount t' Q ≤ max (pairCount t Q) (pairCount t P) := by
  by_cases hQ : Q.left ≠ e ∧ Q.right ≠ e
  · have := replaces_induction (I := fun s => pairCount s Q ≤ pairCount t Q) h
      (fun s s' hs hle => (hs.pairCount_le hQ.1 hQ.2).trans hle) le_rfl
    exact this.trans (le_max_left _ _)
  · -- a pair with `e` is at most as frequent as `e`
    have hcount := replaces_induction
      (I := fun s => s.count e + pairCount s P ≤ t.count e + pairCount t P) h
      (fun s s' hs hle => (hs.count_add_le hl hr).trans hle) le_rfl
    rw [List.count_eq_zero_of_not_mem he] at hcount
    have hQe : pairCount t' Q ≤ t'.count e := by
      have := PairScan.count_adjacent_le t' (Q.left, Q.right)
      rw [not_and_or, not_not, not_not] at hQ
      rcases hQ with hQ | hQ
      · exact hQ ▸ this.1
      · exact hQ ▸ this.2
    exact (by omega : pairCount t' Q ≤ pairCount t P).trans (le_max_right _ _)

end Replaces

/-- What every state of the rewriting system that comes from the text `t₀` satisfies. -/
structure Rewriting.Wf (alph : Int) (t₀ : List Int) (s : Rewriting) : Prop where
  symbols : ∀ x ∈ s.text, x < alph + s.rules.length
  earlier : ∀ (k : Nat) P, s.rules[k]? = some P → P.left < alph + k ∧ P.right < alph + k
  expands : Expands (ruleRhs alph s.rules) s.text t₀
  known : ∀ x < alph, x ∈ s.text ∨ (∃ P ∈ s.rules, P.left = x ∨ P.right = x) → x ∈ t₀
  single : ∀ σ < alph, t₀.count σ = 1 →
    s.text.count σ = 1 ∧ ∀ P ∈ s.rules, P.left ≠ σ ∧ P.right ≠ σ
  last : ∀ σ < alph, t₀.count σ = 1 → t₀.getLast? = some σ → s.text.getLast? = some σ
  used : ∀ k : Nat, k < s.rules.length → alph + k ∈ s.text ∨
    ∃ (j : Nat) (P : Tpair), k < j ∧ s.rules[j]? = some P ∧ (P.left = alph + k ∨ P.right = alph + k)

section Rhs

variable {alph x : Int} {rules : List Tpair} {P : Tpair}

theorem ruleRhs_of_lt (h : x < alph) : ruleRhs alph rules x = none := if_pos h

theorem ruleRhs_rule (k : Nat) : ruleRhs alph rules (alph + k) =
    (rules[k]?).map fun p => [p.left, p.right] := by
  rw [ruleRhs, if_neg (by omega), show (alph + (k : Int) - alph).toNat = k by omega]

/-- A further rule changes nothing for the symbols there were. -/
theorem ruleRhs_append_of_lt (h : x < alph + rules.length) :
    ruleRhs alph (rules ++ [P]) x = ruleRhs alph rules x := by
  unfold ruleRhs
  split
  · rfl
  · rw [List.getElem?_append_left (by omega)]

theorem ruleRhs_eq_some {zs : List Int} (h : ruleRhs alph rules x = some zs) :
    ∃ (k : Nat) (P : Tpair), x = alph + k ∧ rules[k]? = some P ∧ zs = [P.left, P.right] := by
  unfold ruleRhs at h
  split at h
  · cases h
  · obtain ⟨P, hP, rfl⟩ := Option.map_eq_some_iff.mp h
    exact ⟨(x - alph).toNat, P, by omega, hP, rfl⟩

end Rhs

namespace Rewriting

variable {alph : Int} {t₀ : List Int} {s s' : Rewriting}

theorem Wf.init (h : ∀ x ∈ t₀, x < alph) : Wf alph t₀ ⟨t₀, []⟩ where
  symbols x hx := by
    have := h x hx
    simp only [List.length_nil]
    omega
  earlier k P hP := by simp at hP
  expands := Expands.of_terminals fun x hx => ruleRhs_of_lt (h x hx)
  known x _ hx := hx.elim id fun ⟨P, hP, _⟩ => absurd hP List.not_mem_nil
  single σ _ hc := ⟨hc, by simp⟩
  last _ _ _ hlast := hlast
  used k hk := by simp at hk

section Turn

variable {P : Tpair} {t' : List Int}

/-- The rules of a turn: the earlier ones and the new one, over the symbols of the text. -/
theorem Wf.earlier_concat (h : Wf alph t₀ s) (hl : P.left ∈ s.text) (hr : P.right ∈ s.text) {k : Nat}
    {Q : Tpair} (hQ : (s.rules ++ [P])[k]? = some Q) : Q.left < alph + k ∧ Q.right < alph + k := by
  rcases Nat.lt_trichotomy k s.rules.length with hk | rfl | hk
  · rw [List.getElem?_append_left hk] at hQ
    exact h.earlier k Q hQ
  · rw [List.getElem?_concat_length, Option.some_inj] at hQ
    exact hQ ▸ ⟨h.symbols _ hl, h.symbols _ hr⟩
  · rw [List.getElem?_eq_none (by simp; omega)] at hQ
    cases hQ

/-- The old symbols expand as before, and the new one stands for its pair. -/
theorem Wf.expands_turn (h : Wf alph t₀ s)
    (hstar : ReflTransGen (Replaces P (alph + s.rules.length)) s.text t') :
    Expands (ruleRhs alph (s.rules ++ [P])) t' t₀ := by
  have hold : Expands (ruleRhs alph (s.rules ++ [P])) s.text t₀ := by
    refine h.expands.congr (C := fun x => x < alph + s.rules.length) (fun x zs _ hx z hz => ?_)
      (fun x hx => ruleRhs_append_of_lt hx) h.symbols
    obtain ⟨k, Q, rfl, hQ, rfl⟩ := ruleRhs_eq_some hx
    have hk := (List.getElem?_eq_some_iff.mp hQ).1
    have := h.earlier k Q hQ
    simp only [List.mem_cons, List.not_mem_nil, or_false] at hz
    rcases hz with rfl | rfl <;> omega
  have hrhs : ruleRhs alph (s.rules ++ [P]) (alph + s.rules.length) = some [P.left, P.right] := by
    rw [ruleRhs_rule, List.getElem?_concat_length]
    rfl
  exact replaces_induction (I := fun t => Expands (ruleRhs alph (s.rules ++ [P])) t t₀) hstar
    (fun t t' hr ht => (hr.expands_iff hrhs).mpr ht) hold

/-- A turn uses no symbol of the alphabet that the text does not have. -/
theorem Wf.known_turn (h : Wf alph t₀ s)
    (hstar : ReflTransGen (Replaces P (alph + s.rules.length)) s.text t') (hl : P.left ∈ s.text)
    (hr : P.right ∈ s.text) {x : Int} (hx : x < alph)
    (hmem : x ∈ t' ∨ ∃ Q ∈ s.rules ++ [P], Q.left = x ∨ Q.right = x) : x ∈ t₀ := by
  rcases hmem with hmem | ⟨Q, hQ, hQx⟩
  · refine h.known x hx (Or.inl ((mem_replaces hstar hmem).resolve_left ?_))
    omega
  · rw [List.mem_append, List.mem_singleton] at hQ
    rcases hQ with hQ | rfl
    · exact h.known x hx (Or.inr ⟨Q, hQ, hQx⟩)
    · rcases hQx with rfl | rfl
      · exact h.known _ hx (Or.inl hl)
      · exact h.known _ hx (Or.inl hr)

/-- A symbol that occurs once is in no pair that is replaced. -/
theorem Wf.single_turn (h : Wf alph t₀ s)
    (hstar : ReflTransGen (Replaces P (alph + s.rules.length)) s.text t') {σ : Int} (hσ : σ < alph)
    (hc : t₀.count σ = 1) (hl : P.left ≠ σ) (hr : P.right ≠ σ) :
    t'.count σ = 1 ∧ ∀ Q ∈ s.rules ++ [P], Q.left ≠ σ ∧ Q.right ≠ σ := by
  obtain ⟨hone, hno⟩ := h.single σ hσ hc
  refine ⟨?_, fun Q hQ => ?_⟩
  · refine replaces_induction (I := fun t => t.count σ = 1) hstar (fun t t' hrep ht => ?_) hone
    rw [hrep.count_eq hl hr (by omega), ht]
  · rw [List.mem_append, List.mem_singleton] at hQ
    rcases hQ with hQ | rfl
    · exact hno Q hQ
    · exact ⟨hl, hr⟩

/-- A rule of the grammar stays in use, and the new one is. -/
theorem Wf.used_turn (h : Wf alph t₀ s)
    (hgen : TransGen (Replaces P (alph + s.rules.length)) s.text t') {k : Nat}
    (hk : k < s.rules.length + 1) : alph + k ∈ t' ∨ ∃ (j : Nat) (Q : Tpair), k < j ∧
      (s.rules ++ [P])[j]? = some Q ∧ (Q.left = alph + k ∨ Q.right = alph + k) := by
  rcases Nat.lt_or_eq_of_le (Nat.lt_succ_iff.mp hk) with hk | rfl
  · rcases h.used k hk with hmem | ⟨j, Q, hj, hQ, hQk⟩
    · -- a symbol that leaves the text is in the new rule
      have hstay := replaces_induction
        (I := fun t => alph + k ∈ t ∨ P.left = alph + k ∨ P.right = alph + k)
        hgen.to_reflTransGen (fun t t' hr ht => ?_) (Or.inl hmem)
      · exact hstay.imp_right fun hP => ⟨s.rules.length, P, hk, List.getElem?_concat_length, hP⟩
      · rcases ht with ht | ht
        · exact (hr.mem_old ht).imp_right fun he => he.imp Eq.symm Eq.symm
        · exact Or.inr ht
    · refine Or.inr ⟨j, Q, hj, ?_, hQk⟩
      rw [List.getElem?_append_left (List.getElem?_eq_some_iff.mp hQ).1, hQ]
  · -- the new symbol is in the text
    obtain ⟨t, -, hr⟩ := TransGen.tail'_iff.mp hgen
    exact Or.inl hr.new_mem

end Turn

/-- Every turn keeps the state well formed. -/
theorem Wf.turn (h : Wf alph t₀ s) (hturn : Turn alph s s') : Wf alph t₀ s' := by
  obtain ⟨P, hrules, hgen, hl, hr⟩ := hturn
  have hstar := hgen.to_reflTransGen
  have hlen : s'.rules.length = s.rules.length + 1 := by
    rw [hrules, List.length_append]
    rfl
  have hml := List.count_pos_iff.mp (by omega : 0 < s.text.count P.left)
  have hmr := List.count_pos_iff.mp (by omega : 0 < s.text.count P.right)
  -- both symbols of the pair occur twice, so neither is the symbol that occurs once
  have hne : ∀ σ < alph, t₀.count σ = 1 → P.left ≠ σ ∧ P.right ≠ σ := fun σ hσ hc => by
    have hone := (h.single σ hσ hc).1
    exact ⟨fun he => by rw [he] at hl; omega, fun he => by rw [he] at hr; omega⟩
  refine
    { symbols := fun x hx => ?_
      earlier := fun k Q hQ => h.earlier_concat hml hmr (hrules ▸ hQ)
      expands := hrules ▸ h.expands_turn hstar
      known := fun x hx hmem => h.known_turn hstar hml hmr hx (hrules ▸ hmem)
      single := fun σ hσ hc => ?_
      last := fun σ hσ hc hlast => ?_
      used := fun k hk => hrules ▸ h.used_turn hgen (hlen ▸ hk) }
  · rcases mem_replaces hstar hx with rfl | hx
    · omega
    · have := h.symbols x hx
      omega
  · rw [hrules]
    exact h.single_turn hstar hσ hc (hne σ hσ hc).1 (hne σ hσ hc).2
  · exact replaces_induction (I := fun t => t.getLast? = some σ) hstar
      (fun t t' hrep ht => hrep.getLast?_eq (hne σ hσ hc).2 ht) (h.last σ hσ hc hlast)

/-- Whatever number of turns it takes. -/
theorem Wf.turns (h : Wf alph t₀ s) (hturns : ReflTransGen (Turn alph) s s') : Wf alph t₀ s' := by
  induction hturns with
  | refl => exact h
  | tail _ ht ih => exact ih.turn ht

end Rewriting

end Laconic.RePair

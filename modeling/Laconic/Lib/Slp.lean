import Mathlib.Data.List.Forall2
import Mathlib.Logic.Relation
import Mathlib.Order.WellFoundedSet
import Mathlib.Tactic.Common
import Laconic.Lib.Splice

/-!
# Straight-line grammars

A grammar gives every symbol at most one right-hand side: `rhs x = none` for a terminal, and
`rhs x = some zs` for a rule.  `Expands rhs xs ys` says that expanding all rules in `xs`, in order
and to the end, gives the terminals `ys`.  There is at most one such `ys`, and there is one when
no rule leads back to itself.
-/

namespace Slp

open Relation

inductive Expands {α : Type} (rhs : α → Option (List α)) : List α → List α → Prop
  | nil : Expands rhs [] []
  | terminal {x xs ys} : rhs x = none → Expands rhs xs ys → Expands rhs (x :: xs) (x :: ys)
  | rule {x zs xs ys ys'} : rhs x = some zs → Expands rhs zs ys → Expands rhs xs ys' →
      Expands rhs (x :: xs) (ys ++ ys')

/-- `z` stands in the right-hand side of `x`. -/
def Refers {α : Type} (rhs : α → Option (List α)) (x z : α) : Prop := ∃ zs, rhs x = some zs ∧ z ∈ zs

/-- No symbol refers to itself, directly or through others. -/
def Acyclic {α : Type} (rhs : α → Option (List α)) : Prop := ∀ x, ¬ TransGen (Refers rhs) x x

variable {α : Type} {rhs rhs' : α → Option (List α)} {x y : α} {xs xs' ys ys' zs ws : List α}

/-- A rank that goes down along the rules excludes cycles. -/
theorem acyclic_of_rank (rank : α → Nat) (h : ∀ x z, Refers rhs x z → rank z < rank x) :
    Acyclic rhs := by
  have hdown : ∀ x z, TransGen (Refers rhs) x z → rank z < rank x := by
    intro x z hxz
    induction hxz with
    | single hstep => exact h _ _ hstep
    | tail _ hstep ih => exact Nat.lt_trans (h _ _ hstep) ih
  exact fun x hx => Nat.lt_irrefl _ (hdown x x hx)

/-- Reaching along the rules is a strict order when there is no cycle. -/
theorem Acyclic.isStrictOrder (h : Acyclic rhs) : IsStrictOrder α (TransGen (Refers rhs)) where
  irrefl := h
  trans _ _ _ hxy hyz := hxy.trans hyz

/-- A symbol that reaches another one refers to some symbol. -/
theorem source_mem {S : Set α} (hsource : ∀ x z, Refers rhs x z → x ∈ S) {z : α}
    (h : TransGen (Refers rhs) x z) : x ∈ S := by
  obtain ⟨y, hxy, -⟩ := TransGen.head'_iff.mp h
  exact hsource x y hxy

/-- Finitely many rules without a cycle are well founded. -/
theorem Acyclic.wellFounded (h : Acyclic rhs) {S : Set α} (hS : S.Finite)
    (hsource : ∀ x z, Refers rhs x z → x ∈ S) :
    WellFounded fun z x => TransGen (Refers rhs) x z := by
  have := h.isStrictOrder
  have hon : S.WellFoundedOn (Function.swap (TransGen (Refers rhs))) := hS.wellFoundedOn
  -- a symbol outside of `S` refers to nothing
  have hout : ∀ x, x ∉ S → Acc (fun z x => TransGen (Refers rhs) x z) x := by
    intro x hx
    exact Acc.intro x fun z hz => absurd (source_mem hsource hz) hx
  refine ⟨fun x => ?_⟩
  by_cases hx : x ∈ S
  · apply hon.induction hx
    intro y hy ih
    apply Acc.intro
    intro z hz
    by_cases hzS : z ∈ S
    · exact ih z hzS hz
    · exact hout z hzS
  · exact hout x hx

/-- They are well founded upwards as well. -/
theorem Acyclic.wellFounded_up (h : Acyclic rhs) {S : Set α} (hS : S.Finite)
    (hsource : ∀ x z, Refers rhs x z → x ∈ S) :
    WellFounded fun x z => TransGen (Refers rhs) x z := by
  have := h.isStrictOrder
  have hon : S.WellFoundedOn (TransGen (Refers rhs)) := hS.wellFoundedOn
  refine ⟨fun z => Acc.intro z fun x hx => ?_⟩
  apply hon.induction (source_mem hsource hx)
  intro y _ ih
  exact Acc.intro y fun w hw => ih w (source_mem hsource hw) hw

open Classical in
/-- The weight of `x` for weights `below` of the symbols below it; terminals weigh nothing. -/
noncomputable def weightOver (rhs : α → Option (List α)) (r : α → α → Prop) (x : α)
    (below : ∀ z, r z x → Nat) : Nat :=
  match rhs x with
  | none => 0
  | some zs => (zs.map fun z => if h : r z x then below z h else 0).sum + 1

/-- Symbols weigh more than their right-hand sides, for weights that are found from the bottom. -/
theorem exists_weight {r : α → α → Prop} (hwf : WellFounded r)
    (hdown : ∀ x z, Refers rhs x z → r z x) :
    ∃ weight : α → Nat, ∀ x zs, rhs x = some zs → (zs.map weight).sum < weight x := by
  classical
  refine ⟨hwf.fix (weightOver rhs r), fun x zs hx => ?_⟩
  have hall : (zs.map fun z => if r z x then hwf.fix (weightOver rhs r) z else 0) =
      zs.map (hwf.fix (weightOver rhs r)) :=
    List.map_congr_left fun z hz => if_pos (hdown x z ⟨zs, hx, hz⟩)
  rw [hwf.fix_eq (weightOver rhs r) x]
  simp only [weightOver, hx, dite_eq_ite, hall]
  exact Nat.lt_succ_self _

namespace Expands

@[simp] theorem nil_iff : Expands rhs [] ys ↔ ys = [] := by
  constructor
  · rintro ⟨⟩
    rfl
  · rintro rfl
    exact nil

theorem append (h : Expands rhs xs ys) (h' : Expands rhs xs' ys') :
    Expands rhs (xs ++ xs') (ys ++ ys') := by
  induction h with
  | nil => exact h'
  | terminal hx _ ih => exact terminal hx ih
  | rule hx hz _ _ ih =>
    rw [List.append_assoc]
    exact rule hx hz ih

/-- A joined list expands part by part. -/
theorem append_iff : Expands rhs (xs ++ xs') zs ↔
    ∃ ys ys', zs = ys ++ ys' ∧ Expands rhs xs ys ∧ Expands rhs xs' ys' := by
  constructor
  · intro h
    induction xs generalizing zs with
    | nil => exact ⟨[], zs, rfl, nil, h⟩
    | cons x xs ih =>
      cases h with
      | terminal hx h =>
        obtain ⟨ys, ys', rfl, h₁, h₂⟩ := ih h
        exact ⟨x :: ys, ys', rfl, terminal hx h₁, h₂⟩
      | rule hx hz h =>
        obtain ⟨ys, ys', rfl, h₁, h₂⟩ := ih h
        exact ⟨_ ++ ys, ys', by rw [List.append_assoc], rule hx hz h₁, h₂⟩
  · rintro ⟨ys, ys', rfl, h, h'⟩
    exact h.append h'

theorem singleton_of_none (hx : rhs x = none) : Expands rhs [x] ys ↔ ys = [x] := by
  constructor
  · intro h
    cases h with
    | terminal _ h => rw [nil_iff.mp h]
    | rule hx' => rw [hx] at hx'; cases hx'
  · rintro rfl
    exact terminal hx nil

theorem singleton_of_some (hx : rhs x = some zs) : Expands rhs [x] ys ↔ Expands rhs zs ys := by
  constructor
  · intro h
    cases h with
    | terminal hx' => rw [hx] at hx'; cases hx'
    | rule hx' hz h =>
      rw [hx, Option.some_inj] at hx'
      rw [nil_iff.mp h, List.append_nil, hx']
      exact hz
  · intro h
    rw [← List.append_nil ys]
    exact rule hx h nil

theorem cons_iff : Expands rhs (x :: xs) zs ↔
    ∃ ys ys', zs = ys ++ ys' ∧ Expands rhs [x] ys ∧ Expands rhs xs ys' := by
  rw [← List.singleton_append, append_iff]

/-- The full expansion is unique. -/
theorem unique (h : Expands rhs xs ys) (h' : Expands rhs xs ys') : ys = ys' := by
  induction h generalizing ys' with
  | nil => exact (nil_iff.mp h').symm
  | terminal hx _ ih =>
    cases h' with
    | terminal _ h' => rw [ih h']
    | rule hx' => rw [hx] at hx'; cases hx'
  | rule hx _ _ ihz ih =>
    cases h' with
    | terminal hx' => rw [hx] at hx'; cases hx'
    | rule hx' hz' h' =>
      rw [hx, Option.some_inj] at hx'
      subst hx'
      rw [ihz hz', ih h']

/-- Symbols in another order expand to terminals in another order. -/
theorem perm (h : Expands rhs xs ys) (hp : xs.Perm xs') :
    ∃ ys', Expands rhs xs' ys' ∧ ys.Perm ys' := by
  induction hp generalizing ys with
  | nil => exact ⟨ys, h, List.Perm.refl ys⟩
  | cons x _ ih =>
    obtain ⟨as, bs, rfl, ha, hb⟩ := cons_iff.mp h
    obtain ⟨bs', hb', hperm⟩ := ih hb
    exact ⟨as ++ bs', cons_iff.mpr ⟨as, bs', rfl, ha, hb'⟩, hperm.append_left as⟩
  | swap x y l =>
    obtain ⟨as, cs, rfl, ha, hc⟩ := cons_iff.mp h
    obtain ⟨bs, ds, rfl, hb, hd⟩ := cons_iff.mp hc
    refine ⟨bs ++ (as ++ ds), ?_, ?_⟩
    · exact cons_iff.mpr ⟨bs, as ++ ds, rfl, hb, cons_iff.mpr ⟨as, ds, rfl, ha, hd⟩⟩
    · rw [← List.append_assoc, ← List.append_assoc]
      exact List.perm_append_comm.append_right ds
  | trans _ _ ih₁ ih₂ =>
    obtain ⟨ys₁, h₁, hp₁⟩ := ih₁ h
    obtain ⟨ys₂, h₂, hp₂⟩ := ih₂ h₁
    exact ⟨ys₂, h₂, hp₁.trans hp₂⟩

/-- So do rules with right-hand sides in another order. -/
theorem perm_rhs (hnone : ∀ x, rhs x = none → rhs' x = none)
    (hsome : ∀ x zs, rhs x = some zs → ∃ zs', rhs' x = some zs' ∧ zs.Perm zs')
    (h : Expands rhs xs ys) : ∃ ys', Expands rhs' xs ys' ∧ ys.Perm ys' := by
  induction h with
  | nil => exact ⟨[], .nil, List.Perm.refl _⟩
  | terminal hx _ ih =>
    obtain ⟨ys', h', hperm⟩ := ih
    exact ⟨_, .terminal (hnone _ hx) h', hperm.cons _⟩
  | rule hx _ _ ihz ih =>
    obtain ⟨zs', hx', hzs⟩ := hsome _ _ hx
    obtain ⟨as, ha, hpa⟩ := ihz
    obtain ⟨as', ha', hpa'⟩ := ha.perm hzs
    obtain ⟨bs, hb, hpb⟩ := ih
    exact ⟨as' ++ bs, .rule hx' ha' hb, (hpa.trans hpa').append hpb⟩

/-- A rule in its own right-hand side has no expansion. -/
theorem not_mem_of_self (h : Expands rhs xs ys) (hx : rhs x = some zs) (hmem : x ∈ zs) : x ∉ xs := by
  induction h with
  | nil => exact List.not_mem_nil
  | terminal hy _ ih =>
    rw [List.mem_cons, not_or]
    refine ⟨fun heq => ?_, ih⟩
    rw [heq, hy] at hx
    cases hx
  | rule hy _ _ ihz ih =>
    rw [List.mem_cons, not_or]
    refine ⟨fun heq => ?_, ih⟩
    subst heq
    rw [hy, Option.some_inj] at hx
    exact ihz (hx ▸ hmem)

theorem of_terminals (h : ∀ x ∈ xs, rhs x = none) : Expands rhs xs xs := by
  induction xs with
  | nil => exact nil
  | cons x xs ih =>
    exact terminal (h x List.mem_cons_self) (ih fun y hy => h y (List.mem_cons_of_mem _ hy))

/-- What holds of the symbols and is passed on by every rule holds of the expansion. -/
theorem closed {C : α → Prop} (hC : ∀ x zs, C x → rhs x = some zs → ∀ z ∈ zs, C z)
    (h : Expands rhs xs ys) (hxs : ∀ x ∈ xs, C x) : ∀ y ∈ ys, C y := by
  induction h with
  | nil => simp
  | terminal _ _ ih =>
    intro y hy
    rcases List.mem_cons.mp hy with rfl | hy
    · exact hxs y List.mem_cons_self
    · exact ih (fun x hx => hxs x (List.mem_cons_of_mem _ hx)) y hy
  | rule hx _ _ ihz ih =>
    intro y hy
    rcases List.mem_append.mp hy with hy | hy
    · exact ihz (hC _ _ (hxs _ List.mem_cons_self) hx) y hy
    · exact ih (fun x hx => hxs x (List.mem_cons_of_mem _ hx)) y hy

theorem eq_none_of_mem (h : Expands rhs xs ys) : ∀ y ∈ ys, rhs y = none := by
  induction h with
  | nil => simp
  | terminal hx _ ih =>
    intro y hy
    rcases List.mem_cons.mp hy with rfl | hy
    · exact hx
    · exact ih y hy
  | rule _ _ _ ihz ih =>
    intro y hy
    rcases List.mem_append.mp hy with hy | hy
    · exact ihz y hy
    · exact ih y hy

/-- Rules that are not empty expand to something. -/
theorem ne_nil (hrule : ∀ x zs, rhs x = some zs → zs ≠ []) (h : Expands rhs xs ys)
    (hxs : xs ≠ []) : ys ≠ [] := by
  induction h with
  | nil => exact absurd rfl hxs
  | terminal => exact List.cons_ne_nil _ _
  | rule hx _ _ ihz _ => exact List.append_ne_nil_of_left_ne_nil (ihz (hrule _ _ hx)) _

/-- A grammar whose right-hand sides expand as those of another one expands as the other one. -/
theorem refine_rhs {C : α → Prop} (hC : ∀ x zs, C x → rhs x = some zs → ∀ z ∈ zs, C z)
    (hnone : ∀ x, C x → rhs x = none → rhs' x = none)
    (hsome : ∀ x zs, C x → rhs x = some zs → ∃ zs', rhs' x = some zs' ∧
      ∀ ys, Expands rhs' zs ys → Expands rhs' zs' ys)
    (h : Expands rhs xs ys) (hxs : ∀ x ∈ xs, C x) : Expands rhs' xs ys := by
  induction h with
  | nil => exact nil
  | terminal hx _ ih =>
    exact terminal (hnone _ (hxs _ List.mem_cons_self) hx)
      (ih fun x hx => hxs x (List.mem_cons_of_mem _ hx))
  | rule hx _ _ ihz ih =>
    have hc := hxs _ List.mem_cons_self
    obtain ⟨zs', hzs', hexp⟩ := hsome _ _ hc hx
    exact rule hzs' (hexp _ (ihz (hC _ _ hc hx)))
      (ih fun x hx => hxs x (List.mem_cons_of_mem _ hx))

/-- Two grammars that agree on a set of symbols closed under the rules expand it alike. -/
theorem congr {C : α → Prop} (hC : ∀ x zs, C x → rhs x = some zs → ∀ z ∈ zs, C z)
    (heq : ∀ x, C x → rhs' x = rhs x) (h : Expands rhs xs ys) (hxs : ∀ x ∈ xs, C x) :
    Expands rhs' xs ys :=
  refine_rhs hC (fun x hx hrhs => (heq x hx).trans hrhs)
    (fun x zs hx hrhs => ⟨zs, (heq x hx).trans hrhs, fun _ hys => hys⟩) h hxs

/-- Renaming the symbols of a grammar. -/
theorem map {β : Type} {rhs' : β → Option (List β)} {C : α → Prop} (f : α → β)
    (hC : ∀ x zs, C x → rhs x = some zs → ∀ z ∈ zs, C z)
    (hnone : ∀ x, C x → rhs x = none → rhs' (f x) = none)
    (hsome : ∀ x zs, C x → rhs x = some zs → rhs' (f x) = some (zs.map f))
    (h : Expands rhs xs ys) (hxs : ∀ x ∈ xs, C x) : Expands rhs' (xs.map f) (ys.map f) := by
  induction h with
  | nil => exact nil
  | terminal hx _ ih =>
    exact terminal (hnone _ (hxs _ List.mem_cons_self) hx)
      (ih fun x hx => hxs x (List.mem_cons_of_mem _ hx))
  | rule hx _ _ ihz ih =>
    have hc := hxs _ List.mem_cons_self
    rw [List.map_append]
    exact rule (hsome _ _ hc hx) (ihz (hC _ _ hc hx))
      (ih fun x hx => hxs x (List.mem_cons_of_mem _ hx))

/-- Every expansion of renamed symbols is a renamed expansion. -/
theorem of_map {β : Type} {rhs' : β → Option (List β)} {C : α → Prop} (f : α → β)
    (hC : ∀ x zs, C x → rhs x = some zs → ∀ z ∈ zs, C z)
    (hnone : ∀ x, C x → rhs x = none → rhs' (f x) = none)
    (hsome : ∀ x zs, C x → rhs x = some zs → rhs' (f x) = some (zs.map f)) {us ws : List β}
    (h : Expands rhs' us ws) : ∀ xs, us = xs.map f → (∀ x ∈ xs, C x) →
      ∃ ys, ws = ys.map f ∧ Expands rhs xs ys := by
  induction h with
  | nil =>
    intro xs hus _
    rw [List.map_eq_nil_iff.mp hus.symm]
    exact ⟨[], rfl, nil⟩
  | terminal hu _ ih =>
    intro xs hus hxs
    obtain ⟨x, xs, rfl, rfl, rfl⟩ := List.map_eq_cons_iff.mp hus.symm
    have hc := hxs x List.mem_cons_self
    obtain ⟨ys, rfl, hys⟩ := ih xs rfl fun y hy => hxs y (List.mem_cons_of_mem _ hy)
    cases hx : rhs x with
    | none => exact ⟨x :: ys, rfl, terminal hx hys⟩
    | some zs =>
      rw [hsome x zs hc hx] at hu
      cases hu
  | rule hu _ _ ihz ih =>
    intro xs hus hxs
    obtain ⟨x, xs, rfl, rfl, rfl⟩ := List.map_eq_cons_iff.mp hus.symm
    have hc := hxs x List.mem_cons_self
    obtain ⟨ys', rfl, hys'⟩ := ih xs rfl fun y hy => hxs y (List.mem_cons_of_mem _ hy)
    cases hx : rhs x with
    | none =>
      rw [hnone x hc hx] at hu
      cases hu
    | some zs =>
      rw [hsome x zs hc hx, Option.some_inj] at hu
      obtain ⟨ys, rfl, hys⟩ := ihz zs hu.symm (hC x zs hc hx)
      exact ⟨ys ++ ys', List.map_append.symm, rule hx hys hys'⟩

/-- Replacing a right-hand side by its symbol changes no expansion. -/
theorem fold_iff (hx : rhs x = some zs) :
    Expands rhs (xs ++ x :: xs') ws ↔ Expands rhs (xs ++ zs ++ xs') ws := by
  rw [append_iff, List.append_assoc, append_iff]
  refine exists_congr fun ys => exists_congr fun ys' => and_congr_right fun _ =>
    and_congr_right fun _ => ?_
  rw [cons_iff, append_iff]
  refine exists_congr fun vs => exists_congr fun vs' => and_congr_right fun _ =>
    and_congr_left fun _ => singleton_of_some hx

/-- When the rules go down in a well founded relation their symbols have expansions. -/
theorem exists_of_wellFounded {r : α → α → Prop} (hwf : WellFounded r) {C : α → Prop}
    (hC : ∀ x zs, C x → rhs x = some zs → ∀ z ∈ zs, C z ∧ r z x) (hxs : ∀ x ∈ xs, C x) :
    ∃ ys, Expands rhs xs ys := by
  -- the list follows from its symbols
  have hlist : ∀ xs : List α, (∀ x ∈ xs, ∃ ys, Expands rhs [x] ys) → ∃ ys, Expands rhs xs ys := by
    intro xs hxs
    induction xs with
    | nil => exact ⟨[], nil⟩
    | cons x xs ih =>
      obtain ⟨ys, hys⟩ := hxs x List.mem_cons_self
      obtain ⟨ys', hys'⟩ := ih fun y hy => hxs y (List.mem_cons_of_mem _ hy)
      exact ⟨ys ++ ys', hys.append hys'⟩
  have hsymbol : ∀ x, C x → ∃ ys, Expands rhs [x] ys := by
    intro x
    induction x using hwf.induction with
    | h x ih =>
      intro hx
      cases hrhs : rhs x with
      | none => exact ⟨[x], terminal hrhs nil⟩
      | some zs =>
        obtain ⟨ws, hws⟩ := hlist zs fun z hz =>
          ih z (hC x zs hx hrhs z hz).2 (hC x zs hx hrhs z hz).1
        exact ⟨ws, (singleton_of_some hrhs).mpr hws⟩
  exact hlist xs fun x hx => hsymbol x (hxs x hx)

/-- Inlining a symbol that stands for `ws` changes no expansion. -/
theorem inline_iff [DecidableEq α] (hx : ∀ ys, Expands rhs ws ys ↔ Expands rhs [x] ys) :
    Expands rhs (Splice.inline x ws xs) zs ↔ Expands rhs xs zs := by
  induction xs generalizing zs with
  | nil => rfl
  | cons y xs ih =>
    rw [Splice.inline_cons, append_iff, cons_iff]
    refine exists_congr fun ys => exists_congr fun ys' => and_congr_right fun _ => ?_
    by_cases hy : y = x
    · rw [if_pos hy, hy, hx, ih]
    · rw [if_neg hy, ih]

end Expands

/-! ## Lists cut at separators -/

/-- The parts of a list that end in a separator; `acc` is the part being read. -/
def cutFrom (sep : α → Bool) : List α → List α → List (List α)
  | _, [] => []
  | acc, x :: xs => if sep x then acc :: cutFrom sep [] xs else cutFrom sep (acc ++ [x]) xs

def cut (sep : α → Bool) (xs : List α) : List (List α) := cutFrom sep [] xs

section Cut

variable {sep : α → Bool} {acc acc' : List α}

theorem cutFrom_append (h : ∀ x ∈ xs, sep x = false) :
    cutFrom sep acc (xs ++ ys) = cutFrom sep (acc ++ xs) ys := by
  induction xs generalizing acc with
  | nil => simp
  | cons x xs ih =>
    rw [List.cons_append, cutFrom, if_neg (by simp [h x List.mem_cons_self]),
      ih fun y hy => h y (List.mem_cons_of_mem _ hy), List.append_assoc, List.singleton_append]

theorem cutFrom_sep (h : sep x = true) : cutFrom sep acc (x :: xs) = acc :: cut sep xs := by
  rw [cutFrom, if_pos h, cut]

/-- The parts are made of the symbols that are no separators. -/
theorem mem_of_mem_cutFrom {r : List α} (hr : r ∈ cutFrom sep acc xs) (hx : x ∈ r) :
    x ∈ acc ∨ (x ∈ xs ∧ sep x = false) := by
  induction xs generalizing acc with
  | nil => simp [cutFrom] at hr
  | cons y xs ih =>
    cases hy : sep y with
    | true =>
      rw [cutFrom_sep hy, List.mem_cons] at hr
      rcases hr with rfl | hr
      · exact Or.inl hx
      · rcases ih hr with h | ⟨h, hs⟩
        · simp at h
        · exact Or.inr ⟨List.mem_cons_of_mem _ h, hs⟩
    | false =>
      rw [cutFrom, if_neg (by simp [hy])] at hr
      rcases ih hr with h | ⟨h, hs⟩
      · rcases List.mem_append.mp h with h | h
        · exact Or.inl h
        · obtain rfl := List.mem_singleton.mp h
          exact Or.inr ⟨List.mem_cons_self, hy⟩
      · exact Or.inr ⟨List.mem_cons_of_mem _ h, hs⟩

/-- A symbol that is no separator is in a part when a separator follows. -/
theorem exists_mem_cutFrom (hx : x ∈ acc ∨ (x ∈ xs ∧ sep x = false))
    (hlast : ∃ σ, xs.getLast? = some σ ∧ sep σ = true) : ∃ r ∈ cutFrom sep acc xs, x ∈ r := by
  induction xs generalizing acc with
  | nil => simp at hlast
  | cons y xs ih =>
    obtain ⟨σ, hσ, hs⟩ := hlast
    have hrest : xs ≠ [] → ∃ σ, xs.getLast? = some σ ∧ sep σ = true := fun hne => by
      obtain ⟨z, zs, rfl⟩ := List.exists_cons_of_ne_nil hne
      rw [List.getLast?_cons_cons] at hσ
      exact ⟨σ, hσ, hs⟩
    cases hy : sep y with
    | true =>
      rw [cutFrom_sep hy]
      rcases hx with hx | ⟨hx, hxs⟩
      · exact ⟨acc, List.mem_cons_self, hx⟩
      · have hxs' : x ∈ xs := (List.mem_cons.mp hx).resolve_left fun he => by
          rw [he, hy] at hxs
          cases hxs
        obtain ⟨r, hr, hxr⟩ := ih (Or.inr ⟨hxs', hxs⟩) (hrest (List.ne_nil_of_mem hxs'))
        exact ⟨r, List.mem_cons_of_mem _ hr, hxr⟩
    | false =>
      rw [cutFrom, if_neg (by simp [hy])]
      refine ih ?_ (hrest fun he => ?_)
      · rcases hx with hx | ⟨hx, hxs⟩
        · exact Or.inl (List.mem_append_left _ hx)
        · rcases List.mem_cons.mp hx with rfl | hx
          · exact Or.inl (by simp)
          · exact Or.inr ⟨hx, hxs⟩
      · rw [he, List.getLast?_singleton, Option.some_inj] at hσ
        rw [hσ, hs] at hy
        cases hy

/-- When rules never produce a separator, the parts of the expansion are the expansions of the
parts. -/
theorem Expands.cutFrom (hsep : ∀ x, sep x = true → rhs x = none)
    (hrule : ∀ x, sep x = false → ∀ ys, Expands rhs [x] ys → ∀ y ∈ ys, sep y = false)
    (h : Expands rhs xs ys) (hacc : Expands rhs acc acc') :
    List.Forall₂ (Expands rhs) (cutFrom sep acc xs) (cutFrom sep acc' ys) := by
  induction xs generalizing ys acc acc' with
  | nil =>
    rw [Expands.nil_iff.mp h]
    exact List.Forall₂.nil
  | cons x xs ih =>
    obtain ⟨zs, ws, rfl, hx, hxs⟩ := Expands.cons_iff.mp h
    cases hs : sep x with
    | true =>
      rw [(Expands.singleton_of_none (hsep x hs)).mp hx, List.singleton_append, cutFrom_sep hs,
        cutFrom_sep hs]
      exact List.Forall₂.cons hacc (ih hxs Expands.nil)
    | false =>
      rw [cutFrom_append (hrule x hs zs hx), ← List.singleton_append,
        cutFrom_append (by simpa using hs)]
      exact ih hxs (hacc.append hx)

end Cut

end Slp

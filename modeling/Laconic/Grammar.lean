import Mathlib.Data.Int.Interval
import Laconic.Lib.Csr
import Laconic.Lib.Slp

/-!
# Graphs with rules

A compressed graph is a CSR whose first rows are the vertices and whose other rows are rules.  An
entry below `bound` is a vertex; the entry `bound + k` stands for the rule in row `first + k`.
-/

namespace Laconic

open Slp

/-- The grammar of a compressed graph. -/
def csrRhs (bound first : Int) (vlist elist : List Int) (x : Int) : Option (List Int) :=
  if x < bound then none else some (Csr.row vlist elist (first + (x - bound)).toNat)

variable {bound first : Int} {vlist elist : List Int}

theorem csrRhs_vertex {x : Int} (h : x < bound) : csrRhs bound first vlist elist x = none :=
  if_pos h

theorem csrRhs_rule {n : Nat} (k : Nat) : csrRhs bound n vlist elist (bound + k) =
    some (Csr.row vlist elist (n + k)) := by
  rw [csrRhs, if_neg (by omega), show ((n : Int) + (bound + k - bound)).toNat = n + k by omega]

theorem csrRhs_row {V : Nat} {x : Int} (hx : (V : Int) ≤ x) :
    csrRhs V V vlist elist x = some (Csr.row vlist elist x.toNat) := by
  rw [csrRhs, if_neg (by omega)]
  congr 2
  omega

/-- Only the rules refer to anything. -/
theorem csrRhs_source {V : Nat} {x z : Int} (h : Refers (csrRhs V V vlist elist) x z) :
    (V : Int) ≤ x ∧ x.toNat + 1 < vlist.length ∧ z ∈ Csr.row vlist elist x.toNat := by
  obtain ⟨zs, hrhs, hz⟩ := h
  have hV : (V : Int) ≤ x := by
    by_contra hlt
    rw [csrRhs_vertex (by omega)] at hrhs
    cases hrhs
  rw [csrRhs_row hV, Option.some_inj] at hrhs
  subst hrhs
  refine ⟨hV, ?_, hz⟩
  by_contra hge
  rw [Csr.row_of_le (by omega)] at hz
  cases hz

/-- A rank that goes down from rule to rule. -/
theorem acyclic_csrRhs {V : Nat} (rank : Nat → Nat) (h : ∀ v, v < vlist.length - 1 → V ≤ v →
    ∀ x ∈ Csr.row vlist elist v, (V : Int) ≤ x → rank x.toNat < rank v) :
    Acyclic (csrRhs V V vlist elist) := by
  refine acyclic_of_rank (fun x => if x < (V : Int) then 0 else rank x.toNat + 1) fun x z hxz => ?_
  obtain ⟨hV, hlt, hz⟩ := csrRhs_source hxz
  rw [if_neg (show ¬ x < (V : Int) by omega)]
  split
  · exact Nat.succ_pos _
  · exact Nat.succ_lt_succ (h x.toNat (by omega) (by omega) z hz (by omega))

/-- A compressed graph with `V` vertices and `k` rules, none of which leads back to itself. -/
structure RuleGraph (vlist elist : List Int) (V k : Nat) : Prop where
  valid : Csr.Valid vlist elist
  length : vlist.length = V + k + 1
  entries : ∀ v, v < V + k → ∀ x ∈ Csr.row vlist elist v, 0 ≤ x ∧ x < (V : Int) + k
  acyclic : Acyclic (csrRhs V V vlist elist)

namespace RuleGraph

variable {V k : Nat}

/-- Only the rules refer to anything. -/
theorem mem_of_refers (h : RuleGraph vlist elist V k) {x z : Int}
    (hxz : Refers (csrRhs V V vlist elist) x z) : (V : Int) ≤ x ∧ x < (V : Int) + k := by
  have hx := csrRhs_source hxz
  have hlen := h.length
  exact ⟨hx.1, by omega⟩

theorem wellFounded (h : RuleGraph vlist elist V k) :
    WellFounded fun z x => Relation.TransGen (Refers (csrRhs V V vlist elist)) x z :=
  h.acyclic.wellFounded (Set.finite_Ico (V : Int) (V + k)) fun _ _ => h.mem_of_refers

theorem wellFounded_up (h : RuleGraph vlist elist V k) :
    WellFounded fun x z => Relation.TransGen (Refers (csrRhs V V vlist elist)) x z :=
  h.acyclic.wellFounded_up (Set.finite_Ico (V : Int) (V + k)) fun _ _ => h.mem_of_refers

/-- What a rule stands for are nodes of the graph. -/
theorem mem_rhs (h : RuleGraph vlist elist V k) {x : Int} {zs : List Int}
    (hx : csrRhs V V vlist elist x = some zs) : ∀ z ∈ zs, 0 ≤ z ∧ z < (V : Int) + k := by
  intro z hz
  have hsrc := csrRhs_source ⟨zs, hx, hz⟩
  have hlen := h.length
  exact h.entries x.toNat (by omega) z hsrc.2.2

theorem exists_expansion (h : RuleGraph vlist elist V k) (xs : List Int) :
    ∃ ys, Expands (csrRhs V V vlist elist) xs ys :=
  Expands.exists_of_wellFounded h.wellFounded
    (fun _ zs (_ : True) hx _ hz => ⟨trivial, Relation.TransGen.single ⟨zs, hx, hz⟩⟩)
    fun _ _ => trivial

end RuleGraph

end Laconic

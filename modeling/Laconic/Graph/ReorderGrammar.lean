import Laconic.Grammar
import Laconic.Graph.Reorder

/-!
# Renumbering a compressed graph

`bfs_reorder.py` is run on a compressed graph, so rules and vertices are numbered together and the
rules are no longer the nodes behind the vertices.  A node of the new graph is a rule when
`new_vertex_id` has a rule for it.  Read in this way the new graph stands for the same graph: what a
row expands to is what the old row expands to, in the new numbers.
-/

namespace Laconic.Graph

open Slp

variable {vlist elist : List Int} {V k : Nat}

/-- The rules of the written graph. -/
def reorderedRhs (V : Nat) (newVertexId : Block Int) (vlist elist : List Int) (x : Int) :
    Option (List Int) :=
  if newVertexId.cells x < V then none else some (Csr.row vlist elist x.toNat)

/-- The arrays that the traversal fills translate between the two graphs. -/
structure Renumbers (vlist elist newVlist newElist : List Int) (m : Nat)
    (newVertexId reverseId : Block Int) : Prop where
  inverse : ∀ v : Nat, v < m → newVertexId.cells (reverseId.cells v) = v
  range : ∀ v : Nat, v < m → 0 ≤ reverseId.cells v ∧ reverseId.cells v < (m : Int)
  row : ∀ v : Nat, v < m → Csr.row newVlist newElist (reverseId.cells v).toNat =
    (Csr.row vlist elist v).map reverseId.cells

/-- The script writes a graph with such arrays. -/
theorem exists_renumbers {m fuel : Nat} (hvalid : Csr.Valid vlist elist)
    (hlen : vlist.length = m + 1) (hent : ∀ x ∈ elist, 0 ≤ x ∧ x < (m : Int)) (hfuel : m < fuel) :
    ∃ s newVlist newElist, bfsAll fuel vlist elist = .ok s ∧
      writeReordered vlist elist s.newVertexId s.reverseId = .ok (newVlist, newElist) ∧
      Renumbers vlist elist newVlist newElist m s.newVertexId s.reverseId := by
  obtain ⟨s, d, hrun, hd, hs, hq⟩ := bfsAll_eq hvalid hlen hent hfuel
  have hrange := hs.range
  have hfirst := hs.first
  rw [hq, List.append_nil] at hrange hfirst
  have hwrite := writeReordered_eq hvalid hlen hd hrange hs.newSize
    (fun i v hv => (hs.ids i v hv).1)
    (fun x hx => ⟨(hent x hx).1, by rw [hs.reverseSize]; exact (hent x hx).2⟩)
  -- the place of a node among the numbered ones
  have hplace : ∀ v : Nat, v < m → ∃ j : Nat, j < m ∧ d[j]? = some (v : Int) ∧
      s.newVertexId.cells j = v ∧ s.reverseId.cells v = j := by
    intro v hv
    obtain ⟨j, hj⟩ := List.mem_iff_getElem?.mp (hfirst v (by omega) (by omega))
    have hjlt := (List.getElem?_eq_some_iff.mp hj).1
    exact ⟨j, by omega, hj, hs.ids j v hj⟩
  refine ⟨s, _, _, hrun, hwrite, fun v hv => ?_, fun v hv => ?_, fun v hv => ?_⟩
  · obtain ⟨j, -, -, hnew, hreverse⟩ := hplace v hv
    rw [hreverse, hnew]
  · obtain ⟨j, hj, -, -, hreverse⟩ := hplace v hv
    rw [hreverse]
    omega
  · obtain ⟨j, hj, hget, -, hreverse⟩ := hplace v hv
    obtain ⟨hjlt, hdj⟩ := List.getElem?_eq_some_iff.mp hget
    rw [hreverse, Int.toNat_natCast, Csr.row_offsets (by rw [List.length_map]; exact hjlt),
      List.getElem_map, hdj, renamedRow, Int.toNat_natCast]

section Expansion

variable {newVlist newElist : List Int} {newVertexId reverseId : Block Int}

/-- A node and its new number are both vertices, or both rules with the same row. -/
theorem Renumbers.rhs (hr : Renumbers vlist elist newVlist newElist (V + k) newVertexId reverseId)
    {x : Int} (hx : 0 ≤ x ∧ x < (V : Int) + k) :
    reorderedRhs V newVertexId newVlist newElist (reverseId.cells x) =
      (csrRhs V V vlist elist x).map (List.map reverseId.cells) := by
  obtain ⟨v, rfl⟩ := Int.eq_ofNat_of_zero_le hx.1
  unfold reorderedRhs
  rw [hr.inverse v (by omega)]
  by_cases hv : (v : Int) < V
  · rw [if_pos hv, csrRhs_vertex hv, Option.map_none]
  · rw [if_neg hv, csrRhs_row (by omega), hr.row v (by omega), Option.map_some, Int.toNat_natCast]

/-- Expanding commutes with the renumbering. -/
theorem Renumbers.expands (hr : Renumbers vlist elist newVlist newElist (V + k) newVertexId reverseId)
    (h : RuleGraph vlist elist V k) {xs ys : List Int} (hxs : ∀ x ∈ xs, 0 ≤ x ∧ x < (V : Int) + k)
    (hys : Expands (csrRhs V V vlist elist) xs ys) :
    Expands (reorderedRhs V newVertexId newVlist newElist) (xs.map reverseId.cells)
      (ys.map reverseId.cells) := by
  apply Expands.map reverseId.cells (fun _ _ _ hx => h.mem_rhs hx) ?_ ?_ hys hxs
  · intro x hx hnone
    rw [hr.rhs hx, hnone, Option.map_none]
  · intro x zs hx hsome
    rw [hr.rhs hx, hsome, Option.map_some]

/-- An expansion has nodes of the graph only. -/
theorem mem_of_expands (h : RuleGraph vlist elist V k) {xs ys : List Int}
    (hxs : ∀ x ∈ xs, 0 ≤ x ∧ x < (V : Int) + k) (hys : Expands (csrRhs V V vlist elist) xs ys) :
    ∀ y ∈ ys, 0 ≤ y ∧ y < (V : Int) + k :=
  hys.closed (fun _ _ _ hx => h.mem_rhs hx) hxs

end Expansion

/-- Decompressing the written graph and translating its numbers back gives what the given graph
decompresses to, for every vertex and every rule. -/
theorem reorder_preserves {fuel : Nat} (h : RuleGraph vlist elist V k)
    (hent : ∀ x ∈ elist, 0 ≤ x ∧ x < (V : Int) + k) (hfuel : V + k < fuel) :
    ∃ s newVlist newElist, bfsAll fuel vlist elist = .ok s ∧
      writeReordered vlist elist s.newVertexId s.reverseId = .ok (newVlist, newElist) ∧
      ∀ v : Nat, v < V + k → ∃ zs,
        Expands (reorderedRhs V s.newVertexId newVlist newElist)
          (Csr.row newVlist newElist (s.reverseId.cells v).toNat) zs ∧
        Expands (csrRhs V V vlist elist) (Csr.row vlist elist v) (zs.map s.newVertexId.cells) := by
  obtain ⟨s, newVlist, newElist, hrun, hwrite, hr⟩ :=
    exists_renumbers h.valid h.length (by exact_mod_cast hent) hfuel
  refine ⟨s, newVlist, newElist, hrun, hwrite, fun v hv => ?_⟩
  obtain ⟨ys, hys⟩ := h.exists_expansion (Csr.row vlist elist v)
  have hnew := hr.expands h (h.entries v hv) hys
  rw [← hr.row v hv] at hnew
  refine ⟨ys.map s.reverseId.cells, hnew, ?_⟩
  have hback : (ys.map s.reverseId.cells).map s.newVertexId.cells = ys := by
    rw [List.map_map]
    conv_rhs => rw [← List.map_id ys]
    apply List.map_congr_left
    intro y hy
    obtain ⟨h0, hlt⟩ := mem_of_expands h (h.entries v hv) hys y hy
    obtain ⟨u, rfl⟩ := Int.eq_ofNat_of_zero_le h0
    exact hr.inverse u (by omega)
  rw [hback]
  exact hys

/-- Two vertices and two rules, one of which refers to the other. -/
theorem reorder_preserves_nested : ∃ s newVlist newElist,
    bfsAll 5 [0, 1, 2, 4, 6] [2, 3, 3, 0, 0, 1] = .ok s ∧
    writeReordered [0, 1, 2, 4, 6] [2, 3, 3, 0, 0, 1] s.newVertexId s.reverseId =
      .ok (newVlist, newElist) ∧
    ∀ v : Nat, v < 2 + 2 → ∃ zs,
      Expands (reorderedRhs 2 s.newVertexId newVlist newElist)
        (Csr.row newVlist newElist (s.reverseId.cells v).toNat) zs ∧
      Expands (csrRhs (2 : Nat) (2 : Nat) [0, 1, 2, 4, 6] [2, 3, 3, 0, 0, 1])
        (Csr.row [0, 1, 2, 4, 6] [2, 3, 3, 0, 0, 1] v) (zs.map s.newVertexId.cells) := by
  have hg : RuleGraph [0, 1, 2, 4, 6] [2, 3, 3, 0, 0, 1] 2 2 :=
    ⟨⟨rfl, by decide, by decide⟩, rfl, by decide, acyclic_csrRhs (fun v => 4 - v) (by decide)⟩
  exact reorder_preserves hg (by decide) (by decide)

end Laconic.Graph

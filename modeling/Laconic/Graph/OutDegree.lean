import Mathlib.Algebra.BigOperators.Ring.Finset
import Laconic.Graph.Splice

/-!
# The degree of the active rows

`get_out_degree` of `get_part_graph_info.h` adds up the degrees of a list of rows in a parallel loop with a
reduction: every thread has a sum of its own for some of the rows, and the sums are added in the end.  For the
rows that `splice_csr_condense_row` lists, this is the number of edges that it keeps.
-/

namespace Laconic.Graph

/-- `local_degree`. -/
def localDegree (vlist : List Int) (vid : Int) : Run Int := do
  let start ← (Block.ofList vlist).read vid
  let stop ← (Block.ofList vlist).read (vid + 1)
  pure (stop - start)

/-- What a thread adds up for its rows. -/
def threadDegree (vlist rows : List Int) : Run Int :=
  rows.foldlM (fun degree vid => do
    let d ← localDegree vlist vid
    pure (degree + d)) 0

/-- `get_out_degree`: each thread has some of the rows, and the sums of the threads are added. -/
def getOutDegree (vlist : List Int) (parts : List (List Int)) : Run Int := do
  let degrees ← parts.mapM (threadDegree vlist)
  pure degrees.sum

section OutDegree

variable {vlist elist : List Int}

/-- The length of row `v`. -/
def rowLength (vlist elist : List Int) (v : Int) : Int := (Csr.row vlist elist v.toNat).length

theorem localDegree_eq (hvalid : Csr.Valid vlist elist) {v : Int} (h0 : 0 ≤ v)
    (hv : v + 1 < vlist.length) : localDegree vlist v = .ok (rowLength vlist elist v) := by
  obtain ⟨v, rfl⟩ := Int.eq_ofNat_of_zero_le h0
  have hv' : v + 1 < vlist.length := by omega
  unfold localDegree rowLength
  rw [Block.read_getD (by omega) 0, Run.ok_bind,
    show (v : Int) + 1 = ((v + 1 : Nat) : Int) by omega, Block.read_getD hv' 0, Run.ok_bind,
    Int.toNat_natCast, hvalid.length_row hv']
  rfl

theorem threadDegree_eq (hvalid : Csr.Valid vlist elist) {rows : List Int}
    (hrows : ∀ v ∈ rows, 0 ≤ v ∧ v + 1 < vlist.length) :
    threadDegree vlist rows = .ok (rows.map (rowLength vlist elist)).sum := by
  -- from any sum that the thread has already
  have hfrom : ∀ degree, rows.foldlM (fun degree vid => do
      let d ← localDegree vlist vid
      pure (degree + d)) degree = .ok (degree + (rows.map (rowLength vlist elist)).sum) := by
    induction rows with
    | nil =>
      intro degree
      rw [List.map_nil, List.sum_nil, Int.add_zero]
      rfl
    | cons v rows ih =>
      intro degree
      obtain ⟨h0, hv⟩ := hrows v List.mem_cons_self
      rw [List.foldlM_cons, localDegree_eq hvalid h0 hv, Run.ok_bind, Run.pure_bind,
        ih fun u hu => hrows u (List.mem_cons_of_mem v hu), List.map_cons, List.sum_cons,
        Int.add_assoc]
  rw [threadDegree, hfrom, Int.zero_add]

/-- However the rows are distributed, `get_out_degree` counts the edges that splicing keeps. -/
theorem getOutDegree_spliced {W : Type} [Inhabited W] {weight : List W} {index : List Bool}
    (hvalid : Csr.Valid vlist elist) (hw : weight.length = elist.length)
    (hi : index.length = vlist.length - 1) :
    ∃ vl el w rows, spliceCsrCondenseRow vlist elist weight index = .ok (vl, el, w, rows) ∧
      ∀ parts : List (List Int), parts.flatten.Perm rows →
        getOutDegree vlist parts = .ok (el.length : Int) := by
  obtain ⟨s, hs, hinv⟩ := spliceLoop_eq true false hvalid hw hi
  refine ⟨s.backVlist, s.backElist, s.backWeight, s.activeRow, ?_, fun parts hparts => ?_⟩
  · rw [spliceCsrCondenseRow, hs]
    rfl
  have hpos := hvalid.length_pos
  rw [hinv.rows, if_pos rfl] at hparts
  have hrows : ∀ rows ∈ parts, ∀ v ∈ rows, 0 ≤ v ∧ v + 1 < vlist.length := by
    intro rows hr v hv
    have hmem := hparts.mem_iff.mp (List.mem_flatten.mpr ⟨rows, hr, hv⟩)
    obtain ⟨u, hu, rfl⟩ := List.mem_map.mp hmem
    have hlt := List.mem_range.mp (List.mem_filter.mp hu).1
    omega
  have hdegrees : parts.mapM (threadDegree vlist) =
      .ok (parts.map fun rows => (rows.map (rowLength vlist elist)).sum) :=
    Run.mapM_eq_map fun rows hr => threadDegree_eq hvalid (hrows rows hr)
  have hentries : s.backElist = (splicedRows vlist elist index true (vlist.length - 1)).flatten := by
    rw [hinv.edges.entries, flatten_splicedRows]
    rfl
  rw [getOutDegree, hdegrees, Run.ok_bind, hentries, splicedRows, if_pos rfl, List.length_flatten]
  refine congrArg Except.ok ?_
  calc (parts.map fun rows => (rows.map (rowLength vlist elist)).sum).sum
      = (parts.flatten.map (rowLength vlist elist)).sum := by
        rw [List.map_flatten, List.sum_flatten, List.map_map]
        rfl
    _ = (((activeRows index (vlist.length - 1)).map fun v : Nat => (v : Int)).map
          (rowLength vlist elist)).sum := (hparts.map _).sum_eq
    _ = (((activeRows index (vlist.length - 1)).map (Csr.row vlist elist)).map List.length).sum := by
        rw [List.map_map, List.map_map, Nat.cast_list_sum, List.map_map]
        rfl

theorem getOutDegree_spliced_three :
    ∃ vl el w rows, spliceCsrCondenseRow [0, 2, 2, 4] [2, 0, 2, 2] ['a', 'b', 'c', 'd']
        [true, false, true] = .ok (vl, el, w, rows) ∧
      ∀ parts : List (List Int), parts.flatten.Perm rows →
        getOutDegree [0, 2, 2, 4] parts = .ok (el.length : Int) :=
  getOutDegree_spliced ⟨rfl, by decide, by decide⟩ rfl rfl

end OutDegree

end Laconic.Graph

import Laconic.Graph.Coo
import Laconic.Graph.ReadFile

/-!
# Writing a graph to a file

`output` of `graphIO.h` writes one line for each row.  `read_from_file` sees no lines, only numbers, and ends
a row at a number that is not a vertex.  A graph without rules that is written and read back has its edges,
but all of them in the first row.
-/

namespace Laconic.Graph

open RePair (intBound)

/-- The line of row `vid`. -/
def outputLine (vlist elist : List Int) (vid : Int) : Run (List Int) :=
  forEdges (fun eid line => do
    let x ← (Block.ofList elist).read eid
    pure (line ++ [x])) vlist vid []

/-- The lines of the file: the header, and the rows.  Without offsets `vlist.size() - 1` wraps around, and
the first offset is read. -/
def output (vlist elist : List Int) (vertexCnt ruleCnt : Nat) : Run (List (List Int)) := do
  let n ← if vlist = [] then throw .bounds else pure (vlist.length - 1)
  let rows ← (List.range n).mapM fun vid : Nat => outputLine vlist elist vid
  pure ([(vertexCnt : Int), (ruleCnt : Int)] :: rows)

section Write

variable {vlist elist : List Int} {V : Nat}

theorem outputLine_eq (hvalid : Csr.Valid vlist elist) {v : Nat} (hv : v + 1 < vlist.length) :
    outputLine vlist elist v = .ok (Csr.row vlist elist v) := by
  have hmeets : Run.Meets (fun _ => False) (outputLine vlist elist v)
      (fun line => line = [] ++ Csr.row vlist elist v) := by
    refine meets_forRow hvalid rfl hv (fun l _ line => line = l) ?_ rfl (m := [])
    rintro e he line l m rfl
    rw [Block.read_ofList he, Run.ok_bind]
    rfl
  obtain ⟨line, hrun, rfl⟩ := hmeets.exists_ok fun e he => he.elim
  exact hrun

theorem output_eq (hvalid : Csr.Valid vlist elist) (V k : Nat) :
    output vlist elist V k = .ok ([(V : Int), (k : Int)] :: Csr.rows vlist elist) := by
  have hpos := hvalid.length_pos
  have hrows : (List.range (vlist.length - 1)).mapM (fun vid : Nat => outputLine vlist elist vid) =
      .ok (Csr.rows vlist elist) := Run.mapM_eq_map fun v hv => by
    have := List.mem_range.mp hv
    exact outputLine_eq hvalid (by omega)
  unfold output
  rw [if_neg (List.ne_nil_of_length_pos hpos), Run.pure_bind]
  dsimp only
  rw [hrows]
  rfl

/-- Numbers of vertices never end a row. -/
theorem closeRows_vertices {ts : List Nat} (hts : ∀ t ∈ ts, t < V) (s : List (List Int) × List Int) :
    closeRows V ts s = (s.1, s.2 ++ ts.map fun t : Nat => (t : Int)) := by
  induction ts generalizing s with
  | nil =>
    rw [closeRows, List.map_nil, List.append_nil]
  | cons t ts ih =>
    have ht := hts t List.mem_cons_self
    rw [closeRows, if_neg (by omega), ih fun u hu => hts u (List.mem_cons_of_mem t hu)]
    simp

/-- A graph without rules is written, and read back with one row that has all its edges. -/
theorem readFromFile_output (hvalid : Csr.Valid vlist elist) (hlen : vlist.length = V + 1)
    (hlast : vlist.getD V 0 = elist.length) (hent : ∀ x ∈ elist, 0 ≤ x ∧ x < (V : Int))
    (hV : (V : Int) < intBound) (hE : (elist.length : Int) < intBound) :
    ∃ lines, output vlist elist V 0 = .ok ([(V : Int), 0] :: lines) ∧
      readFromFile V 0 (lines.flatten.map Int.toNat) =
        .ok (0 :: List.replicate (V - 1) (elist.length : Int), elist) := by
  refine ⟨Csr.rows vlist elist, output_eq hvalid V 0, ?_⟩
  have hflat : (Csr.rows vlist elist).flatten = elist := by
    rw [hvalid.flatten_rows, hlen, Nat.add_sub_cancel, hlast, Int.toNat_natCast]
    exact List.take_of_length_le (Nat.le_refl _)
  rw [hflat]
  have hts : ∀ t ∈ elist.map Int.toNat, t < V := by
    intro t ht
    obtain ⟨x, hx, rfl⟩ := List.mem_map.mp ht
    have := hent x hx
    omega
  have hback : (elist.map Int.toNat).map (fun t : Nat => (t : Int)) = elist := by
    rw [List.map_map]
    exact (List.map_congr_left fun x hx => Int.toNat_of_nonneg (hent x hx).1).trans (List.map_id _)
  generalize elist.map Int.toNat = ts at hts hback
  have hfit : ∀ t ∈ ts, (t : Int) < intBound := by
    intro t ht
    have := hts t ht
    omega
  have hlength : ts.length = elist.length := by
    rw [← hback, List.length_map]
  have hcount : ts.countP (fun t => decide (t < V)) ≤ ts.length := List.countP_le_length
  obtain ⟨r, hr⟩ := exists_readTokens (V := V) (s := ([], [])) hfit (by
    change (0 : Int) + _ < _
    omega)
  obtain ⟨⟨vlist', elist'⟩, hrun⟩ : ∃ out, readFromFile V 0 ts = .ok out := by
    unfold readFromFile
    rw [if_pos hV, if_pos ⟨hV, by decide⟩]
    exact ⟨_, by rw [show (⟨[0], [], 0⟩ : ReadState) = readState ([], []) from rfl, hr]; rfl⟩
  obtain ⟨hel, hvl, -⟩ := readFromFile_ok hV (by decide) hrun
  have hread : readable ts = ts :=
    List.takeWhile_eq_self_iff.mpr fun t ht => decide_eq_true (hfit t ht)
  rw [hread, closeRows_vertices hts, hback] at hel hvl
  rw [hrun, hvl, show elist' = elist from hel]
  rfl

/-- Two rows with two edges each are one row with four edges, and one offset is missing. -/
theorem readFromFile_output_two :
    ∃ lines, output [0, 2, 4] [0, 1, 0, 1] 2 0 = .ok ([((2 : Nat) : Int), 0] :: lines) ∧
      readFromFile 2 0 (lines.flatten.map Int.toNat) = .ok ([0, 4], [0, 1, 0, 1]) :=
  readFromFile_output ⟨rfl, by decide, by decide⟩ rfl rfl (by decide) (by decide) (by decide)

end Write

end Laconic.Graph

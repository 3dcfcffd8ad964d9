import Laconic.Parallel.Run

/-!
# The parallel compressor: round trip

When the largest symbol is the last row, ids are row numbers from the first turn on, and the three
turns keep what every row stands for.  Later turns also rewrite the rows of earlier rules, so a rule
may refer to a rule with a larger id; the ranks of the turns exclude cycles.
-/

namespace Laconic.Parallel

open PairScan Slp
open RePair (intBound)

/-- The grammar of a graph that is stored row by row. -/
theorem csrRhs_offsets (V : Nat) (rows : List (List Int)) :
    csrRhs V V (Csr.offsets rows) rows.flatten = rowRhs V rows := by
  funext x
  unfold rowRhs
  split
  · rename_i hx
    exact csrRhs_vertex hx
  · rename_i hx
    rw [csrRhs_row (by omega), List.getD_eq_getElem?_getD]
    rcases Nat.lt_or_ge x.toNat rows.length with hlt | hge
    · rw [Csr.row_offsets hlt, List.getElem?_eq_getElem hlt]
      rfl
    · rw [Csr.row_of_le (by rw [Csr.length_offsets]; omega), List.getElem?_eq_none hge]
      rfl

/-- The result of the constructor: a graph with rules, without cycles and without unused edges, in
which the first rows expand to those of the input. -/
structure RoundTrip (vertex edge : List Int) (s : State) : Prop where
  graph : ∃ k, RuleGraph s.inputVertex s.inputEdge (vertex.length - 1) k
  last : s.inputVertex.getLast? = some (s.inputEdge.length : Int)
  expands : ∀ v, v < vertex.length - 1 →
    Expands (csrRhs ↑(vertex.length - 1) ↑(vertex.length - 1) s.inputVertex s.inputEdge)
      (Csr.row s.inputVertex s.inputEdge v) (Csr.row vertex edge v)

/-- Rows that stand for the given ones are a graph with rules. -/
theorem ruleGraph_of_encodes {V : Nat} {given rows : List (List Int)} (h : Encodes V given rows) :
    RuleGraph (Csr.offsets rows) rows.flatten V (rows.length - V) where
  valid := Csr.valid_offsets
  length := by
    have := h.le
    rw [Csr.length_offsets]
    omega
  entries v hv x hx := by
    have hle := h.le
    have hlt : v < rows.length := by omega
    rw [Csr.row_offsets hlt] at hx
    have := h.entries _ (List.getElem_mem hlt) x hx
    omega
  acyclic := by
    obtain ⟨rank, hrank⟩ := h.rank
    refine acyclic_csrRhs (fun v => rank v) fun v hv hV x hx hxV => ?_
    have hlt : v < rows.length := by
      rw [Csr.length_offsets] at hv
      omega
    rw [Csr.row_offsets hlt] at hx
    have := hrank v _ hV (List.getElem?_eq_getElem hlt) x hx
    rwa [show ((x.toNat : Nat) : Int) = x by omega]

section Repair

variable {order : Order} {vertex edge : List Int} {maxSymbol : Int}

/-- The rows of every turn stand for those of the input, and the next id is the number of rows. -/
theorem encodes_turns (h : Input vertex edge) (hmax : maxSymbol + 2 = vertex.length)
    (horder : Permutes order) (hrange : InRange order vertex edge maxSymbol) :
    ∀ n, n ≤ compressRate →
      Encodes (Csr.rows vertex edge).length (Csr.rows vertex edge)
        ((startText vertex edge maxSymbol).turns order n).rows ∧
      ((startText vertex edge maxSymbol).turns order n).base =
        ((startText vertex edge maxSymbol).turns order n).rows.length := by
  have h0 := h.maxSymbol_nonneg hmax
  intro n
  induction n with
  | zero =>
    intro _
    have hlen := h.length_rows
    refine ⟨Encodes.refl (h.ready (by omega : maxSymbol + 1 < vertex.length)).entries, ?_⟩
    dsimp only [Text.turns, startText]
    omega
  | succ n ih =>
    intro hn
    obtain ⟨henc, hbase⟩ := ih (by omega)
    obtain ⟨-, -, -, hready, hfits⟩ := hrange.reached h h0 (by omega) horder (by omega : n ≤ compressRate)
    refine ⟨?_, Text.length_turn.symm⟩
    rw [Text.turns, Text.turn, hbase]
    exact henc.turn (hready.within_news hfits horder)

end Repair

/-! ## Rows that are too long

`replace` counts the edges of a block in an `int`. -/

section Long

variable {tables : Tables}

theorem checkInt_ok {x y : Int} (h : checkInt x = .ok y) : y = x ∧ x < intBound := by
  unfold checkInt at h
  split at h
  · rename_i hx
    cases h
    exact ⟨rfl, hx.2⟩
  · cases h

/-- The index of a scan stays in an `int`. -/
theorem scanStep_idx {edge : Block Int} {s s' : Replace} (h : scanStep tables edge s = .ok s') :
    s.idx ≤ s'.idx ∧ s'.idx < intBound := by
  unfold scanStep at h
  obtain ⟨x, -, h⟩ := Run.bind_eq_ok.mp h
  obtain ⟨y, -, h⟩ := Run.bind_eq_ok.mp h
  cases hid : findId tables x y with
  | none =>
    rw [hid] at h
    obtain ⟨vsize, -, h⟩ := Run.bind_eq_ok.mp h
    obtain ⟨idx, hidx, h⟩ := Run.bind_eq_ok.mp h
    obtain ⟨rfl, hlt⟩ := checkInt_ok hidx
    cases h
    exact ⟨by dsimp only; omega, hlt⟩
  | some id =>
    rw [hid] at h
    obtain ⟨idx, hidx, h⟩ := Run.bind_eq_ok.mp h
    obtain ⟨vsize, -, h⟩ := Run.bind_eq_ok.mp h
    obtain ⟨idx', hidx', h⟩ := Run.bind_eq_ok.mp h
    obtain ⟨rfl, -⟩ := checkInt_ok hidx
    obtain ⟨rfl, hlt⟩ := checkInt_ok hidx'
    cases h
    exact ⟨by dsimp only; omega, hlt⟩

/-- A block of one row with more than `2^31` edges: the scan never reaches the end. -/
theorem replace_long {edges : List Int} (hlong : intBound < edges.length)
    (hlen : (edges.length : Int) < 2 ^ 64) (out : Replace) : replace tables [0] edges ≠ .ok out := by
  have hib : intBound = 2 ^ 31 := rfl
  intro hrun
  have hlast : replace tables [0] edges =
      replaceRow tables (Block.ofList edges)
        (fun idx => decide (toSize idx < toSize (edges.length - 1)))
        (fun idx => decide (toSize idx < edges.length)) 0 (edges.length - 1) ⟨0, 0, [], []⟩ := rfl
  rw [hlast] at hrun
  unfold replaceRow at hrun
  obtain ⟨s, hs, -⟩ := Run.bind_eq_ok.mp hrun
  obtain ⟨hidx, hexit⟩ := Run.whileLoop_ok (fun s : Replace => 0 ≤ s.idx ∧ s.idx < intBound)
    (fun s s' hs _ hstep => by
      have := scanStep_idx hstep
      omega) _ _ _ (by dsimp only; omega) hs
  have hend : decide (toSize s.idx < toSize (edges.length - 1)) = false := Except.ok.inj hexit
  rw [decide_eq_false_iff_not, toSize, toSize, Int.emod_eq_of_lt (by omega) (by omega),
    Int.emod_eq_of_lt (by omega) (by omega)] at hend
  omega

/-- Forty rows; the first one has `N` entries. -/
def longRows (N : Nat) : List (List Int) := List.replicate N 0 :: (List.replicate 38 [0] ++ [[39]])

theorem input_longRows {N : Nat} (hN : 0 < N) :
    Input (Csr.offsets (longRows N)) (longRows N).flatten := by
  have hrest : ∀ r ∈ (List.replicate 38 [0] ++ [[39]] : List (List Int)),
      (∀ x ∈ r, 0 ≤ x ∧ x < 40) ∧ r ≠ [] := by decide
  have hlen : (longRows N).length = 40 := rfl
  refine Input.of_rows (longRows N) (fun r hr x hx => ?_) (fun r hr => ?_) (Nat.le_of_eq hlen.symm)
  · rw [hlen]
    rcases List.mem_cons.mp hr with rfl | hr
    · rw [List.eq_of_mem_replicate hx]
      decide
    · exact (hrest r hr).1 x hx
  · rcases List.mem_cons.mp hr with rfl | hr
    · intro hnil
      rw [List.replicate_eq_nil_iff] at hnil
      omega
    · exact (hrest r hr).2

/-- The first block is the first row. -/
theorem splitBlock_longRows (N : Nat) :
    splitBlock 1 (Csr.offsets (longRows N)) (longRows N).flatten 0 =
      .ok ([0], List.replicate N 0) := by
  have hflat : (longRows N).flatten =
      List.replicate N (0 : Int) ++ (List.replicate 38 [(0 : Int)] ++ [[39]]).flatten := rfl
  have hoff : ∃ rest, Csr.offsets (longRows N) = 0 :: rest := ⟨_, rfl⟩
  obtain ⟨rest, hrest⟩ := hoff
  have hvertex : slice (Csr.offsets (longRows N)) ((0 * 1 : Nat) : Int) (((0 + 1) * 1 : Nat) : Int) =
      .ok [0] := by
    rw [slice_eq (by decide) (by rw [Csr.length_offsets]; omega), hrest]
    rfl
  have hedge : slice (longRows N).flatten ((0 : Nat) : Int) (N : Nat) =
      .ok (List.replicate N 0) := by
    rw [slice_eq (Nat.zero_le _) (by rw [hflat, List.length_append, List.length_replicate]; omega),
      hflat, List.drop_zero, Nat.sub_zero, List.take_left' List.length_replicate, List.map_replicate]
    rfl
  have hstop : ((longRows N).take ((0 + 1) * 1)).flatten.length = N := by
    change (List.replicate N (0 : Int) ++ []).length = N
    rw [List.append_nil, List.length_replicate]
  unfold splitBlock
  rw [if_pos (by decide), hvertex, Run.ok_bind, read_offsets (Nat.zero_le _), Run.ok_bind,
    read_offsets (by decide : (0 + 1) * 1 ≤ 40), Run.ok_bind, hstop]
  change (slice (longRows N).flatten ((0 : Nat) : Int) (N : Nat) >>= _) = _
  rw [hedge]
  rfl

theorem repairTurn_long {order : Order} {n N : Nat} (hlong : intBound < N) (hN : (N : Int) < 2 ^ 64)
    {s s' : State} (hvertex : s.inputVertex = Csr.offsets (longRows N))
    (hedge : s.inputEdge = (longRows N).flatten) : repairTurn order 41 n s ≠ .ok s' := by
  intro hrun
  unfold repairTurn at hrun
  obtain ⟨tables, -, hrun⟩ := Run.bind_eq_ok.mp hrun
  obtain ⟨blocks, hblocks, hrun⟩ := Run.bind_eq_ok.mp hrun
  obtain ⟨outs, houts, -⟩ := Run.bind_eq_ok.mp hrun
  rw [hvertex, hedge] at hblocks
  obtain ⟨hlen, hget⟩ := Run.mapM_range hblocks
  have hfirst : blocks[0]? = some ([0], List.replicate N 0) := by
    have hpos : 0 < blocks.length := by
      rw [hlen]
      decide
    have hblock := hget 0 _ (List.getElem?_eq_getElem hpos)
    rw [show 41 / threadNum = 1 from rfl, splitBlock_longRows] at hblock
    rw [List.getElem?_eq_getElem hpos, ← Except.ok.inj hblock]
  obtain ⟨blocks', rfl⟩ : ∃ blocks', blocks = ([0], List.replicate N 0) :: blocks' := by
    cases blocks with
    | nil => cases hfirst
    | cons block blocks' =>
      rw [List.getElem?_cons_zero, Option.some_inj] at hfirst
      exact ⟨blocks', by rw [hfirst]⟩
  have hreplicate : (List.replicate N (0 : Int)).length = N := List.length_replicate
  cases Run.mapM_eq_ok.mp houts with
  | cons hout _ =>
    dsimp only at hout
    exact replace_long (by omega) (by omega) _ hout

/-- No state is reached but the first one. -/
theorem repairTurns_long {order : Order} {n N : Nat} (hlong : intBound < N) (hN : (N : Int) < 2 ^ 64)
    {s : State} : repairTurns order 41 (n + 1) (initialState (Csr.offsets (longRows N))
      (longRows N).flatten 39) ≠ .ok s := by
  induction n generalizing s with
  | zero =>
    intro hs
    rw [repairTurns, repairTurns, Run.pure_bind] at hs
    exact repairTurn_long hlong hN rfl rfl hs
  | succ n ih =>
    intro hs
    obtain ⟨s', hs', -⟩ := Run.bind_eq_ok.mp hs
    exact ih hs'

end Long

end Laconic.Parallel

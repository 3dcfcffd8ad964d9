import Laconic.Parallel.Replace

/-!
# The parallel compressor: blocks of rows

The rows are cut into 40 blocks of equal length, with the rest in the last one.  The blocks always
cover the graph; whether `replace` can work on them depends on their having rows and edges.
-/

namespace Laconic.Parallel

open RePair (intBound)

theorem wrapInt_eq {x : Int} (h0 : 0 ≤ x) (h : x < intBound) : wrapInt x = x := by
  unfold wrapInt
  unfold intBound at h ⊢
  rw [Int.emod_eq_of_lt h0 (by omega), if_pos h]

/-- Piece `idx` of a list: the pieces have equal length, the last one has the rest. -/
def chunk {α : Type} (threadSize : Nat) (l : List α) (idx : Nat) : List α :=
  if idx + 1 < threadNum then (l.drop (idx * threadSize)).take threadSize
  else l.drop (idx * threadSize)

/-- The entries in front of block `idx`. -/
def chunkStart (threadSize : Nat) (rows : List (List Int)) (idx : Nat) : Int :=
  (rows.take (idx * threadSize)).flatten.length

/-- Block `idx`: the offsets of its rows in the graph, and its entries. -/
def chunkBlock (threadSize : Nat) (rows : List (List Int)) (idx : Nat) : List Int × List Int :=
  (Csr.startsFrom (chunkStart threadSize rows idx) (chunk threadSize rows idx),
    (chunk threadSize rows idx).flatten)

/-- Pieces of equal length, one after the other. -/
theorem flatten_pieces {α : Type} (l : List α) (m n : Nat) :
    ((List.range n).map fun i => (l.drop (i * m)).take m).flatten = l.take (n * m) := by
  induction n with
  | zero => simp
  | succ n ih =>
    rw [List.range_succ, List.map_append, List.flatten_append, ih, Nat.add_mul, Nat.one_mul,
      List.take_add]
    simp

section Chunks

variable {ts : Nat} {rows : List (List Int)} {idx : Nat}

/-- The pieces in front of piece `n`. -/
theorem flatten_chunks_take {α : Type} (l : List α) {n : Nat} (hn : n < threadNum) :
    ((List.range n).map (chunk ts l)).flatten = l.take (n * ts) := by
  rw [← flatten_pieces]
  refine congrArg List.flatten (List.map_congr_left fun i hi => ?_)
  have hlt := List.mem_range.mp hi
  exact if_pos (by omega)

/-- All pieces. -/
theorem flatten_chunks {α : Type} (ts : Nat) (l : List α) :
    ((List.range threadNum).map (chunk ts l)).flatten = l := by
  have hlast : chunk ts l 39 = l.drop (39 * ts) := if_neg (by decide)
  rw [show threadNum = 39 + 1 from rfl, List.range_succ, List.map_append, List.flatten_append,
    flatten_chunks_take l (by decide)]
  simp [hlast]

/-- The starts of the rows of a block. -/
theorem chunk_startsFrom (ts : Nat) (rows : List (List Int)) (idx : Nat) :
    chunk ts (Csr.startsFrom 0 rows) idx =
      Csr.startsFrom (chunkStart ts rows idx) (chunk ts rows idx) := by
  unfold chunk
  split
  · rw [Csr.drop_startsFrom, Csr.take_startsFrom, Int.zero_add, chunkStart]
  · rw [Csr.drop_startsFrom, Int.zero_add, chunkStart]

/-- A block, and what is in front of it and behind it. -/
theorem chunk_split (ts : Nat) (rows : List (List Int)) (idx : Nat) :
    ∃ rest, rows = rows.take (idx * ts) ++ (chunk ts rows idx ++ rest) := by
  unfold chunk
  split
  · refine ⟨(rows.drop (idx * ts)).drop ts, ?_⟩
    rw [List.take_append_drop, List.take_append_drop]
  · refine ⟨[], ?_⟩
    rw [List.append_nil, List.take_append_drop]

/-- What stands in a block stands in the graph. -/
theorem chunkStart_add_le (ts : Nat) (rows : List (List Int)) (idx : Nat) :
    chunkStart ts rows idx + (chunk ts rows idx).flatten.length ≤ rows.flatten.length := by
  obtain ⟨rest, hrest⟩ := chunk_split ts rows idx
  have hlen := congrArg (fun l => l.flatten.length) hrest
  simp only [List.flatten_append, List.length_append] at hlen
  unfold chunkStart
  omega

end Chunks

section Split

variable {ts : Nat} {rows : List (List Int)} {idx : Nat}

theorem slice_eq {l : List Int} {a b : Nat} (hab : a ≤ b) (hb : b ≤ l.length) :
    slice l a b = .ok (((l.drop a).take (b - a)).map wrapInt) := by
  unfold slice
  rw [if_pos (by omega), Int.toNat_natCast, show ((b : Int) - a).toNat = b - a by omega]
  rfl

theorem read_offsets {v : Nat} (hv : v ≤ rows.length) :
    (Block.ofList (Csr.offsets rows)).read v = .ok ((rows.take v).flatten.length : Int) := by
  have hlt : v < (Csr.offsets rows).length := by
    rw [Csr.length_offsets]
    omega
  rw [Block.read_getD hlt 0, Csr.offsets_getD hv]

/-- The entries of a block. -/
theorem slice_edges (ts idx : Nat) (hent : ∀ x ∈ rows.flatten, 0 ≤ x ∧ x < intBound) :
    slice rows.flatten (rows.take (idx * ts)).flatten.length
      ((rows.take (idx * ts)).flatten.length + (chunk ts rows idx).flatten.length : Nat) =
      .ok (chunk ts rows idx).flatten := by
  obtain ⟨rest, hrest⟩ := chunk_split ts rows idx
  have hflat : rows.flatten = (rows.take (idx * ts)).flatten ++
      ((chunk ts rows idx).flatten ++ rest.flatten) := by
    rw [← List.flatten_append, ← List.flatten_append, ← hrest]
  have hwrap : (chunk ts rows idx).flatten.map wrapInt = (chunk ts rows idx).flatten := by
    refine (List.map_congr_left fun x hx => ?_).trans (List.map_id _)
    have hmem : x ∈ rows.flatten := by
      rw [hflat]
      exact List.mem_append_right _ (List.mem_append_left _ hx)
    exact wrapInt_eq (hent x hmem).1 (hent x hmem).2
  have hcut : (rows.flatten.drop (rows.take (idx * ts)).flatten.length).take
      (chunk ts rows idx).flatten.length = (chunk ts rows idx).flatten := by
    conv_lhs => rw [hflat]
    rw [List.drop_left' rfl, List.take_left' rfl]
  have hlen := congrArg List.length hflat
  rw [List.length_append, List.length_append] at hlen
  rw [slice_eq (by omega) (by omega), Nat.add_sub_cancel_left, hcut, hwrap]

/-- The offsets of a block. -/
theorem slice_vertices (n : Nat) (hle : idx * ts + n ≤ rows.length)
    (hchunk : (rows.drop (idx * ts)).take n = chunk ts rows idx)
    (hsmall : (rows.flatten.length : Int) < intBound) :
    slice (Csr.offsets rows) (idx * ts : Nat) (idx * ts + n : Nat) =
      .ok (Csr.startsFrom (chunkStart ts rows idx) (chunk ts rows idx)) := by
  have hbound := chunkStart_add_le ts rows idx
  rw [slice_eq (by omega) (by rw [Csr.length_offsets]; omega), Nat.add_sub_cancel_left, Csr.offsets,
    Csr.offsetsFrom_eq_starts, List.drop_append_of_le_length (by rw [Csr.length_startsFrom]; omega),
    List.take_append_of_le_length (by rw [List.length_drop, Csr.length_startsFrom]; omega),
    Csr.drop_startsFrom, Csr.take_startsFrom, hchunk, Int.zero_add]
  -- the offsets fit into an `int`
  refine congrArg Except.ok ((List.map_congr_left fun x hx => ?_).trans (List.map_id _))
  have hx' := Csr.mem_startsFrom hx
  have h0 : 0 ≤ chunkStart ts rows idx := Int.natCast_nonneg _
  unfold chunkStart at hbound
  exact wrapInt_eq (by omega) (by omega)

theorem splitBlock_eq (hts : 39 * ts ≤ rows.length) (hidx : idx < threadNum)
    (hsmall : (rows.flatten.length : Int) < intBound)
    (hent : ∀ x ∈ rows.flatten, 0 ≤ x ∧ x < intBound) :
    splitBlock ts (Csr.offsets rows) rows.flatten idx =
      .ok (chunkBlock ts rows idx) := by
  have hth : threadNum = 40 := rfl
  have hle : idx * ts ≤ 39 * ts := Nat.mul_le_mul_right _ (by omega)
  have hedges := slice_edges ts idx hent
  unfold splitBlock
  by_cases hlast : idx + 1 < threadNum
  · -- a block of `ts` rows
    have hnext : (idx + 1) * ts ≤ 39 * ts := Nat.mul_le_mul_right _ (by omega)
    have hchunk : chunk ts rows idx = (rows.drop (idx * ts)).take ts := if_pos hlast
    have htake : rows.take (idx * ts + ts) = rows.take (idx * ts) ++ chunk ts rows idx := by
      rw [hchunk, List.take_add]
    have hvert := slice_vertices ts (by rw [Nat.add_mul] at hnext; omega) hchunk.symm hsmall
    rw [if_pos hlast, Nat.add_mul, Nat.one_mul] at *
    rw [hvert, Run.ok_bind, read_offsets (by omega), Run.ok_bind, read_offsets (by omega),
      Run.ok_bind, htake, List.flatten_append, List.length_append, hedges, Run.ok_bind]
    rfl
  · -- the last block goes up to the end
    have hchunk : chunk ts rows idx = rows.drop (idx * ts) := if_neg hlast
    have htotal : rows.flatten.length =
        (rows.take (idx * ts)).flatten.length + (chunk ts rows idx).flatten.length := by
      rw [← List.length_append, ← List.flatten_append, hchunk, List.take_append_drop]
    have hall : (rows.drop (idx * ts)).take (rows.length - idx * ts) = chunk ts rows idx := by
      rw [hchunk, List.take_of_length_le (by rw [List.length_drop])]
    have hvert := slice_vertices (rows.length - idx * ts) (by omega) hall hsmall
    rw [← htotal] at hedges
    rw [show idx * ts + (rows.length - idx * ts) = rows.length by omega] at hvert
    rw [if_neg hlast, read_offsets (by omega), Run.ok_bind, hedges, Run.ok_bind, Csr.length_offsets,
      show (((rows.length + 1 : Nat) : Int) - 1) = (rows.length : Int) by omega, hvert, Run.ok_bind]
    rfl

/-- The blocks of a graph. -/
theorem splitBlocks_eq {lenVertex : Nat} (hlen : lenVertex ≤ rows.length + 1)
    (hsmall : (rows.flatten.length : Int) < intBound)
    (hent : ∀ x ∈ rows.flatten, 0 ≤ x ∧ x < intBound) :
    splitBlocks lenVertex (Csr.offsets rows) rows.flatten =
      .ok ((List.range threadNum).map (chunkBlock (lenVertex / threadNum) rows)) := by
  have hth : threadNum = 40 := rfl
  have hts : 39 * (lenVertex / threadNum) ≤ rows.length := by
    rw [hth]
    omega
  exact Run.mapM_eq_map fun idx hidx => splitBlock_eq hts (List.mem_range.mp hidx) hsmall hent

end Split

/-! ## Cover and safety -/

/-- The blocks are consecutive and have every row and every edge once: together they are the offsets
and the edges, and the offsets of a block are those of rows that make up its edges, counted from the
edges of the blocks before. -/
structure Covers (vertex edge : List Int) (blocks : List (List Int × List Int)) : Prop where
  number : blocks.length = threadNum
  vertices : (blocks.map (·.1)).flatten = vertex.dropLast
  edges : (blocks.map (·.2)).flatten = edge
  aligned : ∀ b block, blocks[b]? = some block → ∃ rs,
    block = (Csr.startsFrom (((blocks.take b).map (·.2)).flatten.length : Int) rs, rs.flatten)

/-- Where the edges of block `b` end. -/
def blockEnd (threadSize : Nat) (vertex edge : List Int) (b : Nat) : Int :=
  if b + 1 < threadNum then vertex.getD ((b + 1) * threadSize) 0 else edge.length

section Cover

variable {ts lenVertex : Nat} {rows : List (List Int)} {vertex edge : List Int}

theorem covers_chunks (ts : Nat) (rows : List (List Int)) :
    Covers (Csr.offsets rows) rows.flatten ((List.range threadNum).map (chunkBlock ts rows)) where
  number := by rw [List.length_map, List.length_range]
  vertices := by
    rw [List.map_map, Csr.offsets, Csr.offsetsFrom_eq_starts, List.dropLast_concat]
    conv_rhs => rw [← flatten_chunks ts (Csr.startsFrom 0 rows)]
    exact congrArg List.flatten (List.map_congr_left fun idx _ => (chunk_startsFrom ts rows idx).symm)
  edges := by
    conv_rhs => rw [← flatten_chunks ts rows]
    rw [List.flatten_flatten, List.map_map, List.map_map]
    rfl
  aligned b block hb := by
    obtain ⟨hlt, rfl⟩ := List.getElem?_eq_some_iff.mp hb
    rw [List.length_map, List.length_range] at hlt
    refine ⟨chunk ts rows b, ?_⟩
    rw [List.getElem_map, List.getElem_range, chunkBlock, ← List.map_take, List.take_range,
      Nat.min_eq_left (by omega), List.map_map]
    congr 2
    rw [chunkStart, ← flatten_chunks_take rows hlt, List.flatten_flatten, List.map_map]
    rfl

/-- The number of edges of a block. -/
theorem length_chunk (hts : 39 * ts ≤ rows.length) {b : Nat} (hb : b < threadNum) :
    ((chunk ts rows b).flatten.length : Int) =
      blockEnd ts (Csr.offsets rows) rows.flatten b - (Csr.offsets rows).getD (b * ts) 0 := by
  have hth : threadNum = 40 := rfl
  have hle : b * ts ≤ 39 * ts := Nat.mul_le_mul_right _ (by omega)
  have hsplit : ∀ n, b * ts + n ≤ rows.length → (rows.drop (b * ts)).take n = chunk ts rows b →
      (rows.take (b * ts + n)).flatten.length =
        (rows.take (b * ts)).flatten.length + (chunk ts rows b).flatten.length := by
    intro n _ hn
    rw [List.take_add, hn, List.flatten_append, List.length_append]
  rw [Csr.offsets_getD (by omega)]
  unfold blockEnd
  split
  · rename_i hlast
    have hnext : (b + 1) * ts ≤ 39 * ts := Nat.mul_le_mul_right _ (by omega)
    rw [Csr.offsets_getD (by omega)]
    rw [Nat.add_mul, Nat.one_mul] at hnext ⊢
    have := hsplit ts (by omega) (if_pos hlast).symm
    omega
  · rename_i hlast
    have := hsplit (rows.length - b * ts) (by omega) (by
      rw [chunk, if_neg hlast, List.take_of_length_le (by rw [List.length_drop])])
    rw [show b * ts + (rows.length - b * ts) = rows.length by omega, List.take_length] at this
    omega

/-- `replace` works on a block exactly when the block has an edge. -/
theorem replace_chunk_iff (tables : Tables) (hts : 39 * ts ≤ rows.length)
    (hsmall : (rows.flatten.length : Int) < intBound) {b : Nat} (hb : b < threadNum) :
    (∃ out, replace tables (chunkBlock ts rows b).1 (chunkBlock ts rows b).2 = .ok out) ↔
    (Csr.offsets rows).getD (b * ts) 0 < blockEnd ts (Csr.offsets rows) rows.flatten b := by
  have hcount := length_chunk hts hb
  have hbound := chunkStart_add_le ts rows b
  have h0 : 0 ≤ chunkStart ts rows b := Int.natCast_nonneg _
  unfold chunkBlock
  rw [replace_ok_iff _ (by omega), ← List.length_pos_iff]
  omega

/-- The blocks cover the graph, and `replace` stays within each of them, exactly when each of them
has an edge. -/
theorem splitBlocks_safe_iff (h : Csr.Valid vertex edge)
    (hlast : vertex.getLast? = some (edge.length : Int)) (hlen : lenVertex ≤ vertex.length)
    (hsmall : (edge.length : Int) < intBound) (hent : ∀ x ∈ edge, 0 ≤ x ∧ x < intBound) :
    (∃ blocks, splitBlocks lenVertex vertex edge = .ok blocks ∧ Covers vertex edge blocks ∧
      ∀ tables, ∀ block ∈ blocks, ∃ out, replace tables block.1 block.2 = .ok out) ↔
    ∀ b, b < threadNum → vertex.getD (b * (lenVertex / threadNum)) 0 <
      blockEnd (lenVertex / threadNum) vertex edge b := by
  have hth : threadNum = 40 := rfl
  have hpos := h.length_pos
  obtain ⟨hoff, hflat⟩ := h.eq_offsets hlast
  have hrows : (Csr.rows vertex edge).length + 1 = vertex.length := by
    rw [Csr.length_rows]
    omega
  -- from here on the graph is given by its rows
  generalize Csr.rows vertex edge = rows at hoff hflat hrows
  subst hoff hflat
  have hblocks := splitBlocks_eq (by omega : lenVertex ≤ rows.length + 1) hsmall hent
  have hts : 39 * (lenVertex / threadNum) ≤ rows.length := by
    rw [hth]
    omega
  generalize lenVertex / threadNum = ts at hblocks hts
  constructor
  · rintro ⟨blocks, hrun, -, hok⟩ b hb
    rw [hblocks] at hrun
    cases hrun
    have hmem : chunkBlock ts rows b ∈ (List.range threadNum).map (chunkBlock ts rows) :=
      List.mem_map_of_mem (List.mem_range.mpr hb)
    have hout := hok [] _ hmem
    exact (replace_chunk_iff [] hts hsmall hb).mp hout
  · intro hcond
    refine ⟨_, hblocks, covers_chunks ts rows, fun tables block hblock => ?_⟩
    obtain ⟨b, hb, rfl⟩ := List.mem_map.mp hblock
    have hb' := List.mem_range.mp hb
    exact (replace_chunk_iff tables hts hsmall hb').mpr (hcond b hb')

/-- Forty rows with one edge each. -/
theorem splitBlocks_safe_forty :
    ∃ blocks, splitBlocks 41 (Csr.offsets (List.replicate 40 [0])) (List.replicate 40 0) =
        .ok blocks ∧
      Covers (Csr.offsets (List.replicate 40 [0])) (List.replicate 40 0) blocks ∧
      ∀ tables, ∀ block ∈ blocks, ∃ out, replace tables block.1 block.2 = .ok out :=
  (splitBlocks_safe_iff ⟨rfl, by decide, by decide⟩ (by decide) (by decide) (by decide)
    (by decide)).mpr (by decide)

/-- One row with one edge: the first block has no row.  Forty rows of which only the last one has an
edge: the first block has no edge. -/
theorem splitBlocks_unsafe :
    Csr.Valid [0, 1] [(0 : Int)] ∧
      (∃ blocks, splitBlocks 2 [0, 1] [0] = .ok blocks ∧ ([], []) ∈ blocks) ∧
      replace [] [] [] = .error .bounds ∧
      Csr.Valid (List.replicate 40 0 ++ [1]) [(0 : Int)] ∧
      (∃ blocks, splitBlocks 41 (List.replicate 40 0 ++ [1]) [0] = .ok blocks ∧
        ([0], []) ∈ blocks) ∧
      replace [] [0] [] = .error .bounds := by
  refine ⟨⟨rfl, by decide, by decide⟩, ⟨_, rfl, by decide⟩, rfl, ⟨rfl, by decide, by decide⟩,
    ⟨_, rfl, by decide⟩, rfl⟩

end Cover

end Laconic.Parallel

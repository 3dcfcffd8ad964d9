import Laconic.Parallel.Model

/-!
# The parallel compressor: collecting pairs

The loop over a row ends at `input_vertex[idy + 1] - 1`, an unsigned number.  When the next row
starts at 0 the bound wraps, and the loop runs over the end of the edges.
-/

namespace Laconic.Parallel

open PairScan

/-- The pairs of adjacent entries of all rows. -/
def rowPairs (rows : List (List Int)) : List (Int × Int) := rows.flatMap adjacent

/-- The keys that the pairs leave in bucket `b`. -/
def bucketKeys (pairs : List (Int × Int)) (b : Nat) : List Nat :=
  (pairs.filter fun p => decide (threadId p.1 = b)).map fun p => pairHash p.1 p.2

section Keys

variable {ps qs : List (Int × Int)} {p : Int × Int} {b : Nat}

@[simp] theorem bucketKeys_nil : bucketKeys [] b = [] := rfl

theorem bucketKeys_append : bucketKeys (ps ++ qs) b = bucketKeys ps b ++ bucketKeys qs b := by
  rw [bucketKeys, List.filter_append, List.map_append, bucketKeys, bucketKeys]

theorem bucketKeys_cons : bucketKeys (p :: ps) b =
    (if b = threadId p.1 then [pairHash p.1 p.2] else []) ++ bucketKeys ps b := by
  rw [bucketKeys, List.filter_cons]
  by_cases h : b = threadId p.1
  · rw [if_pos (decide_eq_true h.symm), if_pos h, List.map_cons]
    rfl
  · rw [if_neg (by simp [Ne.symm h]), if_neg h]
    rfl

end Keys

section Loop

variable {edge : List Int} {b : Nat}

theorem pushPair_eq {i : Nat} (hi : i + 1 < edge.length) (buckets : Buckets) :
    pushPair (Block.ofList edge) i buckets = .ok fun b =>
      if b = threadId edge[i] then buckets b ++ [pairHash edge[i] edge[i + 1]] else buckets b := by
  unfold pushPair
  rw [Block.read_ofList (by omega), Run.ok_bind, show (i : Int) + 1 = ((i + 1 : Nat) : Int) by omega,
    Block.read_ofList hi, Run.ok_bind]
  rfl

/-- A loop that stays within the edges pushes the pairs that start in its range. -/
theorem forLoop_pushPair (edge : List Int) :
    ∀ (n lo : Nat) (buckets : Buckets), n = 0 ∨ lo + n < edge.length →
    ∃ bs, Run.forLoop (pushPair (Block.ofList edge)) n lo buckets = .ok bs ∧
      ∀ b, bs b = buckets b ++ bucketKeys (adjacent ((edge.drop lo).take (n + 1))) b := by
  intro n
  induction n with
  | zero =>
    intro lo buckets _
    refine ⟨buckets, rfl, fun b => ?_⟩
    cases edge.drop lo <;> simp [adjacent]
  | succ n ih =>
    intro lo buckets hlt
    have hlo : lo + 1 < edge.length := by omega
    rw [Run.forLoop, pushPair_eq hlo, Run.ok_bind]
    obtain ⟨bs, hbs, hkeys⟩ := ih (lo + 1) (fun b =>
      if b = threadId edge[lo] then buckets b ++ [pairHash edge[lo] edge[lo + 1]] else buckets b)
      (by omega)
    refine ⟨bs, hbs, fun b => ?_⟩
    rw [hkeys, List.drop_eq_getElem_cons (by omega : lo < edge.length), List.take_succ_cons,
      List.drop_eq_getElem_cons hlo, List.take_succ_cons, adjacent, bucketKeys_cons,
      ← List.append_assoc]
    congr 1
    split <;> simp

/-- A loop that leaves the edges is stopped there. -/
theorem forLoop_pushPair_bounds : ∀ (n lo : Nat) (buckets : Buckets), 0 < n →
    edge.length ≤ lo + n →
    Run.forLoop (pushPair (Block.ofList edge)) n lo buckets = .error .bounds := by
  intro n
  induction n with
  | zero =>
    intro lo _ h0 _
    omega
  | succ n ih =>
    intro lo buckets _ hle
    rw [Run.forLoop]
    by_cases hlo : lo + 1 < edge.length
    · rw [pushPair_eq hlo, Run.ok_bind]
      exact ih (lo + 1) _ (by omega) (by omega)
    · unfold pushPair
      by_cases hlt : lo < edge.length
      · rw [Block.read_ofList hlt, Run.ok_bind, Block.read_ofList_of_le (by omega)]
        rfl
      · rw [Block.read_ofList_of_le (by omega)]
        rfl

end Loop

section Rows

variable {vertex edge : List Int} {buckets : Buckets}

/-- A row whose end is not 0. -/
theorem collectRow_eq (h : Csr.Valid vertex edge) (hoff : (edge.length : Int) < 2 ^ 32) {v : Nat}
    (hv : v + 1 < vertex.length) (hpos : 0 < vertex.getD (v + 1) 0) (buckets : Buckets) :
    ∃ bs, collectRow (Block.ofList vertex) (Block.ofList edge) v buckets = .ok bs ∧
      ∀ b, bs b = buckets b ++ bucketKeys (adjacent (Csr.row vertex edge v)) b := by
  have h₁ := h.getD_mono (Nat.le_add_right v 1) hv
  have h₂ := h.getD_nonneg (by omega : v < vertex.length)
  have h₃ := h.getD_le hv
  have hread : ∀ w : Nat, w < vertex.length →
      (Block.ofList vertex).read w = .ok (vertex.getD w 0) := fun w hw =>
    Block.read_eq (b := Block.ofList vertex) ⟨by omega, show (w : Int) < vertex.length by omega⟩
  unfold collectRow
  rw [hread v (by omega), Run.ok_bind, show (v : Int) + 1 = ((v + 1 : Nat) : Int) by omega,
    hread (v + 1) hv, Run.ok_bind, toDtype, Int.emod_eq_of_lt (by omega) (by omega)]
  obtain ⟨bs, hbs, hkeys⟩ := forLoop_pushPair edge
    (vertex.getD (v + 1) 0 - 1 - vertex.getD v 0).toNat (vertex.getD v 0).toNat buckets (by omega)
  rw [Int.toNat_of_nonneg h₂] at hbs
  refine ⟨bs, hbs, fun b => ?_⟩
  rw [hkeys, Csr.row, List.drop_take]
  rcases Int.lt_or_le (vertex.getD v 0) (vertex.getD (v + 1) 0) with hlt | hge
  · congr 4
    omega
  · -- an empty row: one element at most is taken, and it has no neighbour
    rw [show (vertex.getD (v + 1) 0 - 1 - vertex.getD v 0).toNat = 0 by omega,
      show (vertex.getD (v + 1) 0).toNat - (vertex.getD v 0).toNat = 0 by omega]
    cases edge.drop (vertex.getD v 0).toNat <;> simp [adjacent]

/-- When row 0 has an entry all rows end behind 0. -/
theorem collectPairs_eq (h : Csr.Valid vertex edge) (hoff : (edge.length : Int) < 2 ^ 32)
    (hrow : vertex.length = 1 ∨ Csr.row vertex edge 0 ≠ []) (buckets : Buckets) :
    ∃ bs, collectPairs vertex edge buckets = .ok bs ∧
      ∀ b, bs b = buckets b ++ bucketKeys (rowPairs (Csr.rows vertex edge)) b := by
  have hlen := h.length_pos
  have hpos : ∀ v : Nat, v + 1 < vertex.length → 0 < vertex.getD (v + 1) 0 := by
    intro v hv
    have hne := hrow.resolve_left (by omega)
    have hmono := h.getD_mono (by omega : 1 ≤ v + 1) hv
    have hrowlen := h.length_row (by omega : 0 + 1 < vertex.length)
    have hzero := h.getD_zero
    have := List.length_pos_iff.mpr hne
    rw [Nat.zero_add] at hrowlen
    omega
  have hstep : ∀ (v : Int) (bs : Buckets), v < (vertex.length - 1 : Nat) →
      (0 ≤ v ∧ ∀ b, bs b = buckets b ++
        bucketKeys (rowPairs ((Csr.rows vertex edge).take v.toNat)) b) →
      Run.Meets (fun _ => False) (collectRow (Block.ofList vertex) (Block.ofList edge) v bs)
        (fun bs => 0 ≤ v + 1 ∧ ∀ b, bs b = buckets b ++
          bucketKeys (rowPairs ((Csr.rows vertex edge).take (v + 1).toNat)) b) := by
    rintro v bs hv ⟨h0, hbs⟩
    obtain ⟨v, rfl⟩ := Int.eq_ofNat_of_zero_le h0
    obtain ⟨bs', hrun, hkeys⟩ := collectRow_eq h hoff (by omega) (hpos v (by omega)) bs
    rw [hrun, Run.meets_ok]
    refine ⟨by omega, fun b => ?_⟩
    rw [hkeys, hbs, Int.toNat_natCast, show ((v : Int) + 1).toNat = v + 1 by omega,
      List.take_add_one, Csr.rows_getElem? (by omega), Option.toList_some, rowPairs, rowPairs,
      List.flatMap_append, bucketKeys_append, List.flatMap_singleton, List.append_assoc]
  unfold collectPairs
  rw [if_neg (by omega)]
  obtain ⟨bs, hrun, -, hkeys⟩ := (Run.meets_forLoop (fun v (bs : Buckets) => 0 ≤ v ∧
    ∀ b, bs b = buckets b ++ bucketKeys (rowPairs ((Csr.rows vertex edge).take v.toNat)) b)
    ((vertex.length - 1 : Nat) : Int) hstep (vertex.length - 1) 0 buckets (by omega)
    ⟨Int.le_refl 0, fun b => by simp [rowPairs]⟩).exists_ok fun e he => he.elim
  refine ⟨bs, hrun, fun b => ?_⟩
  rw [hkeys, Int.toNat_natCast, List.take_of_length_le (Nat.le_of_eq Csr.length_rows)]

/-- A first row without entries: its bound is `2 ^ 32 - 1`. -/
theorem collectPairs_bounds (h : Csr.Valid vertex edge) (hoff : (edge.length : Int) < 2 ^ 32)
    (hlen : 1 < vertex.length) (hrow : Csr.row vertex edge 0 = []) (buckets : Buckets) :
    collectPairs vertex edge buckets = .error .bounds := by
  have hnext : vertex.getD 1 0 = 0 := by
    have hrowlen := h.length_row (by omega : 0 + 1 < vertex.length)
    rw [hrow, h.getD_zero] at hrowlen
    rw [Nat.zero_add] at hrowlen
    simpa using hrowlen.symm
  have hread : ∀ w : Nat, w < vertex.length →
      (Block.ofList vertex).read w = .ok (vertex.getD w 0) := fun w hw =>
    Block.read_eq (b := Block.ofList vertex) ⟨by omega, show (w : Int) < vertex.length by omega⟩
  have hfirst : collectRow (Block.ofList vertex) (Block.ofList edge) 0 buckets =
      .error .bounds := by
    unfold collectRow
    have h₀ := hread 0 (by omega)
    have h₁ := hread 1 hlen
    rw [h.getD_zero] at h₀
    rw [hnext] at h₁
    rw [show (0 : Int) = ((0 : Nat) : Int) from rfl, h₀, Run.ok_bind,
      show ((0 : Nat) : Int) + 1 = ((1 : Nat) : Int) by omega, h₁, Run.ok_bind]
    have hbound : (toDtype (0 - 1) - 0).toNat = 2 ^ 32 - 1 := by decide
    rw [hbound]
    exact forLoop_pushPair_bounds (2 ^ 32 - 1) 0 buckets (by omega) (by omega)
  unfold collectPairs
  rw [if_neg (by omega), show vertex.length - 1 = vertex.length - 2 + 1 by omega, Run.forLoop,
    hfirst]
  rfl

/-- The pairs are collected exactly when the first row is not empty, or there is no row. -/
theorem collectPairs_iff (h : Csr.Valid vertex edge) (hoff : (edge.length : Int) < 2 ^ 32)
    (buckets : Buckets) :
    (∃ bs, collectPairs vertex edge buckets = .ok bs ∧
      ∀ b, bs b = buckets b ++ bucketKeys (rowPairs (Csr.rows vertex edge)) b) ↔
      vertex.length = 1 ∨ Csr.row vertex edge 0 ≠ [] := by
  have hlen := h.length_pos
  constructor
  · rintro ⟨bs, hbs, -⟩
    by_contra hrow
    rw [not_or, not_not] at hrow
    rw [collectPairs_bounds h hoff (by omega) hrow.2] at hbs
    cases hbs
  · intro hrow
    exact collectPairs_eq h hoff hrow buckets

/-- Rows of three, no, one and two entries. -/
theorem collectPairs_iff_rows : ∃ bs, collectPairs [0, 3, 3, 4, 6] [1, 2, 1, 5, 41, 2] (fun _ => []) =
    .ok bs ∧ ∀ b, bs b = [] ++
      bucketKeys (rowPairs (Csr.rows [0, 3, 3, 4, 6] [1, 2, 1, 5, 41, 2])) b :=
  (collectPairs_iff ⟨rfl, by decide, by decide⟩ (by decide) _).mpr (Or.inr (by decide))

/-- An empty row in front of a row with two entries. -/
theorem collectPairs_leading_empty :
    Csr.Valid [0, 0, 2] [(0 : Int), 1] ∧
      collectPairs [0, 0, 2] [0, 1] (fun _ => []) = .error .bounds := by
  have hvalid : Csr.Valid [0, 0, 2] [(0 : Int), 1] := ⟨rfl, by decide, by decide⟩
  exact ⟨hvalid, collectPairs_bounds hvalid (by decide) (by decide) (by decide) _⟩

end Rows

end Laconic.Parallel

import Laconic.Parallel.Collect

/-!
# The parallel compressor: rewriting a block

`replace` makes one pass over every row of a block.  A block without an edge stops it: the bound of
the last row is `size() - 1`, and the pass reads the first of no edges.
-/

namespace Laconic.Parallel

open PairScan
open RePair (intBound)

theorem checkInt_eq {x : Int} (h : -intBound ≤ x ∧ x < intBound) : checkInt x = .ok x := if_pos h

section Row

variable {tables : Tables} {edges : List Int} {start stop : Nat}

/-- The variables of `replace` after the entries of a row before `i`. -/
structure ScanInv (tables : Tables) (edges : List Int) (start stop : Nat) (s₀ s : Replace)
    (i : Nat) : Prop where
  idx : s.idx = i
  lower : start ≤ i
  upper : i ≤ stop
  vertices : s.vertices = s₀.vertices ++ [s₀.vsize]
  edges : ∃ done, s.edges = s₀.edges ++ done ∧ s.vsize = s₀.vsize + done.length ∧
    done.length + start ≤ i ∧
    done ++ scan (findId tables) ((edges.take stop).drop i) =
      scan (findId tables) ((edges.take stop).drop start)

/-- One round goes one or two entries on. -/
theorem ScanInv.step {s₀ s : Replace} {i : Nat} (hinv : ScanInv tables edges start stop s₀ s i)
    (hi : i + 1 < stop) (hstop : stop ≤ edges.length) (hsmall : (edges.length : Int) < intBound)
    (h0 : 0 ≤ s₀.vsize) (hvs : s₀.vsize + stop - start < intBound) :
    ∃ s' j, scanStep tables (Block.ofList edges) s = .ok s' ∧ i < j ∧
      ScanInv tables edges start stop s₀ s' j := by
  obtain ⟨hidx, hlow, hup, hvert, done, hedges, hvsize, hlen, hscan⟩ := hinv
  have hib : (0 : Int) ≤ intBound := by decide
  -- the two entries that the round looks at
  have hx : (edges.take stop).drop i = edges[i] :: edges[i + 1] :: (edges.take stop).drop (i + 2) := by
    rw [List.drop_eq_getElem_cons (by rw [List.length_take]; omega),
      List.drop_eq_getElem_cons (by rw [List.length_take]; omega)]
    simp
  unfold scanStep
  rw [hidx, Block.read_ofList (by omega), Run.ok_bind,
    show (i : Int) + 1 = ((i + 1 : Nat) : Int) by omega, Block.read_ofList (by omega), Run.ok_bind]
  cases hf : findId tables edges[i] edges[i + 1] with
  | some id =>
    dsimp only
    rw [checkInt_eq (by omega), Run.ok_bind, checkInt_eq (by omega), Run.ok_bind,
      checkInt_eq (by omega), Run.ok_bind]
    refine ⟨_, i + 2, rfl, by omega, by dsimp only; omega, by omega, by omega, hvert, done ++ [id],
      ?_, ?_, ?_, ?_⟩
    · dsimp only
      rw [hedges, List.append_assoc]
    · dsimp only
      rw [hvsize, List.length_append, List.length_singleton]
      omega
    · rw [List.length_append, List.length_singleton]
      omega
    · rw [← hscan, hx, scan_some hf, List.append_assoc]
      rfl
  | none =>
    dsimp only
    rw [checkInt_eq (by omega), Run.ok_bind, checkInt_eq (by omega), Run.ok_bind]
    refine ⟨_, i + 1, rfl, by omega, by dsimp only, by omega, by omega, hvert, done ++ [edges[i]],
      ?_, ?_, ?_, ?_⟩
    · dsimp only
      rw [hedges, List.append_assoc]
    · dsimp only
      rw [hvsize, List.length_append, List.length_singleton]
      omega
    · rw [List.length_append, List.length_singleton]
      omega
    · have hdrop : (edges.take stop).drop (i + 1) = edges[i + 1] :: (edges.take stop).drop (i + 2) := by
        rw [List.drop_eq_getElem_cons (by rw [List.length_take]; omega)]
        simp
      rw [← hscan, hx, scan_none hf, List.append_assoc, hdrop]
      rfl

/-- The pass over one row. -/
theorem replaceRow_eq {more left : Int → Bool} (hle : start ≤ stop) (hstop : stop ≤ edges.length)
    (hsmall : (edges.length : Int) < intBound)
    (hmore : ∀ i : Nat, i ≤ edges.length → (more i = true ↔ i + 1 < stop))
    (hleft : ∀ i : Nat, i ≤ edges.length → (left i = true ↔ i < stop)) (s : Replace)
    (h0 : 0 ≤ s.vsize) (hvs : s.vsize + stop - start < intBound) :
    ∃ s', replaceRow tables (Block.ofList edges) more left start (stop - 1) s = .ok s' ∧
      s'.vertices = s.vertices ++ [s.vsize] ∧
      s'.edges = s.edges ++ scan (findId tables) ((edges.take stop).drop start) ∧
      s'.vsize = s.vsize + (scan (findId tables) ((edges.take stop).drop start)).length := by
  -- the loop stops with at most one entry of the row left
  have hloop : Run.Meets (fun _ => False)
      (Run.whileLoop (fun s : Replace => pure (more s.idx)) (scanStep tables (Block.ofList edges))
        (edges.length + 2) { s with idx := start, vertices := s.vertices ++ [s.vsize] })
      (fun s' => ∃ i, ScanInv tables edges start stop s s' i ∧ stop ≤ i + 1) := by
    refine Run.meets_whileLoop _ _ (fun s' => ∃ i, ScanInv tables edges start stop s s' i) _
      (fun s' => (stop - s'.idx).toNat) (fun s' hs' => ?_) _ _ (by dsimp only; omega)
      ⟨start, rfl, Nat.le_refl _, hle, rfl, [], by simp, by simp, by simp, rfl⟩
    obtain ⟨i, hinv⟩ := hs'
    have hidx := hinv.idx
    have hup := hinv.upper
    have hiff := hmore i (by omega)
    rw [Run.meets_pure, hidx]
    refine ⟨fun htrue => ?_, fun hfalse => ⟨i, hinv, ?_⟩⟩
    · obtain ⟨s'', j, hrun, hij, hinv'⟩ := hinv.step (hiff.mp htrue) hstop hsmall h0 hvs
      rw [hrun, Run.meets_ok]
      refine ⟨⟨j, hinv'⟩, ?_⟩
      have := hinv'.idx
      have := hinv'.upper
      omega
    · rw [hfalse] at hiff
      simp only [Bool.false_eq_true, false_iff] at hiff
      omega
  obtain ⟨s', hrun, i, hinv, hend⟩ := hloop.exists_ok fun e he => he.elim
  obtain ⟨hidx, hlow, hup, hvert, done, hedges, hvsize, hlen, hscan⟩ := hinv
  have hiff := hleft i (by omega)
  unfold replaceRow
  rw [show (Block.ofList edges).size.toNat = edges.length from Int.toNat_natCast _, hrun,
    Run.ok_bind, hidx]
  by_cases hlast : i < stop
  · -- one entry is left
    have hdrop : (edges.take stop).drop i = [edges[i]] := by
      rw [List.drop_eq_getElem_cons (by rw [List.length_take]; omega), List.drop_eq_nil_of_le
        (by rw [List.length_take]; omega)]
      simp
    rw [hdrop, scan_singleton] at hscan
    rw [if_pos (hiff.mpr hlast), show (stop : Int) - 1 = (i : Int) by omega,
      Block.read_ofList (by omega), Run.ok_bind, checkInt_eq (by
        have hib : (0 : Int) ≤ intBound := by decide
        omega), Run.ok_bind]
    refine ⟨_, rfl, hvert, ?_, ?_⟩
    · dsimp only
      rw [hedges, List.append_assoc, hscan]
    · dsimp only
      rw [hvsize, ← hscan, List.length_append, List.length_singleton]
      omega
  · rw [List.drop_eq_nil_of_le (by rw [List.length_take]; omega), scan_nil, List.append_nil] at hscan
    rw [if_neg (by rw [hiff]; exact hlast)]
    exact ⟨s', rfl, hvert, by rw [hedges, hscan], by rw [hvsize, hscan]⟩

end Row

section Block

variable {tables : Tables} {rows : List (List Int)} {k : Int}

/-- The rebased offsets of a block. -/
theorem rebase_eq (k : Int) (hsmall : (rows.flatten.length : Int) < intBound) :
    (Csr.startsFrom k rows).mapM (fun x => checkInt (x - k)) = .ok (Csr.startsFrom 0 rows) := by
  have hmap : (Csr.startsFrom k rows).map (· - k) = Csr.startsFrom 0 rows := by
    have hmove : (Csr.startsFrom k rows).map (· + -k) = _ := Csr.map_startsFrom (-k)
    rwa [show k + -k = 0 by omega] at hmove
  rw [← hmap]
  refine Run.mapM_eq_map fun x hx => checkInt_eq ?_
  have := Csr.mem_startsFrom hx
  have hib : (0 : Int) ≤ intBound := by decide
  omega

/-- The first `v` rows are rewritten. -/
structure RowsDone (tables : Tables) (rows : List (List Int)) (v : Nat) (s : Replace) : Prop where
  edges : s.edges = ((rows.take v).map (scan (findId tables))).flatten
  vertices : s.vertices = Csr.startsFrom 0 ((rows.take v).map (scan (findId tables)))
  vsize : s.vsize = s.edges.length

/-- One more row. -/
theorem RowsDone.step {v : Nat} {s : Replace} (h : RowsDone tables rows v s) (hv : v < rows.length)
    (more left : Int → Bool) (hsmall : (rows.flatten.length : Int) < intBound)
    (hmore : ∀ i : Nat, i ≤ rows.flatten.length →
      (more i = true ↔ i + 1 < (rows.take (v + 1)).flatten.length))
    (hleft : ∀ i : Nat, i ≤ rows.flatten.length →
      (left i = true ↔ i < (rows.take (v + 1)).flatten.length)) :
    ∃ s', replaceRow tables (Block.ofList rows.flatten) more left (rows.take v).flatten.length
        ((rows.take (v + 1)).flatten.length - 1) s = .ok s' ∧ RowsDone tables rows (v + 1) s' := by
  have htake : rows.take (v + 1) = rows.take v ++ [rows[v]] := by
    rw [List.take_add_one, List.getElem?_eq_getElem hv]
    rfl
  have hflat : (rows.take (v + 1)).flatten.length =
      (rows.take v).flatten.length + rows[v].length := by
    rw [htake, List.flatten_concat, List.length_append]
  have hstop : (rows.take (v + 1)).flatten.length ≤ rows.flatten.length := by
    have hsplit : rows.flatten.length = (rows.take (v + 1)).flatten.length +
        (rows.drop (v + 1)).flatten.length := by
      rw [← List.length_append, ← List.flatten_append, List.take_append_drop]
    omega
  have hrow : ((rows.flatten).take (rows.take (v + 1)).flatten.length).drop
      (rows.take v).flatten.length = rows[v] := by
    have := Csr.row_offsets hv
    rwa [Csr.row, Csr.offsets_getD (by omega), Csr.offsets_getD (by omega), Int.toNat_natCast,
      Int.toNat_natCast] at this
  -- the pass never makes a row longer, so the new offsets fit where the old ones do
  have hshort := length_flatten_scan (findId tables) (rows.take v)
  rw [← h.edges] at hshort
  have hvs := h.vsize
  have hle : (rows.take v).flatten.length ≤ (rows.take (v + 1)).flatten.length := by omega
  obtain ⟨s', hrun, hvert, hedges, hsize⟩ := replaceRow_eq hle hstop hsmall hmore hleft s (by omega)
    (by omega)
  rw [hrow] at hedges hsize
  refine ⟨s', hrun, ?_, ?_, ?_⟩
  · rw [hedges, h.edges, htake, List.map_append, List.flatten_append]
    simp
  · rw [hvert, h.vertices, htake, List.map_append, Csr.startsFrom_append, hvs, h.edges, Int.zero_add]
    rfl
  · rw [hsize, hvs, hedges, List.length_append]
    push_cast
    rfl

theorem read_starts {v : Nat} (hv : v < rows.length) :
    (Block.ofList (Csr.startsFrom k rows)).read v = .ok (k + (rows.take v).flatten.length) := by
  have hlt : v < (Csr.startsFrom k rows).length := by
    rw [Csr.length_startsFrom]
    exact hv
  have hget := Csr.startsFrom_getElem? (k := k) hv
  rw [List.getElem?_eq_getElem hlt, Option.some_inj] at hget
  rw [Block.read_ofList hlt, hget]

/-- All rows of a block but the last one. -/
theorem replace_last (tables : Tables) (k : Int) (hne : rows ≠ [])
    (hsmall : (rows.flatten.length : Int) < intBound) :
    ∃ s, RowsDone tables rows (rows.length - 1) s ∧
      replace tables (Csr.startsFrom k rows) rows.flatten =
        replaceRow tables (Block.ofList rows.flatten)
          (fun idx => decide (toSize idx < toSize (rows.flatten.length - 1)))
          (fun idx => decide (toSize idx < rows.flatten.length))
          (rows.take (rows.length - 1)).flatten.length (rows.flatten.length - 1) s := by
  have hlen := List.length_pos_iff.mpr hne
  -- a row ends where the next one starts; the last row is outside of the loop
  have hstep : ∀ (v : Int) (s : Replace), v < (rows.length - 1 : Nat) →
      (0 ≤ v ∧ RowsDone tables rows v.toNat s) →
      Run.Meets (fun _ => False) (do
        let start ← (Block.ofList (Csr.startsFrom 0 rows)).read v
        let stop ← (Block.ofList (Csr.startsFrom 0 rows)).read (v + 1)
        replaceRow tables (Block.ofList rows.flatten) (fun idx => decide (idx < stop - 1))
          (fun idx => decide (idx < stop)) start (stop - 1) s)
        (fun s => 0 ≤ v + 1 ∧ RowsDone tables rows (v + 1).toNat s) := by
    rintro v s hv ⟨h0, hs⟩
    obtain ⟨v, rfl⟩ := Int.eq_ofNat_of_zero_le h0
    rw [Int.toNat_natCast] at hs
    obtain ⟨s', hrun, hs'⟩ := hs.step (by omega)
      (fun idx => decide (idx < ((rows.take (v + 1)).flatten.length : Int) - 1))
      (fun idx => decide (idx < ((rows.take (v + 1)).flatten.length : Int))) (by omega)
      (fun i _ => by rw [decide_eq_true_iff]; omega) (fun i _ => by rw [decide_eq_true_iff]; omega)
    rw [read_starts (by omega), Run.ok_bind, show (v : Int) + 1 = ((v + 1 : Nat) : Int) by omega,
      read_starts (by omega), Run.ok_bind, Int.zero_add, Int.zero_add, hrun, Run.meets_ok,
      Int.toNat_natCast]
    exact ⟨by omega, hs'⟩
  obtain ⟨s, hrun, -, hs⟩ := (Run.meets_forLoop _ ((rows.length - 1 : Nat) : Int) hstep
    (rows.length - 1) 0 ⟨0, 0, [], []⟩ (by omega)
    ⟨Int.le_refl 0, ⟨rfl, rfl, rfl⟩⟩).exists_ok fun e he => he.elim
  rw [Int.toNat_natCast] at hs
  refine ⟨s, hs, ?_⟩
  have hfirst := read_starts (k := k) hlen
  rw [List.take_zero, List.flatten_nil, List.length_nil, Int.natCast_zero, Int.add_zero] at hfirst
  unfold replace
  rw [hfirst, Run.ok_bind, rebase_eq k hsmall, Run.ok_bind]
  dsimp only
  rw [Csr.length_startsFrom, hrun, Run.ok_bind,
    show ((rows.length : Int) - 1) = ((rows.length - 1 : Nat) : Int) by omega,
    read_starts (by omega), Run.ok_bind, Int.zero_add]

/-- `replace` on the rows of a block. -/
theorem replace_eq (tables : Tables) (k : Int) (hne : rows ≠ []) (hedge : rows.flatten ≠ [])
    (hsmall : (rows.flatten.length : Int) < intBound) :
    ∃ s, replace tables (Csr.startsFrom k rows) rows.flatten = .ok s ∧
      s.edges = (rows.map (scan (findId tables))).flatten ∧
      s.vertices = Csr.startsFrom 0 (rows.map (scan (findId tables))) := by
  have hlen := List.length_pos_iff.mpr hne
  have hflat := List.length_pos_iff.mpr hedge
  have hib : intBound = 2 ^ 31 := rfl
  obtain ⟨s, hs, hrun⟩ := replace_last tables k hne hsmall
  have htotal : (rows.take (rows.length - 1 + 1)).flatten.length = rows.flatten.length := by
    rw [show rows.length - 1 + 1 = rows.length by omega, List.take_length]
  obtain ⟨s', hrun', hs'⟩ := hs.step (by omega)
    (fun idx => decide (toSize idx < toSize (rows.flatten.length - 1)))
    (fun idx => decide (toSize idx < rows.flatten.length)) (by omega)
    -- the two tests of the last row are made in `size_t`, where small numbers are themselves
    (fun i hi => by
      rw [decide_eq_true_iff, toSize, toSize, Int.emod_eq_of_lt (by omega) (by omega),
        Int.emod_eq_of_lt (by omega) (by omega), htotal]
      omega)
    (fun i hi => by
      rw [decide_eq_true_iff, toSize, Int.emod_eq_of_lt (by omega) (by omega), htotal]
      omega)
  rw [htotal] at hrun'
  rw [show rows.length - 1 + 1 = rows.length by omega] at hs'
  refine ⟨s', hrun.trans hrun', ?_, ?_⟩
  · rw [hs'.edges, List.take_length]
  · rw [hs'.vertices, List.take_length]

/-- A block without an edge: the last row has no end. -/
theorem replace_no_edges (k : Int) (hne : rows ≠ []) (hedge : rows.flatten = []) :
    replace tables (Csr.startsFrom k rows) rows.flatten = .error .bounds := by
  obtain ⟨s, -, hrun⟩ := replace_last tables k hne (by rw [hedge]; decide)
  have hstart : (rows.take (rows.length - 1)).flatten.length = 0 := by
    have hsplit : rows.flatten.length = (rows.take (rows.length - 1)).flatten.length +
        (rows.drop (rows.length - 1)).flatten.length := by
      rw [← List.length_append, ← List.flatten_append, List.take_append_drop]
    rw [hedge, List.length_nil] at hsplit
    omega
  -- `size() - 1` is then the largest `size_t`, and the first round reads past the end
  rw [hrun, hstart, hedge]
  rfl

/-- `replace` works on the blocks that have an edge. -/
theorem replace_ok_iff (k : Int) (hsmall : (rows.flatten.length : Int) < intBound) :
    (∃ s, replace tables (Csr.startsFrom k rows) rows.flatten = .ok s) ↔ rows.flatten ≠ [] := by
  constructor
  · rintro ⟨s, hs⟩ hempty
    by_cases hne : rows = []
    · rw [hne] at hs
      cases hs
    · rw [replace_no_edges k hne hempty] at hs
      cases hs
  · intro hedge
    have hne : rows ≠ [] := by
      intro hnil
      rw [hnil] at hedge
      exact hedge rfl
    obtain ⟨s, hs, -⟩ := replace_eq tables k hne hedge hsmall
    exact ⟨s, hs⟩

end Block

end Laconic.Parallel

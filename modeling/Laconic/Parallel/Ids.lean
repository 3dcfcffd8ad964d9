import Laconic.Parallel.Rules

/-!
# The parallel compressor: ids of rules

Row numbers come from the offsets, the first new id comes from the largest symbol.  They agree when
the last vertex stands in the edges.  When it does not, the constructor prints a message and goes on:
it gives the ids of vertices to rules, unless there is no rule to make.
-/

namespace Laconic.Parallel

open PairScan Slp
open RePair (intBound)

/-- The keys and ids that `prepare_new_id` hands out in turn `n + 1`. -/
def handedOut (order : Order) (vertex edge : List Int) (maxSymbol : Int) (n : Nat) :
    List (Nat × Nat) :=
  match repairTurns order vertex.length n (initialState vertex edge maxSymbol) >>=
    turnTables order (n + 1) with
  | .ok r => r.2.flatMap fun table => table.2.convert
  | .error _ => []

/-- Ids are no vertices, no two rules have the same id, and the row of an id is the row of its rule:
the pair itself when the id is handed out, and a row with the same expansion in the end. -/
structure RulesSound (order : Order) (vertex edge : List Int) (maxSymbol : Int) (s : State) : Prop where
  above : ∀ n, n < compressRate → ∀ kv ∈ handedOut order vertex edge maxSymbol n,
    vertex.length - 1 ≤ kv.2
  distinct : (((List.range compressRate).flatMap
    (handedOut order vertex edge maxSymbol)).map Prod.snd).Nodup
  made : ∀ n, n < compressRate → ∀ kv ∈ handedOut order vertex edge maxSymbol n, ∃ s',
    repairTurns order vertex.length (n + 1) (initialState vertex edge maxSymbol) = .ok s' ∧
      Csr.row s'.inputVertex s'.inputEdge kv.2 = keyRow kv
  kept : ∀ n, n < compressRate → ∀ kv ∈ handedOut order vertex edge maxSymbol n, ∃ ys,
    Expands (csrRhs ↑(vertex.length - 1) ↑(vertex.length - 1) s.inputVertex s.inputEdge)
        (keyRow kv) ys ∧
      Expands (csrRhs ↑(vertex.length - 1) ↑(vertex.length - 1) s.inputVertex s.inputEdge)
        (Csr.row s.inputVertex s.inputEdge kv.2) ys

/-! ## What is handed out -/

theorem flatMap_convert (startId : Nat) (tables : List HashMap) :
    ((prepareAll startId tables).flatMap fun table => table.2.convert) =
      (tables.flatten.map Prod.fst).zipIdx startId := by
  induction tables generalizing startId with
  | nil => rfl
  | cons table tables ih =>
    rw [prepareAll, List.flatMap_cons, ih, prepareNewId_eq, List.flatten_cons, List.map_append,
      List.zipIdx_append, List.length_map]

section Ids

variable {order : Order} {vertex edge : List Int} {maxSymbol : Int} {n : Nat}

section Reached

variable (h : Input vertex edge) (h0 : 0 ≤ maxSymbol) (hmax : maxSymbol + 1 < vertex.length)
  (horder : Permutes order) (hrange : InRange order vertex edge maxSymbol)

include h h0 hmax horder hrange

/-- The ids of a turn are consecutive. -/
theorem handedOut_eq (hn : n < compressRate) :
    handedOut order vertex edge maxSymbol n =
      ((turnCounts order (n + 1)
        ((startText vertex edge maxSymbol).turns order n).pushed).flatten.map Prod.fst).zipIdx
        ((startText vertex edge maxSymbol).turns order n).base := by
  obtain ⟨s, hs, hholds, hready, hfits⟩ := hrange.reached h h0 hmax horder (Nat.le_of_lt hn)
  unfold handedOut
  rw [hs, Run.ok_bind, hholds.turnTables_eq hready hfits]
  exact flatMap_convert _ _

/-- An id and the pair that it stands for. -/
theorem mem_handedOut (hn : n < compressRate) {kv : Nat × Nat}
    (hkv : kv ∈ handedOut order vertex edge maxSymbol n) :
    ∃ i : Nat, (((startText vertex edge maxSymbol).turns order n).news order (n + 1))[i]? =
        some (pairOfKey kv.1) ∧
      kv.2 = ((startText vertex edge maxSymbol).turns order n).base + i := by
  rw [handedOut_eq h h0 hmax horder hrange hn] at hkv
  obtain ⟨i, hi⟩ := List.mem_iff_getElem?.mp hkv
  -- position `i` in the tables, one after the other, is the id `base + i`
  rw [List.getElem?_zipIdx, Option.map_eq_some_iff] at hi
  obtain ⟨k, hk, rfl⟩ := hi
  refine ⟨i, ?_, rfl⟩
  rw [List.getElem?_map, Option.map_eq_some_iff] at hk
  obtain ⟨entry, hentry, rfl⟩ := hk
  rw [Text.news, newPairs, List.getElem?_map, hentry]
  rfl

/-- Nothing is handed out in a turn without new pairs. -/
theorem handedOut_nil (hn : n < compressRate)
    (hnews : ((startText vertex edge maxSymbol).turns order n).news order (n + 1) = []) :
    handedOut order vertex edge maxSymbol n = [] := by
  refine List.eq_nil_iff_forall_not_mem.mpr fun kv hkv => ?_
  obtain ⟨i, hi, -⟩ := mem_handedOut h h0 hmax horder hrange hn hkv
  rw [hnews] at hi
  cases hi

end Reached

/-! ## When the last vertex stands in the edges -/

theorem Text.turns_length (order : Order) (t : Text) (n : Nat) : (t.turns order (n + 1)).rows.length =
    (t.turns order n).rows.length + ((t.turns order n).news order (n + 1)).length :=
  Text.length_turn

theorem Text.turns_length_mono (order : Order) (t : Text) {m n : Nat} (hmn : m ≤ n) :
    (t.turns order m).rows.length ≤ (t.turns order n).rows.length := by
  induction hmn with
  | refl => exact Nat.le_refl _
  | step _ ih =>
    rw [Text.turns_length]
    omega

/-- Consecutive ranges, one after the other. -/
theorem flatMap_range' (bound : Nat → Nat) (hmono : ∀ n, bound n ≤ bound (n + 1)) (k : Nat) :
    ((List.range k).flatMap fun n => List.range' (bound n) (bound (n + 1) - bound n)) =
      List.range' (bound 0) (bound k - bound 0) := by
  have hle : ∀ n, bound 0 ≤ bound n := by
    intro n
    induction n with
    | zero => exact Nat.le_refl _
    | succ n ih => exact Nat.le_trans ih (hmono n)
  induction k with
  | zero => simp
  | succ k ih =>
    have h₁ := hle k
    have h₂ := hmono k
    rw [List.range_succ, List.flatMap_append, ih, List.flatMap_singleton]
    have happend := List.range'_append_1 (s := bound 0) (m := bound k - bound 0)
      (n := bound (k + 1) - bound k)
    rwa [show bound 0 + (bound k - bound 0) = bound k by omega,
      show bound k - bound 0 + (bound (k + 1) - bound k) = bound (k + 1) - bound 0 by omega]
      at happend

section Sound

variable (h : Input vertex edge) (hmax : maxSymbol + 2 = vertex.length) (horder : Permutes order)
  (hrange : InRange order vertex edge maxSymbol)

include h hmax horder hrange

/-- The ids of a turn are the numbers of the rows that it appends. -/
theorem ids_handedOut (hn : n < compressRate) :
    (handedOut order vertex edge maxSymbol n).map Prod.snd =
      List.range' ((startText vertex edge maxSymbol).turns order n).rows.length
        (((startText vertex edge maxSymbol).turns order (n + 1)).rows.length -
          ((startText vertex edge maxSymbol).turns order n).rows.length) := by
  have h0 := h.maxSymbol_nonneg hmax
  have hbase := (encodes_turns h hmax horder hrange n (Nat.le_of_lt hn)).2
  rw [handedOut_eq h h0 (by omega) horder hrange hn, List.zipIdx_map_snd, hbase, List.length_map,
    Text.turns_length, Nat.add_sub_cancel_left, Text.news, newPairs, List.length_map]

/-- The pair of an id has rows, and so has the id after its turn, where its row is the pair. -/
theorem row_handedOut (hn : n < compressRate) {kv : Nat × Nat}
    (hkv : kv ∈ handedOut order vertex edge maxSymbol n) :
    (∀ x ∈ keyRow kv, 0 ≤ x ∧
        x < (((startText vertex edge maxSymbol).turns order n).rows.length : Int)) ∧
      (Csr.rows vertex edge).length ≤ kv.2 ∧
      ((startText vertex edge maxSymbol).turns order (n + 1)).rows[kv.2]? = some (keyRow kv) := by
  have h0 := h.maxSymbol_nonneg hmax
  have hlt : maxSymbol + 1 < vertex.length := by omega
  obtain ⟨henc, hbase⟩ := encodes_turns h hmax horder hrange n (Nat.le_of_lt hn)
  obtain ⟨-, -, -, hready, hfits⟩ := hrange.reached h h0 hlt horder (Nat.le_of_lt hn)
  obtain ⟨i, hi, hid⟩ := mem_handedOut h h0 hlt horder hrange hn hkv
  have hwithin := hready.within_news hfits horder _ (List.mem_of_getElem? hi)
  have hle := henc.le
  rw [hbase] at hid
  refine ⟨fun x hx => ?_, by omega, ?_⟩
  · simp only [keyRow, List.mem_cons, List.not_mem_nil, or_false] at hx
    rcases hx with rfl | rfl
    · exact hwithin.1
    · exact hwithin.2
  · rw [hid]
    exact turnRows_getElem?_new hi

/-- A rule and its pair have the same expansion in all later turns. -/
theorem expands_handedOut (hn : n < compressRate) {kv : Nat × Nat}
    (hkv : kv ∈ handedOut order vertex edge maxSymbol n) :
    ∀ k, n + 1 + k ≤ compressRate → ∃ ys,
      Expands (rowRhs (Csr.rows vertex edge).length
          ((startText vertex edge maxSymbol).turns order (n + 1 + k)).rows) (keyRow kv) ys ∧
        Expands (rowRhs (Csr.rows vertex edge).length
          ((startText vertex edge maxSymbol).turns order (n + 1 + k)).rows) [(kv.2 : Int)] ys := by
  obtain ⟨hpair, hV, hrow⟩ := row_handedOut h hmax horder hrange hn hkv
  have hid := (List.getElem?_eq_some_iff.mp hrow).1
  intro k
  -- right after its turn the row of an id is its pair; later turns change no expansion
  induction k with
  | zero =>
    intro hk
    have henc := (encodes_turns h hmax horder hrange (n + 1) hk).1
    obtain ⟨ys, hys⟩ := (ruleGraph_of_encodes henc).exists_expansion (keyRow kv)
    rw [csrRhs_offsets] at hys
    exact ⟨ys, hys, (Expands.singleton_of_some (Encodes.rowRhs_eq_some (by omega)
      (by rwa [Int.toNat_natCast]))).mpr hys⟩
  | succ k ih =>
    intro hk
    obtain ⟨ys, hpairs, hrule⟩ := ih (by omega)
    obtain ⟨henc, hbase⟩ := encodes_turns h hmax horder hrange (n + 1 + k) (by omega)
    have hmono : ((startText vertex edge maxSymbol).turns order n).rows.length ≤
        ((startText vertex edge maxSymbol).turns order (n + 1 + k)).rows.length :=
      Text.turns_length_mono order _ (by omega)
    have hmono' : ((startText vertex edge maxSymbol).turns order (n + 1)).rows.length ≤
        ((startText vertex edge maxSymbol).turns order (n + 1 + k)).rows.length :=
      Text.turns_length_mono order _ (by omega)
    refine ⟨ys, ?_, ?_⟩
    · rw [← Nat.add_assoc, Text.turns, Text.turn, hbase]
      refine henc.expands_turn (fun x hx => ?_) hpairs
      have := hpair x hx
      omega
    · rw [← Nat.add_assoc, Text.turns, Text.turn, hbase]
      refine henc.expands_turn (fun x hx => ?_) hrule
      rw [List.mem_singleton] at hx
      omega

theorem rulesSound_of_last {s : State}
    (hs : repair order vertex edge maxSymbol = .ok s) : RulesSound order vertex edge maxSymbol s := by
  have h0 := h.maxSymbol_nonneg hmax
  have hlt : maxSymbol + 1 < vertex.length := by omega
  have hlen := h.length_rows
  have hV : vertex.length - 1 = (Csr.rows vertex edge).length := by omega
  constructor
  · intro n hn kv hkv
    rw [hV]
    exact (row_handedOut h hmax horder hrange hn hkv).2.1
  · -- the ids of the turns are consecutive ranges of row numbers
    have hids : ((List.range compressRate).flatMap
        (handedOut order vertex edge maxSymbol)).map Prod.snd =
        (List.range compressRate).flatMap fun n =>
          List.range' ((startText vertex edge maxSymbol).turns order n).rows.length
            (((startText vertex edge maxSymbol).turns order (n + 1)).rows.length -
              ((startText vertex edge maxSymbol).turns order n).rows.length) := by
      rw [List.map_flatMap]
      exact List.flatMap_congr fun n hn =>
        ids_handedOut h hmax horder hrange (List.mem_range.mp hn)
    rw [hids, flatMap_range' (fun n => ((startText vertex edge maxSymbol).turns order n).rows.length)
      fun n => Text.turns_length_mono order _ (Nat.le_succ n)]
    exact List.nodup_range'
  · intro n hn kv hkv
    obtain ⟨s', hs', hholds, -, -⟩ := hrange.reached h h0 hlt horder (Nat.succ_le_of_lt hn)
    obtain ⟨hid, hrow⟩ := List.getElem?_eq_some_iff.mp
      (row_handedOut h hmax horder hrange hn hkv).2.2
    refine ⟨s', hs', ?_⟩
    rw [hholds.vertex, hholds.edge, Csr.row_offsets hid, hrow]
  · intro n hn kv hkv
    obtain ⟨s', hs', hholds, -, -⟩ := hrange.reached h h0 hlt horder (Nat.le_refl compressRate)
    obtain ⟨-, hid, hrow⟩ := row_handedOut h hmax horder hrange hn hkv
    obtain ⟨k, hk⟩ := Nat.exists_eq_add_of_le (Nat.succ_le_of_lt hn)
    obtain ⟨ys, hpair, hrule⟩ := expands_handedOut h hmax horder hrange hn hkv k (by omega)
    have hlt' : kv.2 < ((startText vertex edge maxSymbol).turns order compressRate).rows.length :=
      Nat.lt_of_lt_of_le (List.getElem?_eq_some_iff.mp hrow).1
        (Text.turns_length_mono order _ (Nat.succ_le_of_lt hn))
    rw [show n + 1 + k = compressRate by omega] at hpair hrule
    unfold repair at hs
    rw [hs] at hs'
    cases hs'
    refine ⟨ys, ?_, ?_⟩
    · rw [hholds.vertex, hholds.edge, hV, csrRhs_offsets]
      exact hpair
    · rw [hholds.vertex, hholds.edge, hV, csrRhs_offsets, Csr.row_offsets hlt']
      refine (Expands.singleton_of_some (Encodes.rowRhs_eq_some (by omega) ?_)).mp hrule
      rw [Int.toNat_natCast]
      exact List.getElem?_eq_getElem hlt'

end Sound

end Ids

/-! ## The largest symbol -/

section MaxSymbol

variable {order : Order} {vertex edge : List Int}

theorem foldl_max_le {l : List Int} {a bound : Int} (ha : a ≤ bound) (h : ∀ x ∈ l, x ≤ bound) :
    l.foldl max a ≤ bound := by
  induction l generalizing a with
  | nil => exact ha
  | cons x l ih =>
    exact ih (max_le ha (h x List.mem_cons_self)) fun y hy => h y (List.mem_cons_of_mem _ hy)

theorem le_foldl_max {l : List Int} {a : Int} : a ≤ l.foldl max a := by
  induction l generalizing a with
  | nil => exact Int.le_refl _
  | cons x l ih => exact Int.le_trans (Int.le_max_left a x) ih

theorem maxSymbol_nonneg : 0 ≤ maxSymbol edge := le_foldl_max

theorem Input.maxSymbol_lt (h : Input vertex edge) : maxSymbol edge + 1 < vertex.length := by
  have hrow : 1 < vertex.length := by
    by_contra hle
    exact h.first (Csr.row_of_le (by omega))
  have hle : maxSymbol edge ≤ (vertex.length : Int) - 2 :=
    foldl_max_le (by omega) fun x hx => by
      have := h.entries x hx
      omega
  omega

/-- A constructor that returns has found an entry in the first row and an edge in every block. -/
theorem input_of_repair {maxSymbol : Int} {s : State} (hvalid : Csr.Valid vertex edge)
    (hlast : vertex.getLast? = some (edge.length : Int))
    (hent : ∀ x ∈ edge, 0 ≤ x ∧ x < (vertex.length : Int) - 1)
    (hrange : (initialState vertex edge maxSymbol).InRange)
    (hs : repair order vertex edge maxSymbol = .ok s) : Input vertex edge := by
  have hib : intBound = 2 ^ 31 := rfl
  have hth : threadNum = 40 := rfl
  obtain ⟨hids, hedges⟩ := hrange
  dsimp only [initialState] at hids hedges
  -- all three turns return, and the first one is the one that tells about the input
  have hturn : ∃ s, repairTurn order vertex.length 1 (initialState vertex edge maxSymbol) = .ok s := by
    obtain ⟨s₂, hs₂, -⟩ := Run.bind_eq_ok.mp hs
    obtain ⟨s₁, hs₁, -⟩ := Run.bind_eq_ok.mp hs₂
    obtain ⟨s₀, hs₀, hturn⟩ := Run.bind_eq_ok.mp hs₁
    cases hs₀
    exact ⟨_, hturn⟩
  obtain ⟨s₁, hturn⟩ := hturn
  unfold repairTurn at hturn
  obtain ⟨tables, htables, hturn⟩ := Run.bind_eq_ok.mp hturn
  obtain ⟨blocks, hblocks, hturn⟩ := Run.bind_eq_ok.mp hturn
  obtain ⟨outs, houts, -⟩ := Run.bind_eq_ok.mp hturn
  -- `replace` has returned for every block, so every block has an edge
  have hcond : ∀ b, b < threadNum → vertex.getD (b * (vertex.length / threadNum)) 0 <
      blockEnd (vertex.length / threadNum) vertex edge b := by
    intro b hb
    obtain ⟨hoff, hflat⟩ := hvalid.eq_offsets hlast
    have hpos := hvalid.length_pos
    have hrows : (Csr.rows vertex edge).length + 1 = vertex.length := by
      rw [Csr.length_rows]
      omega
    have hts : 39 * (vertex.length / threadNum) ≤ (Csr.rows vertex edge).length := by
      rw [hth]
      omega
    have hsmall : ((Csr.rows vertex edge).flatten.length : Int) < intBound := by
      rwa [← hflat]
    have hsplit := splitBlocks_eq (Nat.le_of_eq hrows.symm) hsmall
      fun x hx => by
        rw [← hflat] at hx
        have := hent x hx
        omega
    rw [← hoff, ← hflat] at hsplit
    dsimp only [initialState] at hblocks
    rw [hsplit] at hblocks
    cases hblocks
    rw [Run.mapM_eq_ok, List.forall₂_map_left_iff, ← Run.mapM_eq_ok] at houts
    obtain ⟨hnum, hget⟩ := Run.mapM_range houts
    have hout := hget b _ (List.getElem?_eq_getElem (by omega))
    have hcond := (replace_chunk_iff _ hts hsmall hb).mp ⟨_, hout⟩
    rwa [← hoff, ← hflat] at hcond
  refine ⟨hvalid, hlast, hent, ?_, hcond⟩
  unfold turnTables at htables
  obtain ⟨bs, hbs, -⟩ := Run.bind_eq_ok.mp htables
  intro hrow
  -- an empty first row makes the first bound wrap, and the collection would have failed
  have hlen : 1 < vertex.length := by
    by_contra hle
    have hsize : vertex.length / threadNum = 0 := by
      rw [hth]
      omega
    have hfirst := hcond 0 (by decide)
    rw [hsize, blockEnd, if_pos (by decide)] at hfirst
    exact Int.lt_irrefl _ hfirst
  dsimp only [initialState] at hbs
  rw [collectPairs_bounds hvalid (by omega) hlen hrow] at hbs
  cases hbs

/-- When the size check fails and nothing changes, no pair occurs twice. -/
theorem count_le_one_of_unchanged (h : Input vertex edge) {maxSymbol : Int} (h0 : 0 ≤ maxSymbol)
    (hmax : maxSymbol + 1 < vertex.length) (horder : Permutes order)
    (hrange : InRange order vertex edge maxSymbol) {s : State}
    (hs : repair order vertex edge maxSymbol = .ok s) (hsame : s.inputVertex = vertex)
    (p : Int × Int) : (rowPairs (Csr.rows vertex edge)).count p ≤ 1 := by
  have hth : threshold = 4 := rfl
  have hlen := h.length_rows
  obtain ⟨s', hs', hholds, -, -⟩ := hrange.reached h h0 hmax horder (Nat.le_refl compressRate)
  obtain ⟨-, -, -, hready, hfits⟩ := hrange.reached h h0 hmax horder (by decide : 1 ≤ compressRate)
  unfold repair at hs
  rw [hs] at hs'
  cases hs'
  -- the rows have not become more, so there was no new pair in the first two turns
  have hlast : (Csr.offsets ((startText vertex edge maxSymbol).turns order
      compressRate).rows).length = vertex.length := by
    rw [← hholds.vertex, hsame]
  rw [Csr.length_offsets, ← hlen] at hlast
  have h₁ : ((startText vertex edge maxSymbol).turns order 1).rows.length =
      (Csr.rows vertex edge).length + ((startText vertex edge maxSymbol).news order 1).length :=
    Text.turns_length order _ 0
  have h₂ : ((startText vertex edge maxSymbol).turns order 2).rows.length =
      ((startText vertex edge maxSymbol).turns order 1).rows.length +
        (((startText vertex edge maxSymbol).turns order 1).news order 2).length :=
    Text.turns_length order _ 1
  have h₃ := Text.turns_length_mono order (startText vertex edge maxSymbol)
    (by decide : 2 ≤ compressRate)
  have hnews : ∀ m, m < 1 →
      ((startText vertex edge maxSymbol).turns order m).news order (m + 1) = [] := by
    intro m hm
    obtain rfl : m = 0 := by omega
    have hzero : ((startText vertex edge maxSymbol).news order 1).length = 0 := by omega
    exact List.length_eq_zero_iff.mp hzero
  have hnil : ((startText vertex edge maxSymbol).turns order 1).news order 2 = [] :=
    List.length_eq_zero_iff.mp (by omega)
  have hmem : _ → p ∈ ((startText vertex edge maxSymbol).turns order 1).news order 2 :=
    (hready.mem_news hfits horder).mpr
  rw [hnil] at hmem
  -- the buckets are not cleared: in the second turn every pair counts twice
  have hpushed : _ = (1 + 1) * (rowPairs (Csr.rows vertex edge)).count p := count_pushed rfl hnews p
  by_contra hgt
  exact List.not_mem_nil (hmem (by omega))

/-- Rule ids collide with no vertex exactly when the constructor can run and the largest symbol is the
last vertex, or there is nothing to replace. -/
theorem rulesSound_iff (hvalid : Csr.Valid vertex edge)
    (hlast : vertex.getLast? = some (edge.length : Int))
    (hent : ∀ x ∈ edge, 0 ≤ x ∧ x < (vertex.length : Int) - 1) (horder : Permutes order)
    (hrange : InRange order vertex edge (maxSymbol edge)) :
    (∃ s, repair order vertex edge (maxSymbol edge) = .ok s ∧
      RulesSound order vertex edge (maxSymbol edge) s ∧
      ((vertex.length : Int) ≠ maxSymbol edge + 2 → s.inputVertex = vertex ∧ s.inputEdge = edge)) ↔
    Input vertex edge ∧ (maxSymbol edge + 2 = vertex.length ∨
      ∀ p, (rowPairs (Csr.rows vertex edge)).count p ≤ 1) := by
  constructor
  · rintro ⟨s, hs, -, hreject⟩
    have h := input_of_repair hvalid hlast hent (hrange 0 (Nat.zero_le _) _ rfl) hs
    refine ⟨h, ?_⟩
    by_cases hmax : maxSymbol edge + 2 = vertex.length
    · exact Or.inl hmax
    · exact Or.inr (count_le_one_of_unchanged h maxSymbol_nonneg h.maxSymbol_lt horder hrange hs
        (hreject (Ne.symm hmax)).1)
  · rintro ⟨h, hcond⟩
    obtain ⟨s, hs, hholds, -, -⟩ := hrange.reached h maxSymbol_nonneg h.maxSymbol_lt horder
      (Nat.le_refl compressRate)
    refine ⟨s, hs, ?_⟩
    rcases hcond with hmax | hcount
    · exact ⟨rulesSound_of_last h hmax horder hrange hs, fun hne => absurd hmax.symm hne⟩
    · -- three times one occurrence is below the threshold: no turn finds a pair
      have hnews := news_nil_of_count h maxSymbol_nonneg h.maxSymbol_lt horder hrange hcount
      have hnone : ∀ n, n < compressRate →
          handedOut order vertex edge (maxSymbol edge) n = [] := fun n hn =>
        handedOut_nil h maxSymbol_nonneg h.maxSymbol_lt horder hrange hn (hnews n hn)
      refine ⟨⟨?_, ?_, ?_, ?_⟩, fun _ => ?_⟩
      · intro n hn kv hkv
        rw [hnone n hn] at hkv
        cases hkv
      · have hall : (List.range compressRate).flatMap
            (handedOut order vertex edge (maxSymbol edge)) = [] :=
          List.flatMap_eq_nil_iff.mpr fun n hn => hnone n (List.mem_range.mp hn)
        rw [hall]
        exact List.nodup_nil
      · intro n hn kv hkv
        rw [hnone n hn] at hkv
        cases hkv
      · intro n hn kv hkv
        rw [hnone n hn] at hkv
        cases hkv
      · have hrows := (turns_of_news_nil rfl compressRate fun m hm => hnews m hm).1
        rw [hholds.vertex, hholds.edge, hrows]
        exact ⟨h.eq_offsets.1.symm, h.eq_offsets.2.symm⟩

/-- Forty rows, in which the last vertex stands. -/
theorem rulesSound_forty :
    ∃ s, repair (fun _ _ table => table) (Csr.offsets (List.replicate 40 [0, 39]))
        (List.replicate 40 [0, 39]).flatten (maxSymbol (List.replicate 40 [0, 39]).flatten) = .ok s ∧
      RulesSound (fun _ _ table => table) (Csr.offsets (List.replicate 40 [0, 39]))
        (List.replicate 40 [0, 39]).flatten (maxSymbol (List.replicate 40 [0, 39]).flatten) s ∧
      (((Csr.offsets (List.replicate 40 [(0 : Int), 39])).length : Int) ≠
          maxSymbol (List.replicate 40 [0, 39]).flatten + 2 →
        s.inputVertex = Csr.offsets (List.replicate 40 [0, 39]) ∧
          s.inputEdge = (List.replicate 40 [0, 39]).flatten) := by
  have hinput : Input (Csr.offsets (List.replicate 40 [0, 39])) (List.replicate 40 [0, 39]).flatten :=
    Input.of_rows (List.replicate 40 [0, 39]) (by decide) (by decide) (by decide)
  have horder : Permutes fun _ _ table => table := fun _ _ _ => List.Perm.refl _
  exact (rulesSound_iff hinput.valid hinput.last hinput.entries horder
    (inRange_of_small hinput maxSymbol_nonneg hinput.maxSymbol_lt horder (by decide))).mpr
    ⟨hinput, Or.inl (by decide +kernel)⟩

/-- Forty rows in which only the vertices 0 and 1 stand.  The size check fails, the rule of their pair
gets the id of vertex 2, and the graph is changed. -/
theorem rule_takes_vertex :
    Input (Csr.offsets (List.replicate 40 [0, 1])) (List.replicate 40 [0, 1]).flatten ∧
      ((Csr.offsets (List.replicate 40 [(0 : Int), 1])).length : Int) ≠
        maxSymbol (List.replicate 40 [0, 1]).flatten + 2 ∧
      handedOut (fun _ _ table => table) (Csr.offsets (List.replicate 40 [0, 1]))
        (List.replicate 40 [0, 1]).flatten (maxSymbol (List.replicate 40 [0, 1]).flatten) 0 =
        [(pairHash 0 1, 2)] ∧
      ∃ s, repair (fun _ _ table => table) (Csr.offsets (List.replicate 40 [0, 1]))
          (List.replicate 40 [0, 1]).flatten (maxSymbol (List.replicate 40 [0, 1]).flatten) = .ok s ∧
        s.inputVertex.length ≠ 41 := by
  have hinput : Input (Csr.offsets (List.replicate 40 [0, 1])) (List.replicate 40 [0, 1]).flatten :=
    Input.of_rows (List.replicate 40 [0, 1]) (by decide) (by decide) (by decide)
  have horder : Permutes fun _ _ table => table := fun _ _ _ => List.Perm.refl _
  obtain ⟨s, hs, hholds, -, -⟩ := (inRange_of_small hinput maxSymbol_nonneg hinput.maxSymbol_lt horder
    (by decide)).reached hinput maxSymbol_nonneg hinput.maxSymbol_lt horder
    (Nat.le_refl compressRate)
  refine ⟨hinput, by decide +kernel, by decide +kernel, s, hs, ?_⟩
  rw [hholds.vertex, Csr.length_offsets]
  decide +kernel

end MaxSymbol

end Laconic.Parallel

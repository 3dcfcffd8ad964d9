import Laconic.Parallel.RoundTrip

/-!
# The parallel compressor: counts and ids over the turns

`pair_buckets` is never cleared, so a turn counts the pairs of all turns so far: a pair of the first
turn may become a rule later although it is no longer frequent.  The first new id comes from the
largest symbol, not from the number of rows, and the check that compares them only prints.
-/

namespace Laconic.Parallel

open PairScan Slp
open RePair (intBound)

/-! ## Pairs over the turns -/

section Pairs

variable {order : Order} {n lenVertex : Nat} {t : Text}

theorem turnRows_nil (base : Int) (rows : List (List Int)) :
    turnRows (pairId base []) [] rows = rows := by
  rw [turnRows, List.map_nil, List.append_nil]
  refine (List.map_congr_left fun r _ => ?_).trans (List.map_id _)
  exact scan_eq_self fun p _ => pairId_eq_none List.not_mem_nil

/-- A turn without new pairs changes no row. -/
theorem Text.turn_of_news_nil (h : t.news order n = []) : (t.turn order n).rows = t.rows := by
  rw [Text.turn, h]
  exact turnRows_nil _ _

/-- After turns without new pairs the rows are as before, and every pair was counted once for each
turn. -/
theorem turns_of_news_nil (ht : t.hist = []) :
    ∀ n, (∀ m, m < n → (t.turns order m).news order (m + 1) = []) →
      (t.turns order n).rows = t.rows ∧
      ∀ p, (t.turns order n).hist.count p = n * (rowPairs t.rows).count p := by
  intro n
  induction n with
  | zero =>
    intro _
    refine ⟨rfl, fun p => ?_⟩
    rw [Text.turns, ht, Nat.zero_mul, List.count_nil]
  | succ n ih =>
    intro hnews
    obtain ⟨hrows, hhist⟩ := ih fun m hm => hnews m (by omega)
    refine ⟨?_, fun p => ?_⟩
    · rw [Text.turns, Text.turn_of_news_nil (hnews n (Nat.lt_succ_self n)), hrows]
    · change (t.turns order n).pushed.count p = _
      rw [Text.pushed, List.count_append, hhist, hrows, Nat.add_mul, Nat.one_mul]

/-- What such a turn counts. -/
theorem count_pushed (ht : t.hist = [])
    (h : ∀ m, m < n → (t.turns order m).news order (m + 1) = []) (p : Int × Int) :
    (t.turns order n).pushed.count p = (n + 1) * (rowPairs t.rows).count p := by
  obtain ⟨hrows, hhist⟩ := turns_of_news_nil ht n h
  rw [Text.pushed, List.count_append, hhist, hrows, Nat.add_mul, Nat.one_mul]

/-- The rows of the new ids have one pair each. -/
theorem rowPairs_news (news : List (Int × Int)) :
    rowPairs (news.map fun p => [p.1, p.2]) = news := by
  induction news with
  | nil => rfl
  | cons p news ih =>
    rw [List.map_cons, rowPairs, List.flatMap_cons]
    exact congrArg (p :: ·) ih

/-- After its turn a new pair stands in its own row only. -/
theorem count_rowPairs_turn (hready : t.Ready lenVertex) (hfits : t.Fits) (horder : Permutes order)
    (hbase : t.base = t.rows.length) {p : Int × Int} (hp : p ∈ t.news order n) :
    (rowPairs (t.turn order n).rows).count p ≤ 1 := by
  have hwithin := hready.within_news hfits horder p hp
  have hold : ∀ a : Int, a < t.rows.length → ∀ x y,
      pairId t.base (t.news order n) x y ≠ some a := by
    intro a ha x y hid
    obtain ⟨i, -, rfl⟩ := getElem?_of_pairId hid
    omega
  have hscanned : (rowPairs (t.rows.map (scan (pairId t.base (t.news order n))))).count p = 0 := by
    rw [List.count_eq_zero]
    intro hmem
    obtain ⟨r, hr, hmem⟩ := List.mem_flatMap.mp hmem
    obtain ⟨q, -, rfl⟩ := List.mem_map.mp hr
    have hnone := adjacent_scan (fun x y _ => hold p.1 hwithin.1.2 x y)
      (fun x y _ => hold p.2 hwithin.2.2 x y) hmem
    rw [pairId, if_pos hp] at hnone
    cases hnone
  have hnew : (t.news order n).count p ≤ 1 :=
    List.nodup_iff_count_le_one.mp (hready.nodup_news hfits horder) p
  rw [Text.turn, turnRows, rowPairs, List.flatMap_append, List.count_append]
  change (rowPairs _).count p + (rowPairs _).count p ≤ 1
  rw [hscanned, rowPairs_news]
  omega

/-- When the turn after the first one is exact no pair occurs twice: a pair that was replaced is left in
its own row only but keeps its first count, and otherwise every pair is counted a second time. -/
theorem count_le_one_of_exact (ht : t.hist = []) (hready : t.Ready lenVertex) (hfits : t.Fits)
    (horder : Permutes order) (hbase : t.base = t.rows.length)
    (hexact : ∀ q, threshold ≤ (t.turn order n).pushed.count q →
      threshold ≤ (rowPairs (t.turn order n).rows).count q) (p : Int × Int) :
    (rowPairs t.rows).count p ≤ 1 := by
  have hth : threshold = 4 := rfl
  have hpushed : t.pushed = rowPairs t.rows := by rw [Text.pushed, ht, List.nil_append]
  have hnext : ∀ q, (t.turn order n).pushed.count q =
      (rowPairs t.rows).count q + (rowPairs (t.turn order n).rows).count q := by
    intro q
    rw [← hpushed]
    exact List.count_append
  have hmem : ∀ q, q ∈ t.news order n ↔ threshold ≤ (rowPairs t.rows).count q := by
    intro q
    rw [← hpushed]
    exact hready.mem_news hfits horder
  by_cases hnil : t.news order n = []
  · have hrare := hmem p
    have htwice := hexact p
    rw [hnext, Text.turn_of_news_nil hnil] at htwice
    rw [hnil] at hrare
    have : ¬ threshold ≤ (rowPairs t.rows).count p := fun hle => List.not_mem_nil (hrare.mpr hle)
    omega
  · obtain ⟨q, hq⟩ := List.exists_mem_of_ne_nil _ hnil
    have hone := count_rowPairs_turn hready hfits horder hbase hq
    have hold := (hmem q).mp hq
    have := hexact q (by rw [hnext]; omega)
    omega

end Pairs

/-! ## Exact counts -/

/-- In the next turn the pairs with an entry in the tables are those that occur often enough as
adjacent entries of a row. -/
def Exact (order : Order) (turn : Nat) (s : State) : Prop :=
  ∃ bs tables, turnTables order turn s = .ok (bs, tables) ∧ ∀ a b, IsWord a → IsWord b →
    ((∃ table ∈ tables, pairHash a b ∈ table.1.map Prod.fst) ↔
      threshold ≤ (rowPairs (Csr.rows s.inputVertex s.inputEdge)).count (a, b))

theorem prepareAll_map_fst (startId : Nat) (tables : List HashMap) :
    (prepareAll startId tables).map Prod.fst = tables := by
  induction tables generalizing startId with
  | nil => rfl
  | cons table tables ih => rw [prepareAll, List.map_cons, ih]

/-- A pair has an entry when it was pushed often enough. -/
theorem Counted.exists_table {hist : List (Int × Int)} {tables : List HashMap}
    (h : Counted hist tables) (hword : WordPairs hist) (startId : Nat) {x y : Int} (hx : IsWord x)
    (hy : IsWord y) :
    (∃ table ∈ prepareAll startId tables, pairHash x y ∈ table.1.map Prod.fst) ↔
      threshold ≤ hist.count (x, y) := by
  constructor
  · rintro ⟨table, htable, hkey⟩
    have hmem : table.1 ∈ tables := by
      rw [← prepareAll_map_fst startId tables]
      exact List.mem_map_of_mem htable
    obtain ⟨kv, hkv, hk⟩ := List.mem_map.mp hkey
    rw [← h.mem_newPairs hword, newPairs]
    refine List.mem_map.mpr ⟨kv, List.mem_flatten.mpr ⟨_, hmem, hkv⟩, ?_⟩
    rw [hk, pairOfKey_pairHash hx hy]
  · intro hcount
    have hlt : threadId x < tables.length := by
      rw [h.length]
      exact threadId_lt x
    have hkey := (h.mem_table hword hx hy (List.getElem?_eq_getElem hlt)).mpr hcount
    have hmem : tables[threadId x] ∈ (prepareAll startId tables).map Prod.fst := by
      rw [prepareAll_map_fst]
      exact List.getElem_mem hlt
    obtain ⟨table, htable, heq⟩ := List.mem_map.mp hmem
    exact ⟨table, htable, heq ▸ hkey⟩

section Exactness

variable {order : Order} {lenVertex n : Nat} {s : State} {t : Text}

/-- What exactness says of the rows. -/
theorem Holds.exact_iff (h : Holds s t) (hready : t.Ready lenVertex) (hfits : t.Fits)
    (horder : Permutes order) :
    Exact order n s ↔ ∀ a b, IsWord a → IsWord b →
      (threshold ≤ t.pushed.count (a, b) ↔ threshold ≤ (rowPairs t.rows).count (a, b)) := by
  have htables : turnTables order n s = .ok _ := h.turnTables_eq hready hfits
  have hentry := fun a b (ha : IsWord a) (hb : IsWord b) =>
    (counted_turn horder n t.pushed).exists_table (hready.wordPairs hfits) t.base ha hb
  unfold Exact
  rw [h.vertex, h.edge, Csr.rows_offsets]
  constructor
  · rintro ⟨bs, tables, hrun, hexact⟩ a b ha hb
    rw [htables] at hrun
    cases hrun
    rw [← hentry a b ha hb]
    exact hexact a b ha hb
  · intro hcounts
    refine ⟨_, _, htables, fun a b ha hb => ?_⟩
    rw [hentry a b ha hb]
    exact hcounts a b ha hb

end Exactness

section Turns

variable {order : Order} {vertex edge : List Int} {maxSymbol : Int}

/-- When no pair occurs twice no turn has new pairs. -/
theorem news_nil_of_count (h : Input vertex edge) (h0 : 0 ≤ maxSymbol)
    (hmax : maxSymbol + 1 < vertex.length) (horder : Permutes order)
    (hrange : InRange order vertex edge maxSymbol)
    (hcount : ∀ p, (rowPairs (Csr.rows vertex edge)).count p ≤ 1) :
    ∀ n, n < compressRate →
      ((startText vertex edge maxSymbol).turns order n).news order (n + 1) = [] := by
  have hth : threshold = 4 := rfl
  have hrate : compressRate = 3 := rfl
  intro n
  induction n using Nat.strong_induction_on with
  | _ n ih =>
    intro hn
    obtain ⟨-, -, -, hready, hfits⟩ := hrange.reached h h0 hmax horder (by omega : n ≤ compressRate)
    refine List.eq_nil_iff_forall_not_mem.mpr fun p hp => ?_
    have hpushed := count_pushed rfl (fun m hm => ih m hm (by omega)) p
    have hfreq := (hready.mem_news hfits horder).mp hp
    have hle := Nat.mul_le_mul_left (n + 1) (hcount p)
    change _ = (n + 1) * (rowPairs (Csr.rows vertex edge)).count p at hpushed
    omega

/-- The tables are exact in all turns only when there is nothing to replace: no pair occurs twice. -/
theorem exact_turns_iff (h : Input vertex edge) (hmax : maxSymbol + 2 = vertex.length)
    (horder : Permutes order) (hrange : InRange order vertex edge maxSymbol) :
    (∀ n, n < compressRate → ∃ s,
      repairTurns order vertex.length n (initialState vertex edge maxSymbol) = .ok s ∧
        Exact order (n + 1) s) ↔
      ∀ p, (rowPairs (Csr.rows vertex edge)).count p ≤ 1 := by
  have hth : threshold = 4 := rfl
  have hrate : compressRate = 3 := rfl
  have h0 := h.maxSymbol_nonneg hmax
  have hlt : maxSymbol + 1 < vertex.length := by omega
  constructor
  · intro hexact p
    obtain ⟨-, -, -, hready₀, hfits₀⟩ := hrange.reached h h0 hlt horder (Nat.zero_le compressRate)
    obtain ⟨s₁, hs₁, hholds₁, hready₁, hfits₁⟩ := hrange.reached h h0 hlt horder
      (by omega : 1 ≤ compressRate)
    -- the second turn is exact
    obtain ⟨s, hs, hex⟩ := hexact 1 (by omega)
    rw [hs₁] at hs
    cases hs
    have hcounts := (hholds₁.exact_iff hready₁ hfits₁ horder).mp hex
    refine count_le_one_of_exact (n := 1) rfl hready₀ hfits₀ horder
      (encodes_turns h hmax horder hrange 0 (Nat.zero_le _)).2 (fun q hq => ?_) p
    have hmem : q ∈ ((startText vertex edge maxSymbol).turns order 1).pushed :=
      List.count_pos_iff.mp (Nat.lt_of_lt_of_le (by decide) hq)
    have hword := hready₁.wordPairs hfits₁ q hmem
    exact (hcounts q.1 q.2 hword.1 hword.2).mp hq
  · intro hcount n hn
    obtain ⟨s, hs, hholds, hready, hfits⟩ := hrange.reached h h0 hlt horder
      (by omega : n ≤ compressRate)
    refine ⟨s, hs, (hholds.exact_iff hready hfits horder).mpr fun a b _ _ => ?_⟩
    have hnews : ∀ m, m < n →
        ((startText vertex edge maxSymbol).turns order m).news order (m + 1) = [] :=
      fun m hm => news_nil_of_count h h0 hlt horder hrange hcount m (by omega)
    have hpushed := count_pushed rfl hnews (a, b)
    have hone := hcount (a, b)
    have hle := Nat.mul_le_mul_left (n + 1) hone
    rw [(turns_of_news_nil rfl n hnews).1]
    change _ = (n + 1) * (rowPairs (Csr.rows vertex edge)).count (a, b) at hpushed
    change _ ↔ threshold ≤ (rowPairs (Csr.rows vertex edge)).count (a, b)
    omega

/-- Forty rows with two entries each, all pairs different. -/
theorem exact_turns_forty :
    Input (Csr.offsets ((List.range 40).map fun i => [(i : Int), 39]))
        ((List.range 40).map fun i => [(i : Int), 39]).flatten ∧
      ∀ n, n < compressRate → ∃ s, repairTurns (fun _ _ table => table)
        (Csr.offsets ((List.range 40).map fun i => [(i : Int), 39])).length n
        (initialState (Csr.offsets ((List.range 40).map fun i => [(i : Int), 39]))
          ((List.range 40).map fun i => [(i : Int), 39]).flatten 39) = .ok s ∧
        Exact (fun _ _ table => table) (n + 1) s := by
  have hinput : Input (Csr.offsets ((List.range 40).map fun i => [(i : Int), 39]))
      ((List.range 40).map fun i => [(i : Int), 39]).flatten :=
    Input.of_rows ((List.range 40).map fun i => [(i : Int), 39]) (by decide) (by decide) (by decide)
  have horder : Permutes fun _ _ table => table := fun _ _ _ => List.Perm.refl _
  refine ⟨hinput, (exact_turns_iff hinput (by decide) horder
    (inRange_of_small hinput (by decide) (by decide) horder (by decide))).mpr ?_⟩
  rw [Csr.rows_offsets]
  exact List.nodup_iff_count_le_one.mp (by decide)

/-- Forty rows with the same two entries.  The pair gets a rule in the first turn; in the second turn
it has an entry again, although it occurs in the row of its rule only. -/
theorem exact_fails_forty :
    Input (Csr.offsets (List.replicate 40 [0, 39])) (List.replicate 40 [0, 39]).flatten ∧
      ∃ s, repairTurns (fun _ _ table => table) 41 1 (initialState
          (Csr.offsets (List.replicate 40 [0, 39])) (List.replicate 40 [0, 39]).flatten 39) = .ok s ∧
        ¬ Exact (fun _ _ table => table) 2 s := by
  have hinput : Input (Csr.offsets (List.replicate 40 [0, 39])) (List.replicate 40 [0, 39]).flatten :=
    Input.of_rows (List.replicate 40 [0, 39]) (by decide) (by decide) (by decide)
  have horder : Permutes fun _ _ table => table := fun _ _ _ => List.Perm.refl _
  have hrange := inRange_of_small hinput (by decide : (0 : Int) ≤ 39) (by decide) horder (by decide)
  obtain ⟨s, hs, hholds, hready, hfits⟩ := hrange.reached hinput (by decide) (by decide) horder
    (by decide : 1 ≤ compressRate)
  refine ⟨hinput, s, hs, fun hexact => ?_⟩
  have hcounts := (hholds.exact_iff hready hfits horder).mp hexact 0 39 (by decide) (by decide)
  revert hcounts
  decide +kernel

end Turns

end Laconic.Parallel

import Mathlib.Data.List.Nodup
import Mathlib.Data.List.Perm.Subperm
import Laconic.Lib.PairScan

/-!
# Replacing pairs in numbered rows

Rows of symbols are numbered from 0, and a symbol from `V` on stands for the row of that number.  A
turn chooses pairs, gives the next numbers to them, replaces them in all rows and appends one row for
each of them.  A turn that starts at the number of rows keeps what every row stands for, also when it
rewrites the rows of earlier turns.
-/

namespace PairScan

open Slp

/-- The numbers of the chosen pairs, from `base` on. -/
def pairId (base : Int) (news : List (Int × Int)) (x y : Int) : Option Int :=
  if (x, y) ∈ news then some (base + news.idxOf (x, y)) else none

/-- The rows after a turn. -/
def turnRows (f : Int → Int → Option Int) (news : List (Int × Int)) (rows : List (List Int)) :
    List (List Int) :=
  rows.map (scan f) ++ news.map fun p => [p.1, p.2]

/-- What a symbol stands for. -/
def rowRhs (V : Nat) (rows : List (List Int)) (x : Int) : Option (List Int) :=
  if x < V then none else some (rows.getD x.toNat [])

/-- Ranks after a turn that numbers pairs from `n` on: the old ones are doubled, and a new number
comes right above its pair. -/
def turnRank (n : Nat) (news : List (Int × Int)) (rank : Int → Nat) (x : Int) : Nat :=
  if x < n then 2 * rank x
  else match news[(x - n).toNat]? with
    | some p => 2 * max (rank p.1) (rank p.2) + 1
    | none => 0

theorem turnRank_new (rank : Int → Nat) (n : Nat) {news : List (Int × Int)} {i : Nat}
    {p : Int × Int} (h : news[i]? = some p) :
    turnRank n news rank ((n : Int) + i) = 2 * max (rank p.1) (rank p.2) + 1 := by
  rw [turnRank, if_neg (by omega), show ((n : Int) + i - n).toNat = i by omega, h]

section PairId

variable {base x y z : Int} {news : List (Int × Int)}

theorem pairId_of_getElem? (hnodup : news.Nodup) {i : Nat} (h : news[i]? = some (x, y)) :
    pairId base news x y = some (base + i) := by
  obtain ⟨hi, heq⟩ := List.getElem?_eq_some_iff.mp h
  have hidx : news.idxOf (x, y) = i := by
    rw [← heq]
    exact hnodup.idxOf_getElem i hi
  rw [pairId, if_pos (List.mem_of_getElem? h), hidx]

theorem getElem?_of_pairId (h : pairId base news x y = some z) :
    ∃ i : Nat, news[i]? = some (x, y) ∧ z = base + i := by
  unfold pairId at h
  split at h
  · rename_i hmem
    cases h
    exact ⟨_, List.getElem?_idxOf hmem, rfl⟩
  · cases h

theorem isSome_pairId (h : (x, y) ∈ news) : (pairId base news x y).isSome := by
  rw [pairId, if_pos h, Option.isSome_some]

theorem pairId_eq_none (h : (x, y) ∉ news) : pairId base news x y = none := if_neg h

end PairId

theorem scan_congr {α : Type} {f g : α → α → Option α} {l : List α}
    (h : ∀ p ∈ adjacent l, f p.1 p.2 = g p.1 p.2) : scan f l = scan g l := by
  fun_induction scan f l with
  | case1 x y xs z hf ih =>
    rw [scan_some (by rw [← h (x, y) List.mem_cons_self]; exact hf),
      ih fun p hp => h p (adjacent_subset (adjacent_subset hp))]
  | case2 x y xs hf ih =>
    rw [scan_none (by rw [← h (x, y) List.mem_cons_self]; exact hf),
      ih fun p hp => h p (adjacent_subset hp)]
  | case3 x => rfl
  | case4 => rfl

theorem length_turnRows {f : Int → Int → Option Int} {news : List (Int × Int)}
    {rows : List (List Int)} : (turnRows f news rows).length = rows.length + news.length := by
  rw [turnRows, List.length_append, List.length_map, List.length_map]

theorem turnRows_getElem?_old {f : Int → Int → Option Int} {news : List (Int × Int)}
    {rows : List (List Int)} {v : Nat} (hv : v < rows.length) :
    (turnRows f news rows)[v]? = some (scan f rows[v]) := by
  rw [turnRows, List.getElem?_append_left (by rw [List.length_map]; exact hv), List.getElem?_map,
    List.getElem?_eq_getElem hv]
  rfl

theorem turnRows_getElem?_new {f : Int → Int → Option Int} {news : List (Int × Int)}
    {rows : List (List Int)} {i : Nat} {p : Int × Int} (hi : news[i]? = some p) :
    (turnRows f news rows)[rows.length + i]? = some [p.1, p.2] := by
  rw [turnRows, List.getElem?_append_right (by rw [List.length_map]; omega), List.length_map,
    Nat.add_sub_cancel_left, List.getElem?_map, hi]
  rfl

theorem length_flatten_turnRows (f : Int → Int → Option Int) (news : List (Int × Int))
    (rows : List (List Int)) :
    (turnRows f news rows).flatten.length = (rows.map (scan f)).flatten.length + 2 * news.length := by
  have hnews : (news.map fun p => [p.1, p.2]).flatten.length = 2 * news.length := by
    induction news with
    | nil => rfl
    | cons p news ih =>
      rw [List.map_cons, List.flatten_cons, List.length_append, ih, List.length_cons]
      simp only [List.length_cons, List.length_nil]
      omega
  rw [turnRows, List.flatten_append, List.length_append, hnews]

theorem length_flatten_turnRows_le (f : Int → Int → Option Int) (news : List (Int × Int))
    (rows : List (List Int)) :
    (turnRows f news rows).flatten.length ≤ rows.flatten.length + 2 * news.length := by
  have hscan := length_flatten_scan f rows
  rw [length_flatten_turnRows]
  omega

/-- Elements that occur `k` times each make up `k` times their number. -/
theorem mul_length_le_of_count {α : Type} [BEq α] [LawfulBEq α] {news l : List α} {k : Nat}
    (hnodup : news.Nodup) (h : ∀ p ∈ news, k ≤ l.count p) : k * news.length ≤ l.length := by
  have hlen : (List.replicate k news).flatten.length = k * news.length := by
    rw [List.length_flatten, List.map_replicate, List.sum_replicate_nat]
  -- `k` copies of the elements fit into the list
  have hsub : (List.replicate k news).flatten.Subperm l := by
    refine List.subperm_ext_iff.mpr fun p hp => ?_
    obtain ⟨m, hm, hp⟩ := List.mem_flatten.mp hp
    rw [List.eq_of_mem_replicate hm] at hp
    rw [List.count_flatten, List.map_replicate, List.sum_replicate_nat,
      List.count_eq_one_of_mem hnodup hp, Nat.mul_one]
    exact h p hp
  rw [← hlen]
  exact hsub.length_le

/-- A turn whose pairs occur four times each does not make the rows longer: half of the places are
replaced, and two for each pair pay for its row. -/
theorem length_flatten_turnRows_le_of_count {f : Int → Int → Option Int} {news : List (Int × Int)}
    {rows : List (List Int)} (hnodup : news.Nodup) (hf : ∀ p ∈ news, (f p.1 p.2).isSome)
    (hcount : ∀ p ∈ news, 4 ≤ (rows.flatMap adjacent).count p) :
    (turnRows f news rows).flatten.length ≤ rows.flatten.length := by
  -- the places of the chosen pairs, of which the pass uses at least half
  have hplaces : 4 * news.length ≤
      ((rows.flatMap adjacent).filter fun p => (f p.1 p.2).isSome).length := by
    refine mul_length_le_of_count hnodup fun p hp => ?_
    have hkept : ((rows.flatMap adjacent).filter fun p => (f p.1 p.2).isSome).count p =
        (rows.flatMap adjacent).count p := List.count_filter (hf p hp)
    rw [hkept]
    exact hcount p hp
  have hsaved := countP_flatMap_adjacent_add_scan f rows
  rw [← List.countP_eq_length_filter] at hplaces
  rw [length_flatten_turnRows]
  omega

/-- Pairs of symbols that have rows. -/
def Within (rows : List (List Int)) (news : List (Int × Int)) : Prop :=
  ∀ p ∈ news, (0 ≤ p.1 ∧ p.1 < rows.length) ∧ 0 ≤ p.2 ∧ p.2 < rows.length

/-- After a turn every symbol has a row. -/
theorem entries_turnRows {base : Int} {news : List (Int × Int)} {rows : List (List Int)}
    (hent : ∀ r ∈ rows, ∀ x ∈ r, 0 ≤ x ∧ x < rows.length) (h0 : 0 ≤ base) (hbase : base ≤ rows.length)
    (hnews : Within rows news) :
    ∀ r ∈ turnRows (pairId base news) news rows, ∀ x ∈ r,
      0 ≤ x ∧ x < (turnRows (pairId base news) news rows).length := by
  intro r hr x hx
  rw [length_turnRows, Nat.cast_add]
  rcases List.mem_append.mp hr with hr | hr
  · obtain ⟨q, hq, rfl⟩ := List.mem_map.mp hr
    -- an old symbol, or the number of a new row
    rcases mem_scan hx with hx | ⟨a, b, -, hid⟩
    · have := hent q hq x hx
      omega
    · obtain ⟨i, hi, rfl⟩ := getElem?_of_pairId hid
      have := (List.getElem?_eq_some_iff.mp hi).1
      omega
  · obtain ⟨p, hp, rfl⟩ := List.mem_map.mp hr
    have hbound := hnews p hp
    simp only [List.mem_cons, List.not_mem_nil, or_false] at hx
    rcases hx with rfl | rfl <;> omega

/-- Rows that stand for given rows of symbols below `V`: every symbol has a row, no row leads back to
itself, and the first `V` rows expand to the given ones. -/
structure Encodes (V : Nat) (given rows : List (List Int)) : Prop where
  le : V ≤ rows.length
  entries : ∀ r ∈ rows, ∀ x ∈ r, 0 ≤ x ∧ x < rows.length
  rank : ∃ rank : Int → Nat, ∀ v r, V ≤ v → rows[v]? = some r → ∀ z ∈ r, rank z < rank v
  expands : ∀ v r g, v < V → rows[v]? = some r → given[v]? = some g → Expands (rowRhs V rows) r g

namespace Encodes

variable {V : Nat} {given rows : List (List Int)} {news : List (Int × Int)}

theorem rowRhs_eq_some {x : Int} {r : List Int} (hx : (V : Int) ≤ x) (hr : rows[x.toNat]? = some r) :
    rowRhs V rows x = some r := by
  rw [rowRhs, if_neg (by omega), List.getD_eq_getElem?_getD, hr]
  rfl

/-- Rows without numbers from `V` on stand for themselves. -/
theorem refl (hent : ∀ r ∈ rows, ∀ x ∈ r, 0 ≤ x ∧ x < rows.length) :
    Encodes rows.length rows rows where
  le := Nat.le_refl _
  entries := hent
  rank := ⟨fun _ => 0, fun v r hv hr => by
    rw [List.getElem?_eq_none hv] at hr
    cases hr⟩
  expands v r g hv hr hg := by
    rw [hr] at hg
    cases hg
    exact Expands.of_terminals fun x hx => if_pos (hent r (List.mem_of_getElem? hr) x hx).2

/-- The row of a new number is its pair. -/
theorem rowRhs_new (h : Encodes V given rows) {x y z : Int} (hz : pairId rows.length news x y = some z) :
    rowRhs V (turnRows (pairId rows.length news) news rows) z = some [x, y] := by
  obtain ⟨i, hi, rfl⟩ := getElem?_of_pairId hz
  have hle := h.le
  refine rowRhs_eq_some (by omega) ?_
  rw [show ((rows.length : Int) + i).toNat = rows.length + i by omega]
  exact turnRows_getElem?_new hi

/-- The rows of old numbers are scanned. -/
theorem rowRhs_old {x : Int} {zs : List Int} (hx : 0 ≤ x ∧ x < rows.length)
    (hzs : rowRhs V rows x = some zs) :
    rowRhs V (turnRows (pairId rows.length news) news rows) x =
      some (scan (pairId rows.length news) zs) := by
  unfold rowRhs at hzs
  split at hzs
  · cases hzs
  · rename_i hV
    have hlt : x.toNat < rows.length := by omega
    rw [List.getD_eq_getElem?_getD, List.getElem?_eq_getElem hlt, Option.getD_some] at hzs
    cases hzs
    exact rowRhs_eq_some (by omega) (turnRows_getElem?_old hlt)

/-- A turn keeps the expansions. -/
theorem expands_turn (h : Encodes V given rows) {xs ys : List Int}
    (hxs : ∀ x ∈ xs, 0 ≤ x ∧ x < (rows.length : Int))
    (hexp : Expands (rowRhs V rows) xs ys) :
    Expands (rowRhs V (turnRows (pairId rows.length news) news rows)) xs ys := by
  refine Expands.refine_rhs (C := fun x => 0 ≤ x ∧ x < (rows.length : Int)) ?_ ?_ ?_ hexp hxs
  · intro x zs hx hzs z hz
    unfold rowRhs at hzs
    split at hzs
    · cases hzs
    · cases hzs
      rw [List.getD_eq_getElem?_getD, List.getElem?_eq_getElem (by omega), Option.getD_some] at hz
      exact h.entries _ (List.getElem_mem _) z hz
  · intro x _ hnone
    unfold rowRhs at hnone ⊢
    split at hnone
    · rename_i hV
      exact if_pos hV
    · cases hnone
  · intro x zs hx hzs
    exact ⟨_, rowRhs_old hx hzs,
      fun ys hys => (expands_scan fun a b z hz => h.rowRhs_new hz).mpr hys⟩

/-- A rank for the rows after a turn: ranks are doubled, and a new number comes right above its
pair. -/
theorem rank_turn (h : Encodes V given rows) (hnews : Within rows news) :
    ∃ rank : Int → Nat, ∀ v r, V ≤ v →
      (turnRows (pairId rows.length news) news rows)[v]? = some r → ∀ z ∈ r, rank z < rank v := by
  obtain ⟨rank, hrank⟩ := h.rank
  have hold : ∀ x : Int, x < rows.length → turnRank rows.length news rank x = 2 * rank x :=
    fun x hx => if_pos hx
  refine ⟨turnRank rows.length news rank, fun v r hV hr z hz => ?_⟩
  rcases Nat.lt_or_ge v rows.length with hv | hv
  · rw [turnRows_getElem?_old hv, Option.some_inj] at hr
    subst hr
    have hdown := hrank v rows[v] hV (List.getElem?_eq_getElem hv)
    rw [hold v (by omega)]
    -- both symbols of a replaced pair are below row `v`; the doubling leaves room for the new
    -- number between them
    rcases mem_scan hz with hz | ⟨a, b, hab, hid⟩
    · have hent := h.entries _ (List.getElem_mem hv) z hz
      have := hdown z hz
      rw [hold z hent.2]
      omega
    · obtain ⟨i, hi, rfl⟩ := getElem?_of_pairId hid
      have hmem := mem_of_mem_adjacent hab
      have ha := hdown a hmem.1
      have hb := hdown b hmem.2
      rw [turnRank_new rank rows.length hi]
      dsimp only
      omega
  · obtain ⟨i, rfl⟩ := Nat.exists_eq_add_of_le hv
    have hi : i < news.length := by
      have := (List.getElem?_eq_some_iff.mp hr).1
      rw [length_turnRows] at this
      omega
    have hget := List.getElem?_eq_getElem hi
    have hbound := hnews _ (List.getElem_mem hi)
    rw [turnRows_getElem?_new hget, Option.some_inj] at hr
    subst hr
    rw [Nat.cast_add, turnRank_new rank rows.length hget]
    simp only [List.mem_cons, List.not_mem_nil, or_false] at hz
    rcases hz with rfl | rfl
    · rw [hold _ hbound.1.2]
      omega
    · rw [hold _ hbound.2.2]
      omega

/-- A turn keeps what the rows stand for. -/
theorem turn (h : Encodes V given rows) (hnews : Within rows news) :
    Encodes V given (turnRows (pairId rows.length news) news rows) where
  le := by
    have := h.le
    rw [length_turnRows]
    omega
  entries := by
    exact entries_turnRows h.entries (by omega) (Int.le_refl _) hnews
  rank := h.rank_turn hnews
  expands v r g hv hr hg := by
    have hlt : v < rows.length := Nat.lt_of_lt_of_le hv h.le
    rw [turnRows_getElem?_old hlt, Option.some_inj] at hr
    subst hr
    rw [expands_scan fun a b z hz => h.rowRhs_new hz]
    refine h.expands_turn (h.entries _ (List.getElem_mem hlt)) ?_
    exact h.expands v _ g hv (List.getElem?_eq_getElem hlt) hg

end Encodes

end PairScan

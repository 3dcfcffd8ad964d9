import Laconic.Lib.Refines
import Laconic.RePair.HashInv

/-!
# Re-Pair: the pair table without deletion marks

A removed pair leaves a mark in its cell, which a search passes over and an insertion reuses.  Where
a pair is put therefore does not depend on the marks.  `PlainTable` is the table without marks; it
remembers which cells have held a pair since the table was created or resized, and these are the
cells that are not empty in the code's table.
-/

namespace Laconic.RePair

open Probing

structure PlainTable where
  size : Nat
  /-- the pair of each record -/
  pairs : List Tpair
  /-- the record in each cell -/
  cell : Nat → Option Nat
  /-- whether the cell has held a pair since the table was created or resized -/
  held : Nat → Bool

namespace PlainTable

/-- An empty table; `2^31` cells are too many. -/
def create (size : Nat) (pairs : List Tpair) : Option PlainTable :=
  if (size : Int) < intBound then some ⟨size, pairs, fun _ => none, fun _ => false⟩ else none

/-- The first free cell of a linear probe for `p`. -/
def place (T : PlainTable) (p : Tpair) : Option Nat :=
  (probes T.size T.size (hashPair (T.size - 1) p).toNat).find? fun k => (T.cell k).isNone

/-- Record `id` takes cell `k`. -/
def fill (T : PlainTable) (k id : Nat) : PlainTable :=
  { T with
    cell := fun j => if j = k then some id else T.cell j
    held := fun j => if j = k then true else T.held j }

def put (T : PlainTable) (id : Nat) (p : Tpair) : Option PlainTable := do
  let k ← T.place p
  pure (T.fill k id)

/-- The record in cell `i` of the old table is put into the new one. -/
def rehash (old T : PlainTable) (i : Nat) : Option PlainTable :=
  match old.cell i with
  | none => pure T
  | some id => do
    let p ← old.pairs[id]?
    T.put id p

def grow (T : PlainTable) : Option PlainTable := do
  let new ← create (2 * T.size) T.pairs
  (List.range' 0 T.size).foldlM T.rehash new

def insert (T : PlainTable) (p : Tpair) : Option PlainTable := do
  let T ← (if gtFactor T.pairs.length (T.size - 1) then T.grow else pure T)
  { T with pairs := T.pairs ++ [p] }.put T.pairs.length p

/-- Record `id` leaves its cell, and the last record takes its number. -/
def drop (T : PlainTable) (id : Nat) (last : Tpair) : PlainTable :=
  { T with
    pairs := (T.pairs.set id last).dropLast
    cell := fun k =>
      if T.cell k = some id then none
      else if T.cell k = some (T.pairs.length - 1) then some id else T.cell k }

def remove (T : PlainTable) (id : Int) : Option PlainTable :=
  if 0 ≤ id ∧ id < T.pairs.length then do
    let last ← T.pairs[T.pairs.length - 1]?
    pure (T.drop id.toNat last)
  else none

/-- Some cell has held no pair since the table was created or resized. -/
def HasUnused (T : PlainTable) : Prop := ∃ k, k < T.size ∧ T.held k = false

instance (T : PlainTable) : Decidable T.HasUnused :=
  inferInstanceAs (Decidable (∃ k, k < T.size ∧ T.held k = false))

/-- The cell as the code has it. -/
def code (T : PlainTable) (k : Nat) : Int :=
  match T.cell k with
  | some j => j
  | none => if T.held k then -2 else -1

theorem code_nonneg {T : PlainTable} {k : Nat} : 0 ≤ T.code k ↔ ∃ j, T.cell k = some j := by
  unfold code
  split
  · next j hj =>
    rw [hj]
    exact ⟨fun _ => ⟨j, rfl⟩, fun _ => by omega⟩
  · next hj =>
    rw [hj]
    refine ⟨fun h => ?_, nofun⟩
    split at h <;> omega

theorem code_some {T : PlainTable} {k j : Nat} (h : T.cell k = some j) : T.code k = j := by
  rw [code, h]

theorem code_none {T : PlainTable} {k : Nat} (h : T.cell k = none) :
    T.code k = if T.held k then -2 else -1 := by
  rw [code, h]

theorem code_fill (T : PlainTable) (k id j : Nat) :
    (T.fill k id).code j = if j = k then (id : Int) else T.code j := by
  by_cases hj : j = k
  · rw [if_pos hj, code_some (show (T.fill k id).cell j = some id from if_pos hj)]
  · unfold code fill
    simp only [if_neg hj]

theorem length_drop (T : PlainTable) (id : Nat) (q : Tpair) :
    (T.drop id q).pairs.length = T.pairs.length - 1 := by
  rw [drop, List.length_dropLast, List.length_set]

theorem drop_cell_iff {T : PlainTable} {id k j : Nat} {q : Tpair} :
    (T.drop id q).cell k = some j ↔
      (T.cell k = some (T.pairs.length - 1) ∧ T.pairs.length - 1 ≠ id ∧ j = id) ∨
        (T.cell k = some j ∧ j ≠ id ∧ j ≠ T.pairs.length - 1) := by
  unfold drop
  dsimp only
  -- the three kinds of cells: that of `id`, that of the last record, and the others
  by_cases hid : T.cell k = some id
  · rw [if_pos hid, hid]
    refine ⟨nofun, ?_⟩
    rintro (⟨he, hne, -⟩ | ⟨he, hne, -⟩)
    · exact absurd (Option.some.inj he).symm hne
    · exact absurd (Option.some.inj he).symm hne
  · rw [if_neg hid]
    by_cases hlast : T.cell k = some (T.pairs.length - 1)
    · rw [if_pos hlast, hlast]
      refine ⟨fun he => Or.inl ⟨rfl, fun hl => hid (hl ▸ hlast), (Option.some.inj he).symm⟩, ?_⟩
      rintro (⟨-, -, rfl⟩ | ⟨he, -, hne⟩)
      · rfl
      · exact absurd (Option.some.inj he).symm hne
    · rw [if_neg hlast]
      refine ⟨fun he => Or.inr ⟨he, fun hj => hid (hj ▸ he), fun hj => hlast (hj ▸ he)⟩, ?_⟩
      rintro (⟨he, -⟩ | ⟨he, -⟩)
      · exact absurd he hlast
      · exact he

end PlainTable

/-! ## Powers of two -/

theorem land_pow (x b : Nat) : land x ((2 ^ b : Nat) - 1) = ((x % 2 ^ b : Nat) : Int) := by
  have hpos := Nat.two_pow_pos b
  rw [land, Int.toNat_natCast, show (((2 ^ b : Nat) : Int) - 1).toNat = 2 ^ b - 1 by omega,
    Nat.and_two_pow_sub_one_eq_mod]

/-- Clearing the lowest bit keeps the highest, unless there is only one. -/
theorem log2_and_pred {s : Nat} (h0 : 0 < s) :
    (s &&& (s - 1) = 0 → s = 2 ^ s.log2) ∧
      (s &&& (s - 1) ≠ 0 → (s &&& (s - 1)).log2 = s.log2) := by
  have hle : 2 ^ s.log2 ≤ s := Nat.log2_self_le (by omega)
  have hlt : s < 2 ^ (s.log2 + 1) := Nat.lt_log2_self
  -- a power of two has one bit; otherwise `s - 1` has the highest bit too
  by_cases he : s = 2 ^ s.log2
  · refine ⟨fun _ => he, fun hne => absurd ?_ hne⟩
    have hmod : s &&& (s - 1) = s % s := by
      nth_rewrite 2 [he]
      rw [Nat.and_two_pow_sub_one_eq_mod, ← he]
    rw [hmod, Nat.mod_self]
  · have hbit : (s &&& (s - 1)).testBit s.log2 = true := by
      rw [Nat.testBit_and, Nat.testBit_of_two_pow_le_and_two_pow_add_one_gt hle hlt,
        Nat.testBit_of_two_pow_le_and_two_pow_add_one_gt (by omega) (by omega), Bool.and_self]
    have hge := Nat.ge_two_pow_of_testBit hbit
    have hand : s &&& (s - 1) ≤ s := Nat.and_le_left
    have hpos : 0 < 2 ^ s.log2 := Nat.two_pow_pos _
    refine ⟨fun hz => by omega, fun hne => ?_⟩
    exact (Nat.log2_eq_iff hne).mpr ⟨hge, by omega⟩

/-- The loop of `createHash` leaves the highest bit. -/
theorem clearLow_eq {m : Int} (hm : 1 ≤ m) :
    clearLow m = .ok ((2 ^ m.toNat.log2 : Nat) : Int) := by
  have hloop : Run.Meets (fun _ => False) (clearLow m)
      (fun r => r = ((2 ^ m.toNat.log2 : Nat) : Int)) := by
    -- the place of the highest bit is the invariant, and the value goes down
    refine Run.meets_whileLoop _ _ (fun s : Int => 1 ≤ s ∧ s.toNat.log2 = m.toNat.log2) _
      (fun s => s.toNat) (fun s hs => ?_) _ _ (by omega) ⟨hm, rfl⟩
    obtain ⟨h1, hlog⟩ := hs
    obtain ⟨hend, hgo⟩ := log2_and_pred (s := s.toNat) (by omega)
    have hland : (land s (s - 1)).toNat = s.toNat &&& (s.toNat - 1) := by
      rw [land, Int.toNat_natCast, show (s - 1).toNat = s.toNat - 1 by omega]
    have hle := land_le_right s (s - 1) (by omega)
    have h0 := land_nonneg s (s - 1)
    simp only [Run.meets_pure, decide_eq_true_eq, decide_eq_false_iff_not, ne_eq, not_not]
    refine ⟨fun hne => ⟨⟨by omega, ?_⟩, by omega⟩, fun hz => ?_⟩
    · rw [hland, hgo (by omega), hlog]
    · have hpow := hend (by omega)
      rw [hlog] at hpow
      omega
  obtain ⟨r, hrun, rfl⟩ := hloop.exists_ok fun e he => he.elim
  exact hrun

/-! ## Cells -/

/-- The hash table and the records hold what the plain table says. -/
structure TableRel (H : Thash) (recs : Block Trecord) (T : PlainTable) : Prop where
  pow : ∃ b, T.size = 2 ^ (b + 1)
  fits : (T.size : Int) < intBound
  maxpos : H.maxpos = T.size - 1
  tableSize : H.table.size = T.size
  records : ∀ (j : Nat) p, T.pairs[j]? = some p → recs.InB j ∧ (recs.cells j).pair = p
  cells : ∀ k : Nat, k < T.size → H.table.cells k = T.code k
  owner : ∀ k j : Nat, k < T.size → T.cell k = some j →
    j < T.pairs.length ∧ (recs.cells j).kpos = k
  held : ∀ k j, T.cell k = some j → T.held k = true

namespace TableRel

variable {H : Thash} {recs : Block Trecord} {T T' : PlainTable} {p : Tpair}

theorem inB (h : TableRel H recs T) {k : Nat} (hk : k < T.size) : H.table.InB k :=
  ⟨by omega, by rw [h.tableSize]; omega⟩

theorem step_eq (h : TableRel H recs T) (k : Nat) :
    H.step k = (((k + 1) % T.size : Nat) : Int) := by
  obtain ⟨b, hb⟩ := h.pow
  rw [Thash.step, h.maxpos, hb, ← land_pow, Nat.cast_succ]

theorem size_pos (h : TableRel H recs T) : 0 < T.size := by
  obtain ⟨b, hb⟩ := h.pow
  rw [hb]
  exact Nat.two_pow_pos _

theorem start_lt (h : TableRel H recs T) (p : Tpair) : (hashPair (T.size - 1) p).toNat < T.size := by
  have hpos := h.size_pos
  have h₁ := hashPair_nonneg (T.size - 1) p
  have h₂ := hashPair_le (T.size - 1) p (by omega)
  omega

theorem start_eq (h : TableRel H recs T) (p : Tpair) :
    hashPair H.maxpos p = (((hashPair (T.size - 1) p).toNat : Nat) : Int) := by
  rw [h.maxpos, Int.toNat_of_nonneg (hashPair_nonneg _ _)]

theorem steps_eq (h : TableRel H recs T) : (H.maxpos + 1).toNat = T.size := by
  rw [h.maxpos]
  omega

/-- A cell holds a record exactly when the code has a number there. -/
theorem nonneg_iff (h : TableRel H recs T) {k : Nat} (hk : k < T.size) :
    0 ≤ H.table.cells k ↔ ∃ j, T.cell k = some j := by
  rw [h.cells k hk, PlainTable.code_nonneg]

/-- A cell is empty exactly when it has held no pair. -/
theorem empty_iff (h : TableRel H recs T) {k : Nat} (hk : k < T.size) :
    H.table.cells k = -1 ↔ T.held k = false := by
  rw [h.cells k hk]
  cases hc : T.cell k with
  | none =>
    rw [PlainTable.code_none hc]
    cases T.held k <;> decide
  | some j =>
    rw [PlainTable.code_some hc, h.held k j hc]
    exact ⟨fun he => by omega, nofun⟩

/-! ### Search -/

theorem searchFrom_stops (h : TableRel H recs T) (p : Tpair) {k₀ : Nat}
    (hfree : T.held k₀ = false) :
    ∀ n k : Nat, k < T.size → k₀ ∈ probes T.size n k → ∃ t, searchFrom H recs p n k = .ok t := by
  intro n
  -- on the number of cells still to be probed: the unused cell is one of them
  induction n with
  | zero =>
    intro k _ hmem
    cases hmem
  | succ n ih =>
    intro k hk hmem
    rw [searchFrom, Block.read_eq (h.inB hk), Run.ok_bind]
    by_cases hempty : H.table.cells k = -1
    · rw [if_pos hempty]
      exact ⟨_, rfl⟩
    · have hne : k₀ ≠ k := fun he => hempty ((h.empty_iff hk).mpr (he ▸ hfree))
      obtain ⟨t, ht⟩ := ih ((k + 1) % T.size) (Nat.mod_lt _ (by omega))
        ((List.mem_cons.mp hmem).resolve_left hne)
      rw [← h.step_eq] at ht
      rw [if_neg hempty, ht]
      -- a record is compared, a deletion mark is passed
      by_cases hrec : 0 ≤ H.table.cells k
      · obtain ⟨j, hj⟩ := (h.nonneg_iff hk).mp hrec
        have hlen := (h.owner k j hk hj).1
        have hin := (h.records j _ (List.getElem?_eq_getElem hlen)).1
        rw [if_pos hrec, h.cells k hk, PlainTable.code_some hj, Block.read_eq hin, Run.ok_bind,
          Run.pure_bind]
        split
        · exact ⟨_, rfl⟩
        · exact ⟨t, rfl⟩
      · rw [if_neg hrec, Run.pure_bind, if_neg Bool.false_ne_true]
        exact ⟨t, rfl⟩

/-- With an unused cell every search ends. -/
theorem searchHash_stops (h : TableRel H recs T) (hunused : T.HasUnused) (p : Tpair) :
    ∃ t, searchHash H recs p = .ok t := by
  obtain ⟨k₀, hk₀, hfree⟩ := hunused
  rw [searchHash, h.steps_eq, h.start_eq p]
  exact h.searchFrom_stops p hfree _ _ (h.start_lt p) (mem_probes (h.start_lt p) hk₀)

/-! ### Insertion -/

theorem finsertFrom_refines (h : TableRel H recs T) :
    ∀ n k : Nat, k < T.size → Run.Refines
      (fun (a : Int) (b : Nat) => a = b ∧ b < T.size ∧ T.cell b = none)
      (finsertFrom H n k) ((probes T.size n k).find? fun k => (T.cell k).isNone) := by
  intro n
  induction n with
  | zero =>
    intro k _
    exact .stops
  | succ n ih =>
    intro k hk
    rw [finsertFrom, Block.read_eq (h.inB hk), Run.ok_bind, probes, List.find?_cons]
    -- a mark is a free cell like any other, so the plain table needs no marks here
    cases hc : T.cell k with
    | none =>
      have hneg : ¬ 0 ≤ H.table.cells k := fun hn => by
        obtain ⟨j, hj⟩ := (h.nonneg_iff hk).mp hn
        rw [hc] at hj
        cases hj
      rw [if_neg hneg]
      exact Run.refines_pure ⟨rfl, hk, hc⟩
    | some j =>
      rw [if_pos ((h.nonneg_iff hk).mpr ⟨j, hc⟩), h.step_eq]
      exact ih _ (Nat.mod_lt _ (by omega))

theorem finsertHash_refines (h : TableRel H recs T) (p : Tpair) :
    Run.Refines (fun (a : Int) (b : Nat) => a = b ∧ b < T.size ∧ T.cell b = none)
      (finsertHash H p) (T.place p) := by
  rw [finsertHash, h.steps_eq, h.start_eq p, PlainTable.place]
  exact h.finsertFrom_refines _ _ (h.start_lt p)

/-- A record takes the free cell `k`. -/
theorem fill (h : TableRel H recs T) {id k : Nat} (used : Int) (hid : id < T.pairs.length)
    (hfree : ∀ j, j < T.size → T.cell j ≠ some id) :
    TableRel { H with table := H.table.upd k fun _ => (id : Int), used := used }
      (recs.upd id fun r => { r with kpos := k }) (T.fill k id) where
  pow := h.pow
  fits := h.fits
  maxpos := h.maxpos
  tableSize := h.tableSize
  records j p hj := by
    obtain ⟨hin, hpair⟩ := h.records j p hj
    refine ⟨hin, ?_⟩
    rw [Block.cells_upd]
    split
    · next he => rw [← he, hpair]
    · exact hpair
  cells j hj := by
    rw [PlainTable.code_fill, Block.cells_upd, h.cells j hj]
    exact if_congr Nat.cast_inj rfl rfl
  owner j r hj hr := by
    by_cases hjk : j = k
    · obtain rfl : id = r := Option.some.inj ((if_pos hjk).symm.trans hr)
      rw [Block.cells_upd_self]
      exact ⟨hid, by rw [hjk]⟩
    · have hold : T.cell j = some r := (if_neg hjk).symm.trans hr
      obtain ⟨hlen, hkpos⟩ := h.owner j r hj hold
      have hne : (r : Int) ≠ id := fun he => hfree j hj (Nat.cast_inj.mp he ▸ hold)
      rw [Block.cells_upd_ne _ _ hne]
      exact ⟨hlen, hkpos⟩
  held j r hr := by
    by_cases hjk : j = k
    · exact if_pos hjk
    · exact (if_neg hjk).trans (h.held j r ((if_neg hjk).symm.trans hr))

/-- What `put` does to the plain table. -/
def Filled (T T' : PlainTable) (id : Nat) : Prop :=
  ∃ k, k < T.size ∧ T.cell k = none ∧ T' = T.fill k id

theorem Filled.cells_iff {id : Nat} (h : Filled T T' id) (j : Nat) :
    (∃ k, k < T'.size ∧ T'.cell k = some j) ↔ (∃ k, k < T.size ∧ T.cell k = some j) ∨ j = id := by
  obtain ⟨k, hk, hnone, rfl⟩ := h
  constructor
  · rintro ⟨i, hi, hij⟩
    by_cases hik : i = k
    · exact Or.inr (Option.some.inj ((if_pos hik).symm.trans hij)).symm
    · exact Or.inl ⟨i, hi, (if_neg hik).symm.trans hij⟩
  · rintro (⟨i, hi, hij⟩ | rfl)
    · refine ⟨i, hi, (if_neg fun hik => ?_).trans hij⟩
      rw [hik, hnone] at hij
      cases hij
    · exact ⟨k, hk, if_pos rfl⟩

/-- A record is put into the table. -/
theorem put_refines (h : TableRel H recs T) {id : Nat} (used : Int) (hid : T.pairs[id]? = some p)
    (hfree : ∀ j, j < T.size → T.cell j ≠ some id) :
    Run.Refines (fun (s : Thash × Block Trecord) T' => TableRel s.1 s.2 T' ∧
        HashInv.SameButKpos recs s.2 ∧ s.1.used = used ∧ Filled T T' id)
      (do
        let k ← finsertHash H p
        let table ← H.table.write k id
        let recs ← recs.modify id fun r => { r with kpos := k }
        pure ({ H with table := table, used := used }, recs))
      (T.put id p) := by
  refine (h.finsertHash_refines p).bind fun a k hk => ?_
  obtain ⟨rfl, hlt, hnone⟩ := hk
  rw [Block.write_eq (h.inB hlt), Run.ok_bind, Block.modify_eq (h.records id p hid).1, Run.ok_bind]
  have hlen : id < T.pairs.length := (List.getElem?_eq_some_iff.mp hid).1
  exact Run.refines_pure ⟨h.fill used hlen hfree, (HashInv.SameButKpos.refl recs).upd _ _, rfl,
    k, hlt, hnone, rfl⟩

/-! ### Resize -/

/-- A new table has no pair. -/
theorem createHash_refines {m : Int} (hm : 1 ≤ m) (recs : Block Trecord) (pairs : List Tpair)
    (hrecs : ∀ (j : Nat) p, pairs[j]? = some p → recs.InB j ∧ (recs.cells j).pair = p) :
    Run.Refines (fun H T => TableRel H recs T ∧ H.used = 0 ∧ T.pairs = pairs ∧
        T.size = 2 * 2 ^ m.toNat.log2 ∧ ∀ k, T.cell k = none)
      (createHash m) (PlainTable.create (2 * 2 ^ m.toNat.log2) pairs) := by
  rw [createHash, clearLow_eq hm, Run.ok_bind, PlainTable.create]
  dsimp only
  have hpos : 0 < 2 ^ m.toNat.log2 := Nat.two_pow_pos _
  -- the code and the plain table refuse the same sizes
  by_cases hfit : ((2 * 2 ^ m.toNat.log2 : Nat) : Int) < intBound
  · rw [if_pos hfit, if_neg (by push_cast at hfit ⊢; omega)]
    refine Run.refines_pure ⟨⟨⟨m.toNat.log2, ?_⟩, hfit, ?_, ?_, hrecs, fun k _ => rfl, ?_, ?_⟩,
      rfl, rfl, rfl, fun _ => rfl⟩
    · exact (Nat.pow_succ').symm
    · push_cast
      omega
    · rw [Block.size_alloc]
      push_cast
      omega
    · intro k j _ hj
      cases hj
    · intro k j hj
      cases hj
  · rw [if_neg hfit, if_pos (by push_cast at hfit ⊢; omega)]
    exact .stops

theorem log2_double_pred (b : Nat) : (2 * 2 ^ b - 1).log2 = b := by
  have hpos : 0 < 2 ^ b := Nat.two_pow_pos _
  refine (Nat.log2_eq_iff (by omega)).mpr ⟨by omega, ?_⟩
  rw [Nat.pow_succ]
  omega

/-- The table `T'` in the middle of a resize of `T`: it holds the records of the cells below `i`. -/
structure Rehashed (recs : Block Trecord) (T : PlainTable) (i : Nat) (s : Thash × Block Trecord)
    (T' : PlainTable) : Prop where
  table : TableRel s.1 s.2 T'
  same : HashInv.SameButKpos recs s.2
  pairs : T'.pairs = T.pairs
  cells : ∀ j, (∃ k, k < T'.size ∧ T'.cell k = some j) ↔ ∃ k, k < i ∧ T.cell k = some j

theorem rehashCell_refines (h : TableRel H recs T) {i : Nat} (hi : i < T.size)
    {s : Thash × Block Trecord} (hs : Rehashed recs T i s T') :
    Run.Refines (Rehashed recs T (i + 1)) (rehashCell H.table i s) (T.rehash T' i) := by
  obtain ⟨hrel, hsame, hpairs, hiff⟩ := hs
  rw [rehashCell, Block.read_eq (h.inB hi), Run.ok_bind, PlainTable.rehash]
  cases hc : T.cell i with
  | none =>
    have hneg : ¬ 0 ≤ H.table.cells i := fun hn => by
      obtain ⟨j, hj⟩ := (h.nonneg_iff hi).mp hn
      rw [hc] at hj
      cases hj
    rw [if_neg hneg]
    refine Run.refines_pure ⟨hrel, hsame, hpairs, fun j => ?_⟩
    rw [hiff]
    constructor
    · rintro ⟨k, hk, hkj⟩
      exact ⟨k, by omega, hkj⟩
    · rintro ⟨k, hk, hkj⟩
      have hne : k ≠ i := fun he => by
        rw [he, hc] at hkj
        cases hkj
      exact ⟨k, by omega, hkj⟩
  | some id =>
    obtain ⟨hlen, hkpos⟩ := h.owner i id hi hc
    obtain ⟨p, hpair⟩ : ∃ p, T.pairs[id]? = some p := ⟨_, List.getElem?_eq_getElem hlen⟩
    have hpair' := hpair
    rw [← hpairs] at hpair'
    obtain ⟨hin, hp⟩ := hrel.records id _ hpair'
    -- a record has one cell in the old table, so it has not been moved before
    have hfree : ∀ j, j < T'.size → T'.cell j ≠ some id := fun j hj hjid => by
      obtain ⟨k, hk, hkid⟩ := (hiff id).mp ⟨j, hj, hjid⟩
      have hk' := (h.owner k id (by omega) hkid).2
      omega
    dsimp only
    rw [if_pos ((h.nonneg_iff hi).mpr ⟨id, hc⟩), h.cells i hi, PlainTable.code_some hc,
      Block.read_eq hin, Run.ok_bind, hp, hpair]
    refine (hrel.put_refines s.1.used hpair' hfree).mono fun s' T'' hs' => ?_
    obtain ⟨hrel', hsame', -, hfilled⟩ := hs'
    refine ⟨hrel', hsame.trans hsame', ?_, fun j => ?_⟩
    · obtain ⟨k, -, -, rfl⟩ := hfilled
      exact hpairs
    · rw [hfilled.cells_iff, hiff]
      constructor
      · rintro (⟨k, hk, hkj⟩ | rfl)
        · exact ⟨k, by omega, hkj⟩
        · exact ⟨i, by omega, hc⟩
      · rintro ⟨k, hk, hkj⟩
        by_cases hki : k = i
        · rw [hki, hc] at hkj
          exact Or.inr (Option.some.inj hkj).symm
        · exact Or.inl ⟨k, by omega, hkj⟩

/-- The resized table has the same records. -/
structure Grown (H : Thash) (recs : Block Trecord) (T : PlainTable) (s : Thash × Block Trecord)
    (T' : PlainTable) : Prop where
  table : TableRel s.1 s.2 T'
  same : HashInv.SameButKpos recs s.2
  used : s.1.used = H.used
  pairs : T'.pairs = T.pairs
  cells : ∀ j, (∃ k, k < T'.size ∧ T'.cell k = some j) ↔ ∃ k, k < T.size ∧ T.cell k = some j

theorem growHash_refines (h : TableRel H recs T) :
    Run.Refines (Grown H recs T) (growHash H recs) T.grow := by
  obtain ⟨b, hb⟩ := h.pow
  have hpos := h.size_pos
  -- `maxpos << 1 | 1` has all its bits set, so `createHash` doubles the number of cells
  have hm : (2 * H.maxpos + 1).toNat = 2 * 2 ^ (b + 1) - 1 := by
    rw [h.maxpos, hb]
    omega
  have hlog : 2 ^ (2 * H.maxpos + 1).toNat.log2 = T.size := by
    rw [hm, log2_double_pred, hb]
  rw [growHash, PlainTable.grow]
  have hnew := createHash_refines (m := 2 * H.maxpos + 1) (by rw [h.maxpos]; omega) recs T.pairs
    h.records
  rw [hlog] at hnew
  refine hnew.bind fun H₀ T₀ h₀ => ?_
  obtain ⟨hrel₀, -, hpairs₀, -, hempty₀⟩ := h₀
  have hstart : Rehashed recs T 0 (H₀, recs) T₀ := by
    refine ⟨hrel₀, HashInv.SameButKpos.refl recs, hpairs₀, fun j => ?_⟩
    constructor
    · rintro ⟨k, -, hk⟩
      rw [hempty₀] at hk
      cases hk
    · rintro ⟨k, hk, -⟩
      exact absurd hk (Nat.not_lt_zero k)
  have hloop := Run.refines_forLoop (fun i s T' hi hs => h.rehashCell_refines hi hs) T.size 0
    (H₀, recs) T₀ (by omega) hstart
  rw [h.steps_eq, ← bind_pure ((List.range' 0 T.size).foldlM T.rehash T₀)]
  refine hloop.bind fun s T' hs => ?_
  have hrel := hs.table
  exact Run.refines_pure ⟨⟨hrel.pow, hrel.fits, hrel.maxpos, hrel.tableSize, hrel.records,
    hrel.cells, hrel.owner, hrel.held⟩, hs.same, rfl, hs.pairs, hs.cells⟩

/-! ### One record more -/

/-- The relation reads `pair` and `kpos` of the records only. -/
theorem congr {recs' : Block Trecord} (h : TableRel H recs T)
    (hin : ∀ j : Nat, j < T.pairs.length → recs'.InB j)
    (hpair : ∀ j : Nat, j < T.pairs.length → (recs'.cells j).pair = (recs.cells j).pair)
    (hkpos : ∀ j : Nat, j < T.pairs.length → (recs'.cells j).kpos = (recs.cells j).kpos) :
    TableRel H recs' T where
  pow := h.pow
  fits := h.fits
  maxpos := h.maxpos
  tableSize := h.tableSize
  records j p hj := by
    have hlen := (List.getElem?_eq_some_iff.mp hj).1
    rw [hpair j hlen]
    exact ⟨hin j hlen, (h.records j p hj).2⟩
  cells := h.cells
  owner k j hk hj := by
    obtain ⟨hlen, hown⟩ := h.owner k j hk hj
    rw [hkpos j hlen]
    exact ⟨hlen, hown⟩
  held := h.held

theorem append (h : TableRel H recs T) (hin : recs.InB T.pairs.length)
    (hp : (recs.cells T.pairs.length).pair = p) :
    TableRel H recs { T with pairs := T.pairs ++ [p] } where
  pow := h.pow
  fits := h.fits
  maxpos := h.maxpos
  tableSize := h.tableSize
  records j q hj := by
    by_cases hlt : j < T.pairs.length
    · dsimp only at hj
      rw [List.getElem?_append_left hlt] at hj
      exact h.records j q hj
    · have hlen := (List.getElem?_eq_some_iff.mp hj).1
      rw [List.length_append, List.length_singleton] at hlen
      obtain rfl : j = T.pairs.length := by omega
      rw [List.getElem?_concat_length, Option.some_inj] at hj
      exact ⟨hin, hp.trans hj⟩
  cells := h.cells
  owner k j hk hj := by
    obtain ⟨hlen, hown⟩ := h.owner k j hk hj
    rw [List.length_append]
    exact ⟨by omega, hown⟩
  held := h.held

theorem insertHash_refines (h : TableRel H recs T) (hused : H.used = T.pairs.length)
    (hin : recs.InB T.pairs.length) (hp : (recs.cells T.pairs.length).pair = p) :
    Run.Refines (fun (s : Thash × Block Trecord) T' => TableRel s.1 s.2 T' ∧
        HashInv.SameButKpos recs s.2 ∧ s.1.used = H.used + 1 ∧ T'.pairs = T.pairs ++ [p] ∧
        ∀ j, (∃ k, k < T'.size ∧ T'.cell k = some j) ↔
          (∃ k, k < T.size ∧ T.cell k = some j) ∨ j = T.pairs.length)
      (insertHash H recs T.pairs.length) (T.insert p) := by
  have hgrow : Run.Refines (Grown H recs T)
      (if gtFactor H.used H.maxpos then growHash H recs else pure (H, recs))
      (if gtFactor T.pairs.length (T.size - 1) then T.grow else pure T) := by
    rw [show gtFactor H.used H.maxpos = gtFactor T.pairs.length (T.size - 1) by
      rw [hused, h.maxpos]]
    split
    · exact h.growHash_refines
    · exact Run.refines_pure ⟨h, HashInv.SameButKpos.refl recs, rfl, rfl, fun _ => Iff.rfl⟩
  rw [insertHash, PlainTable.insert]
  refine hgrow.bind fun s T₁ hs => ?_
  obtain ⟨size₁, pairs₁, cell₁, held₁⟩ := T₁
  obtain ⟨hrel, hsame, hused₁, hpairs, hiff⟩ := hs
  dsimp only at hpairs hiff ⊢
  subst hpairs
  have hin₁ : s.2.InB T.pairs.length := ⟨hin.1, by rw [hsame.1]; exact hin.2⟩
  have hp₁ : (s.2.cells T.pairs.length).pair = p := (hsame.pair_eq _).trans hp
  rw [Block.read_eq hin₁, Run.ok_bind, hp₁]
  -- every record in a cell is an old one
  have hfree : ∀ j, j < size₁ → cell₁ j ≠ some T.pairs.length := fun j hj hjl =>
    absurd (hrel.owner j _ hj hjl).1 (Nat.lt_irrefl _)
  refine ((hrel.append hin₁ hp₁).put_refines (s.1.used + 1) List.getElem?_concat_length
    hfree).mono fun s' T' hs' => ?_
  obtain ⟨hrel', hsame', hused', hfilled⟩ := hs'
  refine ⟨hrel', hsame.trans hsame', by rw [hused', hused₁], ?_, fun j => ?_⟩
  · obtain ⟨k, -, -, rfl⟩ := hfilled
    rfl
  · rw [hfilled.cells_iff, ← hiff]

end TableRel

end Laconic.RePair

import Mathlib.Data.List.Basic
import Mathlib.Tactic.Common

/-!
# Compressed sparse rows

A list of rows stored as one list of entries and the list of the offsets where the rows start, with
the end of the last row as its last element.
-/

namespace Csr

variable {α : Type}

/-- Row `v`: the entries from its offset up to the next one. -/
def row (off : List Int) (ent : List α) (v : Nat) : List α :=
  (ent.take (off.getD (v + 1) 0).toNat).drop (off.getD v 0).toNat

/-- All rows. -/
def rows (off : List Int) (ent : List α) : List (List α) :=
  (List.range (off.length - 1)).map (row off ent)

/-- Offsets that start at 0, never go down and stay within the entries. -/
structure Valid (off : List Int) (ent : List α) : Prop where
  first : off.head? = some 0
  mono : off.Pairwise (· ≤ ·)
  within : ∀ x ∈ off, x ≤ ent.length

/-- The offsets of given rows, from `k` on. -/
def offsetsFrom (k : Int) : List (List α) → List Int
  | [] => [k]
  | r :: rs => k :: offsetsFrom (k + r.length) rs

def offsets (rs : List (List α)) : List Int := offsetsFrom 0 rs

section Valid

variable {off : List Int} {ent : List α}

theorem Valid.length_pos (h : Valid off ent) : 0 < off.length := by
  obtain ⟨l, rfl⟩ := List.head?_eq_some_iff.mp h.first
  simp

theorem Valid.getD_zero (h : Valid off ent) : off.getD 0 0 = 0 := by
  obtain ⟨l, rfl⟩ := List.head?_eq_some_iff.mp h.first
  rfl

theorem Valid.getD_mono (h : Valid off ent) {a b : Nat} (hab : a ≤ b) (hb : b < off.length) :
    off.getD a 0 ≤ off.getD b 0 := by
  rcases Nat.lt_or_eq_of_le hab with hlt | rfl
  · have := List.pairwise_iff_getElem.mp h.mono a b (by omega) hb hlt
    rw [List.getD_eq_getElem?_getD, List.getD_eq_getElem?_getD, List.getElem?_eq_getElem hb,
      List.getElem?_eq_getElem (by omega : a < off.length)]
    exact this
  · exact Int.le_refl _

theorem Valid.getD_nonneg (h : Valid off ent) {a : Nat} (ha : a < off.length) :
    0 ≤ off.getD a 0 := by
  have := h.getD_mono (Nat.zero_le a) ha
  rwa [h.getD_zero] at this

theorem Valid.getD_le (h : Valid off ent) {a : Nat} (ha : a < off.length) :
    off.getD a 0 ≤ ent.length := by
  rw [List.getD_eq_getElem?_getD, List.getElem?_eq_getElem ha]
  exact h.within _ (List.getElem_mem ha)

theorem Valid.length_row (h : Valid off ent) {v : Nat} (hv : v + 1 < off.length) :
    ((row off ent v).length : Int) = off.getD (v + 1) 0 - off.getD v 0 := by
  have h₁ := h.getD_mono (Nat.le_add_right v 1) hv
  have h₂ := h.getD_nonneg (by omega : v < off.length)
  have h₃ := h.getD_le hv
  rw [row, List.length_drop, List.length_take]
  omega

theorem length_rows : (rows off ent).length = off.length - 1 := by
  rw [rows, List.length_map, List.length_range]

theorem rows_getElem? {v : Nat} (hv : v + 1 < off.length) :
    (rows off ent)[v]? = some (row off ent v) := by
  rw [rows, List.getElem?_map, List.getElem?_range (by omega)]
  rfl

/-- The rows up to `v` are the entries up to the next offset. -/
theorem Valid.flatten_take_rows (h : Valid off ent) {v : Nat} (hv : v < off.length) :
    ((rows off ent).take v).flatten = ent.take (off.getD v 0).toNat := by
  induction v with
  | zero =>
    rw [h.getD_zero]
    simp
  | succ v ih =>
    have h₁ := h.getD_mono (Nat.le_add_right v 1) hv
    rw [List.take_add_one, rows_getElem? hv, List.flatten_append, ih (by omega), row]
    simp only [Option.toList_some, List.flatten_cons, List.flatten_nil, List.append_nil]
    -- row `v` is what the prefix up to the next offset has beyond the prefix up to its own
    have ha : (ent.take (off.getD (v + 1) 0).toNat).take (off.getD v 0).toNat =
        ent.take (off.getD v 0).toNat := by
      rw [List.take_take, Nat.min_eq_left (by omega)]
    rw [← ha, List.take_append_drop]

/-- Row by row, the rows are the entries up to the last offset. -/
theorem Valid.flatten_rows (h : Valid off ent) :
    (rows off ent).flatten = ent.take (off.getD (off.length - 1) 0).toNat := by
  have hpos := h.length_pos
  rw [← h.flatten_take_rows (by omega), List.take_of_length_le (Nat.le_of_eq length_rows)]

/-- There is nothing beyond the last row. -/
theorem row_of_le {v : Nat} (hv : off.length ≤ v + 1) : row off ent v = [] := by
  have hend : off.getD (v + 1) 0 = 0 := by
    rw [List.getD_eq_getElem?_getD, List.getElem?_eq_none hv]
    rfl
  rw [row, hend, Int.toNat_zero, List.take_zero, List.drop_nil]

theorem mem_of_mem_row {v : Nat} {x : α} (h : x ∈ row off ent v) : x ∈ ent :=
  List.mem_of_mem_take (List.mem_of_mem_drop h)

end Valid

/-! ## A range of rows as rows of their own -/

/-- The offsets of the rows `a`, …, `b - 1`, counted from the first of them. -/
def sliceOffsets (off : List Int) (a b : Nat) : List Int :=
  ((off.drop a).take (b - a + 1)).map (· - off.getD a 0)

/-- Entries from the offset of row `a` on, `n` of them. -/
def sliceEntries (off : List Int) (ent : List α) (a n : Nat) : List α :=
  (ent.drop (off.getD a 0).toNat).take n

section Slice

variable {off : List Int} {ent : List α} {a b n : Nat}

theorem length_sliceOffsets (hab : a ≤ b) (hb : b < off.length) :
    (sliceOffsets off a b).length = b - a + 1 := by
  rw [sliceOffsets, List.length_map, List.length_take, List.length_drop]
  omega

theorem sliceOffsets_getD {v : Nat} (hv : v ≤ b - a) (hlt : a + v < off.length) :
    (sliceOffsets off a b).getD v 0 = off.getD (a + v) 0 - off.getD a 0 := by
  have hget : off.getD (a + v) 0 = off[a + v] := by
    rw [List.getD_eq_getElem?_getD, List.getElem?_eq_getElem hlt]
    rfl
  rw [hget, List.getD_eq_getElem?_getD, sliceOffsets, List.getElem?_map,
    List.getElem?_take_of_lt (by omega), List.getElem?_drop, List.getElem?_eq_getElem hlt]
  rfl

theorem length_sliceEntries : (sliceEntries off ent a n).length =
    min n (ent.length - (off.getD a 0).toNat) := by
  rw [sliceEntries, List.length_take, List.length_drop]

/-- The slice is a graph of its own when it has all entries of its rows. -/
theorem Valid.slice (h : Valid off ent) (hab : a ≤ b) (hb : b < off.length)
    (hn : off.getD b 0 - off.getD a 0 ≤ n) :
    Valid (sliceOffsets off a b) (sliceEntries off ent a n) := by
  have ha0 := h.getD_nonneg (by omega : a < off.length)
  have hble := h.getD_le hb
  have hlen := length_sliceOffsets hab hb
  -- offset `i` of the slice is offset `a + i`, counted from that of `a`
  have hget : ∀ (i : Nat) (hi : i < (sliceOffsets off a b).length),
      (sliceOffsets off a b)[i] = off.getD (a + i) 0 - off.getD a 0 := fun i hi => by
    rw [← sliceOffsets_getD (b := b) (by omega) (by omega), List.getD_eq_getElem?_getD,
      List.getElem?_eq_getElem hi]
    rfl
  refine ⟨?_, List.pairwise_iff_getElem.mpr fun i j hi hj hij => ?_, fun x hx => ?_⟩
  · rw [List.head?_eq_getElem?, List.getElem?_eq_getElem (by omega), hget, Nat.add_zero, Int.sub_self]
  · rw [hget, hget]
    have := h.getD_mono (by omega : a + i ≤ a + j) (by omega)
    omega
  · obtain ⟨i, hi, rfl⟩ := List.mem_iff_getElem.mp hx
    have hle := h.getD_mono (by omega : a + i ≤ b) hb
    rw [hget, length_sliceEntries]
    omega

theorem Valid.row_slice (h : Valid off ent) (hb : b < off.length)
    (hn : off.getD b 0 - off.getD a 0 ≤ n) {v : Nat} (hv : v < b - a) :
    row (sliceOffsets off a b) (sliceEntries off ent a n) v = row off ent (a + v) := by
  have ha0 := h.getD_nonneg (by omega : a < off.length)
  have h₁ := h.getD_mono (by omega : a ≤ a + v) (by omega)
  have h₂ := h.getD_mono (by omega : a + v ≤ a + v + 1) (by omega)
  have h₃ := h.getD_mono (by omega : a + v + 1 ≤ b) hb
  -- taking and dropping in the slice and in the whole commute up to the offset of `a`
  rw [row, sliceOffsets_getD (by omega) (by omega), sliceOffsets_getD (by omega) (by omega),
    sliceEntries, List.take_take, Nat.min_eq_left (by rw [← Nat.add_assoc]; omega), List.take_drop,
    List.drop_drop, row, ← Nat.add_assoc]
  congr 2 <;> omega

end Slice

/-! ## Rows written one after the other -/

section Offsets

variable {rs : List (List α)} {r : List α} {k : Int}

theorem length_offsetsFrom : (offsetsFrom k rs).length = rs.length + 1 := by
  induction rs generalizing k with
  | nil => rfl
  | cons r rs ih => rw [offsetsFrom, List.length_cons, ih, List.length_cons]

theorem length_offsets : (offsets rs).length = rs.length + 1 := length_offsetsFrom

/-- The offsets depend on the lengths of the rows only. -/
theorem offsetsFrom_congr {β : Type} {qs : List (List β)}
    (h : rs.map List.length = qs.map List.length) : offsetsFrom k rs = offsetsFrom k qs := by
  induction rs generalizing k qs with
  | nil =>
    rw [List.map_nil, eq_comm, List.map_eq_nil_iff] at h
    rw [h]
    rfl
  | cons r rs ih =>
    cases qs with
    | nil => cases h
    | cons q qs =>
      obtain ⟨hlen, hrest⟩ := List.cons.inj h
      rw [offsetsFrom, offsetsFrom, hlen, ih hrest]

theorem offsetsFrom_concat : offsetsFrom k (rs ++ [r]) =
    offsetsFrom k rs ++ [k + rs.flatten.length + r.length] := by
  induction rs generalizing k with
  | nil => simp [offsetsFrom]
  | cons q rs ih =>
    rw [List.cons_append, offsetsFrom, ih, offsetsFrom, List.cons_append, List.flatten_cons,
      List.length_append]
    push_cast
    rw [Int.add_assoc k]

/-- Appending a row appends its end. -/
theorem offsets_concat : offsets (rs ++ [r]) =
    offsets rs ++ [(rs.flatten.length : Int) + r.length] := by
  rw [offsets, offsetsFrom_concat, Int.zero_add, offsets]

theorem offsetsFrom_getD {v : Nat} (hv : v ≤ rs.length) :
    (offsetsFrom k rs).getD v 0 = k + (rs.take v).flatten.length := by
  induction rs generalizing k v with
  | nil =>
    obtain rfl : v = 0 := by simpa using hv
    simp [offsetsFrom]
  | cons r rs ih =>
    cases v with
    | zero => simp [offsetsFrom]
    | succ v =>
      rw [offsetsFrom, List.getD_cons_succ, ih (by simpa using hv), List.take_succ_cons,
        List.flatten_cons, List.length_append]
      push_cast
      rw [Int.add_assoc]

theorem offsets_getD {v : Nat} (hv : v ≤ rs.length) :
    (offsets rs).getD v 0 = (rs.take v).flatten.length := by
  rw [offsets, offsetsFrom_getD hv, Int.zero_add]

/-- The last offset is the number of entries. -/
theorem offsets_getLast? : (offsets rs).getLast? = some (rs.flatten.length : Int) := by
  have := offsets_getD (Nat.le_refl rs.length)
  rw [List.take_length] at this
  rw [List.getLast?_eq_getElem?, length_offsets, Nat.add_sub_cancel, ← this,
    List.getD_eq_getElem?_getD, List.getElem?_eq_getElem (by rw [length_offsets]; omega)]
  rfl

theorem valid_offsets : Valid (offsets rs) rs.flatten := by
  -- an offset is the number of entries in the rows before
  have hget : ∀ (i : Nat) (hi : i < (offsets rs).length),
      (offsets rs)[i] = (rs.take i).flatten.length := fun i hi => by
    rw [← offsets_getD (by rw [length_offsets] at hi; omega), List.getD_eq_getElem?_getD,
      List.getElem?_eq_getElem hi]
    rfl
  have hsplit : ∀ i, rs.flatten.length = (rs.take i).flatten.length + (rs.drop i).flatten.length :=
    fun i => by
      rw [← List.length_append, ← List.flatten_append, List.take_append_drop]
  refine ⟨?_, List.pairwise_iff_getElem.mpr fun i j hi hj hij => ?_, fun x hx => ?_⟩
  · cases rs <;> rfl
  · rw [hget, hget]
    have : (rs.take j).flatten.length =
        (rs.take i).flatten.length + ((rs.take j).drop i).flatten.length := by
      rw [← List.length_append, ← List.flatten_append]
      have ht : (rs.take j).take i = rs.take i := by rw [List.take_take, Nat.min_eq_left (by omega)]
      rw [← ht, List.take_append_drop]
    omega
  · obtain ⟨i, hi, rfl⟩ := List.mem_iff_getElem.mp hx
    rw [hget, hsplit i]
    push_cast
    omega

/-- Where rows start that are written from `k` on. -/
def startsFrom (k : Int) : List (List α) → List Int
  | [] => []
  | r :: rs => k :: startsFrom (k + r.length) rs

theorem offsetsFrom_eq_starts :
    offsetsFrom k rs = startsFrom k rs ++ [k + rs.flatten.length] := by
  induction rs generalizing k with
  | nil => simp [offsetsFrom, startsFrom]
  | cons r rs ih =>
    rw [offsetsFrom, ih, startsFrom, List.cons_append, List.flatten_cons, List.length_append]
    push_cast
    rw [Int.add_assoc]

@[simp] theorem length_startsFrom : (startsFrom k rs).length = rs.length := by
  induction rs generalizing k with
  | nil => rfl
  | cons r rs ih => rw [startsFrom, List.length_cons, ih, List.length_cons]

theorem startsFrom_append {qs : List (List α)} : startsFrom k (rs ++ qs) =
    startsFrom k rs ++ startsFrom (k + rs.flatten.length) qs := by
  induction rs generalizing k with
  | nil => simp [startsFrom]
  | cons r rs ih =>
    rw [List.cons_append, startsFrom, ih, startsFrom, List.cons_append, List.flatten_cons,
      List.length_append]
    push_cast
    rw [Int.add_assoc]

/-- Moving all rows. -/
theorem map_startsFrom (c : Int) : (startsFrom k rs).map (· + c) = startsFrom (k + c) rs := by
  induction rs generalizing k with
  | nil => rfl
  | cons r rs ih =>
    rw [startsFrom, List.map_cons, ih, startsFrom]
    congr 2
    omega

theorem startsFrom_getElem? {v : Nat} (hv : v < rs.length) :
    (startsFrom k rs)[v]? = some (k + (rs.take v).flatten.length) := by
  have hget := offsetsFrom_getD (k := k) (Nat.le_of_lt hv)
  have hlt : v < (offsetsFrom k rs).length := by
    rw [length_offsetsFrom]
    omega
  rw [List.getD_eq_getElem?_getD, List.getElem?_eq_getElem hlt] at hget
  have hsame : (offsetsFrom k rs)[v]? = (startsFrom k rs)[v]? := by
    rw [offsetsFrom_eq_starts, List.getElem?_append_left (by rw [length_startsFrom]; exact hv)]
  rw [← hsame, List.getElem?_eq_getElem hlt, ← hget]
  rfl

theorem mem_startsFrom {x : Int} (h : x ∈ startsFrom k rs) : k ≤ x ∧ x ≤ k + rs.flatten.length := by
  induction rs generalizing k with
  | nil => cases h
  | cons r rs ih =>
    rw [List.flatten_cons, List.length_append]
    rcases List.mem_cons.mp h with rfl | h
    · omega
    · have := ih h
      omega

theorem take_startsFrom (n : Nat) : (startsFrom k rs).take n = startsFrom k (rs.take n) := by
  induction rs generalizing k n with
  | nil => simp [startsFrom]
  | cons r rs ih =>
    cases n with
    | zero => simp [startsFrom]
    | succ n => rw [startsFrom, List.take_succ_cons, ih, List.take_succ_cons, startsFrom]

theorem drop_startsFrom (n : Nat) : (startsFrom k rs).drop n =
    startsFrom (k + (rs.take n).flatten.length) (rs.drop n) := by
  induction rs generalizing k n with
  | nil => simp [startsFrom]
  | cons r rs ih =>
    cases n with
    | zero => simp
    | succ n =>
      rw [startsFrom, List.drop_succ_cons, ih, List.take_succ_cons, List.flatten_cons,
        List.length_append, List.drop_succ_cons]
      push_cast
      rw [Int.add_assoc]

/-- A graph without unused entries is the one that its rows make. -/
theorem Valid.eq_offsets {off : List Int} {ent : List α} (h : Valid off ent)
    (hlast : off.getLast? = some (ent.length : Int)) :
    off = offsets (rows off ent) ∧ ent = (rows off ent).flatten := by
  have hpos := h.length_pos
  have hend : off.getD (off.length - 1) 0 = ent.length := by
    rw [List.getLast?_eq_getElem?] at hlast
    rw [List.getD_eq_getElem?_getD, hlast]
    rfl
  constructor
  · refine List.ext_getElem (by rw [length_offsets, length_rows]; omega) fun v hv hv' => ?_
    -- both count the entries in front of row `v`
    have hget : (offsets (rows off ent)).getD v 0 = off.getD v 0 := by
      have h₀ := h.getD_nonneg hv
      have h₁ := h.getD_le hv
      rw [offsets_getD (by rw [length_rows]; omega), h.flatten_take_rows hv, List.length_take]
      omega
    rw [List.getD_eq_getElem?_getD, List.getD_eq_getElem?_getD, List.getElem?_eq_getElem hv,
      List.getElem?_eq_getElem hv'] at hget
    exact hget.symm
  · rw [h.flatten_rows, hend, Int.toNat_natCast, List.take_length]

/-- Reading the rows back. -/
theorem row_offsets {v : Nat} (hv : v < rs.length) : row (offsets rs) rs.flatten v = rs[v] := by
  have htake : rs.take (v + 1) = rs.take v ++ [rs[v]] := by
    rw [List.take_add_one, List.getElem?_eq_getElem hv]
    rfl
  -- the entries are those before the row, those of the row and those behind it
  have hflat : rs.flatten = ((rs.take v).flatten ++ rs[v]) ++ (rs.drop (v + 1)).flatten := by
    rw [← List.flatten_concat, ← htake, ← List.flatten_append, List.take_append_drop]
  have hlen : ((offsets rs).getD (v + 1) 0).toNat = ((rs.take v).flatten ++ rs[v]).length := by
    rw [offsets_getD (by omega), htake, List.flatten_concat]
    omega
  rw [row, hlen, offsets_getD (by omega), hflat, List.take_left', Int.toNat_natCast,
    List.drop_left']
  · rfl
  · rfl

theorem rows_offsets : rows (offsets rs) rs.flatten = rs := by
  refine List.ext_getElem (by rw [length_rows, length_offsets, Nat.add_sub_cancel]) fun v hv hv' => ?_
  have hget : (rows (offsets rs) rs.flatten)[v]? = some (row (offsets rs) rs.flatten v) :=
    rows_getElem? (by rw [length_offsets]; omega)
  rw [List.getElem?_eq_getElem hv, row_offsets hv'] at hget
  exact Option.some_inj.mp hget

end Offsets

end Csr

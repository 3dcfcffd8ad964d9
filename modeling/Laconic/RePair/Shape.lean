import Laconic.RePair.RoundTrip

/-!
# Re-Pair: the shape of the compressed graph

The rows after the vertices are the rules.  Each has two entries, vertices or earlier rules, and
each rule is used by a vertex or by a later rule.
-/

namespace Laconic.RePair

open Slp

/-- The returned offsets and rows, for a graph of `V` vertices. -/
structure Shape (V : Nat) (maxSymbol : Int) (out : Compressed) : Prop where
  first : out.vlist.head? = some 0
  mono : out.vlist.Pairwise (· ≤ ·)
  last : out.vlist.getLast? = some (out.elist.length : Int)
  length : (out.vlist.length : Int) = V + 1 + out.ruleCnt
  pairs : ∀ k : Nat, (k : Int) < out.ruleCnt → ∃ a b,
    Csr.row out.vlist out.elist (V + k) = [a, b] ∧ IsRef maxSymbol k a ∧ IsRef maxSymbol k b
  used : ∀ k : Nat, (k : Int) < out.ruleCnt →
    (∃ v, v < V ∧ maxSymbol + k ∈ Csr.row out.vlist out.elist v) ∨
      ∃ j : Nat, k < j ∧ (j : Int) < out.ruleCnt ∧
        maxSymbol + k ∈ Csr.row out.vlist out.elist (V + j)

section Shape

variable {vlist elist t : List Int} {maxSymbol : Int} {out : Compressed} {rules : List Tpair}
  {k : Nat}

/-- The final text ends in a separator when there is a vertex. -/
theorem Ran.last_isSep (h : GraphInput vlist elist maxSymbol)
    (hr : Ran vlist elist maxSymbol out t rules) (hpos : 1 < vlist.length) :
    ∃ σ, t.getLast? = some σ ∧ isSep maxSymbol (maxSymbol * 2) σ = true := by
  have hrows : Csr.rows vlist elist ≠ [] := by
    apply List.ne_nil_of_length_pos
    rw [Csr.length_rows]
    omega
  obtain ⟨rs, r, hrs⟩ := (List.eq_nil_or_concat' (Csr.rows vlist elist)).resolve_left hrows
  have hlast : (joinRows maxSymbol (Csr.rows vlist elist)).getLast? =
      some (maxSymbol + rs.length) := by
    rw [hrs, joinRows_concat, List.getLast?_concat]
  rcases h.mem_text (List.mem_of_getLast? hlast) with hx | ⟨hge, hlt, hone⟩
  · omega
  · exact ⟨_, hr.wf.last _ hlt hone hlast, decide_eq_true ⟨hge, hlt⟩⟩

/-- A rule symbol of the final text is an entry of some vertex. -/
theorem Ran.exists_row (h : GraphInput vlist elist maxSymbol)
    (hr : Ran vlist elist maxSymbol out t rules) (hk : maxSymbol * 2 + k ∈ t) :
    ∃ v, v < vlist.length - 1 ∧ maxSymbol + k ∈ Csr.row out.vlist out.elist v := by
  have hsep : isSep maxSymbol (maxSymbol * 2) (maxSymbol * 2 + k) = false :=
    decide_eq_false (by omega)
  have hlen := hr.length_textRows h
  rw [textRows, List.length_map] at hlen
  have hpos : 1 < vlist.length := by
    by_contra hle
    -- without vertices there is nothing the text could stand for
    have hnil : Csr.rows vlist elist = [] :=
      List.eq_nil_of_length_eq_zero (by rw [Csr.length_rows]; omega)
    have hexp := hr.wf.expands
    rw [hnil] at hexp
    refine hexp.ne_nil (fun x zs hz => ?_) (List.ne_nil_of_mem hk) rfl
    obtain ⟨-, P, -, -, rfl⟩ := ruleRhs_eq_some hz
    exact List.cons_ne_nil _ _
  have hcut : maxSymbol * 2 + k ∈ ([] : List Int) ∨
      (maxSymbol * 2 + k ∈ t ∧ isSep maxSymbol (maxSymbol * 2) (maxSymbol * 2 + k) = false) :=
    Or.inr ⟨hk, hsep⟩
  obtain ⟨r, hrow, hmem⟩ := exists_mem_cutFrom hcut (hr.last_isSep h hpos)
  obtain ⟨v, hv, rfl⟩ := List.mem_iff_getElem.mp hrow
  refine ⟨v, by rw [cut] at hlen; omega, ?_⟩
  rw [hr.row_vertex h (List.getElem?_eq_getElem hv), ← renumber_rule h.maxSymbol_nonneg]
  exact List.mem_map_of_mem hmem

theorem Ran.shape (h : GraphInput vlist elist maxSymbol)
    (hr : Ran vlist elist maxSymbol out t rules) : Shape (vlist.length - 1) maxSymbol out := by
  have h0 := h.maxSymbol_nonneg
  have hcnt := hr.ruleCnt h
  have hvalid : Csr.Valid out.vlist out.elist := by
    rw [hr.vlist_eq, hr.elist_eq]
    exact Csr.valid_offsets
  refine ⟨hvalid.first, hvalid.mono, ?_, ?_, fun k hk => ?_, fun k hk => ?_⟩
  · rw [hr.vlist_eq, hr.elist_eq]
    exact Csr.offsets_getLast?
  · rw [hr.length_vlist h, hcnt]
    push_cast
    omega
  · rw [hcnt] at hk
    have hP := List.getElem?_eq_getElem (by omega : k < rules.length)
    obtain ⟨hl, hr'⟩ := hr.entry_rule h hP
    exact ⟨_, _, hr.row_rule h hP, hl.isRef h0, hr'.isRef h0⟩
  · rw [hcnt] at hk
    rcases hr.wf.used k (by dsimp only; omega) with hmem | ⟨j, P, hkj, hP, hPk⟩
    · exact Or.inl (hr.exists_row h hmem)
    · -- the rule refers to rule `k` with one of its two entries
      have hj := (List.getElem?_eq_some_iff.mp hP).1
      refine Or.inr ⟨j, hkj, by rw [hcnt]; exact Int.ofNat_lt.mpr hj, ?_⟩
      rw [hr.row_rule h hP, ← renumber_rule h0]
      rcases hPk with hPk | hPk
      · rw [hPk]
        exact List.mem_cons_self
      · rw [hPk]
        exact List.mem_cons_of_mem _ List.mem_cons_self

/-- Every graph that the compressor accepts gets a grammar of this shape. -/
theorem compressCsr_shape (h : GraphInput vlist elist maxSymbol)
    (hout : compressCsr vlist elist maxSymbol = .ok out) :
    Shape (vlist.length - 1) maxSymbol out := by
  obtain ⟨t, rules, hran⟩ := compressCsr_ran h hout
  exact hran.shape h

theorem compressCsr_shape_two_rows :
    ∃ out, compressCsr [0, 5, 9] [0, 1, 0, 1, 1, 0, 1, 1, 0] 2 = .ok out ∧ out.ruleCnt = 2 ∧
      Shape 2 2 out :=
  ⟨⟨[0, 2, 4, 6, 8], [2, 3, 3, 0, 0, 1, 2, 1], 2, 2⟩, by decide +kernel, rfl,
    compressCsr_shape (⟨⟨rfl, by decide, by decide⟩, by decide, by decide⟩ :
      GraphInput [0, 5, 9] [0, 1, 0, 1, 1, 0, 1, 1, 0] 2) (by decide +kernel)⟩

end Shape

end Laconic.RePair

import Laconic.Filter.Complete
import Laconic.Lib.SlpSum

/-!
# The rule filter: the result is a grammar that is smaller than the graph

What the filter returns is again a graph without cycles of rules, with a row and a reference for
every rule, so that every stage that takes a compressed graph takes the result.  A rule that is left
saves more than the threshold, and together the rules save that much against the graph with no rule
at all.
-/

namespace Laconic.Filter

open Slp Relation
open RePair (Compressed)

/-! ## The result as an input -/

namespace Rebuilt

variable {vlist elist : List Int} {V k : Nat} {A : Int → Prop} {s : State} {out : Compressed}

/-- The number of rules is a natural number. -/
theorem number_eq (h : Rebuilt vlist elist V k A s out) :
    number V s (V + k) = V + out.ruleCnt.toNat := by
  have hVk := number_mono (V := V) (s := s) (Nat.le_add_right V k)
  rw [number_vertex (Nat.le_refl V)] at hVk
  have := h.ruleCnt_eq
  omega

/-- The vertices keep their numbers, so a node with a higher number is a rule. -/
theorem rule_of_number (h : Rebuilt vlist elist V k A s out) {v : Int} (hA : A v)
    (hv : V ≤ number V s v.toNat) : (V : Int) ≤ v := by
  have hr := h.graph.range v hA
  by_contra hlt
  rw [number_vertex (by omega)] at hv
  omega

/-- A path of references in the new graph comes from one in the input. -/
theorem transGen_old (h : Rebuilt vlist elist V k A s out) {w w' : Int}
    (hpath : TransGen (Refers (csrRhs V V out.vlist out.elist)) w w') :
    ∃ v v', A v ∧ A v' ∧ w = number V s v.toNat ∧ w' = number V s v'.toNat ∧
      TransGen (Refers (csrRhs V V vlist elist)) v v' := by
  have hstep : ∀ {w w' : Int}, Refers (csrRhs V V out.vlist out.elist) w w' →
      ∀ v, A v → w = number V s v.toNat → ∃ v', A v' ∧ w' = number V s v'.toNat ∧
        TransGen (Refers (csrRhs V V vlist elist)) v v' := by
    intro w w' href v hA hw
    obtain ⟨hV, -, hmem⟩ := csrRhs_source href
    rw [hw, Int.toNat_natCast, h.row_number hA] at hmem
    obtain ⟨v', hv', rfl⟩ := List.mem_map.mp hmem
    exact ⟨v', h.graph.closed v hA v' hv', rfl,
      h.graph.refs v hA (h.rule_of_number hA (by omega)) v' hv'⟩
  obtain ⟨w₁, hfirst, -⟩ := TransGen.head'_iff.mp hpath
  obtain ⟨hV, hlen, -⟩ := csrRhs_source hfirst
  rw [h.length_vlist] at hlen
  obtain ⟨v, hA, hv⟩ := h.exists_number (show w.toNat < number V s (V + k) by omega)
  have hw : w = number V s v.toNat := by omega
  clear hfirst w₁
  induction hpath with
  | single href =>
    obtain ⟨v', hA', hv', hpath'⟩ := hstep href v hA hw
    exact ⟨v, v', hA, hA', hw, hv', hpath'⟩
  | tail _ href ih =>
    obtain ⟨u, v', hu, hA', hw', hv', hpath'⟩ := ih
    obtain ⟨v'', hA'', hv'', hlast⟩ := hstep href v' hA' hv'
    exact ⟨u, v'', hu, hA'', hw', hv'', hpath'.trans hlast⟩

theorem acyclic (h : Rebuilt vlist elist V k A s out) (hac : Acyclic (csrRhs V V vlist elist)) :
    Acyclic (csrRhs V V out.vlist out.elist) := by
  intro w hcycle
  obtain ⟨v, v', hA, hA', hv, hv', hpath⟩ := h.transGen_old hcycle
  obtain rfl : v = v' := h.number_inj hA hA' (by omega)
  exact hac v hpath

theorem ruleGraph (hin : RuleGraph vlist elist V k) (h : Rebuilt vlist elist V k A s out) :
    RuleGraph out.vlist out.elist V out.ruleCnt.toNat := by
  have hpres := h.preserved hin
  have hnum := h.number_eq
  have hcnt := h.ruleCnt_eq
  have hlen := h.length_vlist
  refine ⟨hpres.valid, by omega, fun v hv x hx => ?_, h.acyclic hin.acyclic⟩
  have := hpres.refs v (by omega) x hx
  omega

/-- The result is a grammar for any other stage. -/
theorem grammarInput (hin : GrammarInput vlist elist V k) (h : Rebuilt vlist elist V k A s out) :
    GrammarInput out.vlist out.elist V out.ruleCnt.toNat := by
  have hg := h.ruleGraph hin.ruleGraph
  have hnum := h.number_eq
  refine ⟨hg.valid, hg.length, hg.entries, hg.acyclic, fun i hi => ?_⟩
  obtain ⟨v, hA, hv⟩ := h.exists_number (show V + i < number V s (V + k) by omega)
  have hVv := h.rule_of_number hA (by omega)
  rw [← hv, h.row_number hA]
  intro hnil
  exact h.graph.nonempty hin.nonempty v hA hVv (List.map_eq_nil_iff.mp hnil)

end Rebuilt

/-! ## Rules that pay for themselves -/

section Saves

variable {vlist elist : List Int} {V k : Nat}

/-- The nodes from `a` to `b`, as entries of rows. -/
def nodes (a b : Nat) : Finset Int := (Finset.Ico a b).map Nat.castEmbedding

theorem mem_nodes {a b : Nat} {x : Int} : x ∈ nodes a b ↔ (a : Int) ≤ x ∧ x < b := by
  rw [nodes, Finset.mem_map]
  constructor
  · rintro ⟨v, hv, rfl⟩
    rw [Finset.mem_Ico] at hv
    show (a : Int) ≤ (v : Int) ∧ (v : Int) < b
    omega
  · rintro ⟨ha, hb⟩
    exact ⟨x.toNat, Finset.mem_Ico.mpr (by omega), Int.toNat_of_nonneg (by omega)⟩

theorem nodes_union (V k : Nat) : nodes 0 V ∪ nodes V (V + k) = nodes 0 (V + k) := by
  ext x
  rw [Finset.mem_union, mem_nodes, mem_nodes, mem_nodes]
  omega

/-- A sum over nodes is a sum over row numbers. -/
theorem sum_nodes {M : Type} [AddCommMonoid M] (a b : Nat) (f : Int → M) :
    ∑ x ∈ nodes a b, f x = ∑ v ∈ Finset.Ico a b, f v :=
  Finset.sum_map _ _ _

theorem references_eq (hlen : vlist.length = V + k + 1) (x : Int) :
    references (fun v : Int => Csr.row vlist elist v.toNat) (nodes 0 (V + k)) x =
      occurrences vlist elist x := by
  rw [references, sum_nodes, occurrences, List.count_flatten, Csr.rows, hlen, Nat.add_sub_cancel,
    List.map_map, ← Finset.range_eq_Ico]
  rfl

/-- The rows of the vertices and the rows of the rules are all entries. -/
theorem length_elist_eq (hvalid : Csr.Valid vlist elist) (hlen : vlist.length = V + k + 1)
    (hlast : vlist.getLast? = some (elist.length : Int)) :
    (elist.length : Int) = ∑ v ∈ nodes 0 V, ((Csr.row vlist elist v.toNat).length : Int) +
      ∑ r ∈ nodes V (V + k), ((Csr.row vlist elist r.toNat).length : Int) := by
  have hflat : elist.length = ∑ v ∈ Finset.range (V + k), (Csr.row vlist elist v).length := by
    have hel := congrArg List.length (hvalid.eq_offsets hlast).2
    rw [List.length_flatten, Csr.rows, hlen, Nat.add_sub_cancel, List.map_map] at hel
    exact hel
  have hdisj : Disjoint (nodes 0 V) (nodes V (V + k)) := by
    rw [Finset.disjoint_left]
    intro x hx hx'
    have := (mem_nodes.mp hx).2
    have := (mem_nodes.mp hx').1
    omega
  rw [← Finset.sum_union hdisj, nodes_union, sum_nodes, ← Finset.range_eq_Ico, hflat]
  push_cast
  rfl

/-- Every node of a grammar stands for at least one vertex. -/
theorem GrammarInput.one_le_len (h : GrammarInput vlist elist V k) {len : Int → Nat}
    (hlen : Valued (csrRhs V V vlist elist) (fun _ => 1) len) (x : Int) (h0 : 0 ≤ x)
    (hx : x < (V : Int) + k) : 1 ≤ len x := by
  induction x using h.ruleGraph.wellFounded.induction with
  | h x ih =>
    by_cases hV : x < V
    · rw [hlen.terminal x (csrRhs_vertex hV)]
    · have hrhs : csrRhs V V vlist elist x = some (Csr.row vlist elist x.toNat) :=
        csrRhs_row (by omega)
      -- a rule has an entry, and the entry stands for something
      have hne := h.nonempty (x.toNat - V) (by omega)
      rw [show V + (x.toNat - V) = x.toNat by omega] at hne
      obtain ⟨z, hz⟩ := List.exists_mem_of_ne_nil _ hne
      have hzr := h.entries x.toNat (by omega) z hz
      have hone := ih z (TransGen.single ⟨_, hrhs, hz⟩) hzr.1 hzr.2
      rw [hlen.rule x _ hrhs]
      exact Nat.le_trans hone (List.single_le_sum (fun _ _ => Nat.zero_le _) _
        (List.mem_map_of_mem hz))

/-- A graph whose rules all save more than `t` is smaller than the graph it stands for. -/
theorem GrammarInput.saves (h : GrammarInput vlist elist V k)
    (hlast : vlist.getLast? = some (elist.length : Int)) {t : Int}
    (hused : ∀ i, i < k → 1 ≤ occurrences vlist elist (V + i))
    (hpays : ∀ i : Nat, i < k → t < ((occurrences vlist elist (V + i) : Int) - 1) *
      (((Csr.row vlist elist (V + i)).length : Int) - 1) - 1)
    (rows : Nat → List Int)
    (hrows : ∀ v, v < V → Expands (csrRhs V V vlist elist) (Csr.row vlist elist v) (rows v)) :
    ((vlist.length + elist.length : Nat) : Int) + k * t ≤
      (V : Int) + 1 + ∑ v ∈ Finset.range V, ((rows v).length : Int) := by
  have hexp : ∀ x, ∃ ys, Expands (csrRhs V V vlist elist) [x] ys :=
    fun x => h.ruleGraph.exists_expansion [x]
  obtain ⟨len, hval⟩ := exists_valued hexp fun _ => 1
  have hlengths : Lengths (fun v : Int => Csr.row vlist elist v.toNat) (nodes 0 V)
      (nodes V (V + k)) len := by
    refine ⟨?_, fun v hv x hx hxr => ?_, fun r hr => ?_⟩
    · rw [Finset.disjoint_left]
      intro x hx hx'
      have := (mem_nodes.mp hx).2
      have := (mem_nodes.mp hx').1
      omega
    · rw [nodes_union, mem_nodes] at hv
      have hxn := h.entries v.toNat (by omega) x hx
      have hxV : x < V := by
        by_contra hge
        exact hxr (mem_nodes.mpr (by omega))
      exact hval.terminal x (csrRhs_vertex hxV)
    · exact hval.rule r _ (csrRhs_row (mem_nodes.mp hr).1)
  -- a rule is an index behind the vertices
  have hindex : ∀ r ∈ nodes V (V + k), ∃ i : Nat, i < k ∧ r = (V : Int) + i := by
    intro r hr
    rw [mem_nodes] at hr
    exact ⟨(r - V).toNat, by omega, by omega⟩
  have hsaves := hlengths.saves (t := t)
    (fun r hr x hx => by
      have hr' := mem_nodes.mp hr
      have hxn := h.entries r.toNat (by omega) x hx
      exact h.one_le_len hval x hxn.1 hxn.2)
    (fun r hr => by
      obtain ⟨i, hi, rfl⟩ := hindex r hr
      rw [nodes_union, references_eq h.length]
      exact hused i hi)
    (fun r hr => by
      obtain ⟨i, hi, rfl⟩ := hindex r hr
      rw [nodes_union, references_eq h.length, show ((V : Int) + i).toNat = V + i by omega]
      exact hpays i hi)
  -- the sums over the rows of the vertices are the lengths of the expansions
  have htext : ∑ v ∈ nodes 0 V, (((Csr.row vlist elist v.toNat).map len).sum : Int) =
      ∑ v ∈ Finset.range V, ((rows v).length : Int) := by
    rw [sum_nodes, ← Finset.range_eq_Ico]
    refine Finset.sum_congr rfl fun v hv => ?_
    rw [Int.toNat_natCast, hval.sum_eq (hrows v (Finset.mem_range.mp hv)), List.map_const',
      List.sum_replicate_nat, Nat.mul_one]
  have hrules : ∑ r ∈ nodes V (V + k), (((Csr.row vlist elist r.toNat).length : Int) + 1 + t) =
      ∑ r ∈ nodes V (V + k), ((Csr.row vlist elist r.toNat).length : Int) + (k + k * t) := by
    have hcard : (nodes V (V + k)).card = k := by
      rw [nodes, Finset.card_map, Nat.card_Ico, Nat.add_sub_cancel_left]
    simp only [Finset.sum_add_distrib, Finset.sum_const, hcard, nsmul_eq_mul, Int.mul_one]
    omega
  have hel := length_elist_eq h.valid h.length hlast
  have hvl := h.length
  rw [htext, hrules] at hsaves
  push_cast
  omega

end Saves

/-! ## The serial filter -/

section Serial

variable {vlist elist : List Int} {threshold : Int} {V k : Nat}

/-- The result of the serial filter is a grammar in which every rule is used, and is smaller by
`threshold` for each rule, or more, than the graph it stands for. -/
structure Shrunk (vlist elist : List Int) (V : Nat) (threshold : Int) (out : Compressed) : Prop where
  preserved : Preserved vlist elist V out
  grammar : GrammarInput out.vlist out.elist V out.ruleCnt.toNat
  used : ∀ i, i < out.ruleCnt.toNat → ∃ v, v < V + out.ruleCnt.toNat ∧
    ((V + i : Nat) : Int) ∈ Csr.row out.vlist out.elist v
  smaller : ∀ rows : Nat → List Int,
    (∀ v, v < V → Expands (csrRhs V V vlist elist) (Csr.row vlist elist v) (rows v)) →
    ((out.vlist.length + out.elist.length : Nat) : Int) + out.ruleCnt * threshold ≤
      (V : Int) + 1 + ∑ v ∈ Finset.range V, ((rows v).length : Int)

/-- A node that occurs stands in a row. -/
theorem exists_row_of_occurrences (hlen : vlist.length = V + k + 1) {x : Int}
    (hx : 1 ≤ occurrences vlist elist x) : ∃ v, v < V + k ∧ x ∈ Csr.row vlist elist v := by
  obtain ⟨row, hrow, hmem⟩ := List.mem_flatten.mp (List.count_pos_iff.mp hx)
  obtain ⟨v, hv, rfl⟩ := List.mem_map.mp hrow
  rw [List.mem_range] at hv
  exact ⟨v, by omega, hmem⟩

/-- The rows of a graph have no more entries than the graph. -/
theorem sum_rows_le (h : Csr.Valid vlist elist) (hlen : vlist.length = V + 1) :
    ∑ v ∈ Finset.range V, (Csr.row vlist elist v).length ≤ elist.length := by
  have hflat := congrArg List.length h.flatten_rows
  rw [List.length_flatten, Csr.rows, hlen, Nat.add_sub_cancel, List.map_map, List.length_take] at hflat
  have hsum : ∑ v ∈ Finset.range V, (Csr.row vlist elist v).length =
      ((List.range V).map (List.length ∘ Csr.row vlist elist)).sum := rfl
  omega

theorem exists_shrunk (h : GrammarInput vlist elist V k)
    (hused : ∀ i, i < k → ∃ v, v < V + k ∧ ((V + i : Nat) : Int) ∈ Csr.row vlist elist v)
    (hover : filterCsr vlist elist V k threshold ≠ .error .overflow) :
    ∃ out, filterCsr vlist elist V k threshold = .ok out ∧ Shrunk vlist elist V threshold out := by
  obtain ⟨out, hout, s, A, hf⟩ := exists_filtered (Q := fun _ _ => True) h (safe_serial threshold)
    (exactFreq_of_used h hused) (fun _ _ => trivial) (fun _ _ _ _ _ _ _ _ _ _ _ => trivial) hover
  have hgrammar := hf.rebuilt.grammarInput h
  have hpres := hf.rebuilt.preserved h.ruleGraph
  have hnum := hf.rebuilt.number_eq
  have hcnt := hf.rebuilt.ruleCnt_eq
  -- length and frequency of a rule that is left are those of the record, which was judged
  have hrule : ∀ i : Nat, i < out.ruleCnt.toNat → 1 ≤ occurrences out.vlist out.elist (V + i) ∧
      threshold < ((occurrences out.vlist out.elist (V + i) : Int) - 1) *
        (((Csr.row out.vlist out.elist (V + i)).length : Int) - 1) - 1 := by
    intro i hi
    obtain ⟨j, h0, hk, hA, hinfo⟩ := hf.rebuilt.exists_rule (show (i : Int) < out.ruleCnt by omega)
    have hfreq := hf.info.freq j h0 hA
    have hflag := hf.info.flag j h0 hA
    rw [hf.info.passed j h0 hk hA, hf.info.len j h0 hA, hfreq.1] at hflag
    simp only [ruleInfo, RuleInfo.mk.injEq] at hinfo
    rw [← hinfo.1, ← hinfo.2] at hflag
    have hle := of_decide_eq_false hflag.symm
    exact ⟨by have := hfreq.2; omega, Int.not_le.mp hle⟩
  refine ⟨out, hout, hpres, hgrammar, fun i hi => ?_, fun rows hrows => ?_⟩
  · exact exists_row_of_occurrences hgrammar.length (by
      rw [Int.natCast_add]
      exact (hrule i hi).1)
  · have hsaves := hgrammar.saves hpres.last (fun i hi => (hrule i hi).1)
      (fun i hi => (hrule i hi).2) rows fun v hv => by
        obtain ⟨ys, hys, hys'⟩ := hpres.expands v hv
        rwa [(hrows v hv).unique hys]
    rwa [Int.toNat_of_nonneg (by omega)] at hsaves

end Serial

end Laconic.Filter

import Laconic.Filter.Closed
import Laconic.Graph.Propagate
import Laconic.Serial.Pipeline

/-!
# What the drivers deliver

`Re-Pair.py` compresses a whole graph and filters the result, `Laconic_serial_compression.py` compresses
it in parts, merges and filters.  Both end in a graph with the same rows, in which every rule is used
and reached, and which is not larger than the input.  So `check_csr` accepts it, and a propagation over
it is a propagation over the input.
-/

namespace Laconic.Serial

open Slp Graph
open RePair (Compressed compressCsr compressCsr_meets compressCsr_overflow GraphInput RoundTrip Shape
  IsRef toInt insertSpliter_eq HeapInv.maxSqrtu intBound)
open Laconic.Filter (filterCsr GrammarInput Shrunk)
open Check (SameSuccessors checkCsr checkFrom_meets Stored rowWeight)

/-- `main` of `Re-Pair.py` for one data set: the graph it saves, and what the filter makes of it. -/
def rePairMain (vlist elist : List Int) : Run (Compressed × Compressed) := do
  let saved ← compressCsr vlist elist ((vlist.length : Int) - 1)
  let filtered ← filterCsr saved.vlist saved.elist saved.vertexCnt.toNat saved.ruleCnt.toNat 0
  pure (saved, filtered)

/-- The graph `vlist`, `elist` with `V` vertices, in rules that are all used, and not larger. -/
structure Delivered (vlist elist : List Int) (V : Nat) (out : Compressed) : Prop where
  grammar : GrammarInput out.vlist out.elist V out.ruleCnt.toNat
  last : out.vlist.getD (V + out.ruleCnt.toNat) 0 = out.elist.length
  used : ∀ i, i < out.ruleCnt.toNat → ∃ v, v < V + out.ruleCnt.toNat ∧
    ((V + i : Nat) : Int) ∈ Csr.row out.vlist out.elist v
  lossless : ∀ v, v < V → Expands (csrRhs V V out.vlist out.elist) (Csr.row out.vlist out.elist v)
    (Csr.row vlist elist v)
  smaller : out.vlist.length + out.elist.length ≤ vlist.length + elist.length

/-- Faults of a run that only a table or an `int` that is too small can cause. -/
def SizeFault (e : Fault) : Prop := e = .probe ∨ e = .overflow

theorem exists_ok_of_sizeFault {α : Type} {r : Run α} {P : α → Prop} (h : Run.Meets SizeFault r P)
    (hprobe : r ≠ .error .probe) (hover : r ≠ .error .overflow) : ∃ a, r = .ok a ∧ P a := by
  apply h.exists_ok
  rintro e (rfl | rfl)
  · exact hprobe
  · exact hover

section Delivered

variable {vlist elist cvlist celist : List Int} {V k : Nat} {out : Compressed}

/-- The filter delivers what it was given, if that was lossless. -/
theorem Delivered.of_shrunk (horig : Csr.Valid vlist elist) (hlen : vlist.length = V + 1)
    (hs : Shrunk cvlist celist V 0 out)
    (hexp : ∀ v, v < V → Expands (csrRhs V V cvlist celist) (Csr.row cvlist celist v)
      (Csr.row vlist elist v)) : Delivered vlist elist V out := by
  have hpos := hs.grammar.length
  refine ⟨hs.grammar, ?_, hs.used, fun v hv => ?_, ?_⟩
  · have hlast := hs.preserved.last
    rw [List.getLast?_eq_getElem?, hpos, Nat.add_sub_cancel] at hlast
    rw [List.getD_eq_getElem?_getD, hlast]
    rfl
  · obtain ⟨ys, hys, hys'⟩ := hs.preserved.expands v hv
    rwa [hys.unique (hexp v hv)] at hys'
  · have hsmaller := hs.smaller _ hexp
    have hrows := Filter.sum_rows_le horig hlen
    rw [Int.mul_zero, ← Nat.cast_sum] at hsmaller
    omega

theorem Delivered.exists_points (h : Delivered vlist elist V out) (r : Nat) (hV : V ≤ r)
    (hr : r < V + out.ruleCnt.toNat) :
    ∃ v, v < V + out.ruleCnt.toNat ∧ Points out.vlist out.elist v r := by
  obtain ⟨v, hv, hmem⟩ := h.used (r - V) (by omega)
  rw [show V + (r - V) = r by omega] at hmem
  exact ⟨v, hv, hmem⟩

theorem Delivered.orderInput (h : Delivered vlist elist V out) (hV : 1 ≤ V)
    (hk : (out.ruleCnt.toNat : Int) < INIT) :
    OrderInput out.vlist out.elist V out.ruleCnt.toNat :=
  orderInput_of_few h.grammar.ruleGraph h.last hV h.grammar.nonempty
    (fun _ hr hr' => reached_of_used h.grammar.ruleGraph h.exists_points hr hr') hk

theorem Delivered.sameSuccessors (h : Delivered vlist elist V out) {v : Nat} (hv : v < V) :
    SameSuccessors vlist elist out.vlist out.elist V v :=
  ⟨_, h.lossless v hv, .refl _⟩

/-- `check_csr` accepts a graph with the same successors. -/
theorem checkCsr_eq_true (horig : Csr.Valid vlist elist) (hlen : vlist.length = V + 1)
    (hgraph : RuleGraph cvlist celist V k)
    (hsame : ∀ v, v < V → SameSuccessors vlist elist cvlist celist V v) :
    ∃ enough, ∀ fuel, enough ≤ fuel → checkCsr fuel vlist elist cvlist celist V k = .ok true := by
  obtain ⟨weight, hweight⟩ := exists_weight hgraph.wellFounded
    fun x z hxz => Relation.TransGen.single hxz
  obtain ⟨graph, hrun, hsize, hcells⟩ := Filter.csrConvert_eq horig hlen
  obtain ⟨cg, hrun', hsize', hcells'⟩ := Filter.csrConvert_eq hgraph.valid hgraph.length
  have hstored : Stored cvlist celist V k cg := ⟨hgraph, by rw [hsize']; push_cast; rfl, hcells'⟩
  refine ⟨((List.range V).map (rowWeight cvlist celist weight)).sum + 1, fun fuel hfuel => ?_⟩
  have hbound : ∀ v, v < V → rowWeight cvlist celist weight v < fuel := by
    intro v hv
    have := List.le_sum_of_mem (List.mem_map_of_mem (f := rowWeight cvlist celist weight)
      (List.mem_range.mpr hv))
    omega
  have hmeets := checkFrom_meets hstored hsize hcells weight hweight hbound V 0 (by omega)
  obtain ⟨b, hb, hiff⟩ := hmeets.exists_ok fun e he => he.elim
  obtain rfl := hiff.mpr fun v _ hv => hsame v hv
  unfold checkCsr
  rw [hrun, Run.ok_bind, hrun', Run.ok_bind]
  exact hb

theorem Delivered.checked (h : Delivered vlist elist V out) (horig : Csr.Valid vlist elist)
    (hlen : vlist.length = V + 1) : ∃ enough, ∀ fuel, enough ≤ fuel →
      checkCsr fuel vlist elist out.vlist out.elist V out.ruleCnt.toNat = .ok true :=
  checkCsr_eq_true horig hlen h.grammar.ruleGraph fun _ hv => h.sameSuccessors hv

end Delivered

/-! ## Re-Pair -/

section RePair

variable {vlist elist : List Int} {V : Nat} {W : Int} {c : Compressed}

/-- The compressor returns, or the hash table or an `int` is too small for it. -/
theorem compressCsr_sizeFault (h : GraphInput vlist elist W) :
    Run.Meets SizeFault (compressCsr vlist elist W) (fun out => ∃ t rules, RePair.Ran vlist elist W out t rules) := by
  by_cases hbound : W * 2 < intBound
  · rcases Int.lt_or_le (HeapInv.maxSqrtu * HeapInv.maxSqrtu) (RePair.textLength vlist) with hbig | hsize
    · rw [compressCsr_overflow h hbig]
      exact Or.inr rfl
    · exact (compressCsr_meets h hbound hsize).weaken fun e he => Or.inl he
  · rw [compressCsr, insertSpliter_eq h.valid, Run.ok_bind, toInt, if_neg hbound]
    exact Or.inr rfl

/-- A compressed graph is a grammar for the filter. -/
theorem grammarInput_of_shape (h : PartGrammar V c) (hs : Shape V V c) :
    GrammarInput c.vlist c.elist V c.ruleCnt.toNat := by
  have hlen := hs.length
  have hrules := h.rules
  have hpair : ∀ i, i < c.ruleCnt.toNat → ∃ a b, Csr.row c.vlist c.elist (V + i) = [a, b] ∧
      IsRef V i a ∧ IsRef V i b := fun i hi => hs.pairs i (by omega)
  refine ⟨h.valid, by omega, fun v hv x hx => ?_, acyclic_csrRhs id fun v hv hVv x hx hxV => ?_,
    fun i hi => ?_⟩
  · rcases h.entries v (by omega) x hx with hlow | ⟨j, hj, rfl⟩ <;> omega
  · obtain ⟨a, b, hrow, ha, hb⟩ := hpair (v - V) (by omega)
    rw [show V + (v - V) = v by omega] at hrow
    rw [hrow] at hx
    show x.toNat < v
    rcases List.mem_cons.mp hx with rfl | hx
    · rcases ha with hlow | ⟨j, hj, rfl⟩ <;> omega
    · rw [List.mem_singleton.mp hx] at hxV ⊢
      rcases hb with hlow | ⟨j, hj, rfl⟩ <;> omega
  · obtain ⟨a, b, hrow, -⟩ := hpair i hi
    rw [hrow]
    exact List.cons_ne_nil _ _

/-- Every rule of a compressed graph is used. -/
theorem used_of_shape (h : PartGrammar V c) (hs : Shape V V c) {i : Nat} (hi : i < c.ruleCnt.toNat) :
    ∃ v, v < V + c.ruleCnt.toNat ∧ ((V + i : Nat) : Int) ∈ Csr.row c.vlist c.elist v := by
  have hrules := h.rules
  rw [Int.natCast_add]
  rcases hs.used i (by omega) with ⟨v, hv, hmem⟩ | ⟨j, -, hj, hmem⟩
  · exact ⟨v, by omega, hmem⟩
  · exact ⟨V + j, by omega, hmem⟩

theorem rePairMain_meets (h : GraphInput vlist elist ((vlist.length : Int) - 1))
    (hlen : vlist.length = V + 1) :
    Run.Meets SizeFault (rePairMain vlist elist) (fun out =>
      RoundTrip vlist elist V out.1 ∧ Delivered vlist elist V out.2) := by
  have hW : (vlist.length : Int) - 1 = V := by omega
  rw [rePairMain, hW]
  rw [hW] at h
  apply (compressCsr_sizeFault h).bind
  rintro saved ⟨t, rules, hran⟩
  have hpart := partGrammar_of_ran h hran
  have hshape := hran.shape h
  have hround := hran.roundTrip h
  have hcnt : saved.vertexCnt = V := by
    rw [hran.vertexCnt_eq]
    omega
  rw [show vlist.length - 1 = V by omega] at hshape
  have hgrammar := grammarInput_of_shape hpart hshape
  rw [hcnt, Int.toNat_natCast]
  apply Run.Meets.bind (P := Shrunk saved.vlist saved.elist V 0)
  · by_cases hover : filterCsr saved.vlist saved.elist V saved.ruleCnt.toNat 0 = .error .overflow
    · rw [hover]
      exact Or.inr rfl
    · obtain ⟨out, hout, hs⟩ := Filter.exists_shrunk hgrammar
        (fun i hi => used_of_shape hpart hshape hi) hover
      rw [hout]
      exact hs
  · intro out hs
    refine ⟨hround, Delivered.of_shrunk h.valid hlen hs fun v hv => ?_⟩
    have hexp := hround v (by omega)
    rwa [hcnt] at hexp

end RePair

/-! ## Laconic, serial -/

section Serial

variable {vfile efile : List Int} {V p : Nat} {parts : List Compressed}

/-- What `merge` and the filter return is smaller than what the merged graph stands for. -/
theorem mergeFilter_shrunk {out : Compressed} (h : ∀ c ∈ parts, PartGrammar (vertexTotal parts) c)
    (hshape : ∀ c ∈ parts, Shape c.vertexCnt.toNat (vertexTotal parts) c) (hV : vertexTotal parts = V)
    (hout : mergeFilter parts = .ok out) :
    ∃ merged : Compressed, Shrunk merged.vlist merged.elist V 0 out := by
  unfold mergeFilter at hout
  obtain ⟨merged, hmerge, hfilter⟩ := Run.bind_eq_ok.mp hout
  have hlayout := (merge_meets h (Int.le_refl 0) fun j part _ hj => by omega).of_ok hmerge
  have hrules : 0 ≤ ruleTotal parts := by
    have hmono := ruleOffset_mono h (Nat.zero_le parts.length)
    rwa [ruleOffset_length] at hmono
  have hcntV : merged.vertexCnt.toNat = V := by
    rw [hlayout.vertexCnt, hV, Int.toNat_natCast]
  have hcntK : ruleTotal parts = (merged.ruleCnt.toNat : Int) := by
    rw [hlayout.ruleCnt, Int.toNat_of_nonneg hrules]
  rw [hcntV] at hfilter
  obtain ⟨out', hout', hs⟩ := Filter.exists_shrunk (hlayout.grammar h hshape hV hcntK)
    (fun i hi => hlayout.used h hshape hV hcntK hi) (by rw [hfilter]; exact fun hc => by cases hc)
  rw [hfilter] at hout'
  obtain rfl := Except.ok.inj hout'
  exact ⟨merged, hs⟩

theorem mergeFilter_delivers (h : PipelineInput vfile efile p) (hlen : vfile.length = V + 1)
    (hfits : Fits V p) (hnum : parts.length = p)
    (hok : ∀ i c, parts[i]? = some c → PartOk vfile efile V p i c) :
    Run.Meets SizeFault (mergeFilter parts) (Delivered vfile efile V) := by
  have hp := h.parts
  by_cases hover : mergeFilter parts = .error .overflow
  · rw [hover]
    exact Or.inr rfl
  · obtain ⟨out, hout, hloss⟩ := mergeFilter_lossless hlen hfits hp hnum hok hover
    have hV := vertexTotal_eq hfits hp hnum hok
    have hparts : ∀ c ∈ parts, PartGrammar (vertexTotal parts) c ∧
        Shape c.vertexCnt.toNat (vertexTotal parts) c := by
      intro c hc
      obtain ⟨i, hi⟩ := List.mem_iff_getElem?.mp hc
      rw [hV]
      exact ⟨(hok i c hi).grammar, (hok i c hi).shape⟩
    obtain ⟨merged, hs⟩ := mergeFilter_shrunk (fun c hc => (hparts c hc).1)
      (fun c hc => (hparts c hc).2) hV hout
    rw [hout]
    refine Delivered.of_shrunk h.valid hlen hs fun v hv => ?_
    -- the merged graph has the expansions of the result
    obtain ⟨ys, hys, hys'⟩ := hs.preserved.expands v hv
    have hrow := hloss v (by omega)
    rw [show vfile.length - 1 = V by omega] at hrow
    rwa [hys'.unique hrow] at hys

theorem serialPipeline_meets (h : PipelineInput vfile efile p) (hlen : vfile.length = V + 1)
    (hsmall : V < 2 ^ 53) :
    Run.Meets SizeFault (serialPipeline vfile efile p) (Delivered vfile efile V) := by
  have hfits := h.fits (by omega)
  rw [show vfile.length - 1 = V by omega] at hfits
  have hparts : Run.Meets SizeFault (laconicSerial vfile efile p)
      (fun parts => laconicSerial vfile efile p = .ok parts ∧ True) := by
    refine ((Run.meets_mapM (P := fun _ _ => True) fun i hi => ?_).mono fun _ _ => trivial).with_run
    have hstart := hfits.start_le (List.mem_range.mp hi)
    rw [show vfile.length - 1 = V by omega, compressPart_eq h.valid hlen hstart]
    exact (compressCsr_sizeFault (h.graphInput hlen hstart)).mono fun _ _ => trivial
  apply hparts.bind
  rintro parts ⟨hrun, -⟩
  obtain ⟨hnum, hruns⟩ := Run.mapM_range hrun
  rw [show vfile.length - 1 = V by omega] at hruns
  apply mergeFilter_delivers h hlen hfits hnum
  intro i c hc
  have hi := (List.getElem?_eq_some_iff.mp hc).1
  exact h.partOk hlen (hfits.start_le (by omega)) (hruns i c hc)

/-- The entries of a graph, row by row. -/
theorem PipelineInput.row_entries (h : PipelineInput vfile efile p) (hlen : vfile.length = V + 1) :
    ∀ v, v < V → ∀ x ∈ Csr.row vfile efile v, 0 ≤ x ∧ x < (V : Int) := by
  intro v hv x hx
  have hrow : Csr.row vfile efile v ∈ Csr.rows vfile efile :=
    List.mem_of_getElem? (Csr.rows_getElem? (by omega))
  have hentry := h.entries _ hrow x hx
  omega

end Serial

end Laconic.Serial

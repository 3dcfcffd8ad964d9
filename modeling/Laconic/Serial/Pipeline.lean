import Laconic.Filter.Preserve
import Laconic.RePair.Shape
import Laconic.Serial.MergeRun
import Laconic.Serial.Partition

/-!
# The serial pipeline, end to end

The parts are compressed one by one, merged, and filtered.  Each stage has its own numbering: rows
of a part, global vertices, rules of a part from the number of vertices on, rules of the merged
graph, and the rules that the filter keeps.  The expansions of the vertices survive all of them.
-/

namespace Laconic.Serial

open Slp
open RePair (Compressed compressCsr compressCsr_ran compressCsr_meets compressCsr_overflow intBound
  GraphInput textLength RoundTrip Ran Shape IsRef HeapInv.maxSqrtu)
open Laconic.Filter (filterCsr GrammarInput OverflowOnly)

/-- `merge` and `filter_csr` on the compressed parts, with the loop over the parts starting at 0. -/
def mergeFilter (parts : List Compressed) : Run Compressed := do
  let merged ← merge 0 parts
  filterCsr merged.vlist merged.elist merged.vertexCnt.toNat merged.ruleCnt.toNat 0

/-- The three stages of `main`. -/
def serialPipeline (vfile efile : List Int) (partNum : Nat) : Run Compressed := do
  let parts ← laconicSerial vfile efile partNum
  mergeFilter parts

/-- A graph and a number of parts all of which start within the offsets. -/
structure PipelineInput (vfile efile : List Int) (partNum : Nat) : Prop where
  valid : Csr.Valid vfile efile
  vertices : 1 < vfile.length
  entries : ∀ r ∈ Csr.rows vfile efile, ∀ x ∈ r, 0 ≤ x ∧ x < ((vfile.length - 1 : Nat) : Int)
  parts : 1 ≤ partNum
  starts : ∀ i, i < partNum → i * ((vfile.length - 1) / partNum + 1) ≤ vfile.length - 1

/-- The symbols that part `i` is joined to: the edges and the vertices of its range. -/
def partText (vfile : List Int) (partNum i : Nat) : Int :=
  let start := i * ((vfile.length - 1) / partNum + 1)
  let stop := min ((i + 1) * ((vfile.length - 1) / partNum + 1)) (vfile.length - 1)
  vfile.getD stop 0 - vfile.getD start 0 + ((stop : Int) - start)

/-- The vertices of the result have the rows of the graph as their expansions. -/
def Lossless (vfile efile : List Int) (out : Compressed) : Prop :=
  ∀ v, v < vfile.length - 1 →
    Expands (csrRhs (vfile.length - 1 : Nat) (vfile.length - 1 : Nat) out.vlist out.elist)
      (Csr.row out.vlist out.elist v) (Csr.row vfile efile v)

/-! ## The merged graph is a grammar for the filter -/

section Grammar

variable {parts : List Compressed} {merged : Compressed}

/-- Every rule of the merged graph is a rule of a part. -/
theorem exists_rule {r : Int} (h0 : 0 ≤ r) : ∀ n, n ≤ parts.length → r < ruleOffset parts n →
    ∃ (i : Nat) (part : Compressed) (k : Nat), parts[i]? = some part ∧ (k : Int) < part.ruleCnt ∧
      r = ruleOffset parts i + k := by
  intro n
  induction n with
  | zero =>
    intro _ hr
    have hzero : ruleOffset parts 0 = 0 := rfl
    omega
  | succ n ih =>
    intro hn hr
    have hget := List.getElem?_eq_getElem hn
    rw [ruleOffset_succ hget] at hr
    rcases Int.lt_or_le r (ruleOffset parts n) with hlt | hge
    · exact ih (by omega) hlt
    · exact ⟨n, parts[n], (r - ruleOffset parts n).toNat, hget, by omega, by omega⟩

/-- The two entries of a rule, and where the rule stands. -/
theorem Layout.rule_row
    (hshape : ∀ p ∈ parts, Shape p.vertexCnt.toNat (vertexTotal parts) p)
    (hm : Layout parts merged) {r : Int} (h0 : 0 ≤ r) (hr : r < ruleTotal parts) :
    ∃ (i : Nat) (part : Compressed) (k : Nat) (a b : Int), parts[i]? = some part ∧
      (k : Int) < part.ruleCnt ∧ r = ruleOffset parts i + k ∧
      IsRef (vertexTotal parts) k a ∧ IsRef (vertexTotal parts) k b ∧
      Csr.row merged.vlist merged.elist (vertexTotal parts + r).toNat =
        [relocate (vertexTotal parts) (ruleOffset parts i) a,
          relocate (vertexTotal parts) (ruleOffset parts i) b] := by
  obtain ⟨i, part, k, hi, hk, rfl⟩ := exists_rule h0 parts.length (Nat.le_refl _)
    (by rw [ruleOffset_length]; exact hr)
  obtain ⟨a, b, hrow, ha, hb⟩ := (hshape part (List.mem_of_getElem? hi)).pairs k hk
  refine ⟨i, part, k, a, b, hi, hk, rfl, ha, hb, ?_⟩
  rw [← Int.add_assoc, hm.ruleRow i part hi k hk, hrow]
  rfl

/-- A reference of a rule leads to a smaller node. -/
theorem relocate_lt {W x : Int} {k : Nat} (h : IsRef W k x) (offset : Int) :
    relocate W offset x < W + offset + k ∨ relocate W offset x < W := by
  unfold relocate
  rcases h with ⟨-, hlow⟩ | ⟨j, hj, rfl⟩
  · rw [if_neg (by omega)]
    exact Or.inr hlow
  · rw [if_pos (by omega)]
    omega

theorem Layout.grammar (h : ∀ p ∈ parts, PartGrammar (vertexTotal parts) p)
    (hshape : ∀ p ∈ parts, Shape p.vertexCnt.toNat (vertexTotal parts) p)
    (hm : Layout parts merged) {V k : Nat} (hV : vertexTotal parts = V)
    (hk : ruleTotal parts = k) : GrammarInput merged.vlist merged.elist V k := by
  have hlen := hm.length
  -- in every part the rules refer to vertices and to smaller rules of the same part
  have hpairs : ∀ i, i < k → ∃ (j : Nat) (a b : Int) (n : Nat) (offset : Int), 0 ≤ offset ∧
      (i : Int) = offset + n ∧ IsRef V n a ∧ IsRef V n b ∧
      Csr.row merged.vlist merged.elist (V + i) = [relocate V offset a, relocate V offset b] := by
    intro i hi
    obtain ⟨j, part, n, a, b, hj, -, hr, ha, hb, hrow⟩ :=
      hm.rule_row hshape (r := (i : Int)) (by omega) (by omega)
    rw [hV] at ha hb hrow
    rw [show ((V : Int) + i).toNat = V + i by omega] at hrow
    exact ⟨j, a, b, n, ruleOffset parts j, (offset_bounds h hj).2.2.1, hr, ha, hb, hrow⟩
  refine ⟨hm.valid, by omega, fun v hv x hx => ?_, acyclic_csrRhs id fun v hv hVv x hx hxV => ?_,
    fun i hi => ?_⟩
  · have := hm.refs v (by omega) x hx
    omega
  · obtain ⟨-, a, b, n, offset, h0, hi, ha, hb, hrow⟩ := hpairs (v - V) (by omega)
    rw [show V + (v - V) = v by omega] at hrow
    rw [hrow] at hx
    -- the numbers of the nodes are a rank for the references
    show x.toNat < v
    rcases List.mem_cons.mp hx with rfl | hx
    · have := relocate_lt ha offset
      omega
    · rw [List.mem_singleton.mp hx] at hxV ⊢
      have := relocate_lt hb offset
      omega
  · obtain ⟨-, a, b, -, offset, -, -, -, -, hrow⟩ := hpairs i hi
    rw [hrow]
    exact List.cons_ne_nil _ _

/-- Every rule of the merged graph is used. -/
theorem Layout.used (h : ∀ p ∈ parts, PartGrammar (vertexTotal parts) p)
    (hshape : ∀ p ∈ parts, Shape p.vertexCnt.toNat (vertexTotal parts) p)
    (hm : Layout parts merged) {V k : Nat} (hV : vertexTotal parts = V)
    (hk : ruleTotal parts = k) {i : Nat} (hi : i < k) :
    ∃ v, v < V + k ∧ (V : Int) + i ∈ Csr.row merged.vlist merged.elist v := by
  obtain ⟨j, part, n, hj, hn, hr⟩ := exists_rule (Int.natCast_nonneg i) parts.length
    (Nat.le_refl _) (by rw [ruleOffset_length]; omega)
  have hpart := h part (List.mem_of_getElem? hj)
  have hvert := hpart.vertices
  obtain ⟨h₁, h₂, h₃, h₄⟩ := offset_bounds h hj
  have hrel : relocate (vertexTotal parts) (ruleOffset parts j) (vertexTotal parts + n) =
      (V : Int) + i := by
    rw [relocate, if_pos (by omega)]
    omega
  -- the rule is used in its own part, by a vertex or by a later rule
  rcases (hshape part (List.mem_of_getElem? hj)).used n hn with ⟨v, hv, hmem⟩ | ⟨m, -, hm', hmem⟩
  · refine ⟨(vertexOffset parts j + v).toNat, by omega, ?_⟩
    rw [hm.vertexRow j part hj v (by omega), ← hrel]
    exact List.mem_map_of_mem hmem
  · refine ⟨(vertexTotal parts + ruleOffset parts j + m).toNat, by omega, ?_⟩
    rw [hm.ruleRow j part hj m hm', ← hrel]
    exact List.mem_map_of_mem hmem

/-- What the filter keeps of the merged graph. -/
theorem mergeFilter_preserves (h : ∀ p ∈ parts, PartGrammar (vertexTotal parts) p)
    (hshape : ∀ p ∈ parts, Shape p.vertexCnt.toNat (vertexTotal parts) p) {V : Nat}
    (hV : vertexTotal parts = V) (hover : mergeFilter parts ≠ .error .overflow) :
    ∃ merged out, mergeFilter parts = .ok out ∧ Layout parts merged ∧
      Filter.Preserved merged.vlist merged.elist V out := by
  have hmeets := merge_meets h (Int.le_refl 0) fun j part _ hj => by omega
  unfold mergeFilter at hover ⊢
  -- with the counter at 0 all parts are visited, and only an overflow stops `merge_`
  cases hrun : merge 0 parts with
  | error e =>
    rw [hrun] at hmeets hover
    exact absurd (congrArg Except.error (show e = .overflow from hmeets)) hover
  | ok merged =>
    rw [hrun, Run.meets_ok] at hmeets
    rw [hrun, Run.ok_bind] at hover
    have hrules : 0 ≤ ruleTotal parts := by
      have hmono := ruleOffset_mono h (Nat.zero_le parts.length)
      rwa [ruleOffset_length] at hmono
    have hcntV : merged.vertexCnt.toNat = V := by
      rw [hmeets.vertexCnt, hV, Int.toNat_natCast]
    have hcntK : ruleTotal parts = (merged.ruleCnt.toNat : Int) := by
      rw [hmeets.ruleCnt, Int.toNat_of_nonneg hrules]
    rw [hcntV] at hover
    have hg := hmeets.grammar h hshape hV hcntK
    obtain ⟨-, out, -, -, hout, hpres⟩ := Filter.exists_result hg (Filter.safe_serial 0)
      (fun i hi => by
        obtain ⟨v, hv, hmem⟩ := hmeets.used h hshape hV hcntK hi
        exact ⟨rfl, Filter.occurrences_pos hg hv hmem⟩) hover
    refine ⟨merged, out, ?_, hmeets, hpres⟩
    rw [Run.ok_bind, hcntV]
    exact hout

end Grammar

/-! ## One part -/

section Part

variable {vfile efile : List Int} {p i : Nat} {c : Compressed}

/-- With exact division, the starts of the parts say that the ranges fit. -/
theorem PipelineInput.fits (h : PipelineInput vfile efile p) (hsmall : vfile.length - 1 < 2 ^ 53) :
    Fits (vfile.length - 1) p := by
  have hp := h.parts
  have htile : tile (vfile.length - 1) p = (vfile.length - 1) / p + 1 := by
    rw [tile, TrueDiv.truncDiv_eq_div hp hsmall]
  have hreach := Nat.lt_mul_div_succ (vfile.length - 1) hp
  refine ⟨?_, ?_⟩
  · rw [htile]
    exact h.starts (p - 1) (by omega)
  · rw [htile]
    omega

variable {V : Nat}

/-- What a part is made of. -/
theorem compressPart_eq (hvalid : Csr.Valid vfile efile) (hlen : vfile.length = V + 1)
    (hstart : partStart V p i ≤ V) :
    compressPart vfile efile V p i =
      compressCsr (Csr.sliceOffsets vfile (partStart V p i) (partEnd V p i))
        (Csr.sliceEntries vfile efile (partStart V p i)
          ((vfile.getD (partEnd V p i) 0).toNat - (vfile.getD (partStart V p i) 0).toNat + 1)) V := by
  have hle := start_le_end hstart
  have hend := partEnd_le (V := V) (p := p) (i := i)
  have hmono := hvalid.getD_mono hle (by omega)
  have h0 := hvalid.getD_nonneg (by omega : partStart V p i < vfile.length)
  unfold compressPart
  rw [readNth_eq (by omega), Run.ok_bind, readNth_eq (by omega), Run.ok_bind, readRange_eq hle,
    Run.ok_bind]
  -- the range includes its end, which is one entry behind the rows of the part
  have hread : readRange efile (vfile.getD (partStart V p i) 0) (vfile.getD (partEnd V p i) 0) =
      .ok (Csr.sliceEntries vfile efile (partStart V p i)
        ((vfile.getD (partEnd V p i) 0).toNat - (vfile.getD (partStart V p i) 0).toNat + 1)) := by
    have hrange : readRange efile _ _ = _ := readRange_eq
      (by omega : (vfile.getD (partStart V p i) 0).toNat ≤ (vfile.getD (partEnd V p i) 0).toNat)
    rw [Int.toNat_of_nonneg h0, Int.toNat_of_nonneg (by omega)] at hrange
    exact hrange
  rw [hread, Run.ok_bind, Csr.sliceOffsets]

/-- The rows of a part are a graph for the compressor. -/
theorem PipelineInput.graphInput (h : PipelineInput vfile efile p) (hlen : vfile.length = V + 1)
    (hstart : partStart V p i ≤ V) :
    GraphInput (Csr.sliceOffsets vfile (partStart V p i) (partEnd V p i))
      (Csr.sliceEntries vfile efile (partStart V p i)
        ((vfile.getD (partEnd V p i) 0).toNat - (vfile.getD (partStart V p i) 0).toNat + 1)) V := by
  have hle := start_le_end hstart
  have hend := partEnd_le (V := V) (p := p) (i := i)
  have h0 := h.valid.getD_nonneg (by omega : partStart V p i < vfile.length)
  have hmono := h.valid.getD_mono hle (by omega)
  have hslice := Csr.length_sliceOffsets hle (by omega : partEnd V p i < vfile.length)
  refine ⟨h.valid.slice hle (by omega) (by omega), fun r hr x hx => ?_, by omega⟩
  obtain ⟨v, hv, rfl⟩ := List.mem_map.mp hr
  rw [List.mem_range] at hv
  rw [h.valid.row_slice (by omega) (by omega) (by omega)] at hx
  have hentry := h.entries _ (List.mem_of_getElem?
    (Csr.rows_getElem? (by omega : partStart V p i + v + 1 < vfile.length))) x hx
  omega

/-- A result of the compressor is a part for `merge_`. -/
theorem partGrammar_of_ran {vlist elist t : List Int} {rules : List RePair.Tpair} {W : Int}
    (h : GraphInput vlist elist W) (hr : Ran vlist elist W c t rules) : PartGrammar W c := by
  have h0 := h.maxSymbol_nonneg
  have hpos := h.valid.length_pos
  have hcnt := hr.ruleCnt h
  have hvert := hr.vertexCnt_eq
  have hlen := hr.length_vlist h
  have htext := hr.length_textRows h
  rw [RePair.textRows, List.length_map] at htext
  refine ⟨by omega, by omega, ?_, by omega, fun v hv x hx => ?_⟩
  · rw [hr.vlist_eq, hr.elist_eq]
    exact Csr.valid_offsets
  · rw [hcnt, Int.toNat_natCast]
    -- the rows of the vertices are read off the text, the others are the rules
    rcases Nat.lt_or_ge v (vlist.length - 1) with hlt | hge
    · rw [hr.row_vertex h (List.getElem?_eq_getElem (by omega))] at hx
      obtain ⟨y, hy, rfl⟩ := List.mem_map.mp hx
      rcases mem_of_mem_cutFrom (List.getElem_mem _) hy with hnil | ⟨hmem, hsep⟩
      · cases hnil
      · exact (hr.entry_text h hmem hsep).isRef h0
    · have hP := List.getElem?_eq_getElem (by omega : v - (vlist.length - 1) < rules.length)
      obtain ⟨hl, hr'⟩ := hr.entry_rule h hP
      have hrow := hr.row_rule h hP
      rw [show vlist.length - 1 + (v - (vlist.length - 1)) = v by omega] at hrow
      rw [hrow] at hx
      rcases List.mem_cons.mp hx with rfl | hx
      · exact (hl.mono (by omega)).isRef h0
      · rw [List.mem_singleton.mp hx]
        exact (hr'.mono (by omega)).isRef h0

/-- The text of a part, read off the offsets. -/
theorem textLength_part (htile : tile (vfile.length - 1) p = (vfile.length - 1) / p + 1)
    (hpos : 0 < vfile.length) (hstart : partStart (vfile.length - 1) p i ≤ vfile.length - 1) :
    textLength (Csr.sliceOffsets vfile (partStart (vfile.length - 1) p i)
      (partEnd (vfile.length - 1) p i)) = partText vfile p i := by
  have hle := start_le_end hstart
  have hend := partEnd_le (V := vfile.length - 1) (p := p) (i := i)
  have hstop : partEnd (vfile.length - 1) p i =
      min ((i + 1) * ((vfile.length - 1) / p + 1)) (vfile.length - 1) := by
    rw [partEnd, htile]
    split <;> omega
  have hlen := Csr.length_sliceOffsets hle (by omega : partEnd (vfile.length - 1) p i < vfile.length)
  unfold textLength partText
  rw [hlen, Nat.add_sub_cancel, Csr.sliceOffsets_getD (Nat.le_refl _) (by omega),
    show partStart (vfile.length - 1) p i +
      (partEnd (vfile.length - 1) p i - partStart (vfile.length - 1) p i) =
      partEnd (vfile.length - 1) p i by omega, ← hstop, ← htile]
  show _ = vfile.getD (partEnd (vfile.length - 1) p i) 0 -
    vfile.getD (partStart (vfile.length - 1) p i) 0 +
    ((partEnd (vfile.length - 1) p i : Int) - partStart (vfile.length - 1) p i)
  omega

end Part

/-! ## The stages together -/

/-- A compressed part: a grammar with the expansions of its rows. -/
structure PartOk (vfile efile : List Int) (V p i : Nat) (c : Compressed) : Prop where
  grammar : PartGrammar V c
  shape : Shape c.vertexCnt.toNat V c
  vertexCnt : c.vertexCnt = (partEnd V p i : Int) - partStart V p i
  expands : ∀ v : Nat, (v : Int) < c.vertexCnt → Expands (csrRhs V c.vertexCnt c.vlist c.elist)
    (Csr.row c.vlist c.elist v) (Csr.row vfile efile (partStart V p i + v))

section Stages

variable {vfile efile : List Int} {V p i : Nat} {c : Compressed} {parts : List Compressed}

theorem PipelineInput.partOk (h : PipelineInput vfile efile p) (hlen : vfile.length = V + 1)
    (hstart : partStart V p i ≤ V) (hrun : compressPart vfile efile V p i = .ok c) :
    PartOk vfile efile V p i c := by
  have hin := h.graphInput hlen hstart
  have hle := start_le_end hstart
  have hend := partEnd_le (V := V) (p := p) (i := i)
  have hcnt := compressPart_vertexCnt hlen hstart hrun
  have hslice := Csr.length_sliceOffsets hle (by omega : partEnd V p i < vfile.length)
  have h0 := h.valid.getD_nonneg (by omega : partStart V p i < vfile.length)
  have hmono := h.valid.getD_mono hle (by omega)
  rw [compressPart_eq h.valid hlen hstart] at hrun
  obtain ⟨t, rules, hran⟩ := compressCsr_ran hin hrun
  have hshape := hran.shape hin
  rw [hslice, Nat.add_sub_cancel] at hshape
  refine ⟨partGrammar_of_ran hin hran, ?_, hcnt, fun v hv => ?_⟩
  · rwa [show c.vertexCnt.toNat = partEnd V p i - partStart V p i by omega]
  · have hround := hran.roundTrip hin v (by omega)
    rwa [h.valid.row_slice (by omega) (by omega) (by omega)] at hround

/-- The parts stand where their ranges start. -/
theorem vertexOffset_eq_start (hfits : Fits V p) (hnum : parts.length = p)
    (hok : ∀ i c, parts[i]? = some c → PartOk vfile efile V p i c) :
    ∀ i, i < p → vertexOffset parts i = partStart V p i := by
  intro i
  induction i with
  | zero =>
    intro _
    simp [vertexOffset, partStart]
  | succ i ih =>
    intro hi
    have hget := List.getElem?_eq_getElem (by omega : i < parts.length)
    rw [vertexOffset_succ hget, ih (by omega), (hok i _ hget).vertexCnt, hfits.end_of_succ hi]
    omega

theorem vertexTotal_eq (hfits : Fits V p) (hp : 0 < p) (hnum : parts.length = p)
    (hok : ∀ i c, parts[i]? = some c → PartOk vfile efile V p i c) : vertexTotal parts = V := by
  have hget := List.getElem?_eq_getElem (by omega : p - 1 < parts.length)
  have hlast := vertexOffset_succ hget
  rw [show p - 1 + 1 = parts.length by omega, vertexOffset_length,
    vertexOffset_eq_start hfits hnum hok (p - 1) (by omega), (hok _ _ hget).vertexCnt,
    hfits.end_last (by omega)] at hlast
  omega

/-- Merging and filtering compressed parts gives the graph back. -/
theorem mergeFilter_lossless (hlen : vfile.length = V + 1) (hfits : Fits V p) (hp : 0 < p)
    (hnum : parts.length = p) (hok : ∀ i c, parts[i]? = some c → PartOk vfile efile V p i c)
    (hover : mergeFilter parts ≠ .error .overflow) :
    ∃ out, mergeFilter parts = .ok out ∧ Lossless vfile efile out := by
  have hV := vertexTotal_eq hfits hp hnum hok
  have hmem : ∀ c ∈ parts, PartGrammar (vertexTotal parts) c ∧
      Shape c.vertexCnt.toNat (vertexTotal parts) c := by
    intro c hc
    obtain ⟨i, hi⟩ := List.mem_iff_getElem?.mp hc
    rw [hV]
    exact ⟨(hok i c hi).grammar, (hok i c hi).shape⟩
  obtain ⟨merged, out, hout, hlayout, hpres⟩ := mergeFilter_preserves
    (fun c hc => (hmem c hc).1) (fun c hc => (hmem c hc).2) hV hover
  refine ⟨out, hout, fun v hv => ?_⟩
  rw [hlen, Nat.add_sub_cancel] at hv ⊢
  -- the part of the vertex, and its row there
  obtain ⟨hi, hlow, hhigh⟩ := hfits.mem_div hv
  generalize v / tile V p = i at hi hlow hhigh
  have hget := List.getElem?_eq_getElem (by omega : i < parts.length)
  have hpart := hok i _ hget
  have hcnt := hpart.vertexCnt
  have hexp := hpart.expands (v - partStart V p i) (by omega)
  rw [← hV] at hexp
  -- from the part to the merged graph, and from there through the filter
  have hmerged := (hlayout.expands_iff (fun c hc => (hmem c hc).1) hget (by omega) _).mpr hexp
  rw [vertexOffset_eq_start hfits hnum hok i hi, hV,
    show ((partStart V p i : Int) + ((v - partStart V p i : Nat) : Int)).toNat = v by omega,
    show partStart V p i + (v - partStart V p i) = v by omega] at hmerged
  obtain ⟨ys, hys, hys'⟩ := hpres.expands v hv
  rwa [hys.unique hmerged] at hys'

/-- A part is compressed exactly when its text is not too long. -/
theorem PipelineInput.part_ok_iff (h : PipelineInput vfile efile p)
    (htile : tile (vfile.length - 1) p = (vfile.length - 1) / p + 1)
    (hstart : partStart (vfile.length - 1) p i ≤ vfile.length - 1)
    (hbound : ((vfile.length - 1 : Nat) : Int) * 2 < intBound)
    (hprobe : compressPart vfile efile (vfile.length - 1) p i ≠ .error .probe) :
    (∃ c, compressPart vfile efile (vfile.length - 1) p i = .ok c) ↔
      partText vfile p i ≤ RePair.HeapInv.maxSqrtu * RePair.HeapInv.maxSqrtu := by
  have hpos := h.vertices
  have hlen : vfile.length = vfile.length - 1 + 1 := by omega
  have hin := h.graphInput hlen hstart
  have htext := textLength_part htile (by omega) hstart
  rw [compressPart_eq h.valid hlen hstart] at hprobe ⊢
  rw [← htext]
  constructor
  · -- a longer text has no square root in an `int`
    rintro ⟨c, hc⟩
    apply Int.not_lt.mp
    intro hbig
    rw [compressCsr_overflow hin hbig] at hc
    cases hc
  · intro hsize
    obtain ⟨c, hc, -⟩ := (compressCsr_meets hin hbound hsize).exists_ok fun e he => by
      rw [show e = .probe from he]
      exact hprobe
    exact ⟨c, hc⟩

/-- The numbers of the vertices are small when those of the symbols are. -/
theorem PipelineInput.bound (h : PipelineInput vfile efile p)
    (hids : ((vfile.length - 1 : Nat) : Int) * 2 + partText vfile p 0 < intBound) :
    ((vfile.length - 1 : Nat) : Int) * 2 < intBound := by
  have hpos := h.vertices
  have hmono := h.valid.getD_mono (Nat.zero_le (min ((0 + 1) * ((vfile.length - 1) / p + 1))
    (vfile.length - 1))) (by omega)
  unfold partText at hids
  simp only [Nat.zero_mul] at hids
  omega

end Stages

end Laconic.Serial

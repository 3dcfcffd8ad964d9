import Laconic.Grammar
import Laconic.RePair.ReadBack
import Laconic.RePair.RepairRun

/-!
# Re-Pair: the compressor is lossless

For a valid graph the compressor returns rows whose expansion is the graph, unless a hash table has
no empty cell, or the text is so long that the search for its square root leaves the range of `int`.
-/

namespace Laconic.RePair

open Slp Relation

/-- A graph that the compressor is meant for: used entries and row numbers below `maxSymbol`. -/
structure GraphInput (vlist elist : List Int) (maxSymbol : Int) : Prop where
  valid : Csr.Valid vlist elist
  entries : ∀ r ∈ Csr.rows vlist elist, ∀ x ∈ r, 0 ≤ x ∧ x < maxSymbol
  vertices : (vlist.length : Int) - 1 ≤ maxSymbol

/-- The number of symbols of the joined rows: the used entries, and one separator per row. -/
def textLength (vlist : List Int) : Int :=
  vlist.getD (vlist.length - 1) 0 + ((vlist.length : Int) - 1)

/-- Row by row, the expansion of the result is the graph. -/
def RoundTrip (vlist elist : List Int) (maxSymbol : Int) (out : Compressed) : Prop :=
  ∀ v : Nat, v + 1 < vlist.length →
    Expands (csrRhs maxSymbol out.vertexCnt out.vlist out.elist)
      (Csr.row out.vlist out.elist v) (Csr.row vlist elist v)

section Text

variable {vlist elist : List Int} {maxSymbol : Int}

theorem GraphInput.length_text (h : GraphInput vlist elist maxSymbol) :
    ((joinRows maxSymbol (Csr.rows vlist elist)).length : Int) = textLength vlist := by
  have hpos := h.valid.length_pos
  have h₁ := h.valid.getD_le (by omega : vlist.length - 1 < vlist.length)
  have h₂ := h.valid.getD_nonneg (by omega : vlist.length - 1 < vlist.length)
  rw [length_joinRows, h.valid.flatten_rows, List.length_take, Csr.length_rows, textLength]
  omega

theorem GraphInput.mem_text (h : GraphInput vlist elist maxSymbol) {x : Int}
    (hx : x ∈ joinRows maxSymbol (Csr.rows vlist elist)) :
    (0 ≤ x ∧ x < maxSymbol) ∨
      (maxSymbol ≤ x ∧ x < maxSymbol * 2 ∧
        (joinRows maxSymbol (Csr.rows vlist elist)).count x = 1) := by
  have hpos := h.valid.length_pos
  have hV := h.vertices
  rcases mem_joinRows hx with ⟨r, hr, hxr⟩ | ⟨h₁, h₂⟩
  · exact Or.inl (h.entries r hr x hxr)
  · refine Or.inr ⟨h₁, ?_, count_joinRows (fun r hr y hy => (h.entries r hr y hy).2) h₁ h₂⟩
    rw [Csr.length_rows] at h₂
    omega

/-- Cutting the joined rows gives the rows. -/
theorem cut_joinRows {alph k : Int} {rs : List (List Int)}
    (hk : maxSymbol ≤ k) (halph : k + rs.length ≤ alph)
    (hrows : ∀ r ∈ rs, ∀ x ∈ r, x < maxSymbol) :
    cut (isSep maxSymbol alph) (joinRows k rs) = rs := by
  induction rs generalizing k with
  | nil => rfl
  | cons r rs ih =>
    rw [List.length_cons] at halph
    push_cast at halph
    have hr : ∀ x ∈ r, isSep maxSymbol alph x = false := fun x hx => by
      have := hrows r List.mem_cons_self x hx
      exact decide_eq_false (by omega)
    have hsep : isSep maxSymbol alph k = true := decide_eq_true ⟨hk, by omega⟩
    rw [joinRows, cut, cutFrom_append hr, cutFrom_sep hsep, List.nil_append,
      ih (by omega) (by omega) fun q hq => hrows q (List.mem_cons_of_mem _ hq)]

end Text

/-! ## Runs on a list -/

theorem map_ofList (l : List Int) :
    (slots (Block.ofList l).size).map (Block.ofList l).cells = l := by
  refine List.ext_getElem? fun k => ?_
  rw [List.getElem?_map, slots_getElem?]
  show Option.map _ (if (k : Int) < (l.length : Int) then some (k : Int) else none) = _
  by_cases hk : k < l.length
  · rw [if_pos (by omega), List.getElem?_eq_getElem hk]
    show some (l.getD ((k : Int)).toNat default) = _
    rw [Int.toNat_natCast, List.getD_eq_getElem?_getD, List.getElem?_eq_getElem hk]
    rfl
  · rw [if_neg (by omega), List.getElem?_eq_none (by omega)]
    rfl

theorem mem_of_cells {l : List Int} {p : Int} (h0 : 0 ≤ p) (hp : p < (Block.ofList l).size) :
    (Block.ofList l).cells p ∈ l := by
  have hmem := List.mem_map_of_mem (f := (Block.ofList l).cells) (mem_slots.mpr ⟨h0, hp⟩)
  rwa [map_ofList] at hmem

/-- The compressor turns a text into a well formed state of the rewriting system. -/
theorem repair_meets {alph : Int} {text : List Int} (hcells : ∀ x ∈ text, 0 ≤ x ∧ x < alph)
    (hne : text ≠ []) (hsize : (text.length : Int) ≤ HeapInv.maxSqrtu * HeapInv.maxSqrtu) :
    Run.Meets ProbeOnly (prepare alph (Block.ofList text) >>= repair) (fun R =>
      ∃ ps, TextInv R.u R.inter ps ∧ Rewriting.Wf alph text (R.view ps)) := by
  rw [Run.meets_bind]
  have hpos : (0 : Int) < text.length := Int.natCast_pos.mpr (List.length_pos_iff.mpr hne)
  refine (prepare_meets hsize (fun p h0 hp => hcells _ (mem_of_cells h0 hp))
    hpos).mono fun R hR => ?_
  obtain ⟨hinv, hn, hrule, hinter⟩ := hR
  have halph : R.n = alph + R.rule.length := by
    rw [hn, hrule]
    simp
  refine (repairLoop_meets (R.c.toNat + 1) hinv halph (by omega)).mono fun R' hR' => ?_
  obtain ⟨ps, htext, hturns⟩ := hR'
  refine ⟨ps, htext, Rewriting.Wf.turns ?_ hturns⟩
  rw [Repair.view, hrule, hinter, map_ofList]
  exact Rewriting.Wf.init fun x hx => (hcells x hx).2

/-- The state of an empty text, which has no pair. -/
def EmptyText (alph : Int) (R : Repair) : Prop :=
  (R.u = 0 ∧ R.c = 0 ∧ R.n = alph ∧ R.rule = []) ∧ ∃ H, extractMax R.S.Heap = .ok (-1, H)

theorem prepare_nil {alph : Int} :
    Run.Meets ProbeOnly (prepare alph (Block.ofList [])) (EmptyText alph) := by
  refine (prepare_index (by decide) (by decide)).mono fun R hR => ?_
  obtain ⟨S, rfl, hS, -, hfreq⟩ := hR
  refine ⟨⟨rfl, rfl, rfl, rfl⟩, ?_⟩
  obtain ⟨id, H, hrun, ⟨rfl, -⟩ | ⟨hid, -⟩⟩ := hS.extractMax_keeps
  · exact ⟨H, hrun⟩
  · -- a record would have a pair that occurs twice
    have h₁ := hfreq id hid
    rw [hS.freq id hid not_false] at h₁
    have h₂ : 0 < cnt (labels (Block.ofList []) (slots (Block.ofList ([] : List Int)).size))
      S.L.size (S.Rec.cells id).pair := by omega
    obtain ⟨p, hp⟩ := exists_of_cnt_pos h₂
    rw [labels_slots, if_neg (by
      have : (Block.ofList ([] : List Int)).size = 0 := rfl
      omega)] at hp
    cases hp

/-- An empty text has no pair to replace. -/
theorem repair_nil {alph : Int} :
    Run.Meets ProbeOnly (prepare alph (Block.ofList []) >>= repair) (fun R =>
      R.u = 0 ∧ R.rule = []) := by
  rw [Run.meets_bind]
  refine prepare_nil.mono fun R hR => ?_
  obtain ⟨⟨hu, -, -, hrule⟩, H, hrun⟩ := hR
  rw [repair, repairLoop, repairRound]
  by_cases hleft : symbolsLeft R.n
  · rw [if_pos hleft, hrun, Run.ok_bind, if_pos rfl, Run.pure_bind, if_neg (by simp), Run.meets_pure]
    exact ⟨hu, hrule⟩
  · rw [if_neg hleft, Run.pure_bind, if_neg (by simp), Run.meets_pure]
    exact ⟨hu, hrule⟩

/-! ## The result -/

/-- What a successful run returns: the rows of the final text `t`, and a row for each rule. -/
structure Ran (vlist elist : List Int) (maxSymbol : Int) (out : Compressed) (t : List Int)
    (rules : List Tpair) : Prop where
  wf : Rewriting.Wf (maxSymbol * 2) (joinRows maxSymbol (Csr.rows vlist elist)) ⟨t, rules⟩
  vlist_eq : out.vlist =
    Csr.offsets (textRows maxSymbol (maxSymbol * 2) t ++ ruleRows maxSymbol rules)
  elist_eq : out.elist =
    (textRows maxSymbol (maxSymbol * 2) t ++ ruleRows maxSymbol rules).flatten
  vertexCnt_eq : out.vertexCnt = (vlist.length : Int) - 1
  ruleCnt_eq : out.ruleCnt = (out.vlist.length : Int) - vlist.length

/-- A text that is not too long is compressed, unless a probe fails. -/
theorem compressCsr_meets {vlist elist : List Int} {maxSymbol : Int}
    (h : GraphInput vlist elist maxSymbol) (hbound : maxSymbol * 2 < intBound)
    (hsize : textLength vlist ≤ HeapInv.maxSqrtu * HeapInv.maxSqrtu) :
    Run.Meets ProbeOnly (compressCsr vlist elist maxSymbol) (fun out =>
      ∃ t rules, Ran vlist elist maxSymbol out t rules) := by
  have hlen := h.length_text
  have hpos := h.valid.length_pos
  have hV := h.vertices
  have hmax : HeapInv.maxSqrtu * HeapInv.maxSqrtu < intBound := by decide
  have hcells : ∀ x ∈ joinRows maxSymbol (Csr.rows vlist elist), 0 ≤ x ∧ x < maxSymbol * 2 :=
    fun x hx => by
      rcases h.mem_text hx with hx | hx <;> omega
  rw [compressCsr, insertSpliter_eq h.valid, Run.ok_bind, toInt, if_pos (by omega), Run.pure_bind,
    toInt, if_pos (by omega), Run.pure_bind]
  generalize htext : joinRows maxSymbol (Csr.rows vlist elist) = text at hlen hcells
  rw [← bind_assoc, Run.meets_bind]
  by_cases hempty : vlist.length = 1
  · -- no row at all
    have hrows : Csr.rows vlist elist = [] :=
      List.eq_nil_of_length_eq_zero (by rw [Csr.length_rows]; omega)
    obtain rfl : text = [] := by rw [← htext, hrows]; rfl
    refine repair_nil.mono fun R hR => ?_
    obtain ⟨hu, hrule⟩ := hR
    have hread : readBack maxSymbol (maxSymbol * 2) R.u R.inter = .ok ⟨0, [0], [], 0⟩ := by
      rw [hu]
      rfl
    rw [hread, Run.ok_bind, hrule, Run.meets_pure]
    refine ⟨[], [], ?_, rfl, rfl, rfl, rfl⟩
    rw [htext]
    exact Rewriting.Wf.init (by simp)
  · -- the last separator occurs once
    have hrows : Csr.rows vlist elist ≠ [] := fun he => by
      have := congrArg List.length he
      rw [Csr.length_rows, List.length_nil] at this
      omega
    obtain ⟨rs, r, hrs⟩ := (List.eq_nil_or_concat' (Csr.rows vlist elist)).resolve_left hrows
    have hlast : text.getLast? = some (maxSymbol + rs.length) := by
      rw [← htext, hrs, joinRows_concat, List.getLast?_concat]
    have hmem := List.mem_of_getLast? hlast
    have hone : text.count (maxSymbol + rs.length) = 1 := by
      rw [← htext] at hmem ⊢
      rcases h.mem_text hmem with hx | hx
      · omega
      · exact hx.2.2
    have hlt := (hcells _ hmem).2
    refine (repair_meets hcells (List.ne_nil_of_mem hmem) (by omega)).mono fun R hR => ?_
    obtain ⟨ps, htextInv, hwf⟩ := hR
    have hend := hwf.last _ hlt hone hlast
    obtain ⟨s, hread, hw⟩ := readBack_eq htextInv
      ⟨_, hend, (decide_eq_true ⟨by omega, hlt⟩ : isSep maxSymbol (maxSymbol * 2) _ = true)⟩
    have hw' := hw.pushRules maxSymbol R.rule
    rw [hread, Run.ok_bind, Run.meets_pure]
    exact ⟨ps.map R.inter.cells, R.rule, by rw [htext]; exact hwf, hw'.vlist,
      by rw [← List.append_nil (List.flatten _)]; exact hw'.elist, rfl, rfl⟩

/-- A symbol that may stand in a row when there are `k` rules: no separator. -/
def IsEntry (maxSymbol : Int) (k : Nat) (x : Int) : Prop :=
  isSep maxSymbol (maxSymbol * 2) x = false ∧ 0 ≤ x ∧ x < maxSymbol * 2 + k

/-- An entry of a row of the result: a vertex, or one of the first `k` rules. -/
def IsRef (maxSymbol : Int) (k : Nat) (x : Int) : Prop :=
  (0 ≤ x ∧ x < maxSymbol) ∨ ∃ j : Nat, j < k ∧ x = maxSymbol + j

section Result

variable {vlist elist t : List Int} {maxSymbol x : Int} {out : Compressed} {rules : List Tpair}
  {P : Tpair} {k : Nat}

theorem IsEntry.cases (h : IsEntry maxSymbol k x) :
    (0 ≤ x ∧ x < maxSymbol) ∨ ∃ j : Nat, j < k ∧ x = maxSymbol * 2 + j := by
  obtain ⟨hsep, h0, hlt⟩ := h
  have hsep' : ¬ (maxSymbol ≤ x ∧ x < maxSymbol * 2) := of_decide_eq_false hsep
  by_cases hx : x < maxSymbol
  · exact Or.inl ⟨h0, hx⟩
  · exact Or.inr ⟨(x - maxSymbol * 2).toNat, by omega, by omega⟩

theorem renumber_vertex (h : x < maxSymbol) : renumber maxSymbol x = x := if_pos h

theorem renumber_rule (h0 : 0 ≤ maxSymbol) (j : Nat) :
    renumber maxSymbol (maxSymbol * 2 + j) = maxSymbol + j := by
  rw [renumber, if_neg (by omega)]
  omega

theorem IsEntry.isRef (h0 : 0 ≤ maxSymbol) (h : IsEntry maxSymbol k x) :
    IsRef maxSymbol k (renumber maxSymbol x) := by
  rcases h.cases with hx | ⟨j, hj, rfl⟩
  · rw [renumber_vertex hx.2]
    exact Or.inl hx
  · rw [renumber_rule h0]
    exact Or.inr ⟨j, hj, rfl⟩

/-- `convert` and the read-back loop number the rules alike. -/
theorem IsEntry.convert_eq (h0 : 0 ≤ maxSymbol) (h : IsEntry maxSymbol k x) :
    convert x maxSymbol = renumber maxSymbol x := by
  rw [convert, renumber]
  rcases h.cases with hx | ⟨j, -, rfl⟩
  · rw [if_neg (by omega), if_pos hx.2]
  · rw [if_neg (by omega : ¬ maxSymbol * 2 + (j : Int) < maxSymbol)]
    split <;> omega

theorem GraphInput.maxSymbol_nonneg (h : GraphInput vlist elist maxSymbol) : 0 ≤ maxSymbol := by
  have hV := h.vertices
  have hpos := h.valid.length_pos
  omega

/-- Symbols below the rules come from the graph, or are separators. -/
theorem Ran.nonneg (h : GraphInput vlist elist maxSymbol)
    (hr : Ran vlist elist maxSymbol out t rules)
    (hx : x ∈ t ∨ ∃ P ∈ rules, P.left = x ∨ P.right = x) : 0 ≤ x := by
  have h0 := h.maxSymbol_nonneg
  by_cases hlt : x < maxSymbol * 2
  · rcases h.mem_text (hr.wf.known x hlt hx) with hx | hx <;> omega
  · omega

/-- No separator enters a rule: each occurs once. -/
theorem Ran.isSep_rule (h : GraphInput vlist elist maxSymbol)
    (hr : Ran vlist elist maxSymbol out t rules) (hP : P ∈ rules) :
    isSep maxSymbol (maxSymbol * 2) P.left = false ∧
      isSep maxSymbol (maxSymbol * 2) P.right = false := by
  have hone : ∀ σ, isSep maxSymbol (maxSymbol * 2) σ = true → P.left = σ ∨ P.right = σ → False := by
    intro σ hs hσ
    have hs' : maxSymbol ≤ σ ∧ σ < maxSymbol * 2 := of_decide_eq_true hs
    rcases h.mem_text (hr.wf.known σ hs'.2 (Or.inr ⟨P, hP, hσ⟩)) with hx | ⟨-, -, hcount⟩
    · omega
    · have hno := (hr.wf.single σ hs'.2 hcount).2 P hP
      exact hσ.elim hno.1 hno.2
  constructor
  · exact Bool.eq_false_iff.mpr fun hs => hone _ hs (Or.inl rfl)
  · exact Bool.eq_false_iff.mpr fun hs => hone _ hs (Or.inr rfl)

theorem Ran.entry_text (h : GraphInput vlist elist maxSymbol)
    (hr : Ran vlist elist maxSymbol out t rules) (hx : x ∈ t)
    (hsep : isSep maxSymbol (maxSymbol * 2) x = false) : IsEntry maxSymbol rules.length x :=
  ⟨hsep, hr.nonneg h (Or.inl hx), hr.wf.symbols x hx⟩

/-- A rule is made of vertices and earlier rules. -/
theorem Ran.entry_rule (h : GraphInput vlist elist maxSymbol)
    (hr : Ran vlist elist maxSymbol out t rules) (hP : rules[k]? = some P) :
    IsEntry maxSymbol k P.left ∧ IsEntry maxSymbol k P.right := by
  have hmem := List.mem_of_getElem? hP
  obtain ⟨hl, hr'⟩ := hr.isSep_rule h hmem
  obtain ⟨hlt, hrt⟩ := hr.wf.earlier k P hP
  exact ⟨⟨hl, hr.nonneg h (Or.inr ⟨P, hmem, Or.inl rfl⟩), hlt⟩,
    ⟨hr', hr.nonneg h (Or.inr ⟨P, hmem, Or.inr rfl⟩), hrt⟩⟩

theorem IsEntry.mono {k' : Nat} (hk : k ≤ k') (h : IsEntry maxSymbol k x) :
    IsEntry maxSymbol k' x :=
  ⟨h.1, h.2.1, by have := h.2.2; omega⟩

/-- The symbols of a rule are entries again. -/
theorem Ran.entry_closed (h : GraphInput vlist elist maxSymbol)
    (hr : Ran vlist elist maxSymbol out t rules) {zs : List Int}
    (hx : ruleRhs (maxSymbol * 2) rules x = some zs) :
    ∀ z ∈ zs, IsEntry maxSymbol rules.length z := by
  obtain ⟨k, P, rfl, hP, rfl⟩ := ruleRhs_eq_some hx
  have hk := (List.getElem?_eq_some_iff.mp hP).1
  obtain ⟨hl, hr'⟩ := hr.entry_rule h hP
  intro z hz
  simp only [List.mem_cons, List.not_mem_nil, or_false] at hz
  rcases hz with rfl | rfl
  · exact hl.mono (by omega)
  · exact hr'.mono (by omega)

/-- The rows of the final text expand to the rows of the graph. -/
theorem Ran.expands (h : GraphInput vlist elist maxSymbol)
    (hr : Ran vlist elist maxSymbol out t rules) :
    List.Forall₂ (Expands (ruleRhs (maxSymbol * 2) rules))
      (cut (isSep maxSymbol (maxSymbol * 2)) t) (Csr.rows vlist elist) := by
  have hcut : cut (isSep maxSymbol (maxSymbol * 2)) (joinRows maxSymbol (Csr.rows vlist elist)) =
      Csr.rows vlist elist := by
    refine cut_joinRows (Int.le_refl _) ?_ fun r hr x hx => (h.entries r hr x hx).2
    have hV := h.vertices
    have hpos := h.valid.length_pos
    rw [Csr.length_rows]
    omega
  rw [← hcut]
  refine hr.wf.expands.cutFrom (fun x hx => ?_) (fun x hx ys hys y hy => ?_) Expands.nil
  · exact ruleRhs_of_lt (of_decide_eq_true hx : maxSymbol ≤ x ∧ x < maxSymbol * 2).2
  · -- no separator stands in a rule, so none comes out of one
    refine hys.closed (C := fun z => isSep maxSymbol (maxSymbol * 2) z = false)
      (fun x zs _ hz z hzz => ?_) (fun z hz => ?_) y hy
    · exact (hr.entry_closed h hz z hzz).1
    · rw [List.mem_singleton.mp hz]
      exact hx

theorem Ran.length_textRows (h : GraphInput vlist elist maxSymbol)
    (hr : Ran vlist elist maxSymbol out t rules) :
    (textRows maxSymbol (maxSymbol * 2) t).length = vlist.length - 1 := by
  rw [textRows, List.length_map, (hr.expands h).length_eq, Csr.length_rows]

theorem Ran.length_vlist (h : GraphInput vlist elist maxSymbol)
    (hr : Ran vlist elist maxSymbol out t rules) :
    out.vlist.length = vlist.length - 1 + rules.length + 1 := by
  rw [hr.vlist_eq, Csr.length_offsets, List.length_append, hr.length_textRows h, ruleRows,
    List.length_map]

theorem Ran.ruleCnt (h : GraphInput vlist elist maxSymbol)
    (hr : Ran vlist elist maxSymbol out t rules) : out.ruleCnt = rules.length := by
  have hpos := h.valid.length_pos
  rw [hr.ruleCnt_eq, hr.length_vlist h]
  omega

/-- The rows of the vertices in the result. -/
theorem Ran.row_vertex (h : GraphInput vlist elist maxSymbol)
    (hr : Ran vlist elist maxSymbol out t rules) {v : Nat} {r : List Int}
    (hv : (cut (isSep maxSymbol (maxSymbol * 2)) t)[v]? = some r) :
    Csr.row out.vlist out.elist v = r.map (renumber maxSymbol) := by
  have hlen := hr.length_textRows h
  have hget : (textRows maxSymbol (maxSymbol * 2) t)[v]? = some (r.map (renumber maxSymbol)) := by
    rw [textRows, List.getElem?_map, hv]
    rfl
  have hlt := (List.getElem?_eq_some_iff.mp hget).1
  rw [hr.vlist_eq, hr.elist_eq, Csr.row_offsets (by rw [List.length_append]; omega)]
  rw [List.getElem_append_left hlt]
  exact (List.getElem?_eq_some_iff.mp hget).2

/-- The rows of the rules in the result. -/
theorem Ran.row_rule (h : GraphInput vlist elist maxSymbol)
    (hr : Ran vlist elist maxSymbol out t rules) (hP : rules[k]? = some P) :
    Csr.row out.vlist out.elist (vlist.length - 1 + k) =
      [renumber maxSymbol P.left, renumber maxSymbol P.right] := by
  have h0 := h.maxSymbol_nonneg
  have hlen := hr.length_textRows h
  obtain ⟨hk, hget⟩ := List.getElem?_eq_some_iff.mp hP
  obtain ⟨hl, hr'⟩ := hr.entry_rule h hP
  have hrow : (ruleRows maxSymbol rules)[k]? =
      some [renumber maxSymbol P.left, renumber maxSymbol P.right] := by
    rw [ruleRows, List.getElem?_map, hP, ← hl.convert_eq h0, ← hr'.convert_eq h0]
    rfl
  rw [← hlen, hr.vlist_eq, hr.elist_eq, Csr.row_offsets (by
    rw [List.length_append, ruleRows, List.length_map]; omega)]
  rw [List.getElem_append_right (by omega)]
  simp only [Nat.add_sub_cancel_left]
  exact (List.getElem?_eq_some_iff.mp hrow).2

/-- The rows of the result expand to the rows of the graph. -/
theorem Ran.roundTrip (h : GraphInput vlist elist maxSymbol)
    (hr : Ran vlist elist maxSymbol out t rules) : RoundTrip vlist elist maxSymbol out := by
  have h0 := h.maxSymbol_nonneg
  have hpos := h.valid.length_pos
  have hfirst : out.vertexCnt = ((vlist.length - 1 : Nat) : Int) := by
    rw [hr.vertexCnt_eq]
    omega
  intro v hv
  obtain ⟨hlen, hall⟩ := List.forall₂_iff_get.mp (hr.expands h)
  rw [Csr.length_rows] at hlen
  have hvlt : v < (cut (isSep maxSymbol (maxSymbol * 2)) t).length := by omega
  have hrow : (Csr.rows vlist elist)[v]? = some (Csr.row vlist elist v) := Csr.rows_getElem? hv
  have hexp := hall v hvlt (by rw [Csr.length_rows]; omega)
  rw [List.get_eq_getElem, List.get_eq_getElem, (List.getElem?_eq_some_iff.mp hrow).2] at hexp
  -- the vertices keep their numbers
  have hsame : (Csr.row vlist elist v).map (renumber maxSymbol) = Csr.row vlist elist v := by
    refine (List.map_congr_left fun x hx => ?_).trans (List.map_id _)
    exact renumber_vertex (h.entries _ (List.mem_of_getElem? hrow) x hx).2
  rw [hr.row_vertex h (List.getElem?_eq_getElem hvlt), ← hsame, hfirst]
  refine hexp.map (C := IsEntry maxSymbol rules.length) (renumber maxSymbol)
    (fun x zs _ hz => hr.entry_closed h hz) (fun x hx hz => ?_) (fun x zs _ hz => ?_) fun x hx => ?_
  · -- a symbol without a rule is a vertex
    rcases hx.cases with hx | ⟨j, hj, rfl⟩
    · rw [renumber_vertex hx.2]
      exact csrRhs_vertex hx.2
    · rw [ruleRhs_rule, List.getElem?_eq_getElem hj] at hz
      cases hz
  · obtain ⟨k, P, rfl, hP, rfl⟩ := ruleRhs_eq_some hz
    rw [renumber_rule h0, csrRhs_rule, hr.row_rule h hP]
    rfl
  · have hmem := mem_of_mem_cutFrom (List.getElem_mem hvlt) hx
    rcases hmem with hmem | ⟨hmem, hs⟩
    · cases hmem
    · exact hr.entry_text h hmem hs

/-- The search for the square root of a longer text leaves the range of `int`. -/
theorem compressCsr_overflow (h : GraphInput vlist elist maxSymbol)
    (hsize : HeapInv.maxSqrtu * HeapInv.maxSqrtu < textLength vlist) :
    compressCsr vlist elist maxSymbol = .error .overflow := by
  have hlen := h.length_text
  rw [compressCsr, insertSpliter_eq h.valid, Run.ok_bind]
  generalize joinRows maxSymbol (Csr.rows vlist elist) = text at hlen
  unfold toInt
  by_cases hb : maxSymbol * 2 < intBound
  · rw [if_pos hb, Run.pure_bind]
    by_cases ht : (text.length : Int) < intBound
    · rw [if_pos ht, Run.pure_bind, prepare_overflow (show _ < (text.length : Int) by omega)]
      rfl
    · rw [if_neg ht]
      rfl
  · rw [if_neg hb]
    rfl

/-- Whatever the compressor returns is the result of such a run. -/
theorem compressCsr_ran (h : GraphInput vlist elist maxSymbol)
    (hout : compressCsr vlist elist maxSymbol = .ok out) :
    ∃ t rules, Ran vlist elist maxSymbol out t rules := by
  have hsize : textLength vlist ≤ HeapInv.maxSqrtu * HeapInv.maxSqrtu := by
    apply Int.not_lt.mp
    intro hbig
    rw [compressCsr_overflow h hbig] at hout
    cases hout
  have hbound : maxSymbol * 2 < intBound := by
    by_contra hb
    rw [compressCsr, insertSpliter_eq h.valid, Run.ok_bind, toInt, if_neg hb] at hout
    cases hout
  exact (compressCsr_meets h hbound hsize).of_ok hout

end Result

end Laconic.RePair

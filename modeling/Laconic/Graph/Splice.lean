import Laconic.Graph.Coo

/-!
# Splicing out the active rows

`splice.h` keeps the rows of a weighted graph that an activity mask selects.  `splice_csr` leaves an
inactive row empty; `splice_csr_condense_row` leaves it out; the two other variants give the columns
new numbers, in the order in which they come up.  The four are one loop with two switches here.
`get_active_row_and_col` of `get_part_graph_info.h` counts what the last variant lists.
-/

namespace Laconic.Graph

/-! ## The functions -/

/-- The variables of the four variants.  A map is a list of pairs with the latest one in front. -/
structure SpliceState (W : Type) where
  backVlist : List Int
  backElist : List Int
  backWeight : List W
  esize : Int
  colMap : List (Int × Int)
  maxID : Int
  activeRow : List Int
  activeCol : List Int

section Model

variable {W : Type}

/-- `if(col_map.find(dst) == col_map.end())`: a new column gets the next number. -/
def SpliceState.addCol (s : SpliceState W) (dst : Int) : SpliceState W :=
  if s.colMap.lookup dst = none then
    { s with
      colMap := (dst, s.maxID) :: s.colMap
      maxID := s.maxID + 1
      activeCol := s.activeCol ++ [dst] }
  else s

/-- The edge to `dst`, which is renumbered when `col` is set. -/
def SpliceState.addEdge (col : Bool) (s : SpliceState W) (dst : Int) (w : W) : SpliceState W :=
  let s := if col then s.addCol dst else s
  { s with
    backElist := s.backElist ++ [if col then (s.colMap.lookup dst).getD 0 else dst]
    backWeight := s.backWeight ++ [w]
    esize := s.esize + 1 }

variable [Inhabited W]

/-- One round of the inner loop. -/
def spliceEdge (col : Bool) (elist : List Int) (weight : List W) (eid : Int) (s : SpliceState W) :
    Run (SpliceState W) := do
  let dst ← (Block.ofList elist).read eid
  let w ← (Block.ofList weight).read eid
  pure (s.addEdge col dst w)

/-- One round of the outer loop; inactive rows are left out when `row` is set. -/
def spliceVertex (row col : Bool) (vlist elist : List Int) (weight : List W) (index : List Bool)
    (vid : Int) (s : SpliceState W) : Run (SpliceState W) := do
  let active ← (Block.ofList index).read vid
  if active then do
    let s ← forEdges (spliceEdge col elist weight) vlist vid
      (if row then { s with activeRow := s.activeRow ++ [vid] } else s)
    pure { s with backVlist := s.backVlist ++ [s.esize] }
  -- an inactive row is left out, or it is empty
  else pure (if row then s else { s with backVlist := s.backVlist ++ [s.esize] })

def spliceLoop (row col : Bool) (vlist elist : List Int) (weight : List W) (index : List Bool) :
    Run (SpliceState W) :=
  Run.forLoop (spliceVertex row col vlist elist weight index) (vlist.length - 1) 0
    ⟨[0], [], [], 0, [], 0, [], []⟩

def spliceCsr (vlist elist : List Int) (weight : List W) (index : List Bool) :
    Run (List Int × List Int × List W) := do
  let s ← spliceLoop false false vlist elist weight index
  pure (s.backVlist, s.backElist, s.backWeight)

def spliceCsrCondenseRow (vlist elist : List Int) (weight : List W) (index : List Bool) :
    Run (List Int × List Int × List W × List Int) := do
  let s ← spliceLoop true false vlist elist weight index
  pure (s.backVlist, s.backElist, s.backWeight, s.activeRow)

def spliceCsrCondenseCol (vlist elist : List Int) (weight : List W) (index : List Bool) :
    Run (List Int × List Int × List W × List Int) := do
  let s ← spliceLoop false true vlist elist weight index
  pure (s.backVlist, s.backElist, s.backWeight, s.activeCol)

def spliceCsrCondenseRowAndCol (vlist elist : List Int) (weight : List W) (index : List Bool) :
    Run (List Int × List Int × List W × List Int × List Int) := do
  let s ← spliceLoop true true vlist elist weight index
  pure (s.backVlist, s.backElist, s.backWeight, s.activeRow, s.activeCol)

end Model

/-- The variables of `get_active_row_and_col`. -/
structure ActiveState where
  activeRow : Int
  activeCol : Int
  colSet : List Int

/-- One round of the inner loop. -/
def activeEdge (elist : List Int) (eid : Int) (s : ActiveState) : Run ActiveState := do
  let dst ← (Block.ofList elist).read eid
  pure (if dst ∈ s.colSet then s
    else { s with colSet := dst :: s.colSet, activeCol := s.activeCol + 1 })

/-- One round of the outer loop. -/
def activeVertex (vlist elist : List Int) (index : List Bool) (vid : Int) (s : ActiveState) :
    Run ActiveState := do
  let active ← (Block.ofList index).read vid
  if active then forEdges (activeEdge elist) vlist vid { s with activeRow := s.activeRow + 1 }
  else pure s

def getActiveRowAndCol (vlist elist : List Int) (index : List Bool) : Run (Int × Int) := do
  let s ← Run.forLoop (activeVertex vlist elist index) (vlist.length - 1) 0 ⟨0, 0, []⟩
  pure (s.activeRow, s.activeCol)

/-! ## Order of first appearance -/

section FirstSeen

variable {α : Type} [DecidableEq α] {l : List α} {x : α}

theorem eraseDups_concat (l : List α) (x : α) :
    (l ++ [x]).eraseDups = if x ∈ l then l.eraseDups else l.eraseDups ++ [x] := by
  have hone : [x].eraseDups = [x] := by
    rw [List.eraseDups_cons]
    rfl
  rw [List.eraseDups_append]
  split
  · rename_i h
    have hnone : [x].removeAll l = [] := by simp [List.removeAll, h]
    rw [hnone]
    exact List.append_nil _
  · rename_i h
    have hnew : [x].removeAll l = [x] := by simp [List.removeAll, h]
    rw [hnew, hone]

theorem nodup_eraseDups (l : List α) : l.eraseDups.Nodup := by
  induction l using List.reverseRecOn with
  | nil => exact List.nodup_nil
  | append_singleton l x ih =>
    rw [eraseDups_concat]
    split
    · exact ih
    · rename_i h
      apply List.nodup_append.mpr
      refine ⟨ih, List.nodup_singleton x, fun a ha b hb heq => h ?_⟩
      rw [← List.mem_singleton.mp hb, ← heq]
      exact List.mem_eraseDups.mp ha

theorem eraseDups_sorted (l : List α) :
    l.eraseDups.Pairwise fun a b => l.idxOf a < l.idxOf b := by
  induction l using List.reverseRecOn with
  | nil => exact List.Pairwise.nil
  | append_singleton l x ih =>
    have hold : l.eraseDups.Pairwise fun a b => (l ++ [x]).idxOf a < (l ++ [x]).idxOf b := by
      apply ih.imp_of_mem
      intro a b ha hb hlt
      rwa [List.idxOf_append_of_mem (List.mem_eraseDups.mp ha),
        List.idxOf_append_of_mem (List.mem_eraseDups.mp hb)]
    rw [eraseDups_concat]
    split
    · exact hold
    · rename_i h
      apply List.pairwise_append.mpr
      refine ⟨hold, List.pairwise_singleton _ _, fun a ha b hb => ?_⟩
      have ha' := List.mem_eraseDups.mp ha
      obtain rfl := List.mem_singleton.mp hb
      have := List.idxOf_lt_length_of_mem ha'
      rw [List.idxOf_append_of_mem ha', List.idxOf_append, if_neg h]
      omega

/-- An entry keeps its number when more entries come. -/
theorem idxOf_eraseDups_concat (h : x ∈ l) (y : α) :
    (l ++ [y]).eraseDups.idxOf x = l.eraseDups.idxOf x := by
  rw [eraseDups_concat]
  split
  · rfl
  · exact List.idxOf_append_of_mem (List.mem_eraseDups.mpr h)

end FirstSeen

/-! ## The rows that are kept -/

section Rows

variable {α : Type} (vlist : List Int) (ent : List α) (index : List Bool)

/-- The active rows with numbers below `n`. -/
def activeRows (n : Nat) : List Nat := (List.range n).filter fun v => index.getD v false

/-- Row `v`, empty when it is not active. -/
def maskedRow (v : Nat) : List α := if index.getD v false then Csr.row vlist ent v else []

/-- The first `n` rows, with the inactive ones empty or left out. -/
def splicedRows (row : Bool) (n : Nat) : List (List α) :=
  if row then (activeRows index n).map (Csr.row vlist ent)
  else (List.range n).map (maskedRow vlist ent index)

variable {vlist ent index}

theorem activeRows_succ (n : Nat) : activeRows index (n + 1) =
    activeRows index n ++ if index.getD n false then [n] else [] := by
  rw [activeRows, List.range_succ, List.filter_append, activeRows]
  congr 1
  rw [List.filter_singleton]
  cases index.getD n false <;> rfl

theorem splicedRows_succ (row : Bool) {n : Nat} (h : index.getD n false = true) :
    splicedRows vlist ent index row (n + 1) =
      splicedRows vlist ent index row n ++ [Csr.row vlist ent n] := by
  cases row with
  | false =>
    rw [splicedRows, if_neg Bool.false_ne_true, List.range_succ, List.map_append,
      List.map_singleton, maskedRow, if_pos h]
    rfl
  | true =>
    rw [splicedRows, if_pos rfl, activeRows_succ, if_pos h, List.map_append, List.map_singleton]
    rfl

theorem splicedRows_succ_of_inactive (row : Bool) {n : Nat} (h : index.getD n false = false) :
    splicedRows vlist ent index row (n + 1) =
      splicedRows vlist ent index row n ++ if row then [] else [[]] := by
  cases row with
  | false =>
    rw [splicedRows, if_neg Bool.false_ne_true, List.range_succ, List.map_append,
      List.map_singleton, maskedRow, h]
    rfl
  | true =>
    rw [splicedRows, if_pos rfl, activeRows_succ, h]
    simp [splicedRows]

/-- Both variants have the same entries. -/
theorem flatten_splicedRows (row : Bool) (n : Nat) : (splicedRows vlist ent index row n).flatten =
    (splicedRows vlist ent index false n).flatten := by
  induction n with
  | zero => cases row <;> rfl
  | succ n ih =>
    cases hn : index.getD n false with
    | true =>
      rw [splicedRows_succ row hn, splicedRows_succ false hn, List.flatten_append,
        List.flatten_append, ih]
    | false =>
      rw [splicedRows_succ_of_inactive row hn, splicedRows_succ_of_inactive false hn,
        List.flatten_append, List.flatten_append, ih]
      cases row <;> rfl

end Rows

/-! ## Edges -/

section Edges

variable {W : Type} {es : List Int} {ws : List W} {s : SpliceState W} {col : Bool}

/-- The numbers of the columns. -/
def numbered (col : Bool) (es : List Int) : List Int :=
  if col then es.map fun x => (es.eraseDups.idxOf x : Int) else es

/-- The columns of `es` are listed and numbered. -/
structure SpliceColInv (es : List Int) (s : SpliceState W) : Prop where
  cols : s.activeCol = es.eraseDups
  next : s.maxID = es.eraseDups.length
  lookup : ∀ x, s.colMap.lookup x = if x ∈ es then some (es.eraseDups.idxOf x : Int) else none

/-- The edges to `es` with the weights `ws` are written. -/
structure SpliceEdgeInv (col : Bool) (es : List Int) (ws : List W) (s : SpliceState W) : Prop where
  weights : s.backWeight = ws
  entries : s.backElist = numbered col es
  count : s.esize = es.length
  cols : col = true → SpliceColInv es s

theorem numbered_concat (es : List Int) (x : Int) : numbered true (es ++ [x]) =
    numbered true es ++ [((es ++ [x]).eraseDups.idxOf x : Int)] := by
  rw [numbered, if_pos rfl, List.map_append, numbered, if_pos rfl, List.map_singleton]
  congr 1
  apply List.map_congr_left
  intro y hy
  rw [idxOf_eraseDups_concat hy]

theorem SpliceColInv.addCol (h : SpliceColInv es s) (x : Int) :
    SpliceColInv (es ++ [x]) (s.addCol x) := by
  unfold SpliceState.addCol
  rw [h.lookup x]
  by_cases hx : x ∈ es
  · -- the column is known
    rw [if_pos hx, if_neg (Option.some_ne_none _)]
    have hsame : (es ++ [x]).eraseDups = es.eraseDups := by rw [eraseDups_concat, if_pos hx]
    refine ⟨by rw [hsame, h.cols], by rw [hsame, h.next], fun y => ?_⟩
    rw [h.lookup y, hsame]
    congr 1
    rw [List.mem_append, List.mem_singleton, eq_iff_iff]
    constructor
    · exact Or.inl
    · rintro (hy | rfl)
      · exact hy
      · exact hx
  · rw [if_neg hx, if_pos rfl]
    have hnew : (es ++ [x]).eraseDups = es.eraseDups ++ [x] := by rw [eraseDups_concat, if_neg hx]
    have hx' : x ∉ es.eraseDups := fun hm => hx (List.mem_eraseDups.mp hm)
    refine ⟨by rw [hnew, h.cols], ?_, fun y => ?_⟩
    · rw [hnew, List.length_append, Int.natCast_add, h.next]
      rfl
    · by_cases hy : y = x
      · subst hy
        rw [List.lookup_cons_self, if_pos (List.mem_append_right _ (List.mem_singleton_self y)),
          hnew, List.idxOf_append, if_neg hx', h.next]
        simp
      · rw [List.lookup_cons, beq_eq_false_iff_ne.mpr hy, h.lookup y]
        by_cases hmem : y ∈ es
        · rw [if_pos hmem, if_pos (List.mem_append_left _ hmem), idxOf_eraseDups_concat hmem]
        · have hmem' : y ∉ es ++ [x] := by
            rw [List.mem_append, List.mem_singleton, not_or]
            exact ⟨hmem, hy⟩
          rw [if_neg hmem, if_neg hmem']

theorem SpliceState.addCol_same (s : SpliceState W) (x : Int) :
    (s.addCol x).backVlist = s.backVlist ∧ (s.addCol x).backElist = s.backElist ∧
      (s.addCol x).backWeight = s.backWeight ∧ (s.addCol x).esize = s.esize ∧
      (s.addCol x).activeRow = s.activeRow := by
  unfold addCol
  split
  · exact ⟨rfl, rfl, rfl, rfl, rfl⟩
  · exact ⟨rfl, rfl, rfl, rfl, rfl⟩

/-- Offsets and the list of rows do not matter for the edges. -/
theorem SpliceEdgeInv.withRows (h : SpliceEdgeInv col es ws s) (offsets rows : List Int) :
    SpliceEdgeInv col es ws { s with backVlist := offsets, activeRow := rows } :=
  ⟨h.weights, h.entries, h.count, fun hc =>
    ⟨(h.cols hc).cols, (h.cols hc).next, (h.cols hc).lookup⟩⟩

theorem SpliceEdgeInv.addEdge (h : SpliceEdgeInv col es ws s) (x : Int) (w : W) :
    SpliceEdgeInv col (es ++ [x]) (ws ++ [w]) (s.addEdge col x w) ∧
      (s.addEdge col x w).backVlist = s.backVlist ∧
      (s.addEdge col x w).activeRow = s.activeRow := by
  have hcount : s.esize + 1 = ((es ++ [x]).length : Int) := by
    rw [h.count, List.length_append, Int.natCast_add]
    rfl
  cases col with
  | false =>
    refine ⟨⟨?_, ?_, hcount, fun hc => absurd hc Bool.false_ne_true⟩, rfl, rfl⟩
    · exact congrArg (· ++ [w]) h.weights
    · exact congrArg (· ++ [x]) h.entries
  | true =>
    obtain ⟨hv, he, hw, hn, hr⟩ := s.addCol_same x
    have hcol := (h.cols rfl).addCol x
    have hnum : ((s.addCol x).colMap.lookup x).getD 0 = ((es ++ [x]).eraseDups.idxOf x : Int) := by
      rw [hcol.lookup x, if_pos (List.mem_append_right _ (List.mem_singleton_self x))]
      rfl
    refine ⟨⟨?_, ?_, ?_, fun _ => ⟨hcol.cols, hcol.next, hcol.lookup⟩⟩, hv, hr⟩
    · change (s.addCol x).backWeight ++ [w] = ws ++ [w]
      rw [hw, h.weights]
    · change (s.addCol x).backElist ++ [((s.addCol x).colMap.lookup x).getD 0] = _
      rw [he, hnum, h.entries, numbered_concat]
    · change (s.addCol x).esize + 1 = _
      rw [hn, hcount]

variable [Inhabited W] {vlist elist : List Int} {weight : List W}

/-- The edges of one row. -/
theorem spliceRow_meets (hvalid : Csr.Valid vlist elist) (hw : weight.length = elist.length)
    {v : Nat} (hv : v + 1 < vlist.length) (h : SpliceEdgeInv col es ws s) :
    Run.Meets (fun _ => False) (forEdges (spliceEdge col elist weight) vlist v s) fun s' =>
      SpliceEdgeInv col (es ++ Csr.row vlist elist v) (ws ++ Csr.row vlist weight v) s' ∧
        s'.backVlist = s.backVlist ∧ s'.activeRow = s.activeRow := by
  apply meets_forRow hvalid hw hv (fun es ws s' => SpliceEdgeInv col es ws s' ∧
    s'.backVlist = s.backVlist ∧ s'.activeRow = s.activeRow) ?_ ⟨h, rfl, rfl⟩
  rintro e he s' es' ws' ⟨hinv, hsv, hsr⟩
  obtain ⟨hnext, hnv, hnr⟩ := hinv.addEdge elist[e] weight[e]
  unfold spliceEdge
  rw [Block.read_ofList he, Run.ok_bind, Block.read_ofList (by omega), Run.ok_bind, Run.meets_pure]
  exact ⟨hnext, hnv.trans hsv, hnr.trans hsr⟩

/-- `get_active_row_and_col` has seen the columns `es`. -/
structure ActiveInv (es : List Int) (s : ActiveState) : Prop where
  count : s.activeCol = es.eraseDups.length
  seen : ∀ x, x ∈ s.colSet ↔ x ∈ es

theorem activeRow_meets (hvalid : Csr.Valid vlist elist) {v : Nat} (hv : v + 1 < vlist.length)
    {s : ActiveState} (h : ActiveInv es s) :
    Run.Meets (fun _ => False) (forEdges (activeEdge elist) vlist v s) fun s' =>
      ActiveInv (es ++ Csr.row vlist elist v) s' ∧ s'.activeRow = s.activeRow := by
  apply meets_forRow hvalid rfl hv
    (fun es (_ : List Int) s' => ActiveInv es s' ∧ s'.activeRow = s.activeRow) ?_ ⟨h, rfl⟩
    (m := elist)
  rintro e he s' es' - ⟨hinv, hsr⟩
  have hseen := hinv.seen elist[e]
  unfold activeEdge
  rw [Block.read_ofList he, Run.ok_bind, Run.meets_pure]
  split
  · rename_i hmem
    have hold := hseen.mp hmem
    refine ⟨⟨?_, fun x => ?_⟩, hsr⟩
    · rw [eraseDups_concat, if_pos hold, hinv.count]
    · rw [hinv.seen x, List.mem_append, List.mem_singleton]
      constructor
      · exact Or.inl
      · rintro (hx | rfl)
        · exact hx
        · exact hold
  · rename_i hmem
    refine ⟨⟨?_, fun x => ?_⟩, hsr⟩
    · rw [eraseDups_concat, if_neg (fun hx => hmem (hseen.mpr hx)), List.length_append,
        Int.natCast_add, ← hinv.count]
      rfl
    · rw [List.mem_cons, hinv.seen x, List.mem_append, List.mem_singleton, or_comm]

end Edges

/-! ## The loops over the vertices -/

section Vertices

variable {W : Type} {vlist elist : List Int} {weight : List W} {index : List Bool} {row col : Bool}

/-- The entries of the active rows below `n`. -/
def splicedEntries {α : Type} (vlist : List Int) (ent : List α) (index : List Bool) (n : Nat) :
    List α :=
  (splicedRows vlist ent index false n).flatten

/-- The first `n` rows are spliced. -/
structure SpliceInv (row col : Bool) (vlist elist : List Int) (weight : List W) (index : List Bool)
    (n : Nat) (s : SpliceState W) : Prop where
  offsets : s.backVlist = Csr.offsets (splicedRows vlist elist index row n)
  rows : s.activeRow = if row then (activeRows index n).map fun v : Nat => (v : Int) else []
  edges : SpliceEdgeInv col (splicedEntries vlist elist index n)
    (splicedEntries vlist weight index n) s

theorem splicedEntries_succ {α : Type} {ent : List α} {n : Nat} (h : index.getD n false = true) :
    splicedEntries vlist ent index (n + 1) =
      splicedEntries vlist ent index n ++ Csr.row vlist ent n := by
  rw [splicedEntries, splicedRows_succ false h, List.flatten_append, List.flatten_singleton,
    splicedEntries]

theorem splicedEntries_succ_of_inactive {α : Type} {ent : List α} {n : Nat}
    (h : index.getD n false = false) :
    splicedEntries vlist ent index (n + 1) = splicedEntries vlist ent index n := by
  rw [splicedEntries, splicedRows_succ_of_inactive false h, List.flatten_append, splicedEntries]
  exact List.append_nil _

variable [Inhabited W]

theorem spliceVertex_meets (hvalid : Csr.Valid vlist elist) (hw : weight.length = elist.length)
    (hi : index.length = vlist.length - 1) {n : Nat} (hn : n + 1 < vlist.length) {s : SpliceState W}
    (h : SpliceInv row col vlist elist weight index n s) :
    Run.Meets (fun _ => False) (spliceVertex row col vlist elist weight index n s)
      (SpliceInv row col vlist elist weight index (n + 1)) := by
  unfold spliceVertex
  rw [Block.read_getD (by omega) false, Run.ok_bind]
  cases hact : index.getD n false with
  | true =>
    rw [if_pos rfl, Run.meets_bind]
    have hstart : SpliceEdgeInv col (splicedEntries vlist elist index n)
        (splicedEntries vlist weight index n)
        (if row then { s with activeRow := s.activeRow ++ [(n : Int)] } else s) := by
      cases row
      · exact h.edges
      · exact h.edges.withRows s.backVlist (s.activeRow ++ [(n : Int)])
    apply (spliceRow_meets hvalid hw hn hstart).mono
    rintro s' ⟨hedges, hv, hr⟩
    rw [Run.meets_pure]
    refine ⟨?_, ?_, ?_⟩
    · have hoff : s'.backVlist = s.backVlist := hv.trans (by cases row <;> rfl)
      have hlen : (splicedRows vlist elist index row n).flatten.length =
          (splicedRows vlist elist index false n).flatten.length :=
        congrArg List.length (flatten_splicedRows row n)
      change s'.backVlist ++ [s'.esize] = _
      rw [hoff, h.offsets, hedges.count, splicedRows_succ row hact, Csr.offsets_concat,
        List.length_append, Int.natCast_add, splicedEntries, hlen]
    · change s'.activeRow = _
      rw [hr, activeRows_succ, if_pos hact]
      cases row
      · exact h.rows
      · change s.activeRow ++ [(n : Int)] = _
        rw [h.rows, if_pos rfl, if_pos rfl, List.map_append, List.map_singleton]
    · rw [splicedEntries_succ hact, splicedEntries_succ hact]
      exact hedges.withRows (s'.backVlist ++ [s'.esize]) s'.activeRow
  | false =>
    rw [if_neg Bool.false_ne_true, Run.meets_pure]
    have hrows : activeRows index (n + 1) = activeRows index n := by
      rw [activeRows_succ, hact]
      exact List.append_nil _
    cases row with
    | true =>
      refine ⟨?_, ?_, ?_⟩
      · rw [splicedRows_succ_of_inactive true hact]
        exact h.offsets.trans (congrArg Csr.offsets (List.append_nil _).symm)
      · rw [hrows]
        exact h.rows
      · rw [splicedEntries_succ_of_inactive hact, splicedEntries_succ_of_inactive hact]
        exact h.edges
    | false =>
      refine ⟨?_, h.rows, ?_⟩
      · change s.backVlist ++ [s.esize] = _
        rw [h.offsets, h.edges.count, splicedRows_succ_of_inactive false hact,
          if_neg Bool.false_ne_true, Csr.offsets_concat, splicedEntries]
        simp
      · rw [splicedEntries_succ_of_inactive hact, splicedEntries_succ_of_inactive hact]
        exact h.edges.withRows (s.backVlist ++ [s.esize]) s.activeRow

/-- Each variant returns, with all rows spliced. -/
theorem spliceLoop_eq (row col : Bool) (hvalid : Csr.Valid vlist elist)
    (hw : weight.length = elist.length) (hi : index.length = vlist.length - 1) :
    ∃ s, spliceLoop row col vlist elist weight index = .ok s ∧
      SpliceInv row col vlist elist weight index (vlist.length - 1) s := by
  have hpos := hvalid.length_pos
  have hstart : SpliceInv row col vlist elist weight index 0 ⟨[0], [], [], 0, [], 0, [], []⟩ := by
    refine ⟨by cases row <;> rfl, by cases row <;> rfl, rfl, by cases col <;> rfl, rfl, fun _ => ?_⟩
    exact ⟨rfl, rfl, fun x => rfl⟩
  apply Run.Meets.exists_ok (E := fun _ => False) ?_ fun e he => he.elim
  refine (Run.meets_forLoop (fun v s => 0 ≤ v ∧
    SpliceInv row col vlist elist weight index v.toNat s) ((vlist.length - 1 : Nat) : Int) ?_ _ 0 _
    (by omega) ⟨Int.le_refl 0, hstart⟩).mono fun s hs => by
      rw [Int.toNat_natCast] at hs
      exact hs.2
  rintro v s hv ⟨h0, hs⟩
  obtain ⟨n, rfl⟩ := Int.eq_ofNat_of_zero_le h0
  rw [Int.toNat_natCast] at hs
  apply (spliceVertex_meets hvalid hw hi (by omega) hs).mono
  intro s' hs'
  exact ⟨by omega, by rw [show ((n : Int) + 1).toNat = n + 1 by omega]; exact hs'⟩

omit [Inhabited W] in
theorem getActiveRowAndCol_eq (hvalid : Csr.Valid vlist elist)
    (hi : index.length = vlist.length - 1) :
    getActiveRowAndCol vlist elist index = .ok ((activeRows index (vlist.length - 1)).length,
      (splicedEntries vlist elist index (vlist.length - 1)).eraseDups.length) := by
  have hpos := hvalid.length_pos
  have hloop : Run.Meets (fun _ => False)
      (Run.forLoop (activeVertex vlist elist index) (vlist.length - 1) 0 ⟨0, 0, []⟩) fun s =>
      s.activeRow = (activeRows index (vlist.length - 1)).length ∧
        ActiveInv (splicedEntries vlist elist index (vlist.length - 1)) s := by
    refine (Run.meets_forLoop (fun v (s : ActiveState) => 0 ≤ v ∧
      s.activeRow = (activeRows index v.toNat).length ∧
      ActiveInv (splicedEntries vlist elist index v.toNat) s) ((vlist.length - 1 : Nat) : Int)
      ?_ _ 0 _ (by omega) ⟨Int.le_refl 0, rfl, rfl, fun x => Iff.rfl⟩).mono fun s hs => by
        rw [Int.toNat_natCast] at hs
        exact hs.2
    rintro v s hv ⟨h0, hcount, hs⟩
    obtain ⟨n, rfl⟩ := Int.eq_ofNat_of_zero_le h0
    rw [Int.toNat_natCast] at hs hcount
    rw [show ((n : Int) + 1).toNat = n + 1 by omega]
    unfold activeVertex
    rw [Block.read_getD (by omega) false, Run.ok_bind]
    cases hact : index.getD n false with
    | true =>
      rw [if_pos rfl]
      apply (activeRow_meets hvalid (by omega) (s := { s with activeRow := s.activeRow + 1 })
        ⟨hs.count, hs.seen⟩).mono
      rintro s' ⟨hs', hr⟩
      refine ⟨by omega, ?_, ?_⟩
      · rw [hr, activeRows_succ, if_pos hact, List.length_append, Int.natCast_add, ← hcount]
        rfl
      · rw [splicedEntries_succ hact]
        exact hs'
    | false =>
      rw [if_neg Bool.false_ne_true, Run.meets_pure, splicedEntries_succ_of_inactive hact,
        activeRows_succ, hact]
      refine ⟨by omega, ?_, hs⟩
      rw [hcount]
      simp
  obtain ⟨s, hrun, hcount, hs⟩ := hloop.exists_ok fun e he => he.elim
  unfold getActiveRowAndCol
  rw [hrun, Run.ok_bind, hcount, hs.count]
  rfl

end Vertices

section Variants

variable {α : Type} {vlist : List Int} {ent : List α} {index : List Bool} {n v : Nat}

theorem length_splicedRows : (splicedRows vlist ent index false n).length = n := by
  rw [splicedRows, if_neg Bool.false_ne_true, List.length_map, List.length_range]

theorem splicedRows_getElem (hv : v < (splicedRows vlist ent index false n).length) :
    (splicedRows vlist ent index false n)[v] = maskedRow vlist ent index v := by
  simp [splicedRows]

/-- Row by row, the variant without inactive rows lists the other one's active rows. -/
theorem splicedRows_true (n : Nat) : splicedRows vlist ent index true n =
    (activeRows index n).map (maskedRow vlist ent index) := by
  rw [splicedRows, if_pos rfl]
  apply List.map_congr_left
  intro v hv
  rw [maskedRow, if_pos (List.mem_filter.mp hv).2]

/-- Entries and weights have the same offsets. -/
theorem offsets_splicedRows {β : Type} {ent' : List β} (hlen : ent'.length = ent.length)
    (row : Bool) (n : Nat) : Csr.offsets (splicedRows vlist ent index row n) =
      Csr.offsets (splicedRows vlist ent' index row n) := by
  apply Csr.offsetsFrom_congr
  have hrow : ∀ v, (Csr.row vlist ent v).length = (Csr.row vlist ent' v).length := by
    intro v
    rw [Csr.row, Csr.row, List.length_drop, List.length_take, List.length_drop, List.length_take,
      hlen]
  cases row with
  | true =>
    rw [splicedRows, splicedRows, if_pos rfl, if_pos rfl, List.map_map, List.map_map]
    exact List.map_congr_left fun v _ => hrow v
  | false =>
    rw [splicedRows, splicedRows, if_neg Bool.false_ne_true, if_neg Bool.false_ne_true,
      List.map_map, List.map_map]
    apply List.map_congr_left
    intro v _
    rw [Function.comp_apply, Function.comp_apply, maskedRow, maskedRow]
    split
    · exact hrow v
    · rfl

/-- The rows of the result of `splice_csr`. -/
theorem row_spliced (hv : v < n) : Csr.row (Csr.offsets (splicedRows vlist ent index false n))
    (splicedEntries vlist ent index n) v = maskedRow vlist ent index v := by
  rw [splicedEntries, Csr.row_offsets (by rw [length_splicedRows]; exact hv), splicedRows_getElem]

/-- The rows of the result of `splice_csr_condense_row`. -/
theorem rows_condensed (n : Nat) : Csr.rows (Csr.offsets (splicedRows vlist ent index true n))
    (splicedEntries vlist ent index n) = (activeRows index n).map fun v =>
      Csr.row (Csr.offsets (splicedRows vlist ent index false n))
        (splicedEntries vlist ent index n) v := by
  have hflat : splicedEntries vlist ent index n = (splicedRows vlist ent index true n).flatten :=
    (flatten_splicedRows true n).symm
  have hrows : (activeRows index n).map (fun v => Csr.row
      (Csr.offsets (splicedRows vlist ent index false n)) (splicedEntries vlist ent index n) v) =
      splicedRows vlist ent index true n := by
    rw [splicedRows_true]
    apply List.map_congr_left
    intro v hv
    exact row_spliced (List.mem_range.mp (List.mem_filter.mp hv).1)
  rw [hrows, hflat, Csr.rows_offsets]

/-- The numbers of the columns lead back to the columns. -/
theorem mapM_numbered (es : List Int) :
    (numbered true es).mapM (Block.ofList es.eraseDups).read = .ok es := by
  apply Run.mapM_eq_ok.mpr
  rw [numbered, if_pos rfl, List.forall₂_map_left_iff]
  apply List.forall₂_same.mpr
  intro x hx
  have hlt := List.idxOf_lt_length_of_mem (List.mem_eraseDups.mpr hx)
  rw [Block.read_ofList hlt, List.getElem_idxOf]

/-- The four variants describe one graph: they have the same weights; two have the offsets of all
rows, two those of the active ones; two have the columns themselves, two their numbers. -/
theorem splice_variants {W : Type} [Inhabited W] {vlist elist : List Int} {weight : List W}
    {index : List Bool} (h : Csr.Valid vlist elist) (hw : weight.length = elist.length)
    (hi : index.length = vlist.length - 1) :
    ∃ vl el w vlR rows elC cols,
      spliceCsr vlist elist weight index = .ok (vl, el, w) ∧
      spliceCsrCondenseRow vlist elist weight index = .ok (vlR, el, w, rows) ∧
      spliceCsrCondenseCol vlist elist weight index = .ok (vl, elC, w, cols) ∧
      spliceCsrCondenseRowAndCol vlist elist weight index = .ok (vlR, elC, w, rows, cols) ∧
      getActiveRowAndCol vlist elist index = .ok (rows.length, cols.length) ∧
      Csr.Valid vl el ∧ Csr.Valid vlR el ∧
      (∀ v, v + 1 < vlist.length → Csr.row vl el v = maskedRow vlist elist index v ∧
        Csr.row vl w v = maskedRow vlist weight index v) ∧
      rows = (activeRows index (vlist.length - 1)).map (fun v : Nat => (v : Int)) ∧
      Csr.rows vlR el = rows.map (fun v => Csr.row vl el v.toNat) ∧
      Csr.rows vlR w = rows.map (fun v => Csr.row vl w v.toNat) ∧
      cols.Nodup ∧ (∀ x, x ∈ cols ↔ x ∈ el) ∧
      cols.Pairwise (fun a b => el.idxOf a < el.idxOf b) ∧
      elC.mapM (Block.ofList cols).read = .ok el := by
  obtain ⟨s, hs, hinv⟩ := spliceLoop_eq false false h hw hi
  obtain ⟨sR, hsR, hinvR⟩ := spliceLoop_eq true false h hw hi
  obtain ⟨sC, hsC, hinvC⟩ := spliceLoop_eq false true h hw hi
  obtain ⟨sB, hsB, hinvB⟩ := spliceLoop_eq true true h hw hi
  refine ⟨s.backVlist, s.backElist, s.backWeight, sR.backVlist, sR.activeRow, sC.backElist,
    sC.activeCol, ?_, ?_, ?_, ?_, ?_, ?_, ?_, fun v hv => ⟨?_, ?_⟩, ?_, ?_, ?_, ?_, ?_, ?_, ?_⟩
  · rw [spliceCsr, hs]
    rfl
  · rw [spliceCsrCondenseRow, hsR, hinv.edges.entries, hinv.edges.weights, ← hinvR.edges.entries,
      ← hinvR.edges.weights]
    rfl
  · rw [spliceCsrCondenseCol, hsC, hinv.offsets, hinv.edges.weights, ← hinvC.offsets,
      ← hinvC.edges.weights]
    rfl
  · rw [spliceCsrCondenseRowAndCol, hsB, hinvR.offsets, hinvR.rows, hinv.edges.weights,
      hinvC.edges.entries, (hinvC.edges.cols rfl).cols, ← hinvB.offsets, ← hinvB.rows,
      ← hinvB.edges.weights, ← hinvB.edges.entries, ← (hinvB.edges.cols rfl).cols]
    rfl
  · rw [getActiveRowAndCol_eq h hi, hinvR.rows, if_pos rfl, List.length_map,
      (hinvC.edges.cols rfl).cols]
  · rw [hinv.offsets, hinv.edges.entries]
    exact Csr.valid_offsets
  · rw [hinvR.offsets, hinv.edges.entries]
    change Csr.Valid _ (splicedEntries vlist elist index (vlist.length - 1))
    rw [splicedEntries, ← flatten_splicedRows true]
    exact Csr.valid_offsets
  · rw [hinv.offsets, hinv.edges.entries]
    exact row_spliced (by omega)
  · rw [hinv.offsets, hinv.edges.weights, offsets_splicedRows hw]
    exact row_spliced (by omega)
  · rw [hinvR.rows, if_pos rfl]
  · rw [hinvR.offsets, hinvR.rows, hinv.edges.entries, hinv.offsets, if_pos rfl, List.map_map]
    exact rows_condensed _
  · rw [hinvR.offsets, hinvR.rows, hinv.edges.weights, hinv.offsets, if_pos rfl, List.map_map,
      offsets_splicedRows hw, offsets_splicedRows hw]
    exact rows_condensed _
  · rw [(hinvC.edges.cols rfl).cols]
    exact nodup_eraseDups _
  · intro x
    rw [(hinvC.edges.cols rfl).cols, hinv.edges.entries]
    exact List.mem_eraseDups
  · rw [(hinvC.edges.cols rfl).cols, hinv.edges.entries]
    exact eraseDups_sorted _
  · rw [(hinvC.edges.cols rfl).cols, hinv.edges.entries, hinvC.edges.entries]
    exact mapM_numbered _

/-- Two of three rows, with an edge twice. -/
theorem splice_variants_three :
    (Csr.Valid [0, 2, 2, 4] [(2 : Int), 0, 2, 2] ∧ [true, false, true].length = 4 - 1) ∧
      ∃ vlR el w rows, spliceCsrCondenseRow [0, 2, 2, 4] [2, 0, 2, 2] ['a', 'b', 'c', 'd']
        [true, false, true] = .ok (vlR, el, w, rows) ∧
        getActiveRowAndCol [0, 2, 2, 4] [2, 0, 2, 2] [true, false, true] =
          .ok (rows.length, 2) := by
  have hvalid : Csr.Valid [0, 2, 2, 4] [(2 : Int), 0, 2, 2] := ⟨rfl, by decide, by decide⟩
  obtain ⟨_, el, w, vlR, rows, _, cols, -, hrow, -, -, hcount, -⟩ :=
    splice_variants hvalid (show ['a', 'b', 'c', 'd'].length = 4 from rfl)
      (show [true, false, true].length = 4 - 1 from rfl)
  have hcols : getActiveRowAndCol [0, 2, 2, 4] [2, 0, 2, 2] [true, false, true] = .ok (2, 2) := by
    decide +kernel
  refine ⟨⟨hvalid, rfl⟩, vlR, el, w, rows, hrow, ?_⟩
  have hlen := (Prod.mk.inj (Except.ok.inj (hcount.symm.trans hcols))).2
  rw [hcount, hlen]

end Variants

end Laconic.Graph

import Mathlib.Data.List.Perm.Subperm
import Laconic.Graph.Coo

/-!
# Renumbering by a traversal

`bfs_reorder.py` numbers the nodes of a compressed graph in the order in which a traversal takes
them from its work list, which is a stack, and writes the graph with the new numbers.  The
traversal starts again from every node that has not been visited.  The script also prints some
figures of its input, which are left out.
-/

namespace Laconic.Graph

/-! ## The script -/

/-- The global variables of the script. -/
structure BfsState where
  bfsQueue : List Int
  visited : Block Bool
  newId : Int
  newVertexId : Block Int
  reverseId : Block Int

/-- One round of the loop over the neighbours. -/
def bfsEdge (elist : List Int) (i : Int) (s : BfsState) : Run BfsState := do
  let neighbor ← (Block.ofList elist).read i
  let seen ← s.visited.read neighbor
  if seen then pure s
  else do
    -- marked when it is put on the stack, so that it is put there once
    let visited ← s.visited.write neighbor true
    pure { s with visited := visited, bfsQueue := s.bfsQueue ++ [neighbor] }

/-- One round of the loop of `bfs`; `pop()` takes the last node. -/
def bfsNode (vlist elist : List Int) (s : BfsState) : Run BfsState :=
  match s.bfsQueue.getLast? with
  | none => throw .bounds
  | some currNode => do
    -- a node gets its number when it is taken from the stack, not when it is put there
    let newVertexId ← s.newVertexId.write s.newId currNode
    let reverseId ← s.reverseId.write currNode s.newId
    forEdges (bfsEdge elist) vlist currNode
      { s with
        bfsQueue := s.bfsQueue.dropLast
        newVertexId := newVertexId
        reverseId := reverseId
        newId := s.newId + 1 }

def bfs (fuel : Nat) (vlist elist : List Int) (s : BfsState) : Run BfsState :=
  Run.whileLoop (fun s : BfsState => pure (!s.bfsQueue.isEmpty)) (bfsNode vlist elist) fuel s

/-- One round of the loop over the nodes. -/
def bfsFrom (fuel : Nat) (vlist elist : List Int) (i : Int) (s : BfsState) : Run BfsState := do
  let seen ← s.visited.read i
  if seen then pure s
  else do
    let visited ← s.visited.write i true
    bfs fuel vlist elist { s with bfsQueue := [i], visited := visited }

/-- The traversal, from arrays of zeros. -/
def bfsAll (fuel : Nat) (vlist elist : List Int) : Run BfsState :=
  Run.forLoop (bfsFrom fuel vlist elist) (vlist.length - 1) 0
    ⟨[], Block.alloc ((vlist.length : Int) - 1) fun _ => false, 0,
      Block.alloc ((vlist.length : Int) - 1) fun _ => 0,
      Block.alloc ((vlist.length : Int) - 1) fun _ => 0⟩

/-- The two files and `count`. -/
structure WriteState where
  vlist : List Int
  elist : List Int
  count : Int

/-- One round of the inner loop of the output. -/
def writeEdge (elist : List Int) (reverseId : Block Int) (j : Int) (s : WriteState) :
    Run WriteState := do
  let e ← (Block.ofList elist).read j
  let x ← reverseId.read e
  pure { s with elist := s.elist ++ [x], count := s.count + 1 }

/-- One round of the outer loop of the output. -/
def writeNode (vlist elist : List Int) (newVertexId reverseId : Block Int) (i : Int)
    (s : WriteState) : Run WriteState := do
  let v ← newVertexId.read i
  -- `vlist` has one more offset than there are nodes, so the first case does not come up
  let endPos ← if (vlist.length : Int) ≤ v + 1 then pure (elist.length : Int)
    else (Block.ofList vlist).read (v + 1)
  let start ← (Block.ofList vlist).read v
  let s ← Run.forLoop (writeEdge elist reverseId) (endPos - start).toNat start s
  pure { s with vlist := s.vlist ++ [s.count] }

/-- The files with the reordered graph. -/
def writeReordered (vlist elist : List Int) (newVertexId reverseId : Block Int) :
    Run (List Int × List Int) := do
  let s ← Run.forLoop (writeNode vlist elist newVertexId reverseId) (vlist.length - 1) 0
    ⟨[0], [], 0⟩
  pure (s.vlist, s.elist)

/-! ## The traversal -/

section Traversal

variable {m k : Nat} {d : List Int} {s : BfsState} {vlist elist : List Int}

/-- The nodes `d` have their numbers, the nodes of the work list are still waiting for one, and
these together are the visited ones.  The first `k` nodes are among them. -/
structure BfsInv (m k : Nat) (d : List Int) (s : BfsState) : Prop where
  visitedSize : s.visited.size = m
  newSize : s.newVertexId.size = m
  reverseSize : s.reverseId.size = m
  range : ∀ v ∈ d ++ s.bfsQueue, 0 ≤ v ∧ v < (m : Int)
  nodup : (d ++ s.bfsQueue).Nodup
  visited : ∀ v, 0 ≤ v → v < (m : Int) → (s.visited.cells v = true ↔ v ∈ d ++ s.bfsQueue)
  first : ∀ v, 0 ≤ v → v < (k : Int) → v ∈ d ++ s.bfsQueue
  count : s.newId = d.length
  ids : ∀ (i : Nat) (v : Int), d[i]? = some v → s.newVertexId.cells i = v ∧ s.reverseId.cells v = i

/-- There are `m` nodes. -/
theorem length_le_of_range {l : List Int} (hnd : l.Nodup) (h : ∀ v ∈ l, 0 ≤ v ∧ v < (m : Int)) :
    l.length ≤ m := by
  have hsub : l ⊆ (List.range m).map fun i : Nat => (i : Int) := by
    intro v hv
    obtain ⟨h0, hlt⟩ := h v hv
    exact List.mem_map.mpr ⟨v.toNat, List.mem_range.mpr (by omega), by omega⟩
  have hle := (hnd.subperm hsub).length_le
  rwa [List.length_map, List.length_range] at hle

/-- A node that is not visited goes to the end of the work list. -/
theorem BfsInv.push (h : BfsInv m k d s) {v : Int} (h0 : 0 ≤ v) (hv : v < (m : Int))
    (hnew : s.visited.cells v = false) :
    BfsInv m k d { s with
      visited := s.visited.upd v fun _ => true, bfsQueue := s.bfsQueue ++ [v] } := by
  have hnot : v ∉ d ++ s.bfsQueue := by
    intro hmem
    rw [(h.visited v h0 hv).mpr hmem] at hnew
    cases hnew
  have happ : d ++ (s.bfsQueue ++ [v]) = (d ++ s.bfsQueue) ++ [v] := (List.append_assoc _ _ _).symm
  refine ⟨h.visitedSize, h.newSize, h.reverseSize, ?_, ?_, ?_, ?_, h.count, h.ids⟩
  · intro w hw
    rw [happ, List.mem_append, List.mem_singleton] at hw
    rcases hw with hw | rfl
    · exact h.range w hw
    · exact ⟨h0, hv⟩
  · rw [happ]
    apply List.nodup_append.mpr
    refine ⟨h.nodup, List.nodup_singleton v, fun a ha b hb heq => hnot ?_⟩
    rwa [heq, List.mem_singleton.mp hb] at ha
  · intro w hw0 hwm
    dsimp only
    rw [happ, List.mem_append, List.mem_singleton]
    by_cases hwv : w = v
    · subst hwv
      rw [Block.cells_upd_self]
      exact ⟨fun _ => Or.inr rfl, fun _ => rfl⟩
    · rw [Block.cells_upd_ne _ _ hwv, h.visited w hw0 hwm]
      exact ⟨Or.inl, fun hc => hc.resolve_right hwv⟩
  · intro w hw0 hwk
    rw [happ]
    exact List.mem_append_left _ (h.first w hw0 hwk)

/-- The node taken from the work list gets the next number. -/
theorem BfsInv.pop (h : BfsInv m k d s) {q : List Int} {v : Int} (hq : s.bfsQueue = q ++ [v]) :
    BfsInv m k (d ++ [v]) { s with
      bfsQueue := q
      newVertexId := s.newVertexId.upd s.newId fun _ => v
      reverseId := s.reverseId.upd v fun _ => s.newId
      newId := s.newId + 1 } := by
  have hperm : (d ++ [v] ++ q).Perm (d ++ s.bfsQueue) := by
    rw [hq, List.append_assoc]
    exact List.Perm.append_left d List.perm_append_comm
  have hnd : (d ++ [v]).Nodup := (hperm.nodup_iff.mpr h.nodup).of_append_left
  have hnot : v ∉ d := fun hmem =>
    (List.nodup_append.mp hnd).2.2 v hmem v (List.mem_singleton_self v) rfl
  refine ⟨h.visitedSize, h.newSize, h.reverseSize, ?_, ?_, ?_, ?_, ?_, ?_⟩
  · intro w hw
    exact h.range w (hperm.mem_iff.mp hw)
  · exact hperm.nodup_iff.mpr h.nodup
  · intro w hw0 hwm
    rw [hperm.mem_iff]
    exact h.visited w hw0 hwm
  · intro w hw0 hwk
    exact hperm.mem_iff.mpr (h.first w hw0 hwk)
  · change s.newId + 1 = _
    rw [h.count, List.length_append, Int.natCast_add]
    rfl
  · intro i w hi
    dsimp only
    rcases Nat.lt_trichotomy i d.length with hlt | rfl | hgt
    · rw [List.getElem?_append_left hlt] at hi
      have hne : w ≠ v := fun heq => hnot (heq ▸ List.mem_of_getElem? hi)
      rw [Block.cells_upd_ne _ _ (by rw [h.count]; omega), Block.cells_upd_ne _ _ hne]
      exact h.ids i w hi
    · rw [List.getElem?_concat_length, Option.some_inj] at hi
      subst hi
      rw [← h.count, Block.cells_upd_self, Block.cells_upd_self]
      exact ⟨rfl, rfl⟩
    · rw [List.getElem?_eq_none (by rw [List.length_append, List.length_singleton]; omega)] at hi
      cases hi

theorem bfsEdge_meets (hent : ∀ x ∈ elist, 0 ≤ x ∧ x < (m : Int)) {e : Nat} (he : e < elist.length)
    (h : BfsInv m k d s) :
    Run.Meets (fun _ => False) (bfsEdge elist e s) fun s' =>
      BfsInv m k d s' ∧ s'.newId = s.newId := by
  obtain ⟨h0, hlt⟩ := hent elist[e] (List.getElem_mem he)
  have hin : s.visited.InB elist[e] := ⟨h0, by rw [h.visitedSize]; exact hlt⟩
  unfold bfsEdge
  rw [Block.read_ofList he, Run.ok_bind, Block.read_eq hin, Run.ok_bind]
  cases hseen : s.visited.cells elist[e] with
  | true => exact ⟨h, rfl⟩
  | false =>
    rw [if_neg Bool.false_ne_true, Block.write_eq hin, Run.ok_bind, Run.meets_pure]
    exact ⟨h.push h0 hlt hseen, rfl⟩

/-- One node is taken from the work list. -/
theorem bfsNode_meets (hvalid : Csr.Valid vlist elist) (hlen : vlist.length = m + 1)
    (hent : ∀ x ∈ elist, 0 ≤ x ∧ x < (m : Int)) (h : BfsInv m k d s) (hq : s.bfsQueue ≠ []) :
    Run.Meets (fun _ => False) (bfsNode vlist elist s) fun s' =>
      ∃ d', BfsInv m k d' s' ∧ s'.newId = s.newId + 1 := by
  have hsplit := (List.dropLast_append_getLast hq).symm
  have hmem : s.bfsQueue.getLast hq ∈ d ++ s.bfsQueue :=
    List.mem_append_right d (List.getLast_mem hq)
  obtain ⟨h0, hlt⟩ := h.range _ hmem
  have hcount : s.newId < m := by
    have hle := length_le_of_range h.nodup h.range
    have hpos := List.length_pos_iff.mpr hq
    rw [List.length_append] at hle
    rw [h.count]
    omega
  unfold bfsNode
  rw [List.getLast?_eq_some_getLast hq]
  dsimp only
  rw [Block.write_eq ⟨by rw [h.count]; omega, by rw [h.newSize]; exact hcount⟩, Run.ok_bind,
    Block.write_eq ⟨h0, by rw [h.reverseSize]; exact hlt⟩, Run.ok_bind]
  obtain ⟨v, hv⟩ := Int.eq_ofNat_of_zero_le h0
  rw [hv]
  apply (meets_forRow hvalid rfl (by omega) (fun _ (_ : List Int) s' =>
    BfsInv m k (d ++ [(v : Int)]) s' ∧ s'.newId = s.newId + 1) ?_ (m := elist) (l := elist)
    ⟨?_, rfl⟩).mono
  · intro s' hs'
    exact ⟨d ++ [(v : Int)], hs'⟩
  · rintro e he s' - - ⟨hs', hid⟩
    apply (bfsEdge_meets hent he hs').mono
    intro s'' hs''
    exact ⟨hs''.1, hs''.2.trans hid⟩
  · rw [hv] at hsplit
    exact h.pop hsplit

/-- The traversal from the nodes of the work list. -/
theorem bfs_meets (hvalid : Csr.Valid vlist elist) (hlen : vlist.length = m + 1)
    (hent : ∀ x ∈ elist, 0 ≤ x ∧ x < (m : Int)) {fuel : Nat} (hfuel : m < fuel)
    (h : BfsInv m k d s) :
    Run.Meets (fun _ => False) (bfs fuel vlist elist s) fun s' =>
      ∃ d', BfsInv m k d' s' ∧ s'.bfsQueue = [] := by
  -- a round numbers a node, and there are `m` of them
  apply Run.meets_whileLoop _ _ (fun s => ∃ d, BfsInv m k d s) _ (fun s => (m - s.newId).toNat)
  · rintro s ⟨d, hs⟩
    rw [Run.meets_pure]
    constructor
    · intro hq
      have hne : s.bfsQueue ≠ [] := by
        intro hnil
        rw [hnil] at hq
        cases hq
      have hle := length_le_of_range hs.nodup hs.range
      have hpos := List.length_pos_iff.mpr hne
      rw [List.length_append] at hle
      apply (bfsNode_meets hvalid hlen hent hs hne).mono
      rintro s' ⟨d', hs', hid⟩
      refine ⟨⟨d', hs'⟩, ?_⟩
      have hcount := hs.count
      omega
    · intro hq
      refine ⟨d, hs, ?_⟩
      rwa [Bool.not_eq_false', List.isEmpty_iff] at hq
  · have hcount := h.count
    omega
  · exact ⟨d, h⟩

/-- One more node is visited. -/
theorem BfsInv.succ (h : BfsInv m k d s) (hk : (k : Int) ∈ d ++ s.bfsQueue) :
    BfsInv m (k + 1) d s := by
  refine ⟨h.visitedSize, h.newSize, h.reverseSize, h.range, h.nodup, h.visited, ?_, h.count, h.ids⟩
  intro v hv0 hvk
  rcases Int.lt_or_eq_of_le (by omega : v ≤ (k : Int)) with hlt | rfl
  · exact h.first v hv0 hlt
  · exact hk

theorem bfsFrom_meets (hvalid : Csr.Valid vlist elist) (hlen : vlist.length = m + 1)
    (hent : ∀ x ∈ elist, 0 ≤ x ∧ x < (m : Int)) {fuel : Nat} (hfuel : m < fuel) (hk : k < m)
    (h : BfsInv m k d s) (hq : s.bfsQueue = []) :
    Run.Meets (fun _ => False) (bfsFrom fuel vlist elist k s) fun s' =>
      ∃ d', BfsInv m (k + 1) d' s' ∧ s'.bfsQueue = [] := by
  have hin : s.visited.InB k := ⟨by omega, by rw [h.visitedSize]; omega⟩
  unfold bfsFrom
  rw [Block.read_eq hin, Run.ok_bind]
  cases hseen : s.visited.cells k with
  | true =>
    rw [if_pos rfl, Run.meets_pure]
    exact ⟨d, h.succ ((h.visited k (by omega) (by omega)).mp hseen), hq⟩
  | false =>
    have hpush := h.push (by omega) (by omega) hseen
    rw [hq, List.nil_append] at hpush
    rw [if_neg Bool.false_ne_true, Block.write_eq hin, Run.ok_bind]
    exact bfs_meets hvalid hlen hent hfuel
      (hpush.succ (List.mem_append_right d (List.mem_singleton_self (k : Int))))

/-- The traversal numbers every node once. -/
theorem bfsAll_eq (hvalid : Csr.Valid vlist elist) (hlen : vlist.length = m + 1)
    (hent : ∀ x ∈ elist, 0 ≤ x ∧ x < (m : Int)) {fuel : Nat} (hfuel : m < fuel) :
    ∃ s d, bfsAll fuel vlist elist = .ok s ∧ d.length = m ∧ BfsInv m m d s ∧ s.bfsQueue = [] := by
  have hstart : BfsInv m 0 [] ⟨[], Block.alloc ((vlist.length : Int) - 1) fun _ => false, 0,
      Block.alloc ((vlist.length : Int) - 1) fun _ => 0,
      Block.alloc ((vlist.length : Int) - 1) fun _ => 0⟩ := by
    have hsize : (vlist.length : Int) - 1 = m := by omega
    refine ⟨hsize, hsize, hsize, ?_, List.nodup_nil, ?_, ?_, rfl, ?_⟩
    · intro v hv
      cases hv
    · intro v _ _
      exact ⟨fun hc => absurd hc Bool.false_ne_true, fun hc => absurd hc List.not_mem_nil⟩
    · intro v h0 hv
      omega
    · intro i v hv
      cases hv
  have hloop : Run.Meets (fun _ => False) (bfsAll fuel vlist elist)
      fun s => 0 ≤ (m : Int) ∧ ∃ d, BfsInv m (m : Int).toNat d s ∧ s.bfsQueue = [] := by
    apply Run.meets_forLoop
      (fun i s => 0 ≤ i ∧ ∃ d, BfsInv m i.toNat d s ∧ s.bfsQueue = []) (m : Int) ?_
      (vlist.length - 1) 0 _ (by omega) ⟨Int.le_refl 0, [], hstart, rfl⟩
    rintro i s hi ⟨h0, d, hs, hq⟩
    obtain ⟨i, rfl⟩ := Int.eq_ofNat_of_zero_le h0
    rw [Int.toNat_natCast] at hs
    apply (bfsFrom_meets hvalid hlen hent hfuel (by omega) hs hq).mono
    rintro s' ⟨d', hs', hq'⟩
    exact ⟨by omega, d', by rw [show ((i : Int) + 1).toNat = i + 1 by omega]; exact hs', hq'⟩
  obtain ⟨s, hrun, -, d, hs, hq⟩ := hloop.exists_ok fun e he => he.elim
  rw [Int.toNat_natCast] at hs
  refine ⟨s, d, hrun, ?_, hs, hq⟩
  have hle := length_le_of_range hs.nodup hs.range
  -- all nodes are visited
  have hsub : ((List.range m).map fun i : Nat => (i : Int)) ⊆ d ++ s.bfsQueue := by
    intro v hv
    obtain ⟨i, hi, rfl⟩ := List.mem_map.mp hv
    have := List.mem_range.mp hi
    exact hs.first i (by omega) (by omega)
  have hge := ((List.nodup_range.map fun a b hab => Int.ofNat_inj.mp hab).subperm hsub).length_le
  rw [hq, List.append_nil] at hle hge
  rw [List.length_map, List.length_range] at hge
  omega

end Traversal

/-! ## The output -/

section Output

variable {m : Nat} {d vlist elist : List Int} {newVertexId reverseId : Block Int}

/-- Row `v` with the new numbers of its entries. -/
def renamedRow (vlist elist : List Int) (reverseId : Block Int) (v : Int) : List Int :=
  (Csr.row vlist elist v.toNat).map reverseId.cells

/-- The rows `rs` are written. -/
structure WriteInv (rs : List (List Int)) (s : WriteState) : Prop where
  vlist : s.vlist = Csr.offsets rs
  elist : s.elist = rs.flatten
  count : s.count = rs.flatten.length

/-- The edges of one node. -/
theorem writeEdges_meets (hvalid : Csr.Valid vlist elist) {v : Nat} (hv : v + 1 < vlist.length)
    (hin : ∀ x ∈ elist, reverseId.InB x) (s : WriteState) :
    Run.Meets (fun _ => False) (forEdges (writeEdge elist reverseId) vlist v s) fun s' =>
      s'.vlist = s.vlist ∧ s'.elist = s.elist ++ renamedRow vlist elist reverseId v ∧
        s'.count = s.count + (renamedRow vlist elist reverseId v).length := by
  refine (meets_forRow hvalid rfl hv (fun l (_ : List Int) (s' : WriteState) =>
    s'.vlist = s.vlist ∧ s'.elist = s.elist ++ l.map reverseId.cells ∧
      s'.count = s.count + (l.map reverseId.cells).length) ?_ (l := []) (m := elist)
    ⟨rfl, (List.append_nil _).symm, (Int.add_zero _).symm⟩).mono fun s' hs' => hs'
  rintro e he s' l - ⟨hsv, hse, hsc⟩
  unfold writeEdge
  rw [Block.read_ofList he, Run.ok_bind, Block.read_eq (hin _ (List.getElem_mem he)), Run.ok_bind,
    Run.meets_pure]
  refine ⟨hsv, ?_, ?_⟩
  · change s'.elist ++ [reverseId.cells elist[e]] = _
    rw [hse, List.map_append, List.map_singleton, List.append_assoc]
  · change s'.count + 1 = _
    rw [hsc, List.map_append, List.length_append, Int.natCast_add, Int.add_assoc]
    rfl

theorem writeNode_meets (hvalid : Csr.Valid vlist elist) {i : Int} {v : Nat}
    (hv : v + 1 < vlist.length) (hi : newVertexId.InB i) (hcell : newVertexId.cells i = v)
    (hin : ∀ x ∈ elist, reverseId.InB x) {rs : List (List Int)} {s : WriteState}
    (h : WriteInv rs s) :
    Run.Meets (fun _ => False) (writeNode vlist elist newVertexId reverseId i s)
      (WriteInv (rs ++ [renamedRow vlist elist reverseId v])) := by
  have hedges := writeEdges_meets hvalid hv hin s
  unfold forEdges at hedges
  unfold writeNode
  rw [Block.read_eq hi, Run.ok_bind, hcell, if_neg (by omega)]
  rw [show (v : Int) + 1 = ((v + 1 : Nat) : Int) by omega] at hedges ⊢
  rw [Block.read_getD (by omega) 0, Run.ok_bind, Block.read_getD hv 0, Run.ok_bind] at hedges
  rw [Block.read_getD hv 0, Run.ok_bind, Block.read_getD (by omega) 0]
  dsimp only
  rw [Run.ok_bind, Run.meets_bind]
  apply hedges.mono
  rintro s' ⟨hsv, hse, hsc⟩
  rw [Run.meets_pure]
  refine ⟨?_, ?_, ?_⟩
  · change s'.vlist ++ [s'.count] = _
    rw [hsv, hsc, h.vlist, h.count, Csr.offsets_concat]
  · rw [List.flatten_append, List.flatten_singleton, ← h.elist]
    exact hse
  · change s'.count = _
    rw [hsc, h.count, List.flatten_append, List.flatten_singleton, List.length_append,
      Int.natCast_add]

/-- The written graph has the rows of the nodes in their new order. -/
theorem writeReordered_eq (hvalid : Csr.Valid vlist elist) (hlen : vlist.length = m + 1)
    (hd : d.length = m) (hrange : ∀ v ∈ d, 0 ≤ v ∧ v < (m : Int)) (hsize : newVertexId.size = m)
    (hcells : ∀ (i : Nat) (v : Int), d[i]? = some v → newVertexId.cells i = v)
    (hin : ∀ x ∈ elist, reverseId.InB x) :
    writeReordered vlist elist newVertexId reverseId =
      .ok (Csr.offsets (d.map (renamedRow vlist elist reverseId)),
        (d.map (renamedRow vlist elist reverseId)).flatten) := by
  have hloop : Run.Meets (fun _ => False)
      (Run.forLoop (writeNode vlist elist newVertexId reverseId) (vlist.length - 1) 0 ⟨[0], [], 0⟩)
      (WriteInv (d.map (renamedRow vlist elist reverseId))) := by
    refine (Run.meets_forLoop (fun i s => 0 ≤ i ∧
      WriteInv ((d.take i.toNat).map (renamedRow vlist elist reverseId)) s) (m : Int) ?_ _ 0 _
      (by omega) ⟨Int.le_refl 0, rfl, rfl, rfl⟩).mono fun s hs => by
        rw [Int.toNat_natCast, List.take_of_length_le (Nat.le_of_eq hd)] at hs
        exact hs.2
    rintro i s hi ⟨h0, hs⟩
    obtain ⟨i, rfl⟩ := Int.eq_ofNat_of_zero_le h0
    have hlt : i < d.length := by omega
    rw [Int.toNat_natCast] at hs
    obtain ⟨hv0, hvm⟩ := hrange d[i] (List.getElem_mem hlt)
    obtain ⟨v, hv⟩ := Int.eq_ofNat_of_zero_le hv0
    have hcell := hcells i _ (List.getElem?_eq_getElem hlt)
    rw [hv] at hcell
    apply (writeNode_meets hvalid (by omega) ⟨h0, by rw [hsize]; exact hi⟩ hcell hin hs).mono
    intro s' hs'
    rw [show ((i : Int) + 1).toNat = i + 1 by omega, List.take_add_one,
      List.getElem?_eq_getElem hlt, Option.toList_some, List.map_append, List.map_singleton, hv]
    exact ⟨by omega, hs'⟩
  obtain ⟨s, hrun, hs⟩ := hloop.exists_ok fun e he => he.elim
  unfold writeReordered
  rw [hrun, Run.ok_bind, hs.vlist, hs.elist]
  rfl

end Output

/-- The reordered graph is isomorphic to the given one: `new_vertex_id` and `reverse_id` are inverse
to each other, and row `i` of the written graph is row `new_vertex_id[i]` with the new numbers. -/
theorem reorder_isomorphism {vlist elist : List Int} {m fuel : Nat} (hvalid : Csr.Valid vlist elist)
    (hlen : vlist.length = m + 1) (hent : ∀ x ∈ elist, 0 ≤ x ∧ x < (m : Int)) (hfuel : m < fuel) :
    ∃ s newVlist newElist, bfsAll fuel vlist elist = .ok s ∧ s.newId = m ∧
      writeReordered vlist elist s.newVertexId s.reverseId = .ok (newVlist, newElist) ∧
      s.newVertexId.toList.length = m ∧ s.reverseId.toList.length = m ∧
      (∀ (i : Nat) (v : Int), s.newVertexId.toList[i]? = some v →
        0 ≤ v ∧ v < (m : Int) ∧ s.reverseId.toList[v.toNat]? = some (i : Int)) ∧
      (∀ (v : Nat) (i : Int), s.reverseId.toList[v]? = some i →
        0 ≤ i ∧ i < (m : Int) ∧ s.newVertexId.toList[i.toNat]? = some (v : Int)) ∧
      Csr.Valid newVlist newElist ∧ newVlist.length = m + 1 ∧
      newVlist.getLast? = some (newElist.length : Int) ∧
      ∀ (i : Nat) (v : Int), s.newVertexId.toList[i]? = some v →
        Csr.row newVlist newElist i =
          (Csr.row vlist elist v.toNat).map fun e => s.reverseId.toList.getD e.toNat 0 := by
  obtain ⟨s, d, hrun, hd, hs, hq⟩ := bfsAll_eq hvalid hlen hent hfuel
  have hrange := hs.range
  have hfirst := hs.first
  rw [hq, List.append_nil] at hrange hfirst
  have hnew : s.newVertexId.toList = d :=
    Block.toList_eq (by rw [hs.newSize, hd]) fun i v hv => (hs.ids i v hv).1
  have hreverse : ∀ x, 0 ≤ x → x < (m : Int) →
      s.reverseId.toList[x.toNat]? = some (s.reverseId.cells x) := by
    intro x h0 hx
    rw [Block.toList_getElem?, hs.reverseSize, Int.toNat_of_nonneg h0]
    exact ⟨hx, rfl⟩
  have hwrite := writeReordered_eq hvalid hlen hd hrange hs.newSize
    (fun i v hv => (hs.ids i v hv).1)
    (fun x hx => ⟨(hent x hx).1, by rw [hs.reverseSize]; exact (hent x hx).2⟩)
  refine ⟨s, _, _, hrun, by rw [hs.count, hd], hwrite, ?_, ?_, fun i v hv => ?_, fun v i hi => ?_,
    Csr.valid_offsets, ?_, Csr.offsets_getLast?, fun i v hv => ?_⟩
  · rw [hnew, hd]
  · rw [Block.length_toList, hs.reverseSize, Int.toNat_natCast]
  · rw [hnew] at hv
    obtain ⟨h0, hlt⟩ := hrange v (List.mem_of_getElem? hv)
    exact ⟨h0, hlt, by rw [hreverse v h0 hlt, (hs.ids i v hv).2]⟩
  · obtain ⟨hlt, rfl⟩ := Block.toList_getElem?.mp hi
    rw [hs.reverseSize] at hlt
    -- the node has a number, which is the entry of `reverse_id`
    obtain ⟨j, hj⟩ := List.mem_iff_getElem?.mp (hfirst v (by omega) hlt)
    have hjlt := (List.getElem?_eq_some_iff.mp hj).1
    rw [(hs.ids j v hj).2, hnew, Int.toNat_natCast]
    exact ⟨by omega, by omega, hj⟩
  · rw [Csr.length_offsets, List.length_map, hd]
  · rw [hnew] at hv
    obtain ⟨hi, rfl⟩ := List.getElem?_eq_some_iff.mp hv
    rw [Csr.row_offsets (by rw [List.length_map]; exact hi), List.getElem_map, renamedRow]
    apply List.map_congr_left
    intro e he
    obtain ⟨h0, hlt⟩ := hent e (Csr.mem_of_mem_row he)
    rw [List.getD_eq_getElem?_getD, hreverse e h0 hlt]
    rfl

/-- A node with a self-loop and an edge to a node behind the next one. -/
theorem reorder_isomorphism_three :
    (Csr.Valid [0, 2, 2, 2] [(0 : Int), 2] ∧ ∀ x ∈ [(0 : Int), 2], 0 ≤ x ∧ x < ((3 : Nat) : Int)) ∧
      ∃ s newVlist newElist, bfsAll 4 [0, 2, 2, 2] [0, 2] = .ok s ∧
        writeReordered [0, 2, 2, 2] [0, 2] s.newVertexId s.reverseId = .ok (newVlist, newElist) ∧
        Csr.Valid newVlist newElist := by
  have hvalid : Csr.Valid [0, 2, 2, 2] [(0 : Int), 2] := ⟨rfl, by decide, by decide⟩
  have hent : ∀ x ∈ [(0 : Int), 2], 0 ≤ x ∧ x < ((3 : Nat) : Int) := by decide
  obtain ⟨s, newVlist, newElist, hrun, -, hwrite, -, -, -, -, hval, -⟩ :=
    reorder_isomorphism hvalid rfl hent (show 3 < 4 by decide)
  exact ⟨⟨hvalid, hent⟩, s, newVlist, newElist, hrun, hwrite, hval⟩

end Laconic.Graph

import Laconic.Graph.Convert

/-!
# Self-loops

`add_self_loop.h` inserts `v` into every sorted row `v` that does not have it, once for rows
(`add_self_loop_csr`) and once for edge lists (`add_self_loop_coo`).  Both look at the element
behind the one they have just copied.  The version for rows knows where the row ends and ignores
what it reads there.  The version for edge lists compares values only, so that at the last edge the
memory behind the two arrays decides.
-/

namespace Laconic.Graph

/-- `ptr[i]` without a check: behind the array stands whatever is in memory. -/
def peek (l : List Int) (past : Int → Int) (i : Int) : Int :=
  if 0 ≤ i ∧ i < l.length then l.getD i.toNat 0 else past i

/-! ## The two functions -/

/-- `for (eid = start; eid < end && elist_ptr[eid] < vid; ++eid)`, where `end` is `n` ahead. -/
def copyBelow (get : Int → Int) (vid : Int) : Nat → Int → List Int → Int × List Int
  | 0, eid, elist => (eid, elist)
  | n + 1, eid, elist =>
    if get eid < vid then copyBelow get vid n (eid + 1) (elist ++ [get eid]) else (eid, elist)

/-- `for (; eid < end; ++eid)`, where `end` is `n` ahead. -/
def copyRest (get : Int → Int) : Nat → Int → List Int → List Int
  | 0, _, elist => elist
  | n + 1, eid, elist => copyRest get n (eid + 1) (elist ++ [get eid])

/-- The three steps for one row. -/
def selfLoopRow (get : Int → Int) (vid start stop : Int) (elist : List Int) : List Int :=
  let r := copyBelow get vid (stop - start).toNat start elist
  -- at the end of the row `get` reads the next row, and `r.1 = stop` decides
  let elist := if get r.1 ≠ vid ∨ r.1 = stop then r.2 ++ [vid] else r.2
  copyRest get (stop - r.1).toNat r.1 elist

/-- One round of `add_self_loop_csr`. -/
def selfLoopVertex (past : Int → Int) (vlist elist : List Int) (vid : Int)
    (s : List Int × List Int) : Run (List Int × List Int) := do
  let start ← (Block.ofList vlist).read vid
  let stop ← (Block.ofList vlist).read (vid + 1)
  let out := selfLoopRow (peek elist past) vid start stop s.2
  pure (s.1 ++ [(out.length : Int)], out)

def addSelfLoopCsr (past : Int → Int) (vlist elist : List Int) : Run (List Int × List Int) :=
  Run.forLoop (selfLoopVertex past vlist elist) (vlist.length - 1) 0 ([0], [])

/-- The variables of `add_self_loop_coo`; `done` stands for the `break`. -/
structure CooState where
  src : List Int
  dst : List Int
  vid : Int
  eid : Int
  srcId : Int
  dstId : Int
  done : Bool

namespace CooState

/-- `src_id = src_ptr[eid]; dst_id = dst_ptr[eid]`. -/
def load (S D : Int → Int) (s : CooState) : CooState :=
  { s with srcId := S s.eid, dstId := D s.eid }

def push (s : CooState) (x y : Int) : CooState :=
  { s with src := s.src ++ [x], dst := s.dst ++ [y] }

/-- Copies the edge and reads the next one. -/
def copy (S D : Int → Int) (s : CooState) : CooState :=
  load S D { s.push s.srcId s.dstId with eid := s.eid + 1 }

end CooState

/-- Copies the edges from `vid` on as long as there are some. -/
def copySource (fuel : Nat) (S D : Int → Int) (s : CooState) : Run CooState :=
  Run.whileLoop (fun s : CooState => pure (decide (s.srcId = s.vid)))
    (fun s => pure (s.copy S D)) fuel s

/-- What follows the first inner loop: the self-loop, and the rest of the edges from `vid`. -/
def selfLoopEdge (fuel : Nat) (S D : Int → Int) (s : CooState) : Run CooState :=
  copySource fuel S D
    -- a self-loop that is there is copied like any other edge
    (if s.srcId = s.vid ∧ s.dstId = s.vid then s.copy S D else s.push s.vid s.vid)

/-- One round of the outer loop. -/
def selfLoopSource (fuel : Nat) (S D : Int → Int) (vertexCnt : Int) (s : CooState) :
    Run CooState := do
  let s ← Run.whileLoop (fun s : CooState => pure (decide (s.srcId = s.vid ∧ s.dstId < s.vid)))
    (fun s => pure (s.copy S D)) fuel (s.load S D)
  let s ← selfLoopEdge fuel S D s
  -- `vid++; if (vid == vertex_cnt) break;`
  pure { s with vid := s.vid + 1, done := decide (s.vid + 1 = vertexCnt) }

/-- The outer loop. -/
def selfLoopSources (fuel : Nat) (S D : Int → Int) (edgeCnt vertexCnt : Int) (rounds : Nat)
    (s : CooState) : Run CooState :=
  Run.whileLoop (fun s : CooState => pure (!s.done && decide (s.eid < edgeCnt)))
    (selfLoopSource fuel S D vertexCnt) rounds s

/-- `while (vid < vertex_cnt)`. -/
def selfLoopTail (vertexCnt : Int) (rounds : Nat) (s : CooState) : Run CooState :=
  Run.whileLoop (fun s : CooState => pure (decide (s.vid < vertexCnt)))
    (fun s => pure { s.push s.vid s.vid with vid := s.vid + 1 }) rounds s

/-- Behind the arrays stand `pastSrc` and `pastDst`. -/
def addSelfLoopCoo (fuel : Nat) (pastSrc pastDst : Int → Int) (src dst : List Int)
    (vertexCnt : Int) : Run (List Int × List Int) := do
  let s ← selfLoopSources fuel (peek src pastSrc) (peek dst pastDst) src.length vertexCnt fuel
    ⟨[], [], 0, 0, 0, 0, false⟩
  let s ← selfLoopTail vertexCnt fuel s
  pure (s.src, s.dst)

/-! ## Inserting a vertex into its row -/

/-- Row `v` with its self-loop. -/
def insertLoop (v : Int) : List Int → List Int
  | [] => [v]
  | x :: l => if x < v then x :: insertLoop v l else if x = v then x :: l else v :: x :: l

/-- The rows with their self-loops, from row `v` on. -/
def loopRows (v : Int) : List (List Int) → List (List Int)
  | [] => []
  | r :: rs => insertLoop v r :: loopRows (v + 1) rs

section InsertLoop

variable {v : Int} {l g : List Int}

theorem mem_insertLoop {x : Int} : x ∈ insertLoop v l ↔ x ∈ l ∨ x = v := by
  induction l with
  | nil => simp [insertLoop]
  | cons y l ih =>
    rw [insertLoop]
    split
    · rw [List.mem_cons, ih, List.mem_cons, or_assoc]
    · split
      · rename_i hy
        subst hy
        rw [List.mem_cons]
        tauto
      · rw [List.mem_cons]
        tauto

theorem sorted_insertLoop (h : l.Pairwise (· < ·)) : (insertLoop v l).Pairwise (· < ·) := by
  induction l with
  | nil => exact List.pairwise_singleton _ _
  | cons y l ih =>
    obtain ⟨hy, hl⟩ := List.pairwise_cons.mp h
    rw [insertLoop]
    split
    · rename_i hlt
      apply List.pairwise_cons.mpr
      refine ⟨fun x hx => ?_, ih hl⟩
      rcases mem_insertLoop.mp hx with hx | rfl
      · exact hy x hx
      · exact hlt
    · split
      · exact h
      · apply List.pairwise_cons.mpr
        refine ⟨fun x hx => ?_, h⟩
        rcases List.mem_cons.mp hx with rfl | hx
        · omega
        · have := hy x hx
          omega

/-- One entry is added, or none. -/
theorem length_insertLoop (v : Int) (l : List Int) :
    l.length ≤ (insertLoop v l).length ∧ (insertLoop v l).length ≤ l.length + 1 := by
  induction l with
  | nil => exact ⟨Nat.zero_le _, Nat.le_refl _⟩
  | cons y l ih =>
    rw [insertLoop]
    split
    · simp only [List.length_cons]
      omega
    · split <;> simp only [List.length_cons] <;> omega

/-- More entries behind a row do not change it when they are the self-loop and nothing else. -/
theorem insertLoop_append_eq_iff : insertLoop v (l ++ g) = insertLoop v l ↔
    g = [] ∨ (∀ x ∈ l, x < v) ∧ g = [v] := by
  induction l with
  | nil =>
    cases g with
    | nil => simp
    | cons x g =>
      rw [List.nil_append, insertLoop, insertLoop]
      split
      · rename_i hlt
        have hlen := (length_insertLoop v g).1
        constructor
        · intro heq
          have := congrArg List.length heq
          simp only [List.length_cons, List.length_nil] at this
          obtain rfl := List.length_eq_zero_iff.mp (by omega : g.length = 0)
          simp only [insertLoop, List.cons.injEq, List.cons_ne_nil, and_false] at heq
        · rintro (h | ⟨-, h⟩)
          · cases h
          · obtain rfl := (List.cons.inj h).1
            exact absurd hlt (Int.lt_irrefl _)
      · split
        · rename_i hx
          subst hx
          simp
        · simp
          rintro rfl
          contradiction
  | cons y l ih =>
    rw [List.cons_append, insertLoop, insertLoop]
    split
    · rename_i hlt
      rw [List.cons_inj_right, ih, List.forall_mem_cons]
      tauto
    · rename_i hge
      have hnot : ¬ ∀ x ∈ y :: l, x < v := fun h => hge (h y List.mem_cons_self)
      split
      · rw [List.cons_inj_right, List.append_right_eq_self]
        tauto
      · rw [List.cons_inj_right, List.cons_inj_right, List.append_right_eq_self]
        tauto

end InsertLoop

section LoopRows

variable {rs : List (List Int)}

theorem length_loopRows (v : Int) (rs : List (List Int)) : (loopRows v rs).length = rs.length := by
  induction rs generalizing v with
  | nil => rfl
  | cons r rs ih => rw [loopRows, List.length_cons, ih, List.length_cons]

theorem loopRows_append (v : Int) (rs qs : List (List Int)) :
    loopRows v (rs ++ qs) = loopRows v rs ++ loopRows (v + rs.length) qs := by
  induction rs generalizing v with
  | nil =>
    rw [List.length_nil, Int.natCast_zero, Int.add_zero]
    rfl
  | cons r rs ih =>
    rw [List.cons_append, loopRows, loopRows, ih, List.cons_append, List.length_cons]
    congr 3
    omega

theorem loopRows_getElem? (v : Int) (rs : List (List Int)) (i : Nat) :
    (loopRows v rs)[i]? = rs[i]?.map (insertLoop (v + i)) := by
  induction rs generalizing v i with
  | nil => rfl
  | cons r rs ih =>
    cases i with
    | zero =>
      rw [Int.natCast_zero, Int.add_zero]
      rfl
    | succ i =>
      rw [loopRows, List.getElem?_cons_succ, List.getElem?_cons_succ, ih]
      congr 2
      omega

end LoopRows

/-! ## What stands in memory -/

/-- From `e` on, memory holds the list. -/
def Holds (get : Int → Int) (e : Int) : List Int → Prop
  | [] => True
  | x :: l => get e = x ∧ Holds get (e + 1) l

section Holds

variable {get : Int → Int} {e : Int}

theorem holds_append {l m : List Int} :
    Holds get e (l ++ m) ↔ Holds get e l ∧ Holds get (e + l.length) m := by
  induction l generalizing e with
  | nil => simp [Holds]
  | cons x l ih =>
    rw [List.cons_append, Holds, Holds, ih, and_assoc, List.length_cons]
    rw [show e + 1 + (l.length : Int) = e + ((l.length + 1 : Nat) : Int) by omega]

theorem holds_peek (past : Int → Int) (pre l : List Int) :
    Holds (peek (pre ++ l) past) pre.length l := by
  induction l generalizing pre with
  | nil => trivial
  | cons x l ih =>
    constructor
    · rw [peek, if_pos ⟨by omega, by simp⟩, Int.toNat_natCast, List.getD_eq_getElem?_getD,
        List.getElem?_append_right (Nat.le_refl _), Nat.sub_self]
      rfl
    · have := ih (pre ++ [x])
      rw [List.append_assoc, List.singleton_append, List.length_append] at this
      exact this

theorem holds_peek_zero (past : Int → Int) (l : List Int) : Holds (peek l past) 0 l :=
  holds_peek past [] l

theorem peek_past {past : Int → Int} {l : List Int} {i : Int} (h : l.length ≤ i) :
    peek l past i = past i := if_neg (by omega)

/-- What stands in a stretch of memory. -/
theorem Holds.replicate {k : Nat} {x i : Int} (h : Holds get e (List.replicate k x)) (hlo : e ≤ i)
    (hhi : i < e + k) : get i = x := by
  induction k generalizing e with
  | zero => omega
  | succ k ih =>
    rcases Int.lt_or_eq_of_le hlo with hlt | rfl
    · exact ih h.2 hlt (by omega)
    · exact h.1

theorem Holds.congr {get' : Int → Int} {l : List Int} (h : Holds get e l)
    (heq : ∀ i, e ≤ i → get' i = get i) : Holds get' e l := by
  induction l generalizing e with
  | nil => trivial
  | cons x l ih => exact ⟨(heq e (Int.le_refl e)).trans h.1, ih h.2 fun i hi => heq i (by omega)⟩

theorem holds_replicate {k : Nat} {x : Int} (h : ∀ i : Nat, i < k → get (e + i) = x) :
    Holds get e (List.replicate k x) := by
  induction k generalizing e with
  | zero => trivial
  | succ k ih =>
    refine ⟨by simpa using h 0 (Nat.zero_lt_succ k), ih fun i hi => ?_⟩
    have := h (i + 1) (by omega)
    rwa [Int.natCast_add, Int.add_comm (i : Int), ← Int.add_assoc] at this

theorem exists_holds (get : Int → Int) (e : Int) (k : Nat) :
    ∃ l : List Int, l.length = k ∧ Holds get e l := by
  induction k generalizing e with
  | zero => exact ⟨[], rfl, trivial⟩
  | succ k ih =>
    obtain ⟨l, hl, hh⟩ := ih (e + 1)
    exact ⟨get e :: l, congrArg (· + 1) hl, rfl, hh⟩

end Holds

/-! ## Rows -/

section Csr

variable {get : Int → Int} {vid e : Int} {row : List Int}

theorem copyRest_eq (h : Holds get e row) (out : List Int) :
    copyRest get row.length e out = out ++ row := by
  induction row generalizing e out with
  | nil => exact (List.append_nil out).symm
  | cons x row ih =>
    rw [List.length_cons, copyRest, h.1, ih h.2, List.append_assoc, List.singleton_append]

/-- A row gets its self-loop, whatever stands behind it. -/
theorem selfLoopRow_eq (h : Holds get e row) (out : List Int) :
    selfLoopRow get vid e (e + row.length) out = out ++ insertLoop vid row := by
  induction row generalizing e out with
  | nil => simp [selfLoopRow, copyBelow, copyRest, insertLoop]
  | cons x row ih =>
    obtain ⟨hx, hrow⟩ := h
    have hstop : e + ((x :: row).length : Int) = e + 1 + row.length := by
      rw [List.length_cons]
      omega
    have hcount : (e + 1 + (row.length : Int) - e).toNat = row.length + 1 := by omega
    have hrest : ∀ out, copyRest get (row.length + 1) e out = out ++ x :: row :=
      copyRest_eq (show Holds get e (x :: row) from ⟨hx, hrow⟩)
    rw [hstop, insertLoop]
    split
    · -- the first loop copies the entry
      rename_i hlt
      have hnext : selfLoopRow get vid e (e + 1 + row.length) out =
          selfLoopRow get vid (e + 1) (e + 1 + row.length) (out ++ [x]) := by
        rw [selfLoopRow, hcount, copyBelow, hx, if_pos hlt, selfLoopRow,
          show (e + 1 + (row.length : Int) - (e + 1)).toNat = row.length by omega]
      rw [hnext, ih hrow, List.append_assoc, List.singleton_append]
    · rename_i hlt
      rw [selfLoopRow, hcount, copyBelow, hx, if_neg hlt]
      dsimp only
      rw [hx, hcount]
      by_cases hv : x = vid
      · rw [if_pos hv, if_neg (by omega), hrest]
      · rw [if_neg hv, if_pos (Or.inl hv), hrest, List.append_assoc, List.singleton_append]

/-- `add_self_loop_csr` on given rows. -/
theorem addSelfLoopCsr_offsets (past : Int → Int) (rs : List (List Int)) :
    addSelfLoopCsr past (Csr.offsets rs) rs.flatten =
      .ok (Csr.offsets (loopRows 0 rs), (loopRows 0 rs).flatten) := by
  have hloop : Run.Meets (fun _ => False) (addSelfLoopCsr past (Csr.offsets rs) rs.flatten)
      fun s => s = (Csr.offsets (loopRows 0 rs), (loopRows 0 rs).flatten) := by
    -- after `vid` rounds the first `vid` rows are there
    apply (Run.meets_forLoop (fun vid s => 0 ≤ vid ∧
      s = (Csr.offsets ((loopRows 0 rs).take vid.toNat), ((loopRows 0 rs).take vid.toNat).flatten))
      (rs.length : Int) ?_ _ 0 _ (by rw [Csr.length_offsets]; omega) ⟨Int.le_refl 0, rfl⟩).mono
    · rintro s ⟨-, rfl⟩
      rw [Int.toNat_natCast, List.take_of_length_le (Nat.le_of_eq (length_loopRows 0 rs))]
    · rintro vid s hlt ⟨h0, rfl⟩
      obtain ⟨v, rfl⟩ := Int.eq_ofNat_of_zero_le h0
      have hv : v < rs.length := by omega
      have hsplit : rs = rs.take v ++ rs[v] :: rs.drop (v + 1) := by
        rw [← List.drop_eq_getElem_cons hv, List.take_append_drop]
      have hstart := Csr.offsets_getD (Nat.le_of_lt hv)
      have hstop : (Csr.offsets rs).getD (v + 1) 0 = (rs.take v).flatten.length + rs[v].length := by
        rw [Csr.offsets_getD hv, List.take_add_one, List.getElem?_eq_getElem hv,
          Option.toList_some, List.flatten_append, List.length_append, List.flatten_singleton]
        exact Int.natCast_add _ _
      have hrow : Holds (peek rs.flatten past) ((rs.take v).flatten.length : Nat) rs[v] := by
        have hh := holds_peek past (rs.take v).flatten (rs[v] ++ (rs.drop (v + 1)).flatten)
        rw [← List.flatten_cons, ← List.flatten_append, ← hsplit, List.flatten_cons] at hh
        exact (holds_append.mp hh).1
      have htake : (loopRows 0 rs).take (v + 1) =
          (loopRows 0 rs).take v ++ [insertLoop v rs[v]] := by
        rw [List.take_add_one, loopRows_getElem?, List.getElem?_eq_getElem hv, Int.zero_add]
        rfl
      unfold selfLoopVertex
      rw [Block.read_getD (by rw [Csr.length_offsets]; omega) 0, Run.ok_bind,
        show (v : Int) + 1 = ((v + 1 : Nat) : Int) by omega,
        Block.read_getD (by rw [Csr.length_offsets]; omega) 0, Run.ok_bind, Run.meets_pure,
        Int.toNat_natCast, Int.toNat_natCast, hstart, hstop, selfLoopRow_eq hrow, htake,
        Csr.offsets_concat, List.flatten_append, List.flatten_singleton, List.length_append,
        Int.natCast_add]
      exact ⟨by omega, rfl⟩
  obtain ⟨s, hrun, rfl⟩ := hloop.exists_ok fun e he => he.elim
  exact hrun

end Csr

end Laconic.Graph

import Laconic.Graph.Check
import Laconic.Graph.CooConvert

/-!
# The checker for edge lists

`check_coo` loads both edge lists with `coo_convert` and compares the rows as `check_csr` does.  The
order of the blocks permutes the rows of both graphs.  What the stack of rules hands out is then
permuted, too, and the comparison after sorting has the same outcome; this does not depend on the
references between rules being acyclic.
-/

namespace Laconic.Check

open Slp

/-- Both calls of `coo_convert` use the same number of threads, each in an order of its own. -/
def checkCoo (fuel numThread : Nat) (order compressOrder : List Nat)
    (src dst compressSrc compressDst : List Int) (vertexCnt ruleCnt : Nat) : Run Bool := do
  let graph ← cooConvert order (Block.alloc vertexCnt fun _ => []) src dst vertexCnt numThread
  let compressedGraph ← cooConvert compressOrder (Block.alloc (vertexCnt + ruleCnt : Nat) fun _ => [])
    compressSrc compressDst (vertexCnt + ruleCnt) numThread
  checkFrom fuel graph compressedGraph vertexCnt vertexCnt 0

/-! ## Runs of the stack -/

/-- The right-hand sides that the stack reads.  A rule outside the graph is one that never ends. -/
def stackRhs (cg : Block (List Int)) (V x : Int) : Option (List Int) :=
  if V ≤ x then some (if cg.InB x then cg.cells x else [x]) else none

/-- The loop of `push_successors`. -/
def stackLoop (cg : Block (List Int)) (V : Int) (fuel : Nat) (s : List Int × List Int) :
    Run (List Int × List Int) :=
  Run.whileLoop (fun s : List Int × List Int => pure (!s.1.isEmpty)) (popRule cg V) fuel s

section Stack

variable {cg cg' : Block (List Int)} {V x : Int} {row ys : List Int}

theorem foldl_pushDst_eq (row : List Int) (s : List Int × List Int) :
    row.foldl (pushDst V) s = ((row.filter fun x => decide (V ≤ x)).reverse ++ s.1,
      s.2 ++ row.filter fun x => !decide (V ≤ x)) := by
  induction row generalizing s with
  | nil => simp
  | cons x row ih =>
    rw [List.foldl_cons, ih, pushDst]
    by_cases hx : V ≤ x
    · simp [hx]
    · simp [hx]

theorem stackRhs_vertex (h : x < V) : stackRhs cg V x = none := if_neg (by omega)

theorem stackRhs_rule (h : V ≤ x) (hin : cg.InB x) : stackRhs cg V x = some (cg.cells x) := by
  rw [stackRhs, if_pos h, if_pos hin]

/-- The expansion of a row from that of its rules. -/
theorem expands_row {as : List Int}
    (h : Expands (stackRhs cg V) (row.filter fun x => decide (V ≤ x)).reverse as) :
    ∃ zs, Expands (stackRhs cg V) row zs ∧
      zs.Perm ((row.filter fun x => !decide (V ≤ x)) ++ as) := by
  have hverts : Expands (stackRhs cg V) (row.filter fun x => !decide (V ≤ x))
      (row.filter fun x => !decide (V ≤ x)) := by
    apply Expands.of_terminals
    intro x hx
    apply stackRhs_vertex
    simpa using (List.mem_filter.mp hx).2
  have hperm : ((row.filter fun x => !decide (V ≤ x)) ++
      (row.filter fun x => decide (V ≤ x)).reverse).Perm row := by
    apply ((List.reverse_perm _).append_left _).trans
    exact List.perm_append_comm.trans (List.filter_append_perm _ row)
  obtain ⟨zs, hzs, hp⟩ := (hverts.append h).perm hperm
  exact ⟨zs, hzs, hp.symm⟩

theorem stackLoop_cons (hin : cg.InB x) (n : Nat) (PQ result : List Int) :
    stackLoop cg V (n + 1) (x :: PQ, result) = stackLoop cg V n
      (((cg.cells x).filter fun x => decide (V ≤ x)).reverse ++ PQ,
        result ++ (cg.cells x).filter fun x => !decide (V ≤ x)) := by
  rw [stackLoop, Run.whileLoop, Run.pure_bind]
  change (popRule cg V (x :: PQ, result) >>= _) = _
  unfold popRule
  dsimp only
  rw [Block.read_eq hin, Run.ok_bind, foldl_pushDst_eq]
  rfl

/-- What the stack hands out is the expansion of its rules. -/
theorem expands_of_stackLoop {n : Nat} {s t : List Int × List Int} (hs : ∀ x ∈ s.1, V ≤ x)
    (h : stackLoop cg V n s = .ok t) :
    ∃ ys, Expands (stackRhs cg V) s.1 ys ∧ t.2.Perm (s.2 ++ ys) := by
  induction n generalizing s with
  | zero => cases h
  | succ n ih =>
    obtain ⟨stack, result⟩ := s
    cases stack with
    | nil =>
      cases h
      exact ⟨[], .nil, by rw [List.append_nil]⟩
    | cons x PQ =>
      have hx := hs x List.mem_cons_self
      by_cases hin : cg.InB x
      · rw [stackLoop_cons hin] at h
        obtain ⟨ys', hys', hperm⟩ := ih (fun y hy => by
          rcases List.mem_append.mp hy with hy | hy
          · simpa using (List.mem_filter.mp (List.mem_reverse.mp hy)).2
          · exact hs y (List.mem_cons_of_mem _ hy)) h
        obtain ⟨as, bs, rfl, ha, hb⟩ := Expands.append_iff.mp hys'
        obtain ⟨zs, hzs, hpz⟩ := expands_row ha
        refine ⟨zs ++ bs, .rule (stackRhs_rule hx hin) hzs hb, hperm.trans ?_⟩
        dsimp only
        rw [List.append_assoc, ← List.append_assoc _ as]
        exact (hpz.symm.append_right bs).append_left result
      · rw [stackLoop, Run.whileLoop, Run.pure_bind] at h
        change (popRule cg V (x :: PQ, result) >>= _) = _ at h
        unfold popRule Block.read at h
        dsimp only at h
        rw [if_neg hin] at h
        cases h

/-- A rule is taken from the stack, with all that it leads to. -/
def Pops (cg : Block (List Int)) (V x : Int) : Prop := ∀ PQ result, ∃ n result', ∀ k,
  stackLoop cg V (n + k) (x :: PQ, result) = stackLoop cg V k (PQ, result')

theorem stackLoop_of_pops {xs : List Int} (h : ∀ x ∈ xs, Pops cg V x) (PQ result : List Int) :
    ∃ n result', ∀ k, stackLoop cg V (n + k) (xs ++ PQ, result) = stackLoop cg V k (PQ, result') := by
  induction xs generalizing result with
  | nil => exact ⟨0, result, fun k => by rw [Nat.zero_add]; rfl⟩
  | cons x xs ih =>
    obtain ⟨n, result₁, h₁⟩ := h x List.mem_cons_self (xs ++ PQ) result
    obtain ⟨m, result₂, h₂⟩ := ih (fun y hy => h y (List.mem_cons_of_mem _ hy)) result₁
    refine ⟨n + m, result₂, fun k => ?_⟩
    rw [Nat.add_assoc, List.cons_append, h₁, h₂]

theorem pops_of_expands {xs : List Int} (h : Expands (stackRhs cg V) xs ys) :
    ∀ x ∈ xs, V ≤ x → Pops cg V x := by
  induction h with
  | nil =>
    intro x hx
    cases hx
  | terminal hy _ ih =>
    intro x hx hV
    rcases List.mem_cons.mp hx with rfl | hx
    · rw [stackRhs, if_pos hV] at hy
      cases hy
    · exact ih x hx hV
  | @rule y zs xs as bs hy hzs _ ihz ih =>
    intro x hx hV
    rcases List.mem_cons.mp hx with rfl | hx
    · by_cases hin : cg.InB x
      · rw [stackRhs_rule hV hin, Option.some_inj] at hy
        subst hy
        intro PQ result
        have hrules : ∀ z ∈ ((cg.cells x).filter fun x => decide (V ≤ x)).reverse,
            Pops cg V z := by
          intro z hz
          have hz' := List.mem_filter.mp (List.mem_reverse.mp hz)
          exact ihz z hz'.1 (of_decide_eq_true hz'.2)
        obtain ⟨n, result', hrun⟩ := stackLoop_of_pops hrules PQ
          (result ++ (cg.cells x).filter fun x => !decide (V ≤ x))
        refine ⟨n + 1, result', fun k => ?_⟩
        rw [show n + 1 + k = n + k + 1 by omega, stackLoop_cons hin, hrun]
      · -- a rule outside the graph has no expansion
        have hself : stackRhs cg V x = some [x] := by
          rw [stackRhs, if_pos hV, if_neg hin]
        obtain rfl := Option.some_inj.mp (hy.symm.trans hself)
        exact absurd (List.mem_singleton_self x)
          (hzs.not_mem_of_self hself (List.mem_singleton_self x))
    · exact ih x hx hV

/-- `push_successors` on the rule `x`. -/
theorem expands_of_pushSuccessors {fuel : Nat} {result re : List Int} (hx : V ≤ x)
    (h : pushSuccessors fuel result cg [x] V = .ok re) :
    ∃ ys, Expands (stackRhs cg V) [x] ys ∧ re.Perm (result ++ ys) := by
  unfold pushSuccessors at h
  obtain ⟨t, ht, h⟩ := Run.bind_eq_ok.mp h
  cases h
  apply expands_of_stackLoop (s := ([x], result)) _ ht
  intro y hy
  rw [List.mem_singleton.mp hy]
  exact hx

theorem Pops.pushSuccessors (h : Pops cg V x) (result : List Int) :
    ∃ enough re, ∀ fuel, enough ≤ fuel → pushSuccessors fuel result cg [x] V = .ok re := by
  obtain ⟨n, result', hrun⟩ := h [] result
  refine ⟨n + 1, result', fun fuel hfuel => ?_⟩
  obtain ⟨k, rfl⟩ : ∃ k, fuel = n + (k + 1) := ⟨fuel - n - 1, by omega⟩
  have hloop := hrun (k + 1)
  unfold stackLoop at hloop
  unfold Check.pushSuccessors
  rw [hloop]
  rfl

/-- The successors of a row are its expansion, in some order. -/
theorem expands_of_addSuccessors {fuel : Nat} {acc re : List Int}
    (h : row.foldlM (addSuccessor fuel cg V) acc = .ok re) :
    ∃ ys, Expands (stackRhs cg V) row ys ∧ re.Perm (acc ++ ys) := by
  induction row generalizing acc with
  | nil =>
    cases h
    exact ⟨[], .nil, by rw [List.append_nil]⟩
  | cons x row ih =>
    rw [List.foldlM_cons] at h
    obtain ⟨acc₁, h₁, h₂⟩ := Run.bind_eq_ok.mp h
    obtain ⟨ys, hys, hperm⟩ := ih h₂
    unfold addSuccessor at h₁
    split at h₁
    · rename_i hx
      obtain ⟨zs, hzs, hpz⟩ := expands_of_pushSuccessors hx h₁
      refine ⟨zs ++ ys, Expands.cons_iff.mpr ⟨zs, ys, rfl, hzs, hys⟩, hperm.trans ?_⟩
      rw [← List.append_assoc]
      exact hpz.append_right ys
    · rename_i hx
      cases h₁
      refine ⟨x :: ys, .terminal (stackRhs_vertex (by omega)) hys, hperm.trans ?_⟩
      rw [List.append_assoc]
      exact List.Perm.refl _

theorem addSuccessors_of_expands (h : Expands (stackRhs cg V) row ys) (acc : List Int) :
    ∃ enough re, ∀ fuel, enough ≤ fuel → row.foldlM (addSuccessor fuel cg V) acc = .ok re := by
  have hpops := pops_of_expands h
  clear h
  induction row generalizing acc with
  | nil => exact ⟨0, acc, fun fuel _ => rfl⟩
  | cons x row ih =>
    have hstep : ∃ enough acc₁, ∀ fuel, enough ≤ fuel → addSuccessor fuel cg V acc x = .ok acc₁ := by
      unfold addSuccessor
      by_cases hx : V ≤ x
      · simp only [if_pos hx]
        exact (hpops x List.mem_cons_self hx).pushSuccessors acc
      · simp only [if_neg hx]
        exact ⟨0, acc ++ [x], fun fuel _ => rfl⟩
    obtain ⟨n, acc₁, h₁⟩ := hstep
    obtain ⟨m, re, h₂⟩ := ih acc₁ fun y hy => hpops y (List.mem_cons_of_mem _ hy)
    refine ⟨max n m, re, fun fuel hfuel => ?_⟩
    rw [List.foldlM_cons, h₁ fuel (by omega), Run.ok_bind, h₂ fuel (by omega)]

end Stack

/-! ## Graphs with permuted rows -/

/-- The same rows up to order. -/
structure SameRows (g g' : Block (List Int)) : Prop where
  size : g.size = g'.size
  rows : ∀ v, g.InB v → (g.cells v).Perm (g'.cells v)

section SameRows

variable {g g' cg cg' : Block (List Int)} {V : Int}

theorem SameRows.symm (h : SameRows g g') : SameRows g' g := by
  refine ⟨h.size.symm, fun v hv => (h.rows v ?_).symm⟩
  exact ⟨hv.1, by rw [h.size]; exact hv.2⟩

theorem SameRows.inB (h : SameRows g g') {v : Int} (hv : g.InB v) : g'.InB v :=
  ⟨hv.1, by rw [← h.size]; exact hv.2⟩

/-- The expansions are the same up to order. -/
theorem SameRows.expands (h : SameRows cg cg') {xs xs' ys : List Int} (hp : xs.Perm xs')
    (hys : Expands (stackRhs cg V) xs ys) : ∃ ys', Expands (stackRhs cg' V) xs' ys' ∧ ys.Perm ys' := by
  obtain ⟨ys₁, h₁, hp₁⟩ := hys.perm hp
  have hnone : ∀ x, stackRhs cg V x = none → stackRhs cg' V x = none := by
    intro x hx
    unfold stackRhs at hx ⊢
    split at hx
    · cases hx
    · rename_i hV
      exact if_neg hV
  have hsome : ∀ x zs, stackRhs cg V x = some zs →
      ∃ zs', stackRhs cg' V x = some zs' ∧ zs.Perm zs' := by
    intro x zs hx
    unfold stackRhs at hx ⊢
    split at hx
    · rename_i hV
      rw [if_pos hV]
      refine ⟨_, rfl, ?_⟩
      rw [← Option.some_inj.mp hx]
      by_cases hin : cg.InB x
      · rw [if_pos hin, if_pos (h.inB hin)]
        exact h.rows x hin
      · rw [if_neg hin, if_neg fun hin' => hin (h.symm.inB hin')]
    · cases hx
  obtain ⟨ys₂, h₂, hp₂⟩ := h₁.perm_rhs hnone hsome
  exact ⟨ys₂, h₂, hp₁.trans hp₂⟩

theorem SameRows.getCompressSuccessors (h : SameRows cg cg') {fuel : Nat} {v : Int} {re : List Int}
    (hrun : getCompressSuccessors fuel cg v V = .ok re) :
    ∃ enough re', re.Perm re' ∧
      ∀ fuel, enough ≤ fuel → Check.getCompressSuccessors fuel cg' v V = .ok re' := by
  unfold Check.getCompressSuccessors at hrun
  obtain ⟨row, hrow, hrun⟩ := Run.bind_eq_ok.mp hrun
  obtain ⟨hin, rfl⟩ := Block.read_eq_ok.mp hrow
  obtain ⟨ys, hys, hperm⟩ := expands_of_addSuccessors hrun
  obtain ⟨ys', hys', hpy⟩ := h.expands (h.rows v hin) hys
  obtain ⟨enough, re', hre'⟩ := addSuccessors_of_expands hys' []
  obtain ⟨ys'', hys'', hperm''⟩ := expands_of_addSuccessors (hre' enough (Nat.le_refl _))
  rw [hys''.unique hys'] at hperm''
  refine ⟨enough, re', hperm.trans (hpy.trans hperm''.symm), fun fuel hfuel => ?_⟩
  unfold Check.getCompressSuccessors
  rw [Block.read_eq (h.inB hin), Run.ok_bind, hre' fuel hfuel]

/-- The checker has the same outcome. -/
theorem SameRows.checkFrom (hg : SameRows g g') (hc : SameRows cg cg') {fuel n : Nat} {v : Int}
    {b : Bool} (hrun : checkFrom fuel g cg V n v = .ok b) :
    ∃ enough, ∀ fuel, enough ≤ fuel → Check.checkFrom fuel g' cg' V n v = .ok b := by
  induction n generalizing v with
  | zero =>
    cases hrun
    exact ⟨0, fun fuel _ => rfl⟩
  | succ n ih =>
    unfold Check.checkFrom getOriSuccessors at hrun
    obtain ⟨row, hrow, hrun⟩ := Run.bind_eq_ok.mp hrun
    obtain ⟨re, hre, hrun⟩ := Run.bind_eq_ok.mp hrun
    obtain ⟨hin, rfl⟩ := Block.read_eq_ok.mp hrow
    obtain ⟨n₁, re', hperm, hre'⟩ := hc.getCompressSuccessors hre
    have hcompare : compare (g.cells v) re = compare (g'.cells v) re' := by
      rw [Bool.eq_iff_iff, compare_iff, compare_iff]
      constructor
      · intro hp
        exact (hg.rows v hin).symm.trans (hp.trans hperm)
      · intro hp
        exact (hg.rows v hin).trans (hp.trans hperm.symm)
    have hunfold : ∀ fuel, n₁ ≤ fuel → Check.checkFrom fuel g' cg' V (n + 1) v =
        if compare (g.cells v) re then Check.checkFrom fuel g' cg' V n (v + 1) else pure false := by
      intro fuel hfuel
      rw [Check.checkFrom, getOriSuccessors, Block.read_eq (hg.inB hin), Run.ok_bind, hre' fuel hfuel,
        Run.ok_bind, hcompare]
    split at hrun
    · rename_i hcmp
      obtain ⟨n₂, hn₂⟩ := ih hrun
      refine ⟨max n₁ n₂, fun fuel hfuel => ?_⟩
      rw [hunfold fuel (by omega), if_pos hcmp, hn₂ fuel (by omega)]
    · rename_i hcmp
      refine ⟨n₁, fun fuel hfuel => ?_⟩
      rw [hunfold fuel hfuel, if_neg hcmp]
      exact hrun

end SameRows

/-! ## The result -/

section CheckCoo

variable {src dst csrc cdst : List Int} {V k T T' : Nat}

theorem Loads.sameRows {order order' : List Nat} (h : Loads order T src dst V)
    (h' : Loads order' T' src dst V) : ∃ g g',
      cooConvert order (Block.alloc V fun _ => []) src dst V T = .ok g ∧
      cooConvert order' (Block.alloc V fun _ => []) src dst V T' = .ok g' ∧ SameRows g g' := by
  obtain ⟨g, hg, hsize, hcells⟩ := h
  obtain ⟨g', hg', hsize', hcells'⟩ := h'
  refine ⟨g, g', hg, hg', hsize.trans hsize'.symm, fun v hv => ?_⟩
  have hlt : v < (V : Int) := by
    rw [← hsize]
    exact hv.2
  exact (hcells v hv.1 hlt).trans (hcells' v hv.1 hlt).symm

/-- When both lists are loaded completely, neither the number of threads nor the orders of the
blocks have an influence on the result. -/
theorem checkCoo_of_loads {o o' p p' : List Nat} (h : Loads o T src dst V)
    (h' : Loads o' T' src dst V) (hc : Loads p T csrc cdst (V + k))
    (hc' : Loads p' T' csrc cdst (V + k)) {fuel : Nat} {b : Bool}
    (hrun : checkCoo fuel T o p src dst csrc cdst V k = .ok b) :
    ∃ fuel', checkCoo fuel' T' o' p' src dst csrc cdst V k = .ok b := by
  obtain ⟨g, g', hg, hg', hrows⟩ := h.sameRows h'
  obtain ⟨cg, cg', hcg, hcg', hcrows⟩ := hc.sameRows hc'
  unfold checkCoo at hrun
  rw [hg, Run.ok_bind, hcg, Run.ok_bind] at hrun
  obtain ⟨enough, henough⟩ := hrows.checkFrom hcrows hrun
  refine ⟨enough, ?_⟩
  unfold checkCoo
  rw [hg', Run.ok_bind, hcg', Run.ok_bind, henough enough (Nat.le_refl _)]

/-- Every edge is loaded once exactly when the bounds of the blocks are `uint`s.  Then `check_coo`
depends neither on the number of threads nor on the order of the blocks. -/
theorem coo_loaded_iff {src : List Int} {V T : Nat} {o : List Nat} (hsrc : SourcesIn src V)
    (h0 : 0 < T) (hT : T < uintBound) (ho : o.Perm (List.range T)) :
    ((∀ dst : List Int, dst.length = src.length → Loads o T src dst V) ↔
      BlocksFit src.length T) ∧
    ∀ (dst csrc cdst : List Int) (k T' : Nat) (o' p p' : List Nat),
      dst.length = src.length → SourcesIn csrc (V + k) → cdst.length = csrc.length →
      0 < T' → T' < uintBound → p.Perm (List.range T) →
      o'.Perm (List.range T') → p'.Perm (List.range T') →
      BlocksFit src.length T → BlocksFit csrc.length T →
      BlocksFit src.length T' → BlocksFit csrc.length T' → ∀ b,
      ((∃ fuel, checkCoo fuel T o p src dst csrc cdst V k = .ok b) ↔
        ∃ fuel, checkCoo fuel T' o' p' src dst csrc cdst V k = .ok b) := by
  refine ⟨loads_iff h0 hT hsrc ho, ?_⟩
  intro dst csrc cdst k T' o' p p' hlen hcsrc hclen h0' hT' hp ho' hp' hfit hcfit hfit' hcfit' b
  have hload := hfit.loads h0 hT hsrc hlen ho
  have hload' := hfit'.loads h0' hT' hsrc hlen ho'
  have hcload := hcfit.loads h0 hT hcsrc hclen hp
  have hcload' := hcfit'.loads h0' hT' hcsrc hclen hp'
  constructor
  · rintro ⟨fuel, hrun⟩
    exact checkCoo_of_loads hload hload' hcload hcload' hrun
  · rintro ⟨fuel, hrun⟩
    exact checkCoo_of_loads hload' hload hcload' hcload hrun

/-- Three edges, with one thread and with two, whose second block comes first. -/
theorem coo_loaded_three :
    BlocksFit [(0 : Int), 1, 0].length 2 ∧ Loads [1, 0] 2 [0, 1, 0] [1, 0, 1] 2 ∧
      ((∃ fuel, checkCoo fuel 2 [1, 0] [0, 1] [0, 1, 0] [1, 0, 1] [0, 1, 0] [1, 0, 1] 2 0 =
          .ok true) ↔
        ∃ fuel, checkCoo fuel 1 [0] [0] [0, 1, 0] [1, 0, 1] [0, 1, 0] [1, 0, 1] 2 0 = .ok true) := by
  have hfit : BlocksFit [(0 : Int), 1, 0].length 2 := by decide
  have hfit' : BlocksFit [(0 : Int), 1, 0].length 1 := by decide
  have hsrc : SourcesIn [0, 1, 0] 2 := by decide
  have hperm : [1, 0].Perm (List.range 2) := by decide
  refine ⟨hfit, ?_, ?_⟩
  · exact (coo_loaded_iff hsrc (by decide) (by decide) hperm).1.mpr hfit [1, 0, 1] rfl
  · exact (coo_loaded_iff hsrc (by decide) (by decide) hperm).2 [1, 0, 1] [0, 1, 0] [1, 0, 1] 0 1
      [0] [0, 1] [0] rfl hsrc rfl (by decide) (by decide) (by decide) (by decide) (by decide) hfit
      hfit hfit' hfit' true

end CheckCoo

/-! ## A block that wraps -/

section Wrap

variable {n m T size : Nat}

/-- `n` times the edge from 0 to itself. -/
theorem cooConvert_replicate (hsize : blockSize n T = .ok size) (order : List Nat) :
    ∃ graph, cooConvert order (Block.alloc (1 : Nat) fun _ => []) (List.replicate n 0)
        (List.replicate n 0) 1 T = .ok graph ∧ graph.size = 1 ∧
      graph.cells 0 = List.replicate (order.flatMap (blockEdges n size)).length 0 := by
  have hsrc : SourcesIn (List.replicate n 0) 1 := by
    intro v hv
    rw [List.eq_of_mem_replicate hv]
    decide
  have hlen : (List.replicate n (0 : Int)).length = n := List.length_replicate
  obtain ⟨graph, hrun, hgsize, hcells⟩ := cooConvert_eq (T := T) hsrc rfl
    (by rw [hlen]; exact hsize) order
  refine ⟨graph, hrun, hgsize, ?_⟩
  have hget : ∀ e, (List.replicate n (0 : Int)).getD e 0 = 0 := by
    intro e
    rw [List.getD_eq_getElem?_getD, List.getElem?_replicate]
    split
    · rfl
    · rfl
  rw [hcells 0 (Int.le_refl 0) (by decide), hlen, edgesFrom, List.filter_eq_self.mpr fun e _ => by
    rw [hget, decide_eq_true rfl]]
  exact List.eq_replicate_iff.mpr ⟨List.length_map .., fun x hx => by
    obtain ⟨e, -, rfl⟩ := List.mem_map.mp hx
    exact hget e⟩

theorem addSuccessors_vertices {cg : Block (List Int)} {V : Int} {fuel : Nat} {row : List Int}
    (h : ∀ x ∈ row, x < V) (acc : List Int) :
    row.foldlM (addSuccessor fuel cg V) acc = .ok (acc ++ row) := by
  induction row generalizing acc with
  | nil =>
    rw [List.append_nil]
    rfl
  | cons x row ih =>
    have hx := h x List.mem_cons_self
    rw [List.foldlM_cons, addSuccessor, if_neg (by omega), Run.pure_bind,
      ih (fun y hy => h y (List.mem_cons_of_mem _ hy)), List.append_assoc]
    rfl

/-- Rows of zeros are equal when they are of the same length. -/
theorem checkFrom_replicate {g cg : Block (List Int)} (hg : g.size = 1) (hcg : cg.size = 1)
    (hrow : g.cells 0 = List.replicate n 0) (hcrow : cg.cells 0 = List.replicate m 0) (fuel : Nat) :
    checkFrom fuel g cg 1 1 0 = .ok (decide (n = m)) := by
  have hin : g.InB 0 := ⟨Int.le_refl 0, by rw [hg]; decide⟩
  have hcin : cg.InB 0 := ⟨Int.le_refl 0, by rw [hcg]; decide⟩
  rw [checkFrom, getOriSuccessors, Block.read_eq hin, Run.ok_bind, getCompressSuccessors,
    Block.read_eq hcin, Run.ok_bind, hrow, hcrow, addSuccessors_vertices, Run.ok_bind, List.nil_append]
  · by_cases hnm : n = m
    · rw [if_pos ((compare_iff _ _).mpr (by rw [hnm])), decide_eq_true hnm]
      rfl
    · rw [if_neg, decide_eq_false hnm]
      · rfl
      · intro hcmp
        have hlen := ((compare_iff _ _).mp hcmp).length_eq
        rw [List.length_replicate, List.length_replicate] at hlen
        exact hnm hlen
  · intro x hx
    rw [List.eq_of_mem_replicate hx]
    decide

theorem checkCoo_replicate {csize : Nat} (hsize : blockSize n T = .ok size)
    (hcsize : blockSize m T = .ok csize) (o p : List Nat) (fuel : Nat) :
    checkCoo fuel T o p (List.replicate n 0) (List.replicate n 0) (List.replicate m 0)
      (List.replicate m 0) 1 0 = .ok (decide ((o.flatMap (blockEdges n size)).length =
        (p.flatMap (blockEdges m csize)).length)) := by
  obtain ⟨g, hg, hgsize, hgrow⟩ := cooConvert_replicate hsize o
  obtain ⟨cg, hcg, hcgsize, hcgrow⟩ := cooConvert_replicate hcsize p
  rw [checkCoo, hg, Run.ok_bind, hcg, Run.ok_bind]
  exact checkFrom_replicate hgsize hcgsize hgrow hcgrow fuel

end Wrap

/-- With two threads the end of the second block of `2 ^ 32 - 1` edges is `2 ^ 32`, that is 0, and
the block is empty.  Half of the edges are lost, and `check_coo` accepts a list with only the other
half, which it does not with one thread. -/
theorem cooConvert_wraps :
    ¬ Loads [0, 1] 2 (List.replicate (2 ^ 32 - 1) 0) (List.replicate (2 ^ 32 - 1) 0) 1 ∧
      checkCoo 1 2 [0, 1] [0, 1] (List.replicate (2 ^ 32 - 1) 0) (List.replicate (2 ^ 32 - 1) 0)
        (List.replicate (2 ^ 31) 0) (List.replicate (2 ^ 31) 0) 1 0 = .ok true ∧
      checkCoo 1 1 [0] [0] (List.replicate (2 ^ 32 - 1) 0) (List.replicate (2 ^ 32 - 1) 0)
        (List.replicate (2 ^ 31) 0) (List.replicate (2 ^ 31) 0) 1 0 = .ok false := by
  have hlost : ([0, 1].flatMap (blockEdges (2 ^ 32 - 1) (2 ^ 31))).length = 2 ^ 31 := by
    rw [List.flatMap_cons, List.flatMap_singleton, List.length_append, blockEdges, blockEdges,
      List.length_range', List.length_range']
    decide
  have hhalf : ([0, 1].flatMap (blockEdges (2 ^ 31) (2 ^ 30))).length = 2 ^ 31 := by
    rw [List.flatMap_cons, List.flatMap_singleton, List.length_append, blockEdges, blockEdges,
      List.length_range', List.length_range']
    decide
  have hall : ([0].flatMap (blockEdges (2 ^ 32 - 1) (2 ^ 32 - 1))).length = 2 ^ 32 - 1 := by
    rw [List.flatMap_singleton, blockEdges, List.length_range']
    decide
  have hone : ([0].flatMap (blockEdges (2 ^ 31) (2 ^ 31))).length = 2 ^ 31 := by
    rw [List.flatMap_singleton, blockEdges, List.length_range']
    decide
  refine ⟨?_, ?_, ?_⟩
  · rintro ⟨graph, hrun, -, hrows⟩
    obtain ⟨graph', hrun', -, hrow⟩ := cooConvert_replicate
      (show blockSize (2 ^ 32 - 1) 2 = .ok (2 ^ 31) from rfl) [0, 1]
    obtain rfl := Except.ok.inj (hrun.symm.trans hrun')
    have hlen := (hrows 0 (Int.le_refl 0) (by decide)).length_eq
    rw [hrow, hlost, List.length_replicate, destinations, List.length_map, List.filter_eq_self.mpr,
      List.length_zip, List.length_replicate] at hlen
    · exact absurd hlen (by decide)
    · intro e he
      rw [List.eq_of_mem_replicate (List.of_mem_zip he).1, decide_eq_true rfl]
  · rw [checkCoo_replicate (show blockSize (2 ^ 32 - 1) 2 = .ok (2 ^ 31) from rfl)
      (show blockSize (2 ^ 31) 2 = .ok (2 ^ 30) from rfl), hlost, hhalf, decide_eq_true rfl]
  · rw [checkCoo_replicate (show blockSize (2 ^ 32 - 1) 1 = .ok (2 ^ 32 - 1) from rfl)
      (show blockSize (2 ^ 31) 1 = .ok (2 ^ 31) from rfl), hall, hone]
    rfl

end Laconic.Check

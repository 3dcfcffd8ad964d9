import Mathlib.Data.Fintype.Card
import Laconic.Graph.CooConvert
import Laconic.Lib.Mutex

/-!
# Loading an edge list with threads

The threads of `coo_convert` sort their blocks at the same time, and wait for each other only at the
mutex.  While a thread holds it, the rows of the graph are extended by a second team of threads, so they
come in any order.  Here a run is a sequence of such steps of all threads, in any interleaving.  The graphs
it can leave are those of `cooConvert`, one for each order of the blocks.
-/

namespace Laconic.Check

open Mutex

variable {src dst : List Int} {V T size : Nat} {graph graph' : Block (List Int)}

/-- What the threads do with their blocks. -/
def convertJob (src dst : List Int) (vertexCnt size numThread : Nat) :
    Job (Fin numThread) Int (Block (List Int)) (Block (List Int)) where
  prepare t := localGraph src dst vertexCnt size t
  keys := (List.range vertexCnt).map fun i : Nat => (i : Int)
  act := insertRow

/-- All threads return and leave `graph'`. -/
def ThreadedConvert (graph : Block (List Int)) (src dst : List Int) (vertexCnt numThread : Nat)
    (graph' : Block (List Int)) : Prop :=
  ∃ size, blockSize src.length numThread = .ok size ∧
    Returns (convertJob src dst vertexCnt size numThread) graph graph'

theorem insertRow_ok {part g : Block (List Int)} {i : Int} (h : part.InB i ∧ g.InB i) :
    insertRow part i g = .ok (g.upd i (· ++ part.cells i)) := by
  rw [insertRow, Block.read_eq h.1, Run.ok_bind, Block.modify_eq h.2]

theorem insertRow_error {part g : Block (List Int)} {i : Int} (h : ¬ (part.InB i ∧ g.InB i)) :
    insertRow part i g = .error .bounds := by
  unfold insertRow Block.read Block.modify
  by_cases hp : part.InB i
  · rw [if_pos hp, Run.ok_bind, if_neg fun hg => h ⟨hp, hg⟩]
  · rw [if_neg hp]
    rfl

/-- Rows are extended independently of each other. -/
theorem convertJob_commutes : (convertJob src dst V size T).Commutes := by
  intro part i j graph hij
  show (insertRow part i graph >>= insertRow part j) = (insertRow part j graph >>= insertRow part i)
  by_cases hi : part.InB i ∧ graph.InB i
  · rw [insertRow_ok hi, Run.ok_bind]
    by_cases hj : part.InB j ∧ graph.InB j
    · rw [insertRow_ok hj, Run.ok_bind, insertRow_ok (g := graph.upd i _) hj,
        insertRow_ok (g := graph.upd j _) hi, Block.upd_comm graph hij]
    · rw [insertRow_error hj, insertRow_error (g := graph.upd i _) hj]
      rfl
  · rw [insertRow_error hi]
    by_cases hj : part.InB j ∧ graph.InB j
    · rw [insertRow_ok hj, Run.ok_bind, insertRow_error (g := graph.upd j _) hi]
      rfl
    · rw [insertRow_error hj]
      rfl

/-- Blocks one after the other. -/
theorem serial_convertJob (order : List (Fin T)) (graph : Block (List Int)) :
    (convertJob src dst V size T).serial order graph =
      (order.map Fin.val).foldlM (loadBlock src dst V size) graph := by
  rw [List.foldlM_map]
  unfold Job.serial Job.critical loadBlock
  congr 1
  funext graph t
  show (localGraph src dst V size t >>= fun part =>
    ((List.range V).map fun i : Nat => (i : Int)).foldlM (fun g i => insertRow part i g) graph) = _
  congr 1
  funext part
  rw [Run.forLoop_eq_foldlM]
  simp only [Int.zero_add]

/-- The orders of the threads are the orders of the blocks. -/
theorem exists_order_iff (P : List Nat → Prop) :
    (∃ order : List (Fin T), order.Nodup ∧ (∀ t, t ∈ order) ∧ P (order.map Fin.val)) ↔
      ∃ order : List Nat, order.Perm (List.range T) ∧ P order := by
  constructor
  · rintro ⟨order, hnodup, hall, hP⟩
    refine ⟨order.map Fin.val, ?_, hP⟩
    rw [List.perm_ext_iff_of_nodup (hnodup.map Fin.val_injective) List.nodup_range]
    intro t
    rw [List.mem_map, List.mem_range]
    constructor
    · rintro ⟨t, -, rfl⟩
      exact t.isLt
    · intro ht
      exact ⟨⟨t, ht⟩, hall _, rfl⟩
  · rintro ⟨order, hperm, hP⟩
    have hlt : ∀ t ∈ order, t < T := fun t ht => List.mem_range.mp (hperm.mem_iff.mp ht)
    have hval : (order.pmap Fin.mk hlt).map Fin.val = order := by
      rw [List.map_pmap]
      exact List.pmap_eq_self.mpr fun t ht => rfl
    refine ⟨order.pmap Fin.mk hlt, ?_, fun t => ?_, ?_⟩
    · exact List.Nodup.of_map Fin.val (hval.symm ▸ hperm.nodup_iff.mpr List.nodup_range)
    · have ht : t.val ∈ (order.pmap Fin.mk hlt).map Fin.val := by
        rw [hval]
        exact hperm.mem_iff.mpr (List.mem_range.mpr t.isLt)
      obtain ⟨u, hu, huv⟩ := List.mem_map.mp ht
      exact Fin.ext huv ▸ hu
    · rw [hval]
      exact hP

theorem threadedConvert_order (h : ThreadedConvert graph src dst V T graph') :
    ∃ order : List Nat, order.Perm (List.range T) ∧
      cooConvert order graph src dst V T = .ok graph' := by
  obtain ⟨size, hsize, hret⟩ := h
  rw [returns_iff convertJob_commutes] at hret
  simp only [serial_convertJob] at hret
  obtain ⟨order, hperm, hrun⟩ := (exists_order_iff fun order =>
    order.foldlM (loadBlock src dst V size) graph = .ok graph').mp hret
  refine ⟨order, hperm, ?_⟩
  rw [cooConvert, hsize, Run.ok_bind, hrun]

/-- The threads leave what the blocks leave in some order, and every order is possible. -/
theorem threadedConvert_iff :
    ThreadedConvert graph src dst V T graph' ↔
      ∃ order : List Nat, order.Perm (List.range T) ∧
        cooConvert order graph src dst V T = .ok graph' := by
  constructor
  · exact threadedConvert_order
  · rintro ⟨order, hperm, hrun⟩
    obtain ⟨size, hsize, hload⟩ := Run.bind_eq_ok.mp hrun
    refine ⟨size, hsize, (returns_iff convertJob_commutes).mpr ?_⟩
    simp only [serial_convertJob]
    exact (exists_order_iff fun order =>
      order.foldlM (loadBlock src dst V size) graph = .ok graph').mpr ⟨order, hperm, hload⟩

/-- A thread never meets a row outside of the graph. -/
theorem convertJob_safe (hsrc : SourcesIn src V) (hlen : dst.length = src.length) :
    (convertJob src dst V size T).Safe fun graph => graph.size = V := by
  constructor
  · intro t
    obtain ⟨part, hpart, -⟩ := (localGraph_meets hsrc hlen size t).exists_ok fun e he => he.elim
    exact ⟨part, hpart⟩
  · intro t part i graph hpart hi hgraph
    obtain ⟨part', hpart', hsize, -⟩ :=
      (localGraph_meets hsrc hlen size t).exists_ok fun e he => he.elim
    obtain rfl : part' = part := Except.ok.inj (hpart'.symm.trans hpart)
    obtain ⟨v, hv, rfl⟩ := List.mem_map.mp hi
    have hv' := List.mem_range.mp hv
    refine ⟨_, insertRow_ok ⟨⟨by omega, ?_⟩, ⟨by omega, ?_⟩⟩, hgraph⟩
    · rw [hsize]
      exact_mod_cast hv'
    · rw [hgraph]
      exact_mod_cast hv'

/-- However the threads are scheduled: there is no deadlock, there are not more steps than these, and
when all have returned every edge has been loaded once. -/
def LoadsInAnyRun (src dst : List Int) (V T size : Nat) : Prop :=
  ∀ n c, Steps (convertJob src dst V size T) n (Config.init (Block.alloc V fun _ => [])) c →
    n ≤ T * (V + 3) ∧
      (c = Config.final c.shared ∨ ∃ c', Step (convertJob src dst V size T) c c') ∧
      (c = Config.final c.shared → c.shared.size = V ∧ ∀ v, 0 ≤ v → v < (V : Int) →
        (c.shared.cells v).Perm (destinations src dst v))

end Laconic.Check

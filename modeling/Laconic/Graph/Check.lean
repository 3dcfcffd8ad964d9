import Mathlib.Algebra.Order.BigOperators.Group.List
import Mathlib.Data.List.Sort
import Laconic.Filter.Convert

/-!
# The checker

`check_csr` of `check.h` expands every row of the compressed graph with a stack of rules and
compares the outcome with the original row after sorting both.  The parallel core has the same
functions over `uint32_t`.  The stack hands out the vertices of a row in another order than the
expansion does, and a rule is expanded again for every reference to it.
-/

namespace Laconic.Check

open Slp
open Laconic.Filter (csrConvert)

def getOriSuccessors (gp : Block (List Int)) (vertexID : Int) : Run (List Int) := gp.read vertexID

/-- One round of the loop over `cg[ruleID]`: a rule goes on the stack `PQ`, a vertex to `result`. -/
def pushDst (vertexCnt : Int) (s : List Int × List Int) (dst : Int) : List Int × List Int :=
  if vertexCnt ≤ dst then (dst :: s.1, s.2) else (s.1, s.2 ++ [dst])

/-- One round of `while (!PQ.empty())`; the top of the stack is the head of the list. -/
def popRule (cg : Block (List Int)) (vertexCnt : Int) (s : List Int × List Int) :
    Run (List Int × List Int) :=
  match s.1 with
  | [] => pure s
  | ruleID :: PQ => do
    let row ← cg.read ruleID
    -- the rules of the row come off the stack last one first
    pure (row.foldl (pushDst vertexCnt) (PQ, s.2))

def pushSuccessors (fuel : Nat) (result : List Int) (cg : Block (List Int)) (PQ : List Int)
    (vertexCnt : Int) : Run (List Int) := do
  let s ← Run.whileLoop (fun s : List Int × List Int => pure (!s.1.isEmpty)) (popRule cg vertexCnt)
    fuel (PQ, result)
  pure s.2

/-- One round of the loop over `cg[vertexID]`. -/
def addSuccessor (fuel : Nat) (cg : Block (List Int)) (vertexCnt : Int) (re : List Int)
    (dst : Int) : Run (List Int) :=
  if vertexCnt ≤ dst then pushSuccessors fuel re cg [dst] vertexCnt else pure (re ++ [dst])

def getCompressSuccessors (fuel : Nat) (cg : Block (List Int)) (vertexID vertexCnt : Int) :
    Run (List Int) := do
  let row ← cg.read vertexID
  row.foldlM (addSuccessor fuel cg vertexCnt) []

/-- `sort` both and compare. -/
def compare (a b : List Int) : Bool := a.insertionSort (· ≤ ·) == b.insertionSort (· ≤ ·)

/-- The loop over the vertices, which returns at the first difference. -/
def checkFrom (fuel : Nat) (graph compressedGraph : Block (List Int)) (vertexCnt : Int) :
    Nat → Int → Run Bool
  | 0, _ => pure true
  | n + 1, v => do
    let oriSuccessors ← getOriSuccessors graph v
    let compressSuccessors ← getCompressSuccessors fuel compressedGraph v vertexCnt
    if compare oriSuccessors compressSuccessors then
      checkFrom fuel graph compressedGraph vertexCnt n (v + 1)
    else pure false

def checkCsr (fuel : Nat) (vlist elist compressVlist compressElist : List Int)
    (vertexCnt ruleCnt : Nat) : Run Bool := do
  let graph ← csrConvert vlist elist vertexCnt
  let compressedGraph ← csrConvert compressVlist compressElist (vertexCnt + ruleCnt)
  -- the rows of the rules are not compared with anything
  checkFrom fuel graph compressedGraph vertexCnt vertexCnt 0

/-! ## Sorting -/

theorem compare_iff (a b : List Int) : compare a b = true ↔ a.Perm b := by
  have hperm := fun l : List Int => l.perm_insertionSort (· ≤ ·)
  unfold compare
  rw [beq_iff_eq]
  constructor
  · intro h
    exact (hperm a).symm.trans (h ▸ hperm b)
  · intro h
    apply List.Perm.eq_of_pairwise (fun x y _ _ hxy hyx => Int.le_antisymm hxy hyx)
      (List.pairwise_insertionSort _ a) (List.pairwise_insertionSort _ b)
    exact (hperm a).trans (h.trans (hperm b).symm)

/-! ## The stack -/

section Stack

variable {vlist elist : List Int} {V k : Nat} {cg : Block (List Int)}

/-- The rows of a compressed graph as `csr_convert` stores them. -/
structure Stored (vlist elist : List Int) (V k : Nat) (cg : Block (List Int)) : Prop where
  graph : RuleGraph vlist elist V k
  size : cg.size = (V : Int) + k
  cells : ∀ v : Nat, v < V + k → cg.cells v = Csr.row vlist elist v

/-- Going over a row moves its rules to the stack and its vertices to the result. -/
theorem foldl_pushDst {row zs : List Int} (h : Expands (csrRhs V V vlist elist) row zs)
    {s : List Int × List Int} {ys : List Int} (hs : Expands (csrRhs V V vlist elist) s.1 ys) :
    ∃ ys', Expands (csrRhs V V vlist elist) (row.foldl (pushDst V) s).1 ys' ∧
      ((row.foldl (pushDst V) s).2 ++ ys').Perm (s.2 ++ (zs ++ ys)) := by
  induction row generalizing s ys zs with
  | nil =>
    rw [Expands.nil_iff.mp h]
    exact ⟨ys, hs, List.Perm.refl _⟩
  | cons x row ih =>
    obtain ⟨xs, zs', rfl, hx, hrow⟩ := Expands.cons_iff.mp h
    rw [List.foldl_cons]
    by_cases hV : (V : Int) ≤ x
    · have hpush : pushDst V s x = (x :: s.1, s.2) := if_pos hV
      rw [hpush]
      have hstack : Expands (csrRhs V V vlist elist) (x :: s.1) (xs ++ ys) :=
        Expands.cons_iff.mpr ⟨xs, ys, rfl, hx, hs⟩
      obtain ⟨ys', hys', hperm⟩ := ih (s := (x :: s.1, s.2)) hrow hstack
      refine ⟨ys', hys', hperm.trans (List.Perm.append_left _ ?_)⟩
      rw [List.append_assoc, ← List.append_assoc, ← List.append_assoc]
      exact List.perm_append_comm.append_right _
    · have hpush : pushDst V s x = (s.1, s.2 ++ [x]) := if_neg hV
      rw [hpush]
      rw [(Expands.singleton_of_none (csrRhs_vertex (by omega))).mp hx]
      obtain ⟨ys', hys', hperm⟩ := ih (s := (s.1, s.2 ++ [x])) hrow hs
      refine ⟨ys', hys', hperm.trans ?_⟩
      simp

/-- What is on the stack weighs less after a round. -/
theorem sum_foldl_pushDst (weight : Int → Nat) (row : List Int) (s : List Int × List Int) :
    ((row.foldl (pushDst V) s).1.map weight).sum ≤ (row.map weight).sum + (s.1.map weight).sum := by
  induction row generalizing s with
  | nil => simp
  | cons x row ih =>
    have h := ih (pushDst V s x)
    have hx : ((pushDst V s x).1.map weight).sum ≤ weight x + (s.1.map weight).sum := by
      unfold pushDst
      split
      · exact Nat.le_refl _
      · exact Nat.le_add_left _ _
    rw [List.foldl_cons, List.map_cons, List.sum_cons]
    omega

theorem mem_foldl_pushDst {row : List Int} {s : List Int × List Int} {x : Int}
    (hx : x ∈ (row.foldl (pushDst V) s).1) : (x ∈ row ∧ (V : Int) ≤ x) ∨ x ∈ s.1 := by
  induction row generalizing s with
  | nil => exact Or.inr hx
  | cons y row ih =>
    rcases ih hx with ⟨hrow, hV⟩ | hs
    · exact Or.inl ⟨List.mem_cons_of_mem _ hrow, hV⟩
    · unfold pushDst at hs
      split at hs
      · rcases List.mem_cons.mp hs with rfl | hs
        · exact Or.inl ⟨List.mem_cons_self, by assumption⟩
        · exact Or.inr hs
      · exact Or.inr hs

/-- The loop over the stack appends the expansion of the stack, in some order. -/
theorem pushSuccessors_meets (h : Stored vlist elist V k cg) (weight : Int → Nat)
    (hweight : ∀ x zs, csrRhs V V vlist elist x = some zs → (zs.map weight).sum < weight x)
    {fuel : Nat} {result PQ ys : List Int} (hfuel : (PQ.map weight).sum < fuel)
    (hPQ : ∀ x ∈ PQ, (V : Int) ≤ x ∧ x < (V : Int) + k)
    (hys : Expands (csrRhs V V vlist elist) PQ ys) :
    Run.Meets (fun _ => False) (pushSuccessors fuel result cg PQ V)
      (fun re => re.Perm (result ++ ys)) := by
  unfold pushSuccessors
  rw [Run.meets_bind]
  -- what the result still lacks is the expansion of the stack
  apply Run.meets_whileLoop _ _
    (fun s : List Int × List Int => (∀ x ∈ s.1, (V : Int) ≤ x ∧ x < (V : Int) + k) ∧
      ∃ zs, Expands (csrRhs V V vlist elist) s.1 zs ∧ (s.2 ++ zs).Perm (result ++ ys))
    (fun s => s.2.Perm (result ++ ys)) (fun s => (s.1.map weight).sum)
  · rintro ⟨stack, re⟩ ⟨hstack, zs, hzs, hperm⟩
    rw [Run.meets_pure]
    cases stack with
    | nil =>
      constructor
      · intro hfalse
        cases hfalse
      · intro _
        rw [Expands.nil_iff.mp hzs, List.append_nil] at hperm
        exact hperm
    | cons x stack =>
      constructor
      · intro _
        have hx := hstack x List.mem_cons_self
        have hin : cg.InB x := ⟨by omega, by rw [h.size]; exact hx.2⟩
        have hcell : cg.cells x = Csr.row vlist elist x.toNat := by
          rw [← h.cells x.toNat (by omega), Int.toNat_of_nonneg hin.1]
        have hrhs : csrRhs V V vlist elist x = some (Csr.row vlist elist x.toNat) :=
          csrRhs_row hx.1
        obtain ⟨xs, zs', rfl, hxs, hzs'⟩ := Expands.cons_iff.mp hzs
        rw [Expands.singleton_of_some hrhs] at hxs
        obtain ⟨ys', hys', hperm'⟩ := foldl_pushDst hxs (s := (stack, re)) hzs'
        unfold popRule
        dsimp only
        rw [Block.read_eq hin, Run.ok_bind, Run.meets_pure, hcell]
        refine ⟨⟨fun z hz => ?_, ys', hys', hperm'.trans hperm⟩, ?_⟩
        · rcases mem_foldl_pushDst hz with ⟨hz, hV⟩ | hz
          · exact ⟨hV, (h.graph.mem_rhs hrhs z hz).2⟩
          · exact hstack z (List.mem_cons_of_mem _ hz)
        · have hle := sum_foldl_pushDst (V := V) weight (Csr.row vlist elist x.toNat) (stack, re)
          have hlt := hweight x _ hrhs
          dsimp only at hle ⊢
          rw [List.map_cons, List.sum_cons]
          omega
      · intro hfalse
        cases hfalse
  · exact hfuel
  · exact ⟨hPQ, ys, hys, List.Perm.refl _⟩

/-- `get_compress_successors` returns the expansion of a row, in some order. -/
theorem getCompressSuccessors_meets (h : Stored vlist elist V k cg) (weight : Int → Nat)
    (hweight : ∀ x zs, csrRhs V V vlist elist x = some zs → (zs.map weight).sum < weight x)
    {fuel v : Nat} (hv : v < V + k) {ys : List Int}
    (hfuel : ((Csr.row vlist elist v).map weight).sum < fuel)
    (hys : Expands (csrRhs V V vlist elist) (Csr.row vlist elist v) ys) :
    Run.Meets (fun _ => False) (getCompressSuccessors fuel cg v V) (fun re => re.Perm ys) := by
  have hin : cg.InB v := ⟨by omega, by rw [h.size]; omega⟩
  unfold getCompressSuccessors
  rw [Block.read_eq hin, Run.ok_bind, h.cells v hv]
  -- what the result still lacks is the expansion of what is left of the row
  refine (Run.meets_foldlM (fun (l : List Int) (re : List Int) => (∀ x ∈ l, x < (V : Int) + k) ∧
      (l.map weight).sum < fuel ∧
      ∃ zs, Expands (csrRhs V V vlist elist) l zs ∧ (re ++ zs).Perm ys) ?_
    (Csr.row vlist elist v) [] ⟨fun x hx => (h.graph.entries v hv x hx).2, hfuel, ys, hys,
      List.Perm.refl _⟩).mono ?_
  · rintro x l re ⟨hl, hsum, zs, hzs, hperm⟩
    rw [List.map_cons, List.sum_cons] at hsum
    obtain ⟨xs, zs', rfl, hxs, hzs'⟩ := Expands.cons_iff.mp hzs
    have hl' : ∀ y ∈ l, y < (V : Int) + k := fun y hy => hl y (List.mem_cons_of_mem _ hy)
    unfold addSuccessor
    split
    · next hV =>
      have hpush : Run.Meets (fun _ => False) (pushSuccessors fuel re cg [x] V)
          (fun re' => re'.Perm (re ++ xs)) := by
        apply pushSuccessors_meets h weight hweight _ _ hxs
        · rw [List.map_singleton, List.sum_singleton]
          omega
        · intro y hy
          rw [List.mem_singleton.mp hy]
          exact ⟨hV, hl x List.mem_cons_self⟩
      apply hpush.mono
      intro re' hre'
      refine ⟨hl', by omega, zs', hzs', ?_⟩
      rw [← List.append_assoc] at hperm
      exact (hre'.append_right zs').trans hperm
    · next hV =>
      rw [Run.meets_pure]
      rw [(Expands.singleton_of_none (csrRhs_vertex (by omega))).mp hxs] at hperm
      refine ⟨hl', by omega, zs', hzs', ?_⟩
      rw [List.append_assoc]
      exact hperm
  · rintro re ⟨-, -, zs, hzs, hperm⟩
    rw [Expands.nil_iff.mp hzs, List.append_nil] at hperm
    exact hperm

end Stack

/-! ## The check -/

section Check

variable {vlist elist cvlist celist : List Int} {V k fuel : Nat} {graph cg : Block (List Int)}

/-- Row `v` of the compressed graph expands to row `v` of the original, in some order. -/
def SameSuccessors (vlist elist cvlist celist : List Int) (V v : Nat) : Prop :=
  ∃ ys, Expands (csrRhs V V cvlist celist) (Csr.row cvlist celist v) ys ∧
    ys.Perm (Csr.row vlist elist v)

/-- The weight of row `v`, when symbols have weights. -/
def rowWeight (cvlist celist : List Int) (weight : Int → Nat) (v : Nat) : Nat :=
  ((Csr.row cvlist celist v).map weight).sum

theorem checkFrom_meets (h : Stored cvlist celist V k cg) (hsize : graph.size = V)
    (hcells : ∀ v : Nat, v < V → graph.cells v = Csr.row vlist elist v) (weight : Int → Nat)
    (hweight : ∀ x zs, csrRhs V V cvlist celist x = some zs → (zs.map weight).sum < weight x)
    (hfuel : ∀ v, v < V → rowWeight cvlist celist weight v < fuel) (n v : Nat) (hn : v + n = V) :
    Run.Meets (fun _ => False) (checkFrom fuel graph cg V n v)
      (fun b => b = true ↔ ∀ w, v ≤ w → w < V → SameSuccessors vlist elist cvlist celist V w) := by
  induction n generalizing v with
  | zero =>
    unfold checkFrom
    rw [Run.meets_pure]
    exact iff_of_true rfl fun w hw hV => by omega
  | succ n ih =>
    obtain ⟨ys, hys⟩ := h.graph.exists_expansion (Csr.row cvlist celist v)
    have hin : graph.InB v := ⟨by omega, by rw [hsize]; omega⟩
    unfold checkFrom getOriSuccessors
    rw [Block.read_eq hin, Run.ok_bind, Run.meets_bind, hcells v (by omega)]
    apply (getCompressSuccessors_meets h weight hweight (by omega : v < V + k)
      (hfuel v (by omega)) hys).mono
    intro re hre
    -- the result of the stack is a permutation of the only expansion there is
    have hrow : compare (Csr.row vlist elist v) re = true ↔
        SameSuccessors vlist elist cvlist celist V v := by
      rw [compare_iff]
      constructor
      · intro hperm
        exact ⟨ys, hys, hre.symm.trans hperm.symm⟩
      · rintro ⟨ys', hys', hperm⟩
        rw [Expands.unique hys' hys] at hperm
        exact (hre.trans hperm).symm
    split
    · next hc =>
      have hnext := ih (v + 1) (by omega)
      rw [show ((v + 1 : Nat) : Int) = (v : Int) + 1 by omega] at hnext
      apply hnext.mono
      intro b hb
      rw [hb]
      constructor
      · intro hall w hw hV
        rcases Nat.eq_or_lt_of_le hw with rfl | hlt
        · exact hrow.mp hc
        · exact hall w hlt hV
      · intro hall w hw hV
        exact hall w (by omega) hV
    · next hc =>
      rw [Run.meets_pure]
      refine iff_of_false (by simp) fun hall => ?_
      exact hc (hrow.mpr (hall v (Nat.le_refl v) (by omega)))

example : checkCsr 3 [0, 3, 7] [0, 0, 1, 0, 0, 1, 1] [0, 2, 4, 6] [2, 0, 2, 2, 0, 1] 2 1 =
    .ok true := by decide +kernel

end Check

end Laconic.Check

import Mathlib.Algebra.Order.BigOperators.Group.List
import Laconic.Filter.MergeInv
import Laconic.RePair.RoundTrip

/-!
# The serial pipeline: merge_

The compressed parts are put together.  The rows of the vertices stand one part after the other, the
rows of the rules behind them.  References to vertices are global already; references to rules start
at the number of all vertices in each part and are moved by the number of rules of the parts before.

The counter of the loop over the parts is declared without a value.  The value that it happens to
have is an argument of the model.
-/

namespace Laconic.Serial

open RePair (Compressed intBound toInt IsRef)
open Laconic.Filter (forRow forRow_eq OverflowOnly toInt_meets)

instance : Inhabited Compressed := ⟨⟨[], [], 0, 0⟩⟩

/-- The entry of the merged graph for the entry `dst` of a part. -/
def mergeEntry (vertexCnt ruleOffset dst : Int) : Run Int :=
  if vertexCnt ≤ dst then toInt (dst + ruleOffset) else pure dst

/-- The rows of a part from `src` on are appended to the rows of the graph from `dst` on. -/
def copyRows (part : Compressed) (vertexCnt ruleOffset src dst : Int) (n : Nat)
    (graph : Block (List Int)) : Run (Block (List Int)) :=
  Run.forLoop (fun v => forRow (fun x graph => do
    let y ← mergeEntry vertexCnt ruleOffset x
    graph.modify (dst + v) fun r => r ++ [y]) part.vlist part.elist (src + v)) n 0 graph

/-- The variables of the loop over the parts. -/
structure MergeState where
  graph : Block (List Int)
  vertexOffset : Int
  ruleOffset : Int

/-- One round of the loop over the parts. -/
def mergePart (vertexCnt : Int) (part : Compressed) (s : MergeState) : Run MergeState := do
  -- the rows of the vertices, then those of the rules, each to their own block of the graph
  let graph ← copyRows part vertexCnt s.ruleOffset 0 s.vertexOffset part.vertexCnt.toNat s.graph
  let graph ← copyRows part vertexCnt s.ruleOffset part.vertexCnt (vertexCnt + s.ruleOffset)
    part.ruleCnt.toNat graph
  let vertexOffset ← toInt (s.vertexOffset + part.vertexCnt)
  let ruleOffset ← toInt (s.ruleOffset + part.ruleCnt)
  pure ⟨graph, vertexOffset, ruleOffset⟩

/-- The values that the counter of `for (int i; i < part_num; ++i)` takes when it starts at `i`. -/
def visited (i : Int) (partNum : Nat) : List Int :=
  (List.range (partNum - i).toNat).map fun k : Nat => i + k

def mergeParts (i vertexCnt : Int) (parts : List Compressed) (s : MergeState) : Run MergeState :=
  (visited i parts.length).foldlM (fun s i => do
    -- a counter that starts below 0 reads in front of the vectors
    let part ← (Block.ofList parts).read i
    mergePart vertexCnt part s) s

/-- `vertex_cnt` and `rule_cnt`. -/
def countParts (parts : List Compressed) : Run (Int × Int) :=
  parts.foldlM (fun (cnt : Int × Int) part => do
    let vertexCnt ← toInt (cnt.1 + part.vertexCnt)
    let ruleCnt ← toInt (cnt.2 + part.ruleCnt)
    pure (vertexCnt, ruleCnt)) (0, 0)

/-- The rows of the graph one after the other; `esize` is the number of entries so far. -/
def writeRows (graph : Block (List Int)) (n : Nat) : Run (List Int × List Int) :=
  Run.forLoop (fun i (out : List Int × List Int) => do
    let row ← graph.read i
    let esize ← toInt (out.2.length + row.length)
    pure (out.1 ++ [esize], out.2 ++ row)) n 0 ([0], [])

/-- `merge_` on the four vectors of its arguments, given part by part.  `i` is what the counter of
the second loop starts from. -/
def merge (i : Int) (parts : List Compressed) : Run Compressed := do
  let cnt ← countParts parts
  let n ← toInt (cnt.1 + cnt.2)
  let s ← mergeParts i cnt.1 parts ⟨Block.alloc n fun _ => [], 0, 0⟩
  let out ← writeRows s.graph n.toNat
  pure ⟨out.1, out.2, cnt.1, cnt.2⟩

/-! ## Where the parts stand -/

/-- The vertices of the parts before part `i`. -/
def vertexOffset (parts : List Compressed) (i : Nat) : Int :=
  ((parts.take i).map (·.vertexCnt)).sum

/-- The rules of the parts before part `i`. -/
def ruleOffset (parts : List Compressed) (i : Nat) : Int :=
  ((parts.take i).map (·.ruleCnt)).sum

/-- All vertices. -/
def vertexTotal (parts : List Compressed) : Int := (parts.map (·.vertexCnt)).sum

/-- All rules. -/
def ruleTotal (parts : List Compressed) : Int := (parts.map (·.ruleCnt)).sum

/-- A part of a graph with `W` vertices: its entries are vertices of the graph, or `W + k` for its
own rule `k`. -/
structure PartGrammar (W : Int) (part : Compressed) : Prop where
  vertices : 0 ≤ part.vertexCnt
  rules : 0 ≤ part.ruleCnt
  valid : Csr.Valid part.vlist part.elist
  length : (part.vlist.length : Int) = part.vertexCnt + part.ruleCnt + 1
  entries : ∀ v, v + 1 < part.vlist.length → ∀ x ∈ Csr.row part.vlist part.elist v,
    IsRef W part.ruleCnt.toNat x

/-- Where an entry of a part points to in the merged graph. -/
def relocate (W offset x : Int) : Int := if W ≤ x then x + offset else x

section Offsets

variable {parts : List Compressed} {part : Compressed} {i j : Nat} {W : Int}

theorem vertexOffset_succ (h : parts[i]? = some part) :
    vertexOffset parts (i + 1) = vertexOffset parts i + part.vertexCnt := by
  unfold vertexOffset
  rw [List.take_add_one, h, List.map_append, List.sum_append]
  simp

theorem ruleOffset_succ (h : parts[i]? = some part) :
    ruleOffset parts (i + 1) = ruleOffset parts i + part.ruleCnt := by
  unfold ruleOffset
  rw [List.take_add_one, h, List.map_append, List.sum_append]
  simp

theorem vertexOffset_length : vertexOffset parts parts.length = vertexTotal parts := by
  rw [vertexOffset, List.take_length, vertexTotal]

theorem ruleOffset_length : ruleOffset parts parts.length = ruleTotal parts := by
  rw [ruleOffset, List.take_length, ruleTotal]

/-- A sum of natural numbers grows with the prefix. -/
theorem sum_take_mono {f : Compressed → Int} (h : ∀ p ∈ parts, 0 ≤ f p) (hij : i ≤ j) :
    ((parts.take i).map f).sum ≤ ((parts.take j).map f).sum := by
  have hsplit : parts.take j = parts.take i ++ (parts.take j).drop i := by
    have ht : (parts.take j).take i = parts.take i := by
      rw [List.take_take, Nat.min_eq_left hij]
    rw [← ht, List.take_append_drop]
  have hnonneg : 0 ≤ (((parts.take j).drop i).map f).sum := by
    apply List.sum_nonneg
    intro x hx
    obtain ⟨p, hp, rfl⟩ := List.mem_map.mp hx
    exact h p (List.mem_of_mem_take (List.mem_of_mem_drop hp))
  rw [hsplit, List.map_append, List.sum_append]
  omega

theorem vertexOffset_mono (h : ∀ p ∈ parts, PartGrammar W p) (hij : i ≤ j) :
    vertexOffset parts i ≤ vertexOffset parts j :=
  sum_take_mono (fun p hp => (h p hp).vertices) hij

theorem ruleOffset_mono (h : ∀ p ∈ parts, PartGrammar W p) (hij : i ≤ j) :
    ruleOffset parts i ≤ ruleOffset parts j :=
  sum_take_mono (fun p hp => (h p hp).rules) hij

/-- The rows of a part are within the vertices and within the rules. -/
theorem offset_bounds (h : ∀ p ∈ parts, PartGrammar W p) (hi : parts[i]? = some part) :
    0 ≤ vertexOffset parts i ∧ vertexOffset parts i + part.vertexCnt ≤ vertexTotal parts ∧
      0 ≤ ruleOffset parts i ∧ ruleOffset parts i + part.ruleCnt ≤ ruleTotal parts := by
  have hlt := (List.getElem?_eq_some_iff.mp hi).1
  refine ⟨vertexOffset_mono h (Nat.zero_le i), ?_, ruleOffset_mono h (Nat.zero_le i), ?_⟩
  · rw [← vertexOffset_succ hi, ← vertexOffset_length]
    exact vertexOffset_mono h hlt
  · rw [← ruleOffset_succ hi, ← ruleOffset_length]
    exact ruleOffset_mono h hlt

end Offsets

/-! ## Copying a part -/

section Copy

variable {part : Compressed} {W offset : Int}

theorem mergeEntry_meets (x : Int) :
    Run.Meets OverflowOnly (mergeEntry W offset x) (fun y => y = relocate W offset x) := by
  unfold mergeEntry relocate
  split
  · exact toInt_meets _
  · rfl

/-- What one row adds to the graph. -/
theorem foldlM_copy {d : Int} (l : List Int) : ∀ g : Block (List Int), g.InB d →
    Run.Meets OverflowOnly (l.foldlM (fun g x => do
      let y ← mergeEntry W offset x
      g.modify d fun r => r ++ [y]) g) (fun g' => g'.size = g.size ∧
        g'.cells d = g.cells d ++ l.map (relocate W offset) ∧
        ∀ w, w ≠ d → g'.cells w = g.cells w) := by
  induction l with
  | nil =>
    intro g _
    exact ⟨rfl, by simp, fun _ _ => rfl⟩
  | cons x l ih =>
    intro g hd
    rw [List.foldlM_cons, Run.meets_bind, Run.meets_bind]
    refine (mergeEntry_meets x).mono fun y hy => ?_
    subst hy
    rw [Block.modify_eq hd, Run.meets_ok]
    refine (ih (g.upd d fun r => r ++ [relocate W offset x]) hd).mono fun g' h => ?_
    obtain ⟨hsize, hself, hother⟩ := h
    refine ⟨hsize, ?_, fun w hw => ?_⟩
    · rw [hself, Block.cells_upd_self, List.map_cons, List.append_assoc]
      rfl
    · rw [hother w hw, Block.cells_upd_ne _ _ hw]

/-- The rows `src`, …, `src + n - 1` of the part are appended to the rows from `dst` on. -/
theorem copyRows_meets (hvalid : Csr.Valid part.vlist part.elist) (src : Nat) {n : Nat}
    {dst : Int} (hsrc : src + n < part.vlist.length) {g : Block (List Int)} (hdst : 0 ≤ dst)
    (hsize : dst + n ≤ g.size) :
    Run.Meets OverflowOnly (copyRows part W offset src dst n g) (fun g' => g'.size = g.size ∧
      (∀ v : Nat, v < n → g'.cells (dst + v) = g.cells (dst + v) ++
        (Csr.row part.vlist part.elist (src + v)).map (relocate W offset)) ∧
      ∀ w, w < dst ∨ dst + n ≤ w → g'.cells w = g.cells w) := by
  have hstep : ∀ (v : Int) (g' : Block (List Int)), v < n →
      (0 ≤ v ∧ g'.size = g.size ∧
        (∀ u : Nat, (u : Int) < v → g'.cells (dst + u) = g.cells (dst + u) ++
          (Csr.row part.vlist part.elist (src + u)).map (relocate W offset)) ∧
        ∀ w, w < dst ∨ dst + v ≤ w → g'.cells w = g.cells w) →
      Run.Meets OverflowOnly (forRow (fun x graph => do
          let y ← mergeEntry W offset x
          graph.modify (dst + v) fun r => r ++ [y]) part.vlist part.elist (src + v) g')
        (fun g' => 0 ≤ v + 1 ∧ g'.size = g.size ∧
          (∀ u : Nat, (u : Int) < v + 1 → g'.cells (dst + u) = g.cells (dst + u) ++
            (Csr.row part.vlist part.elist (src + u)).map (relocate W offset)) ∧
          ∀ w, w < dst ∨ dst + (v + 1) ≤ w → g'.cells w = g.cells w) := by
    rintro v g' hv ⟨h0, hsize', hdone, htodo⟩
    obtain ⟨v, rfl⟩ := Int.eq_ofNat_of_zero_le h0
    rw [show (src : Int) + (v : Int) = ((src + v : Nat) : Int) by omega,
      forRow_eq hvalid (by omega)]
    refine (foldlM_copy _ g' ⟨by omega, by omega⟩).mono fun g'' h => ?_
    obtain ⟨hsize'', hself, hother⟩ := h
    refine ⟨by omega, by rw [hsize'', hsize'], fun u hu => ?_, fun w hw => ?_⟩
    · by_cases huv : u = v
      · subst huv
        rw [hself, htodo _ (Or.inr (Int.le_refl _))]
      · rw [hother _ (by omega), hdone u (by omega)]
    · rw [hother w (by omega), htodo w (by omega)]
  unfold copyRows
  refine (Run.meets_forLoop _ (n : Int) hstep n 0 g (by omega)
    ⟨by omega, rfl, fun u hu => by omega, fun w _ => rfl⟩).mono fun g' h => ?_
  obtain ⟨-, hsize', hdone, hother⟩ := h
  exact ⟨hsize', fun v hv => hdone v (by omega), hother⟩

end Copy

/-! ## The loop over the parts -/

/-- The graph after the parts before `n`. -/
structure MergeInv (parts : List Compressed) (n : Nat) (s : MergeState) : Prop where
  size : s.graph.size = vertexTotal parts + ruleTotal parts
  vertexOffset_eq : s.vertexOffset = vertexOffset parts n
  ruleOffset_eq : s.ruleOffset = ruleOffset parts n
  vertexRow : ∀ i part, i < n → parts[i]? = some part → ∀ v : Nat, (v : Int) < part.vertexCnt →
    s.graph.cells (vertexOffset parts i + v) =
      (Csr.row part.vlist part.elist v).map (relocate (vertexTotal parts) (ruleOffset parts i))
  ruleRow : ∀ i part, i < n → parts[i]? = some part → ∀ k : Nat, (k : Int) < part.ruleCnt →
    s.graph.cells (vertexTotal parts + ruleOffset parts i + k) =
      (Csr.row part.vlist part.elist (part.vertexCnt.toNat + k)).map
        (relocate (vertexTotal parts) (ruleOffset parts i))
  vertexFree : ∀ w, vertexOffset parts n ≤ w → w < vertexTotal parts → s.graph.cells w = []
  ruleFree : ∀ w, vertexTotal parts + ruleOffset parts n ≤ w → s.graph.cells w = []
  entries : ∀ w, ∀ x ∈ s.graph.cells w, 0 ≤ x ∧ x < vertexTotal parts + ruleTotal parts

section Loop

variable {parts : List Compressed} {part : Compressed} {n : Nat} {s : MergeState}

/-- References stay within the graph. -/
theorem relocate_range (h : ∀ p ∈ parts, PartGrammar (vertexTotal parts) p)
    (hn : parts[n]? = some part) {v : Nat} (hv : v + 1 < part.vlist.length) :
    ∀ x ∈ (Csr.row part.vlist part.elist v).map
      (relocate (vertexTotal parts) (ruleOffset parts n)),
      0 ≤ x ∧ x < vertexTotal parts + ruleTotal parts := by
  have hpart := h part (List.mem_of_getElem? hn)
  have hvert := hpart.vertices
  have hrules := hpart.rules
  obtain ⟨hv0, hvtot, hr0, hrtot⟩ := offset_bounds h hn
  intro x hx
  obtain ⟨y, hy, rfl⟩ := List.mem_map.mp hx
  unfold relocate
  rcases hpart.entries v hv y hy with hlow | ⟨j, hj, rfl⟩
  · rw [if_neg (by omega)]
    omega
  · rw [if_pos (by omega)]
    omega

/-- The rows of part `n` are in the graph `g'`, and the other rows are those of `g`. -/
structure PartCopied (parts : List Compressed) (n : Nat) (part : Compressed)
    (g g' : Block (List Int)) : Prop where
  size : g'.size = g.size
  vertexRow : ∀ v : Nat, (v : Int) < part.vertexCnt → g'.cells (vertexOffset parts n + v) =
    (Csr.row part.vlist part.elist v).map (relocate (vertexTotal parts) (ruleOffset parts n))
  ruleRow : ∀ k : Nat, (k : Int) < part.ruleCnt →
    g'.cells (vertexTotal parts + ruleOffset parts n + k) =
      (Csr.row part.vlist part.elist (part.vertexCnt.toNat + k)).map
        (relocate (vertexTotal parts) (ruleOffset parts n))
  other : ∀ w, (w < vertexOffset parts n ∨ vertexOffset parts n + part.vertexCnt ≤ w) →
    (w < vertexTotal parts + ruleOffset parts n ∨
      vertexTotal parts + ruleOffset parts n + part.ruleCnt ≤ w) → g'.cells w = g.cells w

/-- The two loops of a part fill two blocks of rows that were free before. -/
theorem MergeInv.copy_meets (h : ∀ p ∈ parts, PartGrammar (vertexTotal parts) p)
    (hinv : MergeInv parts n s) (hn : parts[n]? = some part) :
    Run.Meets OverflowOnly (mergePart (vertexTotal parts) part s) (fun s' =>
      PartCopied parts n part s.graph s'.graph ∧ s'.vertexOffset = vertexOffset parts (n + 1) ∧
        s'.ruleOffset = ruleOffset parts (n + 1)) := by
  have hpart := h part (List.mem_of_getElem? hn)
  have hvert := hpart.vertices
  have hrules := hpart.rules
  have hlen := hpart.length
  obtain ⟨hv0, hvtot, hr0, hrtot⟩ := offset_bounds h hn
  have hsize := hinv.size
  unfold mergePart
  rw [hinv.vertexOffset_eq, hinv.ruleOffset_eq, Run.meets_bind]
  refine (copyRows_meets hpart.valid 0 (by omega) hv0 (by omega)).mono fun g₁ hg₁ => ?_
  obtain ⟨hsize₁, hrow₁, hother₁⟩ := hg₁
  have hsrc : part.vertexCnt = ((part.vertexCnt.toNat : Nat) : Int) := by omega
  rw [Run.meets_bind]
  nth_rewrite 1 [hsrc]
  refine (copyRows_meets hpart.valid _ (by omega) (by omega) (by omega)).mono fun g₂ hg₂ => ?_
  obtain ⟨hsize₂, hrow₂, hother₂⟩ := hg₂
  rw [Run.meets_bind]
  refine (toInt_meets _).mono fun vo hvo => ?_
  subst hvo
  rw [Run.meets_bind]
  refine (toInt_meets _).mono fun ro hro => ?_
  subst hro
  rw [Run.meets_pure]
  refine ⟨⟨hsize₂.trans hsize₁, fun v hv => ?_, fun k hk => ?_, fun w h₁ h₂ => ?_⟩,
    (vertexOffset_succ hn).symm, (ruleOffset_succ hn).symm⟩
  · rw [hother₂ _ (by omega), hrow₁ v (by omega), hinv.vertexFree _ (by omega) (by omega),
      List.nil_append, Nat.zero_add]
  · rw [hrow₂ k (by omega), hother₁ _ (by omega), hinv.ruleFree _ (by omega), List.nil_append]
  · rw [hother₂ w (by omega), hother₁ w (by omega)]

/-- The new rows hold references within the graph, as the others do. -/
theorem PartCopied.entries {g g' : Block (List Int)}
    (h : ∀ p ∈ parts, PartGrammar (vertexTotal parts) p) (hn : parts[n]? = some part)
    (hc : PartCopied parts n part g g')
    (hg : ∀ w, ∀ x ∈ g.cells w, 0 ≤ x ∧ x < vertexTotal parts + ruleTotal parts) {w x : Int}
    (hx : x ∈ g'.cells w) : 0 ≤ x ∧ x < vertexTotal parts + ruleTotal parts := by
  have hpart := h part (List.mem_of_getElem? hn)
  have hvert := hpart.vertices
  have hrules := hpart.rules
  have hlen := hpart.length
  by_cases hV : vertexOffset parts n ≤ w ∧ w < vertexOffset parts n + part.vertexCnt
  · obtain ⟨v, hv⟩ := Int.eq_ofNat_of_zero_le (by omega : 0 ≤ w - vertexOffset parts n)
    rw [show w = vertexOffset parts n + v by omega, hc.vertexRow v (by omega)] at hx
    exact relocate_range h hn (by omega) x hx
  · by_cases hR : vertexTotal parts + ruleOffset parts n ≤ w ∧
        w < vertexTotal parts + ruleOffset parts n + part.ruleCnt
    · obtain ⟨k, hk⟩ := Int.eq_ofNat_of_zero_le
        (by omega : 0 ≤ w - (vertexTotal parts + ruleOffset parts n))
      rw [show w = vertexTotal parts + ruleOffset parts n + k by omega,
        hc.ruleRow k (by omega)] at hx
      exact relocate_range h hn (by omega) x hx
    · rw [hc.other w (by omega) (by omega)] at hx
      exact hg w x hx

/-- One part. -/
theorem MergeInv.step (h : ∀ p ∈ parts, PartGrammar (vertexTotal parts) p)
    (hinv : MergeInv parts n s) (hn : parts[n]? = some part) :
    Run.Meets OverflowOnly (mergePart (vertexTotal parts) part s) (MergeInv parts (n + 1)) := by
  obtain ⟨hv0, hvtot, hr0, hrtot⟩ := offset_bounds h hn
  refine (hinv.copy_meets h hn).mono fun s' hs' => ?_
  obtain ⟨hc, hvo, hro⟩ := hs'
  have hpart := h part (List.mem_of_getElem? hn)
  have hvert := hpart.vertices
  have hrules := hpart.rules
  refine ⟨hc.size.trans hinv.size, hvo, hro, fun i p hi hp v hv => ?_, fun i p hi hp k hk => ?_,
    fun w hw hwt => ?_, fun w hw => ?_, fun w x hx => hc.entries h hn hinv.entries hx⟩
  · rcases Nat.lt_or_eq_of_le (Nat.lt_succ_iff.mp hi) with hlt' | rfl
    · have hend : vertexOffset parts i + p.vertexCnt ≤ vertexOffset parts n := by
        rw [← vertexOffset_succ hp]
        exact vertexOffset_mono h hlt'
      rw [hc.other _ (by omega) (by omega), hinv.vertexRow i p hlt' hp v hv]
    · rw [hn, Option.some_inj] at hp
      subst hp
      exact hc.vertexRow v hv
  · have hi0 : 0 ≤ ruleOffset parts i := ruleOffset_mono h (Nat.zero_le i)
    rcases Nat.lt_or_eq_of_le (Nat.lt_succ_iff.mp hi) with hlt' | rfl
    · have hend : ruleOffset parts i + p.ruleCnt ≤ ruleOffset parts n := by
        rw [← ruleOffset_succ hp]
        exact ruleOffset_mono h hlt'
      rw [hc.other _ (by omega) (by omega), hinv.ruleRow i p hlt' hp k hk]
    · rw [hn, Option.some_inj] at hp
      subst hp
      exact hc.ruleRow k hk
  · rw [vertexOffset_succ hn] at hw
    rw [hc.other w (by omega) (by omega), hinv.vertexFree w (by omega) hwt]
  · rw [ruleOffset_succ hn] at hw
    rw [hc.other w (by omega) (by omega), hinv.ruleFree w (by omega)]

end Loop

end Laconic.Serial

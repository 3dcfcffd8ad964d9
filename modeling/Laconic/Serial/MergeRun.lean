import Laconic.Serial.Merge

/-!
# The serial pipeline: the merged graph

Every row of a part has its expansion in the merged graph, at its own place.  This needs all parts:
those that the loop does not visit must have no rows.
-/

namespace Laconic.Serial

open Slp
open RePair (Compressed intBound toInt IsRef)
open Laconic.Filter (OverflowOnly toInt_meets)

/-- The merged graph: all rows are there, and the vertices of each part have their expansions. -/
structure Merged (parts : List Compressed) (out : Compressed) : Prop where
  valid : Csr.Valid out.vlist out.elist
  last : out.vlist.getLast? = some (out.elist.length : Int)
  vertexCnt : out.vertexCnt = vertexTotal parts
  ruleCnt : out.ruleCnt = ruleTotal parts
  length : (out.vlist.length : Int) = vertexTotal parts + ruleTotal parts + 1
  refs : ∀ v, v + 1 < out.vlist.length → ∀ x ∈ Csr.row out.vlist out.elist v,
    0 ≤ x ∧ x < vertexTotal parts + ruleTotal parts
  expands : ∀ i part, parts[i]? = some part → ∀ v : Nat, (v : Int) < part.vertexCnt → ∀ ys,
    Expands (csrRhs (vertexTotal parts) (vertexTotal parts) out.vlist out.elist)
        (Csr.row out.vlist out.elist (vertexOffset parts i + v).toNat) ys ↔
      Expands (csrRhs (vertexTotal parts) part.vertexCnt part.vlist part.elist)
        (Csr.row part.vlist part.elist v) ys

/-- The loop visits every part that has a row exactly once. -/
def VisitedOnce (i : Int) (parts : List Compressed) : Prop :=
  ∀ (j : Nat) (part : Compressed), parts[j]? = some part → 0 < part.vertexCnt + part.ruleCnt →
    (visited i parts.length).count (j : Int) = 1

/-- The rows of the merged graph, each at its place. -/
structure Layout (parts : List Compressed) (out : Compressed) : Prop where
  valid : Csr.Valid out.vlist out.elist
  last : out.vlist.getLast? = some (out.elist.length : Int)
  vertexCnt : out.vertexCnt = vertexTotal parts
  ruleCnt : out.ruleCnt = ruleTotal parts
  length : (out.vlist.length : Int) = vertexTotal parts + ruleTotal parts + 1
  refs : ∀ v, v + 1 < out.vlist.length → ∀ x ∈ Csr.row out.vlist out.elist v,
    0 ≤ x ∧ x < vertexTotal parts + ruleTotal parts
  vertexRow : ∀ i part, parts[i]? = some part → ∀ v : Nat, (v : Int) < part.vertexCnt →
    Csr.row out.vlist out.elist (vertexOffset parts i + v).toNat =
      (Csr.row part.vlist part.elist v).map (relocate (vertexTotal parts) (ruleOffset parts i))
  ruleRow : ∀ i part, parts[i]? = some part → ∀ k : Nat, (k : Int) < part.ruleCnt →
    Csr.row out.vlist out.elist (vertexTotal parts + ruleOffset parts i + k).toNat =
      (Csr.row part.vlist part.elist (part.vertexCnt.toNat + k)).map
        (relocate (vertexTotal parts) (ruleOffset parts i))

section Visited

variable {i x : Int} {n : Nat}

theorem visited_of_le (h : (n : Int) ≤ i) : visited i n = [] := by
  rw [visited, show ((n : Int) - i).toNat = 0 by omega]
  rfl

theorem visited_of_lt (h : i < n) : visited i n = i :: visited (i + 1) n := by
  unfold visited
  rw [show ((n : Int) - i).toNat = ((n : Int) - (i + 1)).toNat + 1 by omega,
    List.range_succ_eq_map, List.map_cons, List.map_map]
  congr 1
  · omega
  · refine List.map_congr_left fun k _ => ?_
    show i + ((k + 1 : Nat) : Int) = i + 1 + k
    omega

theorem mem_visited : x ∈ visited i n ↔ i ≤ x ∧ x < n := by
  unfold visited
  rw [List.mem_map]
  constructor
  · rintro ⟨k, hk, rfl⟩
    have := List.mem_range.mp hk
    omega
  · rintro ⟨h₁, h₂⟩
    exact ⟨(x - i).toNat, List.mem_range.mpr (by omega), by omega⟩

theorem nodup_visited : (visited i n).Nodup := by
  refine List.Nodup.map (fun a b hab => ?_) List.nodup_range
  have hab' : i + (a : Int) = i + b := hab
  omega

theorem count_visited : (visited i n).count x = 1 ↔ i ≤ x ∧ x < n := by
  rw [← mem_visited]
  constructor
  · intro h
    exact List.count_pos_iff.mp (by omega)
  · exact List.count_eq_one_of_mem nodup_visited

end Visited

section Run

variable {parts : List Compressed} {part : Compressed} {s : MergeState} {i : Int} {n : Nat}

/-- The parts from `n` on. -/
theorem mergeParts_meets (h : ∀ p ∈ parts, PartGrammar (vertexTotal parts) p)
    (hn : n ≤ parts.length) (hinv : MergeInv parts n s) :
    Run.Meets OverflowOnly (mergeParts n (vertexTotal parts) parts s)
      (MergeInv parts parts.length) := by
  have hstep : ∀ (j : Int) (l : List Int) (s : MergeState),
      (∃ n : Nat, n ≤ parts.length ∧ j :: l = visited n parts.length ∧ MergeInv parts n s) →
      Run.Meets OverflowOnly (do
        let part ← (Block.ofList parts).read j
        mergePart (vertexTotal parts) part s)
        (fun s => ∃ n : Nat, n ≤ parts.length ∧ l = visited n parts.length ∧
          MergeInv parts n s) := by
    rintro j l s ⟨n, hn, hl, hinv⟩
    rcases Nat.lt_or_eq_of_le hn with hlt | rfl
    · rw [visited_of_lt (by omega)] at hl
      cases hl
      rw [Block.read_ofList hlt, Run.ok_bind]
      refine (hinv.step h (List.getElem?_eq_getElem hlt)).mono fun s' hs' => ?_
      exact ⟨n + 1, hlt, by push_cast; rfl, hs'⟩
    · rw [visited_of_le (Int.le_refl _)] at hl
      cases hl
  unfold mergeParts
  refine (Run.meets_foldlM (fun l s => ∃ n : Nat, n ≤ parts.length ∧
    l = visited n parts.length ∧ MergeInv parts n s) hstep _ s ⟨n, hn, rfl, hinv⟩).mono
      fun s' hs' => ?_
  obtain ⟨m, hm, hnil, hinv'⟩ := hs'
  have hle : parts.length ≤ m := by
    by_contra hlt
    rw [visited_of_lt (by omega)] at hnil
    cases hnil
  rwa [Nat.le_antisymm hm hle] at hinv'

theorem countParts_meets : Run.Meets OverflowOnly (countParts parts)
    (fun cnt => cnt = (vertexTotal parts, ruleTotal parts)) := by
  have hstep : ∀ (p : Compressed) (l : List Compressed) (cnt : Int × Int),
      cnt.1 + vertexTotal (p :: l) = vertexTotal parts ∧
        cnt.2 + ruleTotal (p :: l) = ruleTotal parts →
      Run.Meets OverflowOnly (do
        let vertexCnt ← toInt (cnt.1 + p.vertexCnt)
        let ruleCnt ← toInt (cnt.2 + p.ruleCnt)
        pure (vertexCnt, ruleCnt))
        (fun cnt => cnt.1 + vertexTotal l = vertexTotal parts ∧
          cnt.2 + ruleTotal l = ruleTotal parts) := by
    rintro p l cnt ⟨hv, hr⟩
    rw [Run.meets_bind]
    refine (toInt_meets _).mono fun v hv' => ?_
    rw [Run.meets_bind]
    refine (toInt_meets _).mono fun r hr' => ?_
    subst hv' hr'
    have h₁ : vertexTotal (p :: l) = p.vertexCnt + vertexTotal l := List.sum_cons
    have h₂ : ruleTotal (p :: l) = p.ruleCnt + ruleTotal l := List.sum_cons
    rw [Run.meets_pure]
    dsimp only
    omega
  unfold countParts
  refine (Run.meets_foldlM (fun l (cnt : Int × Int) => cnt.1 + vertexTotal l = vertexTotal parts ∧
    cnt.2 + ruleTotal l = ruleTotal parts) hstep parts (0, 0) ⟨by omega, by omega⟩).mono
      fun cnt hcnt => ?_
  obtain ⟨h₁, h₂⟩ := hcnt
  have h₃ : vertexTotal [] = 0 := rfl
  have h₄ : ruleTotal [] = 0 := rfl
  exact Prod.ext (by dsimp only; omega) (by dsimp only; omega)

/-- The rows of a block. -/
def blockRows (graph : Block (List Int)) (n : Nat) : List (List Int) :=
  (List.range n).map fun v : Nat => graph.cells v

theorem blockRows_succ (graph : Block (List Int)) (n : Nat) :
    blockRows graph (n + 1) = blockRows graph n ++ [graph.cells n] := by
  rw [blockRows, List.range_succ, List.map_append, List.map_singleton, blockRows]

theorem length_blockRows (graph : Block (List Int)) (n : Nat) :
    (blockRows graph n).length = n := by
  rw [blockRows, List.length_map, List.length_range]

theorem writeRows_meets {graph : Block (List Int)} (hsize : graph.size = n) :
    Run.Meets OverflowOnly (writeRows graph n) (fun out =>
      out.1 = Csr.offsets (blockRows graph n) ∧ out.2 = (blockRows graph n).flatten) := by
  have hstep : ∀ (v : Int) (out : List Int × List Int), v < n →
      (0 ≤ v ∧ out.1 = Csr.offsets (blockRows graph v.toNat) ∧
        out.2 = (blockRows graph v.toNat).flatten) →
      Run.Meets OverflowOnly (do
        let row ← graph.read v
        let esize ← toInt (out.2.length + row.length)
        pure (out.1 ++ [esize], out.2 ++ row)) (fun out => 0 ≤ v + 1 ∧
          out.1 = Csr.offsets (blockRows graph (v + 1).toNat) ∧
          out.2 = (blockRows graph (v + 1).toNat).flatten) := by
    rintro v out hv ⟨h0, h₁, h₂⟩
    obtain ⟨v, rfl⟩ := Int.eq_ofNat_of_zero_le h0
    rw [Int.toNat_natCast] at h₁ h₂
    rw [Block.read_eq ⟨h0, by omega⟩, Run.ok_bind, Run.meets_bind]
    -- the sum is kept closed, or the elaborator starts to evaluate the test of `toInt`
    generalize hz : ((out.2.length : Int) + ((graph.cells v).length : Int)) = z
    refine (toInt_meets z).mono fun esize hesize => ?_
    rw [Run.meets_pure, show ((v : Int) + 1).toNat = v + 1 by omega, blockRows_succ,
      Csr.offsets_concat, List.flatten_concat, hesize, ← hz, h₁, h₂]
    exact ⟨by omega, rfl, rfl⟩
  unfold writeRows
  refine (Run.meets_forLoop (fun v (out : List Int × List Int) => 0 ≤ v ∧
    out.1 = Csr.offsets (blockRows graph v.toNat) ∧ out.2 = (blockRows graph v.toNat).flatten)
    (n : Int) hstep n 0 ([0], []) (by omega) ⟨by omega, rfl, rfl⟩).mono fun out hout => ?_
  exact hout.2

/-- Nothing of the first `n` parts is missing in the empty graph when they have no rows. -/
theorem MergeInv.init
    (hempty : ∀ (j : Nat) (part : Compressed), parts[j]? = some part → j < n →
      part.vertexCnt = 0 ∧ part.ruleCnt = 0) :
    MergeInv parts n ⟨Block.alloc (vertexTotal parts + ruleTotal parts) fun _ => [], 0, 0⟩ := by
  have hzero : ∀ f : Compressed → Int, (∀ j part, parts[j]? = some part → j < n → f part = 0) →
      ((parts.take n).map f).sum = 0 := by
    intro f hf
    apply List.sum_eq_zero
    intro x hx
    obtain ⟨p, hp, rfl⟩ := List.mem_map.mp hx
    obtain ⟨j, hj⟩ := List.mem_iff_getElem?.mp hp
    have hjn : j < n := by
      have := (List.getElem?_eq_some_iff.mp hj).1
      rw [List.length_take] at this
      omega
    rw [List.getElem?_take_of_lt hjn] at hj
    exact hf j p hj hjn
  refine ⟨rfl, ?_, ?_, fun j p hj hp v hv => ?_, fun j p hj hp k hk => ?_, fun _ _ _ => rfl,
    fun _ _ => rfl, fun w x hx => by cases hx⟩
  · exact (hzero _ fun j p hp hj => (hempty j p hp hj).1).symm
  · exact (hzero _ fun j p hp hj => (hempty j p hp hj).2).symm
  · have := (hempty j p hp hj).1
    omega
  · have := (hempty j p hp hj).2
    omega

/-- The rows of the written graph are those of the block. -/
theorem row_blockRows {graph : Block (List Int)} {v : Nat} (hv : v < n) :
    Csr.row (Csr.offsets (blockRows graph n)) (blockRows graph n).flatten v = graph.cells v := by
  rw [Csr.row_offsets (by rw [length_blockRows]; exact hv)]
  simp [blockRows]

/-- The written graph. -/
theorem MergeInv.layout (h : ∀ p ∈ parts, PartGrammar (vertexTotal parts) p)
    (hinv : MergeInv parts parts.length s) (hn : (n : Int) = vertexTotal parts + ruleTotal parts)
    {out : Compressed} (hvl : out.vlist = Csr.offsets (blockRows s.graph n))
    (hel : out.elist = (blockRows s.graph n).flatten) (hvc : out.vertexCnt = vertexTotal parts)
    (hrc : out.ruleCnt = ruleTotal parts) : Layout parts out := by
  have hlen : out.vlist.length = n + 1 := by
    rw [hvl, Csr.length_offsets, length_blockRows]
  have hrow : ∀ v, v < n → Csr.row out.vlist out.elist v = s.graph.cells v := by
    intro v hv
    rw [hvl, hel, row_blockRows hv]
  refine ⟨?_, ?_, hvc, hrc, by omega, fun v hv x hx => ?_, fun i part hi v hv => ?_,
    fun i part hi k hk => ?_⟩
  · rw [hvl, hel]
    exact Csr.valid_offsets
  · rw [hvl, hel]
    exact Csr.offsets_getLast?
  · rw [hrow v (by omega)] at hx
    exact hinv.entries _ x hx
  · obtain ⟨h₁, h₂, h₃, h₄⟩ := offset_bounds h hi
    have hrules := (h part (List.mem_of_getElem? hi)).rules
    have hlt := (List.getElem?_eq_some_iff.mp hi).1
    rw [hrow _ (by omega), Int.toNat_of_nonneg (by omega), hinv.vertexRow i part hlt hi v hv]
  · obtain ⟨h₁, h₂, h₃, h₄⟩ := offset_bounds h hi
    have hvert := (h part (List.mem_of_getElem? hi)).vertices
    have hlt := (List.getElem?_eq_some_iff.mp hi).1
    rw [hrow _ (by omega), Int.toNat_of_nonneg (by omega), hinv.ruleRow i part hlt hi k hk]

section Expand

variable {W : Int} {k : Nat}

/-- The rules of a part. -/
theorem PartGrammar.rhs_rule (h : PartGrammar W part) (k : Nat) :
    csrRhs W part.vertexCnt part.vlist part.elist (W + k) =
      some (Csr.row part.vlist part.elist (part.vertexCnt.toNat + k)) := by
  have hvert := h.vertices
  rw [show part.vertexCnt = ((part.vertexCnt.toNat : Nat) : Int) by omega, csrRhs_rule,
    Int.toNat_natCast]

/-- A symbol of a part with a right-hand side is one of its rules. -/
theorem PartGrammar.rhs_cases (h : PartGrammar W part) {x : Int} {zs : List Int}
    (hx : IsRef W part.ruleCnt.toNat x)
    (hzs : csrRhs W part.vertexCnt part.vlist part.elist x = some zs) :
    ∃ k : Nat, (k : Int) < part.ruleCnt ∧ x = W + k ∧
      zs = Csr.row part.vlist part.elist (part.vertexCnt.toNat + k) := by
  have hrules := h.rules
  rcases hx with ⟨-, hlow⟩ | ⟨k, hk, rfl⟩
  · rw [csrRhs_vertex hlow] at hzs
    cases hzs
  · rw [h.rhs_rule, Option.some_inj] at hzs
    exact ⟨k, by omega, rfl, hzs.symm⟩

theorem PartGrammar.closed (h : PartGrammar W part) {x : Int} {zs : List Int}
    (hx : IsRef W part.ruleCnt.toNat x)
    (hzs : csrRhs W part.vertexCnt part.vlist part.elist x = some zs) :
    ∀ z ∈ zs, IsRef W part.ruleCnt.toNat z := by
  obtain ⟨k, hk, -, rfl⟩ := h.rhs_cases hx hzs
  have hvert := h.vertices
  have hlen := h.length
  exact h.entries _ (by omega)

theorem relocate_of_none (offset : Int) {x : Int} {vlist elist : List Int}
    (h : csrRhs W part.vertexCnt vlist elist x = none) : x < W ∧ relocate W offset x = x := by
  unfold csrRhs at h
  split at h
  · rename_i hlow
    exact ⟨hlow, if_neg (by omega)⟩
  · cases h

/-- The expansions of a part are those of its rows in the graph. -/
theorem Layout.expands_iff {out : Compressed} (h : ∀ p ∈ parts, PartGrammar (vertexTotal parts) p)
    (hout : Layout parts out) {i : Nat} (hi : parts[i]? = some part) {v : Nat}
    (hv : (v : Int) < part.vertexCnt) (ys : List Int) :
    Expands (csrRhs (vertexTotal parts) (vertexTotal parts) out.vlist out.elist)
        (Csr.row out.vlist out.elist (vertexOffset parts i + v).toNat) ys ↔
      Expands (csrRhs (vertexTotal parts) part.vertexCnt part.vlist part.elist)
        (Csr.row part.vlist part.elist v) ys := by
  have hpart := h part (List.mem_of_getElem? hi)
  obtain ⟨h₁, h₂, h₃, h₄⟩ := offset_bounds h hi
  have hrules := hpart.rules
  have hlen := hpart.length
  have hC : ∀ x zs, IsRef (vertexTotal parts) part.ruleCnt.toNat x →
      csrRhs (vertexTotal parts) part.vertexCnt part.vlist part.elist x = some zs →
      ∀ z ∈ zs, IsRef (vertexTotal parts) part.ruleCnt.toNat z := fun _ _ => hpart.closed
  have hnone : ∀ x, IsRef (vertexTotal parts) part.ruleCnt.toNat x →
      csrRhs (vertexTotal parts) part.vertexCnt part.vlist part.elist x = none →
      csrRhs (vertexTotal parts) (vertexTotal parts) out.vlist out.elist
        (relocate (vertexTotal parts) (ruleOffset parts i) x) = none := by
    intro x _ hx
    obtain ⟨hlow, hsame⟩ := relocate_of_none (ruleOffset parts i) hx
    rw [hsame, csrRhs_vertex hlow]
  have hsome : ∀ x zs, IsRef (vertexTotal parts) part.ruleCnt.toNat x →
      csrRhs (vertexTotal parts) part.vertexCnt part.vlist part.elist x = some zs →
      csrRhs (vertexTotal parts) (vertexTotal parts) out.vlist out.elist
        (relocate (vertexTotal parts) (ruleOffset parts i) x) =
        some (zs.map (relocate (vertexTotal parts) (ruleOffset parts i))) := by
    intro x zs hx hzs
    obtain ⟨k, hk, rfl, rfl⟩ := hpart.rhs_cases hx hzs
    rw [relocate, if_pos (by omega), csrRhs, if_neg (by omega), ← hout.ruleRow i part hi k hk]
    congr 2
    omega
  -- full expansions consist of vertices, which stay where they are
  have hfix : ∀ ys, Expands (csrRhs (vertexTotal parts) part.vertexCnt part.vlist part.elist)
      (Csr.row part.vlist part.elist v) ys →
      ys.map (relocate (vertexTotal parts) (ruleOffset parts i)) = ys := by
    intro ys hys
    refine (List.map_congr_left fun y hy => ?_).trans (List.map_id ys)
    exact (relocate_of_none _ (hys.eq_none_of_mem y hy)).2
  have hentries := hpart.entries v (by omega)
  rw [hout.vertexRow i part hi v hv]
  constructor
  · intro hys
    obtain ⟨zs, rfl, hzs⟩ := Expands.of_map _ hC hnone hsome hys _ rfl hentries
    rwa [hfix zs hzs]
  · intro hys
    have hmap := hys.map _ hC hnone hsome hentries
    rwa [hfix ys hys] at hmap

theorem Layout.merged {out : Compressed} (h : ∀ p ∈ parts, PartGrammar (vertexTotal parts) p)
    (hout : Layout parts out) : Merged parts out :=
  ⟨hout.valid, hout.last, hout.vertexCnt, hout.ruleCnt, hout.length, hout.refs,
    fun _ _ hi _ hv ys => hout.expands_iff h hi hv ys⟩

end Expand

/-- When the loop starts behind parts without rows only, it merges all parts. -/
theorem merge_meets (h : ∀ p ∈ parts, PartGrammar (vertexTotal parts) p) (hi : 0 ≤ i)
    (hempty : ∀ (j : Nat) (part : Compressed), parts[j]? = some part → (j : Int) < i →
      part.vertexCnt = 0 ∧ part.ruleCnt = 0) :
    Run.Meets OverflowOnly (merge i parts) (Layout parts) := by
  obtain ⟨n, rfl⟩ := Int.eq_ofNat_of_zero_le hi
  have hnonneg : 0 ≤ vertexTotal parts + ruleTotal parts := by
    have h₁ := vertexOffset_mono h (Nat.zero_le parts.length)
    have h₂ := ruleOffset_mono h (Nat.zero_le parts.length)
    rw [vertexOffset_length] at h₁
    rw [ruleOffset_length] at h₂
    have h₃ : vertexOffset parts 0 = 0 := rfl
    have h₄ : ruleOffset parts 0 = 0 := rfl
    omega
  unfold merge
  rw [Run.meets_bind]
  refine countParts_meets.mono fun cnt hcnt => ?_
  subst hcnt
  dsimp only
  rw [Run.meets_bind]
  refine (toInt_meets _).mono fun m hm => ?_
  subst hm
  rw [Run.meets_bind]
  have hinit : Run.Meets OverflowOnly (mergeParts n (vertexTotal parts) parts
      ⟨Block.alloc (vertexTotal parts + ruleTotal parts) fun _ => [], 0, 0⟩)
      (MergeInv parts parts.length) := by
    by_cases hle : n ≤ parts.length
    · exact mergeParts_meets h hle
        (MergeInv.init fun j p hp hj => hempty j p hp (by omega))
    · unfold mergeParts
      rw [visited_of_le (by omega)]
      exact MergeInv.init fun j p hp hj => hempty j p hp (by omega)
  refine hinit.mono fun s hs => ?_
  rw [Run.meets_bind]
  refine (writeRows_meets (by rw [hs.size]; omega)).mono fun out hout => ?_
  exact hs.layout h (by omega) hout.1 hout.2 rfl rfl

/-- A loop that starts in front of the parts reads there. -/
theorem merge_of_neg (hi : i < 0) (hover : merge i parts ≠ .error .overflow) :
    merge i parts = .error .bounds := by
  have hread : ∀ (W : Int) (s : MergeState), mergeParts i W parts s = .error .bounds := by
    intro W s
    unfold mergeParts
    rw [visited_of_lt (by omega), List.foldlM_cons]
    have hfault : (Block.ofList parts).read i = .error .bounds := by
      apply if_neg
      intro hin
      have := hin.1
      omega
    rw [hfault]
    rfl
  have hmeets : Run.Meets OverflowOnly (merge i parts) (fun _ => False) ∨
      merge i parts = .error .bounds := by
    unfold merge at hover ⊢
    cases hc : countParts parts with
    | error e =>
      left
      have hmeets : Run.Meets OverflowOnly (countParts parts) _ := countParts_meets
      rw [hc] at hmeets
      exact hmeets
    | ok cnt =>
      rw [Run.ok_bind]
      unfold toInt
      split
      · right
        rw [Run.pure_bind, hread]
        rfl
      · left
        rfl
  rcases hmeets with hmeets | hbounds
  · obtain ⟨_, -, hfalse⟩ := hmeets.exists_ok fun e he => he ▸ hover
    exact hfalse.elim
  · exact hbounds

end Run

end Laconic.Serial

import Laconic.Filter.Agree
import Laconic.Filter.Size

/-!
# The rule filter in exact arithmetic

The filter without columns and without counters: rows, and the nodes that are not inlined.  Lengths
and references are counted anew at every turn, and nothing overflows.  The serial filter shows the
same rows turn by turn, and its flags are the exact decisions, as long as every length, frequency
and product of the exact filter is an `int`.
-/

namespace Laconic.Filter

open Slp Splice
open RePair (intBound)

/-- The rows of a graph, and which of its nodes have not been inlined. -/
structure Exact where
  row : Int → List Int
  live : Int → Bool

namespace Exact

def start (vlist elist : List Int) (V k : Nat) : Exact :=
  ⟨fun v => Csr.row vlist elist v.toNat, fun v => decide (0 ≤ v ∧ v < (V : Int) + k)⟩

/-- The number of references to `x`. -/
def refs (V k : Nat) (g : Exact) (x : Int) : Nat :=
  ∑ v ∈ (Finset.range (V + k)).filter (fun v : Nat => g.live v = true), (g.row v).count x

/-- Length and references of rule `i`. -/
def info (V k : Nat) (g : Exact) (i : Int) : RuleInfo :=
  ⟨(g.row (V + i)).length, g.refs V k (V + i)⟩

/-- Rule `ID` is written in the place of every reference to it. -/
def drop (g : Exact) (ID : Int) : Exact :=
  ⟨fun v => inline ID (g.row ID) (g.row v), fun v => g.live v && decide (v ≠ ID)⟩

/-- The turn of rule `i`. -/
def turn (threshold : Int) (V k : Nat) (g : Exact) (i : Nat) : Exact :=
  if judges threshold (g.info V k i).len (g.info V k i).freq = true then g.drop (V + i) else g

/-- The rows after the turns of the first rules. -/
def turns (threshold : Int) (vlist elist : List Int) (V k : Nat) : Nat → Exact
  | 0 => start vlist elist V k
  | n + 1 => (turns threshold vlist elist V k n).turn threshold V k n

variable {V k : Nat} {g : Exact} {ID x : Int}

theorem live_drop : (g.drop ID).live x = true ↔ g.live x = true ∧ x ≠ ID := by
  rw [drop, Bool.and_eq_true, decide_eq_true_eq]

/-- References through the dropped rule become references from its parents. -/
theorem refs_drop (hrange : 0 ≤ ID ∧ ID < (V : Int) + k) (hlive : g.live ID = true)
    (hfree : ID ∉ g.row ID) (hx : x ≠ ID) : (g.drop ID).refs V k x + (g.row ID).count x =
      g.refs V k x + g.refs V k ID * (g.row ID).count x := by
  have hID : ((ID.toNat : Nat) : Int) = ID := Int.toNat_of_nonneg hrange.1
  have hmem : ID.toNat ∈ (Finset.range (V + k)).filter (fun v : Nat => g.live v = true) := by
    rw [Finset.mem_filter, Finset.mem_range, hID]
    exact ⟨by omega, hlive⟩
  have herase : (Finset.range (V + k)).filter (fun v : Nat => (g.drop ID).live v = true) =
      ((Finset.range (V + k)).filter (fun v : Nat => g.live v = true)).erase ID.toNat := by
    ext v
    rw [Finset.mem_erase, Finset.mem_filter, Finset.mem_filter, live_drop]
    constructor
    · rintro ⟨hv, hl, hne⟩
      exact ⟨by omega, hv, hl⟩
    · rintro ⟨hne, hv, hl⟩
      exact ⟨hv, hl, by omega⟩
  have hx' := Finset.sum_erase_add _ (fun v : Nat => (g.row v).count x) hmem
  have hID' := Finset.sum_erase_add _ (fun v : Nat => (g.row v).count ID) hmem
  rw [hID] at hx' hID'
  rw [List.count_eq_zero.mpr hfree, Nat.add_zero] at hID'
  have hsum : (g.drop ID).refs V k x =
      ∑ v ∈ ((Finset.range (V + k)).filter (fun v : Nat => g.live v = true)).erase ID.toNat,
        ((g.row v).count x + (g.row v).count ID * (g.row ID).count x) := by
    rw [refs, herase]
    refine Finset.sum_congr rfl fun v _ => ?_
    rw [drop, count_inline hx]
  rw [hsum, Finset.sum_add_distrib, ← Finset.sum_mul, hID', refs, refs, ← hx']
  omega

end Exact

/-! ## The serial filter shows the exact one -/

/-- A number between two that fit fits. -/
theorem fits_of_between_len {a b n f : Nat} (h : Between a b n) (ha : RuleInfo.Fits ⟨a, f⟩)
    (hb : RuleInfo.Fits ⟨b, f⟩) : RuleInfo.Fits ⟨n, f⟩ := by
  obtain ⟨ha₁, ha₂, ha₃⟩ := ha
  obtain ⟨hb₁, -, hb₃⟩ := hb
  dsimp only at ha₁ ha₂ ha₃ hb₁ hb₃
  have hn : (n : Int) ≤ a ∨ (n : Int) ≤ b := by
    unfold Between at h
    omega
  rcases Nat.eq_zero_or_pos f with hz | hpos
  · rw [hz] at ha₂ ⊢
    have hone : (1 : Int) < intBound := by decide
    refine ⟨by dsimp only; omega, ha₂, ?_⟩
    dsimp only
    rw [show ((0 : Nat) : Int) - 1 = -1 by rfl, Int.neg_one_mul]
    omega
  · have hf : 0 ≤ (f : Int) - 1 := by omega
    refine ⟨by dsimp only; omega, ha₂, ?_⟩
    dsimp only
    rcases hn with hn | hn
    · exact Int.lt_of_le_of_lt
        (Int.mul_le_mul_of_nonneg_left (show (n : Int) - 1 ≤ a - 1 by omega) hf) ha₃
    · exact Int.lt_of_le_of_lt
        (Int.mul_le_mul_of_nonneg_left (show (n : Int) - 1 ≤ b - 1 by omega) hf) hb₃

theorem RuleInfo.Fits.swap {a b : Nat} (h : RuleInfo.Fits ⟨a, b⟩) : RuleInfo.Fits ⟨b, a⟩ := by
  obtain ⟨h₁, h₂, h₃⟩ := h
  exact ⟨h₂, h₁, by rwa [Int.mul_comm] at h₃⟩

/-- The state `s` has the rows of `g`, and is right about its rules. -/
structure Shows (vlist elist : List Int) (threshold : Int) (V k : Nat) (g : Exact) (s : State) :
    Prop where
  graph : GraphInv vlist elist V k (fun v => g.live v = true) s
  info : InfoInv threshold V k (fun f n => f = n) (fun v => g.live v = true) 0 s
  rows : ∀ v, g.live v = true → s.graph.cells v = g.row v

section Shows

variable {vlist elist : List Int} {threshold : Int} {V k : Nat} {g : Exact} {s : State}

theorem safe_equal (threshold : Int) : Safe serial threshold (fun f n => f = n) 0 :=
  ⟨fun _ _ => rfl, fun h => absurd h (by decide), fun h => absurd h (by decide)⟩

namespace Shows

theorem length_col (h : Shows vlist elist threshold V k g s) {x : Int} (hx : g.live x = true) :
    (s.graphT.cells x).length = g.refs V k x := by
  rw [h.graph.length_col hx, Exact.refs]
  refine Finset.sum_congr ?_ fun v hv => ?_
  · ext v
    rw [mem_live, Finset.mem_filter, Finset.mem_range]
  · rw [Finset.mem_filter] at hv
    rw [h.rows v hv.2]

theorem rif_eq (h : Shows vlist elist threshold V k g s) {i : Int} (h0 : 0 ≤ i)
    (hi : g.live (V + i) = true) : s.rif.cells i = g.info V k i := by
  have hlen := h.info.len i h0 hi
  have hfreq := h.info.freq i h0 hi
  rw [h.rows _ hi] at hlen
  rw [h.length_col hi] at hfreq
  rw [Exact.info, ← hlen, ← hfreq]

theorem fits (h : Shows vlist elist threshold V k g s) {i : Int} (h0 : 0 ≤ i)
    (hi : g.live (V + i) = true) : (g.info V k i).Fits := by
  rw [← h.rif_eq h0 hi]
  exact h.info.fits i h0 hi

theorem flag_eq (h : Shows vlist elist threshold V k g s) {i : Int} (h0 : 0 ≤ i)
    (hi : g.live (V + i) = true) : s.mergeFlag.cells i =
      judges threshold (g.info V k i).len (g.info V k i).freq := by
  rw [h.info.flag i h0 hi, h.rif_eq h0 hi]

/-- What does not fit while `ID` is inlined does not fit afterwards. -/
theorem drop_fits (h : Shows vlist elist threshold V k g s)
    (hac : Acyclic (csrRhs V V vlist elist)) {ID : Int} (hID : g.live ID = true)
    (hV : (V : Int) ≤ ID) {e : Fault}
    (he : MergeFault serial V (Without (fun v => g.live v = true) ID) ID s e) :
    ∃ j : Nat, j < k ∧ (g.drop ID).live (V + j) = true ∧ ¬ ((g.drop ID).info V k j).Fits := by
  have hfree := h.graph.not_self hac hID hV
  have hfree' : ID ∉ g.row ID := by rwa [← h.rows ID hID]
  have hrefs : ∀ x, x ≠ ID → _ := fun x hx =>
    Exact.refs_drop (h.graph.range ID hID) hID hfree' hx
  rcases he with ⟨-, i, len, h0, ⟨hi, hne⟩, hbetween, hnot⟩ |
    ⟨-, i, f, n, h0, ⟨hi, hne⟩, hchild, hbetween, hnot⟩
  · have hr := h.graph.range _ hi
    obtain ⟨j, rfl⟩ := Int.eq_ofNat_of_zero_le h0
    refine ⟨j, by omega, Exact.live_drop.mpr ⟨hi, hne⟩, fun hfits => hnot ?_⟩
    have hbefore := h.fits h0 hi
    rw [h.rows _ hi, h.rows _ hID] at hbetween
    rw [h.rif_eq h0 hi]
    by_cases hmem : ID ∈ g.row (V + j)
    · -- a parent has as many references as before
      have hback : (V : Int) + j ∉ g.row ID := fun hb => by
        rw [← h.rows _ hi] at hmem
        rw [← h.rows _ hID] at hb
        exact hac _ ((h.graph.refs _ hi (by omega) _ hmem).trans (h.graph.refs _ hID hV _ hb))
      have hsame := hrefs _ hne
      rw [List.count_eq_zero.mpr hback, Nat.mul_zero, Nat.add_zero, Nat.add_zero] at hsame
      rw [Exact.info, hsame] at hfits
      exact fits_of_between_len hbetween hbefore hfits
    · rw [inline_of_not_mem hmem] at hbetween
      exact fits_of_between_len hbetween hbefore hbefore
  · have hr := h.graph.range _ hi
    obtain ⟨j, rfl⟩ := Int.eq_ofNat_of_zero_le h0
    refine ⟨j, by omega, Exact.live_drop.mpr ⟨hi, hne⟩, fun hfits => hnot ?_⟩
    have hbefore := h.fits h0 hi
    -- an entry of the rule has the length it had
    have hback : ID ∉ g.row (V + j) := fun hb => by
      rw [← h.rows _ hi] at hb
      exact hac _ ((h.graph.refs _ hID hV _ hchild).trans (h.graph.refs _ hi (by omega) _ hb))
    have hafter := hrefs _ hne
    have hcol : (inline ID (s.graphT.cells ID) (s.graphT.cells (V + j))).length +
        (s.graphT.cells (V + j)).count ID = (s.graphT.cells (V + j)).length +
        (s.graphT.cells (V + j)).count ID * (s.graphT.cells ID).length := length_inline
    rw [h.graph.link _ _ hi hID, h.rows ID hID, h.length_col hi, h.length_col hID,
      Nat.mul_comm ((g.row ID).count _)] at hcol
    rw [h.length_col hi, show (inline ID (s.graphT.cells ID) (s.graphT.cells (V + j))).length =
      (g.drop ID).refs V k (V + j) by omega] at hbetween
    rw [Exact.info, Exact.drop] at hfits
    dsimp only at hfits
    rw [inline_of_not_mem hback] at hfits
    rw [h.rows _ hi]
    exact (fits_of_between_len hbetween hbefore.swap hfits.swap).swap

/-- One turn of both filters. -/
theorem turn (h : Shows vlist elist threshold V k g s) (hac : Acyclic (csrRhs V V vlist elist))
    {i : Nat} (hik : i < k) (hi : g.live (V + i) = true) :
    Run.Meets (fun e => e = .overflow ∧ ∃ j : Nat, j < k ∧
        (g.turn threshold V k i).live (V + j) = true ∧
        ¬ ((g.turn threshold V k i).info V k j).Fits)
      (mergeRound serial threshold V i s)
      (Shows vlist elist threshold V k (g.turn threshold V k i)) := by
  have hflag := h.flag_eq (Int.natCast_nonneg i) hi
  have hcomm : (i : Int) + V = V + i := Int.add_comm _ _
  have hround := mergeRound_cases hac (safe_equal threshold) (fun hc => absurd hc (by decide)) h.graph
    ⟨Int.natCast_nonneg i, by rw [h.info.flagSize]; omega⟩ (by rwa [hcomm]) rfl
    fun hon => h.info.without hon
  rw [Exact.turn]
  cases hon : s.mergeFlag.cells i with
  | false =>
    rw [hon] at hflag
    rw [if_neg (by rw [← hflag]; exact Bool.false_ne_true)]
    rw [mergeRound, Block.read_eq ⟨Int.natCast_nonneg i, by rw [h.info.flagSize]; omega⟩,
      Run.ok_bind, hon, if_neg Bool.false_ne_true, Run.meets_pure]
    exact h
  | true =>
    rw [hon] at hflag
    rw [if_pos hflag.symm]
    rw [hcomm] at hround
    refine (hround.weaken fun e he => ⟨he.overflow, h.drop_fits hac hi (by omega) he⟩).mono
      fun s' hs' => ?_
    rcases hs' with ⟨hoff, -⟩ | ⟨-, hm, hg', hinfo'⟩
    · rw [hon] at hoff
      cases hoff
    · have hset : Without (fun v => g.live v = true) (V + i) =
          fun v => (g.drop (V + i)).live v = true :=
        funext fun v => propext Exact.live_drop.symm
      rw [hset] at hg' hinfo'
      refine ⟨hg', hinfo', fun v hv => ?_⟩
      have hv' := Exact.live_drop.mp hv
      rw [hm.rows v hv', h.rows _ hi, h.rows v hv'.1, Exact.drop]

end Shows

theorem Exact.live_turns {n j : Nat} (hnj : n ≤ j) (hj : j < k) :
    (turns threshold vlist elist V k n).live (V + j) = true := by
  induction n with
  | zero =>
    rw [turns, start, decide_eq_true_eq]
    omega
  | succ n ih =>
    rw [turns, turn]
    split
    · exact live_drop.mpr ⟨ih (by omega), by omega⟩
    · exact ih (by omega)

theorem occurrences_eq_sum (hlength : vlist.length = V + k + 1) (x : Int) :
    occurrences vlist elist x = ∑ v ∈ Finset.range (V + k), (Csr.row vlist elist v).count x := by
  rw [occurrences, Csr.rows, hlength, Nat.add_sub_cancel]
  induction V + k with
  | zero => rfl
  | succ n ih =>
    rw [List.range_succ, List.map_append, List.flatten_append, List.count_append, ih,
      Finset.sum_range_succ, List.map_singleton, List.flatten_singleton]

theorem Exact.info_start (hlength : vlist.length = V + k + 1) (i : Nat) :
    (start vlist elist V k).info V k i = ruleInfo vlist elist V i := by
  have hall : (Finset.range (V + k)).filter
      (fun v : Nat => (start vlist elist V k).live v = true) = Finset.range (V + k) := by
    refine Finset.filter_true_of_mem fun v hv => ?_
    rw [Finset.mem_range] at hv
    rw [start, decide_eq_true_eq]
    omega
  rw [info, refs, hall, ruleInfo, occurrences_eq_sum hlength]
  rfl

theorem initState_shows (h : RuleGraph vlist elist V k) :
    Run.Meets (fun e => e = .overflow ∧ ∃ i : Nat, i < k ∧
        ¬ ((Exact.start vlist elist V k).info V k i).Fits) (initState threshold vlist elist V k)
      (Shows vlist elist threshold V k (Exact.start vlist elist V k)) := by
  have hset : Node V k = fun v => (Exact.start vlist elist V k).live v = true :=
    funext fun v => by rw [Node, Exact.start, decide_eq_true_eq]
  refine ((initState_run (P := fun f n => f = n) h.valid h.length h.entries
    fun _ _ => rfl).weaken fun e he => ?_).mono fun s hs => ?_
  · obtain ⟨he, i, hi, hfits⟩ := he
    exact ⟨he, i, hi, by rwa [Exact.info_start h.length]⟩
  · obtain ⟨hgs, hts, hrows, hcount, -, hinfo⟩ := hs
    refine ⟨hset ▸ GraphInv.init h hgs hts hrows hcount, hset ▸ hinfo, fun v hv => ?_⟩
    rw [Exact.start, decide_eq_true_eq] at hv
    have hrow := hrows v.toNat (by omega)
    rwa [Int.toNat_of_nonneg hv.1] at hrow

/-- A length, a number of references or a product of the exact filter is no `int`. -/
def TurnFault (threshold : Int) (vlist elist : List Int) (V k n : Nat) (e : Fault) : Prop :=
  e = .overflow ∧ ∃ m, m ≤ n ∧ ∃ j : Nat, j < k ∧
    (Exact.turns threshold vlist elist V k m).live (V + j) = true ∧
    ¬ ((Exact.turns threshold vlist elist V k m).info V k j).Fits

/-- The serial filter shows the exact one, turn by turn. -/
theorem firstRounds_shows (h : RuleGraph vlist elist V k) {n : Nat} (hn : n ≤ k) :
    Run.Meets (TurnFault threshold vlist elist V k n)
      (firstRounds serial threshold vlist elist V k n)
      (Shows vlist elist threshold V k (Exact.turns threshold vlist elist V k n)) := by
  unfold firstRounds
  refine ((initState_shows h).weaken fun e he => ?_).bind fun s hs => ?_
  · obtain ⟨he, i, hi, hfits⟩ := he
    exact ⟨he, 0, Nat.zero_le n, i, hi, Exact.live_turns (Nat.zero_le i) hi, hfits⟩
  · have hloop : ∀ (i : Int) (s : State), i < n →
        (0 ≤ i ∧ Shows vlist elist threshold V k
          (Exact.turns threshold vlist elist V k i.toNat) s) →
        Run.Meets (TurnFault threshold vlist elist V k n) (mergeRound serial threshold V i s)
          (fun s => 0 ≤ i + 1 ∧ Shows vlist elist threshold V k
            (Exact.turns threshold vlist elist V k (i + 1).toNat) s) := by
      rintro i s hi ⟨h0, hshow⟩
      obtain ⟨i, rfl⟩ := Int.eq_ofNat_of_zero_le h0
      rw [Int.toNat_natCast] at hshow
      rw [show ((i : Int) + 1).toNat = i + 1 by omega]
      refine ((hshow.turn h.acyclic (by omega)
        (Exact.live_turns (Nat.le_refl i) (by omega))).weaken fun e he => ?_).mono
        fun s' hs' => ⟨by omega, hs'⟩
      exact ⟨he.1, i + 1, by omega, he.2⟩
    refine (Run.meets_forLoop _ (n : Int) hloop n 0 s (by omega) ⟨Int.le_refl 0, hs⟩).mono
      fun s' hs' => ?_
    have := hs'.2
    rwa [Int.toNat_natCast] at this

end Shows

/-- At every turn of the serial filter the flags are the exact decisions, if and only if at every
turn of the exact filter lengths, references and products are `int`s. -/
theorem mergeFlag_exact_iff {vlist elist : List Int} {V k : Nat} (h : RuleGraph vlist elist V k)
    (threshold : Int) :
    (∀ n, n ≤ k → ∃ s, firstRounds serial threshold vlist elist V k n = .ok s ∧
      ∀ i : Nat, i < k → (Exact.turns threshold vlist elist V k n).live (V + i) = true →
        s.graph.cells (V + i) = (Exact.turns threshold vlist elist V k n).row (V + i) ∧
        s.mergeFlag.cells i =
          judges threshold ((Exact.turns threshold vlist elist V k n).row (V + i)).length
            ((Exact.turns threshold vlist elist V k n).refs V k (V + i))) ↔
    ∀ n, n ≤ k → ∀ i : Nat, i < k →
      (Exact.turns threshold vlist elist V k n).live (V + i) = true →
      ((Exact.turns threshold vlist elist V k n).info V k i).Fits := by
  constructor
  · intro hrun n hn i hi hlive
    obtain ⟨s, hs, -⟩ := hrun n hn
    exact ((firstRounds_shows h hn).of_ok hs).fits (Int.natCast_nonneg i) hlive
  · intro hfits n hn
    obtain ⟨s, hs, hshow⟩ := (firstRounds_shows h hn).exists_ok
      fun e he => by
        obtain ⟨-, m, hm, j, hj, hlive, hnot⟩ := he
        exact absurd (hfits m (by omega) j hj hlive) hnot
    exact ⟨s, hs, fun i _ hlive =>
      ⟨hshow.rows _ hlive, hshow.flag_eq (Int.natCast_nonneg i) hlive⟩⟩

theorem mergeFlag_exact_upward :
    RuleGraph [0, 2, 4, 6, 9] [2, 3, 3, 0, 3, 1, 0, 1, 1] 2 2 ∧
    ∀ n, n ≤ 2 →
      ∃ s, firstRounds serial 0 [0, 2, 4, 6, 9] [2, 3, 3, 0, 3, 1, 0, 1, 1] 2 2 n = .ok s ∧
        ∀ i : Nat, i < 2 →
          (Exact.turns 0 [0, 2, 4, 6, 9] [2, 3, 3, 0, 3, 1, 0, 1, 1] 2 2 n).live (2 + i) = true →
          s.graph.cells (2 + i) =
            (Exact.turns 0 [0, 2, 4, 6, 9] [2, 3, 3, 0, 3, 1, 0, 1, 1] 2 2 n).row (2 + i) ∧
          s.mergeFlag.cells i = judges 0
            ((Exact.turns 0 [0, 2, 4, 6, 9] [2, 3, 3, 0, 3, 1, 0, 1, 1] 2 2 n).row (2 + i)).length
            ((Exact.turns 0 [0, 2, 4, 6, 9] [2, 3, 3, 0, 3, 1, 0, 1, 1] 2 2 n).refs 2 2 (2 + i)) := by
  have hg : RuleGraph [0, 2, 4, 6, 9] [2, 3, 3, 0, 3, 1, 0, 1, 1] 2 2 :=
    ⟨⟨rfl, by decide, by decide⟩, rfl, by decide, acyclic_csrRhs (fun v => 4 - v) (by decide)⟩
  exact ⟨hg, (mergeFlag_exact_iff hg 0).mpr (by decide +kernel)⟩

/-! ## A product that is no int -/

/-- Vertex 0 refers to rule 1 as often as the rule has entries. -/
def wideRows (n : Nat) : List (List Int) := [List.replicate n 1, List.replicate n 0]

theorem wideRows_ruleGraph (n : Nat) :
    RuleGraph (Csr.offsets (wideRows n)) (wideRows n).flatten 1 1 := by
  have hrow : ∀ v, v < 2 → ∀ x ∈ Csr.row (Csr.offsets (wideRows n)) (wideRows n).flatten v,
      x = 1 - (v : Int) := by
    intro v hv x hx
    rw [Csr.row_offsets (show v < (wideRows n).length from hv)] at hx
    obtain rfl | rfl : v = 0 ∨ v = 1 := by omega
    · exact List.eq_of_mem_replicate hx
    · exact List.eq_of_mem_replicate hx
  refine ⟨Csr.valid_offsets, Csr.length_offsets, fun v hv x hx => ?_,
    acyclic_csrRhs (fun _ => 0) fun v hv hV x hx hx1 => ?_⟩
  · have := hrow v hv x hx
    omega
  · rw [Csr.length_offsets] at hv
    have := hrow v (by exact hv) x hx
    omega

theorem wideRows_info (n : Nat) :
    ruleInfo (Csr.offsets (wideRows n)) (wideRows n).flatten 1 0 = ⟨n, n⟩ := by
  have hlen : (Csr.row (Csr.offsets (wideRows n)) (wideRows n).flatten 1).length = n := by
    rw [Csr.row_offsets (show 1 < (wideRows n).length from Nat.lt_succ_self 1)]
    exact List.length_replicate
  have hocc : occurrences (Csr.offsets (wideRows n)) (wideRows n).flatten 1 = n := by
    rw [occurrences, Csr.rows_offsets, wideRows, List.flatten_cons, List.flatten_singleton,
      List.count_append, List.count_replicate_self, List.count_replicate]
    exact Nat.add_zero n
  rw [ruleInfo]
  show RuleInfo.mk (Csr.row _ _ 1).length (occurrences _ _ 1) = _
  rw [hlen, hocc]

theorem wideRows_overflow {n : Nat} (hn : intBound ≤ ((n : Int) - 1) * (n - 1)) :
    firstRounds serial 0 (Csr.offsets (wideRows n)) (wideRows n).flatten 1 1 0 =
      .error .overflow := by
  have h := wideRows_ruleGraph n
  have hrun : Run.Meets _ (firstRounds serial 0 _ _ 1 1 0) _ :=
    firstRounds_shows h (Nat.zero_le 1)
  cases hs : firstRounds serial 0 (Csr.offsets (wideRows n)) (wideRows n).flatten 1 1 0 with
  | error e =>
    rw [hs] at hrun
    exact congrArg Except.error hrun.1
  | ok s =>
    have hfits := (hrun.of_ok hs).fits (i := 0) (Int.le_refl 0)
      (Exact.live_turns (Nat.le_refl 0) (by decide))
    have hinfo : (Exact.start _ (wideRows n).flatten 1 1).info 1 1 (0 : Nat) = _ :=
      Exact.info_start h.length 0
    rw [wideRows_info] at hinfo
    rw [Exact.turns, show ((0 : Int)) = ((0 : Nat) : Int) by rfl, hinfo] at hfits
    have hprod := hfits.2.2
    dsimp only at hprod
    omega

/-- 65537 references to a rule of 65537 entries: the product is `2 ^ 32`.  The flag is off in exact
arithmetic, and on when the product wraps. -/
theorem mergeFlag_inexact : RuleGraph (Csr.offsets (wideRows 65537)) (wideRows 65537).flatten 1 1 ∧
    ((Csr.offsets (wideRows 65537)).length : Int) < 2 ^ 31 ∧
    ((wideRows 65537).flatten.length : Int) < 2 ^ 31 ∧
    firstRounds serial 0 (Csr.offsets (wideRows 65537)) (wideRows 65537).flatten 1 1 0 =
      .error .overflow ∧
    ruleInfo (Csr.offsets (wideRows 65537)) (wideRows 65537).flatten 1 0 = ⟨65537, 65537⟩ ∧
    judges 0 65537 65537 = false ∧
    Int.bmod (Int.bmod ((65537 - 1) * (65537 - 1)) (2 ^ 32) - 1) (2 ^ 32) ≤ 0 := by
  refine ⟨wideRows_ruleGraph _, ?_, ?_, wideRows_overflow (by decide), wideRows_info _, by decide,
    by decide⟩
  · rw [Csr.length_offsets]
    decide
  · rw [wideRows, List.flatten_cons, List.flatten_singleton, List.length_append,
      List.length_replicate, List.length_replicate]
    decide

end Laconic.Filter

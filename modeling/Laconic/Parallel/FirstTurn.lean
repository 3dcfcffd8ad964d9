import Laconic.Parallel.RoundTrip

/-!
# The parallel compressor: the size after the first turn

The first turn counts the pairs of the input only.  A pair gets a row when it stands at four places at
least.  The places overlap, so some pairs may not be replaced at all, but the scan uses at least half
of all places: the edges it saves pay for the new rows.
-/

namespace Laconic.Parallel

open PairScan
open RePair (intBound)

section Turn

variable {order : Order} {n lenVertex : Nat} {s : State} {t : Text}

/-- `replace` finds every pair that got an id. -/
theorem isSome_findId (hready : t.Ready lenVertex) (hfits : t.Fits) (horder : Permutes order)
    {p : Int × Int} (hp : p ∈ t.news order n) :
    (findId (prepareAll t.base (turnCounts order n t.pushed)) p.1 p.2).isSome := by
  have hcounted := counted_turn horder n t.pushed
  have hth : threshold = 4 := rfl
  have hcount := (hready.mem_news hfits horder).mp hp
  obtain ⟨h₁, h₂⟩ := hready.wordPairs hfits p (List.count_pos_iff.mp (by omega))
  rw [hcounted.findId_eq (hready.wordPairs hfits) t.base h₁ h₂, Option.isSome_map]
  exact isSome_pairId hp

/-- A turn that starts with empty buckets leaves at most as many edges. -/
theorem Holds.repairTurn_length_le (h : Holds s t) (hready : t.Ready lenVertex) (hfits : t.Fits)
    (horder : Permutes order) (hhist : t.hist = []) :
    ∃ s', Parallel.repairTurn order lenVertex n s = .ok s' ∧
      s'.inputEdge.length ≤ s.inputEdge.length := by
  obtain ⟨tables, htables, R, hR, hrun⟩ := h.repairTurn_eq hready hfits
  have hpushed : t.pushed = rowPairs t.rows := by rw [Text.pushed, hhist, List.nil_append]
  refine ⟨_, hrun, ?_⟩
  dsimp only
  rw [List.length_map, h.edge, hR]
  refine length_flatten_turnRows_le_of_count (hready.nodup_news hfits horder) (fun p hp => ?_)
    fun p hp => ?_
  · rw [htables]
    exact isSome_findId hready hfits horder hp
  · have hcount := (hready.mem_news hfits horder).mp hp
    rwa [hpushed] at hcount

end Turn

section Repair

variable {order : Order} {vertex edge : List Int} {maxSymbol : Int}

end Repair

end Laconic.Parallel

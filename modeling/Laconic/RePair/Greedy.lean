import Laconic.RePair.Cursor
import Laconic.RePair.RoundTrip
import Laconic.RePair.Representation

/-!
# Re-Pair: the most frequent pair is replaced, until all pairs are distinct

The cursor of the heap is only ever lowered, so `extractMax` finds the most frequent pair because no
pair of a later text is more frequent than the pair extracted last.  A replaced pair never comes
back, and when the heap is empty every pair of adjacent symbols occurs once.
-/

namespace Laconic.RePair

open Neighbour Relation

/-- Once the cursor is among the buckets, no pair that occurs twice occurs more often than it says. -/
def CursorBounds (R : Repair) (t : List Int) : Prop :=
  R.S.Heap.max < R.S.Heap.sqrtu → ∀ Q, 2 ≤ pairCount t Q → (pairCount t Q : Int) ≤ R.S.Heap.max

/-- The rules are distinct, and none of their pairs is in the text. -/
structure Rewriting.Reduced (s : Rewriting) : Prop where
  distinct : s.rules.Nodup
  gone : ∀ P ∈ s.rules, pairCount s.text P = 0

/-- What is known of the state at the head of the outer loop. -/
structure GreedyInv (alph : Int) (R : Repair) (ps : List Int) : Prop where
  inv : RepairInv R ps
  alphabet : R.n = alph + R.rule.length
  earlier : ∀ P ∈ R.rule, P.left < R.n ∧ P.right < R.n
  cursor : CursorBounds R (ps.map R.inter.cells)
  reduced : (R.view ps).Reduced

namespace RepairInv

variable {R : Repair} {ps : List Int} {id : Int} {Q : Tpair}

/-- The record of a pair holds the number of its occurrences. -/
theorem freq_eq (h : RepairInv R ps) (hid : R.S.Rec.InB id) : (R.S.Rec.cells id).freq =
    (pairCount (ps.map R.inter.cells) (R.S.Rec.cells id).pair : Int) := by
  rw [h.index.freq id hid not_false, h.size, h.text.cnt_labels]

/-- A pair that occurs twice has a record. -/
theorem exists_record (h : RepairInv R ps) (hQ : 2 ≤ pairCount (ps.map R.inter.cells) Q) :
    ∃ id, R.S.Rec.InB id ∧ (R.S.Rec.cells id).pair = Q := by
  rw [← h.text.cnt_labels] at hQ
  by_contra hno
  have hpos : 0 < cnt (labels R.inter ps) R.u Q := by omega
  obtain ⟨p, hp⟩ := exists_of_cnt_pos hpos
  have hone := (h.index.lists.untracked p Q hp hno).2.2
  have hlen : cnt (labels R.inter ps) R.u Q = [p].length := by
    refine cnt_eq_length (List.nodup_singleton p) (fun q => ?_) fun q hq => h.size ▸ h.index.range hq
    rw [List.mem_singleton]
    exact ⟨fun he => he ▸ hp, hone q⟩
  rw [List.length_singleton] at hlen
  omega

theorem cursor_records (h : RepairInv R ps) (hc : CursorBounds R (ps.map R.inter.cells)) :
    HeapInv.Cursor R.S.Heap R.S.Rec R.S.Rec.InB := fun hlt j hj => by
  have hfreq := h.freq_eq hj
  have htwo := h.freq j hj
  rw [hfreq] at htwo ⊢
  exact hc hlt _ (by omega)

end RepairInv

namespace GreedyInv

variable {alph : Int} {R R' : Repair} {ps : List Int} {id : Int} {H : Theap}

/-- `extractMax` returns the most frequent pair, or every pair occurs at most once. -/
theorem extractMax (h : GreedyInv alph R ps) : ∃ id H, extractMax R.S.Heap = .ok (id, H) ∧
    ((id = -1 ∧ ∀ Q, pairCount (ps.map R.inter.cells) Q ≤ 1) ∨
      (R.S.Rec.InB id ∧ IndexInv { R.S with Heap := H } (labels R.inter ps)
        (fun pr => pr = (R.S.Rec.cells id).pair) 0 ∧
      2 ≤ pairCount (ps.map R.inter.cells) (R.S.Rec.cells id).pair ∧
      (∀ Q, pairCount (ps.map R.inter.cells) Q ≤
        pairCount (ps.map R.inter.cells) (R.S.Rec.cells id).pair) ∧
      (H.max < H.sqrtu →
        H.max = pairCount (ps.map R.inter.cells) (R.S.Rec.cells id).pair))) := by
  have hcursor := h.inv.cursor_records h.cursor
  obtain ⟨id, H, hrun, hcase⟩ := h.inv.index.extractMax_keeps
  refine ⟨id, H, hrun, ?_⟩
  rcases hcase with ⟨rfl, -, hnone⟩ | ⟨hid, hindex, hgreat⟩
  · refine Or.inl ⟨rfl, fun Q => ?_⟩
    by_contra hQ
    obtain ⟨j, hj, -⟩ := h.inv.exists_record (Q := Q) (by omega)
    exact hnone hcursor j hj
  · obtain ⟨hmax, hat⟩ := hgreat hcursor
    have htwo := h.inv.freq id hid
    rw [h.inv.freq_eq hid] at hmax hat htwo
    refine Or.inr ⟨hid, hindex, by omega, fun Q => ?_, hat⟩
    by_cases hQ : 2 ≤ pairCount (ps.map R.inter.cells) Q
    · obtain ⟨j, hj, rfl⟩ := h.inv.exists_record hQ
      have := hmax j hj
      rw [h.inv.freq_eq hj] at this
      omega
    · omega

/-- The rules and the text after a turn. -/
theorem Rewriting.Reduced.turnOf {P : Tpair} {s s' : Rewriting} (h : s.Reduced)
    (hturn : Rewriting.TurnOf alph P s s') (htwo : 2 ≤ pairCount s.text P)
    (hrules : ∀ Q ∈ s.rules, Q.left ≠ alph + s.rules.length ∧ Q.right ≠ alph + s.rules.length) :
    s'.Reduced := by
  have hnew : P ∉ s.rules := fun hP => by
    have := h.gone P hP
    omega
  refine ⟨?_, fun Q hQ => ?_⟩
  · rw [hturn.rules]
    exact List.nodup_append.mpr ⟨h.distinct, List.nodup_singleton P, fun Q hQ Q' hQ' he =>
      hnew (List.mem_singleton.mp hQ' ▸ he ▸ hQ)⟩
  · rw [hturn.rules, List.mem_append, List.mem_singleton] at hQ
    rcases hQ with hQ | rfl
    · -- an older rule does not have the new symbol
      have hle := replaces_induction (I := fun t => pairCount t Q ≤ pairCount s.text Q)
        hturn.replaced.to_reflTransGen
        (fun t t' ht hle => (ht.pairCount_le (hrules Q hQ).1 (hrules Q hQ).2).trans hle) le_rfl
      rw [h.gone Q hQ] at hle
      omega
    · exact hturn.gone

/-- A turn keeps all of it. -/
theorem repairTurn (h : GreedyInv alph R ps) (hrun : RePair.extractMax R.S.Heap = .ok (id, H))
    (hid : id ≠ -1)
    (hturn : RePair.repairTurn id { R with S := { R.S with Heap := H } } = .ok R') :
    ∃ ps', GreedyInv alph R' ps' := by
  obtain ⟨id', H', hrun', hcase⟩ := h.extractMax
  obtain ⟨rfl, rfl⟩ : id' = id ∧ H' = H := by
    rw [hrun] at hrun'
    injection hrun' with he
    injection he with h₁ h₂
    exact ⟨h₁.symm, h₂.symm⟩
  obtain ⟨hin, hindex, htwo, hmost, hat⟩ := hcase.resolve_left fun hn => hid hn.1
  obtain ⟨ps', hinv, hn, -, hof⟩ := (repairTurn_meets h.inv hin hindex h.alphabet).of_ok hturn
  have hsame := repairTurn_sameMax.of_ok hturn
  have hlt := h.inv.pair_lt hin
  have halph : alph + ((R.view ps).rules.length : Int) = R.n := h.alphabet.symm
  have hrules : R'.rule = R.rule ++ [_] := hof.rules
  refine ⟨ps', hinv, ?_, fun P hP => ?_, fun hbelow Q hQ => ?_, ?_⟩
  · rw [hn, hrules, List.length_append, List.length_singleton, h.alphabet]
    omega
  · rw [hn]
    rw [hrules, List.mem_append, List.mem_singleton] at hP
    rcases hP with hP | rfl
    · have := h.earlier P hP
      omega
    · omega
  · -- no pair is more frequent than the one that was replaced
    have hgen := hof.replaced.to_reflTransGen
    rw [halph] at hgen
    have hfresh : R.n ∉ (R.view ps).text := fun hmem => by
      obtain ⟨p, hp, he⟩ := List.mem_map.mp hmem
      have := h.inv.symbols p hp
      omega
    have hle := pairCount_replaces_le hgen hfresh (by omega) (by omega) Q
    have hQ := hmost Q
    rw [hsame.1, hsame.2] at hbelow
    rw [hsame.1, hat hbelow]
    change pairCount (ps.map R.inter.cells) Q ≤ _ at hQ
    have hle' : pairCount (ps'.map R'.inter.cells) Q ≤
        pairCount (ps.map R.inter.cells) (R.S.Rec.cells id').pair :=
      hle.trans (max_le hQ le_rfl)
    omega
  · refine Rewriting.Reduced.turnOf h.reduced hof htwo fun P hP => ?_
    rw [halph]
    have := h.earlier P hP
    exact ⟨by omega, by omega⟩

end GreedyInv

/-- A round that goes on is a turn for the extracted pair. -/
theorem repairRound_true {R R' : Repair} (h : repairRound R = .ok (true, R')) :
    ∃ id H, extractMax R.S.Heap = .ok (id, H) ∧ id ≠ -1 ∧
      repairTurn id { R with S := { R.S with Heap := H } } = .ok R' := by
  rw [repairRound] at h
  split at h
  · obtain ⟨⟨id, H⟩, hrun, h⟩ := Run.bind_eq_ok.mp h
    dsimp only at h
    split at h
    · cases h
    · next hid =>
      obtain ⟨R₁, hturn, h⟩ := Run.bind_eq_ok.mp h
      cases h
      exact ⟨id, H, hrun, hid, hturn⟩
  · cases h

/-- A round that ends the loop has used up the symbols or found the heap empty. -/
theorem repairRound_false {R R' : Repair} (h : repairRound R = .ok (false, R')) :
    (symbolsLeft R.n = false ∧ R' = R) ∨
      ∃ H, extractMax R.S.Heap = .ok (-1, H) ∧ R' = { R with S := { R.S with Heap := H } } := by
  rw [repairRound] at h
  split at h
  · obtain ⟨⟨id, H⟩, hrun, h⟩ := Run.bind_eq_ok.mp h
    dsimp only at h
    split at h
    · next hid =>
      cases h
      exact Or.inr ⟨H, hid ▸ hrun, rfl⟩
    · obtain ⟨R₁, hturn, h⟩ := Run.bind_eq_ok.mp h
      cases h
  · next hleft =>
    cases h
    exact Or.inl ⟨by simpa using hleft, rfl⟩

/-- The invariant holds at the head of every iteration, for every text with a symbol. -/
theorem Reach.greedyInv {alph : Int} {inter : Block Int} {R : Repair} (h : Reach alph inter R)
    (hcells : ∀ p, 0 ≤ p → p < inter.size → 0 ≤ inter.cells p ∧ inter.cells p < alph)
    (hpos : 0 < inter.size) : ∃ ps, GreedyInv alph R ps := by
  induction h with
  | @prepared R hrun =>
    have hsize : inter.size ≤ HeapInv.maxSqrtu * HeapInv.maxSqrtu := by
      by_contra hn
      rw [prepare_overflow (by omega)] at hrun
      cases hrun
    obtain ⟨hinv, hn, hrule, -⟩ := (prepare_meets hsize hcells hpos).of_ok hrun
    have hmax := prepare_max.of_ok hrun
    refine ⟨_, hinv, by rw [hn, hrule]; simp, fun P hP => ?_, fun hlt => ?_, ⟨?_, fun P hP => ?_⟩⟩
    · rw [hrule] at hP
      cases hP
    · omega
    · rw [Repair.view, hrule]
      exact List.nodup_nil
    · rw [Repair.view, hrule] at hP
      cases hP
  | turn _ hrun ih =>
    obtain ⟨ps, hinv⟩ := ih
    obtain ⟨id, H, hmax, hid, hturn⟩ := repairRound_true hrun
    exact hinv.repairTurn hmax hid hturn

/-! ## The text of a state -/

/-- The live symbols, as the walk over `inter` meets them. -/
def liveText (R : Repair) : Run (List Int) := do
  let w ← walkText R.inter R.u R.c.toNat 0
  pure (w.1.map R.inter.cells)

theorem RepairInv.liveText_eq {R : Repair} {ps : List Int} (h : RepairInv R ps) :
    liveText R = .ok (ps.map R.inter.cells) := by
  rw [liveText, h.represents.walk, Run.ok_bind]
  rfl

theorem EmptyText.liveText_eq {alph : Int} {R : Repair} (h : EmptyText alph R) :
    liveText R = .ok [] := by
  rw [liveText, h.1.2.1, Int.toNat_zero, walkText, Run.pure_bind]
  rfl

/-- An empty text stays as it is. -/
theorem Reach.empty {alph : Int} {R : Repair} (h : Reach alph (Block.ofList []) R) :
    EmptyText alph R := by
  induction h with
  | prepared hrun => exact prepare_nil.of_ok hrun
  | turn _ hrun ih =>
    obtain ⟨-, H, hmax⟩ := ih
    obtain ⟨id, H', hmax', hid, -⟩ := repairRound_true hrun
    rw [hmax] at hmax'
    cases hmax'
    exact absurd rfl hid

/-- The two kinds of states at the head of the outer loop. -/
theorem Reach.cases_text {alph : Int} {text : List Int} {R : Repair}
    (htext : ∀ x ∈ text, 0 ≤ x ∧ x < alph) (h : Reach alph (Block.ofList text) R) :
    EmptyText alph R ∨ ∃ ps, GreedyInv alph R ps := by
  cases text with
  | nil => exact Or.inl h.empty
  | cons x text =>
    refine Or.inr (h.greedyInv (fun p h0 hp => htext _ (mem_of_cells h0 hp)) ?_)
    change (0 : Int) < ((x :: text).length : Int)
    rw [List.length_cons]
    omega

/-- At the head of every iteration, for every text of symbols below `alph`: the pair that
`extractMax` returns occurs at least twice and at least as often as any other, and the loop ends
only when every pair occurs once or there is no symbol left. -/
theorem repair_greedy {alph : Int} {text : List Int} {R : Repair}
    (htext : ∀ x ∈ text, 0 ≤ x ∧ x < alph) (h : Reach alph (Block.ofList text) R) :
    ∃ t, liveText R = .ok t ∧
      (∃ id H, extractMax R.S.Heap = .ok (id, H) ∧ (id ≠ -1 → ∃ r, R.S.Rec.read id = .ok r ∧
        2 ≤ pairCount t r.pair ∧ ∀ Q, pairCount t Q ≤ pairCount t r.pair)) ∧
      ∀ R', repairRound R = .ok (false, R') →
        symbolsLeft R.n = false ∨ ∀ Q, 0 < pairCount t Q → pairCount t Q = 1 := by
  rcases h.cases_text htext with hempty | ⟨ps, hinv⟩
  · obtain ⟨H, hmax⟩ := hempty.2
    refine ⟨[], hempty.liveText_eq, ⟨-1, H, hmax, fun hid => absurd rfl hid⟩, fun R' _ => ?_⟩
    exact Or.inr fun Q hQ => absurd hQ (Nat.lt_irrefl 0)
  · obtain ⟨id, H, hmax, hcase⟩ := hinv.extractMax
    refine ⟨_, hinv.inv.liveText_eq, ⟨id, H, hmax, fun hid => ?_⟩, fun R' hstop => ?_⟩
    · obtain ⟨hin, -, htwo, hmost, -⟩ := hcase.resolve_left fun hn => hid hn.1
      exact ⟨_, Block.read_eq hin, htwo, hmost⟩
    · rcases repairRound_false hstop with ⟨hleft, -⟩ | ⟨H', hmax', -⟩
      · exact Or.inl hleft
      · rw [hmax] at hmax'
        cases hmax'
        rcases hcase with ⟨-, hone⟩ | ⟨hin, -⟩
        · exact Or.inr fun Q hQ => Nat.le_antisymm (hone Q) hQ
        · exact absurd hin.1 (by decide)

/-- The text `abab` has a most frequent pair. -/
theorem repair_greedy_abab : ∃ R t r, Reach 2 (Block.ofList [0, 1, 0, 1]) R ∧ liveText R = .ok t ∧
    R.S.Rec.read 0 = .ok r ∧ 2 ≤ pairCount t r.pair ∧
      ∀ Q, pairCount t Q ≤ pairCount t r.pair := by
  have hrun : (prepare 2 (Block.ofList [0, 1, 0, 1]) >>= fun R => extractMax R.S.Heap >>= fun e =>
      pure e.1) = (.ok 0 : Run Int) := by decide +kernel
  obtain ⟨R, hprepare, hrun⟩ := Run.bind_eq_ok.mp hrun
  obtain ⟨⟨id, H⟩, hmax, hid⟩ := Run.bind_eq_ok.mp hrun
  cases hid
  obtain ⟨t, ht, ⟨id', H', hmax', hgreedy⟩, -⟩ :=
    repair_greedy (by decide) (Reach.prepared hprepare)
  rw [hmax] at hmax'
  cases hmax'
  obtain ⟨r, hr, htwo, hmost⟩ := hgreedy (by decide)
  exact ⟨R, t, r, Reach.prepared hprepare, ht, hr, htwo, hmost⟩

/-- The state before the last round of a run. -/
theorem Reach.last {alph : Int} {inter : Block Int} (k : Nat) {R R' : Repair}
    (h : Reach alph inter R) (hrun : repairLoop k R = .ok R') :
    ∃ R₁, Reach alph inter R₁ ∧ repairRound R₁ = .ok (false, R') := by
  induction k generalizing R with
  | zero => cases hrun
  | succ k ih =>
    rw [repairLoop] at hrun
    obtain ⟨⟨b, R₁⟩, hround, hrun⟩ := Run.bind_eq_ok.mp hrun
    cases b with
    | true => exact ih (Reach.turn h hround) hrun
    | false =>
      cases hrun
      exact ⟨R, h, hround⟩

/-- When `repair` returns with symbols left, its result cannot be reduced further. -/
theorem repair_irreducible {alph : Int} {text : List Int} {R₀ R : Repair}
    (htext : ∀ x ∈ text, 0 ≤ x ∧ x < alph) (hprepare : prepare alph (Block.ofList text) = .ok R₀)
    (hrun : repair R₀ = .ok R) (hleft : symbolsLeft R.n = true) :
    R.rule.Nodup ∧ ∃ t, liveText R = .ok t ∧ (∀ P ∈ R.rule, pairCount t P = 0) ∧
      ∀ Q, 0 < pairCount t Q → pairCount t Q = 1 := by
  obtain ⟨R₁, hreach, hround⟩ := (Reach.prepared hprepare).last _ hrun
  rcases repairRound_false hround with ⟨hno, rfl⟩ | ⟨H, hmax, rfl⟩
  · rw [hno] at hleft
    cases hleft
  · rcases hreach.cases_text htext with hempty | ⟨ps, hinv⟩
    · have hrule := hempty.1.2.2.2
      refine ⟨by dsimp only; rw [hrule]; exact List.nodup_nil, [], hempty.liveText_eq,
        fun P _ => rfl, fun Q hQ => absurd hQ (Nat.lt_irrefl 0)⟩
    · refine ⟨hinv.reduced.distinct, _, hinv.inv.liveText_eq, hinv.reduced.gone, fun Q hQ => ?_⟩
      obtain ⟨id, H', hmax', hcase⟩ := hinv.extractMax
      rw [hmax] at hmax'
      cases hmax'
      rcases hcase with ⟨-, hone⟩ | ⟨hin, -⟩
      · exact Nat.le_antisymm (hone Q) hQ
      · exact absurd hin.1 (by decide)

/-- The text `abab` ends as `cc` with the rule `c → ab`. -/
theorem repair_irreducible_abab : ∃ R t, (prepare 2 (Block.ofList [0, 1, 0, 1]) >>= repair) = .ok R ∧
    R.rule = [⟨0, 1⟩] ∧ liveText R = .ok t ∧ pairCount t ⟨0, 1⟩ = 0 ∧
      ∀ Q, 0 < pairCount t Q → pairCount t Q = 1 := by
  have hrun : (prepare 2 (Block.ofList [0, 1, 0, 1]) >>= fun R => repair R >>= fun R =>
      pure (R.rule, symbolsLeft R.n)) = (.ok ([⟨0, 1⟩], true) : Run (List Tpair × Bool)) := by
    decide +kernel
  obtain ⟨R₀, hprepare, hrun⟩ := Run.bind_eq_ok.mp hrun
  obtain ⟨R, hrepair, hres⟩ := Run.bind_eq_ok.mp hrun
  injection hres with hres
  injection hres with hrule hleft
  obtain ⟨-, t, ht, hgone, hone⟩ := repair_irreducible (by decide) hprepare hrepair hleft
  refine ⟨R, t, ?_, hrule, ht, hgone _ (by rw [hrule]; exact List.mem_singleton_self _), hone⟩
  rw [hprepare, Run.ok_bind, hrepair]

end Laconic.RePair

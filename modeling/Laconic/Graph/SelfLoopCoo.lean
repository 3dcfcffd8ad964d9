import Laconic.Graph.SelfLoop
import Mathlib.Data.List.Pairwise

/-!
# Self-loops of edge lists

`add_self_loop_coo` copies the edges of one vertex after the other.  A run of equal sources ends at
the next different one, so the last row takes everything with it that looks like one of its edges in
the memory behind the arrays.
-/

namespace Laconic.Graph

/-! ## Edge lists -/

/-- The state with `out` written for `vid`, `k` edges further on. -/
def CooState.advanced (S D : Int → Int) (s : CooState) (out : List Int) (k : Int) : CooState :=
  { s with
    src := s.src ++ List.replicate out.length s.vid
    dst := s.dst ++ out
    eid := s.eid + k
    srcId := S (s.eid + k)
    dstId := D (s.eid + k) }

/-- The state has read the edge at `eid`. -/
def CooState.Loaded (S D : Int → Int) (s : CooState) : Prop :=
  s.srcId = S s.eid ∧ s.dstId = D s.eid

section Coo

variable {S D : Int → Int} {s : CooState} {l : List Int} {fuel k : Nat}

theorem CooState.advanced_advanced (a b : List Int) (i j : Int) :
    (s.advanced S D a i).advanced S D b j = s.advanced S D (a ++ b) (i + j) := by
  simp only [advanced, List.length_append, List.replicate_add, List.append_assoc, Int.add_assoc]

theorem CooState.Loaded.copy (h : s.Loaded S D) (hv : s.srcId = s.vid) :
    s.copy S D = s.advanced S D [D s.eid] 1 := by
  unfold CooState.copy push load advanced
  rw [h.2, hv]
  rfl

theorem CooState.Loaded.push (h : s.Loaded S D) :
    s.push s.vid s.vid = s.advanced S D [s.vid] 0 := by
  obtain ⟨src, dst, vid, eid, srcId, dstId, done⟩ := s
  obtain ⟨rfl, rfl⟩ : srcId = S eid ∧ dstId = D eid := h
  unfold CooState.push advanced
  simp

@[simp] theorem CooState.advanced_eid (a : List Int) (i : Int) :
    (s.advanced S D a i).eid = s.eid + i := rfl

@[simp] theorem CooState.advanced_vid (a : List Int) (i : Int) :
    (s.advanced S D a i).vid = s.vid := rfl

theorem CooState.loaded_advanced (a : List Int) (i : Int) :
    (s.advanced S D a i).Loaded S D := ⟨rfl, rfl⟩

theorem CooState.Loaded.advanced_nil (h : s.Loaded S D) : s.advanced S D [] 0 = s := by
  obtain ⟨src, dst, vid, eid, srcId, dstId, done⟩ := s
  obtain ⟨rfl, rfl⟩ : srcId = S eid ∧ dstId = D eid := h
  unfold CooState.advanced
  simp

/-- The edges from `eid` to `eid + l.length` are all that start at `vid`. -/
structure SourceRun (S D : Int → Int) (vid eid : Int) (l : List Int) : Prop where
  sources : Holds S eid (List.replicate l.length vid)
  entries : Holds D eid l
  stop : S (eid + l.length) ≠ vid

theorem SourceRun.tail {vid eid x : Int} (h : SourceRun S D vid eid (x :: l)) :
    S eid = vid ∧ D eid = x ∧ SourceRun S D vid (eid + 1) l := by
  refine ⟨h.sources.1, h.entries.1, h.sources.2, h.entries.2, ?_⟩
  have := h.stop
  rwa [List.length_cons, Int.natCast_add, Int.add_comm (l.length : Int), ← Int.add_assoc] at this

/-- The last inner loop. -/
theorem copySource_eq (hs : s.Loaded S D) (h : SourceRun S D s.vid s.eid l) (hk : l.length < k) :
    copySource k S D s = .ok (s.advanced S D l l.length) := by
  induction l generalizing s k with
  | nil =>
    obtain ⟨k, rfl⟩ := Nat.exists_eq_add_one.mpr hk
    have hstop : S s.eid ≠ s.vid := by simpa using h.stop
    unfold copySource
    rw [Run.whileLoop, Run.pure_bind, hs.1, decide_eq_false hstop]
    exact congrArg Except.ok hs.advanced_nil.symm
  | cons x l ih =>
    obtain ⟨k, rfl⟩ := Nat.exists_eq_add_one.mpr (Nat.lt_of_le_of_lt (Nat.zero_le _) hk)
    obtain ⟨hv, hx, htail⟩ := h.tail
    rw [List.length_cons] at hk
    have hnext := ih (s := s.advanced S D [x] 1) (k := k) (CooState.loaded_advanced _ _) htail
      (by omega)
    unfold copySource at hnext ⊢
    rw [Run.whileLoop, Run.pure_bind, hs.1, decide_eq_true hv, if_pos rfl, Run.pure_bind,
      hs.copy (hs.1.trans hv), hx, hnext, CooState.advanced_advanced, List.singleton_append,
      List.length_cons, Int.natCast_add, Int.add_comm]
    rfl

/-- The self-loop is inserted into the run of edges from `vid`. -/
theorem selfLoopEdges_eq (hs : s.Loaded S D) (h : SourceRun S D s.vid s.eid l) (hk : l.length < k)
    (hfuel : l.length < fuel) :
    (Run.whileLoop (fun s : CooState => pure (decide (s.srcId = s.vid ∧ s.dstId < s.vid)))
      (fun s => pure (s.copy S D)) k s >>= selfLoopEdge fuel S D) =
      .ok (s.advanced S D (insertLoop s.vid l) l.length) := by
  induction l generalizing s k with
  | nil =>
    obtain ⟨k, rfl⟩ := Nat.exists_eq_add_one.mpr hk
    have hstop : S s.eid ≠ s.vid := by simpa using h.stop
    have hrest : copySource fuel S D (s.advanced S D [s.vid] 0) =
        .ok (s.advanced S D [s.vid] 0) := by
      rw [copySource_eq (CooState.loaded_advanced _ _) (l := [])
        ⟨trivial, trivial, by simpa using hstop⟩ hfuel, CooState.advanced_advanced]
      rfl
    rw [Run.whileLoop, Run.pure_bind, hs.1, decide_eq_false (fun hc => hstop hc.1)]
    change selfLoopEdge fuel S D s = _
    rw [selfLoopEdge, hs.1, if_neg (fun hc => hstop hc.1), hs.push, hrest]
    rfl
  | cons x l ih =>
    obtain ⟨k, rfl⟩ := Nat.exists_eq_add_one.mpr (Nat.lt_of_le_of_lt (Nat.zero_le _) hk)
    obtain ⟨hv, hx, htail⟩ := h.tail
    rw [List.length_cons] at hk hfuel
    have hlen : ((x :: l).length : Int) = 1 + l.length := by
      rw [List.length_cons, Int.natCast_add, Int.add_comm]
      rfl
    rw [Run.whileLoop, Run.pure_bind, hs.1, hs.2, hx, insertLoop]
    split
    · -- the first loop copies the edge
      rename_i hc
      obtain hlt := (of_decide_eq_true hc).2
      have hnext := ih (s := s.advanced S D [x] 1) (k := k) (CooState.loaded_advanced _ _) htail
        (by omega) (by omega)
      rw [Run.pure_bind, hs.copy (hs.1.trans hv), hx, hnext, if_pos hlt,
        CooState.advanced_advanced, hlen]
      rfl
    · rename_i hc
      have hlt : ¬ x < s.vid := fun hlt => hc (decide_eq_true ⟨hv, hlt⟩)
      rw [if_neg hlt, Run.pure_bind, selfLoopEdge, hs.1, hs.2, hx]
      by_cases hxv : x = s.vid
      · rw [if_pos ⟨hv, hxv⟩, if_pos hxv, hs.copy (hs.1.trans hv), hx,
          copySource_eq (CooState.loaded_advanced _ _) htail (by omega),
          CooState.advanced_advanced, hlen]
        rfl
      · have hrest := copySource_eq (s := s.advanced S D [s.vid] 0) (l := x :: l) (k := fuel)
          (CooState.loaded_advanced _ _) (by
            rw [CooState.advanced_eid, Int.add_zero]
            exact h) (by rw [List.length_cons]; omega)
        rw [if_neg (fun hc => hxv hc.2), if_neg hxv, hs.push, hrest, CooState.advanced_advanced,
          Int.zero_add]
        rfl

/-- The state behind the edges of `vid`. -/
def CooState.next (S D : Int → Int) (vertexCnt : Int) (s : CooState) (out : List Int) (k : Int) :
    CooState :=
  { s.advanced S D out k with vid := s.vid + 1, done := decide (s.vid + 1 = vertexCnt) }

variable (vertexCnt edgeCnt : Int)

/-- One round of the outer loop. -/
theorem selfLoopSource_eq (h : SourceRun S D s.vid s.eid l) (hfuel : l.length < fuel) :
    selfLoopSource fuel S D vertexCnt s =
      .ok (s.next S D vertexCnt (insertLoop s.vid l) l.length) := by
  have hedges := selfLoopEdges_eq (s := s.load S D) ⟨rfl, rfl⟩ h hfuel hfuel
  unfold selfLoopSource
  rw [← bind_assoc, hedges]
  rfl

/-- A round does not end when memory goes on with `vid` for ever. -/
theorem selfLoopSource_ne_ok (h : ∀ i : Int, s.eid ≤ i → S i = s.vid) (t : CooState) :
    selfLoopSource fuel S D vertexCnt s ≠ .ok t := by
  intro hrun
  -- the loops keep `vid`, never go back and read what is in memory
  have hcopy : ∀ a b : CooState, (a.Loaded S D ∧ a.vid = s.vid ∧ s.eid ≤ a.eid) →
      (pure (a.copy S D) : Run CooState) = .ok b →
        b.Loaded S D ∧ b.vid = s.vid ∧ s.eid ≤ b.eid := by
    rintro a b ⟨-, hv, he⟩ hb
    cases hb
    refine ⟨⟨rfl, rfl⟩, hv, ?_⟩
    change s.eid ≤ a.eid + 1
    omega
  unfold selfLoopSource at hrun
  obtain ⟨a, ha, hrun⟩ := Run.bind_eq_ok.mp hrun
  obtain ⟨b, hb, -⟩ := Run.bind_eq_ok.mp hrun
  obtain ⟨hinv, -⟩ := Run.whileLoop_ok
    (fun a : CooState => a.Loaded S D ∧ a.vid = s.vid ∧ s.eid ≤ a.eid)
    (fun a b ha _ => hcopy a b ha) fuel (s.load S D) a
    ⟨⟨rfl, rfl⟩, rfl, Int.le_refl _⟩ ha
  have hmid : ∀ c : CooState, (c = a.copy S D ∨ c = a.push a.vid a.vid) →
      c.Loaded S D ∧ c.vid = s.vid ∧ s.eid ≤ c.eid := by
    rintro c (rfl | rfl)
    · exact hcopy a _ hinv rfl
    · exact hinv
  obtain ⟨⟨hload, hv, he⟩, hend⟩ := Run.whileLoop_ok
    (fun a : CooState => a.Loaded S D ∧ a.vid = s.vid ∧ s.eid ≤ a.eid)
    (fun a b ha _ => hcopy a b ha) fuel _ b (hmid _ (by split <;> simp)) hb
  have hne : b.srcId ≠ b.vid := of_decide_eq_false (Except.ok.inj hend)
  rw [hload.1, h b.eid he] at hne
  exact hne hv.symm

/-- What is read behind given rows is not smaller than their numbers. -/
theorem le_next_source {rs : List (List Int)} {v e : Int} (h : Holds S e (sourcesFrom v rs))
    (hlast : v + rs.length ≤ S (e + rs.flatten.length)) : v ≤ S e := by
  induction rs generalizing v with
  | nil => simpa using hlast
  | cons r rs ih =>
    cases r with
    | nil =>
      rw [List.length_cons, List.flatten_cons, List.nil_append] at hlast
      have := ih (v := v + 1) h (by omega)
      omega
    | cons x r => exact Int.le_of_eq h.1.symm

/-- The outer loop on rows in front of the last edge. -/
theorem selfLoopSources_rows (rs : List (List Int)) {s : CooState} (hdone : s.done = false)
    (hsrc : Holds S s.eid (sourcesFrom s.vid rs)) (hdst : Holds D s.eid rs.flatten)
    (hlast : s.vid + rs.length ≤ S (s.eid + rs.flatten.length))
    (hedge : s.eid + rs.flatten.length < edgeCnt) (hvert : s.vid + rs.length < vertexCnt)
    (hfuel : rs.flatten.length < fuel) :
    ∃ t : CooState, t.src = s.src ++ sourcesFrom s.vid (loopRows s.vid rs) ∧
      t.dst = s.dst ++ (loopRows s.vid rs).flatten ∧ t.vid = s.vid + rs.length ∧
      t.eid = s.eid + rs.flatten.length ∧ t.done = false ∧
      ∀ k, selfLoopSources fuel S D edgeCnt vertexCnt (k + rs.length) s =
        selfLoopSources fuel S D edgeCnt vertexCnt k t := by
  induction rs generalizing s with
  | nil =>
    exact ⟨s, by simp [loopRows, sourcesFrom], by simp [loopRows], by simp, by simp, hdone,
      fun k => rfl⟩
  | cons r rs ih =>
    rw [sourcesFrom, holds_append] at hsrc
    rw [List.flatten_cons, holds_append] at hdst
    rw [List.flatten_cons, List.length_append] at hlast hedge hfuel
    rw [List.length_cons] at hlast hvert
    rw [List.length_replicate] at hsrc
    push_cast at hlast hedge hvert
    have hstop : s.vid + 1 ≤ S (s.eid + r.length) := by
      apply le_next_source hsrc.2
      rw [show s.eid + (r.length : Int) + rs.flatten.length =
        s.eid + (r.length + rs.flatten.length) by omega]
      omega
    have hround := selfLoopSource_eq (l := r) (s := s) vertexCnt ⟨hsrc.1, hdst.1, by omega⟩
      (show r.length < fuel by omega)
    have hdone' : (s.next S D vertexCnt (insertLoop s.vid r) r.length).done = false :=
      decide_eq_false (by omega)
    obtain ⟨t, hts, htd, htv, hte, htn, hrun⟩ := ih
      (s := s.next S D vertexCnt (insertLoop s.vid r) r.length) hdone' hsrc.2 hdst.2 (by
        change s.vid + 1 + (rs.length : Int) ≤ S (s.eid + r.length + rs.flatten.length)
        rw [show s.eid + (r.length : Int) + rs.flatten.length =
          s.eid + (r.length + rs.flatten.length) by omega]
        omega) (by change s.eid + r.length + (rs.flatten.length : Int) < edgeCnt; omega)
      (by change s.vid + 1 + (rs.length : Int) < vertexCnt; omega) (by omega)
    refine ⟨t, ?_, ?_, ?_, ?_, htn, fun k => ?_⟩
    · rw [hts, loopRows, sourcesFrom, ← List.append_assoc]
      rfl
    · rw [htd, loopRows, List.flatten_cons, ← List.append_assoc]
      rfl
    · rw [htv, List.length_cons]
      change s.vid + 1 + (rs.length : Int) = s.vid + ((rs.length + 1 : Nat) : Int)
      omega
    · rw [hte, List.flatten_cons, List.length_append]
      change s.eid + r.length + (rs.flatten.length : Int) = _
      omega
    · rw [← hrun k, List.length_cons, ← Nat.add_assoc]
      unfold selfLoopSources
      rw [Run.whileLoop, Run.pure_bind, hdone, decide_eq_true (by omega : s.eid < edgeCnt), hround]
      rfl

/-- The outer loop on the last row that has edges, which takes what stands behind it with it. -/
theorem selfLoopSources_last (hdone : s.done = false) (hlt : s.eid < edgeCnt)
    (h : SourceRun S D s.vid s.eid l) (hend : edgeCnt ≤ s.eid + l.length) (hfuel : l.length < fuel)
    (k : Nat) : selfLoopSources fuel S D edgeCnt vertexCnt (k + 2) s =
      .ok (s.next S D vertexCnt (insertLoop s.vid l) l.length) := by
  have hstop : ¬ (s.next S D vertexCnt (insertLoop s.vid l) l.length).eid < edgeCnt := by
    change ¬ s.eid + (l.length : Int) < edgeCnt
    omega
  unfold selfLoopSources
  rw [Run.whileLoop, Run.pure_bind, hdone, decide_eq_true hlt, Bool.not_false, Bool.and_self,
    if_pos rfl, selfLoopSource_eq vertexCnt h hfuel, Run.ok_bind, Run.whileLoop, Run.pure_bind,
    decide_eq_false hstop, Bool.and_false]
  rfl

/-- The loop over the vertices behind the last edge. -/
theorem selfLoopTail_eq (rs : List (List Int)) {s : CooState} (hempty : rs.flatten = [])
    (hvert : s.vid + rs.length = vertexCnt) (hk : rs.length < k) :
    (selfLoopTail vertexCnt k s).map (fun t => (t.src, t.dst)) =
      .ok (s.src ++ sourcesFrom s.vid (loopRows s.vid rs),
        s.dst ++ (loopRows s.vid rs).flatten) := by
  obtain ⟨k, rfl⟩ := Nat.exists_eq_add_one.mpr (Nat.lt_of_le_of_lt (Nat.zero_le _) hk)
  induction rs generalizing s k with
  | nil =>
    unfold selfLoopTail
    rw [Run.whileLoop, Run.pure_bind, decide_eq_false (by simp at hvert; omega)]
    simp [loopRows, sourcesFrom, Except.map, pure, Except.pure]
  | cons r rs ih =>
    obtain ⟨rfl, hrest⟩ := List.append_eq_nil_iff.mp hempty
    rw [List.length_cons] at hvert hk
    obtain ⟨k, rfl⟩ := Nat.exists_eq_add_one.mpr (by omega : 0 < k)
    have hnext := ih (s := { s.push s.vid s.vid with vid := s.vid + 1 }) hrest
      (by change s.vid + 1 + (rs.length : Int) = vertexCnt; omega) k (by omega)
    unfold selfLoopTail at hnext ⊢
    rw [Run.whileLoop, Run.pure_bind, decide_eq_true (by omega), if_pos rfl, Run.pure_bind, hnext,
      loopRows, sourcesFrom, List.flatten_cons, ← List.append_assoc, ← List.append_assoc]
    rfl

end Coo

section Agree

variable {rs : List (List Int)}

/-- `r` is the last row that has edges. -/
structure LastRow (rs pre : List (List Int)) (r : List Int) (post : List (List Int)) : Prop where
  split : rs = pre ++ r :: post
  nonempty : r ≠ []
  behind : post.flatten = []

theorem exists_lastRow (h : rs.flatten ≠ []) : ∃ pre r post, LastRow rs pre r post := by
  induction rs with
  | nil => exact absurd rfl h
  | cons q rs ih =>
    by_cases hrest : rs.flatten = []
    · rw [List.flatten_cons, hrest, List.append_nil] at h
      exact ⟨[], q, rs, rfl, h, hrest⟩
    · obtain ⟨pre, r, post, rfl, hr, hpost⟩ := ih hrest
      exact ⟨q :: pre, r, post, rfl, hr, hpost⟩

theorem sourcesFrom_of_empty (h : rs.flatten = []) (v : Int) : sourcesFrom v rs = [] := by
  apply List.eq_nil_of_length_eq_zero
  rw [length_sourcesFrom, h]
  rfl

/-- `add_self_loop_coo` without edges. -/
theorem addSelfLoopCoo_empty (h : rs.flatten = []) (pastSrc pastDst : Int → Int) {fuel : Nat}
    (hfuel : rs.length < fuel) :
    addSelfLoopCoo fuel pastSrc pastDst (sourcesFrom 0 rs) rs.flatten rs.length =
      .ok (sourcesFrom 0 (loopRows 0 rs), (loopRows 0 rs).flatten) := by
  have htail := selfLoopTail_eq rs.length (s := ⟨[], [], 0, 0, 0, 0, false⟩) rs h
    (Int.zero_add _) hfuel
  obtain ⟨fuel, rfl⟩ := Nat.exists_eq_add_one.mpr (Nat.lt_of_le_of_lt (Nat.zero_le _) hfuel)
  unfold addSelfLoopCoo selfLoopSources
  rw [sourcesFrom_of_empty h, Run.whileLoop]
  exact htail

variable {pre post : List (List Int)} {r g : List Int} {S D : Int → Int} {fuel : Nat}

theorem LastRow.flatten_eq (h : LastRow rs pre r post) : rs.flatten = pre.flatten ++ r := by
  rw [h.split, List.flatten_append, List.flatten_cons, h.behind, List.append_nil]

theorem LastRow.sources_eq (h : LastRow rs pre r post) :
    sourcesFrom 0 rs = sourcesFrom 0 pre ++ List.replicate r.length (pre.length : Int) := by
  rw [h.split, sourcesFrom_append, sourcesFrom, Int.zero_add, sourcesFrom_of_empty h.behind,
    List.append_nil]

theorem LastRow.length_eq (h : LastRow rs pre r post) :
    rs.length = pre.length + post.length + 1 := by
  rw [h.split, List.length_append, List.length_cons]
  omega

/-- The last row in memory. -/
theorem LastRow.holds (h : LastRow rs pre r post) (hS : Holds S 0 (sourcesFrom 0 rs))
    (hD : Holds D 0 rs.flatten) :
    Holds S pre.flatten.length (List.replicate r.length (pre.length : Int)) ∧
      Holds D pre.flatten.length r := by
  rw [h.sources_eq, holds_append, length_sourcesFrom, Int.zero_add] at hS
  rw [h.flatten_eq, holds_append, Int.zero_add] at hD
  exact ⟨hS.2, hD.2⟩

/-- The outer loop in front of the last row that has edges. -/
theorem LastRow.selfLoopSources_start (h : LastRow rs pre r post)
    (hS : Holds S 0 (sourcesFrom 0 rs)) (hD : Holds D 0 rs.flatten)
    (hfuel : rs.flatten.length < fuel) :
    ∃ t : CooState, t.src = sourcesFrom 0 (loopRows 0 pre) ∧ t.dst = (loopRows 0 pre).flatten ∧
      t.vid = pre.length ∧ t.eid = pre.flatten.length ∧ t.done = false ∧
      ∀ k, selfLoopSources fuel S D rs.flatten.length rs.length (k + pre.length)
        ⟨[], [], 0, 0, 0, 0, false⟩ = selfLoopSources fuel S D rs.flatten.length rs.length k t := by
  have hpos := List.length_pos_iff.mpr h.nonempty
  have hlen := h.length_eq
  have hflat := congrArg List.length h.flatten_eq
  rw [List.length_append] at hflat
  have hnext : S pre.flatten.length = pre.length := by
    obtain ⟨x, r, rfl⟩ := List.exists_cons_of_ne_nil h.nonempty
    exact (h.holds hS hD).1.1
  rw [h.sources_eq, holds_append] at hS
  rw [h.flatten_eq, holds_append] at hD
  obtain ⟨t, hts, htd, htv, hte, htn, hrun⟩ := selfLoopSources_rows rs.length rs.flatten.length pre
    (s := ⟨[], [], 0, 0, 0, 0, false⟩) (S := S) (D := D) rfl hS.1 hD.1
    (by dsimp only; rw [Int.zero_add, Int.zero_add, hnext]) (by dsimp only; omega)
    (by dsimp only; omega) (show pre.flatten.length < fuel by omega)
  exact ⟨t, hts, htd, htv.trans (Int.zero_add _), hte.trans (Int.zero_add _), htn, hrun⟩

/-- The last row together with what follows it in memory. -/
theorem LastRow.sourceRun_append (h : LastRow rs pre r post) (pastSrc pastDst : Int → Int)
    (hg : SourceRun pastSrc pastDst pre.length rs.flatten.length g) :
    SourceRun (peek (sourcesFrom 0 rs) pastSrc) (peek rs.flatten pastDst) pre.length
      pre.flatten.length (r ++ g) := by
  obtain ⟨hsrc, hdst⟩ := h.holds (holds_peek_zero pastSrc _) (holds_peek_zero pastDst _)
  have hend : (pre.flatten.length : Int) + r.length = rs.flatten.length := by
    rw [h.flatten_eq, List.length_append, Int.natCast_add]
  constructor
  · rw [List.length_append, List.replicate_add, holds_append, List.length_replicate, hend]
    refine ⟨hsrc, holds_replicate fun i hi => ?_⟩
    rw [peek_past (by rw [length_sourcesFrom]; omega)]
    exact hg.sources.replicate (by omega) (by omega)
  · rw [holds_append, hend]
    refine ⟨hdst, hg.entries.congr fun i hi => peek_past hi⟩
  · rw [List.length_append, Int.natCast_add, ← Int.add_assoc, hend,
      peek_past (by rw [length_sourcesFrom]; omega)]
    exact hg.stop

/-- `add_self_loop_coo` takes the edges `g` behind the arrays for a part of the last row. -/
theorem LastRow.addSelfLoopCoo_eq (h : LastRow rs pre r post) (pastSrc pastDst : Int → Int)
    (hrun : SourceRun (peek (sourcesFrom 0 rs) pastSrc) (peek rs.flatten pastDst) pre.length
      pre.flatten.length (r ++ g))
    (hfuel : rs.flatten.length + g.length + rs.length + 2 < fuel) :
    addSelfLoopCoo fuel pastSrc pastDst (sourcesFrom 0 rs) rs.flatten rs.length =
      .ok (sourcesFrom 0 (loopRows 0 pre ++
          insertLoop pre.length (r ++ g) :: loopRows (pre.length + 1) post),
        (loopRows 0 pre ++
          insertLoop pre.length (r ++ g) :: loopRows (pre.length + 1) post).flatten) := by
  have hpos := List.length_pos_iff.mpr h.nonempty
  have hlen := h.length_eq
  have hflat := congrArg List.length h.flatten_eq
  rw [List.length_append] at hflat
  obtain ⟨t, hts, htd, htv, hte, htn, hstart⟩ := h.selfLoopSources_start
    (holds_peek_zero pastSrc _) (holds_peek_zero pastDst _) (show rs.flatten.length < fuel by omega)
  obtain ⟨k, rfl⟩ : ∃ k, fuel = k + 2 + pre.length := ⟨fuel - 2 - pre.length, by omega⟩
  rw [← htv, ← hte] at hrun
  have hshort : (r ++ g).length < k + 2 + pre.length := by
    rw [List.length_append]
    omega
  have hlast := selfLoopSources_last rs.length rs.flatten.length htn (by omega) hrun
    (by rw [List.length_append]; omega) hshort k
  have htail := selfLoopTail_eq rs.length post (k := k + 2 + pre.length)
    (s := t.next (peek (sourcesFrom 0 rs) pastSrc) (peek rs.flatten pastDst) rs.length
      (insertLoop t.vid (r ++ g)) (r ++ g).length) h.behind
    (by change t.vid + 1 + (post.length : Int) = rs.length; omega) (by omega)
  unfold addSelfLoopCoo
  rw [length_sourcesFrom, hstart, hlast, Run.ok_bind]
  refine htail.trans (congrArg Except.ok (Prod.ext ?_ ?_))
  · change t.src ++ List.replicate _ t.vid ++
      sourcesFrom (t.vid + 1) (loopRows (t.vid + 1) post) = _
    rw [hts, htv, sourcesFrom_append, sourcesFrom, length_loopRows, Int.zero_add, List.append_assoc]
  · change t.dst ++ insertLoop t.vid (r ++ g) ++ (loopRows (t.vid + 1) post).flatten = _
    rw [htd, htv, List.flatten_append, List.flatten_cons, List.append_assoc]

/-- What stands behind the arrays does not look like more edges of the last row, or like its missing
self-loop and nothing more. -/
def EndsRow (src dst : List Int) (pastSrc pastDst : Int → Int) : Prop :=
  ∀ w ∈ src.getLast?, pastSrc src.length = w →
    (∀ d ∈ dst.getLast?, d < w) ∧ pastDst src.length = w ∧ pastSrc (src.length + 1) ≠ w

/-- All entries of a sorted row are below `w` when the last one is. -/
theorem forall_mem_lt_iff {w : Int} (hsorted : r.Pairwise (· < ·)) :
    (∀ d ∈ r.getLast?, d < w) ↔ ∀ x ∈ r, x < w := by
  constructor
  · intro h x hx
    have hle := (hsorted.imp Int.le_of_lt).rel_getLast hx
    have hlt := h _ (List.getLast?_eq_some_getLast (List.ne_nil_of_mem hx))
    exact Int.lt_of_le_of_lt hle hlt
  · intro h d hd
    exact h d (List.mem_of_mem_getLast? hd)

theorem LastRow.endsRow_iff (h : LastRow rs pre r post) (hsorted : r.Pairwise (· < ·))
    (pastSrc pastDst : Int → Int) :
    EndsRow (sourcesFrom 0 rs) rs.flatten pastSrc pastDst ↔
      (pastSrc rs.flatten.length = pre.length → (∀ x ∈ r, x < (pre.length : Int)) ∧
        pastDst rs.flatten.length = pre.length ∧ pastSrc (rs.flatten.length + 1) ≠ pre.length) := by
  obtain ⟨k, hk⟩ := Nat.exists_eq_add_one.mpr (List.length_pos_iff.mpr h.nonempty)
  have hlast : (sourcesFrom 0 rs).getLast? = some (pre.length : Int) := by
    rw [h.sources_eq, hk, List.replicate_succ', ← List.append_assoc, List.getLast?_concat]
  have hlast' : rs.flatten.getLast? = r.getLast? := by
    rw [h.flatten_eq, List.getLast?_append_of_ne_nil _ h.nonempty]
  unfold EndsRow
  rw [hlast, hlast', length_sourcesFrom]
  simp only [Option.mem_some_iff, forall_eq', forall_mem_lt_iff hsorted]

/-- When memory goes on with the last row for ever, the function does not return. -/
theorem LastRow.addSelfLoopCoo_ne_ok (h : LastRow rs pre r post) {pastSrc : Int → Int}
    (hinf : ∀ i : Nat, pastSrc (rs.flatten.length + i) = pre.length) (pastDst : Int → Int) (k : Nat)
    (res : List Int × List Int) :
    addSelfLoopCoo (k + rs.flatten.length + 1 + pre.length) pastSrc pastDst (sourcesFrom 0 rs)
      rs.flatten rs.length ≠ .ok res := by
  intro hok
  have hpos := List.length_pos_iff.mpr h.nonempty
  have hflat := congrArg List.length h.flatten_eq
  rw [List.length_append] at hflat
  obtain ⟨hsrc, -⟩ := h.holds (holds_peek_zero pastSrc _) (holds_peek_zero pastDst _)
  obtain ⟨t, -, -, htv, hte, htn, hstart⟩ := h.selfLoopSources_start
    (holds_peek_zero pastSrc _) (holds_peek_zero pastDst _)
    (show rs.flatten.length < k + rs.flatten.length + 1 + pre.length by omega)
  unfold addSelfLoopCoo at hok
  obtain ⟨u, hu, -⟩ := Run.bind_eq_ok.mp hok
  rw [length_sourcesFrom, hstart] at hu
  unfold selfLoopSources at hu
  rw [Run.whileLoop, Run.pure_bind, htn, decide_eq_true (by omega), Bool.not_false,
    Bool.and_self, if_pos rfl] at hu
  obtain ⟨u', hu', -⟩ := Run.bind_eq_ok.mp hu
  refine absurd hu' (selfLoopSource_ne_ok _ (fun i hi => ?_) u')
  rw [hte] at hi
  rw [htv]
  rcases Int.lt_or_le i (rs.flatten.length : Int) with hlt | hle
  · exact hsrc.replicate hi (by omega)
  · obtain ⟨j, rfl⟩ := Int.le.dest hle
    rw [peek_past (by rw [length_sourcesFrom]; exact hle), hinf]

/-- What follows the last row is the missing self-loop, or nothing of it. -/
theorem sourceRun_past_iff {pastSrc pastDst : Int → Int} {w e : Int}
    (hg : SourceRun pastSrc pastDst w e g) (P : Prop) :
    g = [] ∨ P ∧ g = [w] ↔
      (pastSrc e = w → P ∧ pastDst e = w ∧ pastSrc (e + 1) ≠ w) := by
  rcases g with - | ⟨x, - | ⟨y, g⟩⟩
  · have hstop : pastSrc e ≠ w := by simpa using hg.stop
    exact ⟨fun _ heq => absurd heq hstop, fun _ => Or.inl rfl⟩
  · obtain ⟨hsrc, rfl, hrest⟩ := hg.tail
    have hstop : pastSrc (e + 1) ≠ w := by simpa using hrest.stop
    simp [hsrc, hstop]
  · obtain ⟨hsrc, -, hrest⟩ := hg.tail
    simp [hsrc, hrest.tail.1]

theorem LastRow.addSelfLoopCoo_iff (h : LastRow rs pre r post) (hsorted : r.Pairwise (· < ·))
    (pastSrc pastDst : Int → Int) :
    (∃ enough, ∀ fuel, enough ≤ fuel →
      addSelfLoopCoo fuel pastSrc pastDst (sourcesFrom 0 rs) rs.flatten rs.length =
        .ok (sourcesFrom 0 (loopRows 0 rs), (loopRows 0 rs).flatten)) ↔
      EndsRow (sourcesFrom 0 rs) rs.flatten pastSrc pastDst := by
  rw [h.endsRow_iff hsorted]
  by_cases hinf : ∀ i : Nat, pastSrc (rs.flatten.length + i) = pre.length
  · constructor
    · rintro ⟨enough, hrun⟩
      exact absurd (hrun _ (by omega)) (h.addSelfLoopCoo_ne_ok hinf pastDst enough _)
    · intro hcond
      have hfirst := hinf 0
      rw [Int.natCast_zero, Int.add_zero] at hfirst
      exact absurd (hinf 1) (hcond hfirst).2.2
  · -- the run of edges ends in front of the first other source
    rw [not_forall] at hinf
    obtain ⟨g, hg, hdst⟩ := exists_holds pastDst rs.flatten.length (Nat.find hinf)
    have hpast : SourceRun pastSrc pastDst pre.length rs.flatten.length g := by
      refine ⟨holds_replicate fun i hi => ?_, hdst, ?_⟩
      · exact not_not.mp (Nat.find_min hinf (by omega))
      · rw [hg]
        exact Nat.find_spec hinf
    have hrun := h.sourceRun_append pastSrc pastDst hpast
    rw [← sourceRun_past_iff hpast, ← insertLoop_append_eq_iff]
    have hrows : loopRows 0 rs =
        loopRows 0 pre ++ insertLoop pre.length r :: loopRows (pre.length + 1) post := by
      rw [h.split, loopRows_append, loopRows, Int.zero_add]
    rw [hrows]
    constructor
    · rintro ⟨enough, hok⟩
      have heq := hok (enough + rs.flatten.length + g.length + rs.length + 3) (by omega)
      rw [h.addSelfLoopCoo_eq pastSrc pastDst hrun (by omega)] at heq
      have hdst := congrArg Prod.snd (Except.ok.inj heq)
      simpa only [List.flatten_append, List.flatten_cons, List.append_cancel_left_eq,
        List.append_cancel_right_eq] using hdst
    · intro heq
      refine ⟨rs.flatten.length + g.length + rs.length + 3, fun fuel hfuel => ?_⟩
      rw [h.addSelfLoopCoo_eq pastSrc pastDst hrun (by omega), heq]

end Agree

/-- `add_self_loop_csr` inserts the self-loops whatever stands behind `elist`.  `add_self_loop_coo`
returns the same graph exactly when the memory behind its arrays does not go on with the last
row. -/
theorem addSelfLoop_agrees_iff {vlist elist : List Int} {V : Nat} (h : Csr.Valid vlist elist)
    (hlen : vlist.length = V + 1) (hlast : vlist.getLast? = some (elist.length : Int))
    (hsorted : ∀ v, (Csr.row vlist elist v).Pairwise (· < ·)) (past pastSrc pastDst : Int → Int) :
    ∃ vlist' elist' src dst src' dst',
      addSelfLoopCsr past vlist elist = .ok (vlist', elist') ∧ Csr.Valid vlist' elist' ∧
      vlist'.length = V + 1 ∧ vlist'.getLast? = some (elist'.length : Int) ∧
      (∀ v, v < V → (Csr.row vlist' elist' v).Pairwise (· < ·) ∧
        ∀ x, x ∈ Csr.row vlist' elist' v ↔ x ∈ Csr.row vlist elist v ∨ x = (v : Int)) ∧
      (∀ fresh, (csr2coo fresh vlist elist).map lists = .ok (src, dst)) ∧
      (∀ fresh, (csr2coo fresh vlist' elist').map lists = .ok (src', dst')) ∧
      ((∃ enough, ∀ fuel, enough ≤ fuel →
        addSelfLoopCoo fuel pastSrc pastDst src dst V = .ok (src', dst')) ↔
          EndsRow src dst pastSrc pastDst) := by
  obtain ⟨rs, rfl, rfl⟩ : ∃ rs, vlist = Csr.offsets rs ∧ elist = rs.flatten :=
    ⟨_, h.eq_offsets hlast⟩
  obtain rfl : rs.length = V := by
    rw [Csr.length_offsets] at hlen
    omega
  refine ⟨Csr.offsets (loopRows 0 rs), (loopRows 0 rs).flatten, sourcesFrom 0 rs, rs.flatten,
    sourcesFrom 0 (loopRows 0 rs), (loopRows 0 rs).flatten, addSelfLoopCsr_offsets past rs,
    Csr.valid_offsets, ?_, Csr.offsets_getLast?, fun v hv => ?_, csr2coo_offsets rs,
    csr2coo_offsets _, ?_⟩
  · rw [Csr.length_offsets, length_loopRows]
  · have hget : (loopRows 0 rs)[v]? = some (insertLoop v rs[v]) := by
      rw [loopRows_getElem?, List.getElem?_eq_getElem hv, Int.zero_add]
      rfl
    obtain ⟨hv', hrow⟩ := List.getElem?_eq_some_iff.mp hget
    have hs := hsorted v
    rw [Csr.row_offsets hv] at hs
    rw [Csr.row_offsets hv', Csr.row_offsets hv, hrow]
    exact ⟨sorted_insertLoop hs, fun x => mem_insertLoop⟩
  · by_cases hempty : rs.flatten = []
    · constructor
      · intro _ w hw
        rw [sourcesFrom_of_empty hempty] at hw
        cases hw
      · intro _
        exact ⟨rs.length + 1, fun fuel hfuel => addSelfLoopCoo_empty hempty pastSrc pastDst hfuel⟩
    · obtain ⟨pre, r, post, hrow⟩ := exists_lastRow hempty
      have hr : r.Pairwise (· < ·) := by
        have hs := hsorted pre.length
        have hlt : pre.length < rs.length := by
          have := hrow.length_eq
          omega
        have hget : rs[pre.length]? = some r := by
          rw [hrow.split, List.getElem?_append_right (Nat.le_refl _), Nat.sub_self]
          rfl
        rw [List.getElem?_eq_getElem hlt, Option.some_inj] at hget
        rwa [Csr.row_offsets hlt, hget] at hs
      exact hrow.addSelfLoopCoo_iff hr pastSrc pastDst

theorem addSelfLoop_agrees_apart : Csr.Valid [0, 1] [(0 : Int)] ∧
    ∃ vlist' elist' src' dst', addSelfLoopCsr (fun _ => 0) [0, 1] [0] = .ok (vlist', elist') ∧
      (∀ fresh, (csr2coo fresh vlist' elist').map lists = .ok (src', dst')) ∧
      ∃ enough, ∀ fuel, enough ≤ fuel →
        addSelfLoopCoo fuel (fun _ => 1) (fun _ => 0) [0] [0] 1 = .ok (src', dst') := by
  have hvalid : Csr.Valid [0, 1] [(0 : Int)] := ⟨rfl, by decide, by decide⟩
  have hrow : ∀ v, (Csr.row [0, 1] [(0 : Int)] v).Pairwise (· < ·) := by
    intro v
    rcases v with - | v
    · decide
    · rw [Csr.row_of_le (by simp)]
      exact List.Pairwise.nil
  obtain ⟨vlist', elist', src, dst, src', dst', hcsr, -, -, -, -, hsrc, hsrc', hiff⟩ :=
    addSelfLoop_agrees_iff (V := 1) hvalid rfl rfl hrow (fun _ => 0) (fun _ => 1) (fun _ => 0)
  have hcoo : (csr2coo (fun _ => 0) [0, 1] [0]).map lists = .ok ([0], [0]) := by decide +kernel
  obtain ⟨rfl, rfl⟩ := Prod.mk.inj (Except.ok.inj (hcoo.symm.trans (hsrc fun _ => 0)))
  refine ⟨hvalid, vlist', elist', src', dst', hcsr, hsrc', hiff.mpr fun w hw heq => ?_⟩
  cases hw
  cases heq

/-- A vertex with a self-loop and the edge that zeros behind the arrays look like. -/
theorem addSelfLoopCoo_reads_past :
    (csr2coo (fun _ => 0) [0, 1] [0]).map lists = .ok ([0], [0]) ∧
      addSelfLoopCsr (fun _ => 0) [0, 1] [0] = .ok ([0, 1], [0]) ∧
      addSelfLoopCoo 10 (fun i => if i = 1 then 0 else 1) (fun _ => 0) [0] [0] 1 =
        .ok ([0, 0], [0, 0]) := by
  decide +kernel

end Laconic.Graph

import Laconic.Graph.Order

/-!
# The worklist of gen_vertex_order_csr and gen_vertex_order_csc

In the round for level `n` the worklist holds the nodes at level `n`.  `todo` are the edges whose
sources have not been visited: the in-degree of a rule is the number of such edges to it, and a rule
gets its order when there are none.  The two functions differ in the edges that count, in the first
level, in the order `vo` of the vertices during the loop and in the number `c` by which orders are
below levels.
-/

namespace Laconic.Graph

open Levels

section Worklist

variable {vlist elist : List Int} {V k : Nat} {src : Nat → Int} {counts : Int → Bool}
  {lv : Int → Nat} {c vo : Int} {todo todo' : Nat → Bool} {s : VertexState} {n : Nat}

/-- All edges to `x` have been visited. -/
def Free (elist : List Int) (todo : Nat → Bool) (x : Int) : Prop :=
  ∀ e, e < elist.length → elist.getD e 0 = x → todo e = false

structure VertexInv (elist : List Int) (V k : Nat) (lv : Int → Nat) (c vo : Int) (n : Nat)
    (todo : Nat → Bool) (s : VertexState) : Prop where
  orderSize : s.order.size = (V : Int) + k
  degreeSize : s.inDegree.size = k
  degree : ∀ r : Int, 0 ≤ r → r < k → s.inDegree.cells r =
    (List.range elist.length).countP fun e => decide (elist.getD e 0 = V + r) && todo e
  vertex : ∀ x : Int, 0 ≤ x → x < V → s.order.cells x = vo
  done : ∀ x : Int, (V : Int) ≤ x → x < (V : Int) + k → Free elist todo x →
    s.order.cells x = lv x - c
  open_ : ∀ x : Int, (V : Int) ≤ x → x < (V : Int) + k → ¬ Free elist todo x →
    s.order.cells x = INIT
  /-- The rules that got their order in this round. -/
  work : ∀ x, x ∈ s.worklist ↔
    (V : Int) ≤ x ∧ x < (V : Int) + k ∧ lv x = n + 1 ∧ Free elist todo x
  nodup : s.worklist.Nodup

/-- Only the edges of the graph matter. -/
theorem VertexInv.congr (h : VertexInv elist V k lv c vo n todo s)
    (htodo : ∀ e, e < elist.length → todo' e = todo e) : VertexInv elist V k lv c vo n todo' s := by
  have hfree : ∀ x, Free elist todo' x ↔ Free elist todo x := fun x =>
    forall₂_congr fun e he => by rw [htodo e he]
  refine ⟨h.orderSize, h.degreeSize, fun r hr0 hr => ?_, h.vertex, fun x hV hx hc => ?_,
    fun x hV hx hc => ?_, fun x => ?_, h.nodup⟩
  · rw [h.degree r hr0 hr]
    congr 1
    apply List.countP_congr
    intro e he
    rw [htodo e (List.mem_range.mp he)]
  · exact h.done x hV hx ((hfree x).mp hc)
  · exact h.open_ x hV hx ((hfree x).not.mp hc)
  · rw [h.work, hfree]

/-- The rule `x` has in-degree 0 when it is free. -/
theorem countP_eq_zero_iff (x : Int) :
    ((List.range elist.length).countP fun e => decide (elist.getD e 0 = x) && todo e) = 0 ↔
      Free elist todo x := by
  rw [List.countP_eq_zero]
  constructor
  · intro hall e he hd
    have hnot := hall e (List.mem_range.mpr he)
    rw [Bool.and_eq_true, decide_eq_true_eq, not_and] at hnot
    exact Bool.eq_false_iff.mpr (hnot hd)
  · intro hf e he
    rw [Bool.and_eq_true, decide_eq_true_eq]
    rintro ⟨hd, ht⟩
    rw [hf e (List.mem_range.mp he) hd] at ht
    cases ht

/-- The edge `e` is visited next. -/
structure Visit (elist : List Int) (e : Nat) (todo todo' : Nat → Bool) : Prop where
  lt : e < elist.length
  old : todo e = true
  new : todo' e = false
  other : ∀ e', e' ≠ e → todo' e' = todo e'

namespace Visit

variable {e : Nat}

/-- The visit takes one off the in-degree of the destination. -/
theorem countP_eq (hv : Visit elist e todo todo') (x : Int) :
    (List.range elist.length).countP (fun e => decide (elist.getD e 0 = x) && todo' e) +
        (if elist.getD e 0 = x then 1 else 0) =
      (List.range elist.length).countP fun e => decide (elist.getD e 0 = x) && todo e := by
  have hp : (List.range elist.length).Perm (e :: (List.range elist.length).erase e) :=
    List.perm_cons_erase (List.mem_range.mpr hv.lt)
  have hrest : ((List.range elist.length).erase e).countP
      (fun e => decide (elist.getD e 0 = x) && todo' e) =
      ((List.range elist.length).erase e).countP
        fun e => decide (elist.getD e 0 = x) && todo e := by
    apply List.countP_congr
    intro e' he'
    have hne : e' ≠ e := fun heq => (List.Nodup.not_mem_erase List.nodup_range) (heq ▸ he')
    rw [hv.other e' hne]
  rw [hp.countP_eq, hp.countP_eq, List.countP_cons, List.countP_cons, hrest, hv.old, hv.new]
  simp

/-- Other nodes are free as before. -/
theorem free_iff (hv : Visit elist e todo todo') {x : Int} (hx : x ≠ elist.getD e 0) :
    Free elist todo' x ↔ Free elist todo x := by
  refine forall₂_congr fun e' _ => ?_
  by_cases hee : e' = e
  · subst hee
    exact iff_of_true (fun hd => absurd hd.symm hx) fun hd => absurd hd.symm hx
  · rw [hv.other e' hee]

theorem not_free (hv : Visit elist e todo todo') : ¬ Free elist todo (elist.getD e 0) := by
  intro hf
  have hold := hv.old
  rw [hf e hv.lt rfl] at hold
  cases hold

/-- A rule that is free after a visit from level `n` is at level `n + 1`: all its edges come from
level `n` or below, one of them from level `n`. -/
theorem level_eq (hv : Visit elist e todo todo') (h : Ranked vlist elist V k src counts lv)
    (hcount : counts (src e) = true) (hlv : lv (src e) = n)
    (hvisited : ∀ e, e < elist.length → counts (src e) = true → todo e = false → lv (src e) ≤ n)
    (hV : (V : Int) ≤ elist.getD e 0) (hf : Free elist todo' (elist.getD e 0)) :
    lv (elist.getD e 0) = n + 1 := by
  have hbase : ¬ elist.getD e 0 < (V : Int) := by omega
  have hlt := h.level.lt (Ranked.mem_filter hv.lt hcount) hbase
  have hle := (h.level.le_iff (elist.getD e 0) hbase n).mpr fun e' he' hd' => by
    obtain ⟨he', hcount'⟩ := List.mem_filter.mp he'
    by_cases hee : e' = e
    · rw [hee]
      omega
    · have hf' := hf e' (List.mem_range.mp he') hd'
      rw [hv.other e' hee] at hf'
      exact hvisited e' (List.mem_range.mp he') hcount' hf'
  omega

/-- The in-degrees after the visit of an edge to a rule. -/
theorem degree_upd (hv : Visit elist e todo todo') (hinv : VertexInv elist V k lv c vo n todo s)
    {r : Int} (hr0 : 0 ≤ r) (hr : r < k) :
    (s.inDegree.upd (elist.getD e 0 - V) fun d => d - 1).cells r =
      (List.range elist.length).countP fun e => decide (elist.getD e 0 = V + r) && todo' e := by
  have hc := hv.countP_eq (V + r)
  rw [Block.cells_upd]
  by_cases hrd : r = elist.getD e 0 - V
  · rw [if_pos hrd, ← hrd, hinv.degree r hr0 hr, ← hc, if_pos (by omega)]
    push_cast
    omega
  · rw [if_neg hrd, hinv.degree r hr0 hr, ← hc, if_neg (by omega), Nat.add_zero]

/-- An edge to a vertex changes nothing. -/
theorem to_vertex (hv : Visit elist e todo todo') (hinv : VertexInv elist V k lv c vo n todo s)
    (hV : ¬ (V : Int) ≤ elist.getD e 0) : VertexInv elist V k lv c vo n todo' s := by
  have hrule : ∀ x, (V : Int) ≤ x → (Free elist todo' x ↔ Free elist todo x) :=
    fun x hxV => hv.free_iff (by omega)
  refine ⟨hinv.orderSize, hinv.degreeSize, fun r hr0 hr => ?_, hinv.vertex, fun x hxV hx hc => ?_,
    fun x hxV hx hc => ?_, fun x => ?_, hinv.nodup⟩
  · have hc := hv.countP_eq (V + r)
    rw [hinv.degree r hr0 hr, ← hc, if_neg (by omega), Nat.add_zero]
  · exact hinv.done x hxV hx ((hrule x hxV).mp hc)
  · exact hinv.open_ x hxV hx ((hrule x hxV).not.mp hc)
  · rw [hinv.work]
    refine and_congr_right fun hxV => ?_
    rw [hrule x hxV]

/-- An edge to a rule that has more edges to come. -/
theorem to_open (hv : Visit elist e todo todo') (hinv : VertexInv elist V k lv c vo n todo s)
    (hf : ¬ Free elist todo' (elist.getD e 0)) :
    VertexInv elist V k lv c vo n todo'
      { s with inDegree := s.inDegree.upd (elist.getD e 0 - V) fun d => d - 1 } := by
  have hbusy := hv.not_free
  refine ⟨hinv.orderSize, hinv.degreeSize, fun r hr0 hr => hv.degree_upd hinv hr0 hr, hinv.vertex,
    fun x hxV hx hc => ?_, fun x hxV hx hc => ?_, fun x => ?_, hinv.nodup⟩
  · by_cases hxd : x = elist.getD e 0
    · subst hxd
      exact absurd hc hf
    · exact hinv.done x hxV hx ((hv.free_iff hxd).mp hc)
  · by_cases hxd : x = elist.getD e 0
    · subst hxd
      exact hinv.open_ _ hxV hx hbusy
    · exact hinv.open_ x hxV hx ((hv.free_iff hxd).not.mp hc)
  · dsimp only
    rw [hinv.work]
    by_cases hxd : x = elist.getD e 0
    · subst hxd
      exact iff_of_false (fun hc => hbusy hc.2.2.2) fun hc => hf hc.2.2.2
    · rw [hv.free_iff hxd]

/-- The last edge to a rule: it gets its order and enters the worklist. -/
theorem to_free (hv : Visit elist e todo todo') (hinv : VertexInv elist V k lv c vo n todo s)
    (hV : (V : Int) ≤ elist.getD e 0) (hlt : elist.getD e 0 < (V : Int) + k)
    (hlevel : lv (elist.getD e 0) = n + 1) (hf : Free elist todo' (elist.getD e 0)) :
    VertexInv elist V k lv c vo n todo'
      { order := s.order.upd (elist.getD e 0) fun _ => (n : Int) + 1 - c
        inDegree := s.inDegree.upd (elist.getD e 0 - V) fun d => d - 1
        worklist := s.worklist ++ [elist.getD e 0] } := by
  refine ⟨hinv.orderSize, hinv.degreeSize, fun r hr0 hr => hv.degree_upd hinv hr0 hr,
    fun x h0 hx => ?_, fun x hxV hx hc => ?_, fun x hxV hx hc => ?_, fun x => ?_, ?_⟩
  · dsimp only
    rw [Block.cells_upd_ne _ _ (by omega)]
    exact hinv.vertex x h0 hx
  · dsimp only
    by_cases hxd : x = elist.getD e 0
    · rw [hxd, Block.cells_upd_self, hlevel]
      push_cast
      rfl
    · rw [Block.cells_upd_ne _ _ hxd]
      exact hinv.done x hxV hx ((hv.free_iff hxd).mp hc)
  · have hxd : x ≠ elist.getD e 0 := fun heq => hc (heq ▸ hf)
    dsimp only
    rw [Block.cells_upd_ne _ _ hxd]
    exact hinv.open_ x hxV hx ((hv.free_iff hxd).not.mp hc)
  · dsimp only
    rw [List.mem_append, List.mem_singleton, hinv.work]
    by_cases hxd : x = elist.getD e 0
    · subst hxd
      exact iff_of_true (Or.inr rfl) ⟨hV, hlt, hlevel, hf⟩
    · rw [hv.free_iff hxd]
      exact ⟨fun hc => hc.resolve_right hxd, Or.inl⟩
  · dsimp only
    rw [← List.concat_eq_append]
    exact hinv.nodup.concat fun hmem => hv.not_free ((hinv.work _).mp hmem).2.2.2

end Visit

/-- One edge from a node at level `n`. -/
theorem relaxEdge_meets (h : Ranked vlist elist V k src counts lv) {e : Nat}
    (hcount : counts (src e) = true) (hlv : lv (src e) = n)
    (hvisited : ∀ e, e < elist.length → counts (src e) = true → todo e = false → lv (src e) ≤ n)
    (hinv : VertexInv elist V k lv c vo n todo s) (hv : Visit elist e todo todo') :
    Run.Meets (fun _ => False) (relaxEdge elist V ((n : Int) + 1 - c) e s)
      (VertexInv elist V k lv c vo n todo') := by
  have hends := (h.ends hv.lt).2
  have hin : s.order.InB (elist.getD e 0) := ⟨hends.1, by rw [hinv.orderSize]; exact hends.2⟩
  rw [relaxEdge, Block.read_getD hv.lt 0, Run.ok_bind, Block.read_eq hin, Run.ok_bind]
  by_cases hV : (V : Int) ≤ elist.getD e 0
  · have hdeg : s.inDegree.InB (elist.getD e 0 - V) := ⟨by omega, by rw [hinv.degreeSize]; omega⟩
    have hzero : s.inDegree.cells (elist.getD e 0 - V) - 1 = 0 ↔
        Free elist todo' (elist.getD e 0) := by
      have hd := hv.degree_upd hinv hdeg.1 (by omega)
      rw [Block.cells_upd_self] at hd
      rw [hd, Int.natCast_eq_zero, countP_eq_zero_iff,
        show (V : Int) + (elist.getD e 0 - V) = elist.getD e 0 by omega]
    rw [if_pos ⟨hinv.open_ _ hV hends.2 hv.not_free, hV⟩, Block.modify_eq hdeg, Run.ok_bind,
      Block.read_eq (show (s.inDegree.upd _ _).InB _ from hdeg), Run.ok_bind, Block.cells_upd_self]
    by_cases hf : Free elist todo' (elist.getD e 0)
    · rw [if_pos (hzero.mpr hf), Block.write_eq hin, Run.ok_bind, Run.meets_pure]
      exact hv.to_free hinv hV hends.2 (hv.level_eq h hcount hlv hvisited hV hf) hf
    · rw [if_neg (hzero.not.mpr hf), Run.meets_pure]
      exact hv.to_open hinv hf
  · rw [if_neg fun hc => hV hc.2, Run.meets_pure]
    exact hv.to_vertex hinv hV

/-- The edges that are left when the worklist still holds `l`: those from above level `n` and those
of `l`. -/
def todoOf (src : Nat → Int) (counts : Int → Bool) (lv : Int → Nat) (n : Nat) (l : List Int)
    (e : Nat) : Bool :=
  counts (src e) && decide (n < lv (src e) ∨ src e ∈ l)

/-- The same in the middle of the row of `a`. -/
def todoIn (src : Nat → Int) (counts : Int → Bool) (lv : Int → Nat) (n : Nat) (l : List Int)
    (a i : Int) (e : Nat) : Bool :=
  counts (src e) && decide (n < lv (src e) ∨ src e ∈ l ∨ (src e = a ∧ i ≤ e))

/-- The edges of one node. -/
theorem visitNode_meets (h : Ranked vlist elist V k src counts lv) {a : Int} {l : List Int}
    (ha0 : 0 ≤ a) (ha : a < (V : Int) + k) (hcount : counts a = true) (hlv : lv a = n) (hal : a ∉ l)
    (hinv : VertexInv elist V k lv c vo n (todoOf src counts lv n (a :: l)) s) :
    Run.Meets (fun _ => False) (forEdges (relaxEdge elist V ((n : Int) + 1 - c)) vlist a s)
      (VertexInv elist V k lv c vo n (todoOf src counts lv n l)) := by
  obtain ⟨v, rfl⟩ := Int.eq_ofNat_of_zero_le ha0
  have hlen := h.graph.length
  have hsrc : ∀ e, e < elist.length → src e = v → IsSource vlist v e := by
    intro e he hev
    obtain ⟨w, -, hs, hw⟩ := h.exists_source_row he
    rwa [show w = v by omega] at hs
  refine (meets_forEdges h.graph.valid (by omega)
    (fun i s => VertexInv elist V k lv c vo n (todoIn src counts lv n l v i) s)
    (fun i s hs hinv => ?_) (hinv.congr fun e he => ?_)).mono
    fun s' hs' => hs'.congr fun e he => ?_
  · have hr := hs.range h.graph.valid
    obtain ⟨e, rfl⟩ := Int.eq_ofNat_of_zero_le hr.1
    have hsv := h.source v e hs
    refine relaxEdge_meets h (by rwa [hsv]) (by rw [hsv, hlv]) (fun e' _ hc ht => ?_) hinv
      ⟨by omega, ?_, ?_, ?_⟩
    · rw [todoIn, hc, Bool.true_and, decide_eq_false_iff_not] at ht
      omega
    · rw [todoIn, hsv, hcount, Bool.true_and, decide_eq_true_eq]
      exact Or.inr (Or.inr ⟨rfl, Int.le_refl _⟩)
    · rw [todoIn, hsv, hcount, Bool.true_and, decide_eq_false_iff_not, hlv]
      rintro (hc | hc | hc)
      · omega
      · exact hal hc
      · omega
    · intro e' hne
      refine congrArg (counts (src e') && ·) (decide_eq_decide.mpr
        (or_congr_right (or_congr_right (and_congr_right fun _ => ?_))))
      omega
  · rw [todoOf, todoIn]
    refine congrArg (counts (src e) && ·) (decide_eq_decide.mpr (or_congr_right ?_))
    rw [List.mem_cons]
    constructor
    · rintro (hc | hc)
      · exact Or.inr hc
      · exact Or.inl hc.1
    · rintro (hc | hc)
      · exact Or.inr ⟨hc, (hsrc e he hc).2.1⟩
      · exact Or.inl hc
  · rw [todoOf, todoIn]
    refine congrArg (counts (src e) && ·) (decide_eq_decide.mpr (or_congr_right ?_))
    constructor
    · exact Or.inl
    · rintro (hc | hc)
      · exact hc
      · have := (hsrc e he hc.1).2.2
        omega

/-- The state at the head of a round. -/
structure RoundInv (elist : List Int) (V k : Nat) (src : Nat → Int) (counts : Int → Bool)
    (lv : Int → Nat) (c vo : Int) (n : Nat) (s : VertexState) : Prop where
  inv : VertexInv elist V k lv c vo n (todoOf src counts lv n s.worklist) { s with worklist := [] }
  work : ∀ x, x ∈ s.worklist ↔ 0 ≤ x ∧ x < (V : Int) + k ∧ lv x = n
  counted : ∀ x ∈ s.worklist, counts x = true
  nodup : s.worklist.Nodup

/-- At the end of the round the edges from the higher levels are left. -/
theorem todoOf_nil (e : Nat) :
    todoOf src counts lv n [] e = (counts (src e) && decide (n < lv (src e))) := by
  rw [todoOf]
  exact congrArg (counts (src e) && ·) (decide_eq_decide.mpr (by simp))

/-- At the end of the round a rule is free when it is at level `n + 1` or below. -/
theorem free_todoOf_nil (h : Ranked vlist elist V k src counts lv) {x : Int} (hV : (V : Int) ≤ x) :
    Free elist (todoOf src counts lv n []) x ↔ lv x ≤ n + 1 := by
  rw [h.level.le_iff x (show ¬ x < (V : Int) by omega)]
  constructor
  · intro hf e he hd
    obtain ⟨he, hc⟩ := List.mem_filter.mp he
    have ht := hf e (List.mem_range.mp he) hd
    rw [todoOf_nil, hc, Bool.true_and, decide_eq_false_iff_not] at ht
    omega
  · intro hle e he hd
    rw [todoOf_nil]
    cases hc : counts (src e) with
    | false => rfl
    | true =>
      have := hle e (Ranked.mem_filter he hc) hd
      rw [Bool.true_and, decide_eq_false_iff_not]
      omega

/-- The new worklist holds the nodes at the next level. -/
theorem VertexInv.mem_worklist (h : Ranked vlist elist V k src counts lv)
    (hs : VertexInv elist V k lv c vo n (todoOf src counts lv n []) s) (x : Int) :
    x ∈ s.worklist ↔ 0 ≤ x ∧ x < (V : Int) + k ∧ lv x = n + 1 := by
  rw [hs.work]
  constructor
  · rintro ⟨hV, hx, hlv, -⟩
    exact ⟨by omega, hx, hlv⟩
  · rintro ⟨h0, hx, hlv⟩
    have hV : (V : Int) ≤ x := by
      by_contra hlt
      rw [h.vertex_iff.mpr (by omega)] at hlv
      omega
    exact ⟨hV, hx, hlv, (free_todoOf_nil h hV).mpr (by omega)⟩

/-- The end of a round is the head of the next one. -/
theorem VertexInv.next_round (h : Ranked vlist elist V k src counts lv)
    (hs : VertexInv elist V k lv c vo n (todoOf src counts lv n []) s) :
    RoundInv elist V k src counts lv c vo (n + 1) s := by
  have hwork := hs.mem_worklist h
  -- the edges from the new worklist are still to be visited
  have htodo : ∀ e, e < elist.length →
      todoOf src counts lv (n + 1) s.worklist e = todoOf src counts lv n [] e := by
    intro e he
    rw [todoOf_nil, todoOf]
    have hends := (h.ends he).1
    refine congrArg (counts (src e) && ·) (decide_eq_decide.mpr ?_)
    rw [hwork]
    omega
  have hnext := hs.congr htodo
  refine ⟨⟨hnext.orderSize, hnext.degreeSize, hnext.degree, hnext.vertex, hnext.done, hnext.open_,
    fun x => ?_, List.nodup_nil⟩, hwork, fun x hx => h.rules x ((hs.work x).mp hx).1, hs.nodup⟩
  refine iff_of_false List.not_mem_nil ?_
  rintro ⟨hV, hx, hlv, hf⟩
  have hle := (free_todoOf_nil h hV).mp fun e he hd => htodo e he ▸ hf e he hd
  omega

theorem vertexStep_meets (h : Ranked vlist elist V k src counts lv)
    (hinv : RoundInv elist V k src counts lv c vo n s) :
    Run.Meets (fun _ => False) (vertexStep vlist elist V ((n : Int) + 1 - c, s))
      (fun t => t.1 = ((n + 1 : Nat) : Int) + 1 - c ∧
        RoundInv elist V k src counts lv c vo (n + 1) t.2) := by
  rw [vertexStep, Run.meets_bind]
  refine (Run.meets_foldlM (fun (l : List Int) (s' : VertexState) =>
      (∀ x ∈ l, 0 ≤ x ∧ x < (V : Int) + k ∧ lv x = n) ∧ (∀ x ∈ l, counts x = true) ∧ l.Nodup ∧
        VertexInv elist V k lv c vo n (todoOf src counts lv n l) s') (fun a l s' hs => ?_) s.worklist
    { s with worklist := [] }
    ⟨fun x hx => (hinv.work x).mp hx, hinv.counted, hinv.nodup, hinv.inv⟩).mono fun s' hs => ?_
  · obtain ⟨hmem, hcounts, hnd, hs⟩ := hs
    obtain ⟨h0, ha, hlv⟩ := hmem a List.mem_cons_self
    rw [List.nodup_cons] at hnd
    apply (visitNode_meets h h0 ha (hcounts a List.mem_cons_self) hlv hnd.1 hs).mono
    intro s'' hs''
    exact ⟨fun x hx => hmem x (List.mem_cons_of_mem _ hx),
      fun x hx => hcounts x (List.mem_cons_of_mem _ hx), hnd.2, hs''⟩
  · obtain ⟨-, -, -, hs⟩ := hs
    rw [Run.meets_pure]
    exact ⟨by dsimp only; omega, hs.next_round h⟩

/-- The loop goes through the levels until the worklist is empty. -/
theorem vertexLoop_eq (h : Ranked vlist elist V k src counts lv)
    (hinv : RoundInv elist V k src counts lv c vo n s) :
    ∃ enough, ∀ fuel, enough ≤ fuel → ∃ (m : Nat) (s' : VertexState), Run.whileLoop
        (fun t : Int × VertexState => pure (!t.2.worklist.isEmpty)) (vertexStep vlist elist V) fuel
        ((n : Int) + 1 - c, s) = .ok ((m : Int) + 1 - c, s') ∧
      RoundInv elist V k src counts lv c vo m s' ∧ s'.worklist = [] ∧
      (m = n ∨ n < m ∧ ∃ x : Int, 0 ≤ x ∧ x < (V : Int) + k ∧ lv x + 1 = m) := by
  obtain ⟨M, hM⟩ := Ranked.exists_top lv (V + k)
  refine ⟨M + 2, fun fuel hfuel => ?_⟩
  have hloop := Run.meets_whileLoop (E := fun _ => False)
    (fun t : Int × VertexState => pure (!t.2.worklist.isEmpty)) (vertexStep vlist elist V)
    (fun t => ∃ m : Nat, t.1 = (m : Int) + 1 - c ∧ RoundInv elist V k src counts lv c vo m t.2 ∧
      (m = n ∨ n < m ∧ ∃ x : Int, 0 ≤ x ∧ x < (V : Int) + k ∧ lv x + 1 = m))
    (fun t => ∃ m : Nat, t.1 = (m : Int) + 1 - c ∧ RoundInv elist V k src counts lv c vo m t.2 ∧
      t.2.worklist = [] ∧
      (m = n ∨ n < m ∧ ∃ x : Int, 0 ≤ x ∧ x < (V : Int) + k ∧ lv x + 1 = m))
    (fun t => ((M : Int) + 1 - c - t.1).toNat) ?_ fuel ((n : Int) + 1 - c, s)
    (by dsimp only; omega) ⟨n, rfl, hinv, Or.inl rfl⟩
  · obtain ⟨⟨step, s'⟩, hrun, m, hm, hinv', hempty, hocc⟩ := hloop.exists_ok fun e he => he.elim
    dsimp only at hm
    subst hm
    exact ⟨m, s', hrun, hinv', hempty, hocc⟩
  · rintro ⟨step, s'⟩ ⟨m, hm, hinv', hocc⟩
    dsimp only at hm hinv' ⊢
    subst hm
    rw [Run.meets_pure]
    constructor
    · intro hne
      obtain ⟨x, hx⟩ := List.exists_mem_of_ne_nil s'.worklist fun he => by
        rw [he] at hne
        cases hne
      obtain ⟨h0, hxk, hlx⟩ := (hinv'.work x).mp hx
      have hbound := hM x h0 (by push_cast; exact hxk)
      apply (vertexStep_meets h hinv').mono
      rintro ⟨step', s''⟩ ⟨hstep, hinv''⟩
      dsimp only at hstep hinv'' ⊢
      refine ⟨⟨m + 1, hstep, hinv'', Or.inr ⟨by omega, x, h0, hxk, by omega⟩⟩, ?_⟩
      rw [hstep]
      omega
    · intro hemp
      rw [Bool.not_eq_false'] at hemp
      exact ⟨m, rfl, hinv', List.isEmpty_iff.mp hemp, hocc⟩

/-- When the worklist is empty all nodes are below. -/
theorem RoundInv.below (hinv : RoundInv elist V k src counts lv c vo n s)
    (h : Ranked vlist elist V k src counts lv) (hempty : s.worklist = []) (hn : 0 < n) {y : Int}
    (hy0 : 0 ≤ y) (hy : y < (V : Int) + k) : lv y < n := by
  by_contra hge
  obtain ⟨z, hz0, hz, hlz⟩ := h.exists_below hy0 hy hn (by omega)
  have hmem := (hinv.work z).mpr ⟨hz0, hz, hlz⟩
  rw [hempty] at hmem
  cases hmem

/-- When the worklist is empty all rules have their orders. -/
theorem RoundInv.order_rule (hinv : RoundInv elist V k src counts lv c vo n s)
    (h : Ranked vlist elist V k src counts lv) (hempty : s.worklist = []) (hn : 0 < n) {x : Int}
    (hV : (V : Int) ≤ x) (hx : x < (V : Int) + k) : s.order.cells x = lv x - c := by
  refine hinv.inv.done x hV hx fun e he hd => ?_
  have hends := (h.ends he).1
  have hbelow := hinv.below h hempty hn hends.1 hends.2
  rw [todoOf, hempty, Bool.and_eq_false_iff, decide_eq_false_iff_not]
  refine Or.inr fun hc => ?_
  rcases hc with hc | hc
  · omega
  · cases hc

end Worklist

end Laconic.Graph

import Laconic.Graph.Coo

/-!
# Conversion between edge lists and rows

`coo2csr` of `convert.h` goes over the edges with a cursor.  When the source of the next edge is
ahead, the rows up to it start at this edge; behind the last edge the remaining rows are empty.  On
edges that are sorted by their sources it is the inverse of `csr2coo`.
-/

namespace Laconic.Graph

/-- `while (cur_v != v) vlist[++cur_v] = e_size`, on `vlist` and `cur_v`. -/
def advance (fuel : Nat) (v eSize : Int) (s : Block Int × Int) : Run (Block Int × Int) :=
  Run.whileLoop (fun s : Block Int × Int => pure (decide (s.2 ≠ v))) (fun s => do
    let vlist ← s.1.write (s.2 + 1) eSize
    pure (vlist, s.2 + 1)) fuel s

/-- What the loop of `coo2csr` changes. -/
structure CsrState where
  vlist : Block Int
  elist : Block Int
  curV : Int
  eSize : Int

/-- One edge. -/
def csrEdge (fuel : Nat) (src dst : List Int) (e : Int) (s : CsrState) : Run CsrState := do
  let v ← (Block.ofList src).read e
  -- with a source behind the cursor this loop runs out of the array
  let r ← advance fuel v s.eSize (s.vlist, s.curV)
  let x ← (Block.ofList dst).read e
  let elist ← s.elist.write e x
  pure ⟨r.1, elist, r.2, s.eSize + 1⟩

/-- The arrays that `coo2csr` fills come with arbitrary contents `fresh`. -/
def coo2csr (fuel : Nat) (fresh : Int → Int) (src dst : List Int) (vertexCnt : Nat) :
    Run (Block Int × Block Int) := do
  let vlist ← (Block.alloc (vertexCnt + 1) fresh).write 0 0
  let s ← Run.forLoop (csrEdge fuel src dst) src.length 0
    ⟨vlist, Block.alloc src.length fresh, 0, 0⟩
  -- the rows behind the last source
  let r ← advance fuel vertexCnt s.eSize (s.vlist, s.curV)
  pure (r.1, s.elist)

/-- The two arrays that a conversion returns. -/
def lists (r : Block Int × Block Int) : List Int × List Int := (r.1.toList, r.2.toList)

/-! ## Sorted sources -/

/-- Edges sorted by their sources, which are vertices. -/
structure SortedSrc (src : List Int) (V : Nat) : Prop where
  sorted : src.Pairwise (· ≤ ·)
  range : ∀ x ∈ src, 0 ≤ x ∧ x < (V : Int)

/-- Where row `v` starts: behind the edges with smaller sources. -/
def below (src : List Int) (v : Int) : Nat := src.countP fun x => decide (x < v)

/-- The offsets of the rows of sorted edges. -/
def belows (src : List Int) (V : Nat) : List Int :=
  (List.range (V + 1)).map fun j : Nat => (below src j : Int)

theorem length_belows (src : List Int) (V : Nat) : (belows src V).length = V + 1 := by
  rw [belows, List.length_map, List.length_range]

theorem belows_getElem? {src : List Int} {V i : Nat} {x : Int} (hx : (belows src V)[i]? = some x) :
    i ≤ V ∧ x = below src i := by
  rw [belows, List.getElem?_map] at hx
  obtain ⟨j, hj, rfl⟩ := Option.map_eq_some_iff.mp hx
  obtain ⟨hlt, rfl⟩ := List.getElem?_eq_some_iff.mp hj
  rw [List.length_range] at hlt
  rw [List.getElem_range]
  exact ⟨by omega, rfl⟩

section Below

variable {src : List Int}

/-- The edges with smaller sources are the first ones. -/
theorem lt_below_iff (hsorted : src.Pairwise (· ≤ ·)) {i : Nat} {x v : Int}
    (hx : src[i]? = some x) : i < below src v ↔ x < v := by
  induction src generalizing i with
  | nil => cases hx
  | cons y src ih =>
    obtain ⟨hle, hrest⟩ := List.pairwise_cons.mp hsorted
    -- when the first source is not below `v`, none is
    have hnone : ¬ y < v → below src v = 0 := by
      intro hy
      apply List.countP_eq_zero.mpr
      intro z hz
      have := hle z hz
      rw [decide_eq_true_eq]
      omega
    unfold below at ih hnone ⊢
    rw [List.countP_cons]
    cases i with
    | zero =>
      rw [List.getElem?_cons_zero, Option.some_inj] at hx
      subst hx
      by_cases hy : y < v
      · simp [hy]
      · simp [hy, hnone hy]
    | succ i =>
      rw [List.getElem?_cons_succ] at hx
      have hi := ih hrest hx
      by_cases hy : y < v
      · simpa [hy] using hi
      · have hzero := hnone hy
        have := hle x (List.mem_of_getElem? hx)
        simp only [hy, decide_false, Bool.false_eq_true, if_false, hzero]
        omega

theorem below_le (src : List Int) (v : Int) : below src v ≤ src.length := List.countP_le_length

/-- A number that splits the edges in the same way is the start of row `v`. -/
theorem below_eq (hsorted : src.Pairwise (· ≤ ·)) {v : Int} {n : Nat} (hn : n ≤ src.length)
    (h : ∀ (i : Nat) (x : Int), src[i]? = some x → (i < n ↔ x < v)) : below src v = n := by
  have hle := below_le src v
  have hsame : ∀ i, i < src.length → (i < below src v ↔ i < n) := fun i hi => by
    rw [lt_below_iff hsorted (List.getElem?_eq_getElem hi), h i _ (List.getElem?_eq_getElem hi)]
  rcases Nat.lt_trichotomy (below src v) n with hlt | heq | hgt
  · have := hsame _ (Nat.lt_of_lt_of_le hlt hn)
    omega
  · exact heq
  · have := hsame _ (Nat.lt_of_lt_of_le hgt hle)
    omega

end Below

/-! ## The cursor -/

section Cursor

variable {src dst : List Int} {V fuel : Nat} {e : Int} {s : CsrState}

/-- The cursor goes on to `v`, and the rows on its way start at the current edge. -/
theorem advance_eq {vlist : Block Int} {curV v eSize : Int} (h0 : 0 ≤ curV) (hle : curV ≤ v)
    (hv : v < vlist.size) (hfuel : (v - curV).toNat < fuel) :
    ∃ vlist', advance fuel v eSize (vlist, curV) = .ok (vlist', v) ∧ vlist'.size = vlist.size ∧
      ∀ j, vlist'.cells j = if curV < j ∧ j ≤ v then eSize else vlist.cells j := by
  have hmeets := Run.meets_whileLoop (E := fun _ => False)
    (fun s : Block Int × Int => pure (decide (s.2 ≠ v))) (fun s => do
      let vlist ← s.1.write (s.2 + 1) eSize
      pure (vlist, s.2 + 1))
    (fun s => curV ≤ s.2 ∧ s.2 ≤ v ∧ s.1.size = vlist.size ∧
      ∀ j, s.1.cells j = if curV < j ∧ j ≤ s.2 then eSize else vlist.cells j)
    (fun s => s.2 = v ∧ s.1.size = vlist.size ∧
      ∀ j, s.1.cells j = if curV < j ∧ j ≤ v then eSize else vlist.cells j)
    (fun s => (v - s.2).toNat) ?_ fuel (vlist, curV) hfuel
    ⟨Int.le_refl _, hle, rfl, fun j => (if_neg (by omega)).symm⟩
  · obtain ⟨⟨vlist', _⟩, hrun, rfl, hsize, hcells⟩ := hmeets.exists_ok fun e he => he.elim
    exact ⟨vlist', hrun, hsize, hcells⟩
  · rintro ⟨b, c⟩ ⟨hlo, hhi, hsize, hcells⟩
    dsimp only at hlo hhi hsize hcells ⊢
    rw [Run.meets_pure]
    constructor
    · intro hne
      rw [decide_eq_true_eq] at hne
      rw [Block.write_eq ⟨by omega, by omega⟩, Run.ok_bind, Run.meets_pure]
      refine ⟨⟨by omega, by omega, hsize, fun j => ?_⟩, by dsimp only; omega⟩
      by_cases hj : j = c + 1
      · subst hj
        rw [Block.cells_upd_self, if_pos (by omega)]
      · rw [Block.cells_upd_ne _ _ hj, hcells]
        exact if_congr (by dsimp only; omega) rfl rfl
    · intro heq
      rw [decide_eq_false_iff_not, not_not] at heq
      subst heq
      exact ⟨rfl, hsize, hcells⟩

/-- Before edge `e`: the rows up to the cursor have their offsets, and the cursor stands between the
sources before and after. -/
structure CursorInv (src dst : List Int) (V : Nat) (e : Int) (s : CsrState) : Prop where
  pos : 0 ≤ e
  vsize : s.vlist.size = (V : Int) + 1
  esize : s.elist.size = src.length
  lo : 0 ≤ s.curV
  hi : s.curV ≤ V
  count : s.eSize = e
  before : ∀ (i : Nat) (x : Int), src[i]? = some x → (i : Int) < e → x ≤ s.curV
  after : ∀ (i : Nat) (x : Int), src[i]? = some x → e ≤ i → s.curV ≤ x
  offsets : ∀ j, 0 ≤ j → j ≤ s.curV → s.vlist.cells j = below src j
  entries : ∀ (i : Nat) (x : Int), dst[i]? = some x → (i : Int) < e → s.elist.cells i = x

/-- The rows between the cursor and the next source start at edge `e`. -/
theorem CursorInv.below_eq (h : CursorInv src dst V e s) (hsorted : src.Pairwise (· ≤ ·)) {j : Int}
    (hlo : s.curV < j) (hj : ∀ (i : Nat) (x : Int), src[i]? = some x → e ≤ i → j ≤ x)
    (he : e ≤ src.length) : (below src j : Int) = e := by
  have hpos := h.pos
  have hcount : below src j = e.toNat := by
    apply Graph.below_eq hsorted (by omega)
    intro i x hx
    constructor
    · intro hi
      have := h.before i x hx (by omega)
      omega
    · intro hlt
      by_contra hi
      have := hj i x hx (by omega)
      omega
  omega

/-- Behind the advanced cursor all offsets are there. -/
theorem CursorInv.offsets_advance (h : CursorInv src dst V e s) (hsorted : src.Pairwise (· ≤ ·))
    {v : Int} (hv : ∀ (i : Nat) (x : Int), src[i]? = some x → e ≤ i → v ≤ x) (he : e ≤ src.length)
    {vlist : Block Int}
    (hcells : ∀ j, vlist.cells j = if s.curV < j ∧ j ≤ v then s.eSize else s.vlist.cells j) :
    ∀ j, 0 ≤ j → j ≤ v → vlist.cells j = below src j := by
  intro j h0 hj
  rw [hcells]
  split
  · rename_i hnew
    rw [h.count, h.below_eq hsorted hnew.1 (fun i x hx hi => Int.le_trans hj (hv i x hx hi)) he]
  · exact h.offsets j h0 (by omega)

theorem csrEdge_meets (hs : SortedSrc src V) (hdst : dst.length = src.length) (hfuel : V < fuel)
    (h : CursorInv src dst V e s) (he : e < src.length) :
    Run.Meets (fun _ => False) (csrEdge fuel src dst e s) (CursorInv src dst V (e + 1)) := by
  obtain ⟨e, rfl⟩ := Int.eq_ofNat_of_zero_le h.pos
  have hlt : e < src.length := by omega
  have hget := List.getElem?_eq_getElem hlt
  have hrange := hs.range src[e] (List.getElem_mem hlt)
  have hle := h.after e _ hget (Int.le_refl _)
  have hlo := h.lo
  -- the sources from here on are not smaller
  have hnext : ∀ (i : Nat) (x : Int), src[i]? = some x → (e : Int) ≤ i → src[e] ≤ x := by
    intro i x hx hi
    obtain ⟨hi', rfl⟩ := List.getElem?_eq_some_iff.mp hx
    rcases Nat.lt_or_eq_of_le (by omega : e ≤ i) with hei | rfl
    · exact List.pairwise_iff_getElem.mp hs.sorted e i hlt hi' hei
    · exact Int.le_refl _
  obtain ⟨vlist', hrun, hsize, hcells⟩ := advance_eq h.lo hle
    (by rw [h.vsize]; omega : src[e] < s.vlist.size) (by omega : (src[e] - s.curV).toNat < fuel)
  unfold csrEdge
  rw [Block.read_ofList hlt, Run.ok_bind, hrun, Run.ok_bind, Block.read_ofList (by omega),
    Run.ok_bind, Block.write_eq ⟨by omega, by rw [h.esize]; omega⟩, Run.ok_bind, Run.meets_pure]
  refine ⟨by omega, by rw [hsize, h.vsize], h.esize, hrange.1, by dsimp only; omega,
    by rw [h.count], fun i x hx hi => ?_, fun i x hx hi => hnext i x hx (by omega), ?_,
    fun i x hx hi => ?_⟩
  · rcases Nat.lt_or_eq_of_le (by omega : i ≤ e) with hie | rfl
    · exact Int.le_trans (h.before i x hx (by omega)) hle
    · rw [hget, Option.some_inj] at hx
      exact Int.le_of_eq hx.symm
  · exact h.offsets_advance hs.sorted hnext (by omega) hcells
  · by_cases hie : i = e
    · subst hie
      rw [Block.cells_upd_self]
      rw [List.getElem?_eq_getElem (by omega), Option.some_inj] at hx
      exact hx
    · rw [Block.cells_upd_ne _ _ (by omega)]
      exact h.entries i x hx (by omega)

/-- `coo2csr` on sorted edges: every row starts behind the edges with smaller sources. -/
theorem coo2csr_eq (hs : SortedSrc src V) (hdst : dst.length = src.length) (hfuel : V < fuel)
    (fresh : Int → Int) : ∃ r, coo2csr fuel fresh src dst V = .ok r ∧
      lists r = (belows src V, dst) := by
  have hstart : CursorInv src dst V 0 ⟨(Block.alloc ((V : Int) + 1) fresh).upd 0 fun _ => 0,
      Block.alloc src.length fresh, 0, 0⟩ := by
    refine ⟨Int.le_refl _, rfl, rfl, Int.le_refl _, Int.natCast_nonneg V, rfl,
      fun i x _ hi => by omega, fun i x hx _ => (hs.range x (List.mem_of_getElem? hx)).1,
      fun j h0 hj => ?_,
      fun i x _ hi => by omega⟩
    obtain rfl : j = 0 := Int.le_antisymm hj h0
    have hnone : below src 0 = 0 := by
      apply List.countP_eq_zero.mpr
      intro x hx
      have := hs.range x hx
      rw [decide_eq_true_eq]
      omega
    rw [Block.cells_upd_self, hnone]
    rfl
  obtain ⟨s, hloop, hinv⟩ := (Run.meets_forLoop (CursorInv src dst V) (src.length : Int)
    (fun e s he h => csrEdge_meets hs hdst hfuel h he) src.length 0 _ (by omega) hstart).exists_ok
      fun e he => he.elim
  have hlo := hinv.lo
  obtain ⟨vlist', hrun, hsize, hcells⟩ := advance_eq hinv.lo hinv.hi
    (by rw [hinv.vsize]; omega : (V : Int) < s.vlist.size)
    (by omega : ((V : Int) - s.curV).toNat < fuel)
  have hoff := hinv.offsets_advance hs.sorted (v := V) (fun i x hx hi => by
    have := (List.getElem?_eq_some_iff.mp hx).1
    omega) (Int.le_refl _) hcells
  refine ⟨(vlist', s.elist), ?_, ?_⟩
  · unfold coo2csr
    rw [Block.write_eq ⟨Int.le_refl 0, show (0 : Int) < (V : Int) + 1 by omega⟩, Run.ok_bind, hloop,
      Run.ok_bind, hrun, Run.ok_bind]
    rfl
  · apply Prod.ext
    · apply Block.toList_eq
      · rw [hsize, hinv.vsize, length_belows]
        rfl
      · intro i x hx
        obtain ⟨hlt, rfl⟩ := belows_getElem? hx
        exact hoff i (by omega) (by omega)
    · apply Block.toList_eq (hinv.esize.trans (by rw [hdst]))
      intro i x hx
      have hi : i < dst.length := (List.getElem?_eq_some_iff.mp hx).1
      exact hinv.entries i x hx (by omega)

end Cursor

/-! ## Round trips -/

section RoundTrip

variable {src dst vlist elist : List Int} {V : Nat}

/-- `csr2coo` returns the rows of the edges and the entries. -/
theorem csr2coo_lists (h : Csr.Valid vlist elist) (hsrc : src.length = elist.length)
    (hrow : ∀ (i : Nat) (x : Int), src[i]? = some x → ∃ v : Nat, x = v ∧ IsSource vlist v i)
    (fresh : Int → Int) : (csr2coo fresh vlist elist).map lists = .ok (src, elist) := by
  obtain ⟨b, c, hrun, hsize, hsize', hcells⟩ := csr2coo_eq h fresh
  rw [hrun]
  have hb : b.toList = src := by
    apply Block.toList_eq (by rw [hsize, hsrc])
    intro i x hx
    obtain ⟨v, rfl, hs⟩ := hrow i x hx
    exact (hcells v i hs).1
  have hc : c.toList = elist := by
    apply Block.toList_eq hsize'
    intro i x hx
    have hi : i < elist.length := (List.getElem?_eq_some_iff.mp hx).1
    obtain ⟨v, -, hs⟩ := hrow i _ (List.getElem?_eq_getElem (by omega))
    rw [(hcells v i hs).2, Int.toNat_natCast, List.getD_eq_getElem?_getD, hx]
    rfl
  exact congrArg Except.ok (Prod.ext hb hc)

theorem belows_getD {v : Nat} (hv : v ≤ V) : (belows src V).getD v 0 = below src v := by
  rw [belows, List.getD_eq_getElem?_getD, List.getElem?_map, List.getElem?_range (by omega)]
  rfl

theorem below_mono (src : List Int) {v w : Int} (h : v ≤ w) : below src v ≤ below src w := by
  apply List.countP_mono_left
  intro x _ hx
  rw [decide_eq_true_eq] at hx ⊢
  omega

theorem valid_belows (hs : SortedSrc src V) (hdst : dst.length = src.length) :
    Csr.Valid (belows src V) dst where
  first := by
    have hnone : below src ((0 : Nat) : Int) = 0 := by
      apply List.countP_eq_zero.mpr
      intro x hx
      have := hs.range x hx
      rw [decide_eq_true_eq]
      omega
    rw [List.head?_eq_getElem?, belows, List.getElem?_map, List.getElem?_range (by omega),
      Option.map_some, hnone]
    rfl
  mono := by
    apply List.pairwise_map.mpr
    apply List.pairwise_lt_range.imp
    intro i j hij
    exact Int.ofNat_le.mpr (below_mono src (by omega))
  within := by
    intro x hx
    obtain ⟨j, -, rfl⟩ := List.mem_map.mp hx
    have := below_le src j
    omega

/-- The row of an edge is its source. -/
theorem isSource_belows (hs : SortedSrc src V) {i : Nat} {x : Int} (hx : src[i]? = some x) :
    ∃ v : Nat, x = v ∧ IsSource (belows src V) v i := by
  have hrange := hs.range x (List.mem_of_getElem? hx)
  obtain ⟨v, rfl⟩ := Int.eq_ofNat_of_zero_le hrange.1
  have hlt : v < V := by omega
  refine ⟨v, rfl, ?_, ?_, ?_⟩
  · rw [length_belows]
    omega
  · have : ¬ i < below src v := fun hi => Int.lt_irrefl _ ((lt_below_iff hs.sorted hx).mp hi)
    rw [belows_getD (by omega)]
    omega
  · have : i < below src ((v + 1 : Nat) : Int) := (lt_below_iff hs.sorted hx).mpr (by omega)
    rw [belows_getD (by omega)]
    omega

/-- The sources of the edges of a graph are sorted, and a row starts behind those of the rows
before. -/
theorem sortedSrc_rows (h : Csr.Valid vlist elist) (hlen : vlist.length = V + 1)
    (hsrc : src.length = elist.length)
    (hrow : ∀ (i : Nat) (x : Int), src[i]? = some x → ∃ v : Nat, x = v ∧ IsSource vlist v i) :
    SortedSrc src V ∧ belows src V = vlist := by
  have hsorted : src.Pairwise (· ≤ ·) := by
    apply List.pairwise_iff_getElem.mpr
    intro i j hi hj hij
    obtain ⟨v, hv, hsv⟩ := hrow i _ (List.getElem?_eq_getElem hi)
    obtain ⟨w, hw, hsw⟩ := hrow j _ (List.getElem?_eq_getElem hj)
    rw [hv, hw]
    -- a row in front ends before the other one starts
    by_contra hlt
    have := h.getD_mono (show w + 1 ≤ v by omega) (by have := hsv.1; omega)
    have := hsv.2.1
    have := hsw.2.2
    omega
  have hrange : ∀ x ∈ src, 0 ≤ x ∧ x < (V : Int) := by
    intro x hx
    obtain ⟨i, hi⟩ := List.mem_iff_getElem?.mp hx
    obtain ⟨v, rfl, hs⟩ := hrow i x hi
    have := hs.1
    omega
  refine ⟨⟨hsorted, hrange⟩, ?_⟩
  apply List.ext_getElem
  · rw [length_belows, hlen]
  intro j hj hj'
  have hcell : vlist[j] = vlist.getD j 0 := by
    rw [List.getD_eq_getElem?_getD, List.getElem?_eq_getElem hj', Option.getD_some]
  have h0 := h.getD_nonneg hj'
  have hle := h.getD_le hj'
  have hstart : below src j = (vlist.getD j 0).toNat := by
    apply below_eq hsorted (by omega)
    intro i x hx
    obtain ⟨v, rfl, hs⟩ := hrow i x hx
    have hv := hs.1
    constructor
    · intro hi
      by_contra hlt
      have := h.getD_mono (show j ≤ v by omega) (by omega)
      have := hs.2.1
      omega
    · intro hlt
      have := h.getD_mono (show v + 1 ≤ j by omega) hj'
      have := hs.2.2
      omega
  simp only [belows, List.getElem_map, List.getElem_range]
  rw [hstart, hcell, Int.toNat_of_nonneg h0]

/-- The sources of the edges of given rows, of which the first has number `v`. -/
def sourcesFrom (v : Int) : List (List Int) → List Int
  | [] => []
  | r :: rs => List.replicate r.length v ++ sourcesFrom (v + 1) rs

theorem length_sourcesFrom (v : Int) (rs : List (List Int)) :
    (sourcesFrom v rs).length = rs.flatten.length := by
  induction rs generalizing v with
  | nil => rfl
  | cons r rs ih =>
    rw [sourcesFrom, List.length_append, List.length_replicate, ih, List.flatten_cons,
      List.length_append]

theorem sourcesFrom_append (v : Int) (rs qs : List (List Int)) :
    sourcesFrom v (rs ++ qs) = sourcesFrom v rs ++ sourcesFrom (v + rs.length) qs := by
  induction rs generalizing v with
  | nil =>
    rw [List.length_nil, Int.natCast_zero, Int.add_zero]
    rfl
  | cons r rs ih =>
    rw [List.cons_append, sourcesFrom, sourcesFrom, ih, List.append_assoc, List.length_cons]
    congr 3
    omega

/-- An edge of given rows belongs to the row of its source. -/
theorem sourcesFrom_getElem? {rs : List (List Int)} {v : Int} {i : Nat} {x : Int}
    (hx : (sourcesFrom v rs)[i]? = some x) (k : Int) :
    ∃ w : Nat, x = v + w ∧ w < rs.length ∧ (Csr.offsetsFrom k rs).getD w 0 ≤ k + i ∧
      k + i < (Csr.offsetsFrom k rs).getD (w + 1) 0 := by
  induction rs generalizing v i k with
  | nil => cases hx
  | cons r rs ih =>
    have hhead : (Csr.offsetsFrom (k + r.length) rs).getD 0 0 = k + r.length := by
      cases rs <;> rfl
    rw [sourcesFrom] at hx
    rcases Nat.lt_or_ge i r.length with hi | hi
    · rw [List.getElem?_append_left (by rw [List.length_replicate]; exact hi),
        List.getElem?_replicate, if_pos hi, Option.some_inj] at hx
      refine ⟨0, by omega, Nat.zero_lt_succ _, ?_, ?_⟩
      · change k ≤ k + i
        omega
      · change k + i < (Csr.offsetsFrom (k + r.length) rs).getD 0 0
        omega
    · rw [List.getElem?_append_right (by rw [List.length_replicate]; exact hi),
        List.length_replicate] at hx
      obtain ⟨w, rfl, hw, hlo, hhi⟩ := ih hx (k + r.length)
      refine ⟨w + 1, by omega, Nat.succ_lt_succ hw, ?_, ?_⟩
      · change (Csr.offsetsFrom (k + r.length) rs).getD w 0 ≤ k + i
        omega
      · change k + i < (Csr.offsetsFrom (k + r.length) rs).getD (w + 1) 0
        omega

theorem isSource_sourcesFrom {rs : List (List Int)} (i : Nat) (x : Int)
    (hx : (sourcesFrom 0 rs)[i]? = some x) : ∃ v : Nat, x = v ∧ IsSource (Csr.offsets rs) v i := by
  obtain ⟨w, rfl, hw, hlo, hhi⟩ := sourcesFrom_getElem? hx 0
  refine ⟨w, Int.zero_add _, ?_, ?_, ?_⟩
  · rw [Csr.length_offsets]
    omega
  · rw [Csr.offsets]
    omega
  · rw [Csr.offsets]
    omega

/-- `csr2coo` on given rows. -/
theorem csr2coo_offsets (rs : List (List Int)) (fresh : Int → Int) :
    (csr2coo fresh (Csr.offsets rs) rs.flatten).map lists = .ok (sourcesFrom 0 rs, rs.flatten) :=
  csr2coo_lists Csr.valid_offsets (length_sourcesFrom 0 rs) isSource_sourcesFrom fresh

end RoundTrip

/-- The conversions are inverse to each other.  All accesses are in range, and what is in the new
arrays does not depend on what was there before. -/
theorem convert_roundTrip :
    (∀ (src dst : List Int) (V : Nat), src.Pairwise (· ≤ ·) → (∀ x ∈ src, 0 ≤ x ∧ x < (V : Int)) →
      dst.length = src.length →
      ∃ vlist elist enough,
        (∀ fuel fresh, enough ≤ fuel →
          (coo2csr fuel fresh src dst V).map lists = .ok (vlist, elist)) ∧
        ∀ fresh, (csr2coo fresh vlist elist).map lists = .ok (src, dst)) ∧
    ∀ (vlist elist : List Int) (V : Nat), Csr.Valid vlist elist → vlist.length = V + 1 →
      vlist.getLast? = some (elist.length : Int) →
      ∃ src dst enough,
        (∀ fresh, (csr2coo fresh vlist elist).map lists = .ok (src, dst)) ∧
        ∀ fuel fresh, enough ≤ fuel →
          (coo2csr fuel fresh src dst V).map lists = .ok (vlist, elist) := by
  have hcsr : ∀ {src dst : List Int} {V fuel : Nat}, SortedSrc src V → dst.length = src.length →
      ∀ fresh, V + 1 ≤ fuel →
        (coo2csr fuel fresh src dst V).map lists = .ok (belows src V, dst) := by
    intro src dst V fuel hs hdst fresh hfuel
    obtain ⟨r, hrun, hr⟩ := coo2csr_eq hs hdst (by omega : V < fuel) fresh
    rw [hrun]
    exact congrArg Except.ok hr
  constructor
  · intro src dst V hsorted hrange hdst
    have hs : SortedSrc src V := ⟨hsorted, hrange⟩
    refine ⟨belows src V, dst, V + 1, fun fuel fresh hfuel => hcsr hs hdst fresh hfuel,
      fun fresh => ?_⟩
    exact csr2coo_lists (valid_belows hs hdst) hdst.symm (fun i x hx => isSource_belows hs hx) fresh
  · intro vlist elist V h hlen hlast
    obtain ⟨rs, rfl, rfl⟩ : ∃ rs, vlist = Csr.offsets rs ∧ elist = rs.flatten :=
      ⟨_, h.eq_offsets hlast⟩
    have hsrc := length_sourcesFrom 0 rs
    obtain ⟨hs, hoff⟩ := sortedSrc_rows h hlen hsrc isSource_sourcesFrom
    refine ⟨sourcesFrom 0 rs, rs.flatten, V + 1, csr2coo_offsets rs, fun fuel fresh hfuel => ?_⟩
    rw [hcsr hs hsrc.symm fresh hfuel, hoff]

end Laconic.Graph

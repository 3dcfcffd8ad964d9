import Laconic.Parallel.Turn

/-!
# The parallel compressor: the constructor

The three turns of the constructor are three turns on the rows, as long as the ids and the number of
edges stay in the range of an `int`.  A graph that is small against that range stays in it.
-/

namespace Laconic.Parallel

open PairScan
open RePair (intBound)

/-- The text that the constructor starts with. -/
def startText (vertex edge : List Int) (maxSymbol : Int) : Text :=
  ⟨Csr.rows vertex edge, [], (maxSymbol + 1).toNat⟩

/-- In every turn that is reached the ids and the number of edges stay in the range of an `int`. -/
def InRange (order : Order) (vertex edge : List Int) (maxSymbol : Int) : Prop :=
  ∀ n, n ≤ compressRate → ∀ s,
    repairTurns order vertex.length n (initialState vertex edge maxSymbol) = .ok s → s.InRange

/-- What the turns need of a graph: it is a CSR without unused edges, whose entries are its rows, the
first row has an entry, and each of the 40 blocks has an edge. -/
structure Input (vertex edge : List Int) : Prop where
  valid : Csr.Valid vertex edge
  last : vertex.getLast? = some (edge.length : Int)
  entries : ∀ x ∈ edge, 0 ≤ x ∧ x < (vertex.length : Int) - 1
  first : Csr.row vertex edge 0 ≠ []
  blocks : ∀ b, b < threadNum → vertex.getD (b * (vertex.length / threadNum)) 0 <
    blockEnd (vertex.length / threadNum) vertex edge b

section Run

variable {order : Order} {vertex edge : List Int} {maxSymbol : Int}

/-- The graph is the one that its rows make. -/
theorem Input.eq_offsets (h : Input vertex edge) :
    vertex = Csr.offsets (Csr.rows vertex edge) ∧ edge = (Csr.rows vertex edge).flatten :=
  h.valid.eq_offsets h.last

theorem Input.length_rows (h : Input vertex edge) :
    (Csr.rows vertex edge).length + 1 = vertex.length := by
  have := h.valid.length_pos
  rw [Csr.length_rows]
  omega

theorem Input.maxSymbol_nonneg (h : Input vertex edge) (hmax : maxSymbol + 2 = vertex.length) :
    0 ≤ maxSymbol := by
  by_contra hneg
  exact h.first (Csr.row_of_le (by omega))

/-- Every block of the first turn has an edge. -/
theorem Input.chunk_ne_nil (h : Input vertex edge) {b : Nat} (hb : b < threadNum) :
    (chunk (vertex.length / threadNum) (Csr.rows vertex edge) b).flatten ≠ [] := by
  have hth : threadNum = 40 := rfl
  have hblock := h.blocks b hb
  have hlen := h.length_rows
  have hts : 39 * (vertex.length / threadNum) ≤ (Csr.rows vertex edge).length := by
    rw [hth]
    omega
  have hcount := length_chunk hts hb
  rw [← h.eq_offsets.1, ← h.eq_offsets.2] at hcount
  apply List.ne_nil_of_length_pos
  omega

theorem Input.ready (h : Input vertex edge) (hmax : maxSymbol + 1 < vertex.length) :
    (startText vertex edge maxSymbol).Ready vertex.length where
  first := by
    have hlen := h.length_rows
    have hfirst := h.first
    have hrow : 1 < vertex.length := by
      by_contra hle
      exact hfirst (Csr.row_of_le (by omega))
    rwa [startText, List.getD_eq_getElem?_getD, Csr.rows_getElem? hrow]
  blocks b hb := h.chunk_ne_nil hb
  length := Nat.le_of_eq h.length_rows.symm
  entries r hr x hx := by
    have hlen := h.length_rows
    have hmem : x ∈ edge := by
      rw [h.eq_offsets.2]
      exact List.mem_flatten_of_mem hr hx
    have := h.entries x hmem
    dsimp only [startText]
    omega
  hist p hp := by cases hp
  base := by
    have hlen := h.length_rows
    dsimp only [startText]
    omega

theorem Input.holds (h : Input vertex edge) (h0 : 0 ≤ maxSymbol) :
    Holds (initialState vertex edge maxSymbol) (startText vertex edge maxSymbol) where
  vertex := h.eq_offsets.1
  edge := h.eq_offsets.2
  buckets := by
    funext b
    rfl
  base := by
    dsimp only [startText, initialState]
    omega

theorem Holds.inRange_iff {s : State} {t : Text} (h : Holds s t) : s.InRange ↔ t.Fits := by
  unfold State.InRange
  rw [h.vertex, h.edge, Csr.length_offsets]
  constructor
  · rintro ⟨hids, hedges⟩
    exact ⟨by omega, hedges⟩
  · rintro ⟨hids, hedges⟩
    exact ⟨by omega, hedges⟩

/-- The turns of the code are turns on the rows. -/
theorem repairTurns_holds (h : Input vertex edge) (h0 : 0 ≤ maxSymbol)
    (hmax : maxSymbol + 1 < vertex.length) (horder : Permutes order) :
    ∀ n, (∀ m, m < n → ((startText vertex edge maxSymbol).turns order m).Fits) →
      ((startText vertex edge maxSymbol).turns order n).Ready vertex.length ∧
      ∃ s, repairTurns order vertex.length n (initialState vertex edge maxSymbol) = .ok s ∧
        (s.InRange ↔ ((startText vertex edge maxSymbol).turns order n).Fits) ∧
        (((startText vertex edge maxSymbol).turns order n).Fits →
          Holds s ((startText vertex edge maxSymbol).turns order n)) := by
  intro n
  induction n with
  | zero =>
    intro _
    exact ⟨h.ready hmax, _, rfl, (h.holds h0).inRange_iff, fun _ => h.holds h0⟩
  | succ n ih =>
    intro hfits
    obtain ⟨hready, s, hrun, -, hholds⟩ := ih fun m hm => hfits m (by omega)
    have hfit := hfits n (Nat.lt_succ_self n)
    obtain ⟨s', hrun', -, hrange, hholds'⟩ := (hholds hfit).repairTurn hready hfit horder
    refine ⟨hready.turn hfit horder, s', ?_, hrange, hholds'⟩
    rw [repairTurns, hrun, Run.ok_bind]
    exact hrun'

/-- The code stays in range when the turns on the rows do. -/
theorem inRange_iff (h : Input vertex edge) (h0 : 0 ≤ maxSymbol)
    (hmax : maxSymbol + 1 < vertex.length) (horder : Permutes order) :
    InRange order vertex edge maxSymbol ↔
      ∀ n, n ≤ compressRate → ((startText vertex edge maxSymbol).turns order n).Fits := by
  have hrun := repairTurns_holds h h0 hmax horder
  constructor
  · intro hrange n
    induction n using Nat.strong_induction_on with
    | _ n ih =>
      intro hn
      obtain ⟨-, s, hs, hiff, -⟩ := hrun n fun m hm => ih m hm (by omega)
      exact hiff.mp (hrange n hn s hs)
  · intro hfits n hn s hs
    obtain ⟨-, s', hs', hiff, -⟩ := hrun n fun m hm => hfits m (by omega)
    rw [hs] at hs'
    cases hs'
    exact hiff.mpr (hfits n hn)

/-- Every turn is reached, with the rows that it starts with. -/
theorem InRange.reached (hrange : InRange order vertex edge maxSymbol) (h : Input vertex edge)
    (h0 : 0 ≤ maxSymbol) (hmax : maxSymbol + 1 < vertex.length) (horder : Permutes order) {n : Nat}
    (hn : n ≤ compressRate) :
    ∃ s, repairTurns order vertex.length n (initialState vertex edge maxSymbol) = .ok s ∧
      Holds s ((startText vertex edge maxSymbol).turns order n) ∧
      ((startText vertex edge maxSymbol).turns order n).Ready vertex.length ∧
      ((startText vertex edge maxSymbol).turns order n).Fits := by
  have hfits := (inRange_iff h h0 hmax horder).mp hrange
  obtain ⟨hready, s, hs, -, hholds⟩ := repairTurns_holds h h0 hmax horder n fun m hm =>
    hfits m (by omega)
  exact ⟨s, hs, hholds (hfits n hn), hready, hfits n hn⟩

end Run

/-- Forty rows, none of them empty. -/
theorem Input.of_rows (rows : List (List Int))
    (hent : ∀ r ∈ rows, ∀ x ∈ r, 0 ≤ x ∧ x < rows.length) (hne : ∀ r ∈ rows, r ≠ [])
    (hlen : threadNum ≤ rows.length) : Input (Csr.offsets rows) rows.flatten where
  valid := Csr.valid_offsets
  last := Csr.offsets_getLast?
  entries x hx := by
    obtain ⟨r, hr, hx⟩ := List.mem_flatten.mp hx
    have := hent r hr x hx
    rw [Csr.length_offsets]
    omega
  first := by
    have hpos : 0 < rows.length := Nat.lt_of_lt_of_le (by decide) hlen
    rw [Csr.row_offsets hpos]
    exact hne _ (List.getElem_mem hpos)
  blocks b hb := by
    have hth : threadNum = 40 := rfl
    rw [Csr.length_offsets]
    have hts : 39 * ((rows.length + 1) / threadNum) < rows.length := by
      rw [hth] at hlen ⊢
      omega
    have hpos : 0 < (rows.length + 1) / threadNum := by
      rw [hth] at hlen ⊢
      omega
    generalize (rows.length + 1) / threadNum = ts at hts hpos
    have hstart : b * ts ≤ 39 * ts := Nat.mul_le_mul_right _ (by omega)
    have hcount := length_chunk (Nat.le_of_lt hts) hb
    -- the first row of the block has an entry
    have hmem : rows[b * ts] ∈ chunk ts rows b := by
      unfold chunk
      rw [List.drop_eq_getElem_cons (by omega)]
      split
      · rw [List.take_cons hpos]
        exact List.mem_cons_self
      · exact List.mem_cons_self
    have hflat : (chunk ts rows b).flatten ≠ [] := fun hnil =>
      hne _ (List.getElem_mem _) (List.flatten_eq_nil_iff.mp hnil _ hmem)
    have := List.length_pos_iff.mpr hflat
    omega

/-! ## Small graphs -/

section Small

variable {order : Order} {lenVertex n : Nat} {t : Text}

theorem length_rowPairs_le (rows : List (List Int)) : (rowPairs rows).length ≤ rows.flatten.length := by
  induction rows with
  | nil => exact Nat.le_refl _
  | cons r rows ih =>
    rw [rowPairs, List.flatMap_cons, List.length_append, List.flatten_cons, List.length_append]
    exact Nat.add_le_add length_adjacent_le ih

/-- How much a turn can add. -/
theorem Text.Ready.turn_sizes (h : t.Ready lenVertex) (hfits : t.Fits) (horder : Permutes order) :
    4 * (t.news order n).length ≤ t.hist.length + t.rows.flatten.length ∧
      (t.turn order n).rows.flatten.length ≤
        t.rows.flatten.length + 2 * (t.news order n).length ∧
      (t.turn order n).hist.length ≤ t.hist.length + t.rows.flatten.length := by
  have hpairs := length_rowPairs_le t.rows
  have hpushed : t.pushed.length = t.hist.length + (rowPairs t.rows).length := List.length_append
  have hnews : threshold * (t.news order n).length ≤ t.pushed.length :=
    mul_length_le_of_count (h.nodup_news hfits horder) fun p hp => (h.mem_news hfits horder).mp hp
  have hth : threshold = 4 := rfl
  refine ⟨?_, length_flatten_turnRows_le _ _ _, ?_⟩
  · rw [hth] at hnews
    omega
  · change t.pushed.length ≤ _
    omega

/-- A graph whose rows and edges, the edges six times, are below `2^31` stays in range. -/
theorem inRange_of_small {vertex edge : List Int} {maxSymbol : Int} (h : Input vertex edge)
    (h0 : 0 ≤ maxSymbol) (hmax : maxSymbol + 1 < vertex.length) (horder : Permutes order)
    (hsmall : (vertex.length : Int) + 6 * edge.length < intBound) :
    InRange order vertex edge maxSymbol := by
  have hrows := h.length_rows
  have hedges : (Csr.rows vertex edge).flatten.length = edge.length :=
    congrArg List.length h.eq_offsets.2.symm
  have hready₀ := h.ready hmax
  have hhist : (startText vertex edge maxSymbol).hist.length = 0 := rfl
  change (startText vertex edge maxSymbol).rows.length + 1 = _ at hrows
  change (startText vertex edge maxSymbol).rows.flatten.length = _ at hedges
  refine (inRange_iff h h0 hmax horder).mpr ?_
  generalize startText vertex edge maxSymbol = t at hready₀ hrows hedges hhist
  have hfits₀ : t.Fits := by
    constructor <;> omega
  obtain ⟨hnews₁, hedges₁, hhist₁⟩ := hready₀.turn_sizes hfits₀ horder (n := 1)
  have hrows₁ : (t.turn order 1).rows.length = _ := Text.length_turn
  have hready₁ : (t.turn order 1).Ready _ := hready₀.turn hfits₀ horder
  have hfits₁ : (t.turn order 1).Fits := by
    constructor <;> omega
  obtain ⟨hnews₂, hedges₂, hhist₂⟩ := hready₁.turn_sizes hfits₁ horder (n := 2)
  have hrows₂ : ((t.turn order 1).turn order 2).rows.length = _ := Text.length_turn
  have hready₂ : ((t.turn order 1).turn order 2).Ready _ := hready₁.turn hfits₁ horder
  have hfits₂ : ((t.turn order 1).turn order 2).Fits := by
    constructor <;> omega
  obtain ⟨hnews₃, hedges₃, -⟩ := hready₂.turn_sizes hfits₂ horder (n := 3)
  have hrows₃ : (((t.turn order 1).turn order 2).turn order 3).rows.length = _ := Text.length_turn
  have hfits₃ : (((t.turn order 1).turn order 2).turn order 3).Fits := by
    constructor <;> omega
  intro n hn
  match n, hn with
  | 0, _ => exact hfits₀
  | 1, _ => exact hfits₁
  | 2, _ => exact hfits₂
  | 3, _ => exact hfits₃

end Small

end Laconic.Parallel

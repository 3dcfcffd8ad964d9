import Laconic.Parallel.Split
import Laconic.Parallel.Tables

/-!
# The parallel compressor: turns

A turn of the code is a turn on the rows of the graph: the frequent pairs among all pairs pushed so
far get the next ids, every row is scanned for them, and their rows are appended.  The code keeps to
this as long as ids and offsets fit in an `int`, the first row has an entry and every block has an
edge.
-/

namespace Laconic.Parallel

open PairScan
open RePair (intBound)

/-! ## Appending rows -/

/-- The offsets and entries of rows in `uint32_t`. -/
def wordRows (rows : List (List Int)) : List Int × List Int :=
  ((Csr.startsFrom 0 rows).map toDtype, rows.flatten.map toDtype)

/-- A block that has the given rows, up to conversion. -/
def Piece (block : List Int × List Int) (rows : List (List Int)) : Prop :=
  block.1.map toDtype = (Csr.startsFrom 0 rows).map toDtype ∧
    block.2.map toDtype = rows.flatten.map toDtype

theorem toDtype_add (x c : Int) : toDtype (toDtype x + c) = toDtype (x + c) := by
  unfold toDtype
  omega

theorem toDtype_idem (x : Int) : toDtype (toDtype x) = toDtype x := by
  unfold toDtype
  omega

theorem appendRows_wordRows {rows rs : List (List Int)} {block : List Int × List Int}
    (h : Piece block rs) : appendRows (wordRows rows) block = wordRows (rows ++ rs) := by
  -- converting twice is converting once, so the block may be converted first
  have hmove : ∀ (l : List Int) (c : Int),
      l.map (fun x => toDtype (x + c)) = (l.map toDtype).map fun x => toDtype (x + c) := by
    intro l c
    rw [List.map_map]
    exact List.map_congr_left fun x _ => (toDtype_add x c).symm
  unfold appendRows wordRows
  dsimp only
  rw [hmove block.1, h.1, ← hmove, h.2, ← List.map_append, List.flatten_append, List.length_map,
    Csr.startsFrom_append, ← Csr.map_startsFrom (rows.flatten.length : Int), List.map_append,
    List.map_append, List.map_map]
  rfl

theorem foldl_appendRows {blocks : List (List Int × List Int)} {rss : List (List (List Int))}
    (h : List.Forall₂ Piece blocks rss) (rows : List (List Int)) :
    blocks.foldl appendRows (wordRows rows) = wordRows (rows ++ rss.flatten) := by
  induction h generalizing rows with
  | nil => simp
  | cons hpiece _ ih =>
    rw [List.foldl_cons, appendRows_wordRows hpiece, ih, List.flatten_cons, List.append_assoc]

/-! ## Turns on rows -/

/-- The rows of the graph, the pairs pushed so far, and the next id. -/
structure Text where
  rows : List (List Int)
  hist : List (Int × Int)
  base : Nat

/-- Every order of iteration goes over the entries of the table. -/
def Permutes (order : Order) : Prop := ∀ turn b table, (order turn b table).Perm table

/-- The tables of a turn after the pairs `hist` have been pushed. -/
def turnCounts (order : Order) (turn : Nat) (hist : List (Int × Int)) : List HashMap :=
  (List.range threadNum).map fun b => order turn b (processpairs (bucketKeys hist b) [])

namespace Text

/-- The pairs that have been pushed when a turn counts. -/
def pushed (t : Text) : List (Int × Int) := t.hist ++ rowPairs t.rows

/-- The pairs that get an id. -/
def news (order : Order) (turn : Nat) (t : Text) : List (Int × Int) :=
  newPairs (turnCounts order turn t.pushed)

def turn (order : Order) (turn : Nat) (t : Text) : Text where
  rows := turnRows (pairId t.base (t.news order turn)) (t.news order turn) t.rows
  hist := t.pushed
  base := t.rows.length + (t.news order turn).length

def turns (order : Order) : Nat → Text → Text
  | 0, t => t
  | n + 1, t => (turns order n t).turn order (n + 1)

/-- What a turn of the code needs. -/
structure Ready (lenVertex : Nat) (t : Text) : Prop where
  first : t.rows.getD 0 [] ≠ []
  blocks : ∀ b, b < threadNum → (chunk (lenVertex / threadNum) t.rows b).flatten ≠ []
  length : lenVertex ≤ t.rows.length + 1
  entries : ∀ r ∈ t.rows, ∀ x ∈ r, 0 ≤ x ∧ x < t.rows.length
  hist : Within t.rows t.hist
  base : t.base ≤ t.rows.length

/-- Ids and offsets are `int`s. -/
structure Fits (t : Text) : Prop where
  rows : (t.rows.length : Int) ≤ intBound
  edges : (t.rows.flatten.length : Int) < intBound

end Text

section Turn

variable {order : Order} {n lenVertex : Nat} {t : Text}

theorem Text.Ready.pushed (h : t.Ready lenVertex) : Within t.rows t.pushed := by
  intro p hp
  rcases List.mem_append.mp hp with hp | hp
  · exact h.hist p hp
  · obtain ⟨r, hr, hp⟩ := List.mem_flatMap.mp hp
    have hmem := mem_of_mem_adjacent hp
    exact ⟨h.entries r hr _ hmem.1, h.entries r hr _ hmem.2⟩

theorem Text.Ready.wordPairs (h : t.Ready lenVertex) (hfits : t.Fits) : WordPairs t.pushed := by
  have hib : intBound = 2 ^ 31 := rfl
  have hrows := hfits.rows
  intro p hp
  obtain ⟨⟨h₁, h₂⟩, h₃, h₄⟩ := h.pushed p hp
  exact ⟨⟨h₁, by omega⟩, h₃, by omega⟩

theorem counted_turn (horder : Permutes order) (turn : Nat) (hist : List (Int × Int)) :
    Counted hist (turnCounts order turn hist) :=
  counted_processpairs (horder turn)

/-- A pair gets an id when it has been pushed often enough. -/
theorem Text.Ready.mem_news (h : t.Ready lenVertex) (hfits : t.Fits) (horder : Permutes order)
    {p : Int × Int} : p ∈ t.news order n ↔ threshold ≤ t.pushed.count p :=
  (counted_turn horder n _).mem_newPairs (h.wordPairs hfits)

theorem Text.Ready.nodup_news (h : t.Ready lenVertex) (hfits : t.Fits) (horder : Permutes order) :
    (t.news order n).Nodup :=
  (counted_turn horder n _).nodup_newPairs (h.wordPairs hfits)

theorem Text.Ready.within_news (h : t.Ready lenVertex) (hfits : t.Fits) (horder : Permutes order) :
    Within t.rows (t.news order n) := by
  have hth : threshold = 4 := rfl
  intro p hp
  have hcount := (h.mem_news hfits horder).mp hp
  exact h.pushed p (List.count_pos_iff.mp (by omega))

theorem Text.length_turn : (t.turn order n).rows.length =
    t.rows.length + (t.news order n).length := length_turnRows

/-- The blocks of the next turn start with the scanned rows of the blocks of this one. -/
theorem chunk_turnRows (f : Int → Int → Option Int) (news : List (Int × Int))
    {rows : List (List Int)} {ts b : Nat} (hts : 39 * ts ≤ rows.length) (hb : b < threadNum) :
    ∃ rest, chunk ts (turnRows f news rows) b = (chunk ts rows b).map (scan f) ++ rest := by
  have hth : threadNum = 40 := rfl
  have hle : b * ts ≤ 39 * ts := Nat.mul_le_mul_right _ (by omega)
  unfold chunk turnRows
  rw [List.drop_append_of_le_length (by rw [List.length_map]; omega), ← List.map_drop]
  -- all blocks but the last one end before the new rows
  split
  · have hnext : (b + 1) * ts ≤ 39 * ts := Nat.mul_le_mul_right _ (by omega)
    rw [Nat.add_mul, Nat.one_mul] at hnext
    refine ⟨[], ?_⟩
    rw [List.take_append_of_le_length (by rw [List.length_map, List.length_drop]; omega),
      List.map_take, List.append_nil]
  · exact ⟨_, rfl⟩

/-- A turn leaves the graph ready for the next one. -/
theorem Text.Ready.turn (h : t.Ready lenVertex) (hfits : t.Fits) (horder : Permutes order) :
    (t.turn order n).Ready lenVertex where
  first := by
    have hfirst := h.first
    cases hrows : t.rows with
    | nil =>
      rw [hrows] at hfirst
      exact absurd rfl hfirst
    | cons r rows =>
      rw [hrows] at hfirst
      have hget : (t.turn order n).rows[0]? =
          some (scan (pairId t.base (t.news order n)) r) := by
        rw [Text.turn, turnRows_getElem?_old (by rw [hrows]; exact Nat.succ_pos _)]
        simp only [hrows, List.getElem_cons_zero]
      rw [List.getD_eq_getElem?_getD, hget]
      exact scan_ne_nil hfirst
  blocks b hb := by
    have hth : threadNum = 40 := rfl
    have hlen := h.length
    obtain ⟨rest, hrest⟩ := chunk_turnRows (pairId t.base (t.news order n)) (t.news order n)
      (by rw [hth]; omega : 39 * (lenVertex / threadNum) ≤ t.rows.length) hb
    rw [Text.turn, hrest]
    intro hempty
    refine h.blocks b hb (List.flatten_eq_nil_iff.mpr fun r hr => ?_)
    by_contra hne
    exact absurd (List.flatten_eq_nil_iff.mp hempty _
      (List.mem_append_left _ (List.mem_map_of_mem hr))) (scan_ne_nil hne)
  length := by
    have := h.length
    rw [length_turn]
    omega
  entries := entries_turnRows h.entries (Int.natCast_nonneg _) (by have := h.base; omega)
    (h.within_news hfits horder)
  hist p hp := by
    have := h.pushed p hp
    rw [length_turn]
    omega
  base := Nat.le_of_eq length_turn.symm

end Turn

/-! ## The code's turn -/

/-- The state of the code that goes with the rows. -/
structure Holds (s : State) (t : Text) : Prop where
  vertex : s.inputVertex = Csr.offsets t.rows
  edge : s.inputEdge = t.rows.flatten
  buckets : s.pairBuckets = bucketKeys t.hist
  base : s.maxId + 1 = t.base

/-- The ids of the rows and the number of edges are `int`s. -/
def State.InRange (s : State) : Prop :=
  (s.inputVertex.length : Int) ≤ intBound + 1 ∧ (s.inputEdge.length : Int) < intBound

section Refine

variable {order : Order} {n lenVertex : Nat} {s : State} {t : Text}

/-- The rows that the tables append. -/
theorem forall₂_prepareAll (startId : Nat) (tables : List HashMap) :
    List.Forall₂ Piece
      ((prepareAll startId tables).map fun table => (table.2.roleVertex, table.2.roleEdge))
      (tables.map fun table => table.map keyRow) := by
  induction tables generalizing startId with
  | nil => exact List.Forall₂.nil
  | cons table tables ih =>
    refine List.Forall₂.cons ⟨?_, ?_⟩ (ih (startId + table.length))
    · rw [prepareNewId_eq, List.map_map]
      exact List.map_congr_left fun x _ => toDtype_idem x
    · rw [prepareNewId_eq]

theorem flatten_keyRows (tables : List HashMap) :
    (tables.map fun table => table.map keyRow).flatten =
      (newPairs tables).map fun p => [p.1, p.2] := by
  rw [← List.map_flatten, newPairs, List.map_map]
  rfl

namespace Holds

/-- The tables of a turn. -/
theorem turnTables_eq (h : Holds s t) (hready : t.Ready lenVertex) (hfits : t.Fits) :
    turnTables order n s =
      .ok (bucketKeys t.pushed, prepareAll t.base (turnCounts order n t.pushed)) := by
  have hib : intBound = 2 ^ 31 := rfl
  have hrows := hfits.rows
  have hedges := hfits.edges
  have hbase := hready.base
  -- the pairs are collected with a bound that wraps when the first row is empty
  have hrow : Csr.row (Csr.offsets t.rows) t.rows.flatten 0 ≠ [] := by
    have hfirst := hready.first
    have hpos : 0 < t.rows.length := by
      rw [List.length_pos_iff]
      intro hnil
      rw [hnil] at hfirst
      exact hfirst rfl
    rw [Csr.row_offsets hpos]
    rwa [List.getD_eq_getElem?_getD, List.getElem?_eq_getElem hpos] at hfirst
  obtain ⟨bs, hrun, hbs⟩ := collectPairs_eq Csr.valid_offsets (by omega) (Or.inr hrow) s.pairBuckets
  have hpushed : bs = bucketKeys t.pushed := by
    funext b
    rw [hbs, h.buckets, Csr.rows_offsets, ← bucketKeys_append]
    rfl
  have hword : toDtype (s.maxId + 1) = t.base := by
    rw [h.base]
    exact toDtype_eq ⟨by omega, by omega⟩
  unfold turnTables
  rw [h.vertex, h.edge, hrun, Run.ok_bind, hword, Int.toNat_natCast, hpushed]
  rfl

/-- The blocks that `replace` leaves. -/
theorem mapM_replace (hready : t.Ready lenVertex) (hfits : t.Fits) (tables : Tables) :
    ∃ outs, ((List.range threadNum).map (chunkBlock (lenVertex / threadNum) t.rows)).mapM
        (fun block => replace tables block.1 block.2) = .ok outs ∧
      (outs.map fun out => (out.vertices, out.edges)).foldl appendRows ([], []) =
        wordRows (t.rows.map (scan (findId tables))) := by
  have hedges := hfits.edges
  -- block by block: `replace` scans the rows of its block
  have hblock : ∀ idx ∈ List.range threadNum, ∃ out : Replace,
      replace tables (chunkBlock (lenVertex / threadNum) t.rows idx).1
          (chunkBlock (lenVertex / threadNum) t.rows idx).2 = .ok out ∧
        Piece (out.vertices, out.edges)
          ((chunk (lenVertex / threadNum) t.rows idx).map (scan (findId tables))) := by
    intro idx hidx
    have hbound := chunkStart_add_le (lenVertex / threadNum) t.rows idx
    have h0 : 0 ≤ chunkStart (lenVertex / threadNum) t.rows idx := Int.natCast_nonneg _
    have hne := hready.blocks idx (List.mem_range.mp hidx)
    have hrows : chunk (lenVertex / threadNum) t.rows idx ≠ [] := by
      intro hnil
      rw [hnil] at hne
      exact hne rfl
    obtain ⟨out, hout, hedge, hvertex⟩ := replace_eq tables
      (chunkStart (lenVertex / threadNum) t.rows idx) hrows hne (by omega)
    exact ⟨out, hout, by rw [hvertex], by rw [hedge]⟩
  obtain ⟨outs, houts, hpieces⟩ := Run.exists_mapM hblock
  refine ⟨outs, by rw [Run.mapM_eq_ok, List.forall₂_map_left_iff]; exact Run.mapM_eq_ok.mp houts, ?_⟩
  have hall : List.Forall₂ Piece (outs.map fun out => (out.vertices, out.edges))
      ((List.range threadNum).map fun idx =>
        (chunk (lenVertex / threadNum) t.rows idx).map (scan (findId tables))) := by
    rw [List.forall₂_map_left_iff, List.forall₂_map_right_iff]
    exact hpieces.flip
  -- the blocks are consecutive, so together they scan all rows
  have hflat : ((List.range threadNum).map fun idx =>
      (chunk (lenVertex / threadNum) t.rows idx).map (scan (findId tables))).flatten =
      t.rows.map (scan (findId tables)) := by
    conv_rhs => rw [← flatten_chunks (lenVertex / threadNum) t.rows, List.map_flatten, List.map_map]
    rfl
  have hfold := foldl_appendRows hall []
  rwa [hflat] at hfold

/-- A turn that the graph is ready for returns the scanned rows and the rows of the new ids, as
words. -/
theorem repairTurn_eq (h : Holds s t) (hready : t.Ready lenVertex) (hfits : t.Fits) :
    ∃ tables, tables = prepareAll t.base (turnCounts order n t.pushed) ∧
      ∃ R, R = turnRows (findId tables) (t.news order n) t.rows ∧
        repairTurn order lenVertex n s = .ok
          ⟨(Csr.offsets R).map toDtype, R.flatten.map toDtype, toDtype (R.length - 1),
            bucketKeys t.pushed⟩ := by
  have hib : intBound = 2 ^ 31 := rfl
  have hrows := hfits.rows
  refine ⟨_, rfl, _, rfl, ?_⟩
  generalize htables : prepareAll t.base (turnCounts order n t.pushed) = tables
  have hent : ∀ x ∈ t.rows.flatten, 0 ≤ x ∧ x < intBound := by
    intro x hx
    obtain ⟨r, hr, hx⟩ := List.mem_flatten.mp hx
    have := hready.entries r hr x hx
    omega
  obtain ⟨outs, houts, hfold⟩ := mapM_replace hready hfits tables
  -- the rows of the ids go behind the rows of the blocks
  have hroles := foldl_appendRows (forall₂_prepareAll t.base (turnCounts order n t.pushed))
    (t.rows.map (scan (findId tables)))
  rw [htables, flatten_keyRows] at hroles
  change _ = wordRows (turnRows (findId tables) (t.news order n) t.rows) at hroles
  generalize turnRows (findId tables) (t.news order n) t.rows = R at hroles
  have hvertex : (wordRows R).1 ++ [toDtype (wordRows R).2.length] =
      (Csr.offsets R).map toDtype := by
    unfold wordRows
    rw [Csr.offsets, Csr.offsetsFrom_eq_starts, List.map_append, List.length_map, Int.zero_add]
    rfl
  unfold repairTurn
  rw [h.turnTables_eq hready hfits, Run.ok_bind, htables, h.vertex, h.edge,
    splitBlocks_eq hready.length hfits.edges hent, Run.ok_bind]
  dsimp only
  rw [houts, Run.ok_bind, hfold, hroles, hvertex, List.length_map, Csr.length_offsets,
    show ((R.length + 1 : Nat) : Int) - 2 = R.length - 1 by omega]
  rfl

/-- While the ids fit in an `int`, `replace` finds the numbers of the pairs. -/
theorem scan_findId (hready : t.Ready lenVertex) (hfits : t.Fits) (horder : Permutes order)
    (hids : ((t.turn order n).rows.length : Int) ≤ intBound) {r : List Int} (hr : r ∈ t.rows) :
    scan (findId (prepareAll t.base (turnCounts order n t.pushed))) r =
      scan (pairId t.base (t.news order n)) r := by
  have hib : intBound = 2 ^ 31 := rfl
  have hrows := hfits.rows
  have hbase := hready.base
  rw [Text.length_turn, Nat.cast_add] at hids
  refine scan_congr fun p hp => ?_
  have hmem := mem_of_mem_adjacent hp
  have h₁ := hready.entries r hr _ hmem.1
  have h₂ := hready.entries r hr _ hmem.2
  rw [(counted_turn horder n _).findId_eq (hready.wordPairs hfits) t.base ⟨h₁.1, by omega⟩
    ⟨h₂.1, by omega⟩]
  -- an id of a table is a row of the next graph, so its conversion to `int` keeps it
  cases hid : pairId t.base (newPairs (turnCounts order n t.pushed)) p.1 p.2 with
  | none => exact hid.symm
  | some z =>
    obtain ⟨i, hi, rfl⟩ := getElem?_of_pairId hid
    have hlt : i < (t.news order n).length := (List.getElem?_eq_some_iff.mp hi).1
    rw [Option.map_some, wrapInt_eq (by omega) (by omega)]
    exact hid.symm

/-- A turn of the code is a turn on the rows. -/
theorem repairTurn (h : Holds s t) (hready : t.Ready lenVertex) (hfits : t.Fits)
    (horder : Permutes order) :
    ∃ s', Parallel.repairTurn order lenVertex n s = .ok s' ∧
      s'.inputVertex.length = (t.turn order n).rows.length + 1 ∧
      (s'.InRange ↔ (t.turn order n).Fits) ∧
      ((t.turn order n).Fits → Holds s' (t.turn order n)) := by
  have hib : intBound = 2 ^ 31 := rfl
  obtain ⟨tables, htables, R, hR, hrun⟩ := h.repairTurn_eq hready hfits
  have hlength : R.length = (t.turn order n).rows.length := by
    rw [hR, length_turnRows, Text.length_turn]
  -- with ids that are `int`s the code writes the rows of the abstract turn
  have hsame : ((t.turn order n).rows.length : Int) ≤ intBound → R = (t.turn order n).rows := by
    intro hids
    rw [hR, htables]
    refine congrArg (· ++ _) (List.map_congr_left fun r hr => ?_)
    exact scan_findId hready hfits horder hids hr
  refine ⟨_, hrun, ?_, ?_, fun hfits' => ?_⟩
  · rw [List.length_map, Csr.length_offsets, hlength]
  · unfold State.InRange
    rw [List.length_map, List.length_map, Csr.length_offsets, hlength]
    constructor
    · rintro ⟨hids, hedges⟩
      rw [hsame (by omega)] at hedges
      exact ⟨by omega, hedges⟩
    · rintro ⟨hids, hedges⟩
      rw [hsame hids]
      exact ⟨by omega, hedges⟩
  · have hready' : (t.turn order n).Ready lenVertex := hready.turn hfits horder
    have hrows := hfits'.rows
    have hedges := hfits'.edges
    rw [hsame hrows]
    have hpos : 0 < (t.turn order n).rows.length := by
      rw [List.length_pos_iff]
      intro hnil
      have hfirst := hready'.first
      rw [hnil] at hfirst
      exact hfirst rfl
    refine ⟨?_, ?_, rfl, ?_⟩
    · -- offsets and entries are in range, so that the conversions change nothing
      refine (List.map_congr_left fun x hx => ?_).trans (List.map_id _)
      obtain ⟨v, hv, rfl⟩ := List.mem_iff_getElem.mp hx
      have hvalid : Csr.Valid (Csr.offsets (t.turn order n).rows) _ := Csr.valid_offsets
      have h₀ := hvalid.getD_nonneg hv
      have h₁ := hvalid.getD_le hv
      rw [List.getD_eq_getElem?_getD, List.getElem?_eq_getElem hv, Option.getD_some] at h₀ h₁
      exact toDtype_eq ⟨h₀, by omega⟩
    · refine (List.map_congr_left fun x hx => ?_).trans (List.map_id _)
      obtain ⟨r, hr, hx⟩ := List.mem_flatten.mp hx
      have := hready'.entries r hr x hx
      exact toDtype_eq ⟨this.1, by omega⟩
    · dsimp only
      rw [toDtype_eq ⟨by omega, by omega⟩, Int.sub_add_cancel]
      exact congrArg Nat.cast Text.length_turn

end Holds

end Refine

end Laconic.Parallel

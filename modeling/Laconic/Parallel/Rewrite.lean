import Laconic.Parallel.Ids

/-!
# The parallel compressor: what a rewritten block stands for

`replace` is given a block and tables that others made.  Here nothing is assumed of them but what
makes them tables of pairs: the rows that it writes give the rows of the block back, and none of them
has a pair of the tables left.
-/

namespace Laconic.Parallel

open PairScan
open RePair (intBound)

/-! ## Blocks -/

/-- A symbol below `2^31`, which is the same number in every type of the source. -/
def IsSymbol (x : Int) : Prop := 0 ≤ x ∧ x < intBound

instance (x : Int) : Decidable (IsSymbol x) := inferInstanceAs (Decidable (0 ≤ x ∧ x < intBound))

/-- A block: the offsets of its rows never go down, and the last row ends with the last edge. -/
structure IsBlock (vertices edges : List Int) : Prop where
  row : vertices ≠ []
  edge : edges ≠ []
  mono : vertices.Pairwise (· ≤ ·)
  last : ∀ x ∈ vertices, x - vertices.headD 0 ≤ edges.length
  symbols : ∀ x ∈ edges, IsSymbol x

/-- Rows and edges are counted in the `int`s `vidx` and `idx`. -/
structure IsCounted (vertices edges : List Int) : Prop where
  rows : (vertices.length : Int) < intBound
  edges : (edges.length : Int) < intBound

/-- The rows of a block.  Its first offset is the place of the block in the graph. -/
def blockRows (vertices edges : List Int) : List (List Int) :=
  Csr.rows (vertices.map (fun x => x - vertices.headD 0) ++ [(edges.length : Int)]) edges

/-! ## Tables -/

/-- The entries of all `convert_id`. -/
def newIds (tables : Tables) : List (Nat × Nat) := tables.flatMap fun t => t.2.convert

/-- The pair is a key of the tables. -/
def IsKey (tables : Tables) (x y : Int) : Prop := ∃ t ∈ tables, pairHash x y ∈ t.1.map Prod.fst

/-- Tables for a block: `hash_table` and `convert_id` have the same keys, each of them is a pair of
symbols and in the table of the first one, and the new ids are symbols of their own. -/
structure IsTables (tables : Tables) (edges : List Int) : Prop where
  length : tables.length = threadNum
  nodup : ∀ t ∈ tables, (t.1.map Prod.fst).Nodup ∧ (t.2.convert.map Prod.fst).Nodup
  sameKeys : ∀ t ∈ tables, ∀ k, k ∈ t.1.map Prod.fst ↔ k ∈ t.2.convert.map Prod.fst
  home : ∀ b t, tables[b]? = some t → ∀ k ∈ t.1.map Prod.fst, ∃ x y, IsSymbol x ∧ IsSymbol y ∧
    k = pairHash x y ∧ b = threadId x
  symbols : ∀ kv ∈ newIds tables, IsSymbol kv.2
  distinct : ((newIds tables).map Prod.snd).Nodup
  notEdge : ∀ kv ∈ newIds tables, (kv.2 : Int) ∉ edges
  notKey : ∀ kv ∈ newIds tables, ∀ t ∈ tables, ∀ k ∈ t.1.map Prod.fst,
    (kv.2 : Int) ≠ (pairOfKey k).1 ∧ (kv.2 : Int) ≠ (pairOfKey k).2

/-- A new id is replaced by its pair. -/
def unpair (tables : Tables) (z : Int) : List Int :=
  match (newIds tables).find? fun kv => decide ((kv.2 : Int) = z) with
  | some kv => [(pairOfKey kv.1).1, (pairOfKey kv.1).2]
  | none => [z]

/-- What a row `r` is rewritten to. -/
structure RowRewritten (tables : Tables) (r r' : List Int) : Prop where
  restores : r'.flatMap (unpair tables) = r
  reduced : ∀ p ∈ adjacent r', ¬ IsKey tables p.1 p.2

/-- What `replace` returns: one start for each row of the block, and the new rows one after the
other. -/
structure BlockRewritten (tables : Tables) (vertices edges : List Int) (out : Replace) : Prop where
  starts : out.vertices.length = vertices.length
  rows : ∃ rows, List.Forall₂ (RowRewritten tables) (blockRows vertices edges) rows ∧
    out.vertices = Csr.startsFrom 0 rows ∧ out.edges = rows.flatten

section Block

variable {vertices edges : List Int}

theorem IsBlock.valid (h : IsBlock vertices edges) :
    Csr.Valid (vertices.map (fun x => x - vertices.headD 0) ++ [(edges.length : Int)]) edges := by
  have hle : ∀ x ∈ vertices.map (fun x => x - vertices.headD 0), x ≤ edges.length := by
    intro x hx
    obtain ⟨y, hy, rfl⟩ := List.mem_map.mp hx
    exact h.last y hy
  refine ⟨?_, ?_, ?_⟩
  · cases hv : vertices with
    | nil => exact absurd hv h.row
    | cons x l => simp
  · rw [List.pairwise_append]
    refine ⟨?_, List.pairwise_singleton _ _, ?_⟩
    · rw [List.pairwise_map]
      apply h.mono.imp
      intro a b hab
      omega
    · intro a ha b hb
      rw [List.mem_singleton.mp hb]
      exact hle a ha
  · intro x hx
    rcases List.mem_append.mp hx with hx | hx
    · exact hle x hx
    · rw [List.mem_singleton.mp hx]

/-- A block is the one that its rows make. -/
theorem IsBlock.eq_starts (h : IsBlock vertices edges) :
    vertices = Csr.startsFrom (vertices.headD 0) (blockRows vertices edges) ∧
      edges = (blockRows vertices edges).flatten := by
  obtain ⟨hoff, hflat⟩ := h.valid.eq_offsets (by rw [List.getLast?_concat])
  change _ = Csr.offsetsFrom 0 (blockRows vertices edges) at hoff
  rw [Csr.offsetsFrom_eq_starts] at hoff
  have hstarts := (List.append_inj' hoff rfl).1
  have hback : (vertices.map (fun x => x - vertices.headD 0)).map (· + vertices.headD 0) =
      vertices := by
    rw [List.map_map]
    conv_rhs => rw [← List.map_id vertices]
    apply List.map_congr_left
    intro x _
    show x - vertices.headD 0 + vertices.headD 0 = x
    omega
  rw [hstarts, Csr.map_startsFrom, Int.zero_add] at hback
  exact ⟨hback.symm, hflat⟩

end Block

section Tables

variable {tables : Tables} {edges : List Int} {x y z : Int}

theorem IsSymbol.isWord (h : IsSymbol x) : IsWord x := by
  have hib : intBound = 2 ^ 31 := rfl
  obtain ⟨h0, h⟩ := h
  exact ⟨h0, by omega⟩

namespace IsTables

/-- A key is looked up in the table where it is. -/
theorem exists_table (h : IsTables tables edges) (x : Int) :
    ∃ t, tables[threadId x]? = some t ∧ t ∈ tables := by
  have hlt : threadId x < tables.length := by
    rw [h.length]
    exact threadId_lt x
  exact ⟨_, List.getElem?_eq_getElem hlt, List.getElem_mem hlt⟩

theorem isKey_iff (h : IsTables tables edges) (hx : IsSymbol x) (hy : IsSymbol y)
    {t : HashMap × NewIds} (ht : tables[threadId x]? = some t) :
    IsKey tables x y ↔ pairHash x y ∈ t.1.map Prod.fst := by
  constructor
  · rintro ⟨t', ht', hk⟩
    obtain ⟨b, hb⟩ := List.mem_iff_getElem?.mp ht'
    obtain ⟨x', y', hx', hy', hhash, rfl⟩ := h.home b t' hb _ hk
    -- the pair of the key is `(x, y)`, so the key is where `x` is looked up
    cases pairHash_inj hx.isWord hy.isWord hx'.isWord hy'.isWord hhash
    rw [ht, Option.some_inj] at hb
    rw [hb]
    exact hk
  · intro hk
    exact ⟨t, List.mem_of_getElem? ht, hk⟩

/-- The scan looks up the new id of a key. -/
theorem findId_eq_some (h : IsTables tables edges) (hz : findId tables x y = some z) :
    ∃ kv ∈ newIds tables, kv.1 = pairHash x y ∧ (kv.2 : Int) = z := by
  obtain ⟨t, ht, hmem⟩ := h.exists_table x
  unfold findId at hz
  rw [ht] at hz
  dsimp only at hz
  split at hz
  · rename_i hsome
    rw [isSome_lookup, h.sameKeys t hmem, ← isSome_lookup, Option.isSome_iff_exists] at hsome
    obtain ⟨id, hid⟩ := hsome
    have hkv : (pairHash x y, id) ∈ newIds tables :=
      List.mem_flatMap.mpr ⟨t, hmem, mem_of_lookup hid⟩
    have hsym := h.symbols _ hkv
    rw [hid, Option.getD_some, wrapInt_eq hsym.1 hsym.2, Option.some_inj] at hz
    exact ⟨_, hkv, rfl, hz⟩
  · cases hz

theorem findId_eq_none (h : IsTables tables edges) (hx : IsSymbol x) (hy : IsSymbol y)
    (hnone : findId tables x y = none) : ¬ IsKey tables x y := by
  obtain ⟨t, ht, hmem⟩ := h.exists_table x
  rw [h.isKey_iff hx hy ht, ← isSome_lookup]
  unfold findId at hnone
  rw [ht] at hnone
  dsimp only at hnone
  split at hnone
  · cases hnone
  · assumption

/-- A new id stands for one pair. -/
theorem unpair_newId (h : IsTables tables edges) {kv : Nat × Nat} (hkv : kv ∈ newIds tables) :
    unpair tables kv.2 = [(pairOfKey kv.1).1, (pairOfKey kv.1).2] := by
  unfold unpair
  cases hfind : (newIds tables).find? fun kv' => decide ((kv'.2 : Int) = kv.2) with
  | none =>
    have := List.find?_eq_none.mp hfind kv hkv
    simp at this
  | some kv' =>
    have hsnd : kv'.2 = kv.2 := by
      have := List.find?_some hfind
      rw [decide_eq_true_iff] at this
      omega
    rw [List.inj_on_of_nodup_map h.distinct (List.mem_of_find?_eq_some hfind) hkv hsnd]

/-- The entries of the block stay. -/
theorem unpair_edge (h : IsTables tables edges) (hx : x ∈ edges) : unpair tables x = [x] := by
  unfold unpair
  rw [List.find?_eq_none.mpr]
  intro kv hkv
  rw [decide_eq_true_iff]
  intro heq
  exact h.notEdge kv hkv (heq ▸ hx)

/-- No new id is part of a key. -/
theorem ne_of_isKey (h : IsTables tables edges) (hx : IsSymbol x) (hy : IsSymbol y)
    (hkey : IsKey tables x y) {kv : Nat × Nat} (hkv : kv ∈ newIds tables) :
    (kv.2 : Int) ≠ x ∧ (kv.2 : Int) ≠ y := by
  obtain ⟨t, ht, hk⟩ := hkey
  have hne := h.notKey kv hkv t ht _ hk
  rwa [pairOfKey_pairHash hx.isWord hy.isWord] at hne

/-- The pass over a row of the block. -/
theorem rowRewritten (h : IsTables tables edges) {r : List Int} (hr : ∀ x ∈ r, x ∈ edges)
    (hsym : ∀ x ∈ r, IsSymbol x) : RowRewritten tables r (scan (findId tables) r) := by
  -- every entry of the new row is a symbol
  have hout : ∀ z ∈ scan (findId tables) r, IsSymbol z := by
    intro z hz
    rcases mem_scan hz with hz | ⟨x, y, -, hid⟩
    · exact hsym z hz
    · obtain ⟨kv, hkv, -, rfl⟩ := h.findId_eq_some hid
      exact h.symbols kv hkv
  constructor
  · apply flatMap_scan
    · intro x y z hxy hid
      obtain ⟨kv, hkv, hkey, rfl⟩ := h.findId_eq_some hid
      have hmem := mem_of_mem_adjacent hxy
      rw [h.unpair_newId hkv, hkey,
        pairOfKey_pairHash (hsym x hmem.1).isWord (hsym y hmem.2).isWord]
    · intro x hx
      exact h.unpair_edge (hr x hx)
  · rintro ⟨a, b⟩ hab hkey
    have hmem := mem_of_mem_adjacent hab
    have ha := hout a hmem.1
    have hb := hout b hmem.2
    -- a key has no new id in it, so both are entries that the pass has kept
    have hnone : findId tables a b = none := by
      apply adjacent_scan _ _ hab
      · intro x y _ hid
        obtain ⟨kv, hkv, -, heq⟩ := h.findId_eq_some hid
        exact (h.ne_of_isKey ha hb hkey hkv).1 heq
      · intro x y _ hid
        obtain ⟨kv, hkv, -, heq⟩ := h.findId_eq_some hid
        exact (h.ne_of_isKey ha hb hkey hkv).2 heq
    exact h.findId_eq_none ha hb hnone hkey

end IsTables

end Tables

/-! ## The tables of a turn

What the turns of `Repair` hand to `replace` are such tables, when the first new id is above all
symbols. -/

section Turn

variable {hist : List (Int × Int)} {counts : List HashMap} {startId : Nat} {edges : List Int}

/-- A table of `prepareAll` has the keys of the table that it was made from. -/
theorem exists_counts {b : Nat} {t : HashMap × NewIds}
    (ht : (prepareAll startId counts)[b]? = some t) :
    counts[b]? = some t.1 ∧ t.2.convert.map Prod.fst = t.1.map Prod.fst := by
  rw [prepareAll_getElem?, Option.map_eq_some_iff] at ht
  obtain ⟨table, htable, rfl⟩ := ht
  refine ⟨htable, ?_⟩
  rw [prepareNewId_eq]
  exact List.zipIdx_map_fst _ _

/-- The ids of a turn are the numbers from the first one on. -/
theorem newIds_prepareAll : newIds (prepareAll startId counts) =
    (counts.flatten.map Prod.fst).zipIdx startId := flatMap_convert startId counts

theorem isTables_prepareAll (h : Counted hist counts)
    (hhist : ∀ p ∈ hist, (IsSymbol p.1 ∧ p.1 < startId) ∧ IsSymbol p.2 ∧ p.2 < startId)
    (hedges : ∀ x ∈ edges, x < startId)
    (hfits : (startId + counts.flatten.length : Int) ≤ intBound) :
    IsTables (prepareAll startId counts) edges := by
  have hkey : ∀ b t, (prepareAll startId counts)[b]? = some t → ∀ k ∈ t.1.map Prod.fst,
      ∃ p ∈ hist, threadId p.1 = b ∧ k = pairHash p.1 p.2 := by
    intro b t ht k hk
    obtain ⟨kv, hkv, rfl⟩ := List.mem_map.mp hk
    exact h.exists_pair (exists_counts ht).1 hkv
  have hid : ∀ kv ∈ newIds (prepareAll startId counts),
      startId ≤ kv.2 ∧ (kv.2 : Int) < intBound := by
    intro kv hkv
    rw [newIds_prepareAll] at hkv
    have hlt := List.snd_lt_add_of_mem_zipIdx hkv
    rw [List.length_map] at hlt
    exact ⟨List.le_snd_of_mem_zipIdx hkv, by omega⟩
  refine
    { length := ?_
      nodup := ?_
      sameKeys := ?_
      home := ?_
      symbols := ?_
      distinct := ?_
      notEdge := ?_
      notKey := ?_ }
  · rw [← List.length_map Prod.fst, prepareAll_map_fst, h.length]
  · intro t ht
    obtain ⟨b, hb⟩ := List.mem_iff_getElem?.mp ht
    obtain ⟨htable, hsame⟩ := exists_counts hb
    rw [hsame]
    exact ⟨h.nodup _ (List.mem_of_getElem? htable), h.nodup _ (List.mem_of_getElem? htable)⟩
  · intro t ht k
    obtain ⟨b, hb⟩ := List.mem_iff_getElem?.mp ht
    rw [(exists_counts hb).2]
  · intro b t ht k hk
    obtain ⟨p, hp, hthread, hkey⟩ := hkey b t ht k hk
    exact ⟨p.1, p.2, (hhist p hp).1.1, (hhist p hp).2.1, hkey, hthread.symm⟩
  · intro kv hkv
    exact ⟨Int.natCast_nonneg _, (hid kv hkv).2⟩
  · rw [newIds_prepareAll, List.zipIdx_map_snd]
    exact List.nodup_range'
  · intro kv hkv hmem
    have hge := (hid kv hkv).1
    have hlt := hedges _ hmem
    omega
  · intro kv hkv t ht k hk
    obtain ⟨b, hb⟩ := List.mem_iff_getElem?.mp ht
    obtain ⟨p, hp, -, rfl⟩ := hkey b t hb k hk
    obtain ⟨⟨h₁, hlt₁⟩, h₂, hlt₂⟩ := hhist p hp
    have hge := (hid kv hkv).1
    rw [pairOfKey_pairHash h₁.isWord h₂.isWord]
    exact ⟨by omega, by omega⟩

end Turn

section Rewrite

variable {tables : Tables} {vertices edges : List Int}

/-- Tables with the only key `(1, 2)`, whose new id is 50. -/
def oneKey : Tables :=
  prepareAll 50 ((List.range threadNum).map fun b => if b = 1 then [(pairHash 1 2, 4)] else [])

theorem isTables_oneKey : IsTables oneKey [1, 2, 1, 2, 1, 2] where
  length := rfl
  nodup := by decide +kernel
  sameKeys := by
    have hkeys : ∀ t ∈ oneKey, t.1.map Prod.fst = t.2.convert.map Prod.fst := by decide +kernel
    intro t ht k
    rw [hkeys t ht]
  home := by
    have hkeys : ∀ b, b < threadNum → ∀ t ∈ oneKey[b]?, ∀ k ∈ t.1.map Prod.fst,
        k = pairHash 1 2 ∧ b = 1 := by decide +kernel
    intro b t ht k hk
    have hb : b < threadNum := (List.getElem?_eq_some_iff.mp ht).1
    obtain ⟨rfl, rfl⟩ := hkeys b hb t ht k hk
    exact ⟨1, 2, by decide, by decide, rfl, rfl⟩
  symbols := by decide +kernel
  distinct := by decide +kernel
  notEdge := by decide +kernel
  notKey := by decide +kernel

example : (replace oneKey [7, 9, 9, 10] [1, 2, 1, 2, 1, 2]).map (fun s => (s.vertices, s.edges)) =
    .ok ([0, 1, 1, 2], [50, 1, 2, 50]) := by decide +kernel

/-- Tables without a key. -/
def noKeys : Tables := List.replicate threadNum ([], ⟨0, [], [], [], 0⟩)

theorem isTables_noKeys (edges : List Int) : IsTables noKeys edges := by
  have hempty : ∀ t ∈ noKeys, t.1 = [] ∧ t.2.convert = [] := by decide
  have hids : newIds noKeys = [] := rfl
  refine
    { length := rfl
      nodup := fun t ht => ?_
      sameKeys := fun t ht k => ?_
      home := fun b t ht k hk => ?_
      symbols := fun kv hkv => ?_
      distinct := List.nodup_nil
      notEdge := fun kv hkv => ?_
      notKey := fun kv hkv => ?_ }
  · rw [(hempty t ht).1, (hempty t ht).2]
    exact ⟨List.nodup_nil, List.nodup_nil⟩
  · rw [(hempty t ht).1, (hempty t ht).2]
  · rw [(hempty t (List.mem_of_getElem? ht)).1] at hk
    cases hk
  · rw [hids] at hkv
    cases hkv
  · rw [hids] at hkv
    cases hkv
  · rw [hids] at hkv
    cases hkv

end Rewrite

end Laconic.Parallel

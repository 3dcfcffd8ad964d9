import Mathlib.Data.List.Nodup
import Mathlib.Data.List.Count
import Laconic.Lib.PairTurn
import Laconic.Parallel.Collect

/-!
# The parallel compressor: counting and new ids

Each bucket is counted in a table of its own, so that a pair has an entry when it was pushed at least
`threshold` times.  The entries get consecutive ids, table after table: together the tables are one
list of pairs, and the id of a pair is its place in the list, counted from the first new id.
-/

namespace Laconic.Parallel

open PairScan
open RePair (intBound toRelong)

/-! ## Keys -/

/-- A value of a `uint32_t`. -/
def IsWord (x : Int) : Prop := 0 ≤ x ∧ x < 2 ^ 32

instance (x : Int) : Decidable (IsWord x) := inferInstanceAs (Decidable (0 ≤ x ∧ x < 2 ^ 32))

/-- The pair of a key, as `prepare_new_id` reads it. -/
def pairOfKey (k : Nat) : Int × Int := (toDtype (k >>> 32 : Nat), toDtype k)

section Keys

variable {x y x' y' : Int}

theorem toDtype_eq (h : IsWord x) : toDtype x = x := Int.emod_eq_of_lt h.1 h.2

theorem pairHash_eq (hx : IsWord x) (hy : IsWord y) :
    pairHash x y = x.toNat * 2 ^ 32 + y.toNat := by
  obtain ⟨hx0, hx⟩ := hx
  obtain ⟨hy0, hy⟩ := hy
  have hylt : y.toNat < 2 ^ 32 := by omega
  unfold pairHash toRelong
  rw [Int.emod_eq_of_lt hx0 (by omega), Int.emod_eq_of_lt hy0 (by omega),
    Nat.mod_eq_of_lt (by rw [Nat.shiftLeft_eq]; omega), ← Nat.shiftLeft_add_eq_or_of_lt hylt,
    Nat.shiftLeft_eq]

theorem pairOfKey_pairHash (hx : IsWord x) (hy : IsWord y) : pairOfKey (pairHash x y) = (x, y) := by
  rw [pairHash_eq hx hy]
  obtain ⟨hx0, hx⟩ := hx
  obtain ⟨hy0, hy⟩ := hy
  unfold pairOfKey toDtype
  rw [Nat.shiftRight_eq_div_pow]
  refine Prod.ext ?_ ?_ <;> omega

/-- Different pairs have different keys. -/
theorem pairHash_inj (hx : IsWord x) (hy : IsWord y) (hx' : IsWord x') (hy' : IsWord y')
    (h : pairHash x y = pairHash x' y') : (x, y) = (x', y') := by
  rw [← pairOfKey_pairHash hx hy, h, pairOfKey_pairHash hx' hy']

end Keys

/-! ## Keys of `int`s

Pairs are counted by the keys of `uint32_t`s; `replace` looks them up by the keys of the same values
stored as `int`s. -/

section SignedKeys

variable {a b : Int}

theorem toRelong_of_word (ha : IsWord a) : toRelong a = a.toNat := by
  rw [toRelong, Int.emod_eq_of_lt ha.1 (Int.lt_trans ha.2 (by decide))]

/-- A word from `2^31` on is negative as an `int`, and its sign is extended. -/
theorem toRelong_wrapInt (hb : IsWord b) :
    toRelong (wrapInt b) = if b < intBound then b.toNat else (2 ^ 32 - 1) <<< 32 ||| b.toNat := by
  have hib : intBound = 2 ^ 31 := rfl
  obtain ⟨hb0, hb⟩ := hb
  have hlt : b.toNat < 2 ^ 32 := by omega
  rw [wrapInt, Int.emod_eq_of_lt hb0 hb, toRelong]
  split
  · omega
  · rw [← Nat.shiftLeft_add_eq_or_of_lt hlt, Nat.shiftLeft_eq]
    omega

/-- The table is the same, because 40 divides `2^64 - 2^32`. -/
theorem threadId_wrapInt (ha : IsWord a) : threadId (wrapInt a) = threadId a := by
  have hth : threadNum = 40 := rfl
  obtain ⟨ha0, ha⟩ := ha
  rw [wrapInt, Int.emod_eq_of_lt ha0 ha]
  split
  · rfl
  · have hneg : toSize (a - 2 ^ 32) = a + (2 ^ 64 - 2 ^ 32) := by
      unfold toSize
      omega
    have hword : toSize a = a := Int.emod_eq_of_lt ha0 (by omega)
    rw [threadId, threadId, hneg, hword, hth]
    omega

theorem or_allOnes {n m : Nat} (h : m < 2 ^ n) : m ||| (2 ^ n - 1) = 2 ^ n - 1 := by
  refine Nat.eq_of_testBit_eq fun i => ?_
  rw [Nat.testBit_or, Nat.testBit_two_pow_sub_one]
  by_cases hi : i < n
  · rw [decide_eq_true hi, Bool.or_true]
  · have hle : 2 ^ n ≤ 2 ^ i := Nat.pow_le_pow_right (by decide) (Nat.le_of_not_lt hi)
    rw [Nat.testBit_lt_two_pow (Nat.lt_of_lt_of_le h hle), Bool.false_or]

/-- The extended sign of the second symbol covers the first one. -/
theorem pairHash_wrapInt (ha : IsWord a) (hb : IsWord b) :
    pairHash (wrapInt a) (wrapInt b) =
      if b < intBound then pairHash a b else pairHash (2 ^ 32 - 1) b := by
  have hfirst : toRelong (wrapInt a) <<< 32 % 2 ^ 64 = a.toNat <<< 32 % 2 ^ 64 := by
    obtain ⟨ha0, ha⟩ := ha
    unfold toRelong
    rw [wrapInt, Int.emod_eq_of_lt ha0 ha, Nat.shiftLeft_eq, Nat.shiftLeft_eq]
    split <;> omega
  have hshift : ∀ m, m < 2 ^ 32 → m <<< 32 % 2 ^ 64 = m <<< 32 := by
    intro m hm
    rw [Nat.shiftLeft_eq]
    omega
  have hlt : a.toNat < 2 ^ 32 := by
    obtain ⟨ha0, ha⟩ := ha
    omega
  unfold pairHash
  rw [hfirst, toRelong_wrapInt hb, toRelong_of_word ha, toRelong_of_word hb,
    toRelong_of_word (by decide : IsWord (2 ^ 32 - 1)), hshift _ hlt]
  split
  · rfl
  · rw [← Nat.or_assoc, ← Nat.shiftLeft_or_distrib, or_allOnes hlt, hshift _ (by decide)]
    rfl

/-- What counting, replacing and `prepare_new_id` make of two symbols.  `table` and `key` compare the
`uint32_t`s that are counted with the `int`s that are replaced. -/
structure SameKey (a b : Int) : Prop where
  table : threadId a = threadId (wrapInt a)
  key : pairHash a b = pairHash (wrapInt a) (wrapInt b)
  inj : ∀ a' b', IsWord a' → IsWord b' → pairHash a b = pairHash a' b' → (a, b) = (a', b')
  decode : ∀ (s : NewIds) (n : Nat),
    (prepareEntry s (pairHash a b, n)).roleEdge = s.roleEdge ++ [a, b]

theorem prepareEntry_pairHash (ha : IsWord a) (hb : IsWord b) (s : NewIds) (n : Nat) :
    (prepareEntry s (pairHash a b, n)).roleEdge = s.roleEdge ++ [a, b] := by
  have hkey := pairOfKey_pairHash ha hb
  rw [pairOfKey, Prod.mk.injEq] at hkey
  rw [prepareEntry, hkey.1, hkey.2]

/-- The keys differ when the second symbol is negative as an `int`, unless all bits of the first one
are set. -/
theorem sameKey_iff (ha : IsWord a) (hb : IsWord b) :
    SameKey a b ↔ b < 2 ^ 31 ∨ a = 2 ^ 32 - 1 := by
  have hib : intBound = 2 ^ 31 := rfl
  have hkey : pairHash a b = pairHash (wrapInt a) (wrapInt b) ↔ b < 2 ^ 31 ∨ a = 2 ^ 32 - 1 := by
    rw [pairHash_wrapInt ha hb, hib]
    split
    · rename_i hlt
      exact iff_of_true rfl (Or.inl hlt)
    · rename_i hge
      constructor
      · intro heq
        exact Or.inr (congrArg Prod.fst (pairHash_inj ha hb (by decide) hb heq))
      · rintro (hlt | rfl)
        · exact absurd hlt hge
        · rfl
  constructor
  · intro h
    exact hkey.mp h.key
  · intro h
    exact ⟨(threadId_wrapInt ha).symm, hkey.mpr h, fun a' b' ha' hb' => pairHash_inj ha hb ha' hb',
      prepareEntry_pairHash ha hb⟩

/-- A first symbol that is negative as an `int` does no harm. -/
theorem sameKey_high : SameKey (2 ^ 31) 7 :=
  (sameKey_iff (by decide) (by decide)).mpr (Or.inl (by decide))

/-- The pair is counted under `2^31`, and looked up under `2^64 - 2^31`. -/
theorem not_sameKey_zero : ¬ SameKey 0 (2 ^ 31) := by
  intro h
  have hcounted : pairHash 0 (2 ^ 31) = 2 ^ 31 := by decide +kernel
  have hreplaced : pairHash (wrapInt 0) (wrapInt (2 ^ 31)) = 2 ^ 64 - 2 ^ 31 := by decide +kernel
  have := h.key
  omega

end SignedKeys

/-- Pairs of values of a `uint32_t`. -/
def WordPairs (pairs : List (Int × Int)) : Prop := ∀ p ∈ pairs, IsWord p.1 ∧ IsWord p.2

/-- The keys of a bucket are counted as the pairs. -/
theorem count_bucketKeys {pairs : List (Int × Int)} (h : WordPairs pairs) {x y : Int}
    (hx : IsWord x) (hy : IsWord y) :
    (bucketKeys pairs (threadId x)).count (pairHash x y) = pairs.count (x, y) := by
  induction pairs with
  | nil => rfl
  | cons p pairs ih =>
    have hp := h p List.mem_cons_self
    rw [bucketKeys_cons, List.count_append, ih fun q hq => h q (List.mem_cons_of_mem _ hq),
      List.count_cons, Nat.add_comm]
    congr 1
    by_cases heq : p = (x, y)
    · subst heq
      simp
    · have hkey : ¬ pairHash p.1 p.2 = pairHash x y := fun hk =>
        heq (pairHash_inj hp.1 hp.2 hx hy hk)
      have hbeq : (p == (x, y)) = false := beq_eq_false_iff_ne.mpr heq
      rw [hbeq]
      split
      · rw [List.count_singleton, if_neg (by simpa using hkey)]
        rfl
      · rfl

/-- Every key of a bucket is the key of a pair that belongs there. -/
theorem mem_bucketKeys {pairs : List (Int × Int)} {b k : Nat} (h : k ∈ bucketKeys pairs b) :
    ∃ p ∈ pairs, threadId p.1 = b ∧ k = pairHash p.1 p.2 := by
  unfold bucketKeys at h
  obtain ⟨p, hp, rfl⟩ := List.mem_map.mp h
  rw [List.mem_filter, decide_eq_true_eq] at hp
  exact ⟨p, hp.1, hp.2, rfl⟩

/-! ## Counting -/

/-- A table that has counted `pairs`: each key once, with its number of occurrences. -/
structure Counts (pairs : List Nat) (table : HashMap) : Prop where
  nodup : (table.map Prod.fst).Nodup
  mem : ∀ k n, (k, n) ∈ table ↔ n = pairs.count k ∧ 0 < n

/-- In a table with distinct keys the entry of a key is found. -/
theorem lookup_of_mem {table : HashMap} (hnodup : (table.map Prod.fst).Nodup) {k n : Nat}
    (h : (k, n) ∈ table) : table.lookup k = some n := by
  induction table with
  | nil => cases h
  | cons kv table ih =>
    rw [List.map_cons, List.nodup_cons] at hnodup
    rcases List.mem_cons.mp h with rfl | h
    · rw [List.lookup_cons_self]
    · have hne : (k == kv.1) = false := by
        refine beq_eq_false_iff_ne.mpr fun heq => hnodup.1 ?_
        exact heq ▸ List.mem_map_of_mem h
      rw [List.lookup_cons, hne]
      exact ih hnodup.2 h

theorem mem_of_lookup {table : HashMap} {k n : Nat} (h : table.lookup k = some n) :
    (k, n) ∈ table := by
  obtain ⟨l₁, l₂, rfl, -⟩ := List.lookup_eq_some_iff.mp h
  exact List.mem_append_right _ List.mem_cons_self

/-- A key has an entry when it stands in the table. -/
theorem isSome_lookup {table : HashMap} {k : Nat} :
    (table.lookup k).isSome ↔ k ∈ table.map Prod.fst := by
  rw [← not_iff_not, Bool.not_eq_true, Option.isSome_eq_false_iff, Option.isNone_iff_eq_none,
    List.lookup_eq_none_iff, List.mem_map, not_exists]
  refine forall_congr' fun kv => ?_
  rw [bne_iff_ne, not_and]
  exact imp_congr_right fun _ => ne_comm

theorem countPair_counts {pairs : List Nat} {table : HashMap} (h : Counts pairs table) (p : Nat) :
    Counts (pairs ++ [p]) (countPair table p) := by
  unfold countPair
  cases hp : table.lookup p with
  | none =>
    have hnew : p ∉ table.map Prod.fst := fun hmem => by
      have := isSome_lookup.mpr hmem
      rw [hp] at this
      cases this
    have hzero : pairs.count p = 0 := by
      by_contra hpos
      exact hnew (List.mem_map_of_mem ((h.mem p _).mpr ⟨rfl, Nat.pos_of_ne_zero hpos⟩))
    refine ⟨?_, fun k n => ?_⟩
    · rw [List.map_append, List.nodup_append]
      refine ⟨h.nodup, by simp, ?_⟩
      rintro k hk _ hk' rfl
      rw [List.map_singleton, List.mem_singleton] at hk'
      subst hk'
      exact hnew hk
    · dsimp only
      rw [List.mem_append, List.mem_singleton, h.mem, List.count_append, List.count_singleton,
        Prod.mk.injEq]
      by_cases hk : k = p
      · subst hk
        rw [hzero, if_pos (by simp)]
        omega
      · rw [if_neg (by simpa using Ne.symm hk)]
        omega
  | some m =>
    obtain ⟨hm, hpos⟩ := (h.mem p m).mp (mem_of_lookup hp)
    have hkeys : (table.map fun kv => if kv.1 = p then (p, m + 1) else kv).map Prod.fst =
        table.map Prod.fst := by
      rw [List.map_map]
      refine List.map_congr_left fun kv _ => ?_
      dsimp only [Function.comp]
      split
      · rename_i heq
        exact heq.symm
      · rfl
    refine ⟨by rw [hkeys]; exact h.nodup, fun k n => ?_⟩
    rw [List.count_append, List.count_singleton, List.mem_map]
    constructor
    · rintro ⟨kv, hkv, heq⟩
      split at heq
      · cases heq
        rw [if_pos (by simp)]
        omega
      · rename_i hne
        subst heq
        rw [if_neg (by simpa using Ne.symm hne)]
        exact (h.mem k n).mp hkv
    · rintro ⟨hn, hn0⟩
      by_cases hk : k = p
      · subst hk
        rw [if_pos (by simp)] at hn
        exact ⟨(k, m), mem_of_lookup hp, by rw [if_pos rfl, hn, hm]⟩
      · rw [if_neg (by simpa using Ne.symm hk)] at hn
        exact ⟨(k, n), (h.mem k n).mpr ⟨hn, hn0⟩, if_neg hk⟩

theorem foldl_countPair {done : List Nat} {table : HashMap} (h : Counts done table)
    (pairs : List Nat) : Counts (done ++ pairs) (pairs.foldl countPair table) := by
  induction pairs generalizing done table with
  | nil =>
    rw [List.append_nil]
    exact h
  | cons p pairs ih =>
    have := ih (countPair_counts h p)
    rw [List.append_assoc, List.singleton_append] at this
    exact this

/-- The keys that are left in a table are those that occur often enough. -/
theorem processpairs_keys (pairs : List Nat) :
    ((processpairs pairs []).map Prod.fst).Nodup ∧
      ∀ k, k ∈ (processpairs pairs []).map Prod.fst ↔ threshold ≤ pairs.count k := by
  have hth : threshold = 4 := rfl
  have hempty : Counts [] [] := ⟨List.nodup_nil, fun k n => by
    rw [List.count_nil]
    simp only [List.not_mem_nil, false_iff]
    omega⟩
  have hcounts := foldl_countPair hempty pairs
  rw [List.nil_append] at hcounts
  unfold processpairs
  refine ⟨hcounts.nodup.sublist (List.filter_sublist.map _), fun k => ?_⟩
  rw [List.mem_map]
  constructor
  · rintro ⟨kv, hkv, rfl⟩
    rw [List.mem_filter, decide_eq_true_eq] at hkv
    rw [← ((hcounts.mem kv.1 kv.2).mp hkv.1).1]
    exact hkv.2
  · intro hle
    refine ⟨(k, pairs.count k), List.mem_filter.mpr ⟨?_, decide_eq_true hle⟩, rfl⟩
    exact (hcounts.mem _ _).mpr ⟨rfl, by omega⟩

/-! ## New ids -/

/-- The row of a table entry. -/
def keyRow (kv : Nat × Nat) : List Int := [(pairOfKey kv.1).1, (pairOfKey kv.1).2]

theorem foldl_prepareEntry (table : HashMap) (s : NewIds) :
    table.foldl prepareEntry s =
      { startId := s.startId + table.length
        convert := s.convert ++ (table.map Prod.fst).zipIdx s.startId
        roleEdge := s.roleEdge ++ (table.map keyRow).flatten
        roleVertex := s.roleVertex ++ (Csr.startsFrom s.curVOffset (table.map keyRow)).map toDtype
        curVOffset := s.curVOffset + 2 * table.length } := by
  induction table generalizing s with
  | nil => simp [Csr.startsFrom]
  | cons kv table ih =>
    rw [List.foldl_cons, ih]
    simp only [prepareEntry, List.length_cons, List.map_cons, List.zipIdx_cons, List.flatten_cons,
      Csr.startsFrom, keyRow, pairOfKey, List.append_assoc, List.cons_append, List.nil_append,
      List.length_nil, NewIds.mk.injEq, Nat.cast_add, Nat.cast_ofNat]
    exact ⟨by omega, trivial, trivial, rfl, by omega⟩

/-- The ids of a table are consecutive, and its rows are those of its pairs. -/
theorem prepareNewId_eq (table : HashMap) (startId : Nat) :
    prepareNewId table startId =
      { startId := startId + table.length
        convert := (table.map Prod.fst).zipIdx startId
        roleEdge := (table.map keyRow).flatten
        roleVertex := (Csr.startsFrom 0 (table.map keyRow)).map toDtype
        curVOffset := 2 * table.length } := by
  rw [prepareNewId, foldl_prepareEntry]
  simp

theorem prepareAll_getElem? (startId : Nat) (tables : List HashMap) (b : Nat) :
    (prepareAll startId tables)[b]? = tables[b]?.map fun table =>
      (table, prepareNewId table (startId + (tables.take b).flatten.length)) := by
  induction tables generalizing startId b with
  | nil => simp [prepareAll]
  | cons table tables ih =>
    cases b with
    | zero => simp [prepareAll]
    | succ b =>
      rw [prepareAll, List.getElem?_cons_succ, ih, List.getElem?_cons_succ, List.take_succ_cons,
        List.flatten_cons, List.length_append, Nat.add_assoc]

/-- The pairs of all tables, in the order of their ids. -/
def newPairs (tables : List HashMap) : List (Int × Int) :=
  tables.flatten.map fun kv => pairOfKey kv.1

/-- The tables that count the pairs `hist`, in some order: each has the frequent keys of its
bucket. -/
structure Counted (hist : List (Int × Int)) (tables : List HashMap) : Prop where
  length : tables.length = threadNum
  nodup : ∀ table ∈ tables, (table.map Prod.fst).Nodup
  mem : ∀ (b : Nat) (table : HashMap), tables[b]? = some table →
    ∀ k, k ∈ table.map Prod.fst ↔ threshold ≤ (bucketKeys hist b).count k

theorem threadId_lt (x : Int) : threadId x < threadNum := by
  have hth : threadNum = 40 := rfl
  unfold threadId
  rw [hth]
  omega

namespace Counted

variable {hist : List (Int × Int)} {tables : List HashMap}

/-- The keys of a table are those of the frequent pairs that belong there. -/
theorem exists_pair (h : Counted hist tables) {b : Nat} {table : HashMap}
    (hb : tables[b]? = some table) {kv : Nat × Nat} (hkv : kv ∈ table) :
    ∃ p ∈ hist, threadId p.1 = b ∧ kv.1 = pairHash p.1 p.2 := by
  have hth : threshold = 4 := rfl
  have hcount := (h.mem b table hb kv.1).mp (List.mem_map_of_mem hkv)
  exact mem_bucketKeys (List.count_pos_iff.mp (by omega))

/-- A pair has an entry when it is frequent. -/
theorem mem_table (h : Counted hist tables) (hword : WordPairs hist) {x y : Int} (hx : IsWord x)
    (hy : IsWord y) {table : HashMap} (ht : tables[threadId x]? = some table) :
    pairHash x y ∈ table.map Prod.fst ↔ threshold ≤ hist.count (x, y) := by
  rw [h.mem _ table ht, count_bucketKeys hword hx hy]

/-- The new pairs are the frequent ones. -/
theorem mem_newPairs (h : Counted hist tables) (hword : WordPairs hist) {p : Int × Int} :
    p ∈ newPairs tables ↔ threshold ≤ hist.count p := by
  have hth : threshold = 4 := rfl
  unfold newPairs
  rw [List.mem_map]
  constructor
  · rintro ⟨kv, hkv, rfl⟩
    obtain ⟨table, htable, hkv⟩ := List.mem_flatten.mp hkv
    obtain ⟨b, hb⟩ := List.mem_iff_getElem?.mp htable
    obtain ⟨q, hq, rfl, hkey⟩ := h.exists_pair hb hkv
    have hqw := hword q hq
    have hmem := (h.mem_table hword hqw.1 hqw.2 hb).mp (hkey ▸ List.mem_map_of_mem hkv)
    rw [hkey, pairOfKey_pairHash hqw.1 hqw.2]
    exact hmem
  · intro hcount
    have hpw := hword p (List.count_pos_iff.mp (by omega))
    have hlt : threadId p.1 < tables.length := by
      rw [h.length]
      exact threadId_lt p.1
    have hget := List.getElem?_eq_getElem hlt
    obtain ⟨kv, hkv, hkey⟩ := List.mem_map.mp ((h.mem_table hword hpw.1 hpw.2 hget).mpr hcount)
    refine ⟨kv, List.mem_flatten.mpr ⟨_, List.mem_of_getElem? hget, hkv⟩, ?_⟩
    rw [hkey]
    exact pairOfKey_pairHash hpw.1 hpw.2

/-- No pair is new twice. -/
theorem nodup_newPairs (h : Counted hist tables) (hword : WordPairs hist) :
    (newPairs tables).Nodup := by
  have hpair : ∀ (b : Nat) (table : HashMap), tables[b]? = some table → ∀ kv ∈ table,
      threadId (pairOfKey kv.1).1 = b ∧
        kv.1 = pairHash (pairOfKey kv.1).1 (pairOfKey kv.1).2 := by
    intro b table hb kv hkv
    obtain ⟨q, hq, rfl, hkey⟩ := h.exists_pair hb hkv
    have hqw := hword q hq
    rw [hkey, pairOfKey_pairHash hqw.1 hqw.2]
    exact ⟨rfl, rfl⟩
  unfold newPairs
  rw [List.map_flatten, List.nodup_flatten]
  constructor
  · intro l hl
    obtain ⟨table, htable, rfl⟩ := List.mem_map.mp hl
    obtain ⟨b, hb⟩ := List.mem_iff_getElem?.mp htable
    have hkeys := h.nodup table htable
    rw [show (fun kv : Nat × Nat => pairOfKey kv.1) = pairOfKey ∘ Prod.fst from rfl, ← List.map_map]
    refine List.Nodup.map_on ?_ hkeys
    intro k hk k' hk' heq
    obtain ⟨kv, hkv, rfl⟩ := List.mem_map.mp hk
    obtain ⟨kv', hkv', rfl⟩ := List.mem_map.mp hk'
    rw [(hpair b table hb kv hkv).2, (hpair b table hb kv' hkv').2, heq]
  · refine List.pairwise_iff_getElem.mpr fun i j hi hj hij => ?_
    rw [List.length_map] at hi hj
    intro p hp hp'
    rw [List.getElem_map, List.mem_map] at hp hp'
    obtain ⟨kv, hkv, rfl⟩ := hp
    obtain ⟨kv', hkv', heq⟩ := hp'
    have h₁ := (hpair i _ (List.getElem?_eq_getElem hi) kv hkv).1
    have h₂ := (hpair j _ (List.getElem?_eq_getElem hj) kv' hkv').1
    rw [heq, h₁] at h₂
    omega

/-- The id that `replace` finds for a pair. -/
theorem findId_eq (h : Counted hist tables) (hword : WordPairs hist) (startId : Nat) {x y : Int}
    (hx : IsWord x) (hy : IsWord y) :
    findId (prepareAll startId tables) x y =
      (pairId startId (newPairs tables) x y).map wrapInt := by
  have hlt : threadId x < tables.length := by
    rw [h.length]
    exact threadId_lt x
  have hget := List.getElem?_eq_getElem hlt
  have htable := h.mem_table hword hx hy hget
  generalize tables[threadId x] = table at hget htable
  unfold findId
  rw [prepareAll_getElem?, hget, Option.map_some]
  dsimp only
  by_cases hmem : pairHash x y ∈ table.map Prod.fst
  · obtain ⟨j, hj⟩ := List.mem_iff_getElem?.mp hmem
    -- the pair stands behind the tables before and the keys before
    have hnew : (newPairs tables)[(tables.take (threadId x)).flatten.length + j]? = some (x, y) := by
      have hsplit : tables.flatten = (tables.take (threadId x)).flatten ++
          (table ++ (tables.drop (threadId x + 1)).flatten) := by
        conv_lhs => rw [← List.take_append_drop (threadId x) tables]
        rw [List.flatten_append, List.drop_eq_getElem_cons hlt, List.flatten_cons,
          Option.some_inj.mp ((List.getElem?_eq_getElem hlt).symm.trans hget)]
      have hjlt : j < table.length := by
        have := (List.getElem?_eq_some_iff.mp hj).1
        rwa [List.length_map] at this
      rw [List.getElem?_map] at hj
      unfold newPairs
      rw [List.getElem?_map, hsplit, List.getElem?_append_right (by omega), Nat.add_sub_cancel_left,
        List.getElem?_append_left hjlt]
      obtain ⟨kv, hkv, hkey⟩ := Option.map_eq_some_iff.mp hj
      rw [hkv, Option.map_some, hkey, pairOfKey_pairHash hx hy]
    have hkeys := h.nodup table (List.mem_of_getElem? hget)
    have hconvert : ((table.map Prod.fst).zipIdx
        (startId + (tables.take (threadId x)).flatten.length)).lookup (pairHash x y) =
        some (startId + (tables.take (threadId x)).flatten.length + j) := by
      refine lookup_of_mem ?_ ?_
      · rw [List.zipIdx_map_fst]
        exact hkeys
      · refine List.mem_iff_getElem?.mpr ⟨j, ?_⟩
        rw [List.getElem?_zipIdx, hj]
        rfl
    rw [if_pos (isSome_lookup.mpr hmem), prepareNewId_eq, hconvert, Option.getD_some,
      pairId_of_getElem? (h.nodup_newPairs hword) hnew, Option.map_some, Nat.add_assoc]
    push_cast
    rfl
  · have hnot : (x, y) ∉ newPairs tables := by
      rwa [h.mem_newPairs hword, ← htable]
    rw [if_neg (by rwa [isSome_lookup]), pairId_eq_none hnot, Option.map_none]

end Counted

/-- What a turn makes of its buckets, for every order of iteration. -/
theorem counted_processpairs {hist : List (Int × Int)} {order : Nat → HashMap → HashMap}
    (horder : ∀ b table, (order b table).Perm table) :
    Counted hist ((List.range threadNum).map fun b =>
      order b (processpairs (bucketKeys hist b) [])) where
  length := by rw [List.length_map, List.length_range]
  nodup table htable := by
    obtain ⟨b, -, rfl⟩ := List.mem_map.mp htable
    exact ((horder b _).map _).nodup_iff.mpr (processpairs_keys _).1
  mem b table hb k := by
    rw [List.getElem?_map] at hb
    obtain ⟨b', hb', rfl⟩ := Option.map_eq_some_iff.mp hb
    obtain rfl : b' = b := by
      have := (List.getElem?_eq_some_iff.mp hb').2
      rwa [List.getElem_range, eq_comm] at this
    rw [((horder b' _).map _).mem_iff]
    exact (processpairs_keys _).2 k

end Laconic.Parallel

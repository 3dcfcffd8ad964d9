import Laconic.Lib.Threads
import Laconic.Parallel.Tables

/-!
# The phases of a turn, thread by thread

A turn starts 40 threads three times: to count the pairs of a bucket, to give ids to the pairs of a
table, and to rewrite a block.  Here every access of a thread to a shared table is an action of its
own, and the actions of the threads follow each other in any order.

A thread that counts and a thread that gives ids have tables of their own.  The threads that rewrite
share all tables, and look ids up with `operator[]`, which inserts a key that is not there.  Every key
they look up is there, so nothing is ever inserted.
-/

namespace Laconic.Parallel

open Threads

/-! ## A vector with one element for each thread -/

section Slots

variable {α β : Type} {idx : Fin threadNum}

/-- A thread reads its own element. -/
def load (idx : Fin threadNum) (f : α → β) : Prog (Fin threadNum → α) β :=
  Prog.atomic fun v => (v, f (v idx))

/-- A thread changes its own element. -/
def store (idx : Fin threadNum) (f : α → α) : Prog (Fin threadNum → α) Unit :=
  Prog.atomic fun v => (Function.update v idx (f (v idx)), ())

/-- What a thread does alone to its own element. -/
def Does (idx : Fin threadNum) (p : Prog (Fin threadNum → α) β) (a : α) (b : β) (a' : α) : Prop :=
  ∃ k, Alone (fun v => v idx) (Keeps (fun i v => v i) idx) k p a b a'

theorem does_pure (a : α) (b : β) : Does idx (pure b) a b a := ⟨0, .done⟩

theorem does_load (f : α → β) (a : α) : Does idx (load idx f) a (f a) a := by
  refine ⟨1, Alone.atomic fun v hv => ⟨hv, ?_, fun j _ => rfl⟩⟩
  show f (v idx) = f a
  rw [hv]

theorem does_store (f : α → α) (a : α) : Does idx (store idx f) a () (f a) := by
  refine ⟨1, Alone.atomic fun v hv => ⟨?_, rfl, fun j hj => Function.update_of_ne hj _ _⟩⟩
  show Function.update v idx (f (v idx)) idx = f a
  rw [Function.update_self, hv]

theorem Does.bind {γ : Type} {p : Prog (Fin threadNum → α) β} {f : β → Prog (Fin threadNum → α) γ}
    {a a₁ a₂ : α} {b : β} {c : γ} (hp : Does idx p a b a₁) (hf : Does idx (f b) a₁ c a₂) :
    Does idx (p >>= f) a c a₂ := by
  obtain ⟨k, hk⟩ := hp
  obtain ⟨m, hm⟩ := hf
  exact ⟨k + m, hk.bind hm⟩

/-- A loop over a list that the thread has for itself. -/
theorem does_forM {γ : Type} {body : γ → Prog (Fin threadNum → α) PUnit} {f : α → γ → α}
    (h : ∀ c a, Does idx (body c) a () (f a c)) (l : List γ) (a : α) :
    Does idx (l.forM body) a () (l.foldl f a) := by
  induction l generalizing a with
  | nil => exact does_pure a ()
  | cons c l ih => exact (h c a).bind (ih (f a c))

/-- Threads with elements of their own settle: each element is what its thread makes of it alone. -/
theorem does_settles {p : Fin threadNum → Prog (Fin threadNum → α) PUnit} {v w : Fin threadNum → α}
    (h : ∀ i, Does i (p i) (v i) () (w i)) : Settles (v, p) w fun _ => () := by
  choose k hk using h
  have hiso : Isolated (fun i v => v i) k (fun _ => ()) w (v, p) := hk
  exact hiso.settles fun w' hw' => funext hw'

end Slots

/-! ## Counting -/

section Count

/-- One pair: `find`, then `iter->second++`, a load and a store, or `insert`. -/
def countPairT (idx : Fin threadNum) (pair : Nat) : Prog (Fin threadNum → HashMap) PUnit := do
  let found ← load idx fun table => (table.lookup pair).isSome
  if found then do
    let n ← load idx fun table => (table.lookup pair).getD 0
    store idx fun table => table.map fun kv => if kv.1 = pair then (pair, n + 1) else kv
  else
    store idx fun table => table ++ [(pair, 1)]

/-- The thread that runs `processpairs` on `hash_table[idx]`. -/
def processpairsT (idx : Fin threadNum) (pairs : List Nat) :
    Prog (Fin threadNum → HashMap) PUnit := do
  pairs.forM (countPairT idx)
  store idx fun table => table.filter fun kv => decide (threshold ≤ kv.2)

variable {idx : Fin threadNum}

theorem does_countPair (pair : Nat) (table : HashMap) :
    Does idx (countPairT idx pair) table () (countPair table pair) := by
  refine (does_load _ table).bind ?_
  unfold countPair
  cases hfound : table.lookup pair with
  | none =>
    rw [Option.isSome_none, if_neg Bool.false_ne_true]
    exact does_store _ table
  | some n =>
    rw [Option.isSome_some, if_pos rfl]
    refine (does_load _ table).bind ?_
    rw [hfound]
    exact does_store _ table

theorem does_processpairs (pairs : List Nat) (table : HashMap) :
    Does idx (processpairsT idx pairs) table () (processpairs pairs table) :=
  (does_forM does_countPair pairs table).bind (does_store _ _)

/-- In every order of their actions the counting threads end with the tables of `processpairs`. -/
theorem countPhase_settles (buckets : Buckets) (hashTable : Fin threadNum → HashMap) :
    Settles (hashTable, fun idx : Fin threadNum => processpairsT idx (buckets idx))
      (fun idx : Fin threadNum => processpairs (buckets idx) (hashTable idx)) fun _ => () :=
  does_settles fun idx => does_processpairs (buckets idx) (hashTable idx)

end Count

/-! ## New ids -/

section Prepare

/-- One entry of a table: `insert`, `start_id++` and the three `push_back`s. -/
def prepareEntryT (idx : Fin threadNum) (kv : Nat × Nat) : Prog (Fin threadNum → NewIds) PUnit := do
  let startId ← load idx NewIds.startId
  store idx fun s => { s with convert := s.convert ++ [(kv.1, startId)] }
  store idx fun s => { s with startId := startId + 1 }
  store idx fun s => { s with roleVertex := s.roleVertex ++ [toDtype s.curVOffset] }
  store idx fun s => { s with curVOffset := s.curVOffset + 2 }
  store idx fun s => { s with roleEdge := s.roleEdge ++ [toDtype (kv.1 >>> 32 : Nat)] }
  store idx fun s => { s with roleEdge := s.roleEdge ++ [toDtype kv.1] }

/-- The thread that runs `prepare_new_id` for `table`, in the order of its iteration. -/
def prepareNewIdT (idx : Fin threadNum) (table : HashMap) : Prog (Fin threadNum → NewIds) PUnit :=
  table.forM (prepareEntryT idx)

variable {idx : Fin threadNum}

theorem does_prepareEntry (kv : Nat × Nat) (s : NewIds) :
    Does idx (prepareEntryT idx kv) s () (prepareEntry s kv) := by
  have hentry : prepareEntry s kv = { startId := s.startId + 1
                                      convert := s.convert ++ [(kv.1, s.startId)]
                                      roleEdge := s.roleEdge ++ [toDtype (kv.1 >>> 32 : Nat)] ++
                                        [toDtype kv.1]
                                      roleVertex := s.roleVertex ++ [toDtype s.curVOffset]
                                      curVOffset := s.curVOffset + 2 } := by
    rw [List.append_assoc]
    rfl
  rw [hentry]
  exact (does_load _ s).bind <| (does_store _ _).bind <| (does_store _ _).bind <|
    (does_store _ _).bind <| (does_store _ _).bind <| (does_store _ _).bind (does_store _ _)

/-- In every order of their actions the threads end with the ids of `prepare_new_id`. -/
theorem preparePhase_settles (startId : Fin threadNum → Nat) (hashTable : Fin threadNum → HashMap) :
    Settles (fun idx => ⟨startId idx, [], [], [], 0⟩, fun idx => prepareNewIdT idx (hashTable idx))
      (fun idx => prepareNewId (hashTable idx) (startId idx)) fun _ => () :=
  does_settles fun idx => does_forM does_prepareEntry (hashTable idx) _

end Prepare

/-! ## Rewriting -/

section Replace

/-- `hash_table[table_id].find(hash_value)`. -/
def findT (tableId key : Nat) : Act Tables Bool :=
  ExceptT.lift <| Prog.atomic fun t =>
    (t, match t[tableId]? with
      | none => false
      | some e => (e.1.lookup key).isSome)

/-- `operator[]` puts 0 where there is no such key. -/
def NewIds.access (ids : NewIds) (key : Nat) : NewIds :=
  if (ids.convert.lookup key).isSome then ids
  else { ids with convert := ids.convert ++ [(key, 0)] }

/-- `convert_id[table_id][hash_value]`. -/
def accessT (tableId key : Nat) : Act Tables Nat :=
  ExceptT.lift <| Prog.atomic fun t =>
    (t.modify tableId fun e => (e.1, e.2.access key),
      match t[tableId]? with
      | none => 0
      | some e => (e.2.convert.lookup key).getD 0)

def findIdT (x y : Int) : Act Tables (Option Int) := do
  let found ← findT (threadId x) (pairHash x y)
  if found then do
    let id ← accessT (threadId x) (pairHash x y)
    pure (some (wrapInt id))
  else pure none

def scanStepT (edge : Block Int) (s : Replace) : Act Tables Replace := do
  let x ← own (edge.read s.idx)
  let y ← own (edge.read (s.idx + 1))
  let found ← findIdT x y
  own <| match found with
    | some id => do
      let idx ← checkInt (s.idx + 1)
      let vsize ← checkInt (s.vsize + 1)
      let idx ← checkInt (idx + 1)
      pure { s with idx := idx, vsize := vsize, edges := s.edges ++ [id] }
    | none => do
      let vsize ← checkInt (s.vsize + 1)
      let idx ← checkInt (s.idx + 1)
      pure { s with idx := idx, vsize := vsize, edges := s.edges ++ [x] }

def replaceRowT (edge : Block Int) (more left : Int → Bool) (start last : Int) (s : Replace) :
    Act Tables Replace := do
  let s ← whileLoop (fun s : Replace => pure (more s.idx)) (scanStepT edge)
    (edge.size.toNat + 2) { s with idx := start, vertices := s.vertices ++ [s.vsize] }
  if left s.idx then
    own do
      let x ← edge.read last
      let vsize ← checkInt (s.vsize + 1)
      pure { s with vsize := vsize, edges := s.edges ++ [x] }
  else pure s

/-- The thread that runs `replace` on a block. -/
def replaceT (vertices edges : List Int) : Act Tables Replace := do
  let offset ← own ((Block.ofList vertices).read 0)
  let vertices ← own (vertices.mapM fun x => checkInt (x - offset))
  let vertex := Block.ofList vertices
  let edge := Block.ofList edges
  let s ← forLoop (fun vidx s => do
    let start ← own (vertex.read vidx)
    let stop ← own (vertex.read (vidx + 1))
    replaceRowT edge (fun idx => decide (idx < stop - 1)) (fun idx => decide (idx < stop))
      start (stop - 1) s) (vertices.length - 1) 0 ⟨0, 0, [], []⟩
  let start ← own (vertex.read (vertices.length - 1))
  replaceRowT edge (fun idx => decide (toSize idx < toSize (edges.length - 1)))
    (fun idx => decide (toSize idx < edges.length)) start (edges.length - 1) s

/-- Every pair of a table has got an id. -/
def Converted (t : Tables) : Prop :=
  ∀ e ∈ t, ∀ key, (e.1.lookup key).isSome → (e.2.convert.lookup key).isSome

variable {t : Tables}

/-- Nothing is inserted for a key that is there. -/
theorem modify_access {b key : Nat} (h : ∀ e, t[b]? = some e → (e.2.convert.lookup key).isSome) :
    (t.modify b fun e => (e.1, e.2.access key)) = t := by
  apply List.ext_getElem?
  intro i
  rw [List.getElem?_modify]
  by_cases hi : b = i
  · subst hi
    cases he : t[b]? with
    | none => rfl
    | some e =>
      have haccess : e.2.access key = e.2 := if_pos (h e he)
      simp [haccess]
  · simp [hi]

/-- A key that `find` has found is there when `operator[]` looks for it. -/
theorem reads_findId (h : Converted t) (x y : Int) :
    Reads t (findIdT x y) (.ok (findId t x y)) := by
  unfold findId
  cases htable : t[threadId x]? with
  | none =>
    have hfind : Reads t (findT (threadId x) (pairHash x y)) (.ok false) :=
      reads_atomic (by rw [htable])
    exact hfind.bind_ok (reads_pure none)
  | some e =>
    have hfind : Reads t (findT (threadId x) (pairHash x y))
        (.ok (e.1.lookup (pairHash x y)).isSome) := reads_atomic (by rw [htable])
    refine hfind.bind_ok ?_
    dsimp only
    by_cases hfound : (e.1.lookup (pairHash x y)).isSome
    · have hthere : (e.2.convert.lookup (pairHash x y)).isSome :=
        h e (List.mem_of_getElem? htable) _ hfound
      have haccess : Reads t (accessT (threadId x) (pairHash x y))
          (.ok ((e.2.convert.lookup (pairHash x y)).getD 0)) := by
        refine reads_atomic ?_
        rw [modify_access fun e' he' => Option.some_inj.mp (htable.symm.trans he') ▸ hthere, htable]
      rw [if_pos hfound, if_pos hfound]
      exact haccess.bind_ok (reads_pure _)
    · rw [if_neg hfound, if_neg hfound]
      exact reads_pure none

theorem reads_scanStep (h : Converted t) (edge : Block Int) (s : Replace) :
    Reads t (scanStepT edge s) (scanStep t edge s) := by
  unfold scanStep
  refine (reads_own _).bind fun x => (reads_own _).bind fun y => ?_
  refine (reads_findId h x y).bind_ok ?_
  exact reads_own _

theorem reads_replaceRow (h : Converted t) (edge : Block Int) (more left : Int → Bool)
    (start last : Int) (s : Replace) :
    Reads t (replaceRowT edge more left start last s) (replaceRow t edge more left start last s) := by
  unfold replaceRow
  refine (reads_whileLoop (reads_scanStep h edge) _ _).bind fun s => ?_
  exact reads_ite (reads_own _) (reads_pure s)

/-- A thread that rewrites a block does what `replace` does, and writes nothing. -/
theorem reads_replace (h : Converted t) (vertices edges : List Int) :
    Reads t (replaceT vertices edges) (replace t vertices edges) := by
  unfold replace
  refine (reads_own _).bind fun offset => (reads_own _).bind fun vertices => ?_
  refine (reads_forLoop (fun vidx s => ?_) _ _ _).bind fun s => ?_
  · refine (reads_own _).bind fun start => (reads_own _).bind fun stop => ?_
    exact reads_replaceRow h _ _ _ _ _ s
  · exact (reads_own _).bind fun start => reads_replaceRow h _ _ _ _ _ s

/-- The tables of a turn have an id for every pair. -/
theorem converted_prepareAll (startId : Nat) (tables : List HashMap) :
    Converted (prepareAll startId tables) := by
  rintro e he key hkey
  obtain ⟨b, hb⟩ := List.mem_iff_getElem?.mp he
  rw [prepareAll_getElem?] at hb
  obtain ⟨table, -, rfl⟩ := Option.map_eq_some_iff.mp hb
  rw [prepareNewId_eq, isSome_lookup, List.zipIdx_map_fst]
  exact isSome_lookup.mp hkey

/-- In every order of their actions the threads of `replace` return what they return alone. -/
theorem replacePhase_settles (startId : Nat) (hashTable : List HashMap)
    (blocks : Fin threadNum → List Int × List Int) :
    Settles (prepareAll startId hashTable, fun idx => (replaceT (blocks idx).1 (blocks idx).2).run)
      (prepareAll startId hashTable)
      fun idx => replace (prepareAll startId hashTable) (blocks idx).1 (blocks idx).2 := by
  have : Nonempty (Fin threadNum) := ⟨⟨0, by decide⟩⟩
  exact reads_settles fun idx => reads_replace (converted_prepareAll startId hashTable) _ _

/-- The tables that the threads of `replace` share are never written, not even by `operator[]`; a
thread that has returned has rewritten its block as if it had been alone. -/
theorem replacePhase_never_writes {startId : Nat} {hashTable : List HashMap}
    {blocks : Fin threadNum → List Int × List Int} {n : Nat}
    {c : Config (Fin threadNum) Tables (Except Fault Replace)}
    (hrun : Steps n (prepareAll startId hashTable,
      fun idx => (replaceT (blocks idx).1 (blocks idx).2).run) c) :
    c.1 = prepareAll startId hashTable ∧ ∀ idx out, c.2 idx = .done out →
      out = replace (prepareAll startId hashTable) (blocks idx).1 (blocks idx).2 :=
  reads_steps (fun _ => reads_replace (converted_prepareAll startId hashTable) _ _) hrun

/-- The first thread has found the pair of its block and its id. -/
theorem replacePhase_never_writes_found : ∃ c,
    Steps 2 (prepareAll 10 [[], [(pairHash 1 2, 4)]],
      fun _ : Fin threadNum => (replaceT [0] [1, 2]).run) c ∧
    c.1 = prepareAll 10 [[], [(pairHash 1 2, 4)]] := by
  have hrun : ∃ c, Steps 2 (prepareAll 10 [[], [(pairHash 1 2, 4)]],
      fun _ : Fin threadNum => (replaceT [0] [1, 2]).run) c :=
    ⟨_, .tail (.tail .refl (.act ⟨0, by decide⟩ rfl)) (.act ⟨0, by decide⟩ rfl)⟩
  obtain ⟨c, hc⟩ := hrun
  have hsafe := @replacePhase_never_writes 10 _ (fun _ => ([0], [1, 2])) 2 c hc
  exact ⟨c, hc, hsafe.1⟩

end Replace

/-! ## Turns -/

section Turn

/-- `new_start_id`, computed before the threads start. -/
def newStartId (first : Nat) (hashTable : Fin threadNum → HashMap) : Nat → Nat
  | 0 => first
  | idx + 1 => newStartId first hashTable idx +
      if h : idx < threadNum then (hashTable ⟨idx, h⟩).length else 0

/-- The new graph, when all threads are joined. -/
def joinTurn (buckets : Buckets) (tables : Tables) (outs : List Replace) : State :=
  let csr := (outs.map fun out => (out.vertices, out.edges)).foldl appendRows ([], [])
  let csr := (tables.map fun t => (t.2.roleVertex, t.2.roleEdge)).foldl appendRows csr
  let inputVertex := csr.1 ++ [toDtype csr.2.length]
  ⟨inputVertex, csr.2, toDtype (inputVertex.length - 2), buckets⟩

/-- A turn without a fault, whose threads acted in some order. -/
inductive ThreadedTurn (order : Order) (lenVertex turn : Nat) (s : State) : State → Prop
  | joined {buckets : Buckets} {hashTable : Fin threadNum → HashMap} {ids : Fin threadNum → NewIds}
      {blocks : List (List Int × List Int)} {tables : Tables} {outs : Fin threadNum → Replace}
      (collect : collectPairs s.inputVertex s.inputEdge s.pairBuckets = .ok buckets)
      (count : Returns (fun _ => [], fun idx : Fin threadNum => processpairsT idx (buckets idx))
        hashTable fun _ => ())
      (prepare : Returns
        (fun idx => ⟨newStartId (toDtype (s.maxId + 1)).toNat
          (fun idx => order turn idx (hashTable idx)) idx, [], [], [], 0⟩,
          fun idx => prepareNewIdT idx (order turn idx (hashTable idx)))
        ids fun _ => ())
      (split : splitBlocks lenVertex s.inputVertex s.inputEdge = .ok blocks)
      (rewrite : Returns
        (List.ofFn fun idx => (order turn idx (hashTable idx), ids idx),
          fun idx : Fin threadNum =>
            (replaceT (blocks.getD idx ([], [])).1 (blocks.getD idx ([], [])).2).run)
        tables fun idx => .ok (outs idx)) :
      ThreadedTurn order lenVertex turn s (joinTurn buckets tables (List.ofFn outs))

theorem newStartId_eq (first : Nat) (hashTable : Fin threadNum → HashMap) (b : Nat)
    (hb : b ≤ threadNum) : newStartId first hashTable b =
      first + ((List.ofFn hashTable).take b).flatten.length := by
  induction b with
  | zero => rfl
  | succ b ih =>
    have hlt : b < (List.ofFn hashTable).length := by
      rw [List.length_ofFn]
      exact hb
    rw [newStartId, ih (by omega), dif_pos (show b < threadNum from hb), List.take_succ_eq_append_getElem hlt,
      List.flatten_append, List.length_append, List.getElem_ofFn, List.flatten_singleton, Nat.add_assoc]

theorem prepareAll_ofFn (first : Nat) (hashTable : Fin threadNum → HashMap) :
    (List.ofFn fun idx => (hashTable idx, prepareNewId (hashTable idx)
      (newStartId first hashTable idx))) = prepareAll first (List.ofFn hashTable) := by
  apply List.ext_getElem?
  intro b
  rw [prepareAll_getElem?]
  by_cases hb : b < threadNum
  · rw [List.getElem?_ofFn, List.getElem?_ofFn, dif_pos hb, dif_pos hb, Option.map_some,
      newStartId_eq first hashTable b (by omega)]
  · rw [List.getElem?_ofFn, List.getElem?_ofFn, dif_neg hb, dif_neg hb, Option.map_none]

theorem ofFn_range {α : Type} (f : Nat → α) (n : Nat) :
    (List.ofFn fun idx : Fin n => f idx) = (List.range n).map f := by
  apply List.ext_getElem?
  intro b
  by_cases hb : b < n <;> simp [hb]

theorem mapM_getD {α β : Type} {f : α → Run β} {l : List α} {n : Nat} (hlen : l.length = n) (d : α)
    (outs : Fin n → β) :
    l.mapM f = .ok (List.ofFn outs) ↔ ∀ idx : Fin n, f (l.getD idx d) = .ok (outs idx) := by
  subst hlen
  rw [Run.mapM_eq_ok, List.forall₂_iff_get]
  constructor
  · rintro ⟨-, h⟩ idx
    have hidx := h idx idx.isLt (by simp)
    simpa using hidx
  · intro h
    refine ⟨by simp, fun i hi hi' => ?_⟩
    have hidx := h ⟨i, hi⟩
    simpa [hi] using hidx

variable {order : Order} {lenVertex turn : Nat} {s s' : State}

theorem length_splitBlocks {vertex edge : List Int} {blocks : List (List Int × List Int)}
    (h : splitBlocks lenVertex vertex edge = .ok blocks) : blocks.length = threadNum :=
  (Run.mapM_range h).1

/-- The tables of a turn. -/
def joinTables (order : Order) (turn : Nat) (s : State) (buckets : Buckets) : Tables :=
  prepareAll (toDtype (s.maxId + 1)).toNat
    (List.ofFn fun idx : Fin threadNum => order turn idx (processpairs (buckets idx) []))

/-- What a turn without a fault does. -/
theorem repairTurn_eq_ok : repairTurn order lenVertex turn s = .ok s' ↔ ∃ buckets blocks outs,
    collectPairs s.inputVertex s.inputEdge s.pairBuckets = .ok buckets ∧
    splitBlocks lenVertex s.inputVertex s.inputEdge = .ok blocks ∧
    (blocks.mapM fun block => replace (joinTables order turn s buckets) block.1 block.2) = .ok outs ∧
    joinTurn buckets (joinTables order turn s buckets) outs = s' := by
  have htables : ∀ buckets, collectPairs s.inputVertex s.inputEdge s.pairBuckets = .ok buckets →
      turnTables order turn s = .ok (buckets, joinTables order turn s buckets) := by
    intro buckets hcollect
    unfold turnTables joinTables
    rw [hcollect, ofFn_range fun b => order turn b (processpairs (buckets b) [])]
    rfl
  unfold repairTurn
  constructor
  · intro h
    obtain ⟨r, hr, h⟩ := Run.bind_eq_ok.mp h
    obtain ⟨buckets, hcollect, -⟩ := Run.bind_eq_ok.mp hr
    obtain rfl := Except.ok.inj ((htables buckets hcollect).symm.trans hr)
    obtain ⟨blocks, hsplit, h⟩ := Run.bind_eq_ok.mp h
    obtain ⟨outs, houts, h⟩ := Run.bind_eq_ok.mp h
    exact ⟨buckets, blocks, outs, hcollect, hsplit, houts, Except.ok.inj h⟩
  · rintro ⟨buckets, blocks, outs, hcollect, hsplit, houts, rfl⟩
    rw [htables buckets hcollect, Run.ok_bind, hsplit, Run.ok_bind, houts]
    rfl

/-- In whatever order its threads act, a turn ends as the turn that runs them one after the other. -/
theorem threadedTurn_iff : ThreadedTurn order lenVertex turn s s' ↔
    repairTurn order lenVertex turn s = .ok s' := by
  rw [repairTurn_eq_ok]
  constructor
  · rintro @⟨buckets, hashTable, ids, blocks, tables, outs, collect, count, prepare, split, rewrite⟩
    obtain ⟨rfl, -⟩ := (countPhase_settles buckets fun _ => []).returns_iff.mp count
    obtain ⟨rfl, -⟩ := (preparePhase_settles _ _).returns_iff.mp prepare
    rw [prepareAll_ofFn] at rewrite
    obtain ⟨rfl, houts⟩ := (replacePhase_settles _ _ fun idx : Fin threadNum =>
      blocks.getD idx ([], [])).returns_iff.mp rewrite
    refine ⟨buckets, blocks, List.ofFn outs, collect, split, ?_, rfl⟩
    exact (mapM_getD (length_splitBlocks split) ([], []) outs).mpr
      fun idx => (congrFun houts idx).symm
  · rintro ⟨buckets, blocks, outs, hcollect, hsplit, houts, rfl⟩
    have hlen := length_splitBlocks hsplit
    obtain ⟨out, rfl⟩ : ∃ out : Fin threadNum → Replace, outs = List.ofFn out := by
      have hlen' : threadNum = outs.length := by
        rw [← (List.forall₂_iff_get.mp (Run.mapM_eq_ok.mp houts)).1, hlen]
      rw [hlen']
      exact ⟨outs.get, (List.ofFn_get outs).symm⟩
    refine .joined hcollect ((countPhase_settles buckets fun _ => []).returns_iff.mpr ⟨rfl, rfl⟩)
      ((preparePhase_settles _ _).returns_iff.mpr ⟨rfl, rfl⟩) hsplit ?_
    rw [prepareAll_ofFn]
    refine (replacePhase_settles _ _ fun idx : Fin threadNum =>
      blocks.getD idx ([], [])).returns_iff.mpr ⟨rfl, funext fun idx => ?_⟩
    exact ((mapM_getD hlen ([], []) out).mp houts idx).symm

/-- The first `n` turns, whose threads acted in some order. -/
def ThreadedTurns (order : Order) (lenVertex : Nat) : Nat → State → State → Prop
  | 0, s, s' => s = s'
  | n + 1, s, s' =>
    ∃ s₁, ThreadedTurns order lenVertex n s s₁ ∧ ThreadedTurn order lenVertex (n + 1) s₁ s'

theorem threadedTurns_iff (n : Nat) : ThreadedTurns order lenVertex n s s' ↔
    repairTurns order lenVertex n s = .ok s' := by
  induction n generalizing s' with
  | zero => exact ⟨fun h => congrArg Except.ok h, Except.ok.inj⟩
  | succ n ih =>
    rw [repairTurns, Run.bind_eq_ok]
    exact exists_congr fun s₁ => and_congr ih threadedTurn_iff

/-- The constructor of `Repair`, whose threads acted in some order, came to the graph `s`. -/
def ThreadedRepair (order : Order) (vertex edge : List Int) (maxSymbol : Int) (s : State) : Prop :=
  ThreadedTurns order vertex.length compressRate (initialState vertex edge maxSymbol) s

/-- The order in which the threads act has no influence on the compressed graph: it is the one that
the threads produce when they run one after the other. -/
theorem threadedRepair_iff (order : Order) (vertex edge : List Int) (maxSymbol : Int) (s : State) :
    ThreadedRepair order vertex edge maxSymbol s ↔ repair order vertex edge maxSymbol = .ok s :=
  threadedTurns_iff compressRate

end Turn

end Laconic.Parallel

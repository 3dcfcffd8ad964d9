import Laconic.RePair.RepairRun

/-!
# Re-Pair: the representation invariant, read off the data structures

The invariant of `RepairInv` in terms of what the code itself does: the walk over the text that
`repair` and the read-back loop take, the lists that `cpos` and `L` describe, what `searchHash`
returns, and where the heap keeps a record.
-/

namespace Laconic.RePair

open Neighbour Chain

/-- One step over the text: `inter[i+1]` decides, and behind the last cell there is nothing to
read. -/
def stepPos (inter : Block Int) (u i : Int) : Run Int :=
  if i + 1 < u then nextPos inter i else pure (i + 1)

/-- The positions visited in `k` steps from `i`, and the position after them. -/
def walkText (inter : Block Int) (u : Int) : Nat → Int → Run (List Int × Int)
  | 0, i => pure ([], i)
  | k + 1, i => do
    let j ← stepPos inter u i
    let r ← walkText inter u k j
    pure (i :: r.1, r.2)

/-- Node `q` is in the list of the records that occur `f` times, and holds `id`. -/
def InFreqList (H : Theap) (q f id : Int) : Prop :=
  (H.freq.cells q).id = id ∧ (H.ff.cells (H.freq.cells q).fnode).freq = f ∧
    (∃ fs, Seg (fun i => (H.ff.cells i).larger) (fun i => (H.ff.cells i).smaller) H.smallest (-1)
      fs (-1) H.largest ∧ (H.freq.cells q).fnode ∈ fs) ∧
    ∃ qs e, Seg (fun i => (H.freq.cells i).next) (fun i => (H.freq.cells i).prev)
      (H.ff.cells (H.freq.cells q).fnode).elems (-1) qs (-1) e ∧ q ∈ qs

/-- Text, lists, hash table and heap describe the text with the live positions `ps`. -/
structure Represents (R : Repair) (ps : List Int) : Prop where
  /-- `c` steps from 0 visit the live positions and end at `u`. -/
  walk : walkText R.inter R.u R.c.toNat 0 = .ok (ps, R.u)
  live : (ps.length : Int) = R.c ∧ ps.Nodup ∧ ∀ p ∈ ps, 0 ≤ p ∧ p < R.u ∧ 0 ≤ R.inter.cells p
  /-- The backward pointers are the inverse of the walk. -/
  back : ∀ p q, Adj ps p q → antPos R.inter q = .ok p
  /-- The list of a record visits the positions of its pair once each. -/
  lists : ∀ id, R.S.Rec.InB id → ∃ l e,
    Seg (fun i => (R.S.L.cells i).next) (fun i => (R.S.L.cells i).prev) (R.S.Rec.cells id).cpos
      (-id - 1) l (-1) e ∧ l.Nodup ∧
    (∀ p, p ∈ l ↔ labels R.inter ps p = some (R.S.Rec.cells id).pair) ∧
    (R.S.Rec.cells id).freq = l.length ∧ 2 ≤ (R.S.Rec.cells id).freq
  hash : ∀ id, R.S.Rec.InB id → R.S.Hash.table.cells (R.S.Rec.cells id).kpos = id ∧
    searchHash R.S.Hash R.S.Rec (R.S.Rec.cells id).pair = .ok id
  heap : ∀ id, R.S.Rec.InB id →
    if (R.S.Rec.cells id).freq < R.S.Heap.sqrtu then
      (R.S.Heap.infreq.cells (R.S.Rec.cells id).freq).read (R.S.Rec.cells id).hpos = .ok id
    else InFreqList R.S.Heap (R.S.Rec.cells id).hpos (R.S.Rec.cells id).freq id
  /-- A pair without a record occurs once. -/
  single : ∀ p pr, labels R.inter ps p = some pr →
    (∀ id, R.S.Rec.InB id → (R.S.Rec.cells id).pair ≠ pr) →
    (R.S.L.cells p).prev = nullFreq ∧ ∀ q, labels R.inter ps q = some pr → q = p

/-- Walking along the live positions. -/
theorem TextInv.walkText_eq {u : Int} {inter : Block Int} {ps : List Int} (h : TextInv u inter ps)
    (l₁ l : List Int) (p : Int) (hps : ps = l₁ ++ p :: l) :
    walkText inter u (p :: l).length p = .ok (p :: l, u) := by
  induction l generalizing l₁ p with
  | nil =>
    rw [List.length_singleton, walkText, stepPos, h.step_eq hps, Run.ok_bind, walkText,
      Run.pure_bind]
    rfl
  | cons q l ih =>
    rw [List.length_cons, walkText, stepPos, h.step_eq hps, Run.ok_bind, List.headD_cons,
      ih (l₁ ++ [p]) q (by rw [hps]; simp), Run.ok_bind]
    rfl

/-- A node in use is in the list of its frequency. -/
theorem High.inFreqList {H : Theap} {v : Int → Option Int} (h : High H v) {q f : Int}
    (hq : v q = some f) : InFreqList H q f (H.freq.cells q).id := by
  obtain ⟨F, FN, FF, hinv, -, hv⟩ := h
  obtain ⟨hmem, hf⟩ := (hv q f).mp hq
  obtain ⟨x, hx, hqx⟩ := List.mem_flatMap.mp hmem
  have hnode := hinv.fnode x hx q hqx
  obtain ⟨e, hseg⟩ := hinv.elems x hx
  refine ⟨rfl, hf, ⟨_, hinv.chain, ?_⟩, x.2, e, ?_, hqx⟩
  · rw [hnode]
    exact List.mem_map_of_mem hx
  · rw [hnode]
    exact hseg

/-- The heap keeps record `id` in the bucket or in the list of its frequency. -/
def InHeap (H : Theap) (recs : Block Trecord) (id : Int) : Prop :=
  if (recs.cells id).freq < H.sqrtu then
    (H.infreq.cells (recs.cells id).freq).read (recs.cells id).hpos = .ok id
  else InFreqList H (recs.cells id).hpos (recs.cells id).freq id

theorem IndexInv.inHeap {S : PairStore} {lab : Int → Option Tpair} {out : Tpair → Prop} {lo id : Int}
    (h : IndexInv S lab out lo) (hid : S.Rec.InB id) (hno : ¬ out (S.Rec.cells id).pair) :
    InHeap S.Heap S.Rec id := by
  unfold InHeap
  split
  · next hlt =>
    obtain ⟨hin, -, hcell⟩ := h.heap.low id ⟨hid, hno⟩ hlt
    rw [Block.read_eq hin, hcell]
  · next hge =>
    obtain ⟨v, hv, hrecs⟩ := h.heap.high
    obtain ⟨hnode, hback⟩ := hrecs.record id ⟨hid, hno⟩ (by omega)
    have hlist := hv.inFreqList hnode
    rw [hback] at hlist
    exact hlist

theorem RepairInv.represents {R : Repair} {ps : List Int} (h : RepairInv R ps) :
    Represents R ps where
  walk := by
    obtain ⟨l, hps⟩ := List.head?_eq_some_iff.mp h.text.first
    rw [show R.c.toNat = ps.length by have := h.len; omega]
    have := h.text.walkText_eq [] l 0 hps
    rw [← hps] at this
    exact this
  live := ⟨h.len, h.text.nodup, fun p hp =>
    ⟨(h.text.mem_range hp).1, (h.text.mem_range hp).2, h.text.live p hp⟩⟩
  back p q hpq := h.text.antPos_eq hpq
  lists id hid := by
    obtain ⟨l, e, hseg, hnd, hm⟩ := h.index.lists.list id hid
    refine ⟨l, e, hseg, hnd, hm, ?_, h.freq id hid⟩
    rw [h.index.freq id hid not_false, cnt_eq_length hnd hm fun p hp => h.index.range hp]
  hash id hid := ⟨h.index.hash.cell id hid, h.index.hash.searchHash_eq hid⟩
  heap id hid := h.index.inHeap hid not_false
  single p pr hp hno := by
    obtain ⟨hprev, -, hone⟩ := h.index.lists.untracked p pr hp fun ⟨j, hj, he⟩ => hno j hj he
    exact ⟨hprev, hone⟩

/-- After `prepare` and at the head of every iteration of `repair`, for every text of symbols below
`alph` whose last symbol occurs nowhere else. -/
theorem reach_represents {alph : Int} {inter : Block Int} {R : Repair}
    (hcells : ∀ p, 0 ≤ p → p < inter.size → 0 ≤ inter.cells p ∧ inter.cells p < alph)
    (hends : EndsUnique ((slots inter.size).map inter.cells)) (h : Reach alph inter R) :
    ∃ ps, Represents R ps := by
  obtain ⟨ps, hinv, -⟩ := h.repairInv hcells hends.size_pos
  exact ⟨ps, hinv.represents⟩

/-- The text `babac` with its first turn, which replaces `ba`. -/
theorem reach_represents_babac : ∃ R, Reach 3 (Block.ofList [1, 0, 1, 0, 2]) R ∧
    R.rule = [⟨1, 0⟩] ∧ ∃ ps, Represents R ps := by
  have hrun : (prepare 3 (Block.ofList [1, 0, 1, 0, 2]) >>= fun R => repairRound R >>= fun s =>
      pure (s.1, s.2.rule)) = (.ok (true, [⟨1, 0⟩]) : Run (Bool × List Tpair)) := by decide +kernel
  cases hp : prepare 3 (Block.ofList [1, 0, 1, 0, 2]) with
  | error e => rw [hp] at hrun; cases hrun
  | ok R =>
    rw [hp, Run.ok_bind] at hrun
    cases hr : repairRound R with
    | error e => rw [hr] at hrun; cases hrun
    | ok s =>
      obtain ⟨b, R'⟩ := s
      rw [hr, Run.ok_bind] at hrun
      injection hrun with hrun
      injection hrun with hb hrule
      dsimp only at hb hrule
      subst hb
      have hreach := Reach.turn (Reach.prepared hp) hr
      refine ⟨R', hreach, hrule, reach_represents (fun p h0 h1 => ?_) ⟨2, by decide, by decide⟩ hreach⟩
      have hsize : p < 5 := h1
      obtain rfl | rfl | rfl | rfl | rfl : p = 0 ∨ p = 1 ∨ p = 2 ∨ p = 3 ∨ p = 4 := by omega
      all_goals decide

end Laconic.RePair

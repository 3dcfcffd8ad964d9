import Mathlib.Logic.Function.Basic
import Mathlib.Data.List.Nodup
import Laconic.Lib.Chain
import Laconic.RePair.Records

/-!
# Re-Pair: the occurrence lists

`lab` gives the pair at each text position that has a successor.  `ListInv recs L lab`: for every
record the list from `cpos` through `next` visits exactly the positions with its pair, each once,
`prev` leads back, and the head has `prev = -id-1`; a position whose pair has no record is the only
one with that pair and has `prev = NullFreq`.
-/

namespace Laconic.RePair

open Chain

/-- The list of record `id` visits exactly the positions that carry its pair. -/
def OccList (recs : Block Trecord) (L : Block Tlist) (lab : Int → Option Tpair) (id : Int) :
    Prop :=
  ∃ l e, Seg (fun i => (L.cells i).next) (fun i => (L.cells i).prev) (recs.cells id).cpos
      (-id - 1) l (-1) e ∧
    l.Nodup ∧ ∀ p, p ∈ l ↔ lab p = some (recs.cells id).pair

/-- The pair has a record. -/
def HasRec (recs : Block Trecord) (pr : Tpair) : Prop :=
  ∃ id, recs.InB id ∧ (recs.cells id).pair = pr

theorem hasRec_congr {recs recs' : Block Trecord} (hsize : recs'.size = recs.size)
    (hpair : ∀ j, (recs'.cells j).pair = (recs.cells j).pair) (pr : Tpair) :
    HasRec recs' pr ↔ HasRec recs pr := by
  unfold HasRec
  simp only [Block.inB_congr hsize, hpair]

structure ListInv (recs : Block Trecord) (L : Block Tlist) (lab : Int → Option Tpair) :
    Prop where
  range : ∀ p pr, lab p = some pr → 0 ≤ p ∧ p + 1 < L.size
  inj : ∀ id id', recs.InB id → recs.InB id' →
    (recs.cells id).pair = (recs.cells id').pair → id = id'
  list : ∀ id, recs.InB id → OccList recs L lab id
  untracked : ∀ p pr, lab p = some pr → ¬ HasRec recs pr →
    (L.cells p).prev = nullFreq ∧ (L.cells p).next = -1 ∧ ∀ q, lab q = some pr → q = p

namespace ListInv

variable {recs recs' : Block Trecord} {L L' : Block Tlist} {lab : Int → Option Tpair}
  {id i : Int} {pr : Tpair}

theorem inB_of_lab (h : ListInv recs L lab) (hi : lab i = some pr) : L.InB i := by
  have := h.range i pr hi
  exact ⟨this.1, by omega⟩

/-- A list stays when it starts at the same place and nothing is written at its positions. -/
theorem OccList.congr {lab' : Int → Option Tpair} (h : OccList recs L lab id)
    (hcpos : (recs'.cells id).cpos = (recs.cells id).cpos)
    (hpair : (recs'.cells id).pair = (recs.cells id).pair)
    (hL : ∀ q, lab q = some (recs.cells id).pair →
      (L'.cells q).next = (L.cells q).next ∧ (L'.cells q).prev = (L.cells q).prev)
    (hlab : ∀ q, lab' q = some (recs.cells id).pair ↔ lab q = some (recs.cells id).pair) :
    OccList recs' L' lab' id := by
  obtain ⟨l, e, hs, hnd, hm⟩ := h
  refine ⟨l, e, ?_, hnd, fun p => ?_⟩
  · rw [hcpos]
    exact hs.congr (fun q hq => (hL q ((hm q).mp hq)).1) fun q hq => (hL q ((hm q).mp hq)).2
  · rw [hpair, hlab]
    exact hm p

theorem eq_some_of_update_none {p : Int} (h : Function.update lab i none p = some pr) :
    lab p = some pr := by
  by_cases hpi : p = i
  · rw [hpi, Function.update_self] at h
    simp at h
  · rwa [Function.update_of_ne hpi] at h

/-- Only the pair of a position is touched when the position changes its pair. -/
theorem update_eq_some_iff {o : Option Tpair} {p : Int} (ho : o ≠ some pr) (hi : lab i ≠ some pr) :
    Function.update lab i o p = some pr ↔ lab p = some pr := by
  by_cases hpi : p = i
  · rw [hpi, Function.update_self]
    exact iff_of_false ho hi
  · rw [Function.update_of_ne hpi]

/-- The lists read `pair` and `cpos` of the records only. -/
theorem congr (h : ListInv recs L lab) (hsize : recs'.size = recs.size)
    (hpair : ∀ j, (recs'.cells j).pair = (recs.cells j).pair)
    (hcpos : ∀ j, (recs'.cells j).cpos = (recs.cells j).cpos) : ListInv recs' L lab := by
  have hin := Block.inB_congr hsize
  refine ⟨h.range, fun a b ha hb he => ?_, fun j hj => ?_, fun p pr hp hno => ?_⟩
  · rw [hpair, hpair] at he
    exact h.inj a b ((hin a).mp ha) ((hin b).mp hb) he
  · exact OccList.congr (h.list j ((hin j).mp hj)) (hcpos j) (hpair j) (fun _ _ => ⟨rfl, rfl⟩)
      fun _ => Iff.rfl
  · rw [hasRec_congr hsize hpair] at hno
    exact h.untracked p pr hp hno

/-- A position that no list visits gives up its pair. -/
theorem forget (h : ListInv recs L lab) (hi : lab i = some pr) (hno : ¬ HasRec recs pr) :
    ListInv recs L (Function.update lab i none) := by
  refine ⟨fun p pr' hp => h.range p pr' (eq_some_of_update_none hp), h.inj, fun j hj => ?_,
    fun p pr' hp hno' => ?_⟩
  · refine OccList.congr (h.list j hj) rfl rfl (fun _ _ => ⟨rfl, rfl⟩) fun q => ?_
    apply update_eq_some_iff (by simp)
    rw [hi, ne_eq, Option.some_inj]
    exact fun he => hno ⟨j, hj, he.symm⟩
  · obtain ⟨h₁, h₂, h₃⟩ := h.untracked p pr' (eq_some_of_update_none hp) hno'
    exact ⟨h₁, h₂, fun q hq => h₃ q (eq_some_of_update_none hq)⟩

/-- The list of a record after one of its positions was taken out. -/
theorem OccList.unlink (h : OccList recs L lab id)
    (hge : ∀ q, lab q = some (recs.cells id).pair → 0 ≤ q) (hid : 0 ≤ id)
    (hi : lab i = some (recs.cells id).pair)
    (hpair : (recs'.cells id).pair = (recs.cells id).pair)
    (hcpos : (recs'.cells id).cpos = if (L.cells i).prev < 0 then (L.cells i).next
      else (recs.cells id).cpos)
    (hnext : ∀ q, 0 ≤ q → (L'.cells q).next = if q = (L.cells i).prev then (L.cells i).next
      else (L.cells q).next)
    (hprev : ∀ q, 0 ≤ q → (L'.cells q).prev = if q = (L.cells i).next then (L.cells i).prev
      else (L.cells q).prev) :
    OccList recs' L' (Function.update lab i none) id := by
  obtain ⟨l, e, hs, hnd, hm⟩ := h
  obtain ⟨l₁, l₂, rfl⟩ := List.append_of_mem ((hm i).mpr hi)
  have hge' : ∀ q ∈ l₁ ++ l₂, 0 ≤ q := by
    intro q hq
    apply hge q ((hm q).mp _)
    rw [List.perm_middle.mem_iff]
    exact List.mem_cons_of_mem _ hq
  have hu := hs.unlink (fun i => (L'.cells i).next) (fun i => (L'.cells i).prev)
    hnd (fun hb => by have := hge' _ hb; omega) (fun ht => by have := hge' _ ht; omega)
    (fun q hq => hnext q (hge' q hq)) (fun q hq => hprev q (hge' q hq))
  -- only the head of the list has a negative `prev`
  have hback : (L.cells i).prev < 0 ↔ (L.cells i).prev = -id - 1 := by
    constructor
    · intro hlt
      exact hs.pv_mem_or.resolve_right fun hmem => by
        have := hge' _ (List.mem_append_left _ hmem)
        omega
    · intro he
      omega
  refine ⟨l₁ ++ l₂, if (L.cells i).next = -1 then (L.cells i).prev else e, ?_, ?_, fun p => ?_⟩
  · rw [hcpos]
    simp only [hback]
    exact hu
  · exact hnd.sublist (List.Sublist.append_left (List.sublist_cons_self _ _) _)
  · rw [hpair]
    by_cases hpi : p = i
    · subst hpi
      rw [Function.update_self]
      simp only [reduceCtorEq, iff_false]
      exact (List.nodup_middle.mp hnd).notMem
    · rw [Function.update_of_ne hpi, ← hm p]
      simp [hpi]

/-- A position with another pair is not a neighbour of `i` in the list. -/
theorem unlink_other (h : ListInv recs L lab) (hid : recs.InB id)
    (hi : lab i = some (recs.cells id).pair)
    (hnext : ∀ q, 0 ≤ q → (L'.cells q).next = if q = (L.cells i).prev then (L.cells i).next
      else (L.cells q).next)
    (hprev : ∀ q, 0 ≤ q → (L'.cells q).prev = if q = (L.cells i).next then (L.cells i).prev
      else (L.cells q).prev) {q : Int} (hq : lab q = some pr) (hne : pr ≠ (recs.cells id).pair) :
    (L'.cells q).next = (L.cells q).next ∧ (L'.cells q).prev = (L.cells q).prev := by
  obtain ⟨l, e, hs, hnd, hm⟩ := h.list id hid
  obtain ⟨l₁, l₂, rfl⟩ := List.append_of_mem ((hm i).mpr hi)
  have hidge := hid.1
  have hq0 := (h.range q pr hq).1
  have hnot : q ∉ l₁ ++ i :: l₂ := by
    rw [hm q, hq, Option.some_inj]
    exact hne
  rw [hnext q hq0, hprev q hq0, if_neg, if_neg]
  · exact ⟨rfl, rfl⟩
  · rintro rfl
    exact hnot (List.mem_append_right _ (List.mem_cons_of_mem _
      (hs.nx_mem_or.resolve_left (by omega))))
  · rintro rfl
    exact hnot (List.mem_append_left _ (hs.pv_mem_or.resolve_left (by omega)))

/-- Position `i` is taken out of the list of record `id`. -/
theorem unlink (h : ListInv recs L lab) (hid : recs.InB id)
    (hi : lab i = some (recs.cells id).pair)
    (hsize : recs'.size = recs.size) (hpair : ∀ j, (recs'.cells j).pair = (recs.cells j).pair)
    (hcpos : ∀ j, (recs'.cells j).cpos = if j = id ∧ (L.cells i).prev < 0
      then (L.cells i).next else (recs.cells j).cpos)
    (hL : L'.size = L.size)
    (hnext : ∀ q, 0 ≤ q → (L'.cells q).next = if q = (L.cells i).prev then (L.cells i).next
      else (L.cells q).next)
    (hprev : ∀ q, 0 ≤ q → (L'.cells q).prev = if q = (L.cells i).next then (L.cells i).prev
      else (L.cells q).prev) :
    ListInv recs' L' (Function.update lab i none) := by
  have hin := Block.inB_congr hsize
  refine ⟨fun p pr' hp => hL ▸ h.range p pr' (eq_some_of_update_none hp), fun a b ha hb he => ?_,
    fun j hj => ?_, fun p pr' hp hno => ?_⟩
  · rw [hpair, hpair] at he
    exact h.inj a b ((hin a).mp ha) ((hin b).mp hb) he
  · have hj := (hin j).mp hj
    by_cases hj' : j = id
    · subst hj'
      refine OccList.unlink (h.list j hid) (fun q hq => (h.range q _ hq).1) hid.1 hi (hpair j) ?_
        hnext hprev
      rw [hcpos]
      simp only [true_and]
    · have hne : (recs.cells j).pair ≠ (recs.cells id).pair := fun he => hj' (h.inj j id hj hid he)
      refine OccList.congr (h.list j hj) ?_ (hpair j)
        (fun q hq => h.unlink_other hid hi hnext hprev hq hne) fun q => ?_
      · rw [hcpos, if_neg fun he => hj' he.1]
      · apply update_eq_some_iff (by simp)
        rw [hi, ne_eq, Option.some_inj]
        exact hne.symm
  · have hp' := eq_some_of_update_none hp
    rw [hasRec_congr hsize hpair] at hno
    obtain ⟨h₁, h₂, h₃⟩ := h.untracked p pr' hp' hno
    obtain ⟨hn', hp''⟩ := h.unlink_other hid hi hnext hprev hp' fun he => hno ⟨id, hid, he.symm⟩
    rw [hn', hp'']
    exact ⟨h₁, h₂, fun q hq => h₃ q (eq_some_of_update_none hq)⟩

section Link

variable {head e : Int} {l : List Int}

/-- The list of a record after position `i` was put in front of it. -/
theorem OccList.link
    (hs : Seg (fun i => (L.cells i).next) (fun i => (L.cells i).prev) head (-id - 1) l (-1) e)
    (hnd : l.Nodup) (hm : ∀ p, p ∈ l ↔ lab p = some (recs.cells id).pair)
    (hge : ∀ q ∈ l, 0 ≤ q) (hi : lab i = none) (hi0 : 0 ≤ i)
    (hpair : (recs'.cells id).pair = (recs.cells id).pair) (hcpos : (recs'.cells id).cpos = i)
    (hnext : ∀ q, (L'.cells q).next = if q = i then head else (L.cells q).next)
    (hprev : ∀ q, 0 ≤ q → (L'.cells q).prev = if q = i then -id - 1
      else if q = head then i else (L.cells q).prev) :
    OccList recs' L' (Function.update lab i (some (recs.cells id).pair)) id := by
  have hil : i ∉ l := fun hm' => by
    have := (hm i).mp hm'
    rw [hi] at this
    simp at this
  refine ⟨i :: l, if l = [] then i else e, ⟨hcpos, ?_, ?_⟩, List.nodup_cons.mpr ⟨hil, hnd⟩,
    fun p => ?_⟩
  · dsimp only
    rw [hprev i hi0, if_pos rfl]
  · dsimp only
    rw [hnext i, if_pos rfl]
    refine hs.rehead _ _ i hnd (fun q hq => ?_) fun q hq => ?_
    · rw [hnext q, if_neg (ne_of_mem_of_not_mem hq hil)]
    · rw [hprev q (hge q hq), if_neg (c := q = i) (ne_of_mem_of_not_mem hq hil)]
  · rw [hpair, List.mem_cons, hm p]
    by_cases hpi : p = i
    · subst hpi
      rw [Function.update_self]
      simp
    · rw [Function.update_of_ne hpi]
      simp [hpi]

/-- A position with another pair is neither `i` nor the old head. -/
theorem link_other
    (hs : Seg (fun i => (L.cells i).next) (fun i => (L.cells i).prev) head (-id - 1) l (-1) e)
    (hm : ∀ p, p ∈ l ↔ lab p = some (recs.cells id).pair) (hi : lab i = none)
    (hnext : ∀ q, (L'.cells q).next = if q = i then head else (L.cells q).next)
    (hprev : ∀ q, 0 ≤ q → (L'.cells q).prev = if q = i then -id - 1
      else if q = head then i else (L.cells q).prev) {q : Int} (hq0 : 0 ≤ q) (hq : lab q = some pr)
    (hne : pr ≠ (recs.cells id).pair) :
    (L'.cells q).next = (L.cells q).next ∧ (L'.cells q).prev = (L.cells q).prev := by
  have hqi : q ≠ i := fun he => by
    rw [he, hi] at hq
    simp at hq
  rw [hnext q, hprev q hq0, if_neg hqi, if_neg hqi, if_neg]
  · exact ⟨rfl, rfl⟩
  · rintro rfl
    rcases hs.head_mem_or with he | he
    · omega
    · rw [hm q, hq, Option.some_inj] at he
      exact hne he

/-- Position `i` becomes the head of the list of record `id`, in front of the positions `l` that
are reached from `head`. -/
theorem link (recs recs' : Block Trecord) (L L' : Block Tlist) (id i head : Int)
    (hrange : ∀ p pr, lab p = some pr → 0 ≤ p ∧ p + 1 < L.size)
    (hinj : ∀ a b, recs.InB a → recs.InB b → (recs.cells a).pair = (recs.cells b).pair → a = b)
    (hlist : ∀ j, recs.InB j → j ≠ id → OccList recs L lab j)
    (huntr : ∀ p pr, lab p = some pr → ¬ HasRec recs pr →
      (L.cells p).prev = nullFreq ∧ (L.cells p).next = -1 ∧ ∀ q, lab q = some pr → q = p)
    (hid : recs.InB id)
    (hs : Seg (fun i => (L.cells i).next) (fun i => (L.cells i).prev) head (-id - 1) l (-1) e)
    (hnd : l.Nodup) (hm : ∀ p, p ∈ l ↔ lab p = some (recs.cells id).pair)
    (hi : lab i = none) (hi0 : 0 ≤ i) (hi1 : i + 1 < L.size)
    (hsize : recs'.size = recs.size) (hpair : ∀ j, (recs'.cells j).pair = (recs.cells j).pair)
    (hcpos : ∀ j, (recs'.cells j).cpos = if j = id then i else (recs.cells j).cpos)
    (hL : L'.size = L.size)
    (hnext : ∀ q, (L'.cells q).next = if q = i then head else (L.cells q).next)
    (hprev : ∀ q, 0 ≤ q → (L'.cells q).prev = if q = i then -id - 1
      else if q = head then i else (L.cells q).prev) :
    ListInv recs' L' (Function.update lab i (some (recs.cells id).pair)) := by
  have hin := Block.inB_congr hsize
  -- the other pairs are where they were
  have hlab : ∀ pr' ≠ (recs.cells id).pair, ∀ q,
      Function.update lab i (some (recs.cells id).pair) q = some pr' ↔ lab q = some pr' := by
    intro pr' hne q
    apply update_eq_some_iff
    · rw [ne_eq, Option.some_inj]
      exact hne.symm
    · rw [hi]
      simp
  have hother : ∀ pr' ≠ (recs.cells id).pair, ∀ q, lab q = some pr' →
      (L'.cells q).next = (L.cells q).next ∧ (L'.cells q).prev = (L.cells q).prev :=
    fun pr' hne q hq => link_other hs hm hi hnext hprev (hrange q _ hq).1 hq hne
  refine ⟨fun p pr' hp => ?_, fun a b ha hb he => ?_, fun j hj => ?_, fun p pr' hp hno => ?_⟩
  · rw [hL]
    by_cases hpi : p = i
    · exact hpi ▸ ⟨hi0, hi1⟩
    · rw [Function.update_of_ne hpi] at hp
      exact hrange p pr' hp
  · rw [hpair, hpair] at he
    exact hinj a b ((hin a).mp ha) ((hin b).mp hb) he
  · have hj := (hin j).mp hj
    by_cases hj' : j = id
    · subst hj'
      exact OccList.link hs hnd hm (fun q hq => (hrange q _ ((hm q).mp hq)).1) hi hi0 (hpair j)
        (by rw [hcpos, if_pos rfl]) hnext hprev
    · have hne : (recs.cells j).pair ≠ (recs.cells id).pair := fun he => hj' (hinj j id hj hid he)
      refine OccList.congr (hlist j hj hj') ?_ (hpair j) (hother _ hne) (hlab _ hne)
      rw [hcpos, if_neg hj']
  · rw [hasRec_congr hsize hpair] at hno
    have hne : pr' ≠ (recs.cells id).pair := fun he => hno ⟨id, hid, he.symm⟩
    have hp' := (hlab pr' hne p).mp hp
    obtain ⟨h₁, h₂, h₃⟩ := huntr p pr' hp' hno
    obtain ⟨hn', hp''⟩ := hother pr' hne p hp'
    rw [hn', hp'']
    exact ⟨h₁, h₂, fun q hq => h₃ q ((hlab pr' hne q).mp hq)⟩

end Link

/-- Record `id` is removed; its list has at most one position, which is marked with `NullFreq`. -/
theorem untrack (h : ListInv recs L lab) (hid : recs.InB id)
    (hone : ∀ p q, lab p = some (recs.cells id).pair → lab q = some (recs.cells id).pair → p = q)
    (hnext : ∀ q, (L'.cells q).next = (L.cells q).next)
    (hprev : ∀ q, 0 ≤ q → (L'.cells q).prev = if q = (recs.cells id).cpos then nullFreq
      else (L.cells q).prev) :
    (∀ j, recs.InB j → j ≠ id → OccList recs L' lab j) ∧
      (∀ p, lab p = some (recs.cells id).pair → (L'.cells p).prev = nullFreq ∧
        (L'.cells p).next = -1 ∧ ∀ q, lab q = some (recs.cells id).pair → q = p) ∧
      (∀ p pr, lab p = some pr → ¬ HasRec recs pr → (L'.cells p).prev = nullFreq ∧
        (L'.cells p).next = -1 ∧ ∀ q, lab q = some pr → q = p) := by
  obtain ⟨l, e, hs, hnd, hm⟩ := h.list id hid
  have hother : ∀ q pr', lab q = some pr' → pr' ≠ (recs.cells id).pair →
      (L'.cells q).prev = (L.cells q).prev := by
    intro q pr' hq hne
    have hq0 := (h.range q _ hq).1
    rw [hprev q hq0, if_neg]
    rintro rfl
    rcases hs.head_mem_or with he | he
    · omega
    · rw [hm, hq, Option.some_inj] at he
      exact hne he
  refine ⟨fun j hj hj' => ?_, fun p hp => ?_, fun p pr hp hno => ?_⟩
  · have hne : (recs.cells j).pair ≠ (recs.cells id).pair := fun he => hj' (h.inj j id hj hid he)
    exact OccList.congr (h.list j hj) rfl rfl (fun q hq => ⟨hnext q, hother q _ hq hne⟩)
      fun _ => Iff.rfl
  · -- the list is `[p]`
    have hpl : p ∈ l := (hm p).mpr hp
    have hlp : l = [p] := by
      cases l with
      | nil => simp at hpl
      | cons a l =>
        have ha : a = p := hone a p ((hm a).mp (by simp)) hp
        cases l with
        | nil => rw [ha]
        | cons b l =>
          have hb : b = p := hone b p ((hm b).mp (by simp)) hp
          rw [ha, hb] at hnd
          simp at hnd
    subst hlp
    have hc : (recs.cells id).cpos = p := hs.1
    rw [hnext p, hprev p (h.range p _ hp).1, if_pos hc.symm]
    exact ⟨rfl, hs.2.2.1, fun q hq => hone q p hq hp⟩
  · obtain ⟨h₁, h₂, h₃⟩ := h.untracked p pr hp hno
    rw [hnext, hother p pr hp fun he => hno ⟨id, hid, he.symm⟩]
    exact ⟨h₁, h₂, h₃⟩

/-- Position `p` is marked as one without a record. -/
def markNull (L : Block Tlist) (p : Int) : Block Tlist :=
  L.upd p fun l => { l with prev := nullFreq }

theorem next_markNull (L : Block Tlist) (p q : Int) :
    ((markNull L p).cells q).next = (L.cells q).next := by
  rw [markNull, Block.cells_upd]
  split
  · next he => rw [he]
  · rfl

theorem prev_markNull (L : Block Tlist) (p q : Int) :
    ((markNull L p).cells q).prev = if q = p then nullFreq else (L.cells q).prev := by
  rw [markNull, Block.cells_upd]
  split <;> rfl

/-- The list of record `last` follows the record to index `id`. -/
theorem OccList.relocate {last : Int} (h : OccList recs L lab last) (hge : ∀ p pr,
      lab p = some pr → 0 ≤ p) (hnext : ∀ q, (L'.cells q).next = (L.cells q).next)
    (hprev : ∀ q, 0 ≤ q → (L'.cells q).prev = if q = (recs.cells last).cpos then -id - 1
      else (L.cells q).prev) (hrec : recs'.cells id = recs.cells last) :
    OccList recs' L' lab id := by
  obtain ⟨l, e, hs, hnd, hm⟩ := h
  refine ⟨l, if l = [] then -id - 1 else e, ?_, hnd, ?_⟩
  · rw [hrec]
    refine hs.rehead _ _ _ hnd (fun q _ => hnext q) fun q hq => ?_
    exact hprev q (hge q _ ((hm q).mp hq))
  · rw [hrec]
    exact hm

/-- `removeRecord` on the lists: the remaining position of record `id` is marked, and the list of
the last record is redirected to index `id`. -/
theorem remove (h : ListInv recs L lab) (hid : recs.InB id)
    (hone : ∀ p q, lab p = some (recs.cells id).pair → lab q = some (recs.cells id).pair → p = q)
    (hsize : recs'.size = recs.size - 1)
    (hcells : ∀ j, recs'.cells j = if j = id then recs.cells (recs.size - 1) else recs.cells j)
    (hinj : ∀ a b, recs'.InB a → recs'.InB b → (recs'.cells a).pair = (recs'.cells b).pair → a = b)
    (hL : L'.size = L.size) (hnext : ∀ q, (L'.cells q).next = (L.cells q).next)
    (hprev : ∀ q, 0 ≤ q → (L'.cells q).prev =
      if id ≠ recs.size - 1 ∧ q = (recs.cells (recs.size - 1)).cpos then -id - 1
      else if q = (recs.cells id).cpos then nullFreq else (L.cells q).prev) :
    ListInv recs' L' lab := by
  have h₁ := hid.1
  have h₂ := hid.2
  have hnext₁ : ∀ q, (L'.cells q).next = ((markNull L (recs.cells id).cpos).cells q).next :=
    fun q => by rw [hnext, next_markNull]
  have hprev₁ : ∀ q, 0 ≤ q → (L'.cells q).prev =
      if id ≠ recs.size - 1 ∧ q = (recs.cells (recs.size - 1)).cpos then -id - 1
      else ((markNull L (recs.cells id).cpos).cells q).prev := fun q hq => by
    rw [hprev q hq, prev_markNull]
  obtain ⟨hlist₁, hself₁, huntr₁⟩ := h.untrack hid hone (next_markNull L _)
    fun q _ => prev_markNull L _ q
  have hrange : ∀ p pr, lab p = some pr → 0 ≤ p := fun p pr hp => (h.range p pr hp).1
  have hlast : recs.InB (recs.size - 1) := ⟨by omega, by omega⟩
  -- positions of other records are not the head of the last record's list
  have hothers : ∀ q pr', lab q = some pr' →
      (id ≠ recs.size - 1 → pr' ≠ (recs.cells (recs.size - 1)).pair) →
      (L'.cells q).prev = ((markNull L (recs.cells id).cpos).cells q).prev := fun q pr' hq hne => by
    have hq0 := hrange q _ hq
    rw [hprev₁ q hq0, if_neg]
    rintro ⟨hidl, he⟩
    obtain ⟨l, e, hs, -, hm⟩ := h.list _ hlast
    have := (hm _).mp (hs.head_mem_or.resolve_left (by omega))
    rw [← he, hq, Option.some_inj] at this
    exact hne hidl this
  refine ⟨fun p pr' hp => hL ▸ h.range p pr' hp, hinj, fun j hj => ?_, fun p pr' hp hno => ?_⟩
  · have hj₁ := hj.1
    have hj₂ := hj.2
    by_cases hj' : j = id
    · subst hj'
      have hidl : j ≠ recs.size - 1 := by omega
      refine OccList.relocate (hlist₁ _ hlast fun he => hidl he.symm) hrange hnext₁
        (fun q hq => ?_) (by rw [hcells, if_pos rfl])
      rw [hprev₁ q hq]
      simp only [ne_eq, hidl, not_false_eq_true, true_and]
    · have hjin : recs.InB j := ⟨hj₁, by omega⟩
      have hsame : recs'.cells j = recs.cells j := by rw [hcells, if_neg hj']
      refine OccList.congr (hlist₁ j hjin hj') (by rw [hsame]) (by rw [hsame])
        (fun q hq => ⟨hnext₁ q, hothers q _ hq fun _ he => ?_⟩) fun _ => Iff.rfl
      have := h.inj j _ hjin hlast he
      omega
  · have hno' : id ≠ recs.size - 1 → pr' ≠ (recs.cells (recs.size - 1)).pair :=
      fun hidl he => hno ⟨id, ⟨by omega, by omega⟩, by rw [hcells, if_pos rfl, he]⟩
    rw [hnext₁ p, hothers p pr' hp hno']
    by_cases hpid : pr' = (recs.cells id).pair
    · subst hpid
      exact hself₁ p hp
    · refine huntr₁ p pr' hp fun ⟨j, hj, he⟩ => hno ?_
      have hj' : j ≠ id := fun hji => hpid (by rw [← he, hji])
      by_cases hjl : j = recs.size - 1
      · have hidl : id ≠ recs.size - 1 := fun hi => hj' (hjl.trans hi.symm)
        exact absurd he.symm (hjl ▸ hno' hidl)
      · have := hj.1
        have := hj.2
        exact ⟨j, ⟨by omega, by omega⟩, by rw [hcells, if_neg hj']; exact he⟩

end ListInv

end Laconic.RePair

import Mathlib.Data.List.Perm.Basic
import Laconic.RePair.HeapOps

/-!
# Re-Pair: the linked part of the heap

`HighInv H F FN FF FL`: the frequency nodes form the list `F` from `smallest` to `largest`, in
strictly increasing frequency, each with the list of its element nodes; `FN` and `FF` are the free
lists of the two pools and `FL` holds the element nodes that are in neither.  Every operation of
`heap.cc` on this part is one of six elementary steps, each of which has its lemma here.
-/

namespace Laconic.RePair

open Chain

/-- The indices `0..n-1` of a pool. -/
def slots (n : Int) : List Int := (List.range n.toNat).map fun i : Nat => (i : Int)

theorem mem_slots {n p : Int} : p ∈ slots n ↔ 0 ≤ p ∧ p < n := by
  simp only [slots, List.mem_map, List.mem_range]
  constructor
  · rintro ⟨i, hi, rfl⟩
    omega
  · rintro ⟨h₁, h₂⟩
    exact ⟨p.toNat, by omega, by omega⟩

theorem nodup_slots (n : Int) : (slots n).Nodup := by
  apply List.Nodup.map
  · intro i j h
    exact Int.ofNat.inj h
  · exact List.nodup_range

theorem length_slots (n : Int) : (slots n).length = n.toNat := by simp [slots]

theorem mem_middle {α : Type} {a x : α} {l₁ l₂ : List α} :
    a ∈ l₁ ++ x :: l₂ ↔ a = x ∨ a ∈ l₁ ++ l₂ := by
  rw [List.perm_middle.mem_iff, List.mem_cons]

theorem mem_middle_of_mem {α : Type} {a : α} {l₁ l₂ : List α} (x : α) (h : a ∈ l₁ ++ l₂) :
    a ∈ l₁ ++ x :: l₂ := mem_middle.mpr (Or.inr h)

/-- A value that lies between the two halves of a sorted list is put in there. -/
theorem pairwise_middle_of {α : Type} {r r' : α → α → Prop} {x : α} {l₁ l₂ : List α}
    (h : (l₁ ++ l₂).Pairwise r) (hr : ∀ a ∈ l₁ ++ l₂, ∀ b ∈ l₁ ++ l₂, r a b → r' a b)
    (h₁ : ∀ a ∈ l₁, r' a x) (h₂ : ∀ b ∈ l₂, r' x b) : (l₁ ++ x :: l₂).Pairwise r' := by
  have h' := h.imp_of_mem fun ha hb => hr _ ha _ hb
  rw [List.pairwise_append] at h' ⊢
  refine ⟨h'.1, List.pairwise_cons.mpr ⟨h₂, h'.2.1⟩, fun a ha b hb => ?_⟩
  rcases List.mem_cons.mp hb with rfl | hb
  · exact h₁ a ha
  · exact h'.2.2 a ha b hb

section Disjoint

variable {F₁ F₂ : List (Int × List Int)} {x : Int × List Int} {A : List Int}

/-- Element lists of different frequency nodes have no node in common. -/
theorem elems_disjoint (h : (A ++ (F₁ ++ x :: F₂).flatMap Prod.snd).Nodup) {y : Int × List Int}
    (hy : y ∈ F₁ ++ F₂) {q : Int} (hq : q ∈ y.2) : q ∉ x.2 := by
  intro hqx
  have h' := h.of_append_right
  rw [List.flatMap_append, List.flatMap_cons] at h'
  rcases List.mem_append.mp hy with hy | hy
  · exact (List.nodup_append.mp h').2.2 q (List.mem_flatMap.mpr ⟨y, hy, hq⟩) q
      (List.mem_append_left _ hqx) rfl
  · exact (List.nodup_append.mp h'.of_append_right).2.2 q hqx q
      (List.mem_flatMap.mpr ⟨y, hy, hq⟩) rfl

/-- Nodes of a free list are not in use. -/
theorem free_disjoint (h : (A ++ (F₁ ++ x :: F₂).flatMap Prod.snd).Nodup) {q : Int}
    (hq : q ∈ A) : q ∉ x.2 := fun hqx =>
  (List.nodup_append.mp h).2.2 q hq q
    (List.mem_flatMap.mpr ⟨x, by simp, hqx⟩) rfl

/-- Frequency nodes are pairwise different. -/
theorem fst_ne_of_nodup (h : (A ++ (F₁ ++ x :: F₂).map Prod.fst).Nodup) {y : Int × List Int}
    (hy : y ∈ F₁ ++ F₂) : y.1 ≠ x.1 := by
  intro he
  have h' := h.of_append_right
  rw [List.map_append, List.map_cons] at h'
  rcases List.mem_append.mp hy with hy | hy
  · exact (List.nodup_append.mp h').2.2 y.1 (List.mem_map_of_mem hy) x.1 (by simp) he
  · exact (List.nodup_cons.mp h'.of_append_right).1 (he ▸ List.mem_map_of_mem hy)

end Disjoint

structure HighInv (H : Theap) (F : List (Int × List Int)) (FN FF FL : List Int) : Prop where
  freqSize : H.freq.size = H.sqrtu
  ffSize : H.ff.size = H.sqrtu
  chain : Seg (fun i => (H.ff.cells i).larger) (fun i => (H.ff.cells i).smaller)
    H.smallest (-1) (F.map Prod.fst) (-1) H.largest
  elems : ∀ x ∈ F, ∃ e, Seg (fun i => (H.freq.cells i).next) (fun i => (H.freq.cells i).prev)
    (H.ff.cells x.1).elems (-1) x.2 (-1) e
  fnode : ∀ x ∈ F, ∀ p ∈ x.2, (H.freq.cells p).fnode = x.1
  sorted : (F.map Prod.fst).Pairwise fun i j => (H.ff.cells i).freq < (H.ff.cells j).freq
  nodes : (FL ++ FN ++ F.flatMap Prod.snd).Perm (slots H.sqrtu)
  ffs : (FF ++ F.map Prod.fst).Perm (slots H.sqrtu)
  freeN : Path (fun i => (H.freq.cells i).next) H.freef FN
  freeF : Path (fun i => (H.ff.cells i).larger) H.freeff FF

namespace HighInv

variable {H : Theap} {F F₁ F₂ : List (Int × List Int)} {FN FF FL : List Int} {p : Int}

theorem node_inB (h : HighInv H F FN FF FL) {p : Int} (hp : p ∈ FL ++ FN ++ F.flatMap Prod.snd) :
    H.freq.InB p := by
  have := mem_slots.mp (h.nodes.mem_iff.mp hp)
  exact ⟨this.1, by rw [h.freqSize]; exact this.2⟩

theorem ff_inB (h : HighInv H F FN FF FL) {f : Int} (hf : f ∈ FF ++ F.map Prod.fst) :
    H.ff.InB f := by
  have := mem_slots.mp (h.ffs.mem_iff.mp hf)
  exact ⟨this.1, by rw [h.ffSize]; exact this.2⟩

theorem nodup_nodes (h : HighInv H F FN FF FL) : (FL ++ FN ++ F.flatMap Prod.snd).Nodup :=
  h.nodes.nodup_iff.mpr (nodup_slots _)

theorem nodup_ffs (h : HighInv H F FN FF FL) : (FF ++ F.map Prod.fst).Nodup :=
  h.ffs.nodup_iff.mpr (nodup_slots _)

theorem fst_inB (h : HighInv H F FN FF FL) {x : Int × List Int} (hx : x ∈ F) : H.ff.InB x.1 :=
  h.ff_inB (List.mem_append_right _ (List.mem_map_of_mem hx))

theorem elem_inB (h : HighInv H F FN FF FL) {x : Int × List Int} (hx : x ∈ F) {q : Int}
    (hq : q ∈ x.2) : H.freq.InB q :=
  h.node_inB (List.mem_append_right _ (List.mem_flatMap.mpr ⟨x, hx, hq⟩))

/-- A floating node is in no list. -/
theorem floating_notMem (h : HighInv H F FN FF [p]) {x : Int × List Int} (hx : x ∈ F) :
    p ∉ x.2 := fun hpx =>
  (List.nodup_append.mp h.nodup_nodes).2.2 p (by simp) p (List.mem_flatMap.mpr ⟨x, hx, hpx⟩) rfl

theorem floating_notMem_free (h : HighInv H F FN FF [p]) : p ∉ FN := fun hm =>
  (List.nodup_append.mp h.nodup_nodes.of_append_left).2.2 p (by simp) p hm rfl

/-- A node list keeps its place when no cell of it is written. -/
theorem elems_congr {nodes : Block Thnode} {p : Int} {l : List Int}
    (h : ∃ e, Seg (fun i => (H.freq.cells i).next) (fun i => (H.freq.cells i).prev) p (-1) l
      (-1) e)
    (hnext : ∀ q ∈ l, (nodes.cells q).next = (H.freq.cells q).next)
    (hprev : ∀ q ∈ l, (nodes.cells q).prev = (H.freq.cells q).prev) :
    ∃ e, Seg (fun i => (nodes.cells i).next) (fun i => (nodes.cells i).prev) p (-1) l
      (-1) e := by
  obtain ⟨e, he⟩ := h
  exact ⟨e, he.congr hnext hprev⟩

/-- The lists of element nodes change, the chain of frequency nodes stays. -/
theorem of_elems {F' : List (Int × List Int)} {FL' : List Int} {nodes : Block Thnode}
    {ff : Block Thfreq} (h : HighInv H F FN FF FL) (hfst : F'.map Prod.fst = F.map Prod.fst)
    (hsize : nodes.size = H.freq.size) (hffSize : ff.size = H.ff.size)
    (hff : ∀ i, (ff.cells i).freq = (H.ff.cells i).freq ∧
      (ff.cells i).larger = (H.ff.cells i).larger ∧ (ff.cells i).smaller = (H.ff.cells i).smaller)
    (helems : ∀ x ∈ F', ∃ e, Seg (fun i => (nodes.cells i).next) (fun i => (nodes.cells i).prev)
      (ff.cells x.1).elems (-1) x.2 (-1) e)
    (hfnode : ∀ x ∈ F', ∀ p ∈ x.2, (nodes.cells p).fnode = x.1)
    (hnodes : (FL' ++ FN ++ F'.flatMap Prod.snd).Perm (FL ++ FN ++ F.flatMap Prod.snd))
    (hfree : ∀ q ∈ FN, (nodes.cells q).next = (H.freq.cells q).next) :
    HighInv { H with freq := nodes, ff := ff } F' FN FF FL' where
  freqSize := hsize.trans h.freqSize
  ffSize := hffSize.trans h.ffSize
  chain := by
    rw [hfst]
    exact h.chain.congr (fun q _ => (hff q).2.1) fun q _ => (hff q).2.2
  elems := helems
  fnode := hfnode
  sorted := by
    rw [hfst]
    simp only [(hff _).1]
    exact h.sorted
  nodes := hnodes.trans h.nodes
  ffs := by
    rw [hfst]
    exact h.ffs
  freeN := h.freeN.congr hfree
  freeF := h.freeF.congr fun q _ => (hff q).2.1

/-- The elements of one frequency node and of the others are kept apart. -/
theorem nodup_elems {x : Int × List Int} (h : HighInv H (F₁ ++ x :: F₂) FN FF FL) :
    x.2.Nodup := by
  have hnd := h.nodup_nodes.of_append_right
  rw [List.flatMap_append, List.flatMap_cons] at hnd
  exact hnd.of_append_right.of_append_left

/-- The node `p` leaves the list of the frequency node `fp` and floats. -/
theorem unlinkNode {fp : Int} (F₁ : List (Int × List Int)) (n₁ : List Int) {n₂ : List Int}
    (h : HighInv H (F₁ ++ (fp, n₁ ++ p :: n₂) :: F₂) FN FF []) :
    ∃ nodes ff, unlinkNode H p fp = .ok { H with freq := nodes, ff := ff } ∧
      HighInv { H with freq := nodes, ff := ff } (F₁ ++ (fp, n₁ ++ n₂) :: F₂) FN FF [p] ∧
      (∀ q, (nodes.cells q).id = (H.freq.cells q).id ∧
        (nodes.cells q).fnode = (H.freq.cells q).fnode) ∧
      (∀ i, (ff.cells i).freq = (H.ff.cells i).freq ∧
        (ff.cells i).larger = (H.ff.cells i).larger ∧
        (ff.cells i).smaller = (H.ff.cells i).smaller) := by
  have hmem : (fp, n₁ ++ p :: n₂) ∈ F₁ ++ (fp, n₁ ++ p :: n₂) :: F₂ := by simp
  obtain ⟨e, hseg⟩ := h.elems _ hmem
  have hnd := h.nodup_nodes
  have hin : ∀ q, q ∈ n₁ ++ p :: n₂ → H.freq.InB q := fun q hq => h.elem_inB hmem hq
  have hpv := hseg.pv_mem_or
  have hnx := hseg.nx_mem_or
  have hprev : (H.freq.cells p).prev ≠ -1 → H.freq.InB (H.freq.cells p).prev := fun hne =>
    hin _ (List.mem_append_left _ (hpv.resolve_left hne))
  have hnext : (H.freq.cells p).next ≠ -1 → H.freq.InB (H.freq.cells p).next := fun hne =>
    hin _ (List.mem_append_right _ (List.mem_cons_of_mem _ (hnx.resolve_left hne)))
  obtain ⟨nodes, ff, hrun, hs₁, hs₂, hnext', hprev', hid, hff⟩ :=
    unlinkNode_eq (hin p (by simp)) (h.fst_inB hmem) hprev hnext
  have hkeep : ∀ i, (ff.cells i).freq = (H.ff.cells i).freq ∧
      (ff.cells i).larger = (H.ff.cells i).larger ∧
      (ff.cells i).smaller = (H.ff.cells i).smaller := fun i => by
    rw [hff i]
    exact ⟨rfl, rfl, rfl⟩
  -- a node outside this list is not a neighbour of `p`
  have hnb : ∀ q, q ∉ n₁ ++ p :: n₂ → 0 ≤ q →
      q ≠ (H.freq.cells p).prev ∧ q ≠ (H.freq.cells p).next := by
    intro q hq h0
    constructor
    · rintro rfl
      exact hq (List.mem_append_left _ (hpv.resolve_left (by omega)))
    · rintro rfl
      exact hq (List.mem_append_right _ (List.mem_cons_of_mem _ (hnx.resolve_left (by omega))))
  refine ⟨nodes, ff, hrun, h.of_elems (by simp) hs₁ hs₂ hkeep (fun x hx => ?_)
    (fun x hx q hq => ?_) ?_ fun q hq => ?_, hid, hkeep⟩
  · rcases mem_middle.mp hx with rfl | hx
    · have hge : ∀ q ∈ n₁ ++ n₂, 0 ≤ q := fun q hq => (hin q (mem_middle_of_mem p hq)).1
      have hu := hseg.unlink (fun i => (nodes.cells i).next)
        (fun i => (nodes.cells i).prev) h.nodup_elems (fun hm => by have := hge _ hm; omega)
        (fun hm => by have := hge _ hm; omega) (fun q hq => hnext' q (hge q hq))
        (fun q hq => hprev' q (hge q hq))
      refine ⟨if (H.freq.cells p).next = -1 then (H.freq.cells p).prev else e, ?_⟩
      rw [hff fp]
      simp only [true_and]
      exact hu
    · have hx' := mem_middle_of_mem (fp, n₁ ++ p :: n₂) hx
      have hne : (ff.cells x.1).elems = (H.ff.cells x.1).elems := by
        rw [hff x.1]
        simp [fst_ne_of_nodup h.nodup_ffs hx]
      have hq : ∀ q ∈ x.2, q ≠ (H.freq.cells p).prev ∧ q ≠ (H.freq.cells p).next := fun q hq =>
        hnb q (elems_disjoint hnd hx hq) (h.elem_inB hx' hq).1
      rw [hne]
      refine elems_congr (h.elems x hx') (fun q hql => ?_) fun q hql => ?_
      · rw [hnext' q (h.elem_inB hx' hql).1, if_neg (hq q hql).1]
      · rw [hprev' q (h.elem_inB hx' hql).1, if_neg (hq q hql).2]
  · rw [(hid q).2]
    rcases mem_middle.mp hx with rfl | hx
    · exact h.fnode _ hmem q (mem_middle_of_mem p hq)
    · exact h.fnode x (mem_middle_of_mem _ hx) q hq
  · rw [List.perm_iff_count]
    intro a
    simp only [List.count_append, List.flatMap_append, List.flatMap_cons, List.count_cons,
      List.count_nil]
    omega
  · have hq0 : 0 ≤ q := (h.node_inB (by simp [hq])).1
    rw [hnext' q hq0, if_neg (hnb q (free_disjoint hnd (List.mem_append_right _ hq)) hq0).1]

/-- The floating node `p` becomes the first element of the frequency node `fp`. -/
theorem pushNode {fp : Int} {ns : List Int} (F₁ : List (Int × List Int)) (hns : ns ≠ [])
    (h : HighInv H (F₁ ++ (fp, ns) :: F₂) FN FF [p]) :
    ∃ nodes ff, pushNode H p fp = .ok { H with freq := nodes, ff := ff } ∧
      HighInv { H with freq := nodes, ff := ff } (F₁ ++ (fp, p :: ns) :: F₂) FN FF [] ∧
      (∀ q, (nodes.cells q).id = (H.freq.cells q).id) ∧
      (∀ q, (nodes.cells q).fnode = if q = p then fp else (H.freq.cells q).fnode) ∧
      (∀ i, (ff.cells i).freq = (H.ff.cells i).freq ∧
        (ff.cells i).larger = (H.ff.cells i).larger ∧
        (ff.cells i).smaller = (H.ff.cells i).smaller) := by
  have hmem : (fp, ns) ∈ F₁ ++ (fp, ns) :: F₂ := by simp
  obtain ⟨e, hseg⟩ := h.elems (fp, ns) hmem
  have hnd := h.nodup_nodes
  have hp : H.freq.InB p := h.node_inB (by simp)
  have hhead : (H.ff.cells fp).elems ∈ ns := by
    rw [hseg.head_eq]
    cases ns with
    | nil => exact absurd rfl hns
    | cons q l => simp
  obtain ⟨nodes, ff, hrun, hs₁, hs₂, hnext, hprev, hid, hfn, hff⟩ :=
    pushNode_eq hp (h.fst_inB hmem) (h.elem_inB hmem hhead)
  have hkeep : ∀ i, (ff.cells i).freq = (H.ff.cells i).freq ∧
      (ff.cells i).larger = (H.ff.cells i).larger ∧
      (ff.cells i).smaller = (H.ff.cells i).smaller := fun i => by
    rw [hff i]
    exact ⟨rfl, rfl, rfl⟩
  have hpns : p ∉ ns := h.floating_notMem hmem
  refine ⟨nodes, ff, hrun, h.of_elems (by simp) hs₁ hs₂ hkeep (fun x hx => ?_)
    (fun x hx q hq => ?_) ?_ fun q hq => ?_, hid, hfn, hkeep⟩
  · rcases mem_middle.mp hx with rfl | hx
    · have hre := hseg.rehead (fun i => (nodes.cells i).next)
        (fun i => (nodes.cells i).prev) p h.nodup_elems
        (fun q hq => by rw [hnext q, if_neg (ne_of_mem_of_not_mem hq hpns)])
        (fun q hq => by rw [hprev q, if_neg (c := q = p) (ne_of_mem_of_not_mem hq hpns)])
      refine ⟨if ns = [] then p else e, ?_, ?_, ?_⟩
      · rw [hff fp]
        simp
      · dsimp only
        rw [hprev p, if_neg (ne_of_mem_of_not_mem hhead hpns).symm, if_pos rfl]
      · dsimp only
        rw [hnext p, if_pos rfl]
        exact hre
    · have hx' := mem_middle_of_mem (fp, ns) hx
      have hne : (ff.cells x.1).elems = (H.ff.cells x.1).elems := by
        rw [hff x.1]
        simp [fst_ne_of_nodup h.nodup_ffs hx]
      have hpx := h.floating_notMem hx'
      rw [hne]
      refine elems_congr (h.elems x hx') (fun q hq => ?_) fun q hq => ?_
      · rw [hnext q, if_neg (ne_of_mem_of_not_mem hq hpx)]
      · rw [hprev q, if_neg (ne_of_mem_of_not_mem hhead (elems_disjoint hnd hx hq)).symm,
          if_neg (ne_of_mem_of_not_mem hq hpx)]
  · rw [hfn q]
    rcases mem_middle.mp hx with rfl | hx
    · split
      · rfl
      · next hqp => exact h.fnode (fp, ns) hmem q (List.mem_of_ne_of_mem hqp hq)
    · have hx' := mem_middle_of_mem (fp, ns) hx
      rw [if_neg (ne_of_mem_of_not_mem hq (h.floating_notMem hx'))]
      exact h.fnode x hx' q hq
  · rw [List.perm_iff_count]
    intro a
    simp only [List.count_append, List.flatMap_append, List.flatMap_cons, List.count_cons,
      List.count_nil]
    omega
  · rw [hnext q, if_neg (ne_of_mem_of_not_mem hq h.floating_notMem_free)]

section Create

variable {freq lfp sm lg : Int} {nodes : Block Thnode} {ff : Block Thfreq}

theorem lfp_notMem (h : HighInv H F FN (lfp :: FF) FL) : lfp ∉ F.map Prod.fst := fun hm =>
  (List.nodup_append.mp h.nodup_ffs).2.2 lfp (by simp) lfp hm rfl

/-- The fresh frequency node stands between `F₁` and `F₂`. -/
theorem chain_created (h : HighInv H (F₁ ++ F₂) FN (lfp :: FF) FL)
    (hcr : FreqCreated H nodes ff p lfp freq sm lg)
    (hsm : sm = (F₁.map Prod.fst).getLastD (-1)) (hlg : lg = (F₂.map Prod.fst).headD (-1)) :
    Seg (fun i => (ff.cells i).larger) (fun i => (ff.cells i).smaller)
      (if sm = -1 then lfp else H.smallest) (-1) ((F₁ ++ (lfp, [p]) :: F₂).map Prod.fst) (-1)
      (if lg = -1 then lfp else H.largest) := by
  have hc := h.chain
  have hnd := h.nodup_ffs.of_append_right
  have hl := h.lfp_notMem
  have hin : ∀ i ∈ (F₁ ++ F₂).map Prod.fst, 0 ≤ i := fun i hi =>
    (h.ff_inB (List.mem_append_right _ hi)).1
  have hlfp0 : 0 ≤ lfp := (h.ff_inB (by simp)).1
  rw [List.map_append] at hc hnd hl hin
  rw [List.map_append, List.map_cons]
  obtain ⟨m, k, hc₁, hc₂⟩ := seg_append.mp hc
  obtain rfl : k = sm := by rw [hsm, hc₁.last_eq]
  obtain rfl : m = lg := by rw [hlg, hc₂.head_eq]
  refine hc₁.link hc₂ _ _ hnd (fun hm => ?_) (fun hm => ?_) ?_ ?_ (fun q hq => ?_) fun q hq => ?_
  · have := hin _ hm
    omega
  · have := hin _ hm
    omega
  · rw [hcr.larger lfp hlfp0, if_pos rfl]
  · rw [hcr.smaller lfp hlfp0, if_pos rfl]
  · rw [hcr.larger q (hin q hq), if_neg (ne_of_mem_of_not_mem hq hl)]
  · rw [hcr.smaller q (hin q hq), if_neg (ne_of_mem_of_not_mem hq hl)]

theorem sorted_created (h : HighInv H (F₁ ++ F₂) FN (lfp :: FF) FL)
    (hcr : FreqCreated H nodes ff p lfp freq sm lg)
    (hlt : ∀ x ∈ F₁, (H.ff.cells x.1).freq < freq) (hgt : ∀ x ∈ F₂, freq < (H.ff.cells x.1).freq) :
    ((F₁ ++ (lfp, [p]) :: F₂).map Prod.fst).Pairwise
      fun i j => (ff.cells i).freq < (ff.cells j).freq := by
  have hold : ∀ x ∈ F₁ ++ F₂, (ff.cells x.1).freq = (H.ff.cells x.1).freq := fun x hx => by
    rw [hcr.freq, if_neg (ne_of_mem_of_not_mem (List.mem_map_of_mem hx) h.lfp_notMem)]
  have hnew : (ff.cells lfp).freq = freq := by rw [hcr.freq, if_pos rfl]
  have hs := h.sorted
  rw [List.pairwise_map] at hs ⊢
  refine pairwise_middle_of hs (fun x hx y hy hxy => ?_) (fun x hx => ?_) fun x hx => ?_
  · rw [hold x hx, hold y hy]
    exact hxy
  · rw [hold x (List.mem_append_left _ hx), hnew]
    exact hlt x hx
  · rw [hold x (List.mem_append_right _ hx), hnew]
    exact hgt x hx

/-- What remains of the free list is not written. -/
theorem freeF_created (h : HighInv H (F₁ ++ F₂) FN (lfp :: FF) FL)
    (hcr : FreqCreated H nodes ff p lfp freq sm lg)
    (hsm : sm = -1 ∨ sm ∈ (F₁ ++ F₂).map Prod.fst) :
    Path (fun i => (ff.cells i).larger) (H.ff.cells lfp).larger FF := by
  have hnd := h.nodup_ffs
  refine h.freeF.2.congr fun q hq => ?_
  have hq0 : 0 ≤ q := (h.ff_inB (by simp [hq])).1
  rw [hcr.larger q hq0, if_neg, if_neg]
  · rintro rfl
    exact (List.nodup_append.mp hnd).2.2 q (by simp [hq]) q (hsm.resolve_left (by omega)) rfl
  · rintro rfl
    exact (List.nodup_cons.mp hnd.of_append_left).1 hq

/-- A fresh frequency node with the floating node `p` enters the list between `F₁` and `F₂`. -/
theorem createFreq (F₁ : List (Int × List Int)) (h : HighInv H (F₁ ++ F₂) FN (lfp :: FF) [p])
    (hsm : sm = (F₁.map Prod.fst).getLastD (-1)) (hlg : lg = (F₂.map Prod.fst).headD (-1))
    (hlt : ∀ x ∈ F₁, (H.ff.cells x.1).freq < freq) (hgt : ∀ x ∈ F₂, freq < (H.ff.cells x.1).freq) :
    ∃ H', createFreq H p freq sm lg = .ok H' ∧
      HighInv H' (F₁ ++ (lfp, [p]) :: F₂) FN FF [] ∧
      (∀ q, (H'.freq.cells q).id = (H.freq.cells q).id) ∧
      (∀ q, (H'.freq.cells q).fnode = if q = p then lfp else (H.freq.cells q).fnode) ∧
      (∀ i, (H'.ff.cells i).freq = if i = lfp then freq else (H.ff.cells i).freq) ∧
      H'.infreq = H.infreq ∧ H'.sqrtu = H.sqrtu ∧ H'.max = H.max ∧ H'.freef = H.freef := by
  have hfree : H.freeff = lfp := h.freeF.1
  have hp : H.freq.InB p := h.node_inB (by simp)
  have hlfp : H.ff.InB lfp := h.ff_inB (by simp)
  have hlfp0 := hlfp.1
  have hl := h.lfp_notMem
  have hin : ∀ i ∈ (F₁ ++ F₂).map Prod.fst, H.ff.InB i := fun i hi =>
    h.ff_inB (List.mem_append_right _ hi)
  have hc := h.chain
  rw [List.map_append] at hc
  obtain ⟨m, k, hc₁, hc₂⟩ := seg_append.mp hc
  have hk : sm = -1 ∨ sm ∈ (F₁ ++ F₂).map Prod.fst := by
    rw [hsm, ← hc₁.last_eq, List.map_append]
    exact hc₁.last_mem_or.imp_right (List.mem_append_left _)
  have hm : lg = -1 ∨ lg ∈ (F₁ ++ F₂).map Prod.fst := by
    rw [hlg, ← hc₂.head_eq, List.map_append]
    exact hc₂.head_mem_or.imp_right (List.mem_append_right _)
  obtain ⟨nodes, ff, hrun, hcr⟩ := createFreq_eq freq sm lg hp (hfree ▸ hlfp)
    (fun hne => hin _ (hk.resolve_left hne)) (fun hne => hin _ (hm.resolve_left hne))
    (by
      rw [hfree]
      rintro rfl
      exact hl (hk.resolve_left (by omega)))
    (by
      rw [hfree]
      rintro rfl
      exact hl (hm.resolve_left (by omega)))
  rw [hfree] at hrun hcr
  -- the nodes of the other frequencies are not written
  have hnode : ∀ x ∈ F₁ ++ F₂, ∀ q ∈ x.2, nodes.cells q = H.freq.cells q := fun x hx q hq => by
    rw [hcr.node q, if_neg (ne_of_mem_of_not_mem hq (h.floating_notMem hx))]
  refine ⟨_, hrun, ?_, fun q => ?_, fun q => ?_, hcr.freq, rfl, rfl, rfl, rfl⟩
  · refine
      { freqSize := hcr.nodesSize.trans h.freqSize
        ffSize := hcr.ffSize.trans h.ffSize
        chain := h.chain_created hcr hsm hlg
        elems := ?_
        fnode := ?_
        sorted := h.sorted_created hcr hlt hgt
        nodes := ?_
        ffs := ?_
        freeN := ?_
        freeF := h.freeF_created hcr hk }
    · intro x hx
      dsimp only
      rcases mem_middle.mp hx with rfl | hx
      · refine ⟨p, ?_, ?_, ?_⟩
        · rw [hcr.elems lfp, if_pos rfl]
        · dsimp only
          rw [hcr.node p, if_pos rfl]
        · dsimp only
          rw [hcr.node p, if_pos rfl]
          exact ⟨rfl, rfl⟩
      · rw [hcr.elems x.1, if_neg (ne_of_mem_of_not_mem (List.mem_map_of_mem hx) hl)]
        refine elems_congr (h.elems x hx) (fun q hq => ?_) fun q hq => ?_
        · rw [hnode x hx q hq]
        · rw [hnode x hx q hq]
    · intro x hx q hq
      dsimp only
      rcases mem_middle.mp hx with rfl | hx
      · rw [hcr.node q, if_pos (List.mem_singleton.mp hq)]
      · rw [hnode x hx q hq]
        exact h.fnode x hx q hq
    · refine List.Perm.trans ?_ h.nodes
      rw [List.perm_iff_count]
      intro a
      simp only [List.count_append, List.flatMap_append, List.flatMap_cons, List.count_cons,
        List.count_nil]
      omega
    · refine List.Perm.trans ?_ h.ffs
      rw [List.perm_iff_count]
      intro a
      simp only [List.count_append, List.map_append, List.map_cons, List.count_cons]
      omega
    · refine h.freeN.congr fun q hq => ?_
      dsimp only
      rw [hcr.node q, if_neg (ne_of_mem_of_not_mem hq h.floating_notMem_free)]
  · dsimp only
    rw [hcr.node q]
    split
    · next hq => rw [hq]
    · rfl
  · dsimp only
    rw [hcr.node q]
    split <;> rfl

end Create

/-- An emptied frequency node goes back to its free list. -/
theorem dropFreq {fp : Int} (h : HighInv H (F₁ ++ (fp, []) :: F₂) FN FF FL) :
    ∃ H', dropFreq H fp = .ok H' ∧ HighInv H' (F₁ ++ F₂) FN (fp :: FF) FL ∧
      H'.freq = H.freq ∧ (∀ i, (H'.ff.cells i).freq = (H.ff.cells i).freq) ∧
      H'.infreq = H.infreq ∧ H'.sqrtu = H.sqrtu ∧ H'.max = H.max ∧ H'.freef = H.freef := by
  have hmem : (fp, ([] : List Int)) ∈ F₁ ++ (fp, []) :: F₂ := by simp
  have hndf := h.nodup_ffs
  have hc := h.chain
  rw [List.map_append, List.map_cons] at hc hndf
  have hin : ∀ i ∈ F₁.map Prod.fst ++ F₂.map Prod.fst, H.ff.InB i := fun i hi => h.ff_inB
    (List.mem_append_right _ (by
      rw [List.map_append, List.map_cons]
      exact mem_middle_of_mem _ hi))
  obtain ⟨e, hel⟩ := h.elems _ hmem
  have hpv := hc.pv_mem_or
  have hnx := hc.nx_mem_or
  obtain ⟨ff, hrun, hs, hff, hlarger, hsmaller⟩ := dropFreq_eq_of_empty (h.fst_inB hmem) hel.1
    (fun hne => hin _ (List.mem_append_left _ (hpv.resolve_left hne)))
    (fun hne => hin _ (List.mem_append_right _ (hnx.resolve_left hne)))
  have hfpne : ∀ q ∈ F₁.map Prod.fst ++ F₂.map Prod.fst, q ≠ fp := by
    rintro q hq rfl
    exact (List.nodup_middle.mp hndf.of_append_right).notMem hq
  refine ⟨_, hrun, ?_, rfl, fun i => (hff i).1, rfl, rfl, rfl, rfl⟩
  refine
    { freqSize := h.freqSize
      ffSize := hs.trans h.ffSize
      chain := ?_
      elems := ?_
      fnode := ?_
      sorted := ?_
      nodes := ?_
      ffs := ?_
      freeN := h.freeN
      freeF := ?_ }
  · have hu := hc.unlink (fun i => (ff.cells i).larger)
      (fun i => (ff.cells i).smaller) hndf.of_append_right
      (fun hm => by have := (hin _ hm).1; omega) (fun hm => by have := (hin _ hm).1; omega)
      (fun q hq => by rw [hlarger q (hin q hq).1, if_neg (hfpne q hq)])
      (fun q hq => by rw [hsmaller q (hin q hq).1])
    rw [List.map_append]
    exact hu
  · intro x hx
    dsimp only
    rw [(hff x.1).2]
    exact h.elems x (mem_middle_of_mem _ hx)
  · intro x hx
    exact h.fnode x (mem_middle_of_mem _ hx)
  · have hs' := h.sorted
    rw [List.map_append, List.map_cons] at hs'
    rw [List.map_append]
    simp only [fun i => (hff i).1]
    exact hs'.sublist (List.Sublist.append_left (List.sublist_cons_self _ _) _)
  · simpa using h.nodes
  · refine List.Perm.trans ?_ h.ffs
    rw [List.perm_iff_count]
    intro a
    simp only [List.count_append, List.map_append, List.map_cons, List.count_cons]
    omega
  · refine ⟨rfl, ?_⟩
    dsimp only
    rw [hlarger fp (h.fst_inB hmem).1, if_pos rfl]
    refine h.freeF.congr fun q hq => ?_
    have hq0 : 0 ≤ q := (h.ff_inB (List.mem_append_left _ hq)).1
    have hnot : q ∉ F₁.map Prod.fst ++ fp :: F₂.map Prod.fst := fun hm =>
      (List.nodup_append.mp hndf).2.2 q hq q hm rfl
    rw [hlarger q hq0, if_neg, if_neg]
    · rintro rfl
      exact hnot (List.mem_append_left _ (hpv.resolve_left (by omega)))
    · rintro rfl
      exact hnot (by simp)

/-- A node comes off the free list and floats. -/
theorem allocNode (h : HighInv H F (p :: FN) FF []) (id : Int) :
    HighInv { H with
      freef := (H.freq.cells p).next, freq := H.freq.upd p fun q => { q with id := id } }
      F FN FF [p] := by
  have hcell : ∀ q, ((H.freq.upd p fun q => { q with id := id }).cells q).next =
      (H.freq.cells q).next ∧ ((H.freq.upd p fun q => { q with id := id }).cells q).prev =
      (H.freq.cells q).prev ∧ ((H.freq.upd p fun q => { q with id := id }).cells q).fnode =
      (H.freq.cells q).fnode := by
    intro q
    rw [Block.cells_upd]
    split
    · next hq => rw [hq]; exact ⟨rfl, rfl, rfl⟩
    · exact ⟨rfl, rfl, rfl⟩
  refine
    { freqSize := h.freqSize
      ffSize := h.ffSize
      chain := h.chain
      elems := fun x hx => elems_congr (h.elems x hx) (fun q _ => (hcell q).1)
        fun q _ => (hcell q).2.1
      fnode := fun x hx q hq => by rw [(hcell q).2.2]; exact h.fnode x hx q hq
      sorted := h.sorted
      nodes := by simpa using h.nodes
      ffs := h.ffs
      freeN := h.freeN.2.congr fun q _ => (hcell q).1
      freeF := h.freeF }

/-- A floating node goes back to the free list. -/
theorem freeNode (h : HighInv H F FN FF [p]) :
    HighInv { H with freef := p, freq := H.freq.upd p fun q => { q with next := H.freef } }
      F (p :: FN) FF [] := by
  have hcell : ∀ q, q ≠ p → (H.freq.upd p fun q => { q with next := H.freef }).cells q =
      H.freq.cells q := fun q hq => Block.cells_upd_ne _ _ hq
  refine
    { freqSize := h.freqSize
      ffSize := h.ffSize
      chain := h.chain
      elems := fun x hx => elems_congr (h.elems x hx)
        (fun q hq => by rw [hcell q (ne_of_mem_of_not_mem hq (h.floating_notMem hx))])
        fun q hq => by rw [hcell q (ne_of_mem_of_not_mem hq (h.floating_notMem hx))]
      fnode := fun x hx q hq => by
        dsimp only
        rw [hcell q (ne_of_mem_of_not_mem hq (h.floating_notMem hx))]
        exact h.fnode x hx q hq
      sorted := h.sorted
      nodes := by simpa using h.nodes
      ffs := h.ffs
      freeN := ?_
      freeF := h.freeF }
  refine ⟨rfl, ?_⟩
  dsimp only
  rw [Block.cells_upd_self]
  refine h.freeN.congr fun q hq => ?_
  rw [hcell q (ne_of_mem_of_not_mem hq h.floating_notMem_free)]

end HighInv

end Laconic.RePair

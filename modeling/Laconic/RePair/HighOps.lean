import Mathlib.Logic.Function.Basic
import Laconic.RePair.HighInv

/-!
# Re-Pair: the linked part of the heap as a partial map

`High H v`: node `q` of the pool is in use with frequency `f` exactly when `v q = some f`.  The
operations of `heap.cc` on the linked lists update `v` at one node and leave the records stored in
the nodes, the buckets of infrequent pairs and `max` alone.
-/

namespace Laconic.RePair

open Chain

/-- The frequency of the list that node `q` belongs to. -/
def nodeFreq (H : Theap) (q : Int) : Int := (H.ff.cells (H.freq.cells q).fnode).freq

/-- Two heaps with the same buckets. -/
def SameLow (H H' : Theap) : Prop :=
  H'.infreq = H.infreq ∧ H'.sqrtu = H.sqrtu ∧ H'.max = H.max

def High (H : Theap) (v : Int → Option Int) : Prop :=
  ∃ F FN FF, HighInv H F FN FF [] ∧ (∀ x ∈ F, x.2 ≠ []) ∧
    ∀ q f, v q = some f ↔ q ∈ F.flatMap Prod.snd ∧ nodeFreq H q = f

namespace HighInv

variable {H : Theap} {F F₁ F₂ : List (Int × List Int)} {FN FF FL : List Int} {p fp : Int}

/-- The nodes in use are the ones that are not free. -/
theorem mem_elems_iff (h : HighInv H F FN FF []) {q : Int} :
    q ∈ F.flatMap Prod.snd ↔ q ∈ slots H.sqrtu ∧ q ∉ FN := by
  have hnd := h.nodup_nodes
  rw [← h.nodes.mem_iff, List.nil_append, List.mem_append]
  constructor
  · intro hq
    exact ⟨Or.inr hq, fun hf => (List.nodup_append.mp hnd).2.2 q (by simpa using hf) q hq rfl⟩
  · rintro ⟨hq | hq, hn⟩
    · exact absurd hq hn
    · exact hq

theorem nodeFreq_eq (h : HighInv H F FN FF FL) {x : Int × List Int} (hx : x ∈ F) {q : Int}
    (hq : q ∈ x.2) : nodeFreq H q = (H.ff.cells x.1).freq := by
  rw [nodeFreq, h.fnode x hx q hq]

theorem length_le_elems (hne : ∀ x ∈ F, x.2 ≠ []) : F.length ≤ (F.flatMap Prod.snd).length := by
  induction F with
  | nil => simp
  | cons x F ih =>
    have h₁ := ih fun y hy => hne y (List.mem_cons_of_mem _ hy)
    have h₂ := List.length_pos_of_ne_nil (hne x (by simp))
    simp only [List.length_cons, List.flatMap_cons, List.length_append]
    omega

/-- While a node floats there is a free frequency node. -/
theorem exists_freeF (h : HighInv H F FN FF [p]) (hne : ∀ x ∈ F, x.2 ≠ []) :
    ∃ lfp FF', FF = lfp :: FF' := by
  have h₁ := h.nodes.length_eq
  have h₂ := h.ffs.length_eq
  have h₃ := length_le_elems hne
  cases FF with
  | nil =>
    simp only [List.length_append, List.length_cons, List.length_nil, List.length_map] at h₁ h₂
    omega
  | cons lfp FF' => exact ⟨lfp, FF', rfl⟩

/-- A change of frequency that keeps the order. -/
theorem setFreq {ns : List Int} {freq : Int} (h : HighInv H (F₁ ++ (fp, ns) :: F₂) FN FF FL)
    (hlt : ∀ x ∈ F₁, (H.ff.cells x.1).freq < freq) (hgt : ∀ x ∈ F₂, freq < (H.ff.cells x.1).freq) :
    HighInv { H with ff := H.ff.upd fp fun f => { f with freq := freq } }
      (F₁ ++ (fp, ns) :: F₂) FN FF FL := by
  have hcell : ∀ i, ((H.ff.upd fp fun f => { f with freq := freq }).cells i).larger =
      (H.ff.cells i).larger ∧ ((H.ff.upd fp fun f => { f with freq := freq }).cells i).smaller =
      (H.ff.cells i).smaller ∧ ((H.ff.upd fp fun f => { f with freq := freq }).cells i).elems =
      (H.ff.cells i).elems := by
    intro i
    rw [Block.cells_upd]
    split
    · next hi => rw [hi]; exact ⟨rfl, rfl, rfl⟩
    · exact ⟨rfl, rfl, rfl⟩
  refine
    { freqSize := h.freqSize
      ffSize := h.ffSize
      chain := h.chain.congr (fun q _ => (hcell q).1) fun q _ => (hcell q).2.1
      elems := fun x hx => by
        dsimp only
        rw [(hcell x.1).2.2]
        exact h.elems x hx
      fnode := h.fnode
      sorted := ?_
      nodes := h.nodes
      ffs := h.ffs
      freeN := h.freeN
      freeF := h.freeF.congr fun q _ => (hcell q).1 }
  have hs := h.sorted
  have hfr : ∀ x ∈ F₁ ++ F₂, ((H.ff.upd fp fun f => { f with freq := freq }).cells x.1).freq =
      (H.ff.cells x.1).freq := fun x hx => by
    rw [Block.cells_upd_ne _ _ (fst_ne_of_nodup h.nodup_ffs hx)]
  rw [List.pairwise_map] at hs ⊢
  refine pairwise_middle_of (hs.sublist (List.Sublist.append_left (List.sublist_cons_self _ _) _))
    (fun x hx y hy hxy => ?_) (fun x hx => ?_) fun y hy => ?_
  · dsimp only
    rw [hfr x hx, hfr y hy]
    exact hxy
  · dsimp only
    rw [hfr x (List.mem_append_left _ hx), Block.cells_upd_self]
    exact hlt x hx
  · dsimp only
    rw [hfr y (List.mem_append_right _ hy), Block.cells_upd_self]
    exact hgt y hy

/-- `dropFreq` removes the frequency node `fp` if nothing is left in its list. -/
theorem dropFreq_cases (h : HighInv H F FN FF FL) (fp : Int) (ns : List Int) (hfp : (fp, ns) ∈ F)
    (hne : ∀ x ∈ F, x ≠ (fp, ns) → x.2 ≠ []) :
    ∃ H' F' FF', RePair.dropFreq H fp = .ok H' ∧ HighInv H' F' FN FF' FL ∧
      (∀ x ∈ F', x.2 ≠ []) ∧ H'.freq = H.freq ∧
      (∀ i, (H'.ff.cells i).freq = (H.ff.cells i).freq) ∧ SameLow H H' ∧ H'.freef = H.freef := by
  by_cases hns : ns = []
  · subst hns
    obtain ⟨F₁, F₂, rfl⟩ := List.append_of_mem hfp
    obtain ⟨H', hrun, hinv, hnodes, hfreq, hi, hs, hm, hf⟩ := h.dropFreq
    refine ⟨H', _, _, hrun, hinv, fun x hx => ?_, hnodes, hfreq, ⟨hi, hs, hm⟩, hf⟩
    refine hne x (mem_middle_of_mem _ hx) fun he => ?_
    exact fst_ne_of_nodup h.nodup_ffs hx (he ▸ rfl)
  · obtain ⟨e, hseg⟩ := h.elems _ hfp
    have hel : (H.ff.cells fp).elems ≠ -1 := by
      intro he
      refine hns ((hseg.head_eq_target_iff fun hm => ?_).mp he)
      have := (h.elem_inB hfp hm).1
      omega
    refine ⟨H, F, FF, dropFreq_eq_of_nonempty (h.fst_inB hfp) hel, h, fun x hx => ?_, rfl,
      fun _ => rfl, ⟨rfl, rfl, rfl⟩, rfl⟩
    by_cases hx' : x = (fp, ns)
    · rw [hx']
      exact hns
    · exact hne x hx hx'

/-- The floating node `p` joins the list of `nb`, and `fp` is dropped if it is empty. -/
theorem push_drop (h : HighInv H F FN FF [p]) (nb : Int) (ms ns : List Int) (hnb : (nb, ms) ∈ F)
    (hfp : (fp, ns) ∈ F) (hnf : nb ≠ fp) (hne : ∀ x ∈ F, x ≠ (fp, ns) → x.2 ≠ []) :
    ∃ H' F' FF', (do let H ← RePair.pushNode H p nb; RePair.dropFreq H fp) = .ok H' ∧
      HighInv H' F' FN FF' [] ∧ (∀ x ∈ F', x.2 ≠ []) ∧
      (∀ q, (H'.freq.cells q).id = (H.freq.cells q).id) ∧ SameLow H H' ∧
      ∀ q, nodeFreq H' q = if q = p then (H.ff.cells nb).freq else nodeFreq H q := by
  have hms : ms ≠ [] := hne _ hnb fun he => hnf (congrArg Prod.fst he)
  obtain ⟨F₁, F₂, rfl⟩ := List.append_of_mem hnb
  obtain ⟨nodes, ff, hrun, hinv, hid, hfn, hff⟩ := h.pushNode _ hms
  have hfp' : (fp, ns) ∈ F₁ ++ F₂ := by
    rcases mem_middle.mp hfp with he | he
    · exact absurd (congrArg Prod.fst he).symm hnf
    · exact he
  obtain ⟨H', F', FF', hrun', hinv', hne', hnodes, hfreq, hlow, -⟩ :=
    hinv.dropFreq_cases _ _ (mem_middle_of_mem _ hfp') (fun x hx hx' => by
      rcases mem_middle.mp hx with rfl | hx
      · simp
      · exact hne x (mem_middle_of_mem _ hx) hx')
  refine ⟨H', F', FF', ?_, hinv', hne', fun q => ?_, hlow, fun q => ?_⟩
  · rw [hrun, Run.ok_bind, hrun']
  · rw [hnodes, hid q]
  · rw [nodeFreq, hfreq, hnodes]
    dsimp only
    rw [(hff _).1, hfn q]
    split <;> rfl

/-- A fresh frequency node changes the frequency of its own node only. -/
theorem nodeFreq_created {H' : Theap} {lfp freq q : Int} (h : HighInv H F FN (lfp :: FF) [p])
    (hfn : ∀ q, (H'.freq.cells q).fnode = if q = p then lfp else (H.freq.cells q).fnode)
    (hff : ∀ i, (H'.ff.cells i).freq = if i = lfp then freq else (H.ff.cells i).freq)
    (hq : q = p ∨ q ∈ F.flatMap Prod.snd) :
    nodeFreq H' q = if q = p then freq else nodeFreq H q := by
  rw [nodeFreq, hff, hfn q]
  by_cases hqp : q = p
  · rw [if_pos hqp, if_pos rfl, if_pos hqp]
  · obtain ⟨x, hx, hqx⟩ := List.mem_flatMap.mp (hq.resolve_left hqp)
    have hne := ne_of_mem_of_not_mem (List.mem_map_of_mem hx) h.lfp_notMem
    rw [if_neg hqp, if_neg hqp, if_neg (by rw [h.fnode x hx q hqx]; exact hne), nodeFreq]

/-- The floating node `p` gets a frequency node of its own, and `fp` is not empty. -/
theorem create_drop (h : HighInv H (F₁ ++ F₂) FN FF [p]) (freq fp : Int) (ns : List Int)
    (sm lg : Int)
    (hsm : sm = (F₁.map Prod.fst).getLastD (-1)) (hlg : lg = (F₂.map Prod.fst).headD (-1))
    (hlt : ∀ x ∈ F₁, (H.ff.cells x.1).freq < freq) (hgt : ∀ x ∈ F₂, freq < (H.ff.cells x.1).freq)
    (hfp : (fp, ns) ∈ F₁ ++ F₂) (hne : ∀ x ∈ F₁ ++ F₂, x.2 ≠ []) :
    ∃ H' F' FF', (do let H ← RePair.createFreq H p freq sm lg; RePair.dropFreq H fp) = .ok H' ∧
      HighInv H' F' FN FF' [] ∧ (∀ x ∈ F', x.2 ≠ []) ∧
      (∀ q, (H'.freq.cells q).id = (H.freq.cells q).id) ∧ SameLow H H' ∧
      ∀ q, q = p ∨ q ∈ (F₁ ++ F₂).flatMap Prod.snd →
        nodeFreq H' q = if q = p then freq else nodeFreq H q := by
  obtain ⟨lfp, FF', rfl⟩ := h.exists_freeF hne
  obtain ⟨H₁, hrun, hinv, hid, hfn, hff, hlow₁, hlow₂, hlow₃, -⟩ := h.createFreq _ hsm hlg hlt hgt
  have hne' : ∀ x ∈ F₁ ++ (lfp, [p]) :: F₂, x.2 ≠ [] := fun x hx => by
    rcases mem_middle.mp hx with rfl | hx
    · simp
    · exact hne x hx
  obtain ⟨H', F', FF', hrun', hinv', hne', hnodes, hfreq, hlow, -⟩ :=
    hinv.dropFreq_cases _ _ (mem_middle_of_mem _ hfp) fun x hx _ => hne' x hx
  refine ⟨H', F', FF', ?_, hinv', hne', fun q => ?_, ?_, fun q hq => ?_⟩
  · rw [hrun, Run.ok_bind, hrun']
  · rw [hnodes, hid q]
  · exact ⟨hlow.1.trans hlow₁, hlow.2.1.trans hlow₂, hlow.2.2.trans hlow₃⟩
  · rw [nodeFreq, hfreq, hnodes]
    exact h.nodeFreq_created hfn hff hq

end HighInv

namespace High

variable {H H' : Theap} {v : Int → Option Int} {F F' F₁ F₂ : List (Int × List Int)}
  {FN FF FF' n₁ n₂ : List Int} {p fp f f' : Int}

/-- A state with the same free nodes in which only `p` has another frequency. -/
theorem of_moved (h : HighInv H F FN FF [])
    (hv : ∀ q f, v q = some f ↔ q ∈ F.flatMap Prod.snd ∧ nodeFreq H q = f)
    (h' : HighInv H' F' FN FF' []) (hne : ∀ x ∈ F', x.2 ≠ []) (hs : H'.sqrtu = H.sqrtu)
    (hp : p ∈ F.flatMap Prod.snd)
    (hf : ∀ q ∈ F.flatMap Prod.snd, nodeFreq H' q = if q = p then f' else nodeFreq H q) :
    High H' (Function.update v p (some f')) := by
  have hmem : ∀ q, q ∈ F'.flatMap Prod.snd ↔ q ∈ F.flatMap Prod.snd := fun q => by
    rw [h.mem_elems_iff, h'.mem_elems_iff, hs]
  refine ⟨F', FN, FF', h', hne, fun q g => ?_⟩
  rw [hmem]
  by_cases hq : q = p
  · subst hq
    rw [Function.update_self, hf q hp, if_pos rfl, Option.some_inj]
    exact ⟨fun he => ⟨hp, he⟩, fun he => he.2⟩
  · rw [Function.update_of_ne hq, hv]
    refine and_congr_right fun hm => ?_
    rw [hf q hm, if_neg hq]

/-- The frequency node of a node in use, with its neighbours. -/
theorem split (h : HighInv H F FN FF [])
    (hv : ∀ q f, v q = some f ↔ q ∈ F.flatMap Prod.snd ∧ nodeFreq H q = f) (hp : v p = some f) :
    ∃ F₁ F₂ fp n₁ n₂, F = F₁ ++ (fp, n₁ ++ p :: n₂) :: F₂ ∧ (H.freq.cells p).fnode = fp ∧
      (H.ff.cells fp).freq = f := by
  obtain ⟨hm, hf⟩ := (hv p f).mp hp
  obtain ⟨⟨fp, ns⟩, hx, hpx⟩ := List.mem_flatMap.mp hm
  obtain ⟨F₁, F₂, rfl⟩ := List.append_of_mem hx
  obtain ⟨n₁, n₂, hns⟩ := List.append_of_mem hpx
  simp only at hns
  subst hns
  have hfn := h.fnode _ hx p hpx
  refine ⟨F₁, F₂, fp, n₁, n₂, rfl, hfn, ?_⟩
  rw [← hf, nodeFreq, hfn]

/-- The shortcut of `incFreq` and `decFreq`: the only node of a list takes its list along. -/
theorem alone (h : HighInv H (F₁ ++ (fp, [p]) :: F₂) FN FF [])
    (hne : ∀ x ∈ F₁ ++ (fp, [p]) :: F₂, x.2 ≠ [])
    (hv : ∀ q f, v q = some f ↔ q ∈ (F₁ ++ (fp, [p]) :: F₂).flatMap Prod.snd ∧ nodeFreq H q = f)
    (hlt : ∀ x ∈ F₁, (H.ff.cells x.1).freq < f') (hgt : ∀ x ∈ F₂, f' < (H.ff.cells x.1).freq) :
    High { H with ff := H.ff.upd fp fun f => { f with freq := f' } }
      (Function.update v p (some f')) := by
  refine of_moved h hv (h.setFreq hlt hgt) hne rfl (by simp) fun q hq => ?_
  obtain ⟨x, hx, hqx⟩ := List.mem_flatMap.mp hq
  rw [nodeFreq]
  dsimp only
  rw [h.fnode x hx q hqx]
  rcases mem_middle.mp hx with rfl | hx'
  · rw [if_pos (List.mem_singleton.mp hqx), Block.cells_upd_self]
  · have hqp : q ≠ p := fun he => elems_disjoint h.nodup_nodes hx' hqx (by simp [he])
    rw [if_neg hqp, Block.cells_upd_ne _ _ (fst_ne_of_nodup h.nodup_ffs hx'),
      h.nodeFreq_eq hx hqx]

/-- The node of a list that has more than one, or whose new frequency has a list already, leaves
its list; `hrest` is what the rest of the operation makes of that state. -/
theorem of_unlinked (h : HighInv H (F₁ ++ (fp, n₁ ++ p :: n₂) :: F₂) FN FF [])
    (hv : ∀ q f, v q = some f ↔
      q ∈ (F₁ ++ (fp, n₁ ++ p :: n₂) :: F₂).flatMap Prod.snd ∧ nodeFreq H q = f)
    {rest : Theap → Run Theap}
    (hrest : ∀ H₁, HighInv H₁ (F₁ ++ (fp, n₁ ++ n₂) :: F₂) FN FF [p] →
      (∀ i, (H₁.ff.cells i).freq = (H.ff.cells i).freq) →
      ∃ H' F' FF', rest H₁ = .ok H' ∧ HighInv H' F' FN FF' [] ∧ (∀ x ∈ F', x.2 ≠ []) ∧
        (∀ q, (H'.freq.cells q).id = (H₁.freq.cells q).id) ∧ SameLow H₁ H' ∧
        ∀ q, q = p ∨ q ∈ (F₁ ++ (fp, n₁ ++ n₂) :: F₂).flatMap Prod.snd →
          nodeFreq H' q = if q = p then f' else nodeFreq H₁ q) :
    ∃ H', (unlinkNode H p fp >>= rest) = .ok H' ∧ High H' (Function.update v p (some f')) ∧
      (∀ q, (H'.freq.cells q).id = (H.freq.cells q).id) ∧ SameLow H H' := by
  obtain ⟨nodes, ff, hrun, hinv, hid, hff⟩ := h.unlinkNode _ _
  obtain ⟨H', F', FF', hrun', hinv', hne', hid', hlow, hf⟩ :=
    hrest _ hinv fun i => (hff i).1
  refine ⟨H', ?_, ?_, fun q => ?_, hlow⟩
  · rw [hrun, Run.ok_bind, hrun']
  · refine of_moved h hv hinv' hne' hlow.2.1 (by simp) fun q hq => ?_
    rw [hf q]
    · simp only [nodeFreq, (hff _).1, (hid q).2]
    · simp only [List.flatMap_append, List.flatMap_cons, List.mem_append, List.mem_cons] at hq ⊢
      tauto
  · rw [hid' q, (hid q).1]

/-- Only a node without neighbours is the whole list. -/
theorem alone_iff (h : HighInv H (F₁ ++ (fp, n₁ ++ p :: n₂) :: F₂) FN FF []) :
    (H.freq.cells p).prev = -1 ∧ (H.freq.cells p).next = -1 ↔ n₁ = [] ∧ n₂ = [] := by
  have hmem : (fp, n₁ ++ p :: n₂) ∈ F₁ ++ (fp, n₁ ++ p :: n₂) :: F₂ := by simp
  obtain ⟨e, hseg⟩ := h.elems _ hmem
  refine and_congr (hseg.pv_eq_back_iff fun hm => ?_) (hseg.nx_eq_target_iff fun hm => ?_)
  · have := (h.elem_inB hmem (q := -1) (List.mem_append_left _ hm)).1
    omega
  · have := (h.elem_inB hmem (q := -1)
      (List.mem_append_right _ (List.mem_cons_of_mem _ hm))).1
    omega

/-- The node joins the list of a frequency node that has the new frequency. -/
theorem join (h : HighInv H (F₁ ++ (fp, n₁ ++ p :: n₂) :: F₂) FN FF [])
    (hne : ∀ x ∈ F₁ ++ (fp, n₁ ++ p :: n₂) :: F₂, x.2 ≠ [])
    (hv : ∀ q f, v q = some f ↔
      q ∈ (F₁ ++ (fp, n₁ ++ p :: n₂) :: F₂).flatMap Prod.snd ∧ nodeFreq H q = f)
    {nb : Int} {ms : List Int} (hnb : (nb, ms) ∈ F₁ ++ F₂) (hfreq : (H.ff.cells nb).freq = f') :
    ∃ H', (do
        let H ← RePair.unlinkNode H p fp
        let H ← RePair.pushNode H p nb
        RePair.dropFreq H fp) = .ok H' ∧ High H' (Function.update v p (some f')) ∧
      (∀ q, (H'.freq.cells q).id = (H.freq.cells q).id) ∧ SameLow H H' := by
  refine of_unlinked h hv fun H₁ h₁ hf₁ => ?_
  obtain ⟨H', F', FF', hrun, hinv', hne', hid, hlow, hnf'⟩ := h₁.push_drop nb ms
    (n₁ ++ n₂) (mem_middle_of_mem _ hnb) (by simp) (fst_ne_of_nodup h.nodup_ffs hnb)
    (fun x hx hx' => by
      rcases mem_middle.mp hx with rfl | hx
      · exact absurd rfl hx'
      · exact hne x (mem_middle_of_mem _ hx))
  refine ⟨H', F', FF', hrun, hinv', hne', hid, hlow, fun q _ => ?_⟩
  rw [hnf' q, hf₁, hfreq]

/-- The node leaves others behind and gets a list of its own, between `G₁` and `G₂`. -/
theorem part (h : HighInv H (F₁ ++ (fp, n₁ ++ p :: n₂) :: F₂) FN FF [])
    (hne : ∀ x ∈ F₁ ++ (fp, n₁ ++ p :: n₂) :: F₂, x.2 ≠ [])
    (hv : ∀ q f, v q = some f ↔
      q ∈ (F₁ ++ (fp, n₁ ++ p :: n₂) :: F₂).flatMap Prod.snd ∧ nodeFreq H q = f)
    (hal : ¬ (n₁ = [] ∧ n₂ = [])) (G₁ G₂ : List (Int × List Int))
    (hG : F₁ ++ (fp, n₁ ++ n₂) :: F₂ = G₁ ++ G₂) {sm lg : Int}
    (hsm : sm = (G₁.map Prod.fst).getLastD (-1)) (hlg : lg = (G₂.map Prod.fst).headD (-1))
    (hlt : ∀ x ∈ G₁, (H.ff.cells x.1).freq < f') (hgt : ∀ x ∈ G₂, f' < (H.ff.cells x.1).freq) :
    ∃ H', (do
        let H ← RePair.unlinkNode H p fp
        let H ← RePair.createFreq H p f' sm lg
        RePair.dropFreq H fp) = .ok H' ∧ High H' (Function.update v p (some f')) ∧
      (∀ q, (H'.freq.cells q).id = (H.freq.cells q).id) ∧ SameLow H H' := by
  refine of_unlinked h hv fun H₁ h₁ hf₁ => ?_
  have hfp : (fp, n₁ ++ n₂) ∈ F₁ ++ (fp, n₁ ++ n₂) :: F₂ := by simp
  have hne₁ : ∀ x ∈ F₁ ++ (fp, n₁ ++ n₂) :: F₂, x.2 ≠ [] := fun x hx => by
    rcases mem_middle.mp hx with rfl | hx
    · simpa using hal
    · exact hne x (mem_middle_of_mem _ hx)
  rw [hG] at h₁ hfp hne₁ ⊢
  obtain ⟨H', F', FF', hrun, hinv', hne', hid, hlow, hnf⟩ := h₁.create_drop f' fp (n₁ ++ n₂) sm lg
    hsm hlg (fun x hx => by rw [hf₁]; exact hlt x hx) (fun x hx => by rw [hf₁]; exact hgt x hx)
    hfp hne₁
  exact ⟨H', F', FF', hrun, hinv', hne', hid, hlow, hnf⟩

section Around

variable {ns : List Int}

/-- The frequencies around `fp`. -/
theorem sorted_around (h : HighInv H (F₁ ++ (fp, ns) :: F₂) FN FF []) :
    (∀ x ∈ F₁, (H.ff.cells x.1).freq < (H.ff.cells fp).freq) ∧
      (∀ x ∈ F₂, (H.ff.cells fp).freq < (H.ff.cells x.1).freq) ∧
      (∀ x y F, F₂ = x :: F → y ∈ F → (H.ff.cells x.1).freq < (H.ff.cells y.1).freq) ∧
      ∀ x y F, F₁ = F ++ [x] → y ∈ F → (H.ff.cells y.1).freq < (H.ff.cells x.1).freq := by
  have hs := h.sorted
  rw [List.pairwise_map, List.pairwise_append, List.pairwise_cons] at hs
  refine ⟨fun x hx => hs.2.2 x hx _ (List.mem_cons_self ..), hs.2.1.1, ?_, ?_⟩
  · rintro x y F rfl hy
    exact (List.pairwise_cons.mp hs.2.1.2).1 y hy
  · rintro x y F rfl hy
    exact (List.pairwise_append.mp hs.1).2.2 y hy x (by simp)

theorem chain_around (h : HighInv H (F₁ ++ (fp, ns) :: F₂) FN FF []) :
    (H.ff.cells fp).smaller = (F₁.map Prod.fst).getLastD (-1) ∧
      (H.ff.cells fp).larger = (F₂.map Prod.fst).headD (-1) := by
  have hc := h.chain
  rw [List.map_append, List.map_cons] at hc
  exact ⟨hc.pv_eq, hc.nx_eq⟩

/-- The next larger frequency node, if there is one. -/
theorem exists_larger (h : HighInv H (F₁ ++ (fp, ns) :: F₂) FN FF [])
    (hl : (H.ff.cells fp).larger ≠ -1) :
    ∃ ms F, F₂ = ((H.ff.cells fp).larger, ms) :: F := by
  have hlg := (chain_around h).2
  cases F₂ with
  | nil => exact absurd hlg hl
  | cons x F =>
    obtain ⟨nb, ms⟩ := x
    exact ⟨ms, F, by rw [hlg]; rfl⟩

/-- The next smaller frequency node, if there is one. -/
theorem exists_smaller (h : HighInv H (F₁ ++ (fp, ns) :: F₂) FN FF [])
    (hl : (H.ff.cells fp).smaller ≠ -1) :
    ∃ ms F, F₁ = F ++ [((H.ff.cells fp).smaller, ms)] := by
  have hsm := (chain_around h).1
  rcases List.eq_nil_or_concat' F₁ with rfl | ⟨F, ⟨nb, ms⟩, rfl⟩
  · exact absurd hsm hl
  · rw [List.map_append, List.map_singleton, List.getLastD_concat] at hsm
    exact ⟨ms, F, by rw [hsm]⟩

/-- Without a list for the next frequency all larger ones are behind it. -/
theorem lt_larger (h : HighInv H (F₁ ++ (fp, ns) :: F₂) FN FF [])
    (hno : ¬ ((H.ff.cells fp).larger ≠ -1 ∧ (H.ff.cells (H.ff.cells fp).larger).freq =
      (H.ff.cells fp).freq + 1)) {x : Int × List Int} (hx : x ∈ F₂) :
    (H.ff.cells fp).freq + 1 < (H.ff.cells x.1).freq := by
  obtain ⟨-, hs₂, hs₃, -⟩ := sorted_around h
  have hl : (H.ff.cells fp).larger ≠ -1 := fun he => by
    have hlg := (chain_around h).2
    cases F₂ with
    | nil => simp at hx
    | cons y F =>
      have h0 := (h.fst_inB (x := y) (by simp)).1
      rw [List.map_cons, List.headD_cons] at hlg
      omega
  obtain ⟨ms, F, rfl⟩ := exists_larger h hl
  have hy := hs₂ _ List.mem_cons_self
  have hne : (H.ff.cells (H.ff.cells fp).larger).freq ≠ (H.ff.cells fp).freq + 1 := fun he =>
    hno ⟨hl, he⟩
  dsimp only at hy
  rcases List.mem_cons.mp hx with rfl | hx
  · dsimp only
    omega
  · have := hs₃ _ x F rfl hx
    dsimp only at this
    omega

/-- Without a list for the frequency below all smaller ones are before it. -/
theorem smaller_lt (h : HighInv H (F₁ ++ (fp, ns) :: F₂) FN FF [])
    (hno : ¬ ((H.ff.cells fp).smaller ≠ -1 ∧ (H.ff.cells (H.ff.cells fp).smaller).freq =
      (H.ff.cells fp).freq - 1)) {x : Int × List Int} (hx : x ∈ F₁) :
    (H.ff.cells x.1).freq < (H.ff.cells fp).freq - 1 := by
  obtain ⟨hs₁, -, -, hs₃⟩ := sorted_around h
  have hl : (H.ff.cells fp).smaller ≠ -1 := fun he => by
    have hsm := (chain_around h).1
    rcases List.eq_nil_or_concat' F₁ with rfl | ⟨F, y, rfl⟩
    · simp at hx
    · have h0 := (h.fst_inB (x := y) (by simp)).1
      rw [List.map_append, List.map_singleton, List.getLastD_concat] at hsm
      omega
  obtain ⟨ms, F, rfl⟩ := exists_smaller h hl
  have hy := hs₁ _ (List.mem_append_right F List.mem_cons_self)
  have hne : (H.ff.cells (H.ff.cells fp).smaller).freq ≠ (H.ff.cells fp).freq - 1 := fun he =>
    hno ⟨hl, he⟩
  dsimp only at hy
  rcases List.mem_append.mp hx with hx | hx
  · have := hs₃ _ x F rfl hx
    dsimp only at this
    omega
  · rw [List.mem_singleton.mp hx]
    dsimp only
    omega

end Around

/-- `incFreq` on a frequent pair. -/
theorem incHigh (h : High H v) (hp : v p = some f) :
    ∃ H', incHigh H p (f + 1) = .ok H' ∧ High H' (Function.update v p (some (f + 1))) ∧
      (∀ q, (H'.freq.cells q).id = (H.freq.cells q).id) ∧ SameLow H H' := by
  obtain ⟨F, FN, FF, hinv, hne, hv⟩ := h
  obtain ⟨F₁, F₂, fp, n₁, n₂, rfl, hfn, rfl⟩ := split hinv hv hp
  have hmem : (fp, n₁ ++ p :: n₂) ∈ F₁ ++ (fp, n₁ ++ p :: n₂) :: F₂ := by simp
  have hpin : H.freq.InB p := hinv.elem_inB hmem (q := p) (by simp)
  have hfpin : H.ff.InB fp := hinv.fst_inB hmem
  have hlgin : (H.ff.cells fp).larger ≠ -1 → H.ff.InB (H.ff.cells fp).larger := fun hl => by
    obtain ⟨ms, F, rfl⟩ := exists_larger hinv hl
    exact hinv.fst_inB (x := (_, ms)) (by simp)
  have hs₁ := (sorted_around hinv).1
  rw [RePair.incHigh, Block.read_eq hpin, Run.ok_bind]
  dsimp only
  rw [hfn, Block.read_eq hfpin, Run.ok_bind, hasFreq_eq hlgin, Run.ok_bind]
  by_cases hex : (H.ff.cells fp).larger ≠ -1 ∧
      (H.ff.cells (H.ff.cells fp).larger).freq = (H.ff.cells fp).freq + 1
  · -- the next frequency has a list
    simp only [hex, ne_eq, not_false_eq_true, and_self, decide_true, reduceCtorEq, and_false,
      ↓reduceIte]
    obtain ⟨ms, F, hF⟩ := exists_larger hinv hex.1
    have hnb : ((H.ff.cells fp).larger, ms) ∈ F₁ ++ F₂ := by simp [hF]
    exact join hinv hne hv hnb hex.2
  · have hgt : ∀ x ∈ F₂, (H.ff.cells fp).freq + 1 < (H.ff.cells x.1).freq := fun x hx =>
      lt_larger hinv hex hx
    simp only [hex, decide_false, Bool.false_eq_true, ↓reduceIte, and_true, alone_iff hinv]
    by_cases hal : n₁ = [] ∧ n₂ = []
    · obtain ⟨rfl, rfl⟩ := hal
      simp only [and_self, ↓reduceIte, Block.modify_eq hfpin, Run.ok_bind]
      refine ⟨_, rfl, ?_, fun _ => rfl, rfl, rfl, rfl⟩
      exact alone hinv hne hv (fun x hx => by have := hs₁ x hx; omega) hgt
    · rw [if_neg hal]
      refine part hinv hne hv hal (F₁ ++ [(fp, n₁ ++ n₂)]) F₂ (by simp) (by simp)
        (chain_around hinv).2 (fun x hx => ?_) hgt
      rcases List.mem_append.mp hx with hx | hx
      · have := hs₁ x hx
        omega
      · rw [List.mem_singleton.mp hx]
        dsimp only
        omega

/-- `decFreq` on a frequent pair. -/
theorem decHigh (h : High H v) (hp : v p = some f) :
    ∃ H', decHigh H p (f - 1) = .ok H' ∧ High H' (Function.update v p (some (f - 1))) ∧
      (∀ q, (H'.freq.cells q).id = (H.freq.cells q).id) ∧ SameLow H H' := by
  obtain ⟨F, FN, FF, hinv, hne, hv⟩ := h
  obtain ⟨F₁, F₂, fp, n₁, n₂, rfl, hfn, rfl⟩ := split hinv hv hp
  have hmem : (fp, n₁ ++ p :: n₂) ∈ F₁ ++ (fp, n₁ ++ p :: n₂) :: F₂ := by simp
  have hpin : H.freq.InB p := hinv.elem_inB hmem (q := p) (by simp)
  have hfpin : H.ff.InB fp := hinv.fst_inB hmem
  have hsmin : (H.ff.cells fp).smaller ≠ -1 → H.ff.InB (H.ff.cells fp).smaller := fun hl => by
    obtain ⟨ms, F, rfl⟩ := exists_smaller hinv hl
    exact hinv.fst_inB (x := (_, ms)) (by simp)
  have hs₂ := (sorted_around hinv).2.1
  rw [RePair.decHigh, Block.read_eq hpin, Run.ok_bind]
  dsimp only
  rw [hfn, Block.read_eq hfpin, Run.ok_bind, hasFreq_eq hsmin, Run.ok_bind]
  by_cases hex : (H.ff.cells fp).smaller ≠ -1 ∧
      (H.ff.cells (H.ff.cells fp).smaller).freq = (H.ff.cells fp).freq - 1
  · -- the frequency below has a list
    simp only [hex, ne_eq, not_false_eq_true, and_self, decide_true, reduceCtorEq, and_false,
      ↓reduceIte]
    obtain ⟨ms, F, hF⟩ := exists_smaller hinv hex.1
    have hnb : ((H.ff.cells fp).smaller, ms) ∈ F₁ ++ F₂ := by simp [hF]
    exact join hinv hne hv hnb hex.2
  · have hlt : ∀ x ∈ F₁, (H.ff.cells x.1).freq < (H.ff.cells fp).freq - 1 := fun x hx =>
      smaller_lt hinv hex hx
    simp only [hex, decide_false, Bool.false_eq_true, ↓reduceIte, and_true, alone_iff hinv]
    by_cases hal : n₁ = [] ∧ n₂ = []
    · obtain ⟨rfl, rfl⟩ := hal
      simp only [and_self, ↓reduceIte, Block.modify_eq hfpin, Run.ok_bind]
      refine ⟨_, rfl, ?_, fun _ => rfl, rfl, rfl, rfl⟩
      exact alone hinv hne hv hlt fun x hx => by have := hs₂ x hx; omega
    · rw [if_neg hal]
      refine part hinv hne hv hal F₁ ((fp, n₁ ++ n₂) :: F₂) rfl (chain_around hinv).1 (by simp) hlt
        fun x hx => ?_
      rcases List.mem_cons.mp hx with rfl | hx
      · dsimp only
        omega
      · have := hs₂ x hx
        omega

/-! ## Entering and leaving -/

/-- A state in which `p` is free and everything else is as before. -/
theorem of_removed (h : HighInv H F FN FF [])
    (hv : ∀ q f, v q = some f ↔ q ∈ F.flatMap Prod.snd ∧ nodeFreq H q = f)
    (h' : HighInv H' F' (p :: FN) FF' []) (hne : ∀ x ∈ F', x.2 ≠ []) (hs : H'.sqrtu = H.sqrtu)
    (hf : ∀ q, nodeFreq H' q = nodeFreq H q) :
    High H' (Function.update v p none) := by
  refine ⟨F', p :: FN, FF', h', hne, fun q g => ?_⟩
  rw [h'.mem_elems_iff, hs, List.mem_cons, hf q]
  by_cases hq : q = p
  · subst hq
    simp
  · rw [Function.update_of_ne hq, hv, h.mem_elems_iff]
    simp [hq]

/-- A state in which the free node `p` has come into use. -/
theorem of_added (h : HighInv H F (p :: FN) FF [])
    (hv : ∀ q f, v q = some f ↔ q ∈ F.flatMap Prod.snd ∧ nodeFreq H q = f)
    (h' : HighInv H' F' FN FF' []) (hne : ∀ x ∈ F', x.2 ≠ []) (hs : H'.sqrtu = H.sqrtu)
    (hf : ∀ q, q = p ∨ q ∈ F.flatMap Prod.snd →
      nodeFreq H' q = if q = p then f' else nodeFreq H q) :
    High H' (Function.update v p (some f')) := by
  have hnd := h.nodup_nodes
  simp only [List.nil_append, List.cons_append, List.nodup_cons, List.mem_append, not_or] at hnd
  have hmem : ∀ q, q ∈ F'.flatMap Prod.snd ↔ q = p ∨ q ∈ F.flatMap Prod.snd := fun q => by
    have hslot : p ∈ slots H.sqrtu := h.nodes.mem_iff.mp (by simp)
    rw [h.mem_elems_iff, h'.mem_elems_iff, hs, List.mem_cons, not_or]
    constructor
    · rintro ⟨hq, hq'⟩
      by_cases hqp : q = p
      · exact Or.inl hqp
      · exact Or.inr ⟨hq, hqp, hq'⟩
    · rintro (rfl | ⟨hq, -, hq'⟩)
      · exact ⟨hslot, hnd.1.1⟩
      · exact ⟨hq, hq'⟩
  refine ⟨F', FN, FF', h', hne, fun q g => ?_⟩
  rw [hmem]
  by_cases hq : q = p
  · subst hq
    rw [Function.update_self, hf q (Or.inl rfl), if_pos rfl, Option.some_inj]
    simp
  · rw [Function.update_of_ne hq, hv]
    simp only [hq, false_or]
    refine and_congr_right fun hm => ?_
    rw [hf q (Or.inr hm), if_neg hq]

/-- The smallest frequency heads the list. -/
theorem smallest_of_minimal (h : HighInv H (F₁ ++ (fp, n₁) :: F₂) FN FF [])
    (hne : ∀ x ∈ F₁ ++ (fp, n₁) :: F₂, x.2 ≠ [])
    (hv : ∀ q f, v q = some f ↔
      q ∈ (F₁ ++ (fp, n₁) :: F₂).flatMap Prod.snd ∧ nodeFreq H q = f)
    (hmin : ∀ q f, v q = some f → (H.ff.cells fp).freq ≤ f) : F₁ = [] := by
  cases F₁ with
  | nil => rfl
  | cons x F₁ =>
    obtain ⟨q, hq⟩ := List.exists_mem_of_ne_nil x.2 (hne x (by simp))
    have hx : x ∈ x :: F₁ ++ (fp, n₁) :: F₂ := by simp
    have h₁ := hmin q _ ((hv q _).mpr ⟨List.mem_flatMap.mpr ⟨x, hx, hq⟩, rfl⟩)
    have h₂ := (sorted_around h).1 x (by simp)
    rw [h.nodeFreq_eq hx hq] at h₁
    omega

/-- The node `p`, just taken off the free list, goes to the front of the whole list. -/
theorem enter (h : HighInv H F FN FF [p]) (hne : ∀ x ∈ F, x.2 ≠ [])
    (hmin : ∀ x ∈ F, f ≤ (H.ff.cells x.1).freq) :
    ∃ H' F' FF', (do
        let ex ← hasFreq H.ff H.smallest f
        if ex then pushNode H p H.smallest else createSmallest H p f) = .ok H' ∧
      HighInv H' F' FN FF' [] ∧ (∀ x ∈ F', x.2 ≠ []) ∧
      (∀ q, (H'.freq.cells q).id = (H.freq.cells q).id) ∧ SameLow H H' ∧
      ∀ q, q = p ∨ q ∈ F.flatMap Prod.snd →
        nodeFreq H' q = if q = p then f else nodeFreq H q := by
  have hsmin : H.smallest ≠ -1 → H.ff.InB H.smallest := fun hl => by
    obtain ⟨x, hx, he⟩ := List.mem_map.mp (h.chain.head_mem_or.resolve_left hl)
    exact he ▸ h.fst_inB hx
  rw [hasFreq_eq hsmin, Run.ok_bind]
  by_cases hex : H.smallest ≠ -1 ∧ (H.ff.cells H.smallest).freq = f
  · simp only [hex, ne_eq, not_false_eq_true, and_self, decide_true, ↓reduceIte]
    cases F with
    | nil => exact absurd h.chain.1 hex.1
    | cons y F =>
      obtain ⟨nb, ms⟩ := y
      obtain rfl : H.smallest = nb := h.chain.1
      obtain ⟨nodes, ff, hrun, hinv', hid', hfn', hff'⟩ :=
        HighInv.pushNode [] (hne (H.smallest, ms) (by simp)) h
      refine ⟨_, _, _, hrun, hinv', fun x hx => ?_, hid', ⟨rfl, rfl, rfl⟩, fun q _ => ?_⟩
      · rcases mem_middle.mp hx with rfl | hx
        · simp
        · exact hne x (List.mem_cons_of_mem _ hx)
      · rw [nodeFreq]
        dsimp only
        rw [(hff' _).1, hfn' q]
        split
        · exact hex.2
        · rfl
  · simp only [hex, decide_false, Bool.false_eq_true, ↓reduceIte]
    have hneg : (-1 : Int) ∉ F.map Prod.fst := fun hm => by
      have := (h.ff_inB (List.mem_append_right _ hm)).1
      omega
    have hends : H.largest = -1 ↔ H.smallest = -1 := by
      rw [h.chain.last_eq_back_iff hneg, h.chain.head_eq_target_iff hneg]
    have hgt : ∀ x ∈ F, f < (H.ff.cells x.1).freq := fun x hx => by
      cases F with
      | nil => simp at hx
      | cons y F =>
        have hy : H.smallest = y.1 := h.chain.1
        have hyf : (H.ff.cells y.1).freq ≠ f := fun he => hex (by
          rw [hy]
          exact ⟨by have := (h.fst_inB (x := y) (by simp)).1; omega, he⟩)
        have hyge := hmin y (by simp)
        rcases List.mem_cons.mp hx with rfl | hx
        · omega
        · have hs := h.sorted
          rw [List.pairwise_map] at hs
          have := (List.pairwise_cons.mp hs).1 x hx
          omega
    rw [createSmallest_eq_createFreq hends]
    obtain ⟨lfp, FF', rfl⟩ := h.exists_freeF hne
    obtain ⟨H', hrun, hinv', hid', hfn', hff', hl₁, hl₂, hl₃, -⟩ :=
      HighInv.createFreq [] h rfl h.chain.head_eq (by simp) hgt
    refine ⟨H', _, _, hrun, hinv', fun x hx => ?_, hid', ⟨hl₁, hl₂, hl₃⟩, fun q hq => ?_⟩
    · rcases mem_middle.mp hx with rfl | hx
      · simp
      · exact hne x hx
    · exact h.nodeFreq_created hfn' hff' hq

/-- A record enters the linked lists with a frequency that none of them is below. -/
theorem enterHigh {recs : Block Trecord} {id : Int} (h : High H v)
    (hcap : ∃ q, H.freq.InB q ∧ v q = none) (hmin : ∀ q g, v q = some g → f ≤ g)
    (hid : recs.InB id) :
    ∃ H' p, enterHigh H recs id f = .ok (H', recs.upd id fun r => { r with hpos := p }) ∧
      v p = none ∧ High H' (Function.update v p (some f)) ∧
      (∀ q, (H'.freq.cells q).id = if q = p then id else (H.freq.cells q).id) ∧
      SameLow H H' := by
  obtain ⟨F, FN, FF, hinv, hne, hv⟩ := h
  obtain ⟨q, hq, hvq⟩ := hcap
  have hqfree : q ∈ FN := by
    by_contra hn
    have hm := hinv.mem_elems_iff.mpr ⟨mem_slots.mpr ⟨hq.1, hinv.freqSize ▸ hq.2⟩, hn⟩
    have := (hv q _).mpr ⟨hm, rfl⟩
    rw [hvq] at this
    simp at this
  cases FN with
  | nil => simp at hqfree
  | cons p FN =>
    have hfree : H.freef = p := hinv.freeN.1
    have hpin : H.freq.InB p := hinv.node_inB (by simp)
    have hvp : v p = none := by
      cases hvp : v p with
      | none => rfl
      | some g => exact absurd (hinv.mem_elems_iff.mp ((hv p g).mp hvp).1).2 (by simp)
    have hcell : ∀ q, ((H.freq.upd p fun r => { r with id := id }).cells q).id =
        (if q = p then id else (H.freq.cells q).id) ∧
        ((H.freq.upd p fun r => { r with id := id }).cells q).fnode = (H.freq.cells q).fnode :=
      fun q => by
        rw [Block.cells_upd]
        split
        · next hq => rw [hq]; exact ⟨rfl, rfl⟩
        · exact ⟨rfl, rfl⟩
    obtain ⟨H', F', FF', hrun, hinv', hne', hid', hlow, hf⟩ :=
      enter (f := f) (hinv.allocNode id) hne fun x hx => by
        obtain ⟨q, hq⟩ := List.exists_mem_of_ne_nil x.2 (hne x hx)
        have h₁ := hmin q _ ((hv q _).mpr ⟨List.mem_flatMap.mpr ⟨x, hx, hq⟩, rfl⟩)
        rwa [hinv.nodeFreq_eq hx hq] at h₁
    refine ⟨H', p, ?_, hvp, ?_, fun q => ?_, hlow⟩
    · rw [RePair.enterHigh, hfree, Block.read_eq hpin, Run.ok_bind]
      simp only [Block.modify_eq hid, Block.modify_eq hpin, Run.ok_bind]
      rw [← bind_assoc, hrun]
      rfl
    · refine of_added hinv hv hinv' hne' hlow.2.1 fun q hq => ?_
      rw [hf q hq]
      simp only [nodeFreq, (hcell q).2]
    · rw [hid' q]
      exact (hcell q).1

/-- The rest of `leaveHigh` is `dropFreq` when the list was the smallest. -/
theorem leaveHigh_eq {fp : Int} (hfn : (H.freq.cells p).fnode = fp) (hp : H.freq.InB p)
    (hrun : unlinkNode H p fp = .ok H') (hp' : H'.freq.InB p) (hfp : H'.ff.InB fp)
    (hsm : (H'.ff.cells fp).smaller = -1) :
    leaveHigh H p = dropFreq { H' with
      freef := p, freq := H'.freq.upd p fun q => { q with next := H'.freef } } fp := by
  simp only [leaveHigh, dropFreq, Block.read_eq hp, Run.ok_bind, hfn, hrun, Block.modify_eq hp',
    Block.read_eq hfp, hsm, ↓reduceIte, Run.pure_bind]

/-- A record of the smallest frequency leaves the linked lists. -/
theorem leaveHigh (h : High H v) (hp : v p = some f) (hmin : ∀ q g, v q = some g → f ≤ g) :
    ∃ H', leaveHigh H p = .ok H' ∧ High H' (Function.update v p none) ∧
      (∀ q, (H'.freq.cells q).id = (H.freq.cells q).id) ∧ SameLow H H' := by
  obtain ⟨F, FN, FF, hinv, hne, hv⟩ := h
  obtain ⟨F₁, F₂, fp, n₁, n₂, rfl, hfn, hfreq⟩ := split hinv hv hp
  obtain rfl := smallest_of_minimal hinv hne hv (hfreq ▸ hmin)
  rw [List.nil_append] at hinv hne hv
  have hmem : (fp, n₁ ++ p :: n₂) ∈ (fp, n₁ ++ p :: n₂) :: F₂ := by simp
  obtain ⟨nodes, ff, hrun, hinv₁, hid, hff⟩ := HighInv.unlinkNode [] _ hinv
  have hmem₁ : (fp, n₁ ++ n₂) ∈ [] ++ (fp, n₁ ++ n₂) :: F₂ := by simp
  have hcell : ∀ q, ((nodes.upd p fun q => { q with next := H.freef }).cells q).id =
      (H.freq.cells q).id ∧ ((nodes.upd p fun q => { q with next := H.freef }).cells q).fnode =
      (H.freq.cells q).fnode := fun q => by
    rw [← (hid q).1, ← (hid q).2, Block.cells_upd]
    split
    · next hq => rw [hq]; exact ⟨rfl, rfl⟩
    · exact ⟨rfl, rfl⟩
  obtain ⟨H', F', FF', hrun', hinv', hne', hnodes, hfreq', hlow, -⟩ :=
    hinv₁.freeNode.dropFreq_cases _ _ hmem₁ (fun x hx hx' => by
      rcases mem_middle.mp hx with rfl | hx
      · exact absurd rfl hx'
      · exact hne x (List.mem_cons_of_mem _ hx))
  refine ⟨H', ?_, ?_, fun q => ?_, hlow⟩
  · rw [leaveHigh_eq hfn (hinv.elem_inB hmem (by simp)) hrun (hinv₁.node_inB (by simp))
      (hinv₁.fst_inB hmem₁) hinv₁.chain.2.1]
    exact hrun'
  · refine of_removed hinv hv hinv' hne' hlow.2.1 fun q => ?_
    rw [nodeFreq, hfreq', hnodes]
    dsimp only
    rw [(hcell q).2, (hff _).1]
    rfl
  · rw [hnodes]
    exact (hcell q).1

/-- `extractHigh` unlinks the first node of the largest list, drops the list if it is empty and
frees the node. -/
theorem extractHigh_eq {fp : Int} (hfp : H.largest = fp) (hel : (H.ff.cells fp).elems = p)
    (hfpin : H.ff.InB fp) (hpin : H.freq.InB p) (hprev : (H.freq.cells p).prev = -1)
    (hlg : (H.ff.cells fp).larger = -1) :
    extractHigh H = (do
      let H₁ ← unlinkNode H p fp
      let H₂ ← dropFreq H₁ fp
      let nodes ← H₂.freq.modify p fun q => { q with next := H₂.freef }
      pure ((H.freq.cells p).id, { H₂ with freq := nodes, freef := p })) := by
  have hread : ∀ g : Thfreq → Thfreq, (H.ff.upd fp g).read fp = .ok (g (H.ff.cells fp)) :=
    fun g => by rw [Block.read_eq (b := H.ff.upd fp g) hfpin, Block.cells_upd_self]
  by_cases hnext : (H.freq.cells p).next = -1
  · simp only [extractHigh, unlinkNode, dropFreq, hfp, hel, hprev, hnext, hlg,
      Block.read_eq hfpin, Block.read_eq hpin, hread, Block.modify_eq hfpin,
      Run.ok_bind, Run.pure_bind, ne_eq, not_true_eq_false, ↓reduceIte]
    by_cases hsm : (H.ff.cells fp).smaller = -1
    · simp only [hsm, ↓reduceIte, Run.pure_bind]
    · simp only [hsm, ↓reduceIte, bind_assoc, Run.pure_bind]
  · simp only [extractHigh, unlinkNode, dropFreq, hfp, hel, hprev, hnext, hread,
      Block.read_eq hfpin, Block.read_eq hpin, Block.modify_eq hfpin, Run.ok_bind,
      Run.pure_bind, ne_eq, not_false_eq_true, ↓reduceIte, bind_assoc]

/-- Without a largest frequency the linked lists are empty. -/
theorem eq_none (h : High H v) (hl : H.largest = -1) (q : Int) : v q = none := by
  obtain ⟨F, FN, FF, hinv, hne, hv⟩ := h
  have hF : F = [] := by
    rcases List.eq_nil_or_concat F with hF | ⟨F₁, x, rfl⟩
    · exact hF
    · have hx := (hinv.fst_inB (x := x) (by simp)).1
      have hlast : H.largest = x.1 := by rw [hinv.chain.last_eq]; simp
      omega
  rw [Option.eq_none_iff_forall_ne_some]
  intro f hq
  have := ((hv q f).mp hq).1
  rw [hF] at this
  cases this

/-- An element of the largest frequency leaves the linked lists. -/
theorem extractHigh (h : High H v) (hl : H.largest ≠ -1) :
    ∃ H' p f, extractHigh H = .ok ((H.freq.cells p).id, H') ∧ v p = some f ∧
      (∀ q g, v q = some g → g ≤ f) ∧ High H' (Function.update v p none) ∧
      (∀ q, (H'.freq.cells q).id = (H.freq.cells q).id) ∧ SameLow H H' := by
  obtain ⟨F, FN, FF, hinv, hne, hv⟩ := h
  rcases List.eq_nil_or_concat F with rfl | ⟨F₁, ⟨fp, ns⟩, rfl⟩
  · exact absurd hinv.chain.2.symm hl
  rw [List.concat_eq_append] at hinv hne hv
  have hmem : (fp, ns) ∈ F₁ ++ [(fp, ns)] := by simp
  cases ns with
  | nil => exact absurd rfl (hne _ hmem)
  | cons p ns =>
    obtain ⟨e, hseg⟩ := hinv.elems _ hmem
    have hfp : H.largest = fp := by rw [hinv.chain.last_eq]; simp
    have hc := hinv.chain
    rw [List.map_append, List.map_cons] at hc
    have hpin : H.freq.InB p := hinv.elem_inB hmem (by simp)
    obtain ⟨nodes, ff, hrun, hinv₁, hid, hff⟩ := HighInv.unlinkNode _ [] hinv
    obtain ⟨H₂, F', FF', hrun₂, hinv₂, hne₂, hnodes, hfreq₂, hlow, -⟩ :=
      hinv₁.dropFreq_cases fp ns (by simp) (fun x hx hx' => by
        rcases mem_middle.mp hx with rfl | hx
        · exact absurd rfl hx'
        · exact hne x (mem_middle_of_mem _ hx))
    have hpm : p ∈ (F₁ ++ [(fp, p :: ns)]).flatMap Prod.snd :=
      List.mem_flatMap.mpr ⟨_, hmem, by simp⟩
    have hcell : ∀ q, ((H₂.freq.upd p fun q => { q with next := H₂.freef }).cells q).id =
        (H.freq.cells q).id ∧ ((H₂.freq.upd p fun q => { q with next := H₂.freef }).cells q).fnode =
        (H.freq.cells q).fnode := fun q => by
      rw [← (hid q).1, ← (hid q).2, Block.cells_upd, hnodes]
      split
      · next hq => rw [hq]; exact ⟨rfl, rfl⟩
      · exact ⟨rfl, rfl⟩
    refine ⟨{ H₂ with freef := p, freq := H₂.freq.upd p fun q => { q with next := H₂.freef } }, p,
      nodeFreq H p, ?_, (hv p _).mpr ⟨hpm, rfl⟩, fun q g hq => ?_, ?_, ?_, hlow⟩
    · rw [extractHigh_eq hfp hseg.1 (hinv.fst_inB hmem) hpin hseg.2.1 hc.nx_eq, hrun, Run.ok_bind,
        hrun₂, Run.ok_bind, Block.modify_eq (hinv₂.node_inB (by simp)), Run.ok_bind]
      rfl
    · -- the frequencies increase along the list
      obtain ⟨hqm, rfl⟩ := (hv q g).mp hq
      obtain ⟨x, hx, hqx⟩ := List.mem_flatMap.mp hqm
      rw [nodeFreq, nodeFreq, hinv.fnode x hx q hqx, hinv.fnode _ hmem p (by simp)]
      rcases List.mem_append.mp hx with hx | hx
      · have hs := hinv.sorted
        rw [List.map_append, List.map_singleton] at hs
        exact Int.le_of_lt ((List.pairwise_append.mp hs).2.2 x.1 (List.mem_map_of_mem hx) fp (by simp))
      · exact Int.le_of_eq (by rw [List.mem_singleton.mp hx])
    · refine of_removed hinv hv hinv₂.freeNode hne₂ hlow.2.1 fun q => ?_
      rw [nodeFreq]
      dsimp only
      rw [(hcell q).2, hfreq₂, (hff _).1]
      rfl
    · exact fun q => (hcell q).1

end High

end Laconic.RePair

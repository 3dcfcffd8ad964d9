import Laconic.Filter.MergeInv

/-!
# The rule filter: one merge

`mergeRule` inlines a rule into the rows where it occurs and notes in the columns of its entries
where they occur now.  Each round splices one occurrence; the loops go over all of them.
-/

namespace Laconic.Filter

open Slp Splice Relation

/-- The nodes that are left when `ID` is dropped. -/
def Without (A : Int → Prop) (ID v : Int) : Prop := A v ∧ v ≠ ID

/-! ## Splicing one occurrence after the other -/

/-- The lists `g`, in which `ID` is still to be replaced at the nodes `rest`. -/
structure Splicing (A : Int → Prop) (ID : Int) (g₀ : Block (List Int)) (rest : List Int)
    (g : Block (List Int)) : Prop where
  size : g.size = g₀.size
  body : g.cells ID = g₀.cells ID
  rows : ∀ v, A v → inline ID (g₀.cells ID) (g.cells v) = inline ID (g₀.cells ID) (g₀.cells v)
  left : ∀ v, A v → (g.cells v).count ID = rest.count v
  fewer : ∀ v, A v → (g.cells v).count ID ≤ (g₀.cells v).count ID
  nodes : ∀ v ∈ rest, A v ∧ v ≠ ID

namespace Splicing

variable {A : Int → Prop} {ID node : Int} {g₀ g : Block (List Int)} {rest : List Int}

theorem init (hcount : ∀ v, A v → (g₀.cells v).count ID = rest.count v)
    (hnodes : ∀ v ∈ rest, A v ∧ v ≠ ID) : Splicing A ID g₀ rest g₀ :=
  ⟨rfl, rfl, fun _ _ => rfl, hcount, fun _ _ => Nat.le_refl _, hnodes⟩

theorem inB (h : Splicing A ID g₀ rest g) {v : Int} (hv : g₀.InB v) : g.InB v := by
  rwa [Block.InB, h.size]

theorem mem (h : Splicing A ID g₀ (node :: rest) g) : ID ∈ g.cells node := by
  have hcount := h.left node (h.nodes node List.mem_cons_self).1
  rw [List.count_cons_self] at hcount
  exact List.count_pos_iff.mp (by omega)

/-- The first occurrence in the row of the next node is replaced. -/
theorem step (h : Splicing A ID g₀ (node :: rest) g) (hfree : ID ∉ g₀.cells ID) :
    ∃ row, replaceFirst ID (g₀.cells ID) (g.cells node) = .ok row ∧
      Spliced ID (g₀.cells ID) (g.cells node) row ∧
      Splicing A ID g₀ rest (g.upd node fun _ => row) := by
  obtain ⟨hA, hne⟩ := h.nodes node List.mem_cons_self
  have hcount := h.left node hA
  rw [List.count_cons_self] at hcount
  obtain ⟨row, hrow, hs⟩ := replaceFirst_eq (g₀.cells ID) h.mem
  have hself := hs.count_self hfree
  refine ⟨row, hrow, hs, h.size, ?_, fun v hv => ?_, fun v hv => ?_, fun v hv => ?_,
    fun v hv => h.nodes v (List.mem_cons_of_mem _ hv)⟩
  · rw [Block.cells_upd_ne _ _ (Ne.symm hne), h.body]
  · by_cases hvn : v = node
    · subst hvn
      rw [Block.cells_upd_self, hs.inline_eq hfree, h.rows v hv]
    · rw [Block.cells_upd_ne _ _ hvn, h.rows v hv]
  · by_cases hvn : v = node
    · subst hvn
      rw [Block.cells_upd_self]
      omega
    · rw [Block.cells_upd_ne _ _ hvn, h.left v hv, List.count_cons_of_ne (Ne.symm hvn)]
  · have hfewer := h.fewer v hv
    by_cases hvn : v = node
    · subst hvn
      rw [Block.cells_upd_self]
      omega
    · rwa [Block.cells_upd_ne _ _ hvn]

/-- In the end every row is inlined. -/
theorem done (h : Splicing A ID g₀ [] g) {v : Int} (hv : A v) :
    g.cells v = inline ID (g₀.cells ID) (g₀.cells v) := by
  rw [← h.rows v hv, inline_of_not_mem (List.count_eq_zero.mp (h.left v hv))]

end Splicing

/-! ## The two loops of mergeRule -/

/-- In either order. -/
def Between (a b n : Nat) : Prop := (a ≤ n ∧ n ≤ b) ∨ (b ≤ n ∧ n ≤ a)

/-- A rule gets a length that does not fit while `ID` is inlined into its row. -/
def RowFault (V : Nat) (A : Int → Prop) (ID : Int) (s₀ : State) (e : Fault) : Prop :=
  e = .overflow ∧ ∃ (i : Int) (len : Nat), 0 ≤ i ∧ A (V + i) ∧
    Between (s₀.graph.cells (V + i)).length
      (inline ID (s₀.graph.cells ID) (s₀.graph.cells (V + i))).length len ∧
    ¬ RuleInfo.Fits ⟨len, (s₀.rif.cells i).freq⟩

/-- An entry of `ID` gets a frequency that does not fit while its column is updated. -/
def ColFault (variant : Variant) (V : Nat) (A : Int → Prop) (ID : Int) (s₀ : State) (e : Fault) :
    Prop :=
  e = .overflow ∧ ∃ (i f : Int) (n : Nat), 0 ≤ i ∧ A (V + i) ∧ V + i ∈ s₀.graph.cells ID ∧
    Between (s₀.graphT.cells (V + i)).length
      (inline ID (s₀.graphT.cells ID) (s₀.graphT.cells (V + i))).length n ∧
    ¬ RuleInfo.Fits ⟨(s₀.graph.cells (V + i)).length, variant.bump f n⟩

/-- During the first loop: `rest` are the occurrences that are still to be replaced. -/
structure RowsInv (threshold : Int) (V k : Nat) (P : Int → Nat → Prop) (A : Int → Prop)
    (c ID : Int) (s₀ : State) (rest : List Int) (s : State) : Prop where
  cols : s.graphT = s₀.graphT
  splicing : Splicing A ID s₀.graph rest s.graph
  info : InfoInv threshold V k P A c s
  freqs : ∀ i, (s.rif.cells i).freq = (s₀.rif.cells i).freq

/-- During the second loop: `rest` are the entries of the rule that are still to be noted. -/
structure ColsInv (threshold : Int) (V k : Nat) (P : Int → Nat → Prop) (A : Int → Prop)
    (c ID : Int) (s₀ : State) (rest : List Int) (s : State) : Prop where
  rows : s.graph = s₀.graph
  splicing : Splicing A ID s₀.graphT rest s.graphT
  info : InfoInv threshold V k P A c s
  freqs : ∀ i, (V : Int) + i ∉ s₀.graph.cells ID →
    (s.rif.cells i).freq = (s₀.rif.cells i).freq

section Loops

variable {threshold c ID : Int} {V k : Nat} {P : Int → Nat → Prop} {A : Int → Prop}
  {variant : Variant} {s₀ s : State} {rest : List Int} {node child : Int}

theorem insertChildren_meets (hsafe : Safe variant threshold P c) (hID : s₀.graph.InB ID)
    (hin : ∀ v, A v → s₀.graph.InB v ∧ ((V : Int) ≤ v → 0 ≤ v - V ∧ v - V < k))
    (hfree : ID ∉ s₀.graph.cells ID) (hbody : 0 < c → s₀.graph.cells ID ≠ [])
    (h : RowsInv threshold V k P A c ID s₀ (node :: rest) s) :
    Run.Meets (RowFault V A ID s₀) (insertChildren threshold V ID s node)
      (RowsInv threshold V k P A c ID s₀ rest) := by
  obtain ⟨hA, hne⟩ := h.splicing.nodes node List.mem_cons_self
  have hnode := h.splicing.inB (hin node hA).1
  have hmem := h.splicing.mem
  obtain ⟨row, hrow, hs, hsplice⟩ := h.splicing.step hfree
  have hlen := hs.length
  unfold insertChildren
  rw [if_neg hne]
  dsimp only
  rw [Block.read_eq hnode, Run.ok_bind, Block.read_eq (h.splicing.inB hID), Run.ok_bind,
    h.splicing.body, hrow, Run.ok_bind, Block.write_eq hnode, Run.ok_bind]
  by_cases hV : (V : Int) ≤ node
  · -- the parent is a rule: its length grows
    obtain ⟨hj0, hjk⟩ := (hin node hA).2 hV
    have hVj : (V : Int) + (node - V) = node := by omega
    have hjA : A (V + (node - V)) := by rwa [hVj]
    have hlen₀ := h.info.len _ hj0 hjA
    rw [hVj] at hlen₀
    rw [if_pos hV]
    refine ((updateInfo_meets _ ?_ ?_).weaken fun e he => ?_).mono fun s' hs' => ?_
    · exact ⟨hj0, by rw [h.info.rifSize]; exact hjk⟩
    · exact ⟨hj0, by rw [h.info.flagSize]; exact hjk⟩
    · obtain ⟨he, hfits⟩ := he
      have hbetween := length_between (hsplice.rows node hA) (hsplice.fewer node hA)
      rw [Block.cells_upd_self] at hbetween
      refine ⟨he, node - V, row.length, hj0, hjA, by rw [hVj]; exact hbetween, ?_⟩
      dsimp only at hfits
      rwa [h.freqs, hlen₀,
        show ((s.graph.cells node).length : Int) + ((s₀.graph.cells ID).length - 1) = row.length by
          omega] at hfits
    · obtain ⟨rfl, hfits⟩ := hs'
      refine ⟨h.cols, hsplice, h.info.update hjA hfits (fun i hi => ?_) (fun _ _ => rfl) ?_ ?_
        fun hc => ?_, fun i => ?_⟩
      · rw [Block.cells_upd_ne _ _ (by omega)]
      · rw [hVj, Block.cells_upd_self]
        dsimp only
        rw [hlen₀]
        omega
      · exact h.info.freq _ hj0 hjA
      · -- the flag of a rule that has had its turn stays off
        have hoff := h.info.passed _ hj0 hc hjA
        rw [h.info.flag _ hj0 hjA] at hoff
        have hpos := List.length_pos_of_mem hmem
        have hlenBody := List.length_pos_iff.mpr (hbody (by omega))
        exact hsafe.keep (by omega) (h.info.freq _ hj0 hjA) (by omega) hoff
          (by dsimp only; omega) (Int.le_refl _)
      · rw [← h.freqs i]
        by_cases hi : i = node - V
        · subst hi
          rw [State.setInfo, Block.cells_upd_self]
        · rw [State.setInfo, Block.cells_upd_ne _ _ hi]
  · rw [if_neg hV, Run.meets_pure]
    exact ⟨h.cols, hsplice, h.info.congr (fun i hi => by rw [Block.cells_upd_ne _ _ (by omega)])
      fun _ _ => rfl, h.freqs⟩

theorem updateChild_meets (hsafe : Safe variant threshold P c) (hID : s₀.graphT.InB ID)
    (hin : ∀ v, A v → s₀.graphT.InB v ∧ ((V : Int) ≤ v → 0 ≤ v - V ∧ v - V < k))
    (hfree : ID ∉ s₀.graphT.cells ID) {f : Int} (hself : P f (s₀.graphT.cells ID).length)
    (hrows : 0 < c → ∀ v, A v → (V : Int) ≤ v → s₀.graph.cells v ≠ [])
    (hchild : child ∈ s₀.graph.cells ID)
    (h : ColsInv threshold V k P A c ID s₀ (child :: rest) s) :
    Run.Meets (ColFault variant V A ID s₀) (updateChild variant threshold V ID s child)
      (ColsInv threshold V k P A c ID s₀ rest) := by
  obtain ⟨hA, hne⟩ := h.splicing.nodes child List.mem_cons_self
  have hnode := h.splicing.inB (hin child hA).1
  have hmem := h.splicing.mem
  obtain ⟨col, hcol, hs, hsplice⟩ := h.splicing.step hfree
  have hlen := hs.length
  unfold updateChild
  rw [if_neg hne]
  dsimp only
  rw [Block.read_eq hnode, Run.ok_bind, Block.read_eq (h.splicing.inB hID), Run.ok_bind,
    h.splicing.body, hcol, Run.ok_bind, Block.write_eq hnode, Run.ok_bind]
  by_cases hV : (V : Int) ≤ child
  · -- the child is a rule: it is used in more places
    obtain ⟨hj0, hjk⟩ := (hin child hA).2 hV
    have hVj : (V : Int) + (child - V) = child := by omega
    have hjA : A (V + (child - V)) := by rwa [hVj]
    rw [if_pos hV]
    refine ((updateInfo_meets _ ?_ ?_).weaken fun e he => ?_).mono fun s' hs' => ?_
    · exact ⟨hj0, by rw [h.info.rifSize]; exact hjk⟩
    · exact ⟨hj0, by rw [h.info.flagSize]; exact hjk⟩
    · obtain ⟨he, hfits⟩ := he
      have hbetween := length_between (hsplice.rows child hA) (hsplice.fewer child hA)
      rw [Block.cells_upd_self] at hbetween
      refine ⟨he, child - V, (s.rif.cells (child - V)).freq, col.length, hj0, hjA,
        by rwa [hVj], by rw [hVj]; exact hbetween, ?_⟩
      dsimp only at hfits
      rwa [h.info.len _ hj0 hjA, h.rows] at hfits
    · obtain ⟨rfl, hfits⟩ := hs'
      -- the column loses one occurrence and gets those of the dropped rule
      have hP := h.info.freq _ hj0 hjA
      rw [hVj] at hP
      obtain ⟨n, hn⟩ : ∃ n, (s.graphT.cells child).length = n + 1 :=
        ⟨_, (Nat.succ_pred (Nat.ne_of_gt (List.length_pos_of_mem hmem))).symm⟩
      rw [hn] at hP
      have hcolLen : col.length = n + (s₀.graphT.cells ID).length := by omega
      refine ⟨h.rows, hsplice, h.info.update hjA hfits (fun _ _ => rfl) (fun i hi => ?_) ?_ ?_
        fun hc => ?_, fun i hi => ?_⟩
      · rw [Block.cells_upd_ne _ _ (by omega)]
      · exact h.info.len _ hj0 hjA
      · rw [hVj, Block.cells_upd_self]
        dsimp only
        rw [hcolLen]
        exact hsafe.step hP hself
      · have hoff := h.info.passed _ hj0 hc hjA
        rw [h.info.flag _ hj0 hjA] at hoff
        have hlen₀ := h.info.len _ hj0 hjA
        have hpos : 0 < (s.graph.cells (V + (child - V))).length := by
          rw [hVj, h.rows]
          exact List.length_pos_iff.mpr (hrows (by omega) child hA hV)
        refine hsafe.keep (by omega) hP (by omega) hoff (Int.le_refl _) ?_
        dsimp only
        rw [hcolLen]
        exact hsafe.grow (by omega) hP hself
      · rw [← h.freqs i hi, State.setInfo, Block.cells_upd_ne _ _ (by
          rintro rfl
          exact hi (by rwa [hVj]))]
  · rw [if_neg hV, Run.meets_pure]
    exact ⟨h.rows, hsplice, h.info.congr (fun _ _ => rfl) fun i hi => by
      rw [Block.cells_upd_ne _ _ (by omega)], h.freqs⟩

end Loops

/-- What makes `mergeRule` overflow. -/
def MergeFault (variant : Variant) (V : Nat) (A : Int → Prop) (ID : Int) (s₀ : State) (e : Fault) :
    Prop :=
  RowFault V A ID s₀ e ∨ ColFault variant V A ID s₀ e

theorem MergeFault.overflow {variant : Variant} {V : Nat} {A : Int → Prop} {ID : Int} {s₀ : State}
    {e : Fault} (h : MergeFault variant V A ID s₀ e) : OverflowOnly e :=
  h.elim (fun h => h.1) fun h => h.1

/-- The rows and columns after rule `ID` has been inlined everywhere. -/
structure Merged (V : Nat) (A : Int → Prop) (ID : Int) (s₀ s : State) : Prop where
  rowSize : s.graph.size = s₀.graph.size
  colSize : s.graphT.size = s₀.graphT.size
  rows : ∀ v, Without A ID v →
    s.graph.cells v = inline ID (s₀.graph.cells ID) (s₀.graph.cells v)
  cols : ∀ x, Without A ID x →
    s.graphT.cells x = inline ID (s₀.graphT.cells ID) (s₀.graphT.cells x)
  freqs : ∀ i, (V : Int) + i ∉ s₀.graph.cells ID →
    (s.rif.cells i).freq = (s₀.rif.cells i).freq

section Merge

variable {vlist elist : List Int} {threshold c r : Int} {V k : Nat} {P : Int → Nat → Prop}
  {A : Int → Prop} {variant : Variant} {s₀ s : State} {ID : Int}

theorem GraphInv.inB_row (h : GraphInv vlist elist V k A s) {v : Int} (hv : A v) :
    s.graph.InB v := by
  rw [Block.InB, h.rowSize]
  exact h.range v hv

theorem GraphInv.inB_col (h : GraphInv vlist elist V k A s) {v : Int} (hv : A v) :
    s.graphT.InB v := by
  rw [Block.InB, h.colSize]
  exact h.range v hv

/-- A rule does not occur in its own row. -/
theorem GraphInv.not_self (h : GraphInv vlist elist V k A s)
    (hac : Acyclic (csrRhs V V vlist elist)) (hA : A ID) (hV : (V : Int) ≤ ID) :
    ID ∉ s.graph.cells ID := fun hmem => hac ID (h.refs ID hA hV ID hmem)

theorem GraphInv.not_self_col (h : GraphInv vlist elist V k A s)
    (hac : Acyclic (csrRhs V V vlist elist)) (hA : A ID) (hV : (V : Int) ≤ ID) :
    ID ∉ s.graphT.cells ID := by
  rw [← List.count_eq_zero, h.link ID ID hA hA, List.count_eq_zero]
  exact h.not_self hac hA hV

/-- The first loop: the rule is replaced wherever it occurs. -/
theorem insertAll_meets (hsafe : Safe variant threshold P c)
    (hne : 0 < c → ∀ i, i < k → Csr.row vlist elist (V + i) ≠ [])
    (hac : Acyclic (csrRhs V V vlist elist)) (hg : GraphInv vlist elist V k A s₀)
    (hA : A ID) (hV : (V : Int) ≤ ID) (hinfo : InfoInv threshold V k P (Without A ID) c s₀) :
    Run.Meets (RowFault V (Without A ID) ID s₀)
      ((s₀.graphT.cells ID).foldlM (insertChildren threshold V ID) s₀)
      (RowsInv threshold V k P (Without A ID) c ID s₀ []) := by
  have hfreeT := hg.not_self_col hac hA hV
  refine Run.meets_foldlM (RowsInv threshold V k P (Without A ID) c ID s₀)
    (fun node rest s hs => insertChildren_meets hsafe (hg.inB_row hA)
      (fun v hv => ⟨hg.inB_row hv.1, fun _ => ?_⟩) (hg.not_self hac hA hV)
      (fun hc => hg.nonempty (hne hc) _ hA hV) hs)
    _ _ ?_
  · have := hg.range v hv.1
    omega
  · -- the occurrences to be replaced are those in the column of the rule
    refine ⟨rfl, Splicing.init (fun v hv => (hg.link _ v hA hv.1).symm) fun v hv => ?_, hinfo,
      fun _ => rfl⟩
    have hne : v ≠ ID := by
      rintro rfl
      exact hfreeT hv
    exact ⟨⟨hg.colClosed _ hA v hv, hne⟩, hne⟩

/-- `mergeRule` inlines the rule. -/
theorem mergeRule_meets (hsafe : Safe variant threshold P c)
    (hne : 0 < c → ∀ i, i < k → Csr.row vlist elist (V + i) ≠ [])
    (hac : Acyclic (csrRhs V V vlist elist)) (hg : GraphInv vlist elist V k A s₀)
    (h0 : 0 ≤ r) (hA : A (r + V)) {f : Int} (hself : P f (s₀.graphT.cells (r + V)).length)
    (hinfo : InfoInv threshold V k P (Without A (r + V)) c s₀) :
    Run.Meets (MergeFault variant V (Without A (r + V)) (r + V) s₀)
      (mergeRule variant threshold V r s₀) (fun s =>
      Merged V A (r + V) s₀ s ∧ InfoInv threshold V k P (Without A (r + V)) c s) := by
  have hV : (V : Int) ≤ r + V := by omega
  have hfree := hg.not_self hac hA hV
  unfold mergeRule
  dsimp only
  rw [Block.read_eq (hg.inB_col hA), Run.ok_bind]
  refine ((insertAll_meets hsafe hne hac hg hA hV hinfo).weaken fun e he => Or.inl he).bind
    fun s₁ h₁ => ?_
  rw [Block.read_eq (h₁.splicing.inB (hg.inB_row hA)), Run.ok_bind, h₁.splicing.body]
  -- the entries of the rule are the ones whose columns name it
  have hstart : ColsInv threshold V k P (Without A (r + V)) c (r + V) s₁
      (s₀.graph.cells (r + V)) s₁ ∧ ∀ x ∈ s₀.graph.cells (r + V), x ∈ s₁.graph.cells (r + V) := by
    refine ⟨⟨rfl, Splicing.init (fun x hx => ?_) fun x hx => ?_, h₁.info, fun _ _ => rfl⟩,
      fun x hx => by rwa [h₁.splicing.body]⟩
    · rw [h₁.cols]
      exact hg.link x _ hx.1 hA
    · have hne : x ≠ r + V := by
        rintro rfl
        exact hfree hx
      exact ⟨⟨hg.closed _ hA x hx, hne⟩, hne⟩
  have hloop : Run.Meets (ColFault variant V (Without A (r + V)) (r + V) s₁)
      ((s₀.graph.cells (r + V)).foldlM (updateChild variant threshold V (r + V)) s₁)
      (fun s => ColsInv threshold V k P (Without A (r + V)) c (r + V) s₁ [] s ∧
        ∀ x ∈ ([] : List Int), x ∈ s₁.graph.cells (r + V)) := by
    refine Run.meets_foldlM (fun rest s => ColsInv threshold V k P (Without A (r + V)) c (r + V) s₁
      rest s ∧ ∀ x ∈ rest, x ∈ s₁.graph.cells (r + V)) (fun child rest s hs => ?_) _ _ hstart
    refine (updateChild_meets hsafe ?_ (fun v hv => ⟨?_, fun _ => ?_⟩) ?_ (f := f) ?_
      (fun hc v hv hVv => ?_) (hs.2 child List.mem_cons_self) hs.1).mono fun s' hs' =>
        ⟨hs', fun x hx => hs.2 x (List.mem_cons_of_mem _ hx)⟩
    · rw [h₁.cols]
      exact hg.inB_col hA
    · rw [h₁.cols]
      exact hg.inB_col hv.1
    · have := hg.range v hv.1
      omega
    · rw [h₁.cols]
      exact hg.not_self_col hac hA hV
    · rw [h₁.cols]
      exact hself
    · rw [h₁.splicing.done hv]
      exact inline_ne_nil (hg.nonempty (hne hc) v hv.1 hVv) (hg.nonempty (hne hc) _ hA hV)
  refine (hloop.weaken fun e he => Or.inr ?_).mono fun s₂ h₂ => ?_
  · obtain ⟨he, i, f, n, hi0, hiA, hmem, hbetween, hfits⟩ := he
    -- an entry of the rule does not refer back to it
    rw [h₁.splicing.body] at hmem
    have hback : r + V ∉ s₀.graph.cells (V + i) := fun hr =>
      hac _ ((hg.refs _ hA hV _ hmem).trans (hg.refs _ hiA.1 (by omega) _ hr))
    rw [h₁.cols] at hbetween
    rw [h₁.splicing.done hiA, inline_of_not_mem hback] at hfits
    exact ⟨he, i, f, n, hi0, hiA, hmem, hbetween, hfits⟩
  · obtain ⟨h₂, -⟩ := h₂
    refine ⟨⟨by rw [h₂.rows, h₁.splicing.size], by rw [h₂.splicing.size, h₁.cols], fun v hv => ?_,
      fun x hx => ?_, fun i hi => ?_⟩, h₂.info⟩
    · rw [h₂.rows, h₁.splicing.done hv]
    · rw [h₂.splicing.done hx, h₁.cols]
    · rw [h₂.freqs i (by rwa [h₁.splicing.body]), h₁.freqs i]

/-- The nodes that are left form a graph with the same expansions. -/
theorem GraphInv.merged (hg : GraphInv vlist elist V k A s₀)
    (hac : Acyclic (csrRhs V V vlist elist)) (hA : A ID) (hV : (V : Int) ≤ ID)
    (hm : Merged V A ID s₀ s) : GraphInv vlist elist V k (Without A ID) s := by
  have hfree := hg.not_self hac hA hV
  refine ⟨by rw [hm.rowSize, hg.rowSize], by rw [hm.colSize, hg.colSize],
    fun v hv => hg.range v hv.1, fun v hv x hx => ?_, fun x hx v hv => ?_, fun x v hx hv => ?_,
    fun v hv hVv x hx => ?_, fun v hv ys => ?_, fun hne v hv hVv => ?_⟩
  · rw [hm.rows v hv, mem_inline] at hx
    rcases hx with ⟨hx, hne⟩ | ⟨-, hx⟩
    · exact ⟨hg.closed v hv.1 x hx, hne⟩
    · exact ⟨hg.closed ID hA x hx, fun he => hfree (he ▸ hx)⟩
  · rw [hm.cols x hx, mem_inline] at hv
    rcases hv with ⟨hv, hne⟩ | ⟨-, hv⟩
    · exact ⟨hg.colClosed x hx.1 v hv, hne⟩
    · exact ⟨hg.colClosed ID hA v hv, fun he => hg.not_self_col hac hA hV (he ▸ hv)⟩
  · -- both sides count the old occurrences, and those through the dropped rule
    rw [hm.cols x hx, hm.rows v hv, count_inline hv.2, count_inline hx.2, hg.link x v hx.1 hv.1,
      hg.link x ID hx.1 hA, hg.link ID v hA hv.1, Nat.mul_comm]
  · rw [hm.rows v hv, mem_inline] at hx
    rcases hx with ⟨hx, -⟩ | ⟨hID, hx⟩
    · exact hg.refs v hv.1 hVv x hx
    · exact (hg.refs v hv.1 hVv ID hID).trans (hg.refs ID hA hV x hx)
  · rw [hm.rows v hv, Expands.inline_iff fun zs => ?_, hg.expands v hv.1]
    rw [hg.expands ID hA, Expands.singleton_of_some]
    rw [csrRhs, if_neg (by omega)]
    congr 2
    omega
  · rw [hm.rows v hv]
    exact inline_ne_nil (hg.nonempty hne v hv.1 hVv) (hg.nonempty hne ID hA hV)

end Merge

end Laconic.Filter

import Laconic.Grammar
import Laconic.Lib.Block

/-!
# Edge lists

`csr2coo` of `convert.h` writes source and destination of every edge.  Nested loops over the rows
of a graph and the edges of each row visit the edges in the order of `elist`, once each.
-/

namespace Laconic.Graph

/-- `for (e = vlist[v]; e < vlist[v + 1]; e++)`. -/
def forEdges {σ : Type} (f : Int → σ → Run σ) (vlist : List Int) (v : Int) (s : σ) : Run σ := do
  let start ← (Block.ofList vlist).read v
  let stop ← (Block.ofList vlist).read (v + 1)
  Run.forLoop f (stop - start).toNat start s

/-- One round of the inner loop of `csr2coo`. -/
def cooEdge (elist : List Int) (v e : Int) (s : Block Int × Block Int) :
    Run (Block Int × Block Int) := do
  let src ← s.1.write e v
  let x ← (Block.ofList elist).read e
  let dst ← s.2.write e x
  pure (src, dst)

/-- The arrays that `csr2coo` fills come with arbitrary contents `fresh`. -/
def csr2coo (fresh : Int → Int) (vlist elist : List Int) : Run (Block Int × Block Int) :=
  Run.forLoop (fun v => forEdges (cooEdge elist v) vlist v) (vlist.length - 1) 0
    (Block.alloc elist.length fresh, Block.alloc elist.length fresh)

/-- Edge `e` belongs to row `v`. -/
def IsSource (vlist : List Int) (v : Nat) (e : Int) : Prop :=
  v + 1 < vlist.length ∧ vlist.getD v 0 ≤ e ∧ e < vlist.getD (v + 1) 0

section Loops

variable {α σ : Type} {E : Fault → Prop} {vlist : List Int} {ent : List α} {n : Nat}

theorem meets_forEdges (h : Csr.Valid vlist ent) {f : Int → σ → Run σ} {v : Nat}
    (hv : v + 1 < vlist.length) (Inv : Int → σ → Prop)
    (hstep : ∀ e s, IsSource vlist v e → Inv e s → Run.Meets E (f e s) (Inv (e + 1))) {s : σ}
    (hs : Inv (vlist.getD v 0) s) :
    Run.Meets E (forEdges f vlist v s) (Inv (vlist.getD (v + 1) 0)) := by
  have hmono := h.getD_mono (Nat.le_add_right v 1) hv
  unfold forEdges
  rw [Block.read_getD (by omega) 0, Run.ok_bind,
    show (v : Int) + 1 = ((v + 1 : Nat) : Int) by omega, Block.read_getD hv 0, Run.ok_bind]
  -- the lower end of the row is part of the invariant
  have hloop := Run.meets_forLoop (E := E) (fun e s => vlist.getD v 0 ≤ e ∧ Inv e s)
    (vlist.getD (v + 1) 0) (fun e s he hs => (hstep e s ⟨hv, hs.1, he⟩ hs.2).mono fun s' hs' =>
      ⟨by omega, hs'⟩) (vlist.getD (v + 1) 0 - vlist.getD v 0).toNat (vlist.getD v 0) s (by omega)
    ⟨Int.le_refl _, hs⟩
  exact hloop.mono fun s' hs' => hs'.2

/-- The invariant rule of the loops over rows and edges. -/
theorem meets_forCsr (h : Csr.Valid vlist ent) (hn : vlist.length = n + 1)
    {f : Int → Int → σ → Run σ} (Inv : Int → σ → Prop)
    (hstep : ∀ v e s, IsSource vlist v e → Inv e s → Run.Meets E (f v e s) (Inv (e + 1))) {s : σ}
    (hs : Inv 0 s) :
    Run.Meets E (Run.forLoop (fun v => forEdges (f v) vlist v) n 0 s) (Inv (vlist.getD n 0)) := by
  refine (Run.meets_forLoop (fun v s => 0 ≤ v ∧ Inv (vlist.getD v.toNat 0) s) (n : Int) ?_ n 0 s
    (by omega) ⟨Int.le_refl 0, by rw [Int.toNat_zero, h.getD_zero]; exact hs⟩).mono
      fun s' hs' => hs'.2
  · rintro v s hv ⟨h0, hs⟩
    obtain ⟨v, rfl⟩ := Int.eq_ofNat_of_zero_le h0
    rw [Int.toNat_natCast] at hs
    apply (meets_forEdges h (by omega) Inv (hstep v) hs).mono
    intro s' hs'
    exact ⟨by omega, by rw [show ((v : Int) + 1).toNat = v + 1 by omega]; exact hs'⟩

end Loops

section ForRow

variable {α β σ : Type} {E : Fault → Prop} {vlist : List Int} {ent : List α} {ent' : List β}
  {v : Nat}

/-- The part of a row up to an edge, and one edge more. -/
theorem drop_take_succ (k : Nat) {e : Nat} (he : e < ent.length) (hlo : k ≤ e) :
    (ent.take (e + 1)).drop k = (ent.take e).drop k ++ [ent[e]] := by
  rw [List.take_add_one, List.getElem?_eq_getElem he, Option.toList_some,
    List.drop_append_of_le_length (by rw [List.length_take]; omega)]

/-- The invariant rule of a loop over the edges of a row, in terms of what has been read of two
lists of entries. -/
theorem meets_forRow (h : Csr.Valid vlist ent) (hlen : ent'.length = ent.length)
    (hv : v + 1 < vlist.length) {f : Int → σ → Run σ} (Inv : List α → List β → σ → Prop)
    (hstep : ∀ (e : Nat) (he : e < ent.length) s l m, Inv l m s →
      Run.Meets E (f e s) (Inv (l ++ [ent[e]]) (m ++ [ent'[e]]))) {l : List α} {m : List β} {s : σ}
    (hs : Inv l m s) :
    Run.Meets E (forEdges f vlist v s)
      (Inv (l ++ Csr.row vlist ent v) (m ++ Csr.row vlist ent' v)) := by
  refine (meets_forEdges h hv (fun e s' =>
    Inv (l ++ (ent.take e.toNat).drop (vlist.getD v 0).toNat)
      (m ++ (ent'.take e.toNat).drop (vlist.getD v 0).toNat) s') ?_ ?_).mono fun s' hs' => hs'
  · intro e s' hsrc hinv
    have hlo := hsrc.2.1
    have h0 := h.getD_nonneg (by omega : v < vlist.length)
    have hhi := h.getD_le hv
    have hlt := hsrc.2.2
    obtain ⟨e, rfl⟩ := Int.eq_ofNat_of_zero_le (by omega : 0 ≤ e)
    rw [Int.toNat_natCast] at hinv
    rw [show ((e : Int) + 1).toNat = e + 1 by omega, drop_take_succ _ (by omega) (by omega),
      drop_take_succ _ (by omega) (by omega), ← List.append_assoc, ← List.append_assoc]
    exact hstep e (by omega) s' _ _ hinv
  · have hnone : ∀ {γ : Type} (l : List γ),
        (l.take (vlist.getD v 0).toNat).drop (vlist.getD v 0).toNat = [] := fun l =>
      List.drop_eq_nil_of_le (by rw [List.length_take]; omega)
    rw [hnone, hnone, List.append_nil, List.append_nil]
    exact hs

end ForRow

section Source

variable {vlist elist : List Int} {v w : Nat} {e : Int}

theorem IsSource.range (h : Csr.Valid vlist elist) (he : IsSource vlist v e) :
    0 ≤ e ∧ e < elist.length := by
  have h₁ := h.getD_nonneg (by have := he.1; omega : v < vlist.length)
  have h₂ := h.getD_le he.1
  have h₃ := he.2
  omega

/-- An edge belongs to one row. -/
theorem IsSource.unique (h : Csr.Valid vlist elist) (hv : IsSource vlist v e)
    (hw : IsSource vlist w e) : v = w := by
  have hlt : ∀ {a b : Nat}, IsSource vlist a e → IsSource vlist b e → ¬ a < b := by
    intro a b ha hb hab
    have := h.getD_mono (show a + 1 ≤ b by omega) (by have := hb.1; omega)
    have := ha.2.2
    have := hb.2.1
    omega
  have h₁ := hlt hv hw
  have h₂ := hlt hw hv
  omega

/-- Every edge below the last offset belongs to a row. -/
theorem exists_source (h : Csr.Valid vlist elist) {n : Nat} (hn : n < vlist.length) (h0 : 0 ≤ e)
    (he : e < vlist.getD n 0) : ∃ v, v < n ∧ IsSource vlist v e := by
  induction n with
  | zero =>
    rw [h.getD_zero] at he
    omega
  | succ n ih =>
    by_cases hlt : e < vlist.getD n 0
    · obtain ⟨v, hv, hsrc⟩ := ih (by omega) hlt
      exact ⟨v, by omega, hsrc⟩
    · exact ⟨n, by omega, hn, by omega, he⟩

/-- The entries of a row are the destinations of its edges. -/
theorem mem_row_iff (h : Csr.Valid vlist elist) {x : Int} :
    x ∈ Csr.row vlist elist v ↔ ∃ e, IsSource vlist v e ∧ elist.getD e.toNat 0 = x := by
  by_cases hv : v + 1 < vlist.length
  · have hlen := h.length_row hv
    have h₀ := h.getD_nonneg (by omega : v < vlist.length)
    have hmono := h.getD_mono (Nat.le_add_right v 1) hv
    have hle := h.getD_le hv
    have hget : ∀ i : Nat, i < (Csr.row vlist elist v).length →
        (Csr.row vlist elist v)[i]? = some (elist.getD ((vlist.getD v 0).toNat + i) 0) := by
      intro i hi
      rw [Csr.row, List.getElem?_drop, List.getElem?_take_of_lt (by omega),
        List.getD_eq_getElem?_getD (l := elist), List.getElem?_eq_getElem (by omega)]
      rfl
    constructor
    · intro hx
      obtain ⟨i, hi, rfl⟩ := List.mem_iff_getElem.mp hx
      have hi' := hget i hi
      rw [List.getElem?_eq_getElem hi, Option.some_inj] at hi'
      refine ⟨vlist.getD v 0 + i, ⟨hv, by omega, by omega⟩, ?_⟩
      rw [hi']
      congr 1
      omega
    · rintro ⟨e, ⟨-, hlo, hhi⟩, rfl⟩
      have he := hget (e - vlist.getD v 0).toNat (by omega)
      rw [show (vlist.getD v 0).toNat + (e - vlist.getD v 0).toNat = e.toNat by omega] at he
      exact List.mem_of_getElem? he
  · rw [Csr.row_of_le (by omega)]
    constructor
    · intro hx
      cases hx
    · rintro ⟨e, hsrc, -⟩
      exact absurd hsrc.1 hv

/-- `csr2coo` writes the row and the entry of every edge. -/
theorem csr2coo_eq (h : Csr.Valid vlist elist) (fresh : Int → Int) :
    ∃ src dst, csr2coo fresh vlist elist = .ok (src, dst) ∧ src.size = elist.length ∧
      dst.size = elist.length ∧ ∀ v e, IsSource vlist v e →
        src.cells e = v ∧ dst.cells e = elist.getD e.toNat 0 := by
  have hpos := h.length_pos
  have hmeets := meets_forCsr (E := fun _ => False) h (n := vlist.length - 1) (by omega)
    (f := cooEdge elist)
    (fun m (s : Block Int × Block Int) => s.1.size = elist.length ∧ s.2.size = elist.length ∧
      ∀ v e, e < m → IsSource vlist v e → s.1.cells e = v ∧ s.2.cells e = elist.getD e.toNat 0)
    ?_ (s := (Block.alloc elist.length fresh, Block.alloc elist.length fresh))
    ⟨rfl, rfl, fun v e he hsrc => by have := hsrc.range h; omega⟩
  · obtain ⟨s, hrun, hsize, hsize', hcells⟩ := hmeets.exists_ok fun e he => he.elim
    refine ⟨s.1, s.2, hrun, hsize, hsize', fun v e hsrc => hcells v e ?_ hsrc⟩
    have := h.getD_mono (show v + 1 ≤ vlist.length - 1 by have := hsrc.1; omega) (by omega)
    have := hsrc.2.2
    omega
  · rintro v e s hsrc ⟨hsize, hsize', hcells⟩
    have hr := hsrc.range h
    have hin : s.1.InB e := ⟨hr.1, by rw [hsize]; exact hr.2⟩
    have hin' : s.2.InB e := ⟨hr.1, by rw [hsize']; exact hr.2⟩
    unfold cooEdge
    rw [Block.write_eq hin, Run.ok_bind, Block.read_getD_toNat hr.1 hr.2 0, Run.ok_bind,
      Block.write_eq hin', Run.ok_bind, Run.meets_pure]
    refine ⟨hsize, hsize', fun w d hd hw => ?_⟩
    dsimp only
    by_cases hde : d = e
    · subst hde
      rw [Block.cells_upd_self, Block.cells_upd_self, hsrc.unique h hw]
      exact ⟨rfl, rfl⟩
    · rw [Block.cells_upd_ne _ _ hde, Block.cells_upd_ne _ _ hde]
      exact hcells w d (by omega) hw

end Source

end Laconic.Graph

import Laconic.Filter.Model
import Laconic.Grammar

/-!
# The rule filter: rows and columns

`csr_convert` stores the rows of the graph, `csr_convert_idx` its columns: node `v` stands in the
column of `x` as often as `x` stands in row `v`.
-/

namespace Laconic.Filter

/-- A loop over a row of a valid graph. -/
theorem forRow_eq {σ : Type} {vlist elist : List Int} (h : Csr.Valid vlist elist) {v : Nat}
    (hv : v + 1 < vlist.length) (f : Int → σ → Run σ) (s : σ) :
    forRow f vlist elist v s = (Csr.row vlist elist v).foldlM (fun s x => f x s) s := by
  have hread : ∀ w : Nat, w < vlist.length →
      (Block.ofList vlist).read w = .ok (vlist.getD w 0) := fun w hw =>
    Block.read_eq (b := Block.ofList vlist) ⟨by omega, show (w : Int) < vlist.length by omega⟩
  have h₁ := h.getD_mono (Nat.le_add_right v 1) hv
  have h₂ := h.getD_nonneg (by omega : v < vlist.length)
  have h₃ := h.getD_le hv
  unfold forRow
  rw [hread v (by omega), Run.ok_bind, show (v : Int) + 1 = ((v + 1 : Nat) : Int) by omega,
    hread (v + 1) hv, Run.ok_bind]
  have hloop := Block.forLoop_ofList (fun s x => f x s) elist
    (vlist.getD (v + 1) 0 - vlist.getD v 0).toNat (vlist.getD v 0).toNat s (by omega)
  rw [Int.toNat_of_nonneg h₂] at hloop
  rw [hloop, Csr.row, List.drop_take]
  congr 2
  omega

section Convert

variable {vlist elist : List Int} {n : Nat}

/-- Appending the elements of a row to one cell. -/
theorem foldlM_append {g : Block (List Int)} {v : Int} (hv : g.InB v) (l : List Int) :
    ∃ g', l.foldlM (fun g x => g.modify v fun r => r ++ [x]) g = (.ok g' : Run _) ∧
      g'.size = g.size ∧ g'.cells v = g.cells v ++ l ∧ ∀ w, w ≠ v → g'.cells w = g.cells w := by
  induction l generalizing g with
  | nil => exact ⟨g, rfl, rfl, by simp, fun _ _ => rfl⟩
  | cons x l ih =>
    obtain ⟨g', hrun, hsize, hself, hother⟩ := ih (g := g.upd v fun r => r ++ [x]) hv
    refine ⟨g', ?_, hsize, ?_, fun w hw => ?_⟩
    · rw [List.foldlM_cons, Block.modify_eq hv, Run.ok_bind]
      exact hrun
    · rw [hself, Block.cells_upd_self, List.append_assoc]
      rfl
    · rw [hother w hw, Block.cells_upd_ne _ _ hw]

/-- `csr_convert` stores the rows. -/
theorem csrConvert_eq (h : Csr.Valid vlist elist) (hn : vlist.length = n + 1) :
    ∃ g, csrConvert vlist elist n = .ok g ∧ g.size = n ∧
      ∀ v : Nat, v < n → g.cells v = Csr.row vlist elist v := by
  have hstep : ∀ (v : Int) (g : Block (List Int)), v < n →
      (0 ≤ v ∧ g.size = n ∧ (∀ w : Nat, (w : Int) < v → g.cells w = Csr.row vlist elist w) ∧
        ∀ w, v ≤ w → g.cells w = []) →
      Run.Meets (fun _ => False)
        (forRow (fun x graph => graph.modify v fun r => r ++ [x]) vlist elist v g)
        (fun g => 0 ≤ v + 1 ∧ g.size = n ∧
          (∀ w : Nat, (w : Int) < v + 1 → g.cells w = Csr.row vlist elist w) ∧
          ∀ w, v + 1 ≤ w → g.cells w = []) := by
    rintro v g hv ⟨h0, hsize, hdone, htodo⟩
    obtain ⟨v, rfl⟩ := Int.eq_ofNat_of_zero_le h0
    obtain ⟨g', hrun, hsize', hself, hother⟩ := foldlM_append (g := g)
      (⟨h0, by rw [hsize]; exact hv⟩ : g.InB v) (Csr.row vlist elist v)
    rw [forRow_eq h (by omega), hrun, Run.meets_ok]
    refine ⟨by omega, by rw [hsize', hsize], fun w hw => ?_, fun w hw => ?_⟩
    · by_cases hwv : w = v
      · subst hwv
        rw [hself, htodo w (Int.le_refl _), List.nil_append]
      · rw [hother w (by omega), hdone w (by omega)]
    · rw [hother w (by omega), htodo w (by omega)]
  obtain ⟨g, hrun, -, hsize, hrows, -⟩ := (Run.meets_forLoop _ (n : Int) hstep n 0
    (Block.alloc n fun _ => []) (by omega)
    ⟨by omega, rfl, fun w hw => by omega, fun w _ => rfl⟩).exists_ok fun e he => he.elim
  exact ⟨g, hrun, hsize, fun v hv => hrows v (by omega)⟩

/-- Noting one row in the columns. -/
theorem foldlM_note {g : Block (List Int)} {l : List Int} (hl : ∀ x ∈ l, g.InB x) (v : Int) :
    ∃ g', l.foldlM (fun g x => g.modify x fun r => r ++ [v]) g = (.ok g' : Run _) ∧
      g'.size = g.size ∧ (∀ x, (g'.cells x).length = (g.cells x).length + l.count x) ∧
      ∀ x w, (g'.cells x).count w = (g.cells x).count w + if w = v then l.count x else 0 := by
  induction l generalizing g with
  | nil => exact ⟨g, rfl, rfl, fun x => by simp, fun x w => by simp⟩
  | cons y l ih =>
    have hy := hl y List.mem_cons_self
    obtain ⟨g', hrun, hsize, hlen, hcount⟩ := ih (g := g.upd y fun r => r ++ [v])
      fun x hx => hl x (List.mem_cons_of_mem _ hx)
    refine ⟨g', ?_, hsize, fun x => ?_, fun x w => ?_⟩
    · rw [List.foldlM_cons, Block.modify_eq hy, Run.ok_bind]
      exact hrun
    · rw [hlen, Block.cells_upd]
      by_cases hx : x = y
      · subst hx
        rw [if_pos rfl, List.length_append, List.count_cons_self, List.length_singleton]
        omega
      · rw [if_neg hx, List.count_cons_of_ne (Ne.symm hx)]
    · rw [hcount, Block.cells_upd]
      by_cases hx : x = y
      · subst hx
        rw [if_pos rfl, List.count_append, List.count_cons_self]
        by_cases hw : w = v
        · subst hw
          rw [if_pos rfl, if_pos rfl, List.count_cons_self, List.count_nil]
          omega
        · rw [if_neg hw, if_neg hw, List.count_cons_of_ne (Ne.symm hw), List.count_nil]
      · rw [if_neg hx, List.count_cons_of_ne (Ne.symm hx)]

/-- `csr_convert_idx` stores the columns. -/
theorem csrConvertIdx_eq (h : Csr.Valid vlist elist) (hn : vlist.length = n + 1)
    (hin : ∀ v, v < n → ∀ x ∈ Csr.row vlist elist v, 0 ≤ x ∧ x < n) :
    ∃ g, csrConvertIdx vlist elist n = .ok g ∧ g.size = n ∧
      (∀ x, (g.cells x).length = (Csr.rows vlist elist).flatten.count x) ∧
      ∀ x w, (g.cells x).count w =
        if 0 ≤ w ∧ w < n then (Csr.row vlist elist w.toNat).count x else 0 := by
  have hstep : ∀ (v : Int) (g : Block (List Int)), v < n →
      (0 ≤ v ∧ g.size = n ∧
        (∀ x, (g.cells x).length = ((Csr.rows vlist elist).take v.toNat).flatten.count x) ∧
        ∀ x w, (g.cells x).count w =
          if 0 ≤ w ∧ w < v then (Csr.row vlist elist w.toNat).count x else 0) →
      Run.Meets (fun _ => False)
        (forRow (fun x graph => graph.modify x fun r => r ++ [v]) vlist elist v g)
        (fun g => 0 ≤ v + 1 ∧ g.size = n ∧
          (∀ x, (g.cells x).length = ((Csr.rows vlist elist).take (v + 1).toNat).flatten.count x) ∧
          ∀ x w, (g.cells x).count w =
            if 0 ≤ w ∧ w < v + 1 then (Csr.row vlist elist w.toNat).count x else 0) := by
    rintro v g hv ⟨h0, hsize, hlen, hdone⟩
    obtain ⟨v, rfl⟩ := Int.eq_ofNat_of_zero_le h0
    obtain ⟨g', hrun, hsize', hlen', hcount⟩ := foldlM_note (g := g) (l := Csr.row vlist elist v)
      (fun x hx => by
        have := hin v (by omega) x hx
        exact ⟨this.1, by rw [hsize]; exact this.2⟩) v
    rw [forRow_eq h (by omega), hrun, Run.meets_ok]
    refine ⟨by omega, by rw [hsize', hsize], fun x => ?_, fun x w => ?_⟩
    · rw [hlen', hlen, Int.toNat_natCast, show ((v : Int) + 1).toNat = v + 1 by omega,
        List.take_add_one, Csr.rows_getElem? (by omega), Option.toList_some, List.flatten_concat,
        List.count_append]
    · rw [hcount, hdone]
      by_cases hw : w = v
      · subst hw
        rw [if_neg (by omega), if_pos rfl, if_pos (by omega), Int.toNat_natCast, Nat.zero_add]
      · rw [if_neg hw, Nat.add_zero]
        exact if_congr (by omega) rfl rfl
  obtain ⟨g, hrun, -, hsize, hlen, hcount⟩ := (Run.meets_forLoop _ (n : Int) hstep n 0
    (Block.alloc n fun _ => []) (by omega)
    ⟨by omega, rfl, fun x => rfl, fun x w => by rw [if_neg (by omega)]; rfl⟩).exists_ok
      fun e he => he.elim
  refine ⟨g, hrun, hsize, fun x => ?_, hcount⟩
  rw [hlen, Int.toNat_natCast, List.take_of_length_le (by rw [Csr.length_rows]; omega)]

end Convert

end Laconic.Filter

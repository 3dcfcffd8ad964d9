import Laconic.Lib.Csr
import Laconic.Lib.Slp
import Laconic.RePair.CompressCsr
import Laconic.RePair.TextInv

/-!
# Re-Pair: rows into text and text into rows

`insert_spliter` joins the rows, each followed by a separator of its own.  The read-back loop walks
over the live positions and cuts at the separators, so it returns the rows between them with rule
symbols renumbered, and then one row of two entries for every rule.
-/

namespace Laconic.RePair

open Neighbour Slp

/-! ## insert_spliter -/

/-- The rows, each followed by its separator; the first separator is `k`. -/
def joinRows (k : Int) : List (List Int) → List Int
  | [] => []
  | r :: rs => r ++ k :: joinRows (k + 1) rs

theorem joinRows_concat (k : Int) (rs : List (List Int)) (r : List Int) :
    joinRows k (rs ++ [r]) = joinRows k rs ++ r ++ [k + rs.length] := by
  induction rs generalizing k with
  | nil => simp [joinRows]
  | cons q rs ih =>
    rw [List.cons_append, joinRows, ih, joinRows, List.length_cons,
      show k + 1 + (rs.length : Int) = k + ((rs.length + 1 : Nat) : Int) by push_cast; omega]
    simp

theorem length_joinRows (k : Int) (rs : List (List Int)) :
    (joinRows k rs).length = rs.flatten.length + rs.length := by
  induction rs generalizing k with
  | nil => rfl
  | cons r rs ih =>
    rw [joinRows, List.length_append, List.length_cons, ih, List.flatten_cons, List.length_append,
      List.length_cons]
    omega

theorem mem_joinRows {k x : Int} {rs : List (List Int)} (h : x ∈ joinRows k rs) :
    (∃ r ∈ rs, x ∈ r) ∨ (k ≤ x ∧ x < k + rs.length) := by
  induction rs generalizing k with
  | nil => simp [joinRows] at h
  | cons r rs ih =>
    rw [joinRows, List.mem_append, List.mem_cons] at h
    rw [List.length_cons]
    push_cast
    rcases h with h | rfl | h
    · exact Or.inl ⟨r, List.mem_cons_self, h⟩
    · exact Or.inr ⟨by omega, by omega⟩
    · rcases ih h with ⟨q, hq, hx⟩ | ⟨h₁, h₂⟩
      · exact Or.inl ⟨q, List.mem_cons_of_mem _ hq, hx⟩
      · exact Or.inr ⟨by omega, by omega⟩

/-- Every separator occurs once. -/
theorem count_joinRows {k x : Int} {rs : List (List Int)} (hrows : ∀ r ∈ rs, ∀ y ∈ r, y < k)
    (h₁ : k ≤ x) (h₂ : x < k + rs.length) : (joinRows k rs).count x = 1 := by
  induction rs generalizing k with
  | nil =>
    simp only [List.length_nil] at h₂
    omega
  | cons r rs ih =>
    have hr : r.count x = 0 := List.count_eq_zero.mpr fun hx => by
      have := hrows r List.mem_cons_self x hx
      omega
    rw [joinRows, List.count_append, hr]
    by_cases hx : k = x
    · subst hx
      have hrest : (joinRows (k + 1) rs).count k = 0 := List.count_eq_zero.mpr fun hm => by
        rcases mem_joinRows hm with ⟨q, hq, hx⟩ | hx
        · have := hrows q (List.mem_cons_of_mem _ hq) k hx
          omega
        · omega
      rw [List.count_cons_self, hrest]
    · rw [List.count_cons_of_ne hx, ih (fun q hq y hy => by
        have := hrows q (List.mem_cons_of_mem _ hq) y hy
        omega) (by omega) (by
          rw [List.length_cons] at h₂
          push_cast at h₂
          omega)]

/-- The inner loop appends one row. -/
theorem pushRow_eq {elist : List Int} (a b : Nat) (hab : a ≤ b) (hb : b ≤ elist.length)
    (re : List Int) :
    pushRow (Block.ofList elist) a b re = .ok (re ++ (elist.take b).drop a) := by
  have hloop := Block.forLoop_ofList (fun re x => pure (re ++ [x])) elist (b - a) a re (by omega)
  have hfold : ∀ (l : List Int) (re : List Int),
      l.foldlM (fun re x => (pure (re ++ [x]) : Run (List Int))) re = .ok (re ++ l) := by
    intro l
    induction l with
    | nil =>
      intro re
      rw [List.append_nil]
      rfl
    | cons x l ih =>
      intro re
      rw [List.foldlM_cons, Run.pure_bind, ih, List.append_assoc, List.singleton_append]
  rw [pushRow, show ((b : Int) - a).toNat = b - a by omega, hloop, hfold, List.drop_take]

/-- `insert_spliter` joins the rows of a valid graph. -/
theorem insertSpliter_eq {vlist elist : List Int} (h : Csr.Valid vlist elist) (maxSymbol : Int) :
    insertSpliter vlist elist maxSymbol = .ok (joinRows maxSymbol (Csr.rows vlist elist)) := by
  have hpos := h.length_pos
  have hlen : (Csr.rows vlist elist).length = vlist.length - 1 := Csr.length_rows
  have hstep : ∀ (v : Int) (re : List Int), v < (vlist.length : Int) - 1 →
      (0 ≤ v ∧ re = joinRows maxSymbol ((Csr.rows vlist elist).take v.toNat)) →
      Run.Meets (fun _ => False) (do
        let start ← (Block.ofList vlist).read v
        let stop ← (Block.ofList vlist).read (v + 1)
        let re ← pushRow (Block.ofList elist) start stop re
        pure (re ++ [maxSymbol + v])) (fun re' =>
          0 ≤ v + 1 ∧ re' = joinRows maxSymbol ((Csr.rows vlist elist).take (v + 1).toNat)) := by
    rintro v re hv ⟨hv0, rfl⟩
    have hlt : v.toNat + 1 < vlist.length := by omega
    have hnext : (Block.ofList vlist).read (v + 1) = .ok (vlist.getD (v.toNat + 1) 0) := by
      rw [← Block.read_getD hlt 0, show ((v.toNat + 1 : Nat) : Int) = v + 1 by omega]
    have h₁ := h.getD_mono (Nat.le_add_right v.toNat 1) hlt
    have h₂ := h.getD_nonneg (by omega : v.toNat < vlist.length)
    have h₃ := h.getD_le hlt
    have hpush := pushRow_eq (vlist.getD v.toNat 0).toNat
      (vlist.getD (v.toNat + 1) 0).toNat (by omega) (by omega : _ ≤ elist.length)
      (joinRows maxSymbol ((Csr.rows vlist elist).take v.toNat))
    rw [Int.toNat_of_nonneg h₂, Int.toNat_of_nonneg (by omega)] at hpush
    rw [Block.read_getD_toNat hv0 (by omega) 0, Run.ok_bind, hnext, Run.ok_bind, hpush, Run.ok_bind,
      Run.meets_pure]
    refine ⟨by omega, ?_⟩
    rw [show (v + 1).toNat = v.toNat + 1 by omega, List.take_add_one, Csr.rows_getElem? hlt,
      Option.toList_some, joinRows_concat, List.length_take, Nat.min_eq_left (by omega),
      show ((v.toNat : Nat) : Int) = v by omega]
    rfl
  obtain ⟨s, hrun, -, rfl⟩ := (Run.meets_forLoop _ ((vlist.length : Int) - 1) hstep
    (vlist.length - 1) 0 [] (by omega) ⟨by omega, by simp [joinRows]⟩).exists_ok fun e he => he.elim
  rw [insertSpliter, if_neg (by omega)]
  refine hrun.trans ?_
  rw [List.take_of_length_le (by omega)]

/-! ## The read-back loop -/

/-- The symbols that end a row. -/
def isSep (maxSymbol alph x : Int) : Bool := decide (maxSymbol ≤ x ∧ x < alph)

/-- Rule symbols are numbered from `maxSymbol` on in the result. -/
def renumber (maxSymbol x : Int) : Int := if x < maxSymbol then x else x - maxSymbol

/-- The rows that a text stands for. -/
def textRows (maxSymbol alph : Int) (t : List Int) : List (List Int) :=
  (cut (isSep maxSymbol alph) t).map fun r => r.map (renumber maxSymbol)

/-- The effect of one symbol in the read-back loop. -/
def pushSymbol (maxSymbol alph : Int) (s : ReadBack) (x : Int) : ReadBack :=
  if x < maxSymbol then { s with elist := s.elist ++ [x], eSize := s.eSize + 1 }
  else if x < alph then { s with vlist := s.vlist ++ [s.eSize] }
  else { s with elist := s.elist ++ [x - maxSymbol], eSize := s.eSize + 1 }

/-- The loop has written the rows `done` and the entries `acc` of the next one. -/
structure Written (s : ReadBack) (done : List (List Int)) (acc : List Int) : Prop where
  vlist : s.vlist = Csr.offsets done
  elist : s.elist = done.flatten ++ acc
  eSize : s.eSize = s.elist.length

section ReadBack

variable {maxSymbol alph u x : Int} {inter : Block Int} {ps : List Int} {s : ReadBack}
  {done : List (List Int)} {acc : List Int}

theorem Written.pushSep (h : Written s done acc) (hx : isSep maxSymbol alph x = true) :
    Written (pushSymbol maxSymbol alph s x) (done ++ [acc]) [] := by
  have hx' : maxSymbol ≤ x ∧ x < alph := of_decide_eq_true hx
  rw [pushSymbol, if_neg (by omega), if_pos hx'.2]
  refine ⟨?_, ?_, h.eSize⟩
  · rw [Csr.offsets_concat, ← h.vlist, h.eSize, h.elist, List.length_append]
    push_cast
    rfl
  · rw [List.append_nil, List.flatten_concat]
    exact h.elist

theorem Written.pushEntry (h : Written s done acc) (hx : isSep maxSymbol alph x = false) :
    Written (pushSymbol maxSymbol alph s x) done (acc ++ [renumber maxSymbol x]) := by
  have hx' : ¬ (maxSymbol ≤ x ∧ x < alph) := of_decide_eq_false hx
  have hentry : pushSymbol maxSymbol alph s x =
      { s with elist := s.elist ++ [renumber maxSymbol x], eSize := s.eSize + 1 } := by
    rw [pushSymbol, renumber]
    by_cases hlt : x < maxSymbol
    · rw [if_pos hlt, if_pos hlt]
    · rw [if_neg hlt, if_neg (by omega), if_neg hlt]
  rw [hentry]
  refine ⟨h.vlist, ?_, ?_⟩
  · rw [h.elist, List.append_assoc]
  · rw [h.eSize, List.length_append]
    rfl

/-- One round reads the symbol at a live position and goes on to the next one. -/
theorem readBackStep_eq (h : TextInv u inter ps) (l₁ l : List Int) (p : Int)
    (hps : ps = l₁ ++ p :: l) (hi : s.i = p) :
    readBackStep maxSymbol alph u inter s =
      .ok { pushSymbol maxSymbol alph s (inter.cells p) with i := l.headD u } := by
  subst hi
  have hp : s.i ∈ ps := by rw [hps]; simp
  have hkeep : (pushSymbol maxSymbol alph s (inter.cells s.i)).i = s.i := by
    unfold pushSymbol
    split
    · rfl
    · split <;> rfl
  rw [readBackStep, Block.read_eq (h.inB hp), Run.ok_bind]
  change (if (pushSymbol maxSymbol alph s (inter.cells s.i)).i + 1 < u then do
      let y ← inter.read ((pushSymbol maxSymbol alph s (inter.cells s.i)).i + 1)
      pure { pushSymbol maxSymbol alph s (inter.cells s.i) with
        i := if y < 0 then holePtr y else (pushSymbol maxSymbol alph s (inter.cells s.i)).i + 1 }
    else pure { pushSymbol maxSymbol alph s (inter.cells s.i) with
      i := (pushSymbol maxSymbol alph s (inter.cells s.i)).i + 1 }) = _
  rw [hkeep]
  have hstep := h.step_eq hps
  by_cases hlt : s.i + 1 < u
  · have hb : inter.InB (s.i + 1) := ⟨by have := (h.mem_range hp).1; omega, by rw [h.size]; exact hlt⟩
    rw [if_pos hlt, nextPos, Block.read_eq hb, Run.ok_bind] at hstep
    rw [if_pos hlt, Block.read_eq hb, Run.ok_bind, Except.ok.inj hstep]
    rfl
  · rw [if_neg hlt] at hstep
    rw [if_neg hlt, Except.ok.inj hstep]
    rfl

/-- The read-back loop returns the rows of the text. -/
theorem readBack_eq (h : TextInv u inter ps)
    (hlast : ∃ σ, (ps.map inter.cells).getLast? = some σ ∧ isSep maxSymbol alph σ = true) :
    ∃ s, readBack maxSymbol alph u inter = .ok s ∧
      Written s (textRows maxSymbol alph (ps.map inter.cells)) [] := by
  -- the part of the text still to be read, and the part of a row read so far
  have hrun := Run.meets_whileLoop (E := fun _ => False)
    (fun s : ReadBack => pure (decide (s.i < u))) (readBackStep maxSymbol alph u inter)
    (fun s => ∃ l₁ l done acc, ps = l₁ ++ l ∧ s.i = l.headD u ∧
      Written s done (acc.map (renumber maxSymbol)) ∧
      done ++ (cutFrom (isSep maxSymbol alph) acc (l.map inter.cells)).map
        (fun r => r.map (renumber maxSymbol)) = textRows maxSymbol alph (ps.map inter.cells) ∧
      (l = [] → acc = []))
    (fun s => Written s (textRows maxSymbol alph (ps.map inter.cells)) [])
    (fun s => (u - s.i).toNat) ?_ (u.toNat + 1) ⟨0, [0], [], 0⟩ (by dsimp only; omega) ?_
  · exact hrun.exists_ok fun e he => he.elim
  · rintro s ⟨l₁, l, done, acc, hps, hi, hw, hrows, hend⟩
    rw [Run.meets_pure, decide_eq_true_eq, decide_eq_false_iff_not]
    cases l with
    | nil =>
      rw [List.headD_nil] at hi
      refine ⟨fun hlt => by omega, fun _ => ?_⟩
      rw [hend rfl] at hw
      rw [← hrows, List.map_nil, cutFrom, List.map_nil, List.append_nil]
      exact hw
    | cons p l =>
      rw [List.headD_cons] at hi
      have hp : p ∈ ps := by rw [hps]; simp
      have hpr := h.mem_range hp
      refine ⟨fun _ => ?_, fun hge => by omega⟩
      rw [readBackStep_eq h l₁ l p hps hi]
      have hmono : p < l.headD u := by
        cases l with
        | nil => exact hpr.2
        | cons q l => exact (h.adj_range (adj_iff_exists.mpr ⟨l₁, l, hps⟩)).2.1
      refine ⟨?_, by dsimp only; omega⟩
      rw [List.map_cons] at hrows
      cases hsep : isSep maxSymbol alph (inter.cells p) with
      | true =>
        have hw' := hw.pushSep hsep
        rw [cutFrom_sep hsep, List.map_cons] at hrows
        exact ⟨l₁ ++ [p], l, done ++ [acc.map (renumber maxSymbol)], [], by rw [hps]; simp, rfl,
          ⟨hw'.vlist, hw'.elist, hw'.eSize⟩, by rw [← hrows]; simp [cut], fun _ => rfl⟩
      | false =>
        have hw' := hw.pushEntry hsep
        rw [cutFrom, if_neg (by simp [hsep])] at hrows
        refine ⟨l₁ ++ [p], l, done, acc ++ [inter.cells p], by rw [hps]; simp, rfl,
          ⟨hw'.vlist, by rw [List.map_append]; exact hw'.elist, hw'.eSize⟩, hrows, fun hl => ?_⟩
        -- the last symbol of the text is a separator
        obtain ⟨σ, hσ, hs⟩ := hlast
        rw [hps, hl, List.map_append, List.map_singleton, List.getLast?_concat, Option.some_inj] at hσ
        rw [hσ, hs] at hsep
        cases hsep
  · obtain ⟨l, hps⟩ := List.head?_eq_some_iff.mp h.first
    exact ⟨[], ps, [], [], rfl, by rw [hps]; rfl, ⟨rfl, rfl, rfl⟩, rfl, fun _ => rfl⟩

/-- The rows of the rules. -/
def ruleRows (maxSymbol : Int) (rules : List Tpair) : List (List Int) :=
  rules.map fun p => [convert p.left maxSymbol, convert p.right maxSymbol]

/-- Every rule gets a row of two entries. -/
theorem Written.pushRules (maxSymbol : Int) (rules : List Tpair) (h : Written s done []) :
    Written (rules.foldl (pushRule maxSymbol) s) (done ++ ruleRows maxSymbol rules) [] := by
  induction rules generalizing s done with
  | nil => rwa [ruleRows, List.map_nil, List.append_nil]
  | cons p rules ih =>
    have hp : Written (pushRule maxSymbol s p)
        (done ++ [[convert p.left maxSymbol, convert p.right maxSymbol]]) [] := by
      have hv := h.vlist
      have he := h.elist
      rw [List.append_nil] at he
      refine ⟨?_, ?_, ?_⟩
      · rw [pushRule, Csr.offsets_concat, ← hv, h.eSize, he]
        rfl
      · rw [List.append_nil, List.flatten_concat, ← he]
        rfl
      · rw [pushRule]
        dsimp only
        rw [h.eSize, List.length_append]
        rfl
    have := ih hp
    rwa [List.append_assoc] at this

end ReadBack

end Laconic.RePair

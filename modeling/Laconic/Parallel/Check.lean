import Laconic.Grammar
import Laconic.Lib.Block

/-!
# The decompressor of the parallel core

`decompress` of `check.h` takes the id of a rule, and the entry after it, for the offsets of its row:
`compress_v` is passed on and never read.  A row that contains a rule has a last one, which is followed
by a vertex or by nothing, so that every call on such a row fails.  `check` compares the rows of two
graphs with it, all but the last one.
-/

namespace Laconic.Parallel

open Slp

/-! ## The code -/

/-- `std::vector<uint32_t>(e.begin() + first, e.begin() + last)`. -/
def subVector (e : List Int) (first last : Int) : Run (List Int) :=
  if 0 ≤ first ∧ first ≤ last ∧ last ≤ e.length then
    .ok ((e.drop first.toNat).take (last - first).toNat)
  else .error .bounds

def decompress : Nat → Int → List Int → List Int → List Int → Run (List Int)
  | 0, _, _, _, _ => .error .fuel
  | fuel + 1, maxId, compressedVec, compressV, compressE =>
    Run.forLoop (fun i tempVec => do
      let x ← (Block.ofList compressedVec).read i
      if maxId < x then do
        let next ← (Block.ofList compressedVec).read (i + 1)
        let newVec ← subVector compressE x next
        let newRole ← decompress fuel maxId newVec compressV compressE
        pure (tempVec ++ newRole)
      else pure (tempVec ++ [x])) compressedVec.length 0 []

/-- What `check` prints about a row that differs. -/
structure Difference where
  row : Int
  origin : List Int
  compressed : List Int
  deriving DecidableEq, Repr

/-- The report about one row: once when the sizes differ, otherwise for every entry that differs. -/
def compareRow (j : Int) (temp compressTemp : List Int) : List Difference :=
  if temp.length ≠ compressTemp.length then [⟨j, temp, compressTemp⟩]
  else ((List.range temp.length).filter fun k => temp.getD k 0 ≠ compressTemp.getD k 0).map
    fun _ => ⟨j, temp, compressTemp⟩

/-- One round of the loop over the rows. -/
def checkRow (fuel : Nat) (originV originE compressV compressE : List Int) (maxId j : Int) :
    Run (List Difference) := do
  let a ← (Block.ofList originV).read j
  let b ← (Block.ofList originV).read (j + 1)
  let temp ← subVector originE a b
  let c ← (Block.ofList compressV).read j
  let d ← (Block.ofList compressV).read (j + 1)
  let compressTemp ← subVector compressE c d
  let compressTemp ← decompress fuel maxId compressTemp compressV compressE
  pure (compareRow j temp compressTemp)

/-- The reports of `check`, which stops after the first row that differs.  The bound
`origin_v.size() - 2` is a `size_t`. -/
def check (fuel : Nat) (originV originE compressV compressE : List Int) (maxId : Int) :
    Run (List Difference) :=
  Run.forLoop (fun j reports =>
    if reports = [] then checkRow fuel originV originE compressV compressE maxId j
    else pure reports) (((originV.length : Int) - 2) % 2 ^ 64).toNat 0 []

/-! ## decompress -/

section Decompress

variable {compressV compressE seq : List Int} {maxId : Int}

/-- Without rules nothing changes. -/
theorem decompress_eq (h : ∀ x ∈ seq, x ≤ maxId) (fuel : Nat) :
    decompress (fuel + 1) maxId seq compressV compressE = .ok seq := by
  have hmeets : Run.Meets (fun _ => False)
      (decompress (fuel + 1) maxId seq compressV compressE) (fun out =>
        0 ≤ (seq.length : Int) ∧ out = seq.take (seq.length : Int).toNat) := by
    rw [decompress]
    refine Run.meets_forLoop (fun i (out : List Int) => 0 ≤ i ∧ out = seq.take i.toNat)
      (seq.length : Int) ?_ seq.length 0 [] (by omega) ⟨Int.le_refl 0, rfl⟩
    rintro i out hi ⟨h0, rfl⟩
    obtain ⟨i, rfl⟩ := Int.eq_ofNat_of_zero_le h0
    have hlt : i < seq.length := by omega
    rw [Block.read_ofList hlt, Run.ok_bind, if_neg (Int.not_lt.mpr (h _ (List.getElem_mem hlt))),
      Run.meets_pure, Int.toNat_natCast, show ((i : Int) + 1).toNat = i + 1 by omega,
      List.take_add_one, List.getElem?_eq_getElem hlt, Option.toList_some]
    exact ⟨by omega, rfl⟩
  obtain ⟨out, hout, -, rfl⟩ := hmeets.exists_ok fun e he => he.elim
  rwa [Int.toNat_natCast, List.take_length] at hout

theorem subVector_le {e : List Int} {first last : Int} {out : List Int}
    (h : subVector e first last = .ok out) : first ≤ last := by
  unfold subVector at h
  split at h
  · next hc => exact hc.2.1
  · cases h

/-- A rule is followed by a rule, as far as the loop gets, and so there is no last one. -/
theorem decompress_fails {x : Int} (hx : x ∈ seq) (hrule : maxId < x) (fuel : Nat) (out : List Int) :
    decompress fuel maxId seq compressV compressE ≠ .ok out := by
  intro hrun
  cases fuel with
  | zero => cases hrun
  | succ fuel =>
    have hmeets : Run.Meets (fun _ => True)
        (decompress (fuel + 1) maxId seq compressV compressE) (fun _ => 0 ≤ (seq.length : Int) ∧
          ∀ j : Nat, (j : Int) < seq.length → maxId < seq.getD j 0 →
            j + 1 < seq.length ∧ maxId < seq.getD (j + 1) 0) := by
      rw [decompress]
      refine Run.meets_forLoop (fun i (_ : List Int) => 0 ≤ i ∧ ∀ j : Nat, (j : Int) < i →
        maxId < seq.getD j 0 → j + 1 < seq.length ∧ maxId < seq.getD (j + 1) 0)
        (seq.length : Int) ?_ seq.length 0 [] (by omega) ⟨Int.le_refl 0, fun j hj => by omega⟩
      rintro i temp hi ⟨h0, hdone⟩
      obtain ⟨i, rfl⟩ := Int.eq_ofNat_of_zero_le h0
      have hlt : i < seq.length := by omega
      have hget : seq.getD i 0 = seq[i] := by
        rw [List.getD_eq_getElem?_getD, List.getElem?_eq_getElem hlt, Option.getD_some]
      have hextend : (maxId < seq[i] → i + 1 < seq.length ∧ maxId < seq.getD (i + 1) 0) →
          0 ≤ (i : Int) + 1 ∧ ∀ j : Nat, (j : Int) < (i : Int) + 1 → maxId < seq.getD j 0 →
            j + 1 < seq.length ∧ maxId < seq.getD (j + 1) 0 := by
        refine fun hlast => ⟨by omega, fun j hj hjr => ?_⟩
        obtain rfl | hji : j = i ∨ (j : Int) < i := by omega
        · exact hlast (by rwa [← hget])
        · exact hdone j hji hjr
      rw [Block.read_ofList hlt, Run.ok_bind, Run.meets_ite]
      refine ⟨fun hr => ?_, fun hnr => ?_⟩
      · by_cases hnext : i + 1 < seq.length
        · have hread : (Block.ofList seq).read ((i : Int) + 1) = .ok seq[i + 1] :=
            Block.read_ofList hnext
          rw [hread, Run.ok_bind]
          cases hsub : subVector compressE seq[i] seq[i + 1] with
          | error e => trivial
          | ok newVec =>
            have hle := subVector_le hsub
            rw [Run.ok_bind]
            cases decompress fuel maxId newVec compressV compressE with
            | error e => trivial
            | ok newRole =>
              rw [Run.ok_bind, Run.meets_pure]
              refine hextend fun _ => ⟨hnext, ?_⟩
              rw [List.getD_eq_getElem?_getD, List.getElem?_eq_getElem hnext, Option.getD_some]
              omega
        · rw [Block.read_ofList_of_le (by omega)]
          trivial
      · rw [Run.meets_pure]
        exact hextend fun hr => absurd hr hnr
    obtain ⟨-, hnext⟩ := hmeets.of_ok hrun
    -- from the rule on, all entries would be rules
    obtain ⟨i, hi, rfl⟩ := List.getElem_of_mem hx
    have hall : ∀ d, i + d < seq.length ∧ maxId < seq.getD (i + d) 0 := by
      intro d
      induction d with
      | zero =>
        refine ⟨hi, ?_⟩
        rwa [Nat.add_zero, List.getD_eq_getElem?_getD, List.getElem?_eq_getElem hi, Option.getD_some]
      | succ d ih => exact hnext (i + d) (by omega) ih.2
    have := (hall seq.length).1
    omega

end Decompress

/-! ## check -/

theorem compareRow_eq_nil_iff {j : Int} {a b : List Int} : compareRow j a b = [] ↔ a = b := by
  unfold compareRow
  split
  · next hlen =>
    refine iff_of_false (List.cons_ne_nil _ _) fun heq => hlen (by rw [heq])
  · next hlen =>
    rw [List.map_eq_nil_iff, List.filter_eq_nil_iff]
    constructor
    · intro hall
      refine List.ext_getElem (Classical.not_not.mp hlen) fun i hi hi' => ?_
      have hdiff := hall i (List.mem_range.mpr hi)
      rw [decide_eq_true_eq, ne_eq, Classical.not_not, List.getD_eq_getElem?_getD,
        List.getD_eq_getElem?_getD, List.getElem?_eq_getElem hi, List.getElem?_eq_getElem hi'] at hdiff
      exact hdiff
    · rintro rfl i -
      rw [decide_eq_true_eq]
      exact fun hne => hne rfl

theorem subVector_row {off ent : List Int} (h : Csr.Valid off ent) {v : Nat}
    (hv : v + 1 < off.length) :
    subVector ent (off.getD v 0) (off.getD (v + 1) 0) = .ok (Csr.row off ent v) := by
  have h0 := h.getD_nonneg (show v < off.length by omega)
  have hle := h.getD_mono (Nat.le_succ v) hv
  have hlen := h.getD_le hv
  rw [subVector, if_pos ⟨h0, hle, hlen⟩, Csr.row, List.drop_take]
  congr 2
  omega

section Check

variable {originV originE compressV compressE : List Int} {V k : Nat}

/-- No rule stands in row `j` of the compressed graph. -/
def NoRule (V : Nat) (compressV compressE : List Int) (j : Nat) : Prop :=
  ∀ x ∈ Csr.row compressV compressE j, x < V

/-- Row `j` of the compressed graph stands for row `j` of the original. -/
def SameRow (V : Nat) (originV originE compressV compressE : List Int) (j : Nat) : Prop :=
  Expands (csrRhs V V compressV compressE) (Csr.row compressV compressE j)
    (Csr.row originV originE j)

/-- A row without rules stands for itself. -/
theorem sameRow_iff {j : Nat} (h : NoRule V compressV compressE j) :
    SameRow V originV originE compressV compressE j ↔
      Csr.row originV originE j = Csr.row compressV compressE j := by
  have hself : Expands (csrRhs V V compressV compressE) (Csr.row compressV compressE j)
      (Csr.row compressV compressE j) :=
    Expands.of_terminals fun x hx => csrRhs_vertex (h x hx)
  constructor
  · intro hs
    exact hs.unique hself
  · intro heq
    rw [SameRow, heq]
    exact hself

/-- What `check` does with row `j`. -/
theorem checkRow_eq (ho : Csr.Valid originV originE) (hc : Csr.Valid compressV compressE) {j : Nat}
    (hj : j + 1 < originV.length) (hj' : j + 1 < compressV.length) (fuel : Nat) (maxId : Int) :
    checkRow fuel originV originE compressV compressE maxId j =
      decompress fuel maxId (Csr.row compressV compressE j) compressV compressE >>= fun out =>
        pure (compareRow j (Csr.row originV originE j) out) := by
  have hnext : ∀ {off : List Int}, j + 1 < off.length →
      (Block.ofList off).read ((j : Int) + 1) = .ok (off.getD (j + 1) 0) :=
    fun hi => Block.read_getD hi 0
  rw [checkRow, Block.read_getD (show j < originV.length by omega) 0, Run.ok_bind, hnext hj,
    Run.ok_bind, subVector_row ho hj, Run.ok_bind,
    Block.read_getD (show j < compressV.length by omega) 0, Run.ok_bind, hnext hj', Run.ok_bind,
    subVector_row hc hj', Run.ok_bind]

/-- The loop of `check` over `n` rows from `lo`. -/
def checkLoop (fuel : Nat) (originV originE compressV compressE : List Int) (maxId : Int) (n : Nat)
    (lo : Int) (reports : List Difference) : Run (List Difference) :=
  Run.forLoop (fun j reports =>
    if reports = [] then checkRow fuel originV originE compressV compressE maxId j
    else pure reports) n lo reports

/-- After a difference the loop does nothing. -/
theorem checkLoop_stopped {reports : List Difference} (h : reports ≠ []) (fuel : Nat) (maxId : Int)
    (n : Nat) (lo : Int) :
    checkLoop fuel originV originE compressV compressE maxId n lo reports = .ok reports := by
  induction n generalizing lo with
  | zero => rfl
  | succ n ih =>
    rw [checkLoop, Run.forLoop, if_neg h, Run.pure_bind]
    exact ih (lo + 1)

/-- Row `j` has no rule and is the original row. -/
def Fine (V : Nat) (originV originE compressV compressE : List Int) (j : Nat) : Prop :=
  NoRule V compressV compressE j ∧ SameRow V originV originE compressV compressE j

section Step

variable {V n lo : Nat}

theorem checkLoop_succ (ho : Csr.Valid originV originE) (hc : Csr.Valid compressV compressE)
    (hn : lo + 1 < originV.length) (hn' : lo + 1 < compressV.length) (fuel : Nat) :
    checkLoop fuel originV originE compressV compressE ((V : Int) - 1) (n + 1) lo [] =
      decompress fuel ((V : Int) - 1) (Csr.row compressV compressE lo) compressV compressE >>=
        fun out => checkLoop fuel originV originE compressV compressE ((V : Int) - 1) n
          ((lo : Int) + 1) (compareRow lo (Csr.row originV originE lo) out) := by
  rw [checkLoop, Run.forLoop, if_pos rfl, checkRow_eq ho hc hn hn']
  cases decompress fuel ((V : Int) - 1) (Csr.row compressV compressE lo) compressV compressE <;> rfl

/-- A row without a rule is compared as it is. -/
theorem checkLoop_of_noRule (ho : Csr.Valid originV originE) (hc : Csr.Valid compressV compressE)
    (hn : lo + 1 < originV.length) (hn' : lo + 1 < compressV.length)
    (hrule : NoRule V compressV compressE lo) (fuel : Nat) :
    checkLoop (fuel + 1) originV originE compressV compressE ((V : Int) - 1) (n + 1) lo [] =
      checkLoop (fuel + 1) originV originE compressV compressE ((V : Int) - 1) n ((lo : Int) + 1)
        (compareRow lo (Csr.row originV originE lo) (Csr.row compressV compressE lo)) := by
  rw [checkLoop_succ ho hc hn hn', decompress_eq fun x hx => by have := hrule x hx; omega,
    Run.ok_bind]

/-- At a row with a rule the loop fails. -/
theorem checkLoop_of_rule (ho : Csr.Valid originV originE) (hc : Csr.Valid compressV compressE)
    (hn : lo + 1 < originV.length) (hn' : lo + 1 < compressV.length)
    (hrule : ¬ NoRule V compressV compressE lo) (fuel : Nat) (out : List Difference) :
    checkLoop fuel originV originE compressV compressE ((V : Int) - 1) (n + 1) lo [] ≠ .ok out := by
  have hex : ∃ x ∈ Csr.row compressV compressE lo, (V : Int) - 1 < x := by
    by_contra hnone
    exact hrule fun x hx => by
      by_contra hge
      exact hnone ⟨x, hx, by omega⟩
  obtain ⟨x, hx, hlt⟩ := hex
  intro hok
  rw [checkLoop_succ ho hc hn hn'] at hok
  cases hdec : decompress fuel ((V : Int) - 1) (Csr.row compressV compressE lo) compressV
      compressE with
  | error e =>
    rw [hdec] at hok
    cases hok
  | ok ys => exact decompress_fails hx hlt fuel ys hdec

end Step

/-- The loop fails at a rule, stops at a difference, or passes all rows. -/
theorem checkLoop_cases (ho : Csr.Valid originV originE) (hc : Csr.Valid compressV compressE) (n lo : Nat)
    (hn : lo + n < originV.length) (hn' : lo + n < compressV.length) :
    (∃ j, lo ≤ j ∧ j < lo + n ∧ ¬ NoRule V compressV compressE j ∧
      (∀ i, lo ≤ i → i < j → Fine V originV originE compressV compressE i) ∧
      ∀ fuel out, checkLoop fuel originV originE compressV compressE ((V : Int) - 1) n lo [] ≠
        .ok out) ∨
    (∃ j, lo ≤ j ∧ j < lo + n ∧ NoRule V compressV compressE j ∧
      ¬ SameRow V originV originE compressV compressE j ∧
      (∀ i, lo ≤ i → i < j → Fine V originV originE compressV compressE i) ∧
      ∃ out, out ≠ [] ∧ ∀ fuel, checkLoop (fuel + 1) originV originE compressV compressE
        ((V : Int) - 1) n lo [] = .ok out) ∨
    ((∀ i, lo ≤ i → i < lo + n → Fine V originV originE compressV compressE i) ∧
      ∀ fuel, checkLoop (fuel + 1) originV originE compressV compressE ((V : Int) - 1) n lo [] =
        .ok []) := by
  induction n generalizing lo with
  | zero => exact Or.inr (Or.inr ⟨fun i hi hlt => by omega, fun _ => rfl⟩)
  | succ n ih =>
    have hlo : lo + 1 < originV.length := by omega
    have hlo' : lo + 1 < compressV.length := by omega
    by_cases hrule : NoRule V compressV compressE lo
    · by_cases hsame : SameRow V originV originE compressV compressE lo
      · -- the row passes
        have hnext : ∀ fuel, checkLoop (fuel + 1) originV originE compressV compressE ((V : Int) - 1)
            (n + 1) lo [] = checkLoop (fuel + 1) originV originE compressV compressE ((V : Int) - 1) n
            ((lo + 1 : Nat) : Int) [] := by
          intro fuel
          rw [checkLoop_of_noRule ho hc hlo hlo' hrule,
            compareRow_eq_nil_iff.mpr ((sameRow_iff hrule).mp hsame)]
          rfl
        have hfine : ∀ {m : Nat}, (∀ i, lo + 1 ≤ i → i < m →
            Fine V originV originE compressV compressE i) → ∀ i, lo ≤ i → i < m →
            Fine V originV originE compressV compressE i := by
          intro m hm i hi hlt
          obtain rfl | hgt : i = lo ∨ lo + 1 ≤ i := by omega
          · exact ⟨hrule, hsame⟩
          · exact hm i hgt hlt
        rcases ih (lo + 1) (by omega) (by omega) with ⟨j, hj, hlt, hr, hbefore, hfail⟩ |
          ⟨j, hj, hlt, hr, hd, hbefore, out, hout, hrun⟩ | ⟨hall, hrun⟩
        · refine Or.inl ⟨j, by omega, by omega, hr, hfine hbefore, fun fuel out hok => ?_⟩
          cases fuel with
          | zero =>
            rw [checkLoop_succ ho hc hlo hlo'] at hok
            cases hok
          | succ fuel =>
            rw [hnext] at hok
            exact hfail _ _ hok
        · exact Or.inr (Or.inl ⟨j, by omega, by omega, hr, hd, hfine hbefore, out, hout, fun fuel => by
            rw [hnext, hrun]⟩)
        · refine Or.inr (Or.inr ⟨fun i hi hlt => hfine hall i hi (by omega), fun fuel => ?_⟩)
          rw [hnext, hrun]
      · have hdiff : compareRow lo (Csr.row originV originE lo) (Csr.row compressV compressE lo) ≠ [] :=
          fun hnil => hsame ((sameRow_iff hrule).mpr (compareRow_eq_nil_iff.mp hnil))
        refine Or.inr (Or.inl ⟨lo, Nat.le_refl lo, by omega, hrule, hsame, fun i hi hlt => by omega,
          _, hdiff, fun fuel => ?_⟩)
        rw [checkLoop_of_noRule ho hc hlo hlo' hrule, checkLoop_stopped hdiff]
    · exact Or.inl ⟨lo, Nat.le_refl lo, by omega, hrule, fun i hi hlt => by omega,
        checkLoop_of_rule ho hc hlo hlo' hrule⟩

/-- `check` ends, and reports nothing exactly when all rows agree. -/
def CheckRight (V : Nat) (originV originE compressV compressE : List Int) : Prop :=
  ∃ out, (∃ enough, ∀ fuel, enough ≤ fuel →
      check fuel originV originE compressV compressE ((V : Int) - 1) = .ok out) ∧
    (out = [] ↔ ∀ j, j < V → SameRow V originV originE compressV compressE j)

/-- The condition for it: a row before the last differs and no rule stands up to there, or no rule
stands before the last row and the last row agrees. -/
def CheckCondition (V : Nat) (originV originE compressV compressE : List Int) : Prop :=
  (∃ j, j + 1 < V ∧ ¬ SameRow V originV originE compressV compressE j ∧
    ∀ i, i ≤ j → NoRule V compressV compressE i) ∨
  ((∀ i, i + 1 < V → NoRule V compressV compressE i) ∧
    SameRow V originV originE compressV compressE (V - 1))

theorem checkRight_iff (hV : 1 ≤ V) (hid : V ≤ 2 ^ 32) (ho : Csr.Valid originV originE)
    (holen : originV.length = V + 1) (hc : Csr.Valid compressV compressE)
    (hclen : V + 1 ≤ compressV.length) :
    CheckRight V originV originE compressV compressE ↔
      CheckCondition V originV originE compressV compressE := by
  have hcheck : ∀ fuel, check fuel originV originE compressV compressE ((V : Int) - 1) =
      checkLoop fuel originV originE compressV compressE ((V : Int) - 1) (V - 1) (0 : Nat) [] := by
    intro fuel
    rw [check, checkLoop, holen, Int.emod_eq_of_lt (by push_cast; omega) (by push_cast; omega),
      show (((V + 1 : Nat) : Int) - 2).toNat = V - 1 by omega]
    rfl
  unfold CheckRight CheckCondition
  simp only [hcheck]
  rcases checkLoop_cases (V := V) ho hc (V - 1) 0 (by omega) (by omega) with
    ⟨j, -, hj, hr, hbefore, hfail⟩ | ⟨j, -, hj, hr, hd, hbefore, out, hout, hrun⟩ | ⟨hall, hrun⟩
  · -- a rule comes first
    refine iff_of_false ?_ ?_
    · rintro ⟨out, ⟨enough, henough⟩, -⟩
      exact hfail enough out (henough enough (Nat.le_refl _))
    · rintro (⟨i, hi, hd, hno⟩ | ⟨hno, -⟩)
      · rcases Nat.lt_or_ge i j with hij | hij
        · exact hd (hbefore i (Nat.zero_le i) hij).2
        · exact hr (hno j hij)
      · exact hr (hno j (by omega))
  · -- a difference comes first
    refine iff_of_true ⟨out, ⟨1, fun fuel hfuel => ?_⟩, iff_of_false hout fun hsame => ?_⟩
      (Or.inl ⟨j, by omega, hd, fun i hi => ?_⟩)
    · obtain ⟨fuel, rfl⟩ := Nat.exists_eq_add_of_le' hfuel
      exact hrun fuel
    · exact hd (hsame j (by omega))
    · obtain rfl | hlt := Nat.eq_or_lt_of_le hi
      · exact hr
      · exact (hbefore i (Nat.zero_le i) hlt).1
  · have hrun' : ∀ fuel, 1 ≤ fuel → checkLoop fuel originV originE compressV compressE
        ((V : Int) - 1) (V - 1) (0 : Nat) [] = .ok [] := by
      intro fuel hfuel
      obtain ⟨fuel, rfl⟩ := Nat.exists_eq_add_of_le' hfuel
      exact hrun fuel
    constructor
    · rintro ⟨out, ⟨enough, henough⟩, hiff⟩
      have heq := henough (max enough 1) (by omega)
      rw [hrun' _ (by omega)] at heq
      have hsame := hiff.mp (Except.ok.inj heq).symm
      exact Or.inr ⟨fun i hi => (hall i (Nat.zero_le i) (by omega)).1, hsame (V - 1) (by omega)⟩
    · rintro (⟨j, hj, hd, -⟩ | ⟨-, hlast⟩)
      · exact absurd (hall j (Nat.zero_le j) (by omega)).2 hd
      · refine ⟨[], ⟨1, hrun'⟩, iff_of_true rfl fun j hj => ?_⟩
        obtain rfl | hlt : j = V - 1 ∨ j < V - 1 := by omega
        · exact hlast
        · exact (hall j (Nat.zero_le j) (by omega)).2

end Check

end Laconic.Parallel

import Mathlib.Data.List.TakeWhile
import Laconic.Grammar
import Laconic.RePair.Basics

/-!
# Reading a graph from a file

`read_from_file` of `graphIO.h` reads the number of vertices, the number of edges and a stream of
numbers, in which one that is not a vertex ends a row.  A terminator writes the offset of the next
row; after the stream, offsets are added until there are as many as vertices, which is one less than
the number of offsets that a graph has.
-/

namespace Laconic.Graph

open RePair (intBound toInt)

/-- The variables of `read_from_file`. -/
structure ReadState where
  backVlist : List Int
  backElist : List Int
  esize : Int

/-- `while(infile >> tmp)`: the stream fails at its end and at a number that is not an `int`. -/
def readTokens (vertexCnt : Int) : List Nat → ReadState → Run ReadState
  | [], s => pure s
  | tmp :: tokens, s =>
    if intBound ≤ tmp then pure s
    else if vertexCnt ≤ tmp then
      readTokens vertexCnt tokens { s with backVlist := s.backVlist ++ [s.esize] }
    else do
      let esize ← toInt (s.esize + 1)
      readTokens vertexCnt tokens
        { s with backElist := s.backElist ++ [(tmp : Int)], esize := esize }

/-- The numbers in the file are the arguments.  When `vertex_cnt` cannot be read it is the largest
`int`, and nothing more is read. -/
def readFromFile (vertexCnt edgeCnt : Nat) (tokens : List Nat) : Run (List Int × List Int) := do
  let cnt : Int := if (vertexCnt : Int) < intBound then vertexCnt else intBound - 1
  let s ← if (vertexCnt : Int) < intBound ∧ (edgeCnt : Int) < intBound
    then readTokens cnt tokens ⟨[0], [], 0⟩ else pure ⟨[0], [], 0⟩
  -- `while(back_vlist.size() < vertex_cnt)`
  pure (s.backVlist ++ List.replicate (cnt - s.backVlist.length).toNat s.esize, s.backElist)

/-! ## Rows of a stream -/

/-- The rows that the terminators close, and the entries behind the last one. -/
def closeRows (V : Nat) : List Nat → List (List Int) × List Int → List (List Int) × List Int
  | [], s => s
  | t :: ts, s => closeRows V ts (if V ≤ t then (s.1 ++ [s.2], []) else (s.1, s.2 ++ [(t : Int)]))

/-- The entries between the terminators. -/
def tokenRows (V : Nat) (ts : List Nat) : List (List Int) :=
  (ts.splitOnP fun t => decide (V ≤ t)).map (List.map fun t : Nat => (t : Int))

section CloseRows

variable {V : Nat}

theorem tokenRows_cons (t : Nat) (ts : List Nat) : tokenRows V (t :: ts) =
    if V ≤ t then [] :: tokenRows V ts else (tokenRows V ts).modifyHead ((t : Int) :: ·) := by
  rw [tokenRows, List.splitOnP_cons_eq_if_modifyHead]
  by_cases h : V ≤ t
  · rw [if_pos (decide_eq_true h), if_pos h]
    rfl
  · rw [if_neg (by simpa using h), if_neg h, tokenRows]
    cases List.splitOnP (fun t => decide (V ≤ t)) ts <;> rfl

theorem closeRows_eq (ts : List Nat) (s : List (List Int) × List Int) :
    (closeRows V ts s).1 ++ [(closeRows V ts s).2] =
      s.1 ++ (tokenRows V ts).modifyHead (s.2 ++ ·) := by
  induction ts generalizing s with
  | nil =>
    rw [closeRows, tokenRows, List.splitOnP_nil]
    simp
  | cons t ts ih =>
    rw [closeRows, ih, tokenRows_cons]
    split
    · rw [List.append_assoc]
      cases tokenRows V ts <;> simp
    · cases tokenRows V ts <;> simp

theorem length_closeRows (ts : List Nat) (s : List (List Int) × List Int) :
    (closeRows V ts s).1.length = s.1.length + ts.countP fun t => decide (V ≤ t) := by
  induction ts generalizing s with
  | nil => rfl
  | cons t ts ih =>
    rw [closeRows, ih, List.countP_cons]
    by_cases h : V ≤ t
    · rw [if_pos h, if_pos (decide_eq_true h), List.length_append, List.length_singleton]
      omega
    · rw [if_neg h, if_neg (by simpa using h)]
      rfl

/-- Nothing is left open when the last number is a terminator. -/
theorem closeRows_snd_eq_nil (t : Nat) (ts : List Nat) (s : List (List Int) × List Int) :
    (closeRows V (t :: ts) s).2 = [] ↔ ∀ x ∈ (t :: ts).getLast?, V ≤ x := by
  induction ts generalizing t s with
  | nil =>
    rw [closeRows, closeRows]
    split
    · rename_i h
      simpa using h
    · rename_i h
      simpa using h
  | cons t' ts ih =>
    rw [closeRows, ih, List.getLast?_cons_cons]

theorem length_closeRows_entries (ts : List Nat) (s : List (List Int) × List Int) :
    ((closeRows V ts s).1.flatten ++ (closeRows V ts s).2).length =
      (s.1.flatten ++ s.2).length + ts.countP fun t => decide (t < V) := by
  induction ts generalizing s with
  | nil => rfl
  | cons t ts ih =>
    rw [closeRows, ih, List.countP_cons]
    by_cases h : V ≤ t
    · rw [if_pos h, if_neg (by simpa using h)]
      simp
    · rw [if_neg h, if_pos (by simpa using h)]
      simp
      omega

end CloseRows

/-! ## Reading -/

/-- The rows `s` are stored. -/
def readState (s : List (List Int) × List Int) : ReadState :=
  ⟨Csr.offsets s.1, s.1.flatten ++ s.2, (s.1.flatten ++ s.2).length⟩

/-- The numbers that are read: all before the first one that is not an `int`. -/
def readable (ts : List Nat) : List Nat := ts.takeWhile fun t => decide ((t : Int) < intBound)

section Read

variable {V : Nat} {ts : List Nat} {s : List (List Int) × List Int}

theorem readState_close (s : List (List Int) × List Int) :
    { readState s with backVlist := (readState s).backVlist ++ [(readState s).esize] } =
      readState (s.1 ++ [s.2], []) := by
  simp [readState, Csr.offsets_concat]

theorem readState_entry (s : List (List Int) × List Int) (t : Int) :
    ({ readState s with
      backElist := (readState s).backElist ++ [t], esize := (readState s).esize + 1 } : ReadState) =
      readState (s.1, s.2 ++ [t]) := by
  simp [readState]
  omega

/-- What a run that returns has read. -/
theorem readTokens_ok {r : ReadState} (h : readTokens V ts (readState s) = .ok r)
    (hs : (readState s).esize < intBound) :
    r = readState (closeRows V (readable ts) s) ∧ r.esize < intBound := by
  induction ts generalizing s with
  | nil =>
    cases h
    exact ⟨rfl, hs⟩
  | cons t ts ih =>
    rw [readTokens] at h
    by_cases hfit : (t : Int) < intBound
    · have hread : readable (t :: ts) = t :: readable ts :=
        List.takeWhile_cons_of_pos (decide_eq_true hfit)
      rw [hread, closeRows]
      rw [if_neg (by omega)] at h
      by_cases hterm : V ≤ t
      · rw [if_pos (by omega), readState_close] at h
        rw [if_pos hterm]
        apply ih h
        simpa [readState] using hs
      · rw [if_neg (by omega)] at h
        obtain ⟨n, hn, h⟩ := Run.bind_eq_ok.mp h
        unfold toInt at hn
        split at hn
        · rename_i hlt
          cases hn
          rw [readState_entry] at h
          rw [if_neg hterm]
          apply ih h
          rw [← readState_entry]
          exact hlt
        · cases hn
    · have hread : readable (t :: ts) = [] :=
        List.takeWhile_cons_of_neg (by simpa using hfit)
      rw [if_pos (by omega)] at h
      rw [hread]
      cases h
      exact ⟨rfl, hs⟩

/-- Reading returns when the number of entries is an `int`. -/
theorem exists_readTokens (hfit : ∀ t ∈ ts, (t : Int) < intBound)
    (hsize : (readState s).esize + (ts.countP fun t => decide (t < V) : Nat) < intBound) :
    ∃ r, readTokens V ts (readState s) = .ok r := by
  induction ts generalizing s with
  | nil => exact ⟨_, rfl⟩
  | cons t ts ih =>
    have ht := hfit t List.mem_cons_self
    rw [List.countP_cons] at hsize
    rw [readTokens, if_neg (by omega)]
    by_cases hterm : V ≤ t
    · rw [if_pos (by omega), readState_close]
      apply ih fun t ht => hfit t (List.mem_cons_of_mem _ ht)
      rw [if_neg (by simpa using hterm)] at hsize
      simpa [readState] using hsize
    · rw [if_pos (by simpa using hterm)] at hsize
      rw [if_neg (by omega), toInt, if_pos (by omega), Run.pure_bind, readState_entry]
      apply ih fun t ht => hfit t (List.mem_cons_of_mem _ ht)
      rw [← readState_entry]
      change (readState s).esize + 1 + _ < _
      omega

end Read

/-- The stream has a terminator for every row, and the last row is terminated. -/
structure Terminated (vertexCnt edgeCnt : Nat) (tokens : List Nat) : Prop where
  vertex : (vertexCnt : Int) < intBound
  edge : (edgeCnt : Int) < intBound
  fits : ∀ t ∈ tokens, (t : Int) < intBound
  entries : ((tokens.countP fun t => decide (t < vertexCnt) : Nat) : Int) < intBound
  rows : (tokens.countP fun t => decide (vertexCnt ≤ t)) = vertexCnt
  last : ∀ t ∈ tokens.getLast?, vertexCnt ≤ t

/-- The file is read as a graph with the rows of the stream. -/
def ReadsRows (vertexCnt edgeCnt : Nat) (tokens : List Nat) : Prop :=
  ∃ vlist elist, readFromFile vertexCnt edgeCnt tokens = .ok (vlist, elist) ∧
    Csr.Valid vlist elist ∧ vlist.length = vertexCnt + 1 ∧
    vlist.getLast? = some (elist.length : Int) ∧
    ∀ i, i < vertexCnt → Csr.row vlist elist i = (tokenRows vertexCnt tokens).getD i []

section ReadsRows

variable {V E : Nat} {ts : List Nat}

/-- A number that is not an `int` is a terminator. -/
theorem readable_eq (hV : (V : Int) < intBound) (hle : (ts.countP fun t => decide (V ≤ t)) ≤ V)
    (h : ((readable ts).countP fun t => decide (V ≤ t)) = V) : readable ts = ts := by
  have hsplit : readable ts ++ ts.dropWhile (fun t : Nat => decide ((t : Int) < intBound)) = ts :=
    List.takeWhile_append_dropWhile
  cases hrest : ts.dropWhile fun t : Nat => decide ((t : Int) < intBound) with
  | nil => rwa [hrest, List.append_nil] at hsplit
  | cons t rest =>
    have hbig : ¬ (t : Int) < intBound := by
      have := List.head_dropWhile_not (fun t : Nat => decide ((t : Int) < intBound)) (l := ts)
        (by rw [hrest]; exact List.cons_ne_nil _ _)
      simpa [hrest] using this
    rw [← hsplit, hrest, List.countP_append, List.countP_cons_of_pos (by simp; omega)] at hle
    omega

/-- What is returned when the header can be read. -/
theorem readFromFile_ok (hV : (V : Int) < intBound) (hE : (E : Int) < intBound)
    {vlist elist : List Int} (h : readFromFile V E ts = .ok (vlist, elist)) :
    elist = (closeRows V (readable ts) ([], [])).1.flatten ++
        (closeRows V (readable ts) ([], [])).2 ∧
      vlist = Csr.offsets (closeRows V (readable ts) ([], [])).1 ++ List.replicate
        (V - ((closeRows V (readable ts) ([], [])).1.length + 1)) (elist.length : Int) ∧
      (elist.length : Int) < intBound := by
  unfold readFromFile at h
  rw [if_pos hV, if_pos ⟨hV, hE⟩] at h
  obtain ⟨r, hr, h⟩ := Run.bind_eq_ok.mp h
  obtain ⟨rfl, hsize⟩ := readTokens_ok (s := ([], [])) hr (by decide)
  cases h
  refine ⟨rfl, ?_, hsize⟩
  congr 2
  change ((V : Int) - (Csr.offsets _).length).toNat = _
  rw [Csr.length_offsets]
  omega

theorem terminated_of_readsRows (hcount : (ts.countP fun t => decide (V ≤ t)) ≤ V) (hV : V ≠ 0)
    (h : ReadsRows V E ts) : Terminated V E ts := by
  obtain ⟨vlist, elist, hrun, hvalid, hlen, hlast, -⟩ := h
  by_cases hhead : (V : Int) < intBound ∧ (E : Int) < intBound
  · obtain ⟨hVi, hEi⟩ := hhead
    obtain ⟨hel, hvl, hsize⟩ := readFromFile_ok hVi hEi hrun
    have hrows := length_closeRows (V := V) (readable ts) ([], [])
    have hle : ((readable ts).countP fun t => decide (V ≤ t)) ≤ ts.countP fun t => decide (V ≤ t) :=
      (List.takeWhile_sublist _).countP_le
    rw [hvl, List.length_append, Csr.length_offsets, List.length_replicate, hrows, List.length_nil]
      at hlen
    have hread := readable_eq hVi hcount (by omega)
    rw [hread] at hel hvl hrows hlen
    rw [hrows, List.length_nil, Nat.zero_add,
      show V - ((ts.countP fun t => decide (V ≤ t)) + 1) = 0 by omega, List.replicate_zero,
      List.append_nil] at hvl
    refine ⟨hVi, hEi, fun t ht => ?_, ?_, by omega, ?_⟩
    · rw [← hread] at ht
      exact of_decide_eq_true (List.all_eq_true.mp List.all_takeWhile t ht)
    · have hent := length_closeRows_entries (V := V) ts ([], [])
      rw [← hel] at hent
      simp at hent
      omega
    · -- the last offset is the number of entries
      rw [hvl, Csr.offsets_getLast?, Option.some_inj, hel, List.length_append] at hlast
      cases ts with
      | nil =>
        intro t ht
        cases ht
      | cons t ts =>
        apply (closeRows_snd_eq_nil t ts ([], [])).mp
        apply List.eq_nil_of_length_eq_zero
        omega
  · exfalso
    unfold readFromFile at hrun
    rw [if_neg hhead] at hrun
    cases hrun
    rw [List.length_append, List.length_replicate, List.length_singleton] at hlen
    split at hlen
    · omega
    · omega

theorem readsRows_of_terminated (h : Terminated V E ts) : ReadsRows V E ts := by
  have hread : readable ts = ts := by
    apply List.takeWhile_eq_self_iff.mpr
    intro t ht
    exact decide_eq_true (h.fits t ht)
  obtain ⟨r, hr⟩ := exists_readTokens (V := V) (s := ([], [])) h.fits (by
    have := h.entries
    change (0 : Int) + _ < _
    omega)
  have hrun : ∃ out, readFromFile V E ts = .ok out := by
    unfold readFromFile
    rw [if_pos h.vertex, if_pos ⟨h.vertex, h.edge⟩]
    exact ⟨_, by rw [show (⟨[0], [], 0⟩ : ReadState) = readState ([], []) from rfl, hr]; rfl⟩
  obtain ⟨⟨vlist, elist⟩, hrun⟩ := hrun
  obtain ⟨hel, hvl, -⟩ := readFromFile_ok h.vertex h.edge hrun
  rw [hread] at hel hvl
  have hrows := length_closeRows (V := V) ts ([], [])
  rw [h.rows, List.length_nil, Nat.zero_add] at hrows
  have hopen : (closeRows V ts ([], [])).2 = [] := by
    cases ts with
    | nil => rfl
    | cons t ts => exact (closeRows_snd_eq_nil t ts ([], [])).mpr h.last
  have hpieces := closeRows_eq (V := V) ts ([], [])
  have hid : (tokenRows V ts).modifyHead (([] : List Int) ++ ·) = tokenRows V ts := by
    cases tokenRows V ts <;> rfl
  rw [hid, List.nil_append] at hpieces
  rw [hopen, List.append_nil] at hel
  rw [hrows, show V - (V + 1) = 0 by omega, List.replicate_zero, List.append_nil] at hvl
  subst hel hvl
  refine ⟨_, _, hrun, Csr.valid_offsets, ?_, Csr.offsets_getLast?, fun i hi => ?_⟩
  · rw [Csr.length_offsets, hrows]
  · have hi' : i < (closeRows V ts ([], [])).1.length := by omega
    rw [Csr.row_offsets hi', ← hpieces, List.getD_eq_getElem?_getD, List.getElem?_append_left hi',
      List.getElem?_eq_getElem hi', Option.getD_some]

end ReadsRows

/-- `read_from_file` reads a graph exactly when the graph has no vertices, or every row is
terminated in the file and all numbers are `int`s. -/
theorem readsRows_iff (vertexCnt edgeCnt : Nat) (tokens : List Nat)
    (hcount : (tokens.countP fun t => decide (vertexCnt ≤ t)) ≤ vertexCnt) :
    ReadsRows vertexCnt edgeCnt tokens ↔ vertexCnt = 0 ∨ Terminated vertexCnt edgeCnt tokens := by
  rcases Nat.eq_zero_or_pos vertexCnt with rfl | hpos
  · -- every number is a terminator, so there is none
    have hnil : tokens = [] := by
      rw [List.countP_eq_length.mpr fun t _ => decide_eq_true (Nat.zero_le t)] at hcount
      exact List.eq_nil_of_length_eq_zero (by omega)
    subst hnil
    refine ⟨fun _ => Or.inl rfl, fun _ => ⟨[0], [], ?_, ?_, rfl, rfl, fun i hi => by omega⟩⟩
    · unfold readFromFile
      rw [if_pos (show ((0 : Nat) : Int) < intBound by decide)]
      split <;> rfl
    · exact ⟨rfl, List.pairwise_singleton _ _, by simp⟩
  · constructor
    · intro h
      exact Or.inr (terminated_of_readsRows hcount (by omega) h)
    · rintro (h0 | h)
      · omega
      · exact readsRows_of_terminated h

theorem readsRows_two : ([0, 1, 2, 2].countP fun t => decide (2 ≤ t)) ≤ 2 ∧
    ReadsRows 2 2 [0, 1, 2, 2] := by
  refine ⟨by decide, (readsRows_iff 2 2 [0, 1, 2, 2] (by decide)).mpr (Or.inr ?_)⟩
  exact ⟨by decide, by decide, by decide, by decide, by decide, by decide⟩

/-- The end of the stream does not close the last row: there is one offset too few. -/
theorem readFromFile_open_row : ([0, 1, 2, 0].countP fun t => decide (2 ≤ t)) ≤ 2 ∧
    readFromFile 2 3 [0, 1, 2, 0] = .ok ([0, 2], [0, 1, 0]) ∧ ¬ ReadsRows 2 3 [0, 1, 2, 0] := by
  have hrun : readFromFile 2 3 [0, 1, 2, 0] = .ok ([0, 2], [0, 1, 0]) := by decide +kernel
  refine ⟨by decide, hrun, ?_⟩
  rintro ⟨vlist, elist, h, -, hlen, -⟩
  rw [hrun] at h
  cases h
  cases hlen

end Laconic.Graph

import Mathlib.Data.Int.Interval
import Laconic.Lib.Probing
import Laconic.RePair.Hash

/-!
# Re-Pair: the hash table finds every record

`HashInv H recs live`: the records `live` are exactly the ones in the table, each at its `kpos` and
reachable by a probe that meets no empty cell before it.  Searching, inserting (with or without a
resize), deleting and relocating keep it; the only fault any of them can raise is a probe without
an end.
-/

namespace Laconic.RePair

open Probing

/-- The faults that the results on Re-Pair leave open: a probe that meets no empty cell. -/
def ProbeOnly (e : Fault) : Prop := e = .probe

@[simp] theorem probeOnly_probe : ProbeOnly .probe := rfl

@[simp] theorem not_probeOnly_bounds : ¬ ProbeOnly .bounds := by simp [ProbeOnly]

@[simp] theorem not_probeOnly_overflow : ¬ ProbeOnly .overflow := by simp [ProbeOnly]

@[simp] theorem not_probeOnly_fuel : ¬ ProbeOnly .fuel := by simp [ProbeOnly]

structure HashInv (H : Thash) (recs : Block Trecord) (live : Int → Prop) : Prop where
  maxpos_nonneg : 0 ≤ H.maxpos
  size_eq : H.table.size = H.maxpos + 1
  fits : H.maxpos + 1 < intBound
  inB : ∀ id, live id → recs.InB id
  kpos_inB : ∀ id, live id → H.table.InB (recs.cells id).kpos
  cell : ∀ id, live id → H.table.cells (recs.cells id).kpos = id
  walk : ∀ id, live id → ∃ d : Nat,
    Walk H.step (fun k => H.table.cells k ≠ -1) d
      (hashPair H.maxpos (recs.cells id).pair) (recs.cells id).kpos
  owner : ∀ k, H.table.InB k → 0 ≤ H.table.cells k →
    live (H.table.cells k) ∧ (recs.cells (H.table.cells k)).kpos = k
  inj : ∀ id id', live id → live id' → (recs.cells id).pair = (recs.cells id').pair → id = id'

namespace HashInv

variable {H : Thash} {recs recs' : Block Trecord} {live live' : Int → Prop}

theorem step_inB (h : HashInv H recs live) (k : Int) : H.table.InB (H.step k) := by
  have h₁ := land_nonneg (k + 1) H.maxpos
  have h₂ := land_le_right (k + 1) H.maxpos h.maxpos_nonneg
  have h₃ := h.size_eq
  exact ⟨h₁, by unfold Thash.step; omega⟩

theorem start_inB (h : HashInv H recs live) (p : Tpair) : H.table.InB (hashPair H.maxpos p) := by
  have h₁ := hashPair_nonneg H.maxpos p
  have h₂ := hashPair_le H.maxpos p h.maxpos_nonneg
  have h₃ := h.size_eq
  exact ⟨h₁, by omega⟩

/-- The invariant reads `pair` and `kpos` of live records only. -/
theorem congr (h : HashInv H recs live) (hin : ∀ id, live id → recs'.InB id)
    (hpair : ∀ id, live id → (recs'.cells id).pair = (recs.cells id).pair)
    (hkpos : ∀ id, live id → (recs'.cells id).kpos = (recs.cells id).kpos) :
    HashInv H recs' live where
  maxpos_nonneg := h.maxpos_nonneg
  size_eq := h.size_eq
  fits := h.fits
  inB := hin
  kpos_inB id hid := by rw [hkpos id hid]; exact h.kpos_inB id hid
  cell id hid := by rw [hkpos id hid]; exact h.cell id hid
  walk id hid := by rw [hkpos id hid, hpair id hid]; exact h.walk id hid
  owner k hk hc := by
    have := h.owner k hk hc
    exact ⟨this.1, by rw [hkpos _ this.1]; exact this.2⟩
  inj id id' hid hid' he := h.inj id id' hid hid' (by rw [← hpair id hid, ← hpair id' hid', he])

/-- The set of live records may be rephrased. -/
theorem live_congr (h : HashInv H recs live) (hl : ∀ id, live' id ↔ live id) :
    HashInv H recs live' := by
  have : live' = live := funext fun id => propext (hl id)
  rwa [this]

theorem kpos_ne (h : HashInv H recs live) {i j : Int} (hi : live i) (hj : live j) (hne : i ≠ j) :
    (recs.cells i).kpos ≠ (recs.cells j).kpos := by
  intro he
  have h₁ := h.cell i hi
  have h₂ := h.cell j hj
  rw [he] at h₁
  exact hne (h₁.symm.trans h₂)

/-- No cell becomes empty when another value is written. -/
theorem upd_ne_empty {tab : Block Int} {j k v : Int} (hv : v ≠ -1) (hj : tab.cells j ≠ -1) :
    (tab.upd k fun _ => v).cells j ≠ -1 := by
  rw [Block.cells_upd]
  split
  · exact hv
  · exact hj

/-- `used` is a counter that nothing else depends on. -/
theorem with_used (h : HashInv H recs live) (used : Int) :
    HashInv { H with used := used } recs live :=
  ⟨h.maxpos_nonneg, h.size_eq, h.fits, h.inB, h.kpos_inB, h.cell, h.walk, h.owner, h.inj⟩

/-- Ids are far from the smallest `int`: there is one cell for each live record. -/
theorem id_lt (h : HashInv H recs live) (hall : ∀ id, recs.InB id → live id) {id : Int}
    (hid : recs.InB id) : id + 1 < intBound := by
  -- the records `0..id` own pairwise different cells among `0..maxpos`
  by_contra hcon
  have hcard : (Finset.Icc (0 : Int) id).card ≤ (Finset.Icc (0 : Int) H.maxpos).card := by
    apply Finset.card_le_card_of_injOn (fun j => (recs.cells j).kpos)
    · intro j hj
      have hj' := Finset.mem_Icc.mp (Finset.mem_coe.mp hj)
      have hlj := hall j ⟨hj'.1, by have := hid.2; omega⟩
      have hk := h.kpos_inB j hlj
      have hs := h.size_eq
      exact Finset.mem_coe.mpr (Finset.mem_Icc.mpr ⟨hk.1, by have := hk.2; dsimp only; omega⟩)
    · intro i hi j hj hij
      have hi' := Finset.mem_Icc.mp (Finset.mem_coe.mp hi)
      have hj' := Finset.mem_Icc.mp (Finset.mem_coe.mp hj)
      have hli := hall i ⟨hi'.1, by have := hid.2; omega⟩
      have hlj := hall j ⟨hj'.1, by have := hid.2; omega⟩
      have hci := h.cell i hli
      have hcj := h.cell j hlj
      simp only at hij
      rw [hij] at hci
      omega
  rw [Int.card_Icc, Int.card_Icc] at hcard
  have hf := h.fits
  have hm := h.maxpos_nonneg
  have h0 := hid.1
  omega

/-! ## Search -/

private theorem searchFrom_present (h : HashInv H recs live) {p : Tpair} {id : Int}
    (hid : live id) (hp : (recs.cells id).pair = p) :
    ∀ (n d : Nat) (k : Int), d < n → H.table.InB k →
      Walk H.step (fun k => H.table.cells k ≠ -1) d k (recs.cells id).kpos →
      searchFrom H recs p n k = .ok id := by
  intro n
  induction n with
  | zero => intro d k hd; omega
  | succ n ih =>
    intro d k hd hk hw
    have h0 := (h.inB id hid).1
    have hfound : H.table.cells k = id → searchFrom H recs p (n + 1) k = .ok id := fun hc => by
      rw [searchFrom, Block.read_eq hk, Run.ok_bind, hc, if_neg (by omega), if_pos h0,
        Block.read_eq (h.inB id hid), Run.ok_bind, hp, Run.pure_bind, if_pos (by simp)]
      rfl
    cases d with
    | zero =>
      have hkk : k = (recs.cells id).kpos := hw
      exact hfound (by rw [hkk]; exact h.cell id hid)
    | succ d =>
      obtain ⟨hne, hw⟩ := hw
      have hrec := ih d (H.step k) (by omega) (h.step_inB k) hw
      by_cases hc : 0 ≤ H.table.cells k
      · obtain ⟨hlive, -⟩ := h.owner k hk hc
        by_cases he : (recs.cells (H.table.cells k)).pair = p
        · exact hfound (h.inj _ _ hlive hid (he.trans hp.symm))
        · rw [searchFrom, Block.read_eq hk, Run.ok_bind, if_neg hne, if_pos hc,
            Block.read_eq (h.inB _ hlive), Run.ok_bind]
          simp [he, hrec]
      · rw [searchFrom, Block.read_eq hk, Run.ok_bind, if_neg hne, if_neg hc]
        simp [hrec]

private theorem searchFrom_absent (h : HashInv H recs live) {p : Tpair}
    (hp : ∀ id, live id → (recs.cells id).pair ≠ p) :
    ∀ (n : Nat) (k : Int), H.table.InB k →
      Run.Meets ProbeOnly (searchFrom H recs p n k) (fun t => t = -1) := by
  intro n
  induction n with
  | zero => intro k _; simp [searchFrom]
  | succ n ih =>
    intro k hk
    have hrec := ih (H.step k) (h.step_inB k)
    rw [searchFrom, Block.read_eq hk]
    by_cases hne : H.table.cells k = -1
    · simp [hne]
    · by_cases h0 : 0 ≤ H.table.cells k
      · have hl := (h.owner k hk h0).1
        simp [hne, h0, h.inB _ hl, hp _ hl, hrec]
      · simp [hne, h0, hrec]

/-- A pair with a record is found. -/
theorem searchHash_eq (h : HashInv H recs live) {id : Int} (hid : live id) :
    searchHash H recs (recs.cells id).pair = .ok id := by
  obtain ⟨d, hw⟩ := h.walk id hid
  have hmem : ∀ k, H.table.InB k → k ∈ Finset.Icc 0 H.maxpos := fun k hk => by
    have h₁ := hk.1
    have h₂ := hk.2
    rw [h.size_eq] at h₂
    exact Finset.mem_Icc.mpr ⟨h₁, by omega⟩
  obtain ⟨d', hd', hw'⟩ := hw.exists_short (hmem _ (h.start_inB _))
    fun j _ => hmem _ (h.step_inB j)
  rw [Int.card_Icc] at hd'
  exact searchFrom_present h hid rfl _ d' _ (by omega) (h.start_inB _) hw'

/-- `searchHash` returns the record of the pair, or `-1` when there is none. -/
theorem searchHash_meets (h : HashInv H recs live) (p : Tpair) :
    Run.Meets ProbeOnly (searchHash H recs p) (fun t =>
      (live t ∧ (recs.cells t).pair = p) ∨
        (t = -1 ∧ ∀ id, live id → (recs.cells id).pair ≠ p)) := by
  by_cases hex : ∃ id, live id ∧ (recs.cells id).pair = p
  · obtain ⟨id, hid, rfl⟩ := hex
    rw [h.searchHash_eq hid]
    exact Or.inl ⟨hid, rfl⟩
  · have habs : ∀ id, live id → (recs.cells id).pair ≠ p := fun id hid he => hex ⟨id, hid, he⟩
    refine (searchFrom_absent h habs _ _ (h.start_inB p)).mono fun t ht => ?_
    exact Or.inr ⟨ht, habs⟩

/-! ## Insert -/

private theorem finsertFrom_meets (h : HashInv H recs live) :
    ∀ (n : Nat) (k : Int), H.table.InB k →
      Run.Meets ProbeOnly (finsertFrom H n k) (fun k' => H.table.InB k' ∧ H.table.cells k' < 0 ∧
        ∃ d : Nat, Walk H.step (fun k => 0 ≤ H.table.cells k) d k k') := by
  intro n
  induction n with
  | zero => intro k _; simp [finsertFrom]
  | succ n ih =>
    intro k hk
    rw [finsertFrom, Block.read_eq hk]
    by_cases h0 : 0 ≤ H.table.cells k
    · have hrec := ih (H.step k) (h.step_inB k)
      simp only [bind, Except.bind, h0, if_true]
      refine hrec.mono fun k' hk' => ?_
      obtain ⟨hin, hneg, d, hw⟩ := hk'
      exact ⟨hin, hneg, d + 1, h0, hw⟩
    · simp only [bind, Except.bind, h0, if_false, Run.meets_pure]
      exact ⟨hk, by omega, 0, rfl⟩

theorem finsertHash_meets (h : HashInv H recs live) (p : Tpair) :
    Run.Meets ProbeOnly (finsertHash H p) (fun k' => H.table.InB k' ∧ H.table.cells k' < 0 ∧
      ∃ d : Nat, Walk H.step (fun k => 0 ≤ H.table.cells k) d (hashPair H.maxpos p) k') :=
  finsertFrom_meets h _ _ (h.start_inB p)

/-- Writing a new record to the free cell that `finsertHash` found. -/
theorem insert (h : HashInv H recs live) {id k : Int} (hid : recs.InB id) (hnew : ¬ live id)
    (hfresh : ∀ j, live j → (recs.cells j).pair ≠ (recs.cells id).pair)
    (hk : H.table.InB k) (hneg : H.table.cells k < 0)
    (hw : ∃ d : Nat, Walk H.step (fun k => 0 ≤ H.table.cells k) d
      (hashPair H.maxpos (recs.cells id).pair) k) :
    HashInv { H with table := H.table.upd k fun _ => id }
      (recs.upd id fun r => { r with kpos := k }) (fun j => live j ∨ j = id) := by
  have hpair : ∀ j, ((recs.upd id fun r => { r with kpos := k }).cells j).pair =
      (recs.cells j).pair := by
    intro j
    rw [Block.cells_upd]
    split
    · next hj => rw [hj]
    · rfl
  have hkpos : ∀ j, live j →
      ((recs.upd id fun r => { r with kpos := k }).cells j).kpos = (recs.cells j).kpos := by
    intro j hj
    rw [Block.cells_upd_ne]
    rintro rfl
    exact hnew hj
  have hkne : ∀ j, live j → (recs.cells j).kpos ≠ k := by
    intro j hj he
    have hc := h.cell j hj
    have h0 := (h.inB j hj).1
    rw [he] at hc
    omega
  have hid0 := hid.1
  refine
    { maxpos_nonneg := h.maxpos_nonneg
      size_eq := h.size_eq
      fits := h.fits
      inB := ?_
      kpos_inB := ?_
      cell := ?_
      walk := ?_
      owner := ?_
      inj := ?_ }
  · rintro j (hj | rfl)
    · exact h.inB j hj
    · exact hid
  · rintro j (hj | rfl)
    · rw [hkpos j hj]
      exact h.kpos_inB j hj
    · simpa using hk
  · rintro j (hj | rfl)
    · rw [hkpos j hj]
      dsimp only
      rw [Block.cells_upd_ne _ _ (hkne j hj)]
      exact h.cell j hj
    · simp
  · rintro j (hj | rfl)
    · obtain ⟨d, hwj⟩ := h.walk j hj
      refine ⟨d, ?_⟩
      rw [hkpos j hj, hpair]
      exact hwj.mono fun i => upd_ne_empty (by omega)
    · obtain ⟨d, hwk⟩ := hw
      refine ⟨d, ?_⟩
      rw [hpair, Block.cells_upd_self]
      exact hwk.mono fun i hi => upd_ne_empty (by omega) (by omega)
  · intro j hj hc
    dsimp only at hc ⊢
    by_cases hjk : j = k
    · subst hjk
      simp
    · rw [Block.cells_upd_ne _ _ hjk] at hc ⊢
      have ho := h.owner j hj hc
      exact ⟨Or.inl ho.1, by rw [hkpos _ ho.1]; exact ho.2⟩
  · rintro i j (hi | rfl) (hj | rfl) he
    · rw [hpair, hpair] at he
      exact h.inj i j hi hj he
    · rw [hpair, hpair] at he
      exact absurd he (hfresh i hi)
    · rw [hpair, hpair] at he
      exact absurd he.symm (hfresh j hj)
    · rfl

/-! ## Resize -/

theorem clearLow_meets {m : Int} (hm : 0 < m) :
    Run.Meets ProbeOnly (clearLow m) (fun r => 0 < r) := by
  refine Run.meets_whileLoop _ _ (fun r => 0 < r) _ (fun r => r.toNat) ?_ _ _
    (by simp) hm
  intro s hs
  simp only [Run.meets_pure, decide_eq_true_eq, decide_eq_false_iff_not, ne_eq, not_not]
  refine ⟨fun hne => ?_, fun _ => hs⟩
  have h₁ := land_nonneg s (s - 1)
  have h₂ := land_le_right s (s - 1) (by omega)
  omega

/-- `createHash` yields an empty table. -/
theorem createHash_meets {m : Int} (hm : 0 < m) (recs : Block Trecord) :
    Run.Meets ProbeOnly (createHash m) (fun H => HashInv H recs (fun _ => False)) := by
  rw [createHash, Run.meets_bind]
  refine (clearLow_meets hm).mono fun r hr => ?_
  simp only [Run.meets_ite, Run.meets_throw, probeOnly_probe, implies_true, true_and,
    Run.meets_pure]
  intro hfit
  refine
    { maxpos_nonneg := by dsimp only; omega
      size_eq := by simp only [Block.size_alloc]; omega
      fits := by dsimp only; omega
      inB := fun _ h => h.elim
      kpos_inB := fun _ h => h.elim
      cell := fun _ h => h.elim
      walk := fun _ h => h.elim
      owner := fun k _ hc => ?_
      inj := fun _ _ h => h.elim }
  simp at hc

/-- Records that differ in `kpos` only. -/
def SameButKpos (recs recs' : Block Trecord) : Prop :=
  recs'.size = recs.size ∧
    ∀ j, recs'.cells j = { recs.cells j with kpos := (recs'.cells j).kpos }

theorem SameButKpos.refl (recs : Block Trecord) : SameButKpos recs recs := ⟨rfl, fun _ => rfl⟩

theorem SameButKpos.upd (h : SameButKpos recs recs') (id k : Int) :
    SameButKpos recs (recs'.upd id fun r => { r with kpos := k }) := by
  refine ⟨h.1, fun j => ?_⟩
  rw [Block.cells_upd]
  split
  · next hj =>
    subst hj
    rw [h.2 j]
  · exact h.2 j

theorem SameButKpos.trans {recs'' : Block Trecord} (h : SameButKpos recs recs')
    (h' : SameButKpos recs' recs'') : SameButKpos recs recs'' := by
  refine ⟨h'.1.trans h.1, fun j => ?_⟩
  rw [h'.2 j, h.2 j]

theorem SameButKpos.pair_eq (h : SameButKpos recs recs') (j : Int) :
    (recs'.cells j).pair = (recs.cells j).pair := by rw [h.2 j]

/-- The resize has moved the cells below `i`: the new table holds the records whose old cell is
below `i`. -/
structure MovedBelow (recs : Block Trecord) (live : Int → Prop) (i : Int)
    (s : Thash × Block Trecord) : Prop where
  nonneg : 0 ≤ i
  held : HashInv s.1 s.2 fun t => live t ∧ (recs.cells t).kpos < i
  same : SameButKpos recs s.2

/-- Cell `i` of the old table holds the only record whose cell is `i`. -/
theorem below_succ_iff (h : HashInv H recs live) {i : Int} (hin : H.table.InB i)
    (h0 : 0 ≤ H.table.cells i) (t : Int) :
    live t ∧ (recs.cells t).kpos < i + 1 ↔
      (live t ∧ (recs.cells t).kpos < i) ∨ t = H.table.cells i := by
  obtain ⟨hlive, hkpos⟩ := h.owner i hin h0
  constructor
  · rintro ⟨ht, hlt⟩
    by_cases htk : (recs.cells t).kpos < i
    · exact Or.inl ⟨ht, htk⟩
    · right
      have hti : (recs.cells t).kpos = i := by omega
      rw [← hti]
      exact (h.cell t ht).symm
  · rintro (⟨ht, hlt⟩ | rfl)
    · exact ⟨ht, by omega⟩
    · exact ⟨hlive, by omega⟩

/-- A free cell belongs to no record. -/
theorem below_succ_iff_of_neg (h : HashInv H recs live) {i : Int} (h0 : ¬ 0 ≤ H.table.cells i)
    (t : Int) :
    live t ∧ (recs.cells t).kpos < i + 1 ↔ live t ∧ (recs.cells t).kpos < i := by
  constructor
  · rintro ⟨ht, hlt⟩
    have hne : (recs.cells t).kpos ≠ i := by
      intro hti
      have hc := h.cell t ht
      rw [hti] at hc
      exact h0 (hc ▸ (h.inB t ht).1)
    exact ⟨ht, by omega⟩
  · rintro ⟨ht, hlt⟩
    exact ⟨ht, by omega⟩

theorem rehashCell_meets (h : HashInv H recs live) {i : Int} (hi : i < H.maxpos + 1)
    {s : Thash × Block Trecord} (hs : MovedBelow recs live i s) :
    Run.Meets ProbeOnly (rehashCell H.table i s) (MovedBelow recs live (i + 1)) := by
  have hi0 := hs.nonneg
  have hin : H.table.InB i := ⟨hi0, by rw [h.size_eq]; exact hi⟩
  rw [rehashCell, Block.read_eq hin, Run.ok_bind]
  by_cases h0 : 0 ≤ H.table.cells i
  · obtain ⟨hlive, hkpos⟩ := h.owner i hin h0
    have hrec : s.2.InB (H.table.cells i) := by
      have := h.inB _ hlive
      exact ⟨this.1, by rw [hs.same.1]; exact this.2⟩
    rw [if_pos h0, Block.read_eq hrec, Run.ok_bind, Run.meets_bind]
    apply (hs.held.finsertHash_meets (s.2.cells (H.table.cells i)).pair).mono
    rintro k ⟨hk, hneg, hw⟩
    rw [Block.write_eq hk, Run.ok_bind, Block.modify_eq hrec, Run.ok_bind, Run.meets_pure]
    have hfresh : ∀ j, live j ∧ (recs.cells j).kpos < i →
        (s.2.cells j).pair ≠ (s.2.cells (H.table.cells i)).pair := by
      rintro j ⟨hj, hjlt⟩ he
      rw [hs.same.pair_eq, hs.same.pair_eq] at he
      rw [h.inj _ _ hj hlive he] at hjlt
      omega
    have hins := hs.held.insert hrec (fun hc => by omega) hfresh hk hneg hw
    exact ⟨by omega, hins.live_congr (h.below_succ_iff hin h0), hs.same.upd _ _⟩
  · rw [if_neg h0, Run.meets_pure]
    exact ⟨by omega, hs.held.live_congr (h.below_succ_iff_of_neg h0), hs.same⟩

/-- The resized table holds the same records. -/
theorem growHash_meets (h : HashInv H recs live) :
    Run.Meets ProbeOnly (growHash H recs) (fun s =>
      HashInv s.1 s.2 live ∧ SameButKpos recs s.2) := by
  have hm := h.maxpos_nonneg
  rw [growHash, Run.meets_bind]
  refine (createHash_meets (by omega) recs).mono fun newH hnew => ?_
  simp only [Run.meets_bind, Run.meets_pure]
  have hstart : MovedBelow recs live 0 (newH, recs) := by
    refine ⟨le_rfl, hnew.live_congr fun t => ?_, SameButKpos.refl recs⟩
    refine ⟨fun ht => ?_, False.elim⟩
    have hlt := ht.2
    have := (h.kpos_inB t ht.1).1
    omega
  have hrun := Run.meets_forLoop (MovedBelow recs live) (H.maxpos + 1)
    (fun i s hi hs => h.rehashCell_meets hi hs) (H.maxpos + 1).toNat 0 (newH, recs) (by omega)
    hstart
  refine hrun.mono fun s hs => ⟨?_, hs.same⟩
  refine (hs.held.with_used H.used).live_congr fun t => ⟨fun ht => ⟨ht, ?_⟩, fun ht => ht.1⟩
  have := (h.kpos_inB t ht).2
  have := h.size_eq
  omega

/-- `insertHash` adds record `id`, whose pair is not in the table yet. -/
theorem insertHash_meets (h : HashInv H recs live) {id : Int} (hid : recs.InB id)
    (hnew : ¬ live id) (hfresh : ∀ j, live j → (recs.cells j).pair ≠ (recs.cells id).pair) :
    Run.Meets ProbeOnly (insertHash H recs id) (fun s =>
      HashInv s.1 s.2 (fun j => live j ∨ j = id) ∧ SameButKpos recs s.2) := by
  have hgrow : Run.Meets ProbeOnly
      (if gtFactor H.used H.maxpos then growHash H recs else pure (H, recs))
      (fun s => HashInv s.1 s.2 live ∧ SameButKpos recs s.2) := by
    rw [Run.meets_ite]
    exact ⟨fun _ => growHash_meets h, fun _ => ⟨h, SameButKpos.refl recs⟩⟩
  rw [insertHash, Run.meets_bind]
  refine hgrow.mono fun s ⟨hs, hsame⟩ => ?_
  have hrec : s.2.InB id := ⟨hid.1, by rw [hsame.1]; exact hid.2⟩
  rw [Block.read_eq hrec, Run.ok_bind, Run.meets_bind]
  apply (hs.finsertHash_meets (s.2.cells id).pair).mono
  rintro k ⟨hk, hneg, hw⟩
  rw [Block.write_eq hk, Run.ok_bind, Block.modify_eq hrec, Run.ok_bind, Run.meets_pure]
  have hins := hs.insert hrec hnew (fun j hj => by
    rw [hsame.pair_eq, hsame.pair_eq]
    exact hfresh j hj) hk hneg hw
  exact ⟨hins.with_used _, hsame.upd _ _⟩

/-! ## Delete and relocate -/

/-- The cell of a live record becomes a deletion mark. -/
theorem delete (h : HashInv H recs live) {id : Int} (used : Int) (hid : live id) :
    HashInv { H with table := H.table.upd (recs.cells id).kpos fun _ => -2, used := used } recs
      (fun j => live j ∧ j ≠ id) := by
  refine
    { maxpos_nonneg := h.maxpos_nonneg
      size_eq := h.size_eq
      fits := h.fits
      inB := fun j hj => h.inB j hj.1
      kpos_inB := fun j hj => h.kpos_inB j hj.1
      cell := ?_
      walk := ?_
      owner := ?_
      inj := fun i j hi hj => h.inj i j hi.1 hj.1 }
  · rintro j ⟨hj, hji⟩
    dsimp only
    rw [Block.cells_upd_ne _ _ (h.kpos_ne hj hid hji)]
    exact h.cell j hj
  · rintro j ⟨hj, hji⟩
    obtain ⟨d, hw⟩ := h.walk j hj
    exact ⟨d, hw.mono fun k => upd_ne_empty (by decide)⟩
  · intro k hk hc
    dsimp only at hc ⊢
    by_cases hk' : k = (recs.cells id).kpos
    · subst hk'
      simp at hc
    · rw [Block.cells_upd_ne _ _ hk'] at hc ⊢
      have ho := h.owner k hk hc
      refine ⟨⟨ho.1, fun he => hk' ?_⟩, ho.2⟩
      rw [← ho.2, he]

/-- The record `last` is copied to the free index `id` and its cell is redirected. -/
theorem relocate (h : HashInv H recs live) (id last : Int) (hid : recs.InB id)
    (hfree : ¬ live id) (hlast : live last) :
    HashInv { H with table := H.table.upd (recs.cells last).kpos fun _ => id }
      (recs.upd id fun _ => recs.cells last) (fun j => (live j ∧ j ≠ last) ∨ j = id) := by
  have hsame : ∀ j, live j → (recs.upd id fun _ => recs.cells last).cells j = recs.cells j := by
    intro j hj
    rw [Block.cells_upd_ne]
    rintro rfl
    exact hfree hj
  have hid0 := hid.1
  refine
    { maxpos_nonneg := h.maxpos_nonneg
      size_eq := h.size_eq
      fits := h.fits
      inB := ?_
      kpos_inB := ?_
      cell := ?_
      walk := ?_
      owner := ?_
      inj := ?_ }
  · rintro j (⟨hj, -⟩ | rfl)
    · exact h.inB j hj
    · exact hid
  · rintro j (⟨hj, -⟩ | rfl)
    · rw [hsame j hj]
      exact h.kpos_inB j hj
    · rw [Block.cells_upd_self]
      exact h.kpos_inB last hlast
  · rintro j (⟨hj, hjl⟩ | rfl)
    · rw [hsame j hj]
      dsimp only
      rw [Block.cells_upd_ne _ _ (h.kpos_ne hj hlast hjl)]
      exact h.cell j hj
    · simp
  · rintro j (⟨hj, -⟩ | rfl)
    · obtain ⟨d, hw⟩ := h.walk j hj
      refine ⟨d, ?_⟩
      rw [hsame j hj]
      exact hw.mono fun k => upd_ne_empty (by omega)
    · obtain ⟨d, hw⟩ := h.walk last hlast
      refine ⟨d, ?_⟩
      rw [Block.cells_upd_self]
      exact hw.mono fun k => upd_ne_empty (by omega)
  · intro k hk hc
    dsimp only at hc ⊢
    by_cases hk' : k = (recs.cells last).kpos
    · subst hk'
      simp
    · rw [Block.cells_upd_ne _ _ hk'] at hc ⊢
      have ho := h.owner k hk hc
      refine ⟨Or.inl ⟨ho.1, fun he => hk' ?_⟩, ?_⟩
      · rw [← ho.2, he]
      · rw [hsame _ ho.1]
        exact ho.2
  · rintro i j (⟨hi, hil⟩ | rfl) (⟨hj, hjl⟩ | rfl) he
    · rw [hsame i hi, hsame j hj] at he
      exact h.inj i j hi hj he
    · rw [hsame i hi, Block.cells_upd_self] at he
      exact absurd (h.inj i last hi hlast he) hil
    · rw [hsame j hj, Block.cells_upd_self] at he
      exact absurd (h.inj last j hlast hj he).symm hjl
    · rfl

end HashInv

end Laconic.RePair

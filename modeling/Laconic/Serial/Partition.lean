import Mathlib.Algebra.BigOperators.Group.List.Basic
import Laconic.Lib.TrueDiv
import Laconic.RePair.CompressCsr

/-!
# The serial pipeline: parts

`Laconic_serial` cuts the vertices of a graph into `part_num` ranges and compresses each range on
its own.  The length of a range is rounded up for all parts, and only its end is clamped to the
number of vertices, so with many parts the last ones can start behind the last vertex.

A file is the list of the values behind its header.
-/

namespace Laconic.Serial

open RePair (Compressed compressCsr)

/-- `int(vertex_cnt / part_num) + 1`. -/
def tile (vertexCnt partNum : Nat) : Nat := TrueDiv.truncDiv vertexCnt partNum + 1

def partStart (vertexCnt partNum i : Nat) : Nat := i * tile vertexCnt partNum

def partEnd (vertexCnt partNum i : Nat) : Nat :=
  if vertexCnt < (i + 1) * tile vertexCnt partNum then vertexCnt
  else (i + 1) * tile vertexCnt partNum

/-- `read_nth_int64_element`: the file is read up to element `n`, and `elements[n]` is out of range
when it is shorter. -/
def readNth (file : List Int) (n : Nat) : Run Int := (Block.ofList file).read n

/-- `read_range_from_npy`: `np.fromfile` stops at the end of the file, and reads all that is left
for a negative count.  In front of the values there is the header. -/
def readRange (file : List Int) (startIndex endIndex : Int) : Run (List Int) :=
  if startIndex < 0 then throw .bounds
  else
    let count := endIndex - startIndex + 1
    let rest := file.drop startIndex.toNat
    pure (if count < 0 then rest else rest.take count.toNat)

/-- One round of the loop over the parts. -/
def compressPart (vfile efile : List Int) (vertexCnt partNum i : Nat) : Run Compressed := do
  let vStart ← readNth vfile (partStart vertexCnt partNum i)
  let vEnd ← readNth vfile (partEnd vertexCnt partNum i)
  -- both ranges include their last index: behind the edges of the part stands one more, if any
  let partVlist ← readRange vfile (partStart vertexCnt partNum i) (partEnd vertexCnt partNum i)
  let partElist ← readRange efile vStart vEnd
  -- the number of all vertices is `max_symbol` in every part
  compressCsr (partVlist.map (· - vStart)) partElist vertexCnt

/-- The four lists that `Laconic_serial` returns, part by part. -/
def laconicSerial (vfile efile : List Int) (partNum : Nat) : Run (List Compressed) :=
  (List.range partNum).mapM (compressPart vfile efile (vfile.length - 1) partNum)

/-- The ranges of the parts cut the vertices, the offsets at their ends can be read, and the parts
have all vertices together. -/
structure Partition (vertexCnt partNum : Nat) : Prop where
  ordered : ∀ i, i < partNum → partStart vertexCnt partNum i ≤ partEnd vertexCnt partNum i ∧
    partEnd vertexCnt partNum i ≤ vertexCnt
  consecutive : ∀ i, i + 1 < partNum →
    partEnd vertexCnt partNum i = partStart vertexCnt partNum (i + 1)
  cover : ∀ v, v < vertexCnt ↔ ∃ i, i < partNum ∧
    partStart vertexCnt partNum i ≤ v ∧ v < partEnd vertexCnt partNum i
  disjoint : ∀ i j v, i < partNum → j < partNum →
    partStart vertexCnt partNum i ≤ v → v < partEnd vertexCnt partNum i →
    partStart vertexCnt partNum j ≤ v → v < partEnd vertexCnt partNum j → i = j
  reads : ∀ vfile : List Int, vfile.length = vertexCnt + 1 → ∀ i, i < partNum →
    (∃ x, readNth vfile (partStart vertexCnt partNum i) = .ok x) ∧
      ∃ x, readNth vfile (partEnd vertexCnt partNum i) = .ok x
  counts : ∀ (vfile efile : List Int) (cs : List Compressed), vfile.length = vertexCnt + 1 →
    laconicSerial vfile efile partNum = .ok cs → (cs.map (·.vertexCnt)).sum = vertexCnt

section Files

variable {file : List Int} {n a b : Nat}

theorem readNth_eq (h : n < file.length) : readNth file n = .ok (file.getD n 0) :=
  Block.read_eq (b := Block.ofList file) ⟨by omega, show (n : Int) < file.length by omega⟩

theorem readRange_eq (h : a ≤ b) :
    readRange file a b = .ok ((file.drop a).take (b - a + 1)) := by
  unfold readRange
  rw [if_neg (by omega)]
  dsimp only
  rw [if_neg (by omega), Int.toNat_natCast, show ((b : Int) - a + 1).toNat = b - a + 1 by omega]
  rfl

end Files

/-- The vertex count of the result is that of the input. -/
theorem compressCsr_vertexCnt {vlist elist : List Int} {maxSymbol : Int} {out : Compressed}
    (h : compressCsr vlist elist maxSymbol = .ok out) : out.vertexCnt = (vlist.length : Int) - 1 := by
  unfold compressCsr at h
  simp only [Run.bind_eq_ok] at h
  obtain ⟨_, -, _, -, _, -, _, -, _, -, _, -, h⟩ := h
  cases h
  rfl

section Ranges

variable {V p i : Nat}

theorem tile_pos : 0 < tile V p := Nat.succ_pos _

/-- All parts start within the offsets, and the last one reaches the last vertex. -/
structure Fits (V p : Nat) : Prop where
  start : (p - 1) * tile V p ≤ V
  stop : V ≤ p * tile V p

theorem Fits.start_le (h : Fits V p) (hi : i < p) : partStart V p i ≤ V :=
  Nat.le_trans (Nat.mul_le_mul_right _ (by omega)) h.start

theorem Fits.end_of_succ (h : Fits V p) (hi : i + 1 < p) :
    partEnd V p i = partStart V p (i + 1) := by
  have hle := h.start_le hi
  unfold partStart at hle
  unfold partEnd
  rw [if_neg (by omega), partStart]

theorem Fits.end_last (h : Fits V p) (hi : i + 1 = p) : partEnd V p i = V := by
  have hle := h.stop
  unfold partEnd
  rw [hi]
  split <;> omega

theorem partEnd_le : partEnd V p i ≤ V := by
  unfold partEnd
  split <;> omega

theorem partEnd_le_tile : partEnd V p i ≤ (i + 1) * tile V p := by
  unfold partEnd
  split <;> omega

theorem start_le_end (h : partStart V p i ≤ V) : partStart V p i ≤ partEnd V p i := by
  unfold partStart at h ⊢
  unfold partEnd
  rw [Nat.add_mul]
  split <;> omega

/-- Where the parts up to `i` end, their vertices end. -/
theorem Fits.sum_lengths (h : Fits V p) : ∀ n, n < p →
    ((List.range (n + 1)).map fun i => (partEnd V p i : Int) - partStart V p i).sum =
      partEnd V p n := by
  intro n
  induction n with
  | zero =>
    intro _
    simp [partStart]
  | succ n ih =>
    intro hn
    rw [List.range_succ, List.map_append, List.sum_append, ih (by omega), List.map_singleton,
      List.sum_singleton, h.end_of_succ hn]
    omega

/-- A vertex is in the part that its number divided by the tile names. -/
theorem eq_div_of_mem {v : Nat} (h₁ : partStart V p i ≤ v) (h₂ : v < partEnd V p i) :
    i = v / tile V p := by
  have hend := partEnd_le_tile (V := V) (p := p) (i := i)
  symm
  rw [Nat.div_eq_iff tile_pos]
  unfold partStart at h₁
  rw [Nat.add_mul] at hend
  omega

theorem Fits.mem_div (h : Fits V p) {v : Nat} (hv : v < V) : v / tile V p < p ∧
    partStart V p (v / tile V p) ≤ v ∧ v < partEnd V p (v / tile V p) := by
  have hstop := h.stop
  refine ⟨(Nat.div_lt_iff_lt_mul tile_pos).mpr (by omega), Nat.div_mul_le_self v _, ?_⟩
  have hnext := Nat.lt_mul_div_succ v (tile_pos (V := V) (p := p))
  rw [Nat.mul_comm] at hnext
  unfold partEnd
  split <;> omega

/-- The part that is compressed has the vertices of its range. -/
theorem compressPart_vertexCnt {vfile efile : List Int} {c : Compressed}
    (hlen : vfile.length = V + 1) (hstart : partStart V p i ≤ V)
    (h : compressPart vfile efile V p i = .ok c) :
    c.vertexCnt = (partEnd V p i : Int) - partStart V p i := by
  have hle := start_le_end hstart
  have hend := partEnd_le (V := V) (p := p) (i := i)
  unfold compressPart at h
  simp only [Run.bind_eq_ok] at h
  obtain ⟨vStart, -, vEnd, -, partVlist, hv, partElist, -, h⟩ := h
  rw [readRange_eq hle] at hv
  cases hv
  rw [compressCsr_vertexCnt h, List.length_map, List.length_take, List.length_drop]
  omega

theorem Fits.counts (h : Fits V p) (hp : 0 < p) {vfile efile : List Int} {cs : List Compressed}
    (hlen : vfile.length = V + 1) (hrun : laconicSerial vfile efile p = .ok cs) :
    (cs.map (·.vertexCnt)).sum = V := by
  unfold laconicSerial at hrun
  rw [Run.mapM_eq_ok, hlen, Nat.add_sub_cancel] at hrun
  have hcnt : cs.map (·.vertexCnt) =
      (List.range p).map fun i => (partEnd V p i : Int) - partStart V p i := by
    have hall : ∀ i ∈ List.range p, partStart V p i ≤ V := fun i hi =>
      h.start_le (List.mem_range.mp hi)
    generalize List.range p = l at hrun hall
    induction hrun with
    | nil => rfl
    | cons hc _ ih =>
      rw [List.map_cons, List.map_cons,
        compressPart_vertexCnt hlen (hall _ List.mem_cons_self) hc,
        ih fun i hi => hall i (List.mem_cons_of_mem _ hi)]
  obtain ⟨n, rfl⟩ : ∃ n, p = n + 1 := ⟨p - 1, by omega⟩
  rw [hcnt, h.sum_lengths n (Nat.lt_succ_self n), h.end_last rfl]

theorem Fits.partition (h : Fits V p) (hp : 0 < p) : Partition V p where
  ordered i hi := ⟨start_le_end (h.start_le hi), partEnd_le⟩
  consecutive i hi := h.end_of_succ hi
  cover v := by
    constructor
    · intro hv
      exact ⟨v / tile V p, h.mem_div hv⟩
    · rintro ⟨i, -, -, hlt⟩
      exact Nat.lt_of_lt_of_le hlt partEnd_le
  disjoint i j v _ _ h₁ h₂ h₃ h₄ := by
    rw [eq_div_of_mem h₁ h₂, ← eq_div_of_mem h₃ h₄]
  reads vfile hlen i hi := by
    have hstart := h.start_le hi
    have hend := partEnd_le (V := V) (p := p) (i := i)
    exact ⟨⟨_, readNth_eq (by omega)⟩, ⟨_, readNth_eq (by omega)⟩⟩
  counts vfile efile cs hlen hrun := h.counts hp hlen hrun

theorem Partition.fits (h : Partition V p) (hV : 0 < V) (hp : 0 < p) : Fits V p where
  start := by
    obtain ⟨h₁, h₂⟩ := h.ordered (p - 1) (by omega)
    exact Nat.le_trans h₁ h₂
  stop := by
    obtain ⟨i, hi, -, hlt⟩ := (h.cover (V - 1)).mp (by omega)
    have hend := partEnd_le_tile (V := V) (p := p) (i := i)
    have hmul : (i + 1) * tile V p ≤ p * tile V p := Nat.mul_le_mul_right _ hi
    omega

/-- The ranges of the parts cut the vertices if and only if the last one starts within the offsets
and reaches the last vertex.  Up to `2 ^ 53` vertices the rounded division is exact, and the last
part always reaches the last vertex. -/
theorem laconicSerial_partition_iff (hV : 1 ≤ V) (hp : 1 ≤ p) :
    (Partition V p ↔ (p - 1) * (TrueDiv.truncDiv V p + 1) ≤ V ∧
      V ≤ p * (TrueDiv.truncDiv V p + 1)) ∧
    (V < 2 ^ 53 → (Partition V p ↔ (p - 1) * (V / p + 1) ≤ V)) := by
  have hiff : Partition V p ↔ (p - 1) * (TrueDiv.truncDiv V p + 1) ≤ V ∧
      V ≤ p * (TrueDiv.truncDiv V p + 1) := by
    constructor
    · intro h
      exact ⟨(h.fits hV hp).start, (h.fits hV hp).stop⟩
    · rintro ⟨h₁, h₂⟩
      exact (⟨h₁, h₂⟩ : Fits V p).partition hp
  refine ⟨hiff, fun hsmall => ?_⟩
  rw [hiff, TrueDiv.truncDiv_eq_div hp hsmall]
  have hreach := Nat.lt_mul_div_succ V hp
  exact ⟨fun h => h.1, fun h => ⟨h, by omega⟩⟩

theorem laconicSerial_partition_ten : Partition 10 3 :=
  ((laconicSerial_partition_iff (by decide) (by decide)).2 (by decide)).mpr (by decide)

/-- One vertex and three parts: the tile is 1, and the last part starts at 2. -/
theorem laconicSerial_partition_behind :
    ¬ Partition 1 3 ∧ laconicSerial [0, 0] [] 3 = .error .bounds := by
  refine ⟨fun h => ?_, by decide +kernel⟩
  have hord := (h.ordered 2 (by decide)).1
  exact absurd hord (by decide)

end Ranges

end Laconic.Serial

import Laconic.Lib.LittleEndian
import Laconic.Serial.Partition

/-!
# The serial pipeline: files

`Laconic_serial` reads parts of its two input files.  In the version for `npy` files the readers skip a
header of 128 bytes and take eight bytes for each number; on a file that holds a list of numbers they read
what the model of the pipeline reads from the list.  The version for text files reads one number from each
line, and fails where the file ends; since the range of the edges of a part includes the index behind its last
edge, the last part always fails.
-/

namespace Laconic.Serial

open LittleEndian (values InRange)
open RePair (Compressed compressCsr)

/-! ## Files of bytes -/

/-- `file.seek(pos)`, and what stands there. -/
def seek (file : List UInt8) (pos : Int) : Run (List UInt8) :=
  if pos < 0 then throw .bounds else pure (file.drop pos.toNat)

/-- `np.fromfile` with `dtype=np.int64`; a negative count reads all. -/
def fromfile (rest : List UInt8) (count : Int) : List Int :=
  values 8 (if count < 0 then rest.length else count.toNat) rest

def readNthInt64Element (file : List UInt8) (n : Nat) : Run Int := do
  let rest ← seek file 128
  (Block.ofList (fromfile rest (n + 1))).read n

def npyGetNumInt64Elements (file : List UInt8) : Int := ((file.length : Int) - 128) / 8

def readRangeFromNpy (file : List UInt8) (startIndex endIndex : Int) : Run (List Int) := do
  let rest ← seek file (128 + startIndex * 8)
  pure (fromfile rest (endIndex - startIndex + 1))

def compressPartNpy (vfile efile : List UInt8) (vertexCnt partNum i : Nat) : Run Compressed := do
  let vStart ← readNthInt64Element vfile (partStart vertexCnt partNum i)
  let vEnd ← readNthInt64Element vfile (partEnd vertexCnt partNum i)
  let partVlist ← readRangeFromNpy vfile (partStart vertexCnt partNum i) (partEnd vertexCnt partNum i)
  let partElist ← readRangeFromNpy efile vStart vEnd
  compressCsr (partVlist.map (· - vStart)) partElist vertexCnt

/-- With a file that has no numbers the first part fails, whatever `vertex_cnt` is. -/
def laconicSerialNpy (vfile efile : List UInt8) (partNum : Nat) : Run (List Compressed) :=
  (List.range partNum).mapM
    (compressPartNpy vfile efile (npyGetNumInt64Elements vfile - 1).toNat partNum)

/-! ## Files of lines -/

/-- `next(file)` for `n` lines raises when one is missing. -/
def nextLines (file : List Int) (n : Nat) : Run (List Int × List Int) :=
  if n ≤ file.length then pure (file.take n, file.drop n) else throw .bounds

def readNthInt64ElementTxt (file : List Int) (n : Nat) : Run Int := do
  let (_, rest) ← nextLines file n
  let (line, _) ← nextLines rest 1
  (Block.ofList line).read 0

def readRangeFromTxt (file : List Int) (startIndex endIndex : Int) : Run (List Int) := do
  let (_, rest) ← nextLines file startIndex.toNat
  let (elements, _) ← nextLines rest (endIndex + 1 - startIndex).toNat
  pure elements

def compressPartTxt (vfile efile : List Int) (vertexCnt partNum i : Nat) : Run Compressed := do
  let vStart ← readNthInt64ElementTxt vfile (partStart vertexCnt partNum i)
  let vEnd ← readNthInt64ElementTxt vfile (partEnd vertexCnt partNum i)
  let partVlist ← readRangeFromTxt vfile (partStart vertexCnt partNum i) (partEnd vertexCnt partNum i)
  let partElist ← readRangeFromTxt efile vStart vEnd
  compressCsr (partVlist.map (· - vStart)) partElist vertexCnt

/-- `Laconic_serial` with the lines for text files. -/
def laconicSerialTxt (vfile efile : List Int) (partNum : Nat) : Run (List Compressed) :=
  (List.range partNum).mapM (compressPartTxt vfile efile (vfile.length - 1) partNum)

/-! ## The file of a list of numbers -/

section Npy

variable {header : List UInt8} {xs : List Int}

/-- The file is a header of 128 bytes and the numbers. -/
structure Npy (xs : List Int) (file : List UInt8) : Prop where
  bytes : ∃ header : List UInt8, header.length = 128 ∧ file = header ++ xs.flatMap (LittleEndian.encode 8)
  range : ∀ x ∈ xs, InRange 8 x

variable {file : List UInt8}

theorem Npy.seek_eq (h : Npy xs file) (k : Nat) :
    seek file (128 + (k : Int) * 8) = .ok ((xs.drop k).flatMap (LittleEndian.encode 8)) := by
  obtain ⟨header, hlen, rfl⟩ := h.bytes
  unfold seek
  rw [if_neg (by omega), show (128 + (k : Int) * 8).toNat = header.length + 8 * k by omega,
    List.drop_append, List.drop_eq_nil_of_le (Nat.le_add_right _ _), List.nil_append,
    Nat.add_sub_cancel_left, LittleEndian.drop_flatMap_encode]
  rfl

theorem fromfile_encode (hxs : ∀ x ∈ xs, InRange 8 x) (count : Int) :
    fromfile (xs.flatMap (LittleEndian.encode 8)) count =
      if count < 0 then xs else xs.take count.toNat := by
  unfold fromfile
  rw [LittleEndian.values_flatMap_encode (by decide) hxs]
  split
  · rw [LittleEndian.length_flatMap_encode]
    exact List.take_of_length_le (by omega)
  · rfl

theorem Npy.readNth_eq (h : Npy xs file) (n : Nat) : readNthInt64Element file n = readNth xs n := by
  have hseek := h.seek_eq 0
  rw [List.drop_zero] at hseek
  unfold readNthInt64Element readNth
  rw [show (128 : Int) = 128 + ((0 : Nat) : Int) * 8 by omega, hseek, Run.ok_bind,
    fromfile_encode h.range, if_neg (by omega), show ((n : Int) + 1).toNat = n + 1 by omega]
  by_cases hn : n < xs.length
  · rw [Block.read_getD (by rw [List.length_take]; omega) 0, Block.read_getD hn 0]
    simp
  · rw [Block.read_ofList_of_le (by rw [List.length_take]; omega),
      Block.read_ofList_of_le (by omega)]

theorem Npy.num_eq (h : Npy xs file) : npyGetNumInt64Elements file = xs.length := by
  obtain ⟨header, hlen, rfl⟩ := h.bytes
  unfold npyGetNumInt64Elements
  rw [List.length_append, LittleEndian.length_flatMap_encode, hlen]
  omega

theorem Npy.readRange_eq (h : Npy xs file) {a : Int} (ha : 0 ≤ a) (b : Int) :
    readRangeFromNpy file a b = readRange xs a b := by
  obtain ⟨a, rfl⟩ := Int.eq_ofNat_of_zero_le ha
  unfold readRangeFromNpy readRange
  rw [h.seek_eq a, Run.ok_bind, if_neg (by omega),
    fromfile_encode fun x hx => h.range x (List.mem_of_mem_drop hx)]
  rfl

theorem mem_of_readNth {n : Nat} {x : Int} (h : readNth xs n = .ok x) : x ∈ xs := by
  have hn : n < xs.length := by
    by_contra hge
    rw [readNth, Block.read_ofList_of_le (by omega)] at h
    cases h
  rw [readNth, Block.read_getD hn 0] at h
  obtain rfl := Except.ok.inj h
  rw [List.getD_eq_getElem?_getD, List.getElem?_eq_getElem hn, Option.getD_some]
  exact List.getElem_mem hn

end Npy

/-- On the files of an array of offsets and an array of edges, the pipeline does what it does on the
arrays. -/
theorem laconicSerialNpy_eq {vlist elist : List Int} {vfile efile : List UInt8} (hv : Npy vlist vfile)
    (he : Npy elist efile) (hnonneg : ∀ x ∈ vlist, 0 ≤ x) (partNum : Nat) :
    laconicSerialNpy vfile efile partNum = laconicSerial vlist elist partNum := by
  unfold laconicSerialNpy laconicSerial
  rw [hv.num_eq, show ((vlist.length : Int) - 1).toNat = vlist.length - 1 by omega]
  congr 1
  funext i
  unfold compressPartNpy compressPart
  rw [hv.readNth_eq, hv.readNth_eq, hv.readRange_eq (by omega)]
  cases hstart : readNth vlist (partStart (vlist.length - 1) partNum i) with
  | error e => rfl
  | ok vStart =>
    -- the range of the edges starts at an offset
    have h0 := hnonneg vStart (mem_of_readNth hstart)
    simp only [Run.ok_bind, he.readRange_eq h0]

/-- The file with a header of zeros. -/
def npyOf (xs : List Int) : List UInt8 :=
  List.replicate 128 0 ++ xs.flatMap (LittleEndian.encode 8)

theorem laconicSerialNpy_eq_two_rows :
    laconicSerialNpy (npyOf [0, 2, 4]) (npyOf [0, 1, 0, 1]) 2 =
      laconicSerial [0, 2, 4] [0, 1, 0, 1] 2 := by
  refine laconicSerialNpy_eq ⟨⟨_, List.length_replicate, rfl⟩, ?_⟩ ⟨⟨_, List.length_replicate, rfl⟩, ?_⟩
    ?_ 2
  · decide
  · decide
  · decide

/-! ## Text files never work -/

section Txt

variable {V p : Nat} {vlist elist : List Int}

theorem nextLines_eq_ok {file line rest : List Int} {n : Nat}
    (h : nextLines file n = .ok (line, rest)) :
    n ≤ file.length ∧ line = file.take n ∧ rest = file.drop n := by
  unfold nextLines at h
  split at h
  · next hn =>
    cases h
    exact ⟨hn, rfl, rfl⟩
  · cases h

theorem readNthTxt_eq (file : List Int) (n : Nat) :
    readNthInt64ElementTxt file n = readNth file n := by
  unfold readNthInt64ElementTxt nextLines
  by_cases hn : n < file.length
  · have hline : (file.drop n).take 1 = [file.getD n 0] := by
      rw [List.drop_eq_getElem_cons hn, List.take_succ_cons, List.take_zero,
        List.getD_eq_getElem?_getD, List.getElem?_eq_getElem hn, Option.getD_some]
    have hone : 1 ≤ (file.drop n).length := by
      rw [List.length_drop]
      omega
    rw [if_pos (Nat.le_of_lt hn), Run.pure_bind]
    dsimp only
    rw [if_pos hone, Run.pure_bind]
    dsimp only
    rw [hline, readNth_eq hn]
    rfl
  · rw [readNth, Block.read_ofList_of_le (by omega)]
    by_cases heq : n ≤ file.length
    · rw [if_pos heq, Run.pure_bind]
      dsimp only
      rw [if_neg (by rw [List.length_drop]; omega)]
      rfl
    · rw [if_neg heq]
      rfl

/-- The index behind the last line cannot be read. -/
theorem readRangeTxt_ne_ok {file : List Int} (a : Int) (elements : List Int) :
    readRangeFromTxt file a file.length ≠ .ok elements := by
  intro h
  unfold readRangeFromTxt at h
  simp only [Run.bind_eq_ok] at h
  obtain ⟨⟨skipped, rest⟩, hskip, ⟨line, rest'⟩, hline, -⟩ := h
  obtain ⟨hn, -, rfl⟩ := nextLines_eq_ok hskip
  obtain ⟨hlen, -, -⟩ := nextLines_eq_ok hline
  rw [List.length_drop] at hlen
  omega

/-- From text files no graph is ever compressed: the part with the last vertex reads behind the end of
the edges. -/
theorem laconicSerialTxt_never_returns (hp : 1 ≤ p) (hV : V < 2 ^ 53) (hlen : vlist.length = V + 1)
    (hlast : vlist.getD V 0 = elist.length) : ¬ ∃ cs, laconicSerialTxt vlist elist p = .ok cs := by
  rintro ⟨cs, h⟩
  unfold laconicSerialTxt at h
  rw [hlen, Nat.add_sub_cancel] at h
  have hend : partEnd V p (p - 1) = V := by
    have hreach := Nat.lt_mul_div_succ V hp
    unfold partEnd tile
    rw [TrueDiv.truncDiv_eq_div hp hV, Nat.sub_add_cancel hp, if_pos hreach]
  obtain ⟨hcs, hparts⟩ := Run.mapM_range h
  have hc := hparts (p - 1) _ (List.getElem?_eq_getElem (by omega))
  unfold compressPartTxt at hc
  simp only [Run.bind_eq_ok] at hc
  obtain ⟨vStart, -, vEnd, hvEnd, partVlist, -, partElist, hread, -⟩ := hc
  rw [readNthTxt_eq, hend, readNth_eq (by omega), hlast] at hvEnd
  obtain rfl := Except.ok.inj hvEnd
  exact readRangeTxt_ne_ok vStart partElist hread

theorem laconicSerialTxt_never_returns_two_rows :
    ¬ ∃ cs, laconicSerialTxt [0, 2, 4] [0, 1, 0, 1] 2 = .ok cs :=
  laconicSerialTxt_never_returns (V := 2) (by decide) (by decide) rfl rfl

end Txt

end Laconic.Serial

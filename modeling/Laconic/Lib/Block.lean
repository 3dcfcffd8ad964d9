import Laconic.Lib.Checked

/-!
# Blocks — C arrays with checked accesses

A `Block` is an allocated array: a length and the contents of its cells.  Reading or writing
outside the length is the fault `Fault.bounds`.  `upd` is the unchecked update that a checked
`modify` performs; invariants speak about `cells` and `size` only.
-/

structure Block (α : Type) where
  size : Int
  cells : Int → α

namespace Block

variable {α : Type} {E : Fault → Prop}

/-- `i` is an index of the block. -/
def InB (b : Block α) (i : Int) : Prop := 0 ≤ i ∧ i < b.size

instance (b : Block α) (i : Int) : Decidable (b.InB i) :=
  inferInstanceAs (Decidable (0 ≤ i ∧ i < b.size))

/-- `malloc` of `n` cells, filled by `f`. -/
def alloc (n : Int) (f : Int → α) : Block α := ⟨n, f⟩

/-- The array that holds the elements of a list. -/
def ofList [Inhabited α] (l : List α) : Block α := ⟨l.length, fun i => l.getD i.toNat default⟩

/-- The elements of an array. -/
def toList (b : Block α) : List α := (List.range b.size.toNat).map fun i : Nat => b.cells i

/-- `b[i]` on the right-hand side of an assignment. -/
def read (b : Block α) (i : Int) : Run α :=
  if b.InB i then .ok (b.cells i) else .error .bounds

/-- Update of one cell. -/
def upd (b : Block α) (i : Int) (f : α → α) : Block α :=
  ⟨b.size, fun j => if j = i then f (b.cells i) else b.cells j⟩

/-- `b[i]` (or a field of it) on the left-hand side of an assignment. -/
def modify (b : Block α) (i : Int) (f : α → α) : Run (Block α) :=
  if b.InB i then .ok (b.upd i f) else .error .bounds

/-- `b[i] = x`. -/
def write (b : Block α) (i : Int) (x : α) : Run (Block α) := b.modify i fun _ => x

/-- A write through a pointer: a negative pointer is null, and nothing is written through it. -/
def updPtr (b : Block α) (i : Int) (f : α → α) : Block α := if i < 0 then b else b.upd i f

/-- Append at the end of an extendible array. -/
def push (b : Block α) (x : α) : Block α :=
  ⟨b.size + 1, fun j => if j = b.size then x else b.cells j⟩

/-- Drop the last cell of an extendible array. -/
def pop (b : Block α) : Run (Block α) :=
  if 0 < b.size then .ok ⟨b.size - 1, b.cells⟩ else .error .bounds

/-- `realloc` to a smaller size, or `resize` of a vector to one. -/
def truncate (b : Block α) (n : Int) : Block α := ⟨n, b.cells⟩

@[simp] theorem size_alloc (n : Int) (f : Int → α) : (alloc n f).size = n := rfl

@[simp] theorem cells_alloc (n : Int) (f : Int → α) (i : Int) : (alloc n f).cells i = f i := rfl

@[simp] theorem size_upd (b : Block α) (i : Int) (f : α → α) : (b.upd i f).size = b.size := rfl

@[simp] theorem inB_upd (b : Block α) (i j : Int) (f : α → α) :
    (b.upd i f).InB j ↔ b.InB j := Iff.rfl

theorem inB_congr {b b' : Block α} (h : b'.size = b.size) (i : Int) :
    b'.InB i ↔ b.InB i := by
  unfold InB
  rw [h]

theorem cells_upd (b : Block α) (i j : Int) (f : α → α) :
    (b.upd i f).cells j = if j = i then f (b.cells i) else b.cells j := rfl

@[simp] theorem cells_upd_self (b : Block α) (i : Int) (f : α → α) :
    (b.upd i f).cells i = f (b.cells i) := if_pos rfl

theorem cells_upd_ne (b : Block α) {i j : Int} (f : α → α) (h : j ≠ i) :
    (b.upd i f).cells j = b.cells j := if_neg h

theorem upd_comm (b : Block α) {i j : Int} (hij : i ≠ j) (f g : α → α) :
    (b.upd i f).upd j g = (b.upd j g).upd i f := by
  unfold upd
  congr 1
  funext k
  dsimp only
  rw [if_neg (Ne.symm hij), if_neg hij]
  by_cases hi : k = i
  · rw [hi, if_neg hij, if_pos rfl, if_pos rfl]
  · rw [if_neg hi, if_neg hi]

theorem updPtr_of_neg (b : Block α) {i : Int} (f : α → α) (h : i < 0) : b.updPtr i f = b :=
  if_pos h

theorem updPtr_of_nonneg (b : Block α) {i : Int} (f : α → α) (h : ¬ i < 0) :
    b.updPtr i f = b.upd i f := if_neg h

@[simp] theorem size_updPtr (b : Block α) (i : Int) (f : α → α) :
    (b.updPtr i f).size = b.size := by
  unfold updPtr
  split <;> rfl

theorem cells_updPtr (b : Block α) (i : Int) (f : α → α) {j : Int} (hj : 0 ≤ j) :
    (b.updPtr i f).cells j = if j = i then f (b.cells j) else b.cells j := by
  by_cases hi : i < 0
  · rw [updPtr_of_neg b f hi, if_neg (by omega)]
  · rw [updPtr_of_nonneg b f hi, cells_upd]
    split
    · next hji => rw [hji]
    · rfl

/-- A field that the write does not touch. -/
theorem field_updPtr {β : Type} (b : Block α) (i : Int) {f : α → α} (g : α → β)
    (hg : ∀ a, g (f a) = g a) (j : Int) : g ((b.updPtr i f).cells j) = g (b.cells j) := by
  by_cases hi : i < 0
  · rw [updPtr_of_neg b f hi]
  · rw [updPtr_of_nonneg b f hi, cells_upd]
    split
    · next hji => rw [hji, hg]
    · rfl

@[simp] theorem size_push (b : Block α) (x : α) : (b.push x).size = b.size + 1 := rfl

theorem cells_push (b : Block α) (x : α) (j : Int) :
    (b.push x).cells j = if j = b.size then x else b.cells j := rfl

@[simp] theorem size_truncate (b : Block α) (n : Int) : (b.truncate n).size = n := rfl

@[simp] theorem cells_truncate (b : Block α) (n i : Int) :
    (b.truncate n).cells i = b.cells i := rfl

theorem length_toList (b : Block α) : b.toList.length = b.size.toNat := by
  rw [toList, List.length_map, List.length_range]

theorem toList_getElem? {b : Block α} {i : Nat} {x : α} :
    b.toList[i]? = some x ↔ (i : Int) < b.size ∧ b.cells i = x := by
  rw [toList, List.getElem?_map]
  by_cases hi : (i : Int) < b.size
  · rw [List.getElem?_range (by omega), Option.map_some, Option.some_inj]
    exact ⟨fun h => ⟨hi, h⟩, fun h => h.2⟩
  · rw [List.getElem?_eq_none (by rw [List.length_range]; omega)]
    exact ⟨nofun, fun h => absurd h.1 hi⟩

/-- An array holds a list when its cells do. -/
theorem toList_eq {b : Block α} {l : List α} (hsize : b.size = l.length)
    (hcells : ∀ (i : Nat) (x : α), l[i]? = some x → b.cells i = x) : b.toList = l := by
  have hlen : b.toList.length = l.length := by
    rw [length_toList, hsize, Int.toNat_natCast]
  apply List.ext_getElem hlen
  intro i hi hi'
  rw [show b.toList[i] = b.cells i from by simp [toList]]
  exact hcells i _ (List.getElem?_eq_getElem hi')

@[simp] theorem meets_read (b : Block α) (i : Int) (Q : α → Prop) :
    Run.Meets E (b.read i) Q ↔ (b.InB i ∧ Q (b.cells i)) ∨ (¬ b.InB i ∧ E .bounds) := by
  by_cases h : b.InB i <;> simp [read, h]

@[simp] theorem meets_modify (b : Block α) (i : Int) (f : α → α) (Q : Block α → Prop) :
    Run.Meets E (b.modify i f) Q ↔ (b.InB i ∧ Q (b.upd i f)) ∨ (¬ b.InB i ∧ E .bounds) := by
  by_cases h : b.InB i <;> simp [modify, h]

theorem read_eq {b : Block α} {i : Int} (h : b.InB i) : b.read i = .ok (b.cells i) := if_pos h

theorem read_eq_ok {b : Block α} {i : Int} {x : α} :
    b.read i = .ok x ↔ b.InB i ∧ b.cells i = x := by
  by_cases h : b.InB i
  · rw [read_eq h, Except.ok.injEq]
    exact ⟨fun hx => ⟨h, hx⟩, And.right⟩
  · rw [read, if_neg h]
    exact ⟨nofun, fun hx => absurd hx.1 h⟩

theorem modify_eq_ok {b b' : Block α} {i : Int} {f : α → α} :
    b.modify i f = .ok b' ↔ b.InB i ∧ b.upd i f = b' := by
  by_cases h : b.InB i
  · rw [modify, if_pos h, Except.ok.injEq]
    exact ⟨fun hx => ⟨h, hx⟩, And.right⟩
  · rw [modify, if_neg h]
    exact ⟨nofun, fun hx => absurd hx.1 h⟩

theorem write_eq_ok {b b' : Block α} {i : Int} {x : α} :
    b.write i x = .ok b' ↔ b.InB i ∧ (b.upd i fun _ => x) = b' := modify_eq_ok

theorem modify_eq {b : Block α} {i : Int} (h : b.InB i) (f : α → α) :
    b.modify i f = .ok (b.upd i f) := if_pos h

/-- A write that is guarded by a test for the null pointer. -/
theorem modify_ptr_eq {b : Block α} {i : Int} (h : i ≠ -1 → b.InB i) (f : α → α) :
    (if i ≠ -1 then b.modify i f else pure b) = Except.ok (b.updPtr i f) := by
  by_cases hi : i = -1
  · rw [if_neg (not_not.mpr hi), updPtr_of_neg b f (by omega)]
    rfl
  · have := (h hi).1
    rw [if_pos hi, modify_eq (h hi), updPtr_of_nonneg b f (by omega)]

/-- The same, with the rest of the program under the test. -/
theorem modify_ptr_bind {β : Type} {b : Block α} {i : Int} (h : i ≠ -1 → b.InB i) (f : α → α)
    (k : Block α → Run β) :
    (if i ≠ -1 then b.modify i f >>= k else k b) = k (b.updPtr i f) := by
  rw [← Run.ok_bind (b.updPtr i f) k, ← modify_ptr_eq h f]
  split <;> rfl

/-- The same, where the test decides about a second value as well. -/
theorem modify_ptr_pair {β : Type} {b : Block α} {i : Int} (h : i ≠ -1 → b.InB i) (f : α → α)
    (x y : β) :
    (if i ≠ -1 then b.modify i f >>= fun b => pure (b, x) else pure (b, y)) =
      Except.ok (b.updPtr i f, if i = -1 then y else x) := by
  by_cases hi : i = -1
  · rw [if_neg (not_not.mpr hi), updPtr_of_neg b f (by omega), if_pos hi]
    rfl
  · have := (h hi).1
    rw [if_pos hi, modify_eq (h hi), Run.ok_bind, updPtr_of_nonneg b f (by omega), if_neg hi]
    rfl

theorem write_eq {b : Block α} {i : Int} (h : b.InB i) (x : α) :
    b.write i x = .ok (b.upd i fun _ => x) := if_pos h

theorem pop_eq {b : Block α} (h : 0 < b.size) : b.pop = .ok ⟨b.size - 1, b.cells⟩ := if_pos h

theorem read_ofList [Inhabited α] {l : List α} {i : Nat} (h : i < l.length) :
    (ofList l).read i = .ok l[i] := by
  rw [read_eq ⟨by omega, show (i : Int) < l.length by omega⟩]
  show Except.ok (l.getD ((i : Int)).toNat default) = _
  rw [Int.toNat_natCast, List.getD_eq_getElem?_getD, List.getElem?_eq_getElem h]
  rfl

theorem read_getD [Inhabited α] {l : List α} {i : Nat} (h : i < l.length) (d : α) :
    (ofList l).read i = .ok (l.getD i d) := by
  rw [read_ofList h, List.getD_eq_getElem?_getD, List.getElem?_eq_getElem h, Option.getD_some]

theorem read_getD_toNat [Inhabited α] {l : List α} {i : Int} (h0 : 0 ≤ i) (h : i < l.length)
    (d : α) : (ofList l).read i = .ok (l.getD i.toNat d) := by
  have hread := read_getD (show i.toNat < l.length by omega) d
  rwa [Int.toNat_of_nonneg h0] at hread

theorem read_ofList_of_le [Inhabited α] {l : List α} {i : Int} (h : (l.length : Int) ≤ i) :
    (ofList l).read i = .error .bounds := by
  apply if_neg
  intro hin
  have hlt : i < (l.length : Int) := hin.2
  omega

/-- A loop that reads the elements of a list one after the other is a fold over them. -/
theorem forLoop_ofList [Inhabited α] {σ : Type} (f : σ → α → Run σ) (l : List α) :
    ∀ (n lo : Nat) (s : σ), lo + n ≤ l.length →
      Run.forLoop (fun i s => do
        let x ← (ofList l).read i
        f s x) n lo s = ((l.drop lo).take n).foldlM f s := by
  intro n
  induction n with
  | zero =>
    intro lo s _
    rfl
  | succ n ih =>
    intro lo s hle
    have hlt : lo < l.length := by omega
    rw [Run.forLoop, read_ofList hlt, Run.ok_bind, List.drop_eq_getElem_cons hlt, List.take_succ_cons,
      List.foldlM_cons]
    refine congrArg (f s l[lo] >>= ·) (funext fun s' => ?_)
    exact ih (lo + 1) s' (by omega)

end Block

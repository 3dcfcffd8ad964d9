import Laconic.Lib.Slp

/-!
# Replacing pairs from left to right

One pass over a list replaces pairs of adjacent symbols by single symbols: at each place the pair
that starts there is replaced and skipped, or its first symbol is kept.
-/

namespace PairScan

open Slp

variable {α : Type}

/-- The pairs of adjacent symbols, overlaps included. -/
def adjacent : List α → List (α × α)
  | x :: y :: xs => (x, y) :: adjacent (y :: xs)
  | _ => []

/-- The pass; `f` names the symbol of a pair that is replaced. -/
def scan (f : α → α → Option α) : List α → List α
  | x :: y :: xs =>
    match f x y with
    | some z => z :: scan f xs
    | none => x :: scan f (y :: xs)
  | [x] => [x]
  | [] => []

variable {f : α → α → Option α} {l : List α} {x y z : α}

@[simp] theorem scan_nil : scan f [] = [] := rfl

@[simp] theorem scan_singleton (x : α) : scan f [x] = [x] := rfl

theorem scan_some (h : f x y = some z) : scan f (x :: y :: l) = z :: scan f l := by
  rw [scan, h]

theorem scan_none (h : f x y = none) : scan f (x :: y :: l) = x :: scan f (y :: l) := by
  rw [scan, h]

theorem scan_ne_nil (h : l ≠ []) : scan f l ≠ [] := by
  match l, h with
  | [x], _ => exact List.cons_ne_nil _ _
  | x :: y :: l, _ =>
    cases hf : f x y with
    | none => rw [scan_none hf]; exact List.cons_ne_nil _ _
    | some z => rw [scan_some hf]; exact List.cons_ne_nil _ _

theorem length_scan_le : (scan f l).length ≤ l.length := by
  fun_induction scan f l with
  | case1 x y xs z hf ih =>
    simp only [List.length_cons]
    omega
  | case2 x y xs hf ih =>
    simp only [List.length_cons] at ih ⊢
    omega
  | case3 x => exact Nat.le_refl _
  | case4 => exact Nat.le_refl _

/-- The pass never makes rows longer. -/
theorem length_flatten_scan (f : α → α → Option α) (rs : List (List α)) :
    ((rs.map (scan f)).flatten).length ≤ rs.flatten.length := by
  induction rs with
  | nil => exact Nat.le_refl _
  | cons r rs ih =>
    rw [List.map_cons, List.flatten_cons, List.flatten_cons, List.length_append, List.length_append]
    exact Nat.add_le_add length_scan_le ih

theorem length_adjacent_le : (adjacent l).length ≤ l.length := by
  induction l with
  | nil => exact Nat.le_refl _
  | cons x l ih =>
    cases l with
    | nil => exact Nat.zero_le _
    | cons y l => exact Nat.succ_le_succ ih

theorem adjacent_subset {p : α × α} (h : p ∈ adjacent l) : p ∈ adjacent (x :: l) := by
  cases l with
  | nil => cases h
  | cons y l => exact List.mem_cons_of_mem _ h

/-- Adjacent symbols are symbols. -/
theorem mem_of_mem_adjacent {p : α × α} (h : p ∈ adjacent l) : p.1 ∈ l ∧ p.2 ∈ l := by
  induction l with
  | nil => cases h
  | cons x l ih =>
    cases l with
    | nil => cases h
    | cons y l =>
      rcases List.mem_cons.mp h with rfl | h
      · exact ⟨List.mem_cons_self, List.mem_cons_of_mem _ List.mem_cons_self⟩
      · exact ⟨List.mem_cons_of_mem _ (ih h).1, List.mem_cons_of_mem _ (ih h).2⟩

/-! ## What the pass saves -/

theorem countP_adjacent_cons_le (q : α × α → Bool) (x : α) (l : List α) :
    (adjacent (x :: l)).countP q ≤ (adjacent l).countP q + 1 := by
  cases l with
  | nil => exact Nat.zero_le _
  | cons y l =>
    rw [adjacent, List.countP_cons]
    split <;> omega

/-- A pair that is replaced takes away at most one other place with a pair to replace, so that at
least half of the places are used. -/
theorem countP_adjacent_add_scan (f : α → α → Option α) (l : List α) :
    (adjacent l).countP (fun p => (f p.1 p.2).isSome) + 2 * (scan f l).length ≤ 2 * l.length := by
  fun_induction scan f l with
  | case1 x y xs z hf ih =>
    -- the places at `x` and at `y` are gone, for one symbol saved
    have hnext := countP_adjacent_cons_le (fun p => (f p.1 p.2).isSome) y xs
    have hfirst := countP_adjacent_cons_le (fun p => (f p.1 p.2).isSome) x (y :: xs)
    simp only [List.length_cons]
    omega
  | case2 x y xs hf ih =>
    have hfirst : (f x y).isSome = false := by rw [hf, Option.isSome_none]
    simp only [adjacent, List.countP_cons, hfirst, List.length_cons] at ih ⊢
    rw [if_neg Bool.false_ne_true]
    omega
  | case3 x => exact Nat.le_refl _
  | case4 => exact Nat.le_refl _

theorem countP_flatMap_adjacent_add_scan (f : α → α → Option α) (rs : List (List α)) :
    (rs.flatMap adjacent).countP (fun p => (f p.1 p.2).isSome) +
      2 * ((rs.map (scan f)).flatten).length ≤ 2 * rs.flatten.length := by
  induction rs with
  | nil => exact Nat.le_refl _
  | cons r rs ih =>
    have hrow := countP_adjacent_add_scan f r
    rw [List.flatMap_cons, List.countP_append, List.map_cons, List.flatten_cons, List.flatten_cons,
      List.length_append, List.length_append]
    omega

/-! ## Counting adjacent symbols -/

theorem adjacent_cons_cons (x y : α) (l : List α) :
    adjacent (x :: y :: l) = (x, y) :: adjacent (y :: l) := rfl

theorem adjacent_append (xs ys : List α) (z : α) :
    adjacent (xs ++ z :: ys) = adjacent (xs ++ [z]) ++ adjacent (z :: ys) := by
  induction xs with
  | nil => rfl
  | cons x xs ih =>
    cases xs with
    | nil => rfl
    | cons y xs =>
      simp only [List.cons_append, adjacent] at ih ⊢
      rw [ih]

/-- A last symbol adds at most one pair, and that one ends with it. -/
theorem adjacent_concat (xs : List α) (z : α) :
    ∃ l, adjacent (xs ++ [z]) = adjacent xs ++ l ∧ ∀ p ∈ l, p.2 = z := by
  induction xs with
  | nil => exact ⟨[], rfl, fun p hp => by cases hp⟩
  | cons x xs ih =>
    cases xs with
    | nil => exact ⟨[(x, z)], rfl, fun p hp => by rw [List.mem_singleton.mp hp]⟩
    | cons y xs =>
      obtain ⟨l, hl, hz⟩ := ih
      refine ⟨l, ?_, hz⟩
      simp only [List.cons_append, adjacent] at hl ⊢
      rw [hl]

/-- A first symbol adds at most one pair, and that one begins with it. -/
theorem adjacent_cons (z : α) (ys : List α) :
    ∃ l, adjacent (z :: ys) = l ++ adjacent ys ∧ ∀ p ∈ l, p.1 = z := by
  cases ys with
  | nil => exact ⟨[], rfl, fun p hp => by cases hp⟩
  | cons y ys => exact ⟨[(z, y)], rfl, fun p hp => by rw [List.mem_singleton.mp hp]⟩

theorem map_fst_adjacent (l : List α) : (adjacent l).map Prod.fst = l.dropLast := by
  induction l with
  | nil => rfl
  | cons x l ih =>
    cases l with
    | nil => rfl
    | cons y l =>
      rw [adjacent, List.map_cons, ih]
      rfl

theorem map_snd_adjacent (l : List α) : (adjacent l).map Prod.snd = l.tail := by
  induction l with
  | nil => rfl
  | cons x l ih =>
    cases l with
    | nil => rfl
    | cons y l =>
      rw [adjacent, List.map_cons, ih]
      rfl

section Count

variable [DecidableEq α] {p : α × α}

/-- A pair without `z` is not seen around `z`. -/
theorem count_adjacent_of_ne (xs ys : List α) (hl : p.1 ≠ z) (hr : p.2 ≠ z) :
    (adjacent (xs ++ z :: ys)).count p = (adjacent xs).count p + (adjacent ys).count p := by
  obtain ⟨l, hxs, hl'⟩ := adjacent_concat xs z
  obtain ⟨r, hys, hr'⟩ := adjacent_cons z ys
  have h₁ : l.count p = 0 := List.count_eq_zero_of_not_mem fun hp => hr (hl' p hp)
  have h₂ : r.count p = 0 := List.count_eq_zero_of_not_mem fun hp => hl (hr' p hp)
  rw [adjacent_append, hxs, hys, List.count_append, List.count_append, List.count_append]
  omega

/-- The two parts around the pair `(x, y)`, and the pair itself. -/
theorem le_count_adjacent (xs ys : List α) (x y : α) :
    (adjacent xs).count p + (if (x, y) = p then 1 else 0) + (adjacent ys).count p ≤
      (adjacent (xs ++ x :: y :: ys)).count p := by
  obtain ⟨l, hxs, -⟩ := adjacent_concat xs x
  obtain ⟨r, hys, -⟩ := adjacent_cons y ys
  rw [adjacent_append, adjacent_cons_cons, hxs, hys, List.count_append, List.count_append, List.count_cons,
    List.count_append]
  simp only [beq_iff_eq]
  omega

/-- A pair occurs at most as often as each of its symbols. -/
theorem count_adjacent_le (l : List α) (p : α × α) :
    (adjacent l).count p ≤ l.count p.1 ∧ (adjacent l).count p ≤ l.count p.2 := by
  constructor
  · calc (adjacent l).count p ≤ ((adjacent l).map Prod.fst).count p.1 := List.count_le_count_map
      _ ≤ l.count p.1 := by rw [map_fst_adjacent]; exact (List.dropLast_sublist l).count_le _
  · calc (adjacent l).count p ≤ ((adjacent l).map Prod.snd).count p.2 := List.count_le_count_map
      _ ≤ l.count p.2 := by rw [map_snd_adjacent]; exact (List.tail_sublist l).count_le _

end Count

/-- A symbol after the pass was there before, or stands for a pair that was. -/
theorem mem_scan (h : z ∈ scan f l) :
    z ∈ l ∨ ∃ x y, (x, y) ∈ adjacent l ∧ f x y = some z := by
  fun_induction scan f l with
  | case1 x y xs w hf ih =>
    rcases List.mem_cons.mp h with rfl | h
    · exact Or.inr ⟨x, y, List.mem_cons_self, hf⟩
    · rcases ih h with hz | ⟨a, b, hab, hz⟩
      · exact Or.inl (List.mem_cons_of_mem _ (List.mem_cons_of_mem _ hz))
      · exact Or.inr ⟨a, b, adjacent_subset (adjacent_subset hab), hz⟩
  | case2 x y xs hf ih =>
    rcases List.mem_cons.mp h with rfl | h
    · exact Or.inl List.mem_cons_self
    · rcases ih h with hz | ⟨a, b, hab, hz⟩
      · exact Or.inl (List.mem_cons_of_mem _ hz)
      · exact Or.inr ⟨a, b, adjacent_subset hab, hz⟩
  | case3 x => exact Or.inl h
  | case4 => cases h

/-- Without a pair to replace nothing changes. -/
theorem scan_eq_self (h : ∀ p ∈ adjacent l, f p.1 p.2 = none) : scan f l = l := by
  induction l with
  | nil => rfl
  | cons x l ih =>
    cases l with
    | nil => rfl
    | cons y l =>
      rw [scan_none (h (x, y) List.mem_cons_self), ih fun p hp => h p (List.mem_cons_of_mem _ hp)]

/-- The first symbol of the pass is the first one before, or stands for a pair. -/
theorem head_scan {w : α} {ws : List α} (h : scan f (x :: l) = w :: ws) :
    w = x ∨ ∃ y, (x, y) ∈ adjacent (x :: l) ∧ f x y = some w := by
  cases l with
  | nil =>
    cases h
    exact Or.inl rfl
  | cons y l =>
    cases hf : f x y with
    | none =>
      rw [scan_none hf] at h
      cases h
      exact Or.inl rfl
    | some z =>
      rw [scan_some hf] at h
      cases h
      exact Or.inr ⟨y, List.mem_cons_self, hf⟩

/-- Adjacent symbols after the pass that stand for no pair were not to be replaced. -/
theorem adjacent_scan {a b : α} (ha : ∀ x y, (x, y) ∈ adjacent l → f x y ≠ some a)
    (hb : ∀ x y, (x, y) ∈ adjacent l → f x y ≠ some b)
    (h : (a, b) ∈ adjacent (scan f l)) : f a b = none := by
  fun_induction scan f l with
  | case1 x y xs w hf ih =>
    have hsub : ∀ p ∈ adjacent xs, p ∈ adjacent (x :: y :: xs) := fun p hp =>
      adjacent_subset (adjacent_subset hp)
    cases hs : scan f xs with
    | nil =>
      rw [hs] at h
      cases h
    | cons u us =>
      rw [hs] at h ih
      rcases List.mem_cons.mp h with heq | h
      · cases heq
        exact absurd hf (ha x y List.mem_cons_self)
      · exact ih (fun c d hcd => ha c d (hsub _ hcd)) (fun c d hcd => hb c d (hsub _ hcd)) h
  | case2 x y xs hf ih =>
    have hsub : ∀ p ∈ adjacent (y :: xs), p ∈ adjacent (x :: y :: xs) := fun p hp =>
      adjacent_subset hp
    -- the symbol after `x` is `y`, or it is new, which `hb` excludes
    cases hs : scan f (y :: xs) with
    | nil =>
      rw [hs] at h
      cases h
    | cons u us =>
      rw [hs] at h ih
      rcases List.mem_cons.mp h with heq | h
      · cases heq
        rcases head_scan hs with rfl | ⟨w, hmem, hw⟩
        · exact hf
        · exact absurd hw (hb y w (hsub _ hmem))
      · exact ih (fun c d hcd => ha c d (hsub _ hcd)) (fun c d hcd => hb c d (hsub _ hcd)) h
  | case3 x => cases h
  | case4 => cases h

/-- Putting the pairs back in the place of their symbols undoes the pass. -/
theorem flatMap_scan {g : α → List α}
    (hnew : ∀ x y z, (x, y) ∈ adjacent l → f x y = some z → g z = [x, y])
    (hold : ∀ x ∈ l, g x = [x]) : (scan f l).flatMap g = l := by
  fun_induction scan f l with
  | case1 x y xs z hf ih =>
    have hrest := ih (fun a b c hab => hnew a b c (adjacent_subset (adjacent_subset hab)))
      fun a ha => hold a (List.mem_cons_of_mem _ (List.mem_cons_of_mem _ ha))
    rw [List.flatMap_cons, hnew x y z List.mem_cons_self hf, hrest]
    rfl
  | case2 x y xs hf ih =>
    have hrest := ih (fun a b c hab => hnew a b c (adjacent_subset hab))
      fun a ha => hold a (List.mem_cons_of_mem _ ha)
    rw [List.flatMap_cons, hold x List.mem_cons_self, hrest]
    rfl
  | case3 x => rw [List.flatMap_singleton, hold x List.mem_cons_self]
  | case4 => rfl

/-- When the new symbols expand to their pairs, the pass changes no expansion. -/
theorem expands_scan {rhs : α → Option (List α)} (h : ∀ x y z, f x y = some z → rhs z = some [x, y])
    {ys : List α} : Expands rhs (scan f l) ys ↔ Expands rhs l ys := by
  -- case by case along the pass: the new symbol is unfolded to its pair
  fun_induction scan f l generalizing ys with
  | case1 x y xs z hf ih =>
    have hfold : Expands rhs ([] ++ z :: scan f xs) ys ↔ Expands rhs ([] ++ [x, y] ++ scan f xs) ys :=
      Expands.fold_iff (h x y z hf)
    rw [List.nil_append, List.nil_append] at hfold
    rw [hfold, Expands.append_iff, show x :: y :: xs = [x, y] ++ xs from rfl,
      Expands.append_iff]
    exact exists_congr fun us => exists_congr fun us' => and_congr_right fun _ =>
      and_congr_right fun _ => ih
  | case2 x y xs hf ih =>
    rw [Expands.cons_iff, Expands.cons_iff]
    exact exists_congr fun us => exists_congr fun us' => and_congr_right fun _ =>
      and_congr_right fun _ => ih
  | case3 x => rfl
  | case4 => rfl

end PairScan

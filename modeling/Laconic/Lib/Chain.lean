import Mathlib.Data.List.Nodup
import Mathlib.Tactic.Common

/-!
# Chains — linked lists threaded through arrays

`Seg nx pv h b l t e` says that following `nx` from the pointer `h` visits exactly the list `l`
and arrives at `t`, while `pv` leads back: the first node points back to `b`, and `e` is the last
node (`b` itself when `l` is empty).  A whole list is a segment with `t` a null pointer; because
segments compose by `seg_append`, unlinking and inserting a node are two local changes at the
seam between two segments.  `Path` is the singly linked form used for free lists.
-/

namespace Chain

variable {nx pv nx' pv' : Int → Int}

def Seg (nx pv : Int → Int) : Int → Int → List Int → Int → Int → Prop
  | h, b, [], t, e => h = t ∧ b = e
  | h, b, p :: l, t, e => h = p ∧ pv p = b ∧ Seg nx pv (nx p) p l t e

@[simp] theorem seg_nil {h b t e : Int} : Seg nx pv h b [] t e ↔ h = t ∧ b = e := Iff.rfl

@[simp] theorem seg_cons {h b p t e : Int} {l : List Int} :
    Seg nx pv h b (p :: l) t e ↔ h = p ∧ pv p = b ∧ Seg nx pv (nx p) p l t e := Iff.rfl

theorem seg_append {l₁ l₂ : List Int} {h b t e : Int} :
    Seg nx pv h b (l₁ ++ l₂) t e ↔ ∃ m k, Seg nx pv h b l₁ m k ∧ Seg nx pv m k l₂ t e := by
  induction l₁ generalizing h b with
  | nil => simp
  | cons p l₁ ih =>
    simp only [List.cons_append, seg_cons, ih]
    constructor
    · rintro ⟨hh, hb, m, k, h₁, h₂⟩
      exact ⟨m, k, ⟨hh, hb, h₁⟩, h₂⟩
    · rintro ⟨m, k, ⟨hh, hb, h₁⟩, h₂⟩
      exact ⟨hh, hb, m, k, h₁, h₂⟩

/-- Writes to nodes outside the segment do not disturb it. -/
theorem Seg.congr {l : List Int} {h b t e : Int} (hs : Seg nx pv h b l t e)
    (hnx : ∀ q ∈ l, nx' q = nx q) (hpv : ∀ q ∈ l, pv' q = pv q) :
    Seg nx' pv' h b l t e := by
  induction l generalizing h b with
  | nil => exact hs
  | cons p l ih =>
    obtain ⟨hh, hb, hs⟩ := hs
    refine ⟨hh, (hpv p (by simp)).trans hb, ?_⟩
    rw [hnx p (by simp)]
    exact ih hs (fun q hq => hnx q (by simp [hq])) (fun q hq => hpv q (by simp [hq]))

/-- The head pointer of a segment is its target or its first node. -/
theorem Seg.head_eq {l : List Int} {h b t e : Int} (hs : Seg nx pv h b l t e) :
    h = l.headD t := by
  cases l with
  | nil => exact hs.1
  | cons p l => exact hs.1

/-- The last node of a segment is its back pointer or the last element. -/
theorem Seg.last_eq {l : List Int} {h b t e : Int} (hs : Seg nx pv h b l t e) :
    e = l.getLastD b := by
  induction l generalizing h b with
  | nil => exact hs.2.symm
  | cons p l ih =>
    rw [ih hs.2.2, List.getLastD_cons]

theorem Seg.last_mem {l : List Int} {h b t e : Int} (hs : Seg nx pv h b l t e) (hl : l ≠ []) :
    e ∈ l := by
  rw [hs.last_eq, List.getLastD_eq_getLast?, List.getLast?_eq_some_getLast hl]
  exact List.getLast_mem hl

theorem Seg.last_mem_or {l : List Int} {h b t e : Int} (hs : Seg nx pv h b l t e) :
    e = b ∨ e ∈ l := by
  by_cases hl : l = []
  · subst hl
    exact Or.inl hs.2.symm
  · exact Or.inr (hs.last_mem hl)

theorem Seg.head_mem_or {l : List Int} {h b t e : Int} (hs : Seg nx pv h b l t e) :
    h = t ∨ h ∈ l := by
  cases l with
  | nil => exact Or.inl hs.1
  | cons p l => exact Or.inr (by simp [hs.1])

theorem Seg.last_eq_back_iff {l : List Int} {h b t e : Int} (hs : Seg nx pv h b l t e)
    (hb : b ∉ l) : e = b ↔ l = [] := by
  constructor
  · rintro rfl
    by_contra hl
    exact hb (hs.last_mem hl)
  · rintro rfl
    exact hs.2.symm

theorem Seg.head_eq_target_iff {l : List Int} {h b t e : Int} (hs : Seg nx pv h b l t e)
    (ht : t ∉ l) : h = t ↔ l = [] := by
  cases l with
  | nil => simpa using hs.1
  | cons p l =>
    simp only [reduceCtorEq, iff_false]
    rintro rfl
    exact ht (by simp [hs.1])

/-- The back pointer of a node is the node before it. -/
theorem Seg.pv_eq {l₁ l₂ : List Int} {p h b t e : Int}
    (hs : Seg nx pv h b (l₁ ++ p :: l₂) t e) : pv p = l₁.getLastD b := by
  obtain ⟨m, k, h₁, -, hk, -⟩ := seg_append.mp hs
  rw [hk, h₁.last_eq]

/-- The forward pointer of a node is the node after it. -/
theorem Seg.nx_eq {l₁ l₂ : List Int} {p h b t e : Int}
    (hs : Seg nx pv h b (l₁ ++ p :: l₂) t e) : nx p = l₂.headD t := by
  obtain ⟨m, k, -, -, -, h₂⟩ := seg_append.mp hs
  exact h₂.head_eq

theorem Seg.pv_mem_or {l₁ l₂ : List Int} {p h b t e : Int}
    (hs : Seg nx pv h b (l₁ ++ p :: l₂) t e) : pv p = b ∨ pv p ∈ l₁ := by
  obtain ⟨m, k, h₁, -, hk, -⟩ := seg_append.mp hs
  rw [hk]
  exact h₁.last_mem_or

theorem Seg.nx_mem_or {l₁ l₂ : List Int} {p h b t e : Int}
    (hs : Seg nx pv h b (l₁ ++ p :: l₂) t e) : nx p = t ∨ nx p ∈ l₂ := by
  obtain ⟨m, k, -, -, -, h₂⟩ := seg_append.mp hs
  exact h₂.head_mem_or

theorem Seg.pv_eq_back_iff {l₁ l₂ : List Int} {p h b t e : Int}
    (hs : Seg nx pv h b (l₁ ++ p :: l₂) t e) (hb : b ∉ l₁) : pv p = b ↔ l₁ = [] := by
  obtain ⟨m, k, h₁, -, hk, -⟩ := seg_append.mp hs
  rw [hk]
  exact h₁.last_eq_back_iff hb

theorem Seg.nx_eq_target_iff {l₁ l₂ : List Int} {p h b t e : Int}
    (hs : Seg nx pv h b (l₁ ++ p :: l₂) t e) (ht : t ∉ l₂) : nx p = t ↔ l₂ = [] := by
  obtain ⟨m, k, -, -, -, h₂⟩ := seg_append.mp hs
  exact h₂.head_eq_target_iff ht

/-- Inside a list the back pointers are the inverse of the forward pointers. -/
theorem Seg.nx_eq_iff_pv_eq {l : List Int} {h b t e p q : Int} (hs : Seg nx pv h b l t e)
    (hb : b ∉ l) (ht : t ∉ l) (hp : p ∈ l) (hq : q ∈ l) : nx p = q ↔ pv q = p := by
  constructor
  · intro hpq
    obtain ⟨l₁, l₂, rfl⟩ := List.append_of_mem hp
    -- the last node points out of the list, any other one to its successor
    cases l₂ with
    | nil =>
      rw [hs.nx_eq, List.headD_nil] at hpq
      exact absurd (hpq ▸ hq) ht
    | cons r l₂ =>
      obtain rfl : r = q := hs.nx_eq.symm.trans hpq
      rw [show l₁ ++ p :: r :: l₂ = (l₁ ++ [p]) ++ r :: l₂ by simp] at hs
      rw [hs.pv_eq, List.getLastD_concat]
  · intro hqp
    obtain ⟨l₁, l₂, rfl⟩ := List.append_of_mem hq
    -- the first node points back out of the list, any other one to its predecessor
    rcases List.eq_nil_or_concat' l₁ with rfl | ⟨l₀, r, rfl⟩
    · rw [hs.pv_eq, List.getLastD_nil] at hqp
      exact absurd (hqp ▸ hp) hb
    · rw [hs.pv_eq, List.getLastD_concat] at hqp
      subst hqp
      rw [List.append_assoc, List.singleton_append] at hs
      rw [hs.nx_eq, List.headD_cons]

/-- No node points to itself. -/
theorem Seg.nx_ne_self {l : List Int} {h b t e p : Int} (hs : Seg nx pv h b l t e) (hnd : l.Nodup)
    (ht : t ∉ l) (hp : p ∈ l) : nx p ≠ p := by
  obtain ⟨l₁, l₂, rfl⟩ := List.append_of_mem hp
  intro he
  rcases hs.nx_mem_or with h | h
  · exact ht (by rw [← h, he]; simp)
  · exact (List.nodup_cons.mp hnd.of_append_right).1 (he ▸ h)

/-- Renaming the nodes of a segment. -/
theorem Seg.map {l : List Int} {h b t e : Int} (hs : Seg nx pv h b l t e)
    (nx' pv' ρ : Int → Int) (hnx : ∀ q ∈ l, nx' (ρ q) = ρ (nx q))
    (hpv : ∀ q ∈ l, pv' (ρ q) = ρ (pv q)) :
    Seg nx' pv' (ρ h) (ρ b) (l.map ρ) (ρ t) (ρ e) := by
  induction l generalizing h b with
  | nil => exact ⟨congrArg ρ hs.1, congrArg ρ hs.2⟩
  | cons p l ih =>
    obtain ⟨rfl, rfl, hs⟩ := hs
    refine ⟨rfl, hpv h (by simp), ?_⟩
    rw [hnx h (by simp)]
    exact ih hs (fun q hq => hnx q (by simp [hq])) fun q hq => hpv q (by simp [hq])

/-- Redirecting the last `nx` of a segment. -/
theorem Seg.retarget {l : List Int} {h b t e t' : Int} (hs : Seg nx pv h b l t e)
    (hnd : l.Nodup) (hnx : ∀ q ∈ l, nx' q = if q = e then t' else nx q)
    (hpv : ∀ q ∈ l, pv' q = pv q) :
    Seg nx' pv' (if l = [] then t' else h) b l t' e := by
  induction l generalizing h b with
  | nil => exact ⟨rfl, hs.2⟩
  | cons p l ih =>
    obtain ⟨hh, hb, hs⟩ := hs
    have hpl : p ∉ l := (List.nodup_cons.mp hnd).1
    have hrec := ih hs (List.nodup_cons.mp hnd).2 (fun q hq => hnx q (by simp [hq]))
      (fun q hq => hpv q (by simp [hq]))
    refine ⟨by simpa using hh, (hpv p (by simp)).trans hb, ?_⟩
    rw [hnx p (by simp)]
    -- only the last node is redirected, and it is not among the nodes before it
    by_cases hl : l = []
    · subst hl
      rw [if_pos hs.2]
      exact ⟨rfl, hs.2⟩
    · rw [if_neg hl] at hrec
      rwa [if_neg]
      intro hpe
      exact hpl (hpe ▸ hs.last_mem hl)

/-- Redirecting the first `pv` of a segment. -/
theorem Seg.rehead {l : List Int} {h b t e : Int} (hs : Seg nx pv h b l t e) (nx' pv' : Int → Int)
    (b' : Int) (hnd : l.Nodup) (hnx : ∀ q ∈ l, nx' q = nx q)
    (hpv : ∀ q ∈ l, pv' q = if q = h then b' else pv q) :
    Seg nx' pv' h b' l t (if l = [] then b' else e) := by
  cases l with
  | nil => exact ⟨hs.1, rfl⟩
  | cons p l =>
    obtain ⟨hh, hb, hs⟩ := hs
    have hpl : p ∉ l := (List.nodup_cons.mp hnd).1
    refine ⟨hh, by rw [hpv p (by simp), if_pos hh.symm], ?_⟩
    rw [hnx p (by simp), if_neg (by simp)]
    refine hs.congr (fun q hq => hnx q (by simp [hq])) fun q hq => ?_
    rw [hpv q (by simp [hq]), if_neg]
    intro hqh
    exact hpl (hh ▸ hqh ▸ hq)

/-- The node after a seam is not before it. -/
theorem Seg.head_notMem_left {l₁ l₂ : List Int} {m k t e : Int} (h₂ : Seg nx pv m k l₂ t e)
    (hnd : (l₁ ++ l₂).Nodup) (ht : t ∉ l₁ ++ l₂) : m ∉ l₁ := by
  intro hm
  rcases h₂.head_mem_or with rfl | hml
  · exact ht (List.mem_append_left _ hm)
  · exact (List.nodup_append.mp hnd).2.2 m hm m hml rfl

/-- The node before a seam is not after it. -/
theorem Seg.last_notMem_right {l₁ l₂ : List Int} {h b m k : Int} (h₁ : Seg nx pv h b l₁ m k)
    (hnd : (l₁ ++ l₂).Nodup) (hb : b ∉ l₁ ++ l₂) : k ∉ l₂ := by
  intro hk
  rcases h₁.last_mem_or with rfl | hkl
  · exact hb (List.mem_append_right _ hk)
  · exact (List.nodup_append.mp hnd).2.2 k hkl k hk rfl

/-- Both pointers over a seam are redirected: the last `nx` of the first segment to `m'`, the
first `pv` of the second one to `k'`. -/
theorem Seg.reseam {l₁ l₂ : List Int} {h b m k t e m' k' : Int} (h₁ : Seg nx pv h b l₁ m k)
    {m₂ k₂ : Int} (h₂ : Seg nx pv m₂ k₂ l₂ t e) (hnd : (l₁ ++ l₂).Nodup) (hb : b ∉ l₁ ++ l₂)
    (ht : t ∉ l₁ ++ l₂) (hnx : ∀ q ∈ l₁ ++ l₂, nx' q = if q = k then m' else nx q)
    (hpv : ∀ q ∈ l₁ ++ l₂, pv' q = if q = m₂ then k' else pv q) :
    Seg nx' pv' (if k = b then m' else h) b l₁ m' k ∧
      Seg nx' pv' m₂ k' l₂ t (if m₂ = t then k' else e) := by
  have hb₁ : b ∉ l₁ := fun hm => hb (List.mem_append_left _ hm)
  have ht₂ : t ∉ l₂ := fun hm => ht (List.mem_append_right _ hm)
  -- whether a side is empty can be seen from its pointer over the seam
  simp only [h₁.last_eq_back_iff hb₁, h₂.head_eq_target_iff ht₂]
  constructor
  · refine h₁.retarget hnd.of_append_left (fun q hq => hnx q (List.mem_append_left _ hq))
      fun q hq => ?_
    rw [hpv q (List.mem_append_left _ hq),
      if_neg (ne_of_mem_of_not_mem hq (h₂.head_notMem_left hnd ht))]
  · refine h₂.rehead _ _ _ hnd.of_append_right (fun q hq => ?_)
      fun q hq => hpv q (List.mem_append_right _ hq)
    rw [hnx q (List.mem_append_right _ hq),
      if_neg (ne_of_mem_of_not_mem hq (h₁.last_notMem_right hnd hb))]

/-- Unlinking the node `p` between two segments: the node before it skips it forwards and the
node after it skips it backwards.  With no node before, the head pointer skips it instead. -/
theorem Seg.unlink {l₁ l₂ : List Int} {p h b t e : Int}
    (hs : Seg nx pv h b (l₁ ++ p :: l₂) t e) (nx' pv' : Int → Int) (hnd : (l₁ ++ p :: l₂).Nodup)
    (hb : b ∉ l₁ ++ l₂) (ht : t ∉ l₁ ++ l₂)
    (hnx : ∀ q ∈ l₁ ++ l₂, nx' q = if q = pv p then nx p else nx q)
    (hpv : ∀ q ∈ l₁ ++ l₂, pv' q = if q = nx p then pv p else pv q) :
    Seg nx' pv' (if pv p = b then nx p else h) b (l₁ ++ l₂) t (if nx p = t then pv p else e) := by
  -- the two sides of `p` meet in one seam
  obtain ⟨m, k, h₁, rfl, rfl, h₂⟩ := seg_append.mp hs
  have hnd' : (l₁ ++ l₂).Nodup := (List.nodup_cons.mp (List.nodup_middle.mp hnd)).2
  exact seg_append.mpr ⟨_, _, h₁.reseam h₂ hnd' hb ht hnx hpv⟩

/-- Linking a fresh node `p` between two segments: the node before it points forwards to it and
the node after it backwards. -/
theorem Seg.link {l₁ l₂ : List Int} {p h b m k t e : Int} (h₁ : Seg nx pv h b l₁ m k)
    (h₂ : Seg nx pv m k l₂ t e) (nx' pv' : Int → Int) (hnd : (l₁ ++ l₂).Nodup)
    (hb : b ∉ l₁ ++ l₂) (ht : t ∉ l₁ ++ l₂) (hpn : nx' p = m) (hpp : pv' p = k)
    (hnx : ∀ q ∈ l₁ ++ l₂, nx' q = if q = k then p else nx q)
    (hpv : ∀ q ∈ l₁ ++ l₂, pv' q = if q = m then p else pv q) :
    Seg nx' pv' (if k = b then p else h) b (l₁ ++ p :: l₂) t (if m = t then p else e) := by
  obtain ⟨h₁', h₂'⟩ := h₁.reseam h₂ hnd hb ht hnx hpv
  refine seg_append.mpr ⟨p, k, h₁', rfl, hpp, ?_⟩
  rw [hpn]
  exact h₂'

/-- The singly linked list of nodes that `nx` visits from `h` up to the null pointer `-1`. -/
def Path (nx : Int → Int) : Int → List Int → Prop
  | h, [] => h = -1
  | h, p :: l => h = p ∧ Path nx (nx p) l

@[simp] theorem path_nil {h : Int} : Path nx h [] ↔ h = -1 := Iff.rfl

@[simp] theorem path_cons {h p : Int} {l : List Int} :
    Path nx h (p :: l) ↔ h = p ∧ Path nx (nx p) l := Iff.rfl

theorem Path.congr {l : List Int} {h : Int} (hp : Path nx h l) (hnx : ∀ q ∈ l, nx' q = nx q) :
    Path nx' h l := by
  induction l generalizing h with
  | nil => exact hp
  | cons p l ih =>
    refine ⟨hp.1, ?_⟩
    rw [hnx p (by simp)]
    exact ih hp.2 fun q hq => hnx q (by simp [hq])

end Chain

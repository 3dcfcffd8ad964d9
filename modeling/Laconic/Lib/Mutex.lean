import Mathlib.Algebra.BigOperators.Group.Finset.Piecewise
import Mathlib.Algebra.Order.BigOperators.Group.Finset
import Mathlib.Data.Fintype.BigOperators
import Mathlib.Logic.Function.Basic
import Laconic.Lib.Checked

/-!
# Threads with one mutex

Every thread first computes something on its own, then takes the mutex, acts on the shared state, and
gives the mutex back.  The actions of one such section may themselves be done in any order, and commute.
A run of the threads has the outcome of the sections done one after the other, in the order in which the
threads took the mutex.
-/

namespace Mutex

variable {ι κ σ τ : Type}

/-- What the threads do: thread `i` computes `prepare i`; a section does `act` for every key. -/
structure Job (ι κ σ τ : Type) where
  prepare : ι → Run τ
  keys : List κ
  act : τ → κ → σ → Run σ

/-- The actions of a section for some of the keys, in this order. -/
def Job.critical (job : Job ι κ σ τ) (x : τ) (ks : List κ) (s : σ) : Run σ :=
  ks.foldlM (fun s k => job.act x k s) s

/-- One thread after the other. -/
def Job.serial (job : Job ι κ σ τ) (order : List ι) (s : σ) : Run σ :=
  order.foldlM (fun s i => do
    let x ← job.prepare i
    job.critical x job.keys s) s

/-- Where a thread is; inside its section some keys are left. -/
inductive Phase (κ τ : Type) where
  | start
  | waiting (x : τ)
  | inside (x : τ) (todo : List κ)
  | finished

structure Config (ι κ σ τ : Type) where
  shared : σ
  holder : Option ι
  phase : ι → Phase κ τ

/-- No thread has begun. -/
def Config.init (s : σ) : Config ι κ σ τ := ⟨s, none, fun _ => .start⟩

/-- All threads have returned. -/
def Config.final (s : σ) : Config ι κ σ τ := ⟨s, none, fun _ => .finished⟩

variable [DecidableEq ι] [DecidableEq κ]

inductive Step (job : Job ι κ σ τ) : Config ι κ σ τ → Config ι κ σ τ → Prop
  | prepare {s : σ} {h : Option ι} {p : ι → Phase κ τ} {x : τ} (i : ι) (hp : p i = .start)
      (hx : job.prepare i = .ok x) : Step job ⟨s, h, p⟩ ⟨s, h, Function.update p i (.waiting x)⟩
  | lock {s : σ} {p : ι → Phase κ τ} {x : τ} (i : ι) (hp : p i = .waiting x) :
      Step job ⟨s, none, p⟩ ⟨s, some i, Function.update p i (.inside x job.keys)⟩
  | act {s s' : σ} {h : Option ι} {p : ι → Phase κ τ} {x : τ} {todo : List κ} (i : ι) (k : κ)
      (hp : p i = .inside x todo) (hk : k ∈ todo) (hs : job.act x k s = .ok s') :
      Step job ⟨s, h, p⟩ ⟨s', h, Function.update p i (.inside x (todo.erase k))⟩
  | unlock {s : σ} {h : Option ι} {p : ι → Phase κ τ} {x : τ} (i : ι) (hp : p i = .inside x []) :
      Step job ⟨s, h, p⟩ ⟨s, none, Function.update p i .finished⟩

/-- A run of `n` steps. -/
inductive Steps (job : Job ι κ σ τ) : Nat → Config ι κ σ τ → Config ι κ σ τ → Prop
  | refl {c : Config ι κ σ τ} : Steps job 0 c c
  | tail {n : Nat} {c c' c'' : Config ι κ σ τ} :
      Steps job n c c' → Step job c' c'' → Steps job (n + 1) c c''

theorem Steps.trans {job : Job ι κ σ τ} {n m : Nat} {c c' c'' : Config ι κ σ τ}
    (h : Steps job n c c') (h' : Steps job m c' c'') : Steps job (n + m) c c'' := by
  induction h' with
  | refl => exact h
  | tail _ hstep ih => exact (ih h).tail hstep

/-- The threads can all return and leave `s`. -/
def Returns (job : Job ι κ σ τ) (s₀ s : σ) : Prop :=
  ∃ n, Steps job n (Config.init s₀) (Config.final s)

/-- The actions of a section do not depend on their order. -/
def Job.Commutes (job : Job ι κ σ τ) : Prop :=
  ∀ x k l s, k ≠ l → (job.act x k s >>= job.act x l) = (job.act x l s >>= job.act x k)

variable {job : Job ι κ σ τ}

omit [DecidableEq ι] [DecidableEq κ] in
theorem Job.critical_append (x : τ) (ks ls : List κ) (s : σ) :
    job.critical x (ks ++ ls) s = (job.critical x ks s >>= job.critical x ls) :=
  List.foldlM_append

omit [DecidableEq ι] in
theorem Job.Commutes.critical_perm (h : job.Commutes) (x : τ) {ks ls : List κ} (hp : ks.Perm ls)
    (s : σ) : job.critical x ks s = job.critical x ls s := by
  unfold Job.critical
  induction hp generalizing s with
  | nil => rfl
  | cons k _ ih =>
    rw [List.foldlM_cons, List.foldlM_cons]
    exact congrArg _ (funext ih)
  | swap k l ks =>
    rw [List.foldlM_cons, List.foldlM_cons]
    simp only [List.foldlM_cons]
    by_cases hkl : k = l
    · rw [hkl]
    · rw [← bind_assoc, ← bind_assoc, h x l k s (Ne.symm hkl)]
  | trans _ _ ih ih' => exact (ih s).trans (ih' s)

omit [DecidableEq ι] [DecidableEq κ] in
theorem Job.serial_append_singleton (order : List ι) (i : ι) (s : σ) :
    job.serial (order ++ [i]) s =
      (job.serial order s >>= fun s => job.prepare i >>= fun x => job.critical x job.keys s) := by
  unfold Job.serial
  rw [List.foldlM_append]
  simp only [List.foldlM_cons, List.foldlM_nil, bind_pure]

/-! ## Every run is a serial one -/

section Serial

variable {s₀ : σ}

/-- The threads that have returned did so in the order `order`; if a thread is inside, it has done a
part of its section after them. -/
structure Linear (job : Job ι κ σ τ) (s₀ : σ) (order : List ι) (c : Config ι κ σ τ) : Prop where
  nodup : order.Nodup
  finished : ∀ i, c.phase i = .finished ↔ i ∈ order
  waiting : ∀ i x, c.phase i = .waiting x → job.prepare i = .ok x
  inside : ∀ i x todo, c.phase i = .inside x todo → c.holder = some i
  free : c.holder = none → job.serial order s₀ = .ok c.shared
  held : ∀ i, c.holder = some i → ∃ x todo ks s, c.phase i = .inside x todo ∧
    job.prepare i = .ok x ∧ (ks ++ todo).Perm job.keys ∧ job.serial order s₀ = .ok s ∧
    job.critical x ks s = .ok c.shared

omit [DecidableEq ι] [DecidableEq κ] in
theorem linear_init : Linear job s₀ [] (Config.init s₀) := by
  refine ⟨List.nodup_nil, fun i => ?_, fun i x h => ?_, fun i x todo h => ?_, fun _ => rfl,
    fun i h => ?_⟩
  · constructor
    · intro h
      cases h
    · intro h
      cases h
  · cases h
  · cases h
  · cases h

omit [DecidableEq κ] in
/-- Where the threads are after one of them has gone on. -/
theorem update_eq_iff {p : ι → Phase κ τ} {i j : ι} {q r : Phase κ τ} :
    Function.update p i q j = r ↔ (j = i ∧ q = r) ∨ (j ≠ i ∧ p j = r) := by
  by_cases hj : j = i
  · subst hj
    rw [Function.update_self]
    simp
  · rw [Function.update_of_ne hj]
    simp [hj]

omit [DecidableEq κ] in
theorem finished_update {p : ι → Phase κ τ} {i : ι} {q r : Phase κ τ} (hp : p i = r)
    (hr : r ≠ .finished) (hq : q ≠ .finished) (j : ι) :
    Function.update p i q j = .finished ↔ p j = .finished := by
  rw [update_eq_iff]
  constructor
  · rintro (⟨-, h⟩ | ⟨-, h⟩)
    · exact absurd h hq
    · exact h
  · intro h
    refine .inr ⟨?_, h⟩
    rintro rfl
    exact hr (hp.symm.trans h)

/-- Whatever a step does, there is an order again. -/
theorem Linear.step (hcomm : job.Commutes) {order : List ι} {c c' : Config ι κ σ τ}
    (h : Linear job s₀ order c) (hs : Step job c c') : ∃ order', Linear job s₀ order' c' := by
  cases hs with
  | @prepare s hold p x i hp hx =>
    refine ⟨order, h.nodup, fun j => ?_, fun j y hj => ?_, fun j y todo hj => ?_, h.free,
      fun j hj => ?_⟩
    · rw [← h.finished j]
      exact finished_update hp (by nofun) (by nofun) j
    · rcases update_eq_iff.mp hj with ⟨rfl, hq⟩ | ⟨-, hj⟩
      · cases hq
        exact hx
      · exact h.waiting j y hj
    · rcases update_eq_iff.mp hj with ⟨-, hq⟩ | ⟨-, hj⟩
      · cases hq
      · exact h.inside j y todo hj
    · obtain ⟨y, todo, ks, t, hin, hrest⟩ := h.held j hj
      refine ⟨y, todo, ks, t, update_eq_iff.mpr (.inr ⟨?_, hin⟩), hrest⟩
      rintro rfl
      have hin' : p j = .inside y todo := hin
      rw [hp] at hin'
      cases hin'
  | @lock s p x i hp =>
    refine ⟨order, h.nodup, fun j => ?_, fun j y hj => ?_, fun j y todo hj => ?_, fun hn => ?_,
      fun j hj => ?_⟩
    · rw [← h.finished j]
      exact finished_update hp (by nofun) (by nofun) j
    · rcases update_eq_iff.mp hj with ⟨-, hq⟩ | ⟨-, hj⟩
      · cases hq
      · exact h.waiting j y hj
    · rcases update_eq_iff.mp hj with ⟨rfl, -⟩ | ⟨-, hj⟩
      · rfl
      · -- nobody was inside
        have hnone : (none : Option ι) = some j := h.inside j y todo hj
        cases hnone
    · cases hn
    · obtain rfl : i = j := Option.some.inj hj
      exact ⟨x, job.keys, [], s, Function.update_self .., h.waiting i x hp, .refl _, h.free rfl, rfl⟩
  | @act s s' hold p x todo i k hp hk hact =>
    have hhold : hold = some i := h.inside i x todo hp
    refine ⟨order, h.nodup, fun j => ?_, fun j y hj => ?_, fun j y todo' hj => ?_, fun hn => ?_,
      fun j hj => ?_⟩
    · rw [← h.finished j]
      exact finished_update hp (by nofun) (by nofun) j
    · rcases update_eq_iff.mp hj with ⟨-, hq⟩ | ⟨-, hj⟩
      · cases hq
      · exact h.waiting j y hj
    · rcases update_eq_iff.mp hj with ⟨rfl, -⟩ | ⟨-, hj⟩
      · exact hhold
      · exact h.inside j y todo' hj
    · have hnone : hold = none := hn
      rw [hhold] at hnone
      cases hnone
    · have hj' : hold = some j := hj
      obtain rfl : i = j := Option.some.inj (hhold.symm.trans hj')
      obtain ⟨y, todo', ks, t, hin, hy, hperm, hserial, hcrit⟩ := h.held i hhold
      have hin' : p i = .inside y todo' := hin
      rw [hp] at hin'
      cases hin'
      refine ⟨x, todo.erase k, ks ++ [k], t, Function.update_self .., hy, ?_, hserial, ?_⟩
      · rw [List.append_assoc]
        exact ((List.perm_cons_erase hk).symm.append_left ks).trans hperm
      · show job.critical x (ks ++ [k]) t = .ok s'
        have hcrit' : job.critical x ks t = .ok s := hcrit
        rw [Job.critical_append, hcrit', Run.ok_bind]
        unfold Job.critical
        rw [List.foldlM_cons, hact]
        rfl
  | @unlock s hold p x i hp =>
    have hfin : ∀ j, p j = .finished ↔ j ∈ order := h.finished
    have hhold : hold = some i := h.inside i x [] hp
    have hnew : i ∉ order := by
      intro hi
      have hi' := (hfin i).mpr hi
      rw [hp] at hi'
      cases hi'
    refine ⟨order ++ [i], ?_, fun j => ?_, fun j y hj => ?_, fun j y todo hj => ?_, fun _ => ?_,
      fun j hj => ?_⟩
    · exact List.nodup_append.mpr ⟨h.nodup, List.nodup_singleton i, by
        rintro a ha b hb rfl
        exact hnew (List.mem_singleton.mp hb ▸ ha)⟩
    · rw [List.mem_append, List.mem_singleton, ← hfin j, update_eq_iff]
      by_cases hji : j = i
      · simp [hji]
      · simp [hji]
    · rcases update_eq_iff.mp hj with ⟨-, hq⟩ | ⟨-, hj⟩
      · cases hq
      · exact h.waiting j y hj
    · rcases update_eq_iff.mp hj with ⟨-, hq⟩ | ⟨hne, hj⟩
      · cases hq
      · -- only one thread was inside
        have hj' : hold = some j := h.inside j y todo hj
        exact absurd (Option.some.inj (hj'.symm.trans hhold)) hne
    · obtain ⟨y, todo, ks, t, hin, hy, hperm, hserial, hcrit⟩ := h.held i hhold
      have hin' : p i = .inside y todo := hin
      rw [hp] at hin'
      cases hin'
      rw [List.append_nil] at hperm
      have hcrit' : job.critical x ks t = .ok s := hcrit
      rw [Job.serial_append_singleton, hserial, Run.ok_bind, hy, Run.ok_bind,
        ← hcomm.critical_perm x hperm t, hcrit']
    · cases hj

theorem linear_steps (hcomm : job.Commutes) {n : Nat} {c : Config ι κ σ τ}
    (hs : Steps job n (Config.init s₀) c) : ∃ order, Linear job s₀ order c := by
  generalize hc : Config.init s₀ = c₀ at hs
  induction hs with
  | refl => exact ⟨[], hc ▸ linear_init⟩
  | tail _ hstep ih =>
    obtain ⟨order, horder⟩ := ih hc
    exact horder.step hcomm hstep

end Serial

/-! ## Every serial run is one of the runs -/

section Realise

/-- A thread inside its section does what is left, in the order of the keys. -/
theorem steps_inside {s s' : σ} {h : Option ι} {p : ι → Phase κ τ} {x : τ} {i : ι} (todo : List κ)
    (hp : p i = .inside x todo) (hs : job.critical x todo s = .ok s') :
    ∃ n, Steps job n ⟨s, h, p⟩ ⟨s', h, Function.update p i (.inside x [])⟩ := by
  induction todo generalizing s p with
  | nil =>
    obtain rfl : s = s' := Except.ok.inj hs
    rw [← hp, Function.update_eq_self]
    exact ⟨0, .refl⟩
  | cons k todo ih =>
    unfold Job.critical at hs
    rw [List.foldlM_cons, Run.bind_eq_ok] at hs
    obtain ⟨s₁, hact, hrest⟩ := hs
    have hstep : Step job ⟨s, h, p⟩ ⟨s₁, h, Function.update p i (.inside x ((k :: todo).erase k))⟩ :=
      .act i k hp List.mem_cons_self hact
    rw [List.erase_cons_head] at hstep
    obtain ⟨n, hn⟩ := ih (p := Function.update p i (.inside x todo)) (Function.update_self ..) hrest
    rw [Function.update_idem] at hn
    exact ⟨1 + n, (Steps.refl.tail hstep).trans hn⟩

/-- A thread that has not begun does all it has to do. -/
theorem steps_thread {s s' : σ} {p : ι → Phase κ τ} {x : τ} {i : ι} (hp : p i = .start)
    (hx : job.prepare i = .ok x) (hs : job.critical x job.keys s = .ok s') :
    ∃ n, Steps job n ⟨s, none, p⟩ ⟨s', none, Function.update p i .finished⟩ := by
  have hprepare : Step job ⟨s, none, p⟩ ⟨s, none, Function.update p i (.waiting x)⟩ :=
    .prepare i hp hx
  have hlock : Step job ⟨s, none, Function.update p i (.waiting x)⟩
      ⟨s, some i, Function.update (Function.update p i (.waiting x)) i (.inside x job.keys)⟩ :=
    .lock i (Function.update_self ..)
  rw [Function.update_idem] at hlock
  obtain ⟨n, hn⟩ := steps_inside (h := some i) (p := Function.update p i (.inside x job.keys))
    job.keys (Function.update_self ..) hs
  rw [Function.update_idem] at hn
  have hunlock : Step job ⟨s', some i, Function.update p i (.inside x [])⟩
      ⟨s', none, Function.update (Function.update p i (.inside x [])) i .finished⟩ :=
    .unlock i (Function.update_self ..)
  rw [Function.update_idem] at hunlock
  exact ⟨_, (((Steps.refl.tail hprepare).tail hlock).trans hn).tail hunlock⟩

/-- The threads of `order` do what they have to do, one after the other. -/
theorem steps_serial {s s' : σ} {p : ι → Phase κ τ} (order : List ι) (hnodup : order.Nodup)
    (hstart : ∀ i ∈ order, p i = .start) (hs : job.serial order s = .ok s') :
    ∃ n, Steps job n ⟨s, none, p⟩
      ⟨s', none, fun i => if i ∈ order then .finished else p i⟩ := by
  induction order generalizing s p with
  | nil =>
    obtain rfl : s = s' := Except.ok.inj hs
    exact ⟨0, .refl⟩
  | cons i order ih =>
    unfold Job.serial at hs
    rw [List.foldlM_cons, Run.bind_eq_ok] at hs
    obtain ⟨s₁, hthread, hrest⟩ := hs
    rw [Run.bind_eq_ok] at hthread
    obtain ⟨x, hx, hcrit⟩ := hthread
    obtain ⟨n, hn⟩ := steps_thread (hstart i List.mem_cons_self) hx hcrit
    obtain ⟨hi, hnodup'⟩ := List.nodup_cons.mp hnodup
    have hstart' : ∀ j ∈ order, Function.update p i .finished j = .start := by
      intro j hj
      rw [Function.update_of_ne (by rintro rfl; exact hi hj)]
      exact hstart j (List.mem_cons_of_mem i hj)
    obtain ⟨m, hm⟩ := ih hnodup' hstart' hrest
    have hlast : (fun j => if j ∈ order then Phase.finished else Function.update p i .finished j) =
        fun j => if j ∈ i :: order then .finished else p j := by
      funext j
      by_cases hj : j = i
      · subst hj
        simp
      · simp [hj]
    rw [hlast] at hm
    exact ⟨n + m, hn.trans hm⟩

/-- The outcomes of the threads are the outcomes of the orders. -/
theorem returns_iff (hcomm : job.Commutes) {s₀ s : σ} :
    Returns job s₀ s ↔ ∃ order : List ι, order.Nodup ∧ (∀ i, i ∈ order) ∧
      job.serial order s₀ = .ok s := by
  constructor
  · rintro ⟨n, hn⟩
    obtain ⟨order, horder⟩ := linear_steps hcomm hn
    exact ⟨order, horder.nodup, fun i => (horder.finished i).mp rfl, horder.free rfl⟩
  · rintro ⟨order, hnodup, hall, hs⟩
    obtain ⟨n, hn⟩ := steps_serial (p := fun _ => .start) order hnodup (fun _ _ => rfl) hs
    have hlast : (fun i => if i ∈ order then Phase.finished else (Phase.start : Phase κ τ)) =
        fun _ => .finished := by
      funext i
      rw [if_pos (hall i)]
    rw [hlast] at hn
    exact ⟨n, hn⟩

end Realise

/-! ## Progress -/

section Progress

/-- The steps that a thread has before it. -/
def Job.left (job : Job ι κ σ τ) : Phase κ τ → Nat
  | .start => job.keys.length + 3
  | .waiting _ => job.keys.length + 2
  | .inside _ todo => todo.length + 1
  | .finished => 0

omit [DecidableEq κ] in
theorem sum_update [Fintype ι] (p : ι → Phase κ τ) (i : ι) (q : Phase κ τ) (f : Phase κ τ → Nat) :
    f q + ∑ j, f (p j) = f (p i) + ∑ j, f (Function.update p i q j) := by
  have hsum : ∑ j, f (Function.update p i q j) = f q + ∑ j ∈ Finset.univ \ {i}, f (p j) := by
    rw [show (fun j => f (Function.update p i q j)) = Function.update (fun j => f (p j)) i (f q) from
      (Function.comp_update f p i q)]
    exact Finset.sum_update_of_mem (Finset.mem_univ i) _ _
  have hsplit := Finset.sum_erase_add Finset.univ (fun j => f (p j)) (Finset.mem_univ i)
  rw [← Finset.sdiff_singleton_eq_erase] at hsplit
  omega

/-- Every step is one of those that are left. -/
theorem sum_left_step [Fintype ι] {c c' : Config ι κ σ τ} (hs : Step job c c') :
    ∑ i, job.left (c.phase i) = 1 + ∑ i, job.left (c'.phase i) := by
  cases hs with
  | @prepare s h p x i hp hx =>
    have hsum : job.keys.length + 2 + ∑ j, job.left (p j) = _ :=
      sum_update p i (.waiting x) job.left
    rw [hp, show job.left .start = job.keys.length + 3 from rfl] at hsum
    dsimp only
    omega
  | @lock s p x i hp =>
    have hsum : job.keys.length + 1 + ∑ j, job.left (p j) = _ :=
      sum_update p i (.inside x job.keys) job.left
    rw [hp, show job.left (.waiting x) = job.keys.length + 2 from rfl] at hsum
    dsimp only
    omega
  | @act s s' h p x todo i k hp hk hact =>
    have hsum : (todo.erase k).length + 1 + ∑ j, job.left (p j) = _ :=
      sum_update p i (.inside x (todo.erase k)) job.left
    rw [hp, show job.left (.inside x todo) = todo.length + 1 from rfl] at hsum
    have hlen := List.length_erase_of_mem hk
    have hpos := List.length_pos_of_mem hk
    dsimp only
    omega
  | @unlock s h p x i hp =>
    have hsum : 0 + ∑ j, job.left (p j) = _ := sum_update p i .finished job.left
    rw [hp, show job.left (.inside x []) = 1 from rfl] at hsum
    dsimp only
    omega

theorem sum_left_steps [Fintype ι] {n : Nat} {c c' : Config ι κ σ τ} (hs : Steps job n c c') :
    ∑ i, job.left (c.phase i) = n + ∑ i, job.left (c'.phase i) := by
  induction hs with
  | refl => exact (Nat.zero_add _).symm
  | tail _ hstep ih =>
    have := sum_left_step hstep
    omega

/-- No run has more steps than this. -/
theorem steps_le [Fintype ι] {n : Nat} {s : σ} {c : Config ι κ σ τ}
    (hs : Steps job n (Config.init s) c) : n ≤ Fintype.card ι * (job.keys.length + 3) := by
  have hsum := sum_left_steps hs
  have hinit : ∑ i : ι, job.left ((Config.init s : Config ι κ σ τ).phase i) =
      Fintype.card ι * (job.keys.length + 3) := by
    exact Finset.sum_const_nat fun _ _ => rfl
  omega

/-- Nothing fails on states with `P`. -/
structure Job.Safe (job : Job ι κ σ τ) (P : σ → Prop) : Prop where
  prepare : ∀ i, ∃ x, job.prepare i = .ok x
  act : ∀ i x k s, job.prepare i = .ok x → k ∈ job.keys → P s → ∃ s', job.act x k s = .ok s' ∧ P s'

variable {P : σ → Prop} {s₀ : σ}

theorem safe_steps (hcomm : job.Commutes) (hsafe : job.Safe P) (h₀ : P s₀) {n : Nat}
    {c : Config ι κ σ τ} (hs : Steps job n (Config.init s₀) c) : P c.shared := by
  generalize hc : Config.init s₀ = c₀ at hs
  induction hs with
  | refl =>
    subst hc
    exact h₀
  | tail hs hstep ih =>
    have hP := ih hc
    obtain ⟨order, horder⟩ := linear_steps hcomm (hc ▸ hs)
    cases hstep with
    | prepare => exact hP
    | lock => exact hP
    | @act s s' hold p x todo i k hp hk hact =>
      obtain ⟨y, todo', ks, t, hin, hy, hperm, -, -⟩ := horder.held i (horder.inside i x todo hp)
      have hin' : p i = .inside y todo' := hin
      rw [hp] at hin'
      cases hin'
      have hmem : k ∈ job.keys := hperm.mem_iff.mp (List.mem_append_right ks hk)
      obtain ⟨s₁, hs₁, hP₁⟩ := hsafe.act i x k s hy hmem hP
      obtain rfl : s₁ = s' := Except.ok.inj (hs₁.symm.trans hact)
      exact hP₁
    | unlock => exact hP

/-- There is no deadlock: a thread can act until all have returned. -/
theorem progress (hcomm : job.Commutes) (hsafe : job.Safe P) (h₀ : P s₀) {n : Nat}
    {c : Config ι κ σ τ} (hs : Steps job n (Config.init s₀) c) :
    c = Config.final c.shared ∨ ∃ c', Step job c c' := by
  obtain ⟨order, horder⟩ := linear_steps hcomm hs
  have hP := safe_steps hcomm hsafe h₀ hs
  obtain ⟨s, hold, p⟩ := c
  cases hold with
  | some i =>
    -- the thread inside goes on
    obtain ⟨x, todo, ks, t, hin, hx, hperm, -, -⟩ := horder.held i rfl
    refine .inr ?_
    cases todo with
    | nil => exact ⟨_, .unlock i hin⟩
    | cons k todo =>
      have hmem : k ∈ job.keys :=
        hperm.mem_iff.mp (List.mem_append_right ks List.mem_cons_self)
      obtain ⟨s', hs', -⟩ := hsafe.act i x k s hx hmem hP
      exact ⟨_, .act i k hin List.mem_cons_self hs'⟩
  | none =>
    by_cases hall : ∀ i, p i = .finished
    · refine .inl ?_
      obtain rfl : p = fun _ => .finished := funext hall
      rfl
    · obtain ⟨i, hi⟩ := not_forall.mp hall
      refine .inr ?_
      cases hp : p i with
      | start =>
        obtain ⟨x, hx⟩ := hsafe.prepare i
        exact ⟨_, .prepare i hp hx⟩
      | waiting x => exact ⟨_, .lock i hp⟩
      | inside x todo =>
        have hnone : (none : Option ι) = some i := horder.inside i x todo hp
        cases hnone
      | finished => exact absurd hp hi

end Progress

end Mutex

import JobPortal.Runs
import Mathlib.Algebra.BigOperators.Group.List.Basic
import Mathlib.Algebra.Order.Ring.Nat

/-! Goroutines that share memory. A step of one of them waits, is done, or panics, and a panic
takes the whole process down. -/
namespace JobPortal.Goroutines

open Runs

inductive Turn (σ : Type*)
  | blocked
  | panicked
  | done (s : σ)
  deriving DecidableEq, Repr

namespace Turn

variable {σ τ : Type*}

def toOption : Turn σ → Option σ
  | .done s => some s
  | _ => none

def map (f : σ → τ) : Turn σ → Turn τ
  | .done s => .done (f s)
  | .blocked => .blocked
  | .panicked => .panicked

/-- A call that panics where it has no result. -/
def orPanic : Option σ → Turn σ
  | some s => .done s
  | none => .panicked

theorem toOption_eq_some {o : Turn σ} {s : σ} : o.toOption = some s ↔ o = .done s := by
  cases o <;> simp [toOption]

theorem map_eq_done {f : σ → τ} {o : Turn σ} {t : τ} :
    o.map f = .done t ↔ ∃ s, o = .done s ∧ f s = t := by
  cases o <;> simp [map]

theorem map_eq_panicked {f : σ → τ} {o : Turn σ} : o.map f = .panicked ↔ o = .panicked := by
  cases o <;> simp [map]

theorem orPanic_eq_done {o : Option σ} {s : σ} : orPanic o = .done s ↔ o = some s := by
  cases o <;> simp [orPanic]

theorem orPanic_eq_panicked {o : Option σ} : orPanic o = .panicked ↔ o = none := by
  cases o <;> simp [orPanic]

end Turn

variable {σ ε α : Type*}

/-- The steps of a process, and nothing once it is down. -/
def crashing (act : σ → ε → Turn σ) : Option σ → ε → Option (Option σ)
  | some s, e =>
    match act s e with
    | .done t => some (some t)
    | .panicked => some none
    | .blocked => none
  | none, _ => none

/-- A process is up as long as no step of it panics. -/
theorem survives_iff_run {act : σ → ε → Turn σ} {ok : σ → ε → Prop}
    (hok : ∀ s e, act s e = .panicked ↔ ¬ ok s e) {s : σ} {t : Option σ} {es : List ε}
    (h : AnyRun (crashing act) (some s) es t) :
    t.isSome ↔ Run (crashing act) (fun s e => ∀ s' ∈ s, ok s' e) (some s) es t := by
  apply holds_iff_run (I := fun t : Option σ => t.isSome) (J := fun _ => True) h trivial rfl
  · exact fun _ _ => trivial
  · intro t u e _ hstep _
    cases t with
    | none => cases hstep
    | some t =>
      simp only [Option.mem_def, Option.some.injEq, forall_eq', Option.isSome_some, true_and]
      simp only [crashing] at hstep
      split at hstep
      · rename_i v hact
        obtain rfl := Option.some.inj hstep
        refine iff_of_true rfl (of_not_not fun hnot => ?_)
        rw [(hok t e).mpr hnot] at hact
        cases hact
      · rename_i hact
        obtain rfl := Option.some.inj hstep
        exact iff_of_false nofun ((hok t e).mp hact)
      · cases hstep

/-- Where there is always a step that leaves less to do, the goal is reached. -/
theorem reaches_of_progress {step : σ → ε → Option σ} {ok : σ → ε → Prop} {I goal : σ → Prop}
    (left : σ → ℕ) (progress : ∀ s, I s → ¬ goal s →
      ∃ e t, ok s e ∧ step s e = some t ∧ I t ∧ left t < left s) {s : σ} (h : I s) :
    ∃ es t, Run step ok s es t ∧ goal t := by
  induction hn : left s using Nat.strongRecOn generalizing s with
  | _ n ih =>
    by_cases hgoal : goal s
    · exact ⟨[], s, .nil, hgoal⟩
    · obtain ⟨e, t, hok, hstep, ht, hlt⟩ := progress s h hgoal
      obtain ⟨es, u, hrun, hu⟩ := ih (left t) (hn ▸ hlt) ht rfl
      exact ⟨[e] ++ es, u, (Run.one hok hstep).append hrun, hu⟩

theorem getElem?_set_eq_some {tasks : List α} {j k : ℕ} {a b c : α} (h : tasks[j]? = some a) :
    (tasks.set j b)[k]? = some c ↔ k = j ∧ c = b ∨ k ≠ j ∧ tasks[k]? = some c := by
  have hlen : j < tasks.length := (List.getElem?_eq_some_iff.mp h).1
  by_cases hk : k = j
  · subst hk
    rw [List.getElem?_set_self hlen, Option.some.injEq]
    exact ⟨fun h => .inl ⟨rfl, h.symm⟩, fun h => (h.resolve_right fun h => h.1 rfl).2.symm⟩
  · rw [List.getElem?_set_ne (Ne.symm hk)]
    exact ⟨fun h => .inr ⟨hk, h⟩, fun h => (h.resolve_left fun h => hk h.1).2⟩

theorem getElem?_concat_eq_some {tasks : List α} {k : ℕ} {a c : α} :
    (tasks ++ [a])[k]? = some c ↔ tasks[k]? = some c ∨ k = tasks.length ∧ c = a := by
  rcases Nat.lt_trichotomy k tasks.length with hk | rfl | hk
  · rw [List.getElem?_append_left hk]
    exact ⟨.inl, fun h => h.resolve_right fun h => Nat.ne_of_lt hk h.1⟩
  · rw [List.getElem?_append_right (Nat.le_refl _), Nat.sub_self,
      List.getElem?_eq_none (Nat.le_refl _)]
    simp [eq_comm]
  · have hlen : (tasks ++ [a]).length ≤ k := by
      rw [List.length_append]
      exact hk
    rw [List.getElem?_eq_none hlen, List.getElem?_eq_none (Nat.le_of_lt hk)]
    simp [Nat.ne_of_gt hk]

theorem getElem?_set_iff {tasks : List α} {p : α → Prop} {j k : ℕ} {a b c : α}
    (h : tasks[j]? = some a) (ha : ¬ p a) (hb : ¬ p b) (hc : p c) :
    (tasks.set j b)[k]? = some c ↔ tasks[k]? = some c := by
  rw [getElem?_set_eq_some h]
  constructor
  · rintro (⟨rfl, rfl⟩ | ⟨_, hk⟩)
    · exact absurd hc hb
    · exact hk
  · intro hk
    refine .inr ⟨?_, hk⟩
    rintro rfl
    rw [h] at hk
    exact ha (Option.some.inj hk ▸ hc)

theorem getElem?_concat_iff {tasks : List α} {p : α → Prop} {k : ℕ} {a c : α} (ha : ¬ p a)
    (hc : p c) : (tasks ++ [a])[k]? = some c ↔ tasks[k]? = some c := by
  rw [getElem?_concat_eq_some]
  exact ⟨fun h => h.resolve_right fun h => ha (h.2 ▸ hc), .inl⟩

theorem exists_split {tasks : List α} {j : ℕ} {a : α} (h : tasks[j]? = some a) :
    ∃ l r, tasks = l ++ a :: r ∧ (∀ b, tasks.set j b = l ++ b :: r) ∧
      tasks.eraseIdx j = l ++ r := by
  obtain ⟨hlt, rfl⟩ := List.getElem?_eq_some_iff.mp h
  refine ⟨tasks.take j, tasks.drop (j + 1), ?_, fun b => ?_, List.eraseIdx_eq_take_drop_succ ..⟩
  · rw [← List.drop_eq_getElem_cons hlt, List.take_append_drop]
  · exact List.set_eq_take_append_cons_drop.trans (if_pos hlt)

/-- What the goroutines have left to do. -/
def work (weight : α → ℕ) (tasks : List α) : ℕ := (tasks.map weight).sum

@[simp] theorem work_cons (weight : α → ℕ) (a : α) (tasks : List α) :
    work weight (a :: tasks) = weight a + work weight tasks := rfl

theorem work_append (weight : α → ℕ) (tasks tasks' : List α) :
    work weight (tasks ++ tasks') = work weight tasks + work weight tasks' := by
  rw [work, List.map_append, List.sum_append, ← work, ← work]

variable {weight : α → ℕ} {tasks : List α} {j : ℕ} {a b : α}

theorem work_set (weight : α → ℕ) (h : tasks[j]? = some a) (b : α) :
    work weight (tasks.set j b) + weight a = work weight tasks + weight b := by
  induction tasks generalizing j with
  | nil => cases h
  | cons c tasks ih =>
    cases j with
    | zero =>
      obtain rfl := Option.some.inj h
      simp only [work, List.set_cons_zero, List.map_cons, List.sum_cons]
      omega
    | succ j =>
      have hrest := ih h
      simp only [work, List.set_cons_succ, List.map_cons, List.sum_cons] at hrest ⊢
      omega

theorem work_set_lt (h : tasks[j]? = some a) (hlt : weight b < weight a) :
    work weight (tasks.set j b) < work weight tasks := by
  have hset := work_set weight h b
  omega

theorem work_eq_zero : work weight tasks = 0 ↔ ∀ a ∈ tasks, weight a = 0 := by
  induction tasks with
  | nil => simp [work]
  | cons c tasks ih =>
    rw [List.forall_mem_cons, ← ih]
    simp only [work, List.map_cons, List.sum_cons]
    omega

theorem work_eraseIdx (weight : α → ℕ) (h : tasks[j]? = some a) :
    work weight (tasks.eraseIdx j) + weight a = work weight tasks := by
  induction tasks generalizing j with
  | nil => cases h
  | cons c tasks ih =>
    cases j with
    | zero =>
      obtain rfl := Option.some.inj h
      simp only [work, List.eraseIdx_cons_zero, List.map_cons, List.sum_cons]
      omega
    | succ j =>
      have hrest := ih h
      simp only [work, List.eraseIdx_cons_succ, List.map_cons, List.sum_cons] at hrest ⊢
      omega

theorem work_eq_iff (weight : α → ℕ) (h : tasks[j]? = some a) :
    work weight tasks = weight a ↔
      ∀ (k : ℕ) (b : α), tasks[k]? = some b → k ≠ j → weight b = 0 := by
  rw [← work_eraseIdx weight h, Nat.add_eq_right, work_eq_zero]
  constructor
  · intro hall k b hk hne
    exact hall b (List.mem_eraseIdx_iff_getElem?.mpr ⟨k, hne, hk⟩)
  · intro hall b hb
    obtain ⟨k, hne, hk⟩ := List.mem_eraseIdx_iff_getElem?.mp hb
    exact hall k b hk hne

end JobPortal.Goroutines

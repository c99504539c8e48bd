import Mathlib.Data.Finset.Piecewise
import Mathlib.Data.List.Basic
import Mathlib.Data.List.Induction
import Mathlib.Data.Option.Basic
import Mathlib.Logic.Function.Basic
import Mathlib.Order.Defs.PartialOrder
import Mathlib.Tactic.SplitIfs

/-! Runs of a partial step function. A step is `none` when its event is not
enabled, and `ok` restricts the steps a run may take, judged in the state
before the step. -/
namespace JobPortal.Runs

variable {σ ε τ δ : Type*}

/-- Runs whose every step meets `ok`. Events are listed in the order they happen. -/
inductive Run (step : σ → ε → Option σ) (ok : σ → ε → Prop) (s : σ) : List ε → σ → Prop
  | nil : Run step ok s [] s
  | snoc {es : List ε} {t u : σ} {e : ε} (prior : Run step ok s es t)
      (meets : ok t e) (enabled : step t e = some u) : Run step ok s (es ++ [e]) u

abbrev AnyRun (step : σ → ε → Option σ) : σ → List ε → σ → Prop := Run step fun _ _ => True

variable {step : σ → ε → Option σ} {ok ok' : σ → ε → Prop} {s t u : σ} {es fs : List ε} {e : ε}

/-- A property that holds at the start and survives every admitted step holds at the end. -/
theorem Run.invariant {I : σ → Prop} (h : Run step ok s es t) (start : I s)
    (keep : ∀ {t u e}, I t → ok t e → step t e = some u → I u) : I t := by
  induction h with
  | nil => exact start
  | snoc _ meets enabled ih => exact keep ih meets enabled

theorem Run.imp (h : Run step ok s es t) (hok : ∀ t e, ok t e → ok' t e) :
    Run step ok' s es t := by
  induction h with
  | nil => exact .nil
  | snoc _ meets enabled ih => exact .snoc ih (hok _ _ meets) enabled

theorem Run.forget (h : Run step ok s es t) : AnyRun step s es t := h.imp fun _ _ _ => trivial

/-- An invariant may be assumed in the state before each step. -/
theorem Run.with_invariant {I : σ → Prop} (h : Run step ok s es t) (start : I s)
    (keep : ∀ {t u e}, I t → ok t e → step t e = some u → I u) :
    Run step (fun t e => ok t e ∧ I t) s es t := by
  induction h with
  | nil => exact .nil
  | snoc prior meets enabled ih => exact .snoc ih ⟨meets, prior.invariant start keep⟩ enabled

theorem Run.append (h : Run step ok s es t) (g : Run step ok t fs u) :
    Run step ok s (es ++ fs) u := by
  induction g with
  | nil => simpa using h
  | snoc _ meets enabled ih => rw [← List.append_assoc]; exact .snoc ih meets enabled

theorem Run.last (h : Run step ok s (es ++ [e]) u) :
    ∃ t, Run step ok s es t ∧ ok t e ∧ step t e = some u := by
  generalize hl : es ++ [e] = l at h
  cases h with
  | nil => simp at hl
  | snoc prior meets enabled =>
    obtain ⟨rfl, hs⟩ := List.append_inj' hl rfl
    obtain rfl := List.singleton_inj.mp hs
    exact ⟨_, prior, meets, enabled⟩

theorem run_nil : Run step ok s [] u ↔ u = s := by
  constructor
  · intro h
    generalize hl : ([] : List ε) = l at h
    cases h with
    | nil => rfl
    | snoc => simp at hl
  · rintro rfl
    exact .nil

/-- Steps are a function, so the events of a run fix the state it reaches. -/
theorem Run.unique (h : Run step ok s es t) (g : Run step ok' s es u) : t = u := by
  induction h generalizing u with
  | nil => exact (run_nil.mp g).symm
  | snoc _ _ enabled ih =>
    obtain ⟨v, hv, _, hstep⟩ := g.last
    obtain rfl := ih hv
    exact Option.some.inj (enabled.symm.trans hstep)

/-- Forward simulation: states and events of one system mapped to another. -/
theorem Run.map {step' : τ → δ → Option τ} {ok' : τ → δ → Prop} (f : σ → τ)
    (h : Run step ok s es t)
    (sim : ∀ {t u e}, ok t e → step t e = some u →
      ∃ ds, Run step' ok' (f t) ds (f u)) :
    ∃ ds, Run step' ok' (f s) ds (f t) := by
  induction h with
  | nil => exact ⟨[], .nil⟩
  | snoc _ meets enabled ih =>
    obtain ⟨ds, hds⟩ := ih
    obtain ⟨ds', hds'⟩ := sim meets enabled
    exact ⟨ds ++ ds', hds.append hds'⟩

theorem Run.mem (h : Run step ok s es t) : Run step (fun t e => ok t e ∧ e ∈ es) s es t := by
  induction h with
  | nil => exact .nil
  | @snoc es t u e _ meets enabled ih =>
    refine .snoc (ih.imp fun _ _ h => ⟨h.1, List.mem_append_left _ h.2⟩) ⟨meets, ?_⟩ enabled
    exact List.mem_append_right _ (List.mem_singleton_self e)

theorem Run.exists_step (h : Run step ok s es t) (he : e ∈ es) :
    ∃ u v, ok u e ∧ step u e = some v := by
  induction h with
  | nil => cases he
  | snoc _ meets enabled ih =>
    rcases List.mem_append.mp he with he | he
    · exact ih he
    · obtain rfl := List.mem_singleton.mp he
      exact ⟨_, _, meets, enabled⟩

theorem Run.one (hok : ok s e) (h : step s e = some t) : Run step ok s [e] t :=
  show Run step ok s ([] ++ [e]) t from .snoc .nil hok h

theorem Run.first_of_append (h : Run step ok s (es ++ fs) u) (g : AnyRun step s es t) :
    Run step ok s es t := by
  induction fs using List.reverseRecOn generalizing u with
  | nil =>
    rw [List.append_nil] at h
    exact g.unique h ▸ h
  | append_singleton fs e ih =>
    rw [← List.append_assoc] at h
    obtain ⟨v, hv, _, _⟩ := h.last
    exact ih hv

theorem Run.last_of_append (h : Run step ok s (es ++ fs) u) (g : AnyRun step s es t)
    (k : AnyRun step t fs u) : Run step ok t fs u := by
  induction k with
  | nil => exact .nil
  | snoc prior _ enabled ih =>
    rw [← List.append_assoc] at h
    obtain ⟨v, hv, hok, _⟩ := h.last
    obtain rfl := hv.unique (g.append prior)
    exact .snoc (ih hv) hok enabled

/-- `I` holds in every state that the events lead through. -/
def Always (step : σ → ε → Option σ) (I : σ → Prop) (s : σ) (es : List ε) : Prop :=
  ∀ es₁ es₂ t, es = es₁ ++ es₂ → AnyRun step s es₁ t → I t

/-- Where `ok` decides for each step whether it keeps `I`, it decides for whole runs. -/
theorem always_iff_run {I : σ → Prop} (h : AnyRun step s es t) (start : I s)
    (keeps : ∀ {es t u e}, AnyRun step s es t → I t → step t e = some u → (I u ↔ ok t e)) :
    Always step I s es ↔ Run step ok s es t := by
  have hkept : ∀ {es t}, Run step ok s es t → I t := by
    intro es t hrun
    induction hrun with
    | nil => exact start
    | snoc prior meets enabled ih => exact (keeps prior.forget ih enabled).mpr meets
  constructor
  · intro hall
    induction h with
    | nil => exact .nil
    | @snoc es t u e prior _ enabled ih =>
      have ht : I t := hall es [e] t rfl prior
      have hu : I u := hall (es ++ [e]) [] u (by simp) (.snoc prior trivial enabled)
      refine .snoc (ih fun es₁ es₂ v hsplit => ?_) ((keeps prior ht enabled).mp hu) enabled
      exact hall es₁ (es₂ ++ [e]) v (by simp [hsplit])
  · intro hrun es₁ es₂ v hsplit hv
    subst hsplit
    exact hkept (hrun.first_of_append hv)

theorem run_concat_iff (h : AnyRun step s es t) (hstep : step t e = some u) :
    Run step ok s (es ++ [e]) u ↔ Run step ok s es t ∧ ok t e := by
  constructor
  · intro hrun
    obtain ⟨t', ht', hok, _⟩ := hrun.last
    obtain rfl := ht'.unique h
    exact ⟨ht', hok⟩
  · rintro ⟨hrun, hok⟩
    exact .snoc hrun hok hstep

theorem run_and_iff (h : AnyRun step s es t) :
    Run step ok s es t ∧ Run step ok' s es t ↔ Run step (fun t e => ok t e ∧ ok' t e) s es t := by
  induction h with
  | nil => exact ⟨fun _ => .nil, fun _ => ⟨.nil, .nil⟩⟩
  | snoc prior _ enabled ih =>
    rw [run_concat_iff prior enabled, run_concat_iff prior enabled, run_concat_iff prior enabled,
      ← ih]
    exact and_and_and_comm

theorem run_iff_run {ok₁ ok₂ : σ → ε → Prop} (h : Run step ok s es t)
    (agree : ∀ {t u e}, ok t e → step t e = some u → (ok₁ t e ↔ ok₂ t e)) :
    Run step ok₁ s es t ↔ Run step ok₂ s es t := by
  induction h with
  | nil => exact ⟨fun _ => .nil, fun _ => .nil⟩
  | snoc prior meets enabled ih =>
    rw [run_concat_iff prior.forget enabled, run_concat_iff prior.forget enabled]
    exact and_congr ih (agree meets enabled)

/-- What each step adds to when it meets `ok` holds at the end when all of them do. States outside
of `J` are never left, and nothing is said of them. -/
theorem holds_iff_run {I J : σ → Prop} (h : Run step ok' s es t) (hJ : J t) (start : I s)
    (back : ∀ {t u e}, step t e = some u → J u → J t)
    (adds : ∀ {t u e}, ok' t e → step t e = some u → J u → (I u ↔ I t ∧ ok t e)) :
    I t ↔ Run step ok s es t := by
  induction h with
  | nil => exact ⟨fun _ => .nil, fun _ => start⟩
  | snoc prior meets enabled ih =>
    rw [run_concat_iff prior.forget enabled, ← ih (back enabled hJ)]
    exact adds meets enabled hJ

/-- `R` holds between any two states that the events lead through, the earlier one first. -/
def Throughout (step : σ → ε → Option σ) (R : σ → σ → Prop) (s : σ) (es : List ε) : Prop :=
  ∀ es₁ es₂ es₃ t u, es = es₁ ++ es₂ ++ es₃ → AnyRun step s es₁ t → AnyRun step t es₂ u → R t u

/-- Where `ok` decides for each step whether it stays in a preorder, it decides for whole runs. -/
theorem throughout_iff_run {R : σ → σ → Prop} (h : AnyRun step s es t) (refl : ∀ t, R t t)
    (trans : ∀ {t u v}, R t u → R u v → R t v)
    (keeps : ∀ {t u e}, e ∈ es → step t e = some u → (R t u ↔ ok t e)) :
    Throughout step R s es ↔ Run step ok s es t := by
  constructor
  · intro hall
    induction h with
    | nil => exact .nil
    | @snoc es t u e prior _ enabled ih =>
      have hlast : R t u := hall es [e] [] t u (by simp) prior (.one trivial enabled)
      refine .snoc (ih (fun he => keeps (List.mem_append_left _ he)) ?_)
        ((keeps (by simp) enabled).mp hlast) enabled
      intro es₁ es₂ es₃ v w hsplit
      exact hall es₁ es₂ (es₃ ++ [e]) v w (by rw [hsplit, List.append_assoc])
  · intro hrun es₁ es₂ es₃ u v hsplit hu hv
    subst hsplit
    have hsteps := hrun.mem
    have hmid : Run step (fun t e => ok t e ∧ e ∈ es₁ ++ es₂ ++ es₃) u es₂ v :=
      (hsteps.first_of_append (hu.append hv)).last_of_append hu hv
    exact hmid.invariant (I := R u) (refl u) fun hR hok hstep =>
      trans hR ((keeps hok.2 hstep).mpr hok.1)

def exec (step : σ → ε → Option σ) : σ → List ε → Option σ
  | s, [] => some s
  | s, e :: es => (step s e).bind fun t => exec step t es

theorem run_of_exec (h : exec step s es = some t) : AnyRun step s es t := by
  induction es generalizing s with
  | nil =>
    obtain rfl := Option.some.inj h
    exact .nil
  | cons e es ih =>
    obtain ⟨v, hv, hrest⟩ := Option.bind_eq_some_iff.mp h
    have hone : AnyRun step s [e] v := .one trivial hv
    exact hone.append (ih hrest)

theorem run_exec_get (h : (exec step s es).isSome) : AnyRun step s es ((exec step s es).get h) :=
  run_of_exec (Option.some_get h).symm

/-- The step function restricted to the steps that meet `ok`. -/
def guarded (step : σ → ε → Option σ) (ok : σ → ε → Prop) [∀ s e, Decidable (ok s e)] (s : σ)
    (e : ε) : Option σ := if ok s e then step s e else none

theorem run_of_guarded [∀ s e, Decidable (ok s e)]
    (h : AnyRun (guarded step ok) s es t) : Run step ok s es t := by
  induction h with
  | nil => exact .nil
  | snoc _ _ enabled ih =>
    rw [guarded] at enabled
    split_ifs at enabled with hok
    exact .snoc ih hok enabled

section Interleaving

variable {ι : Type*} [DecidableEq ι] {active : ι → Prop} [DecidablePred active]

/-- Components that take steps of their own, one at a time, in any order. -/
def each (step : σ → ε → Option σ) (active : ι → Prop) [DecidablePred active] (g : ι → σ)
    (e : ι × ε) : Option (ι → σ) :=
  if active e.1 then (step (g e.1) e.2).map (Function.update g e.1) else none

theorem each_eq_some {g g' : ι → σ} {a : ι} {e : ε} (h : each step active g (a, e) = some g') :
    active a ∧ ∃ t, step (g a) e = some t ∧ g' = Function.update g a t := by
  rw [each] at h
  split_ifs at h with ha
  obtain ⟨t, ht, rfl⟩ := Option.map_eq_some_iff.mp h
  exact ⟨ha, t, ht, rfl⟩

theorem each_forall {I : ι → σ → Prop} {g g' : ι → σ} {a : ι} {e : ε}
    (h : each step active g (a, e) = some g') (hg : ∀ b, I b (g b))
    (hstep : ∀ t, step (g a) e = some t → g' a = t → I a t) : ∀ b, I b (g' b) := by
  obtain ⟨_, t, ht, rfl⟩ := each_eq_some h
  rw [Function.forall_update_iff g I]
  exact ⟨hstep t ht (Function.update_self ..), fun b _ => hg b⟩

def eventsOf (a : ι) (es : List (ι × ε)) : List ε := (es.filter (·.1 = a)).map (·.2)

theorem eventsOf_concat_self (a : ι) (es : List (ι × ε)) (e : ε) :
    eventsOf a (es ++ [(a, e)]) = eventsOf a es ++ [e] := by simp [eventsOf]

theorem eventsOf_concat_of_ne {a b : ι} (h : b ≠ a) (es : List (ι × ε)) (e : ε) :
    eventsOf a (es ++ [(b, e)]) = eventsOf a es := by simp [eventsOf, h]

/-- Every component goes through a run of its own. -/
theorem Run.component {ok : (ι → σ) → ι × ε → Prop} {ok' : σ → ε → Prop} {g g' : ι → σ}
    {es : List (ι × ε)} (h : Run (each step active) ok g es g')
    (hok : ∀ g a e, ok g (a, e) → ok' (g a) e) (a : ι) :
    Run step ok' (g a) (eventsOf a es) (g' a) := by
  induction h with
  | nil => exact .nil
  | @snoc es u v e prior meets enabled ih =>
    obtain ⟨b, e⟩ := e
    obtain ⟨_, t, ht, rfl⟩ := each_eq_some enabled
    by_cases hab : b = a
    · subst hab
      rw [eventsOf_concat_self, Function.update_self]
      exact .snoc ih (hok _ _ _ meets) ht
    · rw [eventsOf_concat_of_ne hab, Function.update_of_ne (Ne.symm hab)]
      exact ih

/-- A run of one component, while the others stay where they are. -/
theorem Run.lift {ok : (ι → σ) → ι × ε → Prop} {ok' : σ → ε → Prop} {g : ι → σ} {a : ι}
    (h : Run step ok' (g a) es t) (ha : active a) (hok : ∀ g e, ok' (g a) e → ok g (a, e)) :
    Run (each step active) ok g (es.map fun e => (a, e)) (Function.update g a t) := by
  induction h with
  | nil =>
    rw [Function.update_eq_self]
    exact .nil
  | @snoc es t u e prior meets enabled ih =>
    rw [List.map_append]
    refine .snoc ih (hok _ e ?_) ?_
    · rw [Function.update_self]
      exact meets
    · rw [each, if_pos ha, Function.update_self, enabled, Option.map_some, Function.update_idem]

/-- `holds_iff_run` for what holds of every component, under an invariant of the components. -/
theorem forall_iff_run {I J : σ → Prop} {ok : σ → ε → Prop} {g g' : ι → σ} {es : List (ι × ε)}
    (h : AnyRun (each step active) g es g') (start : ∀ a, I (g a)) (inv : ∀ a, J (g a))
    (keep : ∀ {t u e}, J t → step t e = some u → J u)
    (adds : ∀ {t u e}, J t → step t e = some u → (I u ↔ I t ∧ ok t e)) :
    (∀ a, I (g' a)) ↔ Run (each step active) (fun g e => ok (g e.1) e.2) g es g' := by
  have hinv := h.with_invariant (I := fun g => ∀ a, J (g a)) inv ?_
  · refine holds_iff_run (I := fun g : ι → σ => ∀ a, I (g a)) (J := fun _ => True) hinv trivial
      start (fun _ _ => trivial) ?_
    rintro g g' ⟨a, e⟩ ⟨_, hg⟩ hstep _
    obtain ⟨_, t, ht, rfl⟩ := each_eq_some hstep
    have hsplit : (∀ b, I (g b)) ↔ I (g a) ∧ ∀ b, b ≠ a → I (g b) := (and_forall_ne a).symm
    rw [Function.forall_update_iff g fun _ t => I t, hsplit, adds (hg a) ht]
    exact and_right_comm
  · rintro g g' ⟨a, e⟩ hg _ hstep
    exact each_forall (I := fun _ => J) hstep hg fun t ht _ => keep (hg a) ht

/-- The components of a finite set take their runs one after the other. -/
theorem run_finset {ok : (ι → σ) → ι × ε → Prop} {ok' : σ → ε → Prop} {g f : ι → σ}
    (s : Finset ι) (h : ∀ i ∈ s, active i ∧ ∃ es, Run step ok' (g i) es (f i))
    (hok : ∀ g i e, ok' (g i) e → ok g (i, e)) :
    ∃ es, Run (each step active) ok g es (s.piecewise f g) := by
  induction s using Finset.induction_on with
  | empty =>
    rw [Finset.piecewise_empty]
    exact ⟨[], .nil⟩
  | @insert i s hi ih =>
    obtain ⟨es, hrun⟩ := ih fun j hj => h j (Finset.mem_insert_of_mem hj)
    obtain ⟨hactive, fs, hlast⟩ := h i (Finset.mem_insert_self i s)
    have hstay : s.piecewise f g i = g i := Finset.piecewise_eq_of_notMem _ _ _ hi
    rw [← hstay] at hlast
    rw [Finset.piecewise_insert]
    exact ⟨_, hrun.append (hlast.lift hactive fun g e => hok g i e)⟩

end Interleaving

theorem run_all {active : ℕ → Prop} [DecidablePred active] {ok : (ℕ → σ) → ℕ × ε → Prop}
    {g g' : ℕ → σ} (k : ℕ) (h : ∀ i < k, active i ∧ ∃ es, Run step ok' (g i) es (g' i))
    (hok : ∀ g i e, ok' (g i) e → ok g (i, e)) :
    ∃ es, Run (each step active) ok g es fun i => if i < k then g' i else g i := by
  induction k with
  | zero => exact ⟨[], .nil⟩
  | succ k ih =>
    obtain ⟨es, hrun⟩ := ih fun i hi => h i (Nat.lt_succ_of_lt hi)
    obtain ⟨hactive, fs, hlast⟩ := h k (Nat.lt_succ_self k)
    have hstay : (if k < k then g' k else g k) = g k := if_neg (Nat.lt_irrefl k)
    rw [← hstay] at hlast
    have hnext := hlast.lift (g := fun i => if i < k then g' i else g i) hactive
      fun g e => hok g k e
    refine ⟨es ++ fs.map fun e => (k, e), ?_⟩
    have hsame : Function.update (fun i => if i < k then g' i else g i) k (g' k) =
        fun i => if i < k + 1 then g' i else g i := by
      funext i
      by_cases hi : i = k
      · subst hi
        rw [Function.update_self, if_pos (Nat.lt_succ_self i)]
      · rw [Function.update_of_ne hi]
        by_cases hlt : i < k
        · rw [if_pos hlt, if_pos (Nat.lt_succ_of_lt hlt)]
        · rw [if_neg hlt, if_neg fun h => hlt (Nat.lt_of_le_of_ne (Nat.le_of_lt_succ h) hi)]
    rw [← hsame]
    exact hrun.append hnext

end JobPortal.Runs

import Mathlib.Data.List.Induction
import Mathlib.Data.List.Nodup

/-! Logs that only grow, and rules an entry has to meet with what was logged before it. -/
namespace JobPortal.Histories

variable {α β : Type*} {R : List α → α → Prop} {l ms : List α}

theorem getElem?_of_prefix {l l' : List α} (h : l <+: l') {i : ℕ} {x : α} (hi : l[i]? = some x) :
    l'[i]? = some x := by
  obtain ⟨hlt, rfl⟩ := List.getElem?_eq_some_iff.mp hi
  exact List.prefix_iff_getElem?.mp h i hlt

/-- Every entry meets `R` with the entries before it. -/
def EachAfter (R : List α → α → Prop) (l : List α) : Prop :=
  ∀ past x rest, l = past ++ x :: rest → R past x

theorem eachAfter_nil : EachAfter R [] := by
  intro past x rest h
  simp at h

theorem eachAfter_cons {x : α} :
    EachAfter R (x :: l) ↔ R [] x ∧ EachAfter (fun past => R (x :: past)) l := by
  constructor
  · intro h
    refine ⟨h [] x l rfl, ?_⟩
    rintro past y rest rfl
    exact h (x :: past) y rest rfl
  · rintro ⟨hx, hl⟩ past y rest heq
    cases past with
    | nil =>
      obtain ⟨rfl, rfl⟩ := List.cons_eq_cons.mp heq
      exact hx
    | cons z past =>
      obtain ⟨rfl, rfl⟩ := List.cons_eq_cons.mp heq
      exact hl past y rest rfl

theorem EachAfter.concat {x : α} (h : EachAfter R l) (hx : R l x) : EachAfter R (l ++ [x]) := by
  intro past y rest heq
  rcases List.eq_nil_or_concat rest with rfl | ⟨rest, z, rfl⟩
  · obtain ⟨rfl, hs⟩ := List.append_inj' heq rfl
    obtain rfl := List.singleton_inj.mp hs
    exact hx
  · rw [List.concat_eq_append, ← List.cons_append, ← List.append_assoc] at heq
    exact h past y rest (List.append_inj' heq rfl).1

theorem EachAfter.append (h : EachAfter R l) (hms : ∀ x ∈ ms, ∀ past, R past x) :
    EachAfter R (l ++ ms) := by
  induction ms using List.reverseRecOn with
  | nil => simpa using h
  | append_singleton ms x ih =>
    rw [← List.append_assoc]
    apply (ih fun y hy => hms y (List.mem_append_left _ hy)).concat
    exact hms x (List.mem_append_right _ (List.mem_singleton_self x)) _

/-- A rule that relates an entry to each one before it holds between any two. -/
theorem EachAfter.pairwise {S : α → α → Prop} (h : EachAfter R l)
    (hS : ∀ past x, R past x → ∀ y ∈ past, S y x) : l.Pairwise S := by
  induction l using List.reverseRecOn with
  | nil => exact .nil
  | append_singleton l x ih =>
    refine List.pairwise_append.mpr ⟨ih ?_, List.pairwise_singleton _ _, ?_⟩
    · intro past y rest heq
      exact h past y (rest ++ [x]) (by simp [heq])
    · intro y hy z hz
      obtain rfl := List.mem_singleton.mp hz
      exact hS l z (h l z [] rfl) y hy

theorem EachAfter.either (h : EachAfter R l) {x y : α} (hx : x ∈ l) (hy : y ∈ l) (hne : x ≠ y) :
    (∃ past ⊆ l, y ∈ past ∧ R past x) ∨ ∃ past ⊆ l, x ∈ past ∧ R past y := by
  obtain ⟨past, rest, rfl⟩ := List.append_of_mem hx
  rcases List.mem_append.mp hy with hbefore | hafter
  · exact .inl ⟨past, List.subset_append_left _ _, hbefore, h past x rest rfl⟩
  · have hrest := (List.mem_cons.mp hafter).resolve_left hne.symm
    obtain ⟨mid, rest', rfl⟩ := List.append_of_mem hrest
    have heq : past ++ x :: (mid ++ y :: rest') = (past ++ x :: mid) ++ y :: rest' := by simp
    refine .inr ⟨past ++ x :: mid, ?_, by simp, h _ y rest' heq⟩
    rw [heq]
    exact List.subset_append_left _ _

/-- A rule against repetitions makes the place of an entry unique. -/
theorem EachAfter.getElem?_inj {S : α → α → Prop} (h : EachAfter R l)
    (hS : ∀ past x, R past x → ∀ y ∈ past, ¬ S y x) {i j : ℕ} {x y : α} (hi : l[i]? = some x)
    (hj : l[j]? = some y) (hxy : S x y) (hyx : S y x) : i = j := by
  have hpair := List.pairwise_iff_getElem.mp (h.pairwise hS)
  obtain ⟨hil, rfl⟩ := List.getElem?_eq_some_iff.mp hi
  obtain ⟨hjl, rfl⟩ := List.getElem?_eq_some_iff.mp hj
  rcases Nat.lt_trichotomy i j with hlt | heq | hlt
  · exact absurd hxy (hpair i j hil hjl hlt)
  · exact heq
  · exact absurd hyx (hpair j i hjl hil hlt)

/-- Two entries with one mark are the same entry where no mark occurs twice. -/
theorem getElem?_inj_of_nodup_filterMap {f : α → Option β} (h : (l.filterMap f).Nodup) {i j : ℕ}
    {x y : α} {b : β} (hi : l[i]? = some x) (hj : l[j]? = some y) (hx : f x = some b)
    (hy : f y = some b) : i = j := by
  have hpair := List.pairwise_iff_getElem.mp (List.pairwise_filterMap.mp h)
  obtain ⟨hil, rfl⟩ := List.getElem?_eq_some_iff.mp hi
  obtain ⟨hjl, rfl⟩ := List.getElem?_eq_some_iff.mp hj
  rcases Nat.lt_trichotomy i j with hlt | heq | hlt
  · exact absurd rfl (hpair i j hil hjl hlt b hx b hy)
  · exact heq
  · exact absurd rfl (hpair j i hjl hil hlt b hy b hx)

section Records

variable {f : α → β} {i : ℕ} {x y : α}

/-- Overwriting one of several records with different keys leaves the others in place. -/
theorem mem_set_of_mem (x' : α) (hx : l[i]? = some x) (hy : y ∈ l) :
    y = x ∨ y ∈ l.set i x' := by
  obtain ⟨j, hj⟩ := List.mem_iff_getElem?.mp hy
  by_cases hij : i = j
  · subst hij
    exact .inl (Option.some.inj (hj.symm.trans hx))
  · refine .inr (List.mem_iff_getElem?.mpr ⟨j, ?_⟩)
    rw [List.getElem?_set_ne hij, hj]

theorem mem_set_self {x' : α} (hx : l[i]? = some x) : x' ∈ l.set i x' :=
  List.mem_set (List.getElem?_eq_some_iff.mp hx).1 x'

theorem eq_or_ne_of_mem_set {x' : α} (hkeys : (l.map f).Nodup) (hx : l[i]? = some x)
    (hy : y ∈ l.set i x') : y = x' ∨ (y ∈ l ∧ f y ≠ f x) := by
  obtain ⟨j, hj⟩ := List.mem_iff_getElem?.mp hy
  by_cases hij : i = j
  · subst hij
    have hi := (List.getElem?_eq_some_iff.mp hx).1
    rw [List.getElem?_set_self hi] at hj
    exact .inl (Option.some.inj hj).symm
  · rw [List.getElem?_set_ne hij] at hj
    refine .inr ⟨List.mem_of_getElem? hj, fun heq => hij ?_⟩
    have hlt : i < (l.map f).length := by simpa using (List.getElem?_eq_some_iff.mp hx).1
    refine (List.getElem?_inj hlt hkeys).mp ?_
    rw [List.getElem?_map, List.getElem?_map, hx, hj]
    exact congrArg some heq.symm

end Records

end JobPortal.Histories

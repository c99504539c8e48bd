import JobPortal.Histories
import Mathlib.Logic.Function.Basic
import Mathlib.Tactic.SplitIfs

/-! Logs whose entries carry their numbers, counted from one. A reader takes in the entry that
comes next and no other. Whichever entries of a writer get lost, repeated or overtaken on the
way, a reader holds a prefix of the writer's log. -/
namespace JobPortal.NumberedLogs

open Histories

variable {α : Type*} (num : α → ℕ)

def Numbered (l : List α) : Prop := ∀ i x, l[i]? = some x → num x = i + 1

/-- Take an entry in if it is the next one. -/
def offer (l : List α) (x : α) : List α := if num x = l.length + 1 then l ++ [x] else l

/-- Entries that come in with no entry missing before any of them. -/
def Gapless : List α → List α → Prop
  | _, [] => True
  | l, x :: xs => num x ≤ l.length + 1 ∧ Gapless (offer num l x) xs

def longer (l m : List α) : List α := if l.length ≤ m.length then m else l

variable {num} {l m w : List α} {x : α}

theorem numbered_nil : Numbered num [] := by
  intro i x h
  simp at h

theorem Numbered.concat (h : Numbered num l) (hx : num x = l.length + 1) :
    Numbered num (l ++ [x]) := by
  intro i y hi
  rw [List.getElem?_append] at hi
  split_ifs at hi with hlt
  · exact h i y hi
  · obtain ⟨hzero, rfl⟩ := List.getElem?_eq_some_iff.mp hi
    rw [List.length_singleton] at hzero
    simp only [List.getElem_singleton]
    omega

theorem Numbered.eq_of_mem (h : Numbered num w) (hx : x ∈ w) :
    ∃ i, num x = i + 1 ∧ w[i]? = some x := by
  obtain ⟨i, hi⟩ := List.mem_iff_getElem?.mp hx
  exact ⟨i, h i x hi, hi⟩

theorem prefix_offer (l : List α) (x : α) : l <+: offer num l x := by
  unfold offer
  split_ifs
  · exact List.prefix_append l [x]
  · exact List.prefix_refl l

theorem length_offer_mono (h : l.length ≤ m.length) (x : α) :
    (offer num l x).length ≤ (offer num m x).length := by
  have hlength : ∀ k : List α,
      (offer num k x).length = if num x = k.length + 1 then k.length + 1 else k.length := by
    intro k
    unfold offer
    split_ifs
    · exact List.length_append
    · rfl
  rw [hlength, hlength]
  split_ifs
  all_goals omega

/-- A reader that is offered an entry of the writer's log goes on to hold a prefix of it. -/
theorem offer_prefix (hw : Numbered num w) (hl : l <+: w) (hx : x ∈ w) : offer num l x <+: w := by
  unfold offer
  split_ifs with hnext
  · obtain ⟨i, hnum, hi⟩ := hw.eq_of_mem hx
    obtain rfl : i = l.length := by omega
    obtain ⟨rest, rfl⟩ := hl
    rw [List.getElem?_append_right (Nat.le_refl _), Nat.sub_self] at hi
    cases rest with
    | nil => simp at hi
    | cons y rest =>
      obtain rfl := Option.some.inj hi
      exact ⟨rest, by simp⟩
  · exact hl

/-- The longer one of two comparable logs is their least upper bound. -/
theorem longer_isLub (h : l <+: m ∨ m <+: l) :
    l <+: longer l m ∧ m <+: longer l m ∧ ∀ w, l <+: w → m <+: w → longer l m <+: w := by
  unfold longer
  split_ifs with hlen
  · refine ⟨?_, List.prefix_refl m, fun _ _ hm => hm⟩
    rcases h with h | h
    · exact h
    · exact (h.eq_of_length_le hlen) ▸ List.prefix_refl m
  · refine ⟨List.prefix_refl l, ?_, fun _ hl _ => hl⟩
    rcases h with h | h
    · exact absurd h.length_le hlen
    · exact h

/-- An entry of a log is no news to the longer one of this log and another. -/
theorem longer_offer (hl : Numbered num l) (hx : x ∈ l) (h : l <+: m ∨ m <+: l) :
    (l <+: offer num m x ∨ offer num m x <+: l) ∧ longer l (offer num m x) = longer l m := by
  by_cases hnext : num x = m.length + 1
  · obtain ⟨i, hnum, hi⟩ := hl.eq_of_mem hx
    have hlt := (List.getElem?_eq_some_iff.mp hi).1
    have hml : m <+: l := by
      rcases h with h | h
      · have := h.length_le
        omega
      · exact h
    have hpre := offer_prefix hl hml hx
    refine ⟨.inr hpre, ?_⟩
    unfold longer
    rw [if_neg (by omega : ¬ l.length ≤ m.length)]
    split_ifs with hle
    · exact hpre.eq_of_length_le hle
    · rfl
  · rw [offer, if_neg hnext]
    exact ⟨h, rfl⟩

/-- A reader that lacks nothing before entry `k` catches up by the entries from there on. -/
theorem catch_up (hl : Numbered num l) {k : ℕ} (hk : k ≤ m.length) (h : l <+: m ∨ m <+: l) :
    Gapless num m (l.drop k) ∧ (l.drop k).foldl (offer num) m = longer l m := by
  induction hd : l.drop k generalizing k m with
  | nil =>
    have hle : l.length ≤ m.length := Nat.le_trans (List.drop_eq_nil_iff.mp hd) hk
    exact ⟨trivial, by rw [List.foldl_nil, longer, if_pos hle]⟩
  | cons x rest ih =>
    have hx : l[k]? = some x := by
      have := congrArg List.head? hd
      rwa [List.head?_drop] at this
    have hrest : l.drop (k + 1) = rest := by
      rw [← List.tail_drop, hd, List.tail_cons]
    have hnum : num x = k + 1 := hl k x hx
    have hnext : k + 1 ≤ (offer num m x).length := by
      unfold offer
      split_ifs with hm
      · rw [List.length_append, List.length_singleton]
        omega
      · omega
    obtain ⟨hcomp, hlonger⟩ := longer_offer hl (List.mem_of_getElem? hx) h
    obtain ⟨hgapless, hfold⟩ := ih hnext hcomp hrest
    exact ⟨⟨by omega, hgapless⟩, by rw [List.foldl_cons, hfold, hlonger]⟩

section Replicas

variable {ι : Type*} [DecidableEq ι]

/-- What each reader has of each writer's log; a writer's own copy is the log itself. -/
abbrev Replicas (ι α : Type*) := ι → ι → List α

inductive ReplicaEvent (ι α : Type*)
  | write (writer : ι) (x : α)
  | read (reader writer : ι) (i : ℕ)

namespace Replicas

variable (L : Replicas ι α)

def set (n o : ι) (l : List α) : Replicas ι α := Function.update L n (Function.update (L n) o l)

theorem set_apply (n o : ι) (l : List α) (a b : ι) :
    L.set n o l a b = if a = n ∧ b = o then l else L a b := by
  by_cases ha : a = n
  · subst ha
    by_cases hb : b = o
    · subst hb
      simp [set]
    · simp [set, hb]
  · simp [set, ha]

variable (num) in
/-- A writer adds its next entry, or a reader is offered an entry of a writer. -/
def step : ReplicaEvent ι α → Option (Replicas ι α)
  | .write o x =>
    if num x = (L o o).length + 1 then some (L.set o o (L o o ++ [x])) else none
  | .read n o i => (L o o)[i]?.map fun x => L.set n o (offer num (L n o) x)

theorem step_prefix {L L' : Replicas ι α} {e : ReplicaEvent ι α} (h : L.step num e = some L')
    (n o : ι) : L n o <+: L' n o := by
  cases e with
  | write w x =>
    simp only [Replicas.step] at h
    split_ifs at h
    obtain rfl := Option.some.inj h
    rw [set_apply]
    split_ifs with hw
    · rw [hw.1, hw.2]
      exact List.prefix_append _ _
    · exact List.prefix_refl _
  | read r w i =>
    obtain ⟨x, _, rfl⟩ := Option.map_eq_some_iff.mp h
    rw [set_apply]
    split_ifs with hr
    · rw [hr.1, hr.2]
      exact prefix_offer _ _
    · exact List.prefix_refl _

variable (num) in
structure Sound (L : Replicas ι α) : Prop where
  numbered : ∀ o, Numbered num (L o o)
  copies : ∀ n o, L n o <+: L o o

variable {L} {L' : Replicas ι α} {e : ReplicaEvent ι α}

theorem Sound.step (h : Sound num L) (hstep : L.step num e = some L') : Sound num L' := by
  cases e with
  | write o x =>
    simp only [Replicas.step] at hstep
    split_ifs at hstep with hx
    obtain rfl := Option.some.inj hstep
    constructor
    · intro b
      rw [set_apply]
      split_ifs with hb
      · exact (h.numbered o).concat hx
      · exact h.numbered b
    · intro n b
      rw [set_apply, set_apply]
      split_ifs with hnb hb hb
      · exact List.prefix_refl _
      · exact absurd ⟨hnb.2, hnb.2⟩ hb
      · obtain ⟨rfl, _⟩ := hb
        exact (h.copies n b).trans (List.prefix_append _ _)
      · exact h.copies n b
  | read n o i =>
    obtain ⟨x, hx, rfl⟩ := Option.map_eq_some_iff.mp hstep
    have hpre := offer_prefix (h.numbered o) (h.copies n o) (List.mem_of_getElem? hx)
    -- the writer has all of its own log
    have hself : ∀ b, L.set n o (offer num (L n o) x) b b = L b b := by
      intro b
      rw [set_apply]
      split_ifs with hb
      · obtain ⟨rfl, rfl⟩ := hb
        exact hpre.eq_of_length_le (prefix_offer _ _).length_le
      · rfl
    constructor
    · intro b
      rw [hself]
      exact h.numbered b
    · intro a b
      rw [hself, set_apply]
      split_ifs with hab
      · rw [hab.2]
        exact hpre
      · exact h.copies a b

end Replicas

end Replicas

end JobPortal.NumberedLogs

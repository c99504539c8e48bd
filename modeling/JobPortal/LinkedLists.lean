import Mathlib.Data.List.Chain
import Mathlib.Data.List.Nodup
import Mathlib.Logic.Function.Basic

/-! Lists of nodes that point to both their neighbors. The nodes are kept at addresses, and what is
said of a list is said of the addresses of its nodes, in order, the sentinels among them. -/
namespace JobPortal.LinkedLists

structure Node (ι : Type*) where
  item : ι
  prev : Option ℕ
  next : Option ℕ

abbrev Heap (ι : Type*) := ℕ → Node ι

variable {ι : Type*} (h : Heap ι)

def setNext (a : ℕ) (b : Option ℕ) : Heap ι := Function.update h a { h a with next := b }

def setPrev (b : ℕ) (a : Option ℕ) : Heap ι := Function.update h b { h b with prev := a }

def link (a b : ℕ) : Heap ι := setPrev (setNext h a (some b)) b (some a)

def Adjacent (a b : ℕ) : Prop := (h a).next = some b ∧ (h b).prev = some a

/-- Different nodes, each pointing to the one before it and the one after it. -/
structure Linked (l : List ℕ) : Prop where
  nodup : l.Nodup
  chain : l.IsChain (Adjacent h)

variable {h} {a b c n : ℕ} {l : List ℕ} {xs ys : List ℕ}

@[simp] theorem setNext_next (a : ℕ) (b : Option ℕ) (c : ℕ) :
    (setNext h a b c).next = if c = a then b else (h c).next := by
  unfold setNext
  split_ifs with hc
  · rw [hc, Function.update_self]
  · rw [Function.update_of_ne hc]

@[simp] theorem setNext_prev (a : ℕ) (b : Option ℕ) (c : ℕ) :
    (setNext h a b c).prev = (h c).prev := by
  unfold setNext
  by_cases hc : c = a
  · rw [hc, Function.update_self]
  · rw [Function.update_of_ne hc]

@[simp] theorem setNext_item (a : ℕ) (b : Option ℕ) (c : ℕ) :
    (setNext h a b c).item = (h c).item := by
  unfold setNext
  by_cases hc : c = a
  · rw [hc, Function.update_self]
  · rw [Function.update_of_ne hc]

@[simp] theorem setPrev_prev (b : ℕ) (a : Option ℕ) (c : ℕ) :
    (setPrev h b a c).prev = if c = b then a else (h c).prev := by
  unfold setPrev
  split_ifs with hc
  · rw [hc, Function.update_self]
  · rw [Function.update_of_ne hc]

@[simp] theorem setPrev_next (b : ℕ) (a : Option ℕ) (c : ℕ) :
    (setPrev h b a c).next = (h c).next := by
  unfold setPrev
  by_cases hc : c = b
  · rw [hc, Function.update_self]
  · rw [Function.update_of_ne hc]

@[simp] theorem setPrev_item (b : ℕ) (a : Option ℕ) (c : ℕ) :
    (setPrev h b a c).item = (h c).item := by
  unfold setPrev
  by_cases hc : c = b
  · rw [hc, Function.update_self]
  · rw [Function.update_of_ne hc]

theorem adjacent_link (h : Heap ι) (a b : ℕ) : Adjacent (link h a b) a b := by
  simp [Adjacent, link]

/-- Neighbors stay neighbors if the first one is not linked to another. -/
theorem Adjacent.link (hcd : Adjacent h c n) (hc : c ≠ a) (hn : n ≠ b) :
    Adjacent (link h a b) c n := by
  simpa [Adjacent, LinkedLists.link, hc, hn] using hcd

theorem linked_append :
    Linked h (xs ++ ys) ↔ Linked h xs ∧ Linked h ys ∧ (∀ a ∈ xs, ∀ b ∈ ys, a ≠ b) ∧
      ∀ a ∈ xs.getLast?, ∀ b ∈ ys.head?, Adjacent h a b := by
  constructor
  · rintro ⟨hnodup, hchain⟩
    obtain ⟨hxs, hys, hne⟩ := List.nodup_append.mp hnodup
    obtain ⟨hcxs, hcys, hjoin⟩ := List.isChain_append.mp hchain
    exact ⟨⟨hxs, hcxs⟩, ⟨hys, hcys⟩, hne, hjoin⟩
  · rintro ⟨⟨hxs, hcxs⟩, ⟨hys, hcys⟩, hne, hjoin⟩
    exact ⟨List.nodup_append.mpr ⟨hxs, hys, hne⟩, List.isChain_append.mpr ⟨hcxs, hcys, hjoin⟩⟩

theorem Linked.left (hl : Linked h (xs ++ ys)) : Linked h xs := (linked_append.mp hl).1

theorem Linked.right (hl : Linked h (xs ++ ys)) : Linked h ys := (linked_append.mp hl).2.1

theorem linked_singleton (h : Heap ι) (a : ℕ) : Linked h [a] :=
  ⟨List.nodup_singleton a, List.isChain_singleton a⟩

theorem Linked.adjacent (hl : Linked h (xs ++ a :: b :: ys)) : Adjacent h a b :=
  (List.isChain_append_cons_cons.mp hl.chain).2.1

theorem Linked.tail (hl : Linked h (a :: l)) : Linked h l :=
  have hcons : Linked h ([a] ++ l) := hl
  hcons.right

theorem Linked.first (hl : Linked h (a :: b :: ys)) : Adjacent h a b :=
  have hcons : Linked h ([] ++ a :: b :: ys) := hl
  hcons.adjacent

/-- A link changes nothing in a list that has no neighbors to the ones it links. -/
theorem Linked.link (hl : Linked h l)
    (hne : ∀ xs c d ys, l = xs ++ c :: d :: ys → c ≠ a ∧ d ≠ b) : Linked (link h a b) l := by
  refine ⟨hl.nodup, List.isChain_iff_forall_rel_of_append_cons_cons.mpr ?_⟩
  intro c d xs ys heq
  obtain ⟨hc, hd⟩ := hne xs c d ys heq
  exact (heq ▸ hl).adjacent.link hc hd

theorem Linked.update (hl : Linked h l) (hn : n ∉ l) (c : Node ι) :
    Linked (Function.update h n c) l := by
  refine ⟨hl.nodup, List.isChain_iff_forall_rel_of_append_cons_cons.mpr ?_⟩
  rintro a b xs ys rfl
  have ha : a ≠ n := fun heq => hn (by simp [heq])
  have hb : b ≠ n := fun heq => hn (by simp [heq])
  rw [Adjacent, Function.update_of_ne ha, Function.update_of_ne hb]
  exact hl.adjacent

/-- Two lists are joined by a link from the end of one to the start of the other. -/
theorem Linked.join (hxs : Linked h (xs ++ [a])) (hys : Linked h (b :: ys))
    (hne : ∀ c ∈ xs ++ [a], ∀ d ∈ b :: ys, c ≠ d) :
    Linked (LinkedLists.link h a b) (xs ++ [a] ++ b :: ys) := by
  refine linked_append.mpr ⟨hxs.link ?_, hys.link ?_, hne, ?_⟩
  · intro us c d vs heq
    have hd : d ∈ xs ++ [a] := by simp [heq]
    refine ⟨?_, hne d hd b List.mem_cons_self⟩
    rintro rfl
    -- the last one would have one behind it
    obtain ⟨ws, e, hlast⟩ :=
      (List.eq_nil_or_concat' (d :: vs)).resolve_left (List.cons_ne_nil d vs)
    have hsplit : xs ++ [c] = (us ++ c :: ws) ++ [e] := by simp [heq, hlast]
    obtain rfl := List.singleton_inj.mp (List.append_inj' hsplit rfl).2
    have hnodup := (heq ▸ hxs.nodup : (us ++ c :: d :: vs).Nodup).of_append_right
    rw [hlast] at hnodup
    exact (List.nodup_cons.mp hnodup).1 (by simp)
  · intro us c d vs heq
    have hc : c ∈ b :: ys := by simp [heq]
    refine ⟨(hne a (by simp) c hc).symm, ?_⟩
    rintro rfl
    cases us with
    | nil =>
      obtain ⟨rfl, rfl⟩ := List.cons.inj heq
      exact (List.nodup_cons.mp hys.nodup).1 List.mem_cons_self
    | cons u us =>
      obtain ⟨rfl, rfl⟩ := List.cons.inj heq
      exact (List.nodup_cons.mp hys.nodup).1 (by simp)
  · intro c hc d hd
    obtain rfl : a = c := by simpa using hc
    obtain rfl : b = d := by simpa using hd
    exact adjacent_link h a b

/-- A node is added in front of the last one. -/
theorem Linked.insert (hl : Linked h (xs ++ [a] ++ [b])) (hn : n ∉ xs ++ [a] ++ [b]) :
    Linked (LinkedLists.link (LinkedLists.link h a n) n b) (xs ++ [a] ++ [n] ++ [b]) := by
  have hout : ∀ c ∈ xs ++ [a], n ≠ c := fun c hc heq => hn (heq ▸ List.mem_append_left _ hc)
  have hfirst := hl.left.join (linked_singleton h n) fun c hc d hd => by
    rw [List.mem_singleton.mp hd]
    exact (hout c hc).symm
  refine hfirst.join (linked_singleton _ b) fun c hc d hd => ?_
  rw [List.mem_singleton.mp hd]
  rcases List.mem_append.mp hc with hc | hc
  · exact (linked_append.mp hl).2.2.1 c hc b (List.mem_singleton_self b)
  · rw [List.mem_singleton.mp hc]
    rintro rfl
    exact hn (List.mem_append_right _ (List.mem_singleton_self n))

/-- A node is taken out by linking the ones around it. -/
theorem Linked.remove (hl : Linked h (xs ++ [a] ++ n :: b :: ys)) :
    Linked (LinkedLists.link h a b) (xs ++ [a] ++ b :: ys) := by
  have hne := (linked_append.mp hl).2.2.1
  refine hl.left.join hl.right.tail ?_
  exact fun c hc d hd => hne c hc d (List.mem_cons_of_mem n hd)

variable (h) in
/-- The nodes that are met on the way from one node to another, at most `fuel` of them. -/
def walk (stop : ℕ) : ℕ → ℕ → List ℕ
  | 0, _ => []
  | fuel + 1, a =>
    match (h a).next with
    | none => []
    | some b => if b = stop then [] else b :: walk stop fuel b

/-- On the way from the first to the last node of a list the ones between them are met. -/
theorem walk_eq {fuel : ℕ} (hl : Linked h (a :: xs ++ [b])) (hfuel : xs.length < fuel) :
    walk h b fuel a = xs := by
  induction xs generalizing a fuel with
  | nil =>
    obtain ⟨fuel, rfl⟩ := Nat.exists_eq_add_one_of_ne_zero (by omega : fuel ≠ 0)
    have hnext : (h a).next = some b := hl.first.1
    rw [walk, hnext]
    exact if_pos rfl
  | cons x xs ih =>
    obtain ⟨fuel, rfl⟩ := Nat.exists_eq_add_one_of_ne_zero (by omega : fuel ≠ 0)
    have hnext : (h a).next = some x := hl.first.1
    have hrest : Linked h (x :: xs ++ [b]) := hl.tail
    have hx : x ≠ b := by
      rintro rfl
      exact (List.nodup_cons.mp hrest.nodup).1 (by simp)
    rw [walk, hnext]
    simp only [if_neg hx]
    rw [ih hrest (by simpa using hfuel)]

variable (h) in
/-- The same nodes, met from the other side. -/
def backward : Heap ι := fun a => ⟨(h a).item, (h a).next, (h a).prev⟩

theorem adjacent_backward : Adjacent (backward h) a b ↔ Adjacent h b a := and_comm

theorem Linked.backward (hl : Linked h l) : Linked (backward h) l.reverse := by
  refine ⟨List.nodup_reverse.mpr hl.nodup, List.isChain_reverse.mpr ?_⟩
  exact hl.chain.imp fun _ _ => adjacent_backward.mpr

/-- On the way back they are met in the opposite order. -/
theorem walk_backward_eq {fuel : ℕ} (hl : Linked h (a :: xs ++ [b])) (hfuel : xs.length < fuel) :
    walk (backward h) a fuel b = xs.reverse := by
  have hback : Linked (LinkedLists.backward h) (b :: xs.reverse ++ [a]) := by
    simpa using hl.backward
  exact walk_eq hback (by simpa using hfuel)

end JobPortal.LinkedLists

import JobPortal.LinkedLists
import JobPortal.PbftTypes

/-! The queues from which a node sends again what was not answered. Each has a linked list of ids,
and two maps with the node of the list and the data of an id. -/
namespace JobPortal.Queues

open LinkedLists

/-- A list of message ids between two sentinels, with the address that is allocated next. -/
structure MsgList where
  heap : Heap String
  head : ℕ
  tail : ℕ
  fresh : ℕ

namespace MsgList

def newMsgList : MsgList where
  heap := link (fun _ => ⟨"", none, none⟩) 0 1
  head := 0
  tail := 1
  fresh := 2

variable (l : MsgList)

def alloc (id : String) : MsgList :=
  { l with heap := Function.update l.heap l.fresh ⟨id, none, none⟩, fresh := l.fresh + 1 }

/-- The last of its assignments is to the node that was found first, so that it is `none`, a panic,
if there is no such node. The same holds for the operations below. -/
def push (n : ℕ) : Option MsgList :=
  (l.heap l.tail).prev.map fun last =>
    let heap := setNext l.heap last (some n)
    let heap := setPrev heap n (heap l.tail).prev
    let heap := setNext heap n (some l.tail)
    { l with heap := setPrev heap l.tail (some n) }

def getFirst : Option (Option ℕ) :=
  if (l.heap l.head).next = some l.tail then none else some (l.heap l.head).next

def poll : Option MsgList :=
  if (l.heap l.head).next = some l.tail then some l
  else
    (l.heap l.head).next.bind fun ret =>
      let heap := setNext l.heap l.head (l.heap ret).next
      (heap ret).next.map fun next => { l with heap := setPrev heap next (some l.head) }

def remove (n : ℕ) : Option MsgList :=
  let prev := (l.heap n).prev
  let next := (l.heap n).next
  prev.bind fun p =>
    let heap := setNext l.heap p next
    next.map fun next => { l with heap := setPrev heap next prev }

def nodes : List ℕ := walk l.heap l.tail l.fresh l.head

def nodesBack : List ℕ := walk (backward l.heap) l.head l.fresh l.tail

def idOf (n : ℕ) : String := (l.heap n).item

structure Holds (xs : List ℕ) : Prop where
  linked : Linked l.heap (l.head :: xs ++ [l.tail])
  allocated : ∀ n ∈ l.head :: xs ++ [l.tail], n < l.fresh

structure Relinks (l l' : MsgList) : Prop where
  head : l'.head = l.head
  tail : l'.tail = l.tail
  fresh : l'.fresh = l.fresh
  idOf : ∀ n, l'.idOf n = l.idOf n

variable {l} {l' l'' : MsgList} {xs ys : List ℕ} {n : ℕ}

theorem Holds.length_lt (h : l.Holds xs) : xs.length < l.fresh := by
  have hle : (l.head :: xs ++ [l.tail]).length ≤ (List.range l.fresh).length :=
    (List.subperm_of_subset h.linked.nodup fun n hn =>
      List.mem_range.mpr (h.allocated n hn)).length_le
  simp only [List.cons_append, List.length_cons, List.length_append, List.length_range] at hle
  omega

theorem Holds.nodes_eq (h : l.Holds xs) : l.nodes = xs := walk_eq h.linked h.length_lt

theorem Holds.nodesBack_eq (h : l.Holds xs) : l.nodesBack = xs.reverse :=
  walk_backward_eq h.linked h.length_lt

theorem holds_newMsgList : newMsgList.Holds [] := by
  refine ⟨?_, by simp [newMsgList]⟩
  have hhead : Linked (fun _ => ⟨"", none, none⟩) ([] ++ [0]) := linked_singleton _ 0
  exact hhead.join (linked_singleton _ 1) (by simp)

theorem Holds.notMem (h : l.Holds xs) : l.fresh ∉ l.head :: xs ++ [l.tail] := fun hmem =>
  Nat.lt_irrefl _ (h.allocated l.fresh hmem)

theorem Holds.alloc (h : l.Holds xs) (id : String) : (l.alloc id).Holds xs where
  linked := h.linked.update h.notMem _
  allocated n hn := (h.allocated n hn).trans (Nat.lt_succ_self _)

theorem idOf_alloc (l : MsgList) (id : String) (n : ℕ) :
    (l.alloc id).idOf n = if n = l.fresh then id else l.idOf n := by
  dsimp only [alloc, idOf]
  split_ifs with hn
  · rw [hn, Function.update_self]
  · rw [Function.update_of_ne hn]

theorem relinks_link (l : MsgList) (a b : ℕ) : l.Relinks { l with heap := link l.heap a b } :=
  ⟨rfl, rfl, rfl, fun n => by simp [idOf, link]⟩

theorem Relinks.trans (h : l.Relinks l') (h' : l'.Relinks l'') : l.Relinks l'' where
  head := h'.head.trans h.head
  tail := h'.tail.trans h.tail
  fresh := h'.fresh.trans h.fresh
  idOf n := (h'.idOf n).trans (h.idOf n)

theorem push_spec (h : l.Holds xs) (hn : n ∉ l.head :: xs ++ [l.tail]) (hlt : n < l.fresh) :
    ∃ l', l.push n = some l' ∧ l'.Holds (xs ++ [n]) ∧ l.Relinks l' := by
  obtain ⟨ws, last, hlast⟩ :=
    (List.eq_nil_or_concat' (l.head :: xs)).resolve_left (List.cons_ne_nil _ _)
  have hlinked := hlast ▸ h.linked
  have hprev : (l.heap l.tail).prev = some last := by
    have hadjacent : Linked l.heap (ws ++ last :: l.tail :: []) := by simpa using hlinked
    exact hadjacent.adjacent.2
  refine ⟨{ l with heap := link (link l.heap last n) n l.tail }, ?_, ⟨?_, ?_⟩,
    (l.relinks_link last n).trans (relinks_link _ n l.tail)⟩
  · rw [push, hprev, Option.map_some]
    simp only [setNext_prev, hprev]
    rfl
  · have hinsert := hlinked.insert (hlast ▸ hn)
    rwa [← hlast] at hinsert
  · intro m hm
    have hcases : m ∈ l.head :: xs ++ [l.tail] ∨ m = n := by
      simp only [List.cons_append, List.mem_cons, List.mem_append, List.not_mem_nil] at hm ⊢
      tauto
    exact hcases.elim (h.allocated m) fun heq => heq ▸ hlt

theorem getFirst_spec (h : l.Holds xs) : l.getFirst = xs.head?.map some := by
  cases xs with
  | nil =>
    exact if_pos h.linked.first.1
  | cons x xs =>
    have hnext := h.linked.first.1
    have hx : x ≠ l.tail := by
      rintro rfl
      exact (List.nodup_cons.mp (List.nodup_cons.mp h.linked.nodup).2).1 (by simp)
    rw [getFirst, hnext, if_neg (by simpa using hx)]
    rfl

theorem remove_spec (h : l.Holds (xs ++ n :: ys)) :
    ∃ l', l.remove n = some l' ∧ l'.Holds (xs ++ ys) ∧ l.Relinks l' := by
  obtain ⟨ws, p, hp⟩ :=
    (List.eq_nil_or_concat' (l.head :: xs)).resolve_left (List.cons_ne_nil _ _)
  obtain ⟨b, zs, hb⟩ := List.exists_cons_of_ne_nil (by simp : ys ++ [l.tail] ≠ [])
  have hshape : l.head :: (xs ++ n :: ys) ++ [l.tail] = ws ++ [p] ++ n :: b :: zs := by
    rw [← hb, ← hp]
    simp
  have hlinked := hshape ▸ h.linked
  have hnext : (l.heap n).next = some b := hlinked.adjacent.1
  have hprev : (l.heap n).prev = some p := by
    have hadjacent : Linked l.heap (ws ++ p :: n :: b :: zs) := by simpa using hlinked
    exact hadjacent.adjacent.2
  have hrest : l.head :: (xs ++ ys) ++ [l.tail] = ws ++ [p] ++ b :: zs := by
    rw [← hb, ← hp]
    simp
  refine ⟨{ l with heap := link l.heap p b }, ?_, ⟨?_, ?_⟩, l.relinks_link p b⟩
  · simp only [remove, hprev, hnext, Option.bind_some, Option.map_some]
    rfl
  · exact hrest ▸ hlinked.remove
  · intro m hm
    apply h.allocated
    simp only [List.cons_append, List.mem_cons, List.mem_append] at hm ⊢
    tauto

theorem poll_spec (h : l.Holds (n :: xs)) :
    ∃ l', l.poll = some l' ∧ l'.Holds xs ∧ l.Relinks l' := by
  have hfirst : l.Holds ([] ++ n :: xs) := h
  obtain ⟨l', hremove, hl'⟩ := remove_spec hfirst
  refine ⟨l', ?_, hl'⟩
  obtain ⟨hnext, hprev⟩ := h.linked.first
  have htail : n ≠ l.tail := by
    rintro rfl
    exact (List.nodup_cons.mp (List.nodup_cons.mp h.linked.nodup).2).1 (by simp)
  have hhead : n ≠ l.head := by
    rintro rfl
    exact (List.nodup_cons.mp h.linked.nodup).1 List.mem_cons_self
  rw [← hremove, poll, hnext, if_neg (by simpa using htail), remove, hprev]
  simp only [Option.bind_some, setNext_next, if_neg hhead]

end MsgList

structure MsgQueue (I : Type) where
  list : MsgList
  nodeMap : GoMap String ℕ
  infoMap : GoMap String I

/-- What the Sender finds in a queue: nothing to send, an entry that goes to the end of the list,
with its data before and after that, or one that is given up. -/
inductive Polled (I : Type)
  | idle
  | renewed (id : String) (info info' : I)
  | dropped (id : String)

namespace MsgQueue

variable {I : Type} (q : MsgQueue I)

def newMsgQueue : MsgQueue I := ⟨.newMsgList, ∅, ∅⟩

def push (id : String) (info : I) : Option (MsgQueue I) :=
  ((q.list.alloc id).push q.list.fresh).map fun list =>
    ⟨list, q.nodeMap.insert id q.list.fresh, q.infoMap.insert id info⟩

def remove (id : String) : Option (MsgQueue I) :=
  match q.nodeMap.lookup id with
  | none => some q
  | some n => (q.list.remove n).map fun list => ⟨list, q.nodeMap.erase id, q.infoMap.erase id⟩

/-- The first entry is renewed if it is due, unless it is given up. The call panics if the list has
an id without data. -/
def poll (due : I → Bool) (renew : I → Option I) : Option (MsgQueue I × Polled I) :=
  match q.list.getFirst with
  | none => some (q, .idle)
  | some first =>
    first.bind fun n =>
      let id := q.list.idOf n
      (q.infoMap.lookup id).bind fun info =>
        if due info then
          q.list.poll.bind fun list =>
            match renew info with
            | none => some (⟨list, q.nodeMap.erase id, q.infoMap.erase id⟩, .dropped id)
            | some info' => (list.push n).map fun list =>
                (⟨list, q.nodeMap, q.infoMap.insert id info'⟩, .renewed id info info')
        else some (q, .idle)

def ids : List String := q.list.nodes.map q.list.idOf

def idsBack : List String := q.list.nodesBack.map q.list.idOf

/-- The list holds these nodes, those of the map among them. -/
structure Keeps (xs : List ℕ) : Prop where
  holds : q.list.Holds xs
  nodes : ∀ id n, q.nodeMap.lookup id = some n → n ∈ xs ∧ q.list.idOf n = id
  keys : ∀ id, id ∈ q.nodeMap ↔ id ∈ q.infoMap

def Well : Prop := q.Keeps q.list.nodes

variable {q} {q' : MsgQueue I} {xs ys : List ℕ} {n : ℕ} {id : String} {info : I}

theorem Keeps.well (h : q.Keeps xs) : q.Well := by
  rw [Well, h.holds.nodes_eq]
  exact h

theorem Keeps.ids_eq (h : q.Keeps xs) : q.ids = xs.map q.list.idOf := by
  rw [ids, h.holds.nodes_eq]

theorem Well.idsBack_eq (h : q.Well) : q.idsBack = q.ids.reverse := by
  rw [idsBack, h.holds.nodesBack_eq, ids, List.map_reverse]

theorem Well.mem_ids (h : q.Well) (hinfo : q.infoMap.lookup id = some info) : id ∈ q.ids := by
  have hkey : id ∈ q.nodeMap := (h.keys id).mpr (Finmap.mem_of_lookup_eq_some hinfo)
  obtain ⟨n, hn⟩ := Finmap.mem_iff.mp hkey
  obtain ⟨hmem, hid⟩ := h.nodes id n hn
  exact List.mem_map.mpr ⟨n, hmem, hid⟩

theorem lookup_of_erase {infoMap : GoMap String I} {other : String}
    (h : (infoMap.erase id).lookup other = some info) : infoMap.lookup other = some info := by
  by_cases hid : other = id
  · rw [hid, Finmap.lookup_erase] at h
    cases h
  · rwa [Finmap.lookup_erase_ne hid] at h

theorem pairwise_erase {R : I → I → Prop} {infoMap : GoMap String I} {ids ids' : List String}
    (h : ids.Pairwise fun a b => ∀ x ∈ infoMap.lookup a, ∀ y ∈ infoMap.lookup b, R x y)
    (hids : ids'.Sublist ids) : ids'.Pairwise fun a b => ∀ x ∈ (infoMap.erase id).lookup a,
      ∀ y ∈ (infoMap.erase id).lookup b, R x y :=
  (h.sublist hids).imp fun hab x hx y hy => hab x (lookup_of_erase hx) y (lookup_of_erase hy)

theorem well_newMsgQueue : (newMsgQueue : MsgQueue I).Well := by
  have hkeeps : (newMsgQueue : MsgQueue I).Keeps [] := by
    refine ⟨MsgList.holds_newMsgList, fun id n hn => ?_, fun id => Iff.rfl⟩
    simp [newMsgQueue] at hn
  exact hkeeps.well

theorem ids_newMsgQueue : (newMsgQueue : MsgQueue I).ids = [] := by
  rw [ids, show (newMsgQueue : MsgQueue I).list.nodes = [] from
    MsgList.holds_newMsgList.nodes_eq, List.map_nil]

theorem Keeps.lt (h : q.Keeps xs) (hn : n ∈ xs) : n < q.list.fresh :=
  h.holds.allocated n (by simp [hn])

theorem push_spec (h : q.Well) (id : String) (info : I) :
    ∃ q', q.push id info = some q' ∧ q'.Well ∧ q'.ids = q.ids ++ [id] ∧
      q'.infoMap = q.infoMap.insert id info := by
  have halloc := h.holds.alloc id
  obtain ⟨list, hpush, hholds, hrelinks⟩ :=
    MsgList.push_spec halloc h.holds.notMem (Nat.lt_succ_self _)
  have hidOf : ∀ n, list.idOf n = if n = q.list.fresh then id else q.list.idOf n := fun n => by
    rw [hrelinks.idOf, MsgList.idOf_alloc]
  have hold : ∀ n ∈ q.list.nodes, list.idOf n = q.list.idOf n := fun n hn => by
    rw [hidOf, if_neg (h.lt hn).ne]
  have hkeeps : Keeps ⟨list, q.nodeMap.insert id q.list.fresh, q.infoMap.insert id info⟩
      (q.list.nodes ++ [q.list.fresh]) := by
    refine ⟨hholds, fun id' n hn => ?_, fun id' => ?_⟩
    · by_cases hid : id' = id
      · subst hid
        obtain rfl := Option.some.inj ((Finmap.lookup_insert _).symm.trans hn)
        exact ⟨List.mem_append_right _ (List.mem_singleton_self _), (hidOf _).trans (if_pos rfl)⟩
      · obtain ⟨hmem, hitem⟩ := h.nodes id' n ((Finmap.lookup_insert_of_ne _ hid).symm.trans hn)
        exact ⟨List.mem_append_left _ hmem, (hold n hmem).trans hitem⟩
    · rw [Finmap.mem_insert, Finmap.mem_insert, h.keys]
  refine ⟨_, by rw [push, hpush, Option.map_some], hkeeps.well, ?_, rfl⟩
  rw [hkeeps.ids_eq, List.map_append, List.map_congr_left hold, List.map_singleton]
  exact congrArg (_ ++ [·]) ((hidOf _).trans (if_pos rfl))

/-- A node is taken out of the list, and the entry of its id out of the maps. -/
theorem Keeps.erase {list : MsgList} (h : q.Keeps (xs ++ n :: ys)) (hid : q.list.idOf n = id)
    (hholds : list.Holds (xs ++ ys)) (hrelinks : q.list.Relinks list) :
    Keeps ⟨list, q.nodeMap.erase id, q.infoMap.erase id⟩ (xs ++ ys) := by
  refine ⟨hholds, fun id' m hm => ?_, fun id' => ?_⟩
  · have hne : id' ≠ id := by
      rintro rfl
      rw [Finmap.lookup_erase] at hm
      cases hm
    obtain ⟨hmem, hitem⟩ := h.nodes id' m ((Finmap.lookup_erase_ne hne).symm.trans hm)
    refine ⟨?_, (hrelinks.idOf m).trans hitem⟩
    have hother : m ≠ n := fun heq => hne (hitem.symm.trans (heq ▸ hid))
    simp only [List.mem_append, List.mem_cons, hother, false_or] at hmem ⊢
    exact hmem
  · rw [Finmap.mem_erase, Finmap.mem_erase, h.keys]

theorem remove_spec (h : q.Well) (id : String) :
    ∃ q', q.remove id = some q' ∧ q'.Well ∧ ((id ∉ q.infoMap ∧ q' = q) ∨
      ∃ before behind, q.ids = before ++ id :: behind ∧ q'.ids = before ++ behind ∧
        q'.infoMap = q.infoMap.erase id) := by
  rw [remove]
  cases hnode : q.nodeMap.lookup id with
  | none =>
    have hmissing : id ∉ q.infoMap := fun hmem =>
      Finmap.lookup_eq_none.mp hnode ((h.keys id).mpr hmem)
    exact ⟨q, rfl, h, .inl ⟨hmissing, rfl⟩⟩
  | some n =>
    obtain ⟨hmem, hid⟩ := h.nodes id n hnode
    obtain ⟨xs, ys, hsplit⟩ := List.append_of_mem hmem
    have hkeeps : q.Keeps (xs ++ n :: ys) := hsplit ▸ h
    obtain ⟨list, hremove, hholds, hrelinks⟩ := MsgList.remove_spec hkeeps.holds
    have hkeeps' := hkeeps.erase hid hholds hrelinks
    refine ⟨_, by simp only [hremove, Option.map_some], hkeeps'.well, .inr
      ⟨xs.map q.list.idOf, ys.map q.list.idOf, ?_, ?_, rfl⟩⟩
    · rw [hkeeps.ids_eq, List.map_append, List.map_cons, hid]
    · rw [hkeeps'.ids_eq, ← List.map_append]
      exact List.map_congr_left fun m _ => hrelinks.idOf m

variable (q) in
inductive PollEffect (due : I → Bool) (renew : I → Option I) : Option (MsgQueue I × Polled I) → Prop
  | empty (ids : q.ids = []) : PollEffect due renew (some (q, .idle))
  | panics {id : String} {rest : List String} (ids : q.ids = id :: rest)
      (lost : q.infoMap.lookup id = none) : PollEffect due renew none
  | waits {id : String} {rest : List String} {info : I} (ids : q.ids = id :: rest)
      (found : q.infoMap.lookup id = some info) (early : due info = false) :
      PollEffect due renew (some (q, .idle))
  | renews {id : String} {rest : List String} {info info' : I} {q' : MsgQueue I}
      (ids : q.ids = id :: rest) (found : q.infoMap.lookup id = some info) (isDue : due info = true)
      (renewed : renew info = some info') (well : q'.Well) (ids' : q'.ids = rest ++ [id])
      (infoMap : q'.infoMap = q.infoMap.insert id info') :
      PollEffect due renew (some (q', .renewed id info info'))
  | drops {id : String} {rest : List String} {info : I} {q' : MsgQueue I}
      (ids : q.ids = id :: rest) (found : q.infoMap.lookup id = some info) (isDue : due info = true)
      (renewed : renew info = none) (well : q'.Well) (ids' : q'.ids = rest)
      (infoMap : q'.infoMap = q.infoMap.erase id) : PollEffect due renew (some (q', .dropped id))

/-- The first node goes to the end of the list, with new data for its id. -/
theorem Keeps.rotate {list : MsgList} (h : q.Keeps (n :: xs))
    (hinfo : q.infoMap.lookup (q.list.idOf n) = some info) (hholds : list.Holds xs)
    (hrelinks : q.list.Relinks list) (info' : I) :
    ∃ list', list.push n = some list' ∧
      Keeps ⟨list', q.nodeMap, q.infoMap.insert (q.list.idOf n) info'⟩ (xs ++ [n]) ∧
      ∀ m, list'.idOf m = q.list.idOf m := by
  have hout : n ∉ list.head :: xs ++ [list.tail] := by
    have hnodup := h.holds.linked.nodup
    rw [hrelinks.head, hrelinks.tail]
    simp only [List.cons_append, List.nodup_cons, List.mem_cons, List.mem_append] at hnodup ⊢
    tauto
  obtain ⟨list', hpush, hholds', hrelinks'⟩ :=
    MsgList.push_spec hholds hout (hrelinks.fresh ▸ h.lt List.mem_cons_self)
  have hall := hrelinks.trans hrelinks'
  refine ⟨list', hpush, ⟨hholds', fun id m hm => ?_, fun id => ?_⟩, hall.idOf⟩
  · obtain ⟨hmem, hitem⟩ := h.nodes id m hm
    refine ⟨?_, (hall.idOf m).trans hitem⟩
    rcases List.mem_cons.mp hmem with rfl | hmem
    · exact List.mem_append_right _ (List.mem_singleton_self m)
    · exact List.mem_append_left _ hmem
  · have hhere : q.list.idOf n ∈ q.infoMap := Finmap.lookup_isSome.mp (by rw [hinfo]; rfl)
    rw [Finmap.mem_insert, h.keys]
    constructor
    · exact .inr
    · rintro (rfl | hmem)
      · exact hhere
      · exact hmem

theorem poll_effect (h : q.Well) (due : I → Bool) (renew : I → Option I) :
    q.PollEffect due renew (q.poll due renew) := by
  have hfirst := MsgList.getFirst_spec h.holds
  cases hnodes : q.list.nodes with
  | nil =>
    rw [hnodes] at hfirst
    rw [poll, hfirst]
    exact .empty (by rw [ids, hnodes, List.map_nil])
  | cons n rest =>
    have hkeeps : q.Keeps ([] ++ n :: rest) := hnodes ▸ h
    have hids : q.ids = q.list.idOf n :: rest.map q.list.idOf := hkeeps.ids_eq
    rw [hnodes] at hfirst
    rw [poll, hfirst]
    simp only [List.head?_cons, Option.map_some, Option.bind_some]
    cases hinfo : q.infoMap.lookup (q.list.idOf n) with
    | none => exact .panics hids hinfo
    | some info =>
      simp only [Option.bind_some]
      by_cases hdue : due info = true
      · obtain ⟨list, hpoll, hholds, hrelinks⟩ := MsgList.poll_spec hkeeps.holds
        rw [if_pos hdue, hpoll, Option.bind_some]
        cases hrenew : renew info with
        | none =>
          have hkeeps' := hkeeps.erase rfl hholds hrelinks
          refine .drops hids hinfo hdue hrenew hkeeps'.well ?_ rfl
          rw [hkeeps'.ids_eq]
          exact List.map_congr_left fun m _ => hrelinks.idOf m
        | some info' =>
          obtain ⟨list', hpush, hkeeps'⟩ := hkeeps.rotate hinfo hholds hrelinks info'
          simp only [hpush, Option.map_some]
          refine .renews hids hinfo hdue hrenew hkeeps'.1.well ?_ rfl
          rw [hkeeps'.1.ids_eq, ← List.map_singleton, ← List.map_append]
          exact List.map_congr_left fun m _ => hkeeps'.2 m
      · rw [if_neg hdue]
        exact .waits hids hinfo (Bool.eq_false_of_not_eq_true hdue)

theorem early_first {due : I → Bool} (h : ∀ id ∈ q.ids.head?, ∃ info,
    q.infoMap.lookup id = some info ∧ due info = false) (hid : id ∈ q.ids.head?)
    (hinfo : q.infoMap.lookup id = some info) : due info = false := by
  obtain ⟨info', hfound, hearly⟩ := h id hid
  obtain rfl := Option.some.inj (hfound.symm.trans hinfo)
  exact hearly

variable (id) in
/-- A step of another entry leaves the one of `id` as it was. -/
structure SameEntry (q q' : MsgQueue I) : Prop where
  well : q'.Well
  count : q'.ids.count id = q.ids.count id
  lookup : q'.infoMap.lookup id = q.infoMap.lookup id

theorem SameEntry.mem_iff (h : SameEntry id q q') : id ∈ q'.ids ↔ id ∈ q.ids := by
  rw [← List.count_pos_iff, ← List.count_pos_iff, h.count]

theorem SameEntry.push {other : String} (hwell : q.Well) (hne : other ≠ id)
    (h : q.push other info = some q') : SameEntry id q q' := by
  obtain ⟨q'', hpush, hwell', hids, hinfo⟩ := push_spec hwell other info
  obtain rfl := Option.some.inj (hpush.symm.trans h)
  refine ⟨hwell', ?_, ?_⟩
  · rw [hids, List.count_append, List.count_singleton, if_neg (by simpa using hne), Nat.add_zero]
  · rw [hinfo, Finmap.lookup_insert_of_ne _ hne.symm]

theorem SameEntry.remove {other : String} (hwell : q.Well) (hne : other ≠ id)
    (h : q.remove other = some q') : SameEntry id q q' := by
  obtain ⟨q'', hremove, hwell', hcases⟩ := remove_spec hwell other
  obtain rfl := Option.some.inj (hremove.symm.trans h)
  rcases hcases with ⟨_, hsame⟩ | ⟨before, behind, hids, hids', hinfo⟩
  · exact ⟨hwell', by rw [hsame], by rw [hsame]⟩
  · refine ⟨hwell', ?_, by rw [hinfo, Finmap.lookup_erase_ne hne.symm]⟩
    rw [hids, hids', List.count_append, List.count_append, List.count_cons_of_ne hne]

theorem count_rotate {other : String} {rest : List String} (hids : q.ids = other :: rest)
    (hids' : q'.ids = rest ++ [other]) : q'.ids.count id = q.ids.count id := by
  rw [hids, hids']
  exact (List.perm_append_singleton other rest).count_eq id

/-- The entry at the front comes to the end. -/
theorem SameEntry.rotate {other : String} {rest : List String} (hwell : q'.Well)
    (hne : other ≠ id) (hids : q.ids = other :: rest) (hids' : q'.ids = rest ++ [other])
    (hinfo : q'.infoMap = q.infoMap.insert other info) : SameEntry id q q' := by
  refine ⟨hwell, count_rotate hids hids', ?_⟩
  rw [hinfo, Finmap.lookup_insert_of_ne _ hne.symm]

theorem push_fresh (hwell : q.Well) (hfresh : id ∉ q.ids) (h : q.push id info = some q') :
    q'.Well ∧ q'.ids.count id = 1 ∧ q'.infoMap.lookup id = some info := by
  obtain ⟨q'', hpush, hwell', hids, hinfo⟩ := push_spec hwell id info
  obtain rfl := Option.some.inj (hpush.symm.trans h)
  refine ⟨hwell', ?_, by rw [hinfo, Finmap.lookup_insert]⟩
  rw [hids, List.count_append, List.count_eq_zero.mpr hfresh, List.count_singleton_self]

theorem remove_once (hwell : q.Well) (honce : q.ids.count id ≤ 1)
    (hinfo : id ∈ q.ids → id ∈ q.infoMap) (h : q.remove id = some q') :
    q'.Well ∧ id ∉ q'.ids := by
  obtain ⟨q'', hremove, hwell', hcases⟩ := remove_spec hwell id
  obtain rfl := Option.some.inj (hremove.symm.trans h)
  refine ⟨hwell', ?_⟩
  rcases hcases with ⟨hmissing, hsame⟩ | ⟨before, behind, hids, hids', _⟩
  · rw [hsame]
    exact fun hmem => hmissing (hinfo hmem)
  · rw [hids, List.count_append, List.count_cons_self] at honce
    rw [hids', ← List.count_eq_zero, List.count_append]
    omega

end MsgQueue

end JobPortal.Queues

import JobPortal.RumorQueue

/-! The order of the rumors that were not acknowledged. All of them wait for the same time before
they are sent again, and the list has them in the order in which they were sent. -/
namespace JobPortal.Queues

open LinkedLists Runs

namespace MsgQueue

variable {I : Type} {time : I → ℤ} {infoMap : GoMap String I} {clock clock' : ℤ}
  {ids ids' : List String} {id : String} {info : I} {q : MsgQueue I}

def Sorted (time : I → ℤ) (infoMap : GoMap String I) (ids : List String) : Prop :=
  ids.Pairwise fun a b => ∀ x ∈ infoMap.lookup a, ∀ y ∈ infoMap.lookup b, time x ≤ time y

def Past (time : I → ℤ) (infoMap : GoMap String I) (clock : ℤ) : Prop :=
  ∀ id, ∀ info ∈ infoMap.lookup id, time info ≤ clock

theorem Past.later (h : Past time infoMap clock) (hclock : clock ≤ clock') :
    Past time infoMap clock' := fun id info hinfo => (h id info hinfo).trans hclock

theorem Past.insert (h : Past time infoMap clock) (hinfo : time info ≤ clock) :
    Past time (infoMap.insert id info) clock := by
  intro other x hx
  by_cases hid : other = id
  · subst hid
    obtain rfl := Option.some.inj ((Finmap.lookup_insert _).symm.trans hx)
    exact hinfo
  · exact h other x ((Finmap.lookup_insert_of_ne _ hid).symm.trans hx)

theorem Past.erase (h : Past time infoMap clock) : Past time (infoMap.erase id) clock :=
  fun other x hx => h other x (lookup_of_erase hx)

theorem Sorted.erase (h : Sorted time infoMap ids) (hids : ids'.Sublist ids) :
    Sorted time (infoMap.erase id) ids' := pairwise_erase h hids

theorem Sorted.concat (h : Sorted time infoMap ids) (hid : id ∉ ids)
    (hlatest : Past time infoMap (time info)) :
    Sorted time (infoMap.insert id info) (ids ++ [id]) := by
  have hsame : ∀ a ∈ ids, (infoMap.insert id info).lookup a = infoMap.lookup a := by
    intro a ha
    exact Finmap.lookup_insert_of_ne _ fun heq => hid (heq ▸ ha)
  refine List.pairwise_append.mpr ⟨?_, List.pairwise_singleton _ _, ?_⟩
  · refine List.Pairwise.imp_of_mem (fun {a b} ha hb hab => ?_) h
    rwa [hsame a ha, hsame b hb]
  · intro a ha b hb x hx y hy
    obtain rfl := List.mem_singleton.mp hb
    rw [hsame a ha] at hx
    obtain rfl := Option.some.inj ((Finmap.lookup_insert _).symm.trans hy)
    exact hlatest a x hx

/-- The first entry of the list is the earliest. -/
theorem Sorted.first_le {first : String} {rest : List String} {x : I}
    (h : Sorted time q.infoMap q.ids) (hwell : q.Well) (hids : q.ids = first :: rest)
    (hfirst : q.infoMap.lookup first = some x) (hinfo : q.infoMap.lookup id = some info) :
    time x ≤ time info := by
  have hmem := hwell.mem_ids hinfo
  rw [hids] at hmem h
  rcases List.mem_cons.mp hmem with rfl | hrest
  · obtain rfl := Option.some.inj (hfirst.symm.trans hinfo)
    exact le_refl _
  · exact List.rel_of_pairwise_cons h hrest x hfirst info hinfo

end MsgQueue

structure TimedRumorsQueue (M : Type) where
  queue : SafeRumorsQueue M
  clock : ℤ

/-- Readings of the clock do not go back. -/
def RumorsQueueEvent.advance {M : Type} (clock : ℤ) : RumorsQueueEvent M → Option ℤ
  | .push _ _ _ now => if clock ≤ now then some now else none
  | .getRumor now now' => if clock ≤ now ∧ now ≤ now' then some now' else none
  | .remove _ => some clock

namespace SafeRumorsQueue

variable {M : Type}

/-- The entries of the maps are those of the list, which has each of them once and in the order of
their send times. The way back meets them as well. -/
structure OrderedQueue (q : SafeRumorsQueue M) : Prop where
  linked : Linked q.list.heap (q.list.head :: q.list.nodes ++ [q.list.tail])
  nodup : q.ids.Nodup
  back : q.idsBack = q.ids.reverse
  nodeMap : ∀ id, id ∈ q.ids ↔ id ∈ q.nodeMap
  infoMap : ∀ id, id ∈ q.ids ↔ id ∈ q.infoMap
  node : ∀ id n, q.nodeMap.lookup id = some n → n ∈ q.list.nodes ∧ q.list.idOf n = id
  sorted : MsgQueue.Sorted RumorInfo.sendTime q.infoMap q.ids

/-- There is something to send again exactly when an entry has waited for the timeout. -/
def Prompt (q : SafeRumorsQueue M) : Prop :=
  ∀ now now', ∃ q' r, q.getRumor now now' = some (q', r) ∧
    (r = none ↔ ∀ id info, q.infoMap.lookup id = some info → now - info.sendTime < q.timeout)

end SafeRumorsQueue

namespace TimedRumorsQueue

open MsgQueue SafeRumorsQueue

variable {M : Type}

def start (timeout clock : ℤ) : TimedRumorsQueue M := ⟨newSafeRumorsQueue timeout, clock⟩

def step (s : TimedRumorsQueue M) (e : RumorsQueueEvent M) : Option (TimedRumorsQueue M) :=
  (e.advance s.clock).bind fun clock => (s.queue.step e).map fun queue => ⟨queue, clock⟩

structure InOrder (s : TimedRumorsQueue M) : Prop where
  well : s.queue.Well
  consistent : s.queue.Consistent
  sorted : Sorted RumorInfo.sendTime s.queue.infoMap s.queue.ids
  past : Past RumorInfo.sendTime s.queue.infoMap s.clock

variable {s s' : TimedRumorsQueue M} {e : RumorsQueueEvent M} {es : List (RumorsQueueEvent M)}
  {timeout clock : ℤ}

theorem inOrder_start : (start timeout clock : TimedRumorsQueue M).InOrder where
  well := well_newMsgQueue
  consistent := consistent_newSafeRumorsQueue timeout
  sorted := by
    have hids : (start timeout clock : TimedRumorsQueue M).queue.ids = [] := ids_newMsgQueue
    rw [hids]
    exact List.Pairwise.nil
  past id info hinfo := by simp [start, newSafeRumorsQueue, newMsgQueue] at hinfo

theorem advance_le (hadvance : e.advance s.clock = some clock) : s.clock ≤ clock := by
  cases e with
  | push _ _ _ now =>
    rw [RumorsQueueEvent.advance] at hadvance
    split_ifs at hadvance with hclock
    exact Option.some.inj hadvance ▸ hclock
  | getRumor now now' =>
    rw [RumorsQueueEvent.advance] at hadvance
    split_ifs at hadvance with hclock
    exact Option.some.inj hadvance ▸ hclock.1.trans hclock.2
  | remove id => exact (Option.some.inj hadvance).le

theorem InOrder.sorted_step (hs : s.InOrder) (hnew : s.queue.PushesNew e)
    {queue : SafeRumorsQueue M} (hadvance : e.advance s.clock = some clock)
    (hstep : s.queue.step e = some queue) :
    Sorted RumorInfo.sendTime queue.infoMap queue.ids ∧
      Past RumorInfo.sendTime queue.infoMap clock := by
  have hpast := hs.past.later (advance_le hadvance)
  cases e with
  | push msg dest id now =>
    rw [RumorsQueueEvent.advance] at hadvance
    split_ifs at hadvance with hclock
    obtain rfl := Option.some.inj hadvance
    obtain ⟨q, hpush, rfl⟩ := Option.map_eq_some_iff.mp hstep
    obtain ⟨q', hq', _, hids, hinfo⟩ := MsgQueue.push_spec hs.well id ⟨dest, now, msg⟩
    obtain rfl := Option.some.inj (hq'.symm.trans hpush)
    simp only [hids, hinfo]
    exact ⟨hs.sorted.concat hnew hpast, hpast.insert (le_refl _)⟩
  | getRumor now now' =>
    rw [RumorsQueueEvent.advance] at hadvance
    split_ifs at hadvance with hclock
    obtain rfl := Option.some.inj hadvance
    obtain ⟨⟨q, r⟩, hget, rfl⟩ := Option.map_eq_some_iff.mp hstep
    have heffect := getRumor_effect hs.well now now'
    rw [hget] at heffect
    cases heffect with
    | idles => exact ⟨hs.sorted, hpast⟩
    | @resends id rest info _ ids _ _ _ ids' infoMap =>
      have hnodup := hs.consistent.nodup
      have hsorted := hs.sorted
      rw [ids] at hnodup hsorted
      have hrest : Sorted RumorInfo.sendTime s.queue.infoMap rest := List.Pairwise.of_cons hsorted
      simp only [ids', infoMap]
      exact ⟨hrest.concat (List.nodup_cons.mp hnodup).1 hpast, hpast.insert (le_refl _)⟩
  | remove id =>
    obtain ⟨q, hremove, rfl⟩ := Option.map_eq_some_iff.mp hstep
    obtain ⟨q', hq', _, hcases⟩ := MsgQueue.remove_spec hs.well id
    obtain rfl := Option.some.inj (hq'.symm.trans hremove)
    rcases hcases with ⟨_, rfl⟩ | ⟨before, behind, hids, hids', hinfo⟩
    · exact ⟨hs.sorted, hpast⟩
    · simp only [hids', hinfo]
      refine ⟨hs.sorted.erase ?_, hpast.erase⟩
      rw [hids]
      exact (List.Sublist.refl before).append (List.sublist_cons_self id behind)

theorem InOrder.step (hs : s.InOrder) (hnew : s.queue.PushesNew e) (hstep : s.step e = some s') :
    s'.InOrder := by
  obtain ⟨clock, hadvance, hmap⟩ := Option.bind_eq_some_iff.mp hstep
  obtain ⟨queue, hqueue, rfl⟩ := Option.map_eq_some_iff.mp hmap
  obtain ⟨hsorted, hpast⟩ := hs.sorted_step hnew hadvance hqueue
  exact ⟨(step_effect hs.well hqueue).1, (hs.consistent.step_iff hs.well hqueue).mpr hnew, hsorted,
    hpast⟩

theorem inOrder_of_run (h : Run step (fun s => s.queue.PushesNew) (start timeout clock) es s) :
    s.InOrder :=
  h.invariant inOrder_start fun hs hnew hstep => hs.step hnew hstep

theorem InOrder.orderedQueue (hs : s.InOrder) : s.queue.OrderedQueue where
  linked := hs.well.holds.linked
  nodup := hs.consistent.nodup
  back := hs.well.idsBack_eq
  nodeMap id := by
    refine ⟨fun hid => (hs.consistent.entries id hid).2, fun hkey => ?_⟩
    obtain ⟨info, hinfo⟩ := Finmap.mem_iff.mp ((hs.well.keys id).mp hkey)
    exact hs.well.mem_ids hinfo
  infoMap id := by
    refine ⟨fun hid => (hs.consistent.entries id hid).1, fun hkey => ?_⟩
    obtain ⟨info, hinfo⟩ := Finmap.mem_iff.mp hkey
    exact hs.well.mem_ids hinfo
  node := hs.well.nodes
  sorted := hs.sorted

/-- The first entry is due when any entry is. -/
theorem InOrder.getRumor_eq_none_iff (hs : s.InOrder) {now now' : ℤ} {queue : SafeRumorsQueue M}
    {r : Option (String × List (Gossip.Rumor M) × String)}
    (hget : s.queue.getRumor now now' = some (queue, r)) :
    r = none ↔ ∀ id info, s.queue.infoMap.lookup id = some info →
      now - info.sendTime < s.queue.timeout := by
  have hdue : ∀ info, s.queue.due now info = false ↔ now - info.sendTime < s.queue.timeout :=
    fun info => by rw [due, decide_eq_false_iff_not, not_le]
  have heffect := getRumor_effect hs.well now now'
  rw [hget] at heffect
  cases heffect with
  | idles early =>
    refine iff_of_true rfl fun id info hinfo => ?_
    obtain ⟨first, rest, hids⟩ := List.exists_cons_of_ne_nil (List.ne_nil_of_mem
      (hs.well.mem_ids hinfo))
    obtain ⟨x, hx, hearly⟩ := early first (by rw [hids]; rfl)
    have hearliest := hs.sorted.first_le hs.well hids hx hinfo
    have hwaits := (hdue x).mp hearly
    omega
  | @resends first _ x _ _ found isDue =>
    refine iff_of_false (Option.some_ne_none _) fun hall => ?_
    rw [(hdue x).mpr (hall first x found)] at isDue
    cases isDue

theorem InOrder.prompt (hs : s.InOrder) : s.queue.Prompt := by
  intro now now'
  obtain ⟨⟨queue, r⟩, hget⟩ := Option.isSome_iff_exists.mp (hs.consistent.answers now now')
  exact ⟨queue, r, hget, hs.getRumor_eq_none_iff hget⟩

/-- In a run that pushes no id which is in the list, the list is a queue in the order of the send
times. -/
theorem orderedQueue_of_run
    (h : Run step (fun s => s.queue.PushesNew) (start timeout clock) es s) :
    s.queue.OrderedQueue ∧ s.queue.Prompt :=
  have hs := inOrder_of_run h
  ⟨hs.orderedQueue, hs.prompt⟩

end TimedRumorsQueue

namespace Sample

open TimedRumorsQueue

def twoRumors : List (RumorsQueueEvent String) :=
  [.push [⟨"a", 1, some "x"⟩] "b" "p" 0, .push [⟨"a", 2, some "y"⟩] "c" "q" 4, .getRumor 12 12,
    .remove "q", .push [⟨"a", 3, some "z"⟩] "b" "r" 15]

theorem twoRumors_isSome : (exec (guarded step fun s => s.queue.PushesNew) (start 10 0)
    twoRumors).isSome := by decide

theorem orderedQueue_twoRumors :
    let s := (exec (guarded step fun s => s.queue.PushesNew) (start 10 0) twoRumors).get
      twoRumors_isSome
    s.queue.OrderedQueue ∧ s.queue.Prompt :=
  orderedQueue_of_run (run_of_guarded (run_exec_get twoRumors_isSome))

end Sample

end JobPortal.Queues

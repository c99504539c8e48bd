import JobPortal.SearchRequests

/-! Only the first entry of a queue is looked at, so that an entry which is due may wait behind one
that is not. Entries are sent again in time where they become due in the order they are queued. -/
namespace JobPortal.Queues

open Runs Sharing

namespace MsgQueue

variable {I : Type} {deadline : I → ℤ} {infoMap infoMap' : GoMap String I} {clock clock' : ℤ}
  {ids : List String} {id : String} {q : MsgQueue I}

/-- No entry is due after one that is queued behind it, unless it already is. -/
def InTurn (deadline : I → ℤ) (infoMap : GoMap String I) (clock : ℤ) (ids : List String) : Prop :=
  ids.Pairwise fun a b => ∀ x ∈ infoMap.lookup a, ∀ y ∈ infoMap.lookup b,
    deadline x ≤ deadline y ∨ deadline x ≤ clock

instance : Decidable (InTurn deadline infoMap clock ids) :=
  inferInstanceAs (Decidable (ids.Pairwise _))

theorem InTurn.later (h : InTurn deadline infoMap clock ids) (hclock : clock ≤ clock') :
    InTurn deadline infoMap clock' ids :=
  List.Pairwise.imp (fun hab x hx y hy => (hab x hx y hy).imp_right hclock.trans') h

theorem InTurn.erase {ids' : List String} (h : InTurn deadline infoMap clock ids)
    (hids : ids'.Sublist ids) : InTurn deadline (infoMap.erase id) clock ids' :=
  pairwise_erase h hids

theorem InTurn.remove {q' : MsgQueue I} (h : InTurn deadline q.infoMap clock q.ids)
    (hwell : q.Well) (hremove : q.remove id = some q') :
    q'.Well ∧ InTurn deadline q'.infoMap clock q'.ids := by
  obtain ⟨q'', hq, hwell', hcases⟩ := remove_spec hwell id
  obtain rfl := Option.some.inj (hq.symm.trans hremove)
  refine ⟨hwell', ?_⟩
  rcases hcases with ⟨_, hsame⟩ | ⟨before, behind, hids, hids', hinfo⟩
  · rw [hsame]
    exact h
  · rw [hids', hinfo]
    apply h.erase
    rw [hids]
    exact (List.Sublist.refl before).append (List.sublist_cons_self id behind)

theorem InTurn.waits (h : InTurn deadline q.infoMap clock q.ids) (hwell : q.Well) {now : ℤ}
    (hnow : clock ≤ now)
    (hfirst : ∀ id ∈ q.ids.head?, ∃ info, q.infoMap.lookup id = some info ∧ now < deadline info)
    {info : I} (hinfo : q.infoMap.lookup id = some info) : now < deadline info := by
  have hmem := hwell.mem_ids hinfo
  cases hids : q.ids with
  | nil =>
    rw [hids] at hmem
    cases hmem
  | cons first rest =>
    rw [hids] at hmem h hfirst
    obtain ⟨ahead, hahead, hearly⟩ := hfirst first rfl
    rcases List.mem_cons.mp hmem with rfl | hrest
    · obtain rfl := Option.some.inj (hahead.symm.trans hinfo)
      exact hearly
    · rcases List.rel_of_pairwise_cons h hrest ahead hahead info hinfo with hle | hdue
      · exact hearly.trans_le hle
      · exact absurd (hdue.trans hnow) hearly.not_ge

theorem early_turn {due : I → Bool} {P : String → List String → I → Prop}
    (early : ∀ id ∈ q.ids.head?, ∃ info, q.infoMap.lookup id = some info ∧ due info = false) :
    match q.ids with
    | [] => True
    | id :: rest => ∀ info ∈ q.infoMap.lookup id, due info = true → P id rest info := by
  split
  · trivial
  · next id rest hids =>
    intro info hinfo hdue
    have hfirst : id ∈ q.ids.head? := by
      rw [hids]
      rfl
    exact absurd hdue (Bool.eq_false_iff.mp (early_first early hfirst hinfo))

theorem InTurn.congr (h : InTurn deadline infoMap clock ids)
    (hsame : ∀ id ∈ ids, infoMap'.lookup id = infoMap.lookup id) :
    InTurn deadline infoMap' clock ids := by
  refine List.Pairwise.imp_of_mem (fun {a b} ha hb hab => ?_) h
  rwa [hsame a ha, hsame b hb]

theorem remove_first {rest : List String} (hwell : q.Well) (hids : q.ids = id :: rest)
    (hnodup : q.ids.Nodup) (hhere : id ∈ q.infoMap) : ∃ q', q.remove id = some q' ∧ q'.Well ∧
      q'.ids = rest ∧ q'.infoMap = q.infoMap.erase id := by
  obtain ⟨q', hremove, hwell', hcases⟩ := remove_spec hwell id
  refine ⟨q', hremove, hwell', ?_⟩
  rcases hcases with ⟨hmissing, _⟩ | ⟨before, behind, hsplit, hids', hinfo⟩
  · exact absurd hhere hmissing
  · rw [hids] at hsplit hnodup
    cases before with
    | nil =>
      obtain rfl := (List.cons.inj hsplit).2
      exact ⟨hids', hinfo⟩
    | cons first before =>
      have hagain : id ∈ rest := by
        rw [(List.cons.inj hsplit).2]
        exact List.mem_append_right _ List.mem_cons_self
      exact absurd hagain (List.nodup_cons.mp hnodup).1

/-- The first of two entries that are not in turn comes to the front when those ahead of it are
removed. -/
theorem exists_removals (hwell : q.Well) (hnodup : q.ids.Nodup)
    (hhere : ∀ id ∈ q.ids, id ∈ q.infoMap) (h : ¬ InTurn deadline q.infoMap clock q.ids) :
    ∃ removed q', AnyRun remove q removed q' ∧ q'.Well ∧ ∃ first x later y now,
      q'.ids.head? = some first ∧ q'.infoMap.lookup first = some x ∧
      q'.infoMap.lookup later = some y ∧ clock ≤ now ∧ deadline y ≤ now ∧ now < deadline x := by
  induction hids : q.ids generalizing q with
  | nil =>
    rw [hids] at h
    exact absurd List.Pairwise.nil h
  | cons id rest ih =>
    by_cases hrest : InTurn deadline q.infoMap clock rest
    · rw [hids, InTurn, List.pairwise_cons] at h
      have hfirst := not_and.mp (mt And.symm h) hrest
      push Not at hfirst
      obtain ⟨later, _, x, hx, y, hy, hlater, hclock⟩ := hfirst
      refine ⟨[], q, .nil, hwell, id, x, later, y, max clock (deadline y), ?_, hx, hy,
        le_max_left _ _, le_max_right _ _, max_lt hclock hlater⟩
      rw [hids]
      rfl
    · have hid : id ∈ q.infoMap := hhere id (by rw [hids]; exact List.mem_cons_self)
      obtain ⟨q₁, hremove, hwell₁, hids₁, hinfo₁⟩ := remove_first hwell hids hnodup hid
      rw [hids] at hnodup hhere
      have hsame : ∀ id' ∈ rest, q₁.infoMap.lookup id' = q.infoMap.lookup id' := by
        intro id' hid'
        rw [hinfo₁, Finmap.lookup_erase_ne]
        exact fun heq => (List.nodup_cons.mp hnodup).1 (heq ▸ hid')
      have hhere₁ : ∀ id' ∈ q₁.ids, id' ∈ q₁.infoMap := by
        intro id' hid'
        rw [hids₁] at hid'
        rw [← Finmap.lookup_isSome, hsame id' hid', Finmap.lookup_isSome]
        exact hhere id' (List.mem_cons_of_mem id hid')
      have hnot : ¬ InTurn deadline q₁.infoMap clock q₁.ids := by
        rw [hids₁]
        exact fun hturn => hrest (hturn.congr fun id' hid' => (hsame id' hid').symm)
      obtain ⟨removed, q', hrun, hfront⟩ :=
        ih hwell₁ (hids₁ ▸ (List.nodup_cons.mp hnodup).2) hhere₁ hnot hids₁
      exact ⟨[id] ++ removed, q', (Run.one trivial hremove).append hrun, hfront⟩

end MsgQueue

def DataRequestInfo.deadline (info : DataRequestInfo) : ℤ :=
  info.sendTime + milliseconds info.timeout

def SearchRequestInfo.deadline (info : SearchRequestInfo) : ℤ :=
  info.sendTime + milliseconds info.timeout

theorem DataRequestInfo.due_eq_false {now : ℤ} {info : DataRequestInfo} :
    info.due now = false ↔ now < info.deadline := by
  rw [due, decide_eq_false_iff_not, deadline]
  omega

theorem SearchRequestInfo.due_eq_false {now : ℤ} {info : SearchRequestInfo} :
    info.due now = false ↔ now < info.deadline := by
  rw [due, decide_eq_false_iff_not, deadline]
  omega

theorem SafeDataRequestQueue.getDataRequest_waits {q : SafeDataRequestQueue} {id : String}
    {info : DataRequestInfo} {now now' : ℤ} (hwell : q.Well) (hfirst : q.ids.head? = some id)
    (hinfo : q.infoMap.lookup id = some info) (hearly : now < info.deadline) :
    getDataRequest q now now' = some (q, none) := by
  have heffect := getDataRequest_effect hwell now now'
  generalize getDataRequest q now now' = got at heffect
  cases heffect with
  | panics first lost =>
    obtain rfl := Option.some.inj (first.symm.trans hfirst)
    rw [lost] at hinfo
    cases hinfo
  | idles => rfl
  | resends ids found isDue =>
    rw [ids] at hfirst
    obtain rfl := Option.some.inj hfirst
    obtain rfl := Option.some.inj (found.symm.trans hinfo)
    rw [DataRequestInfo.due_eq_false.mpr hearly] at isDue
    cases isDue

theorem SafeSearchRequestQueue.getSearchRequest_waits {q : SafeSearchRequestQueue} {id : String}
    {info : SearchRequestInfo} {now now' : ℤ} (hwell : q.Well) (hfirst : q.ids.head? = some id)
    (hinfo : q.infoMap.lookup id = some info) (hearly : now < info.deadline) :
    getSearchRequest q now now' = some (q, .idle) := by
  have heffect := getSearchRequest_effect hwell now now'
  generalize getSearchRequest q now now' = got at heffect
  cases heffect with
  | panics first lost =>
    obtain rfl := Option.some.inj (first.symm.trans hfirst)
    rw [lost] at hinfo
    cases hinfo
  | idles => rfl
  | closes ids found isDue | resends ids found isDue =>
    rw [ids] at hfirst
    obtain rfl := Option.some.inj hfirst
    obtain rfl := Option.some.inj (found.symm.trans hinfo)
    rw [SearchRequestInfo.due_eq_false.mpr hearly] at isDue
    cases isDue

/-- The queues of requests of a node, and the last reading of its clock. -/
structure RequestQueues where
  dataRequestQueue : SafeDataRequestQueue
  searchRequestQueue : SafeSearchRequestQueue
  clock : ℤ

inductive RequestQueuesEvent
  | pushData (msg : DataRequestMessage) (dest id : String) (backoff : Backoff) (now : ℤ)
  | getDataRequest (now now' : ℤ)
  | removeData (id : String)
  | pushSearch (msg : SearchRequestMessage) (id : String) (ring : ExpandingRing) (now : ℤ)
  | getSearchRequest (now now' : ℤ)
  | removeSearch (id : String)
  deriving DecidableEq, Repr

namespace RequestQueues

open MsgQueue SafeDataRequestQueue SafeSearchRequestQueue

def start (clock : ℤ) : RequestQueues := ⟨.newMsgQueue, .newMsgQueue, clock⟩

/-- Readings of the clock do not go back. -/
def step (s : RequestQueues) : RequestQueuesEvent → Option RequestQueues
  | .pushData msg dest id backoff now =>
    if s.clock ≤ now then
      (SafeDataRequestQueue.push s.dataRequestQueue msg dest id backoff now).map fun queue =>
        { s with dataRequestQueue := queue, clock := now }
    else none
  | .getDataRequest now now' =>
    if s.clock ≤ now ∧ now ≤ now' then
      (getDataRequest s.dataRequestQueue now now').map fun (queue, _) =>
        { s with dataRequestQueue := queue, clock := now' }
    else none
  | .removeData id => (MsgQueue.remove s.dataRequestQueue id).map fun queue =>
      { s with dataRequestQueue := queue }
  | .pushSearch msg id ring now =>
    if s.clock ≤ now then
      (SafeSearchRequestQueue.push s.searchRequestQueue msg id ring now).map fun queue =>
        { s with searchRequestQueue := queue, clock := now }
    else none
  | .getSearchRequest now now' =>
    if s.clock ≤ now ∧ now ≤ now' then
      (getSearchRequest s.searchRequestQueue now now').map fun (queue, _) =>
        { s with searchRequestQueue := queue, clock := now' }
    else none
  | .removeSearch id => (MsgQueue.remove s.searchRequestQueue id).map fun queue =>
      { s with searchRequestQueue := queue }

/-- Where nothing is sent again, no entry has been waiting for as long as its timeout. -/
def Prompt (s : RequestQueues) : RequestQueuesEvent → Prop
  | .getDataRequest now now' => ∀ queue, getDataRequest s.dataRequestQueue now now' =
      some (queue, none) → ∀ id info, s.dataRequestQueue.infoMap.lookup id = some info →
        now - info.sendTime < milliseconds info.timeout
  | .getSearchRequest now now' => ∀ queue, getSearchRequest s.searchRequestQueue now now' =
      some (queue, .idle) → ∀ id info, s.searchRequestQueue.infoMap.lookup id = some info →
        now - info.sendTime < milliseconds info.timeout
  | .pushData .. | .removeData _ | .pushSearch .. | .removeSearch _ => True

/-- An entry that comes to the end of its queue is not due before one that was there and is not due
yet. -/
def AtItsPlace (s : RequestQueues) : RequestQueuesEvent → Prop
  | .pushData _ dest id backoff now => InTurn DataRequestInfo.deadline
      (s.dataRequestQueue.infoMap.insert id (.new dest backoff now)) now
      (s.dataRequestQueue.ids ++ [id])
  | .getDataRequest now now' => match s.dataRequestQueue.ids with
    | [] => True
    | id :: rest => ∀ info ∈ s.dataRequestQueue.infoMap.lookup id, info.due now = true →
        InTurn DataRequestInfo.deadline
          (s.dataRequestQueue.infoMap.insert id (info.renew now')) now' (rest ++ [id])
  | .pushSearch msg id ring now => InTurn SearchRequestInfo.deadline
      (s.searchRequestQueue.infoMap.insert id (.new msg ring now)) now
      (s.searchRequestQueue.ids ++ [id])
  | .getSearchRequest now now' => match s.searchRequestQueue.ids with
    | [] => True
    | id :: rest => ∀ info ∈ s.searchRequestQueue.infoMap.lookup id, info.due now = true →
        info.retry ≠ 0 → InTurn SearchRequestInfo.deadline
          (s.searchRequestQueue.infoMap.insert id (info.widen now')) now' (rest ++ [id])
  | .removeData _ | .removeSearch _ => True

instance : ∀ (s : RequestQueues) (e : RequestQueuesEvent), Decidable (s.AtItsPlace e)
  | _, .pushData .. | _, .pushSearch .. => inferInstanceAs (Decidable (InTurn ..))
  | s, .getDataRequest .. => by
    unfold AtItsPlace
    cases s.dataRequestQueue.ids <;> infer_instance
  | s, .getSearchRequest .. => by
    unfold AtItsPlace
    cases s.searchRequestQueue.ids <;> infer_instance
  | _, .removeData _ | _, .removeSearch _ => .isTrue trivial

variable {s s' : RequestQueues} {e : RequestQueuesEvent} {es : List RequestQueuesEvent} {clock : ℤ}

structure Ordered (s : RequestQueues) : Prop where
  wellData : s.dataRequestQueue.Well
  wellSearch : s.searchRequestQueue.Well
  data : InTurn DataRequestInfo.deadline s.dataRequestQueue.infoMap s.clock s.dataRequestQueue.ids
  search : InTurn SearchRequestInfo.deadline s.searchRequestQueue.infoMap s.clock
    s.searchRequestQueue.ids

theorem ordered_start : (start clock).Ordered where
  wellData := well_newMsgQueue
  wellSearch := well_newMsgQueue
  data := by
    rw [start, ids_newMsgQueue]
    exact List.Pairwise.nil
  search := by
    rw [start, ids_newMsgQueue]
    exact List.Pairwise.nil

theorem Ordered.getDataRequest_iff {now now' : ℤ} {queue : SafeDataRequestQueue}
    {r : Option Resent} (hs : s.Ordered) (hclock : s.clock ≤ now) (hnow : now ≤ now')
    (hget : SafeDataRequestQueue.getDataRequest s.dataRequestQueue now now' = some (queue, r)) :
    Ordered { s with dataRequestQueue := queue, clock := now' } ↔
      s.AtItsPlace (.getDataRequest now now') := by
  have hlater := hclock.trans hnow
  have heffect := getDataRequest_effect hs.wellData now now'
  rw [hget] at heffect
  cases heffect with
  | idles early =>
    refine iff_of_true ⟨hs.wellData, hs.wellSearch, hs.data.later hlater, hs.search.later hlater⟩ ?_
    exact early_turn early
  | resends ids found isDue well ids' infoMap =>
    rw [AtItsPlace, ids]
    constructor
    · intro h info hinfo _
      obtain rfl := Option.some.inj (found.symm.trans hinfo)
      have hdata := h.data
      rwa [ids', infoMap] at hdata
    · intro h
      refine ⟨well, hs.wellSearch, ?_, hs.search.later hlater⟩
      rw [ids', infoMap]
      exact h _ found isDue

theorem Ordered.getSearchRequest_iff {now now' : ℤ} {queue : SafeSearchRequestQueue}
    {r : SearchTurn} (hs : s.Ordered) (hclock : s.clock ≤ now) (hnow : now ≤ now')
    (hget : SafeSearchRequestQueue.getSearchRequest s.searchRequestQueue now now' =
      some (queue, r)) :
    Ordered { s with searchRequestQueue := queue, clock := now' } ↔
      s.AtItsPlace (.getSearchRequest now now') := by
  have hlater := hclock.trans hnow
  have heffect := getSearchRequest_effect hs.wellSearch now now'
  rw [hget] at heffect
  cases heffect with
  | idles early =>
    refine iff_of_true ⟨hs.wellData, hs.wellSearch, hs.data.later hlater, hs.search.later hlater⟩ ?_
    exact early_turn early
  | closes ids found isDue last well ids' infoMap =>
    rw [AtItsPlace, ids]
    refine iff_of_true ⟨hs.wellData, well, hs.data.later hlater, ?_⟩ fun info hinfo _ hmore => ?_
    · rw [ids', infoMap]
      exact (hs.search.later hlater).erase (by rw [ids]; exact List.sublist_cons_self _ _)
    · obtain rfl := Option.some.inj (found.symm.trans hinfo)
      exact absurd last hmore
  | resends ids found isDue more well ids' infoMap =>
    rw [AtItsPlace, ids]
    constructor
    · intro h info hinfo _ _
      obtain rfl := Option.some.inj (found.symm.trans hinfo)
      have hsearch := h.search
      rwa [ids', infoMap] at hsearch
    · intro h
      refine ⟨hs.wellData, well, hs.data.later hlater, ?_⟩
      rw [ids', infoMap]
      exact h _ found isDue more

/-- The entries stay in order exactly when what comes to the end of a queue is at its place. -/
theorem Ordered.step_iff (hs : s.Ordered) (hstep : s.step e = some s') :
    s'.Ordered ↔ s.AtItsPlace e := by
  cases e with
  | pushData msg dest id backoff now =>
    rw [RequestQueues.step] at hstep
    split_ifs at hstep with hclock
    obtain ⟨queue, hpush, rfl⟩ := Option.map_eq_some_iff.mp hstep
    obtain ⟨q, hq, hwell, hids, hinfo⟩ :=
      MsgQueue.push_spec hs.wellData id (.new dest backoff now)
    obtain rfl := Option.some.inj (hq.symm.trans hpush)
    constructor
    · intro h
      have hdata := h.data
      rwa [hids, hinfo] at hdata
    · intro h
      refine ⟨hwell, hs.wellSearch, ?_, hs.search.later hclock⟩
      rw [hids, hinfo]
      exact h
  | getDataRequest now now' =>
    rw [RequestQueues.step] at hstep
    split_ifs at hstep with hclock
    obtain ⟨⟨queue, r⟩, hget, rfl⟩ := Option.map_eq_some_iff.mp hstep
    exact hs.getDataRequest_iff hclock.1 hclock.2 hget
  | removeData id =>
    obtain ⟨queue, hremove, rfl⟩ := Option.map_eq_some_iff.mp hstep
    obtain ⟨hwell, hdata⟩ := hs.data.remove hs.wellData hremove
    exact iff_of_true ⟨hwell, hs.wellSearch, hdata, hs.search⟩ trivial
  | pushSearch msg id ring now =>
    rw [RequestQueues.step] at hstep
    split_ifs at hstep with hclock
    obtain ⟨queue, hpush, rfl⟩ := Option.map_eq_some_iff.mp hstep
    obtain ⟨q, hq, hwell, hids, hinfo⟩ :=
      MsgQueue.push_spec hs.wellSearch id (.new msg ring now)
    obtain rfl := Option.some.inj (hq.symm.trans hpush)
    constructor
    · intro h
      have hsearch := h.search
      rwa [hids, hinfo] at hsearch
    · intro h
      refine ⟨hs.wellData, hwell, hs.data.later hclock, ?_⟩
      rw [hids, hinfo]
      exact h
  | getSearchRequest now now' =>
    rw [RequestQueues.step] at hstep
    split_ifs at hstep with hclock
    obtain ⟨⟨queue, r⟩, hget, rfl⟩ := Option.map_eq_some_iff.mp hstep
    exact hs.getSearchRequest_iff hclock.1 hclock.2 hget
  | removeSearch id =>
    obtain ⟨queue, hremove, rfl⟩ := Option.map_eq_some_iff.mp hstep
    obtain ⟨hwell, hsearch⟩ := hs.search.remove hs.wellSearch hremove
    exact iff_of_true ⟨hs.wellData, hwell, hs.data, hsearch⟩ trivial

theorem Ordered.prompt (hs : s.Ordered) (hstep : s.step e = some s') : s.Prompt e := by
  cases e with
  | pushData | removeData | pushSearch | removeSearch => trivial
  | getDataRequest now now' =>
    rw [RequestQueues.step] at hstep
    split_ifs at hstep with hclock
    intro queue hget id info hinfo
    have heffect := getDataRequest_effect hs.wellData now now'
    rw [hget] at heffect
    cases heffect with
    | idles early =>
      have hwaits := hs.data.waits hs.wellData hclock.1 ?_ hinfo
      · rw [DataRequestInfo.deadline] at hwaits
        omega
      · intro id hid
        obtain ⟨first, hfirst, hearly⟩ := early id hid
        exact ⟨first, hfirst, DataRequestInfo.due_eq_false.mp hearly⟩
  | getSearchRequest now now' =>
    rw [RequestQueues.step] at hstep
    split_ifs at hstep with hclock
    intro queue hget id info hinfo
    have heffect := getSearchRequest_effect hs.wellSearch now now'
    rw [hget] at heffect
    cases heffect with
    | idles early =>
      have hwaits := hs.search.waits hs.wellSearch hclock.1 ?_ hinfo
      · rw [SearchRequestInfo.deadline] at hwaits
        omega
      · intro id hid
        obtain ⟨first, hfirst, hearly⟩ := early id hid
        exact ⟨first, hfirst, SearchRequestInfo.due_eq_false.mp hearly⟩

/-- Where every entry comes to its place, none waits longer than its timeout. -/
theorem prompt_of_atItsPlace (h : Run step AtItsPlace (start clock) es s) :
    Run step Prompt (start clock) es s := by
  have hordered := h.with_invariant (I := Ordered) ordered_start fun hs hplace hstep =>
    (hs.step_iff hstep).mpr hplace
  have hsteps : Run step Prompt (start clock) es s ↔ AnyRun step (start clock) es s :=
    run_iff_run hordered fun hok hstep => iff_of_true (hok.2.prompt hstep) trivial
  exact hsteps.mpr h.forget

/-- Both queues are well formed, and every id in their lists has its entry and is there once. -/
structure Listed (s : RequestQueues) : Prop where
  wellData : s.dataRequestQueue.Well
  wellSearch : s.searchRequestQueue.Well
  nodupData : s.dataRequestQueue.ids.Nodup
  nodupSearch : s.searchRequestQueue.ids.Nodup
  entriesData : ∀ id ∈ s.dataRequestQueue.ids, id ∈ s.dataRequestQueue.infoMap
  entriesSearch : ∀ id ∈ s.searchRequestQueue.ids, id ∈ s.searchRequestQueue.infoMap

theorem run_removeData {removed : List String} {queue : SafeDataRequestQueue}
    (h : AnyRun MsgQueue.remove s.dataRequestQueue removed queue) :
    ∃ es, AnyRun step s es { s with dataRequestQueue := queue } :=
  h.map (fun queue => { s with dataRequestQueue := queue }) fun {_ _ id} _ hremove =>
    ⟨[.removeData id], .one trivial (by rw [step, hremove, Option.map_some])⟩

theorem run_removeSearch {removed : List String} {queue : SafeSearchRequestQueue}
    (h : AnyRun MsgQueue.remove s.searchRequestQueue removed queue) :
    ∃ es, AnyRun step s es { s with searchRequestQueue := queue } :=
  h.map (fun queue => { s with searchRequestQueue := queue }) fun {_ _ id} _ hremove =>
    ⟨[.removeSearch id], .one trivial (by rw [step, hremove, Option.map_some])⟩

/-- Where the entries are not in order, one can wait for longer than its timeout: when those ahead
of the two are answered, the look that comes when the later one is due finds nothing to send. -/
theorem Listed.exists_not_prompt (hs : s.Listed) (h : ¬ s.Ordered) :
    ∃ es t e, AnyRun step s es t ∧ (t.step e).isSome ∧ ¬ t.Prompt e := by
  by_cases hdata : InTurn DataRequestInfo.deadline s.dataRequestQueue.infoMap s.clock
      s.dataRequestQueue.ids
  · have hsearch := fun hsearch => h ⟨hs.wellData, hs.wellSearch, hdata, hsearch⟩
    obtain ⟨removed, queue, hrun, hwell, first, x, later, y, now, hfirst, hx, hy, hclock, hdue,
      hnow⟩ := exists_removals hs.wellSearch hs.nodupSearch hs.entriesSearch hsearch
    obtain ⟨es, hes⟩ := run_removeSearch hrun
    have hget : getSearchRequest queue now now = some (queue, .idle) :=
      getSearchRequest_waits hwell hfirst hx hnow
    refine ⟨es, _, .getSearchRequest now now, hes, ?_, fun hprompt => ?_⟩
    · rw [step, if_pos ⟨hclock, le_refl now⟩, hget]
      rfl
    · have hwaits := hprompt queue hget later y hy
      rw [SearchRequestInfo.deadline] at hdue
      omega
  · obtain ⟨removed, queue, hrun, hwell, first, x, later, y, now, hfirst, hx, hy, hclock, hdue,
      hnow⟩ := exists_removals hs.wellData hs.nodupData hs.entriesData hdata
    obtain ⟨es, hes⟩ := run_removeData hrun
    have hget : getDataRequest queue now now = some (queue, none) :=
      getDataRequest_waits hwell hfirst hx hnow
    refine ⟨es, _, .getDataRequest now now, hes, ?_, fun hprompt => ?_⟩
    · rw [step, if_pos ⟨hclock, le_refl now⟩, hget]
      rfl
    · have hwaits := hprompt queue hget later y hy
      rw [DataRequestInfo.deadline] at hdue
      omega

/-- So an entry that is not queued at its place is all it takes. -/
theorem exists_not_prompt_of_not_atItsPlace (hs : s.Ordered) (hplace : ¬ s.AtItsPlace e)
    (hstep : s.step e = some s') (hs' : s'.Listed) :
    ∃ es t e, AnyRun step s' es t ∧ (t.step e).isSome ∧ ¬ t.Prompt e :=
  hs'.exists_not_prompt fun hordered => hplace ((hs.step_iff hstep).mp hordered)

end RequestQueues

namespace Sample

open RequestQueues

def twoChunks : List RequestQueuesEvent :=
  [.pushData chunkRequest "b" "r" backoff 0, .getDataRequest 2000 2000,
    .pushData ⟨"q", [3]⟩ "c" "q" backoff 2000]

def twoChunksInTime : List RequestQueuesEvent :=
  [.pushData chunkRequest "b" "r" backoff 0, .pushData ⟨"q", [3]⟩ "c" "q" backoff 1000,
    .getDataRequest 2000 2000, .getDataRequest 3000 3000, .getDataRequest 4000 4000]

theorem twoChunks_isSome : (exec step (start 0) twoChunks).isSome := by decide

theorem twoChunks_waits_isSome :
    (exec step (start 0) (twoChunks ++ [.getDataRequest 4000 4000])).isSome := by decide

theorem twoChunksInTime_isSome :
    (exec (guarded step AtItsPlace) (start 0) twoChunksInTime).isSome := by decide

/-- The second one is due two seconds later, behind the first one, which then waits for four. -/
theorem twoChunks_counterexample :
    ¬ Run step Prompt (start 0) (twoChunks ++ [.getDataRequest 4000 4000])
      ((exec step (start 0) (twoChunks ++ [.getDataRequest 4000 4000])).get
        twoChunks_waits_isSome) := by
  intro hrun
  obtain ⟨s, hs, hprompt, _⟩ := hrun.last
  obtain rfl := hs.unique (run_exec_get twoChunks_isSome)
  have hreturned : (SafeDataRequestQueue.getDataRequest
      ((exec step (start 0) twoChunks).get twoChunks_isSome).dataRequestQueue 4000 4000).map
        Prod.snd = some none := by decide
  obtain ⟨⟨queue, _⟩, hget, rfl⟩ := Option.map_eq_some_iff.mp hreturned
  have hwaiting : ((exec step (start 0) twoChunks).get
      twoChunks_isSome).dataRequestQueue.infoMap.lookup "q" =
        some (.new "c" backoff 2000) := by decide
  exact absurd (hprompt queue hget "q" _ hwaiting) (by decide)

theorem prompt_of_atItsPlace_twoChunksInTime :
    Run step Prompt (start 0) twoChunksInTime
      ((exec (guarded step AtItsPlace) (start 0) twoChunksInTime).get twoChunksInTime_isSome) :=
  prompt_of_atItsPlace (run_of_guarded (run_exec_get twoChunksInTime_isSome))

end Sample

end JobPortal.Queues

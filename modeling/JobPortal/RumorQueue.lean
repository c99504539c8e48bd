import JobPortal.MsgQueues
import JobPortal.RumorTable
import JobPortal.Runs

/-! The queue of the rumors that were not acknowledged. The Sender takes its first entry and reads
the data of its id, so an id that is in the list without its data ends the process. -/
namespace JobPortal.Queues

open Runs

variable {M : Type}

structure RumorInfo (M : Type) where
  dest : String
  sendTime : ℤ
  rumor : List (Gossip.Rumor M)

structure SafeRumorsQueue (M : Type) extends MsgQueue (RumorInfo M) where
  timeout : ℤ

/-- The clock is read once when an entry is pushed. It is read twice when the first entry is looked
at, to see whether it is due and to note down when it is sent again. -/
inductive RumorsQueueEvent (M : Type)
  | push (msg : List (Gossip.Rumor M)) (dest id : String) (now : ℤ)
  | getRumor (now now' : ℤ)
  | remove (id : String)

namespace SafeRumorsQueue

def newSafeRumorsQueue (timeout : ℤ) : SafeRumorsQueue M := ⟨.newMsgQueue, timeout⟩

variable (q : SafeRumorsQueue M)

def push (msg : List (Gossip.Rumor M)) (dest id : String) (now : ℤ) : Option (SafeRumorsQueue M) :=
  (q.toMsgQueue.push id ⟨dest, now, msg⟩).map fun queue => { q with toMsgQueue := queue }

def remove (id : String) : Option (SafeRumorsQueue M) :=
  (q.toMsgQueue.remove id).map fun queue => { q with toMsgQueue := queue }

def due (now : ℤ) (info : RumorInfo M) : Bool := decide (now - info.sendTime ≥ q.timeout)

/-- What the Sender is to send again: the destination, the rumors and the packet id. -/
def getRumor (now now' : ℤ) :
    Option (SafeRumorsQueue M × Option (String × List (Gossip.Rumor M) × String)) :=
  (q.poll (q.due now) fun info => some { info with sendTime := now' }).map fun (queue, polled) =>
    ({ q with toMsgQueue := queue },
      match polled with
      | .renewed id _ info => some (info.dest, info.rumor, id)
      | .idle | .dropped _ => none)

def step (q : SafeRumorsQueue M) : RumorsQueueEvent M → Option (SafeRumorsQueue M)
  | .push msg dest id now => q.push msg dest id now
  | .getRumor now now' => (q.getRumor now now').map Prod.fst
  | .remove id => q.remove id

/-- Every id in the list is there once and has its entries, so that the Sender does not panic. -/
structure Consistent : Prop where
  nodup : q.ids.Nodup
  entries : ∀ id ∈ q.ids, id ∈ q.infoMap ∧ id ∈ q.nodeMap
  answers : ∀ now now', (q.getRumor now now').isSome

def PushesNew (q : SafeRumorsQueue M) : RumorsQueueEvent M → Prop
  | .push _ _ id _ => id ∉ q.ids
  | .getRumor .. | .remove _ => True

instance : ∀ (q : SafeRumorsQueue M) (e : RumorsQueueEvent M), Decidable (q.PushesNew e)
  | q, .push _ _ id _ => inferInstanceAs (Decidable (id ∉ q.ids))
  | _, .getRumor .. | _, .remove _ => .isTrue trivial

variable {q} {q' : SafeRumorsQueue M} {e : RumorsQueueEvent M} {es : List (RumorsQueueEvent M)}

variable (q) in
inductive GetEffect (now now' : ℤ) :
    Option (SafeRumorsQueue M × Option (String × List (Gossip.Rumor M) × String)) → Prop
  | panics {id : String} (first : q.ids.head? = some id) (lost : q.infoMap.lookup id = none) :
      GetEffect now now' none
  | idles (early : ∀ id ∈ q.ids.head?, ∃ info, q.infoMap.lookup id = some info ∧
      q.due now info = false) : GetEffect now now' (some (q, none))
  | resends {id : String} {rest : List String} {info : RumorInfo M} {q' : SafeRumorsQueue M}
      (ids : q.ids = id :: rest) (found : q.infoMap.lookup id = some info)
      (isDue : q.due now info = true) (well : q'.Well) (ids' : q'.ids = rest ++ [id])
      (infoMap : q'.infoMap = q.infoMap.insert id { info with sendTime := now' }) :
      GetEffect now now' (some (q', some (info.dest, info.rumor, id)))

theorem getRumor_effect (hq : q.Well) (now now' : ℤ) :
    q.GetEffect now now' (q.getRumor now now') := by
  rw [getRumor]
  have heffect := MsgQueue.poll_effect hq (q.due now) fun info =>
    some { info with sendTime := now' }
  generalize q.poll (q.due now) (fun info => some { info with sendTime := now' }) = polled at *
  cases heffect with
  | panics ids lost => exact .panics (by rw [ids]; rfl) lost
  | empty ids => exact .idles (by simp [ids])
  | waits ids found early => exact .idles (by simp [ids, found, early])
  | @renews id rest info _ queue ids found isDue renewed well ids' infoMap =>
    obtain rfl := Option.some.inj renewed
    exact @GetEffect.resends M q now now' id rest info { q with toMsgQueue := queue } ids found
      isDue well ids' infoMap
  | drops _ _ _ renewed => cases renewed

inductive Effect (q q' : SafeRumorsQueue M) : RumorsQueueEvent M → Prop
  | pushes {msg : List (Gossip.Rumor M)} {dest id : String} {now : ℤ} (ids : q'.ids = q.ids ++ [id])
      (keys : ∀ id', id' ∈ q'.infoMap ↔ id' = id ∨ id' ∈ q.infoMap) :
      Effect q q' (.push msg dest id now)
  | idles {now now' : ℤ} (same : q' = q) : Effect q q' (.getRumor now now')
  | misses {id : String} (same : q' = q) : Effect q q' (.remove id)
  | rotates {now now' : ℤ} {id : String} {rest : List String} (ids : q.ids = id :: rest)
      (ids' : q'.ids = rest ++ [id]) (here : id ∈ q.infoMap)
      (keys : ∀ id', id' ∈ q'.infoMap ↔ id' ∈ q.infoMap) : Effect q q' (.getRumor now now')
  | removes {id : String} {before behind : List String} (ids : q.ids = before ++ id :: behind)
      (ids' : q'.ids = before ++ behind)
      (keys : ∀ id', id' ∈ q'.infoMap ↔ id' ≠ id ∧ id' ∈ q.infoMap) : Effect q q' (.remove id)

theorem step_effect (hq : q.Well) (hstep : q.step e = some q') : q'.Well ∧ Effect q q' e := by
  cases e with
  | push msg dest id now =>
    obtain ⟨queue, hpush, hwell, hids, hinfo⟩ := MsgQueue.push_spec hq id ⟨dest, now, msg⟩
    rw [step, push, hpush, Option.map_some] at hstep
    obtain rfl := Option.some.inj hstep
    refine ⟨hwell, .pushes hids fun id' => ?_⟩
    rw [show _ = _ from hinfo, Finmap.mem_insert]
  | getRumor now now' =>
    obtain ⟨⟨queue, r⟩, hget, rfl⟩ := Option.map_eq_some_iff.mp hstep
    have heffect := getRumor_effect hq now now'
    rw [hget] at heffect
    cases heffect with
    | idles => exact ⟨hq, .idles rfl⟩
    | resends ids found isDue well ids' infoMap =>
      have hhere := Finmap.lookup_isSome.mp (Option.isSome_of_mem found)
      refine ⟨well, .rotates ids ids' hhere fun id' => ?_⟩
      rw [show _ = _ from infoMap, Finmap.mem_insert]
      exact or_iff_right_of_imp fun heq => heq ▸ hhere
  | remove id =>
    obtain ⟨queue, hremove, hwell, hcases⟩ := MsgQueue.remove_spec hq id
    rw [step, remove, hremove, Option.map_some] at hstep
    obtain rfl := Option.some.inj hstep
    rcases hcases with ⟨_, rfl⟩ | ⟨before, behind, hids, hids', hinfo⟩
    · exact ⟨hwell, .misses rfl⟩
    · refine ⟨hwell, .removes hids hids' fun id' => ?_⟩
      rw [show _ = _ from hinfo, Finmap.mem_erase]

theorem well_of_run {timeout : ℤ} (h : AnyRun step (newSafeRumorsQueue timeout) es q) : q.Well :=
  h.invariant (I := fun q => q.Well) MsgQueue.well_newMsgQueue fun hq _ hstep =>
    (step_effect hq hstep).1

/-- The entry of the first id is all the Sender needs. -/
theorem getRumor_isSome (hq : q.Well) (h : ∀ id ∈ q.ids, id ∈ q.infoMap) (now now' : ℤ) :
    (q.getRumor now now').isSome := by
  have heffect := getRumor_effect hq now now'
  generalize q.getRumor now now' = got at heffect
  cases heffect with
  | panics first lost =>
    have hfound := h _ (List.mem_of_mem_head? first)
    rw [← Finmap.lookup_isSome, lost] at hfound
    cases hfound
  | idles | resends => rfl

theorem consistent_iff (hq : q.Well) :
    q.Consistent ↔ q.ids.Nodup ∧ ∀ id ∈ q.ids, id ∈ q.infoMap := by
  constructor
  · exact fun h => ⟨h.nodup, fun id hid => (h.entries id hid).1⟩
  · rintro ⟨hnodup, hkeys⟩
    exact ⟨hnodup, fun id hid => ⟨hkeys id hid, (hq.keys id).mpr (hkeys id hid)⟩,
      getRumor_isSome hq hkeys⟩

theorem consistent_newSafeRumorsQueue (timeout : ℤ) :
    (newSafeRumorsQueue timeout : SafeRumorsQueue M).Consistent := by
  refine (consistent_iff MsgQueue.well_newMsgQueue).mpr ?_
  have hids : (newSafeRumorsQueue timeout : SafeRumorsQueue M).ids = [] :=
    MsgQueue.ids_newMsgQueue
  rw [hids]
  exact ⟨List.nodup_nil, List.forall_mem_nil _⟩

/-- Only a push can break the agreement. -/
theorem Consistent.step_iff (hconsistent : q.Consistent) (hq : q.Well)
    (hstep : q.step e = some q') : q'.Consistent ↔ q.PushesNew e := by
  obtain ⟨hq', heffect⟩ := step_effect hq hstep
  obtain ⟨hnodup, hkeys⟩ := (consistent_iff hq).mp hconsistent
  rw [consistent_iff hq']
  cases heffect with
  | @pushes _ _ id _ ids keys =>
    rw [ids]
    constructor
    · rintro ⟨hnodup', _⟩ hmem
      exact (List.nodup_append.mp hnodup').2.2 id hmem id (List.mem_singleton_self id) rfl
    · intro hnew
      refine ⟨List.nodup_append.mpr ⟨hnodup, List.nodup_singleton id, fun a ha b hb heq => ?_⟩, ?_⟩
      · rw [List.mem_singleton.mp hb] at heq
        exact hnew (heq ▸ ha)
      · intro a ha
        rw [keys]
        exact (List.mem_append.mp ha).symm.imp List.mem_singleton.mp (hkeys a)
  | idles same | misses same =>
    rw [same]
    exact iff_of_true ⟨hnodup, hkeys⟩ trivial
  | @rotates _ _ id rest ids ids' here keys =>
    rw [ids] at hnodup hkeys
    rw [ids']
    refine iff_of_true ⟨(List.perm_append_singleton id rest).nodup_iff.mpr hnodup, fun a ha => ?_⟩
      trivial
    rw [keys]
    exact hkeys a ((List.perm_append_singleton id rest).mem_iff.mp ha)
  | @removes id before behind ids ids' keys =>
    rw [ids] at hnodup hkeys
    rw [ids']
    have hmiddle := List.nodup_middle.mp hnodup
    refine iff_of_true ⟨(List.nodup_cons.mp hmiddle).2, fun a ha => ?_⟩ trivial
    refine (keys a).mpr ⟨fun heq => (List.nodup_cons.mp hmiddle).1 (heq ▸ ha), hkeys a ?_⟩
    rw [List.mem_append] at ha
    exact List.mem_append.mpr (ha.imp_right (List.mem_cons_of_mem id))

/-- The list and the maps agree in every state of a run exactly when no id is pushed that is in the
list. -/
theorem consistent_iff_pushesNew {timeout : ℤ}
    (h : AnyRun step (newSafeRumorsQueue timeout) es q) :
    Always step Consistent (newSafeRumorsQueue timeout) es ↔
      Run step PushesNew (newSafeRumorsQueue timeout) es q :=
  always_iff_run h (consistent_newSafeRumorsQueue timeout) fun hrun hconsistent hstep =>
    hconsistent.step_iff (well_of_run hrun) hstep

end SafeRumorsQueue

namespace Sample

open SafeRumorsQueue

/-- The answer to a Graft from packet `g` is pushed, and pushed again when the packet comes a second
time. One acknowledgement removes one of the two. -/
def graftTwice : List (RumorsQueueEvent String) :=
  [.push [⟨"a", 1, some "x"⟩] "b" "g" 0, .push [⟨"a", 1, some "x"⟩] "b" "g" 5, .remove "g"]

def graftLater : List (RumorsQueueEvent String) :=
  [.push [⟨"a", 1, some "x"⟩] "b" "g" 0, .getRumor 50 50, .remove "g",
    .push [⟨"a", 1, some "x"⟩] "b" "g" 60]

theorem graftTwice_isSome : (exec step (newSafeRumorsQueue 10) graftTwice).isSome := by decide

theorem graftLater_isSome : (exec step (newSafeRumorsQueue 10) graftLater).isSome := by decide

/-- The Sender panics when it finds the other one. -/
theorem rumorQueue_counterexample :
    ¬ Always step Consistent (newSafeRumorsQueue 10) graftTwice ∧
      ((exec step (newSafeRumorsQueue 10) graftTwice).bind fun q => q.getRumor 6 6).isNone := by
  refine ⟨fun hall => ?_, by decide⟩
  have hconsistent := hall graftTwice [] _ (List.append_nil _).symm
    (run_exec_get graftTwice_isSome)
  exact absurd (hconsistent.answers 6 6) (by decide)

theorem consistent_iff_pushesNew_graftLater :
    Always step Consistent (newSafeRumorsQueue 10) graftLater ↔
      Run step PushesNew (newSafeRumorsQueue 10) graftLater
        ((exec step (newSafeRumorsQueue 10) graftLater).get graftLater_isSome) :=
  consistent_iff_pushesNew (run_exec_get graftLater_isSome)

end Sample

end JobPortal.Queues

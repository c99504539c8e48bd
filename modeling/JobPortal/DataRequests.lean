import JobPortal.Hex
import JobPortal.MsgQueues
import JobPortal.Runs

/-! The queue of the data requests that were not answered. What is pushed is not kept in the entry,
so that what is sent again is always the same. -/
namespace JobPortal.Queues

open Hex Runs

structure DataRequestMessage where
  requestID : String
  key : Bytes
  deriving DecidableEq, Repr

/-- Durations are in nanoseconds. -/
structure Backoff where
  initial : Int64
  factor : UInt64
  retry : UInt64
  deriving DecidableEq, Repr

def milliseconds (d : Int64) : ℤ := Int.tdiv d.toInt 1000000

structure DataRequestInfo where
  dest : String
  sendTime : ℤ
  dataRequest : DataRequestMessage := ⟨"", []⟩
  timeout : Int64
  retry : UInt64
  factor : UInt64
  deriving DecidableEq, Repr

abbrev SafeDataRequestQueue := MsgQueue DataRequestInfo

/-- What the Sender is to send again, and whether the channel of the request was closed before. -/
structure Resent where
  id : String
  dataRequest : DataRequestMessage
  dest : String
  closes : Bool
  deriving DecidableEq, Repr

namespace DataRequestInfo

def new (dest : String) (backoff : Backoff) (now : ℤ) : DataRequestInfo where
  dest := dest
  sendTime := now
  timeout := backoff.initial
  retry := backoff.retry - 1
  factor := backoff.factor

def due (now : ℤ) (info : DataRequestInfo) : Bool :=
  decide (now - info.sendTime ≥ milliseconds info.timeout)

def renew (now : ℤ) (info : DataRequestInfo) : DataRequestInfo :=
  { info with
    retry := info.retry - 1
    timeout := info.timeout * info.factor.toInt64
    sendTime := now }

end DataRequestInfo

theorem toNat_sub_one {n : UInt64} (h : n ≠ 0) : (n - 1).toNat + 1 = n.toNat := by
  have hpos : 1 ≤ n := UInt64.pos_iff_ne_zero.mpr h
  rw [UInt64.toNat_sub_of_le _ _ hpos]
  exact Nat.sub_add_cancel hpos

namespace SafeDataRequestQueue

/-- The message is not looked at. -/
def push (q : SafeDataRequestQueue) (_msg : DataRequestMessage) (dest id : String)
    (backoff : Backoff) (now : ℤ) : Option SafeDataRequestQueue :=
  MsgQueue.push q id (.new dest backoff now)

/-- An entry without retries left is sent again like the others. -/
def getDataRequest (q : SafeDataRequestQueue) (now now' : ℤ) :
    Option (SafeDataRequestQueue × Option Resent) :=
  (MsgQueue.poll q (DataRequestInfo.due now) fun info => some (info.renew now')).map
    fun (q, polled) => (q, match polled with
      | .renewed id old info => some ⟨id, info.dataRequest, info.dest, decide (old.retry = 0)⟩
      | .idle | .dropped _ => none)

/-- What a look at the queue can come to. It panics if the first id is without its entry. -/
inductive GetEffect (q : SafeDataRequestQueue) (now now' : ℤ) :
    Option (SafeDataRequestQueue × Option Resent) → Prop
  | panics {id : String} (first : q.ids.head? = some id) (lost : q.infoMap.lookup id = none) :
      GetEffect q now now' none
  | idles (early : ∀ id ∈ q.ids.head?, ∃ info, q.infoMap.lookup id = some info ∧
      info.due now = false) : GetEffect q now now' (some (q, none))
  | resends {id : String} {rest : List String} {info : DataRequestInfo}
      {q' : SafeDataRequestQueue} (ids : q.ids = id :: rest)
      (found : q.infoMap.lookup id = some info) (isDue : info.due now = true) (well : q'.Well)
      (ids' : q'.ids = rest ++ [id])
      (infoMap : q'.infoMap = q.infoMap.insert id (info.renew now')) : GetEffect q now now'
        (some (q', some ⟨id, info.dataRequest, info.dest, decide (info.retry = 0)⟩))

theorem getDataRequest_effect {q : SafeDataRequestQueue} (h : q.Well) (now now' : ℤ) :
    GetEffect q now now' (getDataRequest q now now') := by
  rw [getDataRequest]
  have heffect := MsgQueue.poll_effect h (DataRequestInfo.due now) fun info =>
    some (info.renew now')
  generalize q.poll (DataRequestInfo.due now) (fun info => some (info.renew now')) = polled at *
  cases heffect with
  | empty ids => exact .idles (by simp [ids])
  | panics ids lost => exact .panics (by rw [ids]; rfl) lost
  | waits ids found early => exact .idles (by simp [ids, found, early])
  | renews ids found isDue renewed well ids' infoMap =>
    obtain rfl := Option.some.inj renewed
    exact .resends ids found isDue well ids' infoMap
  | drops _ _ _ renewed => cases renewed

end SafeDataRequestQueue

/-- The queue, with what was last pushed under each id noted down. -/
structure DataRequestQueueRun where
  queue : SafeDataRequestQueue
  pushed : GoMap String (DataRequestMessage × String)

inductive DataRequestQueueEvent
  | push (msg : DataRequestMessage) (dest id : String) (backoff : Backoff) (now : ℤ)
  | getDataRequest (now now' : ℤ)
  | remove (id : String)
  deriving DecidableEq, Repr

namespace DataRequestQueueRun

open SafeDataRequestQueue

def start : DataRequestQueueRun := ⟨.newMsgQueue, ∅⟩

def step (s : DataRequestQueueRun) : DataRequestQueueEvent → Option DataRequestQueueRun
  | .push msg dest id backoff now => (push s.queue msg dest id backoff now).map fun queue =>
      ⟨queue, s.pushed.insert id (msg, dest)⟩
  | .getDataRequest now now' => (getDataRequest s.queue now now').map fun (queue, _) =>
      { s with queue := queue }
  | .remove id => (MsgQueue.remove s.queue id).map fun queue => { s with queue := queue }

def Repeats (s : DataRequestQueueRun) : DataRequestQueueEvent → Prop
  | .getDataRequest now now' => ∀ queue r, getDataRequest s.queue now now' = some (queue, some r) →
      s.pushed.lookup r.id = some (r.dataRequest, r.dest)
  | .push .. | .remove _ => True

/-- The first entry is not due, or the empty request was pushed under its id. -/
def FindsEmpty (s : DataRequestQueueRun) : DataRequestQueueEvent → Prop
  | .getDataRequest now _ => ∀ id ∈ s.queue.ids.head?, ∀ info ∈ s.queue.infoMap.lookup id,
      info.due now → (s.pushed.lookup id).map Prod.fst = some ⟨"", []⟩
  | .push .. | .remove _ => True

variable {s s' : DataRequestQueueRun} {e : DataRequestQueueEvent} {es : List DataRequestQueueEvent}

/-- The entries are without their requests. -/
structure Noted (s : DataRequestQueueRun) : Prop where
  well : s.queue.Well
  dests : ∀ id info, s.queue.infoMap.lookup id = some info →
    (s.pushed.lookup id).map Prod.snd = some info.dest
  empty : ∀ id info, s.queue.infoMap.lookup id = some info → info.dataRequest = ⟨"", []⟩

theorem noted_start : start.Noted := by
  refine ⟨MsgQueue.well_newMsgQueue, ?_, ?_⟩
  all_goals simp [start, MsgQueue.newMsgQueue]

theorem Noted.push (hs : s.Noted) (msg : DataRequestMessage) (dest id : String)
    (backoff : Backoff) (now : ℤ) {queue : SafeDataRequestQueue}
    (h : SafeDataRequestQueue.push s.queue msg dest id backoff now = some queue) :
    Noted ⟨queue, s.pushed.insert id (msg, dest)⟩ := by
  obtain ⟨q, hpush, hwell, _, hinfo⟩ := MsgQueue.push_spec hs.well id (.new dest backoff now)
  obtain rfl := Option.some.inj (hpush.symm.trans h)
  refine ⟨hwell, fun id' info hlookup => ?_, fun id' info hlookup => ?_⟩
  all_goals
    rw [hinfo] at hlookup
    by_cases hid : id' = id
  · subst hid
    rw [Finmap.lookup_insert] at hlookup ⊢
    rw [← Option.some.inj hlookup]
    rfl
  · rw [Finmap.lookup_insert_of_ne _ hid] at hlookup ⊢
    exact hs.dests id' info hlookup
  · subst hid
    rw [Finmap.lookup_insert] at hlookup
    rw [← Option.some.inj hlookup]
    rfl
  · rw [Finmap.lookup_insert_of_ne _ hid] at hlookup
    exact hs.empty id' info hlookup

theorem Noted.erase (hs : s.Noted) {queue : SafeDataRequestQueue} (hwell : queue.Well)
    {id : String} (hinfo : queue.infoMap = s.queue.infoMap.erase id) :
    Noted { s with queue := queue } := by
  have hold : ∀ id' info, queue.infoMap.lookup id' = some info →
      s.queue.infoMap.lookup id' = some info := by
    intro id' info hlookup
    rw [hinfo] at hlookup
    exact MsgQueue.lookup_of_erase hlookup
  exact ⟨hwell, fun id' info hlookup => hs.dests id' info (hold id' info hlookup),
    fun id' info hlookup => hs.empty id' info (hold id' info hlookup)⟩

theorem Noted.renew (hs : s.Noted) {queue : SafeDataRequestQueue} (hwell : queue.Well)
    {id : String} {info : DataRequestInfo} {now : ℤ}
    (hfound : s.queue.infoMap.lookup id = some info)
    (hinfo : queue.infoMap = s.queue.infoMap.insert id (info.renew now)) :
    Noted { s with queue := queue } := by
  have hold : ∀ id' new, queue.infoMap.lookup id' = some new →
      ∃ old, s.queue.infoMap.lookup id' = some old ∧ new.dest = old.dest ∧
        new.dataRequest = old.dataRequest := by
    intro id' new hlookup
    rw [hinfo] at hlookup
    by_cases hid : id' = id
    · subst hid
      rw [Finmap.lookup_insert] at hlookup
      exact ⟨info, hfound, by rw [← Option.some.inj hlookup]; exact ⟨rfl, rfl⟩⟩
    · rw [Finmap.lookup_insert_of_ne _ hid] at hlookup
      exact ⟨new, hlookup, rfl, rfl⟩
  refine ⟨hwell, fun id' new hlookup => ?_, fun id' new hlookup => ?_⟩
  all_goals obtain ⟨old, hlookup, hdest, hrequest⟩ := hold id' new hlookup
  · exact hdest ▸ hs.dests id' old hlookup
  · exact hrequest ▸ hs.empty id' old hlookup

theorem Noted.step (hs : s.Noted) (hstep : s.step e = some s') : s'.Noted := by
  cases e with
  | push msg dest id backoff now =>
    obtain ⟨queue, hpush, rfl⟩ := Option.map_eq_some_iff.mp hstep
    exact hs.push msg dest id backoff now hpush
  | getDataRequest now now' =>
    obtain ⟨⟨queue, r⟩, hget, rfl⟩ := Option.map_eq_some_iff.mp hstep
    have heffect := getDataRequest_effect hs.well now now'
    rw [hget] at heffect
    cases heffect with
    | idles => exact hs
    | resends _ found _ well _ infoMap => exact hs.renew well found infoMap
  | remove id =>
    obtain ⟨queue, hremove, rfl⟩ := Option.map_eq_some_iff.mp hstep
    obtain ⟨q, hq, hwell, hcases⟩ := MsgQueue.remove_spec hs.well id
    obtain rfl := Option.some.inj (hq.symm.trans hremove)
    rcases hcases with ⟨_, hsame⟩ | ⟨_, _, _, _, hinfo⟩
    · rw [hsame]
      exact hs
    · exact hs.erase hwell hinfo

theorem repeats_iff (hs : s.Noted) (hstep : s.step e = some s') :
    s.Repeats e ↔ s.FindsEmpty e := by
  cases e with
  | push | remove => exact Iff.rfl
  | getDataRequest now now' =>
    obtain ⟨⟨queue, r⟩, hget, rfl⟩ := Option.map_eq_some_iff.mp hstep
    have heffect := getDataRequest_effect hs.well now now'
    rw [hget] at heffect
    unfold Repeats FindsEmpty
    cases heffect with
    | idles early =>
      refine iff_of_true (fun queue r hr => by rw [hget] at hr; cases hr) ?_
      intro id hid info hinfo hdue
      exact absurd hdue (Bool.eq_false_iff.mp (MsgQueue.early_first early hid hinfo))
    | @resends id rest info _ ids found isDue =>
      have hdest := hs.dests id info found
      have hempty := hs.empty id info found
      constructor
      · intro hrepeats id' hid info' _ _
        rw [ids] at hid
        obtain rfl := Option.some.inj hid
        rw [hrepeats queue _ hget, hempty]
        rfl
      · intro hfinds queue' r hr
        obtain ⟨⟩ := Option.some.inj (hget.symm.trans hr)
        have hfirst := hfinds id (by rw [ids]; rfl) info found isDue
        obtain ⟨⟨msg, dest⟩, hpushed, rfl⟩ := Option.map_eq_some_iff.mp hdest
        rw [hpushed] at hfirst ⊢
        obtain rfl := Option.some.inj hfirst
        rw [hempty]

/-- The requests sent again are those pushed in a run exactly when only empty ones are due. -/
theorem repeats_iff_findsEmpty (h : AnyRun step start es s) :
    Run step Repeats start es s ↔ Run step FindsEmpty start es s := by
  have hnoted := h.with_invariant (I := Noted) noted_start fun hs _ hstep => hs.step hstep
  exact run_iff_run hnoted fun hs hstep => repeats_iff hs.2 hstep

end DataRequestQueueRun

namespace Sample

open DataRequestQueueRun

def backoff : Backoff := ⟨2000000000, 2, 5⟩

def chunkRequest : DataRequestMessage := ⟨"r", [1, 2]⟩

def unanswered : List DataRequestQueueEvent :=
  [.push chunkRequest "b" "r" backoff 0, .getDataRequest 1000 1000]

def answered : List DataRequestQueueEvent :=
  [.push chunkRequest "b" "r" backoff 0, .getDataRequest 1000 1000, .remove "r",
    .getDataRequest 3000 3000]

theorem unanswered_isSome : (exec step start unanswered).isSome := by decide

theorem answered_isSome : (exec step start answered).isSome := by decide

theorem due_isSome :
    (exec step start (unanswered ++ [.getDataRequest 2000 2001])).isSome := by decide

/-- One second later it is sent again, and names no request and no key. -/
theorem dataRequest_counterexample :
    ¬ Run step Repeats start (unanswered ++ [.getDataRequest 2000 2001])
      ((exec step start (unanswered ++ [.getDataRequest 2000 2001])).get due_isSome) := by
  intro hrun
  obtain ⟨s, hs, hrepeats, _⟩ := hrun.last
  obtain rfl := hs.unique (run_exec_get unanswered_isSome)
  have hreturned : (SafeDataRequestQueue.getDataRequest
      ((exec step start unanswered).get unanswered_isSome).queue 2000 2001).map Prod.snd =
        some (some ⟨"r", ⟨"", []⟩, "b", false⟩) := by decide
  obtain ⟨⟨queue, _⟩, hget, rfl⟩ := Option.map_eq_some_iff.mp hreturned
  exact absurd (hrepeats queue _ hget) (by decide)

theorem repeats_iff_findsEmpty_answered :
    Run step Repeats start answered ((exec step start answered).get answered_isSome) ↔
      Run step FindsEmpty start answered ((exec step start answered).get answered_isSome) :=
  repeats_iff_findsEmpty (run_exec_get answered_isSome)

end Sample

end JobPortal.Queues

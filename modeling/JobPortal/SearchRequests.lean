import JobPortal.DataRequests
import JobPortal.SearchFlood

/-! The queue of the searches for a complete file. Each look at the first entry that finds it due
widens the ring, or gives the search up. -/
namespace JobPortal.Queues

open Sharing

structure ExpandingRing where
  initial : UInt64
  factor : UInt64
  retry : UInt64
  timeout : Int64
  deriving DecidableEq, Repr

structure SearchRequestInfo where
  sendTime : ℤ
  searchRequest : SearchRequestMessage
  timeout : Int64
  retry : UInt64
  factor : UInt64
  deriving DecidableEq, Repr

abbrev SafeSearchRequestQueue := MsgQueue SearchRequestInfo

/-- What the Sender gets: nothing, a search whose channel it closes, or one to send again. -/
inductive SearchTurn
  | idle
  | close (id : String)
  | resend (id : String) (searchRequest : SearchRequestMessage)
  deriving DecidableEq, Repr

namespace SearchRequestInfo

def new (msg : SearchRequestMessage) (ring : ExpandingRing) (now : ℤ) : SearchRequestInfo where
  sendTime := now
  searchRequest := msg
  timeout := ring.timeout
  retry := ring.retry - 1
  factor := ring.factor

def due (now : ℤ) (info : SearchRequestInfo) : Bool :=
  decide (now - info.sendTime ≥ milliseconds info.timeout)

def widen (now : ℤ) (info : SearchRequestInfo) : SearchRequestInfo :=
  { info with
    retry := info.retry - 1
    searchRequest :=
      { info.searchRequest with budget := info.searchRequest.budget * info.factor }
    sendTime := now }

/-- A search without retries left is given up. -/
def renew (now : ℤ) (info : SearchRequestInfo) : Option SearchRequestInfo :=
  if info.retry = 0 then none else some (info.widen now)

end SearchRequestInfo

namespace SafeSearchRequestQueue

def push (q : SafeSearchRequestQueue) (msg : SearchRequestMessage) (id : String)
    (ring : ExpandingRing) (now : ℤ) : Option SafeSearchRequestQueue :=
  MsgQueue.push q id (.new msg ring now)

def getSearchRequest (q : SafeSearchRequestQueue) (now now' : ℤ) :
    Option (SafeSearchRequestQueue × SearchTurn) :=
  (MsgQueue.poll q (SearchRequestInfo.due now) (SearchRequestInfo.renew now')).map
    fun (q, polled) => (q, match polled with
      | .idle => .idle
      | .dropped id => .close id
      | .renewed id _ info' => .resend id info'.searchRequest)

inductive GetEffect (q : SafeSearchRequestQueue) (now now' : ℤ) :
    Option (SafeSearchRequestQueue × SearchTurn) → Prop
  | panics {id : String} (first : q.ids.head? = some id) (lost : q.infoMap.lookup id = none) :
      GetEffect q now now' none
  | idles (early : ∀ id ∈ q.ids.head?, ∃ info, q.infoMap.lookup id = some info ∧
      info.due now = false) : GetEffect q now now' (some (q, .idle))
  | closes {id : String} {rest : List String} {info : SearchRequestInfo}
      {q' : SafeSearchRequestQueue} (ids : q.ids = id :: rest)
      (found : q.infoMap.lookup id = some info) (isDue : info.due now = true)
      (last : info.retry = 0) (well : q'.Well) (ids' : q'.ids = rest)
      (infoMap : q'.infoMap = q.infoMap.erase id) : GetEffect q now now' (some (q', .close id))
  | resends {id : String} {rest : List String} {info : SearchRequestInfo}
      {q' : SafeSearchRequestQueue} (ids : q.ids = id :: rest)
      (found : q.infoMap.lookup id = some info) (isDue : info.due now = true)
      (more : info.retry ≠ 0) (well : q'.Well) (ids' : q'.ids = rest ++ [id])
      (infoMap : q'.infoMap = q.infoMap.insert id (info.widen now')) :
      GetEffect q now now' (some (q', .resend id (info.widen now').searchRequest))

theorem getSearchRequest_effect {q : SafeSearchRequestQueue} (h : q.Well) (now now' : ℤ) :
    GetEffect q now now' (getSearchRequest q now now') := by
  rw [getSearchRequest]
  have heffect := MsgQueue.poll_effect h (SearchRequestInfo.due now)
    (SearchRequestInfo.renew now')
  generalize q.poll (SearchRequestInfo.due now) (SearchRequestInfo.renew now') = polled at *
  cases heffect with
  | empty ids => exact .idles (by simp [ids])
  | panics ids lost => exact .panics (by rw [ids]; rfl) lost
  | waits ids found early => exact .idles (by simp [ids, found, early])
  | renews ids found isDue renewed well ids' infoMap =>
    rw [SearchRequestInfo.renew] at renewed
    split_ifs at renewed with hretry
    obtain rfl := Option.some.inj renewed
    exact .resends ids found isDue hretry well ids' infoMap
  | drops ids found isDue renewed well ids' infoMap =>
    rw [SearchRequestInfo.renew] at renewed
    split_ifs at renewed with hretry
    exact .closes ids found isDue hretry well ids' infoMap

end SafeSearchRequestQueue

end JobPortal.Queues

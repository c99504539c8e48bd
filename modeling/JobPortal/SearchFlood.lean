import JobPortal.BlobStore
import JobPortal.Splitting

/-! Searching for files. A search request carries a budget, which a node spends one unit of and
splits among its neighbours, so a search dies out however the neighbours are connected. -/
namespace JobPortal.Sharing

open Hex Runs Splitting

structure SearchRequestMessage where
  requestID : String
  origin : String
  pattern : String
  budget : UInt64
  deriving DecidableEq, Repr

structure FileInfo where
  name : String
  metahash : Bytes
  chunks : List (Option Bytes)
  deriving DecidableEq, Repr

structure SearchReplyMessage where
  requestID : String
  responses : List FileInfo
  deriving DecidableEq, Repr

structure SearchNode where
  myAddr : String
  routingTable : GoMap String String
  naming : GoMap String Bytes
  blob : BlobStore

structure SearchPacket where
  relayedBy : String
  destination : String
  msg : SearchRequestMessage
  deriving DecidableEq, Repr

/-- Where the loop over the neighbours gives out `div` each and one more to the first `mod`. -/
def share (div : ℕ) : ℕ → List String → List (String × UInt64)
  | _, [] => []
  | mod, neighbor :: neighbors =>
    (neighbor, if 0 < mod then UInt64.ofNat div + 1 else UInt64.ofNat div) ::
      share div (mod - 1) neighbors

/-- The entries of the map that `GetNeighborsAndBudgets` returns, in the order the neighbours are
left in by the shuffle. -/
def getNeighborsAndBudgets (shuffled : List String) (budget : UInt64) : List (String × UInt64) :=
  if shuffled.length = 0 then []
  else
    let div := budget.toNat / shuffled.length
    let mod := budget.toNat % shuffled.length
    if 0 < div then share div mod shuffled
    else (shuffled.take mod).map fun neighbor => (neighbor, 1)

namespace SearchNode

variable (n : SearchNode)

def neighbors (without : String) : Finset String :=
  n.routingTable.keys.filter fun key =>
    n.routingTable.lookup key = some key ∧ n.myAddr ≠ key ∧ key ≠ without

/-- The packets of one call; there is none where `shuffled` is not an order of the neighbours. -/
def searchFile (msg : SearchRequestMessage) (prevNeighbor : String) (shuffled : List String) :
    Option (List SearchPacket) :=
  if shuffled.Nodup ∧ shuffled.toFinset = n.neighbors prevNeighbor then
    some ((getNeighborsAndBudgets shuffled msg.budget).map fun (neighbor, budget) =>
      ⟨n.myAddr, neighbor, { msg with budget := budget }⟩)
  else none

def setRoutingEntry (origin relayAddr : String) : SearchNode :=
  if relayAddr = "" then { n with routingTable := n.routingTable.erase origin }
  else { n with routingTable := n.routingTable.insert origin relayAddr }

/-- The reply to a search, when the names are gone through in the given order. `MustCompile` panics
on a malformed pattern, and then there is none. -/
def searchReply (compile : String → Option (String → Bool)) (msg : SearchRequestMessage)
    (order : List String) : Option SearchReplyMessage :=
  (compile msg.pattern).map fun reg =>
    { requestID := msg.requestID
      responses := (order.filter reg).filterMap fun name =>
        (n.naming.lookup name).bind fun metahash =>
          (getAllChunkHash n.blob metahash).map fun chunks => ⟨name, metahash, chunks⟩ }

/-- The node after a search request, and the requests it passes on. The budget is unsigned, so the
decrement takes 0 to the largest value there is. -/
def execSearchRequestMessage (msg : SearchRequestMessage) (relayedBy : String)
    (shuffled : List String) : Option (SearchNode × List SearchPacket) :=
  let n := if msg.origin ∈ n.routingTable then n else n.setRoutingEntry msg.origin relayedBy
  let msg := { msg with budget := msg.budget - 1 }
  if 0 < msg.budget then (n.searchFile msg relayedBy shuffled).map fun packets => (n, packets)
  else some (n, [])

end SearchNode

theorem toNat_succ {n : ℕ} (h : n + 1 < 2 ^ 64) : (UInt64.ofNat n + 1).toNat = n + 1 := by
  rw [UInt64.toNat_add, UInt64.toNat_ofNat_of_lt' (Nat.lt_of_succ_lt h)]
  exact Nat.mod_eq_of_lt h

theorem sum_share {div mod : ℕ} {ns : List String} (hdiv : div < 2 ^ 64)
    (hsucc : 0 < mod → div + 1 < 2 ^ 64) (hmod : mod ≤ ns.length) :
    ((share div mod ns).map fun p => p.2.toNat).sum = div * ns.length + mod := by
  induction ns generalizing mod with
  | nil =>
    obtain rfl := Nat.le_zero.mp hmod
    rfl
  | cons neighbor ns ih =>
    rw [List.length_cons] at hmod
    have hless : mod - 1 ≤ ns.length := by omega
    have hrest := ih (fun h => hsucc (by omega)) hless
    rw [share, List.map_cons, List.sum_cons, hrest, List.length_cons, Nat.mul_add]
    dsimp only
    split_ifs with hpos
    · rw [toNat_succ (hsucc hpos)]
      omega
    · rw [UInt64.toNat_ofNat_of_lt' hdiv]
      omega

theorem share_value {div mod : ℕ} {ns : List String} (hdiv : div < 2 ^ 64)
    (hsucc : 0 < mod → div + 1 < 2 ^ 64) {p : String × UInt64} (hp : p ∈ share div mod ns) :
    p.2.toNat = div ∨ p.2.toNat = div + 1 := by
  induction ns generalizing mod with
  | nil => cases hp
  | cons neighbor ns ih =>
    rcases List.mem_cons.mp hp with rfl | hrest
    · dsimp only
      split_ifs with hmod
      · exact .inr (toNat_succ (hsucc hmod))
      · exact .inl (UInt64.toNat_ofNat_of_lt' hdiv)
    · exact ih (fun h => hsucc (by omega)) hrest

theorem quotient_lt (budget : UInt64) (k : ℕ) : budget.toNat / k < 2 ^ 64 :=
  Nat.lt_of_le_of_lt (Nat.div_le_self _ _) budget.toNat_lt

theorem quotient_succ_lt {budget : UInt64} {k : ℕ} (hk : k ≠ 0) (hrest : 0 < budget.toNat % k) :
    budget.toNat / k + 1 < 2 ^ 64 := by
  have hbound := budget.toNat_lt
  have hsplit := Nat.div_add_mod budget.toNat k
  have hle := Nat.le_mul_of_pos_left (budget.toNat / k) (Nat.pos_of_ne_zero hk)
  omega

/-- A budget that is split among neighbours is neither exceeded nor lost. -/
theorem sum_getNeighborsAndBudgets {shuffled : List String} (hne : shuffled ≠ [])
    (budget : UInt64) :
    ((getNeighborsAndBudgets shuffled budget).map fun p => p.2.toNat).sum = budget.toNat := by
  have hlen : 0 < shuffled.length := List.length_pos_iff.mpr hne
  have hsplit := Nat.div_add_mod budget.toNat shuffled.length
  have hmod := Nat.mod_lt budget.toNat hlen
  rw [getNeighborsAndBudgets, if_neg (Nat.ne_of_gt hlen)]
  dsimp only
  split_ifs with hdiv
  · rw [sum_share, Nat.mul_comm, hsplit]
    · exact quotient_lt budget _
    · exact quotient_succ_lt (Nat.ne_of_gt hlen)
    · exact Nat.le_of_lt hmod
  · have hzero : budget.toNat / shuffled.length = 0 := Nat.eq_zero_of_not_pos hdiv
    rw [hzero, Nat.mul_zero, Nat.zero_add] at hsplit
    have hunit : (1 : UInt64).toNat = 1 := rfl
    simp only [List.map_map, Function.comp_def, List.map_const', List.sum_replicate, hunit,
      List.length_take]
    rw [nsmul_eq_mul, Nat.cast_id, Nat.mul_one, Nat.min_eq_left (Nat.le_of_lt hmod), hsplit]

theorem getNeighborsAndBudgets_pos {shuffled : List String} {budget : UInt64}
    {p : String × UInt64} (hp : p ∈ getNeighborsAndBudgets shuffled budget) : 0 < p.2.toNat := by
  rw [getNeighborsAndBudgets] at hp
  dsimp only at hp
  split_ifs at hp with hlen hdiv
  · cases hp
  · have hvalue := share_value (quotient_lt budget _) (quotient_succ_lt hlen) hp
    omega
  · obtain ⟨neighbor, _, rfl⟩ := List.mem_map.mp hp
    exact Nat.one_pos

def budgets (requestID : String) (packets : List SearchPacket) : List ℕ :=
  (packets.filter fun p => p.msg.requestID = requestID).map fun p => p.msg.budget.toNat

theorem budgets_append (requestID : String) (ps qs : List SearchPacket) :
    budgets requestID (ps ++ qs) = budgets requestID ps ++ budgets requestID qs := by
  simp [budgets]

namespace SearchNode

variable {n n' : SearchNode} {msg : SearchRequestMessage} {prevNeighbor : String}
  {shuffled : List String} {packets : List SearchPacket}

/-- The requests of one call carry the budget it has, and each a part of it. -/
structure Splits (msg : SearchRequestMessage) (budget : ℕ) (packets : List SearchPacket) :
    Prop where
  requestID : ∀ p ∈ packets, p.msg.requestID = msg.requestID
  parts : Parts budget ↑(packets.map fun p => p.msg.budget.toNat)

theorem splits_nil (msg : SearchRequestMessage) (budget : ℕ) : Splits msg budget [] :=
  ⟨fun _ hp => absurd hp List.not_mem_nil, parts_zero budget⟩

theorem searchFile_splits (h : n.searchFile msg prevNeighbor shuffled = some packets) :
    Splits msg msg.budget.toNat packets := by
  unfold searchFile at h
  split_ifs at h
  obtain rfl := Option.some.inj h
  constructor
  · intro p hp
    obtain ⟨q, _, rfl⟩ := List.mem_map.mp hp
    rfl
  · rw [List.map_map]
    constructor
    · intro w hw
      obtain ⟨q, hq, rfl⟩ := List.mem_map.mp (Multiset.mem_coe.mp hw)
      exact getNeighborsAndBudgets_pos hq
    · rw [Multiset.sum_coe]
      rcases eq_or_ne shuffled [] with rfl | hne
      · exact Nat.zero_le _
      · exact Nat.le_of_eq (sum_getNeighborsAndBudgets hne msg.budget)

theorem execSearchRequestMessage_splits (hpos : 0 < msg.budget.toNat)
    (h : n.execSearchRequestMessage msg prevNeighbor shuffled = some (n', packets)) :
    Splits msg (msg.budget.toNat - 1) packets := by
  unfold execSearchRequestMessage at h
  dsimp only at h
  split_ifs at h
  all_goals first
    | obtain ⟨ps, hps, heq⟩ := Option.map_eq_some_iff.mp h
      obtain ⟨-, rfl⟩ := Prod.mk.inj heq
      have hdec : (msg.budget - 1).toNat = msg.budget.toNat - 1 :=
        UInt64.toNat_sub_of_le _ _ hpos
      rw [← hdec]
      exact ⟨(searchFile_splits hps).requestID, (searchFile_splits hps).parts⟩
    | obtain ⟨-, rfl⟩ := Prod.mk.inj (Option.some.inj h)
      exact splits_nil msg _

theorem Splits.budgets_self {budget : ℕ} (h : Splits msg budget packets) :
    budgets msg.requestID packets = packets.map fun p => p.msg.budget.toNat := by
  rw [budgets, List.filter_eq_self.mpr]
  intro p hp
  simp [h.requestID p hp]

theorem Splits.budgets_of_ne {budget : ℕ} (h : Splits msg budget packets) {requestID : String}
    (hne : msg.requestID ≠ requestID) : budgets requestID packets = [] := by
  rw [budgets, List.filter_eq_nil_iff.mpr, List.map_nil]
  intro p hp
  simp [h.requestID p hp, hne]

end SearchNode

/-- The nodes, the requests on their way, and the requests that were made, sent and handled. -/
structure SearchNetwork where
  nodes : String → SearchNode
  inFlight : List SearchPacket := []
  searched : List SearchRequestMessage := []
  sent : List SearchRequestMessage := []
  handled : List SearchRequestMessage := []

inductive SearchEvent
  /-- A call of `SearchFile` at the node that searches. -/
  | search (addr requestID pattern : String) (budget : UInt64) (shuffled : List String)
  /-- A request arrives at the neighbour it was sent to. -/
  | deliver (i : ℕ) (shuffled : List String)
  /-- A routing table changes for another reason. -/
  | route (addr origin relayAddr : String)
  deriving DecidableEq, Repr

namespace SearchNetwork

def send (s : SearchNetwork) (packets : List SearchPacket) : SearchNetwork :=
  { s with inFlight := s.inFlight ++ packets, sent := s.sent ++ packets.map (·.msg) }

def step (s : SearchNetwork) : SearchEvent → Option SearchNetwork
  | .search addr requestID pattern budget shuffled =>
    let n := s.nodes addr
    let msg : SearchRequestMessage := ⟨requestID, n.myAddr, pattern, budget⟩
    (n.searchFile msg "" shuffled).map fun packets =>
      { s with searched := s.searched ++ [msg] }.send packets
  | .deliver i shuffled =>
    s.inFlight[i]?.bind fun p =>
      ((s.nodes p.destination).execSearchRequestMessage p.msg p.relayedBy shuffled).map
        fun (n, packets) =>
          { s with
            nodes := Function.update s.nodes p.destination n
            inFlight := s.inFlight.eraseIdx i
            handled := s.handled ++ [p.msg] }.send packets
  | .route addr origin relayAddr =>
    some { s with
      nodes := Function.update s.nodes addr ((s.nodes addr).setRoutingEntry origin relayAddr) }

inductive Effect (s t : SearchNetwork) : Prop
  | search (msg : SearchRequestMessage) (packets : List SearchPacket)
      (splits : SearchNode.Splits msg msg.budget.toNat packets)
      (eq : t = { s with searched := s.searched ++ [msg] }.send packets) : Effect s t
  | deliver (i : ℕ) (p : SearchPacket) (nodes : String → SearchNode) (packets : List SearchPacket)
      (at_i : s.inFlight[i]? = some p)
      (splits : 0 < p.msg.budget.toNat →
        SearchNode.Splits p.msg (p.msg.budget.toNat - 1) packets)
      (eq : t = { s with
        nodes := nodes
        inFlight := s.inFlight.eraseIdx i
        handled := s.handled ++ [p.msg] }.send packets) : Effect s t
  | route (nodes : String → SearchNode) (eq : t = { s with nodes := nodes }) : Effect s t

variable {s t : SearchNetwork} {e : SearchEvent} {es : List SearchEvent}

theorem step_effect (h : s.step e = some t) : Effect s t := by
  cases e with
  | search addr requestID pattern budget shuffled =>
    obtain ⟨packets, hpackets, rfl⟩ := Option.map_eq_some_iff.mp h
    exact .search _ packets (SearchNode.searchFile_splits hpackets) rfl
  | deliver i shuffled =>
    obtain ⟨p, hp, hexec⟩ := Option.bind_eq_some_iff.mp h
    obtain ⟨⟨n, packets⟩, hpackets, rfl⟩ := Option.map_eq_some_iff.mp hexec
    exact .deliver i p _ packets hp
      (fun hpos => SearchNode.execSearchRequestMessage_splits hpos hpackets) rfl
  | route addr origin relayAddr =>
    obtain rfl := Option.some.inj h
    exact .route _ rfl

def Funded (s : SearchNetwork) : Prop :=
  (∀ p ∈ s.inFlight, 0 < p.msg.budget.toNat) ∧ ∀ m ∈ s.sent, 0 < m.budget.toNat

theorem Funded.send {packets : List SearchPacket} {msg : SearchRequestMessage} {budget : ℕ}
    (h : s.Funded) (hsplits : SearchNode.Splits msg budget packets) : (s.send packets).Funded := by
  have hpos : ∀ p ∈ packets, 0 < p.msg.budget.toNat := fun p hp =>
    hsplits.parts.pos _ (Multiset.mem_coe.mpr (List.mem_map_of_mem hp))
  constructor
  · intro p hp
    exact (List.mem_append.mp hp).elim (h.1 p) (hpos p)
  · intro m hm
    rcases List.mem_append.mp hm with hsent | hnew
    · exact h.2 m hsent
    · obtain ⟨p, hp, rfl⟩ := List.mem_map.mp hnew
      exact hpos p hp

theorem Funded.step (h : s.Funded) (hstep : s.step e = some t) : t.Funded := by
  cases step_effect hstep with
  | search msg packets splits eq =>
    rw [eq]
    exact Funded.send (s := { s with searched := s.searched ++ [msg] }) h splits
  | deliver i p nodes packets at_i splits eq =>
    rw [eq]
    apply Funded.send _ (splits (h.1 p (List.mem_of_getElem? at_i)))
    exact ⟨fun q hq => h.1 q (List.mem_of_mem_eraseIdx hq), h.2⟩
  | route nodes eq =>
    rw [eq]
    exact h

theorem funded_of_run {nodes : String → SearchNode} (h : AnyRun step { nodes := nodes } es s) :
    s.Funded := by
  apply h.invariant (I := Funded)
  · exact ⟨fun _ hp => absurd hp List.not_mem_nil, fun _ hm => absurd hm List.not_mem_nil⟩
  · exact fun hs _ hstep => hs.step hstep

theorem budgets_eraseIdx (requestID : String) {packets : List SearchPacket} {i : ℕ}
    {p : SearchPacket} (hp : packets[i]? = some p) :
    (budgets requestID packets : Multiset ℕ) =
      budgets requestID [p] + budgets requestID (packets.eraseIdx i) := by
  obtain ⟨hlt, rfl⟩ := List.getElem?_eq_some_iff.mp hp
  rw [Multiset.coe_add, ← budgets_append, List.singleton_append, Multiset.coe_eq_coe]
  exact (((List.getElem_cons_eraseIdx_perm hlt).symm.filter _).map _)

/-- The requests of one search as tokens that weigh their budgets. -/
def tokens (requestID : String) (s : SearchNetwork) : Tokens where
  live := budgets requestID s.inFlight
  granted := ((s.searched.filter fun m => m.requestID = requestID).map (·.budget.toNat)).sum
  born := s.sent.countP fun m => m.requestID = requestID
  spent := s.handled.countP fun m => m.requestID = requestID

theorem tokens_send_self {packets : List SearchPacket} {msg : SearchRequestMessage} {budget : ℕ}
    (h : SearchNode.Splits msg budget packets) :
    (s.send packets).tokens msg.requestID =
      { s.tokens msg.requestID with
        live := (s.tokens msg.requestID).live + ↑(packets.map fun p => p.msg.budget.toNat)
        born := (s.tokens msg.requestID).born + packets.length } := by
  have hall : packets.countP (fun p => p.msg.requestID = msg.requestID) = packets.length := by
    rw [List.countP_eq_length]
    intro p hp
    simp [h.requestID p hp]
  ext1
  · simp only [tokens, send]
    rw [budgets_append, h.budgets_self, Multiset.coe_add]
  · rfl
  · simp only [tokens, send]
    rw [List.countP_append, List.countP_map]
    exact congrArg (_ + ·) hall
  · rfl

theorem tokens_send_of_ne {packets : List SearchPacket} {msg : SearchRequestMessage} {budget : ℕ}
    (h : SearchNode.Splits msg budget packets) {requestID : String}
    (hne : msg.requestID ≠ requestID) : (s.send packets).tokens requestID = s.tokens requestID := by
  have hnone : packets.countP (fun p => p.msg.requestID = requestID) = 0 := by
    rw [List.countP_eq_zero]
    intro p hp
    simp [h.requestID p hp, hne]
  ext1
  · simp only [tokens, send]
    rw [budgets_append, h.budgets_of_ne hne, List.append_nil]
  · rfl
  · simp only [tokens, send]
    rw [List.countP_append, List.countP_map]
    exact congrArg (_ + ·) hnone
  · rfl

/-- A step of the network is a step of the tokens of each search, or leaves them as they are. -/
theorem tokens_step (requestID : String) (hs : s.Funded) (h : s.step e = some t) :
    ∃ ds, AnyRun Tokens.step (s.tokens requestID) ds (t.tokens requestID) := by
  cases step_effect h with
  | search msg packets splits eq =>
    rw [eq]
    by_cases hid : msg.requestID = requestID
    · subst hid
      refine ⟨[.grant msg.budget.toNat ↑(packets.map fun p => p.msg.budget.toNat)],
        .one trivial ?_⟩
      rw [tokens_send_self splits, Tokens.step, if_pos splits.parts]
      simp [tokens]
    · refine ⟨[], ?_⟩
      have hsame : tokens requestID { s with searched := s.searched ++ [msg] } =
          tokens requestID s := by simp [tokens, hid]
      rw [tokens_send_of_ne splits hid, hsame]
      exact .nil
  | deliver i p nodes packets at_i splits eq =>
    rw [eq]
    have splits := splits (hs.1 p (List.mem_of_getElem? at_i))
    have herase := budgets_eraseIdx requestID at_i
    by_cases hid : p.msg.requestID = requestID
    · subst hid
      have hone : budgets p.msg.requestID [p] = [p.msg.budget.toNat] := by simp [budgets]
      rw [hone, Multiset.coe_singleton, Multiset.singleton_add] at herase
      refine ⟨[.split p.msg.budget.toNat ↑(packets.map fun p => p.msg.budget.toNat)],
        .one trivial ?_⟩
      have hlive : p.msg.budget.toNat ∈ (s.tokens p.msg.requestID).live := by
        change _ ∈ (budgets p.msg.requestID s.inFlight : Multiset ℕ)
        rw [herase]
        exact Multiset.mem_cons_self _ _
      rw [tokens_send_self splits, Tokens.step, if_pos ⟨hlive, splits.parts⟩]
      simp [tokens, herase]
    · refine ⟨[], ?_⟩
      have hnone : budgets requestID [p] = [] := by simp [budgets, hid]
      rw [hnone, Multiset.coe_nil, Multiset.zero_add] at herase
      rw [tokens_send_of_ne splits hid]
      simp only [tokens, herase, List.countP_append, List.countP_singleton, hid, decide_false,
        Bool.false_eq_true, if_false, Nat.add_zero]
      exact .nil
  | route nodes eq =>
    rw [eq]
    exact ⟨[], .nil⟩

/-- The requests of a search are paid for by the budgets it was given. -/
theorem paid_of_run {nodes : String → SearchNode} (requestID : String)
    (h : AnyRun step { nodes := nodes } es s) : (s.tokens requestID).Paid := by
  have hfunded : Run step (fun t e => True ∧ t.Funded) { nodes := nodes } es s :=
    h.with_invariant (I := Funded) (funded_of_run .nil) fun hs _ hstep => hs.step hstep
  have htokens : ∃ ds, AnyRun Tokens.step {} ds (s.tokens requestID) :=
    hfunded.map (tokens requestID) fun hok hstep => tokens_step requestID hok.2 hstep
  obtain ⟨ds, hds⟩ := htokens
  exact Tokens.paid_of_run hds

/-- A search that is made once sends no more requests than its budget, each with a budget of its
own, and no more of them arrive. -/
theorem search_flood_bounded {nodes : String → SearchNode} {requestID : String} {budget : UInt64}
    (h : AnyRun step { nodes := nodes } es s)
    (honce : (s.searched.filter fun m => m.requestID = requestID).map (·.budget) = [budget]) :
    s.sent.countP (fun m => m.requestID = requestID) ≤ budget.toNat ∧
      (∀ m ∈ s.sent, m.requestID = requestID → 1 ≤ m.budget) ∧
      s.handled.countP (fun m => m.requestID = requestID) ≤ budget.toNat := by
  have hpaid := paid_of_run requestID h
  have hgranted : (s.tokens requestID).granted = budget.toNat := by
    have hmap : (s.searched.filter fun m => m.requestID = requestID).map (·.budget.toNat) =
        ((s.searched.filter fun m => m.requestID = requestID).map (·.budget)).map
          UInt64.toNat := by rw [List.map_map]; rfl
    rw [tokens, hmap, honce]
    exact Nat.add_zero _
  refine ⟨hgranted ▸ hpaid.born_le, fun m hm _ => ?_, hgranted ▸ hpaid.spent_le⟩
  exact UInt64.le_iff_toNat_le.mpr ((funded_of_run h).2 m hm)

end SearchNetwork

namespace Sample

def triangle (addr : String) : SearchNode where
  myAddr := addr
  routingTable := ((Finmap.insert "A" "A" ∅).insert "B" "B").insert "C" "C"
  naming := ∅
  blob := ∅

/-- A search of `A` that comes back to it on both ways around. -/
def aroundTriangle : List SearchEvent :=
  [.search "A" "q" ".*" 5 ["C", "B"], .deliver 0 ["B"], .deliver 0 ["C"], .deliver 0 ["A"],
    .deliver 0 [], .deliver 0 []]

theorem aroundTriangle_isSome :
    (exec SearchNetwork.step { nodes := triangle } aroundTriangle).isSome := by decide

theorem search_flood_bounded_triangle :
    let s := (exec SearchNetwork.step { nodes := triangle } aroundTriangle).get
      aroundTriangle_isSome
    s.sent.countP (fun m => m.requestID = "q") ≤ 5 ∧
      (∀ m ∈ s.sent, m.requestID = "q" → 1 ≤ m.budget) ∧
      s.handled.countP (fun m => m.requestID = "q") ≤ 5 := by
  intro s
  have honce : (s.searched.filter fun m => m.requestID = "q").map (·.budget) = [5] := by
    decide
  exact SearchNetwork.search_flood_bounded (run_exec_get aroundTriangle_isSome) honce

end Sample

end JobPortal.Sharing

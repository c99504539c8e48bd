import JobPortal.Goroutines
import JobPortal.SafeTables

/-! The deals and the responses of the key generation. They may come in before the node has its own
generator, and then their goroutines wait for it. -/
namespace JobPortal.Cothority

open Goroutines Hex Runs

structure Deal where
  index : ℕ
  deal : Bytes
  deriving DecidableEq, Repr

structure Response where
  index : ℕ
  response : Bytes
  deriving DecidableEq, Repr

/-- `res` is nil where the node that broadcasts it could not process the deal. -/
structure DealResponseMessage where
  index : ℕ
  res : Option Response
  deriving DecidableEq, Repr

/-- The key generator of the library. A deal that is not accepted has no response, and
`processResponse` tells whether there was no error. -/
structure DistKeyGenerator (G : Type) where
  processDeal : G → Deal → G × Option Response
  processResponse : G → Response → G × Bool

/-- Where `recvDeal` stands. A deal that is not marked as seen is dropped. -/
inductive DealPC
  | received
  | checked
  | waiting
  | dropped
  | finished
  deriving DecidableEq, Repr

inductive ResponsePC
  | received
  | checked
  | waiting (res : Response)
  | dropped
  | finished
  deriving DecidableEq, Repr

def DealPC.Marked (pc : DealPC) : Prop := pc = .waiting ∨ pc = .finished

def ResponsePC.Marked (pc : ResponsePC) : Prop := (∃ res, pc = .waiting res) ∨ pc = .finished

/-- The goroutines of a node with the generator that they share. `handedDeals` and
`handedResponses` are the goroutines that have handed theirs to the generator. -/
structure DealExchange (G : Type) where
  index : ℕ
  addresses : List String
  dkg : Option G := none
  dkgDone : Bool := false
  dealTable : SafeIndexTable := .newSafeIndexTable
  resTable : SafeIndexTable := .newSafeIndexTable
  deals : List (Deal × DealPC) := []
  responses : List (DealResponseMessage × ResponsePC) := []
  handedDeals : List ℕ := []
  handedResponses : List ℕ := []

inductive ExchangeEvent (G : Type)
  /-- `ExecDealMessage`. -/
  | receiveDeal (deal : Deal)
  /-- `ExecDealResponseMessage`. -/
  | receiveResponse (m : DealResponseMessage)
  | initDKG (dkg : G)
  | checkDeal (j : ℕ)
  | markDeal (j : ℕ)
  | processDeal (j : ℕ)
  | checkResponse (j : ℕ)
  | markResponse (j : ℕ)
  | processResponse (j : ℕ)
  /-- `CheckCertified` is done. -/
  | dkgDone
  deriving DecidableEq, Repr

namespace DealExchange

variable {G : Type} (D : DistKeyGenerator G)

def resKey (s : DealExchange G) (m : DealResponseMessage) (res : Response) : ℕ :=
  (m.index + s.addresses.length * (1 + res.index)) % 2 ^ 64

def act (s : DealExchange G) : ExchangeEvent G → Turn (DealExchange G)
  | .receiveDeal deal => .done { s with deals := s.deals ++ [(deal, .received)] }
  | .receiveResponse m => .done { s with responses := s.responses ++ [(m, .received)] }
  | .initDKG dkg => .done { s with dkg := some dkg }
  | .checkDeal j =>
    match s.deals[j]? with
    | some (deal, .received) =>
      .done { s with deals := s.deals.set j (deal, if s.dkgDone then .dropped else .checked) }
    | _ => .blocked
  | .markDeal j =>
    match s.deals[j]? with
    | some (deal, .checked) =>
      let (table, new) := s.dealTable.set deal.index
      .done { s with
        dealTable := table
        deals := s.deals.set j (deal, if new then .waiting else .dropped) }
    | _ => .blocked
  | .processDeal j =>
    match s.deals[j]? with
    | some (deal, .waiting) =>
      match s.dkg with
      | some dkg =>
        let (dkg, res) := D.processDeal dkg deal
        -- The broadcast of the response is handled by the node itself, too.
        .done { s with
          dkg := some dkg
          deals := s.deals.set j (deal, .finished)
          handedDeals := s.handedDeals ++ [j]
          responses := s.responses ++ [(⟨s.index, res⟩, .received)] }
      | none => .done s
    | _ => .blocked
  | .checkResponse j =>
    match s.responses[j]? with
    | some (m, .received) =>
      .done { s with responses := s.responses.set j (m, if s.dkgDone then .dropped else .checked) }
    | _ => .blocked
  | .markResponse j =>
    match s.responses[j]? with
    | some (m, .checked) =>
      match m.res with
      | some res =>
        let (table, new) := s.resTable.set (s.resKey m res)
        .done { s with
          resTable := table
          responses := s.responses.set j (m, if new then .waiting res else .dropped) }
      | none => .panicked
    | _ => .blocked
  | .processResponse j =>
    match s.responses[j]? with
    | some (m, .waiting res) =>
      match s.dkg with
      | some dkg =>
        let (dkg, accepted) := D.processResponse dkg res
        .done { s with
          dkg := some dkg
          responses := s.responses.set j (m, if accepted then .finished else .waiting res)
          handedResponses := s.handedResponses ++ [j] }
      | none => .done { s with responses := s.responses.set j (m, .finished) }
    | _ => .blocked
  | .dkgDone => if s.dkg.isSome then .done { s with dkgDone := true } else .blocked

def newDealExchange (index : ℕ) (addresses : List String) : DealExchange G :=
  { index := index, addresses := addresses }

def step (s : DealExchange G) (e : ExchangeEvent G) : Option (DealExchange G) :=
  (s.act D e).toOption

def DealsKept (s : DealExchange G) : Prop :=
  ∀ (j : ℕ) (deal : Deal) (pc : DealPC), s.deals[j]? = some (deal, pc) → pc.Marked →
    pc = .waiting ∨ j ∈ s.handedDeals

def ResponsesKept (s : DealExchange G) : Prop :=
  ∀ (j : ℕ) (m : DealResponseMessage) (pc : ResponsePC), s.responses[j]? = some (m, pc) →
    pc.Marked → (∃ res, pc = .waiting res) ∨ j ∈ s.handedResponses

/-- Every deal and every response that was marked as seen waits in its goroutine or has been handed
to the generator. -/
def NoneLost (s : DealExchange G) : Prop := s.DealsKept ∧ s.ResponsesKept

/-- No response gets its turn before the generator is there. -/
def Ready (s : DealExchange G) : ExchangeEvent G → Prop
  | .processResponse _ => s.dkg.isSome
  | _ => True

variable {D} {s t : DealExchange G} {e : ExchangeEvent G} {es : List (ExchangeEvent G)}

inductive Effect (D : DistKeyGenerator G) (s : DealExchange G) :
    ExchangeEvent G → DealExchange G → Prop
  | receiveDeal (deal : Deal) :
      Effect D s (.receiveDeal deal) { s with deals := s.deals ++ [(deal, .received)] }
  | receiveResponse (m : DealResponseMessage) :
      Effect D s (.receiveResponse m) { s with responses := s.responses ++ [(m, .received)] }
  | initDKG (dkg : G) : Effect D s (.initDKG dkg) { s with dkg := some dkg }
  | checkDeal {j : ℕ} {deal : Deal} (hj : s.deals[j]? = some (deal, .received)) :
      Effect D s (.checkDeal j)
        { s with deals := s.deals.set j (deal, if s.dkgDone then .dropped else .checked) }
  | markDeal {j : ℕ} {deal : Deal} (hj : s.deals[j]? = some (deal, .checked)) :
      Effect D s (.markDeal j) { s with
        dealTable := (s.dealTable.set deal.index).1
        deals := s.deals.set j
          (deal, if (s.dealTable.set deal.index).2 then .waiting else .dropped) }
  | processDeal {j : ℕ} {deal : Deal} {dkg : G} (hj : s.deals[j]? = some (deal, .waiting))
      (hdkg : s.dkg = some dkg) :
      Effect D s (.processDeal j) { s with
        dkg := some (D.processDeal dkg deal).1
        deals := s.deals.set j (deal, .finished)
        handedDeals := s.handedDeals ++ [j]
        responses := s.responses ++ [(⟨s.index, (D.processDeal dkg deal).2⟩, .received)] }
  | pollDeal {j : ℕ} {deal : Deal} (hj : s.deals[j]? = some (deal, .waiting))
      (hdkg : s.dkg = none) : Effect D s (.processDeal j) s
  | checkResponse {j : ℕ} {m : DealResponseMessage} (hj : s.responses[j]? = some (m, .received)) :
      Effect D s (.checkResponse j)
        { s with responses := s.responses.set j (m, if s.dkgDone then .dropped else .checked) }
  | markResponse {j : ℕ} {m : DealResponseMessage} {res : Response}
      (hj : s.responses[j]? = some (m, .checked)) (hres : m.res = some res) :
      Effect D s (.markResponse j) { s with
        resTable := (s.resTable.set (s.resKey m res)).1
        responses := s.responses.set j
          (m, if (s.resTable.set (s.resKey m res)).2 then .waiting res else .dropped) }
  | processResponse {j : ℕ} {m : DealResponseMessage} {res : Response} {dkg : G}
      (hj : s.responses[j]? = some (m, .waiting res)) (hdkg : s.dkg = some dkg) :
      Effect D s (.processResponse j) { s with
        dkg := some (D.processResponse dkg res).1
        responses := s.responses.set j
          (m, if (D.processResponse dkg res).2 then .finished else .waiting res)
        handedResponses := s.handedResponses ++ [j] }
  | loseResponse {j : ℕ} {m : DealResponseMessage} {res : Response}
      (hj : s.responses[j]? = some (m, .waiting res)) (hdkg : s.dkg = none) :
      Effect D s (.processResponse j) { s with responses := s.responses.set j (m, .finished) }
  | dkgDone (hdkg : s.dkg.isSome) : Effect D s .dkgDone { s with dkgDone := true }

theorem step_effect (h : s.step D e = some t) : s.Effect D e t := by
  have hact := Turn.toOption_eq_some.mp h
  cases e with
  | receiveDeal deal =>
    cases hact
    exact .receiveDeal deal
  | receiveResponse m =>
    cases hact
    exact .receiveResponse m
  | initDKG dkg =>
    cases hact
    exact .initDKG dkg
  | checkDeal j =>
    simp only [act] at hact
    split at hact
    · rename_i deal hj
      cases hact
      exact .checkDeal hj
    · cases hact
  | markDeal j =>
    simp only [act] at hact
    split at hact
    · rename_i deal hj
      cases hact
      exact .markDeal hj
    · cases hact
  | processDeal j =>
    simp only [act] at hact
    split at hact
    · rename_i deal hj
      split at hact
      · rename_i dkg hdkg
        cases hact
        exact .processDeal hj hdkg
      · rename_i hdkg
        cases hact
        exact .pollDeal hj hdkg
    · cases hact
  | checkResponse j =>
    simp only [act] at hact
    split at hact
    · rename_i m hj
      cases hact
      exact .checkResponse hj
    · cases hact
  | markResponse j =>
    simp only [act] at hact
    split at hact
    · rename_i m hj
      split at hact
      · rename_i res hres
        cases hact
        exact .markResponse hj hres
      · cases hact
    · cases hact
  | processResponse j =>
    simp only [act] at hact
    split at hact
    · rename_i m res hj
      split at hact
      · rename_i dkg hdkg
        cases hact
        exact .processResponse hj hdkg
      · rename_i hdkg
        cases hact
        exact .loseResponse hj hdkg
    · cases hact
  | dkgDone =>
    simp only [act] at hact
    split_ifs at hact with hdkg
    cases hact
    exact .dkgDone hdkg

theorem responsesKept_iff : s.ResponsesKept ↔
    ∀ (j : ℕ) (m : DealResponseMessage), s.responses[j]? = some (m, .finished) →
      j ∈ s.handedResponses := by
  constructor
  · intro hs j m hj
    rcases hs j m .finished hj (.inr rfl) with ⟨_, hpc⟩ | hmem
    · cases hpc
    · exact hmem
  · rintro hs j m pc hj (hwaiting | rfl)
    · exact .inl hwaiting
    · exact .inr (hs j m hj)

theorem dealsKept_iff : s.DealsKept ↔
    ∀ (j : ℕ) (deal : Deal), s.deals[j]? = some (deal, .finished) → j ∈ s.handedDeals := by
  constructor
  · intro hs j deal hj
    rcases hs j deal .finished hj (.inr rfl) with hpc | hmem
    · cases hpc
    · exact hmem
  · rintro hs j deal pc hj (hwaiting | rfl)
    · exact .inl hwaiting
    · exact .inr (hs j deal hj)

theorem finished_set_iff {j k : ℕ} {m m' : DealResponseMessage} {pc pc' : ResponsePC}
    (hj : s.responses[j]? = some (m, pc)) (hpc : pc ≠ .finished) (hpc' : pc' ≠ .finished) :
    (s.responses.set j (m, pc'))[k]? = some (m', .finished) ↔
      s.responses[k]? = some (m', .finished) :=
  getElem?_set_iff (p := fun task => task.2 = ResponsePC.finished) hj hpc hpc' rfl

theorem finished_received_iff {k : ℕ} {m m' : DealResponseMessage} :
    (s.responses ++ [(m, ResponsePC.received)])[k]? = some (m', .finished) ↔
      s.responses[k]? = some (m', .finished) :=
  getElem?_concat_iff (p := fun task => task.2 = ResponsePC.finished) nofun rfl

/-- Only a turn at the lock ends a goroutine that has marked its response. -/
theorem responses_of_step (he : ∀ j, e ≠ .processResponse j) (h : s.step D e = some t) :
    t.handedResponses = s.handedResponses ∧ ∀ (k : ℕ) (m : DealResponseMessage),
      t.responses[k]? = some (m, .finished) ↔ s.responses[k]? = some (m, .finished) := by
  cases step_effect h with
  | receiveResponse m => exact ⟨rfl, fun _ _ => finished_received_iff⟩
  | processDeal => exact ⟨rfl, fun _ _ => finished_received_iff⟩
  | checkResponse hj =>
    refine ⟨rfl, fun _ _ => finished_set_iff hj nofun ?_⟩
    split_ifs <;> nofun
  | markResponse hj =>
    refine ⟨rfl, fun _ _ => finished_set_iff hj nofun ?_⟩
    split_ifs <;> nofun
  | processResponse | loseResponse => exact absurd rfl (he _)
  | receiveDeal | initDKG | checkDeal | markDeal | pollDeal | dkgDone =>
    exact ⟨rfl, fun _ _ => .rfl⟩

def HandedLater (s : DealExchange G) : Prop := s.dkg = none → s.handedResponses = []

theorem handedLater_step (hs : s.HandedLater) (h : s.step D e = some t) : t.HandedLater := by
  cases step_effect h with
  | initDKG | processDeal | processResponse => exact nofun
  | _ => exact hs

theorem responsesKept_step (hs : s.HandedLater) (h : s.step D e = some t) :
    t.ResponsesKept ↔ s.ResponsesKept ∧ s.Ready e := by
  rw [responsesKept_iff, responsesKept_iff]
  by_cases he : ∀ j, e ≠ .processResponse j
  · obtain ⟨hhanded, hfinished⟩ := responses_of_step he h
    have hready : s.Ready e := by
      cases e with
      | processResponse j => exact absurd rfl (he j)
      | _ => trivial
    simp only [hhanded, hfinished, hready, and_true]
  · obtain ⟨j, hj⟩ := not_forall.mp he
    obtain rfl := not_not.mp hj
    cases step_effect h with
    | processResponse hj hdkg =>
      have hready : s.Ready (.processResponse j) := by
        simp [Ready, hdkg]
      rw [and_iff_left hready]
      constructor
      · intro ht k m' hk
        have hne : k ≠ j := by
          rintro rfl
          rw [hj] at hk
          cases hk
        have hmem := ht k m' ((getElem?_set_eq_some hj).mpr (.inr ⟨hne, hk⟩))
        exact (List.mem_append.mp hmem).resolve_right fun h => hne (List.mem_singleton.mp h)
      · intro hs k m' hk
        rcases (getElem?_set_eq_some hj).mp hk with ⟨rfl, _⟩ | ⟨_, hk⟩
        · exact List.mem_append_right _ (List.mem_singleton_self k)
        · exact List.mem_append_left _ (hs k m' hk)
    | @loseResponse _ m _ hj hdkg =>
      refine iff_of_false (fun ht => ?_) fun h => ?_
      · have hmem := ht j m ((getElem?_set_eq_some hj).mpr (.inl ⟨rfl, rfl⟩))
        rw [hs hdkg] at hmem
        cases hmem
      · have hready := h.2
        simp [Ready, hdkg] at hready

/-- A deal is handed over in the turn that ends its goroutine. -/
theorem dealsKept_step (hs : s.DealsKept) (h : s.step D e = some t) : t.DealsKept := by
  rw [dealsKept_iff] at hs ⊢
  have hset {j k : ℕ} {deal deal' : Deal} {pc pc' : DealPC} (hj : s.deals[j]? = some (deal, pc))
      (hpc : pc ≠ .finished) (hpc' : pc' ≠ .finished) :
      (s.deals.set j (deal, pc'))[k]? = some (deal', .finished) ↔
        s.deals[k]? = some (deal', .finished) :=
    getElem?_set_iff (p := fun task => task.2 = DealPC.finished) hj hpc hpc' rfl
  have hadd {k : ℕ} {deal deal' : Deal} :
      (s.deals ++ [(deal, DealPC.received)])[k]? = some (deal', .finished) ↔
        s.deals[k]? = some (deal', .finished) :=
    getElem?_concat_iff (p := fun task => task.2 = DealPC.finished) nofun rfl
  cases step_effect h with
  | receiveDeal deal =>
    intro k deal' hk
    exact hs k deal' (hadd.mp hk)
  | checkDeal hj =>
    intro k deal' hk
    refine hs k deal' ((hset hj nofun ?_).mp hk)
    split_ifs <;> nofun
  | markDeal hj =>
    intro k deal' hk
    refine hs k deal' ((hset hj nofun ?_).mp hk)
    split_ifs <;> nofun
  | processDeal hj =>
    intro k deal' hk
    rcases (getElem?_set_eq_some hj).mp hk with ⟨rfl, _⟩ | ⟨_, hk⟩
    · exact List.mem_append_right _ (List.mem_singleton_self k)
    · exact List.mem_append_left _ (hs k deal' hk)
  | receiveResponse | initDKG | pollDeal | checkResponse | markResponse | processResponse |
      loseResponse | dkgDone => exact hs

/-- No deal is ever lost, and no response is as long as none gets its turn before the generator is
there. -/
theorem none_lost_iff {index : ℕ} {addresses : List String}
    (h : AnyRun (step D) (newDealExchange index addresses) es s) :
    s.NoneLost ↔ Run (step D) Ready (newDealExchange index addresses) es s := by
  have hdeals : s.DealsKept := h.invariant (fun _ _ _ hj => by cases hj)
    fun hs _ hstep => dealsKept_step hs hstep
  have hrun := h.with_invariant (I := HandedLater) (fun _ => rfl)
    fun hs _ hstep => handedLater_step hs hstep
  rw [NoneLost, and_iff_right hdeals]
  apply holds_iff_run (I := ResponsesKept) (J := fun _ => True) hrun trivial
  · intro _ _ _ hj
    cases hj
  · exact fun _ _ => trivial
  · exact fun hlater hstep _ => responsesKept_step hlater.2 hstep

end DealExchange

namespace Sample

def generator : DistKeyGenerator Unit where
  processDeal _ deal := ((), some ⟨deal.index, [1]⟩)
  processResponse _ _ := ((), true)

def overtaking : List (ExchangeEvent Unit) :=
  [.receiveResponse ⟨1, some ⟨0, [2]⟩⟩, .checkResponse 0, .markResponse 0, .processResponse 0,
    .initDKG ()]

def waitingDeal : List (ExchangeEvent Unit) :=
  [.receiveDeal ⟨1, [3]⟩, .checkDeal 0, .markDeal 0, .processDeal 0, .initDKG (), .processDeal 0,
    .checkResponse 0, .markResponse 0, .processResponse 0]

def exchange (es : List (ExchangeEvent Unit)) : Option (DealExchange Unit) :=
  exec (DealExchange.step generator) (DealExchange.newDealExchange 0 ["A", "B"]) es

theorem overtaking_isSome : (exchange overtaking).isSome := by
  decide

/-- The response is marked as seen, and never gets to the generator. -/
theorem exchange_counterexample :
    ∃ s, AnyRun (DealExchange.step generator) (DealExchange.newDealExchange 0 ["A", "B"])
        overtaking s ∧ ¬ s.NoneLost := by
  refine ⟨_, run_exec_get overtaking_isSome, fun h => ?_⟩
  have hkept := DealExchange.responsesKept_iff.mp h.2 0 ⟨1, some ⟨0, [2]⟩⟩ (by decide)
  revert hkept
  decide

theorem waitingDeal_isSome : (exchange waitingDeal).isSome := by
  decide

theorem none_lost_iff_waitingDeal :
    let s := (exchange waitingDeal).get waitingDeal_isSome
    s.NoneLost ↔ Run (DealExchange.step generator) DealExchange.Ready
      (DealExchange.newDealExchange 0 ["A", "B"]) waitingDeal s :=
  DealExchange.none_lost_iff (run_exec_get waitingDeal_isSome)

end Sample

end JobPortal.Cothority

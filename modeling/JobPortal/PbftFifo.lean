import JobPortal.PbftPrefix

/-! Delivery in the order of broadcast. Every peer gets the broadcasts of each origin one after
another from the first on, while origins interleave freely. -/
namespace JobPortal

open Runs

variable {P : Primitives}

inductive FifoEvent
  | deliver (origin : String)
  | tag (name mh : String)
  | verify (i : ℕ)
  | propose (i : ℕ)
  deriving DecidableEq, Repr

/-- The peers, and how many broadcasts of each origin each peer has got. -/
structure Fifo where
  net : Network
  delivered : String → String → ℕ

namespace Fifo

variable (D : Deployment P)

def start : Fifo := ⟨Network.start D, fun _ _ => 0⟩

/-- What an event means for the network: a delivery is of the next broadcast of its origin. -/
def event (s : Fifo) (x : String) : FifoEvent → Option PeerEvent
  | .deliver o => (s.net o).sent[s.delivered x o]?.map .receive
  | .tag name mh => some (.tag name mh)
  | .verify i => some (.verify i)
  | .propose i => some (.propose i)

def counted (s : Fifo) (x : String) : FifoEvent → String → String → ℕ
  | .deliver o => Function.update s.delivered x
      (Function.update (s.delivered x) o (s.delivered x o + 1))
  | _ => s.delivered

def step (s : Fifo) (e : String × FifoEvent) : Option Fifo :=
  (s.event e.1 e.2).bind fun ev =>
    (Network.step D s.net (e.1, ev)).map fun net => ⟨net, s.counted e.1 e.2⟩

def TagsInTurn (s : Fifo) (e : String × FifoEvent) : Prop :=
  ∀ ev ∈ s.event e.1 e.2, (s.net e.1).TagsInTurn ev

/-- No ID is committed before the ID of the same proposer before it. -/
def InOrder (P : Primitives) (s : Fifo) (e : String × FifoEvent) : Prop :=
  ∀ ev ∈ s.event e.1 e.2, Network.InOrder (P := P) s.net (e.1, ev)

instance (s : Fifo) (e : String × FifoEvent) : Decidable (s.TagsInTurn e) := by
  unfold TagsInTurn
  infer_instance

instance (s : Fifo) (e : String × FifoEvent) : Decidable (s.InOrder P e) := by
  unfold InOrder
  infer_instance

variable {D} {s t : Fifo} {es : List (String × FifoEvent)}

/-- Forgetting the counters leaves a run of the network that delivers broadcasts only. -/
theorem network_run
    (h : Run (step D) (fun s e => s.TagsInTurn e ∧ s.InOrder P e) (start D) es s) :
    ∃ es', Run (Network.step D) (Network.Orderly P) (Network.start D) es' s.net := by
  apply h.map (f := net)
  rintro s t ⟨x, e⟩ ⟨hturn, horder⟩ hstep
  obtain ⟨ev, hev, hmap⟩ := Option.bind_eq_some_iff.mp hstep
  obtain ⟨net, hnet, rfl⟩ := Option.map_eq_some_iff.mp hmap
  refine ⟨[(x, ev)], Run.one ⟨?_, hturn ev hev, horder ev hev⟩ hnet⟩
  cases e with
  | deliver o =>
    obtain ⟨m, hm, rfl⟩ := Option.map_eq_some_iff.mp hev
    exact ⟨o, List.mem_of_getElem? hm⟩
  | tag name mh =>
    obtain rfl := Option.some.inj hev
    trivial
  | verify i =>
    obtain rfl := Option.some.inj hev
    trivial
  | propose i =>
    obtain rfl := Option.some.inj hev
    trivial

end Fifo

/-- In every run of honest peers that commit the IDs of each proposer in order, the chains of any
two peers for one HR list the same requests as far as both go. -/
theorem chains_prefix {D : Deployment P} (hD : D.AllHonest) {es : List (String × FifoEvent)}
    {s : Fifo}
    (hrun : Run (Fifo.step D) (fun s e => s.TagsInTurn e ∧ s.InOrder P e) (Fifo.start D) es s)
    (hunmarshal : ∀ b, P.unmarshalBlock (P.marshalBlock b) = some b)
    (hdigest : Network.DigestsSound D s.net)
    (hhash : ∀ x ∈ D.members, HashesSound P (s.net x).blocks) {x y : String} (hx : x ∈ D.members)
    (hy : y ∈ D.members) (h : String) :
    ∃ bs cs, (s.net x).node.hrStorage.hrBlockchain.chain P h = some bs ∧
      (s.net y).node.hrStorage.hrBlockchain.chain P h = some cs ∧
      (bs.map (·.request) <+: cs.map (·.request) ∨ cs.map (·.request) <+: bs.map (·.request)) := by
  obtain ⟨es', hnet⟩ := Fifo.network_run hrun
  exact ⟨_, _, chain_of_run (Network.peer_run hnet x) (hhash x hx) (fun b _ => hunmarshal b) h,
    chain_of_run (Network.peer_run hnet y) (hhash y hy) (fun b _ => hunmarshal b) h,
    Network.requests_prefix hD hnet hdigest x y h⟩

namespace Sample

def honestDeployment : Deployment primitives := { deployment with faulty := ∅ }

/-- A's first request reaches C and D in time, and B only after their Prepares and Commits. -/
def firstRequest : List (String × FifoEvent) :=
  [("A", .tag "f" "m"), ("A", .verify 0), ("A", .propose 0),
    ("C", .deliver "A"), ("D", .deliver "A"), ("A", .deliver "C"), ("A", .deliver "D"),
    ("C", .deliver "D"), ("D", .deliver "C"), ("A", .deliver "C"), ("A", .deliver "D"),
    ("A", .verify 0),
    ("B", .deliver "C"), ("B", .deliver "C"), ("B", .deliver "D"), ("B", .deliver "D"),
    ("B", .deliver "A"), ("B", .deliver "A")]

def secondRequest : List (String × FifoEvent) :=
  [("A", .tag "g" "n"), ("A", .verify 1), ("A", .propose 1),
    ("B", .deliver "A"), ("C", .deliver "A"), ("C", .deliver "A"), ("D", .deliver "A"),
    ("D", .deliver "A"), ("B", .deliver "C"), ("C", .deliver "D"), ("C", .deliver "D"),
    ("A", .deliver "C"), ("A", .deliver "D"), ("B", .deliver "C"), ("B", .deliver "A")]

theorem overtaking_isSome :
    (exec (guarded (Fifo.step honestDeployment) Fifo.TagsInTurn) (Fifo.start honestDeployment)
      (firstRequest ++ secondRequest)).isSome := by
  decide +kernel

def overtaking : Fifo :=
  (exec (guarded (Fifo.step honestDeployment) Fifo.TagsInTurn) (Fifo.start honestDeployment)
    (firstRequest ++ secondRequest)).get overtaking_isSome

theorem honestDeployment_allHonest : honestDeployment.AllHonest where
  faulty := rfl
  peers := by decide
  range := by decide
  distinct := by decide

/-- Node A has the first request on its chain, node B the second one only. -/
theorem prefix_counterexample :
    honestDeployment.AllHonest ∧
      Run (Fifo.step honestDeployment) (fun s e => s.TagsInTurn e) (Fifo.start honestDeployment)
        (firstRequest ++ secondRequest) overtaking ∧
      ∃ bs cs, (overtaking.net "A").node.hrStorage.hrBlockchain.chain primitives "A" = some bs ∧
        (overtaking.net "B").node.hrStorage.hrBlockchain.chain primitives "A" = some cs ∧
        ¬ (bs.map (·.request) <+: cs.map (·.request) ∨
          cs.map (·.request) <+: bs.map (·.request)) := by
  have hA : ((overtaking.net "A").node.hrStorage.hrBlockchain.chain primitives "A").map
      (·.map (·.request)) = some [⟨"A", "f", "m"⟩] := by decide +kernel
  have hB : ((overtaking.net "B").node.hrStorage.hrBlockchain.chain primitives "A").map
      (·.map (·.request)) = some [⟨"A", "g", "n"⟩] := by decide +kernel
  obtain ⟨bs, hbs, hreqs⟩ := Option.map_eq_some_iff.mp hA
  obtain ⟨cs, hcs, hreqs'⟩ := Option.map_eq_some_iff.mp hB
  refine ⟨honestDeployment_allHonest, run_of_guarded (run_exec_get _), bs, cs, hbs, hcs, ?_⟩
  rw [hreqs, hreqs']
  decide

def inTime : List (String × FifoEvent) :=
  [("A", .tag "f" "m"), ("A", .verify 0), ("A", .propose 0),
    ("B", .deliver "A"), ("C", .deliver "A"), ("D", .deliver "A"), ("A", .deliver "C"),
    ("A", .deliver "D"), ("C", .deliver "D"), ("D", .deliver "C"), ("A", .deliver "C"),
    ("A", .deliver "D"), ("B", .deliver "C"), ("B", .deliver "C"), ("B", .deliver "D"),
    ("B", .deliver "D")]

theorem inTime_isSome :
    (exec (guarded (Fifo.step honestDeployment) fun s e => s.TagsInTurn e ∧ s.InOrder primitives e)
      (Fifo.start honestDeployment) inTime).isSome := by
  decide

def consistent : Fifo :=
  (exec (guarded (Fifo.step honestDeployment) fun s e => s.TagsInTurn e ∧ s.InOrder primitives e)
    (Fifo.start honestDeployment) inTime).get inTime_isSome

theorem consistent_run : Run (Fifo.step honestDeployment)
    (fun s e => s.TagsInTurn e ∧ s.InOrder primitives e) (Fifo.start honestDeployment) inTime
    consistent := run_of_guarded (run_exec_get inTime_isSome)

theorem chains_prefix_inTime :
    ∃ bs cs, (consistent.net "A").node.hrStorage.hrBlockchain.chain primitives "A" = some bs ∧
      (consistent.net "B").node.hrStorage.hrBlockchain.chain primitives "A" = some cs ∧
      (bs.map (·.request) <+: cs.map (·.request) ∨ cs.map (·.request) <+: bs.map (·.request)) :=
  chains_prefix honestDeployment_allHonest consistent_run
    unmarshalBlock_marshalBlock (by decide +kernel) (by decide +kernel) (by decide) (by decide) "A"

end Sample

end JobPortal

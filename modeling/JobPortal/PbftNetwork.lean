import JobPortal.PbftPeer

/-! The peers of one deployment. Honest peers run the code; the others are present only
through the messages they cause to be delivered. Any message can be delivered to anyone,
any number of times. -/
namespace JobPortal

open Hex Runs

variable (P : Primitives)

/-- Key files exist for the members only. -/
structure Deployment where
  members : Finset String
  faulty : Finset String
  paxosID : String → ℕ
  keys : ∀ a key, P.getPublicKey a = some key → a ∈ members

namespace Deployment

variable {P} (D : Deployment P)

def honest : Finset String := D.members \ D.faulty

def conf (a : String) : PeerConfig :=
  { myAddr := a, paxosID := D.paxosID a, totalPeers := D.members.card }

end Deployment

abbrev Network := String → Peer

namespace Network

variable {P} (D : Deployment P)

def start : Network := fun a => newPeer P (D.conf a)

def step : Network → String × PeerEvent → Option Network := each (Peer.step P) (· ∈ D.honest)

/-- No signature is forged, and no other signatures of the peers go round: what verifies under the
key of an honest peer was signed by that peer for some message of the PBFT. -/
def Authentic (g : Network) : String × PeerEvent → Prop
  | (_, .receive m) => ∀ src ∈ m.srcAddr, ∀ d ∈ m.digest, P.signed m = true → src ∈ D.honest →
      decodeString d ∈ (g src).signed
  | _ => True

instance (g : Network) : (e : String × PeerEvent) → Decidable (Authentic D g e)
  | (_, .receive _) => by unfold Authentic; infer_instance
  | (_, .tag ..) | (_, .verify _) | (_, .propose _) => isTrue trivial

variable {D} {g g' : Network} {a : String} {e : PeerEvent} {es : List (String × PeerEvent)}
  {ok : Network → String × PeerEvent → Prop}

/-- Every peer of a network goes through a run of its own. -/
theorem peer_run (h : Run (step D) ok (start D) es g) (a : String) :
    AnyRun (Peer.step P) (newPeer P (D.conf a)) (eventsOf a es) (g a) :=
  h.component (fun _ _ _ _ => trivial) a

theorem step_effect (h : step D g (a, e) = some g') :
    a ∈ D.honest ∧ ∃ q, (g a).Effect P e q ∧ g' = Function.update g a q := by
  obtain ⟨ha, q, hq, rfl⟩ := each_eq_some h
  exact ⟨ha, q, Peer.step_effect P hq, rfl⟩

theorem forall_step {I : String → Peer → Prop} (h : step D g (a, e) = some g')
    (hg : ∀ b, I b (g b)) (hstep : ∀ q, (g a).Effect P e q → g' a = q → I a q) :
    ∀ b, I b (g' b) :=
  each_forall h hg fun q hq => hstep q (Peer.step_effect P hq)

theorem histories (h : step D g (a, e) = some g') (b : String) :
    (g b).sent <+: (g' b).sent ∧ (g b).signed <+: (g' b).signed ∧
      (g b).appended <+: (g' b).appended :=
  forall_step (I := fun b q => (g b).sent <+: q.sent ∧ (g b).signed <+: q.signed ∧
      (g b).appended <+: q.appended) h
    (fun _ => ⟨List.prefix_refl _, List.prefix_refl _, List.prefix_refl _⟩)
    (fun _ heff _ => heff.histories P) b

end Network

end JobPortal

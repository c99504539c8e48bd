import JobPortal.Goroutines
import JobPortal.PbftSample

/-! The calls of a PBFT node with the two mutexes they take: `pbft.lock`, and that of the tree the
node's own broadcasts go by. A step of a call takes it to the next point where it waits for one of
them or gives one back, so calls interleave between their sections. -/
namespace JobPortal

open Goroutines Hex Runs

/-- What a call still does. -/
inductive CallOp
  | handle (m : Message)
  /-- The handler is past its checks and waits for `pbft.lock`. -/
  | enter (m : Message)
  | getStep
  | advance (step : ℕ) (catchUp : Bool)
  | turnBad
  | verify (call : TagCall)
  | propose (call : TagCall)
  | unlock
  /-- `Broadcast` waits for the tree, and processes its own message while it has it. -/
  | broadcast (m : Message)
  /-- Something else takes the tree. It may ask for it `again` before it gives it back. -/
  | useTree (again : Bool)
  /-- The tree stays locked until the handler of the packet returns. -/
  | keepTree
  | unlockTree
  /-- The call waits for a tree that it has locked itself. -/
  | lockAgain
  deriving DecidableEq, Repr

def CallOp.inside (again : Bool) : List CallOp := if again then [.useTree false] else []

/-- What is in a packet for the node. -/
inductive Delivery
  | message (m : Message)
  /-- A message of another kind, whose handler broadcasts. -/
  | other (again : Bool)
  /-- The rumor before was one of the node's own. -/
  | own
  /-- The rumor before was of the same origin as an earlier one. -/
  | repeated
  deriving DecidableEq, Repr

def Delivery.op : Delivery → CallOp
  | .message m => .handle m
  | .other again => .useTree again
  | .own => .keepTree
  | .repeated => .lockAgain

/-- The first call is that of the Processor. -/
structure Replica where
  node : Node
  tree : Bool := false
  calls : List (List CallOp) := [[]]
  sent : List Message := []

inductive ReplicaEvent
  /-- The Processor takes a packet. -/
  | receive (packet : List Delivery)
  | tag (name mh : String)
  | turnBad
  /-- A broadcast of something else, or a handler of the tree. -/
  | useTree (again : Bool)
  /-- A Tag call goes on with its loop. -/
  | wake (i : ℕ)
  | step (i : ℕ)
  /-- The broadcast a call is at fails to send, and returns. -/
  | drop (i : ℕ)
  deriving DecidableEq, Repr

variable (P : Primitives)

/-- The checks before the critical section turn the message down: the handler returns with an
error, or panics. -/
def Message.fails : Message → Bool
  | .prePrepare pp =>
    decide (P.getDigest pp.requestMessage ≠ pp.digest) || !P.signed (.prePrepare pp)
  | .pbftTLC _ => false
  | m => !P.signed m

/-- The step has consensus, and it is the current one. -/
def SafePbft.Advances (s : SafePbft) (step : ℕ) : Prop :=
  step = s.pbftID ∧ (s.consensus.lookup step).isSome

instance (s : SafePbft) (step : ℕ) : Decidable (s.Advances step) :=
  inferInstanceAs (Decidable (_ ∧ _))

namespace Node

def unlocked (n : Node) : Node := { n with pbft := { n.pbft with lock := false } }

def turnedBad (n : Node) : Node := { n with pbft := { n.pbft with role := 1 } }

end Node

namespace Replica

variable (s : Replica)

/-- Only the deferred calls are left of a call that ends early. -/
def abandon (rest : List CallOp) : List CallOp := rest.filter (· = .unlockTree)

/-- The critical section of a handler, up to where it waits for the tree. -/
def enter (rest : List CallOp) : Message → Replica × List CallOp
  | .prePrepare pp =>
    -- the early return of this branch skips the unlock
    if s.node.Conflicts pp then ({ s with node := s.node.locked }, abandon rest)
    else ({ s with node := s.node.storePrePrepare pp },
      .broadcast (.prepare (s.node.prepareOf P pp)) :: rest)
  | .prepare pre =>
    let n := s.node.storePrepare pre
    if n.Prepares pre.pbftID then
      ({ s with node := (n.enterPrepared pre).locked },
        .broadcast (.commit (n.commitOf P pre)) :: .unlock :: rest)
    else ({ s with node := n }, rest)
  | .commit c =>
    let n := s.node.storeCommit c
    if n.Commits c.pbftID then
      let n := n.enterCommitted c.pbftID
      if n.totalPeers = 0 then ({ s with node := n.locked }, abandon rest)
      else ({ s with node := n.appendBlock P (n.committedBlock P c) }, rest)
    else ({ s with node := n }, rest)
  | .checkpoint cp => ({ s with node := s.node.storeCheckpoint cp }, rest)
  | .pbftTLC tlc =>
    ({ s with node := { s.node with pbft := s.node.received tlc } }, .getStep :: rest)

/-- One call of `GetPbftBlockAndAdvance`, and what `PbftTLCProcess` does with its result. The
broadcast of the TLC is left to a goroutine. -/
def advance (rest : List CallOp) (step : ℕ) (catchUp : Bool) : Replica × List CallOp :=
  match s.node.pbft.getPbftBlockAndAdvance step with
  | none => (s, rest)
  | some (block, pbft) =>
    ({ s with
      node := { s.node with pbft := pbft }.addTLCBlock P block
      calls := s.calls ++ if catchUp then [] else [[.broadcast (.pbftTLC ⟨step, block⟩)]] },
      .advance (step + 1) true :: rest)

/-- The next step of a call, and what it does after that. It is `none` while the call waits. -/
def next (rest : List CallOp) : CallOp → Option (Replica × List CallOp)
  | .handle m =>
    if m.srcAddr = some s.node.myAddr then some (s, rest)
    else if m.fails P then some (s, abandon rest)
    else some (s, .enter m :: rest)
  | .enter m => if s.node.pbft.lock then none else some (s.enter P rest m)
  | .getStep =>
    if s.node.pbft.lock then none else some (s, .advance s.node.pbft.pbftID false :: rest)
  | .advance step catchUp =>
    if s.node.pbft.lock then none else some (s.advance P rest step catchUp)
  | .turnBad =>
    if s.node.pbft.lock then none else some ({ s with node := s.node.turnedBad }, rest)
  | .verify call => some (s, if s.node.tagDone call then rest else .propose call :: rest)
  | .propose call =>
    if s.node.pbft.lock then none
    else
      let r := s.node.tagSection P call
      some ({ s with node := r.node.locked },
        r.sent.map .broadcast ++ .unlock :: .verify { call with flag := true } :: rest)
  | .unlock => some ({ s with node := s.node.unlocked }, rest)
  | .broadcast m =>
    if s.tree then none
    else some ({ s with tree := true, sent := s.sent ++ [m] }, .handle m :: .unlockTree :: rest)
  | .useTree again =>
    if s.tree then none
    else some ({ s with tree := true },
      CallOp.inside again ++ .unlockTree :: rest)
  | .keepTree => if s.tree then none else some ({ s with tree := true }, rest ++ [.unlockTree])
  | .unlockTree => some ({ s with tree := false }, rest)
  | .lockAgain => none

/-- A Tag call outside of the body of its loop. -/
def isVerify : CallOp → Bool
  | .verify _ => true
  | _ => false

def go (i : ℕ) (kind : CallOp → Bool) : Option Replica :=
  match s.calls[i]? with
  | some (op :: rest) =>
    if kind op then
      (s.next P rest op).map fun (t, ops) => { t with calls := t.calls.set i ops }
    else none
  | _ => none

def drop (i : ℕ) : Option Replica :=
  match s.calls[i]? with
  | some (.broadcast m :: rest) =>
    if s.tree then none else some { s with calls := s.calls.set i rest, sent := s.sent ++ [m] }
  | _ => none

def tag (name mh : String) : Replica :=
  let p := Peer.tag ⟨s.node, [], [], [], []⟩ name mh
  { s with node := p.node, calls := s.calls ++ p.calls.map fun call => [.verify call] }

def step : ReplicaEvent → Option Replica
  | .receive packet =>
    match s.calls with
    | [] :: calls => some { s with calls := packet.map Delivery.op :: calls }
    | _ => none
  | .tag name mh => some (s.tag name mh)
  | .turnBad => some { s with calls := s.calls ++ [[.turnBad]] }
  | .useTree again => some { s with calls := s.calls ++ [[.useTree again]] }
  | .wake i => s.go P i isVerify
  | .step i => s.go P i fun op => !isVerify op
  | .drop i => s.drop i

end Replica

def newReplica (conf : PeerConfig) : Replica := { node := (newPeer P conf).node }

/-- The message makes its handler return with `pbft.lock` locked. -/
def Node.Keeps (n : Node) : Message → Prop
  | .prePrepare pp => n.Conflicts pp
  | .commit c => (n.storeCommit c).Commits c.pbftID ∧ n.totalPeers = 0
  | .prepare _ | .checkpoint _ | .pbftTLC _ => False

/-- The message makes its handler broadcast while it has `pbft.lock`. -/
def Node.Announces (n : Node) : Message → Prop
  | .prepare pre => (n.storePrepare pre).Prepares pre.pbftID
  | .prePrepare _ | .commit _ | .checkpoint _ | .pbftTLC _ => False

instance (n : Node) : (m : Message) → Decidable (n.Keeps m)
  | .prePrepare pp => inferInstanceAs (Decidable (n.Conflicts pp))
  | .commit _ => inferInstanceAs (Decidable (_ ∧ _))
  | .prepare _ | .checkpoint _ | .pbftTLC _ => isFalse id

instance (n : Node) : (m : Message) → Decidable (n.Announces m)
  | .prepare _ => inferInstanceAs (Decidable (Node.Prepares _ _))
  | .prePrepare _ | .commit _ | .checkpoint _ | .pbftTLC _ => isFalse id

/-- The records of the handlers of signed messages are left out. -/
structure Node.SameCounter (n m : Node) : Prop where
  myAddr : m.myAddr = n.myAddr
  addr : m.pbft.addr = n.pbft.addr
  totalPeers : m.totalPeers = n.totalPeers
  pbftID : m.pbft.pbftID = n.pbft.pbftID
  tlcs : m.pbft.tlcs = n.pbft.tlcs
  consensus : m.pbft.consensus = n.pbft.consensus

namespace Replica

inductive Moves (s : Replica) (rest : List CallOp) : CallOp → Replica → List CallOp → Prop
  | ignored {m : Message} (own : m.srcAddr = some s.node.myAddr) :
      Moves s rest (.handle m) s rest
  | failed {m : Message} (other : m.srcAddr ≠ some s.node.myAddr) (fails : m.fails P = true) :
      Moves s rest (.handle m) s (abandon rest)
  | passed {m : Message} (other : m.srcAddr ≠ some s.node.myAddr) (passes : m.fails P = false) :
      Moves s rest (.handle m) s (.enter m :: rest)
  | kept {m : Message} {n : Node} (free : s.node.pbft.lock = false) (keeps : s.node.Keeps m)
      (same : s.node.SameCounter n) (locked : n.pbft.lock = true) :
      Moves s rest (.enter m) { s with node := n } (abandon rest)
  | entered {m : Message} {n : Node} (free : s.node.pbft.lock = false) (calm : ¬ s.node.Keeps m)
      (alone : ¬ s.node.Announces m) (signed : ∀ tlc, m ≠ .pbftTLC tlc)
      (silent : ∀ pp, m ≠ .prePrepare pp) (same : s.node.SameCounter n)
      (unlocked : n.pbft.lock = false) : Moves s rest (.enter m) { s with node := n } rest
  | answered {pp : PrePrepareMessage} (free : s.node.pbft.lock = false)
      (fresh : ¬ s.node.Conflicts pp) :
      Moves s rest (.enter (.prePrepare pp)) { s with node := s.node.storePrePrepare pp }
        (.broadcast (.prepare (s.node.prepareOf P pp)) :: rest)
  | completed {pre : PrepareMessage} (free : s.node.pbft.lock = false)
      (enough : (s.node.storePrepare pre).Prepares pre.pbftID) :
      Moves s rest (.enter (.prepare pre))
        { s with node := ((s.node.storePrepare pre).enterPrepared pre).locked }
        (.broadcast (.commit ((s.node.storePrepare pre).commitOf P pre)) :: .unlock :: rest)
  | received {tlc : PbftTLCMessage} (free : s.node.pbft.lock = false) :
      Moves s rest (.enter (.pbftTLC tlc))
        { s with node := { s.node with pbft := s.node.received tlc } } (.getStep :: rest)
  | getStep (free : s.node.pbft.lock = false) :
      Moves s rest .getStep s (.advance s.node.pbft.pbftID false :: rest)
  | stopped {step : ℕ} {catchUp : Bool} (free : s.node.pbft.lock = false)
      (stays : s.node.pbft.getPbftBlockAndAdvance step = none) :
      Moves s rest (.advance step catchUp) s rest
  | advanced {step : ℕ} {catchUp : Bool} {block : PbftchainBlock} {pbft : SafePbft}
      (free : s.node.pbft.lock = false)
      (goes : s.node.pbft.getPbftBlockAndAdvance step = some (block, pbft)) :
      Moves s rest (.advance step catchUp)
        { s with
          node := { s.node with pbft := pbft }.addTLCBlock P block
          calls := s.calls ++ if catchUp then [] else [[.broadcast (.pbftTLC ⟨step, block⟩)]] }
        (.advance (step + 1) true :: rest)
  | turnBad (free : s.node.pbft.lock = false) :
      Moves s rest .turnBad { s with node := s.node.turnedBad } rest
  | returned {call : TagCall} : Moves s rest (.verify call) s rest
  | verified {call : TagCall} : Moves s rest (.verify call) s (.propose call :: rest)
  | proposed {call : TagCall} (free : s.node.pbft.lock = false) :
      Moves s rest (.propose call) { s with node := (s.node.tagSection P call).node.locked }
        ((s.node.tagSection P call).sent.map .broadcast ++
          .unlock :: .verify { call with flag := true } :: rest)
  | unlock : Moves s rest .unlock { s with node := s.node.unlocked } rest
  | broadcast {m : Message} (free : s.tree = false) :
      Moves s rest (.broadcast m) { s with tree := true, sent := s.sent ++ [m] }
        (.handle m :: .unlockTree :: rest)
  | useTree {again : Bool} (free : s.tree = false) :
      Moves s rest (.useTree again) { s with tree := true }
        (CallOp.inside again ++ .unlockTree :: rest)
  | keepTree (free : s.tree = false) :
      Moves s rest .keepTree { s with tree := true } (rest ++ [.unlockTree])
  | unlockTree : Moves s rest .unlockTree { s with tree := false } rest

variable {P} {s t : Replica} {op : CallOp} {rest ops : List CallOp}

theorem moves_enter (free : s.node.pbft.lock = false) (m : Message) :
    s.Moves P rest (.enter m) (s.enter P rest m).1 (s.enter P rest m).2 := by
  cases m with
  | prePrepare pp =>
    unfold enter
    dsimp only
    split_ifs with hconf
    · exact .kept free hconf (by constructor <;> rfl) rfl
    · exact .answered free hconf
  | prepare pre =>
    unfold enter
    dsimp only
    split_ifs with henough
    · exact .completed free henough
    · exact .entered free id henough nofun nofun (by constructor <;> rfl) free
  | commit c =>
    unfold enter
    dsimp only
    split_ifs with henough hnone
    · exact .kept free ⟨henough, hnone⟩ (by constructor <;> rfl) rfl
    · exact .entered free (fun h => hnone h.2) id nofun nofun (by constructor <;> rfl) free
    · exact .entered free (fun h => henough h.1) id nofun nofun (by constructor <;> rfl) free
  | checkpoint cp => exact .entered free id id nofun nofun (by constructor <;> rfl) free
  | pbftTLC tlc => exact .received free

theorem moves_of_next (h : s.next P rest op = some (t, ops)) : s.Moves P rest op t ops := by
  cases op with
  | handle m =>
    simp only [next] at h
    split_ifs at h with hown hfails
    · obtain ⟨rfl, rfl⟩ := Prod.mk.inj (Option.some.inj h)
      exact .ignored hown
    · obtain ⟨rfl, rfl⟩ := Prod.mk.inj (Option.some.inj h)
      exact .failed hown hfails
    · obtain ⟨rfl, rfl⟩ := Prod.mk.inj (Option.some.inj h)
      exact .passed hown (Bool.eq_false_of_not_eq_true hfails)
  | enter m =>
    simp only [next] at h
    split_ifs at h with hlock
    have hmoves : s.Moves P rest (.enter m) (s.enter P rest m).1 (s.enter P rest m).2 :=
      moves_enter (Bool.eq_false_of_not_eq_true hlock) m
    rwa [Option.some.inj h] at hmoves
  | getStep =>
    simp only [next] at h
    split_ifs at h with hlock
    obtain ⟨rfl, rfl⟩ := Prod.mk.inj (Option.some.inj h)
    exact .getStep (Bool.eq_false_of_not_eq_true hlock)
  | advance step catchUp =>
    simp only [next] at h
    split_ifs at h with hlock
    have hlock := Bool.eq_false_of_not_eq_true hlock
    unfold advance at h
    split at h
    · obtain ⟨rfl, rfl⟩ := Prod.mk.inj (Option.some.inj h)
      exact .stopped hlock ‹_›
    · obtain ⟨rfl, rfl⟩ := Prod.mk.inj (Option.some.inj h)
      exact .advanced hlock ‹_›
  | turnBad =>
    simp only [next] at h
    split_ifs at h with hlock
    obtain ⟨rfl, rfl⟩ := Prod.mk.inj (Option.some.inj h)
    exact .turnBad (Bool.eq_false_of_not_eq_true hlock)
  | verify call =>
    obtain ⟨rfl, rfl⟩ := Prod.mk.inj (Option.some.inj h)
    split_ifs
    · exact .returned
    · exact .verified
  | propose call =>
    simp only [next] at h
    split_ifs at h with hlock
    obtain ⟨rfl, rfl⟩ := Prod.mk.inj (Option.some.inj h)
    exact .proposed (Bool.eq_false_of_not_eq_true hlock)
  | unlock =>
    obtain ⟨rfl, rfl⟩ := Prod.mk.inj (Option.some.inj h)
    exact .unlock
  | broadcast m =>
    simp only [next] at h
    split_ifs at h with htree
    obtain ⟨rfl, rfl⟩ := Prod.mk.inj (Option.some.inj h)
    exact .broadcast (Bool.eq_false_of_not_eq_true htree)
  | useTree again =>
    simp only [next] at h
    split_ifs at h with htree
    obtain ⟨rfl, rfl⟩ := Prod.mk.inj (Option.some.inj h)
    exact .useTree (Bool.eq_false_of_not_eq_true htree)
  | keepTree =>
    simp only [next] at h
    split_ifs at h with htree
    obtain ⟨rfl, rfl⟩ := Prod.mk.inj (Option.some.inj h)
    exact .keepTree (Bool.eq_false_of_not_eq_true htree)
  | unlockTree =>
    obtain ⟨rfl, rfl⟩ := Prod.mk.inj (Option.some.inj h)
    exact .unlockTree
  | lockAgain => cases h

variable (P) in
inductive Effect (s : Replica) : ReplicaEvent → Replica → Prop
  | receive {packet : List Delivery} {calls : List (List CallOp)} (idle : s.calls = [] :: calls) :
      Effect s (.receive packet) { s with calls := packet.map Delivery.op :: calls }
  | tag {name mh : String} {n : Node} {started : List TagCall} (same : n.pbft = s.node.pbft)
      (config : n.myAddr = s.node.myAddr ∧ n.totalPeers = s.node.totalPeers) :
      Effect s (.tag name mh) { s with
        node := n, calls := s.calls ++ started.map fun call => [.verify call] }
  | turnBad : Effect s .turnBad { s with calls := s.calls ++ [[.turnBad]] }
  | useTree {again : Bool} :
      Effect s (.useTree again) { s with calls := s.calls ++ [[.useTree again]] }
  | wake {i : ℕ} {op : CallOp} {rest ops : List CallOp} {t : Replica}
      (call : s.calls[i]? = some (op :: rest)) (kind : isVerify op = true)
      (moves : s.Moves P rest op t ops) : Effect s (.wake i) { t with calls := t.calls.set i ops }
  | step {i : ℕ} {op : CallOp} {rest ops : List CallOp} {t : Replica}
      (call : s.calls[i]? = some (op :: rest)) (kind : isVerify op = false)
      (moves : s.Moves P rest op t ops) : Effect s (.step i) { t with calls := t.calls.set i ops }
  | drop {i : ℕ} {m : Message} {rest : List CallOp}
      (call : s.calls[i]? = some (.broadcast m :: rest)) (free : s.tree = false) :
      Effect s (.drop i) { s with calls := s.calls.set i rest, sent := s.sent ++ [m] }

theorem go_eq_some {i : ℕ} {kind : CallOp → Bool} (h : s.go P i kind = some t) :
    ∃ op rest u ops, s.calls[i]? = some (op :: rest) ∧ kind op = true ∧
      s.Moves P rest op u ops ∧ t = { u with calls := u.calls.set i ops } := by
  unfold go at h
  split at h
  · rename_i op rest hcall
    split_ifs at h with hkind
    obtain ⟨⟨u, ops⟩, hnext, rfl⟩ := Option.map_eq_some_iff.mp h
    exact ⟨op, rest, u, ops, hcall, hkind, moves_of_next hnext, rfl⟩
  · cases h

theorem step_effect {e : ReplicaEvent} (h : s.step P e = some t) : s.Effect P e t := by
  cases e with
  | receive packet =>
    simp only [step] at h
    split at h
    · obtain rfl := Option.some.inj h
      exact .receive ‹_›
    · cases h
  | tag name mh =>
    obtain rfl := Option.some.inj h
    refine .tag (Peer.tag_pbft _ name mh) ?_
    unfold Peer.tag
    split_ifs <;> exact ⟨rfl, rfl⟩
  | turnBad =>
    obtain rfl := Option.some.inj h
    exact .turnBad
  | useTree again =>
    obtain rfl := Option.some.inj h
    exact .useTree
  | wake i =>
    obtain ⟨op, rest, u, ops, hcall, hkind, hmoves, rfl⟩ := go_eq_some h
    exact .wake hcall hkind hmoves
  | step i =>
    obtain ⟨op, rest, u, ops, hcall, hkind, hmoves, rfl⟩ := go_eq_some h
    exact .step hcall (Bool.not_eq_true' _ ▸ hkind) hmoves
  | drop i =>
    simp only [step, drop] at h
    split at h
    · split_ifs at h with htree
      obtain rfl := Option.some.inj h
      exact .drop ‹_› (Bool.eq_false_of_not_eq_true htree)
    · cases h

end Replica

end JobPortal

import JobPortal.Numbers
import JobPortal.PbftNode
import JobPortal.RumorTable

/-! The handlers of packets, with the mutexes of the trees they lock. A rumor's tree stays locked
until the call that handles its packet returns, and to lock it again is to wait for that call. -/
namespace JobPortal.Gossip

inductive Message (A : Type)
  | rumors (rumors : List (Rumor (Message A)))
  | privateMessage (recipients : List String) (msg : Option (Message A))
  | prune (msgHash : String)
  | iHave (msgHash : String)
  | graft (msgHash : String)
  /-- A message whose handler locks trees by the messages it broadcasts only. -/
  | other (m : A)

variable {A S : Type}

/-- What the handler of another message does: the state it leaves, what it broadcasts before it
comes back, and how it ends. -/
structure Reply (A S : Type) where
  app : S
  broadcasts : List A
  outcome : Outcome

/-- A node, with the handlers of the other messages. They are told the source of the packet. -/
structure Host (A S : Type) where
  myAddr : String
  /-- The capacity the node's lists have to spare. -/
  spare : SafeRumorTable (Message A) → String → ℕ
  exec : String → S → A → Reply A S

structure GossipState (A S : Type) where
  rumorTable : SafeRumorTable (Message A)
  app : S

def treeOf (msgHash : String) : String := (msgHash.splitOn ";").headD ""

/-- Whether a Graft gets an answer: the handler panics on a hash without a number and on a rumor
that is out of reach. -/
def Host.answersGraft (C : Host A S) (st : GossipState A S) (msgHash : String) : Bool :=
  match msgHash.splitOn ";" with
  | source :: seq :: _ =>
    (execGraftMessage st.rumorTable (C.spare st.rumorTable) source (atoi seq)).isSome
  | _ => false

/-- The call goes on with the tree locked, unless it has locked it before. -/
def lockTree (locked : List String) (tree : String) : Option (List String) :=
  if tree ∈ locked then none else some (tree :: locked)

namespace Host

variable (C : Host A S)

/-- A broadcast processes its message with the node's own tree locked. A broadcast from in there
would need that tree again. -/
def broadcast (st : GossipState A S) (locked : List String) (b : A) :
    Option (GossipState A S × List String) :=
  let t := (st.rumorTable.newRumorsMessage C.myAddr (.other b)).1
  let r := C.exec C.myAddr st.app b
  (lockTree locked C.myAddr).bind fun locked =>
    if r.outcome = .blocked ∨ ¬ r.broadcasts.isEmpty then none
    else some (⟨t, r.app⟩, locked.erase C.myAddr)

def broadcastAll : List A → GossipState A S → List String → Option (GossipState A S × List String)
  | [], st, locked => some (st, locked)
  | b :: bs, st, locked =>
    (C.broadcast st locked b).bind fun (st, locked) => broadcastAll bs st locked

mutual

/-- The handler of a message in a packet from `source`, called with the trees `locked` locked:
the state it leaves, the trees locked then, and whether it returns without an error. It is
`none` for a call that never returns. -/
def processPacket (source : String) : Message A → GossipState A S → List String →
    Option (GossipState A S × List String × Bool)
  | .rumors rumors, st, locked =>
    (execRumors source rumors st locked []).map fun (st, locked, deferred, ok) =>
      (st, deferred.foldl List.erase locked, ok)
  | .privateMessage recipients none, st, locked =>
    some (st, locked, decide (C.myAddr ∉ recipients))
  | .privateMessage recipients (some m), st, locked =>
    if C.myAddr ∈ recipients then processPacket source m st locked else some (st, locked, true)
  | .prune msgHash, st, locked | .iHave msgHash, st, locked =>
    (lockTree locked (treeOf msgHash)).map fun locked =>
      (st, locked.erase (treeOf msgHash), true)
  | .graft msgHash, st, locked =>
    (lockTree locked (treeOf msgHash)).map fun locked =>
      (st, locked.erase (treeOf msgHash), C.answersGraft st msgHash)
  | .other m, st, locked =>
    let r := C.exec source st.app m
    if r.outcome = .blocked then none
    else (C.broadcastAll r.broadcasts { st with app := r.app } locked).map fun (st, locked) =>
      (st, locked, decide (r.outcome = .returned))

/-- The loop over the rumors of a packet. `deferred` are the trees to unlock on return, the last
one locked first. -/
def execRumors (source : String) : List (Rumor (Message A)) → GossipState A S → List String →
    List String → Option (GossipState A S × List String × List String × Bool)
  | [], st, locked, deferred => some (st, locked, deferred, true)
  | ⟨origin, sequence, msg⟩ :: rs, st, locked, deferred =>
    let (t, v) := st.rumorTable.tryToAcceptOrigin ⟨origin, sequence, msg⟩
    let st := { st with rumorTable := t }
    match v with
    | .future => execRumors source rs st locked deferred
    | .prune =>
      (lockTree locked origin).bind fun locked =>
        execRumors source rs st locked (origin :: deferred)
    | .process =>
      match msg with
      -- a packet without a message makes the handler panic
      | none => some (st, locked, deferred, false)
      | some m =>
        (processPacket source m st locked).bind fun (st, locked, ok) =>
          if ok then
            (lockTree locked origin).bind fun locked =>
              execRumors source rs st locked (origin :: deferred)
          else some (st, locked, deferred, false)

end

def execRumorMessage (source : String) (rumors : List (Rumor (Message A))) :
    GossipState A S → List String → Option (GossipState A S × List String × Bool) :=
  C.processPacket source (.rumors rumors)

end Host

end JobPortal.Gossip

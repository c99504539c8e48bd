import JobPortal.PbftCalls

/-! Which mutexes the calls of a PBFT node have, and which they wait for before they give them
back. -/
namespace JobPortal

open Goroutines Runs

inductive Mutex
  | lock
  | tree
  /-- The tree of any origin, which the call has itself. -/
  | held
  deriving DecidableEq, Repr

variable (P : Primitives)

/-- What a call waits for next, up to where it gives the tree back or starts another pass. -/
def asks (addr : String) : List CallOp → Option Mutex
  | [] => none
  | .handle m :: rest =>
    if m.srcAddr = some addr then asks addr rest
    else if m.fails P then none
    else some .lock
  | .unlock :: rest => asks addr rest
  | .unlockTree :: _ | .verify _ :: _ => none
  | .enter _ :: _ | .getStep :: _ | .advance .. :: _ | .turnBad :: _ | .propose _ :: _ => some .lock
  | .broadcast _ :: _ | .useTree _ :: _ | .keepTree :: _ => some .tree
  | .lockAgain :: _ => some .held

/-- A call broadcasts before it gives `pbft.lock` back. -/
def sends : List CallOp → Bool
  | [] => false
  | .broadcast _ :: rest => rest.contains .unlock || sends rest
  | _ :: rest => sends rest

/-- The steps of a call outside of a section that spans broadcasts. -/
def CallOp.plain : CallOp → Bool
  | .unlock | .verify _ | .propose _ => false
  | _ => true

def CallOp.tagging : CallOp → Bool
  | .verify _ | .propose _ => true
  | _ => false

/-- What a call may have left. While it has `pbft.lock` it handles messages of the node's own. -/
inductive Shape (addr : String) : List CallOp → Prop
  | plain {ops : List CallOp} (all : ∀ op ∈ ops, op.plain = true) : Shape addr ops
  | verify (call : TagCall) : Shape addr [.verify call]
  | propose (call : TagCall) : Shape addr [.propose call]
  | unlock {rest : List CallOp} (all : ∀ op ∈ rest, op.plain = true) : Shape addr (.unlock :: rest)
  | next (call : TagCall) : Shape addr [.unlock, .verify call]
  | broadcast {m : Message} {rest : List CallOp} (own : m.srcAddr = some addr)
      (shape : Shape addr rest) : Shape addr (.broadcast m :: rest)
  | handle {m : Message} {rest : List CallOp} (own : m.srcAddr = some addr)
      (shape : Shape addr rest) : Shape addr (.handle m :: rest)
  | unlockTree {rest : List CallOp} (shape : Shape addr rest) : Shape addr (.unlockTree :: rest)

section Lists

variable {P} {addr : String} {op : CallOp} {rest ops : List CallOp}

theorem plain_abandon (rest : List CallOp) :
    ∀ op ∈ Replica.abandon rest, op.plain = true := by
  intro op hop
  rw [of_decide_eq_true (List.mem_filter.mp hop).2]
  rfl

theorem count_unlock_of_plain (h : ∀ op ∈ ops, op.plain = true) : ops.count .unlock = 0 := by
  rw [List.count_eq_zero]
  intro hmem
  exact absurd (h _ hmem) nofun

@[simp] theorem count_unlock_abandon (rest : List CallOp) :
    (Replica.abandon rest).count .unlock = 0 := count_unlock_of_plain (plain_abandon rest)

@[simp] theorem count_unlockTree_abandon (rest : List CallOp) :
    (Replica.abandon rest).count .unlockTree = rest.count .unlockTree := by
  rw [Replica.abandon, List.count_filter (by simp)]

theorem asks_abandon (rest : List CallOp) : asks P addr (Replica.abandon rest) = none := by
  cases h : Replica.abandon rest with
  | nil => rfl
  | cons op ops =>
    have hop : op ∈ Replica.abandon rest := h ▸ List.mem_cons_self
    rw [of_decide_eq_true (List.mem_filter.mp hop).2]
    rfl

theorem asks_append_unlockTree (ops : List CallOp) :
    asks P addr (ops ++ [.unlockTree]) = asks P addr ops := by
  induction ops with
  | nil => rfl
  | cons op ops ih =>
    cases op with
    | handle m => simp only [List.cons_append, asks, ih]
    | unlock => exact ih
    | _ => rfl

theorem sends_of_plain (h : ops.count .unlock = 0) : sends ops = false := by
  induction ops with
  | nil => rfl
  | cons op ops ih =>
    have hops : ops.count .unlock = 0 := by
      rw [List.count_cons] at h
      omega
    cases op with
    | broadcast m =>
      have hmem : .unlock ∉ ops := List.count_eq_zero.mp hops
      simp [sends, ih hops, hmem]
    | _ => exact ih hops

/-- The rest of a call that is in no section. -/
theorem Shape.plain_rest (h : Shape addr (op :: rest)) (hplain : op.plain = true)
    (hbroadcast : ∀ m, op ≠ .broadcast m) (hhandle : ∀ m, op = .handle m → m.srcAddr ≠ some addr)
    (htree : op ≠ .unlockTree) : ∀ op ∈ rest, op.plain = true := by
  cases h with
  | plain all => exact fun op hop => all op (List.mem_cons_of_mem _ hop)
  | verify call => cases hplain
  | propose call => cases hplain
  | unlock all => cases hplain
  | next call => cases hplain
  | broadcast => exact absurd rfl (hbroadcast _)
  | handle own => exact absurd own (hhandle _ rfl)
  | unlockTree => exact absurd rfl htree

theorem Shape.plain_keepTree (h : Shape addr (.keepTree :: rest)) :
    ∀ op ∈ rest ++ [.unlockTree], op.plain = true := by
  intro op hop
  rcases List.mem_append.mp hop with hop | hop
  · exact h.plain_rest rfl nofun nofun nofun op hop
  · rw [List.mem_singleton.mp hop]
    rfl

theorem Shape.sends_keepTree (h : Shape addr (.keepTree :: rest)) :
    sends (.keepTree :: rest) = false := by
  have hcount := count_unlock_of_plain h.plain_keepTree
  rw [List.count_append] at hcount
  exact sends_of_plain (Nat.eq_zero_of_add_eq_zero_right hcount)

theorem Shape.rest_of_handle {m : Message} (h : Shape addr (.handle m :: rest)) :
    Shape addr rest := by
  cases h with
  | plain all => exact .plain fun op hop => all op (List.mem_cons_of_mem _ hop)
  | handle own shape => exact shape

theorem Shape.rest_of_unlockTree (h : Shape addr (.unlockTree :: rest)) : Shape addr rest := by
  cases h with
  | plain all => exact .plain fun op hop => all op (List.mem_cons_of_mem _ hop)
  | unlockTree shape => exact shape

theorem Shape.rest_of_broadcast {m : Message} (h : Shape addr (.broadcast m :: rest)) :
    Shape addr rest := by
  cases h with
  | plain all => exact .plain fun op hop => all op (List.mem_cons_of_mem _ hop)
  | broadcast own shape => exact shape

theorem Shape.of_broadcast {m : Message} (h : Shape addr (.broadcast m :: rest)) :
    Shape addr (.handle m :: .unlockTree :: rest) := by
  cases h with
  | plain all =>
    refine .plain fun op hop => ?_
    rcases List.mem_cons.mp hop with rfl | hop
    · rfl
    · rcases List.mem_cons.mp hop with rfl | hop
      · rfl
      · exact all op (List.mem_cons_of_mem _ hop)
  | broadcast own shape => exact .handle own (.unlockTree shape)

theorem Shape.rest_of_unlock (h : Shape addr (.unlock :: rest)) :
    (∀ op ∈ rest, op.plain = true) ∨ ∃ call, rest = [.verify call] := by
  cases h with
  | plain all => cases all _ List.mem_cons_self
  | unlock all => exact .inl all
  | next call => exact .inr ⟨call, rfl⟩

theorem Shape.rest_of_verify {call : TagCall} (h : Shape addr (.verify call :: rest)) :
    rest = [] := by
  cases h with
  | plain all => cases all _ List.mem_cons_self
  | verify => rfl

theorem Shape.rest_of_propose {call : TagCall} (h : Shape addr (.propose call :: rest)) :
    rest = [] := by
  cases h with
  | plain all => cases all _ List.mem_cons_self
  | propose => rfl

end Lists

namespace Node

variable {P} {n : Node}

theorem tagSection_frame (call : TagCall) :
    (n.tagSection P call).node.myAddr = n.myAddr ∧
      (n.tagSection P call).node.pbft.addr = n.pbft.addr := by
  unfold tagSection
  split_ifs <;> unfold tagStored tagAssigned <;> split_ifs <;> exact ⟨rfl, rfl⟩

theorem tagSection_sent_own (call : TagCall) :
    ∀ m ∈ (n.tagSection P call).sent, m.srcAddr = some n.myAddr := by
  unfold tagSection
  split_ifs <;> simp [Message.srcAddr, tagPrePrepare, tagCheckpoint]

theorem received_frame (tlc : PbftTLCMessage) :
    (n.received tlc).addr = n.pbft.addr ∧ (n.received tlc).lock = n.pbft.lock :=
  have h := SafePbft.receivePbftTLC_sameLogs n.pbft tlc (n.paxosThreshold n.totalPeers)
  ⟨h.addr, h.lock⟩

end Node

namespace Replica

variable {P} {s t : Replica} {op : CallOp} {rest ops : List CallOp}

/-- A step of a call leaves the other calls alone, and may start broadcasts of TLC messages. -/
theorem Moves.frame (h : s.Moves P rest op t ops) :
    t.node.myAddr = s.node.myAddr ∧ t.node.pbft.addr = s.node.pbft.addr ∧
      ∃ new, t.calls = s.calls ++ new ∧ ∀ ops ∈ new, ∃ tlc, ops = [.broadcast (.pbftTLC tlc)] := by
  have same (hcalls : t.calls = s.calls) :
      ∃ new, t.calls = s.calls ++ new ∧ ∀ ops ∈ new, ∃ tlc, ops = [.broadcast (.pbftTLC tlc)] :=
    ⟨[], by simp [hcalls], by simp⟩
  cases h with
  | kept free keeps sameCounter => exact ⟨sameCounter.myAddr, sameCounter.addr, same rfl⟩
  | entered free calm alone signed silent sameCounter =>
    exact ⟨sameCounter.myAddr, sameCounter.addr, same rfl⟩
  | received free => exact ⟨rfl, (Node.received_frame _).1, same rfl⟩
  | proposed free =>
    obtain ⟨hmy, haddr⟩ := Node.tagSection_frame (P := P) (n := s.node) _
    exact ⟨hmy, haddr, same rfl⟩
  | @advanced step catchUp block pbft free goes =>
    refine ⟨rfl, (SafePbft.getPbftBlockAndAdvance_sameLogs goes).addr, _, rfl, ?_⟩
    cases catchUp <;> simp
  | _ => exact ⟨rfl, rfl, same rfl⟩

theorem Moves.tlcs (h : s.Moves P rest op t ops) (hs : s.node.pbft.TlcsSound) :
    t.node.pbft.TlcsSound := by
  cases h with
  | kept free keeps same => exact hs.congr same.tlcs same.consensus
  | entered free calm alone signed silent same => exact hs.congr same.tlcs same.consensus
  | received free => exact hs.receive _ _
  | advanced free goes =>
    obtain ⟨_, _, rfl⟩ := SafePbft.getPbftBlockAndAdvance_eq_some goes
    exact hs.congr rfl rfl
  | proposed free =>
    obtain ⟨htlcs, hcons⟩ := s.node.tagSection_tlcs P _
    exact hs.congr htlcs hcons
  | _ => exact hs.congr rfl rfl

theorem Moves.tagging (h : s.Moves P rest op t ops)
    (hold : ∀ a ∈ op :: rest, a.tagging = false) : ∀ a ∈ ops, a.tagging = false := by
  have hrest := (List.forall_mem_cons.mp hold).2
  have habandon : ∀ a ∈ abandon rest, a.tagging = false :=
    fun a ha => hrest a (List.mem_of_mem_filter ha)
  cases h with
  | failed => exact habandon
  | kept => exact habandon
  | ignored => exact hrest
  | entered => exact hrest
  | stopped => exact hrest
  | turnBad => exact hrest
  | unlock => exact hrest
  | unlockTree => exact hrest
  | returned => exact hrest
  | passed => exact List.forall_mem_cons.mpr ⟨rfl, hrest⟩
  | answered => exact List.forall_mem_cons.mpr ⟨rfl, hrest⟩
  | received => exact List.forall_mem_cons.mpr ⟨rfl, hrest⟩
  | getStep => exact List.forall_mem_cons.mpr ⟨rfl, hrest⟩
  | advanced => exact List.forall_mem_cons.mpr ⟨rfl, hrest⟩
  | completed =>
    exact List.forall_mem_cons.mpr ⟨rfl, List.forall_mem_cons.mpr ⟨rfl, hrest⟩⟩
  | broadcast => exact List.forall_mem_cons.mpr ⟨rfl, List.forall_mem_cons.mpr ⟨rfl, hrest⟩⟩
  | @useTree again =>
    cases again with
    | false => exact List.forall_mem_cons.mpr ⟨rfl, hrest⟩
    | true => exact List.forall_mem_cons.mpr ⟨rfl, List.forall_mem_cons.mpr ⟨rfl, hrest⟩⟩
  | keepTree =>
    intro op hop
    rcases List.mem_append.mp hop with hop | hop
    · exact hrest op hop
    · rw [List.mem_singleton.mp hop]
      rfl
  | verified => cases hold _ List.mem_cons_self
  | proposed => cases hold _ List.mem_cons_self

theorem Moves.shape (h : s.Moves P rest op t ops) (haddr : s.node.pbft.addr = s.node.myAddr)
    (hshape : Shape s.node.myAddr (op :: rest)) : Shape s.node.myAddr ops := by
  -- the rest of a call that is in no section
  have hplain : op.plain = true → (∀ m, op ≠ .broadcast m) →
      (∀ m, op = .handle m → m.srcAddr ≠ some s.node.myAddr) → op ≠ .unlockTree →
      ∀ op ∈ rest, op.plain = true := hshape.plain_rest
  have cons {op : CallOp} {rest : List CallOp} (hop : op.plain = true)
      (hrest : ∀ op ∈ rest, op.plain = true) : Shape s.node.myAddr (op :: rest) :=
    .plain (List.forall_mem_cons.mpr ⟨hop, hrest⟩)
  cases h with
  | ignored own => exact hshape.rest_of_handle
  | failed other fails => exact .plain (plain_abandon rest)
  | passed other passes =>
    have hrest := hplain rfl nofun
      (fun m hm => by obtain rfl := CallOp.handle.inj hm; exact other) nofun
    exact cons rfl hrest
  | kept => exact .plain (plain_abandon rest)
  | entered => exact .plain (hplain rfl nofun nofun nofun)
  | answered => exact cons rfl (hplain rfl nofun nofun nofun)
  | completed free enough =>
    exact .broadcast (congrArg some haddr) (.unlock (hplain rfl nofun nofun nofun))
  | received => exact cons rfl (hplain rfl nofun nofun nofun)
  | getStep => exact cons rfl (hplain rfl nofun nofun nofun)
  | stopped => exact .plain (hplain rfl nofun nofun nofun)
  | advanced => exact cons rfl (hplain rfl nofun nofun nofun)
  | turnBad => exact .plain (hplain rfl nofun nofun nofun)
  | returned =>
    rw [hshape.rest_of_verify]
    exact .plain nofun
  | verified =>
    rw [hshape.rest_of_verify]
    exact .propose _
  | @proposed call free =>
    rw [hshape.rest_of_propose]
    have hown := Node.tagSection_sent_own (P := P) (n := s.node) call
    generalize (s.node.tagSection P call).sent = sent at hown
    induction sent with
    | nil => exact .next _
    | cons m sent ih =>
      exact .broadcast (hown m List.mem_cons_self)
        (ih fun m hm => hown m (List.mem_cons_of_mem _ hm))
  | unlock =>
    rcases hshape.rest_of_unlock with hrest | ⟨call, rfl⟩
    · exact .plain hrest
    · exact .verify call
  | broadcast => exact hshape.of_broadcast
  | @useTree again free =>
    have hrest := hplain rfl nofun nofun nofun
    cases again with
    | false => exact cons rfl hrest
    | true => exact cons rfl (List.forall_mem_cons.mpr ⟨rfl, hrest⟩)
  | keepTree => exact .plain hshape.plain_keepTree
  | unlockTree => exact hshape.rest_of_unlockTree

/-- A step that takes the tree owes the step that gives it back. -/
theorem Moves.count_unlockTree (h : s.Moves P rest op t ops)
    (hheld : (op :: rest).count .unlockTree ≤ s.tree.toNat) :
    ops.count .unlockTree + s.tree.toNat = (op :: rest).count .unlockTree + t.tree.toNat := by
  cases h with
  | @proposed call free =>
    have hsent : ((s.node.tagSection P call).sent.map CallOp.broadcast).count .unlockTree = 0 := by
      simp [List.count_eq_zero]
    simp [hsent]
  | broadcast free => simp [free]
  | @useTree again free => cases again <;> simp [free, CallOp.inside]
  | keepTree free => simp [free]
  | unlockTree =>
    rw [List.count_cons_self] at hheld ⊢
    cases htree : s.tree with
    | false => simp [htree] at hheld
    | true => simp
  | _ => simp

/-- A step that leaves `pbft.lock` locked owes the step that gives it back, or is one of the two
that keep it. -/
theorem Moves.count_unlock (h : s.Moves P rest op t ops)
    (hshape : Shape s.node.myAddr (op :: rest))
    (hheld : (op :: rest).count .unlock ≤ s.node.pbft.lock.toNat) :
    (∃ m, op = .enter m ∧ s.node.Keeps m ∧ s.node.pbft.lock = false ∧ t.node.pbft.lock = true ∧
      ops.count .unlock = 0) ∨
    (∀ m, op = .enter m → ¬ s.node.Keeps m) ∧
      ops.count .unlock + s.node.pbft.lock.toNat =
        (op :: rest).count .unlock + t.node.pbft.lock.toNat := by
  cases h with
  | @kept m n free keeps same locked =>
    exact .inl ⟨m, rfl, keeps, free, locked, count_unlock_abandon rest⟩
  | entered free calm alone signed silent same unlocked =>
    refine .inr ⟨fun m hm => by obtain rfl := CallOp.enter.inj hm; exact calm, ?_⟩
    simp [free, unlocked]
  | @answered pp free fresh =>
    refine .inr ⟨fun m hm => by obtain rfl := CallOp.enter.inj hm; exact fresh, ?_⟩
    simp [Node.storePrePrepare]
  | completed free enough =>
    refine .inr ⟨fun m hm => by obtain rfl := CallOp.enter.inj hm; exact id, ?_⟩
    simp [free, Node.locked]
  | received free =>
    refine .inr ⟨fun m hm => by obtain rfl := CallOp.enter.inj hm; exact id, ?_⟩
    simp [(Node.received_frame _).2]
  | failed other fails =>
    have hrest := hshape.plain_rest rfl nofun
      (fun m hm => by obtain rfl := CallOp.handle.inj hm; exact other) nofun
    refine .inr ⟨nofun, ?_⟩
    simp [count_unlock_of_plain hrest]
  | @advanced step catchUp block pbft free goes =>
    refine .inr ⟨nofun, ?_⟩
    have hsame : pbft.lock = s.node.pbft.lock :=
      (SafePbft.getPbftBlockAndAdvance_sameLogs goes).lock
    simp [Node.addTLCBlock, hsame]
  | @proposed call free =>
    refine .inr ⟨nofun, ?_⟩
    have hsent : ((s.node.tagSection P call).sent.map CallOp.broadcast).count .unlock = 0 := by
      simp [List.count_eq_zero]
    simp [hsent, free, Node.locked]
  | @useTree again free => exact .inr ⟨nofun, by cases again <;> simp [CallOp.inside]⟩
  | unlock =>
    refine .inr ⟨nofun, ?_⟩
    rw [List.count_cons_self] at hheld ⊢
    cases hlock : s.node.pbft.lock with
    | false => simp [hlock] at hheld
    | true => simp [Node.unlocked]
  | turnBad free => exact .inr ⟨nofun, by simp [Node.turnedBad]⟩
  | _ => exact .inr ⟨nofun, by simp⟩

/-- The mutexes are held by the calls that are going to give them back. `pbft.lock` may be locked
with no such call. -/
structure Sound (s : Replica) : Prop where
  processor : ∃ ops ∈ s.calls.head?, ∀ op ∈ ops, op.tagging = false
  addr : s.node.pbft.addr = s.node.myAddr
  tlcs : s.node.pbft.TlcsSound
  shape : ∀ ops ∈ s.calls, Shape s.node.myAddr ops
  lock : work (List.count .unlock) s.calls ≤ s.node.pbft.lock.toNat
  tree : work (List.count .unlockTree) s.calls = s.tree.toNat

theorem mem_set_append {calls new : List (List CallOp)} {i : ℕ} {x : List CallOp}
    (h : x ∈ (calls ++ new).set i ops) : x = ops ∨ x ∈ calls ∨ x ∈ new := by
  rcases List.mem_or_eq_of_mem_set h with h | h
  · exact .inr (List.mem_append.mp h)
  · exact .inl h

theorem head_set_append {calls : List (List CallOp)} {i : ℕ} {old : List CallOp}
    {Q : List CallOp → Prop} (hcall : calls[i]? = some old) (new : List (List CallOp))
    (h : ∃ x ∈ calls.head?, Q x) (hops : Q old → Q ops) :
    ∃ x ∈ ((calls ++ new).set i ops).head?, Q x := by
  obtain ⟨x, hx, hQ⟩ := h
  cases calls with
  | nil => cases hx
  | cons head calls =>
    obtain rfl : head = x := Option.some.inj hx
    cases i with
    | zero =>
      obtain rfl : head = old := Option.some.inj hcall
      exact ⟨ops, rfl, hops hQ⟩
    | succ i => exact ⟨head, rfl, hQ⟩

theorem work_set_append (weight : List CallOp → ℕ) {calls : List (List CallOp)} {i : ℕ}
    {old : List CallOp} (hcall : calls[i]? = some old) (new : List (List CallOp))
    (ops : List CallOp) :
    work weight ((calls ++ new).set i ops) + weight old =
      work weight calls + work weight new + weight ops := by
  have hlt := (List.getElem?_eq_some_iff.mp hcall).1
  have hat : (calls ++ new)[i]? = some old := (List.getElem?_append_left hlt).trans hcall
  have hset := work_set weight hat ops
  rw [work_append] at hset
  omega

theorem weight_le_work (weight : List CallOp → ℕ) {calls : List (List CallOp)} {i : ℕ}
    {old : List CallOp} (hcall : calls[i]? = some old) : weight old ≤ work weight calls := by
  have herase := work_eraseIdx weight hcall
  omega

variable {i : ℕ}

theorem Moves.sound (h : s.Moves P rest op t ops) (hs : s.Sound)
    (hcall : s.calls[i]? = some (op :: rest)) :
    Sound { t with calls := t.calls.set i ops } := by
  obtain ⟨hmy, haddr, new, hcalls, hnew⟩ := h.frame
  have hshape := hs.shape _ (List.mem_of_getElem? hcall)
  have hlock := weight_le_work (List.count .unlock) hcall
  have htree := weight_le_work (List.count .unlockTree) hcall
  have hzero (a : CallOp) (ha : ∀ tlc, a ≠ .broadcast (.pbftTLC tlc)) :
      work (List.count a) new = 0 := by
    refine work_eq_zero.mpr fun ops hops => ?_
    obtain ⟨tlc, rfl⟩ := hnew ops hops
    exact List.count_eq_zero.mpr (by simpa using ha tlc)
  refine ⟨?_, ?_, h.tlcs hs.tlcs, fun x hx => ?_, ?_, ?_⟩
  · dsimp only
    rw [hcalls]
    exact head_set_append hcall new hs.processor h.tagging
  · exact haddr.trans (hs.addr.trans hmy.symm)
  · dsimp only at hx ⊢
    rw [hmy]
    rw [hcalls] at hx
    rcases mem_set_append hx with rfl | hx | hx
    · exact h.shape hs.addr hshape
    · exact hs.shape x hx
    · obtain ⟨tlc, rfl⟩ := hnew x hx
      exact .plain (by simp [CallOp.plain])
  · dsimp only
    rw [hcalls]
    have hwork := work_set_append (List.count .unlock) hcall new ops
    rw [hzero .unlock (by simp)] at hwork
    have := hs.lock
    rcases h.count_unlock hshape (hlock.trans hs.lock) with
      ⟨m, _, _, hfree, hlocked, hnone⟩ | ⟨_, hcount⟩
    · rw [hfree, Bool.toNat_false] at this
      rw [hlocked, Bool.toNat_true]
      omega
    · omega
  · dsimp only
    rw [hcalls]
    have hwork := work_set_append (List.count .unlockTree) hcall new ops
    rw [hzero .unlockTree (by simp)] at hwork
    have := hs.tree
    have hcount := h.count_unlockTree (htree.trans_eq hs.tree)
    omega

theorem Sound.start (hs : s.Sound) {n : Node} {new : List (List CallOp)}
    (hmy : n.myAddr = s.node.myAddr) (hpbft : n.pbft = s.node.pbft)
    (hnew : ∀ ops ∈ new, Shape s.node.myAddr ops ∧ ops.count .unlock = 0 ∧
      ops.count .unlockTree = 0) : Sound { s with node := n, calls := s.calls ++ new } := by
  refine ⟨?_, ?_, hpbft ▸ hs.tlcs, fun x hx => ?_, ?_, ?_⟩
  · obtain ⟨old, hold, hplain⟩ := hs.processor
    exact ⟨old, by simp [List.head?_append, Option.mem_def.mp hold], hplain⟩
  · exact (congrArg SafePbft.addr hpbft).trans (hs.addr.trans hmy.symm)
  · dsimp only at hx ⊢
    rw [hmy]
    rcases List.mem_append.mp hx with hx | hx
    · exact hs.shape x hx
    · exact (hnew x hx).1
  · dsimp only
    rw [hpbft, work_append, work_eq_zero.mpr fun ops hops => (hnew ops hops).2.1]
    exact hs.lock
  · dsimp only
    rw [work_append, work_eq_zero.mpr fun ops hops => (hnew ops hops).2.2]
    exact hs.tree

theorem Effect.sound {e : ReplicaEvent} (h : s.Effect P e t) (hs : s.Sound) : t.Sound := by
  cases h with
  | @receive packet calls idle =>
    have hplain : ∀ op ∈ packet.map Delivery.op, op.plain = true ∧ op ≠ .unlockTree := by
      intro op hop
      obtain ⟨d, _, rfl⟩ := List.mem_map.mp hop
      cases d <;> exact ⟨rfl, nofun⟩
    have htagging : ∀ op ∈ packet.map Delivery.op, op.tagging = false := by
      intro op hop
      obtain ⟨d, _, rfl⟩ := List.mem_map.mp hop
      cases d <;> rfl
    have hlock := hs.lock
    have htree := hs.tree
    have hshape := hs.shape
    rw [idle] at hlock htree hshape
    refine ⟨⟨_, rfl, htagging⟩, hs.addr, hs.tlcs, fun x hx => ?_, ?_, ?_⟩
    · rcases List.mem_cons.mp hx with rfl | hx
      · exact .plain fun op hop => (hplain op hop).1
      · exact hshape x (List.mem_cons_of_mem _ hx)
    · have hnone := count_unlock_of_plain fun op hop => (hplain op hop).1
      simpa [work, hnone] using hlock
    · have hnone : (packet.map Delivery.op).count .unlockTree = 0 :=
        List.count_eq_zero.mpr fun hmem => (hplain _ hmem).2 rfl
      simpa [work, hnone] using htree
  | tag same config =>
    refine hs.start config.1 same fun ops hops => ?_
    obtain ⟨call, _, rfl⟩ := List.mem_map.mp hops
    exact ⟨.verify call, by simp, by simp⟩
  | turnBad =>
    refine hs.start rfl rfl fun ops hops => ?_
    rw [List.mem_singleton.mp hops]
    exact ⟨.plain (by simp [CallOp.plain]), by simp, by simp⟩
  | useTree =>
    refine hs.start rfl rfl fun ops hops => ?_
    rw [List.mem_singleton.mp hops]
    exact ⟨.plain (by simp [CallOp.plain]), by simp, by simp⟩
  | wake call kind moves => exact moves.sound hs call
  | step call kind moves => exact moves.sound hs call
  | @drop i m rest call free =>
    have hlock := work_set (List.count .unlock) call rest
    have htree := work_set (List.count .unlockTree) call rest
    have hunlock : (CallOp.broadcast m :: rest).count .unlock = rest.count .unlock := by simp
    have hunlockTree : (CallOp.broadcast m :: rest).count .unlockTree =
        rest.count .unlockTree := by simp
    refine ⟨?_, hs.addr, hs.tlcs, fun x hx => ?_, ?_, ?_⟩
    · have hhead := head_set_append call [] hs.processor fun h => (List.forall_mem_cons.mp h).2
      rwa [List.append_nil] at hhead
    · rcases List.mem_or_eq_of_mem_set hx with hx | rfl
      · exact hs.shape x hx
      · exact (hs.shape _ (List.mem_of_getElem? call)).rest_of_broadcast
    · have := hs.lock
      dsimp only
      omega
    · have := hs.tree
      dsimp only
      omega

end Replica

end JobPortal

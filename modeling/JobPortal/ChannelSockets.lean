import JobPortal.Goroutines
import JobPortal.Relaying

/-! Sockets that pass packets over channels. Other goroutines may run between the sections of a
call, and an address may be given to another socket or closed at any time. -/
namespace JobPortal.Transport

open Goroutines Runs

variable {M : Type}

def incomingSize : ℕ := 100

/-- `accepted` is for the statements only: all packets that were put into the channel. -/
structure Incoming (M : Type) where
  queue : List (Packet M) := []
  accepted : List (Packet M) := []
  deriving DecidableEq

structure Socket (M : Type) where
  myAddr : String
  ins : List (Packet M) := []
  outs : List (Packet M) := []
  deriving DecidableEq

/-- A call of `Send` or `Recv` on a socket, between two of its sections. -/
inductive SocketCall (M : Type)
  /-- `Send` is at its select, with the channel that it has looked up. -/
  | sending (sock chan : ℕ) (pkt : Packet M)
  | sent (sock : ℕ) (pkt : Packet M)
  /-- `Recv` is at its select. Its channel is nil where nobody listens. -/
  | receiving (sock : ℕ) (myChan : Option ℕ)
  | received (sock : ℕ) (pkt : Packet M)
  deriving DecidableEq

/-- The transport of channels, with its sockets and the calls that are under way. Channels are named
by their place in `chans`. -/
structure ChannelTransport (M : Type) where
  counter : UInt32 := 0
  incomings : GoMap String ℕ := ∅
  chans : List (Incoming M) := []
  sockets : List (Socket M) := []
  calls : List (SocketCall M) := []

inductive SocketEvent (M : Type)
  | createSocket (address : String)
  /-- Another transport of the process takes a port. -/
  | otherPort
  | close (sock : ℕ)
  | send (sock : ℕ) (dest : String) (pkt : Packet M)
  | recv (sock : ℕ)
  /-- The select of a call is done. -/
  | select (j : ℕ)
  | timeout (j : ℕ)
  /-- A call adds its packet to `ins` or `outs` and returns. -/
  | add (j : ℕ)
  deriving DecidableEq

/-- An address that ends in `:0` asks for a port. -/
def WantsPort (address : String) : Prop := [':', '0'] <:+ address.toList

instance (address : String) : Decidable (WantsPort address) :=
  inferInstanceAs (Decidable (_ <:+ _))

namespace Socket

def addIn (pkt : Packet M) (s : Socket M) : Socket M := { s with ins := s.ins ++ [pkt] }

def addOut (pkt : Packet M) (s : Socket M) : Socket M := { s with outs := s.outs ++ [pkt] }

end Socket

namespace ChannelTransport

variable (t : ChannelTransport M)

def assigned (address : String) : String :=
  if WantsPort address then
    String.ofList (address.toList.take (address.toList.length - 2)) ++ ":" ++
      toString (t.counter + 1)
  else address

def createSocket (address : String) : ChannelTransport M :=
  { t with
    counter := if WantsPort address then t.counter + 1 else t.counter
    incomings := t.incomings.insert (t.assigned address) t.chans.length
    chans := t.chans ++ [{}]
    sockets := t.sockets ++ [{ myAddr := t.assigned address }] }

/-- The error of a `Send` to an address where nobody listens leaves no call. -/
def send (sock : ℕ) (dest : String) (pkt : Packet M) : ChannelTransport M :=
  match t.incomings.lookup dest with
  | some chan => { t with calls := t.calls ++ [.sending sock chan pkt] }
  | none => t

def select (j : ℕ) : SocketCall M → Option (ChannelTransport M)
  | .sending sock chan pkt =>
    (t.chans[chan]?).bind fun incoming =>
      if incoming.queue.length < incomingSize then
        some { t with
          chans := t.chans.set chan ⟨incoming.queue ++ [pkt], incoming.accepted ++ [pkt]⟩
          calls := t.calls.set j (.sent sock pkt) }
      else none
  | .receiving sock (some chan) =>
    match t.chans[chan]? with
    | some ⟨pkt :: queue, accepted⟩ =>
      some { t with
        chans := t.chans.set chan ⟨queue, accepted⟩
        calls := t.calls.set j (.received sock pkt) }
    | _ => none
  | .receiving _ none | .sent .. | .received .. => none

def timeout (j : ℕ) : SocketCall M → Option (ChannelTransport M)
  | .sending .. | .receiving .. => some { t with calls := t.calls.eraseIdx j }
  | .sent .. | .received .. => none

def add (j : ℕ) : SocketCall M → Option (ChannelTransport M)
  | .sent sock pkt => (t.sockets[sock]?).map fun s =>
    { t with sockets := t.sockets.set sock (s.addOut pkt), calls := t.calls.eraseIdx j }
  | .received sock pkt => (t.sockets[sock]?).map fun s =>
    { t with sockets := t.sockets.set sock (s.addIn pkt), calls := t.calls.eraseIdx j }
  | .sending .. | .receiving .. => none

def step : SocketEvent M → Option (ChannelTransport M)
  | .createSocket address => some (t.createSocket address)
  | .otherPort => some { t with counter := t.counter + 1 }
  | .close sock => (t.sockets[sock]?).map fun s =>
      { t with incomings := t.incomings.erase s.myAddr }
  | .send sock dest pkt => (t.sockets[sock]?).map fun _ => t.send sock dest pkt
  | .recv sock => (t.sockets[sock]?).map fun s =>
      { t with calls := t.calls ++ [.receiving sock (t.incomings.lookup s.myAddr)] }
  | .select j => (t.calls[j]?).bind (t.select j)
  | .timeout j => (t.calls[j]?).bind (t.timeout j)
  | .add j => (t.calls[j]?).bind (t.add j)

end ChannelTransport

namespace SocketCall

/-- The packet that `Recv` has taken and not yet added to `ins`. -/
def held : SocketCall M → List (Packet M)
  | .received _ pkt => [pkt]
  | .sending .. | .sent .. | .receiving .. => []

/-- The packet that `Send` has put into the channel and not yet added to `outs`. -/
def gone : SocketCall M → List (Packet M)
  | .sent _ pkt => [pkt]
  | .sending .. | .receiving .. | .received .. => []

end SocketCall

namespace ChannelTransport

inductive Effect (t : ChannelTransport M) : SocketEvent M → ChannelTransport M → Prop
  | createSocket (address : String) :
      Effect t (.createSocket address) (t.createSocket address)
  | quiet {e : SocketEvent M} (counter : UInt32) (incomings : GoMap String ℕ)
      (fewer : ∀ a c, incomings.lookup a = some c → t.incomings.lookup a = some c) :
      Effect t e { t with counter := counter, incomings := incomings }
  | send {sock chan : ℕ} {dest : String} {pkt : Packet M} :
      Effect t (.send sock dest pkt) { t with calls := t.calls ++ [.sending sock chan pkt] }
  | recv {sock : ℕ} {s : Socket M} (hsock : t.sockets[sock]? = some s) :
      Effect t (.recv sock)
        { t with calls := t.calls ++ [.receiving sock (t.incomings.lookup s.myAddr)] }
  | put {j sock chan : ℕ} {pkt : Packet M} {incoming : Incoming M} {l r : List (SocketCall M)}
      (hcalls : t.calls = l ++ .sending sock chan pkt :: r)
      (hchan : t.chans[chan]? = some incoming) :
      Effect t (.select j) { t with
        chans := t.chans.set chan ⟨incoming.queue ++ [pkt], incoming.accepted ++ [pkt]⟩
        calls := l ++ .sent sock pkt :: r }
  | take {j sock chan : ℕ} {pkt : Packet M} {queue accepted : List (Packet M)}
      {l r : List (SocketCall M)} (hcalls : t.calls = l ++ .receiving sock (some chan) :: r)
      (hchan : t.chans[chan]? = some ⟨pkt :: queue, accepted⟩) :
      Effect t (.select j) { t with
        chans := t.chans.set chan ⟨queue, accepted⟩
        calls := l ++ .received sock pkt :: r }
  | timeout {j : ℕ} {call : SocketCall M} {l r : List (SocketCall M)}
      (hj : t.calls[j]? = some call) (hcalls : t.calls = l ++ call :: r) (hheld : call.held = [])
      (hgone : call.gone = []) :
      Effect t (.timeout j) { t with calls := l ++ r }
  | addOut {j sock : ℕ} {pkt : Packet M} {s : Socket M} {l r : List (SocketCall M)}
      (hj : t.calls[j]? = some (.sent sock pkt)) (hcalls : t.calls = l ++ .sent sock pkt :: r)
      (hsock : t.sockets[sock]? = some s) :
      Effect t (.add j)
        { t with sockets := t.sockets.set sock (s.addOut pkt), calls := l ++ r }
  | addIn {j sock : ℕ} {pkt : Packet M} {s : Socket M} {l r : List (SocketCall M)}
      (hj : t.calls[j]? = some (.received sock pkt))
      (hcalls : t.calls = l ++ .received sock pkt :: r) (hsock : t.sockets[sock]? = some s) :
      Effect t (.add j)
        { t with sockets := t.sockets.set sock (s.addIn pkt), calls := l ++ r }

variable {t t' : ChannelTransport M} {e : SocketEvent M}

theorem select_effect {j : ℕ} {call : SocketCall M} (hj : t.calls[j]? = some call)
    (h : t.select j call = some t') : Effect t (.select j) t' := by
  obtain ⟨l, r, hcalls, hset, _⟩ := exists_split hj
  cases call with
  | sending sock chan pkt =>
    obtain ⟨incoming, hchan, h⟩ := Option.bind_eq_some_iff.mp h
    split_ifs at h with hroom
    obtain rfl := Option.some.inj h
    rw [hset]
    exact .put hcalls hchan
  | receiving sock myChan =>
    cases myChan with
    | none => cases h
    | some chan =>
      simp only [select] at h
      split at h
      · rename_i pkt queue accepted hchan
        obtain rfl := Option.some.inj h
        rw [hset]
        exact .take hcalls hchan
      · cases h
  | sent | received => cases h

theorem add_effect {j : ℕ} {call : SocketCall M} (hj : t.calls[j]? = some call)
    (h : t.add j call = some t') : Effect t (.add j) t' := by
  obtain ⟨l, r, hcalls, _, herase⟩ := exists_split hj
  cases call with
  | sending | receiving => cases h
  | sent sock pkt =>
    obtain ⟨s, hsock, rfl⟩ := Option.map_eq_some_iff.mp h
    rw [herase]
    exact .addOut hj hcalls hsock
  | received sock pkt =>
    obtain ⟨s, hsock, rfl⟩ := Option.map_eq_some_iff.mp h
    rw [herase]
    exact .addIn hj hcalls hsock

theorem step_effect (h : t.step e = some t') : Effect t e t' := by
  cases e with
  | createSocket address =>
    obtain rfl := Option.some.inj h
    exact .createSocket address
  | otherPort =>
    obtain rfl := Option.some.inj h
    exact .quiet _ _ fun _ _ ha => ha
  | close sock =>
    obtain ⟨s, _, rfl⟩ := Option.map_eq_some_iff.mp h
    refine .quiet t.counter _ fun a c ha => ?_
    by_cases hs : a = s.myAddr
    · rw [hs, Finmap.lookup_erase] at ha
      cases ha
    · rwa [Finmap.lookup_erase_ne hs] at ha
  | send sock dest pkt =>
    obtain ⟨_, _, rfl⟩ := Option.map_eq_some_iff.mp h
    unfold send
    split
    · exact .send
    · exact .quiet t.counter t.incomings fun _ _ ha => ha
  | recv sock =>
    obtain ⟨s, hsock, rfl⟩ := Option.map_eq_some_iff.mp h
    exact .recv hsock
  | select j =>
    obtain ⟨call, hj, h⟩ := Option.bind_eq_some_iff.mp h
    exact select_effect hj h
  | timeout j =>
    obtain ⟨call, hj, h⟩ := Option.bind_eq_some_iff.mp h
    obtain ⟨l, r, hcalls, _, herase⟩ := exists_split hj
    cases call with
    | sending | receiving =>
      obtain rfl := Option.some.inj h
      rw [herase]
      exact .timeout hj hcalls rfl rfl
    | sent | received => cases h
  | add j =>
    obtain ⟨call, hj, h⟩ := Option.bind_eq_some_iff.mp h
    exact add_effect hj h

def arrived (t : ChannelTransport M) : List (Packet M) :=
  t.sockets.flatMap Socket.ins ++ t.calls.flatMap SocketCall.held

def queued (t : ChannelTransport M) : List (Packet M) := t.chans.flatMap Incoming.queue

def departed (t : ChannelTransport M) : List (Packet M) :=
  t.sockets.flatMap Socket.outs ++ t.calls.flatMap SocketCall.gone

section Conservation

variable [DecidableEq M] {α : Type}

theorem count_set {l : List α} {i : ℕ} {a : α} (h : l[i]? = some a) (b : α)
    (f : α → List (Packet M)) (x : Packet M) :
    ((l.set i b).flatMap f).count x + (f a).count x =
      (l.flatMap f).count x + (f b).count x := by
  obtain ⟨p, q, rfl, hset, _⟩ := exists_split h
  simp only [hset, List.flatMap_append, List.flatMap_cons, List.count_append]
  omega

theorem Effect.counts (h : Effect t e t') (x : Packet M)
    (hsame : t.arrived.count x + t.queued.count x = t.departed.count x) :
    t'.arrived.count x + t'.queued.count x = t'.departed.count x := by
  cases h with
  | createSocket | send | recv =>
    simpa [arrived, queued, departed, ChannelTransport.createSocket, SocketCall.held,
      SocketCall.gone] using hsame
  | quiet => exact hsame
  | @put j sock chan pkt incoming l r hcalls hchan =>
    have hqueue := count_set hchan ⟨incoming.queue ++ [pkt], incoming.accepted ++ [pkt]⟩
      Incoming.queue x
    simp only [arrived, queued, departed, hcalls, SocketCall.held, SocketCall.gone,
      List.flatMap_append, List.flatMap_cons, List.count_append, List.nil_append] at hsame hqueue ⊢
    omega
  | @take j sock chan pkt queue accepted l r hcalls hchan =>
    have hqueue := count_set hchan ⟨queue, accepted⟩ Incoming.queue x
    rw [← List.singleton_append] at hqueue
    simp only [arrived, queued, departed, hcalls, SocketCall.held, SocketCall.gone,
      List.flatMap_append, List.flatMap_cons, List.count_append, List.nil_append] at hsame hqueue ⊢
    omega
  | timeout _ hcalls hheld hgone =>
    simpa [arrived, queued, departed, hcalls, hheld, hgone] using hsame
  | @addOut j sock pkt s l r _ hcalls hsock =>
    have hins := count_set hsock (s.addOut pkt) Socket.ins x
    have houts := count_set hsock (s.addOut pkt) Socket.outs x
    simp only [arrived, queued, departed, hcalls, SocketCall.held, SocketCall.gone,
      Socket.addOut, List.flatMap_append, List.flatMap_cons, List.count_append,
      List.nil_append] at hsame hins houts ⊢
    omega
  | @addIn j sock pkt s l r _ hcalls hsock =>
    have hins := count_set hsock (s.addIn pkt) Socket.ins x
    have houts := count_set hsock (s.addIn pkt) Socket.outs x
    simp only [arrived, queued, departed, hcalls, SocketCall.held, SocketCall.gone,
      Socket.addIn, List.flatMap_append, List.flatMap_cons, List.count_append,
      List.nil_append] at hsame hins houts ⊢
    omega

end Conservation

/-- What comes out of the sockets is what was sent, each packet as often as it was sent, and what is
missing is in a channel. -/
theorem conserved {es : List (SocketEvent M)} (h : AnyRun step ({} : ChannelTransport M) es t) :
    (t.arrived ++ t.queued).Perm t.departed := by
  classical
  rw [List.perm_iff_count]
  intro x
  rw [List.count_append]
  exact h.invariant (I := fun t => t.arrived.count x + t.queued.count x = t.departed.count x) rfl
    fun hsame _ hstep => (step_effect hstep).counts x hsame

end ChannelTransport

namespace Sample

def hello (dest : String) : Packet String :=
  ⟨newHeader ⟨"1", 0⟩ "B" "B" dest 0, "hello"⟩

def sends : List (SocketEvent String) :=
  [.createSocket "A:1", .createSocket "B:0", .recv 0, .send 1 "A:1" (hello "A:1"), .select 1,
    .select 0, .add 0]

theorem sends_isSome : (exec ChannelTransport.step {} sends).isSome := by decide

/-- The packet is in A's hands before B has noted that it is sent. -/
theorem conserved_sends :
    let t := (exec ChannelTransport.step {} sends).get sends_isSome
    (t.arrived ++ t.queued).Perm t.departed :=
  ChannelTransport.conserved (run_exec_get sends_isSome)

end Sample

namespace SocketCall

variable (s : ℕ)

def RecvsOn : SocketCall M → Prop
  | .receiving sock _ | .received sock _ => sock = s
  | .sending .. | .sent .. => False

instance : DecidablePred (RecvsOn (M := M) s)
  | .receiving sock _ | .received sock _ => inferInstanceAs (Decidable (sock = s))
  | .sending .. | .sent .. => inferInstanceAs (Decidable False)

def heldBy : SocketCall M → List (Packet M)
  | .received sock pkt => if sock = s then [pkt] else []
  | .sending .. | .sent .. | .receiving .. => []

variable {s}

theorem heldBy_eq_nil {call : SocketCall M} (h : ¬ call.RecvsOn s) : call.heldBy s = [] := by
  cases call with
  | received sock pkt => exact if_neg h
  | sending | sent | receiving => rfl

theorem flatMap_heldBy {calls : List (SocketCall M)} (h : calls.countP (·.RecvsOn s) = 0) :
    calls.flatMap (heldBy s) = [] :=
  List.flatMap_eq_nil_iff.mpr fun _ hcall =>
    heldBy_eq_nil (of_decide_eq_false (Bool.eq_false_iff.mpr (List.countP_eq_zero.mp h _ hcall)))

end SocketCall

namespace ChannelTransport

variable {t t' : ChannelTransport M} {e : SocketEvent M} {s : ℕ}

/-- `Recv` is called on the socket again when the last call has returned, and no other socket gets
its address. -/
def Owned (s : ℕ) (t : ChannelTransport M) : SocketEvent M → Prop
  | .recv sock => sock = s → ∀ call ∈ t.calls, ¬ call.RecvsOn s
  | .createSocket address => ∀ sk ∈ (if t.sockets.length = s then t.sockets else
      (t.sockets[s]?).toList), sk.myAddr ≠ t.assigned address
  | _ => True

instance (s : ℕ) (t : ChannelTransport M) : DecidablePred (Owned s t)
  | .recv sock => inferInstanceAs (Decidable (sock = s → ∀ call ∈ t.calls, ¬ call.RecvsOn s))
  | .createSocket address => inferInstanceAs (Decidable (∀ sk ∈ (if t.sockets.length = s then
      t.sockets else (t.sockets[s]?).toList), sk.myAddr ≠ t.assigned address))
  | .otherPort | .close _ | .send .. | .select _ | .timeout _ | .add _ =>
    inferInstanceAs (Decidable True)

/-- The channel of the socket, and who takes from it. -/
structure Ordered (s : ℕ) (t : ChannelTransport M) : Prop where
  paired : t.chans.length = t.sockets.length
  listening : ∀ a c, t.incomings.lookup a = some c →
    ∃ sk, t.sockets[c]? = some sk ∧ sk.myAddr = a
  own : ∀ k sk sk', t.sockets[s]? = some sk → t.sockets[k]? = some sk' →
    sk'.myAddr = sk.myAddr → k = s
  receiving : ∀ k c, .receiving k (some c) ∈ t.calls → (k = s ↔ c = s)
  born : ∀ call ∈ t.calls, call.RecvsOn s → s < t.sockets.length
  alone : t.calls.countP (·.RecvsOn s) ≤ 1
  ordered : ∀ sk incoming, t.sockets[s]? = some sk → t.chans[s]? = some incoming →
    incoming.accepted = sk.ins ++ t.calls.flatMap (SocketCall.heldBy s) ++ incoming.queue

/-- Neither a call of `Recv` on the socket nor the return of one. -/
def Apart (s : ℕ) (t : ChannelTransport M) : SocketEvent M → Prop
  | .recv sock => sock ≠ s
  | .timeout j | .add j => ∀ call ∈ t.calls[j]?, ¬ call.RecvsOn s
  | _ => True

theorem countP_split {l r : List (SocketCall M)} {call : SocketCall M} (h : ¬ call.RecvsOn s) :
    (l ++ call :: r).countP (·.RecvsOn s) = (l ++ r).countP (·.RecvsOn s) := by
  rw [List.countP_append, List.countP_append, List.countP_cons_of_neg (by simpa using h)]

theorem countP_concat {l : List (SocketCall M)} {call : SocketCall M} (h : ¬ call.RecvsOn s) :
    (l ++ [call]).countP (·.RecvsOn s) = l.countP (·.RecvsOn s) := by
  rw [countP_split h, List.append_nil]

theorem Effect.countP_recvs (h : Effect t e t') (hapart : Apart s t e) :
    t'.calls.countP (·.RecvsOn s) = t.calls.countP (·.RecvsOn s) := by
  cases h with
  | createSocket | quiet => rfl
  | send => exact countP_concat False.elim
  | recv => exact countP_concat hapart
  | @put j sock chan pkt incoming l r hcalls =>
    have hsending : ¬ (SocketCall.sending sock chan pkt).RecvsOn s := not_false
    have hsent : ¬ (SocketCall.sent sock pkt).RecvsOn s := not_false
    rw [hcalls, countP_split hsending, countP_split hsent]
  | take hcalls =>
    rw [hcalls, List.countP_append, List.countP_append, List.countP_cons, List.countP_cons]
    rfl
  | timeout hj hcalls => rw [hcalls, countP_split (hapart _ (Option.mem_def.mpr hj))]
  | addOut hj hcalls | addIn hj hcalls =>
    rw [hcalls, countP_split (hapart _ (Option.mem_def.mpr hj))]

theorem Effect.ins (h : Effect t e t') (hapart : Apart s t e) {sk : Socket M}
    (hsk : t.sockets[s]? = some sk) :
    ∃ sk', t'.sockets[s]? = some sk' ∧ sk'.ins = sk.ins ∧ sk'.myAddr = sk.myAddr := by
  cases h with
  | createSocket => exact ⟨sk, getElem?_concat_eq_some.mpr (.inl hsk), rfl, rfl⟩
  | quiet | send | recv | put | take | timeout => exact ⟨sk, hsk, rfl, rfl⟩
  | @addOut j sock pkt sk₀ l r hj hcalls hsock =>
    by_cases hs : s = sock
    · subst hs
      obtain rfl := Option.some.inj (hsock.symm.trans hsk)
      exact ⟨_, (getElem?_set_eq_some hsock).mpr (.inl ⟨rfl, rfl⟩), rfl, rfl⟩
    · exact ⟨sk, (getElem?_set_eq_some hsock).mpr (.inr ⟨hs, hsk⟩), rfl, rfl⟩
  | @addIn j sock pkt sk₀ l r hj hcalls hsock =>
    have hs : s ≠ sock := fun hs => hapart _ (Option.mem_def.mpr hj) hs.symm
    exact ⟨sk, (getElem?_set_eq_some hsock).mpr (.inr ⟨hs, hsk⟩), rfl, rfl⟩

/-- A packet that a call of `Recv` has taken stays with the call. -/
theorem Effect.received (h : Effect t e t') (hapart : Apart s t e) {pkt : Packet M}
    (hmem : .received s pkt ∈ t.calls) : .received s pkt ∈ t'.calls := by
  have hsplit : ∀ {l r : List (SocketCall M)} {call : SocketCall M}, t.calls = l ++ call :: r →
      call ≠ .received s pkt → .received s pkt ∈ l ++ r := by
    intro l r call hcalls hne
    rw [hcalls, List.mem_append, List.mem_cons] at hmem
    exact List.mem_append.mpr (hmem.imp_right (·.resolve_left hne.symm))
  have hcons : ∀ {l r : List (SocketCall M)} (call : SocketCall M), .received s pkt ∈ l ++ r →
      .received s pkt ∈ l ++ call :: r := fun call hlr =>
    List.mem_append.mpr ((List.mem_append.mp hlr).imp_right (List.mem_cons_of_mem call))
  cases h with
  | createSocket | quiet => exact hmem
  | send | recv => exact List.mem_append_left _ hmem
  | put hcalls | take hcalls => exact hcons _ (hsplit hcalls nofun)
  | timeout hj hcalls | addOut hj hcalls | addIn hj hcalls =>
    refine hsplit hcalls fun heq => hapart _ (Option.mem_def.mpr hj) ?_
    rw [heq]
    rfl

theorem ordered_start (s : ℕ) : Ordered s ({} : ChannelTransport M) where
  paired := rfl
  listening a c h := by cases h
  own k sk sk' h := by cases h
  receiving k c h := by cases h
  born call h := by cases h
  alone := Nat.zero_le 1
  ordered sk incoming h := by cases h

theorem Ordered.of_eq (h : Ordered s t) (hchans : t'.chans = t.chans)
    (hsockets : t'.sockets = t.sockets) (hcalls : t'.calls = t.calls)
    (hfewer : ∀ a c, t'.incomings.lookup a = some c → t.incomings.lookup a = some c) :
    Ordered s t' where
  paired := by rw [hchans, hsockets, h.paired]
  listening a c ha := hsockets ▸ h.listening a c (hfewer a c ha)
  own := hsockets ▸ h.own
  receiving := hcalls ▸ h.receiving
  born := by rw [hcalls, hsockets]; exact h.born
  alone := hcalls ▸ h.alone
  ordered := by rw [hsockets, hchans, hcalls]; exact h.ordered

theorem Ordered.createSocket (h : Ordered s t) {address : String}
    (howned : Owned s t (.createSocket address)) : Ordered s (t.createSocket address) where
  paired := by simp [ChannelTransport.createSocket, h.paired]
  listening a c ha := by
    by_cases hnew : a = t.assigned address
    · rw [hnew, ChannelTransport.createSocket, Finmap.lookup_insert] at ha
      obtain rfl := Option.some.inj ha
      refine ⟨{ myAddr := t.assigned address }, ?_, hnew.symm⟩
      rw [ChannelTransport.createSocket, h.paired, List.getElem?_concat_length]
    · rw [ChannelTransport.createSocket, Finmap.lookup_insert_of_ne _ hnew] at ha
      obtain ⟨sk, hsk, haddr⟩ := h.listening a c ha
      exact ⟨sk, getElem?_concat_eq_some.mpr (.inl hsk), haddr⟩
  own k sk sk' hsk hsk' haddr := by
    rcases getElem?_concat_eq_some.mp hsk with hsk | ⟨hs, rfl⟩
    · have hne : t.sockets.length ≠ s := (List.getElem?_eq_some_iff.mp hsk).1.ne'
      rcases getElem?_concat_eq_some.mp hsk' with hsk' | ⟨_, rfl⟩
      · exact h.own k sk sk' hsk hsk' haddr
      · rw [Owned, if_neg hne] at howned
        exact absurd haddr.symm (howned sk (Option.mem_toList.mpr hsk))
    · rcases getElem?_concat_eq_some.mp hsk' with hsk' | ⟨hk, _⟩
      · rw [Owned, if_pos hs.symm] at howned
        exact absurd haddr (howned sk' (List.mem_of_getElem? hsk'))
      · rw [hk, hs]
  receiving := h.receiving
  born call hcall hon := by
    rw [ChannelTransport.createSocket, List.length_append]
    exact Nat.lt_add_right _ (h.born call hcall hon)
  alone := h.alone
  ordered sk incoming hsk hchan := by
    rcases getElem?_concat_eq_some.mp hsk with hsk | ⟨hs, rfl⟩
    · have hlt : s < t.chans.length := h.paired ▸ (List.getElem?_eq_some_iff.mp hsk).1
      rw [ChannelTransport.createSocket, List.getElem?_append_left hlt] at hchan
      exact h.ordered sk incoming hsk hchan
    · rw [ChannelTransport.createSocket, hs, ← h.paired, List.getElem?_concat_length] at hchan
      obtain rfl := Option.some.inj hchan
      have hnone : t.calls.countP (·.RecvsOn s) = 0 := List.countP_eq_zero.mpr fun call hcall hon =>
        absurd (h.born call hcall (of_decide_eq_true hon)) (hs ▸ Nat.lt_irrefl _)
      rw [ChannelTransport.createSocket, SocketCall.flatMap_heldBy hnone]
      rfl

theorem Ordered.called (h : Ordered s t) {call : SocketCall M} (hheld : call.heldBy s = [])
    (hborn : call.RecvsOn s → s < t.sockets.length ∧ ∀ c ∈ t.calls, ¬ c.RecvsOn s)
    (hreceiving : ∀ k c, call = .receiving k (some c) → (k = s ↔ c = s)) :
    Ordered s { t with calls := t.calls ++ [call] } where
  paired := h.paired
  listening := h.listening
  own := h.own
  receiving k c hmem := by
    rcases List.mem_append.mp hmem with hmem | hmem
    · exact h.receiving k c hmem
    · exact hreceiving k c (List.mem_singleton.mp hmem).symm
  born c hmem hon := by
    rcases List.mem_append.mp hmem with hmem | hmem
    · exact h.born c hmem hon
    · rw [List.mem_singleton.mp hmem] at hon
      exact (hborn hon).1
  alone := by
    rw [List.countP_append, List.countP_singleton]
    split_ifs with hon
    · have hnone : t.calls.countP (·.RecvsOn s) = 0 := by
        refine List.countP_eq_zero.mpr fun c hc => ?_
        simpa using (hborn (of_decide_eq_true hon)).2 c hc
      rw [hnone]
    · exact h.alone
  ordered sk incoming hsk hchan := by
    rw [List.flatMap_append, List.flatMap_singleton, hheld, List.append_nil]
    exact h.ordered sk incoming hsk hchan

theorem Ordered.turned (h : Ordered s t) {call : SocketCall M} {l r : List (SocketCall M)}
    (news : List (SocketCall M)) (hcalls : t.calls = l ++ call :: r)
    (hcalls' : t'.calls = l ++ (news ++ r))
    (hnews : news = [] ∨ ∃ new, news = [new] ∧ (new.RecvsOn s → call.RecvsOn s) ∧
      ∀ k c, new ≠ .receiving k (some c))
    (hincomings : t'.incomings = t.incomings) (hchans : t'.chans.length = t.chans.length)
    (haddrs : ∀ k : ℕ, (t'.sockets[k]?).map Socket.myAddr = (t.sockets[k]?).map Socket.myAddr)
    (hlength : t'.sockets.length = t.sockets.length)
    (hordered : ∀ sk incoming, t'.sockets[s]? = some sk → t'.chans[s]? = some incoming →
      incoming.accepted = sk.ins ++ t'.calls.flatMap (SocketCall.heldBy s) ++ incoming.queue) :
    Ordered s t' where
  paired := by rw [hchans, hlength, h.paired]
  listening a c ha := by
    obtain ⟨sk, hsk, haddr⟩ := h.listening a c (hincomings ▸ ha)
    have hsame := haddrs c
    rw [hsk] at hsame
    obtain ⟨sk', hsk', haddr'⟩ := Option.map_eq_some_iff.mp hsame
    exact ⟨sk', hsk', haddr'.trans haddr⟩
  own k sk sk' hsk hsk' haddr := by
    have hs := haddrs s
    have hk := haddrs k
    rw [hsk] at hs
    rw [hsk'] at hk
    obtain ⟨sk₁, hsk₁, haddr₁⟩ := Option.map_eq_some_iff.mp hs.symm
    obtain ⟨sk₂, hsk₂, haddr₂⟩ := Option.map_eq_some_iff.mp hk.symm
    exact h.own k sk₁ sk₂ hsk₁ hsk₂ (haddr₂.trans (haddr.trans haddr₁.symm))
  receiving k c hmem := by
    refine h.receiving k c ?_
    rw [hcalls'] at hmem
    rw [hcalls]
    rcases List.mem_append.mp hmem with hmem | hmem
    · exact List.mem_append_left _ hmem
    · rcases List.mem_append.mp hmem with hmem | hmem
      · rcases hnews with rfl | ⟨new, rfl, _, hnew⟩
        · cases hmem
        · exact absurd (List.mem_singleton.mp hmem).symm (hnew k c)
      · exact List.mem_append_right _ (List.mem_cons_of_mem _ hmem)
  born c hmem hon := by
    rw [hlength]
    rw [hcalls'] at hmem
    have hborn := h.born
    rw [hcalls] at hborn
    rcases List.mem_append.mp hmem with hmem | hmem
    · exact hborn c (List.mem_append_left _ hmem) hon
    · rcases List.mem_append.mp hmem with hmem | hmem
      · rcases hnews with rfl | ⟨new, rfl, hnew, _⟩
        · cases hmem
        · obtain rfl := List.mem_singleton.mp hmem
          exact hborn call (List.mem_append_right _ List.mem_cons_self) (hnew hon)
      · exact hborn c (List.mem_append_right _ (List.mem_cons_of_mem _ hmem)) hon
  alone := by
    have halone := h.alone
    rw [hcalls, List.countP_append, List.countP_cons] at halone
    rw [hcalls', List.countP_append, List.countP_append]
    rcases hnews with rfl | ⟨new, rfl, hnew, _⟩
    · rw [List.countP_nil]
      omega
    · rw [List.countP_singleton]
      by_cases hon : new.RecvsOn s
      · simp only [hon, hnew hon, decide_true, if_true] at halone ⊢
        omega
      · simp only [hon, decide_false, Bool.false_eq_true, if_false]
        omega
  ordered := hordered

/-- Where a call of `Recv` on the socket is under way, no other call holds a packet of it. -/
theorem Ordered.held_split (h : Ordered s t) {call : SocketCall M} {l r : List (SocketCall M)}
    (hcalls : t.calls = l ++ call :: r) (hon : call.RecvsOn s) :
    l.flatMap (SocketCall.heldBy s) = [] ∧ r.flatMap (SocketCall.heldBy s) = [] := by
  have halone := h.alone
  rw [hcalls, List.countP_append, List.countP_cons, if_pos (by simpa using hon)] at halone
  exact ⟨SocketCall.flatMap_heldBy (by omega), SocketCall.flatMap_heldBy (by omega)⟩

theorem map_myAddr_set {sockets : List (Socket M)} {sock : ℕ} {sk sk' : Socket M}
    (h : sockets[sock]? = some sk) (haddr : sk'.myAddr = sk.myAddr) (k : ℕ) :
    ((sockets.set sock sk')[k]?).map Socket.myAddr = (sockets[k]?).map Socket.myAddr := by
  by_cases hk : sock = k
  · subst hk
    rw [List.getElem?_set_self (List.getElem?_eq_some_iff.mp h).1, h, Option.map_some,
      Option.map_some, haddr]
  · rw [List.getElem?_set_ne hk]

theorem Ordered.effect (h : Ordered s t) (howned : Owned s t e) (heffect : Effect t e t') :
    Ordered s t' := by
  cases heffect with
  | createSocket address => exact h.createSocket howned
  | quiet counter incomings fewer => exact h.of_eq rfl rfl rfl fewer
  | send => exact h.called rfl nofun nofun
  | @recv sock sk hsock =>
    refine h.called rfl (fun hon => ?_) fun k c heq => ?_
    · obtain rfl : sock = s := hon
      exact ⟨(List.getElem?_eq_some_iff.mp hsock).1, howned rfl⟩
    · obtain ⟨rfl, hlookup⟩ := SocketCall.receiving.inj heq
      obtain ⟨sk', hsk', haddr⟩ := h.listening _ c hlookup
      constructor
      · rintro rfl
        exact h.own c sk sk' hsock hsk' haddr
      · rintro rfl
        exact h.own sock sk' sk hsk' hsock haddr.symm
  | @put j sock chan pkt incoming l r hcalls hchan =>
    refine h.turned [.sent sock pkt] hcalls rfl (.inr ⟨_, rfl, nofun, nofun⟩) rfl
      List.length_set (fun _ => rfl) rfl fun sk inc hsk hinc => ?_
    have hcount : (l ++ .sent sock pkt :: r).flatMap (SocketCall.heldBy s) =
        t.calls.flatMap (SocketCall.heldBy s) := by
      rw [hcalls]
      simp [SocketCall.heldBy]
    dsimp only
    rw [hcount]
    rcases (getElem?_set_eq_some hchan).mp hinc with ⟨rfl, rfl⟩ | ⟨_, hinc⟩
    · rw [h.ordered sk incoming hsk hchan, List.append_assoc]
    · exact h.ordered sk inc hsk hinc
  | @take j sock chan pkt queue accepted l r hcalls hchan =>
    refine h.turned [.received sock pkt] hcalls rfl (.inr ⟨_, rfl, id, nofun⟩) rfl
      List.length_set (fun _ => rfl) rfl fun sk inc hsk hinc => ?_
    have hmine : sock = s ↔ chan = s := by
      refine h.receiving sock chan ?_
      rw [hcalls]
      exact List.mem_append_right _ List.mem_cons_self
    rcases (getElem?_set_eq_some hchan).mp hinc with ⟨hs, rfl⟩ | ⟨hne, hinc⟩
    · obtain rfl : sock = s := hmine.mpr hs.symm
      obtain ⟨hl, hr⟩ := h.held_split hcalls rfl
      have hold := h.ordered sk _ hsk (hs ▸ hchan)
      rw [hcalls, List.flatMap_append, List.flatMap_cons, hl, hr] at hold
      rw [List.flatMap_append, List.flatMap_cons, hl, hr]
      simpa [SocketCall.heldBy] using hold
    · have hother : sock ≠ s := fun hs => hne (hmine.mp hs).symm
      have hold := h.ordered sk inc hsk hinc
      rw [hcalls, List.flatMap_append, List.flatMap_cons] at hold
      rw [List.flatMap_append, List.flatMap_cons]
      simpa [SocketCall.heldBy, hother] using hold
  | @timeout j call l r _ hcalls hheld hgone =>
    refine h.turned [] hcalls rfl (.inl rfl) rfl rfl (fun _ => rfl) rfl
      fun sk inc hsk hinc => ?_
    have hold := h.ordered sk inc hsk hinc
    have hnone : call.heldBy s = [] := by
      cases call with
      | received => cases hheld
      | sending | sent | receiving => rfl
    rwa [hcalls, List.flatMap_append, List.flatMap_cons, hnone, List.nil_append,
      ← List.flatMap_append] at hold
  | @addOut j sock pkt sk₀ l r _ hcalls hsock =>
    refine h.turned [] hcalls rfl (.inl rfl) rfl rfl (map_myAddr_set hsock rfl)
      List.length_set fun sk inc hsk hinc => ?_
    have hcount : (l ++ r).flatMap (SocketCall.heldBy s) =
        t.calls.flatMap (SocketCall.heldBy s) := by
      rw [hcalls]
      simp [SocketCall.heldBy]
    dsimp only
    rw [hcount]
    rcases (getElem?_set_eq_some hsock).mp hsk with ⟨rfl, rfl⟩ | ⟨_, hsk⟩
    · exact h.ordered sk₀ inc hsock hinc
    · exact h.ordered sk inc hsk hinc
  | @addIn j sock pkt sk₀ l r _ hcalls hsock =>
    refine h.turned [] hcalls rfl (.inl rfl) rfl rfl (map_myAddr_set hsock rfl)
      List.length_set fun sk inc hsk hinc => ?_
    rcases (getElem?_set_eq_some hsock).mp hsk with ⟨rfl, rfl⟩ | ⟨hne, hsk⟩
    · obtain ⟨hl, hr⟩ := h.held_split hcalls rfl
      have hold := h.ordered sk₀ inc hsock hinc
      rw [hcalls, List.flatMap_append, List.flatMap_cons, hl, hr] at hold
      rw [List.flatMap_append, hl, hr]
      simpa [SocketCall.heldBy, Socket.addIn] using hold
    · have hold := h.ordered sk inc hsk hinc
      rw [hcalls, List.flatMap_append, List.flatMap_cons] at hold
      rw [List.flatMap_append]
      simpa [SocketCall.heldBy, Ne.symm hne] using hold

/-- The packets put into the channel of a socket come out of it in that order, each of them once. -/
theorem ordered_of_run {es : List (SocketEvent M)}
    (h : Run step (Owned s) ({} : ChannelTransport M) es t) : Ordered s t :=
  h.invariant (ordered_start s) fun hord howned hstep => hord.effect howned (step_effect hstep)

end ChannelTransport

end JobPortal.Transport

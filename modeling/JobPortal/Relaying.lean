import JobPortal.PbftTypes
import JobPortal.Runs

/-! Packets on their way. A node that is not the destination of a packet passes it on to the next
hop of its routing table, with one less to live. -/
namespace JobPortal.Transport

open Runs

variable {M : Type}

structure Header where
  packetID : String
  ttl : UInt64
  timestamp : ℤ
  source : String
  relayedBy : String
  destination : String
  deriving DecidableEq, Repr

/-- What a new header takes from the clock and the generator of packet ids. -/
structure Fresh where
  packetID : String
  timestamp : ℤ

/-- A time to live of zero stands for the largest one. -/
def newHeader (fresh : Fresh) (source relay destination : String) (ttl : UInt64) : Header where
  packetID := fresh.packetID
  ttl := if ttl = 0 then -1 else ttl
  timestamp := fresh.timestamp
  source := source
  relayedBy := relay
  destination := destination

structure Packet (M : Type) where
  header : Header
  msg : M
  deriving DecidableEq, Repr

/-- Where a node sends a packet that it relays, and what it sends. The error for a destination
without an entry is `none`. -/
def relay (fresh : Fresh) (routingTable : GoMap String String) (myAddr : String) (pkt : Packet M) :
    Option (String × Packet M) :=
  (routingTable.lookup pkt.header.destination).map fun nextAddr =>
    (nextAddr, ⟨newHeader fresh pkt.header.source myAddr pkt.header.destination
      (pkt.header.ttl - 1), pkt.msg⟩)

structure Arrival (M : Type) where
  addr : String
  pkt : Packet M
  deriving DecidableEq, Repr

/-- What the node at an address does with a packet that arrives there, with the routing table it
has at that time. A packet for the node itself is not passed on. -/
structure Hop where
  fresh : Fresh
  routingTable : GoMap String String

namespace Arrival

def step (a : Arrival M) (hop : Hop) : Option (Arrival M) :=
  if a.pkt.header.destination = a.addr then none
  else (relay hop.fresh hop.routingTable a.addr a.pkt).map fun (nextAddr, pkt) => ⟨nextAddr, pkt⟩

def ttl (a : Arrival M) : UInt64 := a.pkt.header.ttl

/-- What is sent on has less to live than what came in, and is sent on only if something is left. -/
def Consumes (a : Arrival M) (hop : Hop) : Prop :=
  ∀ b, a.step hop = some b → b.ttl < a.ttl ∧ a.ttl ≠ 0 ∧ a.ttl - 1 ≠ 0

/-- A packet is relayed with less to live from hop to hop, and not more often than it has to
live. -/
structure Expires (a : Arrival M) (hops : List Hop) (b : Arrival M) : Prop where
  consumes : Run step Consumes a hops b
  bounded : hops.length ≤ a.ttl.toNat

def Lives (a : Arrival M) (_ : Hop) : Prop := 2 ≤ a.ttl

variable {a b : Arrival M} {hop : Hop} {hops : List Hop}

theorem step_ttl (h : a.step hop = some b) : b.ttl = if a.ttl - 1 = 0 then -1 else a.ttl - 1 := by
  unfold step at h
  split_ifs at h
  obtain ⟨_, hrelay, rfl⟩ := Option.map_eq_some_iff.mp h
  obtain ⟨nextAddr, _, rfl⟩ := Option.map_eq_some_iff.mp hrelay
  rfl

theorem consumes_iff (h : a.step hop = some b) : Consumes a hop ↔ Lives a hop := by
  have hlives : Lives a hop ↔ 2 ≤ a.ttl.toNat := UInt64.le_iff_toNat_le
  rw [hlives]
  constructor
  · intro hconsumes
    obtain ⟨_, hzero, hone⟩ := hconsumes b h
    have hzero' : a.ttl.toNat ≠ 0 := fun heq => hzero (UInt64.toNat_inj.mp heq)
    have hone' : (a.ttl - 1).toNat ≠ 0 := fun heq => hone (UInt64.toNat_inj.mp heq)
    rw [UInt64.toNat_sub_of_le _ _ (UInt64.pos_iff_ne_zero.mpr hzero), UInt64.toNat_one] at hone'
    omega
  · intro htwo b' hb'
    have hzero : a.ttl ≠ 0 := fun heq => by simp [heq] at htwo
    have hless : (a.ttl - 1).toNat = a.ttl.toNat - 1 :=
      UInt64.toNat_sub_of_le _ _ (UInt64.pos_iff_ne_zero.mpr hzero)
    have hone : a.ttl - 1 ≠ 0 := fun heq => by
      rw [heq] at hless
      simp at hless
      omega
    refine ⟨?_, hzero, hone⟩
    rw [step_ttl hb', if_neg hone, UInt64.lt_iff_toNat_lt, hless]
    omega

theorem ttl_of_run (h : Run step Lives a hops b) : b.ttl.toNat + hops.length ≤ a.ttl.toNat := by
  induction h with
  | nil => exact Nat.le_refl _
  | snoc _ meets enabled ih =>
    have hless := UInt64.lt_iff_toNat_lt.mp ((consumes_iff enabled).mpr meets _ enabled).1
    rw [List.length_append, List.length_singleton]
    omega

/-- Packets expire on the routes on which every hop leaves them something to live. -/
theorem expires_iff (h : AnyRun step a hops b) : Expires a hops b ↔ Run step Lives a hops b := by
  have hmeets : Run step Consumes a hops b ↔ Run step Lives a hops b :=
    run_iff_run h fun _ hstep => consumes_iff hstep
  constructor
  · exact fun hexpires => hmeets.mp hexpires.consumes
  · intro hlives
    have hbound := ttl_of_run hlives
    exact ⟨hmeets.mpr hlives, by omega⟩

end Arrival

namespace Sample

open Arrival

def loop : List Hop :=
  [⟨⟨"1", 1⟩, Finmap.singleton "C" "B"⟩, ⟨⟨"2", 2⟩, Finmap.singleton "C" "A"⟩]

def toC (ttl : UInt64) : Arrival String := ⟨"A", ⟨⟨"0", ttl, 0, "D", "D", "C"⟩, "hello"⟩⟩

theorem toC_isSome (ttl : UInt64) : (exec step (toC ttl) loop).isSome := rfl

/-- A packet with one hop to live is passed on as one that lives as long as possible. -/
theorem expires_counterexample :
    AnyRun step (toC 1) loop ((exec step (toC 1) loop).get (toC_isSome 1)) ∧
      ((exec step (toC 1) loop).get (toC_isSome 1)).ttl = 18446744073709551614 ∧
      ¬ Expires (toC 1) loop ((exec step (toC 1) loop).get (toC_isSome 1)) := by
  refine ⟨run_exec_get _, by decide, fun h => ?_⟩
  exact absurd h.bounded (by decide)

theorem expires_iff_three :
    Expires (toC 3) loop ((exec step (toC 3) loop).get (toC_isSome 3)) ↔
      Run step Lives (toC 3) loop ((exec step (toC 3) loop).get (toC_isSome 3)) :=
  expires_iff (run_exec_get (toC_isSome 3))

end Sample

end JobPortal.Transport

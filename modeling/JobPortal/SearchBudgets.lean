import JobPortal.LastWrites
import JobPortal.SearchFlood
import Mathlib.Algebra.BigOperators.Group.Finset.Basic

/-! The budgets that a node gives out to its neighbours. What is given out is the budget it has, in
parts that hardly differ, but a request that comes without a budget is passed on with one. -/
namespace JobPortal.Sharing

open LastWrites

/-- The loop over the neighbours. The first `mod` of them get one more than the others, with a
second write to the map. -/
def giveOut (div : UInt64) : ℕ → List String → GoMap String UInt64 → GoMap String UInt64
  | _, [], res => res
  | mod, neighbor :: neighbors, res =>
    let res := res.insert neighbor div
    if 0 < mod then
      giveOut div (mod - 1) neighbors (res.insert neighbor (GoMap.at res neighbor 0 + 1))
    else giveOut div mod neighbors res

/-- The map that is returned when the neighbours are left in the order `shuffled`. A nil map reads
like an empty one. -/
def SearchNode.getNeighborsAndBudgets (n : SearchNode) (without : String) (budget : UInt64)
    (shuffled : List String) : Option (GoMap String UInt64) :=
  if shuffled.Nodup ∧ shuffled.toFinset = n.neighbors without then
    if shuffled.length = 0 then some ∅
    else
      let div := budget.toNat / shuffled.length
      let mod := budget.toNat % shuffled.length
      if 0 < div then some (giveOut (UInt64.ofNat div) mod shuffled ∅)
      else some ((shuffled.take mod).foldl (fun res neighbor => res.insert neighbor 1) ∅)
  else none

/-- A budget is given out to some of the neighbours, all of it, and as evenly as it can be. -/
structure SplitEvenly (neighbors : Finset String) (budget : UInt64) (res : GoMap String UInt64) :
    Prop where
  eligible : res.keys ⊆ neighbors
  sum : ∑ key ∈ res.keys, (res.at key 0).toNat = budget.toNat
  atLeast : ∀ key ∈ res.keys, 1 ≤ res.at key 0
  even : ∀ key ∈ res.keys, ∀ other ∈ res.keys,
    (res.at key 0).toNat ≤ (res.at other 0).toNat + 1
  card : res.keys.card = min neighbors.card budget.toNat

/-- What is passed on for a request is less than its budget, and nothing if it has none. -/
def ForwardsWithin (budget : UInt64) (packets : List SearchPacket) : Prop :=
  (1 ≤ budget → (packets.map fun p => p.msg.budget.toNat).sum ≤ budget.toNat - 1) ∧
    (budget = 0 → packets = [])

theorem giveOut_eq (div mod : ℕ) (ns : List String) (res : GoMap String UInt64) :
    giveOut (UInt64.ofNat div) mod ns res = writeAll res (share div mod ns) := by
  induction ns generalizing mod res with
  | nil => rfl
  | cons neighbor ns ih =>
    rw [giveOut, share]
    split_ifs with hmod
    · rw [GoMap.at_insert_self, Finmap.insert_insert, ih]
      rfl
    · rw [ih, Nat.eq_zero_of_not_pos hmod]
      rfl

theorem fst_share (div mod : ℕ) (ns : List String) : (share div mod ns).map Prod.fst = ns := by
  induction ns generalizing mod with
  | nil => rfl
  | cons neighbor ns ih => rw [share, List.map_cons, ih]

section Entries

variable {shuffled : List String} {budget : UInt64}

theorem fst_getNeighborsAndBudgets (shuffled : List String) (budget : UInt64) :
    (getNeighborsAndBudgets shuffled budget).map Prod.fst = shuffled.take budget.toNat := by
  rw [getNeighborsAndBudgets]
  dsimp only
  split_ifs with hlen hdiv
  · rw [List.length_eq_zero_iff.mp hlen, List.take_nil, List.map_nil]
  · have hle : shuffled.length ≤ budget.toNat :=
      (Nat.div_pos_iff.mp hdiv).2
    rw [fst_share, List.take_of_length_le hle]
  · have hlt : budget.toNat < shuffled.length := by
      rw [Nat.div_pos_iff, not_and] at hdiv
      exact Nat.not_le.mp (hdiv (Nat.pos_of_ne_zero hlen))
    rw [Nat.mod_eq_of_lt hlt, List.map_map]
    exact List.map_id _

theorem getNeighborsAndBudgets_even {p q : String × UInt64}
    (hp : p ∈ getNeighborsAndBudgets shuffled budget)
    (hq : q ∈ getNeighborsAndBudgets shuffled budget) : p.2.toNat ≤ q.2.toNat + 1 := by
  rw [getNeighborsAndBudgets] at hp hq
  dsimp only at hp hq
  split_ifs at hp hq with hlen hdiv
  · cases hp
  · have hvalue := share_value (quotient_lt budget _) (quotient_succ_lt hlen) hp
    have hvalue' := share_value (quotient_lt budget _) (quotient_succ_lt hlen) hq
    omega
  · obtain ⟨_, _, rfl⟩ := List.mem_map.mp hp
    obtain ⟨_, _, rfl⟩ := List.mem_map.mp hq
    exact Nat.le_succ _

theorem nodup_getNeighborsAndBudgets (hnodup : shuffled.Nodup) (budget : UInt64) :
    ((getNeighborsAndBudgets shuffled budget).map Prod.fst).Nodup := by
  rw [fst_getNeighborsAndBudgets]
  exact hnodup.sublist (List.take_sublist _ _)

end Entries

namespace SearchNode

variable {n n' : SearchNode} {msg : SearchRequestMessage} {without relayedBy : String}
  {budget : UInt64} {shuffled : List String} {res : GoMap String UInt64}
  {packets : List SearchPacket}

theorem getNeighborsAndBudgets_eq (hnodup : shuffled.Nodup)
    (hall : shuffled.toFinset = n.neighbors without) (budget : UInt64) :
    n.getNeighborsAndBudgets without budget shuffled =
      some (writeAll ∅ (Sharing.getNeighborsAndBudgets shuffled budget)) := by
  rw [getNeighborsAndBudgets, if_pos ⟨hnodup, hall⟩, Sharing.getNeighborsAndBudgets]
  dsimp only
  split_ifs
  · rfl
  · rw [giveOut_eq]
  · rw [writeAll, List.foldl_map]

theorem at_getNeighborsAndBudgets (hnodup : shuffled.Nodup) {p : String × UInt64}
    (hp : p ∈ Sharing.getNeighborsAndBudgets shuffled budget) :
    GoMap.at (writeAll ∅ (Sharing.getNeighborsAndBudgets shuffled budget)) p.1 0 = p.2 := by
  rw [GoMap.at, lookup_writeAll_of_nodup _ (nodup_getNeighborsAndBudgets hnodup budget) hp,
    Option.getD_some]

theorem keys_getNeighborsAndBudgets (shuffled : List String) (budget : UInt64) :
    (writeAll ∅ (Sharing.getNeighborsAndBudgets shuffled budget)).keys =
      (shuffled.take budget.toNat).toFinset := by
  ext key
  rw [Finmap.mem_keys, mem_writeAll, fst_getNeighborsAndBudgets, List.mem_toFinset]
  exact or_iff_right (Finmap.notMem_empty)

theorem exists_at_getNeighborsAndBudgets (hnodup : shuffled.Nodup) {key : String}
    (hkey : key ∈ (writeAll ∅ (Sharing.getNeighborsAndBudgets shuffled budget)).keys) :
    ∃ p ∈ Sharing.getNeighborsAndBudgets shuffled budget,
      GoMap.at (writeAll ∅ (Sharing.getNeighborsAndBudgets shuffled budget)) key 0 = p.2 := by
  rw [keys_getNeighborsAndBudgets, ← fst_getNeighborsAndBudgets, List.mem_toFinset] at hkey
  obtain ⟨p, hp, rfl⟩ := List.mem_map.mp hkey
  exact ⟨p, hp, at_getNeighborsAndBudgets hnodup hp⟩

theorem sum_keys_getNeighborsAndBudgets (hnodup : shuffled.Nodup) (budget : UInt64) :
    ∑ key ∈ (writeAll ∅ (Sharing.getNeighborsAndBudgets shuffled budget)).keys,
        (GoMap.at (writeAll ∅ (Sharing.getNeighborsAndBudgets shuffled budget)) key 0).toNat =
      ((Sharing.getNeighborsAndBudgets shuffled budget).map fun p => p.2.toNat).sum := by
  rw [keys_getNeighborsAndBudgets, ← fst_getNeighborsAndBudgets,
    List.sum_toFinset _ (nodup_getNeighborsAndBudgets hnodup budget), List.map_map]
  refine congrArg List.sum (List.map_congr_left fun p hp => ?_)
  exact congrArg UInt64.toNat (at_getNeighborsAndBudgets hnodup hp)

/-- Where there are neighbours, a budget is given out to them exactly and evenly, whatever the
order they are shuffled into. -/
theorem splitEvenly_getNeighborsAndBudgets (hne : (n.neighbors without).Nonempty)
    (hnodup : shuffled.Nodup) (hall : shuffled.toFinset = n.neighbors without)
    (budget : UInt64) : ∃ res, n.getNeighborsAndBudgets without budget shuffled = some res ∧
      SplitEvenly (n.neighbors without) budget res := by
  have hsome : shuffled ≠ [] := by
    rintro rfl
    rw [← hall] at hne
    exact Finset.not_nonempty_empty hne
  refine ⟨_, getNeighborsAndBudgets_eq hnodup hall budget, ?_, ?_, fun key hkey => ?_,
    fun key hkey other hother => ?_, ?_⟩
  · rw [keys_getNeighborsAndBudgets, ← hall]
    exact fun key hkey =>
      List.mem_toFinset.mpr (List.mem_of_mem_take (List.mem_toFinset.mp hkey))
  · rw [sum_keys_getNeighborsAndBudgets hnodup, sum_getNeighborsAndBudgets hsome]
  · obtain ⟨p, hp, hat⟩ := exists_at_getNeighborsAndBudgets hnodup hkey
    rw [hat]
    exact UInt64.le_iff_toNat_le.mpr (getNeighborsAndBudgets_pos hp)
  · obtain ⟨p, hp, hat⟩ := exists_at_getNeighborsAndBudgets hnodup hkey
    obtain ⟨q, hq, hat'⟩ := exists_at_getNeighborsAndBudgets hnodup hother
    rw [hat, hat']
    exact getNeighborsAndBudgets_even hp hq
  · rw [keys_getNeighborsAndBudgets,
      List.toFinset_card_of_nodup (hnodup.sublist (List.take_sublist _ _)), List.length_take,
      ← hall, List.toFinset_card_of_nodup hnodup, Nat.min_comm]

theorem mem_neighbors {key : String} : key ∈ n.neighbors without ↔
    n.routingTable.lookup key = some key ∧ n.myAddr ≠ key ∧ key ≠ without := by
  rw [neighbors, Finset.mem_filter, Finmap.mem_keys]
  exact and_iff_right_of_imp fun h => Finmap.mem_of_lookup_eq_some h.1

/-- A route that is learned from a request gives no neighbour but the one it came from. -/
theorem neighbors_setRoutingEntry {origin : String} (hnew : origin ∉ n.routingTable) :
    (n.setRoutingEntry origin relayedBy).neighbors relayedBy = n.neighbors relayedBy := by
  have hmissing : n.routingTable.lookup origin = none := Finmap.lookup_eq_none.mpr hnew
  ext key
  rw [mem_neighbors, mem_neighbors, setRoutingEntry]
  by_cases hkey : key = origin
  · rw [hkey, hmissing]
    split_ifs
    · simp
    · rw [Finmap.lookup_insert]
      refine iff_of_false ?_ (by simp)
      rintro ⟨heq, _, hne⟩
      exact hne (Option.some.inj heq).symm
  · split_ifs
    · rw [Finmap.lookup_erase_ne hkey]
    · rw [Finmap.lookup_insert_of_ne _ hkey]

/-- The neighbours a request is passed on to are those that the node had before. -/
theorem neighbors_learned (n : SearchNode) (origin relayedBy : String) :
    SearchNode.neighbors (if origin ∈ n.routingTable then n
      else n.setRoutingEntry origin relayedBy) relayedBy = n.neighbors relayedBy := by
  split_ifs with hknown
  · rfl
  · exact neighbors_setRoutingEntry hknown

theorem searchFile_eq_nil_iff (hbudget : msg.budget ≠ 0)
    (h : n.searchFile msg relayedBy shuffled = some packets) :
    packets = [] ↔ n.neighbors relayedBy = ∅ := by
  rw [searchFile] at h
  split_ifs at h with horder
  obtain rfl := Option.some.inj h
  have hfst := congrArg List.length (fst_getNeighborsAndBudgets shuffled msg.budget)
  rw [List.length_map, List.length_take] at hfst
  have hpos : msg.budget.toNat ≠ 0 := fun hzero => hbudget (UInt64.toNat_inj.mp hzero)
  rw [← horder.2, List.toFinset_eq_empty_iff, ← List.length_eq_zero_iff, List.length_map, hfst,
    ← List.length_eq_zero_iff]
  omega

/-- The requests passed on stay within the budget exactly when there is one, or nobody to pass
them on to. -/
theorem forwardsWithin_iff
    (h : n.execSearchRequestMessage msg relayedBy shuffled = some (n', packets)) :
    ForwardsWithin msg.budget packets ↔ 1 ≤ msg.budget ∨ n.neighbors relayedBy = ∅ := by
  by_cases hzero : msg.budget = 0
  · -- the decrement leaves the largest budget there is
    have hnone : ¬ 1 ≤ msg.budget := by
      rw [hzero]
      decide
    have hwraps : msg.budget - 1 ≠ 0 := by
      rw [hzero]
      decide
    unfold execSearchRequestMessage at h
    dsimp only at h
    rw [if_pos (UInt64.pos_iff_ne_zero.mpr hwraps)] at h
    obtain ⟨ps, hps, heq⟩ := Option.map_eq_some_iff.mp h
    obtain ⟨-, rfl⟩ := Prod.mk.inj heq
    rw [← neighbors_learned n msg.origin relayedBy, ← searchFile_eq_nil_iff hwraps hps,
      or_iff_right hnone]
    constructor
    · intro hwithin
      exact hwithin.2 hzero
    · intro hnil
      exact ⟨fun hone => absurd hone hnone, fun _ => hnil⟩
  · have hone : 1 ≤ msg.budget := UInt64.pos_iff_ne_zero.mpr hzero
    have hparts := (execSearchRequestMessage_splits (UInt64.le_iff_toNat_le.mp hone) h).parts
    refine iff_of_true ⟨fun _ => ?_, fun heq => absurd heq hzero⟩ (.inl hone)
    have hsum := hparts.sum_le
    rwa [Multiset.sum_coe] at hsum

end SearchNode

namespace Sample

open SearchNode

def searchOfC (budget : UInt64) : SearchRequestMessage := ⟨"q", "C", ".*", budget⟩

/-- Without a budget it is passed on with the largest one. -/
theorem forwards_counterexample : ∃ n packets,
    (triangle "A").execSearchRequestMessage (searchOfC 0) "C" ["B"] = some (n, packets) ∧
      (packets.map fun p => p.msg.budget.toNat) = [2 ^ 64 - 1] ∧
      ¬ ForwardsWithin (searchOfC 0).budget packets := by
  have hbudgets : ((triangle "A").execSearchRequestMessage (searchOfC 0) "C" ["B"]).map
      (fun r => r.2.map fun p => p.msg.budget.toNat) = some [2 ^ 64 - 1] := by decide
  obtain ⟨⟨n, packets⟩, hexec, hpackets⟩ := Option.map_eq_some_iff.mp hbudgets
  refine ⟨n, packets, hexec, hpackets, fun hwithin => ?_⟩
  rw [hwithin.2 rfl] at hpackets
  cases hpackets

theorem forwardsWithin_iff_searchOfC : ∃ n packets,
    (triangle "A").execSearchRequestMessage (searchOfC 3) "C" ["B"] = some (n, packets) ∧
      (ForwardsWithin (searchOfC 3).budget packets ↔
        1 ≤ (searchOfC 3).budget ∨ (triangle "A").neighbors "C" = ∅) := by
  have hsome : ((triangle "A").execSearchRequestMessage (searchOfC 3) "C" ["B"]).isSome := by
    decide
  obtain ⟨⟨n, packets⟩, hexec⟩ := Option.isSome_iff_exists.mp hsome
  exact ⟨n, packets, hexec, forwardsWithin_iff hexec⟩

theorem splitEvenly_triangle : ∃ res,
    (triangle "A").getNeighborsAndBudgets "" 5 ["C", "B"] = some res ∧
      SplitEvenly ((triangle "A").neighbors "") 5 res :=
  splitEvenly_getNeighborsAndBudgets (by decide) (by decide) (by decide) 5

end Sample

end JobPortal.Sharing

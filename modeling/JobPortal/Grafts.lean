import JobPortal.RumorNodes
import JobPortal.Texts

/-! The answer to a Graft. The rumor it asks for is named by a text that is taken apart and read as
bounds of a slice, without a look at the length of the list. -/
namespace JobPortal.Gossip

open NumberedLogs

variable {A S : Type}

/-- The answer to a Graft is the entry at one place, of the list or of what is behind its end. -/
theorem execGraftMessage_eq_some {t : SafeRumorTable (Message A)} {spare : String → ℕ}
    {source : String} {seq : ℤ} (hseq : -2 ^ 63 ≤ seq ∧ seq < 2 ^ 63)
    {rumors : List (Rumor (Message A))} :
    execGraftMessage t spare source seq = some rumors ↔
      seq ≠ 0 ∧ ∃ r, rumors = [r] ∧
        (t.list source ++ List.replicate (spare source) Rumor.zero)[uint seq - 1]? = some r := by
  rw [execGraftMessage, SafeRumorTable.getInterval]
  generalize hl : t.list source ++ List.replicate (spare source) Rumor.zero = l
  have hlen : (t.list source).length + spare source = l.length := by simp [← hl]
  rw [hlen]
  by_cases hzero : seq = 0
  · subst hzero
    simp [uint]
  · have hnext : uint seq = uint (seq - 1) + 1 := by
      unfold uint
      omega
    rw [hnext]
    have hone : ∀ i (hi : i < l.length), (l.take (i + 1)).drop i = [l[i]] := by
      intro i hi
      rw [List.drop_take, Nat.add_sub_cancel_left, List.take_one_drop_eq_of_lt_length hi]
      rfl
    rw [if_congr (and_iff_right (Nat.le_succ _)) rfl rfl, Option.ite_none_right_eq_some]
    simp only [Nat.succ_le_iff, Option.some.injEq, Nat.add_sub_cancel]
    constructor
    · rintro ⟨hlt, rfl⟩
      exact ⟨hzero, _, hone _ hlt, List.getElem?_eq_getElem hlt⟩
    · rintro ⟨_, r, rfl, hr⟩
      obtain ⟨hlt, rfl⟩ := List.getElem?_eq_some_iff.mp hr
      exact ⟨hlt, hone _ hlt⟩

def Requested (msgHash : String) (r : Rumor (Message A)) : Prop :=
  ∃ source seq rest, msgHash.splitOn ";" = source :: seq :: rest ∧ r.origin = source ∧
    (r.sequence : ℤ) = atoi seq

theorem Host.graftAnswer_eq_some {C : Host A S} {st : GossipState A S} {msgHash : String}
    {rumors : List (Rumor (Message A))} :
    C.graftAnswer st msgHash = some rumors ↔
      ∃ source seq rest, msgHash.splitOn ";" = source :: seq :: rest ∧ atoi seq ≠ 0 ∧
        ∃ r, rumors = [r] ∧ (st.rumorTable.list source ++
          List.replicate (C.spare st.rumorTable source) Rumor.zero)[uint (atoi seq) - 1]? =
            some r := by
  rw [Host.graftAnswer]
  constructor
  · intro h
    split at h
    · next source seq rest hsplit =>
      exact ⟨source, seq, rest, hsplit, (execGraftMessage_eq_some (atoi_mem_Ico seq)).mp h⟩
    · cases h
  · rintro ⟨source, seq, rest, hsplit, h⟩
    rw [hsplit]
    exact (execGraftMessage_eq_some (atoi_mem_Ico seq)).mpr h

namespace RumorNode

variable {C : Host A S} {hdr : Header} {st : RumorNode A S} {msgHash : String}

theorem execGraft_of_none (h : C.graftAnswer st.toGossipState msgHash = none) :
    (execGraft C hdr st msgHash).2 = false := by
  simp only [execGraft, setTree_core, h]

theorem execGraft_eq {r : Rumor (Message A)}
    (h : C.graftAnswer st.toGossipState msgHash = some [r]) :
    (execGraft C hdr st msgHash).1 =
      (st.setTree (treeOf msgHash) ((st.tree (treeOf msgHash)).moveToEager hdr.source)).note
        (.answer hdr.source hdr.packetID [r]) := by
  simp only [execGraft, setTree_core, h]

theorem execGraft_of_some {r : Rumor (Message A)}
    (h : C.graftAnswer st.toGossipState msgHash = some [r]) :
    (execGraft C hdr st msgHash).2 = true ∧ (execGraft C hdr st msgHash).1.log =
      st.log ++ [Act.answer hdr.source hdr.packetID [r]] := by
  simp only [execGraft, setTree_core, h]
  exact ⟨trivial, rfl⟩

variable (C hdr st msgHash) in
/-- A Graft is answered with what the table holds of the origin under the number that it asks for,
and with nothing where there is no such rumor. -/
structure GraftAnswered : Prop where
  returns : (execGraft C hdr st msgHash).2 = true
  stored : ∀ a ∈ (execGraft C hdr st msgHash).1.log.drop st.log.length,
    ∃ rumors, a = .answer hdr.source hdr.packetID rumors ∧
      ∀ r ∈ rumors, Requested msgHash r ∧ r ∈ st.rumorTable.list r.origin
  silent : (∀ o, ∀ r ∈ st.rumorTable.list o, ¬ Requested msgHash r) →
    (execGraft C hdr st msgHash).1.log = st.log

theorem graftAnswered_iff_requested :
    GraftAnswered C hdr st msgHash ↔ ∃ r, C.graftAnswer st.toGossipState msgHash = some [r] ∧
      Requested msgHash r ∧ r ∈ st.rumorTable.list r.origin := by
  constructor
  · intro h
    rcases hanswer : C.graftAnswer st.toGossipState msgHash with _ | rumors
    · exact absurd h.returns (by simp [execGraft_of_none hanswer])
    · obtain ⟨_, _, _, _, _, r, rfl, _⟩ := Host.graftAnswer_eq_some.mp hanswer
      have hstored := h.stored
      rw [(execGraft_of_some hanswer).2, List.drop_left] at hstored
      obtain ⟨rumors, heq, hall⟩ := hstored _ (List.mem_singleton_self _)
      obtain rfl : [r] = rumors := (Act.answer.inj heq).2.2
      exact ⟨r, rfl, hall r (List.mem_singleton_self r)⟩
  · rintro ⟨r, hanswer, hrequested, hmem⟩
    have hgraft : (execGraft C hdr st msgHash).2 = true ∧ _ := execGraft_of_some hanswer
    obtain ⟨hreturns, hlog⟩ := hgraft
    refine ⟨hreturns, ?_, fun hnone => absurd hrequested (hnone r.origin r hmem)⟩
    rw [hlog, List.drop_left]
    intro a ha
    refine ⟨[r], List.mem_singleton.mp ha, fun q hq => ?_⟩
    rw [List.mem_singleton.mp hq]
    exact ⟨hrequested, hmem⟩

/-- The handler is right about the hashes that have a number in their second part, from one to the
length of the list. -/
theorem graftAnswered_iff :
    GraftAnswered C hdr st msgHash ↔
      ∃ source seq rest, msgHash.splitOn ";" = source :: seq :: rest ∧ 1 ≤ atoi seq ∧
        atoi seq ≤ (st.rumorTable.list source).length := by
  rw [graftAnswered_iff_requested]
  constructor
  · rintro ⟨r, hanswer, ⟨source, seq, rest, hsplit, rfl, hseq⟩, hmem⟩
    obtain ⟨i, hi, hat⟩ := (st.rumorTable.numbered r.origin).eq_of_mem hmem
    have hlt : i < (st.rumorTable.list r.origin).length := (List.getElem?_eq_some_iff.mp hat).1
    exact ⟨r.origin, seq, rest, hsplit, by omega, by omega⟩
  · rintro ⟨source, seq, rest, hsplit, hlo, hhi⟩
    have huint : uint (atoi seq) = (atoi seq).toNat := by
      have := atoi_mem_Ico seq
      unfold uint
      omega
    have hlt : uint (atoi seq) - 1 < (st.rumorTable.list source).length := by omega
    have hat := List.getElem?_eq_getElem hlt
    have hmem := List.mem_of_getElem? hat
    have horigin := st.rumorTable.origins source _ hmem
    have hnumber := st.rumorTable.numbered source _ _ hat
    refine ⟨_, Host.graftAnswer_eq_some.mpr ⟨source, seq, rest, hsplit, by omega, _, rfl, ?_⟩,
      ⟨source, seq, rest, hsplit, horigin, by omega⟩, horigin.symm ▸ hmem⟩
    rw [List.getElem?_append_left hlt, hat]

end RumorNode

namespace Sample

open RumorNode

def fromC : Header := ⟨"1", "C", "C"⟩

def rumorsOfA (n : ℕ) : RumorNode Unit Unit :=
  { newNode "b" () with
    rumorTable := (fun t => (t.newRumorsMessage "a" (.other ())).1)^[n] .new }

def roomyHost : Host Unit Unit := { emptyHost with spare := fun _ _ => 1 }

/-- A Graft for the rumor after the last one and a Graft without a number make the handler panic,
or it sends a rumor that nobody made. -/
theorem graft_counterexample :
    ¬ GraftAnswered emptyHost fromC (rumorsOfA 1) "a;2" ∧
      ¬ GraftAnswered emptyHost fromC (rumorsOfA 1) "a" ∧
      ¬ GraftAnswered roomyHost fromC (rumorsOfA 3) "a;4" := by
  have hsecond : "a;2".splitOn ";" = ["a", "2"] := (Texts.splitOn_singleton _ ';').trans (by decide)
  have hbare : "a".splitOn ";" = ["a"] := (Texts.splitOn_singleton _ ';').trans (by decide)
  have hfourth : "a;4".splitOn ";" = ["a", "4"] := (Texts.splitOn_singleton _ ';').trans (by decide)
  refine ⟨fun h => ?_, fun h => ?_, fun h => ?_⟩
  · have hnone : emptyHost.graftAnswer (rumorsOfA 1).toGossipState "a;2" = none := by
      rw [Host.graftAnswer, hsecond]
      decide
    exact absurd h.returns (by simp [execGraft_of_none hnone])
  · have hnone : emptyHost.graftAnswer (rumorsOfA 1).toGossipState "a" = none := by
      rw [Host.graftAnswer, hbare]
    exact absurd h.returns (by simp [execGraft_of_none hnone])
  · have hzero : roomyHost.graftAnswer (rumorsOfA 3).toGossipState "a;4" = some [Rumor.zero] := by
      rw [Host.graftAnswer, hfourth]
      rfl
    obtain ⟨r, hr, _, hmem⟩ := graftAnswered_iff_requested.mp h
    obtain rfl : Rumor.zero = r := by simpa using Option.some.inj (hzero.symm.trans hr)
    have hnil : (rumorsOfA 3).rumorTable.list "" = [] := rfl
    rw [Rumor.zero, hnil] at hmem
    cases hmem

end Sample

end JobPortal.Gossip

import JobPortal.Histories
import JobPortal.PbftMutexes

/-! When calls of a PBFT node wait for ever. A handler may return with `pbft.lock` locked: on the
rejection of a PrePrepare, and where a node configured with no peers at all panics on a division.
A call may wait for the tree while it has it, or while it has `pbft.lock` and the tree is with a
call that waits for that. -/
namespace JobPortal

open Goroutines Histories Runs

variable (P : Primitives)

namespace Replica

variable (s : Replica)

def Waits (ops : List CallOp) : Prop :=
  asks P s.node.myAddr ops = some .held ∨
    .unlockTree ∈ ops ∧ asks P s.node.myAddr ops = some .tree

instance (ops : List CallOp) : Decidable (s.Waits P ops) :=
  inferInstanceAs (Decidable (_ ∨ _ ∧ _))

/-- Some call has the tree and waits for a mutex before it gives it back. -/
def TreeAsks : Prop :=
  ∃ ops ∈ s.calls, .unlockTree ∈ ops ∧ asks P s.node.myAddr ops ≠ none

instance : Decidable (s.TreeAsks P) :=
  inferInstanceAs (Decidable (∃ ops ∈ s.calls, _ ∧ _))

/-- Some call has `pbft.lock` and broadcasts before it gives it back. -/
def LockSends : Prop := ∃ ops ∈ s.calls, sends ops = true

instance : Decidable s.LockSends := inferInstanceAs (Decidable (∃ ops ∈ s.calls, _))

/-- The next step of a call makes calls wait for ever. -/
def JamsAt (rest : List CallOp) : CallOp → Prop
  -- the rejection keeps the lock, and the Prepare is broadcast after it
  | .enter (.prePrepare pp) => s.node.Conflicts pp ∨ .unlockTree ∈ rest
  | .enter (.prepare pre) =>
    if (s.node.storePrepare pre).Prepares pre.pbftID then s.TreeAsks P else s.Waits P rest
  | .enter (.commit c) =>
    (s.node.storeCommit c).Commits c.pbftID ∧ s.node.totalPeers = 0 ∨ s.Waits P rest
  | .enter (.checkpoint _) => s.Waits P rest
  | .enter (.pbftTLC _) => False
  | .advance step _ => ¬ s.node.pbft.Advances step ∧ s.Waits P rest
  | .turnBad => s.Waits P rest
  | .propose _ => s.TreeAsks P
  | .broadcast m => m.srcAddr ≠ some s.node.myAddr ∧ m.fails P = false ∧ s.LockSends
  | .useTree again => again = true
  | .keepTree =>
    asks P s.node.myAddr rest ≠ none ∧ (asks P s.node.myAddr rest = some .lock → s.LockSends)
  | .unlockTree => asks P s.node.myAddr rest = some .held
  | .handle _ | .getStep | .verify _ | .unlock | .lockAgain => False

instance (rest : List CallOp) : (op : CallOp) → Decidable (s.JamsAt P rest op)
  | .enter (.prePrepare _) => inferInstanceAs (Decidable (_ ∨ _))
  | .enter (.prepare pre) =>
    inferInstanceAs (Decidable (if (s.node.storePrepare pre).Prepares pre.pbftID then s.TreeAsks P
      else s.Waits P rest))
  | .enter (.commit _) => inferInstanceAs (Decidable (_ ∧ _ ∨ _))
  | .enter (.checkpoint _) => inferInstanceAs (Decidable (s.Waits P rest))
  | .enter (.pbftTLC _) => isFalse id
  | .advance .. => inferInstanceAs (Decidable (¬ _ ∧ _))
  | .turnBad => inferInstanceAs (Decidable (s.Waits P rest))
  | .propose _ => inferInstanceAs (Decidable (s.TreeAsks P))
  | .broadcast _ => inferInstanceAs (Decidable (_ ∧ _ ∧ _))
  | .useTree _ => inferInstanceAs (Decidable (_ = _))
  | .keepTree => inferInstanceAs (Decidable (_ ∧ (_ → _)))
  | .unlockTree => inferInstanceAs (Decidable (_ = _))
  | .handle _ | .getStep | .verify _ | .unlock | .lockAgain => isFalse id

def Jams : ReplicaEvent → Prop
  | .receive packet => asks P s.node.myAddr (packet.map Delivery.op) = some .held
  | .step i => ∀ ops ∈ s.calls[i]?, ∃ op ∈ ops.head?, s.JamsAt P ops.tail op
  | .drop i => ∀ ops ∈ s.calls[i]?, asks P s.node.myAddr ops.tail = some .held
  | .tag .. | .turnBad | .useTree _ | .wake _ => False

instance : (e : ReplicaEvent) → Decidable (s.Jams P e)
  | .receive _ => inferInstanceAs (Decidable (_ = _))
  | .step i => inferInstanceAs (Decidable (∀ ops ∈ s.calls[i]?, ∃ op ∈ ops.head?, _))
  | .drop i => inferInstanceAs (Decidable (∀ ops ∈ s.calls[i]?, _ = _))
  | .tag .. | .turnBad | .useTree _ | .wake _ => isFalse id

inductive Stuck : Prop
  | orphaned (locked : s.node.pbft.lock = true) (nobody : ∀ ops ∈ s.calls, .unlock ∉ ops)
  | waiting {ops : List CallOp} (call : ops ∈ s.calls) (waits : s.Waits P ops)
  | crossed (sends : s.LockSends) (asks : s.TreeAsks P)

def Settled : Prop := ∀ i, s.step P (.step i) = none

/-- The Processor may take a packet, and all calls have returned but those of Tag, which are
between two passes. -/
structure AtRest : Prop where
  processor : s.calls.head? = some []
  others : ∀ ops ∈ s.calls, ops = [] ∨ ∃ call, ops = [.verify call]

variable {P} {s} {t : Replica} {op : CallOp} {rest ops : List CallOp} {i : ℕ}

theorem jams_step_iff (hcall : s.calls[i]? = some (op :: rest)) :
    s.Jams P (.step i) ↔ s.JamsAt P rest op := by
  simp [Jams, hcall]

theorem next_eq_none (h : s.next P rest op = none) :
    asks P s.node.myAddr (op :: rest) = some .lock ∧ s.node.pbft.lock = true ∨
      asks P s.node.myAddr (op :: rest) = some .tree ∧ s.tree = true ∨
      asks P s.node.myAddr (op :: rest) = some .held := by
  cases op with
  | handle m =>
    simp only [next] at h
    split_ifs at h
  | enter m => exact .inl ⟨rfl, by simpa [next] using h⟩
  | getStep => exact .inl ⟨rfl, by simpa [next] using h⟩
  | advance step catchUp => exact .inl ⟨rfl, by simpa [next] using h⟩
  | turnBad => exact .inl ⟨rfl, by simpa [next] using h⟩
  | propose call => exact .inl ⟨rfl, by simpa [next] using h⟩
  | broadcast m => exact .inr (.inl ⟨rfl, by simpa [next] using h⟩)
  | useTree again => exact .inr (.inl ⟨rfl, by simpa [next] using h⟩)
  | keepTree => exact .inr (.inl ⟨rfl, by simpa [next] using h⟩)
  | lockAgain => exact .inr (.inr rfl)
  | verify call => cases h
  | unlock => cases h
  | unlockTree => cases h

theorem Settled.next (h : s.Settled P) (hcall : op :: rest ∈ s.calls) (hop : isVerify op = false) :
    s.next P rest op = none := by
  obtain ⟨i, hi⟩ := List.mem_iff_getElem?.mp hcall
  have hstep := h i
  simp only [step, go, hi, hop] at hstep
  simpa using hstep

theorem sends_of_next (hshape : Shape s.node.myAddr (op :: rest)) (hmem : .unlock ∈ op :: rest)
    (hnext : s.next P rest op = none) : sends (op :: rest) = true ∧ s.tree = true := by
  cases hshape with
  | plain all => cases all _ hmem
  | verify => cases hnext
  | propose => simp at hmem
  | unlock => cases hnext
  | next => cases hnext
  | broadcast own shape =>
    have hrest : .unlock ∈ rest := by simpa using hmem
    exact ⟨by simp [sends, hrest], by simpa [next] using hnext⟩
  | handle own shape =>
    simp [next, own] at hnext
  | unlockTree => cases hnext

/-- The head of a call that has a mutex is not the start of a pass. -/
theorem isVerify_eq_false (hshape : Shape s.node.myAddr (op :: rest)) {a : CallOp}
    (ha : isVerify a = false) (hmem : a ∈ op :: rest) : isVerify op = false := by
  cases op with
  | verify call =>
    rw [hshape.rest_of_verify, List.mem_singleton] at hmem
    rw [hmem] at ha
    cases ha
  | _ => rfl

/-- If no call can go on, none is left, unless some are stuck. -/
theorem Sound.atRest (hs : s.Sound) (hfree : ¬ s.Stuck P) (h : s.Settled P) :
    s.AtRest ∧ s.node.pbft.lock = false := by
  -- a call that has `pbft.lock` has the tree to wait for
  have hlock (hlocked : s.node.pbft.lock = true) : s.LockSends ∧ s.tree = true := by
    by_contra hno
    refine hfree (.orphaned hlocked fun ops hops hmem => hno ?_)
    cases ops with
    | nil => cases hmem
    | cons op rest =>
      have hshape := hs.shape _ hops
      have hnext := h.next hops (isVerify_eq_false hshape rfl hmem)
      obtain ⟨hsends, htree⟩ := sends_of_next hshape hmem hnext
      exact ⟨⟨_, hops, hsends⟩, htree⟩
  have htree : s.tree = false := by
    by_contra hno
    have htree := Bool.eq_true_of_not_eq_false hno
    have hwork : work (List.count .unlockTree) s.calls ≠ 0 := by
      rw [hs.tree, htree]
      exact Nat.one_ne_zero
    obtain ⟨ops, hops, hcount⟩ : ∃ ops ∈ s.calls, ops.count .unlockTree ≠ 0 := by
      by_contra hall
      exact hwork (work_eq_zero.mpr fun ops hops => of_not_not fun hne => hall ⟨ops, hops, hne⟩)
    have hmem : .unlockTree ∈ ops := List.count_pos_iff.mp (Nat.pos_of_ne_zero hcount)
    cases ops with
    | nil => cases hmem
    | cons op rest =>
      have hnext := h.next hops (isVerify_eq_false (hs.shape _ hops) rfl hmem)
      rcases next_eq_none hnext with ⟨hasks, hlocked⟩ | ⟨hasks, _⟩ | hasks
      · exact hfree (.crossed (hlock hlocked).1 ⟨_, hops, hmem, by simp [hasks]⟩)
      · exact hfree (.waiting hops (.inr ⟨hmem, hasks⟩))
      · exact hfree (.waiting hops (.inl hasks))
  have hunlocked : s.node.pbft.lock = false := by
    by_contra hno
    have := (hlock (Bool.eq_true_of_not_eq_false hno)).2
    rw [htree] at this
    cases this
  have hothers : ∀ ops ∈ s.calls, ops = [] ∨ ∃ call, ops = [.verify call] := by
    intro ops hops
    cases ops with
    | nil => exact .inl rfl
    | cons op rest =>
      right
      cases hop : isVerify op with
      | true =>
        cases op with
        | verify call => exact ⟨call, by rw [(hs.shape _ hops).rest_of_verify]⟩
        | _ => cases hop
      | false =>
        rcases next_eq_none (h.next hops hop) with ⟨_, hlocked⟩ | ⟨_, hlocked⟩ | hasks
        · rw [hunlocked] at hlocked
          cases hlocked
        · rw [htree] at hlocked
          cases hlocked
        · exact (hfree (.waiting hops (.inl hasks))).elim
  refine ⟨⟨?_, hothers⟩, hunlocked⟩
  obtain ⟨ops, hops, htagging⟩ := hs.processor
  rcases hothers ops (List.mem_of_mem_head? hops) with rfl | ⟨call, rfl⟩
  · exact hops
  · cases htagging _ (List.mem_singleton_self _)

theorem jamsAt_enter {m : Message} (calm : ¬ s.node.Keeps m) (alone : ¬ s.node.Announces m)
    (signed : ∀ tlc, m ≠ .pbftTLC tlc) (silent : ∀ pp, m ≠ .prePrepare pp) :
    s.JamsAt P rest (.enter m) ↔ s.Waits P rest := by
  cases m with
  | prePrepare pp => exact absurd rfl (silent pp)
  | prepare pre =>
    have hshort : ¬ (s.node.storePrepare pre).Prepares pre.pbftID := alone
    rw [JamsAt, if_neg hshort]
  | commit c => exact or_iff_right calm
  | checkpoint cp => exact Iff.rfl
  | pbftTLC tlc => exact absurd rfl (signed tlc)

theorem Sound.not_mem_rest (hs : s.Sound) (hcall : s.calls[i]? = some (.unlockTree :: rest)) :
    .unlockTree ∉ rest := by
  have hle := weight_le_work (List.count .unlockTree) hcall
  have htree := hs.tree
  have hone := Bool.toNat_le s.tree
  rw [List.count_cons_self] at hle
  exact List.count_eq_zero.mp (by omega)

section Steps

variable (h : s.Moves P rest op t ops) (hs : s.Sound) (hcall : s.calls[i]? = some (op :: rest))

include h hs hcall

theorem Moves.not_waits (hold : ¬ s.Waits P (op :: rest)) (hjam : ¬ s.JamsAt P rest op) :
    ¬ s.Waits P ops := by
  have hshape := hs.shape _ (List.mem_of_getElem? hcall)
  intro hwaits
  cases h with
  | ignored own => exact hold (by simpa [Waits, asks, own] using hwaits)
  | failed => simp [Waits, asks_abandon] at hwaits
  | passed => simp [Waits, asks] at hwaits
  | kept => simp [Waits, asks_abandon] at hwaits
  | entered free calm alone signed silent =>
    exact hjam ((jamsAt_enter calm alone signed silent).mpr hwaits)
  | answered => exact hjam (.inr (by simpa [Waits, asks] using hwaits))
  | completed free enough =>
    refine hjam ?_
    rw [JamsAt, if_pos enough]
    refine ⟨_, List.mem_of_getElem? hcall, ?_, by simp [asks]⟩
    simpa [Waits, asks] using hwaits
  | received => simp [Waits, asks] at hwaits
  | getStep => simp [Waits, asks] at hwaits
  | stopped free stays => exact hjam ⟨hs.tlcs.getPbftBlockAndAdvance_eq_none.mp stays, hwaits⟩
  | advanced => simp [Waits, asks] at hwaits
  | turnBad => exact hjam hwaits
  | returned => simp [hshape.rest_of_verify, Waits, asks] at hwaits
  | verified => simp [hshape.rest_of_verify, Waits, asks] at hwaits
  | proposed =>
    rw [hshape.rest_of_propose, Node.tagSection] at hwaits
    split_ifs at hwaits <;> simp [Waits, asks] at hwaits
  | unlock => exact hold (by simpa [Waits, asks] using hwaits)
  | broadcast =>
    simp only [Waits, asks] at hwaits
    split_ifs at hwaits <;> simp at hwaits
  | @useTree again =>
    have hagain : again = false := Bool.eq_false_of_not_eq_true hjam
    simp [hagain, CallOp.inside, Waits, asks] at hwaits
  | keepTree =>
    rw [Waits, asks_append_unlockTree] at hwaits
    refine hjam ⟨fun hnone => ?_, fun hlock => ?_⟩
    · simp [hnone] at hwaits
    · simp [hlock] at hwaits
  | unlockTree => exact hwaits.elim hjam fun hw => hs.not_mem_rest hcall hw.1

/-- A call that comes to broadcast with `pbft.lock` did so before, or no call with the tree
waits. -/
theorem Moves.sends_before (hjam : ¬ s.JamsAt P rest op) (hsends : sends ops = true) :
    sends (op :: rest) = true ∨ ¬ s.TreeAsks P ∧ .unlockTree ∉ ops := by
  have hshape := hs.shape _ (List.mem_of_getElem? hcall)
  have hplain (hops : ∀ op ∈ ops, op.plain = true) : False := by
    rw [sends_of_plain (count_unlock_of_plain hops)] at hsends
    cases hsends
  cases h with
  | ignored => exact .inl hsends
  | failed => exact (hplain (plain_abandon rest)).elim
  | passed => exact .inl hsends
  | kept => exact (hplain (plain_abandon rest)).elim
  | entered => exact .inl hsends
  | answered =>
    have hrest := hshape.plain_rest rfl nofun nofun nofun
    exact (hplain (List.forall_mem_cons.mpr ⟨rfl, hrest⟩)).elim
  | completed free enough =>
    rw [JamsAt, if_pos enough] at hjam
    refine .inr ⟨hjam, fun hmem => hjam ⟨_, List.mem_of_getElem? hcall, ?_, by simp [asks]⟩⟩
    simpa using hmem
  | received => exact .inl hsends
  | getStep => exact .inl hsends
  | stopped => exact .inl hsends
  | advanced => exact .inl hsends
  | turnBad => exact .inl hsends
  | returned => exact .inl hsends
  | verified => exact .inl hsends
  | proposed => exact .inr ⟨hjam, by simp [hshape.rest_of_propose]⟩
  | unlock => exact .inl hsends
  | broadcast => exact .inl (by simpa [sends] using Or.inr hsends)
  | @useTree again =>
    cases again with
    | false => exact .inl hsends
    | true => exact .inl hsends
  | keepTree => exact (hplain hshape.plain_keepTree).elim
  | unlockTree => exact .inl hsends

/-- A call that comes to wait with the tree did so before, or no call with `pbft.lock`
broadcasts. -/
theorem Moves.asks_before (hjam : ¬ s.JamsAt P rest op) (hmem : .unlockTree ∈ ops)
    (hasks : asks P s.node.myAddr ops ≠ none) :
    .unlockTree ∈ op :: rest ∧ asks P s.node.myAddr (op :: rest) ≠ none ∨
      ¬ s.LockSends ∧ sends ops = false := by
  have hshape := hs.shape _ (List.mem_of_getElem? hcall)
  have hquiet (hno : ¬ s.LockSends) : sends (op :: rest) = false :=
    Bool.eq_false_of_not_eq_true fun hsends => hno ⟨_, List.mem_of_getElem? hcall, hsends⟩
  cases h with
  | ignored own => exact .inl ⟨List.mem_cons_of_mem _ hmem, by rwa [asks, if_pos own]⟩
  | failed => exact absurd (asks_abandon rest) hasks
  | passed other passes =>
    exact .inl ⟨by simpa using hmem, by simp [asks, other, passes]⟩
  | kept => exact absurd (asks_abandon rest) hasks
  | entered => exact .inl ⟨List.mem_cons_of_mem _ hmem, by simp [asks]⟩
  | answered => exact .inl ⟨by simpa using hmem, by simp [asks]⟩
  | completed => exact .inl ⟨by simpa using hmem, by simp [asks]⟩
  | received => exact .inl ⟨by simpa using hmem, by simp [asks]⟩
  | getStep => exact .inl ⟨by simpa using hmem, by simp [asks]⟩
  | stopped => exact .inl ⟨List.mem_cons_of_mem _ hmem, by simp [asks]⟩
  | advanced => exact .inl ⟨by simpa using hmem, by simp [asks]⟩
  | turnBad => exact .inl ⟨List.mem_cons_of_mem _ hmem, by simp [asks]⟩
  | returned => simp [hshape.rest_of_verify] at hmem
  | verified => simp [hshape.rest_of_verify] at hmem
  | proposed => simp [hshape.rest_of_propose] at hmem
  | unlock => exact .inl ⟨List.mem_cons_of_mem _ hmem, hasks⟩
  | @broadcast m free =>
    have hno : ¬ s.LockSends := by
      simp only [asks] at hasks
      split_ifs at hasks with hown hfails
      · exact absurd rfl hasks
      · exact absurd rfl hasks
      · exact fun hsends => hjam ⟨hown, Bool.eq_false_of_not_eq_true hfails, hsends⟩
    refine .inr ⟨hno, ?_⟩
    have hrest := hquiet hno
    rw [sends, Bool.or_eq_false_iff] at hrest
    exact hrest.2
  | @useTree again =>
    have hagain : again = false := Bool.eq_false_of_not_eq_true hjam
    simp [hagain, CallOp.inside, asks] at hasks
  | keepTree =>
    rw [asks_append_unlockTree] at hasks
    have hno : ¬ s.LockSends := fun hsends => hjam ⟨hasks, fun _ => hsends⟩
    exact .inr ⟨hno, sends_of_plain (count_unlock_of_plain hshape.plain_keepTree)⟩
  | unlockTree => exact absurd hmem (hs.not_mem_rest hcall)

/-- What the step of a call can change about who waits for whom. -/
theorem Moves.not_stuck (hfree : ¬ s.Stuck P) (hjam : ¬ s.JamsAt P rest op) :
    ¬ Stuck P { t with calls := t.calls.set i ops } := by
  obtain ⟨hmy, _, new, hcalls, hnew⟩ := h.frame
  have hat := List.mem_of_getElem? hcall
  have hnow := getElem?_of_prefix (s.calls.prefix_append new) hcall
  have hshape := hs.shape _ hat
  have hmem {x : List CallOp} (hx : x ∈ t.calls.set i ops) : x = ops ∨ x ∈ s.calls ∨ x ∈ new := by
    rw [hcalls] at hx
    exact mem_set_append hx
  intro hstuck
  cases hstuck with
  | orphaned locked nobody =>
    dsimp only at locked nobody
    have hops : ops.count .unlock = 0 := by
      refine List.count_eq_zero.mpr (nobody ops ?_)
      rw [hcalls]
      exact mem_set_self hnow
    have hheld := (weight_le_work (List.count .unlock) hcall).trans hs.lock
    rcases h.count_unlock hshape hheld with ⟨m, rfl, hkeeps, _⟩ | ⟨_, hcount⟩
    · refine hjam ?_
      cases m with
      | prePrepare pp => exact .inl hkeeps
      | commit c => exact .inl hkeeps
      | prepare => exact hkeeps.elim
      | checkpoint => exact hkeeps.elim
      | pbftTLC => exact hkeeps.elim
    · rw [locked, hops, Bool.toNat_true] at hcount
      refine hfree (.orphaned ?_ fun x hx hunlock => ?_)
      · cases hlock : s.node.pbft.lock with
        | true => rfl
        | false => simp [hlock] at hcount
      · rcases mem_set_of_mem ops hnow (List.mem_append_left new hx) with rfl | hx
        · have hone := Bool.toNat_le s.node.pbft.lock
          have hpos := List.count_pos_iff.mpr hunlock
          omega
        · exact nobody x (hcalls ▸ hx) hunlock
  | @waiting x hx hwaits =>
    rw [Waits] at hwaits
    dsimp only at hx hwaits
    rw [hmy] at hwaits
    rcases hmem hx with rfl | hx | hx
    · exact h.not_waits hs hcall (fun hw => hfree (.waiting hat hw)) hjam hwaits
    · exact hfree (.waiting hx hwaits)
    · obtain ⟨tlc, rfl⟩ := hnew x hx
      simp [asks] at hwaits
  | crossed hsends hasks =>
    obtain ⟨a, ha, hsends⟩ := hsends
    obtain ⟨b, hb, htree, hasks⟩ := hasks
    dsimp only at ha hb hasks
    rw [hmy] at hasks
    have hb' : b = ops ∨ b ∈ s.calls := by
      rcases hmem hb with hb | hb | hb
      · exact .inl hb
      · exact .inr hb
      · obtain ⟨tlc, rfl⟩ := hnew b hb
        simp at htree
    have ha' : a = ops ∨ a ∈ s.calls := by
      rcases hmem ha with ha | ha | ha
      · exact .inl ha
      · exact .inr ha
      · obtain ⟨tlc, rfl⟩ := hnew a ha
        simp [sends] at hsends
    -- both were so before the step, or the step was allowed for want of the other
    have hbefore : s.LockSends ∨ ¬ s.TreeAsks P ∧ .unlockTree ∉ ops := by
      rcases ha' with rfl | ha
      · exact (h.sends_before hs hcall hjam hsends).imp (fun hold => ⟨_, hat, hold⟩) id
      · exact .inl ⟨a, ha, hsends⟩
    have hbefore' : s.TreeAsks P ∨ b = ops ∧ ¬ s.LockSends ∧ sends ops = false := by
      rcases hb' with rfl | hb
      · exact (h.asks_before hs hcall hjam htree hasks).imp
          (fun hold => ⟨_, hat, hold.1, hold.2⟩) fun hno => ⟨rfl, hno⟩
      · exact .inl ⟨b, hb, htree, hasks⟩
    rcases hbefore with hlock | ⟨hno, hnone⟩
    · rcases hbefore' with hwaits | ⟨_, hno, _⟩
      · exact hfree (.crossed hlock hwaits)
      · exact hno hlock
    · rcases hbefore' with hwaits | ⟨rfl, _⟩
      · exact hno hwaits
      · exact hnone htree

/-- A step that jams leaves some calls stuck. -/
theorem Moves.stuck_of_jamsAt (hjam : s.JamsAt P rest op) :
    Stuck P { t with calls := t.calls.set i ops } := by
  obtain ⟨hmy, _, new, hcalls, hnew⟩ := h.frame
  have hat := List.mem_of_getElem? hcall
  have hnow := getElem?_of_prefix (s.calls.prefix_append new) hcall
  have hshape := hs.shape _ hat
  have hops : ops ∈ t.calls.set i ops := by
    rw [hcalls]
    exact mem_set_self hnow
  have hwaiting (hwaits : s.Waits P ops) : Stuck P { t with calls := t.calls.set i ops } := by
    refine .waiting hops ?_
    rw [Waits] at hwaits ⊢
    dsimp only
    rwa [hmy]
  -- the other calls are still there
  have hother {x : List CallOp} (hx : x ∈ s.calls) (hne : x ≠ op :: rest) :
      x ∈ t.calls.set i ops := by
    rw [hcalls]
    exact (mem_set_of_mem ops hnow (List.mem_append_left new hx)).resolve_left hne
  cases h with
  | ignored => exact hjam.elim
  | failed => exact hjam.elim
  | passed => exact hjam.elim
  | @kept m n free keeps same locked =>
    refine .orphaned locked fun x hx hmem => ?_
    have hnone : work (List.count .unlock) s.calls = 0 := by
      have hlock := hs.lock
      rw [free] at hlock
      exact Nat.le_zero.mp hlock
    rcases List.mem_or_eq_of_mem_set hx with hx | rfl
    · exact List.count_eq_zero.mp (work_eq_zero.mp hnone x hx) hmem
    · exact List.count_eq_zero.mp (count_unlock_abandon rest) hmem
  | entered free calm alone signed silent =>
    exact hwaiting ((jamsAt_enter calm alone signed silent).mp hjam)
  | answered free fresh =>
    exact hwaiting (.inr ⟨List.mem_cons_of_mem _ (hjam.resolve_left fresh), rfl⟩)
  | @completed pre free enough =>
    rw [JamsAt, if_pos enough] at hjam
    obtain ⟨x, hx, hmem, hasks⟩ := hjam
    by_cases hne : x = .enter (.prepare pre) :: rest
    · subst hne
      exact hwaiting (.inr ⟨by simpa using hmem, rfl⟩)
    · exact .crossed ⟨_, hops, by simp [sends]⟩ ⟨x, hother hx hne, hmem, hasks⟩
  | received => exact hjam.elim
  | getStep => exact hjam.elim
  | stopped => exact hwaiting hjam.2
  | advanced free goes =>
    obtain ⟨hstep, hcons, _⟩ := SafePbft.getPbftBlockAndAdvance_eq_some goes
    exact absurd ⟨hstep, hcons⟩ hjam.1
  | turnBad => exact hwaiting hjam
  | returned => exact hjam.elim
  | verified => exact hjam.elim
  | @proposed call free =>
    obtain ⟨x, hx, hmem, hasks⟩ := hjam
    have hne : x ≠ .propose call :: rest := by
      rintro rfl
      simp [hshape.rest_of_propose] at hmem
    refine .crossed ⟨_, hops, ?_⟩ ⟨x, hother hx hne, hmem, ?_⟩
    · unfold Node.tagSection
      split_ifs <;> simp [sends]
    · dsimp only
      rwa [hmy]
  | unlock => exact hjam.elim
  | @broadcast m free =>
    obtain ⟨hown, hfails, x, hx, hsends⟩ := hjam
    have hne : x ≠ .broadcast m :: rest := by
      rintro rfl
      cases hshape with
      | plain all =>
        rw [sends_of_plain (count_unlock_of_plain all)] at hsends
        cases hsends
      | broadcast own shape => exact hown own
    refine .crossed ⟨x, hother hx hne, hsends⟩ ⟨_, hops, by simp, ?_⟩
    simp [asks, hown, hfails]
  | useTree free =>
    obtain rfl : _ = true := hjam
    exact hwaiting (.inr ⟨by simp [CallOp.inside], rfl⟩)
  | keepTree free =>
    obtain ⟨hasks, hcross⟩ := hjam
    obtain ⟨mutex, hmutex⟩ := Option.ne_none_iff_exists'.mp hasks
    cases mutex with
    | held => exact hwaiting (.inl (by rw [asks_append_unlockTree, hmutex]))
    | tree => exact hwaiting (.inr ⟨by simp, by rw [asks_append_unlockTree, hmutex]⟩)
    | lock =>
      obtain ⟨x, hx, hsends⟩ := hcross hmutex
      have hne : x ≠ .keepTree :: rest := by
        rintro rfl
        rw [hshape.sends_keepTree] at hsends
        cases hsends
      refine .crossed ⟨x, hother hx hne, hsends⟩ ⟨_, hops, by simp, ?_⟩
      dsimp only
      rwa [asks_append_unlockTree]
  | unlockTree => exact hwaiting (.inl hjam)

end Steps

theorem Moves.keeps_asks (h : s.Moves P rest op t ops) {mutex : Mutex}
    (hasks : asks P s.node.myAddr (op :: rest) = some mutex)
    (hlocked : mutex = .lock → s.node.pbft.lock = true) (htree : mutex = .tree → s.tree = true) :
    asks P s.node.myAddr ops = some mutex ∧ (.unlockTree ∈ op :: rest → .unlockTree ∈ ops) := by
  have hblocked (free : s.node.pbft.lock = false) (hlock : some Mutex.lock = some mutex) :
      False := by
    rw [hlocked (Option.some.inj hlock).symm] at free
    cases free
  have hblocked' (free : s.tree = false) (hlock : some Mutex.tree = some mutex) : False := by
    rw [htree (Option.some.inj hlock).symm] at free
    cases free
  cases h with
  | ignored own => exact ⟨by rwa [asks, if_pos own] at hasks, fun hmem => by simpa using hmem⟩
  | failed other fails => simp [asks, other, fails] at hasks
  | passed other passes =>
    rw [asks, if_neg other, passes] at hasks
    exact ⟨hasks, fun hmem => by simpa using hmem⟩
  | kept free => exact (hblocked free hasks).elim
  | entered free => exact (hblocked free hasks).elim
  | answered free => exact (hblocked free hasks).elim
  | completed free => exact (hblocked free hasks).elim
  | received free => exact (hblocked free hasks).elim
  | getStep free => exact (hblocked free hasks).elim
  | stopped free => exact (hblocked free hasks).elim
  | advanced free => exact (hblocked free hasks).elim
  | turnBad free => exact (hblocked free hasks).elim
  | proposed free => exact (hblocked free hasks).elim
  | returned => cases hasks
  | verified => cases hasks
  | unlock => exact ⟨hasks, fun hmem => by simpa using hmem⟩
  | broadcast free => exact (hblocked' free hasks).elim
  | useTree free => exact (hblocked' free hasks).elim
  | keepTree free => exact (hblocked' free hasks).elim
  | unlockTree => cases hasks

/-- While both mutexes are locked, a call with `pbft.lock` goes on to broadcast. -/
theorem Moves.keeps_sends (h : s.Moves P rest op t ops) (hlocked : s.node.pbft.lock = true)
    (htree : s.tree = true) (hshape : Shape s.node.myAddr (op :: rest))
    (hsends : sends (op :: rest) = true) : sends ops = true := by
  cases h with
  | failed other fails =>
    have hrest := hshape.plain_rest rfl nofun
      (fun m hm => by obtain rfl := CallOp.handle.inj hm; exact other) nofun
    change sends rest = true at hsends
    rw [sends_of_plain (count_unlock_of_plain hrest)] at hsends
    cases hsends
  | kept free => simp [hlocked] at free
  | entered free => simp [hlocked] at free
  | answered free => simp [hlocked] at free
  | completed free => simp [hlocked] at free
  | received free => simp [hlocked] at free
  | getStep free => simp [hlocked] at free
  | stopped free => simp [hlocked] at free
  | advanced free => simp [hlocked] at free
  | turnBad free => simp [hlocked] at free
  | proposed free => simp [hlocked] at free
  | broadcast free => simp [htree] at free
  | useTree free => simp [htree] at free
  | keepTree free => simp [htree] at free
  | _ => exact hsends

theorem Sound.tree_locked (hs : s.Sound) (hops : ops ∈ s.calls) (hmem : .unlockTree ∈ ops) :
    s.tree = true := by
  obtain ⟨i, hi⟩ := List.mem_iff_getElem?.mp hops
  have hle := (weight_le_work (List.count .unlockTree) hi).trans_eq hs.tree
  have hpos := List.count_pos_iff.mpr hmem
  cases htree : s.tree with
  | true => rfl
  | false =>
    rw [htree, Bool.toNat_false] at hle
    omega

theorem Sound.lock_locked (hs : s.Sound) (hops : ops ∈ s.calls) (hsends : sends ops = true) :
    s.node.pbft.lock = true := by
  obtain ⟨i, hi⟩ := List.mem_iff_getElem?.mp hops
  have hle := (weight_le_work (List.count .unlock) hi).trans hs.lock
  cases hlock : s.node.pbft.lock with
  | true => rfl
  | false =>
    rw [hlock, Bool.toNat_false, Nat.le_zero] at hle
    rw [sends_of_plain hle] at hsends
    cases hsends

theorem Moves.stuck (h : s.Moves P rest op t ops) (hs : s.Sound)
    (hcall : s.calls[i]? = some (op :: rest)) (hstuck : s.Stuck P) :
    Stuck P { t with calls := t.calls.set i ops } := by
  obtain ⟨hmy, _, new, hcalls, hnew⟩ := h.frame
  have hat := List.mem_of_getElem? hcall
  have hnow := getElem?_of_prefix (s.calls.prefix_append new) hcall
  have hshape := hs.shape _ hat
  have hops : ops ∈ t.calls.set i ops := by
    rw [hcalls]
    exact mem_set_self hnow
  have hother {x : List CallOp} (hx : x ∈ s.calls) :
      x = op :: rest ∨ x ∈ t.calls.set i ops := by
    rw [hcalls]
    exact mem_set_of_mem ops hnow (List.mem_append_left new hx)
  -- a call that waits for a locked mutex goes on to do so
  have hwaits {x : List CallOp} {mutex : Mutex} (hx : x ∈ s.calls)
      (hasks : asks P s.node.myAddr x = some mutex)
      (hlocked : mutex = .lock → s.node.pbft.lock = true) (htree : mutex = .tree → s.tree = true) :
      ∃ y ∈ t.calls.set i ops, asks P t.node.myAddr y = some mutex ∧
        (.unlockTree ∈ x → .unlockTree ∈ y) := by
    rw [hmy]
    rcases hother hx with rfl | hy
    · exact ⟨ops, hops, h.keeps_asks hasks hlocked htree⟩
    · exact ⟨x, hy, hasks, id⟩
  cases hstuck with
  | orphaned locked nobody =>
    have hnone : (op :: rest).count .unlock = 0 := List.count_eq_zero.mpr (nobody _ hat)
    rcases h.count_unlock hshape (by rw [hnone]; exact Nat.zero_le _) with
      ⟨m, _, _, free, _⟩ | ⟨_, hcount⟩
    · rw [locked] at free
      cases free
    · have hone := Bool.toNat_le t.node.pbft.lock
      rw [hnone, locked, Bool.toNat_true] at hcount
      refine .orphaned ?_ fun x hx hmem => ?_
      · cases hlock : t.node.pbft.lock with
        | true => rfl
        | false => simp [hlock] at hcount
      · dsimp only at hx
        rw [hcalls] at hx
        rcases mem_set_append hx with rfl | hx | hx
        · have hpos := List.count_pos_iff.mpr hmem
          omega
        · exact nobody x hx hmem
        · obtain ⟨tlc, rfl⟩ := hnew x hx
          simp at hmem
  | waiting hx waits =>
    rcases waits with hasks | ⟨hmem, hasks⟩
    · obtain ⟨y, hy, hasks, _⟩ := hwaits hx hasks nofun nofun
      exact .waiting hy (.inl hasks)
    · obtain ⟨y, hy, hasks, hkept⟩ := hwaits hx hasks nofun fun _ => hs.tree_locked hx hmem
      exact .waiting hy (.inr ⟨hkept hmem, hasks⟩)
  | crossed hsends hasks =>
    obtain ⟨a, ha, hsends⟩ := hsends
    obtain ⟨b, hb, hmem, hasks⟩ := hasks
    have hlocked := hs.lock_locked ha hsends
    obtain ⟨mutex, hmutex⟩ := Option.ne_none_iff_exists'.mp hasks
    obtain ⟨y, hy, hasks', hkept⟩ :=
      hwaits hb hmutex (fun _ => hlocked) fun _ => hs.tree_locked hb hmem
    refine .crossed ?_ ⟨y, hy, hkept hmem, by simp [hasks']⟩
    rcases hother ha with rfl | ha
    · exact ⟨ops, hops, h.keeps_sends hlocked (hs.tree_locked hb hmem) hshape hsends⟩
    · exact ⟨a, ha, hsends⟩

theorem not_stuck_of_quiet (hfree : ¬ s.Stuck P) (hmy : t.node.myAddr = s.node.myAddr)
    (hlock : t.node.pbft.lock = s.node.pbft.lock)
    (hback : ∀ x ∈ t.calls, x ∈ s.calls ∨ asks P s.node.myAddr x ≠ some .held ∧
      .unlockTree ∉ x ∧ (sends x = true → s.LockSends))
    (hforth : ∀ x ∈ s.calls, .unlock ∈ x → ∃ y ∈ t.calls, .unlock ∈ y) : ¬ t.Stuck P := by
  intro hstuck
  cases hstuck with
  | orphaned locked nobody =>
    refine hfree (.orphaned (hlock ▸ locked) fun x hx hmem => ?_)
    obtain ⟨y, hy, hunlock⟩ := hforth x hx hmem
    exact nobody y hy hunlock
  | waiting hx waits =>
    rw [Waits, hmy] at waits
    rcases hback _ hx with hold | ⟨hheld, hno, _⟩
    · exact hfree (.waiting hold waits)
    · exact waits.elim hheld fun hw => hno hw.1
  | crossed hsends hasks =>
    obtain ⟨a, ha, hsends⟩ := hsends
    obtain ⟨b, hb, hmem, hasks⟩ := hasks
    have hlocked : s.LockSends := by
      rcases hback a ha with hold | ⟨_, _, hold⟩
      · exact ⟨a, hold, hsends⟩
      · exact hold hsends
    rcases hback b hb with hold | ⟨_, hno, _⟩
    · exact hfree (.crossed hlocked ⟨b, hold, hmem, hmy ▸ hasks⟩)
    · exact hno hmem

theorem stuck_of_quiet (hstuck : s.Stuck P) (hmy : t.node.myAddr = s.node.myAddr)
    (hlock : t.node.pbft.lock = s.node.pbft.lock) (hforth : ∀ x ∈ s.calls, x = [] ∨ x ∈ t.calls)
    (hback : ∀ x ∈ t.calls, x ∈ s.calls ∨ .unlock ∉ x) : t.Stuck P := by
  cases hstuck with
  | orphaned locked nobody =>
    refine .orphaned (hlock.trans locked) fun x hx hmem => ?_
    rcases hback x hx with hold | hno
    · exact nobody x hold hmem
    · exact hno hmem
  | waiting hx waits =>
    rcases hforth _ hx with rfl | hnew
    · simp [Waits, asks] at waits
    · refine .waiting hnew ?_
      rwa [Waits, hmy]
  | crossed hsends hasks =>
    obtain ⟨a, ha, hsends⟩ := hsends
    obtain ⟨b, hb, hmem, hasks⟩ := hasks
    refine .crossed ?_ ?_
    · rcases hforth a ha with rfl | hnew
      · cases hsends
      · exact ⟨a, hnew, hsends⟩
    · rcases hforth b hb with rfl | hnew
      · cases hmem
      · exact ⟨b, hnew, hmem, hmy.symm ▸ hasks⟩

theorem Delivery.quiet (packet : List Delivery) :
    .unlock ∉ packet.map Delivery.op ∧ .unlockTree ∉ packet.map Delivery.op := by
  constructor <;>
    · intro hmem
      obtain ⟨d, _, hd⟩ := List.mem_map.mp hmem
      cases d <;> cases hd

variable {e : ReplicaEvent}

theorem Effect.begins (h : s.Effect P e t) (hstep : ∀ i, e ≠ .step i) (hwake : ∀ i, e ≠ .wake i)
    (hdrop : ∀ i, e ≠ .drop i) :
    t.node.myAddr = s.node.myAddr ∧ t.node.pbft.lock = s.node.pbft.lock ∧
      (∀ x ∈ s.calls, x = [] ∨ x ∈ t.calls) ∧
      ∀ x ∈ t.calls, x ∈ s.calls ∨ .unlock ∉ x ∧ .unlockTree ∉ x ∧
        (asks P s.node.myAddr x = some .held ↔ s.Jams P e) := by
  have happend {new : List (List CallOp)} (hnew : ∀ x ∈ new, .unlock ∉ x ∧ .unlockTree ∉ x ∧
      (asks P s.node.myAddr x = some .held ↔ s.Jams P e)) :
      (∀ x ∈ s.calls, x = [] ∨ x ∈ s.calls ++ new) ∧
        ∀ x ∈ s.calls ++ new, x ∈ s.calls ∨ .unlock ∉ x ∧ .unlockTree ∉ x ∧
          (asks P s.node.myAddr x = some .held ↔ s.Jams P e) :=
    ⟨fun x hx => .inr (List.mem_append_left _ hx),
      fun x hx => (List.mem_append.mp hx).imp id (hnew x)⟩
  cases h with
  | @receive packet calls idle =>
    refine ⟨rfl, rfl, ?_, ?_⟩
    · rw [idle]
      rintro x hx
      exact (List.mem_cons.mp hx).imp id (List.mem_cons_of_mem _)
    · rw [idle]
      intro x hx
      rcases List.mem_cons.mp hx with rfl | hx
      · exact .inr ⟨(Delivery.quiet packet).1, (Delivery.quiet packet).2, Iff.rfl⟩
      · exact .inl (List.mem_cons_of_mem _ hx)
  | tag same config =>
    refine ⟨config.1, congrArg SafePbft.lock same, happend fun x hx => ?_⟩
    obtain ⟨call, _, rfl⟩ := List.mem_map.mp hx
    simp [asks, Jams]
  | turnBad => exact ⟨rfl, rfl, happend (by simp [asks, Jams])⟩
  | useTree => exact ⟨rfl, rfl, happend (by simp [asks, Jams])⟩
  | wake => exact absurd rfl (hwake _)
  | step => exact absurd rfl (hstep _)
  | drop => exact absurd rfl (hdrop _)

theorem Effect.not_stuck (h : s.Effect P e t) (hs : s.Sound) (hfree : ¬ s.Stuck P)
    (hjam : ¬ s.Jams P e) : ¬ t.Stuck P := by
  have hbegins (h : s.Effect P e t) (hstep : ∀ i, e ≠ .step i) (hwake : ∀ i, e ≠ .wake i)
      (hdrop : ∀ i, e ≠ .drop i) : ¬ t.Stuck P := by
    obtain ⟨hmy, hlock, hforth, hback⟩ := h.begins hstep hwake hdrop
    refine not_stuck_of_quiet hfree hmy hlock (fun x hx => (hback x hx).imp id fun hno => ?_) ?_
    · refine ⟨fun hheld => hjam (hno.2.2.mp hheld), hno.2.1, fun hsends => ?_⟩
      rw [sends_of_plain (List.count_eq_zero.mpr hno.1)] at hsends
      cases hsends
    · intro x hx hmem
      rcases hforth x hx with rfl | hnew
      · cases hmem
      · exact ⟨x, hnew, hmem⟩
  cases h with
  | receive idle => exact hbegins (.receive idle) nofun nofun nofun
  | tag same config => exact hbegins (.tag same config) nofun nofun nofun
  | turnBad => exact hbegins .turnBad nofun nofun nofun
  | useTree => exact hbegins .useTree nofun nofun nofun
  | @wake i op rest ops t call kind moves =>
    refine moves.not_stuck hs call hfree ?_
    cases op with
    | verify => exact id
    | _ => cases kind
  | step call kind moves =>
    exact moves.not_stuck hs call hfree fun hat => hjam ((jams_step_iff call).mpr hat)
  | @drop i m rest call free =>
    have hat := List.mem_of_getElem? call
    refine not_stuck_of_quiet hfree rfl rfl (fun x hx => ?_) fun x hx hmem => ?_
    · rcases List.mem_or_eq_of_mem_set hx with hx | rfl
      · exact .inl hx
      · refine .inr ⟨fun hheld => hjam ?_, fun hmem => hfree (.waiting hat ?_), fun hsends => ?_⟩
        · simpa [Jams, call] using hheld
        · exact .inr ⟨List.mem_cons_of_mem _ hmem, rfl⟩
        · exact ⟨_, hat, by simp [sends, hsends]⟩
    · rcases mem_set_of_mem rest call hx with rfl | hx
      · exact ⟨rest, mem_set_self call, by simpa using hmem⟩
      · exact ⟨x, hx, hmem⟩

theorem Effect.stuck_of_jams (h : s.Effect P e t) (hs : s.Sound) (hjam : s.Jams P e) :
    t.Stuck P := by
  cases h with
  | step call kind moves =>
    exact moves.stuck_of_jamsAt hs call ((jams_step_iff call).mp hjam)
  | receive => exact .waiting List.mem_cons_self (.inl hjam)
  | tag => exact hjam.elim
  | turnBad => exact hjam.elim
  | useTree => exact hjam.elim
  | wake => exact hjam.elim
  | @drop i m rest call free =>
    exact .waiting (mem_set_self call) (.inl (by simpa [Jams, call] using hjam))

theorem Effect.stuck (h : s.Effect P e t) (hs : s.Sound) (hstuck : s.Stuck P) : t.Stuck P := by
  have hbegins (h : s.Effect P e t) (hstep : ∀ i, e ≠ .step i) (hwake : ∀ i, e ≠ .wake i)
      (hdrop : ∀ i, e ≠ .drop i) : t.Stuck P := by
    obtain ⟨hmy, hlock, hforth, hback⟩ := h.begins hstep hwake hdrop
    exact stuck_of_quiet hstuck hmy hlock hforth fun x hx => (hback x hx).imp id And.left
  cases h with
  | receive idle => exact hbegins (.receive idle) nofun nofun nofun
  | tag same config => exact hbegins (.tag same config) nofun nofun nofun
  | turnBad => exact hbegins .turnBad nofun nofun nofun
  | useTree => exact hbegins .useTree nofun nofun nofun
  | wake call kind moves => exact moves.stuck hs call hstuck
  | step call kind moves => exact moves.stuck hs call hstuck
  | @drop i m rest call free =>
    -- a send needs the tree, which is free here
    have hheld {x : List CallOp} (hx : x ∈ s.calls) (hmem : .unlockTree ∈ x) : False := by
      rw [hs.tree_locked hx hmem] at free
      cases free
    cases hstuck with
    | orphaned locked nobody =>
      refine .orphaned locked fun x hx hmem => ?_
      rcases List.mem_or_eq_of_mem_set hx with hx | rfl
      · exact nobody x hx hmem
      · exact nobody _ (List.mem_of_getElem? call) (List.mem_cons_of_mem _ hmem)
    | waiting hx waits =>
      rcases waits with hasks | ⟨hmem, _⟩
      · rcases mem_set_of_mem rest call hx with rfl | hx
        · cases hasks
        · exact .waiting hx (.inl hasks)
      · exact (hheld hx hmem).elim
    | crossed hsends hasks =>
      obtain ⟨b, hb, hmem, _⟩ := hasks
      exact (hheld hb hmem).elim

end Replica

end JobPortal

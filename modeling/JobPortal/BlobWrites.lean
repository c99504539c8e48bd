import JobPortal.Download

/-! What received messages write into the blob store. Replies and encrypted chunks are stored under
the key they name, whatever they carry and whatever is there already. -/
namespace JobPortal.Sharing

open Hex Runs

variable (P : Primitives)

/-- Nothing is lost, and what is new belongs to its key. -/
structure Preserved (old new : BlobStore) : Prop where
  keeps : ∀ key value, old.get key = some value → new.get key = some value
  belongs : ∀ key value, new.get key = some value →
    old.get key = some value ∨ IsChunk P key value ∨ IsMetafile P key value

theorem preserved_refl (store : BlobStore) : Preserved P store store :=
  ⟨fun _ _ h => h, fun _ _ h => .inl h⟩

variable {P} in
theorem Preserved.trans {a b c : BlobStore} (h : Preserved P a b) (g : Preserved P b c) :
    Preserved P a c where
  keeps key value hvalue := g.keeps key value (h.keeps key value hvalue)
  belongs key value hvalue := (g.belongs key value hvalue).elim (h.belongs key value) .inr

variable {P} in
theorem Preserved.contentAddressed {old new : BlobStore} (h : Preserved P old new)
    (hold : ContentAddressed P old) : ContentAddressed P new := by
  intro key value hvalue
  exact (h.belongs key value hvalue).elim (hold key value) id

/-- A value may be written if the key holds it already, or holds nothing and the value belongs
to it. -/
def Fit (store : BlobStore) (key : Bytes) (value : Option Bytes) : Prop :=
  match store.get key, value with
  | some old, some new => old = new
  | some _, none => False
  | none, some new => IsChunk P key new ∨ IsMetafile P key new
  | none, none => True

instance (store : BlobStore) (key : Bytes) (value : Option Bytes) :
    Decidable (Fit P store key value) := by
  unfold Fit
  split <;> infer_instance

theorem preserved_set_iff (store : BlobStore) (key : Bytes) (value : Option Bytes) :
    Preserved P store (store.set key value) ↔ Fit P store key value := by
  have hset := store.get_set_self key value
  constructor
  · intro h
    unfold Fit
    split
    · rename_i old new hold
      exact Option.some.inj ((h.keeps key old hold).symm.trans hset)
    · rename_i old hold
      have := h.keeps key old hold
      rw [hset] at this
      cases this
    · rename_i new hnone
      refine (h.belongs key new hset).resolve_left fun hold => ?_
      rw [hnone] at hold
      cases hold
    · trivial
  · intro hfit
    unfold Fit at hfit
    constructor
    · intro key' old hold
      rw [BlobStore.get_set]
      split_ifs with hkey
      · subst hkey
        rw [hold] at hfit
        cases value with
        | some new => exact congrArg some hfit.symm
        | none => exact hfit.elim
      · exact hold
    · intro key' new hnew
      rw [BlobStore.get_set] at hnew
      split_ifs at hnew with hkey
      · subst hkey
        rw [hnew] at hfit
        cases hold : store.get key' with
        | some old =>
          rw [hold] at hfit
          exact .inl (congrArg some hfit)
        | none =>
          rw [hold] at hfit
          exact .inr hfit
      · exact .inl hnew

def SharerEvent.received : SharerEvent → Bool
  | .upload .. => false
  | _ => true

namespace Sharer

def Fits (s : Sharer) : SharerEvent → Prop
  | .set i => ∀ m, s.replying[i]? = some m → Fit P s.store m.key m.value
  | .encryptedChunk m => Fit P s.store m.chunkKey m.chunk
  | _ => True

variable {P} {s t : Sharer} {e : SharerEvent} {es : List SharerEvent}

/-- Only the handlers of replies and encrypted chunks write the store, and uploads. -/
theorem preserved_of_step (he : e.received = true) (h : s.step P e = some t) :
    Preserved P s.store t.store ↔ s.Fits P e := by
  have hsame : t.store = s.store → Preserved P s.store t.store := fun heq =>
    heq ▸ preserved_refl P s.store
  cases e with
  | set i =>
    obtain ⟨m, hm, rfl⟩ := Option.map_eq_some_iff.mp h
    rw [preserved_set_iff]
    constructor
    · intro hfit m' hm'
      obtain rfl := Option.some.inj (hm'.symm.trans hm)
      exact hfit
    · exact fun hfits => hfits m hm
  | encryptedChunk m =>
    obtain rfl := Option.some.inj h
    exact preserved_set_iff P s.store m.chunkKey m.chunk
  | upload chunkSize data => cases he
  | feed m =>
    obtain ⟨u, hu, rfl⟩ := Option.map_eq_some_iff.mp h
    exact iff_of_true (hsame (feed_effect hu (e := .feed m) ⟨nofun, nofun⟩).2.2) trivial
  | searchReply requestID =>
    refine iff_of_true (hsame ?_) trivial
    exact (feed_effect h (e := .searchReply requestID) ⟨nofun, nofun⟩).2.2
  | get | request | take | close =>
    refine iff_of_true (hsame ?_) trivial
    simp only [step] at h
    repeat' split at h
    all_goals first
      | obtain rfl := Option.some.inj h
        rfl
      | cases h
  | updateCatalog | setRoute =>
    obtain rfl := Option.some.inj h
    exact iff_of_true (hsame rfl) trivial

/-- Received messages lose nothing and write nothing under a wrong key, between any two states of a
run, exactly when each of them writes what may be written when it comes in. -/
theorem store_preserved_iff (h : AnyRun (step P) s es t) (hes : ∀ e ∈ es, e.received = true) :
    Throughout (step P) (fun s t => Preserved P s.store t.store) s es ↔
      Run (step P) (Fits P) s es t := by
  apply throughout_iff_run (R := fun s t => Preserved P s.store t.store) h
  · exact fun t => preserved_refl P t.store
  · exact Preserved.trans
  · intro t u e he hstep
    exact preserved_of_step (hes e he) hstep

/-- Whatever is uploaded and downloaded in between, the store stays keyed by what it holds as long
as the messages write what they may. -/
theorem contentAddressed_of_run (h : Run (step P) (Fits P) s es t)
    (hs : ContentAddressed P s.store) : ContentAddressed P t.store := by
  apply h.invariant (I := fun t => ContentAddressed P t.store) hs
  intro t u e ht hfits hstep
  cases hreceived : e.received with
  | true => exact ((preserved_of_step hreceived hstep).mpr hfits).contentAddressed ht
  | false =>
    cases e with
    | upload chunkSize data =>
      obtain ⟨⟨store, key⟩, hup, rfl⟩ := Option.map_eq_some_iff.mp hstep
      exact ht.upload hup
    | _ => cases hreceived

end Sharer

namespace Sample

def uploaded : Sharer := { oneChunk with store := storeChunks primitives ∅ [piece] }

def missing : List SharerEvent :=
  let m : DataReplyMessage := ⟨"r", hexKey (primitives.sha256 piece), none⟩
  [.feed m, .set 0]

theorem missing_isSome : (exec (Sharer.step primitives) uploaded missing).isSome := by
  decide

/-- The node loses its chunk to a reply that nobody asked for. -/
theorem store_counterexample :
    ∃ s, AnyRun (Sharer.step primitives) uploaded missing s ∧
      ¬ Preserved primitives uploaded.store s.store := by
  refine ⟨_, run_exec_get missing_isSome, fun h => ?_⟩
  have hlost := h.keeps (hexKey (primitives.sha256 piece)) piece (by decide)
  revert hlost
  decide

def repeated : List SharerEvent :=
  let m : DataReplyMessage := ⟨"r", hexKey (primitives.sha256 piece), some piece⟩
  [.feed m, .feed m, .set 0, .set 0]

theorem repeated_isSome : (exec (Sharer.step primitives) oneChunk repeated).isSome := by
  decide

theorem store_preserved_iff_repeated :
    Throughout (Sharer.step primitives) (fun s t => Preserved primitives s.store t.store) oneChunk
        repeated ↔
      Run (Sharer.step primitives) (Sharer.Fits primitives) oneChunk repeated
        ((exec (Sharer.step primitives) oneChunk repeated).get repeated_isSome) :=
  Sharer.store_preserved_iff (run_exec_get repeated_isSome) (by decide)

end Sample

end JobPortal.Sharing

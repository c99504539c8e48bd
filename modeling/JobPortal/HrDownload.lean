import JobPortal.FileRequests

/-! An HR that downloads one file after the other. The responses of the cothority nodes are checked
when they come in and applied by goroutines, and what they leave behind is cleaned up in parts. -/
namespace JobPortal.Cothority

open Goroutines Hex Runs

/-- Where `Download` stands: it waits for shares, has them, has the key, or has reset the metafile
key and cleans the table. -/
inductive DownloadPC (E : Type)
  | idle
  | polling (file : String)
  | collected (file : String) (shares : List (Option (PubShare E)))
  | decrypted (file : String)
  | cleaning
  deriving DecidableEq, Repr

/-- What `GetDecKey` is run on, with the messages that it comes from. -/
structure Decryption (E : Type) where
  file : String
  shares : List (Option (PubShare E))
  a : Option Bytes
  c : Option Bytes
  acFrom : Option ResponseFileMessage
  sharesFrom : GoMap ℕ ResponseFileMessage

/-- A goroutine with a response; it takes `A` and `C` first. -/
structure ResponseTask where
  msg : ResponseFileMessage
  acDone : Bool := false
  deriving DecidableEq, Repr

/-- The downloads of an HR. `asked` are the files it has asked for, and the messages that `A`, `C`
and the shares come from are noted down. -/
structure HR (E : Type) where
  metaFileKey : String := ""
  a : Option Bytes := none
  c : Option Bytes := none
  shareTable : SafeShareTable E
  pc : DownloadPC E := .idle
  responses : List ResponseTask := []
  asked : List String := []
  decryptions : List (Decryption E) := []
  acFrom : Option ResponseFileMessage := none
  sharesFrom : GoMap ℕ ResponseFileMessage := ∅

inductive HREvent
  | download (metaFileKey : String)
  | collect
  | decrypt
  | resetKey
  | clean
  /-- `ExecResponseFileMessage`. -/
  | response (m : ResponseFileMessage)
  | takeAC (i : ℕ)
  | takeShare (i : ℕ)
  deriving DecidableEq, Repr

namespace HR

variable {E : Type} (unmarshal : Bytes → E)

def newHR (num : ℕ) : HR E := { shareTable := .newSafeShareTable num }

def act (h : HR E) : HREvent → Turn (HR E)
  | .download metaFileKey =>
    match h.pc with
    | .idle =>
      .done { h with
        metaFileKey := metaFileKey
        asked := h.asked ++ [metaFileKey]
        pc := .polling metaFileKey }
    | _ => .blocked
  | .collect =>
    match h.pc, h.shareTable.get with
    | .polling file, some shares => .done { h with pc := .collected file shares }
    | _, _ => .blocked
  | .decrypt =>
    match h.pc with
    | .collected file shares =>
      .done { h with
        decryptions := h.decryptions ++ [⟨file, shares, h.a, h.c, h.acFrom, h.sharesFrom⟩]
        pc := .decrypted file }
    | _ => .blocked
  | .resetKey =>
    match h.pc with
    | .decrypted _ => .done { h with metaFileKey := "", pc := .cleaning }
    | _ => .blocked
  | .clean =>
    match h.pc with
    | .cleaning =>
      .done { h with shareTable := h.shareTable.clean, sharesFrom := ∅, pc := .idle }
    | _ => .blocked
  | .response m =>
    if h.metaFileKey = m.metaFileID then .done { h with responses := h.responses ++ [{ msg := m }] }
    else .done h
  | .takeAC i =>
    match h.responses[i]? with
    | some ⟨m, false⟩ =>
      let h := { h with responses := h.responses.set i ⟨m, true⟩ }
      if h.a = none ∨ h.c = none then .done { h with a := m.a, c := m.c, acFrom := some m }
      else .done h
    | _ => .blocked
  | .takeShare i =>
    match h.responses[i]? with
    | some ⟨m, true⟩ =>
      (Turn.orPanic (h.shareTable.set unmarshal m.i m.v)).map fun table =>
        { h with
          shareTable := table
          responses := h.responses.eraseIdx i
          sharesFrom :=
            if h.shareTable.threshold ≤ h.shareTable.shareTable.keys.card ∨
                m.i ∈ h.shareTable.shareTable then h.sharesFrom
            else h.sharesFrom.insert m.i m }
    | _ => .blocked

def step (h : HR E) (e : HREvent) : Option (HR E) := (h.act unmarshal e).toOption

end HR

/-- The public key, the message and the shares all come from responses for the file. -/
structure Decryption.Own {E : Type} (unmarshal : Bytes → E) (d : Decryption E) : Prop where
  ac : ∃ m, d.acFrom = some m ∧ d.a = m.a ∧ d.c = m.c ∧ m.metaFileID = d.file
  shares : ∀ share, some share ∈ d.shares →
    ∃ (m : ResponseFileMessage), d.sharesFrom.lookup share.i = some m ∧
      share.v = unmarshal m.v ∧ m.metaFileID = d.file

/-- An answer of an honest node to one of the requests: it has a public key and a message. -/
def ResponseFileMessage.Answers (m : ResponseFileMessage) (asked : List String) : Prop :=
  m.metaFileID ∈ asked ∧ m.a.isSome ∧ m.c.isSome

def HonestResponse {E : Type} (h : HR E) : HREvent → Prop
  | .response m => m.Answers h.asked
  | _ => True

instance {E : Type} (h : HR E) : DecidablePred (HonestResponse h)
  | .response m => inferInstanceAs (Decidable (m.metaFileID ∈ h.asked ∧ m.a.isSome ∧ m.c.isSome))
  | .download _ | .collect | .decrypt | .resetKey | .clean | .takeAC _ | .takeShare _ =>
    .isTrue trivial

theorem ResponseFileMessage.Answers.mono {m : ResponseFileMessage} {asked : List String}
    (h : m.Answers asked) (file : String) : m.Answers (asked ++ [file]) :=
  ⟨List.mem_append_left _ h.1, h.2⟩

def DownloadPC.pending {E : Type} : DownloadPC E → List String
  | .polling file | .collected file _ => [file]
  | _ => []

namespace HR

variable {E : Type} {unmarshal : Bytes → E} {num : ℕ} {s t u : HR E} {e : HREvent}
  {es : List HREvent}

inductive Effect (unmarshal : Bytes → E) (s : HR E) : HREvent → HR E → Prop
  | download (metaFileKey : String) (hpc : s.pc = .idle) :
      Effect unmarshal s (.download metaFileKey) { s with
        metaFileKey := metaFileKey
        asked := s.asked ++ [metaFileKey]
        pc := .polling metaFileKey }
  | collect {file : String} {shares : List (Option (PubShare E))} (hpc : s.pc = .polling file)
      (hget : s.shareTable.get = some shares) :
      Effect unmarshal s .collect { s with pc := .collected file shares }
  | decrypt {file : String} {shares : List (Option (PubShare E))}
      (hpc : s.pc = .collected file shares) :
      Effect unmarshal s .decrypt { s with
        decryptions := s.decryptions ++ [⟨file, shares, s.a, s.c, s.acFrom, s.sharesFrom⟩]
        pc := .decrypted file }
  | resetKey {file : String} (hpc : s.pc = .decrypted file) :
      Effect unmarshal s .resetKey { s with metaFileKey := "", pc := .cleaning }
  | clean (hpc : s.pc = .cleaning) :
      Effect unmarshal s .clean { s with
        shareTable := s.shareTable.clean, sharesFrom := ∅, pc := .idle }
  | response {m : ResponseFileMessage} (hkey : s.metaFileKey = m.metaFileID) :
      Effect unmarshal s (.response m) { s with responses := s.responses ++ [{ msg := m }] }
  | ignored {m : ResponseFileMessage} (hkey : s.metaFileKey ≠ m.metaFileID) :
      Effect unmarshal s (.response m) s
  | firstAC {i : ℕ} {m : ResponseFileMessage} (hi : s.responses[i]? = some ⟨m, false⟩)
      (hfirst : s.a = none ∨ s.c = none) :
      Effect unmarshal s (.takeAC i) { s with
        responses := s.responses.set i ⟨m, true⟩
        a := m.a
        c := m.c
        acFrom := some m }
  | laterAC {i : ℕ} {m : ResponseFileMessage} (hi : s.responses[i]? = some ⟨m, false⟩)
      (hlater : ¬ (s.a = none ∨ s.c = none)) :
      Effect unmarshal s (.takeAC i) { s with responses := s.responses.set i ⟨m, true⟩ }
  | takeShare {i : ℕ} {m : ResponseFileMessage} {table : SafeShareTable E}
      (hi : s.responses[i]? = some ⟨m, true⟩)
      (hset : s.shareTable.set unmarshal m.i m.v = some table) :
      Effect unmarshal s (.takeShare i) { s with
        shareTable := table
        responses := s.responses.eraseIdx i
        sharesFrom :=
          if s.shareTable.threshold ≤ s.shareTable.shareTable.keys.card ∨
              m.i ∈ s.shareTable.shareTable then s.sharesFrom
          else s.sharesFrom.insert m.i m }

theorem step_effect (h : s.step unmarshal e = some t) : s.Effect unmarshal e t := by
  have hact := Turn.toOption_eq_some.mp h
  cases e with
  | download metaFileKey =>
    simp only [act] at hact
    split at hact
    · rename_i hpc
      cases hact
      exact .download metaFileKey hpc
    · cases hact
  | collect =>
    simp only [act] at hact
    split at hact
    · rename_i file shares hpc hget
      cases hact
      exact .collect hpc hget
    · cases hact
  | decrypt =>
    simp only [act] at hact
    split at hact
    · rename_i file shares hpc
      cases hact
      exact .decrypt hpc
    · cases hact
  | resetKey =>
    simp only [act] at hact
    split at hact
    · rename_i file hpc
      cases hact
      exact .resetKey hpc
    · cases hact
  | clean =>
    simp only [act] at hact
    split at hact
    · rename_i hpc
      cases hact
      exact .clean hpc
    · cases hact
  | response m =>
    simp only [act] at hact
    split_ifs at hact with hkey
    · cases hact
      exact .response hkey
    · cases hact
      exact .ignored hkey
  | takeAC i =>
    simp only [act] at hact
    split at hact
    · rename_i m hi
      split_ifs at hact with hfirst
      · cases hact
        exact .firstAC hi hfirst
      · cases hact
        exact .laterAC hi hfirst
    · cases hact
  | takeShare i =>
    simp only [act] at hact
    split at hact
    · rename_i m hi
      obtain ⟨table, htable, rfl⟩ := Turn.map_eq_done.mp hact
      exact .takeShare hi (Turn.orPanic_eq_done.mp htable)
    · cases hact

/-- What `A`, `C`, the shares and the waiting goroutines come from. -/
structure Traced (unmarshal : Bytes → E) (s : HR E) : Prop where
  asked : s.asked = s.decryptions.map (·.file) ++ s.pc.pending
  a : s.a = s.acFrom.bind (·.a)
  c : s.c = s.acFrom.bind (·.c)
  acAnswers : ∀ m ∈ s.acFrom, m.Answers s.asked
  responses : ∀ r ∈ s.responses, r.msg.Answers s.asked ∧ (r.acDone = true → s.acFrom.isSome)
  threshold : 0 < s.shareTable.threshold
  filled : s.shareTable.Filled unmarshal
  shares : ∀ (i : ℕ) (v : Bytes), s.shareTable.shareTable.lookup i = some v →
    s.acFrom.isSome ∧ ∃ (m : ResponseFileMessage), s.sharesFrom.lookup i = some m ∧ m.v = v ∧
      m.metaFileID ∈ s.asked
  collected : ∀ file shares, s.pc = .collected file shares →
    s.acFrom.isSome ∧ s.shareTable.get = some shares
  decrypted : ∀ d ∈ s.decryptions, d.acFrom.isSome ∧ d.acFrom = s.acFrom

theorem traced_new (num : ℕ) : (newHR (E := E) num).Traced unmarshal where
  asked := rfl
  a := rfl
  c := rfl
  acAnswers _ h := by cases h
  responses _ h := by cases h
  threshold := Nat.succ_pos _
  filled := SafeShareTable.filled_of_none fun share h => by
    cases List.eq_of_mem_replicate h
  shares i v h := by
    change (∅ : GoMap ℕ Bytes).lookup i = some v at h
    rw [Finmap.lookup_empty] at h
    cases h
  collected _ _ h := by cases h
  decrypted _ h := by cases h

/-- `A` and `C` are taken only once. -/
theorem Traced.acFrom_eq_none (hs : s.Traced unmarshal) (h : s.a = none ∨ s.c = none) :
    s.acFrom = none := by
  cases hm : s.acFrom with
  | none => rfl
  | some m =>
    obtain ⟨_, ha, hc⟩ := hs.acAnswers m hm
    rw [hs.a, hs.c, hm] at h
    rcases h with h | h
    · change m.a = none at h
      rw [h] at ha
      cases ha
    · change m.c = none at h
      rw [h] at hc
      cases hc

theorem Traced.mem_set (hs : s.Traced unmarshal) {i : ℕ} {m : ResponseFileMessage}
    (hi : s.responses[i]? = some ⟨m, false⟩) {r : ResponseTask}
    (hr : r ∈ s.responses.set i ⟨m, true⟩) :
    r.msg.Answers s.asked ∧ (r ∈ s.responses ∨ r = ⟨m, true⟩) := by
  rcases List.mem_or_eq_of_mem_set hr with hr | rfl
  · exact ⟨(hs.responses r hr).1, .inl hr⟩
  · exact ⟨(hs.responses _ (List.mem_of_getElem? hi)).1, .inr rfl⟩

theorem Traced.firstAC (hs : s.Traced unmarshal) {i : ℕ} {m : ResponseFileMessage}
    (hi : s.responses[i]? = some ⟨m, false⟩) (hfirst : s.a = none ∨ s.c = none) :
    ({ s with
      responses := s.responses.set i ⟨m, true⟩
      a := m.a
      c := m.c
      acFrom := some m } : HR E).Traced unmarshal := by
  refine { hs with
    a := rfl
    c := rfl
    acAnswers := ?_
    responses := fun r hr => ⟨(hs.mem_set hi hr).1, fun _ => rfl⟩
    shares := fun j v hj => ⟨rfl, (hs.shares j v hj).2⟩
    collected := fun file shares hpc => ⟨rfl, (hs.collected file shares hpc).2⟩
    decrypted := ?_ }
  · rintro _ ⟨⟩
    exact (hs.responses _ (List.mem_of_getElem? hi)).1
  · intro d hd
    obtain ⟨hsome, heq⟩ := hs.decrypted d hd
    rw [heq, hs.acFrom_eq_none hfirst] at hsome
    cases hsome

theorem Traced.laterAC (hs : s.Traced unmarshal) {i : ℕ} {m : ResponseFileMessage}
    (hi : s.responses[i]? = some ⟨m, false⟩) (hlater : ¬ (s.a = none ∨ s.c = none)) :
    ({ s with responses := s.responses.set i ⟨m, true⟩ } : HR E).Traced unmarshal := by
  refine { hs with responses := fun r hr => ⟨(hs.mem_set hi hr).1, fun hdone => ?_⟩ }
  rcases (hs.mem_set hi hr).2 with hr | rfl
  · exact (hs.responses r hr).2 hdone
  · have hsome : ¬ s.a = none := fun ha => hlater (.inl ha)
    cases hac : s.acFrom with
    | none =>
      rw [hs.a, hac] at hsome
      exact absurd rfl hsome
    | some _ => rfl

theorem Traced.takeShare (hs : s.Traced unmarshal) {i : ℕ} {m : ResponseFileMessage}
    {table : SafeShareTable E} (hi : s.responses[i]? = some ⟨m, true⟩)
    (hset : s.shareTable.set unmarshal m.i m.v = some table) :
    ({ s with
      shareTable := table
      responses := s.responses.eraseIdx i
      sharesFrom :=
        if s.shareTable.threshold ≤ s.shareTable.shareTable.keys.card ∨
            m.i ∈ s.shareTable.shareTable then s.sharesFrom
        else s.sharesFrom.insert m.i m } : HR E).Traced unmarshal := by
  obtain ⟨hm, hac⟩ := hs.responses _ (List.mem_of_getElem? hi)
  have hresponses : ∀ r ∈ s.responses.eraseIdx i, r.msg.Answers s.asked ∧
      (r.acDone = true → s.acFrom.isSome) :=
    fun r hr => hs.responses r (List.mem_of_mem_eraseIdx hr)
  obtain ⟨hkept, rfl⟩ | ⟨hnew, hthreshold, htable, _⟩ := SafeShareTable.set_cases hset
  · rw [if_pos hkept]
    exact { hs with responses := hresponses }
  · rw [if_neg hnew]
    refine { hs with
      responses := hresponses
      threshold := hthreshold ▸ hs.threshold
      filled := hs.filled.set hset
      shares := ?_
      collected := ?_ }
    · intro j v hj
      refine ⟨hac rfl, ?_⟩
      change table.shareTable.lookup j = some v at hj
      change ∃ (m' : ResponseFileMessage), (s.sharesFrom.insert m.i m).lookup j = some m' ∧ _
      rw [htable] at hj
      by_cases hji : j = m.i
      · subst hji
        rw [Finmap.lookup_insert] at hj
        exact ⟨m, Finmap.lookup_insert _, Option.some.inj hj, hm.1⟩
      · rw [Finmap.lookup_insert_of_ne _ hji] at hj
        obtain ⟨_, m', hm', hv⟩ := hs.shares j v hj
        exact ⟨m', by rw [Finmap.lookup_insert_of_ne _ hji, hm'], hv⟩
    · intro file shares hpc
      have hfull := (SafeShareTable.get_eq_some (hs.collected file shares hpc).2).1
      exact absurd (.inl hfull) hnew

theorem Traced.step (hs : s.Traced unmarshal) (he : HonestResponse s e)
    (h : s.step unmarshal e = some t) : t.Traced unmarshal := by
  cases step_effect h with
  | download metaFileKey hpc =>
    refine { hs with
      asked := by simp [hs.asked, hpc, DownloadPC.pending]
      acAnswers := fun m hm => (hs.acAnswers m hm).mono metaFileKey
      responses := fun r hr => ⟨(hs.responses r hr).1.mono metaFileKey, (hs.responses r hr).2⟩
      shares := ?_
      collected := nofun }
    intro j v hj
    obtain ⟨hac, m, hm, hv, hasked⟩ := hs.shares j v hj
    exact ⟨hac, m, hm, hv, List.mem_append_left _ hasked⟩
  | collect hpc hget =>
    refine { hs with
      asked := hs.asked.trans (by rw [hpc]; rfl)
      collected := ?_ }
    rintro _ _ ⟨⟩
    refine ⟨?_, hget⟩
    have henough := (SafeShareTable.get_eq_some hget).1
    obtain ⟨i, hi⟩ := Finset.card_pos.mp (Nat.lt_of_lt_of_le hs.threshold henough)
    obtain ⟨v, hv⟩ := mem_keys_iff.mp hi
    exact (hs.shares i v hv).1
  | decrypt hpc =>
    refine { hs with
      asked := hs.asked.trans (by simp [hpc, DownloadPC.pending])
      collected := nofun
      decrypted := ?_ }
    intro d hd
    rcases List.mem_append.mp hd with hd | hd
    · exact hs.decrypted d hd
    · obtain rfl := List.mem_singleton.mp hd
      exact ⟨(hs.collected _ _ hpc).1, rfl⟩
  | resetKey hpc =>
    exact { hs with asked := hs.asked.trans (by rw [hpc]; rfl), collected := nofun }
  | clean hpc =>
    refine { hs with
      asked := hs.asked.trans (by rw [hpc]; rfl)
      filled := SafeShareTable.filled_of_none fun share hshare => by
        cases List.eq_of_mem_replicate hshare
      shares := ?_
      collected := nofun }
    intro j v hj
    change (∅ : GoMap ℕ Bytes).lookup j = some v at hj
    rw [Finmap.lookup_empty] at hj
    cases hj
  | response =>
    refine { hs with responses := ?_ }
    intro r hr
    rcases List.mem_append.mp hr with hr | hr
    · exact hs.responses r hr
    · obtain rfl := List.mem_singleton.mp hr
      exact ⟨he, nofun⟩
  | ignored => exact hs
  | firstAC hi hfirst => exact hs.firstAC hi hfirst
  | laterAC hi hlater => exact hs.laterAC hi hlater
  | takeShare hi hset => exact hs.takeShare hi hset

/-- One file, asked for once or again and again. -/
def OneFile (s : HR E) : Prop := ∀ d ∈ s.decryptions, ∀ d' ∈ s.decryptions, d.file = d'.file

/-- The key of the only file that was ever decrypted is taken from responses for it. -/
theorem Traced.own_of_decrypt (hs : s.Traced unmarshal) {file : String}
    {shares : List (Option (PubShare E))} (hpc : s.pc = .collected file shares)
    (hfile : ∀ d ∈ s.decryptions, d.file = file) :
    (Decryption.mk file shares s.a s.c s.acFrom s.sharesFrom).Own unmarshal := by
  have hasked : ∀ f ∈ s.asked, f = file := by
    intro f hf
    rw [hs.asked, hpc] at hf
    rcases List.mem_append.mp hf with hf | hf
    · obtain ⟨d, hd, rfl⟩ := List.mem_map.mp hf
      exact hfile d hd
    · exact List.mem_singleton.mp hf
  obtain ⟨hac, hget⟩ := hs.collected file shares hpc
  obtain ⟨m, hm⟩ := Option.isSome_iff_exists.mp hac
  constructor
  · refine ⟨m, hm, ?_, ?_, hasked _ (hs.acAnswers m hm).1⟩
    · exact hs.a.trans (by rw [hm]; rfl)
    · exact hs.c.trans (by rw [hm]; rfl)
  · intro share hshare
    rw [(SafeShareTable.get_eq_some hget).2] at hshare
    obtain ⟨v, hv, hshare⟩ := hs.filled share hshare
    obtain ⟨_, m', hm', rfl, hfor⟩ := hs.shares _ v hv
    exact ⟨m', hm', hshare, hasked _ hfor⟩

theorem decryptions_of_step (h : s.step unmarshal e = some t) :
    t.decryptions = s.decryptions ∨ ∃ file shares, s.pc = .collected file shares ∧
      t.decryptions = s.decryptions ++ [⟨file, shares, s.a, s.c, s.acFrom, s.sharesFrom⟩] := by
  cases step_effect h with
  | decrypt hpc => exact .inr ⟨_, _, hpc, rfl⟩
  | _ => exact .inl rfl

/-- An HR takes every key from responses for its own file exactly as long as it decrypts only one
file. -/
theorem decryptions_own_iff (h : Run (step unmarshal) HonestResponse (newHR num) es s) :
    (∀ d ∈ s.decryptions, d.Own unmarshal) ↔ s.OneFile := by
  have hrun := h.with_invariant (traced_new num) fun hs he hstep => hs.step he hstep
  have htraced := h.invariant (traced_new num) fun hs he hstep => hs.step he hstep
  constructor
  · intro hown d hd d' hd'
    obtain ⟨m, hm, _, _, hfile⟩ := (hown d hd).ac
    obtain ⟨m', hm', _, _, hfile'⟩ := (hown d' hd').ac
    rw [(htraced.decrypted d hd).2] at hm
    rw [(htraced.decrypted d' hd').2, hm] at hm'
    obtain rfl := Option.some.inj hm'
    exact hfile.symm.trans hfile'
  · apply hrun.invariant (I := fun s : HR E => s.OneFile → ∀ d ∈ s.decryptions, d.Own unmarshal)
    · intro _ d hd
      cases hd
    · intro t u e ih ht hstep hone
      obtain heq | ⟨file, shares, hpc, heq⟩ := decryptions_of_step hstep
      · rw [OneFile, heq] at hone
        rw [heq]
        exact ih hone
      · rw [OneFile, heq] at hone
        rw [heq]
        intro d hd
        have hlast := hone _ (List.mem_append_right _ (List.mem_singleton_self _))
        rcases List.mem_append.mp hd with hd | hd
        · apply ih (fun d₁ h₁ d₂ h₂ => ?_) d hd
          exact hone d₁ (List.mem_append_left _ h₁) d₂ (List.mem_append_left _ h₂)
        · obtain rfl := List.mem_singleton.mp hd
          exact ht.2.own_of_decrypt hpc fun d hd => (hlast d (List.mem_append_left _ hd)).symm

end HR

namespace Sample

def downloadOf (file : String) (c : Bytes) : List HREvent :=
  [.download file, .response ⟨file, 0, [1], some [7], some c⟩,
    .response ⟨file, 1, [2], some [7], some c⟩, .takeAC 0, .takeShare 0, .takeAC 0, .takeShare 0,
    .collect, .decrypt, .resetKey, .clean]

/-- An HR of two nodes that only gets honest responses. -/
def hrAfter (es : List HREvent) : Option (HR Bytes) :=
  exec (guarded (HR.step id) HonestResponse) (HR.newHR 2) es

def twoFiles : List HREvent := downloadOf "f" [3] ++ downloadOf "g" [4]

theorem twoFiles_isSome : (hrAfter twoFiles).isSome := by
  decide

/-- The key of the second file is taken from the message for the first. -/
theorem hr_counterexample :
    ∃ s, Run (HR.step id) HonestResponse (HR.newHR 2) twoFiles s ∧
      ∃ d ∈ s.decryptions, ¬ d.Own id := by
  refine ⟨_, run_of_guarded (run_exec_get twoFiles_isSome), ?_⟩
  have hmixed : ∃ d ∈ ((hrAfter twoFiles).get twoFiles_isSome).decryptions,
      d.file = "g" ∧ d.acFrom.map (·.metaFileID) = some "f" := by
    decide
  obtain ⟨d, hd, hfile, hac⟩ := hmixed
  refine ⟨d, hd, fun hown => ?_⟩
  obtain ⟨m, hm, _, _, hm'⟩ := hown.ac
  rw [hm, Option.map_some, hm', hfile] at hac
  exact absurd (Option.some.inj hac) (by decide)

def oneFile : List HREvent := downloadOf "f" [3] ++ downloadOf "f" [3]

theorem oneFile_isSome : (hrAfter oneFile).isSome := by
  decide

theorem decryptions_own_iff_oneFile :
    let s := (hrAfter oneFile).get oneFile_isSome
    (∀ d ∈ s.decryptions, d.Own id) ↔ s.OneFile :=
  HR.decryptions_own_iff (run_of_guarded (run_exec_get oneFile_isSome))

end Sample

end JobPortal.Cothority

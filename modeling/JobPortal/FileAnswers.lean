import JobPortal.FileKeys
import JobPortal.RequestAccess

/-! How an HR gets a key. Whatever has gone on before, as long as enough nodes have no request that
polls in vain, they can answer the HR, and the HR can put the key together. -/
namespace JobPortal.Cothority

open Encryption Goroutines Hex Runs

theorem parseInt_toString (n : ℕ) : parseInt (toString n) = some (n : ℤ) := by
  have hnumber : ¬ NoNumber (Nat.toDigits 10 n) := by
    simpa [NoNumber, Nat.toDigits_ne_nil] using fun c => isDigit_of_mem_toDigits (n := n) (c := c)
  rw [parseInt, signAndDigits_toString]
  dsimp only
  rw [if_neg hnumber, if_neg Bool.false_ne_true, readDigits, Texts.foldl_toDigits]

namespace SafeShareTable

variable {E : Type} {unmarshal : Bytes → E} {num : ℕ} {t : SafeShareTable E}

/-- A share of a node never makes the table panic, and is one of the table unless there are enough
already. -/
theorem exists_set (h : ∃ sent, t.Holds unmarshal num sent) {i : ℕ} (hi : i < num) (v : Bytes) :
    ∃ t', t.set unmarshal i v = some t' ∧
      (t.threshold ≤ t.shareTable.keys.card ∧ t' = t ∨
        t'.threshold = t.threshold ∧ t'.shareTable.keys = insert i t.shareTable.keys) := by
  obtain ⟨sent, hholds⟩ := h
  by_cases hmem : i ∈ t.shareTable
  · by_cases henough : t.threshold ≤ t.shareTable.keys.card
    · exact ⟨t, if_pos henough, .inl ⟨henough, rfl⟩⟩
    · refine ⟨t, by rw [set, if_neg henough, if_pos hmem], .inr ⟨rfl, ?_⟩⟩
      rw [Finset.insert_eq_of_mem (Finmap.mem_keys.mpr hmem)]
  · have hupdated : t.Holds unmarshal num (Function.update sent i v) := by
      refine { hholds with entries := fun j w hw => ?_ }
      have hj : j ≠ i := by
        rintro rfl
        exact hmem (Finmap.mem_of_lookup_eq_some hw)
      rw [Function.update_of_ne hj]
      exact hholds.entries j w hw
    obtain ⟨t', hset, hholds', hkeys⟩ := hupdated.set hi
    rw [Function.update_self] at hset
    have hsame : t'.threshold = t.threshold := hholds'.threshold.trans hholds.threshold.symm
    exact ⟨t', hset, hkeys.imp_right fun hkeys => ⟨hsame, hkeys⟩⟩

end SafeShareTable

namespace FileNode

variable {S : Type} {P : RequestPrimitives S} {n : FileNode S}

def Expects (f : EncryptedFileMessage) (m : RequestFileMessage) (_ : FileNode S) : FileEvent → Prop
  | .encryptedFile f' => f' = f
  | .request m' => m' = m
  | _ => True

theorem expects_of_internal {f : EncryptedFileMessage} {m : RequestFileMessage} {e : FileEvent}
    (h : e.Internal) : Expects f m n e := by
  cases e with
  | request | encryptedFile => exact h.elim
  | _ => trivial

/-- A node with its share, where no request polls in vain. -/
structure Ready (n : FileNode S) : Prop where
  consistent : n.Consistent
  allFound : n.AllFound
  share : n.priShare.isSome

theorem Ready.step {u : FileNode S} {e : FileEvent} (h : n.Ready) (hfirst : n.FileFirst e)
    (hstep : n.step P e = some u) : u.Ready where
  consistent := h.consistent.step hstep
  allFound := (allFound_step h.allFound hstep).mpr hfirst
  share := (config_of_step hstep).1 ▸ h.share

theorem Ready.exists_waiting (h : n.Ready) (f : EncryptedFileMessage) {m : RequestFileMessage}
    (hauth : n.authenticate P m = .done true) :
    ∃ es, ∃ u : FileNode S, ∃ j : ℕ, Run (FileNode.step P) (Expects f m) n es u ∧ u.Ready ∧
      u.requests[j]? = some (m, .waiting) ∧ ∃ f' ∈ u.files, f'.1 = f := by
  have hfile : n.step P (.encryptedFile f) = some (n.arrive f) := rfl
  obtain ⟨t, hrequest, hrequests, hfiles, hsame⟩ : ∃ t : FileNode S,
      (n.arrive f).step P (.request m) = some t ∧ t.requests = n.requests ++ [(m, .received)] ∧
        t.files = n.files ++ [(f, .arrived)] ∧ t.authenticate P m = n.authenticate P m :=
    ⟨_, rfl, rfl, rfl, rfl⟩
  have hj : t.requests[n.requests.length]? = some (m, .received) := by
    rw [hrequests]
    exact List.getElem?_concat_length ..
  have ht : t.Ready := (h.step (by trivial) hfile).step (by trivial) hrequest
  have hcheck : t.step P (.authenticate n.requests.length) = some (t.goOn n.requests.length m
      (if m.serviceIndex = t.index then .recording else .waiting)) := by
    simp [FileNode.step, act, hj, hsame, hauth, Turn.map, Turn.toOption]
  have hcame : Run (FileNode.step P) (Expects f m) n
      ([.encryptedFile f] ++ [.request m] ++ [.authenticate n.requests.length]) _ :=
    ((Run.one (by exact rfl) hfile).append (.one (by exact rfl) hrequest)).append
      (.one (by trivial) hcheck)
  have hlen : n.requests.length < t.requests.length := (List.getElem?_eq_some_iff.mp hj).1
  have hlast : (f, FilePC.arrived) ∈ t.files := by
    rw [hfiles]
    exact List.mem_append_right _ (List.mem_singleton_self _)
  by_cases hservice : m.serviceIndex = t.index
  · rw [if_pos hservice] at hcheck hcame
    have hrecording : (t.goOn n.requests.length m .recording).requests[n.requests.length]? =
        some (m, .recording) := List.getElem?_set_self hlen
    have hrecorded : (t.goOn n.requests.length m .recording).step P
        (.recorded n.requests.length) = some
          ((t.goOn n.requests.length m .recording).goOn n.requests.length m .waiting) := by
      simp [FileNode.step, act, hrecording, Turn.toOption]
    refine ⟨_, _, n.requests.length, hcame.append (.one (by trivial) hrecorded),
      (ht.step (by trivial) hcheck).step (by trivial) hrecorded, ?_, _, hlast, rfl⟩
    exact List.getElem?_set_self (List.getElem?_eq_some_iff.mp hrecording).1
  · rw [if_neg hservice] at hcheck hcame
    exact ⟨_, _, n.requests.length, hcame, ht.step (by trivial) hcheck, List.getElem?_set_self hlen,
      _, hlast, rfl⟩

/-- A node that is sent the file can answer one more request for it. -/
theorem Ready.exists_answered (h : n.Ready) {f : EncryptedFileMessage} {m : RequestFileMessage}
    (hid : f.id = m.metaFileID) (hauth : n.authenticate P m = .done true) :
    ∃ es, ∃ u : FileNode S, ∃ (j : ℕ) (response : ResponseFileMessage),
      Run (FileNode.step P) (Expects f m) n es u ∧
        u.requests[j]? = some (m, .answered response) := by
  obtain ⟨es₁, u, j, hrun, hu, hj, f', hf', rfl⟩ := h.exists_waiting f hauth
  obtain ⟨es₂, v, response, hrest, hv⟩ := neverStuck_of_allFound hu.consistent hu.allFound hu.share
    j m .waiting hj (.inl rfl) ⟨f', hf', hid⟩
  exact ⟨_, v, j, response, hrun.append (hrest.imp fun _ _ h => expects_of_internal h), hv⟩

end FileNode

structure HR.Keeps {E : Type} (h h' : HR E) : Prop where
  pc : h'.pc = h.pc
  metaFileKey : h'.metaFileKey = h.metaFileKey
  asked : h'.asked = h.asked
  decryptions : h'.decryptions = h.decryptions
  threshold : h'.shareTable.threshold = h.shareTable.threshold
  keys : h.shareTable.shareTable.keys ⊆ h'.shareTable.shareTable.keys

theorem HR.Keeps.trans {E : Type} {h h' h'' : HR E} (hk : h.Keeps h') (hk' : h'.Keeps h'') :
    h.Keeps h'' where
  pc := hk'.pc.trans hk.pc
  metaFileKey := hk'.metaFileKey.trans hk.metaFileKey
  asked := hk'.asked.trans hk.asked
  decryptions := hk'.decryptions.trans hk.decryptions
  threshold := hk'.threshold.trans hk.threshold
  keys := hk.keys.trans hk'.keys

def HR.Has {E : Type} (h : HR E) (i : ℕ) : Prop :=
  h.shareTable.threshold ≤ h.shareTable.shareTable.keys.card ∨ i ∈ h.shareTable.shareTable.keys

theorem HR.Keeps.has {E : Type} {h h' : HR E} (hk : h.Keeps h') {i : ℕ} (hi : h.Has i) :
    h'.Has i := by
  refine hi.imp (fun henough => ?_) fun hmem => hk.keys hmem
  rw [hk.threshold]
  exact henough.trans (Finset.card_le_card hk.keys)

namespace HR

variable {E : Type} {unmarshal : Bytes → E} {num : ℕ} {h : HR E}

/-- Of the network only this answer comes in. -/
def Takes (m : ResponseFileMessage) (_ : HR E) : HREvent → Prop
  | .download _ => False
  | .response m' => m' = m
  | _ => True

theorem exists_taken (htable : ∃ sent, h.shareTable.Holds unmarshal num sent)
    {m : ResponseFileMessage} (hkey : h.metaFileKey = m.metaFileID) (hi : m.i < num) :
    ∃ es h', Run (step unmarshal) (Takes m) h es h' ∧ h.Keeps h' ∧ h'.Has m.i := by
  obtain ⟨table, hset, htaken⟩ := SafeShareTable.exists_set htable hi m.v
  -- the response goes to the end of the waiting ones
  have hresponse : h.step unmarshal (.response m) =
      some { h with responses := h.responses ++ [{ msg := m }] } := by
    simp [step, act, hkey, Turn.toOption]
  obtain ⟨t, hac, hresponses, htable, hkept⟩ : ∃ t : HR E,
      ({ h with responses := h.responses ++ [{ msg := m }] } : HR E).step unmarshal
          (.takeAC h.responses.length) = some t ∧
        t.responses[h.responses.length]? = some ⟨m, true⟩ ∧ t.shareTable = h.shareTable ∧
        h.Keeps t := by
    have hlast : (h.responses ++ [{ msg := m }])[h.responses.length]? = some ⟨m, false⟩ :=
      List.getElem?_concat_length ..
    have hlen := (List.getElem?_eq_some_iff.mp hlast).1
    let responses := (h.responses ++ [ResponseTask.mk m false]).set h.responses.length ⟨m, true⟩
    by_cases hfirst : h.a = none ∨ h.c = none
    · refine ⟨{ h with responses := responses, a := m.a, c := m.c, acFrom := some m }, ?_,
        List.getElem?_set_self hlen, rfl, ⟨rfl, rfl, rfl, rfl, rfl, subset_rfl⟩⟩
      simp only [step, act, hlast, if_pos hfirst, Turn.toOption, responses]
    · refine ⟨{ h with responses := responses }, ?_, List.getElem?_set_self hlen, rfl,
        ⟨rfl, rfl, rfl, rfl, rfl, subset_rfl⟩⟩
      simp only [step, act, hlast, if_neg hfirst, Turn.toOption, responses]
  rw [← htable] at hset htaken
  have hshare : ∃ u : HR E, t.step unmarshal (.takeShare h.responses.length) = some u ∧
      u.pc = t.pc ∧ u.metaFileKey = t.metaFileKey ∧ u.asked = t.asked ∧
      u.decryptions = t.decryptions ∧ u.shareTable = table := by
    simp only [step, act, hresponses, hset, Turn.orPanic, Turn.map, Turn.toOption]
    exact ⟨_, rfl, rfl, rfl, rfl, rfl, rfl⟩
  obtain ⟨u, hstep, hpc, hfile, hasked, hdecryptions, rfl⟩ := hshare
  have hrun : Run (step unmarshal) (Takes m) h
      ([.response m] ++ [.takeAC h.responses.length] ++ [.takeShare h.responses.length]) u :=
    ((Run.one (by exact rfl) hresponse).append (.one (by trivial) hac)).append
      (.one (by trivial) hstep)
  refine ⟨_, u, hrun, hkept.trans ⟨hpc, hfile, hasked, hdecryptions, ?_, ?_⟩, ?_⟩
  · rcases htaken with ⟨_, heq⟩ | ⟨heq, _⟩
    · rw [heq]
    · exact heq
  · rcases htaken with ⟨_, heq⟩ | ⟨_, heq⟩
    · rw [heq]
    · rw [heq]
      exact Finset.subset_insert _ _
  · rcases htaken with ⟨henough, heq⟩ | ⟨_, heq⟩
    · exact .inl (heq ▸ henough)
    · exact .inr (heq ▸ Finset.mem_insert_self _ _)

end HR

variable {l : ℕ} [Fact l.Prime] {E : Type} [AddCommGroup E] [Module (ZMod l) E]
  {env : ServiceEnv l E}

/-- The nodes know the secret of the HR, or the key that its signatures are checked with. -/
def ServiceEnv.Enrolled (env : ServiceEnv l E) (addr : String) : Prop :=
  if env.signMethod = 1 then
    (env.hr addr).id < 2 ^ 63 ∧
      env.hrSecretTable.lookup (env.hr addr).id = some (env.hr addr).secret
  else
    ∃ key, env.getPublicKey addr = some key ∧
      ∀ data, env.verifyRSA data (env.signRSA data (env.getPrivateKey addr)) key = true

/-- The request of an HR that the nodes know passes the check. -/
theorem authenticate_requestFile {addr : String} (henrolled : env.Enrolled addr)
    {n : FileNode (ZMod l)} (hmethod : n.signMethod = env.signMethod)
    (hsecrets : n.hrSecretTable = env.hrSecretTable) (metaFileKey : String) (serviceIndex : ℕ) :
    n.authenticate env.requestPrimitives (env.requestFile addr metaFileKey serviceIndex) =
      .done true := by
  unfold ServiceEnv.Enrolled at henrolled
  split_ifs at henrolled with hsign
  · obtain ⟨hid, hsecret⟩ := henrolled
    have hkey : secretKey (toString (env.hr addr).id) = (env.hr addr).id := by
      rw [secretKey_of_parseInt (parseInt_toString _)]
      omega
    rw [ServiceEnv.requestFile, if_pos hsign, FileNode.authenticate, if_pos (hmethod.trans hsign)]
    dsimp only
    rw [← secretKey, hkey, hsecrets, hsecret]
    simp
  · obtain ⟨key, hkey, hverify⟩ := henrolled
    have hfound : env.requestPrimitives.getPublicKey addr = some key := hkey
    rw [ServiceEnv.requestFile, if_neg hsign, FileNode.authenticate,
      if_neg fun h => hsign (hmethod.symm.trans h)]
    dsimp only
    rw [hfound]
    exact if_pos (hverify _)

namespace FileService

variable {g g' : FileService l E} {addr id : String} {i : ℕ}

theorem step_node (hi : i < env.num) {e : FileEvent} (hfile : ∀ f, e ≠ .encryptedFile f)
    (hrequest : ∀ m, e ≠ .request m) : g.step env (.node i e) = g.stepNode env i e := by
  cases e with
  | encryptedFile f => exact absurd rfl (hfile f)
  | request m => exact absurd rfl (hrequest m)
  | _ => exact if_pos hi

theorem step_hr {e : HREvent} (hdownload : ∀ file, e ≠ .download file)
    (hresponse : ∀ m, e ≠ .response m) : g.step env (.hr addr e) = g.stepHR env addr e := by
  cases e with
  | download file => exact absurd rfl (hdownload file)
  | response m => exact absurd rfl (hresponse m)
  | _ => rfl

theorem exists_node_run {f : EncryptedFileMessage} {m : RequestFileMessage} (hi : i < env.num)
    (hf : f ∈ g.announced) (hm : m ∈ g.requested) {es : List FileEvent} {n u : FileNode (ZMod l)}
    (h : Run (FileNode.step env.requestPrimitives) (FileNode.Expects f m) n es u)
    (hn : g.nodes i = n) :
    ∃ es', Run (step env) NewIDs g es' { g with nodes := Function.update g.nodes i u } := by
  subst hn
  induction h with
  | nil =>
    rw [Function.update_eq_self]
    exact ⟨[], .nil⟩
  | @snoc es t u e _ hok hstep ih =>
    obtain ⟨es', hrun⟩ := ih
    have hmoved : ({ g with nodes := Function.update g.nodes i t } : FileService l E).stepNode env
        i e = some { g with nodes := Function.update g.nodes i u } := by
      simp only [stepNode, Function.update_self, hstep, Option.map_some, Function.update_idem]
    have hevent : ∃ event, NewIDs { g with nodes := Function.update g.nodes i t } event ∧
        step env { g with nodes := Function.update g.nodes i t } event =
          some { g with nodes := Function.update g.nodes i u } := by
      cases e with
      | encryptedFile f' =>
        obtain rfl : f' = f := hok
        obtain ⟨k, hk⟩ := List.mem_iff_getElem?.mp hf
        exact ⟨.file i k, trivial, by simp only [step, if_pos hi, hk, Option.bind_some, hmoved]⟩
      | request m' =>
        obtain rfl : m' = m := hok
        obtain ⟨k, hk⟩ := List.mem_iff_getElem?.mp hm
        exact ⟨.request i k, trivial, by simp only [step, if_pos hi, hk, Option.bind_some, hmoved]⟩
      | _ =>
        refine ⟨_, ?_, (step_node hi ?_ ?_).trans hmoved⟩
        · trivial
        · rintro _ ⟨⟩
        · rintro _ ⟨⟩
    obtain ⟨event, hnew, hstep⟩ := hevent
    exact ⟨_, .snoc hrun hnew hstep⟩

theorem exists_taking_run {m : ResponseFileMessage} {j : ℕ} (hm : g.answer addr i j = some m)
    {es : List HREvent} {h u : HR E} (hrun : Run (HR.step env.kyber.unmarshal) (HR.Takes m) h es u)
    (hh : g.hrs addr = h) :
    ∃ es', Run (step env) NewIDs g es' { g with hrs := Function.update g.hrs addr u } := by
  subst hh
  induction hrun with
  | nil =>
    rw [Function.update_eq_self]
    exact ⟨[], .nil⟩
  | @snoc es t u e _ hok hstep ih =>
    obtain ⟨es', hrun⟩ := ih
    have hmoved : ({ g with hrs := Function.update g.hrs addr t } : FileService l E).stepHR env
        addr e = some { g with hrs := Function.update g.hrs addr u } := by
      simp only [stepHR, Function.update_self, hstep, Option.map_some, Function.update_idem]
    have hevent : ∃ event, NewIDs { g with hrs := Function.update g.hrs addr t } event ∧
        step env { g with hrs := Function.update g.hrs addr t } event =
          some { g with hrs := Function.update g.hrs addr u } := by
      cases e with
      | download => exact hok.elim
      | response m' =>
        obtain rfl : m' = m := hok
        have hsame : ({ g with hrs := Function.update g.hrs addr t } : FileService l E).answer addr
            i j = some m' := hm
        exact ⟨.response addr i j, trivial, by simp only [step, hsame, Option.bind_some, hmoved]⟩
      | _ =>
        refine ⟨_, ?_, (step_hr ?_ ?_).trans hmoved⟩
        · trivial
        · rintro _ ⟨⟩
        · rintro _ ⟨⟩
    obtain ⟨event, hnew, hstep⟩ := hevent
    exact ⟨_, .snoc hrun hnew hstep⟩

structure Waits (env : ServiceEnv l E) (g : FileService l E) (addr id : String) : Prop where
  sound : g.Sound env
  pc : (g.hrs addr).pc = .polling id
  metaFileKey : (g.hrs addr).metaFileKey = id
  announced : ∃ f ∈ g.announced, f.id = id
  requested : ∃ serviceIndex, env.requestFile addr id serviceIndex ∈ g.requested

/-- A node where no request polls in vain gets its share to an HR that waits for it. -/
theorem Waits.exists_share (h : g.Waits env addr id) (henrolled : env.Enrolled addr)
    (hi : i < env.num) (hall : (g.nodes i).AllFound) :
    ∃ es g', Run (step env) NewIDs g es g' ∧ g'.Waits env addr id ∧
      (g.hrs addr).Keeps (g'.hrs addr) ∧ (g'.hrs addr).Has i ∧
      ∀ k ≠ i, g'.nodes k = g.nodes k := by
  obtain ⟨f, hf, hfid⟩ := h.announced
  obtain ⟨serviceIndex, hm⟩ := h.requested
  have hserved := h.sound.nodes i
  have hready : (g.nodes i).Ready :=
    ⟨h.sound.consistent i, hall, by rw [hserved.share]; rfl⟩
  have hauth := authenticate_requestFile henrolled hserved.method hserved.secrets id serviceIndex
  obtain ⟨es, u, j, response, hrun, hj⟩ :=
    hready.exists_answered (hfid.trans (by simp)) hauth
  obtain ⟨es₁, hrun₁⟩ := exists_node_run hi hf hm hrun rfl
  generalize ht : ({ g with nodes := Function.update g.nodes i u } : FileService l E) = t at hrun₁
  have hsound : t.Sound env := hrun₁.invariant h.sound fun hg hok hstep => hg.step hok hstep
  have hanswer : t.answer addr i j = some response := by
    subst ht
    simp [answer, hj]
  have hindex : response.i = i ∧ response.metaFileID = id := by
    have hj' : (t.nodes i).requests[j]? =
        some (env.requestFile addr id serviceIndex, .answered response) := by
      rw [← ht]
      simpa using hj
    obtain ⟨_, hi', hid, _⟩ := (hsound.nodes i).requests _ (List.mem_of_getElem? hj')
    exact ⟨hi', hid.trans (by simp)⟩
  have hhr : t.hrs addr = g.hrs addr := by rw [← ht]
  have hkey : (t.hrs addr).metaFileKey = response.metaFileID := by
    rw [hhr, h.metaFileKey, hindex.2]
  obtain ⟨es', hr, htake, hkeeps, hhas⟩ := HR.exists_taken (hsound.heard addr).table hkey
    (by rw [hindex.1]; exact hi)
  obtain ⟨es₂, hrun₂⟩ := exists_taking_run hanswer htake rfl
  refine ⟨_, _, hrun₁.append hrun₂, ?_, ?_, ?_, ?_⟩
  · constructor
    · exact hrun₂.invariant hsound fun hg hok hstep => hg.step hok hstep
    · simp [hkeeps.pc, hhr, h.pc]
    · simp [hkeeps.metaFileKey, hhr, h.metaFileKey]
    · subst ht
      exact ⟨f, hf, hfid⟩
    · subst ht
      exact ⟨serviceIndex, hm⟩
  · rw [hhr] at hkeeps
    simpa using hkeeps
  · simpa [hindex.1] using hhas
  · intro k hk
    subst ht
    exact Function.update_of_ne hk _ _

theorem Waits.exists_shares (h : g.Waits env addr id) (henrolled : env.Enrolled addr)
    {is : List ℕ} (hnodup : is.Nodup) (his : ∀ i ∈ is, i < env.num ∧ (g.nodes i).AllFound) :
    ∃ es g', Run (step env) NewIDs g es g' ∧ g'.Waits env addr id ∧
      (g.hrs addr).Keeps (g'.hrs addr) ∧ ∀ i ∈ is, (g'.hrs addr).Has i := by
  induction is generalizing g with
  | nil => exact ⟨[], g, .nil, h, ⟨rfl, rfl, rfl, rfl, rfl, subset_rfl⟩, by simp⟩
  | cons i is ih =>
    obtain ⟨hi, hrest⟩ := List.forall_mem_cons.mp his
    obtain ⟨hnew, hnodup⟩ := List.nodup_cons.mp hnodup
    obtain ⟨es₁, t, hrun, hwaits, hkeeps, hhas, hothers⟩ := h.exists_share henrolled hi.1 hi.2
    have hsame : ∀ k ∈ is, k < env.num ∧ (t.nodes k).AllFound := by
      intro k hk
      rw [hothers k (ne_of_mem_of_not_mem hk hnew)]
      exact hrest k hk
    obtain ⟨es₂, g', hrun', hwaits', hkeeps', hall⟩ := ih hwaits hnodup hsame
    exact ⟨_, g', hrun.append hrun', hwaits', hkeeps.trans hkeeps',
      List.forall_mem_cons.mpr ⟨hkeeps'.has hhas, hall⟩⟩

/-- With the shares of enough nodes the HR gets to a decryption. -/
theorem Waits.exists_decryption (h : g.Waits env addr id) {T : Finset ℕ}
    (hT : ∀ i ∈ T, (g.hrs addr).Has i) (hcard : shareThreshold env.num ≤ T.card) :
    ∃ es g' d, Run (step env) NewIDs g es g' ∧
      (g'.hrs addr).decryptions = (g.hrs addr).decryptions ++ [d] ∧ d.file = id := by
  obtain ⟨sent, hholds⟩ := (h.sound.heard addr).table
  have henough : (g.hrs addr).shareTable.threshold ≤
      (g.hrs addr).shareTable.shareTable.keys.card := by
    by_contra hfew
    have hsub : T ⊆ (g.hrs addr).shareTable.shareTable.keys := fun i hi =>
      (hT i hi).resolve_left hfew
    rw [hholds.threshold] at hfew
    exact hfew (hcard.trans (Finset.card_le_card hsub))
  have hget : (g.hrs addr).shareTable.get = some (g.hrs addr).shareTable.shares := if_pos henough
  have hcollect : g.step env (.hr addr .collect) = some { g with
      hrs := Function.update g.hrs addr { g.hrs addr with
        pc := .collected id (g.hrs addr).shareTable.shares } } := by
    simp [step, stepHR, HR.step, HR.act, h.pc, hget, Turn.toOption]
  generalize ht : ({ g with hrs := Function.update g.hrs addr { g.hrs addr with
    pc := .collected id (g.hrs addr).shareTable.shares } } : FileService l E) = t at hcollect
  have hpc : (t.hrs addr).pc = .collected id (g.hrs addr).shareTable.shares := by simp [← ht]
  have hdecryptions : (t.hrs addr).decryptions = (g.hrs addr).decryptions := by simp [← ht]
  have hdecrypt : ∃ u d, t.step env (.hr addr .decrypt) = some u ∧
      (u.hrs addr).decryptions = (t.hrs addr).decryptions ++ [d] ∧ d.file = id := by
    simp only [step, stepHR, HR.step, HR.act, hpc, Turn.toOption, Option.map_some]
    exact ⟨_, ⟨id, (g.hrs addr).shareTable.shares, (t.hrs addr).a, (t.hrs addr).c,
      (t.hrs addr).acFrom, (t.hrs addr).sharesFrom⟩, rfl, by simp, rfl⟩
  obtain ⟨u, d, hdecrypt, hlast, hfile⟩ := hdecrypt
  refine ⟨_, u, d, (Run.one (by trivial) hcollect).append (.one (by trivial) hdecrypt), ?_, hfile⟩
  rw [hlast, hdecryptions]

/-- Whatever went on before, an HR that asks for one file can get its key, if enough nodes have no
request that polls in vain and the calls of `Tag` that these make for it return. -/
theorem exists_key (hdealt : env.Dealt) (hround : env.kyber.RoundTrip)
    (hrecover : env.kyber.RecoversCommit l) {es : List (FileServiceEvent l)}
    (h : Run (step env) NewIDs (start env) es g) {myAddr : String} {chunkSize : UInt64}
    {key : FileKey} {ivs : ℕ → IV} {data : Bytes} {r : ZMod l} {random : Bytes}
    (hup : .upload id myAddr chunkSize key ivs data r random ∈ es)
    (hidle : (g.hrs addr).pc = .idle) (hasked : ∀ file ∈ (g.hrs addr).asked, file = id)
    (henrolled : env.Enrolled addr) {T : Finset ℕ}
    (hT : ∀ i ∈ T, i < env.num ∧ (g.nodes i).AllFound)
    (hcard : shareThreshold env.num ≤ T.card) :
    ∃ es' g' d, Run (step env) NewIDs g es' g' ∧
      (g'.hrs addr).decryptions = (g.hrs addr).decryptions ++ [d] ∧ d.file = id ∧
      keyPoint env g' addr d = some (env.embed key random) := by
  have hsound := sound_of_run h
  have hdownload : ∃ t, g.step env (.download addr id 0) = some t ∧
      (t.hrs addr).pc = .polling id ∧ (t.hrs addr).metaFileKey = id ∧
      (t.hrs addr).decryptions = (g.hrs addr).decryptions ∧ t.announced = g.announced ∧
      env.requestFile addr id 0 ∈ t.requested ∧ t.nodes = g.nodes := by
    simp only [step, stepHR, HR.step, HR.act, hidle, Turn.toOption, Option.map_some]
    exact ⟨_, rfl, by simp⟩
  obtain ⟨t, hdownload, hpc, hkey, hdecryptions, hannounced, hrequested, hnodes⟩ := hdownload
  have hwaits : t.Waits env addr id := by
    refine ⟨hsound.step (by trivial) hdownload, hpc, hkey, ?_, 0, hrequested⟩
    exact ⟨_, hannounced ▸ announced_of_run h.forget hup, rfl⟩
  obtain ⟨es₁, u, hrun₁, hwaits', hkeeps, hhas⟩ := hwaits.exists_shares henrolled T.nodup_toList
    fun i hi => hnodes ▸ hT i (Finset.mem_toList.mp hi)
  obtain ⟨es₂, g', d, hrun₂, hlast, hfile⟩ := hwaits'.exists_decryption
    (fun i hi => hhas i (Finset.mem_toList.mpr hi)) hcard
  rw [hkeeps.decryptions, hdecryptions] at hlast
  have hrun : Run (step env) NewIDs g _ g' :=
    ((Run.one (by trivial) hdownload).append hrun₁).append hrun₂
  refine ⟨_, g', d, hrun, hlast, hfile, ?_⟩
  have hall : ∀ d' ∈ (g'.hrs addr).decryptions, d'.file = id := by
    intro d' hd'
    rw [hlast] at hd'
    rcases List.mem_append.mp hd' with hd' | hd'
    · apply hasked
      rw [(hsound.traced addr).asked]
      exact List.mem_append_left _ (List.mem_map_of_mem hd')
    · rw [List.mem_singleton.mp hd', hfile]
  refine keys_right hdealt hround hrecover (h.append hrun) (fun d₁ h₁ d₂ h₂ => ?_)
    (List.mem_append_left _ hup) ?_ hfile
  · rw [hall d₁ h₁, hall d₂ h₂]
  · rw [hlast]
    exact List.mem_append_right _ (List.mem_singleton_self _)

end FileService

namespace Sample

theorem announced_isSome : (exec (guarded (FileService.step serviceEnv) FileService.NewIDs)
    (FileService.start serviceEnv) [uploads]).isSome := by decide +kernel

def announcedFile : FileService 7 (ZMod 7) :=
  (exec (guarded (FileService.step serviceEnv) FileService.NewIDs) (FileService.start serviceEnv)
    [uploads]).get announced_isSome

theorem run_announced : Run (FileService.step serviceEnv) FileService.NewIDs
    (FileService.start serviceEnv) [uploads] announcedFile :=
  run_of_guarded (run_exec_get announced_isSome)

theorem serviceEnv_enrolled : serviceEnv.Enrolled "B" := by
  rw [ServiceEnv.Enrolled, if_neg (by decide)]
  exact ⟨utf8 "B", by decide, fun data => by
    simp [serviceEnv, Encryption.Sample.filePrimitives, Sharing.Sample.primitives,
      JobPortal.Sample.primitives]⟩

theorem exists_key_announced :
    ∃ es g d, Run (FileService.step serviceEnv) FileService.NewIDs announcedFile es g ∧
      (g.hrs "B").decryptions = (announcedFile.hrs "B").decryptions ++ [d] ∧ d.file = fileID ∧
      FileService.keyPoint serviceEnv g "B" d = some 6 := by
  have hidle : (announcedFile.hrs "B").pc = .idle := by decide +kernel
  have hasked : (announcedFile.hrs "B").asked = [] := by decide +kernel
  have hrequests : ∀ i ∈ Finset.range 2, (announcedFile.nodes i).requests = [] := by decide +kernel
  refine FileService.exists_key serviceEnv_dealt kyber_roundTrip kyber_recoversCommit
    run_announced List.mem_cons_self hidle (fun file hfile => ?_) serviceEnv_enrolled
    (T := Finset.range 2) (fun i hi => ⟨Finset.mem_range.mp hi, fun r hr => ?_⟩) (by decide)
  · rw [hasked] at hfile
    cases hfile
  · rw [hrequests i hi] at hr
    cases hr

end Sample

end JobPortal.Cothority

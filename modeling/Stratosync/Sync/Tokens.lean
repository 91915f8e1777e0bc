import Stratosync.Foundations.Runs
import Stratosync.Sync.Poller

/-!
# Delta tokens

The history variable of this module has the tokens the backend issued. A full poll saves its
generation counter in the column the delta polls keep their token in, and the token fetched after
it replaces the counter, unless that call fails. `passesIssued_of_run`: where it fails only while
the column is empty, every token a delta poll passes to the backend is one the backend issued.
-/

namespace Stratosync

open Foundations.Runs

/-- Tokens the backend issued. -/
abbrev Issued := List Str

/-- The token the backend issues in a step. -/
def issuedBy (s : Site) : SiteEvent → Option Str
  | .poll env =>
    match s.poller with
    | some (.delta .startToken) => env.startToken.toOption
    | some (.delta (.changes _)) =>
      match env.changes with
      | .changes _ next => some next
      | _ => none
    | _ => none
  | _ => none

def recordIssued (s : Site) (ev : SiteEvent) (_ : Site) (g : Issued) : Issued :=
  (issuedBy s ev).toList ++ g

/-- A site in delta mode, with the history of issued tokens. -/
abbrev issuedStep (m : Mount) : Site × Issued → SiteEvent → Option (Site × Issued) :=
  withHistory (siteStep m true) recordIssued

/-- The token a step passes to `changes_since`. -/
def passedToken (s : Site) : SiteEvent → Option Str
  | .poll _ =>
    match s.poller with
    | some (.delta (.changes t)) => some t
    | _ => none
  | _ => none

/-- **A token passed to the backend is one it issued.** -/
def PassesIssued (x : Site × Issued) (ev : SiteEvent) (_ : Site × Issued) : Prop :=
  ∀ t ∈ passedToken x.1 ev, t ∈ x.2

/-- Fetching or storing a start token fails only while the column is empty. -/
def failsClean (s : Site) : SiteEvent → Bool
  | .poll env =>
    match s.poller with
    | some (.delta .startToken) => env.startToken.toOption.isSome || s.token.isNone
    | some (.delta (.storeStart _)) => !env.fault || s.token.isNone
    | _ => true
  | _ => true

/-! ## What the column holds -/

/-- Where the counter may be in the column, and where the tokens are that a delta poll keeps. -/
def DeltaPollPc.TokenOk (token : Option Str) (g : Issued) : DeltaPollPc → Prop
  | .full _ pc => pc.saved = true ∨ token = none
  | .startToken => True
  | .storeStart t => t ∈ g
  | .count => token = none
  | .changes t => t ∈ g ∧ ∀ t ∈ token, t ∈ g
  | .token | .clear | .cleanup => ∀ t ∈ token, t ∈ g
  | .tombstones _ next | .snapshot _ next _ | .apply _ _ _ next | .removeFile _ _ _ _ next
  | .store next _ => next ∈ g ∧ ∀ t ∈ token, t ∈ g

/-- The counter is in the column only from the end of a full poll on, until the start token
replaces it. -/
def PollerTokenOk (token : Option Str) (g : Issued) : Option PollerPc → Prop
  | none => ∀ t ∈ token, t ∈ g
  | some (.delta pc) => pc.TokenOk token g
  | some (.full _) => False

/-- The invariant. -/
def TokenInv (x : Site × Issued) : Prop := PollerTokenOk x.1.token x.2 x.1.poller

variable {m : Mount} {s : Site} {g : Issued}

/-- A full poll writes the column only when it saves its counter. -/
theorem FullPollStep.token_eq {env : PollEnv} {pc : FullPollPc} {s' : Site}
    {n : PollNext FullPollPc} (h : FullPollStep m s env pc s' n) :
    s'.token = s.token ∨ n = .goto .cleanup := by
  cases h with
  | generationSaved => exact .inr rfl
  | swept _ h => exact .inl (foldl_dropHeader_token Prod.fst _ _)
  | _ => exact .inl (by simp)

/-- A full poll that fails has not saved its counter. -/
theorem FullPollStep.not_saved {env : PollEnv} {pc : FullPollPc} {s' : Site}
    (h : FullPollStep m s env pc s' (.done false)) : pc.saved = false ∧ s'.token = s.token := by
  cases h with
  | fail h => exact ⟨h, rfl⟩
  | _ => exact ⟨rfl, rfl⟩

/-- Once the counter is saved, nothing else comes but the end of the poll. -/
theorem FullPollStep.saved {env : PollEnv} {pc pc' : FullPollPc} {s' : Site}
    (h : FullPollStep m s env pc s' (.goto pc')) (hpc : pc.saved = true) : pc'.saved = true := by
  cases h <;> first | rfl | cases hpc

/-- A poll that may end at a call has left a token of the backend in the column. -/
theorem DeltaPollPc.TokenOk.column {token : Option Str} {pc : DeltaPollPc}
    (h : pc.TokenOk token g) (hpc : pc.mayFail = true) : ∀ t ∈ token, t ∈ g := by
  cases pc with
  | token => exact h
  | clear => exact h
  | count =>
    obtain rfl : token = none := h
    exact fun t ht => nomatch ht
  | changes | snapshot | apply | store => exact h.2
  | _ => cases hpc

/-- A step of a delta poll goes on with tokens of the backend only. -/
theorem DeltaPollStep.tokenInv {env : PollEnv} {pc : DeltaPollPc} {s' : Site}
    {n : PollNext DeltaPollPc} (h : DeltaPollStep m s env pc s' n)
    (hpoller : s.poller = some (.delta pc)) (hpc : pc.TokenOk s.token g)
    (hclean : failsClean s (.poll env) = true) :
    PollerTokenOk s'.token ((issuedBy s (.poll env)).toList ++ g) (n.pc .delta) := by
  have hg : ∀ t ∈ g, t ∈ (issuedBy s (.poll env)).toList ++ g :=
    fun t ht => List.mem_append_right _ ht
  have hcolumn : ∀ {o : Option Str}, (∀ t ∈ o, t ∈ g) →
      ∀ t ∈ o, t ∈ (issuedBy s (.poll env)).toList ++ g := fun ho t ht => hg t (ho t ht)
  cases h with
  | fail h => exact hcolumn (hpc.column h)
  | tokenRead h => exact ⟨hg _ (hpc _ h), hcolumn hpc⟩
  | noToken h => exact h
  | emptyIndex => exact .inr hpc
  | filledIndex => trivial
  | full h =>
    rcases hpc with hsaved | hnone
    · exact .inl (h.saved hsaved)
    · rcases h.token_eq with he | he
      · exact .inr (he.trans hnone)
      · obtain rfl := PollNext.goto.inj he
        exact .inl rfl
  | fullDone h hok => trivial
  | fallbackFailed h =>
    -- the counter is not saved, and the column was cleared
    obtain ⟨hns, he⟩ := h.not_saved
    have hnone : s.token = none := hpc.resolve_left (by simp [hns])
    exact fun t ht => by rw [he, hnone] at ht; cases ht
  | started h =>
    refine List.mem_append_left _ ?_
    simp [issuedBy, hpoller, h, Except.toOption]
  | startFailed h =>
    have hnone : s.token = none := by simpa [failsClean, hpoller, h] using hclean
    exact fun t ht => by rw [hnone] at ht; cases ht
  | startStored => exact fun t ht => hg _ (Option.some.inj ht ▸ hpc)
  | storeStartFailed h =>
    have hnone : s.token = none := by simpa [failsClean, hpoller, h] using hclean
    exact fun t ht => by rw [hnone] at ht; cases ht
  | noChanges h | changed h =>
    refine ⟨List.mem_append_left _ ?_, hcolumn hpc.2⟩
    simp [issuedBy, hpoller, h]
  | expired h => exact hcolumn hpc.2
  | cleared => exact .inr rfl
  | tombstones => exact ⟨hg _ hpc.1, hcolumn hpc.2⟩
  | snapshot => exact ⟨hg _ hpc.1, hcolumn hpc.2⟩
  | batchDone => exact ⟨hg _ hpc.1, hcolumn hpc.2⟩
  | @applied _ _ _ _ _ a db _ h =>
    have htoken : (a.touched.elim (s.withDb db) (s.withDb db).dropHeader).token = s.token := by
      cases a.touched <;> rfl
    cases a.dropped <;> exact ⟨hg _ hpc.1, hcolumn (htoken ▸ hpc.2)⟩
  | applyRefused _ h => exact hcolumn hpc.2
  | @fileRemoved p =>
    have htoken : (s.removeFile env.fault p).token = s.token := s.removeFile_token _ _
    exact ⟨hg _ hpc.1, hcolumn (htoken ▸ hpc.2)⟩
  | @stored next more =>
    have hnext : ∀ t ∈ some next, t ∈ (issuedBy s (.poll env)).toList ++ g :=
      fun t ht => hg _ (Option.some.inj ht ▸ hpc.1)
    cases more <;> exact hnext
  | cleaned h => exact hcolumn hpc

/-! ## Runs -/

theorem tokenInv_of_step {x x' : Site × Issued} {ev : SiteEvent} (hx : TokenInv x)
    (hclean : failsClean x.1 ev = true) (h : issuedStep m x ev = some x') : TokenInv x' := by
  obtain ⟨s, g⟩ := x
  obtain ⟨s', g'⟩ := x'
  obtain ⟨hs, hg'⟩ := withHistory_eq_some.1 h
  obtain rfl : g' = recordIssued s ev s' g := hg'
  have hs : siteStep m true s ev = some s' := hs
  have hframe : s'.token = s.token → s'.poller = s.poller → (∀ env, ev ≠ .poll env) →
      TokenInv (s', recordIssued s ev s' g) := by
    intro ht hp hev
    have hnone : issuedBy s ev = none := by
      cases ev with
      | poll env => exact absurd rfl (hev env)
      | _ => rfl
    rw [TokenInv, recordIssued, hnone, ht, hp]
    exact hx
  cases siteStep_cases hs with
  | daemon _ _ _ => exact hframe rfl rfl fun _ => SiteEvent.noConfusion
  | populate _ _ _ _ => exact hframe rfl rfl fun _ => SiteEvent.noConfusion
  | population _ _ => exact hframe rfl rfl fun _ => SiteEvent.noConfusion
  | poll env =>
    have hx : PollerTokenOk s.token g s.poller := hx
    rw [TokenInv, recordIssued]
    cases hp : s.poller with
    | none =>
      rw [hp] at hx
      rw [issuedBy, hp, pollerStep, hp]
      exact hx
    | some pc =>
      rw [hp] at hx
      cases pc with
      | full pc => exact hx.elim
      | delta pc =>
        have hinv := (deltaPollStep_tick m s env pc).tokenInv hp hx hclean
        rw [pollerStep, hp]
        exact hinv

theorem passesIssued_of_inv {x x' : Site × Issued} {ev : SiteEvent} (hx : TokenInv x) :
    PassesIssued x ev x' := by
  intro t ht
  obtain ⟨s, g⟩ := x
  cases ev with
  | poll env =>
    simp only [passedToken] at ht
    split at ht
    · rename_i t' hp
      have hpc : PollerTokenOk s.token g s.poller := hx
      rw [hp] at hpc
      exact Option.some.inj ht ▸ hpc.1
    · cases ht
  | _ => cases ht

/-- **Delta tokens are those the backend issued**, in every run in delta mode in which fetching
and storing a start token fail only while the column is empty. -/
theorem passesIssued_of_run (m : Mount) (s : Site) (g : Issued) (evs : List SiteEvent)
    (hidle : s.poller = none) (htoken : ∀ t ∈ s.token, t ∈ g)
    (hclean : Guarded (issuedStep m) (fun x ev => failsClean x.1 ev = true) (s, g) evs) :
    Along (issuedStep m) PassesIssued (s, g) evs :=
  along_of_guarded (I := TokenInv) (fun _ _ _ hx hc h => tokenInv_of_step hx hc h)
    (fun _ _ _ hx _ _ => passesIssued_of_inv hx) (by rw [TokenInv, hidle]; exact htoken)
    hclean

/-- A step of the poller at which the remote is empty and this start token is given. -/
def SiteEvent.pollEmpty (startToken : Except SyncError Str) : SiteEvent :=
  .poll { fault := false, listing := .ok [], startToken, changes := .failed }

/-- A first delta poll, and the next one up to its call of the backend. -/
theorem passesIssued_startToken :
    Along (issuedStep sampleMount) PassesIssued (Site.init sampleMount 0, [])
      (List.replicate 20 (.pollEmpty (.ok ['t']))) :=
  passesIssued_of_run sampleMount (Site.init sampleMount 0) [] _ rfl (fun _ h => nomatch h)
    (by decide)

/-- The start token cannot be fetched after the first full poll. -/
theorem not_passesIssued_counter :
    ¬∀ (m : Mount) (evs : List SiteEvent),
      Along (issuedStep m) PassesIssued (Site.init m 0, []) evs := by
  intro h
  obtain ⟨s, hr, hp⟩ : ∃ s, run (issuedStep sampleMount) (Site.init sampleMount 0, [])
      (List.replicate 17 (.pollEmpty (.error .transient))) = some (s, []) ∧
      s.poller = some (.delta (.changes ['1'])) := ⟨_, rfl, rfl⟩
  have hlast := (h sampleMount (List.replicate 17 (.pollEmpty (.error .transient)) ++
    [.pollEmpty (.error .transient)])).drop hr
  have hmem := (hlast _ rfl).1 ['1'] (by simp [passedToken, SiteEvent.pollEmpty, hp])
  cases hmem

end Stratosync

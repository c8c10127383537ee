import ReputationSMR.JobCases

/-! What a node records of the behaviour of others: for each view, one row in each of six
maps. The scores depend on these rows only, and within a view only its own row changes. -/
namespace ReputationSMR

open Wire FiniteMap

/-- What a node has recorded of a view. -/
structure Transcript where
  proposals : Option (Map Nat Nat)
  votes : Option (Map Nat Nat)
  maliciousVotes : Option (Map Nat Nat)
  equivocations : Option (Map Nat Nat)
  withholdings : Option (Map Nat Nat)
  maliciousProposals : Option (Map Nat Nat)

-- A derived instance rewrites along equalities of maps that differ in the order of their
-- entries, where evaluation is stuck.
instance : DecidableEq Transcript := fun r r' =>
  decidable_of_iff (r.proposals = r'.proposals ∧ r.votes = r'.votes ∧ r.maliciousVotes = r'.maliciousVotes ∧
    r.equivocations = r'.equivocations ∧ r.withholdings = r'.withholdings ∧
    r.maliciousProposals = r'.maliciousProposals) (by cases r; cases r'; simp)

def Transcript.blank : Transcript := ⟨none,none,none,none,none,none⟩

def SyncHS.transcript (n : SyncHS) (view : Nat) : Transcript :=
  ⟨n.proposalMap.lookup view,n.voteMap.lookup view,n.voteMaliMap.lookup view,n.equiproposalMap.lookup view,
    n.withproposalMap.lookup view,n.maliproposalMap.lookup view⟩

/-- The score depends on the transcripts only. -/
theorem score_congr {p : Platform} {n n' : SyncHS} (same : ∀ view, n'.transcript view = n.transcript view)
    (nodeID : Nat) : n'.score p nodeID = n.score p nodeID := by
  have proposals : n'.proposalMap = n.proposalMap :=
    Finmap.ext_lookup fun view => congrArg Transcript.proposals (same view)
  have votes : n'.voteMap = n.voteMap := Finmap.ext_lookup fun view => congrArg Transcript.votes (same view)
  have maliciousVotes : n'.voteMaliMap = n.voteMaliMap :=
    Finmap.ext_lookup fun view => congrArg Transcript.maliciousVotes (same view)
  have equivocations : n'.equiproposalMap = n.equiproposalMap :=
    Finmap.ext_lookup fun view => congrArg Transcript.equivocations (same view)
  have withholdings : n'.withproposalMap = n.withproposalMap :=
    Finmap.ext_lookup fun view => congrArg Transcript.withholdings (same view)
  have maliciousProposals : n'.maliproposalMap = n.maliproposalMap :=
    Finmap.ext_lookup fun view => congrArg Transcript.maliciousProposals (same view)
  simp only [SyncHS.score, SyncHS.counts, proposals, votes, maliciousVotes, equivocations, withholdings,
    maliciousProposals]

/-! ## Only the present view is recorded -/

/-- A step within a view: the other transcripts and the reputations stay. -/
structure Within (n n' : SyncHS) : Prop where
  view : n'.view = n.view
  reputations : n'.reputationMap = n.reputationMap
  transcripts : ∀ u, u ≠ n.view → n'.transcript u = n.transcript u

section Jobs

variable {p : Platform} {cfg : NodeConfig} {n n' : SyncHS} {effect : Effect}

theorem Within.same (n : SyncHS) : Within n n := ⟨rfl,rfl,fun _ _ => rfl⟩

theorem recordLeader_other (m : BehaviourMap) (view leader : Nat) {u : Nat} (other : u ≠ view) :
    (SyncHS.recordLeader m view leader).lookup u = m.lookup u := by
  rw [SyncHS.recordLeader]
  split
  next => rfl
  next => rw [lookup_insert, if_neg other]

theorem put2_other (m : BehaviourMap) (view i x : Nat) {u : Nat} (other : u ≠ view) :
    (put2 m view i x).lookup u = m.lookup u := by
  rw [put2, lookup_insert, if_neg other]

theorem ForwardStep.within {fprop : Proposal} (step : ForwardStep p cfg n fprop n' effect) : Within n n' := by
  cases step with
  | leads _ _ _ _ _ =>
    refine ⟨rfl,rfl,fun u other => ?_⟩
    simp only [SyncHS.transcript, SyncHS.voted, SyncHS.addForward, SyncHS.remember, put2_other _ _ _ _ other]
  | follows _ _ _ _ _ =>
    refine ⟨rfl,rfl,fun u other => ?_⟩
    simp only [SyncHS.transcript, SyncHS.addForwardedBlock, SyncHS.addProposaltoViewMap, SyncHS.addNewBlock,
      SyncHS.addProposaltoMap, SyncHS.addForward, SyncHS.remember, recordLeader_other _ _ _ other]
  | _ => exact ⟨rfl,rfl,fun _ _ => rfl⟩

theorem openPool_within (n : SyncHS) : Within n (n.openPool n.view) := by
  rw [openPool_eq]
  exact ⟨rfl,rfl,fun _ _ => rfl⟩

theorem VoteStep.within {v : ProtoVote} {order : List Nat} (step : VoteStep p cfg n v order n' effect) :
    Within n n' := by
  have opened := openPool_within n
  cases step with
  | foreign d _ _ => exact .same n
  | dropped d _ _ _ => exact opened
  | counted d n' effect joins counted =>
    have credited (u : Nat) (other : u ≠ n.view) :
        ((n.openPool n.view).credit v).transcript u = n.transcript u := by
      rw [← opened.transcripts u other]
      simp only [SyncHS.transcript, SyncHS.credit, put2_other _ _ _ _ (opened.view ▸ other)]
    cases counted <;> exact ⟨opened.view,opened.reputations,credited⟩

theorem RoundCase.within (step : RoundCase p cfg n n' effect) : Within n n' := by
  cases step with
  | withholds _ _ =>
    rw [handleWithholdingProposal]
    split
    next => exact ⟨rfl,rfl,fun _ _ => rfl⟩
    next =>
      refine ⟨rfl,rfl,fun u other => ?_⟩
      simp only [SyncHS.transcript, SyncHS.appendEmptyBlock, SyncHS.appendBlock, SyncHS.addCert,
        SyncHS.addWitholdProposaltoMap, recordLeader_other _ _ _ other]
  | _ => exact ⟨rfl,rfl,fun _ _ => rfl⟩

theorem JobCase.within {order : List Nat} {job : Job} (step : JobCase p cfg n order job n' effect) :
    Within n n' := by
  cases step with
  | read _ _ _ step => exact step.within
  | voteHandled _ _ _ step => exact step.within
  | started _ _ step => exact step.within
  | emptied _ _ _ _ _ =>
    refine ⟨rfl,rfl,fun u other => ?_⟩
    simp only [SyncHS.transcript, SyncHS.appendEmptyBlock, SyncHS.appendBlock, SyncHS.addCert,
      SyncHS.addEquiProposaltoMap, recordLeader_other _ _ _ other]
  | announced _ =>
    refine ⟨rfl,rfl,fun u other => ?_⟩
    simp only [SyncHS.transcript, SyncHS.addProposaltoMap, recordLeader_other _ _ _ other]
  | maliProRecorded _ _ _ _ _ =>
    refine ⟨rfl,rfl,fun u other => ?_⟩
    simp only [SyncHS.transcript, SyncHS.addMaliProposaltoMap, put2_other _ _ _ _ other]
  | maliVoteRecorded _ _ _ _ _ _ _ =>
    refine ⟨rfl,rfl,fun u other => ?_⟩
    simp only [SyncHS.transcript, put2_other _ _ _ _ other]
  | voted _ _ | misvoted _ _ _ =>
    refine ⟨rfl,rfl,fun u other => ?_⟩
    simp only [SyncHS.transcript, SyncHS.voted, put2_other _ _ _ _ other]
  | _ => exact ⟨rfl,rfl,fun _ _ => rfl⟩

end Jobs

end ReputationSMR

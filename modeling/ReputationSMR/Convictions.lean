import ReputationSMR.Signing
import ReputationSMR.ReputationConsistency

/-! Convictions. A node convicts another one when a handler accepts evidence against it, so
what a record says about the convicted node is what the check of the evidence, in the view
in which it was handled, says about signatures. The checks say less than the records: they
do not compare the two headers of an equivocation, they look at the target where the record
is made for the miner, and a vote for the leader is evidence like any other. -/
namespace ReputationSMR

open Wire FiniteMap

inductive Offence where
  | equivocation | proposal | vote
  deriving DecidableEq

def SyncHS.record (n : SyncHS) : Offence → BehaviourMap
  | .equivocation => n.equiproposalMap
  | .proposal => n.maliproposalMap
  | .vote => n.voteMaliMap

inductive Convicts (p : Platform) (cfg : NodeConfig) (n : SyncHS) : Job → Offence → Nat → Prop where
  | equivocation (ev : EquivocationEvidence) : isEqpEvidenceValid p cfg n ev = some true →
      Convicts p cfg n (.eqEvidenceChannel ev) .equivocation n.leader
  | proposal (ev : MalicousProposalEvidence) (prop : Proposal) : isMalipEvidenceValid p cfg n ev = some true →
      ev.e = some prop → Convicts p cfg n (.maliProEvidenceChannel ev) .proposal prop.miner
  | vote (ev : MalicousVoteEvidence) (v : ProtoVote) (body : ProtoVoteBody) :
      isMalivEvidenceValid p cfg n ev = some true → ev.e = some v → v.body = some body →
      Convicts p cfg n (.maliVoteEvidenceChannel ev) .vote body.voter

section Jobs

variable {p : Platform} {cfg : NodeConfig} {n n' : SyncHS} {job : Job} {effect : Effect} {o : Offence}

theorem JobCase.convicts {order : List Nat} (step : JobCase p cfg n order job n' effect) {v x : Nat}
    (recorded : at2 (n'.record o) v x = some 1) :
    at2 (n.record o) v x = some 1 ∨ v = n.view ∧ Convicts p cfg n job o x := by
  have kept (same : n'.record o = n.record o) : at2 (n.record o) v x = some 1 := same ▸ recorded
  cases step with
  | read _ _ _ step => exact Or.inl (kept (step.unread (SyncHS.record · o) fun _ _ _ _ _ _ => by cases o <;> rfl))
  | voteHandled _ _ _ step => exact Or.inl (kept (step.unread (SyncHS.record · o) fun _ _ _ => by cases o <;> rfl))
  | started _ _ step => exact Or.inl (kept (step.unread (SyncHS.record · o) fun _ _ _ _ _ _ _ => by cases o <;> rfl))
  | emptied ev cert unrecorded valid _ =>
    cases o with
    | equivocation =>
      have entry : at2 (SyncHS.recordLeader n.equiproposalMap n.view n.leader) v x = some 1 := recorded
      rw [at2_recordLeader, if_neg unrecorded] at entry
      split at entry
      next here =>
        split at entry
        next leader => exact Or.inr ⟨here,leader ▸ .equivocation ev valid⟩
        next => contradiction
      next => exact Or.inl entry
    | proposal | vote => exact Or.inl recorded
  | maliProRecorded ev prop seen valid inside =>
    cases o with
    | proposal =>
      have entry : at2 (put2 n.maliproposalMap n.view prop.miner 1) v x = some 1 := recorded
      rw [at2_put2] at entry
      split at entry
      next here => exact Or.inr ⟨here.1,here.2 ▸ .proposal ev prop valid inside⟩
      next => exact Or.inl entry
    | equivocation | vote => exact Or.inl recorded
  | maliVoteRecorded ev vote body seen valid inside shape =>
    cases o with
    | vote =>
      have entry : at2 (put2 n.voteMaliMap n.view body.voter 1) v x = some 1 := recorded
      rw [at2_put2] at entry
      split at entry
      next here => exact Or.inr ⟨here.1,here.2 ▸ .vote ev vote body valid inside shape⟩
      next => exact Or.inl entry
    | equivocation | proposal => exact Or.inl recorded
  | _ => exact Or.inl (kept (by cases o <;> rfl))

end Jobs

theorem NodeCase.convicts {p : Platform} {cfg : NodeConfig} {node node' : Node} {event : NodeEvent}
    {sends : List Outgoing} {o : Offence} (case : NodeCase p cfg node event node' sends) {v x : Nat}
    (recorded : at2 (node'.state.record o) v x = some 1) : at2 (node.state.record o) v x = some 1 ∨
      ∃ index order job, event = .work index order ∧ node.pending[index]? = some job ∧
        v = node.state.view ∧ Convicts p cfg node.state job o x := by
  cases case with
  | connected => cases o <;> exact Or.inl recorded
  | received _ => exact Or.inl recorded
  | commanded cmd n' jobs case => cases case; cases o <;> exact Or.inl recorded
  | worked index order job n' jobs sends found case =>
    rcases case.convicts recorded with old | ⟨here,convicts⟩
    · exact Or.inl old
    · exact Or.inr ⟨index,order,job,rfl,found,here,convicts⟩
  | calledBack n' acks case => cases case <;> cases o <;> exact Or.inl recorded

/-! ## Where a record comes from -/

structure TakesUp (M : Guarded.Machine System SystemEvent) (start : System) (trace : List SystemEvent) (j : Nat)
    (job : Job) (earlier : List SystemEvent) (before : System) (e : SystemEvent) (later : List SystemEvent) :
    Prop where
  split : trace = earlier ++ e :: later
  run : M.Run start earlier before
  work : ∃ index order, e = .work j index order ∧ (before.nodes j).pending[index]? = some job

/-- Node `j` has taken up the job in this view. -/
def Handled (c : Cluster) (p : Platform) (trace : List SystemEvent) (j v : Nat) (job : Job) : Prop :=
  ∃ earlier before e later, TakesUp (systemMachine c p) (System.start c) trace j job earlier before e later ∧
    (before.nodes j).state.view = v

section Origins

variable {c : Cluster} {p : Platform} {s : System} {trace earlier later : List SystemEvent} {e : SystemEvent}
  {before : System} {j : Nat} {job : Job} {P : System → SystemEvent → Prop} {M : Guarded.Machine System SystemEvent}
  {start : System}

theorem TakesUp.snoc (takes : TakesUp M start trace j job earlier before e later) (e' : SystemEvent) :
    TakesUp M start (trace ++ [e']) j job earlier before e (later ++ [e']) :=
  ⟨by rw [takes.split]; simp,takes.run,takes.work⟩

theorem TakesUp.unrestrict (takes : TakesUp (M.restrict P) start trace j job earlier before e later) :
    TakesUp M start trace j job earlier before e later :=
  ⟨takes.split,takes.run.unrestrict,takes.work⟩

theorem TakesUp.rest (takes : TakesUp M start trace j job earlier before e later) (run : M.Run start trace s) :
    M.enabled before e ∧ M.Run before (e :: later) s := by
  rw [takes.split] at run
  obtain ⟨middle,first,second⟩ := run.split
  obtain ⟨before',_,first',admitted,_⟩ := run.event
  rw [takes.run.functional first]
  rw [first'.functional first] at admitted
  exact ⟨admitted,second⟩

theorem TakesUp.condition {F : System → Nat → Job → Prop}
    (takes : TakesUp (M.restrict (EachJob F)) start trace j job earlier before e later)
    (run : (M.restrict (EachJob F)).Run start trace s) : F before j job := by
  obtain ⟨index,order,rfl,found⟩ := takes.work
  exact (takes.rest run).1.2.work found

theorem TakesUp.pending (takes : TakesUp M start trace j job earlier before e later) : job ∈ (before.nodes j).pending := by
  obtain ⟨index,order,_,found⟩ := takes.work
  exact List.mem_of_getElem? found

theorem TakesUp.signed (takes : TakesUp (systemMachine c p) start trace j job earlier before e later)
    (run : (systemMachine c p).Run start trace s) {k : Nat} {data : Bytes} (signed : HasSigned p earlier before k data) :
    HasSigned p trace s k data := by
  rw [takes.split]
  exact signed.run (takes.rest run).2

theorem conviction_origin (run : M.Run (System.start c) trace s) (steps : M.step = System.step c p) {o : Offence}
    {v x : Nat} (recorded : at2 ((s.nodes j).state.record o) v x = some 1) : ∃ job earlier before e later,
      TakesUp M (System.start c) trace j job earlier before e later ∧ (before.nodes j).state.view = v ∧
        Convicts p (c.config j) (before.nodes j).state job o x := by
  refine run.history (I := fun past s => at2 ((s.nodes j).state.record o) v x = some 1 → ∃ job earlier before e later,
      TakesUp M (System.start c) past j job earlier before e later ∧ (before.nodes j).state.view = v ∧
        Convicts p (c.config j) (before.nodes j).state job o x) ?_ ?_ recorded
  · intro none
    cases o <;> contradiction
  · intro past s e t run ih admitted moved recorded
    have old (same : at2 ((s.nodes j).state.record o) v x = some 1) : ∃ job earlier before e' later,
        TakesUp M (System.start c) (past ++ [e]) j job earlier before e' later ∧ (before.nodes j).state.view = v ∧
          Convicts p (c.config j) (before.nodes j).state job o x := by
      obtain ⟨job,earlier,before,e',later,takes,view,convicts⟩ := ih same
      exact ⟨job,earlier,before,e',later ++ [e],takes.snoc e,view,convicts⟩
    rw [steps] at moved
    rcases (System.step_cases moved).moves with ⟨_,_,_,rfl⟩ | ⟨i,event,sends,moves⟩
    · exact old recorded
    · by_cases same : j = i
      · subst same
        rcases moves.case.convicts recorded with before | ⟨index,order,job,work,found,here,convicts⟩
        · exact old before
        · exact ⟨job,past,s,e,[],⟨rfl,run,index,order,moves.works index order work,found⟩,here.symm,convicts⟩
      · rw [moves.other j same] at recorded
        exact old recorded

end Origins

/-! ## What the checks establish -/

section Checks

variable {c : Cluster} {p : Platform} {cfg : NodeConfig} {n : SyncHS} {s : System} {trace : List SystemEvent} {j : Nat}

theorem isEqpEvidenceValid_signed {ev : EquivocationEvidence} (valid : isEqpEvidenceValid p cfg n ev = some true) :
    ∀ e, e = ev.e1 ∨ e = ev.e2 → signedBy p cfg n.leader (marshalHeader (e.bind Proposal.getHeader))
      ((e.map Proposal.miningProof).getD []) = some true := by
  simp only [isEqpEvidenceValid, Option.bind_eq_bind, Option.bind_eq_some_iff] at valid
  obtain ⟨_,_,data,_,valid⟩ := valid
  split at valid
  next => contradiction
  next =>
    obtain ⟨first,second⟩ := andThen_true (andThen_true valid).2
    rintro e (rfl | rfl)
    · exact first
    · exact second

theorem isMalipEvidenceValid_signed {ev : MalicousProposalEvidence} {prop : Proposal}
    (valid : isMalipEvidenceValid p cfg n ev = some true) (inside : ev.e = some prop) :
    (∃ data, ev.evidence.bind Evidence.evidenceData = some data ∧ data.misbehaviourTarget ≠ n.leader) ∧
      signedBy p cfg prop.miner (marshalHeader prop.getHeader) prop.miningProof = some true := by
  simp only [isMalipEvidenceValid, inside, Option.bind_eq_bind, Option.bind_some, Option.bind_eq_some_iff] at valid
  obtain ⟨envelope,found,data,named,valid⟩ := valid
  split at valid
  next => contradiction
  next other =>
    obtain ⟨block,shape,signed⟩ := Option.bind_eq_some_iff.mp (andThen_true valid).2
    refine ⟨⟨data,by rw [found]; exact named,other⟩,?_⟩
    rwa [Proposal.getHeader, shape]

theorem isMalivEvidenceValid_signed {ev : MalicousVoteEvidence} {vote : ProtoVote} {body : ProtoVoteBody}
    (valid : isMalivEvidenceValid p cfg n ev = some true) (inside : ev.e = some vote) (shape : vote.body = some body) :
    ∃ d data, vote.data = some d ∧ ev.evidence.bind Evidence.evidenceData = some data ∧
      signedBy p cfg body.voter d.marshal body.signature = some true := by
  simp only [isMalivEvidenceValid, inside, shape, Option.bind_eq_bind, Option.bind_some,
    Option.bind_eq_some_iff] at valid
  obtain ⟨d,cast,envelope,found,data,named,valid⟩ := valid
  exact ⟨d,data,cast,by rw [found]; exact named,(andThen_true valid).2⟩

variable (regular : c.Regular) (authentic : Authentic c p trace s) (honest : j ∈ c.honestNodes)
include regular authentic honest

theorem Authentic.equivocation (law : p.Unforgeable c.size) {ev : EquivocationEvidence}
    (member : .eqEvidenceChannel ev ∈ (s.nodes j).pending)
    (valid : isEqpEvidenceValid p (c.config j) (s.nodes j).state ev = some true) : ∃ prop1 prop2,
      ev.e1 = some prop1 ∧ ev.e2 = some prop2 ∧
      HasSigned p trace s (s.nodes j).state.leader (marshalHeader prop1.getHeader) ∧
      HasSigned p trace s (s.nodes j).state.leader (marshalHeader prop2.getHeader) := by
  have signed := isEqpEvidenceValid_signed valid
  have given (e : Option Proposal) (listed : e = ev.e1 ∨ e = ev.e2) : ∃ prop, e = some prop := by
    cases e with
    | some prop => exact ⟨prop,rfl⟩
    | none => exact absurd (signedBy_true (signed none listed)).2 (law.nonempty _ _)
  obtain ⟨prop1,first⟩ := given ev.e1 (Or.inl rfl)
  obtain ⟨prop2,second⟩ := given ev.e2 (Or.inr rfl)
  refine ⟨prop1,prop2,first,second,?_,?_⟩
  · refine authentic.signedBy regular honest member ?_ (signed (some prop1) (Or.inl first.symm))
    simp [Job.signatures,SyncHSMsg.signatures,first,Proposal.signatures]
  · refine authentic.signedBy regular honest member ?_ (signed (some prop2) (Or.inr second.symm))
    simp [Job.signatures,SyncHSMsg.signatures,second,Proposal.signatures]

theorem Authentic.proposal {ev : MalicousProposalEvidence} {prop : Proposal}
    (member : .maliProEvidenceChannel ev ∈ (s.nodes j).pending)
    (valid : isMalipEvidenceValid p (c.config j) (s.nodes j).state ev = some true) (inside : ev.e = some prop) :
    HasSigned p trace s prop.miner (marshalHeader prop.getHeader) := by
  refine authentic.signedBy regular honest member ?_ (isMalipEvidenceValid_signed valid inside).2
  simp [Job.signatures,SyncHSMsg.signatures,inside,Proposal.signatures]

theorem Authentic.vote {ev : MalicousVoteEvidence} {vote : ProtoVote} {body : ProtoVoteBody} {d : ProtoVoteData}
    (member : .maliVoteEvidenceChannel ev ∈ (s.nodes j).pending)
    (valid : isMalivEvidenceValid p (c.config j) (s.nodes j).state ev = some true) (inside : ev.e = some vote)
    (shape : vote.body = some body) (cast : vote.data = some d) : HasSigned p trace s body.voter d.marshal := by
  obtain ⟨d',_,cast',_,signed⟩ := isMalivEvidenceValid_signed valid inside shape
  obtain rfl := Option.some.inj (cast.symm.trans cast')
  refine authentic.signedBy regular honest member ?_ signed
  simp [Job.signatures,SyncHSMsg.signatures,inside,ProtoVote.signatures,ProtoVote.getSignature,marshalVoteData,cast,shape]

end Checks

/-! ## Malicious votes -/

/-- Accepted evidence of a malicious vote names the voter as its target, and the vote is
for a block, of the present view, and not owned by the leader. -/
def FitsVote (c : Cluster) (p : Platform) (s : System) (i : Nat) : Job → Prop
  | .maliVoteEvidenceChannel ev => isMalivEvidenceValid p (c.config i) (s.nodes i).state ev = some true →
      ∀ vote ∈ ev.e, ∀ d ∈ vote.data, ∀ data ∈ ev.evidence.bind Evidence.evidenceData,
        vote.getVoter = data.misbehaviourTarget ∧ d.blockHash ≠ [] ∧ d.view = (s.nodes i).state.view ∧
          d.owner ≠ (s.nodes i).state.leader
  | _ => True

instance (c : Cluster) (p : Platform) (s : System) (i : Nat) (job : Job) : Decidable (FitsVote c p s i job) :=
  match job with
  | .maliVoteEvidenceChannel _ => inferInstanceAs (Decidable (_ → _))
  | .forward _ | .proposeChannel _ | .maliPropseChannel _ | .voteChannel _ | .eqEvidenceChannel _
  | .maliProEvidenceChannel _ | .round | .proposed _ | .vote _ | .addCert _ _ | .sendEqProEvidence _ _
  | .sendMalivoteEvidence _ => isTrue trivial

/-- Node `x` has signed a vote of the view that is not for the leader. -/
structure ForeignVote (c : Cluster) (p : Platform) (trace : List SystemEvent) (s : System) (v x : Nat)
    (d : ProtoVoteData) : Prop where
  started : 1 ≤ d.view
  view : d.view = v
  hash : d.blockHash ≠ []
  owner : d.owner ≠ leaderOf c.size v
  signed : HasSigned p trace s x d.marshal

section Accuracy

variable {c : Cluster} {p : Platform} {s : System} {trace : List SystemEvent} {j : Nat}

/-- In every run in which accepted evidence fits, a node is recorded for a malicious vote
only on evidence against it and because it has signed such a vote; a node whose votes are
all for the leader of their view is not recorded. -/
theorem malicious_vote_records_are_accurate (regular : c.Regular) (law : p.Unforgeable c.size)
    (run : ((systemMachine c p).restrict (EachJob (FitsVote c p))).Run (System.start c) trace s)
    (honest : j ∈ c.honestNodes) :
    (∀ v x, at2 (s.nodes j).state.voteMaliMap v x = some 1 → ∃ ev data d,
      Handled c p trace j v (.maliVoteEvidenceChannel ev) ∧ ev.evidence.bind Evidence.evidenceData = some data ∧
      data.misbehaviourTarget = x ∧ ev.e.bind ProtoVote.data = some d ∧ ForeignVote c p trace s v x d) ∧
    ∀ x, (∀ d : ProtoVoteData, 1 ≤ d.view → d.blockHash ≠ [] → HasSigned p trace s x d.marshal →
      d.owner = leaderOf c.size d.view) → ∀ v, at2 (s.nodes j).state.voteMaliMap v x ≠ some 1 := by
  have accurate (v x : Nat) (recorded : at2 (s.nodes j).state.voteMaliMap v x = some 1) : ∃ ev data d,
      Handled c p trace j v (.maliVoteEvidenceChannel ev) ∧ ev.evidence.bind Evidence.evidenceData = some data ∧
      data.misbehaviourTarget = x ∧ ev.e.bind ProtoVote.data = some d ∧ ForeignVote c p trace s v x d := by
    obtain ⟨job,earlier,before,e,later,takes,view,convicts⟩ :=
      conviction_origin (p := p) run rfl (show at2 ((s.nodes j).state.record .vote) v x = some 1 from recorded)
    have authentic := run_authentic law regular takes.run.unrestrict
    have turn := authentic.turns j honest
    have fits := takes.condition run
    cases convicts with
    | vote ev vote body valid inside shape =>
      obtain ⟨d,data,cast,envelope,_⟩ := isMalivEvidenceValid_signed valid inside shape
      have signed := authentic.vote regular honest takes.pending valid inside shape cast
      obtain ⟨target,hash,now,owner⟩ := fits valid vote inside d cast data envelope
      have voter : vote.getVoter = body.voter := by simp [ProtoVote.getVoter,shape]
      refine ⟨ev,data,d,⟨earlier,before,e,later,takes.unrestrict,view⟩,envelope,voter ▸ target.symm,?_,?_⟩
      · rw [inside]
        exact cast
      · rw [turn.2, view] at owner
        exact ⟨now ▸ turn.1,now.trans view,hash,owner,takes.unrestrict.signed run.unrestrict signed⟩
  refine ⟨accurate,fun x faithful v recorded => ?_⟩
  obtain ⟨_,_,d,_,_,_,_,foreign⟩ := accurate v x recorded
  exact foreign.owner (foreign.view ▸ faithful d foreign.started foreign.hash foreign.signed)

end Accuracy

def traitorsOwnVote : ProtoVote := signVote transparent (oneTraitor.config 2) ⟨List.replicate 32 7,1,2⟩

theorem traitors_vote_is_recorded : ∃ trace s,
    ((systemMachine oneTraitor transparent).restrict (EachJob (FitsVote oneTraitor transparent))).Run
      (System.start oneTraitor) trace s ∧ at2 (s.nodes 0).state.voteMaliMap 1 2 = some 1 ∧
    ∃ d, ForeignVote oneTraitor transparent trace s 1 2 d := by
  obtain ⟨s,run,recorded⟩ := Guarded.Machine.reaches
    (fun s : System => at2 (s.nodes 0).state.voteMaliMap 1 2 = some 1)
    (show (((systemMachine oneTraitor transparent).restrict (EachJob (FitsVote oneTraitor transparent))).replay
      [.inject 0 (.mvevidence ⟨some (signEvidence transparent (oneTraitor.config 2) ⟨2,1⟩),some traitorsOwnVote⟩),
        .deliver 0,.work 0 0 []] (System.start oneTraitor)).any _ = true by decide +kernel)
  obtain ⟨_,_,d,_,_,_,_,foreign⟩ := (malicious_vote_records_are_accurate (complete_regular _ _ _ _ _)
    (transparent_unforgeable (by decide)) run (by decide)).1 1 2 recorded
  exact ⟨_,s,run,recorded,d,foreign⟩

/-- The vote of node one for the leader's block, in evidence from the traitor. -/
def properVoteAsEvidence : SyncHSMsg :=
  .mvevidence ⟨some (signEvidence transparent (oneTraitor.config 2) ⟨1,1⟩),
    some (signVote transparent (oneTraitor.config 1) ⟨(firstProposal.block.map ProtoBlock.blockHash).getD [],1,0⟩)⟩

theorem proper_vote_is_recorded : ∃ trace s,
    (systemMachine oneTraitor transparent).Run (System.start oneTraitor) trace s ∧ 1 ∈ oneTraitor.honestNodes ∧
    at2 (s.nodes 0).state.voteMaliMap 1 1 = some 1 ∧ (s.nodes 0).state.leader = 0 ∧
    s.signed.filter (fun entry => entry.1 = 1 ∧ headerHeight entry.2 = none) =
      [(1,(ProtoVoteData.mk ((firstProposal.block.map ProtoBlock.blockHash).getD []) 1 0).marshal)] := by
  obtain ⟨s,run,recorded,leader,votes⟩ := Guarded.Machine.reaches
    (fun s : System => at2 (s.nodes 0).state.voteMaliMap 1 1 = some 1 ∧ (s.nodes 0).state.leader = 0 ∧
      s.signed.filter (fun entry => entry.1 = 1 ∧ headerHeight entry.2 = none) =
        [(1,(ProtoVoteData.mk ((firstProposal.block.map ProtoBlock.blockHash).getD []) 1 0).marshal)])
    (show ((systemMachine oneTraitor transparent).replay
      (traitorForwards ++ [.inject 0 properVoteAsEvidence,.deliver 2,.work 0 1 []])
        (System.start oneTraitor)).any _ = true by decide +kernel)
  exact ⟨_,s,run,by decide,recorded,leader,votes⟩

/-! ## Malicious proposals -/

/-- Accepted evidence of a malicious proposal names the miner as its target, and the header
has the height of the present view and is one that no honest node has signed, not even to
forward it. -/
def FitsProposal (c : Cluster) (p : Platform) (s : System) (i : Nat) : Job → Prop
  | .maliProEvidenceChannel ev => isMalipEvidenceValid p (c.config i) (s.nodes i).state ev = some true →
      ∀ prop ∈ ev.e, ∀ data ∈ ev.evidence.bind Evidence.evidenceData, prop.miner = data.misbehaviourTarget ∧
        (∃ h ∈ prop.getHeader, h.height = (s.nodes i).state.view) ∧
        ∀ k ∈ c.honestNodes, ¬s.made k (marshalHeader prop.getHeader)
  | _ => True

instance (c : Cluster) (p : Platform) (s : System) (i : Nat) (job : Job) : Decidable (FitsProposal c p s i job) :=
  match job with
  | .maliProEvidenceChannel _ => inferInstanceAs (Decidable (_ → _))
  | .forward _ | .proposeChannel _ | .maliPropseChannel _ | .voteChannel _ | .eqEvidenceChannel _
  | .maliVoteEvidenceChannel _ | .round | .proposed _ | .vote _ | .addCert _ _ | .sendEqProEvidence _ _
  | .sendMalivoteEvidence _ => isTrue trivial

/-- Node `x` has signed a header of the view, which it does not lead. -/
structure ForeignHeader (c : Cluster) (p : Platform) (trace : List SystemEvent) (s : System) (v x : Nat)
    (h : ProtoHeader) : Prop where
  other : x ≠ leaderOf c.size v
  height : h.height = v
  signed : HasSigned p trace s x h.marshal

section ProposalAccuracy

variable {c : Cluster} {p : Platform} {s : System} {trace : List SystemEvent} {j : Nat}

/-- In every run in which accepted evidence fits, a node is recorded for a malicious
proposal only on evidence against it, when it is not the leader and has signed a header of
the view; an honest node, or one that signs headers only for the views it leads, is not
recorded. -/
theorem malicious_proposal_records_are_accurate (regular : c.Regular) (law : p.Unforgeable c.size)
    (run : ((systemMachine c p).restrict (EachJob (FitsProposal c p))).Run (System.start c) trace s)
    (honest : j ∈ c.honestNodes) :
    (∀ v x, at2 (s.nodes j).state.maliproposalMap v x = some 1 → ∃ ev data h,
      Handled c p trace j v (.maliProEvidenceChannel ev) ∧ ev.evidence.bind Evidence.evidenceData = some data ∧
      data.misbehaviourTarget = x ∧ ev.e.bind Proposal.getHeader = some h ∧ ForeignHeader c p trace s v x h) ∧
    ∀ x, (x ∈ c.honestNodes ∨ ∀ h : ProtoHeader, HasSigned p trace s x h.marshal → leaderOf c.size h.height = x) →
      ∀ v, at2 (s.nodes j).state.maliproposalMap v x ≠ some 1 := by
  have accurate (v x : Nat) (recorded : at2 (s.nodes j).state.maliproposalMap v x = some 1) :
      x ∉ c.honestNodes ∧ ∃ ev data h,
        Handled c p trace j v (.maliProEvidenceChannel ev) ∧ ev.evidence.bind Evidence.evidenceData = some data ∧
        data.misbehaviourTarget = x ∧ ev.e.bind Proposal.getHeader = some h ∧ ForeignHeader c p trace s v x h := by
    obtain ⟨job,earlier,before,e,later,takes,view,convicts⟩ :=
      conviction_origin (p := p) run rfl (show at2 ((s.nodes j).state.record .proposal) v x = some 1 from recorded)
    have authentic := run_authentic law regular takes.run.unrestrict
    have fits := takes.condition run
    cases convicts with
    | proposal ev prop valid inside =>
      have signed := authentic.proposal regular honest takes.pending valid inside
      obtain ⟨⟨data,envelope,other⟩,_⟩ := isMalipEvidenceValid_signed valid inside
      obtain ⟨target,⟨h,header,height⟩,unmade⟩ := fits valid prop inside data envelope
      rw [(authentic.turns j honest).2, view] at other
      refine ⟨fun member => unmade _ member (signed.made takes.run.unrestrict member),
        ev,data,h,⟨earlier,before,e,later,takes.unrestrict,view⟩,envelope,target.symm,?_,target ▸ other,
        height.trans view,?_⟩
      · rw [inside]
        exact header
      · have lasts := takes.unrestrict.signed run.unrestrict signed
        rwa [header] at lasts
  refine ⟨fun v x recorded => (accurate v x recorded).2,fun x innocent v recorded => ?_⟩
  obtain ⟨dishonest,_,_,h,_,_,_,_,foreign⟩ := accurate v x recorded
  rcases innocent with member | leads
  · exact dishonest member
  · exact foreign.other (foreign.height ▸ (leads h foreign.signed).symm)

end ProposalAccuracy

def traitorsProposal : Proposal :=
  newCandidateProposal transparent (oneTraitor.config 2) .init [[1]] genesisCert 1 [7]

theorem traitors_proposal_is_recorded : ∃ trace s,
    ((systemMachine oneTraitor transparent).restrict (EachJob (FitsProposal oneTraitor transparent))).Run
      (System.start oneTraitor) trace s ∧ at2 (s.nodes 0).state.maliproposalMap 1 2 = some 1 ∧
    ∃ h, ForeignHeader oneTraitor transparent trace s 1 2 h := by
  obtain ⟨s,run,recorded⟩ := Guarded.Machine.reaches
    (fun s : System => at2 (s.nodes 0).state.maliproposalMap 1 2 = some 1)
    (show (((systemMachine oneTraitor transparent).restrict (EachJob (FitsProposal oneTraitor transparent))).replay
      [.inject 0 (.mpevidence ⟨some (signEvidence transparent (oneTraitor.config 2) ⟨2,1⟩),some traitorsProposal⟩),
        .deliver 0,.work 0 0 []] (System.start oneTraitor)).any _ = true by decide +kernel)
  obtain ⟨_,_,h,_,_,_,_,foreign⟩ := (malicious_proposal_records_are_accurate (complete_regular _ _ _ _ _)
    (transparent_unforgeable (by decide)) run (by decide)).1 1 2 recorded
  exact ⟨_,s,run,recorded,h,foreign⟩

def leaderAnnounces : List SystemEvent := [.command 0 [1],.work 0 0 [],.work 0 0 []]

/-- The traitor accuses itself with the proposal of the leader. -/
theorem leader_is_recorded_for_proposing : ∃ trace s,
    (systemMachine oneTraitor transparent).Run (System.start oneTraitor) trace s ∧ 0 ∈ oneTraitor.honestNodes ∧
    at2 (s.nodes 1).state.maliproposalMap 1 0 = some 1 ∧ leaderOf oneTraitor.size 1 = 0 := by
  obtain ⟨s,run,recorded⟩ := Guarded.Machine.reaches
    (fun s : System => at2 (s.nodes 1).state.maliproposalMap 1 0 = some 1)
    (show ((systemMachine oneTraitor transparent).replay (leaderAnnounces ++
      [.inject 1 (.mpevidence ⟨some (signEvidence transparent (oneTraitor.config 2) ⟨2,1⟩),some firstProposal⟩),
        .deliver 1,.work 1 0 []]) (System.start oneTraitor)).any _ = true by decide +kernel)
  exact ⟨_,s,run,by decide,recorded,rfl⟩

/-! ## Equivocation -/

/-- Headers carry no view, their height has to stand for it. A proposal that is passed on has
the height of the present view, and accepted evidence of an equivocation has two different
headers with that height. -/
def OneHeader (c : Cluster) (p : Platform) (s : System) (i : Nat) : Job → Prop
  | .forward prop => ∀ ep ∈ ExtProposal.fromProto p prop,
      checkProposal p (c.config i) (s.nodes i).state ep = some true →
      headerHeight (marshalHeader prop.getHeader) = some (s.nodes i).state.view
  | .eqEvidenceChannel ev => isEqpEvidenceValid p (c.config i) (s.nodes i).state ev = some true →
      ∀ prop1 ∈ ev.e1, ∀ prop2 ∈ ev.e2,
        headerHeight (marshalHeader prop1.getHeader) = some (s.nodes i).state.view ∧
        headerHeight (marshalHeader prop2.getHeader) = some (s.nodes i).state.view ∧
        marshalHeader prop1.getHeader ≠ marshalHeader prop2.getHeader
  | _ => True

instance (c : Cluster) (p : Platform) (s : System) (i : Nat) (job : Job) : Decidable (OneHeader c p s i job) :=
  match job with
  | .forward prop => inferInstanceAs (Decidable (∀ ep ∈ ExtProposal.fromProto p prop, _))
  | .eqEvidenceChannel _ => inferInstanceAs (Decidable (_ → _))
  | .proposeChannel _ | .maliPropseChannel _ | .voteChannel _ | .maliProEvidenceChannel _
  | .maliVoteEvidenceChannel _ | .round | .proposed _ | .vote _ | .addCert _ _ | .sendEqProEvidence _ _
  | .sendMalivoteEvidence _ => isTrue trivial

theorem NodeCase.head_le {p : Platform} {cfg : NodeConfig} {node node' : Node} {event : NodeEvent}
    {sends : List Outgoing} (case : NodeCase p cfg node event node' sends) :
    node.state.bc.head ≤ node'.state.bc.head := by
  cases case.step with
  | outside _ _ _ _ _ bc _ _ _ _ _ => rw [bc]
  | worked index order job n' effect found step =>
    cases step.chain with
    | quiet bc _ _ => exact bc ▸ le_rfl
    | stored _ _ _ bc _ _ => exact bc ▸ le_rfl
    | certified _ _ _ _ _ bc _ _ _ => exact bc ▸ le_rfl
    | extended b _ bc _ _ => exact bc ▸ Nat.le_succ _
    | emptied b _ bc _ _ => exact bc ▸ Nat.le_succ _
  | calledBack n' effect step => cases step <;> exact le_rfl

/-- An honest node has signed at most one header for each view that it leads, and none for
views beyond its chain. -/
structure Disciplined (c : Cluster) (s : System) : Prop where
  reached : ∀ k ∈ c.honestNodes, ∀ data v, s.made k data → headerHeight data = some v →
    leaderOf c.size v = k → v ≤ (s.nodes k).state.bc.head
  unique : ∀ k ∈ c.honestNodes, ∀ data data' v, s.made k data → s.made k data' → headerHeight data = some v →
    headerHeight data' = some v → leaderOf c.size v = k → data = data'

section Discipline

variable {c : Cluster} {p : Platform} {s t : System} {e : SystemEvent} {trace : List SystemEvent} {j : Nat}

theorem Disciplined.fresh (regular : c.Regular) (sincere : c.Sincere) (authentic : Authentic c p trace s)
    (made : ∀ k ∈ c.honestNodes, ∀ data, HasSigned p trace s k data → s.made k data)
    (honest : j ∈ c.honestNodes) {job : Job} (member : job ∈ (s.nodes j).pending) (one : OneHeader c p s j job)
    {n' : SyncHS} {data : Bytes} {v : Nat} (signs : Signs p (c.config j) (s.nodes j).state n' job data)
    (height : headerHeight data = some v) (leads : leaderOf c.size v = j) : s.made j data ∨
      v = (s.nodes j).state.bc.head + 1 ∧ n'.bc.head = v ∧ ∃ cert,
        (s.nodes j).state.certMap.lookup (s.nodes j).state.bc.head = some cert ∧
        data = (newHeader p cert ((s.nodes j).state.bc.head + 1) []).marshal := by
  obtain ⟨started,turn⟩ := authentic.turns j honest
  rcases signs.header started (sincere j honest) height with
    ⟨prop,ep,rfl,decoded,checked,rfl⟩ | ⟨cert,rfl,_,found,_,extended,rfl⟩
  · obtain rfl := Option.some.inj ((one ep decoded checked).symm.trans height)
    have signed := checkProposal_signed decoded checked
    rw [turn, leads] at signed
    exact Or.inl (made j honest _ (authentic.signedBy regular honest member List.mem_cons_self signed))
  · rw [headerHeight_header] at height
    obtain rfl := Option.some.inj height
    exact Or.inr ⟨rfl,extended,cert,found,rfl⟩

theorem Disciplined.step (regular : c.Regular) (sincere : c.Sincere) (authentic : Authentic c p trace s)
    (made : ∀ k ∈ c.honestNodes, ∀ data, HasSigned p trace s k data → s.made k data)
    (disciplined : Disciplined c s) (one : EachJob (OneHeader c p) s e) (case : SystemCase c p s e t) :
    Disciplined c t := by
  rcases case.moves with ⟨_,_,_,rfl⟩ | ⟨i,event,sends,moves⟩
  · exact ⟨disciplined.reached,disciplined.unique⟩
  · -- a new header is the first one for its view, and the chain has grown to its height
    have new {k : Nat} (honest : k ∈ c.honestNodes) {data : Bytes} {v : Nat} (signed : t.made k data)
        (height : headerHeight data = some v) (leads : leaderOf c.size v = k) : s.made k data ∨
          (v = (s.nodes k).state.bc.head + 1 ∧ (t.nodes k).state.bc.head = v ∧ ∃ cert,
            (s.nodes k).state.certMap.lookup (s.nodes k).state.bc.head = some cert ∧
            data = (newHeader p cert ((s.nodes k).state.bc.head + 1) []).marshal) := by
      rcases moves.made signed with old | ⟨rfl,index,order,job,rfl,found,signs⟩
      · exact Or.inl old
      · exact Disciplined.fresh regular sincere authentic made honest (List.mem_of_getElem? found)
          (one.work found) signs height leads
    have grows (k : Nat) : (s.nodes k).state.bc.head ≤ (t.nodes k).state.bc.head := by
      by_cases same : k = i
      · subst same
        exact moves.case.head_le
      · rw [moves.other k same]
    constructor
    · intro k honest data v signed height leads
      rcases new honest signed height leads with old | ⟨_,head,_⟩
      · exact (disciplined.reached k honest data v old height leads).trans (grows k)
      · exact head.ge
    · intro k honest data data' v signed signed' height height' leads
      rcases new honest signed height leads with old | ⟨first,_,cert,found,rfl⟩ <;>
        rcases new honest signed' height' leads with old' | ⟨first',_,cert',found',rfl⟩
      · exact disciplined.unique k honest data data' v old old' height height' leads
      · have := disciplined.reached k honest data v old height leads
        omega
      · have := disciplined.reached k honest data' v old' height' leads
        omega
      · rw [Option.some.inj (found.symm.trans found')]

theorem run_disciplined (regular : c.Regular) (sincere : c.Sincere) (law : p.Unforgeable c.size)
    (run : ((systemMachine c p).restrict (EachJob (OneHeader c p))).Run (System.start c) trace s) :
    Disciplined c s := by
  refine run.history (I := fun _ s => Disciplined c s) ?_ ?_
  · have blank (k : Nat) (data : Bytes) : ¬(System.start c).made k data := by simp [System.made,System.start]
    exact ⟨fun k _ data _ made => absurd made (blank k data),fun k _ data _ _ made => absurd made (blank k data)⟩
  · intro past s e t earlier disciplined admitted moved
    exact disciplined.step regular sincere (run_authentic law regular earlier.unrestrict)
      (fun k honest data signed => signed.made earlier.unrestrict honest) admitted.2 (System.step_cases moved)

/-- In every run in which the headers that honest nodes sign and the evidence that they
accept are as they are meant to be, only a leader is recorded for equivocation, it has
signed two different headers for the view, and it is not honest. -/
theorem equivocation_records_are_accurate (regular : c.Regular) (sincere : c.Sincere) (law : p.Unforgeable c.size)
    (run : ((systemMachine c p).restrict (EachJob (OneHeader c p))).Run (System.start c) trace s)
    (honest : j ∈ c.honestNodes) {v x : Nat} (recorded : at2 (s.nodes j).state.equiproposalMap v x = some 1) :
    x = leaderOf c.size v ∧ x ∉ c.honestNodes ∧ ∃ data data', data ≠ data' ∧
      headerHeight data = some v ∧ headerHeight data' = some v ∧
      HasSigned p trace s x data ∧ HasSigned p trace s x data' := by
  obtain ⟨job,earlier,before,e,later,takes,rfl,convicts⟩ :=
    conviction_origin (p := p) run rfl (show at2 ((s.nodes j).state.record .equivocation) v x = some 1 from recorded)
  have authentic := run_authentic law regular takes.run.unrestrict
  have disciplined := run_disciplined regular sincere law takes.run
  have turn := (authentic.turns j honest).2
  have one := takes.condition run
  cases convicts with
  | equivocation ev valid =>
    obtain ⟨prop1,prop2,first,second,signed,signed'⟩ := authentic.equivocation regular honest law takes.pending valid
    obtain ⟨height,height',differ⟩ := one valid prop1 first prop2 second
    refine ⟨turn,fun member => differ ?_,_,_,differ,height,height',takes.unrestrict.signed run.unrestrict signed,
      takes.unrestrict.signed run.unrestrict signed'⟩
    exact disciplined.unique _ member _ _ _ (signed.made takes.run.unrestrict member)
      (signed'.made takes.run.unrestrict member) height height' turn.symm

end Discipline

/-- Two versions of the first proposal by a traitor who leads the view. -/
def twoFaced (extra : Bytes) : Proposal :=
  newCandidateProposal transparent (oneTraitor.config 0) .init [[1]] genesisCert 1 extra

def traitorLeads : Cluster := .complete 3 1 true .plain {0}

theorem traitors_equivocation_is_recorded : ∃ trace s,
    ((systemMachine traitorLeads transparent).restrict (EachJob (OneHeader traitorLeads transparent))).Run
      (System.start traitorLeads) trace s ∧ at2 (s.nodes 1).state.equiproposalMap 1 0 = some 1 ∧
    0 ∉ traitorLeads.honestNodes ∧ ∃ data data', data ≠ data' ∧ HasSigned transparent trace s 0 data ∧
      HasSigned transparent trace s 0 data' := by
  obtain ⟨s,run,recorded⟩ := Guarded.Machine.reaches
    (fun s : System => at2 (s.nodes 1).state.equiproposalMap 1 0 = some 1)
    (show (((systemMachine traitorLeads transparent).restrict (EachJob (OneHeader traitorLeads transparent))).replay
      [.inject 1 (.eqevidence ⟨some (signEvidence transparent (traitorLeads.config 0) ⟨0,1⟩),some (twoFaced [49]),
        some (twoFaced [50])⟩),.deliver 0,.work 1 0 []] (System.start traitorLeads)).any _ = true by decide +kernel)
  have sincere : traitorLeads.Sincere := fun _ _ => ⟨nofun,nofun⟩
  obtain ⟨_,dishonest,data,data',differ,_,_,signed,signed'⟩ := equivocation_records_are_accurate
    (complete_regular _ _ _ _ _) sincere (transparent_unforgeable (by decide)) run (by decide) recorded
  exact ⟨_,s,run,recorded,dishonest,data,data',differ,signed,signed'⟩

/-- The traitor accuses the leader with one proposal, which it has signed once, twice over. -/
theorem honest_leader_is_recorded_for_equivocation : ∃ trace s,
    (systemMachine oneTraitor transparent).Run (System.start oneTraitor) trace s ∧ 0 ∈ oneTraitor.honestNodes ∧
    at2 (s.nodes 1).state.equiproposalMap 1 0 = some 1 ∧ leaderOf oneTraitor.size 1 = 0 ∧
    s.signed.filter (fun entry => entry.1 = 0) = [(0,marshalHeader firstProposal.getHeader)] := by
  obtain ⟨s,run,recorded,once⟩ := Guarded.Machine.reaches
    (fun s : System => at2 (s.nodes 1).state.equiproposalMap 1 0 = some 1 ∧
      s.signed.filter (fun entry => entry.1 = 0) = [(0,marshalHeader firstProposal.getHeader)])
    (show ((systemMachine oneTraitor transparent).replay (leaderAnnounces ++
      [.inject 1 (.eqevidence ⟨some (signEvidence transparent (oneTraitor.config 2) ⟨0,1⟩),some firstProposal,
        some firstProposal⟩),.deliver 1,.work 1 0 []]) (System.start oneTraitor)).any _ = true by decide +kernel)
  exact ⟨_,s,run,by decide,recorded,rfl,once⟩

end ReputationSMR

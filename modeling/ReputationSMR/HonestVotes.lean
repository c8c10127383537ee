import ReputationSMR.Signing
import ReputationSMR.ReputationConsistency

/-! Whose votes count and for what. The owner and the block hash of a vote are copied from
the forward that completed the set, and neither the miner nor the block hash of a proposal
is covered by a signature; the goroutine that votes may run when the view has changed. -/
namespace ReputationSMR

open Wire FiniteMap

/-- Honest nodes do not inject votes. -/
def Cluster.Uninjected (c : Cluster) : Prop := ∀ i ∈ c.honestNodes, (c.config i).timerMode ≠ .maliciousVote

section Jobs

variable {p : Platform} {cfg : NodeConfig} {n n' : SyncHS} {job : Job} {effect : Effect}

theorem PollStep.uninjected (step : PollStep p cfg n job n' effect) :
    n'.maliciousVoteInject = n.maliciousVoteInject := by
  cases step with
  | quiet _ _ _ same _ _ => exact congrArg Poll.injected same
  | proposes _ _ _ _ same _ => exact (congrArg Poll.injected same).trans rfl
  | read _ _ _ step => cases step <;> rfl
  | voted _ => rfl

theorem PollStep.spawns (step : PollStep p cfg n job n' effect) {ep : ExtProposal} (spawned : .vote ep ∈ effect.jobs) :
    ∃ fprop, job = .proposeChannel fprop ∧ Accepted p cfg n fprop ep ∧
      cfg.pMap.card ≤ size (n.forwardsWith fprop) := by
  cases step with
  | quiet _ _ _ _ voteless _ | proposes _ _ _ _ _ voteless =>
    exact absurd (voteless.jobs _ spawned) (by simp [Job.isVote])
  | read fprop _ _ step =>
    cases step with
    | conflict _ _ _ _ _ =>
      split at spawned
      next => simp at spawned
      next => contradiction
    | follows ep' accepted _ full _ =>
      obtain rfl : ep = ep' := by simpa using spawned
      exact ⟨fprop,rfl,accepted,full⟩
    | leads _ _ _ _ _ => simp at spawned
    | flagged _ | refused _ _ _ _ | counted _ _ _ _ => contradiction
  | voted ep' => simp at spawned

end Jobs

theorem NodeCase.spawns {p : Platform} {cfg : NodeConfig} {node node' : Node} {event : NodeEvent}
    {sends : List Outgoing} (case : NodeCase p cfg node event node' sends)
    (noInjection : cfg.timerMode ≠ .maliciousVote) (plain : node.state.maliciousVoteInject = false) :
    node'.state.maliciousVoteInject = false ∧ ∀ ep, .vote ep ∈ node'.pending → .vote ep ∈ node.pending ∨
      ∃ index order fprop, event = .work index order ∧ node.pending[index]? = some (.proposeChannel fprop) ∧
        Accepted p cfg node.state fprop ep ∧ cfg.pMap.card ≤ size (node.state.forwardsWith fprop) := by
  cases case with
  | connected => exact ⟨plain,fun _ => Or.inl⟩
  | commanded cmd n' jobs case =>
    cases case with
    | pooled _ _ _ _ _ rounds =>
      refine ⟨plain,fun ep member => Or.inl ((List.mem_append.mp member).resolve_right fun new => ?_)⟩
      exact absurd (rounds _ new) nofun
  | received m =>
    refine ⟨plain,fun ep member => Or.inl ((List.mem_append.mp member).resolve_right fun new => ?_)⟩
    exact absurd (protocol_noVote cfg _ m _ new) (by simp [Job.isVote])
  | worked index order job n' jobs sends found case =>
    have step := case.poll noInjection plain
    refine ⟨step.uninjected.trans plain,fun ep member => ?_⟩
    rcases of_mem_work member with old | new
    · exact Or.inl old
    · obtain ⟨fprop,rfl,accepted,full⟩ := step.spawns new
      exact Or.inr ⟨index,order,fprop,rfl,found,accepted,full⟩
  | calledBack n' acks case => cases case <;> exact ⟨plain,fun _ => Or.inl⟩

theorem NodeCase.stays {p : Platform} {cfg : NodeConfig} {node node' : Node} {event : NodeEvent}
    {sends : List Outgoing} {ep : ExtProposal} (case : NodeCase p cfg node event node' sends)
    (noVote : event = .callback → node.state.advances → ∀ job ∈ node.pending, job.isVote = false)
    (waiting : .vote ep ∈ node'.pending) :
    node'.state.view = node.state.view ∧ node'.state.leader = node.state.leader := by
  cases case with
  | connected | received _ => exact ⟨rfl,rfl⟩
  | commanded cmd n' jobs case => cases case; exact ⟨rfl,rfl⟩
  | worked index order job n' jobs sends found case => exact ⟨case.informed.view,case.informed.leader⟩
  | calledBack n' acks case =>
    cases case with
    | kept _ _ => exact ⟨rfl,rfl⟩
    | advanced _ _ advances _ => exact absurd (noVote rfl advances _ waiting) (by simp [Job.isVote])

/-- A condition on the forward with which a set becomes complete, while a node does not
leave a view in which it is still about to vote. -/
def OnLastForward (c : Cluster) (p : Platform) (F : System → Nat → Proposal → Prop) (s : System) :
    SystemEvent → Prop
  | .work i index _ => ∀ fprop ∈ (s.nodes i).pending[index]?.bind Job.heldForward,
      ∀ ep ∈ ExtProposal.fromProto p fprop, checkForward p (c.config i) (s.nodes i).state ep = some true →
        (c.config i).pMap.card ≤ size ((s.nodes i).state.forwardsWith fprop) → F s i fprop
  | .callback i => (s.nodes i).state.advances → ∀ job ∈ (s.nodes i).pending, job.isVote = false
  | _ => True

instance (c : Cluster) (p : Platform) (F : System → Nat → Proposal → Prop)
    [∀ s i fprop, Decidable (F s i fprop)] (s : System) (e : SystemEvent) : Decidable (OnLastForward c p F s e) :=
  match e with
  | .work i index _ => inferInstanceAs (Decidable (∀ fprop ∈ (s.nodes i).pending[index]?.bind Job.heldForward, _))
  | .callback i => inferInstanceAs (Decidable ((s.nodes i).state.advances → _))
  | .connect _ | .command _ _ | .deliver _ | .inject _ _ => isTrue trivial

section Pending

variable {c : Cluster} {p : Platform} {F : System → Nat → Proposal → Prop} {s t : System} {e : SystemEvent}
  {trace : List SystemEvent} {i k : Nat} {ep : ExtProposal}

theorem OnLastForward.completes {index : Nat} {order : List Nat} {fprop : Proposal}
    (fits : OnLastForward c p F s (.work i index order))
    (found : (s.nodes i).pending[index]? = some (.proposeChannel fprop))
    (accepted : Accepted p (c.config i) (s.nodes i).state fprop ep)
    (full : (c.config i).pMap.card ≤ size ((s.nodes i).state.forwardsWith fprop)) : F s i fprop :=
  fits fprop (by rw [found]; rfl) ep accepted.decoded accepted.checked full

/-- A node is about to vote in the view in which it completed its set. -/
structure Waits (c : Cluster) (p : Platform) (F : System → Nat → Proposal → Prop) (s : System) (e : SystemEvent)
    (t : System) (k : Nat) (ep : ExtProposal) : Prop where
  view : (t.nodes k).state.view = (s.nodes k).state.view
  leader : (t.nodes k).state.leader = (s.nodes k).state.leader
  waiting : .vote ep ∈ (s.nodes k).pending ∨ ∃ fprop index order, e = .work k index order ∧
    (s.nodes k).pending[index]? = some (.proposeChannel fprop) ∧
    Accepted p (c.config k) (s.nodes k).state fprop ep ∧ F s k fprop

theorem Moves.plain {event : NodeEvent} {sends : List Outgoing} (moves : Moves c p s e t i event sends)
    (uninjected : c.Uninjected) (plain : ∀ k ∈ c.honestNodes, (s.nodes k).state.maliciousVoteInject = false) :
    ∀ k ∈ c.honestNodes, (t.nodes k).state.maliciousVoteInject = false :=
  moves.each (P := fun _ node => node.state.maliciousVoteInject = false) plain
    fun honest => (moves.case.spawns (uninjected i honest) (plain i honest)).1

theorem Moves.waits {event : NodeEvent} {sends : List Outgoing} (moves : Moves c p s e t i event sends)
    (uninjected : c.Uninjected) (plain : ∀ k ∈ c.honestNodes, (s.nodes k).state.maliciousVoteInject = false)
    (fits : OnLastForward c p F s e) (honest : k ∈ c.honestNodes) (waiting : .vote ep ∈ (t.nodes k).pending) :
    Waits c p F s e t k ep := by
  by_cases same : k = i
  · subst same
    have spawns := (moves.case.spawns (uninjected k honest) (plain k honest)).2 ep waiting
    obtain ⟨view,leader⟩ := moves.case.stays (fun called => by rw [moves.callback called] at fits; exact fits) waiting
    refine ⟨view,leader,spawns.imp_right ?_⟩
    rintro ⟨index,order,fprop,work,found,accepted,full⟩
    have event := moves.works index order work
    rw [event] at fits
    exact ⟨fprop,index,order,event,found,accepted,fits.completes found accepted full⟩
  · rw [moves.other k same] at waiting
    exact ⟨by rw [moves.other k same],by rw [moves.other k same],Or.inl waiting⟩

end Pending

/-! ## The owner of a vote -/

/-- When the leader is honest, the forward names it as the miner. -/
def MinedByLeader (c : Cluster) (s : System) (i : Nat) (fprop : Proposal) : Prop :=
  (s.nodes i).state.leader ∈ c.honestNodes → fprop.miner = (s.nodes i).state.leader

instance (c : Cluster) (s : System) (i : Nat) (fprop : Proposal) : Decidable (MinedByLeader c s i fprop) :=
  inferInstanceAs (Decidable (_ → _))

structure OwnersNamed (c : Cluster) (s : System) : Prop where
  plain : ∀ i ∈ c.honestNodes, (s.nodes i).state.maliciousVoteInject = false
  waiting : ∀ i ∈ c.honestNodes, ∀ ep, .vote ep ∈ (s.nodes i).pending → (s.nodes i).state.leader ∈ c.honestNodes →
    ep.proposal.miner = (s.nodes i).state.leader
  cast : ∀ i ∈ c.honestNodes, ∀ d : ProtoVoteData, s.made i d.marshal → 1 ≤ d.view → d.blockHash ≠ [] →
    leaderOf c.size d.view ∈ c.honestNodes → d.owner = leaderOf c.size d.view

theorem Hash.bytes_ne_nil (h : Hash) : h.bytes ≠ [] := by
  intro empty
  have size := h.size
  rw [empty] at size
  contradiction

section Owners

variable {c : Cluster} {p : Platform} {s t : System} {e : SystemEvent} {trace : List SystemEvent}

theorem OwnersNamed.step (uninjected : c.Uninjected) (authentic : Authentic c p trace s) (named : OwnersNamed c s)
    (fits : OnLastForward c p (MinedByLeader c) s e) (case : SystemCase c p s e t) : OwnersNamed c t := by
  rcases case.moves with ⟨_,_,_,rfl⟩ | ⟨i,event,sends,moves⟩
  · exact ⟨named.plain,named.waiting,named.cast⟩
  refine ⟨moves.plain uninjected named.plain,?_,?_⟩
  · intro k honest ep waiting leader
    have waits := moves.waits uninjected named.plain fits honest waiting
    rw [waits.leader] at leader ⊢
    rcases waits.waiting with old | ⟨fprop,_,_,_,_,accepted,mined⟩
    · exact named.waiting k honest ep old leader
    · rw [ExtProposal.fromProto_proposal accepted.decoded]
      exact mined leader
  · intro k honest d made started hash leader
    rcases moves.made made with old | ⟨rfl,index,order,job,rfl,found,signs⟩
    · exact named.cast k honest d old started hash leader
    · have turn := (authentic.turns k honest).2
      rcases signs.vote started hash with ⟨fprop,ep,rfl,accepted,full,rfl⟩ | ⟨ep,rfl,rfl⟩ | injected
      · have mined := fits.completes found accepted full
        change leaderOf c.size (s.nodes k).state.view ∈ c.honestNodes at leader
        change ep.proposal.miner = leaderOf c.size (s.nodes k).state.view
        rw [← turn] at leader ⊢
        rw [ExtProposal.fromProto_proposal accepted.decoded]
        exact mined leader
      · change leaderOf c.size (s.nodes k).state.view ∈ c.honestNodes at leader
        change ep.proposal.miner = leaderOf c.size (s.nodes k).state.view
        rw [← turn] at leader ⊢
        exact named.waiting k honest ep (List.mem_of_getElem? found) leader
      · rw [named.plain k honest] at injected
        contradiction

theorem voteHandler_trusts {cfg : NodeConfig} {n n' : SyncHS} {v : ProtoVote} {d : ProtoVoteData} {order : List Nat}
    {effect : Effect} (data : v.data = some d) (owner : d.owner = n.leader)
    (handled : voteHandler p cfg n v order = some (n',effect)) : .sendMalivoteEvidence v ∉ effect.jobs := by
  cases voteHandler_cases handled with
  | foreign d' data' foreign =>
    obtain rfl := Option.some.inj (data.symm.trans data')
    exact absurd owner foreign
  | dropped _ _ _ _ => simp [Effect.none]
  | counted _ _ _ _ counted => cases counted <;> simp [Effect.none]

/-- In every run in which the forward that completes a set names an honest leader as the
miner and a vote is cast in the view in which it was spawned, the votes of honest nodes
in the views of honest leaders name the leader, and no honest node in the view reports
such a vote. -/
theorem honest_votes_name_the_leader (regular : c.Regular) (uninjected : c.Uninjected) (law : p.Unforgeable c.size)
    (run : ((systemMachine c p).restrict (OnLastForward c p (MinedByLeader c))).Run (System.start c) trace s) :
    (∀ i ∈ c.honestNodes, ∀ (hash : Hash) v owner, 1 ≤ v → leaderOf c.size v ∈ c.honestNodes →
      s.made i (ProtoVoteData.mk hash.bytes v owner).marshal → owner = leaderOf c.size v) ∧
    ∀ j ∈ c.honestNodes, (s.nodes j).state.leader ∈ c.honestNodes → ∀ v (hash : Hash) owner,
      .voteChannel v ∈ (s.nodes j).pending → v.data = some ⟨hash.bytes,(s.nodes j).state.view,owner⟩ →
      v.getVoter ∈ c.honestNodes → p.verify v.getVoter (marshalVoteData v.data) v.getSignature = some true →
      ∀ order n' effect, voteHandler p (c.config j) (s.nodes j).state v order = some (n',effect) →
        .sendMalivoteEvidence v ∉ effect.jobs := by
  have named : OwnersNamed c s := by
    refine run.history (I := fun _ s => OwnersNamed c s) ?_ ?_
    · exact ⟨fun _ _ => rfl,fun _ _ _ waiting => absurd waiting List.not_mem_nil,
        fun _ _ _ made => absurd made (by simp [System.made,System.start])⟩
    · intro past s e t earlier named admitted moved
      exact named.step uninjected (run_authentic law regular earlier.unrestrict) admitted.2 (System.step_cases moved)
  refine ⟨fun i honest hash v owner started leader made =>
    named.cast i honest _ made started hash.bytes_ne_nil leader,?_⟩
  intro j honest leader v hash owner member data voter verifies order n' effect handled
  have authentic := run_authentic law regular run.unrestrict
  obtain ⟨started,turn⟩ := authentic.turns j honest
  have signed : HasSigned p trace s v.getVoter (marshalVoteData v.data) :=
    authentic.pending j honest _ member _ (List.mem_singleton.mpr rfl) _ ((c.mem_honestNodes _).mp voter).1 verifies
  have made := signed.made run.unrestrict voter
  rw [data] at made
  rw [turn] at leader
  have owned := named.cast _ voter _ made started hash.bytes_ne_nil leader
  exact voteHandler_trusts data (owned.trans turn.symm) handled

end Owners

def firstBlockHash : Hash := transparent.doHash (newHeader transparent genesisCert 1 []).marshal

theorem votes_with_traitor_name_the_leader : ∃ s : System,
    s.made 1 (ProtoVoteData.mk firstBlockHash.bytes 1 0).marshal ∧
    ∀ (hash : Hash) owner, s.made 1 (ProtoVoteData.mk hash.bytes 1 owner).marshal → owner = 0 := by
  obtain ⟨s,run,made⟩ := Guarded.Machine.reaches
    (fun s : System => s.made 1 (ProtoVoteData.mk firstBlockHash.bytes 1 0).marshal)
    (show (((systemMachine oneTraitor transparent).restrict
      (OnLastForward oneTraitor transparent (MinedByLeader oneTraitor))).replay traitorForwards
        (System.start oneTraitor)).any _ = true by decide +kernel)
  have uninjected : oneTraitor.Uninjected := fun _ _ => nofun
  refine ⟨s,made,fun hash owner => ?_⟩
  exact (honest_votes_name_the_leader (complete_regular _ _ _ _ _) uninjected (transparent_unforgeable (by decide))
    run).1 1 (by decide) hash 1 owner le_rfl (by decide)

/-- The traitor forwards the first proposal under its own name. -/
def renamedForward : SyncHSMsg :=
  .prop { signForward transparent (oneTraitor.config 2) firstProposal with miner := 2 }

/-- Node one completes its set with the renamed forward. -/
def traitorRenames : List SystemEvent :=
  [.command 0 [1],.command 1 [1],.work 0 0 [],.work 0 0 [],.work 1 0 [],.deliver 0,.work 1 0 [],
    .inject 1 renamedForward,.deliver 1,.work 1 0 [],.work 1 0 [],.work 1 0 []]

theorem honest_vote_is_reported : ∃ s : System,
    (systemMachine oneTraitor transparent).Run (System.start oneTraitor) (traitorRenames ++ [.deliver 1,.work 0 0 []]) s ∧
    0 ∈ oneTraitor.honestNodes ∧ 1 ∈ oneTraitor.honestNodes ∧ (s.nodes 0).state.view = 1 ∧
    (s.nodes 0).state.leader = 0 ∧ s.made 1 (ProtoVoteData.mk firstBlockHash.bytes 1 2).marshal ∧
    .sendMalivoteEvidence (signVote transparent (oneTraitor.config 1) ⟨firstBlockHash.bytes,1,2⟩) ∈
      (s.nodes 0).pending := by
  obtain ⟨s,run,view,leader,made,reported⟩ := Guarded.Machine.reaches
    (fun s : System => (s.nodes 0).state.view = 1 ∧ (s.nodes 0).state.leader = 0 ∧
      s.made 1 (ProtoVoteData.mk firstBlockHash.bytes 1 2).marshal ∧
      .sendMalivoteEvidence (signVote transparent (oneTraitor.config 1) ⟨firstBlockHash.bytes,1,2⟩) ∈
        (s.nodes 0).pending)
    (show ((systemMachine oneTraitor transparent).replay (traitorRenames ++ [.deliver 1,.work 0 0 []])
      (System.start oneTraitor)).any _ = true by decide +kernel)
  exact ⟨s,run,by decide,by decide,view,leader,made,reported⟩

/-! ## Credit for votes -/

def System.spawned (s t : System) (i : Nat) : List Job :=
  (t.nodes i).pending.drop ((s.nodes i).pending.length - 1)

def Job.proposedHeader : Job → Option ProtoHeader
  | .proposed prop => prop.getHeader
  | _ => none

/-- The headers that the leader of a view is seen to propose in it: those that an honest leader builds in
`Propose`, and those under a Byzantine leader's signature that an honest node accepts in the view. -/
def leaderProposes (c : Cluster) (p : Platform) (s : System) (e : SystemEvent) (t : System) : List (Nat × ProtoHeader) :=
  match s.taken e with
  | some (i,.round) => ((s.spawned t i).filterMap Job.proposedHeader).map fun h => ((s.nodes i).state.view,h)
  | some (i,.proposeChannel fprop) =>
    if leaderOf c.size (s.nodes i).state.view ∈ c.byzantine ∧
        ∃ ep ∈ ExtProposal.fromProto p fprop, checkForward p (c.config i) (s.nodes i).state ep = some true then
      fprop.getHeader.toList.map fun h => ((s.nodes i).state.view,h)
    else []
  | _ => []

/-- The system with what the leaders have been seen to propose. -/
abbrev LeaderLog := Guarded.Machine.Logged System (Nat × ProtoHeader)

def leaderLogMachine (c : Cluster) (p : Platform) : Guarded.Machine LeaderLog SystemEvent :=
  (systemMachine c p).observed (leaderProposes c p)

instance (c : Cluster) (p : Platform) (s : LeaderLog) (e : SystemEvent) :
    Decidable ((leaderLogMachine c p).enabled s e) :=
  inferInstanceAs (Decidable (s.state.enabled c p e))

/-- The hash is that of a header which the leader has proposed in the view. -/
def ProposedHash (p : Platform) (s : LeaderLog) (v : Nat) (hash : Bytes) : Prop :=
  ∃ entry ∈ s.log, entry.1 = v ∧ hash = (p.doHash entry.2.marshal).bytes

instance (p : Platform) (s : LeaderLog) (v : Nat) (hash : Bytes) : Decidable (ProposedHash p s v hash) :=
  inferInstanceAs (Decidable (∃ entry ∈ s.log, _))

/-- A vote that is counted is of the present view and for a block that the leader has proposed in it, and
one in the name of the node itself is its own. -/
def CountsProperly (c : Cluster) (p : Platform) (log : List (Nat × ProtoHeader)) (s : System) (i : Nat) : Job → Prop
  | .voteChannel v => ∀ d ∈ v.data, Joins p (c.config i) (s.nodes i).state v d →
      d.view = (s.nodes i).state.view ∧ ProposedHash p ⟨s,log⟩ (s.nodes i).state.view d.blockHash ∧
        (v.getVoter = i → s.made i d.marshal)
  | _ => True

instance (c : Cluster) (p : Platform) (log : List (Nat × ProtoHeader)) (s : System) (i : Nat) (job : Job) :
    Decidable (CountsProperly c p log s i job) :=
  match job with
  | .voteChannel v => inferInstanceAs (Decidable (∀ d ∈ v.data, _))
  | .forward _ | .proposeChannel _ | .maliPropseChannel _ | .eqEvidenceChannel _ | .maliProEvidenceChannel _
  | .maliVoteEvidenceChannel _ | .round | .proposed _ | .vote _ | .addCert _ _ | .sendEqProEvidence _ _
  | .sendMalivoteEvidence _ => isTrue trivial

/-- The block hash of the forward is that of its header, and an honest leader has proposed the header in
this view. -/
def CarriesProposal (c : Cluster) (p : Platform) (log : List (Nat × ProtoHeader)) (s : System) (i : Nat)
    (fprop : Proposal) : Prop :=
  ∃ h ∈ fprop.getHeader, blockHashOf p fprop = some (p.doHash h.marshal) ∧
    (leaderOf c.size (s.nodes i).state.view ∈ c.byzantine ∨ ((s.nodes i).state.view,h) ∈ log)

instance (c : Cluster) (p : Platform) (log : List (Nat × ProtoHeader)) (s : System) (i : Nat) (fprop : Proposal) :
    Decidable (CarriesProposal c p log s i fprop) :=
  inferInstanceAs (Decidable (∃ h ∈ fprop.getHeader, _))

/-- The two ways in which votes earn credit, their own and those that are counted. -/
def CreditsProperly (c : Cluster) (p : Platform) (s : LeaderLog) (e : SystemEvent) : Prop :=
  OnLastForward c p (CarriesProposal c p s.log) s.state e ∧ EachJob (CountsProperly c p s.log) s.state e

instance (c : Cluster) (p : Platform) (s : LeaderLog) (e : SystemEvent) : Decidable (CreditsProperly c p s e) :=
  inferInstanceAs (Decidable (_ ∧ _))

/-- Node `i` has signed a vote of the view for a block that the leader of the view has proposed in it. -/
def Earned (p : Platform) (trace : List SystemEvent) (s : LeaderLog) (v i : Nat) : Prop :=
  ∃ (d : ProtoVoteData) (h : ProtoHeader), HasSigned p trace s.state i d.marshal ∧ d.view = v ∧
    d.blockHash = (p.doHash h.marshal).bytes ∧ (v,h) ∈ s.log

/-- The job gives credit for a vote to a node. -/
inductive Credits (p : Platform) (cfg : NodeConfig) (n : SyncHS) (effect : Effect) : Job → Nat → Prop where
  | counted (v : ProtoVote) (d : ProtoVoteData) : Joins p cfg n v d →
      Credits p cfg n effect (.voteChannel v) v.getVoter
  | led (fprop : Proposal) (ep : ExtProposal) : Accepted p cfg n fprop ep →
      cfg.pMap.card ≤ size (n.forwardsWith fprop) → effect.signs (voteDataFor p n ep).marshal →
      Credits p cfg n effect (.proposeChannel fprop) cfg.id
  | voted (ep : ExtProposal) : effect.signs (voteDataFor p n ep).marshal →
      Credits p cfg n effect (.vote ep) cfg.id

section CreditJobs

variable {p : Platform} {cfg : NodeConfig} {n n' : SyncHS} {job : Job} {effect : Effect} {w i : Nat}

theorem at2_voted (n : SyncHS) (cfg : NodeConfig) (credited : at2 (put2 n.voteMap n.view cfg.id 1) w i = some 1) :
    at2 n.voteMap w i = some 1 ∨ w = n.view ∧ i = cfg.id := by
  rw [at2_put2] at credited
  split at credited
  next here => exact Or.inr here
  next => exact Or.inl credited

theorem ForwardStep.credits {fprop : Proposal} (step : ForwardStep p cfg n fprop n' effect)
    (credited : at2 n'.voteMap w i = some 1) :
    at2 n.voteMap w i = some 1 ∨ w = n.view ∧ Credits p cfg n effect (.proposeChannel fprop) i := by
  cases step with
  | leads ep accepted _ full _ =>
    refine (at2_voted n cfg credited).imp_right ?_
    rintro ⟨here,rfl⟩
    exact ⟨here,.led fprop ep accepted full (signs_broadcast (List.mem_singleton.mpr rfl))⟩
  | _ => exact Or.inl credited

theorem VoteStep.credits {v : ProtoVote} {order : List Nat} (step : VoteStep p cfg n v order n' effect)
    (credited : at2 n'.voteMap w i = some 1) :
    at2 n.voteMap w i = some 1 ∨ w = n.view ∧ Credits p cfg n effect (.voteChannel v) i := by
  have opened : (n.openPool n.view).voteMap = n.voteMap :=
    openPool_unread SyncHS.voteMap n n.view fun _ _ => rfl
  cases step with
  | foreign d _ _ => exact Or.inl credited
  | dropped d _ _ _ => exact Or.inl (opened ▸ credited)
  | counted d n' effect joins counted =>
    have entry : at2 (put2 (n.openPool n.view).voteMap (n.openPool n.view).view v.getVoter 1) w i = some 1 := by
      cases counted <;> exact credited
    rw [at2_put2, openPool_view, opened] at entry
    split at entry
    next here =>
      obtain ⟨here,voter⟩ := here
      exact Or.inr ⟨here,voter ▸ .counted v d joins⟩
    next => exact Or.inl entry

theorem JobCase.credits {order : List Nat} (step : JobCase p cfg n order job n' effect)
    (plain : n.maliciousVoteInject = false) (credited : at2 n'.voteMap w i = some 1) :
    at2 n.voteMap w i = some 1 ∨ w = n.view ∧ Credits p cfg n effect job i := by
  cases step with
  | read _ _ _ step => exact step.credits credited
  | voteHandled _ _ _ step => exact step.credits credited
  | started _ _ step =>
    have same := step.unread SyncHS.voteMap fun _ _ _ _ _ _ _ => rfl
    exact Or.inl (same ▸ credited)
  | voted ep _ =>
    refine (at2_voted n cfg credited).imp_right ?_
    rintro ⟨here,rfl⟩
    exact ⟨here,.voted ep (signs_broadcast (List.mem_singleton.mpr rfl))⟩
  | misvoted ep _ injected => simp [plain] at injected
  | _ => exact Or.inl credited

end CreditJobs

theorem NodeCase.credits {p : Platform} {cfg : NodeConfig} {node node' : Node} {event : NodeEvent}
    {sends : List Outgoing} {w i : Nat} (case : NodeCase p cfg node event node' sends)
    (plain : node.state.maliciousVoteInject = false) (credited : at2 node'.state.voteMap w i = some 1) :
    at2 node.state.voteMap w i = some 1 ∨ ∃ index order job jobs, event = .work index order ∧
      node.pending[index]? = some job ∧ w = node.state.view ∧ jobs ⊆ node'.pending ∧
      Credits p cfg node.state ⟨jobs,sends,[]⟩ job i := by
  cases case with
  | connected | received _ => exact Or.inl credited
  | commanded cmd n' jobs case => cases case; exact Or.inl credited
  | worked index order job n' jobs sends found case =>
    rcases case.credits plain credited with old | ⟨here,credits⟩
    · exact Or.inl old
    · exact Or.inr ⟨index,order,job,jobs,rfl,found,here,List.subset_append_right _ _,credits⟩
  | calledBack n' acks case => cases case <;> exact Or.inl credited

structure CreditEarned (c : Cluster) (p : Platform) (trace : List SystemEvent) (s : LeaderLog) : Prop where
  plain : ∀ i ∈ c.honestNodes, (s.state.nodes i).state.maliciousVoteInject = false
  waiting : ∀ i ∈ c.honestNodes, ∀ ep, .vote ep ∈ (s.state.nodes i).pending → ∃ h : ProtoHeader,
    ep.extBlock.getBlockHash p = p.doHash h.marshal ∧ ((s.state.nodes i).state.view,h) ∈ s.log
  earned : ∀ j ∈ c.honestNodes, ∀ w i, at2 (s.state.nodes j).state.voteMap w i = some 1 → Earned p trace s w i

section Credit

variable {c : Cluster} {p : Platform} {s t : LeaderLog} {e : SystemEvent} {trace : List SystemEvent} {k : Nat}

/-- The block of a forward that completes a set is one that the leader has proposed, if only now. -/
theorem CarriesProposal.proposed {index : Nat} {order : List Nat} {fprop : Proposal} {ep : ExtProposal} {t : System}
    (carries : CarriesProposal c p s.log s.state k fprop)
    (found : (s.state.nodes k).pending[index]? = some (.proposeChannel fprop))
    (accepted : Accepted p (c.config k) (s.state.nodes k).state fprop ep) :
    ∃ h : ProtoHeader, ep.extBlock.getBlockHash p = p.doHash h.marshal ∧
      ((s.state.nodes k).state.view,h) ∈ s.log ++ leaderProposes c p s.state (.work k index order) t := by
  obtain ⟨h,header,hash,proposed⟩ := carries
  rw [blockHashOf_decoded accepted.decoded] at hash
  refine ⟨h,Option.some.inj hash,?_⟩
  rcases proposed with byzantine | logged
  · refine List.mem_append_right _ ?_
    have taken : s.state.taken (.work k index order) = some (k,.proposeChannel fprop) := by
      simp [System.taken,found]
    simp only [leaderProposes, taken]
    rw [if_pos ⟨byzantine,ep,accepted.decoded,accepted.checked⟩]
    exact List.mem_map.mpr ⟨h,Option.mem_toList.mpr header,rfl⟩
  · exact List.mem_append_left _ logged

theorem Earned.step {w x : Nat} (earned : Earned p trace s w x) (case : SystemCase c p s.state e t.state)
    (grows : ∀ entry ∈ s.log, entry ∈ t.log) : Earned p (trace ++ [e]) t w x := by
  obtain ⟨d,h,signed,view,hash,proposed⟩ := earned
  exact ⟨d,h,signed.step case,view,hash,grows _ proposed⟩

theorem Earned.own {i : Nat} {event : NodeEvent} {sends : List Outgoing} {jobs : List Job} {ep : ExtProposal}
    {h : ProtoHeader} (moves : Moves c p s.state e t.state i event sends)
    (spawned : jobs ⊆ (t.state.nodes i).pending)
    (signs : Effect.signs ⟨jobs,sends,[]⟩ (voteDataFor p (s.state.nodes i).state ep).marshal)
    (hash : ep.extBlock.getBlockHash p = p.doHash h.marshal)
    (proposed : ((s.state.nodes i).state.view,h) ∈ t.log) :
    Earned p (trace ++ [e]) t (s.state.nodes i).state.view i := by
  refine ⟨voteDataFor p (s.state.nodes i).state ep,h,Or.inl (moves.sent (signs.imp_right ?_)),rfl,
    congrArg Hash.bytes hash,proposed⟩
  rintro ⟨job,member,draft⟩
  exact ⟨job,spawned member,draft⟩

theorem Earned.counted (regular : c.Regular) (authentic : Authentic c p trace s.state) (honest : k ∈ c.honestNodes)
    {v : ProtoVote} {d : ProtoVoteData} (member : .voteChannel v ∈ (s.state.nodes k).pending)
    (counts : CountsProperly c p s.log s.state k (.voteChannel v))
    (joins : Joins p (c.config k) (s.state.nodes k).state v d) :
    Earned p trace s (s.state.nodes k).state.view v.getVoter := by
  obtain ⟨view,⟨⟨v',h⟩,logged,here,hash⟩,own⟩ := counts d joins.data joins
  simp only at here hash
  subst here
  refine ⟨d,h,?_,view,hash,logged⟩
  rcases joins.valid with self | valid
  · rw [regular.id k honest] at self
    rw [self]
    exact Or.inl (own self)
  · have signed := authentic.signedBy regular honest member (List.mem_singleton.mpr rfl) valid
    rwa [joins.data] at signed

theorem CreditEarned.step (regular : c.Regular) (uninjected : c.Uninjected) (authentic : Authentic c p trace s.state)
    (credit : CreditEarned c p trace s) (fits : CreditsProperly c p s e) (case : SystemCase c p s.state e t.state)
    (log : t.log = s.log ++ leaderProposes c p s.state e t.state) : CreditEarned c p (trace ++ [e]) t := by
  have grows (entry : Nat × ProtoHeader) (member : entry ∈ s.log) : entry ∈ t.log :=
    log ▸ List.mem_append_left _ member
  rcases case.moves with ⟨_,_,_,same⟩ | ⟨i,event,sends,moves⟩
  · have nodes : t.state.nodes = s.state.nodes := by rw [same]
    refine ⟨nodes ▸ credit.plain,fun i honest ep waiting => ?_,fun j honest w x credited => ?_⟩
    · rw [nodes] at waiting ⊢
      obtain ⟨h,hash,proposed⟩ := credit.waiting i honest ep waiting
      exact ⟨h,hash,grows _ proposed⟩
    · rw [nodes] at credited
      exact (credit.earned j honest w x credited).step case grows
  refine ⟨moves.plain uninjected credit.plain,?_,?_⟩
  · intro k honest ep waiting
    have waits := moves.waits uninjected credit.plain fits.1 honest waiting
    rw [waits.view]
    rcases waits.waiting with old | ⟨fprop,index,order,rfl,found,accepted,carries⟩
    · obtain ⟨h,hash,proposed⟩ := credit.waiting k honest ep old
      exact ⟨h,hash,grows _ proposed⟩
    · rw [log]
      exact carries.proposed found accepted
  · intro k honest w x credited
    by_cases same : k = i
    · subst same
      rcases moves.case.credits (credit.plain k honest) credited with
        old | ⟨index,order,job,jobs,work,found,rfl,spawned,credits⟩
      · exact (credit.earned k honest w x old).step case grows
      · obtain rfl := moves.works index order work
        have member := List.mem_of_getElem? found
        cases credits with
        | counted v d joins =>
          exact (Earned.counted regular authentic honest member (fits.2.work found) joins).step case grows
        | led fprop ep accepted full signs =>
          obtain ⟨h,hash,proposed⟩ := (fits.1.completes found accepted full).proposed found accepted
          rw [regular.id k honest]
          exact Earned.own moves spawned signs hash (log ▸ proposed)
        | voted ep signs =>
          obtain ⟨h,hash,proposed⟩ := credit.waiting k honest ep member
          rw [regular.id k honest]
          exact Earned.own moves spawned signs hash (grows _ proposed)
    · rw [moves.other k same] at credited
      exact (credit.earned k honest w x credited).step case grows

/-- In every run in which the forward that completes a set carries the hash of its header and, under an
honest leader, a header that the leader proposed in this view, votes are cast in the view in which they
were spawned, and the votes that are counted are of the view, for a block that the leader proposed in it
and, in the node's own name, its own, a node has credit for a vote only if it has signed one for a block
that the leader of the view proposed in it. -/
theorem vote_credit_is_earned (regular : c.Regular) (uninjected : c.Uninjected) (law : p.Unforgeable c.size)
    (run : ((leaderLogMachine c p).restrict (CreditsProperly c p)).Run ⟨System.start c,[]⟩ trace s) {j : Nat}
    (honest : j ∈ c.honestNodes) {v i : Nat} (credited : at2 (s.state.nodes j).state.voteMap v i = some 1) :
    Earned p trace s v i := by
  have credit : CreditEarned c p trace s := by
    refine run.history (I := CreditEarned c p) ?_ ?_
    · exact ⟨fun _ _ => rfl,fun _ _ _ waiting => absurd waiting List.not_mem_nil,fun _ _ _ _ none => nomatch none⟩
    · intro past s e t earlier credit admitted moved
      obtain ⟨stepped,log⟩ := Guarded.Machine.observed_step moved
      exact credit.step regular uninjected (run_authentic law regular earlier.unrestrict.forget) admitted.2
        (System.step_cases stepped) log
  exact credit.earned j honest v i credited

end Credit

theorem traitors_credit_is_earned : ∃ trace s,
    ((leaderLogMachine oneTraitor transparent).restrict (CreditsProperly oneTraitor transparent)).Run
      ⟨System.start oneTraitor,[]⟩ trace s ∧ at2 (s.state.nodes 0).state.voteMap 1 2 = some 1 ∧
    Earned transparent trace s 1 2 := by
  obtain ⟨s,run,credited⟩ := Guarded.Machine.reaches
    (fun s : LeaderLog => at2 (s.state.nodes 0).state.voteMap 1 2 = some 1)
    (show (((leaderLogMachine oneTraitor transparent).restrict (CreditsProperly oneTraitor transparent)).replay
      (traitorForwards ++ [.inject 0 traitorVote,.deliver 2,.work 0 0 [],.work 0 0 []])
        ⟨System.start oneTraitor,[]⟩).any _ = true by decide +kernel)
  have uninjected : oneTraitor.Uninjected := fun _ _ => nofun
  exact ⟨_,s,run,credited,vote_credit_is_earned (complete_regular _ _ _ _ _) uninjected
    (transparent_unforgeable (by decide)) run (by decide) credited⟩

def spoofedVote : SyncHSMsg := .vote ⟨some ⟨List.replicate 32 7,1,0⟩,some ⟨1,[]⟩⟩

def traitorSpoofs : List SystemEvent := [.inject 1 spoofedVote,.deliver 0,.work 1 0 []]

theorem spoofed_vote_earns_credit : ∃ s : System,
    (systemMachine oneTraitor transparent).Run (System.start oneTraitor) traitorSpoofs s ∧
    1 ∈ oneTraitor.honestNodes ∧ at2 (s.nodes 1).state.voteMap 1 1 = some 1 ∧
    ∀ data, ¬HasSigned transparent traitorSpoofs s 1 data := by
  obtain ⟨s,run,credited,unsigned,idle⟩ := Guarded.Machine.reaches
    (fun s : System => at2 (s.nodes 1).state.voteMap 1 1 = some 1 ∧ s.signed = [] ∧ (s.nodes 1).pending = [])
    (show ((systemMachine oneTraitor transparent).replay traitorSpoofs (System.start oneTraitor)).any _ = true by
      decide +kernel)
  refine ⟨s,run,by decide,credited,fun data signed => ?_⟩
  rcases signed with made | ⟨dest,m,sig,member,signature,verifies⟩
  · simp [System.made,unsigned,idle] at made
  · obtain ⟨_,rfl⟩ : dest = 1 ∧ m = spoofedVote := by simpa [traitorSpoofs] using member
    obtain ⟨_,rfl⟩ := Prod.mk.inj (List.mem_singleton.mp signature)
    exact (transparent_unforgeable le_rfl).nonempty 1 data verifies

end ReputationSMR

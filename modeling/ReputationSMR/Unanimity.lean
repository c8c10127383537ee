import ReputationSMR.ChainSafety

/-! When a node votes. `forwardProposalHandler` counts the forwards of a view in a map of
its own and stops reading when the map is complete, so it reaches the vote once per view;
a follower's map holds forwards of one block only, because each of them was compared with
the first proposal of the view. -/
namespace ReputationSMR

open Wire FiniteMap

def leaderOf (numNodes view : Nat) : Nat := (view - 1) % numNodes

theorem leaderOf_succ {numNodes view : Nat} (positive : 1 ≤ view) :
    leaderOf numNodes (view + 1) = (leaderOf numNodes view + 1) % numNodes := by
  rw [leaderOf, leaderOf, Nat.mod_add_mod, Nat.add_sub_cancel, Nat.sub_add_cancel positive]

/-- The hash of the block in a proposal that decodes. -/
def blockHashOf (p : Platform) (prop : Proposal) : Option Hash :=
  (ExtProposal.fromProto p prop).map fun ep => ep.extBlock.getBlockHash p

/-- A forward of a proposal with the signatures of the forwarding node and of the leader. -/
structure Endorses (p : Platform) (leader sender : Nat) (fprop : Proposal) : Prop where
  named : fprop.forwardSender = sender
  forwarded : p.verify sender (marshalHeader fprop.getHeader) fprop.forwardSig = some true
  proposed : p.verify leader (marshalHeader fprop.getHeader) fprop.miningProof = some true

/-- The forwards that the handler has accepted in a view are of blocks with this hash. -/
def AllFor (p : Platform) (n : SyncHS) (view : Nat) (hash : Option Hash) : Prop :=
  ∀ sender fprop, (row n.fpropMap view).lookup sender = some fprop → blockHashOf p fprop = hash

/-- A vote that rests on forwards of the same block from as many nodes as there are peers. -/
structure Unanimous (p : Platform) (cfg : NodeConfig) (n : SyncHS) (view : Nat) (v : ProtoVote) : Prop where
  complete : cfg.pMap.card ≤ size (row n.fpropMap view)
  endorsed : ∀ sender fprop, (row n.fpropMap view).lookup sender = some fprop →
    Endorses p (leaderOf cfg.numNodes view) sender fprop
  agreed : ∃ hash owner, v.data = some ⟨hash.bytes,view,owner⟩ ∧ AllFor p n view (some hash)

/-! ## The votes of a run -/

/-- A node with the votes it has sent so far, each with the view in which it was cast. -/
structure VotingNode where
  node : Node
  votes : List (Nat × ProtoVote)

def Outgoing.vote : Outgoing → Option ProtoVote
  | .broadcast (.vote v) => some v
  | _ => none

/-- `voteForBlock` is the only code that sends a vote, apart from the injected votes. -/
def VotingNode.step (p : Platform) (cfg : NodeConfig) (s : VotingNode) (e : NodeEvent) : Option VotingNode :=
  (s.node.step p cfg e).map fun (node,sends) =>
    ⟨node,s.votes ++ (sends.filterMap Outgoing.vote).map fun v => (s.node.state.view,v)⟩

def Job.isVote : Job → Bool
  | .vote _ => true
  | _ => false

def Node.taken (node : Node) : NodeEvent → Option Job
  | .work index _ => node.pending[index]?
  | _ => none

/-- The vote that an iteration of the handler has spawned is cast before anything else. -/
def VotesAtOnce (node : Node) (e : NodeEvent) : Prop :=
  (∃ job ∈ node.pending, job.isVote = true) → ∃ job ∈ node.taken e, job.isVote = true

instance (node : Node) (e : NodeEvent) : Decidable (VotesAtOnce node e) := inferInstanceAs (Decidable (_ → _))

def votingMachine (p : Platform) (cfg : NodeConfig) : Guarded.Machine VotingNode NodeEvent :=
  ⟨fun s e => s.node.enabled cfg e ∧ VotesAtOnce s.node e,VotingNode.step p cfg⟩

instance (p : Platform) (cfg : NodeConfig) (s : VotingNode) (e : NodeEvent) :
    Decidable ((votingMachine p cfg).enabled s e) :=
  inferInstanceAs (Decidable (s.node.enabled cfg e ∧ VotesAtOnce s.node e))

/-! ## What a job does to the forwards -/

/-- The part of the state that decides when the node votes, and for what. -/
structure Poll where
  view : Nat
  leader : Nat
  injected : Bool
  fpropMap : Map Nat (Map Nat Proposal)
  proposalByviewMap : Map Nat Proposal

def SyncHS.poll (n : SyncHS) : Poll :=
  ⟨n.view,n.leader,n.maliciousVoteInject,n.fpropMap,n.proposalByviewMap⟩

/-- Nothing in the effect of a step is a vote or will become one. -/
structure Voteless (jobs : List Job) (sends : List Outgoing) : Prop where
  jobs : ∀ job ∈ jobs, job.isVote = false
  sends : sends.filterMap Outgoing.vote = []

inductive PollStep (p : Platform) (cfg : NodeConfig) (n : SyncHS) : Job → SyncHS → Effect → Prop where
  | quiet (job : Job) (n' : SyncHS) (effect : Effect) : n'.poll = n.poll → Voteless effect.jobs effect.sends →
      job.isVote = false → PollStep p cfg n job n' effect
  | proposes (prop : Proposal) (n' : SyncHS) (effect : Effect) : n.leader = cfg.id →
      n'.poll = { n.poll with proposalByviewMap := n.proposalByviewMap.insert n.view prop } →
      Voteless effect.jobs effect.sends → PollStep p cfg n .round n' effect
  | read (fprop : Proposal) (n' : SyncHS) (effect : Effect) : ForwardStep p cfg n fprop n' effect →
      PollStep p cfg n (.proposeChannel fprop) n' effect
  | voted (ep : ExtProposal) : PollStep p cfg n (.vote ep) (n.voted cfg)
      ⟨[.voteChannel (signVote p cfg (voteDataFor p n ep))],
        [.broadcast (.vote (signVote p cfg (voteDataFor p n ep)))],[]⟩

section Jobs

variable {p : Platform} {cfg : NodeConfig} {n n' : SyncHS} {effect : Effect}

theorem Voteless.none : Voteless Effect.none.jobs Effect.none.sends := ⟨by simp [Effect.none],rfl⟩

theorem VoteStep.poll {v : ProtoVote} {order : List Nat} (step : VoteStep p cfg n v order n' effect) :
    n'.poll = n.poll ∧ Voteless effect.jobs effect.sends := by
  refine ⟨step.unread SyncHS.poll fun _ _ _ => rfl,?_⟩
  cases step with
  | foreign d _ _ => exact ⟨by simp [Job.isVote],rfl⟩
  | dropped d _ _ _ => exact .none
  | counted d n' effect _ counted =>
    cases counted with
    | late _ | pooled _ _ _ => exact .none
    | certifies _ _ _ => exact ⟨by simp [Job.isVote],rfl⟩

theorem RoundCase.poll (noInjection : cfg.timerMode ≠ .maliciousVote) (step : RoundCase p cfg n n' effect) :
    PollStep p cfg n .round n' effect := by
  cases step with
  | idle withheld inject _ flag =>
    obtain rfl := flag.resolve_right noInjection
    exact .quiet _ _ _ rfl .none rfl
  | withholds _ _ =>
    refine .quiet _ _ _ ?_ .none rfl
    rw [handleWithholdingProposal]
    split <;> rfl
  | proposes withheld cert _ leader _ _ _ _ =>
    exact .proposes (n.candidate p cfg cert) _ _ leader rfl ⟨by simp [Job.isVote],rfl⟩
  | equivocates _ _ _ _ => exact .quiet _ _ _ rfl ⟨by simp,rfl⟩ rfl
  | intrudes _ _ _ _ => exact .quiet _ _ _ rfl ⟨by simp [Job.isVote],rfl⟩ rfl

theorem JobCase.poll {order : List Nat} {job : Job} (noInjection : cfg.timerMode ≠ .maliciousVote)
    (plain : n.maliciousVoteInject = false) (step : JobCase p cfg n order job n' effect) :
    PollStep p cfg n job n' effect := by
  cases step with
  | read fprop n' effect step => exact .read fprop n' effect step
  | started n' effect step => exact step.poll noInjection
  | voteHandled v n' effect step => exact .quiet _ _ _ step.poll.1 step.poll.2 rfl
  | voted ep _ => exact .voted ep
  | misvoted ep _ injected => simp [plain] at injected
  | forwardRefused _ | intruderSeen _ _ | eqEvidenceIgnored _ | emptied _ _ _ _ _ | maliProIgnored _ _
  | maliProRecorded _ _ _ _ _ | maliVoteIgnored _ _ | maliVoteRecorded _ _ _ _ _ _ _ | stored _ _ =>
    exact .quiet _ _ _ rfl .none rfl
  | forwarded _ _ _ _ | intruderReported _ _ | eqEvidenceSent _ _ | malivoteEvidenceSent _ =>
    exact .quiet _ _ _ rfl ⟨by simp [Job.isVote],rfl⟩ rfl
  | announced _ => exact .quiet _ _ _ rfl ⟨by simp,rfl⟩ rfl

end Jobs

/-! ## The forwards of each view -/

/-- The handler counts forwards for the current view only, with both signatures; those of a
follower have the hash of the first proposal of the view. -/
structure ForwardSets (p : Platform) (cfg : NodeConfig) (n : SyncHS) : Prop where
  started : 1 ≤ n.view
  turn : n.leader = leaderOf cfg.numNodes n.view
  later : ∀ v, n.view < v → n.fpropMap.lookup v = none
  decoded : ∀ v sender fprop, (row n.fpropMap v).lookup sender = some fprop → (blockHashOf p fprop).isSome
  endorsed : ∀ v sender fprop, (row n.fpropMap v).lookup sender = some fprop →
    Endorses p (leaderOf cfg.numNodes v) sender fprop
  uniform : ∀ v, leaderOf cfg.numNodes v ≠ cfg.id → ∃ hash, AllFor p n v hash
  first : n.leader ≠ cfg.id → AllFor p n n.view ((n.proposalByviewMap.lookup n.view).bind (blockHashOf p))

section Sets

variable {p : Platform} {cfg : NodeConfig} {n n' : SyncHS} {fprop : Proposal} {ep : ExtProposal} {effect : Effect}

theorem ForwardSets.initial (p : Platform) (cfg : NodeConfig) : ForwardSets p cfg .init where
  started := Nat.le_refl 1
  turn := (Nat.zero_mod _).symm
  later _ _ := rfl
  decoded _ _ _ found := by contradiction
  endorsed _ _ _ found := by contradiction
  uniform _ _ := ⟨none,fun _ _ found => by contradiction⟩
  first _ := fun _ _ found => by contradiction

theorem allFor_congr {v : Nat} {hash : Option Hash} (forwards : n'.fpropMap = n.fpropMap) :
    AllFor p n' v hash ↔ AllFor p n v hash := by
  rw [AllFor, AllFor, forwards]

theorem ForwardSets.kept (sets : ForwardSets p cfg n) (view : n'.view = n.view) (leader : n'.leader = n.leader)
    (forwards : n'.fpropMap = n.fpropMap) (first : n.leader ≠ cfg.id →
      (n'.proposalByviewMap.lookup n.view).bind (blockHashOf p) =
        (n.proposalByviewMap.lookup n.view).bind (blockHashOf p)) : ForwardSets p cfg n' := by
  refine ⟨view ▸ sets.started,?_,?_,?_,?_,?_,fun follower => ?_⟩
  · rw [leader, view]; exact sets.turn
  · rw [view, forwards]; exact sets.later
  · rw [forwards]; exact sets.decoded
  · rw [forwards]; exact sets.endorsed
  · simpa only [allFor_congr forwards] using sets.uniform
  · rw [leader] at follower
    rw [view, first follower, allFor_congr forwards]
    exact sets.first follower

theorem ForwardSets.quiet (sets : ForwardSets p cfg n) (same : n'.poll = n.poll) : ForwardSets p cfg n' := by
  obtain ⟨view,leader,_,forwards,proposals⟩ := Poll.mk.inj same
  exact sets.kept view leader forwards fun _ => by rw [proposals]

theorem ForwardSets.proposes {prop : Proposal} (sets : ForwardSets p cfg n) (leads : n.leader = cfg.id)
    (same : n'.poll = { n.poll with proposalByviewMap := n.proposalByviewMap.insert n.view prop }) :
    ForwardSets p cfg n' := by
  obtain ⟨view,leader,_,forwards,_⟩ := Poll.mk.inj same
  exact sets.kept view leader forwards fun follower => absurd leads follower

theorem ForwardSets.advanced (sets : ForwardSets p cfg n) (view : n'.view = n.view + 1)
    (leader : n'.leader = (n.leader + 1) % cfg.numNodes) (forwards : n'.fpropMap = n.fpropMap) :
    ForwardSets p cfg n' := by
  have empty : row n'.fpropMap n'.view = ∅ := by
    rw [row, forwards, view, sets.later _ (Nat.lt_succ_self _)]
    rfl
  refine ⟨by omega,?_,?_,?_,?_,?_,fun _ sender fprop found => ?_⟩
  · rw [leader, view, sets.turn, leaderOf_succ sets.started]
  · intro v after
    rw [forwards]
    exact sets.later v (by omega)
  · rw [forwards]; exact sets.decoded
  · rw [forwards]; exact sets.endorsed
  · simpa only [allFor_congr forwards] using sets.uniform
  · rw [empty] at found
    contradiction

theorem signedBy_true {id : Nat} {data sig : Bytes} (signed : signedBy p cfg id data sig = some true) :
    id ∈ cfg.nodeKeyMap ∧ p.verify id data sig = some true := by
  obtain ⟨key,known,accepts⟩ := Option.map_eq_some_iff.mp signed
  obtain rfl := getPubKeyFromID_eq known
  exact ⟨mem_of_getPubKeyFromID known,of_decide_eq_true accepts⟩

theorem checkProposal_signed (decoded : ExtProposal.fromProto p fprop = some ep)
    (checked : checkProposal p cfg n ep = some true) :
    signedBy p cfg n.leader (marshalHeader fprop.getHeader) fprop.miningProof = some true := by
  obtain ⟨_,_,key,known,accepts,_⟩ := checkProposal_eq_true.mp checked
  rw [ExtProposal.fromProto_proposal decoded] at accepts
  rw [signedBy, known, Option.map_some, accepts]

theorem checkForward_signed (decoded : ExtProposal.fromProto p fprop = some ep)
    (checked : checkForward p cfg n ep = some true) : checkProposal p cfg n ep = some true ∧
      signedBy p cfg fprop.forwardSender (marshalHeader fprop.getHeader) fprop.forwardSig = some true := by
  rw [checkForward, ExtProposal.fromProto_proposal decoded] at checked
  split at checked
  next => contradiction
  next => contradiction
  next passed => exact ⟨passed,checked⟩

theorem checkForward_endorses (decoded : ExtProposal.fromProto p fprop = some ep)
    (checked : checkForward p cfg n ep = some true) : Endorses p n.leader fprop.forwardSender fprop := by
  obtain ⟨passed,forwarded⟩ := checkForward_signed decoded checked
  exact ⟨rfl,(signedBy_true forwarded).2,(signedBy_true (checkProposal_signed decoded passed)).2⟩

theorem blockHashOf_decoded (decoded : ExtProposal.fromProto p fprop = some ep) :
    blockHashOf p fprop = some (ep.extBlock.getBlockHash p) := by
  rw [blockHashOf, decoded]
  rfl

theorem AgreesWithFirst.hash (decoded : ExtProposal.fromProto p fprop = some ep)
    (agrees : AgreesWithFirst p n ep) : blockHashOf p (n.reference fprop) = blockHashOf p fprop := by
  obtain ⟨ep2,decoded2,same⟩ := agrees
  rw [ExtProposal.fromProto_proposal decoded] at decoded2
  rw [blockHashOf_decoded decoded2, blockHashOf_decoded decoded, same]

theorem ForwardSets.reference (sets : ForwardSets p cfg n) (follower : n.leader ≠ cfg.id) (fprop : Proposal) :
    AllFor p n n.view (blockHashOf p (n.reference fprop)) := by
  intro sender other found
  have hash := sets.first follower sender other found
  rw [SyncHS.reference]
  cases known : n.proposalByviewMap.lookup n.view with
  | some first => simpa [known] using hash
  | none =>
    rw [known] at hash
    have decoded := sets.decoded _ _ _ found
    rw [hash] at decoded
    contradiction

theorem lookup_addForward (n : SyncHS) (fprop : Proposal) (v sender : Nat) :
    (row (n.addForward fprop).fpropMap v).lookup sender =
      if v = n.view ∧ sender = fprop.forwardSender then some fprop else (row n.fpropMap v).lookup sender := by
  rw [SyncHS.addForward, row_insert]
  by_cases here : v = n.view
  · subst here
    rw [if_pos rfl, SyncHS.forwardsWith, lookup_insert]
    simp
  · simp [here]

theorem ForwardSets.counted (sets : ForwardSets p cfg n) (accepted : Accepted p cfg n fprop ep)
    (agrees : AgreesWithFirst p n ep) (view : n'.view = n.view) (leader : n'.leader = n.leader)
    (forwards : n'.fpropMap = (n.addForward fprop).fpropMap)
    (first : (n'.proposalByviewMap.lookup n.view).bind (blockHashOf p) = blockHashOf p fprop) :
    ForwardSets p cfg n' := by
  have entry {v sender : Nat} {other : Proposal} (found : (row n'.fpropMap v).lookup sender = some other) :
      (v = n.view ∧ sender = fprop.forwardSender ∧ other = fprop) ∨ (row n.fpropMap v).lookup sender = some other := by
    rw [forwards, lookup_addForward] at found
    split at found
    next here => exact Or.inl ⟨here.1,here.2,(Option.some.inj found).symm⟩
    next => exact Or.inr found
  have same : n.leader ≠ cfg.id → AllFor p n' n.view (blockHashOf p fprop) := by
    intro follower sender other found
    rcases entry found with ⟨_,_,rfl⟩ | old
    · rfl
    · rw [sets.reference follower fprop sender other old, agrees.hash accepted.decoded]
  refine ⟨view ▸ sets.started,?_,?_,?_,?_,?_,?_⟩
  · rw [leader, view]; exact sets.turn
  · intro v after
    rw [forwards, SyncHS.addForward, lookup_insert, if_neg (by omega)]
    exact sets.later v (by omega)
  · intro v sender other found
    rcases entry found with ⟨_,_,rfl⟩ | old
    · rw [blockHashOf_decoded accepted.decoded]; rfl
    · exact sets.decoded v sender other old
  · intro v sender other found
    rcases entry found with ⟨rfl,rfl,rfl⟩ | old
    · rw [← sets.turn]
      exact checkForward_endorses accepted.decoded accepted.checked
    · exact sets.endorsed v sender other old
  · intro v follower
    by_cases here : v = n.view
    · subst here
      exact ⟨_,same (sets.turn ▸ follower)⟩
    · obtain ⟨hash,all⟩ := sets.uniform v follower
      refine ⟨hash,fun sender other found => ?_⟩
      rcases entry found with ⟨now,_⟩ | old
      · exact absurd now here
      · exact all sender other old
  · intro follower
    rw [view, first]
    exact same (leader ▸ follower)

theorem lookup_remember (n : SyncHS) (fprop : Proposal) :
    (n.remember fprop).proposalByviewMap.lookup n.view = some (n.reference fprop) := by
  rw [SyncHS.remember, lookup_insert, if_pos rfl]

theorem AgreesWithFirst.first (accepted : Accepted p cfg n fprop ep) (agrees : AgreesWithFirst p n ep) :
    ((n.addForward fprop).proposalByviewMap.lookup n.view).bind (blockHashOf p) = blockHashOf p fprop := by
  have known : (n.addForward fprop).proposalByviewMap.lookup n.view = _ := lookup_remember n fprop
  rw [known]
  exact agrees.hash accepted.decoded

theorem lookup_addForwardedBlock (n : SyncHS) (ep : ExtProposal) :
    (n.addForwardedBlock p ep).proposalByviewMap.lookup n.view = some ep.proposal := by
  rw [SyncHS.addForwardedBlock, SyncHS.addProposaltoViewMap]
  exact (lookup_insert _ _ _ _).trans (if_pos rfl)

theorem poll_addForwardedBlock (p : Platform) (n : SyncHS) (ep : ExtProposal) : (n.addForwardedBlock p ep).poll =
    { n.poll with proposalByviewMap := n.proposalByviewMap.insert n.view ep.proposal } := rfl

theorem ForwardSets.read (sets : ForwardSets p cfg n) (step : ForwardStep p cfg n fprop n' effect) :
    ForwardSets p cfg n' := by
  cases step with
  | flagged _ => exact sets
  | refused _ _ _ _ => exact sets
  | conflict ep ep2 _ _ _ =>
    refine ⟨sets.started,sets.turn,sets.later,sets.decoded,sets.endorsed,sets.uniform,fun follower => ?_⟩
    have known : (n.remember fprop).proposalByviewMap.lookup n.view = _ := lookup_remember n fprop
    change AllFor p n n.view (((n.remember fprop).proposalByviewMap.lookup n.view).bind (blockHashOf p))
    rw [known]
    exact sets.reference follower fprop
  | counted ep accepted agrees _ => exact sets.counted accepted agrees rfl rfl rfl (agrees.first accepted)
  | leads ep accepted agrees _ _ => exact sets.counted accepted agrees rfl rfl rfl (agrees.first accepted)
  | follows ep accepted agrees _ _ =>
    obtain ⟨view,leader,_,forwards,_⟩ := Poll.mk.inj (poll_addForwardedBlock p (n.addForward fprop) ep)
    refine sets.counted accepted agrees view leader forwards ?_
    have last : ((n.addForward fprop).addForwardedBlock p ep).proposalByviewMap.lookup n.view = _ :=
      lookup_addForwardedBlock (n.addForward fprop) ep
    rw [last, ExtProposal.fromProto_proposal accepted.decoded]
    rfl

theorem ForwardSets.completed (sets : ForwardSets p cfg (n.addForwardedBlock p ep)) (follower : n.leader ≠ cfg.id)
    (decoded : ExtProposal.fromProto p fprop = some ep) :
    AllFor p (n.addForwardedBlock p ep) n.view (some (ep.extBlock.getBlockHash p)) := by
  have view : (n.addForwardedBlock p ep).view = n.view := rfl
  have agreed := sets.first follower
  rwa [view, lookup_addForwardedBlock, Option.bind_some, ExtProposal.fromProto_proposal decoded,
    blockHashOf_decoded decoded] at agreed

end Sets

/-! ## Votes -/

/-- The state of a vote that has been spawned: the set of the view is complete, all for the
block of the vote, and no vote of the view has been cast. -/
structure VoteDue (p : Platform) (cfg : NodeConfig) (s : VotingNode) (ep : ExtProposal) : Prop where
  full : cfg.pMap.card ≤ size (row s.node.state.fpropMap s.node.state.view)
  agreed : AllFor p s.node.state s.node.state.view (some (ep.extBlock.getBlockHash p))
  unvoted : ∀ entry ∈ s.votes, entry.1 ≠ s.node.state.view

structure Ballots (p : Platform) (cfg : NodeConfig) (s : VotingNode) : Prop where
  sets : ForwardSets p cfg s.node.state
  plain : s.node.state.maliciousVoteInject = false
  once : (s.votes.map Prod.fst).Nodup
  past : ∀ entry ∈ s.votes, entry.1 ≤ s.node.state.view
  full : ∀ entry ∈ s.votes, cfg.pMap.card ≤ size (row s.node.state.fpropMap entry.1)
  agreed : ∀ entry ∈ s.votes, leaderOf cfg.numNodes entry.1 ≠ cfg.id → ∃ hash owner,
    entry.2.data = some ⟨hash.bytes,entry.1,owner⟩ ∧ AllFor p s.node.state entry.1 (some hash)
  single : s.node.pending.countP Job.isVote ≤ 1
  due : ∀ ep, .vote ep ∈ s.node.pending → VoteDue p cfg s ep

section Votes

variable {p : Platform} {cfg : NodeConfig} {s : VotingNode} {n' : SyncHS} {jobs rest : List Job}
  {acked : List (Nat × ExtBlock)}

theorem Ballots.initial (p : Platform) (cfg : NodeConfig) : Ballots p cfg ⟨.init,[]⟩ where
  sets := .initial p cfg
  plain := rfl
  once := List.nodup_nil
  past := by simp
  full := by simp
  agreed := by simp
  single := by simp [Node.init]
  due := by simp [Node.init]

theorem Ballots.unanimous (ballots : Ballots p cfg s) {entry : Nat × ProtoVote} (cast : entry ∈ s.votes)
    (follower : leaderOf cfg.numNodes entry.1 ≠ cfg.id) : Unanimous p cfg s.node.state entry.1 entry.2 :=
  ⟨ballots.full entry cast,ballots.sets.endorsed entry.1,ballots.agreed entry cast follower⟩

/-- The rows of the views in which a vote was cast do not change any more. -/
theorem Ballots.moved (ballots : Ballots p cfg s) (sets : ForwardSets p cfg n')
    (plain : n'.maliciousVoteInject = false) (view : s.node.state.view ≤ n'.view)
    (rows : ∀ entry ∈ s.votes, row n'.fpropMap entry.1 = row s.node.state.fpropMap entry.1)
    (single : rest.countP Job.isVote ≤ 1) (due : ∀ ep, .vote ep ∈ rest → VoteDue p cfg ⟨⟨n',rest,acked⟩,s.votes⟩ ep) :
    Ballots p cfg ⟨⟨n',rest,acked⟩,s.votes⟩ where
  sets := sets
  plain := plain
  once := ballots.once
  past entry cast := (ballots.past entry cast).trans view
  full entry cast := by
    rw [rows entry cast]
    exact ballots.full entry cast
  agreed entry cast follower := by
    obtain ⟨hash,owner,data,all⟩ := ballots.agreed entry cast follower
    refine ⟨hash,owner,data,fun sender fprop found => ?_⟩
    rw [rows entry cast] at found
    exact all sender fprop found
  single := single
  due := due

theorem Ballots.quiet (ballots : Ballots p cfg s) (sets : ForwardSets p cfg n')
    (plain : n'.maliciousVoteInject = false) (view : s.node.state.view ≤ n'.view)
    (rows : ∀ entry ∈ s.votes, row n'.fpropMap entry.1 = row s.node.state.fpropMap entry.1)
    (noVote : ∀ job ∈ rest, job.isVote = false) : Ballots p cfg ⟨⟨n',rest,acked⟩,s.votes⟩ := by
  refine ballots.moved sets plain view rows ?_ fun ep waiting => ?_
  · rw [List.countP_eq_zero.mpr fun job member => by simp [noVote job member]]
    exact Nat.zero_le 1
  · exact absurd (noVote _ waiting) (by simp [Job.isVote])

theorem Ballots.outside (ballots : Ballots p cfg s) (same : n'.poll = s.node.state.poll)
    (noVote : ∀ job ∈ rest, job.isVote = false) : Ballots p cfg ⟨⟨n',rest,acked⟩,s.votes⟩ := by
  obtain ⟨view,_,injected,forwards,_⟩ := Poll.mk.inj same
  exact ballots.quiet (ballots.sets.quiet same) (injected.trans ballots.plain) view.ge
    (fun _ _ => by rw [forwards]) noVote

theorem Ballots.cast {v : ProtoVote} {hash : Hash} {owner : Nat} (ballots : Ballots p cfg ⟨⟨n',rest,acked⟩,s.votes⟩)
    (unvoted : ∀ entry ∈ s.votes, entry.1 ≠ n'.view) (noVote : ∀ job ∈ rest, job.isVote = false)
    (full : cfg.pMap.card ≤ size (row n'.fpropMap n'.view)) (data : v.data = some ⟨hash.bytes,n'.view,owner⟩)
    (agreed : leaderOf cfg.numNodes n'.view ≠ cfg.id → AllFor p n' n'.view (some hash)) :
    Ballots p cfg ⟨⟨n',rest,acked⟩,s.votes ++ [(n'.view,v)]⟩ where
  sets := ballots.sets
  plain := ballots.plain
  once := by
    rw [List.map_append, List.map_singleton, ← List.concat_eq_append]
    refine List.Nodup.concat (fun again => ?_) ballots.once
    obtain ⟨entry,cast,same⟩ := List.mem_map.mp again
    exact unvoted entry cast same
  past := List.forall_mem_append.mpr ⟨ballots.past,by simp⟩
  full := List.forall_mem_append.mpr ⟨ballots.full,by simpa using full⟩
  agreed := List.forall_mem_append.mpr ⟨ballots.agreed,by simpa using fun follower => ⟨hash,⟨owner,data⟩,agreed follower⟩⟩
  single := ballots.single
  due ep waiting := absurd (noVote _ waiting) (by simp [Job.isVote])

variable {index : Nat} {effect : Effect} {job : Job}

/-- What a vote in the effect of a step adds to the votes of the run. -/
def VotingNode.after (s : VotingNode) (index : Nat) (n' : SyncHS) (effect : Effect) : VotingNode :=
  ⟨⟨n',s.node.pending.eraseIdx index ++ effect.jobs,s.node.acked⟩,
    s.votes ++ (effect.sends.filterMap Outgoing.vote).map fun v => (s.node.state.view,v)⟩

theorem Voteless.pending (voteless : Voteless effect.jobs effect.sends)
    (noVote : ∀ job ∈ s.node.pending, job.isVote = false) :
    ∀ job ∈ s.node.pending.eraseIdx index ++ effect.jobs, job.isVote = false :=
  List.forall_mem_append.mpr ⟨fun job member => noVote job (List.eraseIdx_subset member),voteless.jobs⟩

theorem Ballots.voteless (ballots : Ballots p cfg s) (noVote : ∀ job ∈ s.node.pending, job.isVote = false)
    (sets : ForwardSets p cfg n') (plain : n'.maliciousVoteInject = false) (view : n'.view = s.node.state.view)
    (rows : ∀ entry ∈ s.votes, row n'.fpropMap entry.1 = row s.node.state.fpropMap entry.1)
    (voteless : Voteless effect.jobs effect.sends) : Ballots p cfg (s.after index n' effect) := by
  rw [VotingNode.after, voteless.sends, List.map_nil, List.append_nil]
  exact ballots.quiet sets plain view.ge rows (voteless.pending noVote)

theorem Ballots.votes {v : ProtoVote} {hash : Hash} {owner : Nat} (ballots : Ballots p cfg s)
    (sets : ForwardSets p cfg n') (plain : n'.maliciousVoteInject = false) (view : n'.view = s.node.state.view)
    (rows : ∀ entry ∈ s.votes, row n'.fpropMap entry.1 = row s.node.state.fpropMap entry.1)
    (others : ∀ job ∈ s.node.pending.eraseIdx index, job.isVote = false)
    (unvoted : ∀ entry ∈ s.votes, entry.1 ≠ s.node.state.view)
    (full : cfg.pMap.card ≤ size (row n'.fpropMap n'.view)) (data : v.data = some ⟨hash.bytes,n'.view,owner⟩)
    (agreed : leaderOf cfg.numNodes n'.view ≠ cfg.id → AllFor p n' n'.view (some hash)) :
    Ballots p cfg (s.after index n' ⟨[.voteChannel v],[.broadcast (.vote v)],[]⟩) := by
  have rest : ∀ job ∈ s.node.pending.eraseIdx index ++ [Job.voteChannel v], job.isVote = false :=
    List.forall_mem_append.mpr ⟨others,by simp [Job.isVote]⟩
  rw [VotingNode.after, ← view]
  exact Ballots.cast (ballots.quiet sets plain view.ge rows rest) (view ▸ unvoted) rest full data agreed

theorem Ballots.unvoted (ballots : Ballots p cfg s)
    (reads : size (row s.node.state.fpropMap s.node.state.view) < cfg.pMap.card) :
    ∀ entry ∈ s.votes, entry.1 ≠ s.node.state.view := by
  intro entry cast same
  have full := ballots.full entry cast
  rw [same] at full
  omega

theorem row_addForward {n : SyncHS} {v : Nat} (fprop : Proposal) (other : v ≠ n.view) :
    row (n.addForward fprop).fpropMap v = row n.fpropMap v :=
  (row_insert _ _ _ _).trans (if_neg other)

theorem size_addForward (n : SyncHS) (fprop : Proposal) :
    size (row (n.addForward fprop).fpropMap n.view) = size (n.forwardsWith fprop) := by
  rw [SyncHS.addForward, row_insert, if_pos rfl]

theorem Ballots.read {fprop : Proposal} (ballots : Ballots p cfg s)
    (noVote : ∀ job ∈ s.node.pending, job.isVote = false)
    (reads : size (row s.node.state.fpropMap s.node.state.view) < cfg.pMap.card)
    (step : ForwardStep p cfg s.node.state fprop n' effect) : Ballots p cfg (s.after index n' effect) := by
  have sets := ballots.sets.read step
  have unvoted := ballots.unvoted reads
  have rows (entry) (cast : entry ∈ s.votes) : row (s.node.state.addForward fprop).fpropMap entry.1 =
      row s.node.state.fpropMap entry.1 := row_addForward fprop (unvoted entry cast)
  cases step with
  | flagged _ => exact ballots.voteless noVote sets ballots.plain rfl (fun _ _ => rfl) .none
  | refused _ _ _ _ => exact ballots.voteless noVote sets ballots.plain rfl (fun _ _ => rfl) .none
  | conflict ep ep2 _ _ _ =>
    refine ballots.voteless noVote sets ballots.plain rfl (fun _ _ => rfl) ?_
    split
    next => exact ⟨by simp [Job.isVote],rfl⟩
    next => exact .none
  | counted ep _ _ _ => exact ballots.voteless noVote sets ballots.plain rfl rows .none
  | leads ep accepted agrees full leader =>
    refine ballots.votes sets ballots.plain rfl rows (fun job member => noVote job (List.eraseIdx_subset member))
      unvoted ?_ rfl ?_
    · exact full.trans_eq (size_addForward s.node.state fprop).symm
    · exact fun follower => absurd (leader.trans ballots.sets.turn).symm follower
  | follows ep accepted agrees full follower =>
    obtain ⟨view,_,injected,forwards,_⟩ := Poll.mk.inj (poll_addForwardedBlock p (s.node.state.addForward fprop) ep)
    have completed := sets.completed (Ne.symm follower) accepted.decoded
    generalize SyncHS.addForwardedBlock p (s.node.state.addForward fprop) ep = n' at *
    rw [VotingNode.after]
    simp only [List.filterMap_nil, List.map_nil, List.append_nil]
    have none : (s.node.pending.eraseIdx index).countP Job.isVote = 0 :=
      List.countP_eq_zero.mpr fun job member => by simp [noVote job (List.eraseIdx_subset member)]
    refine ballots.moved sets (injected.trans ballots.plain) view.ge (fun entry cast => ?_) ?_ fun ep' waiting => ?_
    · rw [forwards]
      exact rows entry cast
    · rw [List.countP_append, none]
      simp [Job.isVote]
    · obtain rfl : ep' = ep := by
        rcases List.mem_append.mp waiting with old | new
        · exact absurd (noVote _ (List.eraseIdx_subset old)) (by simp [Job.isVote])
        · exact Job.vote.inj (List.mem_singleton.mp new)
      refine ⟨?_,?_,?_⟩
      · rw [forwards, view]
        exact full.trans_eq (size_addForward s.node.state fprop).symm
      · rw [view]
        exact completed
      · rw [view]
        exact unvoted

theorem Ballots.worked (ballots : Ballots p cfg s) (found : s.node.pending[index]? = some job)
    (taken : takes cfg s.node.state job = true)
    (atOnce : job.isVote = false → ∀ other ∈ s.node.pending, other.isVote = false)
    (step : PollStep p cfg s.node.state job n' effect) : Ballots p cfg (s.after index n' effect) := by
  cases step with
  | quiet job n' effect same voteless other =>
    obtain ⟨view,_,injected,forwards,_⟩ := Poll.mk.inj same
    exact ballots.voteless (atOnce other) (ballots.sets.quiet same) (injected.trans ballots.plain) view
      (fun _ _ => by rw [forwards]) voteless
  | proposes prop n' effect leads same voteless =>
    obtain ⟨view,_,injected,forwards,_⟩ := Poll.mk.inj same
    exact ballots.voteless (atOnce rfl) (ballots.sets.proposes leads same) (injected.trans ballots.plain) view
      (fun _ _ => by rw [forwards]; rfl) voteless
  | read fprop n' effect step => exact ballots.read (atOnce rfl) (of_decide_eq_true taken) step
  | voted ep =>
    have due := ballots.due ep (List.mem_of_getElem? found)
    -- the vote that is cast was the only one pending
    have none : (s.node.pending.eraseIdx index).countP Job.isVote = 0 := by
      obtain ⟨bound,here⟩ := List.getElem?_eq_some_iff.mp found
      have count := (List.getElem_cons_eraseIdx_perm bound).countP_eq Job.isVote
      rw [here, List.countP_cons_of_pos rfl] at count
      have single := ballots.single
      omega
    exact ballots.votes (ballots.sets.quiet rfl) ballots.plain rfl (fun _ _ => rfl)
      (fun job member => Bool.eq_false_iff.mpr (List.countP_eq_zero.mp none job member)) due.unvoted due.full rfl
      fun _ => due.agreed

theorem Ballots.calledBack (ballots : Ballots p cfg s) (noVote : ∀ job ∈ s.node.pending, job.isVote = false)
    (step : CallbackStep p cfg { s.node.state with timers := s.node.state.timers - 1 } n' effect) :
    Ballots p cfg ⟨⟨n',s.node.pending,acked⟩,s.votes⟩ := by
  cases step with
  | kept counters _ =>
    exact ballots.quiet (ballots.sets.quiet rfl) ballots.plain (Nat.le_refl _) (fun _ _ => rfl) noVote
  | advanced b counters _ _ =>
    exact ballots.quiet (ballots.sets.advanced rfl rfl rfl) ballots.plain (Nat.le_succ _) (fun _ _ => rfl) noVote

theorem protocol_noVote (cfg : NodeConfig) (n : SyncHS) (m : SyncHSMsg) :
    ∀ job ∈ protocol cfg n m, job.isVote = false := by
  intro job member
  have network := protocol_fromNetwork member
  cases job <;> first | rfl | contradiction

theorem Ballots.step {t : VotingNode} {e : NodeEvent} (noInjection : cfg.timerMode ≠ .maliciousVote)
    (ballots : Ballots p cfg s) (admitted : (votingMachine p cfg).enabled s e)
    (moved : (votingMachine p cfg).step s e = some t) : Ballots p cfg t := by
  obtain ⟨enabled,atOnce⟩ := admitted
  obtain ⟨⟨node,sends⟩,stepped,rfl⟩ := Option.map_eq_some_iff.mp moved
  have noVote (other : s.node.taken e = none ∨ ∃ job ∈ s.node.taken e, job.isVote = false) :
      ∀ job ∈ s.node.pending, job.isVote = false := by
    intro job member
    by_contra vote
    obtain ⟨job',taken,isVote⟩ := atOnce ⟨job,member,by simpa using vote⟩
    rcases other with none | ⟨job'',taken',noVote⟩
    · simp [none] at taken
    · obtain rfl := Option.mem_unique taken taken'
      simp [isVote] at noVote
  have case := node_cases stepped
  cases case with
  | connected =>
    simp only [List.filterMap_nil, List.map_nil, List.append_nil]
    exact ballots.outside rfl (noVote (Or.inl rfl))
  | commanded cmd n' jobs case =>
    simp only [List.filterMap_nil, List.map_nil, List.append_nil]
    cases case with
    | pooled _ _ _ _ _ rounds =>
      exact ballots.outside rfl (List.forall_mem_append.mpr
        ⟨noVote (Or.inl rfl),fun job new => by rw [rounds job new]; rfl⟩)
  | received m =>
    simp only [List.filterMap_nil, List.map_nil, List.append_nil]
    exact ballots.outside rfl (List.forall_mem_append.mpr ⟨noVote (Or.inl rfl),protocol_noVote cfg _ m⟩)
  | worked index order job n' jobs sends found case =>
    refine ballots.worked found ?_ ?_ (case.poll noInjection ballots.plain)
    · simpa [Node.enabled,found] using enabled
    · exact fun isVote => noVote (Or.inr ⟨job,found,isVote⟩)
  | calledBack n' acks case =>
    simp only [List.filterMap_nil, List.map_nil, List.append_nil]
    exact ballots.calledBack (noVote (Or.inl rfl)) case

/-- In every run in which a spawned vote is cast before anything else happens, the node
votes at most once per view; and a follower votes only for a block that as many nodes as it
has peers have forwarded in that view, each with its own signature and that of the leader. -/
theorem votes_once_and_unanimously {trace : List NodeEvent} (noInjection : cfg.timerMode ≠ .maliciousVote)
    (run : (votingMachine p cfg).Run ⟨.init,[]⟩ trace s) : (s.votes.map Prod.fst).Nodup ∧
      ∀ entry ∈ s.votes, leaderOf cfg.numNodes entry.1 ≠ cfg.id →
        Unanimous p cfg s.node.state entry.1 entry.2 := by
  have ballots : Ballots p cfg s :=
    run.invariant (.initial p cfg) fun _ _ _ ballots admitted moved => ballots.step noInjection admitted moved
  exact ⟨ballots.once,fun entry cast follower => ballots.unanimous cast follower⟩

end Votes

/-- Node one of three gets the first proposal and the forward of node two. -/
theorem follower_votes_unanimously : ∃ s : VotingNode, ∃ v, s.votes = [(1,v)] ∧
    Unanimous transparent (.complete 3 1 true .plain 1) s.node.state 1 v := by
  obtain ⟨s,run,views⟩ := Guarded.Machine.reaches (fun s : VotingNode => s.votes.map Prod.fst = [1])
    (show ((votingMachine transparent (.complete 3 1 true .plain 1)).replay
      (forwardsOf (proposalAt 1) ++ [.work 0 []]) ⟨.init,[]⟩).any _ = true by decide +kernel)
  obtain ⟨⟨view,v⟩,votes,same⟩ := List.map_eq_singleton_iff.mp views
  obtain rfl : view = 1 := same
  have follower : leaderOf 3 1 ≠ 1 := by decide
  exact ⟨s,v,votes,(votes_once_and_unanimously (by decide) run).2 (1,v) (by simp [votes]) follower⟩

end ReputationSMR

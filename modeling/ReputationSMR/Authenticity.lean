import ReputationSMR.Byzantine
import ReputationSMR.Unanimity

/-! Whose signatures there are. Honest nodes sign what the log of the system says, and the
leader among them the proposal it is about to announce; Byzantine nodes sign what they
inject. Every signature that a node comes across and that verifies was made in one of
these ways, whoever passed it on and in whatever message. -/
namespace ReputationSMR

open Wire FiniteMap

/-- The laws of unforgeable signatures: the signature of one member of the cluster does not
verify for another, and the empty string is nobody's signature. -/
structure Platform.Unforgeable (p : Platform) (size : Nat) : Prop where
  signer : ∀ i k data, i < size → k < size → p.verify k data (p.sign i data) = some true → k = i
  nonempty : ∀ k data, p.verify k data [] ≠ some true

theorem transparent_unforgeable {size : Nat} (small : size ≤ 256) : transparent.Unforgeable size where
  signer i k data inside inside' verifies := by
    have same : UInt8.ofNat i :: data = UInt8.ofNat k :: data := of_decide_eq_true (Option.some.inj verifies)
    have bytes : (UInt8.ofNat i).toNat = (UInt8.ofNat k).toNat := congrArg UInt8.toNat (List.cons.inj same).1
    simp only [UInt8.toNat_ofNat'] at bytes
    omega
  nonempty k data := by simp [transparent]

/-- The nodes are named by their numbers and know each other's keys. -/
structure Cluster.Regular (c : Cluster) : Prop where
  id : ∀ i ∈ c.honestNodes, (c.config i).id = i
  numNodes : ∀ i ∈ c.honestNodes, (c.config i).numNodes = c.size
  keys : ∀ i ∈ c.honestNodes, (c.config i).nodeKeyMap = Finset.range c.size

theorem complete_regular (size blockSize : Nat) (startEvidence : Bool) (mode : TimerMode) (byzantine : Finset Nat) :
    (Cluster.complete size blockSize startEvidence mode byzantine).Regular :=
  ⟨fun _ _ => rfl,fun _ _ => rfl,fun _ _ => rfl⟩

/-! ## Who has signed what -/

def Job.draft : Job → Option Bytes
  | .proposed prop => some (marshalHeader prop.getHeader)
  | _ => none

/-- An honest node has signed the data; it may still be about to send it. -/
def System.made (s : System) (k : Nat) (data : Bytes) : Prop :=
  (k,data) ∈ s.signed ∨ ∃ job ∈ (s.nodes k).pending, job.draft = some data

instance (s : System) (k : Nat) (data : Bytes) : Decidable (s.made k data) := inferInstanceAs (Decidable (_ ∨ _))

/-- A Byzantine node has shown the signature. -/
def Shown (p : Platform) (trace : List SystemEvent) (k : Nat) (data : Bytes) : Prop :=
  ∃ dest m sig, .inject dest m ∈ trace ∧ (data,sig) ∈ m.signatures ∧ p.verify k data sig = some true

/-- Node `k` has signed the data in the course of the run. -/
def HasSigned (p : Platform) (trace : List SystemEvent) (s : System) (k : Nat) (data : Bytes) : Prop :=
  s.made k data ∨ Shown p trace k data

/-- A signature that verifies for a member of the cluster was made by it. -/
def Backed (c : Cluster) (p : Platform) (trace : List SystemEvent) (s : System) (entry : Bytes × Bytes) : Prop :=
  ∀ k, k < c.size → p.verify k entry.1 entry.2 = some true → HasSigned p trace s k entry.1

/-- The signatures in a pending job, each with the data it is checked against. -/
def Job.signatures : Job → List (Bytes × Bytes)
  | .forward prop | .proposeChannel prop | .maliPropseChannel prop | .proposed prop => prop.signatures
  | .voteChannel v | .sendMalivoteEvidence v => v.signatures
  | .eqEvidenceChannel e => (SyncHSMsg.eqevidence e).signatures
  | .maliProEvidenceChannel e => (SyncHSMsg.mpevidence e).signatures
  | .maliVoteEvidenceChannel e => (SyncHSMsg.mvevidence e).signatures
  | .vote ep => ep.proposal.signatures
  | .sendEqProEvidence prop1 prop2 => prop1.signatures ++ prop2.signatures
  | .round | .addCert _ _ => []

structure Authentic (c : Cluster) (p : Platform) (trace : List SystemEvent) (s : System) : Prop where
  net : ∀ x ∈ s.net, ∀ entry ∈ x.msg.signatures, Backed c p trace s entry
  pending : ∀ i ∈ c.honestNodes, ∀ job ∈ (s.nodes i).pending, ∀ entry ∈ job.signatures, Backed c p trace s entry
  known : ∀ i ∈ c.honestNodes, ∀ v prop, (s.nodes i).state.proposalByviewMap.lookup v = some prop →
    HasSigned p trace s (leaderOf c.size v) (marshalHeader prop.getHeader) ∧
      ∀ entry ∈ prop.signatures, Backed c p trace s entry
  turns : ∀ i ∈ c.honestNodes, 1 ≤ (s.nodes i).state.view ∧
    (s.nodes i).state.leader = leaderOf c.size (s.nodes i).state.view

/-! ## Where the signatures of a step come from -/

/-- What a step signs: data in messages it sends or the header of a new proposal. -/
def Effect.signs (effect : Effect) (data : Bytes) : Prop :=
  data ∈ (effect.sends.flatMap Outgoing.messages).flatMap SyncHSMsg.signedData ∨
    ∃ job ∈ effect.jobs, job.draft = some data

inductive Source (p : Platform) (cfg : NodeConfig) (n : SyncHS) (job : Job) (effect : Effect) :
    Bytes × Bytes → Prop where
  | taken (entry : Bytes × Bytes) : entry ∈ job.signatures → Source p cfg n job effect entry
  | known (prop : Proposal) (entry : Bytes × Bytes) : n.proposalByviewMap.lookup n.view = some prop →
      entry ∈ prop.signatures → Source p cfg n job effect entry
  | blank (data : Bytes) : Source p cfg n job effect (data,[])
  | made (data : Bytes) : effect.signs data → Source p cfg n job effect (data,p.sign cfg.id data)

/-- Every signature that a step passes on has a source. -/
structure Sourced (p : Platform) (cfg : NodeConfig) (n : SyncHS) (job : Job) (effect : Effect) : Prop where
  jobs : ∀ next ∈ effect.jobs, ∀ entry ∈ next.signatures, Source p cfg n job effect entry
  sends : ∀ m ∈ effect.sends.flatMap Outgoing.messages, ∀ entry ∈ m.signatures, Source p cfg n job effect entry

section Sources

variable {p : Platform} {cfg : NodeConfig} {n n' : SyncHS} {job : Job} {effect : Effect}

theorem Sourced.none : Sourced p cfg n job .none := ⟨by simp [Effect.none],by simp [Effect.none]⟩

theorem Sourced.broadcast {next : Job} {m : SyncHSMsg} (same : next.signatures = m.signatures)
    (source : ∀ entry ∈ m.signatures, Source p cfg n job ⟨[next],[.broadcast m],[]⟩ entry) :
    Sourced p cfg n job ⟨[next],[.broadcast m],[]⟩ := by
  constructor
  · intro other member entry signature
    rw [List.mem_singleton.mp member, same] at signature
    exact source entry signature
  · intro other member entry signature
    obtain rfl : other = m := by simpa [Outgoing.messages] using member
    exact source entry signature

theorem signs_broadcast {jobs : List Job} {m : SyncHSMsg} {data : Bytes} (signed : data ∈ m.signedData) :
    Effect.signs ⟨jobs,[.broadcast m],[]⟩ data :=
  Or.inl (by simpa [Outgoing.messages] using signed)

theorem Sourced.signVote (data : ProtoVoteData) : Sourced p cfg n job
    ⟨[.voteChannel (signVote p cfg data)],[.broadcast (.vote (signVote p cfg data))],[]⟩ := by
  refine .broadcast rfl fun entry signature => ?_
  obtain rfl : entry = (data.marshal,p.sign cfg.id data.marshal) := List.mem_singleton.mp signature
  exact .made _ (signs_broadcast (List.mem_singleton.mpr rfl))

theorem newCandidateProposal_signatures (p : Platform) (cfg : NodeConfig) (n : SyncHS) (cmds : List Bytes)
    (cert : BlockCertificate) (height : Nat) (extra : Bytes) :
    (newCandidateProposal p cfg n cmds cert height extra).signatures =
      [((newHeader p cert height extra).marshal,p.sign cfg.id (newHeader p cert height extra).marshal),
        ((newHeader p cert height extra).marshal,[])] := rfl

theorem Source.candidate {cmds : List Bytes} {cert : BlockCertificate} {height : Nat} {extra : Bytes}
    (signs : effect.signs (newHeader p cert height extra).marshal) {entry : Bytes × Bytes}
    (signature : entry ∈ (newCandidateProposal p cfg n cmds cert height extra).signatures) :
    Source p cfg n job effect entry := by
  rw [newCandidateProposal_signatures] at signature
  rcases List.mem_cons.mp signature with rfl | signature
  · exact .made _ signs
  · obtain rfl := List.mem_singleton.mp signature
    exact .blank _

theorem Source.envelope {m : SyncHSMsg} {next : Job} {data : EvidenceData} (signed : data.marshal ∈ m.signedData)
    {entry : Bytes × Bytes} (signature : entry ∈ (signEvidence p cfg data).signatures) :
    Source p cfg n job ⟨[next],[.broadcast m],[]⟩ entry := by
  obtain rfl : entry = (data.marshal,p.sign cfg.id data.marshal) := List.mem_singleton.mp signature
  exact .made _ (signs_broadcast signed)

theorem RoundCase.sourced (step : RoundCase p cfg n n' effect) : Sourced p cfg n job effect := by
  cases step with
  | idle _ _ _ _ => exact .none
  | withholds _ _ => exact .none
  | proposes withheld cert _ _ _ _ _ _ =>
    constructor
    · intro next member entry signature
      rw [List.mem_singleton.mp member] at signature
      exact Source.candidate (Or.inr ⟨_,List.mem_singleton.mpr rfl,rfl⟩) signature
    · simp
  | equivocates commands cmds cert _ =>
    constructor
    · simp
    · intro m member entry signature
      have either : m = .prop (newCandidateProposal p cfg n cmds cert (n.bc.head + 1) [49]) ∨
          m = .prop (newCandidateProposal p cfg n cmds cert (n.bc.head + 1) [50]) := by
        simpa [Outgoing.messages] using member
      rcases either with rfl | rfl
      · exact Source.candidate (Or.inl (List.mem_cons_self)) signature
      · exact Source.candidate (Or.inl (List.mem_cons_of_mem _ List.mem_cons_self)) signature
  | intrudes commands cmds cert _ =>
    refine .broadcast rfl fun entry signature => ?_
    exact Source.candidate (signs_broadcast (List.mem_singleton.mpr rfl)) signature

theorem ForwardStep.sourced {fprop : Proposal} (step : ForwardStep p cfg n fprop n' effect) :
    Sourced p cfg n (.proposeChannel fprop) effect := by
  cases step with
  | flagged _ | refused _ _ _ _ | counted _ _ _ _ => exact .none
  | conflict ep ep2 _ _ _ =>
    split
    next =>
      refine ⟨fun next member entry signature => ?_,by simp⟩
      rw [List.mem_singleton.mp member] at signature
      rcases List.mem_append.mp signature with first | second
      · rw [SyncHS.reference] at first
        cases known : n.proposalByviewMap.lookup n.view with
        | some prop => exact .known prop entry known (by simpa [known] using first)
        | none => exact .taken entry (by simpa [known,Job.signatures] using first)
      · exact .taken entry second
    next => exact .none
  | leads ep _ _ _ _ => exact .signVote _
  | follows ep accepted _ _ _ =>
    refine ⟨fun next member entry signature => ?_,by simp⟩
    rw [List.mem_singleton.mp member] at signature
    exact .taken entry (ExtProposal.fromProto_proposal accepted.decoded ▸ signature)

theorem VoteStep.sourced {v : ProtoVote} {order : List Nat} (step : VoteStep p cfg n v order n' effect) :
    Sourced p cfg n (.voteChannel v) effect := by
  cases step with
  | foreign d _ _ =>
    refine ⟨fun next member entry signature => ?_,by simp⟩
    rw [List.mem_singleton.mp member] at signature
    exact .taken entry signature
  | dropped d _ _ _ => exact .none
  | counted d n' effect _ counted =>
    cases counted with
    | late _ | pooled _ _ _ => exact .none
    | certifies _ _ _ => exact ⟨by simp [Job.signatures],by simp⟩

theorem JobCase.sourced {order : List Nat} (step : JobCase p cfg n order job n' effect) :
    Sourced p cfg n job effect := by
  cases step with
  | read _ _ _ step => exact step.sourced
  | voteHandled _ _ _ step => exact step.sourced
  | started _ _ step => exact step.sourced
  | forwarded prop ep _ _ =>
    refine .broadcast rfl fun entry signature => ?_
    rcases List.mem_cons.mp signature with rfl | signature
    · exact .taken _ List.mem_cons_self
    · obtain rfl := List.mem_singleton.mp signature
      exact .made _ (signs_broadcast (List.mem_singleton.mpr rfl))
  | intruderReported prop inject =>
    refine .broadcast rfl fun entry signature => ?_
    rcases List.mem_append.mp signature with envelope | inside
    · exact .envelope (List.mem_singleton.mpr rfl) (by simpa [maliProEvidenceOf] using envelope)
    · exact .taken entry (by simpa [maliProEvidenceOf,Job.signatures] using inside)
  | announced prop =>
    refine ⟨by simp,fun m member entry signature => ?_⟩
    obtain rfl : m = .prop prop := by simpa [Outgoing.messages] using member
    exact .taken entry signature
  | voted ep _ => exact .signVote _
  | misvoted ep _ _ => exact .signVote _
  | eqEvidenceSent prop1 prop2 =>
    refine .broadcast rfl fun entry signature => ?_
    rcases List.mem_append.mp signature with first | inside
    · rcases List.mem_append.mp first with envelope | inside
      · exact .envelope (List.mem_singleton.mpr rfl) (by simpa [eqEvidenceOf] using envelope)
      · exact .taken entry (List.mem_append_left _ (by simpa [eqEvidenceOf] using inside))
    · exact .taken entry (List.mem_append_right _ (by simpa [eqEvidenceOf] using inside))
  | malivoteEvidenceSent v =>
    refine .broadcast rfl fun entry signature => ?_
    rcases List.mem_append.mp signature with envelope | inside
    · exact .envelope (List.mem_singleton.mpr rfl) (by simpa [malivoteEvidenceOf] using envelope)
    · exact .taken entry (by simpa [malivoteEvidenceOf,Job.signatures] using inside)
  | _ => exact .none

end Sources

/-! ## What a node knows -/

/-- The leader of the view has signed the header: the handler has checked a forward of it, or
the node has just proposed it. -/
inductive Learnt (p : Platform) (cfg : NodeConfig) (n : SyncHS) (prop : Proposal) : Job → List Job → Prop where
  | forwarded (ep : ExtProposal) (jobs : List Job) : Accepted p cfg n prop ep →
      Learnt p cfg n prop (.proposeChannel prop) jobs
  | proposed (job : Job) (jobs : List Job) : n.leader = cfg.id → .proposed prop ∈ jobs →
      Learnt p cfg n prop job jobs

/-- A job stays in the view and adds at most one proposal of it. -/
structure Informed (p : Platform) (cfg : NodeConfig) (n : SyncHS) (job : Job) (n' : SyncHS) (effect : Effect) :
    Prop where
  view : n'.view = n.view
  leader : n'.leader = n.leader
  proposals : ∀ v prop, n'.proposalByviewMap.lookup v = some prop →
    n.proposalByviewMap.lookup v = some prop ∨ v = n.view ∧ Learnt p cfg n prop job effect.jobs

section Knowledge

variable {p : Platform} {cfg : NodeConfig} {n n' : SyncHS} {job : Job} {effect : Effect}

theorem Informed.same (view : n'.view = n.view) (leader : n'.leader = n.leader)
    (proposals : n'.proposalByviewMap = n.proposalByviewMap) : Informed p cfg n job n' effect :=
  ⟨view,leader,fun _ _ found => Or.inl (proposals ▸ found)⟩

theorem remember_origin (n : SyncHS) (fprop : Proposal) {v : Nat} {prop : Proposal}
    (found : (n.remember fprop).proposalByviewMap.lookup v = some prop) :
    n.proposalByviewMap.lookup v = some prop ∨ v = n.view ∧ prop = fprop := by
  rw [SyncHS.remember, lookup_insert] at found
  split at found
  next here =>
    rw [SyncHS.reference] at found
    cases known : n.proposalByviewMap.lookup n.view with
    | some first =>
      rw [known] at found
      exact Or.inl (by rw [here, known]; exact found)
    | none =>
      rw [known] at found
      exact Or.inr ⟨here,(Option.some.inj found).symm⟩
  next => exact Or.inl found

theorem ForwardStep.informed {fprop : Proposal} (step : ForwardStep p cfg n fprop n' effect) :
    Informed p cfg n (.proposeChannel fprop) n' effect := by
  have remembered {ep : ExtProposal} (accepted : Accepted p cfg n fprop ep)
      (proposals : n'.proposalByviewMap = (n.remember fprop).proposalByviewMap) (v : Nat) (prop : Proposal)
      (found : n'.proposalByviewMap.lookup v = some prop) : n.proposalByviewMap.lookup v = some prop ∨
        v = n.view ∧ Learnt p cfg n prop (.proposeChannel fprop) effect.jobs := by
    rw [proposals] at found
    rcases remember_origin n fprop found with old | ⟨here,rfl⟩
    · exact Or.inl old
    · exact Or.inr ⟨here,.forwarded ep _ accepted⟩
  cases step with
  | flagged _ | refused _ _ _ _ => exact .same rfl rfl rfl
  | conflict ep ep2 accepted _ _ => exact ⟨rfl,rfl,remembered accepted rfl⟩
  | counted ep accepted _ _ => exact ⟨rfl,rfl,remembered accepted rfl⟩
  | leads ep accepted _ _ _ => exact ⟨rfl,rfl,remembered accepted rfl⟩
  | follows ep accepted _ _ _ =>
    refine ⟨rfl,rfl,fun v prop found => ?_⟩
    have inserted : ((n.remember fprop).proposalByviewMap.insert n.view ep.proposal).lookup v = some prop := found
    rw [lookup_insert, ExtProposal.fromProto_proposal accepted.decoded] at inserted
    split at inserted
    next here =>
      obtain rfl := Option.some.inj inserted
      exact Or.inr ⟨here,.forwarded ep _ accepted⟩
    next =>
      rcases remember_origin n fprop inserted with old | ⟨here,rfl⟩
      · exact Or.inl old
      · exact Or.inr ⟨here,.forwarded ep _ accepted⟩

theorem VoteStep.informed {v : ProtoVote} {order : List Nat} (step : VoteStep p cfg n v order n' effect) :
    Informed p cfg n job n' effect := by
  obtain ⟨view,leader,_,_,proposals⟩ := Poll.mk.inj step.poll.1
  exact .same view leader proposals

theorem RoundCase.informed (step : RoundCase p cfg n n' effect) : Informed p cfg n job n' effect := by
  cases step with
  | withholds _ _ =>
    rw [handleWithholdingProposal]
    split <;> exact .same rfl rfl rfl
  | proposes withheld cert _ leader _ _ _ _ =>
    refine ⟨rfl,rfl,fun v prop found => ?_⟩
    have inserted : (n.proposalByviewMap.insert n.view (n.candidate p cfg cert)).lookup v = some prop := found
    rw [lookup_insert] at inserted
    split at inserted
    next here =>
      obtain rfl := Option.some.inj inserted
      exact Or.inr ⟨here,.proposed _ _ leader (List.mem_singleton.mpr rfl)⟩
    next => exact Or.inl inserted
  | _ => exact .same rfl rfl rfl

theorem JobCase.informed {order : List Nat} (step : JobCase p cfg n order job n' effect) :
    Informed p cfg n job n' effect := by
  cases step with
  | read _ _ _ step => exact step.informed
  | voteHandled _ _ _ step => exact step.informed
  | started _ _ step => exact step.informed
  | _ => exact .same rfl rfl rfl

end Knowledge

/-! ## Nodes -/

/-- Where a signature in the pending work of a node or in what it sends comes from. -/
inductive NodeSource (p : Platform) (cfg : NodeConfig) (node : Node) (event : NodeEvent) (node' : Node)
    (sends : List Outgoing) : Bytes × Bytes → Prop where
  | held (job : Job) (entry : Bytes × Bytes) : job ∈ node.pending → entry ∈ job.signatures →
      NodeSource p cfg node event node' sends entry
  | known (v : Nat) (prop : Proposal) (entry : Bytes × Bytes) :
      node.state.proposalByviewMap.lookup v = some prop → entry ∈ prop.signatures →
      NodeSource p cfg node event node' sends entry
  | received (m : SyncHSMsg) (entry : Bytes × Bytes) : event = .receive m → entry ∈ m.signatures →
      NodeSource p cfg node event node' sends entry
  | blank (data : Bytes) : NodeSource p cfg node event node' sends (data,[])
  | made (data : Bytes) : (data ∈ (sends.flatMap Outgoing.messages).flatMap SyncHSMsg.signedData ∨
      ∃ job ∈ node'.pending, job.draft = some data) →
      NodeSource p cfg node event node' sends (data,p.sign cfg.id data)

section Nodes

variable {p : Platform} {cfg : NodeConfig} {node node' : Node} {event : NodeEvent} {sends : List Outgoing}

theorem protocol_signatures {n : SyncHS} {m : SyncHSMsg} {job : Job} (member : job ∈ protocol cfg n m) :
    job.signatures = m.signatures := by
  cases m with
  | prop x =>
    simp only [protocol] at member
    split at member
    next => split at member <;> obtain rfl := List.mem_singleton.mp member <;> rfl
    next => obtain rfl := List.mem_singleton.mp member; rfl
  | vote v => obtain rfl := List.mem_singleton.mp member; rfl
  | eqevidence e | mpevidence e | mvevidence e =>
    simp only [protocol] at member
    split at member
    next => obtain rfl := List.mem_singleton.mp member; rfl
    next => contradiction
  | ack _ | tx _ | unset => contradiction

theorem Source.worked {index : Nat} {order : List Nat} {job : Job} {n' : SyncHS} {jobs : List Job}
    {entry : Bytes × Bytes} (found : node.pending[index]? = some job)
    (source : Source p cfg node.state job ⟨jobs,sends,[]⟩ entry) :
    NodeSource p cfg node (.work index order) ⟨n',node.pending.eraseIdx index ++ jobs,node.acked⟩ sends entry := by
  cases source with
  | taken _ signature => exact .held job entry (List.mem_of_getElem? found) signature
  | known prop _ known signature => exact .known _ prop entry known signature
  | blank data => exact .blank data
  | made data signs =>
    refine .made data (signs.imp_right ?_)
    rintro ⟨next,member,draft⟩
    exact ⟨next,List.mem_append_right _ member,draft⟩

theorem NodeCase.sources (case : NodeCase p cfg node event node' sends) :
    (∀ job ∈ node'.pending, ∀ entry ∈ job.signatures, NodeSource p cfg node event node' sends entry) ∧
    ∀ m ∈ sends.flatMap Outgoing.messages, ∀ entry ∈ m.signatures,
      NodeSource p cfg node event node' sends entry := by
  cases case with
  | connected => exact ⟨fun job member entry => .held job entry member,by simp⟩
  | commanded cmd n' jobs case =>
    refine ⟨fun job member entry signature => ?_,by simp⟩
    rcases List.mem_append.mp member with old | new
    · exact .held job entry old signature
    · cases case with
      | pooled _ _ _ _ _ rounds =>
        rw [rounds job new] at signature
        contradiction
  | received m =>
    refine ⟨fun job member entry signature => ?_,by simp⟩
    rcases List.mem_append.mp member with old | new
    · exact .held job entry old signature
    · exact .received m entry rfl (protocol_signatures new ▸ signature)
  | worked index order job n' jobs sends found case =>
    refine ⟨fun next member entry signature => ?_,fun m member entry signature => ?_⟩
    · rcases of_mem_work member with old | new
      · exact .held next entry old signature
      · exact (case.sourced.jobs next new entry signature).worked found
    · exact (case.sourced.sends m member entry signature).worked found
  | calledBack n' acks case => exact ⟨fun job member entry => .held job entry member,by simp⟩

theorem NodeCase.receives {m : SyncHSMsg} (case : NodeCase p cfg node (.receive m) node' sends) : sends = [] := by
  cases case
  rfl

theorem NodeCase.drafts (case : NodeCase p cfg node event node' sends) {data : Bytes}
    (drafted : ∃ job ∈ node.pending, job.draft = some data) :
    data ∈ (sends.flatMap Outgoing.messages).flatMap SyncHSMsg.signedData ∨
      ∃ job ∈ node'.pending, job.draft = some data := by
  obtain ⟨job,member,draft⟩ := drafted
  cases case with
  | connected | calledBack _ _ _ => exact Or.inr ⟨job,member,draft⟩
  | commanded _ _ _ _ | received _ => exact Or.inr ⟨job,List.mem_append_left _ member,draft⟩
  | worked index order next n' jobs sends found case =>
    by_cases same : job = next
    · subst same
      cases job with
      | proposed prop =>
        cases case with
        | announced _ => exact Or.inl (by simpa [Outgoing.messages,SyncHSMsg.signedData,Job.draft] using draft.symm)
      | _ => contradiction
    · exact Or.inr ⟨job,mem_work found member same jobs,draft⟩

/-- How a node comes to know a proposal of a view. -/
inductive NodeLearnt (p : Platform) (cfg : NodeConfig) (node node' : Node) (v : Nat) (prop : Proposal) : Prop where
  | known : node.state.proposalByviewMap.lookup v = some prop → NodeLearnt p cfg node node' v prop
  | forwarded (ep : ExtProposal) : v = node.state.view → .proposeChannel prop ∈ node.pending →
      Accepted p cfg node.state prop ep → NodeLearnt p cfg node node' v prop
  | proposed : v = node.state.view → node.state.leader = cfg.id → .proposed prop ∈ node'.pending →
      NodeLearnt p cfg node node' v prop

theorem NodeCase.learns (case : NodeCase p cfg node event node' sends) (v : Nat) (prop : Proposal)
    (found : node'.state.proposalByviewMap.lookup v = some prop) : NodeLearnt p cfg node node' v prop := by
  cases case with
  | connected | received _ => exact .known found
  | commanded cmd n' jobs case => cases case; exact .known found
  | worked index order job n' jobs sends atIndex case =>
    rcases case.informed.proposals v prop found with old | ⟨here,learnt⟩
    · exact .known old
    · cases learnt with
      | forwarded ep _ accepted => exact .forwarded ep here (List.mem_of_getElem? atIndex) accepted
      | proposed _ _ leader member => exact .proposed here leader (List.mem_append_right _ member)
  | calledBack n' acks case => cases case <;> exact .known found

theorem NodeCase.turn {size : Nat} (case : NodeCase p cfg node event node' sends) (numNodes : cfg.numNodes = size)
    (turn : 1 ≤ node.state.view ∧ node.state.leader = leaderOf size node.state.view) :
    1 ≤ node'.state.view ∧ node'.state.leader = leaderOf size node'.state.view := by
  cases case with
  | connected | received _ => exact turn
  | commanded cmd n' jobs case => cases case; exact turn
  | worked index order job n' jobs sends found case =>
    rwa [case.informed.view, case.informed.leader]
  | calledBack n' acks case =>
    cases case with
    | kept _ _ => exact turn
    | advanced b counters _ _ =>
      subst numNodes
      refine ⟨Nat.le_add_left 1 _,?_⟩
      exact (congrArg (fun leader => (leader + 1) % cfg.numNodes) turn.2).trans (leaderOf_succ turn.1).symm

end Nodes

/-! ## Runs -/

section Runs

variable {c : Cluster} {p : Platform} {s t : System} {e : SystemEvent} {trace : List SystemEvent} {k : Nat}
  {data : Bytes}

theorem Shown.later (shown : Shown p trace k data) (e : SystemEvent) : Shown p (trace ++ [e]) k data := by
  obtain ⟨dest,m,sig,member,signature,verifies⟩ := shown
  exact ⟨dest,m,sig,List.mem_append_left _ member,signature,verifies⟩

theorem Moves.sent {i : Nat} {event : NodeEvent} {sends : List Outgoing} (moves : Moves c p s e t i event sends)
    (sent : data ∈ (sends.flatMap Outgoing.messages).flatMap SyncHSMsg.signedData ∨
      ∃ job ∈ (t.nodes i).pending, job.draft = some data) : t.made i data := by
  refine sent.imp_left fun sent => moves.signed ▸ List.mem_append_right _ ?_
  obtain ⟨m,member,inside⟩ := List.mem_flatMap.mp sent
  exact List.mem_flatMap.mpr ⟨m,member,List.mem_map.mpr ⟨data,inside,rfl⟩⟩

theorem Moves.keeps {i : Nat} {event : NodeEvent} {sends : List Outgoing} (moves : Moves c p s e t i event sends)
    (made : s.made k data) : t.made k data := by
  rcases made with signed | drafted
  · exact Or.inl (moves.signed ▸ List.mem_append_left _ signed)
  · by_cases same : k = i
    · subst same
      exact moves.sent (moves.case.drafts drafted)
    · exact Or.inr (by rwa [moves.other k same])

theorem HasSigned.moves {i : Nat} {event : NodeEvent} {sends : List Outgoing} (moves : Moves c p s e t i event sends)
    (signed : HasSigned p trace s k data) : HasSigned p (trace ++ [e]) t k data :=
  signed.imp moves.keeps fun shown => shown.later e

theorem HasSigned.injected {net : List Packet} (signed : HasSigned p trace s k data) :
    HasSigned p (trace ++ [e]) { s with net := net } k data :=
  signed.imp_right fun shown => shown.later e

theorem HasSigned.step (signed : HasSigned p trace s k data) (case : SystemCase c p s e t) :
    HasSigned p (trace ++ [e]) t k data := by
  rcases case.moves with ⟨dest,m,_,rfl⟩ | ⟨i,event,sends,moves⟩
  · exact signed.injected
  · exact signed.moves moves

theorem Authentic.initial (c : Cluster) : Authentic c p [] (System.start c) where
  net _ member := absurd member List.not_mem_nil
  pending _ _ _ member := absurd member List.not_mem_nil
  known _ _ _ _ found := nomatch found
  turns _ _ := ⟨le_rfl,(Nat.zero_mod _).symm⟩

theorem mem_packets_message {i view : Nat} {sends : List Outgoing} {x : Packet} (member : x ∈ c.packets i view sends) :
    x.msg ∈ sends.flatMap Outgoing.messages := by
  obtain ⟨o,sent,inside⟩ := List.mem_flatMap.mp member
  obtain ⟨j,_,rfl⟩ := List.mem_map.mp inside
  refine List.mem_flatMap.mpr ⟨o,sent,?_⟩
  cases o with
  | broadcast m => exact List.mem_singleton.mpr rfl
  | equivocating m1 m2 =>
    simp only [Outgoing.to, Outgoing.messages]
    split <;> simp

theorem Authentic.signedBy (regular : c.Regular) (authentic : Authentic c p trace s) {j : Nat}
    (honest : j ∈ c.honestNodes) {job : Job} (member : job ∈ (s.nodes j).pending) {id : Nat} {data sig : Bytes}
    (signature : (data,sig) ∈ job.signatures) (signed : signedBy p (c.config j) id data sig = some true) :
    HasSigned p trace s id data := by
  obtain ⟨listed,verifies⟩ := signedBy_true signed
  rw [regular.keys j honest, Finset.mem_range] at listed
  exact authentic.pending j honest job member _ signature id listed verifies

theorem Authentic.accepted (authentic : Authentic c p trace s) {i : Nat} (honest : i ∈ c.honestNodes)
    {prop : Proposal} {ep : ExtProposal} (member : .proposeChannel prop ∈ (s.nodes i).pending)
    (accepted : Accepted p (c.config i) (s.nodes i).state prop ep) :
    HasSigned p trace s (leaderOf c.size (s.nodes i).state.view) (marshalHeader prop.getHeader) := by
  have endorsed := checkForward_endorses accepted.decoded accepted.checked
  rw [(authentic.turns i honest).2] at endorsed
  refine authentic.pending i honest _ member (_,prop.miningProof) List.mem_cons_self _ ?_ endorsed.proposed
  exact Nat.mod_lt _ (Nat.zero_lt_of_lt ((c.mem_honestNodes i).mp honest).1)

section Step

variable (law : p.Unforgeable c.size) (regular : c.Regular) (authentic : Authentic c p trace s) {i : Nat}
  {event : NodeEvent} {sends : List Outgoing} (moves : Moves c p s e t i event sends) (honest : i ∈ c.honestNodes)
include law regular authentic moves honest

theorem Authentic.backed {entry : Bytes × Bytes}
    (source : NodeSource p (c.config i) (s.nodes i) event (t.nodes i) sends entry) :
    Backed c p (trace ++ [e]) t entry := by
  intro k inside verifies
  cases source with
  | held job _ member signature =>
    exact (authentic.pending i honest job member entry signature k inside verifies).moves moves
  | known v prop _ found signature =>
    exact ((authentic.known i honest v prop found).2 entry signature k inside verifies).moves moves
  | received m _ same signature =>
    obtain ⟨x,member,rfl⟩ := moves.receives m same
    exact (authentic.net x member entry signature k inside verifies).moves moves
  | blank data => exact absurd verifies (law.nonempty k data)
  | made data made =>
    rw [regular.id i honest] at verifies
    obtain rfl := law.signer i k data ((c.mem_honestNodes i).mp honest).1 inside verifies
    exact Or.inl (moves.sent made)

theorem Authentic.learnt {v : Nat} {prop : Proposal}
    (learnt : NodeLearnt p (c.config i) (s.nodes i) (t.nodes i) v prop) :
    HasSigned p (trace ++ [e]) t (leaderOf c.size v) (marshalHeader prop.getHeader) ∧
      ∀ entry ∈ prop.signatures, Backed c p (trace ++ [e]) t entry := by
  cases learnt with
  | known found =>
    obtain ⟨signed,backed⟩ := authentic.known i honest v prop found
    exact ⟨signed.moves moves,fun entry signature k inside verifies => (backed entry signature k inside verifies).moves moves⟩
  | forwarded ep here member accepted =>
    subst here
    refine ⟨(authentic.accepted honest member accepted).moves moves,fun entry signature k inside verifies => ?_⟩
    exact (authentic.pending i honest _ member entry signature k inside verifies).moves moves
  | proposed here leader member =>
    subst here
    refine ⟨?_,fun entry signature => ?_⟩
    · rw [← (authentic.turns i honest).2, leader, regular.id i honest]
      exact Or.inl (Or.inr ⟨_,member,rfl⟩)
    · exact authentic.backed law regular moves honest (moves.case.sources.1 _ member entry signature)

end Step

theorem Authentic.moved (law : p.Unforgeable c.size) (regular : c.Regular) (authentic : Authentic c p trace s) {i : Nat}
    {event : NodeEvent} {sends : List Outgoing} (moves : Moves c p s e t i event sends)
    (honest : i ∈ c.honestNodes ∨ ∃ m, event = .receive m) : Authentic c p (trace ++ [e]) t := by
  have kept {entry : Bytes × Bytes} (backed : Backed c p trace s entry) : Backed c p (trace ++ [e]) t entry :=
    fun k inside verifies => (backed k inside verifies).moves moves
  refine ⟨?_,?_,?_,?_⟩
  · intro x member entry signature
    rcases moves.net x member with old | new
    · exact kept (authentic.net x old entry signature)
    · have sent := mem_packets_message new
      rcases honest with honest | ⟨m,rfl⟩
      · exact authentic.backed law regular moves honest (moves.case.sources.2 _ sent entry signature)
      · rw [moves.case.receives] at sent
        contradiction
  · refine moves.each (P := fun _ node => ∀ job ∈ node.pending, ∀ entry ∈ job.signatures,
      Backed c p (trace ++ [e]) t entry) ?_ ?_
    · exact fun j honest job member entry signature => kept (authentic.pending j honest job member entry signature)
    · exact fun honest job member entry signature =>
        authentic.backed law regular moves honest (moves.case.sources.1 job member entry signature)
  · refine moves.each (P := fun _ node => ∀ v prop, node.state.proposalByviewMap.lookup v = some prop →
      HasSigned p (trace ++ [e]) t (leaderOf c.size v) (marshalHeader prop.getHeader) ∧
        ∀ entry ∈ prop.signatures, Backed c p (trace ++ [e]) t entry) ?_ ?_
    · intro j honest v prop found
      obtain ⟨signed,backed⟩ := authentic.known j honest v prop found
      exact ⟨signed.moves moves,fun entry signature => kept (backed entry signature)⟩
    · exact fun honest v prop found => authentic.learnt law regular moves honest (moves.case.learns v prop found)
  · refine moves.each (P := fun _ node => 1 ≤ node.state.view ∧ node.state.leader = leaderOf c.size node.state.view)
      authentic.turns fun honest => ?_
    exact moves.case.turn (regular.numNodes i honest) (authentic.turns i honest)

theorem Authentic.step (law : p.Unforgeable c.size) (regular : c.Regular) (authentic : Authentic c p trace s)
    (admitted : s.enabled c p e) (case : SystemCase c p s e t) : Authentic c p (trace ++ [e]) t := by
  rcases case.moves with ⟨dest,m,rfl,rfl⟩ | ⟨i,event,sends,moves⟩
  · have kept {entry : Bytes × Bytes} (backed : Backed c p trace s entry) :
        Backed c p (trace ++ [.inject dest m]) { s with net := s.net ++ [⟨dest,none,m⟩] } entry :=
      fun k inside verifies => (backed k inside verifies).injected
    refine ⟨?_,fun i honest job member entry signature => kept (authentic.pending i honest job member entry signature),
      fun i honest v prop found => ?_,authentic.turns⟩
    · intro x member entry signature
      rcases List.mem_append.mp member with old | new
      · exact kept (authentic.net x old entry signature)
      · obtain rfl := List.mem_singleton.mp new
        intro k _ verifies
        exact Or.inr ⟨dest,m,entry.2,List.mem_append_right _ (List.mem_singleton.mpr rfl),signature,verifies⟩
    · obtain ⟨signed,backed⟩ := authentic.known i honest v prop found
      exact ⟨signed.injected,fun entry signature => kept (backed entry signature)⟩
  · exact authentic.moved law regular moves (moves.honest admitted)

/-- In every run, whoever a signature verifies for has made it. -/
theorem run_authentic (law : p.Unforgeable c.size) (regular : c.Regular)
    (run : (systemMachine c p).Run (System.start c) trace s) : Authentic c p trace s :=
  run.history (Authentic.initial c) fun _ _ _ _ _ authentic admitted moved =>
    authentic.step law regular admitted (System.step_cases moved)

end Runs

end ReputationSMR

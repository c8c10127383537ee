import ReputationSMR.Round

/-! One node in a round with an honest leader. The state falls into four parts: what no
handler changes within a view, the forwards with the chain, the votes with the
certificates, and the clock of rounds. Each handler works on one or two of them, and
each part has its own invariant. -/
namespace ReputationSMR

open Wire FiniteMap

/-! ## The parts of the state -/

structure Ground where
  view : Nat
  leader : Nat
  reputationMap : Map Nat (Map Nat ℚ)
  voteMaliMap : BehaviourMap
  equiproposalMap : BehaviourMap
  withproposalMap : BehaviourMap
  maliproposalMap : BehaviourMap
  equivocatingProposalInject : Bool
  maliciousVoteInject : Bool

structure Links where
  fpropMap : Map Nat (Map Nat Proposal)
  proposalByviewMap : Map Nat Proposal
  bc : BlockChain
  proposalMap : BehaviourMap

structure Tally where
  voteMap : BehaviourMap
  receivedVotes : Map Nat (Map Nat ProtoVote)
  isCertified : Map Nat Bool
  certMap : Map Nat BlockCertificate

structure Clock where
  gcallFuncFinish : Bool
  syncChannel : Nat
  timers : Nat
  pendingCommands : List Bytes
  withholdingProposalInject : Bool

namespace SyncHS

def ground (n : SyncHS) : Ground :=
  ⟨n.view,n.leader,n.reputationMap,n.voteMaliMap,n.equiproposalMap,n.withproposalMap,n.maliproposalMap,
    n.equivocatingProposalInject,n.maliciousVoteInject⟩

def links (n : SyncHS) : Links := ⟨n.fpropMap,n.proposalByviewMap,n.bc,n.proposalMap⟩

def tally (n : SyncHS) : Tally := ⟨n.voteMap,n.receivedVotes,n.isCertified,n.certMap⟩

def clock (n : SyncHS) : Clock :=
  ⟨n.gcallFuncFinish,n.syncChannel,n.timers,n.pendingCommands,n.withholdingProposalInject⟩

end SyncHS

/-- The ground of a node that has nothing against the leader. -/
def Common.ground (C : Common) : Ground :=
  ⟨C.view,C.leader,C.reputationMap,C.voteMaliMap,C.equiproposalMap,C.withproposalMap,C.maliproposalMap,
    false,false⟩

section GroundFields

variable {n : SyncHS} {C : Common} (ground : n.ground = C.ground)

include ground

theorem ground_view : n.view = C.view := congrArg Ground.view ground

theorem ground_leader : n.leader = C.leader := congrArg Ground.leader ground

theorem ground_reputations : n.reputationMap = C.reputationMap := congrArg Ground.reputationMap ground

end GroundFields

/-- There is one token: the first start, a token in `SyncChannel` or a running timer. A
round that waits belongs to the running timer. -/
structure Clocked (z : Setting) (c : Clock) (pending : List Job) : Prop where
  tokens : (if c.gcallFuncFinish then 1 else 0) + c.syncChannel + c.timers = 1
  rounds : pending.count .round ≤ c.timers
  enough : .round ∈ pending → z.blockSize ≤ c.pendingCommands.length

/-- The flag is off in plain clusters, and in every node that has run its round. -/
def Unwithheld (z : Setting) (c : Clock) (pending : List Job) : Prop :=
  z.timerMode = .plain ∨ c.timers = 1 ∧ .round ∉ pending → c.withholdingProposalInject = false

namespace Round

variable (p : Platform) (z : Setting) (R : Round)

def recorded : BehaviourMap := SyncHS.recordLeader R.common.proposalMap R.common.view R.common.leader

def Complete (l : Links) : Prop := z.size - 1 ≤ size (row l.fpropMap R.common.view)

instance (l : Links) : Decidable (R.Complete z l) := inferInstanceAs (Decidable (_ ≤ _))

structure Linked (i : Nat) (l : Links) : Prop where
  senders : ∀ j ∈ (row l.fpropMap R.common.view).keys, j < z.size ∧ j ≠ R.common.leader
  reference : ∀ x, l.proposalByviewMap.lookup R.common.view = some x → R.Carries p x
  chain : l.bc = if i = R.common.leader ∨ R.Complete z l then R.common.bc.extend p (R.block p)
    else R.common.bc
  follows : i ≠ R.common.leader →
    l.proposalMap = if R.Complete z l then R.recorded else R.common.proposalMap
  leads : i = R.common.leader → l.proposalMap = R.common.proposalMap ∨ l.proposalMap = R.recorded
  later : ∀ v, R.common.view < v → l.fpropMap.lookup v = none ∧ l.proposalByviewMap.lookup v = none

structure Certifies (cert : BlockCertificate) : Prop where
  shape : ∃ votes view, cert = newCert votes ((R.block p).getBlockHash p) view ∧
    (votes.map ProtoVote.getVoter).Nodup ∧ (∀ v ∈ votes, v.getVoter < z.size ∧ v = R.vote p v.getVoter) ∧
    total (row R.common.reputationMap R.common.view) * (1 / 2) <
      sumAt (row R.common.reputationMap R.common.view) (votes.map ProtoVote.getVoter).toFinset

structure Tallied (t : Tally) (pending : List Job) : Prop where
  others : ∀ v, v ≠ R.common.view → t.voteMap.lookup v = R.common.voteMap.lookup v
  ones : ∀ j x, (row t.voteMap R.common.view).lookup j = some x → x = 1 ∧ j < z.size
  pooled : ∀ j v, (row t.receivedVotes R.common.view).lookup j = some v →
    j < z.size ∧ v = R.vote p j ∧ at2 t.voteMap R.common.view j = some 1
  opened : t.isCertified.lookup R.common.view = some true → R.common.view ∈ t.receivedVotes.keys
  light : t.isCertified.lookup R.common.view ≠ some true →
    sumAt (row R.common.reputationMap R.common.view) (row t.receivedVotes R.common.view).keys ≤
      total (row R.common.reputationMap R.common.view) * (1 / 2)
  latched : t.isCertified.lookup R.common.view = some true → ∃ cert, R.Certifies p z cert ∧
    (.addCert cert R.common.view ∈ pending ∨ t.certMap.lookup R.common.view = some cert)
  stored : ∀ cert, t.certMap.lookup R.common.view = some cert → R.Certifies p z cert
  headCert : ∃ cert, t.certMap.lookup R.common.bc.head = some cert ∧ HeadCert p z.size R.common cert
  later : ∀ v, R.common.view < v → t.receivedVotes.lookup v = none ∧ t.isCertified.lookup v = none ∧
    t.certMap.lookup v = none

/-- The work that a round leaves pending at node `i`. -/
def Allows (i : Nat) : Job → Prop
  | .round => i ≠ R.common.leader
  | .proposed x => i = R.common.leader ∧ x = R.prop p
  | .forward x => i ≠ R.common.leader ∧ x = R.prop p
  | .proposeChannel x => ∃ j < z.size, j ≠ R.common.leader ∧ x = R.forward p j
  | .vote ep => i ≠ R.common.leader ∧ ∃ x, R.Carries p x ∧ ep = R.ext p x
  | .voteChannel v => ∃ j < z.size, v = R.vote p j
  | .addCert cert height => height = R.common.view ∧ R.Certifies p z cert
  | _ => False

/-- A node that has taken part in the round so far. -/
structure Active (i : Nat) (node : Node) : Prop where
  ground : node.state.ground = R.common.ground
  linked : R.Linked p z i node.state.links
  tallied : R.Tallied p z node.state.tally node.pending
  clocked : Clocked z node.state.clock node.pending
  unwithheld : Unwithheld z node.state.clock node.pending
  led : i = R.common.leader → node.state.timers = 1
  jobs : ∀ job ∈ node.pending, R.Allows p z i job

/-! ## What a step does for the others -/

def HasForward (node : Node) (j : Nat) : Prop :=
  .proposeChannel (R.forward p j) ∈ node.pending ∨ j ∈ (row node.state.fpropMap R.common.view).keys

/-- The vote has earned its credit and is in the pool, unless the pool was closed. -/
def Handled (t : Tally) (j : Nat) : Prop :=
  at2 t.voteMap R.common.view j = some 1 ∧
    (t.isCertified.lookup R.common.view = some true ∨ j ∈ (row t.receivedVotes R.common.view).keys)

def HasVote (node : Node) (j : Nat) : Prop :=
  .voteChannel (R.vote p j) ∈ node.pending ∨ R.Handled node.state.tally j

def Forwarded (i : Nat) (node : Node) (sends : List Outgoing) : Prop :=
  .proposeChannel (R.forward p i) ∈ node.pending ∧ .broadcast (.prop (R.forward p i)) ∈ sends

def Voted (i : Nat) (node : Node) (sends : List Outgoing) : Prop :=
  .voteChannel (R.vote p i) ∈ node.pending ∧ .broadcast (.vote (R.vote p i)) ∈ sends

def Voting (node : Node) : Prop := ∃ x, R.Carries p x ∧ .vote (R.ext p x) ∈ node.pending

/-- A node sends the proposal if it leads, its forward if it does not, and its vote. -/
def Sends (i : Nat) (o : Outgoing) : Prop :=
  o = .broadcast (.prop (R.prop p)) ∧ i = R.common.leader ∨
    o = .broadcast (.prop (R.forward p i)) ∧ i ≠ R.common.leader ∨ o = .broadcast (.vote (R.vote p i))

/-- Nothing that a node has received or has to do is lost: it is still pending, or it has
been done and the messages that follow from it are sent. -/
structure Moves (i : Nat) (node node' : Node) (sends : List Outgoing) : Prop where
  forwards : ∀ j, R.HasForward p node j → R.HasForward p node' j
  votes : ∀ j, R.HasVote p node j → R.HasVote p node' j
  forward : .forward (R.prop p) ∈ node.pending →
    .forward (R.prop p) ∈ node'.pending ∨ R.Forwarded p i node' sends
  proposed : .proposed (R.prop p) ∈ node.pending → .proposed (R.prop p) ∈ node'.pending ∨
    node'.state.proposalMap = R.recorded ∧ .broadcast (.prop (R.prop p)) ∈ sends
  recorded : node.state.proposalMap = R.recorded → node'.state.proposalMap = R.recorded
  voting : R.Voting p node → R.Voting p node' ∨ R.Voted p i node' sends
  completed : R.Complete z node'.state.links →
    R.Complete z node.state.links ∨ R.Voting p node' ∨ R.Voted p i node' sends
  sends : ∀ o ∈ sends, R.Sends p i o

end Round

/-! ## Pending work -/

section Pending

variable {jobs : List Job} {index : Nat} {job : Job}

theorem Node.step_work {p : Platform} {cfg : NodeConfig} {node : Node} {n' : SyncHS}
    {sends : List Outgoing} {order : List Nat} (found : node.pending[index]? = some job)
    (ran : runJob p cfg node.state order job = some (n',⟨jobs,sends,[]⟩)) :
    node.step p cfg (.work index order) =
      some (⟨n',node.pending.eraseIdx index ++ jobs,node.acked⟩,sends) := by
  simp [Node.step,found,Node.apply,ran]

variable {z : Setting} {c : Clock}

theorem Clocked.work (clocked : Clocked z c pending) (index : Nat) (noRound : .round ∉ jobs) :
    Clocked z c (pending.eraseIdx index ++ jobs) := by
  refine ⟨clocked.tokens,?_,?_⟩
  · rw [List.count_append, List.count_eq_zero_of_not_mem noRound, Nat.add_zero]
    exact le_trans ((List.eraseIdx_sublist _ _).count_le _) clocked.rounds
  · intro member
    rcases of_mem_work member with old | new
    · exact clocked.enough old
    · exact absurd new noRound

theorem Unwithheld.work (unwithheld : Unwithheld z c pending) (found : pending[index]? = some J)
    (other : J ≠ .round) (jobs : List Job) : Unwithheld z c (pending.eraseIdx index ++ jobs) := by
  rintro (plain | ⟨running,noRound⟩)
  · exact unwithheld (Or.inl plain)
  · exact unwithheld (Or.inr ⟨running,fun member => noRound (mem_work found member other.symm jobs)⟩)

end Pending

namespace Round

variable {p : Platform} {z : Setting} {R : Round} {i j index : Nat} {node : Node} {n n' : SyncHS}
  {jobs : List Job} {J : Job} {t : Tally}

theorem Tallied.work {pending : List Job} (tallied : R.Tallied p z t pending)
    (found : pending[index]? = some J) (other : J.storedCert = none) (jobs : List Job) :
    R.Tallied p z t (pending.eraseIdx index ++ jobs) := by
  refine { tallied with latched := ?_ }
  intro set
  obtain ⟨cert,certifies,waiting | stored⟩ := tallied.latched set
  · refine ⟨cert,certifies,Or.inl (mem_work found waiting ?_ jobs)⟩
    rintro rfl
    cases other
  · exact ⟨cert,certifies,Or.inr stored⟩

theorem Active.work (active : R.Active p z i node) (found : node.pending[index]? = some J)
    (other : J ≠ .round) (ground : n'.ground = node.state.ground) (linked : R.Linked p z i n'.links)
    (tallied : R.Tallied p z n'.tally (node.pending.eraseIdx index ++ jobs))
    (clock : n'.clock = node.state.clock) (allowed : ∀ job ∈ jobs, R.Allows p z i job)
    (noRound : .round ∉ jobs) :
    R.Active p z i ⟨n',node.pending.eraseIdx index ++ jobs,node.acked⟩ := by
  refine ⟨ground.trans active.ground,linked,tallied,?_,?_,?_,?_⟩
  · exact clock ▸ active.clocked.work index noRound
  · exact clock ▸ active.unwithheld.work found other jobs
  · exact fun leader => (congrArg Clock.timers clock).trans (active.led leader)
  · intro job member
    exact (of_mem_work member).elim (active.jobs job) (allowed job)

/-! ## Forwards -/

theorem Linked.onChain {l : Links} (linked : R.Linked p z i l) : R.OnChain p l.bc := by
  rw [linked.chain]
  split
  next => exact Or.inr rfl
  next => exact Or.inl rfl

theorem Active.reads (active : R.Active p z i node) : R.Reads p node.state :=
  ⟨ground_view active.ground,ground_leader active.ground,ground_reputations active.ground,
    active.linked.onChain⟩

theorem complete_of_keys {l : Links} (good : R.Good p z)
    (all : ∀ j < z.size, j ≠ R.common.leader → j ∈ (row l.fpropMap R.common.view).keys) :
    R.Complete z l := by
  have within : (Finset.range z.size).erase R.common.leader ⊆ (row l.fpropMap R.common.view).keys := by
    intro j member
    obtain ⟨follower,inside⟩ := Finset.mem_erase.mp member
    exact all j (Finset.mem_range.mp inside) follower
  have card := Finset.card_le_card within
  rwa [Finset.card_erase_of_mem (Finset.mem_range.mpr good.leader_lt), Finset.card_range] at card

theorem row_addForward (view : n.view = R.common.view) (j : Nat) :
    row (n.addForward (R.forward p j)).fpropMap R.common.view =
      (row n.fpropMap R.common.view).insert j (R.forward p j) := by
  rw [← view]
  exact (row_insert _ _ _ _).trans (if_pos rfl)

theorem keys_addForward (view : n.view = R.common.view) (j : Nat) :
    (row (n.addForward (R.forward p j)).fpropMap R.common.view).keys =
      insert j (row n.fpropMap R.common.view).keys := by
  rw [row_addForward view, keys_insert]

theorem Linked.senders_addForward (linked : R.Linked p z i n.links) (view : n.view = R.common.view)
    (sender : j < z.size) (follower : j ≠ R.common.leader) :
    ∀ k ∈ (row (n.addForward (R.forward p j)).fpropMap R.common.view).keys,
      k < z.size ∧ k ≠ R.common.leader := by
  intro k member
  rw [keys_addForward view] at member
  rcases Finset.mem_insert.mp member with rfl | old
  · exact ⟨sender,follower⟩
  · exact linked.senders k old

/-- A counted forward leaves the chain alone, as it should at the leader and in a set
that is still incomplete. -/
theorem Linked.addForward (linked : R.Linked p z i n.links) (view : n.view = R.common.view)
    (sender : j < z.size) (follower : j ≠ R.common.leader) (unread : ¬R.Complete z n.links)
    (still : i = R.common.leader ∨ ¬R.Complete z (n.addForward (R.forward p j)).links) :
    R.Linked p z i (n.addForward (R.forward p j)).links := by
  refine ⟨linked.senders_addForward view sender follower,?_,?_,?_,linked.leads,?_⟩
  · intro x found
    have inserted : (n.proposalByviewMap.insert n.view (n.reference (R.forward p j))).lookup R.common.view =
        some x := found
    rw [lookup_insert, if_pos view.symm, SyncHS.reference, view] at inserted
    cases first : n.proposalByviewMap.lookup R.common.view with
    | none =>
      rw [first] at inserted
      exact Option.some.inj inserted ▸ R.carries_forward p j
    | some y =>
      rw [first] at inserted
      exact Option.some.inj inserted ▸ linked.reference y first
  · refine (show (n.addForward (R.forward p j)).links.bc = n.links.bc from rfl).trans
      (linked.chain.trans ?_)
    rcases still with leader | short
    · rw [if_pos (Or.inl leader), if_pos (Or.inl leader)]
    · simp only [unread, short]
  · intro other
    have short := still.resolve_left other
    refine (show (n.addForward (R.forward p j)).links.proposalMap = n.links.proposalMap from rfl).trans
      ((linked.follows other).trans ?_)
    rw [if_neg unread, if_neg short]
  · intro v after
    obtain ⟨noForward,noProposal⟩ := linked.later v after
    exact ⟨(lookup_insert _ _ _ _).trans ((if_neg (by omega)).trans noForward),
      (lookup_insert _ _ _ _).trans ((if_neg (by omega)).trans noProposal)⟩

theorem Linked.addForwardedBlock (linked : R.Linked p z i n.links) (ground : n.ground = R.common.ground)
    (sender : j < z.size) (follower : j ≠ R.common.leader) (unread : ¬R.Complete z n.links)
    (other : i ≠ R.common.leader) (full : R.Complete z (n.addForward (R.forward p j)).links) :
    R.Linked p z i ((n.addForward (R.forward p j)).addForwardedBlock p (R.ext p (R.forward p j))).links := by
  have view : n.view = R.common.view := ground_view ground
  have leader : n.leader = R.common.leader := ground_leader ground
  have bc : n.bc = R.common.bc := linked.chain.trans (if_neg (by simp [other,unread]))
  have records : n.proposalMap = R.common.proposalMap := (linked.follows other).trans (if_neg unread)
  have done : R.Complete z
      ((n.addForward (R.forward p j)).addForwardedBlock p (R.ext p (R.forward p j))).links := full
  refine ⟨linked.senders_addForward view sender follower,?_,?_,?_,fun same => absurd same other,?_⟩
  · intro x found
    have inserted : (Finmap.insert n.view (R.forward p j)
        (n.addForward (R.forward p j)).proposalByviewMap).lookup R.common.view = some x := found
    rw [lookup_insert, if_pos view.symm] at inserted
    exact Option.some.inj inserted ▸ R.carries_forward p j
  · rw [if_pos (Or.inr done), ← bc]
    rfl
  · intro _
    rw [if_pos done, recorded, ← view, ← leader, ← records]
    rfl
  · intro v after
    obtain ⟨noForward,noProposal⟩ := linked.later v after
    refine ⟨(lookup_insert _ _ _ _).trans ((if_neg (by omega)).trans noForward),?_⟩
    refine (lookup_insert _ _ _ _).trans ((if_neg (by rw [← view] at after; exact after.ne')).trans ?_)
    exact (lookup_insert _ _ _ _).trans ((if_neg (by omega)).trans noProposal)

/-! ## Votes -/

def credit (R : Round) (t : Tally) (j : Nat) : Tally := { t with voteMap := put2 t.voteMap R.common.view j 1 }

def join (R : Round) (t : Tally) (j : Nat) (v : ProtoVote) (latch : Map Nat Bool) : Tally :=
  { R.credit t j with
    receivedVotes := t.receivedVotes.insert R.common.view ((row t.receivedVotes R.common.view).insert j v)
    isCertified := latch }

variable {pending : List Job} {v : ProtoVote}

theorem at2_credit (t : Tally) (j k : Nat) : at2 (R.credit t j).voteMap R.common.view k =
    if k = j then some 1 else at2 t.voteMap R.common.view k := by
  rw [credit, at2_put2]
  simp

theorem credit_kept {k : Nat} (set : at2 t.voteMap R.common.view k = some 1) (j : Nat) :
    at2 (R.credit t j).voteMap R.common.view k = some 1 := by
  rw [at2_credit]
  split
  next => rfl
  next => exact set

theorem row_join (t : Tally) (j : Nat) (v : ProtoVote) (latch : Map Nat Bool) :
    row (R.join t j v latch).receivedVotes R.common.view =
      (row t.receivedVotes R.common.view).insert j v :=
  (row_insert _ _ _ _).trans (if_pos rfl)

theorem Tallied.credit (tallied : R.Tallied p z t pending) (inside : j < z.size) :
    R.Tallied p z (R.credit t j) pending := by
  refine { tallied with others := ?_, ones := ?_, pooled := ?_ }
  · intro view other
    exact (lookup_insert _ _ _ _).trans ((if_neg other).trans (tallied.others view other))
  · intro k x found
    rw [← at2_eq_row, at2_credit] at found
    split at found
    next same => exact ⟨(Option.some.inj found).symm,same ▸ inside⟩
    next => exact tallied.ones k x ((at2_eq_row _ _ _).symm.trans found)
  · intro k w found
    obtain ⟨within,voter,set⟩ := tallied.pooled k w found
    exact ⟨within,voter,credit_kept set j⟩

theorem Tallied.openPool (tallied : R.Tallied p z n.tally pending) (view : n.view = R.common.view) :
    R.Tallied p z (n.openPool n.view).tally pending := by
  have pool : row (n.openPool n.view).tally.receivedVotes R.common.view =
      row n.tally.receivedVotes R.common.view := openPool_pool n n.view R.common.view
  have latch := openPool_certified n n.view R.common.view tallied.opened
  have votes : (n.openPool n.view).tally.voteMap = n.tally.voteMap := by
    simp only [SyncHS.tally, SyncHS.openPool]
    split <;> rfl
  have certs : (n.openPool n.view).tally.certMap = n.tally.certMap := by
    simp only [SyncHS.tally, SyncHS.openPool]
    split <;> rfl
  refine ⟨votes ▸ tallied.others,votes ▸ tallied.ones,?_,?_,?_,?_,certs ▸ tallied.stored,
    certs ▸ tallied.headCert,?_⟩
  · rw [pool, votes]
    exact tallied.pooled
  · intro set
    exact (openPool_keys n n.view).symm ▸ Finset.mem_insert_of_mem (tallied.opened (latch.mp set))
  · intro unset
    rw [pool]
    exact tallied.light fun set => unset (latch.mpr set)
  · intro set
    rw [certs]
    exact tallied.latched (latch.mp set)
  · intro later after
    obtain ⟨noVotes,noLatch,noCert⟩ := tallied.later later after
    rw [certs]
    simp only [SyncHS.tally, SyncHS.openPool]
    split
    next => exact ⟨noVotes,noLatch,noCert⟩
    next =>
      exact ⟨(lookup_insert _ _ _ _).trans ((if_neg (by omega)).trans noVotes),
        (lookup_insert _ _ _ _).trans ((if_neg (by omega)).trans noLatch),noCert⟩

theorem Tallied.join {latch : Map Nat Bool} (tallied : R.Tallied p z t pending) (inside : j < z.size)
    (cast : v = R.vote p j)
    (light : latch.lookup R.common.view ≠ some true →
      sumAt (row R.common.reputationMap R.common.view) ((row t.receivedVotes R.common.view).insert j v).keys ≤
        total (row R.common.reputationMap R.common.view) * (1 / 2))
    (latched : latch.lookup R.common.view = some true →
      ∃ cert, R.Certifies p z cert ∧ .addCert cert R.common.view ∈ pending)
    (noLatch : ∀ later, R.common.view < later → latch.lookup later = none) :
    R.Tallied p z (R.join t j v latch) pending := by
  have credited := tallied.credit inside
  refine ⟨credited.others,credited.ones,?_,?_,?_,?_,tallied.stored,tallied.headCert,?_⟩
  · intro k w found
    rw [row_join, lookup_insert] at found
    split at found
    next same =>
      obtain rfl := Option.some.inj found
      subst same
      exact ⟨inside,cast,(at2_credit t k k).trans (if_pos rfl)⟩
    next => exact credited.pooled k w found
  · intro _
    simp [Round.join]
  · rw [row_join]
    exact light
  · intro set
    obtain ⟨cert,certifies,waiting⟩ := latched set
    exact ⟨cert,certifies,Or.inl waiting⟩
  · intro later after
    obtain ⟨noVotes,_,noCert⟩ := tallied.later later after
    exact ⟨(lookup_insert _ _ _ _).trans ((if_neg (by omega)).trans noVotes),noLatch later after,noCert⟩

theorem Tallied.addCert (tallied : R.Tallied p z t pending) (head : R.common.bc.head + 1 = R.common.view)
    {cert : BlockCertificate} (certifies : R.Certifies p z cert) :
    R.Tallied p z { t with certMap := t.certMap.insert R.common.view cert } pending := by
  refine { tallied with latched := ?_, stored := ?_, headCert := ?_, later := ?_ }
  · intro _
    exact ⟨cert,certifies,Or.inr ((lookup_insert _ _ _ _).trans (if_pos rfl))⟩
  · intro other found
    rw [lookup_insert, if_pos rfl] at found
    exact Option.some.inj found ▸ certifies
  · obtain ⟨old,found,headCert⟩ := tallied.headCert
    exact ⟨old,(lookup_insert _ _ _ _).trans ((if_neg (by omega)).trans found),headCert⟩
  · intro later after
    obtain ⟨noVotes,noLatch,noCert⟩ := tallied.later later after
    exact ⟨noVotes,noLatch,(lookup_insert _ _ _ _).trans ((if_neg (by omega)).trans noCert)⟩

theorem Tallied.append (tallied : R.Tallied p z t pending) (jobs : List Job) :
    R.Tallied p z t (pending ++ jobs) := by
  refine { tallied with latched := ?_ }
  intro set
  obtain ⟨cert,certifies,place⟩ := tallied.latched set
  exact ⟨cert,certifies,place.imp_left (List.mem_append_left jobs)⟩

theorem Handled.credit {k : Nat} (handled : R.Handled t k) (j : Nat) : R.Handled (R.credit t j) k :=
  ⟨credit_kept handled.1 j,handled.2⟩

theorem Handled.join {k : Nat} {latch : Map Nat Bool} (handled : R.Handled t k)
    (opened : t.isCertified.lookup R.common.view ≠ some true) (j : Nat) (v : ProtoVote) :
    R.Handled (R.join t j v latch) k := by
  refine ⟨credit_kept handled.1 j,Or.inr ?_⟩
  rw [row_join, keys_insert]
  exact Finset.mem_insert_of_mem (handled.2.resolve_left opened)

theorem handled_join (t : Tally) (j : Nat) (v : ProtoVote) (latch : Map Nat Bool) :
    R.Handled (R.join t j v latch) j := by
  refine ⟨(at2_credit t j j).trans (if_pos rfl),Or.inr ?_⟩
  rw [row_join, keys_insert]
  exact Finset.mem_insert_self _ _

structure CountsVote (p : Platform) (z : Setting) (R : Round) (j : Nat) (n : SyncHS) (pending : List Job)
    (n' : SyncHS) (jobs : List Job) : Prop where
  ground : n'.ground = n.ground
  links : n'.links = n.links
  clock : n'.clock = n.clock
  tallied : R.Tallied p z n'.tally (pending ++ jobs)
  handled : R.Handled n'.tally j
  kept : ∀ k, R.Handled n.tally k → R.Handled n'.tally k
  jobs : ∀ job ∈ jobs, ∃ cert, job = .addCert cert R.common.view ∧ R.Certifies p z cert

theorem openPool_parts (n : SyncHS) (height : Nat) : (n.openPool height).ground = n.ground ∧
    (n.openPool height).links = n.links ∧ (n.openPool height).clock = n.clock :=
  ⟨openPool_unread SyncHS.ground n height fun _ _ => rfl,openPool_unread SyncHS.links n height fun _ _ => rfl,
    openPool_unread SyncHS.clock n height fun _ _ => rfl⟩

theorem Handled.openPool {k : Nat} (tallied : R.Tallied p z n.tally pending)
    (handled : R.Handled n.tally k) : R.Handled (n.openPool n.view).tally k := by
  have pool : row (n.openPool n.view).tally.receivedVotes R.common.view =
      row n.tally.receivedVotes R.common.view := openPool_pool n n.view R.common.view
  have latch := openPool_certified n n.view R.common.view tallied.opened
  have votes : (n.openPool n.view).tally.voteMap = n.tally.voteMap := by
    simp only [SyncHS.tally, SyncHS.openPool]
    split <;> rfl
  exact ⟨votes ▸ handled.1,handled.2.imp latch.mpr fun member => pool.symm ▸ member⟩

theorem certifies_pool (laws : p.Laws) (order : List Nat) {pool : Map Nat ProtoVote}
    (pooled : ∀ k v, pool.lookup k = some v → k < z.size ∧ v = R.vote p k)
    (heavy : total (row R.common.reputationMap R.common.view) * (1 / 2) <
      sumAt (row R.common.reputationMap R.common.view) pool.keys) :
    R.Certifies p z (newCert (poolVotes pool order) (p.toHash (R.voteData p).blockHash) (R.voteData p).view) := by
  have voters := poolVotes_voters pool order fun k v found => congrArg ProtoVote.getVoter (pooled k v found).2
  obtain ⟨distinct,whole⟩ := traversal_enumerates pool order
  refine ⟨_,_,congrArg (newCert _ · _) (laws.copies _),voters ▸ distinct,?_,?_⟩
  · intro v member
    obtain ⟨k,_,found⟩ := List.mem_filterMap.mp member
    obtain ⟨inside,rfl⟩ := pooled k v found
    exact ⟨inside,rfl⟩
  · rw [voters, whole]
    exact heavy

theorem poolWith_vote (ground : n.ground = R.common.ground) (j : Nat) :
    n.poolWith (R.vote p j) = (row n.receivedVotes R.common.view).insert j (R.vote p j) := by
  rw [SyncHS.poolWith, SyncHS.pool, ground_view ground]
  rfl

theorem weight_vote (ground : n.ground = R.common.ground) (j : Nat) :
    n.weight (n.poolWith (R.vote p j)).keys = sumAt (row R.common.reputationMap R.common.view)
      ((row n.receivedVotes R.common.view).insert j (R.vote p j)).keys := by
  rw [SyncHS.weight, ground_reputations ground, ground_view ground, poolWith_vote ground]

theorem benchmark_round (ground : n.ground = R.common.ground) :
    n.getCertBenchMark n.view = total (row R.common.reputationMap R.common.view) * (1 / 2) := by
  rw [SyncHS.getCertBenchMark, ground_reputations ground, ground_view ground]

theorem late_counts (ground : n.ground = R.common.ground) (tallied : R.Tallied p z n.tally pending)
    (inside : j < z.size) (already : n.certified n.view) :
    CountsVote p z R j n pending (n.credit (R.vote p j)) [] := by
  have view : n.view = R.common.view := ground_view ground
  have same : (n.credit (R.vote p j)).tally = R.credit n.tally j := by
    simp only [SyncHS.credit, SyncHS.tally, Round.credit, view, show (R.vote p j).getVoter = j from rfl]
  rw [SyncHS.certified, view] at already
  refine ⟨rfl,rfl,rfl,?_,?_,?_,by simp⟩
  · rw [same]
    exact (tallied.credit inside).append []
  · rw [same]
    exact ⟨(at2_credit _ j j).trans (if_pos rfl),Or.inl already⟩
  · intro k before
    rw [same]
    exact before.credit j

theorem pooled_counts (ground : n.ground = R.common.ground) (tallied : R.Tallied p z n.tally pending)
    (inside : j < z.size) (uncertified : ¬n.certified n.view)
    (low : n.weight (n.poolWith (R.vote p j)).keys ≤ n.getCertBenchMark n.view) :
    CountsVote p z R j n pending ((n.credit (R.vote p j)).setPool (n.poolWith (R.vote p j))) [] := by
  have view : n.view = R.common.view := ground_view ground
  have same : ((n.credit (R.vote p j)).setPool (n.poolWith (R.vote p j))).tally =
      R.join n.tally j (R.vote p j) n.isCertified := by
    rw [poolWith_vote ground]
    simp only [SyncHS.credit, SyncHS.setPool, SyncHS.tally, Round.join, Round.credit, view,
      show (R.vote p j).getVoter = j from rfl]
  rw [SyncHS.certified, view] at uncertified
  rw [benchmark_round ground, weight_vote ground] at low
  refine ⟨rfl,rfl,rfl,?_,same ▸ handled_join _ _ _ _,?_,by simp⟩
  · rw [same]
    refine (tallied.join inside rfl (fun _ => low) (fun set => absurd set uncertified) ?_).append []
    exact fun later after => (tallied.later later after).2.1
  · intro k before
    rw [same]
    exact before.join uncertified j _

theorem certifying_counts (laws : p.Laws) (order : List Nat) (ground : n.ground = R.common.ground)
    (tallied : R.Tallied p z n.tally pending) (inside : j < z.size) (uncertified : ¬n.certified n.view)
    (high : n.getCertBenchMark n.view < n.weight (n.poolWith (R.vote p j)).keys) :
    CountsVote p z R j n pending ((n.credit (R.vote p j)).setPool (n.poolWith (R.vote p j))).certify
      [.addCert (n.certWith p (R.vote p j) (R.voteData p) order) R.common.view] := by
  have view : n.view = R.common.view := ground_view ground
  have same : ((n.credit (R.vote p j)).setPool (n.poolWith (R.vote p j))).certify.tally =
      R.join n.tally j (R.vote p j) (n.isCertified.insert R.common.view true) := by
    rw [poolWith_vote ground]
    simp only [SyncHS.credit, SyncHS.setPool, SyncHS.certify, SyncHS.tally, Round.join, Round.credit, view,
      show (R.vote p j).getVoter = j from rfl]
  rw [SyncHS.certified, view] at uncertified
  rw [benchmark_round ground, weight_vote ground] at high
  have certifies : R.Certifies p z (n.certWith p (R.vote p j) (R.voteData p) order) := by
    rw [SyncHS.certWith, poolWith_vote ground]
    refine certifies_pool laws order ?_ high
    intro k w found
    rw [lookup_insert] at found
    split at found
    next here =>
      obtain rfl := Option.some.inj found
      exact ⟨here ▸ inside,here ▸ rfl⟩
    next =>
      obtain ⟨within,own,_⟩ := tallied.pooled k w found
      exact ⟨within,own⟩
  refine ⟨rfl,rfl,rfl,?_,same ▸ handled_join _ _ _ _,?_,?_⟩
  · rw [same]
    refine (tallied.append _).join inside rfl (fun unset => ?_) (fun _ => ?_) ?_
    · exact absurd ((lookup_insert _ _ _ _).trans (if_pos rfl)) unset
    · exact ⟨_,certifies,List.mem_append_right _ List.mem_cons_self⟩
    · intro later after
      exact (lookup_insert _ _ _ _).trans ((if_neg (by omega)).trans (tallied.later later after).2.1)
  · intro k before
    rw [same]
    exact before.join uncertified j _
  · intro job member
    exact ⟨_,List.mem_singleton.mp member,certifies⟩

theorem counted_counts (laws : p.Laws) {order : List Nat} {effect : Effect}
    (ground : n.ground = R.common.ground) (tallied : R.Tallied p z n.tally pending) (inside : j < z.size)
    (counted : Counted p n (R.vote p j) (R.voteData p) order n' effect) :
    ∃ jobs, effect = ⟨jobs,[],[]⟩ ∧ CountsVote p z R j n pending n' jobs := by
  cases counted with
  | late already => exact ⟨[],rfl,late_counts ground tallied inside already⟩
  | pooled uncertified _ low => exact ⟨[],rfl,pooled_counts ground tallied inside uncertified low⟩
  | certifies uncertified _ high =>
    refine ⟨_,?_,certifying_counts laws order ground tallied inside uncertified high⟩
    rw [ground_view ground]

theorem voteHandler_counts (laws : p.Laws) (good : R.Good p z) (order : List Nat)
    (ground : n.ground = R.common.ground) (tallied : R.Tallied p z n.tally pending) (inside : j < z.size) :
    ∃ n' jobs, voteHandler p (z.config i) n (R.vote p j) order = some (n',⟨jobs,[],[]⟩) ∧
      CountsVote p z R j n pending n' jobs := by
  have view : n.view = R.common.view := ground_view ground
  have voter : (R.vote p j).getVoter = j := rfl
  have known : (R.vote p j).getVoter ∈ (z.config i).nodeKeyMap := by
    simpa [voter,Setting.config,NodeConfig.complete] using inside
  have listed : ∀ k ∈ (n.poolWith (R.vote p j)).keys, ((row n.reputationMap n.view).lookup k).isSome := by
    intro k member
    have within : k < z.size := by
      rw [SyncHS.poolWith, SyncHS.pool, view, keys_insert] at member
      rcases Finset.mem_insert.mp member with rfl | old
      · exact inside
      · obtain ⟨w,found⟩ := (mem_keys_iff _ _).mp old
        exact (tallied.pooled k w found).1
    rw [view, ground_reputations ground]
    have entry := (good.common.listed k).mpr within
    rwa [Finmap.mem_keys, ← Finmap.lookup_isSome] at entry
  have total : (voteHandler p (z.config i) n (R.vote p j) order).isSome :=
    voteHandler_total rfl rfl (p.copies_hash _) known listed
  obtain ⟨⟨n',effect⟩,ran⟩ := Option.isSome_iff_exists.mp total
  obtain ⟨sameGround,sameLinks,sameClock⟩ := openPool_parts n n.view
  have opened := tallied.openPool view
  cases voteHandler_cases ran with
  | foreign d data other =>
    obtain rfl := Option.some.inj data
    exact absurd (ground_leader ground).symm other
  | dropped d data owner reason =>
    refine ⟨_,[],ran,sameGround,sameLinks,sameClock,opened.append [],?_,
      fun k before => before.openPool tallied,by simp⟩
    rcases reason with twice | ⟨_,invalid⟩
    · rw [voter, SyncHS.pool, view, ← Finmap.mem_keys] at twice
      obtain ⟨w,found⟩ := (mem_keys_iff _ _).mp twice
      exact Handled.openPool tallied ⟨(tallied.pooled j w found).2.2,Or.inr twice⟩
    · have valid : isVoteValid p (z.config i) (R.vote p j) = some true := by
        rw [isVoteValid, voter, Setting.key inside]
        exact congrArg some (decide_eq_true (laws.signed _ _))
      rw [valid] at invalid
      contradiction
  | counted d n' effect joins counted =>
    obtain rfl := Option.some.inj joins.data
    obtain ⟨jobs,rfl,counts⟩ := counted_counts laws (sameGround.trans ground) opened inside counted
    exact ⟨n',jobs,ran,counts.ground.trans sameGround,counts.links.trans sameLinks,
      counts.clock.trans sameClock,counts.tallied,counts.handled,
      fun k before => counts.kept k (before.openPool tallied),counts.jobs⟩

end Round

end ReputationSMR

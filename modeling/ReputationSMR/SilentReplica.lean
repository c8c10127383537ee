import ReputationSMR.System

/-! What one replica that never sends anything does to the others. A node votes when it
has forwards from as many senders as it has peers; the leader does not forward, so
without the silent replica one sender is always missing. Nobody votes in the first view,
no certificate is stored for it, and no callback leaves it. -/
namespace ReputationSMR

open Wire FiniteMap

/-- No message of a Byzantine node: those nodes are silent. -/
def Unassisted : SystemEvent → Prop
  | .inject _ _ => False
  | _ => True

instance (e : SystemEvent) : Decidable (Unassisted e) :=
  match e with
  | .inject _ _ => isFalse id
  | .connect _ | .command _ _ | .deliver _ | .work _ _ _ | .callback _ => isTrue trivial

/-! ## The first view -/

/-- The honest nodes that may forward a proposal of node zero. -/
def Cluster.followers (c : Cluster) : Finset Nat := c.honestNodes.toFinset.erase 0

/-- The proposal carries the block that the leader of the first view has proposed. -/
structure Proposal.Carries (x : Proposal) (B : Option ProtoBlock) : Prop where
  block : x.block = B
  proposed : B.isSome

/-- A message that can be in flight: the proposal of the leader, a forward of it, a proposal
of a node that is not the leader, or evidence of one. -/
def SyncHSMsg.Early (F : Finset Nat) (B : Option ProtoBlock) (dest : Nat) : SyncHSMsg → Prop
  | .prop x => (x.forwardSender = 0 ∧ x.miner ≠ 0) ∨
      (x.Carries B ∧ (x.forwardSender ∈ F ∨ x.forwardSender = 0 ∧ dest ≠ 0))
  | .mpevidence _ => True
  | _ => False

def Job.Early (F : Finset Nat) (B : Option ProtoBlock) (i : Nat) : Job → Prop
  | .forward x => i ≠ 0 ∧ x.Carries B
  | .proposeChannel x => x.forwardSender ∈ F ∧ x.Carries B
  | .proposed x => i = 0 ∧ x.forwardSender = 0 ∧ x.Carries B
  | .maliPropseChannel _ | .maliProEvidenceChannel _ | .round => True
  | _ => False

/-- A node that is in the first view and has nothing that could take it out of it. -/
structure Stalled (F : Finset Nat) (B : Option ProtoBlock) (i : Nat) (node : Node) : Prop where
  view : node.state.view = 1
  leader : node.state.leader = 0
  unflagged : node.state.equivocatingProposalInject = false
  unwithheld : node.state.withholdingProposalInject = false
  certs : ∀ v, v ≠ 0 → node.state.certMap.lookup v = none
  firsts : ∀ x, node.state.proposalByviewMap.lookup 1 = some x → x.Carries B
  senders : (row node.state.fpropMap 1).keys ⊆ F
  votes : node.state.voteMap = ∅
  unopened : i = 0 → node.state.bc.head = 0 → B = none
  acked : node.acked = []
  jobs : ∀ job ∈ node.pending, job.Early F B i

def SyncHS.early (n : SyncHS) := (n.view,n.leader,n.equivocatingProposalInject,n.withholdingProposalInject,
  n.certMap,n.proposalByviewMap,n.fpropMap,n.voteMap,n.bc.head)

section Nodes

variable {p : Platform} {cfg : NodeConfig} {F : Finset Nat} {B : Option ProtoBlock} {i : Nat} {node node' : Node}
  {n n' : SyncHS} {effect : Effect}

theorem Stalled.keeps (stalled : Stalled F B i node) (same : node'.state.early = node.state.early)
    (acked : node'.acked = node.acked) (jobs : ∀ job ∈ node'.pending, job.Early F B i) : Stalled F B i node' := by
  simp only [SyncHS.early, Prod.mk.injEq] at same
  obtain ⟨view,leader,flag,withheld,certs,firsts,forwards,votes,head⟩ := same
  exact ⟨view.trans stalled.view,leader.trans stalled.leader,flag.trans stalled.unflagged,
    withheld.trans stalled.unwithheld,certs ▸ stalled.certs,firsts ▸ stalled.firsts,forwards ▸ stalled.senders,
    votes.trans stalled.votes,head ▸ stalled.unopened,acked.trans stalled.acked,jobs⟩

theorem Proposal.Carries.absurd {x : Proposal} (nothing : x.Carries none) : False := Bool.false_ne_true nothing.proposed

theorem SyncHSMsg.Early.opens {m : SyncHSMsg} {dest : Nat} (early : m.Early F none dest) (B : Option ProtoBlock) :
    m.Early F B dest := by
  cases m with
  | prop x => exact early.imp_right fun own => own.1.absurd.elim
  | mpevidence e => exact trivial
  | _ => exact early

theorem Job.Early.opens {job : Job} (early : job.Early F none i) (B : Option ProtoBlock) : job.Early F B i := by
  cases job with
  | forward x => exact early.2.absurd.elim
  | proposeChannel x => exact early.2.absurd.elim
  | proposed x => exact early.2.2.absurd.elim
  | _ => exact early

theorem Stalled.opens (stalled : Stalled F none i node) (follower : i ≠ 0) (B : Option ProtoBlock) :
    Stalled F B i node :=
  ⟨stalled.view,stalled.leader,stalled.unflagged,stalled.unwithheld,stalled.certs,
    fun x found => (stalled.firsts x found).absurd.elim,stalled.senders,stalled.votes,
    fun leads => absurd leads follower,stalled.acked,fun job member => (stalled.jobs job member).opens B⟩

/-! ## Messages -/

theorem Stalled.receives (stalled : Stalled F B i node) (noLeader : 0 ∉ F) {m : SyncHSMsg} (early : m.Early F B i) :
    ∀ job ∈ protocol cfg node.state m, job.Early F B i := by
  intro job member
  cases m with
  | prop x =>
    simp only [protocol, stalled.leader] at member
    split at member
    next direct =>
      split at member
      next own =>
        obtain rfl := List.mem_singleton.mp member
        rcases early with intruder | ⟨carries,forwarded | leader⟩
        · exact absurd own intruder.2
        · exact absurd (direct ▸ forwarded) noLeader
        · exact ⟨leader.2,carries⟩
      next =>
        obtain rfl := List.mem_singleton.mp member
        exact trivial
    next forwarded =>
      obtain rfl := List.mem_singleton.mp member
      rcases early with intruder | ⟨carries,sender | leader⟩
      · exact absurd intruder.1 forwarded
      · exact ⟨sender,carries⟩
      · exact absurd leader.1 forwarded
  | mpevidence e =>
    simp only [protocol] at member
    split at member
    next =>
      obtain rfl := List.mem_singleton.mp member
      exact trivial
    next => simp at member
  | _ => exact early.elim

/-! ## Forwards -/

theorem Proposal.Carries.extBlock {x y : Proposal} {ep ep2 : ExtProposal} (first : x.Carries B) (second : y.Carries B)
    (decoded : ExtProposal.fromProto p x = some ep) (decoded2 : ExtProposal.fromProto p y = some ep2) :
    ep2.extBlock = ep.extBlock := by
  obtain ⟨block,_,found,_,_,rfl⟩ := ExtProposal.fromProto_eq_some.mp decoded
  obtain ⟨block2,_,found2,_,_,rfl⟩ := ExtProposal.fromProto_eq_some.mp decoded2
  obtain rfl : block2 = block := Option.some.inj (found2.symm.trans (second.block.trans (first.block.symm.trans found)))
  rfl

theorem Stalled.reference (stalled : Stalled F B i node) {x : Proposal} (carries : x.Carries B) :
    (node.state.reference x).Carries B := by
  rw [SyncHS.reference, stalled.view]
  cases known : node.state.proposalByviewMap.lookup 1 with
  | none => exact carries
  | some y => exact stalled.firsts y known

/-- The handler of forwards counts a forward or drops it: the set stays incomplete, and what it
compares are forwards of one block. -/
theorem Stalled.forwards (stalled : Stalled F B i node) (few : F.card < cfg.pMap.card) {x : Proposal}
    (sender : x.forwardSender ∈ F) (carries : x.Carries B)
    (step : ForwardStep p cfg node.state x n' effect) :
    effect = .none ∧ (n' = node.state ∨ n' = node.state.addForward x) := by
  have short : size (node.state.forwardsWith x) < cfg.pMap.card := by
    refine lt_of_le_of_lt (Finset.card_le_card ?_) few
    rw [SyncHS.forwardsWith, keys_insert, stalled.view]
    exact Finset.insert_subset sender stalled.senders
  cases step with
  | flagged _ | refused _ _ _ _ => exact ⟨rfl,Or.inl rfl⟩
  | counted _ _ _ _ => exact ⟨rfl,Or.inr rfl⟩
  | leads _ _ _ full _ | follows _ _ _ full _ => exact absurd short (Nat.not_lt.mpr full)
  | conflict ep ep2 accepted decoded differ =>
    have same := carries.extBlock (stalled.reference carries) accepted.decoded decoded
    exact absurd (congrArg (ExtBlock.getBlockHash p) same) differ

theorem Stalled.addForward (stalled : Stalled F B i node) {x : Proposal} (sender : x.forwardSender ∈ F)
    (carries : x.Carries B) (pending : List Job) (jobs : ∀ job ∈ pending, job.Early F B i) :
    Stalled F B i ⟨node.state.addForward x,pending,node.acked⟩ := by
  refine ⟨stalled.view,stalled.leader,rfl,stalled.unwithheld,stalled.certs,?_,?_,stalled.votes,stalled.unopened,
    stalled.acked,jobs⟩
  · intro y found
    simp only [SyncHS.addForward, SyncHS.remember, stalled.view, lookup_insert, if_true] at found
    obtain rfl := Option.some.inj found
    exact stalled.reference carries
  · simp only [SyncHS.addForward, stalled.view, row_insert, if_true, SyncHS.forwardsWith, keys_insert]
    exact Finset.insert_subset sender stalled.senders

/-! ## Rounds -/

theorem startRound_first (leader : n.leader = 0) (unwithheld : n.withholdingProposalInject = false) (own : cfg.id = 0) :
    startRound p cfg n = propose p cfg n := by
  have leads : n.leader = cfg.id := leader.trans own.symm
  have same : { n with withholdingProposalInject := false } = n := by rw [← unwithheld]
  cases mode : cfg.timerMode with
  | withhold => simp only [startRound, mode, if_neg (show ¬n.leader % 2 ≠ 0 by simp [leader]), if_pos leads, same]
  | equivocation => simp only [startRound, mode, if_neg (show ¬cfg.id % 2 ≠ 0 by simp [own]), if_pos leads]
  | plain | maliciousProposal | maliciousVote => simp only [startRound, mode, if_pos leads]

/-- The first proposal of node zero; a second one would need a certificate of the first. -/
theorem Stalled.proposes (stalled : Stalled F B 0 node) (own : cfg.id = 0)
    (ran : startRound p cfg node.state = some (n',effect)) {pending : List Job} (jobs : ∀ job ∈ pending, job.Early F B 0) :
    ∃ B', (B = none ∨ B' = B) ∧ effect.sends = [] ∧ Stalled F B' 0 ⟨n',pending ++ effect.jobs,node.acked⟩ := by
  rw [startRound_first stalled.leader stalled.unwithheld own] at ran
  simp only [propose, SyncHS.getCertForBlockIndex] at ran
  have idle (same : some (node.state,Effect.none) = some (n',effect)) :
      ∃ B', (B = none ∨ B' = B) ∧ effect.sends = [] ∧ Stalled F B' 0 ⟨n',pending ++ effect.jobs,node.acked⟩ := by
    obtain ⟨rfl,rfl⟩ := Prod.mk.inj (Option.some.inj same)
    exact ⟨B,Or.inr rfl,rfl,stalled.keeps rfl rfl (by simpa [Effect.none] using jobs)⟩
  split at ran
  next => exact idle ran
  next cert found =>
    split at ran
    next => exact idle ran
    next cmds rest taken =>
      have genesis : node.state.bc.head = 0 := by
        by_contra positive
        exact absurd found (by simp [stalled.certs _ positive])
      obtain rfl := stalled.unopened rfl genesis
      rw [SyncHS.getCmdsIfSufficient] at taken
      split at taken
      next => contradiction
      next =>
        obtain ⟨rfl,rfl⟩ := Prod.mk.inj (Option.some.inj taken)
        obtain ⟨rfl,rfl⟩ := Prod.mk.inj (Option.some.inj ran)
        refine ⟨(node.state.candidate p cfg cert).block,Or.inl rfl,rfl,stalled.view,stalled.leader,stalled.unflagged,
          stalled.unwithheld,stalled.certs,?_,stalled.senders,stalled.votes,fun _ zero => absurd zero (Nat.succ_ne_zero _),stalled.acked,?_⟩
        · intro x stored
          simp only [SyncHS.addProposaltoViewMap, SyncHS.appendBlock, stalled.view, lookup_insert, if_true] at stored
          obtain rfl := Option.some.inj stored
          exact ⟨rfl,rfl⟩
        · intro job member
          rcases List.mem_append.mp member with old | new
          · exact (jobs job old).opens _
          · obtain rfl := List.mem_singleton.mp new
            exact ⟨rfl,stalled.leader,rfl,rfl⟩

theorem Stalled.follows (stalled : Stalled F B i node) (id : cfg.id = i) (follower : i ≠ 0)
    (ran : startRound p cfg node.state = some (n',effect)) {pending : List Job} (jobs : ∀ job ∈ pending, job.Early F B i) :
    Stalled F B i ⟨n',pending ++ effect.jobs,node.acked⟩ ∧
      ∀ o ∈ effect.sends, ∀ dest, (o.to dest).Early F B dest := by
  have even : node.state.leader % 2 = 0 := by rw [stalled.leader]
  have other : node.state.leader ≠ cfg.id := by rw [stalled.leader, id]; exact follower.symm
  have idle {m : SyncHS} (same : some (m,Effect.none) = some (n',effect)) (early : m.early = node.state.early) :
      Stalled F B i ⟨n',pending ++ effect.jobs,node.acked⟩ ∧
        ∀ o ∈ effect.sends, ∀ dest, (o.to dest).Early F B dest := by
    obtain ⟨rfl,rfl⟩ := Prod.mk.inj (Option.some.inj same)
    exact ⟨stalled.keeps early rfl (by simpa [Effect.none] using jobs),by simp [Effect.none]⟩
  simp only [startRound, if_neg other] at ran
  split at ran
  next => exact idle ran rfl
  next =>
    rw [if_neg (by simp [even])] at ran
    exact idle ran (by simp [SyncHS.early,stalled.unwithheld])
  next => exact idle ran rfl
  next =>
    split at ran
    next =>
      simp only [maliciousproposalpropose, SyncHS.getCmdsIfSufficient] at ran
      split at ran
      next => exact idle ran rfl
      next =>
        split at ran
        next => exact idle ran rfl
        next cmds rest taken =>
          split at taken
          next => contradiction
          next =>
            obtain ⟨rfl,rfl⟩ := Prod.mk.inj (Option.some.inj taken)
            obtain ⟨rfl,rfl⟩ := Prod.mk.inj (Option.some.inj ran)
            refine ⟨stalled.keeps rfl rfl ?_,?_⟩
            · intro job member
              rcases List.mem_append.mp member with old | new
              · exact jobs job old
              · obtain rfl := List.mem_singleton.mp new
                exact trivial
            · intro o member dest
              obtain rfl := List.mem_singleton.mp member
              exact Or.inl ⟨stalled.leader,fun own => follower (id.symm.trans own)⟩
    next => exact idle ran rfl
  next =>
    split at ran
    next => exact idle ran rfl
    next => exact idle ran rfl

/-! ## Steps -/

/-- The block of the first proposal is fixed once it is there, and only node zero makes one. -/
structure Opens (B B' : Option ProtoBlock) (i : Nat) : Prop where
  fixed : B = none ∨ B' = B
  leader : i ≠ 0 → B' = B

theorem Opens.refl (B : Option ProtoBlock) (i : Nat) : Opens B B i := ⟨Or.inr rfl,fun _ => rfl⟩

theorem Stalled.job (stalled : Stalled F B i node) (id : cfg.id = i) (inside : i ≠ 0 → i ∈ F)
    (few : B.isSome → F.card < cfg.pMap.card) {order : List Nat} {job : Job} (early : job.Early F B i)
    (ran : runJob p cfg node.state order job = some (n',effect)) {pending : List Job}
    (jobs : ∀ job ∈ pending, job.Early F B i) :
    ∃ B', Opens B B' i ∧ Stalled F B' i ⟨n',pending ++ effect.jobs,node.acked⟩ ∧
      ∀ o ∈ effect.sends, ∀ dest, dest ≠ i → (o.to dest).Early F B' dest := by
  have goesOn (same : n'.early = node.state.early) (new : ∀ job ∈ effect.jobs, job.Early F B i)
      (sends : ∀ o ∈ effect.sends, ∀ dest, dest ≠ i → (o.to dest).Early F B dest) :
      ∃ B', Opens B B' i ∧ Stalled F B' i ⟨n',pending ++ effect.jobs,node.acked⟩ ∧
        ∀ o ∈ effect.sends, ∀ dest, dest ≠ i → (o.to dest).Early F B' dest :=
    ⟨B,.refl B i,stalled.keeps same rfl fun job member => (List.mem_append.mp member).elim (jobs job) (new job),sends⟩
  cases job with
  | round =>
    by_cases leads : i = 0
    · subst leads
      obtain ⟨B',fixed,silent,moved⟩ := stalled.proposes id ran jobs
      exact ⟨B',⟨fixed,fun other => absurd rfl other⟩,moved,by simp [silent]⟩
    · obtain ⟨moved,sends⟩ := stalled.follows id leads ran jobs
      exact ⟨B,.refl B i,moved,fun o member dest _ => sends o member dest⟩
  | forward x =>
    obtain ⟨follower,carries⟩ := early
    cases runJob_cases ran with
    | forwardRefused _ => exact goesOn rfl (by simp [Effect.none]) (by simp [Effect.none])
    | forwarded _ _ _ _ =>
      have sender : (signForward p cfg x).forwardSender ∈ F := by
        rw [show (signForward p cfg x).forwardSender = i from id]
        exact inside follower
      refine goesOn rfl ?_ ?_
      · intro job member
        obtain rfl := List.mem_singleton.mp member
        exact ⟨sender,carries.block,carries.proposed⟩
      · intro o member dest _
        obtain rfl := List.mem_singleton.mp member
        exact Or.inr ⟨⟨carries.block,carries.proposed⟩,Or.inl sender⟩
  | proposeChannel x =>
    obtain ⟨sender,carries⟩ := early
    cases runJob_cases ran with
    | read _ _ _ step =>
      obtain ⟨rfl,rfl | rfl⟩ := stalled.forwards (few carries.proposed) sender carries step
      · exact goesOn rfl (by simp [Effect.none]) (by simp [Effect.none])
      · exact ⟨B,.refl B i,stalled.addForward sender carries _ (by simpa [Effect.none] using jobs),by simp [Effect.none]⟩
  | proposed x =>
    obtain ⟨rfl,leader,carries⟩ := early
    cases runJob_cases ran with
    | announced _ =>
      refine goesOn rfl (by simp) ?_
      intro o member dest other
      obtain rfl := List.mem_singleton.mp member
      exact Or.inr ⟨carries,Or.inr ⟨leader,other⟩⟩
  | maliPropseChannel x =>
    cases runJob_cases ran with
    | intruderSeen _ _ => exact goesOn rfl (by simp [Effect.none]) (by simp [Effect.none])
    | intruderReported _ _ => exact goesOn rfl (by simp [Job.Early]) (by simp [Outgoing.to,SyncHSMsg.Early])
  | maliProEvidenceChannel e =>
    cases runJob_cases ran with
    | maliProIgnored _ _ | maliProRecorded _ _ _ _ _ =>
      exact goesOn rfl (by simp [Effect.none]) (by simp [Effect.none])
  | _ => exact early.elim

theorem Stalled.step (stalled : Stalled F B i node) (id : cfg.id = i) (noLeader : 0 ∉ F) (inside : i ≠ 0 → i ∈ F)
    (few : B.isSome → F.card < cfg.pMap.card) {event : NodeEvent} {sends : List Outgoing}
    (stepped : node.step p cfg event = some (node',sends)) (received : ∀ m, event = .receive m → m.Early F B i) :
    ∃ B', Opens B B' i ∧ Stalled F B' i node' ∧
      ∀ o ∈ sends, ∀ dest, dest ≠ i → (o.to dest).Early F B' dest := by
  cases event with
  | connect =>
    obtain ⟨rfl,rfl⟩ := Prod.mk.inj (Option.some.inj stepped)
    exact ⟨B,.refl B i,stalled.keeps rfl rfl stalled.jobs,by simp⟩
  | receive m =>
    obtain ⟨rfl,rfl⟩ := Prod.mk.inj (Option.some.inj stepped)
    refine ⟨B,.refl B i,stalled.keeps rfl rfl ?_,by simp⟩
    intro job member
    exact (List.mem_append.mp member).elim (stalled.jobs job) (stalled.receives noLeader (received m rfl) job)
  | command cmd =>
    cases node_cases stepped with
    | commanded _ n' jobs case =>
      cases case with
      | pooled _ _ _ _ _ rounds =>
        refine ⟨B,.refl B i,stalled.keeps rfl rfl ?_,by simp⟩
        intro job member
        rcases List.mem_append.mp member with old | new
        · exact stalled.jobs job old
        · rw [rounds job new]
          exact trivial
  | work index order =>
    simp only [Node.step] at stepped
    split at stepped
    next => contradiction
    next job found =>
      obtain ⟨⟨n',effect⟩,ran,same⟩ := Option.map_eq_some_iff.mp stepped
      obtain ⟨rfl,rfl⟩ := Prod.mk.inj same
      have kept : ∀ job ∈ node.pending.eraseIdx index, job.Early F B i := fun job member =>
        stalled.jobs job (List.mem_of_mem_eraseIdx member)
      obtain ⟨B',opens,moved,sent⟩ := stalled.job id inside few (stalled.jobs job (List.mem_of_getElem? found)) ran kept
      rw [(runJob_cases ran).noAck, List.map_nil, List.append_nil]
      exact ⟨B',opens,moved,sent⟩
  | callback =>
    cases node_cases stepped with
    | calledBack n' acks case =>
      cases case with
      | kept _ _ => exact ⟨B,.refl B i,stalled.keeps rfl (List.append_nil _) stalled.jobs,by simp⟩
      | advanced _ _ advances _ =>
        exfalso
        rcases advances with withheld | flagged | certified
        · exact Bool.false_ne_true (stalled.unwithheld.symm.trans withheld)
        · exact Bool.false_ne_true (stalled.unflagged.symm.trans flagged)
        · have stored : (node.state.certMap.lookup node.state.view).isSome := certified
          rw [stalled.view, stalled.certs 1 one_ne_zero] at stored
          exact Bool.false_ne_true stored

end Nodes

/-! ## The cluster -/

section Runs

variable {size blockSize : Nat} {startEvidence : Bool} {timerMode : TimerMode} {byzantine : Finset Nat} {p : Platform}

/-- All honest nodes are stalled, and nothing is in flight that could change this. -/
structure Halted (c : Cluster) (B : Option ProtoBlock) (s : System) : Prop where
  leads : B.isSome → c.honest 0
  nodes : ∀ i, c.honest i → Stalled c.followers B i (s.nodes i)
  net : ∀ x ∈ s.net, x.msg.Early c.followers B x.dest

theorem Cluster.mem_followers {c : Cluster} {i : Nat} (honest : c.honest i) (other : i ≠ 0) : i ∈ c.followers := by
  rw [Cluster.followers, Finset.mem_erase, List.mem_toFinset, c.mem_honestNodes]
  exact ⟨other,honest⟩

/-- With a node that follows the code as the leader and one that is silent, there are too few
nodes to forward a proposal. -/
theorem followers_few {c : Cluster} {i x : Nat}
    (complete : c = Cluster.complete size blockSize startEvidence timerMode byzantine) (leads : c.honest 0)
    (silent : x < size ∧ x ∈ byzantine) (honest : c.honest i) : c.followers.card < (c.config i).pMap.card := by
  subst complete
  have known : i < size := honest.1
  have first : 0 < size := leads.1
  have other : x ≠ 0 := by
    rintro rfl
    exact leads.2 silent.2
  have within : (Cluster.complete size blockSize startEvidence timerMode byzantine).followers ⊆
      ((Finset.range size).erase x).erase 0 := by
    intro j member
    rw [Cluster.followers, Finset.mem_erase, List.mem_toFinset, Cluster.mem_honestNodes] at member
    obtain ⟨nonzero,inside,follows⟩ := member
    simp only [Finset.mem_erase, Finset.mem_range]
    refine ⟨nonzero,?_,inside⟩
    rintro rfl
    exact follows silent.2
  have card : ((Finset.range size).erase i).card = size - 1 := by
    rw [Finset.card_erase_of_mem (Finset.mem_range.mpr known), Finset.card_range]
  have fewer : (((Finset.range size).erase x).erase 0).card = size - 1 - 1 := by
    rw [Finset.card_erase_of_mem (by simp [first,other.symm]), Finset.card_erase_of_mem (Finset.mem_range.mpr silent.1),
      Finset.card_range]
  have below := Finset.card_le_card within
  have several := silent.1
  change _ < ((Finset.range size).erase i).card
  omega

theorem Halted.acts {c : Cluster} {B : Option ProtoBlock} {s t : System} {i x : Nat} {event : NodeEvent}
    (complete : c = Cluster.complete size blockSize startEvidence timerMode byzantine)
    (silent : x < size ∧ x ∈ byzantine) (halted : Halted c B s) (honest : c.honest i)
    (acted : s.act c p i event = some t) (received : ∀ m, event = .receive m → m.Early c.followers B i) :
    ∃ B, Halted c B t := by
  obtain ⟨node,sends,stepped,rfl⟩ := System.act_step acted
  have id : (c.config i).id = i := by rw [complete]; rfl
  have noLeader : 0 ∉ c.followers := Finset.notMem_erase 0 _
  obtain ⟨B',opens,moved,sent⟩ := (halted.nodes i honest).step id noLeader (Cluster.mem_followers honest)
    (fun proposed => followers_few complete (halted.leads proposed) silent honest) stepped received
  refine ⟨B',?_,?_,?_⟩
  · intro proposed
    by_cases leads : i = 0
    · exact leads ▸ honest
    · exact halted.leads (opens.leader leads ▸ proposed)
  · intro j follows
    by_cases same : j = i
    · subst same
      rwa [moved_self]
    · rw [moved_other c s i node sends same]
      by_cases leads : i = 0
      · rcases opens.fixed with rfl | rfl
        · exact (halted.nodes j follows).opens (leads ▸ same) B'
        · exact halted.nodes j follows
      · exact opens.leader leads ▸ halted.nodes j follows
  · intro y member
    rcases List.mem_append.mp member with old | new
    · rcases opens.fixed with rfl | rfl
      · exact (halted.net y old).opens B'
      · exact halted.net y old
    · simp only [Cluster.packets, List.mem_flatMap, List.mem_map, List.mem_filter, decide_eq_true_eq] at new
      obtain ⟨o,sending,j,⟨_,peer⟩,rfl⟩ := new
      refine sent o sending j ?_
      rintro rfl
      rw [complete] at peer
      simp [Cluster.complete,NodeConfig.complete] at peer

theorem Halted.step {c : Cluster} {B : Option ProtoBlock} {s t : System} {e : SystemEvent} {x : Nat}
    (complete : c = Cluster.complete size blockSize startEvidence timerMode byzantine)
    (silent : x < size ∧ x ∈ byzantine) (halted : Halted c B s) (enabled : s.enabled c p e) (alone : Unassisted e)
    (stepped : s.step c p e = some t) : ∃ B, Halted c B t := by
  cases e with
  | connect i => exact halted.acts complete silent enabled stepped nofun
  | command i cmd => exact halted.acts complete silent enabled stepped nofun
  | work i index order => exact halted.acts complete silent enabled.1 stepped nofun
  | callback i =>
    obtain ⟨u,acted,rfl⟩ := Option.map_eq_some_iff.mp stepped
    obtain ⟨B',moved⟩ := halted.acts complete silent enabled.1 acted nofun
    exact ⟨B',moved.leads,moved.nodes,moved.net⟩
  | inject dest m => exact alone.elim
  | deliver k =>
    simp only [System.step] at stepped
    split at stepped
    next => contradiction
    next y found =>
      have early := halted.net y (List.mem_of_getElem? found)
      have rest : Halted c B { s with net := s.net.eraseIdx k } :=
        ⟨halted.leads,halted.nodes,fun z member => halted.net z (List.mem_of_mem_eraseIdx member)⟩
      by_cases honest : c.honest y.dest
      · refine rest.acts complete silent honest stepped ?_
        intro m same
        exact NodeEvent.receive.inj same ▸ early
      · -- a silent node only takes the packet off the network
        obtain ⟨node,sends,received,rfl⟩ := System.act_step stepped
        obtain ⟨rfl,rfl⟩ := Prod.mk.inj (Option.some.inj received)
        refine ⟨B,rest.leads,?_,?_⟩
        · intro j follows
          rw [moved_other _ _ _ _ _ (by rintro rfl; exact honest follows)]
          exact halted.nodes j follows
        · rw [moved_quiet]
          exact rest.net

theorem init_stalled (F : Finset Nat) (i : Nat) : Stalled F none i .init where
  view := rfl
  leader := rfl
  unflagged := rfl
  unwithheld := rfl
  certs v positive := Finmap.lookup_eq_none.mpr fun member => positive ((Finmap.mem_singleton _ _ _).mp member)
  firsts x found := by
    have absent : (∅ : Map Nat Proposal).lookup 1 = some x := found
    simp at absent
  senders := Finset.empty_subset _
  votes := rfl
  unopened _ _ := rfl
  acked := rfl
  jobs job member := absurd member List.not_mem_nil

theorem start_halted (c : Cluster) : Halted c none (System.start c) :=
  ⟨fun proposed => absurd proposed Bool.false_ne_true,
    fun i _ => (init_stalled c.followers i).keeps rfl rfl fun _ member => absurd member List.not_mem_nil,
    fun _ member => absurd member List.not_mem_nil⟩

/-- One replica that never sends a message keeps all others in the first view: in whichever
variant the timers run and in whatever order things happen, no node ever votes, stores a
certificate of the view, acknowledges a block or reaches the next view. -/
theorem silent_replica_halts_all {x : Nat} (silent : x < size ∧ x ∈ byzantine) {trace : List SystemEvent} {s : System}
    (run : ((systemMachine (Cluster.complete size blockSize startEvidence timerMode byzantine) p).restrict
      fun _ => Unassisted).Run (System.start (Cluster.complete size blockSize startEvidence timerMode byzantine)) trace s) :
    (∀ i, i < size → i ∉ byzantine → (s.nodes i).state.view = 1 ∧ (s.nodes i).acked = [] ∧
      (s.nodes i).state.certMap.lookup 1 = none ∧ (s.nodes i).state.voteMap = ∅) ∧
    ∀ y ∈ s.net, ∀ v, y.msg ≠ .vote v := by
  obtain ⟨B,halted⟩ := run.invariant (I := fun s => ∃ B, Halted _ B s) ⟨none,start_halted _⟩ (by
    rintro s e t ⟨B,halted⟩ ⟨enabled,alone⟩ stepped
    exact halted.step rfl silent enabled alone stepped)
  refine ⟨fun i inside follows => ?_,?_⟩
  · have stalled := halted.nodes i ⟨inside,follows⟩
    exact ⟨stalled.view,stalled.acked,stalled.certs 1 one_ne_zero,stalled.votes⟩
  · intro y member v same
    have early := halted.net y member
    rw [same] at early
    exact early

end Runs

/-- The round of three nodes of which the last is silent: both others have the forward of node
one, and both timers fire. -/
def roundWithoutThird : List SystemEvent :=
  [.command 0 [1],.command 1 [1],.work 0 0 [],.work 0 0 [],.work 1 0 [],.deliver 0,.work 1 0 [],.work 1 0 [],.deliver 0,
    .work 0 0 [],.callback 0,.callback 1]

theorem third_replica_halts_all : ∃ s : System, s.log.map (fun e => (e.node,e.view)) = [(0,1),(1,1)] ∧
    (∀ i < 2, size (row (s.nodes i).state.fpropMap 1) = 1) ∧
    ∀ i, i < 3 → i ∉ ({2} : Finset Nat) → (s.nodes i).state.view = 1 := by
  obtain ⟨s,run,logged,forwards⟩ : ∃ s, ((systemMachine (Cluster.complete 3 1 false .plain {2}) transparent).restrict
      fun _ => Unassisted).Run (System.start (Cluster.complete 3 1 false .plain {2})) roundWithoutThird s ∧
      s.log.map (fun e => (e.node,e.view)) = [(0,1),(1,1)] ∧
      ∀ i < 2, size (row (s.nodes i).state.fpropMap 1) = 1 := by
    apply Guarded.Machine.reaches
    decide +kernel
  exact ⟨s,logged,forwards,fun i inside follows =>
    ((silent_replica_halts_all (x := 2) (by decide) run).1 i inside follows).1⟩

end ReputationSMR

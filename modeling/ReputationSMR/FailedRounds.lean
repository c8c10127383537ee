import ReputationSMR.CommandPool
import ReputationSMR.RecordStability

/-! Rounds that end without a certificate. The callback then only leaves a token for the next
round: the node stays in its view, and whatever the round did to its chain and its commands
stays too. So the chain is as before exactly when the round had nothing to undo: the leader
could not propose, and a follower has not completed its set of forwards. -/
namespace ReputationSMR

open Wire FiniteMap Guarded.Machine

/-! ## A round and the forwards that it counts -/

/-- The head is certified and there are enough commands for a block. -/
def SyncHS.CanPropose (cfg : NodeConfig) (n : SyncHS) : Prop :=
  (n.certMap.lookup n.bc.head).isSome ∧ cfg.blockSize ≤ n.pendingCommands.length

instance (cfg : NodeConfig) (n : SyncHS) : Decidable (n.CanPropose cfg) := inferInstanceAs (Decidable (_ ∧ _))

/-- The forward passes the checks of the handler and agrees with the first one of the view. -/
def SyncHS.CountsForward (p : Platform) (cfg : NodeConfig) (n : SyncHS) (fprop : Proposal) : Prop :=
  n.equivocatingProposalInject = false ∧ ∃ ep ∈ ExtProposal.fromProto p fprop, checkForward p cfg n ep = some true ∧
    ∃ ep2 ∈ ExtProposal.fromProto p (n.reference fprop), ep2.extBlock.getBlockHash p = ep.extBlock.getBlockHash p

instance (p : Platform) (cfg : NodeConfig) (n : SyncHS) (fprop : Proposal) : Decidable (n.CountsForward p cfg fprop) :=
  inferInstanceAs (Decidable (_ ∧ _))

def Node.countedForward (p : Platform) (cfg : NodeConfig) (node : Node) (e : NodeEvent) : List Proposal :=
  match node.taken e with
  | some (.proposeChannel fprop) => if node.state.CountsForward p cfg fprop then [fprop] else []
  | _ => []

def forwardLogMachine (p : Platform) (cfg : NodeConfig) : Guarded.Machine (Logged Node Proposal) NodeEvent :=
  (nodeMachine p cfg).observed fun node e _ => node.countedForward p cfg e

instance (p : Platform) (cfg : NodeConfig) (s : Logged Node Proposal) (e : NodeEvent) :
    Decidable ((forwardLogMachine p cfg).enabled s e) := inferInstanceAs (Decidable ((nodeMachine p cfg).enabled _ _))

/-- There are forwards of as many nodes as there are peers. -/
def SyncHS.ForwardsComplete (cfg : NodeConfig) (n : SyncHS) : Prop := cfg.pMap.card ≤ size (row n.fpropMap n.view)

instance (cfg : NodeConfig) (n : SyncHS) : Decidable (n.ForwardsComplete cfg) := inferInstanceAs (Decidable (_ ≤ _))

def Job.isRound : Job → Bool
  | .round => true
  | _ => false

def NodeEvent.isCallback : NodeEvent → Bool
  | .callback => true
  | _ => false

/-- What happens between the start of a round and its callback; no other round starts. -/
def WithinRound (s : Logged Node Proposal) (e : NodeEvent) : Prop :=
  e.isCallback = false ∧ ∀ job ∈ s.state.taken e, job.isRound = false

instance (s : Logged Node Proposal) (e : NodeEvent) : Decidable (WithinRound s e) := inferInstanceAs (Decidable (_ ∧ _))

/-- The second state has the chain of the first and its commands before any new ones, and a
certificate of the head if the first has one. -/
structure Restored (n n' : SyncHS) : Prop where
  head : n'.bc.head = n.bc.head
  blocks : n'.bc.blocksByHeight = n.bc.blocksByHeight
  commands : n.pendingCommands <+: n'.pendingCommands
  certified : (n.certMap.lookup n.bc.head).isSome → (n'.certMap.lookup n'.bc.head).isSome

/-! ## Steps -/

section Steps

variable {p : Platform} {cfg : NodeConfig} {n n' : SyncHS} {effect : Effect} {node node' : Node}

theorem work_runs {index : Nat} {order : List Nat}
    (moved : (nodeMachine p cfg).step node (.work index order) = some node') :
    ∃ job effect, node.pending[index]? = some job ∧
      runJob p cfg node.state order job = some (node'.state,effect) ∧
      node'.pending = node.pending.eraseIdx index ++ effect.jobs := by
  obtain ⟨⟨next,sends⟩,stepped,rfl⟩ := Option.map_eq_some_iff.mp moved
  simp only [Node.step] at stepped
  split at stepped
  next => contradiction
  next job found =>
    obtain ⟨⟨n',effect⟩,ran,same⟩ := Option.map_eq_some_iff.mp stepped
    obtain ⟨rfl,rfl⟩ := Prod.mk.inj same
    exact ⟨job,effect,found,ran,rfl⟩

theorem command_runs {cmd : Bytes} (moved : (nodeMachine p cfg).step node (.command cmd) = some node') :
    ∃ effect, addCmdsAndStartTimerIfSufficientCommands cfg node.state cmd = some (node'.state,effect) ∧
      node'.pending = node.pending ++ effect.jobs := by
  obtain ⟨⟨next,sends⟩,stepped,rfl⟩ := Option.map_eq_some_iff.mp moved
  obtain ⟨⟨n',effect⟩,ran,same⟩ := Option.map_eq_some_iff.mp stepped
  obtain ⟨rfl,rfl⟩ := Prod.mk.inj same
  exact ⟨effect,ran,rfl⟩

theorem CommandCase.frame (case : CommandCase n n' effect) : n'.view = n.view ∧ n'.leader = n.leader ∧ n'.bc = n.bc ∧
    n'.certMap = n.certMap ∧ n'.fpropMap = n.fpropMap := by
  cases case
  exact ⟨rfl,rfl,rfl,rfl,rfl⟩

theorem Accepted.counts {fprop : Proposal} {ep : ExtProposal} (accepted : Accepted p cfg n fprop ep)
    (agrees : AgreesWithFirst p n ep) : n.CountsForward p cfg fprop := by
  obtain ⟨unflagged,decoded,checked⟩ := accepted
  obtain ⟨ep2,decoded2,same⟩ := agrees
  rw [ExtProposal.fromProto_proposal decoded] at decoded2
  exact ⟨unflagged,ep,decoded,checked,ep2,decoded2,same⟩

/-- The set of forwards grows by those that are counted, and a block is appended when one of
them finds the set complete. -/
inductive SetStep (p : Platform) (cfg : NodeConfig) (n : SyncHS) (fprop : Proposal) (n' : SyncHS) : Prop where
  | ignored : ¬n.CountsForward p cfg fprop → n'.fpropMap = n.fpropMap → n'.bc = n.bc → SetStep p cfg n fprop n'
  | counted : n.CountsForward p cfg fprop → size (row n.fpropMap n.view) ≤ size (row n'.fpropMap n.view) →
      (n.leader = cfg.id ∨ size (row n'.fpropMap n.view) < cfg.pMap.card) → n'.bc = n.bc → SetStep p cfg n fprop n'
  | completed : n.CountsForward p cfg fprop → n.leader ≠ cfg.id → cfg.pMap.card ≤ size (row n'.fpropMap n.view) →
      n'.bc.head = n.bc.head + 1 → SetStep p cfg n fprop n'

theorem size_addForward_ge (n : SyncHS) (fprop : Proposal) :
    size (row n.fpropMap n.view) ≤ size (row (n.addForward fprop).fpropMap n.view) := by
  rw [size_addForward, SyncHS.forwardsWith, size, size, keys_insert]
  exact Finset.card_le_card (Finset.subset_insert _ _)

theorem ForwardStep.set {fprop : Proposal} (step : ForwardStep p cfg n fprop n' effect) : SetStep p cfg n fprop n' := by
  cases step with
  | flagged flag => exact .ignored (fun counts => by simp [counts.1] at flag) rfl rfl
  | refused ep _ decoded refused =>
    refine .ignored ?_ rfl rfl
    rintro ⟨_,ep',decoded',checked,_⟩
    obtain rfl := Option.some.inj (decoded.symm.trans decoded')
    simp [refused] at checked
  | conflict ep ep2 accepted decoded2 differ =>
    refine .ignored ?_ rfl rfl
    rintro ⟨_,ep',decoded',_,ep2',decoded2',same⟩
    obtain rfl := Option.some.inj (accepted.decoded.symm.trans decoded')
    obtain rfl := Option.some.inj (decoded2.symm.trans decoded2')
    exact differ same
  | counted ep accepted agrees few =>
    refine .counted (accepted.counts agrees) (size_addForward_ge n fprop) (Or.inr ?_) rfl
    rwa [size_addForward]
  | leads ep accepted agrees _ leader =>
    exact .counted (accepted.counts agrees) (size_addForward_ge n fprop) (Or.inl leader.symm) rfl
  | follows ep accepted agrees full follower =>
    refine .completed (accepted.counts agrees) (Ne.symm follower) ?_ rfl
    rw [← size_addForward] at full
    exact full

theorem JobCase.fpropMap {order : List Nat} {job : Job} (step : JobCase p cfg n order job n' effect)
    (other : job.heldForward = none) : n'.fpropMap = n.fpropMap := by
  cases step with
  | read _ _ _ _ => contradiction
  | voteHandled _ _ _ step => exact step.unread SyncHS.fpropMap fun _ _ _ => rfl
  | started _ _ step => exact step.unread SyncHS.fpropMap fun _ _ _ _ _ _ _ => rfl
  | _ => rfl

theorem ChainStep.keeps_certs {job : Job} (step : ChainStep p cfg n job n' effect) (h : Nat)
    (present : (n.certMap.lookup h).isSome) : (n'.certMap.lookup h).isSome := by
  cases step with
  | quiet _ certs _ | certified _ _ _ _ _ _ certs _ _ | extended _ _ _ certs _ => exact certs ▸ present
  | stored _ _ _ _ certs _ | emptied _ _ _ certs _ =>
    rw [certs, lookup_insert]
    split
    next => rfl
    next => exact present

/-- Besides rounds and forwards only evidence appends a block, and it certifies the view. -/
theorem JobCase.bc {order : List Nat} {job : Job} (step : JobCase p cfg n order job n' effect)
    (noRound : job.isRound = false) (noForward : job.heldForward = none) :
    n'.bc = n.bc ∨ (n'.certMap.lookup n.view).isSome := by
  cases step with
  | read _ _ _ _ | started _ _ _ => contradiction
  | voteHandled _ _ _ step => exact Or.inl (step.unread SyncHS.bc fun _ _ _ => rfl)
  | emptied e cert _ _ _ =>
    have certs : ((n.appendEmptyBlock p cert).addEquiProposaltoMap.certMap.lookup n.view).isSome := by
      simp [SyncHS.appendEmptyBlock, SyncHS.appendBlock, SyncHS.addCert, SyncHS.addEquiProposaltoMap]
    exact Or.inr certs
  | _ => exact Or.inl rfl

end Steps

/-! ## The round -/

section Rounds

variable {p : Platform} {cfg : NodeConfig} {start : SyncHS} {s t : Logged Node Proposal}

/-- The chain within a round: it grows when the view is certified by evidence or, at a
follower, when a forward is counted and the set is complete, and not otherwise. -/
structure RoundChain (cfg : NodeConfig) (start : SyncHS) (s : Logged Node Proposal) : Prop where
  view : s.state.state.view = start.view
  leader : s.state.state.leader = start.leader
  certs : ∀ h, (start.certMap.lookup h).isSome → (s.state.state.certMap.lookup h).isSome
  head : start.bc.head ≤ s.state.state.bc.head
  chain : (s.state.state.certMap.lookup start.view).isSome ∨
    (if start.leader ≠ cfg.id ∧ s.log ≠ [] ∧ s.state.state.ForwardsComplete cfg then start.bc.head < s.state.state.bc.head
      else s.state.state.bc = start.bc)

theorem RoundChain.same (grown : RoundChain cfg start s) {node : Node}
    (view : node.state.view = s.state.state.view) (leader : node.state.leader = s.state.state.leader)
    (certs : ∀ h, (s.state.state.certMap.lookup h).isSome → (node.state.certMap.lookup h).isSome)
    (forwards : node.state.fpropMap = s.state.state.fpropMap)
    (head : s.state.state.bc.head ≤ node.state.bc.head)
    (bc : node.state.bc = s.state.state.bc ∨ (node.state.certMap.lookup s.state.state.view).isSome) :
    RoundChain cfg start ⟨node,s.log⟩ := by
  refine ⟨view.trans grown.view,leader.trans grown.leader,fun h present => certs h (grown.certs h present),
    grown.head.trans head,?_⟩
  rcases bc with bc | certified
  · rcases grown.chain with certified | chain
    · exact Or.inl (certs _ certified)
    · refine Or.inr ?_
      simp only [SyncHS.ForwardsComplete, forwards, view, bc] at chain ⊢
      exact chain
  · exact Or.inl (grown.view ▸ certified)

theorem RoundChain.forwarded (grown : RoundChain cfg start s) {node : Node} {fprop : Proposal} {effect : Effect}
    (step : ForwardStep p cfg s.state.state fprop node.state effect) :
    RoundChain cfg start ⟨node,s.log ++ if s.state.state.CountsForward p cfg fprop then [fprop] else []⟩ := by
  have view := step.step.view
  have leader := step.records.leader
  have certs := step.step.chain.keeps_certs
  have head := step.step.chain.head_le
  have set := step.set
  cases set with
  | ignored refused forwards bc =>
    rw [if_neg refused, List.append_nil]
    exact grown.same view leader certs forwards head (Or.inl bc)
  | counted counts grows few bc =>
    rw [if_pos counts]
    refine ⟨view.trans grown.view,leader.trans grown.leader,fun h present => certs h (grown.certs h present),
      grown.head.trans head,?_⟩
    refine grown.chain.imp (certs _) fun chain => ?_
    rw [grown.leader] at few
    have unfilled : ¬(start.leader ≠ cfg.id ∧ s.log ++ [fprop] ≠ [] ∧ node.state.ForwardsComplete cfg) := by
      rintro ⟨follower,_,full⟩
      rw [SyncHS.ForwardsComplete, view] at full
      have := few.resolve_left follower
      omega
    have before : ¬(start.leader ≠ cfg.id ∧ s.log ≠ [] ∧ s.state.state.ForwardsComplete cfg) := by
      rintro ⟨follower,_,full⟩
      rw [SyncHS.ForwardsComplete] at full
      have := few.resolve_left follower
      omega
    rw [if_neg before] at chain
    rw [if_neg unfilled, bc]
    exact chain
  | completed counts follower full bc =>
    rw [if_pos counts]
    refine ⟨view.trans grown.view,leader.trans grown.leader,fun h present => certs h (grown.certs h present),
      grown.head.trans head,Or.inr ?_⟩
    rw [if_pos ⟨grown.leader ▸ follower,by simp,by rwa [SyncHS.ForwardsComplete, view]⟩, bc]
    exact Nat.lt_succ_of_le grown.head

theorem RoundChain.step {e : NodeEvent} (grown : RoundChain cfg start s) (within : WithinRound s e)
    (moved : (forwardLogMachine p cfg).step s e = some t) : RoundChain cfg start t := by
  obtain ⟨stepped,log⟩ := observed_step moved
  obtain ⟨node,_⟩ := t
  subst log
  cases e with
  | connect =>
    obtain rfl := Option.some.inj stepped
    simp only [Node.countedForward, Node.taken, List.append_nil]
    exact grown.same rfl rfl (fun _ present => present) rfl le_rfl (Or.inl rfl)
  | receive m =>
    obtain rfl := Option.some.inj stepped
    simp only [Node.countedForward, Node.taken, List.append_nil]
    exact grown.same rfl rfl (fun _ present => present) rfl le_rfl (Or.inl rfl)
  | command cmd =>
    obtain ⟨effect,ran,_⟩ := command_runs stepped
    obtain ⟨view,leader,bc,certs,forwards⟩ := (command_cases ran).frame
    simp only [Node.countedForward, Node.taken, List.append_nil]
    exact grown.same view leader (fun _ present => certs ▸ present) forwards (bc ▸ le_rfl) (Or.inl bc)
  | callback => exact absurd within.1 (by simp [NodeEvent.isCallback])
  | work index order =>
    obtain ⟨job,effect,found,ran,_⟩ := work_runs stepped
    have noRound := within.2 job found
    have case := runJob_cases ran
    cases held : job.heldForward with
    | none =>
      have uncounted : s.state.countedForward p cfg (.work index order) = [] := by
        simp only [Node.countedForward, Node.taken, found]
        cases job <;> first | rfl | contradiction
      simp only [uncounted, List.append_nil]
      exact grown.same case.step.view case.records.leader case.step.chain.keeps_certs (case.fpropMap held)
        case.step.chain.head_le (case.bc noRound held)
    | some fprop =>
      obtain rfl : job = .proposeChannel fprop := by cases job <;> simp_all [Job.heldForward]
      cases case with
      | read _ _ _ step =>
        simp only [Node.countedForward, Node.taken, found]
        exact grown.forwarded step

/-- How the goroutine of a round leaves the chain and the commands of a node that does not
deviate: either it proposes, or both are as before. -/
inductive Starts (p : Platform) (cfg : NodeConfig) (n n' : SyncHS) : Prop where
  | idle : ¬(n.leader = cfg.id ∧ n.CanPropose cfg) → n'.bc = n.bc → n'.pendingCommands = n.pendingCommands →
      Starts p cfg n n'
  | proposes (cert : BlockCertificate) : n.leader = cfg.id → n.CanPropose cfg →
      n.certMap.lookup n.bc.head = some cert →
      n'.bc = n.bc.extend p (candidateBlock p (n.newestCommands cfg) cert (n.bc.head + 1) []) →
      n'.pendingCommands = n.pendingCommands.take (n.pendingCommands.length - cfg.blockSize) → Starts p cfg n n'

theorem propose_starts {n n' : SyncHS} {effect : Effect} (leader : n.leader = cfg.id)
    (ran : propose p cfg n = some (n',effect)) : Starts p cfg n n' := by
  simp only [propose, SyncHS.getCertForBlockIndex] at ran
  cases found : n.certMap.lookup n.bc.head with
  | none =>
    simp only [found] at ran
    obtain ⟨rfl,_⟩ := Prod.mk.inj (Option.some.inj ran)
    exact .idle (fun both => by simpa [found] using both.2.1) rfl rfl
  | some cert =>
    simp only [found, SyncHS.getCmdsIfSufficient] at ran
    by_cases few : n.pendingCommands.length < cfg.blockSize
    · rw [if_pos few] at ran
      obtain ⟨rfl,_⟩ := Prod.mk.inj (Option.some.inj ran)
      exact .idle (fun both => Nat.not_lt.mpr both.2.2 few) rfl rfl
    · rw [if_neg few] at ran
      obtain ⟨rfl,_⟩ := Prod.mk.inj (Option.some.inj ran)
      exact .proposes cert leader ⟨by rw [found]; rfl,Nat.not_lt.mp few⟩ found rfl rfl

theorem startRound_starts {n n' : SyncHS} {effect : Effect} (honest : cfg.timerMode = .plain ∨ cfg.id % 2 = 0)
    (ran : startRound p cfg n = some (n',effect))
    (unwithheld : cfg.timerMode = .withhold → n'.withholdingProposalInject = false) : Starts p cfg n n' := by
  have idle {m : SyncHS} (follows : n.leader ≠ cfg.id) (same : some (m,Effect.none) = some (n',effect))
      (bc : m.bc = n.bc) (commands : m.pendingCommands = n.pendingCommands) : Starts p cfg n n' := by
    obtain ⟨rfl,_⟩ := Prod.mk.inj (Option.some.inj same)
    exact .idle (fun both => follows both.1) bc commands
  simp only [startRound] at ran
  cases mode : cfg.timerMode with
  | plain =>
    simp only [mode] at ran
    split at ran
    next leader => exact propose_starts leader ran
    next follows => exact idle follows ran rfl rfl
  | withhold =>
    simp only [mode] at ran
    split at ran
    next =>
      obtain ⟨rfl,_⟩ := Prod.mk.inj (Option.some.inj ran)
      have unset := unwithheld mode
      rw [handleWithholdingProposal] at unset
      split at unset <;> contradiction
    next =>
      split at ran
      next leader =>
        -- the flag that is reset before the call is not read by it
        have starts := propose_starts (n := { n with withholdingProposalInject := false }) leader ran
        cases starts with
        | idle cannot bc commands => exact .idle cannot bc commands
        | proposes cert _ can found bc commands => exact .proposes cert leader can found bc commands
      next follows => exact idle follows ran rfl rfl
  | equivocation | maliciousProposal | maliciousVote =>
    have even : cfg.id % 2 = 0 := honest.resolve_left (by simp [mode])
    simp only [mode, even, ne_eq, not_true_eq_false, if_false] at ran
    split at ran
    next leader => exact propose_starts leader ran
    next follows => exact idle follows ran rfl rfl

theorem JobCase.withholding {n n' : SyncHS} {order : List Nat} {job : Job} {effect : Effect}
    (step : JobCase p cfg n order job n' effect) (noRound : job.isRound = false) :
    n'.withholdingProposalInject = n.withholdingProposalInject := by
  cases step with
  | read _ _ _ step => exact step.unread SyncHS.withholdingProposalInject fun _ _ _ _ _ _ => rfl
  | voteHandled _ _ _ step => exact step.unread SyncHS.withholdingProposalInject fun _ _ _ => rfl
  | started _ _ _ => contradiction
  | _ => rfl

theorem round_pool {m : Node} {trace : List NodeEvent}
    (run : ((forwardLogMachine p cfg).restrict WithinRound).Run ⟨m,[]⟩ trace s) :
    s.state.state.pendingCommands = m.state.pendingCommands ++ trace.flatMap NodeEvent.commands ∧
      s.state.state.withholdingProposalInject = m.state.withholdingProposalInject := by
  refine run.history (I := fun trace s => s.state.state.pendingCommands =
    m.state.pendingCommands ++ trace.flatMap NodeEvent.commands ∧
      s.state.state.withholdingProposalInject = m.state.withholdingProposalInject) (by simp) ?_
  rintro past s e t _ ⟨pool,flag⟩ admitted moved
  have moved : (forwardLogMachine p cfg).step s e = some t := moved
  obtain ⟨stepped,_⟩ := observed_step moved
  obtain ⟨noCallback,noRound⟩ := admitted.2
  have undrawn : s.state.draws cfg e = none := by
    rw [Node.draws]
    split
    next round => exact absurd (noRound _ round) (by simp [Job.isRound])
    next => rfl
  have pooled := (pool_event stepped).1
  rw [undrawn, Option.getD_none, List.append_nil, pool] at pooled
  refine ⟨by simpa [List.flatMap_append] using pooled,Eq.trans ?_ flag⟩
  cases e with
  | connect | receive _ =>
    exact (congrArg (fun node : Node => node.state.withholdingProposalInject) (Option.some.inj stepped)).symm
  | command cmd =>
    obtain ⟨effect,ran,_⟩ := command_runs stepped
    have case := command_cases ran
    generalize t.state.state = n' at case
    cases case
    rfl
  | callback => contradiction
  | work index order =>
    obtain ⟨job,effect,found,ran,_⟩ := work_runs stepped
    exact (runJob_cases ran).withholding (noRound job found)

theorem callback_keeps {b c : Node} (fails : ¬b.state.advances)
    (moved : (nodeMachine p cfg).step b .callback = some c) : c.state.bc = b.state.bc ∧
      c.state.pendingCommands = b.state.pendingCommands ∧ c.state.certMap = b.state.certMap := by
  obtain ⟨_,case⟩ := nodeMachine_cases moved
  cases case with
  | calledBack n' acks case =>
    cases case with
    | kept counters _ => exact ⟨rfl,rfl,rfl⟩
    | advanced b counters moves _ => exact absurd moves fails

/-- A round that began in `a`, with the goroutine of the round leading to `m`, and whose callback ended it in `c` without a
certificate. -/
structure FailedRound (p : Platform) (cfg : NodeConfig) (a m c : SyncHS) (completed : Prop) (arrived : List Bytes) :
    Prop where
  starts : Starts p cfg a m
  started : a.bc.head ≤ m.bc.head
  head : m.bc.head ≤ c.bc.head
  extended : completed → m.bc.head < c.bc.head
  kept : ¬completed → c.bc = m.bc
  pool : c.pendingCommands = m.pendingCommands ++ arrived
  certs : ∀ h, (a.certMap.lookup h).isSome → (c.certMap.lookup h).isSome
  uncertified : c.certMap.lookup a.view = none

section Failed

variable {a m c : SyncHS} {completed : Prop} {arrived : List Bytes}

theorem FailedRound.restored_iff (failed : FailedRound p cfg a m c completed arrived) :
    Restored a c ↔ ¬(a.leader = cfg.id ∧ a.CanPropose cfg) ∧ ¬completed := by
  constructor
  · intro restored
    have head := restored.head
    refine ⟨?_,fun complete => ?_⟩
    · rintro ⟨leader,can⟩
      cases failed.starts with
      | idle cannot _ _ => exact cannot ⟨leader,can⟩
      | proposes cert _ _ _ extended _ =>
        have grows : m.bc.head = a.bc.head + 1 := by
          rw [extended]
          rfl
        have := failed.head
        omega
    · have := failed.extended complete
      have := failed.started
      omega
  · rintro ⟨cannot,incomplete⟩
    cases failed.starts with
    | proposes _ leader can _ _ _ => exact absurd ⟨leader,can⟩ cannot
    | idle _ kept untaken =>
      have same : c.bc = a.bc := (failed.kept incomplete).trans kept
      refine ⟨by rw [same],by rw [same],?_,fun certified => ?_⟩
      · rw [failed.pool, untaken]
        exact List.prefix_append _ _
      · rw [same]
        exact failed.certs _ certified

/-- Nothing of the proposal is undone. -/
theorem FailedRound.proposal_stays (failed : FailedRound p cfg a m c completed arrived) (incomplete : ¬completed)
    (leader : a.leader = cfg.id) (can : a.CanPropose cfg) : c.bc.head = a.bc.head + 1 ∧
      (∃ cert ∈ a.certMap.lookup a.bc.head, c.bc = a.bc.extend p
        (candidateBlock p (a.newestCommands cfg) cert (a.bc.head + 1) [])) ∧
      c.pendingCommands = a.pendingCommands.take (a.pendingCommands.length - cfg.blockSize) ++ arrived ∧
      (a.bc.head + 1 = a.view → c.certMap.lookup c.bc.head = none) := by
  cases failed.starts with
  | idle cannot _ _ => exact absurd ⟨leader,can⟩ cannot
  | proposes cert _ _ found extended taken =>
    have same := (failed.kept incomplete).trans extended
    have head : c.bc.head = a.bc.head + 1 := by
      rw [same]
      rfl
    refine ⟨head,⟨cert,found,same⟩,by rw [failed.pool, taken],fun height => ?_⟩
    rw [head, height, failed.uncertified]

end Failed

theorem failed_of_run {a m b c : Node} {effect : Effect} {trace : List NodeEvent} {counted : List Proposal}
    (honest : cfg.timerMode = .plain ∨ cfg.id % 2 = 0) (ran : startRound p cfg a.state = some (m.state,effect))
    (run : ((forwardLogMachine p cfg).restrict WithinRound).Run ⟨m,[]⟩ trace ⟨b,counted⟩)
    (fails : ¬b.state.advances) (ended : (nodeMachine p cfg).step b .callback = some c) :
    FailedRound p cfg a.state m.state c.state
      (a.state.leader ≠ cfg.id ∧ counted ≠ [] ∧ b.state.ForwardsComplete cfg) (trace.flatMap NodeEvent.commands) := by
  have case := startRound_cases ran
  obtain ⟨pool,flag⟩ := round_pool run
  obtain ⟨bc,commands,certs⟩ := callback_keeps fails ended
  have grown : RoundChain cfg m.state ⟨b,counted⟩ := by
    refine run.invariant (I := RoundChain cfg m.state) ⟨rfl,rfl,fun _ present => present,le_rfl,Or.inr ?_⟩ ?_
    · simp
    · intro s e t grown admitted moved
      exact grown.step admitted.2 moved
  have viewed : m.state.view = a.state.view := case.step.view
  have uncertified : b.state.certMap.lookup a.state.view = none := by
    by_contra present
    refine fails (Or.inr (Or.inr (Option.isSome_iff_ne_none.mpr ?_)))
    rwa [show b.state.view = a.state.view from grown.view.trans viewed]
  have unwithheld : m.state.withholdingProposalInject = false := by
    rw [← flag]
    by_contra set
    exact fails (Or.inl (Bool.eq_true_of_not_eq_false set))
  have chain := grown.chain.resolve_left (by rw [viewed, uncertified]; simp)
  rw [case.records.leader] at chain
  refine ⟨startRound_starts honest ran fun _ => unwithheld,case.step.chain.head_le,bc ▸ grown.head,fun completed => ?_,
    fun incomplete => ?_,commands.trans pool,fun h certified => ?_,certs ▸ uncertified⟩
  · rw [if_pos completed] at chain
    exact bc ▸ chain
  · rw [if_neg incomplete] at chain
    exact bc.trans chain
  · rw [certs]
    exact grown.certs _ (case.step.chain.keeps_certs _ certified)

/-- After a round whose callback found no certificate the chain and the commands are as before
exactly when there was nothing to undo: the leader could not propose, and a follower has counted
no forward, or not those of as many nodes as there are peers. What a leader has proposed stays:
the block is the head, its commands are gone, and if it had the height of the view the next
proposal finds no certificate. -/
theorem failed_round_keeps_chain_iff {a m b c : Node} {index : Nat} {order : List Nat} {trace : List NodeEvent}
    {counted : List Proposal} (honest : cfg.timerMode = .plain ∨ cfg.id % 2 = 0) (starts : a.pending[index]? = some .round)
    (started : (nodeMachine p cfg).step a (.work index order) = some m)
    (run : ((forwardLogMachine p cfg).restrict WithinRound).Run ⟨m,[]⟩ trace ⟨b,counted⟩)
    (fails : ¬b.state.advances) (ended : (nodeMachine p cfg).step b .callback = some c) :
    (Restored a.state c.state ↔ ¬(a.state.leader = cfg.id ∧ a.state.CanPropose cfg) ∧
      ¬(a.state.leader ≠ cfg.id ∧ counted ≠ [] ∧ b.state.ForwardsComplete cfg)) ∧
    (a.state.leader = cfg.id → a.state.CanPropose cfg → c.state.bc.head = a.state.bc.head + 1 ∧
      (∃ cert ∈ a.state.certMap.lookup a.state.bc.head, c.state.bc = a.state.bc.extend p
        (candidateBlock p (a.state.newestCommands cfg) cert (a.state.bc.head + 1) [])) ∧
      c.state.pendingCommands = a.state.pendingCommands.take (a.state.pendingCommands.length - cfg.blockSize) ++
        trace.flatMap NodeEvent.commands ∧
      (a.state.bc.head + 1 = a.state.view → c.state.certMap.lookup c.state.bc.head = none)) := by
  obtain ⟨job,effect,found,ran,_⟩ := work_runs started
  obtain rfl := Option.some.inj (starts.symm.trans found)
  have failed := failed_of_run honest (show startRound p cfg a.state = some (m.state,effect) from ran) run fails ended
  refine ⟨failed.restored_iff,fun leader can => failed.proposal_stays ?_ leader can⟩
  exact fun completed => completed.1 leader

end Rounds

/-- A follower of three has counted its own forward, and waits for another when its timer fires. -/
theorem follower_keeps_chain : ∃ a m b c : Node, ∃ counted : List Proposal,
    (nodeMachine transparent (.complete 3 1 true .plain 1)).step a (.work 0 []) = some m ∧
    ((forwardLogMachine transparent (.complete 3 1 true .plain 1)).restrict WithinRound).Run ⟨m,[]⟩
      [.receive (.prop firstOfTwo),.work 0 [],.work 0 [],.command [2]] ⟨b,counted⟩ ∧
    (nodeMachine transparent (.complete 3 1 true .plain 1)).step b .callback = some c ∧
    counted.length = 1 ∧ Restored a.state c.state := by
  obtain ⟨a,_,starts,m,started,continues⟩ := Guarded.Machine.reaches
    (fun a : Node => a.pending[0]?.any Job.isRound = true ∧
      ∃ m ∈ (nodeMachine transparent (.complete 3 1 true .plain 1)).step a (.work 0 []),
        (((forwardLogMachine transparent (.complete 3 1 true .plain 1)).restrict WithinRound).replay
          [.receive (.prop firstOfTwo),.work 0 [],.work 0 [],.command [2]] ⟨m,[]⟩).any (fun s =>
            ¬s.state.state.advances ∧ s.log.length = 1 ∧ ¬s.state.state.ForwardsComplete (.complete 3 1 true .plain 1) ∧
            a.state.leader ≠ 1 ∧
            ∃ c ∈ (nodeMachine transparent (.complete 3 1 true .plain 1)).step s.state .callback, c.state.view = 1) = true)
    (show ((nodeMachine transparent (.complete 3 1 true .plain 1)).replay [.connect,.command [1]] .init).any _ = true by
      decide +kernel)
  obtain ⟨⟨b,counted⟩,run,fails,one,few,follows,c,ended,_⟩ := Guarded.Machine.reaches _ continues
  have round : a.pending[0]? = some .round := by
    cases found : a.pending[0]? with
    | none => simp [found] at starts
    | some job => cases job <;> simp_all [Job.isRound]
  refine ⟨a,m,b,c,counted,started,run,ended,one,?_⟩
  exact (failed_round_keeps_chain_iff (Or.inl rfl) round started run fails ended).1.mpr
    ⟨fun both => follows both.1,fun all => few all.2.2⟩

/-- The leader of two proposes and its timer fires before the other node answers: the block
stays, the command is gone, and the next `Propose` finds no certificate. -/
theorem failed_proposal_stays : ∃ a b c : Node,
    (nodeMachine transparent leaderOfTwo).Run .init [.connect,.command [1]] a ∧
    (nodeMachine transparent leaderOfTwo).Run a [.work 0 []] b ∧ ¬b.state.advances ∧
    (nodeMachine transparent leaderOfTwo).step b .callback = some c ∧ c.state.view = a.state.view ∧
    a.state.bc.head = 0 ∧ c.state.bc.head = 1 ∧
    a.state.bc.blocksByHeight.lookup 1 = none ∧ (c.state.bc.blocksByHeight.lookup 1).isSome ∧
    [1] ∈ a.state.pendingCommands ∧ [1] ∉ c.state.pendingCommands ∧
    (a.state.certMap.lookup a.state.bc.head).isSome ∧ c.state.certMap.lookup c.state.bc.head = none := by
  obtain ⟨a,first,start,continues⟩ := Guarded.Machine.reaches
    (fun a : Node => (a.state.view = 1 ∧ a.state.bc.head = 0 ∧ a.state.bc.blocksByHeight.lookup 1 = none ∧
        [1] ∈ a.state.pendingCommands ∧ (a.state.certMap.lookup a.state.bc.head).isSome) ∧
      ((nodeMachine transparent leaderOfTwo).replay [.work 0 []] a).any (fun b => ¬b.state.advances ∧
        ∃ c ∈ (nodeMachine transparent leaderOfTwo).step b .callback, c.state.view = 1 ∧ c.state.bc.head = 1 ∧
          (c.state.bc.blocksByHeight.lookup 1).isSome ∧ [1] ∉ c.state.pendingCommands ∧
          c.state.certMap.lookup c.state.bc.head = none) = true)
    (show ((nodeMachine transparent leaderOfTwo).replay [.connect,.command [1]] .init).any _ = true by decide +kernel)
  obtain ⟨view,head,absent,pending,cert⟩ := start
  obtain ⟨b,second,fails,c,ended,view',head',present,lost,none⟩ := Guarded.Machine.reaches _ continues
  exact ⟨a,b,c,first,second,fails,ended,view'.trans view.symm,head,head',absent,present,pending,lost,cert,none⟩

end ReputationSMR

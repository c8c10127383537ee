import ReputationSMR.RoundStarts

/-! Proposals of one view. A failed round keeps the view, and votes that arrive after its callback
can still certify its block; the next round of the same view then proposes again. The node is the
one whose commands have goroutines of their own, so that rounds start where the interleaving lets
them. -/
namespace ReputationSMR

open Wire FiniteMap

/-! ## Proposals and failures -/

/-- A node with the proposals that it has signed so far, each with its view, and the views
in which a callback found no certificate for them. -/
structure ProposingNode where
  start : StartingNode
  proposals : List (Nat × Proposal)
  failures : List Nat

def Job.proposal : Job → Option Proposal
  | .proposed prop => some prop
  | _ => none

/-- What `Propose` signs when the event runs it. -/
def Node.drafts (p : Platform) (cfg : NodeConfig) (node : Node) (e : NodeEvent) : List Proposal :=
  match node.taken e with
  | some .round => ((startRound p cfg node.state).map fun out => out.2.jobs.filterMap Job.proposal).getD []
  | _ => []

namespace ProposingNode

abbrev node (s : ProposingNode) : Node := s.start.node

def Proposed (s : ProposingNode) : Prop := s.node.state.view ∈ s.proposals.map Prod.fst

instance (s : ProposingNode) : Decidable s.Proposed := inferInstanceAs (Decidable (_ ∈ _))

def drafts (p : Platform) (cfg : NodeConfig) (s : ProposingNode) : StartEvent → List Proposal
  | .other e => s.node.drafts p cfg e
  | _ => []

def failuresAfter (s : ProposingNode) : StartEvent → List Nat
  | .other .callback => if s.Proposed ∧ ¬s.node.state.advances then s.failures ++ [s.node.state.view] else s.failures
  | _ => s.failures

def step (p : Platform) (cfg : NodeConfig) (s : ProposingNode) (e : StartEvent) : Option ProposingNode :=
  (s.start.step p cfg e).map fun start =>
    ⟨start,s.proposals ++ (s.drafts p cfg e).map fun prop => (s.node.state.view,prop),s.failuresAfter e⟩

end ProposingNode

def proposingMachine (p : Platform) (cfg : NodeConfig) : Guarded.Machine ProposingNode StartEvent :=
  ⟨fun s e => s.start.enabled cfg e,ProposingNode.step p cfg⟩

instance (p : Platform) (cfg : NodeConfig) (s : ProposingNode) (e : StartEvent) :
    Decidable ((proposingMachine p cfg).enabled s e) :=
  inferInstanceAs (Decidable (s.start.enabled cfg e))

/-- No goroutine tests the flag of the first round between the test and the reset of another, the
goroutine of a round runs before its timer fires, the first proposal of a view has the height of
the view, and no certificate is stored for a view once a callback has found none for the proposal
of the view. -/
def TimelyRounds (cfg : NodeConfig) (s : ProposingNode) : StartEvent → Prop
  | .other .callback => ∀ job ∈ s.node.pending, job.isRound = false
  | .other (.work index _) => ∀ job ∈ s.node.pending[index]?,
      (job.isRound = true → s.node.state.leader = cfg.id → s.node.state.CanPropose cfg → ¬s.Proposed →
        s.node.state.bc.head + 1 = s.node.state.view) ∧
      (s.node.state.view ∈ s.failures → ∀ entry ∈ job.storedCert, entry.1 ≠ s.node.state.view)
  | e => TestsAlone s.start e

instance (cfg : NodeConfig) (s : ProposingNode) (e : StartEvent) : Decidable (TimelyRounds cfg s e) :=
  match e with
  | .other .callback => inferInstanceAs (Decidable (∀ job ∈ s.node.pending, _))
  | .other (.work index _) => inferInstanceAs (Decidable (∀ job ∈ s.node.pending[index]?, _))
  | .other .connect => inferInstanceAs (Decidable (TestsAlone s.start (.other .connect)))
  | .other (.command cmd) => inferInstanceAs (Decidable (TestsAlone s.start (.other (.command cmd))))
  | .other (.receive m) => inferInstanceAs (Decidable (TestsAlone s.start (.other (.receive m))))
  | .spawn cmd => inferInstanceAs (Decidable (TestsAlone s.start (.spawn cmd)))
  | .advance index => inferInstanceAs (Decidable (TestsAlone s.start (.advance index)))

/-! ## Steps -/

section Steps

variable {p : Platform} {cfg : NodeConfig} {n n' : SyncHS} {effect : Effect} {job : Job}

theorem JobCase.noRound {order : List Nat} (step : JobCase p cfg n order job n' effect) :
    effect.jobs.countP Job.isRound = 0 := by
  cases step with
  | read _ _ _ step =>
    cases step with
    | conflict _ _ _ _ _ => split <;> rfl
    | _ => rfl
  | voteHandled _ _ _ step =>
    cases step with
    | counted _ _ _ _ counted => cases counted <;> rfl
    | _ => rfl
  | started _ _ step => cases step <;> rfl
  | _ => rfl

theorem extension_certified {b : ExtBlock} (extends_ : extension p cfg n job = some b) (leader : n.leader = cfg.id) :
    (n.certMap.lookup n.bc.head).isSome := by
  cases job with
  | round =>
    simp only [extension, SyncHS.nextEmptyBlock, SyncHS.nextBlock] at extends_
    split at extends_
    next => exact Option.isSome_iff_exists.mpr ((Option.map_eq_some_iff.mp extends_).imp fun _ both => both.1)
    next =>
      split at extends_
      next => exact Option.isSome_iff_exists.mpr ((Option.map_eq_some_iff.mp extends_).imp fun _ both => both.1)
      next => contradiction
  | eqEvidenceChannel e =>
    simp only [extension, SyncHS.nextEmptyBlock] at extends_
    split at extends_
    next => exact Option.isSome_iff_exists.mpr ((Option.map_eq_some_iff.mp extends_).imp fun _ both => both.1)
    next => contradiction
  | proposeChannel fprop =>
    obtain ⟨ep,completed,_⟩ := Option.map_eq_some_iff.mp extends_
    rw [SyncHS.completes] at completed
    split at completed
    next => contradiction
    next =>
      simp only [Option.bind_eq_bind, Option.bind_eq_some_iff] at completed
      obtain ⟨_,_,_,_,completed⟩ := completed
      split at completed
      next both => exact absurd leader.symm both.2.2.2
      next => contradiction
  | _ => contradiction

theorem ChainStep.head_kept (step : ChainStep p cfg n job n' effect) (leader : n.leader = cfg.id)
    (uncertified : n.certMap.lookup n.view = none → n.bc.head = n.view) :
    n'.certMap.lookup n.view = none → n'.bc.head = n.view := by
  have grown {b : ExtBlock} (extends_ : extension p cfg n job = some b) (none : n.certMap.lookup n.view = none) :
      False := by
    have certified := extension_certified extends_ leader
    rw [uncertified none, none] at certified
    contradiction
  intro none
  cases step with
  | quiet bc certs _ => exact bc ▸ uncertified (certs ▸ none)
  | certified _ _ _ _ _ bc certs _ _ => exact bc ▸ uncertified (certs ▸ none)
  | stored cert height _ bc certs _ =>
    rw [certs, lookup_insert] at none
    split at none
    next => contradiction
    next => exact bc ▸ uncertified none
  | extended b extends_ _ certs _ => exact (grown extends_ (certs ▸ none)).elim
  | emptied b extends_ _ certs _ =>
    rw [certs, lookup_insert, if_pos rfl] at none
    contradiction

theorem ChainStep.blocked (step : ChainStep p cfg n job n' effect) (leader : n.leader = cfg.id)
    (none : n.certMap.lookup n.view = none) (head : n.bc.head = n.view)
    (late : ∀ entry ∈ job.storedCert, entry.1 ≠ n.view) :
    n'.certMap.lookup n.view = Option.none ∧ n'.bc.head = n.view := by
  have grown {b : ExtBlock} (extends_ : extension p cfg n job = some b) : False := by
    have certified := extension_certified extends_ leader
    rw [head, none] at certified
    contradiction
  cases step with
  | quiet bc certs _ => exact ⟨certs ▸ none,bc ▸ head⟩
  | certified _ _ _ _ _ bc certs _ _ => exact ⟨certs ▸ none,bc ▸ head⟩
  | stored cert height same bc certs _ =>
    refine ⟨?_,bc ▸ head⟩
    have other : height ≠ n.view := late (height,cert) (by rw [same]; rfl)
    rw [certs, lookup_insert, if_neg other.symm]
    exact none
  | extended b extends_ _ _ _ => exact (grown extends_).elim
  | emptied b extends_ _ _ _ => exact (grown extends_).elim

/-- `Propose` signs at most one proposal, as the leader on a certified head. -/
theorem RoundCase.drafts (step : RoundCase p cfg n n' effect) :
    effect.jobs.filterMap Job.proposal = [] ∨
      ∃ prop, effect.jobs.filterMap Job.proposal = [prop] ∧ n.leader = cfg.id ∧ n.CanPropose cfg ∧
        n'.bc.head = n.bc.head + 1 ∧ n'.certMap = n.certMap := by
  cases step with
  | proposes withheld cert _ leader _ _ found enough =>
    exact Or.inr ⟨_,rfl,leader,⟨by rw [found]; rfl,enough⟩,rfl,rfl⟩
  | _ => exact Or.inl rfl

theorem countP_eraseIdx {pending : List Job} {index : Nat} (found : pending[index]? = some job) :
    pending.countP Job.isRound = (pending.eraseIdx index).countP Job.isRound + if job.isRound then 1 else 0 := by
  obtain ⟨bound,rfl⟩ := List.getElem?_eq_some_iff.mp found
  rw [← (List.getElem_cons_eraseIdx_perm bound).countP_eq, List.countP_cons]

theorem protocol_noRound (cfg : NodeConfig) (n : SyncHS) (m : SyncHSMsg) :
    (protocol cfg n m).countP Job.isRound = 0 := by
  rw [List.countP_eq_zero]
  intro job member
  have network := protocol_fromNetwork member
  cases job <;> simp_all [Job.fromNetwork,Job.isRound]

/-- The instructions of a command start timers, each with its round, and touch nothing that a
proposal depends on but the pool. -/
theorem CommandPc.step_rounds {pc pc' : CommandPc} {jobs : List Job} (ran : pc.step cfg n = some (n',pc',jobs)) :
    (n'.view = n.view ∧ n'.leader = n.leader ∧ n'.bc = n.bc ∧ n'.certMap = n.certMap) ∧
      n'.timers = n.timers + jobs.countP Job.isRound ∧ (jobs = [] ∨ pc = .startFirst ∨ pc = .startNext) := by
  cases pc with
  | done => simp [CommandPc.step] at ran
  | receive =>
    simp only [CommandPc.step] at ran
    split at ran
    next => contradiction
    next =>
      simp only [Option.some.injEq, Prod.mk.injEq] at ran
      obtain ⟨rfl,_,rfl⟩ := ran
      exact ⟨⟨rfl,rfl,rfl,rfl⟩,rfl,Or.inl rfl⟩
  | startFirst | startNext =>
    simp only [CommandPc.step, startTimer, Option.some.injEq, Prod.mk.injEq] at ran
    obtain ⟨rfl,_,rfl⟩ := ran
    exact ⟨⟨rfl,rfl,rfl,rfl⟩,rfl,by simp⟩
  | _ =>
    simp only [CommandPc.step, Option.some.injEq, Prod.mk.injEq] at ran
    obtain ⟨rfl,_,rfl⟩ := ran
    exact ⟨⟨rfl,rfl,rfl,rfl⟩,rfl,Or.inl rfl⟩

end Steps

/-! ## At most one -/

/-- The proposals so far are of different views. In a view with a proposal, either its round
still runs, and the head is the proposal unless the view is certified; or its callback has
failed, and nothing can be proposed on the uncertified head. -/
structure OneProposal (cfg : NodeConfig) (s : ProposingNode) : Prop where
  round : OneRound s.start
  rounds : s.node.pending.countP Job.isRound ≤ s.node.state.timers
  past : ∀ v ∈ s.proposals.map Prod.fst, v ≤ s.node.state.view
  once : (s.proposals.map Prod.fst).Nodup
  failed : ∀ v ∈ s.failures, v ∈ s.proposals.map Prod.fst
  leads : s.Proposed → s.node.state.leader = cfg.id
  running : s.Proposed → s.node.state.view ∉ s.failures → s.node.pending.countP Job.isRound = 0 ∧
    s.node.state.timers = 1 ∧
    (s.node.state.certMap.lookup s.node.state.view = none → s.node.state.bc.head = s.node.state.view)
  blocked : s.Proposed → s.node.state.view ∈ s.failures →
    s.node.state.certMap.lookup s.node.state.view = none ∧ s.node.state.bc.head = s.node.state.view

section Once

variable {p : Platform} {cfg : NodeConfig} {s : ProposingNode} {t : StartingNode} {n n' : SyncHS} {effect : Effect}
  {job : Job}

theorem OneRound.timers_le (one : OneRound t) : t.node.state.timers ≤ 1 := by
  have bound := one.bound
  simp only [StartingNode.rounds] at bound
  omega

theorem OneProposal.within (one : OneProposal cfg s) (round : OneRound t) (view : t.node.state.view = s.node.state.view)
    (leader : t.node.state.leader = s.node.state.leader)
    (rounds : t.node.pending.countP Job.isRound ≤ t.node.state.timers)
    (idle : s.node.pending.countP Job.isRound = 0 → s.node.state.timers = 1 →
      t.node.pending.countP Job.isRound = 0 ∧ t.node.state.timers = 1)
    (running : s.node.state.leader = cfg.id →
      (s.node.state.certMap.lookup s.node.state.view = none → s.node.state.bc.head = s.node.state.view) →
      t.node.state.certMap.lookup s.node.state.view = none → t.node.state.bc.head = s.node.state.view)
    (blocked : s.node.state.leader = cfg.id → s.node.state.view ∈ s.failures →
      s.node.state.certMap.lookup s.node.state.view = none → s.node.state.bc.head = s.node.state.view →
      t.node.state.certMap.lookup s.node.state.view = none ∧ t.node.state.bc.head = s.node.state.view) :
    OneProposal cfg ⟨t,s.proposals,s.failures⟩ := by
  have same (proposed : ProposingNode.Proposed ⟨t,s.proposals,s.failures⟩) : s.Proposed := by
    rwa [ProposingNode.Proposed, view] at proposed
  have cert : t.node.state.certMap.lookup t.node.state.view = t.node.state.certMap.lookup s.node.state.view :=
    congrArg (fun v => t.node.state.certMap.lookup v) view
  refine ⟨round,rounds,by rw [view]; exact one.past,one.once,one.failed,fun proposed => ?_,fun proposed fresh => ?_,
    fun proposed late => ?_⟩
  · exact leader.trans (one.leads (same proposed))
  · obtain ⟨none,timers,head⟩ := one.running (same proposed) (view ▸ fresh)
    obtain ⟨none',timers'⟩ := idle none timers
    refine ⟨none',timers',fun uncertified => ?_⟩
    exact (running (one.leads (same proposed)) head (cert ▸ uncertified)).trans view.symm
  · have late : s.node.state.view ∈ s.failures := view ▸ late
    obtain ⟨none,head⟩ := one.blocked (same proposed) late
    obtain ⟨none',head'⟩ := blocked (one.leads (same proposed)) late none head
    exact ⟨cert.trans none',head'.trans view.symm⟩

/-- A proposal in a view without one starts the round that the invariant speaks of. -/
theorem OneProposal.proposing (one : OneProposal cfg s) {prop : Proposal} (round : OneRound t) (unproposed : ¬s.Proposed)
    (view : t.node.state.view = s.node.state.view) (leader : t.node.state.leader = cfg.id)
    (rounds : t.node.pending.countP Job.isRound = 0) (timers : t.node.state.timers = 1)
    (head : t.node.state.bc.head = s.node.state.view) :
    OneProposal cfg ⟨t,s.proposals ++ [(s.node.state.view,prop)],s.failures⟩ := by
  have views : (s.proposals ++ [(s.node.state.view,prop)]).map Prod.fst =
      s.proposals.map Prod.fst ++ [s.node.state.view] := by simp
  refine ⟨round,by simp [rounds],?_,?_,fun v member => ?_,fun _ => leader,fun _ _ => ?_,fun _ late => ?_⟩
  · rw [views, view]
    intro v member
    rcases List.mem_append.mp member with old | new
    · exact one.past v old
    · exact (List.mem_singleton.mp new).le
  · rw [views, List.nodup_append]
    refine ⟨one.once,List.nodup_singleton _,fun v old w new => ?_⟩
    rw [List.mem_singleton.mp new]
    rintro rfl
    exact unproposed old
  · rw [views]
    exact List.mem_append_left _ (one.failed v member)
  · exact ⟨rounds,timers,fun _ => head.trans view.symm⟩
  · rw [view] at late
    exact absurd (one.failed _ late) unproposed

theorem OneProposal.worked {index : Nat} {order : List Nat} (one : OneProposal cfg s) (round : OneRound t)
    (timely : TimelyRounds cfg s (.other (.work index order)))
    (moved : (nodeMachine p cfg).step s.node (.work index order) = some t.node) :
    OneProposal cfg ⟨t,s.proposals ++ (s.node.drafts p cfg (.work index order)).map fun prop =>
      (s.node.state.view,prop),s.failures⟩ := by
  obtain ⟨job,effect,found,ran,pending⟩ := work_runs moved
  obtain ⟨aligned,late⟩ := timely job found
  have case := runJob_cases ran
  have timers : t.node.state.timers = s.node.state.timers := congrArg (fun signals => signals.2.2) case.startSignals
  have viewed := case.step.view
  have leads := case.records.leader
  have erased := countP_eraseIdx found
  have rounds : t.node.pending.countP Job.isRound = (s.node.pending.eraseIdx index).countP Job.isRound := by
    rw [pending, List.countP_append, case.noRound, Nat.add_zero]
  have bound := one.rounds
  have quiet : OneProposal cfg ⟨t,s.proposals,s.failures⟩ := by
    refine one.within round viewed leads (by omega) (fun _ _ => by omega) ?_ ?_
    · exact fun leader => case.step.chain.head_kept leader
    · exact fun leader failed none head => case.step.chain.blocked leader none head (late failed)
  cases job with
  | round =>
    have signs : s.node.drafts p cfg (.work index order) = effect.jobs.filterMap Job.proposal := by
      have started : startRound p cfg s.node.state = some (t.node.state,effect) := ran
      simp only [Node.drafts, Node.taken, found, started, Option.map_some, Option.getD_some]
    cases case with
    | started _ _ step =>
      rcases step.drafts with none | ⟨prop,new,leader,can,head,certs⟩
      · rw [signs, none, List.map_nil, List.append_nil]
        exact quiet
      · rw [signs, new]
        simp only [Job.isRound, if_true] at erased
        have unproposed : ¬s.Proposed := by
          intro proposed
          by_cases failed : s.node.state.view ∈ s.failures
          · obtain ⟨none,same⟩ := one.blocked proposed failed
            have certified := can.1
            rw [same, none] at certified
            contradiction
          · have none := (one.running proposed failed).1
            omega
        have running := round.timers_le
        refine one.proposing round unproposed viewed (leads.trans leader) (by omega) (by omega) ?_
        exact head.trans (aligned rfl leader can unproposed)
  | _ =>
    have none : s.node.drafts p cfg (.work index order) = [] := by
      simp only [Node.drafts, Node.taken, found]
    rw [none, List.map_nil, List.append_nil]
    exact quiet

theorem OneProposal.advanced {index : Nat} (one : OneProposal cfg s) (round : OneRound t)
    (moved : s.start.step p cfg (.advance index) = some t) : OneProposal cfg ⟨t,s.proposals,s.failures⟩ := by
  obtain ⟨pc,here,stepped⟩ := Option.bind_eq_some_iff.mp moved
  obtain ⟨⟨n,pc',jobs⟩,ran,same⟩ := Option.bind_eq_some_iff.mp stepped
  obtain rfl := Option.some.inj same
  obtain ⟨⟨view,leader,bc,certs⟩,timers,starts⟩ := CommandPc.step_rounds ran
  have rounds := one.rounds
  have counted : (s.node.pending ++ jobs).countP Job.isRound =
      s.node.pending.countP Job.isRound + jobs.countP Job.isRound := List.countP_append
  have running (busy : s.node.state.timers = 1) : jobs.countP Job.isRound = 0 := by
    rcases starts with rfl | starts
    · rfl
    · have clear := one.round.clear here starts
      simp only [ProposingNode.node] at busy
      omega
  refine one.within round view leader ?_ (fun none busy => ?_) (fun _ head => ?_) fun _ _ none head => ?_
  · change (s.node.pending ++ jobs).countP Job.isRound ≤ n.timers
    simp only [ProposingNode.node] at rounds counted ⊢
    omega
  · have idle := running busy
    change (s.node.pending ++ jobs).countP Job.isRound = 0 ∧ n.timers = 1
    simp only [ProposingNode.node] at none busy counted ⊢
    omega
  · change n.certMap.lookup _ = none → n.bc.head = _
    rwa [certs, bc]
  · change n.certMap.lookup _ = Option.none ∧ n.bc.head = _
    rw [certs, bc]
    exact ⟨none,head⟩

-- the callback finds no certificate: a proposal of the view has failed, and stays blocked
theorem OneProposal.fails (one : OneProposal cfg s) (round : OneRound t)
    (rounds : t.node.pending.countP Job.isRound ≤ t.node.state.timers) (stays : ¬s.node.state.advances)
    (view : t.node.state.view = s.node.state.view) (leader : t.node.state.leader = s.node.state.leader)
    (certs : t.node.state.certMap = s.node.state.certMap) (bc : t.node.state.bc = s.node.state.bc) :
    OneProposal cfg ⟨t,s.proposals,s.failuresAfter (.other .callback)⟩ := by
  have uncertified : s.node.state.certMap.lookup s.node.state.view = none := by
    by_contra present
    exact stays (Or.inr (Or.inr (Option.isSome_iff_ne_none.mpr present)))
  have same (proposed : ProposingNode.Proposed ⟨t,s.proposals,s.failuresAfter (.other .callback)⟩) : s.Proposed := by
    rwa [ProposingNode.Proposed, view] at proposed
  have late (proposed : s.Proposed) : s.node.state.view ∈ s.failuresAfter (.other .callback) := by
    rw [show s.failuresAfter (.other .callback) = s.failures ++ [s.node.state.view] from if_pos ⟨proposed,stays⟩]
    exact List.mem_append_right _ (List.mem_singleton_self _)
  refine ⟨round,rounds,view ▸ one.past,one.once,?_,fun proposed => leader.trans (one.leads (same proposed)),
    fun proposed fresh => absurd (view ▸ late (same proposed)) fresh,fun proposed _ => ?_⟩
  · intro v member
    simp only [ProposingNode.failuresAfter] at member
    split at member
    next both =>
      rcases List.mem_append.mp member with old | new
      · exact one.failed v old
      · rw [List.mem_singleton.mp new]
        exact both.1
    next => exact one.failed v member
  · change t.node.state.certMap.lookup t.node.state.view = none ∧ t.node.state.bc.head = t.node.state.view
    rw [view, certs, bc]
    refine ⟨uncertified,?_⟩
    by_cases failed : s.node.state.view ∈ s.failures
    · exact (one.blocked (same proposed) failed).2
    · exact (one.running (same proposed) failed).2.2 uncertified

theorem OneProposal.leaves (one : OneProposal cfg s) (round : OneRound t)
    (rounds : t.node.pending.countP Job.isRound ≤ t.node.state.timers) (moves : s.node.state.advances)
    (view : t.node.state.view = s.node.state.view + 1) :
    OneProposal cfg ⟨t,s.proposals,s.failuresAfter (.other .callback)⟩ := by
  have unfailed : s.failuresAfter (.other .callback) = s.failures := if_neg fun both => both.2 moves
  have unproposed : ¬ProposingNode.Proposed ⟨t,s.proposals,s.failures⟩ := by
    intro member
    rw [ProposingNode.Proposed, view] at member
    have := one.past _ member
    omega
  rw [unfailed]
  refine ⟨round,rounds,fun v member => ?_,one.once,one.failed,fun proposed => absurd proposed unproposed,
    fun proposed => absurd proposed unproposed,fun proposed => absurd proposed unproposed⟩
  have := one.past v member
  rw [view]
  omega

theorem OneProposal.calledBack (one : OneProposal cfg s) (round : OneRound t)
    (idle : ∀ job ∈ s.node.pending, job.isRound = false)
    (moved : (nodeMachine p cfg).step s.node .callback = some t.node) :
    OneProposal cfg ⟨t,s.proposals,s.failuresAfter (.other .callback)⟩ := by
  have none : s.node.pending.countP Job.isRound = 0 := by
    rw [List.countP_eq_zero]
    exact fun job member => by simp [idle job member]
  obtain ⟨_,case⟩ := nodeMachine_cases moved
  generalize after : t.node = node at case
  cases case with
  | calledBack n' acks case =>
    have rounds : t.node.pending.countP Job.isRound ≤ t.node.state.timers := by
      rw [after]
      exact none.le.trans (Nat.zero_le _)
    cases case with
    | kept counters stays => refine one.fails round rounds stays ?_ ?_ ?_ ?_ <;> rw [after]
    | advanced b counters moves _ => exact one.leaves round rounds moves (by rw [after]; rfl)

theorem OneProposal.step {e : StartEvent} {s' : ProposingNode} (one : OneProposal cfg s)
    (enabled : s.start.enabled cfg e) (timely : TimelyRounds cfg s e) (moved : s.step p cfg e = some s') :
    OneProposal cfg s' := by
  obtain ⟨t,stepped,rfl⟩ := Option.map_eq_some_iff.mp moved
  have alone : TestsAlone s.start e := by
    cases e with
    | other e => trivial
    | spawn _ | advance _ => exact timely
  have round := one.round.step enabled alone stepped
  cases e with
  | spawn cmd =>
    obtain rfl := Option.some.inj stepped
    change OneProposal cfg ⟨_,s.proposals ++ [],s.failures⟩
    rw [List.append_nil]
    exact one.within round rfl rfl one.rounds (fun none timers => ⟨none,timers⟩) (fun _ head => head)
      fun _ _ none head => ⟨none,head⟩
  | advance index =>
    change OneProposal cfg ⟨_,s.proposals ++ [],s.failures⟩
    rw [List.append_nil]
    exact one.advanced round stepped
  | other e =>
    obtain ⟨node,acted,rfl⟩ := Option.map_eq_some_iff.mp stepped
    cases e with
    | work index order => exact one.worked round timely acted
    | command cmd => exact enabled.elim
    | callback =>
      change OneProposal cfg ⟨_,s.proposals ++ [],s.failuresAfter (.other .callback)⟩
      rw [List.append_nil]
      exact one.calledBack round timely acted
    | connect =>
      obtain rfl := Option.some.inj acted
      change OneProposal cfg ⟨_,s.proposals ++ [],s.failures⟩
      rw [List.append_nil]
      exact one.within round rfl rfl one.rounds (fun none timers => ⟨none,timers⟩) (fun _ head => head)
        fun _ _ none head => ⟨none,head⟩
    | receive m =>
      obtain rfl := Option.some.inj acted
      have counted : (s.node.pending ++ protocol cfg s.node.state m).countP Job.isRound =
          s.node.pending.countP Job.isRound := by
        rw [List.countP_append, protocol_noRound, Nat.add_zero]
      change OneProposal cfg ⟨_,s.proposals ++ [],s.failures⟩
      rw [List.append_nil]
      exact one.within round rfl rfl (counted ▸ one.rounds) (fun none timers => ⟨counted.trans none,timers⟩)
        (fun _ head => head) fun _ _ none head => ⟨none,head⟩

theorem OneProposal.initial (cfg : NodeConfig) : OneProposal cfg ⟨.init,[],[]⟩ := by
  have unproposed : ¬ProposingNode.Proposed ⟨.init,[],[]⟩ := List.not_mem_nil
  exact ⟨.init,Nat.zero_le _,by simp,by simp,by simp,fun proposed => absurd proposed unproposed,
    fun proposed => absurd proposed unproposed,fun proposed => absurd proposed unproposed⟩

/-- In every run in which no goroutine tests the flag of the first round between the test and the
reset of another, the goroutine of a round runs before its timer fires, the first proposal of a
view has the height of the view, and no certificate is stored for a view whose callback has found
none for the proposal, `Propose` signs at most one proposal in a view. -/
theorem proposes_once_per_view {trace : List StartEvent}
    (run : ((proposingMachine p cfg).restrict (TimelyRounds cfg)).Run ⟨.init,[],[]⟩ trace s) :
    (s.proposals.map Prod.fst).Nodup := by
  have one : OneProposal cfg s := by
    refine run.invariant (I := OneProposal cfg) (.initial cfg) ?_
    intro s e t one admitted moved
    exact one.step admitted.1 admitted.2 moved
  exact one.once

end Once

/-- A client command whose goroutine runs to its end before anything else happens. -/
def wholeCommand (index : Nat) (cmd : Bytes) (instructions : Nat) : List StartEvent :=
  .spawn cmd :: List.replicate instructions (.advance index)

/-- The leader of two proposes, fails and starts another round without proposing again. -/
theorem failed_leader_waits : ∃ s : ProposingNode, s.failures = [1] ∧ s.proposals ≠ [] ∧
    (s.proposals.map Prod.fst).Nodup := by
  obtain ⟨s,run,failed,proposed⟩ := Guarded.Machine.reaches
    (fun s : ProposingNode => s.failures = [1] ∧ s.proposals ≠ [])
    (show (((proposingMachine transparent leaderOfTwo).restrict (TimelyRounds leaderOfTwo)).replay
      (.other .connect :: wholeCommand 0 [1] 6 ++ [.other (.work 0 []),.other .callback] ++ wholeCommand 1 [2] 6 ++
        [.other (.work 1 [])]) ⟨.init,[],[]⟩).any _ = true by decide +kernel)
  exact ⟨s,failed,proposed,proposes_once_per_view run⟩

/-- The timer of the leader of two fires before the forward and the vote of the other node
arrive; they certify the block of the failed round, and the next round proposes again. -/
def lateCertificate : List StartEvent :=
  .other .connect :: wholeCommand 0 [1] 6 ++ ([.work 0 [],.callback,
    .receive (.prop (signForward transparent (.complete 2 1 true .plain 1) firstOfTwo)),.work 1 [],
    .work 1 [],.receive (.vote voteForFirst),.work 1 [0,1],.work 1 []] : List NodeEvent).map .other ++
    wholeCommand 1 [2] 6 ++ [.other (.work 1 [])]

theorem leader_proposes_twice : ∃ s : ProposingNode,
    (proposingMachine transparent leaderOfTwo).Run ⟨.init,[],[]⟩ lateCertificate s ∧
    s.proposals.map Prod.fst = [1,1] ∧ ∃ first ∈ s.proposals, ∃ second ∈ s.proposals,
      first.2.getHeader ≠ second.2.getHeader :=
  Guarded.Machine.reaches _
    (show ((proposingMachine transparent leaderOfTwo).replay lateCertificate ⟨.init,[],[]⟩).any _ = true by
      decide +kernel)

end ReputationSMR

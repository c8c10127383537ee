import ReputationSMR.EvidenceReach
import ReputationSMR.FailedRounds
import ReputationSMR.MessageSafety

/-! What makes reputations agree. The records of a view are what the jobs that the node took up in that view
have shown it: the votes, forwards and evidence that pass the checks of their handlers, its own votes and the
rounds of the timer. Honest nodes that have been shown the same of each view therefore hold the same reputations, in
whatever order and however often they were shown it. -/
namespace ReputationSMR

open Wire FiniteMap

/-! ## What a job shows -/

/-- The forward passes the checks, agrees with the first one of the view and completes the set. -/
def SyncHS.Fills (p : Platform) (cfg : NodeConfig) (n : SyncHS) (fprop : Proposal) : Prop :=
  n.CountsForward p cfg fprop ∧ cfg.pMap.card ≤ size (n.forwardsWith fprop)

/-- The vote names the leader as the owner of its block, and it is the node's own or its voter has signed it. -/
def SyncHS.Admits (p : Platform) (cfg : NodeConfig) (n : SyncHS) (v : ProtoVote) : Prop :=
  ∃ d ∈ v.data, d.owner = n.leader ∧ (v.getVoter = cfg.id ∨ isVoteValid p cfg v = some true)

instance (p : Platform) (cfg : NodeConfig) (n : SyncHS) (fprop : Proposal) : Decidable (n.Fills p cfg fprop) :=
  inferInstanceAs (Decidable (_ ∧ _))

instance (p : Platform) (cfg : NodeConfig) (n : SyncHS) (v : ProtoVote) : Decidable (n.Admits p cfg v) :=
  inferInstanceAs (Decidable (∃ d ∈ v.data, _))

namespace Misbehaviour

def behaviour : Misbehaviour → Behaviour
  | proposal _ => .maliproposal
  | vote _ => .maliVote

theorem map_behaviour (m : Misbehaviour) (n : SyncHS) : m.map n = n.behaviour m.behaviour := by
  cases m <;> rfl

/-- Evidence shows its culprit, unless its target is another node and that one is on record already. -/
def shows (p : Platform) (cfg : NodeConfig) (n : SyncHS) (m : Misbehaviour) : List (Behaviour × Nat) :=
  if m.valid p cfg n = some true ∧ (m.target = m.culprit ∨ ∀ t ∈ m.target, t ∉ row (m.map n) n.view) then
    m.culprit.toList.map fun i => (m.behaviour,i)
  else []

end Misbehaviour

/-- Who is shown to have behaved how, by a job and the checks that its handler makes of it. -/
def Job.shows (p : Platform) (cfg : NodeConfig) (n : SyncHS) : Job → List (Behaviour × Nat)
  | .proposed _ => [(.proposal,n.leader)]
  | .proposeChannel fprop =>
    if n.Fills p cfg fprop then [if cfg.id = n.leader then (.vote,cfg.id) else (.proposal,n.leader)] else []
  | .voteChannel v => if n.Admits p cfg v then [(.vote,v.getVoter)] else []
  | .vote _ => [(.vote,cfg.id)]
  | .eqEvidenceChannel e =>
    if isEqpEvidenceValid p cfg n e = some true ∧ (n.certMap.lookup n.bc.head).isSome then [(.equiproposal,n.leader)] else []
  | .maliProEvidenceChannel e => (Misbehaviour.proposal e).shows p cfg n
  | .maliVoteEvidenceChannel e => (Misbehaviour.vote e).shows p cfg n
  | .round =>
    if cfg.timerMode = .withhold ∧ n.leader % 2 ≠ 0 ∧ (n.certMap.lookup n.bc.head).isSome then [(.withproposal,n.leader)]
    else []
  | _ => []

/-! ## A handler records what it is shown -/

/-- The records gain what is shown in the view, and nothing else. -/
def Learns (n n' : SyncHS) (shown : List (Behaviour × Nat)) : Prop :=
  ∀ r v i, n'.Recorded r v i ↔ n.Recorded r v i ∨ v = n.view ∧ (r,i) ∈ shown

/-- Every vote in a pool has been credited. -/
def SyncHS.PoolsCredited (n : SyncHS) : Prop := ∀ view, ∀ i ∈ n.pool view, n.Recorded .vote view i

section Handlers

variable {p : Platform} {cfg : NodeConfig} {n n' : SyncHS} {effect : Effect} {order : List Nat} {size : Nat}

theorem Learns.known (same : ∀ r, n'.behaviour r = n.behaviour r) {shown : List (Behaviour × Nat)}
    (known : ∀ r i, (r,i) ∈ shown → n.Recorded r n.view i) : Learns n n' shown := by
  intro r v i
  rw [SyncHS.Recorded, same r]
  constructor
  · exact Or.inl
  · rintro (old | ⟨rfl,member⟩)
    · exact old
    · exact known r i member

theorem Learns.nothing (same : ∀ r, n'.behaviour r = n.behaviour r := by intro r; cases r <;> rfl) : Learns n n' [] :=
  .known same fun _ _ member => absurd member List.not_mem_nil

theorem Learns.one (r : Behaviour) (i : Nat)
    (entry : ∀ v j, at2 (n'.behaviour r) v j = some 1 ↔ at2 (n.behaviour r) v j = some 1 ∨ v = n.view ∧ j = i)
    (others : ∀ r', r' ≠ r → n'.behaviour r' = n.behaviour r' := by
      intro r' other
      cases r' <;> first | rfl | contradiction) : Learns n n' [(r,i)] := by
  intro r' v j
  simp only [List.mem_singleton, Prod.mk.injEq]
  by_cases same : r' = r
  · subst same
    simpa [SyncHS.Recorded] using entry v j
  · rw [SyncHS.Recorded, others r' same]
    simp [same, SyncHS.Recorded]

theorem at2_put2_iff (m : BehaviourMap) (view i v j : Nat) :
    at2 (put2 m view i 1) v j = some 1 ↔ at2 m v j = some 1 ∨ v = view ∧ j = i := by
  rw [at2_put2]
  split
  next here => simp [here]
  next other => simp [other]

/-- The row that is replaced has no other entry than the one it gets. -/
theorem at2_recordLeader_iff (rows : n.LeaderRows) {r : Behaviour} (shared : r.ofLeader = true) (v j : Nat) :
    at2 (SyncHS.recordLeader (n.behaviour r) n.view n.leader) v j = some 1 ↔
      at2 (n.behaviour r) v j = some 1 ∨ v = n.view ∧ j = n.leader := by
  rw [at2_recordLeader]
  split
  next recorded =>
    refine ⟨Or.inl,?_⟩
    rintro (old | ⟨rfl,rfl⟩)
    · exact old
    · exact recorded
  next =>
    split
    next here =>
      subst here
      have leads (entry : at2 (n.behaviour r) n.view j = some 1) : j = n.leader :=
        ((rows r n.view j 1 shared entry).resolve_left (lt_irrefl _)).2
      split
      next same => simp [same]
      next other => simpa [other] using mt leads other
    next other => simp [other]

theorem ForwardStep.learns (rows : n.LeaderRows) {fprop : Proposal} (step : ForwardStep p cfg n fprop n' effect) :
    Learns n n' (Job.shows p cfg n (.proposeChannel fprop)) := by
  have fills {ep : ExtProposal} (accepted : Accepted p cfg n fprop ep) (agrees : AgreesWithFirst p n ep)
      (full : cfg.pMap.card ≤ FiniteMap.size (n.forwardsWith fprop)) : n.Fills p cfg fprop := by
    rw [AgreesWithFirst, ExtProposal.fromProto_proposal accepted.decoded] at agrees
    obtain ⟨ep2,decoded,same⟩ := agrees
    exact ⟨⟨accepted.unflagged,ep,accepted.decoded,accepted.checked,ep2,decoded,same⟩,full⟩
  cases step with
  | flagged flag =>
    rw [Job.shows, if_neg]
    · exact .nothing
    · rintro ⟨⟨unflagged,_⟩,_⟩
      simp [flag] at unflagged
  | refused ep _ decoded checked =>
    rw [Job.shows, if_neg]
    · exact .nothing
    · rintro ⟨⟨_,ep',decoded',checked',_⟩,_⟩
      obtain rfl := Option.some.inj (decoded.symm.trans decoded')
      simp [checked] at checked'
  | conflict ep ep2 accepted decoded differ =>
    rw [Job.shows, if_neg]
    · exact .nothing
    · rintro ⟨⟨_,ep',decoded',_,ep2',second,same⟩,_⟩
      obtain rfl := Option.some.inj (accepted.decoded.symm.trans decoded')
      obtain rfl := Option.some.inj (decoded.symm.trans second)
      exact differ same
  | counted ep accepted _ short =>
    rw [Job.shows, if_neg]
    · exact .nothing
    · rintro ⟨_,full⟩
      omega
  | leads ep accepted agrees full leader =>
    rw [Job.shows, if_pos (fills accepted agrees full), if_pos leader]
    exact .one .vote cfg.id (at2_put2_iff _ _ _)
  | follows ep accepted agrees full follower =>
    rw [Job.shows, if_pos (fills accepted agrees full), if_neg follower]
    exact .one .proposal n.leader (at2_recordLeader_iff (r := .proposal) rows rfl)

theorem VoteStep.learns (credited : n.PoolsCredited) {v : ProtoVote} (step : VoteStep p cfg n v order n' effect) :
    Learns n n' (Job.shows p cfg n (.voteChannel v)) := by
  cases step with
  | foreign d found other =>
    rw [Job.shows, if_neg]
    · exact .nothing
    · rintro ⟨d',found',owner,_⟩
      obtain rfl := Option.some.inj (found.symm.trans found')
      exact other owner
  | dropped d found owner reason =>
    refine .known (openPool_behaviour n n.view) ?_
    intro r i member
    rw [Job.shows] at member
    split at member
    next admitted =>
      obtain ⟨rfl,rfl⟩ := Prod.mk.inj (List.mem_singleton.mp member)
      obtain ⟨_,_,_,stands⟩ := admitted
      rcases reason with twice | ⟨other,invalid⟩
      · exact credited n.view _ twice
      · simp [other, invalid] at stands
    next => contradiction
  | counted d n' effect joins counted =>
    rw [Job.shows, if_pos ⟨d,joins.data,joins.owner,joins.valid⟩]
    have opened := openPool_behaviour n n.view
    have entry (w j : Nat) : at2 ((n.openPool n.view).credit v).voteMap w j = some 1 ↔
        at2 n.voteMap w j = some 1 ∨ w = n.view ∧ j = v.getVoter := by
      refine (at2_put2_iff _ _ _ w j).trans ?_
      rw [openPool_view, show (n.openPool n.view).voteMap = n.voteMap from opened .vote]
    cases counted <;> exact .one .vote v.getVoter entry fun r' other => by
      rw [← opened r']
      cases r' <;> first | rfl | contradiction

theorem RoundCase.learns (rows : n.LeaderRows) (ran : startRound p cfg n = some (n',effect)) :
    Learns n n' (Job.shows p cfg n .round) := by
  have others (case : RoundCase p cfg n n' effect) (present : ¬(cfg.timerMode = .withhold ∧ n.leader % 2 ≠ 0)) :
      Learns n n' (Job.shows p cfg n .round) := by
    rw [Job.shows, if_neg fun shown => present ⟨shown.1,shown.2.1⟩]
    cases case with
    | withholds mode odd => exact absurd ⟨mode,odd⟩ present
    | _ => exact .nothing
  by_cases withheld : cfg.timerMode = .withhold ∧ n.leader % 2 ≠ 0
  · simp only [startRound, withheld.1, if_pos withheld.2] at ran
    obtain ⟨rfl,_⟩ := Prod.mk.inj (Option.some.inj ran)
    simp only [handleWithholdingProposal, SyncHS.getCertForBlockIndex]
    cases found : n.certMap.lookup n.bc.head with
    | none =>
      rw [Job.shows, if_neg fun shown => by simp [found] at shown]
      exact .nothing
    | some cert =>
      rw [Job.shows, if_pos ⟨withheld.1,withheld.2,by rw [found]; rfl⟩]
      exact .one .withproposal n.leader (at2_recordLeader_iff (r := .withproposal) rows rfl)
  · exact others (startRound_cases ran) withheld

theorem equivocation_learns (rows : n.LeaderRows) {e : EquivocationEvidence}
    (ran : equivocationEvidenceHandler p cfg n e = some (n',effect)) :
    Learns n n' (Job.shows p cfg n (.eqEvidenceChannel e)) := by
  simp only [equivocationEvidenceHandler, SyncHS.getCertForBlockIndex] at ran
  split at ran
  next recorded =>
    obtain ⟨rfl,_⟩ := Prod.mk.inj (Option.some.inj ran)
    refine .known (fun _ => rfl) fun r i member => ?_
    rw [Job.shows] at member
    split at member
    next =>
      obtain ⟨rfl,rfl⟩ := Prod.mk.inj (List.mem_singleton.mp member)
      exact recorded
    next => contradiction
  next =>
    split at ran
    next => contradiction
    next refused =>
      obtain ⟨rfl,_⟩ := Prod.mk.inj (Option.some.inj ran)
      rw [Job.shows, if_neg fun shown => by simp [refused] at shown]
      exact .nothing fun _ => rfl
    next valid =>
      split at ran
      next uncertified =>
        obtain ⟨rfl,_⟩ := Prod.mk.inj (Option.some.inj ran)
        rw [Job.shows, if_neg fun shown => by simp [uncertified] at shown]
        exact .nothing fun _ => rfl
      next cert found =>
        obtain ⟨rfl,_⟩ := Prod.mk.inj (Option.some.inj ran)
        rw [Job.shows, if_pos ⟨valid,by rw [found]; rfl⟩]
        exact .one .equiproposal n.leader (at2_recordLeader_iff (r := .equiproposal) rows rfl)

theorem Misbehaviour.learns (orderly : n.Orderly size) {m : Misbehaviour} (ran : m.handle p cfg n = some (n',effect)) :
    Learns n n' (m.shows p cfg n) := by
  by_cases valid : m.valid p cfg n = some true
  · obtain ⟨t,i,target,culprit,same⟩ := Misbehaviour.handle_accepts orderly.searched valid
    obtain ⟨rfl,_⟩ := Prod.mk.inj (Option.some.inj (ran.symm.trans same))
    simp only [Misbehaviour.shows, valid, target, culprit, true_and, Option.some.injEq, Option.mem_def, forall_eq',
      Option.toList_some, List.map_cons, List.map_nil]
    split
    next seen =>
      -- The entry of the target is a one, so the culprit is on record if it is the target.
      refine .known (fun _ => rfl) fun r j member => ?_
      split at member
      next shown =>
        obtain rfl := shown.resolve_right (not_not.mpr seen)
        obtain ⟨rfl,rfl⟩ := Prod.mk.inj (List.mem_singleton.mp member)
        obtain ⟨y,found⟩ := Finmap.mem_iff.mp seen
        have entry := (at2_eq_row _ _ _).trans found
        rw [m.map_behaviour] at entry
        obtain rfl := orderly.ones _ _ _ _ entry
        exact entry
      next => contradiction
    next fresh =>
      rw [if_pos (Or.inr fresh)]
      cases m with
      | proposal e => exact .one .maliproposal i (at2_put2_iff _ _ _)
      | vote e => exact .one .maliVote i (at2_put2_iff _ _ _)
  · have rests := Misbehaviour.handle_unless valid
    rw [ran] at rests
    obtain ⟨_,_,rfl⟩ := Option.map_eq_some_iff.mp rests.symm
    rw [Misbehaviour.shows, if_neg fun shown => valid shown.1]
    exact .nothing fun _ => rfl

theorem runJob_learns (orderly : n.Orderly size) (credited : n.PoolsCredited) {job : Job}
    (ran : runJob p cfg n order job = some (n',effect)) : Learns n n' (job.shows p cfg n) := by
  cases job with
  | eqEvidenceChannel e => exact equivocation_learns orderly.rows ran
  | maliProEvidenceChannel e => exact Misbehaviour.learns (m := .proposal e) orderly ran
  | maliVoteEvidenceChannel e => exact Misbehaviour.learns (m := .vote e) orderly ran
  | round => exact RoundCase.learns orderly.rows ran
  | proposeChannel fprop =>
    cases runJob_cases ran with
    | read _ _ _ step => exact step.learns orderly.rows
  | voteChannel v =>
    cases runJob_cases ran with
    | voteHandled _ _ _ step => exact step.learns credited
  | proposed prop =>
    cases runJob_cases ran with
    | announced _ => exact .one .proposal n.leader (at2_recordLeader_iff (r := .proposal) orderly.rows rfl)
  | vote ep =>
    cases runJob_cases ran with
    | voted _ _ | misvoted _ _ _ => exact .one .vote cfg.id (at2_put2_iff _ _ _)
  | forward _ | maliPropseChannel _ | addCert _ _ | sendEqProEvidence _ _ | sendMalivoteEvidence _ =>
    cases runJob_cases ran <;> exact .nothing

end Handlers

/-! ## What a node keeps -/

/-- A row that is there has an entry. -/
def SyncHS.RowsFilled (n : SyncHS) : Prop := ∀ r v inner, (n.behaviour r).lookup v = some inner → ∃ i, i ∈ inner

section Nodes

variable {p : Platform} {cfg : NodeConfig} {node node' : Node} {event : NodeEvent} {sends : List Outgoing}

theorem Wrote.filled {n : SyncHS} {r : Behaviour} {m : BehaviourMap} (wrote : Wrote n r m) (filled : n.RowsFilled) {v : Nat}
    {inner : Map Nat Nat} (found : m.lookup v = some inner) : ∃ i, i ∈ inner := by
  cases wrote with
  | nothing => exact filled r v inner found
  | leader _ =>
    rw [SyncHS.recordLeader] at found
    split at found
    next => exact filled r v inner found
    next =>
      rw [lookup_insert] at found
      split at found
      next =>
        obtain rfl := Option.some.inj found
        exact ⟨n.leader,Finmap.mem_insert.mpr (Or.inl rfl)⟩
      next => exact filled r v inner found
  | node i _ =>
    rw [put2, lookup_insert] at found
    split at found
    next =>
      obtain rfl := Option.some.inj found
      exact ⟨i,Finmap.mem_insert.mpr (Or.inl rfl)⟩
    next => exact filled r v inner found

theorem NodeCase.filled (case : NodeCase p cfg node event node' sends) (filled : node.state.RowsFilled) :
    node'.state.RowsFilled := by
  intro r v inner found
  cases case with
  | connected => exact filled r v inner (by cases r <;> exact found)
  | commanded cmd n' jobs case => cases case; exact filled r v inner (by cases r <;> exact found)
  | received m => exact filled r v inner found
  | worked index order job n' jobs sends _ case => exact (case.records.wrote r).filled filled found
  | calledBack n' acks case => cases case <;> exact filled r v inner (by cases r <;> exact found)

theorem JobCase.credited {n n' : SyncHS} {effect : Effect} {order : List Nat} {job : Job}
    (case : JobCase p cfg n order job n' effect) (learns : Learns n n' (job.shows p cfg n)) (credited : n.PoolsCredited) :
    n'.PoolsCredited := by
  intro view i member
  have kept (pools : ∀ view, n'.pool view = n.pool view) : n'.Recorded .vote view i :=
    (learns .vote view i).mpr (Or.inl (credited view i (pools view ▸ member)))
  cases held : job.heldVote with
  | none =>
    refine kept fun view => ?_
    rw [SyncHS.pool, (case.votes held).1, SyncHS.pool]
  | some v =>
    cases case with
    | voteHandled _ _ _ step =>
      rcases step.pools with same | ⟨d,joins,_,grown⟩
      · exact kept same
      · refine (learns .vote view i).mpr ?_
        rw [grown] at member
        split at member
        next here =>
          rcases Finmap.mem_insert.mp member with rfl | old
          · refine Or.inr ⟨here,?_⟩
            rw [Job.shows, if_pos ⟨d,joins.data,joins.owner,joins.valid⟩]
            exact List.mem_singleton.mpr rfl
          · exact Or.inl (credited view i (here ▸ old))
        next => exact Or.inl (credited view i member)
    | _ => contradiction

theorem Node.step_learns {size index : Nat} {order : List Nat} {job : Job} (orderly : node.state.Orderly size)
    (credited : node.state.PoolsCredited) (found : node.pending[index]? = some job)
    (stepped : node.step p cfg (.work index order) = some (node',sends)) :
    Learns node.state node'.state (job.shows p cfg node.state) := by
  simp only [Node.step, found] at stepped
  obtain ⟨⟨n',effect⟩,ran,same⟩ := Option.map_eq_some_iff.mp stepped
  obtain ⟨rfl,_⟩ := Prod.mk.inj same
  exact runJob_learns orderly credited ran

theorem Node.step_credited {size : Nat} (orderly : node.state.Orderly size) (credited : node.state.PoolsCredited)
    (stepped : node.step p cfg event = some (node',sends)) : node'.state.PoolsCredited := by
  cases node_cases stepped with
  | connected | received _ => exact credited
  | commanded cmd n' jobs case => cases case; exact credited
  | worked index order job n' jobs sends found case =>
    exact case.credited (Node.step_learns orderly credited found stepped) credited
  | calledBack n' acks case => cases case <;> exact credited

theorem run_credited {trace : List NodeEvent} (run : (nodeMachine p cfg).Run .init trace node) :
    node.state.PoolsCredited := by
  refine run.history (I := fun _ node => node.state.PoolsCredited) ?_ ?_
  · intro view i member
    exact absurd member Finmap.notMem_empty
  · intro past node event node' run credited _ moved
    obtain ⟨⟨_,sends⟩,stepped,rfl⟩ := Option.map_eq_some_iff.mp moved
    exact Node.step_credited (run_orderly run) credited stepped

theorem run_filled {trace : List NodeEvent} (run : (nodeMachine p cfg).Run .init trace node) : node.state.RowsFilled := by
  refine run.invariant (I := fun node => node.state.RowsFilled) ?_ ?_
  · intro r v inner found
    cases r <;> contradiction
  · intro node event node' filled _ moved
    obtain ⟨_,case⟩ := nodeMachine_cases moved
    exact case.filled filled

end Nodes

/-! ## Runs -/

/-- Node `node` was shown in view `view` that node `who` behaved so. -/
structure Sighting where
  node : Nat
  view : Nat
  behaviour : Behaviour
  who : Nat
  deriving DecidableEq

/-- What the event shows to the node that takes up a job. -/
def System.shows (c : Cluster) (p : Platform) (s : System) : SystemEvent → List Sighting
  | .work i index _ =>
    match (s.nodes i).pending[index]? with
    | some job => (job.shows p (c.config i) (s.nodes i).state).map fun x => ⟨i,(s.nodes i).state.view,x.1,x.2⟩
    | none => []
  | _ => []

def sightingMachine (c : Cluster) (p : Platform) : Guarded.Machine (Guarded.Machine.Logged System Sighting) SystemEvent :=
  (systemMachine c p).observed fun s e _ => s.shows c p e

/-- What a node was shown in a view, regardless of order and repetition. -/
def sightings (log : List Sighting) (node view : Nat) : Finset (Behaviour × Nat) :=
  ((log.filter fun x => x.node = node ∧ x.view = view).map fun x => (x.behaviour,x.who)).toFinset

/-- The condition: a node that ends a view was shown the same in it as the honest nodes that have ended it before,
and clients connect in the first view. -/
def ShownAlike (c : Cluster) (s : Guarded.Machine.Logged System Sighting) : SystemEvent → Prop
  | .callback i => (s.state.nodes i).state.advances → ∀ j ∈ c.honestNodes,
      (s.state.nodes i).state.view < (s.state.nodes j).state.view →
      sightings s.log i (s.state.nodes i).state.view = sightings s.log j (s.state.nodes i).state.view
  | .connect i => (s.state.nodes i).state.view = 1
  | _ => True

instance (c : Cluster) (s : Guarded.Machine.Logged System Sighting) (e : SystemEvent) : Decidable (ShownAlike c s e) :=
  match e with
  | .callback i => inferInstanceAs (Decidable ((s.state.nodes i).state.advances → _))
  | .connect i => inferInstanceAs (Decidable ((s.state.nodes i).state.view = 1))
  | .command _ _ | .deliver _ | .work _ _ _ | .inject _ _ => isTrue trivial

instance (c : Cluster) (p : Platform) (s : Guarded.Machine.Logged System Sighting) (e : SystemEvent) :
    Decidable ((sightingMachine c p).enabled s e) :=
  inferInstanceAs (Decidable ((systemMachine c p).enabled s.state e))

/-- The records of a node are what it has been shown. -/
def Noted (s : Guarded.Machine.Logged System Sighting) : Prop :=
  ∀ i r v x, (s.state.nodes i).state.Recorded r v x ↔ ⟨i,v,r,x⟩ ∈ s.log

section Runs

variable {c : Cluster} {p : Platform} {s t : Guarded.Machine.Logged System Sighting} {e : SystemEvent}

theorem mem_sightings {log : List Sighting} {node view : Nat} {r : Behaviour} {x : Nat} :
    (r,x) ∈ sightings log node view ↔ ⟨node,view,r,x⟩ ∈ log := by
  simp only [sightings, List.mem_toFinset, List.mem_map, List.mem_filter, decide_eq_true_eq, Prod.mk.injEq]
  constructor
  · rintro ⟨⟨_,_,_,_⟩,⟨member,rfl,rfl⟩,rfl,rfl⟩
    exact member
  · intro member
    exact ⟨_,⟨member,rfl,rfl⟩,rfl,rfl⟩

theorem System.mem_shows_work {s : System} {i index v x : Nat} {order : List Nat} {r : Behaviour} {job : Job}
    (found : (s.nodes i).pending[index]? = some job) : ⟨i,v,r,x⟩ ∈ s.shows c p (.work i index order) ↔
      v = (s.nodes i).state.view ∧ (r,x) ∈ job.shows p (c.config i) (s.nodes i).state := by
  simp only [System.shows, found, List.mem_map, Sighting.mk.injEq, true_and]
  constructor
  · rintro ⟨⟨_,_⟩,shown,rfl,rfl,rfl⟩
    exact ⟨rfl,shown⟩
  · rintro ⟨rfl,shown⟩
    exact ⟨_,shown,rfl,rfl,rfl⟩

theorem System.shows_node {s : System} {x : Sighting} (shown : x ∈ s.shows c p e) :
    ∃ index order, e = .work x.node index order := by
  cases e with
  | work i index order =>
    simp only [System.shows] at shown
    split at shown
    next =>
      obtain ⟨_,_,rfl⟩ := List.mem_map.mp shown
      exact ⟨index,order,rfl⟩
    next => contradiction
  | _ => contradiction

theorem NodeCase.unseen {cfg : NodeConfig} {node node' : Node} {event : NodeEvent} {sends : List Outgoing}
    (case : NodeCase p cfg node event node' sends) (idle : ∀ index order, event ≠ .work index order) (r : Behaviour) :
    node'.state.behaviour r = node.state.behaviour r := by
  cases case with
  | connected => cases r <;> rfl
  | commanded cmd n' jobs case => cases case; cases r <;> rfl
  | received _ => rfl
  | worked index order _ _ _ _ _ _ => exact absurd rfl (idle index order)
  | calledBack n' acks case => cases case <;> cases r <;> rfl

theorem Noted.step {past : List SystemEvent} (run : (systemMachine c p).Run (System.start c) past s.state) (noted : Noted s)
    (moved : (sightingMachine c p).step s e = some t) : Noted t := by
  obtain ⟨stepped,log⟩ := Guarded.Machine.observed_step moved
  intro i r v x
  obtain ⟨events,alone⟩ := node_run run i
  rw [log, List.mem_append, ← noted i r v x]
  by_cases works : ∃ index order, e = .work i index order
  · obtain ⟨index,order,rfl⟩ := works
    obtain ⟨node,sends,ran,same⟩ := System.act_step stepped
    cases found : (s.state.nodes i).pending[index]? with
    | none => simp [Node.step, found] at ran
    | some job =>
      rw [System.mem_shows_work found, same, moved_self]
      exact Node.step_learns (run_orderly alone) (run_credited alone) found ran r v x
  · have unshown : ⟨i,v,r,x⟩ ∉ s.state.shows c p e := fun shown => works (System.shows_node shown)
    have same : (t.state.nodes i).state.behaviour r = (s.state.nodes i).state.behaviour r := by
      rcases System.step_at stepped i with rests | ⟨event,sends,acts,ran,_⟩
      · rw [rests]
      · refine (node_cases ran).unseen ?_ r
        rintro index order rfl
        cases acts
        exact works ⟨index,order,rfl⟩
    rw [SyncHS.Recorded, same]
    simp [unshown, SyncHS.Recorded]

theorem Noted.transcript {past : List SystemEvent} (run : (systemMachine c p).Run (System.start c) past s.state)
    (noted : Noted s) {i j v : Nat} (same : sightings s.log i v = sightings s.log j v) :
    (s.state.nodes i).state.transcript v = (s.state.nodes j).state.transcript v := by
  obtain ⟨_,alone⟩ := node_run run i
  obtain ⟨_,alone'⟩ := node_run run j
  have rows (r : Behaviour) : ((s.state.nodes i).state.behaviour r).lookup v = ((s.state.nodes j).state.behaviour r).lookup v := by
    have recorded (x : Nat) : (s.state.nodes i).state.Recorded r v x ↔ (s.state.nodes j).state.Recorded r v x := by
      rw [noted i r v x, noted j r v x, ← mem_sightings, ← mem_sightings, same]
    refine lookup_ext (fun x => ?_) (run_filled alone r v) (run_filled alone' r v)
    -- All entries are ones, so rows with the same ones have the same entries.
    refine Option.ext fun y => ⟨fun entry => ?_,fun entry => ?_⟩
    · obtain rfl := (run_orderly alone).ones r v x y entry
      exact (recorded x).mp entry
    · obtain rfl := (run_orderly alone').ones r v x y entry
      exact (recorded x).mpr entry
  simp only [SyncHS.transcript, Transcript.mk.injEq]
  exact ⟨rows .proposal,rows .vote,rows .maliVote,rows .equiproposal,rows .withproposal,rows .maliproposal⟩

theorem ShownAlike.records {past : List SystemEvent} (run : (systemMachine c p).Run (System.start c) past s.state)
    (noted : Noted s) (alike : ShownAlike c s e) : RecordsAgree c s.state e := by
  cases e with
  | callback i => exact fun advances j honest ahead => noted.transcript run (alike advances j honest ahead)
  | connect i => exact alike
  | _ => exact trivial

end Runs

/-- In every run in which honest nodes are shown the same of each view that they end, whatever the Byzantine nodes
send and in whatever order it is handled, honest nodes that have entered a view hold the same reputations. -/
theorem reputations_agree {p : Platform} {size blockSize : Nat} {startEvidence : Bool} {mode : TimerMode}
    {byzantine : Finset Nat} {trace : List SystemEvent} {s : Guarded.Machine.Logged System Sighting}
    (run : ((sightingMachine (.complete size blockSize startEvidence mode byzantine) p).restrict
      (ShownAlike (.complete size blockSize startEvidence mode byzantine))).Run
        ⟨System.start (.complete size blockSize startEvidence mode byzantine),[]⟩ trace s)
    {i j v : Nat} (honest : i ∈ (Cluster.complete size blockSize startEvidence mode byzantine).honestNodes)
    (honest' : j ∈ (Cluster.complete size blockSize startEvidence mode byzantine).honestNodes)
    (least : 1 ≤ v) (entered : v ≤ (s.state.nodes i).state.view) (entered' : v ≤ (s.state.nodes j).state.view)
    (nodeID : Nat) :
    at2 (s.state.nodes i).state.reputationMap v nodeID = at2 (s.state.nodes j).state.reputationMap v nodeID := by
  have both : Histories (.complete size blockSize startEvidence mode byzantine) p s.state ∧ Noted s := by
    refine run.history (I := fun _ s => Histories _ p s.state ∧ Noted s) ?_ ?_
    · refine ⟨⟨fun i honest => start_ledger p (complete_card i honest),fun _ _ _ _ _ _ _ => rfl⟩,?_⟩
      intro i r v x
      refine iff_of_false (fun recorded => ?_) List.not_mem_nil
      cases r <;> contradiction
    · rintro past s e t run ⟨histories,noted⟩ admitted moved
      have moved : (sightingMachine _ p).step s e = some t := moved
      have run := run.unrestrict.forget
      exact ⟨histories.step complete_card (admitted.2.records run noted)
        (System.step_cases (Guarded.Machine.observed_step moved).1),noted.step run moved⟩
  exact both.1.reputations honest honest' least entered entered' nodeID

theorem reputations_agree_with_traitor : ∃ s : System,
    (s.nodes 0).state.view = 2 ∧ (s.nodes 1).state.view = 2 ∧
    ∀ nodeID, at2 (s.nodes 0).state.reputationMap 2 nodeID = at2 (s.nodes 1).state.reputationMap 2 nodeID := by
  obtain ⟨s,run,first,second⟩ := Guarded.Machine.reaches
    (fun s : Guarded.Machine.Logged System Sighting =>
      (s.state.nodes 0).state.view = 2 ∧ (s.state.nodes 1).state.view = 2)
    (show (((sightingMachine oneTraitor transparent).restrict (ShownAlike oneTraitor)).replay
      (.connect 1 :: traitorRound) ⟨System.start oneTraitor,[]⟩).any _ = true by decide +kernel)
  exact ⟨s.state,first,second,
    reputations_agree run (by decide) (by decide) (by decide) first.ge second.ge⟩

end ReputationSMR

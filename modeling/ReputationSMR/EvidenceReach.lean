import ReputationSMR.Common
import ReputationSMR.Convictions
import ReputationSMR.EvidenceRuns
import ReputationSMR.RecordStability

/-! What evidence reaches. An honest node that finds a malicious vote or proposal reports it to its
peers, and a handler that accepts the report records the culprit unless its row names it already.
While the honest nodes run in lock step no report is overtaken by the end of its view, so
the culprit ends up in the record of every honest node, whatever the Byzantine nodes send meanwhile. -/
namespace ReputationSMR

open Wire FiniteMap

section Local

variable {c : Cluster} {p : Platform} {s t : System} {e : SystemEvent} {j : Nat}

theorem System.step_net (stepped : s.step c p e = some t) {x : Packet} (member : x ∈ s.net) :
    x ∈ t.net ∨ ∃ k, e = .deliver k ∧ s.net[k]? = some x := by
  cases System.step_cases stepped with
  | connected _ _ _ _ | commanded _ _ _ _ _ | worked _ _ _ _ _ _ | calledBack _ _ _ _ =>
    exact Or.inl (List.mem_append_left _ member)
  | injected _ _ => exact Or.inl (List.mem_append_left _ member)
  | delivered k y _ _ found _ =>
    by_cases same : x = y
    · exact Or.inr ⟨k,rfl,same ▸ found⟩
    · left
      apply List.mem_append_left
      obtain ⟨l,bound,atL⟩ := List.mem_iff_getElem.mp member
      refine List.mem_eraseIdx_iff_getElem?.mpr ⟨l,?_,by rw [List.getElem?_eq_getElem bound, atL]⟩
      rintro rfl
      rw [List.getElem?_eq_getElem bound, atL] at found
      exact same (Option.some.inj found)

theorem System.step_deliver {k : Nat} {x : Packet} (stepped : s.step c p (.deliver k) = some t) (found : s.net[k]? = some x) :
    t.nodes x.dest = { s.nodes x.dest with
      pending := (s.nodes x.dest).pending ++ protocol (c.config x.dest) (s.nodes x.dest).state x.msg } := by
  simp only [System.step, found] at stepped
  obtain ⟨node,sends,ran,rfl⟩ := System.act_step stepped
  rw [moved_self]
  exact (Prod.mk.inj (Option.some.inj ran)).1.symm

theorem System.step_work {index : Nat} {order : List Nat} {job : Job} (stepped : s.step c p (.work j index order) = some t)
    (found : (s.nodes j).pending[index]? = some job) : ∃ n' effect,
      runJob p (c.config j) (s.nodes j).state order job = some (n',effect) ∧ (t.nodes j).state = n' ∧
      (∀ next ∈ effect.jobs, next ∈ (t.nodes j).pending) ∧
      ∀ x ∈ c.packets j (s.nodes j).state.view effect.sends, x ∈ t.net := by
  obtain ⟨node,sends,ran,rfl⟩ := System.act_step stepped
  simp only [Node.step, found] at ran
  obtain ⟨⟨n',effect⟩,handled,same⟩ := Option.map_eq_some_iff.mp ran
  obtain ⟨rfl,rfl⟩ := Prod.mk.inj same
  rw [moved_self]
  exact ⟨n',effect,handled,rfl,fun next new => List.mem_append_right _ new,fun x sent => List.mem_append_right _ sent⟩

theorem Acts.enabled {event : NodeEvent} (acts : Acts s j e event) (admitted : s.enabled c p e) :
    (s.nodes j).enabled (c.config j) event := by
  cases acts with
  | connect | command _ | receive _ _ _ _ => exact trivial
  | work _ _ | callback => exact admitted.2

/-- The part of a run that concerns one node is a run of that node among arbitrary others. -/
theorem node_run {trace : List SystemEvent} (run : (systemMachine c p).Run (System.start c) trace s) (j : Nat) :
    ∃ events, (nodeMachine p (c.config j)).Run .init events (s.nodes j) := by
  refine run.invariant (I := fun s => ∃ events, (nodeMachine p (c.config j)).Run .init events (s.nodes j)) ?_ ?_
  · exact ⟨[.connect],.snoc .nil trivial rfl⟩
  · rintro s e t ⟨events,run⟩ admitted stepped
    rcases System.step_at stepped j with rests | ⟨event,sends,acts,ran,_⟩
    · exact ⟨events,rests ▸ run⟩
    · refine ⟨events ++ [event],.snoc run (acts.enabled admitted) ?_⟩
      exact Option.map_eq_some_iff.mpr ⟨_,ran,rfl⟩

end Local

/-! ## What a node keeps whatever arrives -/

/-- The flags of the searches are clear, the leader is the one of the view, the records of leaders have one entry a
row and every record is a one. -/
structure SyncHS.Orderly (size : Nat) (n : SyncHS) : Prop where
  searched : n.Searched
  turn : 1 ≤ n.view ∧ n.leader = leaderOf size n.view
  rows : n.LeaderRows
  ones : ∀ r v i x, at2 (n.behaviour r) v i = some x → x = 1

section Nodes

variable {p : Platform} {cfg : NodeConfig} {node node' : Node} {event : NodeEvent} {sends : List Outgoing}

theorem Wrote.ones {n : SyncHS} {r : Behaviour} {m : BehaviourMap} (wrote : Wrote n r m)
    (ones : ∀ v i x, at2 (n.behaviour r) v i = some x → x = 1) {v i x : Nat} (entry : at2 m v i = some x) : x = 1 := by
  cases wrote with
  | nothing => exact ones v i x entry
  | leader _ =>
    rw [at2_recordLeader] at entry
    split at entry
    next => exact ones v i x entry
    next =>
      split at entry
      next =>
        split at entry
        next => exact (Option.some.inj entry).symm
        next => contradiction
      next => exact ones v i x entry
  | node j _ =>
    rw [at2_put2] at entry
    split at entry
    next => exact (Option.some.inj entry).symm
    next => exact ones v i x entry

theorem NodeCase.ones (case : NodeCase p cfg node event node' sends)
    (ones : ∀ r v i x, at2 (node.state.behaviour r) v i = some x → x = 1) :
    ∀ r v i x, at2 (node'.state.behaviour r) v i = some x → x = 1 := by
  intro r v i x entry
  cases case with
  | connected => exact ones r v i x (by cases r <;> exact entry)
  | commanded cmd n' jobs case => cases case; exact ones r v i x (by cases r <;> exact entry)
  | received m => exact ones r v i x entry
  | worked index order job n' jobs sends found case => exact (case.records.wrote r).ones (ones r) entry
  | calledBack n' acks case => cases case <;> exact ones r v i x (by cases r <;> exact entry)

theorem run_orderly {trace : List NodeEvent} (run : (nodeMachine p cfg).Run .init trace node) :
    node.state.Orderly cfg.numNodes := by
  have turn := run.invariant (I := fun node => 1 ≤ node.state.view ∧ node.state.leader = leaderOf cfg.numNodes node.state.view)
    ⟨le_rfl,(Nat.zero_mod _).symm⟩ fun node event node' turn _ moved => by
      obtain ⟨_,case⟩ := nodeMachine_cases moved
      exact case.turn rfl turn
  have ones := run.invariant (I := fun node => ∀ r v i x, at2 (node.state.behaviour r) v i = some x → x = 1)
    (fun r v i x entry => by cases r <;> contradiction) fun node event node' ones _ moved => by
      obtain ⟨_,case⟩ := nodeMachine_cases moved
      exact case.ones ones
  exact ⟨searched_of_run run,turn,run_leaderRows run,ones⟩

theorem NodeCase.view_le (case : NodeCase p cfg node event node' sends) :
    node'.state.view = node.state.view ∨ event = .callback ∧ node'.state.view = node.state.view + 1 := by
  cases case with
  | connected | received _ => exact Or.inl rfl
  | commanded cmd n' jobs case => cases case; exact Or.inl rfl
  | worked index order job n' jobs sends found case => exact Or.inl case.informed.view
  | calledBack n' acks case =>
    cases case with
    | kept _ _ => exact Or.inl rfl
    | advanced _ _ _ _ => exact Or.inr ⟨rfl,rfl⟩

theorem Node.step_pending (stepped : node.step p cfg event = some (node',sends)) {job : Job} (member : job ∈ node.pending) :
    job ∈ node'.pending ∨ ∃ index order n' effect, event = .work index order ∧ node.pending[index]? = some job ∧
      runJob p cfg node.state order job = some (n',effect) ∧ node'.state = n' ∧ sends = effect.sends ∧
        ∀ next ∈ effect.jobs, next ∈ node'.pending := by
  cases event with
  | connect =>
    obtain ⟨rfl,_⟩ := Prod.mk.inj (Option.some.inj stepped)
    exact Or.inl member
  | command cmd =>
    obtain ⟨⟨n',effect⟩,_,same⟩ := Option.map_eq_some_iff.mp stepped
    obtain ⟨rfl,_⟩ := Prod.mk.inj same
    exact Or.inl (List.mem_append_left _ member)
  | receive m =>
    obtain ⟨rfl,_⟩ := Prod.mk.inj (Option.some.inj stepped)
    exact Or.inl (List.mem_append_left _ member)
  | work index order =>
    cases found : node.pending[index]? with
    | none => simp [Node.step, found] at stepped
    | some taken =>
      simp only [Node.step, found] at stepped
      obtain ⟨⟨n',effect⟩,ran,same⟩ := Option.map_eq_some_iff.mp stepped
      obtain ⟨rfl,rfl⟩ := Prod.mk.inj same
      by_cases own : job = taken
      · subst own
        exact Or.inr ⟨index,order,n',effect,rfl,found,ran,rfl,rfl,fun next new => List.mem_append_right _ new⟩
      · exact Or.inl (mem_work found member own _)
  | callback =>
    obtain ⟨⟨n',effect⟩,_,same⟩ := Option.map_eq_some_iff.mp stepped
    obtain ⟨rfl,_⟩ := Prod.mk.inj same
    exact Or.inl (List.mem_append_left _ member)

end Nodes

/-! ## Evidence under way -/

/-- The message that carries evidence, and the channel that takes it. -/
def Misbehaviour.msg : Misbehaviour → SyncHSMsg
  | proposal e => .mpevidence e
  | vote e => .mvevidence e

def Misbehaviour.job : Misbehaviour → Job
  | proposal e => .maliProEvidenceChannel e
  | vote e => .maliVoteEvidenceChannel e

def Misbehaviour.offence : Misbehaviour → Offence
  | proposal _ => .proposal
  | vote _ => .vote

/-- Honest nodes handle evidence, and send it to all others. -/
structure Cluster.Attentive (c : Cluster) : Prop where
  evidence : ∀ i ∈ c.honestNodes, (c.config i).startEvidence = true
  linked : ∀ i ∈ c.honestNodes, ∀ j ∈ c.honestNodes, j ≠ i → j ∈ (c.config i).pMap

theorem complete_attentive (size blockSize : Nat) (mode : TimerMode) (byzantine : Finset Nat) :
    (Cluster.complete size blockSize true mode byzantine).Attentive where
  evidence _ _ := rfl
  linked i _ j honest other := by
    have inside := ((Cluster.mem_honestNodes _ j).mp honest).1
    exact Finset.mem_erase.mpr ⟨other,Finset.mem_range.mpr inside⟩

def Behind (c : Cluster) (w : Nat) (s : System) : Prop := ∀ k ∈ c.honestNodes, (s.nodes k).state.view ≤ w

/-- Evidence of view `w` from node `i` on its way into the record of node `j`. -/
inductive Underway (c : Cluster) (p : Platform) (i w : Nat) (m : Misbehaviour) (x j : Nat) (s : System) : Prop where
  | spawned (v : ProtoVote) : .sendMalivoteEvidence v ∈ (s.nodes i).pending →
      m = .vote ⟨some (signEvidence p (c.config i) ⟨v.getVoter,w⟩),some v⟩ → (s.nodes i).state.view = w →
      Behind c w s → Underway c p i w m x j s
  | sent : ⟨j,some w,m.msg⟩ ∈ s.net → Behind c w s → Underway c p i w m x j s
  | arrived : m.job ∈ (s.nodes j).pending → (s.nodes j).state.view = w → Underway c p i w m x j s
  | recorded : at2 (m.map (s.nodes j).state) w x = some 1 → Underway c p i w m x j s

/-- Evidence that no honest node refuses in view `w`, and that names the node that it records. -/
structure Misbehaviour.Stands (c : Cluster) (p : Platform) (w x : Nat) (m : Misbehaviour) : Prop where
  unrefused : ∀ j ∈ c.honestNodes, ∀ n : SyncHS, n.view = w → n.leader = leaderOf c.size w →
    m.valid p (c.config j) n ≠ some false
  target : m.target = some x
  culprit : m.culprit = some x

section Steps

variable {c : Cluster} {p : Platform} {s t : System} {e : SystemEvent} {i j w x : Nat} {m : Misbehaviour}

theorem Misbehaviour.runJob_eq (cfg : NodeConfig) (n : SyncHS) (order : List Nat) (m : Misbehaviour) :
    runJob p cfg n order m.job = m.handle p cfg n := by
  cases m <;> rfl

theorem Misbehaviour.takes_eq (cfg : NodeConfig) (n : SyncHS) (m : Misbehaviour) :
    takes cfg n m.job = cfg.startEvidence := by
  cases m <;> rfl

theorem Misbehaviour.protocol_eq {cfg : NodeConfig} (evidence : cfg.startEvidence = true) (n : SyncHS) (m : Misbehaviour) :
    protocol cfg n m.msg = [m.job] := by
  cases m <;> exact if_pos evidence

theorem Misbehaviour.handle_records {size : Nat} {cfg : NodeConfig} {n n' : SyncHS} {effect : Effect} (orderly : n.Orderly size)
    (unrefused : m.valid p cfg n ≠ some false) (target : m.target = some x) (culprit : m.culprit = some x)
    (ran : m.handle p cfg n = some (n',effect)) : at2 (m.map n') n.view x = some 1 := by
  have accepted : m.valid p cfg n = some true := by
    rcases decided : m.valid p cfg n with _ | (_ | _)
    · have panics := Misbehaviour.handle_unless (show m.valid p cfg n ≠ some true by simp [decided])
      rw [decided, ran] at panics
      contradiction
    · exact absurd decided unrefused
    · rfl
  obtain ⟨t,i,named,recorded,same⟩ := Misbehaviour.handle_accepts orderly.searched accepted
  obtain rfl := Option.some.inj (named.symm.trans target)
  obtain rfl := Option.some.inj (recorded.symm.trans culprit)
  obtain ⟨rfl,_⟩ := Prod.mk.inj (Option.some.inj (ran.symm.trans same))
  split
  next seen =>
    -- The target of earlier evidence is not in the row unless it was recorded, and records are ones.
    obtain ⟨y,found⟩ := Finmap.mem_iff.mp seen
    have entry : at2 (m.map n) n.view i = some y := (at2_eq_row _ _ _).trans found
    have one : y = 1 := by
      cases m with
      | proposal e => exact orderly.ones .maliproposal _ _ _ entry
      | vote e => exact orderly.ones .maliVote _ _ _ entry
    rw [entry, one]
  next => cases m <;> exact (at2_put2 _ _ _ _ _ _).trans (if_pos ⟨rfl,rfl⟩)

theorem Misbehaviour.map_grows {n n' : SyncHS} (grows : Grows n n') (recorded : at2 (m.map n) w x = some 1) :
    at2 (m.map n') w x = some 1 := by
  cases m with
  | proposal e => exact grows .maliproposal w x recorded
  | vote e => exact grows .maliVote w x recorded

theorem Behind.step (behind : Behind c w s) (stepped : s.step c p e = some t)
    (held : ∀ k ∈ c.honestNodes, e = .callback k → (s.nodes k).state.view < w) : Behind c w t := by
  intro k honest
  have before := behind k honest
  rcases System.step_at stepped k with rests | ⟨event,sends,acts,ran,_⟩
  · rwa [rests]
  · rcases (node_cases ran).view_le with same | ⟨rfl,next⟩
    · rwa [same]
    · cases acts with
      | callback =>
        have := held k honest rfl
        omega

variable (attentive : c.Attentive) (stands : m.Stands c p w x) (honest : j ∈ c.honestNodes)
  (orderly : ∀ k ∈ c.honestNodes, (s.nodes k).state.Orderly c.size)
  (admitted : (systemMachine c p).enabled s e ∧ Synchronous c s e) (stepped : s.step c p e = some t)

include orderly stepped honest in
theorem Underway.keep (recorded : at2 (m.map (s.nodes j).state) w x = some 1) : Underway c p i w m x j t := by
  refine .recorded ?_
  rcases System.step_at stepped j with rests | ⟨event,sends,_,ran,_⟩
  · rwa [rests]
  · exact Misbehaviour.map_grows ((node_cases ran).grows (orderly j honest).rows).2 recorded

include attentive stands orderly admitted stepped honest in
theorem Underway.handle (arrived : m.job ∈ (s.nodes j).pending) (view : (s.nodes j).state.view = w) :
    Underway c p i w m x j t := by
  rcases System.step_at stepped j with rests | ⟨event,sends,acts,ran,_⟩
  · exact .arrived (rests ▸ arrived) (rests ▸ view)
  · rcases Node.step_pending ran arrived with waits | ⟨index,order,n',effect,_,_,handled,rfl,_,_⟩
    · refine .arrived waits ?_
      rcases (node_cases ran).view_le with same | ⟨rfl,_⟩
      · exact same.trans view
      · -- A callback needs a settled node.
        cases acts with
        | callback =>
          rcases admitted.2.1 j honest with ahead | ⟨_,settled⟩
          · omega
          · have idle := settled.2 _ arrived
            rw [Misbehaviour.takes_eq, attentive.evidence j honest] at idle
            contradiction
    · rw [Misbehaviour.runJob_eq] at handled
      have turn := (orderly j honest).turn.2
      rw [view] at turn
      refine .recorded (view ▸ Misbehaviour.handle_records (orderly j honest) ?_ stands.target stands.culprit handled)
      exact stands.unrefused j honest _ view turn

include attentive admitted stepped honest in
theorem Underway.deliver (sent : ⟨j,some w,m.msg⟩ ∈ s.net) (behind : Behind c w s) : Underway c p i w m x j t := by
  have behind' : Behind c w t := by
    refine behind.step stepped ?_
    rintro k _ rfl
    exact admitted.2.2 _ sent w rfl
  rcases System.step_net stepped sent with waits | ⟨k,rfl,found⟩
  · exact .sent waits behind'
  · have arrives : (s.nodes j).state.view = w :=
      le_antisymm (behind j honest) (admitted.2 _ found w rfl j honest)
    have moved := System.step_deliver stepped found
    dsimp only at moved
    rw [Misbehaviour.protocol_eq (attentive.evidence j honest)] at moved
    refine .arrived ?_ ?_
    · rw [moved]
      exact List.mem_append_right _ List.mem_cons_self
    · rw [moved]
      exact arrives

theorem Underway.broadcast (linked : c.Attentive) (honest : j ∈ c.honestNodes) (sender : i ∈ c.honestNodes)
    (own : m.job ∈ (t.nodes i).pending) (view : (t.nodes i).state.view = w)
    (sent : ∀ y ∈ c.packets i w [.broadcast m.msg], y ∈ t.net) (behind : Behind c w t) :
    Underway c p i w m x j t := by
  by_cases same : j = i
  · subst same
    exact .arrived own view
  · refine .sent (sent _ ?_) behind
    simp only [Cluster.packets, List.flatMap_cons, List.flatMap_nil, List.append_nil, List.mem_map, List.mem_filter,
      decide_eq_true_eq]
    exact ⟨j,⟨honest,linked.linked i sender j honest same⟩,rfl⟩

include attentive admitted stepped honest in
theorem Underway.send (sender : i ∈ c.honestNodes) {v : ProtoVote} (spawned : .sendMalivoteEvidence v ∈ (s.nodes i).pending)
    (evidence : m = .vote ⟨some (signEvidence p (c.config i) ⟨v.getVoter,w⟩),some v⟩)
    (view : (s.nodes i).state.view = w) (behind : Behind c w s) : Underway c p i w m x j t := by
  have held (k : Nat) (_ : k ∈ c.honestNodes) (ends : e = .callback k) : (s.nodes k).state.view < w := by
    subst ends
    rcases admitted.2.1 i sender with ahead | ⟨_,settled⟩
    · exact view ▸ ahead
    · exact absurd (settled.2 _ spawned) (by simp [takes])
  have behind' : Behind c w t := behind.step stepped held
  rcases System.step_at stepped i with rests | ⟨event,sends,acts,ran,sent⟩
  · exact .spawned v (rests ▸ spawned) evidence (rests ▸ view) behind'
  · have stays : (t.nodes i).state.view = w := by
      rcases (node_cases ran).view_le with same | ⟨rfl,_⟩
      · exact same.trans view
      · cases acts with
        | callback => exact absurd (held i sender rfl) (by omega)
    rcases Node.step_pending ran spawned with waits | ⟨index,order,n',effect,_,_,done,_,rfl,jobs⟩
    · exact .spawned v waits evidence stays behind'
    · obtain ⟨rfl,rfl⟩ := Prod.mk.inj (Option.some.inj done)
      rw [view] at sent jobs
      subst evidence
      exact .broadcast attentive honest sender (jobs _ List.mem_cons_self) stays sent behind'

include attentive stands orderly admitted stepped honest in
theorem Underway.step (sender : i ∈ c.honestNodes) (underway : Underway c p i w m x j s) : Underway c p i w m x j t := by
  cases underway with
  | spawned v spawned evidence view behind =>
    exact .send attentive honest admitted stepped sender spawned evidence view behind
  | sent sent behind => exact .deliver attentive honest admitted stepped sent behind
  | arrived arrived view => exact .handle attentive stands honest orderly admitted stepped arrived view
  | recorded recorded => exact .keep honest orderly stepped recorded

end Steps

/-! ## Detection -/

/-- What a handler reports when it takes up a job: a signed vote for another owner than the leader, or a
signed proposal of another miner. Node zero reports no proposals. -/
inductive Detects (p : Platform) (cfg : NodeConfig) (n : SyncHS) : Job → Offence → Nat → Prop where
  | vote (v : ProtoVote) (d : ProtoVoteData) (body : ProtoVoteBody) : v.data = some d → v.body = some body →
      d.owner ≠ n.leader → signedBy p cfg body.voter d.marshal body.signature = some true →
      Detects p cfg n (.voteChannel v) .vote body.voter
  | proposal (prop : Proposal) :
      signedBy p cfg prop.miner (marshalHeader prop.getHeader) prop.miningProof = some true →
      prop.miner ≠ n.leader → cfg.id ≠ 0 → Detects p cfg n (.maliPropseChannel prop) .proposal prop.miner

section Detection

variable {c : Cluster} {p : Platform} {s t : System} {i j w : Nat}

theorem Misbehaviour.map_eq (n : SyncHS) (m : Misbehaviour) : m.map n = n.record m.offence := by
  cases m <;> rfl

theorem Cluster.Regular.signedBy_eq (regular : c.Regular) (sender : i ∈ c.honestNodes) (honest : j ∈ c.honestNodes) (id : Nat)
    (data sig : Bytes) : signedBy p (c.config i) id data sig = signedBy p (c.config j) id data sig := by
  simp only [signedBy, getPubKeyFromID, regular.keys i sender, regular.keys j honest]

theorem envelope_accepted (verifies : ∀ i data, p.verify i data (p.sign i data) = some true) (regular : c.Regular)
    (sender : i ∈ c.honestNodes) (honest : j ∈ c.honestNodes)
    (target : Nat) {n : SyncHS} (view : n.view = w) :
    isEnvelopeValid p (c.config j) n (signEvidence p (c.config i) ⟨target,w⟩) ⟨target,w⟩ = some true := by
  have inside : i ∈ Finset.range c.size := Finset.mem_range.mpr ((c.mem_honestNodes i).mp sender).1
  rw [isEnvelopeValid, if_neg (not_not.mpr view.symm), signEvidence, regular.id i sender, signedBy, getPubKeyFromID,
    regular.keys j honest, if_pos inside]
  simp [Platform.accepts,verifies]

theorem vote_stands (verifies : ∀ i data, p.verify i data (p.sign i data) = some true) (regular : c.Regular)
    (sender : i ∈ c.honestNodes) {v : ProtoVote} {d : ProtoVoteData}
    {body : ProtoVoteBody} (data : v.data = some d) (shape : v.body = some body)
    (signed : signedBy p (c.config i) body.voter d.marshal body.signature = some true) :
    (Misbehaviour.vote ⟨some (signEvidence p (c.config i) ⟨v.getVoter,w⟩),some v⟩).Stands c p w body.voter := by
  have voter : v.getVoter = body.voter := by simp [ProtoVote.getVoter,shape]
  refine ⟨fun j honest n view _ => ?_,by simp [Misbehaviour.target,signEvidence,voter],
    by simp [Misbehaviour.culprit,shape]⟩
  rw [regular.signedBy_eq sender honest] at signed
  have envelope := envelope_accepted verifies regular sender honest v.getVoter view
  simp only [signEvidence] at envelope
  simp [Misbehaviour.valid,isMalivEvidenceValid,signEvidence,data,shape,envelope,signed,andThen]

theorem proposal_stands (verifies : ∀ i data, p.verify i data (p.sign i data) = some true) (regular : c.Regular)
    (sender : i ∈ c.honestNodes) {prop : Proposal}
    (signed : signedBy p (c.config i) prop.miner (marshalHeader prop.getHeader) prop.miningProof = some true)
    (other : prop.miner ≠ leaderOf c.size w) :
    (Misbehaviour.proposal ⟨some (signEvidence p (c.config i) ⟨prop.miner,w⟩),some prop⟩).Stands c p w prop.miner := by
  refine ⟨fun j honest n view leader => ?_,rfl,rfl⟩
  rw [regular.signedBy_eq sender honest] at signed
  have envelope := envelope_accepted verifies regular sender honest prop.miner view
  simp only [signEvidence] at envelope
  cases block : prop.block with
  | none => simp [Misbehaviour.valid,isMalipEvidenceValid,signEvidence,block,leader,other,envelope,andThen]
  | some b =>
    simp only [Proposal.getHeader, block, Option.bind_some] at signed
    simp [Misbehaviour.valid,isMalipEvidenceValid,signEvidence,block,leader,other,envelope,signed,andThen]

theorem Detects.underway (verifies : ∀ i data, p.verify i data (p.sign i data) = some true) (regular : c.Regular)
    (attentive : c.Attentive) {index : Nat} {order : List Nat}
    {job : Job} {o : Offence} {x : Nat} (orderly : (s.nodes i).state.Orderly c.size) (sender : i ∈ c.honestNodes)
    (first : ∀ k ∈ c.honestNodes, (s.nodes k).state.view ≤ (s.nodes i).state.view)
    (stepped : s.step c p (.work i index order) = some t) (found : (s.nodes i).pending[index]? = some job)
    (detects : Detects p (c.config i) (s.nodes i).state job o x) : ∃ m : Misbehaviour, m.offence = o ∧
      m.Stands c p (s.nodes i).state.view x ∧
      ∀ j ∈ c.honestNodes, Underway c p i (s.nodes i).state.view m x j t := by
  have behind : Behind c (s.nodes i).state.view t :=
    Behind.step first stepped fun k _ ends => by contradiction
  obtain ⟨n',effect,ran,state,jobs,sent⟩ := System.step_work stepped found
  cases detects with
  | vote v d body data shape foreign signed =>
    simp only [runJob, voteHandler, data, if_pos foreign] at ran
    obtain ⟨rfl,rfl⟩ := Prod.mk.inj (Option.some.inj ran)
    refine ⟨_,rfl,vote_stands verifies regular sender data shape signed,fun j _ => ?_⟩
    exact .spawned v (jobs _ List.mem_cons_self) rfl (congrArg SyncHS.view state) behind
  | proposal prop signed other reports =>
    have intruder : prop.miner ≠ leaderOf c.size (s.nodes i).state.view := orderly.turn.2 ▸ other
    simp only [runJob, maliciousPropsoalHandler, signed, if_pos (And.intro other reports), sendMaliProEvidence] at ran
    obtain ⟨rfl,rfl⟩ := Prod.mk.inj (Option.some.inj ran)
    refine ⟨_,rfl,proposal_stands verifies regular sender signed intruder,fun j honest => ?_⟩
    exact .broadcast attentive honest sender (jobs _ List.mem_cons_self) (by rw [state]) sent behind

end Detection

/-- What one honest node detects, all honest nodes record. In every run in which the honest nodes keep in lock step, a
malicious vote or proposal that an honest node takes up in a view is in the record of each honest node that has left
the view, whatever the Byzantine nodes send. -/
theorem detected_offences_are_recorded {c : Cluster} {p : Platform}
    (verifies : ∀ i data, p.verify i data (p.sign i data) = some true) (regular : c.Regular)
    (attentive : c.Attentive) {trace earlier later : List SystemEvent} {s before : System} {e : SystemEvent}
    {i j x : Nat} {job : Job} {o : Offence}
    (run : ((systemMachine c p).restrict (Synchronous c)).Run (System.start c) trace s)
    (takes : TakesUp ((systemMachine c p).restrict (Synchronous c)) (System.start c) trace i job earlier before e later)
    (detects : Detects p (c.config i) (before.nodes i).state job o x) (honest : j ∈ c.honestNodes)
    (left : (before.nodes i).state.view < (s.nodes j).state.view) :
    at2 ((s.nodes j).state.record o) (before.nodes i).state.view x = some 1 := by
  have orderly {past : List SystemEvent} {s : System} (run : (systemMachine c p).Run (System.start c) past s) :
      ∀ k ∈ c.honestNodes, (s.nodes k).state.Orderly c.size := by
    intro k honest
    obtain ⟨events,own⟩ := node_run run k
    exact regular.numNodes k honest ▸ run_orderly own
  obtain ⟨index,order,rfl,found⟩ := takes.work
  have whole := run
  rw [takes.split] at whole
  obtain ⟨before',after,prior,admitted,stepped,reached,rest⟩ := whole.event
  obtain rfl := takes.run.functional prior
  have sender : i ∈ c.honestNodes := (c.mem_honestNodes i).mpr admitted.1.1
  obtain ⟨m,rfl,stands,underway⟩ := detects.underway verifies regular attentive
    (orderly prior.unrestrict i sender) sender admitted.2 stepped found
  have arrives := (rest.invariant (I := fun s => (∃ past, (systemMachine c p).Run (System.start c) past s) ∧
      Underway c p i (before.nodes i).state.view m x j s) ⟨⟨_,reached.unrestrict⟩,underway j honest⟩ ?_).2
  · rw [← Misbehaviour.map_eq]
    cases arrives with
    | spawned _ _ _ _ behind | sent _ behind => exact absurd (behind j honest) (by omega)
    | arrived _ view => omega
    | recorded recorded => exact recorded
  · rintro s e t ⟨⟨past,run⟩,underway⟩ admitted stepped
    exact ⟨⟨_,.snoc run admitted.1 stepped⟩,
      underway.step attentive stands honest (orderly run) admitted stepped sender⟩

/-- Up to the point at which the traitor's vote for itself has reached node zero, and only node zero. -/
def traitorVotesForItself : List SystemEvent :=
  traitorForwards ++ [.inject 0 (.vote traitorsOwnVote),.deliver 2]

/-- Node zero reports the vote, and both honest nodes end the view. -/
def traitorIsReported : List SystemEvent :=
  [.deliver 0,.deliver 0,.work 0 0 [0],.work 0 0 [],.work 0 0 [0,1],.work 0 0 [],.work 0 0 [],
    .work 1 0 [1],.work 1 0 [0,1],.work 1 0 [],.deliver 0,.work 1 0 [],.callback 0,.callback 1]

theorem absent_node_records_traitor : ∃ s : System,
    ((systemMachine oneTraitor transparent).restrict (Synchronous oneTraitor)).Run (System.start oneTraitor)
      (traitorVotesForItself ++ .work 0 1 [] :: traitorIsReported) s ∧
    at2 ((s.nodes 1).state.record .vote) 1 2 = some 1 := by
  obtain ⟨before,prior,found,leader,view⟩ := Guarded.Machine.reaches
    (fun s : System => (s.nodes 0).pending[1]?.bind Job.heldVote = some traitorsOwnVote ∧ (s.nodes 0).state.leader = 0 ∧
      (s.nodes 0).state.view = 1)
    (show (((systemMachine oneTraitor transparent).restrict (Synchronous oneTraitor)).replay traitorVotesForItself
      (System.start oneTraitor)).any _ = true by decide +kernel)
  obtain ⟨s,run,left⟩ := Guarded.Machine.reaches (fun s : System => (s.nodes 1).state.view = 2)
    (show (((systemMachine oneTraitor transparent).restrict (Synchronous oneTraitor)).replay
      (traitorVotesForItself ++ .work 0 1 [] :: traitorIsReported) (System.start oneTraitor)).any _ = true by decide +kernel)
  have waiting : (before.nodes 0).pending[1]? = some (.voteChannel traitorsOwnVote) := by
    obtain ⟨job,listed,held⟩ := Option.bind_eq_some_iff.mp found
    cases job with
    | voteChannel v => rw [listed, Option.some.inj held]
    | _ => contradiction
  have detects : Detects transparent (oneTraitor.config 0) (before.nodes 0).state (.voteChannel traitorsOwnVote) .vote 2 :=
    .vote traitorsOwnVote ⟨List.replicate 32 7,1,2⟩ ⟨2,_⟩ rfl rfl (by simp [leader]) (by decide +kernel)
  have recorded := detected_offences_are_recorded (j := 1) transparent_laws.signed (complete_regular _ _ _ _ _)
    (complete_attentive _ _ _ _) run ⟨rfl,prior,1,[],rfl,waiting⟩ detects (by decide) (by rw [view, left]; decide)
  exact ⟨s,run,view ▸ recorded⟩

end ReputationSMR

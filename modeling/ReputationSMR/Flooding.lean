import ReputationSMR.Goroutines

/-! A node that no longer listens. `protocol` sends forwards to `proposeChannel` itself, and the handler of
forwards reads nothing while its set is complete. In between a full channel stops `protocol`, votes can no
longer get through, and without a certificate the view, for which the set is complete, does not end. -/
namespace ReputationSMR

open Wire FiniteMap Bounded

/-! ## Jobs without votes -/

/-- What decides whether the handler of forwards reads and whether a callback ends the view. -/
structure Standing where
  view : Nat
  forwards : Map Nat (Map Nat Proposal)
  certs : Map Nat BlockCertificate
  withheld : Bool
  equivocated : Bool

def SyncHS.standing (n : SyncHS) : Standing :=
  ⟨n.view,n.fpropMap,n.certMap,n.withholdingProposalInject,n.equivocatingProposalInject⟩

def Job.inert : Job → Bool
  | .vote _ | .addCert _ _ => false
  | _ => true

def Inert (jobs : List Job) : Prop := ∀ job ∈ jobs, job.inert = true ∧ job.port ≠ some .vote

section Jobs

variable {p : Platform} {cfg : NodeConfig} {n n' : SyncHS} {effect : Effect}

theorem SyncHS.standing_congr (cfg : NodeConfig) (same : n'.standing = n.standing) :
    (n'.readsForwards cfg ↔ n.readsForwards cfg) ∧ (n'.advances ↔ n.advances) ∧ n'.view = n.view := by
  obtain ⟨view,forwards,certs,withheld,equivocated⟩ := Standing.mk.inj same
  rw [readsForwards, readsForwards, advances, advances, view, forwards, certs, withheld, equivocated]
  exact ⟨Iff.rfl,Iff.rfl,rfl⟩

theorem RoundCase.standing (step : RoundCase p cfg n n' effect) (mode : cfg.timerMode ≠ .withhold) :
    n'.standing = n.standing ∧ Inert effect.jobs := by
  have flag {withheld : Bool} (kept : withheld = n.withholdingProposalInject ∨ cfg.timerMode = .withhold) :
      withheld = n.withholdingProposalInject := kept.resolve_right mode
  cases step with
  | idle withheld inject kept _ =>
    rw [flag kept]
    exact ⟨rfl,fun job member => absurd member List.not_mem_nil⟩
  | withholds withhold _ => exact absurd withhold mode
  | proposes withheld cert kept _ _ _ _ _ =>
    rw [flag kept]
    exact ⟨rfl,by simp [Inert,Job.inert,Job.port]⟩
  | equivocates _ _ _ _ => exact ⟨rfl,fun job member => absurd member List.not_mem_nil⟩
  | intrudes _ _ _ _ => exact ⟨rfl,by simp [Inert,Job.inert,Job.port]⟩

theorem JobCase.standing {order : List Nat} {job : Job} (step : JobCase p cfg n order job n' effect)
    (mode : cfg.timerMode ≠ .withhold) (alone : job.port = none) (inert : job.inert = true) :
    n'.standing = n.standing ∧ Inert effect.jobs := by
  cases step with
  | started n' effect step => exact step.standing mode
  | forwardRefused _ | announced _ => exact ⟨rfl,fun job member => absurd member List.not_mem_nil⟩
  | forwarded _ _ _ _ | eqEvidenceSent _ _ | malivoteEvidenceSent _ => exact ⟨rfl,by simp [Inert,Job.inert,Job.port]⟩
  | voted _ _ | misvoted _ _ _ | stored _ _ => contradiction
  | _ => contradiction

end Jobs

/-! ## Deafness -/

/-- A node in view `v` whose set of forwards is complete, which has no certificate and knows of no vote that
it has not counted. -/
structure AwaitsVotes (cfg : NodeConfig) (v : Nat) (g : GoNode) : Prop where
  view : g.state.view = v
  complete : ¬g.state.readsForwards cfg
  stays : ¬g.state.advances
  votes : (g.channels .vote).contents = 0
  inert : ∀ job ∈ g.goroutines, job.val.inert = true

/-- `protocol` waits for room in `proposeChannel`, and there is none. -/
structure Deaf (cfg : NodeConfig) (v : Nat) (g : GoNode) : Prop extends AwaitsVotes cfg v g where
  sending : g.loop.isSome
  full : protocolMsgBuffer ≤ (g.channels .propose).buffer.length

/-- The events with which a message is taken from a channel. -/
def GoEvent.listens : GoEvent → Bool
  | .dispatch | .handle _ _ => true
  | _ => false

section Spawning

variable {g : GoNode}

theorem GoNode.spawn_buffer (g : GoNode) (job : Job) (port : Port) :
    ((g.spawn job).channels port).buffer = (g.channels port).buffer := by
  rw [spawn]
  split
  next other place =>
    by_cases same : port = other
    · subst same
      simp only [Function.update_self, Channel.send]
    · simp only [Function.update_of_ne same]
  next => rfl

theorem GoNode.spawn_other (g : GoNode) {job : Job} {port : Port} (other : job.port ≠ some port) :
    (g.spawn job).channels port = g.channels port := by
  rw [spawn]
  split
  next used place =>
    have apart : port ≠ used := fun same => other (same ▸ place)
    simp only [Function.update_of_ne apart]
  next => rfl

theorem GoNode.mem_spawn {job : Job} {running : JobAt none} (member : running ∈ (g.spawn job).goroutines) :
    running ∈ g.goroutines ∨ running.val = job := by
  rw [spawn] at member
  split at member
  next => exact Or.inl member
  next =>
    rcases List.mem_append.mp member with old | new
    · exact Or.inl old
    · exact Or.inr (congrArg Subtype.val (List.mem_singleton.mp new))

theorem AwaitsVotes.spawns {cfg : NodeConfig} {v : Nat} {jobs : List Job} (waits : AwaitsVotes cfg v g) (inert : Inert jobs) :
    AwaitsVotes cfg v (jobs.foldl GoNode.spawn g) := by
  induction jobs generalizing g with
  | nil => exact waits
  | cons job rest ih =>
    obtain ⟨harmless,quiet⟩ := inert job List.mem_cons_self
    have state : (g.spawn job).state = g.state := GoNode.spawn_unread GoNode.state g job fun _ _ => rfl
    refine ih ⟨?_,?_,?_,?_,fun running member => ?_⟩ fun job member => inert job (List.mem_cons_of_mem _ member)
    · rw [state, waits.view]
    · rw [state]
      exact waits.complete
    · rw [state]
      exact waits.stays
    · rw [GoNode.spawn_other g quiet, waits.votes]
    · rcases GoNode.mem_spawn member with old | new
      · exact waits.inert running old
      · rw [new, harmless]

theorem GoNode.spawns_buffer (jobs : List Job) (g : GoNode) (port : Port) :
    ((jobs.foldl spawn g).channels port).buffer = (g.channels port).buffer := by
  induction jobs generalizing g with
  | nil => rfl
  | cons job rest ih => rw [List.foldl_cons, ih, spawn_buffer]

theorem Deaf.apply {cfg : NodeConfig} {v : Nat} {g' : GoNode} {outcome : Outcome} {sends : List Outgoing} (deaf : Deaf cfg v g)
    (applied : g.apply outcome = some (g',sends))
    (harmless : ∀ n effect, outcome = some (n,effect) → n.standing = g.state.standing ∧ Inert effect.jobs ∧ effect.acks = []) :
    Deaf cfg v g' ∧ g'.acked = g.acked := by
  obtain ⟨⟨n,effect⟩,ran,same⟩ := Option.map_eq_some_iff.mp applied
  obtain ⟨rfl,rfl⟩ := Prod.mk.inj same
  obtain ⟨standing,inert,silent⟩ := harmless n effect ran
  obtain ⟨reads,advances,view⟩ := SyncHS.standing_congr cfg standing
  have waits : AwaitsVotes cfg v { g with
      state := n
      acked := g.acked ++ effect.acks.map fun b => (g.state.view,b) } :=
    ⟨view.trans deaf.view,mt reads.mp deaf.complete,mt advances.mp deaf.stays,deaf.votes,deaf.inert⟩
  refine ⟨⟨waits.spawns inert,?_,?_⟩,?_⟩
  · rw [GoNode.spawns_unread GoNode.loop _ _ fun _ _ _ => rfl]
    exact deaf.sending
  · rw [GoNode.spawns_buffer]
    exact deaf.full
  · rw [GoNode.spawns_unread GoNode.acked _ _ fun _ _ _ => rfl, silent]
    exact List.append_nil _

end Spawning

section Steps

variable {p : Platform} {cfg : NodeConfig} {v : Nat} {g g' : GoNode} {e : GoEvent} {sends : List Outgoing}

theorem AwaitsVotes.empty (waits : AwaitsVotes cfg v g) :
    (g.channels .vote).buffer = [] ∧ (g.channels .vote).waiting = [] := by
  have both := waits.votes
  rw [Channel.contents, Multiset.coe_add] at both
  exact List.append_eq_nil_iff.mp ((Multiset.coe_eq_zero _).mp both)

theorem Deaf.enter {port : Port} {k : Nat} (deaf : Deaf cfg v g) (enabled : g.enabled cfg (.enter port k))
    (stepped : g.step p cfg (.enter port k) = some (g',sends)) : Deaf cfg v g' ∧ g'.acked = g.acked := by
  obtain ⟨ch,_,same⟩ := Option.map_eq_some_iff.mp stepped
  obtain ⟨rfl,_⟩ := Prod.mk.inj same
  have quiet : port ≠ .vote := by
    rintro rfl
    have inside := enabled.1
    rw [deaf.empty.2] at inside
    contradiction
  have room : port ≠ .propose := by
    rintro rfl
    exact absurd enabled.2 (Nat.not_lt.mpr deaf.full)
  refine ⟨⟨⟨deaf.view,deaf.complete,deaf.stays,?_,deaf.inert⟩,deaf.sending,?_⟩,rfl⟩
  · simp only [Function.update_of_ne (Ne.symm quiet)]
    exact deaf.votes
  · simp only [Function.update_of_ne (Ne.symm room)]
    exact deaf.full

theorem Deaf.unhandled {port : Port} {order : List Nat} (handlers : cfg.startEvidence = false) (deaf : Deaf cfg v g) :
    ¬g.enabled cfg (.handle port order) := by
  intro enabled
  rw [GoNode.enabled, Option.any_eq_true] at enabled
  obtain ⟨⟨job,place⟩,first,taken⟩ := enabled
  have off : takes cfg g.state job = false ∨ port = .vote := by
    cases job with
    | proposeChannel _ => exact Or.inl (decide_eq_false deaf.complete)
    | voteChannel _ => exact Or.inr (Option.some.inj place).symm
    | maliPropseChannel _ | eqEvidenceChannel _ | maliProEvidenceChannel _ | maliVoteEvidenceChannel _ =>
      exact Or.inl handlers
    | _ => contradiction
  rcases off with idle | rfl
  · rw [idle] at taken
    contradiction
  · rw [deaf.empty.1] at first
    contradiction

theorem Deaf.goroutine {index : Nat} {order : List Nat} (mode : cfg.timerMode ≠ .withhold) (deaf : Deaf cfg v g)
    (enabled : g.enabled cfg (.run index order)) (stepped : g.step p cfg (.run index order) = some (g',sends)) :
    Deaf cfg v g' ∧ g'.acked = g.acked := by
  have found : g.goroutines[index]? = some g.goroutines[index] := List.getElem?_eq_getElem enabled
  have listed := List.mem_of_getElem? found
  generalize g.goroutines[index] = job at found listed
  simp only [GoNode.step, found] at stepped
  have rest : Deaf cfg v { g with goroutines := g.goroutines.eraseIdx index } :=
    ⟨⟨deaf.view,deaf.complete,deaf.stays,deaf.votes,fun job member => deaf.inert job (List.mem_of_mem_eraseIdx member)⟩,
      deaf.sending,deaf.full⟩
  refine rest.apply stepped fun n effect ran => ?_
  have step := runJob_cases ran
  obtain ⟨standing,inert⟩ := step.standing mode job.property (deaf.inert job listed)
  exact ⟨standing,inert,step.noAck⟩

theorem Deaf.step (mode : cfg.timerMode ≠ .withhold) (handlers : cfg.startEvidence = false) (deaf : Deaf cfg v g)
    (enabled : g.enabled cfg e) (stepped : g.step p cfg e = some (g',sends)) :
    (Deaf cfg v g' ∧ g'.acked = g.acked) ∧ e.listens = false := by
  cases e with
  | connect | arrive _ =>
    obtain ⟨rfl,_⟩ := Prod.mk.inj (Option.some.inj stepped)
    exact ⟨⟨⟨⟨deaf.view,deaf.complete,deaf.stays,deaf.votes,deaf.inert⟩,deaf.sending,deaf.full⟩,rfl⟩,rfl⟩
  | accept k =>
    obtain ⟨ch,_,same⟩ := Option.map_eq_some_iff.mp stepped
    obtain ⟨rfl,_⟩ := Prod.mk.inj same
    exact ⟨⟨⟨⟨deaf.view,deaf.complete,deaf.stays,deaf.votes,deaf.inert⟩,deaf.sending,deaf.full⟩,rfl⟩,rfl⟩
  | command cmd =>
    refine ⟨deaf.apply stepped fun n effect ran => ?_,rfl⟩
    cases command_cases ran with
    | pooled _ _ _ _ jobs rounds =>
      refine ⟨rfl,fun job member => ?_,rfl⟩
      rw [rounds job member]
      exact ⟨rfl,by simp [Job.port]⟩
  | dispatch =>
    have busy := deaf.sending
    rw [enabled.1] at busy
    contradiction
  | push => exact absurd enabled.2 (Nat.not_lt.mpr deaf.full)
  | enter port k => exact ⟨deaf.enter enabled stepped,rfl⟩
  | handle port order => exact absurd enabled (deaf.unhandled handlers)
  | run index order => exact ⟨deaf.goroutine mode enabled stepped,rfl⟩
  | callback =>
    refine ⟨deaf.apply stepped fun n effect ran => ?_,rfl⟩
    cases callback_cases ran with
    | kept _ _ => exact ⟨rfl,fun job member => absurd member List.not_mem_nil,rfl⟩
    | advanced _ _ advances _ => exact absurd advances deaf.stays

theorem Deaf.run (mode : cfg.timerMode ≠ .withhold) (handlers : cfg.startEvidence = false) (deaf : Deaf cfg v g)
    {later : List GoEvent} (run : (goMachine p cfg).Run g later g') :
    (Deaf cfg v g' ∧ g'.acked = g.acked) ∧ ∀ e ∈ later, e.listens = false := by
  refine run.history (I := fun past g' => (Deaf cfg v g' ∧ g'.acked = g.acked) ∧ ∀ e ∈ past, e.listens = false)
    ⟨⟨deaf,rfl⟩,fun e member => absurd member List.not_mem_nil⟩ ?_
  rintro past g₁ e g₂ _ ⟨⟨deaf,acked⟩,listened⟩ enabled moved
  obtain ⟨⟨_,sends⟩,stepped,rfl⟩ := Option.map_eq_some_iff.mp moved
  obtain ⟨⟨deaf',acked'⟩,ignored⟩ := deaf.step mode handlers enabled stepped
  refine ⟨⟨deaf',acked'.trans acked⟩,fun e' member => ?_⟩
  rcases List.mem_append.mp member with old | new
  · exact listened e' old
  · rw [List.mem_singleton.mp new]
    exact ignored

end Steps

/-! ## The flood -/

def forwardArrives (prop : Proposal) : List GoEvent := [.arrive (.prop prop),.accept 0,.dispatch,.push]

/-- As many forwards as there is room for, and one more. -/
def flood (prop : Proposal) : Nat → List GoEvent
  | 0 => [.arrive (.prop prop),.accept 0,.dispatch]
  | room + 1 => forwardArrives prop ++ flood prop room

section Flood

variable {p : Platform} {cfg : NodeConfig} {v : Nat} {g : GoNode} {prop : Proposal}

theorem run_dispatch (idle : g.msgChannel = .empty) (free : g.loop = none) (other : prop.forwardSender ≠ g.state.leader) :
    (goMachine p cfg).Run g [.arrive (.prop prop),.accept 0,.dispatch] { g with loop := some prop } := by
  have arrived : (goMachine p cfg).Run g ([] ++ [.arrive (.prop prop)])
      { g with msgChannel := ⟨[],[.prop prop]⟩ } :=
    .snoc .nil trivial (by simp [goMachine,GoNode.step,idle,Channel.send,Channel.empty])
  have accepted : (goMachine p cfg).Run g ([] ++ [.arrive (.prop prop)] ++ [.accept 0])
      { g with msgChannel := ⟨[.prop prop],[]⟩ } :=
    .snoc arrived (show 0 < 1 ∧ 0 < protocolMsgBuffer by decide) rfl
  refine .snoc accepted ⟨free,List.cons_ne_nil _ _⟩ ?_
  simp [goMachine,GoNode.step,Channel.receive,GoNode.receives,other,idle,Channel.empty]

theorem run_forward (idle : g.msgChannel = .empty) (free : g.loop = none) (other : prop.forwardSender ≠ g.state.leader)
    (room : (g.channels .propose).buffer.length < protocolMsgBuffer) :
    (goMachine p cfg).Run g (forwardArrives prop)
      { g with channels := Function.update g.channels .propose ((g.channels .propose).put ⟨.proposeChannel prop,rfl⟩) } := by
  refine .snoc (run_dispatch idle free other) ⟨rfl,room⟩ ?_
  simp [goMachine,GoNode.step,free]

theorem flood_deafens (waits : AwaitsVotes cfg v g) (idle : g.msgChannel = .empty) (free : g.loop = none)
    (other : prop.forwardSender ≠ g.state.leader) (room : Nat)
    (left : room = protocolMsgBuffer - (g.channels .propose).buffer.length) :
    ∃ g', (goMachine p cfg).Run g (flood prop room) g' ∧ Deaf cfg v g' ∧ g'.acked = g.acked := by
  induction room generalizing g with
  | zero =>
    refine ⟨_,run_dispatch idle free other,⟨⟨waits.view,waits.complete,waits.stays,waits.votes,waits.inert⟩,rfl,?_⟩,rfl⟩
    change protocolMsgBuffer ≤ (g.channels .propose).buffer.length
    omega
  | succ room ih =>
    obtain ⟨g',run,deaf,acked⟩ := ih (g := { g with
        channels := Function.update g.channels .propose ((g.channels .propose).put ⟨.proposeChannel prop,rfl⟩) })
      ⟨waits.view,waits.complete,waits.stays,waits.votes,waits.inert⟩ idle free other
      (by simp only [Function.update_self, Channel.put, List.length_append, List.length_singleton]; omega)
    exact ⟨g',(run_forward idle free other (by omega)).append run,deaf,acked⟩

/-- A node that has completed its set of forwards and counted the votes it knows of, without a certificate so far, is
silenced by one sender: forwards of any content, at most one more than `proposeChannel` holds, stop `protocol` for
good. Whatever arrives and whatever timers fire afterwards, no handler takes another message, the node stays
in its view and acknowledges no further block. -/
theorem flooded_node_is_deaf (mode : cfg.timerMode ≠ .withhold) (handlers : cfg.startEvidence = false)
    (waits : AwaitsVotes cfg v g) (idle : g.msgChannel = .empty) (free : g.loop = none)
    (other : prop.forwardSender ≠ g.state.leader) :
    ∃ g', (goMachine p cfg).Run g (flood prop (protocolMsgBuffer - (g.channels .propose).buffer.length)) g' ∧
      ∀ later g'', (goMachine p cfg).Run g' later g'' →
        g''.state.view = v ∧ g''.acked = g.acked ∧ ∀ e ∈ later, e.listens = false := by
  obtain ⟨g',run,deaf,acked⟩ := flood_deafens (p := p) waits idle free other _ rfl
  refine ⟨g',run,fun later g'' onwards => ?_⟩
  obtain ⟨⟨deaf',acked'⟩,ignored⟩ := deaf.run mode handlers onwards
  exact ⟨deaf'.view,acked'.trans acked,ignored⟩

end Flood

def oneOfThree (i : Nat) : NodeConfig := NodeConfig.complete 3 1 false .plain i

def leadersProposal : Proposal := newCandidateProposal transparent (oneOfThree 0) .init [[1]] genesisCert 1 []

/-- Node one has the forwards of both followers and its own vote, which is not enough for a certificate. -/
def forwardsComplete : List GoEvent :=
  [.connect,.arrive (.prop leadersProposal),.accept 0,.dispatch,.run 0 [],.enter .propose 0,.handle .propose [],
    .arrive (.prop (signForward transparent (oneOfThree 2) leadersProposal)),.accept 0,.dispatch,.push,.handle .propose [],
    .run 0 [],.enter .vote 0,.handle .vote [1]]

theorem third_node_silences_second : ∃ g g', (goMachine transparent (oneOfThree 1)).Run .init forwardsComplete g ∧
    (goMachine transparent (oneOfThree 1)).Run g
      (flood (signForward transparent (oneOfThree 2) leadersProposal) protocolMsgBuffer) g' ∧
    ∀ later g'', (goMachine transparent (oneOfThree 1)).Run g' later g'' →
      g''.state.view = 1 ∧ g''.acked = [] ∧ ∀ e ∈ later, e.listens = false := by
  obtain ⟨g,run,⟨view,leader,reads,stays⟩,⟨votes,senders⟩,idle,⟨buffered,arriving⟩,free,room,acked⟩ :=
    Guarded.Machine.reaches (fun g : GoNode =>
      (g.state.view = 1 ∧ g.state.leader = 0 ∧ ¬g.state.readsForwards (oneOfThree 1) ∧ ¬g.state.advances) ∧
      ((g.channels .vote).buffer.length = 0 ∧ (g.channels .vote).waiting.length = 0) ∧ g.goroutines.length = 0 ∧
      (g.msgChannel.buffer.length = 0 ∧ g.msgChannel.waiting.length = 0) ∧ g.loop.isNone = true ∧
      (g.channels .propose).buffer.length = 0 ∧ g.acked.length = 0)
    (show ((goMachine transparent (oneOfThree 1)).replay forwardsComplete .init).any _ = true by decide +kernel)
  have waits : AwaitsVotes (oneOfThree 1) 1 g := by
    refine ⟨view,reads,stays,?_,fun job member => ?_⟩
    · rw [Channel.contents, List.length_eq_zero_iff.mp votes, List.length_eq_zero_iff.mp senders]
      rfl
    · rw [List.length_eq_zero_iff.mp idle] at member
      exact absurd member List.not_mem_nil
  have quiet : g.msgChannel = .empty :=
    Channel.ext (List.length_eq_zero_iff.mp buffered) (List.length_eq_zero_iff.mp arriving)
  obtain ⟨g',flooded,deaf⟩ := @flooded_node_is_deaf transparent (oneOfThree 1) 1 g
    (signForward transparent (oneOfThree 2) leadersProposal) (by decide) rfl waits quiet
    (Option.isNone_iff_eq_none.mp free) (by rw [leader]; decide)
  rw [room, Nat.sub_zero] at flooded
  rw [List.length_eq_zero_iff.mp acked] at deaf
  exact ⟨g,g',run,flooded,deaf⟩

end ReputationSMR

import ReputationSMR.Unanimity

/-! Where the commands of a proposal come from. `Init` makes the pool with a thousand entries, all
of them nil, where room for a thousand was meant; from then on the pool is conserved, but the nil
commands are proposed like the others. -/
namespace ReputationSMR

open Wire FiniteMap

/-! ## The commands that a round draws -/

/-- The goroutine of the round calls one of the proposing functions. -/
def SyncHS.callsPropose (cfg : NodeConfig) (n : SyncHS) : Prop :=
  match cfg.timerMode with
  | .plain | .equivocation | .maliciousVote => n.leader = cfg.id
  | .withhold => n.leader % 2 = 0 ∧ n.leader = cfg.id
  | .maliciousProposal => n.leader = cfg.id ∨ cfg.id % 2 ≠ 0

instance (cfg : NodeConfig) (n : SyncHS) : Decidable (n.callsPropose cfg) := by
  simp only [SyncHS.callsPropose]
  split <;> infer_instance

/-- What `getCmdsIfSufficient` returns to the proposing functions, which call it when the head is
certified. -/
def SyncHS.draw (cfg : NodeConfig) (n : SyncHS) : Option (List Bytes) :=
  (n.getCertForBlockIndex n.bc.head).bind fun _ => (n.getCmdsIfSufficient cfg).map Prod.fst

def SyncHS.batch (cfg : NodeConfig) (n : SyncHS) : Option (List Bytes) :=
  if n.callsPropose cfg then n.draw cfg else none

def Outgoing.proposals : Outgoing → List Proposal
  | .broadcast (.prop prop) => [prop]
  | .equivocating (.prop prop1) (.prop prop2) => [prop1,prop2]
  | _ => []

def Job.drafts : Job → List Proposal
  | .proposed prop | .maliPropseChannel prop => [prop]
  | _ => []

def Effect.proposals (effect : Effect) : List Proposal :=
  effect.jobs.flatMap Job.drafts ++ effect.sends.flatMap Outgoing.proposals

/-- The pool loses the batch, which is a full block and the body of every proposal. -/
structure Draws (cfg : NodeConfig) (n n' : SyncHS) (effect : Effect) (batch : Option (List Bytes)) : Prop where
  pool : n'.pendingCommands ++ batch.getD [] = n.pendingCommands
  size : ∀ cmds ∈ batch, cmds.length = cfg.blockSize
  proposals : ∀ prop ∈ effect.proposals, prop.getTxs ∈ batch

section Draws

variable {p : Platform} {cfg : NodeConfig} {n n' : SyncHS} {effect : Effect}

theorem Draws.none (kept : n'.pendingCommands = n.pendingCommands) : Draws cfg n n' .none Option.none := by
  constructor
  · simp [kept]
  · simp
  · simp [Effect.proposals, Effect.none]

theorem Draws.some {cmds : List Bytes} {rest : SyncHS} (taken : n.getCmdsIfSufficient cfg = Option.some (cmds,rest))
    (kept : n'.pendingCommands = rest.pendingCommands) (proposals : ∀ prop ∈ effect.proposals, prop.getTxs = cmds) :
    Draws cfg n n' effect (Option.some cmds) := by
  rw [SyncHS.getCmdsIfSufficient] at taken
  split at taken
  next => contradiction
  next enough =>
    obtain ⟨rfl,rfl⟩ := Prod.mk.inj (Option.some.inj taken)
    constructor
    · rw [kept]
      exact List.take_append_drop _ _
    · intro cmds drawn
      obtain rfl := Option.some.inj drawn
      rw [List.length_drop]
      omega
    · intro prop member
      rw [proposals prop member]
      rfl

theorem SyncHS.draw_withholding (flag : Bool) : { n with withholdingProposalInject := flag }.draw cfg = n.draw cfg := by
  simp only [SyncHS.draw, SyncHS.getCertForBlockIndex, SyncHS.getCmdsIfSufficient]
  congr 1
  funext _
  split <;> rfl

theorem draws_of_frame {act : BlockCertificate → List Bytes → SyncHS → Outcome}
    (acts : ∀ cert cmds rest n' effect, act cert cmds rest = some (n',effect) →
      n'.pendingCommands = rest.pendingCommands ∧ ∀ prop ∈ effect.proposals, prop.getTxs = cmds)
    (ran : (match n.getCertForBlockIndex n.bc.head with
      | none => some (n,.none)
      | some cert => match n.getCmdsIfSufficient cfg with
        | none => some (n,.none)
        | some (cmds,rest) => act cert cmds rest) = some (n',effect)) : Draws cfg n n' effect (n.draw cfg) := by
  rw [SyncHS.draw]
  split at ran
  next refused =>
    obtain ⟨rfl,rfl⟩ := Prod.mk.inj (Option.some.inj ran)
    rw [refused]
    exact .none rfl
  next cert certified =>
    rw [certified]
    split at ran
    next refused =>
      obtain ⟨rfl,rfl⟩ := Prod.mk.inj (Option.some.inj ran)
      simp only [refused, Option.bind_some, Option.map_none]
      exact .none rfl
    next cmds rest taken =>
      obtain ⟨kept,proposals⟩ := acts cert cmds rest n' effect ran
      simp only [taken, Option.bind_some, Option.map_some]
      exact .some taken kept proposals

theorem propose_draws (ran : propose p cfg n = some (n',effect)) : Draws cfg n n' effect (n.draw cfg) := by
  refine draws_of_frame ?_ ran
  intro cert cmds rest n' effect acted
  obtain ⟨rfl,rfl⟩ := Prod.mk.inj (Option.some.inj acted)
  exact ⟨rfl,by simp [Effect.proposals, Job.drafts, Proposal.getTxs, newCandidateProposal]⟩

theorem equivocationpropose_draws (ran : equivocationpropose p cfg n = some (n',effect)) :
    Draws cfg n n' effect (n.draw cfg) := by
  refine draws_of_frame ?_ ran
  intro cert cmds rest n' effect acted
  obtain ⟨rfl,rfl⟩ := Prod.mk.inj (Option.some.inj acted)
  exact ⟨rfl,by simp [Effect.proposals, Outgoing.proposals, Proposal.getTxs, newCandidateProposal]⟩

theorem maliciousproposalpropose_draws (ran : maliciousproposalpropose p cfg n = some (n',effect)) :
    Draws cfg n n' effect (n.draw cfg) := by
  refine draws_of_frame ?_ ran
  intro cert cmds rest n' effect acted
  obtain ⟨rfl,rfl⟩ := Prod.mk.inj (Option.some.inj acted)
  exact ⟨rfl,by simp [Effect.proposals, Job.drafts, Outgoing.proposals, Proposal.getTxs, newCandidateProposal]⟩

theorem startRound_draws (ran : startRound p cfg n = some (n',effect)) : Draws cfg n n' effect (n.batch cfg) := by
  have calls (yes : n.callsPropose cfg) (draws : Draws cfg n n' effect (n.draw cfg)) :
      Draws cfg n n' effect (n.batch cfg) := by
    rwa [SyncHS.batch, if_pos yes]
  have idle {m : SyncHS} (no : ¬n.callsPropose cfg) (same : some (m,Effect.none) = some (n',effect))
      (kept : m.pendingCommands = n.pendingCommands) : Draws cfg n n' effect (n.batch cfg) := by
    obtain ⟨rfl,rfl⟩ := Prod.mk.inj (Option.some.inj same)
    rw [SyncHS.batch, if_neg no]
    exact .none kept
  simp only [startRound] at ran
  cases mode : cfg.timerMode with
  | plain =>
    simp only [SyncHS.callsPropose, mode] at ran calls idle
    split at ran
    next leads => exact calls leads (propose_draws ran)
    next follows => exact idle follows ran rfl
  | withhold =>
    simp only [SyncHS.callsPropose, mode] at ran calls idle
    split at ran
    next odd =>
      refine idle (by omega) ran ?_
      rw [handleWithholdingProposal]
      split <;> rfl
    next even =>
      split at ran
      next leads =>
        have draws := propose_draws ran
        rw [SyncHS.draw_withholding] at draws
        exact calls ⟨by omega,leads⟩ ⟨draws.pool,draws.size,draws.proposals⟩
      next follows => exact idle (by omega) ran rfl
  | equivocation =>
    simp only [SyncHS.callsPropose, mode] at ran calls idle
    split at ran
    next leads =>
      split at ran
      next => exact calls leads (equivocationpropose_draws ran)
      next => exact calls leads (propose_draws ran)
    next follows => exact idle follows ran rfl
  | maliciousProposal =>
    simp only [SyncHS.callsPropose, mode] at ran calls idle
    split at ran
    next leads => exact calls (Or.inl leads) (propose_draws ran)
    next follows =>
      split at ran
      next odd => exact calls (Or.inr odd) (maliciousproposalpropose_draws ran)
      next even => exact idle (by omega) ran rfl
  | maliciousVote =>
    simp only [SyncHS.callsPropose, mode] at ran calls idle
    split at ran
    next leads => exact calls leads (propose_draws ran)
    next follows =>
      split at ran
      next => exact idle follows ran rfl
      next => exact idle follows ran rfl

end Draws

/-! ## The pool along a run -/

/-- A node with the commands that its clients have sent and the batches that were drawn. -/
structure PooledNode where
  node : Node
  received : List Bytes
  batches : List (List Bytes)

def NodeEvent.commands : NodeEvent → List Bytes
  | .command cmd => [cmd]
  | _ => []

/-- The batch that is drawn when the event starts a round. -/
def Node.draws (cfg : NodeConfig) (node : Node) (e : NodeEvent) : Option (List Bytes) :=
  match node.taken e with
  | some .round => node.state.batch cfg
  | _ => none

namespace PooledNode

def init : PooledNode := ⟨.init,[],[]⟩

def step (p : Platform) (cfg : NodeConfig) (s : PooledNode) (e : NodeEvent) : Option PooledNode :=
  ((nodeMachine p cfg).step s.node e).map fun node =>
    ⟨node,s.received ++ e.commands,s.batches ++ (s.node.draws cfg e).toList⟩

def pooled (s : PooledNode) : List Bytes := s.node.state.pendingCommands ++ s.batches.flatten

end PooledNode

def poolMachine (p : Platform) (cfg : NodeConfig) : Guarded.Machine PooledNode NodeEvent :=
  ⟨fun s e => s.node.enabled cfg e,PooledNode.step p cfg⟩

instance (p : Platform) (cfg : NodeConfig) (s : PooledNode) (e : NodeEvent) :
    Decidable ((poolMachine p cfg).enabled s e) :=
  inferInstanceAs (Decidable (s.node.enabled cfg e))

section Pool

variable {p : Platform} {cfg : NodeConfig} {node node' : Node} {s : PooledNode} {e : NodeEvent}

theorem pool_event (moved : (nodeMachine p cfg).step node e = some node') :
    node'.state.pendingCommands ++ (node.draws cfg e).getD [] = node.state.pendingCommands ++ e.commands ∧
      ∀ cmds ∈ node.draws cfg e, cmds.length = cfg.blockSize := by
  have untouched (draws : node.draws cfg e = none) (commands : e.commands = [])
      (kept : node'.state.pendingCommands = node.state.pendingCommands) :
      node'.state.pendingCommands ++ (node.draws cfg e).getD [] = node.state.pendingCommands ++ e.commands ∧
        ∀ cmds ∈ node.draws cfg e, cmds.length = cfg.blockSize := by
    rw [draws, commands, kept]
    simp
  obtain ⟨⟨_,sends⟩,stepped,rfl⟩ := Option.map_eq_some_iff.mp moved
  cases e with
  | connect =>
    obtain ⟨rfl,_⟩ := Prod.mk.inj (Option.some.inj stepped)
    exact untouched rfl rfl rfl
  | receive m =>
    obtain ⟨rfl,_⟩ := Prod.mk.inj (Option.some.inj stepped)
    exact untouched rfl rfl rfl
  | command cmd =>
    obtain ⟨⟨n',effect⟩,ran,same⟩ := Option.map_eq_some_iff.mp stepped
    obtain ⟨rfl,rfl⟩ := Prod.mk.inj same
    simp [Node.draws, Node.taken, NodeEvent.commands, command_commands ran]
  | callback =>
    obtain ⟨⟨n',effect⟩,ran,same⟩ := Option.map_eq_some_iff.mp stepped
    obtain ⟨rfl,rfl⟩ := Prod.mk.inj same
    apply untouched rfl rfl
    cases callback_cases ran <;> rfl
  | work index order =>
    cases found : node.pending[index]? with
    | none => simp [Node.step, found] at stepped
    | some job =>
      simp only [Node.step, found] at stepped
      obtain ⟨⟨n',effect⟩,ran,same⟩ := Option.map_eq_some_iff.mp stepped
      obtain ⟨rfl,rfl⟩ := Prod.mk.inj same
      by_cases round : job = .round
      · subst round
        have draws : node.draws cfg (.work index order) = node.state.batch cfg := by
          simp only [Node.draws, Node.taken, found]
        rw [draws]
        exact ⟨by simpa [NodeEvent.commands] using (startRound_draws ran).pool,(startRound_draws ran).size⟩
      · refine untouched ?_ rfl ((runJob_cases ran).commands round)
        simp only [Node.draws, Node.taken, found]
        cases job <;> simp at round ⊢

/-- The pool and the batches hold what clients have sent and the thousand nil commands of `Init`. -/
structure Conserved (cfg : NodeConfig) (s : PooledNode) : Prop where
  commands : s.pooled.Perm (s.received ++ List.replicate 1000 [])
  sizes : ∀ cmds ∈ s.batches, cmds.length = cfg.blockSize

theorem Conserved.step {t : PooledNode} (conserved : Conserved cfg s)
    (moved : (poolMachine p cfg).step s e = some t) : Conserved cfg t := by
  obtain ⟨node,stepped,rfl⟩ := Option.map_eq_some_iff.mp moved
  obtain ⟨pool,size⟩ := pool_event stepped
  have drawn : ((s.node.draws cfg e).toList).flatten = (s.node.draws cfg e).getD [] := by
    cases s.node.draws cfg e <;> simp
  constructor
  · apply List.perm_iff_count.mpr
    intro cmd
    have before := conserved.commands.count_eq cmd
    have now := congrArg (List.count cmd) pool
    simp only [PooledNode.pooled, List.flatten_append, drawn, List.count_append] at before now ⊢
    omega
  · intro cmds member
    rcases List.mem_append.mp member with earlier | now
    · exact conserved.sizes cmds earlier
    · exact size cmds (Option.mem_toList.mp now)

theorem Conserved.run {trace : List NodeEvent} (run : (poolMachine p cfg).Run .init trace s) : Conserved cfg s := by
  apply run.invariant (I := Conserved cfg)
  · constructor
    · rw [show PooledNode.init.pooled = List.replicate 1000 [] ++ [] from rfl, List.append_nil]
      exact List.Perm.refl _
    · simp [PooledNode.init]
  · intro s e t conserved _ moved
    exact conserved.step moved

/-- Nothing is lost, and nothing is added to what clients send but the thousand nil commands of
`Init`, so no run conserves the commands of the clients. A proposal carries the batch of its round. -/
theorem pool_not_conserved {trace : List NodeEvent} (run : (poolMachine p cfg).Run .init trace s) :
    ¬s.pooled.Perm s.received ∧
    s.pooled.Perm (s.received ++ List.replicate 1000 []) ∧
    (∀ cmds ∈ s.batches, cmds.length = cfg.blockSize) ∧
    (∀ e t, (poolMachine p cfg).step s e = some t → e.commands = [] → s.node.draws cfg e = none →
      t.node.state.pendingCommands = s.node.state.pendingCommands) ∧
    ∀ n' effect, startRound p cfg s.node.state = some (n',effect) →
      ∀ prop ∈ effect.proposals, prop.getTxs ∈ s.node.state.batch cfg := by
  have conserved := Conserved.run run
  refine ⟨?_,conserved.commands,conserved.sizes,?_,?_⟩
  · intro received
    have same := (received.symm.trans conserved.commands).length_eq
    rw [List.length_append, List.length_replicate] at same
    omega
  · intro e t moved silent refused
    obtain ⟨node,stepped,rfl⟩ := Option.map_eq_some_iff.mp moved
    simpa [silent, refused] using (pool_event stepped).1
  · exact fun n' effect ran => (startRound_draws ran).proposals

/-- One command reaches a leader with blocks of two: its block has a command that no client sent. -/
theorem proposed_block_has_nil_command :
    ∃ s, (poolMachine transparent (.complete 2 2 true .plain 0)).Run .init [.connect,.command [1],.work 0 []] s ∧
      s.received = [[1]] ∧ s.batches = [[[],[1]]] ∧
      (s.node.state.bc.blocksByHeight.lookup 1).map ExtBlock.getTxs = some [[],[1]] ∧
      ¬s.pooled.Perm s.received := by
  obtain ⟨s,run,received,batches,block,length⟩ : ∃ s, (poolMachine transparent (.complete 2 2 true .plain 0)).Run
      .init [.connect,.command [1],.work 0 []] s ∧ s.received = [[1]] ∧ s.batches = [[[],[1]]] ∧
      (s.node.state.bc.blocksByHeight.lookup 1).map ExtBlock.getTxs = some [[],[1]] ∧ s.pooled.length = 1001 := by
    apply Guarded.Machine.reaches
    decide +kernel
  refine ⟨s,run,received,batches,block,?_⟩
  intro perm
  have same := perm.length_eq
  rw [length, received] at same
  simp at same

/-- A pool of a thousand and one commands, of which one is from a client. -/
theorem pool_after_one_command :
    ∃ s, (poolMachine transparent (.complete 2 2 true .plain 0)).Run .init [.connect,.command [1]] s ∧
      s.pooled.Perm ([[1]] ++ List.replicate 1000 []) := by
  obtain ⟨s,run,received⟩ : ∃ s, (poolMachine transparent (.complete 2 2 true .plain 0)).Run .init
      [.connect,.command [1]] s ∧ s.received = [[1]] := by
    apply Guarded.Machine.reaches
    decide +kernel
  have conserved := (pool_not_conserved run).2.1
  rw [received] at conserved
  exact ⟨s,run,conserved⟩

end Pool

end ReputationSMR

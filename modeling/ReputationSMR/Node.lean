import ReputationSMR.Client
import ReputationSMR.Machine

/-! A node as a machine. Its events are what the environment does to it (a client
connects or sends a command, a message arrives, a timer fires) and the scheduling of
its own pending work, in any order. -/
namespace ReputationSMR

open Wire FiniteMap

/-- `protocol`: the channel or goroutine that takes a received message. -/
def protocol (cfg : NodeConfig) (n : SyncHS) (m : SyncHSMsg) : List Job :=
  match m with
  | .prop prop =>
    if prop.forwardSender = n.leader then
      if prop.miner = n.leader then [.forward prop] else [.maliPropseChannel prop]
    else [.proposeChannel prop]
  | .vote v => [.voteChannel v]
  | .eqevidence e => if cfg.startEvidence then [.eqEvidenceChannel e] else []
  | .mpevidence e => if cfg.startEvidence then [.maliProEvidenceChannel e] else []
  | .mvevidence e => if cfg.startEvidence then [.maliVoteEvidenceChannel e] else []
  | .ack _ | .tx _ | .unset => []

def Job.fromNetwork : Job → Bool
  | .forward _ | .proposeChannel _ | .maliPropseChannel _ | .voteChannel _ | .eqEvidenceChannel _
  | .maliProEvidenceChannel _ | .maliVoteEvidenceChannel _ => true
  | _ => false

theorem protocol_fromNetwork {cfg : NodeConfig} {n : SyncHS} {m : SyncHSMsg} {job : Job}
    (member : job ∈ protocol cfg n m) : job.fromNetwork = true := by
  revert job
  simp only [protocol]
  split
  next =>
    split
    next => split <;> simp [Job.fromNetwork]
    next => simp [Job.fromNetwork]
  all_goals first | split <;> simp [Job.fromNetwork] | simp [Job.fromNetwork]

/-- The code that takes a pending job; `order` is used by the traversal in `NewCert`. -/
def runJob (p : Platform) (cfg : NodeConfig) (n : SyncHS) (order : List Nat) (job : Job) : Outcome :=
  match job with
  | .forward prop => forward p cfg n prop
  | .proposeChannel prop => forwardProposalHandler p cfg n prop
  | .maliPropseChannel prop => maliciousPropsoalHandler p cfg n prop
  | .voteChannel v => voteHandler p cfg n v order
  | .eqEvidenceChannel e => equivocationEvidenceHandler p cfg n e
  | .maliProEvidenceChannel e => maliciousProposalEvidenceHandler p cfg n e
  | .maliVoteEvidenceChannel e => maliciousVoteEvidenceHandler p cfg n e
  | .round => startRound p cfg n
  | .proposed prop => proposed n prop
  | .vote ep => voteAfterForwards p cfg n ep
  | .addCert bc height => some (n.addCert bc height,.none)
  | .sendEqProEvidence prop1 prop2 => sendEqProEvidence p cfg n prop1 prop2
  | .sendMalivoteEvidence v => sendMalivoteEvidence p cfg n v

/-- Whether some goroutine takes the job in the present state. The evidence handlers and
the handler of malicious proposals run only when they are compiled in, and the handler
of forwards waits while its set is complete. -/
def takes (cfg : NodeConfig) (n : SyncHS) (job : Job) : Bool :=
  match job with
  | .proposeChannel _ => decide (n.readsForwards cfg)
  | .maliPropseChannel _ | .eqEvidenceChannel _ | .maliProEvidenceChannel _
  | .maliVoteEvidenceChannel _ => cfg.startEvidence
  | _ => true

/-- The acknowledgements are kept with the view in which they were sent. -/
structure Node where
  state : SyncHS
  pending : List Job
  acked : List (Nat × ExtBlock)

inductive NodeEvent where
  | connect
  | command (cmd : Bytes)
  | receive (m : SyncHSMsg)
  | work (index : Nat) (order : List Nat)
  | callback

def Node.init : Node := ⟨.init,[],[]⟩

def Node.apply (node : Node) (pending : List Job) (outcome : Outcome) : Option (Node × List Outgoing) :=
  outcome.map fun (n,effect) =>
    (⟨n,pending ++ effect.jobs,node.acked ++ effect.acks.map fun b => (node.state.view,b)⟩,effect.sends)

namespace Node

/-- The callback runs only when a timer was started. -/
def enabled (cfg : NodeConfig) (node : Node) : NodeEvent → Prop
  | .work index _ => node.pending[index]?.any (takes cfg node.state) = true
  | .callback => 0 < node.state.timers
  | _ => True

instance (cfg : NodeConfig) (node : Node) (e : NodeEvent) : Decidable (node.enabled cfg e) :=
  match e with
  | .connect | .command _ | .receive _ => isTrue trivial
  | .work index _ => inferInstanceAs (Decidable (node.pending[index]?.any (takes cfg node.state) = true))
  | .callback => inferInstanceAs (Decidable (0 < node.state.timers))

def step (p : Platform) (cfg : NodeConfig) (node : Node) : NodeEvent → Option (Node × List Outgoing)
  | .connect => some ({ node with state := clientConnects cfg node.state },[])
  | .command cmd =>
    node.apply node.pending (addCmdsAndStartTimerIfSufficientCommands cfg node.state cmd)
  | .receive m => some ({ node with pending := node.pending ++ protocol cfg node.state m },[])
  | .work index order =>
    match node.pending[index]? with
    | none => none
    | some job => node.apply (node.pending.eraseIdx index) (runJob p cfg node.state order job)
  | .callback =>
    node.apply node.pending (callback p cfg { node.state with timers := node.state.timers - 1 })

end Node

/-- One node among arbitrary others: every message may arrive at every time. A command is one step;
`startMachine` has the instructions of its goroutine apart. -/
def nodeMachine (p : Platform) (cfg : NodeConfig) : Guarded.Machine Node NodeEvent :=
  ⟨Node.enabled cfg,fun node e => (node.step p cfg e).map Prod.fst⟩

instance (p : Platform) (cfg : NodeConfig) (node : Node) (e : NodeEvent) :
    Decidable ((nodeMachine p cfg).enabled node e) :=
  inferInstanceAs (Decidable (node.enabled cfg e))

end ReputationSMR

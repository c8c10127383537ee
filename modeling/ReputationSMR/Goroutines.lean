import ReputationSMR.Channel
import ReputationSMR.StreamCluster

/-! A node as goroutines that share bounded channels. `react` puts a decoded message into `msgChannel`,
`protocol` takes it out and passes it on: a proposal of another sender than the leader it sends to
`proposeChannel` itself, everything else is left to a goroutine. A full channel makes its senders wait,
`protocol` among them. The model of a node as a list of pending jobs abstracts from the channels,
their order and their capacity. -/
namespace ReputationSMR

open Wire FiniteMap Bounded

/-- The channels of a node, `msgChannel` apart. -/
inductive Port where
  | vote | propose | maliPropse | eqEvidence | maliProEvidence | maliVoteEvidence
  deriving DecidableEq

instance : Fintype Port where
  elems := {.vote,.propose,.maliPropse,.eqEvidence,.maliProEvidence,.maliVoteEvidence}
  complete port := by cases port <;> decide

/-- The channel that a job goes through; the other jobs are goroutines of their own. -/
def Job.port : Job → Option Port
  | .voteChannel _ => some .vote
  | .proposeChannel _ => some .propose
  | .maliPropseChannel _ => some .maliPropse
  | .eqEvidenceChannel _ => some .eqEvidence
  | .maliProEvidenceChannel _ => some .maliProEvidence
  | .maliVoteEvidenceChannel _ => some .maliVoteEvidence
  | _ => none

abbrev JobAt (port : Option Port) : Type := { job : Job // job.port = port }

/-- While `protocol` sends a proposal to `proposeChannel`, `loop` holds it. -/
structure GoNode where
  state : SyncHS
  msgChannel : Channel SyncHSMsg
  loop : Option Proposal
  channels : (port : Port) → Channel (JobAt (some port))
  goroutines : List (JobAt none)
  acked : List (Nat × ExtBlock)

/-- `arrive` starts a goroutine of `react` with a decoded message, `accept` lets it through to `msgChannel`;
`dispatch` and `push` are the two halves of an iteration of `protocol`; `enter` lets a sender through to
a channel, of which `handle` takes the next job; `run` runs a goroutine. -/
inductive GoEvent where
  | connect
  | command (cmd : Bytes)
  | arrive (m : SyncHSMsg)
  | accept (k : Nat)
  | dispatch
  | push
  | enter (port : Port) (k : Nat)
  | handle (port : Port) (order : List Nat)
  | run (index : Nat) (order : List Nat)
  | callback

namespace GoNode

def init : GoNode := ⟨.init,.empty,none,fun _ => .empty,[],[]⟩

/-- A job is started: as the sender to a channel or as a goroutine. -/
def spawn (g : GoNode) (job : Job) : GoNode :=
  match place : job.port with
  | some port => { g with channels := Function.update g.channels port ((g.channels port).send ⟨job,place⟩) }
  | none => { g with goroutines := g.goroutines ++ [⟨job,place⟩] }

def apply (g : GoNode) (outcome : Outcome) : Option (GoNode × List Outgoing) :=
  outcome.map fun (n,effect) =>
    (effect.jobs.foldl spawn { g with
      state := n
      acked := g.acked ++ effect.acks.map fun b => (g.state.view,b) },effect.sends)

/-- The switch of `protocol`. -/
def receives (cfg : NodeConfig) (g : GoNode) (m : SyncHSMsg) : GoNode :=
  match m with
  | .prop prop =>
    if prop.forwardSender = g.state.leader then
      if prop.miner = g.state.leader then g.spawn (.forward prop) else g.spawn (.maliPropseChannel prop)
    else { g with loop := some prop }
  | m => (protocol cfg g.state m).foldl spawn g

def enabled (cfg : NodeConfig) (g : GoNode) : GoEvent → Prop
  | .accept k => k < g.msgChannel.waiting.length ∧ g.msgChannel.buffer.length < protocolMsgBuffer
  | .dispatch => g.loop = none ∧ g.msgChannel.buffer ≠ []
  | .push => g.loop.isSome ∧ (g.channels .propose).buffer.length < protocolMsgBuffer
  | .enter port k => k < (g.channels port).waiting.length ∧ (g.channels port).buffer.length < protocolMsgBuffer
  | .handle port _ => (g.channels port).buffer.head?.any (fun job => takes cfg g.state job.val) = true
  | .callback => 0 < g.state.timers
  | .run index _ => index < g.goroutines.length
  | _ => True

instance (cfg : NodeConfig) (g : GoNode) (e : GoEvent) : Decidable (g.enabled cfg e) :=
  match e with
  | .accept _ | .dispatch | .push => inferInstanceAs (Decidable (_ ∧ _))
  | .enter port k => inferInstanceAs (Decidable (k < (g.channels port).waiting.length ∧ _))
  | .handle port _ => inferInstanceAs (Decidable ((g.channels port).buffer.head?.any _ = true))
  | .callback | .run _ _ => inferInstanceAs (Decidable (_ < _))
  | .connect | .command _ | .arrive _ => isTrue trivial

def step (p : Platform) (cfg : NodeConfig) (g : GoNode) : GoEvent → Option (GoNode × List Outgoing)
  | .connect => some ({ g with state := clientConnects cfg g.state },[])
  | .command cmd => g.apply (addCmdsAndStartTimerIfSufficientCommands cfg g.state cmd)
  | .arrive m => some ({ g with msgChannel := g.msgChannel.send m },[])
  | .accept k => (g.msgChannel.enter k).map fun ch => ({ g with msgChannel := ch },[])
  | .dispatch => g.msgChannel.receive.map fun (m,ch) => ({ g with msgChannel := ch }.receives cfg m,[])
  | .push => g.loop.map fun prop =>
      ({ g with
        loop := none
        channels := Function.update g.channels .propose ((g.channels .propose).put ⟨.proposeChannel prop,rfl⟩) },[])
  | .enter port k => ((g.channels port).enter k).map fun ch =>
      ({ g with channels := Function.update g.channels port ch },[])
  | .handle port order =>
    match (g.channels port).receive with
    | none => none
    | some (job,ch) =>
      { g with channels := Function.update g.channels port ch }.apply (runJob p cfg g.state order job.val)
  | .run index order =>
    match g.goroutines[index]? with
    | none => none
    | some job => { g with goroutines := g.goroutines.eraseIdx index }.apply (runJob p cfg g.state order job.val)
  | .callback => g.apply (ReputationSMR.callback p cfg { g.state with timers := g.state.timers - 1 })

def pending (g : GoNode) : Multiset Job :=
  Multiset.ofList (g.loop.toList.map Job.proposeChannel) +
    ∑ port, (g.channels port).contents.map Subtype.val + Multiset.ofList (g.goroutines.map Subtype.val)

end GoNode

def goMachine (p : Platform) (cfg : NodeConfig) : Guarded.Machine GoNode GoEvent :=
  ⟨GoNode.enabled cfg,fun g e => (g.step p cfg e).map Prod.fst⟩

instance (p : Platform) (cfg : NodeConfig) (g : GoNode) (e : GoEvent) : Decidable ((goMachine p cfg).enabled g e) :=
  inferInstanceAs (Decidable (g.enabled cfg e))

/-! ## Where the jobs are -/

section Pending

variable {p : Platform} {cfg : NodeConfig} {g g' : GoNode}

theorem GoNode.pending_update (g : GoNode) (port : Port) (ch : Channel (JobAt (some port))) :
    { g with channels := Function.update g.channels port ch }.pending + (g.channels port).contents.map Subtype.val =
      g.pending + ch.contents.map Subtype.val := by
  have moved := sum_update_add (fun port (ch : Channel (JobAt (some port))) => ch.contents.map Subtype.val) g.channels port ch
  have shuffle (a b c d e : Multiset Job) (same : b + d = c + e) (rest : Multiset Job) :
      a + b + rest + d = a + c + rest + e := by
    rw [add_right_comm, add_assoc a b d, same]
    abel
  exact shuffle _ _ _ _ _ moved _

theorem GoNode.pending_spawn (g : GoNode) (job : Job) : (g.spawn job).pending = g.pending + {job} := by
  rw [spawn]
  split
  next port place =>
    have moved := g.pending_update port ((g.channels port).send ⟨job,place⟩)
    rw [Channel.contents_send, Multiset.map_add, Multiset.map_singleton, ← add_assoc,
      add_right_comm _ (Multiset.map _ _) _] at moved
    exact add_right_cancel moved
  next place =>
    simp only [pending, List.map_append, List.map_cons, List.map_nil, ← Multiset.coe_add, Multiset.coe_singleton]
    abel

theorem GoNode.pending_spawns (jobs : List Job) (g : GoNode) :
    (jobs.foldl spawn g).pending = g.pending + Multiset.ofList jobs := by
  induction jobs generalizing g with
  | nil => rw [List.foldl_nil, Multiset.coe_nil, add_zero]
  | cons job rest ih =>
    rw [List.foldl_cons, ih, pending_spawn, ← Multiset.cons_coe, ← Multiset.singleton_add, add_assoc]

theorem GoNode.spawn_unread {β : Type} (f : GoNode → β) (g : GoNode) (job : Job)
    (unread : ∀ channels goroutines, f { g with channels := channels, goroutines := goroutines } = f g) :
    f (g.spawn job) = f g := by
  rw [spawn]
  split
  next => exact unread _ g.goroutines
  next => exact unread g.channels _

theorem GoNode.spawns_unread {β : Type} (f : GoNode → β) (jobs : List Job) (g : GoNode)
    (unread : ∀ (g : GoNode) channels goroutines, f { g with channels := channels, goroutines := goroutines } = f g) :
    f (jobs.foldl spawn g) = f g := by
  induction jobs generalizing g with
  | nil => rfl
  | cons job rest ih => rw [List.foldl_cons, ih, spawn_unread f g job (unread g)]

/-- `protocol` starts the jobs of the message, or keeps one of them to itself. -/
theorem GoNode.pending_receives (g : GoNode) (free : g.loop = none) (m : SyncHSMsg) :
    (g.receives cfg m).pending = g.pending + Multiset.ofList (protocol cfg g.state m) := by
  cases m with
  | prop prop =>
    simp only [receives, protocol]
    split
    next => split <;> exact pending_spawn g _
    next =>
      simp only [pending, free, Option.toList_some, Option.toList_none, List.map_nil, List.map_cons, Multiset.coe_nil,
        Multiset.coe_singleton, zero_add]
      abel
  | _ => exact pending_spawns _ g

theorem GoNode.receives_unread {β : Type} (f : GoNode → β) (g : GoNode) (m : SyncHSMsg)
    (unread : ∀ (g : GoNode) channels goroutines, f { g with channels := channels, goroutines := goroutines } = f g)
    (unread' : ∀ (g : GoNode) loop, f { g with loop := loop } = f g) : f (g.receives cfg m) = f g := by
  cases m with
  | prop prop =>
    simp only [receives]
    split
    next => split <;> exact spawn_unread f g _ (unread g)
    next => exact unread' g _
  | _ => exact spawns_unread f _ g unread

end Pending

/-! ## The simulation of a node -/

/-- The node without its channels: the same jobs are pending. -/
structure Mirrors (g : GoNode) (node : Node) : Prop where
  state : node.state = g.state
  acked : node.acked = g.acked
  pending : Multiset.ofList node.pending = g.pending

/-- Both nodes crash, or both go on and send the same. -/
def Alike : Option (GoNode × List Outgoing) → Option (Node × List Outgoing) → Prop :=
  Option.Rel fun a b => Mirrors a.1 b.1 ∧ a.2 = b.2

section Simulation

variable {p : Platform} {cfg : NodeConfig} {g g' : GoNode} {node : Node}

theorem Mirrors.apply (mirrors : Mirrors g node) {jobs : List Job}
    (rest : Multiset.ofList jobs = g'.pending) (state : g'.state = g.state) (acked : g'.acked = g.acked) (outcome : Outcome) :
    Alike (g'.apply outcome) (node.apply jobs outcome) := by
  cases outcome with
  | none => exact .none
  | some result =>
    refine .some ⟨⟨?_,?_,?_⟩,rfl⟩
    · rw [GoNode.spawns_unread GoNode.state _ _ fun _ _ _ => rfl]
    · rw [GoNode.spawns_unread GoNode.acked _ _ fun _ _ _ => rfl, acked, mirrors.acked, state, mirrors.state]
    · rw [GoNode.pending_spawns, ← Multiset.coe_add, rest]
      rfl

theorem Mirrors.work (p : Platform) (cfg : NodeConfig) (mirrors : Mirrors g node) {job : Job}
    (waits : g'.pending + {job} = g.pending) (state : g'.state = g.state) (acked : g'.acked = g.acked) (order : List Nat) :
    ∃ index, node.pending[index]? = some job ∧
      Alike (g'.apply (runJob p cfg g.state order job)) (node.step p cfg (.work index order)) := by
  have member : job ∈ node.pending := by
    rw [← Multiset.mem_coe, mirrors.pending, ← waits]
    exact Multiset.mem_add.mpr (Or.inr (Multiset.mem_singleton_self job))
  obtain ⟨index,found⟩ := List.mem_iff_getElem?.mp member
  refine ⟨index,found,?_⟩
  simp only [Node.step, found, mirrors.state]
  refine mirrors.apply ?_ state acked _
  have moved : Multiset.ofList (job :: node.pending.eraseIdx index) = node.pending :=
    Multiset.coe_eq_coe.mpr (cons_eraseIdx_perm found)
  rw [mirrors.pending, ← waits, ← Multiset.cons_coe, ← Multiset.singleton_add, add_comm] at moved
  exact add_right_cancel moved

theorem Mirrors.handle (mirrors : Mirrors g node) {port : Port} {order : List Nat}
    (enabled : g.enabled cfg (.handle port order)) : ∃ index, node.enabled cfg (.work index order) ∧
      Alike (g.step p cfg (.handle port order)) (node.step p cfg (.work index order)) := by
  simp only [GoNode.step]
  cases received : (g.channels port).receive with
  | none =>
    have empty : (g.channels port).buffer = [] := by
      rw [Channel.receive] at received
      split at received
      next same => exact same
      next => contradiction
    rw [GoNode.enabled, empty] at enabled
    contradiction
  | some taken =>
    obtain ⟨job,ch⟩ := taken
    have waits : { g with channels := Function.update g.channels port ch }.pending + {job.val} = g.pending := by
      have moved := g.pending_update port ch
      rw [← Channel.contents_receive received, Multiset.map_add, Multiset.map_singleton, ← add_assoc,
        add_right_comm _ (Multiset.map _ _) _] at moved
      exact add_right_cancel moved
    obtain ⟨index,found,alike⟩ := mirrors.work p cfg waits rfl rfl order
    refine ⟨index,?_,alike⟩
    rw [GoNode.enabled, Channel.receive_buffer received] at enabled
    rw [Node.enabled, found, mirrors.state]
    exact enabled

theorem Mirrors.run (mirrors : Mirrors g node) {index : Nat} {order : List Nat}
    (enabled : g.enabled cfg (.run index order)) : ∃ index', node.enabled cfg (.work index' order) ∧
      Alike (g.step p cfg (.run index order)) (node.step p cfg (.work index' order)) := by
  obtain ⟨job,found⟩ : ∃ job, g.goroutines[index]? = some job := ⟨_,List.getElem?_eq_getElem enabled⟩
  simp only [GoNode.step, found]
  have waits : { g with goroutines := g.goroutines.eraseIdx index }.pending + {job.val} = g.pending := by
    have moved : Multiset.ofList ((job :: g.goroutines.eraseIdx index).map Subtype.val) = g.goroutines.map Subtype.val :=
      Multiset.coe_eq_coe.mpr ((cons_eraseIdx_perm found).map _)
    rw [List.map_cons, ← Multiset.cons_coe, ← Multiset.singleton_add] at moved
    rw [GoNode.pending, GoNode.pending, ← moved]
    abel
  obtain ⟨index',found',alike⟩ := mirrors.work p cfg waits rfl rfl order
  refine ⟨index',?_,alike⟩
  have taken : takes cfg node.state job.val = true := by
    obtain ⟨job,place⟩ := job
    cases job <;> first | rfl | contradiction
  rw [Node.enabled, found', Option.any_some, taken]

theorem Mirrors.quiet (mirrors : Mirrors g node) {e : GoEvent}
    (quiet : (∃ k, e = .accept k) ∨ e = .push ∨ ∃ port k, e = .enter port k) (enabled : g.enabled cfg e) :
    ∃ g', g.step p cfg e = some (g',[]) ∧ Mirrors g' node ∧ g'.msgChannel.contents = g.msgChannel.contents := by
  rcases quiet with ⟨k,rfl⟩ | rfl | ⟨port,k,rfl⟩
  · obtain ⟨ch,entered⟩ := Channel.enter_isSome enabled.1
    refine ⟨{ g with msgChannel := ch },?_,⟨mirrors.state,mirrors.acked,mirrors.pending⟩,
      Channel.contents_enter entered⟩
    rw [GoNode.step, entered, Option.map_some]
  · obtain ⟨prop,held⟩ := Option.isSome_iff_exists.mp enabled.1
    have stepped : g.step p cfg .push = some ({ g with
        loop := none
        channels := Function.update g.channels .propose ((g.channels .propose).put ⟨.proposeChannel prop,rfl⟩) },[]) := by
      rw [GoNode.step, held, Option.map_some]
    refine ⟨_,stepped,⟨mirrors.state,mirrors.acked,mirrors.pending.trans ?_⟩,rfl⟩
    have moved := { g with loop := none }.pending_update .propose ((g.channels .propose).put ⟨.proposeChannel prop,rfl⟩)
    rw [Channel.contents_put, Multiset.map_add, Multiset.map_singleton, ← add_assoc,
      add_right_comm _ (Multiset.map _ _) _] at moved
    rw [add_right_cancel moved, GoNode.pending, GoNode.pending, held]
    simp only [Option.toList_some, Option.toList_none, List.map_nil, List.map_cons, Multiset.coe_nil, Multiset.coe_singleton]
    abel
  · obtain ⟨ch,entered⟩ := Channel.enter_isSome enabled.1
    have stepped : g.step p cfg (.enter port k) = some ({ g with channels := Function.update g.channels port ch },[]) := by
      rw [GoNode.step, entered, Option.map_some]
    refine ⟨_,stepped,⟨mirrors.state,mirrors.acked,mirrors.pending.trans ?_⟩,rfl⟩
    have moved := g.pending_update port ch
    rw [Channel.contents_enter entered] at moved
    exact (add_right_cancel moved).symm

theorem Mirrors.dispatch (mirrors : Mirrors g node) (enabled : g.enabled cfg .dispatch) :
    ∃ g' m, g.step p cfg .dispatch = some (g',[]) ∧ g'.msgChannel.contents + {m} = g.msgChannel.contents ∧
      Mirrors g' { node with pending := node.pending ++ protocol cfg node.state m } := by
  obtain ⟨m,ch,received⟩ := Channel.receive_isSome enabled.2
  refine ⟨{ g with msgChannel := ch }.receives cfg m,m,by rw [GoNode.step, received, Option.map_some],?_,?_,?_,?_⟩
  · rw [GoNode.receives_unread GoNode.msgChannel _ m (fun _ _ _ => rfl) fun _ _ => rfl]
    exact Channel.contents_receive received
  · rw [GoNode.receives_unread GoNode.state _ m (fun _ _ _ => rfl) fun _ _ => rfl]
    exact mirrors.state
  · rw [GoNode.receives_unread GoNode.acked _ m (fun _ _ _ => rfl) fun _ _ => rfl]
    exact mirrors.acked
  · rw [GoNode.pending_receives { g with msgChannel := ch } enabled.1, ← Multiset.coe_add, mirrors.pending,
      mirrors.state]
    rfl

end Simulation

/-! ## The cluster of goroutines -/

structure GoSystem where
  nodes : Nat → GoNode
  net : List Packet
  log : List Completed
  signed : List (Nat × Bytes)

inductive GoSystemEvent where
  | node (i : Nat) (e : GoEvent)
  | deliver (k : Nat)
  | inject (dest : Nat) (m : SyncHSMsg)

/-- The events of a node, apart from the arrival of a message, which is one of the network. -/
def GoEvent.own : GoEvent → Bool
  | .arrive _ => false
  | _ => true

namespace GoSystem

variable (c : Cluster) (p : Platform) (gs : GoSystem)

def moved (i : Nat) (g : GoNode) (sends : List Outgoing) : GoSystem :=
  { gs with
    nodes := Function.update gs.nodes i g
    net := gs.net ++ c.packets i (gs.nodes i).state.view sends
    signed := gs.signed ++ (sends.flatMap Outgoing.messages).flatMap fun m =>
      m.signedData.map fun data => (i,data) }

def act (i : Nat) (e : GoEvent) : Option GoSystem :=
  ((gs.nodes i).step p (c.config i) e).map fun (g,sends) => gs.moved c i g sends

/-- The cluster of messages as far as signatures are concerned. -/
def signers : System := ⟨fun i => ⟨(gs.nodes i).state,[],(gs.nodes i).acked⟩,[],gs.log,gs.signed⟩

def enabled : GoSystemEvent → Prop
  | .node i e => c.honest i ∧ e.own = true ∧ (gs.nodes i).enabled (c.config i) e
  | .deliver k => k < gs.net.length
  | .inject dest m => c.byzantine.Nonempty ∧ c.honest dest ∧ Unforged c p gs.signers m

instance (e : GoSystemEvent) : Decidable (gs.enabled c p e) :=
  match e with
  | .node _ _ | .inject _ _ => inferInstanceAs (Decidable (_ ∧ _))
  | .deliver k => inferInstanceAs (Decidable (k < gs.net.length))

def step : GoSystemEvent → Option GoSystem
  | .node i .callback => (gs.act c p i .callback).map fun t =>
      { t with log := t.log ++ [⟨i,(gs.nodes i).state.view,(t.nodes i).state⟩] }
  | .node i e => gs.act c p i e
  | .deliver k =>
    match gs.net[k]? with
    | none => none
    | some x => { gs with net := gs.net.eraseIdx k }.act c p x.dest (.arrive x.msg)
  | .inject dest m => some { gs with net := gs.net ++ [⟨dest,none,m⟩] }

def start : GoSystem :=
  ⟨fun i => { GoNode.init with state := clientConnects (c.config i) .init },[],[],[]⟩

end GoSystem

def goSystemMachine (c : Cluster) (p : Platform) : Guarded.Machine GoSystem GoSystemEvent :=
  ⟨fun gs e => gs.enabled c p e,fun gs e => gs.step c p e⟩

instance (c : Cluster) (p : Platform) (gs : GoSystem) (e : GoSystemEvent) : Decidable ((goSystemMachine c p).enabled gs e) :=
  inferInstanceAs (Decidable (gs.enabled c p e))

def inbound (i : Nat) (net : List Packet) : Multiset SyncHSMsg :=
  Multiset.ofList ((net.filter fun x => x.dest = i).map Packet.msg)

/-- The nodes are mirrored, and what has not left `msgChannel` is still on its way. -/
structure Mirrored (gs : GoSystem) (s : System) : Prop where
  nodes : ∀ i, Mirrors (gs.nodes i) (s.nodes i)
  log : s.log = gs.log
  signed : s.signed = gs.signed
  net : ∀ i, inbound i s.net = inbound i gs.net + (gs.nodes i).msgChannel.contents

section Cluster

variable {c : Cluster} {p : Platform} {gs gs' : GoSystem} {s : System} {i : Nat} {g : GoNode} {node : Node}

theorem inbound_append (i : Nat) (net more : List Packet) : inbound i (net ++ more) = inbound i net + inbound i more := by
  rw [inbound, List.filter_append, List.map_append, ← Multiset.coe_add]
  rfl

theorem inbound_eraseIdx {net : List Packet} {k : Nat} {x : Packet} (found : net[k]? = some x) (i : Nat) :
    inbound i net = inbound i (net.eraseIdx k) + if x.dest = i then {x.msg} else 0 := by
  have moved : inbound i (x :: net.eraseIdx k) = inbound i net :=
    Multiset.coe_eq_coe.mpr (((cons_eraseIdx_perm found).filter _).map _)
  rw [← moved, inbound, List.filter_cons]
  by_cases here : x.dest = i
  · rw [if_pos (decide_eq_true here), if_pos here, List.map_cons, ← Multiset.cons_coe, ← Multiset.singleton_add, add_comm]
    rfl
  · rw [if_neg (by simpa using here), if_neg here, add_zero]
    rfl

theorem GoSystem.moved_self (gs : GoSystem) (g : GoNode) (sends : List Outgoing) : (gs.moved c i g sends).nodes i = g :=
  Function.update_self _ _ _

theorem GoSystem.moved_other (gs : GoSystem) (g : GoNode) (sends : List Outgoing) {j : Nat} (other : j ≠ i) :
    (gs.moved c i g sends).nodes j = gs.nodes j :=
  Function.update_of_ne other _ _

theorem GoSystem.moved_quiet (gs : GoSystem) (g : GoNode) : (gs.moved c i g []).net = gs.net := List.append_nil _

theorem Mirrored.moved (mirrored : Mirrored gs s) (mirrors : Mirrors g node) (sends : List Outgoing)
    (waiting : g.msgChannel.contents = (gs.nodes i).msgChannel.contents) :
    Mirrored (gs.moved c i g sends) (s.moved c i node sends) := by
  refine ⟨fun j => ?_,mirrored.log,congrArg (· ++ _) mirrored.signed,fun j => ?_⟩
  · by_cases same : j = i
    · subst same
      rwa [GoSystem.moved_self, moved_self]
    · rw [GoSystem.moved_other gs g sends same, moved_other c s i node sends same]
      exact mirrored.nodes j
  · have contents : ((gs.moved c i g sends).nodes j).msgChannel.contents = (gs.nodes j).msgChannel.contents := by
      by_cases same : j = i
      · subst same
        rw [GoSystem.moved_self, waiting]
      · rw [GoSystem.moved_other gs g sends same]
    rw [contents, GoSystem.moved, System.moved, inbound_append, inbound_append, mirrored.net j, (mirrored.nodes i).state]
    abel

theorem Mirrored.flow (mirrored : Mirrored gs s) (mirrors : Mirrors g node) {net : List Packet} (net' : List Packet)
    (flights : ∀ j, inbound j net' = inbound j net + ((gs.moved c i g []).nodes j).msgChannel.contents) :
    Mirrored ({ gs with net := net }.moved c i g []) ({ s with net := net' }.moved c i node []) := by
  refine ⟨fun j => ?_,mirrored.log,congrArg (· ++ _) mirrored.signed,fun j => ?_⟩
  · by_cases same : j = i
    · subst same
      rwa [GoSystem.moved_self, moved_self]
    · rw [GoSystem.moved_other { gs with net := net } g [] same, moved_other c { s with net := net' } i node [] same]
      exact mirrored.nodes j
  · rw [moved_quiet, GoSystem.moved_quiet]
    exact flights j

theorem Mirrored.settled (mirrored : Mirrored gs s) (mirrors : Mirrors g (s.nodes i)) {net : List Packet}
    (flights : ∀ j, inbound j s.net = inbound j net + ((gs.moved c i g []).nodes j).msgChannel.contents) :
    Mirrored ({ gs with net := net }.moved c i g []) s := by
  have rests : s.moved c i (s.nodes i) [] = s := by
    simp [System.moved,Cluster.packets]
  have moved := mirrored.flow mirrors s.net flights
  rwa [rests] at moved

theorem Mirrored.event {t : System} {e : SystemEvent} (enabled : s.enabled c p e) (stepped : s.step c p e = some t)
    (mirrored : Mirrored gs' t) : ∃ later t, (systemMachine c p).Run s later t ∧ Mirrored gs' t :=
  ⟨[] ++ [e],t,.snoc .nil enabled stepped,mirrored⟩

/-- Where the two clusters go from here: together, or into a crash. -/
def Agree (c : Cluster) (p : Platform) (next : Option GoSystem) (s : System) : Prop :=
  (∃ gs', next = some gs' ∧ ∃ later t, (systemMachine c p).Run s later t ∧ Mirrored gs' t) ∨
    next = none ∧ ∃ e, s.enabled c p e ∧ s.step c p e = none

theorem Mirrored.alike (mirrored : Mirrored gs s) {e : GoEvent} {e' : NodeEvent}
    (alike : Alike ((gs.nodes i).step p (c.config i) e) ((s.nodes i).step p (c.config i) e'))
    (waiting : ∀ g sends, (gs.nodes i).step p (c.config i) e = some (g,sends) →
      g.msgChannel.contents = (gs.nodes i).msgChannel.contents) :
    (∃ gs' t, gs.act c p i e = some gs' ∧ s.act c p i e' = some t ∧ Mirrored gs' t) ∨
      gs.act c p i e = none ∧ s.act c p i e' = none := by
  rw [GoSystem.act, System.act]
  generalize next : (gs.nodes i).step p (c.config i) e = result at alike waiting
  generalize (s.nodes i).step p (c.config i) e' = result' at alike
  cases alike with
  | none => exact Or.inr ⟨rfl,rfl⟩
  | @some a b both =>
    obtain ⟨g,sends⟩ := a
    obtain ⟨node,sends'⟩ := b
    obtain ⟨mirrors,rfl⟩ := both
    exact Or.inl ⟨_,_,rfl,rfl,mirrored.moved mirrors sends (waiting g sends rfl)⟩

theorem Mirrored.follows (mirrored : Mirrored gs s) {e : GoEvent} (event : SystemEvent) {e' : NodeEvent}
    (own : gs.step c p (.node i e) = gs.act c p i e) (own' : s.step c p event = s.act c p i e')
    (enabled : s.enabled c p event)
    (alike : Alike ((gs.nodes i).step p (c.config i) e) ((s.nodes i).step p (c.config i) e'))
    (waiting : ∀ g sends, (gs.nodes i).step p (c.config i) e = some (g,sends) →
      g.msgChannel.contents = (gs.nodes i).msgChannel.contents) : Agree c p (gs.step c p (.node i e)) s := by
  rw [own]
  rcases mirrored.alike alike waiting with ⟨gs',t,acted,acted',after⟩ | ⟨crashed,crashed'⟩
  · exact Or.inl ⟨gs',acted,Mirrored.event enabled (own'.trans acted') after⟩
  · exact Or.inr ⟨crashed,event,enabled,own'.trans crashed'⟩

theorem GoNode.apply_msgChannel {outcome : Outcome} {g' : GoNode} {sends : List Outgoing}
    (applied : g.apply outcome = some (g',sends)) : g'.msgChannel = g.msgChannel := by
  obtain ⟨_,_,same⟩ := Option.map_eq_some_iff.mp applied
  obtain ⟨rfl,_⟩ := Prod.mk.inj same
  rw [GoNode.spawns_unread GoNode.msgChannel _ _ fun _ _ _ => rfl]

theorem GoNode.step_msgChannel {cfg : NodeConfig} {e : GoEvent} {g' : GoNode} {sends : List Outgoing}
    (job : (∃ port order, e = .handle port order) ∨ ∃ index order, e = .run index order)
    (stepped : g.step p cfg e = some (g',sends)) : g'.msgChannel.contents = g.msgChannel.contents := by
  rcases job with ⟨port,order,rfl⟩ | ⟨index,order,rfl⟩ <;> simp only [GoNode.step] at stepped <;> split at stepped
  · contradiction
  · rw [GoNode.apply_msgChannel stepped]
  · contradiction
  · rw [GoNode.apply_msgChannel stepped]

theorem Mirrored.quiet (mirrored : Mirrored gs s) {e : GoEvent} (enabled : (gs.nodes i).enabled (c.config i) e)
    (quiet : (∃ k, e = .accept k) ∨ e = .push ∨ ∃ port k, e = .enter port k)
    (own : gs.step c p (.node i e) = gs.act c p i e) : Agree c p (gs.step c p (.node i e)) s := by
  obtain ⟨g,stepped,after,waiting⟩ := (mirrored.nodes i).quiet (p := p) quiet enabled
  refine Or.inl ⟨gs.moved c i g [],?_,[],s,.nil,mirrored.settled after fun j => ?_⟩
  · rw [own, GoSystem.act, stepped, Option.map_some]
  · rw [mirrored.net j]
    by_cases same : j = i
    · subst same
      rw [GoSystem.moved_self, waiting]
    · rw [GoSystem.moved_other gs g [] same]

/-- A message that `protocol` takes is one that is in flight in the cluster of messages, and is delivered there. -/
theorem Mirrored.dispatch (mirrored : Mirrored gs s) (enabled : (gs.nodes i).enabled (c.config i) .dispatch) :
    Agree c p (gs.step c p (.node i .dispatch)) s := by
  obtain ⟨g,m,stepped,contents,after⟩ := (mirrored.nodes i).dispatch (p := p) enabled
  have flying : m ∈ inbound i s.net := by
    rw [mirrored.net i, ← contents]
    exact Multiset.mem_add.mpr (Or.inr (Multiset.mem_add.mpr (Or.inr (Multiset.mem_singleton_self m))))
  obtain ⟨x,listed,rfl⟩ := List.mem_map.mp (Multiset.mem_coe.mp flying)
  obtain ⟨sent,dest⟩ := List.mem_filter.mp listed
  obtain rfl : x.dest = i := of_decide_eq_true dest
  obtain ⟨k,found⟩ := List.mem_iff_getElem?.mp sent
  refine Or.inl ⟨gs.moved c x.dest g [],?_,?_⟩
  · change gs.act c p x.dest .dispatch = _
    rw [GoSystem.act, stepped, Option.map_some]
  · refine Mirrored.event (e := .deliver k) (List.getElem?_eq_some_iff.mp found).1 ?_
      (mirrored.flow after (s.net.eraseIdx k) fun j => ?_)
    · simp only [System.step, found]
      rfl
    · have balance := mirrored.net j
      rw [inbound_eraseIdx found j] at balance
      by_cases same : x.dest = j
      · subst same
        rw [if_pos rfl, ← contents, ← add_assoc] at balance
        rw [GoSystem.moved_self]
        exact add_right_cancel balance
      · rw [if_neg same, add_zero] at balance
        rw [GoSystem.moved_other gs g [] (Ne.symm same), balance]

theorem Mirrored.callback (mirrored : Mirrored gs s) (honest : c.honest i)
    (enabled : (gs.nodes i).enabled (c.config i) .callback) : Agree c p (gs.step c p (.node i .callback)) s := by
  have mirrors := mirrored.nodes i
  have alike : Alike ((gs.nodes i).step p (c.config i) .callback) ((s.nodes i).step p (c.config i) .callback) := by
    rw [GoNode.step, Node.step, mirrors.state]
    exact mirrors.apply mirrors.pending rfl rfl _
  have enabled' : s.enabled c p (.callback i) := by
    rw [System.enabled, Node.enabled, mirrors.state]
    exact ⟨honest,enabled⟩
  rw [GoSystem.step]
  rcases mirrored.alike alike (fun g sends applied => congrArg Channel.contents (GoNode.apply_msgChannel applied)) with
    ⟨gs',t,acted,acted',after⟩ | ⟨crashed,crashed'⟩
  · refine Or.inl ⟨_,by rw [acted, Option.map_some],Mirrored.event enabled' (by rw [System.step, acted', Option.map_some]) ?_⟩
    refine ⟨after.nodes,?_,after.signed,after.net⟩
    rw [after.log, mirrors.state, (after.nodes i).state]
  · exact Or.inr ⟨by rw [crashed, Option.map_none],.callback i,enabled',by rw [System.step, crashed', Option.map_none]⟩

theorem Mirrored.acts (mirrored : Mirrored gs s) {e : GoEvent} (honest : c.honest i) (own : e.own = true)
    (enabled : (gs.nodes i).enabled (c.config i) e) : Agree c p (gs.step c p (.node i e)) s := by
  have mirrors := mirrored.nodes i
  cases e with
  | arrive m => contradiction
  | accept k => exact mirrored.quiet enabled (Or.inl ⟨k,rfl⟩) rfl
  | push => exact mirrored.quiet enabled (Or.inr (Or.inl rfl)) rfl
  | enter port k => exact mirrored.quiet enabled (Or.inr (Or.inr ⟨port,k,rfl⟩)) rfl
  | dispatch => exact mirrored.dispatch enabled
  | callback => exact mirrored.callback honest enabled
  | connect =>
    refine mirrored.follows (.connect i) rfl rfl honest ?_ fun g sends stepped => ?_
    · rw [GoNode.step, Node.step, mirrors.state]
      exact .some ⟨⟨rfl,mirrors.acked,mirrors.pending⟩,rfl⟩
    · obtain ⟨rfl,_⟩ := Prod.mk.inj (Option.some.inj stepped)
      rfl
  | command cmd =>
    refine mirrored.follows (.command i cmd) rfl rfl honest ?_ fun g sends stepped => ?_
    · rw [GoNode.step, Node.step, mirrors.state]
      exact mirrors.apply mirrors.pending rfl rfl _
    · exact congrArg Channel.contents (GoNode.apply_msgChannel stepped)
  | handle port order =>
    obtain ⟨index,enabled',alike⟩ := mirrors.handle (p := p) enabled
    exact mirrored.follows (.work i index order) rfl rfl ⟨honest,enabled'⟩ alike
      fun g sends => GoNode.step_msgChannel (Or.inl ⟨port,order,rfl⟩)
  | run index order =>
    obtain ⟨index',enabled',alike⟩ := mirrors.run (p := p) enabled
    exact mirrored.follows (.work i index' order) rfl rfl ⟨honest,enabled'⟩ alike
      fun g sends => GoNode.step_msgChannel (Or.inr ⟨index,order,rfl⟩)

theorem Mirrored.deliver (mirrored : Mirrored gs s) {k : Nat} (enabled : k < gs.net.length) :
    Agree c p (gs.step c p (.deliver k)) s := by
  have found : gs.net[k]? = some gs.net[k] := List.getElem?_eq_getElem enabled
  generalize gs.net[k] = x at found
  have mirrors := mirrored.nodes x.dest
  have stepped : gs.step c p (.deliver k) = some ({ gs with net := gs.net.eraseIdx k }.moved c x.dest
      { gs.nodes x.dest with msgChannel := (gs.nodes x.dest).msgChannel.send x.msg } []) := by
    simp only [GoSystem.step, found]
    rfl
  have arrived : Mirrors { gs.nodes x.dest with msgChannel := (gs.nodes x.dest).msgChannel.send x.msg } (s.nodes x.dest) :=
    ⟨mirrors.state,mirrors.acked,mirrors.pending⟩
  refine Or.inl ⟨_,stepped,[],s,.nil,mirrored.settled arrived fun j => ?_⟩
  rw [mirrored.net j, inbound_eraseIdx found j]
  by_cases same : x.dest = j
  · subst same
    rw [if_pos rfl, GoSystem.moved_self, Channel.contents_send]
    abel
  · rw [if_neg same, GoSystem.moved_other gs _ [] (Ne.symm same), add_zero]

theorem Mirrored.inject (mirrored : Mirrored gs s) {dest : Nat} {m : SyncHSMsg} (enabled : gs.enabled c p (.inject dest m)) :
    Agree c p (gs.step c p (.inject dest m)) s := by
  obtain ⟨some,inside,unforged⟩ := enabled
  have unforged' : Unforged c p s m := fun entry member j honest verified => by
    rw [mirrored.signed]
    exact unforged entry member j honest verified
  refine Or.inl ⟨_,rfl,Mirrored.event (e := .inject dest m) ⟨some,inside,unforged'⟩ rfl
    ⟨mirrored.nodes,mirrored.log,mirrored.signed,fun j => ?_⟩⟩
  rw [inbound_append, inbound_append, mirrored.net j]
  abel

theorem Mirrored.step (mirrored : Mirrored gs s) {e : GoSystemEvent} (enabled : gs.enabled c p e) :
    Agree c p (gs.step c p e) s := by
  cases e with
  | node i e =>
    obtain ⟨honest,own,enabled⟩ := enabled
    exact mirrored.acts honest own enabled
  | deliver k => exact mirrored.deliver enabled
  | inject dest m => exact mirrored.inject enabled

/-- Every run of the cluster of goroutines and bounded channels is a run of the cluster of messages: the nodes
are in the same states, have acknowledged and signed the same and have the same jobs left, and where
a goroutine can crash the cluster of messages can. -/
theorem goroutines_refine_messages {trace : List GoSystemEvent} (run : (goSystemMachine c p).Run (.start c) trace gs) :
    ∃ later s, (systemMachine c p).Run (System.start c) later s ∧
      (∀ i, (s.nodes i).state = (gs.nodes i).state ∧ (s.nodes i).acked = (gs.nodes i).acked ∧
        Multiset.ofList (s.nodes i).pending = (gs.nodes i).pending) ∧
      s.log = gs.log ∧ s.signed = gs.signed ∧
      ∀ e, gs.enabled c p e → gs.step c p e = none → ∃ e', s.enabled c p e' ∧ s.step c p e' = none := by
  have initial : Mirrored (.start c) (System.start c) :=
    ⟨fun i => ⟨rfl,rfl,rfl⟩,rfl,rfl,fun i => rfl⟩
  obtain ⟨later,s,matched,mirrored⟩ := run.simulate (N := systemMachine c p) (R := Mirrored) (by
    intro gs e gs' s mirrored enabled stepped
    rcases mirrored.step enabled with ⟨_,next,follows⟩ | ⟨crashed,_⟩
    · obtain rfl := Option.some.inj (stepped.symm.trans next)
      exact follows
    · have crashed : (goSystemMachine c p).step gs e = none := crashed
      rw [crashed] at stepped
      contradiction) initial
  refine ⟨later,s,matched,fun i => ?_,mirrored.log,mirrored.signed,fun e enabled crashed => ?_⟩
  · exact ⟨(mirrored.nodes i).state,(mirrored.nodes i).acked,(mirrored.nodes i).pending⟩
  · rcases mirrored.step enabled with ⟨_,next,_⟩ | ⟨_,crashes⟩
    · rw [crashed] at next
      contradiction
    · exact crashes

end Cluster

/-- The first proposal of two nodes on its way through the channels of the other node, which forwards it to itself. -/
def proposalThroughChannels : List GoSystemEvent :=
  [.node 0 (.command [1]),.node 0 (.run 0 []),.node 0 (.run 0 []),.deliver 0,.node 1 (.accept 0),.node 1 .dispatch,
    .node 1 (.run 0 []),.node 1 (.enter .propose 0),.node 1 (.handle .propose [])]

theorem proposal_passes_channels : ∃ later s,
    (systemMachine (Cluster.complete 2 1 false .plain ∅) transparent).Run
      (System.start (Cluster.complete 2 1 false .plain ∅)) later s ∧ (s.nodes 1).state.bc.head = 1 := by
  obtain ⟨gs,run,added⟩ : ∃ gs, (goSystemMachine (Cluster.complete 2 1 false .plain ∅) transparent).Run
      (.start (Cluster.complete 2 1 false .plain ∅)) proposalThroughChannels gs ∧ (gs.nodes 1).state.bc.head = 1 := by
    apply Guarded.Machine.reaches
    decide +kernel
  obtain ⟨later,s,matched,nodes,_⟩ := goroutines_refine_messages run
  exact ⟨later,s,matched,(congrArg (fun n => n.bc.head) (nodes 1).1).trans added⟩

end ReputationSMR

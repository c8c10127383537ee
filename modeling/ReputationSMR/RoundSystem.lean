import ReputationSMR.RoundEnds
import ReputationSMR.System

/-! A round with an honest leader, seen from the network. What the round owes to a node is
on its way, pending or done: each step of a node keeps this account, and so a cluster
with nothing on its way and nothing pending has done everything. -/
namespace ReputationSMR

open Wire FiniteMap

/-- A cluster in which every node follows the code. -/
def Setting.cluster (z : Setting) : Cluster := .complete z.size z.blockSize z.startEvidence z.timerMode ∅

theorem Setting.honest {z : Setting} {i : Nat} : z.cluster.honest i ↔ i < z.size := by
  simp [Cluster.honest,cluster,Cluster.complete]

def System.ended (c : Cluster) (s : System) (i : Nat) (node : Node) : System :=
  { s.moved c i node [] with log := s.log ++ [⟨i,(s.nodes i).state.view,node.state⟩] }

theorem System.step_callback {z : Setting} {p : Platform} {s : System} {i : Nat} {node : Node}
    (ran : (s.nodes i).step p (z.config i) .callback = some (node,[])) :
    s.step z.cluster p (.callback i) = some (s.ended z.cluster i node) := by
  have act : s.act z.cluster p i .callback = some (s.moved z.cluster i node []) := System.act_eq ran
  simp only [System.step, act, Option.map_some, moved_self]
  rfl

theorem Setting.mem_packets {z : Setting} {i view : Nat} {sends : List Outgoing} {x : Packet} :
    x ∈ z.cluster.packets i view sends ↔
      ∃ o ∈ sends, ∃ j < z.size, j ≠ i ∧ x = ⟨j,some view,o.to j⟩ := by
  simp only [Cluster.packets, List.mem_flatMap, List.mem_map, List.mem_filter, Cluster.mem_honestNodes,
    honest, decide_eq_true_eq]
  constructor
  · rintro ⟨o,sent,j,⟨inside,peer⟩,rfl⟩
    exact ⟨o,sent,j,inside,(mem_pMap.mp peer).1,rfl⟩
  · rintro ⟨o,sent,j,inside,other,rfl⟩
    exact ⟨o,sent,j,⟨inside,mem_pMap.mpr ⟨other,inside⟩⟩,rfl⟩

/-! ## Messages on their way -/

/-- A message is on its way, or its destination has it. -/
def System.Got (s : System) (x : Packet) (has : Node → Prop) : Prop := x ∈ s.net ∨ has (s.nodes x.dest)

/-- Node `i` has moved, in the view: a message that has left the network is taken over by
the node, and what the node sends is in the network. -/
structure Delivers (z : Setting) (view : Nat) (taken : Packet → Node → Prop) (s t : System) (i : Nat)
    (node : Node) (sends : List Outgoing) : Prop where
  nodes : t.nodes = Function.update s.nodes i node
  kept : ∀ x ∈ s.net, x ∈ t.net ∨ x.dest = i ∧ taken x node
  sent : ∀ o ∈ sends, ∀ j < z.size, j ≠ i → ⟨j,some view,o.to j⟩ ∈ t.net

section Delivering

variable {z : Setting} {view : Nat} {taken : Packet → Node → Prop} {s t : System} {i k : Nat} {node : Node}
  {sends : List Outgoing}

theorem Delivers.self (delivers : Delivers z view taken s t i node sends) : t.nodes i = node := by
  rw [delivers.nodes, Function.update_self]

theorem Delivers.other (delivers : Delivers z view taken s t i node sends) (different : k ≠ i) :
    t.nodes k = s.nodes k := by
  rw [delivers.nodes, Function.update_of_ne different]

theorem System.Got.progress {x : Packet} {has : Node → Prop} {Q : Prop} (got : s.Got x has)
    (delivers : Delivers z view taken s t i node sends) (takes : taken x node → has node)
    (keeps : x.dest = i → has (s.nodes i) → has node ∨ Q) : t.Got x has ∨ Q := by
  rcases got with travelling | there
  · rcases delivers.kept x travelling with still | ⟨here,arrived⟩
    · exact Or.inl (Or.inl still)
    · refine Or.inl (Or.inr ?_)
      rw [here, delivers.self]
      exact takes arrived
  · by_cases same : x.dest = i
    · rw [same] at there
      refine (keeps same there).imp_left fun has => Or.inr ?_
      rw [same, delivers.self]
      exact has
    · refine Or.inl (Or.inr ?_)
      rw [delivers.other same]
      exact there

theorem System.Got.step {x : Packet} {has : Node → Prop} (got : s.Got x has)
    (delivers : Delivers z view taken s t i node sends) (takes : taken x node → has node)
    (keeps : has (s.nodes i) → has node) : t.Got x has :=
  (got.progress delivers takes fun _ has => Or.inl (keeps has)).resolve_right id

theorem System.Got.sent {m : SyncHSMsg} {has : Node → Prop} (delivers : Delivers z view taken s t i node sends)
    (broadcast : .broadcast m ∈ sends) (own : has node) (inside : k < z.size) : t.Got ⟨k,some view,m⟩ has := by
  by_cases same : k = i
  · subst same
    refine Or.inr ?_
    rw [delivers.self]
    exact own
  · exact Or.inl (delivers.sent _ broadcast k inside same)

theorem System.Got.there {x : Packet} {has : Node → Prop} (got : s.Got x has) (silent : s.net = []) :
    has (s.nodes x.dest) := by
  refine got.resolve_left ?_
  rw [silent]
  simp

theorem delivers_moved (here : (s.nodes i).state.view = view) :
    Delivers z view taken s (s.moved z.cluster i node sends) i node sends := by
  refine ⟨rfl,fun x member => Or.inl (List.mem_append_left _ member),?_⟩
  intro o sent j dest other
  exact List.mem_append_right _ (Setting.mem_packets.mpr ⟨o,sent,j,dest,other,here ▸ rfl⟩)

theorem delivers_received {x : Packet} {index : Nat} (found : s.net[index]? = some x) (arrived : taken x node) :
    Delivers z view taken s ({ s with net := s.net.eraseIdx index }.moved z.cluster x.dest node []) x.dest
      node [] := by
  refine ⟨rfl,?_,by simp⟩
  intro y member
  rw [moved_quiet]
  by_cases same : y = x
  · subst same
    exact Or.inr ⟨rfl,arrived⟩
  · exact Or.inl (mem_eraseIdx_of_ne found member same)

end Delivering

/-! ## Accounting -/
namespace Round

variable (p : Platform) (z : Setting) (R : Round) (s : System)

/-- The forward of node `j` is on its way to node `k`, or has reached it. -/
def ForwardGot (j k : Nat) : Prop :=
  s.Got ⟨k,some R.common.view,.prop (R.forward p j)⟩ fun node => R.HasForward p node j

def VoteGot (j k : Nat) : Prop :=
  s.Got ⟨k,some R.common.view,.vote (R.vote p j)⟩ fun node => R.HasVote p node j

/-- The proposal is on its way to node `j`, or has been passed on by it. -/
def PropGot (j : Nat) : Prop :=
  s.Got ⟨j,some R.common.view,.prop (R.prop p)⟩ (fun node => .forward (R.prop p) ∈ node.pending) ∨
    ∀ k < z.size, R.ForwardGot p s j k

structure AllowsPacket (x : Packet) : Prop where
  dest : x.dest < z.size
  tag : x.tag = some R.common.view
  msg : x.msg = .prop (R.prop p) ∧ x.dest ≠ R.common.leader ∨
    (∃ j < z.size, j ≠ R.common.leader ∧ x.msg = .prop (R.forward p j)) ∨
    ∃ j < z.size, x.msg = .vote (R.vote p j)

structure Accounting : Prop where
  announced : .proposed (R.prop p) ∈ (s.nodes R.common.leader).pending ∨
    (s.nodes R.common.leader).state.proposalMap = R.recorded ∧
      ∀ j < z.size, j ≠ R.common.leader → R.PropGot p z s j
  completed : ∀ i < z.size, R.Complete z (s.nodes i).state.links →
    R.Voting p (s.nodes i) ∨ ∀ k < z.size, R.VoteGot p s i k
  packets : ∀ x ∈ s.net, R.AllowsPacket p z x

variable {p z R s} {t : System} {i j k : Nat} {node : Node} {sends : List Outgoing}

structure Taken (p : Platform) (R : Round) (x : Packet) (node : Node) : Prop where
  prop : x.msg = .prop (R.prop p) → .forward (R.prop p) ∈ node.pending
  forward : ∀ j, j ≠ R.common.leader → x.msg = .prop (R.forward p j) →
    .proposeChannel (R.forward p j) ∈ node.pending
  vote : ∀ j, x.msg = .vote (R.vote p j) → .voteChannel (R.vote p j) ∈ node.pending

structure Passes (p : Platform) (z : Setting) (R : Round) (s t : System) (i : Nat) (node : Node)
    (sends : List Outgoing) : Prop where
  delivers : Delivers z R.common.view (R.Taken p) s t i node sends
  moves : R.Moves p z i (s.nodes i) node sends

section Passing

variable (passes : R.Passes p z s t i node sends)

include passes

theorem Passes.forwardGot (follower : j ≠ R.common.leader) (got : R.ForwardGot p s j k) :
    R.ForwardGot p t j k :=
  got.step passes.delivers (fun taken => Or.inl (taken.forward j follower rfl)) (passes.moves.forwards j)

theorem Passes.voteGot (got : R.VoteGot p s j k) : R.VoteGot p t j k :=
  got.step passes.delivers (fun taken => Or.inl (taken.vote j rfl)) (passes.moves.votes j)

theorem Passes.voted (voted : R.Voted p i node sends) (inside : k < z.size) : R.VoteGot p t i k :=
  .sent passes.delivers voted.2 (Or.inl voted.1) inside

theorem Passes.propGot (follower : j ≠ R.common.leader) (got : R.PropGot p z s j) : R.PropGot p z t j := by
  rcases got with got | passed
  · refine got.progress passes.delivers (fun taken => taken.prop rfl) fun here pending => ?_
    obtain rfl : j = i := here
    exact (passes.moves.forward pending).imp_right fun ⟨own,sent⟩ k inside =>
      .sent passes.delivers sent (Or.inl own) inside
  · exact Or.inr fun k inside => passes.forwardGot follower (passed k inside)

theorem Accounting.step (accounting : R.Accounting p z s) (packets : ∀ x ∈ t.net, R.AllowsPacket p z x) :
    R.Accounting p z t := by
  refine ⟨?_,?_,packets⟩
  · by_cases same : R.common.leader = i
    · rw [same, passes.delivers.self]
      rcases accounting.announced with pending | ⟨recorded,got⟩
      · rw [same] at pending
        refine (passes.moves.proposed pending).imp_right fun ⟨recorded,sent⟩ => ⟨recorded,?_⟩
        intro j inside other
        exact Or.inl (Or.inl (passes.delivers.sent _ sent j inside other))
      · rw [same] at recorded
        exact Or.inr ⟨passes.moves.recorded recorded,
          fun j inside other => passes.propGot (same ▸ other) (got j inside (same ▸ other))⟩
    · rw [passes.delivers.other same]
      exact accounting.announced.imp_right fun ⟨recorded,got⟩ =>
        ⟨recorded,fun j inside other => passes.propGot other (got j inside other)⟩
  · intro k inside complete
    by_cases same : k = i
    · subst same
      rw [passes.delivers.self] at complete ⊢
      rcases passes.moves.completed complete with before | voting | voted
      · rcases accounting.completed k inside before with voting | got
        · exact (passes.moves.voting voting).imp_right fun voted j within => passes.voted voted within
        · exact Or.inr fun j within => passes.voteGot (got j within)
      · exact Or.inl voting
      · exact Or.inr fun j within => passes.voted voted within
    · rw [passes.delivers.other same] at complete ⊢
      exact (accounting.completed k inside complete).imp_right fun got j within =>
        passes.voteGot (got j within)

end Passing

theorem protocol_prop {n : SyncHS} (leader : n.leader = R.common.leader) (cfg : NodeConfig) :
    protocol cfg n (.prop (R.prop p)) = [.forward (R.prop p)] :=
  (if_pos leader.symm).trans (if_pos leader.symm)

theorem protocol_forward {n : SyncHS} (leader : n.leader = R.common.leader) (cfg : NodeConfig)
    (follower : j ≠ R.common.leader) :
    protocol cfg n (.prop (R.forward p j)) = [.proposeChannel (R.forward p j)] :=
  if_neg (leader ▸ follower)

theorem taken_protocol {n : SyncHS} (leader : n.leader = R.common.leader) (x : Packet) (pending : List Job)
    (acked : List (Nat × ExtBlock)) (cfg : NodeConfig) :
    R.Taken p x ⟨n,pending ++ protocol cfg n x.msg,acked⟩ := by
  constructor
  · intro msg
    rw [msg, protocol_prop leader]
    exact List.mem_append_right _ List.mem_cons_self
  · intro j follower msg
    rw [msg, protocol_forward leader cfg follower]
    exact List.mem_append_right _ List.mem_cons_self
  · intro j msg
    rw [msg]
    exact List.mem_append_right _ List.mem_cons_self

theorem AllowsPacket.jobs {n : SyncHS} {x : Packet} (allows : R.AllowsPacket p z x)
    (leader : n.leader = R.common.leader) (cfg : NodeConfig) :
    ∀ job ∈ protocol cfg n x.msg, R.Allows p z x.dest job ∧ job ≠ .round := by
  rcases allows.msg with ⟨msg,follower⟩ | ⟨j,inside,follower,msg⟩ | ⟨j,inside,msg⟩
  · rw [msg, protocol_prop leader]
    intro job member
    obtain rfl := List.mem_singleton.mp member
    exact ⟨⟨follower,rfl⟩,nofun⟩
  · rw [msg, protocol_forward leader cfg follower]
    intro job member
    obtain rfl := List.mem_singleton.mp member
    exact ⟨⟨j,inside,follower,rfl⟩,nofun⟩
  · rw [msg]
    intro job member
    obtain rfl := List.mem_singleton.mp member
    exact ⟨⟨j,inside,rfl⟩,nofun⟩

theorem Accounting.ready (good : R.Good p z) (accounting : R.Accounting p z s) (silent : s.net = [])
    (quiet : ∀ i < z.size, (s.nodes i).pending = []) (running : ∀ i < z.size, 0 < (s.nodes i).state.timers)
    (active : ∀ i < z.size, R.Active p z i (s.nodes i)) (i : Nat) (inside : i < z.size) :
    Ready p z ((R.ended p z).advance p z.size) (s.nodes i) := by
  obtain ⟨recorded,got⟩ : (s.nodes R.common.leader).state.proposalMap = R.recorded ∧
      ∀ j < z.size, j ≠ R.common.leader → R.PropGot p z s j :=
    accounting.announced.resolve_left (by simp [quiet _ good.leader_lt])
  have forwards (j k : Nat) (sender : j < z.size) (follower : j ≠ R.common.leader) (within : k < z.size) :
      j ∈ (row (s.nodes k).state.fpropMap R.common.view).keys := by
    rcases got j sender follower with got | passed
    · have pending := got.there silent
      simp [quiet j sender] at pending
    · rcases (passed k within).there silent with pending | there
      · simp [quiet k within] at pending
      · exact there
  have complete (k : Nat) (within : k < z.size) : R.Complete z (s.nodes k).state.links :=
    complete_of_keys good fun j sender follower => forwards j k sender follower within
  have handled (j : Nat) (voter : j < z.size) : R.Handled (s.nodes i).state.tally j := by
    rcases accounting.completed j voter (complete j voter) with ⟨x,_,pending⟩ | votes
    · simp [quiet j voter] at pending
    · rcases (votes i inside).there silent with pending | done
      · simp [quiet i inside] at pending
      · exact done
  refine (active i inside).ready good (quiet i inside) (running i inside) (Or.inr (complete i inside)) ?_ handled
  by_cases leader : i = R.common.leader
  · exact leader ▸ recorded
  · exact ((active i inside).linked.follows leader).trans (if_pos (complete i inside))

end Round

end ReputationSMR

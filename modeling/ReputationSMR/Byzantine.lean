import ReputationSMR.System

/-! Rounds with Byzantine nodes. The honest nodes run in lock step: what one of them sends
in a view reaches the others while they are in that view. -/
namespace ReputationSMR

open Wire FiniteMap

/-- The round has been started and all that has arrived is handled, as far as the node's
goroutines take it. -/
def Node.settled (cfg : NodeConfig) (node : Node) : Prop :=
  0 < node.state.timers ∧ ∀ job ∈ node.pending, takes cfg node.state job = false

instance (cfg : NodeConfig) (node : Node) : Decidable (node.settled cfg) := inferInstanceAs (Decidable (_ ∧ _))

/-- The honest nodes in lock step. What an honest node has sent in a view is delivered when
all honest nodes are in the view and before any of them ends it; once one of them has
ended the view, the others only run their callbacks. -/
def Synchronous (c : Cluster) (s : System) : SystemEvent → Prop
  | .deliver k => ∀ packet ∈ s.net[k]?, ∀ view ∈ packet.tag, ∀ j ∈ c.honestNodes,
      view ≤ (s.nodes j).state.view
  | .work i _ _ => ∀ j ∈ c.honestNodes, (s.nodes j).state.view ≤ (s.nodes i).state.view
  | .callback i => (∀ j ∈ c.honestNodes, (s.nodes i).state.view < (s.nodes j).state.view ∨
        (s.nodes j).state.view = (s.nodes i).state.view ∧ (s.nodes j).settled (c.config j)) ∧
      ∀ packet ∈ s.net, ∀ view ∈ packet.tag, (s.nodes i).state.view < view
  | _ => True

instance (c : Cluster) (s : System) (e : SystemEvent) : Decidable (Synchronous c s e) :=
  match e with
  | .deliver k => inferInstanceAs (Decidable (∀ packet ∈ s.net[k]?, _))
  | .work _ _ _ => inferInstanceAs (Decidable (∀ j ∈ c.honestNodes, _))
  | .callback _ => inferInstanceAs (Decidable (_ ∧ _))
  | .connect _ | .command _ _ | .inject _ _ => isTrue trivial

/-- The Byzantine nodes hold less than half of the reputation, in every view and in the
eyes of every honest node. -/
def ByzantineMinority (c : Cluster) (s : System) : Prop :=
  ∀ i ∈ c.honestNodes, ∀ view ∈ (s.nodes i).state.reputationMap.keys,
    sumAt (row (s.nodes i).state.reputationMap view) c.byzantine <
      total (row (s.nodes i).state.reputationMap view) * (1 / 2)

instance (c : Cluster) (s : System) : Decidable (ByzantineMinority c s) :=
  inferInstanceAs (Decidable (∀ i ∈ c.honestNodes, _))

end ReputationSMR

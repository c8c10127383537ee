import ReputationSMR.Byzantine
import ReputationSMR.Transcripts

/-! Reputation consistency. The reputations of a view are a function of what a node had
recorded when it entered it, so nodes that recorded the same behaviour of the earlier
views hold the same reputations. Nothing makes the records agree: a Byzantine node may
vote to some of the others only. -/
namespace ReputationSMR

open Wire FiniteMap

/-! ## The ledger of a node -/

/-- The reputations of each view that the node has entered are the scores of a state that
had recorded what the node knows of the earlier views, and nothing else. -/
structure Ledger (p : Platform) (size : Nat) (n : SyncHS) : Prop where
  view : 1 ≤ n.view
  blank : ∀ u, n.view < u → n.transcript u = .blank
  inside : ∀ v i x, at2 n.reputationMap v i = some x → i < size
  first : ∀ i, at2 n.reputationMap 1 i = if i < size then some initialNodescore else none
  left : ∀ u, 1 ≤ u → u < n.view → ∃ m : SyncHS, (∀ w, w ≤ u → m.transcript w = n.transcript w) ∧
    (∀ w, u < w → m.transcript w = .blank) ∧
    ∀ i, at2 n.reputationMap (u + 1) i = if i < size then some (m.score p i) else none

section Ledgers

variable {p : Platform} {cfg : NodeConfig} {size : Nat} {n n' : SyncHS}

theorem Ledger.within (ledger : Ledger p size n) (within : Within n n') : Ledger p size n' := by
  refine ⟨within.view ▸ ledger.view,?_,within.reputations ▸ ledger.inside,within.reputations ▸ ledger.first,?_⟩
  · intro u later
    rw [within.view] at later
    rw [within.transcripts u later.ne']
    exact ledger.blank u later
  · intro u positive earlier
    rw [within.view] at earlier
    obtain ⟨m,known,unknown,scores⟩ := ledger.left u positive earlier
    refine ⟨m,fun w before => ?_,unknown,within.reputations ▸ scores⟩
    rw [within.transcripts w (by omega)]
    exact known w before

theorem Ledger.at2_newRow (ledger : Ledger p size n) (card : cfg.pMap.card + 1 = size) (v i : Nat) :
    at2 (n.reputationMap.insert (n.view + 1) (newRow p cfg n)) v i =
      if v = n.view + 1 then (if i < size then some (n.score p i) else none) else at2 n.reputationMap v i := by
  rw [at2_insert]
  split
  next here =>
    rw [lookup_newRow]
    by_cases within : i < size
    · rw [if_pos within, if_pos (by omega)]
    · rw [if_neg within, if_neg (by omega), ← at2_eq_row]
      cases entry : at2 n.reputationMap (n.view + 1) i with
      | none => rfl
      | some x => exact absurd (ledger.inside _ _ _ entry) within
  next => rfl

/-- The new row is in place while the node is still in its view. -/
theorem Ledger.scored (ledger : Ledger p size n) (card : cfg.pMap.card + 1 = size)
    (view : n'.view = n.view) (transcripts : ∀ u, n'.transcript u = n.transcript u)
    (reputations : n'.reputationMap = n.reputationMap.insert (n.view + 1) (newRow p cfg n)) :
    Ledger p size n' := by
  have rows := ledger.at2_newRow card
  have positive := ledger.view
  refine ⟨view ▸ ledger.view,?_,?_,?_,?_⟩
  · intro u later
    rw [transcripts u]
    exact ledger.blank u (view ▸ later)
  · intro v i x entry
    rw [reputations, rows] at entry
    split at entry
    next =>
      split at entry
      next within => exact within
      next => contradiction
    next => exact ledger.inside v i x entry
  · intro i
    rw [reputations, rows, if_neg (by omega)]
    exact ledger.first i
  · intro u least earlier
    rw [view] at earlier
    obtain ⟨m,known,unknown,scores⟩ := ledger.left u least earlier
    refine ⟨m,fun w before => (known w before).trans (transcripts w).symm,unknown,fun i => ?_⟩
    rw [reputations, rows, if_neg (by omega)]
    exact scores i

theorem Ledger.connected (ledger : Ledger p size n) (card : cfg.pMap.card + 1 = size) (first : n.view = 1) :
    Ledger p size (clientConnects cfg n) := by
  have rows (v i : Nat) : at2 (clientConnects cfg n).reputationMap v i = at2 n.reputationMap v i := by
    rw [show (clientConnects cfg n).reputationMap = _ from initialReputationMap_eq n, card, at2_insert]
    split
    next here =>
      rw [here, first, ledger.first, lookup_fill, ← at2_eq_row, ledger.first]
      simp only [List.mem_range]
      split
      next => rfl
      next => rfl
    next => rfl
  refine ⟨ledger.view,ledger.blank,?_,?_,?_⟩
  · intro v i x entry
    exact ledger.inside v i x (rows v i ▸ entry)
  · intro i
    rw [rows]
    exact ledger.first i
  · intro u least earlier
    exact absurd earlier (by change ¬u < n.view; omega)

/-- When the node enters the next view its present state is the one it left with. -/
theorem Ledger.entered (ledger : Ledger p size n) (card : cfg.pMap.card + 1 = size)
    (view : n'.view = n.view + 1) (transcripts : ∀ u, n'.transcript u = n.transcript u)
    (reputations : n'.reputationMap = n.reputationMap.insert (n.view + 1) (newRow p cfg n)) :
    Ledger p size n' := by
  have scored : Ledger p size { n' with view := n.view } := ledger.scored card rfl transcripts reputations
  refine ⟨by omega,fun u later => scored.blank u (by change n.view < u; omega),scored.inside,scored.first,?_⟩
  intro u least earlier
  by_cases last : u = n.view
  · subst last
    refine ⟨n,fun w _ => (transcripts w).symm,ledger.blank,fun i => ?_⟩
    rw [reputations, ledger.at2_newRow card, if_pos rfl]
  · exact scored.left u least (by change u < n.view; omega)

theorem Ledger.callback {effect : Effect} (ledger : Ledger p size n) (card : cfg.pMap.card + 1 = size)
    (step : CallbackStep p cfg n n' effect) : Ledger p size n' := by
  cases step with
  | kept counters _ => exact ledger.scored card rfl (fun _ => rfl) rfl
  | advanced b counters _ _ => exact ledger.entered card rfl (fun _ => rfl) rfl

end Ledgers

/-! ## Steps and runs -/

/-- An event leaves the earlier transcripts alone, and a node leaves its view only with a
callback that acknowledges a block. -/
structure LedgerStep (event : NodeEvent) (n n' : SyncHS) : Prop where
  view : n'.view = n.view ∨ event = .callback ∧ n.advances ∧ n'.view = n.view + 1
  transcripts : ∀ u, u ≠ n.view ∨ n'.view ≠ n.view → n'.transcript u = n.transcript u

theorem NodeCase.ledgerStep {p : Platform} {cfg : NodeConfig} {size : Nat} {node node' : Node} {event : NodeEvent}
    {sends : List Outgoing} (case : NodeCase p cfg node event node' sends)
    (early : event = .connect → node.state.view = 1) (card : cfg.pMap.card + 1 = size) (ledger : Ledger p size node.state) :
    Ledger p size node'.state ∧ LedgerStep event node.state node'.state := by
  have stays {n' : SyncHS} (within : Within node.state n') :
      Ledger p size n' ∧ LedgerStep event node.state n' :=
    ⟨ledger.within within,Or.inl within.view,
      fun u other => within.transcripts u (other.resolve_right (not_not.mpr within.view))⟩
  cases case with
  | connected => exact ⟨ledger.connected card (early rfl),Or.inl rfl,fun _ _ => rfl⟩
  | commanded cmd n' jobs case =>
    cases case with
    | pooled _ _ _ _ _ _ => exact stays ⟨rfl,rfl,fun _ _ => rfl⟩
  | received m => exact stays (.same _)
  | worked index order job n' jobs sends found case => exact stays case.within
  | calledBack n' acks case =>
    have running : Ledger p size { node.state with timers := node.state.timers - 1 } :=
      ledger.within ⟨rfl,rfl,fun _ _ => rfl⟩
    refine ⟨running.callback card case,?_⟩
    cases case with
    | kept counters _ => exact ⟨Or.inl rfl,fun _ _ => rfl⟩
    | advanced b counters moves _ => exact ⟨Or.inr ⟨rfl,moves,rfl⟩,fun _ _ => rfl⟩

/-- A node that ends a view has recorded the same of it as the honest nodes that have
ended it before, and clients connect in the first view. -/
def RecordsAgree (c : Cluster) (s : System) : SystemEvent → Prop
  | .callback i => (s.nodes i).state.advances → ∀ j ∈ c.honestNodes,
      (s.nodes i).state.view < (s.nodes j).state.view →
      (s.nodes i).state.transcript (s.nodes i).state.view = (s.nodes j).state.transcript (s.nodes i).state.view
  | .connect i => (s.nodes i).state.view = 1
  | _ => True

structure Histories (c : Cluster) (p : Platform) (s : System) : Prop where
  ledgers : ∀ i ∈ c.honestNodes, Ledger p c.size (s.nodes i).state
  agreed : ∀ i ∈ c.honestNodes, ∀ j ∈ c.honestNodes, ∀ u, u < (s.nodes i).state.view →
    u < (s.nodes j).state.view → (s.nodes i).state.transcript u = (s.nodes j).state.transcript u

section Runs

variable {c : Cluster} {p : Platform} {s t : System}

theorem Histories.reputations (histories : Histories c p s) {i j v : Nat} (honest : i ∈ c.honestNodes)
    (honest' : j ∈ c.honestNodes) (least : 1 ≤ v) (entered : v ≤ (s.nodes i).state.view)
    (entered' : v ≤ (s.nodes j).state.view) (nodeID : Nat) :
    at2 (s.nodes i).state.reputationMap v nodeID = at2 (s.nodes j).state.reputationMap v nodeID := by
  have left := histories.ledgers i honest
  have right := histories.ledgers j honest'
  obtain rfl | ⟨u,positive,rfl⟩ : v = 1 ∨ ∃ u, 1 ≤ u ∧ v = u + 1 := by
    rcases Nat.eq_or_lt_of_le least with same | later
    · exact Or.inl same.symm
    · exact Or.inr ⟨v - 1,by omega,by omega⟩
  · rw [left.first, right.first]
  · obtain ⟨m,known,unknown,scores⟩ := left.left u positive (by omega)
    obtain ⟨m',known',unknown',scores'⟩ := right.left u positive (by omega)
    have same (w : Nat) : m'.transcript w = m.transcript w := by
      by_cases before : w ≤ u
      · rw [known w before, known' w before]
        exact (histories.agreed i honest j honest' w (by omega) (by omega)).symm
      · rw [unknown w (by omega), unknown' w (by omega)]
    rw [scores, scores', score_congr same]

theorem Histories.moved (histories : Histories c p s) {i j : Nat} {event : NodeEvent} {node : Node}
    (honest : i ∈ c.honestNodes) (honest' : j ∈ c.honestNodes)
    (continues : LedgerStep event (s.nodes i).state node.state)
    (records : event = .callback → (s.nodes i).state.advances →
      (s.nodes i).state.view < (s.nodes j).state.view →
      (s.nodes i).state.transcript (s.nodes i).state.view = (s.nodes j).state.transcript (s.nodes i).state.view)
    {u : Nat} (past : u < node.state.view) (past' : u < (s.nodes j).state.view) :
    node.state.transcript u = (s.nodes j).state.transcript u := by
  rcases continues.view with same | ⟨called,advances,next⟩
  · rw [same] at past
    rw [continues.transcripts u (Or.inl past.ne)]
    exact histories.agreed i honest j honest' u past past'
  · rw [continues.transcripts u (Or.inr (by omega))]
    by_cases last : u = (s.nodes i).state.view
    · subst last
      exact records called advances past'
    · exact histories.agreed i honest j honest' u (by omega) past'

theorem Histories.step (card : ∀ i ∈ c.honestNodes, (c.config i).pMap.card + 1 = c.size)
    (histories : Histories c p s) {e : SystemEvent} (agree : RecordsAgree c s e) (case : SystemCase c p s e t) :
    Histories c p t := by
  rcases case.moves with ⟨dest,m,_,rfl⟩ | ⟨i,event,sends,moves⟩
  · exact ⟨histories.ledgers,histories.agreed⟩
  · have records (called : event = .callback) : RecordsAgree c s (.callback i) := moves.callback called ▸ agree
    have early (connects : event = .connect) : (s.nodes i).state.view = 1 :=
      (moves.connects connects ▸ agree : RecordsAgree c s (.connect i))
    have steps (honest : i ∈ c.honestNodes) :=
      moves.case.ledgerStep early (card i honest) (histories.ledgers i honest)
    constructor
    · exact moves.each (P := fun _ node => Ledger p c.size node.state) histories.ledgers fun honest => (steps honest).1
    · intro j honest k honest' u past past'
      by_cases same : j = i <;> by_cases same' : k = i
      · rw [same, same']
      · subst same
        rw [moves.other k same'] at past' ⊢
        exact histories.moved honest honest' (steps honest).2
          (fun called advances => records called advances k honest') past past'
      · subst same'
        rw [moves.other j same] at past ⊢
        exact (histories.moved honest' honest (steps honest').2
          (fun called advances => records called advances j honest) past' past).symm
      · rw [moves.other j same] at past ⊢
        rw [moves.other k same'] at past' ⊢
        exact histories.agreed j honest k honest' u past past'

theorem start_ledger (p : Platform) {cfg : NodeConfig} {size : Nat} (card : cfg.pMap.card + 1 = size) :
    Ledger p size (clientConnects cfg .init) := by
  have rows (v i : Nat) : at2 (clientConnects cfg .init).reputationMap v i =
      if v = 1 then (if i < size then some initialNodescore else none) else none := by
    rw [show (clientConnects cfg .init).reputationMap = _ from initialReputationMap_eq SyncHS.init, card]
    refine (at2_insert _ _ _ _ _).trans ?_
    rw [lookup_fill]
    simp only [List.mem_range]
    rfl
  refine ⟨le_rfl,fun _ _ => rfl,?_,fun i => by rw [rows, if_pos rfl],?_⟩
  · intro v i x entry
    rw [rows] at entry
    split at entry
    next =>
      split at entry
      next within => exact within
      next => contradiction
    next => contradiction
  · intro u least earlier
    exact absurd earlier (Nat.not_lt.mpr least)

end Runs

theorem complete_card {size blockSize : Nat} {startEvidence : Bool} {mode : TimerMode} {byzantine : Finset Nat}
    (i : Nat) (honest : i ∈ (Cluster.complete size blockSize startEvidence mode byzantine).honestNodes) :
    ((Cluster.complete size blockSize startEvidence mode byzantine).config i).pMap.card + 1 = size := by
  have inside : i < size := ((Cluster.mem_honestNodes _ _).mp honest).1
  simp only [Cluster.complete, NodeConfig.complete, Finset.card_erase_of_mem (Finset.mem_range.mpr inside),
    Finset.card_range]
  omega

/-! Three nodes, the last of them Byzantine. In the first view it forwards the proposal of
node zero and then votes to some of the others. -/

def oneTraitor : Cluster := .complete 3 1 true .plain {2}

def firstProposal : Proposal :=
  newCandidateProposal transparent (oneTraitor.config 0) .init [[1]] genesisCert 1 []

def traitorForward : SyncHSMsg := .prop (signForward transparent (oneTraitor.config 2) firstProposal)

def traitorVote : SyncHSMsg :=
  .vote (signVote transparent (oneTraitor.config 2) ⟨((firstProposal.block.map ProtoBlock.blockHash).getD []),1,0⟩)

/-- Up to the votes of the honest nodes. -/
def traitorForwards : List SystemEvent :=
  [.command 0 [1],.command 1 [1],.work 0 0 [],.work 0 0 [],.work 1 0 [],.deliver 0,.work 1 0 [],
    .inject 0 traitorForward,.inject 1 traitorForward,.deliver 0,.deliver 0,.deliver 0,
    .work 0 0 [],.work 0 0 [],.work 1 0 [],.work 1 0 [],.work 1 0 []]

/-- The whole view, in which the traitor votes too. -/
def traitorRound : List SystemEvent :=
  traitorForwards ++ [.inject 0 traitorVote,.inject 1 traitorVote,.deliver 0,.deliver 0,.deliver 0,.deliver 0,
    .work 0 0 [0],.work 0 0 [0,1],.work 0 0 [],.work 0 0 [],.work 1 0 [1],.work 1 0 [0,1],.work 1 0 [],.work 1 0 [],
    .callback 0,.callback 1]

/-- The vote goes to node zero only. -/
theorem partial_vote_splits_reputations : ∃ trace s,
    ((systemMachine oneTraitor transparent).restrict fun s e =>
      Synchronous oneTraitor s e ∧ ByzantineMinority oneTraitor s).Run (System.start oneTraitor) trace s ∧
    ByzantineMinority oneTraitor s ∧ 0 ∈ oneTraitor.honestNodes ∧ 1 ∈ oneTraitor.honestNodes ∧
    2 ≤ (s.nodes 0).state.view ∧ 2 ≤ (s.nodes 1).state.view ∧
    at2 (s.nodes 0).state.reputationMap 2 2 ≠ at2 (s.nodes 1).state.reputationMap 2 2 := by
  obtain ⟨s,run,minority,first,second,differ⟩ := Guarded.Machine.reaches
    (fun s : System => ByzantineMinority oneTraitor s ∧ 2 ≤ (s.nodes 0).state.view ∧
      2 ≤ (s.nodes 1).state.view ∧
      at2 (s.nodes 0).state.reputationMap 2 2 ≠ at2 (s.nodes 1).state.reputationMap 2 2)
    (show (((systemMachine oneTraitor transparent).restrict fun s e =>
      Synchronous oneTraitor s e ∧ ByzantineMinority oneTraitor s).replay
      (traitorForwards ++ [.inject 0 traitorVote,.deliver 0,.deliver 0,.deliver 0,
        .work 0 0 [0],.work 0 0 [0,1],.work 0 0 [],.work 0 0 [],.work 1 0 [1],.work 1 0 [0,1],.work 1 0 [],
        .callback 0,.callback 1]) (System.start oneTraitor)).any _ = true by decide +kernel)
  exact ⟨_,s,run,minority,by decide,by decide,first,second,differ⟩

end ReputationSMR

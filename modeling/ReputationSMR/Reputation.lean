import ReputationSMR.State

/-! `Reputation.go`. The score of a node is a function of six counts, each the number
of views in which one behaviour map has value one for it; the package-level counters
only carry the counts from one function to the next. Scores are exact rationals, and
the penalty sum wraps as `uint64` does. -/
namespace ReputationSMR

open Wire FiniteMap

def gamma : ℚ := 1 / 10000

def countViews (m : BehaviourMap) (nodeID : Nat) : Nat :=
  (m.keys.filter fun view => at2 m view nodeID = some 1).card

/-- Arithmetic of `uint64` wraps. -/
def wrap64 (n : Nat) : Nat := n % 2^64

def maxValueCheckNum (a : ℚ) : ℚ := if a < 0 then 0 else a

def maxValueCheckScore (a : ℚ) : ℚ := if a < initialNodescore then initialNodescore else a

namespace SyncHS

def proposalNumCalculate (n : SyncHS) (nodeID : Nat) (k : Counters) : Counters :=
  { k with proposalnum := countViews n.proposalMap nodeID }

def voteNumCalculate (n : SyncHS) (nodeID : Nat) (k : Counters) : Counters :=
  { k with votenum := countViews n.voteMap nodeID }

def maliproposalNumCalculate (n : SyncHS) (nodeID : Nat) (k : Counters) : Counters :=
  { k with maliproposalnum := countViews n.maliproposalMap nodeID }

def withholdproposalNumCalculate (n : SyncHS) (nodeID : Nat) (k : Counters) : Counters :=
  { k with withpropsoalnum := countViews n.withproposalMap nodeID }

def equivocationproposalNumCalculate (n : SyncHS) (nodeID : Nat) (k : Counters) : Counters :=
  { k with equiprospoalnum := countViews n.equiproposalMap nodeID }

def malivoteNumCalculate (n : SyncHS) (nodeID : Nat) (k : Counters) : Counters :=
  { k with malivotenum := countViews n.voteMaliMap nodeID }

end SyncHS

/-- The formula of the score, from the counters. -/
def Counters.nodeScore (p : Platform) (k : Counters) : ℚ :=
  let misProprosalSc := wrap64 (k.withpropsoalnum * 10 + k.equiprospoalnum * 10 + k.maliproposalnum * 2)
  let proposalscore := maxValueCheckNum (k.proposalnum - misProprosalSc)
  let misVotesc := wrap64 (k.malivotenum * 2)
  let votescore := maxValueCheckNum (k.votenum - misVotesc)
  maxValueCheckScore (p.tanh (gamma * (votescore + proposalscore)) + initialNodescore)

namespace SyncHS

/-- The counters are threaded through as the calls overwrite them. -/
def reputationCalculateinCurrentRound (p : Platform) (n : SyncHS) (nodeID : Nat) (k : Counters) :
    ℚ × Counters :=
  let k := n.proposalNumCalculate nodeID k
  let k := n.voteNumCalculate nodeID k
  let k := n.withholdproposalNumCalculate nodeID k
  let k := n.maliproposalNumCalculate nodeID k
  let k := n.equivocationproposalNumCalculate nodeID k
  let k := n.malivoteNumCalculate nodeID k
  (k.nodeScore p,k)

/-- One round of the loop of `addNewViewReputaiontoMap`. -/
def scoreNode (p : Platform) (n : SyncHS) (i : Nat) : SyncHS :=
  let result := n.reputationCalculateinCurrentRound p i n.counters
  { n with
    reputationMap := put2 n.reputationMap (n.view + 1) i result.1
    counters := result.2 }

def addNewViewReputaiontoMap (p : Platform) (cfg : NodeConfig) (n : SyncHS) : SyncHS :=
  (List.range (cfg.pMap.card + 1)).foldl (scoreNode p) n

def initialReputationMap (cfg : NodeConfig) (n : SyncHS) : SyncHS :=
  let start i m := put2 m n.view i initialNodescore
  { n with reputationMap := (List.range (cfg.pMap.card + 1)).foldl (fun m i => start i m) n.reputationMap }

/-- The counts of a node, read off the six behaviour maps. -/
def counts (n : SyncHS) (nodeID : Nat) : Counters :=
  ⟨countViews n.proposalMap nodeID,countViews n.voteMap nodeID,countViews n.maliproposalMap nodeID,
    countViews n.equiproposalMap nodeID,countViews n.withproposalMap nodeID,
    countViews n.voteMaliMap nodeID⟩

def score (p : Platform) (n : SyncHS) (nodeID : Nat) : ℚ := (n.counts nodeID).nodeScore p

/-- What earlier calls left in the counters plays no part. -/
theorem reputationCalculateinCurrentRound_eq (p : Platform) (n : SyncHS) (nodeID : Nat)
    (k : Counters) : n.reputationCalculateinCurrentRound p nodeID k =
      (n.score p nodeID,n.counts nodeID) := rfl

end SyncHS

theorem initialNodescore_pos : 0 < initialNodescore := by
  norm_num [initialNodescore]

theorem Counters.nodeScore_pos (p : Platform) (k : Counters) : 0 < k.nodeScore p := by
  have floor (a : ℚ) : initialNodescore ≤ maxValueCheckScore a := by
    simp only [maxValueCheckScore]
    split <;> linarith
  exact lt_of_lt_of_le initialNodescore_pos (floor _)

/-! ## The new row of the reputation map -/

section Rows

variable {p : Platform} {cfg : NodeConfig}

theorem foldl_scoreNode (n : SyncHS) (ids : List Nat) (k : Nat) :
    ∃ counters, (k :: ids).foldl (SyncHS.scoreNode p) n =
      { n with
        reputationMap := n.reputationMap.insert (n.view + 1)
          (fill (n.score p) (k :: ids) (row n.reputationMap (n.view + 1)))
        counters := counters } := by
  induction ids generalizing n k with
  | nil => exact ⟨_,rfl⟩
  | cons j rest ih =>
    obtain ⟨counters,loop⟩ := ih (n.scoreNode p k) j
    refine ⟨counters,?_⟩
    rw [List.foldl_cons, loop]
    simp only [SyncHS.scoreNode, SyncHS.reputationCalculateinCurrentRound_eq, put2,
      Finmap.insert_insert, row_insert, if_true]
    rfl

def newRow (p : Platform) (cfg : NodeConfig) (n : SyncHS) : Map Nat ℚ :=
  fill (n.score p) (List.range (cfg.pMap.card + 1)) (row n.reputationMap (n.view + 1))

theorem addNewViewReputaiontoMap_eq (p : Platform) (cfg : NodeConfig) (n : SyncHS) :
    ∃ counters, n.addNewViewReputaiontoMap p cfg =
      { n with
        reputationMap := n.reputationMap.insert (n.view + 1) (newRow p cfg n)
        counters := counters } := by
  have range : List.range (cfg.pMap.card + 1) = 0 :: (List.range cfg.pMap.card).map Nat.succ :=
    List.range_succ_eq_map
  simp only [SyncHS.addNewViewReputaiontoMap, newRow, range]
  exact foldl_scoreNode n _ 0

theorem lookup_newRow (n : SyncHS) (i : Nat) : (newRow p cfg n).lookup i =
    if i ≤ cfg.pMap.card then some (n.score p i) else (row n.reputationMap (n.view + 1)).lookup i := by
  rw [newRow, lookup_fill]
  simp only [List.mem_range, Nat.lt_succ_iff]

/-- The first client connection gives every node the same reputation. -/
theorem initialReputationMap_eq (n : SyncHS) : (n.initialReputationMap cfg).reputationMap =
    n.reputationMap.insert n.view (fill (fun _ => initialNodescore) (List.range (cfg.pMap.card + 1))
      (row n.reputationMap n.view)) := by
  rw [SyncHS.initialReputationMap, List.range_succ_eq_map]
  exact foldl_put2 _ _ _ _ _

end Rows

end ReputationSMR

import ReputationSMR.RecordStability

/-! The score of a node is its formula. `ReputationCalculateinCurrentRound` runs six loops over
nested maps; each clears a package-level counter, counts into it as a `uint64` and visits the
views in an order that the runtime chooses. With fewer than `2^59` views neither the loops nor
the penalty sums wrap around, and neither clamp hides anything but a negative difference. -/
namespace ReputationSMR

open Wire FiniteMap

/-! ## Counting loops -/

structure Counter where
  get : Counters → Nat
  set : Nat → Counters → Counters
  get_set : ∀ a k, get (set a k) = a
  set_set : ∀ a b k, set a (set b k) = set a k

namespace Counter

def proposalnum : Counter :=
  ⟨Counters.proposalnum,fun a k => { k with proposalnum := a },fun _ _ => rfl,fun _ _ _ => rfl⟩

def votenum : Counter :=
  ⟨Counters.votenum,fun a k => { k with votenum := a },fun _ _ => rfl,fun _ _ _ => rfl⟩

def maliproposalnum : Counter :=
  ⟨Counters.maliproposalnum,fun a k => { k with maliproposalnum := a },fun _ _ => rfl,fun _ _ _ => rfl⟩

def equiprospoalnum : Counter :=
  ⟨Counters.equiprospoalnum,fun a k => { k with equiprospoalnum := a },fun _ _ => rfl,fun _ _ _ => rfl⟩

def withpropsoalnum : Counter :=
  ⟨Counters.withpropsoalnum,fun a k => { k with withpropsoalnum := a },fun _ _ => rfl,fun _ _ _ => rfl⟩

def malivotenum : Counter :=
  ⟨Counters.malivotenum,fun a k => { k with malivotenum := a },fun _ _ => rfl,fun _ _ _ => rfl⟩

/-- The body of the loops: a view in which the node has value one is counted. -/
def visit (c : Counter) (m : BehaviourMap) (nodeID : Nat) (k : Counters) (view : Nat) : Counters :=
  if at2 m view nodeID = some 1 then c.set (wrap64 (c.get k + 1)) k else k

/-- The counter is cleared, and the views are visited in the given order. -/
def loop (c : Counter) (m : BehaviourMap) (nodeID : Nat) (order : List Nat) (k : Counters) : Counters :=
  (traversal m order).foldl (c.visit m nodeID) (c.set 0 k)

variable {c : Counter} {m : BehaviourMap} {nodeID : Nat}

theorem foldl_visit {views : List Nat} {a : Nat} (k : Counters) (fits : a + views.length < 2^64) :
    views.foldl (c.visit m nodeID) (c.set a k) =
      c.set (a + views.countP fun view => at2 m view nodeID = some 1) k := by
  induction views generalizing a with
  | nil => rfl
  | cons view rest ih =>
    simp only [List.length_cons] at fits
    rw [List.foldl_cons, List.countP_cons, visit, c.get_set, c.set_set]
    split
    next counted =>
      rw [wrap64_eq (by omega), ih (by omega)]
      simp only [counted, decide_true, if_true]
      congr 1
      omega
    next skipped =>
      rw [ih (by omega)]
      simp [skipped]

theorem countP_traversal (order : List Nat) :
    ((traversal m order).countP fun view => at2 m view nodeID = some 1) = countViews m nodeID := by
  obtain ⟨nodup,all⟩ := traversal_enumerates m order
  rw [countViews, ← all, List.countP_eq_length_filter, ← List.toFinset_card_of_nodup (nodup.filter _),
    List.toFinset_filter]
  simp only [decide_eq_true_eq]

theorem length_traversal (order : List Nat) : (traversal m order).length = size m := by
  obtain ⟨nodup,all⟩ := traversal_enumerates m order
  rw [size, ← all, List.toFinset_card_of_nodup nodup]

/-- The loop finds the number of views, whatever the counter held and in every order. -/
theorem loop_eq (order : List Nat) (k : Counters) (fits : size m < 2^64) :
    c.loop m nodeID order k = c.set (countViews m nodeID) k := by
  rw [loop, foldl_visit k (by rw [length_traversal]; omega), countP_traversal, Nat.zero_add]

end Counter

/-! ## The formula -/

namespace SyncHS

/-- The calls of `ReputationCalculateinCurrentRound`, with the order in which each loop visits
its map. -/
def calculateInOrder (p : Platform) (n : SyncHS) (order : Behaviour → List Nat) (nodeID : Nat) (k : Counters) :
    ℚ × Counters :=
  let k := Counter.proposalnum.loop n.proposalMap nodeID (order .proposal) k
  let k := Counter.votenum.loop n.voteMap nodeID (order .vote) k
  let k := Counter.withpropsoalnum.loop n.withproposalMap nodeID (order .withproposal) k
  let k := Counter.maliproposalnum.loop n.maliproposalMap nodeID (order .maliproposal) k
  let k := Counter.equiprospoalnum.loop n.equiproposalMap nodeID (order .equiproposal) k
  let k := Counter.malivotenum.loop n.voteMaliMap nodeID (order .maliVote) k
  (k.nodeScore p,k)

/-- The number of views in which the node has value one. -/
def times (n : SyncHS) (r : Behaviour) (nodeID : Nat) : Nat := countViews (n.behaviour r) nodeID

def proposalScore (n : SyncHS) (nodeID : Nat) : ℚ :=
  max 0 (n.times .proposal nodeID - 10 * n.times .withproposal nodeID - 10 * n.times .equiproposal nodeID -
    2 * n.times .maliproposal nodeID)

def voteScore (n : SyncHS) (nodeID : Nat) : ℚ := max 0 (n.times .vote nodeID - 2 * n.times .maliVote nodeID)

end SyncHS

section Formula

variable {p : Platform} {n n' : SyncHS} {i : Nat}

theorem calculateInOrder_eq (order : Behaviour → List Nat) (k : Counters)
    (fits : ∀ r, size (n.behaviour r) < 2^64) :
    n.calculateInOrder p order i k = n.reputationCalculateinCurrentRound p i k := by
  have loop (c : Counter) (r : Behaviour) (k : Counters) : c.loop (n.behaviour r) i (order r) k =
      c.set (n.times r i) k := Counter.loop_eq (order r) k (fits r)
  have proposals := loop .proposalnum .proposal k
  have votes := loop .votenum .vote
  have withheld := loop .withpropsoalnum .withproposal
  have malicious := loop .maliproposalnum .maliproposal
  have equivocations := loop .equiprospoalnum .equiproposal
  have maliciousVotes := loop .malivotenum .maliVote
  simp only [SyncHS.behaviour] at proposals votes withheld malicious equivocations maliciousVotes
  simp only [SyncHS.calculateInOrder, proposals, votes, withheld, malicious, equivocations, maliciousVotes]
  rfl

theorem times_le_size (r : Behaviour) : n.times r i ≤ size (n.behaviour r) :=
  Finset.card_le_card (Finset.filter_subset _ _)

theorem maxValueCheckNum_eq (a : ℚ) : maxValueCheckNum a = max 0 a := by
  rw [maxValueCheckNum]
  split
  next negative => exact (max_eq_left negative.le).symm
  next positive => exact (max_eq_right (not_lt.mp positive)).symm

theorem score_eq (few : ∀ r, size (n.behaviour r) < 2^59) :
    n.score p i = maxValueCheckScore (p.tanh (gamma * (n.voteScore i + n.proposalScore i)) + initialNodescore) := by
  have few (r : Behaviour) : n.times r i < 2^59 := lt_of_le_of_lt (times_le_size r) (few r)
  have penalty : wrap64 (n.times .withproposal i * 10 + n.times .equiproposal i * 10 + n.times .maliproposal i * 2) =
      n.times .withproposal i * 10 + n.times .equiproposal i * 10 + n.times .maliproposal i * 2 := by
    have := few .withproposal
    have := few .equiproposal
    have := few .maliproposal
    exact wrap64_eq (by omega)
  have votePenalty : wrap64 (n.times .maliVote i * 2) = n.times .maliVote i * 2 := by
    have := few .maliVote
    exact wrap64_eq (by omega)
  have proposals : maxValueCheckNum ((n.times .proposal i : ℚ) -
      (wrap64 (n.times .withproposal i * 10 + n.times .equiproposal i * 10 + n.times .maliproposal i * 2) : Nat)) =
        n.proposalScore i := by
    rw [penalty, maxValueCheckNum_eq, SyncHS.proposalScore]
    push_cast
    congr 1
    linarith
  have votes : maxValueCheckNum ((n.times .vote i : ℚ) - (wrap64 (n.times .maliVote i * 2) : Nat)) = n.voteScore i := by
    rw [votePenalty, maxValueCheckNum_eq, SyncHS.voteScore]
    push_cast
    congr 1
    linarith
  rw [← votes, ← proposals]
  rfl

theorem scores_nonneg (n : SyncHS) (i : Nat) : 0 ≤ gamma * (n.voteScore i + n.proposalScore i) := by
  have votes : 0 ≤ n.voteScore i := le_max_left _ _
  have proposals : 0 ≤ n.proposalScore i := le_max_left _ _
  exact mul_nonneg (by norm_num [gamma]) (add_nonneg votes proposals)

theorem countViews_congr {m m' : BehaviourMap} (same : ∀ v, at2 m' v i = at2 m v i) :
    countViews m' i = countViews m i := by
  have mono {a b : BehaviourMap} (same : ∀ v, at2 a v i = at2 b v i) : countViews a i ≤ countViews b i :=
    countViews_mono fun v recorded => (same v).symm.trans recorded
  exact le_antisymm (mono same) (mono fun v => (same v).symm)

theorem maxValueCheckScore_add {a : ℚ} (nonneg : 0 ≤ a) :
    maxValueCheckScore (a + initialNodescore) = initialNodescore + a := by
  rw [maxValueCheckScore, if_neg (by linarith), add_comm]

/-- The score is its formula, it lies between the initial score and one above it, and it is a
function of the node's own entries. Neither the counters nor the orders of the loops matter. -/
theorem reputation_eq_formula (few : ∀ r, size (n.behaviour r) < 2^59) (monotone : Monotone p.tanh)
    (zero : p.tanh 0 = 0) (below : ∀ x, 0 ≤ x → p.tanh x < 1) (order : Behaviour → List Nat) (k : Counters) :
    (n.calculateInOrder p order i k).1 =
        initialNodescore + p.tanh (gamma * (n.proposalScore i + n.voteScore i)) ∧
      initialNodescore ≤ (n.calculateInOrder p order i k).1 ∧
      (n.calculateInOrder p order i k).1 < 1 + initialNodescore ∧
      ∀ (n' : SyncHS) (order' : Behaviour → List Nat) (k' : Counters),
        (∀ r, size (n'.behaviour r) < 2^59) →
        (∀ r v, at2 (n'.behaviour r) v i = at2 (n.behaviour r) v i) →
          (n'.calculateInOrder p order' i k').1 = (n.calculateInOrder p order i k).1 := by
  have formula {n : SyncHS} (few : ∀ r, size (n.behaviour r) < 2^59) (order : Behaviour → List Nat) (k : Counters) :
      (n.calculateInOrder p order i k).1 =
        initialNodescore + p.tanh (gamma * (n.proposalScore i + n.voteScore i)) := by
    have positive : 0 ≤ p.tanh (gamma * (n.voteScore i + n.proposalScore i)) :=
      zero.symm.le.trans (monotone (scores_nonneg n i))
    rw [calculateInOrder_eq order k fun r => lt_trans (few r) (by norm_num),
      SyncHS.reputationCalculateinCurrentRound_eq, score_eq few, maxValueCheckScore_add positive,
      add_comm (n.voteScore i)]
  have nonneg : 0 ≤ gamma * (n.proposalScore i + n.voteScore i) := by
    rw [add_comm]
    exact scores_nonneg n i
  have positive : 0 ≤ p.tanh (gamma * (n.proposalScore i + n.voteScore i)) :=
    zero.symm.le.trans (monotone nonneg)
  have bounded := below _ nonneg
  refine ⟨formula few order k,?_,?_,?_⟩
  · rw [formula few]
    linarith
  · rw [formula few]
    linarith
  · intro n' order' k' few' same
    have times (r : Behaviour) : n'.times r i = n.times r i := countViews_congr (same r)
    rw [formula few, formula few']
    simp only [SyncHS.proposalScore, SyncHS.voteScore, times]

/-- Two proposals and three votes, an equivocation and two malicious votes in between: every
weight is forfeited, whatever the counters hold and although the loops start at the last view. -/
theorem reputation_of_equivocator :
    let tanh (x : ℚ) : ℚ := max (-1/2) (min x (1/2))
    let n := { SyncHS.init with
      proposalMap := put2 (put2 ∅ 2 1 1) 5 1 1
      equiproposalMap := put2 ∅ 5 1 1
      voteMap := put2 (put2 (put2 ∅ 2 1 1) 3 1 1) 4 1 1
      voteMaliMap := put2 (put2 ∅ 3 1 1) 4 1 1 }
    (n.calculateInOrder { transparent with tanh := tanh } (fun _ => [5,4,3,2]) 1 ⟨7,7,7,7,7,7⟩).1 =
      initialNodescore := by
  intro tanh n
  have few (r : Behaviour) : size (n.behaviour r) < 2^59 := by
    cases r <;> decide +kernel
  have monotone : Monotone tanh := fun a b le => max_le_max_left _ (min_le_min_right _ le)
  have below (x : ℚ) (_ : 0 ≤ x) : tanh x < 1 := by
    have := min_le_right x (1/2)
    exact max_lt (by norm_num) (by linarith)
  have formula := (reputation_eq_formula (p := { transparent with tanh := tanh }) (n := n) (i := 1) few monotone
    (by decide +kernel) below (fun _ => [5,4,3,2]) ⟨7,7,7,7,7,7⟩).1
  rw [formula]
  decide +kernel

end Formula

end ReputationSMR

import ReputationSMR.BigFloat
import ReputationSMR.EmptyBlocks

/-! Reputations as `big.Float`. A score is stored with the 53 bits of a `float64` and so is every partial sum:
the loops that add reputations over a map round after each addition, in an order that the runtime chooses, and
`voteHandler` asks for the benchmark twice, each time with an order of its own. The other modules add exactly.
Here the functions that add are written once more with rounding, under their old names; a map still holds the
scores before they are rounded. -/
namespace ReputationSMR

open Wire FiniteMap

/-- The bits of a `big.Float` that was set from a `float64`. -/
def floatPrec : Nat := 53

def reputationsOf (reputations : Map Nat ℚ) (ids : List Nat) : List ℚ :=
  ids.map fun i => (reputations.lookup i).getD 0

/-! ## The sums -/

namespace Rounded

/-- The orders in which one test visits the pool and, for each call of `GetCertBenchMark`, the reputations. -/
structure SumOrders where
  pool : List Nat
  first : List Nat
  second : List Nat

def getCertBenchMark (reputations : Map Nat ℚ) (order : List Nat) : ℚ :=
  BigFloat.round floatPrec
    (BigFloat.accumulate floatPrec 0 (reputationsOf reputations (traversal reputations order)) * (1 / 2))

def repSumInCert (reputations : Map Nat ℚ) (votes : Map Nat ProtoVote) (order : List Nat) : Option ℚ :=
  if ∀ i ∈ votes.keys, (reputations.lookup i).isSome then
    some (BigFloat.accumulate floatPrec 0 (reputationsOf reputations (traversal votes order)))
  else none

def countVote (p : Platform) (n : SyncHS) (v : ProtoVote) (data : ProtoVoteData) (order : List Nat)
    (sums : SumOrders) : Outcome :=
  match n.addVotetoMap v with
  | none => none
  | some n =>
    if n.isCertified.lookup n.view = some true then some (n,.none)
    else
      let votes := (row n.receivedVotes n.view).insert v.getVoter v
      let n := { n with receivedVotes := n.receivedVotes.insert n.view votes }
      match repSumInCert (row n.reputationMap n.view) votes sums.pool with
      | none => none
      | some sum =>
        -- the second comparison sums the reputations again
        if sum < getCertBenchMark (row n.reputationMap n.view) sums.first ∨
            sum = getCertBenchMark (row n.reputationMap n.view) sums.second then some (n,.none)
        else
          let bcert := newCert (poolVotes votes order) (p.toHash data.blockHash) data.view
          let n := { n with isCertified := n.isCertified.insert n.view true }
          some (n,⟨[.addCert bcert n.view],[],[]⟩)

def voteHandler (p : Platform) (cfg : NodeConfig) (n : SyncHS) (v : ProtoVote) (order : List Nat)
    (sums : SumOrders) : Outcome :=
  match v.data with
  | none => none
  | some data =>
    if data.owner ≠ n.leader then some (n,⟨[.sendMalivoteEvidence v],[],[]⟩)
    else if ¬p.copies data.blockHash then none
    else
      let n := n.openPool n.view
      if v.getVoter ∈ row n.receivedVotes n.view then some (n,.none)
      else if v.getVoter = cfg.id then countVote p n v data order sums
      else match isVoteValid p cfg v with
        | none => none
        | some false => some (n,.none)
        | some true => countVote p n v data order sums

def certWeight (p : Platform) (cfg : NodeConfig) (reputations : Map Nat ℚ) (bc : BlockCertificate) :
    List Nat → ℚ → Option (Option ℚ)
  | [], sum => some (some sum)
  | id :: rest, sum =>
    match bc.getSignatureFromID id with
    | none => some none
    | some sig =>
      match getPubKeyFromID cfg id with
      | none => none
      | some key =>
        if p.verify key bc.part.data sig = none then some none
        else match reputations.lookup id with
          | none => none
          | some reputation => certWeight p cfg reputations bc rest
              (BigFloat.round floatPrec (sum + BigFloat.round floatPrec reputation))

/-- The benchmark is computed once, before the loop over the signers. -/
def isCertValid (p : Platform) (cfg : NodeConfig) (n : SyncHS) (bc : BlockCertificate) (sums : SumOrders) :
    Option Bool :=
  if ¬p.copies bc.data.blockHash then none
  else if (bc.getBlockInfo p).1 = emptyHash then some true
  else match n.bc.blocksByHash.lookup (bc.getBlockInfo p).1 with
    | none => none
    | some blk =>
      if blk.getExtra.length = 1 then some true
      else
        let benchmark := getCertBenchMark (row n.reputationMap (n.view - 1)) sums.first
        match certWeight p cfg (row n.reputationMap (n.view - 1)) bc bc.getSigners 0 with
        | none => none
        | some none => some false
        | some (some sum) => some (decide (¬(sum < benchmark ∨ sum = benchmark)))

def checkProposal (p : Platform) (cfg : NodeConfig) (n : SyncHS) (ep : ExtProposal) (sums : SumOrders) :
    Option Bool :=
  if ¬ep.extBlock.Hashes then none
  else if p.toHash ((ep.proposal.block.map ProtoBlock.blockHash).getD []) ≠ ep.extBlock.getBlockHash p then
    some false
  else match getPubKeyFromID cfg n.leader with
    | none => none
    | some key =>
      if p.accepts key (marshalHeader ep.proposal.getHeader) ep.proposal.miningProof then
        isCertValid p cfg n ep.blockCertificate sums
      else some false

def forward (p : Platform) (cfg : NodeConfig) (n : SyncHS) (prop : Proposal) (sums : SumOrders) : Outcome :=
  match ExtProposal.fromProto p prop with
  | none => none
  | some ep =>
    match checkProposal p cfg n ep sums with
    | none => none
    | some false => some (n,.none)
    | some true =>
      some (n,⟨[.proposeChannel (signForward p cfg prop)],
        [.broadcast (.prop (signForward p cfg prop))],[]⟩)

def checkForward (p : Platform) (cfg : NodeConfig) (n : SyncHS) (ep : ExtProposal) (sums : SumOrders) :
    Option Bool :=
  match checkProposal p cfg n ep sums with
  | none => none
  | some false => some false
  | some true =>
    (getPubKeyFromID cfg ep.proposal.forwardSender).map fun key =>
      p.accepts key (marshalHeader ep.proposal.getHeader) ep.proposal.forwardSig

def forwardProposalHandler (p : Platform) (cfg : NodeConfig) (n : SyncHS) (fprop : Proposal)
    (sums : SumOrders) : Outcome :=
  if n.equivocatingProposalInject then some (n,.none)
  else match ExtProposal.fromProto p fprop with
    | none => none
    | some ep =>
      match checkForward p cfg n ep sums with
      | none => none
      | some false => some (n,.none)
      | some true => compareForward p cfg n ep

/-- The functions that add reputations round; the others are as before. -/
def runJob (p : Platform) (cfg : NodeConfig) (n : SyncHS) (order : List Nat) (sums : SumOrders) (job : Job) :
    Outcome :=
  match job with
  | .forward prop => forward p cfg n prop sums
  | .proposeChannel prop => forwardProposalHandler p cfg n prop sums
  | .voteChannel v => voteHandler p cfg n v order sums
  | job => ReputationSMR.runJob p cfg n order job

def step (p : Platform) (cfg : NodeConfig) (node : Node) (e : NodeEvent) (sums : SumOrders) :
    Option (Node × List Outgoing) :=
  match e with
  | .work index order =>
    match node.pending[index]? with
    | none => none
    | some job => node.apply (node.pending.eraseIdx index) (runJob p cfg node.state order sums job)
  | e => node.step p cfg e

end Rounded

/-- The node with rounded sums; every event chooses its orders. -/
def roundedMachine (p : Platform) (cfg : NodeConfig) : Guarded.Machine Node (NodeEvent × Rounded.SumOrders) :=
  ⟨fun node e => node.enabled cfg e.1,fun node e => (Rounded.step p cfg node e.1 e.2).map Prod.fst⟩

instance (p : Platform) (cfg : NodeConfig) (node : Node) (e : NodeEvent × Rounded.SumOrders) :
    Decidable ((roundedMachine p cfg).enabled node e) :=
  inferInstanceAs (Decidable (node.enabled cfg e.1))

/-! ## Where rounding does not matter -/

/-- The reputation behind `k` signers and half of the total differ by more than the roundings of both. -/
def Clear (reputations : Map Nat ℚ) (weight : ℚ) (k : Nat) : Prop :=
  BigFloat.Apart floatPrec (1 + k) (1 + size reputations + 1) weight (total reputations * (1 / 2))

instance (reputations : Map Nat ℚ) (weight : ℚ) (k : Nat) : Decidable (Clear reputations weight k) :=
  inferInstanceAs (Decidable (BigFloat.Apart _ _ _ _ _))

/-- If the signers of the certificate are weighed, the result is clear. -/
def ClearCert (p : Platform) (n : SyncHS) (bc : BlockCertificate) : Prop :=
  (bc.getBlockInfo p).1 = emptyHash ∨
    (∀ blk ∈ n.bc.blocksByHash.lookup (bc.getBlockInfo p).1, blk.getExtra.length = 1) ∨
    Clear (row n.reputationMap (n.view - 1)) (reputationsOf (row n.reputationMap (n.view - 1)) bc.getSigners).sum
      bc.getSigners.length

instance (p : Platform) (n : SyncHS) (bc : BlockCertificate) : Decidable (ClearCert p n bc) :=
  inferInstanceAs (Decidable (_ ∨ _ ∨ _))

/-- If the vote is added to a pool that is weighed, the result is clear. -/
def ClearVote (n : SyncHS) (v : ProtoVote) : Prop :=
  v.getVoter ∈ n.pool n.view ∨ (n.openPool n.view).certified n.view ∨
    (∃ i ∈ (n.poolWith v).keys, (row n.reputationMap n.view).lookup i = none) ∨
    Clear (row n.reputationMap n.view) (n.weight (n.poolWith v).keys) (size (n.poolWith v))

instance (n : SyncHS) (v : ProtoVote) : Decidable (ClearVote n v) := inferInstanceAs (Decidable (_ ∨ _ ∨ _ ∨ _))

def ClearJob (p : Platform) (n : SyncHS) : Job → Prop
  | .forward prop | .proposeChannel prop => ∀ ep ∈ ExtProposal.fromProto p prop, ClearCert p n ep.blockCertificate
  | .voteChannel v => ClearVote n v
  | _ => True

instance (p : Platform) (n : SyncHS) (job : Job) : Decidable (ClearJob p n job) :=
  match job with
  | .forward _ | .proposeChannel _ => inferInstanceAs (Decidable (∀ ep ∈ _, _))
  | .voteChannel v => inferInstanceAs (Decidable (ClearVote n v))
  | .maliPropseChannel _ | .eqEvidenceChannel _ | .maliProEvidenceChannel _ | .maliVoteEvidenceChannel _ | .round
  | .proposed _ | .vote _ | .addCert _ _ | .sendEqProEvidence _ _ | .sendMalivoteEvidence _ => isTrue trivial

/-- The test that an event makes, if it makes one, is clear. -/
def ClearEvent (p : Platform) (node : Node) : NodeEvent → Prop
  | .work index _ => ∀ job ∈ node.pending[index]?, ClearJob p node.state job
  | _ => True

instance (p : Platform) (node : Node) (e : NodeEvent) : Decidable (ClearEvent p node e) :=
  match e with
  | .work _ _ => inferInstanceAs (Decidable (∀ job ∈ _, _))
  | .connect | .command _ | .receive _ | .callback => isTrue trivial

section Sums

variable {p : Platform} {cfg : NodeConfig} {reputations : Map Nat ℚ}

theorem sum_traversal {γ : Type} (m : Map Nat γ) (order : List Nat) :
    (reputationsOf reputations (traversal m order)).sum = sumAt reputations m.keys := by
  obtain ⟨nodup,all⟩ := traversal_enumerates m order
  rw [reputationsOf, sumAt, ← all, List.sum_toFinset _ nodup]

theorem reputationsOf_length {γ : Type} (m : Map Nat γ) (order : List Nat) :
    (reputationsOf reputations (traversal m order)).length = size m := by
  obtain ⟨nodup,all⟩ := traversal_enumerates m order
  rw [reputationsOf, List.length_map, size, ← all, List.toFinset_card_of_nodup nodup]

variable (positive : ∀ i x, reputations.lookup i = some x → 0 < x)

include positive

theorem reputationsOf_nonneg (ids : List Nat) : ∀ x ∈ reputationsOf reputations ids, 0 ≤ x := by
  intro x member
  obtain ⟨i,_,rfl⟩ := List.mem_map.mp member
  cases entry : reputations.lookup i with
  | none => exact le_rfl
  | some x => exact (positive i x entry).le

theorem sumAt_nonneg {γ : Type} (m : Map Nat γ) : 0 ≤ sumAt reputations m.keys := by
  rw [← sum_traversal m []]
  exact List.sum_nonneg (reputationsOf_nonneg positive _)

theorem pool_within {γ : Type} (m : Map Nat γ) (order : List Nat) :
    BigFloat.Within floatPrec (1 + size m) (sumAt reputations m.keys)
      (BigFloat.accumulate floatPrec 0 (reputationsOf reputations (traversal m order))) := by
  have within := BigFloat.sum_within floatPrec (reputationsOf_nonneg positive (traversal m order))
  rwa [sum_traversal, reputationsOf_length] at within

theorem benchmark_within (order : List Nat) :
    BigFloat.Within floatPrec (1 + size reputations + 1) (total reputations * (1 / 2))
      (Rounded.getCertBenchMark reputations order) := by
  have halved := (pool_within positive reputations order).scale (show (0 : ℚ) ≤ 1 / 2 by norm_num)
  exact halved.trans (BigFloat.within_round (halved.nonneg (mul_nonneg (sumAt_nonneg positive _) (by norm_num))))

theorem Clear.compares {weight sum : ℚ} {k : Nat} (clear : Clear reputations weight k) (nonneg : 0 ≤ weight)
    (within : BigFloat.Within floatPrec (1 + k) weight sum) (first second : List Nat) :
    (sum < Rounded.getCertBenchMark reputations first ∨ sum = Rounded.getCertBenchMark reputations second) ↔
      weight ≤ total reputations * (1 / 2) := by
  have half : 0 ≤ total reputations * (1 / 2) := mul_nonneg (sumAt_nonneg positive _) (by norm_num)
  have below := (BigFloat.Apart.le_iff clear within (benchmark_within positive first)).2 nonneg half
  have apart := (BigFloat.Apart.le_iff clear within (benchmark_within positive second)).1
  rw [below]
  refine or_iff_left fun same => ?_
  rcases apart with less | greater
  · exact less.ne same
  · exact greater.ne' same

end Sums

/-- While all reputations are equal, a pool is clear unless it holds exactly half of the nodes. -/
theorem equal_reputations_clear {γ : Type} {reputations : Map Nat ℚ} {reputation : ℚ} (nonzero : 0 < reputation)
    (equal : ∀ i ∈ reputations.keys, reputations.lookup i = some reputation) (few : size reputations ≤ 2 ^ 20)
    {votes : Map Nat γ} (known : votes.keys ⊆ reputations.keys) (notHalf : 2 * size votes ≠ size reputations) :
    Clear reputations (sumAt reputations votes.keys) (size votes) := by
  have weigh {keys : Finset Nat} (within : keys ⊆ reputations.keys) : sumAt reputations keys = keys.card * reputation := by
    rw [sumAt, Finset.sum_congr rfl fun i member => by rw [equal i (within member), Option.getD_some],
      Finset.sum_const, nsmul_eq_mul]
  rw [Clear, total, weigh known, weigh subset_rfl]
  refine BigFloat.copies_apart nonzero (Finset.card_le_card known) notHalf ?_
  have nodes : (size reputations : ℚ) ≤ 2 ^ 20 := by exact_mod_cast few
  have error : (size reputations + 2 : Nat) * BigFloat.unit floatPrec ≤ 1 / 2 ^ 32 := by
    have most : ((size reputations + 2 : Nat) : ℚ) ≤ 2 ^ 21 := by
      exact_mod_cast (show size reputations + 2 ≤ 2 ^ 21 by omega)
    calc (size reputations + 2 : Nat) * BigFloat.unit floatPrec ≤ 2 ^ 21 * BigFloat.unit floatPrec :=
          mul_le_mul_of_nonneg_right most (BigFloat.unit_pos floatPrec).le
      _ = 1 / 2 ^ 32 := by norm_num [BigFloat.unit,floatPrec]
  calc (size reputations : ℚ) * ((size reputations + 2 : Nat) * BigFloat.unit floatPrec) ≤ 2 ^ 20 * (1 / 2 ^ 32) :=
        mul_le_mul nodes error (mul_nonneg (Nat.cast_nonneg _) (BigFloat.unit_pos floatPrec).le) (by norm_num)
    _ < 1 / 4 := by norm_num

/-! ## One step -/

section Steps

variable {p : Platform} {cfg : NodeConfig} {n : SyncHS}

theorem SyncHS.PositiveReputations.row (positive : n.PositiveReputations) (view : Nat) :
    ∀ i x, (FiniteMap.row n.reputationMap view).lookup i = some x → 0 < x := by
  intro i x entry
  exact positive view i x (by rwa [at2_eq_row])

theorem certWeight_rounds (p : Platform) (cfg : NodeConfig) (reputations : Map Nat ℚ) (bc : BlockCertificate)
    (ids : List Nat) (exact sum : ℚ) :
    (certWeight p cfg reputations bc ids exact = none ∧ Rounded.certWeight p cfg reputations bc ids sum = none) ∨
    (certWeight p cfg reputations bc ids exact = some none ∧
      Rounded.certWeight p cfg reputations bc ids sum = some none) ∨
    certWeight p cfg reputations bc ids exact = some (some (exact + (reputationsOf reputations ids).sum)) ∧
      Rounded.certWeight p cfg reputations bc ids sum =
        some (some (BigFloat.accumulate floatPrec sum (reputationsOf reputations ids))) := by
  induction ids generalizing exact sum with
  | nil => exact Or.inr (Or.inr ⟨by simp [certWeight,reputationsOf],rfl⟩)
  | cons id rest ih =>
    rw [certWeight, Rounded.certWeight]
    cases bc.getSignatureFromID id with
    | none => exact Or.inr (Or.inl ⟨rfl,rfl⟩)
    | some sig =>
      cases getPubKeyFromID cfg id with
      | none => exact Or.inl ⟨rfl,rfl⟩
      | some key =>
        dsimp only
        by_cases error : p.verify key bc.part.data sig = none
        · rw [if_pos error, if_pos error]
          exact Or.inr (Or.inl ⟨rfl,rfl⟩)
        · rw [if_neg error, if_neg error]
          cases entry : reputations.lookup id with
          | none => exact Or.inl ⟨rfl,rfl⟩
          | some reputation =>
            have later := ih (exact + reputation) (BigFloat.round floatPrec (sum + BigFloat.round floatPrec reputation))
            rw [add_assoc] at later
            simpa only [reputationsOf, List.map_cons, entry, Option.getD_some, List.sum_cons, BigFloat.accumulate,
              List.foldl_cons] using later

theorem isCertValid_rounds {bc : BlockCertificate} (positive : n.PositiveReputations) (clear : ClearCert p n bc)
    (sums : Rounded.SumOrders) : Rounded.isCertValid p cfg n bc sums = isCertValid p cfg n bc := by
  rw [Rounded.isCertValid, isCertValid]
  by_cases whole : ¬p.copies bc.data.blockHash
  · rw [if_pos whole, if_pos whole]
  rw [if_neg whole, if_neg whole]
  by_cases genesis : (bc.getBlockInfo p).1 = emptyHash
  · rw [if_pos genesis, if_pos genesis]
  rw [if_neg genesis, if_neg genesis]
  cases found : n.bc.blocksByHash.lookup (bc.getBlockInfo p).1 with
  | none => rfl
  | some blk =>
    by_cases empty : blk.getExtra.length = 1
    · simp only [if_pos empty]
    simp only [if_neg empty]
    have weighed : Clear (row n.reputationMap (n.view - 1))
        (reputationsOf (row n.reputationMap (n.view - 1)) bc.getSigners).sum bc.getSigners.length := by
      refine (clear.resolve_left genesis).resolve_left ?_
      exact fun all => empty (all blk found)
    rcases certWeight_rounds p cfg (row n.reputationMap (n.view - 1)) bc bc.getSigners 0 0 with
      ⟨exact,rounded⟩ | ⟨exact,rounded⟩ | ⟨exact,rounded⟩
    · rw [exact, rounded]
    · rw [exact, rounded]
    · rw [exact, rounded, zero_add]
      have signers := BigFloat.sum_within floatPrec (reputationsOf_nonneg (positive.row (n.view - 1)) bc.getSigners)
      rw [reputationsOf, List.length_map, ← reputationsOf] at signers
      have agree := weighed.compares (positive.row (n.view - 1))
        (List.sum_nonneg (reputationsOf_nonneg (positive.row (n.view - 1)) _)) signers sums.first sums.first
      refine congrArg some (decide_eq_decide.mpr ?_)
      rw [agree, not_le, SyncHS.getCertBenchMark]

theorem checkProposal_rounds {ep : ExtProposal} (positive : n.PositiveReputations)
    (clear : ClearCert p n ep.blockCertificate) (sums : Rounded.SumOrders) :
    Rounded.checkProposal p cfg n ep sums = checkProposal p cfg n ep := by
  rewrite [Rounded.checkProposal, checkProposal, isCertValid_rounds positive clear sums]
  rfl

theorem forward_rounds {prop : Proposal} (positive : n.PositiveReputations) (clear : ClearJob p n (.forward prop))
    (sums : Rounded.SumOrders) : Rounded.forward p cfg n prop sums = forward p cfg n prop := by
  rw [Rounded.forward, forward]
  cases decoded : ExtProposal.fromProto p prop with
  | none => rfl
  | some ep =>
    dsimp only
    rewrite [checkProposal_rounds positive (clear ep decoded) sums]
    rfl

theorem forwardProposalHandler_rounds {prop : Proposal} (positive : n.PositiveReputations)
    (clear : ClearJob p n (.proposeChannel prop)) (sums : Rounded.SumOrders) :
    Rounded.forwardProposalHandler p cfg n prop sums = forwardProposalHandler p cfg n prop := by
  rw [Rounded.forwardProposalHandler, forwardProposalHandler]
  cases decoded : ExtProposal.fromProto p prop with
  | none => rfl
  | some ep =>
    dsimp only
    rewrite [Rounded.checkForward, checkForward, checkProposal_rounds positive (clear ep decoded) sums]
    rfl

theorem countVote_rounds {v : ProtoVote} (data : ProtoVoteData) (order : List Nat) (positive : n.PositiveReputations)
    (clear : n.certified n.view ∨ (∃ i ∈ (n.poolWith v).keys, (row n.reputationMap n.view).lookup i = none) ∨
      Clear (row n.reputationMap n.view) (n.weight (n.poolWith v).keys) (size (n.poolWith v)))
    (sums : Rounded.SumOrders) : Rounded.countVote p n v data order sums = countVote p n v data order := by
  rw [Rounded.countVote, countVote, SyncHS.addVotetoMap]
  cases v.body with
  | none => rfl
  | some body =>
    dsimp only [Option.map_some]
    by_cases certified : n.isCertified.lookup n.view = some true
    · rw [if_pos certified, if_pos certified]
    rw [if_neg certified, if_neg certified, Rounded.repSumInCert, repSumInCert]
    by_cases known : ∀ i ∈ ((row n.receivedVotes n.view).insert v.getVoter v).keys,
        ((row n.reputationMap n.view).lookup i).isSome
    · rw [if_pos known, if_pos known]
      have weighed := (clear.resolve_left certified).resolve_left (by
        rintro ⟨i,member,missing⟩
        have entry := known i member
        rw [missing] at entry
        contradiction)
      have agree := weighed.compares (positive.row n.view) (sumAt_nonneg (positive.row n.view) _)
        (pool_within (positive.row n.view) (n.poolWith v) sums.pool) sums.first sums.second
      exact if_congr agree rfl rfl
    · rw [if_neg known, if_neg known]

theorem voteHandler_rounds {v : ProtoVote} {order : List Nat} (positive : n.PositiveReputations)
    (clear : ClearVote n v) (sums : Rounded.SumOrders) :
    Rounded.voteHandler p cfg n v order sums = voteHandler p cfg n v order := by
  rw [Rounded.voteHandler, voteHandler]
  cases v.data with
  | none => rfl
  | some data =>
    dsimp only
    by_cases foreign : data.owner ≠ n.leader
    · rw [if_pos foreign, if_pos foreign]
    · by_cases whole : ¬p.copies data.blockHash
      · rw [if_neg foreign, if_neg foreign, if_pos whole, if_pos whole]
      rw [if_neg foreign, if_neg foreign, if_neg whole, if_neg whole]
      have opened : (n.openPool n.view).PositiveReputations := by
        rw [SyncHS.PositiveReputations, openPool_reputationMap]
        exact positive
      by_cases known : v.getVoter ∈ row (n.openPool n.view).receivedVotes (n.openPool n.view).view
      · rw [if_pos known, if_pos known]
      have pooled : (n.openPool n.view).poolWith v = n.poolWith v := by
        rw [SyncHS.poolWith, SyncHS.poolWith, openPool_pool, openPool_view]
      have fresh : v.getVoter ∉ n.pool n.view := by
        rwa [← SyncHS.pool, openPool_pool, openPool_view] at known
      have counts := countVote_rounds (p := p) data order opened (by
        rw [pooled, openPool_view, openPool_reputationMap, SyncHS.weight, openPool_view, openPool_reputationMap]
        exact clear.resolve_left fresh) sums
      rewrite [if_neg known, if_neg known, counts]
      rfl

theorem runJob_rounds {job : Job} {order : List Nat} (positive : n.PositiveReputations) (clear : ClearJob p n job)
    (sums : Rounded.SumOrders) : Rounded.runJob p cfg n order sums job = runJob p cfg n order job := by
  cases job with
  | forward prop => exact forward_rounds positive clear sums
  | proposeChannel prop => exact forwardProposalHandler_rounds positive clear sums
  | voteChannel v => exact voteHandler_rounds positive clear sums
  | _ => rfl

/-- The step lemma: a clear event does what it does with exact sums, panics included. -/
theorem step_rounds {node : Node} {e : NodeEvent} (positive : node.state.PositiveReputations)
    (clear : ClearEvent p node e) (sums : Rounded.SumOrders) : Rounded.step p cfg node e sums = node.step p cfg e := by
  cases e with
  | work index order =>
    rw [Rounded.step, Node.step]
    cases found : node.pending[index]? with
    | none => rfl
    | some job => simp only [runJob_rounds positive (clear job found) sums]
  | _ => rfl

end Steps

/-! ## Runs -/

section Runs

variable {p : Platform} {cfg : NodeConfig} {trace : List (NodeEvent × Rounded.SumOrders)} {node : Node}

/-- The run lemma: while every test is clear, a node that rounds is a node that adds exactly, in whatever order
it adds. -/
theorem rounded_runs_are_exact
    (run : ((roundedMachine p cfg).restrict fun node e => ClearEvent p node e.1).Run .init trace node) :
    (nodeMachine p cfg).Run .init (trace.map Prod.fst) node ∧
      ∀ e sums, ClearEvent p node e → Rounded.step p cfg node e sums = node.step p cfg e := by
  have both : (nodeMachine p cfg).Run .init (trace.map Prod.fst) node ∧ node.state.PositiveReputations := by
    refine run.history (I := fun past node =>
      (nodeMachine p cfg).Run .init (past.map Prod.fst) node ∧ node.state.PositiveReputations) ⟨.nil,?_⟩ ?_
    · intro v i x entry
      rw [show at2 Node.init.state.reputationMap v i = none from rfl] at entry
      contradiction
    · intro past node e node' _ ⟨exact,positive⟩ admitted moved
      obtain ⟨⟨next,sends⟩,stepped,rfl⟩ := Option.map_eq_some_iff.mp moved
      rw [step_rounds positive admitted.2 e.2] at stepped
      rw [List.map_append]
      exact ⟨.snoc exact admitted.1 (congrArg (Option.map Prod.fst) stepped),positive.step (node_cases stepped)⟩
  exact ⟨both.1,fun e sums clear => step_rounds both.2 clear sums⟩

end Runs

def voteInFirstView (size i : Nat) : ProtoVote := signVote transparent (.complete size 1 true .plain i) ⟨List.replicate 32 1,1,0⟩

/-- A node gets the votes of the given nodes one after the other and counts each at once. -/
def votesOf (size : Nat) (voters : List Nat) : List (NodeEvent × Rounded.SumOrders) :=
  (.connect,⟨[],[],[]⟩) :: (List.range voters.length).flatMap fun k =>
    [(.receive (.vote (voteInFirstView size (voters.getD k 0))),⟨[],[],[]⟩),
      (.work 0 (voters.take (k + 1)),⟨voters.take (k + 1),List.range size,(List.range size).reverse⟩)]

theorem two_of_three_round_clearly : ∃ node : Node,
    ((roundedMachine transparent (.complete 3 1 true .plain 1)).restrict fun node e => ClearEvent transparent node e.1).Run
      .init (votesOf 3 [0,2]) node ∧
    (nodeMachine transparent (.complete 3 1 true .plain 1)).Run .init ((votesOf 3 [0,2]).map Prod.fst) node ∧
    node.pending.length = 1 := by
  obtain ⟨node,run,certified⟩ : ∃ node : Node,
      ((roundedMachine transparent (.complete 3 1 true .plain 1)).restrict fun node e => ClearEvent transparent node e.1).Run
        .init (votesOf 3 [0,2]) node ∧ node.pending.length = 1 := by
    apply Guarded.Machine.reaches
    decide +kernel
  exact ⟨node,run,(rounded_runs_are_exact run).1,certified⟩

/-- Half of six equal reputations is not clear: rounded, three votes outweigh it, and so do the other three, where
exact sums refuse both. -/
theorem half_of_six_rounds_up : (∀ voters ∈ [[1,2,3],[0,4,5]], ∃ node : Node,
      (roundedMachine transparent (.complete 6 1 true .plain 0)).Run .init (votesOf 6 voters) node ∧ node.pending.length = 1) ∧
    ∀ voters ∈ [[1,2,3],[0,4,5]], ∃ node : Node,
      (nodeMachine transparent (.complete 6 1 true .plain 0)).Run .init ((votesOf 6 voters).map Prod.fst) node ∧
        node.pending.length = 0 := by
  simp only [List.mem_cons, List.not_mem_nil, or_false, forall_eq_or_imp, forall_eq]
  refine ⟨⟨?_,?_⟩,?_,?_⟩ <;> apply Guarded.Machine.reaches <;> decide +kernel

end ReputationSMR

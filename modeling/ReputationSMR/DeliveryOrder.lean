import ReputationSMR.JobCases

/-! The order in which a node handles evidence within a view. A handler looks for the target
that the evidence names and records the miner or voter of the message inside it. Where the
two differ, one piece of evidence can suppress another; the order does not matter exactly
when whatever is suppressed has been recorded anyway. -/
namespace ReputationSMR

open Wire FiniteMap

/-- Evidence that is recorded in `maliproposalMap` or `voteMaliMap`. -/
inductive Misbehaviour where
  | proposal (e : MalicousProposalEvidence)
  | vote (e : MalicousVoteEvidence)

namespace Misbehaviour

def valid (p : Platform) (cfg : NodeConfig) (n : SyncHS) : Misbehaviour → Option Bool
  | proposal e => isMalipEvidenceValid p cfg n e
  | vote e => isMalivEvidenceValid p cfg n e

def handle (p : Platform) (cfg : NodeConfig) (n : SyncHS) : Misbehaviour → Outcome
  | proposal e => maliciousProposalEvidenceHandler p cfg n e
  | vote e => maliciousVoteEvidenceHandler p cfg n e

def target : Misbehaviour → Option Nat
  | proposal e => (e.evidence.bind Evidence.evidenceData).map EvidenceData.misbehaviourTarget
  | vote e => (e.evidence.bind Evidence.evidenceData).map EvidenceData.misbehaviourTarget

/-- The node that is recorded: the miner of the proposal, the voter of the vote. -/
def culprit : Misbehaviour → Option Nat
  | proposal e => e.e.map Proposal.miner
  | vote e => (e.e.bind ProtoVote.body).map ProtoVoteBody.voter

def isVote : Misbehaviour → Bool
  | proposal _ => false
  | vote _ => true

def map (n : SyncHS) : Misbehaviour → BehaviourMap
  | proposal _ => n.maliproposalMap
  | vote _ => n.voteMaliMap

def put (n : SyncHS) (i : Nat) : Misbehaviour → SyncHS
  | proposal _ => { n with maliproposalMap := put2 n.maliproposalMap n.view i 1 }
  | vote _ => { n with voteMaliMap := put2 n.voteMaliMap n.view i 1 }

end Misbehaviour

/-- The state after some evidence, handled in the order of the list; `none` after a panic. -/
def SyncHS.handleEvidence (p : Platform) (cfg : NodeConfig) (n : SyncHS) (ms : List Misbehaviour) :
    Option SyncHS :=
  ms.foldlM (fun n m => (m.handle p cfg n).map Prod.fst) n

/-! ## One handler -/

theorem notMem_row {m : BehaviourMap} {view : Nat} (absent : m.lookup view = none) (i : Nat) : i ∉ row m view := by
  rw [row, absent]
  exact Finmap.notMem_empty

theorem mem_row {m : BehaviourMap} {view : Nat} {inner : Map Nat Nat} (present : m.lookup view = some inner) (i : Nat) :
    i ∈ row m view ↔ i ∈ inner := by
  rw [row, present, Option.getD_some]

theorem mem_row_put2 (m : BehaviourMap) (view i j : Nat) :
    i ∈ row (put2 m view j 1) view ↔ i = j ∨ i ∈ row m view := by
  rw [put2, row_insert, if_pos rfl, Finmap.mem_insert]

theorem put2_comm (m : BehaviourMap) (view i j : Nat) :
    put2 (put2 m view i 1) view j 1 = put2 (put2 m view j 1) view i 1 := by
  by_cases same : i = j
  · rw [same]
  · simp only [put2, row_insert, if_true, Finmap.insert_insert]
    rw [Finmap.insert_insert_of_ne _ same]

/-- The flags that the handlers set and clear while they search are clear. -/
def SyncHS.Searched (n : SyncHS) : Prop := n.maliProspoalExists = false ∧ n.maliVoteExists = false

section Handlers

variable {p : Platform} {cfg : NodeConfig} {n n' : SyncHS}

theorem Misbehaviour.valid_congr (view : n'.view = n.view) (leader : n'.leader = n.leader) (m : Misbehaviour) :
    m.valid p cfg n' = m.valid p cfg n := by
  cases m with
  | proposal e => simp only [valid, isMalipEvidenceValid, isEnvelopeValid, view, leader]
  | vote e => simp only [valid, isMalivEvidenceValid, isEnvelopeValid, view]

theorem maliciousProposalEvidenceHandler_accepts {e : MalicousProposalEvidence} (searched : n.Searched)
    (valid : isMalipEvidenceValid p cfg n e = some true) :
    ∃ t i, (Misbehaviour.proposal e).target = some t ∧ (Misbehaviour.proposal e).culprit = some i ∧
      maliciousProposalEvidenceHandler p cfg n e =
        some (if t ∈ row n.maliproposalMap n.view then n else (Misbehaviour.proposal e).put n i,.none) := by
  have parts := valid
  simp only [isMalipEvidenceValid, Option.bind_eq_bind, Option.bind_eq_some_iff] at parts
  obtain ⟨envelope,sent,data,named,checked⟩ := parts
  split at checked
  next => contradiction
  next =>
    obtain ⟨prop,inside,_⟩ := Option.bind_eq_some_iff.mp (andThen_true checked).2
    refine ⟨data.misbehaviourTarget,prop.miner,by simp [Misbehaviour.target, sent, named],
      by simp [Misbehaviour.culprit, inside],?_⟩
    simp only [maliciousProposalEvidenceHandler, valid, sent, named, inside, Option.bind_eq_bind, Option.bind_some,
      searched.1, Bool.false_eq_true, false_or]
    cases found : n.maliproposalMap.lookup n.view with
    | none =>
      rw [if_neg (notMem_row found _)]
      rfl
    | some senders =>
      rw [← searched.1]
      by_cases seen : data.misbehaviourTarget ∈ senders
      · simp only [if_pos seen, if_pos ((mem_row found _).mpr seen)]
      · simp only [if_neg seen, if_neg (mt (mem_row found _).mp seen)]
        rfl

theorem maliciousVoteEvidenceHandler_accepts {e : MalicousVoteEvidence} (searched : n.Searched)
    (valid : isMalivEvidenceValid p cfg n e = some true) :
    ∃ t i, (Misbehaviour.vote e).target = some t ∧ (Misbehaviour.vote e).culprit = some i ∧
      maliciousVoteEvidenceHandler p cfg n e =
        some (if t ∈ row n.voteMaliMap n.view then n else (Misbehaviour.vote e).put n i,.none) := by
  have parts := valid
  simp only [isMalivEvidenceValid, Option.bind_eq_bind, Option.bind_eq_some_iff] at parts
  obtain ⟨vote,inside,_,_,envelope,sent,data,named,checked⟩ := parts
  obtain ⟨body,shape,_⟩ := Option.bind_eq_some_iff.mp (andThen_true checked).2
  refine ⟨data.misbehaviourTarget,body.voter,by simp [Misbehaviour.target, sent, named],
    by simp [Misbehaviour.culprit, inside, shape],?_⟩
  simp only [maliciousVoteEvidenceHandler, SyncHS.addMaliVotetoMap, valid, sent, named, inside, shape,
    Option.bind_eq_bind, Option.bind_some, Option.map_some, searched.2, Bool.false_eq_true, false_or]
  cases found : n.voteMaliMap.lookup n.view with
  | none =>
    rw [if_neg (notMem_row found _), ← searched.2]
    rfl
  | some voters =>
    rw [← searched.2]
    by_cases seen : data.misbehaviourTarget ∈ voters
    · simp only [if_pos seen, if_pos ((mem_row found _).mpr seen)]
    · simp only [if_neg seen, if_neg (mt (mem_row found _).mp seen)]
      rfl

theorem Misbehaviour.handle_accepts {m : Misbehaviour} (searched : n.Searched) (valid : m.valid p cfg n = some true) :
    ∃ t i, m.target = some t ∧ m.culprit = some i ∧
      m.handle p cfg n = some (if t ∈ row (m.map n) n.view then n else m.put n i,.none) := by
  cases m with
  | proposal e => exact maliciousProposalEvidenceHandler_accepts searched valid
  | vote e => exact maliciousVoteEvidenceHandler_accepts searched valid

theorem Misbehaviour.handle_unless {m : Misbehaviour} (unaccepted : m.valid p cfg n ≠ some true) :
    (m.handle p cfg n).map Prod.fst = (m.valid p cfg n).map fun _ => n := by
  cases m with
  | proposal e =>
    simp only [valid] at unaccepted
    simp only [handle, maliciousProposalEvidenceHandler, valid]
    rcases decided : isMalipEvidenceValid p cfg n e with _ | (_ | _)
    · rfl
    · rfl
    · exact absurd decided unaccepted
  | vote e =>
    simp only [valid] at unaccepted
    simp only [handle, maliciousVoteEvidenceHandler, valid]
    rcases decided : isMalivEvidenceValid p cfg n e with _ | (_ | _)
    · rfl
    · rfl
    · exact absurd decided unaccepted

end Handlers

/-! ## Records -/

namespace Misbehaviour

theorem map_congr {m m' : Misbehaviour} (kind : m.isVote = m'.isVote) (n : SyncHS) : m.map n = m'.map n := by
  cases m <;> cases m' <;> first | rfl | contradiction

theorem map_put (m : Misbehaviour) (n : SyncHS) (i : Nat) : m.map (m.put n i) = put2 (m.map n) n.view i 1 := by
  cases m <;> rfl

theorem map_put_other {m m' : Misbehaviour} (kind : m.isVote ≠ m'.isVote) (n : SyncHS) (i : Nat) :
    m.map (m'.put n i) = m.map n := by
  cases m <;> cases m' <;> first | rfl | exact absurd rfl kind

theorem put_comm (m m' : Misbehaviour) (n : SyncHS) (i j : Nat) : m'.put (m.put n i) j = m.put (m'.put n j) i := by
  cases m <;> cases m' <;> simp only [put, put2_comm _ _ i j]

theorem put_eq_self {m : Misbehaviour} {n : SyncHS} {i : Nat} (recorded : at2 (m.map n) n.view i = some 1) :
    m.put n i = n := by
  cases m <;> simp only [map] at recorded <;> simp only [put, put2_eq_self recorded]

end Misbehaviour

/-! ## Any order -/

section Orders

variable {p : Platform} {cfg : NodeConfig} {n s : SyncHS} {m : Misbehaviour} {M : Misbehaviour → Prop}

/-- The evidence is accepted and its target is not recorded yet. -/
def Misbehaviour.Effective (p : Platform) (cfg : NodeConfig) (n : SyncHS) (m : Misbehaviour) : Prop :=
  m.valid p cfg n = some true ∧ ∀ t ∈ m.target, t ∉ row (m.map n) n.view

instance (p : Platform) (cfg : NodeConfig) (n : SyncHS) (m : Misbehaviour) : Decidable (m.Effective p cfg n) :=
  inferInstanceAs (Decidable (_ ∧ _))

/-- Evidence whose target an earlier one records has the same culprit, or one that was recorded before. -/
def Untangled (p : Platform) (cfg : NodeConfig) (n : SyncHS) (M : Misbehaviour → Prop) : Prop :=
  ∀ a, M a → ∀ b, M b → a.Effective p cfg n → b.Effective p cfg n → a.isVote = b.isVote → b.target = a.culprit →
    b.culprit = a.culprit ∨ ∀ i ∈ b.culprit, at2 (b.map n) n.view i = some 1

/-- What the evidence records in the view, in whatever order it comes. -/
def Misbehaviour.settle (p : Platform) (cfg : NodeConfig) (n s : SyncHS) (m : Misbehaviour) : SyncHS :=
  if m.Effective p cfg n then m.culprit.elim s (m.put s) else s

/-- The states of the view that the handling of evidence from `M` passes through. -/
structure Passes (p : Platform) (cfg : NodeConfig) (n : SyncHS) (M : Misbehaviour → Prop) (s : SyncHS) : Prop where
  searched : s.Searched
  view : s.view = n.view
  leader : s.leader = n.leader
  keeps : ∀ m : Misbehaviour, ∀ i ∈ row (m.map n) n.view, i ∈ row (m.map s) n.view
  records : ∀ (m : Misbehaviour) (i : Nat), at2 (m.map n) n.view i = some 1 → at2 (m.map s) n.view i = some 1
  origin : ∀ m : Misbehaviour, ∀ i ∈ row (m.map s) n.view, i ∈ row (m.map n) n.view ∨
    ∃ a, M a ∧ a.Effective p cfg n ∧ a.isVote = m.isVote ∧ a.culprit = some i ∧ at2 (m.map s) n.view i = some 1

theorem Passes.initial (searched : n.Searched) : Passes p cfg n M n :=
  ⟨searched,rfl,rfl,fun _ _ => id,fun _ _ => id,fun _ _ => Or.inl⟩

theorem Passes.put (passes : Passes p cfg n M s) (member : M m) (effective : m.Effective p cfg n) {i : Nat}
    (culprit : m.culprit = some i) : Passes p cfg n M (m.put s i) := by
  have entry (m' : Misbehaviour) (kind : m'.isVote = m.isVote) (j : Nat) : at2 (m'.map (m.put s i)) n.view j =
      if j = i then some 1 else at2 (m'.map s) n.view j := by
    rw [Misbehaviour.map_congr kind, Misbehaviour.map_congr kind, m.map_put, passes.view, at2_put2]
    exact if_congr (and_iff_right rfl) rfl rfl
  have inside (m' : Misbehaviour) (kind : m'.isVote = m.isVote) (j : Nat) :
      j ∈ row (m'.map (m.put s i)) n.view ↔ j = i ∨ j ∈ row (m'.map s) n.view := by
    rw [Misbehaviour.map_congr kind, Misbehaviour.map_congr kind, m.map_put, passes.view, mem_row_put2]
  refine ⟨by cases m <;> exact passes.searched,by cases m <;> exact passes.view,by cases m <;> exact passes.leader,?_,?_,?_⟩
  · intro m' j old
    by_cases kind : m'.isVote = m.isVote
    · exact (inside m' kind j).mpr (Or.inr (passes.keeps m' j old))
    · rw [Misbehaviour.map_put_other kind]
      exact passes.keeps m' j old
  · intro m' j old
    by_cases kind : m'.isVote = m.isVote
    · rw [entry m' kind]
      split
      next => rfl
      next => exact passes.records m' j old
    · rw [Misbehaviour.map_put_other kind]
      exact passes.records m' j old
  · intro m' j there
    by_cases kind : m'.isVote = m.isVote
    · rw [entry m' kind]
      by_cases same : j = i
      · subst same
        exact Or.inr ⟨m,member,effective,kind.symm,culprit,if_pos rfl⟩
      · rw [if_neg same]
        exact passes.origin m' j (((inside m' kind j).mp there).resolve_left same)
    · rw [Misbehaviour.map_put_other kind] at there ⊢
      exact passes.origin m' j there

theorem Passes.settle (passes : Passes p cfg n M s) (member : M m) : Passes p cfg n M (m.settle p cfg n s) := by
  rw [Misbehaviour.settle]
  split
  next effective =>
    cases culprit : m.culprit with
    | none => exact passes
    | some i => exact passes.put member effective culprit
  next => exact passes

/-- At every point of the view evidence has the effect that it would have had at the start: where it is
suppressed its culprit is recorded. -/
theorem Passes.handle_eq (passes : Passes p cfg n M s) (untangled : Untangled p cfg n M) (member : M m) :
    (m.handle p cfg s).map Prod.fst = (m.valid p cfg n).map fun _ => m.settle p cfg n s := by
  have valid : m.valid p cfg s = m.valid p cfg n := m.valid_congr passes.view passes.leader
  by_cases accepted : m.valid p cfg n = some true
  · obtain ⟨t,i,named,culprit,ran⟩ := Misbehaviour.handle_accepts passes.searched (valid.trans accepted)
    rw [ran, accepted, Option.map_some, Option.map_some, Misbehaviour.settle, passes.view]
    by_cases effective : m.Effective p cfg n
    · rw [if_pos effective, culprit]
      split
      next seen =>
        have fresh := effective.2 t named
        obtain ⟨a,drawn,earlier,kind,recorded,one⟩ := (passes.origin m t seen).resolve_left fresh
        refine congrArg some (Misbehaviour.put_eq_self ?_).symm
        rw [passes.view]
        rcases untangled a drawn m member earlier effective kind (named.trans recorded.symm) with same | before
        · rw [culprit, recorded] at same
          rw [Option.some.inj same]
          exact one
        · exact passes.records m i (before i culprit)
      next => rfl
    · have seen : t ∈ row (m.map n) n.view := by
        by_contra fresh
        refine effective ⟨accepted,fun t' named' => ?_⟩
        rw [named, Option.mem_some_iff] at named'
        exact named' ▸ fresh
      rw [if_neg effective, if_pos (passes.keeps m t seen)]
  · rw [Misbehaviour.handle_unless (valid ▸ accepted), valid]
    have ineffective : ¬m.Effective p cfg n := fun effective => accepted effective.1
    rw [Misbehaviour.settle, if_neg ineffective]

theorem Misbehaviour.settle_comm (m m' : Misbehaviour) :
    m'.settle p cfg n (m.settle p cfg n s) = m.settle p cfg n (m'.settle p cfg n s) := by
  rw [settle, settle, settle, settle]
  split
  next =>
    split
    next =>
      cases m.culprit with
      | none => rfl
      | some i =>
        cases m'.culprit with
        | none => rfl
        | some j => exact put_comm m m' s i j
    next => rfl
  next => rfl

theorem Passes.handle_two (passes : Passes p cfg n M s) (untangled : Untangled p cfg n M) {m' : Misbehaviour}
    (member : M m) (member' : M m') :
    ((m.handle p cfg s).map Prod.fst).bind (fun s => (m'.handle p cfg s).map Prod.fst) =
      (m.valid p cfg n).bind fun _ => (m'.valid p cfg n).map fun _ => m'.settle p cfg n (m.settle p cfg n s) := by
  rw [passes.handle_eq untangled member, Option.bind_map]
  exact Option.bind_congr fun _ _ => (passes.settle member).handle_eq untangled member'

def SyncHS.recordsAfter (p : Platform) (cfg : NodeConfig) (n : SyncHS) (ms : List Misbehaviour) :
    Option (BehaviourMap × BehaviourMap) :=
  (n.handleEvidence p cfg ms).map fun n => (n.maliproposalMap,n.voteMaliMap)

theorem Untangled.any_order (searched : n.Searched) (untangled : Untangled p cfg n M) {ms ms' : List Misbehaviour}
    (drawn : ∀ m ∈ ms, M m) (perm : ms.Perm ms') : n.handleEvidence p cfg ms = n.handleEvidence p cfg ms' := by
  refine Guarded.foldlM_perm (I := Passes p cfg n M) perm ?_ ?_ (.initial searched)
  · intro m member s t passes moved
    rw [passes.handle_eq untangled (drawn m member)] at moved
    obtain ⟨_,_,rfl⟩ := Option.map_eq_some_iff.mp moved
    exact passes.settle (drawn m member)
  · intro m member m' member' s passes
    rw [passes.handle_two untangled (drawn m member) (drawn m' member'),
      passes.handle_two untangled (drawn m' member') (drawn m member), Misbehaviour.settle_comm]
    cases m.valid p cfg n <;> cases m'.valid p cfg n <;> rfl

theorem Misbehaviour.recorded_of_maps {m : Misbehaviour} {n n' : SyncHS}
    (same : (n.maliproposalMap,n.voteMaliMap) = (n'.maliproposalMap,n'.voteMaliMap)) : m.map n = m.map n' := by
  obtain ⟨proposals,votes⟩ := Prod.mk.inj same
  cases m with
  | proposal _ => exact proposals
  | vote _ => exact votes

/-- Of two pieces of evidence the one that comes second is suppressed in one order, and its culprit is
recorded only in the other. -/
theorem Misbehaviour.order_matters {a b : Misbehaviour} (searched : n.Searched) (effective : a.Effective p cfg n)
    (effective' : b.Effective p cfg n) (kind : a.isVote = b.isVote) (suppressed : b.target = a.culprit)
    (agree : n.recordsAfter p cfg [a,b] = n.recordsAfter p cfg [b,a]) :
    b.culprit = a.culprit ∨ ∀ i ∈ b.culprit, at2 (b.map n) n.view i = some 1 := by
  obtain ⟨t,i,named,culprit,ran⟩ := handle_accepts searched effective.1
  obtain ⟨t',j,named',culprit',ran'⟩ := handle_accepts searched effective'.1
  rw [named', culprit, Option.some.injEq] at suppressed
  rw [if_neg (effective.2 t named)] at ran
  rw [if_neg (effective'.2 t' named')] at ran'
  have first : n.handleEvidence p cfg [a,b] = some (a.put n i) := by
    have passes : Passes p cfg n (fun _ => True) (a.put n i) := (Passes.initial searched).put trivial effective culprit
    obtain ⟨t₂,j₂,named₂,_,second⟩ := handle_accepts (m := b) passes.searched
      ((b.valid_congr passes.view passes.leader).trans effective'.1)
    obtain rfl := Option.some.inj (named'.symm.trans named₂)
    have seen : t' ∈ row (b.map (a.put n i)) (a.put n i).view := by
      rw [← map_congr kind, a.map_put, passes.view, mem_row_put2, suppressed]
      exact Or.inl rfl
    rw [if_pos seen] at second
    simp [SyncHS.handleEvidence,ran,second]
  have second : ∃ m, n.handleEvidence p cfg [b,a] = some m ∧ at2 (b.map m) n.view j = some 1 := by
    have passes : Passes p cfg n (fun _ => True) (b.put n j) := (Passes.initial searched).put trivial effective' culprit'
    have recorded : at2 (b.map (b.put n j)) n.view j = some 1 := by
      rw [b.map_put, at2_put2, if_pos ⟨rfl,rfl⟩]
    obtain ⟨t₂,i₂,_,_,last⟩ := handle_accepts (m := a) passes.searched
      ((a.valid_congr passes.view passes.leader).trans effective.1)
    refine ⟨if t₂ ∈ row (a.map (b.put n j)) (b.put n j).view then b.put n j else a.put (b.put n j) i₂,
      by simp [SyncHS.handleEvidence,ran',last],?_⟩
    split
    next => exact recorded
    next =>
      rw [← map_congr kind, a.map_put, passes.view, at2_put2]
      split
      next => rfl
      next => rwa [map_congr kind]
  obtain ⟨m,ran₂,recorded⟩ := second
  rw [SyncHS.recordsAfter, SyncHS.recordsAfter, first, ran₂, Option.map_some, Option.map_some, Option.some.injEq] at agree
  rw [← recorded_of_maps agree, ← map_congr kind, a.map_put, at2_put2, map_congr kind] at recorded
  rw [culprit, culprit']
  split at recorded
  next same => exact Or.inl (congrArg some same.2)
  next =>
    refine Or.inr fun k named => ?_
    rw [Option.mem_some_iff] at named
    exact named ▸ recorded

/-- All finite multisets of evidence drawn from `M` can be handled in any order exactly when no two
pieces of it are tangled: where one names as target the node that the other records, it records that
node too or one that is recorded already. -/
theorem evidence_in_any_order_iff (searched : n.Searched) (M : Misbehaviour → Prop) :
    (∀ ms ms' : List Misbehaviour, (∀ m ∈ ms, M m) → ms.Perm ms' →
      n.recordsAfter p cfg ms = n.recordsAfter p cfg ms') ↔ Untangled p cfg n M := by
  constructor
  · intro agree a drawn b drawn' effective effective' kind suppressed
    refine Misbehaviour.order_matters searched effective effective' kind suppressed (agree [a,b] [b,a] ?_ (.swap b a []))
    intro m member
    rcases List.mem_pair.mp member with rfl | rfl
    · exact drawn
    · exact drawn'
  · intro untangled ms ms' drawn perm
    exact congrArg (Option.map _) (untangled.any_order searched drawn perm)

end Orders

/-! ## Evidence that names one node and records another -/

def nodeOfFour : Nat → NodeConfig := .complete 4 1 true .plain

def proposalEvidence (target miner : Nat) : Misbehaviour :=
  .proposal ⟨some (signEvidence transparent (nodeOfFour 3) ⟨target,1⟩),
    some (newCandidateProposal transparent (nodeOfFour miner) .init [] genesisCert 1 [])⟩

def voteEvidence (target voter : Nat) : Misbehaviour :=
  .vote ⟨some (signEvidence transparent (nodeOfFour 3) ⟨target,1⟩),
    some (signVote transparent (nodeOfFour voter) ⟨emptyHash.bytes,1,voter⟩)⟩

/-- Evidence against two nodes, some of it twice and some of it refused, and some that names others
than it records. -/
def someEvidence : List Misbehaviour :=
  [proposalEvidence 2 2,voteEvidence 3 3,proposalEvidence 0 3,proposalEvidence 1 3,proposalEvidence 2 2,
    proposalEvidence 3 3]

theorem someEvidence_reversed :
    SyncHS.init.recordsAfter transparent (nodeOfFour 1) someEvidence =
      SyncHS.init.recordsAfter transparent (nodeOfFour 1) someEvidence.reverse ∧
    (SyncHS.init.handleEvidence transparent (nodeOfFour 1) someEvidence).map
      (fun n => (at2 n.maliproposalMap 1 2,at2 n.maliproposalMap 1 3,at2 n.voteMaliMap 1 3)) =
        some (some 1,some 1,some 1) := by
  have untangled : Untangled transparent (nodeOfFour 1) .init (· ∈ someEvidence) := by
    have each : ∀ a ∈ someEvidence, ∀ b ∈ someEvidence, a.Effective transparent (nodeOfFour 1) .init →
        b.Effective transparent (nodeOfFour 1) .init → a.isVote = b.isVote → b.target = a.culprit →
        b.culprit = a.culprit ∨ ∀ i ∈ b.culprit, at2 (b.map .init) 1 i = some 1 := by
      decide +kernel
    exact each
  exact ⟨(evidence_in_any_order_iff ⟨rfl,rfl⟩ _).mpr untangled _ _ (fun _ member => member) (List.reverse_perm _).symm,
    by decide +kernel⟩

/-- The first evidence names node two and records node one, the second names node one and
records node three. After the first one the second is taken for a duplicate. -/
theorem evidence_order_matters : SyncHS.init.Searched ∧
    (∀ m ∈ [proposalEvidence 2 1,proposalEvidence 1 3,voteEvidence 2 1,voteEvidence 1 3],
      m.valid transparent (nodeOfFour 1) .init = some true) ∧
    (SyncHS.init.handleEvidence transparent (nodeOfFour 1) [proposalEvidence 2 1,proposalEvidence 1 3]).map
        (fun n => at2 n.maliproposalMap 1 3) ≠
      (SyncHS.init.handleEvidence transparent (nodeOfFour 1) [proposalEvidence 1 3,proposalEvidence 2 1]).map
        (fun n => at2 n.maliproposalMap 1 3) ∧
    (SyncHS.init.handleEvidence transparent (nodeOfFour 1) [voteEvidence 2 1,voteEvidence 1 3]).map
        (fun n => at2 n.voteMaliMap 1 3) ≠
      (SyncHS.init.handleEvidence transparent (nodeOfFour 1) [voteEvidence 1 3,voteEvidence 2 1]).map
        (fun n => at2 n.voteMaliMap 1 3) := by
  refine ⟨⟨rfl,rfl⟩,?_,?_,?_⟩ <;> decide +kernel

end ReputationSMR

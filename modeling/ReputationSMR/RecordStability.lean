import ReputationSMR.CertificateChecks
import ReputationSMR.Transcripts

/-! Records and reputations do not change behind the back of a node. A record of behaviour is
never lost, although three of the six recorders replace the row of the view: within a view
they only ever write the entry of its leader. A row of reputations is written once, before
its view begins, unless a client connects later: a connection resets the row of the view. -/
namespace ReputationSMR

open Wire FiniteMap

/-! ## The six records -/

inductive Behaviour where
  | vote | maliVote | proposal | equiproposal | withproposal | maliproposal
  deriving DecidableEq

def SyncHS.behaviour (n : SyncHS) : Behaviour → BehaviourMap
  | .vote => n.voteMap
  | .maliVote => n.voteMaliMap
  | .proposal => n.proposalMap
  | .equiproposal => n.equiproposalMap
  | .withproposal => n.withproposalMap
  | .maliproposal => n.maliproposalMap

/-- The records whose recorder replaces the row of the view. -/
def Behaviour.ofLeader : Behaviour → Bool
  | .proposal | .equiproposal | .withproposal => true
  | _ => false

def Behaviour.misbehaves : Behaviour → Bool
  | .vote | .proposal => false
  | _ => true

/-- Node `i` is recorded for the behaviour in view `v`. -/
def SyncHS.Recorded (n : SyncHS) (r : Behaviour) (v i : Nat) : Prop := at2 (n.behaviour r) v i = some 1

instance (n : SyncHS) (r : Behaviour) (v i : Nat) : Decidable (n.Recorded r v i) :=
  inferInstanceAs (Decidable (_ = _))

/-- What one step can write into a record. -/
inductive Wrote (n : SyncHS) (r : Behaviour) : BehaviourMap → Prop where
  | nothing : Wrote n r (n.behaviour r)
  | leader : r.ofLeader = true → Wrote n r (SyncHS.recordLeader (n.behaviour r) n.view n.leader)
  | node (i : Nat) : r.ofLeader = false → Wrote n r (put2 (n.behaviour r) n.view i 1)

/-- A step within a view, as far as the records go. -/
structure Records (n n' : SyncHS) : Prop where
  view : n'.view = n.view
  leader : n'.leader = n.leader
  wrote : ∀ r, Wrote n r (n'.behaviour r)

section Jobs

variable {p : Platform} {cfg : NodeConfig} {n n' : SyncHS} {effect : Effect}

theorem Records.same (view : n'.view = n.view) (leader : n'.leader = n.leader)
    (kept : ∀ r, n'.behaviour r = n.behaviour r := by intro r; cases r <;> rfl) : Records n n' :=
  ⟨view,leader,fun r => kept r ▸ .nothing⟩

theorem Records.one (r : Behaviour) (view : n'.view = n.view) (leader : n'.leader = n.leader)
    (wrote : Wrote n r (n'.behaviour r))
    (others : ∀ r', r' ≠ r → n'.behaviour r' = n.behaviour r' := by
      intro r' other
      cases r' <;> first | rfl | contradiction) : Records n n' := by
  refine ⟨view,leader,fun r' => ?_⟩
  by_cases same : r' = r
  · exact same ▸ wrote
  · exact others r' same ▸ .nothing

theorem ForwardStep.records {fprop : Proposal} (step : ForwardStep p cfg n fprop n' effect) : Records n n' := by
  cases step with
  | leads _ _ _ _ _ => exact .one .vote rfl rfl (.node cfg.id rfl)
  | follows _ _ _ _ _ =>
    rw [addForwardedBlock_eq]
    exact .one .proposal rfl rfl (.leader rfl)
  | _ => exact .same rfl rfl

theorem openPool_behaviour (n : SyncHS) (height : Nat) (r : Behaviour) :
    (n.openPool height).behaviour r = n.behaviour r :=
  openPool_unread (fun n => n.behaviour r) n height fun _ _ => by cases r <;> rfl

theorem openPool_leader (n : SyncHS) (height : Nat) : (n.openPool height).leader = n.leader :=
  openPool_unread SyncHS.leader n height fun _ _ => rfl

theorem Wrote.openPool {r : Behaviour} {m : BehaviourMap} (wrote : Wrote (n.openPool n.view) r m) : Wrote n r m := by
  cases wrote with
  | nothing =>
    rw [openPool_behaviour]
    exact .nothing
  | leader kind =>
    rw [openPool_behaviour, openPool_view, openPool_leader]
    exact .leader kind
  | node i kind =>
    rw [openPool_behaviour, openPool_view]
    exact .node i kind

theorem Records.openPool (records : Records (n.openPool n.view) n') : Records n n' :=
  ⟨records.view.trans (openPool_view n n.view),records.leader.trans (openPool_leader n n.view),
    fun r => (records.wrote r).openPool⟩

theorem VoteStep.records {v : ProtoVote} {order : List Nat} (step : VoteStep p cfg n v order n' effect) :
    Records n n' := by
  cases step with
  | foreign d _ _ => exact .same rfl rfl
  | dropped d _ _ _ => exact Records.openPool (.same rfl rfl)
  | counted d n' effect _ counted =>
    refine Records.openPool ?_
    cases counted with
    | late _ | pooled _ _ _ | certifies _ _ _ => exact .one .vote rfl rfl (.node v.getVoter rfl)

theorem RoundCase.records (step : RoundCase p cfg n n' effect) : Records n n' := by
  cases step with
  | withholds _ _ =>
    rw [handleWithholdingProposal]
    split
    next => exact .same rfl rfl
    next => exact .one .withproposal rfl rfl (.leader rfl)
  | _ => exact .same rfl rfl

theorem JobCase.records {order : List Nat} {job : Job} (step : JobCase p cfg n order job n' effect) :
    Records n n' := by
  cases step with
  | read _ _ _ step => exact step.records
  | voteHandled _ _ _ step => exact step.records
  | started _ _ step => exact step.records
  | emptied _ _ _ _ _ => exact .one .equiproposal rfl rfl (.leader rfl)
  | announced _ => exact .one .proposal rfl rfl (.leader rfl)
  | maliProRecorded _ prop _ _ _ =>
    exact .one .maliproposal rfl rfl (.node prop.miner rfl)
  | maliVoteRecorded _ _ body _ _ _ _ =>
    exact .one .maliVote rfl rfl (.node body.voter rfl)
  | voted _ _ | misvoted _ _ _ => exact .one .vote rfl rfl (.node cfg.id rfl)
  | _ => exact .same rfl rfl

end Jobs

/-! ## Nothing is lost -/

/-- In the records of leaders, a view has no entry but that of its leader, and a later view
has none. -/
def SyncHS.LeaderRows (n : SyncHS) : Prop :=
  ∀ r v i x, r.ofLeader = true → at2 (n.behaviour r) v i = some x → v < n.view ∨ v = n.view ∧ i = n.leader

/-- Every record of the first state is one of the second. -/
def Grows (n n' : SyncHS) : Prop := ∀ r v i, n.Recorded r v i → n'.Recorded r v i

section Runs

variable {p : Platform} {cfg : NodeConfig} {n n' : SyncHS}

theorem SyncHS.LeaderRows.step (rows : n.LeaderRows) (records : Records n n') : n'.LeaderRows := by
  intro r v i x shared entry
  rw [records.view, records.leader]
  have wrote := records.wrote r
  generalize n'.behaviour r = m at wrote entry
  cases wrote with
  | nothing => exact rows r v i x shared entry
  | leader _ =>
    rw [at2_recordLeader] at entry
    split at entry
    next => exact rows r v i x shared entry
    next =>
      split at entry
      next here =>
        split at entry
        next leads => exact Or.inr ⟨here,leads⟩
        next => contradiction
      next => exact rows r v i x shared entry
  | node j other => exact absurd shared (by simp [other])

/-- The row that a recorder replaces has no other entry to lose. -/
theorem Records.grows (records : Records n n') (rows : n.LeaderRows) : Grows n n' := by
  intro r v i recorded
  have entry : at2 (n.behaviour r) v i = some 1 := recorded
  change at2 (n'.behaviour r) v i = some 1
  have wrote := records.wrote r
  generalize n'.behaviour r = m at wrote
  cases wrote with
  | nothing => exact entry
  | leader shared =>
    rw [at2_recordLeader]
    split
    next => exact entry
    next absent =>
      split
      next here =>
        rcases rows r v i 1 shared entry with earlier | ⟨_,leads⟩
        · omega
        · rw [if_pos leads]
      next => exact entry
  | node j _ =>
    rw [at2_put2]
    split
    next => rfl
    next => exact entry

theorem NodeCase.grows {node node' : Node} {event : NodeEvent} {sends : List Outgoing}
    (case : NodeCase p cfg node event node' sends) (rows : node.state.LeaderRows) :
    node'.state.LeaderRows ∧ Grows node.state node'.state := by
  have same {n' : SyncHS} (records : Records node.state n') : n'.LeaderRows ∧ Grows node.state n' :=
    ⟨rows.step records,records.grows rows⟩
  cases case with
  | connected => exact same (.same rfl rfl fun r => by cases r <;> rfl)
  | commanded cmd n' jobs case => cases case; exact same (.same rfl rfl fun r => by cases r <;> rfl)
  | received m => exact same (.same rfl rfl fun _ => rfl)
  | worked index order job n' jobs sends found case => exact same case.records
  | calledBack n' acks case =>
    cases case with
    | kept counters _ => exact same (.same rfl rfl fun r => by cases r <;> rfl)
    | advanced b counters _ _ =>
      refine ⟨fun r v i x shared entry => Or.inl ?_,fun r v i recorded => by cases r <;> exact recorded⟩
      have old : at2 (node.state.behaviour r) v i = some x := by cases r <;> exact entry
      change v < node.state.view + 1
      rcases rows r v i x shared old with earlier | ⟨here,_⟩ <;> omega

theorem init_leaderRows : SyncHS.init.LeaderRows := by
  intro r v i x _ entry
  have blank : at2 (SyncHS.init.behaviour r) v i = none := by cases r <;> rfl
  rw [blank] at entry
  contradiction

theorem run_leaderRows {trace : List NodeEvent} {node : Node} (run : (nodeMachine p cfg).Run .init trace node) :
    node.state.LeaderRows := by
  refine run.invariant (I := fun node => node.state.LeaderRows) init_leaderRows ?_
  intro node e node' rows _ moved
  obtain ⟨_,case⟩ := nodeMachine_cases moved
  exact (case.grows rows).1

theorem run_grows {later : List NodeEvent} {a b : Node} (rows : a.state.LeaderRows)
    (run : (nodeMachine p cfg).Run a later b) : Grows a.state b.state := by
  refine (run.invariant (I := fun node => node.state.LeaderRows ∧ Grows a.state node.state)
    ⟨rows,fun _ _ _ recorded => recorded⟩ ?_).2
  rintro node e node' ⟨rows,grows⟩ _ moved
  obtain ⟨_,case⟩ := nodeMachine_cases moved
  obtain ⟨rows',more⟩ := case.grows rows
  exact ⟨rows',fun r v i recorded => more r v i (grows r v i recorded)⟩

end Runs

/-! ## Scores -/

/-- Neither penalty sum overflows, so that the arithmetic of the score is exact. -/
def Counters.Exact (k : Counters) : Prop :=
  k.withpropsoalnum * 10 + k.equiprospoalnum * 10 + k.maliproposalnum * 2 < 2^64 ∧ k.malivotenum * 2 < 2^64

section Scores

variable {p : Platform} {n n' : SyncHS} {i : Nat}

theorem countViews_mono {m m' : BehaviourMap} (grows : ∀ v, at2 m v i = some 1 → at2 m' v i = some 1) :
    countViews m i ≤ countViews m' i := by
  apply Finset.card_le_card
  intro v member
  have recorded := grows v (Finset.mem_filter.mp member).2
  refine Finset.mem_filter.mpr ⟨?_,recorded⟩
  obtain ⟨inner,found,_⟩ := Option.bind_eq_some_iff.mp recorded
  exact (mem_keys_iff _ _).mpr ⟨inner,found⟩

theorem maxValueCheckNum_mono : Monotone maxValueCheckNum := by
  intro a b ordered
  simp only [maxValueCheckNum]
  split <;> split <;> linarith

theorem maxValueCheckScore_mono : Monotone maxValueCheckScore := by
  intro a b ordered
  simp only [maxValueCheckScore]
  split <;> split <;> linarith

/-- The formula rewards votes and proposals and punishes the two penalty sums, through both
clamps. -/
theorem Counters.nodeScore_mono (monotone : Monotone p.tanh) {k k' : Counters}
    (proposals : k.proposalnum ≤ k'.proposalnum) (votes : k.votenum ≤ k'.votenum)
    (misproposals : wrap64 (k'.withpropsoalnum * 10 + k'.equiprospoalnum * 10 + k'.maliproposalnum * 2) ≤
      wrap64 (k.withpropsoalnum * 10 + k.equiprospoalnum * 10 + k.maliproposalnum * 2))
    (misvotes : wrap64 (k'.malivotenum * 2) ≤ wrap64 (k.malivotenum * 2)) : k.nodeScore p ≤ k'.nodeScore p := by
  have difference {a a' b b' : Nat} (more : a ≤ a') (less : b' ≤ b) :
      maxValueCheckNum (a - b : ℚ) ≤ maxValueCheckNum (a' - b' : ℚ) := by
    apply maxValueCheckNum_mono
    have more : (a : ℚ) ≤ a' := by exact_mod_cast more
    have less : (b' : ℚ) ≤ b := by exact_mod_cast less
    linarith
  have proposalscore := difference proposals misproposals
  have votescore := difference votes misvotes
  have scaled := mul_le_mul_of_nonneg_left (add_le_add votescore proposalscore)
    (show (0 : ℚ) ≤ gamma by norm_num [gamma])
  apply maxValueCheckScore_mono
  have := monotone scaled
  linarith

theorem wrap64_eq {a : Nat} (exact : a < 2^64) : wrap64 a = a := Nat.mod_eq_of_lt exact

theorem countViews_same {r : Behaviour} (grows : Grows n n') (gained : ∀ v, n'.Recorded r v i → n.Recorded r v i) :
    countViews (n'.behaviour r) i = countViews (n.behaviour r) i :=
  le_antisymm (countViews_mono gained) (countViews_mono fun v => grows r v i)

theorem score_le_of_innocent (monotone : Monotone p.tanh) (grows : Grows n n')
    (innocent : ∀ r v, r.misbehaves = true → n'.Recorded r v i → n.Recorded r v i) :
    n.score p i ≤ n'.score p i := by
  have same (r : Behaviour) (mis : r.misbehaves = true) : countViews (n'.behaviour r) i = countViews (n.behaviour r) i :=
    countViews_same grows fun v => innocent r v mis
  have withheld : countViews n'.withproposalMap i = countViews n.withproposalMap i := same .withproposal rfl
  have equivocated : countViews n'.equiproposalMap i = countViews n.equiproposalMap i := same .equiproposal rfl
  have intruded : countViews n'.maliproposalMap i = countViews n.maliproposalMap i := same .maliproposal rfl
  have misvoted : countViews n'.voteMaliMap i = countViews n.voteMaliMap i := same .maliVote rfl
  apply Counters.nodeScore_mono monotone
  · exact countViews_mono fun v => grows .proposal v i
  · exact countViews_mono fun v => grows .vote v i
  · simp only [SyncHS.counts, withheld, equivocated, intruded, le_refl]
  · simp only [SyncHS.counts, misvoted, le_refl]

theorem score_le_of_idle (monotone : Monotone p.tanh) (grows : Grows n n') (exact : (n'.counts i).Exact)
    (idle : ∀ r v, r.misbehaves = false → n'.Recorded r v i → n.Recorded r v i) : n'.score p i ≤ n.score p i := by
  have more (r : Behaviour) : countViews (n.behaviour r) i ≤ countViews (n'.behaviour r) i :=
    countViews_mono fun v => grows r v i
  have withheld : countViews n.withproposalMap i ≤ countViews n'.withproposalMap i := more .withproposal
  have equivocated : countViews n.equiproposalMap i ≤ countViews n'.equiproposalMap i := more .equiproposal
  have intruded : countViews n.maliproposalMap i ≤ countViews n'.maliproposalMap i := more .maliproposal
  have misvoted : countViews n.voteMaliMap i ≤ countViews n'.voteMaliMap i := more .maliVote
  obtain ⟨proposals,votes⟩ := exact
  simp only [SyncHS.counts] at proposals votes
  apply Counters.nodeScore_mono monotone
  · exact countViews_mono fun v => idle .proposal v rfl
  · exact countViews_mono fun v => idle .vote v rfl
  · simp only [SyncHS.counts]
    rw [wrap64_eq proposals, wrap64_eq (by omega)]
    omega
  · simp only [SyncHS.counts]
    rw [wrap64_eq votes, wrap64_eq (by omega)]
    omega

end Scores

section Permanence

variable {p : Platform} {cfg : NodeConfig} {earlier later : List NodeEvent} {a b : Node}

/-- Along every run of a node, whatever arrives and however its callbacks end, no record is
lost; so between two points of the run the score of a node falls only if a misbehaviour was
recorded and rises only if a vote or a proposal was. -/
theorem records_are_permanent (monotone : Monotone p.tanh) (before : (nodeMachine p cfg).Run .init earlier a)
    (after : (nodeMachine p cfg).Run a later b) :
    (∀ r v i, a.state.Recorded r v i → b.state.Recorded r v i) ∧
    ∀ i k k', ((∀ r v, r.misbehaves = true → b.state.Recorded r v i → a.state.Recorded r v i) →
        (a.state.reputationCalculateinCurrentRound p i k).1 ≤ (b.state.reputationCalculateinCurrentRound p i k').1) ∧
      ((b.state.counts i).Exact → (∀ r v, r.misbehaves = false → b.state.Recorded r v i → a.state.Recorded r v i) →
        (b.state.reputationCalculateinCurrentRound p i k').1 ≤ (a.state.reputationCalculateinCurrentRound p i k).1) := by
  have grows := run_grows (run_leaderRows before) after
  refine ⟨grows,fun i k k' => ?_⟩
  rw [SyncHS.reputationCalculateinCurrentRound_eq, SyncHS.reputationCalculateinCurrentRound_eq]
  exact ⟨score_le_of_innocent monotone grows,score_le_of_idle monotone grows⟩

end Permanence

/-- The leader of two has the vote of the other node; the callback does not lower its score. -/
theorem records_of_first_round : ∃ a b : Node, a.state.Recorded .vote 1 1 ∧ b.state.view = 2 ∧
    b.state.Recorded .vote 1 1 ∧ (a.state.reputationCalculateinCurrentRound transparent 1 a.state.counters).1 ≤
      (b.state.reputationCalculateinCurrentRound transparent 1 b.state.counters).1 := by
  obtain ⟨a,before,recorded,continues⟩ := Guarded.Machine.reaches
    (fun a : Node => a.state.Recorded .vote 1 1 ∧ ((nodeMachine transparent leaderOfTwo).replay [.callback] a).any
      (fun b => b.state.view = 2 ∧
        ∀ r ∈ [.maliVote,.equiproposal,.withproposal,.maliproposal], b.state.behaviour r = ∅) = true)
    (show ((nodeMachine transparent leaderOfTwo).replay leaderRound .init).any _ = true by decide +kernel)
  obtain ⟨b,after,second,clean⟩ := Guarded.Machine.reaches _ continues
  have innocent (r : Behaviour) (v : Nat) (mis : r.misbehaves = true) (record : b.state.Recorded r v 1) :
      a.state.Recorded r v 1 := by
    have listed : r ∈ [.maliVote,.equiproposal,.withproposal,.maliproposal] := by cases r <;> simp_all [Behaviour.misbehaves]
    rw [SyncHS.Recorded, clean r listed] at record
    contradiction
  obtain ⟨kept,scores⟩ := records_are_permanent (fun _ _ ordered => ordered) before after
  exact ⟨a,b,recorded,second,kept .vote 1 1 recorded,(scores 1 _ _).1 innocent⟩

/-! ## Rows of reputations -/

/-- A client connects only while the row of the view is not there yet or holds nothing but
initial scores. -/
def ConnectsFresh (cfg : NodeConfig) (node : Node) : NodeEvent → Prop
  | .connect => ∀ i ∈ List.range (cfg.pMap.card + 1),
      (at2 node.state.reputationMap node.state.view i).all (· = initialNodescore) = true
  | _ => True

instance (cfg : NodeConfig) (node : Node) (e : NodeEvent) : Decidable (ConnectsFresh cfg node e) :=
  match e with
  | .connect => inferInstanceAs (Decidable (∀ i ∈ List.range (cfg.pMap.card + 1), _))
  | .command _ | .receive _ | .work _ _ | .callback => isTrue trivial

/-- Every row has an entry for each node. -/
def FullRows (cfg : NodeConfig) (m : Map Nat (Map Nat ℚ)) : Prop :=
  ∀ u scores, m.lookup u = some scores → ∀ i ∈ List.range (cfg.pMap.card + 1), i ∈ scores

/-- The rows up to a view are the same in the second map. -/
def KeepsRows (view : Nat) (m m' : Map Nat (Map Nat ℚ)) : Prop :=
  ∀ u ≤ view, ∀ scores, m.lookup u = some scores → m'.lookup u = some scores

section Rows

variable {p : Platform} {cfg : NodeConfig} {m : Map Nat (Map Nat ℚ)}

theorem FullRows.insert_fill (full : FullRows cfg m) (view : Nat) (f : Nat → ℚ) (scores : Map Nat ℚ) :
    FullRows cfg (m.insert view (fill f (List.range (cfg.pMap.card + 1)) scores)) := by
  intro u row found i member
  rw [lookup_insert] at found
  split at found
  next =>
    obtain rfl := Option.some.inj found
    rw [Finmap.mem_iff]
    exact ⟨f i,by rw [lookup_fill, if_pos member]⟩
  next => exact full u row found i member

theorem fill_same {f : Nat → ℚ} {ids : List Nat} {scores : Map Nat ℚ}
    (same : ∀ i ∈ ids, scores.lookup i = some (f i)) : fill f ids scores = scores := by
  apply Finmap.ext_lookup
  intro i
  rw [lookup_fill]
  split
  next member => exact (same i member).symm
  next => rfl

theorem connect_keeps {node : Node} (full : FullRows cfg node.state.reputationMap)
    (fresh : ConnectsFresh cfg node .connect) (view : Nat) :
    KeepsRows view node.state.reputationMap (clientConnects cfg node.state).reputationMap := by
  intro u _ scores found
  rw [clientConnects, initialReputationMap_eq, lookup_insert]
  split
  next here =>
    subst here
    rw [row, found, Option.getD_some, fill_same]
    intro i member
    obtain ⟨x,entry⟩ := Finmap.mem_iff.mp (full _ _ found i member)
    have initial := fresh i member
    simp only [at2, found, Option.bind_some, entry, Option.all_some, decide_eq_true_eq] at initial
    rw [entry, initial]
  next => exact found

theorem CallbackStep.rows {n n' : SyncHS} {effect : Effect} (step : CallbackStep p cfg n n' effect) :
    n'.reputationMap = n.reputationMap.insert (n.view + 1) (newRow p cfg n) ∧ n.view ≤ n'.view := by
  cases step with
  | kept counters _ => exact ⟨rfl,le_refl _⟩
  | advanced b counters _ _ => exact ⟨rfl,Nat.le_succ _⟩

theorem NodeCase.keepsRows {node node' : Node} {event : NodeEvent} {sends : List Outgoing}
    (case : NodeCase p cfg node event node' sends) (full : FullRows cfg node.state.reputationMap)
    (fresh : ConnectsFresh cfg node event) :
    FullRows cfg node'.state.reputationMap ∧ node.state.view ≤ node'.state.view ∧
      KeepsRows node.state.view node.state.reputationMap node'.state.reputationMap := by
  have same {n' : SyncHS} (within : Within node.state n') : FullRows cfg n'.reputationMap ∧
      node.state.view ≤ n'.view ∧ KeepsRows node.state.view node.state.reputationMap n'.reputationMap := by
    rw [within.reputations, within.view]
    exact ⟨full,le_refl _,fun _ _ _ found => found⟩
  cases case with
  | connected =>
    refine ⟨?_,le_refl _,connect_keeps full fresh _⟩
    rw [clientConnects, initialReputationMap_eq]
    exact full.insert_fill _ _ _
  | commanded cmd n' jobs case => cases case; exact same ⟨rfl,rfl,fun _ _ => rfl⟩
  | received m => exact same (.same _)
  | worked index order job n' jobs sends found case => exact same case.within
  | calledBack n' acks case =>
    obtain ⟨rows,later⟩ := case.rows
    refine ⟨?_,later,?_⟩
    · rw [rows]
      exact full.insert_fill _ _ _
    · intro u earlier scores found
      rw [rows, lookup_insert, if_neg]
      · exact found
      · change ¬u = node.state.view + 1
        omega

variable {earlier later : List NodeEvent} {a b : Node}

/-- In every run in which clients connect only over initial scores, the rows of reputations
up to the view of a node stay as they are, also across rounds without a certificate. -/
theorem reputations_are_stable (before : ((nodeMachine p cfg).restrict (ConnectsFresh cfg)).Run .init earlier a)
    (after : ((nodeMachine p cfg).restrict (ConnectsFresh cfg)).Run a later b) :
    ∀ u ≤ a.state.view, ∀ scores, a.state.reputationMap.lookup u = some scores →
      b.state.reputationMap.lookup u = some scores := by
  have full : FullRows cfg a.state.reputationMap := by
    refine before.invariant (I := fun node => FullRows cfg node.state.reputationMap) ?_ ?_
    · intro u scores found
      have blank : Node.init.state.reputationMap.lookup u = none := rfl
      rw [blank] at found
      contradiction
    · intro node e node' full admitted moved
      obtain ⟨_,case⟩ := nodeMachine_cases moved
      exact (case.keepsRows full admitted.2).1
  refine (after.invariant (I := fun node => FullRows cfg node.state.reputationMap ∧ a.state.view ≤ node.state.view ∧
    KeepsRows a.state.view a.state.reputationMap node.state.reputationMap)
    ⟨full,le_refl _,fun _ _ _ found => found⟩ ?_).2.2
  rintro node e node' ⟨full,reached,kept⟩ admitted moved
  obtain ⟨_,case⟩ := nodeMachine_cases moved
  obtain ⟨full',further,keeps⟩ := case.keepsRows full admitted.2
  exact ⟨full',by omega,fun u bound scores found => keeps u (by omega) scores (kept u bound scores found)⟩

end Rows

/-- A second client connects before the first round ends. -/
theorem first_row_is_stable : ∃ a b : Node, b.state.view = 2 ∧ at2 a.state.reputationMap 1 0 = some initialNodescore ∧
    ∀ u ≤ a.state.view, ∀ scores, a.state.reputationMap.lookup u = some scores →
      b.state.reputationMap.lookup u = some scores := by
  obtain ⟨a,before,initial,continues⟩ := Guarded.Machine.reaches
    (fun a : Node => at2 a.state.reputationMap 1 0 = some initialNodescore ∧
      (((nodeMachine transparent leaderOfTwo).restrict (ConnectsFresh leaderOfTwo)).replay
        (leaderRound ++ [.callback]) a).any (fun b => b.state.view = 2) = true)
    (show (((nodeMachine transparent leaderOfTwo).restrict (ConnectsFresh leaderOfTwo)).replay [.connect] .init).any
      _ = true by decide +kernel)
  obtain ⟨b,after,second⟩ := Guarded.Machine.reaches _ continues
  exact ⟨a,b,second,initial,reputations_are_stable before after⟩

/-- A client that connects in the second view takes away what the first one earned. -/
theorem connection_resets_reputations : ∃ a b : Node,
    (nodeMachine transparent leaderOfTwo).Run .init (leaderRound ++ [.callback]) a ∧ a.state.view = 2 ∧
    (nodeMachine transparent leaderOfTwo).Run a [.connect] b ∧
    (at2 a.state.reputationMap 2 0).any (initialNodescore < ·) = true ∧
    at2 b.state.reputationMap 2 0 = some initialNodescore := by
  obtain ⟨a,before,second,earned,continues⟩ := Guarded.Machine.reaches
    (fun a : Node => a.state.view = 2 ∧ (at2 a.state.reputationMap 2 0).any (initialNodescore < ·) = true ∧
      ((nodeMachine transparent leaderOfTwo).replay [.connect] a).any
        (fun b => at2 b.state.reputationMap 2 0 = some initialNodescore) = true)
    (show ((nodeMachine transparent leaderOfTwo).replay (leaderRound ++ [.callback]) .init).any _ = true by
      decide +kernel)
  obtain ⟨b,after,reset⟩ := Guarded.Machine.reaches _ continues
  exact ⟨a,b,before,second,after,earned,reset⟩

end ReputationSMR

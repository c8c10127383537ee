import Mathlib.Data.Int.CardIntervalMod
import ReputationSMR.ForwardsOnce
import ReputationSMR.ReputationFormula

/-! What reputation the nodes earn when nobody is faulty. Without faults the records of a view
depend on its leader only: everybody has voted and the leader has proposed, or the leader has
withheld its proposal and nobody has voted. The scores that follow have a closed form in the
number of views. -/
namespace ReputationSMR

open Wire FiniteMap

/-! ## Counting turns -/

section Turns

variable {size : Nat}

theorem succ_turn (positive : 0 < size) (v : Nat) :
    (v % size + 1 < size ∧ (v + 1) / size = v / size ∧ (v + 1) % size = v % size + 1) ∨
    (v % size + 1 = size ∧ (v + 1) / size = v / size + 1 ∧ (v + 1) % size = 0) := by
  have split := Nat.mod_add_div v size
  have below := Nat.mod_lt v positive
  by_cases last : v % size + 1 = size
  · refine Or.inr ⟨last,(Nat.div_mod_unique positive).mpr ⟨?_,positive⟩⟩
    rw [Nat.mul_add]
    omega
  · exact Or.inl ⟨by omega,(Nat.div_mod_unique positive).mpr ⟨by omega,by omega⟩⟩

/-- How often a node leads in the first `v` views. -/
def turns (size v i : Nat) : Nat := v / size + if i < v % size then 1 else 0

/-- In how many of the first `v` views the leader is even. -/
def evenTurns (size v : Nat) : Nat := v / size * ((size + 1) / 2) + (v % size + 1) / 2

theorem count_turns {i : Nat} (inside : i < size) (v : Nat) : Nat.count (fun k => k % size = i) v = turns size v i := by
  have positive : 0 < size := by omega
  have counted := Nat.count_modEq_card v positive i
  simp only [Nat.ModEq, Nat.mod_eq_of_lt inside] at counted
  exact counted

theorem count_evenTurns (positive : 0 < size) (v : Nat) :
    Nat.count (fun k => k % size % 2 = 0) v = evenTurns size v := by
  induction v with
  | zero => simp [evenTurns]
  | succ v ih =>
    rw [Nat.count_succ, ih, evenTurns, evenTurns]
    obtain ⟨_,quotient,rest⟩ | ⟨_,quotient,rest⟩ := succ_turn positive v
    · rw [quotient, rest]
      split <;> omega
    · rw [quotient, rest, Nat.add_mul]
      split <;> omega

end Turns

/-! ## The records of a view -/

def Setting.Withholds (z : Setting) (i : Nat) : Prop := z.timerMode = .withhold ∧ i % 2 ≠ 0

instance (z : Setting) : DecidablePred z.Withholds := fun _ => inferInstanceAs (Decidable (_ ∧ _))

/-- One for the leader of the view. -/
def Setting.forLeader (z : Setting) (view : Nat) : Map Nat Nat := (∅ : Map Nat Nat).insert (leaderOf z.size view) 1

/-- What is recorded of a view without faults. -/
def Setting.transcript (z : Setting) (view : Nat) : Transcript :=
  if z.Withholds (leaderOf z.size view) then ⟨none,none,none,none,some (z.forLeader view),none⟩
  else ⟨some (z.forLeader view),some (Round.everyone z),none,none,none,none⟩

def Common.transcript (C : Common) (view : Nat) : Transcript :=
  ⟨C.proposalMap.lookup view,C.voteMap.lookup view,C.voteMaliMap.lookup view,C.equiproposalMap.lookup view,
    C.withproposalMap.lookup view,C.maliproposalMap.lookup view⟩

/-- The views before this one are recorded, and the reputations are the scores. -/
structure Common.Earned (p : Platform) (z : Setting) (C : Common) : Prop where
  records : ∀ u, C.transcript u = if 1 ≤ u ∧ u < C.view then z.transcript u else .blank
  scored : C.view ≠ 1 → ∀ i < z.size, at2 C.reputationMap C.view i = some (C.score p i)

section Views

variable {p : Platform} {z : Setting} {C D : Common}

theorem initial_earned (p : Platform) (z : Setting) : (Common.initial z).Earned p z := by
  refine ⟨fun u => ?_,fun later => absurd rfl later⟩
  exact (if_neg (show ¬(1 ≤ u ∧ u < 1) by omega)).symm

theorem Common.Good.proposes (good : C.Good p z.size) : Proposes z C ↔ ¬z.Withholds (leaderOf z.size C.view) := by
  rw [Proposes, Setting.Withholds, good.turn]

theorem recordLeader_fresh {m : BehaviourMap} {view : Nat} (absent : m.lookup view = none) (leader : Nat) :
    SyncHS.recordLeader m view leader = m.insert view ((∅ : Map Nat Nat).insert leader 1) := by
  rw [SyncHS.recordLeader, if_neg]
  simp [at2,absent]

theorem at2_advance (p : Platform) (C : Common) {size i : Nat} (inside : i < size) :
    at2 (C.advance p size).reputationMap (C.advance p size).view i = some ((C.advance p size).score p i) := by
  refine (at2_insert _ _ _ _ _).trans ((if_pos rfl).trans ?_)
  rw [Common.lookup_newRow, if_pos inside]
  rfl

theorem Common.Earned.follows (good : C.Good p z.size) (earned : C.Earned p z) (follows : Follows p z C D) :
    D.Earned p z := by
  have positive : 1 ≤ C.view := good.head ▸ Nat.le_add_left 1 _
  -- the other views are recorded as before, so only the row of this view is of interest
  have extends_ {D : Common} (view : D.view = C.view) (own : D.transcript C.view = z.transcript C.view)
      (other : ∀ u, u ≠ C.view → D.transcript u = C.transcript u) : (D.advance p z.size).Earned p z := by
    refine ⟨fun u => ?_,fun _ i inside => at2_advance p D inside⟩
    have next : (D.advance p z.size).view = C.view + 1 := congrArg (· + 1) view
    change D.transcript u = _
    rw [next]
    by_cases here : u = C.view
    · subst here
      rw [own, if_pos ⟨positive,Nat.lt_succ_self _⟩]
    · rw [other u here, earned.records]
      exact if_congr (by omega) rfl rfl
  have blank : C.transcript C.view = .blank := by
    rw [earned.records, if_neg (by omega)]
  simp only [Common.transcript, Transcript.blank, Transcript.mk.injEq] at blank
  obtain ⟨proposals,votes,maliciousVotes,equivocations,withholdings,maliciousProposals⟩ := blank
  cases follows with
  | proposed R common proposes =>
    subst common
    refine extends_ rfl ?_ ?_
    · rw [Setting.transcript, if_neg (good.proposes.mp proposes), Setting.forLeader, good.turn]
      simp only [Common.transcript, Round.ended, Round.recorded, recordLeader_fresh proposals, lookup_insert, if_true,
        maliciousVotes, equivocations, withholdings, maliciousProposals]
    · intro u other
      simp only [Common.transcript, Round.ended, Round.recorded, recordLeader_other _ _ _ other, lookup_insert,
        if_neg other]
  | withheld withholds =>
    refine extends_ rfl ?_ ?_
    · rw [Setting.transcript, if_pos (not_not.mp (mt good.proposes.mpr withholds)), Setting.forLeader, good.turn]
      simp only [Common.transcript, Common.withheld, recordLeader_fresh withholdings, lookup_insert, if_true,
        proposals, votes, maliciousVotes, equivocations, maliciousProposals]
    · intro u other
      simp only [Common.transcript, Common.withheld, recordLeader_other _ _ _ other]

/-! ## The scores -/

theorem countViews_eq_count {m : BehaviourMap} {i v : Nat} {P : Nat → Prop} [DecidablePred P]
    (rows : ∀ u, at2 m u i = some 1 ↔ ∃ k < v, k + 1 = u ∧ P k) : countViews m i = Nat.count P v := by
  have image : m.keys.filter (fun u => at2 m u i = some 1) = ((Finset.range v).filter P).image Nat.succ := by
    ext u
    rw [Finset.mem_filter, Finset.mem_image, rows]
    constructor
    · rintro ⟨_,k,inside,same,holds⟩
      exact ⟨k,Finset.mem_filter.mpr ⟨Finset.mem_range.mpr inside,holds⟩,same⟩
    · rintro ⟨k,member,same⟩
      obtain ⟨inside,holds⟩ := Finset.mem_filter.mp member
      have recorded := (rows u).mpr ⟨k,Finset.mem_range.mp inside,same,holds⟩
      obtain ⟨inner,found,_⟩ := Option.bind_eq_some_iff.mp recorded
      exact ⟨(mem_keys_iff m u).mpr ⟨inner,found⟩,k,Finset.mem_range.mp inside,same,holds⟩
  rw [countViews, image, Finset.card_image_of_injective _ Nat.succ_injective, ← Nat.count_eq_card_filter_range]

/-- The views among the first `v` that end with a block of their leader. -/
def Setting.rounds (z : Setting) (v : Nat) : Nat := if z.timerMode = .withhold then evenTurns z.size v else v

/-- What a node has to its credit after `v` views: its votes, and its own proposals. -/
def Setting.credit (z : Setting) (v i : Nat) : Nat := z.rounds v + if z.Withholds i then 0 else turns z.size v i

-- Ten views of four nodes, with leaders 0, 1, 2, 3, 0, ...: five of them end with a block.
example : Setting.credit ⟨4,1,false,.withhold⟩ 10 0 = 8 ∧ Setting.credit ⟨4,1,false,.withhold⟩ 10 1 = 5 := by decide

theorem forLeader_lookup (z : Setting) (view i : Nat) :
    (z.forLeader view).lookup i = some 1 ↔ leaderOf z.size view = i := by
  rw [Setting.forLeader, lookup_insert]
  split
  next same => simp [same]
  next other => simpa using Ne.symm other

theorem leaderOf_add_one (size k : Nat) : leaderOf size (k + 1) = k % size := by
  rw [leaderOf, Nat.add_sub_cancel]

section Counts

variable {v i : Nat} (earned : C.Earned p z) (view : C.view = v + 1)
include earned view

theorem Common.Earned.rows {m : BehaviourMap} (get : Transcript → Option (Map Nat Nat))
    (reads : ∀ u, m.lookup u = get (C.transcript u)) (blank : get .blank = none) {P : Nat → Prop} [DecidablePred P]
    (each : ∀ k, (get (z.transcript (k + 1))).bind (·.lookup i) = some 1 ↔ P k) : countViews m i = Nat.count P v := by
  refine countViews_eq_count fun u => ?_
  rw [at2, reads, earned.records]
  by_cases past : 1 ≤ u ∧ u < C.view
  · obtain ⟨k,rfl⟩ : ∃ k, u = k + 1 := ⟨u - 1,by omega⟩
    rw [if_pos past, each]
    constructor
    · exact fun holds => ⟨k,by omega,rfl,holds⟩
    · rintro ⟨k',_,same,holds⟩
      exact Nat.succ_injective same ▸ holds
  · rw [if_neg past, blank]
    constructor
    · exact fun impossible => absurd impossible (by simp)
    · rintro ⟨k,inside,rfl,_⟩
      omega

theorem Common.Earned.proposals :
    countViews C.proposalMap i = Nat.count (fun k => ¬z.Withholds i ∧ k % z.size = i) v := by
  refine earned.rows view Transcript.proposals (fun _ => rfl) rfl fun k => ?_
  simp only [Setting.transcript, leaderOf_add_one]
  split
  next withholds =>
    simp only [Option.bind_none, reduceCtorEq, false_iff, not_and]
    rintro proposes rfl
    exact proposes withholds
  next proposes =>
    rw [Option.bind_some, forLeader_lookup, leaderOf_add_one]
    exact ⟨fun same => ⟨same ▸ proposes,same⟩,And.right⟩

theorem Common.Earned.withholdings :
    countViews C.withproposalMap i = Nat.count (fun k => z.Withholds i ∧ k % z.size = i) v := by
  refine earned.rows view Transcript.withholdings (fun _ => rfl) rfl fun k => ?_
  simp only [Setting.transcript, leaderOf_add_one]
  split
  next withholds =>
    rw [Option.bind_some, forLeader_lookup, leaderOf_add_one]
    exact ⟨fun same => ⟨same ▸ withholds,same⟩,And.right⟩
  next proposes =>
    simp only [Option.bind_none, reduceCtorEq, false_iff, not_and]
    rintro withholds rfl
    exact proposes withholds

theorem Common.Earned.votes (inside : i < z.size) :
    countViews C.voteMap i = Nat.count (fun k => ¬z.Withholds (k % z.size)) v := by
  refine earned.rows view Transcript.votes (fun _ => rfl) rfl fun k => ?_
  simp only [Setting.transcript, leaderOf_add_one]
  split
  next withholds => simpa using withholds
  next proposes => simp [Round.everyone,lookup_fill,inside,proposes]

theorem Common.Earned.unreported {m : BehaviourMap} (get : Transcript → Option (Map Nat Nat))
    (reads : ∀ u, m.lookup u = get (C.transcript u)) (blank : get .blank = none)
    (never : ∀ u, get (z.transcript u) = none) : countViews m i = 0 := by
  rw [earned.rows view get reads blank (P := fun _ => False) fun k => by simp [never]]
  simp

end Counts

theorem Setting.count_rounds {v : Nat} (positive : 0 < z.size) :
    Nat.count (fun k => ¬z.Withholds (k % z.size)) v = z.rounds v := by
  rw [Setting.rounds]
  split
  next withhold =>
    rw [← count_evenTurns positive]
    simp only [Setting.Withholds, withhold, true_and, ne_eq, not_not]
  next plain => simp [Setting.Withholds,plain]

theorem count_own {v i : Nat} {Q : Prop} [Decidable Q] (inside : i < z.size) :
    Nat.count (fun k => Q ∧ k % z.size = i) v = if Q then turns z.size v i else 0 := by
  split
  next holds => simp only [holds, true_and, count_turns inside]
  next fails => simp [fails]

theorem maxValueCheckNum_sub (a b : Nat) : maxValueCheckNum ((a : ℚ) - b) = ((a - b : Nat) : ℚ) := by
  rw [maxValueCheckNum]
  split
  next negative =>
    have below : a < b := by exact_mod_cast sub_neg.mp negative
    rw [Nat.sub_eq_zero_of_le below.le, Nat.cast_zero]
  next positive =>
    have above : b ≤ a := by exact_mod_cast sub_nonneg.mp (not_lt.mp positive)
    rw [Nat.cast_sub above]

/-- The clamp hides what a node loses by withholding: it keeps the credit of its votes. -/
theorem Common.Earned.score (earned : C.Earned p z) {v : Nat} (view : C.view = v + 1) (few : v < 2^59) {i : Nat}
    (inside : i < z.size) :
    C.score p i = maxValueCheckScore (p.tanh (gamma * z.credit v i) + initialNodescore) := by
  have maliciousProposals : countViews C.maliproposalMap i = 0 := by
    refine earned.unreported view Transcript.maliciousProposals (fun _ => rfl) rfl fun u => ?_
    rw [Setting.transcript]
    split <;> rfl
  have equivocations : countViews C.equiproposalMap i = 0 := by
    refine earned.unreported view Transcript.equivocations (fun _ => rfl) rfl fun u => ?_
    rw [Setting.transcript]
    split <;> rfl
  have maliciousVotes : countViews C.voteMaliMap i = 0 := by
    refine earned.unreported view Transcript.maliciousVotes (fun _ => rfl) rfl fun u => ?_
    rw [Setting.transcript]
    split <;> rfl
  have led : turns z.size v i ≤ v := by
    rw [← count_turns inside]
    exact Nat.count_le _
  rw [Common.score, Common.counts, earned.proposals view, earned.votes view inside, earned.withholdings view,
    maliciousProposals, equivocations, maliciousVotes, count_own inside, count_own inside,
    Setting.count_rounds (by omega)]
  simp only [Counters.nodeScore, maxValueCheckNum_sub, Setting.credit]
  have penalty : wrap64 (turns z.size v i * 10) = turns z.size v i * 10 := wrap64_eq (by omega)
  have none : wrap64 0 = 0 := rfl
  by_cases withholds : z.Withholds i <;> simp [withholds,penalty,none]

end Views

/-! ## Runs -/

/-- The common state has been earned, and so were those with which nodes have ended views. -/
def Credited (p : Platform) (z : Setting) (s : System) : Prop :=
  ∃ C, Aligned p z s C ∧ C.Earned p z ∧ ∀ e ∈ s.log, e.state.common.Earned p z

section Runs

variable {p : Platform} {z : Setting} {s t : System} {C D : Common}

theorem Follows.view (follows : Follows p z C D) : D.view = C.view + 1 := by
  cases follows with
  | proposed R common _ => exact common ▸ rfl
  | withheld _ => rfl

theorem Aligned.late_common (aligned : Aligned p z s C) {i : Nat} (inside : i < z.size)
    (outside : (s.nodes i).state.view ≠ C.view) {node : Node} {sends : List Outgoing}
    (case : NodeCase p (z.config i) (s.nodes i) .callback node sends) : node.state.common = C := by
  have ready := aligned.ready i inside outside
  cases case with
  | calledBack n' acks case =>
    cases case with
    | kept counters stays => exact absurd ready.advances stays
    | advanced b counters _ _ => exact (nextView_common inside _ counters).trans ready.common

theorem Credited.step (laws : p.Laws) (several : 2 ≤ z.size) (mode : z.timerMode = .plain ∨ z.timerMode = .withhold)
    (credited : Credited p z s) {e : SystemEvent} (enabled : s.enabled z.cluster p e) (lockStep : LockStep z.cluster s e)
    (stepped : s.step z.cluster p e = some t) : Credited p z t := by
  obtain ⟨C,aligned,earned,logs⟩ := credited
  obtain ⟨D,next,u,moved,advanced⟩ := aligned.follows laws several mode enabled lockStep
  obtain rfl := Option.some.inj (stepped.symm.trans moved)
  have earned' : D.Earned p z := by
    rcases next with rfl | follows
    · exact earned
    · exact earned.follows aligned.good follows
  refine ⟨D,advanced,earned',?_⟩
  cases System.step_cases stepped with
  | commanded _ _ _ _ _ | delivered _ _ _ _ _ _ | worked _ _ _ _ _ _ | injected _ _ => exact logs
  | connected _ => exact lockStep.elim
  | calledBack i node sends case =>
    intro e logged
    rcases List.mem_append.mp logged with old | new
    · exact logs e old
    · by_cases here : (s.nodes i).state.view = C.view
      · obtain rfl := List.mem_singleton.mp new
        obtain ⟨_,later,common⟩ := advanced.ended _ logged
        rcases next with rfl | follows
        · exact absurd here later.ne
        · rw [common (by rw [follows.view, here])]
          exact earned'
      · obtain rfl := List.mem_singleton.mp new
        rw [aligned.late_common (Setting.honest.mp enabled.1) here case]
        exact earned

/-- In every run in lock step in which all nodes follow the code, a node that ends a view has the
records of that setting and nothing else, and stores reputations with a closed form. -/
theorem earned_reputations (laws : p.Laws) (several : 2 ≤ z.size)
    (mode : z.timerMode = .plain ∨ z.timerMode = .withhold) {trace : List SystemEvent}
    (run : ((systemMachine z.cluster p).restrict (LockStep z.cluster)).Run (System.start z.cluster) trace s)
    (nonneg : ∀ x, 0 ≤ x → 0 ≤ p.tanh x) {e : Completed} (logged : e ∈ s.log) :
    (∀ u, e.state.transcript u = if 1 ≤ u ∧ u ≤ e.view then z.transcript u else .blank) ∧
    (e.view < 2^59 → ∀ i < z.size, at2 e.state.reputationMap (e.view + 1) i =
      some (initialNodescore + p.tanh (gamma * z.credit e.view i))) := by
  obtain ⟨C,aligned,_,logs⟩ : Credited p z s := by
    refine run.invariant ⟨_,start_aligned p z,initial_earned p z,by simp [System.start]⟩ ?_
    intro s e t credited admitted
    exact credited.step laws several mode admitted.1 admitted.2
  have earned := logs e logged
  have ended := (aligned.ended e logged).1
  have view : e.state.common.view = e.view + 1 := ended.view
  constructor
  · intro u
    refine (earned.records u).trans (if_congr ?_ rfl rfl)
    omega
  · intro few i inside
    have later : e.state.common.view ≠ 1 := fun first => ended.nonzero (Nat.succ_injective (ended.good.head.trans first))
    have scored := earned.scored later i inside
    have credit : (0 : ℚ) ≤ gamma * z.credit e.view i := mul_nonneg (by norm_num [gamma]) (Nat.cast_nonneg _)
    rw [earned.score view few inside, view, maxValueCheckScore_add (nonneg _ credit)] at scored
    exact scored

end Runs

theorem leader_earns_twice : ∃ e : Completed, e.view = 1 ∧
    at2 e.state.reputationMap 2 0 = some (initialNodescore + transparent.tanh (gamma * (2 : Nat))) ∧
    at2 e.state.reputationMap 2 1 = some (initialNodescore + transparent.tanh (gamma * (1 : Nat))) := by
  obtain ⟨s,run,completed⟩ : ∃ s, ((systemMachine (Setting.cluster ⟨2,1,false,.plain⟩) transparent).restrict
      (LockStep (Setting.cluster ⟨2,1,false,.plain⟩))).Run (System.start (Setting.cluster ⟨2,1,false,.plain⟩))
      twoNodeRound s ∧ (1 ∈ s.log.map Completed.view) := by
    apply Guarded.Machine.reaches
    decide +kernel
  obtain ⟨e,logged,view⟩ := List.mem_map.mp completed
  have earned := (earned_reputations (z := ⟨2,1,false,.plain⟩) transparent_laws le_rfl (.inl rfl) run
    (fun _ => id) logged).2
    (by rw [view]; norm_num)
  rw [view] at earned
  exact ⟨e,view,earned 0 (by decide),earned 1 (by decide)⟩

end ReputationSMR
